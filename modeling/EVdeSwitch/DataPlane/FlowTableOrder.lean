import EVdeSwitch.DataPlane.FlowTableFaults
import Mathlib.Data.List.Find

/-!
# FlowTableOrder — flows that an insertion loses

`flow_table_insert` stores the new entry into the place it has found without a look at what is
there (`src/data_plane/flow_table.c`); what was below that place is below it no longer.  So an
insertion keeps the other flows exactly if none of them is below, and as long as this is so, the
trie holds the last flow inserted at each place, in whatever order.
-/

namespace EVdeSwitch
namespace DataPlane

open EVdeSwitch.Lib
open EVdeSwitch.Utils

abbrev Flow : Type :=
  FlowKey × FlowAction

/-- The last one of the insertions whose key has these bits. -/
def lastFlow (log : List Flow) (address : List Bool) : Option Flow :=
  log.find? fun flow => flow.1.bits = address

/-- The insertions that have returned 0, the last one first. -/
def recordInsert (r : Except Halt FlowTable) (call : TableCall) (_r' : Except Halt FlowTable)
    (log : List Flow) : List Flow :=
  match call, r.bind fun table => table.perform call with
  | .insert key action _, .ok (result, _) => if result = 0 then (key, action) :: log else log
  | _, _ => log

namespace FlowTable

/-- The flow at a place of the trie; a record that has been filled in is none. -/
def flowAt (table : FlowTable) (address : List Bool) : Option Flow :=
  ((table.trie_root.nodeAt address).filter fun entry => entry.serial.isSome).map fun entry =>
    (entry.key, entry.action)

/-- Every other entry is still in its place, and the new one is in the place of its key and in no
other. -/
structure KeepsFlows (table : FlowTable) (key : FlowKey) (action : FlowAction)
    (table' : FlowTable) : Prop where
  others : ∀ address entry, table.trie_root.nodeAt address = some entry →
    entry.serial.isSome = true → address ≠ key.bits → table'.trie_root.nodeAt address = some entry
  placed : ∀ address, table'.trie_root.nodeAt address = some (table.newEntry key action) ↔
    address = key.bits

/-- No flow is below the place of the key. -/
def NothingBelow (table : FlowTable) (key : FlowKey) : Prop :=
  ∀ address, key.bits <+: address → address ≠ key.bits → table.flowAt address = none

variable {table table' : FlowTable} {key : FlowKey} {action : FlowAction} {calloc : Nat → Bool}
  {log : List Flow} {address : List Bool}

/-! ## One call -/

theorem flowAt_eq_none : table.flowAt address = none ↔
    ∀ entry, table.trie_root.nodeAt address = some entry → entry.serial = none := by
  cases hnode : table.trie_root.nodeAt address with
  | none => simp [flowAt, hnode]
  | some entry => cases hserial : entry.serial <;> simp [flowAt, hnode, hserial]

theorem flowAt_inserted (table : FlowTable) (key : FlowKey) (action : FlowAction)
    (address : List Bool) :
    (table.inserted key action).flowAt address =
      if key.bits = address then some (key, action)
      else if key.bits <+: address then none
      else table.flowAt address := by
  by_cases hself : key.bits = address
  · subst hself
    simp [flowAt, inserted, Trie.nodeAt_put_self, newEntry]
  · rw [if_neg hself]
    by_cases hbelow : key.bits <+: address
    · rw [if_pos hbelow]
      simp [flowAt, inserted, Trie.nodeAt_put_below hbelow (Ne.symm hself)]
    · rw [if_neg hbelow, flowAt, flowAt, inserted, Trie.nodeAt_put_of_apart hbelow]
      -- what is filled in is no flow
      cases table.trie_root.nodeAt address with
      | some entry => rfl
      | none =>
          rw [Option.none_or]
          split <;> rfl

theorem flowAt_linked {trie_root : Trie FlowEntry}
    (h : table.trie_root.Extends .zeroed trie_root) (address : List Bool) :
    (table.linked key action trie_root).flowAt address = table.flowAt address := by
  rcases h address with hold | ⟨hnone, hfill⟩
  · rw [flowAt, flowAt, linked, hold]
  · rw [flowAt, flowAt, linked, hnone, hfill]
    rfl

/-- A call that fails leaves the flows where they are. -/
theorem insertWith_flows {result : Int}
    (h : flowTableInsertWith calloc table key action = .ok (result, table')) :
    (result = 0 ∧ table' = table.inserted key action) ∨
      (result = -1 ∧ ∀ address, table'.flowAt address = table.flowAt address) := by
  cases performed_of_insertWith h with
  | refused _ => exact Or.inr ⟨rfl, fun _ => rfl⟩
  | inserted _ => exact Or.inl ⟨rfl, rfl⟩
  | failed _ hextends => exact Or.inr ⟨rfl, flowAt_linked hextends⟩

/-- An insertion keeps the other flows exactly if none of them is below. -/
theorem Records.keepsFlows_iff (h : table.Records)
    (hcall : flowTableInsertWith calloc table key action = .ok (0, table')) :
    table.KeepsFlows key action table' ↔ table.NothingBelow key := by
  have hinserted := eq_inserted_of_insertWith hcall
  subst hinserted
  constructor
  · intro hkeeps address hextends hne
    rw [flowAt_eq_none]
    intro entry hnode
    by_contra hserial
    have hstays := hkeeps.others address entry hnode (Option.isSome_iff_ne_none.2 hserial) hne
    rw [FlowTable.inserted, Trie.nodeAt_put_below hextends hne] at hstays
    cases hstays
  · intro hnothing
    refine
      { others := ?_
        placed := ?_ }
    · intro address entry hnode hserial hne
      by_cases hbelow : key.bits <+: address
      · have hnone := flowAt_eq_none.1 (hnothing address hbelow hne) entry hnode
        rw [hnone] at hserial
        cases hserial
      · rw [FlowTable.inserted, Trie.nodeAt_put_of_apart hbelow, hnode, Option.some_or]
    · intro address
      constructor
      · intro hnode
        rcases Trie.nodeAt_put_eq_some hnode with ⟨hself, _⟩ | ⟨_, hold | ⟨_, hfill⟩⟩
        · exact hself
        · -- the new entry has not been in the trie before
          rcases h.trie_serial address _ hold with hzero | ⟨serial, hserial, hlt⟩
          · exact absurd hzero newEntry_ne_zeroed
          · cases hserial
            exact absurd hlt (Nat.lt_irrefl _)
        · exact absurd hfill newEntry_ne_zeroed
      · rintro rfl
        exact Trie.nodeAt_put_self ..

/-! ## Runs -/

/-- The trie holds the last flow inserted at each place. -/
def HoldsFlows : Except Halt FlowTable × List Flow → Prop
  | (.ok table, log) => ∀ address, table.flowAt address = lastFlow log address
  | (.error _, _) => True

/-- A successful insertion is one of a key with no flow below. -/
def InsertsAbove : Except Halt FlowTable × List Flow → TableCall → Prop
  | (.ok table, _), .insert key action calloc =>
      (∃ table', flowTableInsertWith calloc table key action = .ok (0, table')) →
        table.NothingBelow key
  | _, _ => True

theorem lastFlow_cons (flow : Flow) (log : List Flow) (address : List Bool) :
    lastFlow (flow :: log) address =
      if flow.1.bits = address then some flow else lastFlow log address := by
  by_cases h : flow.1.bits = address <;> simp [lastFlow, h]

/-- A successful insertion into a trie that holds the flows. -/
theorem holdsFlows_inserted (h : ∀ address, table.flowAt address = lastFlow log address) :
    (∀ address, (table.inserted key action).flowAt address =
        lastFlow ((key, action) :: log) address) ↔ table.NothingBelow key := by
  constructor
  · intro hholds address hextends hne
    have hbelow := hholds address
    rw [flowAt_inserted, lastFlow_cons, if_neg (Ne.symm hne), if_pos hextends,
      if_neg (Ne.symm hne)] at hbelow
    rw [h address, ← hbelow]
  · intro hnothing address
    rw [flowAt_inserted, lastFlow_cons]
    by_cases hself : key.bits = address
    · rw [if_pos hself, if_pos hself]
    · rw [if_neg hself, if_neg hself, ← h address]
      split
      · next hextends => exact (hnothing address hextends (Ne.symm hself)).symm
      · rfl

theorem recordInsert_insert {result : Int} {r' : Except Halt FlowTable}
    (h : flowTableInsertWith calloc table key action = .ok (result, table')) :
    recordInsert (.ok table) (.insert key action calloc) r' log =
      if result = 0 then (key, action) :: log else log := by
  simp only [recordInsert, perform, h, Except.bind]

/-- What one call does to a trie that holds the flows. -/
theorem holdsFlows_step {x y : Except Halt FlowTable × List Flow} {call : TableCall}
    (hx : HoldsFlows x) (h : (flowTableWithFaults.withHistory recordInsert).step x call = some y) :
    HoldsFlows y ↔ InsertsAbove x call := by
  rcases Machine.withHistory_step.1 h with ⟨hstep, hlog⟩
  rcases x with ⟨r, log⟩
  cases r with
  | error halt => cases hstep
  | ok table =>
      have hholds : ∀ address, table.flowAt address = lastFlow log address := hx
      have hr : y.1 = (table.perform call).map Prod.snd := step_withFaults hstep
      cases call with
      | delete key =>
          -- the trie is left as it is
          have htrie : (flowTableDelete table key).2.trie_root = table.trie_root := by
            rw [flowTableDelete]
            split <;> rfl
          have hy : y = (.ok (flowTableDelete table key).2, log) := Prod.ext hr hlog
          rw [hy]
          refine iff_of_true ?_ trivial
          intro address
          rw [flowAt, htrie]
          exact hholds address
      | insert key action calloc =>
          cases hcall : flowTableInsertWith calloc table key action with
          | error halt =>
              have hy : y = (.error halt, y.2) := Prod.ext (by rw [hr, perform, hcall]; rfl) rfl
              rw [hy]
              refine iff_of_true trivial ?_
              rintro ⟨table', hsuccess⟩
              rw [hcall] at hsuccess
              cases hsuccess
          | ok result =>
              rcases result with ⟨result, table'⟩
              have hnew : y.2 = if result = 0 then (key, action) :: log else log :=
                hlog.trans (recordInsert_insert hcall)
              have htable : y.1 = .ok table' := by
                rw [hr, perform, hcall]
                rfl
              rcases insertWith_flows hcall with ⟨rfl, rfl⟩ | ⟨rfl, hsame⟩
              · have hy : y = (.ok (table.inserted key action), (key, action) :: log) :=
                  Prod.ext htable hnew
                rw [hy]
                refine (holdsFlows_inserted hholds).trans ?_
                constructor
                · intro hnothing _
                  exact hnothing
                · intro hinserts
                  exact hinserts ⟨_, hcall⟩
              · have hy : y = (.ok table', log) := Prod.ext htable hnew
                rw [hy]
                refine iff_of_true ?_ ?_
                · intro address
                  rw [hsame]
                  exact hholds address
                · rintro ⟨table'', hsuccess⟩
                  rw [hcall] at hsuccess
                  cases hsuccess

theorem holdsFlows_create : HoldsFlows (.ok flowTableCreate, []) := by
  intro address
  simp [flowAt, flowTableCreate, lastFlow]

theorem holdsFlows_iff {calls : List TableCall} {x : Except Halt FlowTable × List Flow}
    (hrun : (flowTableWithFaults.withHistory recordInsert).run (.ok flowTableCreate, []) calls =
      some x) :
    (flowTableWithFaults.withHistory recordInsert).Always HoldsFlows (.ok flowTableCreate, [])
        calls ↔
      (flowTableWithFaults.withHistory recordInsert).Guarded InsertsAbove (.ok flowTableCreate, [])
        calls :=
  Machine.always_iff_guarded (fun _ => True) HoldsFlows
    (fun _ _ _ _ hx hstep => ⟨trivial, holdsFlows_step hx hstep⟩) trivial holdsFlows_create hrun

/-! ## In whatever order -/

/-- Among keys with different bits the order of the insertions does not matter. -/
theorem lastFlow_perm {log' : List Flow} (h : log.Perm log')
    (hbits : (log.map fun flow => flow.1.bits).Nodup) (address : List Bool) :
    lastFlow log address = lastFlow log' address := by
  refine List.find?_eq_find?_of_perm h ?_
  rintro flow ⟨hflow, haddress⟩ flow' ⟨hflow', haddress'⟩
  have hsame : flow.1.bits = flow'.1.bits :=
    (of_decide_eq_true haddress).trans (of_decide_eq_true haddress').symm
  exact List.inj_on_of_nodup_map hbits hflow hflow' hsame

theorem flowAt_of_guarded {calls : List TableCall}
    (hrun : (flowTableWithFaults.withHistory recordInsert).run (.ok flowTableCreate, []) calls =
      some (.ok table, log))
    (h : (flowTableWithFaults.withHistory recordInsert).Guarded InsertsAbove
      (.ok flowTableCreate, []) calls) (address : List Bool) :
    table.flowAt address = lastFlow log address :=
  (holdsFlows_iff hrun).2 h calls List.prefix_rfl _ hrun address

theorem reaches_of_run {calls : List TableCall}
    (hrun : (flowTableWithFaults.withHistory recordInsert).run (.ok flowTableCreate, []) calls =
      some (.ok table, log)) : flowTableWithFaults.Reaches (.ok flowTableCreate) (.ok table) :=
  ⟨calls, Machine.run_of_withHistory hrun⟩

/-- In every state of a run the trie holds the last flow inserted at each place, if and only if
every successful insertion is one of a key with no flow below its place; in whatever state the run
ends, the next insertion keeps the other flows and puts the new one into its place exactly if that
is so; and another such run, with the same insertions of keys with different bits in whatever
order, ends with the same flows. -/
theorem insertions_keep_flows_iff {calls : List TableCall}
    {x : Except Halt FlowTable × List Flow}
    (hrun : (flowTableWithFaults.withHistory recordInsert).run (.ok flowTableCreate, []) calls =
      some x) :
    ((flowTableWithFaults.withHistory recordInsert).Always HoldsFlows (.ok flowTableCreate, [])
        calls ↔
      (flowTableWithFaults.withHistory recordInsert).Guarded InsertsAbove (.ok flowTableCreate, [])
        calls) ∧
    (∀ table table' key action calloc, x.1 = .ok table →
      flowTableInsertWith calloc table key action = .ok (0, table') →
        (table.KeepsFlows key action table' ↔ table.NothingBelow key)) ∧
    ((flowTableWithFaults.withHistory recordInsert).Guarded InsertsAbove (.ok flowTableCreate, [])
        calls →
      ∀ calls' table table' log', x.1 = .ok table →
        (flowTableWithFaults.withHistory recordInsert).run (.ok flowTableCreate, []) calls' =
          some (.ok table', log') →
        (flowTableWithFaults.withHistory recordInsert).Guarded InsertsAbove
          (.ok flowTableCreate, []) calls' →
        x.2.Perm log' → (x.2.map fun flow => flow.1.bits).Nodup →
          ∀ address, table.flowAt address = table'.flowAt address) := by
  refine ⟨holdsFlows_iff hrun, ?_, ?_⟩
  · rcases x with ⟨r, log⟩
    rintro table table' key action calloc rfl hcall
    exact (records_of_reaches (reaches_of_run hrun)).keepsFlows_iff hcall
  · rcases x with ⟨r, log⟩
    rintro hguard calls' table table' log' rfl hrun' hguard' hperm hbits address
    rw [flowAt_of_guarded hrun hguard, flowAt_of_guarded hrun' hguard',
      lastFlow_perm hperm hbits]

/-! ## A short key and two long ones -/

section Example

theorem step_insertion (h : table.freed = []) (log : List Flow) :
    (flowTableWithFaults.withHistory recordInsert).step (.ok table, log) (insertion key) =
      some (.ok (table.inserted key (output 1)), (key, output 1) :: log) := by
  refine Machine.withHistory_step.2 ⟨step_insertion_withFaults h, ?_⟩
  exact ((recordInsert_insert (insertWith_of_unfreed h fun _ => rfl)).trans (if_pos rfl)).symm

theorem nothingBelow_create (key : FlowKey) : flowTableCreate.NothingBelow key := by
  intro address _ _
  simp [flowAt, flowTableCreate]

theorem NothingBelow.inserted {key' : FlowKey} (h : table.NothingBelow key)
    (hnot : ¬ key.bits <+: key'.bits) : (table.inserted key' action).NothingBelow key := by
  intro address hextends hne
  rw [flowAt_inserted]
  split
  · next hself => exact absurd (hself ▸ hextends) hnot
  · split
    · rfl
    · exact h address hextends hne

/-- A key that does not begin as the short one. -/
def sideKey : FlowKey :=
  { longKey with field := longKey.field.set 0 0x80 (by decide) }

/-- The table after two insertions. -/
def twice (key key' : FlowKey) : FlowTable :=
  (flowTableCreate.inserted key (output 1)).inserted key' (output 1)

theorem run_twice (key key' : FlowKey) :
    (flowTableWithFaults.withHistory recordInsert).run (.ok flowTableCreate, [])
        [insertion key, insertion key'] =
      some (.ok (twice key key'), [(key', output 1), (key, output 1)]) := by
  refine Machine.run_cons_of_step _ (step_insertion rfl []) ?_
  exact Machine.run_cons_of_step _ (step_insertion rfl [(key, output 1)]) rfl

theorem guarded_twice {key key' : FlowKey} (h : ¬ key'.bits <+: key.bits) :
    (flowTableWithFaults.withHistory recordInsert).Guarded InsertsAbove (.ok flowTableCreate, [])
      [insertion key, insertion key'] := by
  refine ⟨fun _ => nothingBelow_create key, ?_⟩
  intro x hx
  rw [step_insertion rfl []] at hx
  cases hx
  refine ⟨fun _ => (nothingBelow_create key').inserted h, ?_⟩
  intro _ _
  trivial

/-- Two keys of which neither extends the other, in both orders. -/
theorem insertions_keep_flows_iff_twice :
    flowTableCreate.KeepsFlows shortKey (output 1) (flowTableCreate.inserted shortKey (output 1)) ∧
    (flowTableWithFaults.withHistory recordInsert).Always HoldsFlows (.ok flowTableCreate, [])
      [insertion shortKey, insertion sideKey] ∧
    ∀ address, (twice shortKey sideKey).flowAt address = (twice sideKey shortKey).flowAt address := by
  have hside : ¬ sideKey.bits <+: shortKey.bits := by decide +kernel
  have hshort : ¬ shortKey.bits <+: sideKey.bits := by decide +kernel
  have hempty : (flowTableWithFaults.withHistory recordInsert).run (.ok flowTableCreate, []) [] =
      some (.ok flowTableCreate, []) := rfl
  refine ⟨?_, ?_, ?_⟩
  · exact ((insertions_keep_flows_iff hempty).2.1 flowTableCreate _ shortKey (output 1)
      (fun _ => true) rfl (insertWith_of_unfreed rfl fun _ => rfl)).2 (nothingBelow_create shortKey)
  · exact (insertions_keep_flows_iff (run_twice shortKey sideKey)).1.2 (guarded_twice hside)
  · exact (insertions_keep_flows_iff (run_twice shortKey sideKey)).2.2 (guarded_twice hside) _ _ _ _
      rfl (run_twice sideKey shortKey) (guarded_twice hshort) (List.Perm.swap _ _ _)
      (by decide +kernel)

/-- A short key that is inserted after a long one that extends it: the long one is lost. -/
theorem not_insertions_keep_flows :
    flowTableWithFaults.Reaches (.ok flowTableCreate)
        (.ok (flowTableCreate.inserted longKey (output 1))) ∧
      flowTableInsertWith (fun _ => true) (flowTableCreate.inserted longKey (output 1)) shortKey
        (output 1) = .ok (0, twice longKey shortKey) ∧
      ¬ (flowTableCreate.inserted longKey (output 1)).KeepsFlows shortKey (output 1)
        (twice longKey shortKey) := by
  refine ⟨⟨[insertion longKey], ?_⟩, insertWith_of_unfreed rfl fun _ => rfl, ?_⟩
  · exact Machine.run_cons_of_step _ (step_insertion_withFaults rfl) rfl
  · intro hkeeps
    have hlong := hkeeps.others longKey.bits (flowTableCreate.newEntry longKey (output 1))
      (Trie.nodeAt_put_self ..) rfl (by decide +kernel)
    have hnone : (twice longKey shortKey).trie_root.nodeAt longKey.bits = none :=
      Trie.nodeAt_put_below (by decide +kernel) (by decide +kernel) _
    rw [hnone] at hlong
    cases hlong

end Example

end FlowTable

end DataPlane
end EVdeSwitch
