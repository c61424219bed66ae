import EVdeSwitch.DataPlane.FlowTableRuns

/-!
# FlowTableFaults — insertions that run out of memory

`flow_table_insert` calls `calloc` for the entry and for every node that is missing on the way
through the trie, and returns -1 as soon as a call fails (`src/data_plane/flow_table.c`).  The entry
is linked into the chain of its key before the way through the trie is made; so nothing has
happened exactly if the first of the calls is the one that fails.
-/

namespace EVdeSwitch
namespace DataPlane

open EVdeSwitch.Lib
open EVdeSwitch.Utils

/-! ## `flow_table_insert` -/

/-- The loop through the trie, with the number of calls of `calloc` made before; `calloc n` tells
whether call `n` succeeds. -/
def insertPath (isFreed : FlowEntry → Bool) (calloc : Nat → Bool) (new_entry : FlowEntry) :
    Nat → List Bool → Trie FlowEntry → Except Halt (Int × Trie FlowEntry)
  | _, [], _ => .ok (0, .node new_entry .null .null)
  | n, bit :: bits, .null =>
      if calloc n then
        (insertPath isFreed calloc new_entry (n + 1) bits .null).map fun result =>
          (result.1, Trie.withChild .zeroed .null .null bit result.2)
      else
        .ok (-1, .null)
  | n, bit :: bits, .node entry zero one =>
      if isFreed entry then
        .error .crash
      else
        (insertPath isFreed calloc new_entry n bits (bif bit then one else zero)).map fun result =>
          (result.1, Trie.withChild entry zero one bit result.2)

def flowTableInsertWith (calloc : Nat → Bool) (table : FlowTable) (key : FlowKey)
    (action : FlowAction) : Except Halt (Int × FlowTable) :=
  if calloc 0 then
    let new_entry : FlowEntry :=
      { serial := some table.created
        key := key
        action := action }
    (insertPath table.isFreed calloc new_entry 1 key.bits table.trie_root).map fun result =>
      (result.1,
        { table with
          hash_table := Function.update table.hash_table (hashFunction key)
            (new_entry :: table.bucket key)
          trie_root := result.2
          created := table.created + 1 })
  else
    .ok (-1, table)

section Loop

variable {isFreed : FlowEntry → Bool} {calloc : Nat → Bool} {new_entry : FlowEntry}

/-- As long as memory does not run out, this is the loop with nothing else in it. -/
theorem insertPath_of_all (h : ∀ n, calloc n = true) (n : Nat) (bits : List Bool)
    (t : Trie FlowEntry) :
    insertPath isFreed calloc new_entry n bits t =
      (insertAt isFreed new_entry bits t).map fun t' => (0, t') := by
  induction bits generalizing n t with
  | nil => rfl
  | cons bit bits ih =>
      cases t with
      | null =>
          rw [insertPath, if_pos (h n), ih, insertAt]
          cases insertAt isFreed new_entry bits .null <;> rfl
      | node entry zero one =>
          rw [insertPath, insertAt, ih]
          split
          · rfl
          · cases insertAt isFreed new_entry bits (bif bit then one else zero) <;> rfl

theorem flowTableInsertWith_of_all (h : ∀ n, calloc n = true) (table : FlowTable) (key : FlowKey)
    (action : FlowAction) :
    flowTableInsertWith calloc table key action = flowTableInsert table key action := by
  rw [flowTableInsertWith, if_pos (h 0), flowTableInsert]
  simp only [insertPath_of_all h]
  cases insertAt table.isFreed _ key.bits table.trie_root <;> rfl

variable (isFreed calloc new_entry) in
/-- The walk comes to a freed node, or the entry gets its place, or the walk ends on the way, with
nodes filled in. -/
theorem insertPath_cases (n : Nat) (bits : List Bool) (t : Trie FlowEntry) :
    ((t.above bits).any isFreed = true ∧
        insertPath isFreed calloc new_entry n bits t = .error .crash) ∨
      ((t.above bits).any isFreed = false ∧
        (insertPath isFreed calloc new_entry n bits t = .ok (0, t.put .zeroed new_entry bits) ∨
          ∃ t', insertPath isFreed calloc new_entry n bits t = .ok (-1, t') ∧
            t.Extends .zeroed t')) := by
  induction bits generalizing n t with
  | nil => exact Or.inr ⟨rfl, Or.inl rfl⟩
  | cons bit bits ih =>
      cases t with
      | null =>
          refine Or.inr ⟨rfl, ?_⟩
          rw [insertPath]
          by_cases hcalloc : calloc n = true
          · rw [if_pos hcalloc]
            have hnothing : (Trie.null : Trie FlowEntry).above bits = [] := by
              cases bits <;> rfl
            rcases ih (n + 1) .null with ⟨hfreed, _⟩ | ⟨_, hplaced | ⟨t', hfailed, hextends⟩⟩
            · rw [hnothing] at hfreed
              cases hfreed
            · rw [hplaced]
              exact Or.inl rfl
            · rw [hfailed]
              exact Or.inr ⟨_, rfl, hextends.fill_withChild bit⟩
          · rw [if_neg hcalloc]
            exact Or.inr ⟨.null, rfl, Trie.Extends.refl _ _⟩
      | node entry zero one =>
          rw [insertPath, Trie.above, List.any_cons]
          cases hentry : isFreed entry with
          | true => exact Or.inl ⟨rfl, rfl⟩
          | false =>
              rw [Bool.false_or, if_neg Bool.false_ne_true]
              rcases ih n (bif bit then one else zero) with
                ⟨hfreed, hcrash⟩ | ⟨hread, hplaced | ⟨t', hfailed, hextends⟩⟩
              · rw [hcrash]
                exact Or.inl ⟨hfreed, rfl⟩
              · rw [hplaced]
                exact Or.inr ⟨hread, Or.inl rfl⟩
              · rw [hfailed]
                exact Or.inr ⟨hread, Or.inr ⟨_, rfl, hextends.withChild bit⟩⟩

end Loop

namespace FlowTable

variable {table table' : FlowTable} {key : FlowKey} {action : FlowAction} {calloc : Nat → Bool}

/-- What a call can do that allocates the entry: come to a freed node, succeed, or link the entry
into its chain and end on the way through the trie. -/
theorem insertWith_cases (h : calloc 0 = true) (table : FlowTable) (key : FlowKey)
    (action : FlowAction) :
    ((∃ entry ∈ table.trie_root.above key.bits, table.isFreed entry = true) ∧
        flowTableInsertWith calloc table key action = .error .crash) ∨
      ((∀ entry ∈ table.trie_root.above key.bits, table.isFreed entry = false) ∧
        (flowTableInsertWith calloc table key action = .ok (0, table.inserted key action) ∨
          ∃ trie_root, flowTableInsertWith calloc table key action =
              .ok (-1, table.linked key action trie_root) ∧
            table.trie_root.Extends .zeroed trie_root)) := by
  have hcall : flowTableInsertWith calloc table key action =
      (insertPath table.isFreed calloc (table.newEntry key action) 1 key.bits
        table.trie_root).map fun result => (result.1, table.linked key action result.2) := by
    rw [flowTableInsertWith, if_pos h]
    rfl
  rcases insertPath_cases table.isFreed calloc (table.newEntry key action) 1 key.bits
    table.trie_root with ⟨hfreed, hcrash⟩ | ⟨hread, hplaced | ⟨trie_root, hfailed, hextends⟩⟩
  · rw [hcall, hcrash]
    exact Or.inl ⟨List.any_eq_true.1 hfreed, rfl⟩
  · rw [hcall, hplaced]
    exact Or.inr ⟨fun entry hentry => by simpa using List.any_eq_false.1 hread entry hentry,
      Or.inl rfl⟩
  · rw [hcall, hfailed]
    exact Or.inr ⟨fun entry hentry => by simpa using List.any_eq_false.1 hread entry hentry,
      Or.inr ⟨trie_root, rfl, hextends⟩⟩

theorem insertWith_of_first_fails (h : calloc 0 = false) :
    flowTableInsertWith calloc table key action = .ok (-1, table) := by
  rw [flowTableInsertWith, h, if_neg Bool.false_ne_true]

end FlowTable

/-! ## Runs -/

/-- A call, with the outcomes of `calloc` during it. -/
inductive TableCall
  | insert (key : FlowKey) (action : FlowAction) (calloc : Nat → Bool)
  | delete (key : FlowKey)

/-- One call, with its result. -/
def FlowTable.perform (table : FlowTable) : TableCall → Except Halt (Int × FlowTable)
  | .insert key action calloc => flowTableInsertWith calloc table key action
  | .delete key => .ok (flowTableDelete table key)

namespace FlowTable

variable {table table' : FlowTable} {key : FlowKey} {action : FlowAction} {calloc : Nat → Bool}
  {call : TableCall} {result : Int}

/-- What a call that returns has done. -/
inductive Performed (table : FlowTable) : TableCall → Int → FlowTable → Prop where
  | refused {key : FlowKey} {action : FlowAction} {calloc : Nat → Bool} (h : calloc 0 = false) :
      Performed table (.insert key action calloc) (-1) table
  | inserted {key : FlowKey} {action : FlowAction} {calloc : Nat → Bool} (h : calloc 0 = true) :
      Performed table (.insert key action calloc) 0 (table.inserted key action)
  | failed {key : FlowKey} {action : FlowAction} {calloc : Nat → Bool}
      {trie_root : Trie FlowEntry} (h : calloc 0 = true)
      (hextends : table.trie_root.Extends .zeroed trie_root) :
      Performed table (.insert key action calloc) (-1) (table.linked key action trie_root)
  | absent {key : FlowKey} (h : table.first key = none) :
      Performed table (.delete key) (-1) table
  | removed {key : FlowKey} {to_delete : FlowEntry} (h : table.first key = some to_delete) :
      Performed table (.delete key) 0 (table.removed key to_delete)

theorem performed_of_insertWith
    (h : flowTableInsertWith calloc table key action = .ok (result, table')) :
    table.Performed (.insert key action calloc) result table' := by
  cases hcalloc : calloc 0 with
  | false =>
      rw [insertWith_of_first_fails hcalloc] at h
      cases h
      exact .refused hcalloc
  | true =>
      rcases insertWith_cases hcalloc table key action with
        ⟨_, hcrash⟩ | ⟨_, hplaced | ⟨trie_root, hfailed, hextends⟩⟩
      · rw [hcrash] at h
        cases h
      · rw [hplaced] at h
        cases h
        exact .inserted hcalloc
      · rw [hfailed] at h
        cases h
        exact .failed hcalloc hextends

theorem performed_of_perform (h : table.perform call = .ok (result, table')) :
    table.Performed call result table' := by
  cases call with
  | insert key action calloc => exact performed_of_insertWith h
  | delete key =>
      rw [perform] at h
      cases hfirst : table.first key with
      | none =>
          rw [delete_of_absent hfirst] at h
          cases h
          exact .absent hfirst
      | some to_delete =>
          rw [delete_of_first hfirst] at h
          cases h
          exact .removed hfirst

theorem eq_inserted_of_insertWith
    (h : flowTableInsertWith calloc table key action = .ok (0, table')) :
    table' = table.inserted key action := by
  cases performed_of_insertWith h with
  | inserted _ => rfl

end FlowTable

/-- All sequences of calls, as far as their behaviour is defined. -/
def flowTableWithFaults : Machine (Except Halt FlowTable) TableCall :=
  { step := fun r call =>
      match r with
      | .ok table => some ((table.perform call).map Prod.snd)
      | .error _ => none }

namespace FlowTable

/-- Besides the entries of the chains, the trie holds records that have been filled in and entries
that have been made, each in the place of its key. -/
structure Records (table : FlowTable) : Prop where
  chains : table.Chains
  trie_bits : ∀ address entry, table.trie_root.nodeAt address = some entry →
    entry = .zeroed ∨ entry.key.bits = address
  trie_serial : ∀ address entry, table.trie_root.nodeAt address = some entry →
    entry = .zeroed ∨ ∃ serial, entry.serial = some serial ∧ serial < table.created

variable {table table' : FlowTable} {key : FlowKey} {action : FlowAction} {calloc : Nat → Bool}

theorem records_create : flowTableCreate.Records where
  chains := inv_create.chains
  trie_bits := inv_create.trie_bits
  trie_serial := by simp [flowTableCreate]

theorem Records.inserted (h : table.Records) (key : FlowKey) (action : FlowAction) :
    (table.inserted key action).Records where
  chains := h.chains.linked key action _
  trie_bits := by
    intro address entry hnode
    rcases Trie.nodeAt_put_eq_some hnode with ⟨rfl, rfl⟩ | ⟨_, hold | ⟨_, hfill⟩⟩
    · exact Or.inr rfl
    · exact h.trie_bits address entry hold
    · exact Or.inl hfill
  trie_serial := by
    intro address entry hnode
    rcases Trie.nodeAt_put_eq_some hnode with ⟨_, rfl⟩ | ⟨_, hold | ⟨_, hfill⟩⟩
    · exact Or.inr ⟨table.created, rfl, Nat.lt_succ_self _⟩
    · refine (h.trie_serial address entry hold).imp_right ?_
      rintro ⟨serial, hserial, hlt⟩
      exact ⟨serial, hserial, Nat.lt_succ_of_lt hlt⟩
    · exact Or.inl hfill

theorem Records.linked (h : table.Records) {trie_root : Trie FlowEntry}
    (hextends : table.trie_root.Extends .zeroed trie_root) :
    (table.linked key action trie_root).Records where
  chains := h.chains.linked key action _
  trie_bits := by
    intro address entry hnode
    rcases hextends address with hold | ⟨_, hfill⟩
    · exact h.trie_bits address entry (hold.symm.trans hnode)
    · exact Or.inl (Option.some.inj (hnode.symm.trans hfill))
  trie_serial := by
    intro address entry hnode
    rcases hextends address with hold | ⟨_, hfill⟩
    · refine (h.trie_serial address entry (hold.symm.trans hnode)).imp_right ?_
      rintro ⟨serial, hserial, hlt⟩
      exact ⟨serial, hserial, Nat.lt_succ_of_lt hlt⟩
    · exact Or.inl (Option.some.inj (hnode.symm.trans hfill))

theorem Records.removed (h : table.Records) {to_delete : FlowEntry}
    (hfirst : table.first key = some to_delete) : (table.removed key to_delete).Records where
  chains := h.chains.removed hfirst
  trie_bits := h.trie_bits
  trie_serial := h.trie_serial

theorem Records.perform (h : table.Records) {call : TableCall} {result : Int}
    (hcall : table.perform call = .ok (result, table')) : table'.Records := by
  cases performed_of_perform hcall with
  | refused _ => exact h
  | inserted _ => exact h.inserted _ _
  | failed _ hextends => exact h.linked hextends
  | absent _ => exact h
  | removed hfirst => exact h.removed hfirst

theorem step_withFaults {table : FlowTable} {call : TableCall} {r : Except Halt FlowTable}
    (h : flowTableWithFaults.step (.ok table) call = some r) :
    r = (table.perform call).map Prod.snd :=
  (Option.some.inj h).symm

theorem records_of_reaches (h : flowTableWithFaults.Reaches (.ok flowTableCreate) (.ok table)) :
    table.Records := by
  have hinv : ∀ table', Except.ok table = Except.ok (ε := Halt) table' → table'.Records := by
    refine h.invariant (fun r => ∀ table', r = .ok table' → table'.Records) ?_ ?_
    · intro r call r' hr hstep table' htable'
      cases r with
      | error halt => cases hstep
      | ok table₀ =>
          rw [htable'] at hstep
          have hcall := step_withFaults hstep
          cases hperform : table₀.perform call with
          | error halt =>
              rw [hperform] at hcall
              cases hcall
          | ok result =>
              rcases result with ⟨result, table₁⟩
              rw [hperform] at hcall
              cases hcall
              exact (hr table₀ rfl).perform hperform
    · rintro table' ⟨⟩
      exact records_create
  exact hinv table rfl

/-! ## Insertions without a fault -/

/-- As long as no entry has been freed and memory does not run out, an insertion succeeds. -/
theorem insertWith_of_unfreed (h : table.freed = []) (hcalloc : ∀ n, calloc n = true) :
    flowTableInsertWith calloc table key action = .ok (0, table.inserted key action) := by
  have hnone : (table.trie_root.above key.bits).any table.isFreed = false := by
    rw [List.any_eq_false]
    intro entry _
    simp [isFreed, h]
  rw [flowTableInsertWith_of_all hcalloc, insert_eq, hnone, if_neg Bool.false_ne_true]

/-- An insertion during which memory does not run out. -/
def insertion (key : FlowKey) : TableCall :=
  .insert key (output 1) fun _ => true

theorem step_insertion_withFaults (h : table.freed = []) :
    flowTableWithFaults.step (.ok table) (insertion key) =
      some (.ok (table.inserted key (output 1))) := by
  have hcall : table.perform (insertion key) = .ok (0, table.inserted key (output 1)) :=
    insertWith_of_unfreed h fun _ => rfl
  show some ((table.perform (insertion key)).map Prod.snd) = _
  rw [hcall]
  rfl

/-! ## What a failed insertion leaves behind -/

/-- No lookup and no deletion has another result. -/
def Unchanged (table table' : FlowTable) : Prop :=
  ∀ key, flowTableLookup table' key = flowTableLookup table key ∧
    (flowTableDelete table' key).1 = (flowTableDelete table key).1

/-- What is found is in a chain or in the trie. -/
theorem mem_of_lookup {entry : FlowEntry} (h : flowTableLookup table key = .ok (some entry)) :
    table.first key = some entry ∨ ∃ address, table.trie_root.nodeAt address = some entry := by
  cases hfirst : table.first key with
  | some found =>
      rw [lookup_of_first hfirst] at h
      cases h
      exact Or.inl rfl
  | none =>
      rw [lookup_of_absent hfirst] at h
      rcases lookupAt_cases table.isFreed key.bits table.trie_root none with
        ⟨_, hcrash⟩ | ⟨_, found, hfound, ⟨node, hnode, _, rfl⟩ | ⟨_, rfl⟩⟩
      · rw [hcrash] at h
        cases h
      · rw [hfound] at h
        cases h
        rcases Trie.mem_above.1 hnode with ⟨address, _, _, haddress⟩
        exact Or.inr ⟨address, haddress⟩
      · rw [hfound, Option.none_or] at h
        exact Or.inr ⟨key.bits, by simpa using h⟩

/-- An entry that is yet to be made is not found. -/
theorem Records.lookup_ne_new (h : table.Records) (key : FlowKey) (action : FlowAction) :
    flowTableLookup table key ≠ .ok (some (table.newEntry key action)) := by
  intro hfound
  rcases mem_of_lookup hfound with hfirst | ⟨address, hnode⟩
  · exact h.chains.serial_ne_new (first_eq_some hfirst).1 rfl
  · rcases h.trie_serial address _ hnode with hzero | ⟨serial, hserial, hlt⟩
    · exact newEntry_ne_zeroed hzero
    · cases hserial
      exact Nat.lt_irrefl _ hlt

/-- After a call that has returned -1 all lookups and deletions have the results they had before,
if and only if the entry itself could not be allocated. -/
theorem failed_insert_unchanged_iff
    (hreach : flowTableWithFaults.Reaches (.ok flowTableCreate) (.ok table))
    (hfailed : flowTableInsertWith calloc table key action = .ok (-1, table')) :
    table.Unchanged table' ↔ calloc 0 = false := by
  cases performed_of_insertWith hfailed with
  | refused hcalloc => exact iff_of_true (fun _ => ⟨rfl, rfl⟩) hcalloc
  | failed hcalloc _ =>
      refine iff_of_false ?_ (by simp [hcalloc])
      intro hsame
      -- the chain of the key begins with the new entry
      have hlookup := (hsame key).1
      rw [lookup_of_first first_linked_self] at hlookup
      exact (records_of_reaches hreach).lookup_ne_new key action hlookup.symm

theorem three_le_max : (3 : UInt16).toNat ≤ MAX_FIELD_LENGTH := by
  decide

/-- A key that extends the long one. -/
def longerKey : FlowKey :=
  { FlowKey.zeroed with
    length := 3
    length_le := three_le_max }

/-- A table with two entries: without memory for another one nothing changes, and with memory for the
entry and two of the nodes on its way something does. -/
theorem failed_insert_unchanged_iff_filled :
    ∃ table table', flowTableWithFaults.run (.ok flowTableCreate)
        [.insert shortKey (output 1) fun _ => true, .insert longKey (output 2) fun _ => true] =
          some (.ok table) ∧
      table.created = 2 ∧
      flowTableInsertWith (fun _ => false) table longerKey (output 3) = .ok (-1, table) ∧
      table.Unchanged table ∧
      flowTableInsertWith (fun n => n < 3) table longerKey (output 3) = .ok (-1, table') ∧
      ¬ table.Unchanged table' := by
  have heval : ((flowTableWithFaults.run (.ok flowTableCreate)
      [.insert shortKey (output 1) fun _ => true,
        .insert longKey (output 2) fun _ => true]).bind Except.toOption).map (fun table =>
      (table.created, (flowTableInsertWith (fun n => n < 3) table longerKey
        (output 3)).toOption.map Prod.fst)) = some (2, some (-1)) := by
    decide +kernel
  rcases Option.map_eq_some_iff.1 heval with ⟨table, htable, hobserve⟩
  rcases Option.bind_eq_some_iff.1 htable with ⟨r, hrun, hr⟩
  simp only [Prod.mk.injEq] at hobserve
  rcases hobserve with ⟨hcreated, hresult⟩
  rcases Option.map_eq_some_iff.1 hresult with ⟨⟨result, table'⟩, hcall, hminus⟩
  cases r with
  | error halt => cases hr
  | ok created =>
      cases hr
      have hreach : flowTableWithFaults.Reaches (.ok flowTableCreate) (.ok table) := ⟨_, hrun⟩
      have hrefused : flowTableInsertWith (fun _ => false) table longerKey (output 3) =
          .ok (-1, table) := insertWith_of_first_fails rfl
      have hfailed : flowTableInsertWith (fun n => n < 3) table longerKey (output 3) =
          .ok (-1, table') := by
        cases hinsert : flowTableInsertWith (fun n => n < 3) table longerKey (output 3) with
        | error halt =>
            rw [hinsert] at hcall
            cases hcall
        | ok outcome =>
            rw [hinsert] at hcall
            cases hcall
            exact congrArg (fun result => Except.ok (result, table')) hminus
      refine ⟨table, table', hrun, hcreated, hrefused, ?_, hfailed, ?_⟩
      · exact (failed_insert_unchanged_iff hreach hrefused).2 rfl
      · intro hsame
        exact absurd ((failed_insert_unchanged_iff hreach hfailed).1 hsame) (by decide)

/-- Memory for the entry, but not for the first node of its path. -/
theorem not_failed_insert_unchanged :
    ∃ table', flowTableInsertWith (fun n => n = 0) flowTableCreate shortKey (output 1) =
        .ok (-1, table') ∧ ¬ flowTableCreate.Unchanged table' := by
  refine ⟨flowTableCreate.linked shortKey (output 1) .null, rfl, ?_⟩
  intro hsame
  have hlookup := (hsame shortKey).1
  rw [lookup_of_first first_linked_self] at hlookup
  exact records_create.lookup_ne_new shortKey (output 1) hlookup.symm

end FlowTable

end DataPlane
end EVdeSwitch
