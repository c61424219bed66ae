import EVdeSwitch.DataPlane.FlowTableFaults

/-!
# FlowTableLive — nodes of the trie that have been freed

An entry is linked into a chain and into the trie, and `flow_table_delete` unlinks it from the
chain only (`src/data_plane/flow_table.c`).  So the trie is free of freed entries exactly as long as
what is deleted is no longer, or has never been, a node of the trie.
-/

namespace EVdeSwitch
namespace DataPlane

open EVdeSwitch.Lib
open EVdeSwitch.Utils

namespace FlowTable

/-- Each node of the trie has been filled in or is an entry that is still linked into its chain; so
no lookup and no insertion comes to an entry that has been freed. -/
structure Live (table : FlowTable) : Prop where
  linked : ∀ address entry, table.trie_root.nodeAt address = some entry →
    entry = .zeroed ∨ entry ∈ table.bucket entry.key
  lookup : ∀ key, ∃ found, flowTableLookup table key = .ok found ∧
    ∀ entry ∈ found, table.isFreed entry = false
  insert : ∀ key action calloc, ∃ result, flowTableInsertWith calloc table key action = .ok result

/-- A deletion does not free a node of the trie. -/
def DeletesDetached : Except Halt FlowTable → TableCall → Prop
  | .ok table, .delete key => ∀ to_delete, table.first key = some to_delete →
      table.trie_root.nodeAt key.bits ≠ some to_delete
  | _, _ => True

variable {table table' : FlowTable} {key : FlowKey} {action : FlowAction} {calloc : Nat → Bool}

/-! ## Entries that are linked -/

theorem Chains.isFreed_of_mem (h : table.Chains) {idx : Fin HASH_TABLE_SIZE} {entry : FlowEntry}
    (hentry : entry ∈ table.hash_table idx) : table.isFreed entry = false := by
  rcases h.chain_serial idx entry hentry with ⟨serial, hserial, _, hfreed⟩
  simpa [isFreed, hserial] using hfreed

/-- If all nodes are linked, none of them has been freed. -/
theorem Chains.live (h : table.Chains)
    (hlinked : ∀ address entry, table.trie_root.nodeAt address = some entry →
      entry = .zeroed ∨ entry ∈ table.bucket entry.key) : table.Live := by
  have hread : ∀ address entry, table.trie_root.nodeAt address = some entry →
      table.isFreed entry = false := by
    intro address entry hnode
    rcases hlinked address entry hnode with rfl | hmem
    · exact isFreed_zeroed
    · exact h.isFreed_of_mem hmem
  have habove : ∀ bits, ∀ entry ∈ table.trie_root.above bits, table.isFreed entry = false := by
    intro bits entry hentry
    rcases Trie.mem_above.1 hentry with ⟨address, _, _, hnode⟩
    exact hread address entry hnode
  refine
    { linked := hlinked
      lookup := ?_
      insert := ?_ }
  · intro key
    have hfound : ∃ found, flowTableLookup table key = .ok found := by
      cases hfirst : table.first key with
      | some entry => exact ⟨_, lookup_of_first hfirst⟩
      | none =>
          rw [lookup_of_absent hfirst]
          rcases lookupAt_cases table.isFreed key.bits table.trie_root none with
            ⟨⟨entry, hentry, hfreed⟩, _⟩ | ⟨_, found, hfound, _⟩
          · rw [habove key.bits entry hentry] at hfreed
            cases hfreed
          · exact ⟨found, hfound⟩
    rcases hfound with ⟨found, hfound⟩
    refine ⟨found, hfound, ?_⟩
    rintro entry rfl
    rcases mem_of_lookup hfound with hfirst | ⟨address, hnode⟩
    · exact h.isFreed_of_mem (first_eq_some hfirst).1
    · exact hread address entry hnode
  · intro key action calloc
    cases hcalloc : calloc 0 with
    | false => exact ⟨_, insertWith_of_first_fails hcalloc⟩
    | true =>
        rcases insertWith_cases hcalloc table key action with
          ⟨⟨entry, hentry, hfreed⟩, _⟩ | ⟨_, hplaced | ⟨trie_root, hfailed, _⟩⟩
        · rw [habove key.bits entry hentry] at hfreed
          cases hfreed
        · exact ⟨_, hplaced⟩
        · exact ⟨_, hfailed⟩

/-! ## One call -/

theorem mem_bucket_linked {trie_root : Trie FlowEntry} {entry : FlowEntry}
    (h : entry ∈ table.bucket entry.key) :
    entry ∈ (table.linked key action trie_root).bucket entry.key :=
  mem_linked.2 (Or.inr h)

theorem Live.inserted (h : table.Live) (hrecords : table.Records) (key : FlowKey)
    (action : FlowAction) : (table.inserted key action).Live := by
  refine (hrecords.inserted key action).chains.live ?_
  intro address entry hnode
  rcases Trie.nodeAt_put_eq_some hnode with ⟨_, rfl⟩ | ⟨_, hold | ⟨_, hfill⟩⟩
  · exact Or.inr (mem_inserted.2 (Or.inl ⟨rfl, rfl⟩))
  · exact (h.linked address entry hold).imp_right mem_bucket_linked
  · exact Or.inl hfill

theorem Live.linked_failed (h : table.Live) (hrecords : table.Records)
    {trie_root : Trie FlowEntry} (hextends : table.trie_root.Extends .zeroed trie_root) :
    (table.linked key action trie_root).Live := by
  refine (hrecords.linked hextends).chains.live ?_
  intro address entry hnode
  rcases hextends address with hold | ⟨_, hfill⟩
  · exact (h.linked address entry (hold.symm.trans hnode)).imp_right mem_bucket_linked
  · exact Or.inl (Option.some.inj (hnode.symm.trans hfill))

/-- All other entries stay in their chains. -/
theorem mem_bucket_removed {to_delete entry : FlowEntry} (hfirst : table.first key = some to_delete)
    (hne : entry ≠ to_delete) (h : entry ∈ table.bucket entry.key) :
    entry ∈ (table.removed key to_delete).bucket entry.key := by
  by_cases hidx : hashFunction entry.key = hashFunction key
  · have hmem : entry ∈ table.bucket key := by
      rw [bucket, ← hidx]
      exact h
    have hstays := mem_eraseP_of_ne hfirst hne hmem
    simpa [bucket, FlowTable.removed, hidx] using hstays
  · simpa [bucket, FlowTable.removed, hidx] using h

/-- A deletion keeps the nodes linked exactly if the entry is not one of them. -/
theorem Live.removed_iff (h : table.Live) (hrecords : table.Records) {to_delete : FlowEntry}
    (hfirst : table.first key = some to_delete) :
    (table.removed key to_delete).Live ↔
      table.trie_root.nodeAt key.bits ≠ some to_delete := by
  rcases first_eq_some hfirst with ⟨hmem, hkey⟩
  have hmade : to_delete ≠ .zeroed := by
    rintro rfl
    rcases hrecords.chains.chain_serial _ _ hmem with ⟨serial, hserial, _, _⟩
    cases hserial
  constructor
  · intro hlive hnode
    rcases hlive.linked key.bits to_delete hnode with hzero | hstill
    · exact hmade hzero
    · exact hrecords.chains.serial_ne_removed hfirst hstill rfl
  · intro hdetached
    refine (hrecords.chains.removed hfirst).live ?_
    intro address entry hnode
    refine (h.linked address entry hnode).imp_right fun hold => ?_
    refine mem_bucket_removed hfirst ?_ hold
    rintro rfl
    rcases hrecords.trie_bits address entry hnode with hzero | hbits
    · exact hmade hzero
    · rw [hkey] at hbits
      exact hdetached (hbits ▸ hnode)

/-! ## All runs -/

def RecordsState : Except Halt FlowTable → Prop
  | .ok table => table.Records
  | .error _ => True

def LiveState : Except Halt FlowTable → Prop
  | .ok table => table.Live
  | .error _ => False

/-- A call that returns. -/
theorem Live.perform_iff (h : table.Live) (hrecords : table.Records) {call : TableCall}
    {result : Int} (hcall : table.perform call = .ok (result, table')) :
    table'.Live ↔ DeletesDetached (.ok table) call := by
  cases performed_of_perform hcall with
  | refused _ => exact iff_of_true h trivial
  | inserted _ => exact iff_of_true (h.inserted hrecords _ _) trivial
  | failed _ hextends => exact iff_of_true (h.linked_failed hrecords hextends) trivial
  | absent hfirst =>
      -- nothing is freed
      refine iff_of_true h ?_
      intro to_delete hsome
      rw [hfirst] at hsome
      cases hsome
  | removed hfirst =>
      refine (h.removed_iff hrecords hfirst).trans ?_
      simp [DeletesDetached, hfirst]

/-- What one call does to a table whose nodes are linked. -/
theorem live_step {r r' : Except Halt FlowTable} {call : TableCall} (hrecords : RecordsState r)
    (hlive : LiveState r) (h : flowTableWithFaults.step r call = some r') :
    RecordsState r' ∧ (LiveState r' ↔ DeletesDetached r call) := by
  cases r with
  | error halt => cases hlive
  | ok table =>
      have hr : r' = (table.perform call).map Prod.snd := step_withFaults h
      cases hcall : table.perform call with
      | error halt =>
          -- no call comes to an entry that has been freed
          cases call with
          | delete key => cases hcall
          | insert key action calloc =>
              rcases hlive.insert key action calloc with ⟨result, hreturns⟩
              have hcontra := hcall.symm.trans hreturns
              cases hcontra
      | ok result =>
          rcases result with ⟨result, table'⟩
          rw [hr, hcall]
          exact ⟨hrecords.perform hcall, Live.perform_iff hlive hrecords hcall⟩

/-- In every state of a run the nodes of the trie are linked, and no call comes to an entry that has
been freed, if and only if no deletion frees a node of the trie. -/
theorem trie_live_iff {calls : List TableCall} {r : Except Halt FlowTable}
    (hrun : flowTableWithFaults.run (.ok flowTableCreate) calls = some r) :
    flowTableWithFaults.Always LiveState (.ok flowTableCreate) calls ↔
      flowTableWithFaults.Guarded DeletesDetached (.ok flowTableCreate) calls := by
  have hrecords : RecordsState (.ok flowTableCreate) := records_create
  have hlive : LiveState (.ok flowTableCreate) :=
    records_create.chains.live (by simp [flowTableCreate])
  exact Machine.always_iff_guarded RecordsState LiveState
    (fun _ _ _ hrecords hlive hstep => live_step hrecords hlive hstep) hrecords hlive hrun

/-! ## Deletions that free a node, and one that does not -/

/-- The long key has lost its place to the short one before it is deleted. -/
theorem trie_live_iff_replaced :
    flowTableWithFaults.Always LiveState (.ok flowTableCreate)
      [insertion longKey, insertion shortKey, .delete longKey] := by
  have hlong : flowTableWithFaults.step (.ok flowTableCreate) (insertion longKey) =
      some (.ok (flowTableCreate.inserted longKey (output 1))) :=
    step_insertion_withFaults rfl
  have hshort : flowTableWithFaults.step (.ok (flowTableCreate.inserted longKey (output 1)))
      (insertion shortKey) =
        some (.ok ((flowTableCreate.inserted longKey (output 1)).inserted shortKey (output 1))) :=
    step_insertion_withFaults rfl
  have hrun : flowTableWithFaults.run (.ok flowTableCreate)
      [insertion longKey, insertion shortKey, .delete longKey] = some _ :=
    Machine.run_cons_of_step _ hlong (Machine.run_cons_of_step _ hshort rfl)
  refine (trie_live_iff hrun).2 ⟨trivial, ?_⟩
  intro r hr
  rw [hlong] at hr
  cases hr
  refine ⟨trivial, ?_⟩
  intro r hr
  rw [hshort] at hr
  cases hr
  refine ⟨?_, fun _ _ => trivial⟩
  intro to_delete _ hnode
  have hnone : ((flowTableCreate.inserted longKey (output 1)).inserted shortKey
      (output 1)).trie_root.nodeAt longKey.bits = none :=
    Trie.nodeAt_put_below (by decide +kernel) (by decide +kernel) _
  rw [hnone] at hnode
  cases hnode

/-- The entry stays a node of the trie after it has been freed. -/
theorem not_trie_live :
    ∃ table, flowTableWithFaults.run (.ok flowTableCreate)
        [insertion shortKey, .delete shortKey] = some (.ok table) ∧
      table.isFreed (flowTableCreate.newEntry shortKey (output 1)) = true ∧
      table.trie_root.nodeAt shortKey.bits =
        some (flowTableCreate.newEntry shortKey (output 1)) ∧
      ¬ table.Live := by
  have hinsert : flowTableWithFaults.step (.ok flowTableCreate) (insertion shortKey) =
      some (.ok (flowTableCreate.inserted shortKey (output 1))) :=
    step_insertion_withFaults rfl
  have hfirst : (flowTableCreate.inserted shortKey (output 1)).first shortKey =
      some (flowTableCreate.newEntry shortKey (output 1)) := by
    rw [first_inserted, if_pos rfl]
  have hdelete : flowTableWithFaults.step
      (.ok (flowTableCreate.inserted shortKey (output 1))) (.delete shortKey) =
        some (.ok ((flowTableCreate.inserted shortKey (output 1)).removed shortKey
          (flowTableCreate.newEntry shortKey (output 1)))) := by
    show some ((Except.ok (flowTableDelete _ shortKey)).map Prod.snd) = _
    rw [delete_of_first hfirst]
    rfl
  have hnode : (flowTableCreate.inserted shortKey (output 1)).trie_root.nodeAt shortKey.bits =
      some (flowTableCreate.newEntry shortKey (output 1)) := Trie.nodeAt_put_self ..
  refine ⟨_, Machine.run_cons_of_step _ hinsert (Machine.run_cons_of_step _ hdelete rfl), ?_,
    hnode, ?_⟩
  · exact (isFreed_removed rfl _).2 (Or.inl rfl)
  · intro hlive
    rcases hlive.linked _ _ hnode with hzero | hmem
    · exact newEntry_ne_zeroed hzero
    · have hrecords := records_create.inserted shortKey (output 1)
      exact hrecords.chains.serial_ne_removed hfirst hmem rfl

end FlowTable

end DataPlane
end EVdeSwitch
