import EVdeSwitch.DataPlane.FlowTable
import EVdeSwitch.Lib.Chain
import EVdeSwitch.Lib.History

/-!
# FlowTableMap — when the flow table is a map

The calls of `flow_table_insert` and `flow_table_delete`, in any order, with a record of those that
have succeeded.  An insertion is always found again, in the chain of its key.  After a deletion the
key must be gone from two places, but the entry is taken out of its chain only, and it stays a
node of the trie.
-/

namespace EVdeSwitch
namespace DataPlane

open EVdeSwitch.Lib
open EVdeSwitch.Utils

inductive FlowCall
  | insert (key : FlowKey) (action : FlowAction)
  | delete (key : FlowKey)
  deriving DecidableEq

namespace FlowCall

def key : FlowCall → FlowKey
  | insert key _ => key
  | delete key => key

end FlowCall

/-- One call, with its result. -/
def FlowTable.call (table : FlowTable) : FlowCall → Except Halt (Int × FlowTable)
  | .insert key action => flowTableInsert table key action
  | .delete key => .ok (flowTableDelete table key)

/-- All sequences of calls, as far as their behaviour is defined. -/
def flowTable : Machine (Except Halt FlowTable) FlowCall :=
  { step := fun r call =>
      match r with
      | .ok table => some ((table.call call).map Prod.snd)
      | .error _ => none }

/-- The calls that have returned 0, the last one first. -/
def recordCall (r : Except Halt FlowTable) (call : FlowCall) (_r' : Except Halt FlowTable)
    (log : List FlowCall) : List FlowCall :=
  match r.bind fun table => table.call call with
  -- a deletion that finds nothing returns -1 and is no event
  | .ok (result, _) => if result = 0 then call :: log else log
  | .error _ => log

/-- The last of the calls for a key. -/
def lastCall (log : List FlowCall) (key : FlowKey) : Option FlowCall :=
  log.find? fun call => call.key = key

namespace FlowTable

/-- The lookups agree with the calls: what was inserted last is found, and what was deleted is
neither found nor there to be deleted again. -/
def IsMap (table : FlowTable) (log : List FlowCall) : Prop :=
  ∀ key,
    match lastCall log key with
    | some (.insert _ action) => ∃ entry, flowTableLookup table key = .ok (some entry) ∧
        entry.key = key ∧ entry.action = action
    | some (.delete _) => (∃ found, flowTableLookup table key = .ok found ∧
        ∀ entry ∈ found, entry.key ≠ key) ∧ (flowTableDelete table key).1 = -1
    | none => True

/-! ## The two structures -/

/-- The first entry of a chain that has the key. -/
def first (table : FlowTable) (key : FlowKey) : Option FlowEntry :=
  (table.bucket key).find? fun entry => entry.key = key

/-- The chains hold entries that have been made and not been freed, each in one place, in the chain
of its key. -/
structure Chains (table : FlowTable) : Prop where
  freed_lt : ∀ serial ∈ table.freed, serial < table.created
  chain_hash : ∀ idx, ∀ entry ∈ table.hash_table idx, hashFunction entry.key = idx
  chain_serial : ∀ idx, ∀ entry ∈ table.hash_table idx,
    ∃ serial, entry.serial = some serial ∧ serial < table.created ∧ serial ∉ table.freed
  chain_nodup : ∀ idx, (table.hash_table idx).Nodup
  chain_inj : ∀ idx idx', ∀ entry ∈ table.hash_table idx, ∀ entry' ∈ table.hash_table idx',
    entry.serial = entry'.serial → entry = entry'

/-- The records of both structures are those that have been made, and an entry that is a node of
the trie is freed or the first one of its key. -/
structure Inv (table : FlowTable) (log : List FlowCall) : Prop where
  freed_lt : ∀ serial ∈ table.freed, serial < table.created
  chain_hash : ∀ idx, ∀ entry ∈ table.hash_table idx, hashFunction entry.key = idx
  chain_serial : ∀ idx, ∀ entry ∈ table.hash_table idx,
    ∃ serial, entry.serial = some serial ∧ serial < table.created ∧ serial ∉ table.freed
  chain_nodup : ∀ idx, (table.hash_table idx).Nodup
  chain_inj : ∀ idx idx', ∀ entry ∈ table.hash_table idx, ∀ entry' ∈ table.hash_table idx',
    entry.serial = entry'.serial → entry = entry'
  chain_log : ∀ idx, ∀ entry ∈ table.hash_table idx, ∃ call ∈ log, call.key = entry.key
  trie_bits : ∀ address entry, table.trie_root.nodeAt address = some entry →
    entry = .zeroed ∨ entry.key.bits = address
  trie_first : ∀ address entry, table.trie_root.nodeAt address = some entry →
    entry = .zeroed ∨ table.isFreed entry = true ∨ table.first entry.key = some entry
  root : ∀ call ∈ log, call.key.bits = [] →
    ∃ entry, table.trie_root.nodeAt [] = some entry ∧ entry ≠ .zeroed
  last_insert : ∀ key action, lastCall log key = some (.insert key action) →
    ∃ entry, table.first key = some entry ∧ entry.action = action

/-- A key that is in no chain, and that a walk through the trie does not end at. -/
structure Hidden (table : FlowTable) (key : FlowKey) : Prop where
  absent : table.first key = none
  readable : ∀ entry ∈ table.trie_root.above key.bits, table.isFreed entry = false
  masked : (∃ entry ∈ table.trie_root.above key.bits, entry.action.action_length > 0) ∨
    ∀ entry ∈ table.trie_root.nodeAt key.bits, entry.key ≠ key

variable {table : FlowTable} {log : List FlowCall} {key : FlowKey}

theorem inv_create : flowTableCreate.Inv [] where
  freed_lt := by simp [flowTableCreate]
  chain_hash := by simp [flowTableCreate]
  chain_serial := by simp [flowTableCreate]
  chain_nodup := by simp [flowTableCreate]
  chain_inj := by simp [flowTableCreate]
  chain_log := by simp [flowTableCreate]
  trie_bits := by simp [flowTableCreate]
  trie_first := by simp [flowTableCreate]
  root := by simp
  last_insert := by simp [lastCall]

theorem Inv.chains (h : table.Inv log) : table.Chains where
  freed_lt := h.freed_lt
  chain_hash := h.chain_hash
  chain_serial := h.chain_serial
  chain_nodup := h.chain_nodup
  chain_inj := h.chain_inj

theorem first_eq_some {entry : FlowEntry} (h : table.first key = some entry) :
    entry ∈ table.hash_table (hashFunction key) ∧ entry.key = key :=
  ⟨List.mem_of_find?_eq_some h, by simpa using List.find?_some h⟩

theorem lookup_of_first {entry : FlowEntry} (h : table.first key = some entry) :
    flowTableLookup table key = .ok (some entry) := by
  have hfind : ((table.bucket key).find? fun entry => entry.key = key) = some entry := h
  simp [flowTableLookup, hfind]

theorem lookup_of_absent (h : table.first key = none) :
    flowTableLookup table key = lookupAt table.isFreed key.bits table.trie_root none := by
  have hfind : ((table.bucket key).find? fun entry => entry.key = key) = none := h
  simp [flowTableLookup, hfind]

theorem delete_of_absent (h : table.first key = none) :
    flowTableDelete table key = (-1, table) := by
  have hfind : ((table.bucket key).find? fun entry => entry.key = key) = none := h
  simp [flowTableDelete, hfind]

theorem delete_of_first {entry : FlowEntry} (h : table.first key = some entry) :
    flowTableDelete table key =
      (0,
        { table with
          hash_table := Function.update table.hash_table (hashFunction key)
            ((table.bucket key).eraseP fun entry => entry.key = key)
          freed := entry.serial.toList ++ table.freed }) := by
  have hfind : ((table.bucket key).find? fun entry => entry.key = key) = some entry := h
  simp [flowTableDelete, hfind]

/-- Above the address of a key there is no entry with that key. -/
theorem Inv.key_ne_of_above (h : table.Inv log) {entry : FlowEntry}
    (hentry : entry ∈ table.trie_root.above key.bits) (hmade : entry ≠ .zeroed) :
    entry.key ≠ key := by
  rcases Trie.mem_above.1 hentry with ⟨address, _, hne, hnode⟩
  -- the entry is on a shorter address, which its own key spells out
  rcases h.trie_bits address entry hnode with hzero | hbits
  · exact absurd hzero hmade
  · rintro rfl
    exact hne hbits.symm

theorem ne_zeroed_of_action {entry : FlowEntry} (h : entry.action.action_length > 0) :
    entry ≠ .zeroed := by
  rintro rfl
  exact absurd h (by decide)

/-- A deleted key is as it should be exactly if it is hidden. -/
theorem Inv.hidden_iff (h : table.Inv log) :
    table.Hidden key ↔ (∃ found, flowTableLookup table key = .ok found ∧
      ∀ entry ∈ found, entry.key ≠ key) ∧ (flowTableDelete table key).1 = -1 := by
  cases hfirst : table.first key with
  | some entry =>
      -- a key that is in its chain can be deleted again
      refine iff_of_false ?_ ?_
      · intro hhidden
        simp [hhidden.absent] at hfirst
      · rintro ⟨_, hdelete⟩
        simp [delete_of_first hfirst] at hdelete
  | none =>
      rw [lookup_of_absent hfirst, delete_of_absent hfirst, and_iff_left rfl]
      -- the walk reads a freed entry, or ends with what it has found
      rcases lookupAt_cases table.isFreed key.bits table.trie_root none with
        ⟨⟨entry, hentry, hfreed⟩, hcrash⟩ | ⟨hsafe, found, hfound, hend⟩
      · refine iff_of_false ?_ ?_
        · intro hhidden
          simp [hhidden.readable entry hentry] at hfreed
        · simp [hcrash]
      · simp only [hfound, Except.ok.injEq, exists_eq_left']
        rcases hend with ⟨entry, hentry, haction, rfl⟩ | ⟨hnone, rfl⟩
        · -- the walk ends above the address
          refine iff_of_true ⟨hfirst, hsafe, Or.inl ⟨entry, hentry, haction⟩⟩ ?_
          simpa using h.key_ne_of_above hentry (ne_zeroed_of_action haction)
        -- no entry above has an action, so the node at the address is the answer
        · rw [Option.none_or]
          constructor
          · intro hhidden
            rcases hhidden.masked with ⟨entry, hentry, haction⟩ | hother
            · exact absurd haction (hnone entry hentry)
            · exact hother
          · intro hother
            exact ⟨hfirst, hsafe, Or.inr hother⟩

theorem lastCall_key {call : FlowCall} (h : lastCall log key = some call) : call.key = key := by
  simpa using List.find?_some h

/-- The table is a map exactly if the deleted keys are hidden. -/
theorem Inv.isMap_iff (h : table.Inv log) :
    table.IsMap log ↔ ∀ key, lastCall log key = some (.delete key) → table.Hidden key := by
  constructor
  · intro hmap key hlast
    have hkey := hmap key
    simp only [hlast] at hkey
    exact h.hidden_iff.2 hkey
  · intro hhidden key
    cases hlast : lastCall log key with
    | none => trivial
    | some call =>
        have hkey := lastCall_key hlast
        cases call with
        | insert key' action =>
            cases hkey
            rcases h.last_insert key' action hlast with ⟨entry, hentry, haction⟩
            exact ⟨entry, lookup_of_first hentry, (first_eq_some hentry).2, haction⟩
        | delete key' =>
            cases hkey
            exact h.hidden_iff.1 (hhidden key' hlast)

/-! ## An insertion -/

/-- The entry that an insertion makes. -/
def newEntry (table : FlowTable) (key : FlowKey) (action : FlowAction) : FlowEntry :=
  { serial := some table.created
    key := key
    action := action }

/-- The table after an insertion. -/
def inserted (table : FlowTable) (key : FlowKey) (action : FlowAction) : FlowTable :=
  { table with
    hash_table := Function.update table.hash_table (hashFunction key)
      (table.newEntry key action :: table.bucket key)
    trie_root := table.trie_root.put .zeroed (table.newEntry key action) key.bits
    created := table.created + 1 }

/-- The table with a new entry in the chain of its key, and whatever trie. -/
def linked (table : FlowTable) (key : FlowKey) (action : FlowAction) (trie_root : Trie FlowEntry) :
    FlowTable :=
  { table with
    hash_table := Function.update table.hash_table (hashFunction key)
      (table.newEntry key action :: table.bucket key)
    trie_root := trie_root
    created := table.created + 1 }

variable {action : FlowAction} {trie_root : Trie FlowEntry}

theorem insert_eq (table : FlowTable) (key : FlowKey) (action : FlowAction) :
    flowTableInsert table key action =
      if (table.trie_root.above key.bits).any table.isFreed then .error .crash
      else .ok (0, table.inserted key action) := by
  simp only [flowTableInsert, insertAt_eq]
  split <;> rfl

theorem newEntry_ne_zeroed : table.newEntry key action ≠ .zeroed := by
  intro h
  cases congrArg FlowEntry.serial h

theorem mem_linked {idx : Fin HASH_TABLE_SIZE} {entry : FlowEntry} :
    entry ∈ (table.linked key action trie_root).hash_table idx ↔
      (idx = hashFunction key ∧ entry = table.newEntry key action) ∨
        entry ∈ table.hash_table idx := by
  by_cases hidx : idx = hashFunction key
  · subst hidx
    simp [linked, bucket]
  · simp [linked, hidx]

theorem first_linked (key' : FlowKey) :
    (table.linked key action trie_root).first key' =
      if key' = key then some (table.newEntry key action) else table.first key' := by
  by_cases hkey : key' = key
  · subst hkey
    simp [first, linked, bucket, newEntry]
  · rw [if_neg hkey]
    by_cases hidx : hashFunction key' = hashFunction key
    · -- the new entry is passed over
      have hne : ¬ key = key' := fun h => hkey h.symm
      simp [first, linked, bucket, hidx, newEntry, hne]
    · simp [first, linked, bucket, hidx]

theorem first_linked_self :
    (table.linked key action trie_root).first key = some (table.newEntry key action) := by
  rw [first_linked, if_pos rfl]

theorem mem_inserted {idx : Fin HASH_TABLE_SIZE} {entry : FlowEntry} :
    entry ∈ (table.inserted key action).hash_table idx ↔
      (idx = hashFunction key ∧ entry = table.newEntry key action) ∨
        entry ∈ table.hash_table idx :=
  mem_linked

theorem first_inserted (key' : FlowKey) :
    (table.inserted key action).first key' =
      if key' = key then some (table.newEntry key action) else table.first key' :=
  first_linked key'

theorem lastCall_cons (call : FlowCall) (log : List FlowCall) (key : FlowKey) :
    lastCall (call :: log) key = if call.key = key then some call else lastCall log key := by
  by_cases hkey : call.key = key <;> simp [lastCall, hkey]

/-- No record has the number that comes next. -/
theorem Chains.serial_ne_new (h : table.Chains) {idx : Fin HASH_TABLE_SIZE} {entry : FlowEntry}
    (hentry : entry ∈ table.hash_table idx) :
    entry.serial ≠ (table.newEntry key action).serial := by
  intro hnew
  rcases h.chain_serial idx entry hentry with ⟨serial, hserial, hlt, _⟩
  rw [hserial] at hnew
  cases hnew
  exact Nat.lt_irrefl _ hlt

theorem Chains.linked (h : table.Chains) (key : FlowKey) (action : FlowAction)
    (trie_root : Trie FlowEntry) : (table.linked key action trie_root).Chains where
  freed_lt := fun serial hserial => Nat.lt_succ_of_lt (h.freed_lt serial hserial)
  chain_hash := by
    intro idx entry hentry
    rcases mem_linked.1 hentry with ⟨rfl, rfl⟩ | hold
    · rfl
    · exact h.chain_hash idx entry hold
  chain_serial := by
    intro idx entry hentry
    rcases mem_linked.1 hentry with ⟨_, rfl⟩ | hold
    · exact ⟨table.created, rfl, Nat.lt_succ_self _, fun hfreed => Nat.lt_irrefl _ (h.freed_lt _ hfreed)⟩
    · rcases h.chain_serial idx entry hold with ⟨serial, hserial, hlt, hfreed⟩
      exact ⟨serial, hserial, Nat.lt_succ_of_lt hlt, hfreed⟩
  chain_nodup := by
    intro idx
    by_cases hidx : idx = hashFunction key
    · subst hidx
      -- the serial of the new entry has not been given out
      have hnew : table.newEntry key action ∉ table.hash_table (hashFunction key) :=
        fun hmem => h.serial_ne_new hmem rfl
      simpa [FlowTable.linked, bucket] using ⟨hnew, h.chain_nodup (hashFunction key)⟩
    · simpa [FlowTable.linked, hidx] using h.chain_nodup idx
  chain_inj := by
    intro idx idx' entry hentry entry' hentry' hserial
    rcases mem_linked.1 hentry with ⟨_, rfl⟩ | hold
    · rcases mem_linked.1 hentry' with ⟨_, rfl⟩ | hold'
      · rfl
      · exact absurd hserial.symm (h.serial_ne_new hold')
    · rcases mem_linked.1 hentry' with ⟨_, rfl⟩ | hold'
      · exact absurd hserial (h.serial_ne_new hold)
      · exact h.chain_inj idx idx' entry hold entry' hold' hserial

theorem Inv.insert (h : table.Inv log) (key : FlowKey) (action : FlowAction) :
    (table.inserted key action).Inv (.insert key action :: log) where
  freed_lt := (h.chains.linked key action _).freed_lt
  chain_hash := (h.chains.linked key action _).chain_hash
  chain_serial := (h.chains.linked key action _).chain_serial
  chain_nodup := (h.chains.linked key action _).chain_nodup
  chain_inj := (h.chains.linked key action _).chain_inj
  chain_log := by
    intro idx entry hentry
    rcases mem_inserted.1 hentry with ⟨_, rfl⟩ | hold
    · exact ⟨_, List.mem_cons_self, rfl⟩
    · rcases h.chain_log idx entry hold with ⟨call, hcall, hkey⟩
      exact ⟨call, List.mem_cons_of_mem _ hcall, hkey⟩
  trie_bits := by
    intro address entry hnode
    -- a node of the new trie is the new entry, an old node, or one to fill the way
    rcases Trie.nodeAt_put_eq_some hnode with ⟨rfl, rfl⟩ | ⟨_, hold | ⟨_, hfill⟩⟩
    · exact Or.inr rfl
    · exact h.trie_bits address entry hold
    · exact Or.inl hfill
  trie_first := by
    intro address entry hnode
    rcases Trie.nodeAt_put_eq_some hnode with ⟨rfl, rfl⟩ | ⟨hway, hold | ⟨_, hfill⟩⟩
    · exact Or.inr (Or.inr (by rw [first_inserted]; exact if_pos rfl))
    · rcases h.trie_first address entry hold with hzero | hfreed | hfirst
      · exact Or.inl hzero
      · exact Or.inr (Or.inl hfreed)
      · rcases h.trie_bits address entry hold with hzero | hbits
        · exact Or.inl hzero
        · -- an older entry of the same key would be where the new one is
          have hne : entry.key ≠ key := by
            rintro rfl
            subst hbits
            exact hway (List.prefix_refl entry.key.bits)
          exact Or.inr (Or.inr (by rw [first_inserted, if_neg hne, hfirst]))
    · exact Or.inl hfill
  root := by
    intro call hcall hbits
    -- an empty key puts its entry at the root; another one leaves the root as it is
    by_cases hroot : key.bits = []
    · refine ⟨table.newEntry key action, ?_, newEntry_ne_zeroed⟩
      simpa [inserted, hroot] using
        Trie.nodeAt_put_self (x := table.newEntry key action) [] table.trie_root
    · rcases List.mem_cons.1 hcall with rfl | hold
      · exact absurd hbits hroot
      · rcases h.root call hold hbits with ⟨entry, hentry, hne⟩
        have hway : ¬ key.bits <+: [] := fun hextends => hroot (List.prefix_nil.1 hextends)
        refine ⟨entry, ?_, hne⟩
        simp [inserted, Trie.nodeAt_put_of_apart hway, hentry]
  last_insert := by
    intro key' action' hlast
    rw [lastCall_cons] at hlast
    rw [first_inserted]
    -- the last call for this key is the insertion, for others it is what it was
    by_cases hkey : key' = key
    · subst hkey
      rw [if_pos (by rfl)] at hlast
      cases hlast
      exact ⟨_, if_pos rfl, rfl⟩
    · rw [if_neg (fun h => hkey h.symm)] at hlast
      rw [if_neg hkey]
      exact h.last_insert key' action' hlast

/-! ## A deletion -/

/-- The table after an entry has been taken out of its chain and freed. -/
def removed (table : FlowTable) (key : FlowKey) (to_delete : FlowEntry) : FlowTable :=
  { table with
    hash_table := Function.update table.hash_table (hashFunction key)
      ((table.bucket key).eraseP fun entry => entry.key = key)
    freed := to_delete.serial.toList ++ table.freed }

variable {to_delete : FlowEntry}

theorem mem_of_mem_removed {idx : Fin HASH_TABLE_SIZE} {entry : FlowEntry}
    (h : entry ∈ (table.removed key to_delete).hash_table idx) : entry ∈ table.hash_table idx := by
  by_cases hidx : idx = hashFunction key
  · subst hidx
    have hmem : entry ∈ (table.bucket key).eraseP fun entry => entry.key = key := by
      simpa [removed] using h
    exact List.mem_of_mem_eraseP hmem
  · simpa [removed, hidx] using h

theorem first_removed_of_ne {key' : FlowKey} (hkey : key' ≠ key) :
    (table.removed key to_delete).first key' = table.first key' := by
  by_cases hidx : hashFunction key' = hashFunction key
  -- the entry that is taken out is none of the other key
  · have hdisjoint : ∀ entry : FlowEntry, decide (entry.key = key) = true →
        decide (entry.key = key') = false := by
      intro entry hentry
      simpa [of_decide_eq_true hentry] using fun h => hkey h.symm
    simpa [first, removed, bucket, hidx] using
      find?_eraseP_of_disjoint hdisjoint (table.hash_table (hashFunction key))
  · simp [first, removed, bucket, hidx]

theorem first_removed_self :
    (table.removed key to_delete).first key = none ↔
      (table.bucket key).countP (fun entry => entry.key = key) ≤ 1 := by
  simpa [first, removed, bucket] using
    find?_eraseP_self_eq_none (p := fun entry : FlowEntry => decide (entry.key = key))
      (table.hash_table (hashFunction key))

/-- The entry that is freed is the only record for which that makes a difference. -/
theorem isFreed_removed {serial : Nat} (hserial : to_delete.serial = some serial)
    (entry : FlowEntry) :
    (table.removed key to_delete).isFreed entry = true ↔
      entry.serial = to_delete.serial ∨ table.isFreed entry = true := by
  cases hentry : entry.serial with
  | none => simp [isFreed, hentry, hserial]
  | some other => simp [isFreed, removed, hentry, hserial]

/-- What is left in the chains is not what is freed: that occurs once. -/
theorem Chains.serial_ne_removed (h : table.Chains) (hfirst : table.first key = some to_delete)
    {idx : Fin HASH_TABLE_SIZE} {entry : FlowEntry}
    (hentry : entry ∈ (table.removed key to_delete).hash_table idx) :
    entry.serial ≠ to_delete.serial := by
  intro hserial
  rcases first_eq_some hfirst with ⟨hmem, hkey⟩
  have hold := mem_of_mem_removed hentry
  -- one serial, one entry
  have hsame : entry = to_delete := h.chain_inj _ _ entry hold to_delete hmem hserial
  subst hsame
  have hidx : idx = hashFunction key := by rw [← h.chain_hash idx entry hold, hkey]
  subst hidx
  refine not_mem_eraseP_of_find? (h.chain_nodup (hashFunction key)) hfirst ?_
  simpa [removed, bucket] using hentry

theorem Chains.removed (h : table.Chains) (hfirst : table.first key = some to_delete) :
    (table.removed key to_delete).Chains := by
  rcases first_eq_some hfirst with ⟨hmem, _⟩
  rcases h.chain_serial _ _ hmem with ⟨serial, hserial, hlt, _⟩
  refine
    { freed_lt := ?_
      chain_hash := fun idx entry hentry => h.chain_hash idx entry (mem_of_mem_removed hentry)
      chain_serial := ?_
      chain_nodup := ?_
      chain_inj := fun idx idx' entry hentry entry' hentry' =>
        h.chain_inj idx idx' entry (mem_of_mem_removed hentry) entry'
          (mem_of_mem_removed hentry') }
  · intro serial' hfreed
    rcases List.mem_append.1 hfreed with hnew | hold
    · rw [hserial, Option.toList_some, List.mem_singleton] at hnew
      rw [hnew]
      exact hlt
    · exact h.freed_lt serial' hold
  · intro idx entry hentry
    rcases h.chain_serial idx entry (mem_of_mem_removed hentry) with
      ⟨serial', hserial', hlt', hfreed'⟩
    refine ⟨serial', hserial', hlt', ?_⟩
    intro hmem'
    rcases List.mem_append.1 hmem' with hnew | hold
    · rw [hserial, Option.toList_some, List.mem_singleton] at hnew
      exact h.serial_ne_removed hfirst hentry (by rw [hserial', hserial, hnew])
    · exact hfreed' hold
  · intro idx
    by_cases hidx : idx = hashFunction key
    · subst hidx
      simpa [FlowTable.removed, bucket] using
        (h.chain_nodup (hashFunction key)).sublist List.eraseP_sublist
    · simpa [FlowTable.removed, hidx] using h.chain_nodup idx

theorem Inv.delete (h : table.Inv log) (hfirst : table.first key = some to_delete) :
    (table.removed key to_delete).Inv (.delete key :: log) := by
  have hchains := h.chains.removed hfirst
  rcases first_eq_some hfirst with ⟨hmem, hkey⟩
  rcases h.chain_serial _ _ hmem with ⟨serial, hserial, _, _⟩
  refine
    { freed_lt := hchains.freed_lt
      chain_hash := hchains.chain_hash
      chain_serial := hchains.chain_serial
      chain_nodup := hchains.chain_nodup
      chain_inj := hchains.chain_inj
      chain_log := ?_
      trie_bits := h.trie_bits
      trie_first := ?_
      root := ?_
      last_insert := ?_ }
  · intro idx entry hentry
    rcases h.chain_log idx entry (mem_of_mem_removed hentry) with ⟨call, hcall, hcall_key⟩
    exact ⟨call, List.mem_cons_of_mem _ hcall, hcall_key⟩
  · intro address entry hnode
    -- the node may be the freed entry, or an entry that is still first in its chain
    rw [isFreed_removed hserial]
    rcases h.trie_first address entry hnode with hzero | hfreed | hold
    · exact Or.inl hzero
    · exact Or.inr (Or.inl (Or.inr hfreed))
    · by_cases hsame : entry.key = key
      · rw [hsame, hfirst, Option.some.injEq] at hold
        exact Or.inr (Or.inl (Or.inl (by rw [hold])))
      · exact Or.inr (Or.inr (by rw [first_removed_of_ne hsame, hold]))
  · intro call hcall hbits
    rcases List.mem_cons.1 hcall with rfl | hold
    · -- the deleted key has been inserted before
      rcases h.chain_log _ _ hmem with ⟨call, hcall, hcall_key⟩
      have hsame : call.key = key := hcall_key.trans hkey
      exact h.root call hcall (by rw [hsame]; exact hbits)
    · exact h.root call hold hbits
  · intro key' action' hlast
    rw [lastCall_cons] at hlast
    -- the last call for the deleted key is the deletion, no insertion
    by_cases hsame : key' = key
    · rw [if_pos (by exact hsame.symm)] at hlast
      cases hlast
    · rw [if_neg (fun h => hsame h.symm)] at hlast
      rw [first_removed_of_ne hsame]
      exact h.last_insert key' action' hlast

end FlowTable

end DataPlane
end EVdeSwitch
