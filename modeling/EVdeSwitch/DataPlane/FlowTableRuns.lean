import EVdeSwitch.DataPlane.FlowTableMap

/-!
# FlowTableRuns — the calls that keep the flow table a map

A call goes wrong in two ways.  A walk through the trie can come to an entry that has been freed;
and after a deletion the key can still be found, in its chain or at its place in the trie.  The
runs in which no call does are exactly those all of whose states are maps.
-/

namespace EVdeSwitch
namespace DataPlane

open EVdeSwitch.Lib
open EVdeSwitch.Utils

namespace FlowTable

/-- An entry that can be deleted: it is the only one with its key, a walk to its place comes to no
freed entry and ends somewhere else, and no walk for a key deleted before comes past it. -/
structure Removable (table : FlowTable) (log : List FlowCall) (key : FlowKey) : Prop where
  once : (table.bucket key).countP (fun entry => entry.key = key) ≤ 1
  readable : ∀ entry ∈ table.trie_root.above key.bits, table.isFreed entry = false
  masked : (∃ entry ∈ table.trie_root.above key.bits, entry.action.action_length > 0) ∨
    ∀ entry ∈ table.trie_root.nodeAt key.bits, entry.key ≠ key
  alone : ∀ entry ∈ table.trie_root.nodeAt key.bits, entry.key = key → ∀ call ∈ log,
    lastCall log call.key = some (.delete call.key) → key.bits <+: call.key.bits →
      key.bits = call.key.bits

/-- The calls that keep the table a map: an insertion whose walk comes to no freed entry, and a
deletion of an entry that is not there or can be deleted. -/
def KeepsMap (table : FlowTable) (log : List FlowCall) : FlowCall → Prop
  | .insert key _ => ∀ entry ∈ table.trie_root.above key.bits, table.isFreed entry = false
  | .delete key => table.first key ≠ none → table.Removable log key

instance decidableRemovable (table : FlowTable) (log : List FlowCall) (key : FlowKey) :
    Decidable (table.Removable log key) :=
  decidable_of_iff
    ((table.bucket key).countP (fun entry => entry.key = key) ≤ 1 ∧
      (∀ entry ∈ table.trie_root.above key.bits, table.isFreed entry = false) ∧
      ((∃ entry ∈ table.trie_root.above key.bits, entry.action.action_length > 0) ∨
        ∀ entry ∈ table.trie_root.nodeAt key.bits, entry.key ≠ key) ∧
      ∀ entry ∈ table.trie_root.nodeAt key.bits, entry.key = key → ∀ call ∈ log,
        lastCall log call.key = some (.delete call.key) → key.bits <+: call.key.bits →
          key.bits = call.key.bits)
    ⟨fun h => ⟨h.1, h.2.1, h.2.2.1, h.2.2.2⟩, fun h => ⟨h.once, h.readable, h.masked, h.alone⟩⟩

instance decidableKeepsMap (table : FlowTable) (log : List FlowCall) :
    ∀ call, Decidable (table.KeepsMap log call)
  | .insert key _ =>
      inferInstanceAs (Decidable (∀ entry ∈ table.trie_root.above key.bits,
        table.isFreed entry = false))
  | .delete key => inferInstanceAs (Decidable (table.first key ≠ none → table.Removable log key))

variable {table : FlowTable} {log : List FlowCall} {key key' : FlowKey} {action : FlowAction}

/-! ## Insertions -/

theorem isFreed_zeroed : table.isFreed .zeroed = false := rfl

theorem Inv.isFreed_newEntry (h : table.Inv log) :
    table.isFreed (table.newEntry key action) = false := by
  have hnew : table.created ∉ table.freed := fun hmem => Nat.lt_irrefl _ (h.freed_lt _ hmem)
  simpa [isFreed, newEntry] using hnew

/-- An insertion leaves the other deleted keys hidden. -/
theorem Inv.hidden_insert (h : table.Inv log) (hhidden : table.Hidden key') (hne : key' ≠ key)
    (hlog : ∃ call ∈ log, call.key = key') : (table.inserted key action).Hidden key' where
  absent := by rw [first_inserted, if_neg hne, hhidden.absent]
  readable := by
    intro entry hentry
    rcases Trie.mem_above.1 hentry with ⟨address, hextends, haddress, hnode⟩
    rcases Trie.nodeAt_put_eq_some hnode with ⟨_, rfl⟩ | ⟨_, hold | ⟨_, rfl⟩⟩
    · exact h.isFreed_newEntry
    · exact hhidden.readable entry (Trie.mem_above.2 ⟨address, hextends, haddress, hold⟩)
    · exact isFreed_zeroed
  masked := by
    by_cases hway : key.bits <+: key'.bits
    · right
      intro entry hentry
      have hnode := Trie.nodeAt_put_eq_some (Option.mem_def.1 hentry)
      rcases hnode with ⟨_, rfl⟩ | ⟨hnot, _⟩
      · exact fun h => hne h.symm
      · exact absurd hway hnot
    · rcases hhidden.masked with ⟨entry, hentry, haction⟩ | hother
      · -- what masks the key is not below the new entry
        rcases Trie.mem_above.1 hentry with ⟨address, hextends, haddress, hnode⟩
        have hnot : ¬ key.bits <+: address := fun hbelow => hway (hbelow.trans hextends)
        refine Or.inl ⟨entry, Trie.mem_above.2 ⟨address, hextends, haddress, ?_⟩, haction⟩
        simp [inserted, Trie.nodeAt_put_of_apart hnot, hnode]
      · right
        intro entry hentry
        rcases Trie.nodeAt_put_eq_some (Option.mem_def.1 hentry) with
          ⟨hsame, _⟩ | ⟨_, hold | ⟨hnone, rfl⟩⟩
        · exact absurd (hsame ▸ List.prefix_refl _) hway
        · exact hother entry hold
        · -- a record that is filled in has the empty key, and the root is not missing
          intro hzero
          rcases hlog with ⟨call, hcall, hkey⟩
          have hbits : key'.bits = [] := by
            rw [← hzero]
            rfl
          rcases h.root call hcall (by rw [hkey, hbits]) with ⟨entry, hroot, _⟩
          rw [hbits, hroot] at hnone
          cases hnone

theorem mem_of_lastCall {call : FlowCall} (h : lastCall log key = some call) :
    ∃ call ∈ log, call.key = key :=
  ⟨call, List.mem_of_find?_eq_some h, lastCall_key h⟩

theorem Inv.isMap_insert (h : table.Inv log) (hmap : table.IsMap log) :
    (table.inserted key action).IsMap (.insert key action :: log) := by
  rw [(h.insert key action).isMap_iff]
  intro key' hlast
  rw [lastCall_cons] at hlast
  by_cases hkey : key' = key
  · rw [if_pos (by exact hkey.symm)] at hlast
    cases hlast
  · rw [if_neg (by exact fun h => hkey h.symm)] at hlast
    exact h.hidden_insert (h.isMap_iff.1 hmap key' hlast) hkey (mem_of_lastCall hlast)

/-! ## Deletions -/

section Delete

variable {to_delete : FlowEntry}

/-- The one node that a deletion makes unreadable is the entry itself. -/
theorem Inv.newly_freed (h : table.Inv log) (hfirst : table.first key = some to_delete)
    {address : List Bool} {entry : FlowEntry}
    (hnode : table.trie_root.nodeAt address = some entry) (hread : table.isFreed entry = false)
    (hfreed : (table.removed key to_delete).isFreed entry = true) :
    entry.key = key ∧ address = key.bits := by
  rcases first_eq_some hfirst with ⟨hmem, hkey⟩
  rcases h.chain_serial _ _ hmem with ⟨serial, hserial, _, _⟩
  rw [isFreed_removed hserial] at hfreed
  have heq : entry.serial = to_delete.serial := by
    rcases hfreed with heq | hold
    · exact heq
    · simp [hread] at hold
  have hmade : entry ≠ .zeroed := by
    rintro rfl
    rw [hserial] at heq
    cases heq
  have hchain : table.first entry.key = some entry := by
    rcases h.trie_first address entry hnode with hzero | hold | hchain
    · exact absurd hzero hmade
    · simp [hread] at hold
    · exact hchain
  have hsame : entry = to_delete := h.chain_inj _ _ entry (first_eq_some hchain).1 _ hmem heq
  have hentry : entry.key = key := by rw [hsame, hkey]
  refine ⟨hentry, ?_⟩
  rcases h.trie_bits address entry hnode with hzero | hbits
  · exact absurd hzero hmade
  · rw [← hbits, hentry]

theorem isFreed_mono (hfirst : table.first key = some to_delete) (h : table.Inv log)
    {entry : FlowEntry} (hread : (table.removed key to_delete).isFreed entry = false) :
    table.isFreed entry = false := by
  rcases h.chain_serial _ _ (first_eq_some hfirst).1 with ⟨serial, hserial, _, _⟩
  cases hold : table.isFreed entry with
  | false => rfl
  | true =>
      have hfreed : (table.removed key to_delete).isFreed entry = true :=
        (isFreed_removed hserial entry).2 (Or.inr hold)
      rw [hread] at hfreed
      cases hfreed

/-- The node with the key at its own place is the entry of the chain. -/
theorem Inv.node_eq_first (h : table.Inv log) (hfirst : table.first key = some to_delete)
    {entry : FlowEntry} (hnode : table.trie_root.nodeAt key.bits = some entry)
    (hkey : entry.key = key) (hread : table.isFreed entry = false) : entry = to_delete := by
  rcases h.trie_first _ entry hnode with rfl | hold | hchain
  · -- an empty record at the root, where an entry must be
    rcases h.chain_log _ _ (first_eq_some hfirst).1 with ⟨call, hcall, hcall_key⟩
    have hbits : key.bits = [] := by
      rw [← hkey]
      rfl
    rcases h.root call hcall (by rw [hcall_key, (first_eq_some hfirst).2, hbits]) with
      ⟨other, hother, hne⟩
    rw [hbits, hother, Option.some.injEq] at hnode
    exact absurd hnode hne
  · simp [hread] at hold
  · rw [hkey, hfirst, Option.some.injEq] at hchain
    exact hchain.symm

theorem Inv.hidden_delete_self (h : table.Inv log) (hfirst : table.first key = some to_delete) :
    (table.removed key to_delete).Hidden key ↔
      (table.bucket key).countP (fun entry => entry.key = key) ≤ 1 ∧
      (∀ entry ∈ table.trie_root.above key.bits, table.isFreed entry = false) ∧
      ((∃ entry ∈ table.trie_root.above key.bits, entry.action.action_length > 0) ∨
        ∀ entry ∈ table.trie_root.nodeAt key.bits, entry.key ≠ key) := by
  constructor
  · intro hhidden
    exact ⟨first_removed_self.1 hhidden.absent,
      fun entry hentry => isFreed_mono hfirst h (hhidden.readable entry hentry), hhidden.masked⟩
  · rintro ⟨honce, hread, hmasked⟩
    refine ⟨first_removed_self.2 honce, ?_, hmasked⟩
    intro entry hentry
    cases hfreed : (table.removed key to_delete).isFreed entry with
    | false => rfl
    | true =>
        -- the entry is not above its own place
        rcases Trie.mem_above.1 hentry with ⟨address, _, hne, hnode⟩
        exact absurd (h.newly_freed hfirst hnode (hread entry hentry) hfreed).2 hne

theorem Inv.isMap_delete (h : table.Inv log) (hmap : table.IsMap log)
    (hfirst : table.first key = some to_delete) :
    (table.removed key to_delete).IsMap (.delete key :: log) ↔ table.Removable log key := by
  rw [(h.delete hfirst).isMap_iff]
  constructor
  · intro hhidden
    rcases (h.hidden_delete_self hfirst).1 (hhidden key (by simp [lastCall_cons, FlowCall.key])) with
      ⟨honce, hread, hmasked⟩
    refine ⟨honce, hread, hmasked, ?_⟩
    intro entry hentry hkey call hcall hlast hextends
    by_contra hne
    have hother : call.key ≠ key := by
      intro hsame
      exact hne (by rw [hsame])
    have hlast' : lastCall (.delete key :: log) call.key = some (.delete call.key) := by
      rw [lastCall_cons, if_neg (by exact fun h => hother h.symm), hlast]
    -- the walk for the other key comes past the entry, which has just been freed
    have habove : entry ∈ table.trie_root.above call.key.bits :=
      Trie.mem_above.2 ⟨key.bits, hextends, hne, hentry⟩
    have hreadable : (table.removed key to_delete).isFreed entry = false :=
      (hhidden call.key hlast').readable entry habove
    have hold : table.isFreed entry = false := isFreed_mono hfirst h hreadable
    have hsame : entry = to_delete := h.node_eq_first hfirst hentry hkey hold
    rcases h.chain_serial _ _ (first_eq_some hfirst).1 with ⟨serial, hserial, _, _⟩
    have hfreed : (table.removed key to_delete).isFreed entry = true :=
      (isFreed_removed hserial entry).2 (Or.inl (by rw [hsame]))
    rw [hreadable] at hfreed
    cases hfreed
  · intro hremovable key' hlast
    rw [lastCall_cons] at hlast
    by_cases hkey : key' = key
    · rw [hkey]
      exact (h.hidden_delete_self hfirst).2
        ⟨hremovable.once, hremovable.readable, hremovable.masked⟩
    · rw [if_neg (by exact fun h => hkey h.symm)] at hlast
      have hhidden : table.Hidden key' := h.isMap_iff.1 hmap key' hlast
      refine ⟨by rw [first_removed_of_ne hkey, hhidden.absent], ?_, hhidden.masked⟩
      intro entry hentry
      cases hfreed : (table.removed key to_delete).isFreed entry with
      | false => rfl
      | true =>
          rcases Trie.mem_above.1 hentry with ⟨address, hextends, hne, hnode⟩
          rcases h.newly_freed hfirst hnode (hhidden.readable entry hentry) hfreed with
            ⟨hentry_key, rfl⟩
          rcases mem_of_lastCall hlast with ⟨call, hcall, rfl⟩
          exact absurd (hremovable.alone entry hnode hentry_key call hcall hlast hextends) hne

end Delete

end FlowTable

/-! ## All runs -/

namespace FlowTable

/-- The state of a run; one whose behaviour is undefined is no map. -/
def IsMapState : Except Halt FlowTable × List FlowCall → Prop
  | (.ok table, log) => table.IsMap log
  | (.error _, _) => False

def InvState : Except Halt FlowTable × List FlowCall → Prop
  | (.ok table, log) => table.Inv log
  | (.error _, _) => True

def KeepsMapState : Except Halt FlowTable × List FlowCall → FlowCall → Prop
  | (.ok table, log), call => table.KeepsMap log call
  | (.error _, _), _ => True

instance decidableKeepsMapState : ∀ (x : Except Halt FlowTable × List FlowCall) (call : FlowCall),
    Decidable (KeepsMapState x call)
  | (.ok table, log), call => inferInstanceAs (Decidable (table.KeepsMap log call))
  | (.error _, _), _ => isTrue trivial

/-- What one call does to a map. -/
theorem isMap_step {x y : Except Halt FlowTable × List FlowCall} {call : FlowCall}
    (hinv : InvState x) (hmap : IsMapState x)
    (h : (flowTable.withHistory recordCall).step x call = some y) :
    InvState y ∧ (IsMapState y ↔ KeepsMapState x call) := by
  rcases Machine.withHistory_step.1 h with ⟨hstep, hlog⟩
  rcases x with ⟨r, log⟩
  cases r with
  | error halt => cases hmap
  | ok table =>
      have htable : table.Inv log := hinv
      have hr : y.1 = (table.call call).map Prod.snd := (Option.some.inj hstep).symm
      cases call with
      | insert key action =>
          cases hway : (table.trie_root.above key.bits).any table.isFreed with
          | true =>
              -- the walk comes to a freed entry
              have hcall : table.call (.insert key action) = .error .crash := by
                simp [call, insert_eq, hway]
              have hy : y = (.error .crash, y.2) := by
                rw [← Prod.eta y, hr, hcall]
                rfl
              rw [hy]
              refine ⟨trivial, iff_of_false id ?_⟩
              intro hkeeps
              rcases List.any_eq_true.1 hway with ⟨entry, hentry, hfreed⟩
              simp [hkeeps entry hentry] at hfreed
          | false =>
              have hcall : table.call (.insert key action) = .ok (0, table.inserted key action) := by
                simp [call, insert_eq, hway]
              have hy : y = (.ok (table.inserted key action), .insert key action :: log) := by
                rw [← Prod.eta y, hr, hlog]
                simp [recordCall, hcall, Except.map, Except.bind]
              rw [hy]
              refine ⟨htable.insert key action, iff_of_true (htable.isMap_insert hmap) ?_⟩
              intro entry hentry
              simpa using List.any_eq_false.1 hway entry hentry
      | delete key =>
          cases hfirst : table.first key with
          | none =>
              have hy : y = (.ok table, log) := by
                rw [← Prod.eta y, hr, hlog]
                simp [recordCall, call, delete_of_absent hfirst, Except.map, Except.bind]
              rw [hy]
              exact ⟨htable, iff_of_true hmap fun hpresent => absurd hfirst hpresent⟩
          | some entry =>
              have hy : y = (.ok (table.removed key entry), .delete key :: log) := by
                rw [← Prod.eta y, hr, hlog]
                simp [recordCall, call, delete_of_first hfirst, removed, Except.map, Except.bind]
              rw [hy]
              refine ⟨htable.delete hfirst, (htable.isMap_delete hmap hfirst).trans ?_⟩
              constructor
              · intro hremovable _
                exact hremovable
              · intro hkeeps
                exact hkeeps (by simp [hfirst])

/-- After every call of a run the table is a map, if and only if no walk comes to an entry that has
been freed and every deletion is one of an entry that can be deleted. -/
theorem isMap_iff_keepsMap {calls : List FlowCall} {x : Except Halt FlowTable × List FlowCall}
    (hrun : (flowTable.withHistory recordCall).run (.ok flowTableCreate, []) calls = some x) :
    (flowTable.withHistory recordCall).Always IsMapState (.ok flowTableCreate, []) calls ↔
      (flowTable.withHistory recordCall).Guarded KeepsMapState (.ok flowTableCreate, []) calls := by
  have hstart : InvState (.ok flowTableCreate, []) := inv_create
  have hmap : IsMapState (.ok flowTableCreate, []) := fun _ => trivial
  exact Machine.always_iff_guarded InvState IsMapState
    (fun _ _ _ hinv hmap hstep => isMap_step hinv hmap hstep) hstart hmap hrun

/-! ## Keys that are deleted -/

theorem one_le_max : (1 : UInt16).toNat ≤ MAX_FIELD_LENGTH := by decide

theorem two_le_max : (2 : UInt16).toNat ≤ MAX_FIELD_LENGTH := by decide

def shortKey : FlowKey :=
  { FlowKey.zeroed with
    length := 1
    length_le := one_le_max }

/-- A key that extends the short one. -/
def longKey : FlowKey :=
  { FlowKey.zeroed with
    length := 2
    length_le := two_le_max }

/-- An action of one byte. -/
def output (port : UInt8) : FlowAction :=
  { action := Vector.ofFn fun i => [port].getD i 0
    action_length := 1 }

/-- An entry that has an action above it can be deleted. -/
theorem isMap_masked :
    (flowTable.withHistory recordCall).Always IsMapState (.ok flowTableCreate, [])
      [.insert shortKey (output 1), .insert longKey (output 2), .delete longKey] := by
  have heval : ((flowTable.withHistory recordCall).run (.ok flowTableCreate, [])
      [.insert shortKey (output 1), .insert longKey (output 2), .delete longKey]).isSome = true := by
    decide +kernel
  rcases Option.isSome_iff_exists.1 heval with ⟨x, hx⟩
  exact (isMap_iff_keepsMap hx).2 (by decide +kernel)

/-- The last call for the key, and whether an entry with the key is found. -/
def observe (key : FlowKey) : Except Halt FlowTable × List FlowCall → Option FlowCall × Bool
  | (.ok table, log) =>
      (lastCall log key,
        match flowTableLookup table key with
        | .ok found => found.any fun entry => entry.key = key
        | .error _ => false)
  | (.error _, log) => (lastCall log key, false)

/-- An entry that has been deleted is still found in the trie. -/
theorem not_isMap_deleted :
    ∃ table log, (flowTable.withHistory recordCall).run (.ok flowTableCreate, [])
        [.insert shortKey (output 1), .delete shortKey] = some (.ok table, log) ∧
      ¬ table.IsMap log := by
  have heval : ((flowTable.withHistory recordCall).run (.ok flowTableCreate, [])
      [.insert shortKey (output 1), .delete shortKey]).map (observe shortKey) =
        some (some (.delete shortKey), true) := by
    decide +kernel
  rcases Option.map_eq_some_iff.1 heval with ⟨⟨r, log⟩, hrun, hobserve⟩
  cases r with
  | error halt => simp [observe] at hobserve
  | ok table =>
      simp only [observe, Prod.mk.injEq] at hobserve
      refine ⟨table, log, hrun, ?_⟩
      intro hmap
      have hkey := hmap shortKey
      simp only [hobserve.1] at hkey
      rcases hkey with ⟨⟨found, hfound, hother⟩, _⟩
      have hany := hobserve.2
      rw [hfound] at hany
      rcases (Option.any_eq_true _ _).1 hany with ⟨entry, hentry, hsame⟩
      exact hother entry hentry (by simpa using hsame)

end FlowTable

end DataPlane
end EVdeSwitch
