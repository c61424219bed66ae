import Mathlib.Order.Interval.Finset.Nat
import EVdeSwitch.ControlPlane.SerialInserts
import EVdeSwitch.Lib.LinkedList
import EVdeSwitch.Lib.Machine
import EVdeSwitch.Utils.Logging

/-!
# MacTableHeap — the MAC address table on the heap

`src/control_plane/hash_table.c` with the pointers between its entries, for calls one at a time.
An entry is found by following `next` from the head of a bucket; a chain with a cycle would be
walked forever, and a pointer that `calloc` has not given out must not be followed.
-/

namespace EVdeSwitch
namespace ControlPlane

open EVdeSwitch.Lib
open EVdeSwitch.Utils

/-- A pointer to an entry; the null pointer is `none`. -/
abbrev EntryAddr : Type := { a : BitVec 64 // a ≠ 0 }

/-- `hash_entry_t` with its link. -/
structure EntryRecord where
  entry : HashEntry
  next : Option EntryAddr
  deriving DecidableEq

/-- `mac_table_t`, and the entries that `calloc` has given out. -/
structure MacTableHeap where
  record : EntryAddr → Option EntryRecord
  buckets : Fin HASH_TABLE_SIZE → Option EntryAddr
  size : BitVec 64

namespace MacTableHeap

/-! ## `hash_table.c` -/

def create : MacTableHeap :=
  { record := fun _ => none
    buckets := fun _ => none
    size := 0 }

/-- There are fewer addresses than this. -/
def ADDRESSES : Nat := 2 ^ 64

/-- The loop of both functions, from a pointer on and for at most `fuel` tests of its condition:
the first entry that meets the test. -/
def walk (table : MacTableHeap) (test : HashEntry → Bool) :
    Nat → Option EntryAddr → Option (Except Halt (Option EntryAddr))
  | 0, _ => none
  | _ + 1, none => some (.ok none)
  | fuel + 1, some entry =>
      match table.record entry with
      | none => some (.error .crash)
      | some r => if test r.entry then some (.ok (some entry)) else walk table test fuel r.next

/-- Stores into an entry. -/
def store (table : MacTableHeap) (entry : EntryAddr) (f : HashEntry → HashEntry) : MacTableHeap :=
  { table with
    record := Function.update table.record entry
      ((table.record entry).map fun r => { r with entry := f r.entry }) }

/-- Insert at head of chain. -/
def link (table : MacTableHeap) (idx : Fin HASH_TABLE_SIZE) (addr : EntryAddr)
    (entry : HashEntry) : MacTableHeap :=
  { record := Function.update table.record addr
      (some { entry := entry, next := table.buckets idx })
    buckets := Function.update table.buckets idx (some addr)
    size := table.size + 1 }

/-- The result, which is always `true`, is left out; it is `none` if the loop does not end. -/
def insert (table : MacTableHeap) (call : InsertCall) (calloc : Option EntryAddr) :
    Option (Except Halt MacTableHeap) :=
  let idx := call.idx
  (table.walk (HashEntry.Matches call.mac call.vlan) ADDRESSES (table.buckets idx)).map fun r =>
    r.bind fun found =>
      match found with
      | some entry => .ok (table.store entry (HashEntry.refresh call.port call.now))
      | none =>
          match calloc with
          | none => .error .crash
          | some addr => .ok (table.link idx addr call.entry)

def lookup (table : MacTableHeap) (mac : Mac) (vlan : UInt16) (now : Nat) :
    Option (Except Halt (Int × MacTableHeap)) :=
  let idx := hashMac mac vlan
  let test := fun entry : HashEntry => entry.Matches mac vlan && entry.valid
  (table.walk test ADDRESSES (table.buckets idx)).map fun r =>
    r.bind fun found =>
      match found with
      | none => .ok (-1, table)
      | some entry =>
          match table.record entry with
          | none => .error .crash
          | some r =>
              if now - r.entry.last_seen > ENTRY_TTL then
                .ok (-1, table.store entry HashEntry.retire)
              else
                .ok (r.entry.port, table)

/-! ## Chains -/

def next (table : MacTableHeap) (entry : EntryAddr) : Option EntryAddr :=
  (table.record entry).bind EntryRecord.next

/-- What is in an entry that has been given out. -/
def entryAt (table : MacTableHeap) (entry : EntryAddr) : Option HashEntry :=
  (table.record entry).map EntryRecord.entry

/-- The entries of a bucket. -/
def chain (table : MacTableHeap) (idx : Fin HASH_TABLE_SIZE) : List EntryAddr :=
  follow table.next ADDRESSES (table.buckets idx)

variable {table : MacTableHeap}

/-- A walk along a chain that ends finds what a search of its contents finds. -/
theorem walk_eq (test : HashEntry → Bool) {cells : List EntryAddr} {contents : List HashEntry}
    {head : Option EntryAddr} {fuel : Nat} (hlinked : Linked table.next head cells)
    (hcontents : cells.map table.entryAt = contents.map some) (hfuel : cells.length < fuel) :
    (contents.find? test = none ∧ table.walk test fuel head = some (.ok none)) ∨
      ∃ before addr after entry, cells = before ++ addr :: after ∧
        contents.find? test = some entry ∧ table.entryAt addr = some entry ∧
        table.walk test fuel head = some (.ok (some addr)) ∧
        ∀ f, (modifyFirst test f contents).map some =
          before.map table.entryAt ++ some (f entry) :: after.map table.entryAt := by
  -- at every entry the fuel exceeds what is left of the chain
  induction cells generalizing head contents fuel with
  | nil =>
      have hhead : head = none := hlinked
      have hempty : contents = [] := List.map_eq_nil_iff.1 hcontents.symm
      subst hhead hempty
      cases fuel with
      | zero => cases hfuel
      | succ fuel => exact Or.inl ⟨rfl, rfl⟩
  | cons addr cells ih =>
      rcases hlinked with ⟨rfl, hrest⟩
      cases contents with
      | nil => cases hcontents
      | cons entry contents =>
          rcases List.cons.inj hcontents with ⟨hentry, htail⟩
          have hrecord : ∃ r, table.record addr = some r ∧ r.entry = entry := by
            simpa only [entryAt, Option.map_eq_some_iff] using hentry
          rcases hrecord with ⟨r, hr, rfl⟩
          have hnext : table.next addr = r.next := by rw [next, hr, Option.bind_some]
          rw [hnext] at hrest
          cases fuel with
          | zero => cases hfuel
          | succ fuel =>
              cases htest : test r.entry with
              | true =>
                  refine Or.inr ⟨[], addr, cells, r.entry, rfl, ?_, hentry, ?_, fun f => ?_⟩
                  · exact List.find?_cons_of_pos htest
                  · simp only [walk, hr, htest, if_true]
                  · rw [modifyFirst_cons_of_pos htest, List.map_cons, ← htail, List.map_nil,
                      List.nil_append]
              | false =>
                  have hwalk : table.walk test (fuel + 1) (some addr) =
                      table.walk test fuel r.next := by
                    simp only [walk, hr, htest, Bool.false_eq_true, if_false]
                  have hfind : (r.entry :: contents).find? test = contents.find? test :=
                    List.find?_cons_of_neg (by simp [htest])
                  -- the entry does not match, and both searches go on behind it
                  rw [hwalk, hfind]
                  rcases ih hrest htail (Nat.lt_of_succ_lt_succ hfuel) with
                    hnone | ⟨before, found, after, entry, rfl, hsome, hfound, hrun, hmodify⟩
                  · exact Or.inl hnone
                  · refine Or.inr ⟨addr :: before, found, after, entry, rfl, hsome, hfound, hrun,
                      fun f => ?_⟩
                    rw [modifyFirst_cons_of_neg htest, List.map_cons, hmodify, List.map_cons,
                      hentry, List.cons_append]

/-! ## The table that the heap represents -/

/-- The chains of the heap end; they hold the entries of the table, and nothing that has been given
out is outside of them. -/
structure Represents (heap : MacTableHeap) (chains : Fin HASH_TABLE_SIZE → List EntryAddr)
    (table : MacTable) : Prop where
  linked : ∀ idx, Linked heap.next (heap.buckets idx) (chains idx)
  contents : ∀ idx, (chains idx).map heap.entryAt = (table.buckets idx).map some
  given : ∀ addr entry, heap.entryAt addr = some entry → ∃ idx, addr ∈ chains idx
  size : heap.size.toNat = table.size

/-- What holds of the table between two calls. -/
structure TableInv (table : MacTable) : Prop where
  keysOnce : table.KeysOnce
  placed : table.Placed
  counted : table.Counted

theorem represents_create : create.Represents (fun _ => []) macTableCreate where
  linked := fun _ => rfl
  contents := fun _ => rfl
  given := fun _ _ h => absurd h (by simp [create, entryAt])
  size := rfl

theorem tableInv_create : TableInv macTableCreate where
  keysOnce := MacTable.keysOnce_create
  placed := MacTable.placed_create
  counted := MacTable.counted_create

section Representation

variable {heap : MacTableHeap} {chains : Fin HASH_TABLE_SIZE → List EntryAddr} {table : MacTable}
  {addr : EntryAddr} {entry : HashEntry} {idx idx' : Fin HASH_TABLE_SIZE}

theorem Represents.length_eq (h : heap.Represents chains table) (idx : Fin HASH_TABLE_SIZE) :
    (chains idx).length = (table.buckets idx).length := by
  have hlength := congrArg List.length (h.contents idx)
  rwa [List.length_map, List.length_map] at hlength

theorem Represents.exists_entry (h : heap.Represents chains table) (hmem : addr ∈ chains idx) :
    ∃ entry, heap.entryAt addr = some entry ∧ entry ∈ table.buckets idx := by
  have hcontents : heap.entryAt addr ∈ (table.buckets idx).map some := by
    rw [← h.contents idx]
    exact List.mem_map_of_mem hmem
  rcases List.mem_map.1 hcontents with ⟨entry, hentry, hsome⟩
  exact ⟨entry, hsome.symm, hentry⟩

/-- An entry is in the chain that the hash of its key leads to. -/
theorem Represents.idx_eq (h : heap.Represents chains table) (hinv : TableInv table)
    (hmem : addr ∈ chains idx) (hentry : heap.entryAt addr = some entry) : entry.idx = idx := by
  rcases h.exists_entry hmem with ⟨entry', hentry', hbucket⟩
  rw [hentry] at hentry'
  cases hentry'
  exact hinv.placed idx entry hbucket

theorem Represents.disjoint (h : heap.Represents chains table) (hinv : TableInv table)
    (hmem : addr ∈ chains idx) (hmem' : addr ∈ chains idx') : idx = idx' := by
  rcases h.exists_entry hmem with ⟨entry, hentry, _⟩
  exact (h.idx_eq hinv hmem hentry).symm.trans (h.idx_eq hinv hmem' hentry)

/-- There are fewer pointers than words, as none is null. -/
theorem card_addrs_lt (addrs : Finset EntryAddr) : addrs.card < 2 ^ 64 := by
  have hbound : addrs.card ≤ (Finset.Ioo 0 (2 ^ 64)).card := by
    refine Finset.card_le_card_of_injOn (fun a => a.1.toNat) ?_ ?_
    · intro a _
      have hpos : a.1.toNat ≠ 0 := fun hzero => a.2 (BitVec.eq_of_toNat_eq hzero)
      exact Finset.mem_coe.2 (Finset.mem_Ioo.2 ⟨Nat.pos_of_ne_zero hpos, a.1.isLt⟩)
    · intro a _ b _ heq
      exact Subtype.ext (BitVec.eq_of_toNat_eq heq)
  rw [Nat.card_Ioo] at hbound
  omega

theorem Represents.length_lt (h : heap.Represents chains table) (idx : Fin HASH_TABLE_SIZE) :
    (chains idx).length < ADDRESSES := by
  rw [← List.toFinset_card_of_nodup (h.linked idx).nodup]
  exact card_addrs_lt _

/-- The chains and one more entry have different addresses, so the count does not wrap around. -/
theorem Represents.size_lt (h : heap.Represents chains table) (hinv : TableInv table)
    (hfresh : heap.entryAt addr = none) : table.size + 1 < 2 ^ 64 := by
  -- no address is in two chains, so there are as many addresses as entries
  have hpairwise : Pairwise (Function.onFun Disjoint fun idx => (chains idx).toFinset) := by
    intro idx idx' hne
    refine Finset.disjoint_left.2 fun addr hidx hidx' => hne ?_
    exact h.disjoint hinv (List.mem_toFinset.1 hidx) (List.mem_toFinset.1 hidx')
  have hdisjoint : Set.PairwiseDisjoint ((Finset.univ : Finset (Fin HASH_TABLE_SIZE)) : Set _)
      fun idx => (chains idx).toFinset := hpairwise.set_pairwise _
  have hcard := Finset.card_biUnion hdisjoint
  have hsize : ∑ idx, (chains idx).toFinset.card = table.size := by
    have hcards : ∀ idx, (chains idx).toFinset.card = (table.buckets idx).length := by
      intro idx
      rw [List.toFinset_card_of_nodup (h.linked idx).nodup, h.length_eq]
    simp only [hcards]
    exact hinv.counted.symm
  -- and the record that `calloc` gives is in none of them
  have hunused : addr ∉ (Finset.univ : Finset (Fin HASH_TABLE_SIZE)).biUnion
      fun idx => (chains idx).toFinset := by
    simp only [Finset.mem_biUnion, Finset.mem_univ, true_and, List.mem_toFinset, not_exists]
    intro idx hidx
    rcases h.exists_entry hidx with ⟨entry, hentry, _⟩
    rw [hfresh] at hentry
    cases hentry
  have hlt := card_addrs_lt (Finset.cons addr _ hunused)
  rwa [Finset.card_cons, hcard, hsize] at hlt

theorem Represents.chain_eq (h : heap.Represents chains table) (idx : Fin HASH_TABLE_SIZE) :
    heap.chain idx = chains idx :=
  (h.linked idx).follow_eq (Nat.le_of_lt (h.length_lt idx))

/-! ## Stores -/

theorem next_store (heap : MacTableHeap) (addr : EntryAddr) (f : HashEntry → HashEntry) :
    (heap.store addr f).next = heap.next := by
  funext a
  by_cases ha : a = addr
  · subst ha
    simp only [next, store, Function.update_self]
    cases heap.record a <;> rfl
  · simp only [next, store, Function.update_of_ne ha]

theorem entryAt_store_self (hentry : heap.entryAt addr = some entry) (f : HashEntry → HashEntry) :
    (heap.store addr f).entryAt addr = some (f entry) := by
  rw [entryAt, Option.map_eq_some_iff] at hentry
  rcases hentry with ⟨r, hr, rfl⟩
  simp only [entryAt, store, Function.update_self, hr, Option.map_some]

theorem entryAt_store_of_ne {a : EntryAddr} (h : a ≠ addr) (f : HashEntry → HashEntry) :
    (heap.store addr f).entryAt a = heap.entryAt a := by
  simp only [entryAt, store, Function.update_of_ne h]

theorem map_entryAt_store {cells : List EntryAddr} (h : addr ∉ cells) (f : HashEntry → HashEntry) :
    cells.map (heap.store addr f).entryAt = cells.map heap.entryAt := by
  refine List.map_congr_left fun a ha => entryAt_store_of_ne ?_ f
  rintro rfl
  exact h ha

/-- Changing the first entry of a chain that meets a test. -/
theorem Represents.store (h : heap.Represents chains table) (hinv : TableInv table)
    {before after : List EntryAddr} (hchain : chains idx = before ++ addr :: after)
    (hentry : heap.entryAt addr = some entry) {contents : List HashEntry}
    {f : HashEntry → HashEntry}
    (hcontents : contents.map some =
      before.map heap.entryAt ++ some (f entry) :: after.map heap.entryAt) :
    (heap.store addr f).Represents chains
      { table with buckets := Function.update table.buckets idx contents } := by
  have hmem : addr ∈ chains idx := by
    rw [hchain]
    exact List.mem_append_right _ List.mem_cons_self
  refine
    { linked := ?_
      contents := ?_
      given := ?_
      size := h.size }
  · intro idx'
    rw [next_store]
    exact h.linked idx'
  · intro idx'
    by_cases hidx : idx' = idx
    · subst hidx
      -- the address is in its chain once, so the rest of the bucket keeps its contents
      have hnodup := (h.linked idx').nodup
      rw [hchain] at hnodup
      have hbefore : addr ∉ before := fun hb =>
        (List.nodup_append.1 hnodup).2.2 addr hb addr List.mem_cons_self rfl
      have hafter : addr ∉ after := (List.nodup_cons.1 (List.nodup_append.1 hnodup).2.1).1
      dsimp only
      rw [Function.update_self, hchain, List.map_append, List.map_cons,
        map_entryAt_store hbefore, map_entryAt_store hafter, entryAt_store_self hentry, hcontents]
    · have hother : addr ∉ chains idx' := fun hmem' => hidx (h.disjoint hinv hmem' hmem)
      dsimp only
      rw [Function.update_of_ne hidx, map_entryAt_store hother]
      exact h.contents idx'
  · intro a entry' ha
    by_cases haddr : a = addr
    · rw [haddr]
      exact ⟨idx, hmem⟩
    · rw [entryAt_store_of_ne haddr] at ha
      exact h.given a entry' ha

theorem next_link_of_ne {a : EntryAddr} (h : a ≠ addr) (idx : Fin HASH_TABLE_SIZE)
    (entry : HashEntry) : (heap.link idx addr entry).next a = heap.next a := by
  simp only [next, link, Function.update_of_ne h]

theorem entryAt_link_self (heap : MacTableHeap) (idx : Fin HASH_TABLE_SIZE) (addr : EntryAddr)
    (entry : HashEntry) : (heap.link idx addr entry).entryAt addr = some entry := by
  simp only [entryAt, link, Function.update_self, Option.map_some]

theorem entryAt_link_of_ne {a : EntryAddr} (h : a ≠ addr) (idx : Fin HASH_TABLE_SIZE)
    (entry : HashEntry) : (heap.link idx addr entry).entryAt a = heap.entryAt a := by
  simp only [entryAt, link, Function.update_of_ne h]

/-- Putting a new entry at the head of its chain. -/
theorem Represents.link (h : heap.Represents chains table) (hinv : TableInv table)
    (hfresh : heap.entryAt addr = none) (idx : Fin HASH_TABLE_SIZE) (entry : HashEntry) :
    (heap.link idx addr entry).Represents (Function.update chains idx (addr :: chains idx))
      { buckets := Function.update table.buckets idx (entry :: table.buckets idx)
        size := table.size + 1 } := by
  -- no chain has an address that is still to be given out
  have hnew : ∀ idx' a, a ∈ chains idx' → a ≠ addr := by
    rintro idx' a hmem rfl
    rcases h.exists_entry hmem with ⟨entry', hentry', _⟩
    rw [hfresh] at hentry'
    cases hentry'
  -- storing into the new record changes no link and no contents of the old chains
  have hlinked : ∀ idx', Linked (heap.link idx addr entry).next (heap.buckets idx') (chains idx') :=
    fun idx' => (h.linked idx').congr fun a ha => next_link_of_ne (hnew idx' a ha) idx entry
  have hcontents : ∀ idx', (chains idx').map (heap.link idx addr entry).entryAt =
      (table.buckets idx').map some := by
    intro idx'
    rw [← h.contents idx']
    exact List.map_congr_left fun a ha => entryAt_link_of_ne (hnew idx' a ha) idx entry
  refine
    { linked := ?_
      contents := ?_
      given := ?_
      size := ?_ }
  · intro idx'
    by_cases hidx : idx' = idx
    · subst hidx
      -- the new head leads to the record, and the record to the old head
      have hnext : (heap.link idx' addr entry).next addr = heap.buckets idx' := by
        simp only [next, MacTableHeap.link, Function.update_self, Option.bind_some]
      have hhead : (heap.link idx' addr entry).buckets idx' = some addr :=
        Function.update_self _ _ _
      rw [Function.update_self, hhead]
      refine ⟨rfl, ?_⟩
      rw [hnext]
      exact hlinked idx'
    · have hhead : (heap.link idx addr entry).buckets idx' = heap.buckets idx' :=
        Function.update_of_ne hidx _ _
      rw [Function.update_of_ne hidx, hhead]
      exact hlinked idx'
  · intro idx'
    by_cases hidx : idx' = idx
    · subst hidx
      dsimp only
      rw [Function.update_self, Function.update_self, List.map_cons, List.map_cons,
        entryAt_link_self, hcontents]
    · dsimp only
      rw [Function.update_of_ne hidx, Function.update_of_ne hidx]
      exact hcontents idx'
  · intro a entry' ha
    by_cases haddr : a = addr
    · refine ⟨idx, ?_⟩
      rw [haddr, Function.update_self]
      exact List.mem_cons_self
    · rw [entryAt_link_of_ne haddr] at ha
      rcases h.given a entry' ha with ⟨idx', hmem⟩
      refine ⟨idx', ?_⟩
      by_cases hidx : idx' = idx
      · subst hidx
        rw [Function.update_self]
        exact List.mem_cons_of_mem _ hmem
      · rw [Function.update_of_ne hidx]
        exact hmem
  · have hlt := h.size_lt hinv hfresh
    -- `size` counts addresses, and there are fewer of them than words
    have hadd : (heap.size + 1).toNat = heap.size.toNat + 1 := by
      refine BitVec.toNat_add_of_lt ?_
      rw [h.size]
      exact hlt
    exact hadd.trans (congrArg (· + 1) h.size)

/-! ## Calls -/

/-- No entry disappears, and none changes its key or its bucket. -/
structure Kept (heap heap' : MacTableHeap) : Prop where
  chain : ∀ idx, heap.chain idx <:+ heap'.chain idx
  key : ∀ addr entry, heap.entryAt addr = some entry →
    ∃ entry', heap'.entryAt addr = some entry' ∧ entry'.key = entry.key

theorem Kept.refl (heap : MacTableHeap) : heap.Kept heap where
  chain := fun _ => List.suffix_refl _
  key := fun _ entry h => ⟨entry, h, rfl⟩

theorem Kept.trans {heap' heap'' : MacTableHeap} (h : heap.Kept heap') (h' : heap'.Kept heap'') :
    heap.Kept heap'' where
  chain := fun idx => (h.chain idx).trans (h'.chain idx)
  key := by
    intro addr entry hentry
    rcases h.key addr entry hentry with ⟨entry', hentry', hkey⟩
    rcases h'.key addr entry' hentry' with ⟨entry'', hentry'', hkey'⟩
    exact ⟨entry'', hentry'', hkey'.trans hkey⟩

theorem kept_store (heap : MacTableHeap) (addr : EntryAddr) {f : HashEntry → HashEntry}
    (hf : ∀ entry, (f entry).key = entry.key) : heap.Kept (heap.store addr f) where
  chain := by
    intro idx
    -- a store into an entry leaves the links alone
    have hsame : (heap.store addr f).chain idx = heap.chain idx := by
      rw [chain, next_store, chain, MacTableHeap.store]
    rw [hsame]
  key := by
    intro a entry hentry
    by_cases ha : a = addr
    · subst ha
      exact ⟨f entry, entryAt_store_self hentry f, hf entry⟩
    · exact ⟨entry, by rw [entryAt_store_of_ne ha, hentry], rfl⟩

theorem kept_link (h : heap.Represents chains table) (hinv : TableInv table)
    (hfresh : heap.entryAt addr = none) (idx : Fin HASH_TABLE_SIZE) (entry : HashEntry) :
    heap.Kept (heap.link idx addr entry) where
  chain := by
    intro idx'
    rw [h.chain_eq, (h.link hinv hfresh idx entry).chain_eq]
    by_cases hidx : idx' = idx
    · subst hidx
      rw [Function.update_self]
      exact List.suffix_cons addr (chains idx')
    · rw [Function.update_of_ne hidx]
  key := by
    intro a entry' hentry
    have hne : a ≠ addr := by
      rintro rfl
      rw [hfresh] at hentry
      cases hentry
    exact ⟨entry', by rw [entryAt_link_of_ne hne, hentry], rfl⟩

theorem TableInv.insert (h : TableInv table) (call : InsertCall) :
    TableInv (macTableInsert table call.mac call.vlan call.port call.now) where
  keysOnce := MacTable.keysOnce_insert h.keysOnce call.port call.now
  placed := MacTable.placed_insert h.keysOnce h.placed call
  counted := MacTable.counted_insert h.keysOnce h.counted call

/-- A lookup leaves all keys where they are. -/
theorem keys_lookup (h : table.KeysOnce) (mac : Mac) (vlan : UInt16) (now : Nat)
    (idx : Fin HASH_TABLE_SIZE) :
    ((macTableLookup table mac vlan now).2.buckets idx).map HashEntry.key =
      (table.buckets idx).map HashEntry.key := by
  rcases MacTable.lookup_snd_cases h mac vlan now with ⟨hsame, _⟩ | ⟨_, _, _, _, hnew⟩
  · rw [hsame]
  · rw [hnew]
    by_cases hidx : idx = hashMac mac vlan
    · subst hidx
      dsimp only
      rw [Function.update_self, map_key_modifyFirst HashEntry.key_retire]
    · dsimp only
      rw [Function.update_of_ne hidx]

theorem size_lookup (table : MacTable) (mac : Mac) (vlan : UInt16) (now : Nat) :
    (macTableLookup table mac vlan now).2.size = table.size := by
  rw [macTableLookup]
  split
  · split <;> rfl
  · rfl

theorem TableInv.lookup (h : TableInv table) (mac : Mac) (vlan : UInt16) (now : Nat) :
    TableInv (macTableLookup table mac vlan now).2 where
  keysOnce := MacTable.keysOnce_lookup h.keysOnce now
  placed := by
    rw [MacTable.placed_iff_keys]
    simp only [keys_lookup h.keysOnce]
    exact MacTable.placed_iff_keys.1 h.placed
  counted := by
    rw [MacTable.counted_iff_keys, size_lookup]
    simp only [keys_lookup h.keysOnce]
    exact MacTable.counted_iff_keys.1 h.counted

/-- An insertion on the heap is one into the table, and it comes back unless it needs an entry and
gets none. -/
theorem Represents.insert (h : heap.Represents chains table) (hinv : TableInv table)
    (call : InsertCall) {calloc : Option EntryAddr}
    (hfresh : ∀ addr, calloc = some addr → heap.entryAt addr = none) :
    (calloc = none ∧ heap.insert call calloc = some (.error .crash)) ∨
      ∃ heap' chains', heap.insert call calloc = some (.ok heap') ∧
        heap'.Represents chains'
          (macTableInsert table call.mac call.vlan call.port call.now) ∧
        heap.Kept heap' := by
  -- the loop stops at the first entry of the key, valid or not
  rcases walk_eq (HashEntry.Matches call.mac call.vlan) (h.linked call.idx)
    (h.contents call.idx) (h.length_lt call.idx) with
    ⟨hfind, hwalk⟩ | ⟨before, addr, after, entry, hchain, hfind, hentry, hwalk, hmodify⟩
  · cases calloc with
    | none =>
        refine Or.inl ⟨rfl, ?_⟩
        simp only [MacTableHeap.insert, hwalk, Option.map_some, Except.bind]
    | some addr =>
        have hnew := hfresh addr rfl
        have hfind' : (table.buckets (hashMac call.mac call.vlan)).find?
            (HashEntry.Matches call.mac call.vlan) = none := hfind
        have hinsert : macTableInsert table call.mac call.vlan call.port call.now =
            { buckets := Function.update table.buckets call.idx
                (call.entry :: table.buckets call.idx)
              size := table.size + 1 } := by
          simp only [macTableInsert, hfind']
          rfl
        rw [hinsert]
        refine Or.inr ⟨heap.link call.idx addr call.entry, _, ?_,
          h.link hinv hnew call.idx call.entry, kept_link h hinv hnew call.idx call.entry⟩
        simp only [MacTableHeap.insert, hwalk, Option.map_some, Except.bind]
  · refine Or.inr ⟨heap.store addr (HashEntry.refresh call.port call.now), chains, ?_, ?_, ?_⟩
    · simp only [MacTableHeap.insert, hwalk, Option.map_some, Except.bind]
    · have hinsert : macTableInsert table call.mac call.vlan call.port call.now =
          { table with
            buckets := Function.update table.buckets call.idx
              (modifyFirst (HashEntry.Matches call.mac call.vlan)
                (HashEntry.refresh call.port call.now) (table.buckets call.idx)) } := by
        have hfind' : (table.buckets (hashMac call.mac call.vlan)).find?
            (HashEntry.Matches call.mac call.vlan) = some entry := hfind
        simp only [macTableInsert, hfind']
        rfl
      rw [hinsert]
      exact h.store hinv hchain hentry (hmodify _)
    · exact kept_store heap addr (HashEntry.key_refresh call.port call.now)

/-- A lookup on the heap is one in the table. -/
theorem Represents.lookup (h : heap.Represents chains table) (hinv : TableInv table) (mac : Mac)
    (vlan : UInt16) (now : Nat) :
    ∃ heap', heap.lookup mac vlan now =
        some (.ok ((macTableLookup table mac vlan now).1, heap')) ∧
      heap'.Represents chains (macTableLookup table mac vlan now).2 ∧ heap.Kept heap' := by
  -- the loop passes over the entries that are not valid
  rcases walk_eq (fun entry => entry.Matches mac vlan && entry.valid)
    (h.linked (hashMac mac vlan)) (h.contents (hashMac mac vlan))
    (h.length_lt (hashMac mac vlan)) with
    ⟨hfind, hwalk⟩ | ⟨before, addr, after, entry, hchain, hfind, hentry, hwalk, hmodify⟩
  · have hlookup : macTableLookup table mac vlan now = (-1, table) := by
      simp only [macTableLookup, hfind]
    rw [hlookup]
    refine ⟨heap, ?_, h, Kept.refl heap⟩
    simp only [MacTableHeap.lookup, hwalk, Option.map_some, Except.bind]
  · have hrecord : ∃ r, heap.record addr = some r ∧ r.entry = entry := by
      simpa only [entryAt, Option.map_eq_some_iff] using hentry
    rcases hrecord with ⟨r, hr, rfl⟩
    -- an entry that is too old is retired at once, and stays in its chain
    by_cases hlate : now - r.entry.last_seen > ENTRY_TTL
    · have hlookup : macTableLookup table mac vlan now =
          (-1, { table with
            buckets := Function.update table.buckets (hashMac mac vlan)
              (modifyFirst (fun entry => entry.Matches mac vlan && entry.valid) HashEntry.retire
                (table.buckets (hashMac mac vlan))) }) := by
        simp only [macTableLookup, hfind, if_pos hlate]
      rw [hlookup]
      refine ⟨heap.store addr HashEntry.retire, ?_, ?_, ?_⟩
      · simp only [MacTableHeap.lookup, hwalk, Option.map_some, Except.bind, hr, if_pos hlate]
      · exact h.store hinv hchain hentry (hmodify _)
      · exact kept_store heap addr HashEntry.key_retire
    · have hlookup : macTableLookup table mac vlan now = (r.entry.port, table) := by
        simp only [macTableLookup, hfind, if_neg hlate]
      rw [hlookup]
      refine ⟨heap, ?_, h, Kept.refl heap⟩
      simp only [MacTableHeap.lookup, hwalk, Option.map_some, Except.bind, hr, if_neg hlate]

end Representation

/-! ## Runs -/

inductive MacCall
  | insert (call : InsertCall) (calloc : Option EntryAddr)
  | lookup (mac : Mac) (vlan : UInt16) (now : Nat)
  deriving DecidableEq

/-- Calls one at a time.  No call follows one that ends the process, and `calloc` does not give out
an entry twice. -/
def macTables : Machine MacTableHeap MacCall where
  step table
    | .insert call calloc =>
        -- `calloc` gives out memory that is not in use
        if calloc.all fun addr => (table.record addr).isNone then
          match table.insert call calloc with
          | some (.ok table) => some table
          | _ => none
        else
          none
    | .lookup mac vlan now =>
        match table.lookup mac vlan now with
        | some (.ok (_, table)) => some table
        | _ => none

/-- The heap represents a table whose invariant holds. -/
def Valid (heap : MacTableHeap) : Prop :=
  ∃ chains table, heap.Represents chains table ∧ TableInv table

variable {heap heap' : MacTableHeap}

theorem valid_create : create.Valid :=
  ⟨_, _, represents_create, tableInv_create⟩

theorem entryAt_eq_none_of_record {addr : EntryAddr} (h : heap.record addr = none) :
    heap.entryAt addr = none := by
  rw [entryAt, h, Option.map_none]

theorem Valid.step (h : heap.Valid) {a : MacCall} (hstep : macTables.step heap a = some heap') :
    heap'.Valid ∧ heap.Kept heap' := by
  rcases h with ⟨chains, table, hrep, hinv⟩
  cases a with
  | insert call calloc =>
      simp only [macTables] at hstep
      split at hstep
      · rename_i hcalloc
        have hfresh : ∀ addr, calloc = some addr → heap.entryAt addr = none := by
          rintro addr rfl
          exact entryAt_eq_none_of_record (by simpa using hcalloc)
        rcases hrep.insert hinv call hfresh with
          ⟨_, hcrash⟩ | ⟨next, chains', hinsert, hrep', hkept⟩
        · rw [hcrash] at hstep
          cases hstep
        · rw [hinsert] at hstep
          cases hstep
          exact ⟨⟨chains', _, hrep', hinv.insert call⟩, hkept⟩
      · cases hstep
  | lookup mac vlan now =>
      rcases hrep.lookup hinv mac vlan now with ⟨next, hlookup, hrep', hkept⟩
      simp only [macTables, hlookup, Option.some.injEq] at hstep
      subst hstep
      exact ⟨⟨chains, _, hrep', hinv.lookup mac vlan now⟩, hkept⟩

theorem Valid.run (h : heap.Valid) {calls : List MacCall}
    (hrun : macTables.run heap calls = some heap') : heap'.Valid ∧ heap.Kept heap' := by
  refine Machine.invariant_run (fun t => t.Valid ∧ heap.Kept t) ?_ ⟨h, Kept.refl heap⟩ hrun
  rintro s a t ⟨hs, hkept⟩ hstep
  rcases hs.step hstep with ⟨ht, hnext⟩
  exact ⟨ht, hkept.trans hnext⟩

/-- Two entries of one key are the same. -/
theorem Represents.addr_eq {chains : Fin HASH_TABLE_SIZE → List EntryAddr} {table : MacTable}
    (h : heap.Represents chains table) (hinv : TableInv table) {addr addr' : EntryAddr}
    {entry entry' : HashEntry} (hentry : heap.entryAt addr = some entry)
    (hentry' : heap.entryAt addr' = some entry') (hkey : entry.key = entry'.key) : addr = addr' := by
  rcases h.given addr entry hentry with ⟨idx, hmem⟩
  rcases h.given addr' entry' hentry' with ⟨idx', hmem'⟩
  -- one key has one bucket
  have hidx : idx = idx' := by
    rw [← h.idx_eq hinv hmem hentry, ← h.idx_eq hinv hmem' hentry']
    rcases Prod.mk.inj hkey with ⟨hmac, hvlan⟩
    rw [HashEntry.idx, HashEntry.idx, hmac, hvlan]
  subst hidx
  have hkeys : (chains idx).map (fun a => (heap.entryAt a).map HashEntry.key) =
      ((table.buckets idx).map HashEntry.key).map some := by
    have hcontents := congrArg (List.map (Option.map HashEntry.key)) (h.contents idx)
    rw [List.map_map, List.map_map] at hcontents
    rw [List.map_map]
    exact hcontents
  -- and in a bucket no key is there twice
  have hnodup : ((chains idx).map fun a => (heap.entryAt a).map HashEntry.key).Nodup := by
    rw [hkeys]
    exact (hinv.keysOnce idx).map (Option.some_injective _)
  refine List.inj_on_of_nodup_map hnodup hmem hmem' ?_
  rw [hentry, hentry', Option.map_some, Option.map_some, hkey]

/-- The structure of the table in every state that calls lead to: chains end, entries are in the
buckets of their keys and nowhere else, no key has two, none disappears, and `size` is their number.
A call comes back if it is given the memory that it needs. -/
theorem macTable_structure {calls : List MacCall} (h : macTables.run create calls = some heap) :
    (∀ idx, Linked heap.next (heap.buckets idx) (heap.chain idx)) ∧
      (∀ idx, ∀ addr ∈ heap.chain idx, ∃ entry, heap.entryAt addr = some entry ∧
        hashMac entry.mac entry.vlan = idx) ∧
      (∀ addr entry, heap.entryAt addr = some entry →
        addr ∈ heap.chain (hashMac entry.mac entry.vlan)) ∧
      (∀ addr addr' entry entry', heap.entryAt addr = some entry →
        heap.entryAt addr' = some entry' → entry.key = entry'.key → addr = addr') ∧
      (∀ calls' heap', macTables.run heap calls' = some heap' → heap.Kept heap') ∧
      heap.size.toNat = ∑ idx, (heap.chain idx).length ∧
      (∀ call addr, heap.record addr = none →
        ∃ heap', heap.insert call (some addr) = some (.ok heap')) ∧
      ∀ mac vlan now, ∃ r, heap.lookup mac vlan now = some (.ok r) := by
  have hvalid := (valid_create.run h).1
  rcases hvalid with ⟨chains, table, hrep, hinv⟩
  refine ⟨?_, ?_, ?_, ?_, ?_, ?_, ?_, ?_⟩
  · intro idx
    rw [hrep.chain_eq]
    exact hrep.linked idx
  · intro idx addr hmem
    rw [hrep.chain_eq] at hmem
    rcases hrep.exists_entry hmem with ⟨entry, hentry, _⟩
    exact ⟨entry, hentry, hrep.idx_eq hinv hmem hentry⟩
  · intro addr entry hentry
    rcases hrep.given addr entry hentry with ⟨idx, hmem⟩
    have hidx : hashMac entry.mac entry.vlan = idx := hrep.idx_eq hinv hmem hentry
    rw [hrep.chain_eq, hidx]
    exact hmem
  · intro addr addr' entry entry' hentry hentry' hkey
    exact hrep.addr_eq hinv hentry hentry' hkey
  · intro calls' heap' hrun
    exact (Valid.run ⟨chains, table, hrep, hinv⟩ hrun).2
  · rw [hrep.size, hinv.counted]
    simp only [hrep.chain_eq, hrep.length_eq]
  · intro call addr hfresh
    have hnew : ∀ a, some addr = some a → heap.entryAt a = none := by
      intro a ha
      cases ha
      exact entryAt_eq_none_of_record hfresh
    rcases hrep.insert hinv call hnew with ⟨hnone, _⟩ | ⟨heap', _, hinsert, _⟩
    · cases hnone
    · exact ⟨heap', hinsert⟩
  · intro mac vlan now
    rcases hrep.lookup hinv mac vlan now with ⟨heap', hlookup, _⟩
    exact ⟨_, hlookup⟩

/-- An address that is learned, expires and is heard again. -/
theorem macTable_structure_learned :
    let mac : Mac := Vector.replicate MAC_SIZE 1
    let first : InsertCall := { mac := mac, vlan := 0, port := 1, now := 0 }
    let again : InsertCall := { mac := mac, vlan := 0, port := 2, now := 400 }
    let addr : EntryAddr := ⟨64, by decide⟩
    let calls : List MacCall :=
      [.insert first (some addr), .lookup mac 0 400, .insert again none]
    ∃ heap, macTables.run create calls = some heap ∧
      heap.size.toNat = ∑ idx, (heap.chain idx).length := by
  intro mac first again addr calls
  have hruns : (macTables.run create calls).isSome = true := by decide +kernel
  rcases Option.isSome_iff_exists.1 hruns with ⟨heap, hrun⟩
  exact ⟨heap, hrun, (macTable_structure hrun).2.2.2.2.2.1⟩

end MacTableHeap

end ControlPlane
end EVdeSwitch
