import Mathlib.Data.Nat.Bitwise
import EVdeSwitch.Lib.Chain

/-!
# HashTable — the MAC address table

`mac_table_insert` and `mac_table_lookup` of `src/control_plane/hash_table.c`, executed one at a
time.  A bucket is the list of its chain, from the head on.  Times are what `time(NULL)` returns,
in seconds; a difference of two times is taken in the natural numbers, where it is above
`ENTRY_TTL` exactly when the signed difference of the source is.
-/

namespace EVdeSwitch
namespace ControlPlane

open EVdeSwitch.Lib

/-! ## `hash_table.h` -/

def HASH_TABLE_SIZE : Nat := 4096

def HASH_TABLE_MASK : UInt32 := 4095

def MAC_SIZE : Nat := 6

/-- Five minutes, in seconds. -/
def ENTRY_TTL : Nat := 300

abbrev Mac : Type := Vector UInt8 MAC_SIZE

/-- `hash_entry_t`; the link `next` is the order of the chain. -/
structure HashEntry where
  mac : Mac
  vlan : UInt16
  port : Int
  last_seen : Nat
  valid : Bool
  deriving DecidableEq, Repr

/-- `mac_table_t` -/
structure MacTable where
  buckets : Fin HASH_TABLE_SIZE → List HashEntry
  size : Nat

/-! ## `hash_table.c` -/

/-- The FNV-1a hash of the address, with the two bytes of the VLAN mixed in without a product. -/
def hashMac (mac : Mac) (vlan : UInt16) : Fin HASH_TABLE_SIZE :=
  let hash : UInt32 := mac.toList.foldl (fun hash b => (hash ^^^ b.toUInt32) * 16777619) 2166136261
  let hash := hash ^^^ (vlan &&& 0xFF).toUInt32
  let hash := hash ^^^ ((vlan >>> 8) &&& 0xFF).toUInt32
  ⟨(hash &&& HASH_TABLE_MASK).toNat, by
    rw [UInt32.toNat_and]
    exact Nat.lt_succ_of_le Nat.and_le_right⟩

def macTableCreate : MacTable :=
  { buckets := fun _ => []
    size := 0 }

abbrev MacKey : Type := Mac × UInt16

namespace HashEntry

def key (entry : HashEntry) : MacKey :=
  (entry.mac, entry.vlan)

/-- The test of `mac_table_insert`, on the address and the VLAN only. -/
def Matches (mac : Mac) (vlan : UInt16) (entry : HashEntry) : Bool :=
  entry.mac = mac && entry.vlan = vlan

/-- The two stores that `mac_table_insert` makes into an entry it finds. -/
def refresh (port : Int) (now : Nat) (entry : HashEntry) : HashEntry :=
  { entry with port := port, last_seen := now }

/-- The store that `mac_table_lookup` makes into an entry that is too old. -/
def retire (entry : HashEntry) : HashEntry :=
  { entry with valid := false }

@[simp] theorem key_refresh (port : Int) (now : Nat) (entry : HashEntry) :
    (entry.refresh port now).key = entry.key := rfl

@[simp] theorem key_retire (entry : HashEntry) : entry.retire.key = entry.key := rfl

theorem key_of_matches {mac : Mac} {vlan : UInt16} (entry : HashEntry)
    (h : entry.Matches mac vlan = true) : entry.key = (mac, vlan) := by
  simpa [Matches, key] using h

end HashEntry

/-- The result, which is always `true`, is left out. -/
def macTableInsert (table : MacTable) (mac : Mac) (vlan : UInt16) (port : Int) (now : Nat) :
    MacTable :=
  let idx := hashMac mac vlan
  let chain := table.buckets idx
  match chain.find? (HashEntry.Matches mac vlan) with
  | some _ =>
      -- Existing entry: `valid` stays what it was
      let chain := modifyFirst (HashEntry.Matches mac vlan) (HashEntry.refresh port now) chain
      { table with buckets := Function.update table.buckets idx chain }
  | none =>
      -- Create new entry, and insert it at the head of the chain
      let entry : HashEntry :=
        { mac := mac
          vlan := vlan
          port := port
          last_seen := now
          valid := true }
      { buckets := Function.update table.buckets idx (entry :: chain)
        size := table.size + 1 }

/-- The port, or -1; a lookup that comes too late clears the flag of the entry. -/
def macTableLookup (table : MacTable) (mac : Mac) (vlan : UInt16) (now : Nat) : Int × MacTable :=
  let idx := hashMac mac vlan
  let chain := table.buckets idx
  match chain.find? (fun entry => entry.Matches mac vlan && entry.valid) with
  | some entry =>
      -- Entry expired
      if now - entry.last_seen > ENTRY_TTL then
        let chain := modifyFirst (fun entry => entry.Matches mac vlan && entry.valid)
          HashEntry.retire chain
        (-1, { table with buckets := Function.update table.buckets idx chain })
      else
        (entry.port, table)
  | none => (-1, table)

namespace MacTable

/-! ## The entry of a key -/

/-- No bucket holds two entries for one key. -/
def KeysOnce (table : MacTable) : Prop :=
  ∀ idx, ((table.buckets idx).map HashEntry.key).Nodup

/-- The entry for a key, expired or not. -/
def entryAt (table : MacTable) (k : MacKey) : Option HashEntry :=
  findKey HashEntry.key k (table.buckets (hashMac k.1 k.2))

/-- The entry still answers at time `now`. -/
def Live (entry : HashEntry) (now : Nat) : Prop :=
  entry.valid = true ∧ now - entry.last_seen ≤ ENTRY_TTL

instance (entry : HashEntry) (now : Nat) : Decidable (Live entry now) :=
  inferInstanceAs (Decidable (_ ∧ _))

variable {table : MacTable} {mac : Mac} {vlan : UInt16}

theorem keysOnce_create : KeysOnce macTableCreate := by
  intro idx
  exact List.nodup_nil

@[simp] theorem entryAt_create (k : MacKey) : macTableCreate.entryAt k = none := rfl

theorem key_of_entryAt {k : MacKey} {entry : HashEntry} (h : table.entryAt k = some entry) :
    entry.key = k :=
  key_of_findKey h

/-- Replacing one chain. -/
theorem KeysOnce.update (h : table.KeysOnce) {idx : Fin HASH_TABLE_SIZE} {chain : List HashEntry}
    (hchain : (chain.map HashEntry.key).Nodup) (size : Nat) :
    KeysOnce { buckets := Function.update table.buckets idx chain, size := size } := by
  intro idx'
  by_cases hidx : idx' = idx
  · -- the new chain
    subst hidx
    simpa using hchain
  · simpa [hidx] using h idx'

theorem entryAt_update_self (chain : List HashEntry) (size : Nat) :
    entryAt { buckets := Function.update table.buckets (hashMac mac vlan) chain, size := size }
      (mac, vlan) = findKey HashEntry.key (mac, vlan) chain := by
  simp [entryAt]

/-- Where a chain is replaced, only the keys that the two chains answer differently see it. -/
theorem entryAt_update_of_eq {idx : Fin HASH_TABLE_SIZE} {chain : List HashEntry} {k : MacKey}
    (hchain : findKey HashEntry.key k chain = findKey HashEntry.key k (table.buckets idx))
    (size : Nat) :
    entryAt { buckets := Function.update table.buckets idx chain, size := size } k =
      table.entryAt k := by
  by_cases hidx : hashMac k.1 k.2 = idx
  · simp [entryAt, hidx, hchain]
  · simp [entryAt, hidx]

theorem find?_matches (h : table.KeysOnce) :
    (table.buckets (hashMac mac vlan)).find? (HashEntry.Matches mac vlan) =
      table.entryAt (mac, vlan) := by
  rw [find?_eq_filter_findKey HashEntry.key_of_matches (h _)]
  cases hentry : table.entryAt (mac, vlan) with
  | none => rw [entryAt] at hentry; rw [hentry]; rfl
  | some entry =>
      have hkey : entry.Matches mac vlan = true := by
        simpa [HashEntry.Matches, HashEntry.key] using key_of_entryAt hentry
      rw [entryAt] at hentry
      simp [hentry, hkey]

theorem key_of_matches_valid (entry : HashEntry)
    (h : (entry.Matches mac vlan && entry.valid) = true) : entry.key = (mac, vlan) :=
  entry.key_of_matches (Bool.and_eq_true_iff.1 h).1

theorem find?_matches_valid (h : table.KeysOnce) :
    (table.buckets (hashMac mac vlan)).find? (fun entry => entry.Matches mac vlan && entry.valid) =
      (table.entryAt (mac, vlan)).filter HashEntry.valid := by
  rw [find?_eq_filter_findKey key_of_matches_valid (h _)]
  cases hentry : table.entryAt (mac, vlan) with
  | none => rw [entryAt] at hentry; rw [hentry]; rfl
  | some entry =>
      have hkey : entry.Matches mac vlan = true := by
        simpa [HashEntry.Matches, HashEntry.key] using key_of_entryAt hentry
      rw [entryAt] at hentry
      simp [hentry, Option.filter, hkey]

/-! ## What an insertion does -/

theorem insert_of_entryAt_none (h : table.KeysOnce) (hnone : table.entryAt (mac, vlan) = none)
    (port : Int) (now : Nat) :
    macTableInsert table mac vlan port now =
      { buckets := Function.update table.buckets (hashMac mac vlan)
          ({ mac := mac, vlan := vlan, port := port, last_seen := now, valid := true } ::
            table.buckets (hashMac mac vlan))
        size := table.size + 1 } := by
  simp [macTableInsert, find?_matches h, hnone]

theorem insert_of_entryAt_some (h : table.KeysOnce) {entry : HashEntry}
    (hsome : table.entryAt (mac, vlan) = some entry) (port : Int) (now : Nat) :
    macTableInsert table mac vlan port now =
      { table with
        buckets := Function.update table.buckets (hashMac mac vlan)
          (modifyFirst (HashEntry.Matches mac vlan) (HashEntry.refresh port now)
            (table.buckets (hashMac mac vlan))) } := by
  simp [macTableInsert, find?_matches h, hsome]

theorem keysOnce_insert (h : table.KeysOnce) (port : Int) (now : Nat) :
    (macTableInsert table mac vlan port now).KeysOnce := by
  cases hentry : table.entryAt (mac, vlan) with
  | none =>
      rw [insert_of_entryAt_none h hentry]
      refine h.update ?_ _
      rw [List.map_cons, List.nodup_cons]
      -- the new entry is under a key that the chain does not have
      exact ⟨findKey_eq_none.1 hentry, h _⟩
  | some entry =>
      rw [insert_of_entryAt_some h hentry]
      refine h.update ?_ _
      -- the keys of the chain stay as they are
      rw [map_key_modifyFirst (HashEntry.key_refresh port now)]
      exact h _

/-- An insertion refreshes the port and the time of an entry, but not its flag. -/
theorem entryAt_insert_self (h : table.KeysOnce) (port : Int) (now : Nat) :
    (macTableInsert table mac vlan port now).entryAt (mac, vlan) = some
      { mac := mac
        vlan := vlan
        port := port
        last_seen := now
        valid := (table.entryAt (mac, vlan)).all HashEntry.valid } := by
  cases hentry : table.entryAt (mac, vlan) with
  | none =>
      rw [insert_of_entryAt_none h hentry, entryAt_update_self]
      exact findKey_cons_of_eq rfl
  | some entry =>
      have hkey := key_of_entryAt hentry
      have hfind := (find?_matches h).trans hentry
      rw [insert_of_entryAt_some h hentry, entryAt_update_self,
        findKey_modifyFirst_self HashEntry.key_of_matches (HashEntry.key_refresh port now) (h _)
          hfind]
      cases hkey
      rfl

theorem entryAt_insert_of_ne (h : table.KeysOnce) {k : MacKey} (hne : k ≠ (mac, vlan))
    (port : Int) (now : Nat) :
    (macTableInsert table mac vlan port now).entryAt k = table.entryAt k := by
  cases hentry : table.entryAt (mac, vlan) with
  | none =>
      rw [insert_of_entryAt_none h hentry]
      refine entryAt_update_of_eq (findKey_cons_of_ne ?_) _
      exact hne.symm
  | some entry =>
      rw [insert_of_entryAt_some h hentry]
      exact entryAt_update_of_eq
        (findKey_modifyFirst_of_ne HashEntry.key_of_matches (HashEntry.key_refresh port now) hne
          _) _

/-! ## What a lookup does -/

/-- The answer of a lookup is decided by the entry of its key. -/
theorem lookup_fst (h : table.KeysOnce) (now : Nat) :
    (macTableLookup table mac vlan now).1 =
      match table.entryAt (mac, vlan) with
      | some entry => if Live entry now then entry.port else -1
      | none => -1 := by
  simp only [macTableLookup, find?_matches_valid h]
  cases hentry : table.entryAt (mac, vlan) with
  | none => rfl
  | some entry =>
      cases hvalid : entry.valid with
      -- an entry without the flag is skipped by the search
      | false => simp [Option.filter, hvalid, Live]
      | true =>
          by_cases hlate : now - entry.last_seen > ENTRY_TTL
          · have hnot : ¬now - entry.last_seen ≤ ENTRY_TTL := Nat.not_le.2 hlate
            simp only [Option.filter, hvalid, if_true, hlate, Live, hnot, and_false, if_false]
          · have hle : now - entry.last_seen ≤ ENTRY_TTL := Nat.not_lt.1 hlate
            simp only [Option.filter, hvalid, if_true, hlate, Live, hle, and_self, if_false]

/-- A lookup leaves the table alone, or it retires the entry of its key. -/
theorem lookup_snd_cases (h : table.KeysOnce) (mac : Mac) (vlan : UInt16) (now : Nat) :
    (macTableLookup table mac vlan now).2 = table ∧
        (∀ entry, table.entryAt (mac, vlan) = some entry → entry.valid = true →
          now - entry.last_seen ≤ ENTRY_TTL) ∨
      ∃ entry, table.entryAt (mac, vlan) = some entry ∧ entry.valid = true ∧
        now - entry.last_seen > ENTRY_TTL ∧
        (macTableLookup table mac vlan now).2 =
          { table with
            buckets := Function.update table.buckets (hashMac mac vlan)
              (modifyFirst (fun entry => entry.Matches mac vlan && entry.valid)
                HashEntry.retire (table.buckets (hashMac mac vlan))) } := by
  simp only [macTableLookup, find?_matches_valid h]
  cases hentry : table.entryAt (mac, vlan) with
  | none => exact Or.inl ⟨rfl, by simp⟩
  | some entry =>
      cases hvalid : entry.valid with
      | false => exact Or.inl ⟨by simp [Option.filter, hvalid], by simp [hvalid]⟩
      | true =>
          by_cases hlate : now - entry.last_seen > ENTRY_TTL
          · exact Or.inr ⟨entry, rfl, hvalid, hlate, by simp [Option.filter, hvalid, hlate]⟩
          · refine Or.inl ⟨by simp [Option.filter, hvalid, hlate], ?_⟩
            intro entry' heq _
            cases heq
            exact Nat.not_lt.1 hlate

theorem keysOnce_lookup (h : table.KeysOnce) (now : Nat) :
    (macTableLookup table mac vlan now).2.KeysOnce := by
  rcases lookup_snd_cases h mac vlan now with ⟨hsame, _⟩ | ⟨_, _, _, _, hnew⟩
  · rw [hsame]
    exact h
  · rw [hnew]
    refine h.update ?_ _
    rw [map_key_modifyFirst HashEntry.key_retire]
    exact h _

/-- A lookup that comes too late clears the flag of its entry; the port and the time stay. -/
theorem entryAt_lookup_self (h : table.KeysOnce) (now : Nat) :
    (macTableLookup table mac vlan now).2.entryAt (mac, vlan) =
      (table.entryAt (mac, vlan)).map fun entry =>
        { entry with valid := decide (Live entry now) } := by
  rcases lookup_snd_cases h mac vlan now with ⟨hsame, htimely⟩ | ⟨entry, hentry, hvalid, hlate, hnew⟩
  · rw [hsame]
    cases hentry : table.entryAt (mac, vlan) with
    | none => rfl
    | some entry =>
        -- the flag is right already: it is clear, or the lookup is in time
        have hflag : entry.valid = decide (Live entry now) := by
          cases hvalid : entry.valid with
          | false => simp [Live, hvalid]
          | true =>
              have hle := htimely entry hentry hvalid
              simp [Live, hvalid, hle]
        rw [Option.map_some, ← hflag]
  · have hfind : (table.buckets (hashMac mac vlan)).find?
        (fun entry => entry.Matches mac vlan && entry.valid) = some entry := by
      rw [find?_matches_valid h, hentry]
      simp [Option.filter, hvalid]
    have hnot : ¬Live entry now := fun hlive => Nat.not_le.2 hlate hlive.2
    rw [hnew, entryAt_update_self,
      findKey_modifyFirst_self key_of_matches_valid HashEntry.key_retire (h _) hfind, hentry]
    simp [HashEntry.retire, hnot]

theorem entryAt_lookup_of_ne (h : table.KeysOnce) {k : MacKey} (hne : k ≠ (mac, vlan))
    (now : Nat) : (macTableLookup table mac vlan now).2.entryAt k = table.entryAt k := by
  rcases lookup_snd_cases h mac vlan now with ⟨hsame, _⟩ | ⟨_, _, _, _, hnew⟩
  · rw [hsame]
  · rw [hnew]
    exact entryAt_update_of_eq
      (findKey_modifyFirst_of_ne key_of_matches_valid HashEntry.key_retire hne _) _

end MacTable

end ControlPlane
end EVdeSwitch
