import EVdeSwitch.ControlPlane.HashTable
import EVdeSwitch.Lib.Parties

/-!
# SerialInserts — insertions one at a time

What a sequence of calls of `mac_table_insert` makes of a table.  The order of the calls decides
two things only: the first call for a key decides where in its chain the entry stands, and the
last one decides what the entry says.
-/

namespace EVdeSwitch
namespace ControlPlane

open EVdeSwitch.Lib

/-- A call of `mac_table_insert`, with what its `time(NULL)` returns. -/
structure InsertCall where
  mac : Mac
  vlan : UInt16
  port : Int
  now : Nat
  deriving DecidableEq, Repr

namespace InsertCall

def key (call : InsertCall) : MacKey :=
  (call.mac, call.vlan)

def idx (call : InsertCall) : Fin HASH_TABLE_SIZE :=
  hashMac call.mac call.vlan

/-- The entry that the call creates if it finds none. -/
def entry (call : InsertCall) : HashEntry :=
  { mac := call.mac
    vlan := call.vlan
    port := call.port
    last_seen := call.now
    valid := true }

end InsertCall

namespace HashEntry

def idx (entry : HashEntry) : Fin HASH_TABLE_SIZE :=
  hashMac entry.mac entry.vlan

end HashEntry

namespace MacTable

/-- The entries stand in the buckets of their keys. -/
def Placed (table : MacTable) : Prop :=
  ∀ idx, ∀ entry ∈ table.buckets idx, entry.idx = idx

/-- The counter is right. -/
def Counted (table : MacTable) : Prop :=
  table.size = ∑ idx, (table.buckets idx).length

/-- The table after some calls, the newest of which is the first of the list. -/
def insertAll (table : MacTable) (calls : List InsertCall) : MacTable :=
  calls.foldr (fun call t => macTableInsert t call.mac call.vlan call.port call.now) table

variable {table : MacTable} {call : InsertCall} {calls calls' : List InsertCall}

@[simp] theorem insertAll_nil (table : MacTable) : table.insertAll [] = table := rfl

@[simp] theorem insertAll_cons (table : MacTable) (call : InsertCall) (calls : List InsertCall) :
    table.insertAll (call :: calls) =
      macTableInsert (table.insertAll calls) call.mac call.vlan call.port call.now := rfl

theorem placed_create : Placed macTableCreate := by
  intro idx entry h
  cases h

theorem counted_create : Counted macTableCreate := by
  simp [Counted, macTableCreate]

theorem keysOnce_insertAll (h : table.KeysOnce) (calls : List InsertCall) :
    (table.insertAll calls).KeysOnce := by
  induction calls with
  | nil => exact h
  | cons call calls ih => exact keysOnce_insert ih _ _

/-! ## The entry of a key -/

/-- The newest call for a key decides what its entry says. -/
theorem entryAt_insertAll (h : table.KeysOnce) (calls : List InsertCall) (k : MacKey) :
    (table.insertAll calls).entryAt k =
      match findKey InsertCall.key k calls with
      | none => table.entryAt k
      | some call => some
          { call.entry with valid := (table.entryAt k).all HashEntry.valid } := by
  induction calls with
  | nil => rfl
  | cons call calls ih =>
      have hkeys := keysOnce_insertAll h calls
      by_cases hk : k = call.key
      · subst hk
        rw [insertAll_cons, findKey_cons_of_eq rfl, InsertCall.key, entryAt_insert_self hkeys]
        have hvalid : ((table.insertAll calls).entryAt call.key).all HashEntry.valid =
            (table.entryAt call.key).all HashEntry.valid := by
          rw [ih]
          cases findKey InsertCall.key call.key calls <;> rfl
        rw [InsertCall.key] at hvalid
        rw [hvalid]
        rfl
      · have hne : k ≠ (call.mac, call.vlan) := hk
        rw [insertAll_cons, entryAt_insert_of_ne hkeys hne, findKey_cons_of_ne (Ne.symm hk), ih]

/-! ## The chains -/

theorem entryAt_eq_none_iff {k : MacKey} :
    table.entryAt k = none ↔ k ∉ (table.buckets (hashMac k.1 k.2)).map HashEntry.key :=
  findKey_eq_none

/-- A call leaves an entry in its bucket. -/
theorem key_mem_insertAll (h : table.KeysOnce) (hcall : call ∈ calls) :
    call.key ∈ ((table.insertAll calls).buckets call.idx).map HashEntry.key := by
  have hentry := entryAt_insertAll h calls call.key
  cases hfind : findKey InsertCall.key call.key calls with
  | none => exact absurd (List.mem_map_of_mem hcall) (findKey_eq_none.1 hfind)
  | some newest =>
      rw [hfind] at hentry
      by_contra habsent
      have hnone : (table.insertAll calls).entryAt call.key = none := findKey_eq_none.2 habsent
      exact Option.some_ne_none _ (hentry.symm.trans hnone)

/-- A call for a key that has no entry puts one at the head of its chain. -/
theorem keys_insert_of_entryAt_none (h : table.KeysOnce) (hnone : table.entryAt call.key = none)
    (idx : Fin HASH_TABLE_SIZE) :
    ((macTableInsert table call.mac call.vlan call.port call.now).buckets idx).map HashEntry.key =
      if idx = call.idx then call.key :: (table.buckets idx).map HashEntry.key
      else (table.buckets idx).map HashEntry.key := by
  rw [insert_of_entryAt_none h hnone]
  by_cases hidx : idx = call.idx
  · subst hidx
    rw [if_pos rfl]
    simp [InsertCall.idx, InsertCall.key, HashEntry.key]
  · have hne : idx ≠ hashMac call.mac call.vlan := hidx
    rw [if_neg hidx]
    exact congrArg (List.map HashEntry.key) (Function.update_of_ne hne _ _)

/-- A call for a key that has an entry leaves the chains as they are. -/
theorem keys_insert_of_entryAt_some (h : table.KeysOnce) {entry : HashEntry}
    (hsome : table.entryAt call.key = some entry) (idx : Fin HASH_TABLE_SIZE) :
    ((macTableInsert table call.mac call.vlan call.port call.now).buckets idx).map HashEntry.key =
      (table.buckets idx).map HashEntry.key := by
  rw [insert_of_entryAt_some h hsome]
  by_cases hidx : idx = hashMac call.mac call.vlan
  · subst hidx
    simp [map_key_modifyFirst (HashEntry.key_refresh call.port call.now)]
  · simp [hidx]

theorem size_insert_of_entryAt_none (h : table.KeysOnce) (hnone : table.entryAt call.key = none) :
    (macTableInsert table call.mac call.vlan call.port call.now).size = table.size + 1 := by
  rw [insert_of_entryAt_none h hnone]

theorem size_insert_of_entryAt_some (h : table.KeysOnce) {entry : HashEntry}
    (hsome : table.entryAt call.key = some entry) :
    (macTableInsert table call.mac call.vlan call.port call.now).size = table.size := by
  rw [insert_of_entryAt_some h hsome]

/-- Where the keys of the calls come in the same order, so do those of the chains. -/
theorem keys_insertAll_congr (h : table.KeysOnce)
    (hcalls : calls.map InsertCall.key = calls'.map InsertCall.key) :
    (∀ idx, ((table.insertAll calls).buckets idx).map HashEntry.key =
        ((table.insertAll calls').buckets idx).map HashEntry.key) ∧
      (table.insertAll calls).size = (table.insertAll calls').size := by
  induction calls generalizing calls' with
  | nil =>
      rw [List.map_nil, eq_comm, List.map_eq_nil_iff] at hcalls
      subst hcalls
      exact ⟨fun _ => rfl, rfl⟩
  | cons call calls ih =>
      cases calls' with
      | nil => cases hcalls
      | cons call' calls' =>
          rcases List.cons.inj hcalls with ⟨hkey, htail⟩
          rcases ih htail with ⟨hkeys, hsize⟩
          have hidx : call.idx = call'.idx := by
            rcases Prod.mk.inj hkey with ⟨hmac, hvlan⟩
            rw [InsertCall.idx, InsertCall.idx, hmac, hvlan]
          have hnone : (table.insertAll calls).entryAt call.key = none ↔
              (table.insertAll calls').entryAt call'.key = none := by
            rw [entryAt_eq_none_iff, entryAt_eq_none_iff, hkey, hkeys]
          have hold := keysOnce_insertAll h calls
          have hold' := keysOnce_insertAll h calls'
          rw [insertAll_cons, insertAll_cons]
          cases hentry : (table.insertAll calls).entryAt call.key with
          | none =>
              have hentry' := hnone.1 hentry
              refine ⟨?_, ?_⟩
              · intro idx
                rw [keys_insert_of_entryAt_none hold hentry,
                  keys_insert_of_entryAt_none hold' hentry', hkeys, hkey, hidx]
              · rw [size_insert_of_entryAt_none hold hentry,
                  size_insert_of_entryAt_none hold' hentry', hsize]
          | some entry =>
              cases hentry' : (table.insertAll calls').entryAt call'.key with
              | none => exact absurd (hnone.2 hentry') (by rw [hentry]; exact Option.some_ne_none _)
              | some entry' =>
                  refine ⟨?_, ?_⟩
                  · intro idx
                    rw [keys_insert_of_entryAt_some hold hentry,
                      keys_insert_of_entryAt_some hold' hentry', hkeys]
                  · rw [size_insert_of_entryAt_some hold hentry,
                      size_insert_of_entryAt_some hold' hentry', hsize]

/-! ## Placement and count -/

theorem placed_iff_keys :
    table.Placed ↔ ∀ idx, ∀ k ∈ (table.buckets idx).map HashEntry.key, hashMac k.1 k.2 = idx := by
  simp only [Placed, List.forall_mem_map]
  exact Iff.rfl

theorem placed_insert (h : table.KeysOnce) (hplaced : table.Placed) (call : InsertCall) :
    (macTableInsert table call.mac call.vlan call.port call.now).Placed := by
  rw [placed_iff_keys] at hplaced ⊢
  intro idx k hk
  cases hentry : table.entryAt call.key with
  | some entry =>
      rw [keys_insert_of_entryAt_some h hentry] at hk
      exact hplaced idx k hk
  | none =>
      rw [keys_insert_of_entryAt_none h hentry] at hk
      by_cases hidx : idx = call.idx
      · rw [if_pos hidx] at hk
        rcases List.mem_cons.1 hk with rfl | hold
        · exact hidx.symm
        · exact hplaced idx k hold
      · rw [if_neg hidx] at hk
        exact hplaced idx k hk

theorem counted_iff_keys :
    table.Counted ↔ table.size = ∑ idx, ((table.buckets idx).map HashEntry.key).length := by
  simp [Counted]

theorem counted_insert (h : table.KeysOnce) (hcounted : table.Counted) (call : InsertCall) :
    (macTableInsert table call.mac call.vlan call.port call.now).Counted := by
  cases hentry : table.entryAt call.key with
  | some entry =>
      rw [counted_iff_keys] at hcounted ⊢
      simp only [keys_insert_of_entryAt_some h hentry, size_insert_of_entryAt_some h hentry]
      exact hcounted
  | none =>
      have hone := sum_update_add List.length table.buckets call.idx
        (call.entry :: table.buckets call.idx)
      rw [List.length_cons, ← add_assoc, add_right_comm, add_left_inj] at hone
      rw [insert_of_entryAt_none h hentry]
      exact (congrArg (· + 1) hcounted).trans hone.symm

theorem placed_insertAll (h : table.KeysOnce) (hplaced : table.Placed) (calls : List InsertCall) :
    (table.insertAll calls).Placed := by
  induction calls with
  | nil => exact hplaced
  | cons call calls ih => exact placed_insert (keysOnce_insertAll h calls) ih call

theorem counted_insertAll (h : table.KeysOnce) (hcounted : table.Counted)
    (calls : List InsertCall) : (table.insertAll calls).Counted := by
  induction calls with
  | nil => exact hcounted
  | cons call calls ih => exact counted_insert (keysOnce_insertAll h calls) ih call

/-- In a table whose entries are placed, an entry is found under its key. -/
theorem entryAt_of_mem (h : table.KeysOnce) (hplaced : table.Placed) {idx : Fin HASH_TABLE_SIZE}
    {entry : HashEntry} (hentry : entry ∈ table.buckets idx) :
    table.entryAt entry.key = some entry := by
  have hidx : hashMac entry.key.1 entry.key.2 = idx := hplaced idx entry hentry
  rw [entryAt, hidx]
  exact findKey_eq_some_of_mem (h idx) hentry

end MacTable

end ControlPlane
end EVdeSwitch
