import EVdeSwitch.DataPlane.FlowTable
import EVdeSwitch.Lib.Memory

/-!
# FlowKeyReads — which bytes of a key are read

The functions of `src/data_plane/flow_table.c` once more, for keys whose `length` is any number of
16 bits.  The loops read `field[i]` and `field[i / 8]` without a check; behind the array they come to
`mask` and `length`, and behind the key to whatever lies there.  Every call gives the indices that
it has read, in their order.
-/

namespace EVdeSwitch
namespace DataPlane
namespace Raw

open EVdeSwitch.Lib
open EVdeSwitch.Utils

/-! ## Keys in memory -/

/-- `flow_key` -/
structure FlowKey where
  field : Vector UInt8 MAX_FIELD_LENGTH
  mask : Vector UInt8 MAX_FIELD_LENGTH
  length : UInt16
  deriving DecidableEq

/-- `sizeof(flow_key)` -/
def SIZEOF_FLOW_KEY : Nat := 258

namespace FlowKey

def bytes (key : FlowKey) : List UInt8 :=
  key.field.toList ++ key.mask.toList ++ wordBytes 2 key.length.toNat

/-- `field[i]`, where `behind` is the memory behind the key. -/
def fieldAt (key : FlowKey) (behind : Nat → UInt8) (i : Nat) : UInt8 :=
  key.bytes[i]?.getD (behind (i - SIZEOF_FLOW_KEY))

/-- `(field[i / 8] >> (7 - (i % 8))) & 1` -/
def bitAt (key : FlowKey) (behind : Nat → UInt8) (i : Nat) : Bool :=
  ((key.fieldAt behind (i / 8)).toNat >>> (7 - i % 8)) &&& 1 = 1

/-- The way through the trie. -/
def path (key : FlowKey) (behind : Nat → UInt8) : List Bool :=
  (List.range (key.length.toNat * 8)).map (key.bitAt behind)

end FlowKey

/-- A result, and the indices at which `field` has been read for it. -/
structure Logged (α : Type) where
  value : α
  reads : List Nat

/-- One pass of the loop of `hash_function`. -/
def hashStep (key : FlowKey) (behind : Nat → UInt8) (hash : Logged UInt32) (i : Nat) :
    Logged UInt32 :=
  { value := (hash.value <<< 5) + hash.value + (key.fieldAt behind i).toUInt32
    reads := hash.reads ++ [i] }

def hashFunction (key : FlowKey) (behind : Nat → UInt8) :
    Logged (Fin FlowTable.HASH_TABLE_SIZE) :=
  let start : Logged UInt32 := { value := 5381, reads := [] }
  let hash := (List.range key.length.toNat).foldl (hashStep key behind) start
  { value := ⟨hash.value.toNat % FlowTable.HASH_TABLE_SIZE, FlowTable.mod_lt _⟩
    reads := hash.reads }

/-! ## The table -/

structure FlowEntry where
  serial : Option Nat
  key : FlowKey
  action : FlowAction
  deriving DecidableEq

def FlowEntry.zeroed : FlowEntry :=
  { serial := none
    key :=
      { field := Vector.replicate MAX_FIELD_LENGTH 0
        mask := Vector.replicate MAX_FIELD_LENGTH 0
        length := 0 }
    action := FlowAction.zeroed }

/-- The table, as in `FlowTable`. -/
structure FlowTable where
  hash_table : Fin FlowTable.HASH_TABLE_SIZE → List FlowEntry
  trie_root : Trie FlowEntry
  created : Nat
  freed : List Nat

def flowTableCreate : FlowTable :=
  { hash_table := fun _ => []
    trie_root := .null
    created := 0
    freed := [] }

def FlowTable.isFreed (table : FlowTable) (entry : FlowEntry) : Bool :=
  entry.serial.any fun serial => table.freed.contains serial

/-- The loop of `flow_table_insert` through the trie, for `count` bits from the bit `i` on. -/
def insertAt (isFreed : FlowEntry → Bool) (new_entry : FlowEntry) (key : FlowKey)
    (behind : Nat → UInt8) : Nat → Nat → Trie FlowEntry → Logged (Except Halt (Trie FlowEntry))
  | _, 0, _ =>
      { value := .ok (.node new_entry .null .null)
        reads := [] }
  | i, count + 1, .null =>
      let rest := insertAt isFreed new_entry key behind (i + 1) count .null
      -- `calloc` has put an empty entry on the way
      { value := rest.value.map (Trie.withChild .zeroed .null .null (key.bitAt behind i))
        reads := i / 8 :: rest.reads }
  | i, count + 1, .node entry zero one =>
      let bit := key.bitAt behind i
      -- the entry is read through a pointer that `free` may have got
      if isFreed entry then
        { value := .error .crash
          reads := [i / 8] }
      else
        let rest := insertAt isFreed new_entry key behind (i + 1) count (bif bit then one else zero)
        { value := rest.value.map (Trie.withChild entry zero one bit)
          reads := i / 8 :: rest.reads }

def flowTableInsert (table : FlowTable) (key : FlowKey) (behind : Nat → UInt8)
    (action : FlowAction) : Logged (Except Halt (Int × FlowTable)) :=
  let hash := hashFunction key behind
  let new_entry : FlowEntry :=
    { serial := some table.created
      key := key
      action := action }
  let walk := insertAt table.isFreed new_entry key behind 0 (key.length.toNat * 8) table.trie_root
  { value := walk.value.map fun trie_root =>
      (0,
        { table with
          hash_table := Function.update table.hash_table hash.value
            (new_entry :: table.hash_table hash.value)
          trie_root := trie_root
          created := table.created + 1 })
    reads := hash.reads ++ walk.reads }

/-- The loop of `flow_table_lookup` through the trie; it ends with the null pointer. -/
def lookupAt (isFreed : FlowEntry → Bool) (key : FlowKey) (behind : Nat → UInt8) :
    Nat → Nat → Trie FlowEntry → Option FlowEntry → Logged (Except Halt (Option FlowEntry))
  | _, 0, node, last_match =>
      { value := .ok (last_match.or (node.nodeAt []))
        reads := [] }
  | _, _ + 1, .null, last_match =>
      { value := .ok last_match
        reads := [] }
  | i, count + 1, .node entry zero one, last_match =>
      let bit := key.bitAt behind i
      if isFreed entry then
        { value := .error .crash
          reads := [i / 8] }
      else
        let rest := lookupAt isFreed key behind (i + 1) count (bif bit then one else zero)
          (if entry.action.action_length > 0 then some entry else last_match)
        { value := rest.value
          reads := i / 8 :: rest.reads }

def flowTableLookup (table : FlowTable) (key : FlowKey) (behind : Nat → UInt8) :
    Logged (Except Halt (Option FlowEntry)) :=
  let hash := hashFunction key behind
  match (table.hash_table hash.value).find? fun entry => entry.key = key with
  | some entry =>
      -- an exact match; the trie is not looked at
      { value := .ok (some entry)
        reads := hash.reads }
  | none =>
      let walk := lookupAt table.isFreed key behind 0 (key.length.toNat * 8) table.trie_root none
      { value := walk.value
        reads := hash.reads ++ walk.reads }

def flowTableDelete (table : FlowTable) (key : FlowKey) (behind : Nat → UInt8) :
    Logged (Int × FlowTable) :=
  let hash := hashFunction key behind
  match (table.hash_table hash.value).find? fun entry => entry.key = key with
  | some to_delete =>
      { value :=
          (0,
            { table with
              hash_table := Function.update table.hash_table hash.value
                ((table.hash_table hash.value).eraseP fun entry => entry.key = key)
              freed := to_delete.serial.toList ++ table.freed })
        reads := hash.reads }
  | none =>
      { value := (-1, table)
        reads := hash.reads }

/-! ## The indices -/

section Reads

variable {key : FlowKey} {behind : Nat → UInt8}

theorem foldl_hashStep_reads (indices : List Nat) (hash : Logged UInt32) :
    (indices.foldl (hashStep key behind) hash).reads = hash.reads ++ indices := by
  induction indices generalizing hash with
  | nil => rw [List.foldl_nil, List.append_nil]
  | cons i indices ih => rw [List.foldl_cons, ih, hashStep, List.append_assoc, List.singleton_append]

/-- `hash_function` reads as many bytes as `length` says. -/
theorem reads_hashFunction (key : FlowKey) (behind : Nat → UInt8) :
    (hashFunction key behind).reads = List.range key.length.toNat := by
  rw [hashFunction, foldl_hashStep_reads, List.nil_append]

/-- The walks read no byte behind those. -/
theorem reads_insertAt (isFreed : FlowEntry → Bool) (new_entry : FlowEntry) {i count n : Nat}
    (h : i + count ≤ n * 8) (t : Trie FlowEntry) :
    ∀ j ∈ (insertAt isFreed new_entry key behind i count t).reads, j < n := by
  induction count generalizing i t with
  | zero =>
      intro j hj
      cases hj
  | succ count ih =>
      -- bit `i` is in byte `i / 8`
      have hfirst : i / 8 < n := Nat.div_lt_of_lt_mul (by omega)
      -- whatever the child, the rest of the walk starts one bit further
      have hrest : ∀ child, ∀ j ∈ (insertAt isFreed new_entry key behind (i + 1) count child).reads,
          j < n := fun child => ih (by omega) child
      cases t with
      | null =>
          intro j hj
          rcases List.mem_cons.1 hj with rfl | hj
          · exact hfirst
          · exact hrest _ j hj
      | node entry zero one =>
          intro j hj
          rw [insertAt] at hj
          split at hj
          · rw [List.mem_singleton.1 hj]
            exact hfirst
          · rcases List.mem_cons.1 hj with rfl | hj
            · exact hfirst
            · exact hrest _ j hj

theorem reads_lookupAt (isFreed : FlowEntry → Bool) {i count n : Nat} (h : i + count ≤ n * 8)
    (t : Trie FlowEntry) (last_match : Option FlowEntry) :
    ∀ j ∈ (lookupAt isFreed key behind i count t last_match).reads, j < n := by
  induction count generalizing i t last_match with
  | zero =>
      intro j hj
      cases hj
  | succ count ih =>
      cases t with
      | null =>
          intro j hj
          cases hj
      | node entry zero one =>
          have hfirst : i / 8 < n := Nat.div_lt_of_lt_mul (by omega)
          intro j hj
          rw [lookupAt] at hj
          split at hj
          · rw [List.mem_singleton.1 hj]
            exact hfirst
          · rcases List.mem_cons.1 hj with rfl | hj
            · exact hfirst
            · exact ih (by omega) _ _ j hj

end Reads

/-! ## The three operations -/

inductive FlowOp
  | insert (action : FlowAction)
  | lookup
  | delete
  deriving DecidableEq

/-- The indices that an operation reads. -/
def FlowTable.reads (table : FlowTable) (key : FlowKey) (behind : Nat → UInt8) : FlowOp → List Nat
  | .insert action => (flowTableInsert table key behind action).reads
  | .lookup => (flowTableLookup table key behind).reads
  | .delete => (flowTableDelete table key behind).reads

/-- The operation gives its error result. -/
def FlowTable.Rejects (table : FlowTable) (key : FlowKey) (behind : Nat → UInt8) : FlowOp → Prop
  | .insert action => ∃ table', (flowTableInsert table key behind action).value = .ok (-1, table')
  | .lookup => (flowTableLookup table key behind).value = .ok none
  | .delete => (flowTableDelete table key behind).value.1 = -1

/-- Every index is one of the array, or the key is rejected before anything is read. -/
def FlowTable.ReadsInside (table : FlowTable) (key : FlowKey) (behind : Nat → UInt8)
    (op : FlowOp) : Prop :=
  (∀ i ∈ table.reads key behind op, i < MAX_FIELD_LENGTH) ∨
    (table.Rejects key behind op ∧ table.reads key behind op = [])

/-- An operation reads the bytes below `length`, each of them at least once. -/
theorem mem_reads_iff (table : FlowTable) (key : FlowKey) (behind : Nat → UInt8) (op : FlowOp)
    (i : Nat) : i ∈ table.reads key behind op ↔ i < key.length.toNat := by
  have hbound : 0 + key.length.toNat * 8 ≤ key.length.toNat * 8 := Nat.le_of_eq (Nat.zero_add _)
  -- the hash has read all bytes already, so a walk adds no index
  have hwalk : ∀ {reads : List Nat}, (∀ j ∈ reads, j < key.length.toNat) →
      (i ∈ (hashFunction key behind).reads ++ reads ↔ i < key.length.toNat) := by
    intro reads hreads
    rw [List.mem_append, reads_hashFunction, List.mem_range]
    exact or_iff_left_of_imp (hreads i)
  have hhash : i ∈ (hashFunction key behind).reads ↔ i < key.length.toNat := by
    rw [reads_hashFunction, List.mem_range]
  cases op with
  | insert action => exact hwalk (reads_insertAt _ _ hbound _)
  | lookup =>
      rw [FlowTable.reads, flowTableLookup]
      dsimp only
      split
      · exact hhash
      · exact hwalk (reads_lookupAt _ hbound _ _)
  | delete =>
      rw [FlowTable.reads, flowTableDelete]
      split
      · exact hhash
      · exact hhash

theorem readsInside_iff (table : FlowTable) (key : FlowKey) (behind : Nat → UInt8) (op : FlowOp) :
    table.ReadsInside key behind op ↔ key.length.toNat ≤ MAX_FIELD_LENGTH := by
  have hall : (∀ i ∈ table.reads key behind op, i < MAX_FIELD_LENGTH) ↔
      key.length.toNat ≤ MAX_FIELD_LENGTH := by
    simp only [mem_reads_iff]
    constructor
    · intro h
      -- a longer key has a byte at `MAX_FIELD_LENGTH`
      by_contra hlong
      exact Nat.lt_irrefl _ (h MAX_FIELD_LENGTH (Nat.lt_of_not_le hlong))
    · exact fun h i hi => Nat.lt_of_lt_of_le hi h
  rw [FlowTable.ReadsInside, hall]
  refine or_iff_left_of_imp ?_
  rintro ⟨_, hnothing⟩
  -- a key that is not read at all has no bytes
  rw [← hall, hnothing]
  intro i hi
  cases hi

/-! ## Equal keys in different places -/

/-- A key leads to the same bucket and along the same path whatever lies behind it. -/
def SameWay (key : FlowKey) : Prop :=
  ∀ behind behind', (hashFunction key behind).value = (hashFunction key behind').value ∧
    key.path behind = key.path behind'

namespace FlowKey

theorem length_bytes (key : FlowKey) : key.bytes.length = SIZEOF_FLOW_KEY := by
  rw [bytes, List.length_append, List.length_append, Vector.length_toList, Vector.length_toList,
    length_wordBytes]
  rfl

theorem fieldAt_congr (key : FlowKey) (behind behind' : Nat → UInt8) {i : Nat}
    (h : i < SIZEOF_FLOW_KEY) : key.fieldAt behind i = key.fieldAt behind' i := by
  have hin : i < key.bytes.length := by
    rw [length_bytes]
    exact h
  rw [fieldAt, fieldAt, List.getElem?_eq_getElem hin, Option.getD_some, Option.getD_some]

theorem fieldAt_of_le (key : FlowKey) (behind : Nat → UInt8) {i : Nat} (h : SIZEOF_FLOW_KEY ≤ i) :
    key.fieldAt behind i = behind (i - SIZEOF_FLOW_KEY) := by
  have hout : key.bytes.length ≤ i := by
    rw [length_bytes]
    exact h
  rw [fieldAt, List.getElem?_eq_none hout, Option.getD_none]

end FlowKey

/-- The hash of some bytes, before the remainder is taken. -/
def hashBytes (bytes : List UInt8) : UInt32 :=
  bytes.foldl (fun hash byte => (hash <<< 5) + hash + byte.toUInt32) 5381

theorem value_hashFunction (key : FlowKey) (behind : Nat → UInt8) :
    (hashFunction key behind).value =
      ⟨(hashBytes ((List.range key.length.toNat).map (key.fieldAt behind))).toNat %
        FlowTable.HASH_TABLE_SIZE, FlowTable.mod_lt _⟩ := by
  -- the log of indices does not change the value
  have hvalue : ∀ (indices : List Nat) (hash : Logged UInt32),
      (indices.foldl (hashStep key behind) hash).value =
        (indices.map (key.fieldAt behind)).foldl
          (fun (hash : UInt32) (byte : UInt8) => (hash <<< 5) + hash + byte.toUInt32) hash.value := by
    intro indices
    induction indices with
    | nil => exact fun hash => rfl
    | cons i indices ih => exact fun hash => ih (hashStep key behind hash i)
  simp only [hashFunction, hvalue, hashBytes]

theorem sameWay_of_le {key : FlowKey} (h : key.length.toNat ≤ SIZEOF_FLOW_KEY) : SameWay key := by
  intro behind behind'
  refine ⟨?_, ?_⟩
  · have hbytes : (List.range key.length.toNat).map (key.fieldAt behind) =
        (List.range key.length.toNat).map (key.fieldAt behind') := by
      refine List.map_congr_left fun i hi => key.fieldAt_congr behind behind' ?_
      exact Nat.lt_of_lt_of_le (List.mem_range.1 hi) h
    rw [value_hashFunction, value_hashFunction, hbytes]
  · refine List.map_congr_left fun i hi => ?_
    -- the bits of the path are those of the bytes that the hash has read
    have hbyte : i / 8 < SIZEOF_FLOW_KEY :=
      Nat.lt_of_lt_of_le (Nat.div_lt_of_lt_mul (by rw [Nat.mul_comm]; exact List.mem_range.1 hi)) h
    rw [FlowKey.bitAt, FlowKey.bitAt, key.fieldAt_congr behind behind' hbyte]

theorem mod_ne_of_succ (x : UInt32) :
    (x + 0).toNat % FlowTable.HASH_TABLE_SIZE ≠ (x + 1).toNat % FlowTable.HASH_TABLE_SIZE := by
  have hlt := x.toNat_lt
  have hone : (1 : UInt32).toNat = 1 := rfl
  rw [UInt32.add_zero, UInt32.toNat_add, hone]
  rcases Nat.lt_or_ge (x.toNat + 1) (2 ^ 32) with hsmall | hwrap
  · rw [Nat.mod_eq_of_lt hsmall, FlowTable.HASH_TABLE_SIZE]
    generalize x.toNat = a
    omega
  · -- the word wraps around
    have hmax : x.toNat = 2 ^ 32 - 1 := by omega
    rw [hmax]
    decide

/-- The last byte that is read is behind the key, and decides both. -/
theorem exists_other_way {key : FlowKey} (h : SIZEOF_FLOW_KEY < key.length.toNat) :
    ∃ behind behind', (hashFunction key behind).value ≠ (hashFunction key behind').value ∧
      key.path behind ≠ key.path behind' := by
  rcases Nat.exists_eq_succ_of_ne_zero (Nat.ne_zero_of_lt h) with ⟨last, hlast⟩
  have hle : SIZEOF_FLOW_KEY ≤ last := by omega
  -- two memories that differ at the last byte only
  let behind : Nat → UInt8 := fun _ => 0
  let behind' : Nat → UInt8 := fun j => if j = last - SIZEOF_FLOW_KEY then 1 else 0
  have hbyte : key.fieldAt behind last = 0 := key.fieldAt_of_le behind hle
  have hbyte' : key.fieldAt behind' last = 1 := by
    rw [key.fieldAt_of_le behind' hle]
    exact if_pos rfl
  -- all bytes before it are the same
  have hbefore : (List.range last).map (key.fieldAt behind') =
      (List.range last).map (key.fieldAt behind) := by
    refine List.map_congr_left fun i hi => ?_
    rcases Nat.lt_or_ge i SIZEOF_FLOW_KEY with hlt | hge
    · exact key.fieldAt_congr behind' behind hlt
    · have hne : i - SIZEOF_FLOW_KEY ≠ last - SIZEOF_FLOW_KEY := by
        have hi' := List.mem_range.1 hi
        omega
      rw [key.fieldAt_of_le behind' hge, key.fieldAt_of_le behind hge]
      exact if_neg hne
  refine ⟨behind, behind', fun heq => ?_, fun heq => ?_⟩
  · rw [value_hashFunction, value_hashFunction, Fin.mk.injEq, hlast, List.range_succ,
      List.map_append, List.map_append, hbefore, hashBytes, hashBytes, List.foldl_append,
      List.foldl_append, List.map_singleton, List.map_singleton, hbyte, hbyte'] at heq
    exact mod_ne_of_succ _ heq
  -- the lowest bit of the last byte is the last one of the path
  · have hbit : last * 8 + 7 ∈ List.range (key.length.toNat * 8) := by
      rw [List.mem_range, hlast]
      omega
    have hsame := List.map_inj_left.1 heq _ hbit
    have hdiv : (last * 8 + 7) / 8 = last := by omega
    have hmod : (last * 8 + 7) % 8 = 7 := by omega
    rw [FlowKey.bitAt, FlowKey.bitAt, hdiv, hmod, hbyte, hbyte'] at hsame
    exact absurd hsame (by decide)

theorem sameWay_iff (key : FlowKey) : SameWay key ↔ key.length.toNat ≤ SIZEOF_FLOW_KEY := by
  refine ⟨fun h => ?_, sameWay_of_le⟩
  by_contra hlong
  rcases exists_other_way (Nat.lt_of_not_le hlong) with ⟨behind, behind', hbucket, _⟩
  exact hbucket (h behind behind').1

/-- All reads of a key are inside of its array exactly when `length` is no more than the array has,
whatever the operation is and whatever the table holds.  Up to the end of the structure, equal keys
still lead to the same bucket and along the same path; behind it they need not. -/
theorem flow_key_reads_inside_iff (key : FlowKey) :
    ((∀ table behind op, FlowTable.ReadsInside table key behind op) ∧ SameWay key ↔
        key.length.toNat ≤ MAX_FIELD_LENGTH) ∧
      (∀ table behind op, FlowTable.ReadsInside table key behind op ↔
        key.length.toNat ≤ MAX_FIELD_LENGTH) ∧
      (SameWay key ↔ key.length.toNat ≤ SIZEOF_FLOW_KEY) := by
  have hsizes : MAX_FIELD_LENGTH ≤ SIZEOF_FLOW_KEY := by decide
  refine ⟨⟨?_, ?_⟩, fun table behind op => readsInside_iff table key behind op, sameWay_iff key⟩
  · rintro ⟨hinside, _⟩
    exact (readsInside_iff flowTableCreate key (fun _ => 0) .delete).1 (hinside _ _ _)
  · intro h
    exact ⟨fun table behind op => (readsInside_iff table key behind op).2 h,
      sameWay_of_le (Nat.le_trans h hsizes)⟩

/-- A key that is one byte longer than its array, and one that is longer than the structure: in
different places it has different buckets. -/
theorem not_flow_key_reads_inside_long :
    let zeros : Vector UInt8 MAX_FIELD_LENGTH := Vector.replicate MAX_FIELD_LENGTH 0
    let long : FlowKey := { field := zeros, mask := zeros, length := 129 }
    let longer : FlowKey := { field := zeros, mask := zeros, length := 259 }
    (∀ behind op, ¬ FlowTable.ReadsInside flowTableCreate long behind op) ∧ ¬ SameWay longer ∧
      ∃ behind behind', (hashFunction longer behind).value ≠ (hashFunction longer behind').value ∧
        longer.path behind ≠ longer.path behind' := by
  intro zeros long longer
  refine ⟨fun behind op h => ?_, fun h => ?_, ?_⟩
  · exact absurd ((readsInside_iff _ _ behind op).1 h) (by decide)
  · exact absurd ((sameWay_iff longer).1 h) (by decide)
  · exact exists_other_way (by decide)

/-! ## Keys that fit -/

section Fits

/-- A key of `FlowTable`. -/
def ofKey (key : DataPlane.FlowKey) : FlowKey :=
  { field := key.field
    mask := key.mask
    length := key.length }

def ofEntry (entry : DataPlane.FlowEntry) : FlowEntry :=
  { serial := entry.serial
    key := ofKey entry.key
    action := entry.action }

def ofTable (table : DataPlane.FlowTable) : FlowTable :=
  { hash_table := fun hash => (table.hash_table hash).map ofEntry
    trie_root := table.trie_root.map ofEntry
    created := table.created
    freed := table.freed }

variable {key : DataPlane.FlowKey} {behind : Nat → UInt8} {table : DataPlane.FlowTable}

theorem ofKey_injective : Function.Injective ofKey := by
  rintro ⟨field, mask, length, _⟩ ⟨field', mask', length', _⟩ h
  cases h
  rfl

theorem fieldAt_ofKey (key : DataPlane.FlowKey) (behind : Nat → UInt8) :
    (List.range key.length.toNat).map ((ofKey key).fieldAt behind) = key.bytes := by
  have hlength : key.bytes.length = key.length.toNat := by
    rw [DataPlane.FlowKey.bytes, List.length_take, Vector.length_toList]
    exact Nat.min_eq_left key.length_le
  refine List.ext_getElem? fun i => ?_
  -- a key that fits ends within its array, so nothing behind it is read
  by_cases hi : i < key.length.toNat
  · have hfield : i < key.field.toList.length := by
      rw [Vector.length_toList]
      exact Nat.lt_of_lt_of_le hi key.length_le
    have hbytes : (ofKey key).bytes =
        key.field.toList ++ (key.mask.toList ++ wordBytes 2 key.length.toNat) :=
      List.append_assoc _ _ _
    have hbyte : (ofKey key).bytes[i]? = some key.field.toList[i] := by
      rw [hbytes, List.getElem?_append_left hfield]
      exact List.getElem?_eq_getElem hfield
    rw [List.getElem?_map, List.getElem?_range hi, Option.map_some, FlowKey.fieldAt, hbyte,
      Option.getD_some, DataPlane.FlowKey.bytes, List.getElem?_take_of_lt hi,
      List.getElem?_eq_getElem hfield]
  · have hle := Nat.le_of_not_lt hi
    rw [List.getElem?_eq_none (by rw [List.length_map, List.length_range]; exact hle),
      List.getElem?_eq_none (by rw [hlength]; exact hle)]

/-- The bucket is that of `FlowTable`, -/
theorem value_hashFunction_ofKey (key : DataPlane.FlowKey) (behind : Nat → UInt8) :
    (hashFunction (ofKey key) behind).value = DataPlane.hashFunction key := by
  have hbytes : (List.range (ofKey key).length.toNat).map ((ofKey key).fieldAt behind) =
      key.bytes := fieldAt_ofKey key behind
  rw [value_hashFunction, hbytes]
  rfl

theorem range_mul_eight (n : Nat) :
    List.range (n * 8) = (List.range n).flatMap fun i => (List.range 8).map fun j => i * 8 + j := by
  induction n with
  | zero => rfl
  | succ n ih =>
      rw [List.range_succ (n := n), List.flatMap_append, ← ih, Nat.succ_mul, List.range_add,
        List.flatMap_singleton]

/-- and so is the path. -/
theorem path_ofKey (key : DataPlane.FlowKey) (behind : Nat → UInt8) :
    (ofKey key).path behind = key.bits := by
  have hlength : (ofKey key).length = key.length := rfl
  rw [FlowKey.path, hlength, range_mul_eight, List.map_flatMap, DataPlane.FlowKey.bits,
    ← fieldAt_ofKey key behind, List.flatMap_map]
  refine List.flatMap_congr fun i _ => ?_
  rw [List.map_map]
  refine List.map_congr_left fun j hj => ?_
  have hj' := List.mem_range.1 hj
  have hdiv : (i * 8 + j) / 8 = i := by omega
  have hmod : (i * 8 + j) % 8 = j := by omega
  rw [Function.comp_apply, FlowKey.bitAt, hdiv, hmod]

theorem insertAt_ofEntry {isFreed : DataPlane.FlowEntry → Bool} {isFreed' : FlowEntry → Bool}
    (hfreed : ∀ entry, isFreed' (ofEntry entry) = isFreed entry)
    (new_entry : DataPlane.FlowEntry) (key : FlowKey) (behind : Nat → UInt8) (i count : Nat)
    (t : Trie DataPlane.FlowEntry) :
    (insertAt isFreed' (ofEntry new_entry) key behind i count (t.map ofEntry)).value =
      (DataPlane.insertAt isFreed new_entry ((List.range' i count).map (key.bitAt behind)) t).map
        (Trie.map ofEntry) := by
  have hzeroed : ofEntry DataPlane.FlowEntry.zeroed = FlowEntry.zeroed := rfl
  -- the bits still to go are those of `FlowTable`, one for each pass
  induction count generalizing i t with
  | zero => rfl
  | succ count ih =>
      rw [List.range'_succ, List.map_cons]
      cases t with
      | null =>
          have hrest := ih (i + 1) .null
          rw [Trie.map] at hrest ⊢
          rw [insertAt, hrest, DataPlane.insertAt]
          cases DataPlane.insertAt isFreed new_entry
            ((List.range' (i + 1) count).map (key.bitAt behind)) .null with
          | error halt => rfl
          | ok child => simp only [Except.map, Trie.map_withChild, Trie.map, hzeroed]
      | node entry zero one =>
          rw [Trie.map, insertAt, DataPlane.insertAt, hfreed]
          cases hentry : isFreed entry with
          | true => rfl
          | false =>
              have hrest := ih (i + 1) (bif key.bitAt behind i then one else zero)
              rw [Trie.map_child] at hrest
              simp only [Bool.false_eq_true, if_false, hrest]
              cases DataPlane.insertAt isFreed new_entry
                ((List.range' (i + 1) count).map (key.bitAt behind))
                (bif key.bitAt behind i then one else zero) with
              | error halt => rfl
              | ok child => simp only [Except.map, Trie.map_withChild]

theorem lookupAt_ofEntry {isFreed : DataPlane.FlowEntry → Bool} {isFreed' : FlowEntry → Bool}
    (hfreed : ∀ entry, isFreed' (ofEntry entry) = isFreed entry) (key : FlowKey)
    (behind : Nat → UInt8) (i count : Nat) (t : Trie DataPlane.FlowEntry)
    (last_match : Option DataPlane.FlowEntry) :
    (lookupAt isFreed' key behind i count (t.map ofEntry) (last_match.map ofEntry)).value =
      (DataPlane.lookupAt isFreed ((List.range' i count).map (key.bitAt behind)) t
        last_match).map (Option.map ofEntry) := by
  -- both walks carry the last entry with an action along
  induction count generalizing i t last_match with
  | zero =>
      simp only [lookupAt, List.range'_zero, List.map_nil, DataPlane.lookupAt, Except.map,
        Trie.nodeAt_nil_map]
      cases last_match <;> rfl
  | succ count ih =>
      rw [List.range'_succ, List.map_cons]
      cases t with
      | null => rfl
      | node entry zero one =>
          rw [Trie.map, lookupAt, DataPlane.lookupAt, hfreed]
          cases hentry : isFreed entry with
          | true => rfl
          | false =>
              have hlast : (if (ofEntry entry).action.action_length > 0 then some (ofEntry entry)
                  else last_match.map ofEntry) =
                  (if entry.action.action_length > 0 then some entry else last_match).map
                    ofEntry := by
                rw [apply_ite (Option.map ofEntry)]
                rfl
              simp only [Bool.false_eq_true, if_false, hlast]
              rw [← Trie.map_child, ih]

theorem isFreed_ofTable (table : DataPlane.FlowTable) (entry : DataPlane.FlowEntry) :
    (ofTable table).isFreed (ofEntry entry) = table.isFreed entry := rfl

theorem map_range'_bitAt (key : DataPlane.FlowKey) (behind : Nat → UInt8) :
    (List.range' 0 (key.length.toNat * 8)).map ((ofKey key).bitAt behind) = key.bits := by
  rw [← List.range_eq_range']
  exact path_ofKey key behind

theorem key_ofEntry_comp (key : DataPlane.FlowKey) :
    ((fun entry => decide (entry.key = ofKey key)) ∘ ofEntry : DataPlane.FlowEntry → Bool) =
      fun entry => decide (entry.key = key) := by
  funext entry
  exact decide_eq_decide.2 ofKey_injective.eq_iff

theorem update_ofTable (table : DataPlane.FlowTable) (hash : Fin FlowTable.HASH_TABLE_SIZE)
    (chain : List DataPlane.FlowEntry) :
    Function.update (ofTable table).hash_table hash (chain.map ofEntry) =
      fun hash' => (Function.update table.hash_table hash chain hash').map ofEntry := by
  funext hash'
  exact (Function.apply_update (fun _ => List.map ofEntry) table.hash_table hash chain hash').symm

/-- On keys that fit the three operations are those of `FlowTable`. -/
theorem flowTableInsert_ofTable (table : DataPlane.FlowTable) (key : DataPlane.FlowKey)
    (behind : Nat → UInt8) (action : FlowAction) :
    (flowTableInsert (ofTable table) (ofKey key) behind action).value =
      (DataPlane.flowTableInsert table key action).map fun r => (r.1, ofTable r.2) := by
  let new_entry : DataPlane.FlowEntry :=
    { serial := some table.created
      key := key
      action := action }
  have hwalk := insertAt_ofEntry (isFreed_ofTable table) new_entry (ofKey key) behind 0
    (key.length.toNat * 8) table.trie_root
  rw [map_range'_bitAt] at hwalk
  -- the insertion, with the entry and the table written as images
  have hraw : (flowTableInsert (ofTable table) (ofKey key) behind action).value =
      (insertAt (ofTable table).isFreed (ofEntry new_entry) (ofKey key) behind 0
        (key.length.toNat * 8) (table.trie_root.map ofEntry)).value.map fun trie_root =>
          (0,
            { ofTable table with
              hash_table := Function.update (ofTable table).hash_table
                (hashFunction (ofKey key) behind).value
                (ofEntry new_entry :: (ofTable table).hash_table
                  (hashFunction (ofKey key) behind).value)
              trie_root := trie_root
              created := table.created + 1 }) := rfl
  rw [hraw, hwalk, value_hashFunction_ofKey, DataPlane.flowTableInsert]
  cases DataPlane.insertAt table.isFreed new_entry key.bits table.trie_root with
  | error halt => rfl
  | ok trie_root =>
      have hchain := update_ofTable table (DataPlane.hashFunction key)
        (new_entry :: table.bucket key)
      simp only [Except.map, Except.ok.injEq, Prod.mk.injEq, true_and]
      exact congrArg (fun chains =>
        FlowTable.mk chains (trie_root.map ofEntry) (table.created + 1) table.freed) hchain

theorem flowTableLookup_ofTable (table : DataPlane.FlowTable) (key : DataPlane.FlowKey)
    (behind : Nat → UInt8) :
    (flowTableLookup (ofTable table) (ofKey key) behind).value =
      (DataPlane.flowTableLookup table key).map (Option.map ofEntry) := by
  have hchain : (ofTable table).hash_table (DataPlane.hashFunction key) =
      (table.bucket key).map ofEntry := rfl
  have hwalk := lookupAt_ofEntry (isFreed_ofTable table) (ofKey key) behind 0
    (key.length.toNat * 8) table.trie_root none
  rw [map_range'_bitAt] at hwalk
  rw [flowTableLookup, value_hashFunction_ofKey, hchain, List.find?_map, key_ofEntry_comp,
    DataPlane.flowTableLookup]
  cases (table.bucket key).find? fun entry => entry.key = key with
  | none => exact hwalk
  | some entry => rfl

theorem flowTableDelete_ofTable (table : DataPlane.FlowTable) (key : DataPlane.FlowKey)
    (behind : Nat → UInt8) :
    (flowTableDelete (ofTable table) (ofKey key) behind).value =
      Prod.map id ofTable (DataPlane.flowTableDelete table key) := by
  have hchain : (ofTable table).hash_table (DataPlane.hashFunction key) =
      (table.bucket key).map ofEntry := rfl
  have hrest := update_ofTable table (DataPlane.hashFunction key)
    ((table.bucket key).eraseP fun entry => entry.key = key)
  rw [flowTableDelete, value_hashFunction_ofKey, hchain, List.find?_map, key_ofEntry_comp,
    DataPlane.flowTableDelete]
  cases (table.bucket key).find? fun entry => entry.key = key with
  | none => rfl
  | some to_delete =>
      simp only [Option.map_some, List.eraseP_map, key_ofEntry_comp, hrest]
      rfl

end Fits

end Raw
end DataPlane
end EVdeSwitch
