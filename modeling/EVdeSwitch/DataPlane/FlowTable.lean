import EVdeSwitch.Lib.BinaryTrie
import EVdeSwitch.Utils.Logging

/-!
# FlowTable — entries in a hash table and in a trie

`flow_table_insert`, `flow_table_lookup` and `flow_table_delete` of `src/data_plane/flow_table.c`.
One record is both an element of a hash chain and a node of the trie.  An entry that has been
freed can still be a node of the trie; to read it is undefined behaviour, and modelled as a crash.
Memory does not run out, and no argument is the null pointer.
-/

namespace EVdeSwitch
namespace DataPlane

open EVdeSwitch.Lib
open EVdeSwitch.Utils

/-! ## `flow_table.h` -/

def MAX_FIELD_LENGTH : Nat := 128

def MAX_ACTION_LENGTH : Nat := 64

def FlowTable.HASH_TABLE_SIZE : Nat := 10007

/-- `flow_key` -/
structure FlowKey where
  field : Vector UInt8 MAX_FIELD_LENGTH
  mask : Vector UInt8 MAX_FIELD_LENGTH
  length : UInt16
  length_le : length.toNat ≤ MAX_FIELD_LENGTH
  deriving DecidableEq

structure FlowAction where
  action : Vector UInt8 MAX_ACTION_LENGTH
  action_length : UInt16
  deriving DecidableEq

/-- `flow_entry`, with a number by which `create_flow_entry` tells its entries apart; a record made
on the way through the trie has none. -/
structure FlowEntry where
  serial : Option Nat
  key : FlowKey
  action : FlowAction
  deriving DecidableEq

/-- `flow_table`, with the number of entries made so far and those of them that have been freed. -/
structure FlowTable where
  hash_table : Fin FlowTable.HASH_TABLE_SIZE → List FlowEntry
  trie_root : Trie FlowEntry
  created : Nat
  freed : List Nat

theorem FlowKey.zero_length_le : (0 : UInt16).toNat ≤ MAX_FIELD_LENGTH := by decide

def FlowKey.zeroed : FlowKey :=
  { field := Vector.replicate MAX_FIELD_LENGTH 0
    mask := Vector.replicate MAX_FIELD_LENGTH 0
    length := 0
    length_le := FlowKey.zero_length_le }

def FlowAction.zeroed : FlowAction :=
  { action := Vector.replicate MAX_ACTION_LENGTH 0
    action_length := 0 }

/-- What `calloc` gives to a walk through the trie. -/
def FlowEntry.zeroed : FlowEntry :=
  { serial := none
    key := FlowKey.zeroed
    action := FlowAction.zeroed }

/-! ## `flow_table.c` -/

namespace FlowKey

/-- `field[0]`, up to `field[length - 1]`. -/
def bytes (key : FlowKey) : List UInt8 :=
  key.field.toList.take key.length.toNat

/-- `(field[i / 8] >> (7 - (i % 8))) & 1`, for every `i` below `length * 8`. -/
def bits (key : FlowKey) : List Bool :=
  key.bytes.flatMap fun byte => (List.range 8).map fun i => (byte.toNat >>> (7 - i)) &&& 1 = 1

end FlowKey

theorem FlowTable.mod_lt (hash : Nat) : hash % FlowTable.HASH_TABLE_SIZE < FlowTable.HASH_TABLE_SIZE :=
  Nat.mod_lt hash (by decide)

def hashFunction (key : FlowKey) : Fin FlowTable.HASH_TABLE_SIZE :=
  let hash : UInt32 := key.bytes.foldl (fun hash byte => (hash <<< 5) + hash + byte.toUInt32) 5381
  ⟨hash.toNat % FlowTable.HASH_TABLE_SIZE, FlowTable.mod_lt _⟩

def flowTableCreate : FlowTable :=
  { hash_table := fun _ => []
    trie_root := .null
    created := 0
    freed := [] }

namespace FlowTable

def bucket (table : FlowTable) (key : FlowKey) : List FlowEntry :=
  table.hash_table (hashFunction key)

/-- The record has been freed. -/
def isFreed (table : FlowTable) (entry : FlowEntry) : Bool :=
  entry.serial.any fun serial => table.freed.contains serial

end FlowTable

/-- The loop of `flow_table_insert` through the trie; it makes the nodes that are missing, and does
not look at those it finds, whatever they are. -/
def insertAt (isFreed : FlowEntry → Bool) (new_entry : FlowEntry) :
    List Bool → Trie FlowEntry → Except Halt (Trie FlowEntry)
  | [], _ => .ok (.node new_entry .null .null)
  | bit :: bits, .null =>
      (insertAt isFreed new_entry bits .null).map (Trie.withChild .zeroed .null .null bit)
  | bit :: bits, .node entry zero one =>
      if isFreed entry then
        .error .crash
      else
        (insertAt isFreed new_entry bits (bif bit then one else zero)).map
          (Trie.withChild entry zero one bit)

def flowTableInsert (table : FlowTable) (key : FlowKey) (action : FlowAction) :
    Except Halt (Int × FlowTable) :=
  let new_entry : FlowEntry :=
    { serial := some table.created
      key := key
      action := action }
  (insertAt table.isFreed new_entry key.bits table.trie_root).map fun trie_root =>
    (0,
      { table with
        hash_table := Function.update table.hash_table (hashFunction key)
          (new_entry :: table.bucket key)
        trie_root := trie_root
        created := table.created + 1 })

/-- The loop of `flow_table_lookup` through the trie, with the last node it has passed that has an
action. -/
def lookupAt (isFreed : FlowEntry → Bool) :
    List Bool → Trie FlowEntry → Option FlowEntry → Except Halt (Option FlowEntry)
  | [], node, last_match => .ok (last_match.or (node.nodeAt []))
  | _ :: _, .null, last_match => .ok last_match
  | bit :: bits, .node entry zero one, last_match =>
      if isFreed entry then
        .error .crash
      else
        lookupAt isFreed bits (bif bit then one else zero)
          (if entry.action.action_length > 0 then some entry else last_match)

/-- The entry that is pointed to by the result, if it is not the null pointer. -/
def flowTableLookup (table : FlowTable) (key : FlowKey) : Except Halt (Option FlowEntry) :=
  match (table.bucket key).find? fun entry => entry.key = key with
  | some entry => .ok (some entry)
  -- If not found, try wildcard match in trie
  | none => lookupAt table.isFreed key.bits table.trie_root none

/-- The entry is taken out of its chain and freed; the trie is left as it is. -/
def flowTableDelete (table : FlowTable) (key : FlowKey) : Int × FlowTable :=
  match (table.bucket key).find? fun entry => entry.key = key with
  | some to_delete =>
      (0,
        { table with
          hash_table := Function.update table.hash_table (hashFunction key)
            ((table.bucket key).eraseP fun entry => entry.key = key)
          freed := to_delete.serial.toList ++ table.freed })
  | none => (-1, table)

/-! ## The two loops -/

section Loops

variable {isFreed : FlowEntry → Bool} {new_entry : FlowEntry}

/-- The nodes above the new one are read. -/
theorem insertAt_eq (bits : List Bool) (t : Trie FlowEntry) :
    insertAt isFreed new_entry bits t =
      if (t.above bits).any isFreed then .error .crash
      else .ok (t.put .zeroed new_entry bits) := by
  induction bits generalizing t with
  | nil => simp [insertAt, Trie.above, Trie.put]
  | cons bit bits ih =>
      cases t with
      | null =>
          have hnothing : (Trie.null : Trie FlowEntry).above bits = [] := by
            cases bits <;> rfl
          simp [insertAt, Trie.above, Trie.put, ih, hnothing, Except.map]
      | node entry zero one =>
          cases hentry : isFreed entry with
          | true => simp [insertAt, Trie.above, hentry]
          | false =>
              simp only [insertAt, Trie.above, hentry, List.any_cons, Bool.false_or, ih, Trie.put,
                Bool.false_eq_true, if_false]
              split <;> rfl

variable (isFreed) in
/-- The walk reads the nodes above the address; it ends with one of them that has an action, or
with what is at the address. -/
theorem lookupAt_cases (bits : List Bool) (t : Trie FlowEntry) (last_match : Option FlowEntry) :
    ((∃ entry ∈ t.above bits, isFreed entry = true) ∧
        lookupAt isFreed bits t last_match = .error .crash) ∨
      ((∀ entry ∈ t.above bits, isFreed entry = false) ∧
        ∃ found, lookupAt isFreed bits t last_match = .ok found ∧
          ((∃ entry ∈ t.above bits, entry.action.action_length > 0 ∧ found = some entry) ∨
            ((∀ entry ∈ t.above bits, ¬ entry.action.action_length > 0) ∧
              found = last_match.or (t.nodeAt bits)))) := by
  induction bits generalizing t last_match with
  | nil => exact Or.inr ⟨by simp [Trie.above], _, rfl, Or.inr ⟨by simp [Trie.above], rfl⟩⟩
  | cons bit bits ih =>
      cases t with
      | null =>
          refine Or.inr ⟨by simp [Trie.above], last_match, rfl, Or.inr ⟨by simp [Trie.above], ?_⟩⟩
          simp
      | node entry zero one =>
          cases hentry : isFreed entry with
          | true => exact Or.inl ⟨⟨entry, by simp [Trie.above], hentry⟩, by simp [lookupAt, hentry]⟩
          | false =>
              simp only [lookupAt, Trie.above, hentry, Bool.false_eq_true, if_false,
                List.mem_cons, exists_eq_or_imp, forall_eq_or_imp, false_or, true_and,
                Trie.nodeAt]
              -- the rest of the walk starts with what this node leaves
              rcases ih (bif bit then one else zero)
                (if entry.action.action_length > 0 then some entry else last_match) with
                hcrash | ⟨hsafe, found, hfound, hmatch | ⟨hnone, hlast⟩⟩
              · exact Or.inl hcrash
              · exact Or.inr ⟨hsafe, found, hfound, Or.inl (Or.inr hmatch)⟩
              · refine Or.inr ⟨hsafe, found, hfound, ?_⟩
                by_cases haction : entry.action.action_length > 0
                · exact Or.inl (Or.inl ⟨haction, by simpa [haction] using hlast⟩)
                · exact Or.inr ⟨⟨haction, hnone⟩, by simpa [haction] using hlast⟩

end Loops

end DataPlane
end EVdeSwitch
