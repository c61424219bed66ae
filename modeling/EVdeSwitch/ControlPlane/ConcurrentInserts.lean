import EVdeSwitch.ControlPlane.SerialInserts
import EVdeSwitch.Lib.History
import EVdeSwitch.Lib.LinkedList

/-!
# ConcurrentInserts — several workers in `mac_table_insert`

`mac_table_insert` of `src/control_plane/hash_table.c`, one access to the shared table at a time,
by workers that share the table without a lock.  The accesses are sequentially consistent.  A
worker reads the head of its bucket twice: before it walks the chain, and again when it has found
nothing and links its new entry.
-/

namespace EVdeSwitch
namespace ControlPlane

open EVdeSwitch.Lib

abbrev Addr : Type := Nat

/-- `mac_table_t` with the records that it points to. -/
structure SharedMacTable where
  entries : Addr → HashEntry
  next : Addr → Option Addr
  buckets : Fin HASH_TABLE_SIZE → Option Addr
  size : Nat
  /-- How many records `calloc` has given out; they are numbered in this order. -/
  allocated : Nat

namespace SharedMacTable

/-- `mac_table_create`; no record has been given out. -/
def zeroed : SharedMacTable :=
  { entries := fun _ =>
      { mac := Vector.replicate MAC_SIZE 0
        vlan := 0
        port := 0
        last_seen := 0
        valid := false }
    next := fun _ => none
    buckets := fun _ => none
    size := 0
    allocated := 0 }

/-- `calloc`; the address is the first that has not been given out. -/
def create (table : SharedMacTable) (call : InsertCall) : SharedMacTable :=
  { table with
    entries := Function.update table.entries table.allocated call.entry
    next := Function.update table.next table.allocated (table.buckets call.idx)
    allocated := table.allocated + 1 }

def setEntry (table : SharedMacTable) (addr : Addr) (entry : HashEntry) : SharedMacTable :=
  { table with entries := Function.update table.entries addr entry }

def setHead (table : SharedMacTable) (idx : Fin HASH_TABLE_SIZE) (addr : Addr) : SharedMacTable :=
  { table with buckets := Function.update table.buckets idx (some addr) }

/-- The addresses that the chain of a bucket leads to. -/
def chain (table : SharedMacTable) (idx : Fin HASH_TABLE_SIZE) : List Addr :=
  follow table.next table.allocated (table.buckets idx)

/-- The keys of a bucket. -/
def keys (table : SharedMacTable) (idx : Fin HASH_TABLE_SIZE) : List MacKey :=
  (table.chain idx).map fun addr => (table.entries addr).key

/-- The table as one call after the other sees it. -/
def toMacTable (table : SharedMacTable) : MacTable :=
  { buckets := fun idx => (table.chain idx).map table.entries
    size := table.size }

end SharedMacTable

/-- Where a worker is in `mac_table_insert`, with its local variables. -/
inductive InsertPc
  | idle
  | walking (call : InsertCall) (entry : Option Addr)
  | storePort (call : InsertCall) (entry : Addr)
  | storeLastSeen (call : InsertCall) (entry : Addr)
  | storeHead (call : InsertCall) (entry : Addr)
  | addSize (call : InsertCall)
  deriving DecidableEq, Repr

/-- `n` workers and their table. -/
structure Inserting (n : Nat) where
  table : SharedMacTable
  pcs : Fin n → InsertPc

inductive InsertAction (n : Nat)
  | call (w : Fin n) (call : InsertCall)
  | step (w : Fin n)
  deriving DecidableEq, Repr

namespace Inserting

variable {n : Nat}

def start (n : Nat) (table : SharedMacTable) : Inserting n :=
  { table := table
    pcs := fun _ => .idle }

def moved (s : Inserting n) (w : Fin n) (table : SharedMacTable) (pc : InsertPc) : Inserting n :=
  { table := table
    pcs := Function.update s.pcs w pc }

/-- One access of a worker. -/
def step (s : Inserting n) : InsertAction n → Option (Inserting n)
  | .call w call =>
      match s.pcs w with
      | .idle => some (s.moved w s.table (.walking call (s.table.buckets call.idx)))
      | _ => none
  | .step w =>
      match s.pcs w with
      | .idle => none
      -- Check for existing entry
      | .walking call (some entry) =>
          if (s.table.entries entry).Matches call.mac call.vlan then
            some (s.moved w s.table (.storePort call entry))
          else
            some (s.moved w s.table (.walking call (s.table.next entry)))
      | .storePort call entry =>
          let table := s.table.setEntry entry { s.table.entries entry with port := call.port }
          some (s.moved w table (.storeLastSeen call entry))
      | .storeLastSeen call entry =>
          let table := s.table.setEntry entry { s.table.entries entry with last_seen := call.now }
          some (s.moved w table .idle)
      -- Create new entry; no other worker sees it yet
      | .walking call none =>
          some (s.moved w (s.table.create call) (.storeHead call s.table.allocated))
      -- Insert at head of chain
      | .storeHead call entry =>
          some (s.moved w (s.table.setHead call.idx entry) (.addSize call))
      | .addSize _ => some (s.moved w { s.table with size := s.table.size + 1 } .idle)

end Inserting

def inserting (n : Nat) : Machine (Inserting n) (InsertAction n) :=
  { step := Inserting.step }

/-- The calls that have begun. -/
def recordCalls {n : Nat} (_ : Inserting n) (a : InsertAction n) (_ : Inserting n)
    (calls : List InsertCall) : List InsertCall :=
  match a with
  | .call _ call => call :: calls
  | .step _ => calls

namespace InsertPc

/-- The worker may still find or create an entry for the key `k`, or write to it. -/
def AtWork (k : MacKey) : InsertPc → Prop
  | .walking call _ | .storePort call _ | .storeLastSeen call _ | .storeHead call _ => call.key = k
  | .idle | .addSize _ => False

instance decidableAtWork (k : MacKey) : ∀ pc, Decidable (AtWork k pc)
  | .walking call _ | .storePort call _ | .storeLastSeen call _ | .storeHead call _ =>
      inferInstanceAs (Decidable (call.key = k))
  | .idle | .addSize _ => isFalse id

/-- The call has not had an effect on the chains yet. -/
def pending : InsertPc → Multiset InsertCall
  | .walking call _ | .storePort call _ | .storeHead call _ => {call}
  | .idle | .storeLastSeen _ _ | .addSize _ => 0

theorem atWork_of_mem_pending {call : InsertCall} {pc : InsertPc} (h : call ∈ pc.pending) :
    pc.AtWork call.key := by
  cases pc with
  | idle => cases Multiset.notMem_zero _ h
  | walking call' entry => exact congrArg InsertCall.key (Multiset.mem_singleton.1 h).symm
  | storePort call' entry => exact congrArg InsertCall.key (Multiset.mem_singleton.1 h).symm
  | storeLastSeen call' entry => cases Multiset.notMem_zero _ h
  | storeHead call' entry => exact congrArg InsertCall.key (Multiset.mem_singleton.1 h).symm
  | addSize call' => cases Multiset.notMem_zero _ h

/-- The call has linked an entry, and not counted it yet. -/
def uncounted : InsertPc → Nat
  | .addSize _ => 1
  | .idle | .walking _ _ | .storePort _ _ | .storeLastSeen _ _ | .storeHead _ _ => 0

end InsertPc

/-! ## What is asked of the interleaving -/

namespace Inserting

variable {n : Nat}

/-- Where a worker stores a new head, the head is still the one that it has linked its entry to,
and no entry of the chain has its key.  The last worker on a key stores its time beside the port of
a call with this time. -/
def SerialAt (table : SharedMacTable) (calls : List InsertCall) (others : MacKey → Prop) :
    InsertPc → Prop
  | .storeHead call entry =>
      table.buckets call.idx = table.next entry ∧ call.key ∉ table.keys call.idx
  | .storeLastSeen call entry =>
      others call.key ∨ ∃ call' ∈ calls, call'.key = call.key ∧
        call'.port = (table.entries entry).port ∧ call'.now = call.now
  | .idle | .walking _ _ | .storePort _ _ | .addSize _ => True

def Serial (x : Inserting n × List InsertCall) : InsertAction n → Prop
  | .call _ _ => True
  | .step w =>
      SerialAt x.1.table x.2 (fun k => ∃ w', w' ≠ w ∧ (x.1.pcs w').AtWork k) (x.1.pcs w)

instance decidableSerialAt (table : SharedMacTable) (calls : List InsertCall)
    (others : MacKey → Prop) [DecidablePred others] :
    ∀ pc, Decidable (SerialAt table calls others pc)
  | .storeHead call entry =>
      inferInstanceAs (Decidable (table.buckets call.idx = table.next entry ∧
        call.key ∉ table.keys call.idx))
  | .storeLastSeen call entry =>
      inferInstanceAs (Decidable (others call.key ∨ ∃ call' ∈ calls, call'.key = call.key ∧
        call'.port = (table.entries entry).port ∧ call'.now = call.now))
  | .idle | .walking _ _ | .storePort _ _ | .addSize _ => isTrue trivial

instance decidableSerial (x : Inserting n × List InsertCall) : ∀ a, Decidable (Serial x a)
  | .call _ _ => isTrue trivial
  | .step w =>
      inferInstanceAs (Decidable (SerialAt x.1.table x.2
        (fun k => ∃ w', w' ≠ w ∧ (x.1.pcs w').AtWork k) (x.1.pcs w)))

end Inserting

end ControlPlane
end EVdeSwitch
