import EVdeSwitch.Io.FdTableMap

/-!
# ConcurrentFds — workers that look descriptors up while a port is added

The control plane inserts into the table of `src/io/fd_manager.c` while the workers of the thread
pool look descriptors up, one access to the shared table at a time.  `realloc` may move the array
and free the old one under a worker that has loaded the pointer to it.  The file says exactly when
this happens, and what a lookup answers as long as it does not.
-/

namespace EVdeSwitch
namespace Io

open EVdeSwitch.Lib
open EVdeSwitch.Utils
open FdTableWords (FdEvent lastInserted)

/-- `fd_table_t` and the heap: an array that `realloc` has freed is not there any more, and no two
arrays have the same number. -/
structure SharedFds (ε : Type) where
  heap : Nat → Option (HeapArray ε)
  allocated : Nat
  endpoints : Nat
  capacity : Nat
  max_fd : Nat

/-- The answer of `realloc`, with what is in the new memory. -/
inductive Reallocated (ε : Type)
  | failed
  | inPlace (behind : Nat → Option ε)
  | moved (behind : Nat → Option ε)

/-- Where the control plane is in `fd_table_insert`, with its local variables. -/
inductive FdInsertPc (ε : Type)
  | idle
  | loadCapacity (fd : Fd) (ep : ε)
  | realloc (fd : Fd) (ep : ε) (new_size : Nat)
  | clear (fd : Fd) (ep : ε) (new_size new_array : Nat)
  | storeArray (fd : Fd) (ep : ε) (new_size new_array : Nat)
  | storeCapacity (fd : Fd) (ep : ε) (new_size : Nat)
  | storeSlot (fd : Fd) (ep : ε)
  | raiseMaxFd (fd : Fd)
  | returned (result : Int)

/-- Where a worker is in `fd_table_lookup`, with its local variables. -/
inductive FdLookupPc (ε : Type)
  | idle
  | loadCapacity (fd : Int)
  | loadArray (fd : Int)
  | loadSlot (fd : Int) (array : Nat)
  | returned (fd : Int) (found : Option ε)

def FdInsertPc.Busy {ε : Type} : FdInsertPc ε → Bool
  | .idle | .returned _ => false
  | _ => true

def FdLookupPc.Busy {ε : Type} : FdLookupPc ε → Bool
  | .idle | .returned _ _ => false
  | _ => true

namespace SharedFds

variable {ε : Type}

def create : SharedFds ε :=
  { heap := fun array =>
      if array = 0 then some { size := FD_TABLE_INITIAL_SIZE, slot := fun _ => none } else none
    allocated := 1
    endpoints := 0
    capacity := FD_TABLE_INITIAL_SIZE
    max_fd := 0 }

def withArray (table : SharedFds ε) (array : Nat) (a : HeapArray ε) : SharedFds ε :=
  { table with heap := Function.update table.heap array (some a) }

/-- The array at the old address is freed, and a new one is there. -/
def moveArray (table : SharedFds ε) (a : HeapArray ε) : SharedFds ε :=
  { table with
    heap := Function.update (Function.update table.heap table.endpoints none)
      table.allocated (some a)
    allocated := table.allocated + 1 }

/-- One access of `fd_table_insert`.  Nobody else writes to the table. -/
def insertStep (table : SharedFds ε) (env : Reallocated ε) :
    FdInsertPc ε → Option (Except Halt (SharedFds ε × FdInsertPc ε))
  | .idle | .returned _ => none
  | .loadCapacity fd ep =>
      if fd.val ≥ table.capacity then
        -- the capacity is never 0
        some (.ok (table, .realloc fd ep
          (if h : 0 < table.capacity * 2 then doubledSize fd.val (table.capacity * 2) h else 0)))
      else
        some (.ok (table, .storeSlot fd ep))
  | .realloc fd ep new_size =>
      match table.heap table.endpoints, env with
      | none, _ => some (.error .crash)
      | some _, .failed => some (.ok (table, .returned (-1)))
      | some a, .inPlace behind =>
          some (.ok (table.withArray table.endpoints (a.realloc new_size behind),
            .clear fd ep new_size table.endpoints))
      | some a, .moved behind =>
          some (.ok (table.moveArray (a.realloc new_size behind),
            .clear fd ep new_size table.allocated))
  | .clear fd ep new_size new_array =>
      match table.heap new_array with
      | none => some (.error .crash)
      | some a =>
          some ((a.clear table.capacity (new_size - table.capacity)).map fun a =>
            (table.withArray new_array a, .storeArray fd ep new_size new_array))
  | .storeArray fd ep new_size new_array =>
      some (.ok ({ table with endpoints := new_array }, .storeCapacity fd ep new_size))
  | .storeCapacity fd ep new_size =>
      some (.ok ({ table with capacity := new_size }, .storeSlot fd ep))
  | .storeSlot fd ep =>
      match table.heap table.endpoints with
      | none => some (.error .crash)
      | some a =>
          some ((a.store fd.val (some ep)).map fun a =>
            (table.withArray table.endpoints a, .raiseMaxFd fd))
  | .raiseMaxFd fd => some (.ok ({ table with max_fd := max table.max_fd fd.val }, .returned 0))

/-- One access of `fd_table_lookup`. -/
def lookupStep (table : SharedFds ε) : FdLookupPc ε → Option (Except Halt (FdLookupPc ε))
  | .idle | .returned _ _ => none
  | .loadCapacity fd =>
      if fd ≥ table.capacity then some (.ok (.returned fd none)) else some (.ok (.loadArray fd))
  | .loadArray fd => some (.ok (.loadSlot fd table.endpoints))
  | .loadSlot fd array =>
      match table.heap array with
      -- freed by `realloc`
      | none => some (.error .crash)
      | some a => some ((a.load fd.toNat).map (.returned fd))

end SharedFds

/-- The control plane and `n` workers. -/
structure FdUsers (ε : Type) (n : Nat) where
  table : SharedFds ε
  inserter : FdInsertPc ε
  lookups : Fin n → FdLookupPc ε

inductive FdAction (ε : Type) (n : Nat)
  | insert (fd : Fd) (ep : ε)
  | insertStep (env : Reallocated ε)
  | lookup (w : Fin n) (fd : Int)
  | lookupStep (w : Fin n)

namespace FdUsers

variable {ε : Type} {n : Nat}

def start (ε : Type) (n : Nat) : FdUsers ε n :=
  { table := SharedFds.create
    inserter := .idle
    lookups := fun _ => .idle }

def atLookup (s : FdUsers ε n) (w : Fin n) (pc : FdLookupPc ε) : FdUsers ε n :=
  { s with lookups := Function.update s.lookups w pc }

def step (s : FdUsers ε n) : FdAction ε n → Option (Except Halt (FdUsers ε n))
  | .insert fd ep =>
      if s.inserter.Busy then none else some (.ok { s with inserter := .loadCapacity fd ep })
  | .insertStep env =>
      (s.table.insertStep env s.inserter).map fun r => r.map fun (table, pc) =>
        { s with
          table := table
          inserter := pc }
  | .lookup w fd =>
      if (s.lookups w).Busy then
        none
      -- the descriptor is compared with 0 before the table is looked at
      else if fd < 0 then
        some (.ok (s.atLookup w (.returned fd none)))
      else
        some (.ok (s.atLookup w (.loadCapacity fd)))
  | .lookupStep w => (s.table.lookupStep (s.lookups w)).map fun r => r.map (s.atLookup w)

end FdUsers

/-- Nothing follows an undefined access. -/
def fdUsers (ε : Type) (n : Nat) : Machine (Except Halt (FdUsers ε n)) (FdAction ε n) where
  step
    | .error _, _ => none
    | .ok s, a => s.step a

/-- The pointer that the next access of the insertion stores. -/
def FdInsertPc.stored {ε : Type} (log : List (FdEvent ε)) : FdInsertPc ε → List (FdEvent ε)
  | .storeSlot fd ep => .inserted fd (some ep) :: log
  | _ => log

/-- The pointers that have been stored, the newest first. -/
def recordStores {ε : Type} {n : Nat} (s : Except Halt (FdUsers ε n)) (a : FdAction ε n)
    (_ : Except Halt (FdUsers ε n)) (log : List (FdEvent ε)) : List (FdEvent ε) :=
  match s, a with
  | .ok s, .insertStep _ => s.inserter.stored log
  | _, _ => log

/-- The next access of the insertion frees the array. -/
def FdInsertPc.TakesAway {ε : Type} (env : Reallocated ε) : FdInsertPc ε → Prop
  | .realloc _ _ _ => ∃ behind, env = .moved behind
  | _ => False

/-! ## The table under the insertion -/

namespace SharedFds

variable {ε : Type} {table table' : SharedFds ε} {pc pc' : FdInsertPc ε} {log : List (FdEvent ε)}

/-- The array that is there: the new one before the table points to it. -/
def current (table : SharedFds ε) : FdInsertPc ε → Nat
  | .clear _ _ _ new_array | .storeArray _ _ _ new_array => new_array
  | _ => table.endpoints

theorem current_of_not_busy (h : pc.Busy = false) : table.current pc = table.endpoints := by
  cases pc with
  | clear fd ep new_size new_array => cases h
  | storeArray fd ep new_size new_array => cases h
  | _ => rfl

/-- What the array has under a descriptor. -/
def entry (a : HeapArray ε) (capacity : Nat) (fd : Int) : Option ε :=
  if 0 ≤ fd ∧ fd < capacity then a.slot fd.toNat else none

/-- What the insertion has made ready. -/
def Prepared (a : HeapArray ε) (capacity : Nat) : FdInsertPc ε → Prop
  | .realloc fd _ new_size => capacity ≤ new_size ∧ fd.val < new_size
  | .clear fd _ new_size _ => capacity ≤ new_size ∧ fd.val < new_size ∧ new_size ≤ a.size
  | .storeArray fd _ new_size _ | .storeCapacity fd _ new_size =>
      capacity ≤ new_size ∧ fd.val < new_size ∧ new_size ≤ a.size ∧
        ∀ i, capacity ≤ i → i < new_size → a.slot i = none
  | .storeSlot fd _ => fd.val < capacity
  | _ => True

/-- One array is there, with what has been stored. -/
structure Shares (table : SharedFds ε) (pc : FdInsertPc ε) (log : List (FdEvent ε)) : Prop where
  array : ∃ a, table.heap (table.current pc) = some a ∧ table.capacity ≤ a.size ∧
    (∀ fd, entry a table.capacity fd = lastInserted log fd) ∧ Prepared a table.capacity pc
  others : ∀ array, array ≠ table.current pc → table.heap array = none
  current_lt : table.current pc < table.allocated
  endpoints_lt : table.endpoints < table.allocated
  capacity_pos : 0 < table.capacity

/-- An access of the insertion that takes no array away. -/
structure Keeps (table' table : SharedFds ε) : Prop where
  capacity : table.capacity ≤ table'.capacity
  allocated : table.allocated ≤ table'.allocated
  heap : ∀ array < table.allocated, (table'.heap array).isSome = (table.heap array).isSome

/-- The access that takes away the array that was there. -/
structure Moves (table' table : SharedFds ε) : Prop where
  capacity : table.capacity ≤ table'.capacity
  allocated : table.allocated ≤ table'.allocated
  heap : ∀ array < table.allocated, table'.heap array = none

theorem keeps_refl (table : SharedFds ε) : table.Keeps table where
  capacity := le_refl _
  allocated := le_refl _
  heap := fun _ _ => rfl

section WithArray

variable {array : Nat} {a' : HeapArray ε}

theorem heap_withArray_self : (table.withArray array a').heap array = some a' :=
  Function.update_self _ _ _

theorem heap_withArray_of_ne {other : Nat} (h : other ≠ array) :
    (table.withArray array a').heap other = table.heap other :=
  Function.update_of_ne h _ _

theorem current_withArray : (table.withArray array a').current pc = table.current pc := by
  cases pc <;> rfl

theorem keeps_withArray {a : HeapArray ε} (h : table.heap array = some a) :
    (table.withArray array a').Keeps table where
  capacity := le_refl _
  allocated := le_refl _
  heap := fun other _ => by
    by_cases heq : other = array
    · rw [heq, heap_withArray_self, h]
      rfl
    · rw [heap_withArray_of_ne heq]

end WithArray

theorem shares_create : (create : SharedFds ε).Shares .idle [] where
  array := by
    refine ⟨_, rfl, le_refl _, fun fd => ?_, trivial⟩
    exact ite_self _
  others := fun array hne => if_neg hne
  current_lt := Nat.zero_lt_one
  endpoints_lt := Nat.zero_lt_one
  capacity_pos := Nat.lt_of_lt_of_le Nat.zero_lt_one (by decide : 1 ≤ FD_TABLE_INITIAL_SIZE)

/-- The array is rewritten, and everything else stays. -/
theorem Shares.withArray (h : table.Shares pc log) {a' : HeapArray ε} {log' : List (FdEvent ε)}
    (hcurrent : table.current pc' = table.current pc) (hsize : table.capacity ≤ a'.size)
    (hentries : ∀ fd, entry a' table.capacity fd = lastInserted log' fd)
    (hprepared : Prepared a' table.capacity pc') :
    (table.withArray (table.current pc) a').Shares pc' log' where
  array := by
    refine ⟨a', ?_, hsize, hentries, hprepared⟩
    rw [current_withArray, hcurrent]
    exact heap_withArray_self
  others := fun array hne => by
    rw [current_withArray, hcurrent] at hne
    rw [heap_withArray_of_ne hne]
    exact h.others array hne
  current_lt := by
    rw [current_withArray, hcurrent]
    exact h.current_lt
  endpoints_lt := h.endpoints_lt
  capacity_pos := h.capacity_pos

/-- The table stays as it is. -/
theorem Shares.same (h : table.Shares pc log) (hcurrent : table.current pc' = table.current pc)
    (hprepared : ∀ a, Prepared a table.capacity pc → Prepared a table.capacity pc') :
    table.Shares pc' log where
  array := by
    rcases h.array with ⟨a, ha, hsize, hentries, hold⟩
    exact ⟨a, hcurrent ▸ ha, hsize, hentries, hprepared a hold⟩
  others := fun array hne => h.others array (hcurrent ▸ hne)
  current_lt := hcurrent ▸ h.current_lt
  endpoints_lt := h.endpoints_lt
  capacity_pos := h.capacity_pos

/-- A lookup sees the same in the array that `realloc` answers. -/
theorem entry_realloc {a : HeapArray ε} {capacity new_size : Nat} (hsize : capacity ≤ a.size)
    (behind : Nat → Option ε) (fd : Int) :
    entry (a.realloc new_size behind) capacity fd = entry a capacity fd := by
  by_cases hfd : 0 ≤ fd ∧ fd < capacity
  · rw [entry, entry, if_pos hfd, if_pos hfd]
    exact if_pos (by omega)
  · rw [entry, entry, if_neg hfd, if_neg hfd]

/-- The new slots are empty. -/
theorem entry_widen {a : HeapArray ε} {capacity new_size : Nat} (hle : capacity ≤ new_size)
    (hzero : ∀ i, capacity ≤ i → i < new_size → a.slot i = none) (fd : Int) :
    entry a new_size fd = entry a capacity fd := by
  by_cases hin : 0 ≤ fd ∧ fd < capacity
  · rw [entry, entry, if_pos hin, if_pos (by omega)]
  · rw [entry, entry, if_neg hin]
    split
    · exact hzero _ (by omega) (by omega)
    · rfl

theorem entry_store {a : HeapArray ε} {capacity : Nat} {fd : Fd} (hfd : fd.val < capacity)
    (p : Option ε) (fd' : Int) :
    entry { a with slot := Function.update a.slot fd.val p } capacity fd' =
      if fd' = fd.toInt then p else entry a capacity fd' := by
  by_cases heq : fd' = fd.toInt
  · rw [if_pos heq, entry, heq]
    have hin : 0 ≤ fd.toInt ∧ fd.toInt < capacity := by
      rw [Fd.toInt]
      omega
    rw [if_pos hin]
    exact Function.update_self _ _ _
  · rw [if_neg heq, entry, entry]
    split
    · rename_i hin
      refine Function.update_of_ne ?_ _ _
      intro hval
      rw [Fd.toInt] at heq
      omega
    · rfl

/-- The array is moved, and `realloc` has copied it. -/
theorem Shares.moveArray {fd : Fd} {ep : ε} {new_size : Nat}
    (h : table.Shares (.realloc fd ep new_size) log) {a : HeapArray ε}
    (ha : table.heap table.endpoints = some a) (behind : Nat → Option ε) :
    (table.moveArray (a.realloc new_size behind)).Shares
        (.clear fd ep new_size table.allocated) log ∧
      (table.moveArray (a.realloc new_size behind)).Moves table := by
  rcases h.array with ⟨a', ha', hsize, hentries, hprepared⟩
  cases ha.symm.trans ha'
  have hfresh : table.endpoints ≠ table.allocated := Nat.ne_of_lt h.current_lt
  constructor
  · refine ⟨⟨_, Function.update_self _ _ _, hprepared.1, ?_, ?_⟩, ?_, Nat.lt_succ_self _,
      Nat.lt_succ_of_lt h.endpoints_lt, h.capacity_pos⟩
    · exact fun fd' => (entry_realloc hsize behind fd').trans (hentries fd')
    · exact ⟨hprepared.1, hprepared.2, le_refl _⟩
    · intro array hne
      refine (Function.update_of_ne hne _ _).trans ?_
      by_cases hold : array = table.endpoints
      · rw [hold]
        exact Function.update_self _ _ _
      · exact (Function.update_of_ne hold _ _).trans (h.others array hold)
  · refine ⟨le_refl _, Nat.le_succ _, fun array hlt => ?_⟩
    refine (Function.update_of_ne (Nat.ne_of_lt hlt) _ _).trans ?_
    by_cases hold : array = table.endpoints
    · rw [hold]
      exact Function.update_self _ _ _
    · exact (Function.update_of_ne hold _ _).trans (h.others array hold)

/-- One access of the insertion: it is defined, and only `realloc` takes the array away. -/
theorem Shares.insertStep (h : table.Shares pc log) {env : Reallocated ε}
    {r : Except Halt (SharedFds ε × FdInsertPc ε)} (hstep : table.insertStep env pc = some r) :
    ∃ table' pc', r = .ok (table', pc') ∧ table'.Shares pc' (pc.stored log) ∧
      (¬pc.TakesAway env ∧ table'.Keeps table ∨ pc.TakesAway env ∧ table'.Moves table) := by
  rcases h.array with ⟨a, ha, hsize, hentries, hprepared⟩
  cases pc with
  | idle => cases hstep
  | returned result => cases hstep
  | loadCapacity fd ep =>
      have hpos : 0 < table.capacity * 2 := Nat.mul_pos h.capacity_pos Nat.zero_lt_two
      simp only [SharedFds.insertStep, dif_pos hpos] at hstep
      split at hstep
      · cases hstep
        refine ⟨_, _, rfl, h.same rfl fun _ _ => ⟨?_, lt_doubledSize _ _ _⟩, Or.inl ⟨id, keeps_refl _⟩⟩
        have hdouble := le_doubledSize fd.val (table.capacity * 2) hpos
        omega
      · rename_i hroom
        cases hstep
        exact ⟨_, _, rfl, h.same rfl fun _ _ => Nat.not_le.1 hroom, Or.inl ⟨id, keeps_refl _⟩⟩
  | realloc fd ep new_size =>
      have ha' : table.heap table.endpoints = some a := ha
      simp only [SharedFds.insertStep, ha'] at hstep
      cases env with
      | failed =>
          cases hstep
          refine ⟨_, _, rfl, h.same rfl fun _ _ => trivial, Or.inl ⟨?_, keeps_refl _⟩⟩
          rintro ⟨_, hmoved⟩
          cases hmoved
      | inPlace behind =>
          cases hstep
          refine ⟨_, _, rfl, h.withArray rfl hprepared.1 ?_ ?_,
            Or.inl ⟨?_, keeps_withArray ha'⟩⟩
          · exact fun fd' => (entry_realloc hsize behind fd').trans (hentries fd')
          · exact ⟨hprepared.1, hprepared.2, le_refl _⟩
          · rintro ⟨_, hmoved⟩
            cases hmoved
      | moved behind =>
          cases hstep
          rcases h.moveArray ha' behind with ⟨hshares, hmoves⟩
          exact ⟨_, _, rfl, hshares, Or.inr ⟨⟨behind, rfl⟩, hmoves⟩⟩
  | clear fd ep new_size new_array =>
      have ha' : table.heap new_array = some a := ha
      rcases hprepared with ⟨hle, hfd, hnew⟩
      have hclear : table.capacity + (new_size - table.capacity) ≤ a.size := by omega
      simp only [SharedFds.insertStep, ha', HeapArray.clear, if_pos hclear] at hstep
      cases hstep
      refine ⟨_, _, rfl, h.withArray rfl hsize ?_ ⟨hle, hfd, hnew, ?_⟩,
        Or.inl ⟨id, keeps_withArray ha'⟩⟩
      · intro fd'
        refine Eq.trans ?_ (hentries fd')
        by_cases hin : 0 ≤ fd' ∧ fd' < table.capacity
        · rw [entry, entry, if_pos hin, if_pos hin]
          exact if_neg (by omega)
        · rw [entry, entry, if_neg hin, if_neg hin]
      · intro i hi hlt
        exact if_pos (by omega)
  | storeArray fd ep new_size new_array =>
      cases hstep
      refine ⟨_, _, rfl, ?_, Or.inl ⟨id, le_refl _, le_refl _, fun _ _ => rfl⟩⟩
      exact ⟨⟨a, ha, hsize, hentries, hprepared⟩, h.others, h.current_lt, h.current_lt,
        h.capacity_pos⟩
  | storeCapacity fd ep new_size =>
      rcases hprepared with ⟨hle, hfd, hnew, hzero⟩
      cases hstep
      refine ⟨_, _, rfl, ?_, Or.inl ⟨id, hle, le_refl _, fun _ _ => rfl⟩⟩
      refine ⟨⟨a, ha, hnew, ?_, hfd⟩, h.others, h.current_lt, h.endpoints_lt,
        Nat.lt_of_lt_of_le h.capacity_pos hle⟩
      exact fun fd' => (entry_widen hle hzero fd').trans (hentries fd')
  | storeSlot fd ep =>
      have ha' : table.heap table.endpoints = some a := ha
      have hfd : fd.val < a.size := Nat.lt_of_lt_of_le hprepared hsize
      simp only [SharedFds.insertStep, ha', HeapArray.store_of_lt hfd] at hstep
      cases hstep
      refine ⟨_, _, rfl, h.withArray rfl hsize ?_ trivial, Or.inl ⟨id, keeps_withArray ha'⟩⟩
      intro fd'
      rw [entry_store hprepared, hentries]
      rfl
  | raiseMaxFd fd =>
      cases hstep
      refine ⟨_, _, rfl, ?_, Or.inl ⟨id, le_refl _, le_refl _, fun _ _ => rfl⟩⟩
      exact ⟨⟨a, ha, hsize, hentries, trivial⟩, h.others, h.current_lt, h.endpoints_lt, h.capacity_pos⟩

/-! ## The table under a lookup -/

/-- What a lookup has found out about its descriptor stays true. -/
def Admits (table : SharedFds ε) : FdLookupPc ε → Prop
  | .loadCapacity fd => 0 ≤ fd
  | .loadArray fd => 0 ≤ fd ∧ fd < table.capacity
  | .loadSlot fd array => 0 ≤ fd ∧ fd < table.capacity ∧ array < table.allocated
  | _ => True

/-- The array that a lookup reads from is there. -/
def Alive (table : SharedFds ε) : FdLookupPc ε → Prop
  | .loadSlot _ array => (table.heap array).isSome
  | _ => True

/-- If a lookup loads the pointer, it leads to an array. -/
def Points (table : SharedFds ε) : FdLookupPc ε → Prop
  | .loadArray _ => (table.heap table.endpoints).isSome
  | _ => True

theorem alive_of_not_busy {pc : FdLookupPc ε} (h : pc.Busy = false) : table.Alive pc := by
  cases pc with
  | loadSlot fd array => cases h
  | _ => trivial

theorem Admits.mono {pc : FdLookupPc ε} (h : table.Admits pc)
    (hcapacity : table.capacity ≤ table'.capacity) (hallocated : table.allocated ≤ table'.allocated) :
    table'.Admits pc := by
  cases pc with
  | idle => trivial
  | loadCapacity fd => exact h
  | loadArray fd => exact ⟨h.1, by have := h.2; omega⟩
  | loadSlot fd array =>
      exact ⟨h.1, by have := h.2.1; omega, Nat.lt_of_lt_of_le h.2.2 hallocated⟩
  | returned fd found => trivial

theorem entry_eq_none_of_le {a : HeapArray ε} {capacity : Nat} {fd : Int} (h : capacity ≤ fd) :
    entry a capacity fd = none :=
  if_neg (by omega)

/-- One access of a lookup: it reads what is not there any more, or answers what was stored
last. -/
theorem Shares.lookupStep (h : table.Shares pc log) {lpc : FdLookupPc ε} (hadmits : table.Admits lpc)
    {r : Except Halt (FdLookupPc ε)} (hstep : table.lookupStep lpc = some r) :
    (r = .error .crash ∧ ¬table.Alive lpc) ∨
      ∃ lpc', r = .ok lpc' ∧ table.Admits lpc' ∧ table.Alive lpc ∧
        (table.Alive lpc' ↔ table.Points lpc) ∧
          ∀ fd found, lpc' = .returned fd found → found = lastInserted log fd := by
  rcases h.array with ⟨a, ha, hsize, hentries, _⟩
  cases lpc with
  | idle => cases hstep
  | returned fd found => cases hstep
  | loadCapacity fd =>
      simp only [SharedFds.lookupStep] at hstep
      split at hstep
      · rename_i hge
        cases hstep
        refine Or.inr ⟨_, rfl, trivial, trivial, Iff.rfl, ?_⟩
        rintro fd' found heq
        cases heq
        rw [← hentries, entry_eq_none_of_le hge]
      · rename_i hlt
        cases hstep
        refine Or.inr ⟨_, rfl, ⟨hadmits, by omega⟩, trivial, Iff.rfl, ?_⟩
        rintro fd' found heq
        cases heq
  | loadArray fd =>
      cases hstep
      refine Or.inr ⟨_, rfl, ⟨hadmits.1, hadmits.2, h.endpoints_lt⟩, trivial, Iff.rfl, ?_⟩
      rintro fd' found heq
      cases heq
  | loadSlot fd array =>
      by_cases hcurrent : array = table.current pc
      · have harray : table.heap array = some a := hcurrent ▸ ha
        have hin : fd.toNat < a.size := by
          have := hadmits.2.1
          have := hadmits.1
          omega
        simp only [SharedFds.lookupStep, harray, HeapArray.load_of_lt hin] at hstep
        cases hstep
        refine Or.inr ⟨_, rfl, trivial, ?_, Iff.rfl, ?_⟩
        · rw [Alive, harray]
          rfl
        · rintro fd' found heq
          cases heq
          rw [← hentries]
          exact (if_pos ⟨hadmits.1, hadmits.2.1⟩).symm
      · have hgone := h.others array hcurrent
        simp only [SharedFds.lookupStep, hgone] at hstep
        cases hstep
        refine Or.inl ⟨rfl, ?_⟩
        rw [Alive, hgone]
        exact Bool.false_ne_true

end SharedFds

/-! ## Runs -/

namespace FdUsers

variable {ε : Type} {n : Nat} {s t : FdUsers ε n} {a : FdAction ε n} {log : List (FdEvent ε)}

structure Consistent (s : FdUsers ε n) (log : List (FdEvent ε)) : Prop where
  shares : s.table.Shares s.inserter log
  admits : ∀ w, s.table.Admits (s.lookups w)

/-- No worker holds a pointer to an array that is not there any more. -/
def Fresh (s : FdUsers ε n) : Prop :=
  ∀ w, s.table.Alive (s.lookups w)

/-- `realloc` does not take away an array that a worker is about to read, and no worker loads the
pointer before it leads to the new array. -/
def Safe (s : FdUsers ε n) : FdAction ε n → Prop
  | .insertStep env => s.inserter.TakesAway env → ∀ w fd array, s.lookups w ≠ .loadSlot fd array
  | .lookupStep w => s.table.Points (s.lookups w)
  | _ => True

theorem consistent_start : (start ε n).Consistent [] where
  shares := SharedFds.shares_create
  admits := fun _ => trivial

theorem fresh_start : (start ε n).Fresh :=
  fun _ => trivial

theorem Consistent.atLookup (h : s.Consistent log) {w : Fin n} {pc : FdLookupPc ε}
    (hpc : s.table.Admits pc) : (s.atLookup w pc).Consistent log where
  shares := h.shares
  admits := (Function.forall_update_iff s.lookups fun _ pc => s.table.Admits pc).2
    ⟨hpc, fun w' _ => h.admits w'⟩

theorem fresh_atLookup {w : Fin n} {pc : FdLookupPc ε} (hw : s.table.Alive (s.lookups w)) :
    (s.atLookup w pc).Fresh ↔ s.Fresh ∧ s.table.Alive pc := by
  refine (Function.forall_update_iff s.lookups fun _ pc => s.table.Alive pc).trans ?_
  constructor
  · rintro ⟨hpc, hothers⟩
    refine ⟨fun w' => ?_, hpc⟩
    by_cases heq : w' = w
    · rw [heq]
      exact hw
    · exact hothers w' heq
  · rintro ⟨hfresh, hpc⟩
    exact ⟨hpc, fun w' _ => hfresh w'⟩

/-- A lookup that answers, answers what was stored last. -/
def AnswersLast (s t : FdUsers ε n) (log : List (FdEvent ε)) : Prop :=
  ∀ w fd found, t.lookups w = .returned fd found → s.lookups w ≠ .returned fd found →
    found = lastInserted log fd

theorem answersLast_of_same (h : t.lookups = s.lookups) : s.AnswersLast t log := by
  intro w fd found hreturned hnot
  rw [h] at hreturned
  exact absurd hreturned hnot

theorem answersLast_atLookup {w : Fin n} {pc : FdLookupPc ε}
    (hpc : ∀ fd found, pc = .returned fd found → found = lastInserted log fd) :
    s.AnswersLast (s.atLookup w pc) log := by
  intro w' fd found hreturned hnot
  by_cases heq : w' = w
  · have hself : (s.atLookup w pc).lookups w = pc := Function.update_self _ _ _
    rw [heq, hself] at hreturned
    exact hpc fd found hreturned
  · have hother : (s.atLookup w pc).lookups w' = s.lookups w' := Function.update_of_ne heq _ _
    rw [hother] at hreturned
    exact absurd hreturned hnot

/-- One step: it is undefined only where a worker reads what is not there any more. -/
theorem Consistent.step (h : s.Consistent log) {r : Except Halt (FdUsers ε n)}
    (hstep : s.step a = some r) :
    (r = .error .crash ∧ ¬s.Fresh) ∨
      ∃ t, r = .ok t ∧ t.Consistent (recordStores (.ok s) a r log) ∧ s.AnswersLast t log ∧
        (t.Fresh ↔ s.Fresh ∧ s.Safe a) := by
  cases a with
  | insert fd ep =>
      simp only [step] at hstep
      split at hstep
      · cases hstep
      · rename_i hbusy
        cases hstep
        refine Or.inr ⟨_, rfl, ⟨?_, h.admits⟩, answersLast_of_same rfl, (and_iff_left trivial).symm⟩
        exact h.shares.same (SharedFds.current_of_not_busy (Bool.eq_false_iff.2 hbusy)).symm
          fun _ _ => trivial
  | insertStep env =>
      simp only [step, Option.map_eq_some_iff] at hstep
      rcases hstep with ⟨r', hr', rfl⟩
      rcases h.shares.insertStep hr' with ⟨table', pc', rfl, hshares, hkeeps | hmoves⟩
      · rcases hkeeps with ⟨hnot, hkeeps⟩
        refine Or.inr ⟨_, rfl, ⟨hshares, ?_⟩, answersLast_of_same rfl, ?_⟩
        · exact fun w => (h.admits w).mono hkeeps.capacity hkeeps.allocated
        · have hsame : ∀ w, table'.Alive (s.lookups w) ↔ s.table.Alive (s.lookups w) := by
            intro w
            have hadmits := h.admits w
            cases hpc : s.lookups w with
            | loadSlot fd array =>
                rw [hpc] at hadmits
                rw [SharedFds.Alive, SharedFds.Alive, hkeeps.heap array hadmits.2.2]
            | _ => exact Iff.rfl
          exact (forall_congr' hsame).trans (and_iff_left fun htakes => absurd htakes hnot).symm
      · rcases hmoves with ⟨htakes, hmoves⟩
        refine Or.inr ⟨_, rfl, ⟨hshares, ?_⟩, answersLast_of_same rfl, ?_⟩
        · exact fun w => (h.admits w).mono hmoves.capacity hmoves.allocated
        · -- whoever holds a pointer now holds one to what is gone
          constructor
          · intro hfresh
            have hnone : ∀ w fd array, s.lookups w ≠ .loadSlot fd array := by
              intro w fd array hpc
              have hadmits := h.admits w
              have halive : table'.Alive (s.lookups w) := hfresh w
              rw [hpc] at hadmits halive
              rw [SharedFds.Alive, hmoves.heap array hadmits.2.2] at halive
              cases halive
            refine ⟨fun w => ?_, fun _ => hnone⟩
            cases hpc : s.lookups w with
            | loadSlot fd array => exact absurd hpc (hnone w fd array)
            | _ => trivial
          · rintro ⟨_, hsafe⟩ w
            change table'.Alive (s.lookups w)
            cases hpc : s.lookups w with
            | loadSlot fd array => exact absurd hpc (hsafe htakes w fd array)
            | _ => trivial
  | lookup w fd =>
      simp only [step] at hstep
      split at hstep
      · cases hstep
      · rename_i hbusy
        have hw : s.table.Alive (s.lookups w) := SharedFds.alive_of_not_busy (Bool.eq_false_iff.2 hbusy)
        split at hstep
        · rename_i hneg
          cases hstep
          refine Or.inr ⟨_, rfl, h.atLookup trivial, answersLast_atLookup ?_, fresh_atLookup hw⟩
          rintro fd' found heq
          cases heq
          rcases h.shares.array with ⟨a, _, _, hentries, _⟩
          rw [← hentries]
          exact (if_neg (by omega)).symm
        · rename_i hnonneg
          cases hstep
          refine Or.inr ⟨_, rfl, h.atLookup (Int.not_lt.1 hnonneg), answersLast_atLookup ?_,
            fresh_atLookup hw⟩
          rintro fd' found heq
          cases heq
  | lookupStep w =>
      simp only [step, Option.map_eq_some_iff] at hstep
      rcases hstep with ⟨r', hr', rfl⟩
      rcases h.shares.lookupStep (h.admits w) hr' with ⟨rfl, hdead⟩ | hdone
      · exact Or.inl ⟨rfl, fun hfresh => hdead (hfresh w)⟩
      · rcases hdone with ⟨pc, rfl, hadmits, halive, hpoints, hanswer⟩
        refine Or.inr ⟨_, rfl, h.atLookup hadmits, answersLast_atLookup hanswer, ?_⟩
        exact (fresh_atLookup halive).trans (and_congr_right fun _ => hpoints)

end FdUsers

section Runs

variable {ε : Type} {n : Nat}

/-- What holds after any steps, as long as none was undefined. -/
def Orderly (s : Except Halt (FdUsers ε n)) (log : List (FdEvent ε)) : Prop :=
  ∀ users, s = .ok users → users.Consistent log

theorem orderly_step {s t : Except Halt (FdUsers ε n)} {a : FdAction ε n} {log : List (FdEvent ε)}
    (h : Orderly s log) (hstep : (fdUsers ε n).step s a = some t) :
    Orderly t (recordStores s a t log) := by
  cases s with
  | error halt => cases hstep
  | ok users =>
      rcases (h users rfl).step hstep with ⟨rfl, _⟩ | ⟨t', rfl, hconsistent, _⟩
      · intro users' heq
        cases heq
      · intro users' heq
        cases heq
        exact hconsistent

/-- Whatever the interleaving, a lookup answers the pointer that was stored last under its
descriptor at the moment when it reads, or that there has been none. -/
theorem lookup_answers_last (as : List (FdAction ε n)) :
    ((fdUsers ε n).withHistory recordStores).EveryStep
      (fun s _ t => ∀ users users', s.1 = .ok users → t.1 = .ok users' →
        users.AnswersLast users' s.2) (.ok (FdUsers.start ε n), []) as := by
  have hall : ∀ a ∈ as, (fun _ : FdAction ε n => True) a := fun _ _ => trivial
  refine Machine.everyStep_of_forall (fun s => Orderly s.1 s.2) ?_ ?_ hall
  · rintro ⟨s, log⟩ a ⟨t, log'⟩ h _ hstep
    rcases Machine.withHistory_step.1 hstep with ⟨hs, hlog⟩
    have hlog' : log' = recordStores s a t log := hlog
    refine ⟨?_, ?_⟩
    · rw [hlog']
      exact orderly_step h hs
    · rintro users users' rfl rfl
      rcases (h users rfl).step hs with ⟨hcrash, _⟩ | ⟨t', heq, _, hanswers, _⟩
      · cases hcrash
      · cases heq
        exact hanswers
  · intro users heq
    cases heq
    exact FdUsers.consistent_start

/-- Every access was defined, and no worker holds a pointer to what is gone. -/
def Sound (s : Except Halt (FdUsers ε n)) : Prop :=
  ∃ users, s = .ok users ∧ users.Fresh

def SafeStep (s : Except Halt (FdUsers ε n)) (a : FdAction ε n) : Prop :=
  ∀ users, s = .ok users → users.Safe a

theorem sound_ok {users : FdUsers ε n} : Sound (.ok users) ↔ users.Fresh := by
  constructor
  · rintro ⟨_, heq, hfresh⟩
    cases heq
    exact hfresh
  · exact fun hfresh => ⟨users, rfl, hfresh⟩

theorem sound_step {s t : Except Halt (FdUsers ε n)} {a : FdAction ε n} {log : List (FdEvent ε)}
    (h : Orderly s log) (hstep : (fdUsers ε n).step s a = some t) :
    Sound t ↔ Sound s ∧ SafeStep s a := by
  cases s with
  | error halt => cases hstep
  | ok users =>
      have hsafe : SafeStep (.ok users) a ↔ users.Safe a := by
        constructor
        · exact fun hsafe => hsafe users rfl
        · rintro hsafe _ heq
          cases heq
          exact hsafe
      rw [sound_ok, hsafe]
      rcases (h users rfl).step hstep with ⟨rfl, hstale⟩ | ⟨t', rfl, _, _, hfresh⟩
      · refine iff_of_false ?_ fun hboth => hstale hboth.1
        rintro ⟨_, hcrash, _⟩
        cases hcrash
      · rw [sound_ok]
        exact hfresh

theorem orderly_start : Orderly (.ok (FdUsers.start ε n)) [] := by
  intro users heq
  cases heq
  exact FdUsers.consistent_start

theorem sound_iff_safe {t : Except Halt (FdUsers ε n)} {as : List (FdAction ε n)}
    (h : (fdUsers ε n).run (.ok (FdUsers.start ε n)) as = some t) :
    Sound t ↔ (fdUsers ε n).Guarded SafeStep (.ok (FdUsers.start ε n)) as := by
  have henv : (fdUsers ε n).Guarded (fun _ _ => True) (.ok (FdUsers.start ε n)) as :=
    Machine.guarded_of_forall (fun _ _ => trivial) _ _
  refine Machine.good_iff_guarded (fun s => ∃ log, Orderly s log) Sound (fun _ => True)
    (fun _ _ _ _ _ => trivial) ?_ ⟨[], orderly_start⟩ (sound_ok.2 FdUsers.fresh_start) henv h
    trivial
  rintro s a t ⟨log, hs⟩ _ hstep _
  exact ⟨⟨_, orderly_step hs hstep⟩, sound_step hs hstep⟩

/-- When no worker is about to read from the array any more, no access was undefined exactly if
all steps were safe. -/
theorem defined_iff_safe {t : Except Halt (FdUsers ε n)} {as : List (FdAction ε n)}
    (h : (fdUsers ε n).run (.ok (FdUsers.start ε n)) as = some t)
    (hquiet : ∀ users, t = .ok users → ∀ w fd array, users.lookups w ≠ .loadSlot fd array) :
    (∃ users, t = .ok users) ↔
      (fdUsers ε n).Guarded SafeStep (.ok (FdUsers.start ε n)) as := by
  rw [← sound_iff_safe h]
  constructor
  · rintro ⟨users, rfl⟩
    refine sound_ok.2 fun w => ?_
    cases hpc : users.lookups w with
    | loadSlot fd array => exact absurd hpc (hquiet users rfl w fd array)
    | _ => trivial
  · rintro ⟨users, rfl, _⟩
    exact ⟨users, rfl⟩

/-- A worker loads the pointer before the array is moved, and reads from it afterwards. -/
theorem defined_iff_safe_moved :
    (∃ users, (.error .crash : Except Halt (FdUsers Nat 1)) = .ok users) ↔
      (fdUsers Nat 1).Guarded SafeStep (.ok (FdUsers.start Nat 1))
        [.insert 1024 7, .insertStep .failed, .lookup 0 5, .lookupStep 0,
          .lookupStep 0, .insertStep (.moved fun _ => none), .lookupStep 0] :=
  defined_iff_safe rfl fun users h => by cases h

/-! ## Few descriptors -/

/-- The array never has to grow. -/
def FewFds (s : FdUsers ε n) : Prop :=
  s.table.capacity = FD_TABLE_INITIAL_SIZE ∧
    match s.inserter with
    | .loadCapacity fd _ => fd.val < FD_TABLE_INITIAL_SIZE
    | .realloc _ _ _ | .clear _ _ _ _ | .storeArray _ _ _ _ | .storeCapacity _ _ _ => False
    | _ => True

theorem FewFds.step {s : FdUsers ε n} {a : FdAction ε n} {log : List (FdEvent ε)}
    (h : FewFds s) (hs : s.Consistent log) {r : Except Halt (FdUsers ε n)}
    (hfd : ∀ fd ep, a = .insert fd ep → fd.val < FD_TABLE_INITIAL_SIZE)
    (hstep : s.step a = some r) : s.Safe a ∧ ∀ t, r = .ok t → FewFds t := by
  rcases h with ⟨hcapacity, hpc⟩
  cases a with
  | insert fd ep =>
      simp only [FdUsers.step] at hstep
      split at hstep
      · cases hstep
      · cases hstep
        refine ⟨trivial, ?_⟩
        rintro _ ⟨⟩
        exact ⟨hcapacity, hfd fd ep rfl⟩
  | insertStep env =>
      simp only [FdUsers.step, Option.map_eq_some_iff] at hstep
      rcases hstep with ⟨r', hr', rfl⟩
      rw [FdUsers.Safe]
      cases hinserter : s.inserter with
      | loadCapacity fd ep =>
          rw [hinserter] at hpc hr'
          have hroom : ¬fd.val ≥ s.table.capacity := by
            rw [hcapacity]
            exact Nat.not_le.2 hpc
          simp only [SharedFds.insertStep, if_neg hroom] at hr'
          cases hr'
          refine ⟨fun htakes => htakes.elim, ?_⟩
          rintro _ ⟨⟩
          exact ⟨hcapacity, trivial⟩
      | storeSlot fd ep =>
          refine ⟨fun htakes => htakes.elim, ?_⟩
          rw [hinserter] at hr'
          simp only [SharedFds.insertStep] at hr'
          split at hr'
          · cases hr'
            rintro _ ⟨⟩
          · cases hr'
            rw [HeapArray.store]
            split
            · rintro _ ⟨⟩
              exact ⟨hcapacity, trivial⟩
            · rintro _ ⟨⟩
      | raiseMaxFd fd =>
          rw [hinserter] at hr'
          cases hr'
          refine ⟨fun htakes => htakes.elim, ?_⟩
          rintro _ ⟨⟩
          exact ⟨hcapacity, trivial⟩
      | idle | returned result =>
          rw [hinserter] at hr'
          cases hr'
      | realloc _ _ _ | clear _ _ _ _ | storeArray _ _ _ _ | storeCapacity _ _ _ =>
          rw [hinserter] at hpc
          exact hpc.elim
  | lookup w fd =>
      refine ⟨trivial, ?_⟩
      simp only [FdUsers.step] at hstep
      split at hstep
      · cases hstep
      · split at hstep
        all_goals
          cases hstep
          rintro _ ⟨⟩
          exact ⟨hcapacity, hpc⟩
  | lookupStep w =>
      have hcurrent : s.table.current s.inserter = s.table.endpoints := by
        cases hinserter : s.inserter with
        | clear _ _ _ _ | storeArray _ _ _ _ =>
            rw [hinserter] at hpc
            exact hpc.elim
        | _ => rfl
      rcases hs.shares.array with ⟨a, ha, _⟩
      rw [hcurrent] at ha
      refine ⟨?_, ?_⟩
      · change s.table.Points (s.lookups w)
        cases s.lookups w with
        | loadArray fd =>
            rw [SharedFds.Points, ha]
            rfl
        | _ => trivial
      · simp only [FdUsers.step, Option.map_eq_some_iff] at hstep
        rcases hstep with ⟨r', _, rfl⟩
        cases r' with
        | error halt => rintro _ ⟨⟩
        | ok pc =>
            rintro _ ⟨⟩
            exact ⟨hcapacity, hpc⟩

/-- As long as every descriptor fits into the array as it was created, no access is undefined. -/
theorem defined_of_few {t : Except Halt (FdUsers ε n)} {as : List (FdAction ε n)}
    (hfd : ∀ a ∈ as, ∀ fd ep, a = .insert fd ep → fd.val < FD_TABLE_INITIAL_SIZE)
    (h : (fdUsers ε n).run (.ok (FdUsers.start ε n)) as = some t) : ∃ users, t = .ok users := by
  have hend := Machine.invariant_run_of_forall (M := fdUsers ε n)
    (fun s => ∃ log, Orderly s log ∧ Sound s ∧ ∀ users, s = .ok users → FewFds users) ?_ ?_ hfd h
  · rcases hend with ⟨_, _, ⟨users, heq, _⟩, _⟩
    exact ⟨users, heq⟩
  · rintro s a t ⟨log, hs, hsound, hfew⟩ hkind hstep
    cases s with
    | error halt => cases hstep
    | ok users =>
        rcases (hfew users rfl).step (hs users rfl) hkind hstep with ⟨hsafe, hnext⟩
        refine ⟨_, orderly_step hs hstep, (sound_step hs hstep).2 ⟨hsound, ?_⟩, hnext⟩
        rintro _ ⟨⟩
        exact hsafe
  · refine ⟨[], orderly_start, sound_ok.2 FdUsers.fresh_start, ?_⟩
    rintro _ ⟨⟩
    exact ⟨rfl, trivial⟩

theorem defined_of_few_stored :
    ∃ users, (fdUsers Nat 1).run (.ok (FdUsers.start Nat 1))
      [.insert 5 7, .insertStep .failed, .lookup 0 5, .insertStep .failed, .lookupStep 0,
        .lookupStep 0, .lookupStep 0] = some (.ok users) := by
  have hfd : ∀ a ∈ ([.insert 5 7, .insertStep .failed, .lookup 0 5, .insertStep .failed,
      .lookupStep 0, .lookupStep 0, .lookupStep 0] : List (FdAction Nat 1)),
      ∀ fd ep, a = .insert fd ep → fd.val < FD_TABLE_INITIAL_SIZE := by
    rintro a ha fd ep rfl
    simp only [List.mem_cons, FdAction.insert.injEq, reduceCtorEq, List.not_mem_nil,
      or_false] at ha
    rw [ha.1]
    decide
  have hrun : ∃ t, (fdUsers Nat 1).run (.ok (FdUsers.start Nat 1))
      [.insert 5 7, .insertStep .failed, .lookup 0 5, .insertStep .failed, .lookupStep 0,
        .lookupStep 0, .lookupStep 0] = some t := ⟨_, rfl⟩
  rcases hrun with ⟨t, ht⟩
  rcases defined_of_few hfd ht with ⟨users, rfl⟩
  exact ⟨users, ht⟩

end Runs

end Io
end EVdeSwitch
