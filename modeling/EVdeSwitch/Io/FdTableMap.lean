import EVdeSwitch.Io.FdManager
import EVdeSwitch.Lib.History
import EVdeSwitch.Utils.Logging

/-!
# FdTableMap — the table of descriptors as a map

`src/io/fd_manager.c` with its words and its array as they are in memory: an `int` has 32 bits,
`size_t` has 64, the doubled size can wrap around, and an access outside the array is undefined.
None of this happens.  The table answers as the map from descriptors that its history of insertions
and removals describes.
-/

namespace EVdeSwitch
namespace Io

open EVdeSwitch.Lib
open EVdeSwitch.Utils

/-! ## Arrays of pointers -/

/-- An array on the heap: for how many pointers it has room, and what they are. -/
structure HeapArray (ε : Type) where
  size : Nat
  slot : Nat → Option ε

namespace HeapArray

variable {ε : Type}

def load (a : HeapArray ε) (i : Nat) : Except Halt (Option ε) :=
  if i < a.size then .ok (a.slot i) else .error .crash

def store (a : HeapArray ε) (i : Nat) (p : Option ε) : Except Halt (HeapArray ε) :=
  if i < a.size then .ok { a with slot := Function.update a.slot i p } else .error .crash

/-- What was in the array stays, as far as there is room; behind it is anything. -/
def realloc (a : HeapArray ε) (size : Nat) (behind : Nat → Option ε) : HeapArray ε :=
  { size := size
    slot := fun i => if i < a.size then a.slot i else behind i }

/-- `memset` of `count` pointers from `start` on, to zero. -/
def clear (a : HeapArray ε) (start count : Nat) : Except Halt (HeapArray ε) :=
  if start + count ≤ a.size then
    .ok { a with slot := fun i => if start ≤ i ∧ i < start + count then none else a.slot i }
  else
    .error .crash

theorem load_of_lt {a : HeapArray ε} {i : Nat} (h : i < a.size) : a.load i = .ok (a.slot i) :=
  if_pos h

theorem store_of_lt {a : HeapArray ε} {i : Nat} (h : i < a.size) (p : Option ε) :
    a.store i p = .ok { a with slot := Function.update a.slot i p } :=
  if_pos h

end HeapArray

/-! ## `fd_manager.c` -/

/-- `fd_table_t`; the table does not look at what the pointers lead to. -/
structure FdTableWords (ε : Type) where
  endpoints : HeapArray ε
  capacity : BitVec 64
  max_fd : BitVec 64

def SIZEOF_POINTER : BitVec 64 := 8

/-- What happens in an insertion: the result of `realloc` with what is in the new memory, and how
often the weak exchange fails for no reason. -/
structure FdInsertEnv (ε : Type) where
  reallocated : Bool
  behind : Nat → Option ε
  spurious : Nat

namespace FdTableWords

variable {ε : Type}

def create : FdTableWords ε :=
  { endpoints := { size := FD_TABLE_INITIAL_SIZE, slot := fun _ => none }
    capacity := BitVec.ofNat 64 FD_TABLE_INITIAL_SIZE
    max_fd := 0 }

/-- `while (new_size <= new_fd) new_size *= 2`, for at most `fuel` tests of the condition. -/
def doubleWhile : Nat → BitVec 64 → BitVec 64 → Option (BitVec 64)
  | 0, _, _ => none
  | fuel + 1, new_fd, new_size =>
      if new_size ≤ new_fd then doubleWhile fuel new_fd (new_size * 2) else some new_size

/-- After 64 doublings the word is 0; the loop has ended before, or it does not end, which is
`none`. -/
def doubled (new_fd new_size : BitVec 64) : Option (BitVec 64) :=
  doubleWhile 65 new_fd new_size

/-- The result and the table. -/
def resize (table : FdTableWords ε) (new_fd : BitVec 64) (env : FdInsertEnv ε) :
    Option (Except Halt (Int × FdTableWords ε)) :=
  if new_fd ≥ table.capacity then
    (doubled new_fd (table.capacity * 2)).map fun new_size =>
      if env.reallocated then
        let bytes := new_size * SIZEOF_POINTER
        let new_array := table.endpoints.realloc (bytes.toNat / SIZEOF_POINTER.toNat) env.behind
        -- `memset` clears only what is behind the old capacity
        let zeroed := (new_size - table.capacity) * SIZEOF_POINTER
        (new_array.clear table.capacity.toNat (zeroed.toNat / SIZEOF_POINTER.toNat)).map
          fun new_array =>
            (0, { table with
              endpoints := new_array
              capacity := new_size })
      else
        .ok (-1, table)
  else
    some (.ok (0, table))

/-- The loop around the weak exchange, from a value of `max_fd` that has been loaded; nobody else
changes it. -/
def raiseMaxFd (fd max_fd : BitVec 64) : Nat → BitVec 64
  | 0 => if fd > max_fd then fd else max_fd
  | spurious + 1 => if fd > max_fd then raiseMaxFd fd max_fd spurious else max_fd

def insert (table : FdTableWords ε) (fd : Fd) (ep : Option ε) (env : FdInsertEnv ε) :
    Option (Except Halt (Int × FdTableWords ε)) :=
  let word := BitVec.ofInt 64 fd.toInt
  (table.resize word env).map fun r =>
    r.bind fun (result, table) =>
      if result < 0 then
        .ok (-1, table)
      else
        (table.endpoints.store fd.val ep).map fun endpoints =>
          (0, { table with
            endpoints := endpoints
            max_fd := raiseMaxFd word table.max_fd env.spurious })

/-- For the comparison with `capacity` the `int` becomes a `size_t`. -/
def lookup (table : FdTableWords ε) (fd : BitVec 32) : Except Halt (Option ε) :=
  if fd.toInt < 0 ∨ fd.signExtend 64 ≥ table.capacity then .ok none
  else table.endpoints.load fd.toInt.toNat

def remove (table : FdTableWords ε) (fd : BitVec 32) : Except Halt (FdTableWords ε) :=
  if fd.toInt ≥ 0 ∧ fd.signExtend 64 < table.capacity then
    (table.endpoints.store fd.toInt.toNat none).map fun endpoints =>
      { table with endpoints := endpoints }
  else
    .ok table

/-! ## The doubling loop -/

/-- A doubling starts from a size that is not above the descriptor. -/
theorem doubledSize_le {new_fd new_size : Nat} (h : 0 < new_size) (hle : new_size ≤ 2 * new_fd) :
    doubledSize new_fd new_size h ≤ 2 * new_fd := by
  fun_induction doubledSize new_fd new_size h with
  | case1 new_size h hloop ih => exact ih (by omega)
  | case2 new_size h hloop => exact hle

/-- With enough fuel the loop over words is that over natural numbers. -/
theorem doubleWhile_eq {fuel : Nat} {new_fd new_size : BitVec 64} (h : 0 < new_size.toNat)
    (hfd : new_fd.toNat < 2 ^ 31) (hsize : new_size.toNat < 2 ^ 32)
    (hfuel : new_fd.toNat < new_size.toNat * 2 ^ fuel) :
    ∃ n, doubleWhile (fuel + 1) new_fd new_size = some n ∧
      n.toNat = doubledSize new_fd.toNat new_size.toNat h := by
  -- the fuel bounds how often the size still has to double to get above the descriptor
  induction fuel generalizing new_size with
  | zero =>
      have hgt : ¬ new_size ≤ new_fd := by
        rw [BitVec.le_def]
        omega
      refine ⟨new_size, by rw [doubleWhile, if_neg hgt], ?_⟩
      rw [doubledSize, dif_neg (by omega)]
  | succ fuel ih =>
      by_cases hle : new_size ≤ new_fd
      · have hle' : new_size.toNat ≤ new_fd.toNat := BitVec.le_def.1 hle
        have hdouble : (new_size * 2).toNat = new_size.toNat * 2 := by
          refine BitVec.toNat_mul_of_lt ?_
          change new_size.toNat * 2 < 2 ^ 64
          omega
        have hfuel' : new_fd.toNat < (new_size * 2).toNat * 2 ^ fuel := by
          rw [hdouble, Nat.mul_assoc, ← Nat.pow_succ']
          exact hfuel
        rcases ih (by omega) (by omega) hfuel' with ⟨n, hrun, hn⟩
        refine ⟨n, by rw [doubleWhile, if_pos hle, hrun], ?_⟩
        rw [hn, doubledSize.eq_def new_fd.toNat new_size.toNat, dif_pos hle']
        simp only [hdouble]
      · refine ⟨new_size, by rw [doubleWhile, if_neg hle], ?_⟩
        rw [doubledSize, dif_neg (fun h => hle (BitVec.le_def.2 h))]

/-! ## The functions on a well-formed table -/

/-- The array has room for `capacity` pointers. -/
structure Inv (table : FdTableWords ε) : Prop where
  sized : table.endpoints.size = table.capacity.toNat
  pos : 0 < table.capacity.toNat
  lt : table.capacity.toNat < 2 ^ 32

/-- The array may have grown to have a place for the descriptor; new slots are empty. -/
structure Grows (table grown : FdTableWords ε) (fd : Fd) : Prop where
  inv : grown.Inv
  lt : fd.val < grown.capacity.toNat
  capacity_le : table.capacity.toNat ≤ grown.capacity.toNat
  capacity_eq : ∀ hpos, grown.capacity.toNat =
    if fd.val < table.capacity.toNat then table.capacity.toNat
    else doubledSize fd.val (table.capacity.toNat * 2) hpos
  kept : ∀ i < table.capacity.toNat, grown.endpoints.slot i = table.endpoints.slot i
  zeroed : ∀ i, table.capacity.toNat ≤ i → i < grown.capacity.toNat →
    grown.endpoints.slot i = none
  max_fd : grown.max_fd = table.max_fd

variable {table table' grown : FdTableWords ε} {fd : Fd} {ep : Option ε} {env : FdInsertEnv ε}

theorem inv_create : (create : FdTableWords ε).Inv where
  sized := rfl
  pos := by
    change 0 < (BitVec.ofNat 64 FD_TABLE_INITIAL_SIZE).toNat
    decide
  lt := by
    change (BitVec.ofNat 64 FD_TABLE_INITIAL_SIZE).toNat < 2 ^ 32
    decide

theorem Inv.grows_self (h : table.Inv) (hlt : fd.val < table.capacity.toNat) :
    table.Grows table fd where
  inv := h
  lt := hlt
  capacity_le := le_refl _
  capacity_eq := fun _ => (if_pos hlt).symm
  kept := fun _ _ => rfl
  zeroed := fun _ hle hlt => absurd hlt (Nat.not_lt.2 hle)
  max_fd := rfl

theorem toNat_word (fd : Fd) : (BitVec.ofInt 64 fd.toInt).toNat = fd.val := by
  have hlt : fd.val < 2 ^ 32 := lt_trans fd.lt (by decide)
  rw [Fd.toInt]
  exact ofInt_natCast_toNat hlt

theorem Inv.double_pos (h : table.Inv) : 0 < table.capacity.toNat * 2 :=
  Nat.mul_pos h.pos Nat.two_pos

/-- The loop ends, and no product wraps around. -/
theorem Inv.doubled_eq (h : table.Inv) (hge : table.capacity.toNat ≤ fd.val) :
    ∃ n, doubled (BitVec.ofInt 64 fd.toInt) (table.capacity * 2) = some n ∧
      n.toNat = doubledSize fd.val (table.capacity.toNat * 2) h.double_pos ∧
      fd.val < n.toNat ∧ table.capacity.toNat ≤ n.toNat ∧ n.toNat < 2 ^ 32 := by
  have hfd := fd.lt
  have hpos := h.pos
  have hdouble : (table.capacity * 2).toNat = table.capacity.toNat * 2 := by
    refine BitVec.toNat_mul_of_lt ?_
    change table.capacity.toNat * 2 < 2 ^ 64
    omega
  have hfuel : (BitVec.ofInt 64 fd.toInt).toNat < (table.capacity * 2).toNat * 2 ^ 64 := by
    rw [toNat_word, hdouble]
    omega
  rcases doubleWhile_eq (by omega) (by rw [toNat_word]; exact hfd) (by omega) hfuel with
    ⟨n, hrun, hn⟩
  simp only [toNat_word, hdouble] at hn
  -- a descriptor is below 2 ^ 31, so a size of at most twice that is below 2 ^ 32
  have hle : doubledSize fd.val (table.capacity.toNat * 2) h.double_pos ≤ 2 * fd.val :=
    doubledSize_le _ (by omega)
  have hgt := lt_doubledSize fd.val (table.capacity.toNat * 2) h.double_pos
  refine ⟨n, hrun, hn, ?_, ?_, ?_⟩
  · rw [hn]
    exact hgt
  · rw [hn]
    omega
  · rw [hn]
    omega

/-- The table with an array of `n` pointers, the new ones cleared. -/
def grownTo (table : FdTableWords ε) (n : BitVec 64) (behind : Nat → Option ε) : FdTableWords ε :=
  { table with
    endpoints :=
      { size := n.toNat
        slot := fun i =>
          if table.capacity.toNat ≤ i ∧
              i < table.capacity.toNat + (n.toNat - table.capacity.toNat) then
            none
          else if i < table.endpoints.size then
            table.endpoints.slot i
          else
            behind i }
    capacity := n }

/-- The bytes of `n` pointers have room for them. -/
theorem toNat_pointers {n : BitVec 64} (hlt : n.toNat < 2 ^ 32) :
    (n * SIZEOF_POINTER).toNat / SIZEOF_POINTER.toNat = n.toNat := by
  have hfits : n.toNat * SIZEOF_POINTER.toNat < 2 ^ 64 := by
    change n.toNat * 8 < 2 ^ 64
    omega
  rw [BitVec.toNat_mul_of_lt hfits]
  exact Nat.mul_div_cancel _ (by decide)

theorem Inv.grows_grownTo (h : table.Inv) {n : BitVec 64} (behind : Nat → Option ε)
    (hn : n.toNat = doubledSize fd.val (table.capacity.toNat * 2) h.double_pos)
    (hfd : fd.val < n.toNat) (hge : table.capacity.toNat ≤ fd.val)
    (hle : table.capacity.toNat ≤ n.toNat) (hlt : n.toNat < 2 ^ 32) :
    table.Grows (table.grownTo n behind) fd where
  inv := ⟨rfl, lt_of_lt_of_le h.pos hle, hlt⟩
  lt := hfd
  capacity_le := hle
  capacity_eq := fun _ => hn.trans (if_neg (Nat.not_lt.2 hge)).symm
  kept := by
    intro i hi
    -- the part that `memset` clears begins behind the old slots
    have hold : ¬ (table.capacity.toNat ≤ i ∧
        i < table.capacity.toNat + (n.toNat - table.capacity.toNat)) := by omega
    have hin : i < table.endpoints.size := by
      rw [h.sized]
      exact hi
    simp only [grownTo, if_neg hold, if_pos hin]
  zeroed := by
    intro i hi hin
    have hnew : table.capacity.toNat ≤ i ∧
        i < table.capacity.toNat + (n.toNat - table.capacity.toNat) := by
      have hin : i < n.toNat := hin
      omega
    simp only [grownTo, if_pos hnew]
  max_fd := rfl

/-- There is room already, or there is no memory, or the array grows. -/
theorem Inv.resize_cases (h : table.Inv) (fd : Fd) (env : FdInsertEnv ε) :
    (fd.val < table.capacity.toNat ∧
        table.resize (BitVec.ofInt 64 fd.toInt) env = some (.ok (0, table))) ∨
      (table.capacity.toNat ≤ fd.val ∧ env.reallocated = false ∧
        table.resize (BitVec.ofInt 64 fd.toInt) env = some (.ok (-1, table))) ∨
      (table.capacity.toNat ≤ fd.val ∧ env.reallocated = true ∧
        ∃ grown, table.resize (BitVec.ofInt 64 fd.toInt) env = some (.ok (0, grown)) ∧
          table.Grows grown fd) := by
  rcases Nat.lt_or_ge fd.val table.capacity.toNat with hlt | hge
  · refine Or.inl ⟨hlt, ?_⟩
    have hroom : ¬ BitVec.ofInt 64 fd.toInt ≥ table.capacity := by
      rw [ge_iff_le, BitVec.le_def, toNat_word]
      omega
    rw [resize, if_neg hroom]
  · have hgrow : BitVec.ofInt 64 fd.toInt ≥ table.capacity := by
      rw [ge_iff_le, BitVec.le_def, toNat_word]
      exact hge
    rcases h.doubled_eq hge with ⟨n, hrun, hn, hfd, hle, hlt⟩
    cases hmem : env.reallocated with
    | false =>
        refine Or.inr (Or.inl ⟨hge, rfl, ?_⟩)
        rw [resize, if_pos hgrow, hrun]
        simp only [Option.map_some, hmem, Bool.false_eq_true, if_false]
    | true =>
        have hbytes := toNat_pointers hlt
        -- the capacity has grown, so the difference of the two words does not wrap around
        have hrest : (n - table.capacity).toNat = n.toNat - table.capacity.toNat :=
          BitVec.toNat_sub_of_le (BitVec.le_def.2 hle)
        have hzeroed : ((n - table.capacity) * SIZEOF_POINTER).toNat / SIZEOF_POINTER.toNat =
            n.toNat - table.capacity.toNat := by
          rw [toNat_pointers (by omega), hrest]
        have hfits : table.capacity.toNat + (n.toNat - table.capacity.toNat) ≤ n.toNat := by omega
        refine Or.inr (Or.inr
          ⟨hge, rfl, table.grownTo n env.behind, ?_, h.grows_grownTo env.behind hn hfd hge hle hlt⟩)
        rw [resize, if_pos hgrow, hrun]
        simp only [Option.map_some, hmem, if_true, hbytes, hzeroed, HeapArray.clear,
          HeapArray.realloc, if_pos hfits, Except.map, grownTo]

theorem raiseMaxFd_eq (fd max_fd : BitVec 64) (spurious : Nat) :
    (raiseMaxFd fd max_fd spurious).toNat = max max_fd.toNat fd.toNat := by
  -- an exchange that fails for no reason repeats the loop with the same value
  induction spurious with
  | zero =>
      rw [raiseMaxFd]
      split
      · rename_i hgt
        exact (Nat.max_eq_right (Nat.le_of_lt (BitVec.lt_def.1 hgt))).symm
      · rename_i hle
        exact (Nat.max_eq_left (BitVec.le_def.1 (BitVec.not_lt.1 hle))).symm
  | succ spurious ih =>
      rw [raiseMaxFd]
      split
      · exact ih
      · rename_i hle
        exact (Nat.max_eq_left (BitVec.le_def.1 (BitVec.not_lt.1 hle))).symm

/-- The table with another pointer in a slot. -/
def withSlot (table : FdTableWords ε) (i : Nat) (p : Option ε) : FdTableWords ε :=
  { table with
    endpoints := { table.endpoints with slot := Function.update table.endpoints.slot i p } }

/-- The table after an insertion into an array that has room. -/
def inserted (table : FdTableWords ε) (fd : Fd) (ep : Option ε) (spurious : Nat) :
    FdTableWords ε :=
  { table.withSlot fd.val ep with
    max_fd := raiseMaxFd (BitVec.ofInt 64 fd.toInt) table.max_fd spurious }

/-- An insertion fails for want of memory and changes nothing, or it stores the pointer. -/
theorem Inv.insert_cases (h : table.Inv) (fd : Fd) (ep : Option ε) (env : FdInsertEnv ε) :
    (table.capacity.toNat ≤ fd.val ∧ env.reallocated = false ∧
        table.insert fd ep env = some (.ok (-1, table))) ∨
      ((fd.val < table.capacity.toNat ∨ env.reallocated = true) ∧ ∃ grown, table.Grows grown fd ∧
        table.insert fd ep env = some (.ok (0, grown.inserted fd ep env.spurious))) := by
  -- with room in the array neither the store nor the loop on `max_fd` can fail
  have hstore : ∀ {grown : FdTableWords ε}, table.Grows grown fd →
      table.resize (BitVec.ofInt 64 fd.toInt) env = some (.ok (0, grown)) →
      table.insert fd ep env = some (.ok (0, grown.inserted fd ep env.spurious)) := by
    intro grown hgrows hresize
    have hin : fd.val < grown.endpoints.size := by
      rw [hgrows.inv.sized]
      exact hgrows.lt
    simp only [insert, hresize, Option.map_some, Except.bind, HeapArray.store_of_lt hin, Except.map,
      inserted, withSlot]
    rfl
  rcases h.resize_cases fd env with
    ⟨hlt, hresize⟩ | ⟨hge, hmem, hresize⟩ | ⟨_, hmem, grown, hresize, hgrows⟩
  · have hgrows : table.Grows table fd := h.grows_self hlt
    exact Or.inr ⟨Or.inl hlt, table, hgrows, hstore hgrows hresize⟩
  · refine Or.inl ⟨hge, hmem, ?_⟩
    simp only [insert, hresize, Option.map_some, Except.bind]
    rfl
  · exact Or.inr ⟨Or.inr hmem, grown, hgrows, hstore hgrows hresize⟩

/-! ## The table as a map -/

/-- What the table has under an `int`. -/
def entryAt (table : FdTableWords ε) (fd : Int) : Option ε :=
  if 0 ≤ fd ∧ fd < table.capacity.toNat then table.endpoints.slot fd.toNat else none

theorem entryAt_create (fd : Int) : (create : FdTableWords ε).entryAt fd = none := by
  rw [entryAt, create]
  split <;> rfl

/-- The comparison of an `int` that is not negative with a `size_t`. -/
theorem signExtend_lt_iff {fd : BitVec 32} {capacity : BitVec 64} (h : 0 ≤ fd.toInt) :
    fd.signExtend 64 < capacity ↔ fd.toInt < capacity.toNat := by
  -- the sign bit is clear, so the extension adds zeros
  have hsign : fd.msb = false := BitVec.msb_eq_false_iff_two_mul_lt.2 (by
    rw [BitVec.toInt_eq_toNat_cond] at h
    split at h <;> omega)
  have hint : fd.toInt = fd.toNat := BitVec.toInt_eq_toNat_of_msb hsign
  rw [BitVec.lt_def, BitVec.signExtend_eq_setWidth_of_msb_false hsign, BitVec.toNat_setWidth_of_le
    (by decide), hint]
  omega

theorem Inv.lookup_eq (h : table.Inv) (fd : BitVec 32) :
    table.lookup fd = .ok (table.entryAt fd.toInt) := by
  rcases lt_or_ge fd.toInt 0 with hneg | hnonneg
  · rw [lookup, if_pos (Or.inl hneg), entryAt, if_neg (by omega)]
  · by_cases hlt : fd.signExtend 64 < table.capacity
    · have hin : fd.toInt < table.capacity.toNat := (signExtend_lt_iff hnonneg).1 hlt
      have hload : fd.toInt.toNat < table.endpoints.size := by
        rw [h.sized]
        omega
      have hout : ¬ (fd.toInt < 0 ∨ fd.signExtend 64 ≥ table.capacity) := by
        rintro (hneg | hge)
        · omega
        · exact absurd hlt (BitVec.not_lt.2 hge)
      rw [lookup, if_neg hout, HeapArray.load_of_lt hload, entryAt, if_pos ⟨hnonneg, hin⟩]
    · have hin : ¬ fd.toInt < table.capacity.toNat := fun hin => hlt ((signExtend_lt_iff hnonneg).2 hin)
      rw [lookup, if_pos (Or.inr (BitVec.not_lt.1 hlt)), entryAt, if_neg (fun h => hin h.2)]

theorem Grows.entryAt (h : table.Grows grown fd) (i : Int) :
    grown.entryAt i = table.entryAt i := by
  have hle := h.capacity_le
  rw [FdTableWords.entryAt, FdTableWords.entryAt]
  by_cases hold : 0 ≤ i ∧ i < table.capacity.toNat
  · rw [if_pos hold, if_pos (by omega), h.kept _ (by omega)]
  · rw [if_neg hold]
    -- what the array has grown by is empty, and the old table has nothing there either
    by_cases hnew : 0 ≤ i ∧ i < grown.capacity.toNat
    · rw [if_pos hnew, h.zeroed _ (by omega) (by omega)]
    · rw [if_neg hnew]

theorem entryAt_withSlot {i : Nat} (hlt : i < table.capacity.toNat) (p : Option ε) (j : Int) :
    (table.withSlot i p).entryAt j = if j = i then p else table.entryAt j := by
  by_cases heq : j = i
  · subst heq
    have hin : (0 : Int) ≤ i ∧ (i : Int) < table.capacity.toNat := by omega
    rw [if_pos rfl, entryAt, withSlot, if_pos hin]
    exact Function.update_self i p table.endpoints.slot
  · rw [if_neg heq, entryAt, entryAt, withSlot]
    by_cases hin : 0 ≤ j ∧ j < table.capacity.toNat
    · have hne : j.toNat ≠ i := by omega
      rw [if_pos hin, if_pos hin]
      exact Function.update_of_ne hne p table.endpoints.slot
    · rw [if_neg hin, if_neg hin]

theorem entryAt_inserted (hlt : fd.val < table.capacity.toNat) (spurious : Nat) (i : Int) :
    (table.inserted fd ep spurious).entryAt i =
      if i = fd.toInt then ep else table.entryAt i :=
  entryAt_withSlot hlt ep i

theorem Inv.inserted (h : table.Inv) (fd : Fd) (ep : Option ε) (spurious : Nat) :
    (table.inserted fd ep spurious).Inv where
  sized := h.sized
  pos := h.pos
  lt := h.lt

/-- A removal empties the one slot. -/
theorem Inv.remove_cases (h : table.Inv) (fd : BitVec 32) :
    ∃ table', table.remove fd = .ok table' ∧ table'.Inv ∧ table'.max_fd = table.max_fd ∧
      ∀ i, table'.entryAt i = if i = fd.toInt then none else table.entryAt i := by
  by_cases hin : fd.toInt ≥ 0 ∧ fd.signExtend 64 < table.capacity
  · have hlt : fd.toInt < table.capacity.toNat := (signExtend_lt_iff hin.1).1 hin.2
    have hstore : fd.toInt.toNat < table.endpoints.size := by
      rw [h.sized]
      omega
    have hremove : table.remove fd = .ok (table.withSlot fd.toInt.toNat none) := by
      rw [remove, if_pos hin, HeapArray.store_of_lt hstore, Except.map, withSlot]
    refine ⟨_, hremove, ⟨h.sized, h.pos, h.lt⟩, rfl, ?_⟩
    intro i
    rw [entryAt_withSlot (by omega), Int.toNat_of_nonneg hin.1]
  · refine ⟨table, by rw [remove, if_neg hin], h, rfl, ?_⟩
    intro i
    -- a descriptor without a slot was not in the table
    by_cases heq : i = fd.toInt
    · subst heq
      have hout : ¬ (0 ≤ fd.toInt ∧ fd.toInt < table.capacity.toNat) := by
        rintro ⟨hnonneg, hlt⟩
        exact hin ⟨hnonneg, (signExtend_lt_iff hnonneg).2 hlt⟩
      rw [if_pos rfl, entryAt, if_neg hout]
    · rw [if_neg heq]

theorem max_fd_inserted (table : FdTableWords ε) (fd : Fd) (ep : Option ε) (spurious : Nat) :
    (table.inserted fd ep spurious).max_fd.toNat = max table.max_fd.toNat fd.val := by
  rw [inserted, raiseMaxFd_eq, toNat_word]

/-! ## The contents of the table -/

/-- The table with its words has the contents of the table of `FdManager`. -/
structure Represents (table : FdTableWords Endpoint) (contents : FdTable) : Prop where
  inv : table.Inv
  capacity : table.capacity.toNat = contents.capacity
  entries : ∀ i, table.entryAt i = fdTableLookup contents i
  max_fd : table.max_fd.toNat = contents.max_fd

section Contents

variable {table : FdTableWords Endpoint} {contents : FdTable}

theorem represents_create : create.Represents fdTableCreate where
  inv := inv_create
  capacity := rfl
  entries := fun i => by
    rw [entryAt_create, fdTableLookup]
    split <;> rfl
  max_fd := rfl

theorem Represents.lookup (h : table.Represents contents) (fd : BitVec 32) :
    table.lookup fd = .ok (fdTableLookup contents fd.toInt) := by
  rw [h.inv.lookup_eq, h.entries]

/-- The two tables give the same result, and stay together. -/
theorem Represents.insert (h : table.Represents contents) (fd : Fd) (ep : Endpoint)
    (env : FdInsertEnv Endpoint) :
    ∃ table', table.insert fd (some ep) env =
        some (.ok ((fdTableInsert contents fd ep env.reallocated).1, table')) ∧
      table'.Represents (fdTableInsert contents fd ep env.reallocated).2 := by
  rcases h.inv.insert_cases fd (some ep) env with ⟨hge, hmem, hfail⟩ | ⟨hroom, grown, hgrows, hdone⟩
  · rw [h.capacity] at hge
    have hsame : fdTableInsert contents fd ep env.reallocated = (-1, contents) := by
      simp [fdTableInsert, fdTableResize, hge, hmem]
    rw [hsame]
    exact ⟨table, hfail, h⟩
  · rw [h.capacity] at hroom
    -- whether `realloc` succeeds matters only where the array has to grow
    have hdone' : fdTableInsert contents fd ep env.reallocated =
        fdTableInsert contents fd ep true := by
      rcases hroom with hlt | hmem
      · simp [fdTableInsert, fdTableResize, Nat.not_le.2 hlt]
      · rw [hmem]
    rw [hdone']
    rcases exists_fdTableResize contents fd.val with ⟨larger, hlarger⟩
    have hinsert : fdTableInsert contents fd ep true = (0, { larger with
        endpoints := Function.update larger.endpoints fd.val (some ep)
        max_fd := max larger.max_fd fd.val }) := by
      simp only [fdTableInsert, hlarger]
    -- both tables double to the same capacity
    have hlarger' : larger.max_fd = contents.max_fd ∧
        grown.capacity.toNat = larger.capacity := by
      rw [hgrows.capacity_eq h.inv.double_pos]
      by_cases hge : fd.val ≥ contents.capacity
      · simp only [fdTableResize, if_pos hge, if_true, Option.some.injEq] at hlarger
        subst hlarger
        simp only [h.capacity, if_neg (Nat.not_lt.2 hge), and_self]
      · simp only [fdTableResize, if_neg hge, Option.some.injEq] at hlarger
        subst hlarger
        simp only [h.capacity, if_pos (Nat.lt_of_not_ge hge), and_self]
    refine ⟨_, by rw [hdone, hinsert], ?_⟩
    refine
      { inv := hgrows.inv.inserted fd (some ep) env.spurious
        capacity := ?_
        entries := fun i => ?_
        max_fd := ?_ }
    · rw [hinsert]
      exact hlarger'.2
    · rw [entryAt_inserted hgrows.lt, hgrows.entryAt, h.entries, fdTableLookup_insert]
    · rw [hinsert, max_fd_inserted, hgrows.max_fd, h.max_fd, hlarger'.1]

end Contents

/-! ## Runs -/

inductive FdCall (ε : Type) where
  | insert (fd : Fd) (ep : Option ε) (env : FdInsertEnv ε)
  | lookup (fd : BitVec 32)
  | remove (fd : BitVec 32)

/-- What has happened to the table; an insertion that has failed is no event. -/
inductive FdEvent (ε : Type) where
  | inserted (fd : Fd) (ep : Option ε)
  | removed (fd : BitVec 32)

/-- The map of a history, the newest event first. -/
def lastInserted : List (FdEvent ε) → Int → Option ε
  | [], _ => none
  | .inserted fd ep :: log, i => if i = fd.toInt then ep else lastInserted log i
  | .removed fd :: log, i => if i = fd.toInt then none else lastInserted log i

def largestFd : List (FdEvent ε) → Nat
  | [] => 0
  | .inserted fd _ :: log => max (largestFd log) fd.val
  | .removed _ :: log => largestFd log

/-- The calls one after the other; nothing follows an undefined access, and a call that does not
return is no step. -/
def fdTables : Machine (Except Halt (FdTableWords ε)) (FdCall ε) where
  step
    | .error _, _ => none
    | .ok table, .insert fd ep env => (table.insert fd ep env).map fun r => r.map Prod.snd
    | .ok table, .lookup fd => some ((table.lookup fd).map fun _ => table)
    | .ok table, .remove fd => some (table.remove fd)

def recordFd : Except Halt (FdTableWords ε) → FdCall ε → Except Halt (FdTableWords ε) →
    List (FdEvent ε) → List (FdEvent ε)
  | .ok table, .insert fd ep env, _, log =>
      match table.insert fd ep env with
      | some (.ok (0, _)) => .inserted fd ep :: log
      | _ => log
  | _, .remove fd, _, log => .removed fd :: log
  | _, _, _, log => log

/-- The table holds what its history says. -/
structure Holds (table : FdTableWords ε) (log : List (FdEvent ε)) : Prop where
  inv : table.Inv
  entries : ∀ i, table.entryAt i = lastInserted log i
  max_fd : table.max_fd.toNat = largestFd log

variable {log : List (FdEvent ε)}

theorem holds_create : (create : FdTableWords ε).Holds [] where
  inv := inv_create
  entries := entryAt_create
  max_fd := rfl

theorem Holds.inserted (h : table.Holds log) (hgrows : table.Grows grown fd) (ep : Option ε)
    (spurious : Nat) : (grown.inserted fd ep spurious).Holds (.inserted fd ep :: log) where
  inv := hgrows.inv.inserted fd ep spurious
  entries := fun i => by
    rw [entryAt_inserted hgrows.lt, hgrows.entryAt, h.entries, lastInserted]
  max_fd := by
    rw [max_fd_inserted, hgrows.max_fd, h.max_fd, largestFd]

/-- One step: a call comes back, and the table holds what the history says with this call. -/
theorem Holds.step (h : table.Holds log) (call : FdCall ε) :
    ∃ table' log', (fdTables.withHistory recordFd).step (.ok table, log) call =
      some (.ok table', log') ∧ table'.Holds log' := by
  cases call with
  | insert fd ep env =>
      rcases h.inv.insert_cases fd ep env with ⟨_, _, hfail⟩ | ⟨_, grown, hgrows, hdone⟩
      -- an insertion that fails is no event
      · refine ⟨table, log, ?_, h⟩
        refine Machine.withHistory_step.2 ⟨?_, ?_⟩
        · simp only [fdTables, hfail, Option.map_some, Except.map]
        · simp only [recordFd, hfail]
      · refine ⟨_, .inserted fd ep :: log, ?_, h.inserted hgrows ep env.spurious⟩
        refine Machine.withHistory_step.2 ⟨?_, ?_⟩
        · simp only [fdTables, hdone, Option.map_some, Except.map]
        · simp only [recordFd, hdone]
  | lookup fd =>
      refine ⟨table, log, ?_, h⟩
      refine Machine.withHistory_step.2 ⟨?_, rfl⟩
      simp only [fdTables, h.inv.lookup_eq, Except.map]
  | remove fd =>
      rcases h.inv.remove_cases fd with ⟨table', hremove, hinv, hmax, hentries⟩
      refine ⟨table', .removed fd :: log, ?_, ?_⟩
      · refine Machine.withHistory_step.2 ⟨?_, rfl⟩
        simp only [fdTables, hremove]
      · refine
          { inv := hinv
            entries := fun i => ?_
            max_fd := (congrArg BitVec.toNat hmax).trans h.max_fd }
        rw [hentries, h.entries, lastInserted]

theorem Holds.run (h : table.Holds log) (calls : List (FdCall ε)) :
    ∃ table' log', (fdTables.withHistory recordFd).run (.ok table, log) calls =
      some (.ok table', log') ∧ table'.Holds log' := by
  induction calls generalizing table log with
  | nil => exact ⟨table, log, rfl, h⟩
  | cons call calls ih =>
      rcases h.step call with ⟨table₁, log₁, hstep, hnext⟩
      rcases ih hnext with ⟨table', log', hrest, hend⟩
      exact ⟨table', log', Machine.run_cons_of_step _ hstep hrest, hend⟩

/-- The insertion comes back.  It has failed, for want of memory only, and the table is the one
before; or the pointer is in its place, and all other descriptors lead where they led. -/
def Inserts (table : FdTableWords ε) (fd : Fd) (ep : Option ε) (env : FdInsertEnv ε) : Prop :=
  (table.insert fd ep env = some (.ok (-1, table)) ∧
      table.capacity.toNat ≤ fd.val ∧ env.reallocated = false) ∨
    ∃ table', table.insert fd ep env = some (.ok (0, table')) ∧
      ∀ i : BitVec 32, table'.lookup i = if i.toInt = fd.toInt then .ok ep else table.lookup i

/-- The loop that looks for a size above the descriptor ends, with the size it would have without
a bound on words, and the bytes that are asked for can be counted by a word. -/
def Doubles (table : FdTableWords ε) (fd : Fd) : Prop :=
  ∃ n hpos, doubled (BitVec.ofInt 64 fd.toInt) (table.capacity * 2) = some n ∧
    n.toNat = doubledSize fd.val (table.capacity.toNat * 2) hpos ∧ fd.val < n.toNat ∧
    n.toNat * SIZEOF_POINTER.toNat < 2 ^ 64

theorem Inv.inserts (h : table.Inv) (fd : Fd) (ep : Option ε) (env : FdInsertEnv ε) :
    table.Inserts fd ep env := by
  rcases h.insert_cases fd ep env with ⟨hge, hmem, hfail⟩ | ⟨_, grown, hgrows, hdone⟩
  · exact Or.inl ⟨hfail, hge, hmem⟩
  · refine Or.inr ⟨_, hdone, fun i => ?_⟩
    have hinv := hgrows.inv.inserted fd ep env.spurious
    rw [hinv.lookup_eq, h.lookup_eq, entryAt_inserted hgrows.lt, hgrows.entryAt]
    exact apply_ite Except.ok _ _ _

theorem Inv.doubles (h : table.Inv) (hge : table.capacity.toNat ≤ fd.val) : table.Doubles fd := by
  rcases h.doubled_eq hge with ⟨n, hrun, hn, hfd, _, hlt⟩
  refine ⟨n, h.double_pos, hrun, hn, hfd, ?_⟩
  change n.toNat * 8 < 2 ^ 64
  omega

/-- Whatever the calls are and whether or not there is memory, they all come back, and the table
is the map of what has happened to it. -/
theorem fdTable_refines_map (calls : List (FdCall ε)) :
    ∃ table log, (fdTables.withHistory recordFd).run (.ok create, []) calls =
        some (.ok table, log) ∧
      table.endpoints.size = table.capacity.toNat ∧
      (∀ fd, table.lookup fd = .ok (lastInserted log fd.toInt)) ∧
      (∀ fd ep env, table.Inserts fd ep env) ∧
      (∀ fd : Fd, table.capacity.toNat ≤ fd.val → table.Doubles fd) ∧
      (∀ fd, ∃ table', table.remove fd = .ok table') ∧
      table.max_fd.toNat = largestFd log := by
  rcases holds_create.run calls with ⟨table, log, hrun, h⟩
  refine ⟨table, log, hrun, h.inv.sized, ?_, h.inv.inserts, fun _ => h.inv.doubles, ?_, h.max_fd⟩
  · intro fd
    rw [h.inv.lookup_eq, h.entries]
  · intro fd
    rcases h.inv.remove_cases fd with ⟨table', hremove, _⟩
    exact ⟨table', hremove⟩

end FdTableWords

end Io
end EVdeSwitch
