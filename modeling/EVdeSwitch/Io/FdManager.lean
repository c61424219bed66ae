import Mathlib.Logic.Function.Basic
import EVdeSwitch.Utils.Word64

/-!
# FdManager — endpoints by file descriptor

The table that leads from the descriptor a packet was received on to its endpoint
(`src/io/fd_manager.c`).  An endpoint is never changed after it has been set up, so a pointer to
it is modelled by its contents.
-/

namespace EVdeSwitch
namespace Io

open EVdeSwitch.Utils

/-- `endpoint`; the link `next` is the order of the list of endpoints, and `descr` is never set.
`alloc_port` lets no negative number through. -/
structure Endpoint where
  port : Nat
  fd_data : Fd
  deriving DecidableEq, Repr

/-- No endpoint has the port -1, the answer of the MAC table for an unknown address. -/
theorem Endpoint.port_ne_neg_one (ep : Endpoint) : (ep.port : Int) ≠ -1 := by
  have hnonneg : (0 : Int) ≤ ep.port := Int.natCast_nonneg ep.port
  omega

def FD_TABLE_INITIAL_SIZE : Nat := 1024

/-- `fd_table_t` -/
structure FdTable where
  endpoints : Nat → Option Endpoint
  capacity : Nat
  max_fd : Nat
  capacity_pos : 0 < capacity

def fdTableCreate : FdTable :=
  { endpoints := fun _ => none
    capacity := FD_TABLE_INITIAL_SIZE
    max_fd := 0
    capacity_pos := by decide }

/-- `while (new_size <= new_fd) new_size *= 2` -/
def doubledSize (new_fd new_size : Nat) (h : 0 < new_size) : Nat :=
  if hle : new_size ≤ new_fd then
    doubledSize new_fd (new_size * 2) (by omega)
  else
    new_size
termination_by new_fd + 1 - new_size

theorem le_doubledSize (new_fd new_size : Nat) (h : 0 < new_size) :
    new_size ≤ doubledSize new_fd new_size h := by
  fun_induction doubledSize new_fd new_size h with
  | case1 new_size h hle ih => omega
  | case2 new_size h hle => exact le_refl _

theorem lt_doubledSize (new_fd new_size : Nat) (h : 0 < new_size) :
    new_fd < doubledSize new_fd new_size h := by
  fun_induction doubledSize new_fd new_size h with
  | case1 new_size h hle ih => exact ih
  | case2 new_size h hle => exact Nat.lt_of_not_le hle

/-- Grow the array if it is too small; `none` where `realloc` fails.  The new slots are zeroed. -/
def fdTableResize (table : FdTable) (new_fd : Nat) (reallocated : Bool) : Option FdTable :=
  if new_fd ≥ table.capacity then
    if reallocated then
      some
        { table with
          endpoints := fun fd => if fd < table.capacity then table.endpoints fd else none
          capacity := doubledSize new_fd (table.capacity * 2) (by
            have hpos := table.capacity_pos
            omega)
          capacity_pos := by
            have hpos := table.capacity_pos
            refine lt_of_lt_of_le ?_ (le_doubledSize _ _ _)
            omega }
    else
      none
  else
    some table

/-- The result, and the table; `max_fd` is only ever raised. -/
def fdTableInsert (table : FdTable) (fd : Fd) (ep : Endpoint) (reallocated : Bool) :
    Int × FdTable :=
  match fdTableResize table fd.val reallocated with
  -- Out of memory
  | none => (-1, table)
  | some table =>
      (0, { table with
        endpoints := Function.update table.endpoints fd.val (some ep)
        max_fd := max table.max_fd fd.val })

def fdTableLookup (table : FdTable) (fd : Int) : Option Endpoint :=
  if fd < 0 ∨ fd ≥ table.capacity then none else table.endpoints fd.toNat

/-! ## The table as a map -/

/-- A slot outside the array reads as empty, before and after it has been grown. -/
theorem fdTableLookup_resize {table grown : FdTable} {new_fd : Nat}
    (h : fdTableResize table new_fd true = some grown) (fd : Int) :
    fdTableLookup grown fd = fdTableLookup table fd := by
  by_cases hge : new_fd ≥ table.capacity
  · simp only [fdTableResize, if_pos hge, if_true, Option.some.injEq] at h
    have hpos := table.capacity_pos
    have hle : table.capacity * 2 ≤ doubledSize new_fd (table.capacity * 2) (by omega) :=
      le_doubledSize _ _ _
    rw [← h]
    simp only [fdTableLookup]
    by_cases hold : fd < 0 ∨ fd ≥ table.capacity
    · rw [if_pos hold]
      by_cases hout : fd < 0 ∨ fd ≥ doubledSize new_fd (table.capacity * 2) (by omega)
      · -- outside both arrays
        exact if_pos hout
      · -- a new slot
        rw [if_neg hout, if_neg (by omega)]
    · rw [if_neg hold, if_neg (by omega), if_pos (by omega)]
  · simp only [fdTableResize, if_neg hge, Option.some.injEq] at h
    rw [h]

theorem lt_capacity_resize {table grown : FdTable} {new_fd : Nat}
    (h : fdTableResize table new_fd true = some grown) : new_fd < grown.capacity := by
  by_cases hge : new_fd ≥ table.capacity
  · simp only [fdTableResize, if_pos hge, if_true, Option.some.injEq] at h
    rw [← h]
    exact lt_doubledSize _ _ _
  · simp only [fdTableResize, if_neg hge, Option.some.injEq] at h
    rw [← h]
    exact Nat.lt_of_not_le hge

theorem exists_fdTableResize (table : FdTable) (new_fd : Nat) :
    ∃ grown, fdTableResize table new_fd true = some grown := by
  by_cases hge : new_fd ≥ table.capacity <;> simp [fdTableResize, hge]

/-- With memory to grow, an insertion changes the one entry. -/
theorem fdTableLookup_insert (table : FdTable) (fd : Fd) (ep : Endpoint) (fd' : Int) :
    fdTableLookup (fdTableInsert table fd ep true).2 fd' =
      if fd' = fd.toInt then some ep else fdTableLookup table fd' := by
  rcases exists_fdTableResize table fd.val with ⟨grown, hgrown⟩
  have hlt := lt_capacity_resize hgrown
  rw [← fdTableLookup_resize hgrown fd']
  simp only [fdTableInsert, hgrown, fdTableLookup]
  by_cases hfd : fd' = fd.toInt
  · subst hfd
    have hin : ¬ (fd.toInt < 0 ∨ fd.toInt ≥ grown.capacity) := by
      rw [Fd.toInt]
      omega
    rw [if_neg hin, if_pos rfl]
    exact Function.update_self _ _ _
  · by_cases hout : fd' < 0 ∨ fd' ≥ grown.capacity
    · rw [if_pos hout, if_neg hfd, if_pos hout]
    · -- another slot of the array
      have hne : fd'.toNat ≠ fd.val := by
        intro heq
        refine hfd ?_
        rw [Fd.toInt]
        omega
      rw [if_neg hout, if_neg hfd, if_neg hout, Function.update_of_ne hne]

/-- There is room for the descriptor, or memory to make it. -/
def HasRoom (table : FdTable) (fd : Fd) (reallocated : Bool) : Prop :=
  fd.val < table.capacity ∨ reallocated = true

instance decidableHasRoom (table : FdTable) (fd : Fd) (reallocated : Bool) :
    Decidable (HasRoom table fd reallocated) :=
  inferInstanceAs (Decidable (fd.val < table.capacity ∨ reallocated = true))

/-- An insertion that finds its room is one with memory to grow; one that does not changes
nothing. -/
theorem fdTableInsert_cases (table : FdTable) (fd : Fd) (ep : Endpoint) (reallocated : Bool) :
    (HasRoom table fd reallocated ∧
        fdTableInsert table fd ep reallocated = fdTableInsert table fd ep true) ∨
      (¬ HasRoom table fd reallocated ∧ fdTableInsert table fd ep reallocated = (-1, table)) := by
  cases reallocated with
  | true => exact Or.inl ⟨Or.inr rfl, rfl⟩
  | false =>
      by_cases hge : fd.val ≥ table.capacity
      · exact Or.inr (by simp [HasRoom, fdTableInsert, fdTableResize, hge])
      · exact Or.inl (by simp [HasRoom, fdTableInsert, fdTableResize, hge, Nat.lt_of_not_le hge])

/-- What is found after an insertion is new, or was there before. -/
theorem fdTableLookup_insert_eq_some {table : FdTable} {fd : Fd} {ep found : Endpoint}
    {reallocated : Bool} {fd' : Int}
    (h : fdTableLookup (fdTableInsert table fd ep reallocated).2 fd' = some found) :
    (fd' = fd.toInt ∧ found = ep) ∨ fdTableLookup table fd' = some found := by
  rcases fdTableInsert_cases table fd ep reallocated with ⟨_, heq⟩ | ⟨_, heq⟩
  · rw [heq, fdTableLookup_insert] at h
    by_cases hfd : fd' = fd.toInt
    · simp only [if_pos hfd, Option.some.injEq] at h
      exact Or.inl ⟨hfd, h.symm⟩
    · simp only [if_neg hfd] at h
      exact Or.inr h
  · rw [heq] at h
    exact Or.inr h

end Io
end EVdeSwitch
