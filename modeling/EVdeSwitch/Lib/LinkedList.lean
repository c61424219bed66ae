import Mathlib.Data.List.Nodup
import Mathlib.Logic.Function.Basic

/-!
# LinkedList — chains of links that end

A singly linked list is a head and a link out of every cell.  `Linked next head cells` says that
the links lead from `head` through exactly the cells `cells` to the null pointer; a cell can then
not come twice, for the chain behind it would have to be two different lists.
-/

namespace EVdeSwitch
namespace Lib

universe u

variable {α : Type u}

/-- Following the links from `head` visits `cells`, in this order, and ends. -/
def Linked (next : α → Option α) : Option α → List α → Prop
  | head, [] => head = none
  | head, cell :: cells => head = some cell ∧ Linked next (next cell) cells

/-- The cells that following the links from `head` visits, at most `fuel` of them. -/
def follow (next : α → Option α) : Nat → Option α → List α
  | 0, _ => []
  | _ + 1, none => []
  | fuel + 1, some cell => cell :: follow next fuel (next cell)

namespace Linked

variable {next : α → Option α} {head : Option α} {cells : List α}

theorem head_eq (h : Linked next head cells) : head = cells.head? := by
  cases cells with
  | nil => exact h
  | cons cell cells => exact h.1

theorem follow_eq (h : Linked next head cells) {fuel : Nat} (hfuel : cells.length ≤ fuel) :
    follow next fuel head = cells := by
  induction cells generalizing head fuel with
  | nil =>
      have hhead : head = none := h
      subst hhead
      cases fuel <;> rfl
  | cons cell cells ih =>
      rcases h with ⟨rfl, hrest⟩
      cases fuel with
      | zero => cases hfuel
      | succ fuel => exact congrArg (cell :: ·) (ih hrest (Nat.le_of_succ_le_succ hfuel))

/-- The links determine the chain. -/
theorem unique {cells' : List α} (h : Linked next head cells) (h' : Linked next head cells') :
    cells = cells' := by
  induction cells generalizing head cells' with
  | nil =>
      cases cells' with
      | nil => rfl
      | cons cell' cells' => exact absurd (h.symm.trans h'.1) (by simp)
  | cons cell cells ih =>
      cases cells' with
      | nil => exact absurd (h'.symm.trans h.1) (by simp)
      | cons cell' cells' =>
          have hcell : cell = cell' := Option.some.inj (h.1.symm.trans h'.1)
          subst hcell
          rw [ih h.2 h'.2]

/-- The chain can be entered at any of its cells. -/
theorem tail {before after : List α} {cell : α} (h : Linked next head (before ++ cell :: after)) :
    Linked next (some cell) (cell :: after) := by
  induction before generalizing head with
  | nil => exact ⟨rfl, h.2⟩
  | cons first before ih => exact ih h.2

/-- Behind every cell of a chain there is a shorter chain. -/
theorem exists_suffix {cell : α} (h : Linked next head cells) (hcell : cell ∈ cells) :
    ∃ rest, (cell :: rest) <:+ cells ∧ Linked next (next cell) rest := by
  induction cells generalizing head with
  | nil => cases hcell
  | cons first cells ih =>
      rcases List.mem_cons.1 hcell with rfl | hmem
      · exact ⟨cells, List.suffix_refl _, h.2⟩
      · rcases ih h.2 hmem with ⟨rest, hrest, hlinked⟩
        exact ⟨rest, hrest.trans (List.suffix_cons first cells), hlinked⟩

/-- A chain that ends has no cycle. -/
theorem nodup (h : Linked next head cells) : cells.Nodup := by
  induction cells generalizing head with
  | nil => exact List.nodup_nil
  | cons cell cells ih =>
      refine List.nodup_cons.2 ⟨?_, ih h.2⟩
      intro hcell
      -- the chain behind the second occurrence is that behind the first
      rcases exists_suffix h.2 hcell with ⟨rest, hsuffix, hrest⟩
      have hlength := hsuffix.length_le
      rw [unique hrest h.2, List.length_cons] at hlength
      omega

/-- Links out of other cells do not matter. -/
theorem congr {next' : α → Option α} (h : Linked next head cells)
    (hsame : ∀ cell ∈ cells, next' cell = next cell) : Linked next' head cells := by
  induction cells generalizing head with
  | nil => exact h
  | cons cell cells ih =>
      refine ⟨h.1, ?_⟩
      rw [hsame cell List.mem_cons_self]
      exact ih h.2 fun other hother => hsame other (List.mem_cons_of_mem _ hother)

/-- A new cell in front, linked to the old head. -/
theorem cons [DecidableEq α] {cell : α} (h : Linked next head cells) (hnew : cell ∉ cells) :
    Linked (Function.update next cell head) (some cell) (cell :: cells) := by
  refine ⟨rfl, ?_⟩
  rw [Function.update_self]
  refine h.congr fun other hother => Function.update_of_ne ?_ _ _
  rintro rfl
  exact hnew hother

/-- Where every link descends, the chain from any head ends. -/
theorem exists_of_wellFounded {r : α → α → Prop} (hwf : WellFounded r) {P : α → Prop}
    (hnext : ∀ cell, P cell → ∀ cell', next cell = some cell' → P cell' ∧ r cell' cell)
    (hhead : ∀ cell, head = some cell → P cell) :
    ∃ cells, Linked next head cells ∧ ∀ cell ∈ cells, P cell := by
  cases head with
  | none => exact ⟨[], rfl, fun cell hcell => absurd hcell List.not_mem_nil⟩
  | some cell =>
      have hcell : P cell := hhead cell rfl
      clear hhead
      induction cell using hwf.induction with
      | _ cell ih =>
          cases hlink : next cell with
          | none => exact ⟨[cell], ⟨rfl, hlink⟩, by simpa using hcell⟩
          | some cell' =>
              rcases hnext cell hcell cell' hlink with ⟨hcell', hless⟩
              rcases ih cell' hless hcell' with ⟨cells, hlinked, hall⟩
              refine ⟨cell :: cells, ⟨rfl, hlink ▸ hlinked⟩, ?_⟩
              intro other hother
              rcases List.mem_cons.1 hother with rfl | hmem
              · exact hcell
              · exact hall other hmem

end Linked

end Lib
end EVdeSwitch
