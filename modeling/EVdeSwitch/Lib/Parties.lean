import Mathlib.Algebra.BigOperators.Group.Finset.Basic
import Mathlib.Data.Fintype.Basic

/-!
# Parties — what the parties of a system hold together

What a finite number of parties hold is a sum over them, of numbers or of multisets.  When one
party moves, one summand changes.
-/

namespace EVdeSwitch
namespace Lib

universe u v w

variable {ι : Type u} [Fintype ι] [DecidableEq ι] {π : Type v} {μ : Type w} [AddCommMonoid μ]

/-- One party moves from the state `parties i` to `p`. -/
theorem sum_update_add (share : π → μ) (parties : ι → π) (i : ι) (p : π) :
    ∑ j, share (Function.update parties i p j) + share (parties i) =
      ∑ j, share (parties j) + share p := by
  have hrest : ∑ j ∈ Finset.univ.erase i, share (Function.update parties i p j) =
      ∑ j ∈ Finset.univ.erase i, share (parties j) := by
    refine Finset.sum_congr rfl fun j hj => ?_
    rw [Function.update_of_ne (Finset.ne_of_mem_erase hj)]
  calc
    ∑ j, share (Function.update parties i p j) + share (parties i)
        = share p + ∑ j ∈ Finset.univ.erase i, share (parties j) + share (parties i) := by
          rw [← Finset.add_sum_erase _ _ (Finset.mem_univ i), hrest, Function.update_self]
    _ = share (parties i) + ∑ j ∈ Finset.univ.erase i, share (parties j) + share p := by
          rw [add_comm (share p), add_right_comm, add_comm _ (share (parties i))]
    _ = ∑ j, share (parties j) + share p := by
          rw [Finset.add_sum_erase _ (fun j => share (parties j)) (Finset.mem_univ i)]

end Lib
end EVdeSwitch
