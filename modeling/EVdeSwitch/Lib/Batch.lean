import Mathlib.Data.List.Basic

/-!
# Batch — loops over the indices of a batch, as programs

A loop that runs an index over a batch is compared with the program that takes the elements of a
list one after the other, `List.forM`, in an arbitrary monad.  Two lists make the same program
for every monad only if they are the same list: a monad that writes a log tells them apart.
-/

namespace EVdeSwitch
namespace Lib

universe u v

variable {m : Type → Type} [Monad m] [LawfulMonad m] {α β : Type}

/-- The loop whose body takes element `i` in round `i`. -/
theorem forM_range_getD (l : List α) (d : α) (f : α → m Unit) :
    (List.range l.length).forM (fun i => f (l.getD i d)) = l.forM f := by
  have hl : (List.range l.length).map (fun i => l.getD i d) = l := by
    apply List.ext_getElem
    · simp
    · intro i hi hi'
      simp [List.getD, hi']
  calc
    (List.range l.length).forM (fun i => f (l.getD i d))
        = ((List.range l.length).map (fun i => l.getD i d)).forM f := by
          simp
    _ = l.forM f := by rw [hl]

/-- The loop whose body does not look at the index. -/
theorem forM_range_const (n : Nat) (f : α → m Unit) (x : α) :
    (List.range n).forM (fun _ => f x) = (List.replicate n x).forM f := by
  have hl : (List.range n).map (fun _ => x) = List.replicate n x := by
    simp
  calc
    (List.range n).forM (fun _ => f x) = ((List.range n).map (fun _ => x)).forM f := by
      rw [List.forM_eq_forM, List.forM_eq_forM, List.forM_map]
    _ = (List.replicate n x).forM f := by rw [hl]

/-- Take down what the program is called with. -/
def logging (label : α → β) (x : α) : StateM (List β) Unit :=
  modify (· ++ [label x])

theorem run_forM_logging (label : α → β) (l : List α) (log : List β) :
    (l.forM (logging label)).run log = ((), log ++ l.map label) := by
  induction l generalizing log with
  | nil => exact congrArg (Prod.mk ()) (List.append_nil log).symm
  | cons x l ih =>
      -- the rest of the program goes on with one entry more
      have hrest := ih (log ++ [label x])
      simpa [logging] using hrest

/-- Programs over two lists agree in every monad only if the lists agree. -/
theorem map_label_eq_of_forM_logging {label : α → β} {l l' : List α}
    (h : l.forM (logging label) = l'.forM (logging label)) : l.map label = l'.map label := by
  have hrun := congrArg (fun program : StateM (List β) Unit => (program.run []).2) h
  simpa only [run_forM_logging, List.nil_append] using hrun

end Lib
end EVdeSwitch
