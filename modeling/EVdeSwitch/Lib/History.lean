import EVdeSwitch.Lib.Machine

/-!
# History — what a run leaves behind

Some properties speak of what has happened: which party owns an object, how often something was
done.  Such a record is carried beside the state and written by every step; it is never read, so
it neither stops a step nor makes one possible.
-/

namespace EVdeSwitch
namespace Lib

universe u v w

namespace Machine

variable {σ : Type u} {α : Type v} {γ : Type w}

/-- The machine with a record beside its state. -/
def withHistory (M : Machine σ α) (record : σ → α → σ → γ → γ) : Machine (σ × γ) α :=
  { step := fun s a => (M.step s.1 a).map fun t => (t, record s.1 a t s.2) }

variable {M : Machine σ α} {record : σ → α → σ → γ → γ} {s t : σ × γ} {a : α} {as : List α}

theorem withHistory_step :
    (M.withHistory record).step s a = some t ↔
      M.step s.1 a = some t.1 ∧ t.2 = record s.1 a t.1 s.2 := by
  rcases t with ⟨t, log⟩
  simp only [withHistory, Option.map_eq_some_iff, Prod.mk.injEq]
  constructor
  · rintro ⟨u, hu, rfl, rfl⟩
    exact ⟨hu, rfl⟩
  · rintro ⟨hstep, rfl⟩
    exact ⟨t, hstep, rfl, rfl⟩

/-- Without the record a run is one of the machine. -/
theorem run_of_withHistory (h : (M.withHistory record).run s as = some t) :
    M.run s.1 as = some t.1 := by
  induction as generalizing s with
  | nil =>
      cases h
      rfl
  | cons a as ih =>
      rcases (M.withHistory record).run_cons_eq_some.1 h with ⟨u, hstep, hrest⟩
      exact M.run_cons_of_step (withHistory_step.1 hstep).1 (ih hrest)

end Machine

end Lib
end EVdeSwitch
