/-!
# Stoppable — computations that leave their state behind when they are stopped

A computation over a state can be stopped by an exception.  `Stoppable` keeps the state that is
left then; `forget` gives it up, and is a homomorphism to the computations that return a new state
or an exception.
-/

namespace EVdeSwitch
namespace Lib

universe u

/-- A computation that can be stopped, over a state that is kept all the same. -/
abbrev Stoppable (ε σ : Type u) : Type u → Type u :=
  ExceptT ε (StateM σ)

namespace Stoppable

variable {ε σ α β : Type u}

/-- The result of a computation or what has stopped it, and the state at its end. -/
def ends (x : Stoppable ε σ α) (s : σ) : Except ε α × σ :=
  x.run.run s

/-! ## The end of a computation -/

@[simp] theorem ends_pure (a : α) (s : σ) : (pure a : Stoppable ε σ α).ends s = (.ok a, s) := rfl

@[simp] theorem ends_throw (e : ε) (s : σ) :
    (throw e : Stoppable ε σ α).ends s = (.error e, s) := rfl

@[simp] theorem ends_lift (r : Except ε α) (s : σ) :
    (liftM r : Stoppable ε σ α).ends s = (r, s) := rfl

@[simp] theorem ends_get (s : σ) : (get : Stoppable ε σ σ).ends s = (.ok s, s) := rfl

@[simp] theorem ends_modify (g : σ → σ) (s : σ) :
    (modify g : Stoppable ε σ PUnit).ends s = (.ok ⟨⟩, g s) := rfl

@[simp] theorem ends_map (g : α → β) (x : Stoppable ε σ α) (s : σ) :
    (g <$> x).ends s = ((x.ends s).1.map g, (x.ends s).2) := by
  change (ExceptT.map g x).run s = _
  simp only [ExceptT.map, ExceptT.mk, ends, StateT.run, Bind.bind, StateT.bind, ExceptT.run]
  cases h : x s with
  | mk result t => cases result <;> rfl

theorem ends_bind (x : Stoppable ε σ α) (f : α → Stoppable ε σ β) (s : σ) :
    (x >>= f).ends s =
      match x.ends s with
      | (.ok a, t) => (f a).ends t
      | (.error e, t) => (.error e, t) := by
  change (ExceptT.bind x f).run s = _
  simp only [ExceptT.bind, ExceptT.mk, ends, StateT.run, Bind.bind, StateT.bind, ExceptT.run]
  cases h : x s with
  | mk result t => cases result <;> rfl

/-! ## Without the state of the computations that are stopped -/

/-- The end of a computation, where only one that is not stopped leaves a state. -/
def forgetEnd : Except ε α × σ → Except ε (α × σ)
  | (.ok a, t) => .ok (a, t)
  | (.error e, _) => .error e

def forget (x : Stoppable ε σ α) : StateT σ (Except ε) α :=
  fun s => forgetEnd (x.ends s)

@[simp] theorem forget_pure (a : α) (s : σ) :
    forget (pure a : Stoppable ε σ α) s = .ok (a, s) := rfl

@[simp] theorem forget_throw (e : ε) (s : σ) :
    forget (throw e : Stoppable ε σ α) s = .error e := rfl

@[simp] theorem forget_lift (r : Except ε α) (s : σ) :
    forget (liftM r : Stoppable ε σ α) s = r.map fun a => (a, s) := by
  cases r <;> rfl

@[simp] theorem forget_get (s : σ) : forget (get : Stoppable ε σ σ) s = .ok (s, s) := rfl

@[simp] theorem forget_modify (g : σ → σ) (s : σ) :
    forget (modify g : Stoppable ε σ PUnit) s = .ok (⟨⟩, g s) := rfl

@[simp] theorem forget_map (g : α → β) (x : Stoppable ε σ α) (s : σ) :
    forget (g <$> x) s = (forget x s).map fun r => (g r.1, r.2) := by
  rw [forget, forget, ends_map]
  cases h : x.ends s with
  | mk result t => cases result <;> rfl

theorem forget_bind (x : Stoppable ε σ α) (f : α → Stoppable ε σ β) (s : σ) :
    forget (x >>= f) s = (forget x s).bind fun r => forget (f r.1) r.2 := by
  rw [forget, forget, ends_bind]
  cases h : x.ends s with
  | mk result t => cases result <;> rfl

end Stoppable

end Lib
end EVdeSwitch
