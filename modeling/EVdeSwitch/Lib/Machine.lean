import Mathlib.Data.List.Basic
import Mathlib.Data.Option.Basic

/-!
# Machine — labelled machines, their runs and their invariants

A concurrent program is modelled as a machine whose labels name *which* party moves and what its
environment answers.  Once the label is fixed the step is a function, so all of the
nondeterminism of an interleaving sits in the list of labels, and a run can be evaluated.

Besides plain runs the file has *guarded* runs, in which every step meets a condition on the
state it starts from, runs of one party on its own, and simulations, which carry runs of one
machine to runs of another.
-/

namespace EVdeSwitch
namespace Lib

universe u v w x

/-- A labelled machine; `step s a = none` where the label `a` is not enabled in `s`. -/
structure Machine (σ : Type u) (α : Type v) where
  step : σ → α → Option σ

namespace Machine

variable {σ : Type u} {α : Type v} (M : Machine σ α)

/-- Take the steps of a list of labels one after the other. -/
def run (s : σ) (as : List α) : Option σ :=
  as.foldlM M.step s

@[simp] theorem run_nil (s : σ) : M.run s [] = some s := rfl

theorem run_cons (s : σ) (a : α) (as : List α) :
    M.run s (a :: as) = (M.step s a).bind (fun t => M.run t as) := rfl

theorem run_cons_eq_some {s u : σ} {a : α} {as : List α} :
    M.run s (a :: as) = some u ↔ ∃ t, M.step s a = some t ∧ M.run t as = some u := by
  rw [run_cons, Option.bind_eq_some_iff]

theorem run_cons_of_step {s t u : σ} {a : α} {as : List α} (hstep : M.step s a = some t)
    (hrun : M.run t as = some u) : M.run s (a :: as) = some u :=
  M.run_cons_eq_some.2 ⟨t, hstep, hrun⟩

theorem run_append (s : σ) (as bs : List α) :
    M.run s (as ++ bs) = (M.run s as).bind (fun t => M.run t bs) := by
  simp [run, List.foldlM_append]

theorem run_append_eq_some {s u : σ} {as bs : List α} :
    M.run s (as ++ bs) = some u ↔ ∃ t, M.run s as = some t ∧ M.run t bs = some u := by
  rw [run_append, Option.bind_eq_some_iff]

theorem run_singleton (s : σ) (a : α) : M.run s [a] = M.step s a := by
  rw [run_cons]
  cases M.step s a <;> rfl

/-- Every step of the run of `as` from `s` meets `ok` in the state it starts from. -/
def Guarded (ok : σ → α → Prop) : σ → List α → Prop
  | _, [] => True
  | s, a :: as => ok s a ∧ ∀ t, M.step s a = some t → Guarded ok t as

/-- Whether a run is guarded can be found out by taking it. -/
instance decidableGuarded {ok : σ → α → Prop} [∀ s a, Decidable (ok s a)] :
    ∀ (s : σ) (as : List α), Decidable (M.Guarded ok s as)
  | _, [] => isTrue trivial
  | s, a :: as =>
      match h : M.step s a with
      | none => decidable_of_iff (ok s a) (by simp [Guarded, h])
      | some t =>
          have : Decidable (M.Guarded ok t as) := decidableGuarded t as
          decidable_of_iff (ok s a ∧ M.Guarded ok t as) (by simp [Guarded, h])

theorem guarded_append {ok : σ → α → Prop} {s : σ} {as bs : List α} :
    M.Guarded ok s (as ++ bs) ↔
      M.Guarded ok s as ∧ ∀ t, M.run s as = some t → M.Guarded ok t bs := by
  induction as generalizing s with
  | nil => simp [Guarded]
  -- the guards of `bs` are asked for only where `as` has led
  | cons a as ih =>
      simp only [List.cons_append, Guarded, ih, M.run_cons_eq_some]
      constructor
      · rintro ⟨hok, hrest⟩
        refine ⟨⟨hok, fun u hu => (hrest u hu).1⟩, ?_⟩
        rintro t ⟨u, hu, hrun⟩
        exact (hrest u hu).2 t hrun
      · rintro ⟨⟨hok, hrest⟩, htail⟩
        exact ⟨hok, fun u hu => ⟨hrest u hu, fun t hrun => htail t ⟨u, hu, hrun⟩⟩⟩

variable {M}

/-- The invariant rule: what every step preserves, every run preserves. -/
theorem invariant_run (I : σ → Prop) (hstep : ∀ s a t, I s → M.step s a = some t → I t)
    {s t : σ} {as : List α} (hs : I s) (h : M.run s as = some t) : I t := by
  induction as generalizing s with
  | nil =>
      cases h
      exact hs
  | cons a as ih =>
      rcases (M.run_cons_eq_some).1 h with ⟨u, hu, hrest⟩
      exact ih (hstep s a u hs hu) hrest

/-- The invariant rule for guarded runs: the steps that meet `ok` preserve the invariant. -/
theorem invariant_run_guarded (I : σ → Prop) {ok : σ → α → Prop}
    (hstep : ∀ s a t, I s → ok s a → M.step s a = some t → I t)
    {s t : σ} {as : List α} (hs : I s) (hg : M.Guarded ok s as) (h : M.run s as = some t) :
    I t := by
  induction as generalizing s with
  | nil =>
      cases h
      exact hs
  | cons a as ih =>
      rcases (M.run_cons_eq_some).1 h with ⟨u, hu, hrest⟩
      exact ih (hstep s a u hs hg.1 hu) (hg.2 u hu) hrest

/-- What holds after a step only if it held before, holds all along a run at whose end it holds. -/
theorem live_of_run {L : σ → Prop} (hback : ∀ s a t, M.step s a = some t → L t → L s)
    {s t : σ} {as : List α} (h : M.run s as = some t) (hlive : L t) : L s := by
  induction as generalizing s with
  | nil =>
      cases h
      exact hlive
  | cons a as ih =>
      rcases (M.run_cons_eq_some).1 h with ⟨u, hu, hrest⟩
      exact hback s a u hu (ih hrest)

/-- The exactness rule: if a step ends well exactly when it starts well and meets `ok`, then the
runs that end well are the guarded ones.  The guard `env` is what may be relied on, and `L` tells
the states that are of interest. -/
theorem good_iff_guarded (I G L : σ → Prop) {env ok : σ → α → Prop}
    (hback : ∀ s a t, M.step s a = some t → L t → L s)
    (hstep : ∀ s a t, I s → env s a → M.step s a = some t → L t →
      I t ∧ (G t ↔ G s ∧ ok s a))
    {s t : σ} {as : List α} (hs : I s) (hgood : G s) (henv : M.Guarded env s as)
    (h : M.run s as = some t) (hlive : L t) : G t ↔ M.Guarded ok s as := by
  -- a run that has gone wrong, and one that has not
  have hwrong : ∀ {s : σ} {as : List α}, I s → ¬ G s → M.Guarded env s as →
      M.run s as = some t → ¬ G t := by
    intro s as hs hgood henv h
    induction as generalizing s with
    | nil =>
        cases h
        exact hgood
    | cons a as ih =>
        rcases (M.run_cons_eq_some).1 h with ⟨u, hu, hrest⟩
        rcases hstep s a u hs henv.1 hu (live_of_run hback hrest hlive) with ⟨hIu, hGu⟩
        exact ih hIu (fun hgu => hgood (hGu.1 hgu).1) (henv.2 u hu) hrest
  induction as generalizing s with
  | nil =>
      cases h
      exact iff_of_true hgood trivial
  | cons a as ih =>
      rcases (M.run_cons_eq_some).1 h with ⟨u, hu, hrest⟩
      rcases hstep s a u hs henv.1 hu (live_of_run hback hrest hlive) with ⟨hIu, hGu⟩
      have htail : (∀ v, M.step s a = some v → M.Guarded ok v as) ↔ M.Guarded ok u as := by
        simp [hu]
      rw [Guarded, htail]
      by_cases hgu : G u
      · have hend : G t ↔ M.Guarded ok u as := ih hIu hgu (henv.2 u hu) hrest
        exact hend.trans (and_iff_right (hGu.1 hgu).2).symm
      · have hok : ¬ ok s a := fun hok => hgu (hGu.2 ⟨hgood, hok⟩)
        exact iff_of_false (hwrong hIu hgu (henv.2 u hu) hrest) fun hguarded => hok hguarded.1

theorem guarded_of_mem {ok : α → Prop} {as : List α} (hok : ∀ a ∈ as, ok a) (s : σ) :
    M.Guarded (fun _ a => ok a) s as := by
  induction as generalizing s with
  | nil => trivial
  | cons a as ih =>
      exact ⟨hok a List.mem_cons_self, fun t _ => ih (fun b hb => hok b (List.mem_cons_of_mem _ hb)) t⟩

theorem guarded_of_forall {ok : σ → α → Prop} (hok : ∀ s a, ok s a) (s : σ) (as : List α) :
    M.Guarded ok s as := by
  induction as generalizing s with
  | nil => trivial
  | cons a as ih => exact ⟨hok s a, fun t _ => ih t⟩

variable (M) in
/-- Every state of the run of `as` from `s` meets `P`. -/
def Always (P : σ → Prop) (s : σ) (as : List α) : Prop :=
  ∀ pre, pre <+: as → ∀ t, M.run s pre = some t → P t

theorem always_nil {P : σ → Prop} {s : σ} : M.Always P s [] ↔ P s := by
  simp [Always]

theorem always_cons {P : σ → Prop} {s t : σ} {a : α} {as : List α} (h : M.step s a = some t) :
    M.Always P s (a :: as) ↔ P s ∧ M.Always P t as := by
  constructor
  · intro halways
    refine ⟨halways [] List.nil_prefix s rfl, ?_⟩
    intro pre hpre u hu
    exact halways (a :: pre) (by simpa using hpre) u (M.run_cons_of_step h hu)
  · rintro ⟨hs, halways⟩ pre hpre u hu
    cases pre with
    | nil =>
        cases hu
        exact hs
    | cons b pre =>
        rcases List.cons_prefix_cons.1 hpre with ⟨rfl, htail⟩
        rcases (M.run_cons_eq_some).1 hu with ⟨v, hv, hrest⟩
        rw [h] at hv
        cases hv
        exact halways pre htail u hrest

/-- The exactness rule for what holds all along: if a step from a state that meets `P` leads to
another exactly when it meets `ok`, then the runs all of whose states meet `P` are the guarded
ones. -/
theorem always_iff_guarded (I P : σ → Prop) {ok : σ → α → Prop}
    (hstep : ∀ s a t, I s → P s → M.step s a = some t → I t ∧ (P t ↔ ok s a))
    {s t : σ} {as : List α} (hs : I s) (hgood : P s) (h : M.run s as = some t) :
    M.Always P s as ↔ M.Guarded ok s as := by
  induction as generalizing s with
  | nil => exact iff_of_true (always_nil.2 hgood) trivial
  | cons a as ih =>
      rcases (M.run_cons_eq_some).1 h with ⟨u, hu, hrest⟩
      rcases hstep s a u hs hgood hu with ⟨hIu, hPu⟩
      have htail : (∀ v, M.step s a = some v → M.Guarded ok v as) ↔ M.Guarded ok u as := by
        simp [hu]
      rw [always_cons hu, and_iff_right hgood, Guarded, htail, ← hPu]
      constructor
      · intro halways
        have hgood' : P u := halways [] List.nil_prefix u rfl
        exact ⟨hgood', (ih hIu hgood' hrest).1 halways⟩
      · rintro ⟨hgood', hguarded⟩
        exact (ih hIu hgood' hrest).2 hguarded

variable (M) in
/-- Every step of the run of `as` from `s` is one that `P` allows. -/
def EveryStep (P : σ → α → σ → Prop) (s : σ) (as : List α) : Prop :=
  ∀ pre a post, as = pre ++ a :: post → ∀ t u, M.run s pre = some t → M.step t a = some u →
    P t a u

theorem everyStep_nil {P : σ → α → σ → Prop} {s : σ} : M.EveryStep P s [] := by
  intro pre a post h
  simp at h

theorem everyStep_cons {P : σ → α → σ → Prop} {s t : σ} {a : α} {as : List α}
    (h : M.step s a = some t) : M.EveryStep P s (a :: as) ↔ P s a t ∧ M.EveryStep P t as := by
  constructor
  · intro hevery
    refine ⟨hevery [] a as rfl s t rfl h, ?_⟩
    rintro pre b post rfl u v hpre hv
    exact hevery (a :: pre) b post rfl u v (M.run_cons_of_step h hpre) hv
  · rintro ⟨hfirst, hevery⟩ pre b post heq u v hpre hv
    cases pre with
    | nil =>
        cases heq
        cases hpre
        rw [h] at hv
        cases hv
        exact hfirst
    | cons c pre =>
        cases heq
        rcases (M.run_cons_eq_some).1 hpre with ⟨w, hw, hrest⟩
        rw [h] at hw
        cases hw
        exact hevery pre b post rfl u v hrest hv

/-- The exactness rule for steps: if a step from a state of the invariant is one that `P` allows
exactly when it meets `ok`, and then keeps the invariant, the runs of such steps are the guarded
ones.  Only the labels of a kind need be considered. -/
theorem everyStep_iff_guarded_of_forall (I : σ → Prop) {P : σ → α → σ → Prop} {ok : σ → α → Prop}
    {kind : α → Prop}
    (hstep : ∀ s a t, I s → kind a → M.step s a = some t → (P s a t ↔ ok s a) ∧ (ok s a → I t))
    {s t : σ} {as : List α} (hs : I s) (hkind : ∀ a ∈ as, kind a) (h : M.run s as = some t) :
    M.EveryStep P s as ↔ M.Guarded ok s as := by
  induction as generalizing s with
  | nil => exact iff_of_true everyStep_nil trivial
  | cons a as ih =>
      rcases (M.run_cons_eq_some).1 h with ⟨u, hu, hrest⟩
      rcases hstep s a u hs (hkind a List.mem_cons_self) hu with ⟨hP, hI⟩
      have hkind' : ∀ b ∈ as, kind b := fun b hb => hkind b (List.mem_cons_of_mem _ hb)
      have htail : (∀ v, M.step s a = some v → M.Guarded ok v as) ↔ M.Guarded ok u as := by
        simp [hu]
      rw [everyStep_cons hu, Guarded, htail, hP]
      constructor
      · rintro ⟨hok, hevery⟩
        exact ⟨hok, (ih (hI hok) hkind' hrest).1 hevery⟩
      · rintro ⟨hok, hguarded⟩
        exact ⟨hok, (ih (hI hok) hkind' hrest).2 hguarded⟩

theorem everyStep_iff_guarded (I : σ → Prop) {P : σ → α → σ → Prop} {ok : σ → α → Prop}
    (hstep : ∀ s a t, I s → M.step s a = some t → (P s a t ↔ ok s a) ∧ (ok s a → I t))
    {s t : σ} {as : List α} (hs : I s) (h : M.run s as = some t) :
    M.EveryStep P s as ↔ M.Guarded ok s as := by
  have hkind : ∀ a ∈ as, (fun _ : α => True) a := fun _ _ => trivial
  exact everyStep_iff_guarded_of_forall I (fun s a t hs _ h => hstep s a t hs h) hs hkind h

/-- The invariant rule for runs whose labels are of a kind. -/
theorem invariant_run_of_forall (I : σ → Prop) {kind : α → Prop}
    (hstep : ∀ s a t, I s → kind a → M.step s a = some t → I t)
    {s t : σ} {as : List α} (hs : I s) (hkind : ∀ a ∈ as, kind a) (h : M.run s as = some t) : I t :=
  invariant_run_guarded I hstep hs (guarded_of_mem hkind s) h

/-- The invariant rule for steps: while the labels are those that preserve the invariant, the steps
are those that start from it. -/
theorem everyStep_of_forall (I : σ → Prop) {P : σ → α → σ → Prop} {ok : α → Prop}
    (hstep : ∀ s a t, I s → ok a → M.step s a = some t → I t ∧ P s a t)
    {s : σ} {as : List α} (hs : I s) (hok : ∀ a ∈ as, ok a) : M.EveryStep P s as := by
  rintro pre a post rfl t u hpre hu
  have ht : I t := by
    have hguarded : M.Guarded (fun _ a => ok a) s pre := by
      refine guarded_of_mem ?_ s
      exact fun b hb => hok b (List.mem_append_left _ hb)
    exact invariant_run_guarded I (fun s a t hs ha h => (hstep s a t hs ha h).1) hs hguarded hpre
  exact (hstep t a u ht (hok a (by simp)) hu).2

/-- The bound rule: where the labels of a kind lower a measure and the others do not raise it, a
run has no more labels of the kind than the measure has room for. -/
theorem countP_add_le (I : σ → Prop) (μ : σ → Nat) (kind : α → Prop) (own : α → Bool)
    (hstep : ∀ s a t, I s → kind a → M.step s a = some t →
      I t ∧ μ t + (if own a then 1 else 0) ≤ μ s)
    {s t : σ} {as : List α} (hs : I s) (hkind : ∀ a ∈ as, kind a) (h : M.run s as = some t) :
    as.countP own + μ t ≤ μ s := by
  induction as generalizing s with
  | nil =>
      cases h
      simp
  | cons a as ih =>
      rcases (M.run_cons_eq_some).1 h with ⟨u, hu, hrest⟩
      rcases hstep s a u hs (hkind a List.mem_cons_self) hu with ⟨hIu, hμ⟩
      have htail := ih hIu (fun b hb => hkind b (List.mem_cons_of_mem _ hb)) hrest
      rw [List.countP_cons]
      omega

/-- The last step of a run is one of its steps. -/
theorem EveryStep.last {P : σ → α → σ → Prop} {s u : σ} {as : List α} (h : M.EveryStep P s as)
    (hrun : M.run s as = some u) (hne : as ≠ []) : ∃ t a, P t a u := by
  rcases List.eq_nil_or_concat as with hnil | ⟨pre, a, rfl⟩
  · exact absurd hnil hne
  · rw [List.concat_eq_append] at h hrun
    rcases (M.run_append_eq_some).1 hrun with ⟨t, hpre, hlast⟩
    rw [run_singleton] at hlast
    exact ⟨t, a, h pre a [] rfl t u hpre hlast⟩

/-! ## Runs of one party

A party that nobody interrupts makes steps of its own kind only.  Where it has at most one step to
make in a state, its runs are the beginnings of one run.
-/

section OneParty

variable {kind : α → Prop}

variable (M) in
/-- In every state at most one label of the kind is enabled. -/
def OneAtATime (kind : α → Prop) : Prop :=
  ∀ s a b t u, kind a → kind b → M.step s a = some t → M.step s b = some u → a = b

variable (M) in
/-- No label of the kind is enabled. -/
def Ended (kind : α → Prop) (s : σ) : Prop :=
  ∀ a, kind a → M.step s a = none

theorem prefix_of_ended (hone : M.OneAtATime kind) {s t u : σ} {as bs : List α}
    (has : ∀ a ∈ as, kind a) (h : M.run s as = some t) (hend : M.Ended kind t)
    (hbs : ∀ b ∈ bs, kind b) (h' : M.run s bs = some u) : bs <+: as := by
  induction bs generalizing s as with
  | nil => exact List.nil_prefix
  | cons b bs ih =>
      rcases (M.run_cons_eq_some).1 h' with ⟨v, hv, hrest'⟩
      have hb : kind b := hbs b List.mem_cons_self
      cases as with
      | nil =>
          cases h
          rw [hend b hb] at hv
          cases hv
      | cons a as =>
          rcases (M.run_cons_eq_some).1 h with ⟨v', hv', hrest⟩
          have hab : b = a := hone s b a v v' hb (has a List.mem_cons_self) hv hv'
          subst hab
          rw [hv] at hv'
          cases hv'
          have htail := ih (fun a ha => has a (List.mem_cons_of_mem _ ha)) hrest
            (fun b hb => hbs b (List.mem_cons_of_mem _ hb)) hrest'
          exact List.cons_prefix_cons.2 ⟨rfl, htail⟩

/-- The rule for a party on its own: from a state the party comes to one end only. -/
theorem ended_unique (hone : M.OneAtATime kind) {s t u : σ} {as bs : List α}
    (has : ∀ a ∈ as, kind a) (h : M.run s as = some t) (hend : M.Ended kind t)
    (hbs : ∀ b ∈ bs, kind b) (h' : M.run s bs = some u) (hend' : M.Ended kind u) : u = t := by
  rcases prefix_of_ended hone has h hend hbs h' with ⟨rest, rfl⟩
  rcases (M.run_append_eq_some).1 h with ⟨v, hv, hrest⟩
  rw [h'] at hv
  cases hv
  cases rest with
  | nil =>
      cases hrest
      rfl
  | cons a rest =>
      rcases (M.run_cons_eq_some).1 hrest with ⟨v, hv, _⟩
      rw [hend' a (has a (by simp))] at hv
      cases hv

/-- The same after a first step, which need not be of the kind. -/
theorem ended_unique_cons (hone : M.OneAtATime kind) {s t u : σ} {a : α} {as bs : List α}
    (has : ∀ b ∈ as, kind b) (h : M.run s (a :: as) = some t) (hend : M.Ended kind t)
    (hbs : ∀ b ∈ bs, kind b) (h' : M.run s (a :: bs) = some u) :
    bs <+: as ∧ (M.Ended kind u → u = t) := by
  rcases (M.run_cons_eq_some).1 h with ⟨v, hv, hrest⟩
  rcases (M.run_cons_eq_some).1 h' with ⟨v', hv', hrest'⟩
  rw [hv] at hv'
  cases hv'
  exact ⟨prefix_of_ended hone has hrest hend hbs hrest',
    ended_unique hone has hrest hend hbs hrest'⟩

end OneParty

variable (M) in
/-- `t` can be reached from `s`. -/
def Reaches (s t : σ) : Prop :=
  ∃ as : List α, M.run s as = some t

namespace Reaches

theorem refl (s : σ) : M.Reaches s s :=
  ⟨[], rfl⟩

theorem single {s t : σ} {a : α} (h : M.step s a = some t) : M.Reaches s t :=
  ⟨[a], by rw [run_singleton]; exact h⟩

theorem trans {s t u : σ} (h₁ : M.Reaches s t) (h₂ : M.Reaches t u) : M.Reaches s u := by
  rcases h₁ with ⟨as, has⟩
  rcases h₂ with ⟨bs, hbs⟩
  exact ⟨as ++ bs, M.run_append_eq_some.2 ⟨t, has, hbs⟩⟩

theorem invariant (I : σ → Prop) (hstep : ∀ s a t, I s → M.step s a = some t → I t)
    {s t : σ} (hs : I s) (h : M.Reaches s t) : I t := by
  rcases h with ⟨as, has⟩
  exact invariant_run I hstep hs has

end Reaches

/-! ## Simulations -/

section Simulation

variable {τ : Type w} {β : Type x} {N : Machine τ β}

/-- A relation that every step carries along, the abstract machine answering a step with the
labels `labels s a`, is carried along by every run. -/
theorem simulation_run (R : σ → τ → Prop) {labels : σ → α → List β}
    (hstep : ∀ s a t c, R s c → M.step s a = some t →
      ∃ d, N.run c (labels s a) = some d ∧ R t d)
    {s t : σ} {c : τ} {as : List α} (hR : R s c) (h : M.run s as = some t) :
    ∃ bs d, N.run c bs = some d ∧ R t d := by
  induction as generalizing s c with
  | nil =>
      cases h
      exact ⟨[], c, rfl, hR⟩
  | cons a as ih =>
      rcases (M.run_cons_eq_some).1 h with ⟨u, hu, hrest⟩
      rcases hstep s a u c hR hu with ⟨e, he, hRe⟩
      -- first the answer to this step, then the answers to the others
      rcases ih hRe hrest with ⟨bs, d, hd, hRd⟩
      exact ⟨labels s a ++ bs, d, N.run_append_eq_some.2 ⟨e, he, hd⟩, hRd⟩

/-- The same for guarded runs, if the guard of a step implies the guard of its answer. -/
theorem simulation_run_guarded (R : σ → τ → Prop) {labels : σ → α → List β}
    {ok : σ → α → Prop} {ok' : τ → β → Prop}
    (hstep : ∀ s a t c, R s c → M.step s a = some t →
      ∃ d, N.run c (labels s a) = some d ∧ R t d)
    (hok : ∀ s a t c, R s c → M.step s a = some t → ok s a → N.Guarded ok' c (labels s a))
    {s t : σ} {c : τ} {as : List α} (hR : R s c) (hg : M.Guarded ok s as)
    (h : M.run s as = some t) :
    ∃ bs d, N.Guarded ok' c bs ∧ N.run c bs = some d ∧ R t d := by
  induction as generalizing s c with
  | nil =>
      cases h
      exact ⟨[], c, trivial, rfl, hR⟩
  | cons a as ih =>
      rcases (M.run_cons_eq_some).1 h with ⟨u, hu, hrest⟩
      rcases hstep s a u c hR hu with ⟨e, he, hRe⟩
      rcases ih hRe (hg.2 u hu) hrest with ⟨bs, d, hgd, hd, hRd⟩
      refine ⟨labels s a ++ bs, d, N.guarded_append.2 ⟨hok s a u c hR hu hg.1, ?_⟩,
        N.run_append_eq_some.2 ⟨e, he, hd⟩, hRd⟩
      -- the answer to the first step leads to one state only
      intro e' he'
      rw [he] at he'
      cases he'
      exact hgd

/-- The converse of a simulation: if every abstract step of a kind can be answered by concrete
ones, then so can every abstract run of steps of that kind. -/
theorem exists_reaches_of_answers (R : σ → τ → Prop) {P : β → Prop}
    (hstep : ∀ s c b d, R s c → P b → N.step c b = some d → ∃ t, M.Reaches s t ∧ R t d)
    {s : σ} {c d : τ} {bs : List β} (hR : R s c) (hP : ∀ b ∈ bs, P b) (h : N.run c bs = some d) :
    ∃ t, M.Reaches s t ∧ R t d := by
  induction bs generalizing s c with
  | nil =>
      cases h
      exact ⟨s, Reaches.refl s, hR⟩
  | cons b bs ih =>
      rcases (N.run_cons_eq_some).1 h with ⟨e, he, hrest⟩
      rcases hstep s c b e hR (hP b List.mem_cons_self) he with ⟨u, hu, hRu⟩
      rcases ih hRu (fun b' hb' => hP b' (List.mem_cons_of_mem _ hb')) hrest with ⟨t, ht, hRt⟩
      exact ⟨t, hu.trans ht, hRt⟩

end Simulation

end Machine

end Lib
end EVdeSwitch
