import EVdeSwitch.Lib.History
import Mathlib.Logic.Function.Basic

/-!
# Startup — switches that start on one control socket

`init_ctl_plane` of `src/control_plane/control_plane.c` binds the control socket to a name in the
file system.  If the name is taken, `still_used` of `src/utils/sockutils.c` finds out by a connection
whether anybody listens there, and otherwise unlinks it for a second attempt.  Any number of
processes do so on the same name, one system call at a time, and may be killed at any time.
-/

namespace EVdeSwitch
namespace ControlPlane

open EVdeSwitch.Lib

/-- Where a process is in `init_ctl_plane`: the system call that comes next. -/
inductive InitPc
  | socket
  | setsockopt
  | fcntl
  | mkdir
  | realpath
  | chownDirectory
  | chmodDirectory
  | bind
  /-- The three calls of `still_used`. -/
  | testSocket
  | connect
  | unlink
  | bindAgain
  | chmodSocket
  | chownSocket
  | listen
  | epoll
  | pipe
  /-- `init_ctl_plane` has returned. -/
  | running
  | ended
  deriving DecidableEq, Repr

namespace InitPc

/-- A connection to the socket succeeds. -/
def Listens : InitPc → Bool
  | epoll | pipe | running => true
  | _ => false

/-- The socket has been bound. -/
def Holds : InitPc → Bool
  | chmodSocket | chownSocket | listen | epoll | pipe | running => true
  | _ => false

/-- The process has tried to bind its socket, and does not listen yet. -/
def Claims : InitPc → Bool
  | testSocket | connect | unlink | bindAgain | chmodSocket | chownSocket | listen => true
  | _ => false

/-- The process has bound its socket, or has ended: it does not bind it again. -/
def Past : InitPc → Bool
  | chmodSocket | chownSocket | listen | epoll | pipe | running | ended => true
  | _ => false

theorem past_of_listens {pc : InitPc} : pc.Listens = true → pc.Past = true := by
  cases pc <;> decide

theorem claims_of_holds {pc : InitPc} :
    pc.Holds = true → pc.Listens = false → pc.Claims = true := by
  cases pc <;> decide

theorem holds_of_listens {pc : InitPc} : pc.Listens = true → pc.Holds = true := by
  cases pc <;> decide

end InitPc

/-- The processes, and whose socket is bound to the name; a socket stays bound to it after its
process has ended. -/
structure Starts where
  pcs : Nat → InitPc
  path : Option Nat

/-- What the kernel answers.  A call that is not made to fail does what the file system says. -/
inductive SysAnswer
  | normal
  | failed
  deriving DecidableEq, Repr

inductive InitAction
  | step (p : Nat) (answer : SysAnswer)
  | kill (p : Nat)
  deriving DecidableEq, Repr

namespace Starts

def start : Starts :=
  { pcs := fun _ => .socket
    path := none }

def goTo (s : Starts) (p : Nat) (pc : InitPc) : Starts :=
  { s with pcs := Function.update s.pcs p pc }

/-- A call after whose failure the process ends, with a message. -/
def call (s : Starts) (p : Nat) (answer : SysAnswer) (next : InitPc) : Starts :=
  s.goTo p (if answer = .normal then next else .ended)

/-- The name is free, and the socket is bound to it. -/
def bound (s : Starts) (p : Nat) : Starts :=
  { s.goTo p .chmodSocket with path := some p }

/-- One system call of `init_ctl_plane`.  `EEXIST` is no failure of `mkdir`. -/
def initStep (s : Starts) (p : Nat) (answer : SysAnswer) : Option Starts :=
  match s.pcs p with
  | .socket => some (s.call p answer .setsockopt)
  | .setsockopt => some (s.call p answer .fcntl)
  | .fcntl => some (s.call p answer .mkdir)
  | .mkdir => some (s.call p answer .realpath)
  | .realpath => some (s.call p answer .chownDirectory)
  | .chownDirectory => some (s.call p answer .chmodDirectory)
  | .chmodDirectory => some (s.call p answer .bind)
  | .bind =>
      match answer, s.path with
      | .normal, none => some (s.bound p)
      -- `EADDRINUSE`
      | .normal, some _ => some (s.goTo p .testSocket)
      | .failed, _ => some (s.goTo p .bindAgain)
  | .testSocket => some (s.call p answer .connect)
  | .connect =>
      match s.path with
      -- `ENOENT`
      | none => some (s.goTo p .ended)
      | some q =>
          if (s.pcs q).Listens then
            some (s.goTo p .ended)
          else
            -- `ECONNREFUSED`
            some (s.call p answer .unlink)
  | .unlink =>
      match s.path with
      | none => some (s.goTo p .ended)
      | some _ =>
          if answer = .normal then
            some { s.goTo p .bindAgain with path := none }
          else
            some (s.goTo p .ended)
  | .bindAgain =>
      match answer, s.path with
      | .normal, none => some (s.bound p)
      | _, _ => some (s.goTo p .ended)
  -- The result is not looked at
  | .chmodSocket => some (s.goTo p .chownSocket)
  | .chownSocket => some (s.call p answer .listen)
  | .listen => some (s.call p answer .epoll)
  | .epoll => some (s.call p answer .pipe)
  | .pipe => some (s.call p answer .running)
  | .running | .ended => none

def step (s : Starts) : InitAction → Option Starts
  | .step p answer => s.initStep p answer
  | .kill p => some (s.goTo p .ended)

end Starts

def switchStarts : Machine Starts InitAction where
  step := Starts.step

namespace Starts

variable {s t : Starts} {p q : Nat} {a : InitAction}

/-! ## What a step can do -/

@[simp] theorem pcs_goTo_self (pc : InitPc) : (s.goTo p pc).pcs p = pc :=
  Function.update_self _ _ _

theorem pcs_goTo_of_ne (h : q ≠ p) (pc : InitPc) : (s.goTo p pc).pcs q = s.pcs q :=
  Function.update_of_ne h _ _

/-- The steps that matter to the name, and the others. -/
inductive Effect (s : Starts) (p : Nat) : Starts → Prop
  /-- The process goes on, or ends, and nothing comes of it. -/
  | goes {pc : InitPc} :
      (pc.Holds = true → (s.pcs p).Holds = true) →
        (pc.Claims = true → (s.pcs p).Claims = true ∨ s.pcs p = .bind) →
          ((s.pcs p).Past = true → pc.Past = true) → pc ≠ .unlink → Effect s p (s.goTo p pc)
  | refused {q : Nat} :
      s.pcs p = .connect → s.path = some q → (s.pcs q).Listens = false →
        Effect s p (s.goTo p .unlink)
  | unlinks {q : Nat} :
      s.pcs p = .unlink → s.path = some q → Effect s p { s.goTo p .bindAgain with path := none }
  | binds :
      s.pcs p = .bind ∨ s.pcs p = .bindAgain → s.path = none → Effect s p (s.bound p)

theorem effect_ended : Effect s p (s.goTo p .ended) :=
  Effect.goes (fun h => by cases h) (fun h => by cases h) (fun _ => rfl) (fun h => by cases h)

theorem effect_call {answer : SysAnswer} {pc next : InitPc} (hpc : s.pcs p = pc)
    (hholds : next.Holds = true → pc.Holds = true)
    (hclaims : next.Claims = true → pc.Claims = true ∨ pc = .bind)
    (hpast : pc.Past = true → next.Past = true) (hunlink : next ≠ .unlink) :
    Effect s p (s.call p answer next) := by
  subst hpc
  rw [call]
  split
  · exact Effect.goes hholds hclaims hpast hunlink
  · exact effect_ended

theorem effect_goTo {pc next : InitPc} (hpc : s.pcs p = pc)
    (hholds : next.Holds = true → pc.Holds = true)
    (hclaims : next.Claims = true → pc.Claims = true ∨ pc = .bind)
    (hpast : pc.Past = true → next.Past = true) (hunlink : next ≠ .unlink) :
    Effect s p (s.goTo p next) := by
  subst hpc
  exact Effect.goes hholds hclaims hpast hunlink

theorem effect_initStep {answer : SysAnswer} (h : s.initStep p answer = some t) :
    Effect s p t := by
  cases hpc : s.pcs p with
  | socket | setsockopt | fcntl | mkdir | realpath | chownDirectory | chmodDirectory
  | testSocket | chownSocket | listen | epoll | pipe =>
      simp only [initStep, hpc] at h
      cases h
      exact effect_call hpc (by decide) (by decide) (by decide) (by decide)
  | bind =>
      simp only [initStep, hpc] at h
      split at h
      · cases h
        exact Effect.binds (Or.inl hpc) ‹_›
      · cases h
        exact effect_goTo hpc (by decide) (by decide) (by decide) (by decide)
      · cases h
        exact effect_goTo hpc (by decide) (by decide) (by decide) (by decide)
  | connect =>
      simp only [initStep, hpc] at h
      split at h
      · cases h
        exact effect_ended
      · rename_i q hpath
        split at h
        · cases h
          exact effect_ended
        · rename_i hrefused
          cases h
          rw [call]
          split
          · exact Effect.refused hpc hpath (Bool.eq_false_iff.2 hrefused)
          · exact effect_ended
  | unlink =>
      simp only [initStep, hpc] at h
      split at h
      · cases h
        exact effect_ended
      · rename_i q hpath
        split at h
        · cases h
          exact Effect.unlinks hpc hpath
        · cases h
          exact effect_ended
  | bindAgain =>
      simp only [initStep, hpc] at h
      split at h
      · cases h
        exact Effect.binds (Or.inr hpc) ‹_›
      · cases h
        exact effect_ended
  | chmodSocket =>
      simp only [initStep, hpc] at h
      cases h
      exact effect_goTo hpc (by decide) (by decide) (by decide) (by decide)
  | running | ended =>
      simp only [initStep, hpc] at h
      cases h

/-- Every step of the machine is one of a process. -/
theorem effect_step (h : switchStarts.step s a = some t) : ∃ p, Effect s p t := by
  cases a with
  | step p answer => exact ⟨p, effect_initStep h⟩
  | kill p =>
      cases h
      exact ⟨p, effect_ended⟩

/-! ## Who loses the name -/

/-- For every process that has been told that nobody listens: who listened then. -/
abbrev Listeners : Type := Nat → Nat → Bool

/-- A process looks who listens on the name. -/
def recordConnects (s : Starts) (a : InitAction) (_ : Starts) (seen : Listeners) : Listeners :=
  match a with
  | .step q _ =>
      if s.pcs q = .connect then Function.update seen q fun p => (s.pcs p).Listens else seen
  | .kill _ => seen

/-- A step of a process leaves the others where they are. -/
theorem Effect.others (h : Effect s p t) (hne : q ≠ p) : t.pcs q = s.pcs q := by
  cases h <;> exact pcs_goTo_of_ne hne _

theorem Effect.past (h : Effect s p t) (hq : (s.pcs q).Past = true) : (t.pcs q).Past = true := by
  by_cases heq : q = p
  · subst heq
    cases h with
    | goes _ _ hpast _ =>
        rw [pcs_goTo_self]
        exact hpast hq
    | refused hpc _ _ =>
        rw [hpc] at hq
        cases hq
    | unlinks hpc _ =>
        rw [hpc] at hq
        cases hq
    | binds hpc _ =>
        rcases hpc with hpc | hpc
        · rw [hpc] at hq
          cases hq
        · rw [hpc] at hq
          cases hq
  · rw [h.others heq]
    exact hq

/-- Who listened when a process was refused has bound its socket before, but not to the name that
this process is about to unlink. -/
structure Refusals (s : Starts) (seen : Listeners) : Prop where
  past : ∀ q p, seen q p = true → (s.pcs p).Past = true
  path : ∀ q p, s.pcs q = .unlink → seen q p = true → s.path ≠ some p

theorem recordConnects_of_ne {seen : Listeners} {answer : SysAnswer} (h : q ≠ p) :
    recordConnects s (.step p answer) t seen q = seen q := by
  rw [recordConnects]
  split
  · exact Function.update_of_ne h _ _
  · rfl

theorem recordConnects_self {seen : Listeners} {answer : SysAnswer} (h : s.pcs p = .connect) :
    recordConnects s (.step p answer) t seen p = fun r => (s.pcs r).Listens := by
  rw [recordConnects, if_pos h]
  exact Function.update_self _ _ _

/-- Who is recorded has bound its socket. -/
theorem Refusals.past_recorded {seen : Listeners} {r : Nat} (h : s.Refusals seen)
    (hseen : recordConnects s a t seen q r = true) : (s.pcs r).Past = true := by
  cases a with
  | kill p => exact h.past q r hseen
  | step p answer =>
      by_cases hnew : q = p ∧ s.pcs p = .connect
      · rcases hnew with ⟨rfl, hconnect⟩
        rw [recordConnects_self hconnect] at hseen
        exact InitPc.past_of_listens hseen
      · refine h.past q r ?_
        rw [recordConnects] at hseen
        split at hseen
        · rename_i hconnect
          rwa [Function.update_of_ne fun heq => hnew ⟨heq, hconnect⟩] at hseen
        · exact hseen

theorem Refusals.step {seen : Listeners} (h : s.Refusals seen)
    (hstep : switchStarts.step s a = some t) : t.Refusals (recordConnects s a t seen) := by
  rcases effect_step hstep with ⟨_, heffect⟩
  refine ⟨fun q r hseen => heffect.past (h.past_recorded hseen), fun q r hpc hseen => ?_⟩
  have hpast := h.past_recorded hseen
  clear heffect
  cases a with
  | kill p =>
      cases hstep
      have hne : q ≠ p := by
        rintro rfl
        rw [pcs_goTo_self] at hpc
        cases hpc
      rw [pcs_goTo_of_ne hne] at hpc
      exact h.path q r hpc hseen
  | step p answer =>
      cases effect_initStep hstep with
      | goes _ _ _ hunlink =>
          have hne : q ≠ p := by
            rintro rfl
            rw [pcs_goTo_self] at hpc
            exact hunlink hpc
          rw [pcs_goTo_of_ne hne] at hpc
          rw [recordConnects_of_ne hne] at hseen
          exact h.path q r hpc hseen
      | @refused q' hconnect hpath hrefused =>
          by_cases heq : q = p
          · subst heq
            rw [recordConnects_self hconnect] at hseen
            intro hr
            cases hpath.symm.trans hr
            exact absurd (hrefused.symm.trans hseen) Bool.false_ne_true
          · rw [pcs_goTo_of_ne heq] at hpc
            rw [recordConnects_of_ne heq] at hseen
            exact h.path q r hpc hseen
      | unlinks _ _ =>
          intro hr
          cases hr
      | binds hpc' _ =>
          -- who binds its socket has not done so before
          rintro ⟨⟩
          rcases hpc' with hbind | hbind
          · rw [hbind] at hpast
            cases hpast
          · rw [hbind] at hpast
            cases hpast

/-- A process that listens loses its name only to a process that was refused before it listened. -/
theorem name_lost_to_earlier (as : List InitAction) :
    (switchStarts.withHistory recordConnects).EveryStep
      (fun s a t => ∀ p, (s.1.pcs p).Listens = true → s.1.path = some p → t.1.path ≠ some p →
        ∃ q answer, a = .step q answer ∧ s.1.pcs q = .unlink ∧ s.2 q p = false)
      (start, fun _ _ => false) as := by
  have hall : ∀ a ∈ as, (fun _ : InitAction => True) a := fun _ _ => trivial
  refine Machine.everyStep_of_forall (fun s => s.1.Refusals s.2) ?_ ?_ hall
  · rintro ⟨s, seen⟩ a ⟨t, seen'⟩ h _ hstep
    rcases Machine.withHistory_step.1 hstep with ⟨hs, hseen⟩
    have hseen' : seen' = recordConnects s a t seen := hseen
    refine ⟨?_, ?_⟩
    · rw [hseen']
      exact h.step hs
    · intro p _ hpath hlost
      cases a with
      | kill q =>
          cases hs
          exact absurd hpath hlost
      | step q answer =>
          cases effect_initStep hs with
          | goes _ _ _ _ => exact absurd hpath hlost
          | refused _ _ _ => exact absurd hpath hlost
          | unlinks hpc _ =>
              refine ⟨q, answer, rfl, hpc, Bool.eq_false_iff.2 fun htrue => ?_⟩
              exact h.path q p hpc htrue hpath
          | binds _ hnone =>
              cases hnone.symm.trans hpath
  · exact ⟨fun q p hseen => absurd hseen Bool.false_ne_true,
      fun q p _ hseen => absurd hseen Bool.false_ne_true⟩

/-! ## One start after the other -/

/-- Nobody tries to bind its socket while another process has done so and does not listen yet. -/
def Serial (s : Starts) : InitAction → Prop
  | .step p _ => s.pcs p = .bind → ∀ q, q ≠ p → (s.pcs q).Claims = false
  | .kill _ => True

/-- Whoever has bound its socket is the one that the name leads to. -/
structure Owned (s : Starts) : Prop where
  path : ∀ p, (s.pcs p).Holds = true → s.path = some p
  single : ∀ p q, (s.pcs p).Claims = true → (s.pcs q).Claims = true → p = q
  free : ∀ p, s.pcs p = .unlink → ∀ q, (s.pcs q).Holds = false

theorem owned_start : start.Owned where
  path := fun _ h => absurd h Bool.false_ne_true
  single := fun _ _ h _ => absurd h Bool.false_ne_true
  free := fun _ _ _ => rfl

/-- The process at `p` may begin to claim the name: nobody else does. -/
theorem Owned.single_goTo (h : s.Owned) {pc : InitPc}
    (hpc : pc.Claims = true → (s.pcs p).Claims = true ∨ ∀ q, q ≠ p → (s.pcs q).Claims = false)
    (r q : Nat) (hr : ((s.goTo p pc).pcs r).Claims = true)
    (hq : ((s.goTo p pc).pcs q).Claims = true) : r = q := by
  -- nobody but `p` claims the name if `p` does
  have hother : ∀ q, q ≠ p → ((s.goTo p pc).pcs q).Claims = true → pc.Claims = false := by
    intro q hne hclaims
    rw [pcs_goTo_of_ne hne] at hclaims
    refine Bool.eq_false_iff.2 fun htrue => ?_
    rcases hpc htrue with hp | hnone
    · exact hne (h.single q p hclaims hp)
    · rw [hnone q hne] at hclaims
      cases hclaims
  by_cases hrp : r = p
  · by_cases hqp : q = p
    · rw [hrp, hqp]
    · rw [hrp, pcs_goTo_self] at hr
      rw [hother q hqp hq] at hr
      cases hr
  · by_cases hqp : q = p
    · rw [hqp, pcs_goTo_self] at hq
      rw [hother r hrp hr] at hq
      cases hq
    · rw [pcs_goTo_of_ne hrp] at hr
      rw [pcs_goTo_of_ne hqp] at hq
      exact h.single r q hr hq

/-- A process that goes on and does not touch the name. -/
theorem Owned.goTo (h : s.Owned) {pc : InitPc}
    (hholds : pc.Holds = true → (s.pcs p).Holds = true)
    (hclaims : pc.Claims = true → (s.pcs p).Claims = true ∨ ∀ q, q ≠ p → (s.pcs q).Claims = false)
    (hunlink : pc = .unlink → ∀ q, (s.pcs q).Holds = false) : (s.goTo p pc).Owned := by
  have hback : ∀ q, ((s.goTo p pc).pcs q).Holds = true → (s.pcs q).Holds = true := by
    intro q hq
    by_cases heq : q = p
    · rw [heq, pcs_goTo_self] at hq
      rw [heq]
      exact hholds hq
    · rwa [pcs_goTo_of_ne heq] at hq
  refine ⟨fun q hq => h.path q (hback q hq), h.single_goTo hclaims, fun q hq r => ?_⟩
  have hnone : ∀ r, (s.pcs r).Holds = false := by
    by_cases heq : q = p
    · rw [heq, pcs_goTo_self] at hq
      exact hunlink hq
    · rw [pcs_goTo_of_ne heq] at hq
      exact h.free q hq
  exact Bool.eq_false_iff.2 fun htrue => Bool.false_ne_true ((hnone r).symm.trans (hback r htrue))

/-- If the name is free, nobody has bound a socket to it. -/
theorem Owned.holds_of_none (h : s.Owned) (hnone : s.path = none) (q : Nat) :
    (s.pcs q).Holds = false := by
  refine Bool.eq_false_iff.2 fun hholds => ?_
  cases hnone.symm.trans (h.path q hholds)

theorem Owned.effect (h : s.Owned)
    (hserial : s.pcs p = .bind → ∀ q, q ≠ p → (s.pcs q).Claims = false) (heffect : Effect s p t) :
    t.Owned := by
  cases heffect with
  | goes hholds hclaims _ hunlink =>
      refine h.goTo hholds ?_ fun heq => absurd heq hunlink
      exact fun hpc => (hclaims hpc).imp_right hserial
  | @refused q hconnect hpath hrefused =>
      have hp : (s.pcs p).Claims = true := by rw [hconnect]; rfl
      refine h.goTo (fun hholds => by cases hholds) (fun _ => Or.inl hp) fun _ r => ?_
      -- whose name it is does not listen, and would be a second one that claims the name
      refine Bool.eq_false_iff.2 fun hholds => ?_
      have hqr : q = r := Option.some.inj (hpath.symm.trans (h.path r hholds))
      rw [hqr] at hrefused
      have hrp := h.single r p (InitPc.claims_of_holds hholds hrefused) hp
      rw [hrp, hconnect] at hholds
      cases hholds
  | unlinks hunlink _ =>
      have hnone := h.free p hunlink
      have hp : (s.pcs p).Claims = true := by rw [hunlink]; rfl
      have howned : (s.goTo p .bindAgain).Owned :=
        h.goTo (fun hholds => by cases hholds) (fun _ => Or.inl hp) fun heq => by cases heq
      refine ⟨fun q hq => ?_, howned.single, howned.free⟩
      by_cases heq : q = p
      · subst heq
        have hself : (s.goTo q .bindAgain).pcs q = .bindAgain := pcs_goTo_self _
        rw [hself] at hq
        cases hq
      · have hother : (s.goTo p .bindAgain).pcs q = s.pcs q := pcs_goTo_of_ne heq _
        rw [hother, hnone q] at hq
        cases hq
  | binds hpc hnone =>
      have hnobody := h.holds_of_none hnone
      refine ⟨fun q hq => ?_, h.single_goTo fun _ => ?_, fun q hq r => ?_⟩
      · by_cases heq : q = p
        · rw [heq]
          rfl
        · have hother : (s.bound p).pcs q = s.pcs q := pcs_goTo_of_ne heq _
          rw [hother, hnobody q] at hq
          cases hq
      · exact hpc.elim (fun hbind => Or.inr (hserial hbind)) fun hagain => Or.inl (by rw [hagain]; rfl)
      · -- nobody unlinks while this process claims the name
        have hne : q ≠ p := by
          rintro rfl
          have hself : (s.bound q).pcs q = .chmodSocket := pcs_goTo_self _
          cases hself.symm.trans hq
        have hother : (s.bound p).pcs q = s.pcs q := pcs_goTo_of_ne hne _
        rw [hother] at hq
        have hclaims : (s.pcs q).Claims = true := by rw [hq]; rfl
        rcases hpc with hbind | hagain
        · rw [hserial hbind q hne] at hclaims
          cases hclaims
        · exact absurd (h.single q p hclaims (by rw [hagain]; rfl)) hne

theorem Owned.step (h : s.Owned) (hserial : s.Serial a) (hstep : switchStarts.step s a = some t) :
    t.Owned := by
  cases a with
  | kill p =>
      cases hstep
      exact h.goTo (fun hholds => by cases hholds) (fun hclaims => by cases hclaims)
        fun heq => by cases heq
  | step p answer => exact h.effect hserial (effect_initStep hstep)

theorem owned_of_run {as : List InitAction} (hserial : switchStarts.Guarded Serial start as)
    (h : switchStarts.run start as = some s) : s.Owned :=
  Machine.invariant_run_guarded Owned (fun _ _ _ => Owned.step) owned_start hserial h

/-- If starts do not overlap, one switch listens at most, and the name leads to it. -/
theorem one_listens {as : List InitAction} (hserial : switchStarts.Guarded Serial start as)
    (h : switchStarts.run start as = some s) (hp : (s.pcs p).Listens = true) :
    s.path = some p ∧ ∀ q, (s.pcs q).Listens = true → q = p := by
  have howned := owned_of_run hserial h
  have hpath := howned.path p (InitPc.holds_of_listens hp)
  refine ⟨hpath, fun q hq => ?_⟩
  exact Option.some.inj ((howned.path q (InitPc.holds_of_listens hq)).symm.trans hpath)

/-- The process makes `n` calls, and none is made to fail. -/
def alone (p n : Nat) : List InitAction :=
  List.replicate n (.step p .normal)

theorem serial_alone {n : Nat} (h : ∀ q, q ≠ p → (s.pcs q).Claims = false) :
    switchStarts.Guarded Serial s (alone p n) := by
  induction n generalizing s with
  | zero => trivial
  | succ n ih =>
      refine ⟨fun _ => h, fun t hstep => ih fun q hne => ?_⟩
      rw [(effect_initStep hstep).others hne]
      exact h q hne

/-- Where nobody claims the name, nobody does after a start that has come to its end. -/
theorem claims_of_run_alone {n : Nat} (h : ∀ q, (s.pcs q).Claims = false)
    (hrun : switchStarts.run s (alone p n) = some t) (hp : (t.pcs p).Claims = false) :
    ∀ q, (t.pcs q).Claims = false := by
  have hothers : ∀ q, q ≠ p → t.pcs q = s.pcs q := by
    refine Machine.invariant_run_of_forall (fun u => ∀ q, q ≠ p → u.pcs q = s.pcs q) ?_
      (fun _ _ => rfl) (fun a ha => List.eq_of_mem_replicate ha) hrun
    rintro u a v hu rfl hstep q hq
    exact ((effect_initStep hstep).others hq).trans (hu q hq)
  intro q
  by_cases hq : q = p
  · rw [hq]
    exact hp
  · rw [hothers q hq]
    exact h q

/-- A switch starts, a second one is turned away, and when the first one has been killed a third one
takes its name over. -/
theorem one_listens_one_by_one :
    ∃ s, switchStarts.run start (alone 0 13 ++ (alone 1 10 ++ (.kill 0 :: alone 2 17))) = some s ∧
      (s.pcs 0, s.pcs 1, s.pcs 2) = (.ended, .ended, .running) ∧
      s.path = some 2 ∧ ∀ q, (s.pcs q).Listens = true → q = 2 := by
  have hfirst : (switchStarts.run start (alone 0 13)).map (fun s => s.pcs 0) = some .running := by
    decide
  have hsecond : (switchStarts.run start (alone 0 13 ++ alone 1 10)).map (fun s => s.pcs 1) =
      some .ended := by
    decide
  have hthird : (switchStarts.run start (alone 0 13 ++ (alone 1 10 ++ (.kill 0 :: alone 2 17)))).map
      (fun s => (s.pcs 0, s.pcs 1, s.pcs 2)) = some (.ended, .ended, .running) := by
    decide
  rcases Option.map_eq_some_iff.1 hthird with ⟨s, hrun, hpcs⟩
  have hserial : switchStarts.Guarded Serial start
      (alone 0 13 ++ (alone 1 10 ++ (.kill 0 :: alone 2 17))) := by
    refine switchStarts.guarded_append.2 ⟨serial_alone fun _ _ => rfl, fun u hu => ?_⟩
    have hu0 : u.pcs 0 = .running := by simpa [hu] using hfirst
    have hquiet := claims_of_run_alone (fun _ => rfl) hu (by rw [hu0]; rfl)
    refine switchStarts.guarded_append.2 ⟨serial_alone fun q _ => hquiet q, fun v hv => ?_⟩
    have hv1 : v.pcs 1 = .ended := by simpa [Machine.run_append, hu, hv] using hsecond
    have hquiet' := claims_of_run_alone hquiet hv (by rw [hv1]; rfl)
    refine ⟨trivial, fun w hw => serial_alone fun q _ => ?_⟩
    -- a process that has been killed claims nothing
    cases hw
    by_cases hq : q = 0
    · rw [hq, pcs_goTo_self]
      rfl
    · rw [pcs_goTo_of_ne hq]
      exact hquiet' q
  have hlistens : (s.pcs 2).Listens = true := by
    rw [(Prod.mk.inj (Prod.mk.inj hpcs).2).2]
    rfl
  exact ⟨s, hrun, hpcs, one_listens hserial hrun hlistens⟩

/-- Where starts overlap, two switches may run, one of them without its name. -/
example : ((switchStarts.run start (alone 0 8 ++ alone 1 17 ++ alone 0 5)).map fun s =>
    (s.pcs 0, s.pcs 1, s.path)) = some (.running, .running, some 1) := by
  decide

/-! ## A start that nothing comes between -/

theorem goTo_goTo (pc pc' : InitPc) : (s.goTo p pc).goTo p pc' = s.goTo p pc' := by
  simp [goTo]

theorem run_alone_add {n m : Nat} (h : switchStarts.run s (alone p n) = some t) :
    switchStarts.run s (alone p (n + m)) = switchStarts.run t (alone p m) := by
  rw [alone, List.replicate_add, Machine.run_append]
  rw [alone] at h
  rw [h]
  rfl

/-- The calls in front of `bind`. -/
theorem run_to_bind (h : s.pcs p = .socket) :
    switchStarts.run s (alone p 7) = some (s.goTo p .bind) := by
  simp [alone, List.replicate, Machine.run_cons, switchStarts, Starts.step, initStep, h, call,
    goTo_goTo]

/-- The calls behind `bind`. -/
theorem run_from_bound (h : s.pcs p = .chmodSocket) :
    switchStarts.run s (alone p 5) = some (s.goTo p .running) := by
  simp [alone, List.replicate, Machine.run_cons, switchStarts, Starts.step, initStep, h, call,
    goTo_goTo]

/-- Nobody has the name. -/
theorem run_free (h : s.pcs p = .bind) (hpath : s.path = none) :
    switchStarts.run s (alone p 1) = some (s.bound p) := by
  simp [alone, Machine.run_singleton, switchStarts, Starts.step, initStep, h, hpath]

/-- Somebody listens. -/
theorem run_taken (h : s.pcs p = .bind) (hpath : s.path = some q) (hq : (s.pcs q).Listens = true) :
    switchStarts.run s (alone p 3) = some (s.goTo p .ended) := by
  have hne : q ≠ p := by
    rintro rfl
    rw [h] at hq
    cases hq
  have hpath' : ∀ pc, (s.goTo p pc).path = some q := fun _ => hpath
  simp [alone, List.replicate, Machine.run_cons, switchStarts, Starts.step, initStep, h, hpath,
    hpath', call, goTo_goTo, pcs_goTo_of_ne hne, hq]

/-- The name is left over from a switch that has ended. -/
theorem run_left_over (h : s.pcs p = .bind) (hpath : s.path = some q)
    (hq : (s.pcs q).Listens = false) :
    switchStarts.run s (alone p 5) = some (s.bound p) := by
  have hconnect : ((s.goTo p .connect).pcs q).Listens = false := by
    by_cases heq : q = p
    · rw [heq, pcs_goTo_self]
      rfl
    · rw [pcs_goTo_of_ne heq]
      exact hq
  have hpath' : ∀ pc, (s.goTo p pc).path = some q := fun _ => hpath
  have hagain : ({ s.goTo p .bindAgain with path := none } : Starts).goTo p .chmodSocket =
      { s.goTo p .chmodSocket with path := none } := by
    simp [goTo]
  simp [alone, List.replicate, Machine.run_cons, switchStarts, Starts.step, initStep, h, hpath,
    hpath', call, goTo_goTo, hconnect, bound, hagain]

theorem run_bound (s : Starts) (p : Nat) :
    ∃ t, switchStarts.run (s.bound p) (alone p 5) = some t ∧ t.pcs p = .running ∧
      t.path = some p ∧ ∀ q, q ≠ p → t.pcs q = s.pcs q := by
  have hself : (s.bound p).pcs p = .chmodSocket := pcs_goTo_self _
  refine ⟨_, run_from_bound hself, pcs_goTo_self _, rfl, fun q hne => ?_⟩
  exact (pcs_goTo_of_ne hne _).trans (pcs_goTo_of_ne hne _)

/-- A start that nothing comes between fails if a switch listens, which keeps its name, and succeeds
if none does, whatever is left over. -/
theorem start_alone {as : List InitAction} (hserial : switchStarts.Guarded Serial start as)
    (h : switchStarts.run start as = some s) (hp : s.pcs p = .socket) :
    ∃ n t, switchStarts.run s (alone p n) = some t ∧ (∀ q, q ≠ p → t.pcs q = s.pcs q) ∧
      ((∃ q, (s.pcs q).Listens = true) → t.pcs p = .ended ∧ t.path = s.path) ∧
        ((∀ q, (s.pcs q).Listens = false) → t.pcs p = .running ∧ t.path = some p) := by
  have howned := owned_of_run hserial h
  have hbind := run_to_bind hp
  have hpc : (s.goTo p .bind).pcs p = .bind := pcs_goTo_self _
  cases hpath : s.path with
  | none =>
      have hnobody : ∀ q, (s.pcs q).Listens = false := by
        intro q
        refine Bool.eq_false_iff.2 fun hlistens => ?_
        cases hpath.symm.trans (howned.path q (InitPc.holds_of_listens hlistens))
      rcases run_bound (s.goTo p .bind) p with ⟨t, hrun, hrunning, hname, hothers⟩
      refine ⟨7 + (1 + 5), t, ?_, ?_, ?_, fun _ => ⟨hrunning, hname⟩⟩
      · rw [run_alone_add hbind, run_alone_add (run_free hpc hpath), hrun]
      · exact fun q hne => (hothers q hne).trans (pcs_goTo_of_ne hne _)
      · rintro ⟨q, hq⟩
        rw [hnobody q] at hq
        cases hq
  | some r =>
      have hr : ((s.goTo p .bind).pcs r).Listens = (s.pcs r).Listens := by
        by_cases heq : r = p
        · rw [heq, pcs_goTo_self, hp]
          rfl
        · rw [pcs_goTo_of_ne heq]
      cases hlistens : (s.pcs r).Listens with
      | true =>
          refine ⟨7 + 3, _, ?_, ?_, fun _ => ⟨pcs_goTo_self _, hpath⟩, ?_⟩
          · rw [run_alone_add hbind, run_taken hpc hpath (hr.trans hlistens), goTo_goTo]
          · exact fun q hne => pcs_goTo_of_ne hne _
          · intro hnobody
            rw [hnobody r] at hlistens
            cases hlistens
      | false =>
          rcases run_bound (s.goTo p .bind) p with ⟨t, hrun, hrunning, hname, hothers⟩
          refine ⟨7 + (5 + 5), t, ?_, ?_, ?_, fun _ => ⟨hrunning, hname⟩⟩
          · rw [run_alone_add hbind, run_alone_add (run_left_over hpc hpath (hr.trans hlistens)),
              hrun]
          · exact fun q hne => (hothers q hne).trans (pcs_goTo_of_ne hne _)
          · -- who listens has the name
            rintro ⟨q, hq⟩
            have hname' := howned.path q (InitPc.holds_of_listens hq)
            rw [hpath] at hname'
            cases hname'
            rw [hlistens] at hq
            cases hq

theorem start_alone_second :
    ∃ s, switchStarts.run start (alone 0 13) = some s ∧
      ∃ n t, switchStarts.run s (alone 1 n) = some t ∧ (∀ q, q ≠ 1 → t.pcs q = s.pcs q) ∧
        ((∃ q, (s.pcs q).Listens = true) → t.pcs 1 = .ended ∧ t.path = s.path) ∧
          ((∀ q, (s.pcs q).Listens = false) → t.pcs 1 = .running ∧ t.path = some 1) := by
  have hserial : switchStarts.Guarded Serial start (alone 0 13) := serial_alone fun _ _ => rfl
  refine ⟨_, rfl, ?_⟩
  exact start_alone hserial rfl rfl

end Starts

end ControlPlane
end EVdeSwitch
