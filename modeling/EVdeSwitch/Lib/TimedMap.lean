import Mathlib.Data.List.Induction
import Mathlib.Logic.Function.Basic

/-!
# TimedMap — a map whose entries age

What a table with a time to live is for: a lookup answers with the last value inserted under the
key, as long as that insertion is at most `ttl` old.  Lookups leave such a map alone.

An implementation that reacts to a late lookup by retiring the entry is told apart from the map
by the keys that have *lapsed*: a lookup has come too late for the last insertion before it.
-/

namespace EVdeSwitch
namespace Lib

universe u v

/-- The last value inserted under each key, with the time of the insertion. -/
abbrev TimedMap (κ : Type u) (ν : Type v) : Type (max u v) :=
  κ → Option (ν × Nat)

/-- An operation on a timed map, at a time. -/
inductive TimedOp (κ : Type u) (ν : Type v)
  | insert (k : κ) (value : ν) (time : Nat)
  | lookup (k : κ) (time : Nat)
  deriving DecidableEq, Repr

namespace TimedOp

variable {κ : Type u} {ν : Type v}

def time : TimedOp κ ν → Nat
  | .insert _ _ time => time
  | .lookup _ time => time

end TimedOp

namespace TimedMap

variable {κ : Type u} {ν : Type v}

def empty : TimedMap κ ν :=
  fun _ => none

/-- The entry under `k` is more than `ttl` old. -/
def Overdue (ttl : Nat) (m : TimedMap κ ν) (k : κ) (time : Nat) : Prop :=
  ∃ value inserted, m k = some (value, inserted) ∧ time - inserted > ttl

/-- The answer of a map with time to live `ttl`. -/
def lookup (ttl : Nat) (m : TimedMap κ ν) (k : κ) (time : Nat) : Option ν :=
  (m k).bind fun entry => if time - entry.2 > ttl then none else some entry.1

section Answers

variable {ttl : Nat} {m : TimedMap κ ν} {k : κ} {value : ν} {inserted time : Nat}

/-- The answer is the value of a recent enough insertion. -/
theorem lookup_eq_some_iff :
    lookup ttl m k time = some value ↔
      ∃ inserted, m k = some (value, inserted) ∧ time - inserted ≤ ttl := by
  rcases hentry : m k with _ | ⟨value', inserted⟩
  · simp [lookup, hentry]
  · by_cases hgt : time - inserted > ttl
    · simp only [lookup, hentry, Option.bind_some, if_pos hgt]
      constructor
      · intro h
        cases h
      · rintro ⟨_, heq, hle⟩
        cases heq
        exact absurd hle (Nat.not_le.2 hgt)
    · simp only [lookup, hentry, Option.bind_some, if_neg hgt]
      constructor
      · intro h
        cases h
        exact ⟨inserted, rfl, Nat.not_lt.1 hgt⟩
      · rintro ⟨_, heq, _⟩
        cases heq
        rfl

theorem lookup_of_none (h : m k = none) : lookup ttl m k time = none := by
  simp [lookup, h]

theorem lookup_of_le (h : m k = some (value, inserted)) (hle : time - inserted ≤ ttl) :
    lookup ttl m k time = some value :=
  lookup_eq_some_iff.2 ⟨inserted, h, hle⟩

theorem lookup_of_gt (h : m k = some (value, inserted)) (hgt : time - inserted > ttl) :
    lookup ttl m k time = none := by
  simp only [lookup, h, Option.bind_some, if_pos hgt]

theorem overdue_iff (h : m k = some (value, inserted)) :
    Overdue ttl m k time ↔ time - inserted > ttl := by
  constructor
  · rintro ⟨_, _, hentry, hgt⟩
    rw [h] at hentry
    cases hentry
    exact hgt
  · intro hgt
    exact ⟨value, inserted, h, hgt⟩

end Answers

/-! ## Histories -/

variable [DecidableEq κ]

def apply (m : TimedMap κ ν) : TimedOp κ ν → TimedMap κ ν
  | .insert k value time => Function.update m k (some (value, time))
  | .lookup _ _ => m

/-- The map after a history of operations. -/
def replay (history : List (TimedOp κ ν)) : TimedMap κ ν :=
  history.foldl apply empty

/-- Some lookup of `k` in the history came when the entry was overdue. -/
def Lapsed (ttl : Nat) (history : List (TimedOp κ ν)) (k : κ) : Prop :=
  ∃ earlier time later, history = earlier ++ .lookup k time :: later ∧
    Overdue ttl (replay earlier) k time

@[simp] theorem replay_nil : replay ([] : List (TimedOp κ ν)) = empty := rfl

@[simp] theorem replay_append_singleton (history : List (TimedOp κ ν)) (op : TimedOp κ ν) :
    replay (history ++ [op]) = apply (replay history) op := by
  simp [replay]

@[simp] theorem apply_insert_self (m : TimedMap κ ν) (k : κ) (value : ν) (time : Nat) :
    apply m (.insert k value time) k = some (value, time) := by
  simp [apply]

theorem apply_insert_of_ne (m : TimedMap κ ν) {k k' : κ} (value : ν) (time : Nat)
    (h : k' ≠ k) : apply m (.insert k value time) k' = m k' := by
  simp [apply, h]

/-- A key that is in the map stays in it. -/
theorem apply_ne_none (m : TimedMap κ ν) (op : TimedOp κ ν) {k : κ} (h : m k ≠ none) :
    apply m op k ≠ none := by
  cases op with
  | insert k' value time =>
      by_cases hk : k = k'
      · subst hk
        simp
      · rw [apply_insert_of_ne m value time hk]
        exact h
  | lookup k' time => exact h

variable {ttl : Nat}

/-- A key lapses with the first overdue lookup, and then stays lapsed. -/
theorem lapsed_append_singleton {history : List (TimedOp κ ν)} {op : TimedOp κ ν} {k : κ} :
    Lapsed ttl (history ++ [op]) k ↔
      Lapsed ttl history k ∨ ∃ time, op = .lookup k time ∧ Overdue ttl (replay history) k time := by
  constructor
  · rintro ⟨earlier, time, later, h, hoverdue⟩
    rcases List.eq_nil_or_concat later with rfl | ⟨later', last, rfl⟩
    · -- the last operation is the late lookup
      have hsplit := List.append_inj' h rfl
      cases hsplit.1
      cases hsplit.2
      exact Or.inr ⟨time, rfl, hoverdue⟩
    · -- the late lookup was there before
      rw [List.concat_eq_append, ← List.cons_append, ← List.append_assoc] at h
      have hsplit := List.append_inj' h rfl
      exact Or.inl ⟨earlier, time, later', hsplit.1, hoverdue⟩
  · rintro (⟨earlier, time, later, rfl, hoverdue⟩ | ⟨time, rfl, hoverdue⟩)
    · exact ⟨earlier, time, later ++ [op], by simp, hoverdue⟩
    · exact ⟨history, time, [], by simp, hoverdue⟩

/-- Only a key that was inserted can lapse. -/
theorem replay_ne_none_of_lapsed {history : List (TimedOp κ ν)} {k : κ}
    (h : Lapsed ttl history k) : replay history k ≠ none := by
  rcases h with ⟨earlier, time, later, rfl, value, inserted, hentry, _⟩
  -- no operation removes a key, so by induction on what came after the lookup
  induction later using List.reverseRecOn with
  | nil => simp [apply, hentry]
  | append_singleton later op ih =>
      rw [← List.cons_append, ← List.append_assoc, replay_append_singleton]
      exact apply_ne_none _ op ih

end TimedMap

end Lib
end EVdeSwitch
