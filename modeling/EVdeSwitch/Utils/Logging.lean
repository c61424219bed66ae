/-!
# Logging — `printlog`, which ends the process

A message at level `ERROR` is followed by `exit(1)` (`src/utils/logging.c`), so a call of
`printlog` is modelled by whether it returns.  Functions that can reach such a call return in
`Except Halt`; what they have written to the state is then lost together with the process.
-/

namespace EVdeSwitch
namespace Utils

/-- How the process ends. -/
inductive Halt
  /-- `exit(status)`, after the message. -/
  | exit (status : Nat) (message : String)
  /-- Undefined behaviour or a fatal signal. -/
  | crash
  deriving DecidableEq, Repr

inductive LogLevel
  | DEBUG
  | INFO
  | WARNING
  | ERROR
  deriving DecidableEq, Repr

namespace LogLevel

def toNat : LogLevel → Nat
  | .DEBUG => 0
  | .INFO => 1
  | .WARNING => 2
  | .ERROR => 3

end LogLevel

def log_level : LogLevel := .WARNING

/-- The text is only printed, but for the last one. -/
def printlog (level : LogLevel) (fmt : String) : Except Halt Unit :=
  if log_level.toNat ≤ level.toNat then
    if level = .ERROR then .error (.exit 1 fmt) else .ok ()
  else
    .ok ()

@[simp] theorem printlog_ERROR (fmt : String) :
    printlog .ERROR fmt = .error (.exit 1 fmt) := rfl

@[simp] theorem printlog_INFO (fmt : String) : printlog .INFO fmt = .ok () := rfl

@[simp] theorem printlog_WARNING (fmt : String) : printlog .WARNING fmt = .ok () := rfl

section Returns

variable {α β : Type}

/-- A call that returns has been mapped from one that returns. -/
theorem map_eq_ok {f : α → β} {r : Except Halt α} {b : β} :
    r.map f = .ok b ↔ ∃ a, r = .ok a ∧ f a = b := by
  cases r <;> simp [Except.map]

end Returns

/-! ## `exit(1)` -/

section Exits

variable {α β : Type}

/-- A call that ends in the `exit(1)` of `printlog`. -/
def Exits (r : Except Halt α) : Prop :=
  ∃ message, r = .error (.exit 1 message)

@[simp] theorem exits_exit (message : String) :
    Exits (.error (.exit 1 message) : Except Halt α) :=
  ⟨message, rfl⟩

@[simp] theorem not_exits_ok (a : α) : ¬ Exits (.ok a : Except Halt α) := by
  rintro ⟨message, h⟩
  cases h

@[simp] theorem not_exits_crash : ¬ Exits (.error .crash : Except Halt α) := by
  rintro ⟨message, h⟩
  cases h

@[simp] theorem exits_map (f : α → β) (r : Except Halt α) : Exits (r.map f) ↔ Exits r := by
  cases r with
  | error halt =>
      -- an error passes through `map` as it is
      constructor
      · rintro ⟨message, h⟩
        cases h
        exact exits_exit message
      · rintro ⟨message, h⟩
        cases h
        exact exits_exit message
  | ok a => exact iff_of_false (not_exits_ok _) (not_exits_ok _)

theorem Exits.bind {r : Except Halt α} (h : Exits r) (f : α → Except Halt β) :
    Exits (r.bind f) := by
  rcases h with ⟨message, rfl⟩
  exact exits_exit message

end Exits

end Utils
end EVdeSwitch
