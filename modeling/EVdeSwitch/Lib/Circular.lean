import Mathlib.Data.Nat.ModEq
import Mathlib.Tactic.Ring

/-!
# Circular — index arithmetic of circular buffers

A circular buffer of `n` slots stores entry `i` of an unbounded stream in slot `i % n`.  As long as
the live entries lie in a window of `n` consecutive ones, distinct live entries have distinct
slots, and the wrapped indices of the two ends of the window tell how many entries are live.
-/

namespace EVdeSwitch
namespace Lib
namespace Circular

variable {n i j : Nat}

/-- Two entries less than `n` apart have different slots. -/
theorem slot_ne_of_window (hij : i < j) (hj : j < i + n) : i % n ≠ j % n := by
  intro h
  -- equal slots are a multiple of `n` apart, and `j - i` is less than `n`
  have hdvd : n ∣ j - i := (Nat.modEq_iff_dvd' hij.le).1 h
  have hle : n ≤ j - i := Nat.le_of_dvd (by omega) hdvd
  omega

/-- Equal wrapped indices mean an empty window. -/
theorem eq_of_slot_eq (hij : i ≤ j) (hj : j < i + n) (h : i % n = j % n) : i = j := by
  by_contra hne
  exact slot_ne_of_window (by omega) hj h

/-- The slot after the write end is the read end exactly when one slot of the window is left. -/
theorem succ_slot_eq_iff (hij : i ≤ j) (hj : j < i + n) :
    (j + 1) % n = i % n ↔ j + 1 = i + n := by
  constructor
  · intro h
    by_contra hne
    exact slot_ne_of_window (show i < j + 1 by omega) (by omega) h.symm
  · intro h
    rw [h, Nat.add_mod_right]

/-- The number of live entries from the two wrapped ends, computed modulo any multiple of `n`. -/
theorem sub_slot_mod {m : Nat} (hn : 0 < n) (hnm : n ∣ m) (hm : n ≤ m) (hij : i ≤ j)
    (hj : j < i + n) : (j % n + m - i % n) % m % n = j - i := by
  have hlt : i % n < n := Nat.mod_lt i hn
  rw [Nat.mod_mod_of_dvd _ hnm]
  have hcong : j % n + m - i % n ≡ j - i [MOD n] := by
    -- nothing is subtracted once `i % n` is added on both sides
    refine Nat.ModEq.add_right_cancel' (i % n) ?_
    have h1 : j % n + m - i % n + i % n = j % n + m := by omega
    rw [h1]
    calc
      j % n + m ≡ j + 0 [MOD n] :=
        (Nat.mod_modEq j n).add ((Nat.modEq_zero_iff_dvd).2 hnm)
      _ = j - i + i := by omega
      _ ≡ j - i + i % n [MOD n] := (Nat.ModEq.refl _).add (Nat.mod_modEq i n).symm
  rw [hcong]
  exact Nat.mod_eq_of_lt (by omega)

end Circular
end Lib
end EVdeSwitch
