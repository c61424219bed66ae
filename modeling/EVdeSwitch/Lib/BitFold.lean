import Mathlib.Algebra.Group.Nat.Even
import Mathlib.Data.List.Basic
import Mathlib.Data.Nat.Bits
import Mathlib.Tactic.Ring

/-!
# BitFold — values combined over set bits

Each position of a string of bits has a value, and the values at the set bits are combined.  Where
every value is its own inverse the result is linear in the bits; where the values repeat, strings
may be folded onto each other.
-/

namespace EVdeSwitch
namespace Lib

/-! ## The fold -/

section Fold

variable {α : Type*} (op : α → α → α) (e : α)

/-- The values `w i` of the set ones among the first `n` bits, from the left. -/
def bitFold (w : Nat → α) (p : Nat → Bool) (n : Nat) : α :=
  (List.range n).foldl (fun r i => if p i then op r (w i) else r) e

variable {op e} {w v : Nat → α} {p q : Nat → Bool} {n : Nat}

theorem bitFold_zero : bitFold op e w p 0 = e := rfl

theorem bitFold_succ : bitFold op e w p (n + 1) =
    if p n then op (bitFold op e w p n) (w n) else bitFold op e w p n := by
  rw [bitFold, List.range_succ, List.foldl_append]
  rfl

theorem bitFold_congr (hw : ∀ i < n, p i = true → w i = v i) (hp : ∀ i < n, p i = q i) :
    bitFold op e w p n = bitFold op e v q n := by
  induction n with
  | zero => rfl
  | succ n ih =>
      have hrest := ih (fun i hi => hw i (Nat.lt_succ_of_lt hi))
        (fun i hi => hp i (Nat.lt_succ_of_lt hi))
      rw [bitFold_succ, bitFold_succ, hrest, ← hp n (Nat.lt_succ_self n)]
      split
      · next hset => rw [hw n (Nat.lt_succ_self n) hset]
      · rfl

/-- No bit is set. -/
theorem bitFold_of_false (hp : ∀ i < n, p i = false) : bitFold op e w p n = e := by
  induction n with
  | zero => rfl
  | succ n ih =>
      rw [bitFold_succ, hp n (Nat.lt_succ_self n), if_neg Bool.false_ne_true]
      exact ih fun i hi => hp i (Nat.lt_succ_of_lt hi)

/-- One bit is set. -/
theorem bitFold_single [Std.LawfulIdentity op e] {i : Nat} (hi : i < n)
    (hp : ∀ j < n, p j = decide (j = i)) : bitFold op e w p n = w i := by
  induction n with
  | zero => exact absurd hi (Nat.not_lt_zero i)
  | succ n ih =>
      have hbelow : ∀ j < n, p j = decide (j = i) := fun j hj => hp j (Nat.lt_succ_of_lt hj)
      rw [bitFold_succ, hp n (Nat.lt_succ_self n)]
      by_cases heq : n = i
      · subst heq
        have hnone : ∀ j < n, p j = false := by
          intro j hj
          rw [hbelow j hj]
          exact decide_eq_false hj.ne
        rw [decide_eq_true rfl, if_pos rfl, bitFold_of_false hnone]
        exact Std.LawfulLeftIdentity.left_id _
      · rw [decide_eq_false heq, if_neg Bool.false_ne_true]
        exact ih (by omega) hbelow

/-- Two assignments of values give the same for all bits exactly if they are the same. -/
theorem bitFold_eq_iff [Std.LawfulIdentity op e] :
    (∀ p, bitFold op e w p n = bitFold op e v p n) ↔ ∀ i < n, w i = v i := by
  constructor
  · intro h i hi
    have hsingle := h fun j => decide (j = i)
    rwa [bitFold_single hi fun _ _ => rfl, bitFold_single hi fun _ _ => rfl] at hsingle
  · intro h p
    exact bitFold_congr (fun i hi _ => h i hi) fun _ _ => rfl

/-- A string in two parts. -/
theorem bitFold_add [Std.Associative op] [Std.LawfulIdentity op e] {m : Nat} :
    bitFold op e w p (n + m) =
      op (bitFold op e w p n) (bitFold op e (fun i => w (n + i)) (fun i => p (n + i)) m) := by
  induction m with
  | zero => exact (Std.LawfulRightIdentity.right_id _).symm
  | succ m ih =>
      rw [← Nat.add_assoc, bitFold_succ, bitFold_succ, ih]
      split
      · exact Std.Associative.assoc _ _ _
      · rfl

/-- Where each value is its own inverse, bits are added without carry. -/
theorem bitFold_xor [Std.Associative op] [Std.Commutative op] [Std.LawfulIdentity op e]
    (hself : ∀ x, op x x = e) :
    op (bitFold op e w p n) (bitFold op e w q n) =
      bitFold op e w (fun i => p i ^^ q i) n := by
  induction n with
  | zero => exact hself e
  | succ n ih =>
      have hcancel : ∀ a b x : α, op (op a x) (op b x) = op a b := by
        intro a b x
        calc
          op (op a x) (op b x) = op (op a b) (op x x) := by ac_rfl
          _ = op (op a b) e := by rw [hself]
          _ = op a b := Std.LawfulRightIdentity.right_id _
      have hright : ∀ a b x : α, op a (op b x) = op (op a b) x := by
        intro a b x
        ac_rfl
      have hleft : ∀ a b x : α, op (op a x) b = op (op a b) x := by
        intro a b x
        ac_rfl
      rw [bitFold_succ, bitFold_succ, bitFold_succ, ← ih]
      cases p n <;> cases q n
      · rfl
      · exact hright _ _ _
      · exact hleft _ _ _
      · exact hcancel _ _ _

/-- What respects the operation may be applied to the values first. -/
theorem map_bitFold {β : Type*} {op' : β → β → β} {e' : β} {g : α → β} (he : g e = e')
    (hop : ∀ x y, g (op x y) = op' (g x) (g y)) :
    g (bitFold op e w p n) = bitFold op' e' (fun i => g (w i)) p n := by
  induction n with
  | zero => exact he
  | succ n ih =>
      rw [bitFold_succ, bitFold_succ, ← ih]
      split
      · exact hop _ _
      · rfl

end Fold

/-- Two folds of bits are the same exactly if an even number of set positions tells them apart. -/
theorem bitFold_xor_eq_iff {w v p : Nat → Bool} {n : Nat} :
    bitFold xor false w p n = bitFold xor false v p n ↔
      Even ((List.range n).countP fun i => p i && (w i ^^ v i)) := by
  have hparity : (bitFold xor false w p n ^^ bitFold xor false v p n) =
      ((List.range n).countP fun i => p i && (w i ^^ v i)).bodd := by
    induction n with
    | zero => simp [bitFold_zero]
    | succ n ih =>
        rw [bitFold_succ, bitFold_succ, List.range_succ, List.countP_append, Nat.bodd_add, ← ih,
          List.countP_singleton]
        cases p n
        · simp
        · cases w n <;> cases v n <;> simp
  have hodd := Nat.mod_two_of_bodd ((List.range n).countP fun i => p i && (w i ^^ v i))
  rw [← hparity] at hodd
  rw [Nat.even_iff, hodd]
  cases bitFold xor false w p n <;> cases bitFold xor false v p n <;> decide


/-! ## Words -/

/-- The number with these bits, the first of them on top. -/
def bitsWord (p : Nat → Bool) : Nat → Nat
  | 0 => 0
  | n + 1 => Nat.bit (p n) (bitsWord p n)

theorem testBit_bitsWord (p : Nat → Bool) {n t : Nat} (ht : t < n) :
    (bitsWord p n).testBit (n - 1 - t) = p t := by
  induction n with
  | zero => exact absurd ht (Nat.not_lt_zero t)
  | succ n ih =>
      rcases Nat.eq_or_lt_of_le (Nat.lt_succ_iff.1 ht) with rfl | hlt
      · rw [Nat.add_sub_cancel, Nat.sub_self, bitsWord, Nat.testBit_bit_zero]
      · have hplace : n + 1 - 1 - t = n - 1 - t + 1 := by omega
        rw [hplace, bitsWord, Nat.testBit_bit_succ, ih hlt]

/-! ## Strings that repeat -/

section Period

variable {α : Type*} {f : Nat → α} {p a b : Nat}

/-- From `a` on and below `b`, what stands `p` places further on is the same. -/
def PeriodicOn (f : Nat → α) (p a b : Nat) : Prop :=
  ∀ j, a ≤ j → j + p < b → f (j + p) = f j

theorem PeriodicOn.steps (h : PeriodicOn f p a b) (k : Nat) :
    ∀ j, a ≤ j → j + p * k < b → f (j + p * k) = f j := by
  induction k with
  | zero =>
      intro j _ _
      rfl
  | succ k ih =>
      intro j hj hlt
      have hsplit : j + p * (k + 1) = j + p * k + p := by ring
      rw [hsplit] at hlt ⊢
      rw [h (j + p * k) (by omega) hlt]
      exact ih j hj (by omega)

/-- Windows of `width` places that advance by `p + 1` places instead of by one show the same
exactly if the string has period `p`. -/
theorem windows_eq_iff {m width : Nat} (hwidth : p + 1 ≤ width) (hm : 2 ≤ m) :
    (∀ i < m, ∀ t < width, f ((p + 1) * i + t) = f (i + t)) ↔
      PeriodicOn f p 1 ((p + 1) * (m - 1) + width) := by
  constructor
  · intro h j
    -- place `j + p` lies in some window, whose other reading is a whole number of periods before
    induction j using Nat.strong_induction_on with
    | h j ih =>
        intro hj hlt
        have hwindow : ∃ i t, 1 ≤ i ∧ i < m ∧ t < width ∧ (p + 1) * i + t = j + p := by
          rcases Nat.lt_or_ge ((j + p) / (p + 1)) m with hin | hout
          · refine ⟨(j + p) / (p + 1), (j + p) % (p + 1), ?_, hin, ?_, Nat.div_add_mod _ _⟩
            · exact Nat.div_pos (by omega) (Nat.succ_pos p)
            · exact lt_of_lt_of_le (Nat.mod_lt _ (Nat.succ_pos p)) hwidth
          · have hle : (p + 1) * (m - 1) ≤ j + p := by
              refine le_trans (Nat.mul_le_mul_left _ (le_trans (Nat.sub_le m 1) hout)) ?_
              exact Nat.mul_div_le _ _
            exact ⟨m - 1, j + p - (p + 1) * (m - 1), by omega, by omega, by omega, by omega⟩
        rcases hwindow with ⟨i, t, hi, him, ht, hplace⟩
        have hfirst : i + t + p * (i - 1) = j := by
          have hmul : p * i = p * (i - 1) + p := by
            rw [← Nat.mul_succ, Nat.succ_eq_add_one, Nat.sub_add_cancel hi]
          have hexpand : (p + 1) * i = p * i + i := by ring
          omega
        have hback : PeriodicOn f p 1 (j + 1) := by
          intro k hk hkj
          rcases Nat.eq_zero_or_pos p with hzero | hpos
          · rw [hzero, Nat.add_zero]
          · exact ih k (by omega) hk (by omega)
        calc
          f (j + p) = f (i + t) := by rw [← hplace, h i him t ht]
          _ = f (i + t + p * (i - 1)) := (hback.steps (i - 1) _ (by omega) (by omega)).symm
          _ = f j := by rw [hfirst]
  · intro h i hi t ht
    rcases Nat.eq_zero_or_pos i with rfl | hpos
    · rw [Nat.mul_zero]
    · have hexpand : (p + 1) * i + t = i + t + p * i := by ring
      have hle : (p + 1) * i ≤ (p + 1) * (m - 1) := Nat.mul_le_mul_left _ (by omega)
      rw [hexpand]
      exact h.steps i (i + t) (by omega) (by omega)

end Period

end Lib
end EVdeSwitch
