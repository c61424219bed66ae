import Mathlib.Data.List.TakeWhile
import Mathlib.Data.Nat.Digits.Lemmas

/-!
# Decimal — numbers as strings of digits

The string is in memory: a list of bytes that goes on behind it.  What is read of it is white
space, a sign and the digits up to the first byte that is none.
-/

namespace EVdeSwitch
namespace Lib

/-! ## Reading -/

def isSpace (b : UInt8) : Bool :=
  b = 32 || (9 ≤ b && b ≤ 13)

def isDigit (b : UInt8) : Bool :=
  48 ≤ b && b ≤ 57

def isSign (b : UInt8) : Bool :=
  b = 43 || b = 45

/-- The bytes that a number can be read from. -/
def isDecimal (b : UInt8) : Bool :=
  isSpace b || isSign b || isDigit b

def digitValue (b : UInt8) : Nat :=
  b.toNat - 48

/-- The value of a string of digits, whose first digit counts most. -/
def digitsValue (bytes : List UInt8) : Nat :=
  Nat.ofDigits 10 (bytes.map digitValue).reverse

/-- The digits that the memory begins with, as a number. -/
def leadingDigits (bytes : List UInt8) : Nat :=
  digitsValue (bytes.takeWhile isDigit)

def signedPrefix : List UInt8 → Int
  | [] => 0
  | b :: bytes =>
      if b = 45 then -leadingDigits bytes
      else if b = 43 then leadingDigits bytes
      else leadingDigits (b :: bytes)

/-- The number that the memory begins with, and 0 if there is none. -/
def decimalPrefix (bytes : List UInt8) : Int :=
  signedPrefix (bytes.dropWhile isSpace)

/-! ## Writing -/

def natBytes (n : Nat) : List UInt8 :=
  if n = 0 then [48] else ((Nat.digits 10 n).map fun d => UInt8.ofNat (48 + d)).reverse

def intBytes (n : Int) : List UInt8 :=
  if n < 0 then 45 :: natBytes n.natAbs else natBytes n.natAbs

/-- At least `width` digits, the missing ones being zeros. -/
def paddedBytes (width n : Nat) : List UInt8 :=
  List.replicate (width - (natBytes n).length) 48 ++ natBytes n

/-! ## Where reading stops -/

theorem takeWhile_append_stop {p : UInt8 → Bool} {b : UInt8} (hb : p b = false)
    (bytes rest : List UInt8) : (bytes ++ b :: rest).takeWhile p = bytes.takeWhile p := by
  induction bytes with
  | nil => simp [hb]
  | cons a bytes ih => cases ha : p a <;> simp [ha, ih]

theorem leadingDigits_append_stop {b : UInt8} (hb : isDigit b = false) (bytes rest : List UInt8) :
    leadingDigits (bytes ++ b :: rest) = leadingDigits bytes := by
  rw [leadingDigits, takeWhile_append_stop hb, leadingDigits]

theorem leadingDigits_of_stop {b : UInt8} (hb : isDigit b = false) (rest : List UInt8) :
    leadingDigits (b :: rest) = 0 :=
  leadingDigits_append_stop hb [] rest

theorem isDecimal_eq_false {b : UInt8} (hb : isDecimal b = false) :
    isSpace b = false ∧ b ≠ 45 ∧ b ≠ 43 ∧ isDigit b = false := by
  simp only [isDecimal, isSign, Bool.or_eq_false_iff, decide_eq_false_iff_not] at hb
  exact ⟨hb.1.1, hb.1.2.2, hb.1.2.1, hb.2⟩

theorem toNat_of_isDigit {b : UInt8} (h : isDigit b = true) : 48 ≤ b.toNat ∧ b.toNat ≤ 57 := by
  simpa [isDigit, UInt8.le_iff_toNat_le] using h

/-- The bytes of numbers are those from the tabulator to the digit 9. -/
theorem toNat_of_isDecimal {b : UInt8} (h : isDecimal b = true) : 9 ≤ b.toNat ∧ b.toNat ≤ 57 := by
  simp only [isDecimal, isSpace, isSign, Bool.or_eq_true, Bool.and_eq_true, decide_eq_true_eq,
    UInt8.le_iff_toNat_le] at h
  rcases h with ((rfl | ⟨hlow, hhigh⟩) | (rfl | rfl)) | hdigit
  · decide
  · exact ⟨hlow, le_trans hhigh (by decide)⟩
  · decide
  · decide
  · rcases toNat_of_isDigit hdigit with ⟨hlow, hhigh⟩
    exact ⟨le_trans (by decide) hlow, hhigh⟩

/-- Nothing behind a byte that is no part of a number is read, and the end of a string is one. -/
theorem decimalPrefix_append_stop {b : UInt8} (hb : isDecimal b = false)
    (bytes rest : List UInt8) : decimalPrefix (bytes ++ b :: rest) = decimalPrefix bytes := by
  rcases isDecimal_eq_false hb with ⟨hspace, hminus, hplus, hdigit⟩
  induction bytes with
  | nil =>
      simp [decimalPrefix, signedPrefix, hspace, hminus, hplus, leadingDigits_of_stop hdigit]
  | cons a bytes ih =>
      cases ha : isSpace a with
      | true => simpa [decimalPrefix, ha] using ih
      | false =>
          -- the number begins here
          have hlead := leadingDigits_append_stop hdigit bytes rest
          have hcons := leadingDigits_append_stop hdigit (a :: bytes) rest
          simp only [List.cons_append] at hcons ⊢
          simp [decimalPrefix, signedPrefix, ha, hlead, hcons]

/-! ## What is written is read -/

theorem isDigit_ofNat {d : Nat} (h : d < 10) :
    isDigit (UInt8.ofNat (48 + d)) = true ∧ digitValue (UInt8.ofNat (48 + d)) = d := by
  have hlt : 48 + d < 256 := by omega
  have hbyte : (UInt8.ofNat (48 + d)).toNat = 48 + d := UInt8.toNat_ofNat_of_lt' hlt
  refine ⟨?_, by rw [digitValue, hbyte, Nat.add_sub_cancel_left]⟩
  simp only [isDigit, Bool.and_eq_true, decide_eq_true_eq, UInt8.le_iff_toNat_le, hbyte]
  exact ⟨Nat.le_add_right _ _, by change 48 + d ≤ 57; omega⟩

theorem not_space_of_isDigit {b : UInt8} (h : isDigit b = true) :
    isSpace b = false ∧ b ≠ 45 ∧ b ≠ 43 := by
  rcases toNat_of_isDigit h with ⟨hlow, _⟩
  refine ⟨?_, ?_, ?_⟩
  · rw [isSpace, Bool.or_eq_false_iff, Bool.and_eq_false_iff]
    refine ⟨?_, Or.inr ?_⟩
    · rw [decide_eq_false_iff_not]
      rintro rfl
      exact absurd hlow (by decide)
    · rw [decide_eq_false_iff_not, UInt8.le_iff_toNat_le]
      intro hle
      have hle' : b.toNat ≤ 13 := hle
      omega
  · rintro rfl
    exact absurd hlow (by decide)
  · rintro rfl
    exact absurd hlow (by decide)

theorem leadingDigits_of_digits {bytes : List UInt8} (h : ∀ b ∈ bytes, isDigit b = true) :
    leadingDigits bytes = digitsValue bytes := by
  rw [leadingDigits, List.takeWhile_eq_self_iff.2 h]

theorem decimalPrefix_of_digits {bytes : List UInt8} (h : ∀ b ∈ bytes, isDigit b = true) :
    decimalPrefix bytes = digitsValue bytes := by
  have hlead := leadingDigits_of_digits h
  cases bytes with
  | nil => rfl
  | cons b bytes =>
      rcases not_space_of_isDigit (h b List.mem_cons_self) with ⟨hspace, hminus, hplus⟩
      simp [decimalPrefix, signedPrefix, hspace, hminus, hplus, hlead]

theorem isDigit_natBytes (n : Nat) : ∀ b ∈ natBytes n, isDigit b = true := by
  intro b hb
  by_cases hzero : n = 0
  · rw [natBytes, if_pos hzero, List.mem_singleton] at hb
    rw [hb]
    decide
  · rw [natBytes, if_neg hzero, List.mem_reverse, List.mem_map] at hb
    rcases hb with ⟨d, hd, rfl⟩
    exact (isDigit_ofNat (Nat.digits_lt_base (by decide) hd)).1

theorem digitsValue_natBytes (n : Nat) : digitsValue (natBytes n) = n := by
  by_cases hzero : n = 0
  · rw [natBytes, if_pos hzero, hzero]
    rfl
  · have hmap : ((Nat.digits 10 n).map fun d => UInt8.ofNat (48 + d)).map digitValue =
        Nat.digits 10 n := by
      rw [List.map_map]
      refine (List.map_congr_left fun d hd => ?_).trans (List.map_id _)
      exact (isDigit_ofNat (Nat.digits_lt_base (by decide) hd)).2
    rw [natBytes, if_neg hzero, digitsValue, List.map_reverse, List.reverse_reverse, hmap,
      Nat.ofDigits_digits]

theorem natBytes_injective : Function.Injective natBytes := by
  intro m n h
  have hvalue := congrArg digitsValue h
  rwa [digitsValue_natBytes, digitsValue_natBytes] at hvalue

theorem length_natBytes_le {n k : Nat} (hk : 0 < k) (h : n < 10 ^ k) : (natBytes n).length ≤ k := by
  by_cases hzero : n = 0
  · rw [natBytes, if_pos hzero]
    exact hk
  · rw [natBytes, if_neg hzero, List.length_reverse, List.length_map]
    exact (Nat.digits_length_le_iff (by decide) n).2 h

theorem isDigit_paddedBytes (width n : Nat) : ∀ b ∈ paddedBytes width n, isDigit b = true := by
  intro b hb
  rcases List.mem_append.1 hb with hzero | hdigit
  · rw [List.eq_of_mem_replicate hzero]
    decide
  · exact isDigit_natBytes n b hdigit

theorem digitsValue_paddedBytes (width n : Nat) : digitsValue (paddedBytes width n) = n := by
  have hzero : digitValue 48 = 0 := by decide
  rw [paddedBytes, digitsValue, List.map_append, List.map_replicate, hzero, List.reverse_append,
    List.reverse_replicate, Nat.ofDigits_append_replicate_zero]
  exact digitsValue_natBytes n

theorem paddedBytes_injective (width : Nat) : Function.Injective (paddedBytes width) := by
  intro m n h
  have hvalue := congrArg digitsValue h
  rwa [digitsValue_paddedBytes, digitsValue_paddedBytes] at hvalue

theorem length_paddedBytes (width n : Nat) :
    (paddedBytes width n).length = max width (natBytes n).length := by
  rw [paddedBytes, List.length_append, List.length_replicate]
  omega

theorem decimalPrefix_intBytes (n : Int) : decimalPrefix (intBytes n) = n := by
  have hdigits := isDigit_natBytes n.natAbs
  by_cases hneg : n < 0
  · have hlead := leadingDigits_of_digits hdigits
    have hspace : isSpace 45 = false := by decide
    rw [intBytes, if_pos hneg, decimalPrefix, List.dropWhile_cons_of_neg (by simp [hspace]),
      signedPrefix, if_pos rfl, hlead, digitsValue_natBytes]
    omega
  · rw [intBytes, if_neg hneg, decimalPrefix_of_digits hdigits, digitsValue_natBytes]
    omega

/-! ## How much can be read -/

theorem leadingDigits_lt (bytes : List UInt8) : leadingDigits bytes < 10 ^ bytes.length := by
  have hdigits : ∀ d ∈ ((bytes.takeWhile isDigit).map digitValue).reverse, d < 10 := by
    intro d hd
    rcases List.mem_map.1 (List.mem_reverse.1 hd) with ⟨b, hb, rfl⟩
    have hrange := toNat_of_isDigit (List.mem_takeWhile_imp hb)
    rw [digitValue]
    omega
  calc
    leadingDigits bytes
        < 10 ^ ((bytes.takeWhile isDigit).map digitValue).reverse.length :=
          Nat.ofDigits_lt_base_pow_length (by decide) hdigits
    _ = 10 ^ (bytes.takeWhile isDigit).length := by rw [List.length_reverse, List.length_map]
    _ ≤ 10 ^ bytes.length := Nat.pow_le_pow_right (by decide) (List.takeWhile_sublist _).length_le

theorem natAbs_signedPrefix_lt (bytes : List UInt8) :
    (signedPrefix bytes).natAbs < 10 ^ bytes.length := by
  cases bytes with
  | nil => decide
  | cons b bytes =>
      have htail := leadingDigits_lt bytes
      have hall := leadingDigits_lt (b :: bytes)
      have hpow : 10 ^ (b :: bytes).length = 10 * 10 ^ bytes.length := by
        rw [List.length_cons, Nat.pow_succ']
      rw [hpow] at hall ⊢
      -- a sign takes the place of a digit
      by_cases hminus : b = 45
      · rw [signedPrefix, if_pos hminus, Int.natAbs_neg, Int.natAbs_natCast]
        omega
      · by_cases hplus : b = 43
        · rw [signedPrefix, if_neg hminus, if_pos hplus, Int.natAbs_natCast]
          omega
        · rw [signedPrefix, if_neg hminus, if_neg hplus, Int.natAbs_natCast]
          exact hall

theorem natAbs_decimalPrefix_lt (bytes : List UInt8) :
    (decimalPrefix bytes).natAbs < 10 ^ bytes.length :=
  lt_of_lt_of_le (natAbs_signedPrefix_lt _)
    (Nat.pow_le_pow_right (by decide) (List.length_dropWhile_le _ _))

theorem decimalPrefix_singleton (b : UInt8) :
    decimalPrefix [b] = if isDigit b then (digitValue b : Int) else 0 := by
  cases hdigit : isDigit b with
  | true =>
      rw [decimalPrefix_of_digits (by simpa using hdigit), if_pos rfl]
      simp [digitsValue]
  | false =>
      have hzero := leadingDigits_of_stop hdigit []
      have hnil : leadingDigits [] = 0 := rfl
      cases hspace : isSpace b <;>
        simp [decimalPrefix, signedPrefix, hspace, hzero, hnil]

end Lib
end EVdeSwitch
