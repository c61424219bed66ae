import EVdeSwitch.DataPlane.Toeplitz
import EVdeSwitch.Lib.BitFold

/-!
# ToeplitzWindows — is it the Toeplitz hash?

In a Toeplitz hash bit `i` of the data selects the 32 bits of the key from bit `i` on.
`toeplitz_hash` of `src/data_plane/toeplitz.c` takes `i` for an index of bytes and selects the 32
bits from bit `8 * i` on.  The two are the same exactly if the key repeats every seven bits.
-/

namespace EVdeSwitch
namespace DataPlane

open EVdeSwitch.Lib

/-! ## The Toeplitz hash -/

/-- Bit `i`, where bit 0 is the most significant one of byte 0. -/
def bitAt (bytes : List UInt8) (i : Nat) : Bool :=
  (bytes.getD (i / 8) 0).toNat.testBit (7 - i % 8)

/-- Bit `j` of a key that is read cyclically. -/
def keyBit (key : List UInt8) (j : Nat) : Bool :=
  bitAt key (j % (8 * key.length))

/-- The 32 bits of the key from bit `i` on. -/
def bitWindow (key : List UInt8) (i : Nat) : UInt32 :=
  UInt32.ofNat (bitsWord (fun t => keyBit key (i + t)) 32)

/-- The windows at the set bits of the data. -/
def toeplitz (key data : List UInt8) : UInt32 :=
  bitFold (· ^^^ ·) 0 (bitWindow key) (bitAt data) (8 * data.length)

/-! ## `toeplitz_hash` as such a fold -/

theorem and_shiftLeft_ne_zero_iff {x k : Nat} : x &&& 1 <<< k ≠ 0 ↔ x.testBit k = true := by
  rw [Nat.one_shiftLeft, Nat.and_two_pow]
  cases x.testBit k <;> simp

theorem toeplitzStep_eq (key data : List UInt8) (result : UInt32) (i : Nat) :
    toeplitzStep key data result i =
      if bitAt data i then result ^^^ keyWindow key i else result := by
  simp only [toeplitzStep, bitAt, and_shiftLeft_ne_zero_iff]
  rfl

theorem toeplitzHash_eq_bitFold (key data : List UInt8) :
    toeplitzHash key data =
      bitFold (· ^^^ ·) 0 (keyWindow key) (bitAt data) (8 * data.length) := by
  rw [toeplitzHash, bitFold, Nat.mul_comm]
  congr
  funext result i
  exact toeplitzStep_eq key data result i

/-! ## The bits of a window -/

theorem getMsbD_toBitVec (b : UInt8) {s : Nat} (hs : s < 8) :
    b.toBitVec.getMsbD s = b.toNat.testBit (7 - s) := by
  rw [BitVec.getMsbD, decide_eq_true hs, Bool.true_and]
  rfl

/-- A byte that has been shifted to place `k` of four holds the bits at this place. -/
theorem getMsbD_shifted (b : UInt8) {k q s : Nat} (hk : k < 4) (hs : s < 8) :
    (b.toBitVec.setWidth 32 <<< (8 * (3 - k))).getMsbD (8 * q + s) =
      (decide (q = k) && b.toNat.testBit (7 - s)) := by
  rw [BitVec.getMsbD_shiftLeft, BitVec.getMsbD_setWidth]
  rcases Nat.lt_trichotomy q k with hlt | rfl | hgt
  · rw [decide_eq_false (by omega), decide_eq_false hlt.ne, Bool.false_and, Bool.false_and]
  · have hbit : 8 * q + s + 8 * (3 - q) + 8 - 32 = s := by omega
    rw [hbit, getMsbD_toBitVec b hs, decide_eq_true rfl, decide_eq_true (by omega)]
  · rw [BitVec.getMsbD_of_ge _ _ (by omega), decide_eq_false hgt.ne', Bool.and_false,
      Bool.false_and]

/-- Four bytes as a word, the first of them on top. -/
theorem getMsbD_word (b : Nat → UInt8) {q s : Nat} (hq : q < 4) (hs : s < 8) :
    ((b 0).toUInt32 <<< 24 ||| (b 1).toUInt32 <<< 16 ||| (b 2).toUInt32 <<< 8 |||
      (b 3).toUInt32).toBitVec.getMsbD (8 * q + s) = (b q).toNat.testBit (7 - s) := by
  have hword : ((b 0).toUInt32 <<< 24 ||| (b 1).toUInt32 <<< 16 ||| (b 2).toUInt32 <<< 8 |||
      (b 3).toUInt32).toBitVec =
        (b 0).toBitVec.setWidth 32 <<< (8 * (3 - 0)) ||| (b 1).toBitVec.setWidth 32 <<< (8 * (3 - 1))
          ||| (b 2).toBitVec.setWidth 32 <<< (8 * (3 - 2))
          ||| (b 3).toBitVec.setWidth 32 <<< (8 * (3 - 3)) := by
    simp
  rw [hword, BitVec.getMsbD_or, BitVec.getMsbD_or, BitVec.getMsbD_or,
    getMsbD_shifted (b 0) (by decide) hs, getMsbD_shifted (b 1) (by decide) hs,
    getMsbD_shifted (b 2) (by decide) hs, getMsbD_shifted (b 3) (by decide) hs]
  rcases (by omega : q = 0 ∨ q = 1 ∨ q = 2 ∨ q = 3) with rfl | rfl | rfl | rfl <;> simp

theorem keyBit_eq (key : List UInt8) (j : Nat) :
    keyBit key j = (key.getD (j / 8 % key.length) 0).toNat.testBit (7 - j % 8) := by
  rw [keyBit, bitAt, Nat.mod_mul_right_div_self, Nat.mod_mod_of_dvd _ (Nat.dvd_mul_right _ _)]

/-- The code's window consists of the 32 bits from bit `8 * i` on. -/
theorem getMsbD_keyWindow (key : List UInt8) (i : Nat) {t : Nat} (ht : t < 32) :
    (keyWindow key i).toBitVec.getMsbD t = keyBit key (8 * i + t) := by
  have hdiv : (8 * i + t) / 8 = i + t / 8 := by omega
  have hmod : (8 * i + t) % 8 = t % 8 := by omega
  have hword := getMsbD_word (fun k => key.getD ((i + k) % key.length) 0)
    (show t / 8 < 4 by omega) (Nat.mod_lt t (by decide))
  rw [Nat.div_add_mod] at hword
  rw [keyBit_eq, hdiv, hmod]
  exact hword

theorem getMsbD_bitWindow (key : List UInt8) (i : Nat) {t : Nat} (ht : t < 32) :
    (bitWindow key i).toBitVec.getMsbD t = keyBit key (i + t) := by
  rw [bitWindow, UInt32.toBitVec_ofNat', BitVec.getMsbD, BitVec.getLsbD_ofNat, decide_eq_true ht,
    decide_eq_true (by omega), Bool.true_and, Bool.true_and]
  exact testBit_bitsWord _ ht

theorem eq_iff_getMsbD {x y : UInt32} :
    x = y ↔ ∀ t < 32, x.toBitVec.getMsbD t = y.toBitVec.getMsbD t := by
  constructor
  · rintro rfl t _
    rfl
  · intro h
    exact UInt32.toBitVec_inj.1 (BitVec.eq_of_getMsbD_eq h)

theorem keyWindow_eq_iff {key : List UInt8} {i : Nat} :
    keyWindow key i = bitWindow key i ↔ ∀ t < 32, keyBit key (8 * i + t) = keyBit key (i + t) := by
  rw [eq_iff_getMsbD]
  refine forall₂_congr fun t ht => ?_
  rw [getMsbD_keyWindow key i ht, getMsbD_bitWindow key i ht]

/-! ## Data of all kinds -/

/-- The bytes with these bits. -/
def bytesOf (p : Nat → Bool) (n : Nat) : List UInt8 :=
  (List.range n).map fun k => UInt8.ofNat (bitsWord (fun s => p (8 * k + s)) 8)

theorem length_bytesOf (p : Nat → Bool) (n : Nat) : (bytesOf p n).length = n := by
  rw [bytesOf, List.length_map, List.length_range]

theorem bitAt_bytesOf (p : Nat → Bool) {n i : Nat} (hi : i < 8 * n) :
    bitAt (bytesOf p n) i = p i := by
  have hmod : i % 8 < 8 := Nat.mod_lt i (by decide)
  have hbyte : (bytesOf p n).getD (i / 8) 0 =
      UInt8.ofNat (bitsWord (fun s => p (8 * (i / 8) + s)) 8) := by
    rw [bytesOf, List.getD_eq_getElem?_getD, List.getElem?_map, List.getElem?_range (by omega)]
    rfl
  have hbit := testBit_bitsWord (fun s => p (8 * (i / 8) + s)) hmod
  rw [Nat.div_add_mod] at hbit
  rw [bitAt, hbyte, UInt8.toNat_ofNat', Nat.testBit_mod_two_pow, decide_eq_true (by omega),
    Bool.true_and]
  exact hbit

/-- For data of one length it is a matter of the windows. -/
theorem forall_toeplitzHash_eq_iff (key : List UInt8) (data_len : Nat) :
    (∀ data : List UInt8, data.length = data_len → toeplitzHash key data = toeplitz key data) ↔
      ∀ i < 8 * data_len, keyWindow key i = bitWindow key i := by
  constructor
  · intro h
    have hfold : ∀ p, bitFold (fun x y : UInt32 => x ^^^ y) 0 (keyWindow key) p (8 * data_len) =
        bitFold (fun x y : UInt32 => x ^^^ y) 0 (bitWindow key) p (8 * data_len) := by
      intro p
      have hdata := h (bytesOf p data_len) (length_bytesOf p data_len)
      rw [toeplitzHash_eq_bitFold, toeplitz, length_bytesOf] at hdata
      have hbits : ∀ i < 8 * data_len, bitAt (bytesOf p data_len) i = p i :=
        fun i hi => bitAt_bytesOf p hi
      rwa [bitFold_congr (fun _ _ _ => rfl) hbits, bitFold_congr (fun _ _ _ => rfl) hbits]
        at hdata
    exact bitFold_eq_iff.1 hfold
  · rintro h data rfl
    rw [toeplitzHash_eq_bitFold, toeplitz]
    exact bitFold_congr (fun i hi _ => h i hi) fun _ _ => rfl

/-! ## Where it is the Toeplitz hash -/

/-- The set bits of the data at which bit `t` of the two windows differs. -/
def differing (key data : List UInt8) (t : Nat) : Nat :=
  (List.range (8 * data.length)).countP fun i =>
    bitAt data i && (keyBit key (8 * i + t) ^^ keyBit key (i + t))

theorem getMsbD_bitFold (w : Nat → UInt32) (p : Nat → Bool) (n t : Nat) :
    (bitFold (· ^^^ ·) 0 w p n).toBitVec.getMsbD t =
      bitFold xor false (fun i => (w i).toBitVec.getMsbD t) p n := by
  refine map_bitFold (g := fun x : UInt32 => x.toBitVec.getMsbD t) ?_ ?_
  · exact BitVec.getMsbD_zero
  · intro x y
    show (x ^^^ y).toBitVec.getMsbD t = _
    rw [UInt32.toBitVec_xor, BitVec.getMsbD_xor]

theorem toeplitzHash_eq_iff_even (key data : List UInt8) :
    toeplitzHash key data = toeplitz key data ↔ ∀ t < 32, Even (differing key data t) := by
  rw [eq_iff_getMsbD, toeplitzHash_eq_bitFold, toeplitz]
  refine forall₂_congr fun t ht => ?_
  rw [getMsbD_bitFold, getMsbD_bitFold, bitFold_xor_eq_iff, differing]
  simp only [getMsbD_keyWindow key _ ht, getMsbD_bitWindow key _ ht]

theorem forall_toeplitzHash_eq_iff_period (key : List UInt8) (data_len : Nat) :
    (∀ data : List UInt8, data.length = data_len → toeplitzHash key data = toeplitz key data) ↔
      data_len = 0 ∨ PeriodicOn (keyBit key) 7 1 (8 * (8 * data_len - 1) + 32) := by
  rw [forall_toeplitzHash_eq_iff]
  rcases Nat.eq_zero_or_pos data_len with rfl | hpos
  · refine iff_of_true ?_ (Or.inl rfl)
    intro i hi
    exact absurd hi (Nat.not_lt_zero i)
  · rw [or_iff_right hpos.ne', ← windows_eq_iff (by decide) (by omega)]
    exact forall₂_congr fun i _ => keyWindow_eq_iff

/-- On given data, `toeplitz_hash` is the Toeplitz hash exactly if in each of the 32 places the
two windows differ at an even number of set bits.  It is on all data of a given length exactly if
this is 0, or the bits of the key from bit 1 to the end of the last window that the code reads
repeat every seven places. -/
theorem toeplitz_hash_iff_period (key : List UInt8) :
    (∀ data : List UInt8, toeplitzHash key data = toeplitz key data ↔
      ∀ t < 32, Even (differing key data t)) ∧
    ∀ data_len : Nat,
      (∀ data : List UInt8, data.length = data_len →
        toeplitzHash key data = toeplitz key data) ↔
      data_len = 0 ∨ PeriodicOn (keyBit key) 7 1 (8 * (8 * data_len - 1) + 32) :=
  ⟨toeplitzHash_eq_iff_even key, forall_toeplitzHash_eq_iff_period key⟩

/-- With the key of the source and bit 1 of the data. -/
theorem toeplitz_hash_not_windows :
    ¬ ∀ key data : List UInt8, 4 ≤ key.length → toeplitzHash key data = toeplitz key data := by
  intro h
  exact absurd (h toeplitz_key [0x40] (by decide)) (by decide +kernel)

end DataPlane
end EVdeSwitch
