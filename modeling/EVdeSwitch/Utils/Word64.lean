import Mathlib.Data.BitVec

/-!
# Word64 — two 32-bit values in one 64-bit word

The macros of `include/utils.h`.  The same packing carries the epoll user data (type and fd), the
headers on the control pipe (type and length) and the messages to the workers (type and fd).

An `int` of the source is an `Int` here.  It enters a word through `BitVec.ofInt 64`, the
conversion to `uint64_t` (which extends the sign), and is read back with `BitVec.toInt`.
-/

namespace EVdeSwitch
namespace Utils

def HI (x : BitVec 64) : BitVec 32 :=
  (x >>> 32).setWidth 32

def LO (x : BitVec 64) : BitVec 32 :=
  x.setWidth 32

def TO64 (hi lo : BitVec 64) : BitVec 64 :=
  (hi <<< 32) ||| lo

theorem LO_TO64 (hi lo : BitVec 64) : LO (TO64 hi lo) = lo.setWidth 32 := by
  ext i hi'
  simp [LO, TO64]

/-- The high half is `hi` only if the low value leaves it alone. -/
theorem HI_TO64 {hi lo : BitVec 64} (hlo : lo.toNat < 2 ^ 32) :
    HI (TO64 hi lo) = hi.setWidth 32 := by
  ext i hi'
  -- the low value has no bits from 32 on
  have hbit : lo.getLsbD (32 + i) = false := by
    have hpow : (2 : Nat) ^ 32 ≤ 2 ^ (32 + i) := Nat.pow_le_pow_right (by decide) (by omega)
    exact Nat.testBit_lt_two_pow (lt_of_lt_of_le hlo hpow)
  simp [HI, TO64, hbit]
  omega

/-! ## Non-negative ints -/

/-- A non-negative `int`, as every descriptor the kernel returns is. -/
structure Fd where
  val : Nat
  lt : val < 2 ^ 31
  deriving DecidableEq, Repr

/-- A literal, taken modulo `2 ^ 31`. -/
instance (n : Nat) : OfNat Fd n where
  ofNat :=
    { val := n % 2 ^ 31
      lt := Nat.mod_lt n (by decide) }

namespace Fd

/-- The `int` itself. -/
def toInt (fd : Fd) : Int :=
  fd.val

def ofInt (fd : Int) : Option Fd :=
  if h : 0 ≤ fd ∧ fd < 2 ^ 31 then some ⟨fd.toNat, by omega⟩ else none

theorem ofInt_toInt (fd : Fd) : ofInt fd.toInt = some fd := by
  have hlt := fd.lt
  have hfd : 0 ≤ fd.toInt ∧ fd.toInt < 2 ^ 31 := by
    rw [toInt]
    omega
  rw [ofInt, dif_pos hfd]
  rfl

theorem exists_ofInt {fd : Int} (hnonneg : 0 ≤ fd) (hlt : fd < 2 ^ 31) :
    ∃ fd' : Fd, ofInt fd = some fd' ∧ fd'.toInt = fd := by
  refine ⟨⟨fd.toNat, by omega⟩, ?_, Int.toNat_of_nonneg hnonneg⟩
  rw [ofInt, dif_pos ⟨hnonneg, hlt⟩]

theorem toInt_nonneg (fd : Fd) : 0 ≤ fd.toInt :=
  Int.natCast_nonneg fd.val

theorem toInt_injective : Function.Injective toInt := by
  intro a b h
  cases a
  cases b
  simpa [toInt] using h

end Fd

theorem ofInt_natCast_toNat {n : Nat} (h : n < 2 ^ 32) : (BitVec.ofInt 64 n).toNat = n := by
  have h64 : (2 : Nat) ^ 32 < 2 ^ 64 := by decide
  rw [BitVec.ofInt_natCast, BitVec.toNat_ofNat]
  exact Nat.mod_eq_of_lt (lt_trans h h64)

theorem setWidth_ofInt_natCast (n : Nat) :
    (BitVec.ofInt 64 n).setWidth 32 = BitVec.ofNat 32 n := by
  rw [BitVec.ofInt_natCast, BitVec.setWidth_ofNat_of_le (by decide)]

theorem toInt_ofNat32 {n : Nat} (h : n < 2 ^ 31) : (BitVec.ofNat 32 n).toInt = n := by
  have hmod : n % 2 ^ 32 = n := Nat.mod_eq_of_lt (by omega)
  rw [BitVec.toInt_eq_toNat_of_lt] <;> rw [BitVec.toNat_ofNat, hmod]
  omega

/-- Reading back the type of a word that carries a non-negative type and a 32-bit value. -/
theorem HI_TO64_toInt {type lo : Nat} (htype : type < 2 ^ 31) (hlo : lo < 2 ^ 32) :
    (HI (TO64 (BitVec.ofInt 64 type) (BitVec.ofInt 64 lo))).toInt = type := by
  rw [HI_TO64 (by rw [ofInt_natCast_toNat hlo]; exact hlo), setWidth_ofInt_natCast]
  exact toInt_ofNat32 htype

/-- Reading back the descriptor of a word. -/
theorem LO_TO64_toInt (hi : BitVec 64) (fd : Fd) :
    (LO (TO64 hi (BitVec.ofInt 64 fd.toInt))).toInt = fd.toInt := by
  rw [LO_TO64, Fd.toInt, setWidth_ofInt_natCast]
  exact toInt_ofNat32 fd.lt

end Utils
end EVdeSwitch
