import Mathlib.Algebra.Group.Nat.Defs
import Mathlib.Data.List.Basic

/-!
# Memory — words as bytes

A word lies in memory with its least significant byte first.  A read that brings fewer bytes than
the object has leaves the rest of the object as it was.
-/

namespace EVdeSwitch
namespace Lib

/-- The `width` bytes of a word in memory. -/
def wordBytes : Nat → Nat → List UInt8
  | 0, _ => []
  | width + 1, x => UInt8.ofNat (x % 256) :: wordBytes width (x / 256)

/-- The word that bytes in memory make up. -/
def bytesWord : List UInt8 → Nat
  | [] => 0
  | b :: bytes => b.toNat + 256 * bytesWord bytes

/-- Memory after bytes have been stored at its start. -/
def storeBytes (bytes memory : List UInt8) : List UInt8 :=
  bytes ++ memory.drop bytes.length

@[simp] theorem length_wordBytes (width x : Nat) : (wordBytes width x).length = width := by
  induction width generalizing x with
  | zero => rfl
  | succ width ih => rw [wordBytes, List.length_cons, ih]

theorem bytesWord_wordBytes (width x : Nat) : bytesWord (wordBytes width x) = x % 256 ^ width := by
  induction width generalizing x with
  | zero => rw [wordBytes, bytesWord, Nat.pow_zero, Nat.mod_one]
  | succ width ih =>
      have hbyte : (UInt8.ofNat (x % 256)).toNat = x % 256 :=
        UInt8.toNat_ofNat_of_lt' (Nat.mod_lt x (by decide))
      -- the first byte, and by induction the bytes above it
      calc
        bytesWord (wordBytes (width + 1) x)
            = (UInt8.ofNat (x % 256)).toNat + 256 * bytesWord (wordBytes width (x / 256)) := rfl
        _ = x % 256 + 256 * (x / 256 % 256 ^ width) := by rw [hbyte, ih]
        _ = x % 256 ^ (width + 1) := by rw [Nat.pow_succ', Nat.mod_mul]

theorem bytesWord_wordBytes_of_lt {width x : Nat} (h : x < 256 ^ width) :
    bytesWord (wordBytes width x) = x := by
  rw [bytesWord_wordBytes, Nat.mod_eq_of_lt h]

/-- The bytes behind count for more. -/
theorem bytesWord_append (low high : List UInt8) :
    bytesWord (low ++ high) = bytesWord low + 256 ^ low.length * bytesWord high := by
  induction low with
  | nil => rw [List.nil_append, bytesWord, List.length_nil, Nat.pow_zero, Nat.one_mul, Nat.zero_add]
  | cons b low ih =>
      rw [List.cons_append, bytesWord, bytesWord, ih, List.length_cons, Nat.pow_succ', Nat.mul_add,
        Nat.mul_assoc, Nat.add_assoc]

theorem wordBytes_bytesWord (bytes : List UInt8) :
    wordBytes bytes.length (bytesWord bytes) = bytes := by
  induction bytes with
  | nil => rfl
  | cons b bytes ih =>
      have hbyte : b.toNat < 256 := b.toNat_lt
      have hlow : (b.toNat + 256 * bytesWord bytes) % 256 = b.toNat := by omega
      have hhigh : (b.toNat + 256 * bytesWord bytes) / 256 = bytesWord bytes := by omega
      rw [bytesWord, List.length_cons, wordBytes, hlow, hhigh, ih, UInt8.ofNat_toNat]

/-- Of two objects of one size, no two contents are the same word. -/
theorem eq_of_bytesWord_eq {bytes bytes' : List UInt8} (hlength : bytes.length = bytes'.length)
    (h : bytesWord bytes = bytesWord bytes') : bytes = bytes' := by
  rw [← wordBytes_bytesWord bytes, ← wordBytes_bytesWord bytes', hlength, h]

/-- Bytes that fill the memory leave nothing of it. -/
theorem storeBytes_of_length_le {bytes memory : List UInt8} (h : memory.length ≤ bytes.length) :
    storeBytes bytes memory = bytes := by
  rw [storeBytes, List.drop_of_length_le h, List.append_nil]

end Lib
end EVdeSwitch
