import Mathlib.Data.List.Basic
import Mathlib.Tactic

/-!
# Byte strings and little-endian integers

A record format stores fixed-width integers with the low byte first. Encoding a
number in `w` bytes keeps it modulo `256 ^ w`, and decoding is a left inverse on
that range.
-/
namespace OsProjects.Library

abbrev Bytes := List UInt8

/-- The low `w` bytes of `n`, least significant first. -/
def leBytes : Nat → Nat → Bytes
  | 0, _ => []
  | w + 1, n => UInt8.ofNat n :: leBytes w (n / 256)

/-- The number a little-endian byte string denotes. -/
def leNat : Bytes → Nat
  | [] => 0
  | b :: bs => b.toNat + 256 * leNat bs

@[simp] theorem length_leBytes (w n : Nat) : (leBytes w n).length = w := by
  induction w generalizing n with
  | zero => rfl
  | succ w ih => simp [leBytes, ih]

theorem leNat_leBytes (w n : Nat) : leNat (leBytes w n) = n % 256 ^ w := by
  induction w generalizing n with
  | zero => simp [leBytes, leNat, Nat.mod_one]
  | succ w ih =>
    have split : n % 256 ^ (w + 1) = n % 256 + 256 * (n / 256 % 256 ^ w) := by
      rw [pow_succ', Nat.mod_mul]
    simp [leBytes, leNat, ih, split]

theorem leNat_lt (bs : Bytes) : leNat bs < 256 ^ bs.length := by
  induction bs with
  | nil => simp [leNat]
  | cons b bs ih =>
    have hb := b.toNat_lt
    simp only [leNat, List.length_cons, pow_succ]
    omega

theorem leBytes_leNat (bs : Bytes) : leBytes bs.length (leNat bs) = bs := by
  induction bs with
  | nil => rfl
  | cons b bs ih =>
    have low : UInt8.ofNat (leNat (b :: bs)) = b := by
      apply UInt8.toNat_inj.mp
      rw [UInt8.toNat_ofNat', leNat, Nat.add_mul_mod_self_left, Nat.mod_eq_of_lt b.toNat_lt]
    have high : leNat (b :: bs) / 256 = leNat bs := by
      have lt := b.toNat_lt
      rw [leNat]
      omega
    rw [List.length_cons, leBytes, low, high, ih]

end OsProjects.Library
