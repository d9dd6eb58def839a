import Mathlib.Data.List.Basic
import Mathlib.Algebra.Order.Ring.Nat

/-!
# Little-Endian Words

A natural number laid out in a fixed number of bytes, least significant byte
first, and the number a byte string spells. Writing truncates to the width,
so reading back what was written gives the number modulo `256 ^ k`; writing
back what was read always gives the bytes. The second direction is the one a
decoder's exactness rests on: no two byte strings of one width read as the
same number.

## Main definitions

* `leBytes`: A number in `k` bytes, truncated to that width.
* `leNat`: The number a byte string spells.

## Theorems

* `length_leBytes`: The width of a written word.
* `leNat_lt`: A word reads as a number its width can hold.
* `leNat_leBytes`: Reading back a written word, truncation included.
* `leBytes_leNat`: Writing back a read word.
-/

namespace Lib

/-- The `k` little-endian bytes of `n`, truncated to `k` bytes. -/
def leBytes : Nat → Nat → List UInt8
  | 0, _ => []
  | k + 1, n => UInt8.ofNat n :: leBytes k (n / 256)

/-- The number a little-endian byte string spells. -/
def leNat : List UInt8 → Nat
  | [] => 0
  | b :: bs => b.toNat + 256 * leNat bs

@[simp] theorem length_leBytes (k n : Nat) : (leBytes k n).length = k := by
  induction k generalizing n with
  | zero => rfl
  | succ k ih => simp only [leBytes, List.length_cons, ih]

theorem leNat_lt (bs : List UInt8) : leNat bs < 256 ^ bs.length := by
  induction bs with
  | nil => simp only [leNat, List.length_nil, Nat.pow_zero, Nat.zero_lt_one]
  | cons b bs ih =>
      have hb := b.toNat_lt
      simp only [leNat, List.length_cons, Nat.pow_succ]
      omega

theorem leNat_leBytes (k n : Nat) : leNat (leBytes k n) = n % 256 ^ k := by
  induction k generalizing n with
  | zero => simp only [leBytes, leNat, Nat.pow_zero, Nat.mod_one]
  | succ k ih =>
      have hsplit : n % 256 ^ (k + 1) = n % 256 + 256 * (n / 256 % 256 ^ k) := by
        rw [Nat.pow_succ, Nat.mul_comm, Nat.mod_mul]
      simp only [leBytes, leNat, ih, hsplit, UInt8.toNat_ofNat']

theorem leBytes_leNat (bs : List UInt8) : leBytes bs.length (leNat bs) = bs := by
  induction bs with
  | nil => rfl
  | cons b bs ih =>
      have hb := b.toNat_lt
      have hhead : UInt8.ofNat (b.toNat + 256 * leNat bs) = b := by
        apply UInt8.toNat_inj.mp
        rw [UInt8.toNat_ofNat']
        omega
      have htail : (b.toNat + 256 * leNat bs) / 256 = leNat bs := by omega
      simp only [List.length_cons, leNat, leBytes, hhead, htail, ih]

/-- A number the width can hold survives the round trip. -/
theorem leNat_leBytes_of_lt {k n : Nat} (h : n < 256 ^ k) : leNat (leBytes k n) = n := by
  rw [leNat_leBytes, Nat.mod_eq_of_lt h]

end Lib
