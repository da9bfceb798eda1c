import Mathlib.Data.Nat.Bitwise
import Mathlib.Tactic.Ring

/-!
# Bytes and bits

Byte strings as little-endian numbers, and the xor facts about shifts that the SIMD
kernels of `rs_avx2.c` and the CRC of `blockaio.c` share.

`leValue` is what an unaligned load reads on x86: the `__m256i` lanes of the AVX2 model
and the `*(uint64_t*)current` word of `crc32c_sse42`.  The xor lemmas are the linear
algebra over GF(2) that the CRC proofs run on: shifts distribute over xor, and an
addition of numbers with disjoint bits is their xor.
-/

namespace Kelp

/-- A little-endian byte string as a number. -/
def leValue : List UInt8 → Nat
  | [] => 0
  | b :: bs => b.toNat + 256 * leValue bs

theorem toNat_toUInt8 (n : Nat) : n.toUInt8.toNat = n % 256 := BitVec.toNat_ofNat _ _

theorem leValue_lt : ∀ bs : List UInt8, leValue bs < 2 ^ (8 * bs.length)
  | [] => by simp [leValue]
  | b :: bs => by
    have : b.toNat < 256 := b.toNat_lt_size
    have := leValue_lt bs
    rw [leValue, List.length_cons, Nat.mul_succ, Nat.pow_add]
    omega

theorem leValue_append (xs ys : List UInt8) :
    leValue (xs ++ ys) = leValue xs + 2 ^ (8 * xs.length) * leValue ys := by
  induction xs with
  | nil => simp [leValue]
  | cons b bs ih =>
    rw [List.cons_append, leValue, leValue, ih, List.length_cons, Nat.mul_succ, Nat.pow_add]
    ring

/-- Bits `8s + 4 .. 8s + 7` of a little-endian string are the high nibble of byte `s`. -/
theorem leValue_nibble : ∀ (bs : List UInt8) (s : Nat),
    (leValue bs >>> (8 * s + 4)) % 16 = (bs.getD s 0).toNat / 16
  | [], s => by simp [leValue]
  | b :: bs, 0 => by
    have : b.toNat < 256 := b.toNat_lt_size
    simp only [leValue, Nat.shiftRight_eq_div_pow, List.getD_cons_zero, Nat.mul_zero,
      Nat.zero_add, Nat.reducePow]
    omega
  | b :: bs, s + 1 => by
    have : b.toNat < 256 := b.toNat_lt_size
    rw [show 8 * (s + 1) + 4 = 8 + (8 * s + 4) by omega, Nat.shiftRight_add, leValue,
      show (b.toNat + 256 * leValue bs) >>> 8 = leValue bs by
        simp only [Nat.shiftRight_eq_div_pow, Nat.reducePow]; omega,
      leValue_nibble bs s, List.getD_cons_succ]

/-- The `n` little-endian bytes of `v`, as a store of an `n`-byte integer writes them. -/
def leBytes : Nat → Nat → List UInt8
  | 0, _ => []
  | n + 1, v => v.toUInt8 :: leBytes n (v >>> 8)

@[simp] theorem length_leBytes (n v : Nat) : (leBytes n v).length = n := by
  induction n generalizing v with
  | zero => rfl
  | succ n ih => simp [leBytes, ih]

theorem leValue_leBytes (n v : Nat) : leValue (leBytes n v) = v % 2 ^ (8 * n) := by
  induction n generalizing v with
  | zero => simp [leBytes, leValue, Nat.mod_one]
  | succ n ih =>
    rw [leBytes, leValue, ih, toNat_toUInt8, Nat.shiftRight_eq_div_pow, Nat.mul_succ,
      Nat.pow_add, Nat.mul_comm (2 ^ (8 * n)), Nat.mod_mul]

/-! ## Xor and shifts -/

theorem shiftLeft_xor (a b n : Nat) : (a ^^^ b) <<< n = (a <<< n) ^^^ (b <<< n) :=
  Nat.eq_of_testBit_eq fun i => by
    simp only [Nat.testBit_shiftLeft, Nat.testBit_xor]
    cases decide (i ≥ n) <;> simp

theorem shiftRight_xor (a b n : Nat) : (a ^^^ b) >>> n = (a >>> n) ^^^ (b >>> n) :=
  Nat.eq_of_testBit_eq fun i => by simp only [Nat.testBit_shiftRight, Nat.testBit_xor]

theorem xor_mod_two_pow (a b n : Nat) : (a ^^^ b) % 2 ^ n = a % 2 ^ n ^^^ b % 2 ^ n :=
  Nat.eq_of_testBit_eq fun i => by
    simp only [Nat.testBit_mod_two_pow, Nat.testBit_xor]
    cases decide (i < n) <;> simp

/-- Adding a number above bit `n` to one below it sets disjoint bits. -/
theorem add_shiftLeft_eq_xor {a n : Nat} (b : Nat) (ha : a < 2 ^ n) :
    a + (b <<< n) = a ^^^ (b <<< n) := by
  rw [Nat.shiftLeft_eq, Nat.mul_comm, Nat.add_comm]
  refine Nat.eq_of_testBit_eq fun j => ?_
  rw [Nat.testBit_mul_pow_two_add _ ha, Nat.testBit_xor, Nat.testBit_mul_pow_two]
  by_cases hj : j < n
  · simp [hj, Nat.not_le_of_lt hj]
  · have hle : n ≤ j := Nat.le_of_not_lt hj
    simp [hj, hle, Nat.testBit_lt_two_pow (lt_of_lt_of_le ha (Nat.pow_le_pow_right (by decide) hle))]

/-- The low `n + 1` bits of `r` are its low `n` bits and bit `n`. -/
theorem mod_two_pow_succ_eq_xor (r n : Nat) :
    r % 2 ^ (n + 1) = r % 2 ^ n ^^^ (if r.testBit n then 2 ^ n else 0) := by
  rw [Nat.mod_pow_succ, Nat.mul_comm, ← Nat.shiftLeft_eq,
    add_shiftLeft_eq_xor _ (Nat.mod_lt _ (Nat.two_pow_pos n)), Nat.testBit_to_div_mod]
  rcases Nat.mod_two_eq_zero_or_one (r / 2 ^ n) with h | h <;> simp [h, Nat.shiftLeft_eq]

theorem testBit_ite_two_pow (b : Bool) (n j : Nat) :
    (if b then 2 ^ n else 0).testBit j = (b && decide (n = j)) := by
  cases b <;> simp [Nat.testBit_two_pow]

theorem ite_shiftLeft (b : Bool) (x n : Nat) :
    (if b then x else 0) <<< n = if b then x <<< n else 0 := by
  cases b <;> simp [Nat.zero_shiftLeft]

/-- Below `2 ^ n` the complement is the xor with `n` ones. -/
theorem two_pow_sub_one_sub_eq_xor {a n : Nat} (ha : a < 2 ^ n) :
    2 ^ n - 1 - a = (2 ^ n - 1) ^^^ a :=
  Nat.eq_of_testBit_eq fun i => by
    rw [Nat.sub_sub, Nat.add_comm, Nat.testBit_two_pow_sub_succ ha, Nat.testBit_xor,
      Nat.testBit_two_pow_sub_one]
    by_cases hi : i < n
    · simp [hi]
    · simp [hi, Nat.testBit_lt_two_pow (lt_of_lt_of_le ha
        (Nat.pow_le_pow_right (by decide) (Nat.le_of_not_lt hi)))]

/-- A xor made on the condition of one bit distributes over a xor of the tested value. -/
theorem ite_testBit_xor (a b i v : Nat) :
    (if (a ^^^ b).testBit i then v else 0) =
      (if a.testBit i then v else 0) ^^^ (if b.testBit i then v else 0) := by
  rw [Nat.testBit_xor]
  cases a.testBit i <;> cases b.testBit i <;> simp

end Kelp
