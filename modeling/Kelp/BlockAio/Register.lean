import Kelp.Bytes
import Mathlib.Logic.Function.Iterate

/-!
# The CRC-32C shift register

The CRC of `blockaio.c` is specified by the byte-at-a-time reflected CRC-32C: the register
is shifted right one bit at a time, and the reflected polynomial `0x82F63B78` is xored in
whenever a one leaves bit 0.  This module is that shift register over registers of any
width, so that a whole message can be fed in at once.  `Kelp.BlockAio.Crc` shows that
folding the byte step over a string `bs` from register `c` is
`crcShift^[8 * bs.length] (c ^^^ leValue bs)`.

Over GF(2) the shift is linear (`crcShift_xor`, `iterate_crcShift_xor`), a zero shifted in
at the bottom comes out again with no xor (`iterate_crcShift_shiftLeft`), and on 32-bit
registers it is injective, so that no nonzero register is ever shifted to zero
(`iterate_crcShift_eq_zero`).  These three facts are all that the detection results of
`Kelp.BlockAio.Validate` use.

The last section evaluates high powers of the shift by square and multiply
(`powShift_eq`): a 32-bit register is a polynomial modulo the CRC polynomial, and the
shift is multiplication by `x`.
-/

namespace Kelp.BlockAio

/-- The reflected CRC-32C polynomial: bit `31 - k` is the coefficient of `x^k` in
`0x11EDC6F41`, whose leading term is left implicit. -/
def crc32cPolyReflected : Nat := 0x82F63B78

/-- One step of the reflected shift register: shift right, and xor the polynomial in when
the bit shifted out is set. -/
def crcShift (r : Nat) : Nat := r >>> 1 ^^^ (if r.testBit 0 then crc32cPolyReflected else 0)

@[simp] theorem crcShift_zero : crcShift 0 = 0 := rfl

@[simp] theorem iterate_crcShift_zero (n : Nat) : crcShift^[n] 0 = 0 :=
  Function.iterate_fixed crcShift_zero n

theorem crcShift_xor (a b : Nat) : crcShift (a ^^^ b) = crcShift a ^^^ crcShift b := by
  rw [crcShift, crcShift, crcShift, shiftRight_xor, ite_testBit_xor]
  ac_rfl

theorem iterate_crcShift_xor (n : Nat) :
    ∀ a b, crcShift^[n] (a ^^^ b) = crcShift^[n] a ^^^ crcShift^[n] b := by
  induction n with
  | zero => intro a b; rfl
  | succ n ih =>
    intro a b
    simp only [Function.iterate_succ_apply, crcShift_xor, ih]

/-- A zero shifted in at the bottom leaves again with no xor. -/
theorem crcShift_shiftLeft_one (y : Nat) : crcShift (y <<< 1) = y := by
  have h0 : (y <<< 1).testBit 0 = false := by simp
  rw [crcShift, h0, if_neg Bool.false_ne_true, Nat.xor_zero, Nat.shiftLeft_shiftRight]

theorem iterate_crcShift_shiftLeft (k y : Nat) : crcShift^[k] (y <<< k) = y := by
  induction k generalizing y with
  | zero => rfl
  | succ k ih =>
    rw [Function.iterate_succ_apply, Nat.shiftLeft_add, crcShift_shiftLeft_one, ih]

/-! ## Width -/

/-- A shift takes one bit off a register wider than 32 bits. -/
theorem crcShift_lt {r n : Nat} (hn : 32 ≤ n) (h : r < 2 ^ (n + 1)) : crcShift r < 2 ^ n := by
  have hp : crc32cPolyReflected < 2 ^ n :=
    lt_of_lt_of_le (by decide) (Nat.pow_le_pow_right (by decide) hn)
  have hr : r >>> 1 < 2 ^ n := by
    rw [Nat.shiftRight_eq_div_pow, Nat.div_lt_iff_lt_mul (by decide), ← Nat.pow_succ]
    exact h
  refine Nat.xor_lt_two_pow hr ?_
  split
  · exact hp
  · exact Nat.two_pow_pos n

/-- `k` shifts bring a register of `32 + k` bits down to 32 bits. -/
theorem iterate_crcShift_lt : ∀ {k r : Nat}, r < 2 ^ (32 + k) → crcShift^[k] r < 2 ^ 32
  | 0, _, h => h
  | k + 1, _, h => iterate_crcShift_lt (k := k) (crcShift_lt (by omega) h)

theorem iterate_crcShift_lt_of_lt {r : Nat} (h : r < 2 ^ 32) (k : Nat) :
    crcShift^[k] r < 2 ^ 32 :=
  iterate_crcShift_lt (lt_of_lt_of_le h (Nat.pow_le_pow_right (by decide) (by omega)))

/-- On 32-bit registers the shift is injective: bit 31 of the result records the bit that
was shifted out. -/
theorem crcShift_eq_zero {r : Nat} (h : r < 2 ^ 32) (h0 : crcShift r = 0) : r = 0 := by
  cases hb : r.testBit 0
  · rw [crcShift, hb, if_neg Bool.false_ne_true, Nat.xor_zero, Nat.shiftRight_eq_div_pow] at h0
    have := Nat.mod_two_eq_zero_iff_testBit_zero.2 hb
    omega
  · have h31 := congrArg (Nat.testBit · 31) h0
    simp only [crcShift, hb, if_true, Nat.testBit_xor, Nat.testBit_shiftRight,
      Nat.testBit_lt_two_pow h, Nat.zero_testBit] at h31
    exact absurd h31 (by decide)

theorem iterate_crcShift_eq_zero : ∀ {m r : Nat}, r < 2 ^ 32 → crcShift^[m] r = 0 → r = 0
  | 0, _, _, h0 => h0
  | m + 1, _, h, h0 =>
    crcShift_eq_zero h (iterate_crcShift_eq_zero (crcShift_lt (le_refl 32)
      (lt_trans h (by decide))) h0)

/-- A nonzero 32-bit window, shifted up by `q` in a register of `n` bits, is not shifted to
zero by `n` steps: the `q` zeros below it leave first. -/
theorem iterate_crcShift_shiftLeft_ne_zero {W q n : Nat} (hW : W < 2 ^ 32) (hW0 : 0 < W)
    (h : W <<< q < 2 ^ n) : crcShift^[n] (W <<< q) ≠ 0 := by
  have hq : q ≤ n := by
    by_contra hq
    have h1 : 2 ^ q ≤ W <<< q := by
      rw [Nat.shiftLeft_eq]
      exact Nat.le_mul_of_pos_left _ hW0
    have h2 : 2 ^ n < 2 ^ q := Nat.pow_lt_pow_right (by decide) (by omega)
    omega
  obtain ⟨k, rfl⟩ := Nat.exists_eq_add_of_le hq
  rw [Nat.add_comm, Function.iterate_add_apply, iterate_crcShift_shiftLeft]
  exact fun h0 => Nat.ne_of_gt hW0 (iterate_crcShift_eq_zero hW h0)

/-! ## Powers of the shift -/

/-- The product of the registers `r` and `t` read as polynomials modulo the CRC polynomial,
by Horner's rule over the bits of `r`: `crcShift` is multiplication by `x`, and bit 31 is
the constant `1`. -/
def mulShift (r t : Nat) : Nat :=
  (List.range 32).foldl (fun acc i => crcShift acc ^^^ (if r.testBit i then t else 0)) 0

theorem iterate_crcShift_comm (m x : Nat) : crcShift (crcShift^[m] x) = crcShift^[m] (crcShift x) := by
  rw [← Function.iterate_succ_apply' crcShift m x, Function.iterate_succ_apply]

/-- After `n` steps Horner's rule has read the low `n` bits of `r`, which now stand at the
top of the register. -/
theorem foldl_mulShift (r m : Nat) : ∀ n ≤ 32,
    (List.range n).foldl (fun acc i =>
        crcShift acc ^^^ (if r.testBit i then crcShift^[m] (2 ^ 31) else 0)) 0 =
      crcShift^[m] ((r % 2 ^ n) <<< (32 - n))
  | 0, _ => by simp [Nat.mod_one, Nat.zero_shiftLeft]
  | n + 1, hn => by
    have hshift : (r % 2 ^ n) <<< (32 - n) = ((r % 2 ^ n) <<< (31 - n)) <<< 1 := by
      rw [← Nat.shiftLeft_add]; congr 1; omega
    have htop : (if r.testBit n then 2 ^ n else 0) <<< (31 - n) =
        if r.testBit n then 2 ^ 31 else 0 := by
      split
      · rw [Nat.shiftLeft_eq, ← Nat.pow_add]; congr 1; omega
      · exact Nat.zero_shiftLeft _
    have hite : (if r.testBit n then crcShift^[m] (2 ^ 31) else 0) =
        crcShift^[m] (if r.testBit n then 2 ^ 31 else 0) := by
      split <;> simp
    rw [List.range_succ, List.foldl_append, foldl_mulShift r m n (by omega), List.foldl_cons,
      List.foldl_nil, iterate_crcShift_comm, hite, ← iterate_crcShift_xor, hshift,
      crcShift_shiftLeft_one, ← htop, ← shiftLeft_xor, ← mod_two_pow_succ_eq_xor]
    congr 2
    omega

theorem mulShift_eq {r : Nat} (h : r < 2 ^ 32) (m : Nat) :
    mulShift r (crcShift^[m] (2 ^ 31)) = crcShift^[m] r := by
  rw [mulShift, foldl_mulShift r m 32 le_rfl, Nat.mod_eq_of_lt h]
  rfl

/-- The number that a list of bits stands for, least significant bit first. -/
def bitsValue : List Bool → Nat
  | [] => 0
  | b :: bs => 2 * bitsValue bs + (if b then 1 else 0)

/-- `mulShift t t`. -/
def squareShift (t : Nat) : Nat := mulShift t t

/-- The register `x^m` modulo the CRC polynomial, `m` given by its bits: square and
multiply. -/
def powShift : List Bool → Nat
  | [] => 2 ^ 31
  | b :: bs => (if b then crcShift else id) (squareShift (powShift bs))

theorem powShift_eq : ∀ bs, powShift bs = crcShift^[bitsValue bs] (2 ^ 31)
  | [] => rfl
  | b :: bs => by
    have ht := iterate_crcShift_lt_of_lt (r := 2 ^ 31) (by decide) (bitsValue bs)
    rw [powShift, squareShift, powShift_eq bs, mulShift_eq ht, ← Function.iterate_add_apply,
      bitsValue, Nat.two_mul]
    cases b
    · rfl
    · exact (Function.iterate_succ_apply' _ _ _).symm

end Kelp.BlockAio
