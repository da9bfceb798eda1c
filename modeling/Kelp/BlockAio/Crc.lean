import Kelp.BlockAio.Register

/-!
# `crc32c_sse42` and `crc32c`

`crc32c_sse42` of `blockaio.c` and `crc32c` of `blockaio.cpp` are the same three loops
over a buffer: single bytes through `_mm_crc32_u8` until the pointer is 8-byte aligned,
then 8-byte words through `_mm_crc32_u64`, then the remaining bytes, all between a
complement on entry and on exit.

The model reads the buffer as the list of its bytes and the address of its first byte; the
address decides how many bytes the first loop takes.  The two intrinsics follow Intel's
pseudo-code for the CRC32 instruction: both operands are bit-reflected, the source is
placed above the register, and the remainder modulo `0x11EDC6F41` is reflected back
(`crc32Bits`).

The reference is the textbook byte-at-a-time reflected CRC-32C, `crc32cRef`.
`crc32Bits_eq` shows that the instruction on a `w`-bit source is `w` steps of the reflected
shift register of `Kelp.BlockAio.Register`, and `toNat_foldl_crc32cByte` that the
reference on a byte string is as many steps.  So both intrinsics are the reference on the
bytes they read (`mmCrc32U8_eq`, `mmCrc32U64_eq`), each loop keeps the reference CRC of
the whole buffer, and `crc32cSse42_eq_ref` follows for every buffer, address and seed.
Since the reference continues across pieces, so do both functions: the CRC of one piece is
the seed of the next (`crc32c_append`).
-/

namespace Kelp.BlockAio

/-! ## The reference CRC -/

/-- One bit of the byte-at-a-time reflected CRC-32C:
`crc = (crc & 1) ? (crc >> 1) ^ 0x82F63B78 : crc >> 1`. -/
def crc32cShift (crc : UInt32) : UInt32 :=
  if crc &&& 1 = 1 then (crc >>> 1) ^^^ 0x82F63B78 else crc >>> 1

/-- The 1-byte CRC step: the byte is xored into the register, then eight shifts. -/
def crc32cByte (crc : UInt32) (b : UInt8) : UInt32 := crc32cShift^[8] (crc ^^^ b.toUInt32)

/-- The reference CRC-32C of `data`, continuing from `previousCrc32`. -/
def crc32cRef (data : List UInt8) (previousCrc32 : UInt32) : UInt32 :=
  ~~~(data.foldl crc32cByte (~~~previousCrc32))

theorem toNat_crc32cShift (c : UInt32) : (crc32cShift c).toNat = crcShift c.toNat := by
  have hshift : (c >>> 1).toNat = c.toNat >>> 1 := BitVec.toNat_ushiftRight _ _
  have hbit : (c &&& 1 = 1) ↔ c.toNat.testBit 0 = true := by
    rw [← Nat.mod_two_eq_one_iff_testBit_zero, ← Nat.and_one_is_mod]
    constructor
    · intro h
      have := congrArg UInt32.toNat h
      rwa [UInt32.and_toNat] at this
    · intro h
      apply UInt32.toNat.inj
      rw [UInt32.and_toNat]
      exact h
  rw [crc32cShift, crcShift]
  by_cases h : c &&& 1 = 1
  · rw [if_pos h, if_pos (hbit.1 h)]
    exact (BitVec.toNat_xor _ _).trans (by rw [← hshift]; rfl)
  · rw [if_neg h, if_neg (mt hbit.2 h), Nat.xor_zero]
    exact hshift

theorem toNat_crc32cByte (c : UInt32) (b : UInt8) :
    (crc32cByte c b).toNat = crcShift^[8] (c.toNat ^^^ b.toNat) := by
  have hiter : ∀ n (x : UInt32), (crc32cShift^[n] x).toNat = crcShift^[n] x.toNat := by
    intro n
    induction n with
    | zero => intro x; rfl
    | succ n ih => intro x; rw [Function.iterate_succ_apply, Function.iterate_succ_apply, ih,
        toNat_crc32cShift]
  exact (hiter 8 _).trans (congrArg _ (BitVec.toNat_xor _ _))

/-- Folding the byte step over a string is as many shifts of the register with the whole
string xored in. -/
theorem toNat_foldl_crc32cByte (bs : List UInt8) (c : UInt32) :
    (bs.foldl crc32cByte c).toNat = crcShift^[8 * bs.length] (c.toNat ^^^ leValue bs) := by
  induction bs generalizing c with
  | nil => simp [leValue]
  | cons b bs ih =>
    have hb : b.toNat < 2 ^ 8 := b.toNat_lt_size
    rw [List.foldl_cons, ih, toNat_crc32cByte, List.length_cons, Nat.mul_succ,
      Function.iterate_add_apply, leValue, show 256 * leValue bs = leValue bs <<< 8 by
        rw [Nat.shiftLeft_eq, Nat.mul_comm], add_shiftLeft_eq_xor _ hb, ← Nat.xor_assoc,
      iterate_crcShift_xor 8 _ (leValue bs <<< 8), iterate_crcShift_shiftLeft]

/-- The reference CRC as a number: the complemented seed and the whole message xored into the
register, `8 * data.length` shifts, and a complement. -/
theorem toNat_crc32cRef (data : List UInt8) (previousCrc32 : UInt32) :
    (crc32cRef data previousCrc32).toNat = (2 ^ 32 - 1) ^^^
      crcShift^[8 * data.length] ((2 ^ 32 - 1) ^^^ previousCrc32.toNat ^^^ leValue data) := by
  have hnot : ∀ x : UInt32, (~~~x).toNat = (2 ^ 32 - 1) ^^^ x.toNat := fun x => by
    show (~~~x.toBitVec).toNat = _
    rw [BitVec.toNat_not]
    exact two_pow_sub_one_sub_eq_xor x.toNat_lt_size
  rw [crc32cRef, hnot, toNat_foldl_crc32cByte, hnot]

theorem complement_complement (c : UInt32) : ~~~~~~c = c := by
  cases c
  exact congrArg UInt32.mk BitVec.not_not

/-- The reference continues a CRC across pieces: the complements between them cancel. -/
theorem crc32cRef_append (d₁ d₂ : List UInt8) (previousCrc32 : UInt32) :
    crc32cRef (d₁ ++ d₂) previousCrc32 = crc32cRef d₂ (crc32cRef d₁ previousCrc32) := by
  rw [crc32cRef, crc32cRef, crc32cRef, complement_complement, List.foldl_append]

set_option maxRecDepth 10000 in
example : crc32cRef [0x31, 0x32, 0x33, 0x34, 0x35, 0x36, 0x37, 0x38, 0x39] 0 = 0xE3069283 := by
  decide

/-! ## The CRC32 instruction -/

/-- The CRC-32C polynomial, bit `k` the coefficient of `x^k`. -/
def crc32cPoly : Nat := 0x11EDC6F41

/-- `x.bit_reflect` of a `w`-bit field in Intel's pseudo-code: bit `i` of the field becomes
bit `w - 1 - i`. -/
def bitReflect : Nat → Nat → Nat
  | 0, _ => 0
  | w + 1, x => bitReflect w (x >>> 1) ^^^ (if x.testBit 0 then 2 ^ w else 0)

/-- `MOD2(a, p)` of Intel's pseudo-code: the remainder of the polynomial `a`, of degree
below `32 + n`, modulo the polynomial `p` of degree 32, by long division from the top. -/
def mod2 (p : Nat) : Nat → Nat → Nat
  | 0, a => a
  | n + 1, a => mod2 p n (a ^^^ (if a.testBit (32 + n) then p <<< n else 0))

/-- The CRC32 instruction on a `w`-bit source `v`:
`tmp1 := v.bit_reflect; tmp2 := crc[31:0].bit_reflect;
tmp5 := (tmp1 << 32) XOR (tmp2 << w); dst := MOD2(tmp5, 0x11EDC6F41).bit_reflect`. -/
def crc32Bits (w crc v : Nat) : Nat :=
  bitReflect 32 (mod2 crc32cPoly w ((bitReflect w v <<< 32) ^^^ (bitReflect 32 crc <<< w)))

/-- `_mm_crc32_u8(crc, v)`. -/
def mmCrc32U8 (crc : UInt32) (v : UInt8) : UInt32 := (crc32Bits 8 crc.toNat v.toNat).toUInt32

/-- `_mm_crc32_u64(crc, v)`: bits 32 to 63 of the result are zero. -/
def mmCrc32U64 (crc v : UInt64) : UInt64 := (crc32Bits 64 crc.toNat v.toNat).toUInt64

theorem bitReflect_succ (w x : Nat) :
    bitReflect (w + 1) x = bitReflect w (x >>> 1) ^^^ (if x.testBit 0 then 2 ^ w else 0) :=
  rfl

@[simp] theorem bitReflect_zero (w : Nat) : bitReflect w 0 = 0 := by
  induction w with
  | zero => rfl
  | succ w ih => simp [bitReflect_succ, ih]

theorem mod2_succ (p n a : Nat) :
    mod2 p (n + 1) a = mod2 p n (a ^^^ (if a.testBit (32 + n) then p <<< n else 0)) :=
  rfl

theorem testBit_bitReflect (w x j : Nat) :
    (bitReflect w x).testBit j = (decide (j < w) && x.testBit (w - 1 - j)) := by
  induction w generalizing x with
  | zero => simp [bitReflect]
  | succ w ih =>
    rw [bitReflect_succ, Nat.testBit_xor, ih, Nat.testBit_shiftRight, testBit_ite_two_pow]
    rcases Nat.lt_trichotomy j w with hj | rfl | hj
    · rw [show 1 + (w - 1 - j) = w + 1 - 1 - j by omega]
      simp [hj, Nat.lt_succ_of_lt hj, Nat.ne_of_gt hj]
    · simp
    · simp [Nat.not_lt_of_gt hj, Nat.ne_of_lt hj, show ¬ j < w + 1 by omega]

theorem bitReflect_lt (w x : Nat) : bitReflect w x < 2 ^ w :=
  Nat.lt_pow_two_of_testBit _ fun j hj => by
    rw [testBit_bitReflect, decide_eq_false (Nat.not_lt_of_ge hj), Bool.false_and]

theorem bitReflect_xor (w a b : Nat) :
    bitReflect w (a ^^^ b) = bitReflect w a ^^^ bitReflect w b :=
  Nat.eq_of_testBit_eq fun j => by
    simp only [testBit_bitReflect, Nat.testBit_xor]
    cases decide (j < w) <;> simp

theorem bitReflect_bitReflect {w x : Nat} (hx : x < 2 ^ w) : bitReflect w (bitReflect w x) = x :=
  Nat.eq_of_testBit_eq fun j => by
    simp only [testBit_bitReflect]
    by_cases hj : j < w
    · simp [hj, show w - 1 - (w - 1 - j) = j by omega, show w - 1 - j < w by omega]
    · simp [hj, Nat.testBit_lt_two_pow (lt_of_lt_of_le hx
        (Nat.pow_le_pow_right (by decide) (Nat.le_of_not_lt hj)))]

/-- Reflecting a register shifted right is shifting the reflected register left. -/
theorem bitReflect_shiftRight {w x : Nat} (hx : x < 2 ^ w) :
    bitReflect w (x >>> 1) = (bitReflect w x <<< 1) ^^^ (if x.testBit 0 then 2 ^ w else 0) :=
  Nat.eq_of_testBit_eq fun j => by
    simp only [Nat.testBit_xor, testBit_bitReflect, Nat.testBit_shiftLeft, Nat.testBit_shiftRight,
      testBit_ite_two_pow]
    rcases Nat.lt_trichotomy j w with hj | rfl | hj
    · rcases j with _ | j
      · simp [show 1 + (w - 1) = w by omega, Nat.testBit_lt_two_pow hx, Nat.pos_iff_ne_zero.1 hj]
      · simp [show 1 + (w - 1 - (j + 1)) = w - 1 - j by omega, hj, Nat.lt_of_succ_lt hj,
          Nat.ne_of_gt hj]
    · rcases Nat.eq_zero_or_pos j with rfl | hpos
      · simp [Nat.lt_one_iff.1 hx]
      · simp [hpos, Nat.one_le_iff_ne_zero.2 (Nat.pos_iff_ne_zero.1 hpos)]
    · simp [Nat.not_lt_of_gt hj, Nat.ne_of_lt hj, show ¬ j - 1 < w by omega]

/-- Under reflection the shift right with the reflected polynomial is the shift left with
the polynomial. -/
theorem bitReflect_crcShift {c : Nat} (hc : c < 2 ^ 32) :
    bitReflect 32 (crcShift c) =
      (bitReflect 32 c <<< 1) ^^^ (if c.testBit 0 then crc32cPoly else 0) := by
  have hpoly : bitReflect 32 crc32cPolyReflected = crc32cPoly ^^^ 2 ^ 32 := by decide
  rw [crcShift, bitReflect_xor, bitReflect_shiftRight hc]
  cases c.testBit 0
  · simp
  · rw [if_pos rfl, if_pos rfl, if_pos rfl, hpoly, Nat.xor_assoc, ← Nat.xor_assoc (2 ^ 32),
      Nat.xor_comm (2 ^ 32), Nat.xor_assoc, Nat.xor_self, Nat.xor_zero]

/-- One division step of the instruction is one shift of the register with the low bit of
the source xored in. -/
theorem crc32Bits_succ {c : Nat} (hc : c < 2 ^ 32) (w v : Nat) :
    crc32Bits (w + 1) c v = crc32Bits w (crcShift (c ^^^ v % 2)) (v >>> 1) := by
  have hlow : c ^^^ v % 2 < 2 ^ 32 := Nat.xor_lt_two_pow hc (by omega)
  have hbit : (v % 2).testBit 0 = v.testBit 0 := by
    simp only [Nat.testBit_zero, Nat.mod_mod]
  have hone : bitReflect 32 (v % 2) = if v.testBit 0 then 2 ^ 31 else 0 := by
    rcases Nat.mod_two_eq_zero_or_one v with h | h
    · simp [h]
    · simp [h]
      decide
  have hreg : bitReflect 32 (crcShift (c ^^^ v % 2)) = (bitReflect 32 c <<< 1) ^^^
      (if v.testBit 0 then 2 ^ 32 else 0) ^^^
      (if (c.testBit 0 ^^ v.testBit 0) then crc32cPoly else 0) := by
    rw [bitReflect_crcShift hlow, bitReflect_xor, hone, Nat.testBit_xor, hbit, shiftLeft_xor]
    split <;> rfl
  have htop : (((bitReflect w (v >>> 1) ^^^ (if v.testBit 0 then 2 ^ w else 0)) <<< 32) ^^^
      (bitReflect 32 c <<< (w + 1))).testBit (32 + w) = (c.testBit 0 ^^ v.testBit 0) := by
    have hA := Nat.testBit_lt_two_pow (bitReflect_lt w (v >>> 1))
    have h1 : 32 + w - 32 = w := by omega
    have h2 : 32 + w - (w + 1) = 31 := by omega
    have h3 : 32 + w ≥ w + 1 := by omega
    simp only [Nat.testBit_xor, Nat.testBit_shiftLeft, h1, h2, h3, hA, testBit_ite_two_pow,
      testBit_bitReflect]
    cases c.testBit 0 <;> cases v.testBit 0 <;> simp
  have h2w : 2 ^ w <<< 32 = 2 ^ 32 <<< w := by
    simp only [Nat.shiftLeft_eq, ← Nat.pow_add, Nat.add_comm]
  have hRc : bitReflect 32 c <<< (w + 1) = (bitReflect 32 c <<< 1) <<< w := by
    rw [← Nat.shiftLeft_add, Nat.add_comm]
  rw [crc32Bits, crc32Bits, bitReflect_succ w v, mod2_succ, htop, hreg]
  refine congrArg (bitReflect 32) (congrArg (mod2 crc32cPoly w) ?_)
  have hac : ∀ a x r q : Nat, a ^^^ x ^^^ r ^^^ q = a ^^^ (r ^^^ x ^^^ q) := by
    intros; ac_rfl
  simp only [shiftLeft_xor, ite_shiftLeft, h2w, hRc]
  exact hac _ _ _ _

theorem crc32Bits_zero {c : Nat} (hc : c < 2 ^ 32) (v : Nat) : crc32Bits 0 c v = c := by
  rw [crc32Bits, mod2, Nat.shiftLeft_zero, bitReflect, Nat.zero_shiftLeft, Nat.zero_xor,
    bitReflect_bitReflect hc]

/-- The CRC32 instruction on a `w`-bit source is `w` steps of the reflected register. -/
theorem crc32Bits_eq : ∀ (w : Nat) {c v : Nat}, c < 2 ^ 32 → v < 2 ^ w →
    crc32Bits w c v = crcShift^[w] (c ^^^ v)
  | 0, c, v, hc, hv => by
    rw [crc32Bits_zero hc, Nat.lt_one_iff.1 hv, Nat.xor_zero]
    rfl
  | w + 1, c, v, hc, hv => by
    have hlow : c ^^^ v % 2 < 2 ^ 32 := Nat.xor_lt_two_pow hc (by omega)
    have hv' : v >>> 1 < 2 ^ w := by
      rw [Nat.shiftRight_eq_div_pow, Nat.div_lt_iff_lt_mul (by decide), ← Nat.pow_succ]
      exact hv
    have hsplit : v % 2 ^^^ ((v >>> 1) <<< 1) = v := by
      rw [← add_shiftLeft_eq_xor (a := v % 2) (n := 1) _ (by omega), Nat.shiftLeft_eq,
        Nat.shiftRight_eq_div_pow]
      omega
    rw [crc32Bits_succ hc, crc32Bits_eq w (crcShift_lt (le_refl 32) (lt_trans hlow
      (by decide))) hv', Function.iterate_succ_apply, ← crcShift_shiftLeft_one (v >>> 1),
      ← crcShift_xor, Nat.xor_assoc, hsplit]

theorem mmCrc32U8_eq : mmCrc32U8 = crc32cByte := by
  funext c b
  apply UInt32.toNat.inj
  have hc : c.toNat < 2 ^ 32 := c.toNat_lt_size
  have hb : b.toNat < 2 ^ 8 := b.toNat_lt_size
  rw [toNat_crc32cByte, mmCrc32U8, crc32Bits_eq 8 hc hb]
  exact (BitVec.toNat_ofNat _ _).trans (Nat.mod_eq_of_lt (iterate_crcShift_lt_of_lt
    (Nat.xor_lt_two_pow hc (lt_trans hb (by decide))) 8))

/-- The instruction on an 8-byte word loaded little-endian is the byte step on its bytes. -/
theorem mmCrc32U64_eq (c : UInt32) (ws : List UInt8) (hws : ws.length = 8) :
    (mmCrc32U64 c.toUInt64 (leValue ws).toUInt64).toUInt32 = ws.foldl crc32cByte c := by
  apply UInt32.toNat.inj
  have hc : c.toNat < 2 ^ 32 := c.toNat_lt_size
  have hw : leValue ws < 2 ^ 64 := by
    have := leValue_lt ws
    rwa [hws] at this
  have hlt := iterate_crcShift_lt (k := 64)
    (Nat.xor_lt_two_pow (lt_trans hc (by decide)) (lt_trans hw (by decide)))
  have hload : (leValue ws).toUInt64.toNat = leValue ws :=
    (BitVec.toNat_ofNat _ _).trans (Nat.mod_eq_of_lt hw)
  rw [toNat_foldl_crc32cByte, hws, ← crc32Bits_eq 64 hc hw] at *
  change (crc32Bits 64 c.toNat (leValue ws).toUInt64.toNat % 2 ^ 64) % 2 ^ 32 = _
  rw [hload, Nat.mod_eq_of_lt (lt_trans hlt (by decide)), Nat.mod_eq_of_lt hlt]

/-! ## The three loops -/

/-- The first loop, `while (length && ((uintptr_t)current & 7))`: single bytes until
`current` is 8-byte aligned.  Returns the register, `current` and the bytes left. -/
def alignLoop (crc : UInt32) (current : Nat) : List UInt8 → UInt32 × Nat × List UInt8
  | [] => (crc, current, [])
  | b :: rest =>
    if current &&& 7 ≠ 0 then alignLoop (mmCrc32U8 crc b) (current + 1) rest
    else (crc, current, b :: rest)

/-- The second loop, `while (length >= 8)`: `_mm_crc32_u64` on each 8-byte word, loaded
little-endian by `*(uint64_t*)current`. -/
def wordLoop (crc : UInt32) : List UInt8 → UInt32 × List UInt8
  | b0 :: b1 :: b2 :: b3 :: b4 :: b5 :: b6 :: b7 :: rest =>
    wordLoop (mmCrc32U64 crc.toUInt64
      (leValue [b0, b1, b2, b3, b4, b5, b6, b7]).toUInt64).toUInt32 rest
  | rest => (crc, rest)

/-- The third loop, `while (length--)`: the remaining bytes one at a time. -/
def byteLoop (crc : UInt32) (rest : List UInt8) : UInt32 := rest.foldl mmCrc32U8 crc

/-- `crc32c_sse42(data, length, previousCrc32)` on the `length` bytes `data`, stored from
address `addr`. -/
def crc32cSse42 (data : List UInt8) (addr : Nat) (previousCrc32 : UInt32) : UInt32 :=
  let aligned := alignLoop (~~~previousCrc32) addr data
  let words := wordLoop aligned.1 aligned.2.2
  ~~~byteLoop words.1 words.2

namespace Cpp

/-- `crc32c` of `blockaio.cpp`: the three loops of `crc32c_sse42`. -/
def crc32c (data : List UInt8) (addr : Nat) (previousCrc32 : UInt32) : UInt32 :=
  crc32cSse42 data addr previousCrc32

end Cpp

/-- The first loop keeps the reference CRC of the whole buffer. -/
theorem foldl_alignLoop : ∀ (crc : UInt32) (current : Nat) (data : List UInt8),
    (alignLoop crc current data).2.2.foldl crc32cByte (alignLoop crc current data).1 =
      data.foldl crc32cByte crc
  | _, _, [] => rfl
  | crc, current, b :: rest => by
    rw [alignLoop]
    split
    · rw [foldl_alignLoop, mmCrc32U8_eq, List.foldl_cons]
    · rfl

/-- The second loop keeps the reference CRC of the whole buffer. -/
theorem foldl_wordLoop (crc : UInt32) (data : List UInt8) :
    (wordLoop crc data).2.foldl crc32cByte (wordLoop crc data).1 =
      data.foldl crc32cByte crc := by
  induction crc, data using wordLoop.induct with
  | case1 crc b0 b1 b2 b3 b4 b5 b6 b7 rest ih =>
    rw [wordLoop, ih, mmCrc32U64_eq crc [b0, b1, b2, b3, b4, b5, b6, b7] rfl]
    exact (List.foldl_append _ _ _ _).symm
  | case2 crc rest h =>
    rw [wordLoop.eq_2 _ _ h]

theorem crc32cSse42_eq_ref (data : List UInt8) (addr : Nat) (previousCrc32 : UInt32) :
    crc32cSse42 data addr previousCrc32 = crc32cRef data previousCrc32 := by
  rw [crc32cSse42, crc32cRef, byteLoop, mmCrc32U8_eq, foldl_wordLoop, foldl_alignLoop]

/-- `crc32c_sse42` and `crc32c` compute the reference CRC-32C, whatever the address of the
buffer. -/
theorem crc32c_eq_crc32cRef (data : List UInt8) (addr : Nat) (previousCrc32 : UInt32) :
    crc32cSse42 data addr previousCrc32 = crc32cRef data previousCrc32 ∧
      Cpp.crc32c data addr previousCrc32 = crc32cRef data previousCrc32 :=
  ⟨crc32cSse42_eq_ref data addr previousCrc32, crc32cSse42_eq_ref data addr previousCrc32⟩

/-- Passing the CRC of one piece as \`previousCrc32\` of the next gives the CRC of the two pieces
together, wherever each piece lies in memory: a buffer can be checksummed in parts. -/
theorem crc32c_append (d₁ d₂ : List UInt8) (addr₁ addr₂ : Nat) (previousCrc32 : UInt32) :
    crc32cSse42 d₂ addr₂ (crc32cSse42 d₁ addr₁ previousCrc32) =
        crc32cSse42 (d₁ ++ d₂) addr₁ previousCrc32 ∧
      Cpp.crc32c d₂ addr₂ (Cpp.crc32c d₁ addr₁ previousCrc32) =
        Cpp.crc32c (d₁ ++ d₂) addr₁ previousCrc32 := by
  have h : crc32cSse42 d₂ addr₂ (crc32cSse42 d₁ addr₁ previousCrc32) =
      crc32cSse42 (d₁ ++ d₂) addr₁ previousCrc32 := by
    rw [crc32cSse42_eq_ref, crc32cSse42_eq_ref, crc32cSse42_eq_ref, crc32cRef_append]
  exact ⟨h, h⟩

set_option maxRecDepth 10000 in
example : crc32cSse42 [0x31, 0x32, 0x33, 0x34, 0x35, 0x36, 0x37, 0x38, 0x39] 3 0 =
    0xE3069283 := by
  decide

end Kelp.BlockAio
