import Kelp.BlockAio.Crc

/-!
# `validate_block` and `validateBlock`

A `struct block` is 4096 bytes: the 4-byte `block_checksum`, then `block_sequence_number`,
`stripe_number` and 4080 bytes of `data`.  `validate_block` of `blockaio.c` and
`validateBlock` of `blockaio.cpp` accept a block when the CRC-32C of its bytes 4 to 4095,
from seed 0, is `block_checksum`.  `test-blockaio.cpp` stamps a block by storing that CRC
in `block_checksum` (`stampBlock`).

The model keeps a block as its memory image, the bytes the two functions read through a
byte pointer, and a corruption as the number whose bits it flips (`Block.flip`).  By the
linearity of the CRC a corruption `e` leaves a valid block valid exactly when its syndrome
vanishes (`valid_flip`): the bits `e` flips in bytes 4 to 4095, run through the 32736
shifts of the register, must be the bits it flips in `block_checksum`.  So the validators
miss exactly the corruptions of zero syndrome on a stamped block (`validateBlock_flip_iff`).

A stamped block is valid, and a burst of at most 32 bits confined to `block_checksum` or to
bytes 4 to 4095 makes it invalid (`validateBlock_detects_burst`): in the first case the CRC
is unchanged and the stored value is not, in the second the register receives a nonzero
32-bit window, which no number of shifts clears.  A burst across bytes 3 and 4 can go
undetected: flipping `0xcb` into byte 4 and `0x587ada` into bytes 1 to 3 leaves every
stamped block valid (`validateBlock_misses_straddling_burst`).
-/

namespace Kelp.BlockAio

/-- A `struct block` as its memory image. -/
structure Block where
  bytes : List UInt8
  length_bytes : bytes.length = 4096

namespace Block

/-- `block->block_checksum`: bytes 0 to 3, little-endian. -/
def blockChecksum (b : Block) : UInt32 := (leValue (b.bytes.take 4)).toUInt32

/-- The block with `block_checksum` set to `v`. -/
def setBlockChecksum (b : Block) (v : UInt32) : Block :=
  ⟨leBytes 4 v.toNat ++ b.bytes.drop 4, by simp [b.length_bytes]⟩

/-- The block with the bits of `e` flipped: bit `8 * i + k` of `e` is bit `k` of byte `i`. -/
def flip (b : Block) (e : Nat) : Block :=
  ⟨leBytes 4096 (leValue b.bytes ^^^ e), length_leBytes _ _⟩

/-- The check both validators make: the CRC of bytes 4 to 4095 is `block_checksum`. -/
def Valid (b : Block) : Prop := crc32cRef (b.bytes.drop 4) 0 = b.blockChecksum

instance (b : Block) : Decidable b.Valid :=
  inferInstanceAs (Decidable (crc32cRef (b.bytes.drop 4) 0 = b.blockChecksum))

end Block

/-- `validate_block(block)`, for the block stored at address `addr`. -/
def validateBlock (b : Block) (addr : Nat) : Int :=
  let computedChecksum := crc32cSse42 (b.bytes.drop 4) (addr + 4) 0
  if computedChecksum ≠ b.blockChecksum then 0 else 1

namespace Cpp

/-- `validateBlock(block)` of `blockaio.cpp`, for the block stored at address `addr`. -/
def validateBlock (b : Block) (addr : Nat) : Bool :=
  crc32c (b.bytes.drop 4) (addr + 4) 0 == b.blockChecksum

end Cpp

/-- `block.block_checksum = crc32c(&block + 4, sizeof(Block) - 4, 0)`, the stamp of
`test-blockaio.cpp`, for the block stored at address `addr`. -/
def stampBlock (b : Block) (addr : Nat) : Block :=
  b.setBlockChecksum (crc32cSse42 (b.bytes.drop 4) (addr + 4) 0)

/-- The zeroed block of `test-blockaio.cpp`, `memset(&block, 0, sizeof(Block))`. -/
def zeroBlock : Block := ⟨List.replicate 4096 0, List.length_replicate _ _⟩

theorem validateBlock_eq (b : Block) (addr : Nat) :
    validateBlock b addr = if b.Valid then 1 else 0 := by
  by_cases h : b.Valid
  · have h' : crc32cRef (b.bytes.drop 4) 0 = b.blockChecksum := h
    simp [validateBlock, crc32cSse42_eq_ref, h', h]
  · have h' : crc32cRef (b.bytes.drop 4) 0 ≠ b.blockChecksum := h
    simp [validateBlock, crc32cSse42_eq_ref, h', h]

theorem Cpp.validateBlock_eq (b : Block) (addr : Nat) :
    Cpp.validateBlock b addr = decide b.Valid := by
  by_cases h : b.Valid
  · have h' : crc32cRef (b.bytes.drop 4) 0 = b.blockChecksum := h
    simp [Cpp.validateBlock, Cpp.crc32c, crc32cSse42_eq_ref, h', h]
  · have h' : crc32cRef (b.bytes.drop 4) 0 ≠ b.blockChecksum := h
    simp [Cpp.validateBlock, Cpp.crc32c, crc32cSse42_eq_ref, h', h]

theorem valid_stampBlock (b : Block) (addr : Nat) : (stampBlock b addr).Valid := by
  have hlen : (leBytes 4 (crc32cSse42 (b.bytes.drop 4) (addr + 4) 0).toNat).length = 4 :=
    length_leBytes _ _
  rw [Block.Valid, stampBlock, Block.setBlockChecksum, Block.blockChecksum, List.drop_left' hlen,
    List.take_left' hlen, leValue_leBytes, ← crc32cSse42_eq_ref _ (addr + 4)]
  apply UInt32.toNat.inj
  exact (Nat.mod_eq_of_lt (UInt32.toNat_lt_size _)).symm.trans
    ((congrArg (· % 2 ^ 32) (Nat.mod_eq_of_lt (UInt32.toNat_lt_size _))).symm.trans
      (BitVec.toNat_ofNat _ _).symm)

/-! ## The image as a number -/

theorem leValue_bytes (b : Block) :
    leValue b.bytes = leValue (b.bytes.take 4) + 2 ^ 32 * leValue (b.bytes.drop 4) := by
  conv_lhs => rw [← List.take_append_drop 4 b.bytes]
  rw [leValue_append, List.length_take, b.length_bytes]
  rfl

theorem leValue_take_lt (b : Block) : leValue (b.bytes.take 4) < 2 ^ 32 := by
  have := leValue_lt (b.bytes.take 4)
  rwa [List.length_take, b.length_bytes] at this

theorem leValue_drop_four (b : Block) : leValue (b.bytes.drop 4) = leValue b.bytes >>> 32 := by
  rw [leValue_bytes, Nat.shiftRight_eq_div_pow, Nat.add_mul_div_left _ _ (Nat.two_pow_pos 32),
    Nat.div_eq_of_lt (leValue_take_lt b), Nat.zero_add]

theorem toNat_blockChecksum (b : Block) : b.blockChecksum.toNat = leValue b.bytes % 2 ^ 32 := by
  rw [Block.blockChecksum, leValue_bytes, Nat.add_mul_mod_self_left]
  exact BitVec.toNat_ofNat _ _

theorem leValue_flip (b : Block) {e : Nat} (he : e < 2 ^ (8 * 4096)) :
    leValue (b.flip e).bytes = leValue b.bytes ^^^ e := by
  have hx : leValue b.bytes < 2 ^ (8 * 4096) := by
    have := leValue_lt b.bytes
    rwa [b.length_bytes] at this
  rw [Block.flip, leValue_leBytes, Nat.mod_eq_of_lt (Nat.xor_lt_two_pow hx he)]

/-- The CRC of bytes 4 to 4095 of a block whose image is the number `x`. -/
def payloadCrc (x : Nat) : Nat :=
  (2 ^ 32 - 1) ^^^ crcShift^[8 * 4092] ((2 ^ 32 - 1) ^^^ (x >>> 32))

theorem valid_iff (b : Block) :
    b.Valid ↔ payloadCrc (leValue b.bytes) = leValue b.bytes % 2 ^ 32 := by
  have hlen : (b.bytes.drop 4).length = 4092 := by simp [b.length_bytes]
  rw [Block.Valid, payloadCrc, ← leValue_drop_four, ← toNat_blockChecksum]
  constructor
  · intro h
    rw [← h, toNat_crc32cRef, hlen]
    rfl
  · intro h
    apply UInt32.toNat.inj
    rw [← h, toNat_crc32cRef, hlen]
    rfl

/-- What a corruption `e` changes in the comparison the validators make: the register after
the flipped bits of bytes 4 to 4095, against the flipped bits of `block_checksum`. -/
def syndrome (e : Nat) : Nat := crcShift^[8 * 4092] (e >>> 32) ^^^ e % 2 ^ 32

/-- A corruption leaves a valid block valid exactly when its syndrome is zero. -/
theorem valid_flip {b : Block} (hb : b.Valid) {e : Nat} (he : e < 2 ^ (8 * 4096)) :
    (b.flip e).Valid ↔ syndrome e = 0 := by
  rw [valid_iff] at hb ⊢
  rw [leValue_flip b he, payloadCrc, shiftRight_xor, ← Nat.xor_assoc,
    iterate_crcShift_xor, ← Nat.xor_assoc, ← payloadCrc, hb, xor_mod_two_pow, syndrome,
    Nat.xor_right_inj, Nat.xor_eq_zero]

/-- The corruptions that the validators miss on a stamped block are exactly those of zero
syndrome, whatever addresses the block is stamped and checked at. -/
theorem validateBlock_flip_iff (b : Block) (addr addr' : Nat) {e : Nat}
    (he : e < 2 ^ (8 * 4096)) :
    (validateBlock ((stampBlock b addr).flip e) addr' = 1 ↔ syndrome e = 0) ∧
      (Cpp.validateBlock ((stampBlock b addr).flip e) addr' = true ↔ syndrome e = 0) := by
  rw [validateBlock_eq, Cpp.validateBlock_eq, ← valid_flip (valid_stampBlock b addr) he]
  refine ⟨?_, decide_eq_true_iff⟩
  split_ifs with h <;> simp [h]

theorem validateBlock_flip_iff_bit_zero :
    1 < 2 ^ (8 * 4096) ∧
      (validateBlock ((stampBlock zeroBlock 0).flip 1) 0 = 1 ↔ syndrome 1 = 0) ∧
      (Cpp.validateBlock ((stampBlock zeroBlock 0).flip 1) 0 = true ↔ syndrome 1 = 0) := by
  have he : 1 < 2 ^ (8 * 4096) := Nat.one_lt_two_pow (by decide)
  exact ⟨he, validateBlock_flip_iff zeroBlock 0 0 he⟩

/-! ## Bursts -/

/-- The part of a burst above bit 32 is again a window of at most 32 bits. -/
theorem shiftLeft_shiftRight_32 (W p : Nat) :
    (W <<< p) >>> 32 = (W >>> (32 - p)) <<< (p - 32) :=
  Nat.eq_of_testBit_eq fun j => by
    simp only [Nat.testBit_shiftRight, Nat.testBit_shiftLeft]
    by_cases hp : p ≤ 32
    · simp [show p - 32 = 0 by omega, show 32 + j ≥ p by omega,
        show 32 + j - p = 32 - p + j by omega]
    · by_cases hj : j ≥ p - 32
      · simp [hj, show 32 + j ≥ p by omega, show 32 - p = 0 by omega,
          show 32 + j - p = j - (p - 32) by omega]
      · simp [hj, show ¬ 32 + j ≥ p by omega]

/-- A burst of at most 32 bits confined to `block_checksum` or to bytes 4 to 4095 has a
nonzero syndrome. -/
theorem syndrome_ne_zero {W p : Nat} (hW : W < 2 ^ 32) (hW0 : 0 < W)
    (he : W <<< p < 2 ^ (8 * 4096)) (hpart : W <<< p < 2 ^ 32 ∨ (W <<< p) % 2 ^ 32 = 0) :
    syndrome (W <<< p) ≠ 0 := by
  have hne : W <<< p ≠ 0 := by
    rw [Nat.shiftLeft_eq]
    exact Nat.mul_ne_zero (Nat.pos_iff_ne_zero.1 hW0) (Nat.two_pow_pos p).ne'
  rcases hpart with hlow | hhigh
  · rw [syndrome, Nat.shiftRight_eq_div_pow, Nat.div_eq_of_lt hlow, iterate_crcShift_zero,
      Nat.zero_xor, Nat.mod_eq_of_lt hlow]
    exact hne
  · rw [syndrome, hhigh, Nat.xor_zero, shiftLeft_shiftRight_32]
    have hE : (W <<< p) >>> 32 < 2 ^ (8 * 4092) := by
      rw [Nat.shiftRight_eq_div_pow, Nat.div_lt_iff_lt_mul (Nat.two_pow_pos 32), ← Nat.pow_add,
        show 8 * 4092 + 32 = 8 * 4096 by omega]
      exact he
    have hE0 : 0 < (W <<< p) >>> 32 := by
      rw [Nat.shiftRight_eq_div_pow]
      have := Nat.div_add_mod (W <<< p) (2 ^ 32)
      rw [hhigh] at this
      exact Nat.pos_of_ne_zero fun h => hne (by rw [← this, h]; rfl)
    rw [shiftLeft_shiftRight_32] at hE hE0
    have hle : W >>> (32 - p) ≤ W := by
      rw [Nat.shiftRight_eq_div_pow]
      exact Nat.div_le_self _ _
    refine iterate_crcShift_shiftLeft_ne_zero (lt_of_le_of_lt hle hW) ?_ hE
    exact Nat.pos_of_ne_zero fun h => by rw [h, Nat.zero_shiftLeft] at hE0; exact absurd hE0 (by decide)

/-- Stamping makes a block valid, and every corruption confined to at most 32 consecutive bits
of `block_checksum` or of bytes 4 to 4095 makes a stamped block invalid. -/
theorem validateBlock_detects_burst (b : Block) (addr : Nat) :
    validateBlock (stampBlock b addr) addr = 1 ∧
      Cpp.validateBlock (stampBlock b addr) addr = true ∧
      ∀ W p : Nat, 0 < W → W < 2 ^ 32 → W <<< p < 2 ^ (8 * 4096) →
        (W <<< p < 2 ^ 32 ∨ (W <<< p) % 2 ^ 32 = 0) →
        validateBlock ((stampBlock b addr).flip (W <<< p)) addr = 0 ∧
          Cpp.validateBlock ((stampBlock b addr).flip (W <<< p)) addr = false := by
  have hs := valid_stampBlock b addr
  refine ⟨by rw [validateBlock_eq, if_pos hs], by rw [Cpp.validateBlock_eq, decide_eq_true hs],
    fun W p hW0 hW he hpart => ?_⟩
  have hinv : ¬ ((stampBlock b addr).flip (W <<< p)).Valid :=
    fun h => syndrome_ne_zero hW hW0 he hpart ((valid_flip hs he).1 h)
  exact ⟨by rw [validateBlock_eq, if_neg hinv], by rw [Cpp.validateBlock_eq, decide_eq_false hinv]⟩

/-- The test's mutation, `block_sequence_number = 1` on the stamped zero block, is bit 32. -/
theorem validateBlock_detects_sequence_number :
    0 < 1 ∧ 1 < 2 ^ 32 ∧ 1 <<< 32 < 2 ^ (8 * 4096) ∧ (1 <<< 32) % 2 ^ 32 = 0 ∧
      validateBlock ((stampBlock zeroBlock 0).flip (1 <<< 32)) 0 = 0 := by
  have he : 1 <<< 32 < 2 ^ (8 * 4096) := by
    rw [Nat.one_shiftLeft]
    exact Nat.pow_lt_pow_right (by decide) (by decide)
  exact ⟨by decide, by decide, he, by decide,
    ((validateBlock_detects_burst zeroBlock 0).2.2 1 32 (by decide) (by decide) he
      (Or.inr (by decide))).1⟩

/-! ## A burst across bytes 3 and 4 -/

/-- `crcShift^[32736] 0xcb`, by square and multiply. -/
theorem iterate_crcShift_0xcb : crcShift^[8 * 4092] 0xcb = 0x587ada00 := by
  have hbits : 8 * 4092 = bitsValue [false, false, false, false, false, true, true, true, true,
      true, true, true, true, true, true] := rfl
  rw [← mulShift_eq (by decide), hbits, ← powShift_eq]
  set_option maxRecDepth 40000 in decide

/-- A 32-bit burst across bytes 3 and 4, `0x587ada` into bytes 1 to 3 and `0xcb` into byte 4,
that neither validator detects on any stamped block. -/
theorem validateBlock_misses_straddling_burst :
    (0xcb587ada : Nat) < 2 ^ 32 ∧ 0xcb587ada <<< 8 < 2 ^ (8 * 4096) ∧
      ∀ (b : Block) (addr : Nat),
        validateBlock ((stampBlock b addr).flip (0xcb587ada <<< 8)) addr = 1 ∧
          Cpp.validateBlock ((stampBlock b addr).flip (0xcb587ada <<< 8)) addr = true := by
  have he : (0xcb587ada <<< 8 : Nat) < 2 ^ (8 * 4096) :=
    lt_of_lt_of_le (by decide : (0xcb587ada <<< 8 : Nat) < 2 ^ 40)
      (Nat.pow_le_pow_right (by decide) (by decide))
  have hsyn : syndrome (0xcb587ada <<< 8) = 0 := by
    rw [syndrome, show (0xcb587ada <<< 8 : Nat) >>> 32 = 0xcb by decide, iterate_crcShift_0xcb]
    decide
  refine ⟨by decide, he, fun b addr => ?_⟩
  have hv := (valid_flip (valid_stampBlock b addr) he).2 hsyn
  exact ⟨by rw [validateBlock_eq, if_pos hv], by rw [Cpp.validateBlock_eq, decide_eq_true hv]⟩

end Kelp.BlockAio
