import Kelp.Rs.Field
import Kelp.Bytes
import Kelp.CInt
import Mathlib.Tactic.LinearCombination
import Mathlib.Data.List.OfFn

/-!
# The AVX2 kernels of `rs_avx2.c`

`mul1_avx2`, `mul_add1_avx2` and `add1_avx2` are the bulk operations of the coder:
`dst = src * c`, `dst ^= src * c` and `dst ^= src` over a buffer of `sz` bytes.  Each runs a
loop over 64-byte blocks while `i + 64 <= sz` and then a scalar loop over the remaining
bytes.

`i` and `sz` are `int`s.  The test `i + 64 <= sz` is made last at `i = 64 * (sz / 64)`, and
the sum there overflows from `sz = 2^31 - 64` on, so a call on such a size is undefined.
The model computes the two loops on a size `sz : Nat` (a nonpositive `int` size runs neither
loop, as `0` does), and it is the call only for a `KernelSize`, below `2^31 - 64`.

The model keeps the source's register code.  A `__m256i` is its 32 bytes, and each
intrinsic the kernels use is a function on bytes (`mm256ShuffleEpi8`, `mm256SrliEpi64`,
…).  `mulKernel` is the fifteen lines the two multiplying kernels share, from the two
loads to the two results they store.  Buffers are functions from offsets to bytes; the
kernels read `src` and write `dst`.  When `dst` and `src` are the same buffer, every
64-byte block and every tail byte is read before it is written, and no block is read after
an earlier block is written, so reading the original `src` gives the same result.

The source builds its eight shuffle tables from the first 128 entries of the row
`gf_mul_table[c << 8]`, the products `c * 0, …, c * 127`.  A nibble-shuffle multiply
needs the products of the sixteen low nibbles and of the sixteen high nibbles `16 * h`.
`mulKernel_spec` computes what the register code produces instead: byte `p` of both halves
of a block is `c` times the xor of the four nibbles of the source bytes at `p` and `p + 32`.
`mul1Avx2_spec`, `mulAdd1Avx2_spec` and `add1Avx2_spec` state each kernel over the whole
buffer; the scalar tail and `add1_avx2` are the table products the comments promise.  In
the 64-byte blocks they are not: a source byte `0x10` is multiplied as if it were `1`
(`mul1Avx2_ne_table`).
-/

namespace Kelp.Rs

/-! ## Registers and intrinsics -/

/-- `_mm_loadu_si128(&buf[p])`: sixteen bytes. -/
def mmLoaduSi128 (buf : Nat → Gf) (p : Nat) : Fin 16 → UInt8 := fun k => (buf (p + k.val)).val

/-- `_mm256_broadcastsi128_si256(a)`: both 128-bit halves are `a`. -/
def mm256Broadcastsi128Si256 (a : Fin 16 → UInt8) : Fin 32 → UInt8 :=
  fun k => a ⟨k.val % 16, Nat.mod_lt _ (by decide)⟩

/-- `_mm256_set1_epi8(b)`. -/
def mm256Set1Epi8 (b : UInt8) : Fin 32 → UInt8 := fun _ => b

/-- `_mm256_loadu_si256(&buf[p])`: thirty-two bytes. -/
def mm256LoaduSi256 (buf : Nat → Gf) (p : Nat) : Fin 32 → UInt8 := fun k => (buf (p + k.val)).val

/-- `_mm256_storeu_si256(&buf[p], v)`. -/
def mm256StoreuSi256 (buf : Nat → Gf) (p : Nat) (v : Fin 32 → UInt8) : Nat → Gf :=
  fun a => if h : p ≤ a ∧ a < p + 32 then ⟨v ⟨a - p, by omega⟩⟩ else buf a

/-- `_mm256_and_si256(a, b)`. -/
def mm256AndSi256 (a b : Fin 32 → UInt8) : Fin 32 → UInt8 := fun k => a k &&& b k

/-- `_mm256_xor_si256(a, b)`. -/
def mm256XorSi256 (a b : Fin 32 → UInt8) : Fin 32 → UInt8 := fun k => a k ^^^ b k

/-- The eight bytes of the 64-bit lane `q` of a register. -/
def lane (a : Fin 32 → UInt8) (q : Nat) : List UInt8 :=
  List.ofFn fun t : Fin 8 => a ⟨(8 * q + t.val) % 32, Nat.mod_lt _ (by decide)⟩

/-- `_mm256_srli_epi64(a, imm)`: each 64-bit lane shifted right by `imm` places. -/
def mm256SrliEpi64 (a : Fin 32 → UInt8) (imm : Nat) : Fin 32 → UInt8 :=
  fun k => ((leValue (lane a (k.val / 8)) >>> imm) >>> (8 * (k.val % 8))).toUInt8

theorem toNat_and_0x0f (x : UInt8) : (x &&& 0x0f).toNat = x.toNat % 16 := by
  rw [UInt8.and_toNat]
  exact Nat.and_pow_two_sub_one_eq_mod _ 4

/-- `_mm256_shuffle_epi8(a, b)`: byte `k` is byte `b[k] & 15` of the 128-bit half of `a`
that holds `k`, or `0` when bit 7 of `b[k]` is set. -/
def mm256ShuffleEpi8 (a b : Fin 32 → UInt8) : Fin 32 → UInt8 :=
  fun k => if b k &&& 0x80 ≠ 0 then 0 else
    a ⟨16 * (k.val / 16) + (b k &&& 0x0f).toNat, by
      have := k.isLt; rw [toNat_and_0x0f]; omega⟩

/-! ## The intrinsics on nibbles -/

/-- Masking the lane shift by four with `0x0f` leaves the high nibble of the same byte. -/
theorem toNat_mm256SrliEpi64 (a : Fin 32 → UInt8) (k : Fin 32) :
    (mm256SrliEpi64 a 4 k).toNat % 16 = (a k).toNat / 16 := by
  rw [mm256SrliEpi64, toNat_toUInt8, Nat.mod_mod_of_dvd _ (by decide : 16 ∣ 256),
    ← Nat.shiftRight_add, Nat.add_comm, leValue_nibble, lane,
    List.getD_eq_getElem _ _ (by simp; omega), List.getElem_ofFn]
  congr 3
  ext
  simp only
  omega

/-- A shuffle of a broadcast table by a nibble reads the table at the nibble. -/
theorem mm256ShuffleEpi8_nibble (t : Fin 16 → UInt8) (b : Fin 32 → UInt8) (k : Fin 32) :
    mm256ShuffleEpi8 (mm256Broadcastsi128Si256 t) (mm256AndSi256 b (mm256Set1Epi8 0x0f)) k =
      t ⟨(b k &&& 0x0f).toNat, by rw [toNat_and_0x0f]; omega⟩ := by
  have h80 : b k &&& 0x0f &&& 0x80 = 0 := by
    apply UInt8.toNat.inj
    rw [UInt8.and_toNat, UInt8.and_toNat, Nat.and_assoc,
      show UInt8.toNat 15 &&& UInt8.toNat 128 = 0 from rfl, Nat.and_zero]
    rfl
  simp only [mm256ShuffleEpi8, mm256AndSi256, mm256Set1Epi8, h80, ne_eq, not_true_eq_false,
    if_false, mm256Broadcastsi128Si256]
  congr 2
  rw [toNat_and_0x0f, toNat_and_0x0f, Nat.mod_mod]
  omega

/-! ## The kernels -/

/-- `lut = &gf_mul_table[c << 8]`: entry `m` is `gf_mul_table[(c << 8) + m]`. -/
def mulRow (c : Gf) (m : Nat) : Gf := gfMulTable ((c.toNat <<< 8) + m)

/-- The registers the multiplying kernels set up before their loop: the sixteen-byte slices
of `lut` at `0, 16, …, 112`, broadcast to both halves, and `clr_mask`. -/
structure ShuffleTables where
  t0Lo : Fin 32 → UInt8
  t1Lo : Fin 32 → UInt8
  t2Lo : Fin 32 → UInt8
  t3Lo : Fin 32 → UInt8
  t0Hi : Fin 32 → UInt8
  t1Hi : Fin 32 → UInt8
  t2Hi : Fin 32 → UInt8
  t3Hi : Fin 32 → UInt8
  clrMask : Fin 32 → UInt8

/-- The set-up shared by `mul1_avx2` and `mul_add1_avx2`. -/
def shuffleTables (c : Gf) : ShuffleTables where
  t0Lo := mm256Broadcastsi128Si256 (mmLoaduSi128 (mulRow c) 0)
  t1Lo := mm256Broadcastsi128Si256 (mmLoaduSi128 (mulRow c) 16)
  t2Lo := mm256Broadcastsi128Si256 (mmLoaduSi128 (mulRow c) 32)
  t3Lo := mm256Broadcastsi128Si256 (mmLoaduSi128 (mulRow c) 48)
  t0Hi := mm256Broadcastsi128Si256 (mmLoaduSi128 (mulRow c) 64)
  t1Hi := mm256Broadcastsi128Si256 (mmLoaduSi128 (mulRow c) 80)
  t2Hi := mm256Broadcastsi128Si256 (mmLoaduSi128 (mulRow c) 96)
  t3Hi := mm256Broadcastsi128Si256 (mmLoaduSi128 (mulRow c) 112)
  clrMask := mm256Set1Epi8 0x0f

/-- The loop body both multiplying kernels share, from the loaded halves `src_lo` and
`src_hi` to the two registers they combine with `dst[i]` and `dst[i + 32]`. -/
def mulKernel (t : ShuffleTables) (srcLo srcHi : Fin 32 → UInt8) :
    (Fin 32 → UInt8) × (Fin 32 → UInt8) :=
  let data0 := mm256AndSi256 srcLo t.clrMask
  let dstLo0 := mm256ShuffleEpi8 t.t0Lo data0
  let dstHi0 := mm256ShuffleEpi8 t.t0Hi data0
  let data1 := mm256AndSi256 (mm256SrliEpi64 srcLo 4) t.clrMask
  let dstLo1 := mm256ShuffleEpi8 t.t1Lo data1
  let dstHi1 := mm256ShuffleEpi8 t.t1Hi data1
  let data0 := mm256AndSi256 srcHi t.clrMask
  let dstLo0 := mm256XorSi256 dstLo0 (mm256ShuffleEpi8 t.t2Lo data0)
  let dstHi0 := mm256XorSi256 dstHi0 (mm256ShuffleEpi8 t.t2Hi data0)
  let data1 := mm256AndSi256 (mm256SrliEpi64 srcHi 4) t.clrMask
  let dstLo1 := mm256XorSi256 dstLo1 (mm256ShuffleEpi8 t.t3Lo data1)
  let dstHi1 := mm256XorSi256 dstHi1 (mm256ShuffleEpi8 t.t3Hi data1)
  (mm256XorSi256 dstLo0 dstLo1, mm256XorSi256 dstHi0 dstHi1)

/-- One iteration of the vector loop of `mul1_avx2`, at offset `i`. -/
def mul1Block (t : ShuffleTables) (dst src : Nat → Gf) (i : Nat) : Nat → Gf :=
  let r := mulKernel t (mm256LoaduSi256 src i) (mm256LoaduSi256 src (i + 32))
  mm256StoreuSi256 (mm256StoreuSi256 dst i r.1) (i + 32) r.2

/-- One iteration of the vector loop of `mul_add1_avx2`, at offset `i`: each half is xored
into the bytes of `dst` it replaces. -/
def mulAdd1Block (t : ShuffleTables) (dst src : Nat → Gf) (i : Nat) : Nat → Gf :=
  let r := mulKernel t (mm256LoaduSi256 src i) (mm256LoaduSi256 src (i + 32))
  let dst := mm256StoreuSi256 dst i (mm256XorSi256 (mm256LoaduSi256 dst i) r.1)
  mm256StoreuSi256 dst (i + 32) (mm256XorSi256 (mm256LoaduSi256 dst (i + 32)) r.2)

/-- One iteration of the vector loop of `add1_avx2`, at offset `i`. -/
def add1Block (dst src : Nat → Gf) (i : Nat) : Nat → Gf :=
  let srcLo := mm256LoaduSi256 src i
  let srcHi := mm256LoaduSi256 src (i + 32)
  let dstLo := mm256LoaduSi256 dst i
  let dstHi := mm256LoaduSi256 dst (i + 32)
  mm256StoreuSi256 (mm256StoreuSi256 dst i (mm256XorSi256 srcLo dstLo)) (i + 32)
    (mm256XorSi256 srcHi dstHi)

/-- `for (i = 0; i + 64 <= sz; i += 64) body(i)`: the first `n` iterations, `n = sz / 64`
for the whole loop. -/
def blockLoop (body : (Nat → Gf) → Nat → Nat → Gf) : Nat → (Nat → Gf) → Nat → Gf
  | 0, dst => dst
  | n + 1, dst => body (blockLoop body n dst) (64 * n)

/-- `for (; i < sz; i++) dst[i] = f(dst[i], i)`, from `i = start`. -/
def tailLoop (f : Gf → Nat → Gf) (start sz : Nat) (dst : Nat → Gf) : Nat → Gf :=
  (List.range' start (sz - start)).foldl (fun d i => Function.update d i (f (d i) i)) dst

/-- `mul1_avx2(dst, src, c, sz)`: `dst = src * c`. -/
def mul1Avx2 (dst src : Nat → Gf) (c : Gf) (sz : Nat) : Nat → Gf :=
  let t := shuffleTables c
  tailLoop (fun _ i => gfMulTable ((c.toNat <<< 8) + (src i).toNat)) (64 * (sz / 64)) sz
    (blockLoop (fun d i => mul1Block t d src i) (sz / 64) dst)

/-- `mul_add1_avx2(dst, src, c, sz)`: `dst ^= src * c`. -/
def mulAdd1Avx2 (dst src : Nat → Gf) (c : Gf) (sz : Nat) : Nat → Gf :=
  let t := shuffleTables c
  tailLoop (fun d i => d ^^^ gfMulTable ((c.toNat <<< 8) + (src i).toNat)) (64 * (sz / 64)) sz
    (blockLoop (fun d i => mulAdd1Block t d src i) (sz / 64) dst)

/-- `add1_avx2(dst, src, sz)`: `dst ^= src`. -/
def add1Avx2 (dst src : Nat → Gf) (sz : Nat) : Nat → Gf :=
  tailLoop (fun d i => d ^^^ src i) (64 * (sz / 64)) sz
    (blockLoop (fun d i => add1Block d src i) (sz / 64) dst)

/-- The sizes on which the loop test `i + 64 <= sz` of the three kernels stays an `int`: its
last sum, at `i = 64 * (sz / 64)`, overflows from `sz = 2^31 - 64` on. -/
def KernelSize (sz : Nat) : Prop := InInt (64 * (sz / 64) + 64)

instance : DecidablePred KernelSize := fun _ => inferInstanceAs (Decidable (InInt _))

theorem kernelSize_iff {sz : Nat} : KernelSize sz ↔ sz < 2 ^ 31 - 64 := by
  unfold KernelSize InInt
  omega

/-! ## What one block computes -/

/-- The xor of the four nibbles of `x` and `y`, as field elements: what the register code
multiplies by `c` at the offset of `x` in its block, `y` being the byte 32 further on. -/
def nibbleFold (x y : Gf) : Gf :=
  Gf.ofNat (x.toNat % 16) + Gf.ofNat (x.toNat / 16) + Gf.ofNat (y.toNat % 16) +
    Gf.ofNat (y.toNat / 16)

@[simp] theorem mk_xor (u v : UInt8) : (⟨u ^^^ v⟩ : Gf) = ⟨u⟩ + ⟨v⟩ := rfl

/-- Entry `m` of the row `lut` is the product `c * m`. -/
theorem mulRow_eq (c : Gf) {m : Nat} (hm : m < 256) : mulRow c m = c * Gf.ofNat m := by
  rw [mulRow, Nat.shiftLeft_eq, ← gfMul_eq_mul, gfMul, Gf.toNat_ofNat hm]

private theorem ofNat_mul_add_nibble : ∀ q < 8, ∀ n < 16,
    Gf.ofNat (16 * q + n) = Gf.ofNat (16 * q) + Gf.ofNat n := by
  decide

/-- A table offset plus a nibble is their xor. -/
theorem ofNat_add_nibble {off n : Nat} (hoff : off < 128 ∧ off % 16 = 0) (hn : n < 16) :
    Gf.ofNat (off + n) = Gf.ofNat off + Gf.ofNat n := by
  obtain ⟨q, rfl⟩ := Nat.dvd_of_mod_eq_zero hoff.2
  exact ofNat_mul_add_nibble q (by omega) n hn

/-- A table the kernels build, shuffled by a nibble register, reads `c` times the table's
offset plus the nibble. -/
theorem shuffle_mulRow (c : Gf) {off : Nat} (hoff : off + 16 ≤ 256) (b : Fin 32 → UInt8)
    (k : Fin 32) :
    (⟨mm256ShuffleEpi8 (mm256Broadcastsi128Si256 (mmLoaduSi128 (mulRow c) off))
      (mm256AndSi256 b (mm256Set1Epi8 0x0f)) k⟩ : Gf) = c * Gf.ofNat (off + (b k).toNat % 16) := by
  rw [mm256ShuffleEpi8_nibble]
  simp only [mmLoaduSi128, toNat_and_0x0f]
  exact mulRow_eq c (by omega)

/-- Byte `k` of both registers the kernel stores is `c` times the xor of the nibbles of the
source bytes `k` of its two loads, never `c` times the source byte. -/
theorem mulKernel_spec (c : Gf) (lo hi : Fin 32 → UInt8) (k : Fin 32) :
    (⟨(mulKernel (shuffleTables c) lo hi).1 k⟩ : Gf) = c * nibbleFold ⟨lo k⟩ ⟨hi k⟩ ∧
      (⟨(mulKernel (shuffleTables c) lo hi).2 k⟩ : Gf) = c * nibbleFold ⟨lo k⟩ ⟨hi k⟩ := by
  simp (disch := decide) only [mulKernel, shuffleTables, mm256XorSi256, mk_xor, shuffle_mulRow,
    toNat_mm256SrliEpi64]
  have hlo : (lo k).toNat < 256 := (lo k).toNat_lt_size
  have hhi : (hi k).toNat < 256 := (hi k).toNat_lt_size
  simp (disch := first | decide | omega) only [ofNat_add_nibble, Nat.zero_add, nibbleFold,
    Gf.toNat]
  have h0 : Gf.ofNat 16 + Gf.ofNat 32 + Gf.ofNat 48 = 0 := by decide
  have h1 : Gf.ofNat 64 + Gf.ofNat 80 + Gf.ofNat 96 + Gf.ofNat 112 = 0 := by decide
  exact ⟨by linear_combination c * h0, by linear_combination c * h1⟩

/-- The two halves a multiplying kernel stores are the same register. -/
theorem mulKernel_fst_eq_snd (c : Gf) (lo hi : Fin 32 → UInt8) :
    (mulKernel (shuffleTables c) lo hi).1 = (mulKernel (shuffleTables c) lo hi).2 := by
  funext k
  have h := mulKernel_spec c lo hi k
  exact congrArg Gf.val (h.1.trans h.2.symm)

/-! ## Stores and loops -/

@[simp] theorem Gf.mk_val (a : Gf) : (⟨a.val⟩ : Gf) = a := rfl

/-- Stores at `i` and `i + 32` write the 64 bytes from `i`, byte `a` from the register that
covers it, at `(a - i) % 32`. -/
theorem storeuPair_apply (dst : Nat → Gf) (i : Nat) (lo hi : Fin 32 → UInt8) (a : Nat) :
    mm256StoreuSi256 (mm256StoreuSi256 dst i lo) (i + 32) hi a =
      if i ≤ a ∧ a < i + 64 then
        ⟨(if a < i + 32 then lo else hi) ⟨(a - i) % 32, Nat.mod_lt _ (by decide)⟩⟩
      else dst a := by
  unfold mm256StoreuSi256
  by_cases hhi : i + 32 ≤ a ∧ a < i + 32 + 32
  · rw [dif_pos hhi, if_pos (by omega), if_neg (by omega)]
    congr 3
    omega
  · rw [dif_neg hhi]
    by_cases hlo : i ≤ a ∧ a < i + 32
    · rw [dif_pos hlo, if_pos (by omega), if_pos hlo.2]
      congr 3
      omega
    · rw [dif_neg hlo, if_neg (by omega)]

/-- A load from the 32 bytes after a store reads the buffer before it. -/
theorem mm256LoaduSi256_storeu_next (dst : Nat → Gf) (i : Nat) (v : Fin 32 → UInt8) :
    mm256LoaduSi256 (mm256StoreuSi256 dst i v) (i + 32) = mm256LoaduSi256 dst (i + 32) := by
  funext k
  simp only [mm256LoaduSi256, mm256StoreuSi256]
  rw [dif_neg (by omega)]

/-- The shape of one iteration of a vector loop: at offset `64 * n` it sets byte `a` of the
64-byte block to `g (dst a) a` and leaves every other byte. -/
def UpdatesBlock (body : (Nat → Gf) → Nat → Nat → Gf) (g : Gf → Nat → Gf) : Prop :=
  ∀ dst n a, body dst (64 * n) a = if 64 * n ≤ a ∧ a < 64 * n + 64 then g (dst a) a else dst a

/-- A vector loop of `n` iterations sets each of the first `64 * n` bytes by its `g`. -/
theorem blockLoop_apply {body : (Nat → Gf) → Nat → Nat → Gf} {g : Gf → Nat → Gf}
    (h : UpdatesBlock body g) (n : Nat) (dst : Nat → Gf) (a : Nat) :
    blockLoop body n dst a = if a < 64 * n then g (dst a) a else dst a := by
  induction n with
  | zero => simp [blockLoop]
  | succ n ih =>
    rw [blockLoop, h, ih]
    split_ifs <;> first | rfl | omega

theorem foldl_update_range' (f : Gf → Nat → Gf) (a : Nat) : ∀ (m start : Nat) (dst : Nat → Gf),
    (List.range' start m).foldl (fun d i => Function.update d i (f (d i) i)) dst a =
      if start ≤ a ∧ a < start + m then f (dst a) a else dst a
  | 0, start, dst => by simp only [List.range'_zero, List.foldl_nil]; split_ifs <;> first | rfl | omega
  | m + 1, start, dst => by
    rw [List.range'_succ, List.foldl_cons, foldl_update_range' f a m]
    by_cases ha : a = start
    · subst ha
      simp
    · simp only [Function.update_noteq ha]
      split_ifs <;> first | rfl | omega

/-- The scalar loop from `start` sets each byte below `sz` by `f`. -/
theorem tailLoop_apply (f : Gf → Nat → Gf) (start sz : Nat) (dst : Nat → Gf) (a : Nat) :
    tailLoop f start sz dst a = if start ≤ a ∧ a < sz then f (dst a) a else dst a := by
  rw [tailLoop, foldl_update_range']
  split_ifs <;> first | rfl | omega

/-- A kernel's vector loop followed by its scalar loop from the last whole block: the block
update below `64 * (sz / 64)`, the scalar update up to `sz`, and nothing written from `sz`
on. -/
theorem tailLoop_blockLoop_apply {body : (Nat → Gf) → Nat → Nat → Gf} {g : Gf → Nat → Gf}
    (h : UpdatesBlock body g) (f : Gf → Nat → Gf) (dst : Nat → Gf) (sz a : Nat) :
    tailLoop f (64 * (sz / 64)) sz (blockLoop body (sz / 64) dst) a =
      if a < sz then (if a < 64 * (sz / 64) then g (dst a) a else f (dst a) a) else dst a := by
  rw [tailLoop_apply, blockLoop_apply h]
  by_cases h1 : a < 64 * (sz / 64)
  · rw [if_neg (by omega), if_pos h1, if_pos (by omega), if_pos h1]
  · rw [if_neg h1, if_neg h1]
    by_cases h2 : a < sz
    · rw [if_pos ⟨by omega, h2⟩, if_pos h2]
    · rw [if_neg (by omega), if_neg h2]

/-! ## The three kernels over the whole buffer -/

/-- What the vector loops of the multiplying kernels compute at offset `a`: `c` times the
nibble fold of the source bytes at `a`'s place in the lower half of its 64-byte block and
32 bytes further on. -/
def blockProduct (c : Gf) (src : Nat → Gf) (a : Nat) : Gf :=
  c * nibbleFold (src (64 * (a / 64) + a % 32)) (src (64 * (a / 64) + a % 32 + 32))

theorem mulRow_toNat (c x : Gf) : mulRow c x.toNat = c * x := by
  rw [mulRow_eq c x.toNat_lt, Gf.ofNat_toNat]

/-- Offset `a` of the block at `64 n`, at its place in the lower half of the block. -/
theorem blockIndex {n a : Nat} (h : 64 * n ≤ a ∧ a < 64 * n + 64) :
    64 * (a / 64) + a % 32 = 64 * n + (a - 64 * n) % 32 := by
  omega

theorem mul1Block_updates (c : Gf) (src : Nat → Gf) :
    UpdatesBlock (fun d i => mul1Block (shuffleTables c) d src i)
      (fun _ a => blockProduct c src a) := by
  intro dst n a
  simp only [mul1Block, storeuPair_apply, ← mulKernel_fst_eq_snd, ite_self]
  split_ifs with h
  · rw [(mulKernel_spec _ _ _ _).1]
    simp only [mm256LoaduSi256, Gf.mk_val, blockProduct, blockIndex h, Nat.add_right_comm _ _ 32]
  · rfl

theorem mulAdd1Block_updates (c : Gf) (src : Nat → Gf) :
    UpdatesBlock (fun d i => mulAdd1Block (shuffleTables c) d src i)
      (fun old a => old + blockProduct c src a) := by
  intro dst n a
  simp only [mulAdd1Block, mm256LoaduSi256_storeu_next, storeuPair_apply,
    ← mulKernel_fst_eq_snd]
  split_ifs with h h'
  · simp only [mm256XorSi256, mk_xor, (mulKernel_spec _ _ _ _).1, mm256LoaduSi256,
      Gf.mk_val, blockProduct, blockIndex h, Nat.add_right_comm _ _ 32]
    rw [show 64 * n + (a - 64 * n) % 32 = a by omega]
  · simp only [mm256XorSi256, mk_xor, (mulKernel_spec _ _ _ _).1, mm256LoaduSi256,
      Gf.mk_val, blockProduct, blockIndex h, Nat.add_right_comm _ _ 32]
    rw [show 64 * n + 32 + (a - 64 * n) % 32 = a by omega]
  · rfl

theorem add1Block_updates (src : Nat → Gf) :
    UpdatesBlock (fun d i => add1Block d src i) (fun old a => old + src a) := by
  intro dst n a
  simp only [add1Block, storeuPair_apply]
  split_ifs with h h'
  · simp only [mm256XorSi256, mk_xor, mm256LoaduSi256, Gf.mk_val]
    rw [add_comm, show 64 * n + (a - 64 * n) % 32 = a by omega]
  · simp only [mm256XorSi256, mk_xor, mm256LoaduSi256, Gf.mk_val]
    rw [add_comm, show 64 * n + 32 + (a - 64 * n) % 32 = a by omega]
  · rfl

/-- What the multiplying kernels leave for `c * src[a]` at offset `a < sz`: `blockProduct`
in the 64-byte blocks and the table product in the tail. -/
def avx2Product (c : Gf) (src : Nat → Gf) (sz a : Nat) : Gf :=
  if a < 64 * (sz / 64) then blockProduct c src a else c * src a

@[simp] theorem avx2Product_zero (src : Nat → Gf) (sz a : Nat) : avx2Product 0 src sz a = 0 := by
  unfold avx2Product blockProduct
  split_ifs <;> simp

/-- `mul1_avx2` over the whole buffer: `avx2Product` below `sz`, and no byte from `sz` on
is written. -/
theorem mul1Avx2_spec (dst src : Nat → Gf) (c : Gf) (sz a : Nat) :
    mul1Avx2 dst src c sz a = if a < sz then avx2Product c src sz a else dst a := by
  rw [mul1Avx2, tailLoop_blockLoop_apply (mul1Block_updates c src), avx2Product]
  exact if_congr Iff.rfl (if_congr Iff.rfl rfl (mulRow_toNat c (src a))) rfl

/-- `mul_add1_avx2` over the whole buffer. -/
theorem mulAdd1Avx2_spec (dst src : Nat → Gf) (c : Gf) (sz a : Nat) :
    mulAdd1Avx2 dst src c sz a = if a < sz then dst a + avx2Product c src sz a else dst a := by
  rw [mulAdd1Avx2, tailLoop_blockLoop_apply (mulAdd1Block_updates c src), avx2Product, add_ite]
  exact if_congr Iff.rfl (if_congr Iff.rfl rfl (congrArg (dst a + ·) (mulRow_toNat c (src a)))) rfl

/-- `add1_avx2` is `dst ^= src` on the first `sz` bytes and writes nothing else. -/
theorem add1Avx2_spec (dst src : Nat → Gf) (sz a : Nat) :
    add1Avx2 dst src sz a = if a < sz then dst a + src a else dst a := by
  rw [add1Avx2, tailLoop_blockLoop_apply (add1Block_updates src)]
  exact if_congr Iff.rfl (ite_self (dst a + src a)) rfl

/-- From one block on, the vector loop reads the source byte `0x10`, followed by zeros, as
`1`: its nibbles are `0` and `1`. -/
theorem mul1Avx2_sixteen (dst : Nat → Gf) (c : Gf) {sz : Nat} (hsz : 64 ≤ sz) :
    mul1Avx2 dst (fun a => if a = 0 then Gf.ofNat 0x10 else 0) c sz 0 = c := by
  have hfold : nibbleFold (Gf.ofNat 0x10) 0 = 1 := by decide
  rw [mul1Avx2_spec, if_pos (by omega), avx2Product, if_pos (by omega)]
  show c * nibbleFold (Gf.ofNat 0x10) 0 = c
  rw [hfold, mul_one]

/-- A nonzero `c` is not `c * 0x10`. -/
theorem ne_mul_sixteen {c : Gf} (hc : c ≠ 0) : c ≠ c * Gf.ofNat 0x10 := fun h =>
  absurd (mul_left_cancel₀ hc (h.symm.trans (mul_one c).symm)).symm (by decide)

/-- The vector loop of `mul1_avx2` is not the table product: for every nonzero `c` and every
buffer of at least one block, a source byte `0x10` at the start, with zeros after it, is
multiplied as if it were `1`. -/
theorem mul1Avx2_ne_table (dst : Nat → Gf) {c : Gf} (hc : c ≠ 0) {sz : Nat} (hsz : 64 ≤ sz) :
    mul1Avx2 dst (fun a => if a = 0 then Gf.ofNat 0x10 else 0) c sz 0 ≠
      gfMulTable (c.toNat * 256 + 0x10) := by
  rw [mul1Avx2_sixteen dst c hsz, ← Nat.shiftLeft_eq c.toNat 8]
  show c ≠ mulRow c 0x10
  rw [mulRow_eq c (by decide)]
  exact ne_mul_sixteen hc

theorem mul1Avx2_ne_table_one :
    (1 : Gf) ≠ 0 ∧ 64 ≤ 64 ∧
      mul1Avx2 (fun _ => 0) (fun a => if a = 0 then Gf.ofNat 0x10 else 0) 1 64 0 ≠
        gfMulTable ((1 : Gf).toNat * 256 + 0x10) :=
  ⟨one_ne_zero, le_refl _, mul1Avx2_ne_table _ one_ne_zero (le_refl _)⟩

end Kelp.Rs
