import Kelp.BlockAio.Spread

/-!
# `spread_data_original` and `spread_data_simd`

`benchspread.c` times two versions of `spread_data` against each other.

* `spread_data_original` deals the input out in chunks of `min(16, bytes left)` bytes,
  chunk `c` to block `c % k`, each block at its running offset (`originalLoop`).
* `spread_data_simd` first runs the rounds of `spread_data` of `blockaio.c` while at least
  `16 * k` bytes are left, then deals the rest out the same way as the original, from block
  0 again (`simdTailLoop`).  Like `spread_data`, it multiplies `16 * k` in `int`, which
  overflows from `k = 2^27` on; `spread_data_original` has no such product.

Both byte loops make the same pass, `chunkStep`; `(current_block + 1) % k` divides by zero
when `k = 0`, and the model has no result then.  The loops run on fuel, and the two
functions return the blocks they leave, or `none` when they have no defined return.

Below `2^27` the SIMD version is the original one (`spreadDataSimd_eq_original`): `k`
passes of the original from block 0 with `16 k` bytes left are one round of the SIMD loop
(`originalLoop_round`), and its tail loop makes, pass for pass, the passes of the original
(`simdTailLoop_eq`).  When `16 k` divides the size, the tail is empty and both leave what
`spread_data` leaves.

Where the bytes go is `chunkLayout`: chunk `c` of the input, the last one short, lands in
block `c % k` at offset `16 (c / k)`.  The original loop leaves that layout of the whole
input, and `spread_data` the same layout of its whole rounds only
(`spreadDataOriginal_eq`).  The run lemma carries `p`, `current_block`, the offsets
(`chunkOffset`) and the blocks from one chunk to the next.
-/

namespace Kelp.Bench

open Kelp.BlockAio

/-- `memcpy(dst + off, src + s, n)`. -/
def memcpyBytes (dst : Nat → UInt8) (off : Nat) (src : Nat → UInt8) (s n : Nat) : Nat → UInt8 :=
  fun a => if off ≤ a ∧ a < off + n then src (s + (a - off)) else dst a

/-- The state of the byte loops: `p`, the bytes of the input read so far (`bytes_copied`, or
`src` as an offset from `input`); `current_block`; `offset[i]` for each block; and the
blocks. -/
structure ChunkState where
  p : Nat
  currentBlock : Nat
  offset : Nat → Nat
  mem : Nat → Nat → UInt8

/-- A state of the round loop of `spread_data`, with `current_block` set to `cb`. -/
def ChunkState.ofRoundRobin (st : RoundRobin (Nat → Nat → UInt8)) (cb : Nat) : ChunkState :=
  ⟨st.p, cb, st.offset, st.mem⟩

@[simp] theorem ChunkState.ofRoundRobin_p (st : RoundRobin (Nat → Nat → UInt8)) (cb : Nat) :
    (ChunkState.ofRoundRobin st cb).p = st.p := rfl

@[simp] theorem ChunkState.ofRoundRobin_mem (st : RoundRobin (Nat → Nat → UInt8)) (cb : Nat) :
    (ChunkState.ofRoundRobin st cb).mem = st.mem := rfl

/-- One pass of a byte loop, `n` bytes:
`memcpy(dest[current_block] + offset[current_block], src, n)`, the input pointer and
`offset[current_block]` advanced by `n`, and `current_block = (current_block + 1) % k`,
undefined for `k = 0`. -/
def chunkStep (input : Nat → UInt8) (k n : Nat) (st : ChunkState) : Option ChunkState :=
  if k = 0 then none
  else some ⟨st.p + n, (st.currentBlock + 1) % k,
    Function.update st.offset st.currentBlock (st.offset st.currentBlock + n),
    Function.update st.mem st.currentBlock
      (memcpyBytes (st.mem st.currentBlock) (st.offset st.currentBlock) input st.p n)⟩

/-- `while (bytes_copied < input_size)` of `spread_data_original`, on at most `fuel` passes. -/
def originalLoop (input : Nat → UInt8) (inputSize k : Nat) : Nat → ChunkState → Option ChunkState
  | 0, _ => none
  | fuel + 1, st =>
    if st.p < inputSize then
      let bytesToCopy := if inputSize - st.p < 16 then inputSize - st.p else 16
      (chunkStep input k bytesToCopy st).bind (originalLoop input inputSize k fuel)
    else some st

/-- `spread_data_original(input, output_blocks, input_size, k)`: the blocks it leaves, or
`none` when it does not return. -/
def spreadDataOriginal (input : Nat → UInt8) (outputBlocks : Nat → Nat → UInt8)
    (inputSize k : Nat) : Option (Nat → Nat → UInt8) :=
  (originalLoop input inputSize k (inputSize + 1) ⟨0, 0, fun _ => 0, outputBlocks⟩).map
    ChunkState.mem

/-- `while (input_size > 0)`, the tail loop of `spread_data_simd`, on at most `fuel` passes:
`input_size` counts the bytes left. -/
def simdTailLoop (input : Nat → UInt8) (k : Nat) : Nat → Nat → ChunkState → Option ChunkState
  | 0, _, _ => none
  | fuel + 1, inputSize, st =>
    if inputSize > 0 then
      let bytesToCopy := if inputSize < 16 then inputSize else 16
      (chunkStep input k bytesToCopy st).bind (simdTailLoop input k fuel (inputSize - bytesToCopy))
    else some st

/-- `spread_data_simd(input, output_blocks, input_size, k)`: the rounds of `spread_data`, then
the tail loop from block 0 on the `input_size - p` bytes the rounds leave; `none` also when
`16 * k` overflows at the first test of the rounds. -/
def spreadDataSimd (input : Nat → UInt8) (outputBlocks : Nat → Nat → UInt8)
    (inputSize k : Nat) : Option (Nat → Nat → UInt8) :=
  (intMul 16 k).bind fun _ => (roundRobinLoop (spreadCopy input) k (inputSize + 1) inputSize
    ⟨0, fun _ => 0, outputBlocks⟩).bind fun st =>
    (simdTailLoop input k (inputSize + 1) (inputSize - st.p) (.ofRoundRobin st 0)).map
      ChunkState.mem

/-! ## The passes -/

section Passes

variable (input : Nat → UInt8) (inputSize : Nat) {k : Nat}

/-- A pass copies between 1 and 16 bytes, and no more than are left. -/
theorem bytesToCopy_bounds {r : Nat} (h : 0 < r) :
    0 < (if r < 16 then r else 16) ∧ (if r < 16 then r else 16) ≤ r := by
  split <;> omega

theorem p_of_chunkStep_eq_some {n : Nat} {st st' : ChunkState}
    (h : chunkStep input k n st = some st') : st'.p = st.p + n := by
  unfold chunkStep at h
  split at h
  · cases h
  · cases h
    rfl

theorem chunkStep_isSome (hk : 0 < k) (n : Nat) (st : ChunkState) :
    (chunkStep input k n st).isSome := by
  rw [chunkStep, if_neg (by omega)]
  rfl

/-- A 16-byte pass to block `j` is the step of `spread_data`'s round at `j`. -/
theorem chunkStep_ofRoundRobin (hk : 0 < k) (st : RoundRobin (Nat → Nat → UInt8)) (j : Nat) :
    chunkStep input k 16 (.ofRoundRobin st j) =
      some (.ofRoundRobin (roundRobinStep (spreadCopy input) st j) ((j + 1) % k)) := by
  rw [chunkStep, if_neg (by omega)]
  rfl

/-- More passes than bytes left: the original loop does not run out of fuel. -/
theorem originalLoop_isSome (hk : 0 < k) :
    ∀ fuel (st : ChunkState), inputSize - st.p < fuel →
      (originalLoop input inputSize k fuel st).isSome
  | 0, _, h => absurd h (Nat.not_lt_zero _)
  | fuel + 1, st, h => by
    rw [originalLoop]
    by_cases hlt : st.p < inputSize
    · obtain ⟨st', hst'⟩ := Option.isSome_iff_exists.mp (chunkStep_isSome input hk
        (if inputSize - st.p < 16 then inputSize - st.p else 16) st)
      have hp := p_of_chunkStep_eq_some input hst'
      have hn := bytesToCopy_bounds (r := inputSize - st.p) (by omega)
      rw [if_pos hlt]
      dsimp only
      rw [hst', Option.some_bind]
      exact originalLoop_isSome hk fuel st' (by omega)
    · rw [if_neg hlt]
      rfl

/-- Any fuel beyond the bytes left gives the same result. -/
theorem originalLoop_fuel :
    ∀ f g (st : ChunkState), inputSize - st.p < f → inputSize - st.p < g →
      originalLoop input inputSize k f st = originalLoop input inputSize k g st
  | 0, _, _, hf, _ => absurd hf (Nat.not_lt_zero _)
  | _, 0, _, _, hg => absurd hg (Nat.not_lt_zero _)
  | f + 1, g + 1, st, hf, hg => by
    rw [originalLoop, originalLoop]
    by_cases hlt : st.p < inputSize
    · rw [if_pos hlt, if_pos hlt]
      dsimp only
      cases hc : chunkStep input k (if inputSize - st.p < 16 then inputSize - st.p else 16) st with
      | none => rfl
      | some st' =>
        have hp := p_of_chunkStep_eq_some input hc
        have hn := bytesToCopy_bounds (r := inputSize - st.p) (by omega)
        exact originalLoop_fuel f g st' (by omega) (by omega)
    · rw [if_neg hlt, if_neg hlt]

/-- The tail loop of `spread_data_simd` makes the passes of the original loop, with
`input_size` the bytes the original has left. -/
theorem simdTailLoop_eq : ∀ fuel (st : ChunkState), st.p ≤ inputSize →
    simdTailLoop input k fuel (inputSize - st.p) st = originalLoop input inputSize k fuel st
  | 0, _, _ => rfl
  | fuel + 1, st, hle => by
    rw [simdTailLoop, originalLoop]
    by_cases hlt : st.p < inputSize
    · rw [if_pos (show inputSize - st.p > 0 by omega), if_pos hlt]
      dsimp only
      cases hc : chunkStep input k (if inputSize - st.p < 16 then inputSize - st.p else 16) st with
      | none => rfl
      | some st' =>
        have hp := p_of_chunkStep_eq_some input hc
        have hn := bytesToCopy_bounds (r := inputSize - st.p) (by omega)
        rw [Option.some_bind, Option.some_bind, ← simdTailLoop_eq fuel st' (by omega)]
        congr 1
        omega
    · rw [if_neg (by omega), if_neg hlt]

/-- A pass of the original loop with at least 16 bytes left copies 16 bytes. -/
theorem originalLoop_sixteen {st : ChunkState} (h : st.p + 16 ≤ inputSize) (fuel : Nat) :
    originalLoop input inputSize k (fuel + 1) st =
      (chunkStep input k 16 st).bind (originalLoop input inputSize k fuel) := by
  rw [originalLoop, if_pos (by omega), if_neg (by omega)]

/-- `k` passes of the original loop from block 0, with `16 k` bytes left, are one round of
`spread_data`: after `j` of them the state is the round's after `j` steps, at block `j`. -/
theorem originalLoop_steps (hk : 0 < k) (st : RoundRobin (Nat → Nat → UInt8))
    (hst : st.p + 16 * k ≤ inputSize) : ∀ j ≤ k, ∀ fuel,
    originalLoop input inputSize k (fuel + j) (.ofRoundRobin st 0) =
      originalLoop input inputSize k fuel
        (.ofRoundRobin ((List.range j).foldl (roundRobinStep (spreadCopy input)) st) (j % k))
  | 0, _, fuel => by rw [Nat.zero_mod]; rfl
  | j + 1, hj, fuel => by
    have hp : ((List.range j).foldl (roundRobinStep (spreadCopy input)) st).p = st.p + 16 * j := by
      rw [foldl_roundRobinStep]
    rw [← Nat.add_assoc, Nat.add_right_comm, originalLoop_steps hk st hst j (by omega) (fuel + 1),
      originalLoop_sixteen input inputSize (by rw [ChunkState.ofRoundRobin_p]; omega),
      Nat.mod_eq_of_lt (show j < k by omega), chunkStep_ofRoundRobin input hk, Option.some_bind,
      List.range_succ, List.foldl_append]
    rfl

/-- One round of `spread_data` in passes of the original loop. -/
theorem originalLoop_round (hk : 0 < k) (st : RoundRobin (Nat → Nat → UInt8))
    (hst : st.p + 16 * k ≤ inputSize) (fuel : Nat) :
    originalLoop input inputSize k (fuel + k) (.ofRoundRobin st 0) =
      originalLoop input inputSize k fuel
        (.ofRoundRobin (roundRobinRound (spreadCopy input) k st) 0) := by
  rw [originalLoop_steps input inputSize hk st hst k le_rfl fuel, Nat.mod_self]
  rfl

theorem roundRobinRound_p (copy : (Nat → Nat → UInt8) → Nat → Nat → Nat → Nat → Nat → UInt8)
    (st : RoundRobin (Nat → Nat → UInt8)) : ∀ q,
    ((roundRobinRound copy k)^[q] st).p = st.p + 16 * k * q
  | 0 => rfl
  | q + 1 => by
    rw [Function.iterate_succ_apply', roundRobinRound, foldl_roundRobinStep,
      roundRobinRound_p copy st q]
    ring

/-- `q` rounds of `spread_data` in passes of the original loop. -/
theorem originalLoop_rounds (hk : 0 < k) : ∀ q (st : RoundRobin (Nat → Nat → UInt8)) fuel,
    st.p + 16 * k * q ≤ inputSize →
    originalLoop input inputSize k (fuel + q * k) (.ofRoundRobin st 0) =
      originalLoop input inputSize k fuel
        (.ofRoundRobin ((roundRobinRound (spreadCopy input) k)^[q] st) 0)
  | 0, st, fuel, _ => by rw [Nat.zero_mul, Nat.add_zero]; rfl
  | q + 1, st, fuel, hq => by
    have hp := roundRobinRound_p (k := k) (spreadCopy input) st 1
    rw [Function.iterate_one] at hp
    rw [Nat.succ_mul, ← Nat.add_assoc, originalLoop_round input inputSize hk st (by
      rw [Nat.mul_succ] at hq; omega), originalLoop_rounds hk q _ fuel (by
      rw [hp, Nat.mul_succ] at *; omega), Function.iterate_succ_apply]

end Passes

/-! ## The two versions -/

/-- The original loop makes the rounds of `spread_data` first, then goes on from the state
they leave. -/
theorem originalLoop_eq_after_rounds (input : Nat → UInt8) (outputBlocks : Nat → Nat → UInt8)
    (inputSize : Nat) {k : Nat} (hk : 0 < k) :
    originalLoop input inputSize k (inputSize + 1) (.ofRoundRobin ⟨0, fun _ => 0, outputBlocks⟩ 0) =
      originalLoop input inputSize k (inputSize + 1) (.ofRoundRobin
        ((roundRobinRound (spreadCopy input) k)^[inputSize / (16 * k)]
          ⟨0, fun _ => 0, outputBlocks⟩) 0) := by
  set q := inputSize / (16 * k)
  have hp := roundRobinRound_p (k := k) (spreadCopy input) ⟨0, fun _ => 0, outputBlocks⟩ q
  have hq : 16 * k * q ≤ inputSize := Nat.mul_div_le inputSize (16 * k)
  have hkq : 16 * k * q = 16 * (q * k) := by ring
  have hqk : q * k ≤ inputSize + 1 := by omega
  conv_lhs => rw [← Nat.sub_add_cancel hqk]
  rw [originalLoop_rounds input inputSize hk q _ _ (by simpa using hq)]
  exact originalLoop_fuel input inputSize _ _ _
    (by rw [ChunkState.ofRoundRobin_p, hp]; dsimp only; omega) (by omega)

/-- For `1 ≤ k < 2^27` and every size, `spread_data_original` returns, `spread_data_simd`
leaves the same blocks, and, when `16 k` divides the size, so does `spread_data`. -/
theorem spreadDataSimd_eq_original (input : Nat → UInt8) (outputBlocks : Nat → Nat → UInt8)
    (inputSize : Nat) {k : Nat} (hk : 0 < k) (hk' : k < 2 ^ 27) :
    (spreadDataOriginal input outputBlocks inputSize k).isSome ∧
      spreadDataSimd input outputBlocks inputSize k =
        spreadDataOriginal input outputBlocks inputSize k ∧
      (16 * k ∣ inputSize →
        spreadData input outputBlocks inputSize k =
          spreadDataOriginal input outputBlocks inputSize k) := by
  have hloop := roundRobinLoop_eq (spreadCopy input) hk (inputSize + 1) inputSize
    ⟨0, fun _ => 0, outputBlocks⟩ (Nat.lt_succ_self _)
  have horig : spreadDataOriginal input outputBlocks inputSize k =
      (originalLoop input inputSize k (inputSize + 1) (.ofRoundRobin
        ((roundRobinRound (spreadCopy input) k)^[inputSize / (16 * k)]
          ⟨0, fun _ => 0, outputBlocks⟩) 0)).map ChunkState.mem :=
    congrArg (Option.map _) (originalLoop_eq_after_rounds input outputBlocks inputSize hk)
  have hp := roundRobinRound_p (k := k) (spreadCopy input) ⟨0, fun _ => 0, outputBlocks⟩
    (inputSize / (16 * k))
  have hq : 16 * k * (inputSize / (16 * k)) ≤ inputSize := Nat.mul_div_le inputSize (16 * k)
  have hmul := intMul_of_inInt (inInt_sixteen_mul.mpr hk')
  refine ⟨?_, ?_, fun hdvd => ?_⟩
  · rw [spreadDataOriginal, Option.isSome_map']
    exact originalLoop_isSome input inputSize hk _ _ (Nat.lt_succ_self _)
  · rw [spreadDataSimd, hmul, Option.some_bind, hloop, Option.some_bind, horig,
      ← ChunkState.ofRoundRobin_p _ 0, simdTailLoop_eq input inputSize _ _ (by
        rw [ChunkState.ofRoundRobin_p, hp]; dsimp only; omega)]
  · have hsize : 16 * k * (inputSize / (16 * k)) = inputSize := Nat.mul_div_cancel' hdvd
    rw [spreadData, hmul, Option.some_bind, hloop, horig, originalLoop, if_neg (by
      rw [ChunkState.ofRoundRobin_p, hp]; dsimp only; omega)]
    rfl

theorem spreadDataSimd_eq_original_three :
    0 < 3 ∧ 3 < 2 ^ 27 ∧ (spreadDataOriginal (fun a => a.toUInt8) (fun _ _ => 0) 100 3).isSome ∧
      spreadDataSimd (fun a => a.toUInt8) (fun _ _ => 0) 100 3 =
        spreadDataOriginal (fun a => a.toUInt8) (fun _ _ => 0) 100 3 ∧
      (16 * 3 ∣ 100 → spreadData (fun a => a.toUInt8) (fun _ _ => 0) 100 3 =
        spreadDataOriginal (fun a => a.toUInt8) (fun _ _ => 0) 100 3) :=
  ⟨by decide, by decide, spreadDataSimd_eq_original _ _ _ (by decide) (by decide)⟩

/-- From `k = 2^27` on, `16 * k` overflows at the first test of `spread_data_simd`. -/
theorem spreadDataSimd_eq_none (input : Nat → UInt8) (outputBlocks : Nat → Nat → UInt8)
    (inputSize : Nat) {k : Nat} (hk : 2 ^ 27 ≤ k) :
    spreadDataSimd input outputBlocks inputSize k = none := by
  rw [spreadDataSimd, intMul_of_not_inInt (by rw [inInt_sixteen_mul]; omega), Option.none_bind]

/-- The benchmark's 4096 bytes over `2^27` blocks: `spread_data_original` returns, while
`16 * k` overflows in `spread_data_simd`. -/
theorem spreadDataSimd_overflow :
    (spreadDataOriginal (fun a => a.toUInt8) (fun _ _ => 0) 4096 (2 ^ 27)).isSome ∧
      spreadDataSimd (fun a => a.toUInt8) (fun _ _ => 0) 4096 (2 ^ 27) = none := by
  refine ⟨?_, spreadDataSimd_eq_none _ _ _ le_rfl⟩
  rw [spreadDataOriginal, Option.isSome_map']
  exact originalLoop_isSome _ _ (by decide) _ _ (Nat.lt_succ_self _)

/-! ## Where the chunks go -/

/-- The blocks once the first `n` bytes of the input are dealt out: byte `a` of block `i < k`
is byte `a % 16` of chunk `a / 16 * k + i` of the input while that byte is below `n`; nothing
else is written. -/
def chunkLayout (input : Nat → UInt8) (k n : Nat) (outputBlocks : Nat → Nat → UInt8) :
    Nat → Nat → UInt8 :=
  fun i a => if i < k ∧ 16 * (a / 16 * k + i) + a % 16 < n then
    input (16 * (a / 16 * k + i) + a % 16) else outputBlocks i a

/-- `offset[i]` once chunks `0 .. c - 1` are dealt out: 16 bytes for each of them that went to
block `i`. -/
def chunkOffset (k c i : Nat) : Nat := 16 * (c / k + if i < c % k then 1 else 0)

section Layout

variable (input : Nat → UInt8) (inputSize : Nat) {k : Nat} (outputBlocks : Nat → Nat → UInt8)

/-- Chunk `c` moves on the offset of its block `c % k` and no other. -/
theorem chunkOffset_succ (hk : 0 < k) (c : Nat) {i : Nat} (hi : i < k) :
    (if i = c % k then chunkOffset k c i + 16 else chunkOffset k c i) = chunkOffset k (c + 1) i := by
  have hc := Nat.mod_add_div c k
  have hj := Nat.mod_lt c hk
  unfold chunkOffset
  rcases (show c % k + 1 < k ∨ c % k + 1 = k by omega) with h | h
  · obtain ⟨hd, hm⟩ : (c + 1) / k = c / k ∧ (c + 1) % k = c % k + 1 :=
      (Nat.div_mod_unique hk).mpr ⟨by omega, h⟩
    rw [hd, hm]
    by_cases hic : i = c % k
    · rw [if_pos hic, if_neg (by omega), if_pos (by omega)]
      omega
    · rw [if_neg hic]
      split_ifs <;> omega
  · obtain ⟨hd, hm⟩ : (c + 1) / k = c / k + 1 ∧ (c + 1) % k = 0 :=
      (Nat.div_mod_unique hk).mpr ⟨by rw [mul_add_one]; omega, hk⟩
    rw [hd, hm, if_neg (Nat.not_lt_zero i)]
    by_cases hic : i = c % k
    · rw [if_pos hic, if_neg (by omega)]
      omega
    · rw [if_neg hic, if_pos (by omega)]

/-- A byte outside chunk `c` reads the same before and after chunk `c` is dealt out. -/
theorem chunkLayout_of_ne {c n : Nat} (hn : n ≤ 16) {i a : Nat}
    (h : i < k → a / 16 * k + i ≠ c) :
    chunkLayout input k (16 * c) outputBlocks i a =
      chunkLayout input k (16 * c + n) outputBlocks i a := by
  have hr := Nat.mod_lt a (show 16 > 0 by decide)
  unfold chunkLayout
  by_cases h' : i < k ∧ 16 * (a / 16 * k + i) + a % 16 < 16 * c
  · rw [if_pos h', if_pos ⟨h'.1, by omega⟩]
  · rw [if_neg h', if_neg (by omega)]

/-- The pass of chunk `c`: `n ≤ 16` bytes from `16 c` copied to block `c % k` at offset
`16 (c / k)` add the chunk to the layout. -/
theorem chunkLayout_pass (hk : 0 < k) (c : Nat) {n : Nat} (hn : n ≤ 16) :
    Function.update (chunkLayout input k (16 * c) outputBlocks) (c % k)
        (memcpyBytes (chunkLayout input k (16 * c) outputBlocks (c % k)) (16 * (c / k)) input
          (16 * c) n) =
      chunkLayout input k (16 * c + n) outputBlocks := by
  have hunique : ∀ {i a}, i < k → a / 16 * k + i = c → a / 16 = c / k ∧ i = c % k :=
    fun {i a} hi he => by
      obtain ⟨hd, hm⟩ : c / k = a / 16 ∧ c % k = i :=
        (Nat.div_mod_unique hk).mpr ⟨by rw [Nat.mul_comm]; omega, hi⟩
      exact ⟨hd.symm, hm.symm⟩
  have hr := fun a => Nat.mod_lt a (show 16 > 0 by decide)
  funext i a
  by_cases hi : i = c % k
  · subst hi
    rw [Function.update_same]
    by_cases ha : 16 * (c / k) ≤ a ∧ a < 16 * (c / k) + n
    · have hb : a / 16 = c / k := by omega
      have hmod := Nat.div_add_mod' c k
      simp only [memcpyBytes, chunkLayout, if_pos ha, hb, hmod]
      rw [if_pos ⟨Nat.mod_lt c hk, by have := hr a; omega⟩]
      congr 1
      omega
    · simp only [memcpyBytes, if_neg ha]
      by_cases he : a / 16 * k + c % k = c
      · have hb := (hunique (Nat.mod_lt c hk) he).1
        unfold chunkLayout
        rw [he, if_neg (by omega), if_neg (by omega)]
      · exact chunkLayout_of_ne input outputBlocks hn fun _ => he
  · rw [Function.update_noteq hi]
    exact chunkLayout_of_ne input outputBlocks hn fun hik he => hi (hunique hik he).2

theorem chunkLayout_zero : chunkLayout input k 0 outputBlocks = outputBlocks := by
  funext i a
  simp [chunkLayout]

/-- The original loop from chunk `c`, with `p`, `current_block`, the offsets and the blocks where
the chunks before `c` leave them, deals out the rest of the input. -/
theorem originalLoop_chunkLayout (hk : 0 < k) : ∀ fuel c (st : ChunkState),
    inputSize - 16 * c < fuel → 16 * c ≤ inputSize → st.p = 16 * c →
    st.currentBlock = c % k → (∀ i < k, st.offset i = chunkOffset k c i) →
    st.mem = chunkLayout input k (16 * c) outputBlocks →
    (originalLoop input inputSize k fuel st).map ChunkState.mem =
      some (chunkLayout input k inputSize outputBlocks)
  | 0, _, _, hf, _, _, _, _, _ => absurd hf (Nat.not_lt_zero _)
  | fuel + 1, c, st, hf, hle, hp, hcb, hoff, hmem => by
    have hoffc : st.offset (c % k) = 16 * (c / k) := by
      rw [hoff _ (Nat.mod_lt c hk), chunkOffset, if_neg (lt_irrefl _), Nat.add_zero]
    have hstep : ∀ n ≤ 16, chunkStep input k n st = some ⟨16 * c + n, (c + 1) % k,
        Function.update st.offset (c % k) (st.offset (c % k) + n),
        chunkLayout input k (16 * c + n) outputBlocks⟩ := fun n hn => by
      rw [chunkStep, if_neg (by omega), hp, hcb, Nat.mod_add_mod, hmem, hoffc,
        chunkLayout_pass input outputBlocks hk c hn]
    rw [originalLoop]
    by_cases hlt : 16 * c < inputSize
    · rw [if_pos (hp ▸ hlt)]
      dsimp only
      by_cases hfull : 16 * c + 16 ≤ inputSize
      · rw [hp, if_neg (by omega), hstep 16 le_rfl, Option.some_bind]
        refine originalLoop_chunkLayout hk fuel (c + 1) _ (by omega) (by omega)
          (show 16 * c + 16 = 16 * (c + 1) by omega) rfl (fun i hi => ?_) rfl
        show Function.update st.offset (c % k) (st.offset (c % k) + 16) i = _
        rw [← chunkOffset_succ hk c hi]
        by_cases hic : i = c % k
        · rw [hic, Function.update_same, if_pos rfl, hoffc, chunkOffset, if_neg (lt_irrefl _)]
          rfl
        · rw [Function.update_noteq hic, if_neg hic, hoff i hi]
      · rw [hp, if_pos (by omega), hstep _ (by omega), Option.some_bind, Nat.add_sub_cancel' hle]
        cases fuel with
        | zero => omega
        | succ fuel => rw [originalLoop, if_neg (show ¬ inputSize < inputSize from lt_irrefl _)]; rfl
    · rw [if_neg (show ¬ st.p < inputSize by omega), Option.map_some', hmem,
        show 16 * c = inputSize by omega]

/-- For `k ≥ 1`, `spread_data_original` sends chunk `c` of the input, `min(16, bytes left)`
bytes, to block `c % k` at offset `16 (c / k)`, and writes nothing else; `spread_data` does the
same for the whole rounds of `16 k` bytes only, where `16 * k` is an `int`. -/
theorem spreadDataOriginal_eq (hk : 0 < k) :
    spreadDataOriginal input outputBlocks inputSize k =
        some (chunkLayout input k inputSize outputBlocks) ∧
      (k < 2 ^ 27 → spreadData input outputBlocks inputSize k =
        some (chunkLayout input k (16 * (inputSize / (16 * k) * k)) outputBlocks)) := by
  refine ⟨originalLoop_chunkLayout input inputSize outputBlocks hk _ 0 _ (by omega) (by omega) rfl
    (Nat.zero_mod k).symm (fun i _ => by simp [chunkOffset])
    (chunkLayout_zero input outputBlocks).symm, fun hk' => ?_⟩
  rw [spreadData_eq input outputBlocks inputSize hk hk']
  congr 1
  funext i a
  unfold spreadLayout chunkLayout
  by_cases hi : i < k
  · have hr := Nat.mod_lt a (show 16 > 0 by decide)
    have hq : a < 16 * (inputSize / (16 * k)) ↔
        16 * (a / 16 * k + i) + a % 16 < 16 * (inputSize / (16 * k) * k) := by
      constructor
      · intro h
        have := Nat.mul_le_mul_right k (show a / 16 + 1 ≤ inputSize / (16 * k) by omega)
        rw [Nat.add_mul, Nat.one_mul] at this
        omega
      · intro h
        by_contra h'
        have := Nat.mul_le_mul_right k (show inputSize / (16 * k) ≤ a / 16 by omega)
        omega
    simp only [hi, true_and, hq]
  · simp [hi]

/-- Three blocks and 100 bytes: two rounds of 48 bytes, then a last chunk of 4 bytes to block 0. -/
theorem spreadDataOriginal_eq_three :
    0 < 3 ∧ spreadDataOriginal (fun a => a.toUInt8) (fun _ _ => 0) 100 3 =
        some (chunkLayout (fun a => a.toUInt8) 3 100 (fun _ _ => 0)) ∧
      spreadData (fun a => a.toUInt8) (fun _ _ => 0) 100 3 =
        some (chunkLayout (fun a => a.toUInt8) 3 (16 * (100 / (16 * 3) * 3)) (fun _ _ => 0)) :=
  have h := spreadDataOriginal_eq (fun a => a.toUInt8) 100 (fun _ _ => 0) (k := 3) (by decide)
  ⟨by decide, h.1, h.2 (by decide)⟩

end Layout

end Kelp.Bench
