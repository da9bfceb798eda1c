import Kelp.Bytes
import Kelp.CInt

/-!
# `spread_data` and `unspread_data`

`spread_data(input, output_blocks, input_size, k)` deals a contiguous buffer out to `k` shard
buffers in 16-byte chunks, round-robin: while at least `16 * k` bytes are left, chunk `i` of
the round goes to shard `i` at that shard's running offset.  `unspread_data` is the same loop
with the copies reversed.  `spreadData` and `unspreadData` of `blockaio.cpp` are the same
code over `std::vector`s.

Both loops are one loop, `roundRobinLoop`, with a parameter for the 16-byte copy: the state
is the pointer that walks the contiguous buffer, the `k` offsets, and the memory the loop
writes.  Memory is a function from offsets to bytes, one for the contiguous buffer and one
per shard.  When `k = 0` the loop never ends (`16 * k` is `0`); the model runs on fuel and
returns `none` then.  The test `size >= 16 * k` multiplies in `int`: from `k = 2^27` on the
product overflows at the first test, and the call is undefined, which is `none` as well.
So `none` is "no defined return", and the two functions have one exactly when
`1 ≤ k < 2^27` (`spreadData_isSome_iff`).

For `k ≥ 1` the loop runs `size / (16 * k)` rounds (`roundRobinLoop_eq`), and below `2^27`
the buffers it leaves are the layouts `spreadLayout` and `unspreadLayout`: chunk `r * k + i`
of the buffer is bytes `16 r` to `16 r + 15` of shard `i`, and nothing else is written
(`spreadData_eq`, `unspreadData_eq`).  The two layouts undo each other on `16 * k * q`
bytes.  On any other size the last `size % (16 * k)` bytes reach no shard, and the round trip
loses them (`unspreadData_spreadData`).
-/

namespace Kelp.BlockAio

/-- `_mm_storeu_si128(dst + off, _mm_loadu_si128(src + s))`: sixteen bytes from `src + s`
to `dst + off`. -/
def copy16 (dst : Nat → UInt8) (off : Nat) (src : Nat → UInt8) (s : Nat) : Nat → UInt8 :=
  fun a => if off ≤ a ∧ a < off + 16 then src (s + (a - off)) else dst a

/-- The state of the two loops: `p`, the pointer that walks the contiguous buffer (`src` in
`spread_data`, `dest` in `unspread_data`) as an offset from its start; `offset[i]` for each
shard; and the memory the loop writes. -/
structure RoundRobin (M : Type) where
  p : Nat
  offset : Nat → Nat
  mem : M

variable {M : Type}

/-- One pass of the inner loop: the chunk at `p` and the one at `offset[i]` of shard `i` are
copied one way or the other by `copy mem i p offset[i]`, then `p += 16; offset[i] += 16`. -/
def roundRobinStep (copy : M → Nat → Nat → Nat → M) (st : RoundRobin M) (i : Nat) :
    RoundRobin M :=
  ⟨st.p + 16, Function.update st.offset i (st.offset i + 16), copy st.mem i st.p (st.offset i)⟩

/-- `for (int i = 0; i < k; i++)`, one round. -/
def roundRobinRound (copy : M → Nat → Nat → Nat → M) (k : Nat) (st : RoundRobin M) :
    RoundRobin M :=
  (List.range k).foldl (roundRobinStep copy) st

/-- `while (size >= 16 * k) { round; size -= 16 * k; }`, on at most `fuel` rounds.  The
callers have checked that `16 * k` is an `int`. -/
def roundRobinLoop (copy : M → Nat → Nat → Nat → M) (k : Nat) :
    Nat → Nat → RoundRobin M → Option (RoundRobin M)
  | 0, _, _ => none
  | fuel + 1, size, st =>
    if size ≥ 16 * k then roundRobinLoop copy k fuel (size - 16 * k) (roundRobinRound copy k st)
    else some st

/-- The copy of `spread_data`: `_mm_storeu_si128(dest[i] + offset[i], _mm_loadu_si128(src))`. -/
def spreadCopy (input : Nat → UInt8) (dest : Nat → Nat → UInt8) (i src off : Nat) :
    Nat → Nat → UInt8 :=
  Function.update dest i (copy16 (dest i) off input src)

/-- The copy of `unspread_data`: `_mm_storeu_si128(dest, _mm_loadu_si128(src[i] + offset[i]))`. -/
def unspreadCopy (inputBlocks : Nat → Nat → UInt8) (output : Nat → UInt8) (i dest off : Nat) :
    Nat → UInt8 :=
  copy16 output dest (inputBlocks i) off

/-- `spread_data(input, output_blocks, input_size, k)`: the shard buffers it leaves, or
`none` when it does not return or `16 * k` overflows at the loop's first test. -/
def spreadData (input : Nat → UInt8) (outputBlocks : Nat → Nat → UInt8) (inputSize k : Nat) :
    Option (Nat → Nat → UInt8) :=
  (intMul 16 k).bind fun _ => (roundRobinLoop (spreadCopy input) k (inputSize + 1) inputSize
    ⟨0, fun _ => 0, outputBlocks⟩).map RoundRobin.mem

/-- `unspread_data(input_blocks, output, output_size, k)`: the output buffer it leaves, or
`none` when it does not return or `16 * k` overflows at the loop's first test. -/
def unspreadData (inputBlocks : Nat → Nat → UInt8) (output : Nat → UInt8) (outputSize k : Nat) :
    Option (Nat → UInt8) :=
  (intMul 16 k).bind fun _ => (roundRobinLoop (unspreadCopy inputBlocks) k (outputSize + 1)
    outputSize ⟨0, fun _ => 0, output⟩).map RoundRobin.mem

namespace Cpp

/-- `spreadData` of `blockaio.cpp`: the loop of `spread_data` over `std::vector`s. -/
def spreadData (input : Nat → UInt8) (outputBlocks : Nat → Nat → UInt8) (inputSize k : Nat) :
    Option (Nat → Nat → UInt8) :=
  Kelp.BlockAio.spreadData input outputBlocks inputSize k

/-- `unspreadData` of `blockaio.cpp`: the loop of `unspread_data` over `std::vector`s. -/
def unspreadData (inputBlocks : Nat → Nat → UInt8) (output : Nat → UInt8) (outputSize k : Nat) :
    Option (Nat → UInt8) :=
  Kelp.BlockAio.unspreadData inputBlocks output outputSize k

end Cpp

/-! ## The loop -/

section Loop

variable (copy : M → Nat → Nat → Nat → M)

/-- With `k = 0` the loop condition always holds: the loop does not stop. -/
theorem roundRobinLoop_zero : ∀ fuel size (st : RoundRobin M),
    roundRobinLoop copy 0 fuel size st = none
  | 0, _, _ => rfl
  | fuel + 1, size, st => by
    rw [roundRobinLoop, if_pos (Nat.zero_le _)]
    exact roundRobinLoop_zero fuel _ _

/-- With `k ≥ 1` and enough fuel the loop runs `size / (16 * k)` rounds. -/
theorem roundRobinLoop_eq {k : Nat} (hk : 0 < k) : ∀ fuel size (st : RoundRobin M),
    size < fuel → roundRobinLoop copy k fuel size st =
      some ((roundRobinRound copy k)^[size / (16 * k)] st)
  | 0, _, _, h => absurd h (Nat.not_lt_zero _)
  | fuel + 1, size, st, h => by
    rw [roundRobinLoop]
    split
    · rename_i hle
      rw [roundRobinLoop_eq hk fuel _ _ (by omega), ← Function.iterate_succ_apply,
        Nat.div_eq_sub_div (by omega) hle]
    · rw [Nat.div_eq_of_lt (by omega)]
      rfl

/-- The inner loop moves `p` by `16 n`, adds 16 to the first `n` offsets, and makes the `n`
copies in order. -/
theorem foldl_roundRobinStep (st : RoundRobin M) : ∀ n,
    (List.range n).foldl (roundRobinStep copy) st =
      ⟨st.p + 16 * n, fun i => if i < n then st.offset i + 16 else st.offset i,
        (List.range n).foldl (fun m i => copy m i (st.p + 16 * i) (st.offset i)) st.mem⟩
  | 0 => by simp
  | n + 1 => by
    rw [List.range_succ, List.foldl_append, List.foldl_append, foldl_roundRobinStep st n]
    simp only [List.foldl_cons, List.foldl_nil, roundRobinStep, lt_self_iff_false, if_false]
    congr 1
    funext i
    by_cases hi : i = n
    · subst hi; simp
    · rw [Function.update_noteq hi]
      by_cases hin : i < n
      · simp [hin, show i < n + 1 by omega]
      · simp [hin, show ¬ i < n + 1 by omega]

/-- The run of the rounds from the zero offsets, when round `r` takes `mem r` to `mem (r + 1)`:
after `r` rounds `p` is `16 r k`, each offset below `k` is `16 r`, and the memory is `mem r`. -/
theorem iterate_roundRobinRound {k : Nat} (mem : Nat → M)
    (hmem : ∀ r, (List.range k).foldl (fun m i =>
      copy m i (16 * (r * k) + 16 * i) (if i < k then 16 * r else 0)) (mem r) = mem (r + 1)) :
    ∀ r, (roundRobinRound copy k)^[r] ⟨0, fun _ => 0, mem 0⟩ =
      ⟨16 * (r * k), fun i => if i < k then 16 * r else 0, mem r⟩
  | 0 => by simp
  | r + 1 => by
    rw [Function.iterate_succ_apply', iterate_roundRobinRound mem hmem r, roundRobinRound,
      foldl_roundRobinStep]
    simp only [hmem, RoundRobin.mk.injEq, and_true]
    refine ⟨by rw [Nat.add_mul, Nat.one_mul, Nat.mul_add], funext fun i => ?_⟩
    by_cases hi : i < k
    · simp only [hi, if_true]
      omega
    · simp [hi]

/-- With `k ≥ 1`, a loop whose round `r` takes the memory `mem r` to `mem (r + 1)` leaves
`mem (size / (16 * k))`. -/
theorem roundRobinLoop_mem {k : Nat} (hk : 0 < k) (mem : Nat → M)
    (hmem : ∀ r, (List.range k).foldl (fun m i =>
      copy m i (16 * (r * k) + 16 * i) (if i < k then 16 * r else 0)) (mem r) = mem (r + 1))
    (size : Nat) :
    (roundRobinLoop copy k (size + 1) size ⟨0, fun _ => 0, mem 0⟩).map RoundRobin.mem =
      some (mem (size / (16 * k))) := by
  rw [roundRobinLoop_eq copy hk _ _ _ (Nat.lt_succ_self _), iterate_roundRobinRound copy mem hmem]
  rfl

end Loop

/-! ## The layouts -/

/-- The shards after `q` rounds of `spread_data`: byte `a < 16 q` of shard `i < k` is byte
`a % 16` of chunk `a / 16 * k + i` of the input; nothing else is written. -/
def spreadLayout (input : Nat → UInt8) (k q : Nat) (outputBlocks : Nat → Nat → UInt8) :
    Nat → Nat → UInt8 :=
  fun i a => if i < k ∧ a < 16 * q then input (16 * (a / 16 * k + i) + a % 16)
    else outputBlocks i a

/-- The buffer after `q` rounds of `unspread_data`: chunk `c < q k` of it is taken from shard
`c % k` at offset `16 (c / k)`; nothing else is written. -/
def unspreadLayout (inputBlocks : Nat → Nat → UInt8) (k q : Nat) (output : Nat → UInt8) :
    Nat → UInt8 :=
  fun a => if a < 16 * (q * k) then inputBlocks (a / 16 % k) (16 * (a / 16 / k) + a % 16)
    else output a

theorem foldl_spreadCopy (input : Nat → UInt8) (p : Nat) (off : Nat → Nat)
    (dest : Nat → Nat → UInt8) : ∀ n,
    (List.range n).foldl (fun m i => spreadCopy input m i (p + 16 * i) (off i)) dest =
      fun j a => if j < n ∧ off j ≤ a ∧ a < off j + 16 then input (p + 16 * j + (a - off j))
        else dest j a
  | 0 => by funext j a; simp
  | n + 1 => by
    rw [List.range_succ, List.foldl_append, foldl_spreadCopy input p off dest n]
    funext j a
    simp only [List.foldl_cons, List.foldl_nil, spreadCopy, copy16]
    by_cases hj : j = n
    · subst hj
      simp [copy16]
    · rw [Function.update_noteq hj]
      simp [show j < n + 1 ↔ j < n by omega]

theorem foldl_unspreadCopy (inputBlocks : Nat → Nat → UInt8) (p : Nat) (off : Nat → Nat)
    (output : Nat → UInt8) : ∀ n,
    (List.range n).foldl (fun m i => unspreadCopy inputBlocks m i (p + 16 * i) (off i)) output =
      fun a => if p ≤ a ∧ a < p + 16 * n then
        inputBlocks ((a - p) / 16) (off ((a - p) / 16) + (a - p) % 16) else output a
  | 0 => by
    funext a
    rw [if_neg (by omega)]
    rfl
  | n + 1 => by
    rw [List.range_succ, List.foldl_append, foldl_unspreadCopy inputBlocks p off output n]
    funext a
    simp only [List.foldl_cons, List.foldl_nil, unspreadCopy, copy16]
    by_cases h : p + 16 * n ≤ a ∧ a < p + 16 * n + 16
    · have hq : (a - p) / 16 = n := by omega
      have hr : (a - p) % 16 = a - (p + 16 * n) := by omega
      rw [if_pos h, if_pos (by omega), hq, hr]
    · rw [if_neg h]
      by_cases h' : p ≤ a ∧ a < p + 16 * n
      · rw [if_pos h', if_pos (by omega)]
      · rw [if_neg h', if_neg (by omega)]

/-! ## The two functions -/

/-- The `int` product `16 * k` of the loop test is defined exactly for `k < 2^27`. -/
theorem inInt_sixteen_mul {k : Nat} : InInt (16 * k) ↔ k < 2 ^ 27 := by
  unfold InInt
  omega

/-- From `k = 2^27` on, `16 * k` overflows at the first test of the loop. -/
theorem spreadData_overflow (input : Nat → UInt8) (outputBlocks : Nat → Nat → UInt8)
    (inputSize : Nat) {k : Nat} (hk : 2 ^ 27 ≤ k) :
    spreadData input outputBlocks inputSize k = none := by
  rw [spreadData, intMul_of_not_inInt (by rw [inInt_sixteen_mul]; omega), Option.none_bind]

theorem unspreadData_overflow (inputBlocks : Nat → Nat → UInt8) (output : Nat → UInt8)
    (outputSize : Nat) {k : Nat} (hk : 2 ^ 27 ≤ k) :
    unspreadData inputBlocks output outputSize k = none := by
  rw [unspreadData, intMul_of_not_inInt (by rw [inInt_sixteen_mul]; omega), Option.none_bind]

/-- One round of `spread_data` adds chunk `r` of every shard to the layout. -/
theorem round_spreadLayout (input : Nat → UInt8) (outputBlocks : Nat → Nat → UInt8) (k r : Nat) :
    (List.range k).foldl (fun m i => spreadCopy input m i (16 * (r * k) + 16 * i)
        (if i < k then 16 * r else 0)) (spreadLayout input k r outputBlocks) =
      spreadLayout input k (r + 1) outputBlocks := by
  rw [foldl_spreadCopy]
  funext j a
  simp only [spreadLayout]
  by_cases hj : j < k
  · simp only [hj, if_true, true_and]
    by_cases ha : 16 * r ≤ a ∧ a < 16 * r + 16
    · have hq : a / 16 = r := by omega
      rw [if_pos ha, if_pos (by omega), hq]
      congr 1
      omega
    · rw [if_neg ha]
      by_cases ha' : a < 16 * r
      · rw [if_pos ha', if_pos (by omega)]
      · rw [if_neg ha', if_neg (by omega)]
  · simp [hj]

/-- One round of `unspread_data` adds round `r` of chunks to the layout. -/
theorem round_unspreadLayout (inputBlocks : Nat → Nat → UInt8) (output : Nat → UInt8)
    {k : Nat} (hk : 0 < k) (r : Nat) :
    (List.range k).foldl (fun m i => unspreadCopy inputBlocks m i (16 * (r * k) + 16 * i)
        (if i < k then 16 * r else 0)) (unspreadLayout inputBlocks k r output) =
      unspreadLayout inputBlocks k (r + 1) output := by
  rw [foldl_unspreadCopy]
  funext a
  simp only [unspreadLayout]
  have hbound : 16 * ((r + 1) * k) = 16 * (r * k) + 16 * k := by
    rw [Nat.add_mul, Nat.one_mul, Nat.mul_add]
  by_cases ha : 16 * (r * k) ≤ a ∧ a < 16 * (r * k) + 16 * k
  · have hj : (a - 16 * (r * k)) / 16 < k := by omega
    have hc : a / 16 = k * r + (a - 16 * (r * k)) / 16 := by
      rw [Nat.mul_comm k r]
      omega
    rw [if_pos ha, if_pos hj, if_pos (show a < 16 * ((r + 1) * k) by omega), hc,
      Nat.mul_add_mod, Nat.mod_eq_of_lt hj,
      Nat.mul_add_div hk, Nat.div_eq_of_lt hj, Nat.add_zero]
    congr 1
    omega
  · rw [if_neg ha]
    by_cases ha' : a < 16 * (r * k)
    · rw [if_pos ha', if_pos (by omega)]
    · rw [if_neg ha', if_neg (by omega)]

/-- For `1 ≤ k < 2^27`, `spread_data` returns, and leaves the shards of `spreadLayout`. -/
theorem spreadData_eq (input : Nat → UInt8) (outputBlocks : Nat → Nat → UInt8)
    (inputSize : Nat) {k : Nat} (hk : 0 < k) (hk' : k < 2 ^ 27) :
    spreadData input outputBlocks inputSize k =
      some (spreadLayout input k (inputSize / (16 * k)) outputBlocks) := by
  have h0 : spreadLayout input k 0 outputBlocks = outputBlocks := by
    funext i a
    simp [spreadLayout]
  have h := roundRobinLoop_mem (spreadCopy input) hk (fun r => spreadLayout input k r outputBlocks)
    (round_spreadLayout input outputBlocks k) inputSize
  rw [spreadData, intMul_of_inInt (inInt_sixteen_mul.mpr hk'), Option.some_bind]
  rwa [h0] at h

/-- For `1 ≤ k < 2^27`, `unspread_data` returns, and leaves the buffer of `unspreadLayout`. -/
theorem unspreadData_eq (inputBlocks : Nat → Nat → UInt8) (output : Nat → UInt8)
    (outputSize : Nat) {k : Nat} (hk : 0 < k) (hk' : k < 2 ^ 27) :
    unspreadData inputBlocks output outputSize k =
      some (unspreadLayout inputBlocks k (outputSize / (16 * k)) output) := by
  have h0 : unspreadLayout inputBlocks k 0 output = output := by
    funext a
    simp [unspreadLayout]
  have h := roundRobinLoop_mem (unspreadCopy inputBlocks) hk
    (fun r => unspreadLayout inputBlocks k r output) (round_unspreadLayout inputBlocks output hk)
    outputSize
  rw [unspreadData, intMul_of_inInt (inInt_sixteen_mul.mpr hk'), Option.some_bind]
  rwa [h0] at h

/-- `spread_data` and `unspread_data` have a defined return exactly when `1 ≤ k < 2^27`: with
`k = 0` the condition `input_size >= 16 * k` holds forever, and from `k = 2^27` on `16 * k`
overflows. -/
theorem spreadData_isSome_iff (input : Nat → UInt8) (outputBlocks : Nat → Nat → UInt8)
    (inputBlocks : Nat → Nat → UInt8) (output : Nat → UInt8) (inputSize outputSize k : Nat) :
    ((spreadData input outputBlocks inputSize k).isSome ↔ 0 < k ∧ k < 2 ^ 27) ∧
      ((unspreadData inputBlocks output outputSize k).isSome ↔ 0 < k ∧ k < 2 ^ 27) ∧
      ((Cpp.spreadData input outputBlocks inputSize k).isSome ↔ 0 < k ∧ k < 2 ^ 27) ∧
      ((Cpp.unspreadData inputBlocks output outputSize k).isSome ↔ 0 < k ∧ k < 2 ^ 27) := by
  have hs : (spreadData input outputBlocks inputSize k).isSome ↔ 0 < k ∧ k < 2 ^ 27 := by
    rcases Nat.eq_zero_or_pos k with rfl | hk
    · simp [spreadData, roundRobinLoop_zero]
    by_cases hk' : k < 2 ^ 27
    · exact iff_of_true (by simp [spreadData_eq _ _ _ hk hk']) ⟨hk, hk'⟩
    · exact iff_of_false (by simp [spreadData_overflow _ _ _ (not_lt.mp hk')]) fun h => hk' h.2
  have hu : (unspreadData inputBlocks output outputSize k).isSome ↔ 0 < k ∧ k < 2 ^ 27 := by
    rcases Nat.eq_zero_or_pos k with rfl | hk
    · simp [unspreadData, roundRobinLoop_zero]
    by_cases hk' : k < 2 ^ 27
    · exact iff_of_true (by simp [unspreadData_eq _ _ _ hk hk']) ⟨hk, hk'⟩
    · exact iff_of_false (by simp [unspreadData_overflow _ _ _ (not_lt.mp hk')]) fun h => hk' h.2
  exact ⟨hs, hu, hs, hu⟩

/-! ## Round trips -/

theorem unspreadLayout_spreadLayout (input : Nat → UInt8) (outputBlocks : Nat → Nat → UInt8)
    (output : Nat → UInt8) {k : Nat} (hk : 0 < k) (q : Nat) :
    unspreadLayout (spreadLayout input k q outputBlocks) k q output =
      fun a => if a < 16 * (q * k) then input a else output a := by
  funext a
  simp only [unspreadLayout, spreadLayout]
  split
  · have hi : a / 16 % k < k := Nat.mod_lt _ hk
    have hr : a / 16 / k < q := Nat.div_lt_of_lt_mul (by rw [Nat.mul_comm]; omega)
    have h16 : (16 * (a / 16 / k) + a % 16) / 16 = a / 16 / k := by omega
    have hmod : (16 * (a / 16 / k) + a % 16) % 16 = a % 16 := by omega
    rw [if_pos ⟨hi, by omega⟩, h16, hmod, Nat.div_add_mod']
    congr 1
    omega
  · rfl

theorem spreadLayout_unspreadLayout (shards : Nat → Nat → UInt8) (output : Nat → UInt8)
    (outputBlocks : Nat → Nat → UInt8) {k : Nat} (hk : 0 < k) (q : Nat) :
    spreadLayout (unspreadLayout shards k q output) k q outputBlocks =
      fun i a => if i < k ∧ a < 16 * q then shards i a else outputBlocks i a := by
  funext i a
  simp only [spreadLayout, unspreadLayout]
  split
  · rename_i h
    obtain ⟨hi, ha⟩ := h
    have hc : a / 16 * k + i < q * k :=
      calc a / 16 * k + i < a / 16 * k + k := by omega
        _ = (a / 16 + 1) * k := by rw [Nat.add_mul, Nat.one_mul]
        _ ≤ q * k := Nat.mul_le_mul_right _ (by omega)
    have h16 : (16 * (a / 16 * k + i) + a % 16) / 16 = a / 16 * k + i := by omega
    have hmod : (16 * (a / 16 * k + i) + a % 16) % 16 = a % 16 := by omega
    rw [if_pos (by omega), h16, hmod, Nat.mul_comm (a / 16) k, Nat.mul_add_mod,
      Nat.mod_eq_of_lt hi, Nat.mul_add_div hk, Nat.div_eq_of_lt hi, Nat.add_zero]
    congr 1
    omega
  · rfl

/-- What is asked of a pair of spread and unspread functions on `k` shards of `16 q` bytes:
the spread writes chunk `r * k + i` of `x` to bytes `16 r` to `16 r + 15` of shard `i` and
nothing else, unspread after spread gives `x` back, and spread after unspread gives the
shards back. -/
def SpreadsRoundRobin
    (spread : (Nat → UInt8) → (Nat → Nat → UInt8) → Nat → Nat → Option (Nat → Nat → UInt8))
    (unspread : (Nat → Nat → UInt8) → (Nat → UInt8) → Nat → Nat → Option (Nat → UInt8))
    (k q : Nat) : Prop :=
  ∀ (x : Nat → UInt8) (shards outputBlocks : Nat → Nat → UInt8) (output : Nat → UInt8),
    spread x outputBlocks (16 * k * q) k = some (fun i a =>
      if i < k ∧ a < 16 * q then x (16 * (a / 16 * k + i) + a % 16) else outputBlocks i a) ∧
    (spread x outputBlocks (16 * k * q) k).bind (fun s => unspread s output (16 * k * q) k) =
      some (fun a => if a < 16 * k * q then x a else output a) ∧
    (unspread shards output (16 * k * q) k).bind (fun y => spread y outputBlocks (16 * k * q) k) =
      some (fun i a => if i < k ∧ a < 16 * q then shards i a else outputBlocks i a)

/-- `spread_data` and `unspread_data`, and `spreadData` and `unspreadData`, deal out and
gather back `16 * k * q` bytes over `k` shards, for `k` below `2^27`, where `16 * k` is an
`int`. -/
theorem spreadData_roundRobin {k : Nat} (hk : 0 < k) (hk' : k < 2 ^ 27) (q : Nat) :
    SpreadsRoundRobin spreadData unspreadData k q ∧
      SpreadsRoundRobin Cpp.spreadData Cpp.unspreadData k q := by
  have hq : 16 * k * q / (16 * k) = q := Nat.mul_div_cancel_left q (by omega)
  have hqk : 16 * k * q = 16 * (q * k) := by rw [Nat.mul_assoc, Nat.mul_comm k q]
  have h : SpreadsRoundRobin spreadData unspreadData k q := fun x shards outputBlocks output =>
    ⟨by rw [spreadData_eq _ _ _ hk hk', hq]; rfl,
      by rw [spreadData_eq _ _ _ hk hk', hq, Option.some_bind, unspreadData_eq _ _ _ hk hk', hq,
        unspreadLayout_spreadLayout _ _ _ hk, hqk],
      by rw [unspreadData_eq _ _ _ hk hk', hq, Option.some_bind, spreadData_eq _ _ _ hk hk', hq,
        spreadLayout_unspreadLayout _ _ _ hk]⟩
  exact ⟨h, h⟩

/-- The test's case: three shards, two rounds. -/
theorem spreadData_roundRobin_three_two :
    0 < 3 ∧ 3 < 2 ^ 27 ∧ SpreadsRoundRobin spreadData unspreadData 3 2 ∧
      SpreadsRoundRobin Cpp.spreadData Cpp.unspreadData 3 2 :=
  ⟨by decide, by decide, spreadData_roundRobin (by decide) (by decide) 2⟩

/-- At `k = 2^27` neither pair deals out anything: `16 * k` overflows at the first test. -/
theorem spreadData_roundRobin_overflow :
    ¬ SpreadsRoundRobin spreadData unspreadData (2 ^ 27) 1 ∧
      ¬ SpreadsRoundRobin Cpp.spreadData Cpp.unspreadData (2 ^ 27) 1 := by
  have h : ¬ SpreadsRoundRobin spreadData unspreadData (2 ^ 27) 1 := fun hs => by
    have := (hs (fun _ => 0) (fun _ _ => 0) (fun _ _ => 0) (fun _ => 0)).1
    rw [spreadData_overflow _ _ _ le_rfl] at this
    exact Option.noConfusion this
  exact ⟨h, h⟩

/-- On any size `L`, `unspread_data` after `spread_data` gives back the whole rounds only: the
last `L % (16 k)` bytes are written to no shard, and the output keeps what it held there. The
same holds of `spreadData` and `unspreadData`. -/
theorem unspreadData_spreadData (input : Nat → UInt8) (outputBlocks : Nat → Nat → UInt8)
    (output : Nat → UInt8) (size : Nat) {k : Nat} (hk : 0 < k) (hk' : k < 2 ^ 27) :
    (spreadData input outputBlocks size k).bind (fun s => unspreadData s output size k) =
        some (fun a => if a < 16 * (size / (16 * k) * k) then input a else output a) ∧
      (Cpp.spreadData input outputBlocks size k).bind (fun s => Cpp.unspreadData s output size k) =
        some (fun a => if a < 16 * (size / (16 * k) * k) then input a else output a) := by
  have h : (spreadData input outputBlocks size k).bind (fun s => unspreadData s output size k) =
      some (fun a => if a < 16 * (size / (16 * k) * k) then input a else output a) := by
    rw [spreadData_eq _ _ _ hk hk', Option.some_bind, unspreadData_eq _ _ _ hk hk',
      unspreadLayout_spreadLayout _ _ _ hk]
  exact ⟨h, h⟩

/-- Three shards and 100 bytes: two rounds of 48 bytes come back, the last 4 do not. -/
theorem unspreadData_spreadData_three :
    0 < 3 ∧ 3 < 2 ^ 27 ∧ (spreadData (fun a => a.toUInt8) (fun _ _ => 0) 100 3).bind
        (fun s => unspreadData s (fun _ => 0) 100 3) =
        some (fun a => if a < 16 * (100 / (16 * 3) * 3) then a.toUInt8 else 0) ∧
      (Cpp.spreadData (fun a => a.toUInt8) (fun _ _ => 0) 100 3).bind
        (fun s => Cpp.unspreadData s (fun _ => 0) 100 3) =
        some (fun a => if a < 16 * (100 / (16 * 3) * 3) then a.toUInt8 else 0) :=
  ⟨by decide, by decide, unspreadData_spreadData _ _ _ 100 (by decide) (by decide)⟩

end Kelp.BlockAio
