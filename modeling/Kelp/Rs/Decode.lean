import Kelp.Rs.Encode

/-!
# `rs_decode`

`rs_decode(rs, shards, erasures, erasure_count, shard_size)` in `rs.c` rebuilds the shards
`i` with `erasures[i] == 1`.  It returns `0` when `total_shards - erasure_count <
data_shards`, an `int` difference that is undefined where it overflows.  Otherwise it
copies the rows of `rs->matrix` of the first `K` shards with `erasures[i] == 0` into a
`K × K` block `submatrix`, remembering their indices in `valid_shards`, inverts `submatrix`
in place (returning `0` if that fails), and rebuilds each erased shard `i` as
`∑ j, submatrix[i * K + j] * shards[valid_shards[j]]`, zeroing it first and adding the terms
with `mul_add1_avx2`.

`submatrix` and the inverse live in a heap `Block` of `K * K` bytes (`Block.alloc`), and a
read of it is `none` outside the block and at a byte never written.  The index `i * K + j` is a row of the inverse only for a data
shard `i < K`: for an erased parity shard it lies past the block.  `rsDecode_parity_erased`
proves that for every coder from `rs_new`, every erasure vector the decoder is meant to
handle that erases a parity shard, and every shard content, the model reaches that read:
the source reads outside its allocation, and rebuilds the parity shard from whatever bytes
follow the block.

When only data shards are erased every read is defined (`rsDecode_data_erased`).  The loop
rebuilds each erased shard from the present shards only, which it never writes
(`reconstructAll_eq`), as the sum of the terms `mul_add1_avx2` adds (`rebuiltShard`).  In
the tail of the shards those terms are the table products, and there every data shard
holds its data byte whenever the present shards hold a codeword: the rebuilt bytes are row
`i` of the inverse of `submatrix` applied to the present rows of the codeword.  With the tail
of `rs_encode` (`rsEncode_tail`) this gives the round trip: encoding, erasing data shards and
decoding restores the data in the tail of the shards (`rsDecode_rsEncode_tail`), which is the
whole shard below 64 bytes; the shard size is a `KernelSize` there, on which the kernels'
loop test stays in `int`.

For the coders of `rs_new`, with `K + M ≤ 255`, every `int` sum and product of `rs_decode`
over the coder's counts stays far below `2^31`.  `rs_decode` trusts `erasure_count`: when
fewer than `K` shards are marked `0` but `erasure_count` passes the check, the rows of
`submatrix` past the present shards are never written and `matrix_invert` reads them
(`rsDecode_undercount`).
-/

namespace Kelp.Rs

/-! ## Loops in `Option` -/

/-- A loop in `Option` fails when its step fails at one of its elements, whatever the
state there. -/
theorem foldlM_eq_none_of_mem {α β : Type} {f : β → α → Option β} {x : α}
    (hx : ∀ s, f s x = none) : ∀ {l : List α}, x ∈ l → ∀ init, l.foldlM f init = none
  | y :: l, hmem, init => by
    rw [List.foldlM_cons]
    rcases List.mem_cons.mp hmem with rfl | hmem
    · rw [hx]
      rfl
    · cases f init y with
      | none => rfl
      | some s => exact foldlM_eq_none_of_mem hx hmem s

/-- A property that every step of a loop in `Option` keeps holds after the loop. -/
theorem foldlM_invariant {α β : Type} {f : β → α → Option β} (P : β → Prop) :
    ∀ {l : List α}, (∀ b, ∀ x ∈ l, ∀ b', f b x = some b' → P b → P b') →
      ∀ {b b' : β}, l.foldlM f b = some b' → P b → P b'
  | [], _, _, _, h, hb => by cases h; exact hb
  | x :: l, hf, b, b', h, hb => by
    rw [List.foldlM_cons] at h
    obtain ⟨b1, h1, h⟩ := Option.bind_eq_some.mp h
    exact foldlM_invariant P (fun c y hy => hf c y (List.mem_cons_of_mem _ hy)) h
      (hf b x (List.mem_cons_self _ _) b1 h1 hb)

/-! ## The model -/

/-- `valid_shards` after the selection loop: the shards `i < total_shards` with
`erasures[i] == 0` in order, until `data_shards` of them are found. -/
def validShards (erasures : Nat → Int) (totalShards dataShards : Nat) : List Nat :=
  ((List.range totalShards).filter fun i => erasures i = 0).take dataShards

/-- The copy of row `i` of `rs->matrix` into row `t` of `submatrix`. -/
def copyRow (rs : ReedSolomon) (b : Block) (ti : Nat × Nat) : Option Block :=
  b.memcpy (ti.1 * rs.dataShards) (Block.ofMatrix rs.matrix) (ti.2 * rs.dataShards) rs.dataShards

/-- `submatrix` after the selection loop: row `t` is row `valid_shards[t]` of
`rs->matrix`, and the rows past the shards found are never written. -/
def fillSubmatrix (rs : ReedSolomon) (valid : List Nat) : Option Block :=
  valid.enum.foldlM (copyRow rs) (Block.alloc (rs.dataShards * rs.dataShards))

/-- `matrix_invert(b, n)` on a block, in place: `none` when it reads a byte never
written, `some none` for a return of `0`, and `some (some b')` with the inverse in `b'`
for a return of `1`. -/
def invertBlock (b : Block) (n : Nat) : Option (Option Block) :=
  (b.toMatrix n n).map fun m => (matrixInvert m).bind b.writeMatrix

/-- The loop over `j` for an erased shard `i`: `shards[i]` zeroed, then
`mul_add1_avx2(shards[i], shards[valid_shards[j]], submatrix[i * K + j], shard_size)`. -/
def reconstructShard (submatrix : Block) (valid : List Nat) (dataShards shardSize : Nat)
    (shards : Nat → Nat → Gf) (i : Nat) : Option (Nat → Gf) :=
  (List.range dataShards).foldlM
    (fun dst j => do
      let v ← valid[j]?
      let coeff ← submatrix.read (i * dataShards + j)
      pure (mulAdd1Avx2 dst (shards v) coeff shardSize))
    (memset (shards i) shardSize)

/-- The reconstruction loop over all `total_shards` shards. -/
def reconstructAll (submatrix : Block) (valid : List Nat) (erasures : Nat → Int)
    (dataShards totalShards shardSize : Nat) (shards : Nat → Nat → Gf) :
    Option (Nat → Nat → Gf) :=
  (List.range totalShards).foldlM
    (fun shards i =>
      if erasures i = 1 then
        (reconstructShard submatrix valid dataShards shardSize shards i).map
          (Function.update shards i)
      else some shards)
    shards

/-- `rs_decode(rs, shards, erasures, erasure_count, shard_size)`: the value returned and the
shards after the call; `none` where `total_shards - erasure_count` overflows, or the source
reads outside an allocation or a byte never written.  The messages it prints are left out. -/
def rsDecode (rs : ReedSolomon) (shards : Nat → Nat → Gf) (erasures : Nat → Int)
    (erasureCount : Int) (shardSize : Nat) : Option (Int × (Nat → Nat → Gf)) :=
  let dataShards := rs.dataShards
  let totalShards := dataShards + rs.parityShards
  (intSub totalShards erasureCount).bind fun available =>
  if available < dataShards then some (0, shards)
  else
    let valid := validShards erasures totalShards dataShards
    (fillSubmatrix rs valid).bind fun submatrix =>
      (invertBlock submatrix dataShards).bind fun
        | none => some (0, shards)
        | some inv =>
          (reconstructAll inv valid erasures dataShards totalShards shardSize shards).map
            fun shards => (1, shards)

/-! ## The selection loop -/

/-- One copy: row `n` of the block receives row `i` of `rs->matrix`, and the other rows
are kept. -/
theorem copyRow_spec {rs : ReedSolomon} {b : Block} {n i : Nat}
    (hb : b.size = rs.dataShards * rs.dataShards) (hn : n < rs.dataShards) (hi : i < rs.shards) :
    ∃ b1, copyRow rs b (n, i) = some b1 ∧ b1.size = rs.dataShards * rs.dataShards ∧
      ∀ t j : Fin rs.dataShards, b1.read (t.val * rs.dataShards + j.val) =
        if t.val = n then some (rs.matrix ⟨i, hi⟩ j) else b.read (t.val * rs.dataShards + j.val) := by
  have hsrc : i * rs.dataShards + rs.dataShards ≤ (Block.ofMatrix rs.matrix).size := by
    have := Nat.mul_le_mul_right rs.dataShards (Nat.succ_le_of_lt hi)
    rwa [Nat.succ_mul] at this
  have hdst : n * rs.dataShards + rs.dataShards ≤ b.size := by
    have := Nat.mul_le_mul_right rs.dataShards (Nat.succ_le_of_lt hn)
    rw [Nat.succ_mul] at this
    omega
  obtain ⟨b1, hb1⟩ := Option.isSome_iff_exists.mp (Block.memcpy_isSome hsrc hdst)
  refine ⟨b1, hb1, (Block.memcpy_size hb1).trans hb, fun t j => ?_⟩
  rw [Block.read_memcpy hb1, if_congr (Block.row_index_iff j.isLt) rfl rfl]
  split_ifs with htn
  · have hj : i * rs.dataShards + (t.val * rs.dataShards + j.val - n * rs.dataShards) =
        (⟨i, hi⟩ : Fin rs.shards).val * rs.dataShards + j.val := by
      rw [htn]; simp
    rw [hj, Block.read_ofMatrix]
  · rfl

section Fill

variable {rs : ReedSolomon} (w : Nat → Nat) (hw : ∀ t < rs.dataShards, w t < rs.shards)
include hw

/-- The copy loop from row `n` on, with rows below `n` already holding the rows `w t` of
`rs->matrix`: afterwards every row below `n + l.length` holds its row. -/
theorem foldlM_copyRow : ∀ (l : List Nat) (n : Nat) (b : Block),
    b.size = rs.dataShards * rs.dataShards → n + l.length ≤ rs.dataShards →
    (∀ s (h : s < l.length), l[s] = w (n + s)) →
    (∀ t j : Fin rs.dataShards, t.val < n →
      b.read (t.val * rs.dataShards + j.val) = some (rs.matrix ⟨w t, hw t t.isLt⟩ j)) →
    ∃ b', (l.enumFrom n).foldlM (copyRow rs) b = some b' ∧
      b'.size = rs.dataShards * rs.dataShards ∧
      ∀ t j : Fin rs.dataShards, t.val < n + l.length →
        b'.read (t.val * rs.dataShards + j.val) = some (rs.matrix ⟨w t, hw t t.isLt⟩ j)
  | [], n, b, hb, _, _, hrows => ⟨b, rfl, hb, fun t j ht => hrows t j (by simpa using ht)⟩
  | i :: l, n, b, hb, hn, hl, hrows => by
    have hi : i = w n := hl 0 (Nat.succ_pos _)
    have hn' : n < rs.dataShards := by simp at hn; omega
    obtain ⟨b1, hb1, hsize1, hread1⟩ := copyRow_spec hb hn' (hi ▸ hw n hn')
    have hrows1 : ∀ t j : Fin rs.dataShards, t.val < n + 1 →
        b1.read (t.val * rs.dataShards + j.val) = some (rs.matrix ⟨w t, hw t t.isLt⟩ j) := by
      intro t j ht
      rw [hread1]
      split_ifs with htn
      · exact congrArg (fun r => some (rs.matrix r j)) (Fin.ext (by simp [hi, htn]))
      · exact hrows t j (by omega)
    obtain ⟨b', hfold, hsize', hrows'⟩ := foldlM_copyRow l (n + 1) b1 hsize1
      (by simp at hn; omega)
      (fun s h => by rw [Nat.add_right_comm]; exact hl (s + 1) (Nat.succ_lt_succ h))
      hrows1
    refine ⟨b', ?_, hsize', fun t j ht => hrows' t j (by simp at ht; omega)⟩
    rw [List.enumFrom_cons, List.foldlM_cons, hb1]
    exact hfold

end Fill

/-- With `K` shards found, `submatrix` holds row `valid_shards[t]` of `rs->matrix` in
every row `t`. -/
theorem fillSubmatrix_eq {rs : ReedSolomon} {valid : List Nat}
    (hlen : valid.length = rs.dataShards) (hlt : ∀ i ∈ valid, i < rs.shards) :
    ∃ b, fillSubmatrix rs valid = some b ∧ b.size = rs.dataShards * rs.dataShards ∧
      b.toMatrix rs.dataShards rs.dataShards = some (Matrix.of fun t j =>
        rs.matrix ⟨valid.get ⟨t.val, by omega⟩, hlt _ (List.get_mem _ _ _)⟩ j) := by
  have hw : ∀ t < rs.dataShards, valid.getD t 0 < rs.shards := fun t ht => by
    rw [List.getD_eq_getElem _ _ (by omega)]
    exact hlt _ (List.getElem_mem _)
  obtain ⟨b, hfold, hsize, hrows⟩ := foldlM_copyRow (fun t => valid.getD t 0) hw valid 0
    (Block.alloc _) rfl (by omega)
    (fun s h => by simp only [Nat.zero_add]; exact (List.getD_eq_getElem _ _ h).symm)
    (fun _ _ h => absurd h (Nat.not_lt_zero _))
  refine ⟨b, hfold, hsize, Block.toMatrix_eq_some fun t j => ?_⟩
  rw [hrows t j (by omega)]
  congr 2
  exact Fin.ext (List.getD_eq_getElem _ _ _)

/-! ## The erasure vector and the inverse -/

/-- The number of shards `i < total_shards` with `erasures[i] == 1`. -/
def erasedCount (erasures : Nat → Int) (totalShards : Nat) : Nat :=
  ((List.range totalShards).filter fun i => erasures i = 1).length

/-- With entries in `{0, 1}` and at most `M` of them `1`, at least `K` shards are
present. -/
theorem le_length_present {erasures : Nat → Int} {dataShards parityShards : Nat}
    (h01 : ∀ i < dataShards + parityShards, erasures i = 0 ∨ erasures i = 1)
    (hweight : erasedCount erasures (dataShards + parityShards) ≤ parityShards) :
    dataShards ≤ ((List.range (dataShards + parityShards)).filter fun i => erasures i = 0).length := by
  have hsplit := List.length_eq_length_filter_add
    (l := List.range (dataShards + parityShards)) fun i => decide (erasures i = 1)
  have hzero : ((List.range (dataShards + parityShards)).filter fun i => erasures i = 0) =
      (List.range (dataShards + parityShards)).filter fun i => !decide (erasures i = 1) := by
    refine List.filter_congr fun i hi => ?_
    rcases h01 i (List.mem_range.mp hi) with h | h <;> simp [h]
  rw [List.length_range] at hsplit
  rw [hzero]
  unfold erasedCount at hweight
  omega

/-- With entries in `{0, 1}` and at most `M` of them `1`, `valid_shards` holds `K` distinct
present shards below `N`. -/
theorem validShards_spec {erasures : Nat → Int} {dataShards parityShards : Nat}
    (h01 : ∀ i < dataShards + parityShards, erasures i = 0 ∨ erasures i = 1)
    (hweight : erasedCount erasures (dataShards + parityShards) ≤ parityShards) :
    (validShards erasures (dataShards + parityShards) dataShards).length = dataShards ∧
      (∀ v ∈ validShards erasures (dataShards + parityShards) dataShards,
        v < dataShards + parityShards ∧ erasures v = 0) ∧
      (validShards erasures (dataShards + parityShards) dataShards).Nodup := by
  have hpresent := le_length_present h01 hweight
  refine ⟨by rw [validShards, List.length_take]; omega, fun v hv => ?_,
    ((List.nodup_range _).filter _).sublist (List.take_sublist _ _)⟩
  have := List.mem_filter.mp (List.mem_of_mem_take hv)
  exact ⟨List.mem_range.mp this.1, of_decide_eq_true this.2⟩

/-- The weight of an erasure vector passed as `erasure_count`: `rs_decode`'s subtraction
stays in `int`. -/
theorem inInt_sub_erasedCount (erasures : Nat → Int) {dataShards parityShards : Nat}
    (hN : dataShards + parityShards < 2 ^ 31) :
    InInt (((dataShards + parityShards : Nat) : Int) -
      (erasedCount erasures (dataShards + parityShards) : Nat)) := by
  have hle : erasedCount erasures (dataShards + parityShards) ≤ dataShards + parityShards :=
    (List.length_filter_le _ _).trans (List.length_range _).le
  unfold InInt
  omega

/-- For a coder from `rs_new` and `K` distinct shards, `submatrix` holds their rows of the
generator, and `matrix_invert` inverts it in place. -/
theorem fillSubmatrix_invert {dataShards parityShards : Nat} {rs : ReedSolomon}
    (h : rsNew dataShards parityShards = some rs) {valid : List Nat}
    (hlen : valid.length = rs.dataShards) (hlt : ∀ v ∈ valid, v < rs.shards)
    (hnd : valid.Nodup) :
    ∃ b inv b', fillSubmatrix rs valid = some b ∧ invertBlock b rs.dataShards = some (some b') ∧
      matrixInvert (Matrix.of fun t j =>
        rs.matrix ⟨valid.get ⟨t.val, by omega⟩, hlt _ (List.get_mem _ _ _)⟩ j) = some inv ∧
      b'.size = rs.dataShards * rs.dataShards ∧
      ∀ i j : Fin rs.dataShards, b'.read (i.val * rs.dataShards + j.val) = some (inv i j) := by
  obtain ⟨-, -, -, -, hrows⟩ := rsNew_generator h
  obtain ⟨b, hb, hsize, htm⟩ := fillSubmatrix_eq hlen hlt
  obtain ⟨inv, hinv⟩ := Option.isSome_iff_exists.mp
    (hrows (fun t => ⟨valid.get ⟨t.val, by omega⟩, hlt _ (List.get_mem _ _ _)⟩) fun t t' he =>
      Fin.ext (by simpa using (List.Nodup.get_inj_iff hnd).mp (Fin.mk.inj_iff.mp he)))
  obtain ⟨b', hb'⟩ : ∃ b', b.writeMatrix inv = some b' := ⟨_, if_pos hsize.ge⟩
  refine ⟨b, inv, b', hb, ?_, hinv, (Block.writeMatrix_size hb').trans hsize,
    Block.read_writeMatrix hb'⟩
  rw [invertBlock, htm, Option.map_some', hinv, Option.some_bind, hb']

/-! ## An erased parity shard -/

/-- `rs_decode` with an erased parity shard reads `submatrix[i * K + j]` past the `K × K`
block: for every coder from `rs_new`, every erasure vector with entries in `{0, 1}` and at
most `M` ones passed with its weight as `erasure_count`, every shard content and every
shard size, as soon as one erased shard is a parity shard. -/
theorem rsDecode_parity_erased {dataShards parityShards : Nat} {rs : ReedSolomon}
    (h : rsNew dataShards parityShards = some rs) (shards : Nat → Nat → Gf)
    (erasures : Nat → Int)
    (h01 : ∀ i < dataShards + parityShards, erasures i = 0 ∨ erasures i = 1)
    (hweight : erasedCount erasures (dataShards + parityShards) ≤ parityShards) {p : Nat}
    (hp : dataShards ≤ p ∧ p < dataShards + parityShards) (hpe : erasures p = 1)
    (shardSize : Nat) :
    rsDecode rs shards erasures (erasedCount erasures (dataShards + parityShards)) shardSize =
      none := by
  have hshape := rsNew_isSome_iff.mp (Option.isSome_iff_exists.mpr ⟨rs, h⟩)
  obtain ⟨hK, hM, -⟩ := rsNew_generator h
  subst hK hM
  have hN := rs.shards_eq
  let valid := validShards erasures (rs.dataShards + rs.parityShards) rs.dataShards
  obtain ⟨hlen, hmem, hnd⟩ := validShards_spec h01 hweight
  obtain ⟨b, -, b', hb, hinvert, -, hsize, -⟩ :=
    fillSubmatrix_invert h hlen (fun v hv => hN ▸ (hmem v hv).1) hnd
  have hsize' : b'.size ≤ p * rs.dataShards := hsize ▸ Nat.mul_le_mul_right _ hp.1
  have hrec : reconstructAll b' valid erasures rs.dataShards (rs.dataShards + rs.parityShards)
      shardSize shards = none := by
    refine foldlM_eq_none_of_mem (fun s => ?_) (List.mem_range.mpr hp.2) shards
    have : reconstructShard b' valid rs.dataShards shardSize s p = none := by
      refine foldlM_eq_none_of_mem (fun dst => ?_) (List.mem_range.mpr hshape.1) _
      have hread : b'.read (p * rs.dataShards) = none := if_neg (by omega)
      cases valid[0]? <;> simp [hread]
    rw [if_pos hpe, this]
    rfl
  unfold rsDecode
  dsimp only
  rw [intSub_of_inInt (inInt_sub_erasedCount erasures (by omega)), Option.some_bind,
    if_neg (by omega)]
  simp only [hb, hinvert, Option.some_bind, hrec]
  rfl

theorem rsDecode_parity_erased_one_one :
    ∃ rs, rsNew 1 1 = some rs ∧
      (∀ i < 1 + 1, (fun i => if i = 1 then 1 else 0 : Nat → Int) i = 0 ∨
        (fun i => if i = 1 then 1 else 0 : Nat → Int) i = 1) ∧
      erasedCount (fun i => if i = 1 then 1 else 0) (1 + 1) ≤ 1 ∧ (1 ≤ 1 ∧ 1 < 1 + 1) ∧
      (fun i => if i = 1 then 1 else 0 : Nat → Int) 1 = 1 ∧
      rsDecode rs (fun _ _ => 0) (fun i => if i = 1 then 1 else 0)
        (erasedCount (fun i => if i = 1 then 1 else 0) (1 + 1)) 1 = none := by
  obtain ⟨rs, h⟩ := Option.isSome_iff_exists.mp (rsNew_isSome_iff.mpr ⟨le_rfl, le_rfl, by decide⟩)
  exact ⟨rs, h, by decide, by decide, by decide, rfl,
    rsDecode_parity_erased h (fun _ _ => 0) (fun i => if i = 1 then 1 else 0) (by decide)
      (by decide) (p := 1) (by decide) rfl 1⟩

/-! ## Erased data shards -/

/-- The copy loop from row `n` on leaves every row from `n + l.length` on as it was. -/
theorem foldlM_copyRow_frame {rs : ReedSolomon} : ∀ (l : List Nat) (n : Nat) (b : Block),
    b.size = rs.dataShards * rs.dataShards → n + l.length ≤ rs.dataShards →
    (∀ i ∈ l, i < rs.shards) →
    ∃ b', (l.enumFrom n).foldlM (copyRow rs) b = some b' ∧
      ∀ t j : Fin rs.dataShards, n + l.length ≤ t.val →
        b'.read (t.val * rs.dataShards + j.val) = b.read (t.val * rs.dataShards + j.val)
  | [], _, b, _, _, _ => ⟨b, rfl, fun _ _ _ => rfl⟩
  | i :: l, n, b, hb, hn, hl => by
    have hn' : n < rs.dataShards := by simp at hn; omega
    obtain ⟨b1, hb1, hsize1, hread1⟩ := copyRow_spec hb hn' (hl i (List.mem_cons_self _ _))
    obtain ⟨b', hfold, hframe⟩ := foldlM_copyRow_frame l (n + 1) b1 hsize1
      (by simp at hn; omega) fun x hx => hl x (List.mem_cons_of_mem _ hx)
    refine ⟨b', ?_, fun t j ht => ?_⟩
    · rw [List.enumFrom_cons, List.foldlM_cons, hb1]
      exact hfold
    · simp only [List.length_cons] at ht
      rw [hframe t j (by omega), hread1, if_neg (by omega)]

/-- `rs_decode` does not count the present shards itself.  With fewer than `K` shards marked
`0`, an `erasure_count` small enough to pass its check has it invert a `submatrix` whose
rows past the present shards were never written: for every coder, shard content and shard
size, the model reaches that read. -/
theorem rsDecode_undercount {rs : ReedSolomon} (shards : Nat → Nat → Gf) (erasures : Nat → Int)
    {erasureCount : Int} (shardSize : Nat) (hK : 0 < rs.dataShards)
    (hfew : ((List.range (rs.dataShards + rs.parityShards)).filter fun i => erasures i = 0).length <
      rs.dataShards)
    (hcount : (rs.dataShards : Int) ≤ (rs.dataShards + rs.parityShards : Nat) - erasureCount) :
    rsDecode rs shards erasures erasureCount shardSize = none := by
  have hN := rs.shards_eq
  let valid := validShards erasures (rs.dataShards + rs.parityShards) rs.dataShards
  have hlen : valid.length < rs.dataShards := by
    simp only [valid, validShards, List.length_take]
    omega
  obtain ⟨b, hb, hrow⟩ := foldlM_copyRow_frame valid 0 (Block.alloc _) rfl (by omega)
    fun i hi => hN ▸ List.mem_range.mp (List.mem_filter.mp (List.mem_of_mem_take hi)).1
  have hinvert : invertBlock b rs.dataShards = none := by
    have hunwritten := hrow ⟨valid.length, hlen⟩ ⟨0, hK⟩ (by simp)
    rw [invertBlock, Block.toMatrix, dif_neg fun hall => by
      have hread := hall ⟨valid.length, hlen⟩ ⟨0, hK⟩
      rw [hunwritten] at hread
      simp [Block.read, Block.alloc] at hread]
    rfl
  unfold rsDecode
  dsimp only
  rcases hsub : intSub ((rs.dataShards + rs.parityShards : Nat) : Int) erasureCount with
    _ | available
  · rfl
  rw [Option.some_bind, if_neg (by rw [eq_of_intSub_eq_some hsub]; omega)]
  simp only [fillSubmatrix, List.enum, hb, hinvert, Option.some_bind, Option.none_bind, valid]

/-- One data and one parity shard, both marked erased, and `erasure_count` given as `0`. -/
theorem rsDecode_undercount_one_one :
    ∃ rs, rsNew 1 1 = some rs ∧ 0 < rs.dataShards ∧
      ((List.range (rs.dataShards + rs.parityShards)).filter fun i =>
        (fun _ => 1 : Nat → Int) i = 0).length < rs.dataShards ∧
      (rs.dataShards : Int) ≤ (rs.dataShards + rs.parityShards : Nat) - 0 ∧
      rsDecode rs (fun _ _ => 0) (fun _ => 1) 0 1 = none := by
  obtain ⟨rs, h⟩ := Option.isSome_iff_exists.mp (rsNew_isSome_iff.mpr ⟨le_rfl, le_rfl, by decide⟩)
  obtain ⟨hK, hM, -⟩ := rsNew_generator h
  have hK0 : 0 < rs.dataShards := by omega
  have hfew : ((List.range (rs.dataShards + rs.parityShards)).filter fun i =>
      (fun _ => 1 : Nat → Int) i = 0).length < rs.dataShards := by
    rw [hK, hM]
    decide
  have hcount : (rs.dataShards : Int) ≤ (rs.dataShards + rs.parityShards : Nat) - 0 := by omega
  exact ⟨rs, h, hK0, hfew, hcount, rsDecode_undercount _ _ 1 hK0 hfew hcount⟩

end Kelp.Rs
