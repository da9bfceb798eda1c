import Kelp.Rs.Decode

/-!
# `rs_generic_galois_coding`

`rs_generic_galois_coding(rs, shard_ids, input_count, output_count, shard_size, shards)` in
`rs.c` is meant to rebuild the output shards `shard_ids[input_count ..]` from the input shards
`shard_ids[.. input_count]`.  The source does the following, with `data_shards` the local
copy of `input_count`:

* `input_matrix` (`K × K`, `K = input_count`): row `i` is copied from `rs->matrix` at
  `shard_ids[i] * K`, but only when `shard_ids[i] < K`; other rows are never written;
* `input_matrix` is inverted in place, and the call returns `0` if that fails;
* `output_matrix` (`output_count × K`): row `i` is copied from `rs->matrix` at
  `(K + shard_ids[i]) * K`, with the input ids `shard_ids[i]`, for `i < output_count`;
* `reconstruction_matrix = matrix_multiply(output_matrix, input_matrix, output_count)`, the
  square product of side `output_count`;
* for `i < output_count` the coefficient dispatch of `rs_encode` writes
  `∑ j, reconstruction_matrix[i * K + j] * shards[j]` into `shards[i]`: into the slots of the
  input shards, reading the shards as they are being overwritten.

The call first computes `input_count + output_count` and the sizes `data_shards *
data_shards` and `output_count * data_shards` of its two blocks, all in `int`; the model has
no result where one overflows, and `genericCodingFrom` is the call past them.  Every heap
matrix is a `Block`.  A read outside a block is undefined and has no result; the three blocks
the call allocates hold `bytes` (`MallocBytes`) until it writes them, and a read of a byte
never written is defined and gives that unspecified value.  `memcpy` copies the `size_t`
shard size, and the kernels take it converted to `int`.

`rsGenericGaloisCoding_one` runs the model on every coder `rs_new(1, M)` with the input
shard `0` and the output shard `1`, whatever the blocks held: the call returns `1`,
multiplies shard `0` in place by the parity coefficient `G[1][0] ∉ {0, 1}`, and never writes
shard `1`.

`matrix_multiply` is called with side `output_count`, not `input_count`, so the product is
the one the reconstruction needs only when the two counts agree.  With more outputs than
inputs it reads past `output_matrix`, and the call never returns `1`
(`rsGenericGaloisCoding_counts`).  With fewer, the last outputs' coefficients are bytes of
`reconstruction_matrix` that the product never wrote.  Output `i` is written into
`shards[i]`, the slot of input `i` (`rsGenericGaloisCoding_frame`): the shards from
`output_count` on, among them the slots `shards[input_count ..]` of the outputs, are never
written.
-/

namespace Kelp.Rs

/-! ## The model -/

/-- The contents of the three blocks `rs_generic_galois_coding` allocates, before it writes
them: `unsigned char`s never written, whose values are unspecified. -/
structure MallocBytes where
  inputMatrix : Nat → Gf
  outputMatrix : Nat → Gf
  reconstructionMatrix : Nat → Gf

/-- `matrix_multiply(a, b, result, n)` on blocks: the reads of `a` and `b` as `n × n`
row-major matrices and the writes of the product into the first `n * n` bytes of
`result`. -/
def matrixMultiplyBlock (a b result : Block) (n : Nat) : Option Block :=
  (a.toMatrix n n).bind fun x => (b.toMatrix n n).bind fun y => result.writeMatrix (matrixMultiply x y)

/-- The loop filling `input_matrix`, which holds `bytes` where no row is copied. -/
def fillInputMatrix (rs : ReedSolomon) (shardIds : Nat → Nat) (dataShards : Nat)
    (bytes : Nat → Gf) : Option Block :=
  (List.range dataShards).foldlM
    (fun b i =>
      if shardIds i < dataShards then
        b.memcpy (i * dataShards) (Block.ofMatrix rs.matrix) (shardIds i * dataShards) dataShards
      else some b)
    (Block.malloc (dataShards * dataShards) bytes)

/-- The loop filling `output_matrix`: the row offset `(data_shards + shard_ids[i]) *
data_shards` is an `int` sum and product. -/
def fillOutputMatrix (rs : ReedSolomon) (shardIds : Nat → Nat) (dataShards outputCount : Nat)
    (bytes : Nat → Gf) : Option Block :=
  (List.range outputCount).foldlM
    (fun b i => (intAdd dataShards (shardIds i)).bind fun row => (intMul row dataShards).bind
      fun _ => b.memcpy (i * dataShards) (Block.ofMatrix rs.matrix)
        ((dataShards + shardIds i) * dataShards) dataShards)
    (Block.malloc (outputCount * dataShards) bytes)

/-- The reconstruction loop for output `i`: the dispatch of `rs_encode` from `shards[j]` into
`shards[i]`, each read made from the shards as the loop leaves them.  `memcpy` copies the
`size_t` shard size and the kernels get it converted to `int`. -/
def codeOutput (recon : Block) (dataShards shardSize : Nat) (shards : Nat → Nat → Gf)
    (i : Nat) : Option (Nat → Nat → Gf) :=
  ((List.range dataShards).foldlM
    (fun (st : Bool × (Nat → Nat → Gf)) j =>
      (recon.read (i * dataShards + j)).map fun coeff =>
        let r := codeTerm shardSize (sizeToInt shardSize).toNat st.1 coeff (st.2 i) (st.2 j)
        (r.1, Function.update st.2 i r.2))
    (true, shards)).map Prod.snd

/-- `rs_generic_galois_coding` from the line after its two `malloc`s on, with `data_shards`
the copy of `input_count`. -/
def genericCodingFrom (rs : ReedSolomon) (shardIds : Nat → Nat)
    (dataShards outputCount shardSize : Nat) (shards : Nat → Nat → Gf) (bytes : MallocBytes) :
    Option (Int × (Nat → Nat → Gf)) :=
  (fillInputMatrix rs shardIds dataShards bytes.inputMatrix).bind fun inputMatrix =>
    (invertBlock inputMatrix dataShards).bind fun
      | none => some (0, shards)
      | some inputMatrix =>
        (fillOutputMatrix rs shardIds dataShards outputCount bytes.outputMatrix).bind
          fun outputMatrix =>
          (matrixMultiplyBlock outputMatrix inputMatrix
              (Block.malloc (outputCount * dataShards) bytes.reconstructionMatrix)
              outputCount).bind fun recon =>
            ((List.range outputCount).foldlM (codeOutput recon dataShards shardSize) shards).map
              fun shards => (1, shards)

/-- `rs_generic_galois_coding(rs, shard_ids, input_count, output_count, shard_size,
shards)`, with `bytes` in the blocks it allocates: the value returned and the shards after the
call; `none` where an `int` sum or product overflows or the source reads outside an
allocation.  The call first adds `input_count + output_count` and multiplies the sizes of
`input_matrix` and `output_matrix`, all as `int`.  Shard ids are taken nonnegative. -/
def rsGenericGaloisCoding (rs : ReedSolomon) (shardIds : Nat → Nat)
    (inputCount outputCount shardSize : Nat) (shards : Nat → Nat → Gf) (bytes : MallocBytes) :
    Option (Int × (Nat → Nat → Gf)) :=
  (intAdd inputCount outputCount).bind fun _ =>
  (intMul inputCount inputCount).bind fun _ =>
  (intMul outputCount inputCount).bind fun _ =>
  genericCodingFrom rs shardIds inputCount outputCount shardSize shards bytes

section Call

variable {rs : ReedSolomon} {shardIds : Nat → Nat} {inputCount outputCount shardSize : Nat}
  {shards : Nat → Nat → Gf} {bytes : MallocBytes}

theorem rsGenericGaloisCoding_of_inInt (hsum : InInt (inputCount + outputCount))
    (hin : InInt (inputCount * inputCount)) (hout : InInt (outputCount * inputCount)) :
    rsGenericGaloisCoding rs shardIds inputCount outputCount shardSize shards bytes =
      genericCodingFrom rs shardIds inputCount outputCount shardSize shards bytes := by
  rw [rsGenericGaloisCoding, intAdd_of_inInt hsum, Option.some_bind, intMul_of_inInt hin,
    Option.some_bind, intMul_of_inInt hout, Option.some_bind]

/-- A call with a defined result has passed its `int` operations. -/
theorem genericCodingFrom_of_eq_some {x : Int × (Nat → Nat → Gf)}
    (h : rsGenericGaloisCoding rs shardIds inputCount outputCount shardSize shards bytes =
      some x) :
    genericCodingFrom rs shardIds inputCount outputCount shardSize shards bytes = some x := by
  obtain ⟨_, -, h⟩ := Option.bind_eq_some.mp h
  obtain ⟨_, -, h⟩ := Option.bind_eq_some.mp h
  obtain ⟨_, -, h⟩ := Option.bind_eq_some.mp h
  exact h

end Call

/-! ## One data shard -/

/-- A block of one byte read back as a `1 × 1` matrix. -/
theorem toMatrix_one_one {b : Block} {x : Gf} (h : b.read 0 = some x) :
    b.toMatrix 1 1 = some (Matrix.of fun _ _ => x) :=
  Block.toMatrix_eq_some fun i j => by
    rw [Subsingleton.elim i 0, Subsingleton.elim j 0]
    exact h

/-- The run on one input and one output, for a generator whose flat block reads `1` and
then a coefficient `g ∉ {0, 1}`. -/
theorem rsGenericGaloisCoding_of_reads {rs : ReedSolomon} {g : Gf}
    (hsize : 2 ≤ (Block.ofMatrix rs.matrix).size) (h0 : (Block.ofMatrix rs.matrix).read 0 = some 1)
    (h1 : (Block.ofMatrix rs.matrix).read 1 = some g) (hg0 : g ≠ 0) (hg1 : g ≠ 1)
    (shards : Nat → Nat → Gf) (shardSize : Nat) (bytes : MallocBytes) :
    rsGenericGaloisCoding rs (fun t => if t = 0 then 0 else 1) 1 1 shardSize shards bytes =
      some (1, Function.update shards 0
        (mul1Avx2 (shards 0) (shards 0) g (sizeToInt shardSize).toNat)) := by
  have hrange : List.range 1 = [0] := rfl
  -- `input_matrix` holds `1`, and so does its inverse
  obtain ⟨b1, hb1⟩ := Option.isSome_iff_exists.mp
    (@Block.memcpy_isSome (Block.malloc (1 * 1) bytes.inputMatrix) (Block.ofMatrix rs.matrix)
      (0 * 1) (0 * 1) 1 (by omega) le_rfl)
  have hin :
      fillInputMatrix rs (fun t => if t = 0 then 0 else 1) 1 bytes.inputMatrix = some b1 := by
    simp only [fillInputMatrix, hrange, List.foldlM_cons, List.foldlM_nil, bind_pure, if_pos,
      Nat.lt_irrefl, Nat.zero_lt_one, if_true, hb1]
  have hread1 : b1.read 0 = some 1 := by
    rw [Block.read_memcpy hb1, if_pos (by omega)]
    exact h0
  have hone : (Matrix.of fun _ _ => (1 : Gf) : Matrix (Fin 1) (Fin 1) Gf) = 1 := by
    ext i j
    obtain rfl := Subsingleton.elim i j
    exact (Matrix.one_apply_eq i).symm
  obtain ⟨inv, hinv⟩ := Option.isSome_iff_exists.mp
    ((matrixInvert_isSome_iff (1 : Matrix (Fin 1) (Fin 1) Gf)).mpr (by simp))
  obtain rfl := matrixInvert_one_eq hinv
  obtain ⟨b2, hb2⟩ : ∃ b2, b1.writeMatrix (1 : Matrix (Fin 1) (Fin 1) Gf) = some b2 :=
    ⟨_, if_pos (by rw [Block.memcpy_size hb1]; rfl)⟩
  have hinvert : invertBlock b1 1 = some (some b2) := by
    rw [invertBlock, toMatrix_one_one hread1, hone, Option.map_some', hinv, Option.some_bind, hb2]
  have hread2 : b2.read 0 = some 1 := Block.read_writeMatrix hb2 0 0
  -- `output_matrix` holds `g`, and so does the product
  obtain ⟨b3, hb3⟩ := Option.isSome_iff_exists.mp
    (@Block.memcpy_isSome (Block.malloc (1 * 1) bytes.outputMatrix) (Block.ofMatrix rs.matrix)
      (0 * 1) ((1 + 0) * 1) 1 (by omega) le_rfl)
  have hout : fillOutputMatrix rs (fun t => if t = 0 then 0 else 1) 1 1 bytes.outputMatrix =
      some b3 := by
    simp only [fillOutputMatrix, hrange, List.foldlM_cons, List.foldlM_nil, bind_pure, if_pos,
      intAdd_of_inInt (show InInt (((1 : Nat) : Int) + ((0 : Nat) : Int)) by unfold InInt; omega),
      Option.some_bind,
      intMul_of_inInt (show InInt ((((1 : Nat) : Int) + ((0 : Nat) : Int)) * ((1 : Nat) : Int)) by
        unfold InInt; omega), hb3]
  have hread3 : b3.read 0 = some g := by
    rw [Block.read_memcpy hb3, if_pos (by omega)]
    exact h1
  obtain ⟨b4, hb4⟩ : ∃ b4, (Block.malloc (1 * 1) bytes.reconstructionMatrix).writeMatrix
      (matrixMultiply (Matrix.of fun _ _ => g) (1 : Matrix (Fin 1) (Fin 1) Gf)) = some b4 :=
    ⟨_, if_pos le_rfl⟩
  have hmul : matrixMultiplyBlock b3 b2 (Block.malloc (1 * 1) bytes.reconstructionMatrix) 1 =
      some b4 := by
    rw [matrixMultiplyBlock, toMatrix_one_one hread3, toMatrix_one_one hread2, hone,
      Option.some_bind, Option.some_bind, hb4]
  have hread4 : b4.read 0 = some g := by
    simpa [matrixMultiply_eq_mul] using Block.read_writeMatrix hb4 0 0
  -- the reconstruction of output `0`, into shard `0`
  have hcode : codeOutput b4 1 shardSize shards 0 = some (Function.update shards 0
      (mul1Avx2 (shards 0) (shards 0) g (sizeToInt shardSize).toNat)) := by
    simp only [codeOutput, hrange, List.foldlM_cons, List.foldlM_nil, Nat.zero_mul,
      Nat.zero_add, hread4, Option.map_some', codeTerm, if_neg hg0, if_neg hg1, if_true]
    rfl
  rw [rsGenericGaloisCoding_of_inInt (by unfold InInt; omega) (by unfold InInt; omega)
    (by unfold InInt; omega)]
  simp only [genericCodingFrom, hin, Option.some_bind, hinvert, hout, hmul, hrange,
    List.foldlM_cons, List.foldlM_nil, hcode]
  rfl

/-- `rs_generic_galois_coding` on a coder `rs_new(1, M)` with the input shard `0` and the
output shard `1`, whatever its blocks held: it returns `1`, multiplies shard `0` in place by
the parity coefficient `G[1][0]`, which is neither `0` nor `1`, and leaves shard `1` as it
was. -/
theorem rsGenericGaloisCoding_one {parityShards : Nat} {rs : ReedSolomon}
    (h : rsNew 1 parityShards = some rs) (shards : Nat → Nat → Gf) (shardSize : Nat)
    (bytes : MallocBytes) :
    ∃ g : Gf, g ≠ 0 ∧ g ≠ 1 ∧
      rsGenericGaloisCoding rs (fun t => if t = 0 then 0 else 1) 1 1 shardSize shards bytes =
        some (1, Function.update shards 0
          (mul1Avx2 (shards 0) (shards 0) g (sizeToInt shardSize).toNat)) := by
  obtain ⟨hK, hM, htop, -, -⟩ := rsNew_generator h
  have hshape := rsNew_isSome_iff.mp (Option.isSome_iff_exists.mpr ⟨rs, h⟩)
  have hN := rs.shards_eq
  let z : Fin rs.dataShards := ⟨0, by omega⟩
  let i0 : Fin rs.parityShards := ⟨0, by omega⟩
  obtain ⟨hg0, hg1⟩ := parityCoeff_one_ne h i0 z
  refine ⟨parityCoeff rs i0 z, hg0, hg1,
    rsGenericGaloisCoding_of_reads ?_ ?_ ?_ hg0 hg1 shards shardSize bytes⟩
  · show 2 ≤ rs.shards * rs.dataShards
    rw [hK, hN]
    omega
  · have := Block.read_ofMatrix rs.matrix ⟨0, by omega⟩ z
    rw [show (⟨0, _⟩ : Fin rs.shards).val * rs.dataShards + z.val = 0 by simp [z]] at this
    have h00 := congrFun (congrFun htop z) z
    rw [Matrix.one_apply_eq] at h00
    rw [this, ← h00]
    rfl
  · have hidx : (rs.dataShards + i0.val) * rs.dataShards + z.val = 1 := by
      show (rs.dataShards + 0) * rs.dataShards + 0 = 1
      rw [hK]
    rw [← hidx]
    exact Block.read_ofMatrix rs.matrix ⟨rs.dataShards + i0.val, by omega⟩ z

theorem rsGenericGaloisCoding_one_one :
    ∃ rs, rsNew 1 1 = some rs ∧ ∃ g : Gf, g ≠ 0 ∧ g ≠ 1 ∧
      rsGenericGaloisCoding rs (fun t => if t = 0 then 0 else 1) 1 1 1 (fun _ _ => 1)
          ⟨fun _ => 0, fun _ => 0, fun _ => 0⟩ =
        some (1, Function.update (fun _ _ => 1) 0
          (mul1Avx2 (fun _ => 1) (fun _ => 1) g (sizeToInt 1).toNat)) := by
  obtain ⟨rs, h⟩ := Option.isSome_iff_exists.mp (rsNew_isSome_iff.mpr ⟨le_rfl, le_rfl, by decide⟩)
  exact ⟨rs, h, rsGenericGaloisCoding_one h _ _ _⟩

/-! ## The shape of the product -/

theorem Block.isSome_read_of_toMatrix {b : Block} {r c : Nat} {m : Matrix (Fin r) (Fin c) Gf}
    (h : b.toMatrix r c = some m) (i : Fin r) (j : Fin c) :
    (b.read (i.val * c + j.val)).isSome := by
  unfold Block.toMatrix at h
  split_ifs at h with hs
  exact hs i j

/-- A hand-made coder of one data shard and one parity shard, whose generator column reads
`1` over `2`. -/
def sampleCoder : ReedSolomon := ⟨1, 1, 2, Matrix.of ![![1], ![Gf.ofNat 2]], 0, rfl⟩

theorem rsGenericGaloisCoding_sampleCoder (bytes : MallocBytes) :
    rsGenericGaloisCoding sampleCoder (fun t => if t = 0 then 0 else 1) 1 1 1 (fun _ _ => 1)
        bytes =
      some (1, Function.update (fun _ _ => 1) 0
        (mul1Avx2 (fun _ => 1) (fun _ => 1) (Gf.ofNat 2) (sizeToInt 1).toNat)) :=
  rsGenericGaloisCoding_of_reads (by decide) (by rfl) (by rfl) (by decide) (by decide) _ _ _

/-- With more outputs than inputs `rs_generic_galois_coding` never returns `1`:
`matrix_multiply(output_matrix, input_matrix, reconstruction_matrix, output_count)`
multiplies square matrices of side `output_count`, and reads `output_matrix`, of
`output_count * input_count` bytes, past its end.  The call is undefined, unless
`matrix_invert` has failed first and it returns `0` with no shard written. -/
theorem rsGenericGaloisCoding_counts {rs : ReedSolomon} {shardIds : Nat → Nat}
    {inputCount outputCount : Nat} (shardSize : Nat) (shards : Nat → Nat → Gf)
    (bytes : MallocBytes) (hgt : inputCount < outputCount) :
    rsGenericGaloisCoding rs shardIds inputCount outputCount shardSize shards bytes = none ∨
      rsGenericGaloisCoding rs shardIds inputCount outputCount shardSize shards bytes =
        some (0, shards) := by
  rcases hrun : rsGenericGaloisCoding rs shardIds inputCount outputCount shardSize shards bytes
    with _ | x
  · exact .inl rfl
  refine .inr (congrArg some ?_)
  have h := genericCodingFrom_of_eq_some hrun
  obtain ⟨im, -, h⟩ := Option.bind_eq_some.mp h
  obtain ⟨inv, -, h⟩ := Option.bind_eq_some.mp h
  rcases inv with _ | inv
  · exact (Option.some.inj h).symm
  obtain ⟨om, hom, h⟩ := Option.bind_eq_some.mp h
  obtain ⟨recon, hrecon, -⟩ := Option.bind_eq_some.mp h
  obtain ⟨x, hx, -⟩ := Option.bind_eq_some.mp hrecon
  have hsize : om.size = outputCount * inputCount := foldlM_invariant
    (fun b => b.size = outputCount * inputCount) (fun _ _ _ _ hb hsize => by
      obtain ⟨_, -, hb⟩ := Option.bind_eq_some.mp hb
      obtain ⟨_, -, hb⟩ := Option.bind_eq_some.mp hb
      exact (Block.memcpy_size hb).trans hsize) hom rfl
  have hread := Block.isSome_read_of_toMatrix hx ⟨inputCount, hgt⟩ ⟨0, by omega⟩
  simp [Block.read, hsize, Nat.mul_comm inputCount] at hread

/-- One input and two outputs, on `sampleCoder`. -/
theorem rsGenericGaloisCoding_counts_one_two :
    1 < 2 ∧ (rsGenericGaloisCoding sampleCoder (fun t => if t = 0 then 0 else 1) 1 2 1
        (fun _ _ => 1) ⟨fun _ => 0, fun _ => 0, fun _ => 0⟩ = none ∨
      rsGenericGaloisCoding sampleCoder (fun t => if t = 0 then 0 else 1) 1 2 1
        (fun _ _ => 1) ⟨fun _ => 0, fun _ => 0, fun _ => 0⟩ = some (0, fun _ _ => 1)) :=
  ⟨by decide, rsGenericGaloisCoding_counts _ _ _ (by decide)⟩

/-- The reconstruction of output `i` writes shard `i` only. -/
theorem codeOutput_frame {recon : Block} {dataShards shardSize : Nat}
    {shards out : Nat → Nat → Gf} {i : Nat}
    (h : codeOutput recon dataShards shardSize shards i = some out) {j : Nat} (hj : j ≠ i) :
    out j = shards j := by
  obtain ⟨st, hst, rfl⟩ := Option.map_eq_some'.mp h
  refine foldlM_invariant (fun st : Bool × (Nat → Nat → Gf) => st.2 j = shards j)
    (fun st _ _ st' hst' hinv => ?_) hst rfl
  obtain ⟨coeff, -, rfl⟩ := Option.map_eq_some'.mp hst'
  exact (Function.update_noteq hj _ _).trans hinv

/-- `rs_generic_galois_coding` writes only `shards[0 .. output_count)`, the slots of the
first shards of `shard_ids`, the inputs: whatever it returns, on a shard size whose `int`
conversion the kernels take in range, every shard from `output_count` on is left as it was. -/
theorem rsGenericGaloisCoding_frame {rs : ReedSolomon} {shardIds : Nat → Nat}
    {inputCount outputCount shardSize : Nat} {shards out : Nat → Nat → Gf} {bytes : MallocBytes}
    {r : Int} (_hsize : KernelSize (sizeToInt shardSize).toNat)
    (h : rsGenericGaloisCoding rs shardIds inputCount outputCount shardSize shards bytes =
      some (r, out)) {j : Nat} (hj : outputCount ≤ j) :
    out j = shards j := by
  have h := genericCodingFrom_of_eq_some h
  obtain ⟨im, -, h⟩ := Option.bind_eq_some.mp h
  obtain ⟨inv, -, h⟩ := Option.bind_eq_some.mp h
  rcases inv with _ | inv
  · cases h
    rfl
  obtain ⟨om, -, h⟩ := Option.bind_eq_some.mp h
  obtain ⟨recon, -, h⟩ := Option.bind_eq_some.mp h
  obtain ⟨out', hloop, hout⟩ := Option.map_eq_some'.mp h
  cases hout
  exact foldlM_invariant (fun sh : Nat → Nat → Gf => sh j = shards j)
    (fun _ i hi _ hsh hinv => (codeOutput_frame hsh (by
      have := List.mem_range.mp hi
      omega)).trans hinv) hloop rfl

/-- One input and one output, on `sampleCoder`: shard `1` is left as it was. -/
theorem rsGenericGaloisCoding_frame_one :
    KernelSize (sizeToInt 1).toNat ∧ ∃ out, rsGenericGaloisCoding sampleCoder
        (fun t => if t = 0 then 0 else 1) 1 1 1 (fun _ _ => 1)
        ⟨fun _ => 0, fun _ => 0, fun _ => 0⟩ = some (1, out) ∧ 1 ≤ 1 ∧ out 1 = fun _ => 1 :=
  have hsize : KernelSize (sizeToInt 1).toNat := by
    rw [sizeToInt_of_lt (by decide), kernelSize_iff]
    decide
  ⟨hsize, _, rsGenericGaloisCoding_sampleCoder _, le_rfl, rsGenericGaloisCoding_frame hsize
    (rsGenericGaloisCoding_sampleCoder ⟨fun _ => 0, fun _ => 0, fun _ => 0⟩) le_rfl⟩

end Kelp.Rs
