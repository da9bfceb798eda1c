import Kelp.Rs.Cauchy

/-!
# `rs_new` and the coder it builds

`rs_new(data_shards, parity_shards)` in `rs.c` rejects a shape outside
`1 ≤ K`, `1 ≤ M`, `K + M ≤ DATA_SHARDS_MAX`, builds `vm = cauchy(N, K)` for
`N = K + M`, inverts its top `K × K` block `top` in place, and keeps
`matrix = vm * top⁻¹` (`multiply1`) and its last `M` rows `parity` (`sub_matrix`).  A
failed inversion makes it free everything and return `NULL`.

The matrices of the coder are Mathlib matrices; the heap blocks that the decoders fill by
hand, where the source's flat indices can leave an allocation, are `Block`s, whose reads are
`none` there.  A byte of a block that the code never wrote is one of two things:
`Block.alloc` keeps it apart as `none`, the event `rs_decode`'s model reports, and
`Block.malloc` gives it the unspecified value a read of an `unsigned char` returns.

`rs_new` adds `data_shards + parity_shards` as `int` in its guard: `rsNewCall` is the call,
undefined where that sum overflows, and `rsNew` the function past it.

The results:

* `rsNew_eq_none` — `rs_new` returns `NULL` whenever `2 K + M > 256`, inside the range its
  guard admits: the columns of `cauchy(N, K)` from `256 - N` on index the row `0` of
  `gf_div_table`, so `top` has a zero column and its inversion fails;
* `rsNew_isSome_iff` — `rs_new` returns a coder exactly when `1 ≤ K`, `1 ≤ M` and
  `2 K + M ≤ 256`;
* `rsNew_generator` — the coder's top block is the identity, `parity` is its last `M`
  rows, and any `K` distinct rows of it form a matrix that `matrix_invert` inverts.
-/

namespace Kelp.Rs

open Matrix

/-! ## Heap blocks -/

/-- A block of `gf` from `malloc`: `size` bytes, each `none` until the code writes it. -/
structure Block where
  size : Nat
  data : Nat → Option Gf

namespace Block

/-- `malloc(size)`, with every byte marked as never written. -/
def alloc (size : Nat) : Block := ⟨size, fun _ => none⟩

/-- `malloc(size)` whose bytes hold `bytes` until the code writes them: an `unsigned char`
never written holds an unspecified value, and reading it is defined. -/
def malloc (size : Nat) (bytes : Nat → Gf) : Block := ⟨size, fun k => some (bytes k)⟩

/-- `b[i]`: `none` outside the block, where the read is undefined, and at a byte of an
`alloc` block never written. -/
def read (b : Block) (i : Nat) : Option Gf := if i < b.size then b.data i else none

/-- `memcpy(&dst[d], &src[s], len)`: defined when both ranges lie in their blocks.  Bytes
never written stay unwritten in the copy. -/
def memcpy (dst : Block) (d : Nat) (src : Block) (s len : Nat) : Option Block :=
  if s + len ≤ src.size ∧ d + len ≤ dst.size then
    some ⟨dst.size, fun k => if d ≤ k ∧ k < d + len then src.data (s + (k - d)) else dst.data k⟩
  else none

/-- The `r × c` matrix a block holds row-major, defined once all of its `r * c` bytes have
been written. -/
def toMatrix (b : Block) (r c : Nat) : Option (Matrix (Fin r) (Fin c) Gf) :=
  if h : ∀ (i : Fin r) (j : Fin c), (b.read (i.val * c + j.val)).isSome then
    some fun i j => (b.read (i.val * c + j.val)).get (h i j)
  else none

/-- The position of byte `k` of a row-major `r × c` matrix: row `k / c`, column `k % c`. -/
theorem div_lt_of_lt_mul' {r c k : Nat} (h : k < r * c) : k / c < r :=
  Nat.div_lt_of_lt_mul (Nat.mul_comm r c ▸ h)

theorem mod_lt_of_lt_mul {r c k : Nat} (h : k < r * c) : k % c < c :=
  Nat.mod_lt _ (Nat.pos_of_ne_zero fun hc => by simp [hc] at h)

/-- `b` with its first `r * c` bytes overwritten by `m` row-major, defined when they lie in
the block. -/
def writeMatrix (b : Block) {r c : Nat} (m : Matrix (Fin r) (Fin c) Gf) : Option Block :=
  if r * c ≤ b.size then
    some ⟨b.size, fun k =>
      if h : k < r * c then some (m ⟨k / c, div_lt_of_lt_mul' h⟩ ⟨k % c, mod_lt_of_lt_mul h⟩)
      else b.data k⟩
  else none

/-- A matrix laid out row-major in a block of its size, as `multiply1` leaves it. -/
def ofMatrix {r c : Nat} (m : Matrix (Fin r) (Fin c) Gf) : Block :=
  ⟨r * c, fun k =>
    if h : k < r * c then some (m ⟨k / c, div_lt_of_lt_mul' h⟩ ⟨k % c, mod_lt_of_lt_mul h⟩)
    else none⟩

theorem row_major_lt {r c : Nat} (i : Fin r) (j : Fin c) : i.val * c + j.val < r * c := by
  have := Nat.mul_le_mul_right c (Nat.succ_le_of_lt i.isLt)
  rw [Nat.succ_mul] at this
  omega

@[simp] theorem row_major_div {c : Nat} (i : Nat) (j : Fin c) : (i * c + j.val) / c = i := by
  rw [Nat.add_comm, Nat.add_mul_div_right _ _ (Nat.pos_of_ne_zero fun h => (h ▸ j).elim0),
    Nat.div_eq_of_lt j.isLt, Nat.zero_add]

@[simp] theorem row_major_mod {c : Nat} (i : Nat) (j : Fin c) : (i * c + j.val) % c = j.val := by
  rw [Nat.add_comm, Nat.add_mul_mod_self_right, Nat.mod_eq_of_lt j.isLt]

/-- Reading a matrix back at row `i`, column `j`. -/
theorem read_ofMatrix {r c : Nat} (m : Matrix (Fin r) (Fin c) Gf) (i : Fin r) (j : Fin c) :
    (ofMatrix m).read (i.val * c + j.val) = some (m i j) := by
  simp [read, ofMatrix, row_major_lt i j]

theorem read_writeMatrix {b b' : Block} {r c : Nat} {m : Matrix (Fin r) (Fin c) Gf}
    (h : b.writeMatrix m = some b') (i : Fin r) (j : Fin c) :
    b'.read (i.val * c + j.val) = some (m i j) := by
  unfold writeMatrix at h
  split_ifs at h with hb
  cases h
  have := row_major_lt i j
  simp [read, this, show i.val * c + j.val < b.size by omega]

theorem writeMatrix_size {b b' : Block} {r c : Nat} {m : Matrix (Fin r) (Fin c) Gf}
    (h : b.writeMatrix m = some b') : b'.size = b.size := by
  unfold writeMatrix at h
  split_ifs at h
  cases h
  rfl

theorem toMatrix_eq_some {b : Block} {r c : Nat} {m : Matrix (Fin r) (Fin c) Gf}
    (h : ∀ i j, b.read (i.val * c + j.val) = some (m i j)) : b.toMatrix r c = some m := by
  have hs : ∀ (i : Fin r) (j : Fin c), (b.read (i.val * c + j.val)).isSome := by simp [h]
  rw [toMatrix, dif_pos hs]
  congr
  ext i j
  simp [h]

theorem memcpy_size {dst src b : Block} {d s len : Nat} (h : dst.memcpy d src s len = some b) :
    b.size = dst.size := by
  unfold memcpy at h
  split_ifs at h
  cases h
  rfl

/-- After a `memcpy` the range `d ≤ k < d + len` reads the source from `s`, and the rest of
the block is unchanged. -/
theorem read_memcpy {dst src b : Block} {d s len : Nat} (h : dst.memcpy d src s len = some b)
    (k : Nat) : b.read k = if d ≤ k ∧ k < d + len then src.read (s + (k - d)) else dst.read k := by
  unfold memcpy at h
  split_ifs at h with hb
  cases h
  unfold read
  dsimp only
  split_ifs <;> first | rfl | omega

theorem memcpy_isSome {dst src : Block} {d s len : Nat} (hs : s + len ≤ src.size)
    (hd : d + len ≤ dst.size) : (dst.memcpy d src s len).isSome := by
  simp [memcpy, hs, hd]

theorem read_malloc {size k : Nat} (bytes : Nat → Gf) (hk : k < size) :
    (malloc size bytes).read k = some (bytes k) := if_pos hk

/-- Offset `t' * c + j` of a row-major block with `j < c` lies in row `t` exactly when
`t' = t`. -/
theorem row_index_iff {c t t' j : Nat} (hj : j < c) :
    (t * c ≤ t' * c + j ∧ t' * c + j < t * c + c) ↔ t' = t := by
  constructor
  · rintro ⟨h1, h2⟩
    by_contra hne
    rcases Nat.lt_or_gt_of_ne hne with hlt | hgt
    · have := Nat.mul_le_mul_right c (Nat.succ_le_of_lt hlt)
      rw [Nat.succ_mul] at this
      omega
    · have := Nat.mul_le_mul_right c (Nat.succ_le_of_lt hgt)
      rw [Nat.succ_mul] at this
      omega
  · rintro rfl
    omega

end Block

/-! ## `sub_matrix` and `multiply1` -/

/-- `sub_matrix(matrix, rmin, cmin, rmax, cmax, nrows, ncols)`: rows `rmin ≤ i < rmax` and
columns `cmin ≤ j < cmax`, for bounds inside the matrix. -/
def subMatrix {r c : Nat} (m : Matrix (Fin r) (Fin c) Gf) (rmin cmin rmax cmax : Nat)
    (hr : rmax ≤ r) (hc : cmax ≤ c) : Matrix (Fin (rmax - rmin)) (Fin (cmax - cmin)) Gf :=
  fun i j => m ⟨rmin + i.val, by omega⟩ ⟨cmin + j.val, by omega⟩

/-- `multiply1(a, ar, ac, b, br, bc)`: the product of an `ar × ac` and an `ac × bc` matrix,
each entry accumulated in `tg` from `0`. -/
def multiply1 {ar ac bc : Nat} (a : Matrix (Fin ar) (Fin ac) Gf) (b : Matrix (Fin ac) (Fin bc) Gf) :
    Matrix (Fin ar) (Fin bc) Gf :=
  fun r c => (List.finRange ac).foldl (fun tg i => tg ^^^ gfMul (a r i) (b i c)) 0

theorem multiply1_eq_mul {ar ac bc : Nat} (a : Matrix (Fin ar) (Fin ac) Gf)
    (b : Matrix (Fin ac) (Fin bc) Gf) : multiply1 a b = a * b := by
  ext r c
  rw [multiply1, foldl_xor_eq_sum, zero_add, mul_apply, Fin.sum_univ_def]
  rfl

/-! ## `rs_new` -/

/-- The `reed_solomon` structure.  `rs_new` sets `shards` to `data_shards + parity_shards`,
which the field `shards_eq` records. -/
structure ReedSolomon where
  dataShards : Nat
  parityShards : Nat
  shards : Nat
  matrix : Matrix (Fin shards) (Fin dataShards) Gf
  parity : Matrix (Fin (shards - dataShards)) (Fin dataShards) Gf
  shards_eq : shards = dataShards + parityShards

/-- `DATA_SHARDS_MAX`. -/
def dataShardsMax : Nat := 255

/-- The top `K × K` block of `cauchy(N, K)` that `rs_new` inverts. -/
def topOf (dataShards parityShards : Nat) : Matrix (Fin dataShards) (Fin dataShards) Gf :=
  subMatrix (cauchy (dataShards + parityShards) dataShards) 0 0 dataShards dataShards
    (Nat.le_add_right _ _) le_rfl

/-- The coder `rs_new` returns once `top` has been inverted to `inv`. -/
def ReedSolomon.ofInverse (dataShards parityShards : Nat)
    (inv : Matrix (Fin dataShards) (Fin dataShards) Gf) : ReedSolomon :=
  let matrix := multiply1 (cauchy (dataShards + parityShards) dataShards) inv
  { dataShards, parityShards, shards := dataShards + parityShards, matrix,
    parity := subMatrix matrix dataShards 0 (dataShards + parityShards) dataShards le_rfl le_rfl
    shards_eq := rfl }

/-- `rs_new(data_shards, parity_shards)` once its guard has added the two counts, `none` for
`NULL`.  Allocation is assumed to succeed; the printing is left out.  Past the guard every
`int` product of the call is at most `255 * 255`. -/
def rsNew (dataShards parityShards : Nat) : Option ReedSolomon :=
  if dataShards + parityShards > dataShardsMax ∨ dataShards ≤ 0 ∨ parityShards ≤ 0 then none
  else (matrixInvert (topOf dataShards parityShards)).map (ReedSolomon.ofInverse dataShards parityShards)

/-- `rs_new(data_shards, parity_shards)` as a call: the guard adds the two counts as `int`,
which is undefined where the sum overflows; past it the call is `rsNew`. -/
def rsNewCall (dataShards parityShards : Nat) : CResult (Option ReedSolomon) :=
  (intAdd dataShards parityShards).elim .undefined fun _ => .ret (rsNew dataShards parityShards)

theorem rsNewCall_of_inInt {dataShards parityShards : Nat}
    (h : InInt (dataShards + parityShards)) :
    rsNewCall dataShards parityShards = .ret (rsNew dataShards parityShards) := by
  rw [rsNewCall, intAdd_of_inInt h, Option.elim_some]

theorem rsNewCall_of_not_inInt {dataShards parityShards : Nat}
    (h : ¬ InInt (dataShards + parityShards)) : rsNewCall dataShards parityShards = .undefined := by
  rw [rsNewCall, intAdd_of_not_inInt h, Option.elim_none]

/-! ## When `rs_new` fails -/

/-- Two numbers with bit 8 set and no higher bit xor to a byte. -/
theorem xor_lt_256 {a b : Nat} (ha : 256 ≤ a ∧ a < 512) (hb : 256 ≤ b ∧ b < 512) :
    a ^^^ b < 256 := by
  obtain ⟨a', rfl⟩ : ∃ a', a = 256 + a' := ⟨a - 256, by omega⟩
  obtain ⟨b', rfl⟩ : ∃ b', b = 256 + b' := ⟨b - 256, by omega⟩
  rw [add_256_eq_xor a' (by omega), add_256_eq_xor b' (by omega), Nat.xor_comm 256 a',
    Nat.xor_assoc, Nat.xor_cancel_left]
  exact Nat.xor_lt_two_pow (n := 8) (by omega) (by omega)

/-- Once `rows + j` reaches `256`, the index `(256*1 + i) ^ (rows + j)` falls in row `0`
of `gf_div_table`, whose entries are all `0`. -/
theorem cauchy_eq_zero {rows cols : Nat} (hrows : rows ≤ 255) (hcols : cols ≤ 256)
    (i : Fin rows) (j : Fin cols) (hj : 256 ≤ rows + j.val) : cauchy rows cols i j = 0 := by
  have hx : (256 * 1 + i.val) ^^^ (rows + j.val) < 256 :=
    xor_lt_256 ⟨by omega, by omega⟩ ⟨hj, by omega⟩
  rw [cauchy, gfDivTable, Nat.div_eq_of_lt hx, Nat.mod_eq_of_lt hx]
  split_ifs
  · rfl
  · rw [gfDivDirect, if_pos rfl]
    rfl

/-- With `2 K + M > 256` the column `256 - N` of `top` is zero. -/
theorem det_topOf_eq_zero {dataShards parityShards : Nat}
    (hN : dataShards + parityShards ≤ 255) (h : 256 < 2 * dataShards + parityShards) :
    (topOf dataShards parityShards).det = 0 := by
  refine det_eq_zero_of_column_eq_zero ⟨256 - (dataShards + parityShards), by omega⟩ fun i => ?_
  exact cauchy_eq_zero hN (by omega) _ _ (by simp only [Fin.val_mk]; omega)

/-- With `2 K + M > 256`, inside the guard, `matrix_invert` fails on `top`. -/
theorem matrixInvert_topOf_eq_none {dataShards parityShards : Nat}
    (hN : dataShards + parityShards ≤ 255) (h : 256 < 2 * dataShards + parityShards) :
    matrixInvert (topOf dataShards parityShards) = none :=
  Option.not_isSome_iff_eq_none.mp fun hs =>
    (matrixInvert_isSome_iff _).mp hs (det_topOf_eq_zero hN h)

/-- `rs_new` returns `NULL` for every `K, M` with `2 K + M > 256`, also where its guard
admits the shape (`K + M ≤ 255`). -/
theorem rsNew_eq_none {dataShards parityShards : Nat} (h : 256 < 2 * dataShards + parityShards) :
    rsNew dataShards parityShards = none := by
  unfold rsNew
  split_ifs with hg
  · rfl
  · have hN : dataShards + parityShards ≤ 255 := by simp only [dataShardsMax] at hg; omega
    rw [matrixInvert_topOf_eq_none hN h, Option.map_none']

theorem rsNew_eq_none_128_1 : 256 < 2 * 128 + 1 ∧ rsNew 128 1 = none :=
  ⟨by decide, rsNew_eq_none (by decide)⟩

/-! ## The coder `rs_new` returns -/

section Generator

variable {dataShards parityShards : Nat}

/-- Row `i < K` of `cauchy(N, K)` as a row of `top`. -/
theorem topOf_apply (i j : Fin dataShards) :
    topOf dataShards parityShards i j =
      cauchy (dataShards + parityShards) dataShards ⟨i.val, by omega⟩ ⟨j.val, by omega⟩ := by
  simp [topOf, subMatrix]

/-- For `2 K + M ≤ 256`, `top` is nonsingular. -/
theorem det_topOf_ne_zero (h : 2 * dataShards + parityShards ≤ 256) :
    (topOf dataShards parityShards).det ≠ 0 := by
  have : topOf dataShards parityShards = Matrix.of fun a b =>
      cauchy (dataShards + parityShards) dataShards ⟨a.val, by omega⟩ ⟨b.val, by omega⟩ := by
    ext a b
    exact topOf_apply a b
  rw [this]
  exact cauchy_submatrix_det_ne_zero (by omega)
    (fun a b he => Fin.ext (Fin.mk.inj_iff.mp he)) (fun a b he => Fin.ext (Fin.mk.inj_iff.mp he))

/-- `rs_new` returns a coder exactly on the shapes `1 ≤ K`, `1 ≤ M`, `2 K + M ≤ 256`. -/
theorem rsNew_isSome_iff :
    (rsNew dataShards parityShards).isSome ↔
      1 ≤ dataShards ∧ 1 ≤ parityShards ∧ 2 * dataShards + parityShards ≤ 256 := by
  constructor
  · intro hs
    unfold rsNew at hs
    split_ifs at hs with hg
    · exact absurd hs Bool.false_ne_true
    · have hN : dataShards + parityShards ≤ 255 := by simp only [dataShardsMax] at hg; omega
      refine ⟨by omega, by omega, Nat.le_of_not_lt fun h => ?_⟩
      rw [matrixInvert_topOf_eq_none hN h, Option.map_none'] at hs
      exact Bool.false_ne_true hs
  · rintro ⟨hK, hM, h⟩
    unfold rsNew
    rw [if_neg (by simp only [dataShardsMax]; omega), Option.isSome_map']
    exact (matrixInvert_isSome_iff _).mpr (det_topOf_ne_zero h)

/-- What `rs_new` returns is built from an inverse of `top`. -/
theorem rsNew_eq_some {rs : ReedSolomon} (h : rsNew dataShards parityShards = some rs) :
    ∃ inv, matrixInvert (topOf dataShards parityShards) = some inv ∧
      ReedSolomon.ofInverse dataShards parityShards inv = rs := by
  unfold rsNew at h
  split_ifs at h
  exact Option.map_eq_some'.mp h

/-- The generator `rs_new` returns: its top `K × K` block is the identity, `parity` is its
last `M` rows, and `matrix_invert` inverts the matrix of any `K` distinct rows of it. -/
theorem rsNew_generator {rs : ReedSolomon} (h : rsNew dataShards parityShards = some rs) :
    rs.dataShards = dataShards ∧ rs.parityShards = parityShards ∧
      (Matrix.of fun i j : Fin rs.dataShards =>
        rs.matrix ⟨i.val, by have := rs.shards_eq; omega⟩ j) = 1 ∧
      (∀ i j, rs.parity i j = rs.matrix ⟨rs.dataShards + i.val, by omega⟩ j) ∧
      ∀ rows : Fin rs.dataShards → Fin rs.shards, Function.Injective rows →
        (matrixInvert (Matrix.of fun a b => rs.matrix (rows a) b)).isSome := by
  have hshape := rsNew_isSome_iff.mp (Option.isSome_iff_exists.mpr ⟨rs, h⟩)
  obtain ⟨inv, hinv, rfl⟩ := rsNew_eq_some h
  have hmul : topOf dataShards parityShards * inv = 1 := by
    rw [← matrixMultiply_eq_mul]
    exact (matrixInvert_mul_eq_one hinv).1
  have hdet : inv.det ≠ 0 := fun h0 => by
    simpa [h0] using congrArg Matrix.det hmul
  refine ⟨rfl, rfl, ?_, fun i j => ?_, fun rows hrows => ?_⟩
  · rw [← hmul]
    ext i j
    simp only [ReedSolomon.ofInverse, multiply1_eq_mul, of_apply, mul_apply, topOf_apply]
  · simp only [ReedSolomon.ofInverse, subMatrix, Nat.zero_add]
    rfl
  · refine (matrixInvert_isSome_iff _).mpr ?_
    have : (Matrix.of fun a b => (ReedSolomon.ofInverse dataShards parityShards inv).matrix
        (rows a) b) = (Matrix.of fun a b => cauchy (dataShards + parityShards) dataShards
          (rows a) b) * inv := by
      ext a b
      simp only [ReedSolomon.ofInverse, multiply1_eq_mul, of_apply, mul_apply]
    rw [this, det_mul]
    exact mul_ne_zero (cauchy_submatrix_det_ne_zero (by omega) hrows Function.injective_id) hdet

end Generator

end Kelp.Rs
