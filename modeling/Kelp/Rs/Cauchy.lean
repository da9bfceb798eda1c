import Kelp.Rs.MatrixInvert
import Mathlib.Algebra.Polynomial.Roots
import Mathlib.Algebra.Polynomial.BigOperators
import Mathlib.LinearAlgebra.Matrix.Block

/-!
# `cauchy` and the nonsingularity of its square submatrices

`cauchy(rows, cols)` in `rs.c` builds the generator that `rs_new` starts from.  Its entry
is written `gf_div_table[256*1 + i ^ (rows + j)]`; C binds `+` tighter than `^`, so the
index is `(256*1 + i) ^ (rows + j)`, and `cauchy` keeps that reading.  While
`rows + j < 256` the high bit of `256*1 + i` is untouched by the xor, and the entry is
`gf_div(1, i ^ (rows + j))` as the commented-out line above it intends
(`cauchy_eq_gfDiv_one`).

The entry is `1 / (x_i + y_j)` with `x_i = i` and `y_j = rows + j`, a Cauchy matrix over
GF(2^8) when the `x` and the `y` are all distinct bytes, which is what `rows + cols ≤ 256`
gives.  `det_cauchy_ne_zero` proves for any field that such a matrix is nonsingular: a
vector in its kernel gives the polynomial `∑ b, v b ∏_{b' ≠ b} (X + y b')`, of degree below
the size, with a root at every `x_a`; it vanishes, and its value at `-y_b` is `v b` times
a nonzero product.  `cauchy_correct` combines this with `matrixInvert_isSome_iff`: every
square submatrix of `cauchy rows cols` makes `matrix_invert` return `1`.

`cauchy_submatrix(systematic_rows, rows, cols, row_list)`, which nothing in the repository
calls, stacks the identity's first `systematic_rows` rows on rows `row_list[i]` of
`cauchy(rows, cols)`.  Square, it is block triangular: its determinant is that of its Cauchy
rows on the columns from `systematic_rows` on, so `matrix_invert` accepts it exactly when
those `row_list` entries are distinct (`cauchySubmatrix_invertible_iff`).  The identity rows
are always the first ones, whatever `row_list` holds there.
-/

namespace Kelp.Rs

open Polynomial Matrix

/-! ## Cauchy matrices over a field -/

section CauchyDet

variable {F : Type*} [Field F] {r : Nat} {x y : Fin r → F}

theorem natDegree_cauchy_numerator (y v : Fin r → F) :
    (∑ b, C (v b) * ∏ b' ∈ Finset.univ.erase b, (X + C (y b'))).natDegree ≤ r - 1 := by
  apply natDegree_sum_le_of_forall_le
  intro b _
  refine (natDegree_C_mul_le _ _).trans ((natDegree_prod_le _ _).trans ?_)
  simp [natDegree_X_add_C, Finset.card_erase_of_mem]

/-- At `x a` the numerator is the `a`-th entry of the product with `v`, times the common
denominator. -/
theorem eval_cauchy_numerator (hxy : ∀ a b, x a + y b ≠ 0) (v : Fin r → F) (a : Fin r) :
    (∑ b, C (v b) * ∏ b' ∈ Finset.univ.erase b, (X + C (y b'))).eval (x a) =
      (∏ b, (x a + y b)) * ((Matrix.of fun a b => (x a + y b)⁻¹) *ᵥ v) a := by
  simp only [eval_finset_sum, eval_mul, eval_C, eval_prod, eval_add, eval_X, mulVec,
    dotProduct, of_apply, Finset.mul_sum]
  refine Finset.sum_congr rfl fun b _ => ?_
  rw [← Finset.prod_erase_mul _ _ (Finset.mem_univ b)]
  field_simp [hxy a b]
  ring

/-- At `-y b` every term but the `b`-th has a zero factor. -/
theorem eval_neg_cauchy_numerator (v : Fin r → F) (b : Fin r) :
    (∑ b, C (v b) * ∏ b' ∈ Finset.univ.erase b, (X + C (y b'))).eval (-y b) =
      v b * ∏ b' ∈ Finset.univ.erase b, (-y b + y b') := by
  simp only [eval_finset_sum, eval_mul, eval_C, eval_prod, eval_add, eval_X]
  rw [Finset.sum_eq_single b]
  · intro b'' _ hb
    exact mul_eq_zero_of_right _ (Finset.prod_eq_zero (i := b)
      (Finset.mem_erase.mpr ⟨Ne.symm hb, Finset.mem_univ _⟩) (neg_add_cancel (y b)))
  · simp

/-- A Cauchy matrix `1 / (x a + y b)` with distinct `x`, distinct `y` and no vanishing
denominator is nonsingular. -/
theorem det_cauchy_ne_zero (hx : Function.Injective x) (hy : Function.Injective y)
    (hxy : ∀ a b, x a + y b ≠ 0) : (Matrix.of fun a b => (x a + y b)⁻¹).det ≠ 0 := by
  intro hdet
  obtain ⟨v, hv, hker⟩ := exists_mulVec_eq_zero_iff.mpr hdet
  obtain ⟨b, hb⟩ := Function.ne_iff.mp hv
  have hzero : ∑ b, C (v b) * ∏ b' ∈ Finset.univ.erase b, (X + C (y b')) = 0 := by
    refine eq_zero_of_natDegree_lt_card_of_eval_eq_zero _ hx (fun a => ?_) ?_
    · rw [eval_cauchy_numerator hxy, hker, Pi.zero_apply, mul_zero]
    · have hdeg := natDegree_cauchy_numerator y v
      have hr : 0 < r := b.pos
      simp only [Fintype.card_fin]
      omega
  have heval := eval_neg_cauchy_numerator (y := y) v b
  rw [hzero, eval_zero] at heval
  refine mul_ne_zero hb (Finset.prod_ne_zero_iff.mpr fun b' hb' => ?_) heval.symm
  rw [ne_eq, neg_add_eq_zero]
  exact fun h => (Finset.mem_erase.mp hb').1 (hy h).symm

end CauchyDet

/-! ## The source's `cauchy` -/

/-- `cauchy(rows, cols)`: entry `(i, j)` is `gf_div_table[256*1 + i ^ (rows + j)]`, with
the index parsed as C parses it. -/
def cauchy (rows cols : Nat) : Matrix (Fin rows) (Fin cols) Gf :=
  fun i j => gfDivTable ((256 * 1 + i.val) ^^^ (rows + j.val))

set_option maxRecDepth 4000 in
/-- Below `256` adding `256` sets a bit no byte has. -/
theorem add_256_eq_xor : ∀ z < 256, 256 + z = 256 ^^^ z := by decide

/-- While `rows + j < 256` the precedence does not matter: the entry is
`gf_div(1, i ^ (rows + j))`. -/
theorem cauchy_eq_gfDiv_one {rows cols : Nat} (h : rows + cols ≤ 256) (i : Fin rows)
    (j : Fin cols) : cauchy rows cols i j = gfDiv (Gf.ofNat 1) (Gf.ofNat (i.val ^^^ (rows + j.val))) := by
  have hi : i.val < 256 := by omega
  have hj : rows + j.val < 256 := by omega
  have hxor : i.val ^^^ (rows + j.val) < 256 := Nat.xor_lt_two_pow (n := 8) hi hj
  rw [cauchy, gfDiv, Gf.toNat_ofNat (by decide), Gf.toNat_ofNat hxor, add_256_eq_xor _ hi,
    Nat.xor_assoc, ← add_256_eq_xor _ hxor]

/-- Every square submatrix of `cauchy rows cols`, on any `r` distinct rows and any `r`
distinct columns, is nonsingular over GF(2^8), and `matrix_invert` returns `1` on it. -/
theorem cauchy_submatrix_det_ne_zero {rows cols r : Nat} (h : rows + cols ≤ 256)
    {rs : Fin r → Fin rows} {cs : Fin r → Fin cols} (hrs : Function.Injective rs)
    (hcs : Function.Injective cs) : (Matrix.of fun a b => cauchy rows cols (rs a) (cs b)).det ≠ 0 := by
  let x : Fin r → Gf := fun a => Gf.ofNat (rs a).val
  let y : Fin r → Gf := fun b => Gf.ofNat (rows + (cs b).val)
  have hx256 : ∀ a, (rs a).val < 256 := fun a => by omega
  have hy256 : ∀ b, rows + (cs b).val < 256 := fun b => by omega
  have hentry : (Matrix.of fun a b => cauchy rows cols (rs a) (cs b)) =
      Matrix.of fun a b => (x a + y b)⁻¹ := by
    ext a b
    rw [of_apply, of_apply, cauchy_eq_gfDiv_one h]
    congr 1
    exact Gf.toNat_inj (by rw [Gf.toNat_add, Gf.toNat_ofNat (hx256 a), Gf.toNat_ofNat (hy256 b),
      Gf.toNat_ofNat (Nat.xor_lt_two_pow (n := 8) (hx256 a) (hy256 b))])
  rw [hentry]
  refine det_cauchy_ne_zero (fun a a' he => hrs (Fin.ext ?_)) (fun b b' he => hcs (Fin.ext ?_))
    (fun a b he => ?_)
  · simpa [x, Gf.toNat_ofNat (hx256 _)] using congrArg Gf.toNat he
  · simpa [y, Gf.toNat_ofNat (hy256 _)] using congrArg Gf.toNat he
  · have := congrArg Gf.toNat he
    rw [Gf.toNat_add, Gf.toNat_ofNat (hx256 a), Gf.toNat_ofNat (hy256 b), Gf.toNat_zero,
      Nat.xor_eq_zero] at this
    omega

/-- `cauchy rows cols` for `rows + cols ≤ 256` is `gf_div(1, i ^ (rows + j))` entry by entry,
and `matrix_invert` returns `1` on each of its square submatrices. -/
theorem cauchy_correct {rows cols : Nat} (h : rows + cols ≤ 256) :
    (∀ i j, cauchy rows cols i j = gfDiv (Gf.ofNat 1) (Gf.ofNat (i.val ^^^ (rows + j.val)))) ∧
      ∀ (r : Nat) (rs : Fin r → Fin rows) (cs : Fin r → Fin cols), Function.Injective rs →
        Function.Injective cs →
          (matrixInvert (Matrix.of fun a b => cauchy rows cols (rs a) (cs b))).isSome := by
  refine ⟨cauchy_eq_gfDiv_one h, fun r rs cs hrs hcs => ?_⟩
  exact (matrixInvert_isSome_iff _).mpr (cauchy_submatrix_det_ne_zero h hrs hcs)

/-- `cauchy_correct` at the shape of the test suite, `cauchy(6, 4)`. -/
theorem cauchy_correct_six_four :
    6 + 4 ≤ 256 ∧
      ((∀ i j, cauchy 6 4 i j = gfDiv (Gf.ofNat 1) (Gf.ofNat (i.val ^^^ (6 + j.val)))) ∧
        ∀ (r : Nat) (rs : Fin r → Fin 6) (cs : Fin r → Fin 4), Function.Injective rs →
          Function.Injective cs →
            (matrixInvert (Matrix.of fun a b => cauchy 6 4 (rs a) (cs b))).isSome) :=
  ⟨by decide, cauchy_correct (by decide)⟩

/-! ## `cauchy_submatrix` -/

/-- `cauchy_submatrix(systematic_rows, rows, cols, row_list)`: the identity's rows below
`systematic_rows`, and from there on row `row_list[i]` of `cauchy(rows, cols)`, the index
parsed as in `cauchy`. -/
def cauchySubmatrix (systematicRows rows cols : Nat) (rowList : Fin rows → UInt8) :
    Matrix (Fin rows) (Fin cols) Gf :=
  fun i j => if i.val < systematicRows then (if i.val = j.val then 1 else 0)
    else gfDivTable ((256 * 1 + (rowList i).toNat) ^^^ (rows + j.val))

/-- The rows from `systematic_rows` on, moved to `Fin r`, are a square submatrix of
`cauchy n n`. -/
theorem det_cauchySubmatrix_block_ne_zero {s n : Nat} (hn : n ≤ 128) (rowList : Fin n → UInt8)
    (hrow : ∀ i : Fin n, s ≤ i.val → (rowList i).toNat < n)
    (hinj : ∀ i j : Fin n, s ≤ i.val → s ≤ j.val → rowList i = rowList j → i = j) :
    ((cauchySubmatrix s n n rowList).toSquareBlockProp fun i => s ≤ i.val).det ≠ 0 := by
  let e := (Fintype.equivFin {i : Fin n // s ≤ i.val}).symm
  let rs : Fin (Fintype.card {i : Fin n // s ≤ i.val}) → Fin n :=
    fun a => ⟨(rowList (e a)).toNat, hrow _ (e a).2⟩
  have hblock : ((cauchySubmatrix s n n rowList).toSquareBlockProp fun i => s ≤ i.val).submatrix
      e e = Matrix.of fun a b => cauchy n n (rs a) (e b).val := by
    ext a b
    simp [toSquareBlockProp_def, cauchySubmatrix, cauchy, rs, not_lt.mpr (e a).2]
  rw [← det_submatrix_equiv_self e, hblock]
  refine cauchy_submatrix_det_ne_zero (by omega) (fun a a' he => e.injective (Subtype.ext ?_))
    (fun b b' he => e.injective (Subtype.ext he))
  have hval : (rs a).val = (rs a').val := congrArg Fin.val he
  exact hinj _ _ (e a).2 (e a').2 (UInt8.toNat.inj hval)

/-- On `n ≤ 128` rows and columns, with each `row_list[i]` from `systematic_rows` on naming a
row of `cauchy(n, n)`, `cauchy_submatrix` is nonsingular, and `matrix_invert` returns `1` on
it, exactly when those entries of `row_list` are distinct.  The identity rows make the
determinant that of the Cauchy rows on the columns from `systematic_rows` on; the entries of
`row_list` below `systematic_rows` are never read. -/
theorem cauchySubmatrix_invertible_iff {s n : Nat} (hn : n ≤ 128) (rowList : Fin n → UInt8)
    (hrow : ∀ i : Fin n, s ≤ i.val → (rowList i).toNat < n) :
    ((cauchySubmatrix s n n rowList).det ≠ 0 ↔
        ∀ i j : Fin n, s ≤ i.val → s ≤ j.val → rowList i = rowList j → i = j) ∧
      ((matrixInvert (cauchySubmatrix s n n rowList)).isSome ↔
        ∀ i j : Fin n, s ≤ i.val → s ≤ j.val → rowList i = rowList j → i = j) := by
  have hdet : (cauchySubmatrix s n n rowList).det ≠ 0 ↔
      ∀ i j : Fin n, s ≤ i.val → s ≤ j.val → rowList i = rowList j → i = j := by
    refine ⟨fun hdet i j hi hj he => by_contra fun hne => hdet (det_zero_of_row_eq hne
      (funext fun k => by simp [cauchySubmatrix, not_lt.mpr hi, not_lt.mpr hj, he])), fun hinj => ?_⟩
    have hid : ((cauchySubmatrix s n n rowList).toSquareBlockProp fun i => ¬s ≤ i.val) = 1 := by
      ext ⟨i, hi⟩ ⟨j, hj⟩
      simp [toSquareBlockProp_def, cauchySubmatrix, not_le.mp hi, one_apply, Fin.ext_iff]
    rw [twoBlockTriangular_det _ (fun i => s ≤ i.val) fun i hi j hj => by
      simp [cauchySubmatrix, not_le.mp hi, Fin.ext_iff]; omega, hid, det_one, mul_one]
    exact det_cauchySubmatrix_block_ne_zero hn rowList hrow hinj
  exact ⟨hdet, (matrixInvert_isSome_iff _).trans hdet⟩

/-- Two identity rows, then rows `1` and `3` of `cauchy(4, 4)`: `matrix_invert` returns `1`. -/
theorem cauchySubmatrix_invertible_iff_four :
    (matrixInvert (cauchySubmatrix 2 4 4 ![0, 0, 1, 3])).isSome :=
  (cauchySubmatrix_invertible_iff (s := 2) (by decide) ![0, 0, 1, 3] (by decide)).2.mpr
    (by decide)

end Kelp.Rs
