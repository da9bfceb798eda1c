import Kelp.Rs.Pow
import Kelp.Rs.MatrixInvert
import Mathlib.LinearAlgebra.Vandermonde

/-!
# `vandermonde`

`vandermonde(rows, cols)` of `rs.c` fills a `rows × cols` matrix with `1` in the first row
and column and `gf_exp[(i * j) % 255]` elsewhere.  Every entry is the power `(2^i)^j` of
the generator's `i`-th power (`vandermonde_apply`), so row `i` is the row of the point
`2^i` in a Vandermonde matrix.  For `rows ≤ 255` the points of distinct rows are distinct,
and any `K` distinct rows of `vandermonde(N, K)` form a nonsingular matrix, which
`matrix_invert` inverts (`vandermonde_rows_invertible`).

Rows and columns taken together need not keep that: the `2 × 2` minor on rows `i₁ < i₂` and
columns `j₁ < j₂` is singular exactly when `255` divides `(i₂ - i₁) (j₂ - j₁)`
(`vandermonde_minor`).  `vandermonde_submatrix(rows, cols, row_list)` tests the position `i == 0`
rather than the row `row_list[i]`, so its first row is the point `1` whatever `row_list[0]`
is; it is nonsingular exactly when `0, row_list[1], …` are distinct modulo 255
(`vandermondeSubmatrix_invertible_iff`).

Both functions start with `malloc(rows * cols * sizeof(gf))`, an `int` product, and
`vandermonde_submatrix` multiplies `row_list[i] * j` in `int` as well.  `vandermondeCall` and
`vandermondeSubmatrixCall` are the calls, undefined where a product overflows, and the two
results about minors and submatrices hold at sizes where `rows * cols` is an `int`.
-/

namespace Kelp.Rs

/-- `vandermonde(rows, cols)`: entry `(i, j)` is `1` when `i == 0 || j == 0`, and
`gf_exp[(i * j) % 255]` otherwise. -/
def vandermonde (rows cols : Nat) : Matrix (Fin rows) (Fin cols) Gf :=
  fun i j => if i.val = 0 ∨ j.val = 0 then 1 else Gf.ofNat (gfExp (i.val * j.val % 255))

/-- `vandermonde(rows, cols)` as a call: `malloc(rows * cols * sizeof(gf))` multiplies
`rows * cols` as `int`, undefined where it overflows.  Past it every index `i * cols + j` and
product `i * j` lies below `rows * cols`, and the matrix is `vandermonde`.  A failed `malloc`
is left out. -/
def vandermondeCall (rows cols : Nat) : CResult (Matrix (Fin rows) (Fin cols) Gf) :=
  (intMul rows cols).elim .undefined fun _ => .ret (vandermonde rows cols)

theorem vandermondeCall_of_inInt {rows cols : Nat} (h : InInt (rows * cols)) :
    vandermondeCall rows cols = .ret (vandermonde rows cols) := by
  rw [vandermondeCall, intMul_of_inInt h, Option.elim_some]

/-- Entry `(i, j)` is the `j`-th power of `2^i`; the first row and column are the powers
`(2^0)^j` and `(2^i)^0`. -/
theorem vandermonde_apply {rows cols : Nat} (i : Fin rows) (j : Fin cols) :
    vandermonde rows cols i j = Gf.ofNat (gfExp i.val) ^ j.val := by
  unfold vandermonde
  split_ifs with h
  · rcases h with h | h
    · rw [h, show Gf.ofNat (gfExp 0) = 1 from rfl, one_pow]
    · rw [h, pow_zero]
  · rw [ofNat_gfExp_pow, gfExp_mod]

/-- Below `255` distinct exponents give distinct powers of the generator. -/
theorem ofNat_gfExp_injective {N : Nat} (hN : N ≤ 255) :
    Function.Injective fun i : Fin N => Gf.ofNat (gfExp i.val) := fun i i' h => by
  have h' := congrArg Gf.toNat h
  simp only [Gf.toNat_ofNat (gfExp_lt _)] at h'
  exact Fin.ext (gfExp_inj (by omega) (by omega) h')

/-- For `N ≤ 255`, any `K` distinct rows of `vandermonde(N, K)` form a nonsingular matrix, and
`matrix_invert` returns `1` on it. -/
theorem vandermonde_rows_invertible {N K : Nat} (hN : N ≤ 255) (rows : Fin K → Fin N)
    (hrows : Function.Injective rows) :
    (Matrix.of fun a b => vandermonde N K (rows a) b).det ≠ 0 ∧
      (matrixInvert (Matrix.of fun a b => vandermonde N K (rows a) b)).isSome := by
  have hsub : (Matrix.of fun a b => vandermonde N K (rows a) b) =
      Matrix.vandermonde fun a => Gf.ofNat (gfExp (rows a).val) := by
    ext a b
    exact vandermonde_apply (rows a) b
  have hdet : (Matrix.of fun a b => vandermonde N K (rows a) b).det ≠ 0 := by
    rw [hsub, Matrix.det_vandermonde_ne_zero_iff]
    exact (ofNat_gfExp_injective hN).comp hrows
  exact ⟨hdet, (matrixInvert_isSome_iff _).mpr hdet⟩

/-- The shape of the disabled test `test_vandermonde_submatrix_invertibility`,
`vandermonde(6, 4)`, rows `1, 3, 4, 5`. -/
theorem vandermonde_rows_invertible_six_four :
    6 ≤ 255 ∧ Function.Injective (![1, 3, 4, 5] : Fin 4 → Fin 6) ∧
      ((Matrix.of fun a b => vandermonde 6 4 ((![1, 3, 4, 5] : Fin 4 → Fin 6) a) b).det ≠ 0 ∧
        (matrixInvert
          (Matrix.of fun a b => vandermonde 6 4 ((![1, 3, 4, 5] : Fin 4 → Fin 6) a) b)).isSome) := by
  have hinj : Function.Injective (![1, 3, 4, 5] : Fin 4 → Fin 6) := by decide
  exact ⟨by decide, hinj, vandermonde_rows_invertible (by decide) _ hinj⟩

/-! ## Singular minors -/

/-- Two powers of the generator are equal exactly when their exponents agree modulo 255. -/
theorem ofNat_gfExp_eq_iff {a b : Nat} :
    Gf.ofNat (gfExp a) = Gf.ofNat (gfExp b) ↔ a % 255 = b % 255 := by
  refine ⟨fun h => ?_, fun h => congrArg Gf.ofNat (gfExp_congr h)⟩
  have h' := congrArg Gf.toNat h
  rw [Gf.toNat_ofNat (gfExp_lt a), Gf.toNat_ofNat (gfExp_lt b), ← gfExp_mod a, ← gfExp_mod b] at h'
  exact gfExp_inj (Nat.mod_lt _ (by decide)) (Nat.mod_lt _ (by decide)) h'

/-- For `rows * cols` an `int`, `vandermonde(rows, cols)` returns `vandermonde`, and its
`2 × 2` minor on rows `i₁ < i₂` and columns `j₁ < j₂` is singular, and `matrix_invert` fails
on it, exactly when `255` divides `(i₂ - i₁) (j₂ - j₁)`: the two products on its diagonals
are `2^(i₁ j₁ + i₂ j₂)` and `2^(i₁ j₂ + i₂ j₁)`. -/
theorem vandermonde_minor {rows cols : Nat} (hsize : InInt (rows * cols)) (i₁ i₂ : Fin rows)
    (j₁ j₂ : Fin cols) (hi : i₁ < i₂) (hj : j₁ < j₂) :
    vandermondeCall rows cols = .ret (vandermonde rows cols) ∧
      ((Matrix.of fun a b => vandermonde rows cols (![i₁, i₂] a) (![j₁, j₂] b)).det = 0 ↔
        255 ∣ (i₂.val - i₁.val) * (j₂.val - j₁.val)) ∧
      matrixInvertCall (Matrix.of fun a b => vandermonde rows cols (![i₁, i₂] a) (![j₁, j₂] b)) =
        .ret (matrixInvert
          (Matrix.of fun a b => vandermonde rows cols (![i₁, i₂] a) (![j₁, j₂] b))) ∧
      ((matrixInvert
          (Matrix.of fun a b => vandermonde rows cols (![i₁, i₂] a) (![j₁, j₂] b))).isSome ↔
        ¬ 255 ∣ (i₂.val - i₁.val) * (j₂.val - j₁.val)) := by
  have hdet : (Matrix.of fun a b => vandermonde rows cols (![i₁, i₂] a) (![j₁, j₂] b)).det =
      Gf.ofNat (gfExp (i₁.val * j₁.val + i₂.val * j₂.val)) -
        Gf.ofNat (gfExp (i₁.val * j₂.val + i₂.val * j₁.val)) := by
    rw [Matrix.det_fin_two]
    simp only [Matrix.of_apply, Matrix.cons_val_zero, Matrix.cons_val_one, Matrix.head_cons,
      vandermonde_apply, ofNat_gfExp_pow, ofNat_gfExp_mul]
  have harith : i₁.val * j₁.val + i₂.val * j₂.val =
      i₁.val * j₂.val + i₂.val * j₁.val + (i₂.val - i₁.val) * (j₂.val - j₁.val) := by
    obtain ⟨d, hd⟩ : ∃ d, i₂.val = i₁.val + d := ⟨i₂.val - i₁.val, by omega⟩
    obtain ⟨e, he⟩ : ∃ e, j₂.val = j₁.val + e := ⟨j₂.val - j₁.val, by omega⟩
    rw [hd, he, Nat.add_sub_cancel_left, Nat.add_sub_cancel_left]
    ring
  have hiff : Gf.ofNat (gfExp (i₁.val * j₁.val + i₂.val * j₂.val)) -
      Gf.ofNat (gfExp (i₁.val * j₂.val + i₂.val * j₁.val)) = 0 ↔
        255 ∣ (i₂.val - i₁.val) * (j₂.val - j₁.val) := by
    rw [sub_eq_zero, ofNat_gfExp_eq_iff, harith]
    omega
  rw [matrixInvert_isSome_iff, hdet]
  exact ⟨vandermondeCall_of_inInt hsize, hiff,
    matrixInvertCall_of_inInt _ (by unfold InInt; omega), not_congr hiff⟩

/-- Rows `1, 16` and columns `1, 18` of `vandermonde(17, 19)`: `255` divides `15 * 17`, and
`matrix_invert` fails. -/
theorem vandermonde_minor_seventeen :
    InInt ((17 : Nat) * (19 : Nat)) ∧ (1 : Fin 17) < 16 ∧ (1 : Fin 19) < 18 ∧
      (Matrix.of fun a b => vandermonde 17 19 (![1, 16] a) (![1, 18] b)).det = 0 ∧
      (matrixInvert (Matrix.of fun a b => vandermonde 17 19 (![1, 16] a) (![1, 18] b))).isSome =
        false := by
  have hsize : InInt ((17 : Nat) * (19 : Nat)) := by unfold InInt; omega
  have h := vandermonde_minor hsize (1 : Fin 17) 16 (1 : Fin 19) 18 (by decide) (by decide)
  have hdvd : 255 ∣ ((16 : Fin 17).val - (1 : Fin 17).val) * ((18 : Fin 19).val - (1 : Fin 19).val) := by
    decide
  exact ⟨hsize, by decide, by decide, h.2.1.mpr hdvd,
    by simpa using mt h.2.2.2.mp (not_not.mpr hdvd)⟩

/-! ## `vandermonde_submatrix` -/

/-- `vandermonde_submatrix(rows, cols, row_list)`: entry `(i, j)` is `1` when
`i == 0 || j == 0`, and `gf_exp[(row_list[i] * j) % 255]` otherwise. -/
def vandermondeSubmatrix (rows cols : Nat) (rowList : Fin rows → UInt8) :
    Matrix (Fin rows) (Fin cols) Gf :=
  fun i j => if i.val = 0 ∨ j.val = 0 then 1
    else Gf.ofNat (gfExp ((rowList i).toNat * j.val % 255))

/-- `vandermonde_submatrix(rows, cols, row_list)` as a call: `rows * cols` and each
`row_list[i] * j` for `i, j ≥ 1` are `int` products, undefined where one overflows; past them
the matrix is `vandermondeSubmatrix`.  A failed `malloc` is left out. -/
def vandermondeSubmatrixCall (rows cols : Nat) (rowList : Fin rows → UInt8) :
    CResult (Matrix (Fin rows) (Fin cols) Gf) :=
  if InInt (rows * cols) ∧ ∀ (i : Fin rows) (j : Fin cols), i.val ≠ 0 → j.val ≠ 0 →
      InInt ((rowList i).toNat * j.val) then .ret (vandermondeSubmatrix rows cols rowList)
  else .undefined

/-- A square `n × n` call with `n * n` an `int` has every product `row_list[i] * j` below
`255 * 46340`. -/
theorem vandermondeSubmatrixCall_of_inInt {n : Nat} (rowList : Fin n → UInt8)
    (hn : InInt (n * n)) :
    vandermondeSubmatrixCall n n rowList = .ret (vandermondeSubmatrix n n rowList) := by
  have hn' : n ≤ 46340 := by
    by_contra h
    have : (46341 * 46341 : Int) ≤ n * n := by
      exact_mod_cast Nat.mul_le_mul (not_le.mp h) (not_le.mp h)
    unfold InInt at hn
    omega
  refine if_pos ⟨hn, fun i j _ _ => ?_⟩
  have : (rowList i).toNat * j.val ≤ 255 * 46340 :=
    Nat.mul_le_mul (Nat.le_of_lt_succ (rowList i).toNat_lt_size) (by omega)
  unfold InInt
  omega

/-- The exponent of the point of row `i`: `row_list[i]`, except in row `0`, which the test
`i == 0` makes the row of the point `1` whatever `row_list[0]` holds. -/
def submatrixExponent {rows : Nat} (rowList : Fin rows → UInt8) (i : Fin rows) : Nat :=
  if i.val = 0 then 0 else (rowList i).toNat

/-- `vandermonde_submatrix` is the Vandermonde matrix of the points `2^e`, `e` the exponents
`submatrixExponent`. -/
theorem vandermondeSubmatrix_eq {n : Nat} (rowList : Fin n → UInt8) :
    vandermondeSubmatrix n n rowList =
      Matrix.vandermonde fun i => Gf.ofNat (gfExp (submatrixExponent rowList i)) := by
  ext i j
  rw [Matrix.vandermonde_apply, ofNat_gfExp_pow, vandermondeSubmatrix, submatrixExponent]
  by_cases hi : i.val = 0
  · rw [if_pos (Or.inl hi), if_pos hi, Nat.zero_mul]
    rfl
  · rw [if_neg hi]
    split_ifs with hj
    · rw [hj.resolve_left hi, Nat.mul_zero]
      rfl
    · rw [gfExp_mod]

/-- For `n * n` an `int`, `vandermonde_submatrix(n, n, row_list)` returns
`vandermondeSubmatrix`, which is nonsingular, and `matrix_invert` inverts it, exactly when
its exponents `0, row_list[1], …, row_list[n - 1]` are distinct modulo 255: `row_list[0]` is
never read, and a `0` further down repeats the first row. -/
theorem vandermondeSubmatrix_invertible_iff {n : Nat} (rowList : Fin n → UInt8)
    (hn : InInt (n * n)) :
    vandermondeSubmatrixCall n n rowList = .ret (vandermondeSubmatrix n n rowList) ∧
      ((vandermondeSubmatrix n n rowList).det ≠ 0 ↔
        Function.Injective fun i => submatrixExponent rowList i % 255) ∧
      matrixInvertCall (vandermondeSubmatrix n n rowList) =
        .ret (matrixInvert (vandermondeSubmatrix n n rowList)) ∧
      ((matrixInvert (vandermondeSubmatrix n n rowList)).isSome ↔
        Function.Injective fun i => submatrixExponent rowList i % 255) := by
  have hdet : (vandermondeSubmatrix n n rowList).det ≠ 0 ↔
      Function.Injective fun i => submatrixExponent rowList i % 255 := by
    rw [vandermondeSubmatrix_eq, Matrix.det_vandermonde_ne_zero_iff]
    exact ⟨fun h _ _ he => h (ofNat_gfExp_eq_iff.mpr he),
      fun h _ _ he => h (ofNat_gfExp_eq_iff.mp he)⟩
  exact ⟨vandermondeSubmatrixCall_of_inInt rowList hn, hdet, matrixInvertCall_of_inInt _ hn,
    (matrixInvert_isSome_iff _).trans hdet⟩

/-- Rows `3, 0` of `vandermonde` are distinct, but `vandermonde_submatrix` with
`row_list = {3, 0}` has two rows of ones, and `matrix_invert` fails on it. -/
theorem vandermondeSubmatrix_invertible_iff_three_zero :
    InInt ((2 : Nat) * (2 : Nat)) ∧
      (matrixInvert (vandermondeSubmatrix 2 2 ![3, 0])).isSome = false := by
  have hn : InInt ((2 : Nat) * (2 : Nat)) := by unfold InInt; omega
  have hinj : ¬ Function.Injective fun i => submatrixExponent (![3, 0] : Fin 2 → UInt8) i % 255 :=
    fun h => absurd (@h 0 1 (by decide)) (by decide)
  exact ⟨hn, by simpa using mt (vandermondeSubmatrix_invertible_iff ![3, 0] hn).2.2.2.mp hinj⟩

end Kelp.Rs
