import Kelp.CInt
import Kelp.Rs.Field
import Mathlib.LinearAlgebra.Matrix.Determinant.Basic
import Mathlib.LinearAlgebra.Matrix.ToLinearEquiv
import Mathlib.LinearAlgebra.Matrix.NonsingularInverse

/-!
# `matrix_invert` and `matrix_multiply`

`matrix_invert` in `rs.c` inverts a square matrix in place by Gauss–Jordan elimination.
The model keeps the two buffers of the source, the matrix under reduction and `inverse`,
and runs the outer loop over the columns one column at a time (`invertUpTo`).  Each column
is the three phases of the source:

* the pivot search (`pivot`): a zero diagonal entry is replaced by swapping in the first
  row below it with a nonzero entry in the column; with none, the source returns `0`;
* the rescale (`scale`): skipped when the pivot is already `1`, otherwise the row is
  multiplied by `gf_div_table[256*1 + pivot]`;
* the elimination (`eliminate`): every other row with a nonzero entry in the column gets
  that entry times the pivot row added to it.

The inner loops over `k` only touch one column of the rows they update, so they are
modelled as the row operations `swapRows`, `scaleRow` and `addRow`.

The function's first line allocates `inverse` with `malloc(n * n * sizeof(gf))`, and `n * n`
is an `int` product: from `n = 46341` on it overflows and the call is undefined.  Below that
every index `i * n + k` the loops compute is below `n * n`.  So `matrixInvert` models the
function from the line after the allocation, and `matrixInvertCall` the whole call, which is
`matrixInvert` exactly when `n * n` is an `int`.

The main result is `matrixInvert_correct`: for `n * n` an `int`, the source returns `1`
exactly when the determinant over GF(2^8) is nonzero, and then the buffer holds a two-sided
inverse under `matrix_multiply`.  The proof carries the invariant `InvertInv` along the outer loop: the
inverse buffer times the input is the working matrix, the inverse buffer has a nonzero
determinant, and the columns already processed are unit columns.  A failed pivot search
then exhibits a nonzero vector in the kernel of the working matrix.

The assertions of `test_matrix_invert` follow for every size and every matrix
(`matrixInvert_twice`): `is_identity` holds of both products with the returned inverse, and
inverting that inverse gives back the input entry for entry, since an inverse is unique.
-/

namespace Kelp.Rs

open Matrix

variable {n : Nat}

/-! ## The model -/

/-- `matrix_multiply(a, b, result, n)`: entry `(i, j)` starts at `0` and accumulates
`gf_mul(a[i][k], b[k][j])` with `^=` for `k = 0, …, n - 1`. -/
def matrixMultiply (a b : Matrix (Fin n) (Fin n) Gf) : Matrix (Fin n) (Fin n) Gf :=
  fun i j => (List.finRange n).foldl (fun acc k => acc ^^^ gfMul (a i k) (b k j)) 0

/-- The two buffers of `matrix_invert`: `matrix`, under reduction, and `inverse`. -/
structure InvertState (n : Nat) where
  matrix : Matrix (Fin n) (Fin n) Gf
  inverse : Matrix (Fin n) (Fin n) Gf

/-- The swap loop over `k`: rows `i` and `j` exchange places. -/
def swapRows (m : Matrix (Fin n) (Fin n) Gf) (i j : Fin n) : Matrix (Fin n) (Fin n) Gf :=
  fun r => if r = i then m j else if r = j then m i else m r

/-- The rescale loop: `matrix[i][j] = gf_mul(matrix[i][j], temp)` for every `j`. -/
def scaleRow (m : Matrix (Fin n) (Fin n) Gf) (i : Fin n) (t : Gf) : Matrix (Fin n) (Fin n) Gf :=
  fun r => if r = i then fun c => gfMul (m i c) t else m r

/-- The elimination loop over `k`: `matrix[j][k] ^= gf_mul(temp, matrix[i][k])`. -/
def addRow (m : Matrix (Fin n) (Fin n) Gf) (i j : Fin n) (t : Gf) : Matrix (Fin n) (Fin n) Gf :=
  fun r => if r = j then fun c => m j c ^^^ gfMul t (m i c) else m r

/-- The pivot search: the first row `j > i` whose entry in column `i` is nonzero. -/
def findPivot (m : Matrix (Fin n) (Fin n) Gf) (i : Fin n) : Option (Fin n) :=
  (List.finRange n).find? fun j => decide (i < j ∧ m j i ≠ 0)

/-- Find the pivot of column `i`: keep row `i` when its diagonal entry is nonzero,
otherwise swap in the row `findPivot` returns in both buffers.  `none` is the early
`return 0`. -/
def pivot (s : InvertState n) (i : Fin n) : Option (InvertState n) :=
  if s.matrix i i = 0 then
    (findPivot s.matrix i).map fun j => ⟨swapRows s.matrix i j, swapRows s.inverse i j⟩
  else some s

/-- Scale row `i` of both buffers by `gf_div_table[256*1 + matrix[i][i]]` unless the pivot
is already `1`. -/
def scale (s : InvertState n) (i : Fin n) : InvertState n :=
  if s.matrix i i ≠ 1 then
    let t := gfDivTable (256 * 1 + (s.matrix i i).toNat)
    ⟨scaleRow s.matrix i t, scaleRow s.inverse i t⟩
  else s

/-- One pass of the elimination loop, for row `j`. -/
def eliminateRow (i : Fin n) (s : InvertState n) (j : Fin n) : InvertState n :=
  if i ≠ j ∧ s.matrix j i ≠ 0 then
    let t := s.matrix j i
    ⟨addRow s.matrix i j t, addRow s.inverse i j t⟩
  else s

/-- The elimination loop over `j = 0, …, n - 1`. -/
def eliminate (s : InvertState n) (i : Fin n) : InvertState n :=
  (List.finRange n).foldl (eliminateRow i) s

/-- One iteration of the outer loop, for column `i`. -/
def invertStep (s : InvertState n) (i : Fin n) : Option (InvertState n) :=
  (pivot s i).map fun s => eliminate (scale s i) i

/-- The state after the first `k` iterations of the outer loop; `inverse` starts as the
identity. -/
def invertUpTo (a : Matrix (Fin n) (Fin n) Gf) : Nat → Option (InvertState n)
  | 0 => some ⟨a, 1⟩
  | k + 1 => (invertUpTo a k).bind fun s => if h : k < n then invertStep s ⟨k, h⟩ else some s

/-- `matrix_invert(matrix, n)` from the line after the allocation of `inverse`: `some` of the
inverse that the source copies into `matrix` when it returns `1`, `none` when it returns `0`. -/
def matrixInvert (a : Matrix (Fin n) (Fin n) Gf) : Option (Matrix (Fin n) (Fin n) Gf) :=
  (invertUpTo a n).map InvertState.inverse

/-- `matrix_invert(matrix, n)` as a call: `malloc(n * n * sizeof(gf))` multiplies `n * n` as
`int`, which is undefined where it overflows; past it the call is `matrixInvert`. -/
def matrixInvertCall (a : Matrix (Fin n) (Fin n) Gf) :
    CResult (Option (Matrix (Fin n) (Fin n) Gf)) :=
  (intMul n n).elim .undefined fun _ => .ret (matrixInvert a)

theorem matrixInvertCall_of_inInt (a : Matrix (Fin n) (Fin n) Gf) (hn : InInt (n * n)) :
    matrixInvertCall a = .ret (matrixInvert a) := by
  rw [matrixInvertCall, intMul_of_inInt hn, Option.elim_some]

theorem matrixInvertCall_of_not_inInt (a : Matrix (Fin n) (Fin n) Gf) (hn : ¬ InInt (n * n)) :
    matrixInvertCall a = .undefined := by
  rw [matrixInvertCall, intMul_of_not_inInt hn, Option.elim_none]

/-! ## The row operations over the field -/

section RowOps

variable (m a : Matrix (Fin n) (Fin n) Gf) (i j : Fin n) (t : Gf)

theorem swapRows_eq_submatrix : swapRows m i j = m.submatrix (Equiv.swap i j) id := by
  ext r c
  simp only [swapRows, submatrix_apply, id, Equiv.swap_apply_def]
  split_ifs <;> simp_all

theorem scaleRow_eq_updateRow : scaleRow m i t = m.updateRow i (t • m i) := by
  ext r c
  by_cases h : r = i <;> simp [scaleRow, h, gfMul_eq_mul, mul_comm]

theorem addRow_eq_updateRow : addRow m i j t = m.updateRow j (m j + t • m i) := by
  ext r c
  by_cases h : r = j <;> simp [addRow, h, gfMul_eq_mul, xor_eq_add]

/-- Swapping rows commutes with multiplying on the right. -/
theorem swapRows_mul : swapRows (m * a) i j = swapRows m i j * a := by
  simp only [swapRows_eq_submatrix]
  ext r c
  simp [mul_apply]

/-- Scaling a row commutes with multiplying on the right. -/
theorem scaleRow_mul : scaleRow (m * a) i t = scaleRow m i t * a := by
  ext r c
  by_cases h : r = i <;>
    simp [scaleRow, h, gfMul_eq_mul, mul_apply, Finset.sum_mul, mul_right_comm]

/-- Adding a multiple of a row commutes with multiplying on the right. -/
theorem addRow_mul : addRow (m * a) i j t = addRow m i j t * a := by
  ext r c
  by_cases h : r = j <;>
    simp [addRow, h, gfMul_eq_mul, xor_eq_add, mul_apply, Finset.mul_sum, add_mul,
      Finset.sum_add_distrib, mul_assoc]

variable {i j}

theorem det_swapRows (hij : i ≠ j) : (swapRows m i j).det = -m.det := by
  rw [swapRows_eq_submatrix, det_permute, Equiv.Perm.sign_swap hij]
  simp

theorem det_scaleRow : (scaleRow m i t).det = t * m.det := by
  rw [scaleRow_eq_updateRow, det_updateRow_smul, updateRow_eq_self]

theorem det_addRow (hij : i ≠ j) : (addRow m i j t).det = m.det := by
  rw [addRow_eq_updateRow, det_updateRow_add_smul_self m (Ne.symm hij)]

end RowOps

/-! ## The pivot search and the rescale -/

/-- What holds after the first `k` columns of the outer loop: `inverse * a = matrix`, the
inverse buffer is nonsingular, and the columns below `k` are unit columns. -/
structure InvertInv (a : Matrix (Fin n) (Fin n) Gf) (k : Nat) (s : InvertState n) : Prop where
  inverse_mul : s.inverse * a = s.matrix
  det_inverse : s.inverse.det ≠ 0
  unit_column : ∀ c : Fin n, c.val < k → ∀ r, s.matrix r c = (1 : Matrix (Fin n) (Fin n) Gf) r c

variable {a : Matrix (Fin n) (Fin n) Gf} {s s' : InvertState n} {i : Fin n}

theorem invertInv_start (a : Matrix (Fin n) (Fin n) Gf) : InvertInv a 0 ⟨a, 1⟩ :=
  ⟨Matrix.one_mul a, by simp, fun _ hc => absurd hc (Nat.not_lt_zero _)⟩

theorem findPivot_some {m : Matrix (Fin n) (Fin n) Gf} {j : Fin n} (h : findPivot m i = some j) :
    i < j ∧ m j i ≠ 0 := by
  simpa using List.find?_some h

theorem findPivot_none {m : Matrix (Fin n) (Fin n) Gf} (h : findPivot m i = none) :
    ∀ j, i < j → m j i = 0 := by
  intro j hj
  have := List.find?_eq_none.mp h j (List.mem_finRange j)
  simp only [decide_eq_true_eq, not_and, not_not] at this
  exact this hj

/-- A successful pivot search keeps the invariant and leaves a nonzero pivot. -/
theorem InvertInv.of_pivot (hs : InvertInv a i s) (h : pivot s i = some s') :
    InvertInv a i s' ∧ s'.matrix i i ≠ 0 := by
  unfold Kelp.Rs.pivot at h
  split at h
  · obtain ⟨j, hj, rfl⟩ := Option.map_eq_some'.mp h
    obtain ⟨hij, hji⟩ := findPivot_some hj
    refine ⟨⟨by rw [← swapRows_mul, hs.inverse_mul], ?_, ?_⟩, by simpa [swapRows] using hji⟩
    · rw [det_swapRows s.inverse hij.ne]
      exact neg_ne_zero.mpr hs.det_inverse
    · intro c hc r
      have hic := hs.unit_column c hc i
      have hjc := hs.unit_column c hc j
      have hci : i ≠ c := (show c < i from hc).ne'
      have hcj : j ≠ c := (lt_trans (show c < i from hc) hij).ne'
      simp only [swapRows]
      split_ifs with h1 h2
      · subst h1; rw [hjc]; simp [hcj, hci]
      · subst h2; rw [hic]; simp [hcj, hci]
      · exact hs.unit_column c hc r
  · cases h
    exact ⟨hs, ‹_›⟩

/-- A failed pivot search means the input is singular: column `i` of the working matrix
is a combination of the unit columns before it. -/
theorem InvertInv.det_eq_zero_of_pivot (hs : InvertInv a i s) (h : pivot s i = none) :
    a.det = 0 := by
  unfold Kelp.Rs.pivot at h
  split at h
  · rename_i hii
    have hzero := findPivot_none (Option.map_eq_none'.mp h)
    let u : Fin n → Gf := fun c => if c < i then s.matrix c i else 0
    have hu : ∀ r, (s.matrix *ᵥ u) r = if r < i then s.matrix r i else 0 := by
      intro r
      rw [mulVec, dotProduct, Finset.sum_eq_single r]
      · by_cases hr : r < i
        · simp [u, hr, hs.unit_column r hr r]
        · simp [u, hr]
      · intro c _ hcr
        by_cases hc : c < i
        · simp [u, hc, hs.unit_column c hc r, Ne.symm hcr]
        · simp [u, hc]
      · simp
    have hker : s.matrix *ᵥ (u + Pi.single i 1) = 0 := by
      ext r
      rw [mulVec_add, Pi.add_apply, hu, mulVec_single]
      rcases lt_trichotomy r i with hr | rfl | hr
      · simp [hr]
      · simp [hii]
      · simp [not_lt.mpr hr.le, hzero r hr]
    have hv : u + Pi.single i 1 ≠ 0 := fun hv => by
      have := congrFun hv i
      simp [u] at this
    have hdet : s.matrix.det = 0 := exists_mulVec_eq_zero_iff.mp ⟨_, hv, hker⟩
    rw [← hs.inverse_mul, det_mul] at hdet
    exact (mul_eq_zero.mp hdet).resolve_left hs.det_inverse
  · cases h

/-- The rescale keeps the invariant, makes the pivot `1` and touches row `i` only. -/
theorem InvertInv.of_scale (hs : InvertInv a i s) (h0 : s.matrix i i ≠ 0) :
    InvertInv a i (scale s i) ∧ (scale s i).matrix i i = 1 ∧
      ∀ r, r ≠ i → (scale s i).matrix r = s.matrix r := by
  unfold Kelp.Rs.scale
  split
  · rw [gfDivTable_one]
    refine ⟨⟨by rw [← scaleRow_mul, hs.inverse_mul], ?_, ?_⟩, ?_, fun r hr => by simp [scaleRow, hr]⟩
    · rw [det_scaleRow]
      exact mul_ne_zero (inv_ne_zero h0) hs.det_inverse
    · intro c hc r
      by_cases hr : r = i
      · subst hr
        have hic := hs.unit_column c hc r
        have hci : r ≠ c := fun e => by subst e; omega
        simp [scaleRow, gfMul_eq_mul, hic, hci]
      · simp [scaleRow, hr, hs.unit_column c hc r]
    · simp [scaleRow, gfMul_eq_mul, h0]
  · exact ⟨hs, not_not.mp ‹_›, fun _ _ => rfl⟩

/-! ## The elimination -/

/-- What each pass of the elimination loop keeps, for pivot row `p` in row `i`. -/
structure ElimInv (a : Matrix (Fin n) (Fin n) Gf) (i : Fin n) (p : Fin n → Gf)
    (s : InvertState n) : Prop where
  inverse_mul : s.inverse * a = s.matrix
  det_inverse : s.inverse.det ≠ 0
  pivot_row : s.matrix i = p
  unit_column : ∀ c : Fin n, c < i → ∀ r, s.matrix r c = (1 : Matrix (Fin n) (Fin n) Gf) r c

variable {p : Fin n → Gf}

/-- One pass for row `j` keeps `ElimInv`, clears entry `(j, i)`, and leaves the other rows
alone. -/
theorem ElimInv.of_eliminateRow (hs : ElimInv a i p s) (hp : p i = 1) (j : Fin n) :
    ElimInv a i p (eliminateRow i s j) ∧ (j ≠ i → (eliminateRow i s j).matrix j i = 0) ∧
      ∀ r, r ≠ j → (eliminateRow i s j).matrix r = s.matrix r := by
  unfold Kelp.Rs.eliminateRow
  split
  · rename_i hj
    refine ⟨⟨by rw [← addRow_mul, hs.inverse_mul], by rw [det_addRow _ _ hj.1]; exact hs.det_inverse,
      by simp [addRow, hj.1, hs.pivot_row], ?_⟩, ?_, fun r hr => by simp [addRow, hr]⟩
    · intro c hc r
      have hic : s.matrix i c = 0 := by rw [hs.unit_column c hc i]; simp [(show c < i from hc).ne']
      by_cases hr : r = j
      · subst hr; simp [addRow, hic, gfMul_eq_mul, xor_eq_add, hs.unit_column c hc r]
      · simp [addRow, hr, hs.unit_column c hc r]
    · intro _
      simp [addRow, gfMul_eq_mul, xor_eq_add, hs.pivot_row, hp]
  · rename_i hj
    exact ⟨hs, fun hji => by push_neg at hj; exact hj (Ne.symm hji), fun _ _ => rfl⟩

/-- The elimination loop over a list of rows keeps `ElimInv` and clears column `i` in every
row of the list, and in every row that was already clear. -/
theorem ElimInv.of_foldl (hp : p i = 1) :
    ∀ (l : List (Fin n)) (s : InvertState n), ElimInv a i p s →
      ElimInv a i p (l.foldl (eliminateRow i) s) ∧
        ∀ r, r ≠ i → (r ∈ l ∨ s.matrix r i = 0) → (l.foldl (eliminateRow i) s).matrix r i = 0
  | [], s, hs => ⟨hs, fun r _ h => h.resolve_left (List.not_mem_nil r)⟩
  | j :: l, s, hs => by
    obtain ⟨hs1, hj, hrest⟩ := hs.of_eliminateRow hp j
    obtain ⟨hinv, hclear⟩ := ElimInv.of_foldl hp l _ hs1
    refine ⟨hinv, fun r hri hr => hclear r hri ?_⟩
    rcases hr with hr | hr
    · rcases List.mem_cons.mp hr with rfl | hr
      · exact Or.inr (hj hri)
      · exact Or.inl hr
    · by_cases hrj : r = j
      · subst hrj; exact Or.inr (hj hri)
      · exact Or.inr (by rw [hrest r hrj]; exact hr)

/-- One iteration of the outer loop extends the invariant by column `i`. -/
theorem InvertInv.of_invertStep (hs : InvertInv a i s) (h : invertStep s i = some s') :
    InvertInv a (i + 1) s' := by
  obtain ⟨s1, hpiv, rfl⟩ := Option.map_eq_some'.mp h
  unfold eliminate
  obtain ⟨hs1, h0⟩ := hs.of_pivot hpiv
  obtain ⟨hs2, h1, -⟩ := hs1.of_scale h0
  have he : ElimInv a i ((Kelp.Rs.scale s1 i).matrix i) (Kelp.Rs.scale s1 i) :=
    ⟨hs2.inverse_mul, hs2.det_inverse, rfl, hs2.unit_column⟩
  obtain ⟨hinv, hclear⟩ := ElimInv.of_foldl h1 (List.finRange n) _ he
  refine ⟨hinv.inverse_mul, hinv.det_inverse, fun c hc r => ?_⟩
  rcases Nat.lt_succ_iff_lt_or_eq.mp hc with hc | hc
  · exact hinv.unit_column c hc r
  · have hci : c = i := Fin.ext hc
    subst hci
    by_cases hr : r = c
    · subst hr; rw [hinv.pivot_row, h1]; simp
    · rw [hclear r hr (Or.inl (List.mem_finRange r))]; simp [hr]

/-! ## The outer loop -/

/-- The invariant holds after every prefix of the outer loop. -/
theorem invertUpTo_inv (a : Matrix (Fin n) (Fin n) Gf) :
    ∀ k, k ≤ n → ∀ s, invertUpTo a k = some s → InvertInv a k s
  | 0, _, s, h => by cases h; exact invertInv_start a
  | k + 1, hk, s, h => by
    obtain ⟨s0, h0, h1⟩ := Option.bind_eq_some.mp h
    rw [dif_pos (by omega : k < n)] at h1
    exact (invertUpTo_inv a k (by omega) s0 h0).of_invertStep (i := ⟨k, by omega⟩) h1

/-- If the outer loop returns early, the input is singular. -/
theorem det_eq_zero_of_invertUpTo (a : Matrix (Fin n) (Fin n) Gf) :
    ∀ k, k ≤ n → invertUpTo a k = none → a.det = 0
  | 0, _, h => by cases h
  | k + 1, hk, h => by
    rcases hprev : invertUpTo a k with _ | s0
    · exact det_eq_zero_of_invertUpTo a k (by omega) hprev
    · rw [invertUpTo, hprev, Option.some_bind, dif_pos (by omega : k < n)] at h
      exact (invertUpTo_inv a k (by omega) s0 hprev).det_eq_zero_of_pivot (i := ⟨k, by omega⟩)
        (Option.map_eq_none'.mp h)

/-- A returned inverse is a left inverse: the working matrix has become the identity. -/
theorem mul_eq_one_of_matrixInvert {a b : Matrix (Fin n) (Fin n) Gf}
    (h : matrixInvert a = some b) : b * a = 1 := by
  obtain ⟨s, hs, rfl⟩ := Option.map_eq_some'.mp h
  have hinv := invertUpTo_inv a n le_rfl s hs
  rw [hinv.inverse_mul]
  ext r c
  exact hinv.unit_column c c.isLt r

theorem foldl_xor_eq_sum (f : Fin n → Gf) :
    ∀ (l : List (Fin n)) (acc : Gf), l.foldl (fun acc k => acc ^^^ f k) acc = acc + (l.map f).sum
  | [], acc => by simp
  | k :: l, acc => by
    rw [List.foldl_cons, foldl_xor_eq_sum f l, List.map_cons, List.sum_cons, xor_eq_add, add_assoc]

/-- `matrix_multiply` is the matrix product over GF(2^8). -/
theorem matrixMultiply_eq_mul (a b : Matrix (Fin n) (Fin n) Gf) : matrixMultiply a b = a * b := by
  ext i j
  rw [matrixMultiply, foldl_xor_eq_sum, zero_add, mul_apply, Fin.sum_univ_def]
  rfl

/-- `matrix_invert` returns `1` exactly when the matrix is nonsingular. -/
theorem matrixInvert_isSome_iff (a : Matrix (Fin n) (Fin n) Gf) :
    (matrixInvert a).isSome ↔ a.det ≠ 0 := by
  refine ⟨fun h => ?_, fun h => ?_⟩
  · obtain ⟨b, hb⟩ := Option.isSome_iff_exists.mp h
    have hdet := congrArg det (mul_eq_one_of_matrixInvert hb)
    rw [det_mul, det_one] at hdet
    exact right_ne_zero_of_mul_eq_one hdet
  · rcases hinv : matrixInvert a with _ | b
    · exact absurd (det_eq_zero_of_invertUpTo a n le_rfl (Option.map_eq_none'.mp hinv)) h
    · rfl

/-- What `matrix_invert` writes back is a two-sided inverse under `matrix_multiply`. -/
theorem matrixInvert_mul_eq_one {a b : Matrix (Fin n) (Fin n) Gf} (hb : matrixInvert a = some b) :
    matrixMultiply a b = 1 ∧ matrixMultiply b a = 1 := by
  have hba := mul_eq_one_of_matrixInvert hb
  rw [matrixMultiply_eq_mul, matrixMultiply_eq_mul, hba, mul_eq_one_comm.mpr hba]
  exact ⟨rfl, rfl⟩

/-- For `n * n` an `int`, `matrix_invert` has a defined result, which is `1` exactly on the
matrices that are nonsingular over GF(2^8); then the buffer holds a two-sided inverse under
`matrix_multiply`. -/
theorem matrixInvert_correct (a : Matrix (Fin n) (Fin n) Gf) (hn : InInt (n * n)) :
    matrixInvertCall a = .ret (matrixInvert a) ∧ ((matrixInvert a).isSome ↔ a.det ≠ 0) ∧
      ∀ b, matrixInvert a = some b → matrixMultiply a b = 1 ∧ matrixMultiply b a = 1 :=
  ⟨matrixInvertCall_of_inInt a hn, matrixInvert_isSome_iff a,
    fun _ hb => matrixInvert_mul_eq_one hb⟩

theorem matrixInvert_correct_two :
    InInt ((2 : Nat) * (2 : Nat)) ∧
      ((matrixInvert (1 : Matrix (Fin 2) (Fin 2) Gf)).isSome ↔
        det (1 : Matrix (Fin 2) (Fin 2) Gf) ≠ 0) :=
  ⟨by unfold InInt; omega, (matrixInvert_correct 1 (by unfold InInt; omega)).2.1⟩

/-- At `n = 46341`, `n * n` overflows `int`: the call on the identity, which is nonsingular,
is undefined. -/
theorem matrixInvertCall_overflow :
    matrixInvertCall (1 : Matrix (Fin 46341) (Fin 46341) Gf) = .undefined :=
  matrixInvertCall_of_not_inInt 1 (by unfold InInt; omega)

/-! ## The checks of `test_matrix_invert` -/

/-- `is_identity(matrix, n)`: `0` at the first entry that differs from the identity's, `1`
when none does. -/
def isIdentity (m : Matrix (Fin n) (Fin n) Gf) : Int :=
  if ∀ i j, m i j = if i = j then 1 else 0 then 1 else 0

theorem isIdentity_eq_one_iff (m : Matrix (Fin n) (Fin n) Gf) : isIdentity m = 1 ↔ m = 1 := by
  unfold isIdentity
  split_ifs with h
  · exact iff_of_true rfl (ext fun i j => (h i j).trans one_apply.symm)
  · exact iff_of_false (by decide) fun hm => h fun i j => by rw [hm, one_apply]

/-- The only inverse `matrix_invert` returns for the identity is the identity. -/
theorem matrixInvert_one_eq {b : Matrix (Fin n) (Fin n) Gf}
    (h : matrixInvert 1 = some b) : b = 1 := by
  have := (matrixInvert_mul_eq_one h).1
  rwa [matrixMultiply_eq_mul, one_mul] at this

/-- A nonsingular matrix has an inverse from `matrix_invert`. -/
theorem exists_matrixInvert_eq_some {a : Matrix (Fin n) (Fin n) Gf} (h : a.det ≠ 0) :
    ∃ b, matrixInvert a = some b :=
  Option.isSome_iff_exists.mp ((matrixInvert_isSome_iff a).mpr h)

/-- The assertions of `test_matrix_invert` hold for every size whose `n * n` is an `int` and
every matrix: the identity inverts to itself; an inverse `matrix_invert` returns passes
`is_identity` on both products, and inverting it again gives back the original matrix entry for
entry; the zero matrix of size at least one is rejected. -/
theorem matrixInvert_twice (hn : InInt (n * n)) :
    matrixInvertCall (1 : Matrix (Fin n) (Fin n) Gf) = .ret (some 1) ∧
      (∀ a b : Matrix (Fin n) (Fin n) Gf, matrixInvertCall a = .ret (some b) →
        isIdentity (matrixMultiply a b) = 1 ∧ isIdentity (matrixMultiply b a) = 1 ∧
          matrixInvertCall b = .ret (some a)) ∧
      (0 < n → matrixInvertCall (0 : Matrix (Fin n) (Fin n) Gf) = .ret none) := by
  simp only [matrixInvertCall_of_inInt _ hn, CResult.ret.injEq]
  refine ⟨?_, fun a b hb => ?_, fun hn => ?_⟩
  · obtain ⟨d, hd⟩ := exists_matrixInvert_eq_some (a := (1 : Matrix (Fin n) (Fin n) Gf))
      (by rw [det_one]; exact one_ne_zero)
    rw [hd, matrixInvert_one_eq hd]
  · obtain ⟨hab, hba⟩ := matrixInvert_mul_eq_one hb
    have hdet : b.det ≠ 0 := by
      have := congrArg det hab
      rw [matrixMultiply_eq_mul, det_mul, det_one] at this
      exact right_ne_zero_of_mul_eq_one this
    obtain ⟨d, hd⟩ := exists_matrixInvert_eq_some hdet
    have hbd := (matrixInvert_mul_eq_one hd).1
    rw [matrixMultiply_eq_mul] at hab hbd
    refine ⟨(isIdentity_eq_one_iff _).mpr (by rw [matrixMultiply_eq_mul, hab]),
      (isIdentity_eq_one_iff _).mpr hba, ?_⟩
    rw [hd]
    congr 1
    calc d = a * b * d := by rw [hab, one_mul]
      _ = a * (b * d) := mul_assoc a b d
      _ = a := by rw [hbd, mul_one]
  · have : Nonempty (Fin n) := ⟨⟨0, hn⟩⟩
    exact Option.not_isSome_iff_eq_none.mp fun h => (matrixInvert_isSome_iff 0).mp h (det_zero this)

/-- The zero matrix of the test's smallest size, `2`, is rejected. -/
theorem matrixInvert_twice_two :
    InInt ((2 : Nat) * (2 : Nat)) ∧ 0 < 2 ∧
      matrixInvertCall (0 : Matrix (Fin 2) (Fin 2) Gf) = .ret none :=
  ⟨by unfold InInt; omega, by decide, (matrixInvert_twice (by unfold InInt; omega)).2.2 (by decide)⟩

end Kelp.Rs
