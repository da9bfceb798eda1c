import Kelp.Rs.Tables
import Mathlib.Algebra.Field.Defs

/-!
# `gf` is the field GF(2^8)

The tables of `init_gf` make the byte type `Gf` a field: addition is `^`, multiplication is
`gf_mul`, and division is `gf_div`, with `gf_div(1, a)` the inverse that `matrix_invert`
reads as `gf_div_table[256*1 + a]`.  Every law is proved on the numbers below `256` that
the bytes stand for, from the lemmas of `Kelp.Rs.Tables`.

The instance is built on the source's own operations, so that `gfMul a b = a * b`,
`a ^^^ b = a + b` and `gfDiv a b = a / b` hold by `rfl` (`gfMul_eq_mul`, `xor_eq_add`,
`gfDiv_eq_div`).  The matrix and coder proofs state the source's loops with the source's
operations and reason about them with Mathlib's algebra through these equations.
-/

namespace Kelp.Rs

namespace Gf

instance : Zero Gf := ⟨⟨0⟩⟩
instance : One Gf := ⟨⟨1⟩⟩
instance : Add Gf := ⟨fun a b => a ^^^ b⟩
instance : Neg Gf := ⟨id⟩
instance : Sub Gf := ⟨fun a b => a ^^^ b⟩
instance : Mul Gf := ⟨gfMul⟩
instance : Inv Gf := ⟨fun a => gfDiv ⟨1⟩ a⟩
instance : Div Gf := ⟨gfDiv⟩

@[simp] theorem toNat_zero : (0 : Gf).toNat = 0 := rfl
@[simp] theorem toNat_one : (1 : Gf).toNat = 1 := rfl

theorem toNat_add (a b : Gf) : (a + b).toNat = a.toNat ^^^ b.toNat := toNat_xor a b

theorem toNat_mul (a b : Gf) : (a * b).toNat = gfMulDirect a.toNat b.toNat := gfMul_toNat a b

theorem toNat_eq_zero {a : Gf} : a.toNat = 0 ↔ a = 0 :=
  ⟨fun h => toNat_inj h, fun h => h ▸ rfl⟩

theorem toNat_inv {a : Gf} (ha : a ≠ 0) : (a⁻¹).toNat = gfDivDirect 1 a.toNat := by
  show (gfDiv ⟨1⟩ a).toNat = _
  rw [gfDiv_toNat, if_neg (mt toNat_eq_zero.mp ha)]
  rfl

theorem add_assoc' (a b c : Gf) : a + b + c = a + (b + c) :=
  toNat_inj (by simp only [toNat_add, Nat.xor_assoc])

theorem add_comm' (a b : Gf) : a + b = b + a :=
  toNat_inj (by simp only [toNat_add, Nat.xor_comm])

theorem zero_add' (a : Gf) : 0 + a = a :=
  toNat_inj (by simp only [toNat_add, toNat_zero, Nat.zero_xor])

theorem neg_add_cancel' (a : Gf) : -a + a = 0 :=
  toNat_inj (by simp only [toNat_add, toNat_zero]; exact Nat.xor_self _)

theorem mul_assoc' (a b c : Gf) : a * b * c = a * (b * c) :=
  toNat_inj (by simp only [toNat_mul, gfMulDirect_assoc])

theorem mul_comm' (a b : Gf) : a * b = b * a :=
  toNat_inj (by simp only [toNat_mul, gfMulDirect_comm])

theorem one_mul' (a : Gf) : 1 * a = a :=
  toNat_inj (by rw [toNat_mul, toNat_one, gfMulDirect_one_left a.toNat_lt])

theorem zero_mul' (a : Gf) : 0 * a = 0 :=
  toNat_inj (by rw [toNat_mul, toNat_zero, gfMulDirect_eq_zero.mpr (Or.inl rfl)])

theorem left_distrib' (a b c : Gf) : a * (b + c) = a * b + a * c :=
  toNat_inj (by simp only [toNat_mul, toNat_add, gfMulDirect_xor b.toNat_lt c.toNat_lt])

theorem mul_inv_cancel' (a : Gf) (ha : a ≠ 0) : a * a⁻¹ = 1 :=
  toNat_inj (by rw [toNat_mul, toNat_inv ha, gfMulDirect_div_self (mt toNat_eq_zero.mp ha)]; rfl)

theorem inv_zero' : (0 : Gf)⁻¹ = 0 :=
  toNat_inj (by show (gfDiv ⟨1⟩ 0).toNat = 0; rw [gfDiv_toNat]; rfl)

theorem div_eq_mul_inv' (a b : Gf) : a / b = a * b⁻¹ := by
  by_cases hb : b = 0
  · subst hb
    apply toNat_inj
    show (gfDiv a 0).toNat = (a * gfDiv ⟨1⟩ 0).toNat
    rw [gfDiv_toNat, toNat_mul, gfDiv_toNat]
    simp [gfMulDirect]
  · apply toNat_inj
    show (gfDiv a b).toNat = _
    rw [gfDiv_toNat, if_neg (mt toNat_eq_zero.mp hb), toNat_mul, toNat_inv hb, gfDivDirect_eq_mul]

instance : Field Gf where
  add_assoc := add_assoc'
  zero_add := zero_add'
  add_zero a := (add_comm' a 0).trans (zero_add' a)
  add_comm := add_comm'
  neg_add_cancel := neg_add_cancel'
  nsmul := nsmulRec
  zsmul := zsmulRec
  mul_assoc := mul_assoc'
  one_mul := one_mul'
  mul_one a := (mul_comm' a 1).trans (one_mul' a)
  zero_mul := zero_mul'
  mul_zero a := (mul_comm' a 0).trans (zero_mul' a)
  left_distrib := left_distrib'
  right_distrib a b c := by rw [mul_comm', left_distrib', mul_comm' c, mul_comm' c]
  mul_comm := mul_comm'
  exists_pair_ne := ⟨0, 1, by decide⟩
  mul_inv_cancel := mul_inv_cancel'
  inv_zero := inv_zero'
  div_eq_mul_inv := div_eq_mul_inv'
  nnqsmul := _
  qsmul := _

end Gf

theorem gfMul_eq_mul (a b : Gf) : gfMul a b = a * b := rfl

theorem xor_eq_add (a b : Gf) : a ^^^ b = a + b := rfl

theorem gfDiv_eq_div (a b : Gf) : gfDiv a b = a / b := rfl

/-- `gf_div_table[256*1 + x]`, the rescale factor of `matrix_invert`, is the inverse. -/
theorem gfDivTable_one (x : Gf) : gfDivTable (256 * 1 + x.toNat) = x⁻¹ := rfl

/-- Addition is xor, so every element is its own negative. -/
@[simp] theorem Gf.add_self (a : Gf) : a + a = 0 := neg_add_cancel a

end Kelp.Rs
