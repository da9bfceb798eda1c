import Mathlib.Algebra.Group.Int

/-!
# C integers

Most of the arithmetic of `rs.c`, `blockaio.c` and `benchspread.c` is in `int`, which has
32 bits on x86-64.  A signed overflow is undefined behaviour, so an `int` product, sum or
difference is modelled by `intMul`, `intAdd` or `intSub`, which have no value outside
`[INT_MIN, INT_MAX]`.  A
`size_t` returned as `int` is converted the way gcc defines it, modulo `2^32`
(`sizeToInt`), and an `int` passed as a `size_t` modulo `2^64` (`intToSize`).

`CResult` keeps apart the three ways a call of the source can end: it returns a value, it
calls `abort()`, or its behaviour is undefined.  "Returns the exact value" and "overflows"
are then different statements about the same call.
-/

namespace Kelp

/-- How a call of the source ends: `return v`, `abort()`, or undefined behaviour. -/
inductive CResult (α : Type) where
  | ret (a : α)
  | abort
  | undefined
  deriving DecidableEq, Repr

/-- The values of a 32-bit `int`: `INT_MIN ≤ x ≤ INT_MAX`. -/
def InInt (x : Int) : Prop := -2 ^ 31 ≤ x ∧ x < 2 ^ 31

instance : DecidablePred InInt := fun _ => inferInstanceAs (Decidable (_ ∧ _))

/-- The `int` product `a * b`: `none` where it overflows, which is undefined. -/
def intMul (a b : Int) : Option Int := if InInt (a * b) then some (a * b) else none

/-- The `int` sum `a + b`: `none` where it overflows, which is undefined. -/
def intAdd (a b : Int) : Option Int := if InInt (a + b) then some (a + b) else none

/-- The `int` difference `a - b`: `none` where it overflows, which is undefined. -/
def intSub (a b : Int) : Option Int := if InInt (a - b) then some (a - b) else none

/-- An `int` converted to `size_t`: reduced modulo `2^64`. -/
def intToSize (x : Int) : Nat := (x % 2 ^ 64).toNat

/-- A `size_t` converted to `int`: reduced modulo `2^32` into `[INT_MIN, INT_MAX]`. -/
def sizeToInt (x : Nat) : Int :=
  if x % 2 ^ 32 < 2 ^ 31 then (x % 2 ^ 32 : Nat) else ((x % 2 ^ 32 : Nat) : Int) - 2 ^ 32

theorem intMul_of_inInt {a b : Int} (h : InInt (a * b)) : intMul a b = some (a * b) := if_pos h

theorem intMul_of_not_inInt {a b : Int} (h : ¬ InInt (a * b)) : intMul a b = none := if_neg h

theorem eq_of_intMul_eq_some {a b c : Int} (h : intMul a b = some c) : c = a * b := by
  unfold intMul at h
  split_ifs at h
  exact (Option.some.inj h).symm

theorem eq_of_intSub_eq_some {a b c : Int} (h : intSub a b = some c) : c = a - b := by
  unfold intSub at h
  split_ifs at h
  exact (Option.some.inj h).symm

theorem intAdd_of_inInt {a b : Int} (h : InInt (a + b)) : intAdd a b = some (a + b) := if_pos h

theorem intAdd_of_not_inInt {a b : Int} (h : ¬ InInt (a + b)) : intAdd a b = none := if_neg h

theorem intSub_of_inInt {a b : Int} (h : InInt (a - b)) : intSub a b = some (a - b) := if_pos h

theorem intSub_of_not_inInt {a b : Int} (h : ¬ InInt (a - b)) : intSub a b = none := if_neg h

theorem sizeToInt_of_lt {x : Nat} (h : x < 2 ^ 31) : sizeToInt x = x := by
  rw [sizeToInt, Nat.mod_eq_of_lt (by omega), if_pos h]

/-- Whatever `size_t` comes back as `int` is an `int`. -/
theorem inInt_sizeToInt (x : Nat) : InInt (sizeToInt x) := by
  have := Nat.mod_lt x (show 2 ^ 32 > 0 by decide)
  unfold sizeToInt InInt
  split_ifs <;> omega

end Kelp
