import Kelp.Rs.Field
import Kelp.CInt

/-!
# `gf_pow`

`gf_pow(a, n)` of `rs.c` returns `1` for `n = 0`, `0` for `a = 0`, and otherwise
`gf_exp[(gf_log[a] * n) % 255]`, with the product and the remainder computed in `int`.

The powers of the generator multiply by adding exponents (`ofNat_gfExp_mul`), so
`gf_exp[l * n]` is the `n`-th power of `gf_exp[l]` (`ofNat_gfExp_pow`), and with
`l = gf_log[a]` that is `a^n`, the product of `n` copies of `a` under `gf_mul`
(`foldl_gfMul_replicate`).  The table lookup is right exactly while `gf_log[a] * n` fits in
an `int`; past `2^31` the product overflows, which is undefined, for every `a` other than
`0` and `1` (`gfPow_eq_product`).
-/

namespace Kelp.Rs

/-! ## Powers of the generator -/

theorem gfExp_congr {a b : Nat} (h : a % 255 = b % 255) : gfExp a = gfExp b := by
  rw [← gfExp_mod a, h, gfExp_mod]

theorem gfLog_gfExp_mod (i : Nat) : gfLog (gfExp i) = i % 255 := by
  rw [← gfExp_mod i, gfLog_gfExp (Nat.mod_lt _ (by decide))]

/-- Multiplying powers of the generator adds their exponents. -/
theorem ofNat_gfExp_mul (i j : Nat) :
    Gf.ofNat (gfExp i) * Gf.ofNat (gfExp j) = Gf.ofNat (gfExp (i + j)) := by
  apply Gf.toNat_inj
  rw [Gf.toNat_mul, Gf.toNat_ofNat (gfExp_lt i), Gf.toNat_ofNat (gfExp_lt j),
    Gf.toNat_ofNat (gfExp_lt _), gfMulDirect_eq_iterate (gfExp_ne_zero i) (gfExp_lt j),
    ← gfExp_add, gfLog_gfExp_mod]
  exact gfExp_congr (by omega)

theorem ofNat_gfExp_pow (i : Nat) : ∀ n, Gf.ofNat (gfExp i) ^ n = Gf.ofNat (gfExp (i * n))
  | 0 => by rw [pow_zero, Nat.mul_zero]; rfl
  | n + 1 => by rw [pow_succ, ofNat_gfExp_pow i n, ofNat_gfExp_mul, Nat.mul_succ]

/-- A nonzero byte is the generator to the power of its logarithm. -/
theorem ofNat_gfExp_gfLog {a : Gf} (ha : a ≠ 0) : Gf.ofNat (gfExp (gfLog a.toNat)) = a := by
  rw [gfExp_gfLog (mt Gf.toNat_eq_zero.mp ha) a.toNat_lt, Gf.ofNat_toNat]

/-- The product of `n` copies of `a` under `gf_mul`, from `x`, is `x * a^n`. -/
theorem foldl_gfMul_replicate (a : Gf) : ∀ n (x : Gf),
    (List.replicate n a).foldl gfMul x = x * a ^ n
  | 0, x => by rw [pow_zero, mul_one]; rfl
  | n + 1, x => by
    rw [List.replicate_succ, List.foldl_cons, foldl_gfMul_replicate a n, gfMul_eq_mul, pow_succ',
      mul_assoc]

/-! ## `gf_pow` -/

/-- `gf_pow(a, n)`: the product `gf_log[a] * n` is an `int` product, `%` truncates as C's
does, and the index must fall inside `gf_exp[0 .. 511]`. -/
def gfPow (a : Gf) (n : Int) : CResult Gf :=
  if n = 0 then .ret 1
  else if a = 0 then .ret 0
  else match intMul (gfLog a.toNat) n with
    | none => .undefined
    | some product =>
      let idx := product.tmod (256 - 1)
      if 0 ≤ idx ∧ idx < 256 * 2 then .ret (Gf.ofNat (gfExp idx.toNat)) else .undefined

/-- For a nonzero `a` and an exponent whose product with `gf_log[a]` fits in an `int`,
`gf_pow` reads `a^n` from the table. -/
theorem gfPow_of_lt {a : Gf} (ha : a ≠ 0) {n : Nat} (hn : 0 < n) (h : gfLog a.toNat * n < 2 ^ 31) :
    gfPow a n = .ret (a ^ n) := by
  have hcast : (gfLog a.toNat : Int) * n = ((gfLog a.toNat * n : Nat) : Int) :=
    (Int.ofNat_mul _ _).symm
  have hprod : InInt ((gfLog a.toNat : Int) * n) := by
    rw [hcast]
    exact ⟨by omega, by omega⟩
  have hmod : ((gfLog a.toNat : Int) * n).tmod (256 - 1) = ((gfLog a.toNat * n % 255 : Nat) : Int) := by
    rw [hcast, Int.tmod_eq_emod (by omega) (by decide)]
    omega
  rw [gfPow, if_neg (by exact_mod_cast hn.ne'), if_neg ha, intMul_of_inInt hprod]
  dsimp only
  rw [hmod, if_pos (by omega), Int.toNat_natCast, gfExp_mod, ← ofNat_gfExp_pow, ofNat_gfExp_gfLog ha]

/-- Past `2^31` the `int` product `gf_log[a] * n` overflows. -/
theorem gfPow_of_le {a : Gf} (ha : a ≠ 0) {n : Nat} (hn : 0 < n)
    (h : 2 ^ 31 ≤ gfLog a.toNat * n) : gfPow a n = .undefined := by
  have hcast : (gfLog a.toNat : Int) * n = ((gfLog a.toNat * n : Nat) : Int) :=
    (Int.ofNat_mul _ _).symm
  have hprod : ¬ InInt ((gfLog a.toNat : Int) * n) := fun hin => by
    have := hin.2
    rw [hcast] at this
    omega
  rw [gfPow, if_neg (by exact_mod_cast hn.ne'), if_neg ha, intMul_of_not_inInt hprod]

/-- `gf_pow(a, n)` is the product of `n` copies of `a` under `gf_mul` while
`gf_log[a] * n < 2^31`, and undefined beyond for `a ≠ 0`. -/
theorem gfPow_eq_product (a : Gf) (n : Nat) :
    (a = 0 ∨ gfLog a.toNat * n < 2 ^ 31 →
      gfPow a n = .ret ((List.replicate n a).foldl gfMul 1)) ∧
      (a ≠ 0 → 0 < n → 2 ^ 31 ≤ gfLog a.toNat * n → gfPow a n = .undefined) := by
  refine ⟨fun h => ?_, fun ha hn h => gfPow_of_le ha hn h⟩
  rw [foldl_gfMul_replicate, one_mul]
  rcases Nat.eq_zero_or_pos n with rfl | hn
  · rfl
  by_cases ha : a = 0
  · rw [gfPow, if_neg (by exact_mod_cast hn.ne'), if_pos ha, ha, zero_pow hn.ne']
  · exact gfPow_of_lt ha hn (h.resolve_left ha)

/-- `gf_log[4] = 2` and `n = 2^30`: `2 * 2^30 = 2^31` overflows `int`. -/
theorem gfPow_eq_product_four : Gf.ofNat 4 ≠ 0 ∧ 0 < 2 ^ 30 ∧
    2 ^ 31 ≤ gfLog (Gf.ofNat 4).toNat * 2 ^ 30 ∧ gfPow (Gf.ofNat 4) (2 ^ 30 : Nat) = .undefined := by
  have hlog : gfLog (Gf.ofNat 4).toNat = 2 := gfLog_gfExp (i := 2) (by decide)
  have hle : 2 ^ 31 ≤ gfLog (Gf.ofNat 4).toNat * 2 ^ 30 := by rw [hlog]; decide
  exact ⟨by decide, by decide, hle, (gfPow_eq_product _ _).2 (by decide) (by decide) hle⟩

end Kelp.Rs
