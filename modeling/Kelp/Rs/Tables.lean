import Mathlib.Data.Nat.Bitwise
import Mathlib.Data.Finset.Card
import Mathlib.Dynamics.PeriodicPts

/-!
# The GF(2^8) tables of `init_gf`

`init_gf` in `rs.c` fills four process-global tables.  Its first loop walks the powers of
the generator `2`: the loop variable `x` starts at `1` and each step is `xtime`, the shift
by one place with the reduction byte `0x1d` of the polynomial `0x11D`.  The step `i` writes
`gf_exp[i] = x` and `gf_log[x] = i`.  The multiplication and division tables are then
filled from `gf_mul_direct` and `gf_div_direct`, which add and subtract logarithms.

The tables are modelled as the functions that the loops leave behind, so that a reader can
check each entry against the loop that writes it:

* `gfExp i` is the loop variable after `i` steps.  The source writes entries `0..254` in
  the first loop, sets entry `255` to `1` and copies entry `i - 255` into entry `i` above
  that; `gfExp_255` and `gfExp_add_255` show that the copies agree with the model.
* `gfLog x` is the last step that wrote `x`, and `0` (the static zero) for an entry that no
  step wrote.  Entry `0` holds the sentinel `-1`; `gf_mul_direct` and `gf_div_direct`
  return before they read it, so the model leaves it out.
* `gfMulTable` and `gfDivTable` are the two `256 * 256` tables, indexed as the source
  indexes them.  Column `0` of the division table is never written and stays zero.

`Gf` is the element type `gf` of `rs.h`, a byte, and `gfMul` and `gfDiv` are the two table
lookups of the source.

The facts about the generator that everything else rests on are checked by evaluation:
its powers return to `1` after `255` steps (`xtime_iterate_255`) and not before
(`xtime_iterate_ne_one`).  From them and the linearity of one step in xor
(`xtime_xor`), the lemmas below show that `gfExp` and `gfLog` are inverse bijections
between the exponents `0..254` and the nonzero bytes.
-/

namespace Kelp.Rs

/-! ## One step of the generator -/

/-- One step of the first loop of `init_gf`:
`x = (x << 1) ^ ((x & 0x80) ? 0x1d : 0); x &= 0xFF`. -/
def xtime (x : Nat) : Nat := ((x <<< 1) ^^^ (if x &&& 0x80 ≠ 0 then 0x1d else 0)) &&& 0xFF

theorem xtime_lt (x : Nat) : xtime x < 256 :=
  Nat.lt_of_le_of_lt Nat.and_le_right (by decide)

private theorem shiftLeft_xor (a b k : Nat) : (a ^^^ b) <<< k = (a <<< k) ^^^ (b <<< k) := by
  apply Nat.eq_of_testBit_eq
  intro i
  simp only [Nat.testBit_shiftLeft, Nat.testBit_xor]
  by_cases h : k ≤ i <;> simp [h]

private theorem land_0x80_cases (x : Nat) : x &&& 0x80 = 0 ∨ x &&& 0x80 = 0x80 := by
  rw [show (0x80 : Nat) = 2 ^ 7 by rfl, Nat.and_two_pow]
  cases x.testBit 7 <;> simp

/-- The reduction byte that a step adds is linear in the top bit. -/
private theorem reduction_xor (a b : Nat) :
    (if (a ^^^ b) &&& 0x80 ≠ 0 then (0x1d : Nat) else 0) =
      (if a &&& 0x80 ≠ 0 then 0x1d else 0) ^^^ (if b &&& 0x80 ≠ 0 then 0x1d else 0) := by
  rw [Nat.and_xor_distrib_right]
  rcases land_0x80_cases a with ha | ha <;> rcases land_0x80_cases b with hb | hb <;>
    simp [ha, hb]

/-- A step of the generator is linear in xor. -/
theorem xtime_xor (a b : Nat) : xtime (a ^^^ b) = xtime a ^^^ xtime b := by
  unfold xtime
  rw [← Nat.and_xor_distrib_right, shiftLeft_xor, reduction_xor]
  ac_rfl

theorem xtime_iterate_xor (n a b : Nat) : xtime^[n] (a ^^^ b) = xtime^[n] a ^^^ xtime^[n] b := by
  induction n generalizing a b with
  | zero => rfl
  | succ n ih => simp only [Function.iterate_succ_apply, xtime_xor, ih]

theorem xtime_iterate_zero (n : Nat) : xtime^[n] 0 = 0 :=
  Function.iterate_fixed (by decide) n

theorem xtime_iterate_lt {n x : Nat} (hx : x < 256) : xtime^[n] x < 256 := by
  cases n with
  | zero => exact hx
  | succ n => rw [Function.iterate_succ_apply']; exact xtime_lt _

set_option maxRecDepth 4000 in
/-- On bytes a step has a trivial kernel.  Checked by evaluation. -/
theorem xtime_eq_zero : ∀ x < 256, xtime x = 0 → x = 0 := by decide

theorem xtime_iterate_eq_zero {n x : Nat} (hx : x < 256) (h : xtime^[n] x = 0) : x = 0 := by
  induction n generalizing x with
  | zero => exact h
  | succ n ih =>
    rw [Function.iterate_succ_apply] at h
    exact xtime_eq_zero x hx (ih (xtime_lt x) h)

/-- The iterated step is injective on bytes. -/
theorem xtime_iterate_inj {n a b : Nat} (ha : a < 256) (hb : b < 256)
    (h : xtime^[n] a = xtime^[n] b) : a = b := by
  have hab : xtime^[n] (a ^^^ b) = 0 := by rw [xtime_iterate_xor, h, Nat.xor_self]
  exact Nat.xor_eq_zero.mp
    (xtime_iterate_eq_zero (Nat.xor_lt_two_pow (n := 8) ha hb) hab)

set_option maxRecDepth 20000 in
/-- The generator has order dividing `255`.  Checked by evaluation. -/
theorem xtime_iterate_255 : xtime^[255] 1 = 1 := by decide

set_option maxRecDepth 4000 in
/-- The generator has order exactly `255`: a smaller period would divide `255`, hence one of
`15`, `51`, `85`, whose powers are checked by evaluation. -/
theorem xtime_iterate_ne_one : ∀ d < 255, 0 < d → xtime^[d] 1 ≠ 1 := by
  intro d hd hd0 h
  have hg : Function.IsPeriodicPt xtime (d.gcd 255) 1 :=
    Function.IsPeriodicPt.gcd h xtime_iterate_255
  have hdvd : ∀ g < 255, g ∣ 255 → g ∣ 15 ∨ g ∣ 51 ∨ g ∣ 85 := by decide
  have hne : xtime^[15] 1 ≠ 1 ∧ xtime^[51] 1 ≠ 1 ∧ xtime^[85] 1 ≠ 1 := by decide
  rcases hdvd _ (lt_of_le_of_lt (Nat.gcd_le_left _ hd0) hd) (Nat.gcd_dvd_right _ _) with
    h' | h' | h'
  · exact hne.1 (hg.trans_dvd h')
  · exact hne.2.1 (hg.trans_dvd h')
  · exact hne.2.2 (hg.trans_dvd h')

/-! ## `gf_exp` and `gf_log` -/

/-- `gf_exp[i]` after `init_gf`: the loop variable after `i` steps. -/
def gfExp (i : Nat) : Nat := xtime^[i] 1

/-- Entry `255`, which `init_gf` sets to `1` after the first loop, agrees with the model. -/
theorem gfExp_255 : gfExp 255 = 1 := xtime_iterate_255

/-- The third loop of `init_gf` copies entry `i - 255` into entry `i`; the model agrees. -/
theorem gfExp_add_255 (i : Nat) : gfExp (i + 255) = gfExp i := by
  rw [gfExp, Function.iterate_add_apply, xtime_iterate_255]; rfl

theorem gfExp_mod (i : Nat) : gfExp (i % 255) = gfExp i := by
  conv_rhs => rw [← Nat.mod_add_div i 255]
  induction i / 255 with
  | zero => rfl
  | succ q ih => rw [Nat.mul_succ, ← Nat.add_assoc, gfExp_add_255, ih]

theorem gfExp_add (i j : Nat) : gfExp (i + j) = xtime^[i] (gfExp j) :=
  Function.iterate_add_apply _ _ _ _

theorem gfExp_lt (i : Nat) : gfExp i < 256 := xtime_iterate_lt (by decide)

theorem gfExp_ne_zero (i : Nat) : gfExp i ≠ 0 := fun h =>
  absurd (xtime_iterate_eq_zero (by decide) h) (by decide)

/-- The powers `0..254` of the generator are distinct. -/
theorem gfExp_inj {i j : Nat} (hi : i < 255) (hj : j < 255) (h : gfExp i = gfExp j) : i = j := by
  wlog hij : i ≤ j generalizing i j
  · exact (this hj hi h.symm (by omega)).symm
  have hsplit : gfExp j = xtime^[i] (gfExp (j - i)) := by rw [← gfExp_add]; congr 1; omega
  rw [hsplit, gfExp] at h
  have h1 : gfExp (j - i) = 1 := (xtime_iterate_inj (by decide) (gfExp_lt _) h).symm
  by_contra hne
  exact xtime_iterate_ne_one (j - i) (by omega) (by omega) h1

/-- Every nonzero byte is a power of the generator: the `255` distinct powers fill the
`255` nonzero bytes. -/
theorem exists_gfExp_eq {x : Nat} (hx0 : x ≠ 0) (hx : x < 256) : ∃ i < 255, gfExp i = x := by
  have hsub : (Finset.range 255).image gfExp ⊆ (Finset.range 256).erase 0 := by
    intro y hy
    obtain ⟨i, -, rfl⟩ := Finset.mem_image.mp hy
    exact Finset.mem_erase.mpr ⟨gfExp_ne_zero i, Finset.mem_range.mpr (gfExp_lt i)⟩
  have hcard : ((Finset.range 256).erase 0).card ≤ ((Finset.range 255).image gfExp).card := by
    rw [Finset.card_image_of_injOn fun i hi j hj h =>
      gfExp_inj (Finset.mem_range.mp hi) (Finset.mem_range.mp hj) h]
    simp
  have hmem : x ∈ (Finset.range 255).image gfExp :=
    Finset.eq_of_subset_of_card_le hsub hcard ▸
      Finset.mem_erase.mpr ⟨hx0, Finset.mem_range.mpr hx⟩
  obtain ⟨i, hi, rfl⟩ := Finset.mem_image.mp hmem
  exact ⟨i, Finset.mem_range.mp hi, rfl⟩

/-- `gf_log[x]` for `x ≠ 0` after `init_gf`: the last step `i < 255` of the first loop
that wrote `x`, or the static zero if none did. -/
def gfLog (x : Nat) : Nat := ((List.range 255).filter (fun i => gfExp i = x)).getLastD 0

theorem gfLog_lt (x : Nat) : gfLog x < 255 := by
  rcases List.mem_cons.mp (List.getLastD_mem_cons
    ((List.range 255).filter (fun i => gfExp i = x)) 0) with h | h
  · rw [gfLog, h]; decide
  · exact List.mem_range.mp (List.mem_of_mem_filter h)

/-- Every step that wrote `x` is the last one, since the powers are distinct. -/
theorem gfLog_gfExp {i : Nat} (hi : i < 255) : gfLog (gfExp i) = i := by
  let l := (List.range 255).filter (fun j => gfExp j = gfExp i)
  have hne : l ≠ [] := List.ne_nil_of_mem (List.mem_filter.mpr ⟨List.mem_range.mpr hi, by simp⟩)
  have hlast : l.getLast hne ∈ l := List.getLast_mem hne
  obtain ⟨hr, he⟩ := List.mem_filter.mp hlast
  rw [gfLog, List.getLastD_eq_getLast?, List.getLast?_eq_getLast l hne, Option.getD_some]
  exact gfExp_inj (List.mem_range.mp hr) hi (by simpa using he)

theorem gfExp_gfLog {x : Nat} (hx0 : x ≠ 0) (hx : x < 256) : gfExp (gfLog x) = x := by
  obtain ⟨i, hi, rfl⟩ := exists_gfExp_eq hx0 hx
  rw [gfLog_gfExp hi]

/-! ## `gf_mul_direct` and `gf_div_direct` -/

/-- `gf_mul_direct(a, b)`: the product through the logarithms. -/
def gfMulDirect (a b : Nat) : Nat :=
  if a = 0 ∨ b = 0 then 0 else gfExp ((gfLog a + gfLog b) % 255)

/-- `gf_div_direct(a, b)` for `b ≠ 0`, the only divisors `init_gf` passes.  The source
computes `gf_log[a] - gf_log[b] + 255` in `int`; every logarithm is below `255`
(`gfLog_lt`), so the difference of naturals below is the same number. -/
def gfDivDirect (a b : Nat) : Nat :=
  if a = 0 then 0 else gfExp ((gfLog a + 255 - gfLog b) % 255)

theorem gfMulDirect_lt (a b : Nat) : gfMulDirect a b < 256 := by
  unfold gfMulDirect; split
  · decide
  · exact gfExp_lt _

theorem gfDivDirect_lt (a b : Nat) : gfDivDirect a b < 256 := by
  unfold gfDivDirect; split
  · decide
  · exact gfExp_lt _

theorem gfMulDirect_comm (a b : Nat) : gfMulDirect a b = gfMulDirect b a := by
  simp only [gfMulDirect, or_comm, Nat.add_comm]

theorem gfMulDirect_of_ne {a b : Nat} (ha : a ≠ 0) (hb : b ≠ 0) :
    gfMulDirect a b = gfExp ((gfLog a + gfLog b) % 255) :=
  if_neg (by omega)

theorem gfMulDirect_eq_zero {a b : Nat} : gfMulDirect a b = 0 ↔ a = 0 ∨ b = 0 := by
  unfold gfMulDirect; split
  · simpa
  · exact iff_of_false (gfExp_ne_zero _) ‹_›

theorem gfLog_gfMulDirect {a b : Nat} (ha : a ≠ 0) (hb : b ≠ 0) :
    gfLog (gfMulDirect a b) = (gfLog a + gfLog b) % 255 := by
  rw [gfMulDirect_of_ne ha hb, gfLog_gfExp (Nat.mod_lt _ (by decide))]

/-- Multiplication by a nonzero byte is `gf_log[a]` steps of the generator. -/
theorem gfMulDirect_eq_iterate {a b : Nat} (ha : a ≠ 0) (hb : b < 256) :
    gfMulDirect a b = xtime^[gfLog a] b := by
  by_cases hb0 : b = 0
  · simp [gfMulDirect, hb0, xtime_iterate_zero]
  · rw [gfMulDirect_of_ne ha hb0, gfExp_mod, gfExp_add, gfExp_gfLog hb0 hb]

theorem gfLog_one : gfLog 1 = 0 := gfLog_gfExp (i := 0) (by decide)

theorem gfMulDirect_one_left {b : Nat} (hb : b < 256) : gfMulDirect 1 b = b := by
  rw [gfMulDirect_eq_iterate one_ne_zero hb, gfLog_one]
  rfl

theorem gfMulDirect_xor {a b c : Nat} (hb : b < 256) (hc : c < 256) :
    gfMulDirect a (b ^^^ c) = gfMulDirect a b ^^^ gfMulDirect a c := by
  by_cases ha0 : a = 0
  · simp [gfMulDirect, ha0]
  rw [gfMulDirect_eq_iterate ha0 (Nat.xor_lt_two_pow (n := 8) hb hc),
    gfMulDirect_eq_iterate ha0 hb, gfMulDirect_eq_iterate ha0 hc, xtime_iterate_xor]

theorem gfMulDirect_assoc (a b c : Nat) :
    gfMulDirect (gfMulDirect a b) c = gfMulDirect a (gfMulDirect b c) := by
  by_cases h : a = 0 ∨ b = 0 ∨ c = 0
  · have hab : gfMulDirect a b = 0 ∨ c = 0 := by rw [gfMulDirect_eq_zero]; tauto
    have hbc : a = 0 ∨ gfMulDirect b c = 0 := by rw [gfMulDirect_eq_zero]; tauto
    rw [gfMulDirect_eq_zero.mpr hab, gfMulDirect_eq_zero.mpr hbc]
  obtain ⟨ha, hb, hc⟩ : a ≠ 0 ∧ b ≠ 0 ∧ c ≠ 0 := by tauto
  have hab : gfMulDirect a b ≠ 0 := fun h' => h (by rw [gfMulDirect_eq_zero] at h'; tauto)
  have hbc : gfMulDirect b c ≠ 0 := fun h' => h (by rw [gfMulDirect_eq_zero] at h'; tauto)
  rw [gfMulDirect_of_ne hab hc, gfMulDirect_of_ne ha hbc, gfLog_gfMulDirect ha hb,
    gfLog_gfMulDirect hb hc]
  congr 1
  omega

theorem gfDivDirect_one {b : Nat} :
    gfDivDirect 1 b = gfExp ((255 - gfLog b) % 255) := by
  rw [gfDivDirect, if_neg one_ne_zero, gfLog_one, Nat.zero_add]

/-- Division is multiplication by the quotient of `1`. -/
theorem gfDivDirect_eq_mul {a b : Nat} :
    gfDivDirect a b = gfMulDirect a (gfDivDirect 1 b) := by
  by_cases ha : a = 0
  · simp [gfDivDirect, gfMulDirect, ha]
  have hlb := gfLog_lt b
  rw [gfDivDirect, if_neg ha, gfDivDirect_one, gfMulDirect_of_ne ha (gfExp_ne_zero _),
    gfLog_gfExp (Nat.mod_lt _ (by decide))]
  congr 1
  omega

theorem gfMulDirect_div_self {b : Nat} (hb : b ≠ 0) :
    gfMulDirect b (gfDivDirect 1 b) = 1 := by
  have hlb := gfLog_lt b
  rw [gfDivDirect_one, gfMulDirect_of_ne hb (gfExp_ne_zero _),
    gfLog_gfExp (Nat.mod_lt _ (by decide)), ← gfExp_mod,
    show (gfLog b + (255 - gfLog b) % 255) % 255 % 255 = 0 by omega]
  rfl

/-! ## The byte type and the two tables -/

/-- `gf` of `rs.h`: a Galois field element, one unsigned byte. -/
structure Gf where
  val : UInt8
deriving DecidableEq, Repr

namespace Gf

/-- The byte that an `int` becomes when the source stores it into a `gf`. -/
def ofNat (n : Nat) : Gf := ⟨n.toUInt8⟩

/-- The byte as a number below `256`. -/
def toNat (a : Gf) : Nat := a.val.toNat

/-- `^` on two `gf` values. -/
instance : Xor Gf := ⟨fun a b => ⟨a.val ^^^ b.val⟩⟩

theorem toNat_lt (a : Gf) : a.toNat < 256 := a.val.toNat_lt_size

theorem toNat_ofNat {n : Nat} (h : n < 256) : (ofNat n).toNat = n := UInt8.toNat_ofNat_of_lt h

theorem toNat_inj {a b : Gf} (h : a.toNat = b.toNat) : a = b := by
  cases a; cases b; exact congrArg Gf.mk (UInt8.toNat.inj h)

theorem ofNat_toNat (a : Gf) : ofNat a.toNat = a := toNat_inj (toNat_ofNat a.toNat_lt)

theorem toNat_xor (a b : Gf) : (a ^^^ b).toNat = a.toNat ^^^ b.toNat := BitVec.toNat_xor _ _

end Gf

/-- `gf_mul_table` after `init_gf`: entry `i * 256 + j`, for `i, j < 256`, is
`gf_mul_direct(i, j)`. -/
def gfMulTable (idx : Nat) : Gf := Gf.ofNat (gfMulDirect (idx / 256) (idx % 256))

/-- `gf_div_table` after `init_gf`: entry `i * 256 + j`, for `i < 256` and `0 < j < 256`, is
`gf_div_direct(i, j)`.  Column `0` is never written and keeps the zero of the static
array. -/
def gfDivTable (idx : Nat) : Gf :=
  if idx % 256 = 0 then Gf.ofNat 0 else Gf.ofNat (gfDivDirect (idx / 256) (idx % 256))

/-- `gf_mul(a, b)`: `gf_mul_table[a * GF_SIZE + b]`. -/
def gfMul (a b : Gf) : Gf := gfMulTable (a.toNat * 256 + b.toNat)

/-- `gf_div(a, b)`: `gf_div_table[a * GF_SIZE + b]`. -/
def gfDiv (a b : Gf) : Gf := gfDivTable (a.toNat * 256 + b.toNat)

private theorem index_div {a b : Nat} (hb : b < 256) : (a * 256 + b) / 256 = a := by omega

private theorem index_mod {a b : Nat} (hb : b < 256) : (a * 256 + b) % 256 = b := by omega

theorem gfMul_toNat (a b : Gf) : (gfMul a b).toNat = gfMulDirect a.toNat b.toNat := by
  rw [gfMul, gfMulTable, index_div b.toNat_lt, index_mod b.toNat_lt,
    Gf.toNat_ofNat (gfMulDirect_lt _ _)]

theorem gfDiv_toNat (a b : Gf) :
    (gfDiv a b).toNat = if b.toNat = 0 then 0 else gfDivDirect a.toNat b.toNat := by
  rw [gfDiv, gfDivTable, index_div b.toNat_lt, index_mod b.toNat_lt]
  split
  · exact Gf.toNat_ofNat (by decide)
  · exact Gf.toNat_ofNat (gfDivDirect_lt _ _)

end Kelp.Rs
