import Kelp.BlockAio.Crc
import Kelp.CInt
import Mathlib.Data.Finset.Card
import Mathlib.Data.List.Sort

/-!
# The header block

`struct header_block` of `blockaio.c` (`HeaderBlock` of `blockaio.hpp`) describes a volume:
a magic number, a version, the volume prefix, three offsets, the ids of the shards stored in
it and a CRC-32C of the header.  Its fields end at byte 76; on x86-64 the `uint64_t` fields
align the struct to 8 bytes, so `sizeof` is 80 and four bytes of padding follow
`header_crc32c` at offset 72.  The model keeps the fields and the padding, and the memory
image the functions read through a byte pointer (`HeaderBlock.image`).

* `validate_header` and `validateHeader` check the version, the prefix, and that the
  CRC-32C of the first `sizeof - 4 = 76` bytes is `header_crc32c`.  Those bytes include
  `header_crc32c` itself, so the comparison moves with the value it compares against: the
  stamp of the `ValidateHeader` test, the CRC computed while `header_crc32c` is 0, makes a
  header valid exactly when that CRC is 0 (`validateHeader_stampHeader`).  For the test's own
  header it is `0x5302d1f8`, and the header is rejected.
* `get_k_blocks_in_stripe` counts back from 8 over the trailing repeats of the last shard
  id: it is 8 less the length of the final run, plus one (`countLoop_spec`).  That is the
  number of distinct ids exactly when no id repeats before the final run
  (`getKBlocksInStripe_spec`).  Padding the ids with a value other than the last one, as the
  tests of `test-blockaio.cpp` pad with zeros, adds one shard (`getKBlocksInStripe_padding`).
* `compute_offset_to_block` is `4096 * (K * stripe + position)`, computed in `int` and
  returned as `int`: exact while that value is below `2^31`, and undefined or wrapped
  beyond (`computeOffsetToBlock_spec`).  An id that is not in the header ends in `abort()`
  (`computeOffsetToBlock_absent`).
-/

namespace Kelp.BlockAio

/-- `struct header_block`, with the four bytes of tail padding after `header_crc32c`. -/
structure HeaderBlock where
  magicNumber : List UInt8
  versionNumber : UInt32
  volumePrefixId : UInt32
  primaryIndexOffset : UInt64
  secondaryIndexOffset : UInt64
  tailOffset : UInt64
  shardIds : List UInt8
  headerCrc32c : UInt32
  padding : UInt32
  length_magicNumber : magicNumber.length = 32
  length_shardIds : shardIds.length = 8

namespace HeaderBlock

/-- The bytes of the fields before `header_crc32c`, offsets 0 to 71. -/
def fieldBytes (h : HeaderBlock) : List UInt8 :=
  h.magicNumber ++ leBytes 4 h.versionNumber.toNat ++ leBytes 4 h.volumePrefixId.toNat ++
    leBytes 8 h.primaryIndexOffset.toNat ++ leBytes 8 h.secondaryIndexOffset.toNat ++
    leBytes 8 h.tailOffset.toNat ++ h.shardIds

/-- The memory image: the fields, `header_crc32c` at offset 72, the padding at 76. -/
def image (h : HeaderBlock) : List UInt8 :=
  h.fieldBytes ++ leBytes 4 h.headerCrc32c.toNat ++ leBytes 4 h.padding.toNat

/-- The header with `header_crc32c` set to `v`. -/
def setHeaderCrc32c (h : HeaderBlock) (v : UInt32) : HeaderBlock := { h with headerCrc32c := v }

@[simp] theorem length_fieldBytes (h : HeaderBlock) : h.fieldBytes.length = 72 := by
  simp [fieldBytes, h.length_magicNumber, h.length_shardIds]

@[simp] theorem fieldBytes_setHeaderCrc32c (h : HeaderBlock) (v : UInt32) :
    (h.setHeaderCrc32c v).fieldBytes = h.fieldBytes := rfl

@[simp] theorem headerCrc32c_setHeaderCrc32c (h : HeaderBlock) (v : UInt32) :
    (h.setHeaderCrc32c v).headerCrc32c = v := rfl

@[simp] theorem setHeaderCrc32c_setHeaderCrc32c (h : HeaderBlock) (v w : UInt32) :
    (h.setHeaderCrc32c v).setHeaderCrc32c w = h.setHeaderCrc32c w := rfl

end HeaderBlock

/-- `sizeof(struct header_block)` on x86-64: the fields end at byte 76, and the size is
rounded up to the 8-byte alignment of the `uint64_t` fields. -/
def sizeofHeaderBlock : Nat := (76 + 7) / 8 * 8

/-- The bytes `validate_header` checksums: the fields and `header_crc32c`. -/
theorem take_image (h : HeaderBlock) :
    h.image.take (sizeofHeaderBlock - 4) = h.fieldBytes ++ leBytes 4 h.headerCrc32c.toNat :=
  List.take_left' (by simp [sizeofHeaderBlock])

/-! ## `validate_header` -/

/-- `validate_header(header)`, for the header stored at address `addr`. -/
def validateHeader (h : HeaderBlock) (addr : Nat) : Int :=
  if h.versionNumber ≠ 1 then 0
  else if h.volumePrefixId < (1 : UInt32) <<< 24 then 0
  else
    let computedChecksum := crc32cSse42 (h.image.take (sizeofHeaderBlock - 4)) addr 0
    if computedChecksum ≠ h.headerCrc32c then 0 else 1

namespace Cpp

/-- `validateHeader(header)` of `blockaio.cpp`, for the header stored at address `addr`. -/
def validateHeader (h : HeaderBlock) (addr : Nat) : Bool :=
  if h.versionNumber ≠ 1 then false
  else if h.volumePrefixId < (1 : UInt32) <<< 24 then false
  else
    let computedChecksum := crc32c (h.image.take (sizeofHeaderBlock - 4)) addr 0
    if computedChecksum ≠ h.headerCrc32c then false else true

end Cpp

/-- `header.header_crc32c = crc32c(&header, sizeof(HeaderBlock) - 4, 0)`, the stamp of the
`ValidateHeader` test, made while `header_crc32c` is 0, for the header stored at `addr`. -/
def stampHeader (h : HeaderBlock) (addr : Nat) : HeaderBlock :=
  h.setHeaderCrc32c (Cpp.crc32c ((h.setHeaderCrc32c 0).image.take (sizeofHeaderBlock - 4)) addr 0)

/-- The header of the `ValidateHeader` test: `memset(&header, 0, sizeof(HeaderBlock))`, then
`version_number = 1` and `volume_prefix_id = 1 << 24`. -/
def testHeader : HeaderBlock where
  magicNumber := List.replicate 32 0
  versionNumber := 1
  volumePrefixId := (1 : UInt32) <<< 24
  primaryIndexOffset := 0
  secondaryIndexOffset := 0
  tailOffset := 0
  shardIds := List.replicate 8 0
  headerCrc32c := 0
  padding := 0
  length_magicNumber := List.length_replicate _ _
  length_shardIds := List.length_replicate _ _

/-- The checks both validators make. -/
def HeaderBlock.Valid (h : HeaderBlock) : Prop :=
  h.versionNumber = 1 ∧ 2 ^ 24 ≤ h.volumePrefixId.toNat ∧
    crc32cRef (h.image.take (sizeofHeaderBlock - 4)) 0 = h.headerCrc32c

instance (h : HeaderBlock) : Decidable h.Valid := inferInstanceAs (Decidable (_ ∧ _ ∧ _))

theorem volumePrefixId_lt_iff (h : HeaderBlock) :
    h.volumePrefixId < (1 : UInt32) <<< 24 ↔ ¬ 2 ^ 24 ≤ h.volumePrefixId.toNat :=
  (Nat.not_le).symm

theorem validateHeader_eq (h : HeaderBlock) (addr : Nat) :
    validateHeader h addr = if h.Valid then 1 else 0 := by
  simp only [validateHeader, HeaderBlock.Valid, volumePrefixId_lt_iff, crc32cSse42_eq_ref, ne_eq,
    ite_not, ite_and]

theorem Cpp.validateHeader_eq (h : HeaderBlock) (addr : Nat) :
    Cpp.validateHeader h addr = decide h.Valid := by
  simp only [Cpp.validateHeader, HeaderBlock.Valid, volumePrefixId_lt_iff, Cpp.crc32c,
    crc32cSse42_eq_ref, ne_eq, ite_not, Bool.if_false_right, Bool.and_true, Bool.decide_and]

/-! ## The stored checksum inside the checksummed range -/

/-- A 4-byte word `x` at the end of the data moves the CRC by `x` shifted 32 times. -/
theorem toNat_crc32cRef_append_leBytes (pre : List UInt8) (x : Nat) (p : UInt32) :
    (crc32cRef (pre ++ leBytes 4 x) p).toNat =
      (crc32cRef (pre ++ leBytes 4 0) p).toNat ^^^ crcShift^[32] (x % 2 ^ 32) := by
  have hlen : ∀ y, (pre ++ leBytes 4 y).length = pre.length + 4 := fun y => by simp
  have hsplit : 8 * (pre.length + 4) = 32 + 8 * pre.length := by omega
  have hval : leValue (pre ++ leBytes 4 x) = leValue pre ^^^ (x % 2 ^ 32) <<< (8 * pre.length) := by
    rw [leValue_append, leValue_leBytes, Nat.mul_comm (2 ^ _), ← Nat.shiftLeft_eq]
    exact add_shiftLeft_eq_xor _ (leValue_lt pre)
  have hval0 : leValue (pre ++ leBytes 4 0) = leValue pre := by simp [leValue_append, leValue_leBytes]
  rw [toNat_crc32cRef, toNat_crc32cRef, hlen, hlen, hval, hval0, ← Nat.xor_assoc,
    iterate_crcShift_xor, hsplit, Function.iterate_add, Function.comp_apply, Function.comp_apply,
    iterate_crcShift_shiftLeft]
  exact (Nat.xor_assoc _ _ _).symm

/-- The CRC `validate_header` computes moves with `header_crc32c`, which it reads. -/
theorem toNat_crc32cRef_take_image (h : HeaderBlock) :
    (crc32cRef (h.image.take (sizeofHeaderBlock - 4)) 0).toNat =
      (crc32cRef ((h.setHeaderCrc32c 0).image.take (sizeofHeaderBlock - 4)) 0).toNat ^^^
        crcShift^[32] h.headerCrc32c.toNat := by
  rw [take_image, take_image, toNat_crc32cRef_append_leBytes, HeaderBlock.fieldBytes_setHeaderCrc32c,
    HeaderBlock.headerCrc32c_setHeaderCrc32c, UInt32.toNat_zero,
    Nat.mod_eq_of_lt (show h.headerCrc32c.toNat < 2 ^ 32 from h.headerCrc32c.toNat_lt_size)]

/-- A 32-bit `c` equals `c` xor `c` shifted 32 times only for `c = 0`. -/
theorem xor_iterate_crcShift_eq_self_iff (c : UInt32) :
    c.toNat ^^^ crcShift^[32] c.toNat = c.toNat ↔ c = 0 := by
  constructor
  · intro he
    have h0 : crcShift^[32] c.toNat = 0 := by
      simpa only [Nat.xor_cancel_left, Nat.xor_self] using congrArg (c.toNat ^^^ ·) he
    exact UInt32.toNat.inj (iterate_crcShift_eq_zero c.toNat_lt_size h0)
  · rintro rfl
    simp

/-- Stamping writes the CRC `c` of the header with `header_crc32c = 0`; the validators then
compute `c` xor `c` shifted 32 times, which is `c` only for `c = 0`. -/
theorem valid_stampHeader_iff (h : HeaderBlock) (addr : Nat) :
    (stampHeader h addr).Valid ↔ h.versionNumber = 1 ∧ 2 ^ 24 ≤ h.volumePrefixId.toNat ∧
      (stampHeader h addr).headerCrc32c = 0 := by
  have hc : crc32cRef ((h.setHeaderCrc32c 0).image.take (sizeofHeaderBlock - 4)) 0 =
      (stampHeader h addr).headerCrc32c := by
    rw [stampHeader, HeaderBlock.headerCrc32c_setHeaderCrc32c, Cpp.crc32c, crc32cSse42_eq_ref]
  have hcheck : crc32cRef ((stampHeader h addr).image.take (sizeofHeaderBlock - 4)) 0 =
      (stampHeader h addr).headerCrc32c ↔ (stampHeader h addr).headerCrc32c = 0 := by
    have hx := toNat_crc32cRef_take_image (stampHeader h addr)
    rw [show (stampHeader h addr).setHeaderCrc32c 0 = h.setHeaderCrc32c 0 from rfl, hc] at hx
    rw [← xor_iterate_crcShift_eq_self_iff, ← hx]
    exact ⟨congrArg _, UInt32.toNat.inj⟩
  exact and_congr Iff.rfl (and_congr Iff.rfl hcheck)

/-- On a header with a valid version and prefix, the stamp of the `ValidateHeader` test makes
`validate_header` and `validateHeader` accept exactly when the stamp is 0. -/
theorem validateHeader_stampHeader (h : HeaderBlock) (addr addr' : Nat)
    (hv : h.versionNumber = 1) (hp : 2 ^ 24 ≤ h.volumePrefixId.toNat) :
    (validateHeader (stampHeader h addr) addr' = 1 ↔ (stampHeader h addr).headerCrc32c = 0) ∧
      (Cpp.validateHeader (stampHeader h addr) addr' = true ↔
        (stampHeader h addr).headerCrc32c = 0) := by
  have hiff : (stampHeader h addr).Valid ↔ (stampHeader h addr).headerCrc32c = 0 := by
    rw [valid_stampHeader_iff]
    exact ⟨fun hs => hs.2.2, fun h0 => ⟨hv, hp, h0⟩⟩
  rw [validateHeader_eq, Cpp.validateHeader_eq, decide_eq_true_iff, ← hiff]
  refine ⟨?_, Iff.rfl⟩
  split_ifs with hs <;> simp [hs]

set_option maxRecDepth 20000 in
/-- The stamp of the `ValidateHeader` test: the CRC-32C of its 76 bytes, wherever it is. -/
theorem stampHeader_testHeader (addr : Nat) :
    (stampHeader testHeader addr).headerCrc32c = 0x5302d1f8 := by
  apply UInt32.toNat.inj
  rw [stampHeader, HeaderBlock.headerCrc32c_setHeaderCrc32c, Cpp.crc32c, crc32cSse42_eq_ref,
    take_image, toNat_crc32cRef]
  decide

theorem validateHeader_stampHeader_testHeader :
    testHeader.versionNumber = 1 ∧ 2 ^ 24 ≤ testHeader.volumePrefixId.toNat ∧
      validateHeader (stampHeader testHeader 0) 0 = 0 ∧
      Cpp.validateHeader (stampHeader testHeader 0) 0 = false := by
  have hst := validateHeader_stampHeader testHeader 0 0 rfl (by decide)
  rw [stampHeader_testHeader] at hst
  refine ⟨rfl, by decide, ?_, by simpa using hst.2⟩
  rw [validateHeader_eq] at hst ⊢
  split_ifs at hst ⊢ <;> simp_all

/-! ## `get_k_blocks_in_stripe` -/

/-- The loop of `get_k_blocks_in_stripe` from `count`: step down while `shard_ids[count - 2]`
equals `shard_ids[count - 1]`, and stop at 1. -/
def countLoop (shardIds : List UInt8) : Nat → Nat
  | count + 2 =>
    if shardIds.getD count 0 = shardIds.getD (count + 1) 0 then countLoop shardIds (count + 1)
    else count + 2
  | count => count

/-- `get_k_blocks_in_stripe(header)`. -/
def getKBlocksInStripe (h : HeaderBlock) : Nat := countLoop h.shardIds 8

/-- `getKBlocksInStripe(header)` of `blockaio.cpp`: the same loop. -/
def Cpp.getKBlocksInStripe (h : HeaderBlock) : Nat := countLoop h.shardIds 8

/-- `K` counts back over the final run of the first `count` ids: the ids from `K - 1` to
`count - 1` are all equal, and the one before them, if any, differs. -/
structure FinalRun (ids : List UInt8) (count K : Nat) : Prop where
  one_le : 1 ≤ K
  le_count : K ≤ count
  run : ∀ j, K - 1 ≤ j → j < count → ids.getD j 0 = ids.getD (count - 1) 0
  ne_before : 1 < K → ids.getD (K - 2) 0 ≠ ids.getD (K - 1) 0

/-- From any `count ≥ 1` the loop stops at the start of the final run, plus one. -/
theorem countLoop_spec (ids : List UInt8) : ∀ {count : Nat}, 1 ≤ count →
    FinalRun ids count (countLoop ids count)
  | 0, h => absurd h (by decide)
  | 1, _ => ⟨le_rfl, le_rfl, fun j _ hj => by rw [Nat.lt_one_iff.mp hj], fun h => absurd h (lt_irrefl 1)⟩
  | count + 2, _ => by
    rw [countLoop]
    split_ifs with he
    · have ih := countLoop_spec ids (show 1 ≤ count + 1 by omega)
      refine ⟨ih.one_le, by have := ih.le_count; omega, fun j h1 h2 => ?_, ih.ne_before⟩
      rcases Nat.lt_succ_iff_lt_or_eq.mp h2 with hj | rfl
      · rw [ih.run j h1 hj, show count + 1 - 1 = count by omega, he]
        rfl
      · rfl
    · exact ⟨by omega, le_rfl, fun j h1 h2 => by rw [show j = count + 1 by omega]; rfl, fun _ => he⟩

theorem getElem?_eq_some_getD {ids : List UInt8} {j : Nat} (hj : j < ids.length) :
    ids[j]? = some (ids.getD j 0) := by
  rw [List.getD_eq_getElem?_getD, List.getElem?_eq_getElem hj]
  rfl

/-- Past the start of the final run no new id appears. -/
theorem toFinset_eq_toFinset_take {ids : List UInt8} {K : Nat}
    (hK : FinalRun ids ids.length K) : ids.toFinset = (ids.take K).toFinset := by
  conv_lhs => rw [← List.take_append_drop K ids]
  rw [List.toFinset_append, Finset.union_eq_left]
  intro x hx
  rw [List.mem_toFinset, List.mem_iff_getElem?] at hx
  obtain ⟨n, hn⟩ := hx
  rw [List.getElem?_drop] at hn
  have hlt : K + n < ids.length := by
    by_contra hc
    rw [List.getElem?_eq_none (by omega)] at hn
    cases hn
  have hx : ids.getD (K + n) 0 = x := by rw [List.getD_eq_getElem?_getD, hn]; rfl
  have h1 := hK.one_le
  rw [List.mem_toFinset, List.mem_iff_getElem?]
  refine ⟨K - 1, ?_⟩
  rw [List.getElem?_take_of_lt (by omega), getElem?_eq_some_getD (by omega), ← hx,
    hK.run (K - 1) le_rfl (by omega), hK.run (K + n) (by omega) hlt]

/-- The ids before `K` are `K` distinct values exactly when none repeats. -/
theorem card_toFinset_take {ids : List UInt8} {K : Nat} (hK : K ≤ ids.length) :
    (ids.take K).toFinset.card = K ↔ (ids.take K).Nodup := by
  have := Multiset.toFinset_card_eq_card_iff_nodup (m := (ids.take K : Multiset UInt8))
  simpa [List.length_take, hK] using this

/-- `get_k_blocks_in_stripe` and `getKBlocksInStripe` count back over the final run of
`shard_ids`, and that is the number of distinct ids exactly when no id repeats before the
final run. -/
theorem getKBlocksInStripe_spec (h : HeaderBlock) :
    Cpp.getKBlocksInStripe h = getKBlocksInStripe h ∧ FinalRun h.shardIds 8 (getKBlocksInStripe h) ∧
      (getKBlocksInStripe h = h.shardIds.toFinset.card ↔
        (h.shardIds.take (getKBlocksInStripe h)).Nodup) := by
  have hrun := countLoop_spec h.shardIds (show 1 ≤ 8 by decide)
  refine ⟨rfl, hrun, ?_⟩
  have hrun' : FinalRun h.shardIds h.shardIds.length (getKBlocksInStripe h) := by
    rw [h.length_shardIds]
    exact hrun
  rw [toFinset_eq_toFinset_take hrun', eq_comm,
    card_toFinset_take (by rw [h.length_shardIds]; exact hrun.le_count)]

/-- Sorted ids with a repeat before the final run: three blocks counted, two distinct ids. -/
theorem getKBlocksInStripe_repeat_before_final_run :
    ([1, 1, 2, 2, 2, 2, 2, 2] : List UInt8).Sorted (· ≤ ·) ∧
      getKBlocksInStripe
          { testHeader with shardIds := [1, 1, 2, 2, 2, 2, 2, 2], length_shardIds := rfl } = 3 ∧
      ([1, 1, 2, 2, 2, 2, 2, 2] : List UInt8).toFinset.card = 2 := by
  decide

/-- Ids padded with a value other than the last id, as the tests of `test-blockaio.cpp` pad
three ids with zeros: the padding is the final run, and both versions count it as one more
shard. -/
theorem getKBlocksInStripe_padding (h : HeaderBlock) {j : Nat} {v : UInt8} (hj : 0 < j)
    (hj8 : j < 8) (hpad : ∀ i, j ≤ i → i < 8 → h.shardIds.getD i 0 = v)
    (hlast : h.shardIds.getD (j - 1) 0 ≠ v) :
    getKBlocksInStripe h = j + 1 ∧ Cpp.getKBlocksInStripe h = j + 1 := by
  have hrun : FinalRun h.shardIds 8 (getKBlocksInStripe h) :=
    countLoop_spec h.shardIds (show 1 ≤ 8 by decide)
  have h1 := hrun.one_le
  have h8 := hrun.le_count
  have h7 : h.shardIds.getD 7 0 = v := hpad 7 (by omega) (by decide)
  have hK : getKBlocksInStripe h = j + 1 := by
    rcases lt_trichotomy (getKBlocksInStripe h - 1) j with hlt | heq | hgt
    · exact absurd ((hrun.run (j - 1) (by omega) (by omega)).trans h7) hlast
    · omega
    · exact absurd ((hpad _ (by omega) (by omega)).trans (hpad _ (by omega) (by omega)).symm)
        (hrun.ne_before (by omega))
  exact ⟨hK, hK⟩

/-- The header of the tests `GetKBlocksInStripe` and `ComputeOffsetToBlock`: ids `1, 2, 3`
and five zeros give `4`, where the test expects `3`. -/
theorem getKBlocksInStripe_padding_gtest :
    0 < 3 ∧ 3 < 8 ∧
      (∀ i, 3 ≤ i → i < 8 → ([1, 2, 3, 0, 0, 0, 0, 0] : List UInt8).getD i 0 = 0) ∧
      ([1, 2, 3, 0, 0, 0, 0, 0] : List UInt8).getD (3 - 1) 0 ≠ 0 ∧
      getKBlocksInStripe
          { testHeader with shardIds := [1, 2, 3, 0, 0, 0, 0, 0], length_shardIds := rfl } = 3 + 1 ∧
      Cpp.getKBlocksInStripe
          { testHeader with shardIds := [1, 2, 3, 0, 0, 0, 0, 0], length_shardIds := rfl } = 3 + 1 := by
  have hpad : ∀ i, 3 ≤ i → i < 8 → ([1, 2, 3, 0, 0, 0, 0, 0] : List UInt8).getD i 0 = 0 := by
    decide
  exact ⟨by decide, by decide, hpad, by decide,
    getKBlocksInStripe_padding _ (by decide) (by decide) hpad (by decide)⟩

/-! ## `compute_offset_to_block` -/

/-- The search loop of `compute_offset_to_block` over the remaining ids, with `offset` a
`size_t`: the first id equal to `shard_id` returns `offset` as `int`; past the last one the
function calls `abort()`. -/
def offsetLoop (shardId : Int) : List UInt8 → Nat → CResult Int
  | [], _ => .abort
  | id :: ids, offset =>
    if (id.toNat : Int) = shardId then .ret (sizeToInt offset)
    else offsetLoop shardId ids ((offset + 4096) % 2 ^ 64)

/-- `compute_offset_to_block(header, stripe_number, shard_id)`: the `int` product
`4096 * K * stripe_number`, added to the `size_t` offset 0, then the search loop. -/
def computeOffsetToBlock (h : HeaderBlock) (stripeNumber shardId : Int) : CResult Int :=
  match intMul (4096 * (getKBlocksInStripe h : Int)) stripeNumber with
  | none => .undefined
  | some product => offsetLoop shardId h.shardIds (product % 2 ^ 64).toNat

/-- `computeOffsetToBlock(header, stripe_number, shard_id)` of `blockaio.cpp`: the same code. -/
def Cpp.computeOffsetToBlock (h : HeaderBlock) (stripeNumber shardId : Int) : CResult Int :=
  match intMul (4096 * (Cpp.getKBlocksInStripe h : Int)) stripeNumber with
  | none => .undefined
  | some product => offsetLoop shardId h.shardIds (product % 2 ^ 64).toNat

/-- `shard_id` first occurs at index `p` of `ids`. -/
structure FirstAt (ids : List UInt8) (shardId : Int) (p : Nat) : Prop where
  lt_length : p < ids.length
  eq : ((ids.getD p 0).toNat : Int) = shardId
  ne_before : ∀ j < p, ((ids.getD j 0).toNat : Int) ≠ shardId

theorem sizeToInt_mod {x y : Nat} (h : x % 2 ^ 32 = y % 2 ^ 32) : sizeToInt x = sizeToInt y := by
  rw [sizeToInt, sizeToInt, h]

/-- The loop returns the offset `4096 p` past its start, `p` the first match. -/
theorem offsetLoop_eq {a : Int} :
    ∀ {ids : List UInt8} {p : Nat} (offset : Nat), FirstAt ids a p →
      offsetLoop a ids offset = .ret (sizeToInt (offset + 4096 * p))
  | [], _, _, hp => absurd hp.lt_length (Nat.not_lt_zero _)
  | id :: ids, 0, offset, hp => by
    have he : (id.toNat : Int) = a := hp.eq
    rw [offsetLoop, if_pos he, Nat.mul_zero, Nat.add_zero]
  | id :: ids, p + 1, offset, hp => by
    have hne : (id.toNat : Int) ≠ a := hp.ne_before 0 (Nat.succ_pos p)
    have hrest : FirstAt ids a p :=
      ⟨Nat.lt_of_succ_lt_succ hp.lt_length, hp.eq, fun j hj => hp.ne_before (j + 1) (by omega)⟩
    rw [offsetLoop, if_neg hne, offsetLoop_eq _ hrest]
    exact congrArg _ (sizeToInt_mod (by omega))

/-- An id's first position is inside the stripe: before the final run, or its first id. -/
theorem FirstAt.lt_getKBlocksInStripe {h : HeaderBlock} {a : Int} {p : Nat}
    (hp : FirstAt h.shardIds a p) : p < getKBlocksInStripe h := by
  have hrun : FinalRun h.shardIds 8 (getKBlocksInStripe h) := countLoop_spec h.shardIds (by decide)
  have h1 := hrun.one_le
  by_contra hle
  have h8 : p < 8 := h.length_shardIds ▸ hp.lt_length
  refine hp.ne_before (getKBlocksInStripe h - 1) (by omega) ?_
  rw [hrun.run _ le_rfl (by omega), ← hrun.run p (by omega) h8]
  exact hp.eq

/-- From stripe `s ≥ 0`: undefined once `4096 K s` leaves `int`, and otherwise the
`int` conversion of `4096 (K s + p)`. -/
theorem computeOffsetToBlock_eq (h : HeaderBlock) {s a : Int} (hs : 0 ≤ s) {p : Nat}
    (hp : FirstAt h.shardIds a p) :
    computeOffsetToBlock h s a =
      if 4096 * getKBlocksInStripe h * s < 2 ^ 31 then
        .ret (sizeToInt (4096 * (getKBlocksInStripe h * s + p)).toNat)
      else .undefined := by
  have hK : 1 ≤ getKBlocksInStripe h := (countLoop_spec h.shardIds (show 1 ≤ 8 by decide)).one_le
  have hprod : 0 ≤ 4096 * (getKBlocksInStripe h : Int) * s := Int.mul_nonneg (by omega) hs
  unfold computeOffsetToBlock
  split_ifs with hlt
  · rw [intMul_of_inInt ⟨by omega, hlt⟩]
    dsimp only
    have hx : 4096 * ((getKBlocksInStripe h : Int) * s + p) =
        4096 * getKBlocksInStripe h * s + ((4096 * p : Nat) : Int) := by
      push_cast
      ring
    rw [offsetLoop_eq _ hp, Int.emod_eq_of_lt hprod (by omega), hx, Int.toNat_add_nat hprod]
  · rw [intMul_of_not_inInt fun hin => hlt hin.2]

/-- For a stripe `s ≥ 0` and a shard id first at `p`, in both versions: `p < K`, and the result is
`4096 (K s + p)` while that is below `2^31`, and never that value beyond, where the `int`
product is undefined or the `int` return value wraps. -/
theorem computeOffsetToBlock_spec (h : HeaderBlock) {s a : Int} (hs : 0 ≤ s) {p : Nat}
    (hp : FirstAt h.shardIds a p) :
    Cpp.computeOffsetToBlock h s a = computeOffsetToBlock h s a ∧ p < getKBlocksInStripe h ∧
      (4096 * (getKBlocksInStripe h * s + p) < 2 ^ 31 →
        computeOffsetToBlock h s a = .ret (4096 * (getKBlocksInStripe h * s + p))) ∧
      (2 ^ 31 ≤ 4096 * (getKBlocksInStripe h * s + p) →
        computeOffsetToBlock h s a ≠ .ret (4096 * (getKBlocksInStripe h * s + p))) := by
  have hKs : 0 ≤ (getKBlocksInStripe h : Int) * s := Int.mul_nonneg (by omega) hs
  have hassoc := Int.mul_assoc 4096 (getKBlocksInStripe h : Int) s
  refine ⟨rfl, hp.lt_getKBlocksInStripe, fun hlt => ?_, fun hge => ?_⟩
  · rw [computeOffsetToBlock_eq h hs hp, if_pos (by omega), sizeToInt_of_lt (by omega),
      Int.toNat_of_nonneg (by omega)]
  · rw [computeOffsetToBlock_eq h hs hp]
    split_ifs
    · intro he
      have hin := inInt_sizeToInt (4096 * (getKBlocksInStripe h * s + p)).toNat
      rw [CResult.ret.inj he] at hin
      exact absurd hin.2 (by omega)
    · exact fun he => CResult.noConfusion he

/-- All ids equal (`K = 1`) and stripe `2^19`: `4096 * 1 * 2^19 = 2^31` overflows `int`. -/
theorem computeOffsetToBlock_spec_stripe_two_pow_19 :
    (0 : Int) ≤ 2 ^ 19 ∧ FirstAt testHeader.shardIds 0 0 ∧
      computeOffsetToBlock testHeader (2 ^ 19) 0 ≠
        .ret (4096 * (getKBlocksInStripe testHeader * 2 ^ 19 + (0 : Nat))) ∧
      computeOffsetToBlock testHeader (2 ^ 19) 0 = .undefined := by
  have hp : FirstAt testHeader.shardIds 0 0 := ⟨by decide, rfl, fun _ hj => absurd hj (by omega)⟩
  exact ⟨by decide, hp, (computeOffsetToBlock_spec testHeader (by decide) hp).2.2.2 (by decide),
    by decide⟩

/-- The test `ComputeOffsetToBlock` expects `3 * 4096` for shard `1` of stripe `1`; the padding
is a fourth shard. -/
example : computeOffsetToBlock
    { testHeader with shardIds := [1, 2, 3, 0, 0, 0, 0, 0], length_shardIds := rfl } 1 1 =
      .ret (4 * 4096) := by decide

/-- An id absent from `shard_ids` runs the loop off the end of the list, into `abort()`. -/
theorem offsetLoop_eq_abort {a : Int} :
    ∀ {ids : List UInt8} (offset : Nat), (∀ x ∈ ids, (x.toNat : Int) ≠ a) →
      offsetLoop a ids offset = .abort
  | [], _, _ => rfl
  | id :: ids, offset, hne => by
    rw [offsetLoop, if_neg (hne id (List.mem_cons_self _ _)),
      offsetLoop_eq_abort _ fun x hx => hne x (List.mem_cons_of_mem _ hx)]

/-- A shard id that is not in the header: in both versions, `abort()` from every stripe `s ≥ 0`
whose product `4096 K s` fits in an `int`, and undefined from the others. -/
theorem computeOffsetToBlock_absent (h : HeaderBlock) {s a : Int} (hs : 0 ≤ s)
    (ha : ∀ x ∈ h.shardIds, (x.toNat : Int) ≠ a) :
    Cpp.computeOffsetToBlock h s a = computeOffsetToBlock h s a ∧
      computeOffsetToBlock h s a =
        if 4096 * getKBlocksInStripe h * s < 2 ^ 31 then .abort else .undefined := by
  have hprod : 0 ≤ 4096 * (getKBlocksInStripe h : Int) * s := Int.mul_nonneg (by omega) hs
  refine ⟨rfl, ?_⟩
  unfold computeOffsetToBlock
  split_ifs with hlt
  · rw [intMul_of_inInt ⟨by omega, hlt⟩]
    exact offsetLoop_eq_abort _ ha
  · rw [intMul_of_not_inInt fun hin => hlt hin.2]

/-- The test header's ids are all `0`: shard `1` of stripe `0` aborts. -/
theorem computeOffsetToBlock_absent_testHeader :
    (0 : Int) ≤ 0 ∧ (∀ x ∈ testHeader.shardIds, (x.toNat : Int) ≠ 1) ∧
      computeOffsetToBlock testHeader 0 1 = .abort := by
  have ha : ∀ x ∈ testHeader.shardIds, (x.toNat : Int) ≠ 1 := by decide
  exact ⟨le_rfl, ha, (computeOffsetToBlock_absent testHeader le_rfl ha).2.trans (if_pos (by decide))⟩

end Kelp.BlockAio
