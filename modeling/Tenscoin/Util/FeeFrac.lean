import Mathlib
import Tenscoin.Lib.Radix

/-!
# Fee fractions

`FeeFrac` (util/feefrac.h) is a fee and a size, compared by feerate through cross products
`Mul(a.fee, b.size)` and `Mul(b.fee, a.size)`. `Mul` is an `__int128` product where the compiler
has one, and otherwise `MulFallback`, which returns the product as a pair (high word, low
word) built from two 64-bit products. The comparisons are written once, for any product `mul`
and any comparison `cmp` of its results (`FeeRateCompare`, `lowerFeeRate`, `higherFeeRate`,
`threeWay`), and both choices of `Mul` are instances.

* `toInt_low`, `toInt_high`, `toInt_MulFallback_fst`: none of `MulFallback`'s 64-bit
  operations wraps;
* `pairValue_MulFallback`: the pair stands for the exact product;
* `threeWay_congr` and its siblings: the comparisons through one product agree with those
  through another whose results it maps into, order-preservingly and injectively, so the
  fallback decides as `__int128` does (`Radix.compare_mul_add`).
-/

namespace Tenscoin

/-- `FeeFrac`: a fee and a size, ordered by increasing fee/size. -/
structure FeeFrac where
  fee : Int64
  size : Int32
  deriving DecidableEq, Repr

namespace FeeFrac

/-! ### The two products -/

/-- The `int64_t` `low` of `MulFallback`: the low 32 bits of `a`, unsigned, times `b`. -/
def mulFallbackLow (a : Int64) (b : Int32) : Int64 :=
  a.toUInt64.toUInt32.toUInt64.toInt64 * b.toInt64

/-- The `int64_t` `high` of `MulFallback`: `a` shifted right arithmetically by 32, times `b`. -/
def mulFallbackHigh (a : Int64) (b : Int32) : Int64 :=
  (a >>> 32) * b.toInt64

/-- `MulFallback`: emulate 96-bit multiplication using two 64-bit multiplies. -/
def MulFallback (a : Int64) (b : Int32) : Int64 × UInt32 :=
  let low := mulFallbackLow a b
  let high := mulFallbackHigh a b
  (high + (low >>> 32), low.toUInt64.toUInt32)

/-- `Mul` where `__int128` is available: the exact product. -/
def Mul (a : Int64) (b : Int32) : ℤ := a.toInt * b.toInt

/-- `<=>` of `std::pair<int64_t, uint32_t>`: lexicographic. -/
def comparePair (p q : Int64 × UInt32) : Ordering :=
  (compare p.1 q.1).then (compare p.2 q.2)

/-- The number a pair (high word, low word) stands for. -/
def pairValue (p : Int64 × UInt32) : ℤ := p.1.toInt * 2 ^ 32 + p.2.toNat

/-! ### The comparisons, for either product -/

section Compare

variable {α : Type} [DecidableEq α] (mul : Int64 → Int32 → α) (cmp : α → α → Ordering)

/-- `FeeRateCompare`: compare two FeeFracs just by feerate. -/
def FeeRateCompare (a b : FeeFrac) : Ordering :=
  cmp (mul a.fee b.size) (mul b.fee a.size)

/-- `operator<<`: whether `a` has strictly lower feerate than `b`. -/
def lowerFeeRate (a b : FeeFrac) : Bool :=
  cmp (mul a.fee b.size) (mul b.fee a.size) == .lt

/-- `operator>>`: whether `a` has strictly higher feerate than `b`. -/
def higherFeeRate (a b : FeeFrac) : Bool :=
  cmp (mul a.fee b.size) (mul b.fee a.size) == .gt

/-- `operator<=>`: by feerate, and at equal cross products by decreasing size. -/
def threeWay (a b : FeeFrac) : Ordering :=
  let cross_a := mul a.fee b.size
  let cross_b := mul b.fee a.size
  if cross_a = cross_b then compare b.size a.size else cmp cross_a cross_b

end Compare

/-! ### Machine words -/

theorem compare_toInt (a b : Int64) : compare a b = compare a.toInt b.toInt := by
  simp only [compare, compareOfLessAndEq, Int64.lt_iff_toInt_lt, Int64.toInt_inj]

/-- A signed 64-bit operation does not wrap when its exact value is in range. -/
theorem bmod_of_range {x : ℤ} (h₁ : -2 ^ 63 ≤ x) (h₂ : x < 2 ^ 63) : x.bmod (2 ^ 64) = x :=
  Int.bmod_eq_of_le (by norm_num; omega) (by norm_num; omega)

/-- `static_cast<uint32_t>` of a signed word is its value modulo `2 ^ 32`. -/
theorem toNat_toUInt32 (a : Int64) : (a.toUInt64.toUInt32.toNat : ℤ) = a.toInt % 2 ^ 32 := by
  have hdvd : (2 : ℤ) ^ 32 ∣ 2 ^ 64 := pow_dvd_pow 2 (by norm_num)
  have hb : ((a.toBitVec.toNat : ℤ).bmod (2 ^ 64)) % 2 ^ 64 = (a.toBitVec.toNat : ℤ) % 2 ^ 64 := by
    have := @Int.bmod_emod (a.toBitVec.toNat : ℤ) (2 ^ 64)
    push_cast at this
    exact this
  rw [← Int64.toInt_toBitVec, BitVec.toInt_eq_toNat_bmod, ← Int.emod_emod_of_dvd _ hdvd, hb,
    Int.emod_emod_of_dvd _ hdvd, UInt64.toNat_toUInt32]
  push_cast
  rfl

/-- `int64_t{static_cast<uint32_t>(a)}` is `a` modulo `2 ^ 32`. -/
theorem toInt_toUInt32 (a : Int64) :
    a.toUInt64.toUInt32.toUInt64.toInt64.toInt = a.toInt % 2 ^ 32 := by
  have hlt : 2 * a.toUInt64.toUInt32.toUInt64.toInt64.toBitVec.toNat < 2 ^ 64 := by
    have := a.toUInt64.toUInt32.toNat_lt
    change 2 * a.toUInt64.toUInt32.toUInt64.toNat < _
    rw [UInt32.toNat_toUInt64]
    omega
  rw [← Int64.toInt_toBitVec, BitVec.toInt_eq_toNat_of_lt hlt, ← toNat_toUInt32]
  rfl

/-- The arithmetic shift `a >> 32` is the floor of `a / 2 ^ 32`. -/
theorem toInt_shiftRight_32 (a : Int64) : (a >>> 32).toInt = a.toInt / 2 ^ 32 := by
  have h : ((32 : Int64).toBitVec.smod 64).toNat = 32 := by decide
  rw [← Int64.toInt_toBitVec, Int64.toBitVec_shiftRight, BitVec.toInt_sshiftRight', h,
    Int.shiftRight_eq_div_pow, Int64.toInt_toBitVec]
  rfl

/-! ### `MulFallback` is exact -/

section Fallback

variable (a : Int64) (b : Int32)

/-- The two halves of `a`: `a / 2 ^ 32` is a signed 32-bit value, `a % 2 ^ 32` an unsigned one. -/
theorem halves_bounds :
    (-2 ^ 31 ≤ a.toInt / 2 ^ 32 ∧ a.toInt / 2 ^ 32 < 2 ^ 31) ∧
      (0 ≤ a.toInt % 2 ^ 32 ∧ a.toInt % 2 ^ 32 < 2 ^ 32) := by
  have h₁ := Int64.le_toInt a
  have h₂ := Int64.toInt_lt a
  refine ⟨⟨by omega, by omega⟩, Int.emod_nonneg _ (by norm_num), Int.emod_lt_of_pos _ (by norm_num)⟩

/-- `|high| ≤ 2 ^ 62`: a product of two signed 32-bit values. -/
theorem high_bounds :
    -2 ^ 62 ≤ a.toInt / 2 ^ 32 * b.toInt ∧ a.toInt / 2 ^ 32 * b.toInt ≤ 2 ^ 62 := by
  obtain ⟨⟨ha₁, ha₂⟩, -⟩ := halves_bounds a
  have hb₁ := Int32.le_toInt b
  have hb₂ := Int32.toInt_lt b
  constructor <;> nlinarith

/-- `|low| < 2 ^ 63`: an unsigned 32-bit value times a signed one. -/
theorem low_bounds :
    -2 ^ 63 ≤ a.toInt % 2 ^ 32 * b.toInt ∧ a.toInt % 2 ^ 32 * b.toInt < 2 ^ 63 := by
  obtain ⟨-, ha₁, ha₂⟩ := halves_bounds a
  have hb₁ := Int32.le_toInt b
  have hb₂ := Int32.toInt_lt b
  constructor <;> nlinarith

theorem toInt_low : (mulFallbackLow a b).toInt = a.toInt % 2 ^ 32 * b.toInt := by
  rw [mulFallbackLow, Int64.toInt_mul, toInt_toUInt32, Int32.toInt_toInt64]
  exact bmod_of_range (low_bounds a b).1 (low_bounds a b).2

theorem toInt_high : (mulFallbackHigh a b).toInt = a.toInt / 2 ^ 32 * b.toInt := by
  obtain ⟨h₁, h₂⟩ := high_bounds a b
  rw [mulFallbackHigh, Int64.toInt_mul, toInt_shiftRight_32, Int32.toInt_toInt64]
  exact bmod_of_range (by omega) (by omega)

/-- The high word `high + (low >> 32)` is computed without wrapping. -/
theorem toInt_MulFallback_fst :
    (MulFallback a b).1.toInt = a.toInt / 2 ^ 32 * b.toInt + a.toInt % 2 ^ 32 * b.toInt / 2 ^ 32 := by
  obtain ⟨hh₁, hh₂⟩ := high_bounds a b
  obtain ⟨hl₁, hl₂⟩ := low_bounds a b
  rw [MulFallback, Int64.toInt_add, toInt_high, toInt_shiftRight_32, toInt_low]
  exact bmod_of_range (by omega) (by omega)

/-- **`MulFallback` is exact**: `high * 2 ^ 32 + low = a * b`. -/
theorem pairValue_MulFallback : pairValue (MulFallback a b) = Mul a b := by
  have hlow : ((MulFallback a b).2.toNat : ℤ) = a.toInt % 2 ^ 32 * b.toInt % 2 ^ 32 := by
    rw [MulFallback, toNat_toUInt32, toInt_low]
  rw [pairValue, toInt_MulFallback_fst, hlow, Mul]
  calc (a.toInt / 2 ^ 32 * b.toInt + a.toInt % 2 ^ 32 * b.toInt / 2 ^ 32) * 2 ^ 32
        + a.toInt % 2 ^ 32 * b.toInt % 2 ^ 32
      = (2 ^ 32 * (a.toInt / 2 ^ 32) + a.toInt % 2 ^ 32) * b.toInt := by
        have := Int.ediv_mul_add_emod (a.toInt % 2 ^ 32 * b.toInt) (2 ^ 32)
        linear_combination this
    _ = a.toInt * b.toInt := by rw [Int.mul_ediv_add_emod]

end Fallback

/-- Pairs compare lexicographically as the numbers they stand for. -/
theorem comparePair_eq (p q : Int64 × UInt32) :
    comparePair p q = compare (pairValue p) (pairValue q) := by
  rw [comparePair, compare_toInt, UInt32.compare_eq_toNat_compare_toNat, pairValue, pairValue]
  exact (Radix.compare_mul_add (B := 2 ^ 32) p.2.toNat_lt q.2.toNat_lt).symm

theorem pairValue_inj {p q : Int64 × UInt32} (h : pairValue p = pairValue q) : p = q := by
  have hc := comparePair_eq p q
  rw [h, compare_eq_iff_eq.2 rfl, comparePair, Ordering.then_eq_eq, compare_toInt,
    UInt32.compare_eq_toNat_compare_toNat, compare_eq_iff_eq, compare_eq_iff_eq] at hc
  exact Prod.ext (Int64.toInt_inj.1 hc.1) (UInt32.toNat_inj.1 hc.2)

/-! ### The comparisons do not depend on the product -/

section Congr

variable {α β : Type} {mul : Int64 → Int32 → α}
  {mul' : Int64 → Int32 → β} {cmp : α → α → Ordering} {cmp' : β → β → Ordering} (f : α → β)

/-- `f` carries one product to the other and preserves its comparison and its equality. -/
structure ProductMap (mul : Int64 → Int32 → α) (mul' : Int64 → Int32 → β)
    (cmp : α → α → Ordering) (cmp' : β → β → Ordering) (f : α → β) : Prop where
  map_mul : ∀ a b, f (mul a b) = mul' a b
  map_cmp : ∀ x y, cmp' (f x) (f y) = cmp x y
  injective : Function.Injective f

variable {f}

theorem FeeRateCompare_congr (hf : ProductMap mul mul' cmp cmp' f) (a b : FeeFrac) :
    FeeRateCompare mul' cmp' a b = FeeRateCompare mul cmp a b := by
  rw [FeeRateCompare, FeeRateCompare, ← hf.map_mul, ← hf.map_mul, hf.map_cmp]

theorem lowerFeeRate_congr (hf : ProductMap mul mul' cmp cmp' f) (a b : FeeFrac) :
    lowerFeeRate mul' cmp' a b = lowerFeeRate mul cmp a b := by
  rw [lowerFeeRate, lowerFeeRate, ← hf.map_mul, ← hf.map_mul, hf.map_cmp]

theorem higherFeeRate_congr (hf : ProductMap mul mul' cmp cmp' f) (a b : FeeFrac) :
    higherFeeRate mul' cmp' a b = higherFeeRate mul cmp a b := by
  rw [higherFeeRate, higherFeeRate, ← hf.map_mul, ← hf.map_mul, hf.map_cmp]

theorem threeWay_congr [DecidableEq α] [DecidableEq β] (hf : ProductMap mul mul' cmp cmp' f) (a b : FeeFrac) :
    threeWay mul' cmp' a b = threeWay mul cmp a b := by
  simp only [threeWay, ← hf.map_mul, hf.map_cmp, hf.injective.eq_iff]

end Congr

/-- The fallback's pairs map to `__int128` products by their value. -/
theorem productMap_pairValue : ProductMap MulFallback Mul comparePair compare pairValue where
  map_mul := pairValue_MulFallback
  map_cmp p q := (comparePair_eq p q).symm
  injective _ _ := pairValue_inj

/-- **`MulFallback` is exact and decides as `Mul` does**: the pair `(high, low)` stands for
`a * b`, with no 64-bit operation wrapping on the way; pairs compare lexicographically as the
products do; so `FeeRateCompare`, `<<`, `>>` and `<=>` give the same results with either. -/
theorem MulFallback_exact_compare :
    (∀ a b, pairValue (MulFallback a b) = Mul a b ∧
      (mulFallbackLow a b).toInt = a.toInt % 2 ^ 32 * b.toInt ∧
      (mulFallbackHigh a b).toInt = a.toInt / 2 ^ 32 * b.toInt ∧
      (MulFallback a b).1.toInt = (mulFallbackHigh a b).toInt + (mulFallbackLow a b).toInt / 2 ^ 32) ∧
    (∀ a b c d, comparePair (MulFallback a b) (MulFallback c d) = compare (Mul a b) (Mul c d)) ∧
    (∀ x y : FeeFrac,
      FeeRateCompare MulFallback comparePair x y = FeeRateCompare Mul compare x y ∧
      lowerFeeRate MulFallback comparePair x y = lowerFeeRate Mul compare x y ∧
      higherFeeRate MulFallback comparePair x y = higherFeeRate Mul compare x y ∧
      threeWay MulFallback comparePair x y = threeWay Mul compare x y) := by
  refine ⟨fun a b => ⟨pairValue_MulFallback a b, toInt_low a b, toInt_high a b, ?_⟩,
    fun a b c d => ?_, fun x y => ?_⟩
  · rw [toInt_MulFallback_fst, toInt_high, toInt_low]
  · rw [comparePair_eq, pairValue_MulFallback, pairValue_MulFallback]
  · exact ⟨(FeeRateCompare_congr productMap_pairValue x y).symm,
      (lowerFeeRate_congr productMap_pairValue x y).symm,
      (higherFeeRate_congr productMap_pairValue x y).symm,
      (threeWay_congr productMap_pairValue x y).symm⟩

/-! ### `operator<=>` on FeeFracs as the header documents them -/

/-- A FeeFrac as the header documents it: a positive size, or the empty FeeFrac (fee and size
both 0). -/
def Valid (a : FeeFrac) : Prop := 0 < a.size.toInt ∨ (a.fee = 0 ∧ a.size = 0)

instance (a : FeeFrac) : Decidable a.Valid := inferInstanceAs (Decidable (_ ∨ _))

/-- The feerate `fee / size`; the empty FeeFrac's is above every other. -/
def feerate (a : FeeFrac) : WithTop ℚ :=
  if a.size = 0 then ⊤ else ((a.fee.toInt / a.size.toInt : ℚ) : WithTop ℚ)

/-- The documented order: by increasing feerate, then by decreasing size. -/
def sortKey (a : FeeFrac) : WithTop ℚ ×ₗ ℤ := toLex (feerate a, -a.size.toInt)

/-- Two comparisons agree when their strict orders do. -/
theorem compare_eq_compare_of_iff {α β : Type*} [LinearOrder α] [LinearOrder β] {a b : α}
    {a' b' : β} (hlt : a < b ↔ a' < b') (hgt : b < a ↔ b' < a') : compare a b = compare a' b' := by
  rcases lt_trichotomy a b with h | rfl | h
  · rw [compare_lt_iff_lt.2 h, compare_lt_iff_lt.2 (hlt.1 h)]
  · have : a' = b' := le_antisymm (not_lt.1 fun h' => lt_irrefl a (hgt.2 h'))
      (not_lt.1 fun h' => lt_irrefl a (hlt.2 h'))
    rw [compare_eq_iff_eq.2 rfl, compare_eq_iff_eq.2 this]
  · rw [compare_gt_iff_gt.2 h, compare_gt_iff_gt.2 (hgt.1 h)]

theorem compare_toInt32 (a b : Int32) : compare a b = compare a.toInt b.toInt := by
  simp only [compare, compareOfLessAndEq, Int32.lt_iff_toInt_lt, Int32.toInt_inj]

theorem feerate_of_pos {a : FeeFrac} (ha : 0 < a.size.toInt) :
    feerate a = ((a.fee.toInt / a.size.toInt : ℚ) : WithTop ℚ) := by
  have : a.size ≠ 0 := by
    intro h
    rw [h] at ha
    simp at ha
  rw [feerate, if_neg this]

theorem feerate_eq_top {a : FeeFrac} (ha : a.size = 0) : feerate a = ⊤ := by
  rw [feerate, if_pos ha]

/-- Between positive sizes the cross products compare as the feerates. -/
theorem compare_Mul_of_pos {a b : FeeFrac} (ha : 0 < a.size.toInt) (hb : 0 < b.size.toInt) :
    compare (Mul a.fee b.size) (Mul b.fee a.size) = compare (feerate a) (feerate b) := by
  have hab : (0 : ℚ) < a.size.toInt * b.size.toInt := by exact_mod_cast Int.mul_pos ha hb
  have hdiv : StrictMono fun q : ℚ => q / (a.size.toInt * b.size.toInt) :=
    fun _ _ h => div_lt_div_of_pos_right h hab
  rw [feerate_of_pos ha, feerate_of_pos hb, Radix.compare_strictMono WithTop.coe_strictMono,
    ← Radix.compare_strictMono (f := ((↑) : ℤ → ℚ)) Int.cast_strictMono (Mul a.fee b.size),
    ← Radix.compare_strictMono hdiv, Mul,
    Mul]
  congr 1 <;> (push_cast; field_simp)

theorem Mul_zero_left (b : Int32) : Mul 0 b = 0 := by simp [Mul]

theorem Mul_zero_right (a : Int64) : Mul a 0 = 0 := by simp [Mul]

theorem compare_neg (x y : ℤ) : compare (-x) (-y) = compare y x := by
  rcases lt_trichotomy x y with h | rfl | h
  · rw [compare_gt_iff_gt.2 (neg_lt_neg h), compare_gt_iff_gt.2 h]
  · rw [compare_eq_iff_eq.2 rfl, compare_eq_iff_eq.2 rfl]
  · rw [compare_lt_iff_lt.2 (neg_lt_neg h), compare_lt_iff_lt.2 h]

theorem compare_sortKey (a b : FeeFrac) :
    compare (sortKey a) (sortKey b) =
      (compare (feerate a) (feerate b)).then (compare b.size a.size) := by
  rw [sortKey, sortKey, Prod.Lex.compare_def]
  simp only [compareLex, compareOn, ofLex_toLex, compare_neg, compare_toInt32]

/-- **`operator<=>` is the documented order** on FeeFracs with a positive size and the empty
one: by increasing feerate, then by decreasing size. -/
theorem threeWay_eq_compare_sortKey {a b : FeeFrac} (ha : Valid a) (hb : Valid b) :
    threeWay Mul compare a b = compare (sortKey a) (sortKey b) := by
  rw [compare_sortKey, threeWay]
  rcases ha with ha | ⟨ha₁, ha₂⟩ <;> rcases hb with hb | ⟨hb₁, hb₂⟩
  · -- two feerates: the cross products decide unless they are equal
    rw [← compare_Mul_of_pos ha hb]
    split_ifs with h
    · rw [h, compare_eq_iff_eq.2 rfl, Ordering.eq_then]
    · cases hc : compare (Mul a.fee b.size) (Mul b.fee a.size)
      · rfl
      · exact absurd (compare_eq_iff_eq.1 hc) h
      · rfl
  · -- the empty FeeFrac is after every other
    have hs : compare (0 : Int32) a.size = .lt := by
      rw [compare_toInt32, Int32.toInt_zero, compare_lt_iff_lt]
      exact ha
    rw [feerate_of_pos ha, feerate_eq_top hb₂, hb₁, hb₂, Mul_zero_left, Mul_zero_right, if_pos rfl,
      hs, compare_lt_iff_lt.2 (WithTop.coe_lt_top _)]
    rfl
  · have hs : compare b.size (0 : Int32) = .gt := by
      rw [compare_toInt32, Int32.toInt_zero, compare_gt_iff_gt]
      exact hb
    rw [feerate_of_pos hb, feerate_eq_top ha₂, ha₁, ha₂, Mul_zero_left, Mul_zero_right, if_pos rfl,
      hs, compare_gt_iff_gt.2 (WithTop.coe_lt_top _)]
    rfl
  · rw [feerate_eq_top ha₂, feerate_eq_top hb₂, ha₁, ha₂, hb₁, hb₂, if_pos rfl,
      compare_eq_iff_eq.2 rfl]
    rfl

/-- Distinct FeeFracs of the documented kind have distinct sort keys. -/
theorem sortKey_injective {a b : FeeFrac} (ha : Valid a) (hb : Valid b)
    (h : sortKey a = sortKey b) : a = b := by
  simp only [sortKey, toLex_inj, Prod.mk.injEq, neg_inj, Int32.toInt_inj] at h
  obtain ⟨hr, hs⟩ := h
  rcases ha with ha | ⟨ha₁, ha₂⟩
  · -- equal positive sizes and equal feerates: equal fees
    have hb' : 0 < b.size.toInt := hs ▸ ha
    rw [feerate_of_pos ha, feerate_of_pos hb', WithTop.coe_inj, hs] at hr
    have hne : (b.size.toInt : ℚ) ≠ 0 := by exact_mod_cast hb'.ne'
    have hfee : a.fee.toInt = b.fee.toInt := by exact_mod_cast (div_left_inj' hne).1 hr
    cases a; cases b
    simp_all [Int64.toInt_inj]
  · rcases hb with hb | ⟨hb₁, hb₂⟩
    · rw [← hs, ha₂] at hb
      simp at hb
    · cases a; cases b
      simp_all

end FeeFrac

end Tenscoin
