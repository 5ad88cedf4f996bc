import Mathlib
import Tenscoin.Arith.Uint256

/-!
# The compact round trip

`SetCompact (GetCompact a)` is the rounding of `a` down to the compact format: the leading
bytes of `a` that fit a 23-bit mantissa, the rest cleared (`ArithUint256.compactRound`), with
neither flag raised (`ArithUint256.setCompact_getCompact`). The exponent `GetCompact` picks is
the least one at which the mantissa fits (`ArithUint256.isLeastExp_compactExp`), so the general
facts of `Tenscoin.Lib.Mantissa` apply: the rounding is the greatest compact number below `a`,
hence monotone (`ArithUint256.compactRound_mono`), it never exceeds `a` and keeps a non-zero
target non-zero.

The proof follows `GetCompact` through its two branches. `getCompactParts` is described by
the number `mantissa₀` it shifts out of `a` and by the sign-bit adjustment
(`ArithUint256.getCompactParts_snd`, `ArithUint256.toNat_getCompactParts_fst`); the packed
word is then `mantissa + size * 2 ^ 24` (`ArithUint256.toNat_getCompact`), and `SetCompact`
undoes the packing (`ArithUint256.setCompact_of_toNat`).
-/

namespace Tenscoin

namespace ArithUint256

theorem pow256 (n : ℕ) : (256 : ℕ) ^ n = 2 ^ (8 * n) := by
  rw [Nat.pow_mul]

/-! ### Bytes of a value -/

/-- The size in bytes `GetCompact` computes from `bits`. -/
def nbytes (a : ArithUint256) : ℕ :=
  (a.bits + 7) / 8

theorem toNat_lt_nbytes (a : ArithUint256) : a.toNat < 256 ^ a.nbytes := by
  rw [pow256]
  exact lt_of_lt_of_le (Nat.lt_size_self _)
    (Nat.pow_le_pow_right (by decide) (by unfold nbytes bits; omega))

theorem nbytes_le (a : ArithUint256) (h : 0 < a.toNat) : 256 ^ (a.nbytes - 1) ≤ a.toNat := by
  have hs : a.toNat.size ≠ 0 := by
    intro h0
    rw [Nat.size_eq_zero] at h0
    omega
  -- the leading bit of `a` is at position `size - 1`, at least the first bit of its top byte
  have hlow : 2 ^ (a.toNat.size - 1) ≤ a.toNat := by
    by_contra hc
    have := (Nat.size_le (m := a.toNat) (n := a.toNat.size - 1)).mpr (by omega)
    omega
  rw [pow256]
  exact le_trans (Nat.pow_le_pow_right (by decide) (by unfold nbytes bits; omega)) hlow

theorem nbytes_le_32 (a : ArithUint256) : a.nbytes ≤ 32 := by
  have : a.bits ≤ 256 := Nat.size_le.mpr a.isLt
  unfold nbytes
  omega

theorem pos_of_three_lt_nbytes {a : ArithUint256} (h : 3 < a.nbytes) : 0 < a.toNat := by
  rcases Nat.eq_zero_or_pos a.toNat with h0 | h0
  · have : a.bits = 0 := by unfold bits; rw [h0]; rfl
    unfold nbytes at h
    omega
  · exact h0

/-! ### The first half of `GetCompact` -/

/-- The number `GetCompact` shifts out of `a`: the value moved so that its top byte is the
third, low bytes dropped. -/
def mantissa₀ (a : ArithUint256) : ℕ :=
  a.toNat * 256 ^ (3 - a.nbytes) / 256 ^ (a.nbytes - 3)

theorem mantissa₀_lt (a : ArithUint256) : a.mantissa₀ < 2 ^ 24 := by
  have hv := toNat_lt_nbytes a
  unfold mantissa₀
  by_cases hn : a.nbytes ≤ 3
  · rw [show a.nbytes - 3 = 0 by omega, Nat.pow_zero, Nat.div_one]
    calc a.toNat * 256 ^ (3 - a.nbytes) < 256 ^ a.nbytes * 256 ^ (3 - a.nbytes) :=
          Nat.mul_lt_mul_of_pos_right hv (Nat.pow_pos (by decide))
      _ = 2 ^ 24 := by rw [← Nat.pow_add, Nat.add_sub_cancel' hn]; norm_num
  · rw [show 3 - a.nbytes = 0 by omega, Nat.pow_zero, Nat.mul_one,
      Nat.div_lt_iff_lt_mul (Nat.pow_pos (by decide)), show (2 : ℕ) ^ 24 = 256 ^ 3 by norm_num,
      ← Nat.pow_add, Nat.add_sub_cancel' (by omega)]
    exact hv

theorem toNat_compactMantissa (a : ArithUint256) :
    (a.compactMantissa a.nbytes).toNat = a.mantissa₀ := by
  have hlt := mantissa₀_lt a
  unfold compactMantissa getLow64
  split
  · -- the low 64 bits are the whole value, and the left shift stays below `2 ^ 24`
    rename_i hn
    unfold mantissa₀ at hlt ⊢
    rw [show a.nbytes - 3 = 0 by omega, Nat.pow_zero, Nat.div_one] at hlt ⊢
    have hv64 : a.toNat < 2 ^ 64 :=
      lt_of_le_of_lt (Nat.le_mul_of_pos_right _ (Nat.pow_pos (by decide)))
        (lt_trans hlt (by norm_num))
    have hs : 8 * (3 - a.nbytes) % 2 ^ 64 % 64 = 8 * (3 - a.nbytes) := by omega
    simp only [UInt64.toNat_toUInt32, UInt64.toNat_shiftLeft, UInt64.toNat_ofNat',
      Nat.toUInt64_eq, Nat.mod_eq_of_lt hv64, hs, Nat.shiftLeft_eq, ← pow256]
    rw [Nat.mod_eq_of_lt (lt_trans hlt (by norm_num)),
      Nat.mod_eq_of_lt (lt_trans hlt (by norm_num))]
  · -- the right shift leaves three bytes
    rename_i hn
    unfold mantissa₀ at hlt ⊢
    rw [show 3 - a.nbytes = 0 by omega, Nat.pow_zero, Nat.mul_one] at hlt ⊢
    simp only [UInt64.toNat_toUInt32, UInt64.toNat_ofNat', BitVec.toNat_ushiftRight,
      Nat.shiftRight_eq_div_pow, ← pow256]
    rw [Nat.mod_eq_of_lt (lt_trans hlt (by norm_num)),
      Nat.mod_eq_of_lt (lt_trans hlt (by norm_num))]

/-- The sign-bit test of `GetCompact` on a three-byte mantissa. -/
theorem signBit_ne_zero (x : UInt32) (hx : x.toNat < 2 ^ 24) :
    (x &&& 0x00800000 != 0) = decide (2 ^ 23 ≤ x.toNat) := by
  have hand : (x &&& 0x00800000).toNat = 2 ^ 23 * (x.toNat.testBit 23).toNat := by
    rw [UInt32.toNat_and, show (0x00800000 : UInt32).toNat = 2 ^ 23 from rfl, Nat.land_comm,
      Nat.two_pow_and]
  have hbit : x.toNat.testBit 23 = decide (x.toNat / 2 ^ 23 = 1) := by
    rw [Nat.testBit_eq_decide_div_mod_eq, Nat.mod_eq_of_lt (by omega)]
  have hiff : x.toNat / 2 ^ 23 = 1 ↔ 2 ^ 23 ≤ x.toNat := by omega
  rw [hbit] at hand
  by_cases h : 2 ^ 23 ≤ x.toNat
  · rw [decide_eq_true (hiff.mpr h)] at hand
    have hne : x &&& 0x00800000 ≠ 0 := fun h0 => by rw [h0] at hand; simp at hand
    rw [decide_eq_true h]
    exact bne_iff_ne.mpr hne
  · rw [decide_eq_false (fun h' => h (hiff.mp h'))] at hand
    have heq : x &&& 0x00800000 = 0 := UInt32.toNat_inj.mp (by simpa using hand)
    rw [decide_eq_false h, heq]
    rfl

theorem getCompactParts_snd (a : ArithUint256) :
    a.getCompactParts.2 = if 2 ^ 23 ≤ a.mantissa₀ then a.nbytes + 1 else a.nbytes := by
  have h := signBit_ne_zero (a.compactMantissa a.nbytes)
    (by rw [toNat_compactMantissa]; exact mantissa₀_lt a)
  rw [toNat_compactMantissa] at h
  unfold getCompactParts
  change (if a.compactMantissa a.nbytes &&& 0x00800000 != 0 then
    ((a.compactMantissa a.nbytes >>> 8, a.nbytes + 1) : UInt32 × ℕ)
    else (a.compactMantissa a.nbytes, a.nbytes)).2 = _
  rw [h]
  by_cases hs : 2 ^ 23 ≤ a.mantissa₀
  · rw [if_pos (decide_eq_true hs), if_pos hs]
  · rw [if_neg (fun h' => hs (of_decide_eq_true h')), if_neg hs]

theorem toNat_getCompactParts_fst (a : ArithUint256) :
    a.getCompactParts.1.toNat =
      if 2 ^ 23 ≤ a.mantissa₀ then a.mantissa₀ / 256 else a.mantissa₀ := by
  have h := signBit_ne_zero (a.compactMantissa a.nbytes)
    (by rw [toNat_compactMantissa]; exact mantissa₀_lt a)
  rw [toNat_compactMantissa] at h
  unfold getCompactParts
  change (if a.compactMantissa a.nbytes &&& 0x00800000 != 0 then
    ((a.compactMantissa a.nbytes >>> 8, a.nbytes + 1) : UInt32 × ℕ)
    else (a.compactMantissa a.nbytes, a.nbytes)).1.toNat = _
  rw [h]
  by_cases hs : 2 ^ 23 ≤ a.mantissa₀
  · rw [if_pos (decide_eq_true hs), if_pos hs, UInt32.toNat_shiftRight, toNat_compactMantissa,
      Nat.shiftRight_eq_div_pow]
    rfl
  · rw [if_neg (fun h' => hs (of_decide_eq_true h')), if_neg hs]
    exact toNat_compactMantissa a

/-! ### The mantissa and size `GetCompact` packs -/

/-- The exponent of the compact encoding of `a` past its three mantissa bytes: the number of
low bytes the round trip through the compact format clears. -/
def compactExp (a : ArithUint256) : ℕ :=
  a.getCompactParts.2 - 3

/-- After the sign-bit adjustment the mantissa is still `a` shifted by the (new) size: left by
`3 - size` bytes or right by `size - 3` bytes. -/
theorem toNat_getCompactParts_fst_eq (a : ArithUint256) :
    a.getCompactParts.1.toNat =
      a.toNat * 256 ^ (3 - a.getCompactParts.2) / 256 ^ (a.getCompactParts.2 - 3) := by
  rw [toNat_getCompactParts_fst, getCompactParts_snd]
  unfold mantissa₀
  by_cases hs : 2 ^ 23 ≤ a.toNat * 256 ^ (3 - a.nbytes) / 256 ^ (a.nbytes - 3)
  · -- the adjustment moves the mantissa one byte right and the size one byte up
    rw [if_pos hs, if_pos hs]
    rcases Nat.lt_or_ge a.nbytes 3 with hn | hn
    · rw [show a.nbytes - 3 = 0 by omega, show a.nbytes + 1 - 3 = 0 by omega,
        show 3 - a.nbytes = (3 - (a.nbytes + 1)) + 1 by omega, Nat.pow_zero, Nat.div_one,
        Nat.div_one, Nat.pow_succ, ← Nat.mul_assoc, Nat.mul_div_cancel _ (by decide)]
    · rw [show 3 - a.nbytes = 0 by omega, show 3 - (a.nbytes + 1) = 0 by omega,
        show a.nbytes + 1 - 3 = (a.nbytes - 3) + 1 by omega, Nat.pow_succ,
        Nat.div_div_eq_div_mul]
  · rw [if_neg hs, if_neg hs]

theorem getCompactParts_fst_lt (a : ArithUint256) : a.getCompactParts.1.toNat < 2 ^ 23 := by
  have h := mantissa₀_lt a
  rw [toNat_getCompactParts_fst]
  split_ifs with hs
  · omega
  · omega

theorem getCompactParts_snd_le (a : ArithUint256) : a.getCompactParts.2 ≤ 33 := by
  have := nbytes_le_32 a
  rw [getCompactParts_snd]
  split_ifs <;> omega

/-- A size of `33` only arises from a 32-byte value moved down by the adjustment, which leaves
two mantissa bytes: the case the overflow test of `SetCompact` is about. -/
theorem getCompactParts_fst_lt_of_snd_eq (a : ArithUint256) (h : a.getCompactParts.2 = 33) :
    a.getCompactParts.1.toNat < 2 ^ 16 := by
  have hm := mantissa₀_lt a
  have h32 := nbytes_le_32 a
  rw [getCompactParts_snd] at h
  rw [toNat_getCompactParts_fst]
  split_ifs at h ⊢ with hs
  · omega
  · omega

/-- Past three bytes, the byte below the kept ones would already overflow the mantissa: the
exponent `GetCompact` picks is the least one that fits. -/
theorem le_div_of_three_lt (a : ArithUint256) (h : 3 < a.getCompactParts.2) :
    2 ^ 23 ≤ a.toNat / 256 ^ (a.getCompactParts.2 - 4) := by
  rw [getCompactParts_snd] at h ⊢
  split_ifs at h ⊢ with hs
  · -- adjusted: one byte less dropped is the unadjusted mantissa, whose sign bit is set
    unfold mantissa₀ at hs
    rw [show 3 - a.nbytes = 0 by omega, Nat.pow_zero, Nat.mul_one] at hs
    rwa [show a.nbytes + 1 - 4 = a.nbytes - 3 by omega]
  · -- unadjusted: the value has `nbytes` bytes, so one byte less dropped leaves four
    have hv := nbytes_le a (pos_of_three_lt_nbytes h)
    rw [Nat.le_div_iff_mul_le (Nat.pow_pos (by decide))]
    calc 2 ^ 23 * 256 ^ (a.nbytes - 4) ≤ 256 ^ 3 * 256 ^ (a.nbytes - 4) :=
          Nat.mul_le_mul_right _ (by norm_num)
      _ = 256 ^ (a.nbytes - 1) := by rw [← Nat.pow_add]; congr 1; omega
      _ ≤ a.toNat := hv

/-- **The exponent of `GetCompact` is the least one at which the mantissa fits 23 bits.** -/
theorem isLeastExp_compactExp (a : ArithUint256) :
    Mantissa.IsLeastExp 256 (2 ^ 23) a.toNat a.compactExp := by
  have hm := getCompactParts_fst_lt a
  rw [toNat_getCompactParts_fst_eq] at hm
  unfold compactExp
  constructor
  · -- the kept bytes are the mantissa, or `a` itself when nothing is dropped
    rcases Nat.lt_or_ge 3 a.getCompactParts.2 with h | h
    · rwa [show 3 - a.getCompactParts.2 = 0 by omega, Nat.pow_zero, Nat.mul_one] at hm
    · rw [show a.getCompactParts.2 - 3 = 0 by omega, Nat.pow_zero, Nat.div_one] at hm ⊢
      exact lt_of_le_of_lt (Nat.le_mul_of_pos_right _ (Nat.pow_pos (by decide))) hm
  · intro j hj
    have h3 := le_div_of_three_lt a (by omega)
    exact le_trans h3 (Nat.div_le_div_left (Nat.pow_le_pow_right (by decide) (by omega))
      (Nat.pow_pos (by decide)))

/-! ### Packing and unpacking -/

/-- The compact word is the mantissa with the size in its top byte. -/
theorem toNat_getCompact (a : ArithUint256) :
    a.getCompact.toNat = a.getCompactParts.1.toNat + a.getCompactParts.2 * 2 ^ 24 := by
  have hm := getCompactParts_fst_lt a
  have hs := getCompactParts_snd_le a
  have hsize : (a.getCompactParts.2.toUInt32 <<< 24).toNat = a.getCompactParts.2 * 2 ^ 24 := by
    have h1 : a.getCompactParts.2.toUInt32.toNat = a.getCompactParts.2 := by
      rw [Nat.toUInt32_eq, UInt32.toNat_ofNat']
      exact Nat.mod_eq_of_lt (by omega)
    rw [UInt32.toNat_shiftLeft, h1, show (24 : UInt32).toNat % 32 = 24 from rfl, Nat.shiftLeft_eq]
    exact Nat.mod_eq_of_lt (by omega)
  unfold getCompact
  simp only [Bool.false_and, Bool.false_eq_true, if_false, UInt32.or_zero, UInt32.toNat_or, hsize]
  rw [← Nat.shiftLeft_eq, Nat.lor_comm, ← Nat.shiftLeft_add_eq_or_of_lt (by omega), Nat.shiftLeft_eq,
    Nat.add_comm]

section Unpack

/-! ### `SetCompact` on a well-formed compact word

A mantissa below the sign bit and a size small enough that the overflow test cannot fire. -/

variable {c : UInt32} {m s : ℕ} (hc : c.toNat = m + s * 2 ^ 24) (hm : m < 2 ^ 23)

include hc hm in
theorem setCompact_size : (c >>> 24).toNat = s := by
  rw [UInt32.toNat_shiftRight, show (24 : UInt32).toNat % 32 = 24 from rfl,
    Nat.shiftRight_eq_div_pow, hc, Nat.add_mul_div_right _ _ (by positivity),
    Nat.div_eq_of_lt (by omega), Nat.zero_add]

include hc hm in
theorem setCompact_word : c &&& 0x007fffff = UInt32.ofNat m := by
  have hlow : (m + s * 2 ^ 24) % 2 ^ 23 = m := by
    rw [show s * 2 ^ 24 = (2 * s) * 2 ^ 23 by ring, Nat.add_mul_mod_self_right,
      Nat.mod_eq_of_lt hm]
  apply UInt32.toNat_inj.mp
  rw [UInt32.toNat_and, show (0x007fffff : UInt32).toNat = 2 ^ 23 - 1 from rfl,
    Nat.and_two_pow_sub_one_eq_mod, hc, hlow, UInt32.toNat_ofNat']
  exact (Nat.mod_eq_of_lt (by omega)).symm

include hc hm in
/-- The sign bit of the word is bit 23 of the mantissa, which is clear. -/
theorem setCompact_signBit : (c &&& 0x00800000 != 0) = false := by
  have hand : (c &&& 0x00800000).toNat = 2 ^ 23 * (c.toNat.testBit 23).toNat := by
    rw [UInt32.toNat_and, show (0x00800000 : UInt32).toNat = 2 ^ 23 from rfl, Nat.land_comm,
      Nat.two_pow_and]
  have hbit : c.toNat.testBit 23 = false := by
    rw [Nat.testBit_eq_decide_div_mod_eq, hc, show s * 2 ^ 24 = (2 * s) * 2 ^ 23 by ring,
      Nat.add_mul_div_right _ _ (by positivity), Nat.div_eq_of_lt hm, Nat.zero_add]
    simp
  rw [hbit] at hand
  have heq : c &&& 0x00800000 = 0 := UInt32.toNat_inj.mp (by simpa using hand)
  rw [heq]
  rfl

include hc hm in
/-- **`SetCompact` unpacks a well-formed compact word**, raising neither flag. -/
theorem setCompact_of_toNat (hs : s ≤ 33) (h33 : s = 33 → m < 2 ^ 16) :
    setCompact c =
      { value := if s ≤ 3 then BitVec.ofNat 256 (m / 256 ^ (3 - s))
          else BitVec.ofNat 256 m <<< (8 * (s - 3))
        fNegative := false
        fOverflow := false } := by
  have hm32 : (UInt32.ofNat m).toNat = m := by
    rw [UInt32.toNat_ofNat', Nat.mod_eq_of_lt (by omega)]
  have h34 : decide (s > 34) = false := decide_eq_false (by omega)
  have h33' : decide (s > 33) = false := decide_eq_false (by omega)
  unfold setCompact
  rw [setCompact_size hc hm, setCompact_word hc hm, setCompact_signBit hc hm]
  by_cases h3 : s ≤ 3
  · -- the mantissa is shifted right, and the size is too small to overflow
    have h32 : decide (s > 32) = false := decide_eq_false (by omega)
    have hsh : (UInt32.ofNat m >>> (8 * (3 - s)).toUInt32).toNat = m / 256 ^ (3 - s) := by
      rw [UInt32.toNat_shiftRight, hm32, Nat.toUInt32_eq, UInt32.toNat_ofNat',
        Nat.mod_eq_of_lt (by omega), Nat.mod_eq_of_lt (by omega), Nat.shiftRight_eq_div_pow,
        pow256]
    simp only [h3, ↓reduceIte, h34, h33', h32, Bool.and_false, Bool.or_false, hsh]
  · -- the mantissa is kept; only a size of `33` with three mantissa bytes would overflow
    have hov : (decide (UInt32.ofNat m > 0xffff) && decide (s > 32)) = false := by
      by_cases h32 : s > 32
      · have hsmall : ¬ (UInt32.ofNat m > 0xffff) := by
          rw [gt_iff_lt, UInt32.lt_iff_toNat_lt, hm32]
          have := h33 (by omega)
          simp only [UInt32.reduceToNat]
          omega
        rw [decide_eq_false hsmall, Bool.false_and]
      · rw [decide_eq_false h32, Bool.and_false]
    simp only [h3, ↓reduceIte, h34, h33', hov, hm32, Bool.and_false, Bool.or_false]

end Unpack

/-! ### The round trip -/

/-- The value of `a` rounded down to the compact format: its bytes from the exponent
`GetCompact` picks on. -/
def compactRound (a : ArithUint256) : ℕ :=
  Mantissa.truncate 256 a.compactExp a.toNat

theorem compactRound_lt (a : ArithUint256) : a.compactRound < 2 ^ 256 :=
  lt_of_le_of_lt Mantissa.truncate_le a.isLt

/-- **`SetCompact (GetCompact a)` is the rounding of `a`**, and neither flag is raised. -/
theorem setCompact_getCompact (a : ArithUint256) :
    setCompact a.getCompact =
      { value := BitVec.ofNat 256 a.compactRound, fNegative := false, fOverflow := false } := by
  rw [setCompact_of_toNat (toNat_getCompact a) (getCompactParts_fst_lt a)
    (getCompactParts_snd_le a) (getCompactParts_fst_lt_of_snd_eq a)]
  have hm := toNat_getCompactParts_fst_eq a
  congr 1
  unfold compactRound compactExp Mantissa.truncate
  split_ifs with h3
  · -- nothing dropped: shifting the mantissa back gives `a`
    rw [show a.getCompactParts.2 - 3 = 0 by omega, Nat.pow_zero, Nat.div_one] at hm
    rw [hm, show a.getCompactParts.2 - 3 = 0 by omega, Nat.pow_zero, Nat.div_one, Nat.mul_one,
      Nat.mul_div_cancel _ (Nat.pow_pos (by decide))]
  · -- bytes dropped: the mantissa shifted back up is the truncation
    rw [show 3 - a.getCompactParts.2 = 0 by omega, Nat.pow_zero, Nat.mul_one] at hm
    apply BitVec.eq_of_toNat_eq
    have hlt : a.toNat / 256 ^ (a.getCompactParts.2 - 3) * 256 ^ (a.getCompactParts.2 - 3)
        < 2 ^ 256 := lt_of_le_of_lt (Nat.div_mul_le_self _ _) a.isLt
    rw [BitVec.toNat_shiftLeft, BitVec.toNat_ofNat, BitVec.toNat_ofNat, hm,
      Nat.mod_eq_of_lt (lt_of_le_of_lt (Nat.div_le_self _ _) a.isLt), Nat.shiftLeft_eq, ← pow256,
      Nat.mod_eq_of_lt hlt]

/-- The value of the round trip, as a number. -/
theorem toNat_setCompact_getCompact (a : ArithUint256) :
    (setCompact a.getCompact).value.toNat = a.compactRound := by
  rw [setCompact_getCompact, BitVec.toNat_ofNat, Nat.mod_eq_of_lt (compactRound_lt a)]

theorem compactRound_le (a : ArithUint256) : a.compactRound ≤ a.toNat :=
  Mantissa.truncate_le

/-- **Rounding to the compact format is monotone.** -/
theorem compactRound_mono {a b : ArithUint256} (h : a.toNat ≤ b.toNat) :
    a.compactRound ≤ b.compactRound :=
  Mantissa.truncate_mono (by decide) (by decide) (isLeastExp_compactExp a)
    (isLeastExp_compactExp b) h

theorem compactRound_pos {a : ArithUint256} (h : 0 < a.toNat) : 0 < a.compactRound :=
  Mantissa.truncate_pos (by decide) (by decide) (isLeastExp_compactExp a) h

/-! ### Re-encoding a decoded target -/

/-- The byte count is read off the range of the value. -/
theorem nbytes_eq_of_le_of_lt {v : ArithUint256} {n : ℕ} (hn : 0 < n)
    (hlo : 256 ^ (n - 1) ≤ v.toNat) (hhi : v.toNat < 256 ^ n) : v.nbytes = n := by
  have h₁ : 8 * (n - 1) < v.toNat.size := Nat.lt_size.mpr (by rwa [← pow256])
  have h₂ : v.toNat.size ≤ 8 * n := Nat.size_le.mpr (by rwa [← pow256])
  unfold nbytes bits
  omega

theorem pos_of_nbytes_pos {a : ArithUint256} (h : 0 < a.nbytes) : 0 < a.toNat := by
  rcases Nat.eq_zero_or_pos a.toNat with h0 | h0
  · have : a.bits = 0 := by unfold bits; rw [h0]; rfl
    unfold nbytes at h
    omega
  · exact h0

/-- `GetCompact` reads a value only through its byte count and the mantissa it shifts out,
and through the latter only as far as the sign-bit adjustment keeps it. -/
theorem getCompact_eq_of_parts {a b : ArithUint256} (hn : a.nbytes = b.nbytes)
    (hs : 2 ^ 23 ≤ a.mantissa₀ ↔ 2 ^ 23 ≤ b.mantissa₀)
    (hm : (if 2 ^ 23 ≤ a.mantissa₀ then a.mantissa₀ / 256 else a.mantissa₀) =
      (if 2 ^ 23 ≤ b.mantissa₀ then b.mantissa₀ / 256 else b.mantissa₀)) :
    a.getCompact = b.getCompact := by
  have hparts : a.getCompactParts = b.getCompactParts := by
    refine Prod.ext (UInt32.toNat_inj.mp ?_) ?_
    · rw [toNat_getCompactParts_fst, toNat_getCompactParts_fst, hm]
    · rw [getCompactParts_snd, getCompactParts_snd, hn]
      by_cases ha : 2 ^ 23 ≤ a.mantissa₀
      · rw [if_pos ha, if_pos (hs.mp ha)]
      · rw [if_neg ha, if_neg (fun hb => ha (hs.mpr hb))]
  unfold getCompact
  rw [hparts]

/-- **Re-encoding the rounding of `a` gives the compact word of `a`.** When bytes are
cleared, the top byte is not among them, so the byte count stays; the mantissa shifted out
is the same, or, where the sign-bit adjustment cleared one byte more, the same once that
adjustment is made again. -/
theorem getCompact_ofNat_compactRound (a : ArithUint256) :
    getCompact (BitVec.ofNat 256 a.compactRound) = a.getCompact := by
  set r : ArithUint256 := BitVec.ofNat 256 a.compactRound with hr_def
  have hr : r.toNat = a.toNat / 256 ^ a.compactExp * 256 ^ a.compactExp := by
    rw [hr_def, BitVec.toNat_ofNat, Nat.mod_eq_of_lt (compactRound_lt a)]
    rfl
  rcases Nat.eq_zero_or_pos a.compactExp with hk | hk
  · -- nothing is cleared
    have hra : r = a := BitVec.eq_of_toNat_eq (by rw [hr, hk, Nat.pow_zero, Nat.div_one,
      Nat.mul_one])
    rw [hra]
  · -- the size is at least four, so the value has at least three bytes
    have hsnd := getCompactParts_snd a
    have hexp : a.compactExp = a.getCompactParts.2 - 3 := rfl
    have hn3 : 3 ≤ a.nbytes := by split_ifs at hsnd <;> omega
    have hpos := pos_of_nbytes_pos (a := a) (by omega)
    have hlo := nbytes_le a hpos
    have hhi := toNat_lt_nbytes a
    have hkn : a.compactExp ≤ a.nbytes - 2 := by split_ifs at hsnd <;> omega
    -- the rounding keeps the top byte
    have hra : r.toNat ≤ a.toNat := by
      rw [hr]
      exact Nat.div_mul_le_self _ _
    have hnr : r.nbytes = a.nbytes := by
      refine nbytes_eq_of_le_of_lt (by omega) ?_ (lt_of_le_of_lt hra hhi)
      have hsplit : 256 ^ (a.nbytes - 1) = 256 ^ (a.nbytes - 1 - a.compactExp) *
          256 ^ a.compactExp := by rw [← Nat.pow_add]; congr 1; omega
      have hq : 256 ^ (a.nbytes - 1 - a.compactExp) ≤ a.toNat / 256 ^ a.compactExp :=
        (Nat.le_div_iff_mul_le (Nat.pow_pos (by decide))).mpr (hsplit ▸ hlo)
      rw [hr, hsplit]
      exact Nat.mul_le_mul_right _ hq
    have hmr : r.mantissa₀ = r.toNat / 256 ^ (a.nbytes - 3) := by
      unfold mantissa₀
      rw [hnr, show 3 - a.nbytes = 0 by omega, Nat.pow_zero, Nat.mul_one]
    have hma : a.mantissa₀ = a.toNat / 256 ^ (a.nbytes - 3) := by
      unfold mantissa₀
      rw [show 3 - a.nbytes = 0 by omega, Nat.pow_zero, Nat.mul_one]
    by_cases hs : 2 ^ 23 ≤ a.mantissa₀
    · -- adjusted: one byte more was cleared, which the adjustment drops again
      rw [if_pos hs] at hsnd
      have hk2 : a.compactExp = (a.nbytes - 3) + 1 := by omega
      have hrm : r.mantissa₀ = a.mantissa₀ / 256 * 256 := by
        rw [hmr, hr, hk2, hma, Nat.pow_succ, Nat.div_div_eq_div_mul,
          Nat.mul_comm (256 ^ (a.nbytes - 3)) 256, ← Nat.mul_assoc,
          Nat.mul_div_cancel _ (Nat.pow_pos (by decide))]
      have hs' : 2 ^ 23 ≤ r.mantissa₀ := by rw [hrm]; omega
      refine (getCompact_eq_of_parts hnr (iff_of_true hs' hs) ?_).symm ▸ rfl
      rw [if_pos hs', if_pos hs, hrm]
      omega
    · -- unadjusted: the cleared bytes are exactly the ones the mantissa drops
      rw [if_neg hs] at hsnd
      have hk3 : a.compactExp = a.nbytes - 3 := by omega
      have hrm : r.mantissa₀ = a.mantissa₀ := by
        rw [hmr, hr, hk3, hma, Nat.mul_div_cancel _ (Nat.pow_pos (by decide))]
      exact getCompact_eq_of_parts hnr (by rw [hrm]) (by rw [hrm])

/-- A multiple of `2^k` kept modulo `2^n`, `k ≤ n`, is the multiple of a smaller number. -/
theorem mul_two_pow_mod_two_pow (w : ℕ) {k n : ℕ} (h : k ≤ n) :
    w * 2 ^ k % 2 ^ n = w % 2 ^ (n - k) * 2 ^ k := by
  rw [show 2 ^ n = 2 ^ (n - k) * 2 ^ k by rw [← Nat.pow_add, Nat.sub_add_cancel h],
    Nat.mul_mod_mul_right]

/-- Every value `SetCompact` produces is in the compact format: a mantissa below `2^23` times a
power of `256`, also where the shift wraps modulo `2^256`. -/
theorem representable_setCompact (c : UInt32) :
    Mantissa.Representable 256 (2 ^ 23) (setCompact c).value.toNat := by
  have hw : (c &&& 0x007fffff).toNat < 2 ^ 23 := by
    rw [UInt32.toNat_and]
    exact lt_of_le_of_lt Nat.and_le_right (by decide)
  unfold setCompact
  dsimp only
  split_ifs with h3
  · -- a shifted-down mantissa, exponent zero
    have hsh : ((c &&& 0x007fffff) >>> (8 * (3 - (c >>> 24).toNat)).toUInt32).toNat < 2 ^ 23 := by
      rw [UInt32.toNat_shiftRight]
      exact lt_of_le_of_lt (Nat.shiftRight_le _ _) hw
    refine ⟨_, 0, hsh, ?_⟩
    rw [BitVec.toNat_ofNat, Nat.mod_eq_of_lt (lt_trans hsh (by norm_num)), Nat.pow_zero,
      Nat.mul_one]
  · -- a shifted-up mantissa: past bit 256 it is zero, below it a truncated mantissa
    rw [BitVec.toNat_shiftLeft, BitVec.toNat_ofNat, Nat.mod_eq_of_lt (lt_trans hw (by norm_num)),
      Nat.shiftLeft_eq]
    by_cases hk : 8 * ((c >>> 24).toNat - 3) ≤ 256
    · refine ⟨(c &&& 0x007fffff).toNat % 2 ^ (256 - 8 * ((c >>> 24).toNat - 3)),
        (c >>> 24).toNat - 3, lt_of_le_of_lt (Nat.mod_le _ _) hw, ?_⟩
      rw [mul_two_pow_mod_two_pow _ hk, pow256]
    · refine ⟨0, 0, by norm_num, ?_⟩
      rw [Nat.zero_mul, Nat.mod_eq_zero_of_dvd]
      exact Dvd.dvd.mul_left (Nat.pow_dvd_pow 2 (by omega)) _

/-- **A decoded target survives re-encoding**: the rounding of a value in the compact format
is the value itself. -/
theorem setCompact_getCompact_setCompact (c : UInt32) :
    (setCompact (setCompact c).value.getCompact).value = (setCompact c).value := by
  set v := (setCompact c).value
  have hge : v.toNat ≤ v.compactRound :=
    Mantissa.le_truncate (by decide) (by decide) (isLeastExp_compactExp v)
      (representable_setCompact c) le_rfl
  have heq : v.compactRound = v.toNat := le_antisymm (compactRound_le v) hge
  rw [setCompact_getCompact]
  exact BitVec.eq_of_toNat_eq (by rw [BitVec.toNat_ofNat, heq, Nat.mod_eq_of_lt v.isLt])

/-- **The compact round trip.** Encoding any value raises neither flag on decoding, rounds it
down by less than one unit of its last mantissa byte, and re-encodes to the same word; and a
decoded word decodes to the same target once re-encoded. -/
theorem getCompact_round_trip :
    (∀ x : ArithUint256,
      (setCompact x.getCompact).fNegative = false ∧ (setCompact x.getCompact).fOverflow = false ∧
      (setCompact x.getCompact).value ≤ x ∧
      x.toNat - (setCompact x.getCompact).value.toNat < 256 ^ ((x.getCompact >>> 24).toNat - 3) ∧
      (setCompact x.getCompact).value.getCompact = x.getCompact) ∧
    (∀ c : UInt32, (setCompact c).fNegative = false → (setCompact c).fOverflow = false →
      (setCompact (setCompact c).value.getCompact).value = (setCompact c).value) := by
  refine ⟨fun x => ?_, fun c _ _ => setCompact_getCompact_setCompact c⟩
  have hsize : (x.getCompact >>> 24).toNat = x.getCompactParts.2 :=
    setCompact_size (toNat_getCompact x) (getCompactParts_fst_lt x)
  refine ⟨by rw [setCompact_getCompact], by rw [setCompact_getCompact], ?_, ?_, ?_⟩
  · rw [BitVec.le_def, toNat_setCompact_getCompact]
    exact compactRound_le x
  · rw [toNat_setCompact_getCompact, hsize]
    exact Mantissa.sub_truncate_lt (by decide)
  · rw [setCompact_getCompact]
    exact getCompact_ofNat_compactRound x

/-- The conditional half at the bits `0x1d00ffff`: a decoded target that re-encodes to itself. -/
theorem getCompact_round_trip_bits :
    (setCompact 0x1d00ffff).fNegative = false ∧ (setCompact 0x1d00ffff).fOverflow = false ∧
      (setCompact (setCompact 0x1d00ffff).value.getCompact).value = (setCompact 0x1d00ffff).value :=
  ⟨by decide, by decide, getCompact_round_trip.2 0x1d00ffff (by decide) (by decide)⟩

end ArithUint256

end Tenscoin
