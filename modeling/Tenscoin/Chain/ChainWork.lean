import Mathlib
import Tenscoin.Arith.Compact
import Tenscoin.Arith.Divide

/-!
# The work of a block

`GetBlockProof` (`chain.cpp`) is the expected number of hashes behind a block: `2^256` divided
by one more than its target. As `2^256` is not an `arith_uint256`, it computes
`~target / (target + 1) + 1`. For every valid target this is exactly `⌊2^256 / (target + 1)⌋`,
with no division by zero and no wrap (`getBlockProof_eq_ok`): `target + 1` does not wrap since
no decoded target is `2^256 - 1` (`ArithUint256.toNat_setCompact_lt`), and the quotient is at
most `2^255`. So a lower target never gives less work.

The division is the shift-and-subtract loop of `base_uint::operator/=`
(`Tenscoin.Arith.Divide`).
-/

namespace Tenscoin

open ArithUint256

/-- `GetBlockProof` of a block with bits `nBits`; zero for a negative, overflowing or zero
target. -/
def getBlockProof (nBits : UInt32) : Except String ArithUint256 :=
  let r := setCompact nBits
  if r.fNegative || r.fOverflow || r.value == 0 then pure 0
  else do
    -- 2**256 / (bnTarget+1) = ((2**256 - bnTarget - 1) / (bnTarget+1)) + 1 = ~bnTarget / (bnTarget+1) + 1
    let q ← longDivide (~~~r.value) (r.value + 1)
    pure (q + 1)

namespace ArithUint256

/-- No target `SetCompact` decodes is `2^256 - 1`: past exponent zero it is a multiple of
`256`, and below it a mantissa of 23 bits. -/
theorem toNat_setCompact_lt (c : UInt32) : (setCompact c).value.toNat < 2 ^ 256 - 1 := by
  obtain ⟨m, e, hm, hv⟩ := representable_setCompact c
  have hlt := (setCompact c).value.isLt
  cases e with
  | zero =>
    rw [hv, Nat.pow_zero, Nat.mul_one]
    exact lt_of_lt_of_le hm (by norm_num)
  | succ e =>
    have hdvd : (setCompact c).value.toNat % 256 = 0 := by
      rw [hv, Nat.pow_succ, ← Nat.mul_assoc, Nat.mul_mod_left]
    omega

theorem toNat_add_one_of_lt {x : ArithUint256} (h : x.toNat + 1 < 2 ^ 256) :
    (x + 1).toNat = x.toNat + 1 := by
  rw [BitVec.toNat_add, show (1 : ArithUint256).toNat = 1 from rfl]
  exact Nat.mod_eq_of_lt h

/-- One more than a decoded target does not wrap. -/
theorem toNat_setCompact_add_one (c : UInt32) :
    ((setCompact c).value + 1).toNat = (setCompact c).value.toNat + 1 :=
  toNat_add_one_of_lt (by have := toNat_setCompact_lt c; omega)

end ArithUint256

/-- `⌊2^256 / d⌋ = ⌊(2^256 - d) / d⌋ + 1` for a divisor `0 < d ≤ 2^256`. -/
theorem two_pow_div_eq {d : ℕ} (hd : 0 < d) (hle : d ≤ 2 ^ 256) :
    (2 ^ 256 - d) / d + 1 = 2 ^ 256 / d := by
  rw [← Nat.add_div_right _ hd, Nat.sub_add_cancel hle]

/-- **`GetBlockProof` is `⌊2^256 / (target + 1)⌋`** for a target that is neither negative,
overflowing nor zero, and the computation neither divides by zero nor wraps. -/
theorem getBlockProof_eq_ok {nBits : UInt32} (hneg : (setCompact nBits).fNegative = false)
    (hov : (setCompact nBits).fOverflow = false) (hz : (setCompact nBits).value ≠ 0) :
    ∃ w, getBlockProof nBits = .ok w ∧
      w.toNat = 2 ^ 256 / ((setCompact nBits).value.toNat + 1) := by
  set T := (setCompact nBits).value with hT
  have hTpos : 0 < T.toNat := Nat.pos_of_ne_zero (fun h => hz (BitVec.eq_of_toNat_eq h))
  have hTlt := toNat_setCompact_lt nBits
  have hd : (T + 1).toNat = T.toNat + 1 := toNat_setCompact_add_one nBits
  have hd0 : T + 1 ≠ 0 := fun h => by rw [h] at hd; simp at hd
  have hnot : (~~~T).toNat = 2 ^ 256 - (T.toNat + 1) := by
    rw [BitVec.toNat_not]
    omega
  -- the quotient stays below `2^256 - 1`, so adding one does not wrap
  set q := ~~~T / (T + 1) with hq
  have hqv : q.toNat = (2 ^ 256 - (T.toNat + 1)) / (T.toNat + 1) := by
    rw [hq, BitVec.toNat_udiv, hnot, hd]
  have hqlt : q.toNat + 1 < 2 ^ 256 := by
    have : q.toNat ≤ 2 ^ 256 - (T.toNat + 1) := by rw [hqv]; exact Nat.div_le_self _ _
    omega
  refine ⟨q + 1, ?_, ?_⟩
  · have hcond : ¬(((setCompact nBits).fNegative || (setCompact nBits).fOverflow ||
        (setCompact nBits).value == 0) = true) := by
      simpa [hneg, hov, ← hT] using hz
    unfold getBlockProof
    dsimp only
    rw [if_neg hcond, longDivide_eq_divide, divide_of_ne_zero hd0]
    rfl
  · rw [toNat_add_one_of_lt hqlt, hqv, two_pow_div_eq (Nat.succ_pos _) (by omega)]

/-- **The work of a block** is `⌊2^256 / (target + 1)⌋` for every valid target, computed
without a zero divisor or a wrap, and a lower target never yields less work. -/
theorem getBlockProof_floor_antitone :
    (∀ nBits : UInt32, (setCompact nBits).fNegative = false →
      (setCompact nBits).fOverflow = false → (setCompact nBits).value ≠ 0 →
      ∃ w, getBlockProof nBits = .ok w ∧
        w.toNat = 2 ^ 256 / ((setCompact nBits).value.toNat + 1)) ∧
    (∀ n₁ n₂ : UInt32, (setCompact n₁).fNegative = false → (setCompact n₁).fOverflow = false →
      (setCompact n₁).value ≠ 0 → (setCompact n₂).fNegative = false →
      (setCompact n₂).fOverflow = false → (setCompact n₁).value ≤ (setCompact n₂).value →
      ∀ w₁ w₂, getBlockProof n₁ = .ok w₁ → getBlockProof n₂ = .ok w₂ → w₂ ≤ w₁) := by
  refine ⟨fun _ hneg hov hz => getBlockProof_eq_ok hneg hov hz, ?_⟩
  intro n₁ n₂ hneg₁ hov₁ hz₁ hneg₂ hov₂ hle w₁ w₂ h₁ h₂
  have hle' : (setCompact n₁).value.toNat ≤ (setCompact n₂).value.toNat := hle
  -- a target above a non-zero one is non-zero
  have hz₂ : (setCompact n₂).value ≠ 0 := fun h => by
    rw [h, show (0 : ArithUint256).toNat = 0 from rfl, Nat.le_zero] at hle'
    exact hz₁ (BitVec.eq_of_toNat_eq hle')
  obtain ⟨v₁, hv₁, hw₁⟩ := getBlockProof_eq_ok hneg₁ hov₁ hz₁
  obtain ⟨v₂, hv₂, hw₂⟩ := getBlockProof_eq_ok hneg₂ hov₂ hz₂
  rw [hv₁, Except.ok.injEq] at h₁
  rw [hv₂, Except.ok.injEq] at h₂
  rw [← h₁, ← h₂, BitVec.le_def, hw₁, hw₂]
  exact Nat.div_le_div_left (Nat.succ_le_succ hle') (Nat.succ_pos _)

/-- Both halves at the bits `0x1d00ffff`, against the higher target of `0x1e00ffff`: the work is
the floor of `2^256` over the target plus one, and the higher target yields no more work. -/
theorem getBlockProof_floor_antitone_bits :
    (setCompact 0x1d00ffff).fNegative = false ∧ (setCompact 0x1d00ffff).fOverflow = false ∧
      (setCompact 0x1d00ffff).value ≠ 0 ∧ (setCompact 0x1e00ffff).fNegative = false ∧
      (setCompact 0x1e00ffff).fOverflow = false ∧
      (setCompact 0x1d00ffff).value ≤ (setCompact 0x1e00ffff).value ∧
      (∃ w, getBlockProof 0x1d00ffff = .ok w ∧
        w.toNat = 2 ^ 256 / ((setCompact 0x1d00ffff).value.toNat + 1)) ∧
      ∀ w₁ w₂, getBlockProof 0x1d00ffff = .ok w₁ → getBlockProof 0x1e00ffff = .ok w₂ → w₂ ≤ w₁ := by
  have hneg₁ : (setCompact 0x1d00ffff).fNegative = false := by decide
  have hov₁ : (setCompact 0x1d00ffff).fOverflow = false := by decide
  have hz₁ : (setCompact 0x1d00ffff).value ≠ 0 := by decide
  have hneg₂ : (setCompact 0x1e00ffff).fNegative = false := by decide
  have hov₂ : (setCompact 0x1e00ffff).fOverflow = false := by decide
  have hle : (setCompact 0x1d00ffff).value ≤ (setCompact 0x1e00ffff).value := by decide
  exact ⟨hneg₁, hov₁, hz₁, hneg₂, hov₂, hle, getBlockProof_floor_antitone.1 _ hneg₁ hov₁ hz₁,
    getBlockProof_floor_antitone.2 _ _ hneg₁ hov₁ hz₁ hneg₂ hov₂ hle⟩

end Tenscoin
