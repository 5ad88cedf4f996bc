import Mathlib
import Tenscoin.Arith.Compact
import Tenscoin.Chain.Skiplist
import Tenscoin.Pow.Pow

/-!
# Retargeting under the main parameters

Under `CMainParams` neither testnet rule is on, so `GetNextWorkRequired` keeps the old bits
between retarget heights (`BlockTree.getNextWorkRequired_main_of_tmod_ne`) and at a retarget
height rescales the old target by the clamped timespan of the last period
(`BlockTree.getNextWorkRequired_main_of_tmod_eq`); `GetAncestor` finds the first block of the
period (`Tenscoin.Chain.Skiplist`), so neither `assert` fires.

The arithmetic is exact: a target at most `powLimit < 2 ^ 232` times a timespan at most
`4838400 < 2 ^ 23` stays below `2 ^ 256` (`toNat_mulUInt32_of_le`), so `scaleTarget` is the
capped quotient `mainScaled` on natural numbers (`scaleTarget_main`), monotone in the
timespan. `PermittedDifficultyTransition` on a retarget height then accepts exactly the
targets between the compact roundings of the two extreme rescalings
(`permittedDifficultyTransition_main_of_tmod_eq`), and the rounding is monotone
(`ArithUint256.compactRound_mono`): the transition the rule itself produces is always
accepted.

For the target check, a retarget keeps the target within `[round (T / 4), min powLimit (4 T)]`
and, as long as `T ≥ 4`, non-zero, so `DeriveTarget` stays defined along a chain that follows
the rule from the genesis bits `0x1e00ffff`.
-/

namespace Tenscoin

open Consensus ArithUint256 Forest

/-! ### The main parameters in numbers -/

theorem toNat_mainParams_powLimit : mainParams.powLimit.toNat = 2 ^ 232 - 1 := by
  rw [mainParams, BitVec.toNat_ofNat, Nat.mod_eq_of_lt (by norm_num)]

theorem le_mainParams_powLimit_iff {a : ArithUint256} :
    a ≤ mainParams.powLimit ↔ a.toNat ≤ 2 ^ 232 - 1 := by
  rw [BitVec.le_def, toNat_mainParams_powLimit]

/-- Every timespan the clamp lets through lies between a quarter of two weeks and four times
two weeks. -/
theorem limitTimespan_mem (nActualTimespan : ℤ) :
    302400 ≤ limitTimespan mainParams nActualTimespan ∧
      limitTimespan mainParams nActualTimespan ≤ 4838400 := by
  have h4 : mainParams.nPowTargetTimespan.tdiv 4 = 302400 := by decide
  have h4' : mainParams.nPowTargetTimespan * 4 = 4838400 := by decide
  simp only [limitTimespan, h4, h4']
  split_ifs <;> omega

/-! ### The retarget arithmetic -/

/-- What `scaleTarget` computes under the main parameters, on natural numbers: the target
times the timespan over two weeks, capped at `powLimit`. -/
def mainScaled (v s : ℕ) : ℕ :=
  min (v * s / 1209600) (2 ^ 232 - 1)

section MainScaled

variable {v s s' : ℕ}

theorem mainScaled_le_powLimit : mainScaled v s ≤ 2 ^ 232 - 1 :=
  min_le_right _ _

theorem mainScaled_mono (h : s ≤ s') : mainScaled v s ≤ mainScaled v s' :=
  min_le_min_right _ (Nat.div_le_div_right (Nat.mul_le_mul_left v h))

/-- The shortest timespan divides the target by four. -/
theorem mainScaled_quarter (hv : v ≤ 2 ^ 232 - 1) : mainScaled v 302400 = v / 4 := by
  have hq : v * 302400 / 1209600 = v / 4 := Nat.mul_div_mul_right v 4 (by norm_num : 0 < 302400)
  rw [mainScaled, hq]
  exact min_eq_left (le_trans (Nat.div_le_self v 4) hv)

/-- The longest timespan multiplies the target by four at most. -/
theorem mainScaled_le_four_mul : mainScaled v 4838400 ≤ 4 * v := by
  have hq : v * 4838400 / 1209600 = 4 * v := by
    rw [show v * 4838400 = 4 * v * 1209600 by ring, Nat.mul_div_cancel _ (by norm_num)]
  exact hq ▸ min_le_left _ _

theorem toNat_ofNat_mainScaled : (BitVec.ofNat 256 (mainScaled v s)).toNat = mainScaled v s := by
  rw [BitVec.toNat_ofNat, Nat.mod_eq_of_lt (lt_of_le_of_lt mainScaled_le_powLimit (by norm_num))]

end MainScaled

/-- **The 256-bit product does not wrap.** A target at most `powLimit` times a timespan of at
most eight weeks, converted to `uint32_t`, is the product of the numbers. -/
theorem toNat_mulUInt32_of_le {v : ArithUint256} (hv : v.toNat ≤ 2 ^ 232 - 1) {s : ℤ}
    (hs0 : 0 ≤ s) (hs : s ≤ 4838400) :
    (mulUInt32 v (UInt32.ofInt s)).toNat = v.toNat * s.toNat := by
  have hs32 : (UInt32.ofInt s).toNat = s.toNat := UInt32.toNat_ofInt_of_lt hs0 (by omega)
  have hprod : v.toNat * s.toNat ≤ (2 ^ 232 - 1) * 4838400 := Nat.mul_le_mul hv (by omega)
  rw [toNat_mulUInt32 (by rw [hs32]; exact lt_of_le_of_lt hprod (by norm_num)), hs32]

/-- **`scaleTarget` under the main parameters** is `mainScaled` on the expanded old target,
for every timespan the clamp and `PermittedDifficultyTransition` use. -/
theorem scaleTarget_main {nBits : UInt32} (hv : (setCompact nBits).value.toNat ≤ 2 ^ 232 - 1)
    {s : ℤ} (hs0 : 0 ≤ s) (hs : s ≤ 4838400) :
    scaleTarget mainParams nBits s =
      .ok (BitVec.ofNat 256 (mainScaled (setCompact nBits).value.toNat s.toNat)) := by
  have hdiv : ofUInt64 (UInt64.ofInt mainParams.nPowTargetTimespan) = BitVec.ofNat 256 1209600 :=
    by decide
  have hq : (mulUInt32 (setCompact nBits).value (UInt32.ofInt s) / BitVec.ofNat 256 1209600).toNat =
      (setCompact nBits).value.toNat * s.toNat / 1209600 := by
    rw [BitVec.toNat_udiv, toNat_mulUInt32_of_le hv hs0 hs]
    rfl
  simp only [scaleTarget, hdiv, divide_of_ne_zero (show (BitVec.ofNat 256 1209600) ≠ 0 by decide),
    Except.ok_bind, Except.pure_eq_ok]
  congr 1
  apply BitVec.eq_of_toNat_eq
  rw [toNat_ofNat_mainScaled, mainScaled]
  split_ifs with hgt
  · -- the cap at `powLimit`
    rw [gt_iff_lt, BitVec.lt_def, hq, toNat_mainParams_powLimit] at hgt
    rw [toNat_mainParams_powLimit, min_eq_right hgt.le]
  · rw [gt_iff_lt, BitVec.lt_def, hq, toNat_mainParams_powLimit] at hgt
    rw [hq, min_eq_left (by omega)]

/-! ### The three functions under the main parameters -/

namespace BlockTree

variable {t : BlockTree} {p : ℕ} {b : CBlockIndex}

theorem calculateNextWorkRequired_main (hb : t[p]? = some b) (nFirstBlockTime : ℤ)
    (hv : (setCompact b.nBits).value.toNat ≤ 2 ^ 232 - 1) :
    t.calculateNextWorkRequired p nFirstBlockTime mainParams =
      .ok (getCompact (BitVec.ofNat 256 (mainScaled (setCompact b.nBits).value.toNat
        (limitTimespan mainParams (b.GetBlockTime - nFirstBlockTime)).toNat))) := by
  obtain ⟨hs0, hs⟩ := limitTimespan_mem (b.GetBlockTime - nFirstBlockTime)
  unfold calculateNextWorkRequired
  rw [deref_of_getElem? hb, Except.ok_bind]
  -- neither `fPowNoRetargeting` nor `enforce_BIP94` is set
  change (do
    let bnNew ← scaleTarget mainParams b.nBits
      (limitTimespan mainParams (b.GetBlockTime - nFirstBlockTime))
    pure bnNew.getCompact) = _
  rw [scaleTarget_main hv (by omega) hs, Except.ok_bind, Except.pure_eq_ok]

/-- Between retarget heights the bits stay. -/
theorem getNextWorkRequired_main_of_tmod_ne (hb : t[p]? = some b) (pblock : CBlockHeader)
    (h : ((b.nHeight : ℤ) + 1).tmod 20160 ≠ 0) :
    t.getNextWorkRequired p pblock mainParams = .ok b.nBits := by
  unfold getNextWorkRequired
  rw [deref_of_getElem? hb, Except.ok_bind, mainParams_difficultyAdjustmentInterval, if_pos h]
  rfl

/-- **At a retarget height the old target is rescaled** by the clamped timespan between the
first and the last block of the period; the first block exists, two weeks' worth of heights
down, so neither `assert` fires. -/
theorem getNextWorkRequired_main_of_tmod_eq (hw : t.WellFormed) (hp : p < t.length)
    (hb : t[p]? = some b) (pblock : CBlockHeader) (h : ((b.nHeight : ℤ) + 1).tmod 20160 = 0)
    (hv : (setCompact b.nBits).value.toNat ≤ 2 ^ 232 - 1) :
    ∃ s : ℤ, 302400 ≤ s ∧ s ≤ 4838400 ∧ t.getNextWorkRequired p pblock mainParams =
      .ok (getCompact (BitVec.ofNat 256 (mainScaled (setCompact b.nBits).value.toNat s.toNat))) := by
  -- a retarget height is a positive multiple of the interval
  have hH : 20159 ≤ b.nHeight := by
    rw [Int.tmod_eq_emod_of_nonneg (by omega)] at h
    omega
  obtain ⟨f, -, hfl, -, hget⟩ := hw.getAncestor_of_le (h := b.nHeight - 20159) hp
    (by rw [height_of_getElem? hb]; omega)
  obtain ⟨bf, hbf⟩ := exists_getElem? hfl
  have hget' : t.getAncestor p ((b.nHeight : ℤ) - (20160 - 1)) = .ok (some f) := by
    rw [show (b.nHeight : ℤ) - (20160 - 1) = ((b.nHeight - 20159 : ℕ) : ℤ) by omega]
    exact hget
  obtain ⟨hs0, hs⟩ := limitTimespan_mem (b.GetBlockTime - bf.GetBlockTime)
  refine ⟨_, hs0, hs, ?_⟩
  unfold getNextWorkRequired
  rw [deref_of_getElem? hb, Except.ok_bind, mainParams_difficultyAdjustmentInterval,
    if_neg (not_not.mpr h), if_neg (by omega), hget', Except.ok_bind]
  change (do
    let first ← t.deref f
    t.calculateNextWorkRequired p first.GetBlockTime mainParams) = _
  rw [deref_of_getElem? hbf, Except.ok_bind, calculateNextWorkRequired_main hb _ hv]

end BlockTree

/-- Between retarget heights a transition is permitted exactly when the bits stay. -/
theorem permittedDifficultyTransition_main_of_tmod_ne {height : ℤ} {old_nbits new_nbits : UInt32}
    (h : height.tmod 20160 ≠ 0) :
    permittedDifficultyTransition mainParams height old_nbits new_nbits =
      .ok (old_nbits == new_nbits) := by
  unfold permittedDifficultyTransition
  rw [mainParams_difficultyAdjustmentInterval, if_neg h]
  rfl

/-- **On a retarget height a transition is permitted exactly when the new target lies between
the compact roundings of the two extreme rescalings** of the old one. -/
theorem permittedDifficultyTransition_main_of_tmod_eq {height : ℤ} {old_nbits new_nbits : UInt32}
    (h : height.tmod 20160 = 0) (hv : (setCompact old_nbits).value.toNat ≤ 2 ^ 232 - 1) :
    permittedDifficultyTransition mainParams height old_nbits new_nbits =
      .ok (decide ((setCompact new_nbits).value.toNat ≤
          compactRound (BitVec.ofNat 256 (mainScaled (setCompact old_nbits).value.toNat 4838400))) &&
        decide (compactRound (BitVec.ofNat 256 (mainScaled (setCompact old_nbits).value.toNat 302400))
          ≤ (setCompact new_nbits).value.toNat)) := by
  have hlarge : mainParams.nPowTargetTimespan * 4 = 4838400 := by decide
  have hsmall : mainParams.nPowTargetTimespan.tdiv 4 = 302400 := by decide
  unfold permittedDifficultyTransition
  rw [mainParams_difficultyAdjustmentInterval,
    if_neg (show ¬mainParams.fPowAllowMinDifficultyBlocks = true by decide), if_pos h]
  have hL := scaleTarget_main (s := 4838400) hv (by norm_num) (by norm_num)
  have hS := scaleTarget_main (s := 302400) hv (by norm_num) (by norm_num)
  rw [show (4838400 : ℤ).toNat = 4838400 by decide] at hL
  rw [show (302400 : ℤ).toNat = 302400 by decide] at hS
  simp only [hlarge, hsmall]
  rw [hL, Except.ok_bind, hS, Except.ok_bind]
  -- both bounds are compared as numbers
  have hmax := toNat_setCompact_getCompact
    (BitVec.ofNat 256 (mainScaled (setCompact old_nbits).value.toNat 4838400))
  have hmin := toNat_setCompact_getCompact
    (BitVec.ofNat 256 (mainScaled (setCompact old_nbits).value.toNat 302400))
  by_cases hle : (setCompact new_nbits).value.toNat ≤
      compactRound (BitVec.ofNat 256 (mainScaled (setCompact old_nbits).value.toNat 4838400))
  · rw [if_neg (fun h' => by rw [BitVec.lt_def, hmax] at h'; omega), decide_eq_true hle,
      Bool.true_and, Except.pure_eq_ok]
    by_cases hge : compactRound (BitVec.ofNat 256
        (mainScaled (setCompact old_nbits).value.toNat 302400)) ≤ (setCompact new_nbits).value.toNat
    · rw [decide_eq_true hge,
        decide_eq_false (fun h' => by rw [gt_iff_lt, BitVec.lt_def, hmin] at h'; omega),
        Bool.not_false]
    · rw [decide_eq_false hge,
        decide_eq_true (by rw [gt_iff_lt, BitVec.lt_def, hmin]; omega), Bool.not_true]
  · rw [if_pos (by rw [BitVec.lt_def, hmax]; omega), decide_eq_false hle, Bool.false_and,
      Except.pure_eq_ok]

/-! ### The transition the rule produces is permitted -/

/-- **The header pre-sync check accepts the retarget rule's own transitions.** On top of any
block of a well-formed tree whose target is at most `powLimit`, `GetNextWorkRequired` returns
bits that `PermittedDifficultyTransition` accepts at the next height: on a retarget height
the new target is a rescaling by a timespan between the two extremes the check tries, and
compact rounding is monotone; elsewhere the bits are the old ones. -/
theorem BlockTree.WellFormed.permittedDifficultyTransition_getNextWorkRequired
    {t : BlockTree} (hw : t.WellFormed) {p : ℕ} {b : CBlockIndex} (hb : t[p]? = some b)
    (pblock : CBlockHeader) (hold : (setCompact b.nBits).value ≤ mainParams.powLimit) :
    ∃ n', t.getNextWorkRequired p pblock mainParams = .ok n' ∧
      permittedDifficultyTransition mainParams (b.nHeight + 1) b.nBits n' = .ok true ∧
      (((b.nHeight : ℤ) + 1).tmod mainParams.DifficultyAdjustmentInterval ≠ 0 → n' = b.nBits) := by
  have hp : p < t.length := (List.getElem?_eq_some_iff.mp hb).1
  have hv := le_mainParams_powLimit_iff.mp hold
  rw [mainParams_difficultyAdjustmentInterval]
  by_cases h : ((b.nHeight : ℤ) + 1).tmod 20160 = 0
  · obtain ⟨s, hs0, hs, hget⟩ := BlockTree.getNextWorkRequired_main_of_tmod_eq hw hp hb pblock h hv
    refine ⟨_, hget, ?_, fun h' => absurd h h'⟩
    rw [permittedDifficultyTransition_main_of_tmod_eq h hv, toNat_setCompact_getCompact]
    -- the rescaled target lies between the extreme rescalings, and rounding keeps the order
    have hhi := compactRound_mono (a := BitVec.ofNat 256 (mainScaled _ s.toNat))
      (b := BitVec.ofNat 256 (mainScaled (setCompact b.nBits).value.toNat 4838400))
      (by rw [toNat_ofNat_mainScaled, toNat_ofNat_mainScaled]; exact mainScaled_mono (by omega))
    have hlo := compactRound_mono
      (a := BitVec.ofNat 256 (mainScaled (setCompact b.nBits).value.toNat 302400))
      (b := BitVec.ofNat 256 (mainScaled _ s.toNat))
      (by rw [toNat_ofNat_mainScaled, toNat_ofNat_mainScaled]; exact mainScaled_mono (by omega))
    rw [decide_eq_true hhi, decide_eq_true hlo, Bool.true_and]
  · refine ⟨b.nBits, BlockTree.getNextWorkRequired_main_of_tmod_ne hb pblock h, ?_, fun _ => rfl⟩
    rw [permittedDifficultyTransition_main_of_tmod_ne h, beq_self_eq_true]

/-- The bits of the genesis block of `CMainParams`, `CreateGenesisBlock(1738337624, 0x1faa1a0,
0x1e00ffff, 1, 50 * COIN)`. -/
def mainGenesisBits : UInt32 :=
  0x1e00ffff

/-- The time of the block of height `i` of a chain that keeps the one-minute spacing from the
genesis time `1738337624`. -/
def mainBlockTime (i : ℕ) : UInt32 :=
  UInt32.ofNat (1738337624 + 60 * i)

/-- The first retarget of a chain of `20160` blocks a minute apart, all with the genesis bits,
and a header on top of its last block: the pre-sync check accepts what the rule demands. -/
theorem permittedDifficultyTransition_getNextWorkRequired_retarget :
    (BlockTree.linearTree mainBlockTime mainGenesisBits 20160).WellFormed ∧
      (BlockTree.linearTree mainBlockTime mainGenesisBits 20160)[20159]? =
        some (BlockTree.linearBlock mainBlockTime mainGenesisBits 20159) ∧
      (setCompact (BlockTree.linearBlock mainBlockTime mainGenesisBits 20159).nBits).value ≤
        mainParams.powLimit ∧
      ∃ n', BlockTree.getNextWorkRequired
          (BlockTree.linearTree mainBlockTime mainGenesisBits 20160) 20159
          ⟨1, nullHash, nullHash, mainBlockTime 20160, mainGenesisBits, 0⟩ mainParams = .ok n' ∧
        permittedDifficultyTransition mainParams
          ((BlockTree.linearBlock mainBlockTime mainGenesisBits 20159).nHeight + 1)
          (BlockTree.linearBlock mainBlockTime mainGenesisBits 20159).nBits n' = .ok true ∧
        ((((BlockTree.linearBlock mainBlockTime mainGenesisBits 20159).nHeight : ℤ) + 1).tmod
            mainParams.DifficultyAdjustmentInterval ≠ 0 →
          n' = (BlockTree.linearBlock mainBlockTime mainGenesisBits 20159).nBits) := by
  have hw := BlockTree.linearTree_wellFormed mainBlockTime mainGenesisBits 20160
  have hb :=
    BlockTree.getElem?_linearTree mainBlockTime mainGenesisBits (show 20159 < 20160 by decide)
  have hold : (setCompact (BlockTree.linearBlock mainBlockTime mainGenesisBits 20159).nBits).value ≤
      mainParams.powLimit := by decide
  exact ⟨hw, hb, hold, hw.permittedDifficultyTransition_getNextWorkRequired hb _ hold⟩

/-! ### The target stays valid -/

/-- A target `DeriveTarget` accepts is the expansion of the bits, with neither flag raised,
non-zero and at most the limit. -/
theorem deriveTarget_eq_some {nBits : UInt32} {L T : ArithUint256}
    (h : deriveTarget nBits L = some T) :
    (setCompact nBits).value = T ∧ T ≠ 0 ∧ T ≤ L := by
  simp only [deriveTarget] at h
  split_ifs at h with hc
  cases h
  simp only [Bool.or_eq_true, beq_iff_eq, decide_eq_true_eq, not_or, gt_iff_lt] at hc
  exact ⟨rfl, hc.1.1.2, BitVec.not_lt.mp hc.2⟩

/-- The round trip of a non-zero target at most the limit is a valid target. -/
theorem deriveTarget_getCompact (a : ArithUint256) {L : ArithUint256} (h0 : 0 < a.compactRound)
    (hL : a.compactRound ≤ L.toNat) :
    deriveTarget a.getCompact L = some (BitVec.ofNat 256 a.compactRound) := by
  have hlt := compactRound_lt a
  unfold deriveTarget
  rw [setCompact_getCompact, if_neg]
  simp only [Bool.false_or, Bool.or_false, Bool.or_eq_true, beq_iff_eq, decide_eq_true_eq,
    gt_iff_lt, not_or, BitVec.lt_def, BitVec.toNat_ofNat, Nat.mod_eq_of_lt hlt, not_lt]
  refine ⟨fun h => ?_, hL⟩
  have := congrArg BitVec.toNat h
  rw [BitVec.toNat_ofNat, Nat.mod_eq_of_lt hlt] at this
  simp at this
  omega

/-- **One retarget keeps a target of at least `4` valid**, between the compact rounding of a
quarter of it and the lesser of `powLimit` and four times it. -/
theorem BlockTree.WellFormed.deriveTarget_getNextWorkRequired {t : BlockTree} (hw : t.WellFormed)
    {p : ℕ} {b : CBlockIndex} (hb : t[p]? = some b) {T : ArithUint256}
    (hT : deriveTarget b.nBits mainParams.powLimit = some T) (h4 : 4 ≤ T.toNat)
    (pblock : CBlockHeader) :
    ∃ n' T', t.getNextWorkRequired p pblock mainParams = .ok n' ∧
      deriveTarget n' mainParams.powLimit = some T' ∧
      (setCompact (getCompact (T / 4))).value ≤ T' ∧ T' ≤ mainParams.powLimit ∧
      T'.toNat ≤ 4 * T.toNat := by
  have hp : p < t.length := (List.getElem?_eq_some_iff.mp hb).1
  obtain ⟨hval, -, hTL⟩ := deriveTarget_eq_some hT
  have hTv := le_mainParams_powLimit_iff.mp hTL
  have hv : (setCompact b.nBits).value.toNat ≤ 2 ^ 232 - 1 := hval ▸ hTv
  have hquarter : (T / 4).toNat = T.toNat / 4 := by rw [BitVec.toNat_udiv]; rfl
  have hround := toNat_setCompact_getCompact (T / 4)
  by_cases h : ((b.nHeight : ℤ) + 1).tmod 20160 = 0
  · obtain ⟨s, hs0, hs, hget⟩ := BlockTree.getNextWorkRequired_main_of_tmod_eq hw hp hb pblock h hv
    -- the rescaled target `x`, between a quarter of `T` and the lesser of the limit and `4 T`
    have hx := toNat_ofNat_mainScaled (v := (setCompact b.nBits).value.toNat) (s := s.toNat)
    have hq : (T / 4).toNat ≤ mainScaled (setCompact b.nBits).value.toNat s.toNat := by
      rw [hquarter, ← hval, ← mainScaled_quarter hv]
      exact mainScaled_mono (by omega)
    have hfour : mainScaled (setCompact b.nBits).value.toNat s.toNat ≤ 4 * T.toNat := by
      rw [← hval]
      exact le_trans (mainScaled_mono (by omega)) mainScaled_le_four_mul
    have hle := compactRound_le (BitVec.ofNat 256 (mainScaled (setCompact b.nBits).value.toNat s.toNat))
    have hpos := compactRound_pos
      (a := BitVec.ofNat 256 (mainScaled (setCompact b.nBits).value.toNat s.toNat))
      (by rw [hx]; omega)
    have hlim : compactRound (BitVec.ofNat 256 (mainScaled (setCompact b.nBits).value.toNat s.toNat))
        ≤ mainParams.powLimit.toNat := by
      rw [toNat_mainParams_powLimit]
      exact le_trans hle (by rw [hx]; exact mainScaled_le_powLimit)
    have hT'lt := compactRound_lt
      (BitVec.ofNat 256 (mainScaled (setCompact b.nBits).value.toNat s.toNat))
    refine ⟨_, _, hget, deriveTarget_getCompact _ hpos hlim, ?_, ?_, ?_⟩
    · rw [BitVec.le_def, hround, BitVec.toNat_ofNat, Nat.mod_eq_of_lt hT'lt]
      exact compactRound_mono (by rw [hx]; exact hq)
    · rw [BitVec.le_def, BitVec.toNat_ofNat, Nat.mod_eq_of_lt hT'lt]
      exact hlim
    · rw [BitVec.toNat_ofNat, Nat.mod_eq_of_lt hT'lt]
      exact le_trans hle (by rw [hx]; exact hfour)
  · -- between retarget heights the target is the old one
    refine ⟨b.nBits, T, BlockTree.getNextWorkRequired_main_of_tmod_ne hb pblock h, hT, ?_, hTL,
      by omega⟩
    rw [BitVec.le_def, hround]
    exact le_trans (compactRound_le _) (by rw [hquarter]; omega)

/-- **The products of the retarget arithmetic never wrap**: for an old target at most
`powLimit`, times any timespan the clamp of `CalculateNextWorkRequired` returns or either
extreme `PermittedDifficultyTransition` uses. -/
theorem toNat_mulUInt32_timespan {nBits : UInt32}
    (hold : (setCompact nBits).value ≤ mainParams.powLimit) {s : ℤ}
    (hs : (∃ x, s = limitTimespan mainParams x) ∨ s = mainParams.nPowTargetTimespan * 4 ∨
      s = mainParams.nPowTargetTimespan.tdiv 4) :
    (mulUInt32 (setCompact nBits).value (UInt32.ofInt s)).toNat =
      (setCompact nBits).value.toNat * s.toNat := by
  have hmem : 302400 ≤ s ∧ s ≤ 4838400 := by
    rcases hs with ⟨x, rfl⟩ | rfl | rfl
    · exact limitTimespan_mem x
    · decide
    · decide
  exact toNat_mulUInt32_of_le (le_mainParams_powLimit_iff.mp hold) (by omega) hmem.2

/-- A block tree whose every header carries the bits the retarget rule demands of it
(`ContextualCheckBlockHeader`'s `bad-diffbits` check passed), from a genesis with the given
bits. The rule reads only the time of the new header. -/
structure FollowsRetarget (t : BlockTree) (params : Params) (genesisBits : UInt32) : Prop where
  genesis : ∀ {b : CBlockIndex}, t[0]? = some b → b.nBits = genesisBits
  nBits_eq : ∀ {i : ℕ} {b : CBlockIndex} {j : ℕ}, t[i]? = some b → b.pprev = some j →
    ∃ block : CBlockHeader, block.nTime = b.nTime ∧ block.nBits = b.nBits ∧
      t.getNextWorkRequired j block params = .ok b.nBits

/-- **Along a chain that follows the rule, the target check never rejects the demanded bits**,
as long as the targets below stay at least `4`. The induction runs down the parent links: the
genesis bits are valid, and one retarget keeps a valid target of at least `4` valid. -/
theorem BlockTree.WellFormed.deriveTarget_isSome_of_followsRetarget {t : BlockTree}
    (hw : t.WellFormed) (hf : FollowsRetarget t mainParams mainGenesisBits) (i : ℕ) :
    ∀ {b : CBlockIndex}, t[i]? = some b →
      (∀ a ba, IsAncestor t.pprevOf a i → a ≠ i → t[a]? = some ba →
        4 ≤ (setCompact ba.nBits).value.toNat) →
      (deriveTarget b.nBits mainParams.powLimit).isSome := by
  induction i using Nat.strong_induction_on with
  | _ i ih =>
  intro b hb hanc
  cases hp : b.pprev with
  | none =>
    -- the genesis block
    obtain ⟨rfl, -⟩ := hw.genesis hb hp
    rw [hf.genesis hb]
    decide
  | some j =>
    have hji := hw.pprev_lt hb hp
    obtain ⟨bj, hbj⟩ := BlockTree.exists_getElem? (lt_trans hji (List.getElem?_eq_some_iff.mp hb).1)
    have hpar : t.pprevOf i = some j := by rw [BlockTree.pprevOf_of_getElem? hb, hp]
    -- the parent's target is valid by induction, and at least `4` by hypothesis
    have hj := ih j hji hbj (fun a ba ha hne hba =>
      hanc a ba (ha.of_par hpar) (fun hai => by
        have := hw.up_le ha.choose_spec
        omega) hba)
    obtain ⟨Tj, hTj⟩ := Option.isSome_iff_exists.mp hj
    have h4 : 4 ≤ Tj.toNat := (deriveTarget_eq_some hTj).1 ▸
      hanc j bj ((isAncestor_self j).of_par hpar) (by omega) hbj
    obtain ⟨block, -, -, hblock⟩ := hf.nBits_eq hb hp
    obtain ⟨n', T', hget, hT', -⟩ := hw.deriveTarget_getNextWorkRequired hbj hTj h4 block
    rw [hget] at hblock
    cases hblock
    rw [hT']
    rfl

/-- What the retarget rule guarantees about targets under `params`: one retarget keeps a
target of at least `4` valid and within bounds, the 256-bit products do not wrap, and along a
chain that follows the rule from the genesis bits the target check never rejects the demanded
bits while the targets stay at least `4`. -/
structure RetargetKeepsTargetValid (params : Params) (genesisBits : UInt32) : Prop where
  step : ∀ (t : BlockTree), t.WellFormed → ∀ (p : ℕ) (b : CBlockIndex), t[p]? = some b →
    ∀ T : ArithUint256, deriveTarget b.nBits params.powLimit = some T → 4 ≤ T.toNat →
    ∀ pblock : CBlockHeader, ∃ n' T', t.getNextWorkRequired p pblock params = .ok n' ∧
      deriveTarget n' params.powLimit = some T' ∧
      (setCompact (getCompact (T / 4))).value ≤ T' ∧ T' ≤ params.powLimit ∧
      T'.toNat ≤ 4 * T.toNat
  noWrap : ∀ nBits : UInt32, (setCompact nBits).value ≤ params.powLimit → ∀ s : ℤ,
    ((∃ x, s = limitTimespan params x) ∨ s = params.nPowTargetTimespan * 4 ∨
      s = params.nPowTargetTimespan.tdiv 4) →
    (mulUInt32 (setCompact nBits).value (UInt32.ofInt s)).toNat =
      (setCompact nBits).value.toNat * s.toNat
  chain : ∀ t : BlockTree, t.WellFormed → FollowsRetarget t params genesisBits →
    ∀ (i : ℕ) (b : CBlockIndex), t[i]? = some b →
      (∀ a ba, IsAncestor t.pprevOf a i → a ≠ i → t[a]? = some ba →
        4 ≤ (setCompact ba.nBits).value.toNat) →
      (deriveTarget b.nBits params.powLimit).isSome

/-- **The retarget rule of `CMainParams` keeps targets valid.** -/
theorem retargetKeepsTargetValid_main : RetargetKeepsTargetValid mainParams mainGenesisBits where
  step _ hw _ _ hb _ hT h4 pblock := hw.deriveTarget_getNextWorkRequired hb hT h4 pblock
  noWrap _ hold _ hs := toNat_mulUInt32_timespan hold hs
  chain _ hw hf i _ hb hanc := hw.deriveTarget_isSome_of_followsRetarget hf i hb hanc

end Tenscoin
