import Mathlib
import Tenscoin.Arith.Uint256

/-!
# Consensus parameters and amounts

The fields of `Consensus::Params` (`consensus/params.h`) that the modelled consensus functions
read, the values `CMainParams` (`kernel/chainparams.cpp`) gives them, and the amount constants
of `consensus/amount.h`.

The fork changed three of Bitcoin's values: the halving interval (`2100000` blocks), the target
spacing (one minute) and the proof-of-work limit (`000000ff…ff`, that is `2 ^ 232 - 1`). The
target timespan stays two weeks, so a difficulty period is now `20160` blocks.

Amounts (`CAmount`, an `int64_t`) are integers here: every amount the modelled functions compute
is bounded far below `2 ^ 63`.
-/

namespace Tenscoin

/-- `COIN`: satoshis per coin. -/
def coin : ℤ := 100000000

/-- `MAX_MONEY`: no amount larger than this is valid. -/
def maxMoney : ℤ := 21000000 * coin

/-- `MoneyRange`. -/
def moneyRange (nValue : ℤ) : Prop :=
  0 ≤ nValue ∧ nValue ≤ maxMoney

instance (nValue : ℤ) : Decidable (moneyRange nValue) :=
  inferInstanceAs (Decidable (0 ≤ nValue ∧ nValue ≤ maxMoney))

namespace Consensus

/-- The fields of `Consensus::Params` read by `GetBlockSubsidy`, `GetNextWorkRequired`,
`CalculateNextWorkRequired`, `PermittedDifficultyTransition` and `CheckProofOfWork`. The
proof-of-work limit is kept as the number `UintToArith256(powLimit)` denotes. -/
structure Params where
  nSubsidyHalvingInterval : ℕ
  powLimit : ArithUint256
  fPowAllowMinDifficultyBlocks : Bool
  enforce_BIP94 : Bool
  fPowNoRetargeting : Bool
  nPowTargetSpacing : ℤ
  nPowTargetTimespan : ℤ

/-- `Params::DifficultyAdjustmentInterval`: the number of blocks between retargets (`int64_t`
division, which truncates). -/
def Params.DifficultyAdjustmentInterval (params : Params) : ℤ :=
  params.nPowTargetTimespan.tdiv params.nPowTargetSpacing

/-- The consensus parameters of `CMainParams`. -/
def mainParams : Params where
  nSubsidyHalvingInterval := 2100000
  powLimit := BitVec.ofNat 256 (2 ^ 232 - 1)
  fPowAllowMinDifficultyBlocks := false
  enforce_BIP94 := false
  fPowNoRetargeting := false
  nPowTargetSpacing := 1 * 60
  nPowTargetTimespan := 14 * 24 * 60 * 60

@[simp] theorem mainParams_difficultyAdjustmentInterval :
    mainParams.DifficultyAdjustmentInterval = 20160 := by
  decide

end Consensus

end Tenscoin
