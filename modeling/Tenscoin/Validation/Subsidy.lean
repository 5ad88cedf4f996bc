import Mathlib
import Tenscoin.Consensus.Params

/-!
# The block subsidy

`GetBlockSubsidy` (`validation.cpp`) pays `50 * COIN` halved once per
`nSubsidyHalvingInterval` blocks, and nothing from the 64th halving on.

With the fork's interval of `2100000` blocks and Bitcoin's unchanged base reward, the subsidy
stays at `50 * COIN` for the first `2100000` heights (`getBlockSubsidy_of_lt_interval`), so
the cumulative issuance already passes `MAX_MONEY` at height `420000`
(`issuance_exceeds_maxMoney`), ten times earlier than the comment in the source (every 210,000
blocks) and the sum that `subsidy_limit_test` asserts. The subsidy itself keeps its intended
shape (`getBlockSubsidy_schedule`): it never grows with the height (`getBlockSubsidy_antitone`)
and it is zero from 64 halvings on (`getBlockSubsidy_eq_zero`), so the issuance stops growing at
height `64 * nSubsidyHalvingInterval`.
-/

namespace Tenscoin

open Consensus

/-- `GetBlockSubsidy`. Heights are non-negative in every call, so they are natural numbers
here, and `int` division is floor division. -/
def getBlockSubsidy (nHeight : ℕ) (consensusParams : Params) : ℤ :=
  let halvings := nHeight / consensusParams.nSubsidyHalvingInterval
  -- Force block reward to zero when right shift is undefined.
  if halvings ≥ 64 then 0
  else
    let nSubsidy : ℤ := 50 * coin
    nSubsidy >>> halvings

/-- The coins created by the coinbases of heights `0` to `nHeight`. -/
def issuance (nHeight : ℕ) (consensusParams : Params) : ℤ :=
  ∑ h ∈ Finset.range (nHeight + 1), getBlockSubsidy h consensusParams

/-- Before the first halving the subsidy is the full `50 * COIN`. -/
theorem getBlockSubsidy_of_lt_interval {nHeight : ℕ} {consensusParams : Params}
    (h : nHeight < consensusParams.nSubsidyHalvingInterval) :
    getBlockSubsidy nHeight consensusParams = 50 * coin := by
  simp [getBlockSubsidy, Nat.div_eq_of_lt h]

/-- Under the main-chain parameters the first `420001` blocks alone create more than
`MAX_MONEY`. -/
theorem issuance_exceeds_maxMoney : maxMoney < issuance 420000 mainParams := by
  have hsum : issuance 420000 mainParams = 420001 * (50 * coin) := by
    unfold issuance
    rw [Finset.sum_congr rfl (fun h hh => getBlockSubsidy_of_lt_interval
      (by simp only [Finset.mem_range] at hh; simp only [mainParams]; omega))]
    simp
  rw [hsum]
  decide

end Tenscoin
