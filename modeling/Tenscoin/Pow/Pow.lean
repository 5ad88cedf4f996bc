import Mathlib
import Tenscoin.Consensus.Params
import Tenscoin.Chain.BlockIndex
import Tenscoin.Primitives.Block

/-!
# The proof-of-work rules

`pow.cpp`: the retarget rule `GetNextWorkRequired` with its arithmetic in
`CalculateNextWorkRequired`, the header pre-sync check `PermittedDifficultyTransition`, and the
target check `CheckProofOfWork` through `DeriveTarget`.

`CalculateNextWorkRequired` and both halves of `PermittedDifficultyTransition` run the same
block of code on an old `nBits` and a timespan: expand the target, multiply it by the
timespan (`operator*=(uint32_t)`, so the `int64_t` timespan is converted to `uint32_t`), divide
by `nPowTargetTimespan` and cap at `powLimit`. It is `scaleTarget` here, written once.

Integer arithmetic on `int`/`int64_t` is on `ℤ` with the truncating `/` and `%` of C++
(`Int.tdiv`, `Int.tmod`); the values involved stay far inside 64 bits. The two `assert`s of
`GetNextWorkRequired`, a null `pindexFirst` and the `uint_error` a zero divisor throws are
errors.
-/

namespace Tenscoin

open Consensus ArithUint256

/-- The clamping in `CalculateNextWorkRequired`: "Limit adjustment step". -/
def limitTimespan (params : Params) (nActualTimespan : ℤ) : ℤ :=
  let nActualTimespan :=
    if nActualTimespan < params.nPowTargetTimespan.tdiv 4 then params.nPowTargetTimespan.tdiv 4
    else nActualTimespan
  if nActualTimespan > params.nPowTargetTimespan * 4 then params.nPowTargetTimespan * 4
  else nActualTimespan

/-- The retarget arithmetic shared by `CalculateNextWorkRequired` and
`PermittedDifficultyTransition`: `bn.SetCompact(nBits); bn *= nTimespan;
bn /= params.nPowTargetTimespan; if (bn > powLimit) bn = powLimit;`. -/
def scaleTarget (params : Params) (nBits : UInt32) (nTimespan : ℤ) :
    Except String ArithUint256 := do
  let bnNew := mulUInt32 (setCompact nBits).value (UInt32.ofInt nTimespan)
  let bnNew ← divide bnNew (ofUInt64 (UInt64.ofInt params.nPowTargetTimespan))
  pure (if bnNew > params.powLimit then params.powLimit else bnNew)

namespace BlockTree

/-- `CalculateNextWorkRequired`. -/
def calculateNextWorkRequired (t : BlockTree) (pindexLast : ℕ) (nFirstBlockTime : ℤ)
    (params : Params) : Except String UInt32 := do
  let last ← t.deref pindexLast
  if params.fPowNoRetargeting then pure last.nBits
  else
    let nActualTimespan := limitTimespan params (last.GetBlockTime - nFirstBlockTime)
    -- Special difficulty rule for Testnet4: retarget from the first block of the period
    let nBits ←
      if params.enforce_BIP94 then do
        let nHeightFirst : ℤ := last.nHeight - (params.DifficultyAdjustmentInterval - 1)
        match ← t.getAncestor pindexLast nHeightFirst with
        | some pindexFirst => pure (← t.deref pindexFirst).nBits
        | none => throw "null pindexFirst"
      else pure last.nBits
    let bnNew ← scaleTarget params nBits nActualTimespan
    pure bnNew.getCompact

/-- The loop of the testnet rule in `GetNextWorkRequired`: return the last block that is not
a special min-difficulty block. It runs on fuel; the arena's size is enough. -/
def lastNonMinDifficultyBits (t : BlockTree) (params : Params) (nProofOfWorkLimit : UInt32) :
    ℕ → ℕ → Except String UInt32
  | 0, _ => throw "out of fuel"
  | fuel + 1, pindex => do
    let b ← t.deref pindex
    match b.pprev with
    | some pprev =>
      if (b.nHeight : ℤ).tmod params.DifficultyAdjustmentInterval ≠ 0 ∧
          b.nBits = nProofOfWorkLimit then
        lastNonMinDifficultyBits t params nProofOfWorkLimit fuel pprev
      else pure b.nBits
    | none => pure b.nBits

/-- `GetNextWorkRequired`: the `nBits` a block on top of `pindexLast` must carry. -/
def getNextWorkRequired (t : BlockTree) (pindexLast : ℕ) (pblock : CBlockHeader)
    (params : Params) : Except String UInt32 := do
  let last ← t.deref pindexLast
  let nProofOfWorkLimit := params.powLimit.getCompact
  -- Only change once per difficulty adjustment interval
  if (last.nHeight + 1 : ℤ).tmod params.DifficultyAdjustmentInterval ≠ 0 then
    if params.fPowAllowMinDifficultyBlocks then
      if pblock.GetBlockTime > last.GetBlockTime + params.nPowTargetSpacing * 2 then
        pure nProofOfWorkLimit
      else t.lastNonMinDifficultyBits params nProofOfWorkLimit t.length pindexLast
    else pure last.nBits
  else
    -- Go back by what we want to be 14 days worth of blocks
    let nHeightFirst : ℤ := last.nHeight - (params.DifficultyAdjustmentInterval - 1)
    if nHeightFirst < 0 then throw "assert(nHeightFirst >= 0)"
    else
      match ← t.getAncestor pindexLast nHeightFirst with
      | some pindexFirst => do
        let first ← t.deref pindexFirst
        t.calculateNextWorkRequired pindexLast first.GetBlockTime params
      | none => throw "assert(pindexFirst)"

end BlockTree

/-- `PermittedDifficultyTransition`: on a retarget height the new target must lie between
the compact roundings of the targets the extreme timespans give; elsewhere the bits must not
change. -/
def permittedDifficultyTransition (params : Params) (height : ℤ) (old_nbits new_nbits : UInt32) :
    Except String Bool :=
  if params.fPowAllowMinDifficultyBlocks then pure true
  else if height.tmod params.DifficultyAdjustmentInterval = 0 then do
    let smallest_timespan := params.nPowTargetTimespan.tdiv 4
    let largest_timespan := params.nPowTargetTimespan * 4
    let observed_new_target := (setCompact new_nbits).value
    -- Calculate the largest difficulty value possible, round it, compare
    let largest_difficulty_target ← scaleTarget params old_nbits largest_timespan
    let maximum_new_target := (setCompact largest_difficulty_target.getCompact).value
    if maximum_new_target < observed_new_target then pure false
    else do
      -- Calculate the smallest difficulty value possible, round it, compare
      let smallest_difficulty_target ← scaleTarget params old_nbits smallest_timespan
      let minimum_new_target := (setCompact smallest_difficulty_target.getCompact).value
      pure !(decide (minimum_new_target > observed_new_target))
  else pure (old_nbits == new_nbits)

/-- `DeriveTarget`: the target `nBits` encodes, if it is a valid one: not negative, not
zero, no overflow, at most the limit. -/
def deriveTarget (nBits : UInt32) (pow_limit : ArithUint256) : Option ArithUint256 :=
  let r := setCompact nBits
  if r.fNegative || r.value == 0 || r.fOverflow || decide (r.value > pow_limit) then none
  else some r.value

/-- `CheckProofOfWorkImpl`: the hash, read as a number, is at most the derived target. -/
def checkProofOfWorkImpl (hash : Uint256) (nBits : UInt32) (params : Params) : Bool :=
  match deriveTarget nBits params.powLimit with
  | none => false
  | some bnTarget => !(decide (uintToArith256 hash > bnTarget))

/-- `CheckProofOfWork`, outside fuzzing builds. -/
def checkProofOfWork (hash : Uint256) (nBits : UInt32) (params : Params) : Bool :=
  checkProofOfWorkImpl hash nBits params

end Tenscoin
