import Mathlib
import Tenscoin.Consensus.MerkleTree
import Tenscoin.Lib.Except

/-!
# `CheckMerkleRoot`

`validation.cpp`: the transactions of a block are checked against the `hashMerkleRoot` of its
header, and a block whose tree is mutated (CVE-2012-2459) is rejected too, both as
`BLOCK_MUTATED`. The block is given by the hashes of its transactions, over which
`BlockMerkleRoot` is `ComputeMerkleRoot`, and by the cache flag `m_checked_merkle_root` that a
successful check sets.

An uncached check passes exactly when the header holds the root of the tree and no level
below the top has an even position equal to the next one (`checkMerkleRoot_eq_ok_iff`), and it
fails only with `BLOCK_MUTATED` (`checkMerkleRoot_eq_error`). So, with an injective `Hash`, one
`hashMerkleRoot` lets through at most one list of transaction hashes of each depth
(`checkMerkleRoot_unique`): of two lists with one root, as in CVE-2012-2459, one is reported as
mutated by `ComputeMerkleRoot` and rejected by the check, rather than accepted as a different
block (`computeMerkleRoot_mutated_of_root_eq`).
-/

namespace Tenscoin

/-- `BlockValidationResult` (`consensus/validation.h`). -/
inductive BlockValidationResult
  | BLOCK_RESULT_UNSET
  | BLOCK_CONSENSUS
  | BLOCK_CACHED_INVALID
  | BLOCK_INVALID_HEADER
  | BLOCK_MUTATED
  | BLOCK_MISSING_PREV
  | BLOCK_INVALID_PREV
  | BLOCK_TIME_FUTURE
  | BLOCK_CHECKPOINT
  | BLOCK_HEADER_LOW_WORK
  deriving DecidableEq, Repr

/-- The arguments of `state.Invalid(result, reject_reason, debug_message)`. -/
structure BlockInvalid where
  result : BlockValidationResult
  reject_reason : String
  debug_message : String
  deriving DecidableEq, Repr

variable {α : Type} [DecidableEq α] [Inhabited α] (hash : α → α → α)

/-- `CheckMerkleRoot` of a block with header root `hashMerkleRoot`, transaction hashes
`txids` and cache flag `m_checked_merkle_root`. On success it returns the new value of the
flag. -/
def checkMerkleRoot (hashMerkleRoot : α) (txids : List α) (m_checked_merkle_root : Bool) :
    Except BlockInvalid Bool :=
  if m_checked_merkle_root then pure true
  else
    let r := computeMerkleRoot hash txids
    if hashMerkleRoot ≠ r.1 then
      throw ⟨.BLOCK_MUTATED, "bad-txnmrklroot", "hashMerkleRoot mismatch"⟩
    -- Check for merkle tree malleability (CVE-2012-2459)
    else if r.2 then
      throw ⟨.BLOCK_MUTATED, "bad-txns-duplicate", "duplicate transaction"⟩
    else pure true

open MerkleTree

/-- An uncached check passes exactly for the root of an unmutated tree, and sets the flag. -/
theorem checkMerkleRoot_eq_ok_iff (hashMerkleRoot : α) (txids : List α) (b : Bool) :
    checkMerkleRoot hash hashMerkleRoot txids false = .ok b ↔
      hashMerkleRoot = root hash txids ∧ mutated hash txids = false ∧ b = true := by
  simp only [checkMerkleRoot, Bool.false_eq_true, if_false, computeMerkleRoot_eq]
  by_cases hr : hashMerkleRoot = root hash txids
  · cases hm : mutated hash txids <;> simp [hr, eq_comm]
  · simp [hr]

/-- Every failure of the check is `BLOCK_MUTATED`. -/
theorem checkMerkleRoot_eq_error (hashMerkleRoot : α) (txids : List α) (cached : Bool)
    (e : BlockInvalid) (he : checkMerkleRoot hash hashMerkleRoot txids cached = .error e) :
    e.result = .BLOCK_MUTATED := by
  simp only [checkMerkleRoot] at he
  split_ifs at he <;> cases he <;> rfl

/-- **One header root, one transaction list of each depth.** With `Hash` injective, two
non-empty lists of transaction hashes of one depth that both pass an uncached
`CheckMerkleRoot` against the same `hashMerkleRoot` are the same list. -/
theorem checkMerkleRoot_unique (hinj : Function.Injective2 hash) {hashMerkleRoot : α}
    {L1 L2 : List α} {b1 b2 : Bool} (h1 : L1 ≠ []) (h2 : L2 ≠ [])
    (hdepth : Nat.clog 2 L1.length = Nat.clog 2 L2.length)
    (hc1 : checkMerkleRoot hash hashMerkleRoot L1 false = .ok b1)
    (hc2 : checkMerkleRoot hash hashMerkleRoot L2 false = .ok b2) : L1 = L2 := by
  obtain ⟨hr1, hm1, -⟩ := (checkMerkleRoot_eq_ok_iff hash _ _ _).mp hc1
  obtain ⟨hr2, hm2, -⟩ := (checkMerkleRoot_eq_ok_iff hash _ _ _).mp hc2
  exact eq_of_not_mutated hash hinj h1 h2 hdepth (hr1.symm.trans hr2) hm1 hm2

/-- **Every root-preserving change is flagged** (CVE-2012-2459). With `Hash` injective, of two
different leaf lists of one depth with one root reported by `ComputeMerkleRoot`, one is reported
as mutated; and an uncached `CheckMerkleRoot` against any header root rejects one of them as
`BLOCK_MUTATED`. -/
theorem computeMerkleRoot_mutated_of_root_eq (hinj : Function.Injective2 hash) {L1 L2 : List α}
    (hne : L1 ≠ L2) (h1 : L1 ≠ []) (h2 : L2 ≠ [])
    (hdepth : Nat.clog 2 L1.length = Nat.clog 2 L2.length)
    (hroot : (computeMerkleRoot hash L1).1 = (computeMerkleRoot hash L2).1) :
    ((computeMerkleRoot hash L1).2 = true ∨ (computeMerkleRoot hash L2).2 = true) ∧
      ∀ hashMerkleRoot, ∃ L ∈ [L1, L2], ∃ e,
        checkMerkleRoot hash hashMerkleRoot L false = .error e ∧ e.result = .BLOCK_MUTATED := by
  constructor
  · rw [computeMerkleRoot_eq, computeMerkleRoot_eq] at hroot ⊢
    by_contra hno
    simp only [not_or, Bool.not_eq_true] at hno
    exact hne (eq_of_not_mutated hash hinj h1 h2 hdepth hroot hno.1 hno.2)
  · -- the two lists cannot both pass, and every failure is `BLOCK_MUTATED`
    intro hashMerkleRoot
    cases hc1 : checkMerkleRoot hash hashMerkleRoot L1 false with
    | error e => exact ⟨L1, by simp, e, hc1, checkMerkleRoot_eq_error hash _ _ _ e hc1⟩
    | ok b1 =>
      cases hc2 : checkMerkleRoot hash hashMerkleRoot L2 false with
      | error e => exact ⟨L2, by simp, e, hc2, checkMerkleRoot_eq_error hash _ _ _ e hc2⟩
      | ok b2 => exact absurd (checkMerkleRoot_unique hash hinj h1 h2 hdepth hc1 hc2) hne

/-- The pair of CVE-2012-2459 at its smallest: `[1, 2, 3]` and `[1, 2, 3, 3]` under the
injective `Nat.pair`, where the second is flagged. -/
theorem computeMerkleRoot_mutated_of_root_eq_pair :
    Function.Injective2 Nat.pair ∧ ([1, 2, 3] : List ℕ) ≠ [1, 2, 3, 3] ∧
      Nat.clog 2 [1, 2, 3].length = Nat.clog 2 [1, 2, 3, 3].length ∧
      (computeMerkleRoot Nat.pair [1, 2, 3]).1 = (computeMerkleRoot Nat.pair [1, 2, 3, 3]).1 ∧
      ((computeMerkleRoot Nat.pair [1, 2, 3]).2 = true ∨
        (computeMerkleRoot Nat.pair [1, 2, 3, 3]).2 = true) ∧
      ∀ hashMerkleRoot, ∃ L ∈ [[1, 2, 3], [1, 2, 3, 3]], ∃ e,
        checkMerkleRoot Nat.pair hashMerkleRoot L false = .error e ∧
          e.result = .BLOCK_MUTATED := by
  have hinj : Function.Injective2 Nat.pair := fun _ _ _ _ h => Nat.pair_eq_pair.mp h
  have hne : ([1, 2, 3] : List ℕ) ≠ [1, 2, 3, 3] := by decide
  have hdepth : Nat.clog 2 [1, 2, 3].length = Nat.clog 2 [1, 2, 3, 3].length := by decide
  have hroot : (computeMerkleRoot Nat.pair [1, 2, 3]).1 =
      (computeMerkleRoot Nat.pair [1, 2, 3, 3]).1 := by
    rw [MerkleTree.computeMerkleRoot_eq, MerkleTree.computeMerkleRoot_eq]
    decide
  exact ⟨hinj, hne, hdepth, hroot, computeMerkleRoot_mutated_of_root_eq Nat.pair hinj hne
    (List.cons_ne_nil _ _) (List.cons_ne_nil _ _) hdepth hroot⟩

end Tenscoin
