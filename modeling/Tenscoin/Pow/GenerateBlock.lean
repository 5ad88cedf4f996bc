import Mathlib
import Tenscoin.Pow.Pow
import Tenscoin.Pow.TensHash

/-!
# `GenerateBlock`

The miner of `rpc/mining.cpp` builds one TensHash context from the header's `GetHash` and tries
nonce after nonce with `GetPoWHashPrecomputed`, until a hash passes `CheckProofOfWork`, the tries
run out, the nonce reaches `UINT32_MAX`, or the node is interrupted. Validation checks the block
with `GetPoWHash`, which builds the context afresh.

`generateBlockSpec` is the miner as validation sees it, with `GetPoWHash` in the place of the
shared context. The context's matrices do not depend on the nonce, and its buffers are scratch
(`TensHashContext.HasMatricesOf`), so the two agree on every input
(`GenerateBlock_eq_spec`): the precomputation changes nothing but the time.

Every search ends in one of four ways (`SearchEnd`, from the step lemma `SearchEnd.succ` by
induction in `searchSpec_end`), and so `GenerateBlock` returns one of the four outcomes of
`MiningOutcome` (`GenerateBlock_outcome`): a block it hands out passes the proof-of-work check
validation makes, no nonce tried before it did, and `UINT32_MAX` itself is never tried.

`chainman.m_interrupt` is read as the sequence `interrupted` of the values it has at its reads,
in order. Handing the block to `ProcessNewBlock` is not modelled.
-/

namespace Tenscoin

open Consensus TensHash

/-- `std::numeric_limits<uint32_t>::max()`. -/
def nonceMax : UInt32 := 0xFFFFFFFF

theorem eq_nonceMax_of_not_lt {n : UInt32} (h : ¬ n < nonceMax) : n = nonceMax := by
  have hmax : nonceMax.toNat = 2 ^ 32 - 1 := rfl
  have := n.toNat_lt
  rw [UInt32.lt_iff_toNat_lt, hmax] at h
  exact UInt32.toNat_inj.1 (by rw [hmax]; omega)

namespace CBlockHeader

/-- The header of the try `i` nonces on from `h`. -/
def nthTry (h : CBlockHeader) (i : ℕ) : CBlockHeader :=
  { h with nNonce := h.nNonce + UInt32.ofNat i }

@[simp] theorem nthTry_zero (h : CBlockHeader) : h.nthTry 0 = h := by
  simp [nthTry]

theorem nthTry_one (h : CBlockHeader) : h.nthTry 1 = { h with nNonce := h.nNonce + 1 } := rfl

theorem nthTry_nthTry_one (h : CBlockHeader) (i : ℕ) : (h.nthTry 1).nthTry i = h.nthTry (i + 1) := by
  simp only [nthTry]
  rw [UInt32.add_assoc, ← UInt32.ofNat_add, Nat.add_comm]

@[simp] theorem nBits_nthTry (h : CBlockHeader) (i : ℕ) : (h.nthTry i).nBits = h.nBits := rfl

end CBlockHeader

section Search

variable (params : Params) (interrupted : ℕ → Bool)

/-- The `while` loop of `GenerateBlock`, with `k` reads of `m_interrupt` made and `max_tries`
tries left. Returns the tries left, the reads made and the header. The tests run in the order of
the source's `&&`, so `m_interrupt` is read only after a failed check. -/
def searchLoop : ℕ → ℕ → CBlockHeader → TensHashContext → ℕ × ℕ × CBlockHeader
  | k, 0, block, _ => (0, k, block)
  | k, max_tries + 1, block, ctx =>
    if block.nNonce < nonceMax then
      if checkProofOfWork (block.GetPoWHashPrecomputed ctx).1 block.nBits params then
        (max_tries + 1, k, block)
      else if interrupted k then (max_tries + 1, k + 1, block)
      else
        searchLoop (k + 1) max_tries { block with nNonce := block.nNonce + 1 }
          (block.GetPoWHashPrecomputed ctx).2
    else (max_tries + 1, k, block)

/-- `GenerateBlock`: the success flag, `block_out`, and `max_tries` as it is left. -/
def GenerateBlock (sha256d : List UInt8 → Uint256) (BlockMerkleRoot : CBlock → Uint256)
    (block : CBlock) (max_tries : ℕ) : Bool × Option CBlock × ℕ :=
  let block := { block with hashMerkleRoot := BlockMerkleRoot block }
  -- the context from the header's seed
  let seed := block.toCBlockHeader.GetHash sha256d
  let ctx := tens_hash_init seed
  let (max_tries, k, header) := searchLoop params interrupted 0 max_tries block.toCBlockHeader ctx
  let block := { block with toCBlockHeader := header }
  if max_tries = 0 ∨ interrupted k then (false, none, max_tries)
  else if header.nNonce = nonceMax then (true, none, max_tries)
  else (true, some block, max_tries)

variable (sha256d : List UInt8 → Uint256)

/-- The search with every hash computed by `GetPoWHash`. -/
def searchSpec : ℕ → ℕ → CBlockHeader → ℕ × ℕ × CBlockHeader
  | k, 0, block => (0, k, block)
  | k, max_tries + 1, block =>
    if block.nNonce < nonceMax then
      if checkProofOfWork (block.GetPoWHash sha256d) block.nBits params then
        (max_tries + 1, k, block)
      else if interrupted k then (max_tries + 1, k + 1, block)
      else searchSpec (k + 1) max_tries { block with nNonce := block.nNonce + 1 }
    else (max_tries + 1, k, block)

/-- `GenerateBlock` with the search of `searchSpec`. -/
def generateBlockSpec (BlockMerkleRoot : CBlock → Uint256) (block : CBlock) (max_tries : ℕ) :
    Bool × Option CBlock × ℕ :=
  let block := { block with hashMerkleRoot := BlockMerkleRoot block }
  let (max_tries, k, header) := searchSpec params interrupted sha256d 0 max_tries block.toCBlockHeader
  let block := { block with toCBlockHeader := header }
  if max_tries = 0 ∨ interrupted k then (false, none, max_tries)
  else if header.nNonce = nonceMax then (true, none, max_tries)
  else (true, some block, max_tries)

/-- The search with the shared context is the search with fresh contexts, as long as the context
holds the matrices of the header's seed; every hash keeps them. -/
theorem searchLoop_eq_searchSpec (k max_tries : ℕ) (block : CBlockHeader) {ctx : TensHashContext}
    (hctx : ctx.HasMatricesOf (block.GetHash sha256d)) :
    searchLoop params interrupted k max_tries block ctx =
      searchSpec params interrupted sha256d k max_tries block := by
  induction max_tries generalizing k block ctx with
  | zero => rfl
  | succ t ih =>
    -- the hash of this nonce is the fresh one, and the context still fits the next nonce
    obtain ⟨hhash, hkeep⟩ := block.GetPoWHashPrecomputed_eq sha256d hctx
    have hnext : (block.GetPoWHashPrecomputed ctx).2.HasMatricesOf
        ({ block with nNonce := block.nNonce + 1 }.GetHash sha256d) := by
      rw [CBlockHeader.GetHash_nNonce]
      exact hkeep
    simp only [searchLoop, searchSpec, hhash, ih _ _ hnext]

end Search

/-- **The miner's precomputed context changes nothing but the time.** `GenerateBlock`, which
hashes every nonce with one context built from the header's seed, returns exactly what the miner
returns that hashes every nonce with `GetPoWHash`, as validation does: the same flag, the same
block with the same nonce, and the same tries left. -/
theorem GenerateBlock_eq_spec (params : Params) (interrupted : ℕ → Bool)
    (sha256d : List UInt8 → Uint256) (BlockMerkleRoot : CBlock → Uint256) (block : CBlock)
    (max_tries : ℕ) :
    GenerateBlock params interrupted sha256d BlockMerkleRoot block max_tries =
      generateBlockSpec params interrupted sha256d BlockMerkleRoot block max_tries := by
  simp only [GenerateBlock, generateBlockSpec,
    searchLoop_eq_searchSpec params interrupted sha256d _ _ _ (.init _)]

section Outcome

variable (params : Params) (interrupted : ℕ → Bool) (sha256d : List UInt8 → Uint256)

/-- The first `i` tries from `h`, after `k` reads of `m_interrupt`, each let the loop go on: the
nonce below `UINT32_MAX`, the check failed, and no interrupt. -/
def TriesFail (k : ℕ) (h : CBlockHeader) (i : ℕ) : Prop :=
  ∀ j < i, (h.nthTry j).nNonce < nonceMax ∧
    checkProofOfWork ((h.nthTry j).GetPoWHash sha256d) h.nBits params = false ∧
    interrupted (k + j) = false

/-- How the search from `h`, with `k` reads made and `t` tries left, ends after `i` tries that
failed: with the tries used up, at `UINT32_MAX` (never tried), at a nonce that passes, or with an
interrupt. Its result is the tries left, the reads made and the header. -/
inductive SearchEnd (k t : ℕ) (h : CBlockHeader) : ℕ × ℕ × CBlockHeader → Prop
  | out : TriesFail params interrupted sha256d k h t → SearchEnd k t h (0, k + t, h.nthTry t)
  | atMax {i : ℕ} : i < t → TriesFail params interrupted sha256d k h i →
      ¬ (h.nthTry i).nNonce < nonceMax → SearchEnd k t h (t - i, k + i, h.nthTry i)
  | found {i : ℕ} : i < t → TriesFail params interrupted sha256d k h i →
      (h.nthTry i).nNonce < nonceMax →
      checkProofOfWork ((h.nthTry i).GetPoWHash sha256d) h.nBits params = true →
      SearchEnd k t h (t - i, k + i, h.nthTry i)
  | stopped {i : ℕ} : i < t → TriesFail params interrupted sha256d k h i →
      (h.nthTry i).nNonce < nonceMax →
      checkProofOfWork ((h.nthTry i).GetPoWHash sha256d) h.nBits params = false →
      interrupted (k + i) = true → SearchEnd k t h (t - i, k + i + 1, h.nthTry i)

/-- What `GenerateBlock` can return for a block whose header, with its merkle root set, is
`block`: `false` with the tries used up, all failed; `false` when interrupted after `i` failed
tries; `true` with no block when the nonce reached `UINT32_MAX`; or `true` with the block of the
first nonce that passes the check. -/
inductive MiningOutcome (block : CBlock) (max_tries : ℕ) : Bool × Option CBlock × ℕ → Prop
  | exhausted : TriesFail params interrupted sha256d 0 block.toCBlockHeader max_tries →
      MiningOutcome block max_tries (false, none, 0)
  | halted {i : ℕ} : i < max_tries → TriesFail params interrupted sha256d 0 block.toCBlockHeader i →
      interrupted i = true → MiningOutcome block max_tries (false, none, max_tries - i)
  | atMax {i : ℕ} : i < max_tries → TriesFail params interrupted sha256d 0 block.toCBlockHeader i →
      (block.nthTry i).nNonce = nonceMax → interrupted i = false →
      MiningOutcome block max_tries (true, none, max_tries - i)
  | found {i : ℕ} : i < max_tries → TriesFail params interrupted sha256d 0 block.toCBlockHeader i →
      (block.nthTry i).nNonce < nonceMax →
      checkProofOfWork ((block.nthTry i).GetPoWHash sha256d) block.nBits params = true →
      interrupted i = false →
      MiningOutcome block max_tries (true, some { block with toCBlockHeader := block.nthTry i },
        max_tries - i)

section Step

variable {params interrupted sha256d}

/-- One failed try, then failed tries from the next nonce on. -/
theorem triesFail_succ {k : ℕ} {h : CBlockHeader} {i : ℕ}
    (h₀ : TriesFail params interrupted sha256d k h 1)
    (hs : TriesFail params interrupted sha256d (k + 1) (h.nthTry 1) i) :
    TriesFail params interrupted sha256d k h (i + 1) := by
  intro j hj
  cases j with
  | zero => exact h₀ 0 Nat.one_pos
  | succ j =>
    obtain ⟨hlt, hcheck, hint⟩ := hs j (by omega)
    rw [CBlockHeader.nthTry_nthTry_one] at hlt hcheck
    exact ⟨hlt, hcheck, by rwa [Nat.add_right_comm] at hint⟩

/-- The step lemma: a search that goes on from the first nonce ends as the search from the next
nonce, one try later. -/
theorem SearchEnd.succ {k t : ℕ} {h : CBlockHeader} {r : ℕ × ℕ × CBlockHeader}
    (h₀ : TriesFail params interrupted sha256d k h 1)
    (hr : SearchEnd params interrupted sha256d (k + 1) t (h.nthTry 1) r) :
    SearchEnd params interrupted sha256d k (t + 1) h r := by
  -- the try `i` from the next nonce is the try `i + 1` from this one
  have hk : ∀ i, k + 1 + i = k + (i + 1) := fun i => by omega
  have ht : ∀ i, t - i = t + 1 - (i + 1) := fun i => by omega
  cases hr with
  | out hf =>
    rw [CBlockHeader.nthTry_nthTry_one, hk]
    exact .out (triesFail_succ h₀ hf)
  | atMax hi hf hmax =>
    rw [CBlockHeader.nthTry_nthTry_one] at hmax ⊢
    rw [hk, ht]
    exact .atMax (by omega) (triesFail_succ h₀ hf) hmax
  | found hi hf hlt hcheck =>
    rw [CBlockHeader.nthTry_nthTry_one] at hlt hcheck ⊢
    rw [hk, ht]
    exact .found (by omega) (triesFail_succ h₀ hf) hlt hcheck
  | stopped hi hf hlt hcheck hint =>
    rw [CBlockHeader.nthTry_nthTry_one] at hlt hcheck ⊢
    rw [hk, ht]
    exact .stopped (by omega) (triesFail_succ h₀ hf) hlt hcheck (by rwa [hk] at hint)

end Step

/-- The run lemma: every search ends in one of the four ways. -/
theorem searchSpec_end (k t : ℕ) (h : CBlockHeader) :
    SearchEnd params interrupted sha256d k t h (searchSpec params interrupted sha256d k t h) := by
  induction t generalizing k h with
  | zero =>
    have hout : SearchEnd params interrupted sha256d k 0 h (0, k + 0, h.nthTry 0) :=
      .out fun _ hj => absurd hj (Nat.not_lt_zero _)
    simpa [searchSpec] using hout
  | succ t ih =>
    -- a search that stops at once ends after no failed try
    have hnone : TriesFail params interrupted sha256d k h 0 := fun _ hj => absurd hj (Nat.not_lt_zero _)
    have hnow : ∀ k', ((t + 1, k + k', h) : ℕ × ℕ × CBlockHeader) = (t + 1 - 0, k + 0 + k', h.nthTry 0) :=
      fun _ => by simp
    rw [searchSpec]
    by_cases hlt : h.nNonce < nonceMax
    · by_cases hcheck : checkProofOfWork (h.GetPoWHash sha256d) h.nBits params = true
      · simp only [hlt, hcheck, if_true]
        rw [← Nat.add_zero k, hnow 0]
        exact .found (Nat.succ_pos t) hnone (by simpa using hlt) (by simpa using hcheck)
      · have hcheck' := Bool.eq_false_iff.2 hcheck
        by_cases hint : interrupted k = true
        · simp only [hlt, hcheck', hint, if_true, Bool.false_eq_true, if_false]
          rw [hnow 1]
          exact .stopped (Nat.succ_pos t) hnone (by simpa using hlt) (by simpa using hcheck')
            (by simpa using hint)
        · have hint' := Bool.eq_false_iff.2 hint
          -- the first nonce fails, and the search goes on from the next one
          have h₀ : TriesFail params interrupted sha256d k h 1 := fun j hj => by
            obtain rfl : j = 0 := by omega
            simpa using ⟨hlt, hcheck', hint'⟩
          simp only [hlt, hcheck', hint', if_true, Bool.false_eq_true, if_false,
            ← CBlockHeader.nthTry_one]
          exact SearchEnd.succ h₀ (ih _ _)
    · simp only [hlt, if_false]
      rw [← Nat.add_zero k, hnow 0]
      exact .atMax (Nat.succ_pos t) hnone (by simpa using hlt)

variable {params interrupted sha256d} in
/-- What follows the loop in `GenerateBlock`, read off how the search ended. -/
theorem miningOutcome_of_searchEnd (hmono : Monotone interrupted) {block : CBlock} {max_tries : ℕ}
    {r : ℕ × ℕ × CBlockHeader}
    (hend : SearchEnd params interrupted sha256d 0 max_tries block.toCBlockHeader r) :
    MiningOutcome params interrupted sha256d block max_tries
      (if r.1 = 0 ∨ interrupted r.2.1 = true then (false, none, r.1)
        else if r.2.2.nNonce = nonceMax then (true, none, r.1)
        else (true, some { block with toCBlockHeader := r.2.2 }, r.1)) := by
  cases hend with
  | out hf => simpa using MiningOutcome.exhausted hf
  | @atMax i hi hf hmax =>
    have hpos : max_tries - i ≠ 0 := by omega
    by_cases hint : interrupted i = true
    · simpa [hpos, hint] using MiningOutcome.halted hi hf hint
    · have hint' := Bool.eq_false_iff.2 hint
      have hnonce := eq_nonceMax_of_not_lt hmax
      simpa [hpos, hint', hnonce] using MiningOutcome.atMax hi hf hnonce hint'
  | @found i hi hf hlt hcheck =>
    have hpos : max_tries - i ≠ 0 := by omega
    by_cases hint : interrupted i = true
    · simpa [hpos, hint] using MiningOutcome.halted hi hf hint
    · have hint' := Bool.eq_false_iff.2 hint
      simpa [hpos, hint', UInt32.ne_of_lt hlt] using MiningOutcome.found hi hf hlt hcheck hint'
  | @stopped i hi hf hlt hcheck hint =>
    -- the read after the loop comes after the one that stopped it, so it sees the interrupt too
    have hpos : max_tries - i ≠ 0 := by omega
    have hint₁ : interrupted (i + 1) = true := by
      have hle := hmono (Nat.le_succ i)
      rw [Nat.zero_add] at hint
      rw [hint] at hle
      exact top_le_iff.1 hle
    simpa [hpos, hint₁] using MiningOutcome.halted hi hf (by simpa using hint)

/-- **What the miner returns.** With `m_interrupt` never cleared once set, `GenerateBlock` ends in
one of the four outcomes of `MiningOutcome`: in particular a block it hands out is the first
nonce from the template's on that passes `CheckProofOfWork` with the hash validation computes,
below `UINT32_MAX`, within `max_tries` tries. -/
theorem GenerateBlock_outcome (hmono : Monotone interrupted) (BlockMerkleRoot : CBlock → Uint256)
    (block : CBlock) (max_tries : ℕ) :
    MiningOutcome params interrupted sha256d { block with hashMerkleRoot := BlockMerkleRoot block }
      max_tries (GenerateBlock params interrupted sha256d BlockMerkleRoot block max_tries) := by
  simp only [GenerateBlock, searchLoop_eq_searchSpec params interrupted sha256d _ _ _ (.init _)]
  exact miningOutcome_of_searchEnd hmono (searchSpec_end params interrupted sha256d 0 max_tries _)

/-- The null header, whose `nBits` of `0` no hash meets, with three tries, an interrupt from the
third read of `m_interrupt` on, and the header's first 32 bytes as its seed: two tries fail, and
the third is stopped by the interrupt. -/
theorem GenerateBlock_outcome_halted :
    Monotone (fun k : ℕ => decide (2 ≤ k)) ∧
      MiningOutcome mainParams (fun k => decide (2 ≤ k)) CBlockHeader.toUint256
        { (⟨CBlockHeader.null, []⟩ : CBlock) with hashMerkleRoot := nullHash } 3
        (GenerateBlock mainParams (fun k => decide (2 ≤ k)) CBlockHeader.toUint256
          (fun _ => nullHash) ⟨CBlockHeader.null, []⟩ 3) ∧
      GenerateBlock mainParams (fun k => decide (2 ≤ k)) CBlockHeader.toUint256 (fun _ => nullHash)
        ⟨CBlockHeader.null, []⟩ 3 = (false, none, 1) := by
  have hmono : Monotone (fun k : ℕ => decide (2 ≤ k)) := fun a b hab =>
    Bool.le_iff_imp.2 fun h => by simp only [decide_eq_true_eq] at h ⊢; omega
  exact ⟨hmono, GenerateBlock_outcome mainParams (fun k => decide (2 ≤ k)) CBlockHeader.toUint256
    hmono (fun _ => nullHash) ⟨CBlockHeader.null, []⟩ 3, by decide⟩

end Outcome

end Tenscoin
