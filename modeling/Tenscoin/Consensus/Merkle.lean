import Mathlib

/-!
# Merkle roots and Merkle paths

`consensus/merkle.cpp`. `ComputeMerkleRoot` reduces a list of hashes level by level: a level
of odd length first has its last hash duplicated ("Bitcoin's special rule for odd levels"),
and then each consecutive pair is hashed (`SHA256D64`). When a mutation flag is asked for, it
records whether at some level an even position holds the same hash as the next one, which is
how CVE-2012-2459 is detected.

`MerkleComputation` is the constant-space calculator behind `ComputeMerklePath`: one eagerly
computed subtree hash per level in `inner[32]`, indexed by the bits of a `uint32_t` leaf
counter, the level `matchlevel` whose stored hash depends on the leaf of interest, and a final
sweep over the right edge that pairs odd nodes with themselves.

The hash type and `Hash` of two hashes are parameters, so that `Hash` can be assumed
injective where that is the point. `SHA256D64` over a level is `Hash` of each pair: both are
SHA256d of 64 bytes. `uint256()` is `default`, and the entries of `inner` that are never
written are `default` as well.

The loops of `MerkleComputation` shift `uint32_t{1}` left by the level. A shift by 32 or more
is undefined behaviour in C++, and an error (`shiftError`) here. `Assume` has no effect in a
release build and is left out.
-/

namespace Tenscoin

variable {α : Type} (hash : α → α → α)

/-! ### `ComputeMerkleRoot` -/

/-- `SHA256D64` over a level of even length: the hash of each consecutive pair. -/
def sha256D64 : List α → List α
  | a :: b :: rest => hash a b :: sha256D64 rest
  | _ => []

/-- The mutation scan of `ComputeMerkleRoot`: some even position holds the same hash as the
next one. -/
def hasEqualPair [DecidableEq α] : List α → Bool
  | a :: b :: rest => a == b || hasEqualPair rest
  | _ => false

/-- `if (hashes.size() & 1) hashes.push_back(hashes.back());` -/
def duplicateOdd (hashes : List α) : List α :=
  if hashes.length &&& 1 != 0 then hashes ++ hashes.getLast?.toList else hashes

theorem length_sha256D64 : ∀ hashes : List α, (sha256D64 hash hashes).length = hashes.length / 2
  | a :: b :: rest => by
    rw [sha256D64, List.length_cons, length_sha256D64 rest, List.length_cons, List.length_cons]
    omega
  | [] => by simp [sha256D64]
  | [_] => by simp [sha256D64]

theorem length_duplicateOdd (hashes : List α) :
    (duplicateOdd hashes).length = hashes.length + hashes.length % 2 := by
  unfold duplicateOdd
  rw [Nat.and_one_is_mod]
  split
  · -- an odd level is not empty, so `back()` exists
    cases hashes with
    | nil => simp_all
    | cons a t =>
      simp only [List.getLast?_cons, Option.toList_some, List.length_append, List.length_cons,
        List.length_nil] at *
      simp_all only [bne_iff_ne, ne_eq]
      omega
  · simp_all

/-- The `while (hashes.size() > 1)` loop of `ComputeMerkleRoot`, with its mutation flag. -/
def computeMerkleRootLoop [DecidableEq α] (hashes : List α) (mutation : Bool) :
    List α × Bool :=
  if _h : hashes.length > 1 then
    computeMerkleRootLoop (sha256D64 hash (duplicateOdd hashes)) (mutation || hasEqualPair hashes)
  else (hashes, mutation)
termination_by hashes.length
decreasing_by rw [length_sha256D64, length_duplicateOdd]; omega

/-- `ComputeMerkleRoot`: the root, `uint256()` for no hashes, and the mutation flag. The scan
runs whether or not the caller asks for the flag; a caller passing `nullptr` ignores it. -/
def computeMerkleRoot [DecidableEq α] [Inhabited α] (hashes : List α) : α × Bool :=
  let r := computeMerkleRootLoop hash hashes false
  (r.1.headD default, r.2)

/-! ### `MerkleComputation` -/

/-- The error standing for a shift of `uint32_t{1}` by 32 or more. -/
def shiftError : String :=
  "undefined behaviour: uint32_t{1} << level with level >= 32"

/-- The locals of `MerkleComputation` that the leaf loop updates. -/
structure MerkleState (α : Type) where
  count : UInt32
  inner : Vector α 32
  matchlevel : ℤ
  mutated : Bool
  path : List α

/-- The locals before the first leaf: `count = 0`, `matchlevel = -1`, an empty path. -/
def MerkleState.init [Inhabited α] : MerkleState α :=
  { count := 0, inner := Vector.replicate 32 default, matchlevel := -1, mutated := false,
    path := [] }

/-- The path bookkeeping of a combining step at `level`, shared by the leaf loop and the
sweep: `if (matchh) path->push_back(inner[level]); else if (matchlevel == level)
{ path->push_back(h); matchh = true; }`. It returns the path and the new `matchh`. -/
def pathStep (innerLevel h : α) (matchlevel : ℤ) (level : ℕ) (matchh : Bool)
    (path : List α) : List α × Bool :=
  if matchh then (path ++ [innerLevel], true)
  else if matchlevel = level then (path ++ [h], true)
  else (path, false)

/-- The inner loop of the leaf phase: "For each of the lower bits in count that are 0, do 1
step", combining the stored hash of the level with `h`. It returns the level it stops at,
with `h`, `matchh`, `mutated` and the path. -/
def leafClimb [DecidableEq α] (count : UInt32) (inner : Vector α 32) (matchlevel : ℤ)
    (level : ℕ) (h : α) (matchh mutated : Bool) (path : List α) :
    Except String (Fin 32 × α × Bool × Bool × List α) :=
  if hl : level < 32 then
    if count &&& (1 <<< level.toUInt32) = 0 then
      let r := pathStep inner[level] h matchlevel level matchh path
      leafClimb count inner matchlevel (level + 1) (hash inner[level] h) r.2
        (mutated || inner[level] == h) r.1
    else pure (⟨level, hl⟩, h, matchh, mutated, path)
  else throw shiftError
termination_by 32 - level

/-- One round of `while (count < leaves.size())`. The loop reads `leaves[count]`, which is
the next leaf as long as `count` has not wrapped; it cannot wrap and go on, since the climb
after a wrap to `0` shifts by 32. -/
def leafStep [DecidableEq α] (leaf_pos : UInt32) (s : MerkleState α) (leaf : α) :
    Except String (MerkleState α) := do
  let count := s.count + 1
  let (level, h, matchh, mutated, path) ←
    leafClimb hash count s.inner s.matchlevel 0 leaf (s.count == leaf_pos) s.mutated s.path
  pure { count, inner := s.inner.set level h, mutated, path,
         matchlevel := if matchh then level else s.matchlevel }

/-- `while (!(count & ((uint32_t{1}) << level))) level++;` -/
def lowestLevel (count : UInt32) (level : ℕ) : Except String (Fin 32) :=
  if hl : level < 32 then
    if count &&& (1 <<< level.toUInt32) = 0 then lowestLevel count (level + 1)
    else pure ⟨level, hl⟩
  else throw shiftError
termination_by 32 - level

/-- The final sweep over the right edge. Its two nested loops are one loop here, over the level
and over which of the two loops is at its head: `propagating` for the inner "propagate the
result upwards" loop, otherwise the outer `while (count != ((uint32_t{1}) << level))`, where
`h` is paired with itself. It returns the top hash and the path. -/
def sweep (inner : Vector α 32) (matchlevel : ℤ) (count : UInt32) (level : ℕ)
    (propagating : Bool) (h : α) (matchh : Bool) (path : List α) :
    Except String (α × List α) :=
  if hl : level < 32 then
    if propagating then
      if count &&& (1 <<< level.toUInt32) = 0 then
        let r := pathStep inner[level] h matchlevel level matchh path
        sweep inner matchlevel count (level + 1) true (hash inner[level] h) r.2 r.1
      else sweep inner matchlevel count level false h matchh path
    else if count ≠ 1 <<< level.toUInt32 then
      -- Bitcoin's special rule for odd levels: `h = Hash(h, h)`
      sweep inner matchlevel (count + (1 <<< level.toUInt32)) (level + 1) true (hash h h) matchh
        (if matchh then path ++ [h] else path)
    else pure (h, path)
  else throw shiftError
termination_by 2 * (32 - level) + propagating.toNat
decreasing_by all_goals simp_all <;> omega

/-- `MerkleComputation` with all three outputs asked for: the root, the mutation flag and the
path of the leaf at `leaf_pos`. -/
def merkleComputation [DecidableEq α] [Inhabited α] (leaves : List α) (leaf_pos : UInt32) :
    Except String (α × Bool × List α) :=
  if leaves.length = 0 then pure (default, false, [])
  else do
    let s ← leaves.foldlM (leafStep hash leaf_pos) MerkleState.init
    let level ← lowestLevel s.count 0
    let (h, path) ← sweep hash s.inner s.matchlevel s.count level false s.inner[level]
      (decide (s.matchlevel = level)) s.path
    pure (h, s.mutated, path)

/-- `ComputeMerklePath`: `MerkleComputation` asked for the path only. -/
def computeMerklePath [DecidableEq α] [Inhabited α] (leaves : List α) (position : UInt32) :
    Except String (List α) := do
  let (_, _, path) ← merkleComputation hash leaves position
  pure path

/-- `ComputeMerkleRootFromBranch` of the unit tests: fold the leaf with the branch, the
branch entry on the left when the low bit of the index is set. -/
def computeMerkleRootFromBranch (leaf : α) : List α → UInt32 → α
  | [], _ => leaf
  | it :: rest, nIndex =>
    computeMerkleRootFromBranch (if nIndex &&& 1 != 0 then hash it leaf else hash leaf it) rest
      (nIndex >>> 1)

end Tenscoin
