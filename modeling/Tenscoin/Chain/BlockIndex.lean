import Mathlib
import Tenscoin.Lib.Forest
import Tenscoin.Lib.Except

/-!
# The block index and its skip pointers

`CBlockIndex` (`chain.h`) links every known header to its predecessor through `pprev`, and
to one further ancestor through `pskip`, chosen by `GetSkipHeight` when the index is added
(`CBlockIndex::BuildSkip`). `CBlockIndex::GetAncestor` walks down the tree taking whichever
of the two links gets closer to the requested height, and `LastCommonAncestor` first brings
two indexes to the same height and then steps both down in lockstep.

The block indexes live in an arena, `BlockTree`: a pointer is a position in the list, and
dereferencing a position the list does not hold is an error (`BlockTree.deref`), where the
source has no such case. The loops of the source are kept as they are: `GetAncestor`'s
walk recurses on the height it has reached, which every step lowers, and the lockstep loop
of `LastCommonAncestor` runs on fuel, for which the arena's size is enough
(`Tenscoin.Chain.Skiplist`). An `assert` that fails is an error naming it.

`BlockTree.addToBlockIndex` is the part of `BlockManager::AddToBlockIndex` that builds the
tree: the lookup of `hashPrevBlock` is given as the pointer it found, if any.
-/

namespace Tenscoin

/-- The fields of `CBlockIndex` the tree queries and the proof-of-work rules read. -/
structure CBlockIndex where
  pprev : Option ℕ
  pskip : Option ℕ
  nHeight : ℕ
  nTime : UInt32
  nBits : UInt32
  deriving DecidableEq, Repr

namespace CBlockIndex

/-- `CBlockIndex::GetBlockTime`. -/
def GetBlockTime (b : CBlockIndex) : ℤ :=
  b.nTime.toNat

end CBlockIndex

/-- The arena of block indexes: `pprev` and `pskip` are positions in it. -/
abbrev BlockTree := List CBlockIndex

namespace BlockTree

/-- Following a pointer of the arena. -/
def deref (t : BlockTree) (p : ℕ) : Except String CBlockIndex :=
  match t[p]? with
  | some b => pure b
  | none => throw "dangling CBlockIndex pointer"

/-- The parent link of a position, as a function for the forest lemmas. -/
def pprevOf (t : BlockTree) (p : ℕ) : Option ℕ :=
  t[p]?.bind CBlockIndex.pprev

/-- The height stored at a position (`0` off the arena). -/
def height (t : BlockTree) (p : ℕ) : ℕ :=
  (t[p]?.map CBlockIndex.nHeight).getD 0

theorem deref_of_getElem? {t : BlockTree} {p : ℕ} {b : CBlockIndex} (h : t[p]? = some b) :
    t.deref p = .ok b := by
  simp [deref, h]

theorem pprevOf_of_getElem? {t : BlockTree} {p : ℕ} {b : CBlockIndex} (h : t[p]? = some b) :
    t.pprevOf p = b.pprev := by
  simp [pprevOf, h]

theorem height_of_getElem? {t : BlockTree} {p : ℕ} {b : CBlockIndex} (h : t[p]? = some b) :
    t.height p = b.nHeight := by
  simp [height, h]

end BlockTree

/-! ### Skip heights -/

/-- `InvertLowestOne`: clear the lowest set bit. -/
def invertLowestOne (n : ℕ) : ℕ :=
  n &&& (n - 1)

/-- `GetSkipHeight`: the height `pskip` of a block at `height` points to. -/
def getSkipHeight (height : ℕ) : ℕ :=
  if height < 2 then 0
  else if height &&& 1 != 0 then invertLowestOne (invertLowestOne (height - 1)) + 1
  else invertLowestOne height

theorem invertLowestOne_le (n : ℕ) : invertLowestOne n ≤ n :=
  Nat.and_le_left

theorem invertLowestOne_lt {n : ℕ} (hn : 0 < n) : invertLowestOne n < n :=
  lt_of_le_of_lt Nat.and_le_right (by omega)

/-- The skip pointer of a block of positive height points strictly below it. -/
theorem getSkipHeight_lt {height : ℕ} (h : 0 < height) : getSkipHeight height < height := by
  unfold getSkipHeight
  split
  · exact h
  · split
    · -- an odd height: two bits are cleared from `height - 1`, then one is added back
      have := invertLowestOne_le (invertLowestOne (height - 1))
      have := invertLowestOne_lt (n := height - 1) (by omega)
      omega
    · exact invertLowestOne_lt h

/-- The test `CBlockIndex::GetAncestor` makes, besides `pskip` being set, before it follows
`pskip` from `heightWalk` towards `height`: the skip target is the goal, or it is above the
goal and the skip of the predecessor is not a better jump. In the source the heights are
`int`; `heightSkip - 2` is truncated here, which changes nothing since `heightSkipPrev` is
never negative. -/
def followSkip (heightWalk height : ℕ) : Bool :=
  let heightSkip := getSkipHeight heightWalk
  let heightSkipPrev := getSkipHeight (heightWalk - 1)
  heightSkip == height ||
    (decide (heightSkip > height) &&
      !(decide (heightSkipPrev < heightSkip - 2) && decide (heightSkipPrev ≥ height)))

/-- A walk that follows the skip pointer never jumps past the goal. -/
theorem le_getSkipHeight_of_followSkip {heightWalk height : ℕ}
    (h : followSkip heightWalk height = true) : height ≤ getSkipHeight heightWalk := by
  unfold followSkip at h
  simp only [Bool.or_eq_true, beq_iff_eq, Bool.and_eq_true, decide_eq_true_eq] at h
  omega

/-! ### `GetAncestor` -/

namespace BlockTree

/-- The loop of `CBlockIndex::GetAncestor`, from `pindexWalk` at `heightWalk` down to
`height`. -/
def getAncestorWalk (t : BlockTree) (height pindexWalk heightWalk : ℕ) : Except String ℕ :=
  if _hgt : heightWalk > height then do
    let walk ← t.deref pindexWalk
    -- only follow pskip if pprev->pskip isn't better than pskip->pprev
    let skip := if followSkip heightWalk height then walk.pskip else none
    match skip, walk.pprev with
    | some pskip, _ => t.getAncestorWalk height pskip (getSkipHeight heightWalk)
    | none, some pprev => t.getAncestorWalk height pprev (heightWalk - 1)
    | none, none => throw "assert(pindexWalk->pprev)"
  else pure pindexWalk
termination_by heightWalk
decreasing_by
  · exact getSkipHeight_lt (by omega)
  · omega

/-- `CBlockIndex::GetAncestor`: the ancestor of the block at `p` at `height`, or `nullptr`
for a height outside `0 .. nHeight`. -/
def getAncestor (t : BlockTree) (p : ℕ) (height : ℤ) : Except String (Option ℕ) := do
  let b ← t.deref p
  if height > b.nHeight ∨ height < 0 then pure none
  else some <$> t.getAncestorWalk height.toNat p b.nHeight

/-- `CBlockIndex::BuildSkip`, for a block whose `pprev` and `nHeight` are set. -/
def buildSkip (t : BlockTree) (pprev : Option ℕ) (nHeight : ℕ) : Except String (Option ℕ) :=
  match pprev with
  | some p => t.getAncestor p (getSkipHeight nHeight)
  | none => pure none

/-- The tree part of `BlockManager::AddToBlockIndex`: a new index for a header with the given
time and bits, linked to the index `miPrev` its `hashPrevBlock` was found at. A header whose
predecessor is unknown stays at height `0` without links. -/
def addToBlockIndex (t : BlockTree) (nTime nBits : UInt32) (miPrev : Option ℕ) :
    Except String BlockTree := do
  let nHeight ← match miPrev with
    | some p => do
      let prev ← t.deref p
      pure (prev.nHeight + 1)
    | none => pure 0
  let pskip ← t.buildSkip miPrev nHeight
  pure (t ++ [{ pprev := miPrev, pskip, nHeight, nTime, nBits }])

/-! ### `LastCommonAncestor` -/

/-- The loop of `LastCommonAncestor`: step both pointers to their predecessors while they
differ and neither is null, then `assert(pa == pb)`. -/
def lastCommonAncestorLoop (t : BlockTree) : ℕ → Option ℕ → Option ℕ → Except String (Option ℕ)
  | 0, _, _ => throw "LastCommonAncestor: out of fuel"
  | fuel + 1, some pa, some pb =>
    if pa ≠ pb then do
      let a ← t.deref pa
      let b ← t.deref pb
      lastCommonAncestorLoop t fuel a.pprev b.pprev
    else pure (some pa)
  | _ + 1, pa, pb => if pa = pb then pure pa else throw "assert(pa == pb)"

/-- `LastCommonAncestor(pa, pb)`: bring the higher of the two blocks down to the height of
the other, then walk both down together. -/
def lastCommonAncestor (t : BlockTree) (pa pb : ℕ) : Except String (Option ℕ) := do
  let a ← t.deref pa
  let b ← t.deref pb
  let (pa', pb') ←
    if a.nHeight > b.nHeight then do
      let pa' ← t.getAncestor pa b.nHeight
      pure (pa', some pb)
    else if b.nHeight > a.nHeight then do
      let pb' ← t.getAncestor pb a.nHeight
      pure (some pa, pb')
    else pure (some pa, some pb)
  t.lastCommonAncestorLoop t.length pa' pb'

end BlockTree

end Tenscoin
