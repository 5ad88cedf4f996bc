import Mathlib
import Tenscoin.Chain.BlockIndex

/-!
# The skip list answers ancestor queries exactly

Every tree the node builds by `AddToBlockIndex` keeps `BlockTree.WellFormed`: parents come
earlier in the arena, one height down; the genesis index, the only one without a parent, is
first and at height `0`; and every `pskip` is the ancestor `BuildSkip` asked for, the one at
`GetSkipHeight nHeight`. Under it the arena is a ranked forest (`BlockTree.WellFormed.ranked`)
and the lemmas of `Tenscoin.Lib.Forest` apply to its parent links.

* `BlockTree.WellFormed.getAncestorWalk_eq`: whatever mix of `pskip` and `pprev` links the
  walk of `GetAncestor` takes, it stays on the ancestor chain, never below the goal, and
  never reaches the `assert(pindexWalk->pprev)`: a block above the goal is not the genesis.
  The induction is on the height the walk has reached.
* `BlockTree.WellFormed.getAncestor_eq`: `GetAncestor(height)` is the block reached by
  following `pprev` `nHeight - height` times, and `nullptr` off `0 .. nHeight`.
* `BlockTree.WellFormed.addToBlockIndex`: adding a block keeps the invariant, which is where
  the correctness of `GetAncestor` on the smaller tree is used, by `BuildSkip`.
* `BlockTree.WellFormed.lastCommonAncestor_spec`: `LastCommonAncestor` returns the last
  common ancestor, and its lockstep loop runs out neither of fuel nor into its `assert`.

`BlockTree.Reachable` are the trees built from the empty one, genesis first;
`BlockTree.Reachable.getAncestor_lastCommonAncestor_spec` collects the results for them.
-/

namespace Tenscoin

namespace BlockTree

open Forest

variable {t : BlockTree}

/-! ### The tree invariant -/

/-- The shape `AddToBlockIndex` and `BuildSkip` give the block tree. -/
structure WellFormed (t : BlockTree) : Prop where
  pprev_lt : ∀ {i : ℕ} {b : CBlockIndex} {j : ℕ}, t[i]? = some b → b.pprev = some j → j < i
  nHeight_pprev : ∀ {i : ℕ} {b : CBlockIndex} {j : ℕ}, t[i]? = some b → b.pprev = some j →
    b.nHeight = t.height j + 1
  genesis : ∀ {i : ℕ} {b : CBlockIndex}, t[i]? = some b → b.pprev = none →
    i = 0 ∧ b.nHeight = 0
  pskip_eq : ∀ {i : ℕ} {b : CBlockIndex}, t[i]? = some b → 0 < b.nHeight →
    b.pskip = up t.pprevOf (b.nHeight - getSkipHeight b.nHeight) i

theorem exists_getElem? {i : ℕ} (hi : i < t.length) : ∃ b, t[i]? = some b :=
  ⟨t[i], List.getElem?_eq_getElem hi⟩

theorem lt_length_of_pprevOf {i j : ℕ} (h : t.pprevOf i = some j) : i < t.length := by
  rw [pprevOf, Option.bind_eq_some_iff] at h
  obtain ⟨b, hb, -⟩ := h
  exact (List.getElem?_eq_some_iff.mp hb).1

namespace WellFormed

variable (hw : WellFormed t)
include hw

theorem ranked : Ranked t.pprevOf t.height where
  par_some {i j} h := by
    rw [pprevOf, Option.bind_eq_some_iff] at h
    obtain ⟨b, hb, hj⟩ := h
    rw [height_of_getElem? hb]
    exact hw.nHeight_pprev hb hj
  par_none {i} h := by
    cases hb : t[i]? with
    | none => simp [height, hb]
    | some b =>
      rw [pprevOf_of_getElem? hb] at h
      rw [height_of_getElem? hb]
      exact (hw.genesis hb h).2

theorem pprevOf_lt {i j : ℕ} (h : t.pprevOf i = some j) : j < i := by
  rw [pprevOf, Option.bind_eq_some_iff] at h
  obtain ⟨b, hb, hj⟩ := h
  exact hw.pprev_lt hb hj

/-- Walking up never leaves the arena: ancestors come earlier. -/
theorem up_le {k : ℕ} : ∀ {i c : ℕ}, up t.pprevOf k i = some c → c ≤ i := by
  induction k with
  | zero =>
    intro i c h
    rw [up_zero, Option.some_inj] at h
    exact h.ge
  | succ k ih =>
    intro i c h
    rw [up_succ, Option.bind_eq_some_iff] at h
    obtain ⟨j, hj, hc⟩ := h
    exact le_trans (ih hc) (hw.pprevOf_lt hj).le

theorem up_lt_length {k i c : ℕ} (hi : i < t.length) (h : up t.pprevOf k i = some c) :
    c < t.length :=
  lt_of_le_of_lt (hw.up_le h) hi

/-- A height is at most the position: each parent link lowers both. -/
theorem height_le_self (i : ℕ) : t.height i ≤ i := by
  induction i using Nat.strong_induction_on with
  | _ i ih =>
    cases hp : t.pprevOf i with
    | none => simp [hw.ranked.par_none hp]
    | some j =>
      have hlt := hw.pprevOf_lt hp
      have := ih j hlt
      rw [hw.ranked.par_some hp]
      omega

/-- The genesis index is the only index at height `0`. -/
theorem eq_zero_of_height_eq_zero {i : ℕ} (hi : i < t.length) (h0 : t.height i = 0) :
    i = 0 := by
  obtain ⟨b, hb⟩ := exists_getElem? hi
  cases hp : b.pprev with
  | none => exact (hw.genesis hb hp).1
  | some j =>
    have := hw.nHeight_pprev hb hp
    rw [height_of_getElem? hb] at h0
    omega

/-- A block above height `0` has a parent. -/
theorem exists_pprev {i : ℕ} {b : CBlockIndex} (hb : t[i]? = some b) (hpos : 0 < b.nHeight) :
    ∃ j, b.pprev = some j := by
  cases hp : b.pprev with
  | none => exact absurd (hw.genesis hb hp).2 (by omega)
  | some j => exact ⟨j, rfl⟩

/-! ### `GetAncestor` -/

/-- **The walk of `GetAncestor` stays on the ancestor chain.** Started at an index at its own
height `heightWalk`, it returns the ancestor at `height` reached through `pprev`. A `pskip`
link is the ancestor at the skip height, which `followSkip` keeps at or above the goal; a
`pprev` link is taken only above the goal, where the block is not the genesis. -/
theorem getAncestorWalk_eq (height : ℕ) :
    ∀ heightWalk {p c : ℕ}, p < t.length → t.height p = heightWalk → height ≤ heightWalk →
      up t.pprevOf (heightWalk - height) p = some c →
      t.getAncestorWalk height p heightWalk = .ok c := by
  intro heightWalk
  induction heightWalk using Nat.strong_induction_on with
  | _ heightWalk ih =>
  intro p c hp hh hle hc
  obtain ⟨b, hb⟩ := exists_getElem? hp
  rw [height_of_getElem? hb] at hh
  rw [getAncestorWalk]
  by_cases hgt : heightWalk > height
  · rw [dif_pos hgt, deref_of_getElem? hb, Except.ok_bind]
    obtain ⟨q, hq⟩ := hw.exists_pprev hb (by omega)
    by_cases hf : followSkip heightWalk height = true
    · -- the skip link: the ancestor at `getSkipHeight heightWalk`, between goal and walk
      have hsk := getSkipHeight_lt (show 0 < heightWalk by omega)
      have hgoal := le_getSkipHeight_of_followSkip hf
      obtain ⟨s, hs⟩ := up_isSome hw.ranked (k := heightWalk - getSkipHeight heightWalk)
        (x := p) (by rw [height_of_getElem? hb]; omega)
      have hskip : b.pskip = some s := by rw [hw.pskip_eq hb (by omega), hh, hs]
      have hhs : t.height s = getSkipHeight heightWalk := by
        have := ht_up hw.ranked hs
        rw [height_of_getElem? hb] at this
        omega
      rw [if_pos hf, hskip]
      refine ih _ hsk (hw.up_lt_length hp hs) hhs hgoal ?_
      rw [up_of_up_le _ hs (by omega)] at hc
      rwa [show heightWalk - height - (heightWalk - getSkipHeight heightWalk) =
        getSkipHeight heightWalk - height by omega] at hc
    · -- the parent link, one height down
      have hpq : up t.pprevOf 1 p = some q := by
        rw [up_succ, pprevOf_of_getElem? hb, hq, Option.bind_some, up_zero]
      have hhq : t.height q = heightWalk - 1 := by
        have := hw.nHeight_pprev hb hq
        omega
      rw [if_neg hf, hq]
      refine ih _ (by omega) (lt_trans (hw.pprev_lt hb hq) hp) hhq (by omega) ?_
      rw [up_of_up_le _ hpq (by omega)] at hc
      rwa [show heightWalk - height - 1 = heightWalk - 1 - height by omega] at hc
  · -- the walk has reached the goal
    rw [dif_neg hgt]
    rw [show heightWalk - height = 0 by omega, up_zero, Option.some_inj] at hc
    rw [hc, Except.pure_eq_ok]

/-- **`GetAncestor` is the ancestor reached through `pprev`.** For a height in
`0 .. nHeight` it follows `pprev` exactly `nHeight - height` times; outside, it is `nullptr`.
It never fails. -/
theorem getAncestor_eq {p : ℕ} (hp : p < t.length) (height : ℤ) :
    t.getAncestor p height =
      .ok (if 0 ≤ height ∧ height ≤ t.height p then up t.pprevOf (t.height p - height.toNat) p
        else none) := by
  obtain ⟨b, hb⟩ := exists_getElem? hp
  unfold getAncestor
  rw [deref_of_getElem? hb, Except.ok_bind, height_of_getElem? hb]
  by_cases hin : 0 ≤ height ∧ height ≤ b.nHeight
  · rw [if_neg (by omega), if_pos hin]
    obtain ⟨c, hc⟩ := up_isSome hw.ranked (k := b.nHeight - height.toNat) (x := p)
      (by rw [height_of_getElem? hb]; omega)
    rw [hc, hw.getAncestorWalk_eq height.toNat b.nHeight hp (height_of_getElem? hb)
      (by omega) hc, Except.map_ok]
  · rw [if_pos (by omega), if_neg hin, Except.pure_eq_ok]

/-- `GetAncestor` at a height in range returns a block of the arena at that height. -/
theorem getAncestor_of_le {p h : ℕ} (hp : p < t.length) (hh : h ≤ t.height p) :
    ∃ c, up t.pprevOf (t.height p - h) p = some c ∧ c < t.length ∧ t.height c = h ∧
      t.getAncestor p h = .ok (some c) := by
  obtain ⟨c, hc⟩ := up_isSome hw.ranked (k := t.height p - h) (x := p) (by omega)
  have hhc := ht_up hw.ranked hc
  refine ⟨c, hc, hw.up_lt_length hp hc, by omega, ?_⟩
  rw [hw.getAncestor_eq hp, if_pos (by omega), Int.toNat_natCast, hc]

end WellFormed

/-! ### Adding a block -/

theorem pprevOf_append {b : CBlockIndex} {i : ℕ} (hi : i < t.length) :
    (t ++ [b]).pprevOf i = t.pprevOf i := by
  simp [pprevOf, List.getElem?_append_left hi]

theorem height_append {b : CBlockIndex} {i : ℕ} (hi : i < t.length) :
    (t ++ [b]).height i = t.height i := by
  simp [height, List.getElem?_append_left hi]

/-- Appending a block does not change the walks up from the old blocks. -/
theorem WellFormed.up_append (hw : WellFormed t) {b : CBlockIndex} {k : ℕ} :
    ∀ {i : ℕ}, i < t.length → up (t ++ [b]).pprevOf k i = up t.pprevOf k i := by
  induction k with
  | zero => intro i _; rfl
  | succ k ih =>
    intro i hi
    rw [up_succ, up_succ, pprevOf_append hi]
    cases hp : t.pprevOf i with
    | none => rfl
    | some j => exact ih (lt_trans (hw.pprevOf_lt hp) hi)

theorem getElem?_append_singleton {b b' : CBlockIndex} {i : ℕ} (h : (t ++ [b])[i]? = some b') :
    (i < t.length ∧ t[i]? = some b') ∨ (i = t.length ∧ b' = b) := by
  by_cases hi : i < t.length
  · exact .inl ⟨hi, by rwa [List.getElem?_append_left hi] at h⟩
  · rw [List.getElem?_append_right (by omega), List.getElem?_singleton] at h
    split at h
    · exact .inr ⟨by omega, (Option.some_injective _ h).symm⟩
    · cases h

/-- What a new block must satisfy with respect to the tree it is appended to: a parent in
the tree one height down and the skip pointer `BuildSkip` sets, or no parent on an empty tree
at height `0`. -/
structure NewBlock (t : BlockTree) (b : CBlockIndex) : Prop where
  pprev_some : ∀ {j}, b.pprev = some j → j < t.length ∧ b.nHeight = t.height j + 1 ∧
    b.pskip = up t.pprevOf (t.height j - getSkipHeight b.nHeight) j
  pprev_none : b.pprev = none → t = [] ∧ b.nHeight = 0

/-- Appending a new block keeps the invariant. The old blocks keep their links and heights;
the new one is checked against `NewBlock`. -/
theorem WellFormed.append (hw : WellFormed t) {b : CBlockIndex} (hb : NewBlock t b) :
    WellFormed (t ++ [b]) := by
  constructor
  · intro i b' j hi hj
    rcases getElem?_append_singleton hi with ⟨hlt, hi⟩ | ⟨rfl, rfl⟩
    · exact hw.pprev_lt hi hj
    · exact (hb.pprev_some hj).1
  · intro i b' j hi hj
    rcases getElem?_append_singleton hi with ⟨hlt, hi⟩ | ⟨rfl, rfl⟩
    · rw [height_append (lt_trans (hw.pprev_lt hi hj) hlt)]
      exact hw.nHeight_pprev hi hj
    · obtain ⟨hjl, hh, -⟩ := hb.pprev_some hj
      rw [height_append hjl]
      exact hh
  · intro i b' hi hj
    rcases getElem?_append_singleton hi with ⟨hlt, hi⟩ | ⟨rfl, rfl⟩
    · exact hw.genesis hi hj
    · obtain ⟨rfl, hh⟩ := hb.pprev_none hj
      exact ⟨rfl, hh⟩
  · intro i b' hi hpos
    rcases getElem?_append_singleton hi with ⟨hlt, hi⟩ | ⟨rfl, rfl⟩
    · rw [hw.up_append hlt]
      exact hw.pskip_eq hi hpos
    · -- the new block's first link is its parent, then the walk is in the old tree
      cases hp : b'.pprev with
      | none => exact absurd (hb.pprev_none hp).2 (by omega)
      | some j =>
        obtain ⟨hjl, hh, hs⟩ := hb.pprev_some hp
        have hsk := getSkipHeight_lt hpos
        have hpar : (t ++ [b']).pprevOf t.length = some j := by
          rw [pprevOf_of_getElem? List.getElem?_concat_length, hp]
        rw [hs, show b'.nHeight - getSkipHeight b'.nHeight =
          (t.height j - getSkipHeight b'.nHeight) + 1 by omega, up_succ, hpar,
          Option.bind_some, hw.up_append hjl]

theorem wellFormed_nil : WellFormed [] where
  pprev_lt h := by simp at h
  nHeight_pprev h := by simp at h
  genesis h := by simp at h
  pskip_eq h := by simp at h

/-- `AddToBlockIndex` with a predecessor found in the tree appends the block `BuildSkip`
links: one height above the predecessor, skipping to its ancestor at the skip height. -/
theorem WellFormed.addToBlockIndex_some (hw : WellFormed t) {p : ℕ} {nTime nBits : UInt32}
    {t' : BlockTree} (h : t.addToBlockIndex nTime nBits (some p) = .ok t') :
    ∃ bp, t[p]? = some bp ∧ t' = t ++ [({
      pprev := some p
      pskip := up t.pprevOf (bp.nHeight - getSkipHeight (bp.nHeight + 1)) p
      nHeight := bp.nHeight + 1
      nTime
      nBits } : CBlockIndex)] := by
  cases hbp : t[p]? with
  | none => simp [addToBlockIndex, deref, hbp] at h
  | some bp =>
    have hp : p < t.length := (List.getElem?_eq_some_iff.mp hbp).1
    have hsk := getSkipHeight_lt (show 0 < bp.nHeight + 1 by omega)
    refine ⟨bp, rfl, ?_⟩
    simp only [addToBlockIndex, buildSkip, deref_of_getElem? hbp, Except.ok_bind,
      Except.pure_eq_ok, hw.getAncestor_eq hp, height_of_getElem? hbp] at h
    rw [if_pos (by omega), Int.toNat_natCast] at h
    exact (Except.ok.inj h).symm

/-- **Adding a block keeps the invariant.** A block whose predecessor was not found is only
added to the empty tree: it is the genesis. -/
theorem WellFormed.addToBlockIndex (hw : WellFormed t) {miPrev : Option ℕ}
    {nTime nBits : UInt32} {t' : BlockTree} (hprev : miPrev = none → t = [])
    (h : t.addToBlockIndex nTime nBits miPrev = .ok t') : WellFormed t' := by
  cases miPrev with
  | none =>
    have ht := hprev rfl
    simp only [BlockTree.addToBlockIndex, buildSkip, Except.pure_eq_ok, Except.ok_bind] at h
    rw [← Except.ok.inj h]
    exact hw.append ⟨(fun hj => by cases hj), fun _ => ⟨ht, rfl⟩⟩
  | some p =>
    obtain ⟨bp, hbp, rfl⟩ := hw.addToBlockIndex_some h
    refine hw.append ⟨fun {j} hj => ?_, fun hj => by cases hj⟩
    cases hj
    exact ⟨(List.getElem?_eq_some_iff.mp hbp).1, by rw [height_of_getElem? hbp], by
      rw [height_of_getElem? hbp]⟩

/-! ### `LastCommonAncestor` -/

namespace WellFormed

variable (hw : WellFormed t)
include hw

/-- **The lockstep loop finds the last common ancestor.** From two blocks at one height the
loop steps both to their parents until they meet, which they do at the latest at the
genesis, the only block at height `0`; fuel above the height is enough. -/
theorem lastCommonAncestorLoop_spec (fuel : ℕ) :
    ∀ {x y : ℕ}, x < t.length → y < t.length → t.height x = t.height y → t.height x < fuel →
      ∃ c, t.lastCommonAncestorLoop fuel (some x) (some y) = .ok (some c) ∧
        IsLastCommonAncestor t.pprevOf c x y := by
  induction fuel with
  | zero => intro x y _ _ _ h; omega
  | succ fuel ih =>
    intro x y hx hy hh hf
    by_cases hxy : x = y
    · subst hxy
      exact ⟨x, by simp [lastCommonAncestorLoop], isLastCommonAncestor_self x⟩
    · obtain ⟨bx, hbx⟩ := exists_getElem? hx
      obtain ⟨by', hby⟩ := exists_getElem? hy
      -- two distinct blocks at one height are above the genesis, so both have parents
      have hpos : 0 < t.height x := by
        by_contra h0
        exact hxy ((hw.eq_zero_of_height_eq_zero hx (by omega)).trans
          (hw.eq_zero_of_height_eq_zero hy (by omega)).symm)
      obtain ⟨x', hx'⟩ := hw.exists_pprev hbx (by rwa [← height_of_getElem? hbx])
      obtain ⟨y', hy'⟩ := hw.exists_pprev hby (by rw [← height_of_getElem? hby]; omega)
      have hpx : t.pprevOf x = some x' := by rw [pprevOf_of_getElem? hbx, hx']
      have hpy : t.pprevOf y = some y' := by rw [pprevOf_of_getElem? hby, hy']
      have hhx := hw.ranked.par_some hpx
      have hhy := hw.ranked.par_some hpy
      obtain ⟨c, hloop, hc⟩ := ih (lt_trans (hw.pprevOf_lt hpx) hx)
        (lt_trans (hw.pprevOf_lt hpy) hy) (by omega) (by omega)
      refine ⟨c, ?_, hc.of_par hw.ranked hxy hh hpx hpy⟩
      simp only [lastCommonAncestorLoop, if_pos hxy, deref_of_getElem? hbx,
        deref_of_getElem? hby, Except.ok_bind, hx', hy']
      exact hloop

/-- **`LastCommonAncestor` returns the last common ancestor** of two blocks of the tree: a
common ancestor-or-self of both, of which every common ancestor is an ancestor (so none is
higher). -/
theorem lastCommonAncestor_spec {pa pb : ℕ} (ha : pa < t.length) (hb : pb < t.length) :
    ∃ c, t.lastCommonAncestor pa pb = .ok (some c) ∧ IsLastCommonAncestor t.pprevOf c pa pb := by
  obtain ⟨a, hba⟩ := exists_getElem? ha
  obtain ⟨b, hbb⟩ := exists_getElem? hb
  have hha := height_of_getElem? hba
  have hhb := height_of_getElem? hbb
  -- the arena's size is fuel enough for the loop: heights are below positions
  have hfa := lt_of_le_of_lt (hw.height_le_self pa) ha
  have hfb := lt_of_le_of_lt (hw.height_le_self pb) hb
  unfold lastCommonAncestor
  rw [deref_of_getElem? hba, deref_of_getElem? hbb, Except.ok_bind, Except.ok_bind]
  by_cases hab : a.nHeight > b.nHeight
  · -- bring `pa` down to the height of `pb`
    obtain ⟨a', ha', ha'l, hha', hget⟩ := hw.getAncestor_of_le (h := b.nHeight) ha (by omega)
    obtain ⟨c, hloop, hc⟩ :=
      hw.lastCommonAncestorLoop_spec t.length ha'l hb (by omega) (by omega)
    refine ⟨c, ?_, hc.of_ancestor_left hw.ranked ⟨_, ha'⟩ (by omega)⟩
    rw [if_pos hab, hget]
    exact hloop
  · by_cases hba' : b.nHeight > a.nHeight
    · -- bring `pb` down to the height of `pa`
      obtain ⟨b', hb', hb'l, hhb', hget⟩ := hw.getAncestor_of_le (h := a.nHeight) hb (by omega)
      obtain ⟨c, hloop, hc⟩ :=
        hw.lastCommonAncestorLoop_spec t.length ha hb'l (by omega) (by omega)
      refine ⟨c, ?_, (hc.symm.of_ancestor_left hw.ranked ⟨_, hb'⟩ (by omega)).symm⟩
      rw [if_neg hab, if_pos hba', hget]
      exact hloop
    · -- already at one height
      obtain ⟨c, hloop, hc⟩ :=
        hw.lastCommonAncestorLoop_spec t.length ha hb (by omega) (by omega)
      refine ⟨c, ?_, hc⟩
      rw [if_neg hab, if_neg hba']
      exact hloop

end WellFormed

/-! ### Trees built from genesis -/

/-- The block trees `AddToBlockIndex` builds from the empty tree: a header whose
predecessor is not found is only accepted first, as the genesis. -/
inductive Reachable : BlockTree → Prop
  | nil : Reachable []
  | add {t t' : BlockTree} {nTime nBits : UInt32} {miPrev : Option ℕ} :
      Reachable t → (miPrev = none → t = []) → t.addToBlockIndex nTime nBits miPrev = .ok t' →
      Reachable t'

theorem Reachable.wellFormed (ht : Reachable t) : WellFormed t := by
  induction ht with
  | nil => exact wellFormed_nil
  | add _ hprev h ih => exact ih.addToBlockIndex hprev h

/-- The ancestor queries of a block tree answer what the parent links say. -/
structure AncestorQueriesSpec (t : BlockTree) : Prop where
  getAncestor_some : ∀ b < t.length, ∀ h : ℤ, 0 ≤ h → h ≤ t.height b →
    ∃ c, up t.pprevOf (t.height b - h.toNat) b = some c ∧ t.getAncestor b h = .ok (some c)
  getAncestor_none : ∀ b < t.length, ∀ h : ℤ, h < 0 ∨ t.height b < h →
    t.getAncestor b h = .ok none
  lastCommonAncestor : ∀ a < t.length, ∀ b < t.length,
    ∃ c, t.lastCommonAncestor a b = .ok (some c) ∧ IsLastCommonAncestor t.pprevOf c a b

/-- **The skip list is exact on every tree the node builds.** `GetAncestor(h)` follows
`pprev` `nHeight - h` times for `0 ≤ h ≤ nHeight` without tripping its `assert`, is `nullptr`
otherwise, and `LastCommonAncestor` returns the last common ancestor. -/
theorem Reachable.getAncestor_lastCommonAncestor_spec (ht : Reachable t) :
    AncestorQueriesSpec t := by
  have hw := ht.wellFormed
  refine ⟨fun b hb h h0 hh => ?_, fun b hb h hout => ?_, fun a ha b hb => ?_⟩
  · obtain ⟨c, hc⟩ := up_isSome hw.ranked (k := t.height b - h.toNat) (x := b) (by omega)
    refine ⟨c, hc, ?_⟩
    rw [hw.getAncestor_eq hb, if_pos ⟨h0, hh⟩, hc]
  · rw [hw.getAncestor_eq hb, if_neg (by omega)]
  · exact hw.lastCommonAncestor_spec ha hb

/-- A genesis block and one child, built by two calls of `AddToBlockIndex`: the child's skip
pointer is the genesis. -/
theorem reachable_twoBlocks : Reachable [⟨none, none, 0, 0, 0⟩, ⟨some 0, some 0, 1, 0, 0⟩] := by
  have hg : Reachable [⟨none, none, 0, 0, 0⟩] :=
    @Reachable.add [] _ 0 0 none Reachable.nil (fun _ => rfl) rfl
  refine @Reachable.add _ _ 0 0 (some 0) hg (fun h => by cases h) ?_
  simp only [addToBlockIndex, buildSkip, getAncestor, deref, List.getElem?_cons_zero,
    Except.pure_eq_ok, Except.ok_bind]
  rw [getAncestorWalk]
  rfl

theorem getAncestor_lastCommonAncestor_spec_twoBlocks :
    Reachable [⟨none, none, 0, 0, 0⟩, ⟨some 0, some 0, 1, 0, 0⟩] ∧
      AncestorQueriesSpec [⟨none, none, 0, 0, 0⟩, ⟨some 0, some 0, 1, 0, 0⟩] :=
  ⟨reachable_twoBlocks, Reachable.getAncestor_lastCommonAncestor_spec reachable_twoBlocks⟩

/-! ### Chains without forks -/

/-- The block at height `n` of a chain without forks: its parent is the block below, and its
skip pointer the block at the skip height, as `BuildSkip` sets it. -/
def linearBlock (nTime : ℕ → UInt32) (nBits : UInt32) (n : ℕ) : CBlockIndex :=
  ⟨if n = 0 then none else some (n - 1), if n = 0 then none else some (getSkipHeight n), n,
    nTime n, nBits⟩

/-- The tree of a chain of `n` blocks without forks, the block of height `i` at position `i`. -/
def linearTree (nTime : ℕ → UInt32) (nBits : UInt32) (n : ℕ) : BlockTree :=
  (List.range n).map (linearBlock nTime nBits)

section Linear

variable (nTime : ℕ → UInt32) (nBits : UInt32)

theorem linearTree_succ (n : ℕ) :
    linearTree nTime nBits (n + 1) = linearTree nTime nBits n ++ [linearBlock nTime nBits n] := by
  rw [linearTree, List.range_succ, List.map_append, List.map_singleton, ← linearTree]

theorem length_linearTree (n : ℕ) : (linearTree nTime nBits n).length = n := by
  rw [linearTree, List.length_map, List.length_range]

theorem getElem?_linearTree {n i : ℕ} (hi : i < n) :
    (linearTree nTime nBits n)[i]? = some (linearBlock nTime nBits i) := by
  rw [linearTree, List.getElem?_map, List.getElem?_range hi, Option.map_some]

/-- Walking `k` links up from the block of height `i` reaches the block of height `i - k`. -/
theorem up_linearTree {n : ℕ} : ∀ {k i : ℕ}, k ≤ i → i < n →
    up (linearTree nTime nBits n).pprevOf k i = some (i - k)
  | 0, i, _, _ => by rw [up_zero, Nat.sub_zero]
  | k + 1, i, hk, hi => by
    have hpar : (linearTree nTime nBits n).pprevOf i = some (i - 1) := by
      rw [pprevOf_of_getElem? (getElem?_linearTree nTime nBits hi), linearBlock, if_neg (by omega)]
    rw [up_succ, hpar, Option.bind_some, up_linearTree (by omega) (by omega)]
    congr 1
    omega

/-- A chain without forks is a tree `AddToBlockIndex` and `BuildSkip` could have built. -/
theorem linearTree_wellFormed : ∀ n, (linearTree nTime nBits n).WellFormed
  | 0 => wellFormed_nil
  | n + 1 => by
    rw [linearTree_succ]
    refine (linearTree_wellFormed n).append ⟨fun {j} hj => ?_, fun hj => ?_⟩
    · -- the new block's parent is the top of the chain, one height down
      have hn : n ≠ 0 := fun h => by simp [linearBlock, h] at hj
      have hj' : j = n - 1 := by
        simp only [linearBlock, if_neg hn, Option.some.injEq] at hj
        exact hj.symm
      subst hj'
      have hlt : n - 1 < n := by omega
      have hsk := getSkipHeight_lt (Nat.pos_of_ne_zero hn)
      rw [height_of_getElem? (getElem?_linearTree nTime nBits hlt), length_linearTree]
      refine ⟨hlt, by simp only [linearBlock]; omega, ?_⟩
      simp only [linearBlock, if_neg hn]
      rw [up_linearTree nTime nBits (by omega) hlt]
      congr 1
      omega
    · -- only the genesis has no parent
      have hn : n = 0 := by
        by_contra hn
        simp [linearBlock, hn] at hj
      subst hn
      exact ⟨rfl, rfl⟩

end Linear

end BlockTree

end Tenscoin
