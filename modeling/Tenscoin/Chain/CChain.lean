import Mathlib
import Tenscoin.Chain.Skiplist

/-!
# The active chain

`CChain` (`chain.h`) keeps the blocks of one chain as a vector indexed by height, pointers into
the block tree, `nullptr` for a missing entry. `CChain::SetTip` resizes the vector to the new
tip's height and walks back from the tip, writing each block at its height, and it stops at the
first height whose entry is already the block it would write. `CChain::FindFork` brings a block
down to the chain's height and walks back until the chain contains it.

The stop of `SetTip` is sound because the old vector was itself a chain of the tree
(`CChain.Consistent`): below an entry that is already right, every entry is its ancestor at that
height (`CChain.Consistent.getElem?_eq_up`). The loop invariant (`CChain.setTipLoop_spec`) is
that the entries above the current block are the tip's ancestors and those below are the
resized old vector; after it the vector is exactly the tip's ancestor chain. Both loops run on
fuel, the size of the arena, which is enough: every round moves to a lower height.

`FindFork` then returns the highest ancestor of its argument that the chain contains
(`CChain.findFork_spec`): every ancestor above the chain's height is not in it, and on the
way down the first contained one is the highest (`CChain.findForkLoop_spec`). The walk ends
there at the latest at the genesis, which every chain of a well-formed tree starts with
(`CChain.contains_of_height_eq_zero`).
-/

namespace Tenscoin

open Forest BlockTree

/-- `CChain`: the entries of `vChain`, positions in the block tree or `nullptr`. -/
structure CChain where
  vChain : List (Option ℕ)
  deriving DecidableEq, Repr

/-- `std::vector::resize`: keep the first `n` entries and append `nullptr`s up to `n`. -/
def resize (v : List (Option ℕ)) (n : ℕ) : List (Option ℕ) :=
  v.take n ++ List.replicate (n - v.length) none

namespace CChain

variable (t : BlockTree) (c : CChain)

/-- `CChain::Height`: `-1` for the empty chain. -/
def height : ℤ :=
  c.vChain.length - 1

/-- `CChain::operator[]`: `nullptr` off `0 .. Height()`. -/
def get (nHeight : ℤ) : Option ℕ :=
  if nHeight < 0 ∨ nHeight ≥ c.vChain.length then none
  else (c.vChain[nHeight.toNat]?).join

/-- `CChain::Genesis`. -/
def genesis : Option ℕ :=
  if c.vChain.length > 0 then (c.vChain[0]?).join else none

/-- `CChain::Tip`. -/
def tip : Option ℕ :=
  if c.vChain.length > 0 then (c.vChain[c.vChain.length - 1]?).join else none

/-- `CChain::Contains`: the entry at the block's height is the block. -/
def contains (pindex : ℕ) : Except String Bool := do
  let b ← t.deref pindex
  pure (c.get b.nHeight == some pindex)

/-- `CChain::Next`: the entry above a block of the chain. -/
def next (pindex : ℕ) : Except String (Option ℕ) := do
  let b ← t.deref pindex
  if ← c.contains t pindex then pure (c.get (b.nHeight + 1)) else pure none

/-- The loop of `CChain::SetTip`: write `pindex` at its height and step to `pprev`, until the
entry is already `pindex` or the genesis has been written. Writing past the end of the vector
is an error here, undefined behaviour in the source. -/
def setTipLoop : ℕ → List (Option ℕ) → Option ℕ → Except String (List (Option ℕ))
  | _, vChain, none => pure vChain
  | 0, _, some _ => throw "SetTip: out of fuel"
  | fuel + 1, vChain, some pindex => do
    let b ← t.deref pindex
    match vChain[b.nHeight]? with
    | none => throw "vChain index out of range"
    | some entry =>
      if entry ≠ some pindex then
        setTipLoop fuel (vChain.set b.nHeight (some pindex)) b.pprev
      else pure vChain

/-- `CChain::SetTip`. -/
def setTip (block : ℕ) : Except String CChain := do
  let b ← t.deref block
  let vChain ← setTipLoop t t.length (resize c.vChain (b.nHeight + 1)) (some block)
  pure ⟨vChain⟩

/-- The loop of `CChain::FindFork`: step to `pprev` until the chain contains the block. -/
def findForkLoop : ℕ → Option ℕ → Except String (Option ℕ)
  | _, none => pure none
  | 0, some _ => throw "FindFork: out of fuel"
  | fuel + 1, some pindex => do
    let contained ← c.contains t pindex
    if contained then pure (some pindex)
    else do
      let b ← t.deref pindex
      findForkLoop fuel b.pprev

/-- `CChain::FindFork`. -/
def findFork (pindex : Option ℕ) : Except String (Option ℕ) :=
  match pindex with
  | none => pure none
  | some p => do
    let b ← t.deref p
    let pindex ← if b.nHeight > c.height then t.getAncestor p c.height else pure (some p)
    findForkLoop t c t.length pindex

/-! ### Reading the vector -/

theorem get_ofNat (h : ℕ) : c.get h = (c.vChain[h]?).join := by
  unfold get
  split_ifs with hout
  · rcases hout with hneg | hge
    · omega
    · rw [List.getElem?_eq_none (by omega)]
      rfl
  · rfl

variable {t c}

theorem contains_eq {a : ℕ} (ha : a < t.length) :
    c.contains t a = .ok (decide (c.vChain[t.height a]? = some (some a))) := by
  obtain ⟨b, hb⟩ := exists_getElem? ha
  unfold contains
  rw [deref_of_getElem? hb, Except.ok_bind, ← height_of_getElem? hb, get_ofNat]
  congr 1
  rcases c.vChain[t.height a]? with _ | _ | e
  · simp
  · simp
  · by_cases h : e = a <;> simp [h]

theorem getElem?_resize (v : List (Option ℕ)) {n i : ℕ} (hi : i < n) :
    (resize v n)[i]? = some (v[i]?.join) := by
  unfold resize
  rcases Nat.lt_or_ge i v.length with h | h
  · rw [List.getElem?_append_left (by rw [List.length_take]; omega), List.getElem?_take,
      if_pos hi, List.getElem?_eq_getElem h]
    rfl
  · rw [List.getElem?_append_right (by rw [List.length_take]; omega), List.getElem?_replicate,
      if_pos (by rw [List.length_take]; omega), List.getElem?_eq_none h]
    rfl

theorem length_resize (v : List (Option ℕ)) (n : ℕ) : (resize v n).length = n := by
  unfold resize
  rw [List.length_append, List.length_take, List.length_replicate]
  omega

/-! ### Chains of the tree -/

/-- `vChain` is a chain of the tree: each entry is a block at its own height, and each entry's
`pprev` is the entry below it. -/
structure Consistent (t : BlockTree) (v : List (Option ℕ)) : Prop where
  entry : ∀ h < v.length, ∃ p, v[h]? = some (some p) ∧ p < t.length ∧ t.height p = h
  link : ∀ h p, v[h + 1]? = some (some p) → t.pprevOf p = (v[h]?).join

theorem consistent_nil : Consistent t [] :=
  ⟨fun _ h => absurd h (Nat.not_lt_zero _), fun _ _ h => by simp at h⟩

/-- **Below an entry, a chain of the tree is that entry's ancestors.** -/
theorem Consistent.getElem?_eq_up {v : List (Option ℕ)} (hc : Consistent t v) {k q : ℕ}
    (hk : v[k]? = some (some q)) : ∀ d ≤ k, v[k - d]? = some (up t.pprevOf d q)
  | 0, _ => by rw [Nat.sub_zero, hk, up_zero]
  | d + 1, hd => by
    have hlen := (List.getElem?_eq_some_iff.mp hk).1
    obtain ⟨p', hp', -, -⟩ := hc.entry (k - d) (by omega)
    obtain ⟨p, hp, -, -⟩ := hc.entry (k - (d + 1)) (by omega)
    -- the entry `d` below `k` is the walk of `d` links, and its `pprev` is the next entry down
    have hup : up t.pprevOf d q = some p' := by
      have := hc.getElem?_eq_up hk d (by omega)
      rw [hp'] at this
      exact (Option.some.inj this).symm
    have hlink := hc.link (k - (d + 1)) p' (by rw [show k - (d + 1) + 1 = k - d by omega]; exact hp')
    rw [hp, Option.join_some] at hlink
    rw [hp, up_add t.pprevOf d 1, hup, Option.bind_some, up_succ, hlink, Option.bind_some, up_zero]

section Ancestors

variable (hw : t.WellFormed) {b : ℕ} (hb : b < t.length)
include hw hb

/-- A vector holding the ancestors of `b` at each height up to its own is a chain of the
tree. -/
theorem consistent_of_ancestors {w : List (Option ℕ)} (hlen : w.length = t.height b + 1)
    (hw' : ∀ i ≤ t.height b, w[i]? = some (up t.pprevOf (t.height b - i) b)) :
    Consistent t w where
  entry h hh := by
    obtain ⟨p, hp⟩ := up_isSome hw.ranked (k := t.height b - h) (x := b) (by omega)
    refine ⟨p, by rw [hw' h (by omega), hp], hw.up_lt_length hb hp, ?_⟩
    have := ht_up hw.ranked hp
    omega
  link h p hp := by
    have hh : h + 1 ≤ t.height b := by
      have := (List.getElem?_eq_some_iff.mp hp).1
      omega
    rw [hw' (h + 1) hh, Option.some.injEq] at hp
    rw [hw' h (by omega), Option.join_some,
      show t.height b - h = (t.height b - (h + 1)) + 1 by omega, up_add, hp, Option.bind_some,
      up_succ]
    cases t.pprevOf p <;> rfl

/-- **The loop of `SetTip`.** At the tip's ancestor `q` at height `k`, with the entries above
`k` already the tip's ancestors and those up to `k` still the resized old chain, the loop ends
with every entry the tip's ancestor. It writes and steps down while the entry differs; where
it finds the entry already right, the old chain below it is that block's ancestors. -/
theorem setTipLoop_spec {v : List (Option ℕ)} (hc : Consistent t v) :
    ∀ (fuel : ℕ) (w : List (Option ℕ)) (k q : ℕ),
      up t.pprevOf (t.height b - k) b = some q → k ≤ t.height b → k < fuel →
      w.length = t.height b + 1 →
      (∀ i, k < i → i ≤ t.height b → w[i]? = some (up t.pprevOf (t.height b - i) b)) →
      (∀ i ≤ k, w[i]? = (resize v (t.height b + 1))[i]?) →
      ∃ w', setTipLoop t fuel w (some q) = .ok w' ∧ w'.length = t.height b + 1 ∧
        ∀ i ≤ t.height b, w'[i]? = some (up t.pprevOf (t.height b - i) b)
  | 0, _, _, _, _, _, hfuel, _, _, _ => absurd hfuel (Nat.not_lt_zero _)
  | fuel + 1, w, k, q, hq, hk, hfuel, hlen, habove, hbelow => by
    have hqlt := hw.up_lt_length hb hq
    have hqh : t.height q = k := by
      have := ht_up hw.ranked hq
      omega
    obtain ⟨bq, hbq⟩ := exists_getElem? hqlt
    have hnh : bq.nHeight = k := by rw [← height_of_getElem? hbq, hqh]
    have hwk : w[k]? = some (v[k]?.join) := by
      rw [hbelow k le_rfl, getElem?_resize _ (by omega)]
    unfold setTipLoop
    rw [deref_of_getElem? hbq, Except.ok_bind, hnh, hwk]
    dsimp only
    by_cases hne : v[k]?.join ≠ some q
    · -- write `q` at `k` and step to its parent
      rw [if_pos hne]
      set w₁ := w.set k (some q)
      have hlen₁ : w₁.length = t.height b + 1 := by rw [List.length_set, hlen]
      have hw₁k : w₁[k]? = some (some q) := by
        rw [List.getElem?_set, if_pos rfl, if_pos (by omega)]
      have hw₁ : ∀ i, i ≠ k → w₁[i]? = w[i]? := fun i hi => by
        rw [List.getElem?_set, if_neg (Ne.symm hi)]
      -- the entries from `k` up are now the tip's ancestors
      have habove₁ : ∀ i, k ≤ i → i ≤ t.height b →
          w₁[i]? = some (up t.pprevOf (t.height b - i) b) := fun i hki hi => by
        rcases Nat.eq_or_lt_of_le hki with rfl | hlt
        · rw [hw₁k, hq]
        · rw [hw₁ i (by omega), habove i hlt hi]
      cases hpp : bq.pprev with
      | none =>
        -- the genesis: every entry is written
        obtain ⟨-, h0⟩ := hw.genesis hbq hpp
        refine ⟨w₁, by cases fuel <;> rfl, hlen₁, fun i hi => habove₁ i (by omega) hi⟩
      | some q' =>
        have hh' := hw.nHeight_pprev hbq hpp
        have hq' : up t.pprevOf (t.height b - (k - 1)) b = some q' := by
          rw [show t.height b - (k - 1) = (t.height b - k) + 1 by omega, up_add, hq,
            Option.bind_some, up_succ, pprevOf_of_getElem? hbq, hpp, Option.bind_some, up_zero]
        exact setTipLoop_spec hc fuel w₁ (k - 1) q' hq' (by omega) (by omega) hlen₁
          (fun i hki hi => habove₁ i (by omega) hi)
          (fun i hi => by rw [hw₁ i (by omega), hbelow i (by omega)])
    · -- the entry is already `q`: the old chain below it is `q`'s ancestors
      rw [if_neg hne]
      rw [not_not, Option.join_eq_some_iff] at hne
      refine ⟨w, rfl, hlen, fun i hi => ?_⟩
      rcases Nat.lt_or_ge k i with hki | hik
      · exact habove i hki hi
      · have hv := hc.getElem?_eq_up hne (k - i) (by omega)
        rw [show k - (k - i) = i by omega] at hv
        rw [hbelow i hik, getElem?_resize _ (by omega), hv, Option.join_some,
          show t.height b - i = (t.height b - k) + (k - i) by omega, up_add, hq,
          Option.bind_some]

/-- **`SetTip` makes the chain the ancestors of the new tip**, from any chain of the tree. -/
theorem setTip_spec {c : CChain} (hc : Consistent t c.vChain) :
    ∃ c', c.setTip t b = .ok c' ∧ c'.vChain.length = t.height b + 1 ∧
      ∀ i ≤ t.height b, c'.vChain[i]? = some (up t.pprevOf (t.height b - i) b) := by
  obtain ⟨bb, hbb⟩ := exists_getElem? hb
  have hH : t.height b < t.length := lt_of_le_of_lt (hw.height_le_self b) hb
  obtain ⟨w', hloop, hlen', hw'⟩ := setTipLoop_spec hw hb hc t.length
    (resize c.vChain (t.height b + 1)) (t.height b) b (by rw [Nat.sub_self, up_zero]) le_rfl hH
    (length_resize _ _) (fun i hi hi' => absurd hi' (by omega)) (fun _ _ => rfl)
  refine ⟨⟨w'⟩, ?_, hlen', hw'⟩
  unfold setTip
  rw [deref_of_getElem? hbb, Except.ok_bind, ← height_of_getElem? hbb, hloop, Except.ok_bind]
  rfl

end Ancestors

section Fork

variable (hw : t.WellFormed) {v : List (Option ℕ)} (hc : Consistent t v) (hne : 0 < v.length)
include hw hc hne

/-- A chain of a well-formed tree contains the block at height zero, the genesis. -/
theorem contains_of_height_eq_zero {a : ℕ} (ha : a < t.length) (h0 : t.height a = 0) :
    (CChain.mk v).contains t a = .ok true := by
  obtain ⟨g, hg, hglt, hgh⟩ := hc.entry 0 hne
  rw [hw.eq_zero_of_height_eq_zero hglt hgh] at hg
  rw [contains_eq ha, h0, hw.eq_zero_of_height_eq_zero ha h0, hg, decide_eq_true rfl]

/-- **The loop of `FindFork`** returns the highest ancestor of its start that the chain
contains; it is reached at the latest at the genesis. -/
theorem findForkLoop_spec : ∀ (fuel a₀ : ℕ), a₀ < t.length → t.height a₀ < fuel →
    ∃ a, findForkLoop t ⟨v⟩ fuel (some a₀) = .ok (some a) ∧ IsAncestor t.pprevOf a a₀ ∧
      (CChain.mk v).contains t a = .ok true ∧
      ∀ a', IsAncestor t.pprevOf a' a₀ → (CChain.mk v).contains t a' = .ok true →
        t.height a' ≤ t.height a
  | 0, _, _, hf => absurd hf (Nat.not_lt_zero _)
  | fuel + 1, a₀, ha, hf => by
    unfold findForkLoop
    rw [contains_eq ha, Except.ok_bind]
    by_cases hin : v[t.height a₀]? = some (some a₀)
    · -- contained: every ancestor is lower
      rw [decide_eq_true hin, if_pos rfl]
      exact ⟨a₀, rfl, isAncestor_self a₀, by rw [contains_eq ha, decide_eq_true hin],
        fun a' ha' _ => ha'.ht_le hw.ranked⟩
    · -- not contained, so not the genesis: the answer is the parent's
      rw [decide_eq_false hin, if_neg Bool.false_ne_true]
      obtain ⟨b₀, hb₀⟩ := exists_getElem? ha
      have hpos : 0 < b₀.nHeight := by
        rw [← height_of_getElem? hb₀]
        refine Nat.pos_of_ne_zero (fun h0 => hin ?_)
        have h := contains_of_height_eq_zero hw hc hne ha h0
        rw [contains_eq ha, Except.ok.injEq] at h
        exact of_decide_eq_true h
      obtain ⟨a₁, hpp⟩ := hw.exists_pprev hb₀ hpos
      have hpar : t.pprevOf a₀ = some a₁ := by rw [pprevOf_of_getElem? hb₀, hpp]
      have ha₁ : a₁ < t.length := lt_trans (hw.pprevOf_lt hpar) ha
      have hh₁ := hw.ranked.par_some hpar
      obtain ⟨a, hrun, hanc, hcont, hmax⟩ := findForkLoop_spec fuel a₁ ha₁ (by omega)
      rw [deref_of_getElem? hb₀, Except.ok_bind, hpp]
      refine ⟨a, hrun, hanc.of_par hpar, hcont, fun a' ha' hc' => ?_⟩
      have hne' : a' ≠ a₀ := fun h => by
        rw [h, contains_eq ha, Except.ok.injEq] at hc'
        exact hin (of_decide_eq_true hc')
      exact hmax a' (ha'.par_of_ne hne' hpar) hc'

/-- **`FindFork` returns the highest ancestor of a block that the chain contains.** -/
theorem findFork_spec {p : ℕ} (hp : p < t.length) :
    ∃ a, (CChain.mk v).findFork t (some p) = .ok (some a) ∧ IsAncestor t.pprevOf a p ∧
      (CChain.mk v).contains t a = .ok true ∧
      ∀ a', IsAncestor t.pprevOf a' p → (CChain.mk v).contains t a' = .ok true →
        t.height a' ≤ t.height a := by
  obtain ⟨bp, hbp⟩ := exists_getElem? hp
  have hH : (CChain.mk v).height = ((v.length - 1 : ℕ) : ℤ) := by
    show (v.length : ℤ) - 1 = _
    omega
  -- the walk starts at `p`, or at its ancestor at the chain's height
  obtain ⟨a₀, hstart, ha₀, hanc₀, hh₀⟩ : ∃ a₀,
      (CChain.mk v).findFork t (some p) = findForkLoop t ⟨v⟩ t.length (some a₀) ∧
      a₀ < t.length ∧ IsAncestor t.pprevOf a₀ p ∧
      t.height a₀ = min (t.height p) (v.length - 1) := by
    dsimp only [findFork]
    rw [deref_of_getElem? hbp, Except.ok_bind, hH, ← height_of_getElem? hbp]
    split_ifs with hgt
    · obtain ⟨a₀, hup, ha₀, hh, hget⟩ := hw.getAncestor_of_le hp (h := v.length - 1) (by omega)
      exact ⟨a₀, by rw [hget, Except.ok_bind], ha₀, ⟨_, hup⟩, by omega⟩
    · exact ⟨p, rfl, hp, isAncestor_self p, by omega⟩
  obtain ⟨a, hrun, hanc, hcont, hmax⟩ := findForkLoop_spec hw hc hne t.length a₀ ha₀
    (lt_of_le_of_lt (hw.height_le_self a₀) ha₀)
  refine ⟨a, hstart.trans hrun, hanc.trans hanc₀, hcont, fun a' ha' hc' => ?_⟩
  · -- a contained block lies within the chain's height, so it is an ancestor of the start
    obtain ⟨k, hk⟩ := ha'
    have ha'lt := hw.up_lt_length hp hk
    have hlt : t.height a' < v.length := by
      rw [contains_eq ha'lt, Except.ok.injEq] at hc'
      exact (List.getElem?_eq_some_iff.mp (of_decide_eq_true hc')).1
    have hle := (IsAncestor.ht_le hw.ranked ⟨k, hk⟩ : t.height a' ≤ t.height p)
    exact hmax a' (IsAncestor.of_ht_le hw.ranked ⟨k, hk⟩ hanc₀ (by omega)) hc'

end Fork

/-- **`SetTip` makes the chain the ancestors of the new tip, and `FindFork` then finds the
fork.** From any consistent chain, `SetTip(b)` leaves a consistent chain of height
`b.nHeight` whose entry at every height is `b.GetAncestor` of it, although its walk back stops
at the first entry that is already right; on that chain `FindFork(p)` returns the highest
ancestor of `p` that `Contains` reports. -/
theorem setTip_findFork (hw : t.WellFormed) {c : CChain} (hc : Consistent t c.vChain) {b : ℕ}
    (hb : b < t.length) :
    ∃ c', c.setTip t b = .ok c' ∧ Consistent t c'.vChain ∧ c'.height = t.height b ∧
      (∀ h : ℕ, h ≤ t.height b → t.getAncestor b h = .ok (c'.get h)) ∧
      ∀ p < t.length, ∃ a, c'.findFork t (some p) = .ok (some a) ∧ IsAncestor t.pprevOf a p ∧
        c'.contains t a = .ok true ∧
        ∀ a', IsAncestor t.pprevOf a' p → c'.contains t a' = .ok true →
          t.height a' ≤ t.height a := by
  obtain ⟨c', hset, hlen, hanc⟩ := setTip_spec hw hb hc
  have hc' := consistent_of_ancestors hw hb hlen hanc
  have hheight : c'.height = t.height b := by
    unfold height
    omega
  refine ⟨c', hset, hc', hheight, fun h hh => ?_,
    fun p hp => findFork_spec hw hc' (by omega) hp⟩
  rw [hw.getAncestor_eq hb, if_pos (by omega), Int.toNat_natCast, get_ofNat, hanc h hh,
    Option.join_some]

/-- A fork at height two: the chain of blocks `0, 1, 2`, and a second child `3` of block `1`. -/
def forkTree : BlockTree :=
  linearTree (fun _ => 0) 0 3 ++ [⟨some 1, some 0, 2, 0, 0⟩]

theorem forkTree_wellFormed : forkTree.WellFormed := by
  refine (linearTree_wellFormed (fun _ => 0) 0 3).append ⟨fun {j} hj => ?_, fun hj => by cases hj⟩
  -- the fork's parent is block `1`, and its skip pointer the genesis
  cases hj
  have h1 := getElem?_linearTree (fun _ => 0) 0 (show 1 < 3 by decide)
  rw [length_linearTree, height_of_getElem? h1,
    up_linearTree (fun _ => 0) 0 (by decide) (by decide)]
  exact ⟨by decide, rfl, rfl⟩

theorem forkTree_consistent : Consistent forkTree [some 0, some 1, some 2] :=
  consistent_of_ancestors forkTree_wellFormed (b := 2) (by decide) (by decide) (by decide)

/-- On `forkTree`, the chain `0, 1, 2` is switched to the tip `3`: `SetTip` writes `3` and stops at
`1`, which is already right, and `FindFork(2)` walks down from `2` to `1`. -/
theorem setTip_findFork_fork :
    forkTree.WellFormed ∧ Consistent forkTree [some 0, some 1, some 2] ∧ 3 < forkTree.length ∧
      (∃ c', (CChain.mk [some 0, some 1, some 2]).setTip forkTree 3 = .ok c' ∧
        Consistent forkTree c'.vChain ∧ c'.height = forkTree.height 3 ∧
        (∀ h : ℕ, h ≤ forkTree.height 3 → forkTree.getAncestor 3 h = .ok (c'.get h)) ∧
        ∀ p < forkTree.length, ∃ a, c'.findFork forkTree (some p) = .ok (some a) ∧
          IsAncestor forkTree.pprevOf a p ∧ c'.contains forkTree a = .ok true ∧
          ∀ a', IsAncestor forkTree.pprevOf a' p → c'.contains forkTree a' = .ok true →
            forkTree.height a' ≤ forkTree.height a) ∧
      (CChain.mk [some 0, some 1, some 2]).setTip forkTree 3 = .ok ⟨[some 0, some 1, some 3]⟩ ∧
      (CChain.mk [some 0, some 1, some 3]).findFork forkTree (some 2) = .ok (some 1) :=
  ⟨forkTree_wellFormed, forkTree_consistent, by decide,
    setTip_findFork forkTree_wellFormed forkTree_consistent (by decide), rfl, rfl⟩

end CChain

end Tenscoin
