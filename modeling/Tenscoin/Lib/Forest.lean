import Mathlib

/-!
# Parent-pointer forests

A forest is given by a partial parent function `par : α → Option α`: a node without a parent
is a root. This file collects what the block tree's ancestor queries need of such a forest.

* `Forest.up par k x` follows the parent link `k` times, and is `none` once a root has been
  passed. Walks compose additively (`Forest.up_add`).
* `Forest.IsAncestor par c x`: `c` is reached from `x` by some number of parent links
  (`x` itself included).
* `Forest.Ranked par ht`: the rank `ht` drops by exactly one along each link and is zero at
  the roots, i.e. it is the depth. Under it the ancestors of a node form a chain indexed by
  their rank: the walk of length `k` exists as long as `k` is at most the rank
  (`Forest.up_isSome`), an ancestor of the same rank is the node itself
  (`Forest.IsAncestor.eq_of_ht_eq`), and of two ancestors of one node the lower is an ancestor
  of the higher (`Forest.IsAncestor.of_ht_le`).
* `Forest.IsLastCommonAncestor par c x y`: `c` is a common ancestor of `x` and `y` of which
  every common ancestor is an ancestor. Two rules carry it back from where a search finds it:
  over one parent link from two distinct nodes of equal rank
  (`Forest.IsLastCommonAncestor.of_par`), and from the ancestor of `x` at the rank of `y` to
  `x` itself (`Forest.IsLastCommonAncestor.of_ancestor_left`).
-/

namespace Forest

variable {α : Type*} (par : α → Option α)

/-- Follow the parent link `k` times. -/
def up : ℕ → α → Option α
  | 0, x => some x
  | k + 1, x => (par x).bind (up k)

@[simp] theorem up_zero (x : α) : up par 0 x = some x := rfl

theorem up_succ (k : ℕ) (x : α) : up par (k + 1) x = (par x).bind (up par k) := rfl

/-- A walk of `j + k` links is a walk of `j` links followed by one of `k`. -/
theorem up_add (j k : ℕ) (x : α) : up par (j + k) x = (up par j x).bind (up par k) := by
  induction j generalizing x with
  | zero => simp
  | succ j ih =>
    rw [show j + 1 + k = (j + k) + 1 by omega, up_succ, up_succ, Option.bind_assoc]
    exact congrArg (Option.bind (par x)) (funext ih)

/-- A walk that passes through `y` continues from there. -/
theorem up_of_up_le {j k : ℕ} {x y : α} (h : up par j x = some y) (hjk : j ≤ k) :
    up par k x = up par (k - j) y := by
  obtain ⟨d, rfl⟩ := Nat.exists_eq_add_of_le hjk
  rw [up_add, h, Option.bind_some, Nat.add_sub_cancel_left]

/-- `c` is an ancestor of `x`, or `x` itself. -/
def IsAncestor (c x : α) : Prop :=
  ∃ k, up par k x = some c

variable {par} {c x y a : α}

theorem isAncestor_self (x : α) : IsAncestor par x x :=
  ⟨0, rfl⟩

theorem IsAncestor.trans (hca : IsAncestor par c a) (hax : IsAncestor par a x) :
    IsAncestor par c x := by
  obtain ⟨j, hj⟩ := hax
  obtain ⟨k, hk⟩ := hca
  exact ⟨j + k, by rw [up_add, hj, Option.bind_some, hk]⟩

/-- An ancestor of the parent is an ancestor. -/
theorem IsAncestor.of_par (hp : par x = some y) (hc : IsAncestor par c y) :
    IsAncestor par c x := by
  obtain ⟨k, hk⟩ := hc
  exact ⟨k + 1, by rw [up_succ, hp, Option.bind_some, hk]⟩

/-- A proper ancestor is an ancestor of the parent. -/
theorem IsAncestor.par_of_ne (hc : IsAncestor par c x) (hne : c ≠ x) (hp : par x = some y) :
    IsAncestor par c y := by
  obtain ⟨k, hk⟩ := hc
  cases k with
  | zero => exact absurd (Option.some_injective _ hk).symm hne
  | succ k =>
    rw [up_succ, hp, Option.bind_some] at hk
    exact ⟨k, hk⟩

/-! ### Ranked forests -/

/-- The rank `ht` is the depth: one less at the parent, zero at a root. -/
structure Ranked (par : α → Option α) (ht : α → ℕ) : Prop where
  par_some : ∀ {x y}, par x = some y → ht x = ht y + 1
  par_none : ∀ {x}, par x = none → ht x = 0

section Ranked

variable {ht : α → ℕ} (hr : Ranked par ht)
include hr

/-- Each link walked lowers the rank by one. -/
theorem ht_up {k : ℕ} : ∀ {x c : α}, up par k x = some c → ht c + k = ht x := by
  induction k with
  | zero =>
    intro x c h
    rw [up_zero, Option.some_inj] at h
    rw [h, Nat.add_zero]
  | succ k ih =>
    intro x c h
    rw [up_succ, Option.bind_eq_some_iff] at h
    obtain ⟨y, hy, hc⟩ := h
    have := hr.par_some hy
    have := ih hc
    omega

/-- A walk no longer than the rank reaches a node. -/
theorem up_isSome {k : ℕ} : ∀ {x : α}, k ≤ ht x → ∃ c, up par k x = some c := by
  induction k with
  | zero => exact fun {x} _ => ⟨x, rfl⟩
  | succ k ih =>
    intro x hk
    -- a node of positive rank is not a root
    cases hp : par x with
    | none => exact absurd (hr.par_none hp) (by omega)
    | some y =>
      have hy := hr.par_some hp
      obtain ⟨c, hc⟩ := ih (x := y) (by omega)
      exact ⟨c, by rw [up_succ, hp, Option.bind_some, hc]⟩

theorem IsAncestor.ht_le (hc : IsAncestor par c x) : ht c ≤ ht x := by
  obtain ⟨k, hk⟩ := hc
  have := ht_up hr hk
  omega

/-- The walk from `x` to an ancestor has the difference of the ranks as its length. -/
theorem IsAncestor.up_eq (hc : IsAncestor par c x) : up par (ht x - ht c) x = some c := by
  obtain ⟨k, hk⟩ := hc
  have := ht_up hr hk
  rwa [show ht x - ht c = k by omega]

theorem IsAncestor.eq_of_ht_eq (hc : IsAncestor par c x) (hh : ht c = ht x) : c = x := by
  have h := hc.up_eq hr
  rw [hh, Nat.sub_self, up_zero] at h
  exact (Option.some_injective _ h).symm

/-- The ancestors of a node form a chain: of two of them, the lower is an ancestor of the
higher. -/
theorem IsAncestor.of_ht_le (hc : IsAncestor par c x) (ha : IsAncestor par a x)
    (h : ht c ≤ ht a) : IsAncestor par c a := by
  obtain ⟨k, hk⟩ := hc
  obtain ⟨j, hj⟩ := ha
  have hck := ht_up hr hk
  have haj := ht_up hr hj
  exact ⟨k - j, by rw [← up_of_up_le par hj (by omega), hk]⟩

end Ranked

/-! ### Last common ancestors -/

/-- `c` is a common ancestor of `x` and `y`, and every common ancestor is an ancestor of `c`. -/
structure IsLastCommonAncestor (par : α → Option α) (c x y : α) : Prop where
  left : IsAncestor par c x
  right : IsAncestor par c y
  greatest : ∀ c', IsAncestor par c' x → IsAncestor par c' y → IsAncestor par c' c

theorem isLastCommonAncestor_self (x : α) : IsLastCommonAncestor par x x x :=
  ⟨isAncestor_self x, isAncestor_self x, fun _ h _ => h⟩

theorem IsLastCommonAncestor.symm (h : IsLastCommonAncestor par c x y) :
    IsLastCommonAncestor par c y x :=
  ⟨h.right, h.left, fun c' hy hx => h.greatest c' hx hy⟩

section Ranked

variable {ht : α → ℕ} (hr : Ranked par ht)
include hr

/-- Of all common ancestors, the last one has the greatest rank. -/
theorem IsLastCommonAncestor.ht_le {c' : α} (h : IsLastCommonAncestor par c x y)
    (hx : IsAncestor par c' x) (hy : IsAncestor par c' y) : ht c' ≤ ht c :=
  (h.greatest c' hx hy).ht_le hr

/-- Two distinct nodes of equal rank have the last common ancestor of their parents. Neither
node is an ancestor of the other, so every common ancestor lies above both parents. -/
theorem IsLastCommonAncestor.of_par {x' y' : α} (hne : x ≠ y) (hh : ht x = ht y)
    (hx : par x = some x') (hy : par y = some y') (h : IsLastCommonAncestor par c x' y') :
    IsLastCommonAncestor par c x y := by
  refine ⟨h.left.of_par hx, h.right.of_par hy, fun c' hcx hcy => ?_⟩
  have hne_x : c' ≠ x := by
    rintro rfl
    exact hne (hcy.eq_of_ht_eq hr hh)
  have hne_y : c' ≠ y := by
    rintro rfl
    exact hne (hcx.eq_of_ht_eq hr hh.symm).symm
  exact h.greatest c' (hcx.par_of_ne hne_x hx) (hcy.par_of_ne hne_y hy)

/-- Lifting `x` to its ancestor at the rank of `y` keeps the last common ancestor: a common
ancestor has rank at most that of `y`, so it lies above the lifted node. -/
theorem IsLastCommonAncestor.of_ancestor_left (ha : IsAncestor par a x) (hh : ht a = ht y)
    (h : IsLastCommonAncestor par c a y) : IsLastCommonAncestor par c x y := by
  refine ⟨h.left.trans ha, h.right, fun c' hcx hcy => ?_⟩
  have hle : ht c' ≤ ht a := hh ▸ hcy.ht_le hr
  exact h.greatest c' (hcx.of_ht_le hr ha hle) hcy

end Ranked

end Forest
