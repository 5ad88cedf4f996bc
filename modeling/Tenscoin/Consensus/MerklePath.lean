import Mathlib
import Tenscoin.Consensus.MerkleTree
import Tenscoin.Lib.Except

/-!
# `MerkleComputation` computes the tree's root and branch

The constant-space `MerkleComputation` against the level-by-level tree of
`Consensus/MerkleTree`, for `n` leaves and the leaf `pos` whose path is asked for.

The leaf loop keeps the invariant `MerklePath.LeafInv`: after `c` leaves, `count = c`; for each
set bit `l` of `c`, `inner[l]` is the last complete node of level `l`, with index
`c / 2^l - 1` (`MerklePath.Frontier`); and the leaf `pos` is either not read yet, or inside
the stored node of level `matchlevel`, with its branch below that level already in the path
(`MerklePath.Pending`). Its inner loop climbs from the new leaf through the levels where the
new count has a zero bit, each time hashing the stored left neighbour in
(`MerklePath.leafClimb_spec`).

The sweep then walks the right edge, one level at a time, with the running hash the last node
of the level (`MerklePath.HeadInv`, `MerklePath.PropInv`): at the head of the outer loop the
level has an odd number of nodes and the last one is paired with itself; in the propagating
loop it has an even number and the last one is hashed with its stored left neighbour. The
counter there stands for the leaf positions the level covers, `⌈n / 2^k⌉ * 2^k`, which
reaches `2^32` at level 31 once there are more than `2^31` leaves: the counter wraps to `0`
and the loop goes on to level 32 (`MerklePath.sweep_spec`).

* `merkleComputation_eq_ok`: for `1 ≤ n ≤ 2^31`, `MerkleComputation` returns the root of the
  tree and the branch of `pos` (empty for a position past the last leaf).
* `computeMerklePath_spec`: for `1 ≤ n ≤ 2^31` and `pos < n`, the path has `⌈log₂ n⌉` entries
  and folds with the leaf to `ComputeMerkleRoot`.
* `computeMerklePath_eq_error`: for more than `2^31` leaves, every path computation shifts
  by 32.
-/

namespace Tenscoin

/-! ### The path bookkeeping -/

section PathStep

variable {α : Type}

@[simp] theorem pathStep_true (x h : α) (matchlevel : ℤ) (level : ℕ) (path : List α) :
    pathStep x h matchlevel level true path = (path ++ [x], true) := rfl

theorem pathStep_false_of_eq (x h : α) {matchlevel : ℤ} {level : ℕ}
    (he : matchlevel = level) (path : List α) :
    pathStep x h matchlevel level false path = (path ++ [h], true) := by
  simp [pathStep, he]

theorem pathStep_false_of_ne (x h : α) {matchlevel : ℤ} {level : ℕ}
    (hne : matchlevel ≠ level) (path : List α) :
    pathStep x h matchlevel level false path = (path, false) := by
  simp [pathStep, hne]

/-- `matchh` is only ever set. -/
theorem eq_false_of_pathStep_snd {x h : α} {matchlevel : ℤ} {level : ℕ} {matchh : Bool}
    {path : List α} (hf : (pathStep x h matchlevel level matchh path).2 = false) :
    matchh = false := by
  cases matchh with
  | false => rfl
  | true => simp at hf

end PathStep

namespace MerklePath

open MerkleTree

variable {α : Type} [DecidableEq α] [Inhabited α] (hash : α → α → α) (leaves : List α)
  (pos : ℕ)

/-! ### The invariants -/

/-- The stored subtree hashes after `c` leaves: for each set bit `l` of `c`, `inner[l]` is the
last complete node of level `l`. -/
def Frontier (c : ℕ) (inner : Vector α 32) : Prop :=
  ∀ l (hl : l < 32), c.testBit l = true → inner[l] = node hash leaves l (c / 2 ^ l - 1)

/-- Where the leaf `pos` is, while the stored nodes are those of `c` leaves and the running
hash is at level `l`: not read yet, or inside the stored node of a level `matchlevel ≥ l`
with the branch below that level recorded. -/
def Pending (c l : ℕ) (matchlevel : ℤ) (path : List α) : Prop :=
  (c ≤ pos ∧ matchlevel = -1 ∧ path = []) ∨
  ∃ l0, l ≤ l0 ∧ l0 < 32 ∧ c.testBit l0 = true ∧ pos / 2 ^ l0 = c / 2 ^ l0 - 1 ∧
    matchlevel = l0 ∧ path = branch hash leaves pos l0

/-- The leaf `pos` is below the running hash, node `idx` of level `l`, and its branch below
`l` is recorded. -/
def Under (l idx : ℕ) (matchh : Bool) (path : List α) : Prop :=
  matchh = true ∧ pos < leaves.length ∧ pos / 2 ^ l = idx ∧ path = branch hash leaves pos l

/-- The invariant of the leaf loop after `c` leaves. -/
structure LeafInv (c : ℕ) (s : MerkleState α) : Prop where
  count : s.count.toNat = c
  frontier : Frontier hash leaves c s.inner
  pending : Pending hash leaves pos c 0 s.matchlevel s.path

omit [DecidableEq α] in
/-- A level where the stored count has no bit leaves `pos` pending above it. -/
theorem Pending.succ {c l : ℕ} {matchlevel : ℤ} {path : List α}
    (hp : Pending hash leaves pos c l matchlevel path) (hb : c.testBit l = false) :
    Pending hash leaves pos c (l + 1) matchlevel path := by
  rcases hp with h | ⟨l0, hl0, hl032, hb0, hi0, hml, hpath⟩
  · exact Or.inl h
  · rcases Nat.eq_or_lt_of_le hl0 with rfl | hlt
    · rw [hb] at hb0
      exact absurd hb0 Bool.false_ne_true
    · exact Or.inr ⟨l0, hlt, hl032, hb0, hi0, hml, hpath⟩

omit [DecidableEq α] in
/-- A level other than `matchlevel` leaves `pos` pending above it. -/
theorem Pending.succ_of_ne {c l : ℕ} {matchlevel : ℤ} {path : List α}
    (hp : Pending hash leaves pos c l matchlevel path) (hne : matchlevel ≠ l) :
    Pending hash leaves pos c (l + 1) matchlevel path := by
  rcases hp with h | ⟨l0, hl0, hl032, hb0, hi0, hml, hpath⟩
  · exact Or.inl h
  · rcases Nat.eq_or_lt_of_le hl0 with rfl | hlt
    · exact absurd hml hne
    · exact Or.inr ⟨l0, hlt, hl032, hb0, hi0, hml, hpath⟩

/-! ### Counting in binary -/

/-- The leaf inside a stored node precedes the count. -/
theorem lt_of_div_eq_pred {c l : ℕ} (hc : c.testBit l = true) (h : pos / 2 ^ l = c / 2 ^ l - 1) :
    pos < c := by
  rw [Bits.testBit_eq_true_iff] at hc
  have hpos : 0 < c / 2 ^ l := Nat.pos_of_ne_zero fun h0 => by rw [h0] at hc; simp at hc
  exact Nat.lt_of_div_lt_div (c := 2 ^ l) (by rw [h]; exact Nat.sub_lt hpos one_pos)

/-- One leaf before a multiple `q * 2^t`, the quotient by `2^t` is `q - 1`. -/
theorem div_two_pow_of_succ_eq {c q t : ℕ} (hq : c + 1 = q * 2 ^ t) (hq0 : 0 < q) :
    c / 2 ^ t = q - 1 := by
  rw [show c = q * 2 ^ t - 1 by omega]
  exact Bits.mul_two_pow_sub_one_div hq0 t

/-- Adding the leaf that makes the count an odd multiple of `2^t` leaves the quotients by the
higher powers unchanged. -/
theorem div_two_pow_succ_eq {c q t : ℕ} (hq : c + 1 = q * 2 ^ t) (hodd : q % 2 = 1) {j : ℕ}
    (hj : t < j) : c / 2 ^ j = (c + 1) / 2 ^ j := by
  have hc := div_two_pow_of_succ_eq hq (show 0 < q by omega)
  have hc1 : (c + 1) / 2 ^ t = q := by rw [hq, Nat.mul_div_cancel _ (Nat.two_pow_pos t)]
  have hsucc : c / 2 ^ (t + 1) = (c + 1) / 2 ^ (t + 1) := by
    rw [Bits.div_two_pow_succ, Bits.div_two_pow_succ, hc, hc1]
    omega
  exact Bits.div_two_pow_eq_of_le hsucc hj

/-- A count `q * 2^l` below `2^32`, with `q > 0`, is read at a level below 32. -/
theorem lt_32_of_eq_mul {count : UInt32} {q l : ℕ} (hq0 : 0 < q) (hq : count.toNat = q * 2 ^ l) :
    l < 32 :=
  Bits.lt_of_mul_two_pow_lt hq0 (hq ▸ count.toNat_lt)

/-- The test `count & (uint32_t{1} << l)` of the loops that climb while the bit is zero, on a
count `q * 2^l`: the bit is set for an odd `q`, and for an even `q` the count is a multiple of
`2^(l+1)`. -/
theorem level_test {count : UInt32} {q l : ℕ} (hq0 : 0 < q) (hq : count.toNat = q * 2 ^ l) :
    l < 32 ∧ ((q % 2 = 1 ∧ ¬count &&& 1 <<< l.toUInt32 = 0) ∨
      (count &&& 1 <<< l.toUInt32 = 0 ∧ q % 2 = 0 ∧ count.toNat = q / 2 * 2 ^ (l + 1))) := by
  have hl := lt_32_of_eq_mul hq0 hq
  refine ⟨hl, ?_⟩
  rw [Bits.and_one_shiftLeft_eq_zero_iff _ hl, hq, Bits.testBit_mul_two_pow_self]
  rcases Nat.mod_two_eq_zero_or_one q with h0 | h1
  · exact Or.inr ⟨by simp [h0], h0, Bits.mul_two_pow_of_even h0 l⟩
  · exact Or.inl ⟨h1, by simp [h1]⟩

/-! ### One combining step -/

omit [DecidableEq α] in
/-- **The path bookkeeping of a combining step.** At level `l` the running hash `h` is node
`i`, a right child, and `x` its left neighbour; the stored nodes are those of `c` leaves, the
last one of level `l` being `x`. If `pos` is below `h`, the step records `x`; if it is inside
`x`, it records `h`; either way it is below the parent afterwards. Otherwise it stays pending
for the levels above. -/
theorem track_combine {c l i : ℕ} {matchlevel : ℤ} {matchh : Bool} {path : List α} (x h : α)
    (hc : c ≤ leaves.length) (hodd : i % 2 = 1) (hi : i < (level hash leaves l).length)
    (hci : c / 2 ^ l = i) (hx : x = node hash leaves l (i - 1))
    (hh : h = node hash leaves l i)
    (htrack : Under hash leaves pos l i matchh path ∨
      (matchh = false ∧ Pending hash leaves pos c l matchlevel path)) :
    Under hash leaves pos (l + 1) (i / 2) (pathStep x h matchlevel l matchh path).2
        (pathStep x h matchlevel l matchh path).1 ∨
      ((pathStep x h matchlevel l matchh path).2 = false ∧
        Pending hash leaves pos c (l + 1) matchlevel (pathStep x h matchlevel l matchh path).1) := by
  rcases htrack with ⟨rfl, hpn, hidx, hpath⟩ | ⟨rfl, hpend⟩
  · -- `pos` is below `h`, a right child: its sibling is `x`
    refine Or.inl ⟨rfl, hpn, by rw [Bits.div_two_pow_succ, hidx], ?_⟩
    rw [pathStep_true, branch_succ, hpath, hidx, sibling_of_odd hash hodd, hx]
  · rcases hpend with ⟨hcp, hml, hpath⟩ | ⟨l0, hl0, hl032, hbit0, hidx0, hml, hpath⟩
    · rw [pathStep_false_of_ne _ _ (by rw [hml]; omega)]
      exact Or.inr ⟨rfl, Or.inl ⟨hcp, hml, hpath⟩⟩
    · rcases Nat.eq_or_lt_of_le hl0 with rfl | hlt
      · -- `pos` is inside `x`, a left child: its sibling is `h`
        rw [pathStep_false_of_eq _ _ hml]
        have hidx : pos / 2 ^ l = i - 1 := by rw [hidx0, hci]
        refine Or.inl ⟨rfl, lt_of_lt_of_le (lt_of_div_eq_pred pos hbit0 hidx0) hc, ?_, ?_⟩
        · rw [Bits.div_two_pow_succ, hidx]
          omega
        · rw [branch_succ, hpath, hidx, sibling_of_even_of_lt hash (by omega) (by omega), hh,
            show i - 1 + 1 = i by omega]
      · rw [pathStep_false_of_ne _ _ (by rw [hml]; omega)]
        exact Or.inr ⟨rfl, Or.inr ⟨l0, hlt, hl032, hbit0, hidx0, hml, hpath⟩⟩

/-! ### The leaf loop -/

/-- **The climb of one leaf.** With the new count `q * 2^l` and `h` the node of level `l`
ending at the new leaf, the climb stops at the lowest level `t ≥ l` where the count has a set
bit, with `h` the node of level `t` ending at the new leaf. The leaf `pos` is below `h` or
still pending at the end as it was at the start. -/
theorem leafClimb_spec (count : UInt32) (inner : Vector α 32) (matchlevel : ℤ)
    (hm : count.toNat ≤ leaves.length) (hfr : Frontier hash leaves (count.toNat - 1) inner)
    (l q : ℕ) (hq0 : 0 < q) (hq : count.toNat = q * 2 ^ l) (h : α)
    (hh : h = node hash leaves l (q - 1)) (matchh mutated : Bool) (path : List α)
    (htrack : Under hash leaves pos l (q - 1) matchh path ∨
      (matchh = false ∧ Pending hash leaves pos (count.toNat - 1) l matchlevel path))
    (hfresh : matchh = false → pos ≠ count.toNat - 1) :
    ∃ t q' mutated' matchh' path', ∃ ht : t < 32, l ≤ t ∧ count.toNat = q' * 2 ^ t ∧
      q' % 2 = 1 ∧
      leafClimb hash count inner matchlevel l h matchh mutated path =
        .ok (⟨t, ht⟩, node hash leaves t (q' - 1), matchh', mutated', path') ∧
      (Under hash leaves pos t (q' - 1) matchh' path' ∨
        (matchh' = false ∧ Pending hash leaves pos (count.toNat - 1) t matchlevel path')) ∧
      (matchh' = false → pos ≠ count.toNat - 1) := by
  obtain ⟨hl, ⟨hodd, hne⟩ | ⟨hz, heven, hq2⟩⟩ := level_test hq0 hq
  · -- the count has bit `l` set: the climb stops and `h` is stored at level `l`
    rw [leafClimb, dif_pos hl, if_neg hne]
    exact ⟨l, q, mutated, matchh, path, hl, le_rfl, hq, hodd, by rw [hh]; rfl, htrack, hfresh⟩
  · -- bit `l` is zero: `inner[l]` is the left neighbour of `h`, and the two are hashed
    rw [leafClimb, dif_pos hl, if_pos hz]
    have hc : (count.toNat - 1) / 2 ^ l = q - 1 := by
      rw [hq]
      exact Bits.mul_two_pow_sub_one_div hq0 l
    have hcbit : (count.toNat - 1).testBit l = true := by
      rw [Bits.testBit_eq_true_iff, hc]
      omega
    have hinner : inner[l] = node hash leaves l (q - 1 - 1) := by rw [hfr l hl hcbit, hc]
    have hlen : q ≤ (level hash leaves l).length :=
      Nat.le_of_mul_le_mul_right (hq ▸ hm.trans (le_length_level_mul hash l))
        (Nat.two_pow_pos l)
    have hnext : hash inner[l] h = node hash leaves (l + 1) (q / 2 - 1) := by
      rw [hinner, hh, node_succ_of_lt hash (by omega), show 2 * (q / 2 - 1) = q - 1 - 1 by omega,
        show q - 1 - 1 + 1 = q - 1 by omega]
    have htrack' := track_combine hash leaves pos inner[l] h (by omega) (by omega) (by omega) hc
      hinner hh htrack
    rw [show (q - 1) / 2 = q / 2 - 1 by omega] at htrack'
    obtain ⟨t, q', mutated', matchh', path', ht, hlt, hq', hodd', heq, htr, hfr'⟩ :=
      leafClimb_spec count inner matchlevel hm hfr (l + 1) (q / 2) (by omega) hq2 _ hnext _ _ _
        htrack'
        (fun hf => hfresh (eq_false_of_pathStep_snd hf))
    exact ⟨t, q', mutated', matchh', path', ht, by omega, hq', hodd', heq, htr, hfr'⟩
termination_by 32 - l

omit [DecidableEq α] in
/-- Nothing is stored before the first leaf, and `pos` is not read yet. -/
theorem leafInv_init : LeafInv hash leaves pos 0 MerkleState.init :=
  ⟨rfl, fun _ _ h => by simp at h, Or.inl ⟨Nat.zero_le _, rfl, rfl⟩⟩

/-- **One round of the leaf loop** keeps the invariant, as long as the count does not wrap. -/
theorem leafStep_spec (leaf_pos : UInt32) (hpos : leaf_pos.toNat = pos) {c : ℕ}
    {s : MerkleState α} (hs : LeafInv hash leaves pos c s) (hc : c < leaves.length)
    (hc32 : c + 1 < 2 ^ 32) :
    ∃ s', leafStep hash leaf_pos s (leaves.getD c default) = .ok s' ∧
      LeafInv hash leaves pos (c + 1) s' := by
  have hcount : (s.count + 1).toNat = c + 1 := by
    rw [UInt32.toNat_add, hs.count, UInt32.toNat_one, Nat.mod_eq_of_lt hc32]
  have hmatch : (s.count == leaf_pos) = decide (c = pos) := by
    rw [Bool.eq_iff_iff, beq_iff_eq, decide_eq_true_iff, UInt32.ext_iff, hs.count, hpos]
  -- the climb starts at level 0 from the new leaf, with `pos` below it if it is this leaf
  have htrack : Under hash leaves pos 0 c (decide (c = pos)) s.path ∨
      (decide (c = pos) = false ∧ Pending hash leaves pos c 0 s.matchlevel s.path) := by
    by_cases hcp : c = pos
    · subst hcp
      have hpath : s.path = [] := by
        rcases hs.pending with ⟨_, _, h⟩ | ⟨l0, _, _, hb, hi, _, _⟩
        · exact h
        · exact absurd (lt_of_div_eq_pred c hb hi) (lt_irrefl c)
      exact Or.inl ⟨by simp, hc, by simp, by rw [hpath]; rfl⟩
    · exact Or.inr ⟨by simp [hcp], hs.pending⟩
  obtain ⟨t, q', mutated', matchh', path', ht, -, hq', hodd', heq, htr, hfresh⟩ :=
    leafClimb_spec hash leaves pos (s.count + 1) s.inner s.matchlevel (by omega)
      (by rw [hcount, Nat.add_sub_cancel]; exact hs.frontier) 0 (c + 1) (by omega)
      (by rw [hcount, pow_zero, Nat.mul_one]) (leaves.getD c default)
      (by rw [Nat.add_sub_cancel, node_zero]) (decide (c = pos)) s.mutated s.path
      (by rw [hcount, Nat.add_sub_cancel]; exact htrack)
      (by rw [hcount, Nat.add_sub_cancel]; intro hf; simpa [eq_comm] using hf)
  rw [hcount] at hq' hfresh
  rw [hcount, Nat.add_sub_cancel] at htr
  have hct : c / 2 ^ t = q' - 1 := div_two_pow_of_succ_eq hq' (by omega)
  have hc1t : (c + 1) / 2 ^ t = q' := by rw [hq', Nat.mul_div_cancel _ (Nat.two_pow_pos t)]
  refine ⟨_, by rw [leafStep, hmatch, heq]; rfl, hcount, ?_, ?_⟩
  · -- the new node is stored at level `t`; the levels above keep theirs
    intro j hj hbit
    by_cases hjt : j = t
    · subst hjt
      simp only [Vector.getElem_set_self, hc1t]
    · simp only
      rw [Vector.getElem_set_ne _ _ (Ne.symm hjt)]
      rcases Nat.lt_or_gt_of_ne hjt with hlt | hgt
      · rw [hq', Bits.testBit_mul_two_pow_of_lt _ hlt] at hbit
        exact absurd hbit Bool.false_ne_true
      · have hdiv := div_two_pow_succ_eq hq' hodd' hgt
        rw [← Bits.testBit_eq_of_div_eq hdiv] at hbit
        rw [hs.frontier j hj hbit, hdiv]
  · rcases htr with ⟨hmt, hpn, hidx, hpath⟩ | ⟨hmf, hpend⟩
    · -- `pos` is in the node just stored: `matchlevel` becomes `t`
      simp only [hmt, if_true]
      refine Or.inr ⟨t, Nat.zero_le _, ht, ?_, by rw [hidx, hc1t], rfl, hpath⟩
      rw [hq', Bits.testBit_mul_two_pow_self, decide_eq_true_iff]
      exact hodd'
    · simp only [hmf, Bool.false_eq_true, if_false]
      have hpc := hfresh hmf
      rcases hpend with ⟨hcp, hml, hp⟩ | ⟨l0, hl0, hl032, hb0, hi0, hml, hp⟩
      · exact Or.inl ⟨by omega, hml, hp⟩
      · -- bit `t` of `c` is zero, so the stored node of `pos` lies above `t`
        have hlt : t < l0 := by
          rcases Nat.eq_or_lt_of_le hl0 with rfl | hlt
          · rw [Bits.testBit_eq_true_iff, hct] at hb0
            omega
          · exact hlt
        have hdiv := div_two_pow_succ_eq hq' hodd' hlt
        exact Or.inr ⟨l0, Nat.zero_le _, hl032, by rwa [← Bits.testBit_eq_of_div_eq hdiv],
          by rw [← hdiv]; exact hi0, hml, hp⟩

/-- **The leaf loop.** After the first `c` leaves, for `c` below `2^32`, the state keeps the
invariant. -/
theorem leafPhase_spec (leaf_pos : UInt32) (hpos : leaf_pos.toNat = pos) :
    ∀ c, c ≤ leaves.length → c < 2 ^ 32 →
      ∃ s, (leaves.take c).foldlM (leafStep hash leaf_pos) MerkleState.init = .ok s ∧
        LeafInv hash leaves pos c s
  | 0, _, _ => ⟨MerkleState.init, by simp, leafInv_init hash leaves pos⟩
  | c + 1, hc, hc32 => by
    obtain ⟨s, hfold, hs⟩ := leafPhase_spec leaf_pos hpos c (by omega) (by omega)
    obtain ⟨s', hstep, hs'⟩ := leafStep_spec hash leaves pos leaf_pos hpos hs (by omega) hc32
    refine ⟨s', ?_, hs'⟩
    rw [List.take_add_one, List.foldlM_append, hfold, Except.ok_bind,
      List.getElem?_eq_getElem (by omega), Option.toList_some, List.foldlM_cons,
      ← List.getD_eq_getElem _ default, hstep]
    rfl

/-! ### The sweep -/

/-- The sweep at the head of its outer loop at level `K`: the level has an odd number of
nodes, the counter covers them, and `h` is the last one. -/
structure HeadInv (count : UInt32) (K : ℕ) (h : α) (matchh : Bool) (path : List α)
    (matchlevel : ℤ) : Prop where
  level_le : K ≤ depth leaves
  count_eq : count.toNat = (level hash leaves K).length * 2 ^ K
  odd : (level hash leaves K).length % 2 = 1
  div : leaves.length / 2 ^ (K + 1) = (level hash leaves K).length / 2
  h_eq : h = node hash leaves K ((level hash leaves K).length - 1)
  track : Under hash leaves pos K ((level hash leaves K).length - 1) matchh path ∨
    (matchh = false ∧ Pending hash leaves pos leaves.length (K + 1) matchlevel path)

/-- The sweep in its propagating loop at level `K`: the counter covers the nodes of the level
modulo `2^32`, all nodes but the last are stored ones, and `h` is the last. -/
structure PropInv (count : UInt32) (K : ℕ) (h : α) (matchh : Bool) (path : List α)
    (matchlevel : ℤ) : Prop where
  level_le : K ≤ depth leaves
  count_eq : count.toNat = (level hash leaves K).length * 2 ^ K % 2 ^ 32
  count_le : (level hash leaves K).length * 2 ^ K ≤ 2 ^ 32
  div : leaves.length / 2 ^ K = (level hash leaves K).length - 1
  h_eq : h = node hash leaves K ((level hash leaves K).length - 1)
  track : Under hash leaves pos K ((level hash leaves K).length - 1) matchh path ∨
    (matchh = false ∧ Pending hash leaves pos leaves.length K matchlevel path)

/-- The invariant of the sweep, by which of its two loops is at its head. -/
def SweepInv (count : UInt32) (K : ℕ) : Bool → α → Bool → List α → ℤ → Prop
  | true => PropInv hash leaves pos count K
  | false => HeadInv hash leaves pos count K

/-- What the sweep returns: the root and the branch of `pos` while the levels stay below 32,
and the shift by 32 once the tree is 32 levels deep. -/
def sweepResult : Except String (α × List α) :=
  if depth leaves ≤ 31 then
    .ok (root hash leaves,
      if pos < leaves.length then branch hash leaves pos (depth leaves) else [])
  else .error shiftError

section Steps

variable {hash leaves pos} {count : UInt32} {K : ℕ} {h : α} {matchh : Bool} {path : List α}
  {matchlevel : ℤ}

omit [DecidableEq α] in
/-- At the top, a single node: it is the root, and the path is the branch of `pos`. -/
theorem HeadInv.result (hinv : HeadInv hash leaves pos count K h matchh path matchlevel)
    (hn : 0 < leaves.length) (hl : K < 32) (hlen : (level hash leaves K).length = 1) :
    sweepResult hash leaves pos = .ok (h, path) := by
  have hD : depth leaves = K := le_antisymm ((depth_le_iff hash hn K).mpr hlen) hinv.level_le
  rw [sweepResult, if_pos (by omega), hinv.h_eq, hlen, root, hD]
  rcases hinv.track with ⟨_, hpn, _, hpath⟩ | ⟨_, ⟨hnp, _, hpath⟩ | ⟨l0, hl0, _, hb0, _⟩⟩
  · rw [if_pos hpn, hpath]
  · rw [if_neg (by omega), hpath]
  · -- a set bit above `K` would need more than `2^K` leaves
    have h1 := Nat.ge_two_pow_of_testBit hb0
    have h2 := (length_level_eq_one_iff hash hn K).mp hlen
    have h3 : 2 ^ K < 2 ^ l0 := Nat.pow_lt_pow_right (by norm_num) (by omega)
    omega

omit [DecidableEq α] in
/-- **An odd level.** Its last node is paired with itself; the counter moves on by `2^K`, and
propagation starts at `K + 1`. -/
theorem HeadInv.double (hinv : HeadInv hash leaves pos count K h matchh path matchlevel)
    (hn : 0 < leaves.length) (hn32 : leaves.length < 2 ^ 32) (hl : K < 32)
    (hlen : (level hash leaves K).length ≠ 1) :
    PropInv hash leaves pos (count + (1 <<< K.toUInt32)) (K + 1) (hash h h) matchh
      (if matchh then path ++ [h] else path) matchlevel := by
  have hodd := hinv.odd
  have hlen' := length_level_succ hash leaves K
  refine ⟨?_, ?_, length_level_mul_le hash hn32.le (by omega), ?_, ?_, ?_⟩
  · exact Nat.succ_le_of_lt (not_le.mp fun h => hlen ((depth_le_iff hash hn K).mp h))
  · rw [Bits.toNat_add_one_shiftLeft _ hl, hinv.count_eq, hlen',
      show (level hash leaves K).length * 2 ^ K + 2 ^ K =
        ((level hash leaves K).length + 1) * 2 ^ K by ring,
      Bits.mul_two_pow_of_even (by omega)]
  · rw [hinv.div, hlen']
    omega
  · rw [hinv.h_eq, hlen', show ((level hash leaves K).length + 1) / 2 - 1 =
        ((level hash leaves K).length - 1) / 2 by omega,
      node_succ_of_eq hash (show 2 * (((level hash leaves K).length - 1) / 2) + 1
        = (level hash leaves K).length by omega),
      show 2 * (((level hash leaves K).length - 1) / 2) =
        (level hash leaves K).length - 1 by omega]
  · rcases hinv.track with ⟨hmt, hpn, hidx, hpath⟩ | ⟨hmf, hpend⟩
    · -- `pos` is below the last node: its sibling is the node itself
      subst hmt
      refine Or.inl ⟨rfl, hpn, ?_, ?_⟩
      · rw [Bits.div_two_pow_succ, hidx, hlen']
        omega
      · rw [if_pos rfl, branch_succ, hpath, hidx,
          sibling_of_even_of_eq hash (by omega) (by omega), hinv.h_eq]
    · subst hmf
      exact Or.inr ⟨rfl, by simpa using hpend⟩

omit [DecidableEq α] in
/-- **Back to the head.** An odd level in the propagating loop: the counter covers its nodes
exactly, with no wrap. -/
theorem PropInv.head (hinv : PropInv hash leaves pos count K h matchh path matchlevel)
    (hl : K < 32) (hodd : (level hash leaves K).length % 2 = 1) :
    HeadInv hash leaves pos count K h matchh path matchlevel := by
  have hnb : leaves.length.testBit K = false := by
    rw [Bits.testBit_eq_false_iff, hinv.div]
    omega
  refine ⟨hinv.level_le, ?_, hodd, ?_, hinv.h_eq,
    hinv.track.imp id fun h => ⟨h.1, h.2.succ hash leaves pos hnb⟩⟩
  · rw [hinv.count_eq, Nat.mod_eq_of_lt (Bits.mul_two_pow_lt_of_odd hl hinv.count_le hodd)]
  · rw [Bits.div_two_pow_succ, hinv.div]
    omega

omit [DecidableEq α] in
/-- **An even level.** Its last node is hashed with the stored node of the level, its left
neighbour; the counter stands for the level above as it is. -/
theorem PropInv.combine (hinv : PropInv hash leaves pos count K h matchh path matchlevel)
    {inner : Vector α 32} (hfr : Frontier hash leaves leaves.length inner)
    (hn : 0 < leaves.length) (hl : K < 32) (heven : (level hash leaves K).length % 2 = 0) :
    PropInv hash leaves pos count (K + 1) (hash inner[K] h)
      (pathStep inner[K] h matchlevel K matchh path).2
      (pathStep inner[K] h matchlevel K matchh path).1 matchlevel := by
  have hlen0 := length_level_pos hash hn K
  have hlen' := length_level_succ hash leaves K
  have hnb : leaves.length.testBit K = true := by
    rw [Bits.testBit_eq_true_iff, hinv.div]
    omega
  have hinner : inner[K] = node hash leaves K ((level hash leaves K).length - 1 - 1) := by
    rw [hfr K hl hnb, hinv.div]
  have hhalf : ((level hash leaves K).length + 1) / 2 = (level hash leaves K).length / 2 := by
    omega
  have htrack := track_combine hash leaves pos inner[K] h le_rfl (by omega) (by omega)
    hinv.div hinner hinv.h_eq hinv.track
  refine ⟨?_, ?_, ?_, ?_, ?_, ?_⟩
  · exact Nat.succ_le_of_lt (not_le.mp fun h => by
      have := (depth_le_iff hash hn K).mp h
      omega)
  · rw [hinv.count_eq, hlen', hhalf, ← Bits.mul_two_pow_of_even heven]
  · rw [hlen', hhalf, ← Bits.mul_two_pow_of_even heven]
    exact hinv.count_le
  · rw [Bits.div_two_pow_succ, hinv.div, hlen']
    omega
  · rw [hinner, hinv.h_eq, hlen', show ((level hash leaves K).length + 1) / 2 - 1 =
        ((level hash leaves K).length - 1) / 2 by omega,
      node_succ_of_lt hash (show 2 * (((level hash leaves K).length - 1) / 2) + 1 <
        (level hash leaves K).length by omega),
      show 2 * (((level hash leaves K).length - 1) / 2) =
        (level hash leaves K).length - 1 - 1 by omega,
      show (level hash leaves K).length - 1 - 1 + 1 = (level hash leaves K).length - 1 by omega]
  · rwa [hlen', show ((level hash leaves K).length + 1) / 2 - 1 =
      ((level hash leaves K).length - 1) / 2 by omega]

end Steps

omit [DecidableEq α] in
/-- **The sweep.** From a state satisfying the invariant, the sweep returns `sweepResult`.
The induction follows the sweep's own measure: each round either moves up a level or goes
from the propagating loop back to the head of the outer one. -/
theorem sweep_spec (inner : Vector α 32) (matchlevel : ℤ)
    (hfr : Frontier hash leaves leaves.length inner) (hn : 0 < leaves.length)
    (hn32 : leaves.length < 2 ^ 32) (K : ℕ) (propagating : Bool) (count : UInt32) (h : α)
    (matchh : Bool) (path : List α)
    (hinv : SweepInv hash leaves pos count K propagating h matchh path matchlevel) :
    sweep hash inner matchlevel count K propagating h matchh path =
      sweepResult hash leaves pos := by
  have hK : K ≤ depth leaves := by cases propagating <;> exact hinv.level_le
  rw [sweep]
  by_cases hl : K < 32
  swap
  · -- level 32 is reached only in a tree 32 levels deep
    rw [dif_neg hl, sweepResult, if_neg (by omega)]
    rfl
  rw [dif_pos hl]
  cases propagating with
  | false =>
    have hinv : HeadInv hash leaves pos count K h matchh path matchlevel := hinv
    simp only [Bool.false_eq_true, if_false]
    have hcnt : count ≠ 1 <<< K.toUInt32 ↔ (level hash leaves K).length ≠ 1 := by
      rw [Ne, Bits.eq_one_shiftLeft_iff _ hl, hinv.count_eq, Ne,
        Nat.mul_eq_right (Nat.two_pow_pos K).ne']
    by_cases hlen : (level hash leaves K).length = 1
    · rw [if_neg (by rw [hcnt, not_not]; exact hlen), hinv.result hn hl hlen]
      rfl
    · rw [if_pos (hcnt.mpr hlen)]
      exact sweep_spec inner matchlevel hfr hn hn32 (K + 1) true _ _ _ _
        (hinv.double hn hn32 hl hlen)
  | true =>
    have hinv : PropInv hash leaves pos count K h matchh path matchlevel := hinv
    simp only [if_true]
    have hbit : count.toNat.testBit K = decide ((level hash leaves K).length % 2 = 1) := by
      rw [hinv.count_eq]
      exact Bits.testBit_mul_two_pow_mod hl hinv.count_le
    by_cases hodd : (level hash leaves K).length % 2 = 1
    · rw [if_neg (by rw [Bits.and_one_shiftLeft_eq_zero_iff _ hl, hbit]; simp [hodd])]
      exact sweep_spec inner matchlevel hfr hn hn32 K false _ _ _ _ (hinv.head hl hodd)
    · rw [if_pos ((Bits.and_one_shiftLeft_eq_zero_iff _ hl).mpr (by rw [hbit]; simp [hodd]))]
      exact sweep_spec inner matchlevel hfr hn hn32 (K + 1) true _ _ _ _
        (hinv.combine hfr hn hl (by omega))
termination_by 2 * (32 - K) + propagating.toNat

/-! ### The whole computation -/

/-- `while (!(count & ((uint32_t{1}) << level))) level++;` stops at the lowest set bit. -/
theorem lowestLevel_spec (count : UInt32) (l q : ℕ) (hq0 : 0 < q)
    (hq : count.toNat = q * 2 ^ l) :
    ∃ t q', ∃ ht : t < 32, l ≤ t ∧ count.toNat = q' * 2 ^ t ∧ q' % 2 = 1 ∧
      lowestLevel count l = .ok ⟨t, ht⟩ := by
  obtain ⟨hl, ⟨hodd, hne⟩ | ⟨hz, heven, hq2⟩⟩ := level_test hq0 hq
  · rw [lowestLevel, dif_pos hl, if_neg hne]
    exact ⟨l, q, hl, le_rfl, hq, hodd, rfl⟩
  · rw [lowestLevel, dif_pos hl, if_pos hz]
    obtain ⟨t, q', ht, hlt, hq', hodd', heq⟩ := lowestLevel_spec count (l + 1) (q / 2) (by omega) hq2
    exact ⟨t, q', ht, by omega, hq', hodd', heq⟩
termination_by 32 - l

omit [DecidableEq α] in
/-- Levels where the stored count has no bit leave `pos` pending above them. -/
theorem Pending.lift {c : ℕ} {matchlevel : ℤ} {path : List α}
    (hp : Pending hash leaves pos c 0 matchlevel path) :
    ∀ t, (∀ j < t, c.testBit j = false) → Pending hash leaves pos c t matchlevel path
  | 0, _ => hp
  | t + 1, hb => (hp.lift t fun j hj => hb j (by omega)).succ hash leaves pos (hb t (by omega))

omit [DecidableEq α] in
/-- The sweep starts at the lowest set bit `t` of the count `n = q * 2^t` with the invariant
of the head of its outer loop. -/
theorem headInv_start {s : MerkleState α} (hs : LeafInv hash leaves pos leaves.length s)
    {t q : ℕ} (ht : t < 32) (hq : leaves.length = q * 2 ^ t) (hodd : q % 2 = 1) :
    HeadInv hash leaves pos s.count t s.inner[t] (decide (s.matchlevel = t)) s.path
      s.matchlevel := by
  have hlen : (level hash leaves t).length = q := length_level_of_eq_mul hash hq
  have hnt : leaves.length / 2 ^ t = q := by rw [hq, Nat.mul_div_cancel _ (Nat.two_pow_pos t)]
  have hbit : leaves.length.testBit t = true := by
    rw [hq, Bits.testBit_mul_two_pow_self, decide_eq_true_iff]
    exact hodd
  have hpend := hs.pending.lift hash leaves pos t fun j hj => by
    rw [hq]
    exact Bits.testBit_mul_two_pow_of_lt _ hj
  refine ⟨?_, by rw [hs.count, hlen, hq], by rw [hlen]; exact hodd,
    by rw [Bits.div_two_pow_succ, hnt, hlen], by rw [hs.frontier t ht hbit, hnt, hlen], ?_⟩
  · have h2t : 2 ^ t ≤ leaves.length := by
      rw [hq]
      exact Nat.le_mul_of_pos_left _ (by omega)
    exact (Nat.pow_le_pow_iff_right (by norm_num)).mp
      (h2t.trans (Nat.le_pow_clog (by norm_num) _))
  · by_cases hml : s.matchlevel = t
    · -- `pos` is in the stored node the sweep starts from
      rcases hpend with ⟨_, hml', _⟩ | ⟨l0, _, _, hb0, hi0, hml', hpath⟩
      · rw [hml] at hml'
        omega
      · have hl0 : l0 = t := by rw [hml] at hml'; exact (Nat.cast_inj.mp hml').symm
        subst hl0
        exact Or.inl ⟨by simp [hml], lt_of_div_eq_pred pos hb0 hi0, by rw [hi0, hnt, hlen],
          hpath⟩
    · exact Or.inr ⟨by simp [hml], hpend.succ_of_ne hash leaves pos hml⟩

/-- **`MerkleComputation` against the tree.** For `1 ≤ n < 2^32` leaves it returns what the
sweep returns, with the mutation flag of the leaf loop. -/
theorem merkleComputation_eq (leaf_pos : UInt32) (hpos : leaf_pos.toNat = pos)
    (hn : 0 < leaves.length) (hn32 : leaves.length < 2 ^ 32) :
    ∃ mutated, merkleComputation hash leaves leaf_pos =
      (sweepResult hash leaves pos >>= fun r => pure (r.1, mutated, r.2)) := by
  obtain ⟨s, hfold, hs⟩ := leafPhase_spec hash leaves pos leaf_pos hpos leaves.length le_rfl hn32
  rw [List.take_length] at hfold
  obtain ⟨t, q, ht, -, hq, hodd, hlow⟩ :=
    lowestLevel_spec s.count 0 leaves.length hn (by rw [hs.count, pow_zero, Nat.mul_one])
  rw [hs.count] at hq
  refine ⟨s.mutated, ?_⟩
  rw [merkleComputation, if_neg (by omega), hfold, Except.ok_bind, hlow, Except.ok_bind]
  simp only [Fin.getElem_fin]
  rw [sweep_spec hash leaves pos s.inner s.matchlevel hs.frontier hn hn32 t false _ _ _ _
      (headInv_start hash leaves pos hs ht hq hodd)]

omit [Inhabited α] in
/-- A leaf loop that climbs on a count wrapped to `0` shifts by 32. -/
theorem leafClimb_zero (inner : Vector α 32) (matchlevel : ℤ) (l : ℕ) (h : α)
    (matchh mutated : Bool) (path : List α) :
    leafClimb hash 0 inner matchlevel l h matchh mutated path = .error shiftError := by
  rw [leafClimb]
  split
  · rw [if_pos UInt32.zero_and]
    exact leafClimb_zero _ _ _ _ _ _ _
  · rfl
termination_by 32 - l

omit [Inhabited α] in
/-- The leaf after `2^32 - 1` of them wraps the count to `0`. -/
theorem leafStep_wrap (leaf_pos : UInt32) {s : MerkleState α} (hs : s.count.toNat = 2 ^ 32 - 1)
    (leaf : α) : leafStep hash leaf_pos s leaf = .error shiftError := by
  have hz : s.count + 1 = 0 := by
    rw [UInt32.ext_iff, UInt32.toNat_add, hs, UInt32.toNat_one, UInt32.toNat_zero]
    rfl
  rw [leafStep, hz, leafClimb_zero]
  rfl

/-- **More than `2^31` leaves.** The sweep counter, or for `2^32` leaves and more the leaf
counter, reaches `2^32` and wraps, and the computation shifts by 32. -/
theorem merkleComputation_eq_error (leaf_pos : UInt32) (hn : 2 ^ 31 < leaves.length) :
    merkleComputation hash leaves leaf_pos = .error shiftError := by
  by_cases hn32 : leaves.length < 2 ^ 32
  · obtain ⟨mutated, hm⟩ :=
      merkleComputation_eq hash leaves leaf_pos.toNat leaf_pos rfl (by omega) hn32
    have hdepth : ¬depth leaves ≤ 31 :=
      not_le.mpr ((Nat.lt_clog_iff_pow_lt (by norm_num)).mpr hn)
    rw [hm, sweepResult, if_neg hdepth]
    rfl
  · obtain ⟨s, hfold, hs⟩ :=
      leafPhase_spec hash leaves leaf_pos.toNat leaf_pos rfl (2 ^ 32 - 1) (by omega) (by omega)
    obtain ⟨x, rest, hdrop⟩ : ∃ x rest, leaves.drop (2 ^ 32 - 1) = x :: rest :=
      List.exists_cons_of_ne_nil (by
        intro h
        have := congrArg List.length h
        rw [List.length_drop, List.length_nil] at this
        omega)
    rw [merkleComputation, if_neg (by omega), ← List.take_append_drop (2 ^ 32 - 1) leaves,
      List.foldlM_append, hfold, Except.ok_bind, hdrop, List.foldlM_cons,
      leafStep_wrap hash leaf_pos hs.count]
    rfl

end MerklePath

open MerkleTree MerklePath

variable {α : Type} [DecidableEq α] [Inhabited α] (hash : α → α → α)

/-- For `1 ≤ n ≤ 2^31` leaves, `MerkleComputation` returns the root of the tree and the branch
of the leaf asked for, or no branch for a position past the last leaf. -/
theorem merkleComputation_eq_ok (leaves : List α) (leaf_pos : UInt32) (hn : 0 < leaves.length)
    (hn31 : leaves.length ≤ 2 ^ 31) :
    ∃ mutated, merkleComputation hash leaves leaf_pos =
      .ok (root hash leaves, mutated,
        if leaf_pos.toNat < leaves.length then
          branch hash leaves leaf_pos.toNat (depth leaves) else []) := by
  obtain ⟨mutated, hm⟩ :=
    merkleComputation_eq hash leaves leaf_pos.toNat leaf_pos rfl hn (by omega)
  have hdepth : depth leaves ≤ 31 := (Nat.clog_le_iff_le_pow (by norm_num)).mpr hn31
  rw [hm, sweepResult, if_pos hdepth]
  exact ⟨mutated, rfl⟩

/-- **The Merkle path folds to the Merkle root.** For `1 ≤ n ≤ 2^31` leaves and a position
`p < n`, `ComputeMerklePath` returns a branch of `⌈log₂ n⌉` hashes, and folding the leaf with
it as `ComputeMerkleRootFromBranch` does gives `ComputeMerkleRoot`. -/
theorem computeMerklePath_spec (leaves : List α) (p : UInt32) (hn : 0 < leaves.length)
    (hn31 : leaves.length ≤ 2 ^ 31) (hp : p.toNat < leaves.length) :
    ∃ branch, computeMerklePath hash leaves p = .ok branch ∧
      branch.length = Nat.clog 2 leaves.length ∧
      computeMerkleRootFromBranch hash leaves[p.toNat] branch p =
        (computeMerkleRoot hash leaves).1 := by
  obtain ⟨mutated, hm⟩ := merkleComputation_eq_ok hash leaves p hn hn31
  refine ⟨branch hash leaves p.toNat (depth leaves), ?_, length_branch hash _ _, ?_⟩
  · rw [computeMerklePath, hm, if_pos hp]
    rfl
  · have hfold := computeMerkleRootFromBranch_branch hash hp p.toNat_lt
    rw [Nat.toUInt32_eq, UInt32.ofNat_toNat, List.getD_eq_getElem _ _ hp] at hfold
    rw [hfold, computeMerkleRoot_eq]

/-- The branch of the last of three leaves, which is paired with itself. -/
theorem computeMerklePath_spec_three :
    0 < [1, 2, 3].length ∧ [1, 2, 3].length ≤ 2 ^ 31 ∧ (2 : UInt32).toNat < [1, 2, 3].length ∧
      ∃ branch, computeMerklePath Nat.pair [1, 2, 3] 2 = .ok branch ∧
        branch.length = Nat.clog 2 [1, 2, 3].length ∧
        computeMerkleRootFromBranch Nat.pair [1, 2, 3][(2 : UInt32).toNat] branch 2 =
          (computeMerkleRoot Nat.pair [1, 2, 3]).1 :=
  ⟨by decide, by decide, by decide,
    computeMerklePath_spec Nat.pair [1, 2, 3] 2 (by decide) (by decide) (by decide)⟩

/-- **Beyond `2^31` leaves the path computation fails.** Its counter wraps past `2^32` and a
loop shifts `uint32_t{1}` by 32, for every position. -/
theorem computeMerklePath_eq_error (leaves : List α) (p : UInt32)
    (hn : 2 ^ 31 < leaves.length) :
    computeMerklePath hash leaves p = .error shiftError := by
  rw [computeMerklePath, merkleComputation_eq_error hash leaves p hn]
  rfl

/-- The smallest such list, `2^31 + 1` leaves. -/
theorem computeMerklePath_eq_error_two_pow_add_one :
    2 ^ 31 < (List.replicate (2 ^ 31 + 1) (0 : ℕ)).length ∧
      computeMerklePath Nat.pair (List.replicate (2 ^ 31 + 1) 0) 0 = .error shiftError := by
  -- the length is read off `List.replicate` without building the list
  have hlen : 2 ^ 31 < (List.replicate (2 ^ 31 + 1) (0 : ℕ)).length := by
    rw [List.length_replicate]
    exact Nat.lt_succ_self _
  exact ⟨hlen, computeMerklePath_eq_error Nat.pair _ 0 hlen⟩

end Tenscoin
