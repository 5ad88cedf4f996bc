import Mathlib
import Tenscoin.Consensus.Merkle
import Tenscoin.Lib.Bits

/-!
# The level-by-level Merkle tree

What `ComputeMerkleRoot` computes, said over the whole tree. `MerkleTree.level hash leaves k`
is the `k`-th level: each level is the one below with its pairs hashed and an odd last node
paired with itself (`MerkleTree.pairUp`). Level `k` has `⌈n / 2^k⌉` nodes
(`MerkleTree.length_level`), so a single node is reached at `depth = ⌈log₂ n⌉`. A node is
the hash of its two children, or of its only child twice at the right edge of an odd level
(`MerkleTree.node_succ_of_lt`, `MerkleTree.node_succ_of_eq`).

* `MerkleTree.computeMerkleRoot_eq`: `ComputeMerkleRoot` refines the tree. It returns the
  node at the top and whether some level below the top has an even position equal to the
  next one (`MerkleTree.mutated`).
* `MerkleTree.computeMerkleRootFromBranch_branch`: the branch of a leaf, its sibling at each
  level, folds back to the root. `Consensus/MerklePath` shows that `MerkleComputation`'s
  path is this branch.
* `MerkleTree.pairUp_inj`: with an injective `Hash`, a level is determined by the next one,
  unless one of the two has an equal pair. From it, two unmutated leaf lists of one depth with
  one root are equal (`MerkleTree.eq_of_not_mutated`), which `Validation/CheckMerkleRoot` turns
  into the check against CVE-2012-2459.
-/

namespace Tenscoin

namespace MerkleTree

variable {α : Type} (hash : α → α → α)

/-- One level up: each pair of nodes is hashed, and an odd last node is hashed with itself. -/
def pairUp : List α → List α
  | a :: b :: rest => hash a b :: pairUp rest
  | [a] => [hash a a]
  | [] => []

/-- The `k`-th level of the tree over `leaves`. -/
def level (leaves : List α) : ℕ → List α
  | 0 => leaves
  | k + 1 => pairUp hash (level leaves k)

/-- The number of levels above the leaves, `⌈log₂ n⌉`. -/
def depth (leaves : List α) : ℕ :=
  Nat.clog 2 leaves.length

/-! ### One level up -/

theorem length_pairUp : ∀ xs : List α, (pairUp hash xs).length = (xs.length + 1) / 2
  | a :: b :: rest => by
    rw [pairUp, List.length_cons, length_pairUp rest, List.length_cons, List.length_cons]
    omega
  | [_] => by simp [pairUp]
  | [] => by simp [pairUp]

theorem pairUp_eq_nil_iff {xs : List α} : pairUp hash xs = [] ↔ xs = [] := by
  constructor
  · intro h
    have := length_pairUp hash xs
    rw [h, List.length_nil] at this
    exact List.eq_nil_of_length_eq_zero (by omega)
  · rintro rfl
    rfl

theorem duplicateOdd_cons_cons (a b : α) (rest : List α) :
    duplicateOdd (a :: b :: rest) = a :: b :: duplicateOdd rest := by
  cases rest with
  | nil => simp [duplicateOdd]
  | cons c rest =>
    have hpar : (a :: b :: c :: rest).length &&& 1 = (c :: rest).length &&& 1 := by
      simp only [List.length_cons, Nat.and_one_is_mod]
      omega
    simp only [duplicateOdd, hpar, List.getLast?_cons_cons]
    split <;> rfl

/-- The level `ComputeMerkleRoot` goes on with is the next level up. -/
theorem sha256D64_duplicateOdd (xs : List α) :
    sha256D64 hash (duplicateOdd xs) = pairUp hash xs := by
  induction xs using pairUp.induct with
  | case1 a b rest ih => rw [duplicateOdd_cons_cons, sha256D64, ih, pairUp]
  | case2 a => simp [duplicateOdd, sha256D64, pairUp]
  | case3 => simp [duplicateOdd, sha256D64, pairUp]

theorem getD_pairUp_of_lt [Inhabited α] :
    ∀ {xs : List α} {j : ℕ}, 2 * j + 1 < xs.length →
      (pairUp hash xs).getD j default =
        hash (xs.getD (2 * j) default) (xs.getD (2 * j + 1) default)
  | a :: b :: rest, 0, _ => by simp [pairUp]
  | a :: b :: rest, j + 1, hj => by
    have hj' : 2 * j + 1 < rest.length := by simp at hj; omega
    rw [pairUp, List.getD_cons_succ, getD_pairUp_of_lt hj',
      show 2 * (j + 1) = 2 * j + 1 + 1 by ring]
    simp only [List.getD_cons_succ]
  | [_], j, hj => by simp at hj
  | [], j, hj => by simp at hj

theorem getD_pairUp_of_eq [Inhabited α] :
    ∀ {xs : List α} {j : ℕ}, 2 * j + 1 = xs.length →
      (pairUp hash xs).getD j default =
        hash (xs.getD (2 * j) default) (xs.getD (2 * j) default)
  | a :: b :: rest, 0, hj => by simp at hj
  | a :: b :: rest, j + 1, hj => by
    have hj' : 2 * j + 1 = rest.length := by simp at hj; omega
    rw [pairUp, List.getD_cons_succ, getD_pairUp_of_eq hj',
      show 2 * (j + 1) = 2 * j + 1 + 1 by ring]
    simp only [List.getD_cons_succ]
  | [_], 0, _ => by simp [pairUp]
  | [_], j + 1, hj => by simp at hj
  | [], j, hj => by simp at hj

/-! ### Levels -/

theorem level_pairUp (leaves : List α) (k : ℕ) :
    level hash (pairUp hash leaves) k = level hash leaves (k + 1) := by
  induction k with
  | zero => rfl
  | succ k ih =>
    show pairUp hash (level hash (pairUp hash leaves) k) = pairUp hash (level hash leaves (k + 1))
    rw [ih]

theorem length_level_succ (leaves : List α) (k : ℕ) :
    (level hash leaves (k + 1)).length = ((level hash leaves k).length + 1) / 2 :=
  length_pairUp hash _

/-- Level `k` has `⌈n / 2^k⌉` nodes. -/
theorem length_level (leaves : List α) (k : ℕ) :
    (level hash leaves k).length = (leaves.length + 2 ^ k - 1) / 2 ^ k := by
  induction k with
  | zero => simp [level]
  | succ k ih =>
    have hP := Nat.two_pow_pos k
    rw [length_level_succ, ih, Nat.pow_succ, ← Nat.div_div_eq_div_mul,
      ← Nat.add_div_right _ hP]
    congr 2
    omega

section Length

variable {leaves : List α}

theorem le_length_level_mul (k : ℕ) : leaves.length ≤ (level hash leaves k).length * 2 ^ k := by
  have hP := Nat.two_pow_pos k
  have : leaves.length + 2 ^ k - 1 < (leaves.length + 2 ^ k - 1) / 2 ^ k * 2 ^ k + 2 ^ k :=
    Nat.lt_div_mul_add hP
  rw [length_level]
  omega

theorem length_level_sub_one_mul_lt (hn : 0 < leaves.length) (k : ℕ) :
    ((level hash leaves k).length - 1) * 2 ^ k < leaves.length := by
  have hP := Nat.two_pow_pos k
  have := Nat.div_mul_le_self (leaves.length + 2 ^ k - 1) (2 ^ k)
  rw [length_level, Nat.sub_one_mul]
  omega

theorem div_two_pow_lt_length_level {pos : ℕ} (hp : pos < leaves.length) (k : ℕ) :
    pos / 2 ^ k < (level hash leaves k).length :=
  (Nat.div_lt_iff_lt_mul (Nat.two_pow_pos k)).mpr
    (lt_of_lt_of_le hp (le_length_level_mul hash k))

theorem length_level_pos (hn : 0 < leaves.length) (k : ℕ) : 0 < (level hash leaves k).length :=
  Nat.lt_of_le_of_lt (Nat.zero_le _) (div_two_pow_lt_length_level hash hn k)

/-- A level has a single node once `2^k` covers the leaves. -/
theorem length_level_eq_one_iff (hn : 0 < leaves.length) (k : ℕ) :
    (level hash leaves k).length = 1 ↔ leaves.length ≤ 2 ^ k := by
  constructor
  · intro h
    have : leaves.length ≤ (level hash leaves k).length * 2 ^ k := le_length_level_mul hash k
    rwa [h, Nat.one_mul] at this
  · intro h
    have h1 := length_level_sub_one_mul_lt hash hn k
    have h2 := length_level_pos hash hn k
    have : (level hash leaves k).length - 1 < 1 :=
      Nat.lt_of_mul_lt_mul_right (lt_of_lt_of_le h1 (by rw [Nat.one_mul]; exact h))
    omega

theorem depth_le_iff (hn : 0 < leaves.length) (k : ℕ) :
    depth leaves ≤ k ↔ (level hash leaves k).length = 1 := by
  rw [length_level_eq_one_iff hash hn, depth, Nat.clog_le_iff_le_pow (by norm_num)]

theorem length_level_depth (hn : 0 < leaves.length) :
    (level hash leaves (depth leaves)).length = 1 :=
  (depth_le_iff hash hn _).mp le_rfl

/-- At a level whose nodes cover whole blocks of `2^k` leaves there are `n / 2^k` nodes. -/
theorem length_level_of_eq_mul {q k : ℕ} (h : leaves.length = q * 2 ^ k) :
    (level hash leaves k).length = q := by
  rw [length_level, h, show q * 2 ^ k + 2 ^ k - 1 = (2 ^ k - 1) + q * 2 ^ k by
      have := Nat.two_pow_pos k
      omega,
    Nat.add_mul_div_right _ _ (Nat.two_pow_pos k), Nat.div_eq_of_lt (by
      have := Nat.two_pow_pos k
      omega), Nat.zero_add]

/-- Below `2^e` leaves, the nodes of level `k` cover at most `2^e` leaf positions. -/
theorem length_level_mul_le {e k : ℕ} (he : leaves.length ≤ 2 ^ e) (hk : k ≤ e) :
    (level hash leaves k).length * 2 ^ k ≤ 2 ^ e := by
  rcases Nat.eq_zero_or_pos leaves.length with h0 | hn
  · rw [length_level, h0, Nat.zero_add, Nat.div_eq_of_lt (by have := Nat.two_pow_pos k; omega),
      Nat.zero_mul]
    exact Nat.zero_le _
  · have h1 := length_level_sub_one_mul_lt hash hn k
    rw [← Nat.pow_sub_mul_pow 2 hk] at he
    have : (level hash leaves k).length - 1 < 2 ^ (e - k) :=
      Nat.lt_of_mul_lt_mul_right (lt_of_lt_of_le h1 he)
    calc (level hash leaves k).length * 2 ^ k ≤ 2 ^ (e - k) * 2 ^ k :=
          Nat.mul_le_mul_right _ (by omega)
      _ = 2 ^ e := Nat.pow_sub_mul_pow 2 hk

end Length

/-! ### Nodes, siblings and branches -/

section Nodes

variable [Inhabited α]

/-- Node `j` of level `k`. -/
def node (leaves : List α) (k j : ℕ) : α :=
  (level hash leaves k).getD j default

/-- The root: the single node of the top level. -/
def root (leaves : List α) : α :=
  node hash leaves (depth leaves) 0

/-- The node that node `i` of level `k` is hashed with: its left neighbour at an odd index,
its right neighbour at an even one, and itself at the end of an odd level. -/
def sibling (leaves : List α) (k i : ℕ) : α :=
  if i % 2 = 1 then node hash leaves k (i - 1)
  else if i + 1 < (level hash leaves k).length then node hash leaves k (i + 1)
  else node hash leaves k i

/-- The branch of leaf `pos` up to level `d`: the sibling of its ancestor at each level. -/
def branch (leaves : List α) (pos d : ℕ) : List α :=
  (List.range d).map fun k => sibling hash leaves k (pos / 2 ^ k)

variable {leaves : List α}

@[simp] theorem node_zero (j : ℕ) : node hash leaves 0 j = leaves.getD j default := rfl

theorem node_succ_of_lt {k j : ℕ} (h : 2 * j + 1 < (level hash leaves k).length) :
    node hash leaves (k + 1) j =
      hash (node hash leaves k (2 * j)) (node hash leaves k (2 * j + 1)) :=
  getD_pairUp_of_lt hash h

/-- Bitcoin's rule for an odd level: its last node is hashed with itself. -/
theorem node_succ_of_eq {k j : ℕ} (h : 2 * j + 1 = (level hash leaves k).length) :
    node hash leaves (k + 1) j =
      hash (node hash leaves k (2 * j)) (node hash leaves k (2 * j)) :=
  getD_pairUp_of_eq hash h

theorem sibling_of_odd {k i : ℕ} (hi : i % 2 = 1) :
    sibling hash leaves k i = node hash leaves k (i - 1) := by
  simp [sibling, hi]

theorem sibling_of_even_of_lt {k i : ℕ} (hi : i % 2 = 0)
    (hlt : i + 1 < (level hash leaves k).length) :
    sibling hash leaves k i = node hash leaves k (i + 1) := by
  simp [sibling, hi, hlt]

theorem sibling_of_even_of_eq {k i : ℕ} (hi : i % 2 = 0)
    (heq : i + 1 = (level hash leaves k).length) :
    sibling hash leaves k i = node hash leaves k i := by
  simp [sibling, hi, heq]

/-- One level of a fold: a node hashed with its sibling, on the side the parity of its index
gives, is its parent. -/
theorem hash_sibling {k i : ℕ} (hi : i < (level hash leaves k).length) :
    (if i % 2 = 1 then hash (sibling hash leaves k i) (node hash leaves k i)
      else hash (node hash leaves k i) (sibling hash leaves k i)) =
      node hash leaves (k + 1) (i / 2) := by
  rcases Nat.mod_two_eq_zero_or_one i with h0 | h1
  · rw [if_neg (by omega)]
    by_cases hlt : i + 1 < (level hash leaves k).length
    · rw [sibling_of_even_of_lt hash h0 hlt, node_succ_of_lt hash (by omega),
        show 2 * (i / 2) = i by omega]
    · rw [sibling_of_even_of_eq hash h0 (by omega), node_succ_of_eq hash (by omega),
        show 2 * (i / 2) = i by omega]
  · rw [if_pos h1, sibling_of_odd hash h1, node_succ_of_lt hash (by omega),
      show 2 * (i / 2) = i - 1 by omega, show i - 1 + 1 = i by omega]

theorem length_branch (pos d : ℕ) : (branch hash leaves pos d).length = d := by
  simp [branch]

theorem branch_zero (pos : ℕ) : branch hash leaves pos 0 = [] := rfl

theorem branch_succ (pos d : ℕ) :
    branch hash leaves pos (d + 1) =
      branch hash leaves pos d ++ [sibling hash leaves d (pos / 2 ^ d)] := by
  simp [branch, List.range_succ]

/-- Folding the branch from level `k` on, for `d` levels, climbs from the ancestor of the leaf
at level `k` to its ancestor at level `k + d`. -/
theorem computeMerkleRootFromBranch_range' {pos : ℕ} (hp : pos < leaves.length)
    (hp32 : pos < 2 ^ 32) (d : ℕ) :
    ∀ k, computeMerkleRootFromBranch hash (node hash leaves k (pos / 2 ^ k))
        ((List.range' k d).map fun i => sibling hash leaves i (pos / 2 ^ i))
        (pos / 2 ^ k).toUInt32 =
      node hash leaves (k + d) (pos / 2 ^ (k + d)) := by
  induction d with
  | zero => intro k; rfl
  | succ d ih =>
    intro k
    have hk32 : (pos / 2 ^ k).toUInt32.toNat = pos / 2 ^ k := by
      simp only [Nat.toUInt32_eq, UInt32.toNat_ofNat']
      exact Nat.mod_eq_of_lt (lt_of_le_of_lt (Nat.div_le_self _ _) hp32)
    -- the low bit of `nIndex` is the parity of the ancestor's index
    have hbit : ((pos / 2 ^ k).toUInt32 &&& 1 != 0) = decide (pos / 2 ^ k % 2 = 1) := by
      rw [Bits.and_one_ne_zero, hk32]
    have hshift : (pos / 2 ^ k).toUInt32 >>> 1 = (pos / 2 ^ (k + 1)).toUInt32 := by
      rw [UInt32.ext_iff, Bits.toNat_shiftRight_one, hk32, ← Bits.div_two_pow_succ]
      simp only [Nat.toUInt32_eq, UInt32.toNat_ofNat']
      exact (Nat.mod_eq_of_lt (lt_of_le_of_lt (Nat.div_le_self _ _) hp32)).symm
    rw [List.range'_succ, List.map_cons, computeMerkleRootFromBranch, hbit, hshift]
    simp only [decide_eq_true_eq]
    rw [hash_sibling hash (div_two_pow_lt_length_level hash hp k), ← Bits.div_two_pow_succ, ih (k + 1),
      show k + 1 + d = k + (d + 1) by ring]

/-- **The branch folds to the root.** Folding leaf `pos` with its branch as
`ComputeMerkleRootFromBranch` does, the branch entry on the left where the index has its
bit set, gives the root. -/
theorem computeMerkleRootFromBranch_branch {pos : ℕ} (hp : pos < leaves.length)
    (hp32 : pos < 2 ^ 32) :
    computeMerkleRootFromBranch hash (leaves.getD pos default)
        (branch hash leaves pos (depth leaves)) pos.toUInt32 = root hash leaves := by
  have h := computeMerkleRootFromBranch_range' hash hp hp32 (depth leaves) 0
  have hdiv : pos / 2 ^ depth leaves = 0 :=
    Nat.div_eq_of_lt (lt_of_lt_of_le hp (Nat.le_pow_clog (by norm_num) _))
  rw [Nat.zero_add, hdiv, ← List.range_eq_range'] at h
  simpa [branch, root] using h

end Nodes

/-! ### `ComputeMerkleRoot` refines the tree -/

/-- Some level below the top has an even position holding the same hash as the next one. -/
def mutated [DecidableEq α] (leaves : List α) : Bool :=
  (List.range (depth leaves)).any fun k => hasEqualPair (level hash leaves k)

theorem depth_pairUp {xs : List α} (h : 1 < xs.length) :
    depth (pairUp hash xs) + 1 = depth xs := by
  rw [depth, depth, length_pairUp, Nat.clog_of_two_le (by norm_num) h,
    show xs.length + 2 - 1 = xs.length + 1 by omega]

theorem mutated_of_one_lt [DecidableEq α] {xs : List α} (h : 1 < xs.length) :
    mutated hash xs = (hasEqualPair xs || mutated hash (pairUp hash xs)) := by
  rw [mutated, mutated, ← depth_pairUp hash h, List.range_succ_eq_map, List.any_cons,
    List.any_map]
  simp only [Function.comp_def, level, level_pairUp]

theorem computeMerkleRootLoop_eq [DecidableEq α] (xs : List α) (mutation : Bool) :
    computeMerkleRootLoop hash xs mutation =
      (level hash xs (depth xs), mutation || mutated hash xs) := by
  fun_induction computeMerkleRootLoop hash xs mutation with
  | case1 xs mutation h ih =>
    rw [ih, sha256D64_duplicateOdd, level_pairUp, depth_pairUp hash h,
      mutated_of_one_lt hash h, Bool.or_assoc]
  | case2 xs mutation h =>
    have h0 : depth xs = 0 := Nat.clog_of_right_le_one (by omega) 2
    simp [h0, mutated, level]

/-- **`ComputeMerkleRoot` refines the tree.** It returns the root of the tree and whether some
level below the top holds an even position equal to the next one. -/
theorem computeMerkleRoot_eq [DecidableEq α] [Inhabited α] (leaves : List α) :
    computeMerkleRoot hash leaves = (root hash leaves, mutated hash leaves) := by
  rw [computeMerkleRoot, computeMerkleRootLoop_eq, Bool.false_or, root, node]
  cases level hash leaves (depth leaves) <;> rfl

/-! ### Mutations -/

/-- With an injective `Hash`, one level is determined by the next, unless one of the two lists
has an even position equal to the next one: that is the one way two lists of different lengths
reach one level, a last pair `(x, x)` against a last odd `x`. -/
theorem pairUp_inj [DecidableEq α] (hinj : Function.Injective2 hash) :
    ∀ {xs ys : List α}, pairUp hash xs = pairUp hash ys →
      hasEqualPair xs = false → hasEqualPair ys = false → xs = ys
  | a :: b :: xs, c :: d :: ys, h, hx, hy => by
    simp only [pairUp, List.cons.injEq] at h
    simp only [hasEqualPair, Bool.or_eq_false_iff] at hx hy
    obtain ⟨rfl, rfl⟩ := hinj h.1
    rw [pairUp_inj hinj h.2 hx.2 hy.2]
  | a :: b :: xs, [c], h, hx, _ => by
    simp only [pairUp, List.cons.injEq, pairUp_eq_nil_iff] at h
    obtain ⟨rfl, rfl⟩ := hinj h.1
    simp [hasEqualPair] at hx
  | [a], c :: d :: ys, h, _, hy => by
    simp only [pairUp, List.cons.injEq] at h
    obtain ⟨rfl, rfl⟩ := hinj h.1
    simp [hasEqualPair] at hy
  | [a], [c], h, _, _ => by
    simp only [pairUp, List.cons.injEq, and_true] at h
    rw [(hinj h).1]
  | [], [], _, _, _ => rfl
  | a :: b :: xs, [], h, _, _ => by simp [pairUp] at h
  | [a], [], h, _, _ => by simp [pairUp] at h
  | [], c :: d :: ys, h, _, _ => by simp [pairUp] at h
  | [], [c], h, _, _ => by simp [pairUp] at h

theorem not_hasEqualPair_of_not_mutated [DecidableEq α] {leaves : List α}
    (h : mutated hash leaves = false) {k : ℕ} (hk : k < depth leaves) :
    hasEqualPair (level hash leaves k) = false := by
  simp only [mutated, List.any_eq_false, List.mem_range] at h
  simpa using h k hk

/-- A level of a single node is that node. -/
theorem level_depth_eq [Inhabited α] {leaves : List α} (hn : 0 < leaves.length) :
    level hash leaves (depth leaves) = [root hash leaves] := by
  have h := length_level_depth hash hn
  rw [root, node]
  match hl : level hash leaves (depth leaves), h with
  | [x], _ => rfl

/-- Two unmutated trees of one depth and one root have the same levels, from the top down. -/
theorem level_eq_of_not_mutated [DecidableEq α] [Inhabited α] (hinj : Function.Injective2 hash)
    {L1 L2 : List α} (h1 : 0 < L1.length) (h2 : 0 < L2.length)
    (hdepth : depth L1 = depth L2) (hroot : root hash L1 = root hash L2)
    (hm1 : mutated hash L1 = false) (hm2 : mutated hash L2 = false) :
    ∀ i ≤ depth L1, level hash L1 (depth L1 - i) = level hash L2 (depth L1 - i) := by
  intro i
  induction i with
  | zero =>
    intro _
    rw [Nat.sub_zero, level_depth_eq hash h1, hdepth, level_depth_eq hash h2, hroot]
  | succ i ih =>
    intro hi
    have hk : depth L1 - (i + 1) + 1 = depth L1 - i := by omega
    have hsucc := ih (by omega)
    rw [← hk, level, level] at hsucc
    exact pairUp_inj hash hinj hsucc (not_hasEqualPair_of_not_mutated hash hm1 (by omega))
      (not_hasEqualPair_of_not_mutated hash hm2 (by omega))

/-- Two unmutated trees of one depth and one root have the same leaves. -/
theorem eq_of_not_mutated [DecidableEq α] [Inhabited α] (hinj : Function.Injective2 hash)
    {L1 L2 : List α} (h1 : L1 ≠ []) (h2 : L2 ≠ [])
    (hdepth : Nat.clog 2 L1.length = Nat.clog 2 L2.length) (hroot : root hash L1 = root hash L2)
    (hm1 : mutated hash L1 = false) (hm2 : mutated hash L2 = false) : L1 = L2 := by
  have heq := level_eq_of_not_mutated hash hinj (List.length_pos_iff.mpr h1)
    (List.length_pos_iff.mpr h2) hdepth hroot hm1 hm2 (depth L1) le_rfl
  rwa [Nat.sub_self, level, level] at heq

end MerkleTree

end Tenscoin
