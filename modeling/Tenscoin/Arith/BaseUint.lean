import Mathlib
import Tenscoin.Lib.Limbs
import Tenscoin.Lib.Bits
import Tenscoin.Arith.Divide

/-!
# The limb loops of `base_uint`

`base_uint<BITS>` (`arith_uint256.h`, `arith_uint256.cpp`) holds `WIDTH = BITS / 32` limbs of
32 bits, least significant first. `Tenscoin.Arith.Uint256` models `arith_uint256` by the value
of its limbs, as `BitVec 256`. This module is the level below: the limbs themselves
(`BaseUint`) and the loops of the source over them, each transcribed as it is written: the
shifts OR the parts of every limb into one or two limbs of a zeroed copy, the products and the
sum run a carry through a 64-bit accumulator, `bits` scans down from the top limb, `CompareTo`
compares from the top limb down, and `operator/=` aligns, compares, subtracts and shifts
back.

Each loop computes the operation on values, modulo `2 ^ (32 * WIDTH)` where the source
wraps:

* `toNat_shiftLeft`, `toNat_shiftRight`: bit by bit, through `Limbs.testBit_value`;
* `toNat_mulUInt32`, `toNat_add`, `toNat_mul`: by `Limbs.value_carryChain`, the product's
  rows added one at a time from limb `j` up (`toNat_mulRow`);
* `bits_eq_size`: the top non-zero limb and its top set bit give the size of the value;
* `compareTo_eq`, `toNat_sub`, `toNat_setBit`, and from them `divide_toBitVec`: for
  `arith_uint256` (`WIDTH = 8`) the long division of the limbs is the long division
  `ArithUint256.longDivide` of the model above, step by step.
-/

namespace Tenscoin

open Limbs

/-- `base_uint<BITS>`: `WIDTH` limbs `pn` of 32 bits, least significant first. -/
structure BaseUint (WIDTH : ℕ) where
  pn : List UInt32
  length_pn : pn.length = WIDTH

namespace BaseUint

variable {WIDTH : ℕ}

/-- The number the limbs stand for. -/
def toNat (a : BaseUint WIDTH) : ℕ := Limbs.value a.pn

/-- The number the limbs stand for, as a word of `32 * WIDTH` bits. -/
def toBitVec (a : BaseUint WIDTH) : BitVec (32 * WIDTH) := BitVec.ofNat _ a.toNat

/-- `base_uint()`: every limb zero. -/
def zero : BaseUint WIDTH := ⟨List.replicate WIDTH 0, List.length_replicate⟩

/-! ### Reading the limbs -/

theorem toNat_lt (a : BaseUint WIDTH) : a.toNat < 2 ^ (32 * WIDTH) := by
  have h := value_lt a.pn
  rwa [a.length_pn] at h

theorem toNat_toBitVec (a : BaseUint WIDTH) : a.toBitVec.toNat = a.toNat := by
  rw [toBitVec, BitVec.toNat_ofNat, Nat.mod_eq_of_lt (toNat_lt a)]

/-- A limb past the top reads as zero. -/
theorem getD_of_le (a : BaseUint WIDTH) {i : ℕ} (h : WIDTH ≤ i) : a.pn.getD i 0 = 0 :=
  List.getD_eq_default _ _ (by rw [a.length_pn]; exact h)

/-- Limbs hold `N` modulo their width when each of their bits is the bit of `N` at its place. -/
theorem toNat_eq_of_testBit {c : BaseUint WIDTH} {N : ℕ}
    (h : ∀ t < 32 * WIDTH, (c.pn.getD (t / 32) 0).toNat.testBit (t % 32) = N.testBit t) :
    c.toNat = N % 2 ^ (32 * WIDTH) := by
  have hc := value_eq_of_testBit (l := c.pn) (N := N) (by rw [c.length_pn]; exact h)
  rwa [c.length_pn] at hc

@[simp] theorem toNat_zero : (zero : BaseUint WIDTH).toNat = 0 := value_replicate_zero WIDTH

/-! ### Shifts -/

/-- Round `i` of the loop of `operator<<=` on a copy `a` of the limbs: the low bits of `a[i]`
are ORed into limb `i + k`, its high bits into limb `i + k + 1`. -/
def shiftLeftStep (a : List UInt32) (WIDTH k : ℕ) (shift : UInt32) (pn : List UInt32) (i : ℕ) :
    List UInt32 :=
  let pn := if i + k + 1 < WIDTH ∧ shift ≠ 0 then
    pn.modify (i + k + 1) (· ||| a.getD i 0 >>> (32 - shift)) else pn
  if i + k < WIDTH then pn.modify (i + k) (· ||| a.getD i 0 <<< shift) else pn

/-- Round `i` of the loop of `operator>>=`: the high bits of `a[i]` are ORed into limb `i - k`,
its low bits into limb `i - k - 1`, when these are limbs (`i - k - 1 >= 0` in the source). -/
def shiftRightStep (a : List UInt32) (k : ℕ) (shift : UInt32) (pn : List UInt32) (i : ℕ) :
    List UInt32 :=
  let pn := if k + 1 ≤ i ∧ shift ≠ 0 then
    pn.modify (i - k - 1) (· ||| a.getD i 0 <<< (32 - shift)) else pn
  if k ≤ i then pn.modify (i - k) (· ||| a.getD i 0 >>> shift) else pn

theorem length_shiftLeftStep (a : List UInt32) (k : ℕ) (shift : UInt32) (pn : List UInt32)
    (i : ℕ) : (shiftLeftStep a WIDTH k shift pn i).length = pn.length := by
  unfold shiftLeftStep
  split_ifs <;> simp

theorem length_shiftRightStep (a : List UInt32) (k : ℕ) (shift : UInt32) (pn : List UInt32)
    (i : ℕ) : (shiftRightStep a k shift pn i).length = pn.length := by
  unfold shiftRightStep
  split_ifs <;> simp

/-- `base_uint::operator<<=`: with `k = shift / 32` whole limbs and `shift % 32` bits. -/
def shiftLeft (a : BaseUint WIDTH) (shift : UInt32) : BaseUint WIDTH :=
  ⟨(List.range WIDTH).foldl (shiftLeftStep a.pn WIDTH (shift / 32).toNat (shift % 32))
      (List.replicate WIDTH 0),
    by rw [length_foldl (length_shiftLeftStep _ _ _), List.length_replicate]⟩

/-- `base_uint::operator>>=`. -/
def shiftRight (a : BaseUint WIDTH) (shift : UInt32) : BaseUint WIDTH :=
  ⟨(List.range WIDTH).foldl (shiftRightStep a.pn (shift / 32).toNat (shift % 32))
      (List.replicate WIDTH 0),
    by rw [length_foldl (length_shiftRightStep _ _ _), List.length_replicate]⟩

/-! #### The shifts compute on values -/

theorem getD_shiftLeftStep (a : List UInt32) (k : ℕ) (shift : UInt32) {pn : List UInt32}
    (hpn : pn.length = WIDTH) (i : ℕ) {j : ℕ} (hj : j < WIDTH) :
    (shiftLeftStep a WIDTH k shift pn i).getD j 0 =
      pn.getD j 0 ||| (if (i + k + 1 < WIDTH ∧ shift ≠ 0) ∧ i + k + 1 = j then
        a.getD i 0 >>> (32 - shift) else 0) |||
        (if i + k < WIDTH ∧ i + k = j then a.getD i 0 <<< shift else 0) := by
  have hj' : j < (if i + k + 1 < WIDTH ∧ shift ≠ 0 then
      pn.modify (i + k + 1) (· ||| a.getD i 0 >>> (32 - shift)) else pn).length := by
    split_ifs <;> simp [hpn, hj]
  rw [shiftLeftStep, getD_orIf _ _ _ _ hj', getD_orIf _ _ _ _ (hpn ▸ hj)]

/-- The limbs after the first `n` rounds of `operator<<=`: limb `j` holds the parts of
`a[j - k - 1]` and `a[j - k]` written so far. -/
theorem getD_shiftLeft_loop (a : List UInt32) (k : ℕ) (shift : UInt32) (n : ℕ) {j : ℕ}
    (hj : j < WIDTH) :
    ((List.range n).foldl (shiftLeftStep a WIDTH k shift) (List.replicate WIDTH 0)).getD j 0 =
      (if k + 1 ≤ j ∧ j < n + k + 1 ∧ 0 < shift.toNat then a.getD (j - k - 1) 0 >>> (32 - shift)
        else 0) |||
      (if k ≤ j ∧ j < n + k then a.getD (j - k) 0 <<< shift else 0) := by
  induction n with
  | zero =>
    rw [if_neg (by omega), if_neg (by omega), List.range_zero, List.foldl_nil,
      List.getD_eq_getElem?_getD, List.getElem?_replicate]
    rw [if_pos hj]
    rfl
  | succ n ih =>
    have hlen : ((List.range n).foldl (shiftLeftStep a WIDTH k shift)
        (List.replicate WIDTH 0)).length = WIDTH := by
      rw [length_foldl (length_shiftLeftStep a k shift), List.length_replicate]
    rw [List.range_succ, List.foldl_append, List.foldl_cons, List.foldl_nil,
      getD_shiftLeftStep a k shift hlen n hj, ih]
    simp only [ne_zero_iff]
    -- round `n` writes limbs `n + k + 1` and `n + k`; every other limb keeps its parts
    rcases (show j = n + k + 1 ∨ j = n + k ∨ (j ≠ n + k + 1 ∧ j ≠ n + k) by omega)
      with rfl | rfl | ⟨h1, h2⟩
    · simp (disch := omega) only [if_neg, and_true, UInt32.or_zero, UInt32.zero_or,
        show n + k + 1 - k - 1 = n by omega]
      split_ifs <;> first | rfl | omega
    · simp (disch := omega) only [if_neg, and_true, UInt32.or_zero, show n + k - k = n by omega]
      split_ifs <;> first | rfl | omega
    · simp (disch := omega) only [if_neg, UInt32.or_zero]
      split_ifs <;> first | rfl | omega

/-- Limb `j` of `a << shift`: the high bits of `a[j - k - 1]` and the low bits of `a[j - k]`,
for `k = shift / 32` whole limbs. -/
theorem getD_shiftLeft (a : BaseUint WIDTH) (shift : UInt32) {j : ℕ} (hj : j < WIDTH) :
    (a.shiftLeft shift).pn.getD j 0 =
      (if (shift / 32).toNat + 1 ≤ j ∧ 0 < (shift % 32).toNat then
        a.pn.getD (j - (shift / 32).toNat - 1) 0 >>> (32 - shift % 32) else 0) |||
      (if (shift / 32).toNat ≤ j then a.pn.getD (j - (shift / 32).toNat) 0 <<< (shift % 32)
        else 0) := by
  rw [shiftLeft, getD_shiftLeft_loop _ _ _ _ hj]
  simp only [show j < WIDTH + (shift / 32).toNat + 1 by omega,
    show j < WIDTH + (shift / 32).toNat by omega, true_and, and_true]

/-- **`operator<<=` multiplies by `2 ^ shift`**, dropping the bits past the top limb. -/
theorem toNat_shiftLeft (a : BaseUint WIDTH) (shift : UInt32) :
    (a.shiftLeft shift).toNat = a.toNat * 2 ^ shift.toNat % 2 ^ (32 * WIDTH) := by
  refine toNat_eq_of_testBit fun t ht => ?_
  rw [getD_shiftLeft a shift (j := t / 32) (by omega), UInt32.toNat_or, Nat.testBit_or,
    testBit_ite, testBit_ite, testBit_shiftRight, testBit_shiftLeft, Nat.testBit_mul_two_pow,
    toNat, testBit_value, toNat_mod_32, toNat_sub_mod_32, toNat_div_32]
  simp only [← Bool.and_assoc, ← Bool.decide_and, Nat.mod_mod]
  -- bit `t % 32` of limb `t / 32` comes from limb `k` or `k + 1` below, by whether it is below
  -- the bit shift
  by_cases hb : shift.toNat % 32 ≤ t % 32
  · rw [decide_eq_false (by omega), Bool.false_and, Bool.false_or]
    by_cases hkj : shift.toNat / 32 ≤ t / 32
    · rw [decide_eq_true (by omega), decide_eq_true (by omega), Bool.true_and, Bool.true_and,
        show (t - shift.toNat) / 32 = t / 32 - shift.toNat / 32 by omega,
        show (t - shift.toNat) % 32 = t % 32 - shift.toNat % 32 by omega]
    · rw [decide_eq_false (by omega), decide_eq_false (by omega), Bool.false_and, Bool.false_and]
  · rw [decide_eq_false (by omega : ¬(shift.toNat / 32 ≤ t / 32 ∧ t % 32 < 32 ∧
      shift.toNat % 32 ≤ t % 32)), Bool.false_and, Bool.or_false]
    by_cases hkj : shift.toNat / 32 + 1 ≤ t / 32
    · rw [decide_eq_true (by omega), decide_eq_true (by omega), Bool.true_and, Bool.true_and,
        show (t - shift.toNat) / 32 = t / 32 - shift.toNat / 32 - 1 by omega,
        show (t - shift.toNat) % 32 = t % 32 + (32 - shift.toNat % 32) % 32 by omega]
    · rw [decide_eq_false (by omega), decide_eq_false (by omega), Bool.false_and, Bool.false_and]

theorem getD_shiftRightStep (a : List UInt32) (k : ℕ) (shift : UInt32) {pn : List UInt32}
    (i : ℕ) {j : ℕ} (hj : j < pn.length) :
    (shiftRightStep a k shift pn i).getD j 0 =
      pn.getD j 0 ||| (if (k + 1 ≤ i ∧ shift ≠ 0) ∧ i - k - 1 = j then
        a.getD i 0 <<< (32 - shift) else 0) |||
        (if k ≤ i ∧ i - k = j then a.getD i 0 >>> shift else 0) := by
  have hj' : j < (if k + 1 ≤ i ∧ shift ≠ 0 then
      pn.modify (i - k - 1) (· ||| a.getD i 0 <<< (32 - shift)) else pn).length := by
    split_ifs <;> simp [hj]
  rw [shiftRightStep, getD_orIf _ _ _ _ hj', getD_orIf _ _ _ _ hj]

/-- The limbs after the first `n` rounds of `operator>>=`: limb `j` holds the parts of
`a[j + k]` and `a[j + k + 1]` written so far. -/
theorem getD_shiftRight_loop (a : List UInt32) (k : ℕ) (shift : UInt32) (n : ℕ) {j : ℕ}
    (hj : j < WIDTH) :
    ((List.range n).foldl (shiftRightStep a k shift) (List.replicate WIDTH 0)).getD j 0 =
      (if j + k < n then a.getD (j + k) 0 >>> shift else 0) |||
      (if j + k + 1 < n ∧ 0 < shift.toNat then a.getD (j + k + 1) 0 <<< (32 - shift) else 0) := by
  induction n with
  | zero =>
    rw [if_neg (by omega), if_neg (by omega), List.range_zero, List.foldl_nil,
      List.getD_eq_getElem?_getD, List.getElem?_replicate]
    rw [if_pos hj]
    rfl
  | succ n ih =>
    have hlen : ((List.range n).foldl (shiftRightStep a k shift)
        (List.replicate WIDTH 0)).length = WIDTH := by
      rw [length_foldl (length_shiftRightStep a k shift), List.length_replicate]
    rw [List.range_succ, List.foldl_append, List.foldl_cons, List.foldl_nil,
      getD_shiftRightStep a k shift n (by rw [hlen]; exact hj), ih]
    simp only [ne_zero_iff]
    -- round `n` writes limbs `n - k - 1` and `n - k`; every other limb keeps its parts
    rcases (show n = j + k + 1 ∨ n = j + k ∨ (n ≠ j + k + 1 ∧ n ≠ j + k) by omega)
      with rfl | rfl | ⟨h1, h2⟩
    · simp (disch := omega) only [if_pos, if_neg, and_true, UInt32.or_zero,
        show j + k + 1 - k - 1 = j by omega]
      split_ifs <;> first | rfl | omega
    · simp (disch := omega) only [if_pos, if_neg, and_true, UInt32.or_zero, UInt32.zero_or,
        show j + k - k = j by omega]
    · simp (disch := omega) only [if_neg, UInt32.or_zero]
      split_ifs <;> first | rfl | omega

example : (BaseUint.shiftLeft (⟨[0x80000001, 1], rfl⟩ : BaseUint 2) 33).pn = [0, 2] := by
  decide

/-- Limb `j` of `a >> shift`: the high bits of `a[j + k]` and the low bits of `a[j + k + 1]`,
for `k = shift / 32` whole limbs. -/
theorem getD_shiftRight (a : BaseUint WIDTH) (shift : UInt32) {j : ℕ} (hj : j < WIDTH) :
    (a.shiftRight shift).pn.getD j 0 =
      a.pn.getD (j + (shift / 32).toNat) 0 >>> (shift % 32) |||
      (if 0 < (shift % 32).toNat then
        a.pn.getD (j + (shift / 32).toNat + 1) 0 <<< (32 - shift % 32) else 0) := by
  rw [shiftRight, getD_shiftRight_loop _ _ _ _ hj]
  -- a limb past the top reads as zero, as the source never reads it
  congr 1
  · split_ifs with h
    · rfl
    · rw [getD_of_le a (by omega), UInt32.zero_shiftRight]
  · by_cases h : j + (shift / 32).toNat + 1 < WIDTH
    · simp only [h, true_and]
    · simp only [h, false_and, getD_of_le a (not_lt.mp h), UInt32.zero_shiftLeft,
        ite_self]

/-- **`operator>>=` divides by `2 ^ shift`**, rounding down. -/
theorem toNat_shiftRight (a : BaseUint WIDTH) (shift : UInt32) :
    (a.shiftRight shift).toNat = a.toNat / 2 ^ shift.toNat := by
  have hlt : a.toNat / 2 ^ shift.toNat < 2 ^ (32 * WIDTH) :=
    lt_of_le_of_lt (Nat.div_le_self _ _) (toNat_lt a)
  rw [← Nat.mod_eq_of_lt hlt]
  refine toNat_eq_of_testBit fun t ht => ?_
  rw [getD_shiftRight a shift (j := t / 32) (by omega), UInt32.toNat_or, Nat.testBit_or,
    testBit_ite, testBit_shiftRight, testBit_shiftLeft, Nat.testBit_div_two_pow, toNat,
    testBit_value, toNat_mod_32, toNat_sub_mod_32, toNat_div_32]
  simp only [← Bool.and_assoc, ← Bool.decide_and, Nat.mod_mod]
  -- bit `t % 32` of limb `t / 32` comes from limb `k` or `k + 1` above, by whether the bit
  -- shift carries it past the limb
  by_cases hb : t % 32 + shift.toNat % 32 < 32
  · rw [decide_eq_true hb, decide_eq_false (by omega), Bool.false_and, Bool.or_false,
      Bool.true_and, show (t + shift.toNat) / 32 = t / 32 + shift.toNat / 32 by omega,
      show (t + shift.toNat) % 32 = t % 32 + shift.toNat % 32 by omega]
  · rw [decide_eq_false hb, decide_eq_true (by omega), Bool.false_and, Bool.false_or,
      Bool.true_and, show (t + shift.toNat) / 32 = t / 32 + shift.toNat / 32 + 1 by omega,
      show (t + shift.toNat) % 32 = t % 32 - (32 - shift.toNat % 32) % 32 by omega]

/-! ### Products and sums -/

/-- `base_uint::operator*=(uint32_t)`. -/
def mulUInt32 (a : BaseUint WIDTH) (b32 : UInt32) : BaseUint WIDTH :=
  ⟨carryChain (fun carry x _ => carry + b32.toUInt64 * x.toUInt64) a.pn [] 0,
    by rw [length_carryChain, a.length_pn]⟩

/-- Round `j` of `base_uint::operator*=(const base_uint&)` on the product `a` so far: the inner
loop adds `pn[j] * b` into `a` from limb `j` up, while `i + j < WIDTH`. -/
def mulRow (pnj : UInt32) (b a : List UInt32) (j : ℕ) : List UInt32 :=
  a.take j ++
    carryChain (fun carry x y => carry + x.toUInt64 + pnj.toUInt64 * y.toUInt64) (a.drop j) b 0

theorem length_mulRow (pnj : UInt32) (b a : List UInt32) (j : ℕ) :
    (mulRow pnj b a j).length = a.length := by
  rw [mulRow, List.length_append, length_carryChain, List.length_take, List.length_drop]
  omega

/-- `base_uint::operator*=(const base_uint&)`: the schoolbook product, row by row. -/
def mul (a b : BaseUint WIDTH) : BaseUint WIDTH :=
  ⟨(List.range WIDTH).foldl (fun acc j => mulRow (a.pn.getD j 0) b.pn acc j)
      (List.replicate WIDTH 0),
    by rw [length_foldl (fun acc j => length_mulRow _ _ acc j), List.length_replicate]⟩

/-- `base_uint::operator+=`. -/
def add (a b : BaseUint WIDTH) : BaseUint WIDTH :=
  ⟨carryChain (fun carry x y => carry + x.toUInt64 + y.toUInt64) a.pn b.pn 0,
    by rw [length_carryChain, a.length_pn]⟩

/-- `base_uint::operator~`. -/
def complement (a : BaseUint WIDTH) : BaseUint WIDTH :=
  ⟨a.pn.map (~~~ ·), by rw [List.length_map, a.length_pn]⟩

/-- The loop of the prefix `base_uint::operator++`: add one to a limb, and go on to the next
one while the limb wraps to zero. -/
def incrementLoop : List UInt32 → List UInt32
  | [] => []
  | x :: xs => (x + 1) :: if x + 1 = 0 then incrementLoop xs else xs

theorem length_incrementLoop (l : List UInt32) : (incrementLoop l).length = l.length := by
  induction l with
  | nil => rfl
  | cons x xs ih =>
    rw [incrementLoop, List.length_cons, List.length_cons]
    split_ifs
    · rw [ih]
    · rfl

/-- The prefix `base_uint::operator++`. -/
def increment (a : BaseUint WIDTH) : BaseUint WIDTH :=
  ⟨incrementLoop a.pn, by rw [length_incrementLoop, a.length_pn]⟩

/-- The unary `base_uint::operator-`: `~`, then `++`. -/
def neg (a : BaseUint WIDTH) : BaseUint WIDTH := increment (complement a)

/-- `base_uint::operator-=`: `*this += -b`. -/
def sub (a b : BaseUint WIDTH) : BaseUint WIDTH := add a (neg b)

/-! #### The products and sums compute on values -/

/-- **`operator*=(uint32_t)` multiplies**, keeping the low `32 * WIDTH` bits. -/
theorem toNat_mulUInt32 (a : BaseUint WIDTH) (b32 : UInt32) :
    (a.mulUInt32 b32).toNat = a.toNat * b32.toNat % 2 ^ (32 * WIDTH) := by
  have h := value_carryChain (fun x _ => b32.toNat * x.toNat)
    (fun carry x _ hc => toNat_add_mul_word hc b32 x) a.pn [] 0 (by decide)
  rw [termSum_mul, a.length_pn, UInt64.toNat_zero, Nat.zero_add] at h
  rw [toNat, mulUInt32, h, toNat, Nat.mul_comm]

/-- **`operator+=` adds**, keeping the low `32 * WIDTH` bits. -/
theorem toNat_add (a b : BaseUint WIDTH) :
    (a.add b).toNat = (a.toNat + b.toNat) % 2 ^ (32 * WIDTH) := by
  have h := value_carryChain (fun x y => x.toNat + 1 * y.toNat)
    (fun carry x y hc => by rw [toNat_add_add_word hc, Nat.one_mul, Nat.add_assoc]) a.pn b.pn 0
    (by decide)
  rw [termSum_add_mul, a.length_pn, List.take_of_length_le b.length_pn.le, Nat.one_mul,
    UInt64.toNat_zero, Nat.zero_add] at h
  rw [toNat, add, h, toNat, toNat]

/-- **One row of the product** adds `pn[j] * b`, shifted to limb `j`, modulo the width. -/
theorem value_mulRow (pnj : UInt32) {b a : List UInt32} (ha : a.length = WIDTH) {j : ℕ}
    (hj : j ≤ WIDTH) :
    value (mulRow pnj b a j) =
      (value a + 2 ^ (32 * j) * (pnj.toNat * value b)) % 2 ^ (32 * WIDTH) := by
  set P := 2 ^ (32 * j)
  set Q := 2 ^ (32 * (WIDTH - j))
  have hrow := value_carryChain (fun x y => x.toNat + pnj.toNat * y.toNat)
    (fun carry x y hc => by rw [toNat_add_add_mul_word hc, Nat.add_assoc]) (a.drop j) b 0
    (by decide)
  rw [termSum_add_mul, List.length_drop, ha, UInt64.toNat_zero, Nat.zero_add, value_take] at hrow
  have hlow : value (a.take j) < P := by
    rw [value_take]
    exact Nat.mod_lt _ (by positivity)
  have hsplit : value a = value (a.take j) + P * value (a.drop j) := by
    conv_lhs => rw [← List.take_append_drop j a]
    rw [value_append, List.length_take_of_le (by omega)]
  have hwidth : 2 ^ (32 * WIDTH) = P * Q := by
    rw [← pow_add, ← Nat.mul_add, Nat.add_sub_cancel' hj]
  -- the sum, split at limb `j`: the limbs below are untouched
  have hmod : (value a + P * (pnj.toNat * value b)) % (P * Q) =
      value (a.take j) + P * ((value (a.drop j) + pnj.toNat * value b) % Q) := by
    rw [hsplit, Nat.add_assoc, ← Nat.mul_add, Nat.mod_mul, Nat.add_mul_mod_self_left,
      Nat.mod_eq_of_lt hlow, Nat.add_mul_div_left _ _ (by positivity), Nat.div_eq_of_lt hlow,
      Nat.zero_add]
  rw [mulRow, value_append, List.length_take_of_le (by omega), hrow, hwidth, hmod]
  -- the limbs of `b` past the row do not count modulo what is left of the width
  congr 2
  rw [Nat.add_mod, Nat.mul_mod, Nat.mod_mod, ← Nat.mul_mod, ← Nat.add_mod]

/-- **`operator*=` multiplies**, keeping the low `32 * WIDTH` bits: after the rows below `n` the
product holds the limbs of `a` below `n` times `b`. -/
theorem toNat_mul (a b : BaseUint WIDTH) :
    (a.mul b).toNat = a.toNat * b.toNat % 2 ^ (32 * WIDTH) := by
  have hrows : ∀ n ≤ WIDTH, value ((List.range n).foldl
      (fun acc j => mulRow (a.pn.getD j 0) b.pn acc j) (List.replicate WIDTH 0)) =
      value (a.pn.take n) * b.toNat % 2 ^ (32 * WIDTH) := by
    intro n hn
    induction n with
    | zero => simp
    | succ n ih =>
      have hlen : ((List.range n).foldl (fun acc j => mulRow (a.pn.getD j 0) b.pn acc j)
          (List.replicate WIDTH 0)).length = WIDTH := by
        rw [length_foldl (fun acc j => length_mulRow _ _ acc j), List.length_replicate]
      rw [List.range_succ, List.foldl_append, List.foldl_cons, List.foldl_nil,
        value_mulRow _ hlen (by omega), ih (by omega), value_take_succ,
        Nat.mod_add_mod, toNat]
      congr 1
      ring
  rw [toNat, mul, hrows WIDTH le_rfl, List.take_of_length_le a.length_pn.le]
  rfl

/-- **`~` complements** within the width. -/
theorem toNat_complement (a : BaseUint WIDTH) :
    a.complement.toNat = 2 ^ (32 * WIDTH) - 1 - a.toNat := by
  rw [toNat, complement, value_map_not, a.length_pn]
  rfl

theorem value_incrementLoop (l : List UInt32) :
    value (incrementLoop l) = (value l + 1) % 2 ^ (32 * l.length) := by
  induction l with
  | nil => rfl
  | cons x xs ih =>
    have hx := x.toNat_lt
    have hxs := value_lt xs
    have hpow : 2 ^ (32 * (x :: xs).length) = 2 ^ 32 * 2 ^ (32 * xs.length) := by
      rw [List.length_cons, Nat.mul_succ, Nat.add_comm (32 * xs.length), pow_add]
    rw [incrementLoop, value_cons, value_cons, hpow]
    by_cases hwrap : x + 1 = 0
    · -- the limb was all ones: it wraps to zero and the one is carried on
      have hx1 : x.toNat = 2 ^ 32 - 1 := by
        have h := congrArg UInt32.toNat hwrap
        rw [UInt32.toNat_add, UInt32.toNat_one, UInt32.toNat_zero] at h
        omega
      have hsum : x.toNat + 2 ^ 32 * value xs + 1 = 2 ^ 32 * (value xs + 1) := by omega
      rw [if_pos hwrap, hwrap, ih, UInt32.toNat_zero, Nat.zero_add, hsum, Nat.mul_mod_mul_left]
    · -- no wrap: the sum is below the width
      have hx1 : (x + 1).toNat = x.toNat + 1 := by
        have h : (x + 1).toNat ≠ 0 := fun h => hwrap (UInt32.toNat_inj.mp h)
        rw [UInt32.toNat_add, UInt32.toNat_one] at h ⊢
        rw [Nat.mod_eq_of_lt (by omega)]
      rw [if_neg hwrap, hx1, Nat.mod_eq_of_lt]
      · omega
      · have : x.toNat + 1 ≤ 2 ^ 32 - 1 := by
          have h : (x + 1).toNat < 2 ^ 32 := (x + 1).toNat_lt
          omega
        calc x.toNat + 2 ^ 32 * value xs + 1 ≤ 2 ^ 32 - 1 + 2 ^ 32 * value xs := by omega
          _ < 2 ^ 32 * (value xs + 1) := by omega
          _ ≤ 2 ^ 32 * 2 ^ (32 * xs.length) := Nat.mul_le_mul_left _ hxs

/-- **`++` adds one**, wrapping at the top. -/
theorem toNat_increment (a : BaseUint WIDTH) :
    a.increment.toNat = (a.toNat + 1) % 2 ^ (32 * WIDTH) := by
  rw [toNat, increment, value_incrementLoop, a.length_pn]
  rfl

/-- **The unary `-` negates** modulo `2 ^ (32 * WIDTH)`. -/
theorem toNat_neg (a : BaseUint WIDTH) :
    a.neg.toNat = (2 ^ (32 * WIDTH) - a.toNat) % 2 ^ (32 * WIDTH) := by
  have ha := toNat_lt a
  rw [neg, toNat_increment, toNat_complement]
  congr 1
  omega

/-- **`-=` subtracts** modulo `2 ^ (32 * WIDTH)`. -/
theorem toNat_sub (a b : BaseUint WIDTH) :
    (a.sub b).toNat = (2 ^ (32 * WIDTH) - b.toNat + a.toNat) % 2 ^ (32 * WIDTH) := by
  rw [sub, toNat_add, toNat_neg, Nat.add_mod_mod, Nat.add_comm]

/-! ### Comparison and the highest bit -/

/-- The loop of `base_uint::CompareTo` over the limbs below `i`, from the top. -/
def compareLoop (a b : List UInt32) : ℕ → ℤ
  | 0 => 0
  | i + 1 =>
    if a.getD i 0 < b.getD i 0 then -1
    else if a.getD i 0 > b.getD i 0 then 1
    else compareLoop a b i

/-- `base_uint::CompareTo`: `-1`, `0` or `1`. -/
def compareTo (a b : BaseUint WIDTH) : ℤ := compareLoop a.pn b.pn WIDTH

/-- `operator>=`: `a.CompareTo(b) >= 0`. -/
def ge (a b : BaseUint WIDTH) : Bool := decide (a.compareTo b ≥ 0)

/-- The inner loop of `base_uint::bits`, `nbits` from `n` down to `1`: one past the highest of
these bits set in `x`, and `1` when none of them is. -/
def bitsLimb (x : UInt32) : ℕ → ℕ
  | 0 => 1
  | nbits + 1 => if x &&& 1 <<< (nbits + 1).toUInt32 ≠ 0 then nbits + 2 else bitsLimb x nbits

/-- The outer loop of `base_uint::bits`, over the limbs below `pos`, from the top. -/
def bitsLoop (pn : List UInt32) : ℕ → ℕ
  | 0 => 0
  | pos + 1 =>
    if pn.getD pos 0 ≠ 0 then 32 * pos + bitsLimb (pn.getD pos 0) 31 else bitsLoop pn pos

/-- `base_uint::bits`: the position of the highest set bit plus one, `0` for zero. -/
def bits (a : BaseUint WIDTH) : ℕ := bitsLoop a.pn WIDTH

/-- How `CompareTo` reports an ordering. -/
def ordSign : Ordering → ℤ
  | .lt => -1
  | .eq => 0
  | .gt => 1

theorem compareLoop_eq (a b : List UInt32) (i : ℕ) :
    compareLoop a b i = ordSign (compare (value (a.take i)) (value (b.take i))) := by
  induction i with
  | zero => rfl
  | succ i ih =>
    rw [compareLoop, compare_value_take_succ, ih]
    -- the top limb decides unless the two are equal
    rcases lt_trichotomy (a.getD i 0).toNat (b.getD i 0).toNat with h | h | h
    · rw [if_pos (UInt32.lt_iff_toNat_lt.mpr h), compare_lt_iff_lt.2 h]
      rfl
    · rw [if_neg (fun h' => (UInt32.lt_iff_toNat_lt.mp h').ne h),
        if_neg (fun h' => (UInt32.lt_iff_toNat_lt.mp h').ne' h), h, compare_eq_iff_eq.2 rfl,
        Ordering.eq_then]
    · rw [if_neg (fun h' => (UInt32.lt_iff_toNat_lt.mp h').not_gt h),
        if_pos (UInt32.lt_iff_toNat_lt.mpr h), compare_gt_iff_gt.2 h]
      rfl

/-- **`CompareTo` compares the values.** -/
theorem compareTo_eq (a b : BaseUint WIDTH) :
    a.compareTo b = ordSign (compare a.toNat b.toNat) := by
  rw [compareTo, compareLoop_eq, List.take_of_length_le a.length_pn.le,
    List.take_of_length_le b.length_pn.le]
  rfl

theorem ge_eq (a b : BaseUint WIDTH) : a.ge b = decide (b.toNat ≤ a.toNat) := by
  rw [ge, compareTo_eq]
  rcases lt_trichotomy a.toNat b.toNat with h | h | h
  · rw [compare_lt_iff_lt.2 h, decide_eq_false (show ¬ordSign .lt ≥ 0 by decide),
      decide_eq_false (show ¬b.toNat ≤ a.toNat by omega)]
  · rw [h, compare_eq_iff_eq.2 rfl, decide_eq_true (show ordSign .eq ≥ 0 by decide),
      decide_eq_true le_rfl]
  · rw [compare_gt_iff_gt.2 h, decide_eq_true (show ordSign .gt ≥ 0 by decide),
      decide_eq_true h.le]

/-- The inner loop of `bits` finds the size of a non-zero limb below `2 ^ (n + 1)`. -/
theorem bitsLimb_eq_size {x : UInt32} (hx : x ≠ 0) :
    ∀ n, n < 32 → x.toNat < 2 ^ (n + 1) → bitsLimb x n = Nat.size x.toNat
  | 0, _, hlt => by
    have h1 : x.toNat = 1 := by
      have := (ne_zero_iff x).mp hx
      omega
    rw [bitsLimb, h1, Nat.size_one]
  | n + 1, hn, hlt => by
    rw [bitsLimb]
    by_cases hbit : x.toNat.testBit (n + 1) = true
    · -- bit `n + 1` is set and none above it: the size is `n + 2`
      rw [if_pos (by rw [ne_eq, Bits.and_one_shiftLeft_eq_zero_iff x hn, hbit]; decide)]
      exact le_antisymm (Nat.lt_size.mpr (Nat.ge_two_pow_of_testBit hbit))
        (Nat.size_le.mpr hlt)
    · rw [Bool.not_eq_true] at hbit
      rw [if_neg (by rw [not_not, Bits.and_one_shiftLeft_eq_zero_iff x hn]; exact hbit)]
      exact bitsLimb_eq_size hx n (by omega) (lt_two_pow_of_testBit_eq_false hlt hbit)

theorem bitsLoop_eq (pn : List UInt32) (pos : ℕ) :
    bitsLoop pn pos = Nat.size (value (pn.take pos)) := by
  induction pos with
  | zero => rfl
  | succ pos ih =>
    have hlow : value (pn.take pos) < 2 ^ (32 * pos) := by
      rw [value_take]
      exact Nat.mod_lt _ (by positivity)
    rw [bitsLoop, value_take_succ]
    by_cases hx : pn.getD pos 0 ≠ 0
    · -- the highest non-zero limb sets the size
      rw [if_pos hx, bitsLimb_eq_size hx 31 (by norm_num) (pn.getD pos 0).toNat_lt,
        size_add_two_pow_mul hlow ((ne_zero_iff _).mp hx).ne']
    · rw [if_neg hx, ih, not_not.mp hx, UInt32.toNat_zero, Nat.mul_zero, Nat.add_zero]

/-- **`bits` is the size of the value**: `0` for zero, `floor(log2 a) + 1` otherwise. -/
theorem bits_eq_size (a : BaseUint WIDTH) : a.bits = Nat.size a.toNat := by
  rw [bits, bitsLoop_eq, List.take_of_length_le a.length_pn.le]
  rfl

theorem bits_eq_log (a : BaseUint WIDTH) :
    a.bits = if a.toNat = 0 then 0 else Nat.log 2 a.toNat + 1 := by
  rw [bits_eq_size]
  split_ifs with h
  · rw [h, Nat.size_zero]
  · exact size_eq_log_succ h

/-! ### Long division -/

/-- `pn[shift / 32] |= (1U << (shift & 31))`: set bit `shift` of the quotient. -/
def setBit (q : BaseUint WIDTH) (shift : ℕ) : BaseUint WIDTH :=
  ⟨q.pn.modify (shift / 32) (· ||| 1 <<< (shift &&& 31).toUInt32),
    by rw [length_modify, q.length_pn]⟩

/-- The `while (shift >= 0)` loop of `base_uint::operator/=`, with `shift + 1` rounds left:
`num` is the remainder, `div` the divisor shifted to bit `shift`, `q` the quotient so far. It
returns the quotient and the remainder. -/
def divLoop : ℕ → BaseUint WIDTH → BaseUint WIDTH → BaseUint WIDTH →
    BaseUint WIDTH × BaseUint WIDTH
  | 0, num, _, q => (q, num)
  | shift + 1, num, div, q =>
    let r := if num.ge div then (num.sub div, q.setBit shift) else (num, q)
    divLoop shift r.1 (div.shiftRight 1) r.2

/-- `base_uint::operator/=`; a zero divisor throws `uint_error`. -/
def divide (a b : BaseUint WIDTH) : Except String (BaseUint WIDTH) :=
  let num_bits := a.bits
  let div_bits := b.bits
  if div_bits = 0 then throw "Division by zero"
  -- the result is certainly 0
  else if div_bits > num_bits then pure zero
  else
    let shift := num_bits - div_bits
    pure (divLoop (shift + 1) a (b.shiftLeft shift.toUInt32) zero).1

example : ((⟨[7, 0], rfl⟩ : BaseUint 2).divide ⟨[2, 0], rfl⟩).map BaseUint.pn = .ok [3, 0] := by
  decide

/-- **Setting bit `shift`** ORs in `2 ^ shift`, nothing when it is past the top. -/
theorem toNat_setBit (q : BaseUint WIDTH) (shift : ℕ) :
    (q.setBit shift).toNat = (q.toNat ||| 2 ^ shift) % 2 ^ (32 * WIDTH) := by
  have hand : (shift &&& 31) = shift % 32 := Nat.and_two_pow_sub_one_eq_mod shift 5
  refine toNat_eq_of_testBit fun t ht => ?_
  rw [setBit, getD_modify, Nat.testBit_or, Nat.testBit_two_pow, toNat, testBit_value]
  by_cases hlimb : shift / 32 = t / 32
  · rw [if_pos ⟨hlimb, by rw [q.length_pn]; omega⟩, UInt32.toNat_or, Nat.testBit_or, hand,
      Bits.toNat_one_shiftLeft (Nat.mod_lt _ (by norm_num)), Nat.testBit_two_pow]
    congr 1
    exact decide_eq_decide.mpr (by omega)
  · rw [if_neg (fun h => hlimb h.1), decide_eq_false (by omega), Bool.or_false]

theorem toBitVec_zero : (zero : BaseUint WIDTH).toBitVec = 0 := by
  rw [toBitVec, toNat_zero]
  rfl

theorem toBitVec_sub (a b : BaseUint WIDTH) : (a.sub b).toBitVec = a.toBitVec - b.toBitVec := by
  apply BitVec.eq_of_toNat_eq
  rw [BitVec.toNat_sub, toNat_toBitVec, toNat_toBitVec, toNat_toBitVec, toNat_sub]

theorem toBitVec_shiftLeft (a : BaseUint WIDTH) (shift : UInt32) :
    (a.shiftLeft shift).toBitVec = a.toBitVec <<< shift.toNat := by
  apply BitVec.eq_of_toNat_eq
  rw [BitVec.toNat_shiftLeft, toNat_toBitVec, toNat_toBitVec, toNat_shiftLeft, Nat.shiftLeft_eq]

theorem toBitVec_shiftRight (a : BaseUint WIDTH) (shift : UInt32) :
    (a.shiftRight shift).toBitVec = a.toBitVec >>> shift.toNat := by
  apply BitVec.eq_of_toNat_eq
  rw [BitVec.toNat_ushiftRight, toNat_toBitVec, toNat_toBitVec, toNat_shiftRight,
    Nat.shiftRight_eq_div_pow]

theorem toBitVec_setBit (q : BaseUint WIDTH) (shift : ℕ) :
    (q.setBit shift).toBitVec = q.toBitVec ||| 1#(32 * WIDTH) <<< shift := by
  apply BitVec.eq_of_toNat_eq
  rw [BitVec.toNat_or, BitVec.toNat_shiftLeft, toNat_toBitVec, toNat_toBitVec, toNat_setBit,
    BitVec.toNat_ofNat, Nat.or_mod_two_pow, Nat.mod_eq_of_lt (toNat_lt q), Nat.shiftLeft_eq,
    Nat.mod_mul_mod, Nat.one_mul]

theorem ge_eq_le (a b : BaseUint WIDTH) : a.ge b = decide (b.toBitVec ≤ a.toBitVec) := by
  rw [ge_eq]
  exact decide_eq_decide.mpr (by rw [BitVec.le_def, toNat_toBitVec, toNat_toBitVec])

theorem toBitVec_mulUInt32 (a : BaseUint WIDTH) (b32 : UInt32) :
    (a.mulUInt32 b32).toBitVec = a.toBitVec * BitVec.ofNat _ b32.toNat := by
  apply BitVec.eq_of_toNat_eq
  rw [BitVec.toNat_mul, toNat_toBitVec, toNat_toBitVec, toNat_mulUInt32, BitVec.toNat_ofNat,
    Nat.mul_mod_mod]

theorem toBitVec_mul (a b : BaseUint WIDTH) : (a.mul b).toBitVec = a.toBitVec * b.toBitVec := by
  apply BitVec.eq_of_toNat_eq
  rw [BitVec.toNat_mul, toNat_toBitVec, toNat_toBitVec, toNat_toBitVec, toNat_mul]

/-- Every number of `32 * WIDTH` bits has limbs. -/
theorem exists_toNat_eq {N : ℕ} (hN : N < 2 ^ (32 * WIDTH)) :
    ∃ a : BaseUint WIDTH, a.toNat = N := by
  obtain ⟨l, hl, hv⟩ := exists_value_eq WIDTH N hN
  exact ⟨⟨l, hl⟩, hv⟩

/-! #### `arith_uint256` -/

/-- **The limb loop of `operator/=` is the long division of the values**, round by round. -/
theorem divLoop_toBitVec : ∀ (n : ℕ) (num div q : BaseUint 8),
    Prod.map toBitVec toBitVec (divLoop n num div q) =
      ArithUint256.divLoop n num.toBitVec div.toBitVec q.toBitVec
  | 0, _, _, _ => rfl
  | n + 1, num, div, q => by
    rw [divLoop, ArithUint256.divLoop]
    by_cases h : div.toBitVec ≤ num.toBitVec
    · rw [if_pos (by rw [ge_eq_le]; exact decide_eq_true h), if_pos h]
      rw [divLoop_toBitVec n, toBitVec_sub, toBitVec_setBit, toBitVec_shiftRight]
      rfl
    · rw [if_neg (by rw [ge_eq_le]; exact fun h' => h (of_decide_eq_true h')), if_neg h]
      rw [divLoop_toBitVec n, toBitVec_shiftRight]
      rfl

/-- **`operator/=` on the limbs is `ArithUint256.longDivide`** on the values. -/
theorem divide_toBitVec (a b : BaseUint 8) :
    (a.divide b).map toBitVec = ArithUint256.longDivide a.toBitVec b.toBitVec := by
  have hbits : ∀ c : BaseUint 8, c.bits = ArithUint256.bits c.toBitVec := fun c => by
    rw [bits_eq_size, ArithUint256.bits, toNat_toBitVec]
  rw [divide, ArithUint256.longDivide, hbits a, hbits b]
  split_ifs with h0 hgt
  · rfl
  · show Except.ok (toBitVec zero) = Except.ok 0
    rw [toBitVec_zero]
  · -- align the divisor: the shift is at most `256`, so it fits a `uint32_t`
    set shift := ArithUint256.bits a.toBitVec - ArithUint256.bits b.toBitVec
    have hshift : shift.toUInt32.toNat = shift := by
      have : ArithUint256.bits a.toBitVec ≤ 256 := Nat.size_le.mpr a.toBitVec.isLt
      exact UInt32.toNat_ofNat_of_lt' (by change shift < 4294967296; omega)
    have h := divLoop_toBitVec (shift + 1) a (b.shiftLeft shift.toUInt32) zero
    rw [toBitVec_shiftLeft, hshift, toBitVec_zero] at h
    show Except.ok (toBitVec _) = Except.ok _
    rw [← h]
    rfl

/-- `operator/=` on values: floor division, and `uint_error` exactly for a zero divisor. -/
theorem toNat_divide (a b : BaseUint 8) :
    (a.divide b).map toNat =
      if b.toNat = 0 then .error "Division by zero" else .ok (a.toNat / b.toNat) := by
  have h := divide_toBitVec a b
  rw [ArithUint256.longDivide_eq_divide, ArithUint256.divide] at h
  have hb : b.toBitVec = 0 ↔ b.toNat = 0 := by
    rw [BitVec.toNat_eq, toNat_toBitVec]
    rfl
  by_cases h0 : b.toNat = 0
  · rw [if_pos (hb.mpr h0)] at h
    rw [if_pos h0]
    rcases hq : a.divide b with e | q <;> rw [hq] at h
    · injection h with he
      rw [he]
      rfl
    · cases h
  · rw [if_neg (fun h' => h0 (hb.mp h'))] at h
    rw [if_neg h0]
    rcases hq : a.divide b with e | q <;> rw [hq] at h
    · cases h
    · injection h with hq'
      have hval := congrArg BitVec.toNat hq'
      rw [toNat_toBitVec, BitVec.toNat_udiv, toNat_toBitVec, toNat_toBitVec] at hval
      rw [← hval]
      rfl

/-- **The limb loops of `arith_uint256` compute exactly.** The shifts multiply and divide by a
power of two, the products keep the low 256 bits, `bits` is `floor(log2 a) + 1` and `0` for
zero, and `/=` is floor division that throws exactly on a zero divisor. Each is the operation on
`BitVec 256` by which `ArithUint256` models the code above the limbs, and every 256-bit number
has limbs. -/
theorem arith_uint256_ops_exact :
    (∀ (a : BaseUint 8) (s : UInt32),
      (a.shiftLeft s).toNat = a.toNat * 2 ^ s.toNat % 2 ^ 256 ∧
      (a.shiftRight s).toNat = a.toNat / 2 ^ s.toNat) ∧
    (∀ (a : BaseUint 8) (c : UInt32), (a.mulUInt32 c).toNat = a.toNat * c.toNat % 2 ^ 256) ∧
    (∀ a b : BaseUint 8, (a.mul b).toNat = a.toNat * b.toNat % 2 ^ 256) ∧
    (∀ a : BaseUint 8, a.bits = if a.toNat = 0 then 0 else Nat.log 2 a.toNat + 1) ∧
    (∀ a b : BaseUint 8, (a.divide b).map toNat =
      if b.toNat = 0 then .error "Division by zero" else .ok (a.toNat / b.toNat)) ∧
    (∀ (a b : BaseUint 8) (s c : UInt32),
      (a.shiftLeft s).toBitVec = a.toBitVec <<< s.toNat ∧
      (a.shiftRight s).toBitVec = a.toBitVec >>> s.toNat ∧
      (a.mulUInt32 c).toBitVec = ArithUint256.mulUInt32 a.toBitVec c ∧
      (a.mul b).toBitVec = a.toBitVec * b.toBitVec ∧
      a.bits = ArithUint256.bits a.toBitVec ∧
      (a.divide b).map toBitVec = ArithUint256.divide a.toBitVec b.toBitVec) ∧
    (∀ N < 2 ^ 256, ∃ a : BaseUint 8, a.toNat = N) := by
  refine ⟨fun a s => ⟨toNat_shiftLeft a s, toNat_shiftRight a s⟩, toNat_mulUInt32, toNat_mul,
    bits_eq_log, toNat_divide, fun a b s c => ⟨toBitVec_shiftLeft a s, toBitVec_shiftRight a s,
      toBitVec_mulUInt32 a c, toBitVec_mul a b, ?_, ?_⟩, fun N hN => exists_toNat_eq hN⟩
  · rw [bits_eq_size, ArithUint256.bits, toNat_toBitVec]
  · rw [divide_toBitVec, ArithUint256.longDivide_eq_divide]

end BaseUint

end Tenscoin
