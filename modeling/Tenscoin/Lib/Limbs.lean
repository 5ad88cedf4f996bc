import Mathlib
import Tenscoin.Lib.Radix

/-!
# Numbers held in 32-bit limbs

A list of `UInt32` limbs, least significant first, stands for a number in base `2 ^ 32`
(`value`). Multi-precision code works on the limbs and is specified by the value. The lemmas
here read the value back from the limbs in the three ways such code needs:

* `testBit_value`: bit `t` of the value is bit `t % 32` of limb `t / 32`, so that code moving
  bits between limbs (shifts, setting a bit) is specified bit by bit (`value_eq_of_testBit`);
* `value_carryChain`: a pass that adds a term into each limb through a 64-bit accumulator and
  carries its high word into the next limb leaves the weighted sum of the terms (`termSum`),
  reduced modulo the width, as long as the accumulator cannot overflow;
* `compare_value_take_succ`: comparing limbs from the top down compares values.
-/

namespace Limbs

/-- The number that little-endian 32-bit limbs stand for. -/
def value : List UInt32 → ℕ
  | [] => 0
  | x :: xs => x.toNat + 2 ^ 32 * value xs

@[simp] theorem value_nil : value [] = 0 := rfl

@[simp] theorem value_cons (x : UInt32) (xs : List UInt32) :
    value (x :: xs) = x.toNat + 2 ^ 32 * value xs := rfl

theorem value_lt (l : List UInt32) : value l < 2 ^ (32 * l.length) := by
  induction l with
  | nil => simp
  | cons x xs ih =>
    have hx := x.toNat_lt
    calc value (x :: xs) = x.toNat + 2 ^ 32 * value xs := rfl
      _ < 2 ^ 32 * (value xs + 1) := by omega
      _ ≤ 2 ^ 32 * 2 ^ (32 * xs.length) := Nat.mul_le_mul_left _ ih
      _ = 2 ^ (32 * (x :: xs).length) := by
        rw [← pow_add, List.length_cons, Nat.mul_succ, Nat.add_comm]

theorem value_append (xs ys : List UInt32) :
    value (xs ++ ys) = value xs + 2 ^ (32 * xs.length) * value ys := by
  induction xs with
  | nil => simp
  | cons x xs ih =>
    rw [List.cons_append, value_cons, value_cons, ih, List.length_cons, Nat.mul_succ,
      Nat.add_comm (32 * xs.length), pow_add]
    ring

@[simp] theorem value_replicate_zero (n : ℕ) : value (List.replicate n 0) = 0 := by
  induction n with
  | zero => rfl
  | succ n ih => simp [List.replicate_succ, ih]

/-- Every number below `2 ^ (32 * n)` is held by `n` limbs. -/
theorem exists_value_eq (n : ℕ) :
    ∀ N < 2 ^ (32 * n), ∃ l : List UInt32, l.length = n ∧ value l = N := by
  induction n with
  | zero =>
    intro N hN
    exact ⟨[], rfl, by simp at hN; simp [hN]⟩
  | succ n ih =>
    intro N hN
    -- the low limb, then the rest from the number of limbs above it
    obtain ⟨l, hl, hv⟩ := ih (N / 2 ^ 32) (by
      rw [Nat.div_lt_iff_lt_mul (by positivity), ← pow_add]
      rw [Nat.mul_succ] at hN
      omega)
    refine ⟨UInt32.ofNat N :: l, by rw [List.length_cons, hl], ?_⟩
    rw [value_cons, hv, UInt32.toNat_ofNat']
    exact Nat.mod_add_div N (2 ^ 32)

/-- The limbs below `n` hold the value modulo `2 ^ (32 * n)`. -/
theorem value_take (l : List UInt32) (n : ℕ) : value (l.take n) = value l % 2 ^ (32 * n) := by
  rcases le_total n l.length with h | h
  · conv_rhs => rw [← List.take_append_drop n l]
    rw [value_append, List.length_take_of_le h, Nat.add_mul_mod_self_left, Nat.mod_eq_of_lt]
    simpa [List.length_take_of_le h] using value_lt (l.take n)
  · rw [List.take_of_length_le h, Nat.mod_eq_of_lt]
    exact lt_of_lt_of_le (value_lt l) (Nat.pow_le_pow_right (by norm_num) (by omega))

/-- One more limb from the bottom: the value gains that limb at its place. -/
theorem value_take_succ (l : List UInt32) (i : ℕ) :
    value (l.take (i + 1)) = value (l.take i) + 2 ^ (32 * i) * (l.getD i 0).toNat := by
  induction l generalizing i with
  | nil => simp
  | cons x xs ih =>
    cases i with
    | zero => simp
    | succ i =>
      rw [List.take_succ_cons, List.take_succ_cons, value_cons, value_cons, ih,
        List.getD_cons_succ, Nat.mul_succ, pow_add]
      ring

/-! ### Bits -/

/-- **Bit `t` of the value is bit `t % 32` of limb `t / 32`.** -/
theorem testBit_value (l : List UInt32) (t : ℕ) :
    (value l).testBit t = (l.getD (t / 32) 0).toNat.testBit (t % 32) := by
  induction l generalizing t with
  | nil => simp
  | cons x xs ih =>
    rw [value_cons, Nat.add_comm, Nat.testBit_two_pow_mul_add _ x.toNat_lt]
    by_cases ht : t < 32
    · rw [if_pos ht, Nat.div_eq_of_lt ht, Nat.mod_eq_of_lt ht, List.getD_cons_zero]
    · -- past the first limb: one limb fewer and `32` bits lower
      rw [if_neg ht, ih]
      obtain ⟨m, hm⟩ : ∃ m, t / 32 = m + 1 := ⟨t / 32 - 1, by omega⟩
      rw [hm, List.getD_cons_succ, show (t - 32) / 32 = m by omega,
        show (t - 32) % 32 = t % 32 by omega]

/-- Limbs hold `N` modulo their width when each of their bits is the bit of `N` at its place. -/
theorem value_eq_of_testBit {l : List UInt32} {N : ℕ}
    (h : ∀ t < 32 * l.length, (l.getD (t / 32) 0).toNat.testBit (t % 32) = N.testBit t) :
    value l = N % 2 ^ (32 * l.length) := by
  apply Nat.eq_of_testBit_eq
  intro t
  rw [Nat.testBit_mod_two_pow]
  by_cases ht : t < 32 * l.length
  · rw [testBit_value, h t ht, decide_eq_true ht, Bool.true_and]
  · -- above the width both sides are zero
    rw [decide_eq_false ht, Bool.false_and]
    exact Nat.testBit_lt_two_pow
      (lt_of_lt_of_le (value_lt l) (Nat.pow_le_pow_right (by norm_num) (by omega)))

/-- A limb has no bit from `32` up. -/
theorem testBit_limb_of_le (x : UInt32) {b : ℕ} (hb : 32 ≤ b) : x.toNat.testBit b = false :=
  Nat.testBit_lt_two_pow (lt_of_lt_of_le x.toNat_lt (Nat.pow_le_pow_right (by norm_num) hb))

theorem testBit_shiftLeft (x y : UInt32) (b : ℕ) :
    (x <<< y).toNat.testBit b =
      (decide (b < 32 ∧ y.toNat % 32 ≤ b) && x.toNat.testBit (b - y.toNat % 32)) := by
  rw [UInt32.toNat_shiftLeft, Nat.testBit_mod_two_pow, Nat.testBit_shiftLeft, ← Bool.and_assoc,
    ← Bool.decide_and]

/-- A limb shifted right keeps its bits from `y % 32` up; none of them is past bit `31`. -/
theorem testBit_shiftRight (x y : UInt32) (b : ℕ) :
    (x >>> y).toNat.testBit b =
      (decide (b + y.toNat % 32 < 32) && x.toNat.testBit (b + y.toNat % 32)) := by
  rw [UInt32.toNat_shiftRight, Nat.testBit_shiftRight, Nat.add_comm (y.toNat % 32)]
  by_cases hb : b + y.toNat % 32 < 32
  · rw [decide_eq_true hb, Bool.true_and]
  · rw [decide_eq_false hb, Bool.false_and, testBit_limb_of_le _ (by omega)]

theorem testBit_ite (c : Prop) [Decidable c] (x : UInt32) (b : ℕ) :
    (if c then x else 0 : UInt32).toNat.testBit b = (decide c && x.toNat.testBit b) := by
  by_cases hc : c <;> simp [hc]

theorem ne_zero_iff (x : UInt32) : x ≠ 0 ↔ 0 < x.toNat := by
  rw [ne_eq, ← UInt32.toNat_inj, UInt32.toNat_zero]
  omega

/-! A shift by `shift` bits is a shift by `shift / 32` limbs and `shift % 32` bits. -/

theorem toNat_div_32 (shift : UInt32) : (shift / 32).toNat = shift.toNat / 32 := by
  rw [UInt32.toNat_div]
  rfl

theorem toNat_mod_32 (shift : UInt32) : (shift % 32).toNat = shift.toNat % 32 := by
  rw [UInt32.toNat_mod]
  rfl

theorem toNat_sub_mod_32 (shift : UInt32) :
    (32 - shift % 32).toNat % 32 = (32 - shift.toNat % 32) % 32 := by
  have hle : shift % 32 ≤ 32 := by
    rw [UInt32.le_iff_toNat_le, toNat_mod_32]
    exact le_trans (Nat.mod_lt _ (by norm_num)).le (by decide)
  rw [UInt32.toNat_sub_of_le _ _ hle, toNat_mod_32]
  rfl

/-! ### The highest set bit -/

/-- A number below `2 ^ (m + 1)` without bit `m` is below `2 ^ m`. -/
theorem lt_two_pow_of_testBit_eq_false {x m : ℕ} (hx : x < 2 ^ (m + 1))
    (hbit : x.testBit m = false) : x < 2 ^ m := by
  refine Nat.lt_pow_two_of_testBit x fun i hi => ?_
  rcases hi.eq_or_lt with rfl | hi
  · exact hbit
  · exact Nat.testBit_lt_two_pow (lt_of_lt_of_le hx (Nat.pow_le_pow_right (by norm_num) hi))

/-- A non-zero digit `x` above `n` bits sets the size. -/
theorem size_add_two_pow_mul {L n x : ℕ} (hL : L < 2 ^ n) (hx : x ≠ 0) :
    Nat.size (L + 2 ^ n * x) = n + Nat.size x := by
  have htop : 2 ^ (Nat.size x - 1) ≤ x := Nat.lt_size.mp (by
    have := Nat.size_pos.mpr (Nat.pos_of_ne_zero hx)
    omega)
  apply le_antisymm
  · rw [Nat.size_le, pow_add]
    calc L + 2 ^ n * x < 2 ^ n * (x + 1) := by rw [Nat.mul_succ]; omega
      _ ≤ 2 ^ n * 2 ^ Nat.size x := Nat.mul_le_mul_left _ (Nat.lt_size_self x)
  · have hlt : n + Nat.size x - 1 < Nat.size (L + 2 ^ n * x) := Nat.lt_size.mpr (by
      calc 2 ^ (n + Nat.size x - 1) = 2 ^ n * 2 ^ (Nat.size x - 1) := by
            rw [← pow_add]
            congr 1
            have := Nat.size_pos.mpr (Nat.pos_of_ne_zero hx)
            omega
        _ ≤ 2 ^ n * x := Nat.mul_le_mul_left _ htop
        _ ≤ L + 2 ^ n * x := Nat.le_add_left _ _)
    omega

/-- The size of a non-zero number is one more than its base-2 logarithm. -/
theorem size_eq_log_succ {x : ℕ} (hx : x ≠ 0) : Nat.size x = Nat.log 2 x + 1 := by
  apply le_antisymm
  · exact Nat.size_le.mpr (Nat.lt_pow_succ_log_self (by norm_num) x)
  · exact Nat.lt_size.mpr (Nat.pow_log_le_self 2 hx)

/-! ### Writing one limb -/

/-- Reading a limb after `l[i] = f l[i]`. -/
theorem getD_modify (f : UInt32 → UInt32) (l : List UInt32) (i j : ℕ) :
    (l.modify i f).getD j 0 = if i = j ∧ j < l.length then f (l.getD j 0) else l.getD j 0 := by
  rw [List.getD_eq_getElem?_getD, List.getElem?_modify, List.getD_eq_getElem?_getD]
  by_cases hj : j < l.length
  · rw [List.getElem?_eq_getElem hj]
    by_cases hij : i = j
    · simp [hij, hj]
    · simp [hij]
  · rw [List.getElem?_eq_none (by omega), if_neg (fun h => hj h.2)]
    rfl

@[simp] theorem length_modify (f : UInt32 → UInt32) (l : List UInt32) (i : ℕ) :
    (l.modify i f).length = l.length :=
  List.length_modify f l i

/-- Reading a limb after `if (c) pn[idx] |= x`. -/
theorem getD_orIf (c : Prop) [Decidable c] (pn : List UInt32) (idx : ℕ) (x : UInt32) {j : ℕ}
    (hj : j < pn.length) :
    (if c then pn.modify idx (· ||| x) else pn).getD j 0 =
      pn.getD j 0 ||| if c ∧ idx = j then x else 0 := by
  by_cases hc : c
  · rw [if_pos hc, getD_modify]
    by_cases hidx : idx = j
    · simp [hc, hidx, hj]
    · simp [hidx]
  · simp [hc]

/-- A loop whose every round keeps the number of limbs keeps it. -/
theorem length_foldl {f : List UInt32 → ℕ → List UInt32}
    (hf : ∀ pn i, (f pn i).length = pn.length) (is : List ℕ) (pn : List UInt32) :
    (is.foldl f pn).length = pn.length := by
  induction is generalizing pn with
  | nil => rfl
  | cons i is ih => rw [List.foldl_cons, ih, hf]

/-! ### Carry chains -/

/-- A pass over the limbs `xs` beside the limbs `ys`: each limb of `xs` becomes the low word of
the 64-bit accumulator `step carry x y`, whose high word is carried to the next limb. A missing
limb of `ys` reads as zero. -/
def carryChain (step : UInt64 → UInt32 → UInt32 → UInt64) :
    List UInt32 → List UInt32 → UInt64 → List UInt32
  | [], _, _ => []
  | x :: xs, ys, carry =>
    let n := step carry x (ys.headD 0)
    (n &&& 0xffffffff).toUInt32 :: carryChain step xs ys.tail (n >>> 32)

/-- The terms a pass adds, each weighted by the place of its limb. -/
def termSum (term : UInt32 → UInt32 → ℕ) : List UInt32 → List UInt32 → ℕ
  | [], _ => 0
  | x :: xs, ys => term x (ys.headD 0) + 2 ^ 32 * termSum term xs ys.tail

@[simp] theorem length_carryChain (step : UInt64 → UInt32 → UInt32 → UInt64)
    (xs ys : List UInt32) (carry : UInt64) : (carryChain step xs ys carry).length = xs.length := by
  induction xs generalizing ys carry with
  | nil => rfl
  | cons x xs ih => simp [carryChain, ih]

theorem toNat_low_word (n : UInt64) : (n &&& 0xffffffff).toUInt32.toNat = n.toNat % 2 ^ 32 := by
  rw [UInt64.toNat_toUInt32, UInt64.toNat_and,
    show (0xffffffff : UInt64).toNat = 2 ^ 32 - 1 from rfl, Nat.and_two_pow_sub_one_eq_mod,
    Nat.mod_mod]

theorem toNat_high_word (n : UInt64) : (n >>> 32).toNat = n.toNat / 2 ^ 32 := by
  rw [UInt64.toNat_shiftRight, show (32 : UInt64).toNat % 64 = 32 from rfl,
    Nat.shiftRight_eq_div_pow]

/-! The 64-bit accumulators of the passes below do not overflow: a carry is below one word,
and a limb times a limb plus two more limbs fits in two words. -/

theorem toNat_add_mul_word {carry : UInt64} (hc : carry.toNat < 2 ^ 32) (x y : UInt32) :
    (carry + x.toUInt64 * y.toUInt64).toNat = carry.toNat + x.toNat * y.toNat := by
  have hxy : x.toNat * y.toNat ≤ (2 ^ 32 - 1) * (2 ^ 32 - 1) :=
    Nat.mul_le_mul (by have := x.toNat_lt; omega) (by have := y.toNat_lt; omega)
  rw [UInt64.toNat_add, UInt64.toNat_mul, UInt32.toNat_toUInt64, UInt32.toNat_toUInt64,
    Nat.mod_eq_of_lt (by omega), Nat.mod_eq_of_lt (by omega)]

theorem toNat_add_add_mul_word {carry : UInt64} (hc : carry.toNat < 2 ^ 32) (x y z : UInt32) :
    (carry + x.toUInt64 + y.toUInt64 * z.toUInt64).toNat =
      carry.toNat + x.toNat + y.toNat * z.toNat := by
  have hyz : y.toNat * z.toNat ≤ (2 ^ 32 - 1) * (2 ^ 32 - 1) :=
    Nat.mul_le_mul (by have := y.toNat_lt; omega) (by have := z.toNat_lt; omega)
  have hx := x.toNat_lt
  rw [UInt64.toNat_add, UInt64.toNat_add, UInt64.toNat_mul, UInt32.toNat_toUInt64,
    UInt32.toNat_toUInt64, UInt32.toNat_toUInt64, Nat.mod_eq_of_lt (by omega),
    Nat.mod_eq_of_lt (by omega), Nat.mod_eq_of_lt (by omega)]

theorem toNat_add_add_word {carry : UInt64} (hc : carry.toNat < 2 ^ 32) (x y : UInt32) :
    (carry + x.toUInt64 + y.toUInt64).toNat = carry.toNat + x.toNat + y.toNat := by
  have hx := x.toNat_lt
  have hy := y.toNat_lt
  rw [UInt64.toNat_add, UInt64.toNat_add, UInt32.toNat_toUInt64, UInt32.toNat_toUInt64,
    Nat.mod_eq_of_lt (by omega), Nat.mod_eq_of_lt (by omega)]

section Chain

variable {step : UInt64 → UInt32 → UInt32 → UInt64}

/-- **A carry chain adds its terms**, modulo the width, when the accumulator holds the carry
plus the term exactly for every carry of one word. -/
theorem value_carryChain (term : UInt32 → UInt32 → ℕ)
    (hstep : ∀ carry x y, carry.toNat < 2 ^ 32 → (step carry x y).toNat = carry.toNat + term x y)
    (xs ys : List UInt32) (carry : UInt64) (hc : carry.toNat < 2 ^ 32) :
    value (carryChain step xs ys carry) =
      (carry.toNat + termSum term xs ys) % 2 ^ (32 * xs.length) := by
  induction xs generalizing ys carry with
  | nil => simp [carryChain, termSum, Nat.mod_one]
  | cons x xs ih =>
    set n := step carry x (ys.headD 0) with hn_def
    have hn : n.toNat = carry.toNat + term x (ys.headD 0) := hstep _ _ _ hc
    -- the accumulator is a 64-bit word, so the carry stays below one word
    have hcarry : (n >>> 32).toNat < 2 ^ 32 := by
      rw [toNat_high_word]
      exact Nat.div_lt_of_lt_mul (by simpa using n.toNat_lt)
    rw [carryChain, ← hn_def, value_cons, ih ys.tail _ hcarry, toNat_low_word, toNat_high_word,
      termSum, List.length_cons, Nat.mul_succ, Nat.add_comm (32 * xs.length), pow_add,
      Nat.mod_mul]
    -- split the total at its lowest word
    have hlow : (carry.toNat + (term x (ys.headD 0) + 2 ^ 32 * termSum term xs ys.tail)) % 2 ^ 32 =
        n.toNat % 2 ^ 32 := by
      rw [hn, ← Nat.add_assoc, Nat.add_mul_mod_self_left]
    have hhigh : (carry.toNat + (term x (ys.headD 0) + 2 ^ 32 * termSum term xs ys.tail)) / 2 ^ 32 =
        n.toNat / 2 ^ 32 + termSum term xs ys.tail := by
      rw [hn, ← Nat.add_assoc, Nat.add_mul_div_left _ _ (by norm_num)]
    rw [hlow, hhigh]

end Chain

/-- The terms `x + m * y` sum to the first number plus `m` times the second, cut to the length
of the first. -/
theorem termSum_add_mul (m : ℕ) (xs ys : List UInt32) :
    termSum (fun x y => x.toNat + m * y.toNat) xs ys = value xs + m * value (ys.take xs.length) := by
  induction xs generalizing ys with
  | nil => simp [termSum]
  | cons x xs ih =>
    cases ys with
    | nil =>
      have h := ih []
      simp only [List.take_nil, value_nil, Nat.mul_zero, Nat.add_zero] at h
      simp [termSum, h]
    | cons y ys =>
      rw [termSum, List.headD_cons, List.tail_cons, ih, List.length_cons, List.take_succ_cons,
        value_cons, value_cons]
      ring

/-- The terms `m * x` sum to `m` times the number. -/
theorem termSum_mul (m : ℕ) (xs ys : List UInt32) :
    termSum (fun x _ => m * x.toNat) xs ys = m * value xs := by
  induction xs generalizing ys with
  | nil => simp [termSum]
  | cons x xs ih =>
    rw [termSum, ih, value_cons]
    ring

/-! ### Complement -/

/-- Complementing every limb complements the value within the width. -/
theorem value_map_not (l : List UInt32) :
    value (l.map (~~~ ·)) = 2 ^ (32 * l.length) - 1 - value l := by
  induction l with
  | nil => simp
  | cons x xs ih =>
    have hx := x.toNat_lt
    have hxs := value_lt xs
    rw [List.map_cons, value_cons, value_cons, ih, UInt32.toNat_not, List.length_cons,
      Nat.mul_succ, Nat.add_comm (32 * xs.length), pow_add]
    -- with `P = 2 ^ (32 * xs.length)` the identity is linear in `P`
    generalize 2 ^ (32 * xs.length) = P at hxs ⊢
    change 2 ^ 32 - 1 - x.toNat + 2 ^ 32 * (P - 1 - value xs) = 2 ^ 32 * P - 1 - _
    omega

/-! ### Comparison -/

/-- **Comparing from the top limb down.** The value of the limbs below `i + 1` compares as limb
`i`, and on a tie as the limbs below `i`. -/
theorem compare_value_take_succ (a b : List UInt32) (i : ℕ) :
    compare (value (a.take (i + 1))) (value (b.take (i + 1))) =
      (compare (a.getD i 0).toNat (b.getD i 0).toNat).then
        (compare (value (a.take i)) (value (b.take i))) := by
  have hpow : ∀ l : List UInt32, value (l.take i) < 2 ^ (32 * i) := fun l => by
    rw [value_take]
    exact Nat.mod_lt _ (by positivity)
  rw [value_take_succ, value_take_succ, Nat.add_comm, Nat.mul_comm, Nat.add_comm (value _),
    Nat.mul_comm (2 ^ _), Radix.compare_mul_add_nat (hpow a) (hpow b)]

end Limbs
