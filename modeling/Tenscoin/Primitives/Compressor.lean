import Mathlib
import Tenscoin.Lib.Word
import Tenscoin.Consensus.Params

/-!
# Amount compression

`CompressAmount` and `DecompressAmount` (`compressor.cpp`), the encoding of an output's amount in
the UTXO database, on `uint64_t` words with `Word.Checked` recording whether any operation
wrapped.

The source's comment says what a compressed value stands for: `0`, or
`1 + 10 * (9 * n + d - 1) + e` for the amount `(10 * n + d) * 10 ^ e` with a last digit
`d ∈ [1, 9]` and `e < 9`, or `1 + 10 * (n - 1) + 9` for `n * 10 ^ 9`. `amountOf` is that reading
of a number, and `compressedOf m e` the value written for `m * 10 ^ e` once the division loop has
stopped (`IsStripped m e`). The proofs go through the two descriptions:

* `stripZeros_spec` and `stripZeros_mul_pow`: the division loop of `CompressAmount` leaves the
  unique `IsStripped` form of the amount;
* `amountOf_compressedOf` and `compressedOf_amount`: the two readings are inverse;
* `DecompressAmount_eq` and `CompressAmount_eq`: each function is one wrap of its exact result,
  so it overflows exactly when that result does not fit in 64 bits.
-/

namespace Tenscoin

open Word

/-! ### The model -/

/-- The division loop of `CompressAmount`:
`while (((n % 10) == 0) && e < 9) { n /= 10; e++; }`. -/
def stripZeros (n e : ℕ) : ℕ × ℕ :=
  if n % 10 = 0 ∧ e < 9 then stripZeros (n / 10) (e + 1) else (n, e)
termination_by 9 - e

/-- `CompressAmount(uint64_t n)`. -/
def CompressAmount (n : ℕ) : Checked ℕ :=
  if n = 0 then pure 0 else
  let (n, e) := stripZeros n 0
  if e < 9 then do
    let d := n % 10
    assert (d ≥ 1 ∧ d ≤ 9) "d >= 1 && d <= 9"
    let n := n / 10
    -- `1 + (n*9 + d - 1)*10 + e`, every operation on `uint64_t`
    let t ← mul 64 n 9
    let t ← add 64 t d
    let t ← sub 64 t 1
    let t ← mul 64 t 10
    let t ← add 64 1 t
    add 64 t e
  else do
    -- `1 + (n - 1)*10 + 9`
    let t ← sub 64 n 1
    let t ← mul 64 t 10
    let t ← add 64 1 t
    add 64 t 9

/-- The scaling loop of `DecompressAmount`: `while (e) { n *= 10; e--; }`. -/
def scaleUp : ℕ → ℕ → Checked ℕ
  | 0, n => pure n
  | e + 1, n => do
    let n ← mul 64 n 10
    scaleUp e n

/-- `DecompressAmount(uint64_t x)`. -/
def DecompressAmount (x : ℕ) : Checked ℕ :=
  if x = 0 then pure 0 else do
  let x ← sub 64 x 1
  let e := x % 10
  let x := x / 10
  let n ← if e < 9 then do
      let d := x % 9 + 1
      let x := x / 9
      let t ← mul 64 x 10
      add 64 t d
    else add 64 x 1
  scaleUp e n

/-! ### What a compressed value stands for -/

/-- The exponent a nonzero compressed value stores: its last digit once the `1` is taken off. -/
def amountExponent (x : ℕ) : ℕ := (x - 1) % 10

/-- The mantissa a nonzero compressed value stores: `10 * n + d` from `9 * n + d - 1`, or `n`
when the exponent is `9`. -/
def amountMantissa (x : ℕ) : ℕ :=
  if amountExponent x < 9 then 10 * ((x - 1) / 10 / 9) + ((x - 1) / 10 % 9 + 1)
  else (x - 1) / 10 + 1

/-- The amount a compressed value stands for. -/
def amountOf (x : ℕ) : ℕ :=
  if x = 0 then 0 else amountMantissa x * 10 ^ amountExponent x

/-- `m * 10 ^ e` as the division loop leaves it: either it stopped at a last digit that is not
zero before `e` reached `9`, or `e = 9`. -/
def IsStripped (m e : ℕ) : Prop :=
  (e < 9 ∧ m % 10 ≠ 0) ∨ (e = 9 ∧ 0 < m)

/-- The compressed value of `m * 10 ^ e` in stripped form. -/
def compressedOf (m e : ℕ) : ℕ :=
  if e < 9 then 1 + 10 * (9 * (m / 10) + m % 10 - 1) + e else 1 + 10 * (m - 1) + 9

theorem IsStripped.pos {m e : ℕ} (h : IsStripped m e) : 0 < m := by
  rcases h with ⟨-, hd⟩ | ⟨-, hm⟩
  · exact Nat.pos_of_ne_zero fun hm => hd (by simp [hm])
  · exact hm

theorem IsStripped.le {m e : ℕ} (h : IsStripped m e) : e ≤ 9 := by
  rcases h with ⟨he, -⟩ | ⟨he, -⟩ <;> omega

theorem amountOf_compressedOf {m e : ℕ} (h : IsStripped m e) :
    amountOf (compressedOf m e) = m * 10 ^ e := by
  rcases h with ⟨he, hd⟩ | ⟨rfl, hm⟩
  · -- `x - 1 = 10 * (9 * (m / 10) + m % 10 - 1) + e` with `e < 9` and `m % 10 - 1 < 9`
    have hx : compressedOf m e = 1 + 10 * (9 * (m / 10) + m % 10 - 1) + e := if_pos he
    have hexp : amountExponent (compressedOf m e) = e := by
      rw [amountExponent, hx]; omega
    have hman : amountMantissa (compressedOf m e) = m := by
      rw [amountMantissa, hexp, if_pos he, hx]; omega
    rw [amountOf, if_neg (by omega), hman, hexp]
  · have hx : compressedOf m 9 = 1 + 10 * (m - 1) + 9 := rfl
    have hexp : amountExponent (compressedOf m 9) = 9 := by
      rw [amountExponent, hx]; omega
    have hman : amountMantissa (compressedOf m 9) = m := by
      rw [amountMantissa, hexp, if_neg (by omega), hx]; omega
    rw [amountOf, if_neg (by omega), hman, hexp]

theorem isStripped_amount (x : ℕ) :
    IsStripped (amountMantissa x) (amountExponent x) := by
  unfold amountMantissa
  by_cases he : amountExponent x < 9
  · -- the last digit is `k % 9 + 1 ∈ [1, 9]`
    rw [if_pos he]
    exact .inl ⟨he, by omega⟩
  · rw [if_neg he]
    exact .inr ⟨by unfold amountExponent at he ⊢; omega, by omega⟩

theorem compressedOf_amount {x : ℕ} (hx : 0 < x) :
    compressedOf (amountMantissa x) (amountExponent x) = x := by
  unfold compressedOf amountMantissa amountExponent
  split_ifs <;> omega

/-- A stripped amount's compressed value is at most nine times the amount. -/
theorem compressedOf_le_nine {m : ℕ} (hd : m % 10 ≠ 0) : compressedOf m 0 ≤ 9 * m := by
  rw [compressedOf, if_pos (by omega)]
  omega

/-- Past the first division, the compressed value is at most the amount. -/
theorem compressedOf_le_of_pos {m e : ℕ} (h : IsStripped m e) (he : 0 < e) :
    compressedOf m e ≤ m * 10 ^ e := by
  have hm := h.pos
  have h10 : m * 10 ≤ m * 10 ^ e :=
    Nat.mul_le_mul_left m (Nat.le_self_pow (Nat.pos_iff_ne_zero.mp he) 10)
  unfold compressedOf
  split_ifs <;> omega

/-- The bound of the source's fuzz test: every amount up to `MAX_MONEY` compresses to at most the
compressed value of `MAX_MONEY - 1`, which is `9 * (MAX_MONEY - 1)`. -/
theorem compressedOf_le_max {m e : ℕ} (h : IsStripped m e) (hn : m * 10 ^ e ≤ 2100000000000000) :
    compressedOf m e ≤ 18899999999999991 := by
  rcases Nat.eq_zero_or_pos e with rfl | he
  · -- the amount itself ends in a nonzero digit, so it is not `MAX_MONEY`
    have hd : m % 10 ≠ 0 := by
      rcases h with ⟨-, hd⟩ | ⟨h9, -⟩
      · exact hd
      · omega
    have hle := compressedOf_le_nine hd
    rw [pow_zero, mul_one] at hn
    omega
  · have hle := compressedOf_le_of_pos h he
    omega

/-! ### The division loop -/

/-- The loop keeps `n * 10 ^ e` and stops at a stripped form. -/
theorem stripZeros_spec {n e : ℕ} (hn : 0 < n) (he : e ≤ 9) :
    n * 10 ^ e = (stripZeros n e).1 * 10 ^ (stripZeros n e).2 ∧
      IsStripped (stripZeros n e).1 (stripZeros n e).2 := by
  induction n, e using stripZeros.induct with
  | case1 n e hstep ih =>
    -- one division: `n = (n / 10) * 10`, and `n / 10` is still positive
    rw [stripZeros, if_pos hstep]
    obtain ⟨hmul, hs⟩ := ih (by omega) (by omega)
    refine ⟨?_, hs⟩
    rw [← hmul, pow_succ]
    have : n = n / 10 * 10 := by omega
    nth_rewrite 1 [this]
    ring
  | case2 n e hstop =>
    rw [stripZeros, if_neg hstop]
    refine ⟨rfl, ?_⟩
    by_cases h9 : e < 9
    · exact .inl ⟨h9, fun h0 => hstop ⟨h0, h9⟩⟩
    · exact .inr ⟨by omega, hn⟩

/-- On a stripped `m * 10 ^ k`, the loop divides exactly `k` times. -/
theorem stripZeros_mul_pow {m : ℕ} :
    ∀ {k e : ℕ}, IsStripped m (e + k) → stripZeros (m * 10 ^ k) e = (m, e + k)
  | 0, e, h => by
    have hstop : ¬(m % 10 = 0 ∧ e < 9) := by
      rcases h with ⟨-, hd⟩ | ⟨he, -⟩ <;> omega
    rw [pow_zero, mul_one, stripZeros, if_neg hstop, Nat.add_zero]
  | k + 1, e, h => by
    have hle := h.le
    have hdiv : m * 10 ^ (k + 1) / 10 = m * 10 ^ k := by
      rw [pow_succ, ← mul_assoc, Nat.mul_div_cancel _ (by norm_num)]
    have hstep : m * 10 ^ (k + 1) % 10 = 0 ∧ e < 9 :=
      ⟨by rw [pow_succ, ← mul_assoc, Nat.mul_mod_left], by omega⟩
    rw [stripZeros, if_pos hstep, hdiv, stripZeros_mul_pow (by rwa [Nat.add_right_comm])]
    congr 1
    omega

/-! ### Each function is one wrap of its exact result -/

theorem two_pow_64 : (2 : ℕ) ^ 64 = 18446744073709551616 := by norm_num

theorem wrap_bind_scaleUp (e x : ℕ) : (wrap 64 x >>= scaleUp e) = wrap 64 (x * 10 ^ e) := by
  induction e generalizing x with
  | zero =>
    show (wrap 64 x >>= fun n => pure n) = _
    rw [bind_pure, pow_zero, mul_one]
  | succ e ih =>
    -- one multiplication by ten joins the wrap, the rest of the loop is the hypothesis
    have hstep : (wrap 64 x >>= scaleUp (e + 1)) =
        ((wrap 64 x >>= fun n => mul 64 n 10) >>= scaleUp e) := by
      rw [bind_assoc]; rfl
    rw [hstep, wrap_bind_mul x (by norm_num), ih, pow_succ, mul_assoc, mul_comm 10]

/-- **`DecompressAmount` computes `amountOf x` modulo `2 ^ 64`**, flagging an overflow exactly
when `amountOf x` does not fit: only the scaling loop can overflow, and it wraps once. -/
theorem DecompressAmount_eq {x : ℕ} (hx : x < 2 ^ 64) :
    DecompressAmount x = wrap 64 (amountOf x) := by
  rcases Nat.eq_zero_or_pos x with rfl | hpos
  · rw [DecompressAmount, if_pos rfl, amountOf, if_pos rfl, wrap_of_lt (by norm_num)]
  have hx0 : x ≠ 0 := by omega
  rw [DecompressAmount, if_neg hx0, sub_of_le (by omega) hx, pure_bind, amountOf, if_neg hx0]
  have h64 := two_pow_64
  by_cases he : (x - 1) % 10 < 9
  · -- `x*10 + d` fits, and the product by `10 ^ e` is the one wrap
    rw [if_pos he]
    have hmul : mul 64 ((x - 1) / 10 / 9) 10 = pure ((x - 1) / 10 / 9 * 10) :=
      wrap_of_lt (by omega)
    have hman : amountMantissa x = (x - 1) / 10 / 9 * 10 + ((x - 1) / 10 % 9 + 1) := by
      rw [amountMantissa, amountExponent, if_pos he]; omega
    simp only [hmul, pure_bind]
    rw [add, wrap_bind_scaleUp, hman, amountExponent]
  · rw [if_neg he]
    have hman : amountMantissa x = (x - 1) / 10 + 1 := by
      rw [amountMantissa, amountExponent, if_neg he]
    rw [add, wrap_bind_scaleUp, hman, amountExponent]

/-- **`CompressAmount` computes `compressedOf` of the stripped form modulo `2 ^ 64`**, its
assertion always holds, and it flags an overflow exactly when that value does not fit. -/
theorem CompressAmount_eq {n m e : ℕ} (hn : 0 < n) (hn64 : n < 2 ^ 64)
    (hs : stripZeros n 0 = (m, e)) : CompressAmount n = wrap 64 (compressedOf m e) := by
  obtain ⟨hmul, hstrip⟩ := stripZeros_spec hn (Nat.zero_le 9)
  rw [hs] at hmul hstrip
  have hm := hstrip.pos
  have hmn : m ≤ n := by
    have := Nat.one_le_pow e 10 (by norm_num)
    simp only [pow_zero, mul_one] at hmul
    rw [hmul]; exact Nat.le_mul_of_pos_right m this
  have h64 := two_pow_64
  rw [CompressAmount, if_neg (by omega), hs]
  dsimp only
  by_cases he : e < 9
  · -- the digit is nonzero, and everything before the product by ten fits
    have hd : m % 10 ≠ 0 := by
      rcases hstrip with ⟨-, hd⟩ | ⟨he9, -⟩
      · exact hd
      · omega
    have hmul9 : mul 64 (m / 10) 9 = pure (m / 10 * 9) := wrap_of_lt (by omega)
    have hadd : add 64 (m / 10 * 9) (m % 10) = pure (m / 10 * 9 + m % 10) := wrap_of_lt (by omega)
    have hsub : sub 64 (m / 10 * 9 + m % 10) 1 = pure (m / 10 * 9 + m % 10 - 1) :=
      sub_of_le (by omega) (by omega)
    rw [if_pos he, compressedOf, if_pos he, assert_of_pos (by omega)]
    simp only [pure_bind, hmul9, hadd, hsub]
    rw [← bind_assoc, mul, add_bind_wrap, wrap_bind_add]
    congr 1
    omega
  · have hsub : sub 64 m 1 = pure (m - 1) := sub_of_le (by omega) (by omega)
    rw [if_neg he, compressedOf, if_neg he, hsub, pure_bind, ← bind_assoc, mul, add_bind_wrap,
      wrap_bind_add]
    congr 1
    omega

/-- `CompressAmount` of an amount given in stripped form. -/
theorem CompressAmount_stripped {m e : ℕ} (h : IsStripped m e) (hn : m * 10 ^ e < 2 ^ 64) :
    CompressAmount (m * 10 ^ e) = wrap 64 (compressedOf m e) := by
  have hpos : 0 < m * 10 ^ e := Nat.mul_pos h.pos (pow_pos (by norm_num) e)
  have hs : stripZeros (m * 10 ^ e) 0 = (m, e) := by
    have := stripZeros_mul_pow (k := e) (e := 0) (by rwa [Nat.zero_add])
    rwa [Nat.zero_add] at this
  exact CompressAmount_eq hpos hn hs

theorem CompressAmount_zero : CompressAmount 0 = pure 0 := if_pos rfl

/-! ### Round trips -/

/-- An amount up to `MAX_MONEY` compresses to one wrap of a value that reads back as the amount
and is at most the compressed value of `MAX_MONEY - 1`. -/
theorem CompressAmount_le_maxMoney {n : ℕ} (hn : n ≤ 2100000000000000) :
    ∃ c, CompressAmount n = wrap 64 c ∧ amountOf c = n ∧ c ≤ 18899999999999991 := by
  rcases Nat.eq_zero_or_pos n with rfl | hpos
  · exact ⟨0, by rw [CompressAmount_zero, wrap_of_lt (by norm_num)], rfl, by norm_num⟩
  rcases hs : stripZeros n 0 with ⟨m, e⟩
  obtain ⟨hmul, hstrip⟩ := stripZeros_spec hpos (Nat.zero_le 9)
  rw [hs] at hmul hstrip
  dsimp only at hmul hstrip
  rw [pow_zero, mul_one] at hmul
  have h64 := two_pow_64
  exact ⟨compressedOf m e, CompressAmount_eq hpos (by omega) hs,
    by rw [amountOf_compressedOf hstrip, hmul], compressedOf_le_max hstrip (by omega)⟩

theorem CompressAmount_maxMoney_pred :
    CompressAmount 2099999999999999 = wrap 64 18899999999999991 := by
  have h := CompressAmount_stripped (m := 2099999999999999) (e := 0)
    (.inl ⟨by norm_num, by norm_num⟩) (by norm_num)
  rw [pow_zero, mul_one] at h
  rw [h]
  rfl

/-- A value that decompresses without overflow compresses back to itself. -/
theorem CompressAmount_of_DecompressAmount {x n : ℕ} (hx : x < 2 ^ 64)
    (h : (DecompressAmount x).run false = .ok (n, false)) : CompressAmount n = wrap 64 x := by
  rw [DecompressAmount_eq hx, wrap_run] at h
  -- the flag is clear, so the amount fits and is `n` itself
  obtain ⟨hn, hfit⟩ : amountOf x % 2 ^ 64 = n ∧ ¬ 2 ^ 64 ≤ amountOf x := by
    simpa using h
  rw [Nat.mod_eq_of_lt (Nat.lt_of_not_le hfit)] at hn
  subst hn
  rcases Nat.eq_zero_or_pos x with rfl | hpos
  · rw [amountOf, if_pos rfl, CompressAmount_zero, wrap_of_lt (by norm_num)]
  rw [amountOf, if_neg (by omega)] at hfit ⊢
  rw [CompressAmount_stripped (isStripped_amount x) (Nat.lt_of_not_le hfit),
    compressedOf_amount hpos]

theorem compressAmount_roundTrip :
    (∀ n : UInt64, (n.toNat : ℤ) ≤ maxMoney →
      ∃ c cmax, (CompressAmount n.toNat).run false = .ok (c, false) ∧
        (DecompressAmount c).run false = .ok (n.toNat, false) ∧
        (CompressAmount (maxMoney - 1).toNat).run false = .ok (cmax, false) ∧ c ≤ cmax) ∧
    (∀ (x : UInt64) (n : ℕ), (DecompressAmount x.toNat).run false = .ok (n, false) →
      (CompressAmount n).run false = .ok (x.toNat, false)) := by
  have h64 := two_pow_64
  refine ⟨fun n hn => ?_, fun x n h => ?_⟩
  · have hmax : maxMoney = 2100000000000000 := rfl
    have hpred : (maxMoney - 1).toNat = 2099999999999999 := rfl
    have hlt := n.toNat_lt
    obtain ⟨c, hc, hamount, hle⟩ := CompressAmount_le_maxMoney (n := n.toNat) (by omega)
    refine ⟨c, 18899999999999991, ?_, ?_, ?_, hle⟩
    · rw [hc, wrap_of_lt (by omega)]
      rfl
    · rw [DecompressAmount_eq (by omega), hamount, wrap_of_lt hlt]
      rfl
    · rw [hpred, CompressAmount_maxMoney_pred, wrap_of_lt (by omega)]
      rfl
  · rw [CompressAmount_of_DecompressAmount x.toNat_lt h, wrap_of_lt x.toNat_lt]
    rfl

theorem compressAmount_roundTrip_coin : (CompressAmount 100000000).run false = .ok (9, false) := by
  have h := compressAmount_roundTrip.2 9 100000000 (by simp only [UInt64.reduceToNat]; decide)
  simpa only [UInt64.reduceToNat] using h

end Tenscoin
