import Mathlib

/-!
# Binary counters read one level at a time

A counter read level by level is seen through its quotients by powers of two: the quotient by
`2^(k+1)` is half the quotient by `2^k` (`Bits.div_two_pow_succ`), and bit `k` is the parity of
the quotient by `2^k` (`Bits.testBit_eq_true_iff`). A count that is a multiple `q * 2^k` has
bit `k` equal to the parity of `q`, and one less than it has the quotient `q - 1`.

For `uint32_t` and a level below 32, the tests `x & (uint32_t{1} << k)` and
`x != (uint32_t{1} << k)` and the update `x += uint32_t{1} << k` are read on `x.toNat`; for
`uint64_t`, `x & ~m` with `m` the top bit of `x` is `x` modulo `m` (`toNat_and_not_of_lt`).
The sign bit of a byte is read as `b < 0x80` (`and80_eq_zero_iff`).
-/

namespace Bits

/-! ### Quotients by powers of two -/

theorem div_two_pow_succ (n k : ℕ) : n / 2 ^ (k + 1) = n / 2 ^ k / 2 := by
  rw [Nat.pow_succ, Nat.div_div_eq_div_mul]

theorem testBit_eq_true_iff (n k : ℕ) : n.testBit k = true ↔ n / 2 ^ k % 2 = 1 := by
  rw [Nat.testBit_eq_decide_div_mod_eq, decide_eq_true_iff]

theorem testBit_eq_false_iff (n k : ℕ) : n.testBit k = false ↔ n / 2 ^ k % 2 = 0 := by
  rw [← Bool.not_eq_true, testBit_eq_true_iff]
  omega

theorem testBit_eq_of_div_eq {a b k : ℕ} (h : a / 2 ^ k = b / 2 ^ k) :
    a.testBit k = b.testBit k := by
  rw [Nat.testBit_eq_decide_div_mod_eq, Nat.testBit_eq_decide_div_mod_eq, h]

/-- Two numbers with one quotient by `2^j` have one quotient by every higher power. -/
theorem div_two_pow_eq_of_le {a b j k : ℕ} (h : a / 2 ^ j = b / 2 ^ j) (hjk : j ≤ k) :
    a / 2 ^ k = b / 2 ^ k := by
  obtain ⟨d, rfl⟩ := Nat.exists_eq_add_of_le hjk
  rw [Nat.pow_add, ← Nat.div_div_eq_div_mul, ← Nat.div_div_eq_div_mul, h]

theorem mul_two_pow_sub_one_div {q : ℕ} (hq : 0 < q) (k : ℕ) :
    (q * 2 ^ k - 1) / 2 ^ k = q - 1 := by
  obtain ⟨q, rfl⟩ := Nat.exists_eq_add_of_lt hq
  have hP := Nat.two_pow_pos k
  have : (0 + q + 1) * 2 ^ k - 1 = (2 ^ k - 1) + q * 2 ^ k := by
    rw [Nat.zero_add, Nat.add_mul, Nat.one_mul]
    omega
  rw [this, Nat.add_mul_div_right _ _ hP, Nat.div_eq_of_lt (by omega)]
  omega

theorem testBit_mul_two_pow_self (q k : ℕ) : (q * 2 ^ k).testBit k = decide (q % 2 = 1) := by
  rw [Nat.testBit_mul_two_pow, Nat.sub_self, Nat.testBit_zero]
  simp

/-- An even multiple of `2^k` is a multiple of `2^(k+1)`. -/
theorem mul_two_pow_of_even {q : ℕ} (hq : q % 2 = 0) (k : ℕ) :
    q * 2 ^ k = q / 2 * 2 ^ (k + 1) := by
  rw [Nat.pow_succ, ← Nat.mul_assoc, Nat.mul_right_comm,
    Nat.div_mul_cancel (Nat.dvd_of_mod_eq_zero hq)]

theorem lt_of_mul_two_pow_lt {q k e : ℕ} (hq : 0 < q) (h : q * 2 ^ k < 2 ^ e) : k < e := by
  have : 2 ^ k < 2 ^ e := lt_of_le_of_lt (Nat.le_mul_of_pos_left _ hq) h
  exact (Nat.pow_lt_pow_iff_right (by norm_num)).mp this

theorem testBit_mul_two_pow_of_lt (q : ℕ) {j k : ℕ} (hj : j < k) :
    (q * 2 ^ k).testBit j = false := by
  rw [Nat.testBit_mul_two_pow]
  simp only [Bool.and_eq_false_imp, decide_eq_true_eq]
  omega

/-- The one multiple `q * 2^k` equal to `2^e`, for `k < e`, has an even `q`. -/
theorem even_of_mul_two_pow_eq {q k e : ℕ} (hk : k < e) (heq : q * 2 ^ k = 2 ^ e) :
    q % 2 = 0 := by
  have hq2 : q = 2 ^ (e - k) := by
    rw [← Nat.pow_sub_mul_pow 2 hk.le] at heq
    exact Nat.eq_of_mul_eq_mul_right (Nat.two_pow_pos k) heq
  rw [hq2, show e - k = (e - k - 1) + 1 by omega, Nat.pow_succ, Nat.mul_mod_left]

theorem mul_two_pow_lt_of_odd {q k e : ℕ} (hk : k < e) (hq : q * 2 ^ k ≤ 2 ^ e)
    (hodd : q % 2 = 1) : q * 2 ^ k < 2 ^ e := by
  rcases Nat.lt_or_eq_of_le hq with hlt | heq
  · exact hlt
  · have := even_of_mul_two_pow_eq hk heq
    omega

/-- Bit `k` of a multiple `q * 2^k` of at most `2^e`, read modulo `2^e`: the multiple equal to
`2^e` has an even `q`, and `0` has no bit set. -/
theorem testBit_mul_two_pow_mod {q k e : ℕ} (hk : k < e) (hq : q * 2 ^ k ≤ 2 ^ e) :
    (q * 2 ^ k % 2 ^ e).testBit k = decide (q % 2 = 1) := by
  rcases Nat.lt_or_eq_of_le hq with hlt | heq
  · rw [Nat.mod_eq_of_lt hlt, testBit_mul_two_pow_self]
  · rw [heq, Nat.mod_self, Nat.zero_testBit, even_of_mul_two_pow_eq hk heq]
    rfl

/-! ### `uint32_t` tests against `uint32_t{1} << k` -/

theorem toNat_one_shiftLeft {k : ℕ} (hk : k < 32) :
    ((1 : UInt32) <<< k.toUInt32).toNat = 2 ^ k := by
  have hk' : k.toUInt32.toNat = k := by simp; omega
  rw [UInt32.toNat_shiftLeft, hk', UInt32.toNat_one, Nat.mod_eq_of_lt hk, Nat.one_shiftLeft,
    Nat.mod_eq_of_lt (Nat.pow_lt_pow_right (by norm_num) hk)]

theorem and_one_shiftLeft_eq_zero_iff (x : UInt32) {k : ℕ} (hk : k < 32) :
    x &&& (1 <<< k.toUInt32) = 0 ↔ x.toNat.testBit k = false := by
  rw [UInt32.ext_iff, UInt32.toNat_and, toNat_one_shiftLeft hk, Nat.and_two_pow]
  cases x.toNat.testBit k <;> simp

theorem eq_one_shiftLeft_iff (x : UInt32) {k : ℕ} (hk : k < 32) :
    x = 1 <<< k.toUInt32 ↔ x.toNat = 2 ^ k := by
  rw [UInt32.ext_iff, toNat_one_shiftLeft hk]

theorem toNat_add_one_shiftLeft (x : UInt32) {k : ℕ} (hk : k < 32) :
    (x + (1 <<< k.toUInt32)).toNat = (x.toNat + 2 ^ k) % 2 ^ 32 := by
  rw [UInt32.toNat_add, toNat_one_shiftLeft hk]

theorem and_one_ne_zero (x : UInt32) : (x &&& 1 != 0) = decide (x.toNat % 2 = 1) := by
  have h : (x &&& 1).toNat = x.toNat % 2 := by
    rw [UInt32.toNat_and, UInt32.toNat_one, Nat.and_one_is_mod]
  rw [Bool.eq_iff_iff, bne_iff_ne, decide_eq_true_iff, Ne, UInt32.ext_iff, h, UInt32.toNat_zero]
  omega

theorem toNat_shiftRight_one (x : UInt32) : (x >>> 1).toNat = x.toNat / 2 := by
  rw [UInt32.toNat_shiftRight, UInt32.toNat_one, Nat.shiftRight_eq_div_pow]

/-- Bits below `2 ^ i` XORed onto a multiple of `2 ^ i` are added to it. -/
theorem two_pow_mul_xor (a : ℕ) {b i : ℕ} (hb : b < 2 ^ i) : 2 ^ i * a ^^^ b = 2 ^ i * a + b := by
  apply Nat.eq_of_testBit_eq
  intro j
  rw [Nat.testBit_xor, Nat.testBit_two_pow_mul_add a hb, Nat.testBit_two_pow_mul]
  by_cases hj : j < i
  · simp [hj, not_le.2 hj]
  · -- above bit `i` only the multiple has bits
    have hbj : b.testBit j = false :=
      Nat.testBit_lt_two_pow (lt_of_lt_of_le hb (Nat.pow_le_pow_right (by norm_num) (not_lt.1 hj)))
    simp [hj, hbj, not_lt.1 hj]

/-! ### Clearing the top bit of a 64-bit word -/

/-- Clearing bit `j` of a `uint64_t` with no bit above `j` leaves it modulo `2 ^ j`. -/
theorem toNat_and_not_of_lt (x m : UInt64) {j : ℕ} (hm : m.toNat = 2 ^ j) (hj : j < 64)
    (hx : x.toNat < 2 ^ (j + 1)) : (x &&& ~~~m).toNat = x.toNat % 2 ^ j := by
  have hpow : 2 ^ j < 2 ^ 64 := Nat.pow_lt_pow_right (by norm_num) hj
  have hmask : UInt64.size - 1 - 2 ^ j = 2 ^ 64 - (2 ^ j + 1) := by
    rw [UInt64.size]
    omega
  rw [UInt64.toNat_and, UInt64.toNat_not, hm, hmask]
  apply Nat.eq_of_testBit_eq
  intro i
  rw [Nat.testBit_and, Nat.testBit_two_pow_sub_succ hpow, Nat.testBit_two_pow,
    Nat.testBit_mod_two_pow]
  -- the mask lacks bit `j` only, and the word has no bit above `j`
  rcases lt_trichotomy i j with h | rfl | h
  · simp [h, show i < 64 by omega, show j ≠ i by omega]
  · simp
  · rw [Nat.testBit_eq_false_of_lt (lt_of_lt_of_le hx (Nat.pow_le_pow_right (by norm_num) h))]
    simp

/-! ### The sign bit of a byte -/

theorem and80_eq_zero_iff (b : UInt8) : b &&& 0x80 = 0 ↔ b < 0x80 := by
  revert b
  decide +kernel

theorem and7f_eq_zero_iff (b : UInt8) : b &&& 0x7f = 0 ↔ b % 0x80 = 0 := by
  revert b
  decide +kernel

theorem or80_eq_add (b : UInt8) (h : b < 0x80) : b ||| 0x80 = b + 0x80 := by
  revert b
  decide +kernel

end Bits
