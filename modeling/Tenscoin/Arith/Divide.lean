import Mathlib
import Tenscoin.Arith.Uint256

/-!
# The long division of `base_uint`

`base_uint::operator/=` divides by shift and subtract: it aligns the divisor's top bit with the
dividend's, and then, one quotient bit at a time from the top, subtracts the shifted divisor
when it fits, sets that bit of the quotient (`pn[shift / 32] |= 1U << (shift & 31)` is bit
`shift` of the 256-bit value), and shifts the divisor back by one. `ArithUint256.longDivide`
is that code; `ArithUint256.divide`, by which the rest of the model divides, is floor division,
and the two agree (`ArithUint256.longDivide_eq_divide`).

The loop `ArithUint256.divLoop` keeps the two facts of restoring division, for the original
divisor `b` and with `n` rounds left (`ArithUint256.divLoop_spec`): quotient times `b` plus
remainder is the dividend, and the remainder is below `b * 2 ^ n`. The quotient has no bit set
below the current one, so `|=` adds the bit (`ArithUint256.toNat_or_two_pow`).
-/

namespace Tenscoin

namespace ArithUint256

/-- The `while (shift >= 0)` loop of `base_uint::operator/=`, with `shift + 1` rounds left:
`num` is the remainder, `div` the divisor shifted to bit `shift`, `q` the quotient so far. It
returns the quotient and the remainder. -/
def divLoop : ℕ → ArithUint256 → ArithUint256 → ArithUint256 → ArithUint256 × ArithUint256
  | 0, num, _, q => (q, num)
  | shift + 1, num, div, q =>
    let r := if num ≥ div then (num - div, q ||| 1#256 <<< shift) else (num, q)
    divLoop shift r.1 (div >>> 1) r.2

/-- `base_uint::operator/=`, as the source computes it. -/
def longDivide (num div : ArithUint256) : Except String ArithUint256 :=
  let num_bits := num.bits
  let div_bits := div.bits
  if div_bits = 0 then throw "Division by zero"
  -- the result is certainly 0
  else if div_bits > num_bits then pure 0
  else
    let shift := num_bits - div_bits
    pure (divLoop (shift + 1) num (div <<< shift) 0).1

/-- Setting a bit above the set bits of `q` adds it. -/
theorem toNat_or_two_pow {q : ArithUint256} {k : ℕ} (hq : q.toNat % 2 ^ (k + 1) = 0)
    (hk : k < 256) : (q ||| 1#256 <<< k).toNat = q.toNat + 2 ^ k := by
  have hpow : (1#256 <<< k).toNat = 2 ^ k := by
    rw [BitVec.toNat_shiftLeft, BitVec.toNat_ofNat, Nat.one_shiftLeft]
    exact Nat.mod_eq_of_lt (Nat.pow_lt_pow_right (by norm_num) hk)
  have hsplit : q.toNat = 2 ^ (k + 1) * (q.toNat / 2 ^ (k + 1)) :=
    (Nat.mul_div_cancel' (Nat.dvd_of_mod_eq_zero hq)).symm
  rw [BitVec.toNat_or, hpow, hsplit, ← Nat.two_pow_add_eq_or_of_lt
    (Nat.pow_lt_pow_right (by norm_num) (Nat.lt_succ_self k))]

/-- **The loop invariant of restoring division.** With `n` rounds left, the divisor at bit
`n - 1`, a remainder below `b * 2 ^ n` and a quotient with no bit below `n`, the loop ends
with quotient times `b` plus remainder unchanged and a remainder below `b`. -/
theorem divLoop_spec {b : ℕ} (hb : 0 < b) :
    ∀ (n : ℕ) (num div q : ArithUint256), (0 < n → div.toNat = b * 2 ^ (n - 1)) →
      num.toNat < b * 2 ^ n → q.toNat % 2 ^ n = 0 → q.toNat * b + num.toNat < 2 ^ 256 →
      (divLoop n num div q).1.toNat * b + (divLoop n num div q).2.toNat =
        q.toNat * b + num.toNat ∧ (divLoop n num div q).2.toNat < b
  | 0, num, div, q, _, hrem, _, _ => by
    rw [Nat.pow_zero, Nat.mul_one] at hrem
    exact ⟨rfl, hrem⟩
  | k + 1, num, div, q, hdiv, hrem, hq, hsum => by
    have hd : div.toNat = b * 2 ^ k := hdiv (Nat.succ_pos k)
    have hpow : 0 < 2 ^ k := Nat.two_pow_pos k
    -- the divisor shifted back is at bit `k - 1`
    have hdiv' : 0 < k → (div >>> 1).toNat = b * 2 ^ (k - 1) := fun hk => by
      rw [BitVec.toNat_ushiftRight, Nat.shiftRight_eq_div_pow, hd,
        show k = (k - 1) + 1 by omega, Nat.pow_succ, ← Nat.mul_assoc, Nat.pow_one,
        Nat.mul_div_cancel _ (by norm_num), Nat.add_sub_cancel]
    unfold divLoop
    by_cases hge : num ≥ div
    · -- the shifted divisor fits: subtract it and set bit `k`
      rw [if_pos hge]
      have hle : div.toNat ≤ num.toNat := hge
      have hnum : (num - div).toNat = num.toNat - b * 2 ^ k := by
        rw [BitVec.toNat_sub_of_le hge, hd]
      have hqk : q.toNat + 2 ^ k < 2 ^ 256 := by
        have : (q.toNat + 2 ^ k) * b ≤ q.toNat * b + num.toNat := by
          rw [Nat.add_mul, Nat.mul_comm (2 ^ k) b]
          omega
        exact lt_of_le_of_lt (Nat.le_mul_of_pos_right _ hb) (lt_of_le_of_lt this hsum)
      have hbit : (q ||| 1#256 <<< k).toNat = q.toNat + 2 ^ k :=
        toNat_or_two_pow hq ((Nat.pow_lt_pow_iff_right (a := 2) (by norm_num)).mp
          (lt_of_le_of_lt (Nat.le_add_left _ _) hqk))
      have hq' : (q.toNat + 2 ^ k) % 2 ^ k = 0 := by
        rw [Nat.add_mod_right]
        exact Nat.mod_eq_zero_of_dvd (Dvd.dvd.trans (Nat.pow_dvd_pow 2 (Nat.le_succ k))
          (Nat.dvd_of_mod_eq_zero hq))
      have hrem' : num.toNat - b * 2 ^ k < b * 2 ^ k := by
        rw [Nat.pow_succ, ← Nat.mul_assoc] at hrem
        omega
      have hsum' : (q.toNat + 2 ^ k) * b + (num.toNat - b * 2 ^ k) = q.toNat * b + num.toNat := by
        rw [Nat.add_mul, Nat.mul_comm (2 ^ k) b]
        omega
      obtain ⟨heq, hlt⟩ := divLoop_spec hb k (num - div) (div >>> 1) (q ||| 1#256 <<< k) hdiv'
        (by rwa [hnum]) (by rwa [hbit]) (by rw [hbit, hnum, hsum']; exact hsum)
      rw [hbit, hnum, hsum'] at heq
      exact ⟨heq, hlt⟩
    · -- it does not fit: the remainder is already below `b * 2 ^ k`
      rw [if_neg hge]
      have hlt : num.toNat < b * 2 ^ k := by
        rw [← hd]
        exact not_le.mp hge
      exact divLoop_spec hb k num (div >>> 1) q hdiv' hlt
        (Nat.mod_eq_zero_of_dvd (Dvd.dvd.trans (Nat.pow_dvd_pow 2 (Nat.le_succ k))
          (Nat.dvd_of_mod_eq_zero hq))) hsum

/-- **The long division computes floor division**, and fails exactly on a zero divisor. -/
theorem longDivide_eq_divide (a b : ArithUint256) : longDivide a b = divide a b := by
  unfold longDivide divide bits
  by_cases hb0 : b = 0
  · rw [if_pos (by rw [hb0]; rfl), if_pos hb0]
  have hbpos : 0 < b.toNat := Nat.pos_of_ne_zero (fun h => hb0 (BitVec.eq_of_toNat_eq h))
  have hsize : b.toNat.size ≠ 0 := fun h => by rw [Nat.size_eq_zero] at h; omega
  rw [if_neg hsize, if_neg hb0]
  -- the top bits of `b` and `a` bound them from both sides
  have hblo : 2 ^ (b.toNat.size - 1) ≤ b.toNat := Nat.lt_size.mp (by omega)
  have hbhi : b.toNat < 2 ^ b.toNat.size := Nat.lt_size_self _
  have hahi : a.toNat < 2 ^ a.toNat.size := Nat.lt_size_self _
  have hale : a.toNat.size ≤ 256 := Nat.size_le.mpr a.isLt
  have h0 : (0 : ArithUint256).toNat = 0 := rfl
  split_ifs with hgt
  · -- a divisor with more bits than the dividend exceeds it
    refine congrArg Except.ok (BitVec.eq_of_toNat_eq ?_)
    rw [BitVec.toNat_udiv, h0, eq_comm, Nat.div_eq_zero_iff_lt hbpos]
    exact lt_of_lt_of_le hahi (le_trans (Nat.pow_le_pow_right (by norm_num) (by omega)) hblo)
  · -- align the divisor and run the loop from a zero quotient
    set shift := a.toNat.size - b.toNat.size
    have hshift : (b <<< shift).toNat = b.toNat * 2 ^ shift := by
      rw [BitVec.toNat_shiftLeft, Nat.shiftLeft_eq]
      refine Nat.mod_eq_of_lt (lt_of_lt_of_le (Nat.mul_lt_mul_of_pos_right hbhi
        (Nat.two_pow_pos shift)) ?_)
      rw [← Nat.pow_add]
      exact Nat.pow_le_pow_right (by norm_num) (by omega)
    have hrem : a.toNat < b.toNat * 2 ^ (shift + 1) := by
      refine lt_of_lt_of_le hahi (le_trans ?_ (Nat.mul_le_mul_right _ hblo))
      rw [← Nat.pow_add]
      exact Nat.pow_le_pow_right (by norm_num) (by omega)
    obtain ⟨heq, hlt⟩ := divLoop_spec hbpos (shift + 1) a (b <<< shift) 0
      (fun _ => by rw [hshift, Nat.add_sub_cancel]) hrem (by rw [h0, Nat.zero_mod])
      (by rw [h0, Nat.zero_mul, Nat.zero_add]; exact a.isLt)
    rw [h0, Nat.zero_mul, Nat.zero_add] at heq
    refine congrArg Except.ok (BitVec.eq_of_toNat_eq ?_)
    rw [BitVec.toNat_udiv, ← heq, Nat.mul_comm _ b.toNat, Nat.mul_add_div hbpos,
      Nat.div_eq_of_lt hlt]
    rfl

end ArithUint256

end Tenscoin
