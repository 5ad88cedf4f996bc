import Mathlib

/-!
# Rounding down to a bounded mantissa

A floating format with base `b` and mantissas below `M` represents exactly the numbers
`m * b ^ e` with `m < M` (`Mantissa.Representable`). Writing a natural number `v` in such a
format by keeping its leading digits means dividing by the least power `b ^ k` that brings
`v` below `M` (`Mantissa.IsLeastExp`) and multiplying back: `Mantissa.truncate b k v`.

The point of this file is that this truncation is the **greatest representable number below
`v`** (`Mantissa.le_truncate`), as soon as `b` divides `M`. Monotonicity of the rounding
(`Mantissa.truncate_mono`) is then a one-line consequence, with no case analysis on where the
exponents of two inputs change. The remaining lemmas bound the rounding error
(`Mantissa.sub_truncate_lt`) and keep positive inputs positive (`Mantissa.truncate_pos`).
-/

namespace Mantissa

/-- `r` is `m * b ^ e` for some mantissa `m < M` and some exponent `e`. -/
def Representable (b M r : ℕ) : Prop :=
  ∃ m e, m < M ∧ r = m * b ^ e

/-- `k` is the least exponent at which `v` fits a mantissa below `M`. -/
structure IsLeastExp (b M v k : ℕ) : Prop where
  fits : v / b ^ k < M
  least : ∀ j < k, M ≤ v / b ^ j

/-- Keep the digits of `v` in base `b` from position `k` on, and clear the others. -/
def truncate (b k v : ℕ) : ℕ :=
  v / b ^ k * b ^ k

variable {b M v w k k' : ℕ}

theorem truncate_le : truncate b k v ≤ v :=
  Nat.div_mul_le_self v (b ^ k)

theorem sub_truncate_lt (hb : 0 < b) : v - truncate b k v < b ^ k := by
  have h := Nat.div_add_mod' v (b ^ k)
  have hlt := Nat.mod_lt v (Nat.pow_pos hb : 0 < b ^ k)
  unfold truncate
  generalize v % b ^ k = r at h hlt
  generalize v / b ^ k * b ^ k = t at h ⊢
  omega

theorem truncate_representable (h : IsLeastExp b M v k) :
    Representable b M (truncate b k v) :=
  ⟨v / b ^ k, k, h.fits, rfl⟩

/-- **The truncation is the greatest representable number below `v`.** A representable `r`
with exponent `e ≥ k` is a multiple of `b ^ k` below `v`; with `e < k` it is below
`M * b ^ (k - 1)`, which the least-exponent property puts below the truncation. -/
theorem le_truncate (hb : 0 < b) (hbM : b ∣ M) (h : IsLeastExp b M v k) {r : ℕ}
    (hr : Representable b M r) (hrv : r ≤ v) : r ≤ truncate b k v := by
  obtain ⟨m, e, hm, rfl⟩ := hr
  unfold truncate
  by_cases hek : k ≤ e
  · -- `m * b ^ e` is the multiple `m * b ^ (e - k)` of `b ^ k`
    have hsplit : m * b ^ e = m * b ^ (e - k) * b ^ k := by
      rw [Nat.mul_assoc, ← Nat.pow_add, Nat.sub_add_cancel hek]
    rw [hsplit] at hrv ⊢
    exact Nat.mul_le_mul_right _ ((Nat.le_div_iff_mul_le (Nat.pow_pos hb)).mpr hrv)
  · -- below the threshold `M * b ^ (k - 1)`, which the least exponent `k` puts under `v`
    obtain ⟨c, rfl⟩ := hbM
    have hk : k = (k - 1) + 1 := by omega
    have hleast := h.least (k - 1) (by omega)
    have hdiv : c ≤ v / b ^ k := by
      rw [hk, Nat.pow_succ, ← Nat.div_div_eq_div_mul]
      exact (Nat.le_div_iff_mul_le hb).mpr (by rw [Nat.mul_comm]; exact hleast)
    calc m * b ^ e ≤ m * b ^ (k - 1) :=
          Nat.mul_le_mul_left _ (Nat.pow_le_pow_right hb (by omega))
      _ ≤ b * c * b ^ (k - 1) := Nat.mul_le_mul_right _ hm.le
      _ = c * b ^ k := by
          conv_rhs => rw [hk, Nat.pow_succ]
          ring
      _ ≤ v / b ^ k * b ^ k := Nat.mul_le_mul_right _ hdiv

/-- Rounding down to the format is monotone. -/
theorem truncate_mono (hb : 0 < b) (hbM : b ∣ M) (hv : IsLeastExp b M v k)
    (hw : IsLeastExp b M w k') (hvw : v ≤ w) : truncate b k v ≤ truncate b k' w :=
  le_truncate hb hbM hw (truncate_representable hv) (le_trans truncate_le hvw)

/-- Rounding keeps a positive number positive: its leading digit survives. -/
theorem truncate_pos (hb : 0 < b) (hbM : b ≤ M) (h : IsLeastExp b M v k) (hv : 0 < v) :
    0 < truncate b k v := by
  unfold truncate
  have hpow : 0 < b ^ k := Nat.pow_pos hb
  have hq : 0 < v / b ^ k := by
    rcases Nat.eq_zero_or_pos k with rfl | hk
    · simpa using hv
    · have hleast := h.least (k - 1) (by omega)
      have hk' : k = (k - 1) + 1 := by omega
      rw [hk', Nat.pow_succ, ← Nat.div_div_eq_div_mul]
      exact Nat.div_pos (le_trans hbM hleast) hb
  exact Nat.mul_pos hq hpow

end Mantissa
