import Mathlib

/-!
# Radix conversion by repeated multiply-add

A number is held in a buffer of base-`B` digits, least significant first, followed by zeros
(`padded`). One pass of schoolbook multiply-add (`mulAdd`) multiplies it by `M` and adds a carry:
at each digit `carry += M * d; d = carry % B; carry /= B`. A pass stops once the carry is zero and
the digits of the old number are passed, or at the end of the buffer. Reading a string of
base-`M` digits into base `B` is one pass per digit, most significant first.

* `mulAdd_spec`: on a buffer holding `R`, a pass leaves `M * R + c` held the same way and reaches
  the position just past its digits, or it ends with a carry when that number does not fit;
* `pow_lt_pow_div_succ`: `n * q / p + 1` digits of base `B` hold every number of `n` digits of
  base `A` when `A ^ p ≤ B ^ q`, which is how a buffer is sized;
* `compare_mul_add`: a number of two digits, the high one signed (or not,
  `compare_mul_add_nat`), compares as its digits do lexicographically.
-/

namespace Radix

variable (M B : ℕ)

/-- One pass of multiply-add over a little-endian buffer from position `i`, while the carry is
not zero or `i < length`, and while the buffer lasts. Returns the buffer, the carry left and the
position reached. -/
def mulAdd : List ℕ → ℕ → ℕ → ℕ → List ℕ × ℕ × ℕ
  | [], carry, i, _ => ([], carry, i)
  | d :: ds, carry, i, length =>
    if carry ≠ 0 ∨ i < length then
      let c := carry + M * d
      let r := mulAdd ds (c / B) (i + 1) length
      (c % B :: r.1, r.2.1, r.2.2)
    else (d :: ds, carry, i)

/-- A buffer of `n` digits holding `N`: its base-`B` digits, then zeros. -/
def padded (N n : ℕ) : List ℕ :=
  Nat.digits B N ++ List.replicate (n - (Nat.digits B N).length) 0

/-- The number that base-`M` digits stand for, read most significant first after the number
`R`: the value the passes of a conversion compute, one digit at a time. -/
def horner (R : ℕ) (xs : List ℕ) : ℕ := xs.foldl (fun acc x => M * acc + x) R

variable {M B}

/-! ### Buffers -/

@[simp] theorem padded_zero (n : ℕ) : padded B 0 n = List.replicate n 0 := by
  simp [padded]

theorem padded_succ {N : ℕ} (hB : 1 < B) (hN : N ≠ 0) (n : ℕ) :
    padded B N (n + 1) = N % B :: padded B (N / B) n := by
  rw [padded, padded, Nat.digits_def' hB (Nat.pos_of_ne_zero hN), List.length_cons,
    Nat.add_sub_add_right, List.cons_append]

theorem length_padded {N n : ℕ} (h : (Nat.digits B N).length ≤ n) :
    (padded B N n).length = n := by
  simp [padded]
  omega

theorem take_padded (N n : ℕ) : (padded B N n).take (Nat.digits B N).length = Nat.digits B N := by
  simp [padded]

theorem length_digits_le_of_lt {N n : ℕ} (hB : 1 < B) (h : N < B ^ n) :
    (Nat.digits B N).length ≤ n :=
  (Nat.digits_length_le_iff hB N).mpr h

/-! ### Most significant first -/

@[simp] theorem horner_nil (R : ℕ) : horner M R [] = R := rfl

@[simp] theorem horner_cons (R x : ℕ) (xs : List ℕ) :
    horner M R (x :: xs) = horner M (M * R + x) xs := rfl

theorem horner_append (R : ℕ) (xs ys : List ℕ) :
    horner M R (xs ++ ys) = horner M (horner M R xs) ys :=
  List.foldl_append

/-- Reading digits after `R` shifts `R` up by their number; the digits alone are the
little-endian value of their reverse. -/
theorem horner_eq (R : ℕ) (xs : List ℕ) :
    horner M R xs = Nat.ofDigits M xs.reverse + R * M ^ xs.length := by
  induction xs generalizing R with
  | nil => simp
  | cons x xs ih =>
    rw [horner_cons, ih, List.reverse_cons, Nat.ofDigits_append, List.length_reverse,
      Nat.ofDigits_singleton, List.length_cons]
    ring

theorem le_horner (hM : 0 < M) (R : ℕ) (xs : List ℕ) : R ≤ horner M R xs := by
  rw [horner_eq]
  calc R = R * 1 := (Nat.mul_one R).symm
    _ ≤ R * M ^ xs.length := Nat.mul_le_mul_left R (Nat.one_le_pow _ _ hM)
    _ ≤ _ := Nat.le_add_left _ _

/-- Digits below the base after `R` stay below `(R + 1) * M ^ n`. -/
theorem horner_lt (hM : 1 < M) (R : ℕ) {xs : List ℕ} (hxs : ∀ x ∈ xs, x < M) :
    horner M R xs < (R + 1) * M ^ xs.length := by
  have h := Nat.ofDigits_lt_base_pow_length hM (l := xs.reverse) (by simpa using hxs)
  rw [horner_eq, Nat.add_mul, Nat.one_mul]
  rw [List.length_reverse] at h
  omega

/-- **Digits with no leading zero are the digits of their value.** -/
theorem digits_horner (hM : 1 < M) {xs : List ℕ} (hxs : ∀ x ∈ xs, x < M)
    (hhead : xs.head? ≠ some 0) : Nat.digits M (horner M 0 xs) = xs.reverse := by
  rw [horner_eq, Nat.zero_mul, Nat.add_zero]
  refine Nat.digits_ofDigits M hM _ (by simpa using hxs) fun hne => ?_
  rw [List.getLast_reverse]
  intro h0
  cases xs with
  | nil => simp at hne
  | cons x xs => exact hhead (by simpa using h0)

theorem horner_zero_replicate (k : ℕ) (xs : List ℕ) :
    horner M 0 (List.replicate k 0 ++ xs) = horner M 0 xs := by
  have h0 : horner M 0 (List.replicate k 0) = 0 := by
    induction k with
    | zero => rfl
    | succ k ih => rw [List.replicate_succ, horner_cons, Nat.mul_zero, Nat.add_zero, ih]
  rw [horner_append, h0]

/-- The most significant digit is not zero. -/
theorem head?_reverse_digits (N : ℕ) : ∀ x ∈ (Nat.digits B N).reverse.head?, x ≠ 0 := by
  intro x hx
  rw [List.head?_reverse] at hx
  have hne : Nat.digits B N ≠ [] := by
    rintro h
    simp [h] at hx
  rw [List.getLast?_eq_some_getLast hne, Option.mem_def, Option.some_inj] at hx
  subst hx
  exact Nat.getLast_digit_ne_zero B (by rintro rfl; simp at hne)

@[simp] theorem horner_digits (N : ℕ) : horner M 0 (Nat.digits M N).reverse = N := by
  rw [horner_eq, List.reverse_reverse, Nat.ofDigits_digits, Nat.zero_mul, Nat.add_zero]

/-- The low `k` digits of `n`, most significant first and leading zeros kept, read back: `n`
modulo `M ^ k`. -/
theorem horner_range_digits (k n : ℕ) :
    horner M 0 ((List.range k).map fun i => n / M ^ (k - 1 - i) % M) = n % M ^ k := by
  induction k generalizing n with
  | zero => simp [Nat.mod_one]
  | succ k ih =>
    -- the last digit is `n % M`, and the ones before it are the digits of `n / M`
    have hhigh : (List.range k).map (fun i => n / M ^ (k + 1 - 1 - i) % M) =
        (List.range k).map fun i => n / M / M ^ (k - 1 - i) % M := by
      refine List.map_congr_left fun i hi => ?_
      rw [List.mem_range] at hi
      rw [Nat.div_div_eq_div_mul, ← Nat.pow_succ', show (k - 1 - i).succ = k + 1 - 1 - i by omega]
    rw [List.range_succ, List.map_append, hhigh, horner_append, ih, List.map_singleton,
      horner_cons, horner_nil, show k + 1 - 1 - k = 0 by omega, Nat.pow_zero, Nat.div_one,
      Nat.pow_succ', Nat.mod_mul, Nat.add_comm]

/-! ### One pass -/

/-- The exact result of a pass, split at its lowest digit. -/
theorem mulAdd_split (R c d : ℕ) (hd : d = R % B) :
    M * R + c = (c + M * d) % B + B * (M * (R / B) + (c + M * d) / B) := by
  have h := Nat.mod_add_div (c + M * d) B
  have hR := Nat.mod_add_div R B
  subst hd
  calc M * R + c = M * (R % B + B * (R / B)) + c := by rw [hR]
    _ = (c + M * (R % B)) + B * (M * (R / B)) := by ring
    _ = ((c + M * (R % B)) % B + B * ((c + M * (R % B)) / B)) + B * (M * (R / B)) := by rw [h]
    _ = _ := by ring

/-- A buffer holding `R` starts with `R % B`, and the rest holds `R / B`. -/
theorem cons_eq_digits_append {R d k : ℕ} {ds : List ℕ} (hB : 1 < B)
    (h : d :: ds = Nat.digits B R ++ List.replicate k 0) :
    d = R % B ∧ ∃ k', ds = Nat.digits B (R / B) ++ List.replicate k' 0 := by
  rcases Nat.eq_zero_or_pos R with rfl | hR
  · cases k with
    | zero => simp at h
    | succ k =>
      rw [Nat.digits_zero, List.nil_append, List.replicate_succ, List.cons.injEq] at h
      exact ⟨by simp [h.1], k, by simp [h.2]⟩
  · rw [Nat.digits_def' hB hR, List.cons_append, List.cons.injEq] at h
    exact ⟨h.1, k, h.2⟩

theorem length_digits_div {R i length : ℕ} (hB : 1 < B)
    (h : (Nat.digits B R).length = length - i) :
    (Nat.digits B (R / B)).length = length - (i + 1) := by
  rcases Nat.eq_zero_or_pos R with rfl | hR
  · simp only [Nat.digits_zero, List.length_nil, Nat.zero_div] at h ⊢
    omega
  · rw [Nat.digits_def' hB hR, List.length_cons] at h
    omega

/-- **One pass of multiply-add.** On a buffer holding `R` in its first `length - i` digits and
zeros after, a pass from position `i` with carry `c` leaves `M * R + c` held the same way, with
no carry and at the position past its digits, when that number fits the buffer; otherwise it
ends with a carry. -/
theorem mulAdd_spec (hB : 1 < B) (hM : 0 < M) (ds : List ℕ) :
    ∀ (R c i length k : ℕ), ds = Nat.digits B R ++ List.replicate k 0 →
      (Nat.digits B R).length = length - i →
      (M * R + c < B ^ ds.length →
        mulAdd M B ds c i length =
          (padded B (M * R + c) ds.length, 0, i + (Nat.digits B (M * R + c)).length)) ∧
      (B ^ ds.length ≤ M * R + c → (mulAdd M B ds c i length).2.1 ≠ 0) := by
  induction ds with
  | nil =>
    intro R c i length k hds hlen
    obtain ⟨hR, -⟩ := List.append_eq_nil_iff.mp hds.symm
    rw [Nat.digits_eq_nil_iff_eq_zero] at hR
    subst hR
    refine ⟨fun hc => ?_, fun hc => ?_⟩
    · have hc0 : c = 0 := by simpa using hc
      subst hc0
      simp [mulAdd, padded]
    · simp only [mulAdd]
      simp at hc
      omega
  | cons d ds ih =>
    intro R c i length k hds hlen
    obtain ⟨hd, k', hds'⟩ := cons_eq_digits_append hB hds
    have ih' := ih (R / B) ((c + M * d) / B) (i + 1) length k' hds' (length_digits_div hB hlen)
    have hN := mulAdd_split (M := M) R c d hd
    set c₀ := c + M * d
    set N' := M * (R / B) + c₀ / B
    have hpow : B ^ (d :: ds).length = B * B ^ ds.length := by rw [List.length_cons, pow_succ']
    by_cases hrun : c ≠ 0 ∨ i < length
    · -- the pass goes on: the exact result is not zero, its low digit is `c₀ % B` and the
      -- rest of it is what the pass carries on with
      have hN0 : M * R + c ≠ 0 := by
        rcases hrun with hc | hi
        · omega
        · have hR : R ≠ 0 := by
            intro h0
            simp [h0] at hlen
            omega
          have : R ≤ M * R := Nat.le_mul_of_pos_left R hM
          omega
      have hmod : (M * R + c) % B = c₀ % B := by
        rw [hN, Nat.add_mul_mod_self_left, Nat.mod_mod]
      have hdiv : (M * R + c) / B = N' := by
        rw [hN, Nat.add_mul_div_left _ _ (by omega), Nat.div_eq_of_lt (Nat.mod_lt _ (by omega)),
          Nat.zero_add]
      have hdig : Nat.digits B (M * R + c) = c₀ % B :: Nat.digits B N' := by
        rw [Nat.digits_def' hB (Nat.pos_of_ne_zero hN0), hmod, hdiv]
      refine ⟨fun hfit => ?_, fun hover => ?_⟩
      · have hfit' : N' < B ^ ds.length := by
          rw [hpow, hN] at hfit
          exact Nat.lt_of_mul_lt_mul_left (a := B) (by omega)
        simp only [mulAdd, if_pos hrun]
        rw [ih'.1 hfit', List.length_cons, padded_succ hB hN0, hmod, hdiv, hdig, List.length_cons]
        simp only [Prod.mk.injEq, true_and]
        exact ⟨rfl, by omega⟩
      · have hover' : B ^ ds.length ≤ N' := by
          rw [hpow, hN] at hover
          by_contra hlt
          have h1 : B * (N' + 1) ≤ B * B ^ ds.length := Nat.mul_le_mul_left B (by omega)
          rw [Nat.mul_add_one] at h1
          have := Nat.mod_lt c₀ (show 0 < B by omega)
          omega
        simp only [mulAdd, if_pos hrun]
        exact ih'.2 hover'
    · -- the pass stops at once: no carry, and nothing of `R` is left
      rw [not_or, not_not, not_lt] at hrun
      obtain ⟨hc, hi⟩ := hrun
      have hR : R = 0 := by
        rw [← Nat.digits_eq_nil_iff_eq_zero (b := B), ← List.length_eq_zero_iff]
        omega
      subst hR hc
      have hd0 : d = 0 := by simpa using hd
      subst hd0
      refine ⟨fun _ => ?_, fun hover => ?_⟩
      · rw [mulAdd, if_neg (by omega), hds']
        simp [List.replicate_succ]
      · have : 0 < B ^ (0 :: ds).length := Nat.pow_pos (by omega)
        simp only [Nat.mul_zero, Nat.add_zero] at hover
        omega

/-- `mulAdd_spec` on a full buffer of `n` digits, from its start: a pass is exact when the
result fits the buffer, and leaves a carry when it does not. -/
theorem mulAdd_padded (hB : 1 < B) (hM : 0 < M) {R n : ℕ} (hR : R < B ^ n) (c : ℕ) :
    (M * R + c < B ^ n → mulAdd M B (padded B R n) c 0 (Nat.digits B R).length =
      (padded B (M * R + c) n, 0, (Nat.digits B (M * R + c)).length)) ∧
    (B ^ n ≤ M * R + c → (mulAdd M B (padded B R n) c 0 (Nat.digits B R).length).2.1 ≠ 0) := by
  have hlen := length_padded (N := R) (n := n) (length_digits_le_of_lt hB hR)
  have h := mulAdd_spec hB hM (padded B R n) R c 0 (Nat.digits B R).length
    (n - (Nat.digits B R).length) rfl (Nat.sub_zero _).symm
  rw [hlen, Nat.zero_add] at h
  exact h

/-! ### Sizing a buffer -/

/-- **`n * q / p + 1` base-`B` digits hold `n` base-`A` digits** when `A ^ p ≤ B ^ q`. -/
theorem pow_lt_pow_div_succ {A B p q : ℕ} (hp : 0 < p) (hB : 1 < B) (hAB : A ^ p ≤ B ^ q)
    (n : ℕ) : A ^ n < B ^ (n * q / p + 1) := by
  have h1 : (A ^ n) ^ p ≤ B ^ (n * q) := by
    calc (A ^ n) ^ p = (A ^ p) ^ n := by rw [← pow_mul, ← pow_mul, Nat.mul_comm]
      _ ≤ (B ^ q) ^ n := Nat.pow_le_pow_left hAB n
      _ = B ^ (n * q) := by rw [← pow_mul, Nat.mul_comm]
  have h2 : B ^ (n * q) < (B ^ (n * q / p + 1)) ^ p := by
    rw [← pow_mul]
    exact Nat.pow_lt_pow_right hB (by
      have := Nat.lt_div_mul_add (a := n * q) hp
      nlinarith [Nat.div_mul_le_self (n * q) p])
  exact lt_of_pow_lt_pow_left₀ p (Nat.zero_le _) (lt_of_le_of_lt h1 h2)

/-! ### Two-digit numbers -/

/-- A strictly monotone map keeps every comparison. -/
theorem compare_strictMono {α β : Type*} [LinearOrder α] [LinearOrder β] {f : α → β}
    (hf : StrictMono f) (x y : α) : compare (f x) (f y) = compare x y := by
  rcases lt_trichotomy x y with h | rfl | h
  · rw [compare_lt_iff_lt.2 h, compare_lt_iff_lt.2 (hf h)]
  · rw [compare_eq_iff_eq.2 rfl, compare_eq_iff_eq.2 rfl]
  · rw [compare_gt_iff_gt.2 h, compare_gt_iff_gt.2 (hf h)]

/-- **A pair of digits compares lexicographically as the number it stands for**: a signed high
digit and a low digit below `B`. -/
theorem compare_mul_add {B : ℕ} {h₁ h₂ : ℤ} {l₁ l₂ : ℕ} (hl₁ : l₁ < B) (hl₂ : l₂ < B) :
    compare (h₁ * B + l₁) (h₂ * B + l₂) = (compare h₁ h₂).then (compare l₁ l₂) := by
  -- the high digits decide unless they are equal, since a low digit is below one unit of `B`
  have hlt : ∀ {h h' : ℤ} {l l' : ℕ}, h < h' → l < B → h * B + l < h' * B + l' := by
    intro h h' l l' hh hl
    calc h * B + l < h * B + B := by omega
      _ = (h + 1) * B := by ring
      _ ≤ h' * B := by gcongr; omega
      _ ≤ h' * B + l' := by omega
  rcases lt_trichotomy h₁ h₂ with h | rfl | h
  · rw [compare_lt_iff_lt.2 h, compare_lt_iff_lt.2 (hlt h hl₁)]
    rfl
  · rw [compare_eq_iff_eq.2 rfl, Ordering.eq_then]
    rcases lt_trichotomy l₁ l₂ with hl | rfl | hl
    · rw [compare_lt_iff_lt.2 hl, compare_lt_iff_lt.2 (by omega)]
    · rw [compare_eq_iff_eq.2 rfl, compare_eq_iff_eq.2 rfl]
    · rw [compare_gt_iff_gt.2 hl, compare_gt_iff_gt.2 (by omega)]
  · rw [compare_gt_iff_gt.2 h, compare_gt_iff_gt.2 (hlt h hl₂)]
    rfl

/-- `compare_mul_add` with an unsigned high digit. -/
theorem compare_mul_add_nat {B h₁ h₂ l₁ l₂ : ℕ} (hl₁ : l₁ < B) (hl₂ : l₂ < B) :
    compare (h₁ * B + l₁) (h₂ * B + l₂) = (compare h₁ h₂).then (compare l₁ l₂) := by
  have hcast := compare_strictMono (f := ((↑) : ℕ → ℤ)) Nat.strictMono_cast
  rw [← hcast, ← hcast h₁ h₂]
  push_cast
  exact compare_mul_add hl₁ hl₂

end Radix
