import Mathlib

/-!
# Polylines

The polyline from the origin through segments `(rise, run)` placed end to end and continued
horizontally after the last one (`polyline`), and functions that agree with an affine function
on an interval (`AffineOn`). With positive runs a polyline is affine between two consecutive
breakpoints and after the last one, so the difference of two polylines is affine between
consecutive breakpoints of either; it is positive somewhere on such an interval iff it is
positive at one of the ends. A sweep over the breakpoints decides that way where one polyline
lies above the other.

* `AffineOn.exists_pos_iff`: extending an interval `[0, a]` to `[0, b]` over which `g` is affine
  adds a point where `g` is positive iff `g b` is positive;
* `polyline_append`, `polyline_segment`, `polyline_of_run_le`: the value after a prefix of the
  segments, on a segment and after the last one.
-/

namespace Polyline

variable {K : Type*} [Field K]

/-- The total rise of the segments `(rise, run)`. -/
def rise (cs : List (K × K)) : K := (cs.map Prod.fst).sum

/-- The total run of the segments `(rise, run)`. -/
def run (cs : List (K × K)) : K := (cs.map Prod.snd).sum

@[simp] theorem rise_nil : rise ([] : List (K × K)) = 0 := rfl

@[simp] theorem run_nil : run ([] : List (K × K)) = 0 := rfl

@[simp] theorem rise_cons (p : K × K) (cs : List (K × K)) : rise (p :: cs) = p.1 + rise cs := by
  simp [rise]

@[simp] theorem run_cons (p : K × K) (cs : List (K × K)) : run (p :: cs) = p.2 + run cs := by
  simp [run]

@[simp] theorem rise_append (cs₁ cs₂ : List (K × K)) : rise (cs₁ ++ cs₂) = rise cs₁ + rise cs₂ := by
  simp [rise]

@[simp] theorem run_append (cs₁ cs₂ : List (K × K)) : run (cs₁ ++ cs₂) = run cs₁ + run cs₂ := by
  simp [run]

variable [LinearOrder K]

/-! ### Affine pieces -/

/-- `g` agrees on `[a, b]` with an affine function. -/
def AffineOn (g : K → K) (a b : K) : Prop :=
  ∃ k c : K, ∀ x, a ≤ x → x ≤ b → g x = k * x + c

/-- The height at `x ≥ 0` of the polyline from the origin through the segments `(rise, run)`
placed end to end, continued horizontally after the last one. -/
def polyline : List (K × K) → K → K
  | [], _ => 0
  | (f, s) :: cs, x => if x ≤ s then f / s * x else f + polyline cs (x - s)

/-- Every segment has a positive run. -/
def PosRuns (cs : List (K × K)) : Prop := ∀ p ∈ cs, 0 < p.2

@[simp] theorem polyline_nil (x : K) : polyline [] x = 0 := rfl

namespace AffineOn

variable {g h : K → K} {a b : K}

theorem mono (hg : AffineOn g a b) {a' b' : K} (ha : a ≤ a') (hb : b' ≤ b) :
    AffineOn g a' b' := by
  obtain ⟨k, c, hkc⟩ := hg
  exact ⟨k, c, fun x hx₁ hx₂ => hkc x (ha.trans hx₁) (hx₂.trans hb)⟩

theorem sub (hg : AffineOn g a b) (hh : AffineOn h a b) :
    AffineOn (fun x => g x - h x) a b := by
  obtain ⟨k, c, hg⟩ := hg
  obtain ⟨k', c', hh⟩ := hh
  refine ⟨k - k', c - c', fun x hx₁ hx₂ => ?_⟩
  show g x - h x = _
  rw [hg x hx₁ hx₂, hh x hx₁ hx₂]
  ring

variable [IsStrictOrderedRing K]

/-- An affine function positive inside an interval is positive at one of its ends. -/
theorem pos_of_pos (hg : AffineOn g a b) {x : K} (hx₁ : a ≤ x) (hx₂ : x ≤ b) (hpos : 0 < g x) :
    0 < g a ∨ 0 < g b := by
  obtain ⟨k, c, hkc⟩ := hg
  have hab : a ≤ b := hx₁.trans hx₂
  rw [hkc x hx₁ hx₂] at hpos
  -- the function grows towards `b` or towards `a`, by the sign of its slope
  rcases le_total 0 k with hk | hk
  · right
    rw [hkc b hab le_rfl]
    nlinarith
  · left
    rw [hkc a le_rfl hab]
    nlinarith

/-- **Extending `[0, a]` to `[0, b]`** over which `g` is affine adds a point where `g` is
positive iff `g b` is positive. -/
theorem exists_pos_iff (hg : AffineOn g a b) (ha : 0 ≤ a) (hab : a ≤ b) :
    (∃ x, 0 ≤ x ∧ x ≤ b ∧ 0 < g x) ↔ (∃ x, 0 ≤ x ∧ x ≤ a ∧ 0 < g x) ∨ 0 < g b := by
  constructor
  · rintro ⟨x, hx₀, hxb, hpos⟩
    rcases le_total x a with hxa | hax
    · exact .inl ⟨x, hx₀, hxa, hpos⟩
    · rcases hg.pos_of_pos hax hxb hpos with h | h
      · exact .inl ⟨a, ha, le_rfl, h⟩
      · exact .inr h
  · rintro (⟨x, hx₀, hxa, hpos⟩ | h)
    · exact ⟨x, hx₀, hxa.trans hab, hpos⟩
    · exact ⟨b, ha.trans hab, le_rfl, h⟩

/-- `exists_pos_iff` for the difference of two functions affine on the interval. -/
theorem exists_lt_iff {f : K → K} (hf : AffineOn f a b) (hh : AffineOn h a b) (ha : 0 ≤ a)
    (hab : a ≤ b) :
    (∃ x, 0 ≤ x ∧ x ≤ b ∧ h x < f x) ↔ (∃ x, 0 ≤ x ∧ x ≤ a ∧ h x < f x) ∨ h b < f b := by
  simpa only [sub_pos] using (hf.sub hh).exists_pos_iff ha hab

end AffineOn

/-! ### Polylines -/

section Runs

variable {cs cs₁ cs₂ : List (K × K)}

theorem PosRuns.of_cons {p : K × K} (h : PosRuns (p :: cs)) : PosRuns cs :=
  fun q hq => h q (List.mem_cons_of_mem p hq)

theorem PosRuns.append_left (h : PosRuns (cs₁ ++ cs₂)) : PosRuns cs₁ :=
  fun q hq => h q (List.mem_append_left cs₂ hq)

theorem PosRuns.append_right (h : PosRuns (cs₁ ++ cs₂)) : PosRuns cs₂ :=
  fun q hq => h q (List.mem_append_right cs₁ hq)

theorem polyline_zero (h : PosRuns cs) : polyline cs 0 = 0 := by
  cases cs with
  | nil => rfl
  | cons p cs =>
    obtain ⟨f, s⟩ := p
    have hs : (0 : K) ≤ s := (h (f, s) List.mem_cons_self).le
    simp [polyline, hs]

/-- Past its first segment, a polyline is the rise of that segment plus the rest. -/
theorem polyline_cons_of_le {f s : K} (h : PosRuns ((f, s) :: cs)) {x : K} (hx : s ≤ x) :
    polyline ((f, s) :: cs) x = f + polyline cs (x - s) := by
  have hs : 0 < s := h (f, s) List.mem_cons_self
  by_cases hxs : x ≤ s
  · -- at the breakpoint itself both branches give `f`
    have hx' : x = s := le_antisymm hxs hx
    subst hx'
    rw [polyline, if_pos le_rfl, sub_self, polyline_zero h.of_cons, div_mul_cancel₀ f hs.ne',
      add_zero]
  · rw [polyline, if_neg hxs]

variable [IsStrictOrderedRing K]

theorem run_nonneg (h : PosRuns cs) : 0 ≤ run cs := by
  induction cs with
  | nil => simp
  | cons p cs ih =>
    rw [run_cons]
    exact add_nonneg (h p List.mem_cons_self).le (ih h.of_cons)

/-- **The polyline after a prefix of the segments**: their rise plus the rest, shifted. -/
theorem polyline_append (h : PosRuns (cs₁ ++ cs₂)) {x : K} (hx : run cs₁ ≤ x) :
    polyline (cs₁ ++ cs₂) x = rise cs₁ + polyline cs₂ (x - run cs₁) := by
  induction cs₁ generalizing x with
  | nil => simp
  | cons p cs₁ ih =>
    obtain ⟨f, s⟩ := p
    have hrest : run cs₁ ≤ x - s := by
      rw [run_cons] at hx
      linarith
    have hsx : s ≤ x := by
      have := run_nonneg h.of_cons.append_left
      linarith
    rw [List.cons_append] at h ⊢
    rw [polyline_cons_of_le h hsx, ih h.of_cons hrest, rise_cons, run_cons, sub_sub]
    ring

/-- After its last breakpoint a polyline stays at its total rise. -/
theorem polyline_of_run_le (h : PosRuns cs) {x : K} (hx : run cs ≤ x) :
    polyline cs x = rise cs := by
  have h' : PosRuns (cs ++ []) := by rwa [List.append_nil]
  simpa using polyline_append h' hx

/-- **On a segment** the polyline is the rise before it plus the segment's slope times the run
into it. -/
theorem polyline_segment {f s : K} (h : PosRuns (cs₁ ++ (f, s) :: cs₂)) {x : K}
    (hx₁ : run cs₁ ≤ x) (hx₂ : x ≤ run cs₁ + s) :
    polyline (cs₁ ++ (f, s) :: cs₂) x = rise cs₁ + f / s * (x - run cs₁) := by
  rw [polyline_append h hx₁, polyline, if_pos (by linarith)]

theorem affineOn_segment {f s : K} (h : PosRuns (cs₁ ++ (f, s) :: cs₂)) :
    AffineOn (polyline (cs₁ ++ (f, s) :: cs₂)) (run cs₁) (run cs₁ + s) := by
  refine ⟨f / s, rise cs₁ - f / s * run cs₁, fun x hx₁ hx₂ => ?_⟩
  rw [polyline_segment h hx₁ hx₂]
  ring

theorem affineOn_tail (h : PosRuns cs) (b : K) : AffineOn (polyline cs) (run cs) b :=
  ⟨0, rise cs, fun x hx _ => by rw [polyline_of_run_le h hx, zero_mul, zero_add]⟩

end Runs

end Polyline
