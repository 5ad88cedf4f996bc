import Mathlib
import Tenscoin.Lib.Polyline
import Tenscoin.Util.FeeFrac

/-!
# Comparing feerate diagrams

`CompareChunks` (util/feefrac.cpp) compares the diagrams two lists of chunks imply: from
`(0, 0)` through the cumulative fee and size up to each chunk, then horizontal. It sweeps both
lists by increasing size, holding for each diagram the chunks left (`next_index`), the point
reached (`accum`) and whether that diagram was found strictly above the other
(`better_somewhere`). Each pass takes the diagram whose next point `P` comes first and compares
`P` with the segment `AB` of the other diagram, or with its horizontal tail, by cross-multiplied
slopes. The model keeps the sweep's arrays indexed by `Bool` (`Sweep`), the loop on fuel
(`Sweep.loop`), and the wrapping arithmetic of `FeeFrac`'s `+` and `-`.

* `Sweep.Inv`: each diagram is split at its accumulated point, the next points lie past the
  frontier, and each flag says whether its diagram is above the other somewhere up to the
  frontier;
* `Sweep.comparePoint_eq`: the cross-multiplied comparison is that of the two diagrams at the
  size of `P`, every sum and difference being exact under `Contract`;
* `Sweep.Inv.visit`, `Sweep.loop_eq`: a pass keeps the invariant, since between the frontier
  and `P` both diagrams are affine (`Polyline.AffineOn.exists_lt_iff`), and with enough fuel the
  loop returns the pointwise comparison;
* `CompareChunks_eq_diagramOrder`: the result is `diagramOrder`, over any ordered field.
-/

namespace Tenscoin

namespace FeeFrac

/-- `operator+`: sum fee and size. -/
instance : Add FeeFrac := ⟨fun a b => ⟨a.fee + b.fee, a.size + b.size⟩⟩

/-- `operator-`: subtract both fee and size. -/
instance : Sub FeeFrac := ⟨fun a b => ⟨a.fee - b.fee, a.size - b.size⟩⟩

/-- `FeeFrac()`: the empty FeeFrac. -/
instance : Zero FeeFrac := ⟨⟨0, 0⟩⟩

@[simp] theorem fee_add (a b : FeeFrac) : (a + b).fee = a.fee + b.fee := rfl
@[simp] theorem size_add (a b : FeeFrac) : (a + b).size = a.size + b.size := rfl
@[simp] theorem fee_sub (a b : FeeFrac) : (a - b).fee = a.fee - b.fee := rfl
@[simp] theorem size_sub (a b : FeeFrac) : (a - b).size = a.size - b.size := rfl
@[simp] theorem fee_zero : (0 : FeeFrac).fee = 0 := rfl
@[simp] theorem size_zero : (0 : FeeFrac).size = 0 := rfl

protected theorem add_comm (a b : FeeFrac) : a + b = b + a := by
  show (⟨a.fee + b.fee, a.size + b.size⟩ : FeeFrac) = ⟨b.fee + a.fee, b.size + a.size⟩
  rw [Int64.add_comm, Int32.add_comm]

end FeeFrac

open FeeFrac

/-- `std::partial_ordering`. -/
inductive PartialOrdering where
  | less
  | equivalent
  | greater
  | unordered
  deriving DecidableEq, Repr

/-- `<=>` of two `bool`s, `false` before `true`. -/
def PartialOrdering.ofBools : Bool → Bool → PartialOrdering
  | false, true => .less
  | true, false => .greater
  | _, _ => .equivalent

/-- The variables of `CompareChunks`, for each diagram `dia` (`false` for 0, `true` for 1): the
chunks from `next_index[dia]` on, `accum[dia]` and `better_somewhere[dia]`. -/
structure Sweep where
  rest : Bool → List FeeFrac
  accum : Bool → FeeFrac
  better : Bool → Bool

namespace Sweep

/-- `next_index[dia] == chunk[dia].size()`. -/
def done (s : Sweep) (dia : Bool) : Bool := (s.rest dia).isEmpty

/-- `next_point(dia)`: the first unprocessed point in diagram `dia`. -/
def nextPoint (s : Sweep) (dia : Bool) : FeeFrac := (s.rest dia).headD 0 + s.accum dia

/-- `advance(dia)`: move to the next point in diagram `dia`. -/
def advance (s : Sweep) (dia : Bool) : Sweep :=
  { s with
    rest := Function.update s.rest dia (s.rest dia).tail
    accum := Function.update s.accum dia (s.accum dia + (s.rest dia).headD 0) }

/-- Mark diagram `dia` as strictly better somewhere. -/
def setBetter (s : Sweep) (dia : Bool) : Sweep :=
  { s with better := Function.update s.better dia true }

/-- The comparison in the loop body: `P`, the next point of diagram `u`, against the line `AB` of
the other diagram, or against its horizontal tail (slope `FeeFrac(0, 1)`) once that one is done. -/
def comparePoint (s : Sweep) (oneDone u : Bool) : Ordering :=
  let point_p := s.nextPoint u
  let point_a := s.accum (!u)
  let slope_ap := point_p - point_a
  if oneDone then FeeRateCompare Mul compare slope_ap ⟨0, 1⟩
  else
    let point_b := s.nextPoint (!u)
    let slope_ab := point_b - point_a
    FeeRateCompare Mul compare slope_ap slope_ab

/-- The body of the loop from `unproc_side` on. -/
def visit (s : Sweep) (oneDone u : Bool) : Sweep :=
  let cmp := s.comparePoint oneDone u
  -- if `B` and `P` have the same size, `B` is processed along with `P`
  let s' := if !oneDone && (s.nextPoint (!u)).size == (s.nextPoint u).size then s.advance (!u)
    else s
  let s' := if cmp = .gt then s'.setBetter u else s'
  let s' := if cmp = .lt then s'.setBetter (!u) else s'
  s'.advance u

/-- `unproc_side`: the diagram with the first unprocessed point; if a single side is finished,
the other one. -/
def unprocSide (s : Sweep) : Bool :=
  let done_0 := s.done false
  let done_1 := s.done true
  if done_0 || done_1 then done_0
  else decide ((s.nextPoint false).size > (s.nextPoint true).size)

/-- One pass of the loop body once not both diagrams are done. -/
def iterate (s : Sweep) : Sweep :=
  s.visit (s.done false || s.done true) s.unprocSide

/-- The `do ... while (true)` loop, on fuel. -/
def loop : ℕ → Sweep → PartialOrdering
  | 0, _ => .unordered
  | fuel + 1, s =>
    if s.done false && s.done true then .ofBools (s.better false) (s.better true)
    else
      let s := s.iterate
      if s.better false && s.better true then .unordered else loop fuel s

end Sweep

/-- The two chunk lists, `false` for `chunks0` and `true` for `chunks1`. -/
def sides (chunks0 chunks1 : List FeeFrac) (dia : Bool) : List FeeFrac :=
  bif dia then chunks1 else chunks0

/-- The sweep before the loop: nothing processed, and neither diagram better anywhere. -/
def Sweep.start (c : Bool → List FeeFrac) : Sweep := ⟨c, fun _ => 0, fun _ => false⟩

/-- `CompareChunks`: compare the feerate diagrams implied by the chunks. -/
def CompareChunks (chunks0 chunks1 : List FeeFrac) : PartialOrdering :=
  Sweep.loop (chunks0.length + chunks1.length + 1) (Sweep.start (sides chunks0 chunks1))

/-! ### The sweep's operations, field by field -/

namespace Sweep

variable (s : Sweep) (d : Bool)

@[simp] theorem advance_rest_self : (s.advance d).rest d = (s.rest d).tail := by
  simp [advance]

@[simp] theorem advance_rest_not : (s.advance d).rest (!d) = s.rest (!d) := by
  simp [advance]

@[simp] theorem advance_rest_not' : (s.advance (!d)).rest d = s.rest d := by
  simp [advance]

@[simp] theorem advance_accum_self :
    (s.advance d).accum d = s.accum d + (s.rest d).headD 0 := by
  simp [advance]

@[simp] theorem advance_accum_not : (s.advance d).accum (!d) = s.accum (!d) := by
  simp [advance]

@[simp] theorem advance_accum_not' : (s.advance (!d)).accum d = s.accum d := by
  simp [advance]

@[simp] theorem advance_better : (s.advance d).better = s.better := rfl

@[simp] theorem setBetter_rest : (s.setBetter d).rest = s.rest := rfl

@[simp] theorem setBetter_accum : (s.setBetter d).accum = s.accum := rfl

@[simp] theorem setBetter_better_self : (s.setBetter d).better d = true := by
  simp [setBetter]

@[simp] theorem setBetter_better_not : (s.setBetter d).better (!d) = s.better (!d) := by
  simp [setBetter]

@[simp] theorem setBetter_better_not' : (s.setBetter (!d)).better d = s.better d := by
  simp [setBetter]

/-- Whether `visit` processes `B` along with `P`. -/
def advancesOther (s : Sweep) (oneDone u : Bool) : Bool :=
  !oneDone && (s.nextPoint (!u)).size == (s.nextPoint u).size

variable (oneDone u : Bool)

theorem visit_rest_self : (s.visit oneDone u).rest u = (s.rest u).tail := by
  simp only [visit]
  split_ifs <;> simp

theorem visit_accum_self :
    (s.visit oneDone u).accum u = s.accum u + (s.rest u).headD 0 := by
  simp only [visit]
  split_ifs <;> simp

theorem visit_rest_other : (s.visit oneDone u).rest (!u) =
    if s.advancesOther oneDone u then (s.rest (!u)).tail else s.rest (!u) := by
  by_cases h : s.advancesOther oneDone u
  all_goals
    simp only [h, if_true, if_false, Bool.false_eq_true]
    simp only [advancesOther] at h
    simp only [visit, h, if_true, if_false, Bool.false_eq_true]
    split_ifs <;> simp

theorem visit_accum_other : (s.visit oneDone u).accum (!u) =
    if s.advancesOther oneDone u then s.accum (!u) + (s.rest (!u)).headD 0
    else s.accum (!u) := by
  by_cases h : s.advancesOther oneDone u
  all_goals
    simp only [h, if_true, if_false, Bool.false_eq_true]
    simp only [advancesOther] at h
    simp only [visit, h, if_true, if_false, Bool.false_eq_true]
    split_ifs <;> simp

theorem visit_better_self :
    (s.visit oneDone u).better u = (s.better u || s.comparePoint oneDone u == .gt) := by
  simp only [visit]
  split_ifs <;> simp_all

theorem visit_better_other :
    (s.visit oneDone u).better (!u) = (s.better (!u) || s.comparePoint oneDone u == .lt) := by
  simp only [visit]
  split_ifs <;> simp_all

end Sweep

/-! ### Exact sums and differences -/

namespace FeeFrac

theorem toInt_add_exact {x y : Int64} (h₁ : -2 ^ 63 ≤ x.toInt + y.toInt)
    (h₂ : x.toInt + y.toInt < 2 ^ 63) : (x + y).toInt = x.toInt + y.toInt := by
  rw [Int64.toInt_add]
  exact bmod_of_range h₁ h₂

theorem toInt_sub_exact {x y : Int64} (h₁ : -2 ^ 63 ≤ x.toInt - y.toInt)
    (h₂ : x.toInt - y.toInt < 2 ^ 63) : (x - y).toInt = x.toInt - y.toInt := by
  rw [Int64.toInt_sub]
  exact bmod_of_range h₁ h₂

theorem toInt32_add_exact {x y : Int32} (h₁ : -2 ^ 31 ≤ x.toInt + y.toInt)
    (h₂ : x.toInt + y.toInt < 2 ^ 31) : (x + y).toInt = x.toInt + y.toInt := by
  rw [Int32.toInt_add]
  exact Int.bmod_eq_of_le (by norm_num; omega) (by norm_num; omega)

theorem toInt32_sub_exact {x y : Int32} (h₁ : -2 ^ 31 ≤ x.toInt - y.toInt)
    (h₂ : x.toInt - y.toInt < 2 ^ 31) : (x - y).toInt = x.toInt - y.toInt := by
  rw [Int32.toInt_sub]
  exact Int.bmod_eq_of_le (by norm_num; omega) (by norm_num; omega)

end FeeFrac

/-- The exact total fee of chunks. -/
def feeSum (l : List FeeFrac) : ℤ := (l.map fun a => a.fee.toInt).sum

/-- The exact total size of chunks. -/
def sizeSum (l : List FeeFrac) : ℤ := (l.map fun a => a.size.toInt).sum

@[simp] theorem feeSum_nil : feeSum [] = 0 := rfl

@[simp] theorem sizeSum_nil : sizeSum [] = 0 := rfl

@[simp] theorem feeSum_append (l₁ l₂ : List FeeFrac) :
    feeSum (l₁ ++ l₂) = feeSum l₁ + feeSum l₂ := by
  simp [feeSum]

@[simp] theorem sizeSum_append (l₁ l₂ : List FeeFrac) :
    sizeSum (l₁ ++ l₂) = sizeSum l₁ + sizeSum l₂ := by
  simp [sizeSum]

@[simp] theorem feeSum_singleton (a : FeeFrac) : feeSum [a] = a.fee.toInt := by
  simp [feeSum]

@[simp] theorem sizeSum_singleton (a : FeeFrac) : sizeSum [a] = a.size.toInt := by
  simp [sizeSum]

theorem sizeSum_nonneg {l : List FeeFrac} (h : ∀ a ∈ l, 0 < a.size.toInt) : 0 ≤ sizeSum l :=
  List.sum_nonneg (by simpa using fun a ha => (h a ha).le)

/-- What the sweep needs of the two chunk lists: positive sizes, sizes summing below `2 ^ 31`,
and each cumulative fee of one diagram within `2 ^ 63` of each cumulative fee of the other, so
that no sum or difference the sweep computes overflows. -/
structure Contract (c : Bool → List FeeFrac) : Prop where
  size_pos : ∀ d, ∀ a ∈ c d, 0 < a.size.toInt
  size_sum : ∀ d, sizeSum (c d) < 2 ^ 31
  fee_span : ∀ d i j, |feeSum ((c d).take i) - feeSum ((c (!d)).take j)| < 2 ^ 63

/-! ### The diagrams -/

section Diagram

variable (K : Type*) [Field K]

/-- The chunks as the segments `(fee, size)` of a polyline over `K`. -/
def segments (l : List FeeFrac) : List (K × K) :=
  l.map fun a => ((a.fee.toInt : K), (a.size.toInt : K))

variable {K} in
@[simp] theorem segments_append (l₁ l₂ : List FeeFrac) :
    segments K (l₁ ++ l₂) = segments K l₁ ++ segments K l₂ := List.map_append ..

variable {K} in
@[simp] theorem segments_cons (a : FeeFrac) (l : List FeeFrac) :
    segments K (a :: l) = ((a.fee.toInt : K), (a.size.toInt : K)) :: segments K l := rfl

variable {K} in
@[simp] theorem run_segments (l : List FeeFrac) :
    Polyline.run (segments K l) = (sizeSum l : K) := by
  simp [Polyline.run, segments, sizeSum, Function.comp_def]

variable {K} in
@[simp] theorem rise_segments (l : List FeeFrac) :
    Polyline.rise (segments K l) = (feeSum l : K) := by
  simp [Polyline.rise, segments, feeSum, Function.comp_def]

variable [LinearOrder K]

/-- The diagram the chunks imply: from `(0, 0)` through the cumulative fee and size up to each
chunk, then extending to the right with a horizontal line. -/
def diagram (l : List FeeFrac) : K → K := Polyline.polyline (segments K l)

/-- Diagram 0 is strictly above diagram 1 somewhere. -/
def Above (c₀ c₁ : List FeeFrac) : Prop := ∃ x : K, 0 ≤ x ∧ diagram K c₁ x < diagram K c₀ x

open Classical in
/-- The pointwise comparison of two diagrams. -/
noncomputable def diagramOrder (c₀ c₁ : List FeeFrac) : PartialOrdering :=
  if Above K c₀ c₁ ∧ Above K c₁ c₀ then .unordered
  else .ofBools (decide (Above K c₀ c₁)) (decide (Above K c₁ c₀))

variable {K} {c₀ c₁ : List FeeFrac}

theorem not_above_iff : ¬Above K c₀ c₁ ↔ ∀ x : K, 0 ≤ x → diagram K c₀ x ≤ diagram K c₁ x := by
  simp only [Above, not_exists, not_and, not_lt]

theorem diagramOrder_eq_greater_iff :
    diagramOrder K c₀ c₁ = .greater ↔ Above K c₀ c₁ ∧ ¬Above K c₁ c₀ := by
  unfold diagramOrder
  by_cases h₀ : Above K c₀ c₁ <;> by_cases h₁ : Above K c₁ c₀ <;>
    simp [h₀, h₁, PartialOrdering.ofBools]

theorem diagramOrder_eq_less_iff :
    diagramOrder K c₀ c₁ = .less ↔ Above K c₁ c₀ ∧ ¬Above K c₀ c₁ := by
  unfold diagramOrder
  by_cases h₀ : Above K c₀ c₁ <;> by_cases h₁ : Above K c₁ c₀ <;>
    simp [h₀, h₁, PartialOrdering.ofBools]

theorem diagramOrder_eq_equivalent_iff :
    diagramOrder K c₀ c₁ = .equivalent ↔ ¬Above K c₀ c₁ ∧ ¬Above K c₁ c₀ := by
  unfold diagramOrder
  by_cases h₀ : Above K c₀ c₁ <;> by_cases h₁ : Above K c₁ c₀ <;>
    simp [h₀, h₁, PartialOrdering.ofBools]

theorem diagramOrder_eq_unordered_iff :
    diagramOrder K c₀ c₁ = .unordered ↔ Above K c₀ c₁ ∧ Above K c₁ c₀ := by
  unfold diagramOrder
  by_cases h₀ : Above K c₀ c₁ <;> by_cases h₁ : Above K c₁ c₀ <;>
    simp [h₀, h₁, PartialOrdering.ofBools]

variable [IsStrictOrderedRing K]

theorem posRuns_segments {l : List FeeFrac} (h : ∀ a ∈ l, 0 < a.size.toInt) :
    Polyline.PosRuns (segments K l) := by
  intro p hp
  obtain ⟨a, ha, rfl⟩ := List.mem_map.1 hp
  show (0 : K) < a.size.toInt
  exact_mod_cast h a ha

section Split

variable {pre rest : List FeeFrac} (h : ∀ a ∈ pre ++ rest, 0 < a.size.toInt)
include h

/-- On the chunk after a prefix the diagram follows the chunk's feerate. -/
theorem diagram_on_chunk {a : FeeFrac} (hrest : rest = a :: rest') {x : K}
    (hx₁ : (sizeSum pre : K) ≤ x) (hx₂ : x ≤ sizeSum pre + a.size.toInt) :
    diagram K (pre ++ rest) x = feeSum pre + a.fee.toInt / a.size.toInt * (x - sizeSum pre) := by
  subst hrest
  have hp := posRuns_segments (K := K) h
  rw [segments_append, segments_cons] at hp
  rw [diagram, segments_append, segments_cons, Polyline.polyline_segment hp (by simpa using hx₁)
    (by simpa using hx₂), rise_segments, run_segments]

theorem affineOn_chunk {a : FeeFrac} (hrest : rest = a :: rest') :
    Polyline.AffineOn (diagram K (pre ++ rest)) (sizeSum pre) (sizeSum pre + a.size.toInt) := by
  subst hrest
  have hp := posRuns_segments (K := K) h
  rw [segments_append, segments_cons] at hp
  have := Polyline.affineOn_segment hp
  rwa [run_segments, ← segments_cons, ← segments_append] at this

end Split

theorem diagram_zero {l : List FeeFrac} (h : ∀ a ∈ l, 0 < a.size.toInt) : diagram K l 0 = 0 :=
  Polyline.polyline_zero (posRuns_segments h)

theorem diagram_of_sizeSum_le {l : List FeeFrac} (h : ∀ a ∈ l, 0 < a.size.toInt) {x : K}
    (hx : (sizeSum l : K) ≤ x) : diagram K l x = feeSum l := by
  rw [diagram, Polyline.polyline_of_run_le (posRuns_segments h) (by simpa using hx),
    rise_segments]

theorem affineOn_end {l : List FeeFrac} (h : ∀ a ∈ l, 0 < a.size.toInt) (b : K) :
    Polyline.AffineOn (diagram K l) (sizeSum l) b := by
  have := Polyline.affineOn_tail (posRuns_segments (K := K) h) b
  rwa [run_segments] at this

end Diagram

/-! ### The sweep's invariant -/

namespace Sweep

/-- The size up to which both diagrams are processed: the larger of the two accumulated sizes. -/
def frontier (s : Sweep) : ℤ := max (s.accum false).size.toInt (s.accum true).size.toInt

theorem frontier_eq (s : Sweep) (u : Bool) :
    s.frontier = max (s.accum u).size.toInt (s.accum (!u)).size.toInt := by
  cases u
  · rfl
  · exact max_comm _ _

/-- Diagram `d` is split at the sweep: the chunks before `next_index[d]` sum to `accum[d]`. -/
def Split (c : Bool → List FeeFrac) (s : Sweep) (d : Bool) (pre : List FeeFrac) : Prop :=
  c d = pre ++ s.rest d ∧ (s.accum d).fee.toInt = feeSum pre ∧
    (s.accum d).size.toInt = sizeSum pre

section Split

variable {c : Bool → List FeeFrac} {s : Sweep} {d : Bool} {pre : List FeeFrac}

/-- A cumulative point of one diagram is exact. -/
theorem Split.point_exact (hc : Contract c) (h : s.Split c d pre) {a : FeeFrac}
    {rest : List FeeFrac} (hr : s.rest d = a :: rest) :
    (a + s.accum d).fee.toInt = feeSum (pre ++ [a]) ∧
      (a + s.accum d).size.toInt = sizeSum (pre ++ [a]) := by
  have hcd : c d = (pre ++ [a]) ++ rest := by rw [h.1, hr]; simp
  have htake : (c d).take (pre ++ [a]).length = pre ++ [a] := by rw [hcd, List.take_left' rfl]
  -- the fee is within `2 ^ 63` of the other diagram's empty prefix
  have hfee := hc.fee_span d (pre ++ [a]).length 0
  rw [htake, List.take_zero, feeSum_nil, sub_zero, abs_lt] at hfee
  have hpos : ∀ x ∈ c d, 0 < x.size.toInt := hc.size_pos d
  rw [hcd] at hpos
  have hpre : 0 ≤ sizeSum pre := sizeSum_nonneg fun x hx => hpos x (by simp [hx])
  have hrest : 0 ≤ sizeSum rest := sizeSum_nonneg fun x hx => hpos x (by simp [hx])
  have ha : 0 < a.size.toInt := hpos a (by simp)
  have hsum := hc.size_sum d
  rw [hcd, sizeSum_append] at hsum
  simp only [feeSum_append, feeSum_singleton, sizeSum_append, sizeSum_singleton] at hfee hsum ⊢
  obtain ⟨-, hf, hs⟩ := h
  constructor
  · rw [FeeFrac.fee_add, toInt_add_exact (by omega) (by omega), hf]
    ring
  · rw [FeeFrac.size_add, toInt32_add_exact (by omega) (by omega), hs]
    ring

theorem Split.advance (hc : Contract c) (h : s.Split c d pre) {a : FeeFrac}
    {rest : List FeeFrac} (hr : s.rest d = a :: rest) :
    (s.advance d).Split c d (pre ++ [a]) := by
  have he := h.point_exact hc hr
  refine ⟨?_, ?_, ?_⟩
  · rw [h.1, advance_rest_self, hr]
    simp
  · rw [advance_accum_self, hr, List.headD_cons, FeeFrac.add_comm]
    exact he.1
  · rw [advance_accum_self, hr, List.headD_cons, FeeFrac.add_comm]
    exact he.2

theorem Split.setBetter {d' : Bool} (h : s.Split c d pre) : (s.setBetter d').Split c d pre := h

end Split

variable (K : Type*) [Field K] [LinearOrder K] [IsStrictOrderedRing K]

/-- The invariant of the loop: each diagram is split at its accumulated point, the next points
are beyond the frontier, and `better_somewhere[d]` says whether diagram `d` is strictly above the
other somewhere up to the frontier. -/
structure Inv (c : Bool → List FeeFrac) (s : Sweep) : Prop where
  split : ∀ d, ∃ pre, s.Split c d pre
  ahead : ∀ d, ∀ a ∈ (s.rest d).head?, s.frontier < (s.accum d).size.toInt + a.size.toInt
  better : ∀ d, s.better d = true ↔
    ∃ x : K, 0 ≤ x ∧ x ≤ s.frontier ∧ diagram K (c (!d)) x < diagram K (c d) x

end Sweep

section Chord

variable {K : Type*} [Field K] [LinearOrder K] [IsStrictOrderedRing K]

/-- A point against a chord, cross-multiplied: below. -/
theorem lt_chord_iff {p a f s t : ℤ} (hs : 0 < s) :
    (p - a) * s < f * t ↔ (p : K) < a + f / s * t := by
  have hs' : (0 : K) < s := by exact_mod_cast hs
  rw [show (a : K) + f / s * t = a + f * t / s by ring, ← sub_lt_iff_lt_add', lt_div_iff₀ hs']
  norm_cast

/-- A point against a chord, cross-multiplied: above. -/
theorem chord_lt_iff {p a f s t : ℤ} (hs : 0 < s) :
    f * t < (p - a) * s ↔ (a + f / s * t : K) < p := by
  have hs' : (0 : K) < s := by exact_mod_cast hs
  rw [show (a : K) + f / s * t = a + f * t / s by ring, ← lt_sub_iff_add_lt', div_lt_iff₀ hs']
  norm_cast

end Chord

/-- Every side is `u` or the other one. -/
theorem side_eq_or_eq_not (u d : Bool) : d = u ∨ d = !u := by
  cases u <;> cases d <;> simp

namespace Sweep

section Step

variable {K : Type*} [Field K] [LinearOrder K] [IsStrictOrderedRing K]
variable {c : Bool → List FeeFrac} {s : Sweep} {oneDone u : Bool} {a : FeeFrac}
  {rest : List FeeFrac}

/-- What `iterate` establishes for `visit`: diagram `u` has a next chunk `a`, `oneDone` says
whether the other diagram is done, and `P` is not beyond the other diagram's next point `B`. -/
structure Visitable (s : Sweep) (oneDone u : Bool) (a : FeeFrac) (rest : List FeeFrac) : Prop where
  rest_eq : s.rest u = a :: rest
  oneDone_eq : oneDone = (s.rest (!u)).isEmpty
  le_next : ∀ b ∈ (s.rest (!u)).head?,
    (s.accum u).size.toInt + a.size.toInt ≤ (s.accum (!u)).size.toInt + b.size.toInt

theorem nextPoint_of_rest {d : Bool} {b : FeeFrac} {l : List FeeFrac} (h : s.rest d = b :: l) :
    s.nextPoint d = b + s.accum d := by
  rw [nextPoint, h, List.headD_cons]

theorem Split.size_lt (hc : Contract c) {d : Bool} {pre : List FeeFrac} (h : s.Split c d pre) :
    0 ≤ sizeSum pre ∧ sizeSum pre < 2 ^ 31 := by
  have hpos : ∀ x ∈ c d, 0 < x.size.toInt := hc.size_pos d
  have hsum := hc.size_sum d
  rw [h.1] at hpos hsum
  have hrest : 0 ≤ sizeSum (s.rest d) := sizeSum_nonneg fun x hx => hpos x (by simp [hx])
  rw [sizeSum_append] at hsum
  exact ⟨sizeSum_nonneg fun x hx => hpos x (by simp [hx]), by omega⟩

/-- **The comparison of `P` with the other diagram** is that of the two diagrams at the size
of `P`. -/
theorem comparePoint_eq (hc : Contract c) {pu po : List FeeFrac} (hu : s.Split c u pu)
    (ho : s.Split c (!u) po) (hv : Visitable s oneDone u a rest)
    (hX : sizeSum po < sizeSum pu + a.size.toInt) :
    s.comparePoint oneDone u =
      compare (diagram K (c u) (sizeSum pu + a.size.toInt : ℤ))
        (diagram K (c (!u)) (sizeSum pu + a.size.toInt : ℤ)) := by
  have hP := hu.point_exact hc hv.rest_eq
  simp only [feeSum_append, feeSum_singleton, sizeSum_append, sizeSum_singleton] at hP
  have hposu : ∀ x ∈ pu ++ s.rest u, 0 < x.size.toInt := hu.1 ▸ hc.size_pos u
  have hposo : ∀ x ∈ po ++ s.rest (!u), 0 < x.size.toInt := ho.1 ▸ hc.size_pos (!u)
  have ha : 0 < a.size.toInt := hposu a (by simp [hv.rest_eq])
  -- the diagram of `u` at the size of `P` is at `P`
  have hDu : diagram K (c u) (sizeSum pu + a.size.toInt : ℤ) = (feeSum pu + a.fee.toInt : ℤ) := by
    rw [hu.1, diagram_on_chunk hposu hv.rest_eq (by push_cast; linarith [(show (0 : K) < a.size.toInt by exact_mod_cast ha)]) (by push_cast; rfl)]
    have : (a.size.toInt : K) ≠ 0 := by exact_mod_cast ha.ne'
    push_cast
    field_simp
    ring
  -- the slope from `A` to `P` is exact
  have hspan := hc.fee_span u (pu.length + 1) po.length
  rw [hu.1, ho.1, hv.rest_eq, List.take_left' rfl,
    show pu ++ a :: rest = (pu ++ [a]) ++ rest by simp, List.take_left' (by simp)] at hspan
  simp only [feeSum_append, feeSum_singleton, abs_lt] at hspan
  have hsu := hu.size_lt hc
  have hso := ho.size_lt hc
  have hap_fee : (s.nextPoint u - s.accum (!u)).fee.toInt = feeSum pu + a.fee.toInt - feeSum po := by
    rw [nextPoint_of_rest hv.rest_eq, FeeFrac.fee_sub, toInt_sub_exact (by rw [hP.1, ho.2.1]; linarith) (by rw [hP.1, ho.2.1]; linarith), hP.1, ho.2.1]
  have hap_size : (s.nextPoint u - s.accum (!u)).size.toInt = sizeSum pu + a.size.toInt - sizeSum po := by
    have := Int32.toInt_lt (a + s.accum u).size
    rw [nextPoint_of_rest hv.rest_eq, FeeFrac.size_sub, toInt32_sub_exact (by rw [hP.2, ho.2.2]; omega) (by rw [hP.2, ho.2.2]; omega), hP.2, ho.2.2]
  rcases hro : s.rest (!u) with _ | ⟨b, resto⟩
  · -- the other diagram is done: `P` against its horizontal tail
    have hone : oneDone = true := by rw [hv.oneDone_eq, hro]; rfl
    have hDo : diagram K (c (!u)) (sizeSum pu + a.size.toInt : ℤ) = (feeSum po : ℤ) := by
      rw [ho.1, hro, List.append_nil]
      exact diagram_of_sizeSum_le (by simpa [hro] using hposo) (by exact_mod_cast hX.le)
    rw [hDu, hDo, hone, comparePoint]
    simp only [if_true, FeeRateCompare, FeeFrac.Mul, hap_fee, Int32.toInt_one, mul_one, Int64.toInt_zero,
      zero_mul]
    refine compare_eq_compare_of_iff ⟨fun h => ?_, fun h => ?_⟩ ⟨fun h => ?_, fun h => ?_⟩
    · exact_mod_cast (show feeSum pu + a.fee.toInt < feeSum po by linarith)
    · have : feeSum pu + a.fee.toInt < feeSum po := by exact_mod_cast h
      linarith
    · exact_mod_cast (show feeSum po < feeSum pu + a.fee.toInt by linarith)
    · have : feeSum po < feeSum pu + a.fee.toInt := by exact_mod_cast h
      linarith
  · -- `P` against the segment from `A` to `B`
    have hone : oneDone = false := by rw [hv.oneDone_eq, hro]; rfl
    have hB := ho.point_exact hc hro
    simp only [feeSum_append, feeSum_singleton, sizeSum_append, sizeSum_singleton] at hB
    have hb : 0 < b.size.toInt := hposo b (by simp [hro])
    have hle := hv.le_next b (by simp [hro])
    rw [hu.2.2, ho.2.2] at hle
    have hab_fee : (s.nextPoint (!u) - s.accum (!u)).fee.toInt = b.fee.toInt := by
      have h₁ := Int64.le_toInt b.fee
      have h₂ := Int64.toInt_lt b.fee
      rw [nextPoint_of_rest hro, FeeFrac.fee_sub, toInt_sub_exact (by rw [hB.1, ho.2.1]; linarith)
        (by rw [hB.1, ho.2.1]; linarith), hB.1, ho.2.1]
      ring
    have hab_size : (s.nextPoint (!u) - s.accum (!u)).size.toInt = b.size.toInt := by
      have h₁ := Int32.le_toInt b.size
      have h₂ := Int32.toInt_lt b.size
      rw [nextPoint_of_rest hro, FeeFrac.size_sub, toInt32_sub_exact (by rw [hB.2, ho.2.2]; omega)
        (by rw [hB.2, ho.2.2]; omega), hB.2, ho.2.2]
      ring
    have hDo : diagram K (c (!u)) (sizeSum pu + a.size.toInt : ℤ) = (feeSum po : K) +
        b.fee.toInt / b.size.toInt * ((sizeSum pu + a.size.toInt - sizeSum po : ℤ) : K) := by
      rw [ho.1, diagram_on_chunk hposo hro (by exact_mod_cast hX.le) (by exact_mod_cast hle)]
      push_cast
      ring
    rw [hDu, hDo, hone, comparePoint]
    simp only [Bool.false_eq_true, if_false, FeeRateCompare, FeeFrac.Mul, hap_fee, hap_size, hab_fee,
      hab_size]
    exact compare_eq_compare_of_iff (lt_chord_iff hb) (chord_lt_iff hb)

theorem Split.visit_self (hc : Contract c) {pu : List FeeFrac} (hu : s.Split c u pu)
    (hv : Visitable s oneDone u a rest) : (s.visit oneDone u).Split c u (pu ++ [a]) := by
  have hP := hu.point_exact hc hv.rest_eq
  refine ⟨?_, ?_, ?_⟩
  · rw [hu.1, visit_rest_self, hv.rest_eq]
    simp
  · rw [visit_accum_self, hv.rest_eq, List.headD_cons, FeeFrac.add_comm]
    exact hP.1
  · rw [visit_accum_self, hv.rest_eq, List.headD_cons, FeeFrac.add_comm]
    exact hP.2

/-- After `visit` the other diagram is split at `B` if it was processed along with `P`, and at
`A` otherwise; either way at most at the size of `P`, with its next point beyond. -/
theorem Split.visit_other (hc : Contract c) {pu po : List FeeFrac} (hu : s.Split c u pu)
    (ho : s.Split c (!u) po) (hv : Visitable s oneDone u a rest)
    (hlt : sizeSum po < sizeSum pu + a.size.toInt) :
    ∃ po', (s.visit oneDone u).Split c (!u) po' ∧ sizeSum po' ≤ sizeSum pu + a.size.toInt ∧
      ∀ b ∈ ((s.visit oneDone u).rest (!u)).head?,
        sizeSum pu + a.size.toInt < sizeSum po' + b.size.toInt := by
  have hP := hu.point_exact hc hv.rest_eq
  simp only [sizeSum_append, sizeSum_singleton] at hP
  have hposo : ∀ x ∈ po ++ s.rest (!u), 0 < x.size.toInt := ho.1 ▸ hc.size_pos (!u)
  have hX := hv.le_next
  rw [hu.2.2, ho.2.2] at hX
  by_cases hadv : s.advancesOther oneDone u = true
  · -- `B` is processed along with `P`: both are at the same size
    have hrest' := visit_rest_other s oneDone u
    have haccum' := visit_accum_other s oneDone u
    rw [if_pos hadv] at hrest' haccum'
    simp only [advancesOther, Bool.and_eq_true, Bool.not_eq_true', beq_iff_eq] at hadv
    obtain ⟨hone, hsize⟩ := hadv
    rcases hro : s.rest (!u) with _ | ⟨b, resto⟩
    · rw [hv.oneDone_eq, hro] at hone
      simp at hone
    rw [hro] at hrest' haccum'
    have hB := ho.point_exact hc hro
    rw [nextPoint_of_rest hro, nextPoint_of_rest hv.rest_eq] at hsize
    have hBP : sizeSum (po ++ [b]) = sizeSum pu + a.size.toInt := by
      rw [← hB.2, ← hP.2, hsize]
    refine ⟨po ++ [b], ⟨?_, ?_, ?_⟩, hBP.le, fun b' hb' => ?_⟩
    · rw [ho.1, hro, hrest']
      simp
    · rw [haccum', List.headD_cons, FeeFrac.add_comm]
      exact hB.1
    · rw [haccum', List.headD_cons, FeeFrac.add_comm]
      exact hB.2
    · rw [hrest', List.tail_cons] at hb'
      have : 0 < b'.size.toInt := hposo b' (by simp [hro, List.mem_of_mem_head? hb'])
      omega
  · -- otherwise the other diagram stays at `A`, short of `P` or with `B` beyond it
    have hrest' := visit_rest_other s oneDone u
    have haccum' := visit_accum_other s oneDone u
    rw [if_neg hadv] at hrest' haccum'
    refine ⟨po, ⟨by rw [hrest']; exact ho.1, by rw [haccum']; exact ho.2.1,
      by rw [haccum']; exact ho.2.2⟩, hlt.le, fun b hb => ?_⟩
    rw [hrest'] at hb
    obtain ⟨resto, hro⟩ : ∃ resto, s.rest (!u) = b :: resto := by
      rcases hro : s.rest (!u) with _ | ⟨b', resto⟩
      · simp [hro] at hb
      · simp only [hro, List.head?_cons, Option.mem_def, Option.some.injEq] at hb
        exact ⟨resto, hb ▸ rfl⟩
    have hone : oneDone = false := by rw [hv.oneDone_eq, hro]; rfl
    have hB := ho.point_exact hc hro
    simp only [sizeSum_append, sizeSum_singleton] at hB
    -- not processed along with `P`, so `B` is at another size
    have hne : sizeSum po + b.size.toInt ≠ sizeSum pu + a.size.toInt := by
      intro heq
      apply hadv
      simp only [advancesOther, hone, Bool.not_false, Bool.true_and, beq_iff_eq]
      rw [nextPoint_of_rest hro, nextPoint_of_rest hv.rest_eq, ← Int32.toInt_inj, hB.2, hP.2, heq]
    have := hX b (by simp [hro])
    omega

/-- **One pass of the loop keeps the invariant.** Between the frontier and the size of `P`
both diagrams are affine, so whether one is above the other somewhere up to `P` is decided by
the comparison at `P`. -/
theorem Inv.visit (hc : Contract c) (hs : s.Inv K c) (hv : Visitable s oneDone u a rest) :
    (s.visit oneDone u).Inv K c := by
  obtain ⟨pu, hu⟩ := hs.split u
  obtain ⟨po, ho⟩ := hs.split (!u)
  have hposu : ∀ x ∈ pu ++ s.rest u, 0 < x.size.toInt := hu.1 ▸ hc.size_pos u
  have hposo : ∀ x ∈ po ++ s.rest (!u), 0 < x.size.toInt := ho.1 ▸ hc.size_pos (!u)
  -- the frontier `X` lies past both accumulated points and short of `P`
  have hXP : s.frontier < sizeSum pu + a.size.toInt := by
    have := hs.ahead u a (by simp [hv.rest_eq])
    rwa [hu.2.2] at this
  have hXu : sizeSum pu ≤ s.frontier := by
    rw [frontier_eq s u, ← hu.2.2]
    exact le_max_left _ _
  have hXo : sizeSum po ≤ s.frontier := by
    rw [frontier_eq s u, ← ho.2.2]
    exact le_max_right _ _
  have hX0 : (0 : K) ≤ s.frontier := by exact_mod_cast (hu.size_lt hc).1.trans hXu
  have hsu' := hu.visit_self hc hv
  obtain ⟨po', ho', hpo', hahead'⟩ := Split.visit_other hc hu ho hv (hXo.trans_lt hXP)
  have hfront : (s.visit oneDone u).frontier = sizeSum pu + a.size.toInt := by
    rw [frontier_eq _ u, hsu'.2.2, ho'.2.2, sizeSum_append, sizeSum_singleton]
    exact max_eq_left hpo'
  have hcmp := comparePoint_eq (K := K) hc hu ho hv (hXo.trans_lt hXP)
  -- both diagrams are affine from the frontier to `P`
  have haffu : Polyline.AffineOn (diagram K (c u)) s.frontier (sizeSum pu + a.size.toInt : ℤ) := by
    rw [hu.1]
    exact (affineOn_chunk hposu hv.rest_eq).mono (by exact_mod_cast hXu) (by push_cast; rfl)
  have haffo : Polyline.AffineOn (diagram K (c (!u))) s.frontier
      (sizeSum pu + a.size.toInt : ℤ) := by
    rw [ho.1]
    rcases hro : s.rest (!u) with _ | ⟨b, resto⟩
    · rw [List.append_nil]
      exact (affineOn_end (by simpa [hro] using hposo) _).mono (by exact_mod_cast hXo) le_rfl
    · have hle := hv.le_next b (by simp [hro])
      rw [hu.2.2, ho.2.2] at hle
      exact (affineOn_chunk (hro ▸ hposo) rfl).mono (by exact_mod_cast hXo) (by exact_mod_cast hle)
  refine ⟨fun d => ?_, fun d => ?_, fun d => ?_⟩
  · rcases side_eq_or_eq_not u d with rfl | rfl
    exacts [⟨_, hsu'⟩, ⟨_, ho'⟩]
  · rcases side_eq_or_eq_not u d with rfl | rfl
    · intro b hb
      rw [visit_rest_self, hv.rest_eq, List.tail_cons] at hb
      have : 0 < b.size.toInt := hposu b (by simp [hv.rest_eq, List.mem_of_mem_head? hb])
      rw [hfront, hsu'.2.2, sizeSum_append, sizeSum_singleton]
      omega
    · intro b hb
      rw [hfront, ho'.2.2]
      exact hahead' b hb
  · rcases side_eq_or_eq_not u d with rfl | rfl
    · -- `better_somewhere[u]` is set when `P` is above the other diagram
      rw [visit_better_self, Bool.or_eq_true, hs.better d, beq_iff_eq, hcmp, compare_gt_iff_gt,
        hfront]
      exact (haffu.exists_lt_iff haffo hX0 (by exact_mod_cast hXP.le)).symm
    · -- `better_somewhere[!u]` is set when `P` is below it
      rw [visit_better_other, Bool.or_eq_true, hs.better (!u), beq_iff_eq, hcmp,
        compare_lt_iff_lt, hfront, Bool.not_not]
      exact (haffo.exists_lt_iff haffu hX0 (by exact_mod_cast hXP.le)).symm

/-- The chunks left to process. -/
def remaining (s : Sweep) : ℕ := (s.rest false).length + (s.rest true).length

theorem remaining_eq (s : Sweep) (u : Bool) :
    s.remaining = (s.rest u).length + (s.rest (!u)).length := by
  cases u
  · rfl
  · exact Nat.add_comm _ _

theorem remaining_visit (hv : Visitable s oneDone u a rest) :
    (s.visit oneDone u).remaining < s.remaining := by
  rw [remaining_eq _ u, remaining_eq s u, visit_rest_self, visit_rest_other, hv.rest_eq]
  split_ifs
  · simp only [List.tail_cons, List.length_cons, List.length_tail]
    omega
  · simp

/-- **`unproc_side` can be visited**: it has a next point, and that point is not beyond the
other diagram's. -/
theorem visitable_unprocSide (hc : Contract c) (hsplit : ∀ d, ∃ pre, s.Split c d pre)
    (hnd : (s.done false && s.done true) = false) :
    ∃ a rest, Visitable s (s.done false || s.done true) s.unprocSide a rest := by
  obtain ⟨p₀, h₀⟩ := hsplit false
  obtain ⟨p₁, h₁⟩ := hsplit true
  rcases hr₀ : s.rest false with _ | ⟨a₀, r₀⟩ <;> rcases hr₁ : s.rest true with _ | ⟨a₁, r₁⟩
  · simp [done, hr₀, hr₁] at hnd
  · -- diagram 0 is done
    have hu : s.unprocSide = true := by simp [unprocSide, done, hr₀]
    refine ⟨a₁, r₁, hu ▸ hr₁, by simp [done, hu, hr₀], by simp [hu, hr₀]⟩
  · -- diagram 1 is done
    have hu : s.unprocSide = false := by simp [unprocSide, done, hr₀, hr₁]
    refine ⟨a₀, r₀, hu ▸ hr₀, by simp [done, hu, hr₀, hr₁], by simp [hu, hr₁]⟩
  · -- both have a next point: the one of smaller size, diagram 0 on a tie
    have hd : (s.done false || s.done true) = false := by simp [done, hr₀, hr₁]
    have hP₀ := (h₀.point_exact hc hr₀).2
    have hP₁ := (h₁.point_exact hc hr₁).2
    rw [sizeSum_append, sizeSum_singleton, ← h₀.2.2] at hP₀
    rw [sizeSum_append, sizeSum_singleton, ← h₁.2.2] at hP₁
    rw [← nextPoint_of_rest hr₀] at hP₀
    rw [← nextPoint_of_rest hr₁] at hP₁
    by_cases hlt : (s.nextPoint false).size > (s.nextPoint true).size
    · have hu : s.unprocSide = true := by simp [unprocSide, done, hr₀, hr₁, hlt]
      rw [gt_iff_lt, Int32.lt_iff_toInt_lt, hP₀, hP₁] at hlt
      refine ⟨a₁, r₁, hu ▸ hr₁, by simp [hd, hu, hr₀], ?_⟩
      simp only [hu, Bool.not_true, hr₀, List.head?_cons, Option.mem_def, Option.some.injEq]
      rintro b rfl
      exact hlt.le
    · have hu : s.unprocSide = false := by simp [unprocSide, done, hr₀, hr₁, hlt]
      rw [gt_iff_lt, Int32.lt_iff_toInt_lt, hP₀, hP₁] at hlt
      refine ⟨a₀, r₀, hu ▸ hr₀, by simp [hd, hu, hr₁], ?_⟩
      simp only [hu, Bool.not_false, hr₁, List.head?_cons, Option.mem_def, Option.some.injEq]
      rintro b rfl
      exact not_lt.1 hlt

/-- Once both diagrams are done, `better_somewhere[d]` says whether diagram `d` is above the
other anywhere: past the frontier both are horizontal. -/
theorem Inv.better_iff_above (hc : Contract c) (hs : s.Inv K c) (d : Bool)
    (hdone : s.rest d = [] ∧ s.rest (!d) = []) :
    s.better d = true ↔ Above K (c d) (c (!d)) := by
  obtain ⟨pd, hcd, -, hsd⟩ := hs.split d
  obtain ⟨po, hco, -, hso⟩ := hs.split (!d)
  rw [hdone.1, List.append_nil] at hcd
  rw [hdone.2, List.append_nil] at hco
  have hposd : ∀ x ∈ c d, 0 < x.size.toInt := hc.size_pos d
  have hposo : ∀ x ∈ c (!d), 0 < x.size.toInt := hc.size_pos (!d)
  rw [hcd] at hposd
  rw [hco] at hposo
  -- past the frontier each diagram is at its total fee
  have hflat : ∀ x : K, (s.frontier : K) ≤ x →
      diagram K (c d) x = feeSum pd ∧ diagram K (c (!d)) x = feeSum po := by
    intro x hx
    have hXd : sizeSum pd ≤ s.frontier := by
      rw [frontier_eq s d, ← hsd]
      exact le_max_left _ _
    have hXo : sizeSum po ≤ s.frontier := by
      rw [frontier_eq s d, ← hso]
      exact le_max_right _ _
    rw [hcd, hco]
    exact ⟨diagram_of_sizeSum_le hposd ((Int.cast_le.2 hXd).trans hx),
      diagram_of_sizeSum_le hposo ((Int.cast_le.2 hXo).trans hx)⟩
  rw [hs.better d]
  constructor
  · rintro ⟨x, hx₀, -, hx⟩
    exact ⟨x, hx₀, hx⟩
  · rintro ⟨x, hx₀, hx⟩
    rcases le_total x s.frontier with hxX | hXx
    · exact ⟨x, hx₀, hxX, hx⟩
    · have hX0 : (0 : K) ≤ s.frontier := by
        rw [frontier_eq s d, hsd]
        exact_mod_cast (sizeSum_nonneg hposd).trans (le_max_left _ _)
      refine ⟨s.frontier, hX0, le_rfl, ?_⟩
      rw [(hflat _ le_rfl).1, (hflat _ le_rfl).2]
      rwa [(hflat x hXx).1, (hflat x hXx).2] at hx

omit [IsStrictOrderedRing K] in
/-- Where the flags already say the diagram is above somewhere, it is. -/
theorem Inv.above_of_better (hs : s.Inv K c) {d : Bool} (h : s.better d = true) :
    Above K (c d) (c (!d)) := by
  obtain ⟨x, hx₀, -, hx⟩ := (hs.better d).1 h
  exact ⟨x, hx₀, hx⟩

theorem inv_start (hc : Contract c) : (start c).Inv K c := by
  refine ⟨fun d => ⟨[], by simp [start], by simp [start], by simp [start]⟩, fun d a ha => ?_,
    fun d => ?_⟩
  · have : 0 < a.size.toInt := hc.size_pos d a (List.mem_of_mem_head? ha)
    simpa [frontier, start] using this
  · -- up to size 0 both diagrams are at 0
    simp only [start, Bool.false_eq_true, false_iff, not_exists, not_and]
    intro x hx₀ hx hlt
    have : x = 0 := le_antisymm (by simpa [frontier] using hx) hx₀
    subst this
    rw [diagram_zero (hc.size_pos d), diagram_zero (hc.size_pos (!d))] at hlt
    exact lt_irrefl _ hlt

/-- **The loop computes the pointwise comparison** from any state that satisfies the invariant,
with enough fuel: by induction on the fuel, one `iterate` per pass. -/
theorem loop_eq (hc : Contract c) (fuel : ℕ) :
    ∀ s : Sweep, s.Inv K c → ¬(s.better false = true ∧ s.better true = true) →
      s.remaining < fuel → loop fuel s = diagramOrder K (c false) (c true) := by
  induction fuel with
  | zero => exact fun s _ _ h => absurd h (Nat.not_lt_zero _)
  | succ fuel ih =>
    intro s hs hnb hlt
    rw [loop]
    by_cases hd : (s.done false && s.done true) = true
    · -- both diagrams are done: each flag says whether its diagram is above anywhere
      rw [if_pos hd]
      have hdone : s.rest false = [] ∧ s.rest true = [] := by simpa [done] using hd
      have h₀ := hs.better_iff_above hc false hdone
      have h₁ := hs.better_iff_above hc true hdone.symm
      rw [Bool.not_false] at h₀
      rw [Bool.not_true] at h₁
      rw [diagramOrder, if_neg fun h => hnb ⟨h₀.2 h.1, h₁.2 h.2⟩]
      congr 1
      · exact Bool.eq_iff_iff.2 (by simpa using h₀)
      · exact Bool.eq_iff_iff.2 (by simpa using h₁)
    · rw [if_neg hd]
      obtain ⟨a, rest, hv⟩ := visitable_unprocSide hc hs.split (by simpa using hd)
      have hs' : s.iterate.Inv K c := hs.visit hc hv
      have hlt' : s.iterate.remaining < s.remaining := remaining_visit hv
      dsimp only
      split_ifs with hb
      · -- better on both sides: the diagrams are unordered
        rw [Bool.and_eq_true] at hb
        rw [diagramOrder, if_pos ⟨hs'.above_of_better hb.1, hs'.above_of_better hb.2⟩]
      · exact ih _ hs' (by simpa using hb) (by omega)

end Step

end Sweep

/-- **`CompareChunks` is the pointwise comparison of the two diagrams** under its contract. -/
theorem CompareChunks_eq_diagramOrder (K : Type*) [Field K] [LinearOrder K]
    [IsStrictOrderedRing K] {chunks0 chunks1 : List FeeFrac}
    (hc : Contract (sides chunks0 chunks1)) :
    CompareChunks chunks0 chunks1 = diagramOrder K chunks0 chunks1 :=
  Sweep.loop_eq hc _ _ (Sweep.inv_start hc) (by simp [Sweep.start])
    (by simp [Sweep.remaining, Sweep.start, sides])

/-- The cumulative fees of the chunks: `0`, then the fee sum up to each chunk. -/
def cumulativeFees (l : List FeeFrac) : List ℤ := l.inits.map feeSum

/-- The contract from the conditions on each list: positive sizes, size sums below `2 ^ 31`,
and each cumulative fee of one diagram within `2 ^ 63` of each of the other. -/
theorem contract_sides {chunks0 chunks1 : List FeeFrac}
    (hpos : ∀ a ∈ chunks0 ++ chunks1, 0 < a.size.toInt) (hs₀ : sizeSum chunks0 < 2 ^ 31)
    (hs₁ : sizeSum chunks1 < 2 ^ 31)
    (hfee : ∀ p ∈ cumulativeFees chunks0, ∀ q ∈ cumulativeFees chunks1, |p - q| < 2 ^ 63) :
    Contract (sides chunks0 chunks1) := by
  have hmem : ∀ (l : List FeeFrac) (i : ℕ), feeSum (l.take i) ∈ cumulativeFees l :=
    fun l i => List.mem_map_of_mem (List.mem_inits _ _ |>.2 (List.take_prefix i l))
  refine ⟨fun d a ha => ?_, fun d => ?_, fun d i j => ?_⟩
  · cases d <;> exact hpos a (by simp_all [sides])
  · cases d <;> assumption
  · cases d
    · exact hfee _ (hmem _ i) _ (hmem _ j)
    · rw [abs_sub_comm]
      exact hfee _ (hmem _ j) _ (hmem _ i)

/-- **`CompareChunks` is the pointwise comparison of the diagrams, and `operator<=>` is a total
order.** For chunk lists with positive sizes, size sums below `2 ^ 31`, and every cumulative fee
of one diagram within `2 ^ 63` of every cumulative fee of the other (as when fees are not
negative and sum below `2 ^ 63`), sorted or not: `greater` iff diagram 0 is nowhere below
diagram 1 and somewhere above, `less` symmetrically, `equivalent` iff they coincide, `unordered`
iff each is above somewhere. On FeeFracs with a positive size and the empty one, `<=>` compares
by increasing feerate, the empty FeeFrac's above all, then by decreasing size, and only equal
FeeFracs have equal keys. -/
theorem CompareChunks_pointwise_order (K : Type*) [Field K] [LinearOrder K]
    [IsStrictOrderedRing K] :
    (∀ chunks0 chunks1 : List FeeFrac, (∀ a ∈ chunks0 ++ chunks1, 0 < a.size.toInt) →
      sizeSum chunks0 < 2 ^ 31 → sizeSum chunks1 < 2 ^ 31 →
      (∀ p ∈ cumulativeFees chunks0, ∀ q ∈ cumulativeFees chunks1, |p - q| < 2 ^ 63) →
      (CompareChunks chunks0 chunks1 = .greater ↔
        (∀ x : K, 0 ≤ x → diagram K chunks1 x ≤ diagram K chunks0 x) ∧
          ∃ x : K, 0 ≤ x ∧ diagram K chunks1 x < diagram K chunks0 x) ∧
      (CompareChunks chunks0 chunks1 = .less ↔
        (∀ x : K, 0 ≤ x → diagram K chunks0 x ≤ diagram K chunks1 x) ∧
          ∃ x : K, 0 ≤ x ∧ diagram K chunks0 x < diagram K chunks1 x) ∧
      (CompareChunks chunks0 chunks1 = .equivalent ↔
        ∀ x : K, 0 ≤ x → diagram K chunks0 x = diagram K chunks1 x) ∧
      (CompareChunks chunks0 chunks1 = .unordered ↔
        (∃ x : K, 0 ≤ x ∧ diagram K chunks1 x < diagram K chunks0 x) ∧
          ∃ x : K, 0 ≤ x ∧ diagram K chunks0 x < diagram K chunks1 x)) ∧
    (∀ a b : FeeFrac, Valid a → Valid b →
      threeWay Mul compare a b = compare (sortKey a) (sortKey b)) ∧
    (∀ a b : FeeFrac, Valid a → Valid b → sortKey a = sortKey b → a = b) := by
  refine ⟨fun chunks0 chunks1 hpos hs₀ hs₁ hfee => ?_, fun a b ha hb =>
    threeWay_eq_compare_sortKey ha hb, fun a b ha hb => sortKey_injective ha hb⟩
  rw [CompareChunks_eq_diagramOrder K (contract_sides hpos hs₀ hs₁ hfee),
    diagramOrder_eq_greater_iff, diagramOrder_eq_less_iff, diagramOrder_eq_equivalent_iff,
    diagramOrder_eq_unordered_iff, not_above_iff, not_above_iff]
  refine ⟨and_comm, and_comm, ⟨fun h x hx => le_antisymm (h.1 x hx) (h.2 x hx),
    fun h => ⟨fun x hx => (h x hx).le, fun x hx => (h x hx).ge⟩⟩, Iff.rfl⟩

theorem CompareChunks_pointwise_order_greater :
    (CompareChunks [⟨10, 2⟩, ⟨3, 3⟩] [⟨10, 3⟩, ⟨3, 2⟩] = .greater ↔
      (∀ x : ℚ, 0 ≤ x → diagram ℚ [⟨10, 3⟩, ⟨3, 2⟩] x ≤ diagram ℚ [⟨10, 2⟩, ⟨3, 3⟩] x) ∧
        ∃ x : ℚ, 0 ≤ x ∧ diagram ℚ [⟨10, 3⟩, ⟨3, 2⟩] x < diagram ℚ [⟨10, 2⟩, ⟨3, 3⟩] x) ∧
    threeWay Mul compare ⟨1, 2⟩ ⟨0, 0⟩ = compare (sortKey ⟨1, 2⟩) (sortKey ⟨0, 0⟩) ∧
    (sortKey ⟨1, 2⟩ = sortKey ⟨1, 2⟩ → (⟨1, 2⟩ : FeeFrac) = ⟨1, 2⟩) :=
  ⟨((CompareChunks_pointwise_order ℚ).1 _ _ (by decide) (by decide) (by decide) (by decide)).1,
    (CompareChunks_pointwise_order ℚ).2.1 _ _ (by decide) (by decide),
    (CompareChunks_pointwise_order ℚ).2.2 _ _ (by decide) (by decide)⟩

example : CompareChunks [⟨10, 2⟩, ⟨3, 3⟩] [⟨10, 2⟩, ⟨3, 3⟩] = .equivalent := by decide
example : CompareChunks [⟨10, 2⟩] [⟨11, 3⟩] = .unordered := by decide

/-- With negative fees the cumulative fees of the two diagrams can lie more than `2 ^ 63` apart
while each stays within `2 ^ 63` of `0`: the slope from `A` to `P` then overflows `int64_t`,
and the sweep finds diagram 1 above where it is nowhere above. A negative size breaks the
transitivity of `<=>`. -/
theorem CompareChunks_fee_overflow :
    CompareChunks [⟨0x4000000000000000, 3⟩]
      [⟨-0x3fffffffffffffff, 1⟩, ⟨-0x3fffffffffffffff, 1⟩] = .unordered ∧
    (∀ x : ℚ, 0 ≤ x → diagram ℚ [⟨-0x3fffffffffffffff, 1⟩, ⟨-0x3fffffffffffffff, 1⟩] x ≤
      diagram ℚ [⟨0x4000000000000000, 3⟩] x) ∧
    (∀ p ∈ cumulativeFees [⟨0x4000000000000000, 3⟩] ++
      cumulativeFees [⟨-0x3fffffffffffffff, 1⟩, ⟨-0x3fffffffffffffff, 1⟩], |p| < 2 ^ 63) ∧
    threeWay Mul compare ⟨-3, -3⟩ ⟨-3, -2⟩ = .lt ∧ threeWay Mul compare ⟨-3, -2⟩ ⟨1, 1⟩ = .lt ∧
    threeWay Mul compare ⟨-3, -3⟩ ⟨1, 1⟩ = .gt := by
  refine ⟨by decide, fun x hx => ?_, by decide, by decide, by decide, by decide⟩
  have h₀ : (0x4000000000000000 : Int64).toInt = 2 ^ 62 := by decide
  have h₁ : (-0x3fffffffffffffff : Int64).toInt = -(2 ^ 62 - 1) := by decide
  -- diagram 1 never rises above 0, and diagram 0 never falls below it
  have hd₁ : diagram ℚ [⟨-0x3fffffffffffffff, 1⟩, ⟨-0x3fffffffffffffff, 1⟩] x ≤ 0 := by
    simp only [diagram, segments, List.map_cons, List.map_nil, Polyline.polyline, h₁]
    split_ifs <;> push_cast <;> nlinarith
  have hd₀ : 0 ≤ diagram ℚ [⟨0x4000000000000000, 3⟩] x := by
    simp only [diagram, segments, List.map_cons, List.map_nil, Polyline.polyline, h₀]
    split_ifs <;> push_cast <;> positivity
  exact hd₁.trans hd₀

end Tenscoin
