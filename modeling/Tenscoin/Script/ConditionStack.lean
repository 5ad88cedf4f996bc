import Mathlib

/-!
# The condition stack of the script interpreter

`ConditionStack` (`script/interpreter.cpp`) stands for the stack of booleans that the nested
`OP_IF`/`OP_NOTIF`/`OP_ELSE`/`OP_ENDIF` of a script push, toggle and pop. It keeps only the
stack's size and the position of its first `false`, with `NO_FALSE` for none, both `uint32_t`.

The abstract model is the plain `std::vector<bool>` the class replaces: `vecApply` pushes,
pops or negates the last element of a list. `Refines s v` says that `s` is the compact form of
`v`: its size is `v.length` and its first-false field is `firstFalse v`. The proof is a step
refinement:

* `Refines.empty` and `Refines.all_true`: the two observers answer as the vector does;
* `Refines.push_back`, `Refines.pop_back`, `Refines.toggle_top`: each method keeps the relation,
  an assertion never failing on a non-empty stack, as long as the size fits in 32 bits;
* `run_refines`: by induction on the operations, a whole admissible sequence keeps it.

The methods' only delicate case is `toggle_top` at the first `false`, and `pop_back` of it,
both of which make the stack all true again; what lies above the first `false` is never kept.
-/

namespace Tenscoin

/-- `NO_FALSE`, `std::numeric_limits<uint32_t>::max()`: no `false` on the stack. -/
def NO_FALSE : UInt32 := 0xFFFFFFFF

/-- `ConditionStack`: the size of the implied stack and the position of its first `false`. -/
structure ConditionStack where
  m_stack_size : UInt32 := 0
  m_first_false_pos : UInt32 := NO_FALSE
deriving DecidableEq, Repr

namespace ConditionStack

/-- `empty()`. -/
def empty (s : ConditionStack) : Bool := s.m_stack_size == 0

/-- `all_true()`. -/
def all_true (s : ConditionStack) : Bool := s.m_first_false_pos == NO_FALSE

/-- `push_back(f)`: a `false` pushed on an all-true stack is the first `false`. -/
def push_back (s : ConditionStack) (f : Bool) : ConditionStack :=
  { m_stack_size := s.m_stack_size + 1
    m_first_false_pos :=
      if s.m_first_false_pos == NO_FALSE && !f then s.m_stack_size else s.m_first_false_pos }

/-- `pop_back()`, with its `assert(m_stack_size > 0)`: popping the first `false` leaves an
all-true stack. -/
def pop_back (s : ConditionStack) : Except String ConditionStack :=
  if s.m_stack_size > 0 then
    let size := s.m_stack_size - 1
    .ok { m_stack_size := size
          m_first_false_pos := if s.m_first_false_pos == size then NO_FALSE else s.m_first_false_pos }
  else .error "m_stack_size > 0"

/-- `toggle_top()`, with its `assert(m_stack_size > 0)`. -/
def toggle_top (s : ConditionStack) : Except String ConditionStack :=
  if s.m_stack_size > 0 then
    if s.m_first_false_pos == NO_FALSE then
      -- all true: the top becomes the first `false`
      .ok { s with m_first_false_pos := s.m_stack_size - 1 }
    else if s.m_first_false_pos == s.m_stack_size - 1 then
      -- the top is the first `false`: toggling it makes everything true
      .ok { s with m_first_false_pos := NO_FALSE }
    else .ok s
  else .error "m_stack_size > 0"

/-- The three methods the interpreter calls on its condition stack. -/
inductive Op where
  | push_back (f : Bool)
  | pop_back
  | toggle_top
deriving DecidableEq, Repr

/-- One method call. -/
def apply (s : ConditionStack) : Op → Except String ConditionStack
  | .push_back f => .ok (s.push_back f)
  | .pop_back => s.pop_back
  | .toggle_top => s.toggle_top

/-- A sequence of method calls from `s`. -/
def run (s : ConditionStack) (ops : List Op) : Except String ConditionStack :=
  ops.foldlM apply s

/-! ### The vector it stands for -/

/-- The method on the `std::vector<bool>` the class replaces: `push_back`, `pop_back`, and
`back() = !back()`. -/
def vecApply (v : List Bool) : Op → List Bool
  | .push_back f => v ++ [f]
  | .pop_back => v.dropLast
  | .toggle_top => v.modifyLast (!·)

/-- The vector after a sequence of method calls. -/
def vecRun (v : List Bool) (ops : List Op) : List Bool :=
  ops.foldl vecApply v

/-- The calls a well-formed script makes: `pop_back` and `toggle_top` on a non-empty stack
only, and no `push_back` beyond `2 ^ 32 - 1` elements. -/
def Admissible : List Bool → List Op → Prop
  | _, [] => True
  | v, .push_back f :: ops => v.length + 1 < 2 ^ 32 ∧ Admissible (v ++ [f]) ops
  | v, .pop_back :: ops => v ≠ [] ∧ Admissible v.dropLast ops
  | v, .toggle_top :: ops => v ≠ [] ∧ Admissible (v.modifyLast (!·)) ops

instance instDecidableAdmissible : (v : List Bool) → (ops : List Op) → Decidable (Admissible v ops)
  | _, [] => isTrue trivial
  | v, .push_back f :: ops =>
    have := instDecidableAdmissible (v ++ [f]) ops
    inferInstanceAs (Decidable (_ ∧ _))
  | v, .pop_back :: ops =>
    have := instDecidableAdmissible v.dropLast ops
    inferInstanceAs (Decidable (_ ∧ _))
  | v, .toggle_top :: ops =>
    have := instDecidableAdmissible (v.modifyLast (!·)) ops
    inferInstanceAs (Decidable (_ ∧ _))

/-- The position of the vector's first `false`, or `NO_FALSE` when there is none. -/
def firstFalse (v : List Bool) : ℕ :=
  if false ∈ v then v.idxOf false else NO_FALSE.toNat

theorem NO_FALSE_toNat : NO_FALSE.toNat = 2 ^ 32 - 1 := rfl

theorem firstFalse_of_mem {v : List Bool} (h : false ∈ v) : firstFalse v = v.idxOf false :=
  if_pos h

theorem firstFalse_of_not_mem {v : List Bool} (h : false ∉ v) : firstFalse v = NO_FALSE.toNat :=
  if_neg h

theorem firstFalse_concat (u : List Bool) (b : Bool) :
    firstFalse (u ++ [b]) =
      if false ∈ u then firstFalse u else if b = false then u.length else NO_FALSE.toNat := by
  by_cases hu : false ∈ u
  · rw [if_pos hu, firstFalse_of_mem hu, firstFalse_of_mem (List.mem_append_left _ hu),
      List.idxOf_append_of_mem hu]
  · rw [if_neg hu]
    cases b
    · -- the pushed `false` is the first one
      rw [firstFalse_of_mem (List.mem_append_right _ (List.mem_singleton_self false)),
        List.idxOf_append_of_notMem hu, if_pos rfl, List.idxOf_cons_self, Nat.add_zero]
    · have hnot : false ∉ u ++ [true] := by simp [hu]
      rw [firstFalse_of_not_mem hnot, if_neg (by decide)]

/-! ### The refinement -/

/-- `s` is the compact form of the vector `v`. -/
structure Refines (s : ConditionStack) (v : List Bool) : Prop where
  size_eq : s.m_stack_size.toNat = v.length
  firstFalse_eq : s.m_first_false_pos.toNat = firstFalse v

/-- The empty stack, `ConditionStack{}`, is the empty vector. -/
theorem refines_init : Refines {} [] := ⟨rfl, rfl⟩

namespace Refines

variable {s : ConditionStack} {v : List Bool}

/-- The first `false` of a stack that fits in 32 bits is below `NO_FALSE`. -/
theorem firstFalse_lt (h : Refines s v) (hf : false ∈ v) : firstFalse v < NO_FALSE.toNat := by
  have hlen := h.size_eq ▸ s.m_stack_size.toNat_lt
  have hidx := List.idxOf_lt_length_of_mem hf
  rw [firstFalse_of_mem hf, NO_FALSE_toNat]
  omega

theorem first_false_eq_NO_FALSE_iff (h : Refines s v) : s.m_first_false_pos = NO_FALSE ↔ false ∉ v := by
  rw [← UInt32.toNat_inj, h.firstFalse_eq]
  constructor
  · intro hno hf
    exact absurd hno (h.firstFalse_lt hf).ne
  · exact firstFalse_of_not_mem

theorem empty (h : Refines s v) : s.empty = v.isEmpty := by
  have hiff : s.m_stack_size = 0 ↔ v = [] := by
    rw [← UInt32.toNat_inj, h.size_eq, ← List.length_eq_zero_iff]
    rfl
  rw [ConditionStack.empty, Bool.eq_iff_iff, beq_iff_eq, hiff, List.isEmpty_iff]

theorem all_true (h : Refines s v) : s.all_true = !v.contains false := by
  rw [ConditionStack.all_true, Bool.eq_iff_iff, beq_iff_eq, h.first_false_eq_NO_FALSE_iff]
  simp

/-- A `push_back` within 32 bits keeps the relation. -/
theorem push_back (h : Refines s v) (f : Bool) (hlen : v.length + 1 < 2 ^ 32) :
    Refines (s.push_back f) (v ++ [f]) := by
  constructor
  · rw [ConditionStack.push_back, UInt32.toNat_add, h.size_eq, List.length_append,
      List.length_singleton]
    exact Nat.mod_eq_of_lt hlen
  · show (if s.m_first_false_pos == NO_FALSE && !f then s.m_stack_size
        else s.m_first_false_pos).toNat = firstFalse (v ++ [f])
    rw [firstFalse_concat]
    by_cases hv : false ∈ v
    · -- a `false` below stays the first one, whatever is pushed
      have hne : s.m_first_false_pos ≠ NO_FALSE := fun hno => h.first_false_eq_NO_FALSE_iff.mp hno hv
      rw [if_pos hv, if_neg (by simp [hne]), h.firstFalse_eq]
    · have hno : s.m_first_false_pos = NO_FALSE := h.first_false_eq_NO_FALSE_iff.mpr hv
      rw [if_neg hv]
      cases f
      · rw [if_pos (by simp [hno]), if_pos rfl, h.size_eq]
      · rw [if_neg (by simp), if_neg (by decide), hno]

/-- `pop_back` on a non-empty stack succeeds and keeps the relation. -/
theorem pop_back (h : Refines s v) (hv : v ≠ []) :
    ∃ s', s.pop_back = .ok s' ∧ Refines s' v.dropLast := by
  obtain ⟨u, b, rfl⟩ := (List.eq_nil_or_concat' v).resolve_left hv
  have hsize : s.m_stack_size.toNat = u.length + 1 := by simp [h.size_eq]
  have hpos : s.m_stack_size > 0 := by rw [gt_iff_lt, UInt32.lt_iff_toNat_lt]; simp [hsize]
  have hpred : (s.m_stack_size - 1).toNat = u.length := by
    rw [UInt32.toNat_sub_of_le _ _ (by rw [UInt32.le_iff_toNat_le]; simp [hsize]), hsize]
    rfl
  refine ⟨_, if_pos hpos, ?_, ?_⟩
  · rw [List.dropLast_concat]
    exact hpred
  · show (if s.m_first_false_pos == s.m_stack_size - 1 then NO_FALSE
        else s.m_first_false_pos).toNat = firstFalse (u ++ [b]).dropLast
    rw [List.dropLast_concat]
    have hff := h.firstFalse_eq
    rw [firstFalse_concat] at hff
    by_cases hu : false ∈ u
    · -- the first `false` is below the top, and stays
      have hlt : firstFalse u < u.length := by
        rw [firstFalse_of_mem hu]; exact List.idxOf_lt_length_of_mem hu
      rw [if_pos hu] at hff
      rw [if_neg (by rw [beq_iff_eq, ← UInt32.toNat_inj, hff, hpred]; omega), hff]
    · rw [if_neg hu] at hff
      rw [firstFalse_of_not_mem hu]
      by_cases hb : b = false
      · -- the top was the first `false`: the rest is all true
        rw [if_pos hb] at hff
        rw [if_pos (by rw [beq_iff_eq, ← UInt32.toNat_inj, hff, hpred])]
      · -- no `false` at all, and the size is below `NO_FALSE`
        rw [if_neg hb] at hff
        have hne : ¬(s.m_first_false_pos == s.m_stack_size - 1) := by
          have hlen := s.m_stack_size.toNat_lt
          rw [beq_iff_eq, ← UInt32.toNat_inj, hff, hpred, NO_FALSE_toNat]
          omega
        rw [if_neg hne, hff]

/-- `toggle_top` on a non-empty stack succeeds and keeps the relation. -/
theorem toggle_top (h : Refines s v) (hv : v ≠ []) :
    ∃ s', s.toggle_top = .ok s' ∧ Refines s' (v.modifyLast (!·)) := by
  obtain ⟨u, b, rfl⟩ := (List.eq_nil_or_concat' v).resolve_left hv
  have hsize : s.m_stack_size.toNat = u.length + 1 := by simp [h.size_eq]
  have hpos : s.m_stack_size > 0 := by rw [gt_iff_lt, UInt32.lt_iff_toNat_lt]; simp [hsize]
  have hpred : (s.m_stack_size - 1).toNat = u.length := by
    rw [UInt32.toNat_sub_of_le _ _ (by rw [UInt32.le_iff_toNat_le]; simp [hsize]), hsize]
    rfl
  have hff := h.firstFalse_eq
  rw [firstFalse_concat] at hff
  rw [List.modifyLast_concat]
  unfold ConditionStack.toggle_top
  rw [if_pos hpos]
  by_cases hu : false ∈ u
  · -- a `false` below the top: nothing observable changes
    have hlt : firstFalse u < u.length := by
      rw [firstFalse_of_mem hu]; exact List.idxOf_lt_length_of_mem hu
    rw [if_pos hu] at hff
    have hne : s.m_first_false_pos ≠ NO_FALSE := by
      rw [Ne, ← UInt32.toNat_inj, hff, NO_FALSE_toNat]
      have hlen := s.m_stack_size.toNat_lt
      omega
    have hne' : s.m_first_false_pos ≠ s.m_stack_size - 1 := by
      rw [Ne, ← UInt32.toNat_inj, hff, hpred]; omega
    rw [if_neg (by simpa using hne), if_neg (by simpa using hne')]
    refine ⟨s, rfl, ?_, ?_⟩
    · simp [h.size_eq]
    · rw [firstFalse_concat, if_pos hu, hff]
  · rw [if_neg hu] at hff
    cases b
    · -- the top is the first `false`: toggling it leaves everything true
      rw [if_pos rfl] at hff
      have hne : s.m_first_false_pos ≠ NO_FALSE := by
        rw [Ne, ← UInt32.toNat_inj, hff, NO_FALSE_toNat]
        have hlen := s.m_stack_size.toNat_lt
        omega
      rw [if_neg (by simpa using hne), if_pos (by rw [beq_iff_eq, ← UInt32.toNat_inj, hff, hpred])]
      refine ⟨_, rfl, ?_, ?_⟩
      · simp [h.size_eq]
      · show NO_FALSE.toNat = _
        rw [firstFalse_concat, if_neg hu]
        rfl
    · -- all true: the toggled top is the first `false`
      rw [if_neg (by decide)] at hff
      rw [if_pos (by rw [beq_iff_eq, ← UInt32.toNat_inj, hff])]
      refine ⟨_, rfl, ?_, ?_⟩
      · simp [h.size_eq]
      · show (s.m_stack_size - 1).toNat = _
        rw [firstFalse_concat, if_neg hu, hpred]
        rfl

/-- **One method call keeps the relation.** -/
theorem apply (h : Refines s v) {op : Op} (hop : Admissible v [op]) :
    ∃ s', s.apply op = .ok s' ∧ Refines s' (vecApply v op) := by
  cases op with
  | push_back f => exact ⟨_, rfl, h.push_back f hop.1⟩
  | pop_back => exact h.pop_back hop.1
  | toggle_top => exact h.toggle_top hop.1

end Refines

/-- **A whole admissible sequence keeps the relation**, by induction on the calls. -/
theorem run_refines :
    ∀ {s : ConditionStack} {v : List Bool} {ops : List Op}, Refines s v → Admissible v ops →
      ∃ s', s.run ops = .ok s' ∧ Refines s' (vecRun v ops)
  | s, _, [], h, _ => ⟨s, rfl, h⟩
  | s, v, op :: ops, h, hadm => by
    have hstep : Admissible v [op] ∧ Admissible (vecApply v op) ops := by
      cases op <;> exact ⟨⟨hadm.1, trivial⟩, hadm.2⟩
    obtain ⟨s₁, hs₁, h₁⟩ := h.apply hstep.1
    obtain ⟨s₂, hs₂, h₂⟩ := run_refines h₁ hstep.2
    refine ⟨s₂, ?_, h₂⟩
    show (s.apply op >>= fun s => s.run ops) = .ok s₂
    rw [hs₁]
    exact hs₂

end ConditionStack

open ConditionStack in
theorem conditionStack_refines_vector (ops : List Op) (hadm : Admissible [] ops) :
    ∃ s, ConditionStack.run {} ops = .ok s ∧
      (s.empty = true ↔ vecRun [] ops = []) ∧
      (s.all_true = true ↔ ∀ b ∈ vecRun [] ops, b = true) := by
  obtain ⟨s, hrun, h⟩ := run_refines refines_init hadm
  refine ⟨s, hrun, ?_, ?_⟩
  · rw [h.empty, List.isEmpty_iff]
  · rw [h.all_true]
    simp

open ConditionStack in
/-- `OP_IF`, `OP_ELSE` inside a true branch, then both `OP_ENDIF`s. -/
theorem conditionStack_refines_vector_nested :
    ∃ s, ConditionStack.run {} [.push_back true, .push_back true, .toggle_top, .pop_back, .pop_back] = .ok s ∧
      (s.empty = true ↔ vecRun [] [.push_back true, .push_back true, .toggle_top, .pop_back, .pop_back] = []) ∧
      (s.all_true = true ↔
        ∀ b ∈ vecRun [] [.push_back true, .push_back true, .toggle_top, .pop_back, .pop_back], b = true) :=
  conditionStack_refines_vector _ (by decide)

end Tenscoin
