import Mathlib

/-!
# Whether two sorted lists meet

Two lists meet when they have an element in common (`Meet`). On lists sorted by a reflexive
relation this is decided by walking both from the front, as a merge does: a head that the other
list's head is not related to lies strictly below every element of the other list, so it can be
passed (`meet_cons_left_iff`, `meet_cons_right_iff`), and equal heads are a common element. Only
reflexivity is needed: the head of a sorted list is related to each of its elements, itself
included (`rel_of_mem_cons`).
-/

namespace SortedMeet

variable {α : Type*}

/-- `xs` and `ys` have an element in common. -/
def Meet (xs ys : List α) : Prop :=
  ∃ x ∈ xs, x ∈ ys

instance [DecidableEq α] (xs ys : List α) : Decidable (Meet xs ys) :=
  inferInstanceAs (Decidable (∃ x ∈ xs, x ∈ ys))

theorem not_meet_nil_right (xs : List α) : ¬ Meet xs [] := fun ⟨_, _, h⟩ => List.not_mem_nil h

theorem meet_cons_cons_self (v : α) (vs qs : List α) : Meet (v :: vs) (v :: qs) :=
  ⟨v, List.mem_cons_self, List.mem_cons_self⟩

theorem meet_singleton_iff (xs : List α) (y : α) : Meet xs [y] ↔ y ∈ xs := by
  constructor
  · rintro ⟨x, hx, hy⟩
    rwa [List.mem_singleton.1 hy] at hx
  · exact fun hy => ⟨y, hy, List.mem_singleton_self y⟩

section Sorted

variable {r : α → α → Prop} [Std.Refl r]

/-- The head of a sorted list is related to each of its elements. -/
theorem rel_of_mem_cons {v x : α} {vs : List α} (hs : (v :: vs).Pairwise r) (hx : x ∈ v :: vs) :
    r v x := by
  rcases List.mem_cons.1 hx with rfl | hx
  · exact Std.Refl.refl x
  · exact List.rel_of_pairwise_cons hs hx

/-- A query strictly below the least value is none of the values. -/
theorem meet_cons_right_iff {v q : α} {vs qs : List α} (hvs : (v :: vs).Pairwise r) (hq : ¬ r v q) :
    Meet (v :: vs) (q :: qs) ↔ Meet (v :: vs) qs := by
  constructor
  · rintro ⟨x, hx, hxq⟩
    rcases List.mem_cons.1 hxq with rfl | hxq
    · exact absurd (rel_of_mem_cons hvs hx) hq
    · exact ⟨x, hx, hxq⟩
  · rintro ⟨x, hx, hxq⟩
    exact ⟨x, hx, List.mem_cons_of_mem q hxq⟩

/-- A value strictly below the least query is none of the queries. -/
theorem meet_cons_left_iff {v q : α} {vs qs : List α} (hqs : (q :: qs).Pairwise r) (hv : ¬ r q v) :
    Meet (v :: vs) (q :: qs) ↔ Meet vs (q :: qs) := by
  constructor
  · rintro ⟨x, hx, hxq⟩
    rcases List.mem_cons.1 hx with rfl | hx
    · exact absurd (rel_of_mem_cons hqs hxq) hv
    · exact ⟨x, hx, hxq⟩
  · rintro ⟨x, hx, hxq⟩
    exact ⟨x, List.mem_cons_of_mem v hx, hxq⟩

end Sorted

end SortedMeet
