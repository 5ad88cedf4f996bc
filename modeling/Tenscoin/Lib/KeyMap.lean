import Mathlib

/-!
# The total weight of a finite map

A hash map that keeps a running sum of a weight of its values (the memory a cache accounts for)
is modelled by Mathlib's `AList`. `KeyMap.total f s` is the sum of `f` over the values of `s`,
`KeyMap.weightAt f s a` the weight of the value at `a`, zero if there is none.

Removing the key `a` takes exactly its weight off the total (`KeyMap.total_erase_add`), and
`insert`, which replaces the value at `a`, adds the new value's weight to what is left
(`KeyMap.total_insert_add`). A running sum that is kept by subtracting the old weight and adding
the new one at each change is therefore the total.
-/

namespace KeyMap

variable {α β : Type*} [DecidableEq α]

/-- The sum of `f` over the values of `s`. -/
def total (f : β → ℕ) (s : AList (fun _ : α => β)) : ℕ :=
  (s.entries.map fun e => f e.2).sum

/-- The weight of the value at `a`; zero if there is none. -/
def weightAt (f : β → ℕ) (s : AList (fun _ : α => β)) (a : α) : ℕ :=
  ((s.lookup a).map f).getD 0

theorem sum_kerase_add (f : β → ℕ) (a : α) :
    ∀ l : List (Σ _ : α, β), ((l.kerase a).map fun e => f e.2).sum + ((l.dlookup a).map f).getD 0 =
      (l.map fun e => f e.2).sum
  | [] => rfl
  | ⟨x, b⟩ :: l => by
    by_cases h : a = x
    · subst h
      have hk : (⟨a, b⟩ :: l : List (Σ _ : α, β)).kerase a = l := List.kerase_cons_eq rfl
      rw [hk, List.dlookup_cons_eq, List.map_cons, List.sum_cons, Option.map_some, Option.getD_some]
      exact Nat.add_comm _ _
    · rw [List.kerase_cons_ne h, List.dlookup_cons_ne _ _ h, List.map_cons, List.sum_cons,
        List.map_cons, List.sum_cons, ← sum_kerase_add f a l]
      omega

/-- Erasing a key takes its weight off the total. -/
theorem total_erase_add (f : β → ℕ) (s : AList (fun _ : α => β)) (a : α) :
    total f (s.erase a) + weightAt f s a = total f s :=
  sum_kerase_add f a s.entries

/-- Inserting at a key replaces its weight by the new value's. -/
theorem total_insert_add (f : β → ℕ) (s : AList (fun _ : α => β)) (a : α) (b : β) :
    total f (s.insert a b) + weightAt f s a = total f s + f b := by
  have h : total f (s.insert a b) = f b + total f (s.erase a) := by
    simp only [total, AList.entries_insert, List.map_cons, List.sum_cons]
    rfl
  have := total_erase_add f s a
  omega

@[simp] theorem weightAt_of_lookup_eq_none {f : β → ℕ} {s : AList (fun _ : α => β)} {a : α}
    (h : s.lookup a = none) : weightAt f s a = 0 := by
  rw [weightAt, h]
  rfl

@[simp] theorem weightAt_of_lookup_eq_some {f : β → ℕ} {s : AList (fun _ : α => β)} {a : α} {b : β}
    (h : s.lookup a = some b) : weightAt f s a = f b := by
  rw [weightAt, h]
  rfl

omit [DecidableEq α] in
@[simp] theorem total_empty (f : β → ℕ) : total f (∅ : AList (fun _ : α => β)) = 0 := rfl

end KeyMap
