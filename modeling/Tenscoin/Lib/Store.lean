import Mathlib

/-!
# Guarded takes and puts on a store

A store is a function `α → Option β`, what a key-value table holds at each key.
`Store.takeAll s ks` takes the values at the keys `ks` one after the other, leaving nothing at
each, and fails when a key holds nothing; `Store.putAll s es` puts the values `es` one after the
other where nothing is, and fails when a key already holds one.

Each undoes the other:

* `Store.putAll_takeAll`: putting back what was taken, last taken first, restores the store;
* `Store.takeAll_putAll`: taking what was just put, in the order it was put, finds each value
  and restores the store.

What a run leaves is what was there or what was put (`Store.of_takeAll`, `Store.of_putAll`),
and a take returns values that were there (`Store.exists_of_mem_takeAll`).

The second inverse uses `putAll`'s guard twice: a key put later is none of the keys put before it
(`Store.not_mem_keys_of_putAll`), and so the takes of the later keys leave an earlier one alone
(`Store.takeAll_update_of_not_mem`).
-/

namespace Store

variable {α β : Type*} [DecidableEq α]

/-- Take the values at `ks` in order, leaving nothing at each: the store after, and the values
taken; `none` when a key holds nothing at its turn. -/
def takeAll : (α → Option β) → List α → Option ((α → Option β) × List β)
  | s, [] => some (s, [])
  | s, k :: ks => (s k).bind fun b =>
      (takeAll (Function.update s k none) ks).map fun r => (r.1, b :: r.2)

/-- Put the values `es` in order; `none` when a key already holds a value at its turn. -/
def putAll : (α → Option β) → List (α × β) → Option (α → Option β)
  | s, [] => some s
  | s, (k, b) :: es => if (s k).isNone then putAll (Function.update s k (some b)) es else none

variable {s s' : α → Option β} {k : α} {b : β}

@[simp] theorem takeAll_nil (s : α → Option β) : takeAll s [] = some (s, []) := rfl

@[simp] theorem putAll_nil (s : α → Option β) : putAll s [] = some s := rfl

theorem takeAll_cons_of_some (h : s k = some b) (ks : List α) :
    takeAll s (k :: ks) =
      (takeAll (Function.update s k none) ks).map fun r => (r.1, b :: r.2) := by
  rw [takeAll, h, Option.bind_some]

/-- A successful take of `k :: ks` found a value at `k` and then took `ks`. -/
theorem takeAll_cons_eq_some {ks : List α} {r : (α → Option β) × List β}
    (h : takeAll s (k :: ks) = some r) :
    ∃ b, s k = some b ∧ ∃ r', takeAll (Function.update s k none) ks = some r' ∧
      r = (r'.1, b :: r'.2) := by
  cases hk : s k with
  | none => rw [takeAll, hk, Option.bind_none] at h; cases h
  | some b =>
    rw [takeAll_cons_of_some hk] at h
    obtain ⟨r', hr', rfl⟩ := Option.map_eq_some_iff.mp h
    exact ⟨b, rfl, r', hr', rfl⟩

theorem putAll_cons_of_none (h : s k = none) (es : List (α × β)) :
    putAll s ((k, b) :: es) = putAll (Function.update s k (some b)) es := by
  rw [putAll, h, Option.isNone_none, if_pos rfl]

/-- A successful put of `(k, b) :: es` found nothing at `k` and then put `es`. -/
theorem putAll_cons_eq_some {es : List (α × β)} (h : putAll s ((k, b) :: es) = some s') :
    s k = none ∧ putAll (Function.update s k (some b)) es = some s' := by
  cases hk : s k with
  | none => exact ⟨rfl, by rwa [putAll_cons_of_none hk] at h⟩
  | some b' => rw [putAll, hk, Option.isNone_some, if_neg Bool.false_ne_true] at h; cases h

theorem putAll_append (es₁ es₂ : List (α × β)) :
    ∀ s : α → Option β, putAll s (es₁ ++ es₂) = (putAll s es₁).bind (putAll · es₂) := by
  induction es₁ with
  | nil => intro s; rfl
  | cons e es₁ ih =>
    intro s
    obtain ⟨k, b⟩ := e
    cases hk : s k with
    | none => rw [List.cons_append, putAll_cons_of_none hk, putAll_cons_of_none hk, ih]
    | some b' =>
      simp only [List.cons_append, putAll, hk, Option.isNone_some, Bool.false_eq_true,
        ↓reduceIte, Option.bind_none]

/-- **Putting back what was taken**, last taken first, restores the store. -/
theorem putAll_takeAll :
    ∀ {ks : List α} {s s' : α → Option β} {bs : List β},
      takeAll s ks = some (s', bs) → putAll s' (ks.zip bs).reverse = some s
  | [], s, s', bs, h => by
    rw [takeAll_nil, Option.some.injEq, Prod.mk.injEq] at h
    obtain ⟨rfl, rfl⟩ := h
    rfl
  | k :: ks, s, s', bs, h => by
    obtain ⟨b, hb, ⟨s₁, bs₁⟩, hrest, hr⟩ := takeAll_cons_eq_some h
    obtain ⟨rfl, rfl⟩ := Prod.mk.inj hr
    -- the rest is put back first, which leaves nothing at `k`, where `b` then goes back
    rw [List.zip_cons_cons, List.reverse_cons, putAll_append, putAll_takeAll hrest,
      Option.bind_some, putAll_cons_of_none (Function.update_self k none s), putAll_nil,
      Function.update_idem, Function.update_eq_self_iff.mpr hb.symm]

/-- `putAll` never changes a key that holds a value. -/
theorem putAll_of_some :
    ∀ {es : List (α × β)} {s s' : α → Option β}, putAll s es = some s' → s k = some b →
      s' k = some b
  | [], s, s', h, hk => by
    rw [putAll_nil, Option.some.injEq] at h
    rwa [← h]
  | (k', b') :: es, s, s', h, hk => by
    obtain ⟨hk', hrest⟩ := putAll_cons_eq_some h
    have hne : k ≠ k' := fun he => by rw [he, hk'] at hk; cases hk
    exact putAll_of_some hrest (by rw [Function.update_of_ne hne, hk])

/-- A key that holds a value is not among the keys `putAll` puts. -/
theorem not_mem_keys_of_putAll :
    ∀ {es : List (α × β)} {s s' : α → Option β}, putAll s es = some s' → s k = some b →
      k ∉ es.map Prod.fst
  | [], _, _, _, _ => List.not_mem_nil
  | (k', b') :: es, s, s', h, hk => by
    obtain ⟨hk', hrest⟩ := putAll_cons_eq_some h
    have hne : k ≠ k' := fun he => by rw [he, hk'] at hk; cases hk
    rw [List.map_cons, List.mem_cons, not_or]
    exact ⟨hne, not_mem_keys_of_putAll hrest (by rw [Function.update_of_ne hne, hk])⟩

/-- Taking at keys other than `k` commutes with a change at `k`. -/
theorem takeAll_update_of_not_mem (x : Option β) :
    ∀ {ks : List α} {s s' : α → Option β} {bs : List β}, k ∉ ks →
      takeAll s ks = some (s', bs) →
      takeAll (Function.update s k x) ks = some (Function.update s' k x, bs)
  | [], s, s', bs, _, h => by
    rw [takeAll_nil, Option.some.injEq, Prod.mk.injEq] at h
    obtain ⟨rfl, rfl⟩ := h
    rfl
  | k' :: ks, s, s', bs, hk, h => by
    rw [List.mem_cons, not_or] at hk
    obtain ⟨b', hb', ⟨s₁, bs₁⟩, hrest, hr⟩ := takeAll_cons_eq_some h
    obtain ⟨rfl, rfl⟩ := Prod.mk.inj hr
    have hrest' := takeAll_update_of_not_mem x hk.2 hrest
    rw [Function.update_comm (Ne.symm hk.1)] at hrest'
    rw [takeAll_cons_of_some (by rw [Function.update_of_ne (Ne.symm hk.1), hb']), hrest']
    rfl

/-- **Taking what was just put**, in the order it was put, finds each value and restores the
store. -/
theorem takeAll_putAll :
    ∀ {es : List (α × β)} {s s' : α → Option β},
      putAll s es = some s' → takeAll s' (es.map Prod.fst) = some (s, es.map Prod.snd)
  | [], s, s', h => by
    rw [putAll_nil, Option.some.injEq] at h
    rw [← h]
    rfl
  | (k, b) :: es, s, s', h => by
    obtain ⟨hk, hrest⟩ := putAll_cons_eq_some h
    have hput : Function.update s k (some b) k = some b := Function.update_self k _ s
    -- `b` is still at `k` when the take comes to it, and the later keys are not `k`
    have hs'k : s' k = some b := putAll_of_some hrest hput
    have hrest' := takeAll_update_of_not_mem none (not_mem_keys_of_putAll hrest hput)
      (takeAll_putAll hrest)
    have hs : Function.update s k none = s := Function.update_eq_self_iff.mpr hk.symm
    rw [Function.update_idem, hs] at hrest'
    rw [List.map_cons, List.map_cons, takeAll_cons_of_some hs'k, hrest']
    rfl

/-! ### What a run leaves in the store -/

/-- After a take, the store holds only what it held before. -/
theorem of_takeAll :
    ∀ {ks : List α} {s s' : α → Option β} {bs : List β}, takeAll s ks = some (s', bs) →
      s' k = some b → s k = some b
  | [], s, s', bs, h, hk => by
    rw [takeAll_nil, Option.some.injEq, Prod.mk.injEq] at h
    rwa [h.1]
  | k' :: ks, s, s', bs, h, hk => by
    obtain ⟨b', -, ⟨s₁, bs₁⟩, hrest, hr⟩ := takeAll_cons_eq_some h
    obtain ⟨rfl, rfl⟩ := Prod.mk.inj hr
    have h₁ := of_takeAll hrest hk
    by_cases hkk : k = k'
    · rw [hkk, Function.update_self] at h₁
      cases h₁
    · rwa [Function.update_of_ne hkk] at h₁

/-- Every value a take returns was in the store. -/
theorem exists_of_mem_takeAll :
    ∀ {ks : List α} {s s' : α → Option β} {bs : List β}, takeAll s ks = some (s', bs) →
      b ∈ bs → ∃ k, s k = some b
  | [], s, s', bs, h, hb => by
    rw [takeAll_nil, Option.some.injEq, Prod.mk.injEq] at h
    rw [← h.2] at hb
    cases hb
  | k' :: ks, s, s', bs, h, hb => by
    obtain ⟨b', hb', ⟨s₁, bs₁⟩, hrest, hr⟩ := takeAll_cons_eq_some h
    obtain ⟨rfl, rfl⟩ := Prod.mk.inj hr
    rcases List.mem_cons.mp hb with rfl | hmem
    · exact ⟨k', hb'⟩
    · obtain ⟨k, hk⟩ := exists_of_mem_takeAll hrest hmem
      by_cases hkk : k = k'
      · rw [hkk, Function.update_self] at hk
        cases hk
      · exact ⟨k, by rwa [Function.update_of_ne hkk] at hk⟩

/-- A take returns one value for each key. -/
theorem length_takeAll :
    ∀ {ks : List α} {s s' : α → Option β} {bs : List β}, takeAll s ks = some (s', bs) →
      bs.length = ks.length
  | [], s, s', bs, h => by
    rw [takeAll_nil, Option.some.injEq, Prod.mk.injEq] at h
    rw [← h.2]
    rfl
  | k' :: ks, s, s', bs, h => by
    obtain ⟨b', -, ⟨s₁, bs₁⟩, hrest, hr⟩ := takeAll_cons_eq_some h
    obtain ⟨rfl, rfl⟩ := Prod.mk.inj hr
    rw [List.length_cons, List.length_cons, length_takeAll hrest]

/-- After a put, the store holds what it held before or one of the values put. -/
theorem of_putAll :
    ∀ {es : List (α × β)} {s s' : α → Option β}, putAll s es = some s' → s' k = some b →
      s k = some b ∨ (k, b) ∈ es
  | [], s, s', h, hk => by
    rw [putAll_nil, Option.some.injEq] at h
    exact Or.inl (by rwa [h])
  | (k', b') :: es, s, s', h, hk => by
    obtain ⟨-, hrest⟩ := putAll_cons_eq_some h
    rcases of_putAll hrest hk with h₁ | h₁
    · by_cases hkk : k = k'
      · rw [hkk, Function.update_self, Option.some.injEq] at h₁
        rw [hkk, h₁]
        exact Or.inr List.mem_cons_self
      · rw [Function.update_of_ne hkk] at h₁
        exact Or.inl h₁
    · exact Or.inr (List.mem_cons_of_mem _ h₁)

end Store
