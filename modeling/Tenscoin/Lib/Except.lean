import Mathlib

/-!
# Computations in `Except`

The model writes the fallible code of the node in the `Except String` monad, with an error
for each `assert` and each lookup that can fail. Its proofs run such a computation forward:
a step whose result is known is replaced by its value (`Except.ok_bind`, `Except.pure_eq_ok`),
and a run known to succeed is taken apart into the value of its first step and the rest
(`Except.bind_eq_ok`). Results are spelled `Except.ok`, so these are the simp normal form. A
loop over a list that fails on no element maps it (`Except.mapM_eq_ok`).

A loop that writes the entries of a list at distinct keys of a state is proved one write at a
time (`Except.foldlM_keyed`, and `Except.foldl_keyed` for writes that cannot fail): each write
meets its entry's postcondition at its key and leaves the other keys alone, so after the loop
every key of an entry holds what its write made, and every other key what it held.
-/

namespace Except

variable {ε α β : Type _}

@[simp] theorem ok_bind (a : α) (f : α → Except ε β) : (Except.ok a >>= f) = f a := rfl

@[simp] theorem error_bind (e : ε) (f : α → Except ε β) :
    (Except.error e >>= f : Except ε β) = .error e := rfl

@[simp] theorem pure_eq_ok (a : α) : (pure a : Except ε α) = .ok a := rfl

@[simp] theorem throw_eq_error (e : ε) : (throw e : Except ε α) = .error e := rfl

/-- A successful run of `x >>= f` is a successful `x` followed by a successful `f`. -/
theorem bind_eq_ok {x : Except ε α} {f : α → Except ε β} {b : β} (h : (x >>= f) = .ok b) :
    ∃ a, x = .ok a ∧ f a = .ok b := by
  cases x with
  | error e => cases h
  | ok a => exact ⟨a, rfl, h⟩

/-- `mapM` of a function that succeeds on every element maps the values. -/
theorem mapM_eq_ok {f : α → Except ε β} {g : α → β} :
    ∀ {l : List α}, (∀ a ∈ l, f a = .ok (g a)) → l.mapM f = .ok (l.map g)
  | [], _ => rfl
  | a :: l, h => by
    rw [List.mapM_cons, h a List.mem_cons_self, ok_bind,
      mapM_eq_ok fun a' ha' => h a' (List.mem_cons_of_mem a ha')]
    rfl

section Keyed

variable {σ κ ν ρ : Type _}

/-- **A loop of writes at distinct keys.** When every write, from a state that keeps `Inv` and
whose read at its key meets its entry's precondition, succeeds, keeps `Inv`, meets the
postcondition there and leaves the reads at the other keys alone, the loop over entries at distinct
keys succeeds, keeps `Inv`, every entry's postcondition holds at its key afterwards, and the keys of
no entry read as before. -/
theorem foldlM_keyed (read : σ → κ → ρ) (Inv : σ → Prop) (step : σ → κ × ν → Except ε σ)
    (Pre Post : ρ → ν → Prop)
    (hstep : ∀ s k e, Inv s → Pre (read s k) e → ∃ s', step s (k, e) = .ok s' ∧ Inv s' ∧
      Post (read s' k) e ∧ ∀ k', k' ≠ k → read s' k' = read s k') :
    ∀ (cur : List (κ × ν)) (s : σ), Inv s → (cur.map Prod.fst).Nodup →
      (∀ k e, (k, e) ∈ cur → Pre (read s k) e) →
      ∃ s', cur.foldlM step s = .ok s' ∧ Inv s' ∧ (∀ k e, (k, e) ∈ cur → Post (read s' k) e) ∧
        ∀ k, k ∉ cur.map Prod.fst → read s' k = read s k
  | [], s, hs, _, _ => ⟨s, rfl, hs, fun _ _ h => absurd h List.not_mem_nil, fun _ _ => rfl⟩
  | (k, e) :: rest, s, hs, hnd, hpre => by
    rw [List.map_cons, List.nodup_cons] at hnd
    obtain ⟨s₁, h₁, hs₁, hself, hne⟩ := hstep s k e hs (hpre k e List.mem_cons_self)
    -- the later entries are at other keys, which the first write leaves alone
    have hrest : ∀ k' e', (k', e') ∈ rest → Pre (read s₁ k') e' := by
      intro k' e' h'
      have hk' : k' ≠ k := fun he => hnd.1 (List.mem_map.mpr ⟨(k', e'), h', he⟩)
      rw [hne k' hk']
      exact hpre k' e' (List.mem_cons_of_mem _ h')
    obtain ⟨s', h', hs', hin, hout⟩ :=
      foldlM_keyed read Inv step Pre Post hstep rest s₁ hs₁ hnd.2 hrest
    refine ⟨s', by rw [List.foldlM_cons, h₁, ok_bind, h'], hs', fun k' e' hm => ?_,
      fun k' hk' => ?_⟩
    · rcases List.mem_cons.mp hm with heq | hm
      · cases heq
        rw [hout k hnd.1]
        exact hself
      · exact hin k' e' hm
    · rw [List.map_cons, List.mem_cons, not_or] at hk'
      rw [hout k' hk'.2, hne k' hk'.1]

/-- A loop of writes that cannot fail is the fold of its writes. -/
theorem foldlM_ok (g : σ → κ × ν → σ) :
    ∀ (cur : List (κ × ν)) (s : σ),
      cur.foldlM (fun s p => (.ok (g s p) : Except ε σ)) s = .ok (cur.foldl g s)
  | [], _ => rfl
  | p :: rest, s => by rw [List.foldlM_cons, ok_bind, foldlM_ok g rest, List.foldl_cons]

/-- `foldlM_keyed` for writes that cannot fail and keep no invariant. -/
theorem foldl_keyed (read : σ → κ → ρ) (g : σ → κ × ν → σ) (Pre Post : ρ → ν → Prop)
    (hstep : ∀ s k e, Pre (read s k) e →
      Post (read (g s (k, e)) k) e ∧ ∀ k', k' ≠ k → read (g s (k, e)) k' = read s k')
    (cur : List (κ × ν)) (s : σ) (hnd : (cur.map Prod.fst).Nodup)
    (hpre : ∀ k e, (k, e) ∈ cur → Pre (read s k) e) :
    (∀ k e, (k, e) ∈ cur → Post (read (cur.foldl g s) k) e) ∧
      ∀ k, k ∉ cur.map Prod.fst → read (cur.foldl g s) k = read s k := by
  obtain ⟨s', h, -, hin, hout⟩ := foldlM_keyed read (fun _ => True)
    (fun s p => (.ok (g s p) : Except Empty σ)) Pre Post
    (fun s k e _ he => ⟨g s (k, e), rfl, trivial, hstep s k e he⟩) cur s trivial hnd hpre
  rw [foldlM_ok, ok.injEq] at h
  subst h
  exact ⟨hin, hout⟩

end Keyed

end Except
