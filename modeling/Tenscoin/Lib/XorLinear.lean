import Mathlib

/-!
# Registers linear over XOR

A register fed a list of inputs shifts its state by `f` and XORs each input in (`feed`). When XOR
is a group in which every element is its own inverse (`Laws`) and `f` distributes over it
(`Additive`), what a register computes is linear in its start and its inputs:

* `feed_xor_state`, `feed_eq`: the start contributes `f` iterated once per input, whatever the
  inputs;
* `feed_xor_input`: an error XORed into one input comes out shifted once for each input after it;
* `iterate_ne_zero`: on a set that `f` keeps and on which only zero maps to zero, no shift makes a
  nonzero value vanish, so an error in one input always shows in the result;
* `feed_invariant`: the run rule, an invariant of each step holds of the result.
-/

namespace XorLinear

variable {β : Type} [XorOp β] [Zero β]

/-- XOR on `β` is an elementary abelian group: associative, commutative, with `0` as its identity
and every element its own inverse. -/
structure Laws (β : Type) [XorOp β] [Zero β] : Prop where
  assoc : ∀ a b c : β, a ^^^ b ^^^ c = a ^^^ (b ^^^ c)
  comm : ∀ a b : β, a ^^^ b = b ^^^ a
  zero_xor : ∀ a : β, 0 ^^^ a = a
  xor_self : ∀ a : β, a ^^^ a = 0

namespace Laws

variable (hL : Laws β)
include hL

theorem xor_zero (a : β) : a ^^^ 0 = a := by
  rw [hL.comm, hL.zero_xor]

theorem xor_cancel_right (a b : β) : a ^^^ b ^^^ b = a := by
  rw [hL.assoc, hL.xor_self, hL.xor_zero]

theorem xor_xor_xor_comm (a b c d : β) : a ^^^ b ^^^ (c ^^^ d) = a ^^^ c ^^^ (b ^^^ d) := by
  rw [hL.assoc, ← hL.assoc b, hL.comm b c, hL.assoc c, ← hL.assoc a]

theorem eq_of_xor_eq_zero {a b : β} (h : a ^^^ b = 0) : a = b := by
  rw [← hL.xor_cancel_right a b, h, hL.zero_xor]

end Laws

/-- `f` distributes over XOR. -/
def Additive {γ : Type} [XorOp γ] (f : β → γ) : Prop :=
  ∀ a b, f (a ^^^ b) = f a ^^^ f b

section Additive

variable {γ δ : Type} [XorOp γ] [XorOp δ]

omit [Zero β] in
theorem Additive.comp {g : γ → δ} {f : β → γ} (hg : Additive g) (hf : Additive f) :
    Additive (g ∘ f) := fun a b => by
  simp only [Function.comp_apply, hf a b, hg (f a) (f b)]

omit [Zero β] in
/-- The sum of two additive maps is additive. -/
theorem Additive.xor [Zero γ] (hL : Laws γ) {f g : β → γ} (hf : Additive f) (hg : Additive g) :
    Additive fun x => f x ^^^ g x := fun a b => by
  simp only [hf a b, hg a b, hL.xor_xor_xor_comm]

theorem Additive.map_zero [Zero γ] (hβ : Laws β) (hγ : Laws γ) {f : β → γ} (hf : Additive f) :
    f 0 = 0 := by
  have h : f 0 ^^^ f 0 = f 0 := by rw [← hf, hβ.xor_self]
  calc f 0 = f 0 ^^^ f 0 := h.symm
    _ = 0 := hγ.xor_self _

omit [Zero β] in
theorem Additive.iterate {f : β → β} (hf : Additive f) : ∀ n, Additive f^[n]
  | 0 => fun _ _ => rfl
  | n + 1 => fun a b => by
    rw [Function.iterate_succ_apply, Function.iterate_succ_apply, Function.iterate_succ_apply,
      hf, Additive.iterate hf n]

end Additive

/-- The register: from `s`, each input `v` makes the state `f c ^^^ v`. -/
def feed (f : β → β) (s : β) (vs : List β) : β :=
  vs.foldl (fun c v => f c ^^^ v) s

section Feed

variable {f : β → β}

omit [Zero β] in
@[simp] theorem feed_nil (s : β) : feed f s [] = s := rfl

omit [Zero β] in
@[simp] theorem feed_cons (s v : β) (vs : List β) : feed f s (v :: vs) = feed f (f s ^^^ v) vs :=
  rfl

omit [Zero β] in
theorem feed_append (s : β) (us ws : List β) : feed f s (us ++ ws) = feed f (feed f s us) ws :=
  List.foldl_append

omit [Zero β] in
/-- An invariant that each step keeps, on inputs satisfying `Q`, holds of the result. -/
theorem feed_invariant {P Q : β → Prop} (hstep : ∀ c v, P c → Q v → P (f c ^^^ v)) :
    ∀ {s : β} {vs : List β}, P s → (∀ v ∈ vs, Q v) → P (feed f s vs)
  | _, [], hs, _ => hs
  | s, v :: _, hs, hvs => by
    rw [feed_cons]
    exact feed_invariant hstep (hstep s v hs (hvs v List.mem_cons_self)) fun w hw =>
      hvs w (List.mem_cons_of_mem v hw)

variable (hL : Laws β) (hf : Additive f)
include hL hf

/-- The start's part of the result is the start shifted once per input. -/
theorem feed_xor_state (vs : List β) :
    ∀ a b : β, feed f (a ^^^ b) vs = feed f a vs ^^^ f^[vs.length] b := by
  induction vs with
  | nil => intro a b; rfl
  | cons v vs ih =>
    intro a b
    -- one input: `f (a ^^^ b) ^^^ v` is `(f a ^^^ v) ^^^ f b`, and the rest follows
    have hstep : f (a ^^^ b) ^^^ v = f a ^^^ v ^^^ f b := by
      rw [hf, hL.assoc, hL.comm (f b) v, ← hL.assoc]
    rw [feed_cons, feed_cons, hstep, ih, List.length_cons, Function.iterate_succ_apply]

theorem feed_eq (s : β) (vs : List β) : feed f s vs = f^[vs.length] s ^^^ feed f 0 vs := by
  rw [← hL.zero_xor s, feed_xor_state hL hf, hL.comm, hL.zero_xor]

/-- Zeros leave the zero state where it is. -/
theorem feed_zero_replicate (n : ℕ) : feed f 0 (List.replicate n 0) = 0 := by
  induction n with
  | zero => rfl
  | succ n ih => rw [List.replicate_succ, feed_cons, hf.map_zero hL hL, hL.xor_self, ih]

/-- An error `e` XORed into one input comes out shifted once for each input after it. -/
theorem feed_xor_input (s : β) (us ws : List β) (v e : β) :
    feed f s (us ++ (v ^^^ e) :: ws) = feed f s (us ++ v :: ws) ^^^ f^[ws.length] e := by
  rw [feed_append, feed_append, feed_cons, feed_cons, ← hL.assoc, feed_xor_state hL hf]

end Feed

omit [XorOp β] in
/-- On a set `P` that `f` keeps and where `f` vanishes only at zero, no iterate of `f` makes a
nonzero element of `P` vanish. -/
theorem iterate_ne_zero {f : β → β} {P : β → Prop} (hP : ∀ a, P a → P (f a))
    (hker : ∀ a, P a → f a = 0 → a = 0) :
    ∀ (k : ℕ) {e : β}, P e → e ≠ 0 → f^[k] e ≠ 0
  | 0, _, _, he => he
  | k + 1, e, hPe, he => by
    rw [Function.iterate_succ_apply]
    exact iterate_ne_zero hP hker k (hP e hPe) fun h => he (hker e hPe h)

/-! ### `uint32_t` -/

/-- XOR on `uint32_t` satisfies the laws. -/
theorem laws_uint32 : Laws UInt32 :=
  ⟨UInt32.xor_assoc, UInt32.xor_comm, fun _ => UInt32.zero_xor, fun _ => UInt32.xor_self⟩

instance associative_uint32 : Std.Associative (α := UInt32) (· ^^^ ·) := ⟨UInt32.xor_assoc⟩

instance commutative_uint32 : Std.Commutative (α := UInt32) (· ^^^ ·) := ⟨UInt32.xor_comm⟩

end XorLinear
