import Mathlib

/-!
# XOR stream ciphers

A stream cipher XORs a keystream into its input. Here `ks s n` is the keystream of `n` elements a
cipher in state `s` makes, with the state it leaves, and `crypt` is `Keyed` by `ks` when it XORs
exactly that keystream into any input and leaves the same state: what it does to the state then
depends on the length of the input only. Run over a list of chunks (`run`), such a cipher is
undone by a second cipher in step with it (`InStep`: the two make the same keystream whatever
they are asked, such as two copies of one state), whenever XOR with an element cancels
(`Cancels`): `run_run`. The chunks may have any lengths.
-/

namespace XorCipher

variable {σ β : Type} [XorOp β]

/-- Chunks through `crypt` one after the other, each from the state the one before left. -/
def run (crypt : σ → List β → List β × σ) : σ → List (List β) → List (List β) × σ
  | s, [] => ([], s)
  | s, m :: ms =>
    let (c, s') := crypt s m
    let (cs, s'') := run crypt s' ms
    (c :: cs, s'')

/-- `crypt` XORs the keystream of `ks` into its input, and leaves the state `ks` leaves. -/
def Keyed (ks : σ → ℕ → List β × σ) (crypt : σ → List β → List β × σ) : Prop :=
  ∀ s m, crypt s m = (List.zipWith (· ^^^ ·) m (ks s m.length).1, (ks s m.length).2)

/-- A second XOR with the same element undoes the first. -/
def Cancels (β : Type) [XorOp β] : Prop :=
  ∀ a b : β, a ^^^ b ^^^ b = a

theorem zipWith_xor_zipWith_xor (hc : Cancels β) :
    ∀ {m k : List β}, m.length ≤ k.length →
      List.zipWith (· ^^^ ·) (List.zipWith (· ^^^ ·) m k) k = m
  | [], _, _ => rfl
  | _ :: _, [], h => by simp at h
  | a :: m, b :: k, h => by
    simp only [List.zipWith_cons_cons, hc a b, List.length_cons] at h ⊢
    rw [zipWith_xor_zipWith_xor hc (by omega)]

/-- Bytes cancel under XOR. -/
theorem cancels_uint8 : Cancels UInt8 := fun a b => by
  rw [UInt8.xor_assoc, UInt8.xor_self, UInt8.xor_zero]

omit [XorOp β] in
/-- A keystream in two pieces meets the message in two pieces: the second from where the first
stops. -/
theorem zipWith_append_right {α γ : Type} {f : α → β → γ} :
    ∀ {l : List α} {a b : List β}, a.length ≤ l.length →
      List.zipWith f l (a ++ b) = List.zipWith f l a ++ List.zipWith f (l.drop a.length) b
  | _, [], _, _ => by simp
  | [], _ :: _, _, h => by simp at h
  | x :: l, y :: a, b, h => by
    simp only [List.cons_append, List.zipWith_cons_cons, List.length_cons, List.drop_succ_cons,
      List.cons.injEq, true_and] at h ⊢
    exact zipWith_append_right (by omega)

omit [XorOp β] in
/-- Only as much of the message as there is keystream is used. -/
theorem zipWith_take_left {α γ : Type} {f : α → β → γ} :
    ∀ {l : List α} {k : List β} {n : ℕ}, k.length ≤ n →
      List.zipWith f (l.take n) k = List.zipWith f l k
  | [], _, _, _ => by simp
  | _ :: _, [], _, _ => by simp
  | _ :: _, _ :: _, 0, h => by simp at h
  | x :: l, y :: k, n + 1, h => by
    simp only [List.take_succ_cons, List.zipWith_cons_cons, List.length_cons] at h ⊢
    rw [zipWith_take_left (by omega)]

section Keyed

variable {ks : σ → ℕ → List β × σ} {crypt : σ → List β → List β × σ}

/-- `ks` makes the same keystream from any two states related by `R`, and leaves them related:
two ciphers in related states stay in step, whatever they are asked. -/
def InStep (R : σ → σ → Prop) (ks : σ → ℕ → List β × σ) : Prop :=
  ∀ s₁ s₂, R s₁ s₂ → ∀ n, (ks s₁ n).1 = (ks s₂ n).1 ∧ R (ks s₁ n).2 (ks s₂ n).2

omit [XorOp β] in
theorem run_cons (s : σ) (m : List β) (ms : List (List β)) :
    run crypt s (m :: ms) = ((crypt s m).1 :: (run crypt (crypt s m).2 ms).1,
      (run crypt (crypt s m).2 ms).2) :=
  rfl

/-- **Decryption undoes encryption.** Run over the ciphertext from a state in step with the one
the plaintext started from, a keyed cipher gives back the plaintext, whatever the chunks. -/
theorem run_run {R : σ → σ → Prop} (hk : Keyed ks crypt) (hlen : ∀ s n, (ks s n).1.length = n)
    (hc : Cancels β) (hR : InStep R ks) :
    ∀ {s₁ s₂ : σ}, R s₁ s₂ → ∀ ms : List (List β), (run crypt s₂ (run crypt s₁ ms).1).1 = ms
  | _, _, _, [] => rfl
  | s₁, s₂, h, m :: ms => by
    obtain ⟨hks, hnext⟩ := hR s₁ s₂ h m.length
    -- the ciphertext chunk has the plaintext chunk's length, so it meets the same keystream
    have hlen' : (List.zipWith (· ^^^ ·) m (ks s₁ m.length).1).length = m.length := by
      simp [hlen]
    have hdec := zipWith_xor_zipWith_xor hc (m := m) (k := (ks s₁ m.length).1) (by simp [hlen])
    rw [run_cons, run_cons, hk s₁ m]
    dsimp only
    rw [hk s₂, hlen', ← hks, hdec, run_run hk hlen hc hR hnext ms]

end Keyed

end XorCipher
