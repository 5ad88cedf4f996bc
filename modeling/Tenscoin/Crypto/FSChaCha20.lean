import Mathlib
import Tenscoin.Crypto.ChaCha20

/-!
# FSChaCha20

`FSChaCha20` (crypto/chacha20.cpp) is the forward-secure cipher of BIP324: a `ChaCha20` that, every
`m_rekey_interval` chunks, takes its next key from its own keystream and moves to the nonce
`(0, m_rekey_counter)`, so that the keys of chunks already sent are gone.

A chunk is XORed with the inner cipher's keystream (`Crypt_keyed`), and what comes after the chunk
depends on its length only. Two ciphers are `InStep` when they count alike and their inner
ciphers stand at one position of one stream; a chunk keeps them in step (`keystream_inStep`),
through a rekey too, where both take the same key from the same stream. Two ciphers made with the
same key and interval are in step, so each undoes the other (`decrypt_across_rekeys`).

The schedule (`counters_run`): after `k` chunks from a new cipher, the chunk counter is `k` modulo
the interval and the rekey counter counts the whole intervals. An interval of `0` is one of
`2 ^ 32` chunks (`period`): the chunk counter only meets `0` again when it wraps.
-/

namespace Tenscoin

/-- `FSChaCha20`: the inner cipher, the interval, and the chunks and rekeys so far. -/
structure FSChaCha20 where
  m_chacha20 : ChaCha20
  m_rekey_interval : UInt32
  m_chunk_counter : UInt32
  m_rekey_counter : UInt64

namespace FSChaCha20

/-- `FSChaCha20(key, rekey_interval)`. -/
def ofKey (key : Vector UInt8 32) (rekey_interval : UInt32) (m_buffer : Vector UInt8 64) :
    FSChaCha20 :=
  ⟨ChaCha20.ofKey key m_buffer, rekey_interval, 0, 0⟩

/-- The end of `Crypt`, `c` the inner cipher after the chunk: `++m_chunk_counter`, and when it
reaches `m_rekey_interval`, a new key from the keystream, the next nonce, and the count again
from `0`. -/
def rekey (s : FSChaCha20) (c : ChaCha20) : FSChaCha20 :=
  let chunk_counter := s.m_chunk_counter + 1
  if chunk_counter = s.m_rekey_interval then
    let (new_key, c) := c.Keystream 32
    let c := c.SetKey (Vector.ofFn fun i => new_key.getD i 0)
    let rekey_counter := s.m_rekey_counter + 1
    ⟨c.Seek (0, rekey_counter) 0, s.m_rekey_interval, 0, rekey_counter⟩
  else ⟨c, s.m_rekey_interval, chunk_counter, s.m_rekey_counter⟩

theorem rekey_pos (s : FSChaCha20) (c : ChaCha20)
    (h : s.m_chunk_counter + 1 = s.m_rekey_interval) :
    s.rekey c = ⟨((c.Keystream 32).2.SetKey (Vector.ofFn fun i => (c.Keystream 32).1.getD i 0)).Seek
      (0, s.m_rekey_counter + 1) 0, s.m_rekey_interval, 0, s.m_rekey_counter + 1⟩ := by
  simp only [rekey, if_pos h]

theorem rekey_neg (s : FSChaCha20) (c : ChaCha20)
    (h : s.m_chunk_counter + 1 ≠ s.m_rekey_interval) :
    s.rekey c = ⟨c, s.m_rekey_interval, s.m_chunk_counter + 1, s.m_rekey_counter⟩ := by
  simp only [rekey, if_neg h]

/-- `Crypt` of one chunk. -/
def Crypt (s : FSChaCha20) (input : List UInt8) : List UInt8 × FSChaCha20 :=
  let (output, c) := s.m_chacha20.Crypt input
  (output, s.rekey c)

/-- The keystream a chunk of `n` bytes is XORed with, and the cipher after the chunk. -/
def keystream (s : FSChaCha20) (n : ℕ) : List UInt8 × FSChaCha20 :=
  ((s.m_chacha20.Keystream n).1, s.rekey (s.m_chacha20.Keystream n).2)

theorem Crypt_keyed : XorCipher.Keyed keystream Crypt := by
  intro s m
  simp only [Crypt, keystream, ChaCha20.Crypt_keyed s.m_chacha20 m]

theorem length_keystream (s : FSChaCha20) (n : ℕ) : (s.keystream n).1.length = n :=
  ChaCha20.length_Keystream _ n

/-! ### Two ciphers in step -/

/-- Two ciphers that count alike and whose inner ciphers stand at one position of one stream. -/
structure InStep (s₁ s₂ : FSChaCha20) : Prop where
  interval : s₁.m_rekey_interval = s₂.m_rekey_interval
  chunk : s₁.m_chunk_counter = s₂.m_chunk_counter
  rekey : s₁.m_rekey_counter = s₂.m_rekey_counter
  stream : ChaCha20.SameStream s₁.m_chacha20 s₂.m_chacha20

/-- The end of a chunk keeps two ciphers in step: at a rekey both take the same key from the same
stream, and then their inner ciphers are equal. -/
theorem rekey_inStep {s₁ s₂ : FSChaCha20} {c₁ c₂ : ChaCha20} (h : InStep s₁ s₂)
    (hc : ChaCha20.SameStream c₁ c₂) : InStep (s₁.rekey c₁) (s₂.rekey c₂) := by
  obtain ⟨hi, hch, hr, -⟩ := h
  by_cases hc' : s₂.m_chunk_counter + 1 = s₂.m_rekey_interval
  · -- both take the same key from the same stream, and `SetKey` forgets all else
    obtain ⟨hkey, -⟩ := ChaCha20.Keystream_inStep c₁ c₂ hc 32
    rw [rekey_pos _ _ (by rwa [hch, hi]), rekey_pos _ _ hc', hkey, hi, hr]
    exact ⟨rfl, rfl, rfl, _, 0, ChaCha20.Seek_serves _ _ _, ChaCha20.Seek_serves _ _ _⟩
  · rw [rekey_neg _ _ (by rwa [hch, hi]), rekey_neg _ _ hc', hi, hch, hr]
    exact ⟨rfl, rfl, rfl, hc⟩

theorem keystream_inStep : XorCipher.InStep InStep keystream := by
  intro s₁ s₂ h n
  obtain ⟨hks, hc⟩ := ChaCha20.Keystream_inStep _ _ h.stream n
  exact ⟨hks, rekey_inStep h hc⟩

theorem ofKey_inStep (key : Vector UInt8 32) (rekey_interval : UInt32)
    (buf₁ buf₂ : Vector UInt8 64) :
    InStep (ofKey key rekey_interval buf₁) (ofKey key rekey_interval buf₂) :=
  ⟨rfl, rfl, rfl, _, 0, ChaCha20.ofKey_serves key buf₁, ChaCha20.ofKey_serves key buf₂⟩

/-- **A peer decrypts what the other encrypted, across rekeys.** Two ciphers made with the same
key and interval, whatever their buffers held: the second, run over the chunks the first made of
a plaintext, gives back the plaintext, whatever the chunks' lengths and however many rekeys
fall among them. -/
theorem decrypt_across_rekeys (key : Vector UInt8 32) (rekey_interval : UInt32)
    (buf₁ buf₂ : Vector UInt8 64) (ms : List (List UInt8)) :
    (XorCipher.run Crypt (ofKey key rekey_interval buf₂)
      (XorCipher.run Crypt (ofKey key rekey_interval buf₁) ms).1).1 = ms :=
  XorCipher.run_run Crypt_keyed length_keystream XorCipher.cancels_uint8 keystream_inStep
    (ofKey_inStep key rekey_interval buf₁ buf₂) ms

/-! ### The rekey schedule -/

/-- The number of chunks between rekeys: the interval, or `2 ^ 32` for an interval of `0`, which
the chunk counter only meets again when it wraps. -/
def period (rekey_interval : UInt32) : ℕ :=
  if rekey_interval = 0 then 2 ^ 32 else rekey_interval.toNat

theorem period_pos (rekey_interval : UInt32) : 0 < period rekey_interval := by
  unfold period
  split_ifs with h
  · norm_num
  · rw [← UInt32.toNat_inj, UInt32.toNat_zero] at h
    omega

theorem period_le (rekey_interval : UInt32) : period rekey_interval ≤ 2 ^ 32 := by
  have := rekey_interval.toNat_lt
  unfold period
  split_ifs <;> omega

/-- Below the period, the chunk counter reaches the interval exactly when one more chunk makes a
whole period. -/
theorem chunk_eq_interval_iff {c rekey_interval : UInt32} (h : c.toNat < period rekey_interval) :
    c + 1 = rekey_interval ↔ c.toNat + 1 = period rekey_interval := by
  have hI := rekey_interval.toNat_lt
  unfold period at h ⊢
  rw [← UInt32.toNat_inj, UInt32.toNat_add, UInt32.toNat_one]
  split_ifs at h ⊢ with h0
  · rw [h0, UInt32.toNat_zero]
    omega
  · rw [← UInt32.toNat_inj, UInt32.toNat_zero] at h0
    omega

/-- One chunk's step of the counters: the chunk counter moves on modulo the period, and the
rekey counter counts the period when it closes. -/
theorem rekey_counters (s : FSChaCha20) (c : ChaCha20)
    (h : s.m_chunk_counter.toNat < period s.m_rekey_interval) :
    (s.rekey c).m_rekey_interval = s.m_rekey_interval ∧
      (s.rekey c).m_chunk_counter.toNat = (s.m_chunk_counter.toNat + 1) % period s.m_rekey_interval ∧
      (s.rekey c).m_rekey_counter.toNat = (s.m_rekey_counter.toNat +
        (s.m_chunk_counter.toNat + 1) / period s.m_rekey_interval) % 2 ^ 64 := by
  have hr := s.m_rekey_counter.toNat_lt
  by_cases hc : s.m_chunk_counter + 1 = s.m_rekey_interval
  · -- the period closes: the count starts again and one more rekey is counted
    have hP := (chunk_eq_interval_iff h).1 hc
    rw [rekey_pos _ _ hc]
    refine ⟨rfl, by simp [hP], ?_⟩
    simp [UInt64.toNat_add, hP, Nat.div_self (period_pos _)]
  · have hP : s.m_chunk_counter.toNat + 1 < period s.m_rekey_interval := by
      have := mt (chunk_eq_interval_iff h).2 hc
      omega
    have hc₁ := s.m_chunk_counter.toNat_lt
    rw [rekey_neg _ _ hc]
    refine ⟨rfl, ?_, ?_⟩
    · have hle := period_le s.m_rekey_interval
      simp only [UInt32.toNat_add, UInt32.toNat_one, Nat.mod_eq_of_lt hP]
      exact Nat.mod_eq_of_lt (by omega)
    · simp [Nat.div_eq_of_lt hP, Nat.mod_eq_of_lt hr]

/-- The rekey counter gains a whole period's count at once: chunks counted from `a` into
periods, the first `(a + 1) / P` then the rest from `(a + 1) % P`. -/
theorem div_add_div_mod {a n P : ℕ} (hP : 0 < P) :
    (a + 1) / P + ((a + 1) % P + n) / P = (a + 1 + n) / P := by
  conv_rhs => rw [← Nat.div_add_mod (a + 1) P, Nat.add_assoc, Nat.mul_add_div hP]

/-- The counters after a run of chunks, from any state whose chunk counter is below the period. -/
theorem counters_run_of (s : FSChaCha20) (h : s.m_chunk_counter.toNat < period s.m_rekey_interval)
    (ms : List (List UInt8)) :
    (XorCipher.run Crypt s ms).2.m_rekey_interval = s.m_rekey_interval ∧
      (XorCipher.run Crypt s ms).2.m_chunk_counter.toNat =
        (s.m_chunk_counter.toNat + ms.length) % period s.m_rekey_interval ∧
      (XorCipher.run Crypt s ms).2.m_rekey_counter.toNat = (s.m_rekey_counter.toNat +
        (s.m_chunk_counter.toNat + ms.length) / period s.m_rekey_interval) % 2 ^ 64 := by
  induction ms generalizing s with
  | nil =>
    have hr := s.m_rekey_counter.toNat_lt
    simp [XorCipher.run, Nat.mod_eq_of_lt h, Nat.div_eq_of_lt h, Nat.mod_eq_of_lt hr]
  | cons m ms ih =>
    -- the first chunk's step, then the rest from the state it leaves
    obtain ⟨hi, hc, hr⟩ := rekey_counters s (s.m_chacha20.Crypt m).2 h
    have h₁ : (s.rekey (s.m_chacha20.Crypt m).2).m_chunk_counter.toNat <
        period (s.rekey (s.m_chacha20.Crypt m).2).m_rekey_interval := by
      rw [hc, hi]
      exact Nat.mod_lt _ (period_pos _)
    obtain ⟨hi', hc', hr'⟩ := ih _ h₁
    simp only [XorCipher.run_cons, Crypt] at hi' hc' hr' ⊢
    rw [hi] at hi' hc' hr'
    refine ⟨hi', ?_, ?_⟩
    · rw [hc', hc, Nat.mod_add_mod, List.length_cons, Nat.add_right_comm, Nat.add_assoc]
    · rw [hr', hr, hc, Nat.mod_add_mod, Nat.add_assoc, div_add_div_mod (period_pos _),
        List.length_cons, Nat.add_right_comm _ 1, Nat.add_assoc _ ms.length]

/-- **Rekeys come every interval.** After `k` chunks from a new cipher, the chunk counter is `k`
modulo the interval and the rekey counter (the nonce of the current section) is the number of
whole intervals, modulo `2 ^ 64`; an interval of `0` means a rekey every `2 ^ 32` chunks. -/
theorem counters_after_chunks (key : Vector UInt8 32) (rekey_interval : UInt32)
    (m_buffer : Vector UInt8 64) (ms : List (List UInt8)) :
    (XorCipher.run Crypt (ofKey key rekey_interval m_buffer) ms).2.m_chunk_counter.toNat =
        ms.length % period rekey_interval ∧
      (XorCipher.run Crypt (ofKey key rekey_interval m_buffer) ms).2.m_rekey_counter.toNat =
        ms.length / period rekey_interval % 2 ^ 64 := by
  obtain ⟨-, hc, hr⟩ := counters_run_of (ofKey key rekey_interval m_buffer)
    (by simpa [ofKey] using period_pos rekey_interval) ms
  simpa [ofKey] using And.intro hc hr

end FSChaCha20

end Tenscoin
