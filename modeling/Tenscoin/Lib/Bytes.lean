import Mathlib

/-!
# Little-endian bytes and a byte-stream reader

Numbers in a fixed number of bytes, least significant first (`encodeLE`), read back by
`decodeLE`, which is `Nat.ofDigits 256` of the bytes' values: `decodeLE_encodeLE` gives the
number modulo `256 ^ n`, and `encodeLE_decodeLE` gives back any byte string.

`Reader` is a parser over a byte list that returns its value and the bytes it left, or fails
with a message. A reader is proved against a writer by `Reads r bytes a`: run on `bytes`
followed by anything, `r` returns `a` and leaves what follows. The rules compose such facts
along the reader's code: `Reads.bind` for one read after another, `Reads.pure` and `Reads.map`,
`Reads.bind_pure` for the last read, `Reads.readBytes` for the primitive read, `Reads.readLE`
for a number, and `Reads.readMany` for a counted loop of reads, by induction on the values read.
The other direction, what a successful read consumed, takes runs apart: `run_bind_eq_ok` for a
sequence, `readBytes_run_eq_ok` and `readLE_run_eq_ok` for the primitive reads.
-/

namespace Bytes

/-! ### Little-endian numbers -/

/-- `x` modulo `256 ^ n` in `n` bytes, least significant first. -/
def encodeLE : ℕ → ℕ → List UInt8
  | 0, _ => []
  | n + 1, x => UInt8.ofNat x :: encodeLE n (x / 256)

/-- The number whose bytes, least significant first, are `bs`. -/
def decodeLE (bs : List UInt8) : ℕ :=
  Nat.ofDigits 256 (bs.map UInt8.toNat)

@[simp] theorem length_encodeLE (n x : ℕ) : (encodeLE n x).length = n := by
  induction n generalizing x with
  | zero => rfl
  | succ n ih => simp [encodeLE, ih]

@[simp] theorem decodeLE_nil : decodeLE [] = 0 := rfl

@[simp] theorem decodeLE_cons (b : UInt8) (bs : List UInt8) :
    decodeLE (b :: bs) = b.toNat + 256 * decodeLE bs := by
  simp [decodeLE, Nat.ofDigits_cons]

theorem decodeLE_append (xs ys : List UInt8) :
    decodeLE (xs ++ ys) = decodeLE xs + 256 ^ xs.length * decodeLE ys := by
  simp [decodeLE, Nat.ofDigits_append]

theorem decodeLE_lt (bs : List UInt8) : decodeLE bs < 256 ^ bs.length := by
  have h := Nat.ofDigits_lt_base_pow_length (b := 256) (l := bs.map UInt8.toNat) (by norm_num)
    fun x hx => by
      obtain ⟨b, -, rfl⟩ := List.mem_map.mp hx
      exact b.toNat_lt
  simpa [decodeLE] using h

/-- Decoding `n` encoded bytes gives the number modulo `256 ^ n`. -/
theorem decodeLE_encodeLE (n x : ℕ) : decodeLE (encodeLE n x) = x % 256 ^ n := by
  induction n generalizing x with
  | zero => simp [encodeLE, Nat.mod_one]
  | succ n ih =>
    have h256 : (2 : ℕ) ^ 8 = 256 := rfl
    rw [encodeLE, decodeLE_cons, ih, UInt8.toNat_ofNat', h256, pow_succ' 256 n, Nat.mod_mul]

theorem decodeLE_encodeLE_of_lt {n x : ℕ} (h : x < 256 ^ n) : decodeLE (encodeLE n x) = x := by
  rw [decodeLE_encodeLE, Nat.mod_eq_of_lt h]

/-- Encoding a byte string's number in as many bytes gives the string back. -/
theorem encodeLE_decodeLE (bs : List UInt8) : encodeLE bs.length (decodeLE bs) = bs := by
  induction bs with
  | nil => rfl
  | cons b bs ih =>
    have hb := UInt8.toNat_lt b
    have hdiv : (b.toNat + 256 * decodeLE bs) / 256 = decodeLE bs := by omega
    have hbyte : UInt8.ofNat (b.toNat + 256 * decodeLE bs) = b := by
      apply UInt8.toNat_inj.mp
      rw [UInt8.toNat_ofNat']
      omega
    rw [List.length_cons, encodeLE, decodeLE_cons, hdiv, ih, hbyte]

/-! ### Readers -/

/-- A parser of a byte stream: its value and the bytes it left, or the message it failed
with. -/
abbrev Reader := StateT (List UInt8) (Except String)

variable {α β : Type}

/-- Take `n` bytes off the stream; fail with `eod` when fewer are left. -/
def readBytes (eod : String) (n : ℕ) : Reader (List UInt8) := fun bs =>
  if n ≤ bs.length then .ok (bs.take n, bs.drop n) else .error eod

/-- A number in `n` bytes, least significant first. -/
def readLE (eod : String) (n : ℕ) : Reader ℕ :=
  decodeLE <$> readBytes eod n

/-- `n` reads by `r`, one after another: the loop that reads the elements of a counted list. -/
def readMany (r : Reader α) : ℕ → Reader (List α)
  | 0 => pure []
  | n + 1 => do
    let a ← r
    let as ← readMany r n
    pure (a :: as)

/-! ### Successful runs, taken apart -/

/-- A successful run of `x >>= f` is a successful `x` followed by a successful `f`. -/
theorem run_bind_eq_ok {x : Reader α} {f : α → Reader β} {bs rest : List UInt8} {b : β}
    (h : (x >>= f).run bs = .ok (b, rest)) :
    ∃ a mid, x.run bs = .ok (a, mid) ∧ (f a).run mid = .ok (b, rest) := by
  rw [StateT.run_bind] at h
  cases hx : x.run bs with
  | error e => rw [hx] at h; cases h
  | ok p => exact ⟨p.1, p.2, rfl, by rw [hx] at h; exact h⟩

/-- A successful read of `n` bytes took them off the front. -/
theorem readBytes_run_eq_ok {eod : String} {n : ℕ} {bs p rest : List UInt8}
    (h : (readBytes eod n).run bs = .ok (p, rest)) : p.length = n ∧ bs = p ++ rest := by
  simp only [StateT.run, readBytes] at h
  split at h
  · cases h
    exact ⟨by simp; omega, (List.take_append_drop n bs).symm⟩
  · cases h

/-- A successful read of an `n`-byte number took its bytes off the front. -/
theorem readLE_run_eq_ok {eod : String} {n x : ℕ} {bs rest : List UInt8}
    (h : (readLE eod n).run bs = .ok (x, rest)) :
    ∃ p, p.length = n ∧ bs = p ++ rest ∧ decodeLE p = x := by
  rw [readLE, StateT.run_map] at h
  cases hr : (readBytes eod n).run bs with
  | error e => rw [hr] at h; cases h
  | ok q =>
    rw [hr] at h
    cases h
    obtain ⟨hlen, hbs⟩ := readBytes_run_eq_ok hr
    exact ⟨q.1, hlen, hbs, rfl⟩

/-- `r` reads `a` from `bytes`: run on `bytes` followed by any `rest`, it returns `a` and leaves
`rest`. -/
def Reads (r : Reader α) (bytes : List UInt8) (a : α) : Prop :=
  ∀ rest, r.run (bytes ++ rest) = .ok (a, rest)

namespace Reads

theorem pure (a : α) : Reads (pure a) [] a := fun _ => rfl

/-- Reading `a` from `b₁` and then, given `a`, `c` from `b₂` reads `c` from `b₁ ++ b₂`. -/
theorem bind {r : Reader α} {f : α → Reader β} {b₁ b₂ : List UInt8} {a : α} {c : β}
    (h₁ : Reads r b₁ a) (h₂ : Reads (f a) b₂ c) : Reads (r >>= f) (b₁ ++ b₂) c := by
  intro rest
  rw [StateT.run_bind, List.append_assoc, h₁ (b₂ ++ rest)]
  exact h₂ rest

theorem map {r : Reader α} {bytes : List UInt8} {a : α} (f : α → β) (h : Reads r bytes a) :
    Reads (f <$> r) bytes (f a) := by
  intro rest
  rw [StateT.run_map, h rest]
  rfl

/-- The last read of a reader that then returns a function of what it read. -/
theorem bind_pure {r : Reader α} {bytes : List UInt8} {a : α} (g : α → β) (h : Reads r bytes a) :
    Reads (r >>= fun x => Pure.pure (g x)) bytes (g a) := by
  intro rest
  rw [StateT.run_bind, h rest]
  rfl

theorem of_eq {r : Reader α} {bytes : List UInt8} {a a' : α} (h : Reads r bytes a) (ha : a = a') :
    Reads r bytes a' :=
  ha ▸ h

theorem readBytes (eod : String) (bs : List UInt8) : Reads (Bytes.readBytes eod bs.length) bs bs := by
  intro rest
  have hle : bs.length ≤ (bs ++ rest).length := by simp
  simp only [StateT.run, Bytes.readBytes, if_pos hle, List.take_left', List.drop_left']

theorem readLE (eod : String) (n x : ℕ) : Reads (Bytes.readLE eod n) (encodeLE n x) (x % 256 ^ n) := by
  have h := Reads.map decodeLE (Reads.readBytes eod (encodeLE n x))
  rwa [length_encodeLE, decodeLE_encodeLE] at h

/-- A counted loop of reads reads the values whose bytes follow one another. -/
theorem readMany {r : Reader α} {w : α → List UInt8} :
    ∀ {as : List α}, (∀ a ∈ as, Reads r (w a) a) → Reads (Bytes.readMany r as.length) (as.flatMap w) as
  | [], _ => Reads.pure []
  | a :: as, h => by
    have hrest := Reads.readMany (r := r) (w := w) fun a' ha' => h a' (List.mem_cons_of_mem a ha')
    have htail : Reads (Bytes.readMany r as.length >>= fun as' => Pure.pure (a :: as'))
        (as.flatMap w ++ []) (a :: as) :=
      Reads.bind hrest (Reads.pure (a :: as))
    rw [List.append_nil] at htail
    rw [List.flatMap_cons]
    exact Reads.bind (h a List.mem_cons_self) htail

end Reads

end Bytes
