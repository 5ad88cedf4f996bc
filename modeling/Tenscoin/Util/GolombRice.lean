import Mathlib
import Tenscoin.Lib.Except
import Tenscoin.Util.BitStream

/-!
# Golomb-Rice coding

`GolombRiceEncode` (util/golombrice.h) writes `x` with parameter `P` as its quotient `x >> P` in
unary, ones written at most 64 at a time and then a zero, and its low `P` bits; `GolombRiceDecode`
counts the ones up to the zero and reads the `P` bits back. In the bits of the streams
(`BitStream`), the encoder appends `riceCode P x` (`GolombRiceEncode_spec`), and the decoder
takes a `riceCode` off the front and returns its value (`GolombRiceDecode_spec`), for `P < 64`:
wider shifts of a `uint64_t` are undefined in C++. Whatever it is given, a decoder that succeeds
has read the code of some number (`GolombRiceDecode_sound`), and it reads every code, of any
number, for `P` of at most 64 bits (`GolombRiceDecode_code`).
-/

namespace Tenscoin

open BitList

namespace BitStreamWriter

/-- What the unary loop has left to write after a pass: `q` less the pass's at most 64 ones. -/
theorem toNat_sub_onesChunk {q : UInt64} (hq : 0 < q) :
    (q - (if q ≤ 64 then q.toNat else 64).toUInt64).toNat =
      q.toNat - (if q ≤ 64 then q.toNat else 64) := by
  have hq' : 0 < q.toNat := UInt64.lt_iff_toNat_lt.1 hq
  split
  · rename_i h
    rw [Nat.toUInt64_eq, UInt64.ofNat_toNat, UInt64.sub_self, Nat.sub_self]
    rfl
  · rename_i h
    have h64 : 64 < q.toNat := by
      have := UInt64.lt_iff_toNat_lt.1 (UInt64.not_le.1 h)
      simpa using this
    rw [UInt64.toNat_sub_of_le _ _ (UInt64.le_iff_toNat_le.2 (by simpa using h64.le))]
    rfl

end BitStreamWriter

/-- The unary part of `GolombRiceEncode`: `q` ones, written at most 64 at a time. -/
def writeOnes (bitwriter : BitStreamWriter) (q : UInt64) : Except String BitStreamWriter :=
  if _hq : 0 < q then do
    let nbits := if q ≤ 64 then q.toNat else 64
    let bitwriter ← bitwriter.Write (~~~0) nbits
    writeOnes bitwriter (q - nbits.toUInt64)
  else pure bitwriter
termination_by q.toNat
decreasing_by
  simp only [dite_eq_ite]
  rw [BitStreamWriter.toNat_sub_onesChunk _hq]
  have hq' : 0 < q.toNat := UInt64.lt_iff_toNat_lt.1 _hq
  split <;> omega

/-- `GolombRiceEncode`: `x >> P` ones, a zero, and the low `P` bits of `x`. -/
def GolombRiceEncode (bitwriter : BitStreamWriter) (P : UInt8) (x : UInt64) :
    Except String BitStreamWriter := do
  let q := x >>> P.toUInt64
  let bitwriter ← writeOnes bitwriter q
  let bitwriter ← bitwriter.Write 0 1
  bitwriter.Write x P.toNat

/-- The unary part of `GolombRiceDecode`: ones counted from `q` up to the zero that ends them. -/
def readOnes (bitreader : BitStreamReader) (q : UInt64) : Except String (UInt64 × BitStreamReader) :=
  match h : bitreader.Read 1 with
  | .error e => .error e
  | .ok (bit, bitreader') => if bit = 1 then readOnes bitreader' (q + 1) else .ok (q, bitreader')
termination_by bitreader.bits.length
decreasing_by exact BitStreamReader.length_bits_Read_one h

/-- `GolombRiceDecode`: the ones up to a zero, then `P` bits, as `(q << P) + r`. -/
def GolombRiceDecode (bitreader : BitStreamReader) (P : UInt8) :
    Except String (UInt64 × BitStreamReader) := do
  let (q, bitreader) ← readOnes bitreader 0
  let (r, bitreader) ← bitreader.Read P.toNat
  pure ((q <<< P.toUInt64) + r, bitreader)

/-! ### Encoding -/

/-- **The unary loop writes `q` ones.** -/
theorem writeOnes_spec :
    ∀ (q : UInt64) (w : BitStreamWriter), w.Clean →
      ∃ w', writeOnes w q = .ok w' ∧ w'.Clean ∧ w'.bits = w.bits ++ List.replicate q.toNat true ∧
        w.m_ostream <+: w'.m_ostream := by
  intro q
  induction hn : q.toNat using Nat.strong_induction_on generalizing q with
  | _ n ih =>
  intro w hw
  rw [writeOnes.eq_1]
  by_cases hq : 0 < q
  · rw [dif_pos hq]
    -- one pass writes at most 64 ones of `~0ULL`
    obtain ⟨k, hk⟩ : ∃ k, (if q ≤ 64 then q.toNat else 64) = k := ⟨_, rfl⟩
    have hq' : 0 < q.toNat := UInt64.lt_iff_toNat_lt.1 hq
    have hk64 : k ≤ 64 ∧ 0 < k ∧ k ≤ q.toNat := by
      subst hk
      split
      · rename_i h
        exact ⟨by simpa using UInt64.le_iff_toNat_le.1 h, hq', le_refl _⟩
      · rename_i h
        have := UInt64.lt_iff_toNat_lt.1 (UInt64.not_le.1 h)
        simp only [UInt64.reduceToNat] at this
        omega
    have hrest : (q - k.toUInt64).toNat = n - k := by
      rw [← hk, BitStreamWriter.toNat_sub_onesChunk hq, hk, hn]
    obtain ⟨w₁, hwrite, hc₁, hbits₁, hpre₁⟩ := BitStreamWriter.Write_spec hw (~~~0) hk64.1
    obtain ⟨w', hloop, hc', hbits', hpre'⟩ := ih (n - k) (by omega) (q - k.toUInt64) hrest w₁ hc₁
    refine ⟨w', ?_, hc', ?_, hpre₁.trans hpre'⟩
    · simp only [hk, hwrite, Except.ok_bind, hloop]
    · have hones : bitsOf k (~~~(0 : UInt64)).toNat = List.replicate k true :=
        bitsOf_two_pow_sub_one (m := 64) hk64.1
      rw [hbits', hbits₁, hones, List.append_assoc, List.replicate_append_replicate,
        Nat.add_sub_cancel' (by omega)]
  · rw [dif_neg hq]
    have hq0 : q.toNat = 0 := by
      have := UInt64.not_lt.1 hq
      exact Nat.le_zero.1 (UInt64.le_iff_toNat_le.1 this)
    have hn0 : n = 0 := by rw [← hn, hq0]
    exact ⟨w, rfl, hw, by rw [hn0, List.replicate_zero, List.append_nil], List.prefix_refl _⟩

/-- **`GolombRiceEncode` appends the code of `x`.** -/
theorem GolombRiceEncode_spec {w : BitStreamWriter} (hw : w.Clean) {P : UInt8} (hP : P.toNat < 64)
    (x : UInt64) :
    ∃ w', GolombRiceEncode w P x = .ok w' ∧ w'.Clean ∧ w'.bits = w.bits ++ riceCode P.toNat x.toNat ∧
      w.m_ostream <+: w'.m_ostream := by
  have hq : (x >>> P.toUInt64).toNat = x.toNat / 2 ^ P.toNat := by
    rw [UInt64.toNat_shiftRight, UInt8.toNat_toUInt64, Nat.mod_eq_of_lt hP, Nat.shiftRight_eq_div_pow]
  obtain ⟨w₁, h₁, hc₁, hbits₁, hpre₁⟩ := writeOnes_spec (x >>> P.toUInt64) w hw
  obtain ⟨w₂, h₂, hc₂, hbits₂, hpre₂⟩ := BitStreamWriter.Write_spec hc₁ 0 (show 1 ≤ 64 by decide)
  obtain ⟨w₃, h₃, hc₃, hbits₃, hpre₃⟩ := BitStreamWriter.Write_spec hc₂ x hP.le
  refine ⟨w₃, ?_, hc₃, ?_, hpre₁.trans (hpre₂.trans hpre₃)⟩
  · simp only [GolombRiceEncode, h₁, h₂, h₃, Except.ok_bind]
  · rw [hbits₃, hbits₂, hbits₁, hq, riceCode, List.append_assoc, List.append_assoc]
    rfl

/-! ### Decoding -/

/-- **The unary loop counts the ones up to the zero.** -/
theorem readOnes_spec (rest : List Bool) :
    ∀ (k : ℕ) (r : BitStreamReader) (q : UInt64), r.bits = List.replicate k true ++ false :: rest →
      ∃ r', readOnes r q = .ok (q + UInt64.ofNat k, r') ∧ r'.bits = rest := by
  intro k
  induction k with
  | zero =>
    intro r q hr
    obtain ⟨r₁, hread, hbits₁⟩ :=
      @BitStreamReader.Read_spec r 1 (by decide)
        (by rw [hr, List.length_append, List.length_replicate, List.length_cons]; omega)
    rw [hr] at hread hbits₁
    refine ⟨r₁, ?_, by rw [hbits₁]; rfl⟩
    -- the bit read is the zero
    have hbit : UInt64.ofNat (ofBits ((List.replicate 0 true ++ false :: rest).take 1)) = 0 := rfl
    rw [readOnes]
    split
    · rename_i heq; rw [hread] at heq; cases heq
    · rename_i bit r' heq
      rw [hread, Except.ok.injEq, Prod.mk.injEq] at heq
      obtain ⟨rfl, rfl⟩ := heq
      rw [hbit, if_neg (by decide), show UInt64.ofNat 0 = 0 from rfl, UInt64.add_zero]
  | succ k ih =>
    intro r q hr
    obtain ⟨r₁, hread, hbits₁⟩ :=
      @BitStreamReader.Read_spec r 1 (by decide)
        (by rw [hr, List.length_append, List.length_replicate, List.length_cons]; omega)
    rw [hr] at hread hbits₁
    obtain ⟨r', hloop, hbits'⟩ := ih r₁ (q + 1) (by rw [hbits₁]; rfl)
    refine ⟨r', ?_, hbits'⟩
    -- the bit read is a one
    have hbit : UInt64.ofNat (ofBits ((List.replicate (k + 1) true ++ false :: rest).take 1)) = 1 := rfl
    rw [readOnes]
    split
    · rename_i heq; rw [hread] at heq; cases heq
    · rename_i bit r'' heq
      rw [hread, Except.ok.injEq, Prod.mk.injEq] at heq
      obtain ⟨rfl, rfl⟩ := heq
      rw [hbit, if_pos rfl, hloop, UInt64.add_assoc, UInt64.ofNat_add, UInt64.add_comm (UInt64.ofNat k)]
      rfl

/-- The decoder on `q` ones, a zero and `P` bits: `q` shifted up over the bits, and the reader
past them. -/
theorem GolombRiceDecode_run {P : UInt8} (hP : P.toNat ≤ 64) (q : ℕ) {bs : List Bool}
    (hbs : bs.length = P.toNat) {r : BitStreamReader} {rest : List Bool}
    (hr : r.bits = List.replicate q true ++ false :: (bs ++ rest)) :
    ∃ r', GolombRiceDecode r P = .ok ((UInt64.ofNat q <<< P.toUInt64) + UInt64.ofNat (ofBits bs), r') ∧
      r'.bits = rest := by
  obtain ⟨r₁, h₁, hbits₁⟩ := readOnes_spec _ _ r 0 hr
  obtain ⟨r₂, h₂, hbits₂⟩ := @BitStreamReader.Read_spec r₁ P.toNat hP
    (by rw [hbits₁, List.length_append]; omega)
  rw [hbits₁, List.take_left' hbs] at h₂
  rw [hbits₁, List.drop_left' hbs] at hbits₂
  refine ⟨r₂, ?_, hbits₂⟩
  simp only [GolombRiceDecode, h₁, Except.ok_bind, h₂, UInt64.zero_add]
  rfl

/-- **`GolombRiceDecode` takes a code off the front and returns its value.** -/
theorem GolombRiceDecode_spec {P : UInt8} (hP : P.toNat < 64) (x : UInt64) {r : BitStreamReader}
    {rest : List Bool} (hr : r.bits = riceCode P.toNat x.toNat ++ rest) :
    ∃ r', GolombRiceDecode r P = .ok (x, r') ∧ r'.bits = rest := by
  rw [riceCode, List.append_assoc, List.cons_append] at hr
  obtain ⟨r', h, hbits⟩ := GolombRiceDecode_run hP.le _ (length_bitsOf _ _) hr
  refine ⟨r', ?_, hbits⟩
  -- the quotient shifted back up, plus the remainder, is `x`
  have hx : (UInt64.ofNat (x.toNat / 2 ^ P.toNat) <<< P.toUInt64) +
      UInt64.ofNat (x.toNat % 2 ^ P.toNat) = x := by
    apply UInt64.toNat_inj.1
    have hxlt := x.toNat_lt
    have hsplit := Nat.div_add_mod' x.toNat (2 ^ P.toNat)
    have hq : x.toNat / 2 ^ P.toNat < 2 ^ 64 := Nat.lt_of_le_of_lt (Nat.div_le_self _ _) hxlt
    have hr : x.toNat % 2 ^ P.toNat < 2 ^ 64 := Nat.lt_of_le_of_lt (Nat.mod_le _ _) hxlt
    rw [UInt64.toNat_add, UInt64.toNat_shiftLeft, UInt8.toNat_toUInt64, Nat.mod_eq_of_lt hP,
      UInt64.toNat_ofNat', UInt64.toNat_ofNat', Nat.mod_eq_of_lt hq, Nat.mod_eq_of_lt hr,
      Nat.shiftLeft_eq, Nat.mod_eq_of_lt (Nat.lt_of_le_of_lt (Nat.div_mul_le_self _ _) hxlt), hsplit,
      Nat.mod_eq_of_lt hxlt]
  rw [h, ofBits_bitsOf, hx]

/-- The decoder takes the code of any number off the front, for `P` of at most 64 bits: its
quotient is counted in a `uint64_t`, which may wrap, but is read to its end. -/
theorem GolombRiceDecode_code {P : UInt8} (hP : P.toNat ≤ 64) (c : ℕ) {r : BitStreamReader}
    {rest : List Bool} (hr : r.bits = riceCode P.toNat c ++ rest) :
    ∃ x r', GolombRiceDecode r P = .ok (x, r') ∧ r'.bits = rest := by
  rw [riceCode, List.append_assoc, List.cons_append] at hr
  obtain ⟨r', h, hbits⟩ := GolombRiceDecode_run hP _ (length_bitsOf _ _) hr
  exact ⟨_, r', h, hbits⟩

/-- **What the unary loop read:** ones up to a zero, and the reader past the zero. -/
theorem readOnes_sound :
    ∀ (n : ℕ) (r : BitStreamReader) (q : UInt64) {q' : UInt64} {r' : BitStreamReader},
      r.bits.length = n → readOnes r q = .ok (q', r') →
      ∃ k, r.bits = List.replicate k true ++ false :: r'.bits ∧ 0 < r'.m_offset := by
  intro n
  induction n using Nat.strong_induction_on with
  | _ n ih =>
  intro r q q' r' hn h
  rw [readOnes] at h
  split at h
  · cases h
  · rename_i bit r₁ hread
    obtain ⟨bs, hlen, hbits, hbit⟩ := BitStreamReader.Read_sound hread
    obtain ⟨b, rfl⟩ := List.length_eq_one_iff.1 hlen
    by_cases h1 : bit = 1
    · -- a one: the loop goes on
      rw [if_pos h1] at h
      have hb : b = true := by
        cases b
        · rw [hbit] at h1
          exact absurd h1 (by decide)
        · rfl
      obtain ⟨k, hk, hpos⟩ := ih _ (by rw [← hn, hbits, List.length_append]; simp) r₁ (q + 1) rfl h
      refine ⟨k + 1, ?_, hpos⟩
      rw [hbits, hk, hb, List.replicate_succ]
      rfl
    · -- the zero ends it
      rw [if_neg h1, Except.ok.injEq, Prod.mk.injEq] at h
      obtain ⟨-, rfl⟩ := h
      have hb : b = false := by
        cases b
        · rfl
        · exact absurd hbit h1
      refine ⟨0, by rw [hbits, hb]; rfl, BitStreamReader.Read_offset_pos hread (Or.inl one_pos)⟩

/-- **What the decoder read:** the code of some number, and the reader past it, below the top of
its buffer. -/
theorem GolombRiceDecode_sound {r r' : BitStreamReader} {P : UInt8} {x : UInt64}
    (h : GolombRiceDecode r P = .ok (x, r')) :
    ∃ c, r.bits = riceCode P.toNat c ++ r'.bits ∧ 0 < r'.m_offset := by
  obtain ⟨⟨q, r₁⟩, h₁, h₂⟩ := Except.bind_eq_ok h
  obtain ⟨⟨v, r₂⟩, h₃, h₄⟩ := Except.bind_eq_ok h₂
  simp only [Except.pure_eq_ok, Except.ok.injEq, Prod.mk.injEq] at h₄
  obtain ⟨-, rfl⟩ := h₄
  obtain ⟨k, hk, hpos₁⟩ := readOnes_sound _ r 0 rfl h₁
  obtain ⟨bs, hlen, hbits, -⟩ := BitStreamReader.Read_sound h₃
  refine ⟨k * 2 ^ P.toNat + ofBits bs, ?_, BitStreamReader.Read_offset_pos h₃ (Or.inr hpos₁)⟩
  rw [riceCode_of_bits k hlen, hk, hbits, List.append_assoc, List.cons_append]

end Tenscoin
