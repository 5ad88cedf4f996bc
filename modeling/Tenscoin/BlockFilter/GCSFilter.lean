import Mathlib
import Tenscoin.Lib.SortedMeet
import Tenscoin.Primitives.Serialize
import Tenscoin.Util.GolombRice

/-!
# Golomb-coded set filters

A `GCSFilter` (blockfilter.cpp) holds a set of byte strings as `N`, followed by the sorted hashes
of its elements, each in `[0, N * M)`, written as Golomb-Rice codes of their differences. A query
hashes an element the same way and walks the decoded hashes and the sorted queries together, as a
merge does, until it finds a common value or runs out of either.

The elements' hash is SipHash keyed by the parameters; the model takes it as `SipHash`, and no
result depends on what it computes.

* `FastRange64Fallback_eq`: the range reduction without `__int128` computes what the one with it
  does;
* `ofElements_spec`: a filter built from elements is `N`, then the bytes whose bits are the codes
  of its sorted hashes' differences (`deltaCodes`), padded with zeros to a byte;
* `ofEncoded_ofElements`: the constructor from an encoding accepts every filter built from at most
  `MAX_SIZE` elements, and rebuilds it;
* `ofEncoded_ok_iff`: with its decode check, it accepts exactly the `WellFormed` encodings, `N`
  and then `N` Golomb-Rice codes and fewer than eight bits (`decodeLoop_sound`,
  `decodeLoop_complete`);
* `matchLoop_spec`: on sorted values and queries, the walk answers whether they meet; with the
  decoder's run lemma (`decodeLoop_spec`) this gives `MatchInternal_of_Encodes`, and from it
  `Match` and `MatchAny`, which report exactly whether a query hashes to an element's hash: there
  are no false negatives;
* `ofElements_too_many`: a filter built from more than `MAX_SIZE` elements cannot be decoded or
  queried, since `ReadCompactSize` checks its `N` against `MAX_SIZE`.
-/

namespace Tenscoin

open BitList Bytes SortedMeet

/-! ### Range reduction -/

/-- `FastRange64`: `x` scaled to `[0, n)`, the high word of the 128-bit product `x * n`. -/
def FastRange64 (x n : UInt64) : UInt64 :=
  UInt64.ofNat (x.toNat * n.toNat / 2 ^ 64)

/-- `FastRange64` without `__int128`: the high word of `x * n` from the products of halves. -/
def FastRange64Fallback (x n : UInt64) : UInt64 :=
  let x_hi := x >>> 32
  let x_lo := x &&& 0xFFFFFFFF
  let n_hi := n >>> 32
  let n_lo := n &&& 0xFFFFFFFF
  let ac := x_hi * n_hi
  let ad := x_hi * n_lo
  let bc := x_lo * n_hi
  let bd := x_lo * n_lo
  let mid34 := (bd >>> 32) + (bc &&& 0xFFFFFFFF) + (ad &&& 0xFFFFFFFF)
  let upper64 := ac + (bc >>> 32) + (ad >>> 32) + (mid34 >>> 32)
  upper64

theorem toNat_hi (x : UInt64) : (x >>> 32).toNat = x.toNat / 2 ^ 32 := by
  rw [UInt64.toNat_shiftRight, Nat.shiftRight_eq_div_pow]
  rfl

theorem toNat_lo (x : UInt64) : (x &&& 0xFFFFFFFF).toNat = x.toNat % 2 ^ 32 := by
  rw [UInt64.toNat_and, show (0xFFFFFFFF : UInt64).toNat = 2 ^ 32 - 1 from rfl,
    Nat.and_two_pow_sub_one_eq_mod]

theorem toNat_hi_lt (x : UInt64) : (x >>> 32).toNat < 2 ^ 32 := by
  rw [toNat_hi]
  have := x.toNat_lt
  omega

theorem toNat_lo_lt (x : UInt64) : (x &&& 0xFFFFFFFF).toNat < 2 ^ 32 := by
  rw [toNat_lo]
  exact Nat.mod_lt _ (by norm_num)

/-- A product of halves does not wrap. -/
theorem toNat_mul_of_lt {u v : UInt64} (hu : u.toNat < 2 ^ 32) (hv : v.toNat < 2 ^ 32) :
    (u * v).toNat = u.toNat * v.toNat := by
  rw [UInt64.toNat_mul, Nat.mod_eq_of_lt]
  calc u.toNat * v.toNat < 2 ^ 32 * 2 ^ 32 := Nat.mul_lt_mul'' hu hv
    _ = 2 ^ 64 := by norm_num

/-- **The fallback computes the high word.** Without `__int128`, `FastRange64` returns the same
value: the products of the halves, with the carries out of the middle word, add up to the high
word of the full product, and none of the sums wraps. -/
theorem FastRange64Fallback_eq (x n : UInt64) : FastRange64Fallback x n = FastRange64 x n := by
  have hx := x.toNat_lt
  have hn := n.toNat_lt
  -- the four products of halves fit a word
  have hac := toNat_mul_of_lt (toNat_hi_lt x) (toNat_hi_lt n)
  have had := toNat_mul_of_lt (toNat_hi_lt x) (toNat_lo_lt n)
  have hbc := toNat_mul_of_lt (toNat_lo_lt x) (toNat_hi_lt n)
  have hbd := toNat_mul_of_lt (toNat_lo_lt x) (toNat_lo_lt n)
  simp only [toNat_hi, toNat_lo] at hac had hbc hbd
  -- and make up the product of the words, by places of 32 bits
  have hprod : x.toNat * n.toNat = x.toNat / 2 ^ 32 * (n.toNat / 2 ^ 32) * 2 ^ 64 +
      x.toNat / 2 ^ 32 * (n.toNat % 2 ^ 32) * 2 ^ 32 + x.toNat % 2 ^ 32 * (n.toNat / 2 ^ 32) * 2 ^ 32 +
      x.toNat % 2 ^ 32 * (n.toNat % 2 ^ 32) := by
    conv_lhs => rw [← Nat.div_add_mod x.toNat (2 ^ 32), ← Nat.div_add_mod n.toNat (2 ^ 32)]
    ring
  have hxn : x.toNat * n.toNat < 2 ^ 64 * 2 ^ 64 := Nat.mul_lt_mul'' hx hn
  have h1 : x.toNat % 2 ^ 32 * (n.toNat % 2 ^ 32) < 2 ^ 64 := by rw [← hbd]; exact UInt64.toNat_lt _
  have h2 : x.toNat / 2 ^ 32 * (n.toNat % 2 ^ 32) < 2 ^ 64 := by rw [← had]; exact UInt64.toNat_lt _
  have h3 : x.toNat % 2 ^ 32 * (n.toNat / 2 ^ 32) < 2 ^ 64 := by rw [← hbc]; exact UInt64.toNat_lt _
  apply UInt64.toNat_inj.1
  simp only [FastRange64Fallback, FastRange64, UInt64.toNat_ofNat', UInt64.toNat_add, toNat_hi,
    toNat_lo, hac, had, hbc, hbd]
  omega

/-! ### The filter -/

/-- `GCSFilter::Params`: the SipHash key, the Golomb-Rice parameter `P` and the inverse false
positive rate `M`. -/
structure GCSFilter.Params where
  m_siphash_k0 : UInt64 := 0
  m_siphash_k1 : UInt64 := 0
  m_P : UInt8 := 0
  m_M : UInt32 := 1
  deriving DecidableEq, Repr

/-- `GCSFilter`: its parameters, the number `N` of its elements, the range `F = N * M` of their
hashes, and its encoding. -/
structure GCSFilter where
  m_params : GCSFilter.Params
  m_N : UInt32
  m_F : UInt64
  m_encoded : List UInt8
  deriving DecidableEq, Repr

/-- A read of the serializer from a `SpanReader`: the same read, which reports the end of the
span's data in the span's words. -/
def onSpan {α : Type} (r : Reader α) : Reader α := fun bs =>
  (r bs).mapError fun e => if e = END_OF_DATA then SpanReader.END_OF_DATA else e

theorem onSpan_run_ok {α : Type} {r : Reader α} {bs : List UInt8} {p : α × List UInt8}
    (h : r.run bs = .ok p) : (onSpan r).run bs = .ok p := by
  show (r bs).mapError _ = _
  rw [show r bs = r.run bs from rfl, h]
  rfl

theorem onSpan_run_error {α : Type} {r : Reader α} {bs : List UInt8} {e : String}
    (h : r.run bs = .error e) (he : e ≠ END_OF_DATA) : (onSpan r).run bs = .error e := by
  show (r bs).mapError _ = _
  rw [show r bs = r.run bs from rfl, h]
  simp only [Except.mapError, if_neg he]

theorem run_eq_ok_of_onSpan {α : Type} {r : Reader α} {bs : List UInt8} {p : α × List UInt8}
    (h : (onSpan r).run bs = .ok p) : r.run bs = .ok p := by
  change (r bs).mapError _ = _ at h
  change r bs = _
  cases hr : r bs with
  | error e =>
    rw [hr] at h
    cases h
  | ok q =>
    rw [hr] at h
    exact h

/-- What the range-checked `ReadCompactSize` of a span accepts: the encoding of a value of at most
`MAX_SIZE`. -/
theorem onSpan_ReadCompactSize_sound {bs rest : List UInt8} {n : ℕ}
    (h : (onSpan (ReadCompactSize true)).run bs = .ok (n, rest)) :
    n ≤ MAX_SIZE ∧ bs = WriteCompactSize n ++ rest := by
  have h' := run_eq_ok_of_onSpan h
  refine ⟨?_, ReadCompactSize_canonical h'⟩
  rw [ReadCompactSize_true_run] at h'
  cases hf : (ReadCompactSize false).run bs with
  | error e =>
    rw [hf] at h'
    cases h'
  | ok p =>
    rw [hf] at h'
    by_cases hp : p.1 > MAX_SIZE
    · simp only [Except.bind, if_pos hp, reduceCtorEq] at h'
    · simp only [Except.bind, if_neg hp, Except.ok.injEq] at h'
      rw [h'] at hp
      exact Nat.le_of_not_lt hp

/-- A filter's `N`, read back from the front of its encoding. -/
theorem onSpan_ReadCompactSize_run {n : ℕ} (hn : n ≤ MAX_SIZE) (body : List UInt8) :
    (onSpan (ReadCompactSize true)).run (WriteCompactSize n ++ body) = .ok (n, body) :=
  onSpan_run_ok (Reads.ReadCompactSize_WriteCompactSize (lt_of_le_of_lt hn (by decide))
    (fun _ => hn) body)

/-- A filter's `N` above `MAX_SIZE` is refused by the range check of `ReadCompactSize`. -/
theorem onSpan_ReadCompactSize_run_too_large {n : ℕ} (hmax : MAX_SIZE < n) (hn : n < 2 ^ 64)
    (body : List UInt8) :
    (onSpan (ReadCompactSize true)).run (WriteCompactSize n ++ body) =
      .error "ReadCompactSize(): size too large" := by
  have hread : Reads (ReadCompactSize false) (WriteCompactSize n) n :=
    Reads.ReadCompactSize_WriteCompactSize hn (fun h => absurd h Bool.false_ne_true)
  refine onSpan_run_error ?_ (by decide)
  rw [ReadCompactSize_true_run, hread body]
  simp only [Except.bind, if_pos hmax]

namespace GCSFilter

/-! ### Decoding and queries -/

/-- The check of the constructor from an encoding: `N` codes decoded. -/
def decodeLoop (P : UInt8) : ℕ → BitStreamReader → Except String BitStreamReader
  | 0, bitreader => pure bitreader
  | n + 1, bitreader => do
    let (_, bitreader) ← GolombRiceDecode bitreader P
    decodeLoop P n bitreader

/-- `GCSFilter(params, encoded_filter, skip_decode_check)`. -/
def ofEncoded (params : Params) (encoded_filter : List UInt8) (skip_decode_check : Bool) :
    Except String GCSFilter := do
  let (N, stream) ← (onSpan (ReadCompactSize true)).run encoded_filter
  let m_N := N.toUInt32
  if m_N.toNat ≠ N then throw "N must be <2^32"
  let m_F := m_N.toUInt64 * params.m_M.toUInt64
  let filter : GCSFilter := { m_params := params, m_N, m_F, m_encoded := encoded_filter }
  if skip_decode_check then return filter
  -- the encoding holds exactly `N` codes, up to the padding of the last byte
  let bitreader ← decodeLoop params.m_P m_N.toNat { m_istream := stream }
  if !bitreader.m_istream.isEmpty then throw "encoded_filter contains excess data"
  return filter

/-- The inner loop of `MatchInternal`: past the queries below `value`, to one equal to it (a
match), one above it (on to the next value), or their end (no match). -/
def seekQueries (value : UInt64) : List UInt64 → Option Bool × List UInt64
  | [] => (some false, [])
  | h :: hs =>
    if h = value then (some true, h :: hs)
    else if h > value then (none, h :: hs)
    else seekQueries value hs

/-- The outer loop of `MatchInternal`: the filter's values, each the sum of the differences
decoded so far, against the queries left. -/
def matchLoop (P : UInt8) : ℕ → BitStreamReader → UInt64 → List UInt64 → Except String Bool
  | 0, _, _, _ => pure false
  | n + 1, bitreader, value, element_hashes => do
    let (delta, bitreader) ← GolombRiceDecode bitreader P
    let value := value + delta
    match seekQueries value element_hashes with
    | (some found, _) => pure found
    | (none, element_hashes) => matchLoop P n bitreader value element_hashes

/-- `MatchInternal`, on sorted queries. Its `assert` is an error here. -/
def MatchInternal (f : GCSFilter) (element_hashes : List UInt64) : Except String Bool := do
  let (N, stream) ← (onSpan (ReadCompactSize true)).run f.m_encoded
  if N ≠ f.m_N.toNat then throw "assert(N == m_N)"
  matchLoop f.m_params.m_P f.m_N.toNat { m_istream := stream } 0 element_hashes

section Hash

-- `CSipHasher(k0, k1).Write(element).Finalize()`
variable (SipHash : UInt64 → UInt64 → List UInt8 → UInt64)

/-- `HashToRange`: an element's hash in `[0, F)`. -/
def HashToRange (f : GCSFilter) (element : List UInt8) : UInt64 :=
  FastRange64 (SipHash f.m_params.m_siphash_k0 f.m_params.m_siphash_k1 element) f.m_F

/-- `BuildHashedSet`: the elements' hashes, sorted. -/
def BuildHashedSet (f : GCSFilter) (elements : List (List UInt8)) : List UInt64 :=
  (elements.map (HashToRange SipHash f)).mergeSort fun a b => decide (a ≤ b)

/-- The loop of the constructor from elements: each hash as its difference from the one before. -/
def encodeLoop (P : UInt8) : UInt64 → List UInt64 → BitStreamWriter → Except String BitStreamWriter
  | _, [], bitwriter => pure bitwriter
  | last_value, value :: values, bitwriter => do
    let delta := value - last_value
    let bitwriter ← GolombRiceEncode bitwriter P delta
    encodeLoop P value values bitwriter

/-- `GCSFilter(params, elements)`. An `unordered_set` is a list here: its iteration order is lost
to the sort. -/
def ofElements (params : Params) (elements : List (List UInt8)) : Except String GCSFilter := do
  let N := elements.length
  let m_N := N.toUInt32
  if m_N.toNat ≠ N then throw "N must be <2^32"
  let m_F := m_N.toUInt64 * params.m_M.toUInt64
  let filter : GCSFilter := { m_params := params, m_N, m_F, m_encoded := [] }
  -- the bit writer writes into the stream after `N`
  let stream := WriteCompactSize m_N.toNat
  if elements.isEmpty then return { filter with m_encoded := stream }
  let bitwriter ← encodeLoop params.m_P 0 (BuildHashedSet SipHash filter elements)
    { m_ostream := stream }
  return { filter with m_encoded := bitwriter.Flush.m_ostream }

/-- `Match`. -/
def Match (f : GCSFilter) (element : List UInt8) : Except String Bool :=
  MatchInternal f [HashToRange SipHash f element]

/-- `MatchAny`. -/
def MatchAny (f : GCSFilter) (elements : List (List UInt8)) : Except String Bool :=
  MatchInternal f (BuildHashedSet SipHash f elements)

end Hash

/-! ### Coding the differences -/

/-- The codes of the differences of `values`, each from the one before it, the first from `last`:
the bits a filter encodes its sorted hashes as. -/
def deltaCodes (P : ℕ) : UInt64 → List UInt64 → List Bool
  | _, [] => []
  | last, value :: values => riceCode P (value - last).toNat ++ deltaCodes P value values

section Coding

variable {P : UInt8} (hP : P.toNat < 64)
include hP

/-- **The encoder's loop appends the codes of the differences.** -/
theorem encodeLoop_spec :
    ∀ (values : List UInt64) (last : UInt64) (w : BitStreamWriter), w.Clean →
      ∃ w', encodeLoop P last values w = .ok w' ∧ w'.Clean ∧
        w'.bits = w.bits ++ deltaCodes P.toNat last values ∧ w.m_ostream <+: w'.m_ostream := by
  intro values
  induction values with
  | nil =>
    intro last w hw
    exact ⟨w, rfl, hw, by rw [deltaCodes, List.append_nil], List.prefix_refl _⟩
  | cons value values ih =>
    intro last w hw
    obtain ⟨w₁, h₁, hc₁, hbits₁, hpre₁⟩ := GolombRiceEncode_spec hw hP (value - last)
    obtain ⟨w', h', hc', hbits', hpre'⟩ := ih value w₁ hc₁
    refine ⟨w', ?_, hc', ?_, hpre₁.trans hpre'⟩
    · simp only [encodeLoop, h₁, Except.ok_bind, h']
    · rw [hbits', hbits₁, deltaCodes, List.append_assoc]

/-- **The decode check takes the codes of the differences off the front.** -/
theorem decodeLoop_spec :
    ∀ (values : List UInt64) (last : UInt64) (r : BitStreamReader) (rest : List Bool),
      r.bits = deltaCodes P.toNat last values ++ rest →
      ∃ r', decodeLoop P values.length r = .ok r' ∧ r'.bits = rest := by
  intro values
  induction values with
  | nil => intro last r rest hr; exact ⟨r, rfl, hr⟩
  | cons value values ih =>
    intro last r rest hr
    rw [deltaCodes, List.append_assoc] at hr
    obtain ⟨r₁, h₁, hbits₁⟩ := GolombRiceDecode_spec hP (value - last) hr
    obtain ⟨r', h', hbits'⟩ := ih value r₁ rest hbits₁
    refine ⟨r', ?_, hbits'⟩
    simp only [List.length_cons, decodeLoop, h₁, Except.ok_bind, h']

end Coding

/-- **What the decode check read:** `n` codes, and the reader past them; a reader below the top
of its buffer stays there. -/
theorem decodeLoop_sound {P : UInt8} :
    ∀ (n : ℕ) (r : BitStreamReader) {r' : BitStreamReader}, decodeLoop P n r = .ok r' →
      ∃ codes : List ℕ, codes.length = n ∧ r.bits = codes.flatMap (riceCode P.toNat) ++ r'.bits ∧
        (0 < r.m_offset → 0 < r'.m_offset) := by
  intro n
  induction n with
  | zero =>
    intro r r' h
    simp only [decodeLoop, Except.pure_eq_ok, Except.ok.injEq] at h
    subst h
    exact ⟨[], rfl, rfl, id⟩
  | succ n ih =>
    intro r r' h
    obtain ⟨⟨x, r₁⟩, h₁, h₂⟩ := Except.bind_eq_ok h
    obtain ⟨c, hc, hpos₁⟩ := GolombRiceDecode_sound h₁
    obtain ⟨codes, hlen, hbits, hpos⟩ := ih r₁ h₂
    refine ⟨c :: codes, by rw [List.length_cons, hlen], ?_, fun _ => hpos hpos₁⟩
    rw [hc, hbits, List.flatMap_cons, List.append_assoc]

/-- The decode check reads any `n` codes, for `P` of at most 64 bits. -/
theorem decodeLoop_complete {P : UInt8} (hP : P.toNat ≤ 64) :
    ∀ (codes : List ℕ) (r : BitStreamReader) (rest : List Bool),
      r.bits = codes.flatMap (riceCode P.toNat) ++ rest →
      ∃ r', decodeLoop P codes.length r = .ok r' ∧ r'.bits = rest := by
  intro codes
  induction codes with
  | nil => intro r rest hr; exact ⟨r, rfl, hr⟩
  | cons c codes ih =>
    intro r rest hr
    rw [List.flatMap_cons, List.append_assoc] at hr
    obtain ⟨x, r₁, h₁, hbits₁⟩ := GolombRiceDecode_code hP c hr
    obtain ⟨r', h', hbits'⟩ := ih r₁ rest hbits₁
    refine ⟨r', ?_, hbits'⟩
    simp only [List.length_cons, decodeLoop, h₁, Except.ok_bind, h']

/-! ### What the decode check accepts -/

/-- The encodings the constructor from an encoding accepts with its decode check: `N`, at most
`MAX_SIZE`, then bytes whose bits are the codes of `N` numbers and fewer than eight bits. -/
def WellFormed (P : ℕ) (encoded : List UInt8) : Prop :=
  ∃ N body, N ≤ MAX_SIZE ∧ encoded = WriteCompactSize N ++ body ∧
    ∃ codes : List ℕ, codes.length = N ∧ ∃ pad : List Bool, pad.length < 8 ∧
      bytesBits body = codes.flatMap (riceCode P) ++ pad

theorem toNat_toUInt32_of_le_MAX_SIZE {N : ℕ} (hmax : N ≤ MAX_SIZE) : N.toUInt32.toNat = N := by
  rw [Nat.toUInt32_eq, UInt32.toNat_ofNat', Nat.mod_eq_of_lt (lt_of_le_of_lt hmax (by decide))]

/-- An encoding the decode check accepts is well formed. -/
theorem wellFormed_of_ofEncoded {params : Params} {encoded : List UInt8} {f : GCSFilter}
    (h : ofEncoded params encoded false = .ok f) : WellFormed params.m_P.toNat encoded := by
  obtain ⟨⟨N, stream⟩, hread, h₁⟩ := Except.bind_eq_ok h
  obtain ⟨hmax, henc⟩ := onSpan_ReadCompactSize_sound hread
  simp only [toNat_toUInt32_of_le_MAX_SIZE hmax, ne_eq, not_true_eq_false, if_false,
    Bool.false_eq_true] at h₁
  obtain ⟨r, hloop, h₂⟩ := Except.bind_eq_ok h₁
  -- the check of excess data passed: the stream is used up
  have hempty : r.m_istream = [] := by
    cases hs : r.m_istream with
    | nil => rfl
    | cons b bs =>
      simp only [hs, List.isEmpty_cons, Bool.not_false, if_true] at h₂
      cases h₂
  obtain ⟨codes, hlen, hbits, hpos⟩ := decodeLoop_sound _ _ hloop
  refine ⟨N, stream, hmax, henc, codes, hlen, r.bits,
    BitStreamReader.length_bits_lt_of_istream_eq_nil hempty (hpos (show 0 < 8 by decide)), ?_⟩
  rw [← BitStreamReader.bits_ofStream, hbits]

/-- The decode check accepts every well-formed encoding, for `P` of at most 64 bits. -/
theorem ofEncoded_of_wellFormed {params : Params} (hP : params.m_P.toNat ≤ 64) {encoded : List UInt8}
    (h : WellFormed params.m_P.toNat encoded) : ∃ f, ofEncoded params encoded false = .ok f := by
  obtain ⟨N, body, hmax, henc, codes, hlen, pad, hpad, hbits⟩ := h
  obtain ⟨r, hloop, hrest⟩ := decodeLoop_complete hP codes { m_istream := body } pad
    (by rw [BitStreamReader.bits_ofStream, hbits])
  have hempty : r.m_istream = [] :=
    BitStreamReader.istream_eq_nil_of_length_bits_lt (by rw [hrest]; exact hpad)
  rw [hlen] at hloop
  subst henc
  refine ⟨{ m_params := params, m_N := N.toUInt32,
            m_F := N.toUInt32.toUInt64 * params.m_M.toUInt64, m_encoded := WriteCompactSize N ++ body },
    ?_⟩
  simp only [ofEncoded, onSpan_ReadCompactSize_run hmax, Except.ok_bind,
    toNat_toUInt32_of_le_MAX_SIZE hmax, ne_eq, not_true_eq_false, if_false, Bool.false_eq_true, hloop,
    hempty, List.isEmpty_nil, Bool.not_true]
  rfl

/-- **The decode check accepts exactly the well-formed encodings.** With `P` of at most 64 bits,
the constructor from an encoding, with its decode check, accepts an encoding exactly when it is a
CompactSize `N` of at most `MAX_SIZE`, then bytes whose bits are `N` Golomb-Rice codes and fewer
than eight bits more, which it does not check. -/
theorem ofEncoded_ok_iff {params : Params} (hP : params.m_P.toNat ≤ 64) (encoded : List UInt8) :
    (∃ f, ofEncoded params encoded false = .ok f) ↔ WellFormed params.m_P.toNat encoded :=
  ⟨fun ⟨_, h⟩ => wellFormed_of_ofEncoded h, ofEncoded_of_wellFormed hP⟩

theorem ofEncoded_ok_iff_basic :
    ({ m_P := 19, m_M := 784931 } : Params).m_P.toNat ≤ 64 ∧
      ((∃ f, ofEncoded { m_P := 19, m_M := 784931 } [1, 0x5F, 0xC0, 0x00] false = .ok f) ↔
        WellFormed ({ m_P := 19, m_M := 784931 } : Params).m_P.toNat [1, 0x5F, 0xC0, 0x00]) :=
  ⟨by decide, ofEncoded_ok_iff (by decide) _⟩

/-! ### The walk of `MatchInternal` -/

/-- The inner loop stops at a query equal to the value, or at the end of the queries: then the
values from it on and the queries meet exactly when it found the value. -/
theorem seekQueries_some {value : UInt64} {values : List UInt64}
    (hvs : (value :: values).Pairwise (· ≤ ·)) :
    ∀ {qs qs' : List UInt64} {found : Bool}, seekQueries value qs = (some found, qs') →
      found = decide (Meet (value :: values) qs) := by
  intro qs
  induction qs with
  | nil =>
    intro qs' found h
    cases h
    simp [not_meet_nil_right]
  | cons q qs ih =>
    intro qs' found h
    rw [seekQueries] at h
    by_cases heq : q = value
    · rw [if_pos heq] at h
      cases h
      subst heq
      simp [meet_cons_cons_self]
    · rw [if_neg heq] at h
      by_cases hgt : q > value
      · rw [if_pos hgt] at h
        cases h
      · -- a query below the value is passed
        rw [if_neg hgt] at h
        have hlt : ¬ value ≤ q := fun hle => heq (UInt64.le_antisymm (UInt64.not_lt.1 hgt) hle)
        rw [ih h]
        exact decide_eq_decide.2 (meet_cons_right_iff hvs hlt).symm

/-- The inner loop passes to the next value at a query above this one: the values from it on and
the queries meet exactly when the later values and the queries left do. -/
theorem seekQueries_none {value : UInt64} {values : List UInt64}
    (hvs : (value :: values).Pairwise (· ≤ ·)) :
    ∀ {qs qs' : List UInt64}, qs.Pairwise (· ≤ ·) → seekQueries value qs = (none, qs') →
      qs'.Pairwise (· ≤ ·) ∧ (Meet (value :: values) qs ↔ Meet values qs') := by
  intro qs
  induction qs with
  | nil => intro qs' _ h; cases h
  | cons q qs ih =>
    intro qs' hqs h
    rw [seekQueries] at h
    by_cases heq : q = value
    · rw [if_pos heq] at h
      cases h
    · rw [if_neg heq] at h
      by_cases hgt : q > value
      · -- a query above the value: the value is none of the queries
        rw [if_pos hgt] at h
        cases h
        exact ⟨hqs, meet_cons_left_iff hqs (UInt64.not_le.2 hgt)⟩
      · rw [if_neg hgt] at h
        have hlt : ¬ value ≤ q := fun hle => heq (UInt64.le_antisymm (UInt64.not_lt.1 hgt) hle)
        obtain ⟨hqs', hiff⟩ := ih (List.Pairwise.of_cons hqs) h
        exact ⟨hqs', (meet_cons_right_iff hvs hlt).trans hiff⟩

/-- **The walk answers whether the values and the queries meet.** From a reader that holds the
codes of the differences of sorted values, `MatchInternal`'s loop decodes each value in turn
(the differences add back up to it, wrapping or not) and returns whether one of them is among the
sorted queries. -/
theorem matchLoop_spec {P : UInt8} (hP : P.toNat < 64) :
    ∀ (values : List UInt64) (last : UInt64) (r : BitStreamReader) (rest : List Bool)
      (qs : List UInt64), values.Pairwise (· ≤ ·) → qs.Pairwise (· ≤ ·) →
      r.bits = deltaCodes P.toNat last values ++ rest →
      matchLoop P values.length r last qs = .ok (decide (Meet values qs)) := by
  intro values
  induction values with
  | nil =>
    intro last r rest qs _ _ _
    simp [matchLoop, Meet]
  | cons value values ih =>
    intro last r rest qs hvs hqs hr
    rw [deltaCodes, List.append_assoc] at hr
    obtain ⟨r₁, h₁, hbits₁⟩ := GolombRiceDecode_spec hP (value - last) hr
    have hvalue : last + (value - last) = value := by
      rw [UInt64.add_comm, UInt64.sub_add_cancel]
    simp only [List.length_cons, matchLoop, h₁, Except.ok_bind, hvalue]
    -- the inner loop ends the walk, or passes to the next value
    rcases hseek : seekQueries value qs with ⟨found, qs'⟩
    cases found with
    | some found =>
      rw [seekQueries_some hvs hseek]
      rfl
    | none =>
      obtain ⟨hqs', hiff⟩ := seekQueries_none hvs hqs hseek
      show matchLoop P values.length r₁ value qs' = _
      rw [ih value r₁ rest qs' (List.Pairwise.of_cons hvs) hqs' hbits₁, decide_eq_decide.2 hiff]

section Spec

variable (SipHash : UInt64 → UInt64 → List UInt8 → UInt64)

/-! ### The hashed set -/

theorem sorted_BuildHashedSet (f : GCSFilter) (elements : List (List UInt8)) :
    (BuildHashedSet SipHash f elements).Pairwise (· ≤ ·) := by
  have htrans : ∀ a b c : UInt64, decide (a ≤ b) = true → decide (b ≤ c) = true →
      decide (a ≤ c) = true := by
    simp only [decide_eq_true_eq]
    exact fun a b c => UInt64.le_trans
  have htotal : ∀ a b : UInt64, (decide (a ≤ b) || decide (b ≤ a)) = true := by
    simp only [Bool.or_eq_true, decide_eq_true_eq]
    exact UInt64.le_total
  exact (List.pairwise_mergeSort htrans htotal _).imp of_decide_eq_true

theorem mem_BuildHashedSet {f : GCSFilter} {elements : List (List UInt8)} {x : UInt64} :
    x ∈ BuildHashedSet SipHash f elements ↔ ∃ e ∈ elements, HashToRange SipHash f e = x := by
  rw [BuildHashedSet, List.mem_mergeSort, List.mem_map]

theorem length_BuildHashedSet (f : GCSFilter) (elements : List (List UInt8)) :
    (BuildHashedSet SipHash f elements).length = elements.length := by
  rw [BuildHashedSet, List.length_mergeSort, List.length_map]

/-! ### Filters of elements -/

/-- What a filter of `elements` holds: their number `N`, the range `N * M` of their hashes, and as
its encoding `N`, then bytes whose bits are the codes of the differences of their sorted hashes
and fewer than eight zeros. -/
structure Encodes (f : GCSFilter) (elements : List (List UInt8)) : Prop where
  N_eq : f.m_N.toNat = elements.length
  F_eq : f.m_F = f.m_N.toUInt64 * f.m_params.m_M.toUInt64
  encoded : ∃ body pad, f.m_encoded = WriteCompactSize elements.length ++ body ∧ pad < 8 ∧
    bytesBits body = deltaCodes f.m_params.m_P.toNat 0 (BuildHashedSet SipHash f elements) ++
      List.replicate pad false

/-- **The constructor from elements.** For fewer than `2^32` elements it builds a filter with the
parameters given that encodes them. -/
theorem ofElements_spec {params : Params} {elements : List (List UInt8)}
    (hN : elements.length < 2 ^ 32) (hP : params.m_P.toNat < 64) :
    ∃ f, ofElements SipHash params elements = .ok f ∧ f.m_params = params ∧
      Encodes SipHash f elements := by
  have hN' : elements.length.toUInt32.toNat = elements.length := by
    rw [Nat.toUInt32_eq, UInt32.toNat_ofNat', Nat.mod_eq_of_lt hN]
  cases helems : elements.isEmpty with
  | true =>
    -- no elements: the encoding is `N` alone
    rw [List.isEmpty_iff] at helems
    subst helems
    have hset : ∀ f, BuildHashedSet SipHash f [] = [] := fun f => by
      rw [BuildHashedSet, List.map_nil, List.mergeSort_nil]
    refine ⟨_, rfl, rfl, ⟨rfl, rfl, [], 0, rfl, by decide, by rw [hset, deltaCodes]; rfl⟩⟩
  | false =>
    let filter : GCSFilter :=
      { m_params := params, m_N := elements.length.toUInt32,
        m_F := elements.length.toUInt32.toUInt64 * params.m_M.toUInt64, m_encoded := [] }
    obtain ⟨w, hloop, hc, hbits, hpre⟩ := encodeLoop_spec hP (BuildHashedSet SipHash filter elements)
      0 { m_ostream := WriteCompactSize elements.length.toUInt32.toNat } (BitStreamWriter.clean_empty _)
    obtain ⟨hflush, -, hpre'⟩ := BitStreamWriter.Flush_spec hc
    -- the flushed stream is `N`, then the body that holds the codes
    obtain ⟨body, hbody⟩ := hpre.trans hpre'
    rw [hN'] at hbody hbits hloop
    refine ⟨{ filter with m_encoded := (BitStreamWriter.Flush w).m_ostream }, ?_, rfl,
      ⟨hN', rfl, body, (8 - w.m_offset) % 8, hbody.symm, Nat.mod_lt _ (by decide), ?_⟩⟩
    · simp only [ofElements, hN', ne_eq, not_true_eq_false, if_false, helems, Bool.false_eq_true]
      rw [hloop]
      rfl
    · rw [← hbody, bytesBits_append, hbits, BitStreamWriter.bits_empty, List.append_assoc] at hflush
      exact List.append_cancel_left hflush

/-! ### Decoding a filter of elements -/

/-- The constructor from an encoding rebuilds a filter of at most `MAX_SIZE` elements from its
encoding, with the decode check or without. -/
theorem ofEncoded_of_Encodes {f : GCSFilter} {elements : List (List UInt8)}
    (h : Encodes SipHash f elements) (hmax : elements.length ≤ MAX_SIZE)
    (hP : f.m_params.m_P.toNat < 64) (skip_decode_check : Bool) :
    ofEncoded f.m_params f.m_encoded skip_decode_check = .ok f := by
  obtain ⟨body, pad, henc, hpad, hbits⟩ := h.encoded
  have hread : (onSpan (ReadCompactSize true)).run f.m_encoded = .ok (elements.length, body) := by
    rw [henc, onSpan_ReadCompactSize_run hmax]
  have hN : elements.length.toUInt32 = f.m_N := by
    rw [← h.N_eq, Nat.toUInt32_eq, UInt32.ofNat_toNat]
  simp only [ofEncoded, hread, Except.ok_bind, hN, h.N_eq, ne_eq, not_true_eq_false, if_false,
    ← h.F_eq]
  cases skip_decode_check with
  | true => rfl
  | false =>
    -- the decode check reads the codes, and leaves only the padding, in the last byte
    obtain ⟨r, hloop, hrest⟩ := decodeLoop_spec hP (BuildHashedSet SipHash f elements) 0
      { m_istream := body } _ (by rw [BitStreamReader.bits_ofStream, hbits])
    rw [length_BuildHashedSet] at hloop
    have hempty : r.m_istream = [] := by
      have hlen := BitStreamReader.length_bits r
      rw [hrest, List.length_replicate] at hlen
      exact List.eq_nil_of_length_eq_zero (by omega)
    simp only [hloop, Except.ok_bind, hempty, List.isEmpty_nil, Bool.not_true, Bool.false_eq_true,
      if_false]
    rfl

/-- **Round trip.** A filter built from at most `MAX_SIZE` elements, with `P < 64`, is rebuilt
from its encoding by the constructor from an encoding, which accepts it with the decode check and
without. -/
theorem ofEncoded_ofElements (params : Params) (elements : List (List UInt8))
    (hN : elements.length ≤ MAX_SIZE) (hP : params.m_P.toNat < 64) :
    ∃ f, ofElements SipHash params elements = .ok f ∧
      ∀ skip_decode_check, ofEncoded params f.m_encoded skip_decode_check = .ok f := by
  obtain ⟨f, hf, hparams, henc⟩ := ofElements_spec SipHash (lt_of_le_of_lt hN (by decide)) hP
  subst hparams
  exact ⟨f, hf, ofEncoded_of_Encodes SipHash henc hN hP⟩

theorem ofEncoded_ofElements_basic :
    [[(0x51 : UInt8)], [0x52]].length ≤ MAX_SIZE ∧ ({ m_P := 19, m_M := 784931 } : Params).m_P.toNat < 64 ∧
      ∃ f, ofElements (fun _ _ element => UInt64.ofNat element.length) { m_P := 19, m_M := 784931 }
          [[0x51], [0x52]] = .ok f ∧
        ∀ skip_decode_check, ofEncoded { m_P := 19, m_M := 784931 } f.m_encoded skip_decode_check = .ok f :=
  ⟨by decide, by decide, ofEncoded_ofElements _ _ _ (by decide) (by decide)⟩

/-! ### Queries -/

/-- **`MatchInternal` on a filter of elements.** On sorted queries it returns whether one of them
is among the hashes of the filter's elements. -/
theorem MatchInternal_of_Encodes {f : GCSFilter} {elements : List (List UInt8)}
    (h : Encodes SipHash f elements) (hmax : elements.length ≤ MAX_SIZE)
    (hP : f.m_params.m_P.toNat < 64) {qs : List UInt64} (hqs : qs.Pairwise (· ≤ ·)) :
    MatchInternal f qs = .ok (decide (Meet (BuildHashedSet SipHash f elements) qs)) := by
  obtain ⟨body, pad, henc, -, hbits⟩ := h.encoded
  have hread : (onSpan (ReadCompactSize true)).run f.m_encoded = .ok (elements.length, body) := by
    rw [henc, onSpan_ReadCompactSize_run hmax]
  have hloop := matchLoop_spec hP (BuildHashedSet SipHash f elements) 0 { m_istream := body } _ qs
    (sorted_BuildHashedSet SipHash f elements) hqs (by rw [BitStreamReader.bits_ofStream, hbits])
  rw [length_BuildHashedSet] at hloop
  simp only [MatchInternal, hread, Except.ok_bind, h.N_eq, ne_eq, not_true_eq_false, if_false]
  exact hloop

/-- **No false negatives, and no other positives.** On a filter built from at most `MAX_SIZE`
elements, `Match` answers whether the element hashes into `[0, F)` as one of the filter's
elements does, and `MatchAny` whether one of the elements queried does: every element of the
filter matches. -/
theorem Match_ofElements (params : Params) (elements : List (List UInt8))
    (hN : elements.length ≤ MAX_SIZE) (hP : params.m_P.toNat < 64) :
    ∃ f, ofElements SipHash params elements = .ok f ∧
      (∀ element, Match SipHash f element =
        .ok (decide (∃ e ∈ elements, HashToRange SipHash f e = HashToRange SipHash f element))) ∧
      ∀ queries, MatchAny SipHash f queries =
        .ok (decide (∃ e ∈ elements, ∃ q ∈ queries, HashToRange SipHash f e = HashToRange SipHash f q)) := by
  obtain ⟨f, hf, hparams, henc⟩ := ofElements_spec SipHash (lt_of_le_of_lt hN (by decide)) hP
  subst hparams
  refine ⟨f, hf, fun element => ?_, fun queries => ?_⟩
  · rw [Match, MatchInternal_of_Encodes SipHash henc hN hP (List.pairwise_singleton _ _)]
    exact congrArg _ (decide_eq_decide.2 ((meet_singleton_iff _ _).trans (mem_BuildHashedSet SipHash)))
  · rw [MatchAny, MatchInternal_of_Encodes SipHash henc hN hP (sorted_BuildHashedSet SipHash f queries)]
    refine congrArg _ (decide_eq_decide.2 ⟨?_, ?_⟩)
    · rintro ⟨x, hx, hxq⟩
      obtain ⟨e, he, rfl⟩ := (mem_BuildHashedSet SipHash).1 hx
      obtain ⟨q, hq, hqe⟩ := (mem_BuildHashedSet SipHash).1 hxq
      exact ⟨e, he, q, hq, hqe.symm⟩
    · rintro ⟨e, he, q, hq, hqe⟩
      exact ⟨_, (mem_BuildHashedSet SipHash).2 ⟨e, he, rfl⟩, (mem_BuildHashedSet SipHash).2 ⟨q, hq, hqe.symm⟩⟩

theorem Match_ofElements_basic :
    [[(0x51 : UInt8)], [0x52]].length ≤ MAX_SIZE ∧ ({ m_P := 19, m_M := 784931 } : Params).m_P.toNat < 64 ∧
      ∃ f, ofElements (fun _ _ element => UInt64.ofNat element.length) { m_P := 19, m_M := 784931 }
          [[0x51], [0x52]] = .ok f ∧
        (∀ element, Match (fun _ _ element => UInt64.ofNat element.length) f element =
          .ok (decide (∃ e ∈ [[(0x51 : UInt8)], [0x52]],
            HashToRange (fun _ _ element => UInt64.ofNat element.length) f e =
              HashToRange (fun _ _ element => UInt64.ofNat element.length) f element))) ∧
        ∀ queries, MatchAny (fun _ _ element => UInt64.ofNat element.length) f queries =
          .ok (decide (∃ e ∈ [[(0x51 : UInt8)], [0x52]], ∃ q ∈ queries,
            HashToRange (fun _ _ element => UInt64.ofNat element.length) f e =
              HashToRange (fun _ _ element => UInt64.ofNat element.length) f q)) :=
  ⟨by decide, by decide, Match_ofElements _ _ _ (by decide) (by decide)⟩

/-! ### Too many elements -/

/-- **A filter of more than `MAX_SIZE` elements is built but cannot be used.** The constructor
from elements takes up to `2^32 - 1` of them, but `ReadCompactSize` refuses an `N` above
`MAX_SIZE`: the constructor from the filter's encoding throws, with the decode check or without,
and so does every query, before any of the filter is decoded. -/
theorem ofElements_too_many (params : Params) (elements : List (List UInt8))
    (hmax : MAX_SIZE < elements.length) (hN : elements.length < 2 ^ 32) (hP : params.m_P.toNat < 64) :
    ∃ f, ofElements SipHash params elements = .ok f ∧
      (∀ skip_decode_check, ofEncoded params f.m_encoded skip_decode_check =
        .error "ReadCompactSize(): size too large") ∧
      (∀ element, Match SipHash f element = .error "ReadCompactSize(): size too large") ∧
      ∀ queries, MatchAny SipHash f queries = .error "ReadCompactSize(): size too large" := by
  obtain ⟨f, hf, hparams, henc⟩ := ofElements_spec SipHash hN hP
  subst hparams
  obtain ⟨body, -, hbody, -⟩ := henc.encoded
  have hread : (onSpan (ReadCompactSize true)).run f.m_encoded =
      .error "ReadCompactSize(): size too large" := by
    rw [hbody, onSpan_ReadCompactSize_run_too_large hmax (lt_trans hN (by decide))]
  -- every use of the filter reads its `N` first
  have hmatch : ∀ qs, MatchInternal f qs = .error "ReadCompactSize(): size too large" := by
    intro qs
    simp only [MatchInternal, hread, Except.error_bind]
  refine ⟨f, hf, fun skip_decode_check => ?_, fun element => hmatch _, fun queries => hmatch _⟩
  simp only [ofEncoded, hread, Except.error_bind]

/-- The elements `0, 1, ..., n - 1`, each as its four bytes. -/
def indexElements (n : ℕ) : List (List UInt8) :=
  (List.range n).map (encodeLE 4)

/-- A hash that reads an element back as its number: distinct on `indexElements`. -/
def indexHash (_ _ : UInt64) (element : List UInt8) : UInt64 :=
  UInt64.ofNat (decodeLE element)

theorem length_indexElements (n : ℕ) : (indexElements n).length = n := by
  rw [indexElements, List.length_map, List.length_range]

theorem ofElements_too_many_indices :
    MAX_SIZE < (indexElements (MAX_SIZE + 1)).length ∧
      (indexElements (MAX_SIZE + 1)).length < 2 ^ 32 ∧
      ({ m_P := 19, m_M := 784931 } : Params).m_P.toNat < 64 ∧
      ∃ f, ofElements indexHash { m_P := 19, m_M := 784931 } (indexElements (MAX_SIZE + 1)) =
          .ok f ∧
        (∀ skip_decode_check, ofEncoded { m_P := 19, m_M := 784931 } f.m_encoded skip_decode_check =
          .error "ReadCompactSize(): size too large") ∧
        (∀ element, Match indexHash f element = .error "ReadCompactSize(): size too large") ∧
        ∀ queries, MatchAny indexHash f queries = .error "ReadCompactSize(): size too large" :=
  have hmax : MAX_SIZE < (indexElements (MAX_SIZE + 1)).length := by
    rw [length_indexElements]
    exact Nat.lt_succ_self _
  have hN : (indexElements (MAX_SIZE + 1)).length < 2 ^ 32 := by
    rw [length_indexElements]
    decide
  ⟨hmax, hN, by decide, ofElements_too_many _ _ _ hmax hN (by decide)⟩

end Spec

end GCSFilter

end Tenscoin
