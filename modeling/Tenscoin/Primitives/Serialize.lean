import Mathlib
import Tenscoin.Lib.Bytes
import Tenscoin.Lib.Except
import Tenscoin.Primitives.Block

/-!
# Serialization

The parts of `serialize.h` that the compact-block messages use, read from a `DataStream`,
whose reads fail at the end of the data: the fixed-width integers (`ser_writedata*`,
`ser_readdata*`, little endian), `WriteCompactSize` and `ReadCompactSize` with its two
checks (the shortest encoding, and `MAX_SIZE` when `range_check` is set),
`CustomUintFormatter` for integers of a few bytes, and `VectorFormatter`, a CompactSize
count followed by the elements.

Each reader is proved against its writer in the `Reads` calculus of `Bytes`: a CompactSize of a
64-bit value reads back (`Reads.ReadCompactSize_WriteCompactSize`, one case per encoding width,
through `Reads.readCanonical_encodeLE`), so do a vector whose elements read back
(`Reads.VectorFormatter_Unser`) and a block header (`Reads.CBlockHeader_Unserialize`, through
`writeLE32_eq_encodeLE`). The other way, CompactSize is canonical: what `ReadCompactSize`
accepts is the encoding of its value (`ReadCompactSize_canonical`, one case per first byte
through `compactPayload_canonical`), and the range check is a test on that value
(`ReadCompactSize_true_run`).
-/

namespace Tenscoin

open Bytes

/-- The failure of `DataStream::read` at the end of the data. -/
def END_OF_DATA : String := "DataStream::read(): end of data"

/-- `DataStream::read` of `n` bytes. -/
def DataStream.read (n : ℕ) : Reader (List UInt8) :=
  readBytes END_OF_DATA n

/-- `ser_readdata8`, `ser_readdata16`, `ser_readdata32`, `ser_readdata64`: an integer in `n`
bytes, least significant first. -/
def ser_readdata (n : ℕ) : Reader ℕ :=
  readLE END_OF_DATA n

/-- `MAX_SIZE`. -/
def MAX_SIZE : ℕ := 0x02000000

/-- `WriteCompactSize`: one byte below 253, else a marker byte and two, four or eight bytes. -/
def WriteCompactSize (nSize : ℕ) : List UInt8 :=
  if nSize < 253 then encodeLE 1 nSize
  else if nSize ≤ 0xFFFF then 253 :: encodeLE 2 nSize
  else if nSize ≤ 0xFFFFFFFF then 254 :: encodeLE 4 nSize
  else 255 :: encodeLE 8 nSize

/-- `GetSizeOfCompactSize`: what the `SizeComputer` adds for a CompactSize. -/
def GetSizeOfCompactSize (nSize : ℕ) : ℕ :=
  if nSize < 253 then 1
  else if nSize ≤ 0xFFFF then 1 + 2
  else if nSize ≤ 0xFFFFFFFF then 1 + 4
  else 1 + 8

/-- A long form of `ReadCompactSize`: `width` bytes, which are not the shortest encoding of
their value below `least`. -/
def readCanonical (width least : ℕ) : Reader ℕ := do
  let n ← ser_readdata width
  if n < least then throw "non-canonical ReadCompactSize()"
  pure n

/-- What `ReadCompactSize` reads after the first byte `chSize`. -/
def compactPayload (chSize : ℕ) : Reader ℕ :=
  if chSize < 253 then pure chSize
  else if chSize = 253 then readCanonical 2 253
  else if chSize = 254 then readCanonical 4 0x10000
  else readCanonical 8 0x100000000

/-- `ReadCompactSize`. -/
def ReadCompactSize (range_check : Bool) : Reader ℕ := do
  let chSize ← ser_readdata 1
  let nSizeRet ← compactPayload chSize
  if range_check && decide (nSizeRet > MAX_SIZE) then throw "ReadCompactSize(): size too large"
  pure nSizeRet

/-- `CustomUintFormatter<Bytes>::Ser`. -/
def CustomUintFormatter.Ser (nBytes : ℕ) (v : UInt64) : Except String (List UInt8) :=
  if v.toNat > 2 ^ (8 * nBytes) - 1 then throw "CustomUintFormatter value out of range"
  else pure (encodeLE nBytes v.toNat)

/-- `CustomUintFormatter<Bytes>::Unser`. -/
def CustomUintFormatter.Unser (nBytes : ℕ) : Reader UInt64 := do
  let raw ← ser_readdata nBytes
  pure (UInt64.ofNat raw)

/-- `VectorFormatter::Ser` with a formatter that can fail. -/
def VectorFormatter.Ser {α : Type} (ser : α → Except String (List UInt8)) (v : List α) :
    Except String (List UInt8) := do
  let elems ← v.mapM ser
  pure (WriteCompactSize v.length ++ elems.flatten)

/-- `VectorFormatter::Unser`: a count with the range check, then as many elements. The
allocation in batches of `MAX_VECTOR_ALLOCATE` bytes does not change what is read. -/
def VectorFormatter.Unser {α : Type} (unser : Reader α) : Reader (List α) := do
  let size ← ReadCompactSize true
  readMany unser size

/-- `Unserialize` of a `uint256`: its 32 bytes. -/
def readUint256 : Reader Uint256 := do
  let bs ← DataStream.read 32
  pure (Vector.ofFn fun i => bs.getD i.val 0)

/-- `CBlockHeader`'s `SERIALIZE_METHODS` when reading: the six fields in order. -/
def CBlockHeader.Unserialize : Reader CBlockHeader := do
  let nVersion ← ser_readdata 4
  let hashPrevBlock ← readUint256
  let hashMerkleRoot ← readUint256
  let nTime ← ser_readdata 4
  let nBits ← ser_readdata 4
  let nNonce ← ser_readdata 4
  pure ⟨(UInt32.ofNat nVersion).toInt32, hashPrevBlock, hashMerkleRoot, UInt32.ofNat nTime,
    UInt32.ofNat nBits, UInt32.ofNat nNonce⟩

/-! ### Round trips -/

theorem Reads.ser_readdata_encodeLE {n x : ℕ} (hx : x < 256 ^ n) : Reads (ser_readdata n) (encodeLE n x) x :=
  (Reads.readLE END_OF_DATA n x).of_eq (Nat.mod_eq_of_lt hx)

theorem Reads.readCanonical_encodeLE {width least x : ℕ} (hl : least ≤ x) (hx : x < 256 ^ width) :
    Reads (readCanonical width least) (encodeLE width x) x := by
  unfold readCanonical
  rw [← List.append_nil (encodeLE width x)]
  refine Reads.bind (Reads.ser_readdata_encodeLE hx) ?_
  rw [if_neg (by omega)]
  exact Reads.pure x

/-- The bytes after the first one of a CompactSize read back as its value. -/
theorem WriteCompactSize_eq {n : ℕ} (hn : n < 2 ^ 64) :
    ∃ chSize bs, WriteCompactSize n = encodeLE 1 chSize ++ bs ∧ chSize < 256 ∧
      Reads (compactPayload chSize) bs n := by
  unfold WriteCompactSize
  split_ifs with h₁ h₂ h₃
  · -- one byte
    refine ⟨n, [], (List.append_nil _).symm, by omega, ?_⟩
    rw [compactPayload, if_pos h₁]
    exact Reads.pure n
  · refine ⟨253, encodeLE 2 n, rfl, by omega, ?_⟩
    rw [compactPayload, if_neg (by omega), if_pos rfl]
    exact Reads.readCanonical_encodeLE (by omega) (by omega)
  · refine ⟨254, encodeLE 4 n, rfl, by omega, ?_⟩
    rw [compactPayload, if_neg (by omega), if_neg (by omega), if_pos rfl]
    exact Reads.readCanonical_encodeLE (by omega) (by omega)
  · refine ⟨255, encodeLE 8 n, rfl, by omega, ?_⟩
    rw [compactPayload, if_neg (by omega), if_neg (by omega), if_neg (by omega)]
    exact Reads.readCanonical_encodeLE (by omega) (by omega)

/-- **CompactSize round trip.** A 64-bit value reads back, with the range check when it is at
most `MAX_SIZE`. -/
theorem Reads.ReadCompactSize_WriteCompactSize {n : ℕ} {range_check : Bool} (hn : n < 2 ^ 64)
    (hmax : range_check = true → n ≤ MAX_SIZE) :
    Reads (ReadCompactSize range_check) (WriteCompactSize n) n := by
  obtain ⟨chSize, bs, hw, hch, hp⟩ := WriteCompactSize_eq hn
  have hcheck : ¬(range_check && decide (n > MAX_SIZE)) = true := by
    cases range_check <;> simp_all
  rw [hw, ← List.append_nil bs]
  refine Reads.bind (Reads.ser_readdata_encodeLE hch) (Reads.bind hp ?_)
  rw [if_neg hcheck]
  exact Reads.pure n

/-- The stream writes as many bytes as the `SizeComputer` counts. -/
theorem length_WriteCompactSize (n : ℕ) : (WriteCompactSize n).length = GetSizeOfCompactSize n := by
  unfold WriteCompactSize GetSizeOfCompactSize
  split_ifs <;> simp

/-! ### Canonical encodings -/

theorem readCanonical_run_eq_ok {width least n : ℕ} {bs rest : List UInt8}
    (h : (readCanonical width least).run bs = .ok (n, rest)) :
    least ≤ n ∧ ∃ p, p.length = width ∧ bs = p ++ rest ∧ decodeLE p = n := by
  obtain ⟨m, mid, h₁, h₂⟩ := run_bind_eq_ok h
  obtain ⟨p, hlen, hbs, hp⟩ := readLE_run_eq_ok h₁
  by_cases hm : m < least
  · rw [if_pos hm] at h₂
    cases h₂
  · rw [if_neg hm] at h₂
    cases h₂
    exact ⟨by omega, p, hlen, hbs, hp⟩

/-- What follows a first byte `b` that `compactPayload` accepts is, with `b`, the encoding of
the value read. -/
theorem compactPayload_canonical {b : UInt8} {bs rest : List UInt8} {n : ℕ}
    (h : (compactPayload b.toNat).run bs = .ok (n, rest)) : b :: bs = WriteCompactSize n ++ rest := by
  have hb := b.toNat_lt
  -- the first byte is the encoding of its own value
  have hbyte : ∀ v : ℕ, b.toNat = v → [b] = encodeLE 1 v := fun v hv => by
    rw [← hv, ← encodeLE_decodeLE [b]]
    simp
  -- a long form: the marker, then the payload, which is the encoding of its value
  have hlong : ∀ {width least : ℕ}, (readCanonical width least).run bs = .ok (n, rest) →
      bs = encodeLE width n ++ rest ∧ least ≤ n ∧ n < 256 ^ width := by
    intro width least hr
    obtain ⟨hl, p, hlen, hbs, hp⟩ := readCanonical_run_eq_ok hr
    have hlt := decodeLE_lt p
    rw [← hp, ← hlen, encodeLE_decodeLE]
    exact ⟨hbs, hp ▸ hl, hlen ▸ hlt⟩
  unfold compactPayload at h
  unfold WriteCompactSize
  split_ifs at h with h₁ h₂ h₃
  · -- one byte
    cases h
    rw [if_pos h₁, ← hbyte _ rfl, List.singleton_append]
  · obtain ⟨hbs, hl, hlt⟩ := hlong h
    have hmarker : b = 253 := UInt8.toNat_inj.mp h₂
    rw [if_neg (by omega), if_pos (by omega), hbs, hmarker, List.cons_append]
  · obtain ⟨hbs, hl, hlt⟩ := hlong h
    have hmarker : b = 254 := UInt8.toNat_inj.mp h₃
    rw [if_neg (by omega), if_neg (by omega), if_pos (by omega), hbs, hmarker, List.cons_append]
  · obtain ⟨hbs, hl, hlt⟩ := hlong h
    have hmarker : b = 255 := UInt8.toNat_inj.mp (by simp; omega)
    rw [if_neg (by omega), if_neg (by omega), if_neg (by omega), hbs, hmarker, List.cons_append]

/-- **CompactSize is canonical.** Every successful `ReadCompactSize` consumed exactly the
encoding of the value it returned. -/
theorem ReadCompactSize_canonical {range_check : Bool} {bs rest : List UInt8} {n : ℕ}
    (h : (ReadCompactSize range_check).run bs = .ok (n, rest)) : bs = WriteCompactSize n ++ rest := by
  obtain ⟨ch, mid, h₁, h₂⟩ := run_bind_eq_ok h
  obtain ⟨m, mid', h₃, h₄⟩ := run_bind_eq_ok h₂
  obtain ⟨p, hlen, hbs, hp⟩ := readLE_run_eq_ok h₁
  obtain ⟨b, rfl⟩ : ∃ b, p = [b] := List.length_eq_one_iff.mp hlen
  have hch : ch = b.toNat := by rw [← hp]; simp
  subst hch
  -- the range check either throws or passes the value on
  have hm : m = n ∧ mid' = rest := by
    by_cases hc : (range_check && decide (m > MAX_SIZE)) = true
    · rw [if_pos hc] at h₄
      cases h₄
    · rw [if_neg hc] at h₄
      cases h₄
      exact ⟨rfl, rfl⟩
  obtain ⟨rfl, rfl⟩ := hm
  rw [hbs, List.singleton_append]
  exact compactPayload_canonical h₃

/-- The range check is a test on the value read: with it, `ReadCompactSize` reads what it reads
without it and throws exactly when that is above `MAX_SIZE`. -/
theorem ReadCompactSize_true_run (bs : List UInt8) :
    (ReadCompactSize true).run bs = ((ReadCompactSize false).run bs).bind fun r =>
      if r.1 > MAX_SIZE then .error "ReadCompactSize(): size too large" else .ok r := by
  simp only [ReadCompactSize, StateT.run_bind]
  cases (ser_readdata 1).run bs with
  | error e => rfl
  | ok p =>
    simp only [Except.ok_bind]
    cases (compactPayload p.1).run p.2 with
    | error e => rfl
    | ok q =>
      simp only [Except.ok_bind, Bool.true_and, Bool.false_and]
      by_cases hq : q.1 > MAX_SIZE
      · simp [Except.bind, hq]
      · simp [Except.bind, hq]

/-- **CompactSize.** For every 64-bit `n` the stream writes the `GetSizeOfCompactSize` bytes
that the `SizeComputer` counts, and `ReadCompactSize` without the range check reads `n` back;
every successful read consumed exactly the encoding of its value; and the range check reads the
same and throws exactly when that value is above `MAX_SIZE`. -/
theorem compactSize_roundTrip_canonical :
    (∀ n : UInt64, (WriteCompactSize n.toNat).length = GetSizeOfCompactSize n.toNat ∧
      Reads (ReadCompactSize false) (WriteCompactSize n.toNat) n.toNat) ∧
    (∀ (bs rest : List UInt8) (n : ℕ), (ReadCompactSize false).run bs = .ok (n, rest) →
      bs = WriteCompactSize n ++ rest) ∧
    (∀ bs : List UInt8, (ReadCompactSize true).run bs = ((ReadCompactSize false).run bs).bind
      fun r => if r.1 > MAX_SIZE then .error "ReadCompactSize(): size too large" else .ok r) :=
  ⟨fun n => ⟨length_WriteCompactSize _, Reads.ReadCompactSize_WriteCompactSize n.toNat_lt nofun⟩,
    fun _ _ _ h => ReadCompactSize_canonical h, ReadCompactSize_true_run⟩

theorem compactSize_roundTrip_canonical_fd :
    [253, 253, 0, 7] = WriteCompactSize 253 ++ [7] :=
  compactSize_roundTrip_canonical.2.1 [253, 253, 0, 7] [7] 253 (by decide)

/-- A vector whose elements read back reads back, when its length is at most `MAX_SIZE`. -/
theorem Reads.VectorFormatter_Unser {α : Type} {unser : Reader α} {w : α → List UInt8} {v : List α}
    (hlen : v.length ≤ MAX_SIZE) (h : ∀ a ∈ v, Reads unser (w a) a) :
    Reads (VectorFormatter.Unser unser) (WriteCompactSize v.length ++ v.flatMap w) v :=
  Reads.bind (Reads.ReadCompactSize_WriteCompactSize (by unfold MAX_SIZE at hlen; omega) fun _ => hlen)
    (Reads.readMany h)

theorem Reads.readUint256_toList (a : Uint256) : Reads readUint256 a.toList a := by
  have h := Reads.bind_pure (fun bs => Vector.ofFn fun i : Fin 32 => bs.getD i.val 0)
    (Reads.readBytes END_OF_DATA a.toList)
  rw [Vector.length_toList] at h
  refine h.of_eq (Vector.ext fun i hi => ?_)
  simp [List.getD_eq_getElem?_getD]

/-- `WriteLE32` is the four-byte little-endian encoding. -/
theorem writeLE32_eq_encodeLE (x : UInt32) : writeLE32 x = encodeLE 4 x.toNat := by
  -- byte `k` of the word is its value divided by `256 ^ k`, modulo 256
  have hbyte : ∀ (s : UInt32) (k : ℕ), s.toNat = 8 * k → k < 4 →
      (x >>> s).toUInt8 = UInt8.ofNat (x.toNat / 256 ^ k) := by
    intro s k hs hk
    apply UInt8.toNat_inj.mp
    rw [UInt32.toNat_toUInt8, UInt32.toNat_shiftRight, UInt8.toNat_ofNat', hs,
      Nat.mod_eq_of_lt (show 8 * k < 32 by omega), Nat.shiftRight_eq_div_pow, pow_mul]
    norm_num
  have h₀ : x.toUInt8 = UInt8.ofNat x.toNat := by
    apply UInt8.toNat_inj.mp
    rw [UInt32.toNat_toUInt8, UInt8.toNat_ofNat']
  show [x.toUInt8, (x >>> 8).toUInt8, (x >>> 16).toUInt8, (x >>> 24).toUInt8] =
    [UInt8.ofNat x.toNat, UInt8.ofNat (x.toNat / 256), UInt8.ofNat (x.toNat / 256 / 256),
      UInt8.ofNat (x.toNat / 256 / 256 / 256)]
  rw [h₀, hbyte 8 1 rfl (by omega), hbyte 16 2 rfl (by omega), hbyte 24 3 rfl (by omega)]
  simp only [Nat.div_div_eq_div_mul]
  norm_num

theorem Reads.ser_readdata_writeLE32 (x : UInt32) : Reads (ser_readdata 4) (writeLE32 x) x.toNat := by
  rw [writeLE32_eq_encodeLE]
  exact @Reads.ser_readdata_encodeLE 4 x.toNat (by have := x.toNat_lt; omega)

/-- **Header round trip.** A serialized block header reads back. -/
theorem Reads.CBlockHeader_Unserialize (h : CBlockHeader) :
    Reads CBlockHeader.Unserialize h.serialize h := by
  simp only [CBlockHeader.serialize, List.append_assoc]
  unfold CBlockHeader.Unserialize
  refine Reads.bind (Reads.ser_readdata_writeLE32 _) ?_
  refine Reads.bind (Reads.readUint256_toList _) ?_
  refine Reads.bind (Reads.readUint256_toList _) ?_
  refine Reads.bind (Reads.ser_readdata_writeLE32 _) ?_
  refine Reads.bind (Reads.ser_readdata_writeLE32 _) ?_
  refine (Reads.bind_pure _ (Reads.ser_readdata_writeLE32 _)).of_eq ?_
  simp [UInt32.ofNat_toNat, Int32.toInt32_toUInt32]

end Tenscoin
