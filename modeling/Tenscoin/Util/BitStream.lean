import Mathlib
import Tenscoin.Lib.BitList

/-!
# Bit streams over bytes

`BitStreamWriter` and `BitStreamReader` (streams.h) pack bits into bytes and unpack them, most
significant bit first. Each keeps one byte in `m_buffer` and, in `m_offset`, how many of its high
bits are used: the writer sends a byte to its stream once all eight are written, the reader takes
a new one from its stream once all eight are read.

Each is read as the list of bits it stands for (`BitList`):

* a writer, as the bits of the bytes it has sent, then the `m_offset` bits in its buffer
  (`BitStreamWriter.bits`); its buffer holds nothing below them (`BitStreamWriter.Clean`);
* a reader, as the bits of its buffer not yet read, then those of the bytes left in its stream
  (`BitStreamReader.bits`).

`writeLoop_spec` and `Flush_spec` say what a write and a flush add to a writer's bits;
`readLoop_spec` and `readLoop_error` say that a read returns the next bits of a reader, or fails
at the end of the stream, and `Read_sound` what a read that succeeded returned. Both loops take their bits in pieces that end at byte boundaries; the
step lemmas (`toNat_writeChunk`, `toNat_readChunk`) read one piece as a number.
-/

namespace Tenscoin

open BitList

/-- The failure of `SpanReader::read` at the end of its data. -/
def SpanReader.END_OF_DATA : String := "SpanReader::read(): end of data"

/-- The failure of `Read` and `Write` asked for more than 64 bits. -/
def NBITS_OUT_OF_RANGE : String := "nbits must be between 0 and 64"

-- The offsets a new writer and a new reader start at, and the one after a fetch, named so that
-- the structures' defaults and `fetch` use them as they are.
theorem offset_zero_lt_eight : (0 : ℕ) < 8 := Nat.zero_lt_succ 7

theorem offset_zero_le_eight : (0 : ℕ) ≤ 8 := Nat.zero_le 8

theorem offset_eight_le_eight : (8 : ℕ) ≤ 8 := Nat.le_refl 8

/-- `BitStreamWriter`: the bytes its stream holds, the byte being filled and how many of its high
bits are written. A full byte goes out at once, so fewer than eight are. -/
structure BitStreamWriter where
  m_ostream : List UInt8
  m_buffer : UInt8 := 0
  m_offset : ℕ := 0
  offset_lt : m_offset < 8 := by exact offset_zero_lt_eight

/-- `BitStreamReader`: the bytes left in its stream, the byte being read and how many of its high
bits are read. It starts with none buffered, as if all eight were read. -/
structure BitStreamReader where
  m_istream : List UInt8
  m_buffer : UInt8 := 0
  m_offset : ℕ := 8
  offset_le : m_offset ≤ 8 := by exact offset_eight_le_eight

namespace BitStreamWriter

/-- One pass of the loop of `Write`: as many of the next bits as fit go into the buffer below
those written, and a full buffer goes out (`Flush`). -/
def writeStep (data : UInt64) (nbits : ℕ) (w : BitStreamWriter) : BitStreamWriter :=
  let bits := min (8 - w.m_offset) nbits
  let m_buffer := w.m_buffer |||
    ((data <<< (64 - nbits).toUInt64) >>> (64 - 8 + w.m_offset).toUInt64).toUInt8
  if h8 : w.m_offset + bits = 8 then
    -- `Flush`: the byte goes to the stream and the writer starts a new one
    { m_ostream := w.m_ostream ++ [m_buffer] }
  else
    { m_ostream := w.m_ostream, m_buffer, m_offset := w.m_offset + bits,
      offset_lt := by have := w.offset_lt; omega }

/-- The loop of `Write`, while bits are left. -/
def writeLoop (data : UInt64) (nbits : ℕ) (w : BitStreamWriter) : BitStreamWriter :=
  if 0 < nbits then writeLoop data (nbits - min (8 - w.m_offset) nbits) (writeStep data nbits w)
  else w
termination_by nbits
decreasing_by have := w.offset_lt; omega

/-- `Write`: the low `nbits` bits of `data`, most significant first. -/
def Write (w : BitStreamWriter) (data : UInt64) (nbits : ℕ) : Except String BitStreamWriter :=
  if nbits > 64 then throw NBITS_OUT_OF_RANGE else pure (writeLoop data nbits w)

/-- `Flush`: a byte partly written goes to the stream, its low bits zero. -/
def Flush (w : BitStreamWriter) : BitStreamWriter :=
  if w.m_offset = 0 then w else { m_ostream := w.m_ostream ++ [w.m_buffer] }

/-- The bits written: those of the bytes sent, then the high `m_offset` bits of the buffer. -/
def bits (w : BitStreamWriter) : List Bool :=
  bytesBits w.m_ostream ++ bitsOf w.m_offset (w.m_buffer.toNat / 2 ^ (8 - w.m_offset))

/-- The buffer holds nothing below the bits written. -/
def Clean (w : BitStreamWriter) : Prop :=
  w.m_buffer.toNat % 2 ^ (8 - w.m_offset) = 0

theorem clean_empty (out : List UInt8) : Clean { m_ostream := out } := rfl

@[simp] theorem bits_empty (out : List UInt8) : bits { m_ostream := out } = bytesBits out := by
  simp [bits]

/-! ### One piece of a write -/

/-- The piece `Write` ORs into the buffer: the next `bits` bits of the field, placed just below
the `o` bits written. -/
theorem toNat_writeChunk (data : UInt64) {nbits o : ℕ} (hn : 0 < nbits) (h64 : nbits ≤ 64)
    (ho : o < 8) :
    ((data <<< (64 - nbits).toUInt64) >>> (64 - 8 + o).toUInt64).toUInt8.toNat =
      data.toNat / 2 ^ (nbits - min (8 - o) nbits) % 2 ^ min (8 - o) nbits *
        2 ^ (8 - o - min (8 - o) nbits) := by
  have hs : (64 - nbits).toUInt64.toNat % 64 = 64 - nbits := by
    rw [Nat.toUInt64_eq, UInt64.toNat_ofNat', Nat.mod_eq_of_lt (by omega), Nat.mod_eq_of_lt (by omega)]
  have hr : (64 - 8 + o).toUInt64.toNat % 64 = 56 + o := by
    rw [Nat.toUInt64_eq, UInt64.toNat_ofNat', Nat.mod_eq_of_lt (by omega), Nat.mod_eq_of_lt (by omega)]
  -- shifted up, the field keeps its low `nbits` bits at the top of the word
  have hup : data.toNat * 2 ^ (64 - nbits) % 2 ^ 64 = data.toNat % 2 ^ nbits * 2 ^ (64 - nbits) := by
    rw [← Nat.mul_mod_mul_right, ← Nat.pow_add, Nat.add_sub_cancel' h64]
  rw [UInt64.toNat_toUInt8, UInt64.toNat_shiftRight, UInt64.toNat_shiftLeft, hs, hr,
    Nat.shiftLeft_eq, hup, Nat.shiftRight_eq_div_pow]
  have hx := Nat.mod_lt data.toNat (Nat.two_pow_pos nbits)
  rcases Nat.le_total nbits (8 - o) with hle | hle
  · -- the whole field fits below the bits written
    have hsplit : 64 - nbits = (56 + o) + (8 - o - nbits) := by omega
    have hlt : data.toNat % 2 ^ nbits * 2 ^ (8 - o - nbits) < 2 ^ 8 :=
      calc data.toNat % 2 ^ nbits * 2 ^ (8 - o - nbits)
          < 2 ^ nbits * 2 ^ (8 - o - nbits) := Nat.mul_lt_mul_of_pos_right hx (Nat.two_pow_pos _)
        _ = 2 ^ (8 - o) := by rw [← Nat.pow_add]; congr 1; omega
        _ ≤ 2 ^ 8 := Nat.pow_le_pow_right (by decide) (by omega)
    rw [Nat.min_eq_right hle, Nat.sub_self, Nat.pow_zero, Nat.div_one, hsplit, Nat.pow_add,
      ← Nat.mul_assoc,
      Nat.mul_right_comm, Nat.mul_div_cancel _ (Nat.two_pow_pos _), Nat.mod_eq_of_lt hlt]
  · -- only the high `8 - o` bits of the field fit
    have hsplit : 56 + o = (nbits - (8 - o)) + (64 - nbits) := by omega
    have hwidth : 2 ^ nbits = 2 ^ (nbits - (8 - o)) * 2 ^ (8 - o) := by
      rw [← Nat.pow_add]; congr 1; omega
    have hlt : data.toNat / 2 ^ (nbits - (8 - o)) % 2 ^ (8 - o) < 2 ^ 8 :=
      Nat.lt_of_lt_of_le (Nat.mod_lt _ (Nat.two_pow_pos _)) (Nat.pow_le_pow_right (by decide) (by omega))
    rw [Nat.min_eq_left hle, Nat.sub_self, Nat.pow_zero, Nat.mul_one, hsplit, Nat.pow_add,
      Nat.mul_div_mul_right _ _ (Nat.two_pow_pos _), hwidth, Nat.mod_mul_right_div_self,
      Nat.mod_eq_of_lt hlt]

/-- ORing `t`, of `b` bits, just below the `o` bits `p` at the top of a byte appends `t` to `p`. -/
theorem or_fill {p t o b : ℕ} (hob : o + b ≤ 8) (ht : t < 2 ^ b) :
    p * 2 ^ (8 - o) ||| t * 2 ^ (8 - o - b) = (p * 2 ^ b + t) * 2 ^ (8 - o - b) := by
  obtain ⟨k, hk⟩ : ∃ k, 8 - o - b = k := ⟨_, rfl⟩
  have h8 : 8 - o = b + k := by omega
  rw [hk, h8, Nat.pow_add, ← Nat.mul_assoc, Nat.mul_comm p (2 ^ b), Nat.two_pow_add_eq_or_of_lt ht,
    ← Nat.shiftLeft_eq (2 ^ b * p ||| t), Nat.shiftLeft_or_distrib, Nat.shiftLeft_eq, Nat.shiftLeft_eq]

/-- The buffer after one piece of a write: the bits written, then the piece, then zeros. -/
theorem toNat_fill {w : BitStreamWriter} (hw : w.Clean) (data : UInt64) {nbits : ℕ}
    (hn : 0 < nbits) (h64 : nbits ≤ 64) :
    (w.m_buffer ||| ((data <<< (64 - nbits).toUInt64) >>> (64 - 8 + w.m_offset).toUInt64).toUInt8).toNat =
      (w.m_buffer.toNat / 2 ^ (8 - w.m_offset) * 2 ^ min (8 - w.m_offset) nbits +
        data.toNat / 2 ^ (nbits - min (8 - w.m_offset) nbits) % 2 ^ min (8 - w.m_offset) nbits) *
        2 ^ (8 - w.m_offset - min (8 - w.m_offset) nbits) := by
  have hbuf : w.m_buffer.toNat = w.m_buffer.toNat / 2 ^ (8 - w.m_offset) * 2 ^ (8 - w.m_offset) :=
    (Nat.div_mul_cancel (Nat.dvd_of_mod_eq_zero hw)).symm
  have hlt := w.offset_lt
  rw [UInt8.toNat_or, toNat_writeChunk data hn h64 hlt, hbuf, Nat.mul_div_cancel _ (Nat.two_pow_pos _)]
  exact or_fill (by omega) (Nat.mod_lt _ (Nat.two_pow_pos _))

/-- The bits of a byte filled to `n = o + b` bits: the `o` before, then the `b` of the piece. -/
theorem bitsOf_fill (p d : ℕ) {o b n : ℕ} (h : o + b = n) :
    bitsOf n (p * 2 ^ b + d % 2 ^ b) = bitsOf o p ++ bitsOf b d := by
  rw [← h, Nat.mul_comm, bitsOf_two_pow_mul_add o (Nat.mod_lt _ (Nat.two_pow_pos _)), bitsOf_mod]

/-- **One pass of a write.** On a clean writer, the next `min (8 - m_offset) nbits` bits of the
field join the bits written, and the writer stays clean. -/
theorem writeStep_spec {w : BitStreamWriter} (hw : w.Clean) (data : UInt64) {nbits : ℕ}
    (hn : 0 < nbits) (h64 : nbits ≤ 64) :
    (writeStep data nbits w).Clean ∧
      (writeStep data nbits w).bits = w.bits ++
        bitsOf (min (8 - w.m_offset) nbits) (data.toNat / 2 ^ (nbits - min (8 - w.m_offset) nbits)) ∧
      w.m_ostream <+: (writeStep data nbits w).m_ostream := by
  have hfill := toNat_fill hw data hn h64
  have hlt := w.offset_lt
  rw [writeStep]
  split
  · -- the byte is full and goes out
    rename_i h8
    refine ⟨clean_empty _, ?_, List.prefix_append _ _⟩
    rw [bits_empty, bytesBits_append, bytesBits_cons, bytesBits_nil, List.append_nil, hfill,
      show 8 - w.m_offset - min (8 - w.m_offset) nbits = 0 by omega, Nat.pow_zero, Nat.mul_one,
      bitsOf_fill _ _ h8, bits, List.append_assoc]
  · -- the piece goes into the buffer, below the bits written
    rename_i h8
    have hk : 8 - (w.m_offset + min (8 - w.m_offset) nbits) = 8 - w.m_offset - min (8 - w.m_offset) nbits := by
      omega
    refine ⟨?_, ?_, List.prefix_refl _⟩
    · show (_ : UInt8).toNat % 2 ^ (8 - (w.m_offset + min (8 - w.m_offset) nbits)) = 0
      rw [hfill, hk, Nat.mul_mod_left]
    · show bytesBits w.m_ostream ++ bitsOf _ ((_ : UInt8).toNat / 2 ^ _) = _
      rw [hfill, hk, Nat.mul_div_cancel _ (Nat.two_pow_pos _), bitsOf_fill _ _ rfl, bits,
        List.append_assoc]

/-- **A write appends the field's bits.** On a clean writer, writing the low `nbits` bits of
`data` keeps it clean, appends those bits to its bits, and only adds bytes to its stream. -/
theorem writeLoop_spec (data : UInt64) :
    ∀ (nbits : ℕ) (w : BitStreamWriter), nbits ≤ 64 → w.Clean →
      (writeLoop data nbits w).Clean ∧
      (writeLoop data nbits w).bits = w.bits ++ bitsOf nbits data.toNat ∧
      w.m_ostream <+: (writeLoop data nbits w).m_ostream := by
  intro nbits
  induction nbits using Nat.strong_induction_on with
  | _ nbits ih =>
  intro w h64 hw
  rw [writeLoop]
  by_cases hn : 0 < nbits
  · -- one pass, then the rest of the field by induction
    rw [if_pos hn]
    have hlt := w.offset_lt
    obtain ⟨hc₁, hbits₁, hpre₁⟩ := writeStep_spec hw data hn h64
    obtain ⟨hc, hbits, hpre⟩ :=
      ih (nbits - min (8 - w.m_offset) nbits) (by omega) (writeStep data nbits w) (by omega) hc₁
    refine ⟨hc, ?_, hpre₁.trans hpre⟩
    rw [hbits, hbits₁, List.append_assoc, ← bitsOf_add, Nat.add_sub_cancel' (by omega)]
  · rw [if_neg hn]
    obtain rfl : nbits = 0 := by omega
    exact ⟨hw, by rw [bitsOf_zero, List.append_nil], List.prefix_refl _⟩

/-- `Write` of at most 64 bits appends them. -/
theorem Write_spec {w : BitStreamWriter} (hw : w.Clean) (data : UInt64) {nbits : ℕ}
    (h64 : nbits ≤ 64) :
    ∃ w', w.Write data nbits = .ok w' ∧ w'.Clean ∧ w'.bits = w.bits ++ bitsOf nbits data.toNat ∧
      w.m_ostream <+: w'.m_ostream := by
  refine ⟨_, ?_, writeLoop_spec data nbits w h64 hw⟩
  rw [Write, if_neg (by omega)]
  rfl

/-- **Flushing pads the last byte with zeros.** The stream of a flushed writer holds its bits,
then as many zeros as fill the last byte. -/
theorem Flush_spec {w : BitStreamWriter} (hw : w.Clean) :
    bytesBits (Flush w).m_ostream = w.bits ++ List.replicate ((8 - w.m_offset) % 8) false ∧
      (Flush w).m_offset = 0 ∧ w.m_ostream <+: (Flush w).m_ostream := by
  have hlt := w.offset_lt
  by_cases ho : w.m_offset = 0
  · rw [Flush, if_pos ho]
    refine ⟨?_, ho, List.prefix_refl _⟩
    rw [bits, ho, bitsOf_zero, Nat.sub_zero, Nat.mod_self, List.replicate_zero, List.append_nil,
      List.append_nil]
  · rw [Flush, if_neg ho]
    refine ⟨?_, rfl, List.prefix_append _ _⟩
    -- the buffer is its `m_offset` bits, then zeros
    have hbyte : bitsOf 8 w.m_buffer.toNat = bitsOf w.m_offset (w.m_buffer.toNat / 2 ^ (8 - w.m_offset)) ++
        List.replicate (8 - w.m_offset) false := by
      have h := bitsOf_add w.m_offset (8 - w.m_offset) w.m_buffer.toNat
      rw [Nat.add_sub_cancel' hlt.le] at h
      rw [h, ← bitsOf_mod (8 - w.m_offset), hw, bitsOf_zero_right]
    rw [bytesBits_append, bytesBits_cons, bytesBits_nil, List.append_nil, hbyte, bits,
      List.append_assoc, Nat.mod_eq_of_lt (show 8 - w.m_offset < 8 by omega)]

end BitStreamWriter

namespace BitStreamReader

theorem offset_lt_of_ne {r : BitStreamReader} (h : ¬ r.m_offset = 8) : r.m_offset < 8 := by
  have := r.offset_le
  omega

/-- `m_istream >> m_buffer` once the buffer is used up: the next byte of the stream, or the end
of its data. The reader returned has a bit left in its buffer. -/
def fetch (r : BitStreamReader) : Except String {r : BitStreamReader // r.m_offset < 8} :=
  if h : r.m_offset = 8 then
    match r.m_istream with
    | [] => throw SpanReader.END_OF_DATA
    | b :: rest =>
      pure ⟨{ m_istream := rest, m_buffer := b, m_offset := 0, offset_le := offset_zero_le_eight },
        offset_zero_lt_eight⟩
  else pure ⟨r, offset_lt_of_ne h⟩

/-- One pass of the loop of `Read`: as many of the next bits as are wanted and left in the buffer
go into `data`, below those read before. -/
def readStep (nbits : ℕ) (data : UInt64) (r : BitStreamReader) : UInt64 × BitStreamReader :=
  let bits := min (8 - r.m_offset) nbits
  ((data <<< bits.toUInt64) ||| ((r.m_buffer <<< r.m_offset.toUInt8) >>> (8 - bits).toUInt8).toUInt64,
    { r with m_offset := r.m_offset + bits, offset_le := by have := r.offset_le; omega })

/-- The loop of `Read`, while bits are wanted. -/
def readLoop (nbits : ℕ) (data : UInt64) (r : BitStreamReader) :
    Except String (UInt64 × BitStreamReader) :=
  if 0 < nbits then
    match fetch r with
    | .error e => .error e
    | .ok ⟨r, _hr⟩ =>
      -- `_hr`, a bit left in the buffer, is what makes each pass read one
      let next := readStep nbits data r
      readLoop (nbits - min (8 - r.m_offset) nbits) next.1 next.2
  else .ok (data, r)
termination_by nbits
decreasing_by omega

/-- `Read`: the next `nbits` bits, as the low bits of a number. -/
def Read (r : BitStreamReader) (nbits : ℕ) : Except String (UInt64 × BitStreamReader) :=
  if nbits > 64 then throw NBITS_OUT_OF_RANGE else readLoop nbits 0 r

/-- The bits not yet read: the low `8 - m_offset` bits of the buffer, then those of the bytes left
in the stream. -/
def bits (r : BitStreamReader) : List Bool :=
  bitsOf (8 - r.m_offset) r.m_buffer.toNat ++ bytesBits r.m_istream

theorem length_bits (r : BitStreamReader) : r.bits.length = 8 - r.m_offset + 8 * r.m_istream.length := by
  rw [bits, List.length_append, length_bitsOf, length_bytesBits]

@[simp] theorem bits_ofStream (bs : List UInt8) : bits { m_istream := bs } = bytesBits bs := by
  simp [bits]

/-- Fewer than eight bits left are all in the buffer: the stream is used up. -/
theorem istream_eq_nil_of_length_bits_lt {r : BitStreamReader} (h : r.bits.length < 8) :
    r.m_istream = [] := by
  rw [length_bits] at h
  exact List.eq_nil_of_length_eq_zero (by omega)

/-- A reader whose stream is used up, below the top of its buffer, has fewer than eight bits
left. -/
theorem length_bits_lt_of_istream_eq_nil {r : BitStreamReader} (h : r.m_istream = [])
    (hpos : 0 < r.m_offset) : r.bits.length < 8 := by
  rw [length_bits, h, List.length_nil]
  omega

/-! ### Reads -/

/-- A reader with bits left fetches a byte to read from, and still stands for the same bits. -/
theorem fetch_ok {r : BitStreamReader} (h : r.bits ≠ []) :
    ∃ r₁ : {r : BitStreamReader // r.m_offset < 8}, fetch r = .ok r₁ ∧ r₁.1.bits = r.bits := by
  by_cases ho : r.m_offset = 8
  · cases hs : r.m_istream with
    | nil => exact absurd (by rw [bits, ho, hs]; rfl) h
    | cons b rest =>
      refine ⟨⟨{ m_istream := rest, m_buffer := b, m_offset := 0, offset_le := offset_zero_le_eight },
        offset_zero_lt_eight⟩, ?_, ?_⟩
      · rw [fetch, dif_pos ho]
        simp only [hs]
        rfl
      · rw [bits, bits, ho, hs, bytesBits_cons, Nat.sub_self, bitsOf_zero, List.nil_append]
        rfl
  · exact ⟨⟨r, by have := r.offset_le; omega⟩, by rw [fetch, dif_neg ho]; rfl, rfl⟩

/-- A reader with no bits left fails at the end of its stream's data. -/
theorem fetch_error {r : BitStreamReader} (h : r.bits = []) : fetch r = .error SpanReader.END_OF_DATA := by
  have hlen := length_bits r
  rw [h, List.length_nil] at hlen
  have ho : r.m_offset = 8 := by have := r.offset_le; omega
  have hs : r.m_istream = [] := List.length_eq_zero_iff.1 (by omega)
  rw [fetch, dif_pos ho]
  simp only [hs]
  rfl

/-- The piece `Read` takes from the buffer: the `b` bits after the `o` read. -/
theorem toNat_readChunk (B : UInt8) {o b : ℕ} (ho : o < 8) (hb : 0 < b) (hob : b ≤ 8 - o) :
    ((B <<< o.toUInt8) >>> (8 - b).toUInt8).toNat = B.toNat / 2 ^ (8 - o - b) % 2 ^ b := by
  have hs : o.toUInt8.toNat % 8 = o := by
    rw [Nat.toUInt8_eq, UInt8.toNat_ofNat', Nat.mod_eq_of_lt (show o < 2 ^ 8 by omega),
      Nat.mod_eq_of_lt ho]
  have hr : (8 - b).toUInt8.toNat % 8 = 8 - b := by
    rw [Nat.toUInt8_eq, UInt8.toNat_ofNat', Nat.mod_eq_of_lt (show 8 - b < 2 ^ 8 by omega),
      Nat.mod_eq_of_lt (show 8 - b < 8 by omega)]
  have h8 : (2 : ℕ) ^ 8 = 2 ^ (8 - o) * 2 ^ o := by rw [← Nat.pow_add]; congr 1; omega
  have hshift : 8 - b = (8 - o - b) + o := by omega
  have hbyte : (2 : ℕ) ^ (8 - o) = 2 ^ (8 - o - b) * 2 ^ b := by rw [← Nat.pow_add]; congr 1; omega
  -- shifted up, the unread bits are the top of the byte; shifted down, the wanted ones are left
  rw [UInt8.toNat_shiftRight, UInt8.toNat_shiftLeft, hs, hr, Nat.shiftLeft_eq, Nat.shiftRight_eq_div_pow,
    h8, Nat.mul_mod_mul_right, hshift, Nat.pow_add, Nat.mul_div_mul_right _ _ (Nat.two_pow_pos _), hbyte,
    Nat.mod_mul_right_div_self]

/-- Shifting `data` up by `b` bits and ORing in `c` of `b` bits appends `c`. -/
theorem shiftLeft_or_eq (data c : UInt64) {b : ℕ} (hb : b < 64) (hc : c.toNat < 2 ^ b) :
    (data <<< b.toUInt64) ||| c = UInt64.ofNat (data.toNat * 2 ^ b + c.toNat) := by
  have hs : b.toUInt64.toNat % 64 = b := by
    rw [Nat.toUInt64_eq, UInt64.toNat_ofNat', Nat.mod_eq_of_lt (show b < 2 ^ 64 by omega),
      Nat.mod_eq_of_lt hb]
  have h64 : (2 : ℕ) ^ 64 = 2 ^ (64 - b) * 2 ^ b := by rw [← Nat.pow_add]; congr 1; omega
  -- the word keeps the low `64 - b` bits of `data`, shifted up, with room for `c` below
  have hlow : data.toNat * 2 ^ b % 2 ^ 64 = 2 ^ b * (data.toNat % 2 ^ (64 - b)) := by
    rw [h64, Nat.mul_mod_mul_right, Nat.mul_comm]
  have hroom : 2 ^ b * (data.toNat % 2 ^ (64 - b)) + c.toNat < 2 ^ 64 := by
    have hm := Nat.mod_lt data.toNat (Nat.two_pow_pos (64 - b))
    calc 2 ^ b * (data.toNat % 2 ^ (64 - b)) + c.toNat
        < 2 ^ b * (data.toNat % 2 ^ (64 - b)) + 2 ^ b := by omega
      _ = 2 ^ b * (data.toNat % 2 ^ (64 - b) + 1) := by ring
      _ ≤ 2 ^ b * 2 ^ (64 - b) := Nat.mul_le_mul_left _ hm
      _ = 2 ^ 64 := by rw [h64, Nat.mul_comm]
  apply UInt64.toNat_inj.1
  rw [UInt64.toNat_or, UInt64.toNat_shiftLeft, hs, Nat.shiftLeft_eq, hlow,
    ← Nat.two_pow_add_eq_or_of_lt hc, UInt64.toNat_ofNat', Nat.add_mod, hlow,
    Nat.mod_eq_of_lt c.toNat_lt, Nat.mod_eq_of_lt hroom]

/-- **One pass of a read.** From a byte with bits left, the next `min (8 - m_offset) nbits` bits go
into `data`, and the reader stands for the bits after them. -/
theorem readStep_spec {r : BitStreamReader} (hr : r.m_offset < 8) (data : UInt64) {nbits : ℕ}
    (hn : 0 < nbits) :
    (readStep nbits data r).1 = UInt64.ofNat (data.toNat * 2 ^ min (8 - r.m_offset) nbits +
        ofBits (r.bits.take (min (8 - r.m_offset) nbits))) ∧
      (readStep nbits data r).2.bits = r.bits.drop (min (8 - r.m_offset) nbits) := by
  -- the piece is `b` bits of the buffer, with `k` unread bits after it
  obtain ⟨b, hb⟩ : ∃ b, min (8 - r.m_offset) nbits = b := ⟨_, rfl⟩
  obtain ⟨k, hk⟩ : ∃ k, 8 - r.m_offset - b = k := ⟨_, rfl⟩
  have hbyte : 8 - r.m_offset = b + k := by omega
  have htake : r.bits.take b = bitsOf b (r.m_buffer.toNat / 2 ^ k) := by
    rw [bits, hbyte, List.take_append_of_le_length (by rw [length_bitsOf]; omega), take_bitsOf]
  have hdrop : r.bits.drop b = bitsOf k r.m_buffer.toNat ++ bytesBits r.m_istream := by
    rw [bits, hbyte, List.drop_append_of_le_length (by rw [length_bitsOf]; omega), drop_bitsOf]
  have hchunk : ((r.m_buffer <<< r.m_offset.toUInt8) >>> (8 - b).toUInt8).toNat =
      r.m_buffer.toNat / 2 ^ k % 2 ^ b := by
    rw [toNat_readChunk r.m_buffer hr (show 0 < b by omega) (by omega), hk]
  rw [hb]
  refine ⟨?_, ?_⟩
  · show (data <<< (min (8 - r.m_offset) nbits).toUInt64) |||
      ((r.m_buffer <<< r.m_offset.toUInt8) >>> (8 - min (8 - r.m_offset) nbits).toUInt8).toUInt64 = _
    rw [hb, shiftLeft_or_eq _ _ (by omega) (by rw [UInt8.toNat_toUInt64, hchunk]; exact Nat.mod_lt _ (Nat.two_pow_pos _)),
      UInt8.toNat_toUInt64, hchunk, htake, ofBits_bitsOf]
  · show bitsOf (8 - (r.m_offset + min (8 - r.m_offset) nbits)) r.m_buffer.toNat ++ bytesBits r.m_istream = _
    rw [hb, hdrop, show 8 - (r.m_offset + b) = k by omega]

theorem ofNat_toNat_ofNat_mul_add (x k y : ℕ) :
    UInt64.ofNat ((UInt64.ofNat x).toNat * k + y) = UInt64.ofNat (x * k + y) := by
  apply UInt64.toNat_inj.1
  simp only [UInt64.toNat_ofNat', Nat.add_mod, Nat.mul_mod, Nat.mod_mod]

/-- The first `j + k` bits read as a number: the first `j`, shifted up over the `k` after them. -/
theorem ofBits_take_add (bs : List Bool) {j k : ℕ} (h : j + k ≤ bs.length) :
    ofBits (bs.take (j + k)) = ofBits (bs.take j) * 2 ^ k + ofBits ((bs.drop j).take k) := by
  rw [List.take_add, ofBits_append, List.length_take, List.length_drop, Nat.min_eq_left (by omega)]

/-- **A read returns the next bits.** Reading `nbits` of the bits a reader still has appends them
to `data`, and leaves the reader standing for the bits after them. -/
theorem readLoop_spec :
    ∀ (nbits : ℕ) (data : UInt64) (r : BitStreamReader), nbits ≤ r.bits.length →
      ∃ r', readLoop nbits data r =
          .ok (UInt64.ofNat (data.toNat * 2 ^ nbits + ofBits (r.bits.take nbits)), r') ∧
        r'.bits = r.bits.drop nbits := by
  intro nbits
  induction nbits using Nat.strong_induction_on with
  | _ nbits ih =>
  intro data r hlen
  rw [readLoop]
  by_cases hn : 0 < nbits
  · rw [if_pos hn]
    obtain ⟨⟨r₁, hr₁⟩, hfetch, hbits₁⟩ := fetch_ok (r := r) fun h => by
      rw [h, List.length_nil] at hlen; omega
    dsimp only at hbits₁
    simp only [hfetch]
    -- one pass reads `b` bits, the rest of the loop the `nbits - b` after them
    obtain ⟨hval, hrest⟩ := readStep_spec hr₁ data hn
    obtain ⟨b, hb⟩ : ∃ b, min (8 - r₁.m_offset) nbits = b := ⟨_, rfl⟩
    rw [hb, hbits₁] at hval hrest
    rw [hb]
    have hb8 : b ≤ 8 - r₁.m_offset := by omega
    have hblen : b ≤ r.bits.length := by rw [← hbits₁, length_bits]; omega
    obtain ⟨r', hloop, hbits'⟩ := ih (nbits - b) (by omega) (readStep nbits data r₁).1
      (readStep nbits data r₁).2 (by rw [hrest, List.length_drop]; omega)
    refine ⟨r', ?_, ?_⟩
    · rw [hloop, hval, hrest, ofNat_toNat_ofNat_mul_add,
        show nbits = b + (nbits - b) by omega, ofBits_take_add _ (by omega), Nat.add_sub_cancel_left,
        Nat.pow_add]
      congr 3
      ring
    · rw [hbits', hrest, List.drop_drop, Nat.add_sub_cancel' (by omega)]
  · rw [if_neg hn]
    obtain rfl : nbits = 0 := by omega
    refine ⟨r, ?_, rfl⟩
    rw [List.take_zero, ofBits_nil, Nat.pow_zero, Nat.mul_one, Nat.add_zero, UInt64.ofNat_toNat]

/-- **A read past the end fails.** Asked for more bits than it has, a reader fails at the end of
its stream's data. -/
theorem readLoop_error :
    ∀ (nbits : ℕ) (data : UInt64) (r : BitStreamReader), r.bits.length < nbits →
      readLoop nbits data r = .error SpanReader.END_OF_DATA := by
  intro nbits
  induction nbits using Nat.strong_induction_on with
  | _ nbits ih =>
  intro data r hlen
  rw [readLoop, if_pos (by omega)]
  by_cases hnil : r.bits = []
  · rw [fetch_error hnil]
  · obtain ⟨⟨r₁, hr₁⟩, hfetch, hbits₁⟩ := fetch_ok hnil
    dsimp only at hbits₁
    simp only [hfetch]
    obtain ⟨-, hrest⟩ := readStep_spec hr₁ data (show 0 < nbits by omega)
    have hb8 : min (8 - r₁.m_offset) nbits ≤ r₁.bits.length := by rw [length_bits]; omega
    exact ih _ (by omega) _ _ (by rw [hrest, List.length_drop, hbits₁]; rw [hbits₁] at hb8; omega)

/-- `Read` of at most 64 bits that the reader has: the next bits, as a number. -/
theorem Read_spec {r : BitStreamReader} {nbits : ℕ} (h64 : nbits ≤ 64) (hlen : nbits ≤ r.bits.length) :
    ∃ r', r.Read nbits = .ok (UInt64.ofNat (ofBits (r.bits.take nbits)), r') ∧
      r'.bits = r.bits.drop nbits := by
  obtain ⟨r', h, hbits⟩ := readLoop_spec nbits 0 r hlen
  refine ⟨r', ?_, hbits⟩
  rw [Read, if_neg (by omega), h, UInt64.toNat_zero, Nat.zero_mul, Nat.zero_add]

theorem Read_error {r : BitStreamReader} {nbits : ℕ} (h64 : nbits ≤ 64) (hlen : r.bits.length < nbits) :
    r.Read nbits = .error SpanReader.END_OF_DATA := by
  rw [Read, if_neg (by omega), readLoop_error nbits 0 r hlen]

/-- **What a read returned.** A read that succeeds takes at most 64 of the reader's next bits
and returns them as a number. -/
theorem Read_sound {r r' : BitStreamReader} {nbits : ℕ} {v : UInt64} (h : r.Read nbits = .ok (v, r')) :
    ∃ bs, bs.length = nbits ∧ r.bits = bs ++ r'.bits ∧ v = UInt64.ofNat (ofBits bs) := by
  have h64 : nbits ≤ 64 := by
    by_contra h64
    rw [Read, if_pos (by omega)] at h
    cases h
  by_cases hlen : nbits ≤ r.bits.length
  · obtain ⟨r'', h', hbits⟩ := Read_spec h64 hlen
    rw [h', Except.ok.injEq, Prod.mk.injEq] at h
    obtain ⟨rfl, rfl⟩ := h
    exact ⟨r.bits.take nbits, List.length_take_of_le hlen, by rw [hbits, List.take_append_drop], rfl⟩
  · rw [Read_error h64 (by omega)] at h
    cases h

/-- Each read of one bit consumes one. -/
theorem length_bits_Read_one {r r' : BitStreamReader} {v : UInt64} (h : r.Read 1 = .ok (v, r')) :
    r'.bits.length < r.bits.length := by
  obtain ⟨bs, hlen, hbits, -⟩ := Read_sound h
  rw [hbits, List.length_append, hlen]
  omega

/-- A reader that has read a bit stands below the top of its buffer, and reads keep it there. -/
theorem readLoop_offset_pos :
    ∀ (nbits : ℕ) (data : UInt64) (r : BitStreamReader) {v : UInt64} {r' : BitStreamReader},
      readLoop nbits data r = .ok (v, r') → (0 < nbits ∨ 0 < r.m_offset) → 0 < r'.m_offset := by
  intro nbits
  induction nbits using Nat.strong_induction_on with
  | _ nbits ih =>
  intro data r v r' h hpos
  rw [readLoop] at h
  by_cases hn : 0 < nbits
  · rw [if_pos hn] at h
    cases hf : fetch r with
    | error e =>
      rw [hf] at h
      cases h
    | ok r₁ =>
      obtain ⟨r₁, hr₁⟩ := r₁
      rw [hf] at h
      -- the pass reads at least one bit of the buffer
      exact ih _ (by omega) _ _ h (Or.inr (show 0 < r₁.m_offset + min (8 - r₁.m_offset) nbits by omega))
  · rw [if_neg hn] at h
    cases h
    omega

theorem Read_offset_pos {r r' : BitStreamReader} {nbits : ℕ} {v : UInt64}
    (h : r.Read nbits = .ok (v, r')) (hpos : 0 < nbits ∨ 0 < r.m_offset) : 0 < r'.m_offset := by
  rw [Read] at h
  split at h
  · cases h
  · exact readLoop_offset_pos nbits 0 r h hpos

end BitStreamReader


end Tenscoin
