import Mathlib
import Tenscoin.Lib.Bits
import Tenscoin.Lib.SignMagnitude
import Tenscoin.Script.Script

/-!
# Script numbers

`CScriptNum` is the integer the numeric opcodes read from and write to the stack. Its bytes are
sign-magnitude little-endian (`SignMagnitude`): `serialize` writes them from an `int64_t` with a
loop over the bytes of the absolute value, and the constructor from a byte vector checks the size
and, with `fRequireMinimal`, that the encoding is minimal, before `set_vch` reads it back with
shifts and a mask. `CScript::push_int64` writes a number into a script as `OP_0`, `OP_1NEGATE`,
`OP_1` to `OP_16`, or a push of its serialization, and `CheckMinimalPush` is the test the
interpreter makes of a push under `SCRIPT_VERIFY_MINIMALDATA`.

The code is related to the format once, function by function:

* `serialize_eq`: `serialize v` is `SignMagnitude.encode v.toInt`, for every `int64_t`;
* `toInt_set_vch`: `set_vch` reads `SignMagnitude.decode` from at most eight bytes;
* `ofVch_eq`: the constructor's checks are the size bound and `SignMagnitude.IsMinimal`;
* `push_int64_eq`: `push_int64` appends one item of the script builder.

The round trips are then the format's (`SignMagnitude.decode_encode`,
`SignMagnitude.encode_decode`), with `INT64_MIN`, whose magnitude needs nine bytes, left out.
-/

namespace Tenscoin

open Bytes

/-! ### The model -/

/-- `CScriptNum`, by its `m_value`. -/
structure CScriptNum where
  m_value : Int64
  deriving DecidableEq, Repr

namespace CScriptNum

/-- The loop of `CScriptNum::serialize`: `result.push_back(absvalue & 0xff); absvalue >>= 8`
while `absvalue` is not zero. -/
def serializeLoop (absvalue : UInt64) : List UInt8 :=
  if absvalue = 0 then [] else (absvalue &&& 0xff).toUInt8 :: serializeLoop (absvalue >>> 8)
termination_by absvalue.toNat
decreasing_by
  rw [UInt64.toNat_shiftRight]
  have h : absvalue.toNat ≠ 0 := fun h0 => ‹¬absvalue = 0› (UInt64.toNat_inj.mp h0)
  simp only [UInt64.reduceToNat, Nat.reduceMod, Nat.shiftRight_eq_div_pow]
  omega

/-- `CScriptNum::serialize(value)`. The absolute value is taken on `uint64_t`, and the sign is set
in the high bit of the last byte, or in one more byte when that bit is taken. -/
def serialize (value : Int64) : List UInt8 :=
  if value = 0 then [] else
  let neg := decide (value < 0)
  let absvalue : UInt64 := if neg then ~~~value.toUInt64 + 1 else value.toUInt64
  let result := serializeLoop absvalue
  if result.getLastD 0 &&& 0x80 ≠ 0 then result ++ [if neg then 0x80 else 0]
  else if neg then result.dropLast ++ [result.getLastD 0 ||| 0x80]
  else result

/-- The loop of `CScriptNum::set_vch`: `result |= static_cast<int64_t>(vch[i]) << 8*i` for each
byte, from position `i` on. The `int64_t` accumulator is kept as its 64 bits. -/
def set_vchLoop : List UInt8 → ℕ → UInt64 → UInt64
  | [], _, result => result
  | b :: bs, i, result => set_vchLoop bs (i + 1) (result ||| b.toUInt64 <<< (8 * i).toUInt64)

/-- `CScriptNum::set_vch(vch)`: the little-endian number, negated with its sign bit cleared when
the last byte has its high bit set. -/
def set_vch (vch : List UInt8) : Int64 :=
  if vch.isEmpty then 0 else
  let result := set_vchLoop vch 0 0
  if vch.getLastD 0 &&& 0x80 ≠ 0 then
    -(result &&& ~~~((0x80 : UInt64) <<< (8 * (vch.length - 1)).toUInt64)).toInt64
  else result.toInt64

/-- `CScriptNum(vch, fRequireMinimal, nMaxNumSize)`, with the messages of its
`scriptnum_error`s. -/
def ofVch (vch : List UInt8) (fRequireMinimal : Bool) (nMaxNumSize : ℕ) :
    Except String CScriptNum :=
  if vch.length > nMaxNumSize then .error "script number overflow"
  -- the most significant byte without its sign bit is zero, and the byte below it does not
  -- need the sign bit: not minimal (this also rejects the negative zero `0x80`)
  else if fRequireMinimal && vch.length > 0 && vch.getLastD 0 &&& 0x7f = 0 &&
      (vch.length ≤ 1 || vch.getD (vch.length - 2) 0 &&& 0x80 = 0) then
    .error "non-minimally encoded script number"
  else .ok ⟨set_vch vch⟩

/-- `CScriptNum::getvch()`. -/
def getvch (n : CScriptNum) : List UInt8 := serialize n.m_value

end CScriptNum

/-- `CScript::push_int64(n)`: `OP_1NEGATE` and `OP_1` to `OP_16` as `n + (OP_1 - 1)`, `OP_0` for
zero, and a push of `CScriptNum::serialize(n)` otherwise. -/
def CScript.push_int64 (script : CScript) (n : Int64) : CScript :=
  if n = -1 ∨ (1 ≤ n ∧ n ≤ 16) then
    script.pushOpcode (n + (OP_1 - 1).toUInt64.toInt64).toUInt64.toUInt8
  else if n = 0 then script.pushOpcode OP_0
  else script.pushSpan (CScriptNum.serialize n)

/-- `CheckMinimalPush(data, opcode)`: whether the push of `data` by `opcode` is the shortest one.
Its `assert(0 <= opcode && opcode <= OP_PUSHDATA4)` fails (`none`) on any other opcode. -/
def CheckMinimalPush (data : List UInt8) (opcode : UInt8) : Option Bool :=
  if ¬opcode ≤ OP_PUSHDATA4 then none
  -- Should have used OP_0.
  else if data.length = 0 then some (opcode == OP_0)
  -- Should have used OP_1 .. OP_16.
  else if data.length = 1 ∧ 1 ≤ data.getD 0 0 ∧ data.getD 0 0 ≤ 16 then some false
  -- Should have used OP_1NEGATE.
  else if data.length = 1 ∧ data.getD 0 0 = 0x81 then some false
  -- Must have used a direct push (opcode indicating number of bytes pushed + those bytes).
  else if data.length ≤ 75 then some (opcode.toNat == data.length)
  -- Must have used OP_PUSHDATA.
  else if data.length ≤ 255 then some (opcode == OP_PUSHDATA1)
  -- Must have used OP_PUSHDATA2.
  else if data.length ≤ 65535 then some (opcode == OP_PUSHDATA2)
  else some true

/-- The stack element `EvalScript` pushes for a push-value operation read from a script: the data
of a push (`0 <= opcode <= OP_PUSHDATA4`), and `CScriptNum((int)opcode - (int)(OP_1 - 1)).getvch()`
for `OP_1NEGATE` and `OP_1` to `OP_16`; `none` for any other opcode. -/
def pushedValue (opcode : UInt8) (data : List UInt8) : Option (List UInt8) :=
  if opcode ≤ OP_PUSHDATA4 then some data
  else if opcode = OP_1NEGATE ∨ (OP_1 ≤ opcode ∧ opcode ≤ OP_16) then
    some (CScriptNum.getvch ⟨Int64.ofInt (opcode.toNat - (OP_1 - 1).toNat)⟩)
  else none

namespace CScriptNum

/-! ### `serialize` is the minimal encoding -/

/-- The loop writes the base-256 digits of `absvalue`. -/
theorem serializeLoop_eq (absvalue : UInt64) :
    serializeLoop absvalue = SignMagnitude.magnitude absvalue.toNat := by
  fun_induction serializeLoop absvalue with
  | case1 => rfl
  | case2 a h ih =>
    have ha : 0 < a.toNat := Nat.pos_of_ne_zero fun h0 => h (UInt64.toNat_inj.mp h0)
    rw [ih, SignMagnitude.magnitude, SignMagnitude.magnitude, Nat.digits_def' (by norm_num) ha,
      List.map_cons]
    -- the low byte, and the quotient by `256` for the rest
    congr 2
    · apply UInt8.toNat_inj.mp
      simp [Nat.and_two_pow_sub_one_eq_mod _ 8]
    · rw [UInt64.toNat_shiftRight]
      simp [Nat.shiftRight_eq_div_pow]

/-- An `int64_t` read from its 64 bits. -/
theorem toInt_eq_toNat_cond (value : Int64) :
    value.toInt = if 2 * value.toUInt64.toNat < 2 ^ 64 then (value.toUInt64.toNat : ℤ)
      else value.toUInt64.toNat - 2 ^ 64 :=
  BitVec.toInt_eq_toNat_cond value.toBitVec

/-- `neg ? ~static_cast<uint64_t>(value) + 1 : static_cast<uint64_t>(value)` is `|value|`. -/
theorem toNat_absvalue (value : Int64) :
    (if decide (value < 0) then ~~~value.toUInt64 + 1 else value.toUInt64).toNat =
      value.toInt.natAbs := by
  have hcond := toInt_eq_toNat_cond value
  have hlt := value.toUInt64.toNat_lt
  by_cases hneg : value < 0
  · have h0 : value.toInt < 0 := by simpa using Int64.lt_iff_toInt_lt.mp hneg
    rw [if_pos (decide_eq_true hneg), UInt64.toNat_add, UInt64.toNat_not, UInt64.toNat_one]
    simp only [UInt64.size] at hlt ⊢
    split at hcond <;> omega
  · have h0 : 0 ≤ value.toInt := by simpa using Int64.le_iff_toInt_le.mp (Int64.not_lt.mp hneg)
    rw [if_neg (by simpa using hneg)]
    split at hcond <;> omega

/-- **`serialize` writes the minimal encoding**, for every `int64_t`. -/
theorem serialize_eq (value : Int64) : serialize value = SignMagnitude.encode value.toInt := by
  have hz : value = 0 ↔ value.toInt = 0 := by rw [← Int64.toInt_inj, Int64.toInt_zero]
  have hneg : value < 0 ↔ value.toInt < 0 := by rw [Int64.lt_iff_toInt_lt, Int64.toInt_zero]
  by_cases h0 : value = 0
  · rw [serialize, if_pos h0, SignMagnitude.encode, if_pos (hz.mp h0)]
  obtain ⟨m, d, hmd, -, -⟩ :=
    SignMagnitude.magnitude_eq_concat (Int.natAbs_ne_zero.mpr (mt hz.mpr h0))
  unfold serialize SignMagnitude.encode
  simp only [if_neg h0, if_neg (mt hz.mpr h0), serializeLoop_eq, toNat_absvalue]
  simp only [hmd, List.getLastD_concat, List.dropLast_concat, hneg, decide_eq_true_eq]
  by_cases hd : 0x80 ≤ d
  · -- the sign takes one more byte
    rw [if_pos (mt (Bits.and80_eq_zero_iff d).mp (UInt8.not_lt.mpr hd)), if_pos hd]
  · -- the sign goes into the last byte: `d ||| 0x80` is `d + 0x80`
    have hd' : d < 0x80 := UInt8.not_le.mp hd
    rw [if_neg (not_not.mpr ((Bits.and80_eq_zero_iff d).mpr hd')), if_neg hd]
    split
    · rw [Bits.or80_eq_add d hd']
    · rw [UInt8.add_zero]

/-! ### `set_vch` reads the value -/

/-- The loop reads the little-endian number of the bytes, as long as they fit in the word. -/
theorem toNat_set_vchLoop (bs : List UInt8) (i : ℕ) (result : UInt64)
    (hr : result.toNat < 2 ^ (8 * i)) (hlen : i + bs.length ≤ 8) :
    (set_vchLoop bs i result).toNat = result.toNat + 2 ^ (8 * i) * decodeLE bs := by
  induction bs generalizing i result with
  | nil => simp [set_vchLoop]
  | cons b bs ih =>
    have hi : i < 8 := by simp at hlen; omega
    -- the byte shifted by `8 * i` lands above the bits read so far
    have hshift : (b.toUInt64 <<< (8 * i).toUInt64).toNat = b.toNat * 2 ^ (8 * i) := by
      have hb := b.toNat_lt
      have hpow : b.toNat * 2 ^ (8 * i) < 2 ^ 64 :=
        calc b.toNat * 2 ^ (8 * i) < 2 ^ 8 * 2 ^ (8 * i) := Nat.mul_lt_mul_of_pos_right hb (by positivity)
          _ = 2 ^ (8 * i + 8) := by rw [← pow_add, Nat.add_comm]
          _ ≤ 2 ^ 64 := Nat.pow_le_pow_right (by norm_num) (by omega)
      rw [UInt64.toNat_shiftLeft, UInt8.toNat_toUInt64, Nat.toUInt64_eq, UInt64.toNat_ofNat',
        Nat.mod_eq_of_lt (show 8 * i < 2 ^ 64 by omega), Nat.mod_eq_of_lt (show 8 * i < 64 by omega),
        Nat.shiftLeft_eq, Nat.mod_eq_of_lt hpow]
    have hor : (result ||| b.toUInt64 <<< (8 * i).toUInt64).toNat =
        result.toNat + b.toNat * 2 ^ (8 * i) := by
      rw [UInt64.toNat_or, hshift, ← Nat.shiftLeft_eq, Nat.lor_comm,
        ← Nat.shiftLeft_add_eq_or_of_lt hr, Nat.add_comm]
    have hbound : (result ||| b.toUInt64 <<< (8 * i).toUInt64).toNat < 2 ^ (8 * (i + 1)) := by
      rw [hor, show 8 * (i + 1) = 8 * i + 8 by ring, pow_add]
      have hb : b.toNat ≤ 255 := by have := b.toNat_lt; omega
      nlinarith
    rw [set_vchLoop, ih (i + 1) _ hbound (by simp at hlen; omega), hor, decodeLE_cons,
      show 8 * (i + 1) = 8 * i + 8 by ring, pow_add]
    ring


/-- A word below `2 ^ 63` is the same number as an `int64_t`. -/
theorem toInt_toInt64 {x : UInt64} (h : x.toNat < 2 ^ 63) : x.toInt64.toInt = x.toNat := by
  rw [show x.toInt64.toInt = x.toBitVec.toInt from rfl, BitVec.toInt_eq_toNat_cond,
    if_pos (by rw [UInt64.toNat_toBitVec]; omega)]
  rfl

theorem toInt_neg_toInt64 {x : UInt64} (h : x.toNat < 2 ^ 63) :
    (-x.toInt64).toInt = -(x.toNat : ℤ) := by
  rw [Int64.toInt_neg, toInt_toInt64 h]
  apply Int.bmod_eq_of_le <;> omega

theorem toNat_set_vchLoop_zero {vch : List UInt8} (h : vch.length ≤ 8) :
    (set_vchLoop vch 0 0).toNat = decodeLE vch := by
  rw [toNat_set_vchLoop vch 0 0 (by simp) (by omega)]
  simp

/-- **`set_vch` reads the sign-magnitude value** of at most eight bytes. -/
theorem toInt_set_vch {vch : List UInt8} (h : vch.length ≤ 8) :
    (set_vch vch).toInt = SignMagnitude.decode vch := by
  rcases List.eq_nil_or_concat vch with rfl | ⟨body, t, rfl⟩
  · rfl
  rw [List.concat_eq_append] at h ⊢
  have hlen : body.length < 8 := by simp at h; omega
  have hx := toNat_set_vchLoop_zero h
  rw [decodeLE_append, decodeLE_cons, decodeLE_nil, Nat.mul_zero, Nat.add_zero] at hx
  have hbody := decodeLE_lt body
  have hmag : SignMagnitude.magnitudeOf (body ++ [t]) < 2 ^ 63 :=
    lt_of_lt_of_le (SignMagnitude.magnitudeOf_lt (by simp))
      (Nat.pow_le_pow_right (by norm_num) (by simp; omega))
  have h256 : (256 : ℕ) ^ body.length * 128 = 2 ^ (8 * body.length + 7) := by
    rw [pow_add, pow_mul]
    norm_num
  rw [set_vch, if_neg (by simp), SignMagnitude.decode_concat]
  simp only [List.getLastD_concat, List.length_append, List.length_singleton, Nat.add_sub_cancel]
  by_cases ht : 0x80 ≤ t
  · rw [if_pos (mt (Bits.and80_eq_zero_iff t).mp (UInt8.not_lt.mpr ht)), if_pos ht]
    -- the mask clears bit `8 * body.length + 7`, the top bit of the word
    have hmask : ((0x80 : UInt64) <<< (8 * body.length).toUInt64).toNat =
        2 ^ (8 * body.length + 7) := by
      rw [UInt64.toNat_shiftLeft, Nat.toUInt64_eq, UInt64.toNat_ofNat',
        Nat.mod_eq_of_lt (show 8 * body.length < 2 ^ 64 by omega),
        Nat.mod_eq_of_lt (show 8 * body.length < 64 by omega), Nat.shiftLeft_eq,
        show (0x80 : UInt64).toNat = 2 ^ 7 from rfl, ← pow_add, Nat.add_comm 7,
        Nat.mod_eq_of_lt (Nat.pow_lt_pow_right (by norm_num) (by omega))]
    have htop : (set_vchLoop (body ++ [t]) 0 0).toNat < 2 ^ (8 * body.length + 7 + 1) := by
      have htl : 256 ^ body.length * t.toNat ≤ 256 ^ body.length * 255 :=
        Nat.mul_le_mul_left _ (by have := t.toNat_lt; omega)
      rw [hx, pow_succ, ← h256]
      omega
    have hclear := Bits.toNat_and_not_of_lt (set_vchLoop (body ++ [t]) 0 0) _ hmask (by omega)
      htop
    have hval : (set_vchLoop (body ++ [t]) 0 0).toNat % 2 ^ (8 * body.length + 7) =
        SignMagnitude.magnitudeOf (body ++ [t]) := by
      -- the high bit of `t` is `256 ^ body.length * 128`, the modulus
      have ht' : t.toNat = (t % 0x80).toNat + 128 := by
        have hge := UInt8.le_iff_toNat_le.mp ht
        have hlt := t.toNat_lt
        rw [UInt8.toNat_mod]
        simp only [UInt8.reduceToNat] at hge ⊢
        omega
      have hlow : 256 ^ body.length * (t % 0x80).toNat ≤ 256 ^ body.length * 127 :=
        Nat.mul_le_mul_left _ (by have := SignMagnitude.toNat_mod_lt t; omega)
      rw [hx, SignMagnitude.magnitudeOf_concat, ← h256, ht', Nat.mul_add, ← Nat.add_assoc,
        Nat.add_mod_right, Nat.mod_eq_of_lt (by omega)]
    rw [toInt_neg_toInt64 (by rw [hclear, hval]; exact hmag), hclear, hval]
  · rw [if_neg (not_not.mpr ((Bits.and80_eq_zero_iff t).mpr (UInt8.not_le.mp ht))), if_neg ht]
    have hval : (set_vchLoop (body ++ [t]) 0 0).toNat = SignMagnitude.magnitudeOf (body ++ [t]) := by
      rw [hx, SignMagnitude.magnitudeOf_concat, UInt8.mod_eq_of_lt (UInt8.not_le.mp ht)]
    rw [toInt_toInt64 (by rw [hval]; exact hmag), hval]


/-! ### The constructor -/

/-- The test before "non-minimally encoded script number" holds exactly of the strings that are
not minimal. -/
theorem nonMinimal_iff (vch : List UInt8) :
    (decide (vch.length > 0) && decide (vch.getLastD 0 &&& 0x7f = 0) &&
      (decide (vch.length ≤ 1) || decide (vch.getD (vch.length - 2) 0 &&& 0x80 = 0))) = true ↔
    ¬SignMagnitude.IsMinimal vch := by
  rcases List.eq_nil_or_concat vch with rfl | ⟨body, t, rfl⟩
  · simp [SignMagnitude.IsMinimal]
  rw [List.concat_eq_append, SignMagnitude.isMinimal_concat]
  rcases List.eq_nil_or_concat body with rfl | ⟨b, u, rfl⟩
  · -- one byte: only its magnitude bits can make it minimal
    simp [Bits.and7f_eq_zero_iff]
  · -- the byte below the last is `u`
    rw [List.concat_eq_append]
    simp [Bits.and7f_eq_zero_iff, Bits.and80_eq_zero_iff]

/-- **The constructor's checks** are the size bound and minimality. -/
theorem ofVch_eq (vch : List UInt8) (nMaxNumSize : ℕ) :
    ofVch vch true nMaxNumSize =
      if vch.length > nMaxNumSize then .error "script number overflow"
      else if SignMagnitude.IsMinimal vch then .ok ⟨set_vch vch⟩
      else .error "non-minimally encoded script number" := by
  rw [ofVch, Bool.true_and]
  by_cases hsize : vch.length > nMaxNumSize
  · rw [if_pos hsize, if_pos hsize]
  rw [if_neg hsize, if_neg hsize]
  by_cases hmin : SignMagnitude.IsMinimal vch
  · rw [if_neg (mt (nonMinimal_iff vch).mp (not_not.mpr hmin)), if_pos hmin]
  · rw [if_pos ((nonMinimal_iff vch).mpr hmin), if_neg hmin]


/-! ### Round trips -/

/-- Every `int64_t` but `INT64_MIN` has a magnitude below `2 ^ 63`. -/
theorem natAbs_toInt_lt {v : Int64} (hv : v ≠ Int64.minValue) : v.toInt.natAbs < 2 ^ 63 := by
  have hlo := Int64.le_toInt v
  have hhi := Int64.toInt_lt v
  have hne : v.toInt ≠ -2 ^ 63 := by
    rw [← Int64.toInt_minValue]
    exact fun h => hv (Int64.toInt_inj.mp h)
  omega

/-- **`serialize` round trip**: the bytes of every `int64_t` but `INT64_MIN` fit in eight bytes,
are minimal and decode to it. -/
theorem ofVch_serialize {v : Int64} (hv : v ≠ Int64.minValue) :
    (serialize v).length ≤ 8 ∧ ofVch (serialize v) true 8 = .ok ⟨v⟩ := by
  have hlen : (serialize v).length ≤ 8 := by
    rw [serialize_eq]
    exact SignMagnitude.length_encode_le (natAbs_toInt_lt hv)
  refine ⟨hlen, ?_⟩
  rw [ofVch_eq, if_neg (by omega), serialize_eq, if_pos (SignMagnitude.isMinimal_encode _)]
  congr 2
  apply Int64.toInt_inj.mp
  rw [toInt_set_vch (serialize_eq v ▸ hlen), SignMagnitude.decode_encode]

/-- **Minimal encodings are unique**: a vector of at most eight bytes that the constructor accepts
is the serialization of what it reads. -/
theorem serialize_of_ofVch {vch : List UInt8} {n : CScriptNum} (hlen : vch.length ≤ 8)
    (h : ofVch vch true 8 = .ok n) : serialize n.m_value = vch := by
  rw [ofVch_eq, if_neg (by omega)] at h
  by_cases hmin : SignMagnitude.IsMinimal vch
  · rw [if_pos hmin] at h
    cases h
    rw [serialize_eq, toInt_set_vch hlen, SignMagnitude.encode_decode hmin]
  · rw [if_neg hmin] at h
    cases h

end CScriptNum

/-! ### `push_int64` -/

/-- The one item `push_int64` appends: the opcode `n + (OP_1 - 1)` for `-1` and `1` to `16`, and
otherwise a push of the serialization (for zero, the empty push, which is the byte `OP_0`). -/
def pushInt64Item (n : Int64) : ScriptItem :=
  if n = -1 ∨ (1 ≤ n ∧ n ≤ 16) then .opcode (n + (OP_1 - 1).toUInt64.toInt64).toUInt64.toUInt8
  else .push (CScriptNum.serialize n)

theorem push_int64_eq (script : CScript) (n : Int64) :
    script.push_int64 n = (pushInt64Item n).appendTo script := by
  unfold CScript.push_int64 pushInt64Item
  split_ifs with hop h0
  · rfl
  · -- `OP_0` is the empty push
    subst h0
    rw [ScriptItem.appendTo_eq, ScriptItem.bytes, CScriptNum.serialize, if_pos rfl]
    rfl
  · rfl

theorem opN_iff (n : Int64) :
    (n = -1 ∨ (1 ≤ n ∧ n ≤ 16)) ↔ (n.toInt = -1 ∨ (1 ≤ n.toInt ∧ n.toInt ≤ 16)) := by
  simp [← Int64.toInt_inj, Int64.le_iff_toInt_le]

theorem toNat_opN {n : Int64} (hn : -1 ≤ n.toInt ∧ n.toInt ≤ 16) :
    (n + (OP_1 - 1).toUInt64.toInt64).toUInt64.toUInt8.toNat = (n.toInt + 80).toNat := by
  have hcond := CScriptNum.toInt_eq_toNat_cond n
  have hlt := n.toUInt64.toNat_lt
  rw [UInt64.toNat_toUInt8, Int64.toUInt64_add, UInt64.toNat_add]
  have h80 : (OP_1 - 1).toUInt64.toInt64.toUInt64.toNat = 80 := rfl
  rw [h80]
  split at hcond <;> omega


/-- `OP_1NEGATE` and `OP_1` to `OP_16`, as `push_int64` writes them: above the pushes, and pushing
the number's own serialization. -/
theorem opN_spec {n : Int64} (hn : n = -1 ∨ (1 ≤ n ∧ n ≤ 16)) :
    let op := (n + (OP_1 - 1).toUInt64.toInt64).toUInt64.toUInt8
    OP_PUSHDATA4 < op ∧ (op = OP_1NEGATE ∨ (OP_1 ≤ op ∧ op ≤ OP_16)) ∧
      pushedValue op [] = some (CScriptNum.serialize n) := by
  intro op
  have hk := (opN_iff n).mp hn
  have hop : op.toNat = (n.toInt + 80).toNat := toNat_opN (by omega)
  have hP4 : OP_PUSHDATA4 < op := by
    rw [UInt8.lt_iff_toNat_lt, hop]
    simp only [OP_PUSHDATA4, UInt8.reduceToNat]
    omega
  have hname : op = OP_1NEGATE ∨ (OP_1 ≤ op ∧ op ≤ OP_16) := by
    simp only [← UInt8.toNat_inj, UInt8.le_iff_toNat_le, hop, OP_1NEGATE, OP_1, OP_16,
      UInt8.reduceToNat]
    omega
  refine ⟨hP4, hname, ?_⟩
  rw [pushedValue, if_neg (UInt8.not_le.mpr hP4), if_pos hname, CScriptNum.getvch]
  -- `(int)opcode - (int)(OP_1 - 1)` is the number again
  congr 2
  apply Int64.toInt_inj.mp
  have hsub : ((n.toInt + 80).toNat : ℤ) - (80 : ℕ) = n.toInt := by omega
  rw [Int64.toInt_ofInt, hop, show (OP_1 - 1).toNat = 80 from rfl, hsub]
  apply Int.bmod_eq_of_le <;> simp [Int64.size] <;> omega


/-- Every other number but `INT64_MIN` is pushed minimally, by the direct push of its bytes. -/
theorem checkMinimalPush_serialize {n : Int64} (hn : ¬(n = -1 ∨ (1 ≤ n ∧ n ≤ 16)))
    (hmin : n ≠ Int64.minValue) :
    pushOpcodeFor (CScriptNum.serialize n).length ≤ OP_PUSHDATA4 ∧
      CheckMinimalPush (CScriptNum.serialize n)
        (pushOpcodeFor (CScriptNum.serialize n).length) = some true := by
  set data := CScriptNum.serialize n with hdata
  have hlen : data.length ≤ 8 := (CScriptNum.ofVch_serialize hmin).1
  have hop : pushOpcodeFor data.length = UInt8.ofNat data.length := if_pos (by omega)
  have hdec : SignMagnitude.decode data = n.toInt := by
    rw [hdata, CScriptNum.serialize_eq, SignMagnitude.decode_encode]
  have hk := mt (opN_iff n).mpr hn
  refine ⟨pushOpcodeFor_le _, ?_⟩
  rw [CheckMinimalPush, if_neg (not_not.mpr (pushOpcodeFor_le _))]
  by_cases h0 : data.length = 0
  · -- zero: the empty push, by `OP_0`
    rw [if_pos h0, hop, h0]
    rfl
  rw [if_neg h0]
  -- a one-byte push of `1` to `16` or of `0x81` would be `n` itself, which is none of those
  have hsmall : ¬(data.length = 1 ∧ 1 ≤ data.getD 0 0 ∧ data.getD 0 0 ≤ 16) := by
    rintro ⟨h1, hlo, hhi⟩
    obtain ⟨b, hb⟩ := List.length_eq_one_iff.mp h1
    rw [hb, List.getD_cons_zero] at hlo hhi
    rw [hb, SignMagnitude.decode_singleton] at hdec
    have hb1 : 1 ≤ b.toNat := UInt8.le_iff_toNat_le.mp hlo
    have hb16 : b.toNat ≤ 16 := UInt8.le_iff_toNat_le.mp hhi
    have hlt : b < 0x80 := UInt8.lt_iff_toNat_lt.mpr (by simp only [UInt8.reduceToNat]; omega)
    rw [if_neg (UInt8.not_le.mpr hlt), UInt8.mod_eq_of_lt hlt] at hdec
    omega
  have hneg1 : ¬(data.length = 1 ∧ data.getD 0 0 = 0x81) := by
    rintro ⟨h1, hb⟩
    obtain ⟨b, hb'⟩ := List.length_eq_one_iff.mp h1
    rw [hb', List.getD_cons_zero] at hb
    rw [hb', hb, SignMagnitude.decode_singleton, if_pos (by decide),
      show ((0x81 : UInt8) % 0x80).toNat = 1 from rfl] at hdec
    omega
  rw [if_neg hsmall, if_neg hneg1, if_pos (by omega), hop, UInt8.toNat_ofNat',
    Nat.mod_eq_of_lt (by omega)]
  simp

theorem length_AppendDataSize_le (size : UInt32) : (AppendDataSize size).length ≤ 5 := by
  unfold AppendDataSize
  split_ifs <;> simp

/-- **`push_int64` writes one operation**: reading the script back gives the item it appended. -/
theorem GetOps_push_int64 {n : Int64} (hn : n ≠ Int64.minValue) :
    GetOps (CScript.push_int64 [] n) 0 =
      ([(pushInt64Item n).parsed], (CScript.push_int64 [] n).length, true) := by
  have hdata := (CScriptNum.ofVch_serialize hn).1
  have hvalid : (pushInt64Item n).Valid := by
    unfold pushInt64Item
    split_ifs with hop
    · exact (opN_spec hop).1
    · show (CScriptNum.serialize n).length < 2 ^ 32
      omega
  have hbytes : (pushInt64Item n).bytes.length ≤ 13 := by
    unfold pushInt64Item
    split_ifs
    · simp [ScriptItem.bytes]
    · have := length_AppendDataSize_le (UInt32.ofNat (CScriptNum.serialize n).length)
      simp only [ScriptItem.bytes, List.length_append]
      omega
  have h := GetOps_append [pushInt64Item n] (by simpa using hvalid) [] (by simp; omega)
  rw [push_int64_eq, ScriptItem.appendTo_eq]
  simpa using h

/-- **Script numbers round trip.** Every `int64_t` but `INT64_MIN` serializes to at most eight
bytes that `CScriptNum(vch, true, 8)` accepts and reads back; every vector of at most eight bytes
that it accepts is the serialization of what it reads, so minimal encodings are unique and the
negative zero is rejected; and `CScript() << v` is one operation (`OP_1NEGATE`, `OP_1` to
`OP_16`, or a push that passes `CheckMinimalPush`, `OP_0` among them) whose pushed element reads
back as `v`. -/
theorem scriptNum_serialize_roundTrip :
    (∀ v : Int64, v ≠ Int64.minValue →
      (CScriptNum.serialize v).length ≤ 8 ∧
        CScriptNum.ofVch (CScriptNum.serialize v) true 8 = .ok ⟨v⟩) ∧
    (∀ (vch : List UInt8) (n : CScriptNum), vch.length ≤ 8 →
      CScriptNum.ofVch vch true 8 = .ok n → CScriptNum.serialize n.m_value = vch) ∧
    (∀ v : Int64, v ≠ Int64.minValue → ∃ (op : UInt8) (data e : List UInt8),
      GetOps (CScript.push_int64 [] v) 0 = ([(op, data)], (CScript.push_int64 [] v).length, true) ∧
      ((op ≤ OP_PUSHDATA4 ∧ CheckMinimalPush data op = some true) ∨ op = OP_1NEGATE ∨
        (OP_1 ≤ op ∧ op ≤ OP_16)) ∧
      pushedValue op data = some e ∧ CScriptNum.ofVch e true 8 = .ok ⟨v⟩) := by
  refine ⟨fun v hv => CScriptNum.ofVch_serialize hv,
    fun vch n hlen h => CScriptNum.serialize_of_ofVch hlen h, fun v hv => ?_⟩
  have hread := (CScriptNum.ofVch_serialize hv).2
  rw [GetOps_push_int64 hv]
  by_cases hop : v = -1 ∨ (1 ≤ v ∧ v ≤ 16)
  · -- `OP_1NEGATE` or `OP_1` to `OP_16`, which push the serialization
    obtain ⟨-, hname, hpushed⟩ := opN_spec hop
    exact ⟨_, [], _, by rw [pushInt64Item, if_pos hop]; rfl, Or.inr hname, hpushed, hread⟩
  · -- the minimal push of the serialization
    obtain ⟨hle, hcheck⟩ := checkMinimalPush_serialize hop hv
    refine ⟨_, _, _, by rw [pushInt64Item, if_neg hop]; rfl, Or.inl ⟨hle, hcheck⟩, ?_, hread⟩
    rw [pushedValue, if_pos hle]

theorem scriptNum_serialize_roundTrip_thousand :
    CScriptNum.ofVch (CScriptNum.serialize 1000) true 8 = .ok ⟨1000⟩ ∧
      CScriptNum.serialize (1000 : Int64) = [0xe8, 0x03] ∧
      ∃ (op : UInt8) (data e : List UInt8),
        GetOps (CScript.push_int64 [] (-1)) 0 =
          ([(op, data)], (CScript.push_int64 [] (-1)).length, true) ∧
        ((op ≤ OP_PUSHDATA4 ∧ CheckMinimalPush data op = some true) ∨ op = OP_1NEGATE ∨
          (OP_1 ≤ op ∧ op ≤ OP_16)) ∧
        pushedValue op data = some e ∧ CScriptNum.ofVch e true 8 = .ok ⟨-1⟩ := by
  obtain ⟨hser, huniq, hpush⟩ := scriptNum_serialize_roundTrip
  exact ⟨(hser 1000 (by decide)).2, huniq [0xe8, 0x03] ⟨1000⟩ (by decide) rfl,
    hpush (-1) (by decide)⟩

end Tenscoin
