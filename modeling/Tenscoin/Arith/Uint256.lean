import Mathlib
import Tenscoin.Lib.Mantissa

/-!
# `arith_uint256` and the compact target encoding

`arith_uint256` (`base_uint<256>` in `arith_uint256.h`) is a 256-bit unsigned integer stored
as eight 32-bit limbs. Here it is `BitVec 256`: the value the limbs denote, with the wrapping
arithmetic modulo `2 ^ 256` the limb loops implement (`operator*=` keeps the low 256 bits of the
product, `operator<<=` drops the bits shifted past the top, `operator/=` is floor division).
`bits` and `GetLow64` are read off the value in the same way.

On top of these, `SetCompact` and `GetCompact` are transcribed from `arith_uint256.cpp` line by
line on `UInt32`, with the shifts, masks and the two flags of the source. `GetCompact` is split
at its two `assert`s: `getCompactParts` computes the mantissa and the size they are about, and
`getCompact` packs them.

The specification of the round trip lives in `Tenscoin.Arith.Compact`.
-/

namespace Tenscoin

/-- `arith_uint256`, by the value of its limbs. -/
abbrev ArithUint256 := BitVec 256

namespace ArithUint256

/-- `base_uint::bits`: the position of the highest set bit plus one, `0` for zero. -/
def bits (a : ArithUint256) : ℕ :=
  Nat.size a.toNat

/-- `base_uint::GetLow64`: the two low limbs. -/
def getLow64 (a : ArithUint256) : UInt64 :=
  UInt64.ofNat a.toNat

/-- What `arith_uint256::SetCompact` leaves behind: the value written to `*this`, and the two
flags it stores through `pfNegative` and `pfOverflow`. -/
structure SetCompactResult where
  value : ArithUint256
  fNegative : Bool
  fOverflow : Bool
  deriving DecidableEq, Repr

/-- `arith_uint256::SetCompact`. The exponent is the top byte, the mantissa the low 23 bits;
for an exponent of at most `3` the mantissa itself is shifted right, and both flags read that
shifted mantissa. -/
def setCompact (nCompact : UInt32) : SetCompactResult :=
  let nSize := (nCompact >>> 24).toNat
  let nWord₀ := nCompact &&& 0x007fffff
  let nWord := if nSize ≤ 3 then nWord₀ >>> (8 * (3 - nSize)).toUInt32 else nWord₀
  let value : ArithUint256 :=
    if nSize ≤ 3 then BitVec.ofNat 256 nWord.toNat
    else BitVec.ofNat 256 nWord.toNat <<< (8 * (nSize - 3))
  { value
    fNegative := nWord != 0 && (nCompact &&& 0x00800000) != 0
    fOverflow := nWord != 0 && (decide (nSize > 34) || (decide (nWord > 0xff) && decide (nSize > 33))
      || (decide (nWord > 0xffff) && decide (nSize > 32))) }

/-- The first `if` of `arith_uint256::GetCompact`: the low three bytes of `a` shifted so that
its most significant non-zero byte (of `nSize`) comes first, truncated to 32 bits. -/
def compactMantissa (a : ArithUint256) (nSize : ℕ) : UInt32 :=
  if nSize ≤ 3 then (a.getLow64 <<< (8 * (3 - nSize)).toUInt64).toUInt32
  else (getLow64 (a >>> (8 * (nSize - 3)))).toUInt32

/-- The first half of `arith_uint256::GetCompact`: the three-byte mantissa and the size in
bytes, after the adjustment that moves a mantissa with the `0x00800000` sign bit set one byte
down. These are the two values the `assert`s of `GetCompact` constrain. -/
def getCompactParts (a : ArithUint256) : UInt32 × ℕ :=
  let nSize := (a.bits + 7) / 8
  let nCompact := a.compactMantissa nSize
  if nCompact &&& 0x00800000 != 0 then (nCompact >>> 8, nSize + 1) else (nCompact, nSize)

/-- `arith_uint256::GetCompact`: pack the size into the top byte and, when asked for a negative
number with a non-zero mantissa, set the sign bit. -/
def getCompact (a : ArithUint256) (fNegative : Bool := false) : UInt32 :=
  let nCompact := a.getCompactParts.1 ||| (a.getCompactParts.2.toUInt32 <<< 24)
  nCompact ||| (if fNegative && (nCompact &&& 0x007fffff) != 0 then 0x00800000 else 0)

/-! ### The operations of the retarget rule -/

/-- `base_uint::operator*=(uint32_t)`: the product, keeping its low 256 bits. -/
def mulUInt32 (a : ArithUint256) (b32 : UInt32) : ArithUint256 :=
  a * BitVec.ofNat 256 b32.toNat

/-- `base_uint::operator/=`: floor division; a zero divisor throws `uint_error`. -/
def divide (a b : ArithUint256) : Except String ArithUint256 :=
  if b = 0 then throw "Division by zero" else pure (a / b)

/-- The constructor `base_uint(uint64_t)`. -/
def ofUInt64 (b : UInt64) : ArithUint256 :=
  BitVec.ofNat 256 b.toNat

/-- A product that fits in 256 bits does not wrap. -/
theorem toNat_mulUInt32 {a : ArithUint256} {b32 : UInt32} (h : a.toNat * b32.toNat < 2 ^ 256) :
    (mulUInt32 a b32).toNat = a.toNat * b32.toNat := by
  have hb : b32.toNat < 2 ^ 256 := lt_of_lt_of_le b32.toNat_lt (by norm_num)
  rw [mulUInt32, BitVec.toNat_mul, BitVec.toNat_ofNat, Nat.mod_eq_of_lt hb, Nat.mod_eq_of_lt h]

theorem divide_of_ne_zero {a b : ArithUint256} (hb : b ≠ 0) : divide a b = .ok (a / b) := by
  rw [divide, if_neg hb]
  rfl

theorem toNat_ofUInt64 (b : UInt64) : (ofUInt64 b).toNat = b.toNat := by
  rw [ofUInt64, BitVec.toNat_ofNat, Nat.mod_eq_of_lt (lt_of_lt_of_le b.toNat_lt (by norm_num))]

end ArithUint256

/-! ### Conversions of `int64_t` values -/

/-- The conversion of a non-negative `int64_t` to `uint32_t` keeps a value that fits. -/
theorem UInt32.toNat_ofInt_of_lt {x : ℤ} (h0 : 0 ≤ x) (h : x < 2 ^ 32) :
    (UInt32.ofInt x).toNat = x.toNat := by
  rw [UInt32.ofInt, UInt32.toNat_ofNat', Int.emod_eq_of_lt h0 h]
  exact Nat.mod_eq_of_lt (by omega)

/-- The conversion of a non-negative `int64_t` to `uint64_t` keeps its value. -/
theorem UInt64.toNat_ofInt_of_lt {x : ℤ} (h0 : 0 ≤ x) (h : x < 2 ^ 64) :
    (UInt64.ofInt x).toNat = x.toNat := by
  rw [UInt64.ofInt, UInt64.toNat_ofNat', Int.emod_eq_of_lt h0 h]
  exact Nat.mod_eq_of_lt (by omega)

/-! ### `uint256` -/

/-- `uint256`: a 32-byte blob. -/
abbrev Uint256 := Vector UInt8 32

/-- `uint256::SetNull`: the all-zero blob. -/
def nullHash : Uint256 :=
  Vector.replicate 32 0

/-- The blob holding the number `n` least significant byte first: `uint256{"…"}` of the hex
digits of `n`, as `base_blob`'s string constructor stores them in reverse. -/
def uint256OfNat (n : ℕ) : Uint256 :=
  Vector.ofFn fun i : Fin 32 => UInt8.ofNat (n / 256 ^ i.val)

/-- The number a byte string denotes least significant byte first. -/
def leValue (bytes : List UInt8) : ℕ :=
  bytes.foldr (fun b acc => b.toNat + 256 * acc) 0

/-- `UintToArith256`: the blob read as eight little-endian 32-bit limbs, least significant limb
first, which is the blob read as one little-endian number. -/
def uintToArith256 (a : Uint256) : ArithUint256 :=
  BitVec.ofNat 256 (leValue a.toList)

/-! ### Little-endian words (`crypto/common.h`) -/

/-- `WriteLE32`: the four bytes of `x`, least significant first. -/
def writeLE32 (x : UInt32) : List UInt8 :=
  [x.toUInt8, (x >>> 8).toUInt8, (x >>> 16).toUInt8, (x >>> 24).toUInt8]

/-- `ReadLE32` of the four bytes `b₀ b₁ b₂ b₃`. -/
def readLE32 (b₀ b₁ b₂ b₃ : UInt8) : UInt32 :=
  b₀.toUInt32 ||| b₁.toUInt32 <<< 8 ||| b₂.toUInt32 <<< 16 ||| b₃.toUInt32 <<< 24

end Tenscoin
