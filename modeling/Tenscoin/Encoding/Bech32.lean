import Mathlib
import Tenscoin.Lib.Bits
import Tenscoin.Lib.Except
import Tenscoin.Lib.XorLinear
import Tenscoin.Lib.Radix

/-!
# Bech32 and Bech32m

`bech32.cpp`: a string is a human-readable part (hrp), the separator `'1'`, and characters of the
32-letter `CHARSET`, the last six of which are a checksum. `PolyMod` is a register over GF(32):
its state is six 5-bit symbols packed in 30 bits, and each input shifts it one symbol up,
reducing by the code's generator. The checksum makes `PolyMod` over the expanded hrp
(`PreparePolynomialCoefficients`) and all the symbols end at the encoding's constant, `1` for
Bech32 and `0x2bc830a3` for Bech32m.

One step of `PolyMod` is a shift, linear over XOR, followed by XOR of the input
(`polyModStep_eq`, `shift_additive`), so `PolyMod` is a `XorLinear.feed`. From that:

* `VerifyChecksum_CreateChecksum`: the six symbols `CreateChecksum` makes verify, as the encoding
  they were made for;
* `Decode_Encode`: `Decode` gives back the encoding, hrp and data of every string `Encode` makes
  from a printable lowercase hrp and 5-bit data that fit the length limit;
* `VerifyChecksum_substitution`: changing one data symbol always breaks the checksum, since the
  shift vanishes only at zero on 30-bit states (`shift_eq_zero`).

Strings are byte lists. `char` is signed, as on x86-64, which only `hrp[i] >> 5` sees.
`LocateErrors`, which finds up to four errors through syndromes over GF(1024), is not modelled.
-/

namespace Tenscoin

namespace Bech32

/-- `CHECKSUM_SIZE`. -/
def CHECKSUM_SIZE : ℕ := 6

/-- `Encoding`. -/
inductive Encoding
  | INVALID
  | BECH32
  | BECH32M
  deriving DecidableEq, Repr

/-- `CharLimit::BECH32`: the longest string `Decode` accepts by default. -/
def CharLimit.BECH32 : ℕ := 90

/-- `CHARSET`: the character of each 5-bit value. -/
def CHARSET : List UInt8 := [
  'q', 'p', 'z', 'r', 'y', '9', 'x', '8', 'g', 'f', '2', 't', 'v', 'd', 'w', '0',
  's', '3', 'j', 'n', '5', '4', 'k', 'h', 'c', 'e', '6', 'm', 'u', 'a', '7', 'l'].map Char.toUInt8

set_option maxRecDepth 2048 in
/-- `CHARSET_REV`: the value of each character of either case, `-1` outside the set. -/
def CHARSET_REV : Vector Int8 128 := #v[
  -1, -1, -1, -1, -1, -1, -1, -1, -1, -1, -1, -1, -1, -1, -1, -1,
  -1, -1, -1, -1, -1, -1, -1, -1, -1, -1, -1, -1, -1, -1, -1, -1,
  -1, -1, -1, -1, -1, -1, -1, -1, -1, -1, -1, -1, -1, -1, -1, -1,
  15, -1, 10, 17, 21, 20, 26, 30,  7,  5, -1, -1, -1, -1, -1, -1,
  -1, 29, -1, 24, 13, 25,  9,  8, 23, -1, 18, 22, 31, 27, 19, -1,
   1,  0,  3, 16, 11, 28, 12, 14,  6,  4,  2, -1, -1, -1, -1, -1,
  -1, 29, -1, 24, 13, 25,  9,  8, 23, -1, 18, 22, 31, 27, 19, -1,
   1,  0,  3, 16, 11, 28, 12, 14,  6,  4,  2, -1, -1, -1, -1, -1]

/-- `EncodingConstant`: what `PolyMod` ends at; the assertion fails on `INVALID`. -/
def EncodingConstant (encoding : Encoding) : Except String UInt32 :=
  if encoding = .BECH32 ∨ encoding = .BECH32M then
    pure (if encoding = .BECH32 then 1 else 0x2bc830a3)
  else throw "assert(encoding == Encoding::BECH32 || encoding == Encoding::BECH32M)"

/-- One input of `PolyMod`: shift the state up one symbol, XOR the input in, and reduce the
symbol `c0` shifted out by XORing in the generator's multiples its bits select. -/
def polyModStep (c : UInt32) (v_i : UInt8) : UInt32 :=
  let c0 : UInt8 := (c >>> 25).toUInt8
  let c := ((c &&& 0x1ffffff) <<< 5) ^^^ v_i.toUInt32
  let c := if c0 &&& 1 ≠ 0 then c ^^^ 0x3b6a57b2 else c
  let c := if c0 &&& 2 ≠ 0 then c ^^^ 0x26508e6d else c
  let c := if c0 &&& 4 ≠ 0 then c ^^^ 0x1ea119fa else c
  let c := if c0 &&& 8 ≠ 0 then c ^^^ 0x3d4233dd else c
  if c0 &&& 16 ≠ 0 then c ^^^ 0x2a1462b3 else c

/-- `PolyMod`: the register from `1` over the inputs. -/
def PolyMod (v : List UInt8) : UInt32 :=
  v.foldl polyModStep 1

/-- `LowerCase`. -/
def LowerCase (c : UInt8) : UInt8 :=
  if c ≥ Char.toUInt8 'A' ∧ c ≤ Char.toUInt8 'Z' then c - Char.toUInt8 'A' + Char.toUInt8 'a' else c

/-- The loop of `CheckCharacters` from index `i`, with the flags `lower` and `upper`: a letter of
the case not seen first, or a byte outside `33..126`, is an error. -/
def checkCharactersLoop : List UInt8 → ℕ → Bool → Bool → List ℕ → List ℕ
  | [], _, _, _, errors => errors
  | c :: str, i, lower, upper, errors =>
    if c ≥ Char.toUInt8 'a' ∧ c ≤ Char.toUInt8 'z' then
      if upper then checkCharactersLoop str (i + 1) lower upper (errors ++ [i])
      else checkCharactersLoop str (i + 1) true upper errors
    else if c ≥ Char.toUInt8 'A' ∧ c ≤ Char.toUInt8 'Z' then
      if lower then checkCharactersLoop str (i + 1) lower upper (errors ++ [i])
      else checkCharactersLoop str (i + 1) lower true errors
    else if c < 33 ∨ c > 126 then checkCharactersLoop str (i + 1) lower upper (errors ++ [i])
    else checkCharactersLoop str (i + 1) lower upper errors

/-- `CheckCharacters`: whether there is no error, and the errors appended to `errors`. -/
def CheckCharacters (str : List UInt8) (errors : List ℕ) : Bool × List ℕ :=
  let errors := checkCharactersLoop str 0 false false errors
  (errors.isEmpty, errors)

/-- `PreparePolynomialCoefficients`: the hrp's high bits (`hrp[i] >> 5` of a signed `char`), a
zero, its low five bits, then the values. -/
def PreparePolynomialCoefficients (hrp values : List UInt8) : List UInt8 :=
  hrp.map (fun c => (c.toInt8 >>> (5 : Int8)).toUInt8) ++ [0] ++ hrp.map (· &&& 0x1f) ++ values

/-- `VerifyChecksum`: the encoding whose constant `PolyMod` ends at. -/
def VerifyChecksum (hrp values : List UInt8) : Except String Encoding := do
  let enc := PreparePolynomialCoefficients hrp values
  let check := PolyMod enc
  if check = (← EncodingConstant .BECH32) then return .BECH32
  if check = (← EncodingConstant .BECH32M) then return .BECH32M
  return .INVALID

/-- `CreateChecksum`: what to XOR into six zero symbols, as six 5-bit values, high first. -/
def CreateChecksum (encoding : Encoding) (hrp values : List UInt8) :
    Except String (List UInt8) := do
  let enc := PreparePolynomialCoefficients hrp values ++ List.replicate CHECKSUM_SIZE 0
  let mod := PolyMod enc ^^^ (← EncodingConstant encoding)
  pure ((List.range CHECKSUM_SIZE).map fun i => ((mod >>> (5 * (5 - i)).toUInt32) &&& 31).toUInt8)

/-- `CHARSET[i]`: at `32` the literal's terminating NUL, past it out of bounds. -/
def charsetAt (i : UInt8) : Except String UInt8 :=
  if i.toNat < 32 then pure (CHARSET.getD i.toNat 0)
  else if i.toNat = 32 then pure 0
  else throw "CHARSET[i] out of bounds"

/-- `Encode`: the hrp, `'1'`, and the characters of the values and of their checksum. -/
def Encode (encoding : Encoding) (hrp values : List UInt8) : Except String (List UInt8) := do
  unless hrp.all (fun c => c < Char.toUInt8 'A' || c > Char.toUInt8 'Z') do
    throw "assert(c < 'A' || c > 'Z')"
  let data ← values.mapM charsetAt
  let checksum ← (← CreateChecksum encoding hrp values).mapM charsetAt
  pure (hrp ++ [Char.toUInt8 '1'] ++ data ++ checksum)

/-- `DecodeResult`; the default is a failed decoding. -/
structure DecodeResult where
  encoding : Encoding := .INVALID
  hrp : List UInt8 := []
  data : List UInt8 := []
  deriving DecidableEq, Repr

/-- `std::string::rfind`: the last position of `c`. -/
def rfind : List UInt8 → UInt8 → Option ℕ
  | [], _ => none
  | x :: str, c =>
    match rfind str c with
    | some i => some (i + 1)
    | none => if x = c then some 0 else none

/-- `CHARSET_REV[c]`. `Decode` reads it after `CheckCharacters` has rejected every byte above
`126`, so the read is in bounds. -/
def charsetRev (c : UInt8) : Int8 :=
  if h : c.toNat < 128 then CHARSET_REV[c.toNat] else -1

/-- The data part's values, or `none` at a character outside `CHARSET`. -/
def decodeValues (str : List UInt8) : Option (List UInt8) :=
  str.mapM fun c => if charsetRev c = -1 then none else some (charsetRev c).toUInt8

/-- `Decode`: check the characters, split at the last `'1'`, read the values, and keep the
encoding the checksum verifies as, with the hrp in lower case and the data without the
checksum. -/
def Decode (str : List UInt8) (limit : ℕ) : Except String DecodeResult := do
  if !(CheckCharacters str []).1 then return {}
  let pos := rfind str (Char.toUInt8 '1')
  if str.length > limit then return {}
  match pos with
  | none => return {}
  | some pos =>
    if pos = 0 ∨ pos + CHECKSUM_SIZE ≥ str.length then return {}
    match decodeValues (str.drop (pos + 1)) with
    | none => return {}
    | some values =>
      let hrp := (str.take pos).map LowerCase
      let result ← VerifyChecksum hrp values
      if result = .INVALID then return {}
      return ⟨result, hrp, values.take (values.length - CHECKSUM_SIZE)⟩

example : Encode .BECH32 ("a".toList.map Char.toUInt8) [] =
    .ok ("a12uel5l".toList.map Char.toUInt8) := by
  decide +kernel


/-! ### `PolyMod` is a linear register -/

open XorLinear

/-- What the test of bit `m` of `c0` in `polyModStep` XORs in: the generator's multiple `g`, or
nothing. -/
def genBit (m : UInt8) (g : UInt32) (c0 : UInt8) : UInt32 :=
  if c0 &&& m ≠ 0 then g else 0

/-- The reduction of the symbol `c0` shifted out of the state. -/
def gen (c0 : UInt8) : UInt32 :=
  genBit 1 0x3b6a57b2 c0 ^^^ genBit 2 0x26508e6d c0 ^^^ genBit 4 0x1ea119fa c0 ^^^
    genBit 8 0x3d4233dd c0 ^^^ genBit 16 0x2a1462b3 c0

/-- The state shifted up one symbol, reduced: `PolyMod`'s step before the input. -/
def shift (c : UInt32) : UInt32 :=
  ((c &&& 0x1ffffff) <<< 5) ^^^ gen (c >>> 25).toUInt8

theorem ite_xor (p : Prop) [Decidable p] (c g : UInt32) :
    (if p then c ^^^ g else c) = c ^^^ if p then g else 0 := by
  split <;> simp

/-- The step is the shift, then the input. -/
theorem polyModStep_eq (c : UInt32) (v : UInt8) : polyModStep c v = shift c ^^^ v.toUInt32 := by
  simp only [polyModStep, shift, gen, genBit, ite_xor]
  ac_rfl

theorem PolyMod_eq (v : List UInt8) : PolyMod v = feed shift 1 (v.map UInt8.toUInt32) := by
  rw [PolyMod, feed, List.foldl_map]
  exact congrArg (fun f => v.foldl f 1) (funext₂ polyModStep_eq)

theorem and_xor_distrib_uint32 (a b m : UInt32) : (a ^^^ b) &&& m = (a &&& m) ^^^ (b &&& m) := by
  apply UInt32.toBitVec_inj.1
  simp only [UInt32.toBitVec_and, UInt32.toBitVec_xor]
  ext i
  simp only [BitVec.getElem_and, BitVec.getElem_xor]
  cases a.toBitVec[i] <;> cases b.toBitVec[i] <;> cases m.toBitVec[i] <;> rfl

theorem and_xor_distrib_uint8 (a b m : UInt8) : (a ^^^ b) &&& m = (a &&& m) ^^^ (b &&& m) := by
  apply UInt8.toBitVec_inj.1
  simp only [UInt8.toBitVec_and, UInt8.toBitVec_xor]
  ext i
  simp only [BitVec.getElem_and, BitVec.getElem_xor]
  cases a.toBitVec[i] <;> cases b.toBitVec[i] <;> cases m.toBitVec[i] <;> rfl

/-- A test of one bit is additive in the symbol it tests. -/
theorem genBit_additive {m : UInt8} (g : UInt32) (hm0 : m ≠ 0)
    (hm : ∀ x : UInt8, x &&& m = 0 ∨ x &&& m = m) : Additive (genBit m g) := by
  intro x y
  simp only [genBit, and_xor_distrib_uint8]
  -- each of `x`, `y` has the bit or not
  rcases hm x with hx | hx <;> rcases hm y with hy | hy <;> simp [hx, hy, hm0]

theorem gen_additive : Additive gen := by
  -- each mask that `polyModStep` tests is a single bit
  have hbit : ∀ m ∈ [(1 : UInt8), 2, 4, 8, 16],
      m ≠ 0 ∧ ∀ x : UInt8, x &&& m = 0 ∨ x &&& m = m := by
    decide +kernel
  have h : ∀ m ∈ [(1 : UInt8), 2, 4, 8, 16], ∀ g, Additive (genBit m g) := fun m hm g =>
    genBit_additive g (hbit m hm).1 (hbit m hm).2
  exact ((((h 1 (by simp) _).xor laws_uint32 (h 2 (by simp) _)).xor laws_uint32
    (h 4 (by simp) _)).xor laws_uint32 (h 8 (by simp) _)).xor laws_uint32 (h 16 (by simp) _)

theorem shift_additive : Additive shift := by
  have hmask : Additive fun c : UInt32 => (c &&& 0x1ffffff) <<< 5 := fun a b => by
    dsimp only
    rw [and_xor_distrib_uint32, UInt32.shiftLeft_xor]
  have htop : Additive fun c : UInt32 => (c >>> 25).toUInt8 := fun a b => by
    dsimp only
    rw [UInt32.shiftRight_xor, UInt32.toUInt8_xor]
  exact hmask.xor laws_uint32 (gen_additive.comp htop)


/-! ### The shift on 30-bit states -/

/-- A state of six 5-bit symbols: below `2 ^ 30`. -/
def Small (c : UInt32) : Prop :=
  c.toNat < 2 ^ 30

theorem small_xor {a b : UInt32} (ha : Small a) (hb : Small b) : Small (a ^^^ b) := by
  unfold Small at *
  rw [UInt32.toNat_xor]
  exact Nat.xor_lt_two_pow ha hb

theorem small_toUInt32 (v : UInt8) : Small v.toUInt32 := by
  unfold Small
  have := v.toNat_lt
  rw [UInt8.toNat_toUInt32]
  omega

theorem toNat_shiftLeft_mask (c : UInt32) :
    ((c &&& 0x1ffffff) <<< 5).toNat = 2 ^ 5 * (c.toNat % 2 ^ 25) := by
  have hmask : (0x1ffffff : UInt32).toNat = 2 ^ 25 - 1 := rfl
  have hlt : c.toNat % 2 ^ 25 < 2 ^ 25 := Nat.mod_lt _ (by norm_num)
  rw [UInt32.toNat_shiftLeft, UInt32.toNat_and, hmask, Nat.and_two_pow_sub_one_eq_mod,
    Nat.shiftLeft_eq]
  rw [show (5 : UInt32).toNat % 32 = 5 from rfl, Nat.mod_eq_of_lt (by omega)]
  ring

/-- `c0`'s five low bits are bits `25` to `29` of the state. -/
theorem toNat_top (c : UInt32) : ((c >>> 25).toUInt8 &&& 31).toNat = c.toNat / 2 ^ 25 % 32 := by
  have h31 : (31 : UInt8).toNat = 2 ^ 5 - 1 := rfl
  rw [UInt8.toNat_and, h31, Nat.and_two_pow_sub_one_eq_mod, UInt32.toNat_toUInt8,
    UInt32.toNat_shiftRight, show (25 : UInt32).toNat % 32 = 25 from rfl, Nat.shiftRight_eq_div_pow,
    Nat.mod_mod_of_dvd _ (by norm_num)]

theorem gen_small (c0 : UInt8) : Small (gen c0) := by
  unfold Small
  revert c0
  decide +kernel

theorem shift_small (c : UInt32) : Small (shift c) := by
  refine small_xor ?_ (gen_small _)
  unfold Small
  rw [toNat_shiftLeft_mask]
  have := Nat.mod_lt c.toNat (show 0 < 2 ^ 25 by norm_num)
  omega

/-- The reduction's low symbol is the shifted-out symbol times the generator's constant term, which
is invertible: it vanishes only when no bit is set. -/
theorem gen_of_low_eq_zero : ∀ c0 : UInt8, gen c0 &&& 31 = 0 → c0 &&& 31 = 0 ∧ gen c0 = 0 := by
  decide +kernel

/-- **Only the zero state shifts to zero.** -/
theorem shift_eq_zero {c : UInt32} (hc : Small c) (h : shift c = 0) : c = 0 := by
  have hAG : (c &&& 0x1ffffff) <<< 5 = gen (c >>> 25).toUInt8 := laws_uint32.eq_of_xor_eq_zero h
  -- the shifted part has no low bits, so neither has the reduction
  have hlow : gen (c >>> 25).toUInt8 &&& 31 = 0 := by
    rw [← hAG]
    apply UInt32.toNat_inj.1
    rw [UInt32.toNat_and, show (31 : UInt32).toNat = 2 ^ 5 - 1 from rfl,
      Nat.and_two_pow_sub_one_eq_mod, toNat_shiftLeft_mask, Nat.mul_mod_right]
    rfl
  obtain ⟨hc0, hg⟩ := gen_of_low_eq_zero _ hlow
  rw [hg] at hAG
  have hA := congrArg UInt32.toNat hAG
  have htop := congrArg UInt8.toNat hc0
  rw [toNat_shiftLeft_mask] at hA
  rw [toNat_top] at htop
  unfold Small at hc
  apply UInt32.toNat_inj.1
  simp only [UInt32.toNat_zero, UInt8.toNat_zero] at hA htop ⊢
  omega

/-! ### The checksum -/

/-- Below the top symbol the shift only moves the state up. -/
theorem shift_of_lt {c : UInt32} (hc : c.toNat < 2 ^ 25) : shift c = c <<< 5 := by
  have hmask : c &&& 0x1ffffff = c := by
    apply UInt32.toNat_inj.1
    rw [UInt32.toNat_and, show (0x1ffffff : UInt32).toNat = 2 ^ 25 - 1 from rfl,
      Nat.and_two_pow_sub_one_eq_mod, Nat.mod_eq_of_lt hc]
  have htop : (c >>> 25).toUInt8 = 0 := by
    apply UInt8.toNat_inj.1
    rw [UInt32.toNat_toUInt8, UInt32.toNat_shiftRight, show (25 : UInt32).toNat % 32 = 25 from rfl,
      Nat.shiftRight_eq_div_pow, Nat.div_eq_of_lt hc]
    rfl
  rw [shift, hmask, htop, show gen 0 = 0 by decide, UInt32.xor_zero]

theorem toNat_shiftLeft_xor {c d : UInt32} (hc : c.toNat < 2 ^ 25) (hd : d.toNat < 2 ^ 5) :
    (c <<< 5 ^^^ d).toNat = 2 ^ 5 * c.toNat + d.toNat := by
  rw [UInt32.toNat_xor, UInt32.toNat_shiftLeft, show (5 : UInt32).toNat % 32 = 5 from rfl,
    Nat.shiftLeft_eq, Nat.mod_eq_of_lt (by omega), Nat.mul_comm, Bits.two_pow_mul_xor _ hd]

/-- Symbols fed into a state that stays below the top symbol are read in base 32. -/
theorem toNat_feed_shift :
    ∀ (ds : List UInt32) (s : UInt32), (∀ d ∈ ds, d.toNat < 2 ^ 5) → ds.length ≤ 6 →
      s.toNat < 32 ^ (6 - ds.length) →
      (feed shift s ds).toNat = Radix.horner 32 s.toNat (ds.map UInt32.toNat)
  | [], _, _, _, _ => rfl
  | d :: ds, s, hds, hlen, hs => by
    have hd := hds d List.mem_cons_self
    rw [List.length_cons] at hlen hs
    -- the state is one symbol short of full, and stays so after taking `d`
    obtain ⟨k, hk⟩ : ∃ k, 6 - (ds.length + 1) = k := ⟨_, rfl⟩
    have hpow : 32 ^ (6 - ds.length) = 32 ^ k * 32 := by
      rw [← pow_succ]
      congr 1
      omega
    have hk5 : 32 ^ k ≤ 2 ^ 25 := by
      rw [show (2 : ℕ) ^ 25 = 32 ^ 5 by norm_num]
      exact Nat.pow_le_pow_right (by norm_num) (by omega)
    rw [hk] at hs
    have hs25 : s.toNat < 2 ^ 25 := lt_of_lt_of_le hs hk5
    rw [feed_cons, shift_of_lt hs25, List.map_cons, Radix.horner_cons,
      toNat_feed_shift ds _ (fun d' hd' => hds d' (List.mem_cons_of_mem d hd')) (by omega)
        (by rw [toNat_shiftLeft_xor hs25 hd, hpow]; omega),
      toNat_shiftLeft_xor hs25 hd]
    norm_num

/-- Symbol `i` of the checksum, read back: digit `5 - i` of `mod` in base 32. -/
theorem toNat_checksumSymbol (mod : UInt32) {i : ℕ} (hi : i < 6) :
    (((mod >>> (5 * (5 - i)).toUInt32) &&& 31).toUInt8.toUInt32).toNat = mod.toNat / 32 ^ (5 - i) % 32 := by
  have hsh : (5 * (5 - i)).toUInt32.toNat % 32 = 5 * (5 - i) := by
    simp only [Nat.toUInt32_eq, UInt32.toNat_ofNat']
    omega
  rw [UInt8.toNat_toUInt32, UInt32.toNat_toUInt8, UInt32.toNat_and,
    show (31 : UInt32).toNat = 2 ^ 5 - 1 from rfl, Nat.and_two_pow_sub_one_eq_mod,
    UInt32.toNat_shiftRight, hsh, Nat.shiftRight_eq_div_pow, pow_mul]
  -- a 5-bit symbol survives the cast to a byte
  rw [Nat.mod_eq_of_lt (lt_of_lt_of_le (Nat.mod_lt _ (by norm_num)) (by norm_num))]
  norm_num

/-- The six symbols of a 30-bit `mod`, fed from zero, give `mod` back. -/
theorem feed_checksum {mod : UInt32} (hmod : Small mod) :
    feed shift 0 (((List.range CHECKSUM_SIZE).map fun i =>
      ((mod >>> (5 * (5 - i)).toUInt32) &&& 31).toUInt8).map UInt8.toUInt32) = mod := by
  apply UInt32.toNat_inj.1
  have hsym : ∀ d ∈ ((List.range CHECKSUM_SIZE).map fun i =>
      ((mod >>> (5 * (5 - i)).toUInt32) &&& 31).toUInt8).map UInt8.toUInt32, d.toNat < 2 ^ 5 := by
    simp only [List.map_map, List.mem_map, List.mem_range, CHECKSUM_SIZE]
    rintro _ ⟨i, hi, rfl⟩
    rw [Function.comp_apply, toNat_checksumSymbol mod hi]
    exact Nat.mod_lt _ (by norm_num)
  rw [toNat_feed_shift _ _ hsym (by simp [CHECKSUM_SIZE]) (by simp [CHECKSUM_SIZE]),
    UInt32.toNat_zero, List.map_map, List.map_map, CHECKSUM_SIZE]
  have hdigits : (List.range 6).map ((UInt32.toNat ∘ UInt8.toUInt32) ∘ fun i =>
      ((mod >>> (5 * (5 - i)).toUInt32) &&& 31).toUInt8) =
      (List.range 6).map fun i => mod.toNat / 32 ^ (6 - 1 - i) % 32 :=
    List.map_congr_left fun i hi => toNat_checksumSymbol mod (List.mem_range.1 hi)
  unfold Small at hmod
  rw [hdigits, Radix.horner_range_digits, Nat.mod_eq_of_lt (by simpa using hmod)]


theorem PolyMod_small (v : List UInt8) : Small (PolyMod v) := by
  rw [PolyMod_eq]
  have hstep : ∀ c w : UInt32, Small c → Small w → Small (shift c ^^^ w) :=
    fun c _ _ hw => small_xor (shift_small c) hw
  refine feed_invariant hstep (show Small 1 by unfold Small; decide) ?_
  simp only [List.mem_map]
  rintro _ ⟨x, -, rfl⟩
  exact small_toUInt32 x

theorem EncodingConstant_BECH32 : EncodingConstant .BECH32 = .ok 1 := rfl

theorem EncodingConstant_BECH32M : EncodingConstant .BECH32M = .ok 0x2bc830a3 := rfl

/-- The encoding whose constant `c` is. -/
def encodingOf (c : UInt32) : Encoding :=
  if c = 1 then .BECH32 else if c = 0x2bc830a3 then .BECH32M else .INVALID

theorem VerifyChecksum_eq (hrp values : List UInt8) :
    VerifyChecksum hrp values = .ok (encodingOf (PolyMod (PreparePolynomialCoefficients hrp values))) := by
  simp only [VerifyChecksum, EncodingConstant_BECH32, EncodingConstant_BECH32M, Except.ok_bind,
    encodingOf]
  split_ifs <;> rfl


/-- Symbols appended to the input shift what came before once each, and add what they make from
zero. -/
theorem PolyMod_append (pre cs : List UInt8) :
    PolyMod (pre ++ cs) = shift^[cs.length] (PolyMod pre) ^^^ feed shift 0 (cs.map UInt8.toUInt32) := by
  rw [PolyMod_eq, List.map_append, feed_append, ← PolyMod_eq, feed_eq laws_uint32 shift_additive,
    List.length_map]

theorem PolyMod_append_zeros (pre : List UInt8) (n : ℕ) :
    PolyMod (pre ++ List.replicate n 0) = shift^[n] (PolyMod pre) := by
  rw [PolyMod_append, List.length_replicate, List.map_replicate,
    show (0 : UInt8).toUInt32 = 0 from rfl, feed_zero_replicate laws_uint32 shift_additive,
    laws_uint32.xor_zero]

theorem PreparePolynomialCoefficients_append (hrp values cs : List UInt8) :
    PreparePolynomialCoefficients hrp (values ++ cs) = PreparePolynomialCoefficients hrp values ++ cs := by
  simp only [PreparePolynomialCoefficients, List.append_assoc]

/-- **The checksum verifies.** For an encoding other than `INVALID`, `CreateChecksum` succeeds, and
the values followed by its six symbols verify as that encoding. -/
theorem VerifyChecksum_CreateChecksum {encoding : Encoding} (henc : encoding ≠ .INVALID)
    (hrp values : List UInt8) :
    ∃ checksum, CreateChecksum encoding hrp values = .ok checksum ∧
      VerifyChecksum hrp (values ++ checksum) = .ok encoding := by
  -- the encoding's constant is a 30-bit value that `encodingOf` reads back
  obtain ⟨K, hK, hKs, hKenc⟩ :
      ∃ K, EncodingConstant encoding = .ok K ∧ Small K ∧ encodingOf K = encoding := by
    cases encoding with
    | INVALID => exact absurd rfl henc
    | BECH32 => exact ⟨1, rfl, by unfold Small; decide, rfl⟩
    | BECH32M => exact ⟨0x2bc830a3, rfl, by unfold Small; decide, rfl⟩
  obtain ⟨mod, hmod⟩ : ∃ mod, mod =
      PolyMod (PreparePolynomialCoefficients hrp values ++ List.replicate CHECKSUM_SIZE 0) ^^^ K :=
    ⟨_, rfl⟩
  refine ⟨(List.range CHECKSUM_SIZE).map fun i => ((mod >>> (5 * (5 - i)).toUInt32) &&& 31).toUInt8,
    ?_, ?_⟩
  · simp only [CreateChecksum, hK, Except.ok_bind, ← hmod]
    rfl
  · -- the zeros' place now holds `mod`, which cancels the shifted state and leaves the constant
    have hsmall : Small mod := hmod ▸ small_xor (PolyMod_small _) hKs
    rw [VerifyChecksum_eq, PreparePolynomialCoefficients_append, PolyMod_append, feed_checksum hsmall,
      hmod, PolyMod_append_zeros, List.length_map, List.length_range, ← laws_uint32.assoc,
      laws_uint32.xor_self, laws_uint32.zero_xor, hKenc]


/-! ### Errors -/

/-- `encodingOf` tells the two constants apart. -/
theorem eq_of_encodingOf_eq {x y : UInt32} (h : encodingOf x = encodingOf y)
    (hvalid : encodingOf x ≠ .INVALID) : x = y := by
  unfold encodingOf at h hvalid
  split_ifs at h hvalid <;> simp_all

/-- Changing one symbol of `PolyMod`'s input changes its result: the difference is shifted once
per later symbol, and the shift loses nothing on 30-bit states. -/
theorem PolyMod_substitution (pre w : List UInt8) {a b : UInt8} (hab : a ≠ b) :
    PolyMod (pre ++ a :: w) ≠ PolyMod (pre ++ b :: w) := by
  have he : (a ^^^ b).toUInt32 ≠ 0 := by
    intro h
    apply hab
    have h8 : a ^^^ b = 0 := UInt8.toNat_inj.1 (by simpa [UInt8.toNat_toUInt32] using congrArg UInt32.toNat h)
    simpa using h8
  have hb : b = a ^^^ (a ^^^ b) := by rw [← UInt8.xor_assoc, UInt8.xor_self, UInt8.zero_xor]
  have hdiff : shift^[w.length] (a ^^^ b).toUInt32 ≠ 0 :=
    iterate_ne_zero (fun c _ => shift_small c) (fun _ hc h => shift_eq_zero hc h) _
      (small_toUInt32 _) he
  rw [hb, PolyMod_eq, PolyMod_eq, List.map_append, List.map_append, List.map_cons, List.map_cons,
    UInt8.toUInt32_xor, feed_xor_input laws_uint32 shift_additive, List.length_map]
  -- `X = X ^^^ D` would make the shifted difference `D` zero
  intro h
  exact hdiff ((UInt32.xor_right_inj _).1 (h.symm.trans UInt32.xor_zero.symm))

/-- **Bech32 detects every substitution of one symbol.** Values that verify as Bech32 or Bech32m
no longer verify as that encoding once any one of their symbols, the checksum's included, is
changed. -/
theorem VerifyChecksum_substitution {hrp u w : List UInt8} {a b : UInt8} {encoding : Encoding}
    (hab : a ≠ b) (henc : encoding ≠ .INVALID)
    (h : VerifyChecksum hrp (u ++ a :: w) = .ok encoding) :
    VerifyChecksum hrp (u ++ b :: w) ≠ .ok encoding := by
  intro h'
  rw [VerifyChecksum_eq, Except.ok.injEq] at h h'
  rw [PreparePolynomialCoefficients_append] at h h'
  exact PolyMod_substitution _ w hab (eq_of_encodingOf_eq (h.trans h'.symm) (h ▸ henc))

/-- The Bech32 string "a12uel5l" carries the checksum values 10, 28, 25, 31, 20, 31 for the hrp
"a"; its first checksum character changed to another no longer verifies. -/
theorem VerifyChecksum_substitution_a :
    (10 : UInt8) ≠ 11 ∧ Encoding.BECH32 ≠ .INVALID ∧
      VerifyChecksum [97] ([] ++ 10 :: [28, 25, 31, 20, 31]) = .ok .BECH32 ∧
      VerifyChecksum [97] ([] ++ 11 :: [28, 25, 31, 20, 31]) ≠ .ok .BECH32 :=
  have h : VerifyChecksum [97] ([] ++ 10 :: [28, 25, 31, 20, 31]) = .ok .BECH32 := by decide +kernel
  ⟨by decide, by decide, h, VerifyChecksum_substitution (by decide) (by decide) h⟩


/-! ### Decoding what `Encode` makes -/

/-- A character of a valid hrp: printable and not upper case. -/
def IsHrpChar (c : UInt8) : Prop :=
  33 ≤ c ∧ c ≤ 126 ∧ ¬ (c ≥ Char.toUInt8 'A' ∧ c ≤ Char.toUInt8 'Z')

instance : DecidablePred IsHrpChar := fun _ => inferInstanceAs (Decidable (_ ∧ _ ∧ _))

/-- The character of each value, as `Encode` writes it. -/
def charOf (i : UInt8) : UInt8 :=
  CHARSET.getD i.toNat 0

theorem charsetAt_of_lt {i : UInt8} (h : i < 32) : charsetAt i = .ok (charOf i) := by
  rw [charsetAt, if_pos (show i.toNat < 32 from UInt8.lt_iff_toNat_lt.1 h)]
  rfl

/-- The characters of `CHARSET` are lower-case letters and digits; none is the separator, and
`CHARSET_REV` reads each back. -/
theorem charOf_spec : ∀ i : UInt8, i < 32 →
    IsHrpChar (charOf i) ∧ charOf i ≠ Char.toUInt8 '1' ∧ charsetRev (charOf i) ≠ -1 ∧
      (charsetRev (charOf i)).toUInt8 = i := by
  decide +kernel

theorem toUInt8_and31_lt (y : UInt32) : (y &&& 31).toUInt8 < 32 := by
  rw [UInt8.lt_iff_toNat_lt, UInt32.toNat_toUInt8, UInt32.toNat_and,
    show (31 : UInt32).toNat = 2 ^ 5 - 1 from rfl, Nat.and_two_pow_sub_one_eq_mod]
  have := Nat.mod_lt y.toNat (show 0 < 2 ^ 5 by norm_num)
  exact lt_of_le_of_lt (Nat.mod_le _ _) this

/-- A string of printable characters with no upper-case letter passes `CheckCharacters`. -/
theorem checkCharactersLoop_of_isHrpChar :
    ∀ {str : List UInt8} (i : ℕ) (lower : Bool) (errors : List ℕ), (∀ c ∈ str, IsHrpChar c) →
      checkCharactersLoop str i lower false errors = errors
  | [], _, _, _, _ => rfl
  | c :: str, i, lower, errors, h => by
    obtain ⟨h33, h126, hupper⟩ := h c List.mem_cons_self
    have hrest := fun c' hc' => h c' (List.mem_cons_of_mem c hc')
    rw [checkCharactersLoop]
    -- a lower-case letter only sets `lower`; anything else printable passes untouched
    by_cases hlow : c ≥ Char.toUInt8 'a' ∧ c ≤ Char.toUInt8 'z'
    · simp only [if_pos hlow, Bool.false_eq_true, if_false]
      exact checkCharactersLoop_of_isHrpChar _ _ _ hrest
    · rw [if_neg hlow, if_neg hupper, if_neg (not_or.2 ⟨UInt8.not_lt.2 h33, UInt8.not_lt.2 h126⟩)]
      exact checkCharactersLoop_of_isHrpChar _ _ _ hrest

theorem rfind_eq_none {c : UInt8} : ∀ {str : List UInt8}, c ∉ str → rfind str c = none
  | [], _ => rfl
  | x :: str, h => by
    rw [List.mem_cons, not_or] at h
    simp only [rfind, rfind_eq_none h.2, if_neg (Ne.symm h.1)]

/-- The last `c` is the one after `u` when none follows. -/
theorem rfind_append {c : UInt8} {w : List UInt8} (hw : c ∉ w) :
    ∀ u : List UInt8, rfind (u ++ c :: w) c = some u.length
  | [] => by simp [rfind, rfind_eq_none hw]
  | x :: u => by simp only [List.cons_append, rfind, rfind_append hw u, List.length_cons]

theorem decodeValues_map_charOf :
    ∀ {vs : List UInt8}, (∀ v ∈ vs, v < 32) → decodeValues (vs.map charOf) = some vs
  | [], _ => rfl
  | v :: vs, h => by
    obtain ⟨-, -, hne, hval⟩ := charOf_spec v (h v List.mem_cons_self)
    have ih := decodeValues_map_charOf fun v' hv' => h v' (List.mem_cons_of_mem v hv')
    unfold decodeValues at ih ⊢
    simp only [List.map_cons, List.mapM_cons, if_neg hne, hval, ih]
    rfl

theorem LowerCase_of_isHrpChar {c : UInt8} (h : IsHrpChar c) : LowerCase c = c := by
  rw [LowerCase, if_neg h.2.2]

/-- `CreateChecksum` makes six 5-bit symbols. -/
theorem CreateChecksum_symbols {encoding : Encoding} {hrp values cs : List UInt8}
    (h : CreateChecksum encoding hrp values = .ok cs) : cs.length = 6 ∧ ∀ c ∈ cs, c < 32 := by
  unfold CreateChecksum at h
  cases hK : EncodingConstant encoding with
  | error e => simp [hK] at h
  | ok K =>
    simp only [hK, Except.ok_bind, Except.pure_eq_ok, Except.ok.injEq] at h
    subst h
    refine ⟨by simp [CHECKSUM_SIZE], ?_⟩
    simp only [List.mem_map, List.mem_range]
    rintro _ ⟨i, -, rfl⟩
    exact toUInt8_and31_lt _


/-- What `Encode` writes, when the hrp has no upper-case letter and the values are 5-bit. -/
theorem Encode_eq {encoding : Encoding} {hrp values cs : List UInt8}
    (hhrp : ∀ c ∈ hrp, IsHrpChar c) (hvalues : ∀ v ∈ values, v < 32)
    (hcs : CreateChecksum encoding hrp values = .ok cs) :
    Encode encoding hrp values = .ok (hrp ++ Char.toUInt8 '1' :: (values ++ cs).map charOf) := by
  have hall : hrp.all (fun c => c < Char.toUInt8 'A' || c > Char.toUInt8 'Z') = true := by
    refine List.all_eq_true.2 fun c hc => ?_
    have hupper := (hhrp c hc).2.2
    by_cases hA : c ≥ Char.toUInt8 'A'
    · simp [UInt8.not_le.1 fun hZ => hupper ⟨hA, hZ⟩]
    · simp [UInt8.not_le.1 hA]
  have hdata : values.mapM charsetAt = .ok (values.map charOf) :=
    Except.mapM_eq_ok fun v hv => charsetAt_of_lt (hvalues v hv)
  have hck : cs.mapM charsetAt = .ok (cs.map charOf) :=
    Except.mapM_eq_ok fun c hc => charsetAt_of_lt ((CreateChecksum_symbols hcs).2 c hc)
  simp only [Encode, hall, hdata, hcs, hck, Except.ok_bind, List.map_append, List.append_assoc,
    List.singleton_append]
  rfl

/-- Data characters are printable, lower case, and never the separator. -/
theorem isHrpChar_of_mem_map_charOf {data : List UInt8} (hdata : ∀ v ∈ data, v < 32) {c : UInt8}
    (hc : c ∈ data.map charOf) : IsHrpChar c ∧ c ≠ Char.toUInt8 '1' := by
  obtain ⟨v, hv, rfl⟩ := List.mem_map.1 hc
  obtain ⟨hchar, hsep, -⟩ := charOf_spec v (hdata v hv)
  exact ⟨hchar, hsep⟩

theorem CheckCharacters_of_isHrpChar {str : List UInt8} (h : ∀ c ∈ str, IsHrpChar c) :
    (CheckCharacters str []).1 = true := by
  simp only [CheckCharacters, checkCharactersLoop_of_isHrpChar 0 false [] h, List.isEmpty_nil]

/-- What `Decode` returns for a string made of an hrp, the separator and the characters of 5-bit
values whose last six are a checksum that verifies. -/
theorem Decode_eq {hrp data : List UInt8} {encoding : Encoding} {limit : ℕ}
    (hne : hrp ≠ []) (hhrp : ∀ c ∈ hrp, IsHrpChar c) (hdata : ∀ v ∈ data, v < 32)
    (hsize : CHECKSUM_SIZE ≤ data.length) (hlen : hrp.length + 1 + data.length ≤ limit)
    (hver : VerifyChecksum hrp data = .ok encoding) (henc : encoding ≠ .INVALID) :
    Decode (hrp ++ Char.toUInt8 '1' :: data.map charOf) limit =
      .ok ⟨encoding, hrp, data.take (data.length - CHECKSUM_SIZE)⟩ := by
  have hchars : ∀ c ∈ hrp ++ Char.toUInt8 '1' :: data.map charOf, IsHrpChar c := by
    intro c hc
    rcases List.mem_append.1 hc with hc | hc
    · exact hhrp c hc
    rcases List.mem_cons.1 hc with rfl | hc
    · decide
    · exact (isHrpChar_of_mem_map_charOf hdata hc).1
  have hsep : Char.toUInt8 '1' ∉ data.map charOf := fun h =>
    (isHrpChar_of_mem_map_charOf hdata h).2 rfl
  -- the separator found is the one after the hrp, so `Decode` splits the string where it was joined
  have hdrop : (hrp ++ Char.toUInt8 '1' :: data.map charOf).drop (hrp.length + 1) =
      data.map charOf := by
    rw [List.drop_append, List.drop_eq_nil_of_le (by omega), Nat.add_sub_cancel_left]
    rfl
  have htake : ((hrp ++ Char.toUInt8 '1' :: data.map charOf).take hrp.length).map LowerCase = hrp := by
    rw [List.take_left' rfl]
    exact (List.map_congr_left fun c hc => LowerCase_of_isHrpChar (hhrp c hc)).trans (List.map_id _)
  -- it fits the limit, with an hrp before the separator and a checksum after it
  have hstrlen : (hrp ++ Char.toUInt8 '1' :: data.map charOf).length =
      hrp.length + 1 + data.length := by
    simp only [List.length_append, List.length_cons, List.length_map]
    omega
  have hpos : hrp.length ≠ 0 := fun h => hne (List.length_eq_zero_iff.1 h)
  have hfits : ¬ (hrp ++ Char.toUInt8 '1' :: data.map charOf).length > limit := by
    rw [hstrlen]; omega
  have hroom : ¬ (hrp.length = 0 ∨
      hrp.length + CHECKSUM_SIZE ≥ (hrp ++ Char.toUInt8 '1' :: data.map charOf).length) := by
    rw [hstrlen]; omega
  simp only [Decode, CheckCharacters_of_isHrpChar hchars, rfind_append hsep, hdrop,
    decodeValues_map_charOf hdata, htake, hver, Bool.not_true, Bool.false_eq_true, if_false,
    if_neg hfits, if_neg hroom, Except.ok_bind, if_neg henc]
  rfl

/-- **Decoding inverts encoding.** From an hrp of printable characters without upper-case letters
and 5-bit values, `Encode` makes a string, for Bech32 or Bech32m, and when that string fits the
limit `Decode` gives back the same encoding, hrp and values. -/
theorem Decode_Encode {encoding : Encoding} {hrp values : List UInt8} {limit : ℕ}
    (henc : encoding ≠ .INVALID) (hne : hrp ≠ []) (hhrp : ∀ c ∈ hrp, IsHrpChar c)
    (hvalues : ∀ v ∈ values, v < 32) (hlen : hrp.length + values.length + 7 ≤ limit) :
    ∃ str, Encode encoding hrp values = .ok str ∧
      Decode str limit = .ok ⟨encoding, hrp, values⟩ := by
  obtain ⟨cs, hcs, hver⟩ := VerifyChecksum_CreateChecksum henc hrp values
  obtain ⟨hcslen, hcs32⟩ := CreateChecksum_symbols hcs
  have hdata : ∀ v ∈ values ++ cs, v < 32 := by
    intro v hv
    rcases List.mem_append.1 hv with hv | hv
    · exact hvalues v hv
    · exact hcs32 v hv
  have hsize : CHECKSUM_SIZE = 6 := rfl
  have hlength : (values ++ cs).length = values.length + CHECKSUM_SIZE := by
    rw [List.length_append, hcslen, hsize]
  refine ⟨_, Encode_eq hhrp hvalues hcs, ?_⟩
  rw [Decode_eq hne hhrp hdata (by omega) (by omega) hver henc, hlength, Nat.add_sub_cancel,
    List.take_left' rfl]

/-- The hrp "bc" with three values. -/
theorem Decode_Encode_bc :
    Encoding.BECH32M ≠ .INVALID ∧ [(98 : UInt8), 99] ≠ [] ∧ (∀ c ∈ [(98 : UInt8), 99], IsHrpChar c) ∧
      (∀ v ∈ [(1 : UInt8), 31, 0], v < 32) ∧
      [(98 : UInt8), 99].length + [(1 : UInt8), 31, 0].length + 7 ≤ CharLimit.BECH32 ∧
      ∃ str, Encode .BECH32M [98, 99] [1, 31, 0] = .ok str ∧
        Decode str CharLimit.BECH32 = .ok ⟨.BECH32M, [98, 99], [1, 31, 0]⟩ :=
  have hhrp : ∀ c ∈ [(98 : UInt8), 99], IsHrpChar c := by decide +kernel
  have hvalues : ∀ v ∈ [(1 : UInt8), 31, 0], v < 32 := by decide +kernel
  ⟨by decide, by decide, hhrp, hvalues, by decide,
    Decode_Encode (by decide) (by decide) hhrp hvalues (by decide)⟩

end Bech32

end Tenscoin
