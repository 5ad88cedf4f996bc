import Mathlib
import Tenscoin.Lib.Except
import Tenscoin.Lib.Radix
import Tenscoin.Arith.Uint256

/-!
# Base58 and Base58Check

`EncodeBase58` and `DecodeBase58` (base58.cpp) convert between bytes and the 58 letters of
`pszBase58` by schoolbook radix conversion in a buffer sized from the input length, each
leading zero byte standing for a leading '1'. One pass of the buffer per input symbol is
`Radix.mulAdd`; the model keeps what decides the outcome: the `int` the buffer size is stored in,
the `std::vector` allocation, `assert(carry == 0)`, the `max_ret_len` checks, and the spaces
around an encoded string.

* `encodeLoop_padded`, `decodeLoop_padded`: the loops compute the number the input stands for,
  or stop at the assertion once it outgrows the buffer;
* `EncodeBase58_eq`, `DecodeBase58_eq`: the results without the buffer, whenever its size fits
  an `int`; the buffer is large enough by `Radix.pow_lt_pow_div_succ` and the bounds
  `58 ^ 1000 ≤ 256 ^ 733` and `256 ^ 100 ≤ 58 ^ 138`;
* `decodeSpec_encodeSpec` and `encodeSpec_decodeSpec`: the two directions are inverse, on
  bytes and on strings with no space around them.
-/

namespace Tenscoin

/-- `IsSpace`: space, form feed, line feed, carriage return, horizontal and vertical tab. -/
def IsSpace (c : UInt8) : Bool :=
  c == 0x20 || c == 0x0c || c == 0x0a || c == 0x0d || c == 0x09 || c == 0x0b

/-- `ContainsNoNUL`. -/
def ContainsNoNUL (str : List UInt8) : Bool :=
  str.all (fun c => c != 0)

/-- All alphanumeric characters except for "0", "I", "O", and "l". -/
def pszBase58 : List UInt8 := [
  '1', '2', '3', '4', '5', '6', '7', '8', '9', 'A', 'B', 'C', 'D', 'E', 'F',
  'G', 'H', 'J', 'K', 'L', 'M', 'N', 'P', 'Q', 'R', 'S', 'T', 'U', 'V', 'W',
  'X', 'Y', 'Z', 'a', 'b', 'c', 'd', 'e', 'f', 'g', 'h', 'i', 'j', 'k', 'm',
  'n', 'o', 'p', 'q', 'r', 's', 't', 'u', 'v', 'w', 'x', 'y', 'z'].map Char.toUInt8

set_option maxRecDepth 2048 in
/-- `mapBase58`: the digit of each character, `-1` for a character outside the alphabet. -/
def mapBase58 : Vector Int8 256 := #v[
  -1, -1, -1, -1, -1, -1, -1, -1,  -1, -1, -1, -1, -1, -1, -1, -1,
  -1, -1, -1, -1, -1, -1, -1, -1,  -1, -1, -1, -1, -1, -1, -1, -1,
  -1, -1, -1, -1, -1, -1, -1, -1,  -1, -1, -1, -1, -1, -1, -1, -1,
  -1, 0, 1, 2, 3, 4, 5, 6,  7, 8, -1, -1, -1, -1, -1, -1,
  -1, 9, 10, 11, 12, 13, 14, 15,  16, -1, 17, 18, 19, 20, 21, -1,
  22, 23, 24, 25, 26, 27, 28, 29,  30, 31, 32, -1, -1, -1, -1, -1,
  -1, 33, 34, 35, 36, 37, 38, 39,  40, 41, 42, 43, -1, 44, 45, 46,
  47, 48, 49, 50, 51, 52, 53, 54,  55, 56, 57, -1, -1, -1, -1, -1,
  -1, -1, -1, -1, -1, -1, -1, -1,  -1, -1, -1, -1, -1, -1, -1, -1,
  -1, -1, -1, -1, -1, -1, -1, -1,  -1, -1, -1, -1, -1, -1, -1, -1,
  -1, -1, -1, -1, -1, -1, -1, -1,  -1, -1, -1, -1, -1, -1, -1, -1,
  -1, -1, -1, -1, -1, -1, -1, -1,  -1, -1, -1, -1, -1, -1, -1, -1,
  -1, -1, -1, -1, -1, -1, -1, -1,  -1, -1, -1, -1, -1, -1, -1, -1,
  -1, -1, -1, -1, -1, -1, -1, -1,  -1, -1, -1, -1, -1, -1, -1, -1,
  -1, -1, -1, -1, -1, -1, -1, -1,  -1, -1, -1, -1, -1, -1, -1, -1,
  -1, -1, -1, -1, -1, -1, -1, -1,  -1, -1, -1, -1, -1, -1, -1, -1]

/-- `pszBase58[d]`, for a digit `d < 58`. -/
def base58Char (d : ℕ) : UInt8 :=
  pszBase58.getD d 0

/-- `int size = n * num / den + 1`: the product in `size_t`, then the conversion to `int`,
which keeps the low 32 bits. -/
def bufferSize (n num den : ℕ) : Int32 :=
  (n.toUInt64 * num.toUInt64 / den.toUInt64 + 1).toUInt32.toInt32

/-- `std::vector<unsigned char> b(size)`: `size` zero digits, held least significant first. A
negative `int` converts to a `size_t` beyond `max_size()`, and the constructor throws. -/
def allocBuffer (size : Int32) : Except String (List ℕ) :=
  if size < 0 then throw "cannot create std::vector larger than max_size()"
  else pure (List.replicate size.toNatClampNeg 0)

/-- The inner loop of both directions, `carry += M * (*it); *it = carry % B; carry /= B;` from
the least significant digit while `carry != 0 || i < length`, then `assert(carry == 0)`.
Returns the buffer and the new `length = i`. -/
def convertStep (M B : ℕ) (b : List ℕ) (carry length : ℕ) : Except String (List ℕ × ℕ) :=
  let r := Radix.mulAdd M B b carry 0 length
  if r.2.1 = 0 then pure (r.1, r.2.2) else throw "assert(carry == 0)"

/-- The byte loop of `EncodeBase58`: `b58 = b58 * 256 + ch` for each byte. -/
def encodeLoop : List UInt8 → List ℕ → ℕ → Except String (List ℕ × ℕ)
  | [], b58, length => pure (b58, length)
  | ch :: input, b58, length => do
    let r ← convertStep 256 58 b58 ch.toNat length
    encodeLoop input r.1 r.2

/-- `EncodeBase58`. The buffer is held least significant first, so the `length` digits from
`b58.begin() + (size - length)` are its first `length`, reversed. -/
def EncodeBase58 (input : List UInt8) : Except String (List UInt8) := do
  -- Skip & count leading zeroes.
  let zeroes := (input.takeWhile (· == 0)).length
  let input := input.dropWhile (· == 0)
  -- Allocate enough space in big-endian base58 representation.
  let b58 ← allocBuffer (bufferSize input.length 138 100)
  let r ← encodeLoop input b58 0
  -- Skip leading zeroes in base58 result.
  let digits := (r.1.take r.2).reverse.dropWhile (· == 0)
  pure (List.replicate zeroes (Char.toUInt8 '1') ++ digits.map base58Char)

/-- The loop over leading '1's of `DecodeBase58`: `zeroes++; if (zeroes > max_ret_len) return
false;`. Returns the count and the rest of the string. -/
def countOnes (max_ret_len : Int32) : List UInt8 → ℕ → Option (ℕ × List UInt8)
  | [], zeroes => some (zeroes, [])
  | c :: psz, zeroes =>
    if c == Char.toUInt8 '1' then
      if max_ret_len.toInt < zeroes + 1 then none else countOnes max_ret_len psz (zeroes + 1)
    else some (zeroes, c :: psz)

/-- The character loop of `DecodeBase58`, up to a space or the end: each character's digit is
multiplied in, with `false` for a character outside the alphabet and when `length + zeroes >
max_ret_len`. Returns the buffer, `length` and the rest of the string. -/
def decodeLoop (zeroes : ℕ) (max_ret_len : Int32) :
    List UInt8 → List ℕ → ℕ → Except String (Option (List ℕ × ℕ × List UInt8))
  | [], b256, length => pure (some (b256, length, []))
  | c :: psz, b256, length =>
    if IsSpace c then pure (some (b256, length, c :: psz))
    else
      -- Decode base58 character
      let carry := (mapBase58.get c.toFin).toInt
      if carry = -1 then pure none
      else do
        let r ← convertStep 58 256 b256 carry.toNat length
        if max_ret_len.toInt < r.2 + zeroes then pure none
        else decodeLoop zeroes max_ret_len psz r.1 r.2

/-- `DecodeBase58` on a C string: the string up to its NUL. -/
def DecodeBase58CStr (psz : List UInt8) (max_ret_len : Int32) :
    Except String (Option (List UInt8)) := do
  -- Skip leading spaces.
  let psz := psz.dropWhile IsSpace
  -- Skip and count leading '1's.
  match countOnes max_ret_len psz 0 with
  | none => pure none
  | some (zeroes, psz) =>
    -- Allocate enough space in big-endian base256 representation.
    let b256 ← allocBuffer (bufferSize psz.length 733 1000)
    match ← decodeLoop zeroes max_ret_len psz b256 0 with
    | none => pure none
    | some (b256, length, psz) =>
      -- Skip trailing spaces.
      if psz.dropWhile IsSpace ≠ [] then pure none
      else pure (some (List.replicate zeroes 0 ++ (b256.take length).reverse.map Nat.toUInt8))

/-- `DecodeBase58` on a `std::string`. -/
def DecodeBase58 (str : List UInt8) (max_ret_len : Int32) : Except String (Option (List UInt8)) :=
  if !ContainsNoNUL str then pure none else DecodeBase58CStr str max_ret_len

/-- `EncodeBase58Check`: the input and the first four bytes of its hash. -/
def EncodeBase58Check (Hash : List UInt8 → Uint256) (input : List UInt8) :
    Except String (List UInt8) :=
  -- add 4-byte hash check to the end
  EncodeBase58 (input ++ (Hash input).toList.take 4)

/-- `DecodeBase58Check` on a C string: four more bytes are allowed for the check, and the
decoded bytes must end with the first four bytes of the hash of the rest. -/
def DecodeBase58CheckCStr (Hash : List UInt8 → Uint256) (psz : List UInt8) (max_ret_len : Int32) :
    Except String (Option (List UInt8)) := do
  let max := if max_ret_len > Int32.maxValue - 4 then Int32.maxValue else max_ret_len + 4
  match ← DecodeBase58CStr psz max with
  | none => pure none
  | some vchRet =>
    if vchRet.length < 4 then pure none
    -- re-calculate the checksum, ensure it matches the included 4-byte checksum
    else if (Hash (vchRet.take (vchRet.length - 4))).toList.take 4 ≠
        vchRet.drop (vchRet.length - 4) then pure none
    else pure (some (vchRet.take (vchRet.length - 4)))

/-- `DecodeBase58Check` on a `std::string`. -/
def DecodeBase58Check (Hash : List UInt8 → Uint256) (str : List UInt8) (max_ret : Int32) :
    Except String (Option (List UInt8)) :=
  if !ContainsNoNUL str then pure none else DecodeBase58CheckCStr Hash str max_ret


/-! ### Splitting at a run -/

section Runs

variable {α : Type} {p : α → Bool}

/-- Where the second part does not start with an element passing `p`, `takeWhile` stops in the
first part. -/
theorem takeWhile_append_of_head {l₂ : List α} (h : ∀ x ∈ l₂.head?, p x = false) (l₁ : List α) :
    (l₁ ++ l₂).takeWhile p = l₁.takeWhile p := by
  induction l₁ with
  | nil =>
    cases l₂ with
    | nil => rfl
    | cons x xs => simp [h x rfl]
  | cons x xs ih =>
    simp only [List.cons_append, List.takeWhile_cons, ih]

theorem dropWhile_append_of_head {l₂ : List α} (h : ∀ x ∈ l₂.head?, p x = false) (l₁ : List α) :
    (l₁ ++ l₂).dropWhile p = l₁.dropWhile p ++ l₂ := by
  induction l₁ with
  | nil =>
    cases l₂ with
    | nil => rfl
    | cons x xs => simp [h x rfl]
  | cons x xs ih =>
    simp only [List.cons_append, List.dropWhile_cons]
    split
    · exact ih
    · rfl

theorem takeWhile_eq_nil_of_head {l : List α} (h : ∀ x ∈ l.head?, p x = false) :
    l.takeWhile p = [] :=
  takeWhile_append_of_head h []

theorem dropWhile_eq_self_of_head {l : List α} (h : ∀ x ∈ l.head?, p x = false) :
    l.dropWhile p = l :=
  dropWhile_append_of_head h []

/-- What `dropWhile` leaves does not start with an element passing `p`. -/
theorem head_dropWhile (l : List α) : ∀ x ∈ (l.dropWhile p).head?, p x = false := by
  intro x hx
  have h := List.head?_dropWhile_not p l
  rw [Option.mem_def] at hx
  rw [hx] at h
  exact h

/-- The run of copies of `a` at the start of a list. -/
theorem takeWhile_beq_eq_replicate [BEq α] [LawfulBEq α] (a : α) (l : List α) :
    l.takeWhile (· == a) = List.replicate (l.takeWhile (· == a)).length a :=
  List.eq_replicate_iff.mpr ⟨rfl, fun b hb => by simpa using List.mem_takeWhile_imp hb⟩

end Runs

/-! ### The alphabet -/

/-- The digit a letter stands for: its place in `pszBase58`. -/
def digit (c : UInt8) : ℕ :=
  pszBase58.idxOf c

/-- `mapBase58` inverts `pszBase58`: a letter maps to its place, any other byte to `-1`. -/
theorem mapBase58_spec : ∀ c : UInt8,
    (mapBase58.get c.toFin).toInt = if c ∈ pszBase58 then (digit c : ℤ) else -1 := by
  decide +kernel

theorem digit_lt {c : UInt8} (h : c ∈ pszBase58) : digit c < 58 :=
  List.idxOf_lt_length_of_mem h

theorem base58Char_digit {c : UInt8} (h : c ∈ pszBase58) : base58Char (digit c) = c := by
  unfold base58Char digit
  rw [List.getD_eq_getElem _ _ (List.idxOf_lt_length_of_mem h), List.getElem_idxOf]

theorem length_pszBase58 : pszBase58.length = 58 := rfl

theorem pszBase58_eq_cons : pszBase58 = Char.toUInt8 '1' :: pszBase58.tail := rfl

/-- The letters are distinct, and none is below '1'. -/
theorem nodup_pszBase58_and_le : pszBase58.Nodup ∧ ∀ c ∈ pszBase58, 0x31 ≤ c.toNat := by
  decide +kernel

theorem base58Char_mem (d : ℕ) (hd : d < 58) : base58Char d ∈ pszBase58 := by
  rw [base58Char, List.getD_eq_getElem _ _ (by rw [length_pszBase58]; exact hd)]
  exact List.getElem_mem _

theorem digit_base58Char (d : ℕ) (hd : d < 58) : digit (base58Char d) = d := by
  have hd' : d < pszBase58.length := by rw [length_pszBase58]; exact hd
  rw [digit, base58Char, List.getD_eq_getElem _ _ hd']
  exact nodup_pszBase58_and_le.1.idxOf_getElem d hd'

/-- The bytes `IsSpace` accepts are below '1'. -/
theorem toNat_lt_of_isSpace {c : UInt8} (h : IsSpace c = true) : c.toNat < 0x31 := by
  simp only [IsSpace, Bool.or_eq_true, beq_iff_eq] at h
  rcases h with ((((h | h) | h) | h) | h) | h <;> subst h <;> decide

theorem isSpace_of_mem (c : UInt8) (hc : c ∈ pszBase58) : IsSpace c = false := by
  have hle := nodup_pszBase58_and_le.2 c hc
  cases h : IsSpace c with
  | false => rfl
  | true => exact absurd (toNat_lt_of_isSpace h) (by omega)

theorem ne_zero_of_mem (c : UInt8) (hc : c ∈ pszBase58) : c ≠ 0 := by
  rintro rfl
  have := nodup_pszBase58_and_le.2 0 hc
  simp at this

theorem ne_zero_of_isSpace (c : UInt8) (h : IsSpace c = true) : c ≠ 0 := by
  rintro rfl
  have := toNat_lt_of_isSpace h
  exact absurd h (by decide)

theorem one_mem : Char.toUInt8 '1' ∈ pszBase58 := by
  rw [pszBase58_eq_cons]
  exact List.mem_cons_self

@[simp] theorem digit_one : digit (Char.toUInt8 '1') = 0 := by
  rw [digit, pszBase58_eq_cons, List.idxOf_cons_self]

/-- '1' is the letter of the digit zero. -/
theorem eq_one_iff_digit_eq_zero (c : UInt8) : (c == Char.toUInt8 '1') = (digit c == 0) := by
  rw [digit, pszBase58_eq_cons, List.idxOf_cons]
  by_cases h : c = Char.toUInt8 '1'
  · subst h
    simp
  · have h' : (Char.toUInt8 '1' == c) = false := by
      rw [beq_eq_false_iff_ne]
      exact Ne.symm h
    simp [h, h']

/-! ### The buffer -/

/-- The buffer size is exact while it fits an `int`. -/
theorem toInt_bufferSize {n num den : ℕ} (hn : n < 2 ^ 32) (hnum : num < 2 ^ 32)
    (hden : den < 2 ^ 32) (h : n * num / den + 1 < 2 ^ 31) :
    (bufferSize n num den).toInt = ((n * num / den + 1 : ℕ) : ℤ) := by
  have hmul : n * num < 2 ^ 64 :=
    calc n * num < 2 ^ 32 * 2 ^ 32 := Nat.mul_lt_mul'' hn hnum
      _ = 2 ^ 64 := by norm_num
  set u := n.toUInt64 * num.toUInt64 / den.toUInt64 + 1
  have hu : u.toNat = n * num / den + 1 := by
    simp only [u, UInt64.toNat_add, UInt64.toNat_div, UInt64.toNat_mul, Nat.toUInt64_eq,
      UInt64.toNat_ofNat', UInt64.reduceToNat]
    rw [Nat.mod_eq_of_lt (by omega : n < 2 ^ 64), Nat.mod_eq_of_lt (by omega : num < 2 ^ 64),
      Nat.mod_eq_of_lt (by omega : den < 2 ^ 64), Nat.mod_eq_of_lt hmul]
    exact Nat.mod_eq_of_lt (by omega)
  have h32 : u.toUInt32.toNat = n * num / den + 1 := by
    rw [UInt64.toNat_toUInt32, hu]
    omega
  calc (bufferSize n num den).toInt = u.toUInt32.toBitVec.toInt := rfl
    _ = u.toUInt32.toNat := by
      rw [BitVec.toInt_eq_toNat_of_lt (by simp only [UInt32.toNat_toBitVec] at h32 ⊢; omega)]
      rfl
    _ = _ := by rw [h32]

theorem allocBuffer_of_nonneg (B : ℕ) {size : Int32} (h : 0 ≤ size.toInt) :
    allocBuffer size = .ok (Radix.padded B 0 size.toInt.toNat) := by
  rw [allocBuffer, if_neg (by rw [Int32.lt_iff_toInt_lt]; simpa using h), Radix.padded_zero]
  rfl

/-- `log 58 / log 256 ≤ 733 / 1000`: the estimate the decoder sizes its buffer by. -/
theorem pow_58_le_pow_256 : (58 : ℕ) ^ 1000 ≤ 256 ^ 733 := by
  decide +kernel

/-- `log 256 / log 58 ≤ 138 / 100`: the estimate the encoder sizes its buffer by. -/
theorem pow_256_le_pow_58 : (256 : ℕ) ^ 100 ≤ 58 ^ 138 := by
  decide +kernel

/-- `n * 733 / 1000 + 1` bytes hold every number of `n` base58 digits. -/
theorem room_decode (n : ℕ) : 58 ^ n < 256 ^ (n * 733 / 1000 + 1) :=
  Radix.pow_lt_pow_div_succ (by norm_num) (by norm_num) pow_58_le_pow_256 n

/-- `n * 138 / 100 + 1` base58 digits hold every number of `n` bytes. -/
theorem room_encode (n : ℕ) : 256 ^ n < 58 ^ (n * 138 / 100 + 1) :=
  Radix.pow_lt_pow_div_succ (by norm_num) (by norm_num) pow_256_le_pow_58 n

/-- One pass and its assertion, on a full buffer holding `R`: the buffer then holds `M * R + c`,
or the assertion fails when that does not fit. -/
theorem convertStep_padded {M B R n : ℕ} (hB : 1 < B) (hM : 0 < M) (hR : R < B ^ n) (c : ℕ) :
    convertStep M B (Radix.padded B R n) c (Nat.digits B R).length =
      if M * R + c < B ^ n then
        .ok (Radix.padded B (M * R + c) n, (Nat.digits B (M * R + c)).length)
      else .error "assert(carry == 0)" := by
  obtain ⟨hfit, hover⟩ := Radix.mulAdd_padded hB hM hR c
  by_cases h : M * R + c < B ^ n
  · simp only [convertStep, hfit h, if_pos h]
    rfl
  · simp only [convertStep, if_neg h, if_neg (hover (Nat.le_of_not_lt h))]
    rfl

/-! ### Encoding -/

/-- **The byte loop.** From a buffer of `n` digits holding `R`, the loop leaves the number the
bytes stand for after `R`, or fails its assertion when that number outgrows the buffer. -/
theorem encodeLoop_padded {n : ℕ} (input : List UInt8) :
    ∀ R, R < 58 ^ n →
      encodeLoop input (Radix.padded 58 R n) (Nat.digits 58 R).length =
        if Radix.horner 256 R (input.map UInt8.toNat) < 58 ^ n then
          .ok (Radix.padded 58 (Radix.horner 256 R (input.map UInt8.toNat)) n,
            (Nat.digits 58 (Radix.horner 256 R (input.map UInt8.toNat))).length)
        else .error "assert(carry == 0)" := by
  induction input with
  | nil =>
    intro R hR
    rw [List.map_nil, Radix.horner_nil, if_pos hR]
    rfl
  | cons ch input ih =>
    intro R hR
    rw [encodeLoop, convertStep_padded (by norm_num) (by norm_num) hR, List.map_cons,
      Radix.horner_cons]
    by_cases hfit : 256 * R + ch.toNat < 58 ^ n
    · -- the byte fits: the loop goes on from the new number
      rw [if_pos hfit, Except.ok_bind]
      exact ih _ hfit
    · -- the assertion fails here, and the whole number is no smaller
      have hle := Radix.le_horner (M := 256) (by norm_num) (256 * R + ch.toNat)
        (input.map UInt8.toNat)
      rw [if_neg hfit, Except.error_bind, if_neg (by omega)]

/-- What `EncodeBase58` computes: a '1' for each leading zero byte, then the base58 digits of
the number the other bytes stand for, most significant first. -/
def encodeSpec (input : List UInt8) : List UInt8 :=
  List.replicate (input.takeWhile (· == 0)).length (Char.toUInt8 '1') ++
    (Nat.digits 58 (Radix.horner 256 0 ((input.dropWhile (· == 0)).map UInt8.toNat))).reverse.map
      base58Char

/-- **`EncodeBase58` refines `encodeSpec`** whenever its buffer size fits an `int`: the buffer of
`n * 138 / 100 + 1` digits holds every number of `n` bytes, so the assertion never fails. -/
theorem EncodeBase58_eq (input : List UInt8) (h : input.length * 138 / 100 + 1 < 2 ^ 31) :
    EncodeBase58 input = .ok (encodeSpec input) := by
  set rest := input.dropWhile (· == 0)
  have hrest : rest.length ≤ input.length := List.length_dropWhile_le _ _
  have hsize : (bufferSize rest.length 138 100).toInt = ((rest.length * 138 / 100 + 1 : ℕ) : ℤ) :=
    toInt_bufferSize (by omega) (by norm_num) (by norm_num) (by omega)
  -- the number the bytes stand for fits the buffer
  have hV : Radix.horner 256 0 (rest.map UInt8.toNat) < 58 ^ (rest.length * 138 / 100 + 1) :=
    calc Radix.horner 256 0 (rest.map UInt8.toNat)
        < (0 + 1) * 256 ^ (rest.map UInt8.toNat).length :=
          Radix.horner_lt (by norm_num) 0 (by
            simp only [List.mem_map]
            rintro _ ⟨a, -, rfl⟩
            exact a.toNat_lt)
      _ = 256 ^ rest.length := by rw [Nat.zero_add, Nat.one_mul, List.length_map]
      _ < 58 ^ (rest.length * 138 / 100 + 1) := room_encode _
  have hloop := encodeLoop_padded (n := rest.length * 138 / 100 + 1) rest 0
    (Nat.pow_pos (by norm_num))
  rw [Nat.digits_zero, List.length_nil, if_pos hV] at hloop
  unfold EncodeBase58
  dsimp only
  rw [allocBuffer_of_nonneg 58 (by rw [hsize]; omega), Except.ok_bind, hsize, Int.toNat_natCast,
    hloop, Except.ok_bind, Radix.take_padded]
  rw [dropWhile_eq_self_of_head fun x hx => by simpa using Radix.head?_reverse_digits _ x hx]
  rfl

example : EncodeBase58 [0, 0, 40, 127, 98] = .ok ("11EbxV".toList.map Char.toUInt8) := by
  decide

/-! ### Decoding -/

/-- The number that letters stand for, read after the number `R`. -/
def base58Value (R : ℕ) (w : List UInt8) : ℕ :=
  Radix.horner 58 R (w.map digit)

/-- What the character loop computes from the number `R` read so far, without the buffer. The
characters up to the first space must be letters, and the bytes of their number with `zeroes`
more must fit in `max_ret_len` (checked once a letter has been read). Returns the number and the
rest of the string. -/
def readWord (zeroes : ℕ) (max_ret_len : Int32) (R : ℕ) (psz : List UInt8) :
    Option (ℕ × List UInt8) :=
  let w := psz.takeWhile (fun c => !IsSpace c)
  if (∀ c ∈ w, c ∈ pszBase58) ∧
      (w = [] ∨ ((Nat.digits 256 (base58Value R w)).length + zeroes : ℤ) ≤ max_ret_len.toInt) then
    some (base58Value R w, psz.dropWhile (fun c => !IsSpace c))
  else none

section readWord

variable {zeroes : ℕ} {max_ret_len : Int32} {R : ℕ} {c : UInt8} {psz : List UInt8}

@[simp] theorem readWord_nil : readWord zeroes max_ret_len R [] = some (R, []) := by
  simp [readWord, base58Value]

theorem readWord_space (h : IsSpace c = true) :
    readWord zeroes max_ret_len R (c :: psz) = some (R, c :: psz) := by
  simp [readWord, base58Value, h]

theorem readWord_not_mem (hs : IsSpace c = false) (h : c ∉ pszBase58) :
    readWord zeroes max_ret_len R (c :: psz) = none := by
  simp [readWord, hs, h]

/-- A letter that makes the result too long ends the loop: no later letter makes it shorter. -/
theorem readWord_over (hs : IsSpace c = false)
    (hmax : max_ret_len.toInt < (Nat.digits 256 (58 * R + digit c)).length + zeroes) :
    readWord zeroes max_ret_len R (c :: psz) = none := by
  have hmono := Nat.le_length_digits_le 256 _ _ (Radix.le_horner (M := 58) (by norm_num)
    (58 * R + digit c) ((psz.takeWhile (fun c => !IsSpace c)).map digit))
  simp only [readWord, List.takeWhile_cons, hs, Bool.not_false, if_true, base58Value,
    List.map_cons, Radix.horner_cons]
  rw [if_neg]
  rintro ⟨-, hnil | hle⟩
  · exact List.cons_ne_nil _ _ hnil
  · omega

/-- A letter that keeps the result short enough is multiplied in. -/
theorem readWord_cons (hs : IsSpace c = false) (hc : c ∈ pszBase58)
    (hmax : ¬ max_ret_len.toInt < (Nat.digits 256 (58 * R + digit c)).length + zeroes) :
    readWord zeroes max_ret_len R (c :: psz) = readWord zeroes max_ret_len (58 * R + digit c) psz := by
  simp only [readWord, List.takeWhile_cons, hs, Bool.not_false, if_true, base58Value,
    List.map_cons, Radix.horner_cons, List.dropWhile_cons, List.forall_mem_cons]
  -- the length check of this letter is the one a word of it alone needs
  congr 1
  apply propext
  constructor
  · rintro ⟨⟨-, hw⟩, hnil | hle⟩
    · exact absurd hnil (List.cons_ne_nil _ _)
    · exact ⟨hw, Or.inr hle⟩
  · rintro ⟨hw, hnil | hle⟩
    · refine ⟨⟨hc, hw⟩, Or.inr ?_⟩
      rw [hnil, List.map_nil, Radix.horner_nil]
      omega
    · exact ⟨⟨hc, hw⟩, Or.inr hle⟩

end readWord

/-- **The character loop.** From a buffer of `n` digits holding `R`, with room for every
character left, the loop computes `readWord` in the buffer, and its assertion never fails. -/
theorem decodeLoop_padded (zeroes : ℕ) (max_ret_len : Int32) {n : ℕ} (psz : List UInt8) :
    ∀ R, (R + 1) * 58 ^ psz.length ≤ 256 ^ n →
      decodeLoop zeroes max_ret_len psz (Radix.padded 256 R n) (Nat.digits 256 R).length =
        .ok ((readWord zeroes max_ret_len R psz).map
          fun r => (Radix.padded 256 r.1 n, (Nat.digits 256 r.1).length, r.2)) := by
  induction psz with
  | nil =>
    intro R _
    rw [readWord_nil]
    rfl
  | cons c psz ih =>
    intro R hroom
    by_cases hs : IsSpace c = true
    · rw [decodeLoop, if_pos hs, readWord_space hs]
      rfl
    have hs' : IsSpace c = false := by simpa using hs
    rw [decodeLoop, if_neg hs, mapBase58_spec]
    by_cases hc : c ∈ pszBase58
    · rw [if_pos hc, if_neg (by omega), Int.toNat_natCast]
      -- room for this letter, and for the rest after it
      have h58 : 58 * R + digit c + 1 ≤ (R + 1) * 58 := by
        have := digit_lt hc
        omega
      have hroom' : (58 * R + digit c + 1) * 58 ^ psz.length ≤ 256 ^ n :=
        calc (58 * R + digit c + 1) * 58 ^ psz.length
            ≤ (R + 1) * 58 * 58 ^ psz.length := Nat.mul_le_mul_right _ h58
          _ = (R + 1) * 58 ^ (c :: psz).length := by rw [List.length_cons, pow_succ']; ring
          _ ≤ 256 ^ n := hroom
      have hfit : 58 * R + digit c < 256 ^ n :=
        calc 58 * R + digit c < 58 * R + digit c + 1 := Nat.lt_succ_self _
          _ ≤ (58 * R + digit c + 1) * 58 ^ psz.length := Nat.le_mul_of_pos_right _ (by positivity)
          _ ≤ 256 ^ n := hroom'
      rw [convertStep_padded (by norm_num) (by norm_num) (by omega), if_pos hfit, Except.ok_bind]
      by_cases hmax : max_ret_len.toInt < (Nat.digits 256 (58 * R + digit c)).length + zeroes
      · rw [if_pos hmax, readWord_over hs' hmax]
        rfl
      · rw [if_neg hmax, readWord_cons hs' hc hmax]
        exact ih _ hroom'
    · rw [if_neg hc, if_pos rfl, readWord_not_mem hs' hc]
      rfl

/-- What `DecodeBase58` computes, without the buffer: spaces, then `zeroes` '1's, then letters
up to a space, then only spaces. The result is `zeroes` zero bytes and the big-endian bytes of
the letters' number; the loops return `false` at the first '1' or letter past `max_ret_len`. -/
def decodeSpec (str : List UInt8) (max_ret_len : Int32) : Option (List UInt8) :=
  let psz := str.dropWhile IsSpace
  let zeroes := (psz.takeWhile (· == Char.toUInt8 '1')).length
  if zeroes ≠ 0 ∧ max_ret_len.toInt < zeroes then none
  else match readWord zeroes max_ret_len 0 (psz.dropWhile (· == Char.toUInt8 '1')) with
    | none => none
    | some (V, post) =>
      if post.dropWhile IsSpace ≠ [] then none
      else some (List.replicate zeroes 0 ++ (Nat.digits 256 V).reverse.map Nat.toUInt8)

/-- The '1' loop counts the leading '1's, and returns `false` when there is one and their count
passes `max_ret_len`. -/
theorem countOnes_eq (max_ret_len : Int32) (psz : List UInt8) : ∀ zeroes : ℕ,
    countOnes max_ret_len psz zeroes =
      if (psz.takeWhile (· == Char.toUInt8 '1')).length ≠ 0 ∧
          max_ret_len.toInt < ((zeroes + (psz.takeWhile (· == Char.toUInt8 '1')).length : ℕ) : ℤ)
      then none
      else some (zeroes + (psz.takeWhile (· == Char.toUInt8 '1')).length,
        psz.dropWhile (· == Char.toUInt8 '1')) := by
  induction psz with
  | nil => intro zeroes; simp [countOnes]
  | cons c psz ih =>
    intro zeroes
    by_cases hc : (c == Char.toUInt8 '1') = true
    · simp only [countOnes, hc, if_true, List.takeWhile_cons, List.dropWhile_cons, List.length_cons]
      by_cases hmax : max_ret_len.toInt < zeroes + 1
      · rw [if_pos hmax, if_pos ⟨by omega, by omega⟩]
      · -- past this '1' the count goes on, one higher
        rw [if_neg hmax, ih (zeroes + 1)]
        split_ifs with h₁ h₂ h₂
        · rfl
        · exact (h₂ ⟨by omega, by omega⟩).elim
        · omega
        · rw [Nat.add_assoc, Nat.add_comm 1]
    · have hc' : (c == Char.toUInt8 '1') = false := by simpa using hc
      simp [countOnes, hc']

/-- **`DecodeBase58` on a C string refines `decodeSpec`** whenever its buffer size fits an
`int`: the buffer of `n * 733 / 1000 + 1` bytes holds every number of `n` letters, so the
assertion never fails. -/
theorem DecodeBase58CStr_eq (psz : List UInt8) (max_ret_len : Int32)
    (h : psz.length * 733 / 1000 + 1 < 2 ^ 31) :
    DecodeBase58CStr psz max_ret_len = .ok (decodeSpec psz max_ret_len) := by
  unfold DecodeBase58CStr decodeSpec
  dsimp only
  rw [countOnes_eq, Nat.zero_add]
  split_ifs with hk
  · rfl
  set rest := (psz.dropWhile IsSpace).dropWhile (· == Char.toUInt8 '1')
  have hrest : rest.length ≤ psz.length :=
    calc rest.length ≤ (psz.dropWhile IsSpace).length := List.length_dropWhile_le _ _
      _ ≤ psz.length := List.length_dropWhile_le _ _
  -- the size is read from the string after its '1's, which is no longer than the whole
  have hsize' : rest.length * 733 / 1000 + 1 < 2 ^ 31 := lt_of_le_of_lt (by gcongr) h
  have hsize : (bufferSize rest.length 733 1000).toInt = ((rest.length * 733 / 1000 + 1 : ℕ) : ℤ) :=
    toInt_bufferSize (by clear hk h hrest; omega) (by norm_num) (by norm_num) hsize'
  -- every number of `rest.length` letters fits the buffer
  have hroom : (0 + 1) * 58 ^ rest.length ≤ 256 ^ (rest.length * 733 / 1000 + 1) := by
    rw [Nat.zero_add, Nat.one_mul]
    exact (room_decode _).le
  have hloop := decodeLoop_padded (psz.dropWhile IsSpace |>.takeWhile (· == Char.toUInt8 '1')).length
    max_ret_len rest 0 hroom
  rw [Nat.digits_zero, List.length_nil] at hloop
  simp only
  rw [allocBuffer_of_nonneg 256 (by rw [hsize]; positivity), Except.ok_bind, hsize,
    Int.toNat_natCast, hloop, Except.ok_bind]
  cases readWord _ max_ret_len 0 rest with
  | none => rfl
  | some r =>
    obtain ⟨V, post⟩ := r
    simp only [Option.map_some]
    rw [Radix.take_padded]
    split_ifs <;> rfl

/-- '1's in front of letters do not change their number. -/
theorem base58Value_ones (k : ℕ) (w : List UInt8) :
    base58Value 0 (List.replicate k (Char.toUInt8 '1') ++ w) = base58Value 0 w := by
  rw [base58Value, base58Value, List.map_append, List.map_replicate, digit_one,
    Radix.horner_zero_replicate]

/-- **The strings `decodeSpec` accepts**: spaces, `k` '1's, letters that do not start with a
'1', and spaces. The result is `k` zero bytes and the bytes of the letters' number. -/
theorem decodeSpec_eq_some {str : List UInt8} {max_ret_len : Int32} {r : List UInt8}
    (h : decodeSpec str max_ret_len = some r) :
    ∃ k w post, str = str.takeWhile IsSpace ++ (List.replicate k (Char.toUInt8 '1') ++ w ++ post) ∧
      (∀ c ∈ w, c ∈ pszBase58) ∧ (∀ c ∈ w.head?, c ≠ Char.toUInt8 '1') ∧
      (∀ c ∈ post, IsSpace c) ∧ (k ≠ 0 → (k : ℤ) ≤ max_ret_len.toInt) ∧
      (w ≠ [] → ((Nat.digits 256 (base58Value 0 w)).length + k : ℤ) ≤ max_ret_len.toInt) ∧
      r = List.replicate k 0 ++ (Nat.digits 256 (base58Value 0 w)).reverse.map Nat.toUInt8 := by
  unfold decodeSpec at h
  dsimp only at h
  set psz := str.dropWhile IsSpace
  set rest := psz.dropWhile (· == Char.toUInt8 '1')
  set k := (psz.takeWhile (· == Char.toUInt8 '1')).length
  split_ifs at h with hk
  cases hw : readWord k max_ret_len 0 rest with
  | none =>
    rw [hw] at h
    cases h
  | some p =>
    obtain ⟨V, post⟩ := p
    rw [hw] at h
    dsimp only at h
    split_ifs at h with hpost
    cases h
    unfold readWord at hw
    dsimp only at hw
    split_ifs at hw with hcond
    cases hw
    refine ⟨k, rest.takeWhile (fun c => !IsSpace c), rest.dropWhile (fun c => !IsSpace c), ?_,
      hcond.1, ?_, ?_, fun hk0 => by omega, fun hne => hcond.2.resolve_left hne, rfl⟩
    · -- the string is its leading spaces, its '1's, its letters and the rest
      have e1 : psz.takeWhile (· == Char.toUInt8 '1') ++ rest = psz := List.takeWhile_append_dropWhile
      rw [takeWhile_beq_eq_replicate] at e1
      have e2 : rest.takeWhile (fun c => !IsSpace c) ++ rest.dropWhile (fun c => !IsSpace c) = rest :=
        List.takeWhile_append_dropWhile
      calc str = str.takeWhile IsSpace ++ psz := List.takeWhile_append_dropWhile.symm
        _ = str.takeWhile IsSpace ++ (List.replicate k (Char.toUInt8 '1') ++ rest) := by rw [← e1]
        _ = _ := by rw [List.append_assoc, e2]
    · -- the letters start where the '1's end
      intro c hc
      rw [List.head?_takeWhile, Option.mem_def, Option.filter_eq_some_iff] at hc
      simpa using head_dropWhile psz c hc.1
    · rw [Ne, not_not, List.dropWhile_eq_nil_iff] at hpost
      exact hpost

/-- A string that `decodeSpec` accepts has no NUL: every byte is a space, a '1' or a letter. -/
theorem containsNoNUL_of_decodeSpec {str : List UInt8} {max_ret_len : Int32} {r : List UInt8}
    (h : decodeSpec str max_ret_len = some r) : ContainsNoNUL str = true := by
  obtain ⟨k, w, post, hstr, hw, -, hpost, -⟩ := decodeSpec_eq_some h
  rw [ContainsNoNUL, List.all_eq_true, hstr]
  intro c hc
  simp only [List.mem_append, List.mem_replicate] at hc
  rw [bne_iff_ne, ne_eq]
  rcases hc with hc | (⟨-, rfl⟩ | hc) | hc
  · exact ne_zero_of_isSpace c (List.mem_takeWhile_imp hc)
  · exact ne_zero_of_mem _ one_mem
  · exact ne_zero_of_mem c (hw c hc)
  · exact ne_zero_of_isSpace c (hpost c hc)

/-- **`DecodeBase58` refines `decodeSpec`** whenever its buffer size fits an `int`. -/
theorem DecodeBase58_eq (str : List UInt8) (max_ret_len : Int32)
    (h : str.length * 733 / 1000 + 1 < 2 ^ 31) :
    DecodeBase58 str max_ret_len = .ok (decodeSpec str max_ret_len) := by
  rw [DecodeBase58]
  split_ifs with hnul
  · -- a NUL is refused before decoding, and `decodeSpec` refuses it too
    cases hd : decodeSpec str max_ret_len with
    | none => rfl
    | some r => simp [containsNoNUL_of_decodeSpec hd] at hnul
  · exact DecodeBase58CStr_eq str max_ret_len h

/-! ### The two directions are inverse -/

/-- Bytes with no leading zero are the bytes of their number. -/
theorem bytes_horner {u : List UInt8} (hu : ∀ x ∈ u.head?, (x == 0) = false) :
    (Nat.digits 256 (Radix.horner 256 0 (u.map UInt8.toNat))).reverse.map Nat.toUInt8 = u := by
  rw [Radix.digits_horner (by norm_num) (fun x hx => by
      obtain ⟨a, -, rfl⟩ := List.mem_map.mp hx
      exact a.toNat_lt) (by
      cases u with
      | nil => simp
      | cons x xs =>
        have hx := hu x rfl
        simp only [List.map_cons, List.head?_cons, ne_eq, Option.some.injEq]
        intro h0
        rw [← UInt8.toNat_inj.mp (h0.trans UInt8.toNat_zero.symm)] at hx
        simp at hx),
    List.reverse_reverse, List.map_map]
  conv_rhs => rw [← List.map_id u]
  exact List.map_congr_left fun x _ => UInt8.ofNat_toNat

/-- The bytes of a number read back as that number. -/
theorem horner_bytes (V : ℕ) :
    Radix.horner 256 0 (((Nat.digits 256 V).reverse.map Nat.toUInt8).map UInt8.toNat) = V := by
  rw [List.map_map]
  have hid : ((Nat.digits 256 V).reverse.map (UInt8.toNat ∘ Nat.toUInt8)) = (Nat.digits 256 V).reverse :=
    (List.map_congr_left fun d hd => by
      have := Nat.digits_lt_base (by norm_num) (List.mem_reverse.mp hd)
      simp [Nat.mod_eq_of_lt this]).trans (List.map_id _)
  rw [hid, Radix.horner_digits]

/-- The letters of digits read back as those digits. -/
theorem map_digit_base58Char {ds : List ℕ} (h : ∀ d ∈ ds, d < 58) :
    (ds.map base58Char).map digit = ds := by
  rw [List.map_map]
  exact (List.map_congr_left fun d hd => digit_base58Char d (h d hd)).trans (List.map_id _)

/-- Letters that do not start with a '1' are the letters of their number. -/
theorem letters_base58Value {w : List UInt8} (hw : ∀ c ∈ w, c ∈ pszBase58)
    (hhead : ∀ c ∈ w.head?, c ≠ Char.toUInt8 '1') :
    (Nat.digits 58 (base58Value 0 w)).reverse.map base58Char = w := by
  rw [base58Value, Radix.digits_horner (by norm_num) (fun d hd => by
      obtain ⟨c, hc, rfl⟩ := List.mem_map.mp hd
      exact digit_lt (hw c hc)) (by
      cases w with
      | nil => simp
      | cons c cs =>
        have h1 := eq_one_iff_digit_eq_zero c
        have h2 := hhead c rfl
        simp only [List.map_cons, List.head?_cons, ne_eq, Option.some.injEq]
        intro h0
        rw [h0] at h1
        simp at h1
        exact h2 h1), List.reverse_reverse, List.map_map]
  conv_rhs => rw [← List.map_id w]
  exact List.map_congr_left fun c hc => base58Char_digit (hw c hc)

/-- The letters of a number, most significant first: no '1' in front, no space. -/
theorem mem_letters {V : ℕ} {c : UInt8} (hc : c ∈ (Nat.digits 58 V).reverse.map base58Char) :
    c ∈ pszBase58 := by
  obtain ⟨d, hd, rfl⟩ := List.mem_map.mp hc
  exact base58Char_mem d (Nat.digits_lt_base (by norm_num) (List.mem_reverse.mp hd))

theorem head_letters (V : ℕ) :
    ∀ c ∈ ((Nat.digits 58 V).reverse.map base58Char).head?, (c == Char.toUInt8 '1') = false := by
  intro c hc
  rw [List.head?_map] at hc
  obtain ⟨d, hd, rfl⟩ := Option.mem_map.mp hc
  have hd58 : d < 58 :=
    Nat.digits_lt_base (by norm_num) (List.mem_reverse.mp (List.mem_of_mem_head? hd))
  rw [eq_one_iff_digit_eq_zero, digit_base58Char d hd58]
  simpa using Radix.head?_reverse_digits _ d hd

/-- Letters followed by a space or by the end are read whole, and the rest is what follows. -/
theorem readWord_append {zeroes : ℕ} {max_ret_len : Int32} {R : ℕ} {w post : List UInt8}
    (hw : ∀ c ∈ w, c ∈ pszBase58) (hpost : ∀ c ∈ post.head?, IsSpace c = true)
    (hmax : w = [] ∨
      ((Nat.digits 256 (base58Value R w)).length + zeroes : ℤ) ≤ max_ret_len.toInt) :
    readWord zeroes max_ret_len R (w ++ post) = some (base58Value R w, post) := by
  have hsp : ∀ c ∈ w, (!IsSpace c) = true := fun c hc => by simp [isSpace_of_mem c (hw c hc)]
  have hstop : ∀ c ∈ post.head?, (!IsSpace c) = false := fun c hc => by simp [hpost c hc]
  rw [readWord, takeWhile_append_of_head hstop, dropWhile_append_of_head hstop,
    List.takeWhile_eq_self_iff.mpr hsp, List.dropWhile_eq_nil_iff.mpr hsp, List.nil_append,
    if_pos ⟨hw, hmax⟩]

/-- **Decoding inverts encoding**, for a result of at most `max_ret_len` bytes. -/
theorem decodeSpec_encodeSpec (v : List UInt8) (max_ret_len : Int32)
    (hmax : (v.length : ℤ) ≤ max_ret_len.toInt) :
    decodeSpec (encodeSpec v) max_ret_len = some v := by
  set z := (v.takeWhile (· == 0)).length
  set u := v.dropWhile (· == 0)
  set V := Radix.horner 256 0 (u.map UInt8.toNat)
  set L := (Nat.digits 58 V).reverse.map base58Char
  have henc : encodeSpec v = List.replicate z (Char.toUInt8 '1') ++ L := rfl
  have hall : ∀ c ∈ List.replicate z (Char.toUInt8 '1') ++ L, c ∈ pszBase58 := by
    intro c hc
    rcases List.mem_append.mp hc with hc | hc
    · rw [(List.mem_replicate.mp hc).2]
      exact one_mem
    · exact mem_letters hc
  have hz : z + u.length = v.length := by
    rw [← List.length_append, List.takeWhile_append_dropWhile]
  have hbytes : (Nat.digits 256 V).length ≤ u.length :=
    Radix.length_digits_le_of_lt (by norm_num) (by
      calc V < (0 + 1) * 256 ^ (u.map UInt8.toNat).length :=
            Radix.horner_lt (by norm_num) 0 (fun x hx => by
              obtain ⟨a, -, rfl⟩ := List.mem_map.mp hx
              exact a.toNat_lt)
        _ = 256 ^ u.length := by rw [Nat.zero_add, Nat.one_mul, List.length_map])
  have hV : base58Value 0 L = V := by
    rw [base58Value, map_digit_base58Char fun d hd =>
      Nat.digits_lt_base (by norm_num) (List.mem_reverse.mp hd), Radix.horner_digits]
  have hones : ∀ c ∈ List.replicate z (Char.toUInt8 '1'), (c == Char.toUInt8 '1') = true := by
    intro c hc
    rw [(List.mem_replicate.mp hc).2, beq_self_eq_true]
  have hread : readWord z max_ret_len 0 (L ++ []) = some (base58Value 0 L, []) :=
    readWord_append (fun c hc => mem_letters hc) (fun c hc => by simp at hc)
      (Or.inr (by rw [hV]; omega))
  rw [List.append_nil, hV] at hread
  rw [henc, decodeSpec]
  rw [dropWhile_eq_self_of_head fun c hc =>
      isSpace_of_mem c (hall c (List.mem_of_mem_head? hc)),
    List.takeWhile_append_of_pos hones, takeWhile_eq_nil_of_head (head_letters V),
    List.dropWhile_append_of_pos hones, dropWhile_eq_self_of_head (head_letters V),
    List.append_nil, List.length_replicate, if_neg (by omega),
    hread]
  simp only [List.dropWhile_nil, ne_eq, not_true_eq_false, if_false, Option.some.injEq]
  rw [bytes_horner (head_dropWhile v)]
  calc List.replicate z 0 ++ u = v.takeWhile (· == 0) ++ u := by
        rw [takeWhile_beq_eq_replicate 0 v]
    _ = v := List.takeWhile_append_dropWhile

/-- **Encoding inverts decoding** on a string with no space before or after it: base58 is
canonical. -/
theorem encodeSpec_decodeSpec {str : List UInt8} {max_ret_len : Int32} {r : List UInt8}
    (h : decodeSpec str max_ret_len = some r)
    (hfirst : ∀ c ∈ str.head?, IsSpace c = false) (hlast : ∀ c ∈ str.getLast?, IsSpace c = false) :
    encodeSpec r = str := by
  obtain ⟨k, w, post, hstr, hw, hhead, hpost, -, -, rfl⟩ := decodeSpec_eq_some h
  rw [takeWhile_eq_nil_of_head hfirst, List.nil_append] at hstr
  -- nothing after the letters: it would end the string with a space
  have hpost0 : post = [] := by
    by_contra hne
    obtain ⟨c, hc⟩ := Option.ne_none_iff_exists'.mp (mt List.getLast?_eq_none_iff.mp hne)
    have hs := hpost c (List.mem_of_getLast? hc)
    rw [hstr, List.getLast?_append_of_ne_nil _ hne] at hlast
    rw [hlast c hc] at hs
    cases hs
  rw [hpost0, List.append_nil] at hstr
  set B := (Nat.digits 256 (base58Value 0 w)).reverse.map Nat.toUInt8
  have hB : ∀ x ∈ B.head?, (x == 0) = false := by
    intro x hx
    rw [List.head?_map] at hx
    obtain ⟨d, hd, rfl⟩ := Option.mem_map.mp hx
    have h256 := Nat.digits_lt_base (by norm_num) (List.mem_reverse.mp (List.mem_of_mem_head? hd))
    have h0 := Radix.head?_reverse_digits _ d hd
    simp only [beq_eq_false_iff_ne, ne_eq]
    intro h
    have := congrArg UInt8.toNat h
    simp [Nat.mod_eq_of_lt h256] at this
    exact h0 this
  have hzeros : ∀ x ∈ List.replicate k (0 : UInt8), (x == 0) = true := by
    intro x hx
    rw [(List.mem_replicate.mp hx).2, beq_self_eq_true]
  rw [encodeSpec, List.takeWhile_append_of_pos hzeros, takeWhile_eq_nil_of_head hB,
    List.dropWhile_append_of_pos hzeros, dropWhile_eq_self_of_head hB, List.append_nil,
    List.length_replicate, horner_bytes, letters_base58Value hw hhead, hstr]

/-! ### When decoding succeeds -/

/-- The length of what a word of letters decodes to: a zero byte for each leading '1', then the
bytes of its number. -/
def decodedLength (w : List UInt8) : ℕ :=
  (w.takeWhile (· == Char.toUInt8 '1')).length + (Nat.digits 256 (base58Value 0 w)).length

/-- A space is not a '1'. -/
theorem beq_one_of_isSpace {c : UInt8} (h : IsSpace c = true) :
    (c == Char.toUInt8 '1') = false := by
  have hlt := toNat_lt_of_isSpace h
  rw [beq_eq_false_iff_ne]
  rintro rfl
  exact absurd hlt (by decide)

theorem decodedLength_ones (k : ℕ) {w : List UInt8} (hhead : ∀ c ∈ w.head?, c ≠ Char.toUInt8 '1') :
    decodedLength (List.replicate k (Char.toUInt8 '1') ++ w) =
      k + (Nat.digits 256 (base58Value 0 w)).length := by
  have hones : ∀ c ∈ List.replicate k (Char.toUInt8 '1'), (c == Char.toUInt8 '1') = true := by
    intro c hc
    rw [(List.mem_replicate.mp hc).2, beq_self_eq_true]
  rw [decodedLength, List.takeWhile_append_of_pos hones,
    takeWhile_eq_nil_of_head fun c hc => by simpa using hhead c hc, List.append_nil,
    List.length_replicate, base58Value_ones]

/-- Only spaces: nothing to decode, and nothing to check. -/
theorem decodeSpec_of_spaces {str : List UInt8} (max_ret_len : Int32)
    (hsp : ∀ c ∈ str, IsSpace c = true) : decodeSpec str max_ret_len = some [] := by
  rw [decodeSpec, List.dropWhile_eq_nil_iff.mpr hsp]
  simp

/-- Spaces, a word of letters short enough for `max_ret_len`, and spaces: the word is decoded. -/
theorem decodeSpec_of_word {pre word post : List UInt8} {max_ret_len : Int32}
    (hpre : ∀ c ∈ pre, IsSpace c = true) (hpost : ∀ c ∈ post, IsSpace c = true)
    (hword : ∀ c ∈ word, c ∈ pszBase58) (hne : word ≠ [])
    (hlen : (decodedLength word : ℤ) ≤ max_ret_len.toInt) :
    ∃ r, decodeSpec (pre ++ word ++ post) max_ret_len = some r := by
  -- the word is its '1's and the letters after them
  have hsplit : word.takeWhile (· == Char.toUInt8 '1') ++ word.dropWhile (· == Char.toUInt8 '1') =
      word := List.takeWhile_append_dropWhile
  rw [takeWhile_beq_eq_replicate] at hsplit
  have hw : ∀ c ∈ word.dropWhile (· == Char.toUInt8 '1'), c ∈ pszBase58 :=
    fun c hc => hword c ((List.dropWhile_suffix _).subset hc)
  have hwhead : ∀ c ∈ (word.dropWhile (· == Char.toUInt8 '1')).head?, c ≠ Char.toUInt8 '1' :=
    fun c hc => by simpa using head_dropWhile word c hc
  have hdl := decodedLength_ones (word.takeWhile (· == Char.toUInt8 '1')).length hwhead
  rw [hsplit] at hdl
  -- the word starts with a letter, and the spaces after it are neither letters nor '1's
  have hfirst : ∀ c ∈ (word ++ post).head?, IsSpace c = false := by
    intro c hc
    rw [List.head?_append_of_ne_nil _ hne] at hc
    exact isSpace_of_mem c (hword c (List.mem_of_mem_head? hc))
  have hpost1 : ∀ c ∈ post.head?, (c == Char.toUInt8 '1') = false :=
    fun c hc => beq_one_of_isSpace (hpost c (List.mem_of_mem_head? hc))
  have hread : readWord (word.takeWhile (· == Char.toUInt8 '1')).length max_ret_len 0
      (word.dropWhile (· == Char.toUInt8 '1') ++ post) =
      some (base58Value 0 (word.dropWhile (· == Char.toUInt8 '1')), post) :=
    readWord_append hw (fun c hc => hpost c (List.mem_of_mem_head? hc))
      (Or.inr (by rw [hdl] at hlen; push_cast at hlen ⊢; omega))
  refine ⟨List.replicate (word.takeWhile (· == Char.toUInt8 '1')).length 0 ++
    (Nat.digits 256 (base58Value 0 (word.dropWhile (· == Char.toUInt8 '1')))).reverse.map
      Nat.toUInt8, ?_⟩
  rw [decodeSpec, List.append_assoc, List.dropWhile_append_of_pos hpre,
    dropWhile_eq_self_of_head hfirst, takeWhile_append_of_head hpost1,
    dropWhile_append_of_head hpost1, if_neg (by rw [hdl] at hlen; push_cast at hlen; omega), hread]
  simp only
  rw [if_neg (by rw [List.dropWhile_eq_nil_iff.mpr hpost]; exact not_not.mpr rfl)]

/-- **When decoding succeeds**, for a non-negative `max_ret_len`: the string is spaces, a word of
letters and spaces, and the word decodes to at most `max_ret_len` bytes. -/
theorem decodeSpec_isSome_iff (str : List UInt8) (max_ret_len : Int32)
    (h0 : 0 ≤ max_ret_len.toInt) :
    (∃ r, decodeSpec str max_ret_len = some r) ↔
      ∃ pre word post, str = pre ++ word ++ post ∧ (∀ c ∈ pre, IsSpace c) ∧
        (∀ c ∈ post, IsSpace c) ∧ (∀ c ∈ word, c ∈ pszBase58) ∧
        (decodedLength word : ℤ) ≤ max_ret_len.toInt := by
  constructor
  · rintro ⟨r, h⟩
    obtain ⟨k, w, post, hstr, hw, hhead, hpost, hk, hwmax, -⟩ := decodeSpec_eq_some h
    refine ⟨str.takeWhile IsSpace, List.replicate k (Char.toUInt8 '1') ++ w, post, ?_,
      fun c hc => List.mem_takeWhile_imp hc, hpost, ?_, ?_⟩
    · rw [List.append_assoc]
      exact hstr
    · intro c hc
      rcases List.mem_append.mp hc with hc | hc
      · rw [(List.mem_replicate.mp hc).2]
        exact one_mem
      · exact hw c hc
    · -- a word of '1's alone is checked by the '1' loop, a longer one by the letter loop
      rw [decodedLength_ones k hhead]
      by_cases hw0 : w = []
      · subst hw0
        rcases Nat.eq_zero_or_pos k with rfl | hkpos
        · simpa [base58Value] using h0
        · simpa [base58Value] using hk (by omega)
      · have := hwmax hw0
        push_cast
        omega
  · rintro ⟨pre, word, post, hstr, hpre, hpost, hword, hlen⟩
    subst hstr
    by_cases hne : word = []
    · subst hne
      refine ⟨[], decodeSpec_of_spaces max_ret_len fun c hc => ?_⟩
      rcases List.mem_append.mp hc with hc | hc
      · exact hpre c (by simpa using hc)
      · exact hpost c hc
    · exact decodeSpec_of_word hpre hpost hword hne hlen

/-! ### Lengths -/

/-- The letters' number has at most as many bytes as there are letters. -/
theorem length_bytes_le (w : List UInt8) (hw : ∀ c ∈ w, c ∈ pszBase58) :
    (Nat.digits 256 (base58Value 0 w)).length ≤ w.length := by
  apply Radix.length_digits_le_of_lt (by norm_num)
  calc base58Value 0 w < (0 + 1) * 58 ^ (w.map digit).length :=
        Radix.horner_lt (by norm_num) 0 fun d hd => by
          obtain ⟨c, hc, rfl⟩ := List.mem_map.mp hd
          exact digit_lt (hw c hc)
    _ = 58 ^ w.length := by rw [Nat.zero_add, Nat.one_mul, List.length_map]
    _ ≤ 256 ^ w.length := Nat.pow_le_pow_left (by norm_num) _

/-- Decoding never lengthens. -/
theorem length_le_of_decodeSpec {str : List UInt8} {max_ret_len : Int32} {r : List UInt8}
    (h : decodeSpec str max_ret_len = some r) : r.length ≤ str.length := by
  obtain ⟨k, w, post, hstr, hw, -, -, -, -, rfl⟩ := decodeSpec_eq_some h
  have hb := length_bytes_le w hw
  have hs := congrArg List.length hstr
  simp only [List.length_append, List.length_replicate] at hs
  simp only [List.length_append, List.length_replicate, List.length_map, List.length_reverse]
  omega

/-- An encoding has at most `n * 138 / 100 + 1` letters, the size of the encoder's buffer. -/
theorem length_encodeSpec_le (v : List UInt8) :
    (encodeSpec v).length ≤ v.length * 138 / 100 + 1 := by
  rw [encodeSpec, List.length_append, List.length_replicate, List.length_map, List.length_reverse]
  set z := (v.takeWhile (· == 0)).length
  set u := v.dropWhile (· == 0)
  have hz : z + u.length = v.length := by
    rw [← List.length_append, List.takeWhile_append_dropWhile]
  have hV : Radix.horner 256 0 (u.map UInt8.toNat) < 58 ^ (u.length * 138 / 100 + 1) :=
    calc Radix.horner 256 0 (u.map UInt8.toNat)
        < (0 + 1) * 256 ^ (u.map UInt8.toNat).length :=
          Radix.horner_lt (by norm_num) 0 fun x hx => by
            obtain ⟨a, -, rfl⟩ := List.mem_map.mp hx
            exact a.toNat_lt
      _ = 256 ^ u.length := by rw [Nat.zero_add, Nat.one_mul, List.length_map]
      _ < 58 ^ (u.length * 138 / 100 + 1) := room_encode _
  have hd := Radix.length_digits_le_of_lt (by norm_num) hV
  -- a '1' for each zero byte, and at most `138 / 100` letters for each other byte
  have hsum : z * 138 / 100 + u.length * 138 / 100 ≤ (z * 138 + u.length * 138) / 100 :=
    Nat.div_add_div_le_add_div
  rw [← Nat.add_mul, hz] at hsum
  omega

/-! ### Base58Check -/

/-- The limit `DecodeBase58Check` passes on allows the four check bytes. -/
theorem toInt_maxCheck (max_ret_len : Int32) (n : ℕ) (hn : n < 2 ^ 30)
    (hmax : (n : ℤ) ≤ max_ret_len.toInt) :
    ((n + 4 : ℕ) : ℤ) ≤ (if max_ret_len > Int32.maxValue - 4 then Int32.maxValue
      else max_ret_len + 4).toInt := by
  split_ifs with h
  · rw [Int32.toInt_maxValue]
    push_cast
    omega
  · -- no overflow below `INT_MAX - 4`
    rw [gt_iff_lt, Int32.lt_iff_toInt_lt, not_lt] at h
    have hle : max_ret_len.toInt ≤ 2 ^ 31 - 5 := le_trans h (by decide)
    rw [Int32.toInt_add, Int.bmod_eq_of_le (by have := Int32.le_toInt max_ret_len; simp; omega)
      (by simp; omega)]
    push_cast
    simp
    omega

/-- **Base58Check round trip**: for any hash, the check bytes are found again and removed. -/
theorem DecodeBase58Check_EncodeBase58Check (Hash : List UInt8 → Uint256) (v : List UInt8)
    (max_ret_len : Int32) (hv : v.length < 2 ^ 30) (hmax : (v.length : ℤ) ≤ max_ret_len.toInt) :
    (EncodeBase58Check Hash v >>= fun s => DecodeBase58Check Hash s max_ret_len) =
      .ok (some v) := by
  have hcheck : ((Hash v).toList.take 4).length = 4 := by simp
  have hlen : (v ++ (Hash v).toList.take 4).length = v.length + 4 := by
    rw [List.length_append, hcheck]
  have hdec := decodeSpec_encodeSpec (v ++ (Hash v).toList.take 4) _
    (hlen ▸ toInt_maxCheck max_ret_len v.length hv hmax)
  have hs := length_encodeSpec_le (v ++ (Hash v).toList.take 4)
  rw [EncodeBase58Check, EncodeBase58_eq _ (by omega), Except.ok_bind, DecodeBase58Check,
    if_neg (by simp [containsNoNUL_of_decodeSpec hdec]), DecodeBase58CheckCStr]
  rw [DecodeBase58CStr_eq _ _ (by omega), hdec, Except.ok_bind]
  simp only
  rw [if_neg (by omega), hlen, Nat.add_sub_cancel, List.take_left' rfl, List.drop_left' rfl,
    if_neg (not_not.mpr rfl)]
  rfl


/-! ### The two directions, with the buffer -/

/-- **Base58 with its buffers.** While the strings are shorter than `2 ^ 30`: decoding inverts
encoding, also with the check bytes; encoding inverts decoding on a string with no space
around it; decoding succeeds exactly on spaces, letters and spaces whose result fits
`max_ret_len`; and neither assertion fails while the buffer size fits an `int`. -/
theorem base58_roundTrip_canonical :
    (∀ (v : List UInt8) (max_ret_len : Int32), v.length < 2 ^ 30 →
      (v.length : ℤ) ≤ max_ret_len.toInt →
      (EncodeBase58 v >>= fun s => DecodeBase58 s max_ret_len) = .ok (some v)) ∧
    (∀ (Hash : List UInt8 → Uint256) (v : List UInt8) (max_ret_len : Int32), v.length < 2 ^ 30 →
      (v.length : ℤ) ≤ max_ret_len.toInt →
      (EncodeBase58Check Hash v >>= fun s => DecodeBase58Check Hash s max_ret_len) =
        .ok (some v)) ∧
    (∀ (s r : List UInt8) (max_ret_len : Int32), s.length < 2 ^ 30 →
      (∀ c ∈ s.head?, IsSpace c = false) → (∀ c ∈ s.getLast?, IsSpace c = false) →
      DecodeBase58 s max_ret_len = .ok (some r) → EncodeBase58 r = .ok s) ∧
    (∀ (s : List UInt8) (max_ret_len : Int32), 0 ≤ max_ret_len.toInt → s.length < 2 ^ 31 →
      ((∃ r, DecodeBase58 s max_ret_len = .ok (some r)) ↔
        ∃ pre word post, s = pre ++ word ++ post ∧ (∀ c ∈ pre, IsSpace c) ∧
          (∀ c ∈ post, IsSpace c) ∧ (∀ c ∈ word, c ∈ pszBase58) ∧
          (decodedLength word : ℤ) ≤ max_ret_len.toInt)) ∧
    (∀ v : List UInt8, v.length * 138 / 100 + 1 < 2 ^ 31 → ∃ s, EncodeBase58 v = .ok s) ∧
    (∀ (s : List UInt8) (max_ret_len : Int32), s.length * 733 / 1000 + 1 < 2 ^ 31 →
      ∃ r, DecodeBase58 s max_ret_len = .ok r) := by
  refine ⟨fun v max_ret_len hv hmax => ?_, fun Hash v max_ret_len hv hmax =>
    DecodeBase58Check_EncodeBase58Check Hash v max_ret_len hv hmax,
    fun s r max_ret_len hs hfirst hlast h => ?_, fun s max_ret_len h0 hs => ?_,
    fun v hv => ⟨_, EncodeBase58_eq v hv⟩, fun s max_ret_len hs => ⟨_, DecodeBase58_eq s max_ret_len hs⟩⟩
  · -- decoding the encoding
    have hlen := length_encodeSpec_le v
    rw [EncodeBase58_eq v (by omega), Except.ok_bind, DecodeBase58_eq _ _ (by omega),
      decodeSpec_encodeSpec v max_ret_len hmax]
  · -- encoding the decoding
    rw [DecodeBase58_eq s max_ret_len (by omega), Except.ok.injEq] at h
    have hr := length_le_of_decodeSpec h
    rw [EncodeBase58_eq r (by omega), encodeSpec_decodeSpec h hfirst hlast]
  · -- when decoding succeeds
    rw [DecodeBase58_eq s max_ret_len (by omega), ← decodeSpec_isSome_iff s max_ret_len h0]
    simp only [Except.ok.injEq]

/-- For a large input the buffer size wraps: `3112295143 * 138 / 100 + 1` is `2 ^ 32 + 2`, which
`int size` holds as `2`, and the assertion fails at the third byte. And with a negative
`max_ret_len` the empty string still decodes, to zero bytes. -/
theorem EncodeBase58_size_wraps :
    EncodeBase58 (1 :: List.replicate 3112295142 0) = .error "assert(carry == 0)" ∧
      DecodeBase58 [] (-1) = .ok (some []) := by
  refine ⟨?_, by decide⟩
  have hsize : bufferSize (1 :: List.replicate 3112295142 (0 : UInt8)).length 138 100 = 2 := by
    rw [List.length_cons, List.length_replicate]
    decide
  have hrep : List.replicate 3112295142 (0 : UInt8) =
      0 :: 0 :: List.replicate 3112295140 0 := by
    rw [← List.replicate_succ, ← List.replicate_succ]
  unfold EncodeBase58
  rw [List.takeWhile_cons_of_neg (by decide), List.dropWhile_cons_of_neg (by decide)]
  dsimp only
  rw [hsize, hrep]
  -- the buffer holds two base58 digits: 1, then 256, then 65536 does not fit
  rfl

end Tenscoin
