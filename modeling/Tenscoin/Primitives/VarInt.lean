import Mathlib
import Tenscoin.Lib.Bytes
import Tenscoin.Primitives.Serialize

/-!
# Variable-length integers

`GetSizeOfVarInt`, `WriteVarInt` and `ReadVarInt` of `serialize.h`: base 128, most significant
digit first, the continuation bit `0x80` on every byte but the last, and one subtracted from
every digit but the last, so that each number has one encoding. The block index on disk
(`CDiskBlockIndex`) stores its heights, status, counts and file positions this way.

The templates are used with an integer type `I` (`IntType`: its size, its sign and so its
maximum). The writer fills a buffer `tmp` of `(sizeof(I) * 8 + 6) / 7` bytes, least significant
digit first, and writes it backwards; the reader refuses a value above the maximum of `I` by two
tests, one before the shift and one before the increment.

The format is `varIntEncoding`, by recursion on the value. The results:

* `WriteVarInt_eq`: for a value of `I` the writer stays inside `tmp` (`GetSizeOfVarInt_le`) and
  writes the encoding, `GetSizeOfVarInt` bytes of it (`writeVarIntTmp_flagged` for its loop);
* `readVarIntLoop_encoding`: on the encoding of `m`, after `a` was read, the reader returns
  `a * 128 ^ k + m` when that is at most the maximum and throws otherwise
  (`readVarIntLoop_flagged` for the digits with the continuation bit); this needs the maximum
  to be `127` modulo `128`, which the maximum of every `I` is (`IntType.max_mod`);
* `readVarIntLoop_canonical`: what the reader accepts is an encoding, through
  `varIntEncoding_prepend`, which puts a digit in front of an encoding.
-/

namespace Tenscoin

open Bytes

/-- An integer type `I` the varint templates are used with: `sizeof(I)`, and whether it is
signed (`VarIntMode::NONNEGATIVE_SIGNED`, used for non-negative values only). -/
structure IntType where
  size : ℕ
  signed : Bool
  size_pos : 0 < size

namespace IntType

/-- `std::numeric_limits<I>::max()`. -/
def max (I : IntType) : ℕ :=
  if I.signed then 2 ^ (8 * I.size - 1) - 1 else 2 ^ (8 * I.size) - 1

/-- The values of `I` are the numbers of fewer than `8 * sizeof(I)` bits. -/
theorem max_lt (I : IntType) : I.max < 2 ^ (8 * I.size) := by
  have h := Nat.one_le_two_pow (n := 8 * I.size - 1)
  have hpow : 2 ^ (8 * I.size - 1) < 2 ^ (8 * I.size) :=
    Nat.pow_lt_pow_right (by norm_num) (by have := I.size_pos; omega)
  unfold max
  split_ifs <;> omega

/-- The maximum of every integer type is `2 ^ k - 1` with `7 ≤ k`: its low seven bits are set. -/
theorem max_mod (I : IntType) : I.max % 128 = 127 := by
  have hk : ∀ k, 7 ≤ k → (2 ^ k - 1) % 128 = 127 := by
    intro k hk
    obtain ⟨j, rfl⟩ : ∃ j, k = j + 7 := ⟨k - 7, by omega⟩
    have h := Nat.one_le_two_pow (n := j)
    rw [pow_add]
    omega
  have := I.size_pos
  unfold max
  split_ifs
  · exact hk _ (by omega)
  · exact hk _ (by omega)

end IntType

/-! ### The code -/

/-- `GetSizeOfVarInt`: one byte for each round of its loop. -/
def GetSizeOfVarInt (n : ℕ) : ℕ :=
  if n ≤ 0x7F then 1 else GetSizeOfVarInt ((n >>> 7) - 1) + 1
termination_by n
decreasing_by
  rw [Nat.shiftRight_eq_div_pow]
  omega

/-- The first loop of `WriteVarInt`: digit `len` of `tmp`, a buffer of `cap` bytes, is the low
seven bits of what is left of the value, with the continuation bit from the second digit on.
A write past the end of `tmp` is undefined; the model fails there. -/
def writeVarIntTmp (cap : ℕ) (n len : ℕ) (tmp : List UInt8) : Except String (List UInt8) :=
  if len < cap then
    let tmp := tmp ++ [UInt8.ofNat (n &&& 0x7F) ||| (if len ≠ 0 then 0x80 else 0x00)]
    if n ≤ 0x7F then pure tmp else writeVarIntTmp cap ((n >>> 7) - 1) (len + 1) tmp
  else throw "WriteVarInt(): tmp[len] past the end of tmp"
termination_by n
decreasing_by
  rw [Nat.shiftRight_eq_div_pow]
  omega

/-- `WriteVarInt<Stream, Mode, I>`: the digits of `tmp`, last first. -/
def WriteVarInt (I : IntType) (n : ℕ) : Except String (List UInt8) := do
  let tmp ← writeVarIntTmp ((I.size * 8 + 6) / 7) n 0 []
  pure tmp.reverse

/-- The failure of `ReadVarInt` on a value above the maximum of its type. -/
def VARINT_TOO_LARGE : String := "ReadVarInt(): size too large"

/-- The loop of `ReadVarInt`, after `n` was read, for a type of maximum `max`. -/
def readVarIntLoop (max : ℕ) (n : ℕ) : List UInt8 → Except String (ℕ × List UInt8)
  | [] => throw END_OF_DATA
  | chData :: rest =>
    if n > max >>> 7 then throw VARINT_TOO_LARGE
    else
      let n := (n <<< 7) ||| (chData.toNat &&& 0x7F)
      if chData.toNat &&& 0x80 ≠ 0 then
        if n = max then throw VARINT_TOO_LARGE
        else readVarIntLoop max (n + 1) rest
      else pure (n, rest)

/-- `ReadVarInt<Stream, Mode, I>`. -/
def ReadVarInt (I : IntType) : Reader ℕ := fun bs =>
  readVarIntLoop I.max 0 bs

/-! ### The format -/

/-- The varint encoding of `n`: below 128 one byte; above, the encoding of `n / 128 - 1` with
the continuation bit on every byte, then the low seven bits of `n`. -/
def varIntEncoding (n : ℕ) : List UInt8 :=
  if n ≤ 0x7F then [UInt8.ofNat n]
  else (varIntEncoding (n / 128 - 1)).map (· ||| 0x80) ++ [UInt8.ofNat (n % 128)]
termination_by n
decreasing_by omega

/-- Setting the continuation bit twice sets it once. -/
@[simp] theorem or80_or80 (b : UInt8) : b ||| 0x80 ||| 0x80 = b ||| 0x80 := by
  rw [UInt8.or_assoc, UInt8.or_self]

theorem map_or80_map_or80 (l : List UInt8) :
    (l.map (· ||| 0x80)).map (· ||| 0x80) = l.map (· ||| 0x80) := by
  simp [List.map_map, Function.comp_def]

/-- The digit bytes: a byte below 128 as it is and with the continuation bit. -/
theorem digit_bytes : ∀ d : Fin 128,
    (UInt8.ofNat d.val).toNat &&& 0x7F = d.val ∧ (UInt8.ofNat d.val).toNat &&& 0x80 = 0 ∧
    (UInt8.ofNat d.val ||| 0x80).toNat &&& 0x7F = d.val ∧
    (UInt8.ofNat d.val ||| 0x80).toNat &&& 0x80 ≠ 0 := by
  decide +kernel

/-- Every byte is a digit, with the continuation bit when it is set. -/
theorem byte_eq_digit : ∀ i : Fin 256, UInt8.ofNat i.val =
    if i.val &&& 0x80 = 0 then UInt8.ofNat (i.val &&& 0x7F)
    else UInt8.ofNat (i.val &&& 0x7F) ||| 0x80 := by
  decide +kernel

theorem and7F_eq_mod (n : ℕ) : n &&& 0x7F = n % 128 :=
  Nat.and_two_pow_sub_one_eq_mod n 7

theorem shiftRight7 (n : ℕ) : n >>> 7 = n / 128 :=
  Nat.shiftRight_eq_div_pow n 7

theorem varIntEncoding_of_le {n : ℕ} (h : n ≤ 0x7F) : varIntEncoding n = [UInt8.ofNat n] := by
  rw [varIntEncoding, if_pos h]

theorem varIntEncoding_of_lt {n : ℕ} (h : 0x7F < n) :
    varIntEncoding n =
      (varIntEncoding (n / 128 - 1)).map (· ||| 0x80) ++ [UInt8.ofNat (n % 128)] := by
  rw [varIntEncoding, if_neg (by omega)]

theorem length_varIntEncoding_pos (n : ℕ) : 0 < (varIntEncoding n).length := by
  rw [varIntEncoding]
  split_ifs <;> simp

/-- `GetSizeOfVarInt` counts the bytes of the encoding. -/
theorem GetSizeOfVarInt_eq_length (n : ℕ) : GetSizeOfVarInt n = (varIntEncoding n).length := by
  induction n using Nat.strong_induction_on with
  | _ n ih =>
    rw [GetSizeOfVarInt, shiftRight7]
    by_cases h : n ≤ 0x7F
    · rw [if_pos h, varIntEncoding_of_le h]
      rfl
    · rw [if_neg h, varIntEncoding_of_lt (by omega), ih _ (by omega)]
      simp

/-- A value below `128 ^ k` has at most `k` digits. -/
theorem GetSizeOfVarInt_le {k n : ℕ} (hk : 0 < k) (h : n < 128 ^ k) : GetSizeOfVarInt n ≤ k := by
  induction n using Nat.strong_induction_on generalizing k with
  | _ n ih =>
    rw [GetSizeOfVarInt, shiftRight7]
    by_cases hn : n ≤ 0x7F
    · rw [if_pos hn]
      omega
    · rw [if_neg hn]
      -- a value of two digits or more needs `k ≥ 2`, and its leading part is below `128 ^ (k - 1)`
      obtain ⟨j, rfl⟩ : ∃ j, k = j + 1 := ⟨k - 1, by omega⟩
      have hj : 0 < j := by
        rcases Nat.eq_zero_or_pos j with rfl | hj
        · simp at h
          omega
        · exact hj
      have hlt : n / 128 - 1 < 128 ^ j := by
        rw [pow_succ] at h
        have := Nat.div_lt_of_lt_mul (by rwa [Nat.mul_comm] at h)
        omega
      have := ih (n / 128 - 1) (by omega) hj hlt
      omega

/-! ### The writer -/

/-- From the second digit on, the loop writes the encoding backwards with the continuation bit on
every byte, or fails when it does not fit what is left of `tmp`. -/
theorem writeVarIntTmp_flagged (cap : ℕ) :
    ∀ (n len : ℕ) (tmp : List UInt8), 0 < len →
      writeVarIntTmp cap n len tmp =
        if len + GetSizeOfVarInt n ≤ cap then
          .ok (tmp ++ ((varIntEncoding n).map (· ||| 0x80)).reverse)
        else .error "WriteVarInt(): tmp[len] past the end of tmp" := by
  intro n
  induction n using Nat.strong_induction_on with
  | _ n ih =>
    intro len tmp hlen
    rw [writeVarIntTmp, GetSizeOfVarInt, if_pos (show len ≠ 0 by omega), and7F_eq_mod,
      shiftRight7]
    by_cases hcap : len < cap
    · rw [if_pos hcap]
      by_cases hn : n ≤ 0x7F
      · -- the last digit
        rw [if_pos hn, if_pos hn, if_pos (by omega), varIntEncoding_of_le hn, Nat.mod_eq_of_lt
          (by omega)]
        rfl
      · -- a digit, then the rest of the value from the next position
        rw [if_neg hn, if_neg hn, ih _ (by omega) _ _ (by omega), varIntEncoding_of_lt (n := n) (by omega)]
        simp only [List.map_append, map_or80_map_or80, List.map_cons, List.map_nil,
          List.reverse_append, List.reverse_cons, List.reverse_nil, List.nil_append,
          List.append_assoc, List.singleton_append]
        by_cases hfit : len + 1 + GetSizeOfVarInt (n / 128 - 1) ≤ cap
        · rw [if_pos hfit, if_pos (by omega)]
        · rw [if_neg hfit, if_neg (by omega)]
    · -- no room for this digit
      rw [if_neg hcap, if_neg (by have := length_varIntEncoding_pos n; split_ifs <;> omega)]
      rfl

/-- The whole loop writes the encoding backwards, or fails when it does not fit `cap` bytes. -/
theorem writeVarIntTmp_zero (cap n : ℕ) :
    writeVarIntTmp cap n 0 [] =
      if GetSizeOfVarInt n ≤ cap then .ok (varIntEncoding n).reverse
      else .error "WriteVarInt(): tmp[len] past the end of tmp" := by
  rw [writeVarIntTmp, GetSizeOfVarInt, if_neg (show ¬(0 ≠ 0) by omega), and7F_eq_mod, shiftRight7]
  by_cases hcap : 0 < cap
  · rw [if_pos hcap]
    by_cases hn : n ≤ 0x7F
    · rw [if_pos hn, if_pos hn, if_pos (by omega), varIntEncoding_of_le hn,
        Nat.mod_eq_of_lt (by omega), UInt8.or_zero]
      rfl
    · rw [if_neg hn, if_neg hn, writeVarIntTmp_flagged cap _ 1 _ (by omega),
        varIntEncoding_of_lt (n := n) (by omega), UInt8.or_zero]
      simp only [List.reverse_append, List.reverse_cons, List.reverse_nil, List.nil_append,
        List.singleton_append]
      by_cases hfit : 1 + GetSizeOfVarInt (n / 128 - 1) ≤ cap
      · rw [if_pos hfit, if_pos (by omega)]
      · rw [if_neg hfit, if_neg (by omega)]
  · rw [if_neg hcap, if_neg (by have := length_varIntEncoding_pos n; split_ifs <;> omega)]
    rfl

/-- A value of `I` has at most as many digits as `tmp` has bytes. -/
theorem GetSizeOfVarInt_le_tmp (I : IntType) {n : ℕ} (hn : n ≤ I.max) :
    GetSizeOfVarInt n ≤ (I.size * 8 + 6) / 7 := by
  have hsize := I.size_pos
  apply GetSizeOfVarInt_le (by omega)
  calc n < 2 ^ (8 * I.size) := lt_of_le_of_lt hn I.max_lt
    _ ≤ 2 ^ (7 * ((I.size * 8 + 6) / 7)) := Nat.pow_le_pow_right (by norm_num) (by omega)
    _ = 128 ^ ((I.size * 8 + 6) / 7) := by rw [pow_mul]; norm_num

/-- **The writer.** For a value of `I`, `WriteVarInt` stays inside `tmp` and writes the
encoding. -/
theorem WriteVarInt_eq (I : IntType) {n : ℕ} (hn : n ≤ I.max) :
    WriteVarInt I n = .ok (varIntEncoding n) := by
  rw [WriteVarInt, writeVarIntTmp_zero, if_pos (GetSizeOfVarInt_le_tmp I hn)]
  simp only [Except.ok_bind, List.reverse_reverse]
  rfl

/-! ### The reader -/

section Reader

variable {max : ℕ}

/-- One digit with the continuation bit. -/
theorem readVarIntLoop_digit_flagged (hmax : max % 128 = 127) {d : ℕ} (hd : d < 128) (a : ℕ)
    (rest : List UInt8) :
    readVarIntLoop max a ((UInt8.ofNat d ||| 0x80) :: rest) =
      if a * 128 + d < max then readVarIntLoop max (a * 128 + d + 1) rest
      else .error VARINT_TOO_LARGE := by
  obtain ⟨hlow, -, hlow', hflag'⟩ := digit_bytes ⟨d, hd⟩
  have hor : a <<< 7 ||| d = a * 128 + d := by
    rw [← Nat.shiftLeft_add_eq_or_of_lt (by norm_num; omega), Nat.shiftLeft_eq]
  rw [readVarIntLoop, shiftRight7]
  by_cases ha : a > max / 128
  · -- too large before the shift
    rw [if_pos ha, if_neg (by omega)]
    rfl
  · rw [if_neg ha]
    simp only [hlow', hor, if_pos hflag']
    by_cases heq : a * 128 + d = max
    · rw [if_pos heq, if_neg (by omega)]
      rfl
    · rw [if_neg heq, if_pos (by omega)]

/-- The last digit. -/
theorem readVarIntLoop_digit (hmax : max % 128 = 127) {d : ℕ} (hd : d < 128) (a : ℕ)
    (rest : List UInt8) :
    readVarIntLoop max a (UInt8.ofNat d :: rest) =
      if a * 128 + d ≤ max then .ok (a * 128 + d, rest) else .error VARINT_TOO_LARGE := by
  obtain ⟨hlow, hflag, -, -⟩ := digit_bytes ⟨d, hd⟩
  have hor : a <<< 7 ||| d = a * 128 + d := by
    rw [← Nat.shiftLeft_add_eq_or_of_lt (by norm_num; omega), Nat.shiftLeft_eq]
  rw [readVarIntLoop, shiftRight7]
  by_cases ha : a > max / 128
  · rw [if_pos ha, if_neg (by omega)]
    rfl
  · rw [if_neg ha]
    simp only [hlow, hor, hflag, ne_eq, not_true_eq_false, if_false]
    rw [if_pos (by omega)]
    rfl

/-- The encoding of `m` with the continuation bit on every byte: the reader goes on with
`a * 128 ^ k + m + 1`, or throws when that passes the maximum. -/
theorem readVarIntLoop_flagged (hmax : max % 128 = 127) :
    ∀ (m a : ℕ) (rest : List UInt8),
      readVarIntLoop max a ((varIntEncoding m).map (· ||| 0x80) ++ rest) =
        if a * 128 ^ (varIntEncoding m).length + m < max then
          readVarIntLoop max (a * 128 ^ (varIntEncoding m).length + m + 1) rest
        else .error VARINT_TOO_LARGE := by
  intro m
  induction m using Nat.strong_induction_on with
  | _ m ih =>
    intro a rest
    by_cases hm : m ≤ 0x7F
    · rw [varIntEncoding_of_le hm]
      simpa using readVarIntLoop_digit_flagged hmax (show m < 128 by omega) a rest
    · -- the leading digits, then the last one
      set m₁ := m / 128 - 1
      set k := (varIntEncoding m₁).length
      have hsplit : m = (m₁ + 1) * 128 + m % 128 := by omega
      rw [varIntEncoding_of_lt (by omega)]
      simp only [List.map_append, map_or80_map_or80, List.map_cons, List.map_nil,
        List.append_assoc, List.singleton_append, List.length_append, List.length_map,
        List.length_cons, List.length_nil]
      rw [ih m₁ (by omega) a]
      have hval : (a * 128 ^ k + m₁ + 1) * 128 + m % 128 = a * 128 ^ (k + 0 + 1) + m := by
        rw [pow_succ, Nat.add_zero]
        nth_rewrite 2 [hsplit]
        ring
      by_cases hfirst : a * 128 ^ k + m₁ < max
      · rw [if_pos hfirst, readVarIntLoop_digit_flagged hmax (Nat.mod_lt _ (by norm_num)), hval]
      · rw [if_neg hfirst, if_neg]
        rw [← hval]
        generalize a * 128 ^ k = x at hfirst ⊢
        omega

/-- **The reader on an encoding.** After `a`, the encoding of `m` is read as
`a * 128 ^ k + m` when that is at most the maximum; otherwise the reader throws. -/
theorem readVarIntLoop_encoding (hmax : max % 128 = 127) :
    ∀ (m a : ℕ) (rest : List UInt8),
      readVarIntLoop max a (varIntEncoding m ++ rest) =
        if a * 128 ^ (varIntEncoding m).length + m ≤ max then
          .ok (a * 128 ^ (varIntEncoding m).length + m, rest)
        else .error VARINT_TOO_LARGE := by
  intro m a rest
  by_cases hm : m ≤ 0x7F
  · rw [varIntEncoding_of_le hm]
    simpa using readVarIntLoop_digit hmax (show m < 128 by omega) a rest
  · set m₁ := m / 128 - 1
    set k := (varIntEncoding m₁).length
    have hsplit : m = (m₁ + 1) * 128 + m % 128 := by omega
    rw [varIntEncoding_of_lt (by omega)]
    simp only [List.append_assoc, List.singleton_append, List.length_append, List.length_map,
      List.length_cons, List.length_nil]
    rw [readVarIntLoop_flagged hmax m₁ a]
    have hval : (a * 128 ^ k + m₁ + 1) * 128 + m % 128 = a * 128 ^ (k + 0 + 1) + m := by
      rw [pow_succ, Nat.add_zero]
      nth_rewrite 2 [hsplit]
      ring
    by_cases hfirst : a * 128 ^ k + m₁ < max
    · rw [if_pos hfirst, readVarIntLoop_digit hmax (Nat.mod_lt _ (by norm_num)), hval]
    · rw [if_neg hfirst, if_neg]
      rw [← hval]
      generalize a * 128 ^ k = x at hfirst ⊢
      omega

end Reader

/-! ### Canonical encodings -/

/-- A digit in front of an encoding is the encoding of the value that digit leads. -/
theorem varIntEncoding_prepend {d : ℕ} (hd : d < 128) :
    ∀ w, varIntEncoding ((d + 1) * 128 ^ (varIntEncoding w).length + w) =
      (UInt8.ofNat d ||| 0x80) :: varIntEncoding w := by
  intro w
  induction w using Nat.strong_induction_on with
  | _ w ih =>
    by_cases hw : w ≤ 0x7F
    · -- a one-digit tail
      rw [varIntEncoding_of_le hw, varIntEncoding_of_lt (by simp; omega)]
      have hq : ((d + 1) * 128 ^ [UInt8.ofNat w].length + w) / 128 - 1 = d := by simp; omega
      have hr : ((d + 1) * 128 ^ [UInt8.ofNat w].length + w) % 128 = w := by simp; omega
      rw [hq, hr, varIntEncoding_of_le (by omega)]
      rfl
    · set w₁ := w / 128 - 1
      set k := (varIntEncoding w₁).length
      have hlen : (varIntEncoding w).length = k + 1 := by
        rw [varIntEncoding_of_lt (n := w) (by omega)]
        simp only [List.length_append, List.length_map, List.length_singleton]
        rfl
      have hpos : 0 < 128 ^ k := by positivity
      -- the value's leading part is the digit in front of the leading part of `w`
      have hq : ((d + 1) * 128 ^ (k + 1) + w) / 128 - 1 = (d + 1) * 128 ^ k + w₁ := by
        rw [pow_succ, ← Nat.mul_assoc, Nat.add_comm, Nat.add_mul_div_right _ _ (by norm_num)]
        omega
      have hr : ((d + 1) * 128 ^ (k + 1) + w) % 128 = w % 128 := by
        rw [pow_succ, ← Nat.mul_assoc, Nat.add_comm, Nat.add_mul_mod_self_right]
      rw [hlen, varIntEncoding_of_lt (n := (d + 1) * 128 ^ (k + 1) + w) (by omega), hq, hr,
        ih w₁ (by omega),
        varIntEncoding_of_lt (show 0x7F < w by omega)]
      simp
      rfl

/-- **The reader accepts only encodings.** After `a`, what a successful run consumed is the
encoding of some `v`, and it returned `a * 128 ^ k + v`. -/
theorem readVarIntLoop_canonical {max : ℕ} :
    ∀ (bs : List UInt8) (a n : ℕ) (rest : List UInt8), readVarIntLoop max a bs = .ok (n, rest) →
      ∃ v, bs = varIntEncoding v ++ rest ∧ n = a * 128 ^ (varIntEncoding v).length + v
  | [], a, n, rest, h => by cases h
  | b :: bs, a, n, rest, h => by
    have hb := byte_eq_digit ⟨b.toNat, b.toNat_lt⟩
    simp only [UInt8.ofNat_toNat] at hb
    have hd : b.toNat &&& 0x7F < 128 := by rw [and7F_eq_mod]; omega
    have hor : a <<< 7 ||| (b.toNat &&& 0x7F) = a * 128 + (b.toNat &&& 0x7F) := by
      rw [← Nat.shiftLeft_add_eq_or_of_lt (by norm_num; omega), Nat.shiftLeft_eq]
    rw [readVarIntLoop] at h
    by_cases hsize : a > max >>> 7
    · rw [if_pos hsize] at h
      cases h
    rw [if_neg hsize] at h
    dsimp only at h
    rw [hor] at h
    set d := b.toNat &&& 0x7F
    by_cases hflag : b.toNat &&& 0x80 ≠ 0
    · -- a digit with the continuation bit: the rest is an encoding, after it
      rw [if_pos hflag] at h
      by_cases hmax : a * 128 + d = max
      · rw [if_pos hmax] at h
        cases h
      rw [if_neg hmax] at h
      obtain ⟨v, hbs, hn⟩ := readVarIntLoop_canonical bs _ n rest h
      rw [if_neg hflag] at hb
      refine ⟨(d + 1) * 128 ^ (varIntEncoding v).length + v, ?_, ?_⟩
      · rw [varIntEncoding_prepend hd, hbs, hb]
        rfl
      · rw [hn, varIntEncoding_prepend hd, List.length_cons, pow_succ]
        ring
    · -- the last digit
      rw [if_neg hflag] at h
      cases h
      rw [if_pos (by simpa using hflag)] at hb
      refine ⟨d, ?_, ?_⟩
      · rw [varIntEncoding_of_le (by omega), ← hb]
        rfl
      · rw [varIntEncoding_of_le (by omega)]
        simp

/-! ### `ReadVarInt` and `WriteVarInt` -/

/-- `ReadVarInt` on an encoding: the value when it fits `I`, and a throw otherwise. -/
theorem ReadVarInt_run_encoding (I : IntType) (m : ℕ) (rest : List UInt8) :
    (ReadVarInt I).run (varIntEncoding m ++ rest) =
      if m ≤ I.max then .ok (m, rest) else .error VARINT_TOO_LARGE := by
  show readVarIntLoop I.max 0 _ = _
  rw [readVarIntLoop_encoding I.max_mod]
  simp

/-- **Varints.** For every integer type `I`: a value of `I` is written inside `tmp` as its
encoding, of `GetSizeOfVarInt` bytes, and `ReadVarInt` reads it back; whatever `ReadVarInt`
accepts is a value of `I`, and what it consumed is what `WriteVarInt` writes for that value; and
the encoding of a value above the maximum of `I` is refused. -/
theorem varInt_roundTrip_canonical (I : IntType) :
    (∀ n ≤ I.max, GetSizeOfVarInt n ≤ (I.size * 8 + 6) / 7 ∧
      WriteVarInt I n = .ok (varIntEncoding n) ∧
      (varIntEncoding n).length = GetSizeOfVarInt n ∧
      Reads (ReadVarInt I) (varIntEncoding n) n) ∧
    (∀ (bs rest : List UInt8) (n : ℕ), (ReadVarInt I).run bs = .ok (n, rest) →
      n ≤ I.max ∧ WriteVarInt I n = .ok (varIntEncoding n) ∧ bs = varIntEncoding n ++ rest) ∧
    (∀ m, I.max < m → ∀ rest : List UInt8,
      (ReadVarInt I).run (varIntEncoding m ++ rest) = .error VARINT_TOO_LARGE) := by
  refine ⟨fun n hn => ⟨GetSizeOfVarInt_le_tmp I hn, WriteVarInt_eq I hn,
    (GetSizeOfVarInt_eq_length n).symm, fun rest => ?_⟩, fun bs rest n h => ?_, fun m hm rest => ?_⟩
  · rw [ReadVarInt_run_encoding, if_pos hn]
  · -- what was consumed is an encoding, and its value fits since the read succeeded
    obtain ⟨v, rfl, hv⟩ := readVarIntLoop_canonical bs 0 n rest h
    rw [Nat.zero_mul, Nat.zero_add] at hv
    subst hv
    rw [ReadVarInt_run_encoding] at h
    have hn : n ≤ I.max := by
      by_contra hn
      rw [if_neg hn] at h
      cases h
    exact ⟨hn, WriteVarInt_eq I hn, rfl⟩
  · rw [ReadVarInt_run_encoding, if_neg (by omega)]

theorem varInt_roundTrip_canonical_uint8 :
    WriteVarInt ⟨1, false, Nat.one_pos⟩ 200 = .ok (varIntEncoding 200) :=
  ((varInt_roundTrip_canonical ⟨1, false, Nat.one_pos⟩).1 200 (by decide)).2.1

end Tenscoin
