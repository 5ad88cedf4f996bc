import Mathlib
import Tenscoin.Encoding.Base58

/-!
# Digits, trimming and integer formatting

The parts of `util/strencodings.h`, `util/string.h` and `tinyformat.h` that `FormatMoney` and
`ParseMoney` use, on strings as byte lists (as in `Encoding/Base58.lean`, whose `IsSpace` and
`ContainsNoNUL` they share):

* `IsDigit`, `TrimStringView` with its default pattern, and `LocaleIndependentAtoi<int64_t>`,
  where `std::from_chars` is read as the exact number its digits denote (`fromChars`), so that
  its `result_out_of_range` is a comparison with the bounds of `int64_t`;
* `formatD` and `format08d`: `%d` and `%08d` of an integer, with the digits of `Nat.toDigits`.

A string of digits denotes `digitsValue`, the fold `from_chars` computes. The writer and the
reader agree (`digitsValue_decimalDigits`, from `Nat.ofDigitChars_ten_toDigits`), and on a
digit string whose value fits `int64_t`, `LocaleIndependentAtoi` is that value
(`LocaleIndependentAtoi_of_digits`).
-/

namespace Tenscoin

/-! ### Digits -/

/-- `IsDigit`: a decimal digit, `'0'` to `'9'`. -/
def IsDigit (c : UInt8) : Bool :=
  c ≥ Char.toUInt8 '0' && c ≤ Char.toUInt8 '9'

theorem isDigit_iff {c : UInt8} : IsDigit c = true ↔ 48 ≤ c.toNat ∧ c.toNat ≤ 57 := by
  simp [IsDigit, UInt8.le_iff_toNat_le]
  rfl

/-- One digit of `std::from_chars`: the number so far, shifted by a decimal place. -/
def digitStep (acc : ℕ) (c : UInt8) : ℕ :=
  10 * acc + (c.toNat - 48)

/-- The number a string of decimal digits denotes, accumulated from the left as
`std::from_chars` does. -/
def digitsValue (ds : List UInt8) : ℕ :=
  ds.foldl digitStep 0

@[simp] theorem digitsValue_nil : digitsValue [] = 0 := rfl

theorem foldl_digitStep (ds : List UInt8) (acc : ℕ) :
    ds.foldl digitStep acc = acc * 10 ^ ds.length + digitsValue ds := by
  induction ds generalizing acc with
  | nil => simp
  | cons c cs ih =>
    simp only [digitsValue, List.foldl_cons, List.length_cons] at ih ⊢
    rw [ih, ih (digitStep 0 c), digitStep, digitStep, pow_succ]
    ring

theorem digitsValue_append (a b : List UInt8) :
    digitsValue (a ++ b) = digitsValue a * 10 ^ b.length + digitsValue b := by
  rw [digitsValue, List.foldl_append, foldl_digitStep]
  rfl

theorem digitsValue_cons (c : UInt8) (cs : List UInt8) :
    digitsValue (c :: cs) = (c.toNat - 48) * 10 ^ cs.length + digitsValue cs := by
  rw [← List.singleton_append, digitsValue_append]
  simp [digitsValue, digitStep]

@[simp] theorem digitsValue_replicate_zero (k : ℕ) :
    digitsValue (List.replicate k (Char.toUInt8 '0')) = 0 := by
  induction k with
  | zero => rfl
  | succ k ih =>
    rw [List.replicate_succ, digitsValue_cons, ih, show (Char.toUInt8 '0').toNat = 48 from rfl]
    simp

theorem digitsValue_lt {ds : List UInt8} (hd : ∀ c ∈ ds, IsDigit c) :
    digitsValue ds < 10 ^ ds.length := by
  induction ds with
  | nil => simp
  | cons c cs ih =>
    have hc := isDigit_iff.1 (hd c List.mem_cons_self)
    have hcs := ih (fun x hx => hd x (List.mem_cons_of_mem c hx))
    have hd9 : c.toNat - 48 ≤ 9 := by omega
    rw [digitsValue_cons, List.length_cons, pow_succ]
    linarith [Nat.mul_le_mul_right (10 ^ cs.length) hd9]

/-! ### `%d` and `%08d` -/

/-- The decimal digits of `n`, most significant first, as `%d` writes them. -/
def decimalDigits (n : ℕ) : List UInt8 :=
  (Nat.toDigits 10 n).map Char.toUInt8

/-- `%d` of an integer. -/
def formatD (x : ℤ) : List UInt8 :=
  if x < 0 then Char.toUInt8 '-' :: decimalDigits x.natAbs else decimalDigits x.natAbs

/-- `%08d` of an integer: the sign, then the digits padded with zeros on the left to eight
characters in all. -/
def format08d (x : ℤ) : List UInt8 :=
  if x < 0 then Char.toUInt8 '-' :: List.leftpad 7 (Char.toUInt8 '0') (decimalDigits x.natAbs)
  else List.leftpad 8 (Char.toUInt8 '0') (decimalDigits x.natAbs)

/-- A digit character keeps its code as a byte. -/
theorem toNat_toUInt8_of_isDigit {c : Char} (hc : c.isDigit) : c.toUInt8.toNat = c.toNat := by
  simp only [Char.isDigit, Bool.and_eq_true, decide_eq_true_eq, UInt32.le_iff_toNat_le] at hc
  change _ ∧ c.toNat ≤ 57 at hc
  rw [Char.toUInt8, UInt32.toNat_toUInt8, Nat.mod_eq_of_lt (by change c.toNat < 256; omega)]
  rfl

theorem isDigit_of_mem_decimalDigits {n : ℕ} {c : UInt8} (h : c ∈ decimalDigits n) :
    IsDigit c := by
  obtain ⟨d, hd, rfl⟩ := List.mem_map.1 h
  have hdigit := Nat.isDigit_of_mem_toDigits (by decide) (by decide) hd
  rw [isDigit_iff, toNat_toUInt8_of_isDigit hdigit]
  simp only [Char.isDigit, Bool.and_eq_true, decide_eq_true_eq, UInt32.le_iff_toNat_le] at hdigit
  exact hdigit

/-- Read from the left, the digits of `l` as bytes are the number `Nat.ofDigitChars` reads. -/
theorem foldl_digitStep_map (l : List Char) (hl : ∀ c ∈ l, c.isDigit) (acc : ℕ) :
    (l.map Char.toUInt8).foldl digitStep acc = Nat.ofDigitChars 10 l acc := by
  induction l generalizing acc with
  | nil => rfl
  | cons c cs ih =>
    rw [List.map_cons, List.foldl_cons, Nat.ofDigitChars_cons,
      ih (fun x hx => hl x (List.mem_cons_of_mem c hx)), digitStep,
      toNat_toUInt8_of_isDigit (hl c List.mem_cons_self)]
    rfl

@[simp] theorem digitsValue_decimalDigits (n : ℕ) : digitsValue (decimalDigits n) = n := by
  rw [digitsValue, decimalDigits,
    foldl_digitStep_map _ (fun c hc => Nat.isDigit_of_mem_toDigits (by decide) (by decide) hc)]
  exact Nat.ofDigitChars_ten_toDigits

theorem length_decimalDigits_le_iff {n k : ℕ} (hk : 0 < k) :
    (decimalDigits n).length ≤ k ↔ n < 10 ^ k := by
  rw [decimalDigits, List.length_map]
  exact Nat.length_toDigits_le_iff (by decide) hk

theorem decimalDigits_ne_nil (n : ℕ) : decimalDigits n ≠ [] := by
  simp [decimalDigits]

theorem formatD_of_nonneg {x : ℤ} (hx : 0 ≤ x) : formatD x = decimalDigits x.natAbs := by
  rw [formatD, if_neg (not_lt.2 hx)]

/-- The padding adds zeros that leave the value as it is. -/
theorem digitsValue_leftpad (k : ℕ) (ds : List UInt8) :
    digitsValue (List.leftpad k (Char.toUInt8 '0') ds) = digitsValue ds := by
  rw [List.leftpad, digitsValue_append, digitsValue_replicate_zero, zero_mul, zero_add]

theorem format08d_of_nonneg {x : ℤ} (hx : 0 ≤ x) :
    format08d x = List.leftpad 8 (Char.toUInt8 '0') (decimalDigits x.natAbs) := by
  rw [format08d, if_neg (not_lt.2 hx)]

/-! ### Trimming -/

/-- The default `pattern` of `TrimStringView` and `TrimString`: `" \f\n\r\t\v"`. -/
def trimPattern : List UInt8 := [0x20, 0x0c, 0x0a, 0x0d, 0x09, 0x0b]

/-- `TrimStringView` with its default pattern: `str` from its first character outside the
pattern (`find_first_not_of`) to its last one (`find_last_not_of`); empty when there is none. -/
def TrimStringView (str : List UInt8) : List UInt8 :=
  (str.dropWhile trimPattern.contains).rdropWhile trimPattern.contains

/-- `TrimString`: `TrimStringView` copied into a `std::string`. -/
def TrimString (str : List UInt8) : List UInt8 :=
  TrimStringView str

/-- A string with no character of the pattern is left as it is. -/
theorem TrimStringView_of_forall {str : List UInt8}
    (h : ∀ c ∈ str, trimPattern.contains c = false) : TrimStringView str = str := by
  have hdrop : str.dropWhile trimPattern.contains = str := by
    cases str with
    | nil => rfl
    | cons c cs => simp only [List.dropWhile_cons, h c List.mem_cons_self, Bool.false_eq_true,
        if_false]
  rw [TrimStringView, hdrop, List.rdropWhile_eq_self_iff]
  intro hne
  rw [h _ (List.getLast_mem hne)]
  exact Bool.false_ne_true

theorem contains_trimPattern_of_isDigit {c : UInt8} (hc : IsDigit c) :
    trimPattern.contains c = false := by
  have := isDigit_iff.1 hc
  simp only [trimPattern, List.contains_cons, List.contains_nil, Bool.or_false,
    Bool.or_eq_false_iff, beq_eq_false_iff_ne, ne_eq, UInt8.ext_iff]
  simp only [UInt8.toNat_ofNat]
  omega

/-- The pattern is the set of characters `IsSpace` accepts. -/
theorem contains_trimPattern (c : UInt8) : trimPattern.contains c = IsSpace c := by
  simp only [trimPattern, IsSpace, List.contains_cons, List.contains_nil, Bool.or_false,
    Bool.or_assoc]

theorem isSpace_eq_false_of_isDigit {c : UInt8} (hc : IsDigit c) : IsSpace c = false := by
  rw [← contains_trimPattern]
  exact contains_trimPattern_of_isDigit hc

/-! ### `LocaleIndependentAtoi` -/

/-- `std::from_chars` for `int64_t` over all of `s`: an optional minus sign, then the longest run
of digits; `none` is `errc::invalid_argument` (no digit). The number is exact: it is
`errc::result_out_of_range` where it leaves `int64_t`. -/
def fromChars (s : List UInt8) : Option ℤ :=
  let neg := s.head? = some (Char.toUInt8 '-')
  let digits := (if neg then s.tail else s).takeWhile IsDigit
  if digits = [] then none
  else some (if neg then -(digitsValue digits : ℤ) else digitsValue digits)

/-- `LocaleIndependentAtoi<int64_t>`: `atoi` under the "C" locale, saturating where `atoi` is
undefined. -/
def LocaleIndependentAtoi (str : List UInt8) : ℤ :=
  let s := TrimStringView str
  if s.head? = some (Char.toUInt8 '+') ∧ s.getD 1 0 = Char.toUInt8 '-' then 0
  else
    let s := if s.head? = some (Char.toUInt8 '+') then s.tail else s
    match fromChars s with
    | none => 0
    | some result =>
      if result < Int64.minValue.toInt ∨ Int64.maxValue.toInt < result then
        -- Saturate underflow and overflow, per strtoll's behavior.
        if s.head? = some (Char.toUInt8 '-') then Int64.minValue.toInt else Int64.maxValue.toInt
      else result

/-- On a digit string whose value fits `int64_t`, `LocaleIndependentAtoi` is that value; the empty
string gives `0`. -/
theorem LocaleIndependentAtoi_of_digits {ds : List UInt8} (hd : ∀ c ∈ ds, IsDigit c)
    (hv : (digitsValue ds : ℤ) ≤ Int64.maxValue.toInt) :
    LocaleIndependentAtoi ds = digitsValue ds := by
  have htrim : TrimStringView ds = ds :=
    TrimStringView_of_forall fun c hc => contains_trimPattern_of_isDigit (hd c hc)
  -- A digit is neither sign.
  have hhead : ∀ x, ds.head? = some x → IsDigit x := fun x hx =>
    hd x (List.mem_of_mem_head? hx)
  have hplus : ds.head? ≠ some (Char.toUInt8 '+') := fun h => by
    have := hhead _ h
    revert this; decide
  have hminus : ds.head? ≠ some (Char.toUInt8 '-') := fun h => by
    have := hhead _ h
    revert this; decide
  have htake : ds.takeWhile IsDigit = ds := List.takeWhile_eq_self_iff.2 hd
  simp only [LocaleIndependentAtoi, htrim, hplus, false_and, if_false, fromChars, hminus,
    htake]
  by_cases hnil : ds = []
  · subst hnil
    rfl
  · have hnn : (0 : ℤ) ≤ digitsValue ds := Int.natCast_nonneg _
    have hmin : Int64.minValue.toInt = -2 ^ 63 := rfl
    simp only [hnil, if_false]
    rw [if_neg (by omega)]

end Tenscoin
