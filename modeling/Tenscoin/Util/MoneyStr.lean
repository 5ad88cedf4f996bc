import Mathlib
import Tenscoin.Consensus.Params
import Tenscoin.Util.Strings

/-!
# Amounts as decimal strings

`FormatMoney` and `ParseMoney` (util/moneystr.cpp) write and read an amount in coins with up to
eight decimals. `FormatMoney` prints `"%d.%08d"` of the quotient and remainder by `COIN` and
then strips zeros from the right with a loop that looks two characters back for a digit; the
point stops it, so two decimals always stay (`FormatMoney(COIN)` is `"1.00"`). `ParseMoney` takes
whole digits up to a point and then at most eight decimals with a shrinking multiplier.

The two sides meet in an abstract reading of a numeral: `w` whole digits and `f` decimals stand
for `decimalValue w f` satoshis.

* `FormatMoney_eq`: the written string is `w.` followed by `trimFraction` of the eight padded
  decimals, where `trimLoop_eq` counts the zeros the loop strips;
* `ParseMoney_eq_some_iff`: `ParseMoney` accepts exactly the numerals `w` or `w.f`, surrounded by
  whitespace, with at most ten whole digits and eight decimals, whose value is in range, and
  returns that value. `parseFraction_eq_iff` is the fraction loop, `parseLoop_eq_some` and
  `parseLoop_numeral` the two directions of the main loop;
* `decimalValue_FormatMoney`: the numeral written for `n ≥ 0` denotes `n`.
-/

namespace Tenscoin

/-! ### `FormatMoney` -/

/-- The loop of `FormatMoney` that counts the zeros to strip: from index `i` down, a zero with a
digit two places to its left. `FormatMoney` starts it at the last character of `"%d.%08d"`, and
the point stops it while `i - 2` is still inside the string. -/
def trimLoop (str : List UInt8) : ℕ → ℕ
  | i + 2 =>
    if str.getD (i + 2) 0 = Char.toUInt8 '0' ∧ IsDigit (str.getD i 0) then
      trimLoop str (i + 1) + 1
    else 0
  | _ => 0

/-- The right-trim of `FormatMoney`: erase the `nTrim` characters the loop counted. -/
def rightTrimZeros (str : List UInt8) : List UInt8 :=
  let nTrim := trimLoop str (str.length - 1)
  if nTrim ≠ 0 then str.take (str.length - nTrim) else str

/-- `FormatMoney`: `n` in coins with two to eight decimals. -/
def FormatMoney (n : ℤ) : List UInt8 :=
  let quotient := n.tdiv coin
  let remainder := n.tmod coin
  let quotient := if n < 0 then -quotient else quotient
  let remainder := if n < 0 then -remainder else remainder
  let str := rightTrimZeros (formatD quotient ++ Char.toUInt8 '.' :: format08d remainder)
  if n < 0 then Char.toUInt8 '-' :: str else str

/-- What the right-trim leaves of eight decimals `f`: the zeros that end `f` are dropped, except
among its first two digits. -/
def trimFraction (f : List UInt8) : List UInt8 :=
  f.take 2 ++ (f.drop 2).rdropWhile (· == Char.toUInt8 '0')

/-- The loop reads no character after index `i`. -/
theorem trimLoop_append (s t : List UInt8) :
    ∀ i, i < s.length → trimLoop (s ++ t) i = trimLoop s i
  | i + 2, hi => by
    simp only [trimLoop, List.getD_append s t 0 (i + 2) hi, List.getD_append s t 0 i (by omega),
      trimLoop_append s t (i + 1) (by omega)]
  | 0, _ | 1, _ => rfl

/-- Started at the last digit of `p.f₀g`, with two digits `f₀`, the loop counts the zeros that
end `g`: the point, two places left of the last digit of `f₀`, stops it. -/
theorem trimLoop_eq (p f₀ : List UInt8) (hf₀ : f₀.length = 2) (g : List UInt8)
    (hd : ∀ c ∈ f₀ ++ g, IsDigit c) :
    trimLoop (p ++ Char.toUInt8 '.' :: (f₀ ++ g)) (p.length + 2 + g.length) =
      (g.rtakeWhile (· == Char.toUInt8 '0')).length := by
  induction g using List.reverseRecOn with
  | nil =>
    have hpoint : (p ++ Char.toUInt8 '.' :: f₀).getD p.length 0 = Char.toUInt8 '.' := by
      rw [List.getD_append_right _ _ _ _ le_rfl, Nat.sub_self, List.getD_cons_zero]
    simp only [List.append_nil, List.length_nil, Nat.add_zero, trimLoop, hpoint,
      List.rtakeWhile_nil, List.length_nil]
    rw [if_neg (fun h => absurd h.2 (by decide))]
  | append_singleton g c ih =>
    set s := p ++ Char.toUInt8 '.' :: (f₀ ++ g) with hs
    have hlen : s.length = p.length + 3 + g.length := by simp [hs, hf₀]; omega
    have hstr : p ++ Char.toUInt8 '.' :: (f₀ ++ (g ++ [c])) = s ++ [c] := by simp [hs]
    -- the last character is `c`, and two places left of it is a digit of `f₀ ++ g`
    have hlast : (s ++ [c]).getD (p.length + 1 + g.length + 2) 0 = c := by
      rw [List.getD_append_right _ _ _ _ (by omega), show p.length + 1 + g.length + 2 -
        s.length = 0 by omega, List.getD_cons_zero]
    have hd' : ∀ x ∈ f₀ ++ g, IsDigit x := fun x hx =>
      hd x (by rw [← List.append_assoc]; exact List.mem_append_left _ hx)
    have hdigit : IsDigit ((s ++ [c]).getD (p.length + 1 + g.length) 0) := by
      rw [List.getD_append _ _ _ _ (by omega), hs, List.getD_append_right _ _ _ _ (by omega),
        show p.length + 1 + g.length - p.length = g.length + 1 by omega, List.getD_cons_succ,
        List.getD_eq_getElem _ _ (by simp [hf₀])]
      exact hd' _ (List.getElem_mem _)
    rw [hstr, List.length_append, List.length_singleton,
      show p.length + 2 + (g.length + 1) = p.length + 1 + g.length + 2 by omega, trimLoop]
    simp only [hlast, hdigit, and_true]
    by_cases hc : c = Char.toUInt8 '0'
    · rw [if_pos hc, List.rtakeWhile_concat_pos _ g c (by simp [hc]), List.length_append,
        List.length_singleton, show p.length + 1 + g.length + 1 = p.length + 2 + g.length by
          omega, trimLoop_append _ _ _ (by omega), ih hd']
    · rw [if_neg hc, List.rtakeWhile_concat_neg _ g c (by simpa using hc), List.length_nil]

/-- Taking all but the elements `rtakeWhile` counts leaves `rdropWhile`. -/
theorem take_sub_length_rtakeWhile {α : Type} (p : α → Bool) (l : List α) :
    l.take (l.length - (l.rtakeWhile p).length) = l.rdropWhile p := by
  have h := List.rdropWhile_append_rtakeWhile (p := p) (l := l)
  have hlen : l.length = (l.rdropWhile p).length + (l.rtakeWhile p).length := by
    rw [← List.length_append, h]
  calc l.take (l.length - (l.rtakeWhile p).length)
      = (l.rdropWhile p ++ l.rtakeWhile p).take (l.rdropWhile p).length := by
        rw [h, Nat.sub_eq_of_eq_add hlen]
    _ = l.rdropWhile p := List.take_left

/-- **The right-trim.** On `w.f` with eight decimals `f`, `rightTrimZeros` leaves `w.` and
`trimFraction f`. -/
theorem rightTrimZeros_eq (w f : List UInt8) (hf : f.length = 8) (hd : ∀ c ∈ f, IsDigit c) :
    rightTrimZeros (w ++ Char.toUInt8 '.' :: f) = w ++ Char.toUInt8 '.' :: trimFraction f := by
  set g := f.drop 2
  have hsplit : f = f.take 2 ++ g := (List.take_append_drop 2 f).symm
  have hg : g.length = 6 := by simp [g, hf]
  have hcount : trimLoop (w ++ Char.toUInt8 '.' :: f) ((w ++ Char.toUInt8 '.' :: f).length - 1) =
      (g.rtakeWhile (· == Char.toUInt8 '0')).length := by
    rw [← trimLoop_eq w (f.take 2) (by simp [hf]) g (by rw [← hsplit]; exact hd), ← hsplit,
      List.length_append, List.length_cons, hf, hg, show w.length + (8 + 1) - 1 =
        w.length + 2 + 6 by omega]
  have hle := (List.rtakeWhile_suffix (p := (· == Char.toUInt8 '0')) (l := g)).length_le
  -- both branches of `if nTrim` take all but `nTrim` characters
  have htake : rightTrimZeros (w ++ Char.toUInt8 '.' :: f) =
      (w ++ Char.toUInt8 '.' :: f).take ((w ++ Char.toUInt8 '.' :: f).length -
        (g.rtakeWhile (· == Char.toUInt8 '0')).length) := by
    rw [rightTrimZeros, hcount]
    split_ifs with h0
    · rfl
    · rw [not_not.1 h0, Nat.sub_zero, List.take_length]
  rw [htake, trimFraction, ← take_sub_length_rtakeWhile]
  conv_lhs => rw [hsplit]
  rw [show w ++ Char.toUInt8 '.' :: (f.take 2 ++ g) = (w ++ Char.toUInt8 '.' :: f.take 2) ++ g by
      simp, List.length_append, Nat.add_sub_assoc hle, List.take_length_add_append]
  simp only [List.append_assoc, List.cons_append]
  rfl

/-- After the sign is taken off, `FormatMoney` divides `|n|` by `COIN`. -/
theorem quotient_remainder_natAbs (n : ℤ) :
    (if n < 0 then -n.tdiv coin else n.tdiv coin) = ((n.natAbs / 100000000 : ℕ) : ℤ) ∧
      (if n < 0 then -n.tmod coin else n.tmod coin) = ((n.natAbs % 100000000 : ℕ) : ℤ) := by
  obtain ⟨m, rfl | rfl⟩ := Int.eq_nat_or_neg n
  · rw [if_neg (by omega), if_neg (by omega), Int.natAbs_natCast]
    exact ⟨rfl, rfl⟩
  · rw [Int.natAbs_neg, Int.natAbs_natCast, Int.neg_tdiv, Int.neg_tmod]
    split_ifs
    · rw [neg_neg, neg_neg]
      exact ⟨rfl, rfl⟩
    · obtain rfl : m = 0 := by omega
      exact ⟨rfl, rfl⟩

/-- The eight decimals `%08d` writes for a remainder below `COIN`. -/
theorem length_leftpad_decimalDigits {r : ℕ} (hr : r < 100000000) :
    (List.leftpad 8 (Char.toUInt8 '0') (decimalDigits r)).length = 8 := by
  rw [List.length_leftpad, max_eq_left ((length_decimalDigits_le_iff (by decide)).2 hr)]

theorem isDigit_of_mem_leftpad {k n : ℕ} {c : UInt8}
    (hc : c ∈ List.leftpad k (Char.toUInt8 '0') (decimalDigits n)) : IsDigit c := by
  rcases List.mem_append.1 hc with h | h
  · rw [List.eq_of_mem_replicate h]
    decide
  · exact isDigit_of_mem_decimalDigits h

/-- **What `FormatMoney` writes**: the sign, the whole coins of `|n|`, a point and its eight
decimals less the zeros the loop strips. -/
theorem FormatMoney_eq (n : ℤ) :
    FormatMoney n = (if n < 0 then [Char.toUInt8 '-'] else []) ++
      decimalDigits (n.natAbs / 100000000) ++ Char.toUInt8 '.' ::
        trimFraction (List.leftpad 8 (Char.toUInt8 '0') (decimalDigits (n.natAbs % 100000000))) := by
  obtain ⟨hq, hr⟩ := quotient_remainder_natAbs n
  have hlen := length_leftpad_decimalDigits (Nat.mod_lt n.natAbs (by decide : 0 < 100000000))
  simp only [FormatMoney, hq, hr]
  rw [formatD_of_nonneg (Int.natCast_nonneg _), format08d_of_nonneg (Int.natCast_nonneg _),
    Int.natAbs_natCast, Int.natAbs_natCast,
    rightTrimZeros_eq _ _ hlen fun c hc => isDigit_of_mem_leftpad hc]
  split_ifs <;> rfl

example : FormatMoney (-150000000) = "-1.50".toList.map Char.toUInt8 := by decide

/-- The decimals kept, followed by the zeros stripped, are the eight decimals. -/
theorem trimFraction_append_rtakeWhile (f : List UInt8) :
    trimFraction f ++ (f.drop 2).rtakeWhile (· == Char.toUInt8 '0') = f := by
  rw [trimFraction, List.append_assoc, List.rdropWhile_append_rtakeWhile, List.take_append_drop]

/-- Stripping zeros keeps the value, once the kept decimals are read at their places. -/
theorem digitsValue_trimFraction (f : List UInt8) :
    digitsValue (trimFraction f) * 10 ^ (f.length - (trimFraction f).length) = digitsValue f := by
  obtain ⟨z, hf, hz⟩ : ∃ z, trimFraction f ++ z = f ∧
      z = List.replicate z.length (Char.toUInt8 '0') :=
    ⟨_, trimFraction_append_rtakeWhile f,
      List.eq_replicate_iff.2 ⟨rfl, fun x hx => by simpa using List.mem_rtakeWhile_imp hx⟩⟩
  have hlen : f.length - (trimFraction f).length = z.length := by
    have := congrArg List.length hf
    rw [List.length_append] at this
    omega
  calc digitsValue (trimFraction f) * 10 ^ (f.length - (trimFraction f).length)
      = digitsValue (trimFraction f ++ List.replicate z.length (Char.toUInt8 '0')) := by
        rw [hlen, digitsValue_append, digitsValue_replicate_zero, List.length_replicate, add_zero]
    _ = digitsValue f := by rw [← hz, hf]

theorem isDigit_of_mem_trimFraction {f : List UInt8} (hf : ∀ c ∈ f, IsDigit c) :
    ∀ c ∈ trimFraction f, IsDigit c := fun c hc =>
  hf c ((trimFraction_append_rtakeWhile f) ▸ List.mem_append_left _ hc)

/-- Two decimals always stay, and no more than there were. -/
theorem length_trimFraction {f : List UInt8} (hf : 2 ≤ f.length) :
    2 ≤ (trimFraction f).length ∧ (trimFraction f).length ≤ f.length := by
  have h := congrArg List.length (trimFraction_append_rtakeWhile f)
  rw [List.length_append] at h
  refine ⟨?_, by omega⟩
  rw [trimFraction, List.length_append, List.length_take, min_eq_left hf]
  omega

/-- Beyond the first two decimals, the last one kept is not a zero. -/
theorem getLast?_trimFraction_ne_zero {f : List UInt8} (h : 2 < (trimFraction f).length) :
    (trimFraction f).getLast? ≠ some (Char.toUInt8 '0') := by
  have hr : (f.drop 2).rdropWhile (· == Char.toUInt8 '0') ≠ [] := by
    intro hr
    rw [trimFraction, hr, List.append_nil, List.length_take] at h
    omega
  rw [trimFraction, List.getLast?_append_of_ne_nil _ hr, List.getLast?_eq_some_getLast hr]
  intro heq
  apply List.rdropWhile_last_not _ _ hr
  simpa using Option.some_inj.1 heq

/-! ### `ParseMoney` -/

/-- The fraction loop of `ParseMoney`, from just after the point: each digit is worth `nMult`
units and `nMult` shrinks tenfold, until a non-digit or `nMult = 0`. Returns `nUnits` and the
rest of the string at `p`. -/
def parseFraction : List UInt8 → ℤ → ℤ → ℤ × List UInt8
  | c :: p, nMult, nUnits =>
    if IsDigit c ∧ nMult > 0 then
      parseFraction p (nMult.tdiv 10) (nUnits + nMult * ((c.toNat : ℤ) - 48))
    else (nUnits, c :: p)
  | [], _, nUnits => (nUnits, [])

/-- The main loop of `ParseMoney`: digits go to `strWhole` up to a point, which hands over to
the fraction loop and breaks. `none` is an early `return std::nullopt` (a space or another
non-digit); otherwise `strWhole`, `nUnits` and the rest of the string at `p`. -/
def parseLoop : List UInt8 → List UInt8 → Option (List UInt8 × ℤ × List UInt8)
  | [], strWhole => some (strWhole, 0, [])
  | c :: p, strWhole =>
    if c = Char.toUInt8 '.' then
      let (nUnits, p) := parseFraction p (coin.tdiv 10) 0
      some (strWhole, nUnits, p)
    else if IsSpace c then none
    else if !IsDigit c then none
    else parseLoop p (strWhole ++ [c])

/-- `ParseMoney`. -/
def ParseMoney (money_string : List UInt8) : Option ℤ :=
  if !ContainsNoNUL money_string then none
  else
    let str := TrimString money_string
    if str.isEmpty then none
    else
      match parseLoop str [] with
      | none => none
      | some (strWhole, nUnits, p) =>
        if p ≠ [] then none
        -- guard against 63 bit overflow
        else if strWhole.length > 10 then none
        else if nUnits < 0 ∨ nUnits > coin then none
        else
          let nWhole := LocaleIndependentAtoi strWhole
          let value := nWhole * coin + nUnits
          if ¬moneyRange value then none else some value

/-- The amount in satoshis of a numeral with whole digits `w` and decimals `f`. -/
def decimalValue (w f : List UInt8) : ℤ :=
  digitsValue w * coin + 10 ^ (8 - f.length) * digitsValue f

/-- `str` is a money numeral with whole digits `w` and decimals `f`: `w` (not empty) or `w.f`,
with at most ten whole digits and eight decimals. -/
structure IsMoneyNumeral (str w f : List UInt8) : Prop where
  shape : str = w ∧ f = [] ∧ w ≠ [] ∨ str = w ++ Char.toUInt8 '.' :: f
  digits : ∀ c ∈ w ++ f, IsDigit c
  whole_le : w.length ≤ 10
  frac_le : f.length ≤ 8

/-- A digit read at place `10 ^ (j + 1)` in front of `L ≤ j + 1` more. -/
theorem fraction_place (d v : ℕ) {j L : ℕ} (hL : L ≤ j + 1) :
    (10 : ℤ) ^ (j + 1) * d + 10 ^ (j + 1 - L) * v =
      10 ^ (j + 1 + 1 - (L + 1)) * ((d * 10 ^ L + v : ℕ) : ℤ) := by
  have hk : j + 1 = L + (j + 1 - L) := by omega
  rw [show j + 1 + 1 - (L + 1) = j + 1 - L by omega, hk, pow_add, Nat.add_sub_cancel_left]
  push_cast
  ring

theorem ne_point_of_isDigit {c : UInt8} (hc : IsDigit c) : c ≠ Char.toUInt8 '.' := by
  rintro rfl
  exact absurd hc (by decide)

/-- The digits after the point, at most one more than the exponent of `nMult`, are read as the
decimals they are, and nothing else is. -/
theorem parseFraction_eq_iff (f : List UInt8) (j : ℕ) (u u' : ℤ) :
    parseFraction f (10 ^ j) u = (u', []) ↔
      (∀ c ∈ f, IsDigit c) ∧ f.length ≤ j + 1 ∧ u' = u + 10 ^ (j + 1 - f.length) * digitsValue f := by
  induction f generalizing j u with
  | nil =>
    simp only [parseFraction, Prod.mk.injEq, and_true]
    simp
    exact eq_comm
  | cons c cs ih =>
    by_cases hc : IsDigit c
    · have hcval : (c.toNat : ℤ) - 48 = ((c.toNat - 48 : ℕ) : ℤ) := by
        have := isDigit_iff.1 hc
        omega
      rw [parseFraction, if_pos ⟨hc, by positivity⟩, hcval]
      cases j with
      | zero =>
        -- `nMult` is now `0`: only the end of the string may follow
        cases cs with
        | nil =>
          simp [parseFraction, digitsValue_cons, hc]
          exact eq_comm
        | cons c' cs' =>
          simp [parseFraction]
      | succ j =>
        rw [show ((10 : ℤ) ^ (j + 1)).tdiv 10 = 10 ^ j by
          rw [pow_succ, Int.mul_tdiv_cancel _ (by decide)], ih]
        simp only [List.forall_mem_cons, hc, true_and, List.length_cons]
        refine and_congr_right fun _ => ⟨fun ⟨hlen, hu⟩ => ⟨by omega, ?_⟩,
          fun ⟨hlen, hu⟩ => ⟨by omega, ?_⟩⟩
        · rw [hu, digitsValue_cons, ← fraction_place _ _ hlen, add_assoc]
        · rw [hu, digitsValue_cons, ← fraction_place _ _ (by omega), add_assoc]
    · rw [parseFraction, if_neg (fun h => hc h.1)]
      simp [hc]

/-- Whole digits go to `strWhole` one by one. -/
theorem parseLoop_append_digits (w rest acc : List UInt8) (hw : ∀ c ∈ w, IsDigit c) :
    parseLoop (w ++ rest) acc = parseLoop rest (acc ++ w) := by
  induction w generalizing acc with
  | nil => simp
  | cons c cs ih =>
    have hc := hw c List.mem_cons_self
    rw [List.cons_append, parseLoop, if_neg (ne_point_of_isDigit hc),
      if_neg (by simp [isSpace_eq_false_of_isDigit hc]), if_neg (by simp [hc]),
      ih _ (fun x hx => hw x (List.mem_cons_of_mem c hx)), List.append_assoc,
      List.singleton_append]

/-- `COIN / 10`, the worth of the first decimal. -/
theorem coin_tdiv_ten : coin.tdiv 10 = 10 ^ 7 := rfl

/-- On a numeral, the loop returns its whole digits and the units of its decimals. -/
theorem parseLoop_numeral {str w f : List UInt8} (h : IsMoneyNumeral str w f) :
    parseLoop str [] = some (w, 10 ^ (8 - f.length) * (digitsValue f : ℤ), []) := by
  have hw : ∀ c ∈ w, IsDigit c := fun c hc => h.digits c (List.mem_append_left f hc)
  have hf : ∀ c ∈ f, IsDigit c := fun c hc => h.digits c (List.mem_append_right w hc)
  rcases h.shape with ⟨rfl, rfl, -⟩ | rfl
  · have := parseLoop_append_digits str [] [] hw
    rw [List.append_nil, List.nil_append] at this
    rw [this, parseLoop, digitsValue_nil, Nat.cast_zero, mul_zero]
  · rw [parseLoop_append_digits _ _ _ hw, List.nil_append, parseLoop, if_pos rfl, coin_tdiv_ten,
      (parseFraction_eq_iff f 7 0 _).2 ⟨hf, h.frac_le, rfl⟩, zero_add]

/-- **What the loop accepts.** Whatever reaches the end of the string is whole digits, or whole
digits, a point and at most eight decimals. -/
theorem parseLoop_eq_some {str acc W : List UInt8} {u : ℤ}
    (h : parseLoop str acc = some (W, u, [])) :
    ∃ w f, W = acc ++ w ∧ (str = w ∧ f = [] ∨ str = w ++ Char.toUInt8 '.' :: f) ∧
      (∀ c ∈ w ++ f, IsDigit c) ∧ f.length ≤ 8 ∧ u = 10 ^ (8 - f.length) * digitsValue f := by
  induction str generalizing acc with
  | nil =>
    simp only [parseLoop, Option.some.injEq, Prod.mk.injEq] at h
    obtain ⟨rfl, rfl, -⟩ := h
    exact ⟨[], [], by simp, .inl ⟨rfl, rfl⟩, by simp, by simp, by simp⟩
  | cons c cs ih =>
    simp only [parseLoop] at h
    split_ifs at h with hpoint hspace hdigit
    · -- the point hands the rest to the fraction loop
      rw [coin_tdiv_ten] at h
      rcases hfr : parseFraction cs (10 ^ 7) 0 with ⟨nUnits, p⟩
      rw [hfr] at h
      simp only [Option.some.injEq, Prod.mk.injEq] at h
      obtain ⟨rfl, rfl, rfl⟩ := h
      obtain ⟨hf, hlen, hu⟩ := (parseFraction_eq_iff cs 7 0 _).1 hfr
      exact ⟨[], cs, by simp, .inr (by rw [hpoint]; rfl), by simpa using hf, hlen,
        by rw [hu, zero_add]⟩
    · -- a digit joins `strWhole`
      obtain ⟨w, f, hW, hshape, hd, hlen, hu⟩ := ih h
      refine ⟨c :: w, f, by simp [hW], ?_, ?_, hlen, hu⟩
      · rcases hshape with ⟨rfl, rfl⟩ | rfl
        · exact .inl ⟨rfl, rfl⟩
        · exact .inr rfl
      · have hc : IsDigit c := by simpa using hdigit
        simpa [hc] using hd

/-- Ten digits at most fit `int64_t`, so `LocaleIndependentAtoi` reads them exactly. -/
theorem LocaleIndependentAtoi_whole {w : List UInt8} (hw : ∀ c ∈ w, IsDigit c)
    (hlen : w.length ≤ 10) : LocaleIndependentAtoi w = digitsValue w := by
  apply LocaleIndependentAtoi_of_digits hw
  have hlt : digitsValue w < 10 ^ 10 :=
    lt_of_lt_of_le (digitsValue_lt hw) (Nat.pow_le_pow_right (by decide) hlen)
  rw [Int64.toInt_maxValue]
  omega

/-- The decimals are worth less than a coin. -/
theorem fraction_units_lt {f : List UInt8} (hf : ∀ c ∈ f, IsDigit c) (hlen : f.length ≤ 8) :
    10 ^ (8 - f.length) * digitsValue f < 10 ^ 8 := by
  calc 10 ^ (8 - f.length) * digitsValue f < 10 ^ (8 - f.length) * 10 ^ f.length :=
        Nat.mul_lt_mul_of_pos_left (digitsValue_lt hf) (by positivity)
    _ = 10 ^ 8 := by rw [← pow_add, Nat.sub_add_cancel hlen]

/-- **What `ParseMoney` accepts.** A string without NUL whose trimmed part is a money numeral
whose value is in range, and it returns that value. -/
theorem ParseMoney_eq_some_iff (s : List UInt8) (v : ℤ) :
    ParseMoney s = some v ↔ ContainsNoNUL s ∧
      ∃ w f, IsMoneyNumeral (TrimString s) w f ∧ v = decimalValue w f ∧ moneyRange v := by
  constructor
  · intro h
    simp only [ParseMoney] at h
    split_ifs at h with hnul hemp
    split at h
    · contradiction
    · rename_i W u p hp
      split_ifs at h with hp' hW hu hv
      obtain rfl := Option.some.inj h
      obtain rfl : p = [] := not_not.1 hp'
      obtain ⟨w, f, rfl, hshape, hd, hflen, rfl⟩ := parseLoop_eq_some hp
      have hwlen : W.length ≤ 10 := not_lt.1 hW
      rw [LocaleIndependentAtoi_whole (fun c hc => hd c (List.mem_append_left f hc)) hwlen]
        at hv ⊢
      refine ⟨by simpa using hnul, W, f, ⟨?_, hd, hwlen, hflen⟩, rfl, hv⟩
      -- the trimmed string is not empty, so neither are its whole digits when there is no point
      rcases hshape with ⟨hs, hf⟩ | hs
      · exact .inl ⟨hs, hf, by rintro rfl; simp [hs] at hemp⟩
      · exact .inr hs
  · rintro ⟨hnul, w, f, hN, rfl, hv⟩
    have hw : ∀ c ∈ w, IsDigit c := fun c hc => hN.digits c (List.mem_append_left f hc)
    have hf : ∀ c ∈ f, IsDigit c := fun c hc => hN.digits c (List.mem_append_right w hc)
    have hemp : (TrimString s).isEmpty = false := by
      rcases hN.shape with ⟨h, -, hne⟩ | h
      · simpa [h] using hne
      · simp [h]
    -- the units of the decimals pass the range check on `nUnits`
    have hu : ¬((10 : ℤ) ^ (8 - f.length) * digitsValue f < 0 ∨
        (10 : ℤ) ^ (8 - f.length) * digitsValue f > coin) := by
      have hlt : ((10 ^ (8 - f.length) * digitsValue f : ℕ) : ℤ) < 10 ^ 8 := by
        exact_mod_cast fraction_units_lt hf hN.frac_le
      push_cast at hlt
      exact not_or.2 ⟨not_lt.2 (by positivity), not_lt.2 hlt.le⟩
    simp only [ParseMoney, hnul, hemp, parseLoop_numeral hN,
      LocaleIndependentAtoi_whole hw hN.whole_le]
    rw [if_neg (by decide), if_neg (by decide), if_neg (not_not.2 rfl),
      if_neg (not_lt.2 hN.whole_le), if_neg hu, ← decimalValue, if_neg (not_not.2 hv)]

example : ParseMoney (" 0.5\n".toList.map Char.toUInt8) = some 50000000 := by decide

example : ParseMoney ("0.123456789".toList.map Char.toUInt8) = none := by decide

/-! ### The round trip -/

section Numeral

variable {w f : List UInt8}

/-- Every character of a numeral `w.f` is a digit or the point. -/
theorem isDigit_or_point_of_mem (hd : ∀ c ∈ w ++ f, IsDigit c) {c : UInt8}
    (hc : c ∈ w ++ Char.toUInt8 '.' :: f) : IsDigit c ∨ c = Char.toUInt8 '.' := by
  rcases List.mem_append.1 hc with h | h
  · exact .inl (hd c (List.mem_append_left f h))
  · rcases List.mem_cons.1 h with h | h
    · exact .inr h
    · exact .inl (hd c (List.mem_append_right w h))

theorem ContainsNoNUL_numeral (hd : ∀ c ∈ w ++ f, IsDigit c) :
    ContainsNoNUL (w ++ Char.toUInt8 '.' :: f) = true := by
  rw [ContainsNoNUL, List.all_eq_true]
  intro c hc
  rcases isDigit_or_point_of_mem hd hc with h | rfl
  · have := isDigit_iff.1 h
    have : c ≠ 0 := fun h0 => by simp [h0] at this
    simpa using this
  · decide

theorem TrimString_numeral (hd : ∀ c ∈ w ++ f, IsDigit c) :
    TrimString (w ++ Char.toUInt8 '.' :: f) = w ++ Char.toUInt8 '.' :: f := by
  apply TrimStringView_of_forall
  intro c hc
  rcases isDigit_or_point_of_mem hd hc with h | rfl
  · exact contains_trimPattern_of_isDigit h
  · decide

end Numeral

/-- **The numeral `FormatMoney` writes for `n ≥ 0` denotes `n`.** -/
theorem decimalValue_FormatMoney (n : ℕ) :
    decimalValue (decimalDigits (n / 100000000))
      (trimFraction (List.leftpad 8 (Char.toUInt8 '0') (decimalDigits (n % 100000000)))) = n := by
  set f := List.leftpad 8 (Char.toUInt8 '0') (decimalDigits (n % 100000000))
  have hf : f.length = 8 := length_leftpad_decimalDigits (Nat.mod_lt n (by decide))
  have hunits : 10 ^ (8 - (trimFraction f).length) * digitsValue (trimFraction f) =
      n % 100000000 := by
    rw [mul_comm, ← hf, digitsValue_trimFraction, digitsValue_leftpad, digitsValue_decimalDigits]
  rw [decimalValue, digitsValue_decimalDigits, coin]
  exact_mod_cast (congrArg (n / 100000000 * 100000000 + ·) hunits).trans (Nat.div_add_mod' n _)

/-- **The round trip.** An amount in range is read back from what `FormatMoney` writes. -/
theorem ParseMoney_FormatMoney {n : ℤ} (hn : moneyRange n) :
    ParseMoney (FormatMoney n) = some n := by
  obtain ⟨h0, hmax⟩ := hn
  set f := List.leftpad 8 (Char.toUInt8 '0') (decimalDigits (n.natAbs % 100000000))
  have hf : f.length = 8 := length_leftpad_decimalDigits (Nat.mod_lt _ (by decide))
  have hd : ∀ c ∈ decimalDigits (n.natAbs / 100000000) ++ trimFraction f, IsDigit c := by
    intro c hc
    rcases List.mem_append.1 hc with h | h
    · exact isDigit_of_mem_decimalDigits h
    · exact isDigit_of_mem_trimFraction (fun c hc => isDigit_of_mem_leftpad hc) c h
  -- at most 21 million coins: eight whole digits
  have hwhole : (decimalDigits (n.natAbs / 100000000)).length ≤ 10 := by
    apply (length_decimalDigits_le_iff (by decide)).2
    have : n.natAbs ≤ 2100000000000000 := by
      have : maxMoney = 2100000000000000 := rfl
      omega
    omega
  have hlen := length_trimFraction (f := f) (by omega)
  rw [FormatMoney_eq, if_neg (not_lt.2 h0), List.nil_append]
  refine (ParseMoney_eq_some_iff _ _).2 ⟨ContainsNoNUL_numeral hd, _, _,
    ⟨.inr (TrimString_numeral hd), hd, hwhole, hlen.2.trans hf.le⟩, ?_, h0, hmax⟩
  rw [decimalValue_FormatMoney, Int.natAbs_of_nonneg h0]

/-- What `FormatMoney` writes, for every amount: the sign, at least one whole digit, a point, and
two to eight decimals with no zero at the end beyond the second. -/
theorem FormatMoney_shape (n : ℤ) :
    ∃ w f, FormatMoney n = (if n < 0 then [Char.toUInt8 '-'] else []) ++ w ++
        Char.toUInt8 '.' :: f ∧ w ≠ [] ∧ (∀ c ∈ w ++ f, IsDigit c) ∧
      2 ≤ f.length ∧ f.length ≤ 8 ∧ (2 < f.length → f.getLast? ≠ some (Char.toUInt8 '0')) := by
  set f := List.leftpad 8 (Char.toUInt8 '0') (decimalDigits (n.natAbs % 100000000))
  have hf : f.length = 8 := length_leftpad_decimalDigits (Nat.mod_lt _ (by decide))
  have hlen := length_trimFraction (f := f) (by omega)
  refine ⟨_, trimFraction f, FormatMoney_eq n, decimalDigits_ne_nil _, ?_, hlen.1, hlen.2.trans hf.le,
    getLast?_trimFraction_ne_zero⟩
  intro c hc
  rcases List.mem_append.1 hc with h | h
  · exact isDigit_of_mem_decimalDigits h
  · exact isDigit_of_mem_trimFraction (fun c hc => isDigit_of_mem_leftpad hc) c h

/-- One coin is written with two decimals, the second a zero: `"1.00"`. -/
theorem FormatMoney_coin :
    FormatMoney coin = [Char.toUInt8 '1', Char.toUInt8 '.', Char.toUInt8 '0', Char.toUInt8 '0'] := by
  decide

/-- **`FormatMoney` and `ParseMoney`.** Every amount in range is read back from what
`FormatMoney` writes; `FormatMoney` writes at least one whole digit and two to eight decimals,
with no zero at the end beyond the second; `ParseMoney` accepts exactly the strings without NUL
that are a money numeral once whitespace is trimmed and whose value is in range; and what it
accepts is read back from its `FormatMoney`. -/
theorem FormatMoney_ParseMoney_roundTrip :
    (∀ n, moneyRange n → ParseMoney (FormatMoney n) = some n) ∧
    (∀ n, ∃ w f, FormatMoney n = (if n < 0 then [Char.toUInt8 '-'] else []) ++ w ++
        Char.toUInt8 '.' :: f ∧ w ≠ [] ∧ (∀ c ∈ w ++ f, IsDigit c) ∧
      2 ≤ f.length ∧ f.length ≤ 8 ∧ (2 < f.length → f.getLast? ≠ some (Char.toUInt8 '0'))) ∧
    (∀ s v, ParseMoney s = some v ↔ ContainsNoNUL s ∧
      ∃ w f, IsMoneyNumeral (TrimString s) w f ∧ v = decimalValue w f ∧ moneyRange v) ∧
    (∀ s v, ParseMoney s = some v → moneyRange v ∧ ParseMoney (FormatMoney v) = some v) := by
  refine ⟨fun n hn => ParseMoney_FormatMoney hn, FormatMoney_shape, ParseMoney_eq_some_iff,
    fun s v h => ?_⟩
  obtain ⟨-, -, -, -, -, hrange⟩ := (ParseMoney_eq_some_iff s v).1 h
  exact ⟨hrange, ParseMoney_FormatMoney hrange⟩

end Tenscoin
