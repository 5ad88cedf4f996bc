import Mathlib
import Tenscoin.Lib.Bytes

/-!
# Sign-magnitude little-endian integers

An integer is written as the bytes of its magnitude, least significant first, with its sign in the
high bit of the last byte. A magnitude whose last byte already uses that bit takes one more byte
for the sign. Decoding reads the bytes as a little-endian number with the last byte's high bit
cleared (`magnitudeOf`) and negates it when that bit was set (`decode`).

Many byte strings decode to one integer: trailing zero bytes, or a negative zero. The
**minimal** ones (`IsMinimal`) keep magnitude bits in the last byte, unless the byte below it
needs its high bit. Then:

* `decode_encode`: the minimal encoding `encode v` (built from `Nat.digits 256`) decodes to `v`;
* `isMinimal_encode`: it is minimal;
* `encode_decode`: every minimal string is the encoding of what it decodes to, so minimal
  encodings are unique;
* `magnitudeOf_lt` and `length_encode_le`: `k` bytes hold exactly the magnitudes below
  `2 ^ (8 * k - 1)`.

Every proof splits a non-empty string as `body ++ [t]`: `magnitudeOf_concat` reads the magnitude
there, and `magnitude_decodeLE` recovers the digits of a number from bytes with no trailing zero.
-/

namespace SignMagnitude

open Bytes

/-! ### Encoding and decoding -/

/-- The base-256 digits of `a` as bytes, least significant first: no trailing zero, and no byte
at all for `0`. -/
def magnitude (a : ℕ) : List UInt8 := (Nat.digits 256 a).map UInt8.ofNat

/-- The minimal encoding of `v`: the bytes of its magnitude, with the sign in the high bit of the
last byte when that bit is free, and in one more byte when it is not. -/
def encode (v : ℤ) : List UInt8 :=
  let m := magnitude v.natAbs
  let sign : UInt8 := if v < 0 then 0x80 else 0
  if v = 0 then []
  else if 0x80 ≤ m.getLastD 0 then m ++ [sign]
  else m.dropLast ++ [m.getLastD 0 + sign]

/-- The magnitude a string stands for: its little-endian number with the high bit of the last
byte cleared. -/
def magnitudeOf (bs : List UInt8) : ℕ :=
  decodeLE bs.dropLast + 256 ^ (bs.length - 1) * (bs.getLastD 0 % 0x80).toNat

/-- The value of a string: its magnitude, negated when the last byte's high bit is set. -/
def decode (bs : List UInt8) : ℤ :=
  if 0x80 ≤ bs.getLastD 0 then -(magnitudeOf bs : ℤ) else magnitudeOf bs

/-- A minimal string: empty, or its last byte carries magnitude bits, or the byte below the last
has its high bit set, which the sign would otherwise take. -/
def IsMinimal (bs : List UInt8) : Prop :=
  bs = [] ∨ bs.getLastD 0 % 0x80 ≠ 0 ∨ 0x80 ≤ bs.dropLast.getLastD 0

instance : DecidablePred IsMinimal := fun _ => inferInstanceAs (Decidable (_ ∨ _ ∨ _))

/-! ### Bytes and digits -/

theorem map_toNat_magnitude (a : ℕ) : (magnitude a).map UInt8.toNat = Nat.digits 256 a := by
  rw [magnitude, List.map_map]
  conv_rhs => rw [← List.map_id (Nat.digits 256 a)]
  apply List.map_congr_left
  intro d hd
  exact UInt8.toNat_ofNat_of_lt (Nat.digits_lt_base (by norm_num) hd)

theorem decodeLE_magnitude (a : ℕ) : decodeLE (magnitude a) = a := by
  rw [decodeLE, map_toNat_magnitude, Nat.ofDigits_digits]

/-- Bytes with no trailing zero are the digits of their number. -/
theorem magnitude_decodeLE {bs : List UInt8} (h : bs.getLast? ≠ some 0) :
    magnitude (decodeLE bs) = bs := by
  have hdigits : Nat.digits 256 (decodeLE bs) = bs.map UInt8.toNat := by
    apply Nat.digits_ofDigits 256 (by norm_num)
    · intro d hd
      obtain ⟨b, -, rfl⟩ := List.mem_map.mp hd
      exact b.toNat_lt
    · intro hne
      rw [List.getLast_map]
      intro h0
      apply h
      rw [List.getLast?_eq_some_getLast (by simpa using hne)]
      exact congrArg some (UInt8.toNat_inj.mp h0)
  rw [magnitude, hdigits, List.map_map]
  conv_rhs => rw [← List.map_id bs]
  exact List.map_congr_left fun b _ => UInt8.ofNat_toNat

theorem getLast?_magnitude (a : ℕ) : (magnitude a).getLast? ≠ some 0 := by
  rcases Nat.eq_zero_or_pos a with rfl | ha
  · simp [magnitude]
  · have hne : Nat.digits 256 a ≠ [] := Nat.digits_ne_nil_iff_ne_zero.mpr ha.ne'
    rw [magnitude, List.getLast?_map, List.getLast?_eq_some_getLast hne, Option.map_some]
    intro h
    have hlt := Nat.digits_lt_base (b := 256) (by norm_num) (List.getLast_mem hne)
    apply Nat.getLast_digit_ne_zero 256 ha.ne'
    have h' : (Nat.digits 256 a).getLast hne % 256 = 0 := by
      simpa [UInt8.toNat_ofNat'] using congrArg UInt8.toNat (Option.some.inj h)
    rwa [Nat.mod_eq_of_lt hlt] at h'

/-! ### Strings split at their last byte -/

theorem magnitudeOf_concat (body : List UInt8) (t : UInt8) :
    magnitudeOf (body ++ [t]) = decodeLE body + 256 ^ body.length * (t % 0x80).toNat := by
  simp [magnitudeOf]

theorem decode_concat (body : List UInt8) (t : UInt8) :
    decode (body ++ [t]) = if 0x80 ≤ t then -(magnitudeOf (body ++ [t]) : ℤ)
      else magnitudeOf (body ++ [t]) := by
  rw [decode, List.getLastD_concat]

theorem decode_singleton (b : UInt8) :
    decode [b] = if 0x80 ≤ b then -((b % 0x80).toNat : ℤ) else ((b % 0x80).toNat : ℤ) := by
  simp [decode, magnitudeOf]

theorem isMinimal_concat (body : List UInt8) (t : UInt8) :
    IsMinimal (body ++ [t]) ↔ t % 0x80 ≠ 0 ∨ 0x80 ≤ body.getLastD 0 := by
  simp [IsMinimal]

/-- A magnitude byte below `0x80` keeps the sign bit free. -/
theorem add_sign_of_lt : ∀ d : UInt8, d < 0x80 → ∀ neg : Bool,
    (d + if neg then 0x80 else 0) % 0x80 = d ∧
      (0x80 ≤ d + (if neg then 0x80 else 0) ↔ neg = true) := by
  decide +kernel

/-- A byte is its magnitude bits and its sign bit. -/
theorem mod_add_sign : ∀ t : UInt8, t % 0x80 + (if 0x80 ≤ t then 0x80 else 0) = t := by
  decide +kernel

/-- A byte with no magnitude bits is the sign alone. -/
theorem eq_sign_of_mod_eq_zero : ∀ t : UInt8, t % 0x80 = 0 → t = if 0x80 ≤ t then 0x80 else 0 := by
  decide +kernel

theorem toNat_mod_lt (t : UInt8) : (t % 0x80).toNat < 128 := by
  rw [UInt8.toNat_mod]
  exact Nat.mod_lt _ (by decide)

/-- The digits of a non-zero magnitude end in a non-zero byte. -/
theorem magnitude_eq_concat {a : ℕ} (ha : a ≠ 0) :
    ∃ m d, magnitude a = m ++ [d] ∧ d ≠ 0 ∧ decodeLE m + 256 ^ m.length * d.toNat = a := by
  have hne : magnitude a ≠ [] := by
    simpa [magnitude] using Nat.digits_ne_nil_iff_ne_zero.mpr ha
  obtain ⟨m, d, hmd⟩ := (List.eq_nil_or_concat (magnitude a)).resolve_left hne
  rw [List.concat_eq_append] at hmd
  refine ⟨m, d, hmd, ?_, ?_⟩
  · intro hd
    apply getLast?_magnitude a
    rw [hmd, List.getLast?_concat, hd]
  · have h := decodeLE_magnitude a
    rwa [hmd, decodeLE_append, decodeLE_cons, decodeLE_nil, Nat.mul_zero, Nat.add_zero] at h

/-- A string decodes to `v` when its magnitude is `|v|` and its sign bit says whether `v < 0`. -/
theorem decode_eq_of {bs : List UInt8} {v : ℤ} (hmag : magnitudeOf bs = v.natAbs)
    (hsign : 0x80 ≤ bs.getLastD 0 ↔ v < 0) : decode bs = v := by
  rw [decode, hmag]
  by_cases h : v < 0
  · rw [if_pos (hsign.mpr h)]
    omega
  · rw [if_neg (mt hsign.mp h)]
    omega

/-! ### Round trips -/

/-- **The minimal encoding decodes to the integer.** -/
theorem decode_encode (v : ℤ) : decode (encode v) = v := by
  by_cases hv : v = 0
  · subst hv
    simp [encode, decode, magnitudeOf]
  obtain ⟨m, d, hmd, -, hval⟩ := magnitude_eq_concat (Int.natAbs_ne_zero.mpr hv)
  simp only [encode, hv, if_false, hmd, List.getLastD_concat, List.dropLast_concat]
  by_cases hd : 0x80 ≤ d
  · -- the sign takes one more byte, which carries no magnitude
    rw [if_pos hd]
    apply decode_eq_of
    · rw [magnitudeOf_concat, decodeLE_append, decodeLE_cons, decodeLE_nil]
      split <;> simp [hval]
    · rw [List.getLastD_concat]
      split <;> simp [*]
  · -- the sign goes into the high bit of the last magnitude byte
    rw [if_neg hd]
    have hd' : d < 0x80 := UInt8.not_le.mp hd
    obtain ⟨hmod, hbit⟩ := add_sign_of_lt d hd' (decide (v < 0))
    simp only [decide_eq_true_eq] at hmod hbit
    apply decode_eq_of
    · rw [magnitudeOf_concat, hmod, hval]
    · rw [List.getLastD_concat, hbit]

/-- **The minimal encoding is minimal.** -/
theorem isMinimal_encode (v : ℤ) : IsMinimal (encode v) := by
  by_cases hv : v = 0
  · subst hv
    simp [encode, IsMinimal]
  obtain ⟨m, d, hmd, hd0, -⟩ := magnitude_eq_concat (Int.natAbs_ne_zero.mpr hv)
  simp only [encode, hv, if_false, hmd, List.getLastD_concat, List.dropLast_concat]
  by_cases hd : 0x80 ≤ d
  · -- the byte below the sign byte has its high bit set
    rw [if_pos hd, isMinimal_concat, List.getLastD_concat]
    exact Or.inr hd
  · -- the last byte keeps the magnitude's top digit, which is not zero
    rw [if_neg hd, isMinimal_concat]
    have hmod := (add_sign_of_lt d (UInt8.not_le.mp hd) (decide (v < 0))).1
    simp only [decide_eq_true_eq] at hmod
    left
    rw [hmod]
    exact hd0

/-- The encoding of a non-zero magnitude with a sign. -/
theorem encode_signed {M : ℕ} (hM : M ≠ 0) (neg : Prop) [Decidable neg] :
    encode (if neg then -(M : ℤ) else M) =
      if 0x80 ≤ (magnitude M).getLastD 0 then magnitude M ++ [if neg then 0x80 else 0]
      else (magnitude M).dropLast ++ [(magnitude M).getLastD 0 + if neg then 0x80 else 0] := by
  have hM' : (0 : ℤ) < M := by omega
  by_cases h : neg
  · simp [encode, h, hM, Nat.pos_of_ne_zero hM]
  · simp [encode, h, hM, hM'.not_gt]

/-- **A minimal string is the encoding of its value**: minimal encodings are unique. -/
theorem encode_decode {bs : List UInt8} (h : IsMinimal bs) : encode (decode bs) = bs := by
  rcases List.eq_nil_or_concat bs with rfl | ⟨body, t, rfl⟩
  · simp [encode, decode, magnitudeOf]
  rw [List.concat_eq_append] at h ⊢
  rw [isMinimal_concat] at h
  rw [decode_concat]
  by_cases ht : t % 0x80 = 0
  · -- the last byte is the sign alone, and `body` is the magnitude's digits
    have hbody : 0x80 ≤ body.getLastD 0 := h.resolve_left (not_not.mpr ht)
    have hlast : body.getLast? ≠ some 0 := by
      rcases List.eq_nil_or_concat body with rfl | ⟨b, u, rfl⟩
      · simp
      · rw [List.concat_eq_append, List.getLastD_concat] at hbody
        rw [List.concat_eq_append, List.getLast?_concat]
        rintro ⟨⟩
        exact absurd hbody (by decide)
    have hmag : magnitude (magnitudeOf (body ++ [t])) = body := by
      rw [magnitudeOf_concat, ht]
      simpa using magnitude_decodeLE hlast
    have hM : magnitudeOf (body ++ [t]) ≠ 0 := by
      intro h0
      rw [h0] at hmag
      rw [← hmag] at hbody
      exact absurd hbody (by simp [magnitude])
    rw [encode_signed hM, hmag, if_pos hbody, ← eq_sign_of_mod_eq_zero t ht]
  · -- the last byte keeps its magnitude bits, which end the magnitude's digits
    have hmag : magnitude (magnitudeOf (body ++ [t])) = body ++ [t % 0x80] := by
      have hdig := magnitude_decodeLE (show (body ++ [t % 0x80]).getLast? ≠ some 0 by simpa using ht)
      rw [magnitudeOf_concat, ← hdig]
      simp [decodeLE_append]
    have hM : magnitudeOf (body ++ [t]) ≠ 0 := by
      intro h0
      rw [h0] at hmag
      simp [magnitude] at hmag
    have hlt : ¬0x80 ≤ t % 0x80 := UInt8.not_le.mpr (UInt8.lt_iff_toNat_lt.mpr (toNat_mod_lt t))
    rw [encode_signed hM, hmag, List.getLastD_concat, if_neg hlt, List.dropLast_concat,
      mod_add_sign]

/-! ### Lengths -/

/-- `k` bytes hold a magnitude below `2 ^ (8 * k - 1)`: the last byte gives up its high bit. -/
theorem magnitudeOf_lt {bs : List UInt8} (h : bs ≠ []) :
    magnitudeOf bs < 2 ^ (8 * bs.length - 1) := by
  obtain ⟨body, t, rfl⟩ := (List.eq_nil_or_concat bs).resolve_left h
  rw [List.concat_eq_append]
  have hbody := decodeLE_lt body
  have ht := toNat_mod_lt t
  calc magnitudeOf (body ++ [t])
      = decodeLE body + 256 ^ body.length * (t % 0x80).toNat := magnitudeOf_concat body t
    _ < 256 ^ body.length * ((t % 0x80).toNat + 1) := by rw [Nat.mul_succ]; omega
    _ ≤ 256 ^ body.length * 128 := Nat.mul_le_mul_left _ ht
    _ = 2 ^ (8 * (body ++ [t]).length - 1) := by
      rw [List.length_append, List.length_singleton,
        show 8 * (body.length + 1) - 1 = 8 * body.length + 7 by omega, pow_add, pow_mul]
      norm_num

/-- **A magnitude below `2 ^ (8 * k - 1)` is encoded in at most `k` bytes.** -/
theorem length_encode_le {v : ℤ} {k : ℕ} (hv : v.natAbs < 2 ^ (8 * k - 1)) :
    (encode v).length ≤ k := by
  by_cases hv0 : v = 0
  · simp [encode, hv0]
  obtain ⟨m, d, hmd, hd0, hval⟩ := magnitude_eq_concat (Int.natAbs_ne_zero.mpr hv0)
  have h256 : 256 ^ m.length = 2 ^ (8 * m.length) := by
    rw [pow_mul]
    norm_num
  have htop : 256 ^ m.length * d.toNat ≤ v.natAbs := hval ▸ Nat.le_add_left _ _
  simp only [encode, hv0, if_false, hmd, List.getLastD_concat, List.dropLast_concat]
  by_cases hd : 0x80 ≤ d
  · -- the top digit has its high bit set: `|v|` is at least `2 ^ (8 * m.length + 7)`
    rw [if_pos hd]
    simp only [List.length_append, List.length_singleton]
    have hlow : 2 ^ (8 * m.length + 7) ≤ v.natAbs := by
      calc 2 ^ (8 * m.length + 7) = 256 ^ m.length * 128 := by rw [pow_add, h256]; rfl
        _ ≤ 256 ^ m.length * d.toNat := Nat.mul_le_mul_left _ (UInt8.le_iff_toNat_le.mp hd)
        _ ≤ v.natAbs := htop
    have := (Nat.pow_lt_pow_iff_right (by norm_num)).mp (lt_of_le_of_lt hlow hv)
    omega
  · -- the top digit is not zero: `|v|` is at least `2 ^ (8 * m.length)`
    rw [if_neg hd, List.length_append, List.length_singleton]
    have hd1 : 1 ≤ d.toNat := Nat.one_le_iff_ne_zero.mpr fun h0 => hd0 (UInt8.toNat_inj.mp h0)
    have hlow : 2 ^ (8 * m.length) ≤ v.natAbs := by
      calc 2 ^ (8 * m.length) = 256 ^ m.length * 1 := by rw [h256, Nat.mul_one]
        _ ≤ 256 ^ m.length * d.toNat := Nat.mul_le_mul_left _ hd1
        _ ≤ v.natAbs := htop
    have := (Nat.pow_lt_pow_iff_right (by norm_num)).mp (lt_of_le_of_lt hlow hv)
    omega

end SignMagnitude
