import Mathlib
import Tenscoin.Lib.Bits

/-!
# Strict DER signature encoding

`IsValidSignatureEncoding` (`script/interpreter.cpp`), the BIP66 check that a signature is
`0x30 L 0x02 lr R 0x02 ls S h` in strict DER, and `CheckSignatureEncoding`, which applies it
under the `DERSIG`, `LOW_S` and `STRICTENC` flags. Every read `sig[i]` is a lookup that fails
(`none`) past the end of the vector, so that the check is shown never to read outside it.

The language it decides is `IsStrictDER`: some `derSig R S h` with `R` and `S` minimal
encodings of non-negative integers (`IsMinimalInt`) and `L ≤ 70`. The source checks `R` and `S`
with the same eight lines; they are `checkDERInteger`, applied at both places, and
`checkDERInteger_eq` says once that they accept a type byte `0x02` and a minimal integer. The
rest reads the signature through `frame`, the layout the checks assume once its two length bytes
are known:

* `IsValidSignatureEncoding_early`: a vector whose length bytes do not fit is rejected by one of
  the length checks;
* `IsValidSignatureEncoding_frame`: on a frame whose length bytes are right, the check is
  `FrameOk`, the header bytes and the two integers;
* `isStrictDER_frame_iff`: such a frame is strict DER exactly when `FrameOk` holds, since the
  length byte of `R` fixes where it ends (`frame_inj`);
* `IsValidSignatureEncoding_spec` puts them together, and `CheckSignatureEncoding_der` and
  `CheckSignatureEncoding_ne_der` carry it to the flags.
-/

namespace Tenscoin

/-! ### The model -/

/-- The `ScriptError` values the modelled checks report (`script/script_error.h`). -/
inductive ScriptError where
  | SCRIPT_ERR_SIG_HASHTYPE
  | SCRIPT_ERR_SIG_DER
  | SCRIPT_ERR_SIG_HIGH_S
deriving DecidableEq, Repr

/-- `SCRIPT_VERIFY_STRICTENC`. -/
def SCRIPT_VERIFY_STRICTENC : UInt32 := (1 : UInt32) <<< 1

/-- `SCRIPT_VERIFY_DERSIG`. -/
def SCRIPT_VERIFY_DERSIG : UInt32 := (1 : UInt32) <<< 2

/-- `SCRIPT_VERIFY_LOW_S`. -/
def SCRIPT_VERIFY_LOW_S : UInt32 := (1 : UInt32) <<< 3

/-- `SIGHASH_ALL`. -/
def SIGHASH_ALL : UInt8 := 1

/-- `SIGHASH_SINGLE`. -/
def SIGHASH_SINGLE : UInt8 := 3

/-- `SIGHASH_ANYONECANPAY`. -/
def SIGHASH_ANYONECANPAY : UInt8 := 0x80

/-- The checks of one integer element of a signature, made once for `R` and once for `S`:
its type byte at `t`, its length `len`, and its bytes from `p`. -/
def checkDERInteger (sig : List UInt8) (t len p : ℕ) : Option Bool := do
  -- Check whether the element is an integer.
  if (← sig[t]?) ≠ 0x02 then return false
  -- Zero-length integers are not allowed.
  if len = 0 then return false
  -- Negative numbers are not allowed.
  if (← sig[p]?) &&& 0x80 ≠ 0 then return false
  -- Null bytes at the start are not allowed, unless the integer would otherwise be interpreted
  -- as a negative number; `&&` reads `sig[p + 1]` only when the first two tests hold.
  if len > 1 then
    if (← sig[p]?) = 0x00 then
      if (← sig[p + 1]?) &&& 0x80 = 0 then return false
  return true

/-- `IsValidSignatureEncoding(sig)`; `none` is a read past the end of `sig`. -/
def IsValidSignatureEncoding (sig : List UInt8) : Option Bool := do
  -- Minimum and maximum size constraints.
  if sig.length < 9 then return false
  if sig.length > 73 then return false
  -- A signature is of type 0x30 (compound).
  if (← sig[0]?) ≠ 0x30 then return false
  -- Make sure the length covers the entire signature.
  if (← sig[1]?).toNat ≠ sig.length - 3 then return false
  let lenR := (← sig[3]?).toNat
  -- Make sure the length of the S element is still inside the signature.
  if 5 + lenR ≥ sig.length then return false
  let lenS := (← sig[5 + lenR]?).toNat
  -- Verify that the length of the signature matches the sum of the length of the elements.
  if lenR + lenS + 7 ≠ sig.length then return false
  -- The R element: type at 2, bytes from 4.
  if !(← checkDERInteger sig 2 lenR 4) then return false
  -- The S element: type at lenR + 4, bytes from lenR + 6.
  checkDERInteger sig (lenR + 4) lenS (lenR + 6)

/-- `IsLowDERSignature(vchSig, serror)`, with `CPubKey::CheckLowS` on the signature without its
sighash byte as a parameter; an error is what `serror` is set to when it returns `false`. -/
def IsLowDERSignature (checkLowS : List UInt8 → Bool) (vchSig : List UInt8) :
    Option (Except ScriptError Unit) := do
  if !(← IsValidSignatureEncoding vchSig) then return .error .SCRIPT_ERR_SIG_DER
  let vchSigCopy := vchSig.take (vchSig.length - 1)
  if !checkLowS vchSigCopy then return .error .SCRIPT_ERR_SIG_HIGH_S
  return .ok ()

/-- `IsDefinedHashtypeSignature(vchSig)`. -/
def IsDefinedHashtypeSignature (vchSig : List UInt8) : Option Bool := do
  if vchSig.length = 0 then return false
  let nHashType := (← vchSig[vchSig.length - 1]?) &&& ~~~SIGHASH_ANYONECANPAY
  if nHashType < SIGHASH_ALL || nHashType > SIGHASH_SINGLE then return false
  return true

/-- `CheckSignatureEncoding(vchSig, flags, serror)`: `.ok ()` for `true`, and for `false` the
error `serror` is set to. -/
def CheckSignatureEncoding (checkLowS : List UInt8 → Bool) (vchSig : List UInt8) (flags : UInt32) :
    Option (Except ScriptError Unit) := do
  -- Empty signature. Not strictly DER encoded, but allowed to provide a compact way to provide
  -- an invalid signature for use with CHECK(MULTI)SIG
  if vchSig.length = 0 then return .ok ()
  if flags &&& (SCRIPT_VERIFY_DERSIG ||| SCRIPT_VERIFY_LOW_S ||| SCRIPT_VERIFY_STRICTENC) ≠ 0 then
    if !(← IsValidSignatureEncoding vchSig) then return .error .SCRIPT_ERR_SIG_DER
  if flags &&& SCRIPT_VERIFY_LOW_S ≠ 0 then
    -- serror is set
    if let .error e ← IsLowDERSignature checkLowS vchSig then return .error e
  if flags &&& SCRIPT_VERIFY_STRICTENC ≠ 0 then
    if !(← IsDefinedHashtypeSignature vchSig) then return .error .SCRIPT_ERR_SIG_HASHTYPE
  return .ok ()

/-! ### Strict DER -/

/-- `R` is the shortest big-endian two's-complement encoding of a non-negative integer: not
empty, its first byte below `0x80`, and a leading `0x00` only alone or before a byte of at
least `0x80`. -/
def IsMinimalInt : List UInt8 → Prop
  | [] => False
  | [b] => b < 0x80
  | b :: c :: _ => b < 0x80 ∧ (b = 0 → 0x80 ≤ c)

instance : DecidablePred IsMinimalInt
  | [] => inferInstanceAs (Decidable False)
  | [_] => inferInstanceAs (Decidable (_ < _))
  | _ :: _ :: _ => inferInstanceAs (Decidable (_ ∧ _))

/-- The DER signature `0x30 L 0x02 lr R 0x02 ls S h` of the integers `R`, `S` and the sighash
byte `h`. -/
def derSig (R S : List UInt8) (h : UInt8) : List UInt8 :=
  [0x30, UInt8.ofNat (R.length + S.length + 4), 0x02, UInt8.ofNat R.length] ++ R ++
    [0x02, UInt8.ofNat S.length] ++ S ++ [h]

/-- `sig` is a strict DER signature followed by a sighash byte. -/
def IsStrictDER (sig : List UInt8) : Prop :=
  ∃ R S h, IsMinimalInt R ∧ IsMinimalInt S ∧ R.length + S.length + 4 ≤ 70 ∧ sig = derSig R S h

/-- What the checks demand of a frame whose length bytes are right. -/
def FrameOk (a0 a1 a2 : UInt8) (R : List UInt8) (a4 : UInt8) (S : List UInt8) : Prop :=
  a0 = 0x30 ∧ a1.toNat = R.length + S.length + 4 ∧ (a2 = 0x02 ∧ IsMinimalInt R) ∧
    (a4 = 0x02 ∧ IsMinimalInt S)

instance (a0 a1 a2 : UInt8) (R : List UInt8) (a4 : UInt8) (S : List UInt8) :
    Decidable (FrameOk a0 a1 a2 R a4 S) :=
  inferInstanceAs (Decidable (_ ∧ _ ∧ _ ∧ _))

/-- The layout the checks read: four header bytes, `R`, two bytes, `S` and a last byte. -/
def frame (a0 a1 a2 a3 : UInt8) (R : List UInt8) (a4 a5 : UInt8) (S : List UInt8) (h : UInt8) :
    List UInt8 :=
  a0 :: a1 :: a2 :: a3 :: (R ++ a4 :: a5 :: (S ++ [h]))

theorem derSig_eq_frame (R S : List UInt8) (h : UInt8) :
    derSig R S h = frame 0x30 (UInt8.ofNat (R.length + S.length + 4)) 0x02 (UInt8.ofNat R.length)
      R 0x02 (UInt8.ofNat S.length) S h := by
  simp [derSig, frame]

/-! ### Reading a frame -/

section Frame

variable {a0 a1 a2 a3 a4 a5 h : UInt8} {R S : List UInt8}

@[simp] theorem length_frame : (frame a0 a1 a2 a3 R a4 a5 S h).length = R.length + S.length + 7 := by
  simp [frame]
  omega

@[simp] theorem frame_getElem?_zero : (frame a0 a1 a2 a3 R a4 a5 S h)[0]? = some a0 := rfl

@[simp] theorem frame_getElem?_one : (frame a0 a1 a2 a3 R a4 a5 S h)[1]? = some a1 := rfl

@[simp] theorem frame_getElem?_two : (frame a0 a1 a2 a3 R a4 a5 S h)[2]? = some a2 := rfl

@[simp] theorem frame_getElem?_three : (frame a0 a1 a2 a3 R a4 a5 S h)[3]? = some a3 := rfl

theorem frame_getElem?_R {i : ℕ} (hi : i < R.length) :
    (frame a0 a1 a2 a3 R a4 a5 S h)[4 + i]? = R[i]? := by
  rw [Nat.add_comm]
  simp [frame, List.getElem?_append_left hi]

theorem frame_getElem?_a4 : (frame a0 a1 a2 a3 R a4 a5 S h)[R.length + 4]? = some a4 := by
  simp [frame]

theorem frame_getElem?_a5 : (frame a0 a1 a2 a3 R a4 a5 S h)[5 + R.length]? = some a5 := by
  rw [Nat.add_comm]
  simp [frame]

theorem frame_getElem?_S {j : ℕ} (hj : j < S.length) :
    (frame a0 a1 a2 a3 R a4 a5 S h)[R.length + 6 + j]? = S[j]? := by
  have hidx : R.length + 6 + j = (R.length + (j + 2)) + 4 := by omega
  rw [hidx]
  simp only [frame, List.getElem?_cons_succ]
  rw [List.getElem?_append_right (Nat.le_add_right _ _), Nat.add_sub_cancel_left]
  simp only [List.getElem?_cons_succ]
  exact List.getElem?_append_left hj

/-- Every vector of length `m + k + 3` splits as `R`, two bytes, `S` and a last byte with
`|R| = m` and `|S| = k`. -/
theorem exists_split (t : List UInt8) {m k : ℕ} (ht : t.length = m + k + 3) :
    ∃ R a4 a5 S h, R.length = m ∧ S.length = k ∧ t = R ++ a4 :: a5 :: (S ++ [h]) := by
  obtain ⟨u, hu⟩ : ∃ u, t = t.take m ++ u := ⟨t.drop m, (List.take_append_drop m t).symm⟩
  have hlen : u.length = k + 3 := by
    have := congrArg List.length hu
    simp at this
    omega
  match u, hlen with
  | a4 :: a5 :: v, hv =>
    obtain ⟨S, h, hS⟩ : ∃ S h, v = S ++ [h] := by
      obtain ⟨S, h, hS⟩ := (List.eq_nil_or_concat' v).resolve_left (by
        rintro rfl
        simp at hv)
      exact ⟨S, h, hS⟩
    refine ⟨t.take m, a4, a5, S, h, by simp; omega, ?_, by rw [← hS]; exact hu⟩
    have := congrArg List.length hS
    simp at this hv
    omega

end Frame

/-! ### The integers' bit tests -/

/-- **One integer element.** Wherever a vector holds a type byte `a` at `t` and the bytes `X`
from `p`, the element's checks accept exactly a type `0x02` and a minimal `X`. -/
theorem checkDERInteger_eq {sig X : List UInt8} {t p : ℕ} {a : UInt8} (ht : sig[t]? = some a)
    (hX : ∀ i < X.length, sig[p + i]? = X[i]?) :
    checkDERInteger sig t X.length p = some (decide (a = 0x02 ∧ IsMinimalInt X)) := by
  unfold checkDERInteger
  simp only [ht, Option.bind_eq_bind, Option.bind_some]
  by_cases ha : a = 0x02
  swap
  · simp [ha]
  cases X with
  | nil => simp [ha, IsMinimalInt]
  | cons x X =>
    have hx : sig[p]? = some x := by simpa using hX 0 (by simp)
    simp only [hx, ha, Option.bind_some, List.length_cons]
    -- the sign test, then the padding test on the first two bytes
    cases X with
    | nil =>
      by_cases hneg : x &&& 0x80 = 0
      · simp [hneg, IsMinimalInt, ← Bits.and80_eq_zero_iff]
      · simp [hneg, IsMinimalInt, ← Bits.and80_eq_zero_iff]
    | cons c X =>
      have hc : sig[p + 1]? = some c := by simpa using hX 1 (by simp)
      simp only [hc, Option.bind_some]
      by_cases hneg : x &&& 0x80 = 0
      · by_cases hx0 : x = 0
        · -- a leading zero: the next byte must have its sign bit set
          by_cases hc8 : c < 0x80
          · simp [hx0, hc8, IsMinimalInt, Bits.and80_eq_zero_iff]
          · simp [hx0, hc8, IsMinimalInt, Bits.and80_eq_zero_iff, UInt8.not_lt.mp hc8]
        · simp [hneg, hx0, IsMinimalInt, ← Bits.and80_eq_zero_iff]
      · simp [hneg, IsMinimalInt, ← Bits.and80_eq_zero_iff]

/-- **A frame with the right length bytes** is accepted exactly when its header bytes are right
and both integers are minimal. -/
theorem IsValidSignatureEncoding_frame {a0 a1 a2 a3 a4 a5 h : UInt8} {R S : List UInt8}
    (ha3 : a3.toNat = R.length) (ha5 : a5.toNat = S.length) (hlen : 9 ≤ R.length + S.length + 7)
    (hlen' : R.length + S.length + 7 ≤ 73) :
    IsValidSignatureEncoding (frame a0 a1 a2 a3 R a4 a5 S h) =
      some (decide (FrameOk a0 a1 a2 R a4 S)) := by
  have hR : checkDERInteger (frame a0 a1 a2 a3 R a4 a5 S h) 2 R.length 4 =
      some (decide (a2 = 0x02 ∧ IsMinimalInt R)) :=
    checkDERInteger_eq frame_getElem?_two fun _ hi => frame_getElem?_R hi
  have hS : checkDERInteger (frame a0 a1 a2 a3 R a4 a5 S h) (R.length + 4) S.length (R.length + 6) =
      some (decide (a4 = 0x02 ∧ IsMinimalInt S)) :=
    checkDERInteger_eq frame_getElem?_a4 fun _ hj => frame_getElem?_S hj
  unfold IsValidSignatureEncoding
  simp only [length_frame, frame_getElem?_zero, frame_getElem?_one, frame_getElem?_three, ha3,
    frame_getElem?_a5, ha5, hR, hS, Option.bind_eq_bind, Option.bind_some]
  -- the length tests all pass, so only the header bytes and the integers decide
  rw [if_neg (by omega), if_neg (by omega)]
  by_cases h0 : a0 = 0x30
  swap
  · simp [h0, FrameOk]
  by_cases h1 : a1.toNat = R.length + S.length + 4
  swap
  · simp [h0, h1, FrameOk]
  have h1' : a1.toNat = R.length + S.length + 7 - 3 := by omega
  rw [if_neg (not_not.mpr h0), if_neg (not_not.mpr h1'), if_neg (by omega), if_neg (by omega)]
  by_cases hRok : a2 = 0x02 ∧ IsMinimalInt R
  · simp [hRok, FrameOk, h0, h1]
  · simp [hRok, FrameOk]

/-! ### The language it decides -/

theorem IsMinimalInt.ne_nil {R : List UInt8} (h : IsMinimalInt R) : R ≠ [] := by
  rintro rfl
  exact h

theorem eq_ofNat_of_toNat_eq {a : UInt8} {n : ℕ} (h : a.toNat = n) : a = UInt8.ofNat n := by
  rw [← h, UInt8.ofNat_toNat]

theorem toNat_ofNat_of_lt {n : ℕ} (h : n < 256) : (UInt8.ofNat n).toNat = n := by
  rw [UInt8.toNat_ofNat']
  exact Nat.mod_eq_of_lt h

/-- Two frames with as long an `R` are equal field by field. -/
theorem frame_inj {a0 a1 a2 a3 a4 a5 h b0 b1 b2 b3 b4 b5 h' : UInt8} {R S R' S' : List UInt8}
    (he : frame a0 a1 a2 a3 R a4 a5 S h = frame b0 b1 b2 b3 R' b4 b5 S' h')
    (hR : R.length = R'.length) :
    a0 = b0 ∧ a1 = b1 ∧ a2 = b2 ∧ a3 = b3 ∧ R = R' ∧ a4 = b4 ∧ a5 = b5 ∧ S = S' := by
  simp only [frame, List.cons.injEq] at he
  obtain ⟨h0, h1, h2, h3, htail⟩ := he
  obtain ⟨rfl, hrest⟩ := List.append_inj htail hR
  simp only [List.cons.injEq] at hrest
  obtain ⟨h4, h5, hS⟩ := hrest
  have hSlen : S.length = S'.length := by
    have := congrArg List.length hS
    simpa using this
  exact ⟨h0, h1, h2, h3, rfl, h4, h5, (List.append_inj hS hSlen).1⟩

/-- **A frame with the right length bytes is strict DER exactly when `FrameOk` holds**: the
length byte of `R` fixes where it ends, so a DER reading of the frame has its `R` and `S`. -/
theorem isStrictDER_frame_iff {a0 a1 a2 a3 a4 a5 h : UInt8} {R S : List UInt8}
    (ha3 : a3.toNat = R.length) (ha5 : a5.toNat = S.length)
    (hlen' : R.length + S.length + 7 ≤ 73) :
    IsStrictDER (frame a0 a1 a2 a3 R a4 a5 S h) ↔ FrameOk a0 a1 a2 R a4 S := by
  constructor
  · rintro ⟨R', S', h', hR', hS', hle, he⟩
    rw [derSig_eq_frame] at he
    -- the length byte of `R` is read from the same position in both
    have hRlen : R.length = R'.length := by
      have h3 := congrArg (fun l : List UInt8 => l[3]?) he
      simp only [frame_getElem?_three, Option.some.injEq] at h3
      rw [← ha3, h3, toNat_ofNat_of_lt (by omega)]
    obtain ⟨h0, h1, h2, -, rfl, h4, -, rfl⟩ := frame_inj he hRlen
    refine ⟨h0, ?_, ⟨h2, hR'⟩, ⟨h4, hS'⟩⟩
    rw [h1, toNat_ofNat_of_lt (by omega)]
  · rintro ⟨h0, h1, ⟨h2, hR⟩, ⟨h4, hS⟩⟩
    refine ⟨R, S, h, hR, hS, by omega, ?_⟩
    rw [derSig_eq_frame, h0, h2, h4, eq_ofNat_of_toNat_eq h1, eq_ofNat_of_toNat_eq ha3,
      eq_ofNat_of_toNat_eq ha5]

/-- Every strict DER signature is accepted. -/
theorem IsValidSignatureEncoding_derSig {R S : List UInt8} (h : UInt8) (hR : IsMinimalInt R)
    (hS : IsMinimalInt S) (hle : R.length + S.length + 4 ≤ 70) :
    IsValidSignatureEncoding (derSig R S h) = some true := by
  have hR0 := List.length_pos_iff.mpr hR.ne_nil
  have hS0 := List.length_pos_iff.mpr hS.ne_nil
  have hL : (UInt8.ofNat (R.length + S.length + 4)).toNat = R.length + S.length + 4 :=
    toNat_ofNat_of_lt (by omega)
  have hlR : (UInt8.ofNat R.length).toNat = R.length := toNat_ofNat_of_lt (by omega)
  have hlS : (UInt8.ofNat S.length).toNat = S.length := toNat_ofNat_of_lt (by omega)
  rw [derSig_eq_frame, IsValidSignatureEncoding_frame hlR hlS (by omega) (by omega)]
  simp only [FrameOk, hL, hR, hS, and_self, decide_true]

theorem IsValidSignatureEncoding_early (sig : List UInt8) :
    IsValidSignatureEncoding sig = some false ∨
      ∃ a0 a1 a2 a3 a4 a5 h R S, a3.toNat = R.length ∧ a5.toNat = S.length ∧
        9 ≤ R.length + S.length + 7 ∧ R.length + S.length + 7 ≤ 73 ∧
        sig = frame a0 a1 a2 a3 R a4 a5 S h := by
  by_cases hlo : sig.length < 9
  · left
    rw [IsValidSignatureEncoding, if_pos hlo]
    rfl
  by_cases hhi : sig.length > 73
  · left
    rw [IsValidSignatureEncoding, if_neg hlo, if_pos hhi]
    rfl
  -- the header bytes are there
  obtain ⟨a0, a1, a2, a3, t, rfl⟩ : ∃ a0 a1 a2 a3 t, sig = a0 :: a1 :: a2 :: a3 :: t := by
    match sig, hlo with
    | a0 :: a1 :: a2 :: a3 :: t, _ => exact ⟨a0, a1, a2, a3, t, rfl⟩
    | [], h | [_], h | [_, _], h | [_, _, _], h => simp at h
  simp only [List.length_cons] at hlo hhi
  -- the checks up to the length of `S`, which reject or let the rest be read
  by_cases hR : 5 + a3.toNat ≥ t.length + 4
  · left
    simp only [IsValidSignatureEncoding, List.length_cons, List.getElem?_cons_zero,
      List.getElem?_cons_succ, Option.bind_eq_bind, Option.bind_some]
    rw [if_neg (by omega), if_neg (by omega)]
    split_ifs <;> rfl
  obtain ⟨a5, h5⟩ : ∃ a5, (a0 :: a1 :: a2 :: a3 :: t)[5 + a3.toNat]? = some a5 :=
    ⟨_, List.getElem?_eq_getElem (by simp; omega)⟩
  by_cases hS : a3.toNat + a5.toNat + 7 ≠ t.length + 4
  · left
    simp only [IsValidSignatureEncoding, List.length_cons, List.getElem?_cons_zero,
      List.getElem?_cons_succ, Option.bind_eq_bind, Option.bind_some, h5]
    rw [if_neg (by omega), if_neg (by omega)]
    split_ifs <;> rfl
  -- both lengths fit: the vector splits as a frame
  obtain ⟨R, a4, a5', S, h, hRlen, hSlen, rfl⟩ :=
    exists_split t (m := a3.toNat) (k := a5.toNat) (by omega)
  have ha5 : a5' = a5 := by
    have h5' : (frame a0 a1 a2 a3 R a4 a5' S h)[5 + R.length]? = some a5' := frame_getElem?_a5
    rw [hRlen] at h5'
    exact Option.some.inj (h5'.symm.trans h5)
  subst ha5
  right
  exact ⟨a0, a1, a2, a3, a4, a5', h, R, S, hRlen.symm, hSlen.symm, by simp at hlo; omega, by omega,
    rfl⟩
/-- **`IsValidSignatureEncoding` decides strict DER** without reading past the vector: an early
check rejects a vector whose length bytes are wrong, which is then not DER either, and on a frame
the checks are `FrameOk`. -/
theorem IsValidSignatureEncoding_spec (sig : List UInt8) :
    ∃ b, IsValidSignatureEncoding sig = some b ∧ (b = true ↔ IsStrictDER sig) := by
  rcases IsValidSignatureEncoding_early sig with
    hfalse | ⟨a0, a1, a2, a3, a4, a5, h, R, S, ha3, ha5, hlo, hhi, rfl⟩
  · refine ⟨false, hfalse, ?_⟩
    -- a strict DER signature would have been accepted
    simp only [Bool.false_eq_true, false_iff]
    rintro ⟨R, S, h, hR, hS, hle, rfl⟩
    rw [IsValidSignatureEncoding_derSig h hR hS hle] at hfalse
    cases hfalse
  · refine ⟨_, IsValidSignatureEncoding_frame ha3 ha5 hlo hhi, ?_⟩
    rw [decide_eq_true_iff, isStrictDER_frame_iff ha3 ha5 hhi]

/-! ### `CheckSignatureEncoding` -/

theorem IsDefinedHashtypeSignature_isSome (vchSig : List UInt8) :
    ∃ d, IsDefinedHashtypeSignature vchSig = some d := by
  by_cases h0 : vchSig.length = 0
  · exact ⟨false, by rw [IsDefinedHashtypeSignature, if_pos h0]; rfl⟩
  have hlast : vchSig[vchSig.length - 1]? = some vchSig[vchSig.length - 1] :=
    List.getElem?_eq_getElem (by omega)
  simp only [IsDefinedHashtypeSignature, if_neg h0, hlast, Option.bind_eq_bind, Option.bind_some]
  split_ifs
  · exact ⟨_, rfl⟩
  · exact ⟨_, rfl⟩
theorem CheckSignatureEncoding_isSome (checkLowS : List UInt8 → Bool) (sig : List UInt8) (flags : UInt32) (b : Bool)
    (hb : IsValidSignatureEncoding sig = some b) :
    ∃ r, CheckSignatureEncoding checkLowS sig flags = some r := by
  obtain ⟨d, hd⟩ := IsDefinedHashtypeSignature_isSome sig
  by_cases hne : sig.length = 0
  · exact ⟨_, by rw [CheckSignatureEncoding, if_pos hne]; rfl⟩
  simp only [CheckSignatureEncoding, IsLowDERSignature, if_neg hne, hb, hd, Option.bind_eq_bind,
    Option.bind_some]
  split_ifs <;> exact ⟨_, rfl⟩
theorem CheckSignatureEncoding_ne_der (checkLowS : List UInt8 → Bool) (sig : List UInt8) (flags : UInt32)
    (hb : IsValidSignatureEncoding sig = some true) :
    CheckSignatureEncoding checkLowS sig flags ≠ some (.error .SCRIPT_ERR_SIG_DER) := by
  obtain ⟨d, hd⟩ := IsDefinedHashtypeSignature_isSome sig
  by_cases hne : sig.length = 0
  · rw [CheckSignatureEncoding, if_pos hne]; simp
  simp only [CheckSignatureEncoding, IsLowDERSignature, if_neg hne, hb, hd, Option.bind_eq_bind,
    Option.bind_some, Bool.not_true, Bool.false_eq_true, if_false]
  split_ifs <;> simp
theorem CheckSignatureEncoding_der (checkLowS : List UInt8 → Bool) (sig : List UInt8) (flags : UInt32)
    (hne : sig ≠ [])
    (hM : flags &&& (SCRIPT_VERIFY_DERSIG ||| SCRIPT_VERIFY_LOW_S ||| SCRIPT_VERIFY_STRICTENC) ≠ 0)
    (hb : IsValidSignatureEncoding sig = some false) :
    CheckSignatureEncoding checkLowS sig flags = some (.error .SCRIPT_ERR_SIG_DER) := by
  have hlen : sig.length ≠ 0 := by simpa using hne
  simp only [CheckSignatureEncoding, if_neg hlen, if_pos hM, hb, Option.bind_eq_bind,
    Option.bind_some]
  rfl
theorem isValidSignatureEncoding_strictDER :
    (∀ sig : List UInt8, (∃ b, IsValidSignatureEncoding sig = some b) ∧
      (IsValidSignatureEncoding sig = some true ↔ IsStrictDER sig)) ∧
    (∀ (checkLowS : List UInt8 → Bool) (sig : List UInt8) (flags : UInt32),
      (∃ r, CheckSignatureEncoding checkLowS sig flags = some r) ∧
      (sig ≠ [] →
        flags &&& (SCRIPT_VERIFY_DERSIG ||| SCRIPT_VERIFY_LOW_S ||| SCRIPT_VERIFY_STRICTENC) ≠ 0 →
        (CheckSignatureEncoding checkLowS sig flags = some (.error .SCRIPT_ERR_SIG_DER) ↔
          ¬IsStrictDER sig))) := by
  refine ⟨fun sig => ?_, fun checkLowS sig flags => ?_⟩
  · obtain ⟨b, hb, hiff⟩ := IsValidSignatureEncoding_spec sig
    rw [hb, Option.some.injEq]
    exact ⟨⟨b, rfl⟩, hiff⟩
  · obtain ⟨b, hb, hiff⟩ := IsValidSignatureEncoding_spec sig
    refine ⟨CheckSignatureEncoding_isSome checkLowS sig flags b hb, fun hne hM => ?_⟩
    cases b with
    | false =>
      -- rejected by the DER branch, and not DER
      rw [CheckSignatureEncoding_der checkLowS sig flags hne hM hb]
      simpa using hiff
    | true =>
      -- the later branches report other errors, and it is DER
      simp only [CheckSignatureEncoding_ne_der checkLowS sig flags hb, false_iff, not_not]
      exact hiff.mp rfl

/-- A signature whose `R` is negative is not DER, and `DERSIG` rejects it as such. -/
theorem isValidSignatureEncoding_strictDER_negR :
    (CheckSignatureEncoding (fun _ => true) [0x30, 6, 2, 1, 0x80, 2, 1, 1, 1] SCRIPT_VERIFY_DERSIG =
        some (.error .SCRIPT_ERR_SIG_DER) ↔
      ¬IsStrictDER [0x30, 6, 2, 1, 0x80, 2, 1, 1, 1]) :=
  (isValidSignatureEncoding_strictDER.2 _ _ _).2 (by simp) (by decide)

end Tenscoin
