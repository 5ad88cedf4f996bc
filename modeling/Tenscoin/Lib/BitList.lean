import Mathlib

/-!
# Bit strings, most significant bit first

`bitsOf k n` lists the low `k` bits of `n` from the most significant down, `ofBits` reads bits
back as a number the same way, and `bytesBits` lists bytes as their eight bits each. These are
the views under which a bit stream over bytes is a list of bits:

* `ofBits_bitsOf`, `bitsOf_ofBits`: the two conversions are inverse, up to the width;
* `bitsOf_add`: a field of `j + k` bits is its high `j` bits, then its low `k`;
* `bitsOf_two_pow_mul_add`: a number made by shifting one part up over another lists as the
  parts, one after the other;
* `foldl_ofBits`: reading bits into an accumulator shifts it up by their number.

`riceCode P x` is the Golomb-Rice code of `x` with parameter `P`: the quotient `x / 2 ^ P` in
unary (that many ones and a zero), then the remainder in `P` bits; every such run of bits is the
code of one number (`riceCode_of_bits`).
-/

namespace BitList

/-- The low `k` bits of `n`, most significant first. -/
def bitsOf : ℕ → ℕ → List Bool
  | 0, _ => []
  | k + 1, n => n.testBit k :: bitsOf k n

/-- The number that bits stand for, most significant first. -/
def ofBits (bs : List Bool) : ℕ :=
  bs.foldl (fun acc b => 2 * acc + b.toNat) 0

/-- Bytes as bits, each byte most significant bit first. -/
def bytesBits (bs : List UInt8) : List Bool :=
  bs.flatMap fun b => bitsOf 8 b.toNat

/-- The Golomb-Rice code of `x`: `x / 2 ^ P` ones, a zero, and the low `P` bits of `x`. -/
def riceCode (P x : ℕ) : List Bool :=
  List.replicate (x / 2 ^ P) true ++ false :: bitsOf P x

/-! ### `bitsOf` -/

@[simp] theorem bitsOf_zero (n : ℕ) : bitsOf 0 n = [] := rfl

theorem bitsOf_succ (k n : ℕ) : bitsOf (k + 1) n = n.testBit k :: bitsOf k n := rfl

@[simp] theorem length_bitsOf (k n : ℕ) : (bitsOf k n).length = k := by
  induction k with
  | zero => rfl
  | succ k ih => rw [bitsOf_succ, List.length_cons, ih]

theorem bitsOf_congr {k m n : ℕ} (h : ∀ i < k, m.testBit i = n.testBit i) :
    bitsOf k m = bitsOf k n := by
  induction k with
  | zero => rfl
  | succ k ih =>
    rw [bitsOf_succ, bitsOf_succ, h k (Nat.lt_succ_self k), ih fun i hi => h i (by omega)]

@[simp] theorem bitsOf_mod (k n : ℕ) : bitsOf k (n % 2 ^ k) = bitsOf k n :=
  bitsOf_congr fun i hi => by rw [Nat.testBit_mod_two_pow, decide_eq_true hi, Bool.true_and]

/-- A field of `j + k` bits is its high `j` bits, then its low `k`. -/
theorem bitsOf_add (j k n : ℕ) : bitsOf (j + k) n = bitsOf j (n / 2 ^ k) ++ bitsOf k n := by
  induction j with
  | zero => rw [Nat.zero_add, bitsOf_zero, List.nil_append]
  | succ j ih =>
    rw [Nat.add_right_comm, bitsOf_succ, ih, bitsOf_succ, Nat.testBit_div_two_pow, List.cons_append]

theorem bitsOf_two_pow_mul_add (j : ℕ) {k b : ℕ} (hb : b < 2 ^ k) (a : ℕ) :
    bitsOf (j + k) (2 ^ k * a + b) = bitsOf j a ++ bitsOf k b := by
  have hdiv : (2 ^ k * a + b) / 2 ^ k = a := by
    rw [Nat.mul_add_div (Nat.two_pow_pos k), Nat.div_eq_of_lt hb, Nat.add_zero]
  have hmod : (2 ^ k * a + b) % 2 ^ k = b := by
    rw [Nat.mul_add_mod, Nat.mod_eq_of_lt hb]
  rw [bitsOf_add, hdiv, ← bitsOf_mod k, hmod]

theorem take_bitsOf (j k n : ℕ) : (bitsOf (j + k) n).take j = bitsOf j (n / 2 ^ k) := by
  rw [bitsOf_add, List.take_left' (length_bitsOf j _)]

theorem drop_bitsOf (j k n : ℕ) : (bitsOf (j + k) n).drop j = bitsOf k n := by
  rw [bitsOf_add, List.drop_left' (length_bitsOf j _)]

theorem bitsOf_zero_right (k : ℕ) : bitsOf k 0 = List.replicate k false := by
  induction k with
  | zero => rfl
  | succ k ih => rw [bitsOf_succ, ih, Nat.zero_testBit, List.replicate_succ]

/-- Below its width, an all-ones field lists as ones. -/
theorem bitsOf_two_pow_sub_one {k m : ℕ} (hk : k ≤ m) :
    bitsOf k (2 ^ m - 1) = List.replicate k true := by
  induction k with
  | zero => rfl
  | succ k ih =>
    rw [bitsOf_succ, ih (by omega), Nat.testBit_two_pow_sub_one, decide_eq_true (by omega),
      List.replicate_succ]

/-! ### `ofBits` -/

@[simp] theorem ofBits_nil : ofBits [] = 0 := rfl

/-- Reading bits after `acc` shifts `acc` up by their number. -/
theorem foldl_ofBits (acc : ℕ) (bs : List Bool) :
    bs.foldl (fun acc b => 2 * acc + b.toNat) acc = acc * 2 ^ bs.length + ofBits bs := by
  induction bs generalizing acc with
  | nil => simp
  | cons b bs ih =>
    have hcons : ofBits (b :: bs) = b.toNat * 2 ^ bs.length + ofBits bs := by
      show List.foldl (fun acc b => 2 * acc + b.toNat) (2 * 0 + b.toNat) bs = _
      rw [ih, Nat.mul_zero, Nat.zero_add]
    rw [List.foldl_cons, ih, hcons, List.length_cons, Nat.pow_succ]
    ring

theorem ofBits_cons (b : Bool) (bs : List Bool) :
    ofBits (b :: bs) = b.toNat * 2 ^ bs.length + ofBits bs := by
  show List.foldl (fun acc b => 2 * acc + b.toNat) (2 * 0 + b.toNat) bs = _
  rw [foldl_ofBits, Nat.mul_zero, Nat.zero_add]

theorem ofBits_append (xs ys : List Bool) :
    ofBits (xs ++ ys) = ofBits xs * 2 ^ ys.length + ofBits ys := by
  show List.foldl (fun acc b => 2 * acc + b.toNat) 0 (xs ++ ys) = _
  rw [List.foldl_append, foldl_ofBits]
  rfl

theorem ofBits_lt (bs : List Bool) : ofBits bs < 2 ^ bs.length := by
  induction bs with
  | nil => simp
  | cons b bs ih =>
    have hb : b.toNat ≤ 1 := Bool.toNat_le b
    rw [ofBits_cons, List.length_cons, Nat.pow_succ]
    nlinarith

theorem ofBits_bitsOf (k n : ℕ) : ofBits (bitsOf k n) = n % 2 ^ k := by
  induction k with
  | zero => simp [Nat.mod_one]
  | succ k ih =>
    have hbit : (n.testBit k).toNat = n / 2 ^ k % 2 := by
      rw [Nat.testBit_eq_decide_div_mod_eq]
      rcases Nat.mod_two_eq_zero_or_one (n / 2 ^ k) with h | h <;> simp [h]
    rw [bitsOf_succ, ofBits_cons, ih, length_bitsOf, Nat.mod_pow_succ, hbit]
    ring

theorem bitsOf_ofBits (bs : List Bool) : bitsOf bs.length (ofBits bs) = bs := by
  induction bs with
  | nil => rfl
  | cons b bs ih =>
    rw [ofBits_cons, List.length_cons, Nat.add_comm, Nat.mul_comm,
      bitsOf_two_pow_mul_add 1 (ofBits_lt bs), ih]
    cases b <;> rfl

/-! ### Bytes -/

@[simp] theorem bytesBits_nil : bytesBits [] = [] := rfl

@[simp] theorem bytesBits_cons (b : UInt8) (bs : List UInt8) :
    bytesBits (b :: bs) = bitsOf 8 b.toNat ++ bytesBits bs := rfl

@[simp] theorem bytesBits_append (xs ys : List UInt8) :
    bytesBits (xs ++ ys) = bytesBits xs ++ bytesBits ys :=
  List.flatMap_append

@[simp] theorem length_bytesBits (bs : List UInt8) : (bytesBits bs).length = 8 * bs.length := by
  induction bs with
  | nil => rfl
  | cons b bs ih => rw [bytesBits_cons, List.length_append, ih, length_bitsOf, List.length_cons]; ring

/-! ### The Golomb-Rice code -/

@[simp] theorem length_riceCode (P x : ℕ) : (riceCode P x).length = x / 2 ^ P + 1 + P := by
  simp only [riceCode, List.length_append, List.length_replicate, List.length_cons, length_bitsOf]
  omega

/-- Every run of ones, a zero and `P` bits is a code: of the number the ones and the bits make. -/
theorem riceCode_of_bits (q : ℕ) {P : ℕ} {bs : List Bool} (hbs : bs.length = P) :
    riceCode P (q * 2 ^ P + ofBits bs) = List.replicate q true ++ false :: bs := by
  have hlt : ofBits bs < 2 ^ P := hbs ▸ ofBits_lt bs
  have hdiv : (q * 2 ^ P + ofBits bs) / 2 ^ P = q := by
    rw [Nat.add_comm, Nat.add_mul_div_right _ _ (Nat.two_pow_pos P), Nat.div_eq_of_lt hlt, Nat.zero_add]
  have hbits : bitsOf P (q * 2 ^ P + ofBits bs) = bs := by
    rw [← bitsOf_mod, Nat.mul_comm, Nat.mul_add_mod, Nat.mod_eq_of_lt hlt, ← hbs, bitsOf_ofBits]
  rw [riceCode, hdiv, hbits]

end BitList
