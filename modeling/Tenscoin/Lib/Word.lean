import Mathlib

/-!
# Unsigned machine arithmetic with an overflow flag

Code on `w`-bit unsigned words computes modulo `2 ^ w`: a sum or a product that does not fit
wraps without a trace. To say that a computation did not overflow, `Checked` carries a ghost
flag that every operation sets when its exact result does not fit, and an assertion fails the
computation with its message. A word is a natural number below `2 ^ w`.

`wrap w x` is the one primitive: the value `x % 2 ^ w`, flagged when `2 ^ w ≤ x`; `add`, `mul`
and `sub` are wraps of the exact results. Two facts carry every proof about a chain of them:

* `wrap_of_lt`: a wrap of a value that fits is `pure`;
* `wrap_bind_wrap`: wrapping an exact result and then a function of it is one wrap of the
  composite, when the function respects `% 2 ^ w` and does not decrease. A chain of additions
  and multiplications by positive constants thus overflows exactly when its exact result does
  not fit (`wrap_bind_add`, `wrap_bind_mul`, `add_bind_wrap`).
-/

namespace Word

/-- A computation on unsigned words: the state is a ghost flag that an operation whose exact
result does not fit sets, and a failure is an assertion's message. -/
abbrev Checked := StateT Bool (Except String)

variable (w : ℕ)

/-- The word an exact result `x` leaves, `x % 2 ^ w`, flagging an overflow when it differs. -/
def wrap (x : ℕ) : Checked ℕ := fun f => .ok (x % 2 ^ w, f || decide (2 ^ w ≤ x))

/-- `a + b` on words. -/
def add (a b : ℕ) : Checked ℕ := wrap w (a + b)

/-- `a * b` on words. -/
def mul (a b : ℕ) : Checked ℕ := wrap w (a * b)

/-- `a - b` on words: below zero it wraps to `a + 2 ^ w - b`. -/
def sub (a b : ℕ) : Checked ℕ := fun f => .ok ((a + 2 ^ w - b) % 2 ^ w, f || decide (a < b))

/-- `assert(c)`: fails with `msg` when `c` is false. -/
def assert (c : Prop) [Decidable c] (msg : String) : Checked Unit :=
  if c then pure () else throw msg

variable {w}

@[simp] theorem wrap_run (x : ℕ) (f : Bool) :
    (wrap w x).run f = .ok (x % 2 ^ w, f || decide (2 ^ w ≤ x)) := rfl

/-- A result that fits leaves the word it is and no flag. -/
theorem wrap_of_lt {x : ℕ} (h : x < 2 ^ w) : wrap w x = pure x := by
  funext f
  simp [wrap, Nat.mod_eq_of_lt h, Nat.not_le.mpr h]
  rfl

theorem sub_of_le {a b : ℕ} (hb : b ≤ a) (ha : a < 2 ^ w) : sub w a b = pure (a - b) := by
  funext f
  have hlt : a + 2 ^ w - b = (a - b) + 2 ^ w := by omega
  simp [sub, hlt, Nat.mod_eq_of_lt (show a - b < 2 ^ w by omega), Nat.not_lt.mpr hb]
  rfl

theorem assert_of_pos {c : Prop} [Decidable c] (hc : c) (msg : String) : assert c msg = pure () :=
  if_pos hc

/-- **Two wraps are one.** Wrapping `x` and then `g` of the word it left is wrapping `g x`, when
`g` agrees modulo `2 ^ w` on `x` and `x % 2 ^ w` and never decreases: the value is `g x` modulo
`2 ^ w` either way, and the second wrap overflows after a first that did not exactly when `g x`
does not fit. -/
theorem wrap_bind_wrap (x : ℕ) (g : ℕ → ℕ) (hmod : g (x % 2 ^ w) % 2 ^ w = g x % 2 ^ w)
    (hmono : x ≤ g x) : (wrap w x >>= fun y => wrap w (g y)) = wrap w (g x) := by
  funext f
  show (wrap w (g (x % 2 ^ w))).run (f || decide (2 ^ w ≤ x)) = (wrap w (g x)).run f
  rw [wrap_run, wrap_run, hmod]
  -- the flag: a first overflow forces the second, and without one `x % 2 ^ w = x`
  by_cases hx : 2 ^ w ≤ x
  · simp [hx, le_trans hx hmono]
  · rw [Nat.mod_eq_of_lt (Nat.lt_of_not_le hx)]
    simp [hx]

theorem wrap_bind_add (x k : ℕ) : (wrap w x >>= fun y => add w y k) = wrap w (x + k) :=
  wrap_bind_wrap x (· + k) (by simp [Nat.add_mod]) (Nat.le_add_right x k)

theorem add_bind_wrap (x k : ℕ) : (wrap w x >>= fun y => add w k y) = wrap w (k + x) :=
  wrap_bind_wrap x (k + ·) (by simp [Nat.add_mod]) (Nat.le_add_left x k)

theorem wrap_bind_mul (x : ℕ) {k : ℕ} (hk : 0 < k) :
    (wrap w x >>= fun y => mul w y k) = wrap w (x * k) :=
  wrap_bind_wrap x (· * k) (by simp [Nat.mul_mod]) (Nat.le_mul_of_pos_right x hk)

end Word
