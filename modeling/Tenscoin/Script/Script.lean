import Mathlib
import Tenscoin.Lib.Bytes
import Tenscoin.Primitives.Transaction

/-!
# Building and parsing scripts

A `CScript` is a byte vector, a `prevector<28, unsigned char>`. It is built by
`operator<<(opcodetype)`, which appends one opcode byte, and by `operator<<(span)`, which appends a
push: `AppendDataSize` writes the opcode and size header (a direct push below `OP_PUSHDATA1`, then
`OP_PUSHDATA1`, `OP_PUSHDATA2` or `OP_PUSHDATA4` with a 1, 2 or 4 byte little-endian size), and
the data follows. `GetScriptOp` reads one operation back from a position `pc`, and every
component that walks a script (`GetOps` here) calls it until it fails or reaches the end.

The iterators of a `prevector` subtract to its `difference_type`, an `int32_t`: `end - pc` is the
distance modulo `2 ^ 32` read as signed (`prevectorDiff`). Below `2 ^ 31` bytes this is the
distance itself, and `GetScriptOp_eq_spec` states the parser exactly in those terms
(`scriptOpSpec`): a push header of `pushHeaderWidth` bytes, then `pushSize` bytes of data. The
round trip of a built script, `GetOps_append`, is one layout lemma per item (`GetScriptOp_item`)
and an induction on the items; `GetOps_end` says where a successful walk stops, on any script.
From `2 ^ 31` bytes or more before the end the distance is negative and `GetScriptOp` fails at
once (`GetOps_build_long_push`).
-/

namespace Tenscoin

open Bytes

/-! ### The model -/

/-- `OP_0`. -/
def OP_0 : UInt8 := 0x00

/-- `OP_PUSHDATA1`. -/
def OP_PUSHDATA1 : UInt8 := 0x4c

/-- `OP_PUSHDATA2`. -/
def OP_PUSHDATA2 : UInt8 := 0x4d

/-- `OP_PUSHDATA4`. -/
def OP_PUSHDATA4 : UInt8 := 0x4e

/-- `OP_1NEGATE`. -/
def OP_1NEGATE : UInt8 := 0x4f

/-- `OP_1`. -/
def OP_1 : UInt8 := 0x51

/-- `OP_16`. -/
def OP_16 : UInt8 := 0x60

/-- `OP_INVALIDOPCODE`. -/
def OP_INVALIDOPCODE : UInt8 := 0xff

/-- `CScript::AppendDataSize(size)`: the opcode and size header of a push of `size` bytes, with
`WriteLE16` and `WriteLE32` for the two longer headers. -/
def AppendDataSize (size : UInt32) : List UInt8 :=
  if size < OP_PUSHDATA1.toUInt32 then [size.toUInt8]
  else if size ≤ 0xff then [OP_PUSHDATA1, size.toUInt8]
  else if size ≤ 0xffff then OP_PUSHDATA2 :: encodeLE 2 size.toNat
  else OP_PUSHDATA4 :: encodeLE 4 size.toNat

/-- `CScript::operator<<(opcodetype)`: one opcode byte. -/
def CScript.pushOpcode (script : CScript) (opcode : UInt8) : CScript :=
  script ++ [opcode]

/-- `CScript::operator<<(std::span<const std::byte>)`: `AppendDataSize(b.size())` with the size
passed as a `uint32_t`, then `AppendData(b)`. -/
def CScript.pushSpan (script : CScript) (b : List UInt8) : CScript :=
  script ++ AppendDataSize (UInt32.ofNat b.length) ++ b

/-- `end - pc` on `prevector` iterators: the distance, as its `difference_type` `int32_t`. -/
def prevectorDiff (e pc : ℕ) : Int32 := Int32.ofInt ((e : ℤ) - pc)

/-- The end of `GetScriptOp`'s push branch, once the size `nSize` is read and `pc` is past the
header: the data must lie before `end`, and is returned with `pc` moved past it. -/
def readPushData (script : CScript) (opcode : UInt8) (nSize pc : ℕ) :
    Bool × ℕ × UInt8 × List UInt8 :=
  let e := script.length
  if prevectorDiff e pc < 0 || (prevectorDiff e pc).toUInt32.toNat < nSize then
    (false, pc, OP_INVALIDOPCODE, [])
  else (true, pc + nSize, opcode, (script.drop pc).take nSize)

/-- `GetScriptOp(pc, end, opcodeRet, pvchRet)` from position `pc`: whether it succeeded, the new
`pc`, `opcodeRet` and `*pvchRet`. `ReadLE16` and `ReadLE32` read the size headers. -/
def GetScriptOp (script : CScript) (pc : ℕ) : Bool × ℕ × UInt8 × List UInt8 :=
  let e := script.length
  if pc ≥ e then (false, pc, OP_INVALIDOPCODE, []) else
  -- Read instruction
  if prevectorDiff e pc < 1 then (false, pc, OP_INVALIDOPCODE, []) else
  let opcode := script.getD pc 0
  let pc := pc + 1
  -- Immediate operand
  if opcode ≤ OP_PUSHDATA4 then
    if opcode < OP_PUSHDATA1 then readPushData script opcode opcode.toNat pc
    else if opcode = OP_PUSHDATA1 then
      if prevectorDiff e pc < 1 then (false, pc, OP_INVALIDOPCODE, [])
      else readPushData script opcode (script.getD pc 0).toNat (pc + 1)
    else if opcode = OP_PUSHDATA2 then
      if prevectorDiff e pc < 2 then (false, pc, OP_INVALIDOPCODE, [])
      else readPushData script opcode (decodeLE ((script.drop pc).take 2)) (pc + 2)
    else if opcode = OP_PUSHDATA4 then
      if prevectorDiff e pc < 4 then (false, pc, OP_INVALIDOPCODE, [])
      else readPushData script opcode (decodeLE ((script.drop pc).take 4)) (pc + 4)
    else readPushData script opcode 0 pc
  else (true, pc, opcode, [])

/-! ### The parser with exact distances -/

/-- The size-header width of a push opcode: none below `OP_PUSHDATA1`, then 1, 2 and 4 bytes. -/
def pushHeaderWidth (opcode : UInt8) : ℕ :=
  if opcode < OP_PUSHDATA1 then 0 else if opcode = OP_PUSHDATA1 then 1
  else if opcode = OP_PUSHDATA2 then 2 else 4

/-- The data size a push opcode declares: the opcode itself for a direct push, else its size
header read as a little-endian number. -/
def pushSize (opcode : UInt8) (header : List UInt8) : ℕ :=
  if opcode < OP_PUSHDATA1 then opcode.toNat else decodeLE header

/-- One operation at `pc` as the format has it: an opcode, for a push its header of
`pushHeaderWidth` bytes and `pushSize` bytes of data; it fails exactly where the header or the
data runs past the end, having moved past what it read. -/
def scriptOpSpec (script : CScript) (pc : ℕ) : Bool × ℕ × UInt8 × List UInt8 :=
  if script.length ≤ pc then (false, pc, OP_INVALIDOPCODE, []) else
  let opcode := script.getD pc 0
  if opcode ≤ OP_PUSHDATA4 then
    if script.length < pc + 1 + pushHeaderWidth opcode then (false, pc + 1, OP_INVALIDOPCODE, [])
    else
      let q := pc + 1 + pushHeaderWidth opcode
      let n := pushSize opcode ((script.drop (pc + 1)).take (pushHeaderWidth opcode))
      if script.length < q + n then (false, q, OP_INVALIDOPCODE, [])
      else (true, q + n, opcode, (script.drop q).take n)
  else (true, pc + 1, opcode, [])

theorem push_opcode_cases : ∀ opcode : UInt8, opcode ≤ OP_PUSHDATA4 →
    opcode < OP_PUSHDATA1 ∨ opcode = OP_PUSHDATA1 ∨ opcode = OP_PUSHDATA2 ∨ opcode = OP_PUSHDATA4 := by
  decide +kernel

/-- The bytes the operation at `pc` spans by its own reading: the opcode, and for a push its size
header and the data the header declares. -/
def opSpan (script : CScript) (pc : ℕ) : ℕ :=
  let opcode := script.getD pc 0
  if opcode ≤ OP_PUSHDATA4 then
    1 + pushHeaderWidth opcode +
      pushSize opcode ((script.drop (pc + 1)).take (pushHeaderWidth opcode))
  else 1

/-- The exact parser succeeds exactly when the operation's span fits, and then moves past it. -/
theorem scriptOpSpec_ok {script : CScript} {pc : ℕ} (hpc : pc < script.length) :
    ((scriptOpSpec script pc).1 = true ↔ pc + opSpan script pc ≤ script.length) ∧
      ((scriptOpSpec script pc).1 = true → (scriptOpSpec script pc).2.1 = pc + opSpan script pc) := by
  unfold scriptOpSpec opSpan
  rw [if_neg (by omega)]
  dsimp only
  -- only the header width and the declared size matter
  generalize script.getD pc 0 = opcode
  generalize pushSize opcode _ = n
  generalize pushHeaderWidth opcode = w
  split_ifs <;> simp <;> omega

/-! ### `int32_t` distances below `2 ^ 31` -/

section Distance

variable {e pc : ℕ} (hpc : pc ≤ e) (he : e - pc < 2 ^ 31)
include hpc he

theorem prevectorDiff_toInt : (prevectorDiff e pc).toInt = ((e - pc : ℕ) : ℤ) := by
  rw [prevectorDiff, Int32.toInt_ofInt, Nat.cast_sub hpc]
  apply Int.bmod_eq_of_le <;> simp [Int32.size] <;> omega

theorem prevectorDiff_lt_iff (k : Int32) : prevectorDiff e pc < k ↔ ((e - pc : ℕ) : ℤ) < k.toInt := by
  rw [Int32.lt_iff_toInt_lt, prevectorDiff_toInt hpc he]

theorem prevectorDiff_toUInt32 : (prevectorDiff e pc).toUInt32.toNat = e - pc := by
  rw [UInt32.toNat, Int32.toBitVec_toUInt32, prevectorDiff, ← Nat.cast_sub hpc]
  simp [Int32.toBitVec_ofInt]
  omega

end Distance

/-- The distance read as unsigned is never more than the distance. -/
theorem prevectorDiff_toUInt32_le {e pc : ℕ} (hpc : pc ≤ e) :
    (prevectorDiff e pc).toUInt32.toNat ≤ e - pc := by
  rw [UInt32.toNat, Int32.toBitVec_toUInt32, prevectorDiff, ← Nat.cast_sub hpc]
  simp [Int32.toBitVec_ofInt]
  omega

/-- A test `end - pc < k` that passed, for a small `k`, leaves `k` bytes before the end. -/
theorem le_of_not_prevectorDiff_lt {e pc k : ℕ} {K : Int32} (h : ¬prevectorDiff e pc < K)
    (hpc : pc ≤ e) (hK : K.toInt = k) (hk : k < 2 ^ 31) : pc + k ≤ e := by
  by_contra hlt
  exact h ((prevectorDiff_lt_iff hpc (by omega) K).mpr (by omega))

/-- The test before the data, `end - pc < 0 || (unsigned int)(end - pc) < nSize`, is whether the
data runs past the end. -/
theorem readPushData_eq {script : CScript} {opcode : UInt8} {n q : ℕ} (hq : q ≤ script.length)
    (hlen : script.length - q < 2 ^ 31) :
    readPushData script opcode n q =
      if script.length < q + n then (false, q, OP_INVALIDOPCODE, [])
      else (true, q + n, opcode, (script.drop q).take n) := by
  have htest : (prevectorDiff script.length q < 0 ∨
      (prevectorDiff script.length q).toUInt32.toNat < n) ↔ script.length < q + n := by
    rw [prevectorDiff_lt_iff hq hlen, prevectorDiff_toUInt32 hq hlen, Int32.toInt_zero]
    omega
  unfold readPushData
  simp only [Bool.or_eq_true, decide_eq_true_eq, htest]

/-- A size header of `k` bytes at `q`: the test `end - pc < k`, then the data after it. The size
read, `n`, need only be the format's `n'` when the header is there. -/
theorem readHeader_eq {script : CScript} {opcode : UInt8} {q k n n' : ℕ} {K : Int32}
    (hK : K.toInt = k) (hq : q ≤ script.length) (hlen : script.length - q < 2 ^ 31)
    (hn : q + k ≤ script.length → n = n') :
    (if prevectorDiff script.length q < K then (false, q, OP_INVALIDOPCODE, [])
      else readPushData script opcode n (q + k)) =
    if script.length < q + k then (false, q, OP_INVALIDOPCODE, [])
    else if script.length < q + k + n' then (false, q + k, OP_INVALIDOPCODE, [])
    else (true, q + k + n', opcode, (script.drop (q + k)).take n') := by
  by_cases hk : script.length < q + k
  · rw [if_pos ((prevectorDiff_lt_iff hq hlen K).mpr (by omega)), if_pos hk]
  · rw [if_neg (by rw [prevectorDiff_lt_iff hq hlen K]; omega), if_neg hk,
      readPushData_eq (by omega) (by omega), hn (by omega)]

/-- A one-byte header is the byte's value. -/
theorem decodeLE_take_one {script : CScript} {q : ℕ} (hq : q < script.length) :
    decodeLE ((script.drop q).take 1) = (script.getD q 0).toNat := by
  rw [List.getD_eq_getElem _ _ hq, List.drop_eq_getElem_cons hq, List.take_succ_cons, List.take_zero,
    decodeLE_cons, decodeLE_nil, Nat.mul_zero, Nat.add_zero]

/-- **Within `2 ^ 31` bytes of the end, `GetScriptOp` is the exact parser.** -/
theorem GetScriptOp_eq_spec {script : CScript} {pc : ℕ} (hlen : script.length < pc + 2 ^ 31) :
    GetScriptOp script pc = scriptOpSpec script pc := by
  unfold GetScriptOp scriptOpSpec
  by_cases hpc : script.length ≤ pc
  · rw [if_pos hpc, if_pos hpc]
  rw [if_neg hpc, if_neg hpc,
    if_neg (by rw [prevectorDiff_lt_iff (by omega) (by omega)]; simp; omega)]
  dsimp only
  by_cases hop : script.getD pc 0 ≤ OP_PUSHDATA4
  swap
  · rw [if_neg hop, if_neg hop]
  rw [if_pos hop, if_pos hop]
  -- one case per header width; the header is read at `pc + 1`
  rcases push_opcode_cases _ hop with h0 | h1 | h2 | h4
  · have hw : pushHeaderWidth (script.getD pc 0) = 0 := if_pos h0
    rw [if_pos h0, hw, if_neg (by omega), pushSize, if_pos h0,
      readPushData_eq (by omega) (by omega), Nat.add_zero]
  · -- `nSize = *pc++` reads the byte that `decodeLE` reads as a one-byte header
    rw [h1, if_neg (by decide), if_pos rfl, readHeader_eq (by simp) (by omega) (by omega)
      fun h => (decodeLE_take_one (by omega)).symm]
    rfl
  · rw [h2, if_neg (by decide), if_neg (by decide), if_pos rfl,
      readHeader_eq (by simp) (by omega) (by omega) fun _ => rfl]
    rfl
  · rw [h4, if_neg (by decide), if_neg (by decide), if_neg (by decide), if_pos rfl,
      readHeader_eq (by simp) (by omega) (by omega) fun _ => rfl]
    rfl

/-! ### The loop over a script -/

theorem readPushData_advance (script : CScript) (opcode : UInt8) (n q : ℕ) :
    q ≤ (readPushData script opcode n q).2.1 := by
  unfold readPushData
  dsimp only
  split <;> simp

/-- A successful `GetScriptOp` moves `pc` forward, whatever the script. -/
theorem GetScriptOp_advance {script : CScript} {pc : ℕ} (h : (GetScriptOp script pc).1 = true) :
    pc < (GetScriptOp script pc).2.1 := by
  unfold GetScriptOp at h ⊢
  dsimp only at h ⊢
  -- the failures contradict `h`; a success is past the opcode, or past data read from `pc + 1` on
  split_ifs at h ⊢
  all_goals first
    | exact Nat.lt_succ_self pc
    | exact Nat.lt_of_lt_of_le (by omega) (readPushData_advance _ _ _ _)

theorem readPushData_le_length {script : CScript} {opcode : UInt8} {n q : ℕ}
    (hq : q ≤ script.length) (h : (readPushData script opcode n q).1 = true) :
    (readPushData script opcode n q).2.1 ≤ script.length := by
  unfold readPushData at h ⊢
  dsimp only at h ⊢
  split_ifs at h ⊢ with hc
  simp only [Bool.or_eq_true, decide_eq_true_eq, not_or, not_lt] at hc
  have := prevectorDiff_toUInt32_le hq
  show q + n ≤ script.length
  omega

/-- A successful `GetScriptOp` stays within the script, whatever its length. -/
theorem GetScriptOp_le_length {script : CScript} {pc : ℕ} (h : (GetScriptOp script pc).1 = true) :
    (GetScriptOp script pc).2.1 ≤ script.length := by
  unfold GetScriptOp at h ⊢
  dsimp only at h ⊢
  -- a header test that passed leaves the header before the end
  split_ifs at h ⊢
  all_goals first
    | show pc + 1 ≤ script.length; omega
    | exact readPushData_le_length (by omega) h
    | exact readPushData_le_length (le_of_not_prevectorDiff_lt
        ‹¬prevectorDiff script.length (pc + 1) < _› (by omega) (by simp) (by norm_num)) h

/-- The walk every reader of a script makes, `while (pc < end()) { if (!GetOp(pc, opcode, vch))
...; }`: `GetScriptOp` from `pc` until the end or a failure. It returns the operations read, the
final `pc`, and whether the walk reached the end without a failure. -/
def GetOps (script : CScript) (pc : ℕ) : List (UInt8 × List UInt8) × ℕ × Bool :=
  if _hpc : pc < script.length then
    if _h : (GetScriptOp script pc).1 = true then
      let rest := GetOps script (GetScriptOp script pc).2.1
      (((GetScriptOp script pc).2.2.1, (GetScriptOp script pc).2.2.2) :: rest.1, rest.2)
    else ([], (GetScriptOp script pc).2.1, false)
  else ([], pc, true)
termination_by script.length - pc
decreasing_by exact Nat.sub_lt_sub_left _hpc (GetScriptOp_advance _h)

/-- **A walk that reached the end stops exactly there.** -/
theorem GetOps_end (script : CScript) (pc : ℕ) (hpc : pc ≤ script.length)
    (h : (GetOps script pc).2.2 = true) : (GetOps script pc).2.1 = script.length := by
  fun_induction GetOps script pc with
  | case1 pc _ hok rest ih =>
    -- a success stays within the script, and the rest of the walk ends at the end
    exact ih (GetScriptOp_le_length hok) h
  | case2 => exact absurd h Bool.false_ne_true
  | case3 pc hge =>
    show pc = script.length
    omega

/-! ### Built scripts -/

/-- An item a script is built from: an opcode by `operator<<(opcodetype)`, or data by
`operator<<(span)`. -/
inductive ScriptItem where
  | opcode (op : UInt8)
  | push (d : List UInt8)
  deriving DecidableEq, Repr

/-- `script << item`. -/
def ScriptItem.appendTo (script : CScript) : ScriptItem → CScript
  | .opcode op => script.pushOpcode op
  | .push d => script.pushSpan d

/-- `CScript() << item << item << ...`. -/
def buildScript (items : List ScriptItem) : CScript :=
  items.foldl ScriptItem.appendTo []

/-- The items a reader can take back: an opcode that is not a push (above `OP_PUSHDATA4`), and
data whose size a `uint32_t` holds. -/
def ScriptItem.Valid : ScriptItem → Prop
  | .opcode op => OP_PUSHDATA4 < op
  | .push d => d.length < 2 ^ 32

instance : DecidablePred ScriptItem.Valid := fun i => by
  cases i <;> unfold ScriptItem.Valid <;> infer_instance

/-- The opcode a push of `n` bytes is written with: the size itself below `OP_PUSHDATA1`, else
the narrowest of `OP_PUSHDATA1`, `OP_PUSHDATA2` and `OP_PUSHDATA4`. -/
def pushOpcodeFor (n : ℕ) : UInt8 :=
  if n < 76 then UInt8.ofNat n else if n ≤ 0xff then OP_PUSHDATA1
  else if n ≤ 0xffff then OP_PUSHDATA2 else OP_PUSHDATA4

/-- What reading an item back gives: the opcode, and for a push the opcode its width selects and
its data. -/
def ScriptItem.parsed : ScriptItem → UInt8 × List UInt8
  | .opcode op => (op, [])
  | .push d => (pushOpcodeFor d.length, d)

/-- The bytes an item appends. -/
def ScriptItem.bytes : ScriptItem → List UInt8
  | .opcode op => [op]
  | .push d => AppendDataSize (UInt32.ofNat d.length) ++ d

theorem ScriptItem.appendTo_eq (script : CScript) (i : ScriptItem) :
    i.appendTo script = script ++ i.bytes := by
  cases i <;> simp [ScriptItem.appendTo, ScriptItem.bytes, CScript.pushOpcode, CScript.pushSpan]

theorem foldl_appendTo (script : CScript) (items : List ScriptItem) :
    items.foldl ScriptItem.appendTo script = script ++ items.flatMap ScriptItem.bytes := by
  induction items generalizing script with
  | nil => simp
  | cons i is ih => rw [List.foldl_cons, ih, ScriptItem.appendTo_eq, List.flatMap_cons, List.append_assoc]

theorem buildScript_eq (items : List ScriptItem) :
    buildScript items = items.flatMap ScriptItem.bytes :=
  foldl_appendTo [] items

theorem pushOpcodeFor_lt_iff (n : ℕ) : pushOpcodeFor n < OP_PUSHDATA1 ↔ n < 76 := by
  unfold pushOpcodeFor
  by_cases h0 : n < 76
  · rw [if_pos h0, UInt8.lt_iff_toNat_lt, UInt8.toNat_ofNat', Nat.mod_eq_of_lt (by omega)]
    exact iff_of_true h0 h0
  · rw [if_neg h0, iff_false_right h0]
    split_ifs <;> decide

theorem pushOpcodeFor_le (n : ℕ) : pushOpcodeFor n ≤ OP_PUSHDATA4 := by
  unfold pushOpcodeFor
  split_ifs with h0
  · rw [UInt8.le_iff_toNat_le, UInt8.toNat_ofNat', Nat.mod_eq_of_lt (by omega)]
    simp [OP_PUSHDATA4]; omega
  all_goals decide

theorem pushHeaderWidth_pushOpcodeFor (n : ℕ) :
    pushHeaderWidth (pushOpcodeFor n) =
      if n < 76 then 0 else if n ≤ 0xff then 1 else if n ≤ 0xffff then 2 else 4 := by
  by_cases h0 : n < 76
  · rw [if_pos h0, pushHeaderWidth, if_pos ((pushOpcodeFor_lt_iff n).mpr h0)]
  · rw [if_neg h0, pushHeaderWidth, if_neg (mt (pushOpcodeFor_lt_iff n).mp h0), pushOpcodeFor,
      if_neg h0]
    -- the three header widths
    by_cases h1 : n ≤ 0xff
    · simp only [h1, if_true]
    by_cases h2 : n ≤ 0xffff
    · simp only [h1, h2, if_true, if_false]
      rfl
    · simp only [h1, h2, if_false]
      rfl

/-- **The header `AppendDataSize` writes** for `n < 2 ^ 32` bytes: the opcode `pushOpcodeFor n`,
then `n` in that opcode's header width. -/
theorem AppendDataSize_eq {n : ℕ} (hn : n < 2 ^ 32) :
    AppendDataSize (UInt32.ofNat n) =
      pushOpcodeFor n :: encodeLE (pushHeaderWidth (pushOpcodeFor n)) n := by
  have htn := UInt32.toNat_ofNat_of_lt' hn
  have h76 : OP_PUSHDATA1.toUInt32.toNat = 76 := rfl
  rw [pushHeaderWidth_pushOpcodeFor, AppendDataSize, pushOpcodeFor]
  simp only [UInt32.lt_iff_toNat_lt, UInt32.le_iff_toNat_le, htn, h76, UInt32.toUInt8_ofNat',
    UInt32.reduceToNat]
  split_ifs <;> simp [encodeLE]

/-- Reading that header back gives `n`. -/
theorem pushSize_pushOpcodeFor {n : ℕ} (hn : n < 2 ^ 32) :
    pushSize (pushOpcodeFor n) (encodeLE (pushHeaderWidth (pushOpcodeFor n)) n) = n := by
  rw [pushSize]
  by_cases h0 : n < 76
  · rw [if_pos ((pushOpcodeFor_lt_iff n).mpr h0), pushOpcodeFor, if_pos h0, UInt8.toNat_ofNat',
      Nat.mod_eq_of_lt (by omega)]
  -- a longer header holds `n` in its width
  rw [if_neg (mt (pushOpcodeFor_lt_iff n).mp h0)]
  apply decodeLE_encodeLE_of_lt
  rw [pushHeaderWidth_pushOpcodeFor, if_neg h0]
  split_ifs <;> norm_num <;> omega

/-- **One item read back.** At the start of an item's bytes, wherever they sit in a script within
`2 ^ 31` bytes of the end, `GetScriptOp` returns the item and moves past it. -/
theorem GetScriptOp_item (pre post : CScript) {i : ScriptItem} (hv : i.Valid)
    (hlen : (pre ++ i.bytes ++ post).length < pre.length + 2 ^ 31) :
    GetScriptOp (pre ++ i.bytes ++ post) pre.length =
      (true, pre.length + i.bytes.length, i.parsed) := by
  rw [GetScriptOp_eq_spec hlen, scriptOpSpec]
  cases i with
  | opcode op =>
    have hop : ¬op ≤ OP_PUSHDATA4 := UInt8.not_le.mpr hv
    simp [ScriptItem.bytes, ScriptItem.parsed, hop]
  | push d =>
    -- the item is the opcode `o`, a header of `w` bytes holding the size, then the data
    have hn : d.length < 2 ^ 32 := hv
    rw [ScriptItem.bytes, AppendDataSize_eq hn]
    set o := pushOpcodeFor d.length
    set w := pushHeaderWidth o
    set hdr := encodeLE w d.length
    have hhdr : hdr.length = w := length_encodeLE _ _
    have hget : (pre ++ (o :: hdr ++ d) ++ post).getD pre.length 0 = o := by
      simp
    have hhead : ((pre ++ (o :: hdr ++ d) ++ post).drop (pre.length + 1)).take w = hdr := by
      rw [show pre ++ (o :: hdr ++ d) ++ post = (pre ++ [o]) ++ (hdr ++ (d ++ post)) by simp,
        List.drop_left' (by simp), List.take_left' hhdr]
    have hdata : ((pre ++ (o :: hdr ++ d) ++ post).drop (pre.length + 1 + w)).take d.length = d := by
      rw [show pre ++ (o :: hdr ++ d) ++ post = (pre ++ [o] ++ hdr) ++ (d ++ post) by simp,
        List.drop_left' (by simp [hhdr]; omega), List.take_left' rfl]
    have hlen' : (pre ++ (o :: hdr ++ d) ++ post).length =
        pre.length + 1 + w + d.length + post.length := by
      simp [hhdr]
      omega
    rw [hget, if_neg (by omega), if_pos (pushOpcodeFor_le _), if_neg (by omega), hhead,
      pushSize_pushOpcodeFor hn, if_neg (by omega), hdata]
    have hend : pre.length + 1 + w + d.length = pre.length + (o :: hdr ++ d).length := by
      simp [hhdr]
      omega
    show (true, pre.length + 1 + w + d.length, o, d) = _
    rw [hend]
    rfl

theorem ScriptItem.bytes_ne_nil (i : ScriptItem) : i.bytes ≠ [] := by
  cases i with
  | opcode op => simp [ScriptItem.bytes]
  | push d =>
    rw [ScriptItem.bytes, AppendDataSize]
    split_ifs <;> simp

/-- **A built script read back from any item boundary**: by induction on the items, the prefix
growing by one item at each step. -/
theorem GetOps_append (items : List ScriptItem) (hv : ∀ i ∈ items, i.Valid) (pre : CScript)
    (hlen : (pre ++ items.flatMap ScriptItem.bytes).length < pre.length + 2 ^ 31) :
    GetOps (pre ++ items.flatMap ScriptItem.bytes) pre.length =
      (items.map ScriptItem.parsed, (pre ++ items.flatMap ScriptItem.bytes).length, true) := by
  induction items generalizing pre with
  | nil =>
    rw [GetOps, dif_neg (by simp)]
    simp
  | cons i is ih =>
    -- the next item sits at `pre.length`, and the rest starts where it ends
    have hs : pre ++ (i :: is).flatMap ScriptItem.bytes =
        (pre ++ i.bytes) ++ is.flatMap ScriptItem.bytes := by simp
    have hlen' : ((pre ++ i.bytes) ++ is.flatMap ScriptItem.bytes).length <
        (pre ++ i.bytes).length + 2 ^ 31 := by
      rw [← hs]
      simp only [List.length_append] at hlen ⊢
      omega
    have hi := GetScriptOp_item pre (is.flatMap ScriptItem.bytes) (hv i List.mem_cons_self)
      (by simpa using hlen)
    have hpos := List.length_pos_of_ne_nil i.bytes_ne_nil
    rw [hs, GetOps, dif_pos (by simp; omega), hi, dif_pos rfl]
    dsimp only
    rw [← List.length_append, ih (fun j hj => hv j (List.mem_cons_of_mem i hj)) _ hlen']
    rfl

/-- **Reading a built script back.** Below `2 ^ 31` bytes, the walk from the start returns exactly
the items, for pushes with the opcode their width selects, and ends at the end of the script; on
any script within `2 ^ 31` bytes of the end, a call succeeds exactly when the operation's span
(opcode, size header, declared data) fits, and then moves past it; and a walk that succeeds ends at
the end of the script, whatever its length. -/
theorem getOps_buildScript_roundTrip :
    (∀ items : List ScriptItem, (∀ i ∈ items, i.Valid) → (buildScript items).length < 2 ^ 31 →
      GetOps (buildScript items) 0 =
        (items.map ScriptItem.parsed, (buildScript items).length, true)) ∧
    (∀ (script : CScript) (pc : ℕ), pc < script.length → script.length < pc + 2 ^ 31 →
      ((GetScriptOp script pc).1 = true ↔ pc + opSpan script pc ≤ script.length) ∧
      ((GetScriptOp script pc).1 = true →
        (GetScriptOp script pc).2.1 = pc + opSpan script pc)) ∧
    (∀ (script : CScript) (pc : ℕ), pc ≤ script.length → (GetOps script pc).2.2 = true →
      (GetOps script pc).2.1 = script.length) := by
  refine ⟨fun items hv hlen => ?_, fun script pc hpc hlen => ?_, GetOps_end⟩
  · rw [buildScript_eq] at hlen ⊢
    simpa using GetOps_append items hv [] (by simpa using hlen)
  · rw [GetScriptOp_eq_spec hlen]
    exact scriptOpSpec_ok hpc

theorem getOps_buildScript_roundTrip_p2pk :
    GetOps (buildScript [.push [2, 3], .opcode 0xac]) 0 = ([(2, [2, 3]), (0xac, [])], 4, true) ∧
      ((GetScriptOp [0x4c, 5] 0).1 = true ↔ 0 + opSpan [0x4c, 5] 0 ≤ 2) ∧
      ((GetOps [0x4c, 5] 0).2.2 = true → (GetOps [0x4c, 5] 0).2.1 = 2) := by
  obtain ⟨hbuild, hop, hend⟩ := getOps_buildScript_roundTrip
  refine ⟨?_, (hop [0x4c, 5] 0 (by decide) (by decide)).1, hend [0x4c, 5] 0 (by decide)⟩
  rw [hbuild _ (by decide) (by decide)]
  rfl

/-- A push of `2 ^ 31` bytes: the script is `2 ^ 31 + 5` bytes long, `end - pc` is negative as an
`int32_t`, and the walk fails at its first operation. -/
theorem GetOps_build_long_push :
    (ScriptItem.push (List.replicate (2 ^ 31) 0)).Valid ∧
      GetOps (buildScript [.push (List.replicate (2 ^ 31) 0)]) 0 = ([], 0, false) := by
  have hd : (List.replicate (2 ^ 31) (0 : UInt8)).length = 2 ^ 31 := List.length_replicate
  have hlen : (buildScript [.push (List.replicate (2 ^ 31) 0)]).length = 2 ^ 31 + 5 := by
    rw [buildScript_eq, List.flatMap_singleton, ScriptItem.bytes, hd,
      AppendDataSize_eq (by norm_num), List.length_append, List.length_cons, length_encodeLE,
      pushHeaderWidth_pushOpcodeFor]
    norm_num
  refine ⟨show _ < _ by rw [hd]; norm_num, ?_⟩
  -- `end - pc` is `2 ^ 31 + 5`, negative as an `int32_t`
  have hop : GetScriptOp (buildScript [.push (List.replicate (2 ^ 31) 0)]) 0 =
      (false, 0, OP_INVALIDOPCODE, []) := by
    unfold GetScriptOp
    dsimp only
    rw [hlen, if_neg (by norm_num), if_pos (by decide)]
  rw [GetOps, dif_pos (by rw [hlen]; norm_num), hop]
  rfl

end Tenscoin
