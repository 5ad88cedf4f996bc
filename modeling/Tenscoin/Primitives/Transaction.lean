import Mathlib
import Tenscoin.Arith.Uint256

/-!
# Transactions

The parts of `primitives/transaction.h` and `script/script.h` that the coins database and block
connection read: an outpoint names an output by its transaction's hash and its index, an output
is an amount and a script, an input spends an outpoint, and a transaction is a coinbase when it
has a single input spending the null outpoint.

A transaction's hash is its cached `hash` member (`ComputeHash` of the serialization without
witness); the model keeps it as a field, the other members (version, lock time, scripts of the
inputs, witnesses) are not read by the modelled code.
-/

namespace Tenscoin

/-- `Txid`. -/
abbrev Txid := Uint256

/-- `COutPoint`: output `n` of the transaction with hash `hash`. -/
structure COutPoint where
  hash : Txid
  n : UInt32
  deriving DecidableEq, Repr

namespace COutPoint

/-- `COutPoint::NULL_INDEX`, `std::numeric_limits<uint32_t>::max()`. -/
def NULL_INDEX : UInt32 := 0xFFFFFFFF

/-- `COutPoint::IsNull`. -/
def IsNull (o : COutPoint) : Bool :=
  o.hash == nullHash && o.n == NULL_INDEX

end COutPoint

/-- `CScript`, as its bytes. -/
abbrev CScript := List UInt8

/-- `opcodetype::OP_RETURN`. -/
def OP_RETURN : UInt8 := 0x6a

/-- `MAX_SCRIPT_SIZE`. -/
def MAX_SCRIPT_SIZE : ℕ := 10000

/-- `CScript::IsUnspendable`: a script that starts with `OP_RETURN` or is too long can never be
spent. -/
def CScript.IsUnspendable (s : CScript) : Bool :=
  (decide (s.length > 0) && s.head? == some OP_RETURN) || decide (s.length > MAX_SCRIPT_SIZE)

/-- `CAmount`. -/
abbrev CAmount := Int64

/-- `CTxOut`. -/
structure CTxOut where
  nValue : CAmount
  scriptPubKey : CScript
  deriving DecidableEq, Repr

namespace CTxOut

/-- `CTxOut::SetNull`; also the default `CTxOut()`. -/
def null : CTxOut :=
  ⟨-1, []⟩

/-- `CTxOut::IsNull`. -/
def IsNull (out : CTxOut) : Bool :=
  out.nValue == -1

@[simp] theorem IsNull_null : null.IsNull = true := rfl

end CTxOut

/-- `CTxIn`, of which the modelled code reads the outpoint it spends. -/
structure CTxIn where
  prevout : COutPoint
  deriving DecidableEq, Repr

/-- `CTransaction`: inputs, outputs and the cached hash. -/
structure CTransaction where
  vin : List CTxIn
  vout : List CTxOut
  hash : Txid
  deriving DecidableEq, Repr

namespace CTransaction

/-- `CTransaction::GetHash`. -/
def GetHash (tx : CTransaction) : Txid :=
  tx.hash

/-- `CTransaction::IsNull`: no inputs and no outputs. -/
def IsNull (tx : CTransaction) : Bool :=
  tx.vin.isEmpty && tx.vout.isEmpty

/-- `CTransaction::IsCoinBase`. -/
def IsCoinBase (tx : CTransaction) : Bool :=
  match tx.vin with
  | [txin] => txin.prevout.IsNull
  | _ => false

end CTransaction

end Tenscoin
