import Mathlib
import Tenscoin.Arith.Uint256
import Tenscoin.Primitives.Transaction

/-!
# Block headers

`CBlockHeader` (`primitives/block.h`): the six fields that are serialized and hashed, and
`CBlock`, a header with its transactions. Of the header's methods, the retarget rules read
`GetBlockTime`, and the header sync and the miner read `GetHash`.

This chain's `GetHash` zeroes `nNonce` before it hashes the 80 serialized bytes, so that the
proof-of-work seed of a header is the same for every nonce (`GetHash_nNonce`). The hash
function `HashWriter::GetHash`, double SHA-256, is a parameter of the model.
-/

namespace Tenscoin

/-- `CBlockHeader`. -/
structure CBlockHeader where
  nVersion : Int32
  hashPrevBlock : Uint256
  hashMerkleRoot : Uint256
  nTime : UInt32
  nBits : UInt32
  nNonce : UInt32
  deriving DecidableEq, Repr

namespace CBlockHeader

/-- `CBlockHeader::GetBlockTime`. -/
def GetBlockTime (h : CBlockHeader) : ℤ :=
  h.nTime.toNat

/-- `CBlockHeader::SetNull`: every field zero. -/
def null : CBlockHeader :=
  ⟨0, nullHash, nullHash, 0, 0, 0⟩

/-- `CBlockHeader::IsNull`: a header is null when its `nBits` is zero. -/
def IsNull (h : CBlockHeader) : Bool :=
  h.nBits == 0

@[simp] theorem IsNull_null : null.IsNull = true := rfl

/-- `SERIALIZE_METHODS(CBlockHeader)`: the six fields in order, each integer written by
`ser_writedata32` little endian, each hash as its 32 bytes. -/
def serialize (h : CBlockHeader) : List UInt8 :=
  writeLE32 h.nVersion.toUInt32 ++ h.hashPrevBlock.toList ++ h.hashMerkleRoot.toList ++
    writeLE32 h.nTime ++ writeLE32 h.nBits ++ writeLE32 h.nNonce

/-- `CBlockHeader::GetHash`: `sha256d` of a copy of the header with `nNonce` set to zero. -/
def GetHash (sha256d : List UInt8 → Uint256) (h : CBlockHeader) : Uint256 :=
  sha256d (serialize { h with nNonce := 0 })

theorem length_serialize (h : CBlockHeader) : h.serialize.length = 80 := by
  simp [serialize, writeLE32]

/-- The block hash does not depend on the nonce. -/
@[simp] theorem GetHash_nNonce (sha256d : List UInt8 → Uint256) (h : CBlockHeader) (n : UInt32) :
    GetHash sha256d { h with nNonce := n } = GetHash sha256d h := rfl

end CBlockHeader

/-- `CBlock`: a header and its transactions. The flags that cache the results of `CheckBlock`
are not modelled. -/
structure CBlock extends CBlockHeader where
  vtx : List CTransaction
  deriving DecidableEq, Repr

end Tenscoin
