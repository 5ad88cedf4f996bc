import Tenscoin.Lib.Mantissa
import Tenscoin.Lib.Forest
import Tenscoin.Arith.Uint256
import Tenscoin.Arith.Compact
import Tenscoin.Consensus.Params
import Tenscoin.Validation.Subsidy
import Tenscoin.Chain.BlockIndex
import Tenscoin.Lib.Except
import Tenscoin.Chain.Skiplist
import Tenscoin.Primitives.Block
import Tenscoin.Pow.Pow
import Tenscoin.Pow.Retarget
import Tenscoin.Lib.Bits
import Tenscoin.Consensus.Merkle
import Tenscoin.Consensus.MerkleTree
import Tenscoin.Consensus.MerklePath
import Tenscoin.Validation.CheckMerkleRoot
import Tenscoin.Arith.Divide
import Tenscoin.Chain.ChainWork
import Tenscoin.Chain.CChain
import Tenscoin.Coins.Cache
import Tenscoin.Coins.Invariant
import Tenscoin.Coins.Methods
import Tenscoin.Coins.BatchWrite
import Tenscoin.Coins.Sim
import Tenscoin.Lib.Store
import Tenscoin.Validation.Undo
import Tenscoin.Validation.UndoSpec
import Tenscoin.Lib.Bytes
import Tenscoin.Primitives.Serialize
import Tenscoin.Primitives.VarInt
import Tenscoin.Lib.Word
import Tenscoin.Primitives.Compressor
import Tenscoin.Script.ConditionStack
import Tenscoin.Script.SignatureEncoding
import Tenscoin.Script.Script
import Tenscoin.Lib.SignMagnitude
import Tenscoin.Script.ScriptNum
import Tenscoin.Lib.Radix
import Tenscoin.Encoding.Base58
import Tenscoin.Lib.Polyline
import Tenscoin.Util.FeeFrac
import Tenscoin.Util.CompareChunks
import Tenscoin.Lib.Limbs
import Tenscoin.Arith.BaseUint
import Tenscoin.Util.Strings
import Tenscoin.Util.MoneyStr
import Tenscoin.Lib.BlockStream
import Tenscoin.Lib.XorCipher
import Tenscoin.Crypto.ChaCha20
import Tenscoin.Crypto.FSChaCha20
import Tenscoin.Pow.TensHash
import Tenscoin.Pow.GenerateBlock
import Tenscoin.Lib.XorLinear
import Tenscoin.Encoding.Bech32
import Tenscoin.Lib.BitList
import Tenscoin.Util.BitStream
import Tenscoin.Util.GolombRice
import Tenscoin.Lib.SortedMeet
import Tenscoin.BlockFilter.GCSFilter
