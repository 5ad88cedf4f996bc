import Mathlib
import Tenscoin.Coins.Cache
import Tenscoin.Primitives.Block

/-!
# Connecting and disconnecting a block's coins

What connecting a block does to the coins view and how `DisconnectBlock` takes it back
(`validation.cpp`, with `AddCoins` and `AccessByTxid` of `coins.cpp`).

`UpdateCoins` spends a transaction's inputs, collecting the coins it spends into the
transaction's undo record `CTxUndo`, and then adds its outputs through `AddCoins`.
`ConnectBlock` does that for each transaction in order and keeps the records of all but the
first, the coinbase, in the block's `CBlockUndo` (`connectTxs`).

`DisconnectBlock` walks the transactions last first (`disconnectTxs`, one transaction by
`disconnectTx`): it spends each output and compares it with the block (`spendOutputs`), and
puts back the coins the inputs spent, last input first, through `ApplyTxInUndo`
(`restoreInputs`). An undo coin of height zero is a record of the old format, without height
and coinbase flag; `ApplyTxInUndo` takes them from another unspent output of the same
transaction, found by `AccessByTxid`, and fails when there is none.

A `DISCONNECT_FAILED` returned from inside the loops ends `DisconnectBlock` at once; the loops
return `none` for it and the new `fClean` otherwise. Reading the undo data from disk is not
modelled: `DisconnectBlock` is given the record. Of the block index it reads the height, the
hash and the previous block's hash.
-/

namespace Tenscoin

/-- `CTxUndo`: the coins a transaction's inputs spent, in the order of the inputs. -/
structure CTxUndo where
  vprevout : List Coin
  deriving DecidableEq, Repr

/-- `CBlockUndo`: the undo records of a block's transactions but the coinbase. -/
structure CBlockUndo where
  vtxundo : List CTxUndo
  deriving DecidableEq, Repr

/-- `DisconnectResult`. -/
inductive DisconnectResult where
  | DISCONNECT_OK
  | DISCONNECT_UNCLEAN
  | DISCONNECT_FAILED
  deriving DecidableEq, Repr

open DisconnectResult

/-! ### `coins.cpp` -/

/-- `WITNESS_SCALE_FACTOR`. -/
def WITNESS_SCALE_FACTOR : ℕ := 4

/-- `MAX_BLOCK_WEIGHT`. -/
def MAX_BLOCK_WEIGHT : ℕ := 4000000

/-- `MIN_TRANSACTION_OUTPUT_WEIGHT`: the weight of a serialized `CTxOut()`, eight bytes of
amount and one of script length. -/
def MIN_TRANSACTION_OUTPUT_WEIGHT : ℕ := WITNESS_SCALE_FACTOR * 9

/-- `MAX_OUTPUTS_PER_BLOCK`. -/
def MAX_OUTPUTS_PER_BLOCK : ℕ := MAX_BLOCK_WEIGHT / MIN_TRANSACTION_OUTPUT_WEIGHT

/-- The loop of `AddCoins` over the outputs and their indices. With `check_for_overwrite` the
overwrite flag asks the view; otherwise only a coinbase may overwrite. -/
def addCoinsLoop (txid : Txid) (fCoinbase check_for_overwrite : Bool) (nHeight : ℕ) :
    CacheView → List (CTxOut × ℕ) → Except String CacheView
  | cache, [] => pure cache
  | cache, (out, i) :: rest => do
    let o : COutPoint := ⟨txid, UInt32.ofNat i⟩
    let (overwrite, cache) :=
      if check_for_overwrite then cache.HaveCoin o else (fCoinbase, cache)
    let cache ← cache.AddCoin o (Coin.make out nHeight fCoinbase) overwrite
    addCoinsLoop txid fCoinbase check_for_overwrite nHeight cache rest

/-- `AddCoins`: the outputs of `tx` as coins at height `nHeight`. -/
def AddCoins (cache : CacheView) (tx : CTransaction) (nHeight : ℕ)
    (check_for_overwrite : Bool) : Except String CacheView :=
  addCoinsLoop tx.GetHash tx.IsCoinBase check_for_overwrite nHeight cache tx.vout.zipIdx

/-- The loop of `AccessByTxid` over the output indices `ns`: the first unspent coin of `txid`,
`coinEmpty` if there is none. -/
def accessByTxidLoop (txid : Txid) : CacheView → List ℕ → Coin × CacheView
  | view, [] => (Coin.empty, view)
  | view, n :: ns =>
    let (alternate, view) := view.AccessCoin ⟨txid, UInt32.ofNat n⟩
    if !alternate.IsSpent then (alternate, view) else accessByTxidLoop txid view ns

/-- `AccessByTxid`: an unspent output of `txid` among the first `MAX_OUTPUTS_PER_BLOCK`. -/
def AccessByTxid (view : CacheView) (txid : Txid) : Coin × CacheView :=
  accessByTxidLoop txid view (List.range MAX_OUTPUTS_PER_BLOCK)

/-! ### Connecting -/

/-- The loop of `UpdateCoins` marking the inputs spent; the coin each one spends is pushed to
the undo record. -/
def spendInputs : CacheView → List CTxIn → Except String (CacheView × List Coin)
  | inputs, [] => pure (inputs, [])
  | inputs, txin :: rest => do
    let (is_spent, moved, inputs) := inputs.SpendCoin txin.prevout
    if !is_spent then throw "assert(is_spent)"
    let (inputs, vprevout) ← spendInputs inputs rest
    pure (inputs, moved.getD Coin.empty :: vprevout)

/-- `UpdateCoins`: the inputs of a transaction other than a coinbase are spent, then its
outputs are added. -/
def UpdateCoins (tx : CTransaction) (inputs : CacheView) (nHeight : ℕ) :
    Except String (CacheView × CTxUndo) := do
  let (inputs, vprevout) ← if !tx.IsCoinBase then spendInputs inputs tx.vin else pure (inputs, [])
  let inputs ← AddCoins inputs tx nHeight false
  pure (inputs, ⟨vprevout⟩)

/-- The loop of `ConnectBlock` over the block's transactions and their indices, as far as the
coins go: each is applied by `UpdateCoins`, and the undo record of each but the first is kept.
-/
def connectTxs (nHeight : ℕ) : CacheView → List (CTransaction × ℕ) →
    Except String (CacheView × List CTxUndo)
  | view, [] => pure (view, [])
  | view, (tx, i) :: rest => do
    let (view, txundo) ← UpdateCoins tx view nHeight
    let (view, vtxundo) ← connectTxs nHeight view rest
    pure (view, if i > 0 then txundo :: vtxundo else vtxundo)

/-! ### Disconnecting -/

/-- The rest of `ApplyTxInUndo` once the undo coin has its metadata: the coin is added back,
as an overwrite if the view held one. -/
def addUndoCoin (undo : Coin) (view : CacheView) (out : COutPoint) (fClean : Bool) :
    Except String (DisconnectResult × CacheView) := do
  let view ← view.AddCoin out undo !fClean
  pure (if fClean then DISCONNECT_OK else DISCONNECT_UNCLEAN, view)

/-- `ApplyTxInUndo`: put the coin an input spent back at its outpoint. -/
def ApplyTxInUndo (undo : Coin) (view : CacheView) (out : COutPoint) :
    Except String (DisconnectResult × CacheView) :=
  let (haveCoin, view) := view.HaveCoin out
  -- overwriting a transaction output
  let fClean := !haveCoin
  if undo.nHeight = 0 then
    -- missing undo metadata: some other output of the same transaction must have it
    let (alternate, view) := AccessByTxid view out.hash
    if !alternate.IsSpent then
      addUndoCoin { undo with nHeight := alternate.nHeight, fCoinBase := alternate.fCoinBase }
        view out fClean
    else pure (DISCONNECT_FAILED, view)
  else addUndoCoin undo view out fClean

/-- The outputs loop of `DisconnectBlock`: each spendable output is spent, and `fClean` drops
unless it was there exactly as the block has it (or the transaction is a BIP30 exception). -/
def spendOutputs (hash : Txid) (is_coinbase is_bip30_exception : Bool) (nHeight : ℕ) :
    CacheView → Bool → List (CTxOut × ℕ) → Bool × CacheView
  | view, fClean, [] => (fClean, view)
  | view, fClean, (out, o) :: rest =>
    if !out.scriptPubKey.IsUnspendable then
      let (is_spent, moved, view) := view.SpendCoin ⟨hash, UInt32.ofNat o⟩
      let coin := moved.getD Coin.empty
      let mismatch := !is_spent || out != coin.out || nHeight != coin.nHeight ||
        is_coinbase != coin.fCoinBase
      spendOutputs hash is_coinbase is_bip30_exception nHeight view
        (if mismatch && !is_bip30_exception then false else fClean) rest
    else spendOutputs hash is_coinbase is_bip30_exception nHeight view fClean rest

/-- The inputs loop of `DisconnectBlock`, over the undo coins and the inputs last first. -/
def restoreInputs : CacheView → Bool → List (Coin × CTxIn) →
    Except String (Option Bool × CacheView)
  | view, fClean, [] => pure (some fClean, view)
  | view, fClean, (undo, txin) :: rest => do
    let (res, view) ← ApplyTxInUndo undo view txin.prevout
    if res = DISCONNECT_FAILED then pure (none, view)
    else restoreInputs view (fClean && res != DISCONNECT_UNCLEAN) rest

/-- One transaction of `DisconnectBlock`'s loop, the `i`-th of the block: its outputs are
spent, and unless it is the first its inputs are restored from its undo record. -/
def disconnectTx (blockUndo : CBlockUndo) (nHeight : ℕ) (fEnforceBIP30 : Bool)
    (view : CacheView) (fClean : Bool) (tx : CTransaction) (i : ℕ) :
    Except String (Option Bool × CacheView) :=
  let hash := tx.GetHash
  let is_coinbase := tx.IsCoinBase
  let is_bip30_exception := is_coinbase && !fEnforceBIP30
  let (fClean, view) :=
    spendOutputs hash is_coinbase is_bip30_exception nHeight view fClean tx.vout.zipIdx
  if i > 0 then
    -- `vtxundo[i - 1]`: in range, as the sizes were checked
    let txundo := blockUndo.vtxundo.getD (i - 1) ⟨[]⟩
    if txundo.vprevout.length ≠ tx.vin.length then pure (none, view)
    else restoreInputs view fClean (txundo.vprevout.zip tx.vin).reverse
  else pure (some fClean, view)

/-- The loop of `DisconnectBlock` over the indexed transactions, last first. -/
def disconnectTxs (blockUndo : CBlockUndo) (nHeight : ℕ) (fEnforceBIP30 : Bool) :
    CacheView → Bool → List (CTransaction × ℕ) → Except String (Option Bool × CacheView)
  | view, fClean, [] => pure (some fClean, view)
  | view, fClean, (tx, i) :: rest => do
    let (r, view) ← disconnectTx blockUndo nHeight fEnforceBIP30 view fClean tx i
    match r with
    | none => pure (none, view)
    | some fClean => disconnectTxs blockUndo nHeight fEnforceBIP30 view fClean rest

/-- The hash of the block at height `91722` whose coinbase is repeated later. -/
def BIP30_HASH_91722 : Uint256 :=
  uint256OfNat 0x00000000000271a2dc26e7667f8419f2e15416dc6955e5a6c6cdf3f2574dd08e

/-- The hash of the block at height `91812` whose coinbase is repeated later. -/
def BIP30_HASH_91812 : Uint256 :=
  uint256OfNat 0x00000000000af0aed4792b1acee3d966af36cf5def14935db8de83d6f9306f2f

/-- `Chainstate::DisconnectBlock` of the block at height `nHeight` with hash `blockHash`,
whose parent has hash `prevHash`, with its undo data `blockUndo`. -/
def DisconnectBlock (block : CBlock) (blockUndo : CBlockUndo) (nHeight : ℕ)
    (blockHash prevHash : Uint256) (view : CacheView) :
    Except String (DisconnectResult × CacheView) := do
  if blockUndo.vtxundo.length + 1 ≠ block.vtx.length then return (DISCONNECT_FAILED, view)
  -- the two blocks whose coinbase a later block overwrote
  let fEnforceBIP30 := !((nHeight == 91722 && blockHash == BIP30_HASH_91722) ||
    (nHeight == 91812 && blockHash == BIP30_HASH_91812))
  let (r, view) ← disconnectTxs blockUndo nHeight fEnforceBIP30 view true block.vtx.zipIdx.reverse
  match r with
  | none => pure (DISCONNECT_FAILED, view)
  | some fClean =>
    pure (if fClean then DISCONNECT_OK else DISCONNECT_UNCLEAN, view.SetBestBlock prevHash)

end Tenscoin
