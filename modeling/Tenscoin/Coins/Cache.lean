import Mathlib
import Tenscoin.Primitives.Transaction
import Tenscoin.Lib.KeyMap

/-!
# The coins cache

`CCoinsViewCache` (`coins.h`, `coins.cpp`) is one layer of the UTXO database: a hash map from
outpoints to cache entries over a `base` view, which is another cache, the database on disk, or
in the fuzz harness `coinscache_sim` its map `CoinsViewBottom`.
An entry holds a coin (spent when its output is null) and two flags: DIRTY, the entry may differ
from the base, and FRESH, the base has no unspent coin there. Every flagged entry is also linked
into a list through `m_sentinel`, which `Flush` and `Sync` hand to the base's `BatchWrite`.

The model keeps the map as an `AList`, the linked list as the list of its outpoints in order
(`CCoinsViewCache.flagged`), and `cachedCoinsUsage` as a number. A stack of views is
`CoinsView`: the database or the harness's bottom at the bottom, each cache over the view below
it; `CacheView` is a
cache with its base, on which the cache's methods act. `FetchCoin` and through it `GetCoin`,
`HaveCoin`, `AccessCoin` and `SpendCoin` call the base's `GetCoin`, which on a cache base fetches
into that cache in turn, so reads change the state of every layer below.

Each entry update of the source is one helper here, with its effect on the list of flagged
entries: `setCoin` (assign the coin, creating an unflagged entry), `addFlags` (link an unflagged
entry at the end of the list), `setClean` and `eraseEntry` (unlink). `cachedCoinsUsage` is
updated where the source updates it. `SanityCheck` computes the checks of the source's.

`BatchWrite` of the database asserts that the best block it is given is not null, and, when the
database is in the middle of a write (no best block, two head blocks), that it is the block that
write was heading to. `BatchWrite` of the harness's bottom ignores the best block, keeps some
spent coins, and asserts that every entry it is handed that is not DIRTY holds what it holds.

Not modelled: the allocator and `ReallocateCache`, which change no contents; the database's
batching and its simulated crashes, so a write is seen whole, which leaves the head blocks erased;
I/O failure of a database write; `prevector`'s capacity, so a script of more than 28 bytes is taken
to be allocated at its own size.
-/

namespace Tenscoin

/-- `Coin`: an output with the height of its block and whether it is a coinbase's. `nHeight` is a
31-bit field. -/
structure Coin where
  out : CTxOut
  fCoinBase : Bool
  nHeight : ℕ
  deriving DecidableEq, Repr

/-- `memusage::MallocUsage` on a 64-bit platform. -/
def mallocUsage (alloc : ℕ) : ℕ :=
  if alloc = 0 then 0 else ((alloc + 31) >>> 4) <<< 4

namespace Coin

/-- `Coin(out, nHeight, fCoinBase)`; the height is stored in 31 bits. -/
def make (outIn : CTxOut) (nHeightIn : ℕ) (fCoinBaseIn : Bool) : Coin :=
  ⟨outIn, fCoinBaseIn, nHeightIn % 2 ^ 31⟩

/-- `Coin()`, the `coinEmpty` of `coins.cpp`, and what `Coin::Clear` leaves. -/
def empty : Coin :=
  ⟨CTxOut.null, false, 0⟩

/-- `Coin::IsSpent`. -/
def IsSpent (c : Coin) : Bool :=
  c.out.IsNull

/-- `Coin::DynamicMemoryUsage`: the heap buffer of the script, which a `prevector<28>` has for
more than 28 bytes. -/
def DynamicMemoryUsage (c : Coin) : ℕ :=
  mallocUsage (if 28 < c.out.scriptPubKey.length then c.out.scriptPubKey.length else 0)

@[simp] theorem IsSpent_empty : empty.IsSpent = true := rfl

@[simp] theorem DynamicMemoryUsage_empty : empty.DynamicMemoryUsage = 0 := rfl

end Coin

/-- `CCoinsCacheEntry`: the coin and the two bits of `m_flags`. -/
structure CCoinsCacheEntry where
  coin : Coin
  dirty : Bool
  fresh : Bool
  deriving DecidableEq, Repr

namespace CCoinsCacheEntry

/-- The entry is in the list of flagged entries. -/
def IsFlagged (e : CCoinsCacheEntry) : Bool :=
  e.dirty || e.fresh

/-- The check of `SanityCheck` on one entry: of the eight combinations of DIRTY (1), FRESH (2)
and spent (4), `2`, `4` and `7` do not occur. -/
def attrOk (e : CCoinsCacheEntry) : Bool :=
  let attr := (if e.dirty then 1 else 0) ||| (if e.fresh then 2 else 0) |||
    (if e.coin.IsSpent then 4 else 0)
  attr != 2 && attr != 4 && attr != 7

/-- The three excluded combinations: FRESH but neither DIRTY nor spent, spent but not flagged,
spent with both flags. -/
theorem attrOk_iff (e : CCoinsCacheEntry) :
    e.attrOk = true ↔ ¬(e.fresh = true ∧ e.dirty = false ∧ e.coin.IsSpent = false) ∧
      ¬(e.coin.IsSpent = true ∧ e.dirty = false ∧ e.fresh = false) ∧
      ¬(e.coin.IsSpent = true ∧ e.dirty = true ∧ e.fresh = true) := by
  unfold attrOk
  cases e.dirty <;> cases e.fresh <;> cases e.coin.IsSpent <;> decide

end CCoinsCacheEntry

/-- The map of a cache. -/
abbrev CCoinsMap := AList (fun _ : COutPoint => CCoinsCacheEntry)

/-- The data of a `CCoinsViewCache`, without its base. -/
structure CCoinsViewCache where
  cacheCoins : CCoinsMap
  /-- The list of flagged entries linked through `m_sentinel`, first to last. -/
  flagged : List COutPoint
  cachedCoinsUsage : ℕ
  hashBlock : Uint256

/-- The coins table of `CCoinsViewDB`, with `DB_BEST_BLOCK` and `DB_HEAD_BLOCKS` (empty when the
record is absent). -/
structure CCoinsViewDB where
  coins : AList (fun _ : COutPoint => Coin)
  bestBlock : Uint256
  headBlocks : List Uint256

/-- `CoinsViewBottom`, the base of the stack in the fuzz harness `coinscache_sim`: a map of coins,
spent ones among them. -/
structure CoinsViewBottom where
  m_data : AList (fun _ : COutPoint => Coin)

/-- A stack of views: the database, the harness's bottom, or a cache over the view it is backed
by. -/
inductive CoinsView where
  | db (d : CCoinsViewDB)
  | bottom (b : CoinsViewBottom)
  | cache (c : CCoinsViewCache) (base : CoinsView)

/-- A cache with the view it is backed by; the cache's methods act on it. -/
structure CacheView where
  cache : CCoinsViewCache
  base : CoinsView

namespace CCoinsViewCache

variable (c : CCoinsViewCache) (o : COutPoint)

/-- A new `CCoinsViewCache`: no entries, `hashBlock` null. -/
def empty : CCoinsViewCache :=
  ⟨∅, [], 0, nullHash⟩

/-- The entry of `o` is linked into the list of flagged entries. -/
def isFlagged : Bool :=
  match c.cacheCoins.lookup o with
  | some e => e.IsFlagged
  | none => false

/-- `it->second.coin = coin` on the entry of `o`, which `try_emplace` or `emplace` creates with
no flags if it is missing. -/
def setCoin (coin : Coin) : CCoinsViewCache :=
  let e := match c.cacheCoins.lookup o with
    | some e => { e with coin }
    | none => ⟨coin, false, false⟩
  { c with cacheCoins := c.cacheCoins.insert o e }

/-- `CCoinsCacheEntry::AddFlags` on the entry of `o`: an entry with no flag is linked at the end
of the list, before the sentinel. -/
def addFlags (dirty fresh : Bool) : CCoinsViewCache :=
  match c.cacheCoins.lookup o with
  | none => c
  | some e =>
    { c with
      cacheCoins := c.cacheCoins.insert o { e with dirty := e.dirty || dirty, fresh := e.fresh || fresh }
      flagged := if e.IsFlagged then c.flagged else c.flagged ++ [o] }

/-- `CCoinsCacheEntry::SetDirty`. -/
def setDirty : CCoinsViewCache :=
  c.addFlags o true false

/-- `CCoinsCacheEntry::SetFresh`. -/
def setFresh : CCoinsViewCache :=
  c.addFlags o false true

/-- `CCoinsCacheEntry::SetClean`: a flagged entry loses its flags and is unlinked. -/
def setClean : CCoinsViewCache :=
  match c.cacheCoins.lookup o with
  | none => c
  | some e =>
    if e.IsFlagged then
      { c with
        cacheCoins := c.cacheCoins.insert o { e with dirty := false, fresh := false }
        flagged := c.flagged.erase o }
    else c

/-- `cacheCoins.erase`: the entry's destructor calls `SetClean`, which unlinks it. -/
def eraseEntry : CCoinsViewCache :=
  match c.cacheCoins.lookup o with
  | none => c
  | some e =>
    { c with
      cacheCoins := c.cacheCoins.erase o
      flagged := if e.IsFlagged then c.flagged.erase o else c.flagged }

/-- `cachedCoinsUsage += n`. -/
def addUsage (n : ℕ) : CCoinsViewCache :=
  { c with cachedCoinsUsage := c.cachedCoinsUsage + n }

/-- `cachedCoinsUsage -= n`. -/
def subUsage (n : ℕ) : CCoinsViewCache :=
  { c with cachedCoinsUsage := c.cachedCoinsUsage - n }

/-- The entries the cursor of `Flush` and `Sync` visits: the linked list from
`m_sentinel.second.Next()` on. -/
def cursor : List (COutPoint × CCoinsCacheEntry) :=
  c.flagged.filterMap fun o => (c.cacheCoins.lookup o).map (o, ·)

/-- `CCoinsViewCache::FetchCoin`, with the base's `GetCoin` as `baseGetCoin`: the entry of `o`,
fetched from the base if the cache has none. A spent coin from the base is FRESH. -/
def FetchCoin (baseGetCoin : COutPoint → Option Coin × CoinsView) (base : CoinsView) :
    Option CCoinsCacheEntry × CCoinsViewCache × CoinsView :=
  match c.cacheCoins.lookup o with
  | some e => (some e, c, base)
  | none =>
    match baseGetCoin o with
    | (some coin, base') =>
      let c := (c.setCoin o coin).addUsage coin.DynamicMemoryUsage
      -- the parent only has an empty entry for this outpoint: ours is fresh
      let c := if coin.IsSpent then c.setFresh o else c
      (c.cacheCoins.lookup o, c, base')
    | (none, base') => (none, c, base')

/-- `CCoinsViewCache::GetCoin`: the coin of the fetched entry, if it is unspent. -/
def GetCoin (baseGetCoin : COutPoint → Option Coin × CoinsView) (base : CoinsView) :
    Option Coin × CCoinsViewCache × CoinsView :=
  let r := c.FetchCoin o baseGetCoin base
  (r.1.bind fun e => if e.coin.IsSpent then none else some e.coin, r.2)

/-- One entry of the cursor in `CCoinsViewCache::BatchWrite`, written into this cache, the
parent. -/
def batchWriteEntry (e : CCoinsCacheEntry) : Except String CCoinsViewCache :=
  -- ignore non-dirty entries (optimization)
  if !e.dirty then pure c
  else
    match c.cacheCoins.lookup o with
    | none =>
      -- the parent has no entry: skip a spent FRESH one, else create it DIRTY, and FRESH if it
      -- was FRESH in the child
      if !(e.fresh && e.coin.IsSpent) then
        let c := ((c.setCoin o e.coin).addUsage e.coin.DynamicMemoryUsage).setDirty o
        pure (if e.fresh then c.setFresh o else c)
      else pure c
    | some us =>
      if e.fresh && !us.coin.IsSpent then
        throw "FRESH flag misapplied to coin that exists in parent cache"
      else if us.fresh && e.coin.IsSpent then
        -- the grandparent has no entry and the coin is spent: delete it
        pure ((c.subUsage us.coin.DynamicMemoryUsage).eraseEntry o)
      else
        -- a normal modification, which may not be FRESH in the parent
        pure ((((c.subUsage us.coin.DynamicMemoryUsage).setCoin o e.coin).addUsage
          e.coin.DynamicMemoryUsage).setDirty o)

/-- The loop of `CCoinsViewCache::BatchWrite` over the cursor. -/
def batchWriteLoop : CCoinsViewCache → List (COutPoint × CCoinsCacheEntry) →
    Except String CCoinsViewCache
  | c, [] => pure c
  | c, (o, e) :: rest => do
    let c ← c.batchWriteEntry o e
    batchWriteLoop c rest

/-- `CCoinsViewCache::BatchWrite`. -/
def BatchWrite (cursor : List (COutPoint × CCoinsCacheEntry)) (hashBlockIn : Uint256) :
    Except String CCoinsViewCache := do
  let c ← c.batchWriteLoop cursor
  pure { c with hashBlock := hashBlockIn }

/-- `CoinsViewCacheCursor::NextAndMaybeErase` of a cursor that does not erase (`Sync`), on each
entry of the list in turn: a spent entry is erased, an unspent one cleaned. -/
def syncLoop : CCoinsViewCache → List COutPoint → CCoinsViewCache
  | c, [] => c
  | c, o :: rest =>
    let c := match c.cacheCoins.lookup o with
      | some e => if e.coin.IsSpent then (c.subUsage e.coin.DynamicMemoryUsage).eraseEntry o
        else c.setClean o
      | none => c
    syncLoop c rest

/-- `CCoinsViewCache::SanityCheck`, as a test of its assertions. The list's links are consistent
by construction; that it links distinct entries is `Nodup`. -/
def SanityCheck : Bool :=
  let entries := c.cacheCoins.entries.map (·.2)
  let recomputed_usage := (entries.map (·.coin.DynamicMemoryUsage)).sum
  let count_flagged := (entries.filter (·.IsFlagged)).length
  let count_linked := c.flagged.length
  entries.all (·.attrOk) && decide c.flagged.Nodup && c.flagged.all c.isFlagged &&
    count_linked == count_flagged && recomputed_usage == c.cachedCoinsUsage

end CCoinsViewCache

namespace CCoinsViewDB

/-- `CCoinsViewDB::GetCoin`. -/
def GetCoin (d : CCoinsViewDB) (o : COutPoint) : Option Coin :=
  d.coins.lookup o

/-- The loop of `CCoinsViewDB::BatchWrite`: a dirty entry is erased if spent, written if not. -/
def writeLoop : AList (fun _ : COutPoint => Coin) → List (COutPoint × CCoinsCacheEntry) →
    AList (fun _ : COutPoint => Coin)
  | m, [] => m
  | m, (o, e) :: rest =>
    let m := if e.dirty then (if e.coin.IsSpent then m.erase o else m.insert o e.coin) else m
    writeLoop m rest

/-- `CCoinsViewDB::BatchWrite`, all its batches written: the coins, then the best block, with the
head blocks of the first batch erased again in the last. -/
def BatchWrite (d : CCoinsViewDB) (cursor : List (COutPoint × CCoinsCacheEntry))
    (hashBlock : Uint256) : Except String CCoinsViewDB := do
  if hashBlock = nullHash then throw "assert(!hashBlock.IsNull())"
  -- we may be in the middle of replaying
  if d.bestBlock = nullHash then
    match d.headBlocks with
    | [old_head, _] => if old_head ≠ hashBlock then throw "assert(old_heads[0] == hashBlock)"
    | _ => pure ()
  pure ⟨writeLoop d.coins cursor, hashBlock, []⟩

end CCoinsViewDB

namespace CoinsViewBottom

/-- `CoinsViewBottom::GetCoin`, which returns a spent coin it keeps. -/
def GetCoin (b : CoinsViewBottom) (o : COutPoint) : Option Coin :=
  b.m_data.lookup o

/-- The comparison in `CoinsViewBottom::BatchWrite` of an entry that is not DIRTY with what the
bottom holds. -/
def checkClean (m : AList fun _ : COutPoint => Coin) (o : COutPoint) (coin : Coin) :
    Except String Unit :=
  let it2 := m.lookup o
  if coin.IsSpent then
    if (it2.map Coin.IsSpent).getD true then pure ()
    else throw "assert(it2 == m_data.end() || it2->second.IsSpent())"
  else
    match it2 with
    | none => throw "assert(it2 != m_data.end())"
    | some coin2 => do
      if coin.out ≠ coin2.out then throw "assert(it->second.coin.out == it2->second.out)"
      if coin.fCoinBase ≠ coin2.fCoinBase then
        throw "assert(it->second.coin.fCoinBase == it2->second.fCoinBase)"
      if coin.nHeight ≠ coin2.nHeight then
        throw "assert(it->second.coin.nHeight == it2->second.nHeight)"

/-- One entry of `CoinsViewBottom::BatchWrite`: a DIRTY one is written, a spent one erased unless
its output index is 4 modulo 5, where the spent coin is kept; one that is not DIRTY is compared
with what the bottom holds. -/
def writeEntry (m : AList fun _ : COutPoint => Coin) (o : COutPoint) (e : CCoinsCacheEntry) :
    Except String (AList fun _ : COutPoint => Coin) :=
  if e.dirty then
    pure (if e.coin.IsSpent && o.n % 5 != 4 then m.erase o else m.insert o e.coin)
  else do
    checkClean m o e.coin
    pure m

/-- The loop of `CoinsViewBottom::BatchWrite` over the cursor. -/
def writeLoop : AList (fun _ : COutPoint => Coin) → List (COutPoint × CCoinsCacheEntry) →
    Except String (AList fun _ : COutPoint => Coin)
  | m, [] => pure m
  | m, (o, e) :: rest => do
    let m ← writeEntry m o e
    writeLoop m rest

/-- `CoinsViewBottom::BatchWrite`, which ignores the best block. -/
def BatchWrite (b : CoinsViewBottom) (cursor : List (COutPoint × CCoinsCacheEntry)) :
    Except String CoinsViewBottom := do
  let m ← writeLoop b.m_data cursor
  pure ⟨m⟩

end CoinsViewBottom

namespace CoinsView

/-- `CCoinsView::GetCoin` of the view: for a cache `CCoinsViewCache::GetCoin`, which fetches
into the cache. -/
def GetCoin : CoinsView → COutPoint → Option Coin × CoinsView
  | .db d, o => (d.GetCoin o, .db d)
  | .bottom b, o => (b.GetCoin o, .bottom b)
  | .cache c base, o =>
    let r := c.GetCoin o (GetCoin base) base
    (r.1, .cache r.2.1 r.2.2)

/-- `CCoinsView::BatchWrite` of the view. -/
def BatchWrite : CoinsView → List (COutPoint × CCoinsCacheEntry) → Uint256 →
    Except String CoinsView
  | .db d, cursor, hashBlock => do
    let d ← d.BatchWrite cursor hashBlock
    pure (.db d)
  | .bottom b, cursor, _ => do
    let b ← b.BatchWrite cursor
    pure (.bottom b)
  | .cache c base, cursor, hashBlock => do
    let c ← c.BatchWrite cursor hashBlock
    pure (.cache c base)

end CoinsView

namespace CacheView

variable (v : CacheView) (o : COutPoint)

/-- The stack of views with this cache on top. -/
def toView : CoinsView :=
  .cache v.cache v.base

/-- `FetchCoin` of the cache. -/
def FetchCoin : Option CCoinsCacheEntry × CacheView :=
  let r := v.cache.FetchCoin o v.base.GetCoin v.base
  (r.1, ⟨r.2.1, r.2.2⟩)

/-- `CCoinsViewCache::GetCoin`. -/
def GetCoin : Option Coin × CacheView :=
  let r := v.cache.GetCoin o v.base.GetCoin v.base
  (r.1, ⟨r.2.1, r.2.2⟩)

/-- `CCoinsViewCache::HaveCoin`. -/
def HaveCoin : Bool × CacheView :=
  let r := v.FetchCoin o
  (match r.1 with
    | some e => !e.coin.IsSpent
    | none => false, r.2)

/-- `CCoinsViewCache::AccessCoin`: the fetched coin, or `coinEmpty`. -/
def AccessCoin : Coin × CacheView :=
  let r := v.FetchCoin o
  (match r.1 with
    | some e => e.coin
    | none => Coin.empty, r.2)

/-- `CCoinsViewCache::AddCoin`. -/
def AddCoin (coin : Coin) (possible_overwrite : Bool) : Except String CacheView := do
  if coin.IsSpent then throw "assert(!coin.IsSpent())"
  if coin.out.scriptPubKey.IsUnspendable then return v
  let c := v.cache
  -- `emplace`: the entry there, or a new one with an empty coin and no flags
  let (old, inserted) := match c.cacheCoins.lookup o with
    | some e => (e, false)
    | none => (⟨Coin.empty, false, false⟩, true)
  let c := if inserted then c else c.subUsage old.coin.DynamicMemoryUsage
  let fresh ← if !possible_overwrite then
      if !old.coin.IsSpent then
        throw "Attempted to overwrite an unspent coin (when possible_overwrite is false)"
      -- a spent DIRTY entry has not flushed its spentness to the parent: it cannot be FRESH
      else pure !old.dirty
    else pure false
  let c := (c.setCoin o coin).setDirty o
  let c := if fresh then c.setFresh o else c
  pure ⟨c.addUsage coin.DynamicMemoryUsage, v.base⟩

/-- `CCoinsViewCache::SpendCoin`: whether there was an entry, the coin moved out of it, and the
views after. A FRESH entry is erased, any other cleared and made DIRTY. -/
def SpendCoin : Bool × Option Coin × CacheView :=
  let r := v.cache.FetchCoin o v.base.GetCoin v.base
  match r.1 with
  | none => (false, none, ⟨r.2.1, r.2.2⟩)
  | some e =>
    let c := r.2.1.subUsage e.coin.DynamicMemoryUsage
    if e.fresh then (true, some e.coin, ⟨c.eraseEntry o, r.2.2⟩)
    else (true, some e.coin, ⟨(c.setDirty o).setCoin o Coin.empty, r.2.2⟩)

/-- `CCoinsViewCache::Uncache`: an entry with no flag is dropped. -/
def Uncache : CacheView :=
  match v.cache.cacheCoins.lookup o with
  | some e =>
    if !e.dirty && !e.fresh then
      ⟨(v.cache.subUsage e.coin.DynamicMemoryUsage).eraseEntry o, v.base⟩
    else v
  | none => v

/-- `CCoinsViewCache::SetBestBlock`. -/
def SetBestBlock (hashBlockIn : Uint256) : CacheView :=
  ⟨{ v.cache with hashBlock := hashBlockIn }, v.base⟩

/-- `CCoinsViewCache::Flush`: write the flagged entries into the base, then clear the cache. -/
def Flush : Except String (Bool × CacheView) := do
  let base ← v.base.BatchWrite v.cache.cursor v.cache.hashBlock
  pure (true, ⟨{ v.cache with cacheCoins := ∅, flagged := [], cachedCoinsUsage := 0 }, base⟩)

/-- `CCoinsViewCache::Sync`: write the flagged entries into the base, erasing the spent ones and
cleaning the others. -/
def Sync : Except String (Bool × CacheView) := do
  let base ← v.base.BatchWrite v.cache.cursor v.cache.hashBlock
  let c := v.cache.syncLoop v.cache.flagged
  -- BatchWrite must clear flags of all entries
  if c.flagged ≠ [] then throw "Not all unspent flagged entries were cleared"
  pure (true, ⟨c, base⟩)

end CacheView

end Tenscoin
