import Mathlib
import Tenscoin.Lib.Except
import Tenscoin.Coins.Methods

/-!
# Writing a cache into its base

`Flush` and `Sync` hand the flagged entries of a cache, the cursor `CCoinsViewCache.cursor`, to
the base's `BatchWrite`. A DIRTY entry is written: into the database as a coin or an erasure, into
a parent cache as an entry whose flags say what the parent's own base holds. Every entry of the
cursor keeps the child's invariant over what the parent holds, and from that alone one write keeps
the parent's invariant over its base, never throws "FRESH flag misapplied", and leaves the parent
holding there what the child held (`CCoinsViewCache.batchWriteEntry_spec`,
`CCoinsViewDB.writeLoop_spec`). The harness's bottom also compares each entry that is not DIRTY
with what it holds, and the invariant makes every comparison pass
(`CoinsViewBottom.writeEntry_spec`). Each of the three loops is a fold of these writes, and as
the cursor's outpoints are distinct, the rule for loops of writes at distinct keys
(`Except.foldlM_keyed`) gives what the loop leaves (`CCoinsViewCache.batchWriteLoop_spec`,
`CCoinsViewDB.writeLoop_spec`, `CoinsViewBottom.writeLoop_spec`): the base then holds what the
child held (`CoinsView.BatchWrite_spec`), as an entry off the cursor is unflagged and held it
already. The database asserts on the best block it is handed; `CoinsView.Accepts`
says which it takes, and the other views take any.

`Flush` then empties the cache (`CacheView.Flush_spec`). `Sync` erases the spent entries and
cleans the others (`CCoinsViewCache.syncLoop_spec`): every entry left holds what the new base
holds, and the list of flagged entries is empty, so its check never throws
(`CacheView.Sync_spec`). Either way the stack holds what it held, and the base now holds it too.

The invariant implies every assertion of `SanityCheck` (`CacheInv.SanityCheck`).
-/

namespace Tenscoin

namespace EntryInv

variable {bl : Option Coin} {e : CCoinsCacheEntry}

/-- An entry that is not DIRTY holds what the base holds: its coin if unspent, nothing if spent,
as it is then FRESH. -/
theorem asUnspent_of_not_dirty (h : EntryInv bl e) (hd : e.dirty = false) :
    e.coin.asUnspent = bl := by
  cases hs : e.coin.IsSpent
  · rw [Coin.asUnspent_of_not_spent hs, h.clean hd hs]
  · rw [Coin.asUnspent_of_spent hs, (h.of_spent_not_dirty hs hd).2]

/-- An unspent entry without flags keeps its invariant over a base that holds its coin. -/
theorem of_clean (hd : e.dirty = false) (hf : e.fresh = false) (hs : e.coin.IsSpent = false) :
    EntryInv (some e.coin) e where
  attr := by
    rw [CCoinsCacheEntry.attrOk_iff, hd, hf, hs]
    decide
  fresh h := by rw [hf] at h; cases h
  clean _ _ := rfl

end EntryInv

/-! ### The cursor -/

namespace CCoinsViewCache

variable (c : CCoinsViewCache) {o : COutPoint} {e : CCoinsCacheEntry}

theorem mem_cursor : (o, e) ∈ c.cursor ↔ o ∈ c.flagged ∧ c.cacheCoins.lookup o = some e := by
  unfold cursor
  rw [List.mem_filterMap]
  constructor
  · rintro ⟨a, ha, hm⟩
    obtain ⟨e', he', hp⟩ := Option.map_eq_some_iff.mp hm
    cases hp
    exact ⟨ha, he'⟩
  · rintro ⟨ho, he⟩
    exact ⟨o, ho, by rw [he]; rfl⟩

theorem mem_keys_cursor : o ∈ c.cursor.map Prod.fst → o ∈ c.flagged ∧ (c.cacheCoins.lookup o).isSome := by
  rw [List.mem_map]
  rintro ⟨⟨o', e'⟩, hm, rfl⟩
  obtain ⟨hf, he⟩ := (c.mem_cursor).mp hm
  exact ⟨hf, by rw [he]; rfl⟩

/-- The cursor visits each outpoint once, as the list links each entry once. -/
theorem nodup_keys_cursor (h : c.flagged.Nodup) : (c.cursor.map Prod.fst).Nodup := by
  unfold cursor
  rw [List.map_filterMap]
  refine h.filterMap fun a a' b hb hb' => ?_
  simp only [Option.mem_def, Option.map_map, Option.map_eq_some_iff, Function.comp_apply] at hb hb'
  obtain ⟨_, -, rfl⟩ := hb
  obtain ⟨_, -, h'⟩ := hb'
  exact h'.symm

end CCoinsViewCache

namespace CacheInv

variable {c : CCoinsViewCache} {w : CoinsView}

/-- **What a write of the cursor leaves.** A view that holds the coin of each entry of the cursor
where the entry is, and what the base holds elsewhere, holds what the cache over that base holds:
an entry off the cursor is unflagged and holds what the base holds. -/
theorem lookup_eq_of_cursor (hc : CacheInv c w.lookup) {L : COutPoint → Option Coin}
    (hin : ∀ o e, (o, e) ∈ c.cursor → L o = e.coin.asUnspent)
    (hout : ∀ o, o ∉ c.cursor.map Prod.fst → L o = w.lookup o) :
    L = (CoinsView.cache c w).lookup := by
  funext o
  cases he : c.cacheCoins.lookup o with
  | none =>
    rw [CoinsView.lookup_cache_of_none he]
    refine hout o fun hm => ?_
    have := (c.mem_keys_cursor hm).2
    rw [he] at this
    cases this
  | some e =>
    rw [CoinsView.lookup_cache_of_some he]
    by_cases hf : o ∈ c.flagged
    · exact hin o e ((c.mem_cursor).mpr ⟨hf, he⟩)
    · -- off the list: no flag, so the entry holds what the base holds
      have hfl : e.IsFlagged = false := by
        rw [← CCoinsViewCache.isFlagged_of_lookup_eq_some c he]
        simpa using (hc.linked.2 o).not.mp hf
      simp only [CCoinsCacheEntry.IsFlagged, Bool.or_eq_false_iff] at hfl
      obtain ⟨hs, hb⟩ := (hc.entry o e he).of_not_flagged hfl.1 hfl.2
      rw [hout o fun hm => hf (c.mem_keys_cursor hm).1, hb, Coin.asUnspent_of_not_spent hs]

/-- The entries of the cursor keep their invariant over what the base holds. -/
theorem entry_of_mem_cursor (hc : CacheInv c w.lookup) {o : COutPoint} {e : CCoinsCacheEntry}
    (h : (o, e) ∈ c.cursor) : EntryInv (w.lookup o) e :=
  hc.entry o e ((c.mem_cursor).mp h).2

end CacheInv

/-! ### Writing into a parent cache -/

namespace CCoinsViewCache

variable (c : CCoinsViewCache) (o : COutPoint) {e us : CCoinsCacheEntry}

theorem addFlags_addUsage (d f : Bool) (n : ℕ) :
    (c.addUsage n).addFlags o d f = (c.addFlags o d f).addUsage n := by
  unfold addFlags
  rw [cacheCoins_addUsage]
  cases c.cacheCoins.lookup o <;> rfl

/-- The writes of a new entry in `BatchWrite` are those of `AddCoin`, the usage added first. -/
theorem batchWrite_writes_eq (coin : Coin) (F : Bool) :
    (if F then (((c.setCoin o coin).addUsage coin.DynamicMemoryUsage).setDirty o).setFresh o
      else ((c.setCoin o coin).addUsage coin.DynamicMemoryUsage).setDirty o) =
      c.addCoinWrite o coin F := by
  unfold addCoinWrite setDirty setFresh
  cases F <;> simp only [addFlags_addUsage, Bool.false_eq_true, ↓reduceIte]

/-- `BatchWrite` of a DIRTY entry where the parent has none: skipped if spent and FRESH, else
written DIRTY, and FRESH if it is. -/
theorem batchWriteEntry_of_none (hd : e.dirty = true) (h : c.cacheCoins.lookup o = none) :
    c.batchWriteEntry o e =
      .ok (if e.fresh && e.coin.IsSpent then c else c.addCoinWrite o e.coin e.fresh) := by
  unfold batchWriteEntry
  rw [hd, h]
  by_cases hskip : (e.fresh && e.coin.IsSpent) = true
  · rw [if_pos hskip]
    simp [hskip]
  · rw [if_neg hskip, ← batchWrite_writes_eq]
    simp [hskip]

/-- `BatchWrite` of a DIRTY entry over a parent entry that is spent if the child's is FRESH:
erased if the parent's is FRESH and the child's spent, else overwritten, never FRESH. -/
theorem batchWriteEntry_of_some (hd : e.dirty = true) (h : c.cacheCoins.lookup o = some us)
    (hthrow : (e.fresh && !us.coin.IsSpent) = false) :
    c.batchWriteEntry o e =
      .ok (if us.fresh && e.coin.IsSpent then (c.subUsage us.coin.DynamicMemoryUsage).eraseEntry o
        else (c.subUsage us.coin.DynamicMemoryUsage).addCoinWrite o e.coin false) := by
  unfold batchWriteEntry
  rw [hd, h]
  simp only [Bool.not_true, Bool.false_eq_true, ↓reduceIte, hthrow]
  split_ifs
  · rfl
  · rw [← batchWrite_writes_eq]
    rfl

variable {c o}

/-- **One write into a parent cache.** Over a parent that keeps its invariant, a child entry that
keeps its own over what the parent holds is written without throwing, keeps the parent's
invariant, leaves the parent holding the entry's coin if unspent and nothing if spent, and changes
no other outpoint. A FRESH child entry sits where the parent holds nothing, so the parent's entry
there is spent and "FRESH flag misapplied" is never thrown. -/
theorem batchWriteEntry_spec {b : CoinsView} (hp : CacheInv c b.lookup)
    (he : EntryInv ((CoinsView.cache c b).lookup o) e) :
    ∃ c', c.batchWriteEntry o e = .ok c' ∧ CacheInv c' b.lookup ∧
      (CoinsView.cache c' b).lookup o = e.coin.asUnspent ∧
      ∀ o', o' ≠ o → c'.cacheCoins.lookup o' = c.cacheCoins.lookup o' := by
  cases hd : e.dirty
  · -- not DIRTY: skipped, and it holds what the parent holds
    refine ⟨c, by simp [batchWriteEntry, hd], hp, (he.asUnspent_of_not_dirty hd).symm,
      fun _ _ => rfl⟩
  cases hus : c.cacheCoins.lookup o with
  | none =>
    rw [CoinsView.lookup_cache_of_none hus] at he
    rw [batchWriteEntry_of_none c o hd hus]
    by_cases hskip : (e.fresh && e.coin.IsSpent) = true
    · -- spent and FRESH: the parent's base holds nothing there either
      obtain ⟨hf, hs⟩ := Bool.and_eq_true_iff.mp hskip
      rw [if_pos hskip]
      refine ⟨c, rfl, hp, ?_, fun _ _ => rfl⟩
      rw [CoinsView.lookup_cache_of_none hus, he.fresh hf, Coin.asUnspent_of_spent hs]
    · rw [if_neg hskip]
      refine ⟨_, rfl, hp.addCoinWrite rfl rfl (by rw [usageAt_of_lookup_eq_none _ hus]; rfl) ?_,
        by rw [CoinsView.lookup_cache_of_some (lookup_addCoinWrite_self _ _ _ _)],
        fun o' ho => lookup_addCoinWrite_ne _ _ _ _ ho⟩
      rw [hus, Option.map_none, Option.getD_none, Bool.false_or]
      exact EntryInv.of_dirty (fun h => hskip (by rw [h.1, h.2]; rfl)) he.fresh
  | some us =>
    rw [CoinsView.lookup_cache_of_some hus] at he
    have hus_inv := hp.entry o us hus
    -- a FRESH child entry sits where the parent holds nothing: the parent's entry is spent
    have hthrow : (e.fresh && !us.coin.IsSpent) = false := by
      cases hf : e.fresh
      · rfl
      · have h0 := he.fresh hf
        cases hs : us.coin.IsSpent
        · rw [Coin.asUnspent_of_not_spent hs] at h0
          cases h0
        · rfl
    rw [batchWriteEntry_of_some c o hd hus hthrow]
    by_cases herase : (us.fresh && e.coin.IsSpent) = true
    · -- the parent's entry is FRESH and the child's spent: the grandparent holds nothing
      obtain ⟨hf, hs⟩ := Bool.and_eq_true_iff.mp herase
      rw [if_pos herase]
      refine ⟨_, rfl, hp.eraseEntry hus, ?_, fun o' ho => by
        rw [lookup_eraseEntry_ne _ ho, cacheCoins_subUsage]⟩
      rw [CoinsView.lookup_cache_of_none (lookup_eraseEntry_self _), hus_inv.fresh hf,
        Coin.asUnspent_of_spent hs]
    · rw [if_neg herase]
      have hle := usageAt_le_totalUsage c o
      have husage := hp.usage
      rw [usageAt_of_lookup_eq_some c hus] at hle
      unfold UsageOk at husage
      refine ⟨_, rfl, hp.addCoinWrite rfl rfl (by
          rw [cachedCoinsUsage_subUsage, usageAt_of_lookup_eq_some c hus]
          omega) ?_,
        by rw [CoinsView.lookup_cache_of_some (lookup_addCoinWrite_self _ _ _ _)],
        fun o' ho => by rw [lookup_addCoinWrite_ne _ _ _ _ ho, cacheCoins_subUsage]⟩
      rw [hus, Option.map_some, Option.getD_some, Bool.or_false]
      exact EntryInv.of_dirty (fun h => herase (by rw [h.1, h.2]; rfl)) hus_inv.fresh

/-- The loop of `BatchWrite` is a fold of its writes. -/
theorem batchWriteLoop_eq_foldlM :
    ∀ (c : CCoinsViewCache) (cur : List (COutPoint × CCoinsCacheEntry)),
      c.batchWriteLoop cur = cur.foldlM (fun c p => c.batchWriteEntry p.1 p.2) c
  | _, [] => rfl
  | c, (o, e) :: rest => by
    rw [batchWriteLoop, List.foldlM_cons]
    simp only [(batchWriteLoop_eq_foldlM · rest)]

/-- **The loop of `BatchWrite` into a parent cache**, over entries at distinct outpoints that keep
their invariant over what the parent holds: it never throws, keeps the parent's invariant, and
leaves the parent holding each entry's coin if unspent and nothing if spent, and what it held at
every other outpoint. -/
theorem batchWriteLoop_spec {b : CoinsView} (cur : List (COutPoint × CCoinsCacheEntry))
    (c : CCoinsViewCache) (hp : CacheInv c b.lookup) (hnd : (cur.map Prod.fst).Nodup)
    (hinv : ∀ o e, (o, e) ∈ cur → EntryInv ((CoinsView.cache c b).lookup o) e) :
    ∃ c', c.batchWriteLoop cur = .ok c' ∧ CacheInv c' b.lookup ∧
      (∀ o e, (o, e) ∈ cur → (CoinsView.cache c' b).lookup o = e.coin.asUnspent) ∧
      ∀ o, o ∉ cur.map Prod.fst →
        (CoinsView.cache c' b).lookup o = (CoinsView.cache c b).lookup o := by
  rw [batchWriteLoop_eq_foldlM]
  -- one write at a time, each leaving the other outpoints' entries alone
  refine Except.foldlM_keyed (fun c o => (CoinsView.cache c b).lookup o)
    (fun c => CacheInv c b.lookup) _ (fun r e => EntryInv r e) (fun r e => r = e.coin.asUnspent) (fun c o e hp he => ?_)
    cur c hp hnd hinv
  obtain ⟨c', h, hp', hself, hne⟩ := batchWriteEntry_spec hp he
  exact ⟨c', h, hp', hself, fun o' ho => CoinsView.lookup_cache_congr (hne o' ho) rfl⟩

end CCoinsViewCache

/-! ### Writing into the database -/

namespace CCoinsViewDB

/-- The loop of `BatchWrite` into the database is a fold of its writes. -/
theorem writeLoop_eq_foldl :
    ∀ (m : AList fun _ : COutPoint => Coin) (cur : List (COutPoint × CCoinsCacheEntry)),
      writeLoop m cur = cur.foldl (fun m p =>
        if p.2.dirty then (if p.2.coin.IsSpent then m.erase p.1 else m.insert p.1 p.2.coin)
        else m) m
  | _, [] => rfl
  | _, _ :: rest => writeLoop_eq_foldl _ rest

/-- **The loop of `BatchWrite` into the database**, over entries at distinct outpoints that keep
their invariant over what the database holds: it leaves the database holding each entry's coin if
unspent and nothing if spent, and what it held at every other outpoint. An entry that is not
DIRTY is skipped as it holds what the database holds. -/
theorem writeLoop_spec (cur : List (COutPoint × CCoinsCacheEntry))
    (m : AList fun _ : COutPoint => Coin) (hnd : (cur.map Prod.fst).Nodup)
    (hinv : ∀ o e, (o, e) ∈ cur → EntryInv ((m.lookup o).bind Coin.asUnspent) e) :
    (∀ o e, (o, e) ∈ cur → ((writeLoop m cur).lookup o).bind Coin.asUnspent = e.coin.asUnspent) ∧
      ∀ o, o ∉ cur.map Prod.fst →
        ((writeLoop m cur).lookup o).bind Coin.asUnspent = (m.lookup o).bind Coin.asUnspent := by
  rw [writeLoop_eq_foldl]
  refine Except.foldl_keyed (fun m o => (m.lookup o).bind Coin.asUnspent) _
    (fun r e => EntryInv r e) (fun r e => r = e.coin.asUnspent) (fun m o e he => ⟨?_, fun o' ho => ?_⟩) cur m hnd hinv
  · -- a DIRTY entry is written, and one that is not already holds what the database holds
    dsimp only
    split_ifs with hd hs
    · rw [AList.lookup_erase, Option.bind_none, Coin.asUnspent_of_spent hs]
    · rw [AList.lookup_insert, Option.bind_some]
    · exact (he.asUnspent_of_not_dirty (by simpa using hd)).symm
  · dsimp only
    split_ifs
    · rw [AList.lookup_erase_ne ho]
    · rw [AList.lookup_insert_ne ho]
    · rfl

/-- `BatchWrite` of the database, given a best block its asserts accept. -/
theorem BatchWrite_eq {d : CCoinsViewDB} {hashBlock : Uint256} (hnull : hashBlock ≠ nullHash)
    (hheads : d.bestBlock = nullHash → ∀ old_head h1, d.headBlocks = [old_head, h1] →
      old_head = hashBlock) (cursor : List (COutPoint × CCoinsCacheEntry)) :
    d.BatchWrite cursor hashBlock = .ok ⟨writeLoop d.coins cursor, hashBlock, []⟩ := by
  unfold BatchWrite
  rw [if_neg hnull]
  by_cases hbest : d.bestBlock = nullHash
  · -- in the middle of a write, it was heading to this block
    rw [if_pos hbest]
    cases hh : d.headBlocks with
    | nil => rfl
    | cons old_head rest =>
      match rest, hh with
      | [], _ => rfl
      | [h1], hh => simp [hheads hbest old_head h1 hh]
      | _ :: _ :: _, _ => rfl
  · rw [if_neg hbest]
    rfl

end CCoinsViewDB

/-! ### Writing into the harness's bottom -/

namespace CoinsViewBottom

/-- An entry that holds what the bottom holds passes the comparison. -/
theorem checkClean_ok {m : AList fun _ : COutPoint => Coin} {o : COutPoint} {coin : Coin}
    (h : (m.lookup o).bind Coin.asUnspent = coin.asUnspent) : checkClean m o coin = .ok () := by
  cases hs : coin.IsSpent with
  | true =>
    -- the bottom has no coin here, or a spent one
    rw [Coin.asUnspent_of_spent hs] at h
    have hkept : ((m.lookup o).map Coin.IsSpent).getD true = true := by
      cases hm : m.lookup o with
      | none => rfl
      | some c2 =>
        rw [hm, Option.bind_some] at h
        cases hc : c2.IsSpent with
        | true => simp [hc]
        | false =>
          rw [Coin.asUnspent_of_not_spent hc] at h
          cases h
    simp only [checkClean, hs, hkept, if_true]
    rfl
  | false =>
    -- the bottom holds this coin
    rw [Coin.asUnspent_of_not_spent hs] at h
    obtain ⟨c2, hm, hc2⟩ := Option.bind_eq_some_iff.mp h
    obtain ⟨-, rfl⟩ := Coin.IsSpent_of_asUnspent_eq_some hc2
    simp [checkClean, hs, hm]

/-- **One entry written into the bottom** that keeps its invariant over what the bottom holds: no
assertion fails, the bottom then holds the entry's coin if unspent and nothing if spent, and no
other outpoint changes. -/
theorem writeEntry_spec {m : AList fun _ : COutPoint => Coin} {o : COutPoint}
    {e : CCoinsCacheEntry} (he : EntryInv ((m.lookup o).bind Coin.asUnspent) e) :
    ∃ m₁, writeEntry m o e = .ok m₁ ∧ (m₁.lookup o).bind Coin.asUnspent = e.coin.asUnspent ∧
      ∀ o', o' ≠ o → m₁.lookup o' = m.lookup o' := by
  cases hd : e.dirty with
  | true =>
    by_cases herase : (e.coin.IsSpent && o.n % 5 != 4) = true
    · -- a spent coin erased
      have hs : e.coin.IsSpent = true := (Bool.and_eq_true_iff.mp herase).1
      refine ⟨m.erase o, by simp [writeEntry, hd, herase], ?_, fun o' ho => AList.lookup_erase_ne ho⟩
      rw [AList.lookup_erase, Option.bind_none, Coin.asUnspent_of_spent hs]
    · -- a coin written, a spent one kept at an index 4 modulo 5
      refine ⟨m.insert o e.coin, by simp [writeEntry, hd, herase], ?_,
        fun o' ho => AList.lookup_insert_ne ho⟩
      rw [AList.lookup_insert, Option.bind_some]
  | false =>
    have hcl := (he.asUnspent_of_not_dirty hd).symm
    exact ⟨m, by simp [writeEntry, hd, checkClean_ok hcl], hcl, fun _ _ => rfl⟩

/-- The loop of `BatchWrite` into the bottom is a fold of its writes. -/
theorem writeLoop_eq_foldlM :
    ∀ (m : AList fun _ : COutPoint => Coin) (cur : List (COutPoint × CCoinsCacheEntry)),
      writeLoop m cur = cur.foldlM (fun m p => writeEntry m p.1 p.2) m
  | _, [] => rfl
  | m, (o, e) :: rest => by
    rw [writeLoop, List.foldlM_cons]
    simp only [(writeLoop_eq_foldlM · rest)]

/-- **The loop of `BatchWrite` into the bottom**, over entries at distinct outpoints that keep
their invariant over what the bottom holds: no assertion fails, and it leaves the bottom holding
each entry's coin if unspent and nothing if spent, and what it held at every other outpoint. -/
theorem writeLoop_spec (cur : List (COutPoint × CCoinsCacheEntry))
    (m : AList fun _ : COutPoint => Coin) (hnd : (cur.map Prod.fst).Nodup)
    (hinv : ∀ o e, (o, e) ∈ cur → EntryInv ((m.lookup o).bind Coin.asUnspent) e) :
    ∃ m', writeLoop m cur = .ok m' ∧
      (∀ o e, (o, e) ∈ cur → (m'.lookup o).bind Coin.asUnspent = e.coin.asUnspent) ∧
      ∀ o, o ∉ cur.map Prod.fst →
        (m'.lookup o).bind Coin.asUnspent = (m.lookup o).bind Coin.asUnspent := by
  rw [writeLoop_eq_foldlM]
  obtain ⟨m', h, -, hin, hout⟩ := Except.foldlM_keyed (fun m o => (m.lookup o).bind Coin.asUnspent)
    (fun _ => True) (fun m p => writeEntry m p.1 p.2) (fun r e => EntryInv r e)
    (fun r e => r = e.coin.asUnspent)
    (fun m o e _ he => by
      -- one write at a time, each leaving the other outpoints alone
      obtain ⟨m₁, h₁, hself, hne⟩ := writeEntry_spec he
      exact ⟨m₁, h₁, trivial, hself, fun o' ho => by rw [hne o' ho]⟩)
    cur m trivial hnd hinv
  exact ⟨m', h, hin, hout⟩

end CoinsViewBottom

/-! ### `BatchWrite` of any view -/

namespace CoinsView

/-- What each view of the stack holds, from the top down to the bottom view. -/
def levels : CoinsView → List (COutPoint → Option Coin)
  | .db d => [(CoinsView.db d).lookup]
  | .bottom b => [(CoinsView.bottom b).lookup]
  | .cache c base => (CoinsView.cache c base).lookup :: base.levels

theorem levels_eq_cons : ∀ v : CoinsView, v.levels = v.lookup :: v.levels.tail
  | .db _ => rfl
  | .bottom _ => rfl
  | .cache _ _ => rfl

/-- The best blocks `BatchWrite` of the view accepts: the database asserts that it is not null
and, in the middle of a write, that it is the block that write was heading to; a cache and the
harness's bottom take any. -/
def Accepts : CoinsView → Uint256 → Prop
  | .db d, hashBlock => hashBlock ≠ nullHash ∧
      (d.bestBlock = nullHash → ∀ old_head h1, d.headBlocks = [old_head, h1] → old_head = hashBlock)
  | .bottom _, _ => True
  | .cache _ _, _ => True

/-- **`BatchWrite` of the flagged entries of a cache** into the view below it, when both keep the
invariant and the view accepts the best block: it never throws, the view then holds what the cache
over it held, keeps the invariant, and the views below it are unchanged. -/
theorem BatchWrite_spec {w : CoinsView} (hw : w.Valid) {c : CCoinsViewCache}
    (hc : CacheInv c w.lookup) {hashBlock : Uint256} (hacc : w.Accepts hashBlock) :
    ∃ w', w.BatchWrite c.cursor hashBlock = .ok w' ∧ w'.lookup = (CoinsView.cache c w).lookup ∧
      w'.Valid ∧ w'.levels.tail = w.levels.tail := by
  have hnd := c.nodup_keys_cursor hc.linked.1
  cases w with
  | db d =>
    obtain ⟨hin, hout⟩ := CCoinsViewDB.writeLoop_spec c.cursor d.coins hnd
      fun o e h => hc.entry_of_mem_cursor h
    refine ⟨.db ⟨CCoinsViewDB.writeLoop d.coins c.cursor, hashBlock, []⟩, ?_,
      hc.lookup_eq_of_cursor hin fun o ho => ?_, trivial, rfl⟩
    · rw [BatchWrite, CCoinsViewDB.BatchWrite_eq hacc.1 hacc.2]
      rfl
    · show ((CCoinsViewDB.writeLoop d.coins c.cursor).lookup o).bind Coin.asUnspent = _
      rw [hout o ho]
      rfl
  | bottom b =>
    obtain ⟨m', h', hin, hout⟩ := CoinsViewBottom.writeLoop_spec c.cursor b.m_data hnd
      fun o e h => hc.entry_of_mem_cursor h
    refine ⟨.bottom ⟨m'⟩, ?_, hc.lookup_eq_of_cursor hin fun o ho => ?_, trivial, rfl⟩
    · rw [BatchWrite, CoinsViewBottom.BatchWrite, h']
      rfl
    · show (m'.lookup o).bind Coin.asUnspent = _
      rw [hout o ho]
      rfl
  | cache p b =>
    obtain ⟨p', h', hp', hin, hout⟩ := CCoinsViewCache.batchWriteLoop_spec c.cursor p hw.1 hnd
      fun o e h => hc.entry_of_mem_cursor h
    refine ⟨.cache { p' with hashBlock } b, ?_, ?_, ⟨⟨hp'.entry, hp'.linked, hp'.usage⟩, hw.2⟩, rfl⟩
    · rw [BatchWrite, CCoinsViewCache.BatchWrite, h']
      rfl
    · exact hc.lookup_eq_of_cursor (L := (CoinsView.cache p' b).lookup) hin hout

end CoinsView

/-! ### `Sync`'s cursor -/

namespace CCoinsViewCache

/-- What `Sync`'s cursor leaves of an entry: nothing if it is spent, the entry without flags if
not. -/
def syncedEntry : Option CCoinsCacheEntry → Option CCoinsCacheEntry
  | some e => if e.coin.IsSpent then none else some { e with dirty := false, fresh := false }
  | none => none

theorem syncedEntry_syncedEntry (r : Option CCoinsCacheEntry) :
    syncedEntry (syncedEntry r) = syncedEntry r := by
  cases r with
  | none => rfl
  | some e =>
    cases hs : e.coin.IsSpent
    · simp [syncedEntry, hs]
    · simp [syncedEntry, hs]

/-- An entry that `Sync` leaves is unspent and unflagged, and it was the entry there. -/
theorem of_syncedEntry_eq_some {r : Option CCoinsCacheEntry} {e' : CCoinsCacheEntry}
    (h : syncedEntry r = some e') :
    ∃ e, r = some e ∧ e.coin.IsSpent = false ∧ e' = { e with dirty := false, fresh := false } := by
  cases r with
  | none => cases h
  | some e =>
    cases hs : e.coin.IsSpent
    · rw [syncedEntry, hs, if_neg Bool.false_ne_true] at h
      exact ⟨e, rfl, hs, (Option.some.inj h).symm⟩
    · rw [syncedEntry, hs, if_pos rfl] at h
      cases h

variable (c : CCoinsViewCache) (o : COutPoint)

/-- **One step of `Sync`'s cursor**: the entry at `o` becomes `syncedEntry` of it, no other entry
changes, and the list and the usage stay right. -/
theorem syncLoop_cons (rest : List COutPoint) :
    ∃ c₁ : CCoinsViewCache, c.syncLoop (o :: rest) = c₁.syncLoop rest ∧
      (∀ o', c₁.cacheCoins.lookup o' =
        if o' = o then syncedEntry (c.cacheCoins.lookup o) else c.cacheCoins.lookup o') ∧
      (c.LinkedOk → c₁.LinkedOk) ∧ (c.UsageOk → c₁.UsageOk) := by
  cases he : c.cacheCoins.lookup o with
  | none =>
    refine ⟨c, by rw [syncLoop, he], fun o' => ?_, id, id⟩
    split_ifs with ho
    · rw [ho, he]
      rfl
    · rfl
  | some e =>
    by_cases hs : e.coin.IsSpent = true
    · -- spent: erased, with its usage
      refine ⟨(c.subUsage e.coin.DynamicMemoryUsage).eraseEntry o, by
        rw [syncLoop, he]
        dsimp only
        rw [if_pos hs],
        fun o' => ?_, fun h => (h.subUsage _).eraseEntry, fun hu => ?_⟩
      · split_ifs with ho
        · rw [ho, lookup_eraseEntry_self, syncedEntry, if_pos hs]
        · rw [lookup_eraseEntry_ne _ ho, cacheCoins_subUsage]
      · have ht := totalUsage_eraseEntry (c.subUsage e.coin.DynamicMemoryUsage) (o := o)
        rw [cacheCoins_subUsage, usageAt_of_lookup_eq_some _ he] at ht
        unfold UsageOk at hu ⊢
        rw [cachedCoinsUsage_eraseEntry, cachedCoinsUsage_subUsage]
        omega
    · -- unspent: cleaned
      refine ⟨c.setClean o, by
        rw [syncLoop, he]
        dsimp only
        rw [if_neg hs], fun o' => ?_, fun h => h.setClean,
        fun hu => ?_⟩
      · split_ifs with ho
        · rw [ho, lookup_setClean_self_of_some _ he, syncedEntry, if_neg hs]
        · exact lookup_setClean_ne _ ho
      · unfold UsageOk at hu ⊢
        rw [cachedCoinsUsage_setClean, totalUsage_setClean, hu]

/-- **`Sync`'s cursor over a list of outpoints** leaves `syncedEntry` of the entry at each of
them and every other entry as it was, and keeps the list and the usage right. An outpoint listed
twice is no matter, since `syncedEntry` is idempotent. -/
theorem syncLoop_spec : ∀ (L : List COutPoint) (c : CCoinsViewCache),
    (∀ o, (c.syncLoop L).cacheCoins.lookup o =
      if o ∈ L then syncedEntry (c.cacheCoins.lookup o) else c.cacheCoins.lookup o) ∧
    (c.LinkedOk → (c.syncLoop L).LinkedOk) ∧ (c.UsageOk → (c.syncLoop L).UsageOk)
  | [], c => ⟨fun o => by rw [if_neg List.not_mem_nil]; rfl, id, id⟩
  | x :: rest, c => by
    obtain ⟨c₁, hc₁, hl₁, hlink₁, husage₁⟩ := syncLoop_cons c x rest
    obtain ⟨hl, hlink, husage⟩ := syncLoop_spec rest c₁
    rw [hc₁]
    refine ⟨fun o => ?_, hlink ∘ hlink₁, husage ∘ husage₁⟩
    rw [hl o, hl₁ o]
    by_cases hx : o = x
    · subst hx
      split_ifs <;> simp_all [syncedEntry_syncedEntry]
    · by_cases hr : o ∈ rest
      · simp [hx, hr]
      · simp [hx, hr]

variable {c}

/-- After `Sync`'s cursor over the list of flagged entries no entry is flagged, so the list is
empty. -/
theorem flagged_syncLoop (h : c.LinkedOk) : (c.syncLoop c.flagged).flagged = [] := by
  obtain ⟨hl, hlink, -⟩ := syncLoop_spec c.flagged c
  have hlink' := hlink h
  refine List.eq_nil_iff_forall_not_mem.mpr fun o ho => ?_
  have hfl := (hlink'.2 o).mp ho
  rw [isFlagged, hl o] at hfl
  split_ifs at hfl with hm
  · cases hr : syncedEntry (c.cacheCoins.lookup o) with
    | none => rw [hr] at hfl; cases hfl
    | some e' =>
      rw [hr] at hfl
      obtain ⟨e, -, -, rfl⟩ := of_syncedEntry_eq_some hr
      cases hfl
  · exact hm ((h.2 o).mpr hfl)

end CCoinsViewCache

/-! ### `Flush` and `Sync` -/

namespace CacheInv

/-- A cache without entries keeps the invariant over any base. -/
theorem of_cleared {c : CCoinsViewCache} (bl : COutPoint → Option Coin) (hc : c.cacheCoins = ∅)
    (hl : c.flagged = []) (hu : c.cachedCoinsUsage = 0) : CacheInv c bl where
  entry o e he := by rw [hc] at he; cases he
  linked := ⟨hl ▸ List.nodup_nil, fun o => by
    rw [hl, CCoinsViewCache.isFlagged_of_lookup_eq_none c (by rw [hc]; rfl)]
    exact iff_of_false List.not_mem_nil Bool.false_ne_true⟩
  usage := by rw [CCoinsViewCache.UsageOk, hu, hc]; rfl

end CacheInv

namespace CacheView

variable {v : CacheView}

/-- **`Flush`** writes the cache into its base and empties it: it never throws, the base then
holds what the stack held, the views below the base are unchanged, and the invariant is kept. -/
theorem Flush_spec (hv : v.Valid) (hacc : v.base.Accepts v.cache.hashBlock) :
    ∃ v', v.Flush = .ok (true, v') ∧ v'.lookup = v.lookup ∧ v'.base.lookup = v.lookup ∧
      v'.base.levels.tail = v.base.levels.tail ∧ v'.Valid := by
  obtain ⟨w', hw, hl, hvw, htail⟩ := CoinsView.BatchWrite_spec hv.base hv.cache hacc
  refine ⟨⟨{ v.cache with cacheCoins := ∅, flagged := [], cachedCoinsUsage := 0 }, w'⟩,
    by rw [Flush, hw]; rfl, ?_, hl, htail, ⟨CacheInv.of_cleared _ rfl rfl rfl, hvw⟩⟩
  funext o
  rw [lookup_mk, CoinsView.lookup_cache_of_none rfl, hl]
  rfl

/-- **`Sync`** writes the cache into its base, erases its spent entries and cleans the others: it
never throws, neither in `BatchWrite` nor at the check that no entry is left flagged; the stack
and the base then hold what the stack held, the views below the base are unchanged, and the
invariant is kept, every entry left holding what the new base holds. -/
theorem Sync_spec (hv : v.Valid) (hacc : v.base.Accepts v.cache.hashBlock) :
    ∃ v', v.Sync = .ok (true, v') ∧ v'.lookup = v.lookup ∧ v'.base.lookup = v.lookup ∧
      v'.base.levels.tail = v.base.levels.tail ∧ v'.Valid := by
  obtain ⟨w', hw, hl, hvw, htail⟩ := CoinsView.BatchWrite_spec hv.base hv.cache hacc
  have hinv := hv.cache
  obtain ⟨hsl, hlink, husage⟩ := CCoinsViewCache.syncLoop_spec v.cache.flagged v.cache
  have hnil := CCoinsViewCache.flagged_syncLoop hinv.linked
  -- every entry left is unspent, unflagged, and holds what the new base holds
  have hleft : ∀ o e', (v.cache.syncLoop v.cache.flagged).cacheCoins.lookup o = some e' →
      e'.dirty = false ∧ e'.fresh = false ∧ e'.coin.IsSpent = false ∧ w'.lookup o = some e'.coin := by
    intro o e' he'
    rw [hsl o] at he'
    split_ifs at he' with hm
    · obtain ⟨e, he, hs, rfl⟩ := CCoinsViewCache.of_syncedEntry_eq_some he'
      refine ⟨rfl, rfl, hs, ?_⟩
      rw [hl, CoinsView.lookup_cache_of_some he, Coin.asUnspent_of_not_spent hs]
    · have hfl : e'.IsFlagged = false := by
        rw [← CCoinsViewCache.isFlagged_of_lookup_eq_some _ he']
        simpa using (hinv.linked.2 o).not.mp hm
      simp only [CCoinsCacheEntry.IsFlagged, Bool.or_eq_false_iff] at hfl
      obtain ⟨hs, -⟩ := (hinv.entry o e' he').of_not_flagged hfl.1 hfl.2
      refine ⟨hfl.1, hfl.2, hs, ?_⟩
      rw [hl, CoinsView.lookup_cache_of_some he', Coin.asUnspent_of_not_spent hs]
  refine ⟨⟨v.cache.syncLoop v.cache.flagged, w'⟩, ?_, ?_, hl, htail, ⟨?_, hvw⟩⟩
  · rw [Sync, hw]
    simp [hnil]
  · funext o
    rw [lookup_mk]
    cases he' : (v.cache.syncLoop v.cache.flagged).cacheCoins.lookup o with
    | none => rw [CoinsView.lookup_cache_of_none he', hl]; rfl
    | some e' =>
      obtain ⟨-, -, hs, hb⟩ := hleft o e' he'
      rw [CoinsView.lookup_cache_of_some he', Coin.asUnspent_of_not_spent hs, ← hb, hl]
      rfl
  · refine ⟨fun o e' he' => ?_, hlink hinv.linked, husage hinv.usage⟩
    obtain ⟨hd, hf, hs, hb⟩ := hleft o e' he'
    rw [hb]
    exact EntryInv.of_clean hd hf hs

end CacheView

/-! ### `SanityCheck` -/

/-- **The invariant passes `SanityCheck`**: every entry has one of the five combinations, the
list links exactly the flagged entries, once each, and `cachedCoinsUsage` is the usage of the
entries. -/
theorem CacheInv.SanityCheck {c : CCoinsViewCache} {bl : COutPoint → Option Coin}
    (h : CacheInv c bl) : c.SanityCheck = true := by
  unfold CCoinsViewCache.SanityCheck
  simp only [Bool.and_eq_true, beq_iff_eq, decide_eq_true_eq, List.all_eq_true]
  have hkeys : ((c.cacheCoins.entries.filter (·.2.IsFlagged)).map (·.1)).Nodup :=
    List.NodupKeys.sublist List.filter_sublist c.cacheCoins.nodupKeys
  -- the list and the flagged entries have the same members, each once
  have hperm : c.flagged.Perm ((c.cacheCoins.entries.filter (·.2.IsFlagged)).map (·.1)) := by
    rw [List.perm_ext_iff_of_nodup h.linked.1 hkeys]
    intro o
    rw [h.linked.2 o, List.mem_map]
    constructor
    · intro hf
      cases he : c.cacheCoins.lookup o with
      | none => rw [CCoinsViewCache.isFlagged_of_lookup_eq_none c he] at hf; cases hf
      | some e =>
        rw [CCoinsViewCache.isFlagged_of_lookup_eq_some c he] at hf
        exact ⟨⟨o, e⟩, List.mem_filter.mpr ⟨AList.mem_lookup_iff.mp he, hf⟩, rfl⟩
    · rintro ⟨⟨o', e⟩, hm, rfl⟩
      obtain ⟨hm, hf⟩ := List.mem_filter.mp hm
      rw [CCoinsViewCache.isFlagged_of_lookup_eq_some c (AList.mem_lookup_iff.mpr hm)]
      exact hf
  refine ⟨⟨⟨⟨fun x hx => ?_, h.linked.1⟩, fun o ho => (h.linked.2 o).mp ho⟩, ?_⟩, ?_⟩
  · obtain ⟨⟨o, e⟩, hm, rfl⟩ := List.mem_map.mp hx
    exact (h.entry o e (AList.mem_lookup_iff.mpr hm)).attr
  · rw [hperm.length_eq, List.length_map, List.filter_map, List.length_map]
    rfl
  · rw [h.usage, CCoinsViewCache.totalUsage, KeyMap.total, List.map_map]
    rfl

end Tenscoin
