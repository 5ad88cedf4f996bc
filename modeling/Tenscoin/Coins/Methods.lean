import Mathlib
import Tenscoin.Coins.Invariant

/-!
# What the cache's methods do

One lemma per method of `CCoinsViewCache`, in terms of what the stack holds (`CoinsView.lookup`)
and of the invariant (`CoinsView.Valid`):

* `FetchCoin` and `GetCoin` answer what the view holds and leave it as it was, at every layer
  (`CCoinsViewCache.FetchCoin_spec`, `CoinsView.GetCoin_spec`); so do `HaveCoin` and
  `AccessCoin` (`CacheView.HaveCoin_spec`, `CacheView.AccessCoin_spec`);
* `SpendCoin` moves out what the view holds and leaves nothing there
  (`CacheView.SpendCoin_spec`); a FRESH entry may be erased because its base holds nothing;
* `AddCoin` of an unspent coin with a spendable script puts it there, and of an unspendable one
  changes nothing; with `possible_overwrite` false it needs the view to hold nothing there, which
  is what makes its FRESH mark right (`CacheView.AddCoin_spec`);
* `Uncache` and `SetBestBlock` change nothing the view holds (`CacheView.Uncache_spec`,
  `CacheView.SetBestBlock_spec`).
Each keeps the invariant.
-/

namespace Tenscoin

theorem Coin.bind_asUnspent (c : Coin) : c.asUnspent.bind Coin.asUnspent = c.asUnspent := by
  cases h : c.IsSpent
  · rw [Coin.asUnspent_of_not_spent h, Option.bind_some, Coin.asUnspent_of_not_spent h]
  · rw [Coin.asUnspent_of_spent h]
    rfl

/-! ### `FetchCoin` and `GetCoin` -/

namespace CCoinsViewCache

variable {c c' : CCoinsViewCache} {base base' : CoinsView} {o : COutPoint}
  {r : Option CCoinsCacheEntry}

/-- The entry `FetchCoin` inserts for a coin from the base: unflagged, FRESH if spent. -/
theorem lookup_fetched_self (h : c.cacheCoins.lookup o = none) (coin : Coin) :
    (if coin.IsSpent then ((c.setCoin o coin).addUsage coin.DynamicMemoryUsage).setFresh o
      else (c.setCoin o coin).addUsage coin.DynamicMemoryUsage).cacheCoins.lookup o =
      some ⟨coin, false, coin.IsSpent⟩ := by
  have hset := lookup_setCoin_self_of_none c coin h
  cases hs : coin.IsSpent
  · rw [if_neg Bool.false_ne_true, cacheCoins_addUsage, hset]
  · rw [if_pos rfl, setFresh, lookup_addFlags_self_of_some _ false true (by rw [cacheCoins_addUsage,
      hset])]
    rfl

theorem lookup_fetched_ne {o' : COutPoint} (h : o' ≠ o) (coin : Coin) :
    (if coin.IsSpent then ((c.setCoin o coin).addUsage coin.DynamicMemoryUsage).setFresh o
      else (c.setCoin o coin).addUsage coin.DynamicMemoryUsage).cacheCoins.lookup o' =
      c.cacheCoins.lookup o' := by
  split_ifs
  · rw [setFresh, lookup_addFlags_ne _ _ _ h, cacheCoins_addUsage, lookup_setCoin_ne c coin h]
  · rw [cacheCoins_addUsage, lookup_setCoin_ne c coin h]

/-- **`FetchCoin`**, over a base whose `GetCoin` answers what it holds and keeps it: the entry
it returns is the cache's entry afterwards, its coin is what the view holds, the view holds
the same everywhere afterwards, and the invariant is kept. -/
theorem FetchCoin_spec (hg : ((base.GetCoin o).1).bind Coin.asUnspent = base.lookup o)
    (hl : (base.GetCoin o).2.lookup = base.lookup)
    (hr : c.FetchCoin o base.GetCoin base = (r, c', base')) :
    r = c'.cacheCoins.lookup o ∧ r.bind (·.coin.asUnspent) = (CoinsView.cache c base).lookup o ∧
      (CoinsView.cache c' base').lookup = (CoinsView.cache c base).lookup ∧
      base'.lookup = base.lookup ∧ (base' = base ∨ base' = (base.GetCoin o).2) ∧
      (CacheInv c base.lookup → CacheInv c' base'.lookup) := by
  unfold FetchCoin at hr
  cases he : c.cacheCoins.lookup o with
  | some e =>
    -- found in the cache: nothing changes
    rw [he] at hr
    simp only [Prod.mk.injEq] at hr
    obtain ⟨rfl, rfl, rfl⟩ := hr
    exact ⟨he.symm, (CoinsView.lookup_cache_of_some he).symm, rfl, rfl, .inl rfl, id⟩
  | none =>
    rw [he] at hr
    rcases hgc : base.GetCoin o with ⟨rb, b₁⟩
    rw [hgc] at hr hg hl
    dsimp only at hr hg hl
    cases rb with
    | none =>
      -- the base has nothing either: only the base's fetch changes it
      simp only [Prod.mk.injEq] at hr
      obtain ⟨rfl, rfl, rfl⟩ := hr
      refine ⟨he.symm, ?_, ?_, hl, .inr rfl, fun hi => hi.of_base_eq hl⟩
      · rw [CoinsView.lookup_cache_of_none he, ← hg]
        rfl
      · funext o'
        exact CoinsView.lookup_cache_congr rfl (congrFun hl o')
    | some coin =>
      -- a coin from the base becomes an unflagged entry, FRESH if it is spent
      simp only [Prod.mk.injEq] at hr
      obtain ⟨rfl, rfl, rfl⟩ := hr
      have hself := lookup_fetched_self he coin
      have hbo : base.lookup o = coin.asUnspent := by rw [← hg]; rfl
      refine ⟨rfl, ?_, ?_, hl, .inr rfl, fun hi => ?_⟩
      · rw [hself, CoinsView.lookup_cache_of_none he, hbo]
        rfl
      · funext o'
        by_cases ho : o' = o
        · subst ho
          rw [CoinsView.lookup_cache_of_some hself, CoinsView.lookup_cache_of_none he, hbo]
        · exact CoinsView.lookup_cache_congr (lookup_fetched_ne ho coin) (congrFun hl o')
      · refine hi.of_changesAt (o := o) (fun o' ho => lookup_fetched_ne ho coin)
          (fun o' _ => congrFun hl o') (fun e he' => ?_) ?_ ?_
        · rw [hself] at he'
          cases he'
          rw [congrFun hl o, hbo]
          refine ⟨?_, fun hf => Coin.asUnspent_of_spent hf, fun _ hs => Coin.asUnspent_of_not_spent hs⟩
          cases hs : coin.IsSpent <;> simp [CCoinsCacheEntry.attrOk, hs]
        · split_ifs
          · exact ((hi.linked.setCoin coin).addUsage _).setFresh
          · exact (hi.linked.setCoin coin).addUsage _
        · have ht := totalUsage_setCoin c (o := o) coin
          rw [usageAt_of_lookup_eq_none c he] at ht
          have hu := hi.usage
          unfold UsageOk at hu ⊢
          split_ifs
          · rw [setFresh, totalUsage_addFlags, cacheCoins_addUsage, cachedCoinsUsage_addFlags,
              cachedCoinsUsage_addUsage, cachedCoinsUsage_setCoin]
            omega
          · rw [cacheCoins_addUsage, cachedCoinsUsage_addUsage, cachedCoinsUsage_setCoin]
            omega

end CCoinsViewCache

namespace CoinsView

/-- **`GetCoin` of any view** answers what the view holds, leaves what it holds unchanged, and
keeps the invariant of every layer. -/
theorem GetCoin_spec : ∀ (v : CoinsView) (o : COutPoint),
    ((v.GetCoin o).1).bind Coin.asUnspent = v.lookup o ∧ (v.GetCoin o).2.lookup = v.lookup ∧
      (v.Valid → (v.GetCoin o).2.Valid)
  | .db _, _ => ⟨rfl, rfl, id⟩
  | .bottom _, _ => ⟨rfl, rfl, id⟩
  | .cache c base, o => by
    -- the base answers by induction; the cache's own fetch is `FetchCoin_spec`
    obtain ⟨hg, hl, hbv⟩ := GetCoin_spec base o
    rcases hr : c.FetchCoin o base.GetCoin base with ⟨r, c', base'⟩
    obtain ⟨-, hr2, hr3, hr4, hr5, hr6⟩ := CCoinsViewCache.FetchCoin_spec hg hl hr
    have hget : (CoinsView.cache c base).GetCoin o =
        (r.bind fun e => e.coin.asUnspent, .cache c' base') := by
      show (((c.FetchCoin o base.GetCoin base).1.bind fun e => e.coin.asUnspent),
        CoinsView.cache (c.FetchCoin o base.GetCoin base).2.1
          (c.FetchCoin o base.GetCoin base).2.2) = _
      rw [hr]
    rw [hget]
    refine ⟨?_, hr3, fun hv => ⟨hr6 hv.1, ?_⟩⟩
    · rw [← hr2, Option.bind_assoc]
      cases r with
      | none => rfl
      | some e => exact Coin.bind_asUnspent e.coin
    · rcases hr5 with rfl | rfl
      · exact hv.2
      · exact hbv hv.2

end CoinsView

/-! ### The writes of `AddCoin` -/

namespace CCoinsViewCache

variable (c : CCoinsViewCache) (o : COutPoint) {o' : COutPoint} (coin : Coin) (F : Bool)

/-- The writes that end `AddCoin`: the coin, DIRTY, FRESH if `F`, and the coin's usage. -/
def addCoinWrite : CCoinsViewCache :=
  let c := (c.setCoin o coin).setDirty o
  let c := if F then c.setFresh o else c
  c.addUsage coin.DynamicMemoryUsage

/-- The entry `AddCoin` leaves: the coin, DIRTY, and FRESH if it was or if `F`. -/
theorem lookup_addCoinWrite_self :
    (c.addCoinWrite o coin F).cacheCoins.lookup o =
      some ⟨coin, true, ((c.cacheCoins.lookup o).map (·.fresh)).getD false || F⟩ := by
  have h1 : ((c.setCoin o coin).setDirty o).cacheCoins.lookup o =
      some ⟨coin, true, ((c.cacheCoins.lookup o).map (·.fresh)).getD false⟩ := by
    cases he : c.cacheCoins.lookup o with
    | none =>
      rw [setDirty, lookup_addFlags_self_of_some _ true false (lookup_setCoin_self_of_none c coin he)]
      rfl
    | some e =>
      rw [setDirty, lookup_addFlags_self_of_some _ true false (lookup_setCoin_self_of_some c coin he)]
      simp
  unfold addCoinWrite
  dsimp only
  cases F
  · rw [if_neg Bool.false_ne_true, cacheCoins_addUsage, h1, Bool.or_false]
  · rw [if_pos rfl, cacheCoins_addUsage, setFresh, lookup_addFlags_self_of_some _ false true h1]
    simp

theorem lookup_addCoinWrite_ne (h : o' ≠ o) :
    (c.addCoinWrite o coin F).cacheCoins.lookup o' = c.cacheCoins.lookup o' := by
  have h1 : ((c.setCoin o coin).setDirty o).cacheCoins.lookup o' = c.cacheCoins.lookup o' := by
    rw [setDirty, lookup_addFlags_ne _ _ _ h, lookup_setCoin_ne _ _ h]
  unfold addCoinWrite
  dsimp only
  split_ifs
  · rw [cacheCoins_addUsage, setFresh, lookup_addFlags_ne _ _ _ h, h1]
  · rw [cacheCoins_addUsage, h1]

variable {c} in
theorem LinkedOk.addCoinWrite (h : c.LinkedOk) : (c.addCoinWrite o coin F).LinkedOk := by
  unfold CCoinsViewCache.addCoinWrite
  dsimp only
  split_ifs
  · exact ((h.setCoin coin).setDirty.setFresh).addUsage _
  · exact (h.setCoin coin).setDirty.addUsage _

theorem usage_addCoinWrite :
    (c.addCoinWrite o coin F).cachedCoinsUsage = c.cachedCoinsUsage + coin.DynamicMemoryUsage ∧
      totalUsage (c.addCoinWrite o coin F).cacheCoins + usageAt c.cacheCoins o =
        totalUsage c.cacheCoins + coin.DynamicMemoryUsage := by
  have ht := totalUsage_setCoin c (o := o) coin
  unfold addCoinWrite
  dsimp only
  split_ifs <;>
  · simp only [setFresh, setDirty, cachedCoinsUsage_addUsage, cachedCoinsUsage_addFlags,
      cachedCoinsUsage_setCoin, cacheCoins_addUsage, totalUsage_addFlags]
    exact ⟨trivial, ht⟩

end CCoinsViewCache

/-! ### The invariant across one write -/

section Writes

variable {c c₁ : CCoinsViewCache} {bl : COutPoint → Option Coin} {o : COutPoint}
  {e : CCoinsCacheEntry}

/-- A DIRTY entry keeps its invariant unless it is both spent and FRESH, if a FRESH one sits
where the base holds nothing. -/
theorem EntryInv.of_dirty {b : Option Coin} {coin : Coin} {F : Bool}
    (hsf : ¬(coin.IsSpent = true ∧ F = true)) (hF : F = true → b = none) :
    EntryInv b ⟨coin, true, F⟩ where
  attr := by
    rw [CCoinsCacheEntry.attrOk_iff]
    cases hs : coin.IsSpent <;> cases F <;> simp_all
  fresh := hF
  clean h := by cases h

/-- The writes of `addCoinWrite` keep the invariant, on a cache `c₁` that is `c` with the usage
of the entry at `o` taken off, if the entry they leave keeps its own. -/
theorem CacheInv.addCoinWrite {coin : Coin} {F : Bool} (h : CacheInv c bl)
    (hc : c₁.cacheCoins = c.cacheCoins) (hl : c₁.flagged = c.flagged)
    (hu : c₁.cachedCoinsUsage + CCoinsViewCache.usageAt c.cacheCoins o = c.cachedCoinsUsage)
    (he : EntryInv (bl o) ⟨coin, true, ((c.cacheCoins.lookup o).map (·.fresh)).getD false || F⟩) :
    CacheInv (c₁.addCoinWrite o coin F) bl := by
  refine h.of_changesAt (o := o) (fun o' ho => by
    rw [CCoinsViewCache.lookup_addCoinWrite_ne _ _ _ _ ho, hc]) (fun _ _ => rfl)
    (fun e' he' => ?_) ?_ ?_
  · rw [CCoinsViewCache.lookup_addCoinWrite_self, hc] at he'
    cases he'
    exact he
  · have hl₁ : c₁.LinkedOk := ⟨hl ▸ h.linked.1, fun o' => by
      rw [hl, CCoinsViewCache.isFlagged, hc]
      exact h.linked.2 o'⟩
    exact hl₁.addCoinWrite o coin F
  · obtain ⟨h1, h2⟩ := CCoinsViewCache.usage_addCoinWrite c₁ o coin F
    rw [hc] at h2
    have husage := h.usage
    unfold CCoinsViewCache.UsageOk at husage ⊢
    rw [h1]
    omega

/-- Dropping the entry at `o` with its usage keeps the invariant over the same base. -/
theorem CacheInv.eraseEntry (h : CacheInv c bl) (he : c.cacheCoins.lookup o = some e) :
    CacheInv ((c.subUsage e.coin.DynamicMemoryUsage).eraseEntry o) bl := by
  refine h.of_changesAt (o := o) (fun o' ho => by
    rw [CCoinsViewCache.lookup_eraseEntry_ne _ ho, CCoinsViewCache.cacheCoins_subUsage])
    (fun _ _ => rfl) (fun e' he' => ?_) ((h.linked.subUsage _).eraseEntry) ?_
  · rw [CCoinsViewCache.lookup_eraseEntry_self] at he'
    cases he'
  · have ht := CCoinsViewCache.totalUsage_eraseEntry (c.subUsage e.coin.DynamicMemoryUsage) (o := o)
    rw [CCoinsViewCache.cacheCoins_subUsage, CCoinsViewCache.usageAt_of_lookup_eq_some _ he] at ht
    have husage := h.usage
    unfold CCoinsViewCache.UsageOk at husage ⊢
    rw [CCoinsViewCache.cachedCoinsUsage_eraseEntry, CCoinsViewCache.cachedCoinsUsage_subUsage]
    omega

end Writes

/-! ### The methods of the top cache -/

namespace CacheView

variable (v : CacheView) (o : COutPoint)

/-- What the stack with this cache on top holds. -/
def lookup : COutPoint → Option Coin :=
  v.toView.lookup

/-- The invariant of the whole stack. -/
def Valid : Prop :=
  v.toView.Valid

variable {v o}

theorem Valid.cache (hv : v.Valid) : CacheInv v.cache v.base.lookup :=
  hv.1

theorem Valid.base (hv : v.Valid) : v.base.Valid :=
  hv.2

/-- **`FetchCoin` of the top cache**: its entry afterwards, holding what the view holds, which
is unchanged; the base holds the same, and the invariant is kept. -/
theorem FetchCoin_spec :
    (v.FetchCoin o).1 = (v.FetchCoin o).2.cache.cacheCoins.lookup o ∧
      ((v.FetchCoin o).1.bind fun e => e.coin.asUnspent) = v.lookup o ∧
      (v.FetchCoin o).2.lookup = v.lookup ∧ (v.FetchCoin o).2.base.lookup = v.base.lookup ∧
      (v.Valid → (v.FetchCoin o).2.Valid) := by
  obtain ⟨hg, hl, hbv⟩ := CoinsView.GetCoin_spec v.base o
  rcases hr : v.cache.FetchCoin o v.base.GetCoin v.base with ⟨r, c', base'⟩
  obtain ⟨hr1, hr2, hr3, hr4, hr5, hr6⟩ := CCoinsViewCache.FetchCoin_spec hg hl hr
  have hf : v.FetchCoin o = (r, ⟨c', base'⟩) := by
    show ((v.cache.FetchCoin o v.base.GetCoin v.base).1,
      (⟨(v.cache.FetchCoin o v.base.GetCoin v.base).2.1,
        (v.cache.FetchCoin o v.base.GetCoin v.base).2.2⟩ : CacheView)) = _
    rw [hr]
  rw [hf]
  refine ⟨hr1, hr2, hr3, hr4, fun hv => ⟨hr6 hv.1, ?_⟩⟩
  rcases hr5 with rfl | rfl
  · exact hv.2
  · exact hbv hv.2

theorem lookup_FetchCoin : (v.FetchCoin o).2.lookup = v.lookup :=
  FetchCoin_spec.2.2.1

theorem Valid.FetchCoin (hv : v.Valid) : (v.FetchCoin o).2.Valid :=
  FetchCoin_spec.2.2.2.2 hv

/-- **`HaveCoin`** answers whether the view holds a coin. -/
theorem HaveCoin_spec :
    (v.HaveCoin o).1 = (v.lookup o).isSome ∧ (v.HaveCoin o).2 = (v.FetchCoin o).2 := by
  obtain ⟨-, h2, -⟩ := FetchCoin_spec (v := v) (o := o)
  refine ⟨?_, rfl⟩
  rw [← h2]
  unfold HaveCoin
  dsimp only
  cases (v.FetchCoin o).1 with
  | none => rfl
  | some e =>
    cases hs : e.coin.IsSpent
    · rw [Option.bind_some, Coin.asUnspent_of_not_spent hs]
      simp [hs]
    · rw [Option.bind_some, Coin.asUnspent_of_spent hs]
      simp [hs]

/-- **`AccessCoin`** returns a coin that is unspent exactly when the view holds it. -/
theorem AccessCoin_spec :
    (v.AccessCoin o).1.asUnspent = v.lookup o ∧ (v.AccessCoin o).2 = (v.FetchCoin o).2 := by
  obtain ⟨-, h2, -⟩ := FetchCoin_spec (v := v) (o := o)
  refine ⟨?_, rfl⟩
  rw [← h2]
  unfold AccessCoin
  dsimp only
  cases (v.FetchCoin o).1 <;> rfl

/-- **`GetCoin` of the top cache** answers what the view holds. -/
theorem GetCoin_spec : (v.GetCoin o).1 = v.lookup o ∧ (v.GetCoin o).2 = (v.FetchCoin o).2 := by
  obtain ⟨-, h2, -⟩ := FetchCoin_spec (v := v) (o := o)
  exact ⟨h2, rfl⟩

theorem lookup_mk (c : CCoinsViewCache) (base : CoinsView) :
    (⟨c, base⟩ : CacheView).lookup = (CoinsView.cache c base).lookup := rfl

/-- **`SpendCoin`** moves out the coin the view holds at `o`, if any, leaves nothing there, and
keeps the invariant: a FRESH entry is erased, as its base holds nothing, any other is cleared and
made DIRTY so that the spend reaches the base. -/
theorem SpendCoin_spec (hv : v.Valid) :
    (v.SpendCoin o).2.1.bind Coin.asUnspent = v.lookup o ∧
      (v.SpendCoin o).1 = (v.SpendCoin o).2.1.isSome ∧
      (v.SpendCoin o).2.2.lookup = Function.update v.lookup o none ∧
      (v.SpendCoin o).2.2.base.lookup = v.base.lookup ∧ (v.SpendCoin o).2.2.Valid := by
  obtain ⟨hg, hl, hbv⟩ := CoinsView.GetCoin_spec v.base o
  rcases hr : v.cache.FetchCoin o v.base.GetCoin v.base with ⟨r, c', base'⟩
  obtain ⟨hr1, hr2, hr3, hr4, hr5, hr6⟩ := CCoinsViewCache.FetchCoin_spec hg hl hr
  have hinv : CacheInv c' base'.lookup := hr6 hv.1
  have hbase : base'.Valid := by
    rcases hr5 with rfl | rfl
    · exact hv.2
    · exact hbv hv.2
  have hvl : v.lookup = (CoinsView.cache c' base').lookup := hr3.symm
  unfold SpendCoin
  rw [hr]
  dsimp only
  cases r with
  | none =>
    -- nothing in any layer: nothing to spend
    have h0 : v.lookup o = none := hr2.symm
    refine ⟨h0.symm, rfl, ?_, hr4, ⟨hinv, hbase⟩⟩
    rw [← h0, Function.update_eq_self]
    exact hr3
  | some e =>
    dsimp only
    have he : c'.cacheCoins.lookup o = some e := hr1.symm
    have hei := hinv.entry o e he
    have hbl : v.lookup o = e.coin.asUnspent := hr2.symm
    have hue := CCoinsViewCache.usageAt_of_lookup_eq_some c' he
    have hu := hinv.usage
    unfold CCoinsViewCache.UsageOk at hu
    by_cases hf : e.fresh = true
    · -- a FRESH entry: the base holds nothing, so the entry can go
      rw [if_pos hf]
      dsimp only
      have hb0 : base'.lookup o = none := hei.fresh hf
      have hne : ∀ o', o' ≠ o → ((c'.subUsage e.coin.DynamicMemoryUsage).eraseEntry o).cacheCoins.lookup o' =
          c'.cacheCoins.lookup o' := fun o' ho => by
        rw [CCoinsViewCache.lookup_eraseEntry_ne _ ho, CCoinsViewCache.cacheCoins_subUsage]
      refine ⟨hbl.symm, rfl, ?_, hr4, ⟨?_, hbase⟩⟩
      · funext o'
        by_cases ho : o' = o
        · subst ho
          rw [Function.update_self, lookup_mk, CoinsView.lookup_cache_of_none
            (CCoinsViewCache.lookup_eraseEntry_self _), hb0]
        · rw [Function.update_of_ne ho, lookup_mk, hvl]
          exact CoinsView.lookup_cache_congr (hne o' ho) rfl
      · exact hinv.eraseEntry he
    · -- not FRESH: the entry is cleared and made DIRTY
      rw [if_neg hf]
      dsimp only
      have hf' : e.fresh = false := by simpa using hf
      set c'' := ((c'.subUsage e.coin.DynamicMemoryUsage).setDirty o).setCoin o Coin.empty with hc''
      have hdirty : ((c'.subUsage e.coin.DynamicMemoryUsage).setDirty o).cacheCoins.lookup o =
          some { e with dirty := e.dirty || true, fresh := e.fresh || false } :=
        CCoinsViewCache.lookup_addFlags_self_of_some _ true false he
      have hself : c''.cacheCoins.lookup o = some ⟨Coin.empty, true, false⟩ := by
        rw [hc'', CCoinsViewCache.lookup_setCoin_self_of_some _ _ hdirty, hf']
        simp
      have hne : ∀ o', o' ≠ o → c''.cacheCoins.lookup o' = c'.cacheCoins.lookup o' := fun o' ho => by
        rw [hc'', CCoinsViewCache.lookup_setCoin_ne _ _ ho, CCoinsViewCache.setDirty,
          CCoinsViewCache.lookup_addFlags_ne _ _ _ ho, CCoinsViewCache.cacheCoins_subUsage]
      refine ⟨hbl.symm, rfl, ?_, hr4, ⟨?_, hbase⟩⟩
      · funext o'
        by_cases ho : o' = o
        · subst ho
          rw [Function.update_self, lookup_mk, CoinsView.lookup_cache_of_some hself]
          rfl
        · rw [Function.update_of_ne ho, lookup_mk, hvl]
          exact CoinsView.lookup_cache_congr (hne o' ho) rfl
      · refine hinv.of_changesAt (o := o) hne (fun _ _ => rfl) (fun e' he' => ?_)
          ((hinv.linked.subUsage _).setDirty.setCoin _) ?_
        · rw [hself] at he'
          cases he'
          exact ⟨rfl, fun h => absurd h Bool.false_ne_true, fun h => absurd h.symm Bool.false_ne_true⟩
        · have ht := CCoinsViewCache.totalUsage_setCoin
            ((c'.subUsage e.coin.DynamicMemoryUsage).setDirty o) (o := o) Coin.empty
          rw [CCoinsViewCache.usageAt_of_lookup_eq_some _ hdirty, CCoinsViewCache.setDirty,
            CCoinsViewCache.totalUsage_addFlags, CCoinsViewCache.cacheCoins_subUsage,
            Coin.DynamicMemoryUsage_empty] at ht
          dsimp only at ht ⊢
          unfold CCoinsViewCache.UsageOk
          rw [hc'', CCoinsViewCache.cachedCoinsUsage_setCoin, CCoinsViewCache.setDirty,
            CCoinsViewCache.cachedCoinsUsage_addFlags, CCoinsViewCache.cachedCoinsUsage_subUsage]
          have hle := CCoinsViewCache.usageAt_le_totalUsage c' o
          rw [hue] at hle
          omega

/-- `AddCoin` of an unspent coin with a spendable script, by the entry there: an unspent one
may only be overwritten with `possible_overwrite`; the coin is then written DIRTY, and FRESH
when `possible_overwrite` is false and the entry there was not DIRTY. -/
theorem AddCoin_eq_of_spendable {coin : Coin} (hs : coin.IsSpent = false)
    (hu : coin.out.scriptPubKey.IsUnspendable = false) (po : Bool) :
    v.AddCoin o coin po =
      match v.cache.cacheCoins.lookup o with
      | none => pure ⟨v.cache.addCoinWrite o coin !po, v.base⟩
      | some e =>
        if !po && !e.coin.IsSpent then
          throw "Attempted to overwrite an unspent coin (when possible_overwrite is false)"
        else pure ⟨(v.cache.subUsage e.coin.DynamicMemoryUsage).addCoinWrite o coin (!po && !e.dirty),
          v.base⟩ := by
  cases he : v.cache.cacheCoins.lookup o with
  | none =>
    simp only [AddCoin, hs, hu, he, Bool.false_eq_true, ↓reduceIte, Bool.not_false, Bool.not_true,
      pure_bind, Coin.IsSpent_empty]
    cases po <;> rfl
  | some e =>
    simp only [AddCoin, hs, hu, he, Bool.false_eq_true, ↓reduceIte, pure_bind]
    cases po <;> cases e.coin.IsSpent <;> cases e.dirty <;> rfl

/-- `AddCoin` of a coin whose script cannot be spent changes nothing. -/
theorem AddCoin_of_unspendable {coin : Coin} (hs : coin.IsSpent = false)
    (hu : coin.out.scriptPubKey.IsUnspendable = true) (po : Bool) : v.AddCoin o coin po = .ok v := by
  simp only [AddCoin, hs, hu, Bool.false_eq_true, ↓reduceIte]
  rfl

/-- **`AddCoin`** of an unspent coin puts it where the view holds nothing or where overwriting
is allowed, and keeps the invariant; a coin with an unspendable script is not added. With
`possible_overwrite` false the caller guarantees that the view holds nothing there, which is what
makes the FRESH mark right. -/
theorem AddCoin_spec (hv : v.Valid) {coin : Coin} (hs : coin.IsSpent = false) {po : Bool}
    (hpo : po = false → v.lookup o = none) :
    ∃ v', v.AddCoin o coin po = .ok v' ∧ v'.base = v.base ∧ v'.Valid ∧
      v'.lookup = if coin.out.scriptPubKey.IsUnspendable then v.lookup
        else Function.update v.lookup o (some coin) := by
  cases hu : coin.out.scriptPubKey.IsUnspendable
  · rw [AddCoin_eq_of_spendable hs hu, if_neg Bool.false_ne_true]
    have hinv := hv.cache
    -- the entry there before, and the FRESH mark it gets
    obtain ⟨c₁, F, hres, hfresh, hne, hu₁, hF⟩ : ∃ (c₁ : CCoinsViewCache) (F : Bool),
        (match v.cache.cacheCoins.lookup o with
          | none => (pure ⟨v.cache.addCoinWrite o coin !po, v.base⟩ : Except String CacheView)
          | some e =>
            if !po && !e.coin.IsSpent then
              throw "Attempted to overwrite an unspent coin (when possible_overwrite is false)"
            else pure ⟨(v.cache.subUsage e.coin.DynamicMemoryUsage).addCoinWrite o coin
              (!po && !e.dirty), v.base⟩) = pure ⟨c₁.addCoinWrite o coin F, v.base⟩ ∧
        c₁.cacheCoins = v.cache.cacheCoins ∧ c₁.flagged = v.cache.flagged ∧
        c₁.cachedCoinsUsage + CCoinsViewCache.usageAt v.cache.cacheCoins o = v.cache.cachedCoinsUsage ∧
        (F = true → v.base.lookup o = none) := by
      cases he : v.cache.cacheCoins.lookup o with
      | none =>
        refine ⟨v.cache, !po, rfl, rfl, rfl, by
          rw [CCoinsViewCache.usageAt_of_lookup_eq_none _ he, Nat.add_zero], fun hF => ?_⟩
        rw [← CoinsView.lookup_cache_of_none he]
        exact hpo (by simpa using hF)
      | some e =>
        dsimp only
        have hei := hinv.entry o e he
        have hue := CCoinsViewCache.usageAt_of_lookup_eq_some _ he
        have hle := CCoinsViewCache.usageAt_le_totalUsage v.cache o
        have husage := hinv.usage
        unfold CCoinsViewCache.UsageOk at husage
        -- without overwrite the entry is spent, as the view holds nothing there
        have hspent : po = false → e.coin.IsSpent = true := fun hp => by
          have h0 := hpo hp
          rw [lookup, toView, CoinsView.lookup_cache_of_some he] at h0
          cases hsp : e.coin.IsSpent
          · rw [Coin.asUnspent_of_not_spent hsp] at h0
            cases h0
          · rfl
        have hthrow : (!po && !e.coin.IsSpent) = false := by
          cases po
          · rw [hspent rfl]
            rfl
          · rfl
        rw [if_neg (by rw [hthrow]; exact Bool.false_ne_true)]
        refine ⟨_, _, rfl, rfl, rfl, by rw [CCoinsViewCache.cachedCoinsUsage_subUsage]; omega,
          fun hF => ?_⟩
        have hp : po = false := by simpa using (Bool.and_eq_true_iff.mp hF).1
        have hd : e.dirty = false := by simpa using (Bool.and_eq_true_iff.mp hF).2
        exact (hei.of_spent_not_dirty (hspent hp) hd).2
    rw [hres]
    refine ⟨_, rfl, rfl, ⟨hinv.addCoinWrite hfresh hne hu₁ ?_, hv.base⟩, ?_⟩
    · refine EntryInv.of_dirty (by simp [hs]) fun hf => ?_
      -- FRESH: it was FRESH before, or `AddCoin` marked it so
      rcases Bool.or_eq_true_iff.mp hf with hwas | hnow
      · cases he : v.cache.cacheCoins.lookup o with
        | none => rw [he] at hwas; cases hwas
        | some e =>
          rw [he] at hwas
          exact (hinv.entry o e he).fresh hwas
      · exact hF hnow
    · -- the view holds the coin at `o` and what it held elsewhere
      funext o'
      by_cases ho : o' = o
      · subst ho
        rw [Function.update_self, lookup_mk, CoinsView.lookup_cache_of_some
          (CCoinsViewCache.lookup_addCoinWrite_self _ _ _ _), Coin.asUnspent_of_not_spent hs]
      · rw [Function.update_of_ne ho, lookup_mk]
        exact CoinsView.lookup_cache_congr (by rw [CCoinsViewCache.lookup_addCoinWrite_ne _ _ _ _ ho,
          hfresh]) rfl
  · -- an unspendable script: nothing is added
    exact ⟨v, AddCoin_of_unspendable hs hu po, rfl, hv, by rw [if_pos rfl]⟩

/-- **`Uncache`** drops an entry without flags, which holds what the base holds, so the view
holds the same, and the invariant is kept. -/
theorem Uncache_spec (hv : v.Valid) :
    (v.Uncache o).lookup = v.lookup ∧ (v.Uncache o).base = v.base ∧ (v.Uncache o).Valid := by
  unfold Uncache
  cases he : v.cache.cacheCoins.lookup o with
  | none => exact ⟨rfl, rfl, hv⟩
  | some e =>
    dsimp only
    by_cases hclean : (!e.dirty && !e.fresh) = true
    · rw [if_pos hclean]
      have hd : e.dirty = false := by simpa using (Bool.and_eq_true_iff.mp hclean).1
      have hf : e.fresh = false := by simpa using (Bool.and_eq_true_iff.mp hclean).2
      have hinv := hv.cache
      obtain ⟨hs, hbase⟩ := (hinv.entry o e he).of_not_flagged hd hf
      set c' := (v.cache.subUsage e.coin.DynamicMemoryUsage).eraseEntry o with hc'
      have hne : ∀ o', o' ≠ o → c'.cacheCoins.lookup o' = v.cache.cacheCoins.lookup o' := fun o' ho => by
        rw [hc', CCoinsViewCache.lookup_eraseEntry_ne _ ho, CCoinsViewCache.cacheCoins_subUsage]
      refine ⟨?_, rfl, ⟨?_, hv.base⟩⟩
      · funext o'
        by_cases ho : o' = o
        · -- the base holds the coin of the dropped entry
          subst ho
          rw [lookup_mk, CoinsView.lookup_cache_of_none (CCoinsViewCache.lookup_eraseEntry_self _),
            hbase, lookup, toView, CoinsView.lookup_cache_of_some he, Coin.asUnspent_of_not_spent hs]
        · exact CoinsView.lookup_cache_congr (hne o' ho) rfl
      · exact hinv.eraseEntry he
    · rw [if_neg hclean]
      exact ⟨rfl, rfl, hv⟩

/-- **`SetBestBlock`** changes no entry. -/
theorem SetBestBlock_spec (h : Uint256) (hv : v.Valid) :
    (v.SetBestBlock h).lookup = v.lookup ∧ (v.SetBestBlock h).base = v.base ∧
      (v.SetBestBlock h).Valid :=
  ⟨rfl, rfl, ⟨⟨hv.1.entry, hv.1.linked, hv.1.usage⟩, hv.2⟩⟩

end CacheView

end Tenscoin
