import Mathlib
import Tenscoin.Coins.Cache

/-!
# The invariant of the coins cache

What a stack of views holds is `CoinsView.lookup`: at each outpoint the unspent coin of the
topmost layer that has an entry there, or none if that entry is spent; it holds only unspent
coins (`CoinsView.IsSpent_of_lookup_eq_some`). Every read of the model returns it and leaves it
unchanged at every layer (`CoinsView.GetCoin_spec`, in `Tenscoin.Coins.Methods`), although
reads insert entries into the caches below.

Each cache keeps `CacheInv` over its base, the facts `SanityCheck` tests and the two facts the
flags promise:
* every entry has one of the five combinations of DIRTY, FRESH and spent (`attrOk`);
* a FRESH entry sits over a base that holds nothing there (`EntryInv.fresh`);
* an entry that is not DIRTY and unspent holds what the base holds (`EntryInv.clean`);
* the list of flagged entries links each flagged entry once (`LinkedOk`);
* `cachedCoinsUsage` is the usage of the entries (`UsageOk`).
`CoinsView.Valid` asks it of every layer.

The entry helpers of the model change one key at a time. Each has a lemma for the entry at its
key and one for the others (`lookup_setCoin_self_of_some`, `lookup_setCoin_ne`, ...), keeps
`LinkedOk` (`LinkedOk.setDirty`, ...) and moves the usage total by the weight at its key
(`totalUsage_setCoin`, ...). The methods' lemmas are assembled from these.
-/

namespace Tenscoin

namespace CCoinsViewCache

variable (c : CCoinsViewCache) {o o' : COutPoint}

/-- The usage of the entries of a map, which `SanityCheck` recomputes. -/
def totalUsage (m : CCoinsMap) : ℕ :=
  KeyMap.total (fun e => e.coin.DynamicMemoryUsage) m

/-- The usage of the entry at `o`, zero if there is none. -/
def usageAt (m : CCoinsMap) (o : COutPoint) : ℕ :=
  KeyMap.weightAt (fun e => e.coin.DynamicMemoryUsage) m o

/-- The list of flagged entries links each flagged entry, and each once. -/
def LinkedOk : Prop :=
  c.flagged.Nodup ∧ ∀ o, o ∈ c.flagged ↔ c.isFlagged o = true

/-- `cachedCoinsUsage` is the usage of the entries. -/
def UsageOk : Prop :=
  c.cachedCoinsUsage = totalUsage c.cacheCoins

/-! ### The entry helpers, key by key -/

section Helpers

variable {e : CCoinsCacheEntry} (coin : Coin)

theorem isFlagged_of_lookup_eq_some (h : c.cacheCoins.lookup o = some e) :
    c.isFlagged o = e.IsFlagged := by
  rw [isFlagged, h]

theorem isFlagged_of_lookup_eq_none (h : c.cacheCoins.lookup o = none) : c.isFlagged o = false := by
  rw [isFlagged, h]

theorem lookup_setCoin_self_of_some (h : c.cacheCoins.lookup o = some e) :
    (c.setCoin o coin).cacheCoins.lookup o = some { e with coin } := by
  rw [setCoin, AList.lookup_insert, h]

theorem lookup_setCoin_self_of_none (h : c.cacheCoins.lookup o = none) :
    (c.setCoin o coin).cacheCoins.lookup o = some ⟨coin, false, false⟩ := by
  rw [setCoin, AList.lookup_insert, h]

theorem lookup_setCoin_ne (h : o' ≠ o) :
    (c.setCoin o coin).cacheCoins.lookup o' = c.cacheCoins.lookup o' :=
  AList.lookup_insert_ne h

@[simp] theorem flagged_setCoin : (c.setCoin o coin).flagged = c.flagged := rfl

theorem lookup_addFlags_self_of_some (d f : Bool) (h : c.cacheCoins.lookup o = some e) :
    (c.addFlags o d f).cacheCoins.lookup o =
      some { e with dirty := e.dirty || d, fresh := e.fresh || f } := by
  rw [addFlags, h, AList.lookup_insert]

theorem addFlags_of_lookup_eq_none (d f : Bool) (h : c.cacheCoins.lookup o = none) :
    c.addFlags o d f = c := by
  rw [addFlags, h]

theorem lookup_addFlags_ne (d f : Bool) (h : o' ≠ o) :
    (c.addFlags o d f).cacheCoins.lookup o' = c.cacheCoins.lookup o' := by
  unfold addFlags
  split
  · rfl
  · exact AList.lookup_insert_ne h

theorem lookup_setClean_self_of_some (h : c.cacheCoins.lookup o = some e) :
    (c.setClean o).cacheCoins.lookup o = some { e with dirty := false, fresh := false } := by
  unfold setClean
  rw [h]
  dsimp only
  split_ifs with hf
  · rw [AList.lookup_insert]
  · -- an unflagged entry has both flags clear already
    simp only [CCoinsCacheEntry.IsFlagged, Bool.or_eq_true, not_or, Bool.not_eq_true] at hf
    obtain ⟨hd, hf⟩ := hf
    cases e
    simp only at hd hf
    rw [h, hd, hf]

theorem lookup_setClean_ne (h : o' ≠ o) :
    (c.setClean o).cacheCoins.lookup o' = c.cacheCoins.lookup o' := by
  unfold setClean
  split
  · rfl
  · split_ifs
    · exact AList.lookup_insert_ne h
    · rfl

theorem lookup_eraseEntry_self : (c.eraseEntry o).cacheCoins.lookup o = none := by
  unfold eraseEntry
  split
  · assumption
  · exact AList.lookup_erase _ _

theorem lookup_eraseEntry_ne (h : o' ≠ o) :
    (c.eraseEntry o).cacheCoins.lookup o' = c.cacheCoins.lookup o' := by
  unfold eraseEntry
  split
  · rfl
  · exact AList.lookup_erase_ne h

@[simp] theorem cachedCoinsUsage_setCoin :
    (c.setCoin o coin).cachedCoinsUsage = c.cachedCoinsUsage := rfl

@[simp] theorem cachedCoinsUsage_addFlags (d f : Bool) :
    (c.addFlags o d f).cachedCoinsUsage = c.cachedCoinsUsage := by
  unfold addFlags
  split <;> rfl

@[simp] theorem cachedCoinsUsage_setClean : (c.setClean o).cachedCoinsUsage = c.cachedCoinsUsage := by
  unfold setClean
  split
  · rfl
  · split_ifs <;> rfl

@[simp] theorem cachedCoinsUsage_eraseEntry :
    (c.eraseEntry o).cachedCoinsUsage = c.cachedCoinsUsage := by
  unfold eraseEntry
  split <;> rfl

@[simp] theorem cachedCoinsUsage_addUsage (n : ℕ) :
    (c.addUsage n).cachedCoinsUsage = c.cachedCoinsUsage + n := rfl

@[simp] theorem cachedCoinsUsage_subUsage (n : ℕ) :
    (c.subUsage n).cachedCoinsUsage = c.cachedCoinsUsage - n := rfl

@[simp] theorem cacheCoins_addUsage (n : ℕ) : (c.addUsage n).cacheCoins = c.cacheCoins := rfl
@[simp] theorem cacheCoins_subUsage (n : ℕ) : (c.subUsage n).cacheCoins = c.cacheCoins := rfl
@[simp] theorem flagged_addUsage (n : ℕ) : (c.addUsage n).flagged = c.flagged := rfl
@[simp] theorem flagged_subUsage (n : ℕ) : (c.subUsage n).flagged = c.flagged := rfl
@[simp] theorem isFlagged_addUsage (n : ℕ) : (c.addUsage n).isFlagged = c.isFlagged := rfl
@[simp] theorem isFlagged_subUsage (n : ℕ) : (c.subUsage n).isFlagged = c.isFlagged := rfl

end Helpers

/-! ### The list of flagged entries -/

section Linked

variable {c} {c' : CCoinsViewCache}

/-- A change that keeps the list and every key's flag keeps `LinkedOk`. -/
theorem LinkedOk.of_isFlagged_eq (h : c.LinkedOk) (hl : c'.flagged = c.flagged)
    (hf : ∀ o', c'.isFlagged o' = c.isFlagged o') : c'.LinkedOk :=
  ⟨hl ▸ h.1, fun o' => by rw [hl, hf]; exact h.2 o'⟩

/-- Flagging the entry at `o`, and linking it at the end if it was not linked, keeps
`LinkedOk`. -/
theorem LinkedOk.of_flag (h : c.LinkedOk) (hne : ∀ o', o' ≠ o → c'.isFlagged o' = c.isFlagged o')
    (hnow : c'.isFlagged o = true)
    (hl : c'.flagged = if c.isFlagged o then c.flagged else c.flagged ++ [o]) : c'.LinkedOk := by
  by_cases hwas : c.isFlagged o = true
  · rw [if_pos hwas] at hl
    refine h.of_isFlagged_eq hl fun o' => ?_
    by_cases ho : o' = o
    · rw [ho, hnow, hwas]
    · exact hne o' ho
  · rw [if_neg hwas] at hl
    have hno : o ∉ c.flagged := fun hm => hwas ((h.2 o).mp hm)
    refine ⟨hl ▸ List.Nodup.append h.1 (List.nodup_singleton o) (by simpa using hno), fun o' => ?_⟩
    rw [hl, List.mem_append, List.mem_singleton]
    by_cases ho : o' = o
    · simp [ho, hnow]
    · rw [hne o' ho, ← h.2 o']
      simp [ho]

/-- Unflagging the entry at `o`, and unlinking it if it was linked, keeps `LinkedOk`. -/
theorem LinkedOk.of_unflag (h : c.LinkedOk) (hne : ∀ o', o' ≠ o → c'.isFlagged o' = c.isFlagged o')
    (hnow : c'.isFlagged o = false)
    (hl : c'.flagged = if c.isFlagged o then c.flagged.erase o else c.flagged) : c'.LinkedOk := by
  by_cases hwas : c.isFlagged o = true
  · rw [if_pos hwas] at hl
    refine ⟨hl ▸ h.1.erase o, fun o' => ?_⟩
    rw [hl, h.1.mem_erase_iff]
    by_cases ho : o' = o
    · simp [ho, hnow]
    · rw [hne o' ho, ← h.2 o']
      simp [ho]
  · rw [if_neg hwas] at hl
    refine h.of_isFlagged_eq hl fun o' => ?_
    by_cases ho : o' = o
    · rw [ho, hnow]
      simpa using hwas
    · exact hne o' ho

end Linked

section LinkedHelpers

variable {c} (coin : Coin)

theorem isFlagged_setCoin (o' : COutPoint) :
    (c.setCoin o coin).isFlagged o' = c.isFlagged o' := by
  by_cases ho : o' = o
  · subst ho
    cases h : c.cacheCoins.lookup o' with
    | none =>
      rw [isFlagged_of_lookup_eq_none c h, isFlagged_of_lookup_eq_some _
        (lookup_setCoin_self_of_none c coin h)]
      rfl
    | some e =>
      rw [isFlagged_of_lookup_eq_some c h, isFlagged_of_lookup_eq_some _
        (lookup_setCoin_self_of_some c coin h)]
      rfl
  · rw [isFlagged, isFlagged, lookup_setCoin_ne c coin ho]

theorem LinkedOk.setCoin (h : c.LinkedOk) : (c.setCoin o coin).LinkedOk :=
  h.of_isFlagged_eq rfl (isFlagged_setCoin coin)

theorem isFlagged_addFlags_ne (d f : Bool) (ho : o' ≠ o) :
    (c.addFlags o d f).isFlagged o' = c.isFlagged o' := by
  rw [isFlagged, isFlagged, lookup_addFlags_ne c d f ho]

theorem LinkedOk.addFlags (h : c.LinkedOk) (d f : Bool) (hdf : (d || f) = true) :
    (c.addFlags o d f).LinkedOk := by
  cases he : c.cacheCoins.lookup o with
  | none => rwa [addFlags_of_lookup_eq_none c d f he]
  | some e =>
    refine h.of_flag (fun o' ho => isFlagged_addFlags_ne d f ho) ?_ ?_
    · rw [isFlagged_of_lookup_eq_some _ (lookup_addFlags_self_of_some c d f he)]
      revert hdf
      cases d <;> cases f <;> simp [CCoinsCacheEntry.IsFlagged]
    · rw [isFlagged_of_lookup_eq_some c he, CCoinsViewCache.addFlags, he]

theorem LinkedOk.setDirty (h : c.LinkedOk) : (c.setDirty o).LinkedOk :=
  h.addFlags true false rfl

theorem LinkedOk.setFresh (h : c.LinkedOk) : (c.setFresh o).LinkedOk :=
  h.addFlags false true rfl

theorem LinkedOk.setClean (h : c.LinkedOk) : (c.setClean o).LinkedOk := by
  cases he : c.cacheCoins.lookup o with
  | none =>
    rw [CCoinsViewCache.setClean, he]
    exact h
  | some e =>
    refine h.of_unflag (fun o' ho => by rw [isFlagged, isFlagged, lookup_setClean_ne c ho]) ?_ ?_
    · rw [isFlagged_of_lookup_eq_some _ (lookup_setClean_self_of_some c he)]
      rfl
    · rw [isFlagged_of_lookup_eq_some c he, CCoinsViewCache.setClean, he]
      dsimp only
      split_ifs <;> rfl

theorem LinkedOk.eraseEntry (h : c.LinkedOk) : (c.eraseEntry o).LinkedOk := by
  cases he : c.cacheCoins.lookup o with
  | none =>
    rw [CCoinsViewCache.eraseEntry, he]
    exact h
  | some e =>
    refine h.of_unflag (fun o' ho => by rw [isFlagged, isFlagged, lookup_eraseEntry_ne c ho])
      (isFlagged_of_lookup_eq_none _ (lookup_eraseEntry_self c)) ?_
    rw [isFlagged_of_lookup_eq_some c he, CCoinsViewCache.eraseEntry, he]

theorem LinkedOk.addUsage (h : c.LinkedOk) (n : ℕ) : (c.addUsage n).LinkedOk := h

theorem LinkedOk.subUsage (h : c.LinkedOk) (n : ℕ) : (c.subUsage n).LinkedOk := h

end LinkedHelpers

/-! ### The usage of the entries -/

section Usage

variable {e : CCoinsCacheEntry} (coin : Coin)

theorem totalUsage_setCoin :
    totalUsage (c.setCoin o coin).cacheCoins + usageAt c.cacheCoins o =
      totalUsage c.cacheCoins + coin.DynamicMemoryUsage := by
  unfold totalUsage usageAt setCoin
  dsimp only
  rw [KeyMap.total_insert_add]
  cases c.cacheCoins.lookup o <;> rfl

theorem totalUsage_addFlags (d f : Bool) :
    totalUsage (c.addFlags o d f).cacheCoins = totalUsage c.cacheCoins := by
  unfold addFlags
  split
  · rfl
  · rename_i e he
    have := KeyMap.total_insert_add (fun e : CCoinsCacheEntry => e.coin.DynamicMemoryUsage)
      c.cacheCoins o { e with dirty := e.dirty || d, fresh := e.fresh || f }
    rw [KeyMap.weightAt_of_lookup_eq_some he] at this
    exact Nat.add_right_cancel this

theorem totalUsage_setClean : totalUsage (c.setClean o).cacheCoins = totalUsage c.cacheCoins := by
  unfold setClean
  split
  · rfl
  · rename_i e he
    split_ifs
    · have := KeyMap.total_insert_add (fun e : CCoinsCacheEntry => e.coin.DynamicMemoryUsage)
        c.cacheCoins o { e with dirty := false, fresh := false }
      rw [KeyMap.weightAt_of_lookup_eq_some he] at this
      exact Nat.add_right_cancel this
    · rfl

theorem totalUsage_eraseEntry :
    totalUsage (c.eraseEntry o).cacheCoins + usageAt c.cacheCoins o = totalUsage c.cacheCoins := by
  unfold eraseEntry
  split
  · rename_i he
    rw [usageAt, KeyMap.weightAt_of_lookup_eq_none he, Nat.add_zero]
  · exact KeyMap.total_erase_add _ _ _

theorem usageAt_of_lookup_eq_some (h : c.cacheCoins.lookup o = some e) :
    usageAt c.cacheCoins o = e.coin.DynamicMemoryUsage :=
  KeyMap.weightAt_of_lookup_eq_some h

theorem usageAt_of_lookup_eq_none (h : c.cacheCoins.lookup o = none) :
    usageAt c.cacheCoins o = 0 :=
  KeyMap.weightAt_of_lookup_eq_none h

theorem usageAt_le_totalUsage (o : COutPoint) : usageAt c.cacheCoins o ≤ totalUsage c.cacheCoins := by
  have := KeyMap.total_erase_add (fun e : CCoinsCacheEntry => e.coin.DynamicMemoryUsage)
    c.cacheCoins o
  unfold usageAt totalUsage
  omega

end Usage

end CCoinsViewCache

namespace Coin

/-- The coin if it is unspent: what a view answers for an entry that holds it. -/
def asUnspent (c : Coin) : Option Coin :=
  if c.IsSpent then none else some c

@[simp] theorem asUnspent_empty : empty.asUnspent = none := rfl

theorem asUnspent_of_not_spent {c : Coin} (h : c.IsSpent = false) : c.asUnspent = some c := by
  rw [asUnspent, h]
  rfl

theorem asUnspent_of_spent {c : Coin} (h : c.IsSpent = true) : c.asUnspent = none := by
  rw [asUnspent, h]
  rfl

theorem IsSpent_of_asUnspent_eq_some {c c' : Coin} (h : c.asUnspent = some c') :
    c.IsSpent = false ∧ c' = c := by
  unfold asUnspent at h
  split_ifs at h with hs
  exact ⟨by simpa using hs, (Option.some.inj h).symm⟩

/-- A map of coins read through `asUnspent` holds only unspent coins. -/
theorem IsSpent_of_bind_asUnspent {m : Option Coin} {coin : Coin}
    (h : m.bind asUnspent = some coin) : coin.IsSpent = false := by
  obtain ⟨c, -, hc⟩ := Option.bind_eq_some_iff.mp h
  rw [(IsSpent_of_asUnspent_eq_some hc).2]
  exact (IsSpent_of_asUnspent_eq_some hc).1

end Coin

namespace CoinsView

/-- What the stack of views holds at `o`: the unspent coin of the topmost entry, none if that
entry is spent, none if no layer has one. -/
def lookup : CoinsView → COutPoint → Option Coin
  | .db d, o => (d.coins.lookup o).bind Coin.asUnspent
  | .bottom b, o => (b.m_data.lookup o).bind Coin.asUnspent
  | .cache c base, o =>
    match c.cacheCoins.lookup o with
    | some e => e.coin.asUnspent
    | none => base.lookup o

variable {c c' : CCoinsViewCache} {base base' : CoinsView} {o o' : COutPoint}
  {e : CCoinsCacheEntry}

theorem lookup_cache_of_some (h : c.cacheCoins.lookup o = some e) :
    (CoinsView.cache c base).lookup o = e.coin.asUnspent := by
  rw [lookup, h]

theorem lookup_cache_of_none (h : c.cacheCoins.lookup o = none) :
    (CoinsView.cache c base).lookup o = base.lookup o := by
  rw [lookup, h]

/-- A cache that agrees at `o` over a base that agrees at `o` holds the same there. -/
theorem lookup_cache_congr (hc : c'.cacheCoins.lookup o = c.cacheCoins.lookup o)
    (hb : base'.lookup o = base.lookup o) :
    (CoinsView.cache c' base').lookup o = (CoinsView.cache c base).lookup o := by
  rw [lookup, lookup, hc, hb]

/-- A view holds only unspent coins. -/
theorem IsSpent_of_lookup_eq_some {coin : Coin} :
    ∀ {v : CoinsView}, v.lookup o = some coin → coin.IsSpent = false
  | .db _, h => Coin.IsSpent_of_bind_asUnspent h
  | .bottom _, h => Coin.IsSpent_of_bind_asUnspent h
  | .cache c base, h => by
    cases he : c.cacheCoins.lookup o with
    | none =>
      rw [lookup_cache_of_none he] at h
      exact IsSpent_of_lookup_eq_some h
    | some e =>
      rw [lookup_cache_of_some he] at h
      rw [(Coin.IsSpent_of_asUnspent_eq_some h).2]
      exact (Coin.IsSpent_of_asUnspent_eq_some h).1

end CoinsView

/-! ### The invariant -/

/-- The invariant of one entry over `bl`, what its base holds at its outpoint. -/
structure EntryInv (bl : Option Coin) (e : CCoinsCacheEntry) : Prop where
  attr : e.attrOk = true
  /-- FRESH: the base has no unspent coin here. -/
  fresh : e.fresh = true → bl = none
  /-- Not DIRTY and unspent: the base holds the same coin. -/
  clean : e.dirty = false → e.coin.IsSpent = false → bl = some e.coin

/-- The invariant of a cache over a base that holds `bl`. -/
structure CacheInv (c : CCoinsViewCache) (bl : COutPoint → Option Coin) : Prop where
  entry : ∀ o e, c.cacheCoins.lookup o = some e → EntryInv (bl o) e
  linked : c.LinkedOk
  usage : c.UsageOk

namespace CoinsView

/-- Every cache of the stack keeps `CacheInv` over the views below it. -/
def Valid : CoinsView → Prop
  | .db _ => True
  | .bottom _ => True
  | .cache c base => CacheInv c base.lookup ∧ base.Valid

end CoinsView

namespace EntryInv

variable {bl : Option Coin} {e : CCoinsCacheEntry}

/-- An entry without flags is unspent and holds what the base holds. -/
theorem of_not_flagged (h : EntryInv bl e) (hd : e.dirty = false) (hf : e.fresh = false) :
    e.coin.IsSpent = false ∧ bl = some e.coin := by
  have hattr := (CCoinsCacheEntry.attrOk_iff e).mp h.attr
  have hs : e.coin.IsSpent = false := by
    cases hsp : e.coin.IsSpent
    · rfl
    · exact absurd ⟨hsp, hd, hf⟩ hattr.2.1
  exact ⟨hs, h.clean hd hs⟩

/-- A spent entry that is not DIRTY is FRESH, so the base holds nothing there. -/
theorem of_spent_not_dirty (h : EntryInv bl e) (hs : e.coin.IsSpent = true) (hd : e.dirty = false) :
    e.fresh = true ∧ bl = none := by
  have hattr := (CCoinsCacheEntry.attrOk_iff e).mp h.attr
  have hf : e.fresh = true := by
    cases hfr : e.fresh
    · exact absurd ⟨hs, hd, hfr⟩ hattr.2.1
    · rfl
  exact ⟨hf, h.fresh hf⟩

end EntryInv

namespace CacheInv

variable {c c' : CCoinsViewCache} {bl bl' : COutPoint → Option Coin} {o : COutPoint}

/-- A change of the entry at `o` keeps the invariant if the new entry keeps its own, the base
is unchanged elsewhere, and the list and the usage are right. -/
theorem of_changesAt (h : CacheInv c bl)
    (hne : ∀ o', o' ≠ o → c'.cacheCoins.lookup o' = c.cacheCoins.lookup o')
    (hbl : ∀ o', o' ≠ o → bl' o' = bl o')
    (ho : ∀ e, c'.cacheCoins.lookup o = some e → EntryInv (bl' o) e)
    (hl : c'.LinkedOk) (hu : c'.UsageOk) : CacheInv c' bl' where
  entry o' e he := by
    by_cases h' : o' = o
    · subst h'
      exact ho e he
    · rw [hbl o' h']
      exact h.entry o' e (by rw [← hne o' h']; exact he)
  linked := hl
  usage := hu

/-- The invariant only reads what the base holds. -/
theorem of_base_eq (h : CacheInv c bl) (hb : bl' = bl) : CacheInv c bl' :=
  hb ▸ h

/-- An empty cache keeps the invariant over any base. -/
theorem empty (bl : COutPoint → Option Coin) : CacheInv CCoinsViewCache.empty bl where
  entry o e he := by cases he
  linked := ⟨List.nodup_nil, fun o => by
    rw [CCoinsViewCache.isFlagged_of_lookup_eq_none CCoinsViewCache.empty (o := o) rfl]
    exact iff_of_false List.not_mem_nil Bool.false_ne_true⟩
  usage := rfl

end CacheInv

end Tenscoin
