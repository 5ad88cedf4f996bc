import Mathlib
import Tenscoin.Lib.Except
import Tenscoin.Coins.BatchWrite

/-!
# The stack of caches refines a stack of maps

The fuzz harness `coinscache_sim` (`test/fuzz/coinscache_sim.cpp`) runs operations on a stack of
caches over its own base view, `CoinsViewBottom` (`CoinsView.OnBottom`: the bottom and the caches
accept every write, where the database asserts on its best block, which the harness never sets),
and on a simulation of it: one level per view, each mapping every outpoint to `NONE`, `UNSPENT`
with a coin, or `SPENT`, searched from a level down for the first entry that is not `NONE`
(`CoinsCacheSim.lookup`). `AddCoin` and `SpendCoin` write the top level, `Flush` and
`Sync` copy it into the level below and wipe it, and a push or a pop adds or drops the top level.
The simulation has none of the flags: that a spent FRESH entry may vanish, or an entry be fetched,
cleaned or uncached, is invisible in it.

The two are related by `CoinsCacheSim.Refines`: the stack keeps its invariant, and each of its
views holds what the simulation holds from the corresponding level down (`CoinsView.levels`,
`CoinsCacheSim.levels`). One operation that keeps the harness's contract for it
(`CoinsCacheSim.Allowed`) keeps the relation and replies as the simulation does
(`CoinsCacheSim.realStep_simStep`); the cases are the methods' lemmas, with `Flush` and `Sync`
from `CacheView.Flush_spec` and `CacheView.Sync_spec`. By induction on the operations the same holds
of a whole run (`CoinsCacheSim.realRun_simRun`), with the stack kept on the bottom
(`CoinsView.OnBottom.BatchWrite`), and as the invariant passes `SanityCheck`, every
cache passes it after every operation (`CoinsCacheSim.coinsCache_refines_sim`). A run never fails:
no assertion, and no exception from `BatchWrite` or `Sync`.

Not modelled: the harness's limit of four caches, and its operations that compare nothing
(`HaveCoinInCache`, `GetCacheSize`, `DynamicMemoryUsage`, `ReallocateCache`, the height changes).
-/

namespace Tenscoin

namespace CoinsView

/-- `caches.back()`: the top cache of the stack; the harness pushes a new one over the base at the
start of an operation when there is none. -/
def top : CoinsView → CacheView
  | .db d => ⟨CCoinsViewCache.empty, .db d⟩
  | .bottom b => ⟨CCoinsViewCache.empty, .bottom b⟩
  | .cache c base => ⟨c, base⟩

/-- `SanityCheck` of every cache of the stack. -/
def SanityCheck : CoinsView → Bool
  | .db _ => true
  | .bottom _ => true
  | .cache c base => c.SanityCheck && base.SanityCheck

/-- Every cache of a stack that keeps the invariant passes `SanityCheck`. -/
theorem Valid.SanityCheck : ∀ {v : CoinsView}, v.Valid → v.SanityCheck = true
  | .db _, _ => rfl
  | .bottom _, _ => rfl
  | .cache _ _, hv => by
    rw [CoinsView.SanityCheck, hv.1.SanityCheck, Valid.SanityCheck hv.2]
    rfl

/-- An empty cache holds what its base holds. -/
theorem lookup_cache_empty (base : CoinsView) :
    (CoinsView.cache CCoinsViewCache.empty base).lookup = base.lookup :=
  funext fun _ => lookup_cache_of_none rfl

/-- A fetch through a cache leaves a cache that holds what it held, over the base as it was or
as the base's own read leaves it. -/
theorem FetchCoin_cache (c : CCoinsViewCache) (base : CoinsView) (o : COutPoint) :
    (CoinsView.cache (c.FetchCoin o base.GetCoin base).2.1
        (c.FetchCoin o base.GetCoin base).2.2).lookup = (CoinsView.cache c base).lookup ∧
      ((c.FetchCoin o base.GetCoin base).2.2 = base ∨
        (c.FetchCoin o base.GetCoin base).2.2 = (base.GetCoin o).2) := by
  obtain ⟨hg, hl, -⟩ := GetCoin_spec base o
  rcases hr : c.FetchCoin o base.GetCoin base with ⟨r, c', base'⟩
  obtain ⟨-, -, hr3, -, hr5, -⟩ := CCoinsViewCache.FetchCoin_spec hg hl hr
  exact ⟨hr3, hr5⟩

/-- **A read changes what no view of the stack holds**, although it fetches into every cache. -/
theorem levels_GetCoin : ∀ (v : CoinsView) (o : COutPoint), (v.GetCoin o).2.levels = v.levels
  | .db _, _ => rfl
  | .bottom _, _ => rfl
  | .cache c base, o => by
    obtain ⟨hlk, hbase⟩ := FetchCoin_cache c base o
    show (CoinsView.cache (c.FetchCoin o base.GetCoin base).2.1
      (c.FetchCoin o base.GetCoin base).2.2).levels = _
    rw [levels, levels, hlk]
    -- the base is left alone, or read in turn
    rcases hbase with h | h
    · rw [h]
    · rw [h, levels_GetCoin base o]

/-- The stack stands on the harness's `CoinsViewBottom`. -/
def OnBottom : CoinsView → Prop
  | .db _ => False
  | .bottom _ => True
  | .cache _ base => base.OnBottom

/-- The harness's bottom, and a cache, accept any best block. -/
theorem OnBottom.accepts : ∀ {w : CoinsView}, w.OnBottom → ∀ hashBlock, w.Accepts hashBlock
  | .bottom _, _, _ => trivial
  | .cache _ _, _, _ => trivial

theorem OnBottom.top_base : ∀ {v : CoinsView}, v.OnBottom → v.top.base.OnBottom
  | .bottom _, _ => trivial
  | .cache _ _, h => h

/-- A read keeps the stack on the bottom, although it fetches into every cache. -/
theorem OnBottom.GetCoin : ∀ {v : CoinsView} (o : COutPoint), v.OnBottom → (v.GetCoin o).2.OnBottom
  | .bottom _, _, _ => trivial
  | .cache c base, o, h => by
    show (c.FetchCoin o base.GetCoin base).2.2.OnBottom
    -- the base is left alone, or read in turn
    rcases (FetchCoin_cache c base o).2 with hb | hb
    · rw [hb]
      exact h
    · rw [hb]
      exact OnBottom.GetCoin o h

/-- A write into the bottom, or into a cache over it, keeps the stack on the bottom. -/
theorem OnBottom.BatchWrite {w w' : CoinsView} {cursor : List (COutPoint × CCoinsCacheEntry)}
    {hashBlock : Uint256} (h : w.BatchWrite cursor hashBlock = .ok w') (hw : w.OnBottom) :
    w'.OnBottom := by
  cases w with
  | db _ => exact hw.elim
  | bottom b =>
    obtain ⟨b', -, hb'⟩ := Except.bind_eq_ok h
    cases hb'
    trivial
  | cache c base =>
    obtain ⟨c', -, hc'⟩ := Except.bind_eq_ok h
    cases hc'
    exact hw

end CoinsView

namespace CacheView

variable {v : CacheView} {o : COutPoint}

theorem levels_toView (v : CacheView) : v.toView.levels = v.lookup :: v.base.levels := rfl

theorem Valid.top {w : CoinsView} (hw : w.Valid) : w.top.Valid := by
  cases w with
  | db d => exact ⟨CacheInv.empty _, trivial⟩
  | bottom b => exact ⟨CacheInv.empty _, trivial⟩
  | cache c base => exact hw

/-- `FetchCoin` leaves the base alone, or as the base's own read leaves it. -/
theorem base_FetchCoin :
    (v.FetchCoin o).2.base = v.base ∨ (v.FetchCoin o).2.base = (v.base.GetCoin o).2 :=
  (CoinsView.FetchCoin_cache v.cache v.base o).2

/-- `FetchCoin` changes what no view of the stack holds. -/
theorem levels_FetchCoin : (v.FetchCoin o).2.base.levels = v.base.levels := by
  rcases base_FetchCoin (v := v) (o := o) with h | h
  · rw [h]
  · rw [h, CoinsView.levels_GetCoin v.base o]

theorem OnBottom_FetchCoin (hb : v.base.OnBottom) : (v.FetchCoin o).2.base.OnBottom := by
  rcases base_FetchCoin (v := v) (o := o) with h | h
  · rw [h]
    exact hb
  · rw [h]
    exact hb.GetCoin o

/-- `Flush` and `Sync` keep the stack on the bottom. -/
theorem OnBottom_Flush {fOk : Bool} {t' : CacheView} (h : v.Flush = .ok (fOk, t'))
    (hb : v.base.OnBottom) : t'.base.OnBottom := by
  obtain ⟨w', hw', ht'⟩ := Except.bind_eq_ok h
  cases ht'
  exact hb.BatchWrite hw'

theorem OnBottom_Sync {fOk : Bool} {t' : CacheView} (h : v.Sync = .ok (fOk, t'))
    (hb : v.base.OnBottom) : t'.base.OnBottom := by
  obtain ⟨w', hw', ht'⟩ := Except.bind_eq_ok h
  simp only [ne_eq, ite_not] at ht'
  split at ht'
  · cases ht'
    exact hb.BatchWrite hw'
  · cases ht'

/-- `SpendCoin` leaves the base as its fetch does. -/
theorem base_SpendCoin : (v.SpendCoin o).2.2.base = (v.FetchCoin o).2.base := by
  unfold SpendCoin
  dsimp only
  split
  · rfl
  · split <;> rfl

end CacheView

theorem Coin.asUnspent_getD_empty (m : Option Coin) :
    (m.getD Coin.empty).asUnspent = m.bind Coin.asUnspent := by
  cases m <;> rfl

namespace CoinsCacheSim

/-- `EntryType` with the coin of an `UNSPENT` entry: the harness's `CacheEntry`, its coin index
and height read as the coin they stand for. -/
inductive CacheEntry where
  | NONE
  | UNSPENT (coin : Coin)
  | SPENT
  deriving DecidableEq, Repr

/-- `CacheLevel`: an entry for each outpoint. -/
abbrev CacheLevel := COutPoint → CacheEntry

/-- `CacheLevel::Wipe`. -/
def wipe : CacheLevel := fun _ => .NONE

/-- The harness's `lookup` from a level down, the levels listed top first: the coin of the first
`UNSPENT` entry; none at a `SPENT` one, or below the bottom. -/
def lookup : List CacheLevel → COutPoint → Option Coin
  | [], _ => none
  | l :: ls, o =>
    match l o with
    | .UNSPENT coin => some coin
    | .SPENT => none
    | .NONE => lookup ls o

/-- What the simulation holds from each level down. -/
def levels : List CacheLevel → List (COutPoint → Option Coin)
  | [] => []
  | l :: ls => lookup (l :: ls) :: levels ls

/-- The harness's `flush`: the entries of the top level that are not `NONE` are copied into the
level below, and the top level is wiped. `Sync` is simulated the same way. -/
def flush : List CacheLevel → List CacheLevel
  | l :: l' :: ls => wipe :: (fun o => if l o = .NONE then l' o else l o) :: ls
  | ls => ls

/-- The harness pushes a wiped level at the start of an operation when there is no cache. -/
def ensureTop : List CacheLevel → List CacheLevel
  | [b] => [wipe, b]
  | ls => ls

/-- An entry written into the top level. -/
def setTop (o : COutPoint) (x : CacheEntry) : List CacheLevel → List CacheLevel
  | l :: ls => Function.update l o x :: ls
  | [] => []

/-- The operations of the harness that compare the stack with the simulation or change them. -/
inductive Op where
  | GetCoin (o : COutPoint)
  | HaveCoin (o : COutPoint)
  | AccessCoin (o : COutPoint)
  | AddCoin (o : COutPoint) (coin : Coin) (possible_overwrite : Bool)
  | SpendCoin (o : COutPoint) (moveout : Bool)
  | Uncache (o : COutPoint)
  | Flush
  | Sync
  | Push
  | Pop
  deriving DecidableEq, Repr

/-- What the harness compares after an operation. -/
inductive Reply where
  | unit
  | coin (c : Option Coin)
  | flag (b : Bool)
  deriving DecidableEq, Repr

/-- One operation on the simulation: the reply it expects, and the levels after. -/
def simStep (σ : List CacheLevel) (op : Op) : Reply × List CacheLevel :=
  let σ := ensureTop σ
  match op with
  | .GetCoin o => (.coin (lookup σ o), σ)
  | .HaveCoin o => (.flag (lookup σ o).isSome, σ)
  | .AccessCoin o => (.coin (lookup σ o), σ)
  | .AddCoin o coin _ =>
    -- the harness's coins all have spendable scripts; `AddCoin` adds none that has not
    (.unit, if coin.out.scriptPubKey.IsUnspendable then σ else setTop o (.UNSPENT coin) σ)
  | .SpendCoin o moveout => (if moveout then .coin (lookup σ o) else .unit, setTop o .SPENT σ)
  | .Uncache _ => (.unit, σ)
  | .Flush => (.flag true, flush σ)
  | .Sync => (.flag true, flush σ)
  | .Push => (.unit, wipe :: σ)
  | .Pop => (.unit, σ.tail)

/-- One operation on the stack of caches: what the harness compares, and the stack after; a failed
assertion or an exception is an error. -/
def realStep (v : CoinsView) (op : Op) : Except String (Reply × CoinsView) :=
  let t := v.top
  match op with
  | .GetCoin o => pure (.coin (t.GetCoin o).1, (t.GetCoin o).2.toView)
  | .HaveCoin o => pure (.flag (t.HaveCoin o).1, (t.HaveCoin o).2.toView)
  | .AccessCoin o => pure (.coin (t.AccessCoin o).1.asUnspent, (t.AccessCoin o).2.toView)
  | .AddCoin o coin possible_overwrite => do
    let t ← t.AddCoin o coin possible_overwrite
    pure (.unit, t.toView)
  | .SpendCoin o moveout =>
    let r := t.SpendCoin o
    -- `Coin realcoin; SpendCoin(o, &realcoin)`: an empty coin unless one is moved out
    pure (if moveout then .coin (r.2.1.getD Coin.empty).asUnspent else .unit, r.2.2.toView)
  | .Uncache o => pure (.unit, (t.Uncache o).toView)
  | .Flush => do
    let (fOk, t) ← t.Flush
    pure (.flag fOk, t.toView)
  | .Sync => do
    let (fOk, t) ← t.Sync
    pure (.flag fOk, t.toView)
  | .Push => pure (.unit, .cache CCoinsViewCache.empty t.toView)
  | .Pop => if t.cache.SanityCheck then pure (.unit, t.base) else throw "assert(SanityCheck)"

/-- The operations in order on the stack, with their replies; the first error ends the run. -/
def realRun : CoinsView → List Op → Except String (List Reply × CoinsView)
  | v, [] => pure ([], v)
  | v, op :: ops => do
    let (r, v) ← realStep v op
    let (rs, v) ← realRun v ops
    pure (r :: rs, v)

/-- The operations in order on the simulation, with the replies it expects. -/
def simRun : List CacheLevel → List Op → List Reply × List CacheLevel
  | σ, [] => ([], σ)
  | σ, op :: ops =>
    let r := simStep σ op
    let rs := simRun r.2 ops
    (r.1 :: rs.1, rs.2)

/-- The harness's contract for an operation: `AddCoin` adds an unspent coin, with
`possible_overwrite` false only where the simulation holds nothing. -/
def Allowed (σ : List CacheLevel) : Op → Bool
  | .AddCoin o coin possible_overwrite =>
    !coin.IsSpent && (possible_overwrite || (lookup σ o).isNone)
  | _ => true

/-- Every operation of the run keeps the contract in the simulation's state at its turn. -/
def AllowedRun : List CacheLevel → List Op → Bool
  | _, [] => true
  | σ, op :: ops => Allowed σ op && AllowedRun (simStep σ op).2 ops

/-- **The refinement relation**: the stack keeps its invariant, and each of its views holds what
the simulation holds from the corresponding level down. -/
structure Refines (v : CoinsView) (σ : List CacheLevel) : Prop where
  valid : v.Valid
  levels_eq : v.levels = levels σ

/-! ### The simulation -/

theorem lookup_wipe_cons (ls : List CacheLevel) : lookup (wipe :: ls) = lookup ls := rfl

/-- The level `flush` makes holds what the two it merges held. -/
theorem lookup_merge (l l' : CacheLevel) (ls : List CacheLevel) :
    lookup ((fun o => if l o = .NONE then l' o else l o) :: ls) = lookup (l :: l' :: ls) := by
  funext o
  show (match (if l o = .NONE then l' o else l o) with
    | .UNSPENT coin => some coin | .SPENT => none | .NONE => lookup ls o) = _
  cases h : l o with
  | NONE => rw [if_pos rfl]; simp only [lookup, h]
  | UNSPENT coin => rw [if_neg (by simp)]; simp only [lookup, h]
  | SPENT => rw [if_neg (by simp)]; simp only [lookup, h]

/-- An entry written into the top level is what the simulation then holds there. -/
theorem lookup_update_cons (l : CacheLevel) (ls : List CacheLevel) (o : COutPoint)
    (x : CacheEntry) :
    lookup (Function.update l o x :: ls) =
      Function.update (lookup (l :: ls)) o (lookup ((fun _ => x) :: ls) o) := by
  funext o'
  by_cases ho : o' = o
  · subst ho
    rw [Function.update_self]
    simp only [lookup, Function.update_self]
  · rw [Function.update_of_ne ho]
    simp only [lookup, Function.update_of_ne ho]

theorem levels_length : ∀ σ : List CacheLevel, (levels σ).length = σ.length
  | [] => rfl
  | _ :: ls => congrArg Nat.succ (levels_length ls)

/-! ### The relation, level by level -/

namespace Refines

variable {v : CoinsView} {σ : List CacheLevel}

/-- The stack holds what the simulation holds. -/
theorem lookup_eq (h : Refines v σ) : v.lookup = lookup σ := by
  have hl := h.levels_eq
  rw [CoinsView.levels_eq_cons] at hl
  cases σ with
  | nil => cases hl
  | cons l ls =>
    rw [CoinsCacheSim.levels, List.cons.injEq] at hl
    exact hl.1

/-- The relation for a cache over a base, by the levels: the cache's over the top level and the
base's over the levels below. -/
theorem toView_iff {t : CacheView} {l : CacheLevel} {ls : List CacheLevel} :
    Refines t.toView (l :: ls) ↔ t.Valid ∧ t.lookup = lookup (l :: ls) ∧ t.base.levels = levels ls := by
  constructor
  · rintro ⟨hv, hl⟩
    rw [CacheView.levels_toView, CoinsCacheSim.levels, List.cons.injEq] at hl
    exact ⟨hv, hl.1, hl.2⟩
  · rintro ⟨hv, hl, hb⟩
    exact ⟨hv, by rw [CacheView.levels_toView, CoinsCacheSim.levels, hl, hb]⟩

/-- The simulation of a cache over a base has a level for each. -/
theorem exists_cons_cons {t : CacheView} (h : Refines t.toView σ) :
    ∃ l l' ls, σ = l :: l' :: ls := by
  have hlen := congrArg List.length h.levels_eq
  rw [levels_length, CacheView.levels_toView, List.length_cons, CoinsView.levels_eq_cons,
    List.length_cons] at hlen
  match σ, hlen with
  | l :: l' :: ls, _ => exact ⟨l, l', ls, rfl⟩

/-- A bare base has one view: the simulation is its bottom level alone, and an empty cache over
the base holds what a wiped level over it does. -/
theorem top_of_bare (h : Refines v σ) (hlev : v.levels = [v.lookup])
    (htop : v.top = ⟨CCoinsViewCache.empty, v⟩) : Refines v.top.toView (ensureTop σ) := by
  have hlen := congrArg List.length h.levels_eq
  rw [levels_length, hlev, List.length_singleton] at hlen
  match σ, hlen with
  | [b], _ =>
    have hb := h.lookup_eq
    refine ⟨CacheView.Valid.top h.valid, ?_⟩
    rw [htop]
    show (CoinsView.cache CCoinsViewCache.empty v).levels = levels [wipe, b]
    rw [CoinsView.levels, hlev, levels, levels, levels, lookup_wipe_cons, ← hb,
      CoinsView.lookup_cache_empty]

/-- **The top of the stack and of the simulation**: pushing a cache over a bare base, and a wiped
level over the bottom, keeps the relation. -/
theorem top (h : Refines v σ) : Refines v.top.toView (ensureTop σ) := by
  cases v with
  | db d => exact top_of_bare h rfl rfl
  | bottom b => exact top_of_bare h rfl rfl
  | cache c base =>
    obtain ⟨l, l', ls, rfl⟩ := exists_cons_cons (t := ⟨c, base⟩) h
    exact h

end Refines

/-! ### One operation -/

section Step

variable {t : CacheView} {l l' : CacheLevel} {ls : List CacheLevel}

/-- An operation that changes no view of the stack and no level keeps the relation. -/
theorem refines_of_levels_eq {t' : CacheView} (h : Refines t.toView (l :: ls)) (hv : t'.Valid)
    (hl : t'.lookup = t.lookup) (hb : t'.base.levels = t.base.levels) :
    Refines t'.toView (l :: ls) := by
  obtain ⟨-, hl₀, hb₀⟩ := Refines.toView_iff.mp h
  exact Refines.toView_iff.mpr ⟨hv, hl.trans hl₀, hb.trans hb₀⟩

/-- **A read** (`GetCoin`, `HaveCoin`, `AccessCoin`) fetches into the caches and keeps the relation
and the stack's bottom. -/
theorem refines_FetchCoin (h : Refines t.toView (l :: ls)) (hbt : t.base.OnBottom) (o : COutPoint) :
    Refines (t.FetchCoin o).2.toView (l :: ls) ∧ (t.FetchCoin o).2.toView.OnBottom := by
  obtain ⟨hv, -, -⟩ := Refines.toView_iff.mp h
  exact ⟨refines_of_levels_eq h hv.FetchCoin CacheView.lookup_FetchCoin CacheView.levels_FetchCoin,
    CacheView.OnBottom_FetchCoin hbt⟩

/-- **`AddCoin`** under the contract: the simulation's top level holds the coin, unless its
script cannot be spent; the base is left alone. -/
theorem refines_AddCoin (h : Refines t.toView (l :: ls)) {o : COutPoint} {coin : Coin}
    {po : Bool} (hop : (!coin.IsSpent && (po || (lookup (l :: ls) o).isNone)) = true) :
    ∃ t', t.AddCoin o coin po = .ok t' ∧ t'.base = t.base ∧
      Refines t'.toView
        (if coin.out.scriptPubKey.IsUnspendable then l :: ls else setTop o (.UNSPENT coin) (l :: ls)) := by
  obtain ⟨hv, hl, hb⟩ := Refines.toView_iff.mp h
  obtain ⟨hs, hpo⟩ := Bool.and_eq_true_iff.mp hop
  have hpo' : po = false → t.lookup o = none := fun hp => by
    rw [hp, Bool.false_or, Option.isNone_iff_eq_none] at hpo
    rw [hl, hpo]
  obtain ⟨t', ht', hbase, hv', hl'⟩ := CacheView.AddCoin_spec hv (by simpa using hs) hpo'
  refine ⟨t', ht', hbase, ?_⟩
  split_ifs with hu
  · rw [if_pos hu] at hl'
    exact Refines.toView_iff.mpr ⟨hv', hl'.trans hl, hbase ▸ hb⟩
  · -- the coin goes into the top level
    rw [if_neg hu] at hl'
    exact Refines.toView_iff.mpr ⟨hv', by rw [hl', hl, lookup_update_cons]; rfl, hbase ▸ hb⟩

/-- **`SpendCoin`**: the coin moved out is what the simulation holds, and its top level then holds
`SPENT`. -/
theorem refines_SpendCoin (h : Refines t.toView (l :: ls)) (o : COutPoint) :
    ((t.SpendCoin o).2.1.getD Coin.empty).asUnspent = lookup (l :: ls) o ∧
      Refines (t.SpendCoin o).2.2.toView (setTop o .SPENT (l :: ls)) := by
  obtain ⟨hv, hl, hb⟩ := Refines.toView_iff.mp h
  obtain ⟨hm, -, hl', -, hv'⟩ := CacheView.SpendCoin_spec (o := o) hv
  refine ⟨by rw [Coin.asUnspent_getD_empty, hm, hl], Refines.toView_iff.mpr ⟨hv', ?_, ?_⟩⟩
  · rw [hl', hl, lookup_update_cons]
    rfl
  · rw [CacheView.base_SpendCoin, CacheView.levels_FetchCoin, hb]

/-- **`Flush` and `Sync`**: the base and the stack then hold what the stack held, as the simulation
does after copying its top level down. -/
theorem refines_flush {t' : CacheView} (h : Refines t.toView (l :: l' :: ls)) (hv' : t'.Valid)
    (hl' : t'.lookup = t.lookup) (hb' : t'.base.lookup = t.lookup)
    (ht' : t'.base.levels.tail = t.base.levels.tail) :
    Refines t'.toView (flush (l :: l' :: ls)) := by
  obtain ⟨-, hl, hb⟩ := Refines.toView_iff.mp h
  refine Refines.toView_iff.mpr ⟨hv', by rw [hl', hl, lookup_wipe_cons, lookup_merge], ?_⟩
  rw [CoinsView.levels_eq_cons, hb', ht', hb, levels, levels, lookup_merge, hl]
  rfl

/-- **One operation** that keeps the harness's contract keeps the relation and the stack's bottom,
without an error and with the reply the simulation expects. -/
theorem realStep_simStep {v : CoinsView} {σ : List CacheLevel} (h : Refines v σ)
    (hbot : v.OnBottom) (op : Op) (hop : Allowed σ op = true) :
    ∃ v', realStep v op = .ok ((simStep σ op).1, v') ∧ Refines v' (simStep σ op).2 ∧
      v'.OnBottom := by
  have ht := h.top
  have hbt := hbot.top_base
  have hlk : lookup σ = lookup (ensureTop σ) := by
    rw [← h.lookup_eq, ← ht.lookup_eq]
    cases v with
    | db d => exact (CoinsView.lookup_cache_empty _).symm
    | bottom b => exact (CoinsView.lookup_cache_empty _).symm
    | cache c base => rfl
  obtain ⟨l, l', ls, hσ⟩ := Refines.exists_cons_cons ht
  -- both act on their top: the stack's top cache and the simulation's top level
  unfold realStep simStep
  rw [hσ] at ht ⊢
  rw [hσ] at hlk
  generalize v.top = t at ht hbt ⊢
  obtain ⟨hv, hl, hb⟩ := Refines.toView_iff.mp ht
  cases op with
  | GetCoin o =>
    obtain ⟨hg, hg2⟩ := CacheView.GetCoin_spec (v := t) (o := o)
    refine ⟨(t.GetCoin o).2.toView, by dsimp only; rw [hg, hl]; rfl, ?_⟩
    rw [hg2]
    exact refines_FetchCoin ht hbt o
  | HaveCoin o =>
    obtain ⟨hh, hh2⟩ := CacheView.HaveCoin_spec (v := t) (o := o)
    refine ⟨(t.HaveCoin o).2.toView, by dsimp only; rw [hh, hl]; rfl, ?_⟩
    rw [hh2]
    exact refines_FetchCoin ht hbt o
  | AccessCoin o =>
    obtain ⟨ha, ha2⟩ := CacheView.AccessCoin_spec (v := t) (o := o)
    refine ⟨(t.AccessCoin o).2.toView, by dsimp only; rw [ha, hl]; rfl, ?_⟩
    rw [ha2]
    exact refines_FetchCoin ht hbt o
  | AddCoin o coin po =>
    simp only [Allowed, hlk] at hop
    obtain ⟨t', ht', hbase, hr⟩ := refines_AddCoin ht hop
    exact ⟨t'.toView, by dsimp only; rw [ht']; rfl, hr, show t'.base.OnBottom from hbase ▸ hbt⟩
  | SpendCoin o moveout =>
    obtain ⟨hm, hr⟩ := refines_SpendCoin ht o
    refine ⟨(t.SpendCoin o).2.2.toView, by dsimp only; rw [hm]; rfl, hr, ?_⟩
    show (t.SpendCoin o).2.2.base.OnBottom
    rw [CacheView.base_SpendCoin]
    exact CacheView.OnBottom_FetchCoin hbt
  | Uncache o =>
    obtain ⟨hl', hb', hv'⟩ := CacheView.Uncache_spec (v := t) (o := o) hv
    exact ⟨(t.Uncache o).toView, rfl, refines_of_levels_eq ht hv' hl' (by rw [hb']),
      show (t.Uncache o).base.OnBottom from hb' ▸ hbt⟩
  | Flush =>
    -- the bottom accepts any best block, so the write cannot fail
    obtain ⟨t', hf, hl', hb', ht', hv'⟩ := CacheView.Flush_spec hv (hbt.accepts _)
    exact ⟨t'.toView, by dsimp only; rw [hf]; rfl, refines_flush ht hv' hl' hb' ht',
      CacheView.OnBottom_Flush hf hbt⟩
  | Sync =>
    obtain ⟨t', hf, hl', hb', ht', hv'⟩ := CacheView.Sync_spec hv (hbt.accepts _)
    exact ⟨t'.toView, by dsimp only; rw [hf]; rfl, refines_flush ht hv' hl' hb' ht',
      CacheView.OnBottom_Sync hf hbt⟩
  | Push =>
    -- a new empty cache over the stack, a wiped level over the simulation
    refine ⟨.cache CCoinsViewCache.empty t.toView, rfl, ⟨⟨CacheInv.empty _, hv⟩, ?_⟩, hbt⟩
    rw [CoinsView.levels, CoinsView.lookup_cache_empty, levels, lookup_wipe_cons, ht.lookup_eq,
      ht.levels_eq]
  | Pop =>
    -- the invariant passes the check before the top cache goes
    exact ⟨t.base, by dsimp only; rw [hv.cache.SanityCheck]; rfl, ⟨hv.base, hb⟩, hbt⟩

end Step

/-! ### Whole runs -/

/-- **A run of operations** that keeps the harness's contract keeps the relation, without an error
and with the replies the simulation expects; by induction on the operations, one step at a time. -/
theorem realRun_simRun : ∀ (ops : List Op) {v : CoinsView} {σ : List CacheLevel}, Refines v σ →
    v.OnBottom → AllowedRun σ ops = true →
    ∃ v', realRun v ops = .ok ((simRun σ ops).1, v') ∧ Refines v' (simRun σ ops).2
  | [], v, _, h, _, _ => ⟨v, rfl, h⟩
  | op :: ops, v, σ, h, hbot, hops => by
    obtain ⟨hop, hrest⟩ := Bool.and_eq_true_iff.mp hops
    obtain ⟨v₁, h₁, hr₁, hbot₁⟩ := realStep_simStep h hbot op hop
    obtain ⟨v', h', hr'⟩ := realRun_simRun ops hr₁ hbot₁ hrest
    refine ⟨v', ?_, hr'⟩
    rw [realRun, h₁, Except.ok_bind]
    dsimp only
    rw [h']
    rfl

/-- The contract holds along every prefix of a run along which it holds. -/
theorem allowedRun_take : ∀ (ops : List Op) (σ : List CacheLevel) (k : ℕ),
    AllowedRun σ ops = true → AllowedRun σ (ops.take k) = true
  | [], _, _, _ => by rw [List.take_nil]; rfl
  | _ :: _, _, 0, _ => rfl
  | op :: ops, σ, k + 1, h => by
    obtain ⟨hop, hrest⟩ := Bool.and_eq_true_iff.mp h
    rw [List.take_succ_cons, AllowedRun, hop, allowedRun_take ops _ k hrest]
    rfl

/-- **The stack of caches refines the harness's simulation.** From a stack over the harness's
`CoinsViewBottom` that keeps the invariant, and a simulation whose levels hold what its views
hold, every sequence of operations that keeps the harness's contract for `AddCoin` runs, up to
each of its operations, without an error (no failed assertion in `BatchWrite` or `SanityCheck`,
no exception from `Sync`) and with the replies of the simulation; and after it each view holds
what the simulation holds from the corresponding level down, the invariant holds and every cache
passes `SanityCheck`. The database's `BatchWrite` asserts on its best block, which the harness
never sets, so the refinement is stated for stacks on the bottom. -/
theorem coinsCache_refines_sim {v : CoinsView} (hv : v.Valid) (hb : v.OnBottom)
    {σ : List CacheLevel} (hσ : v.levels = levels σ) (ops : List Op)
    (hops : AllowedRun σ ops = true) (k : ℕ) :
    ∃ v', realRun v (ops.take k) = .ok ((simRun σ (ops.take k)).1, v') ∧
      v'.levels = levels (simRun σ (ops.take k)).2 ∧ v'.Valid ∧ v'.SanityCheck = true := by
  obtain ⟨v', hrun, hr⟩ :=
    realRun_simRun (ops.take k) ⟨hv, hσ⟩ hb (allowedRun_take ops σ k hops)
  exact ⟨v', hrun, hr.levels_eq, hr.valid, hr.valid.SanityCheck⟩

/-- An outpoint of a sample run. -/
def sampleOutpoint : COutPoint := ⟨nullHash, 0⟩

/-- A coin of fifty units locked by `OP_TRUE`. -/
def sampleCoin : Coin := ⟨⟨50, [0x51]⟩, false, 2⟩

/-- A coin added as new, spent in a second cache, the spend synced down, the second cache popped,
and the outpoint read again. -/
def sampleRun : List Op :=
  [.AddCoin sampleOutpoint sampleCoin false, .Push, .SpendCoin sampleOutpoint true, .Sync, .Pop,
    .GetCoin sampleOutpoint]

example : (simRun [wipe] sampleRun).1 =
    [.unit, .unit, .coin (some sampleCoin), .flag true, .unit, .coin none] := by decide

theorem coinsCache_refines_sim_sampleRun :
    AllowedRun [wipe] sampleRun = true ∧
      ∃ v', realRun (.bottom ⟨∅⟩) (sampleRun.take 6) =
          .ok ((simRun [wipe] (sampleRun.take 6)).1, v') ∧
        v'.levels = levels (simRun [wipe] (sampleRun.take 6)).2 ∧ v'.Valid ∧
        v'.SanityCheck = true :=
  ⟨by decide, coinsCache_refines_sim (show (CoinsView.bottom ⟨∅⟩).Valid from trivial)
    (show (CoinsView.bottom ⟨∅⟩).OnBottom from trivial) rfl sampleRun (by decide) 6⟩

end CoinsCacheSim

end Tenscoin
