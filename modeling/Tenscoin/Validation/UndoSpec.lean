import Mathlib
import Tenscoin.Lib.Except
import Tenscoin.Lib.Store
import Tenscoin.Coins.Methods
import Tenscoin.Validation.Undo

/-!
# Disconnecting a block takes back what connecting it did

What a block does to the UTXO set, with the set as a store (`Store`) of coins by outpoint:
each transaction in order takes the coins its inputs spend, failing when one is not there,
and puts one coin at each output that can be spent, failing when the outpoint already holds
one (`applyTx`, `applyTxs`). That a block applies in this sense is the hypothesis that its
transactions only spend unspent outpoints and never create an unspent one.

The model of the code is then run forward and back over it. `UpdateCoins` applies a
transaction to the view as `applyTx` does to the set (`UpdateCoins_spec`), and its undo record
is the list of coins taken. `disconnectTx` takes back one transaction: its outputs are spent
and found as they were made (`spendOutputs_spec`, by `Store.takeAll_putAll`), and its inputs
are put back last first (`restoreInputs_spec`, by `Store.putAll_takeAll`). The run lemma
`connectTxs_disconnectTxs` composes the two over the transactions, the last connected being
the first disconnected, and `DisconnectBlock_connectTxs` is the round trip of a whole block.

The round trip needs more of the block and the view than that they apply:

* the first transaction is the block's only coinbase: the undo record of the first
  transaction is dropped, and a later coinbase has an empty one;
* no output has the amount `-1`, which `AddCoin` asserts against;
* the height is below `2 ^ 31`, the width of `Coin::nHeight`, and above zero;
* every coin the view holds has a height other than zero and a script that can be spent. An
  undo coin of height zero sends `ApplyTxInUndo` to `AccessByTxid`, which fails when no other
  output of the transaction is unspent (`ApplyTxInUndo_eq_failed`,
  `DisconnectBlock_connectTxs_heightZero`), and `AddCoin` drops a coin whose script cannot be
  spent.
-/

namespace Tenscoin

open DisconnectResult

/-! ### What a block does to the UTXO set -/

/-- The coins the outputs `outs`, with their indices, of the transaction `txid` create: one at
each output whose script can be spent. -/
def outputCoins (txid : Txid) (fCoinbase : Bool) (nHeight : ℕ) (outs : List (CTxOut × ℕ)) :
    List (COutPoint × Coin) :=
  (outs.filter fun p => !p.1.scriptPubKey.IsUnspendable).map fun p =>
    (⟨txid, UInt32.ofNat p.2⟩, Coin.make p.1 nHeight fCoinbase)

namespace CTransaction

/-- The coins a transaction creates at height `nHeight`. -/
def createdCoins (tx : CTransaction) (nHeight : ℕ) : List (COutPoint × Coin) :=
  outputCoins tx.GetHash tx.IsCoinBase nHeight tx.vout.zipIdx

/-- The outpoints a transaction spends; none for a coinbase. -/
def spentOutpoints (tx : CTransaction) : List COutPoint :=
  if tx.IsCoinBase then [] else tx.vin.map (·.prevout)

end CTransaction

/-- A transaction applied to the UTXO set: the coins its inputs spend are taken, then the
coins it creates are put. -/
def applyTx (nHeight : ℕ) (s : COutPoint → Option Coin) (tx : CTransaction) :
    Option (COutPoint → Option Coin) :=
  (Store.takeAll s tx.spentOutpoints).bind fun r => Store.putAll r.1 (tx.createdCoins nHeight)

/-- Transactions applied in order. -/
def applyTxs (nHeight : ℕ) : (COutPoint → Option Coin) → List CTransaction →
    Option (COutPoint → Option Coin)
  | s, [] => some s
  | s, tx :: txs => (applyTx nHeight s tx).bind fun s => applyTxs nHeight s txs

/-- Every coin the set holds is unspent, has a script that can be spent and a height other than
zero: so is every coin `AddCoins` adds above the genesis block. -/
def CoinsOk (s : COutPoint → Option Coin) : Prop :=
  ∀ o c, s o = some c → c.IsSpent = false ∧ c.out.scriptPubKey.IsUnspendable = false ∧
    c.nHeight ≠ 0

theorem outputCoins_cons_of_spendable {txid : Txid} {fCoinbase : Bool} {nHeight : ℕ}
    {out : CTxOut} (i : ℕ) (rest : List (CTxOut × ℕ))
    (hu : out.scriptPubKey.IsUnspendable = false) :
    outputCoins txid fCoinbase nHeight ((out, i) :: rest) =
      (⟨txid, UInt32.ofNat i⟩, Coin.make out nHeight fCoinbase) ::
        outputCoins txid fCoinbase nHeight rest := by
  rw [outputCoins, List.filter_cons_of_pos (by rw [hu]; rfl), List.map_cons]
  rfl

theorem outputCoins_cons_of_unspendable {txid : Txid} {fCoinbase : Bool} {nHeight : ℕ}
    {out : CTxOut} (i : ℕ) (rest : List (CTxOut × ℕ))
    (hu : out.scriptPubKey.IsUnspendable = true) :
    outputCoins txid fCoinbase nHeight ((out, i) :: rest) =
      outputCoins txid fCoinbase nHeight rest := by
  rw [outputCoins, List.filter_cons_of_neg (by rw [hu]; decide)]
  rfl

@[simp] theorem Coin.out_make (out : CTxOut) (nHeight : ℕ) (fCoinbase : Bool) :
    (Coin.make out nHeight fCoinbase).out = out := rfl

@[simp] theorem Coin.IsSpent_make (out : CTxOut) (nHeight : ℕ) (fCoinbase : Bool) :
    (Coin.make out nHeight fCoinbase).IsSpent = out.IsNull := rfl

/-- A created coin is one of the outputs, made at the block's height. -/
theorem exists_of_mem_outputCoins {txid : Txid} {fCoinbase : Bool} {nHeight : ℕ}
    {outs : List (CTxOut × ℕ)} {o : COutPoint} {c : Coin}
    (h : (o, c) ∈ outputCoins txid fCoinbase nHeight outs) :
    ∃ p ∈ outs, p.1.scriptPubKey.IsUnspendable = false ∧ c = Coin.make p.1 nHeight fCoinbase := by
  obtain ⟨p, hp, he⟩ := List.mem_map.mp h
  obtain ⟨hmem, hsp⟩ := List.mem_filter.mp hp
  refine ⟨p, hmem, by simpa using hsp, ?_⟩
  rw [← (Prod.mk.inj he).2]

/-- Taking keeps `CoinsOk`, and the coins taken are ones the set held. -/
theorem CoinsOk.takeAll {s s' : COutPoint → Option Coin} {ks : List COutPoint} {bs : List Coin}
    (hs : CoinsOk s) (h : Store.takeAll s ks = some (s', bs)) :
    CoinsOk s' ∧ ∀ b ∈ bs, b.IsSpent = false ∧ b.out.scriptPubKey.IsUnspendable = false ∧
      b.nHeight ≠ 0 := by
  refine ⟨fun o c hc => hs o c (Store.of_takeAll h hc), fun b hb => ?_⟩
  obtain ⟨k, hk⟩ := Store.exists_of_mem_takeAll h hb
  exact hs k b hk

/-- Putting the coins a transaction creates keeps `CoinsOk`. -/
theorem CoinsOk.putAll_createdCoins {s s' : COutPoint → Option Coin} {tx : CTransaction}
    {nHeight : ℕ} (hh : 0 < nHeight ∧ nHeight < 2 ^ 31)
    (hnull : ∀ out ∈ tx.vout, out.IsNull = false) (hs : CoinsOk s)
    (h : Store.putAll s (tx.createdCoins nHeight) = some s') : CoinsOk s' := by
  intro o c hc
  rcases Store.of_putAll h hc with hold | hnew
  · exact hs o c hold
  · obtain ⟨⟨out, i⟩, hp, hu, rfl⟩ := exists_of_mem_outputCoins hnew
    refine ⟨hnull out (List.fst_mem_of_mem_zipIdx hp), hu, ?_⟩
    show nHeight % 2 ^ 31 ≠ 0
    rw [Nat.mod_eq_of_lt hh.2]
    exact Nat.pos_iff_ne_zero.mp hh.1

/-! ### Connecting -/

/-- The coin moved out of a view that held `b` is `b`. -/
theorem Coin.eq_of_bind_asUnspent {moved : Option Coin} {b : Coin}
    (h : moved.bind Coin.asUnspent = some b) : moved = some b := by
  cases moved with
  | none => cases h
  | some m => rw [(Coin.IsSpent_of_asUnspent_eq_some h).2]

/-- **`UpdateCoins`' input loop** takes the coins the inputs spend, in order, and pushes them to
the undo record. -/
theorem spendInputs_spec :
    ∀ (vin : List CTxIn) {v : CacheView} {s : COutPoint → Option Coin} {bs : List Coin},
      v.Valid → Store.takeAll v.lookup (vin.map (·.prevout)) = some (s, bs) →
      ∃ v', spendInputs v vin = .ok (v', bs) ∧ v'.lookup = s ∧ v'.Valid
  | [], v, s, bs, hv, h => by
    rw [List.map_nil, Store.takeAll_nil, Option.some.injEq, Prod.mk.injEq] at h
    obtain ⟨rfl, rfl⟩ := h
    exact ⟨v, rfl, rfl, hv⟩
  | txin :: rest, v, s, bs, hv, h => by
    obtain ⟨b, hb, ⟨s₁, bs₁⟩, hrest, hr⟩ := Store.takeAll_cons_eq_some h
    obtain ⟨rfl, rfl⟩ := Prod.mk.inj hr
    obtain ⟨hmoved, hfound, hlook, -, hvalid⟩ := v.SpendCoin_spec (o := txin.prevout) hv
    rcases hsc : v.SpendCoin txin.prevout with ⟨found, moved, v₁⟩
    rw [hsc] at hmoved hfound hlook hvalid
    -- the coin moved out is the one the view held, so the spend is found
    have hm : moved = some b := Coin.eq_of_bind_asUnspent (hmoved.trans hb)
    rw [hm, Option.isSome_some] at hfound
    obtain ⟨v', hrun, hl', hv'⟩ := spendInputs_spec rest hvalid (by rw [hlook]; exact hrest)
    refine ⟨v', ?_, hl', hv'⟩
    simp only [spendInputs, hsc, hfound, hm, Bool.not_true, Bool.false_eq_true, ↓reduceIte,
      hrun, Except.ok_bind, Option.getD_some, Except.pure_eq_ok]

/-- **`AddCoins`' loop** without the overwrite check puts the coins the outputs create. -/
theorem addCoinsLoop_spec (txid : Txid) (fCoinbase : Bool) (nHeight : ℕ) :
    ∀ (outs : List (CTxOut × ℕ)) {v : CacheView} {s : COutPoint → Option Coin},
      v.Valid → (∀ p ∈ outs, p.1.IsNull = false) →
      Store.putAll v.lookup (outputCoins txid fCoinbase nHeight outs) = some s →
      ∃ v', addCoinsLoop txid fCoinbase false nHeight v outs = .ok v' ∧ v'.lookup = s ∧
        v'.Valid
  | [], v, s, hv, _, h => by
    rw [outputCoins, List.filter_nil, List.map_nil, Store.putAll_nil, Option.some.injEq] at h
    exact ⟨v, rfl, h, hv⟩
  | (out, i) :: rest, v, s, hv, hnull, h => by
    have hs : (Coin.make out nHeight fCoinbase).IsSpent = false := hnull _ List.mem_cons_self
    have hnull' : ∀ p ∈ rest, p.1.IsNull = false := fun p hp => hnull p (List.mem_cons_of_mem _ hp)
    -- the step: `AddCoin` with the coinbase flag as the overwrite flag
    have hstep : ∀ v₁, v.AddCoin ⟨txid, UInt32.ofNat i⟩ (Coin.make out nHeight fCoinbase)
        fCoinbase = .ok v₁ → addCoinsLoop txid fCoinbase false nHeight v ((out, i) :: rest) =
          addCoinsLoop txid fCoinbase false nHeight v₁ rest := fun v₁ hadd => by
      simp only [addCoinsLoop, Bool.false_eq_true, ↓reduceIte, hadd, Except.ok_bind]
    cases hu : out.scriptPubKey.IsUnspendable
    · -- a spendable output: its outpoint holds nothing, and the coin is put there
      rw [outputCoins_cons_of_spendable i rest hu] at h
      obtain ⟨hnone, hrest⟩ := Store.putAll_cons_eq_some h
      obtain ⟨v₁, hadd, -, hv₁, hl₁⟩ := v.AddCoin_spec hv hs fun _ : fCoinbase = false => hnone
      rw [Coin.out_make, hu, if_neg Bool.false_ne_true] at hl₁
      obtain ⟨v', hrun, hl', hv'⟩ :=
        addCoinsLoop_spec txid fCoinbase nHeight rest hv₁ hnull' (by rw [hl₁]; exact hrest)
      exact ⟨v', by rw [hstep v₁ hadd, hrun], hl', hv'⟩
    · -- an unspendable output: `AddCoin` adds nothing
      rw [outputCoins_cons_of_unspendable i rest hu] at h
      obtain ⟨v', hrun, hl', hv'⟩ := addCoinsLoop_spec txid fCoinbase nHeight rest hv hnull' h
      exact ⟨v', by rw [hstep v (v.AddCoin_of_unspendable hs hu fCoinbase), hrun], hl', hv'⟩

/-- **`UpdateCoins`** applies a transaction to the view as `applyTx` does to the set, and its
undo record holds the coins taken. -/
theorem UpdateCoins_spec {tx : CTransaction} {v : CacheView} {nHeight : ℕ}
    {s₁ s₂ : COutPoint → Option Coin} {bs : List Coin} (hv : v.Valid)
    (hnull : ∀ out ∈ tx.vout, out.IsNull = false)
    (h₁ : Store.takeAll v.lookup tx.spentOutpoints = some (s₁, bs))
    (h₂ : Store.putAll s₁ (tx.createdCoins nHeight) = some s₂) :
    ∃ v', UpdateCoins tx v nHeight = .ok (v', ⟨bs⟩) ∧ v'.lookup = s₂ ∧ v'.Valid := by
  -- the outputs, put into the view the inputs leave
  have hadd : ∀ v₁ : CacheView, v₁.Valid → v₁.lookup = s₁ →
      ∃ v', AddCoins v₁ tx nHeight false = .ok v' ∧ v'.lookup = s₂ ∧ v'.Valid :=
    fun v₁ hv₁ hl₁ => addCoinsLoop_spec tx.GetHash tx.IsCoinBase nHeight tx.vout.zipIdx hv₁
      (fun p hp => hnull p.1 (List.fst_mem_of_mem_zipIdx hp)) (by rw [hl₁]; exact h₂)
  unfold UpdateCoins
  unfold CTransaction.spentOutpoints at h₁
  cases hcb : tx.IsCoinBase
  · rw [hcb, if_neg Bool.false_ne_true] at h₁
    obtain ⟨v₁, hin, hl₁, hv₁⟩ := spendInputs_spec tx.vin hv h₁
    obtain ⟨v', hrun, hl', hv'⟩ := hadd v₁ hv₁ hl₁
    refine ⟨v', ?_, hl', hv'⟩
    simp only [Bool.not_false, ↓reduceIte, hin, Except.ok_bind]
    rw [hrun]
    rfl
  · -- a coinbase spends nothing
    rw [hcb, if_pos rfl, Store.takeAll_nil, Option.some.injEq, Prod.mk.injEq] at h₁
    obtain ⟨rfl, rfl⟩ := h₁
    obtain ⟨v', hrun, hl', hv'⟩ := hadd v hv rfl
    refine ⟨v', ?_, hl', hv'⟩
    simp only [Bool.not_true, Bool.false_eq_true, ↓reduceIte, Except.pure_eq_ok, Except.ok_bind]
    rw [hrun]
    rfl

/-! ### Disconnecting -/

@[simp] theorem Coin.nHeight_make (out : CTxOut) (nHeight : ℕ) (fCoinbase : Bool) :
    (Coin.make out nHeight fCoinbase).nHeight = nHeight % 2 ^ 31 := rfl

@[simp] theorem Coin.fCoinBase_make (out : CTxOut) (nHeight : ℕ) (fCoinbase : Bool) :
    (Coin.make out nHeight fCoinbase).fCoinBase = fCoinbase := rfl

/-- **`DisconnectBlock`'s output loop** over outputs that are there as they were made spends
them all and keeps `fClean`. -/
theorem spendOutputs_spec (hash : Txid) (is_coinbase is_bip30_exception : Bool) {nHeight : ℕ}
    (hh : nHeight < 2 ^ 31) :
    ∀ (outs : List (CTxOut × ℕ)) {v : CacheView} {s : COutPoint → Option Coin} (fClean : Bool),
      v.Valid →
      Store.takeAll v.lookup ((outputCoins hash is_coinbase nHeight outs).map Prod.fst) =
        some (s, (outputCoins hash is_coinbase nHeight outs).map Prod.snd) →
      ∃ v', spendOutputs hash is_coinbase is_bip30_exception nHeight v fClean outs =
        (fClean, v') ∧ v'.lookup = s ∧ v'.Valid
  | [], v, s, fClean, hv, h => by
    rw [outputCoins, List.filter_nil, List.map_nil, List.map_nil, Store.takeAll_nil,
      Option.some.injEq, Prod.mk.injEq] at h
    exact ⟨v, rfl, h.1, hv⟩
  | (out, o) :: rest, v, s, fClean, hv, h => by
    cases hu : out.scriptPubKey.IsUnspendable
    · rw [outputCoins_cons_of_spendable o rest hu, List.map_cons, List.map_cons] at h
      obtain ⟨b, hb, ⟨s₁, bs₁⟩, hrest, hr⟩ := Store.takeAll_cons_eq_some h
      obtain ⟨rfl, hbs⟩ := Prod.mk.inj hr
      obtain ⟨rfl, rfl⟩ := List.cons.inj hbs
      -- the output is there as it was made, so the spend finds it and nothing mismatches
      obtain ⟨hmoved, hfound, hlook, -, hvalid⟩ := v.SpendCoin_spec (o := ⟨hash, UInt32.ofNat o⟩) hv
      rcases hsc : v.SpendCoin ⟨hash, UInt32.ofNat o⟩ with ⟨found, moved, v₁⟩
      rw [hsc] at hmoved hfound hlook hvalid
      dsimp only at hmoved hfound hlook hvalid hb
      have hm : moved = some (Coin.make out nHeight is_coinbase) :=
        Coin.eq_of_bind_asUnspent (hmoved.trans hb)
      rw [hm, Option.isSome_some] at hfound
      obtain ⟨v', hrun, hl', hv'⟩ := spendOutputs_spec hash is_coinbase is_bip30_exception hh rest
        fClean hvalid (by rw [hlook]; exact hrest)
      refine ⟨v', ?_, hl', hv'⟩
      simp only [spendOutputs, hu, Bool.not_false, ↓reduceIte, hsc, hfound, hm, Option.getD_some,
        Coin.out_make, Coin.nHeight_make, Coin.fCoinBase_make, Nat.mod_eq_of_lt hh, bne_self_eq_false,
        Bool.not_true, Bool.or_false, Bool.false_and, Bool.false_eq_true, hrun]
    · rw [outputCoins_cons_of_unspendable o rest hu] at h
      obtain ⟨v', hrun, hl', hv'⟩ :=
        spendOutputs_spec hash is_coinbase is_bip30_exception hh rest fClean hv h
      refine ⟨v', ?_, hl', hv'⟩
      simp only [spendOutputs, hu, Bool.not_true, Bool.false_eq_true, ↓reduceIte, hrun]

theorem Coin.IsSpent_of_asUnspent_eq_none {c : Coin} (h : c.asUnspent = none) :
    c.IsSpent = true := by
  cases hs : c.IsSpent
  · rw [Coin.asUnspent_of_not_spent hs] at h
    cases h
  · rfl

/-- **`AccessByTxid`'s loop** returns the first unspent coin of `txid` at the indices `ns`, and
changes only what the caches hold, not what the view holds. -/
theorem accessByTxidLoop_spec (txid : Txid) :
    ∀ (ns : List ℕ) (v : CacheView),
      (accessByTxidLoop txid v ns).1.asUnspent =
          ns.findSome? (fun n => v.lookup ⟨txid, UInt32.ofNat n⟩) ∧
        (accessByTxidLoop txid v ns).2.lookup = v.lookup ∧
        (v.Valid → (accessByTxidLoop txid v ns).2.Valid)
  | [], v => ⟨Coin.asUnspent_empty, rfl, id⟩
  | n :: ns, v => by
    obtain ⟨hc, hst⟩ := v.AccessCoin_spec (o := ⟨txid, UInt32.ofNat n⟩)
    rcases hac : v.AccessCoin ⟨txid, UInt32.ofNat n⟩ with ⟨alternate, w⟩
    rw [hac] at hc hst
    dsimp only at hc hst
    have hwl : w.lookup = v.lookup := by rw [hst]; exact CacheView.lookup_FetchCoin
    have hwv : v.Valid → w.Valid := fun hv => by rw [hst]; exact hv.FetchCoin
    rw [List.findSome?_cons, ← hc]
    cases hs : alternate.IsSpent
    · -- the first unspent output is returned
      simp only [accessByTxidLoop, hac, hs, Bool.not_false, ↓reduceIte,
        Coin.asUnspent_of_not_spent hs]
      exact ⟨trivial, hwl, hwv⟩
    · -- a spent one is passed over
      obtain ⟨h1, h2, h3⟩ := accessByTxidLoop_spec txid ns w
      rw [hwl] at h1 h2
      simp only [accessByTxidLoop, hac, hs, Bool.not_true, Bool.false_eq_true, ↓reduceIte,
        Coin.asUnspent_of_spent hs]
      exact ⟨h1, h2, fun hv => h3 (hwv hv)⟩

/-- `ApplyTxInUndo` where the view holds nothing and the undo coin has its height: the coin is
put back, and the result is clean. -/
theorem ApplyTxInUndo_of_lookup_eq_none {undo : Coin} {v : CacheView} {out : COutPoint}
    (hv : v.Valid)
    (hundo : undo.IsSpent = false ∧ undo.out.scriptPubKey.IsUnspendable = false ∧
      undo.nHeight ≠ 0)
    (hnone : v.lookup out = none) :
    ∃ v', ApplyTxInUndo undo v out = .ok (DISCONNECT_OK, v') ∧
      v'.lookup = Function.update v.lookup out (some undo) ∧ v'.Valid := by
  obtain ⟨hhave, hstate⟩ := v.HaveCoin_spec (o := out)
  rw [hnone, Option.isSome_none] at hhave
  have hl₁ : (v.FetchCoin out).2.lookup = v.lookup := CacheView.lookup_FetchCoin
  obtain ⟨v', hadd, -, hv', hl'⟩ := (v.FetchCoin out).2.AddCoin_spec hv.FetchCoin hundo.1
    (o := out) fun _ : false = false => by rw [hl₁]; exact hnone
  rw [hundo.2.1, if_neg Bool.false_ne_true, hl₁] at hl'
  refine ⟨v', ?_, hl', hv'⟩
  rcases hhc : v.HaveCoin out with ⟨haveCoin, w⟩
  rw [hhc] at hhave hstate
  dsimp only at hhave hstate
  subst hhave hstate
  simp only [ApplyTxInUndo, hhc, hundo.2.2, ↓reduceIte, addUndoCoin, Bool.not_false,
    Bool.not_true, hadd, Except.ok_bind, Except.pure_eq_ok]

/-- `ApplyTxInUndo` of an undo coin of height zero, where the view holds no output of its
transaction: `AccessByTxid` finds no metadata, and the result is `DISCONNECT_FAILED`. -/
theorem ApplyTxInUndo_eq_failed {undo : Coin} {v : CacheView} {out : COutPoint}
    (h0 : undo.nHeight = 0) (hnone : ∀ n : UInt32, v.lookup ⟨out.hash, n⟩ = none) :
    ∃ v', ApplyTxInUndo undo v out = .ok (DISCONNECT_FAILED, v') := by
  rcases hhc : v.HaveCoin out with ⟨haveCoin, w⟩
  obtain ⟨-, hstate⟩ := v.HaveCoin_spec (o := out)
  rw [hhc] at hstate
  dsimp only at hstate
  have hwl : w.lookup = v.lookup := by rw [hstate]; exact CacheView.lookup_FetchCoin
  obtain ⟨hfirst, -⟩ := accessByTxidLoop_spec out.hash (List.range MAX_OUTPUTS_PER_BLOCK) w
  rw [hwl, List.findSome?_eq_none_iff.mpr fun n _ => hnone _] at hfirst
  have hspent := Coin.IsSpent_of_asUnspent_eq_none hfirst
  refine ⟨(AccessByTxid w out.hash).2, ?_⟩
  simp only [ApplyTxInUndo, hhc, h0, ↓reduceIte, AccessByTxid, hspent, Bool.not_true,
    Bool.false_eq_true, Except.pure_eq_ok]

/-- **`DisconnectBlock`'s input loop** puts back, one by one, undo coins that have their height
where the view holds nothing, and keeps `fClean`. -/
theorem restoreInputs_spec :
    ∀ (L : List (Coin × CTxIn)) {w : CacheView} {s : COutPoint → Option Coin} (fClean : Bool),
      w.Valid →
      (∀ p ∈ L, p.1.IsSpent = false ∧ p.1.out.scriptPubKey.IsUnspendable = false ∧
        p.1.nHeight ≠ 0) →
      Store.putAll w.lookup (L.map fun p => (p.2.prevout, p.1)) = some s →
      ∃ w', restoreInputs w fClean L = .ok (some fClean, w') ∧ w'.lookup = s ∧ w'.Valid
  | [], w, s, fClean, hw, _, h => by
    rw [List.map_nil, Store.putAll_nil, Option.some.injEq] at h
    exact ⟨w, rfl, h, hw⟩
  | (undo, txin) :: rest, w, s, fClean, hw, hok, h => by
    rw [List.map_cons] at h
    obtain ⟨hnone, hrest⟩ := Store.putAll_cons_eq_some h
    obtain ⟨w₁, happ, hl₁, hw₁⟩ := ApplyTxInUndo_of_lookup_eq_none hw (hok _ List.mem_cons_self) hnone
    obtain ⟨w', hrun, hl', hw'⟩ := restoreInputs_spec rest fClean hw₁
      (fun p hp => hok p (List.mem_cons_of_mem _ hp)) (by rw [hl₁]; exact hrest)
    refine ⟨w', ?_, hl', hw'⟩
    have hclean : (fClean && DISCONNECT_OK != DISCONNECT_UNCLEAN) = fClean := by
      cases fClean <;> rfl
    simp only [restoreInputs, happ, Except.ok_bind, reduceCtorEq, ↓reduceIte, hclean, hrun]

/-- The undo coins paired with the inputs, last first, are the puts that take back the
inputs' takes. -/
theorem map_reverse_zip_prevout (bs : List Coin) (vin : List CTxIn) :
    ((bs.zip vin).reverse.map fun p => (p.2.prevout, p.1)) =
      ((vin.map (·.prevout)).zip bs).reverse := by
  rw [List.map_reverse, List.zip_map_left, ← List.zip_swap, List.map_map]
  rfl

/-- **One transaction taken back**: from a view that holds what applying the transaction to
`s₀` gave, `disconnectTx` with the transaction's undo record leaves a view holding `s₀`, clean.
-/
theorem disconnectTx_spec {nHeight : ℕ} (hh : 0 < nHeight ∧ nHeight < 2 ^ 31)
    {blockUndo : CBlockUndo} (fEnforceBIP30 : Bool) {tx : CTransaction} {i : ℕ}
    (hcb : tx.IsCoinBase = decide (i = 0))
    {s₀ s₁ s₂ : COutPoint → Option Coin} {bs : List Coin} (hok : CoinsOk s₀)
    (h₁ : Store.takeAll s₀ tx.spentOutpoints = some (s₁, bs))
    (h₂ : Store.putAll s₁ (tx.createdCoins nHeight) = some s₂)
    (hundo : 0 < i → blockUndo.vtxundo.getD (i - 1) ⟨[]⟩ = ⟨bs⟩)
    {w : CacheView} (hw : w.Valid) (hwl : w.lookup = s₂) (fClean : Bool) :
    ∃ w', disconnectTx blockUndo nHeight fEnforceBIP30 w fClean tx i = .ok (some fClean, w') ∧
      w'.lookup = s₀ ∧ w'.Valid := by
  -- the outputs are found as they were made, which leaves what the inputs left
  obtain ⟨w₁, hsp, hl₁, hw₁⟩ := spendOutputs_spec tx.GetHash tx.IsCoinBase
    (tx.IsCoinBase && !fEnforceBIP30) hh.2 tx.vout.zipIdx fClean hw
    (by rw [hwl]; exact Store.takeAll_putAll h₂)
  unfold disconnectTx
  simp only [hsp]
  by_cases hi : 0 < i
  · -- the inputs are put back from the undo record, last first
    have hncb : tx.IsCoinBase = false := by rw [hcb, decide_eq_false_iff_not]; omega
    rw [CTransaction.spentOutpoints, hncb, if_neg Bool.false_ne_true] at h₁
    have hlen : bs.length = tx.vin.length := by rw [Store.length_takeAll h₁, List.length_map]
    obtain ⟨w', hrun, hl', hw'⟩ := restoreInputs_spec (bs.zip tx.vin).reverse fClean hw₁
      (fun p hp => (hok.takeAll h₁).2 p.1 (List.of_mem_zip (List.mem_reverse.mp hp)).1)
      (by rw [hl₁, map_reverse_zip_prevout]; exact Store.putAll_takeAll h₁)
    rw [if_pos hi, hundo hi, if_neg (by rw [hlen]; exact not_not_intro rfl)]
    exact ⟨w', hrun, hl', hw'⟩
  · -- the first transaction, a coinbase, spent nothing
    have hcb' : tx.IsCoinBase = true := by rw [hcb, decide_eq_true_iff]; omega
    rw [CTransaction.spentOutpoints, hcb', if_pos rfl, Store.takeAll_nil, Option.some.injEq,
      Prod.mk.injEq] at h₁
    obtain ⟨rfl, rfl⟩ := h₁
    rw [if_neg hi]
    exact ⟨w₁, rfl, hl₁, hw₁⟩

/-- A run of `disconnectTxs` over `L₁` that ends without failing continues into `L₂`. -/
theorem disconnectTxs_append_of_ok {blockUndo : CBlockUndo} {nHeight : ℕ} {fEnforceBIP30 : Bool} :
    ∀ (L₁ L₂ : List (CTransaction × ℕ)) {w w' : CacheView} {fClean f' : Bool},
      disconnectTxs blockUndo nHeight fEnforceBIP30 w fClean L₁ = .ok (some f', w') →
      disconnectTxs blockUndo nHeight fEnforceBIP30 w fClean (L₁ ++ L₂) =
        disconnectTxs blockUndo nHeight fEnforceBIP30 w' f' L₂
  | [], L₂, w, w', fClean, f', h => by
    simp only [disconnectTxs, Except.pure_eq_ok, Except.ok.injEq, Prod.mk.injEq,
      Option.some.injEq] at h
    obtain ⟨rfl, rfl⟩ := h
    rfl
  | (tx, i) :: L₁, L₂, w, w', fClean, f', h => by
    rw [List.cons_append]
    rcases hd : disconnectTx blockUndo nHeight fEnforceBIP30 w fClean tx i with e | ⟨r, w₁⟩
    · simp only [disconnectTxs, hd, Except.error_bind, reduceCtorEq] at h
    · cases r with
      | none =>
        simp only [disconnectTxs, hd, Except.ok_bind, Except.pure_eq_ok, Except.ok.injEq,
          Prod.mk.injEq, reduceCtorEq, false_and] at h
      | some f₁ =>
        simp only [disconnectTxs, hd, Except.ok_bind] at h ⊢
        exact disconnectTxs_append_of_ok L₁ L₂ h

/-- A record that starts the undo list from index `n` on is the one at `n`, and the rest start
it from `n + 1` on. -/
theorem prefix_drop_of_cons {α : Type*} {a : α} {l xs : List α} {n : ℕ}
    (h : a :: l <+: xs.drop n) : l <+: xs.drop (n + 1) ∧ ∀ d, xs.getD n d = a := by
  obtain ⟨t, ht⟩ := h
  refine ⟨⟨t, ?_⟩, fun d => ?_⟩
  · rw [← List.tail_drop, ← ht]
    rfl
  · have h0 : (xs.drop n)[0]? = some a := by rw [← ht]; rfl
    rw [List.getElem?_drop, Nat.add_zero] at h0
    rw [List.getD_eq_getElem?_getD, h0, Option.getD_some]

/-- **The run lemma**: connecting the transactions `txs`, the `k`-th of the block first, applies
them to the view as `applyTxs` does to the set, keeping the undo records of those after the
block's first; and from any view that holds what they left, disconnecting them, last first,
with those records in the block's undo data, leaves a view holding what the view held before,
clean. The records' place in the undo data is carried as a prefix of its tail from `k - 1`. -/
theorem connectTxs_disconnectTxs {nHeight : ℕ} (hh : 0 < nHeight ∧ nHeight < 2 ^ 31) :
    ∀ (txs : List CTransaction) (k : ℕ) {v : CacheView} {s : COutPoint → Option Coin},
      v.Valid → CoinsOk v.lookup → (∀ tx ∈ txs, ∀ out ∈ tx.vout, out.IsNull = false) →
      (∀ p ∈ txs.zipIdx k, p.1.IsCoinBase = decide (p.2 = 0)) →
      applyTxs nHeight v.lookup txs = some s →
      ∃ v₁ vtxundo, connectTxs nHeight v (txs.zipIdx k) = .ok (v₁, vtxundo) ∧
        v₁.lookup = s ∧ v₁.Valid ∧ vtxundo.length = txs.length - (if k = 0 then 1 else 0) ∧
        ∀ (blockUndo : CBlockUndo) (fEnforceBIP30 : Bool),
          vtxundo <+: blockUndo.vtxundo.drop (k - 1) →
          ∀ (w : CacheView) (fClean : Bool), w.Valid → w.lookup = s →
            ∃ w', disconnectTxs blockUndo nHeight fEnforceBIP30 w fClean (txs.zipIdx k).reverse =
              .ok (some fClean, w') ∧ w'.lookup = v.lookup ∧ w'.Valid
  | [], k, v, s, hv, _, _, _, h => by
    rw [applyTxs, Option.some.injEq] at h
    subst h
    exact ⟨v, [], rfl, rfl, hv, by rw [List.length_nil, List.length_nil, Nat.zero_sub],
      fun _ _ _ w _ hw hwl => ⟨w, rfl, hwl, hw⟩⟩
  | tx :: rest, k, v, s, hv, hok, hnull, hcb, h => by
    -- the first transaction, applied to the set and then to the view
    obtain ⟨s₂, happ, hrest⟩ := Option.bind_eq_some_iff.mp h
    obtain ⟨⟨s₁, bs⟩, h₁, h₂⟩ := Option.bind_eq_some_iff.mp happ
    rw [List.zipIdx_cons] at hcb ⊢
    have hcb₀ : tx.IsCoinBase = decide (k = 0) := hcb (tx, k) List.mem_cons_self
    have hnull₀ := hnull tx List.mem_cons_self
    obtain ⟨v₁, hup, hl₁, hv₁⟩ := UpdateCoins_spec hv hnull₀ h₁ h₂
    have hok₁ : CoinsOk v₁.lookup := by
      rw [hl₁]
      exact (hok.takeAll h₁).1.putAll_createdCoins hh hnull₀ h₂
    -- the rest, from the view it leaves
    obtain ⟨v₂, undos, hrun, hl₂, hv₂, hlen, hback⟩ :=
      connectTxs_disconnectTxs hh rest (k + 1) hv₁ hok₁
        (fun t ht => hnull t (List.mem_cons_of_mem _ ht))
        (fun p hp => hcb p (List.mem_cons_of_mem _ hp)) (by rw [hl₁]; exact hrest)
    refine ⟨v₂, if k > 0 then ⟨bs⟩ :: undos else undos, ?_, hl₂, hv₂, ?_, ?_⟩
    · simp only [connectTxs, hup, Except.ok_bind, hrun, Except.pure_eq_ok]
    · rw [if_neg (Nat.succ_ne_zero k), Nat.sub_zero] at hlen
      rw [List.length_cons]
      by_cases hk : k = 0
      · rw [if_neg (by omega), if_pos hk, Nat.add_sub_cancel, hlen]
      · rw [if_pos (by omega), if_neg hk, List.length_cons, Nat.sub_zero, hlen]
    · intro blockUndo fEnforceBIP30 hpre w fClean hw hwl
      -- the records of the rest, and this transaction's record where `disconnectTx` reads it
      have hsplit : undos <+: blockUndo.vtxundo.drop (k + 1 - 1) ∧
          (0 < k → blockUndo.vtxundo.getD (k - 1) ⟨[]⟩ = ⟨bs⟩) := by
        by_cases hk : 0 < k
        · rw [if_pos hk] at hpre
          obtain ⟨hp, hget⟩ := prefix_drop_of_cons hpre
          rw [Nat.sub_add_cancel hk] at hp
          exact ⟨by rwa [Nat.add_sub_cancel], fun _ => hget _⟩
        · rw [if_neg hk] at hpre
          have hk0 : k = 0 := by omega
          subst hk0
          exact ⟨hpre, fun h => absurd h hk⟩
      -- the later transactions are taken back first, then this one
      obtain ⟨w₁, hd₁, hwl₁, hw₁⟩ := hback blockUndo fEnforceBIP30 hsplit.1 w fClean hw hwl
      obtain ⟨w', hd, hl', hw'⟩ := disconnectTx_spec hh fEnforceBIP30 hcb₀ hok h₁ h₂ hsplit.2 hw₁
        (hwl₁.trans hl₁) fClean
      refine ⟨w', ?_, hl', hw'⟩
      rw [List.reverse_cons, disconnectTxs_append_of_ok _ _ hd₁]
      simp only [disconnectTxs, hd, Except.ok_bind, Except.pure_eq_ok]

/-! ### The round trip of a block -/

/-- **Disconnecting a connected block restores the view.** For a view whose coins all have a
height and a spendable script, and a block at a height in `(0, 2 ^ 31)` whose first
transaction is its only coinbase, whose outputs have no amount `-1` and whose transactions
apply in order to what the view holds, connecting the block's coins and then running
`DisconnectBlock` with the undo records that connecting kept returns `DISCONNECT_OK`, and the
view then holds at every outpoint what it held before. -/
theorem DisconnectBlock_connectTxs {v : CacheView} (hv : v.Valid)
    (hcoins : ∀ o c, v.lookup o = some c →
      c.out.scriptPubKey.IsUnspendable = false ∧ c.nHeight ≠ 0)
    {block : CBlock} (hne : block.vtx ≠ [])
    (hcb : ∀ (i : ℕ) (hi : i < block.vtx.length), block.vtx[i].IsCoinBase = decide (i = 0))
    (hnull : ∀ tx ∈ block.vtx, ∀ out ∈ tx.vout, out.IsNull = false)
    {nHeight : ℕ} (hh : 0 < nHeight ∧ nHeight < 2 ^ 31)
    (happ : (applyTxs nHeight v.lookup block.vtx).isSome) (blockHash prevHash : Uint256) :
    ∃ v₁ vtxundo, connectTxs nHeight v block.vtx.zipIdx = .ok (v₁, vtxundo) ∧
      ∃ v₂, DisconnectBlock block ⟨vtxundo⟩ nHeight blockHash prevHash v₁ =
          .ok (DISCONNECT_OK, v₂) ∧ v₂.lookup = v.lookup ∧ v₂.Valid := by
  obtain ⟨s, hs⟩ := Option.isSome_iff_exists.mp happ
  have hok : CoinsOk v.lookup := fun o c hc =>
    ⟨CoinsView.IsSpent_of_lookup_eq_some hc, hcoins o c hc⟩
  have hcb' : ∀ p ∈ block.vtx.zipIdx, p.1.IsCoinBase = decide (p.2 = 0) := fun p hp => by
    obtain ⟨hi, hget⟩ := List.getElem?_eq_some_iff.mp (List.mem_zipIdx_iff_getElem?.mp hp)
    rw [← hget]
    exact hcb p.2 hi
  obtain ⟨v₁, vtxundo, hrun, hl₁, hv₁, hlen, hback⟩ :=
    connectTxs_disconnectTxs hh block.vtx 0 hv hok hnull hcb' hs
  refine ⟨v₁, vtxundo, hrun, ?_⟩
  obtain ⟨w, hd, hwl, hw⟩ := hback ⟨vtxundo⟩
    (!((nHeight == 91722 && blockHash == BIP30_HASH_91722) ||
      (nHeight == 91812 && blockHash == BIP30_HASH_91812)))
    (List.prefix_refl _) v₁ true hv₁ hl₁
  obtain ⟨hsl, -, hsv⟩ := w.SetBestBlock_spec prevHash hw
  refine ⟨w.SetBestBlock prevHash, ?_, hsl.trans hwl, hsv⟩
  -- the undo data has one record for each transaction after the first
  have hsize : ¬(vtxundo.length + 1 ≠ block.vtx.length) := by
    have := List.length_pos_iff.mpr hne
    rw [hlen, if_pos rfl]
    omega
  simp only [DisconnectBlock, hsize, ↓reduceIte, hd, Except.ok_bind, Except.pure_eq_ok]


/-! ### A block spending a coin of the database -/

/-- Output 0 of the transaction with hash `uint256OfNat 1`. -/
def fundingOutpoint : COutPoint := ⟨uint256OfNat 1, 0⟩

/-- A coin of fifty units locked by `OP_TRUE`, made at height `nHeight`. -/
def fundingCoin (nHeight : ℕ) : Coin := ⟨⟨50, [0x51]⟩, false, nHeight⟩

/-- An empty cache over a database that holds `coin` at `fundingOutpoint` alone. -/
def fundedView (coin : Coin) : CacheView :=
  ⟨CCoinsViewCache.empty,
    .db ⟨(∅ : AList fun _ : COutPoint => Coin).insert fundingOutpoint coin, nullHash, []⟩⟩

/-- A coinbase with one output. -/
def coinbaseTx : CTransaction :=
  ⟨[⟨⟨nullHash, COutPoint.NULL_INDEX⟩⟩], [⟨50, [0x51]⟩], uint256OfNat 2⟩

/-- A transaction spending `fundingOutpoint` into one output. -/
def spendTx : CTransaction :=
  ⟨[⟨fundingOutpoint⟩], [⟨40, [0x51]⟩], uint256OfNat 3⟩

/-- A block of `coinbaseTx` and `spendTx`. -/
def spendingBlock : CBlock :=
  ⟨CBlockHeader.null, [coinbaseTx, spendTx]⟩

theorem lookup_fundedView {coin : Coin} (hs : coin.IsSpent = false) :
    (fundedView coin).lookup = fun o => if o = fundingOutpoint then some coin else none := by
  funext o
  show CoinsView.lookup (.cache CCoinsViewCache.empty
    (.db ⟨(∅ : AList fun _ : COutPoint => Coin).insert fundingOutpoint coin, nullHash, []⟩)) o = _
  rw [CoinsView.lookup_cache_of_none rfl, CoinsView.lookup.eq_1]
  by_cases ho : o = fundingOutpoint
  · rw [ho, if_pos rfl, AList.lookup_insert, Option.bind_some, Coin.asUnspent_of_not_spent hs]
  · rw [if_neg ho, AList.lookup_insert_ne ho]
    rfl

theorem valid_fundedView (coin : Coin) : (fundedView coin).Valid :=
  ⟨CacheInv.empty _, trivial⟩

theorem DisconnectBlock_connectTxs_spendingBlock :
    ∃ v₁ vtxundo, connectTxs 1 (fundedView (fundingCoin 5)) spendingBlock.vtx.zipIdx =
        .ok (v₁, vtxundo) ∧
      ∃ v₂, DisconnectBlock spendingBlock ⟨vtxundo⟩ 1 nullHash nullHash v₁ =
          .ok (DISCONNECT_OK, v₂) ∧ v₂.lookup = (fundedView (fundingCoin 5)).lookup ∧ v₂.Valid :=
  DisconnectBlock_connectTxs (valid_fundedView _)
    (fun o c h => by
      rw [lookup_fundedView rfl] at h
      dsimp only at h
      split_ifs at h
      cases h
      exact ⟨rfl, by decide⟩)
    (by decide) (by decide) (by decide) ⟨by decide, by decide⟩ (by decide) nullHash nullHash

/-- **A coin of height zero is not restored.** The view holds one coin, of height zero, and the
block's second transaction spends it; the block applies to what the view holds. Connecting the
block succeeds, and `DisconnectBlock` with the undo records connecting kept returns
`DISCONNECT_FAILED`: the undo coin has height zero, and no output of its transaction is left
for `AccessByTxid` to take the metadata from. -/
theorem DisconnectBlock_connectTxs_heightZero :
    (fundedView (fundingCoin 0)).Valid ∧
      (applyTxs 1 (fundedView (fundingCoin 0)).lookup spendingBlock.vtx).isSome ∧
      ∃ v₁ vtxundo, connectTxs 1 (fundedView (fundingCoin 0)) spendingBlock.vtx.zipIdx =
          .ok (v₁, vtxundo) ∧
        ∀ blockHash prevHash : Uint256, ∃ v₂,
          DisconnectBlock spendingBlock ⟨vtxundo⟩ 1 blockHash prevHash v₁ =
            .ok (DISCONNECT_FAILED, v₂) := by
  refine ⟨valid_fundedView _, by decide, ?_⟩
  -- the set before the block and after each step of it
  let U₀ : COutPoint → Option Coin := fun o =>
    if o = fundingOutpoint then some (fundingCoin 0) else none
  let U₁ := Function.update U₀ ⟨uint256OfNat 2, 0⟩ (some (Coin.make ⟨50, [0x51]⟩ 1 true))
  let s₁ := Function.update U₁ fundingOutpoint none
  let U₂ := Function.update s₁ ⟨uint256OfNat 3, 0⟩ (some (Coin.make ⟨40, [0x51]⟩ 1 false))
  have h₁cb : Store.takeAll U₀ coinbaseTx.spentOutpoints = some (U₀, []) := by
    rw [show coinbaseTx.spentOutpoints = [] by decide]
    rfl
  have h₂cb : Store.putAll U₀ (coinbaseTx.createdCoins 1) = some U₁ := by
    have hk : U₀ ⟨uint256OfNat 2, 0⟩ = none := if_neg (by decide)
    rw [show coinbaseTx.createdCoins 1 =
      [(⟨uint256OfNat 2, 0⟩, Coin.make ⟨50, [0x51]⟩ 1 true)] by decide,
      Store.putAll_cons_of_none hk]
    rfl
  have h₁tx : Store.takeAll U₁ spendTx.spentOutpoints = some (s₁, [fundingCoin 0]) := by
    have hk : U₁ fundingOutpoint = some (fundingCoin 0) :=
      (Function.update_of_ne (by decide) _ _).trans (if_pos rfl)
    rw [show spendTx.spentOutpoints = [fundingOutpoint] by decide, Store.takeAll_cons_of_some hk]
    rfl
  have h₂tx : Store.putAll s₁ (spendTx.createdCoins 1) = some U₂ := by
    have hk : s₁ ⟨uint256OfNat 3, 0⟩ = none := (Function.update_of_ne (by decide) _ _).trans
      ((Function.update_of_ne (by decide) _ _).trans (if_neg (by decide)))
    rw [show spendTx.createdCoins 1 =
      [(⟨uint256OfNat 3, 0⟩, Coin.make ⟨40, [0x51]⟩ 1 false)] by decide,
      Store.putAll_cons_of_none hk]
    rfl
  -- connecting: the spending transaction's record holds the coin of height zero
  have hl₀ : (fundedView (fundingCoin 0)).lookup = U₀ := lookup_fundedView rfl
  obtain ⟨v₁, hup₁, hl₁, hv₁⟩ := UpdateCoins_spec (valid_fundedView (fundingCoin 0)) (by decide)
    (by rw [hl₀]; exact h₁cb) h₂cb
  obtain ⟨v₂, hup₂, hl₂, hv₂⟩ := UpdateCoins_spec hv₁ (by decide) (by rw [hl₁]; exact h₁tx) h₂tx
  refine ⟨v₂, [⟨[fundingCoin 0]⟩], ?_, fun blockHash prevHash => ?_⟩
  · show connectTxs 1 _ [(coinbaseTx, 0), (spendTx, 1)] = _
    simp only [connectTxs, hup₁, hup₂, Except.ok_bind, Except.pure_eq_ok, gt_iff_lt,
      lt_self_iff_false, ↓reduceIte, Nat.lt_add_one]
  · -- disconnecting the spending transaction: its output is spent, and its input cannot be
    -- put back, as no output of the funding transaction is left to give the metadata
    have hstep : ∀ fE : Bool, ∃ w,
        disconnectTx ⟨[⟨[fundingCoin 0]⟩]⟩ 1 fE v₂ true spendTx 1 = .ok (none, w) := by
      intro fE
      obtain ⟨w₁, hsp, hwl₁, -⟩ := spendOutputs_spec spendTx.GetHash spendTx.IsCoinBase
        (spendTx.IsCoinBase && !fE) (by norm_num : 1 < 2 ^ 31) spendTx.vout.zipIdx true hv₂
        (by rw [hl₂]; exact Store.takeAll_putAll h₂tx)
      have hnone : ∀ n : UInt32, w₁.lookup ⟨fundingOutpoint.hash, n⟩ = none := fun n => by
        rw [hwl₁]
        by_cases hn : (⟨fundingOutpoint.hash, n⟩ : COutPoint) = fundingOutpoint
        · rw [hn]
          exact Function.update_self _ _ _
        · have h₂ : (⟨fundingOutpoint.hash, n⟩ : COutPoint) ≠ ⟨uint256OfNat 2, 0⟩ :=
            fun h => absurd (COutPoint.mk.inj h).1 (by decide)
          exact (Function.update_of_ne hn _ _).trans
            ((Function.update_of_ne h₂ _ _).trans (if_neg hn))
      obtain ⟨w₂, hfail⟩ : ∃ w₂, ApplyTxInUndo (fundingCoin 0) w₁ fundingOutpoint =
          .ok (DISCONNECT_FAILED, w₂) := ApplyTxInUndo_eq_failed rfl hnone
      refine ⟨w₂, ?_⟩
      unfold disconnectTx
      have hzip : (([fundingCoin 0].zip spendTx.vin).reverse : List (Coin × CTxIn)) =
          [(fundingCoin 0, ⟨fundingOutpoint⟩)] := by decide
      simp only [hsp, Nat.lt_add_one, ↓reduceIte, Nat.sub_self, List.getD_cons_zero,
        show [fundingCoin 0].length = spendTx.vin.length by decide, ne_eq, not_true_eq_false, hzip,
        restoreInputs, hfail, Except.ok_bind, Except.pure_eq_ok]
    obtain ⟨w, hw⟩ := hstep (!((1 == 91722 && blockHash == BIP30_HASH_91722) ||
      (1 == 91812 && blockHash == BIP30_HASH_91812)))
    refine ⟨w, ?_⟩
    have hsize : ¬([(⟨[fundingCoin 0]⟩ : CTxUndo)].length + 1 ≠ spendingBlock.vtx.length) := by
      decide
    have hrev : spendingBlock.vtx.zipIdx.reverse = [(spendTx, 1), (coinbaseTx, 0)] := rfl
    simp only [DisconnectBlock, hsize, ↓reduceIte, hrev, disconnectTxs, hw, Except.ok_bind,
      Except.pure_eq_ok]

end Tenscoin
