import Fedoracoin.Conservation

/-!
# Views by outpoint

A view as a map from outpoints to coins, a coin being an unspent output with the coinbase
flag and the height of its transaction.  In these terms connecting a block removes the coins
that are spent and adds those of its transactions (`BlockRun.coin_of_unspent`,
`BlockRun.coin_of_created`), and disconnecting one keeps every coin of an older transaction
(`disconnectBlock_coin`).

A view is sourced if each of its coins is one of the outputs kept from a transaction of that
id.  Connecting and disconnecting preserve this, the latter if the undo data is sourced too,
which is what connecting leaves behind.
-/

namespace Fedoracoin

open CCoinsView

/-- An unspent output with what its view knows of the transaction. -/
@[ext]
structure Coin where
  out : CTxOut
  fCoinBase : Bool
  nHeight : Int
deriving DecidableEq

namespace CCoins

def coin (c : CCoins) (n : Nat) : Option Coin :=
  (c.outputs n).map fun txout ↦ ⟨txout, c.fCoinBase, c.nHeight⟩

variable {c c' : CCoins} {n : Nat} {undo : CTxInUndo} {k : Coin}

theorem coin_eq_some : c.coin n = some k ↔
    c.outputs n = some k.out ∧ k.fCoinBase = c.fCoinBase ∧ k.nHeight = c.nHeight := by
  rw [CCoins.coin, Option.map_eq_some_iff]
  constructor
  · rintro ⟨txout, hout, rfl⟩
    exact ⟨hout, rfl, rfl⟩
  · rintro ⟨hout, hcb, hh⟩
    exact ⟨_, hout, Coin.ext rfl hcb.symm hh.symm⟩

theorem isAvailable_iff_coin : c.isAvailable n = true ↔ ∃ k, c.coin n = some k := by
  rw [isAvailable_iff]
  constructor
  · rintro ⟨txout, hout⟩
    exact ⟨⟨txout, c.fCoinBase, c.nHeight⟩, coin_eq_some.mpr ⟨hout, rfl, rfl⟩⟩
  · rintro ⟨k, hk⟩
    exact ⟨_, (coin_eq_some.mp hk).1⟩

theorem coin_of_isPruned (h : c.isPruned = true) : c.coin n = none := by
  rw [CCoins.coin, isPruned_iff.mp h]
  rfl

theorem exists_coin_of_not_isPruned (h : c.isPruned = false) : ∃ n k, c.coin n = some k := by
  by_contra hno
  have hnone : c.outputs = fun _ ↦ none := by
    funext n
    rw [Option.eq_none_iff_forall_ne_some]
    intro txout hout
    exact hno ⟨n, ⟨txout, c.fCoinBase, c.nHeight⟩, coin_eq_some.mpr ⟨hout, rfl, rfl⟩⟩
  rw [isPruned_iff.mpr hnone] at h
  cases h

theorem coin_spend (h : c.spend n = some (c', undo)) : c'.coin = Function.update c.coin n none := by
  obtain ⟨-, hout, hcb, hh, -⟩ := spend_eq_some h
  funext m
  rw [CCoins.coin, hout, hcb, hh]
  by_cases hm : m = n
  · rw [hm, Function.update_self, Function.update_self]
    rfl
  · rw [Function.update_of_ne hm, Function.update_of_ne hm]
    rfl

/-- A coin where one was written is the one written. -/
theorem coin_write {m : Nat} {txout : CTxOut}
    (h : coin { c with vout := SparseList.write .null c.vout n txout } m = some k) :
    m ≠ n ∧ c.coin m = some k ∨ m = n ∧ k.out = txout ∧ k.fCoinBase = c.fCoinBase := by
  obtain ⟨hout, hcb, hh⟩ := coin_eq_some.mp h
  rw [outputs, SparseList.get_write_filter CTxOut.isNull_null] at hout
  by_cases hm : m = n
  · rw [hm, Function.update_self, Option.filter_eq_some_iff] at hout
    exact Or.inr ⟨hm, (Option.some.inj hout.1).symm, hcb⟩
  · rw [Function.update_of_ne hm] at hout
    exact Or.inl ⟨hm, coin_eq_some.mpr ⟨hout, hcb, hh⟩⟩

theorem coin_write_of_ne {m : Nat} {txout : CTxOut} (hm : m ≠ n) :
    coin { c with vout := SparseList.write .null c.vout n txout } m = c.coin m := by
  rw [CCoins.coin, outputs, SparseList.get_write_filter CTxOut.isNull_null,
    Function.update_of_ne hm]
  rfl

/-- The coins after a restoration that was clean are those from before and the one restored. -/
theorem coin_restore (hclean : (c.restore n undo).2 = true) :
    (∀ m k, c.coin m = some k → (c.restore n undo).1.coin m = some k) ∧
      ∀ m k, (c.restore n undo).1.coin m = some k → c.coin m = some k ∨
        m = n ∧ k.out = undo.txout ∧ (undo.nHeight ≠ 0 ∧ k.fCoinBase = undo.fCoinBase ∨
          ∃ m' k', c.coin m' = some k' ∧ k.fCoinBase = k'.fCoinBase) := by
  by_cases hheight : undo.nHeight ≠ 0
  · -- the last output of its transaction, which has no others
    rw [restore, if_pos hheight, if_pos hheight, Bool.and_eq_true] at hclean
    rw [restore, if_pos hheight, if_pos hheight]
    constructor
    · intro m k hk
      rw [coin_of_isPruned hclean.1] at hk
      cases hk
    · intro m k hk
      rcases coin_write hk with ⟨-, hnil⟩ | ⟨hm, hout, hcb⟩
      · exact absurd (coin_eq_some.mp hnil).1 (by simp [outputs])
      · exact Or.inr ⟨hm, hout, Or.inl ⟨hheight, hcb⟩⟩
  · rw [restore, if_neg hheight, if_neg hheight, Bool.and_eq_true, Bool.not_eq_true',
      Bool.not_eq_true'] at hclean
    rw [restore, if_neg hheight, if_neg hheight]
    obtain ⟨hpruned, hav⟩ := hclean
    constructor
    · intro m k hk
      rw [coin_write_of_ne, hk]
      rintro rfl
      rw [isAvailable_iff_coin.mpr ⟨k, hk⟩] at hav
      cases hav
    · intro m k hk
      rcases coin_write hk with ⟨-, hk⟩ | ⟨hm, hout, hcb⟩
      · exact Or.inl hk
      · obtain ⟨m', k', hk'⟩ := exists_coin_of_not_isPruned hpruned
        exact Or.inr ⟨hm, hout,
          Or.inr ⟨m', k', hk', hcb.trans (coin_eq_some.mp hk').2.1.symm⟩⟩

end CCoins

/-- The outputs of a transaction that a view keeps. -/
def CTransaction.kept (tx : CTransaction) (n : Nat) : Option CTxOut := (CCoins.ofTx tx 0).outputs n

theorem CCoins.coin_ofTx {tx : CTransaction} {nHeight : Int} {n : Nat} :
    (CCoins.ofTx tx nHeight).coin n =
      (tx.kept n).map fun txout ↦ ⟨txout, tx.isCoinBase, nHeight⟩ := rfl

/-- What is kept is one of the outputs. -/
theorem CTransaction.kept_eq_some {tx : CTransaction} {n : Nat} {txout : CTxOut}
    (h : tx.kept n = some txout) : tx.vout[n]? = some txout ∧ txout.isNull = false := by
  rw [kept, CCoins.ofTx, CCoins.outputs_clearUnspendable, Option.filter_eq_some_iff] at h
  exact SparseList.get_eq_some_iff.mp h.1

/-- The coin at an outpoint. -/
def CCoinsView.coin (view : CCoinsView) (o : COutPoint) : Option Coin :=
  (view.getCoins o.hash).coin o.n

/-! ## Connecting -/

section

variable {env : BlockEnv} {nHeight : Int} {view view' : CCoinsView} {txid : Uint256} {c : CCoins}
  {tx : CTransaction} {txin : CTxIn} {undo : CTxInUndo} {vin : List CTxIn}
  {vprevout : List CTxInUndo} {s s' : ConnectState} {p : CTransaction × Option CTxUndo}
  {l : List (CTransaction × Option CTxUndo)} {o : COutPoint} {n : Nat}

theorem coin_setCoins_self : (view.setCoins txid c).coin ⟨txid, n⟩ = c.coin n := by
  rw [CCoinsView.coin, getCoins_setCoins_self]

theorem coin_setCoins_of_ne (h : o.hash ≠ txid) : (view.setCoins txid c).coin o = view.coin o := by
  rw [CCoinsView.coin, getCoins_setCoins_of_ne h, CCoinsView.coin]

theorem coin_spendInput (h : view.spendInput txin = .ok (view', undo)) :
    view'.coin = Function.update view.coin txin.prevout none := by
  obtain ⟨c, c', hl, hspend, rfl⟩ := spendInput_eq_ok h
  have hc : view.getCoins txin.prevout.hash = c := by rw [getCoins, hl, Option.getD_some]
  have hcoin := CCoins.coin_spend hspend
  funext o
  by_cases hhash : o.hash = txin.prevout.hash
  · obtain ⟨hash, m⟩ := o
    obtain rfl : hash = txin.prevout.hash := hhash
    rw [coin_setCoins_self, hcoin]
    by_cases hm : m = txin.prevout.n
    · rw [hm, Function.update_self]
      exact (Function.update_self txin.prevout none view.coin).symm
    · rw [Function.update_of_ne hm,
        Function.update_of_ne fun heq ↦ hm (congrArg COutPoint.n heq), CCoinsView.coin, hc]
  · rw [coin_setCoins_of_ne hhash,
      Function.update_of_ne fun heq ↦ hhash (congrArg COutPoint.hash heq)]

theorem coin_spendInputs (h : view.spendInputs vin = .ok (view', vprevout))
    (hspent : ∀ txin ∈ vin, txin.prevout ≠ o) : view'.coin o = view.coin o := by
  induction vin generalizing view vprevout with
  | nil =>
      obtain ⟨rfl, _⟩ := Prod.mk.inj (Except.ok.inj h)
      rfl
  | cons txin vin ih =>
      obtain ⟨view₁, undo, undos, hstep, hrest, _⟩ := spendInputs_cons_eq_ok.mp h
      rw [ih hrest fun txin' hmem ↦ hspent txin' (List.mem_cons_of_mem _ hmem),
        coin_spendInput hstep, Function.update_of_ne (hspent txin List.mem_cons_self).symm]

/-- A coin that is not spent stays. -/
theorem TxStep.coin_of_ne (h : TxStep env nHeight s p s') (hid : o.hash ≠ env.getTxHash p.1)
    (hspent : ∀ txin ∈ p.1.vin, txin.prevout ≠ o) : s'.view.coin o = s.view.coin o := by
  cases h with
  | coinbase _ hview _ => rw [hview, coin_setCoins_of_ne hid]
  | spend _ _ _ _ hspend hview _ =>
      rw [hview, coin_setCoins_of_ne hid, coin_spendInputs hspend hspent]

/-- The coins of the transaction are its outputs. -/
theorem TxStep.coin_self (h : TxStep env nHeight s p s') :
    s'.view.coin ⟨env.getTxHash p.1, n⟩ = (CCoins.ofTx p.1 nHeight).coin n := by
  cases h with
  | coinbase _ hview _ => rw [hview, coin_setCoins_self]
  | spend _ _ _ _ _ hview _ => rw [hview, coin_setCoins_self]

theorem coin_run_of_ne (h : Run (TxStep env nHeight) s l s')
    (hid : ∀ p ∈ l, o.hash ≠ env.getTxHash p.1)
    (hspent : ∀ p ∈ l, ∀ txin ∈ p.1.vin, txin.prevout ≠ o) : s'.view.coin o = s.view.coin o := by
  induction h with
  | nil => rfl
  | cons hstep _ ih =>
      rw [List.forall_mem_cons] at hid hspent
      rw [ih hid.2 hspent.2, hstep.coin_of_ne hid.1 hspent.1]

theorem coin_run_of_mem (h : Run (TxStep env nHeight) s l s')
    (hnd : (l.map fun p ↦ env.getTxHash p.1).Nodup) (hp : p ∈ l)
    (hspent : ∀ q ∈ l, ∀ txin ∈ q.1.vin, txin.prevout ≠ ⟨env.getTxHash p.1, n⟩) :
    s'.view.coin ⟨env.getTxHash p.1, n⟩ = (CCoins.ofTx p.1 nHeight).coin n := by
  induction h with
  | nil => exact absurd hp List.not_mem_nil
  | @cons _ _ _ q l hstep hrun ih =>
      rw [List.map_cons, List.nodup_cons] at hnd
      rw [List.forall_mem_cons] at hspent
      rcases List.mem_cons.mp hp with rfl | hp
      · rw [coin_run_of_ne hrun (fun q hq heq ↦ hnd.1 ?_) hspent.2, hstep.coin_self]
        exact List.mem_map.mpr ⟨q, hq, heq.symm⟩
      · exact ih hnd.2 hp hspent.2

end

section

variable {env : BlockEnv} {fuel : Nat} {block : CBlock} {pindex pindex' : ConnectIndex}
  {view : CCoinsView} {fJustCheck : Bool} {r : Connected} {o : COutPoint} {k : Coin}
  {tx : CTransaction} {n : Nat}

theorem coin_ite_setBestBlock {view : CCoinsView} {hash : Uint256} (b : Prop) [Decidable b] :
    (if b then view else view.setBestBlock hash).coin = view.coin := by
  split <;> rfl

/-- **What a block does not spend stays.** -/
theorem BlockRun.coin_of_unspent (h : BlockRun env fuel block pindex view fJustCheck pindex' r)
    (hk : view.coin o = some k)
    (hspent : ∀ tx ∈ block.vtx, ∀ txin ∈ tx.vin, txin.prevout ≠ o) :
    r.view.coin o = some k := by
  obtain ⟨s, hrun, hview, -⟩ := h.run
  have hmem : ∀ p ∈ block.vtx.zip (none :: r.blockundo.vtxundo.map some), p.1 ∈ block.vtx :=
    fun p hp ↦ (List.of_mem_zip hp).1
  rw [hview, coin_ite_setBestBlock, coin_run_of_ne hrun ?_ fun p hp ↦ hspent p.1 (hmem p hp)]
  · exact hk
  · -- an id of the block has no coins before it
    intro p hp heq
    have hnone := h.fresh p.1 (hmem p hp)
    rw [← heq, utxos_eq, CCoins.toEntry_eq_none] at hnone
    rw [CCoinsView.coin, CCoins.coin_of_isPruned hnone] at hk
    cases hk

/-- **What a block creates and does not spend is there after it.** -/
theorem BlockRun.coin_of_created (h : BlockRun env fuel block pindex view fJustCheck pindex' r)
    (htx : tx ∈ block.vtx)
    (hspent : ∀ tx' ∈ block.vtx, ∀ txin ∈ tx'.vin, txin.prevout ≠ ⟨env.getTxHash tx, n⟩) :
    r.view.coin ⟨env.getTxHash tx, n⟩ = (CCoins.ofTx tx pindex.nHeight).coin n := by
  obtain ⟨s, hrun, hview, -⟩ := h.run
  rw [← h.map_fst] at htx
  obtain ⟨p, hp, rfl⟩ := List.mem_map.mp htx
  rw [hview, coin_ite_setBestBlock]
  exact coin_run_of_mem hrun h.nodup hp
    fun q hq ↦ hspent q.1 (List.of_mem_zip hq).1

end

/-! ## Sources -/

/-- The output at `o` is one kept from `tx`, a transaction of `S`. -/
structure KeptFrom (getHash : CTransaction → Uint256) (S : Set CTransaction) (o : COutPoint)
    (txout : CTxOut) (tx : CTransaction) : Prop where
  mem : tx ∈ S
  hash : getHash tx = o.hash
  kept : tx.kept o.n = some txout

/-- Each coin of the view is kept from a transaction of `S`. -/
def CCoinsView.Sourced (getHash : CTransaction → Uint256) (S : Set CTransaction)
    (view : CCoinsView) : Prop :=
  ∀ o k, view.coin o = some k →
    ∃ tx, KeptFrom getHash S o k.out tx ∧ k.fCoinBase = tx.isCoinBase

/-- The same of the undo record for an input.  Its flag counts when it has a height. -/
def SourcedUndo (getHash : CTransaction → Uint256) (S : Set CTransaction)
    (p : CTxIn × CTxInUndo) : Prop :=
  ∃ tx, KeptFrom getHash S p.1.prevout p.2.txout tx ∧
    (p.2.nHeight ≠ 0 → p.2.fCoinBase = tx.isCoinBase)

/-- The same of the undo records for some transactions. -/
def SourcedUndos (getHash : CTransaction → Uint256) (S : Set CTransaction)
    (l : List (CTransaction × Option CTxUndo)) : Prop :=
  ∀ p ∈ l, ∀ txundo, p.2 = some txundo →
    ∀ q ∈ p.1.vin.zip txundo.vprevout, SourcedUndo getHash S q

section

variable {env : BlockEnv} {S : Set CTransaction} {nHeight : Int} {view view' : CCoinsView}
  {tx : CTransaction} {txin : CTxIn} {undo : CTxInUndo} {vin : List CTxIn}
  {vprevout : List CTxInUndo} {s s' : ConnectState} {p : CTransaction × Option CTxUndo}
  {l : List (CTransaction × Option CTxUndo)}

theorem CCoinsView.Sourced.setCoins (h : view.Sourced env.getTxHash S) (htx : tx ∈ S) :
    (view.setCoins (env.getTxHash tx) (.ofTx tx nHeight)).Sourced env.getTxHash S := by
  rintro ⟨hash, n⟩ k hk
  by_cases hhash : hash = env.getTxHash tx
  · subst hhash
    rw [coin_setCoins_self, CCoins.coin_eq_some] at hk
    exact ⟨tx, ⟨htx, rfl, hk.1⟩, hk.2.1⟩
  · rw [coin_setCoins_of_ne hhash] at hk
    exact h _ k hk

theorem CCoinsView.Sourced.spendInput (h : view.Sourced env.getTxHash S)
    (hspend : view.spendInput txin = .ok (view', undo)) :
    view'.Sourced env.getTxHash S ∧ SourcedUndo env.getTxHash S (txin, undo) := by
  constructor
  · intro o k hk
    rw [coin_spendInput hspend] at hk
    by_cases ho : o = txin.prevout
    · rw [ho, Function.update_self] at hk
      cases hk
    · rw [Function.update_of_ne ho] at hk
      exact h o k hk
  · obtain ⟨c, c', hl, hc, -⟩ := spendInput_eq_ok hspend
    obtain ⟨hout, -, -, -, -, -, hlast, hleft⟩ := CCoins.spend_eq_some hc
    have hget : view.getCoins txin.prevout.hash = c := by rw [getCoins, hl, Option.getD_some]
    obtain ⟨tx, hkept, hcb⟩ := h txin.prevout ⟨undo.txout, c.fCoinBase, c.nHeight⟩
      (by rw [CCoinsView.coin, hget]; exact CCoins.coin_eq_some.mpr ⟨hout, rfl, rfl⟩)
    refine ⟨tx, hkept, fun hheight ↦ ?_⟩
    cases hp : c'.isPruned with
    | true => rw [← hcb, congrArg CTxInUndo.fCoinBase (hlast hp)]
    | false => exact absurd (congrArg CTxInUndo.nHeight (hleft hp)) hheight

theorem CCoinsView.Sourced.spendInputs (h : view.Sourced env.getTxHash S)
    (hspend : view.spendInputs vin = .ok (view', vprevout)) :
    view'.Sourced env.getTxHash S ∧ ∀ q ∈ vin.zip vprevout, SourcedUndo env.getTxHash S q := by
  induction vin generalizing view vprevout with
  | nil =>
      obtain ⟨rfl, rfl⟩ := Prod.mk.inj (Except.ok.inj hspend)
      exact ⟨h, by simp⟩
  | cons txin vin ih =>
      obtain ⟨view₁, undo, undos, hstep, hrest, rfl⟩ := spendInputs_cons_eq_ok.mp hspend
      obtain ⟨h₁, hundo⟩ := h.spendInput hstep
      obtain ⟨h', hundos⟩ := ih h₁ hrest
      rw [List.zip_cons_cons, List.forall_mem_cons]
      exact ⟨h', hundo, hundos⟩

theorem TxStep.sourced (h : TxStep env nHeight s p s') (hs : s.view.Sourced env.getTxHash S)
    (hp : p.1 ∈ S) :
    s'.view.Sourced env.getTxHash S ∧ ∀ txundo, p.2 = some txundo →
      ∀ q ∈ p.1.vin.zip txundo.vprevout, SourcedUndo env.getTxHash S q := by
  cases h with
  | coinbase _ hview _ =>
      rw [hview]
      exact ⟨hs.setCoins hp, nofun⟩
  | spend _ _ _ _ hspend hview _ =>
      obtain ⟨h', hundos⟩ := hs.spendInputs hspend
      rw [hview]
      refine ⟨h'.setCoins hp, fun txundo htxundo ↦ ?_⟩
      obtain rfl := Option.some.inj htxundo
      exact hundos

/-- Connecting transactions of `S` leaves a sourced view, and sourced undo records. -/
theorem sourced_run (h : Run (TxStep env nHeight) s l s') (hs : s.view.Sourced env.getTxHash S)
    (hl : ∀ p ∈ l, p.1 ∈ S) :
    s'.view.Sourced env.getTxHash S ∧ SourcedUndos env.getTxHash S l := by
  induction h with
  | nil => exact ⟨hs, nofun⟩
  | cons hstep _ ih =>
      rw [List.forall_mem_cons] at hl
      obtain ⟨h₁, hundo⟩ := hstep.sourced hs hl.1
      obtain ⟨h', hundos⟩ := ih h₁ hl.2
      exact ⟨h', List.forall_mem_cons.mpr ⟨hundo, hundos⟩⟩

end

/-! ## Disconnecting -/

/-- As long as the rollback of a block is clean, its view is sourced and has all coins of `view`
that are not of the block. -/
def CleanRollback (getHash : CTransaction → Uint256) (S : Set CTransaction) (block : CBlock)
    (view : CCoinsView) (s : UndoState) : Prop :=
  s.fClean = true → s.view.Sourced getHash S ∧
    ∀ o k, view.coin o = some k → (∀ tx ∈ block.vtx, getHash tx ≠ o.hash) →
      s.view.coin o = some k

section

variable {env : BlockEnv} {S : Set CTransaction} {nHeight : Int} {block : CBlock}
  {view view' : CCoinsView} {s s' : UndoState} {tx : CTransaction}

theorem CleanRollback.restoreInput {p : CTxIn × CTxInUndo} (hinj : Set.InjOn env.getTxHash S)
    (h : CleanRollback env.getTxHash S block view s) (hp : SourcedUndo env.getTxHash S p)
    (hstep : restoreInput s p = .ok s') : CleanRollback env.getTxHash S block view s' := by
  obtain rfl := Except.ok.inj hstep
  intro hclean
  obtain ⟨hs, hrestore⟩ := Bool.and_eq_true _ _ ▸ hclean
  obtain ⟨hsourced, hkeeps⟩ := h hs
  obtain ⟨hold, hnew⟩ := CCoins.coin_restore hrestore
  obtain ⟨tx, hkept, hcb⟩ := hp
  obtain ⟨⟨⟨hash, n⟩, scriptSig, nSequence⟩, undo⟩ := p
  constructor
  · rintro ⟨hash', m⟩ k hk
    by_cases hhash : hash' = hash
    · subst hhash
      rw [coin_setCoins_self] at hk
      rcases hnew m k hk with hk | ⟨rfl, hout, ⟨hheight, hflag⟩ | ⟨m', k', hk', hflag⟩⟩
      · exact hsourced ⟨hash', m⟩ k hk
      · rw [hout]
        exact ⟨tx, hkept, hflag.trans (hcb hheight)⟩
      · -- another output of the transaction is there, and knows its source
        obtain ⟨tx', hkept', hcb'⟩ := hsourced ⟨hash', m'⟩ k' hk'
        obtain rfl := hinj hkept'.mem hkept.mem (hkept'.hash.trans hkept.hash.symm)
        rw [hout]
        exact ⟨tx', hkept, hflag.trans hcb'⟩
    · rw [coin_setCoins_of_ne hhash] at hk
      exact hsourced _ k hk
  · rintro ⟨hash', m⟩ k hk hnot
    have hs := hkeeps _ k hk hnot
    by_cases hhash : hash' = hash
    · subst hhash
      rw [coin_setCoins_self]
      exact hold m k hs
    · rw [coin_setCoins_of_ne hhash]
      exact hs

theorem CleanRollback.removeOutputs (h : CleanRollback env.getTxHash S block view s)
    (htx : tx ∈ block.vtx) :
    CleanRollback env.getTxHash S block view (removeOutputs env nHeight s tx) := by
  intro hclean
  obtain ⟨hsourced, hkeeps⟩ := h (Bool.and_eq_true _ _ ▸ hclean).1
  rw [Fedoracoin.removeOutputs]
  dsimp only
  split
  · constructor
    · rintro ⟨hash, m⟩ k hk
      by_cases hhash : hash = env.getTxHash tx
      · subst hhash
        rw [coin_setCoins_self] at hk
        exact absurd (CCoins.coin_eq_some.mp hk).1 (by simp [CCoins.outputs])
      · rw [coin_setCoins_of_ne hhash] at hk
        exact hsourced _ k hk
    · intro o k hk hnot
      rw [coin_setCoins_of_ne (hnot tx htx).symm]
      exact hkeeps o k hk hnot
  · exact ⟨hsourced, hkeeps⟩

theorem CleanRollback.disconnectTx {p : CTransaction × Option CTxUndo}
    (hinj : Set.InjOn env.getTxHash S) (h : CleanRollback env.getTxHash S block view s)
    (hp : p.1 ∈ block.vtx)
    (hundo : ∀ txundo, p.2 = some txundo →
      ∀ q ∈ p.1.vin.zip txundo.vprevout, SourcedUndo env.getTxHash S q)
    (hstep : disconnectTx env nHeight s p = .ok s') :
    CleanRollback env.getTxHash S block view s' := by
  obtain ⟨tx, _ | txundo⟩ := p
  · obtain rfl := Except.ok.inj hstep
    exact h.removeOutputs hp
  · simp only [Fedoracoin.disconnectTx, bind_eq_ok] at hstep
    obtain ⟨_, -, hstep⟩ := hstep
    refine Run.undoAll_invariant ?_ hstep (h.removeOutputs hp)
    intro t t' q hq ht hq'
    exact ht.restoreInput hinj (hundo txundo rfl q hq) hq'

/-- **Disconnecting keeps the coins that are not of the block**, and keeps the view sourced. -/
theorem disconnectBlock_coin {pindex : ConnectIndex} {undoData : Option CBlockUndo}
    (hinj : Set.InjOn env.getTxHash S) (hview : view.Sourced env.getTxHash S)
    (hundo : ∀ blockUndo, undoData = some blockUndo → SourcedUndos env.getTxHash S
      (block.vtx.zip (none :: blockUndo.vtxundo.map some)))
    (h : disconnectBlock env undoData block pindex view = .ok (true, view')) :
    view'.Sourced env.getTxHash S ∧
      ∀ o k, view.coin o = some k → (∀ tx ∈ block.vtx, env.getTxHash tx ≠ o.hash) →
        view'.coin o = some k := by
  have hstart : CleanRollback env.getTxHash S block view { view := view } :=
    fun _ ↦ ⟨hview, fun _ _ hk _ ↦ hk⟩
  rw [disconnectBlock.eq_def] at h
  obtain ⟨_, -, h⟩ := bind_eq_ok.mp h
  obtain ⟨_, -, h⟩ := bind_eq_ok.mp h
  cases hprev : pindex.pprev with
  | none =>
      rw [hprev] at h
      cases h
  | some hashPrev =>
      rw [hprev] at h
      cases undoData with
      | none => cases h
      | some blockUndo =>
          obtain ⟨_, -, h⟩ := bind_eq_ok.mp h
          obtain ⟨s, hall, h⟩ := bind_eq_ok.mp h
          obtain ⟨hclean, rfl⟩ := Prod.mk.inj (Except.ok.inj h)
          have hend : CleanRollback env.getTxHash S block view s := by
            refine Run.undoAll_invariant ?_ hall hstart
            intro t t' p hp ht hstep
            exact ht.disconnectTx hinj (List.of_mem_zip hp).1 (hundo blockUndo rfl p hp) hstep
          exact hend hclean

end

/-! ## Blocks -/

section

variable {env : BlockEnv} {S : Set CTransaction} {fuel : Nat} {block : CBlock}
  {pindex : ConnectIndex} {view : CCoinsView} {s : ConnectState}

theorem zip_mem_of_vtx {undos : List (Option CTxUndo)} (hS : ∀ tx ∈ block.vtx, tx ∈ S) :
    ∀ p ∈ block.vtx.zip undos, p.1 ∈ S := by
  intro p hp
  exact hS p.1 (List.of_mem_zip hp).1

/-- **Connecting leaves a sourced view and sourced undo data.** -/
theorem sourced_connectTransactions (hshape : BlockShape env block)
    (hview : view.Sourced env.getTxHash S) (hS : ∀ tx ∈ block.vtx, tx ∈ S)
    (h : connectTransactions env fuel block pindex view = .ok s) :
    s.view.Sourced env.getTxHash S ∧
      SourcedUndos env.getTxHash S (block.vtx.zip (none :: s.vtxundo.map some)) := by
  obtain ⟨-, -, hrun, -⟩ := connectTransactions_run hshape h
  exact sourced_run hrun hview (zip_mem_of_vtx hS)

theorem BlockRun.sourced {pindex' : ConnectIndex} {fJustCheck : Bool} {r : Connected}
    (h : BlockRun env fuel block pindex view fJustCheck pindex' r)
    (hview : view.Sourced env.getTxHash S) (hS : ∀ tx ∈ block.vtx, tx ∈ S) :
    r.view.Sourced env.getTxHash S := by
  obtain ⟨s, hrun, hview', -⟩ := h.run
  obtain ⟨hs, -⟩ := sourced_run hrun hview (zip_mem_of_vtx hS)
  intro o k hk
  rw [hview', coin_ite_setBestBlock] at hk
  exact hs o k hk

variable {io : UndoIO} {pindex' : ConnectIndex} {r : Connected}

/-- Nothing but the best block changes with the genesis block. -/
theorem connectBlock_genesis
    (hgenesis : env.getBlockHash block.toCBlockHeader = env.hashGenesisBlock)
    (h : connectBlock env io fuel block pindex view false = (pindex', .ok r)) :
    r.view = view.setBestBlock pindex.blockHash := by
  rw [connectBlock] at h
  split at h
  · cases (Prod.mk.inj h).2
  · split at h
    · cases (Prod.mk.inj h).2
    · obtain rfl := Except.ok.inj (Prod.mk.inj h).2
      rfl

/-- A `ConnectBlock` that has written undo data has checked the block. -/
theorem shape_of_written {res : Except Failure Connected}
    (h : connectBlock env io fuel block pindex view false = (pindex', res))
    (hnew : pindex.undoPosIsNull = true) (hhave : pindex'.undoPosIsNull = false) :
    BlockShape env block := by
  rw [connectBlock] at h
  split at h
  · obtain ⟨rfl, -⟩ := Prod.mk.inj h
    rw [hnew] at hhave
    cases hhave
  · rename_i hcheck
    exact checkBlock_shape hcheck

theorem sourced_connectBlock
    (h : connectBlock env io fuel block pindex view false = (pindex', .ok r))
    (hview : view.Sourced env.getTxHash S) (hS : ∀ tx ∈ block.vtx, tx ∈ S) :
    r.view.Sourced env.getTxHash S := by
  by_cases hgenesis : env.getBlockHash block.toCBlockHeader = env.hashGenesisBlock
  · rw [connectBlock_genesis hgenesis h]
    exact hview
  · exact (connectBlock_run hgenesis h).sourced hview hS

theorem connectBlock_coin_of_unspent {o : COutPoint} {k : Coin}
    (h : connectBlock env io fuel block pindex view false = (pindex', .ok r))
    (hk : view.coin o = some k)
    (hspent : ∀ tx ∈ block.vtx, ∀ txin ∈ tx.vin, txin.prevout ≠ o) :
    r.view.coin o = some k := by
  by_cases hgenesis : env.getBlockHash block.toCBlockHeader = env.hashGenesisBlock
  · rw [connectBlock_genesis hgenesis h]
    exact hk
  · exact (connectBlock_run hgenesis h).coin_of_unspent hk hspent

end

end Fedoracoin
