import Fedoracoin.BlockTemplate
import Fedoracoin.ScriptThreads

/-!
# Views with the same entries

What `ConnectBlock` does with a transaction depends on the entries of the transactions that it
spends from, and not on how they are stored.  Two views may differ in that one has a pruned
entry where the other has none, and in their entries for other transactions.
-/

namespace Fedoracoin

open RunningSum

namespace CCoinsView

/-- The views have the same entries for the transactions in `S`, and the same best block. -/
structure AgreeOn (S : Set Uint256) (view view' : CCoinsView) : Prop where
  utxos : ∀ txid ∈ S, view'.utxos txid = view.utxos txid
  hashBlock : view'.hashBlock = view.hashBlock

/-- The transaction spends from transactions in `S`. -/
def SpendsIn (S : Set Uint256) (vin : List CTxIn) : Prop := ∀ txin ∈ vin, txin.prevout.hash ∈ S

variable {S : Set Uint256} {view view' view₁ : CCoinsView} {tx : CTransaction} {txin : CTxIn}
  {vin : List CTxIn} {o : COutPoint} {txout : CTxOut} {txid : Uint256} {undo : CTxInUndo}
  {undos : List CTxInUndo} {nHeight : Int} {c : CCoins}

/-- An unspent output, by the entry of its transaction. -/
theorem output_eq : view.output o = (view.utxos o.hash).bind fun e ↦ e.output o.n := by
  rw [output, utxos_eq]
  cases hp : (view.getCoins o.hash).isPruned with
  | true => rw [CCoins.isPruned_iff.mp hp, CCoins.toEntry_eq_none.mpr hp]; rfl
  | false => rw [CCoins.toEntry_eq_some.mpr ⟨hp, rfl⟩]; rfl

theorem utxos_of_output (h : view.output o = some txout) :
    view.utxos o.hash = some ⟨(view.getCoins o.hash).outputs, (view.getCoins o.hash).fCoinBase,
      (view.getCoins o.hash).nHeight, (view.getCoins o.hash).nVersion⟩ :=
  utxos_eq.trans (CCoins.toEntry_eq_some.mpr ⟨CCoins.isPruned_eq_false h, rfl⟩)

namespace AgreeOn

theorem output (h : AgreeOn S view view') (ho : o.hash ∈ S) : view'.output o = view.output o := by
  rw [output_eq, h.utxos _ ho, output_eq]

/-- What is read of the coins of an unspent output. -/
theorem coins (h : AgreeOn S view view') (ho : o.hash ∈ S) (hout : view.output o = some txout) :
    (view'.getCoins o.hash).voutAt o.n = (view.getCoins o.hash).voutAt o.n ∧
      (view'.getCoins o.hash).fCoinBase = (view.getCoins o.hash).fCoinBase ∧
      (view'.getCoins o.hash).nHeight = (view.getCoins o.hash).nHeight := by
  have hout' := (h.output ho).trans hout
  have hentry := utxos_of_output hout'
  rw [h.utxos _ ho, utxos_of_output hout, Option.some.injEq, Entry.mk.injEq] at hentry
  obtain ⟨-, hcb, hheight, -⟩ := hentry
  exact ⟨(CCoins.voutAt_eq hout').trans (CCoins.voutAt_eq hout).symm, hcb.symm, hheight.symm⟩

theorem haveInputs (h : AgreeOn S view view') (hin : SpendsIn S tx.vin) :
    view'.haveInputs tx = view.haveInputs tx := by
  cases hcb : tx.isCoinBase with
  | true => rw [CCoinsView.haveInputs, CCoinsView.haveInputs, hcb, Bool.true_or, Bool.true_or]
  | false =>
      rw [Bool.eq_iff_iff, haveInputs_iff hcb, haveInputs_iff hcb]
      refine forall₂_congr fun txin htxin ↦ ?_
      rw [h.output (hin txin htxin)]

theorem inputValue (h : AgreeOn S view view') (htxin : txin.prevout.hash ∈ S)
    (hout : view.output txin.prevout = some txout) :
    view'.inputValue txin = view.inputValue txin := by
  rw [CCoinsView.inputValue, (h.coins htxin hout).1, CCoinsView.inputValue]

theorem getValueIn (h : AgreeOn S view view') (hin : SpendsIn S tx.vin)
    (hhave : view.haveInputs tx = true) : view'.getValueIn tx = view.getValueIn tx := by
  rw [CCoinsView.getValueIn, CCoinsView.getValueIn]
  cases hcb : tx.isCoinBase with
  | true => rfl
  | false =>
      rw [if_neg Bool.false_ne_true, if_neg Bool.false_ne_true]
      refine Tally.run_congr _ (fun txin htxin ↦ ?_) 0
      obtain ⟨txout, hout⟩ := (haveInputs_iff hcb).mp hhave txin htxin
      refine ⟨h.inputValue (hin txin htxin) hout, ?_, rfl⟩
      change (view'.getOutputFor txin >>= _) = (view.getOutputFor txin >>= _)
      rw [getOutputFor_eq_ok.mpr hout,
        getOutputFor_eq_ok.mpr ((h.output (hin txin htxin)).trans hout)]

theorem scriptChecks (h : AgreeOn S view view') (hin : SpendsIn S tx.vin)
    (hcb : tx.isCoinBase = false) (hhave : view.haveInputs tx = true) (flags : Nat) :
    view'.scriptChecks tx flags = view.scriptChecks tx flags := by
  refine List.map_congr_left fun p hp ↦ ?_
  have htxin : p.1 ∈ tx.vin := List.fst_mem_of_mem_zipIdx hp
  obtain ⟨txout, hout⟩ := (haveInputs_iff hcb).mp hhave p.1 htxin
  dsimp only
  rw [(h.coins (hin p.1 htxin) hout).1]

theorem checkInputAmounts (h : AgreeOn S view view') (hin : SpendsIn S tx.vin)
    (hcb : tx.isCoinBase = false) (hhave : view.haveInputs tx = true)
    (mapBlockIndex : Uint256 → Option Int) :
    CCoinsView.checkInputAmounts mapBlockIndex view' tx =
      CCoinsView.checkInputAmounts mapBlockIndex view tx := by
  have hrun : ∀ nSpendHeight, (view'.checkInputsTally nSpendHeight).run 0 tx.vin =
      (view.checkInputsTally nSpendHeight).run 0 tx.vin := by
    intro nSpendHeight
    refine Tally.run_congr _ (fun txin htxin ↦ ?_) 0
    obtain ⟨txout, hout⟩ := (haveInputs_iff hcb).mp hhave txin htxin
    obtain ⟨-, hcoinbase, hheight⟩ := h.coins (hin txin htxin) hout
    have hvalue := h.inputValue (hin txin htxin) hout
    refine ⟨hvalue, ?_, funext fun nValueIn ↦ ?_⟩
    · simp only [checkInputsTally, hcoinbase, hheight]
    · simp only [checkInputsTally, hvalue]
  simp only [CCoinsView.checkInputAmounts, h.haveInputs hin, h.hashBlock, hrun]

theorem checkInputs (h : AgreeOn S view view') (hin : SpendsIn S tx.vin)
    (hhave : view.haveInputs tx = true) (mapBlockIndex : Uint256 → Option Int)
    (verifyScript : CScriptCheck → Bool) (fScriptChecks : Bool) (flags : Nat) (queue : Bool) :
    view'.checkInputs mapBlockIndex verifyScript tx fScriptChecks flags queue =
      view.checkInputs mapBlockIndex verifyScript tx fScriptChecks flags queue := by
  rw [CCoinsView.checkInputs, CCoinsView.checkInputs]
  cases hcb : tx.isCoinBase with
  | true => rfl
  | false => rw [h.checkInputAmounts hin hcb hhave, h.scriptChecks hin hcb hhave]

theorem p2shSigOpCount (h : AgreeOn S view view') (hin : SpendsIn S tx.vin)
    (hhave : view.haveInputs tx = true) :
    CCoinsView.p2shSigOpCount tx view' = CCoinsView.p2shSigOpCount tx view := by
  rw [CCoinsView.p2shSigOpCount, CCoinsView.p2shSigOpCount]
  cases hcb : tx.isCoinBase with
  | true => rfl
  | false =>
      rw [if_neg Bool.false_ne_true, if_neg Bool.false_ne_true]
      congr 1
      refine List.map_congr_left fun txin htxin ↦ ?_
      obtain ⟨txout, hout⟩ := (haveInputs_iff hcb).mp hhave txin htxin
      rw [(h.coins (hin txin htxin) hout).1]

/-! ## Spending -/

theorem setCoins (h : AgreeOn S view view') {c' : CCoins} (hc : c'.toEntry = c.toEntry) :
    AgreeOn S (view.setCoins txid c) (view'.setCoins txid c') := by
  refine ⟨fun txid' htxid' ↦ ?_, h.hashBlock⟩
  rw [utxos_setCoins, utxos_setCoins, hc]
  by_cases heq : txid' = txid
  · rw [heq, Function.update_self, Function.update_self]
  · rw [Function.update_of_ne heq, Function.update_of_ne heq, h.utxos txid' htxid']

theorem spendInput (h : AgreeOn S view view') (htxin : txin.prevout.hash ∈ S)
    (hspend : view.spendInput txin = .ok (view₁, undo)) :
    ∃ view₁', view'.spendInput txin = .ok (view₁', undo) ∧ AgreeOn S view₁ view₁' := by
  obtain ⟨c, c', hl, hc, rfl⟩ := spendInput_eq_ok hspend
  obtain ⟨hout, hspent, hcb, hheight, hversion, -, hpruned, hleft⟩ := CCoins.spend_eq_some hc
  have hcoins : view.getCoins txin.prevout.hash = c := by rw [getCoins, hl, Option.getD_some]
  have houtput : view.output txin.prevout = some undo.txout := by
    rw [CCoinsView.output, hcoins, hout]
  obtain ⟨view₁', undo', hspend'⟩ := exists_spendInput ((h.output htxin).trans houtput)
  obtain ⟨d, d', hl', hd, rfl⟩ := spendInput_eq_ok hspend'
  obtain ⟨hout', hspent', hcb', hheight', hversion', -, hpruned', hleft'⟩ :=
    CCoins.spend_eq_some hd
  have hcoins' : view'.getCoins txin.prevout.hash = d := by rw [getCoins, hl', Option.getD_some]
  -- the coins stand for the same entry, before and so after
  have hentry := utxos_of_output ((h.output htxin).trans houtput)
  rw [h.utxos _ htxin, utxos_of_output houtput, hcoins, hcoins', Option.some.injEq,
    Entry.mk.injEq] at hentry
  obtain ⟨houts, hcbs, hheights, hversions⟩ := hentry
  have houts' : d'.outputs = c'.outputs := by rw [hspent', hspent, houts]
  have hpr : d'.isPruned = c'.isPruned := by
    rw [Bool.eq_iff_iff, CCoins.isPruned_iff, CCoins.isPruned_iff, houts']
  have htxout : undo'.txout = undo.txout := by
    rw [← houts, hout, Option.some.injEq] at hout'
    exact hout'.symm
  have hundo : undo' = undo := by
    cases hp : c'.isPruned with
    | true => rw [hpruned hp, hpruned' (hpr.trans hp), htxout, hcbs, hheights, hversions]
    | false => rw [hleft hp, hleft' (hpr.trans hp), htxout]
  refine ⟨_, hundo ▸ hspend', h.setCoins ?_⟩
  rw [CCoins.toEntry, CCoins.toEntry, hpr, houts', hcb', hcb, hheight', hheight, hversion',
    hversion, hcbs, hheights, hversions]

theorem spendInputs (h : AgreeOn S view view') (hin : SpendsIn S vin)
    (hspend : view.spendInputs vin = .ok (view₁, undos)) :
    ∃ view₁', view'.spendInputs vin = .ok (view₁', undos) ∧ AgreeOn S view₁ view₁' := by
  induction vin generalizing view view' undos with
  | nil =>
      obtain ⟨rfl, rfl⟩ := Prod.mk.inj (Except.ok.inj hspend)
      exact ⟨view', rfl, h⟩
  | cons txin vin ih =>
      obtain ⟨htxin, hin⟩ := List.forall_mem_cons.mp hin
      obtain ⟨view₂, undo, undos', h₂, hrest, rfl⟩ := spendInputs_cons_eq_ok.mp hspend
      obtain ⟨view₂', h₂', hagree₂⟩ := h.spendInput htxin h₂
      obtain ⟨view₁', h₁', hagree⟩ := ih hagree₂ hin hrest
      exact ⟨view₁', spendInputs_cons_eq_ok.mpr ⟨view₂', undo, undos', h₂', h₁', rfl⟩, hagree⟩

theorem updateCoins {txundo : CTxUndo} (h : AgreeOn S view view')
    (hin : tx.isCoinBase = false → SpendsIn S tx.vin)
    (hupdate : view.updateCoins tx nHeight txid = .ok (view₁, txundo)) :
    ∃ view₁', view'.updateCoins tx nHeight txid = .ok (view₁', txundo) ∧
      AgreeOn S view₁ view₁' := by
  rw [CCoinsView.updateCoins] at hupdate ⊢
  cases hcb : tx.isCoinBase with
  | true =>
      rw [hcb, if_pos rfl] at hupdate
      obtain ⟨rfl, rfl⟩ := Prod.mk.inj (Except.ok.inj hupdate)
      exact ⟨_, rfl, h.setCoins rfl⟩
  | false =>
      rw [hcb, if_neg Bool.false_ne_true, bind_eq_ok] at hupdate
      obtain ⟨⟨view₂, vprevout⟩, hspend, hupdate⟩ := hupdate
      obtain ⟨rfl, rfl⟩ := Prod.mk.inj (Except.ok.inj hupdate)
      obtain ⟨view₂', hspend', hagree⟩ := h.spendInputs (hin hcb) hspend
      exact ⟨_, bind_eq_ok.mpr ⟨_, hspend', rfl⟩, hagree.setCoins rfl⟩

end AgreeOn

end CCoinsView

end Fedoracoin
