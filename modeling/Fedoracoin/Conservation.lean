import Fedoracoin.Undo
import Fedoracoin.Lib.MapSum

/-!
# A block creates no more than its subsidy

The exact sum of all unspent outputs grows over a connected block by at most
`GetBlockValue(h, 0, p)`, as long as no unspent output is negative to begin with.

Each transaction that is not a coinbase lowers the sum by at least its fee
(`TxStep.total_le`), and the coinbase raises it by at most what it pays.  The coinbase pays
at most the limit, and the limit is at most the subsidy plus the exact fees although it is
computed with wrapping additions: `nFees` is the exact sum modulo `2 ^ 64`
(`nFees_modEq`), and reducing a non-negative sum only lowers it.
-/

namespace Fedoracoin

open CCoinsView

/-! ## Totals -/

/-- The exact sum of the unspent outputs of one transaction. -/
def CCoins.total (c : CCoins) : Int :=
  SparseList.weight CTxOut.isNull (fun txout ↦ txout.nValue.toInt) c.vout

/-- The exact sum of all unspent outputs. -/
def CCoinsView.total (view : CCoinsView) : Int := MapSum.total CCoins.total view.coins

/-- No unspent output is negative. -/
def CCoinsView.Nonneg (view : CCoinsView) : Prop :=
  ∀ o txout, view.output o = some txout → 0 ≤ txout.nValue

/-- The exact sum of what a transaction pays. -/
def CTransaction.paid (tx : CTransaction) : Int := (tx.vout.map fun o ↦ o.nValue.toInt).sum

/-- The exact sum of the outputs recorded as spent. -/
def CTxUndo.spent (txundo : CTxUndo) : Int :=
  (txundo.vprevout.map fun undo ↦ undo.txout.nValue.toInt).sum

/-- The exact fee of a transaction, none for a coinbase. -/
def txFee (p : CTransaction × Option CTxUndo) : Int :=
  p.2.elim 0 fun txundo ↦ txundo.spent - p.1.paid

/-- The exact sum of the fees of a block. -/
def CBlock.fees (block : CBlock) (blockundo : CBlockUndo) : Int :=
  ((block.vtx.zip (none :: blockundo.vtxundo.map some)).map txFee).sum

section

variable {env : BlockEnv} {nHeight : Int} {view view' : CCoinsView} {txid : Uint256} {c : CCoins}
  {tx : CTransaction} {txin : CTxIn} {undo : CTxInUndo} {vin : List CTxIn}
  {vprevout : List CTxInUndo} {s s' : ConnectState} {p : CTransaction × Option CTxUndo}
  {o : COutPoint} {txout : CTxOut}

theorem total_setCoins :
    (view.setCoins txid c).total = view.total - (view.getCoins txid).total + c.total := by
  rw [total, setCoins, MapSum.total_insert, total, getCoins]
  cases view.coins.lookup txid <;> rfl

theorem CCoinsView.Nonneg.total_getCoins (h : view.Nonneg) : 0 ≤ (view.getCoins txid).total :=
  SparseList.weight_nonneg fun n txout hout ↦
    RunningSum.nonneg_iff.mp (h ⟨txid, n⟩ txout hout)

/-- Of what a transaction pays, only the spendable part enters the view. -/
theorem total_ofTx_le (h : ∀ txout ∈ tx.vout, 0 ≤ txout.nValue) :
    (CCoins.ofTx tx nHeight).total ≤ tx.paid := by
  rw [CCoins.ofTx, CCoins.clearUnspendable, CCoins.cleanup, CCoins.total,
    SparseList.weight_trim, SparseList.weight, List.map_map, CTransaction.paid]
  refine List.sum_le_sum fun txout hmem ↦ ?_
  have h0 := RunningSum.nonneg_iff.mp (h txout hmem)
  rw [Function.comp_apply]
  by_cases hu : CScript.isUnspendable txout.scriptPubKey = true
  · rwa [if_pos hu, CTxOut.isNull_null, if_pos rfl]
  · rw [if_neg hu, CTxOut.isNull_eq_false_of_nonneg (h txout hmem), if_neg Bool.false_ne_true]

/-! ## Inputs -/

theorem output_setCoins_self (n : Nat) : (view.setCoins txid c).output ⟨txid, n⟩ = c.outputs n := by
  rw [output, getCoins_setCoins_self]

theorem output_setCoins_of_ne (h : o.hash ≠ txid) :
    (view.setCoins txid c).output o = view.output o := by
  rw [output, getCoins_setCoins_of_ne h, output]

/-- Spending removes the output recorded, and no other output changes. -/
theorem spendInput_output (h : view.spendInput txin = .ok (view', undo)) :
    view.output txin.prevout = some undo.txout ∧
      ∀ o, view'.output o = if o = txin.prevout then none else view.output o := by
  obtain ⟨c, c', hl, hspend, rfl⟩ := spendInput_eq_ok h
  obtain ⟨hout, hspent, -⟩ := CCoins.spend_eq_some hspend
  have hc : view.getCoins txin.prevout.hash = c := by rw [getCoins, hl, Option.getD_some]
  refine ⟨by rw [output, hc, hout], fun o ↦ ?_⟩
  by_cases hhash : o.hash = txin.prevout.hash
  · obtain ⟨hash, n⟩ := o
    obtain rfl := hhash
    rw [output_setCoins_self, hspent, output, hc]
    by_cases hn : n = txin.prevout.n
    · subst hn
      rw [if_pos rfl, Function.update_self]
    · rw [if_neg fun heq ↦ hn (congrArg COutPoint.n heq), Function.update_of_ne hn]
  · rw [output_setCoins_of_ne hhash, if_neg fun heq ↦ hhash (congrArg COutPoint.hash heq)]

theorem spendInput_total (h : view.spendInput txin = .ok (view', undo)) :
    view'.total = view.total - undo.txout.nValue.toInt := by
  obtain ⟨c, c', hl, hspend, rfl⟩ := spendInput_eq_ok h
  obtain ⟨hout, -, -, -, -, hvout, -⟩ := CCoins.spend_eq_some hspend
  have hc : view.getCoins txin.prevout.hash = c := by rw [getCoins, hl, Option.getD_some]
  have hc' : c'.total = c.total - undo.txout.nValue.toInt := by
    rw [CCoins.total, hvout, SparseList.weight_trim,
      SparseList.weight_erase CTxOut.isNull_null hout, CCoins.total]
  rw [total_setCoins, hc, hc']
  omega

/-- The outputs recorded are those the inputs refer to, before any of them is spent. -/
theorem spendInputs_output (h : view.spendInputs vin = .ok (view', vprevout)) :
    List.Forall₂ (fun txin undo ↦ view.output txin.prevout = some undo.txout) vin vprevout := by
  induction vin generalizing view vprevout with
  | nil =>
      obtain ⟨rfl, rfl⟩ := Prod.mk.inj (Except.ok.inj h)
      exact .nil
  | cons txin vin ih =>
      obtain ⟨view₁, undo, undos, hstep, hrest, rfl⟩ := spendInputs_cons_eq_ok.mp h
      obtain ⟨hout, hothers⟩ := spendInput_output hstep
      refine .cons hout ((ih hrest).imp fun txin' undo' hsome ↦ ?_)
      rw [hothers] at hsome
      split at hsome
      · cases hsome
      · exact hsome

theorem spendInputs_total (h : view.spendInputs vin = .ok (view', vprevout)) :
    view'.total = view.total - CTxUndo.spent ⟨vprevout⟩ := by
  induction vin generalizing view vprevout with
  | nil =>
      obtain ⟨rfl, rfl⟩ := Prod.mk.inj (Except.ok.inj h)
      exact (sub_zero _).symm
  | cons txin vin ih =>
      obtain ⟨view₁, undo, undos, hstep, hrest, rfl⟩ := spendInputs_cons_eq_ok.mp h
      have htail := ih hrest
      have hhead := spendInput_total hstep
      simp only [CTxUndo.spent, List.map_cons, List.sum_cons] at htail ⊢
      omega

theorem CCoinsView.Nonneg.spendInputs (hview : view.Nonneg)
    (h : view.spendInputs vin = .ok (view', vprevout)) : view'.Nonneg := by
  refine (spendInputs_run (P := fun _ ↦ True) (fun _ _ ↦ trivial) h).2.invariant ?_ hview
  intro v p v' hv hstep o txout hout
  rw [(spendInput_output hstep.1).2] at hout
  split at hout
  · cases hout
  · exact hv o txout hout

/-- The values added up for the inputs are those recorded as spent. -/
theorem sum_inputValue (h : view.spendInputs vin = .ok (view', vprevout)) :
    (vin.map fun txin ↦ (view.inputValue txin).toInt).sum = CTxUndo.spent ⟨vprevout⟩ := by
  have hout := spendInputs_output h
  rw [CTxUndo.spent]
  clear h
  induction hout with
  | nil => rfl
  | cons hhead _ ih => rw [List.map_cons, List.map_cons, List.sum_cons, List.sum_cons, ih,
      inputValue_eq hhead]

/-! ## Transactions -/

theorem CCoinsView.Nonneg.setCoins (hview : view.Nonneg) (h : ∀ txout ∈ tx.vout, 0 ≤ txout.nValue) :
    (view.setCoins txid (.ofTx tx nHeight)).Nonneg := by
  intro o txout hout
  by_cases hhash : o.hash = txid
  · subst hhash
    rw [output_setCoins_self, CCoins.ofTx, CCoins.outputs_clearUnspendable,
      Option.filter_eq_some_iff, CCoins.outputs, SparseList.get_eq_some_iff] at hout
    exact h txout (List.mem_of_getElem? hout.1.1)
  · rw [output_setCoins_of_ne hhash] at hout
    exact hview o txout hout

/-- What `CheckInputs` establishes about the amounts: the inputs cover the outputs. -/
theorem paid_le_spent {mapBlockIndex : Uint256 → Option Int}
    (h : checkInputAmounts mapBlockIndex view tx = .ok ())
    (hspend : view.spendInputs tx.vin = .ok (view', vprevout)) :
    tx.paid ≤ CTxUndo.spent ⟨vprevout⟩ := by
  rw [checkInputAmounts, bind_eq_ok] at h
  obtain ⟨_, _, h⟩ := h
  split at h
  · cases h
  · simp only [bind_eq_ok, failIf_eq_ok, CTransaction.valueOut_eq_ok] at h
    obtain ⟨nValueIn, hin, nValueOut, hout, _, hbelow, _⟩ := h
    have hin' := (checkInputsTally_guarded.run_ok (by decide) hin).1
    have hout' := (CTransaction.getValueOut_ok hout).1
    have hle := Int64.le_iff_toInt_le.mp (Int64.not_lt.mp (of_decide_eq_false hbelow))
    rw [← sum_inputValue hspend]
    refine le_of_eq_of_le (hout'.symm) (hle.trans (le_of_eq (hin'.trans ?_)))
    exact zero_add _

/-- A coinbase raises the total by at most what it pays, any other transaction lowers it by at
least its fee. -/
theorem TxStep.total_le (h : TxStep env nHeight s p s')
    (hnonneg : ∀ txout ∈ p.1.vout, 0 ≤ txout.nValue) (hview : s.view.Nonneg) :
    s'.view.Nonneg ∧
      s'.view.total + txFee p ≤ s.view.total + p.2.elim p.1.paid fun _ ↦ 0 := by
  have hadd : ∀ view : CCoinsView, view.Nonneg →
      (view.setCoins (env.getTxHash p.1) (.ofTx p.1 nHeight)).Nonneg ∧
      (view.setCoins (env.getTxHash p.1) (.ofTx p.1 nHeight)).total ≤ view.total + p.1.paid := by
    intro view hview
    refine ⟨hview.setCoins hnonneg, ?_⟩
    have hold : 0 ≤ (view.getCoins (env.getTxHash p.1)).total := hview.total_getCoins
    have hnew : (CCoins.ofTx p.1 nHeight).total ≤ p.1.paid := total_ofTx_le hnonneg
    rw [total_setCoins]
    omega
  cases h with
  | coinbase _ hviews _ =>
      rw [hviews, txFee, Option.elim_none, Option.elim_none, add_zero]
      exact hadd _ hview
  | spend _ _ _ _ hspend hviews _ =>
      rw [hviews, txFee, Option.elim_some, Option.elim_some]
      obtain ⟨hnn, hle⟩ := hadd _ (hview.spendInputs hspend)
      rw [spendInputs_total hspend] at hle
      refine ⟨hnn, ?_⟩
      dsimp only at hle ⊢
      omega

/-- A transaction adds its exact fee to `nFees`, modulo `2 ^ 64`. -/
theorem TxStep.nFees_modEq (h : TxStep env nHeight s p s') :
    0 ≤ txFee p ∧ s'.nFees.toInt ≡ s.nFees.toInt + txFee p [ZMOD 2 ^ 64] := by
  cases h with
  | coinbase _ _ hfees =>
      rw [hfees]
      exact ⟨le_rfl, by rw [txFee, Option.elim_none, add_zero]⟩
  | spend hcb hin hout hamounts hspend _ hfees =>
      have hle := paid_le_spent hamounts hspend
      refine ⟨sub_nonneg.mpr hle, ?_⟩
      rw [getValueIn, hcb, if_neg Bool.false_ne_true] at hin
      have hin' := (valueInTally _).run_modEq hin
      have hout' := (CTransaction.getValueOut_ok hout).1
      have hexact : (valueInTally s.view).exact _ = _ := sum_inputValue hspend
      rw [hexact] at hin'
      rw [hfees, txFee, Option.elim_some]
      refine (RunningSum.toInt_add_modEq _ _).trans (Int.ModEq.add_left _ ?_)
      refine (RunningSum.toInt_sub_modEq _ _).trans (Int.ModEq.sub ?_ ?_)
      · simpa using hin'
      · rw [hout']
        exact Int.ModEq.refl _

/-! ## Blocks -/

theorem nFees_modEq {l : List (CTransaction × Option CTxUndo)}
    (h : Run (TxStep env nHeight) s l s') :
    0 ≤ (l.map txFee).sum ∧
      s'.nFees.toInt ≡ s.nFees.toInt + (l.map txFee).sum [ZMOD 2 ^ 64] := by
  induction h with
  | nil => simp
  | cons hstep _ ih =>
      obtain ⟨h0, hmod⟩ := hstep.nFees_modEq
      obtain ⟨h0', hmod'⟩ := ih
      rw [List.map_cons, List.sum_cons, ← add_assoc]
      exact ⟨add_nonneg h0 h0', hmod'.trans (hmod.add_right _)⟩

/-- The limit of the coinbase is at most the subsidy plus the exact fees. -/
theorem limit_le (subsidy : UInt64) {nFees : Int64} {fees : Int} (h0 : 0 ≤ fees)
    (h : nFees.toInt ≡ fees [ZMOD 2 ^ 64]) :
    ((subsidy + nFees.toUInt64).toNat : Int) ≤ subsidy.toNat + fees := by
  have hfees : (nFees.toUInt64.toNat : Int) = fees % 2 ^ 64 := (toNat_toUInt64 nFees).trans h
  rw [UInt64.toNat_add]
  omega

/-- Over the transactions of a block the total falls by the fees and rises by what the
coinbase pays. -/
theorem run_total_le {coinbase : CTransaction} {vtx : List CTransaction}
    {vtxundo : List CTxUndo}
    (h : Run (TxStep env nHeight) s ((coinbase :: vtx).zip (none :: vtxundo.map some)) s')
    (hnonneg : ∀ tx ∈ coinbase :: vtx, ∀ txout ∈ tx.vout, 0 ≤ txout.nValue)
    (hview : s.view.Nonneg) :
    s'.view.total + (((coinbase :: vtx).zip (none :: vtxundo.map some)).map txFee).sum ≤
      s.view.total + coinbase.paid := by
  rw [List.zip_cons_cons] at h ⊢
  obtain ⟨s₁, hfirst, hrest⟩ := Run.cons_iff.mp h
  obtain ⟨hview₁, hcoinbase⟩ := hfirst.total_le (hnonneg coinbase (by simp)) hview
  have hspends : Run (fun s p s' ↦ TxStep env nHeight s p s' ∧
      (∀ txout ∈ p.1.vout, 0 ≤ txout.nValue) ∧ ∃ txundo, p.2 = some txundo) s₁ _ s' :=
    hrest.imp fun s p s' hp hst ↦ ⟨hst, hnonneg _ (by simp [(List.of_mem_zip hp).1]), by
      obtain ⟨txundo, _, heq⟩ := List.mem_map.mp (List.of_mem_zip hp).2
      exact ⟨txundo, heq.symm⟩⟩
  have hfees := hspends.add_sum_le (f := fun s ↦ s.view.total) (g := txFee)
    (I := fun s ↦ s.view.Nonneg) (fun s p s' hs hst ↦ by
      obtain ⟨hst, hnn, txundo, hsome⟩ := hst
      have hle := hst.total_le hnn hs
      rw [hsome, Option.elim_some, add_zero] at hle
      exact hle) hview₁
  rw [Option.elim_none] at hcoinbase
  dsimp only at hcoinbase
  rw [List.map_cons, List.sum_cons]
  omega

end

/-- **No coins are created.**  The total of a view rises over a block by at most the subsidy
of its height, and the coinbase pays at most the subsidy plus the exact fees. -/
theorem connectBlock_conserves (env : BlockEnv) (io : UndoIO) (fuel : Nat) (block : CBlock)
    (pindex pindex' : ConnectIndex) (view : CCoinsView) (fJustCheck : Bool) (r : Connected)
    (hgenesis : env.getBlockHash block.toCBlockHeader ≠ env.hashGenesisBlock)
    (hview : view.Nonneg)
    (h : connectBlock env io fuel block pindex view fJustCheck = (pindex', .ok r)) :
    ∃ subsidy, Returns env.uniformInt env.tip pindex.nHeight 0 (pindex.pprev.getD 0) subsidy ∧
      r.view.total ≤ view.total + subsidy.toNat ∧
      ∀ coinbase ∈ block.vtx.head?,
        coinbase.paid ≤ subsidy.toNat + block.fees r.blockundo := by
  have hblock := connectBlock_run hgenesis h
  obtain ⟨s, hrun, hrview, coinbase, vtx, nValueOut, limit, hvtx, hvalue, hlimit, hle⟩ :=
    hblock.run
  obtain ⟨hfees, hmod⟩ := nFees_modEq hrun
  rw [show ({ view := view } : ConnectState).nFees.toInt = 0 from rfl, zero_add] at hmod
  -- the coinbase pays its exact sum, which is at most the limit
  obtain ⟨hpaid, hpaid0, -⟩ := CTransaction.getValueOut_ok hvalue
  have hpays : coinbase.paid ≤ limit.toNat := by
    rw [UInt64.le_iff_toNat_le] at hle
    have hconv := toNat_toUInt64_of_nonneg hpaid0
    have hsum : coinbase.paid = nValueOut.toInt := hpaid.symm
    omega
  have hlimit' := getBlockValue_eq hlimit
  refine ⟨subsidyAt env.uniformInt pindex.nHeight (pindex.pprev.getD 0),
    returns_iff.mpr ⟨(returns_iff.mp ⟨fuel, hlimit⟩).1, (UInt64.add_zero _).symm⟩, ?_, ?_⟩
  · have htotal := run_total_le (hvtx ▸ hrun) (hvtx ▸ hblock.shape.nonneg) hview
    have hbound := limit_le (subsidyAt env.uniformInt pindex.nHeight
      (pindex.pprev.getD 0)) hfees hmod
    have hsame : r.view.total = s.view.total := by
      rw [hrview]
      split <;> rfl
    rw [← hvtx] at htotal
    rw [← hlimit'] at hbound
    rw [hsame]
    dsimp only at htotal
    omega
  · intro tx htx
    rw [hvtx, List.head?_cons, Option.mem_def, Option.some.injEq] at htx
    subst htx
    refine hpays.trans ?_
    rw [hlimit']
    exact limit_le _ hfees hmod

theorem sampleView_nonneg : (sampleView 5).Nonneg := by
  intro o txout hout
  obtain ⟨hash, n⟩ := o
  rw [sampleView] at hout
  by_cases hid : hash = 50
  · subst hid
    rw [output_setCoins_self, CCoins.outputs, SparseList.get_eq_some_iff] at hout
    obtain rfl := List.mem_singleton.mp (List.mem_of_getElem? hout.1)
    decide
  · rw [output_setCoins_of_ne hid, output, getCoins, Finmap.lookup_empty] at hout
    exact absurd hout (by simp [CCoins.outputs])

theorem connectBlock_conserves_sample :
    ∃ pindex' r, connectBlock sampleEnv {} 1 sampleBlock sampleIndex (sampleView 5) false =
        (pindex', .ok r) ∧
      r.view.total ≤ (sampleView 5).total + 1000000000 := by
  have hclean : roundTripClean sampleEnv sampleBlock sampleIndex (sampleView 5) = some true := by
    decide +kernel
  obtain ⟨pindex', r, _, hconn, _⟩ := connects_of_roundTripClean hclean
  obtain ⟨subsidy, hreturns, htotal, _⟩ := connectBlock_conserves sampleEnv {} 1 sampleBlock
    sampleIndex pindex' (sampleView 5) false r (by decide) sampleView_nonneg hconn
  have hsubsidy : (subsidyAt sampleEnv.uniformInt 10 7 + (0 : Int64).toUInt64).toNat =
      1000000000 := by decide +kernel
  refine ⟨pindex', r, hconn, htotal.trans (le_of_eq ?_)⟩
  rw [hreturns.eq]
  exact congrArg (fun n : ℕ ↦ (sampleView 5).total + n) hsubsidy

end Fedoracoin
