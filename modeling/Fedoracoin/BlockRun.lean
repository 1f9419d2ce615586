import Fedoracoin.Block

/-!
# What a connected block did

`ConnectBlock` inverted.  When it succeeds on a block other than the genesis block, the view
it yields is reached by a run of `TxStep`, one step for each transaction, labelled with the
transaction and its undo record; and `BlockRun` collects what the checks on the way
establish.  Results about connected blocks are inductions over that run.
-/

namespace Fedoracoin

open CCoinsView

/-- What connecting one transaction does.  The label is the transaction and its undo
record, which a coinbase does not have. -/
inductive TxStep (env : BlockEnv) (nHeight : Int) :
    ConnectState → CTransaction × Option CTxUndo → ConnectState → Prop
  | coinbase {s s' : ConnectState} {tx : CTransaction} (hcb : tx.isCoinBase = true)
      (hview : s'.view = s.view.setCoins (env.getTxHash tx) (.ofTx tx nHeight))
      (hfees : s'.nFees = s.nFees) : TxStep env nHeight s (tx, none) s'
  | spend {s s' : ConnectState} {tx : CTransaction} {view : CCoinsView}
      {vprevout : List CTxInUndo} {nValueIn nValueOut : Int64} (hcb : tx.isCoinBase = false)
      (hin : s.view.getValueIn tx = .ok nValueIn) (hout : tx.getValueOut = .ok nValueOut)
      (hamounts : checkInputAmounts env.mapBlockIndex s.view tx = .ok ())
      (hspend : s.view.spendInputs tx.vin = .ok (view, vprevout))
      (hview : s'.view = view.setCoins (env.getTxHash tx) (.ofTx tx nHeight))
      (hfees : s'.nFees = s.nFees + (nValueIn - nValueOut)) :
      TxStep env nHeight s (tx, some ⟨vprevout⟩) s'

section

variable {env : BlockEnv} {nHeight : Int} {fScriptChecks : Bool} {s s' : ConnectState}
  {tx : CTransaction} {vtx : List CTransaction}

theorem checkInputs_eq_ok {view : CCoinsView} {mapBlockIndex : Uint256 → Option Int}
    {verifyScript : CScriptCheck → Bool} {flags : Nat} {queue : Bool}
    {vChecks : List CScriptCheck} (hcb : tx.isCoinBase = false)
    (h : view.checkInputs mapBlockIndex verifyScript tx fScriptChecks flags queue = .ok vChecks) :
    checkInputAmounts mapBlockIndex view tx = .ok () := by
  rw [checkInputs, hcb] at h
  simp only [Bool.false_eq_true, if_false, bind_eq_ok] at h
  obtain ⟨_, h, _⟩ := h
  exact h

theorem connectTx_eq_ok (h : connectTx env nHeight fScriptChecks s tx = .ok s') :
    (tx.isCoinBase = true ∧ TxStep env nHeight s (tx, none) s' ∧ s'.vtxundo = s.vtxundo) ∨
      (tx.isCoinBase = false ∧ ∃ txundo, TxStep env nHeight s (tx, some txundo) s' ∧
        s'.vtxundo = s.vtxundo ++ [txundo]) := by
  rw [connectTx] at h
  cases hcb : tx.isCoinBase with
  | true =>
      simp only [hcb, if_true, bind_eq_ok, updateCoins, Except.ok.injEq, exists_eq_left'] at h
      obtain ⟨_, _, ⟨view, txundo⟩, hupd, hs'⟩ := h
      obtain rfl := Except.ok.inj hs'
      obtain ⟨rfl, rfl⟩ := Prod.mk.inj (Except.ok.inj hupd)
      exact Or.inl ⟨rfl, .coinbase hcb rfl rfl, rfl⟩
  | false =>
      simp only [hcb, Bool.false_eq_true, if_false, bind_eq_ok, updateCoins, connectInputs,
        CTransaction.valueOut_eq_ok] at h
      obtain ⟨_, _, s₁, ⟨_, _, _, _, nValueIn, hin, nValueOut, hout, vChecks, hchecks, hs₁⟩,
        ⟨view, txundo⟩, ⟨⟨view₁, vprevout⟩, hspend, hupd⟩, hs'⟩ := h
      obtain rfl := Except.ok.inj hs₁
      obtain rfl := Except.ok.inj hs'
      obtain ⟨rfl, rfl⟩ := Prod.mk.inj (Except.ok.inj hupd)
      refine Or.inr ⟨rfl, ⟨vprevout⟩, .spend hcb hin hout (checkInputs_eq_ok hcb hchecks) hspend
        rfl rfl, rfl⟩

/-- A list of transactions without coinbases yields one undo record for each. -/
theorem connectTxs_eq_ok (hcb : ∀ tx ∈ vtx, tx.isCoinBase = false)
    (h : connectTxs env nHeight fScriptChecks s vtx = .ok s') :
    ∃ vtxundo, vtxundo.length = vtx.length ∧ s'.vtxundo = s.vtxundo ++ vtxundo ∧
      Run (TxStep env nHeight) s (vtx.zip (vtxundo.map some)) s' := by
  induction vtx generalizing s with
  | nil =>
      obtain rfl := Except.ok.inj h
      exact ⟨[], rfl, by simp, .nil _⟩
  | cons tx vtx ih =>
      rw [connectTxs, bind_eq_ok] at h
      obtain ⟨s₁, hstep, hrest⟩ := h
      obtain ⟨hcb', _⟩ | ⟨_, txundo, hstep, hundo⟩ := connectTx_eq_ok hstep
      · rw [hcb tx (by simp)] at hcb'
        cases hcb'
      · obtain ⟨vtxundo, hlen, hundos, hrun⟩ :=
          ih (fun tx' hmem ↦ hcb tx' (by simp [hmem])) hrest
        refine ⟨txundo :: vtxundo, by simp [hlen], ?_, .cons hstep hrun⟩
        rw [hundos, hundo, List.append_assoc, List.singleton_append]

end

/-! ## What `CheckBlock` establishes -/

/-- The properties of a block's transactions that later results use. -/
structure BlockShape (env : BlockEnv) (block : CBlock) : Prop where
  coinbase : ∃ tx vtx, block.vtx = tx :: vtx ∧ tx.isCoinBase = true ∧
    ∀ tx ∈ vtx, tx.isCoinBase = false
  nonneg : ∀ tx ∈ block.vtx, ∀ txout ∈ tx.vout, 0 ≤ txout.nValue
  nodup : (block.vtx.map env.getTxHash).Nodup

theorem forM_eq_ok {α ε : Type} {f : α → Except ε Unit} {l : List α} (h : l.forM f = .ok ()) :
    ∀ x ∈ l, f x = .ok () := by
  induction l with
  | nil => simp
  | cons x l ih =>
      change (f x >>= fun _ ↦ l.forM f) = _ at h
      rw [bind_eq_ok] at h
      obtain ⟨_, hx, hl⟩ := h
      rintro y (_ | ⟨_, hy⟩)
      · exact hx
      · exact ih hl y hy

theorem checkBlock_shape {env : BlockEnv} {block : CBlock} {nHeight : Int}
    {fCheckPOW fCheckMerkleRoot : Bool}
    (h : checkBlock env block nHeight fCheckPOW fCheckMerkleRoot = .ok ()) :
    BlockShape env block := by
  simp only [checkBlock, bind_eq_ok, failIf_eq_ok, exists_const] at h
  obtain ⟨_, _, _, hfirst, hrest, _, htxs, hunique, _⟩ := h
  constructor
  · cases hvtx : block.vtx with
    | nil => simp [hvtx] at hfirst
    | cons tx vtx =>
        refine ⟨tx, vtx, rfl, by simpa [hvtx] using hfirst, ?_⟩
        simpa [hvtx] using hrest
  · intro tx hmem
    exact (CTransaction.of_checkTransaction (forM_eq_ok htxs tx hmem)).2.1
  · rw [bne_eq_false_iff_eq, ← List.length_map (f := env.getTxHash)] at hunique
    exact Multiset.coe_nodup.mp (Multiset.toFinset_card_eq_card_iff_nodup.mp hunique)

/-! ## What `ConnectBlock` establishes -/

/-- A successful `ConnectBlock` of a block that is not the genesis block. -/
structure BlockRun (env : BlockEnv) (fuel : Nat) (block : CBlock) (pindex : ConnectIndex)
    (view : CCoinsView) (fJustCheck : Bool) (pindex' : ConnectIndex) (r : Connected) : Prop where
  shape : BlockShape env block
  hashBlock : view.hashBlock = pindex.pprev.getD 0
  fresh : ∀ tx ∈ block.vtx, view.utxos (env.getTxHash tx) = none
  length : r.blockundo.vtxundo.length + 1 = block.vtx.length
  run : ∃ s, Run (TxStep env pindex.nHeight) { view := view }
      (block.vtx.zip (none :: r.blockundo.vtxundo.map some)) s ∧
    r.view = (if fJustCheck then s.view else s.view.setBestBlock pindex.blockHash) ∧
    ∃ tx vtx nValueOut limit, block.vtx = tx :: vtx ∧ tx.getValueOut = .ok nValueOut ∧
      getBlockValue env.uniformInt env.tip fuel pindex.nHeight s.nFees (pindex.pprev.getD 0) =
        some limit ∧ nValueOut.toUInt64 ≤ limit
  index : fJustCheck = false →
    ∃ nStatus, pindex' = { pindex with nStatus := nStatus } ∧ nStatus.haveUndo = true ∧
      blockValidScripts ≤ nStatus.valid

section

variable {env : BlockEnv} {io : UndoIO} {fuel : Nat} {block : CBlock}
  {pindex pindex' : ConnectIndex} {view : CCoinsView} {r : Connected}

theorem writeUndoData_eq_ok (h : writeUndoData io pindex = (pindex', .ok ())) :
    ∃ nStatus, pindex' = { pindex with nStatus := nStatus } ∧ nStatus.haveUndo = true ∧
      blockValidScripts ≤ nStatus.valid := by
  rw [writeUndoData] at h
  split_ifs at h with h₁ h₂ h₃ h₄
  · cases (Prod.mk.inj h).2
  · cases (Prod.mk.inj h).2
  · cases (Prod.mk.inj h).2
  · obtain ⟨rfl, _⟩ := Prod.mk.inj h
    exact ⟨_, rfl, rfl, le_rfl⟩
  · obtain ⟨rfl, _⟩ := Prod.mk.inj h
    rw [Bool.or_eq_true, not_or, decide_eq_true_iff, not_lt] at h₄
    exact ⟨pindex.nStatus, rfl, by simpa [ConnectIndex.undoPosIsNull] using h₄.1, h₄.2⟩

theorem utxos_eq_none_of_not_any
    (h : (block.vtx.any fun tx ↦ view.haveCoins (env.getTxHash tx) &&
      !(view.getCoins (env.getTxHash tx)).isPruned) = false) :
    ∀ tx ∈ block.vtx, view.utxos (env.getTxHash tx) = none := by
  intro tx hmem
  rw [List.any_eq_false] at h
  have hno := h tx hmem
  rw [utxos]
  rw [haveCoins, getCoins] at hno
  cases hl : view.coins.lookup (env.getTxHash tx) with
  | none => rfl
  | some c =>
      rw [Option.bind_some, CCoins.toEntry_eq_none]
      simpa [hl] using hno

/-- The checks of `ConnectBlock` on the transactions, inverted. -/
theorem connectTransactions_run {s : ConnectState} (hshape : BlockShape env block)
    (h : connectTransactions env fuel block pindex view = .ok s) :
    (∀ tx ∈ block.vtx, view.utxos (env.getTxHash tx) = none) ∧
      s.vtxundo.length + 1 = block.vtx.length ∧
      Run (TxStep env pindex.nHeight) { view := view }
        (block.vtx.zip (none :: s.vtxundo.map some)) s ∧
      ∃ tx vtx nValueOut limit, block.vtx = tx :: vtx ∧ tx.getValueOut = .ok nValueOut ∧
        getBlockValue env.uniformInt env.tip fuel pindex.nHeight s.nFees
          (pindex.pprev.getD 0) = some limit ∧ nValueOut.toUInt64 ≤ limit := by
  obtain ⟨coinbase, vtx, hvtx, hcb, hrest⟩ := hshape.coinbase
  simp only [connectTransactions, bind_eq_ok, failIf_eq_ok, hvtx] at h
  obtain ⟨_, hbip30, s', htxs, nValueOut, hvalue, limit, hlimit, _, hle, _, _, hs⟩ := h
  obtain rfl := Except.ok.inj hs
  rw [← hvtx] at hbip30
  rw [connectTxs, bind_eq_ok] at htxs
  obtain ⟨s₁, hfirst, htxs⟩ := htxs
  obtain ⟨_, hfirst, hundo₁⟩ | ⟨hcb', _⟩ := connectTx_eq_ok hfirst
  · obtain ⟨vtxundo, hlen, hundos, hrun⟩ := connectTxs_eq_ok hrest htxs
    rw [hundo₁, List.nil_append] at hundos
    refine ⟨utxos_eq_none_of_not_any hbip30, by rw [hvtx, hundos, List.length_cons, hlen], ?_,
      coinbase, vtx, nValueOut, limit, hvtx, CTransaction.valueOut_eq_ok.mp hvalue, ?_,
      UInt64.not_lt.mp (of_decide_eq_false hle)⟩
    · rw [hvtx, hundos]
      exact .cons hfirst hrun
    · rw [blockValue] at hlimit
      split at hlimit
      · rename_i v hv
        rw [hv, Except.ok.inj hlimit]
      · simp at hlimit
  · rw [hcb] at hcb'
    cases hcb'

/-- **`ConnectBlock` inverted.** -/
theorem connectBlock_run {fJustCheck : Bool}
    (hgenesis : env.getBlockHash block.toCBlockHeader ≠ env.hashGenesisBlock)
    (h : connectBlock env io fuel block pindex view fJustCheck = (pindex', .ok r)) :
    BlockRun env fuel block pindex view fJustCheck pindex' r := by
  rw [connectBlock] at h
  cases hcheck : checkBlock env block pindex.nHeight (!fJustCheck) (!fJustCheck) with
  | error e =>
      simp only [hcheck] at h
      cases (Prod.mk.inj h).2
  | ok u =>
      have hshape := checkBlock_shape hcheck
      simp only [hcheck] at h
      by_cases hbest : view.hashBlock ≠ pindex.pprev.getD 0
      · rw [if_pos hbest] at h
        cases (Prod.mk.inj h).2
      · rw [if_neg hbest, if_neg hgenesis] at h
        cases hconn : connectTransactions env fuel block pindex view with
        | error e => simp [hconn] at h
        | ok s =>
            obtain ⟨hfresh, hlen, hrun, hlimit⟩ := connectTransactions_run hshape hconn
            simp only [hconn] at h
            cases fJustCheck with
            | true =>
                obtain rfl := Except.ok.inj (Prod.mk.inj h).2
                exact ⟨hshape, not_not.mp hbest, hfresh, hlen, ⟨s, hrun, rfl, hlimit⟩, by simp⟩
            | false =>
                obtain ⟨hindex, hres⟩ := Prod.mk.inj h
                simp only [bind_eq_ok] at hres
                obtain ⟨_, hwritten, _, _, hres⟩ := hres
                obtain rfl := Except.ok.inj hres
                have hwrote := writeUndoData_eq_ok (Prod.ext hindex hwritten)
                refine ⟨hshape, not_not.mp hbest, hfresh, hlen, ⟨s, hrun, ?_, hlimit⟩,
                  fun _ ↦ hwrote⟩
                obtain ⟨nStatus, rfl, _⟩ := hwrote
                rw [hindex]
                rfl

variable {fJustCheck : Bool}

/-- The labels of a block's run are its transactions. -/
theorem BlockRun.map_fst (h : BlockRun env fuel block pindex view fJustCheck pindex' r) :
    (block.vtx.zip (none :: r.blockundo.vtxundo.map some)).map Prod.fst = block.vtx :=
  List.map_fst_zip (by simp [← h.length])

theorem BlockRun.nodup (h : BlockRun env fuel block pindex view fJustCheck pindex' r) :
    ((block.vtx.zip (none :: r.blockundo.vtxundo.map some)).map
      fun p ↦ env.getTxHash p.1).Nodup := by
  have hids : (block.vtx.zip (none :: r.blockundo.vtxundo.map some)).map
      (fun p ↦ env.getTxHash p.1) = block.vtx.map env.getTxHash :=
    List.map_map.symm.trans (congrArg (List.map env.getTxHash) h.map_fst)
  exact hids ▸ h.shape.nodup

end

end Fedoracoin
