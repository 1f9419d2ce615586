import Fedoracoin.ViewAgree

/-!
# Connecting a block again

`DisconnectBlock` and `ConnectBlock` on views that have the same entries as those that a block was
connected to and that it left.  The view that the block left may have been flushed and read again
in the meantime, and the tip and the clock may be others.  The rules ask for the tip in the tail
era, and in the check of the header, which is made anew.
-/

namespace Fedoracoin

open CCoinsView

/-- The same entries, with the lists of their outputs in the form that is stored. -/
structure SameEntries (view view' : CCoinsView) : Prop where
  agree : AgreeOn Set.univ view view'
  canonical : ∀ txid, (view'.getCoins txid).Canonical

/-- `CheckBlockHeader`, which reads the clock, the tip and the last checkpoint. -/
abbrev HeaderCheck : Type :=
  (block : CBlockHeader) → (nHeight : Int) → (fCheckPOW : Bool) → Except Failure Unit

/-- The same rules at another time. -/
def BlockEnv.during (env : BlockEnv) (checkBlockHeader : HeaderCheck) (tip : TipState) :
    BlockEnv :=
  { env with checkBlockHeader := checkBlockHeader, tip := tip }

section

variable {env : BlockEnv} {checkBlockHeader : HeaderCheck} {io : UndoIO} {fuel : Nat}
  {block : CBlock}
  {pindex pindex' : ConnectIndex} {view view' : CCoinsView} {r : Connected}

/-! ## Disconnecting -/

/-- No entry is at height zero. -/
abbrev Raised (view : CCoinsView) : Prop := HeightsNonzero (fun _ ↦ True) view

theorem BlockRun.raised (h : BlockRun env fuel block pindex view false pindex' r)
    (hheight : pindex.nHeight ≠ 0) (hview : Raised view) : Raised r.view := by
  obtain ⟨s, hrview, hrun⟩ := h.steps (K := fun _ ↦ True) (P := fun _ ↦ True)
    (fun _ _ ↦ trivial) fun _ _ _ _ ↦ trivial
  have hs : Raised s.view := hrun.invariant (I := fun s ↦ Raised s.view)
    (fun _ _ _ hv hst ↦ (hst.rolledBack hheight hv).1) hview
  rw [hrview]
  exact hs

/-- **Disconnecting from another view.** -/
theorem BlockRun.disconnectBlock (h : BlockRun env fuel block pindex view false pindex' r)
    (hheight : pindex.nHeight ≠ 0) (hprev : pindex.pprev ≠ none) (hview : Raised view)
    (hsame : SameEntries r.view view') :
    ∃ view'', Fedoracoin.disconnectBlock env (some r.blockundo) block pindex' view' =
      .ok (true, view'') ∧ SameEntries view view'' := by
  obtain ⟨s, hrview, hrun⟩ := h.steps (K := fun _ ↦ True) (P := fun _ ↦ True)
    (fun _ _ ↦ trivial) fun _ _ _ _ ↦ trivial
  have hstart : RolledBack (fun _ ↦ True) s.view { view := view' } := by
    refine ⟨rfl, funext fun txid ↦ ?_, fun txid _ ↦ hsame.canonical txid⟩
    rw [hsame.agree.utxos txid trivial, hrview]
    rfl
  obtain ⟨t, hundo, hback⟩ := hrun.rollback
    (fun _ _ _ hv hst ↦ hst.rolledBack hheight hv) hview hstart
  obtain ⟨hashPrev, hhashPrev⟩ := Option.ne_none_iff_exists'.mp hprev
  have hhash : view'.hashBlock = pindex.blockHash := by
    rw [hsame.agree.hashBlock, hrview]
    rfl
  refine ⟨t.view.setBestBlock hashPrev,
    h.disconnectBlock_eq hhashPrev hhash hundo hback.fClean,
    ⟨fun txid _ ↦ congrFun hback.utxos txid, ?_⟩, fun txid ↦ hback.canonical txid trivial⟩
  rw [h.hashBlock, hhashPrev]
  rfl

/-! ## The loop over the transactions -/

variable {tip : TipState} {nHeight : Int} {fScriptChecks : Bool} {s s₁ : ConnectState}
  {tx : CTransaction} {vtx : List CTransaction}

theorem startTx_again (hp2sh : env.getP2SHSigOpCount = p2shSigOpCount)
    (hagree : AgreeOn Set.univ s.view view') (h : startTx env fScriptChecks s tx = .ok s₁) :
    startTx env fScriptChecks { s with view := view' } tx = .ok { s₁ with view := view' } := by
  rw [startTx] at h ⊢
  cases hcb : tx.isCoinBase with
  | true =>
      rw [hcb, if_pos rfl] at h
      obtain rfl := Except.ok.inj h
      rfl
  | false =>
      rw [hcb, if_neg Bool.false_ne_true] at h
      simp only [connectInputs, bind_eq_ok, failIf_eq_ok, Bool.not_eq_false', hp2sh] at h
      obtain ⟨_, hin, _, hsigOps, nValueIn, hvalue, nValueOut, hout, vChecks, hchecks, hs₁⟩ := h
      obtain rfl := Except.ok.inj hs₁
      have hspends : SpendsIn Set.univ tx.vin := fun _ _ ↦ trivial
      have hsigs := hagree.p2shSigOpCount hspends hin
      rw [if_neg Bool.false_ne_true]
      simp only [connectInputs, bind_eq_ok, failIf_eq_ok, Bool.not_eq_false', hp2sh, hsigs]
      exact ⟨(), (hagree.haveInputs hspends).trans hin, (), hsigOps, nValueIn,
        (hagree.getValueIn hspends hin).trans hvalue, nValueOut, hout, vChecks,
        (hagree.checkInputs hspends hin ..).trans hchecks, rfl⟩

theorem connectTx_again (hp2sh : env.getP2SHSigOpCount = p2shSigOpCount)
    (hagree : AgreeOn Set.univ s.view view')
    (h : connectTx env nHeight fScriptChecks s tx = .ok s₁) :
    ∃ view₁', connectTx env nHeight fScriptChecks { s with view := view' } tx =
      .ok { s₁ with view := view₁' } ∧ AgreeOn Set.univ s₁.view view₁' := by
  rw [connectTx_eq] at h
  obtain ⟨_, hsigOps, h⟩ := bind_eq_ok.mp h
  obtain ⟨s₀, hstart, hfinish⟩ := bind_eq_ok.mp h
  obtain ⟨⟨view₁, txundo⟩, hupdate, hfinish⟩ := bind_eq_ok.mp hfinish
  obtain rfl := Except.ok.inj hfinish
  rw [(startTx_eq_ok hstart).2.1] at hupdate
  obtain ⟨view₁', hupdate', hagree'⟩ := hagree.updateCoins (fun _ _ _ ↦ trivial) hupdate
  refine ⟨view₁', ?_, hagree'⟩
  rw [connectTx_eq]
  refine bind_eq_ok.mpr ⟨(), hsigOps, bind_eq_ok.mpr ⟨_, startTx_again hp2sh hagree hstart, ?_⟩⟩
  exact bind_eq_ok.mpr ⟨_, hupdate', rfl⟩

theorem connectTxs_again (hp2sh : env.getP2SHSigOpCount = p2shSigOpCount)
    (hagree : AgreeOn Set.univ s.view view')
    (h : connectTxs env nHeight fScriptChecks s vtx = .ok s₁) :
    ∃ view₁', connectTxs env nHeight fScriptChecks { s with view := view' } vtx =
      .ok { s₁ with view := view₁' } ∧ AgreeOn Set.univ s₁.view view₁' := by
  induction vtx generalizing s view' with
  | nil =>
      obtain rfl := Except.ok.inj h
      exact ⟨view', rfl, hagree⟩
  | cons tx vtx ih =>
      obtain ⟨s₂, hfirst, hrest⟩ := bind_eq_ok.mp h
      obtain ⟨view₂', hfirst', hagree₂⟩ := connectTx_again hp2sh hagree hfirst
      obtain ⟨view₁', hrest', hagree₁⟩ := ih hagree₂ hrest
      exact ⟨view₁', bind_eq_ok.mpr ⟨_, hfirst', hrest'⟩, hagree₁⟩

theorem connectTxs_during :
    connectTxs (env.during checkBlockHeader tip) nHeight fScriptChecks s vtx =
      connectTxs env nHeight fScriptChecks s vtx := by
  induction vtx generalizing s with
  | nil => rfl
  | cons tx vtx ih =>
      change (connectTx env nHeight fScriptChecks s tx >>= fun s ↦
        connectTxs (env.during checkBlockHeader tip) nHeight fScriptChecks s vtx) = _
      simp only [ih]
      rfl

/-! ## The block -/

/-- Below the tail era the limit of the coinbase is the same for every tip. -/
theorem blockValue_during {fuel' : Nat} {nFees : Int64} {prevHash : Uint256} {limit : UInt64}
    (hheight : nHeight < 1664000)
    (h : blockValue (env.during checkBlockHeader tip) fuel nHeight nFees prevHash = .ok limit) :
    blockValue env (fuel' + 1) nHeight nFees prevHash = .ok limit := by
  rw [blockValue] at h ⊢
  split at h
  case h_1 v hv =>
    obtain rfl := Except.ok.inj h
    rw [getBlockValue_of_lt hheight, getBlockValue_eq hv]
    rfl
  case h_2 => cases h

theorem not_any_of_utxos_eq_none (h : ∀ tx ∈ vtx, view.utxos (env.getTxHash tx) = none) :
    (vtx.any fun tx ↦ view.haveCoins (env.getTxHash tx) &&
      !(view.getCoins (env.getTxHash tx)).isPruned) = false := by
  rw [List.any_eq_false]
  intro tx htx
  have hnone := h tx htx
  rw [utxos_eq, CCoins.toEntry_eq_none] at hnone
  rw [hnone, Bool.not_true, Bool.and_false]
  exact Bool.false_ne_true

theorem connectTransactions_again (fuel' : Nat) {s : ConnectState}
    (hp2sh : env.getP2SHSigOpCount = p2shSigOpCount) (hheight : pindex.nHeight < 1664000)
    (hagree : AgreeOn Set.univ view view')
    (h : connectTransactions (env.during checkBlockHeader tip) fuel block pindex view = .ok s)
    (hpindex : pindex'.nHeight = pindex.nHeight ∧ pindex'.pprev = pindex.pprev) :
    ∃ s', connectTransactions env (fuel' + 1) block pindex' view' = .ok s' ∧
      s'.vtxundo = s.vtxundo ∧ AgreeOn Set.univ s.view s'.view := by
  cases hvtx : block.vtx with
  | nil => simp [connectTransactions, hvtx, bind_eq_ok] at h
  | cons coinbase vtx =>
      simp only [connectTransactions, hvtx, bind_eq_ok, failIf_eq_ok] at h
      obtain ⟨_, hbip30, s₁, htxs, nValueOut, hout, limit, hlimit, _, hle, _, hqueued, hs⟩ := h
      obtain rfl := Except.ok.inj hs
      rw [connectTxs_during] at htxs
      obtain ⟨view₁', htxs', hagree'⟩ := connectTxs_again hp2sh hagree htxs
      refine ⟨{ s₁ with view := view₁' }, ?_, rfl, hagree'⟩
      simp only [connectTransactions, hvtx, bind_eq_ok, failIf_eq_ok, hpindex.1, hpindex.2]
      refine ⟨(), ?_, _, htxs', nValueOut, hout, limit, blockValue_during hheight hlimit, (), hle,
        (), hqueued, rfl⟩
      rw [← hvtx] at hbip30 ⊢
      refine not_any_of_utxos_eq_none fun tx htx ↦ ?_
      rw [hagree.utxos _ trivial]
      exact utxos_eq_none_of_not_any hbip30 tx htx

/-- What `ConnectBlock` has left of the index entry is left as it is. -/
theorem writeUndoData_again {io' : UndoIO} (h : writeUndoData io pindex = (pindex', .ok ())) :
    writeUndoData io' pindex' = (pindex', .ok ()) := by
  obtain ⟨nStatus, rfl, hhave, hvalid⟩ := writeUndoData_eq_ok h
  have hdone : decide (nStatus.valid < blockValidScripts) = false :=
    decide_eq_false (not_lt.mpr hvalid)
  simp only [writeUndoData, ConnectIndex.undoPosIsNull, hhave, hdone, Bool.not_true,
    Bool.false_and, Bool.false_or, Bool.false_eq_true, if_false]

/-- `ConnectBlock`, when it is not just to check. -/
theorem connectBlock_eq_ok
    (hgenesis : env.getBlockHash block.toCBlockHeader ≠ env.hashGenesisBlock) :
    connectBlock env io fuel block pindex view false = (pindex', .ok r) ↔
      checkBlock env block pindex.nHeight true true = .ok () ∧
      view.hashBlock = pindex.pprev.getD 0 ∧
      ∃ s, connectTransactions env fuel block pindex view = .ok s ∧
        writeUndoData io pindex = (pindex', .ok ()) ∧ io.writeTxIndex = true ∧
        r = ⟨s.view.setBestBlock pindex'.blockHash, ⟨s.vtxundo⟩⟩ := by
  rw [connectBlock, Bool.not_false]
  cases hcheck : checkBlock env block pindex.nHeight true true with
  | error e => simp
  | ok u =>
      dsimp only
      by_cases hbest : view.hashBlock = pindex.pprev.getD 0
      · rw [if_neg (not_not.mpr hbest), if_neg hgenesis]
        cases hconn : connectTransactions env fuel block pindex view with
        | error e => simp
        | ok s =>
            cases hwrite : writeUndoData io pindex with
            | mk pindex₁ written =>
                simp only [Bool.false_eq_true, if_false, Prod.mk.injEq, bind_eq_ok, failIf_eq_ok,
                  Bool.not_eq_false', hbest, true_and, Except.ok.injEq, exists_eq_left']
                constructor
                · rintro ⟨rfl, _, hwritten, _, hio, hr⟩
                  exact ⟨⟨rfl, hwritten⟩, hio, (Except.ok.inj hr).symm⟩
                · rintro ⟨⟨rfl, hwritten⟩, hio, rfl⟩
                  exact ⟨rfl, (), hwritten, (), hio, rfl⟩
      · rw [if_pos hbest]
        exact iff_of_false (fun h ↦ absurd (Prod.mk.inj h).2 (by simp)) fun h ↦ hbest h.2.1

/-- Only the header is looked at in another way. -/
theorem checkBlock_again {fCheckPOW fCheckMerkleRoot : Bool}
    (h : checkBlock (env.during checkBlockHeader tip) block nHeight fCheckPOW fCheckMerkleRoot =
      .ok ()) :
    checkBlock env block nHeight fCheckPOW fCheckMerkleRoot = .ok () ↔
      env.checkBlockHeader block.toCBlockHeader nHeight fCheckPOW = .ok () := by
  rw [checkBlock] at h ⊢
  obtain ⟨_, -, hrest⟩ := bind_eq_ok.mp h
  constructor
  · intro hcheck
    obtain ⟨_, hheader, -⟩ := bind_eq_ok.mp hcheck
    exact hheader
  · exact fun hheader ↦ bind_eq_ok.mpr ⟨(), hheader, hrest⟩

/-- **Connecting again.** -/
theorem connectBlock_again {io' : UndoIO} {fuel' : Nat}
    (hp2sh : env.getP2SHSigOpCount = p2shSigOpCount) (hheight : pindex.nHeight < 1664000)
    (hgenesis : env.getBlockHash block.toCBlockHeader ≠ env.hashGenesisBlock)
    (hheader : env.checkBlockHeader block.toCBlockHeader pindex.nHeight true = .ok ())
    (hio : io'.writeTxIndex = true) (hagree : AgreeOn Set.univ view view')
    (h : connectBlock (env.during checkBlockHeader tip) io fuel block pindex view false =
      (pindex', .ok r)) :
    ∃ r', connectBlock env io' (fuel' + 1) block pindex' view' false = (pindex', .ok r') ∧
      AgreeOn Set.univ r.view r'.view := by
  have hgenesis' : (env.during checkBlockHeader tip).getBlockHash block.toCBlockHeader ≠
    (env.during checkBlockHeader tip).hashGenesisBlock := hgenesis
  obtain ⟨hcheck, hbest, s, hconn, hwrite, -, rfl⟩ := (connectBlock_eq_ok hgenesis').mp h
  obtain ⟨nStatus, rfl, -⟩ := writeUndoData_eq_ok hwrite
  obtain ⟨s', hconn', -, hviews⟩ := connectTransactions_again fuel' hp2sh hheight hagree hconn
    (show ConnectIndex.nHeight { pindex with nStatus := nStatus } = pindex.nHeight ∧ _
      from ⟨rfl, rfl⟩)
  refine ⟨⟨s'.view.setBestBlock pindex.blockHash, ⟨s'.vtxundo⟩⟩, ?_, hviews.utxos, rfl⟩
  exact (connectBlock_eq_ok hgenesis).mpr ⟨(checkBlock_again hcheck).mpr hheader,
    hagree.hashBlock.trans hbest, s', hconn', writeUndoData_again hwrite, hio, rfl⟩

end

end Fedoracoin
