import Fedoracoin.BlockRun

/-!
# Disconnecting undoes connecting

`DisconnectBlock` on the view that `ConnectBlock` yields, with the undo data it recorded,
gives back the view it started from: the same entries by transaction id, a pruned entry
counting as an absent one, and the parent as best block.  It also finds nothing to complain
about.

The argument is a rollback (`Run.rollback`) at two levels, over the inputs of a transaction
and over the transactions of a block.  The relation kept while rolling back is
`RolledBack`.  Besides equality of the entries it says that the entries of the block's own
transactions are canonical, since `DisconnectBlock` compares them as lists.

An undo record marks the last output of a transaction by a non-zero height, so the result
is about blocks that spend no transaction of height zero.  The genesis block is the only
one at that height, and `ConnectBlock` skips its transactions.
-/

namespace Fedoracoin

open CCoinsView

/-- No transaction in `P` that has unspent outputs is at height zero. -/
def HeightsNonzero (P : Uint256 → Prop) (view : CCoinsView) : Prop :=
  ∀ txid, P txid → ∀ e, view.utxos txid = some e → e.nHeight ≠ 0

/-- The state `t` of a rollback has arrived at `view`. -/
structure RolledBack (K : Uint256 → Prop) (view : CCoinsView) (t : UndoState) : Prop where
  fClean : t.fClean = true
  utxos : t.view.utxos = view.utxos
  canonical : ∀ txid, K txid → (t.view.getCoins txid).Canonical

section

variable {P K : Uint256 → Prop} {view view' : CCoinsView} {txin : CTxIn} {undo : CTxInUndo}
  {vin : List CTxIn} {vprevout : List CTxInUndo} {txid : Uint256}

/-! ## Inputs -/

/-- What spending an input does to the entries. -/
theorem spendInput_utxos (h : view.spendInput txin = .ok (view', undo)) :
    ∃ c c' : CCoins, view.utxos txin.prevout.hash = c.toEntry ∧
      c.spend txin.prevout.n = some (c', undo) ∧
      view'.utxos = Function.update view.utxos txin.prevout.hash c'.toEntry := by
  obtain ⟨c, c', hl, hspend, rfl⟩ := spendInput_eq_ok h
  exact ⟨c, c', by rw [utxos, hl, Option.bind_some], hspend, utxos_setCoins⟩

/-- An entry left after spending was there before, at the same height. -/
theorem spendInput_le (h : view.spendInput txin = .ok (view', undo)) {e' : Entry}
    (he : view'.utxos txid = some e') :
    ∃ e, view.utxos txid = some e ∧ e'.nHeight = e.nHeight := by
  obtain ⟨c, c', hc, hspend, hutxos⟩ := spendInput_utxos h
  rw [hutxos] at he
  by_cases hid : txid = txin.prevout.hash
  · subst hid
    rw [Function.update_self] at he
    obtain ⟨_, rfl⟩ := CCoins.toEntry_eq_some.mp he
    obtain ⟨hout, _, _, hh, _⟩ := CCoins.spend_eq_some hspend
    exact ⟨_, hc.trans (CCoins.toEntry_eq_some.mpr ⟨CCoins.isPruned_eq_false hout, rfl⟩), hh⟩
  · rw [Function.update_of_ne hid] at he
    exact ⟨e', he, rfl⟩

theorem HeightsNonzero.spendInput (hP : HeightsNonzero P view)
    (h : view.spendInput txin = .ok (view', undo)) : HeightsNonzero P view' := by
  intro txid hid e' he'
  obtain ⟨e, he, hh⟩ := spendInput_le h he'
  rw [hh]
  exact hP txid hid e he

theorem canonical_spendInput (hcan : (view.getCoins txid).Canonical)
    (h : view.spendInput txin = .ok (view', undo)) : (view'.getCoins txid).Canonical := by
  obtain ⟨c, c', hl, hspend, rfl⟩ := spendInput_eq_ok h
  by_cases hid : txid = txin.prevout.hash
  · subst hid
    rw [getCoins, hl, Option.getD_some] at hcan
    rw [getCoins_setCoins_self]
    exact hcan.spend hspend
  · rwa [getCoins_setCoins_of_ne hid]

/-- Restoring the input undoes spending it. -/
theorem RolledBack.restoreInput {t' : UndoState} (h : view.spendInput txin = .ok (view', undo))
    (hP : HeightsNonzero P view) (hmem : P txin.prevout.hash) (ht : RolledBack K view' t') :
    ∃ t, Fedoracoin.restoreInput t' (txin, undo) = .ok t ∧ RolledBack K view t := by
  obtain ⟨c, c', hc, hspend, hutxos⟩ := spendInput_utxos h
  have hout := (CCoins.spend_eq_some hspend).1
  have hentry := CCoins.toEntry_eq_some.mpr ⟨CCoins.isPruned_eq_false hout, rfl⟩
  have hheight : c.nHeight ≠ 0 := hP _ hmem _ (hc.trans hentry)
  have hw : (t'.view.getCoins txin.prevout.hash).toEntry = c'.toEntry := by
    rw [← utxos_eq, ht.utxos, hutxos, Function.update_self]
  obtain ⟨hclean, hrestored⟩ := CCoins.restore_spend hspend hheight hw
  refine ⟨_, rfl, ⟨?_, ?_, fun txid hid ↦ ?_⟩⟩
  · rw [ht.fClean, Bool.true_and]
    exact hclean
  · show CCoinsView.utxos (CCoinsView.setCoins _ _ _) = _
    rw [utxos_setCoins, ht.utxos, hutxos, Function.update_idem]
    exact (congrArg (Function.update view.utxos txin.prevout.hash) (hrestored.trans hc.symm)).trans
      (Function.update_eq_self _ _)
  · show CCoins.Canonical (CCoinsView.getCoins (CCoinsView.setCoins _ _ _) txid)
    by_cases heq : txid = txin.prevout.hash
    · subst heq
      rw [getCoins_setCoins_self]
      exact (ht.canonical _ hid).restore (SparseList.get_eq_some_iff.mp hout).2
    · rw [getCoins_setCoins_of_ne heq]
      exact ht.canonical txid hid

/-- Spending an input whose transaction is in `P`. -/
def SpendStep (P : Uint256 → Prop) (view : CCoinsView) (p : CTxIn × CTxInUndo)
    (view' : CCoinsView) : Prop :=
  view.spendInput p.1 = .ok (view', p.2) ∧ P p.1.prevout.hash

theorem spendInputs_run (hP : ∀ txin ∈ vin, P txin.prevout.hash)
    (h : view.spendInputs vin = .ok (view', vprevout)) :
    vprevout.length = vin.length ∧ Run (SpendStep P) view (vin.zip vprevout) view' := by
  induction vin generalizing view vprevout with
  | nil =>
      obtain ⟨rfl, rfl⟩ := Prod.mk.inj (Except.ok.inj h)
      exact ⟨rfl, .nil _⟩
  | cons txin vin ih =>
      obtain ⟨view₁, undo, undos, hstep, hrest, rfl⟩ := spendInputs_cons_eq_ok.mp h
      obtain ⟨hlen, hrun⟩ := ih (fun txin' hmem ↦ hP txin' (by simp [hmem])) hrest
      exact ⟨by simp [hlen], .cons ⟨hstep, hP txin (by simp)⟩ hrun⟩

/-- An entry left after spending the inputs was there before. -/
theorem spendInputs_le (h : view.spendInputs vin = .ok (view', vprevout))
    (hnone : view.utxos txid = none) : view'.utxos txid = none := by
  refine Run.invariant (I := fun view ↦ view.utxos txid = none) ?_
    (spendInputs_run (P := fun _ ↦ True) (fun _ _ ↦ trivial) h).2 hnone
  intro v p v' hv hstep
  rw [Option.eq_none_iff_forall_ne_some]
  intro e' he'
  obtain ⟨e, he, _⟩ := spendInput_le hstep.1 he'
  rw [hv] at he
  cases he

/-! ## Transactions -/

variable {env : BlockEnv} {nHeight : Int}

/-- An output list of the block's making is found unchanged, and is removed. -/
theorem RolledBack.removeOutputs {tx : CTransaction} {t' : UndoState}
    (ht : RolledBack K (view.setCoins (env.getTxHash tx) (.ofTx tx nHeight)) t')
    (hnone : view.utxos (env.getTxHash tx) = none) (hK : K (env.getTxHash tx))
    (hnonneg : ∀ txout ∈ tx.vout, 0 ≤ txout.nValue) :
    RolledBack K view (Fedoracoin.removeOutputs env nHeight t' tx) := by
  have hentry : (t'.view.getCoins (env.getTxHash tx)).toEntry =
      (CCoins.ofTx tx nHeight).toEntry := by
    rw [← utxos_eq, ht.utxos, utxos_setCoins, Function.update_self]
  have hback : Function.update (Function.update view.utxos (env.getTxHash tx)
      (CCoins.ofTx tx nHeight).toEntry) (env.getTxHash tx) none = view.utxos := by
    rw [Function.update_idem, ← hnone, Function.update_eq_self]
  refine ⟨?_, ?_, fun txid hid ↦ ?_⟩
  · have hmatch := fun v ↦ CCoins.eq_ofTx (v := v) hentry (ht.canonical _ hK) hnonneg
    show (t'.fClean && CCoins.eq _ _) = true
    rw [ht.fClean, Bool.true_and]
    split
    · exact hmatch _ (Or.inr rfl)
    · exact hmatch _ (Or.inl rfl)
  · show CCoinsView.utxos (if t'.view.haveCoins _ then _ else _) = _
    split
    · rw [utxos_setCoins, ht.utxos, utxos_setCoins]
      exact hback
    · rename_i hhave
      -- absent: the transaction had only unspendable outputs
      rw [haveCoins, Bool.not_eq_true, Option.isSome_eq_false_iff, Option.isNone_iff_eq_none]
        at hhave
      have habsent : t'.view.utxos (env.getTxHash tx) = none := by
        rw [CCoinsView.utxos, hhave]
        rfl
      rw [← hback, ← utxos_setCoins, ← ht.utxos, ← habsent, Function.update_eq_self]
  · show CCoins.Canonical (CCoinsView.getCoins (if t'.view.haveCoins _ then _ else _) txid)
    split
    · by_cases heq : txid = env.getTxHash tx
      · subst heq
        rw [getCoins_setCoins_self]
        exact CCoins.canonical_empty
      · rw [getCoins_setCoins_of_ne heq]
        exact ht.canonical txid hid
    · exact ht.canonical txid hid

theorem HeightsNonzero.setCoins {tx : CTransaction} (hP : HeightsNonzero P view)
    (hheight : nHeight ≠ 0) : HeightsNonzero P (view.setCoins txid (.ofTx tx nHeight)) := by
  intro id hid e he
  rw [utxos_setCoins] at he
  by_cases heq : id = txid
  · subst heq
    rw [Function.update_self] at he
    obtain ⟨_, rfl⟩ := CCoins.toEntry_eq_some.mp he
    exact hheight
  · rw [Function.update_of_ne heq] at he
    exact hP id hid e he

/-- A step that adds a transaction of the block whose id has no entry yet. -/
structure FreshStep (env : BlockEnv) (nHeight : Int) (P K : Uint256 → Prop) (s : ConnectState)
    (p : CTransaction × Option CTxUndo) (s' : ConnectState) : Prop where
  step : TxStep env nHeight s p s'
  fresh : s.view.utxos (env.getTxHash p.1) = none
  mem : K (env.getTxHash p.1)
  nonneg : ∀ txout ∈ p.1.vout, 0 ≤ txout.nValue
  spends : ∀ txin ∈ p.1.vin, P txin.prevout.hash

variable {s s' : ConnectState} {p : CTransaction × Option CTxUndo}

/-- Disconnecting a transaction undoes connecting it. -/
theorem FreshStep.rolledBack (h : FreshStep env nHeight P K s p s') (hheight : nHeight ≠ 0)
    (hP : HeightsNonzero P s.view) :
    HeightsNonzero P s'.view ∧ ∀ t', RolledBack K s'.view t' →
      ∃ t, disconnectTx env nHeight t' p = .ok t ∧ RolledBack K s.view t := by
  obtain ⟨hstep, hfresh, hK, hnonneg, hspends⟩ := h
  cases hstep with
  | coinbase hcb hview _ =>
      rw [hview]
      exact ⟨hP.setCoins hheight, fun t' ht ↦ ⟨_, rfl, ht.removeOutputs hfresh hK hnonneg⟩⟩
  | @spend _ tx view _ _ _ _ _ _ _ hspend hview _ =>
      obtain ⟨hlen, hrun⟩ := spendInputs_run hspends hspend
      have hP' : HeightsNonzero P view :=
        hrun.invariant (fun _ _ _ hv hst ↦ hv.spendInput hst.1) hP
      rw [hview]
      refine ⟨hP'.setCoins hheight, fun t' ht ↦ ?_⟩
      have hremoved := ht.removeOutputs (spendInputs_le hspend hfresh) hK hnonneg
      obtain ⟨t, hundo, hback⟩ := hrun.rollback
        (fun _ _ _ hv hst ↦ ⟨hv.spendInput hst.1, fun _ ht ↦ ht.restoreInput hst.1 hv hst.2⟩)
        hP hremoved
      refine ⟨t, ?_, hback⟩
      simp only [disconnectTx, bind_eq_ok, failIf_eq_ok, decide_eq_false_iff_not, not_not,
        exists_const]
      exact ⟨hlen, hundo⟩

/-! ## Blocks -/

theorem TxStep.utxos_eq_none (h : TxStep env nHeight s p s') (hne : txid ≠ env.getTxHash p.1)
    (hnone : s.view.utxos txid = none) : s'.view.utxos txid = none := by
  cases h with
  | coinbase _ hview _ => rw [hview, utxos_setCoins, Function.update_of_ne hne, hnone]
  | spend _ _ _ _ hspend hview _ =>
      rw [hview, utxos_setCoins, Function.update_of_ne hne]
      exact spendInputs_le hspend hnone

/-- The ids being distinct and free at the start, each is free when its turn comes. -/
theorem fresh_run {l : List (CTransaction × Option CTxUndo)}
    (h : Run (TxStep env nHeight) s l s') (hnd : (l.map fun p ↦ env.getTxHash p.1).Nodup)
    (hfresh : ∀ p ∈ l, s.view.utxos (env.getTxHash p.1) = none)
    (hK : ∀ p ∈ l, K (env.getTxHash p.1)) (hnonneg : ∀ p ∈ l, ∀ o ∈ p.1.vout, 0 ≤ o.nValue)
    (hP : ∀ p ∈ l, ∀ txin ∈ p.1.vin, P txin.prevout.hash) :
    Run (FreshStep env nHeight P K) s l s' := by
  induction h with
  | nil => exact .nil _
  | @cons s s₁ s' p l hstep _ ih =>
      rw [List.map_cons, List.nodup_cons] at hnd
      simp only [List.mem_cons, forall_eq_or_imp] at hfresh hK hnonneg hP
      refine .cons ⟨hstep, hfresh.1, hK.1, hnonneg.1, hP.1⟩ (ih hnd.2 ?_ hK.2 hnonneg.2 hP.2)
      intro q hq
      refine hstep.utxos_eq_none (fun heq ↦ hnd.1 ?_) (hfresh.2 q hq)
      exact List.mem_map.mpr ⟨q, hq, heq⟩

theorem canonical_setCoins {c : CCoins} {id : Uint256} (hc : c.Canonical)
    (h : id = txid ∨ (view.getCoins id).Canonical) :
    ((view.setCoins txid c).getCoins id).Canonical := by
  by_cases heq : id = txid
  · subst heq
    rwa [getCoins_setCoins_self]
  · rw [getCoins_setCoins_of_ne heq]
    exact h.resolve_left heq

theorem FreshStep.canonical (h : FreshStep env nHeight P K s p s')
    (hcan : txid = env.getTxHash p.1 ∨ (s.view.getCoins txid).Canonical) :
    (s'.view.getCoins txid).Canonical := by
  obtain ⟨hstep, _, _, hnonneg, hspends⟩ := h
  cases hstep with
  | coinbase _ hview _ =>
      rw [hview]
      exact canonical_setCoins (CCoins.canonical_ofTx hnonneg) hcan
  | spend _ _ _ _ hspend hview _ =>
      rw [hview]
      refine canonical_setCoins (CCoins.canonical_ofTx hnonneg) (hcan.imp_right fun hcan ↦ ?_)
      exact (spendInputs_run hspends hspend).2.invariant
        (I := fun view ↦ (view.getCoins txid).Canonical)
        (fun _ _ _ hv hst ↦ canonical_spendInput hv hst.1) hcan

/-- After the block its own entries are canonical. -/
theorem canonical_run {l : List (CTransaction × Option CTxUndo)}
    (h : Run (FreshStep env nHeight P K) s l s') :
    ∀ p ∈ l, (s'.view.getCoins (env.getTxHash p.1)).Canonical := by
  induction h with
  | nil => simp
  | @cons _ _ _ p _ hstep hrun ih =>
      rintro q (_ | ⟨_, hq⟩)
      · exact hrun.invariant (I := fun s ↦ (s.view.getCoins (env.getTxHash p.1)).Canonical)
          (fun _ _ _ hv hst ↦ hst.canonical (Or.inr hv)) (hstep.canonical (Or.inl rfl))
      · exact ih q hq

end

namespace BlockRun

variable {fuel : Nat} {block : CBlock} {pindex pindex' : ConnectIndex} {r : Connected}

/-- The steps of a connected block. -/
theorem steps (h : BlockRun env fuel block pindex view false pindex' r)
    (hK : ∀ tx ∈ block.vtx, K (env.getTxHash tx))
    (hP : ∀ tx ∈ block.vtx, ∀ txin ∈ tx.vin, P txin.prevout.hash) :
    ∃ s : ConnectState, r.view = s.view.setBestBlock pindex.blockHash ∧
      Run (FreshStep env pindex.nHeight P K) { view := view }
        (block.vtx.zip (none :: r.blockundo.vtxundo.map some)) s := by
  obtain ⟨s, hrun, hview, -⟩ := h.run
  have hmem : ∀ p ∈ block.vtx.zip (none :: r.blockundo.vtxundo.map some), p.1 ∈ block.vtx :=
    fun p hp ↦ (List.of_mem_zip hp).1
  exact ⟨s, hview, fresh_run hrun h.nodup (fun p hp ↦ h.fresh _ (hmem p hp))
    (fun p hp ↦ hK _ (hmem p hp)) (fun p hp ↦ h.shape.nonneg _ (hmem p hp))
    fun p hp ↦ hP _ (hmem p hp)⟩

/-- `DisconnectBlock` undoes the steps. -/
theorem disconnectBlock_eq (h : BlockRun env fuel block pindex view false pindex' r)
    {view' : CCoinsView} {t : UndoState} {hashPrev : Uint256}
    (hprev : pindex.pprev = some hashPrev) (hhash : view'.hashBlock = pindex.blockHash)
    (hundo : Run.undoAll (disconnectTx env pindex.nHeight) { view := view' }
      (block.vtx.zip (none :: r.blockundo.vtxundo.map some)) = .ok t) (hclean : t.fClean = true) :
    disconnectBlock env (some r.blockundo) block pindex' view' =
      .ok (true, t.view.setBestBlock hashPrev) := by
  obtain ⟨nStatus, rfl, hhave, -⟩ := h.index rfl
  simp only [disconnectBlock, hprev, bind_eq_ok, failIf_eq_ok, hhash, h.length,
    ConnectIndex.undoPosIsNull, hhave, Bool.not_true, ne_eq, not_true_eq_false, decide_false,
    exists_const, true_and]
  exact ⟨t, hundo, by rw [hclean]; rfl⟩

end BlockRun

/-- The transaction `txid` is one that the block spends an output of. -/
def CBlock.SpendsFrom (block : CBlock) (txid : Uint256) : Prop :=
  ∃ tx ∈ block.vtx, ∃ txin ∈ tx.vin, txin.prevout.hash = txid

/-- **Disconnecting a block undoes connecting it.** -/
theorem disconnectBlock_connectBlock (env : BlockEnv) (io : UndoIO) (fuel : Nat)
    (block : CBlock) (pindex pindex' : ConnectIndex) (hashPrev : Uint256) (view : CCoinsView)
    (r : Connected) (hgenesis : env.getBlockHash block.toCBlockHeader ≠ env.hashGenesisBlock)
    (hprev : pindex.pprev = some hashPrev) (hheight : pindex.nHeight ≠ 0)
    (hview : ∀ txid, block.SpendsFrom txid → ∀ e, view.utxos txid = some e → e.nHeight ≠ 0)
    (h : connectBlock env io fuel block pindex view false = (pindex', .ok r)) :
    ∃ view', disconnectBlock env (some r.blockundo) block pindex' r.view = .ok (true, view') ∧
      view'.utxos = view.utxos ∧ view'.hashBlock = hashPrev := by
  have hblock := connectBlock_run hgenesis h
  obtain ⟨s, hrview, hfresh⟩ := hblock.steps (P := block.SpendsFrom)
    (K := fun txid ↦ ∃ tx ∈ block.vtx, env.getTxHash tx = txid)
    (fun tx htx ↦ ⟨tx, htx, rfl⟩) fun tx htx txin htxin ↦ ⟨tx, htx, txin, htxin, rfl⟩
  -- rolling back starts at the view the block left
  have hstart : RolledBack (fun txid ↦ ∃ tx ∈ block.vtx, env.getTxHash tx = txid) s.view
      { view := r.view } := by
    refine ⟨rfl, by rw [hrview]; rfl, ?_⟩
    rintro _ ⟨tx, htx, rfl⟩
    rw [← hblock.map_fst] at htx
    obtain ⟨p, hp, rfl⟩ := List.mem_map.mp htx
    rw [hrview]
    exact canonical_run hfresh p hp
  obtain ⟨t, hundo, hback⟩ := hfresh.rollback
    (fun _ _ _ hv hst ↦ hst.rolledBack hheight hv) hview hstart
  have hhash : r.view.hashBlock = pindex.blockHash := by rw [hrview]; rfl
  exact ⟨t.view.setBestBlock hashPrev, hblock.disconnectBlock_eq hprev hhash hundo hback.fClean,
    hback.utxos, rfl⟩

/-! ## An example -/

/-- What `DisconnectBlock` reports when it is called right after `ConnectBlock`. -/
def roundTripClean (env : BlockEnv) (block : CBlock) (pindex : ConnectIndex)
    (view : CCoinsView) : Option Bool :=
  match connectBlock env {} 1 block pindex view false with
  | (pindex', .ok r) =>
      match disconnectBlock env (some r.blockundo) block pindex' r.view with
      | .ok (fClean, _) => some fClean
      | .error _ => none
  | (_, .error _) => none

theorem connects_of_roundTripClean {env : BlockEnv} {block : CBlock} {pindex : ConnectIndex}
    {view : CCoinsView} {b : Bool} (h : roundTripClean env block pindex view = some b) :
    ∃ pindex' r view', connectBlock env {} 1 block pindex view false = (pindex', .ok r) ∧
      disconnectBlock env (some r.blockundo) block pindex' r.view = .ok (b, view') := by
  rw [roundTripClean] at h
  split at h
  · rename_i pindex' r hconn
    split at h
    · rename_i fClean view' hdis
      rw [Option.some.injEq] at h
      exact ⟨pindex', r, view', hconn, h ▸ hdis⟩
    · cases h
  · cases h

/-- An environment that accepts every header and script, in which the hash of a transaction
is its lock time and that of a block its nonce. -/
def sampleEnv : BlockEnv where
  getTxHash tx := BitVec.ofNat 256 tx.nLockTime
  getBlockHash header := BitVec.ofNat 256 header.nNonce
  hash a b := a + b
  hashGenesisBlock := 0
  checkBlockHeader _ _ _ := .ok ()
  getLegacySigOpCount _ := 0
  getP2SHSigOpCount _ _ := 0
  verifyScript _ := true
  mapBlockIndex _ := some 9
  totalBlocksEstimate := 0
  scriptCheckThreads := false
  uniformInt _ lo _ := lo
  tip := .initial

/-- A coinbase, a transaction that spends the only output of transaction 50, and one that
spends an output of the second. -/
def sampleBlock : CBlock where
  hashPrevBlock := 7
  hashMerkleRoot := 9
  nTime := 0
  nBits := 0
  nNonce := 8
  vtx :=
    [{ vin := [⟨.null, [0, 0], uintMax⟩], vout := [⟨100, []⟩], nLockTime := 1 },
     { vin := [⟨⟨50, 0⟩, [], uintMax⟩], vout := [⟨20, []⟩, ⟨30, []⟩], nLockTime := 2 },
     { vin := [⟨⟨2, 1⟩, [], uintMax⟩], vout := [⟨30, []⟩], nLockTime := 3 }]

def sampleIndex : ConnectIndex := ⟨8, some 7, 10, {}⟩

/-- Transaction 50 at a given height, with one output. -/
def sampleView (nHeight : Int) : CCoinsView :=
  CCoinsView.setCoins ⟨∅, 7⟩ 50 { vout := [⟨60, []⟩], nHeight := nHeight }

theorem sampleView_height {nHeight : Int} {txid : Uint256} {e : Entry}
    (h : (sampleView nHeight).utxos txid = some e) : e.nHeight = nHeight := by
  rw [sampleView, utxos_setCoins] at h
  by_cases hid : txid = 50
  · subst hid
    rw [Function.update_self] at h
    obtain ⟨_, rfl⟩ := CCoins.toEntry_eq_some.mp h
    rfl
  · rw [Function.update_of_ne hid, utxos, Finmap.lookup_empty] at h
    cases h

theorem disconnectBlock_connectBlock_sample :
    ∃ pindex' r view',
      connectBlock sampleEnv {} 1 sampleBlock sampleIndex (sampleView 5) false =
        (pindex', .ok r) ∧
      disconnectBlock sampleEnv (some r.blockundo) sampleBlock pindex' r.view =
        .ok (true, view') ∧
      view'.utxos = (sampleView 5).utxos ∧ view'.hashBlock = 7 := by
  have hclean : roundTripClean sampleEnv sampleBlock sampleIndex (sampleView 5) = some true := by
    decide +kernel
  obtain ⟨pindex', r, _, hconn, _⟩ := connects_of_roundTripClean hclean
  obtain ⟨view', h⟩ := disconnectBlock_connectBlock sampleEnv {} 1 sampleBlock sampleIndex
    pindex' 7 (sampleView 5) r (by decide) rfl (by decide)
    (fun _ _ _ he ↦ by rw [sampleView_height he]; decide) hconn
  exact ⟨pindex', r, view', hconn, h⟩

/-- With transaction 50 at height zero its undo record does not say that it was used up, and
`DisconnectBlock` complains. -/
theorem disconnectBlock_height_zero :
    ¬ ∀ (env : BlockEnv) (io : UndoIO) (fuel : Nat) (block : CBlock)
      (pindex pindex' : ConnectIndex) (hashPrev : Uint256) (view : CCoinsView) (r : Connected),
      env.getBlockHash block.toCBlockHeader ≠ env.hashGenesisBlock →
      pindex.pprev = some hashPrev → pindex.nHeight ≠ 0 →
      connectBlock env io fuel block pindex view false = (pindex', .ok r) →
      ∃ view', disconnectBlock env (some r.blockundo) block pindex' r.view = .ok (true, view') ∧
        view'.utxos = view.utxos ∧ view'.hashBlock = hashPrev := by
  intro hall
  have hclean : roundTripClean sampleEnv sampleBlock sampleIndex (sampleView 0) = some false := by
    decide +kernel
  obtain ⟨pindex', r, view₁, hconn, hdis⟩ := connects_of_roundTripClean hclean
  obtain ⟨view₂, hdis', _⟩ := hall sampleEnv {} 1 sampleBlock sampleIndex pindex' 7
    (sampleView 0) r (by decide) rfl (by decide) hconn
  rw [hdis] at hdis'
  exact absurd (Except.ok.inj hdis') (by simp)

end Fedoracoin
