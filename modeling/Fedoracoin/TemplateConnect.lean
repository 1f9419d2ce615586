import Fedoracoin.TemplateSelect
import Fedoracoin.ViewAgree

/-!
# What was selected connects

The checks of `CreateNewBlock` are those that `ConnectBlock` makes again: each round in which a
transaction joins the block is matched by a round of the loop of `ConnectBlock`, on a view that
has the coinbase besides (`Simulates`).  So the call of `ConnectBlock` at the end of
`CreateNewBlock` succeeds, and no exception is thrown (`createNewBlock_spec`).
-/

namespace Fedoracoin

open CCoinsView RunningSum

/-! ## The coinbase besides -/

section

variable {S : Set Uint256} {k txid : Uint256} {view view' : CCoinsView} {tx : CTransaction}
  {txundo : CTxUndo} {nHeight : Int} {c : CCoins}

theorem agreeOn_setCoins : AgreeOn {k}ᶜ view (view.setCoins k c) :=
  ⟨fun txid htxid ↦ by rw [utxos_setCoins, Function.update_of_ne htxid], rfl⟩

/-- No input that is there is of a transaction without an entry. -/
theorem spendsIn_compl (hcb : tx.isCoinBase = false) (hin : view.haveInputs tx = true)
    (hnone : view.utxos k = none) : SpendsIn {k}ᶜ tx.vin := by
  rintro txin htxin rfl
  obtain ⟨txout, hout⟩ := (haveInputs_iff hcb).mp hin txin htxin
  rw [output_eq, hnone] at hout
  cases hout

theorem utxos_updateCoins_eq_none (hcb : tx.isCoinBase = false) (hne : txid ≠ k)
    (h : view.updateCoins tx nHeight txid = .ok (view', txundo)) (hnone : view.utxos k = none) :
    view'.utxos k = none := by
  rw [updateCoins, hcb, if_neg Bool.false_ne_true, bind_eq_ok] at h
  obtain ⟨⟨view₁, vprevout⟩, hspend, h⟩ := h
  obtain ⟨rfl, -⟩ := Prod.mk.inj (Except.ok.inj h)
  rw [utxos_setCoins, Function.update_of_ne hne.symm, spendInputs_le hspend hnone]

end

/-! ## Scripts -/

section

variable {view : CCoinsView} {tx : CTransaction} {verifyScript : CScriptCheck → Bool}
  {mapBlockIndex : Uint256 → Option Int}

theorem all_of_forM_checkInputScript {checks : List CScriptCheck}
    (h : checks.forM (checkInputScript verifyScript) = .ok ()) :
    checks.all verifyScript = true := by
  rw [List.all_eq_true]
  intro check hcheck
  have hok := forM_eq_ok h check hcheck
  rw [checkInputScript] at hok
  split at hok
  · next hverify => exact hverify
  · dsimp only at hok
    split at hok
    · obtain ⟨_, -, hok⟩ := bind_eq_ok.mp hok
      cases hok
    · cases hok

/-- Inputs that pass the checks of `CreateNewBlock` pass those of `ConnectBlock`. -/
theorem checkInputs_of_template
    (hflags : ∀ check : CScriptCheck, verifyScript { check with nFlags := scriptFlags } =
      verifyScript { check with nFlags := scriptVerifyP2sh }) {vChecks : List CScriptCheck}
    (h : view.checkInputs mapBlockIndex verifyScript tx true scriptVerifyP2sh false = .ok vChecks)
    (fScriptChecks queue : Bool) :
    ∃ vChecks', view.checkInputs mapBlockIndex verifyScript tx fScriptChecks scriptFlags queue =
      .ok vChecks' ∧ vChecks'.all verifyScript = true := by
  cases hcb : tx.isCoinBase with
  | true => exact ⟨[], by rw [checkInputs, hcb, if_pos rfl], rfl⟩
  | false =>
      rw [checkInputs, hcb, if_neg Bool.false_ne_true, bind_eq_ok] at h
      obtain ⟨_, hamounts, h⟩ := h
      obtain ⟨_, hscripts, -⟩ := bind_eq_ok.mp h
      have hall : (view.scriptChecks tx scriptFlags).all verifyScript = true := by
        have hp2sh := List.all_eq_true.mp (all_of_forM_checkInputScript hscripts)
        rw [List.all_eq_true]
        intro check hcheck
        obtain ⟨⟨txin, i⟩, hp, rfl⟩ := List.mem_map.mp hcheck
        exact (hflags ⟨_, tx, i, scriptFlags⟩).trans
          (hp2sh _ (List.mem_map.mpr ⟨(txin, i), hp, rfl⟩))
      have htrue : ∃ vChecks', view.checkInputs mapBlockIndex verifyScript tx fScriptChecks
          scriptFlags true = .ok vChecks' ∧ vChecks'.all verifyScript = true := by
        rw [checkInputs, hcb, if_neg Bool.false_ne_true, hamounts]
        cases fScriptChecks with
        | false => exact ⟨[], rfl, rfl⟩
        | true => exact ⟨_, rfl, hall⟩
      cases queue with
      | true => exact htrue
      | false =>
          obtain ⟨vChecks', hchecks, hverify⟩ := htrue
          rw [checkInputs_false, hchecks]
          exact ⟨[], by change ite _ _ _ = _; rw [if_pos hverify], rfl⟩

end

/-! ## The simulation -/

/-- What is relied on besides the pool.  The last rule is that of the signature cache. -/
structure TemplateReady {D : Type} (env : TemplateEnv D) (call : TemplateCall)
    (pcoinsTip : CCoinsView) (pool : CTxMemPool) : Prop where
  pool : PoolReady env.toBlockEnv pcoinsTip pool
  best : pcoinsTip.hashBlock = call.pindexPrev.blockHash
  known : ∃ nHeight, env.mapBlockIndex pcoinsTip.hashBlock = some nHeight
  legacy : env.getLegacySigOpCount = CTransaction.getLegacySigOpCount
  p2sh : env.getP2SHSigOpCount = CCoinsView.p2shSigOpCount
  flags : ∀ check : CScriptCheck, env.verifyScript { check with nFlags := scriptFlags } =
    env.verifyScript { check with nFlags := scriptVerifyP2sh }

/-- A coinbase that goes with what is selected. -/
structure CoinbaseReady {D : Type} (env : TemplateEnv D) (call : TemplateCall)
    (pcoinsTip : CCoinsView) (pool : CTxMemPool) (nValue : UInt64) : Prop where
  value : 0 ≤ nValue.toInt64
  script : call.scriptPubKeyIn.length ≤ 1800
  sigOps : getSigOpCount call.scriptPubKeyIn false ≤ 100
  fresh : pcoinsTip.haveCoins (env.getTxHash (call.coinbase nValue)) = false
  unlike : ∀ tx ∈ pool.txs, env.getTxHash tx ≠ env.getTxHash (call.coinbase nValue)

/-- The state of the loop of `ConnectBlock` after the coinbase. -/
def connectedCoinbase {D : Type} (env : TemplateEnv D) (call : TemplateCall)
    (pcoinsTip : CCoinsView) (nValue : UInt64) : ConnectState where
  view := pcoinsTip.setCoins (env.getTxHash (call.coinbase nValue))
    (.ofTx (call.coinbase nValue) call.nHeight)
  nSigOps := env.getLegacySigOpCount (call.coinbase nValue)

/-- The loop of `ConnectBlock` over what was selected so far. -/
structure Simulates {D : Type} (env : TemplateEnv D) (call : TemplateCall)
    (pcoinsTip : CCoinsView) (nValue : UInt64) (fScriptChecks : Bool) (s : Selection D)
    (k : ConnectState) : Prop where
  run : connectTxs env.toBlockEnv call.nHeight fScriptChecks
    (connectedCoinbase env call pcoinsTip nValue) s.vtx = .ok k
  view : AgreeOn {env.getTxHash (call.coinbase nValue)}ᶜ s.view k.view
  fresh : s.view.utxos (env.getTxHash (call.coinbase nValue)) = none
  fees : k.nFees = s.nFees
  sigOps : k.nSigOps + 100 = s.nBlockSigOps + env.getLegacySigOpCount (call.coinbase nValue)
  queued : k.queued.all env.verifyScript = true

section

variable {D : Type} {env : TemplateEnv D} {call : TemplateCall} {pcoinsTip : CCoinsView}
  {pool : CTxMemPool} {tx : CTransaction} {nValue : UInt64} {fScriptChecks : Bool}
  {s s' : Selection D}
  {k k' : ConnectState} {vtx : List CTransaction}

theorem isCoinBase_coinbase (call : TemplateCall) (nValue : UInt64) :
    (call.coinbase nValue).isCoinBase = true := rfl

theorem CoinbaseReady.utxos_eq_none (h : CoinbaseReady env call pcoinsTip pool nValue) :
    pcoinsTip.utxos (env.getTxHash (call.coinbase nValue)) = none := by
  have hfresh := h.fresh
  rw [haveCoins, Option.isSome_eq_false_iff, Option.isNone_iff_eq_none] at hfresh
  rw [utxos, hfresh]
  rfl

theorem CoinbaseReady.legacy_le (h : CoinbaseReady env call pcoinsTip pool nValue)
    (hready : TemplateReady env call pcoinsTip pool) :
    env.getLegacySigOpCount (call.coinbase nValue) ≤ 100 := by
  have hsigOps := h.sigOps
  have hnone : getSigOpCount [0x00, 0x00] false = 0 := by decide
  rw [hready.legacy, CTransaction.getLegacySigOpCount, TemplateCall.coinbase]
  simp only [List.map_cons, List.map_nil, List.sum_cons, List.sum_nil, hnone]
  omega

theorem CoinbaseReady.size_le (h : CoinbaseReady env call pcoinsTip pool nValue) :
    (call.coinbase nValue).getSerializeSize ≤ 1900 := by
  have hscript := h.script
  have hsize : getSizeOfCompactSize call.scriptPubKeyIn.length ≤ 3 := by
    rw [getSizeOfCompactSize]
    split_ifs <;> omega
  simp only [CTransaction.getSerializeSize, TemplateCall.coinbase, CTxIn.getSerializeSize,
    CTxOut.getSerializeSize, CScript.getSerializeSize, List.map_cons, List.map_nil, List.sum_cons,
    List.sum_nil, List.length_cons, List.length_nil, getSizeOfCompactSize, Nat.reduceAdd,
    Nat.reduceLT, if_true] at hsize ⊢
  omega

theorem CoinbaseReady.checked (h : CoinbaseReady env call pcoinsTip pool nValue) :
    checkTransaction (call.coinbase nValue) = .ok () := by
  have hsize := h.size_le
  have htotal : CTransaction.checkOutputsTally.run 0 (call.coinbase nValue).vout =
      .ok (0 + nValue.toInt64) := by
    refine (Tally.run_cons_eq_ok _).mpr
      ⟨CTransaction.checkOutputs_before_eq_ok.mpr h.value, ?_, rfl⟩
    refine failIf_eq_ok.mpr ?_
    rw [Bool.not_eq_false', moneyRange_iff]
    change 0 ≤ 0 + nValue.toInt64
    rw [Int64.zero_add]
    exact h.value
  simp only [checkTransaction, CTransaction.checkShape, bind_eq_ok, failIf_eq_ok]
  refine ⟨(), ⟨(), rfl, (), rfl, decide_eq_false ?_⟩, _, htotal, (), ?_, ?_⟩
  · simp only [maxBlockSize]
    omega
  · exact CTransaction.checkDuplicateInputs_eq_ok.mpr ⟨List.nodup_singleton _, by simp⟩
  · rw [CTransaction.checkKind, isCoinBase_coinbase, if_pos rfl]
    rfl

theorem connectTxs_concat {benv : BlockEnv} {nHeight : Int} {k₀ : ConnectState}
    (h : connectTxs benv nHeight fScriptChecks k₀ vtx = .ok k)
    (htx : connectTx benv nHeight fScriptChecks k tx = .ok k') :
    connectTxs benv nHeight fScriptChecks k₀ (vtx ++ [tx]) = .ok k' := by
  induction vtx generalizing k₀ with
  | nil =>
      obtain rfl := Except.ok.inj h
      exact bind_eq_ok.mpr ⟨k', htx, rfl⟩
  | cons tx' vtx ih =>
      obtain ⟨k₁, hk₁, h⟩ := bind_eq_ok.mp h
      exact bind_eq_ok.mpr ⟨k₁, hk₁, ih h⟩

/-- A transaction that fits connects. -/
theorem Simulates.connectTx (hready : TemplateReady env call pcoinsTip pool)
    (hcbready : CoinbaseReady env call pcoinsTip pool nValue)
    (h : Simulates env call pcoinsTip nValue fScriptChecks s k) {nTxFees : Int64} {nTxSigOps : Nat}
    {view : CCoinsView} {txundo : CTxUndo} (hcb : tx.isCoinBase = false)
    (hfits : Fits env call s tx nTxFees nTxSigOps)
    (hupdate : s.view.updateCoins tx call.nHeight (env.getTxHash tx) = .ok (view, txundo)) :
    ∃ k', connectTx env.toBlockEnv call.nHeight fScriptChecks k tx = .ok k' ∧
      AgreeOn {env.getTxHash (call.coinbase nValue)}ᶜ view k'.view ∧
      k'.nFees = k.nFees + nTxFees ∧ k'.nSigOps = k.nSigOps + nTxSigOps ∧
      k'.queued.all env.verifyScript = true := by
  have hin := spendsIn_compl hcb hfits.inputs h.fresh
  have hsum := h.sigOps
  have hcbSigOps := hcbready.legacy_le hready
  have hlimit := hfits.sigOps
  have hcount := hfits.count
  obtain ⟨nValueIn, nValueOut, hvalue, hout, hfees⟩ := hfits.fees
  obtain ⟨vChecks, hchecks⟩ := hfits.checks
  obtain ⟨vChecks', hchecks', hverify⟩ :=
    checkInputs_of_template hready.flags hchecks fScriptChecks env.scriptCheckThreads
  have hp2sh : env.getP2SHSigOpCount tx k.view = env.getP2SHSigOpCount tx s.view := by
    rw [hready.p2sh, h.view.p2shSigOpCount hin hfits.inputs]
  obtain ⟨view₁, hupdate', hagree⟩ := h.view.updateCoins (fun _ ↦ hin) hupdate
  let k₁ : ConnectState := { k with
    nSigOps := k.nSigOps + nTxSigOps
    nFees := k.nFees + nTxFees
    queued := k.queued ++ vChecks' }
  have hinputs : connectInputs env.toBlockEnv fScriptChecks
      { k with nSigOps := k.nSigOps + env.getLegacySigOpCount tx } tx = .ok k₁ := by
    simp only [connectInputs, bind_eq_ok, failIf_eq_ok, hp2sh]
    refine ⟨(), by rw [h.view.haveInputs hin, hfits.inputs]; rfl, (), decide_eq_false (by omega),
      nValueIn, (h.view.getValueIn hin hfits.inputs).trans hvalue, nValueOut, hout, vChecks',
      (h.view.checkInputs hin hfits.inputs ..).trans hchecks', ?_⟩
    rw [Nat.add_assoc, ← hcount, ← hfees]
    rfl
  let k₂ : ConnectState := { k₁ with view := view₁, vtxundo := k.vtxundo ++ [txundo] }
  have hfinish : finishTx env.toBlockEnv call.nHeight tx k₁ = .ok k₂ := by
    refine bind_eq_ok.mpr ⟨_, hupdate', ?_⟩
    dsimp only
    rw [hcb, if_neg Bool.false_ne_true]
    rfl
  refine ⟨k₂, ?_, hagree, rfl, rfl, ?_⟩
  · rw [connectTx_eq, startTx, hcb, if_neg Bool.false_ne_true, hinputs]
    exact bind_eq_ok.mpr ⟨(), failIf_eq_ok.mpr (decide_eq_false (by omega)), hfinish⟩
  · exact List.all_append.trans (by rw [h.queued, hverify]; rfl)

theorem Simulates.round (hready : TemplateReady env call pcoinsTip pool)
    (hcbready : CoinbaseReady env call pcoinsTip pool nValue)
    (h : Simulates env call pcoinsTip nValue fScriptChecks s k) {mapDependers : Uint256 → List Nat}
    (hqueue : ∀ p ∈ s.vecPriority, p.ptx ∈ pool.txs ∧ p.ptx.isCoinBase = false)
    (hround : Round env call mapDependers s s') :
    ∃ k', Simulates env call pcoinsTip nValue fScriptChecks s' k' := by
  cases hround with
  | skip _ => exact ⟨k, h.run, h.view, h.fresh, h.fees, h.sigOps, h.queued⟩
  | @add _ p b q nTxFees nTxSigOps view txundo hleft hfits hupdate hrelease =>
      obtain ⟨rest, hfront, -⟩ := hleft.front
      obtain ⟨hmem, hcb⟩ := hqueue p (hfront ▸ List.mem_cons_self)
      have hne := hcbready.unlike _ hmem
      obtain ⟨k', hk', hview, hfees, hsigOps, hqueued⟩ :=
        h.connectTx hready hcbready hcb hfits hupdate
      have hsame := (released_of_foldlM hrelease).same
      refine ⟨k', ?_, ?_, ?_, ?_, ?_, hqueued⟩
      · rw [hsame]
        exact connectTxs_concat h.run hk'
      · rw [hsame]
        exact hview
      · rw [hsame]
        exact utxos_updateCoins_eq_none hcb hne hupdate h.fresh
      · rw [hsame, hfees, h.fees]
        rfl
      · have hsum := h.sigOps
        rw [hsame]
        change k'.nSigOps + 100 = s.nBlockSigOps + nTxSigOps + _
        omega

end

/-! ## Limits -/

/-- The size and the signature operations of what was selected, and its fees. -/
structure WithinLimits {D : Type} (env : TemplateEnv D) (call : TemplateCall) (s : Selection D) :
    Prop where
  size : s.nBlockSize = 1000 + (s.vtx.map CTransaction.getSerializeSize).sum
  size_le : s.nBlockSize ≤ call.nBlockMaxSize
  sigOps : s.nBlockSigOps = 100 + s.vTxSigOps.sum
  sigOps_lt : s.nBlockSigOps < maxBlockSigops
  legacy_le : (s.vtx.map env.getLegacySigOpCount).sum ≤ s.vTxSigOps.sum
  fees : s.nFees = s.vTxFees.sum
  length_vTxFees : s.vTxFees.length = s.vtx.length
  length_vTxSigOps : s.vTxSigOps.length = s.vtx.length

section

variable {D : Type} {env : TemplateEnv D} {call : TemplateCall} {pcoinsTip : CCoinsView}
  {c : Collected D} {s s' : Selection D} {mapDependers : Uint256 → List Nat} {n : Nat}

theorem TemplateCall.nBlockMaxSize_le (call : TemplateCall) :
    1000 ≤ call.nBlockMaxSize ∧ call.nBlockMaxSize + 1000 ≤ maxBlockSize := by
  simp only [TemplateCall.nBlockMaxSize, maxBlockSize]
  omega

theorem WithinLimits.start (env : TemplateEnv D) (call : TemplateCall) (pcoinsTip : CCoinsView)
    (c : Collected D) : WithinLimits env call (env.startSelection call pcoinsTip c) :=
  ⟨rfl, call.nBlockMaxSize_le.1, rfl, (by decide : 100 < maxBlockSigops), le_rfl, rfl, rfl, rfl⟩

theorem WithinLimits.round (h : WithinLimits env call s)
    (hround : Round env call mapDependers s s') : WithinLimits env call s' := by
  cases hround with
  | skip _ => exact ⟨h.size, h.size_le, h.sigOps, h.sigOps_lt, h.legacy_le, h.fees,
      h.length_vTxFees, h.length_vTxSigOps⟩
  | @add _ p b q nTxFees nTxSigOps view txundo hleft hfits hupdate hrelease =>
      rw [(released_of_foldlM hrelease).same]
      have hsize := h.size
      have hsigOps := h.sigOps
      have hlegacy := h.legacy_le
      have hcount := hfits.count
      refine ⟨?_, hfits.size.le, ?_, hfits.sigOps, ?_, ?_, ?_, ?_⟩
      · simp only [Selection.joined, List.map_append, List.map_cons, List.map_nil,
          List.sum_append, List.sum_singleton]
        omega
      · simp only [Selection.joined, List.sum_append, List.sum_singleton]
        omega
      · simp only [Selection.joined, List.map_append, List.map_cons, List.map_nil,
          List.sum_append, List.sum_singleton]
        omega
      · simp only [Selection.joined, List.sum_append, List.sum_singleton, h.fees]
      · simp only [Selection.joined, List.length_append, h.length_vTxFees, List.length_singleton]
      · simp only [Selection.joined, List.length_append, h.length_vTxSigOps,
          List.length_singleton]

/-- A run of the loop, whatever was collected. -/
theorem rounds_of_selectTxs (h : env.selectTxs call mapDependers n s = .ok s') :
    Rounds env call mapDependers s s' := by
  induction n generalizing s with
  | zero => exact absurd h (by simp [TemplateEnv.selectTxs])
  | succ n ih =>
      rw [TemplateEnv.selectTxs] at h
      split at h
      · obtain rfl := Except.ok.inj h
        exact .refl
      · next p rest hfront =>
        obtain ⟨s₁, hs₁, h⟩ := bind_eq_ok.mp h
        exact .head (takeTx_eq_ok hfront hs₁) (ih h)

theorem WithinLimits.rounds (h : WithinLimits env call s)
    (hrounds : Rounds env call mapDependers s s') : WithinLimits env call s' := by
  induction hrounds with
  | refl => exact h
  | tail _ hround ih => exact ih.round hround

/-- **A template keeps the limits**, and its lists go with its transactions. -/
theorem createNewBlock_limits {rounds : Nat} {pool : CTxMemPool} {t : CBlockTemplate}
    (h : env.createNewBlock call rounds pool pcoinsTip = .ok t) :
    (t.block.vtx.tail.map CTransaction.getSerializeSize).sum + 1000 ≤ call.nBlockMaxSize ∧
      t.vTxSigOps.tail.sum + 100 < maxBlockSigops ∧
      (t.block.vtx.tail.map env.getLegacySigOpCount).sum ≤ t.vTxSigOps.tail.sum ∧
      t.vTxFees.sum = 0 ∧ t.vTxFees.length = t.block.vtx.length ∧
      t.vTxSigOps.length = t.block.vtx.length := by
  obtain ⟨c, -, h⟩ := bind_eq_ok.mp h
  obtain ⟨s, hselect, h⟩ := bind_eq_ok.mp h
  obtain ⟨nValue, -, h⟩ := bind_eq_ok.mp h
  have hlimits := (WithinLimits.start env call pcoinsTip c).rounds (rounds_of_selectTxs hselect)
  have hsize := hlimits.size
  have hsize_le := hlimits.size_le
  have hsigOps := hlimits.sigOps
  have hsigOps_lt := hlimits.sigOps_lt
  have hfill : env.fillBlock call s nValue = t := by
    dsimp only at h
    split at h
    · exact Except.ok.inj h
    · split at h <;> cases h
  subst hfill
  refine ⟨?_, ?_, hlimits.legacy_le, ?_, ?_, ?_⟩
  · change (s.vtx.map CTransaction.getSerializeSize).sum + 1000 ≤ call.nBlockMaxSize
    omega
  · change s.vTxSigOps.sum + 100 < maxBlockSigops
    omega
  · change (-s.nFees :: s.vTxFees).sum = 0
    rw [List.sum_cons, ← hlimits.fees, Int64.add_left_neg]
  · exact congrArg (· + 1) hlimits.length_vTxFees
  · exact congrArg (· + 1) hlimits.length_vTxSigOps

end

theorem sortedTxs_templatePool :
    templatePool.sortedTxs = [templateTx 2 50 20, templateTx 3 2 10] := by
  have hkeys : templatePool.mapTx.keys = [2, 3].toFinset := by decide
  have hsort : [2, 3].toFinset.sort HashLE = ([2, 3] : List Uint256) :=
    (List.toFinset_sort _ (by decide)).mpr (by decide)
  rw [CTxMemPool.sortedTxs, hkeys, hsort]
  rfl

theorem createNewBlock_limits_templatePool :
    ∃ t : CBlockTemplate,
      (t.block.vtx.tail.map CTransaction.getSerializeSize).sum + 1000 ≤ 250000 ∧
        t.vTxSigOps.tail.sum + 100 < maxBlockSigops ∧
        (t.block.vtx.tail.map CTransaction.getLegacySigOpCount).sum ≤ t.vTxSigOps.tail.sum ∧
        t.vTxFees.sum = 0 ∧ t.vTxFees.length = t.block.vtx.length ∧
        t.vTxSigOps.length = t.block.vtx.length := by
  have hsome : (templateEnv.createNewBlock templateCall 3 templatePool
      templateCoins).toOption.isSome = true := by
    rw [TemplateEnv.createNewBlock, TemplateEnv.collect, sortedTxs_templatePool]
    decide +kernel
  cases ht : templateEnv.createNewBlock templateCall 3 templatePool templateCoins with
  | error e =>
      rw [ht] at hsome
      exact absurd hsome Bool.false_ne_true
  | ok t => exact ⟨t, createNewBlock_limits ht⟩

/-! ## `CreateNewBlock` -/

section

variable {D : Type} {env : TemplateEnv D} {call : TemplateCall} {pcoinsTip : CCoinsView}
  {pool : CTxMemPool} {nValue : UInt64} {c : Collected D} {s s' : Selection D}
  {skipped : List CTransaction}

theorem nodup_sortedTxs (h : pool.Consistent env.getTxHash) :
    (pool.sortedTxs.map env.getTxHash).Nodup := by
  have hkeys : ∀ l : List Uint256, (l.filterMap fun hash ↦
      (pool.mapTx.lookup hash).map fun e ↦ e.tx).map env.getTxHash |>.Sublist l := by
    intro l
    induction l with
    | nil => exact .slnil
    | cons hash l ih =>
        rw [List.filterMap_cons]
        cases he : pool.mapTx.lookup hash with
        | none => exact ih.cons _
        | some e =>
            rw [Option.map_some, List.map_cons, h.hash_eq hash e he]
            exact ih.cons_cons _
  exact (hkeys _).nodup (Finset.sort_nodup _ _)

/-- What can join the block. -/
theorem mem_sortedTxs_filter {tx : CTransaction}
    (h : tx ∈ pool.sortedTxs.filter fun tx ↦ !call.isExcluded tx) :
    tx ∈ pool.txs ∧ tx.isCoinBase = false := by
  obtain ⟨hsorted, hcall⟩ := List.mem_filter.mp h
  refine ⟨CTxMemPool.mem_txs_of_mem_sortedTxs hsorted, ?_⟩
  rw [TemplateCall.isExcluded, Bool.not_eq_true', Bool.or_eq_false_iff] at hcall
  exact hcall.1

/-- The transactions of a block, of the pool and none twice. -/
structure Selected (env : TemplateEnv D) (pool : CTxMemPool) (vtx : List CTransaction) : Prop where
  mem : ∀ tx ∈ vtx, tx ∈ pool.txs ∧ tx.isCoinBase = false
  nodup : (vtx.map env.getTxHash).Nodup

theorem Progress.selected (hpool : pool.Consistent env.getTxHash)
    (h : Progress env pcoinsTip c (pool.sortedTxs.filter fun tx ↦ !call.isExcluded tx) s skipped) :
    Selected env pool s.vtx := by
  constructor
  · intro tx htx
    refine mem_sortedTxs_filter (h.perm.mem_iff.mp ?_)
    exact List.mem_append.mpr (Or.inl (List.mem_append.mpr (Or.inl htx)))
  · have hall : ((pool.sortedTxs.filter fun tx ↦ !call.isExcluded tx).map env.getTxHash).Nodup :=
      (nodup_sortedTxs hpool).sublist (List.filter_sublist.map _)
    rw [← (h.perm.map env.getTxHash).nodup_iff, List.append_assoc, List.map_append] at hall
    exact (List.nodup_append.mp hall).1

theorem forM_eq_ok_of {α ε : Type} {f : α → Except ε Unit} {l : List α}
    (h : ∀ x ∈ l, f x = .ok ()) : l.forM f = .ok () := by
  induction l with
  | nil => rfl
  | cons x l ih =>
      obtain ⟨hx, hl⟩ := List.forall_mem_cons.mp h
      change (f x >>= fun _ ↦ l.forM f) = _
      exact bind_eq_ok.mpr ⟨(), hx, ih hl⟩

/-- The block passes `CheckBlock`. -/
theorem checkBlock_template (hready : TemplateReady env call pcoinsTip pool)
    (hcb : CoinbaseReady env call pcoinsTip pool nValue)
    (hheader : env.checkBlockHeader call.header call.nHeight false = .ok ())
    (hlimits : WithinLimits env call s)
    (hselected : Selected env pool s.vtx) :
    checkBlock env.toBlockEnv (env.fillBlock call s nValue).block call.nHeight false false =
      .ok () := by
  obtain ⟨hmem, hnodup⟩ := hselected
  have hsize := hlimits.size
  have hsize_le := hlimits.size_le
  have hcbsize := hcb.size_le
  obtain ⟨-, hmax⟩ := call.nBlockMaxSize_le
  have hmaxBlock : maxBlockSize = 1000000 := rfl
  -- a transaction takes more than one byte
  have hcount : s.vtx.length ≤ (s.vtx.map CTransaction.getSerializeSize).sum := by
    refine (List.length_map (f := CTransaction.getSerializeSize) ▸
      List.length_le_sum_of_one_le _ fun n hn ↦ ?_)
    obtain ⟨tx, -, rfl⟩ := List.mem_map.mp hn
    rw [CTransaction.getSerializeSize]
    omega
  have hcompact : ∀ n, getSizeOfCompactSize n ≤ 9 := by
    intro n
    rw [getSizeOfCompactSize]
    split_ifs <;> omega
  have hvtx : (env.fillBlock call s nValue).block.vtx = call.coinbase nValue :: s.vtx := rfl
  simp only [checkBlock, bind_eq_ok, failIf_eq_ok, hvtx]
  refine ⟨(), hheader, (), ?_, (), rfl, (), ?_, (), ?_, (), ?_, (), ?_, rfl⟩
  · rw [CBlock.getSerializeSize, hvtx, List.map_cons, List.sum_cons, List.length_cons]
    have := hcompact (s.vtx.length + 1)
    rw [Bool.or_eq_false_iff, Bool.or_eq_false_iff]
    exact ⟨⟨rfl, decide_eq_false (by omega)⟩, decide_eq_false (by omega)⟩
  · rw [List.tail_cons, List.any_eq_false]
    exact fun tx htx ↦ Bool.eq_false_iff.mp (hmem tx htx).2
  · refine forM_eq_ok_of fun tx htx ↦ ?_
    rcases List.mem_cons.mp htx with rfl | htx
    · exact hcb.checked
    · exact hready.pool.checked tx (hmem tx htx).1
  · have hall : ((call.coinbase nValue :: s.vtx).map env.getTxHash).Nodup := by
      refine List.nodup_cons.mpr ⟨fun hin ↦ ?_, hnodup⟩
      obtain ⟨tx, htx, heq⟩ := List.mem_map.mp hin
      exact hcb.unlike tx (hmem tx htx).1 heq
    rw [List.toFinset_card_of_nodup hall, List.length_map]
    exact bne_self_eq_false' _
  · have hsigOps := hlimits.sigOps
    have hsigOps_lt := hlimits.sigOps_lt
    have hlegacy := hlimits.legacy_le
    have hcbSigOps := hcb.legacy_le hready
    rw [List.map_cons, List.sum_cons]
    exact decide_eq_false (by omega)

/-- It passes the checks of `ConnectBlock` on the transactions. -/
theorem connectTransactions_template {k : ConnectState}
    (hready : TemplateReady env call pcoinsTip pool)
    (hcb : CoinbaseReady env call pcoinsTip pool nValue)
    (hvalue : blockValue env.toBlockEnv call.fuel call.nHeight s.nFees call.pindexPrev.blockHash =
      .ok nValue)
    (hselected : Selected env pool s.vtx)
    (hsim : Simulates env call pcoinsTip nValue
      (decide (env.totalBlocksEstimate ≤ call.nHeight)) s k) :
    connectTransactions env.toBlockEnv call.fuel (env.fillBlock call s nValue).block
      call.indexDummy pcoinsTip = .ok k := by
  obtain ⟨hmem, -⟩ := hselected
  have hcbSigOps := hcb.legacy_le hready
  have hfirst : connectTx env.toBlockEnv call.nHeight
      (decide (env.totalBlocksEstimate ≤ call.nHeight)) { view := pcoinsTip }
      (call.coinbase nValue) = .ok (connectedCoinbase env call pcoinsTip nValue) := by
    rw [connectTx_eq, startTx, isCoinBase_coinbase, if_pos rfl]
    refine bind_eq_ok.mpr ⟨(), failIf_eq_ok.mpr (decide_eq_false ?_), ?_⟩
    · have : maxBlockSigops = 20000 := rfl
      dsimp only
      omega
    · change Except.ok _ = _
      rw [connectedCoinbase, Nat.zero_add]
      rfl
  have hout : (call.coinbase nValue).valueOut = .ok (0 + nValue.toInt64) := by
    refine CTransaction.valueOut_eq_ok.mpr ((Tally.run_cons_eq_ok _).mpr ⟨rfl, ?_, rfl⟩)
    refine (CTransaction.valueOutTally_guarded _ _ rfl).mpr ⟨hcb.value, ?_⟩
    rw [Int64.zero_add]
    exact hcb.value
  rw [Int64.zero_add] at hout
  have hvtx : (env.fillBlock call s nValue).block.vtx = call.coinbase nValue :: s.vtx := rfl
  simp only [connectTransactions, bind_eq_ok, failIf_eq_ok, hvtx]
  refine ⟨(), ?_, k, bind_eq_ok.mpr ⟨_, hfirst, hsim.run⟩, nValue.toInt64, hout, nValue, ?_, (),
    ?_, (), ?_, rfl⟩
  · rw [List.any_eq_false]
    intro tx htx
    have hfresh : pcoinsTip.haveCoins (env.getTxHash tx) = false := by
      rcases List.mem_cons.mp htx with rfl | htx
      · exact hcb.fresh
      · exact hready.pool.fresh tx (hmem tx htx).1
    rw [hfresh, Bool.false_and]
    decide
  · rw [hsim.fees]
    exact hvalue
  · exact decide_eq_false (by simp)
  · rw [hsim.queued]
    rfl

/-- The loop of `ConnectBlock` follows the rounds. -/
theorem exists_simulates (hready : TemplateReady env call pcoinsTip pool)
    (hcb : CoinbaseReady env call pcoinsTip pool nValue)
    (hc : c.From pcoinsTip (pool.sortedTxs.filter fun tx ↦ !call.isExcluded tx))
    (hrounds : Rounds env call c.mapDependers (env.startSelection call pcoinsTip c) s)
    (fScriptChecks : Bool) : ∃ k, Simulates env call pcoinsTip nValue fScriptChecks s k := by
  have hboth : (∃ skipped, Progress env pcoinsTip c
      (pool.sortedTxs.filter fun tx ↦ !call.isExcluded tx) s skipped) ∧
      ∃ k, Simulates env call pcoinsTip nValue fScriptChecks s k := by
    induction hrounds with
    | refl =>
        exact ⟨⟨[], .start hc⟩, _, rfl, agreeOn_setCoins, hcb.utxos_eq_none, rfl,
          Nat.add_comm _ _, rfl⟩
    | tail _ hround ih =>
        obtain ⟨⟨skipped, hprogress⟩, k, hsim⟩ := ih
        obtain ⟨skipped', hprogress', -⟩ := hprogress.round hc hready.pool.checked_filter hround
        refine ⟨⟨skipped', hprogress'⟩, hsim.round hready hcb (fun p hp ↦ ?_) hround⟩
        refine mem_sortedTxs_filter (hprogress.perm.mem_iff.mp ?_)
        rw [Selection.open]
        exact List.mem_append.mpr (Or.inr (List.mem_append.mpr (Or.inl (List.mem_map_of_mem hp))))
  exact hboth.2

/-- **`CreateNewBlock` does not throw.**  The loops end, and `ConnectBlock` accepts the block. -/
theorem createNewBlock_spec (hready : TemplateReady env call pcoinsTip pool) {rounds : Nat}
    (hrounds : pool.mapTx.keys.card < rounds)
    (hheader : env.checkBlockHeader call.header call.nHeight false = .ok ())
    (hgenesis : env.getBlockHash call.header ≠ env.hashGenesisBlock) :
    ∃ c s, env.collect call pool pcoinsTip = .ok c ∧
      env.selectTxs call c.mapDependers rounds (env.startSelection call pcoinsTip c) = .ok s ∧
      ∀ nValue, blockValue env.toBlockEnv call.fuel call.nHeight s.nFees
          call.pindexPrev.blockHash = .ok nValue →
        CoinbaseReady env call pcoinsTip pool nValue →
        env.createNewBlock call rounds pool pcoinsTip = .ok (env.fillBlock call s nValue) := by
  obtain ⟨c, s, skipped, hcollect, hc, hs, hrun, -, hprogress⟩ :=
    exists_selection call hready.pool hready.known hrounds
  refine ⟨c, s, hcollect, hs, fun nValue hvalue hcb ↦ ?_⟩
  have hselected := hprogress.selected hready.pool.consistent
  obtain ⟨k, hsim⟩ := exists_simulates hready hcb hc hrun
    (decide (env.totalBlocksEstimate ≤ call.nHeight))
  have hcheck := checkBlock_template hready hcb hheader
    ((WithinLimits.start env call pcoinsTip c).rounds hrun) hselected
  have hconnect : connectBlock env.toBlockEnv {} call.fuel (env.fillBlock call s nValue).block
      call.indexDummy pcoinsTip true = (call.indexDummy, .ok ⟨k.view, ⟨k.vtxundo⟩⟩) := by
    have hbest : ¬ pcoinsTip.hashBlock ≠ call.indexDummy.pprev.getD 0 := not_not.mpr hready.best
    have hnot : ¬ env.getBlockHash (env.fillBlock call s nValue).block.toCBlockHeader =
        env.hashGenesisBlock := hgenesis
    have hcheck' : checkBlock env.toBlockEnv (env.fillBlock call s nValue).block
        call.indexDummy.nHeight (!true) (!true) = .ok () := hcheck
    rw [connectBlock, hcheck']
    dsimp only
    rw [if_neg hbest, if_neg hnot,
      connectTransactions_template hready hcb hvalue hselected hsim]
    rfl
  rw [TemplateEnv.createNewBlock]
  refine bind_eq_ok.mpr ⟨c, hcollect, bind_eq_ok.mpr ⟨s, hs, bind_eq_ok.mpr ⟨nValue, hvalue, ?_⟩⟩⟩
  dsimp only
  rw [hconnect]
  rfl

end

theorem createNewBlock_templatePool :
    CoinbaseReady templateEnv templateCall templateCoins templatePool 1000 ∧
      ∃ c s, templateEnv.collect templateCall templatePool templateCoins = .ok c ∧
        templateEnv.selectTxs templateCall c.mapDependers 3
          (templateEnv.startSelection templateCall templateCoins c) = .ok s ∧
        ∀ nValue, blockValue templateEnv.toBlockEnv templateCall.fuel templateCall.nHeight s.nFees
            templateCall.pindexPrev.blockHash = .ok nValue →
          CoinbaseReady templateEnv templateCall templateCoins templatePool nValue →
          templateEnv.createNewBlock templateCall 3 templatePool templateCoins =
            .ok (templateEnv.fillBlock templateCall s nValue) := by
  refine ⟨⟨by decide, by decide, by decide, by decide, ?_⟩,
    createNewBlock_spec ⟨templatePoolReady, rfl, ⟨9, rfl⟩, rfl, rfl, fun _ ↦ rfl⟩
      (by decide) rfl (by decide)⟩
  rw [templatePool_inv.2]
  rintro tx (rfl | rfl)
  · decide
  · decide

end Fedoracoin
