import Fedoracoin.AcceptBlock
import Fedoracoin.CheckQueue
import Fedoracoin.Conservation

/-!
# Script checks with and without threads

`ConnectBlock` hands the script checks of a block to the queue when there are threads for them, and
asks for the verdict at the end; without threads it makes each check when it comes to it.  A block
with a script that fails is turned down in both cases, but with threads it may break another rule
first (`Settles`).
-/

namespace Fedoracoin

open CCoinsView

/-! ## What cannot fail -/

section

variable {tx : CTransaction} {view : CCoinsView} {nHeight : Int} {txhash : Uint256}

theorem exists_valueOut (h : checkTransaction tx = .ok ()) : ∃ v, tx.valueOut = .ok v := by
  simp only [checkTransaction, bind_eq_ok] at h
  obtain ⟨_, _, v, hrun, _⟩ := h
  exact ⟨v, CTransaction.valueOut_eq_ok.mpr (CTransaction.checkOutputsTally_guarded.run_of_guarded
    CTransaction.valueOutTally_guarded rfl (fun _ ↦ rfl) hrun)⟩

theorem exists_getValueIn (h : view.haveInputs tx = true) : ∃ v, view.getValueIn tx = .ok v := by
  rw [getValueIn]
  cases hcb : tx.isCoinBase with
  | true => exact ⟨0, rfl⟩
  | false =>
      rw [if_neg Bool.false_ne_true]
      have hin := (haveInputs_iff hcb).mp h
      generalize (0 : Int64) = acc
      generalize tx.vin = vin at hin
      induction vin generalizing acc with
      | nil => exact ⟨acc, rfl⟩
      | cons txin vin ih =>
          obtain ⟨txout, hout⟩ := hin txin List.mem_cons_self
          obtain ⟨v, hv⟩ := ih (acc + view.inputValue txin)
            fun txin' hmem ↦ hin txin' (List.mem_cons_of_mem _ hmem)
          refine ⟨v, view.valueInTally.run_cons_eq_ok.mpr ⟨?_, rfl, hv⟩⟩
          exact bind_eq_ok.mpr ⟨txout, getOutputFor_eq_ok.mpr hout, rfl⟩

theorem exists_spendInput {txin : CTxIn} {txout : CTxOut}
    (h : view.output txin.prevout = some txout) :
    ∃ view' undo, view.spendInput txin = .ok (view', undo) := by
  rw [output, getCoins] at h
  rw [spendInput, access]
  cases hl : view.coins.lookup txin.prevout.hash with
  | none =>
      rw [hl] at h
      exact absurd h (by simp [CCoins.outputs])
  | some c =>
      rw [hl] at h
      obtain ⟨hget, hnull⟩ := SparseList.get_eq_some_iff.mp h
      have hspend : ∃ c' undo, c.spend txin.prevout.n = some (c', undo) := by
        rw [CCoins.spend, show c.vout[txin.prevout.n]? = some txout from hget]
        simp only [hnull, Bool.false_eq_true, if_false]
        split
        · exact ⟨_, _, rfl⟩
        · exact ⟨_, _, rfl⟩
      obtain ⟨c', undo, hspend⟩ := hspend
      refine ⟨view.setCoins txin.prevout.hash c', undo, bind_eq_ok.mpr ⟨c, rfl, ?_⟩⟩
      rw [hspend]

theorem exists_spendInputs {vin : List CTxIn} (hnodup : (vin.map (·.prevout)).Nodup)
    (h : ∀ txin ∈ vin, ∃ txout, view.output txin.prevout = some txout) :
    ∃ view' vprevout, view.spendInputs vin = .ok (view', vprevout) ∧
      view'.hashBlock = view.hashBlock := by
  induction vin generalizing view with
  | nil => exact ⟨view, [], rfl, rfl⟩
  | cons txin vin ih =>
      obtain ⟨hnot, hnodup⟩ := List.nodup_cons.mp hnodup
      obtain ⟨txout, hout⟩ := h txin List.mem_cons_self
      obtain ⟨view₁, undo, hstep⟩ := exists_spendInput hout
      have hhash : view₁.hashBlock = view.hashBlock := by
        obtain ⟨_, _, _, _, rfl⟩ := spendInput_eq_ok hstep
        rfl
      have hrest : ∀ txin' ∈ vin, ∃ txout, view₁.output txin'.prevout = some txout := by
        intro txin' hmem
        rw [(spendInput_output hstep).2, if_neg]
        · exact h txin' (List.mem_cons_of_mem _ hmem)
        · exact fun heq ↦ hnot (List.mem_map.mpr ⟨txin', hmem, heq⟩)
      obtain ⟨view', vprevout, hspend, hhash'⟩ := ih hnodup hrest
      exact ⟨view', undo :: vprevout,
        spendInputs_cons_eq_ok.mpr ⟨view₁, undo, vprevout, hstep, hspend, rfl⟩,
        hhash'.trans hhash⟩

theorem exists_updateCoins (htx : checkTransaction tx = .ok ()) (hin : view.haveInputs tx = true)
    (nHeight : Int) (txhash : Uint256) :
    ∃ view' txundo, view.updateCoins tx nHeight txhash = .ok (view', txundo) ∧
      view'.hashBlock = view.hashBlock := by
  rw [updateCoins]
  cases hcb : tx.isCoinBase with
  | true => exact ⟨_, _, rfl, rfl⟩
  | false =>
      obtain ⟨view', vprevout, hspend, hhash⟩ := exists_spendInputs
        (CTransaction.of_checkTransaction htx).2.2 ((haveInputs_iff hcb).mp hin)
      exact ⟨_, _, bind_eq_ok.mpr ⟨_, hspend, rfl⟩, hhash⟩

end

/-! ## The checks of a transaction -/

/-- With or without threads for the scripts. -/
def BlockEnv.withThreads (env : BlockEnv) (scriptCheckThreads : Bool) : BlockEnv :=
  { env with scriptCheckThreads := scriptCheckThreads }

/-- How a block is turned down without threads because of a script. -/
def scriptFailed : Failure := .dos 100 rejectNonstandard "non-canonical"

section

variable {verifyScript : CScriptCheck → Bool} {view : CCoinsView} {tx : CTransaction}
  {mapBlockIndex : Uint256 → Option Int} {fScriptChecks : Bool}

theorem forM_checkInputScript {checks : List CScriptCheck}
    (h : ∀ check ∈ checks, check.nFlags = scriptFlags) :
    checks.forM (checkInputScript verifyScript) =
      if checks.all verifyScript then .ok () else .error scriptFailed := by
  induction checks with
  | nil => rfl
  | cons check checks ih =>
      obtain ⟨hflags, hrest⟩ := List.forall_mem_cons.mp h
      change (checkInputScript verifyScript check >>= fun _ ↦
        checks.forM (checkInputScript verifyScript)) = _
      rw [ih hrest, List.all_cons, checkInputScript]
      cases verifyScript check with
      | true => rfl
      | false =>
          -- the flags of a block do not ask for strict encodings
          have hstrict : ¬ check.nFlags &&& scriptVerifyStrictenc ≠ 0 := by
            rw [hflags]
            decide
          rw [if_neg Bool.false_ne_true, if_neg hstrict]
          rfl

theorem nFlags_scriptChecks {flags : Nat} {check : CScriptCheck}
    (h : check ∈ view.scriptChecks tx flags) : check.nFlags = flags := by
  obtain ⟨p, -, rfl⟩ := List.mem_map.mp h
  rfl

/-- `CheckInputs` without threads. -/
theorem checkInputs_false :
    view.checkInputs mapBlockIndex verifyScript tx fScriptChecks scriptFlags false =
      view.checkInputs mapBlockIndex verifyScript tx fScriptChecks scriptFlags true >>= fun
        vChecks ↦ if vChecks.all verifyScript then .ok [] else .error scriptFailed := by
  rw [checkInputs, checkInputs]
  cases tx.isCoinBase with
  | true => rfl
  | false =>
      cases checkInputAmounts mapBlockIndex view tx with
      | error e => rfl
      | ok u =>
          cases fScriptChecks with
          | false => rfl
          | true =>
              simp only [Bool.false_eq_true, Bool.not_true, if_false, if_true]
              rw [forM_checkInputScript fun _ ↦ nFlags_scriptChecks]
              change _ = ite ((view.scriptChecks tx scriptFlags).all verifyScript = true) _ _
              split
              · rfl
              · rfl

/-- A block index that has the view's block, as it has whenever a script was checked. -/
theorem known_of_checkInputs {vChecks : List CScriptCheck} {queue : Bool}
    (hcb : tx.isCoinBase = false)
    (h : view.checkInputs mapBlockIndex verifyScript tx fScriptChecks scriptFlags queue =
      .ok vChecks) : ∃ nHeight, mapBlockIndex view.hashBlock = some nHeight := by
  have hamounts := checkInputs_eq_ok hcb h
  rw [checkInputAmounts, bind_eq_ok] at hamounts
  obtain ⟨_, _, hamounts⟩ := hamounts
  cases hknown : mapBlockIndex view.hashBlock with
  | none =>
      rw [hknown] at hamounts
      cases hamounts
  | some nHeight => exact ⟨nHeight, rfl⟩

end

/-! ## The transactions of a block -/

/-- How the loop over the transactions ends with threads, and how it ends without. -/
inductive Settles (verifyScript : CScriptCheck → Bool) :
    Except Failure ConnectState → Except Failure ConnectState → Prop
  | verified (s : ConnectState) (hall : s.queued.all verifyScript = true) :
      Settles verifyScript (.ok s) (.ok { s with queued := [] })
  /-- `Wait` will say so. -/
  | script (s : ConnectState) (hall : s.queued.all verifyScript = false) :
      Settles verifyScript (.ok s) (.error scriptFailed)
  | error (e : Failure) : Settles verifyScript (.error e) (.error e)
  /-- The script fails, and before `Wait` is asked another rule is broken. -/
  | other (e : Failure) (he : Violation e) : Settles verifyScript (.error e) (.error scriptFailed)

section

variable {env : BlockEnv} {nHeight : Int} {fScriptChecks : Bool} {s s' : ConnectState}
  {tx : CTransaction} {vtx : List CTransaction} {verifyScript : CScriptCheck → Bool}

theorem Settles.bind_same {α : Type} (x : Except Failure α) {f g : α → Except Failure ConnectState}
    (h : ∀ a, x = .ok a → Settles verifyScript (f a) (g a)) :
    Settles verifyScript (x >>= f) (x >>= g) := by
  cases x with
  | error e => exact .error e
  | ok a => exact h a rfl

/-- What follows and neither fails nor looks at the queue. -/
theorem Settles.bind {x y : Except Failure ConnectState}
    {f : ConnectState → Except Failure ConnectState} (h : Settles verifyScript x y)
    (hf : ∀ s, x = .ok s → ∃ s', f s = .ok s' ∧ s'.queued = s.queued ∧
      f { s with queued := [] } = .ok { s' with queued := [] }) :
    Settles verifyScript (x >>= f) (y >>= f) := by
  cases h with
  | verified s hall =>
      obtain ⟨s', hs', hqueued, hinline⟩ := hf s rfl
      change Settles verifyScript (f s) (f _)
      rw [hs', hinline]
      exact .verified s' (hqueued ▸ hall)
  | script s hall =>
      obtain ⟨s', hs', hqueued, -⟩ := hf s rfl
      change Settles verifyScript (f s) _
      rw [hs']
      exact .script s' (hqueued ▸ hall)
  | error e => exact .error e
  | other e he => exact .other e he

theorem settles_connectInputs (hall : s.queued.all env.verifyScript = true) :
    Settles env.verifyScript (connectInputs (env.withThreads true) fScriptChecks s tx)
      (connectInputs (env.withThreads false) fScriptChecks { s with queued := [] } tx) := by
  rw [connectInputs, connectInputs]
  refine .bind_same _ fun _ _ ↦ .bind_same _ fun _ _ ↦ .bind_same _ fun nValueIn _ ↦
    .bind_same _ fun nValueOut _ ↦ ?_
  simp only [BlockEnv.withThreads]
  rw [checkInputs_false]
  cases s.view.checkInputs env.mapBlockIndex env.verifyScript tx fScriptChecks scriptFlags true with
  | error e => exact .error e
  | ok vChecks =>
      have hqueued : (s.queued ++ vChecks).all env.verifyScript =
          vChecks.all env.verifyScript := by
        rw [List.all_append, hall, Bool.true_and]
      change Settles _ (.ok _) (ite (vChecks.all env.verifyScript = true) _ _ >>= _)
      cases hchecks : vChecks.all env.verifyScript with
      | true => exact .verified _ (hqueued.trans hchecks)
      | false => exact .script _ (hqueued.trans hchecks)

theorem connectInputs_eq_ok (h : connectInputs env fScriptChecks s tx = .ok s') :
    s.view.haveInputs tx = true ∧ s'.view = s.view ∧
      ∃ vChecks, s.view.checkInputs env.mapBlockIndex env.verifyScript tx fScriptChecks scriptFlags
        env.scriptCheckThreads = .ok vChecks ∧ s'.queued = s.queued ++ vChecks := by
  simp only [connectInputs, bind_eq_ok, failIf_eq_ok, Bool.not_eq_false'] at h
  obtain ⟨_, hin, _, _, nValueIn, _, nValueOut, _, vChecks, hchecks, hs'⟩ := h
  obtain rfl := Except.ok.inj hs'
  exact ⟨hin, rfl, vChecks, hchecks, rfl⟩

/-- The second half of the loop's body. -/
def finishTx (env : BlockEnv) (nHeight : Int) (tx : CTransaction) (s : ConnectState) :
    Except Failure ConnectState := do
  let (view, txundo) ← s.view.updateCoins tx nHeight (env.getTxHash tx)
  return { s with
    view := view
    vtxundo := if tx.isCoinBase then s.vtxundo else s.vtxundo ++ [txundo] }

/-- The first half. -/
def startTx (env : BlockEnv) (fScriptChecks : Bool) (s : ConnectState) (tx : CTransaction) :
    Except Failure ConnectState :=
  if tx.isCoinBase then .ok { s with nSigOps := s.nSigOps + env.getLegacySigOpCount tx }
  else connectInputs env fScriptChecks
    { s with nSigOps := s.nSigOps + env.getLegacySigOpCount tx } tx

theorem connectTx_eq :
    connectTx env nHeight fScriptChecks s tx =
      failIf (decide (maxBlockSigops < s.nSigOps + env.getLegacySigOpCount tx))
        (.dos 100 rejectInvalid "bad-blk-sigops") >>= fun _ ↦
          startTx env fScriptChecks s tx >>= finishTx env nHeight tx := by
  rw [connectTx, startTx]
  unfold finishTx
  cases tx.isCoinBase with
  | true => rfl
  | false => rfl

theorem startTx_eq_ok (h : startTx env fScriptChecks s tx = .ok s') :
    s'.view.haveInputs tx = true ∧ s'.view = s.view ∧
      ∃ vChecks, s'.queued = s.queued ++ vChecks ∧
        (vChecks ≠ [] → ∃ nHeight, env.mapBlockIndex s.view.hashBlock = some nHeight) := by
  rw [startTx] at h
  cases hcb : tx.isCoinBase with
  | true =>
      rw [hcb, if_pos rfl] at h
      obtain rfl := Except.ok.inj h
      refine ⟨?_, rfl, [], (List.append_nil _).symm, absurd rfl⟩
      rw [haveInputs, hcb, Bool.true_or]
  | false =>
      rw [hcb, if_neg Bool.false_ne_true] at h
      obtain ⟨hin, hview, vChecks, hchecks, hqueued⟩ := connectInputs_eq_ok h
      exact ⟨hview ▸ hin, hview, vChecks, hqueued, fun _ ↦ known_of_checkInputs hcb hchecks⟩

/-- What is left of a transaction whose inputs are there cannot fail. -/
theorem exists_finishTx (env : BlockEnv) (nHeight : Int) (htx : checkTransaction tx = .ok ())
    (hin : s.view.haveInputs tx = true) :
    ∃ s', finishTx env nHeight tx s = .ok s' ∧ s'.view.hashBlock = s.view.hashBlock ∧
      s'.queued = s.queued ∧
      finishTx env nHeight tx { s with queued := [] } = .ok { s' with queued := [] } := by
  obtain ⟨view', txundo, hupdate, hhash⟩ := exists_updateCoins htx hin nHeight (env.getTxHash tx)
  refine ⟨{ s with
    view := view'
    vtxundo := if tx.isCoinBase then s.vtxundo else s.vtxundo ++ [txundo] },
    bind_eq_ok.mpr ⟨_, hupdate, rfl⟩, hhash, rfl, bind_eq_ok.mpr ⟨_, hupdate, rfl⟩⟩

theorem settles_connectTx (nHeight : Int) (fScriptChecks : Bool)
    (htx : checkTransaction tx = .ok ())
    (hall : s.queued.all env.verifyScript = true) :
    Settles env.verifyScript (connectTx (env.withThreads true) nHeight fScriptChecks s tx)
      (connectTx (env.withThreads false) nHeight fScriptChecks { s with queued := [] } tx) := by
  rw [connectTx_eq, connectTx_eq]
  refine .bind_same _ fun _ _ ↦ Settles.bind (f := finishTx env nHeight tx) ?_ fun s₁ hs₁ ↦ ?_
  · rw [startTx, startTx]
    cases tx.isCoinBase with
    | true => exact .verified _ hall
    | false => exact settles_connectInputs hall
  · obtain ⟨s', hs', -, hqueued, hinline⟩ := exists_finishTx env nHeight htx (startTx_eq_ok hs₁).1
    exact ⟨s', hs', hqueued, hinline⟩

/-! ### After a script that fails -/

theorem violates_checkInputs {view : CCoinsView} (htx : checkTransaction tx = .ok ())
    (hin : view.haveInputs tx = true)
    (hknown : ∃ nHeight, env.mapBlockIndex view.hashBlock = some nHeight) :
    Violates (view.checkInputs env.mapBlockIndex verifyScript tx fScriptChecks scriptFlags
      true) := by
  obtain ⟨nHeight, hknown⟩ := hknown
  obtain ⟨nValueOut, hout⟩ := exists_valueOut htx
  have hamounts : Violates (checkInputAmounts env.mapBlockIndex view tx) := by
    rw [checkInputAmounts, hin, hknown, hout]
    refine Violates.bind (.ok ()) fun _ ↦ Violates.bind (.tally ?_ ?_ _ _) fun nValueIn ↦
      Violates.bind (.ok nValueOut) fun _ ↦
        Violates.bind (.failIf_dos (by decide) (by decide)) fun _ ↦
          Violates.bind (.failIf_dos (by decide) (by decide)) fun _ ↦
            .failIf_dos (by decide) (by decide)
    · exact fun txin ↦ .failIf_dos (by decide) (by decide)
    · exact fun txin total ↦ .failIf_dos (by decide) (by decide)
  rw [checkInputs]
  refine .ite (.ok []) (hamounts.bind fun _ ↦ .ite (.ok []) ?_)
  rw [if_pos rfl]
  exact .ok _

theorem violates_connectTx (htx : checkTransaction tx = .ok ())
    (hknown : ∃ nHeight, env.mapBlockIndex s.view.hashBlock = some nHeight) :
    Violates (connectTx (env.withThreads true) nHeight fScriptChecks s tx) := by
  rw [connectTx_eq]
  refine Violates.bind (.failIf_dos (by decide) (by decide)) fun _ ↦
    Violates.bind_of_ok ?_ fun s₁ hs₁ ↦ ?_
  · rw [startTx, connectInputs]
    refine .ite (.ok _) (Violates.bind_of_ok (.failIf_dos (by decide) (by decide)) fun _ hin ↦ ?_)
    rw [failIf_eq_ok, Bool.not_eq_false'] at hin
    obtain ⟨nValueIn, hvalue⟩ := exists_getValueIn hin
    obtain ⟨nValueOut, hout⟩ := exists_valueOut htx
    refine Violates.bind (.failIf_dos (by decide) (by decide)) fun _ ↦ ?_
    rw [hvalue, hout]
    exact Violates.bind (.ok nValueIn) fun _ ↦ Violates.bind (.ok nValueOut) fun _ ↦
      (violates_checkInputs htx hin hknown).bind fun _ ↦ .ok _
  · obtain ⟨s', hs', -⟩ := exists_finishTx env nHeight htx
      (startTx_eq_ok hs₁).1
    exact hs'.symm ▸ Violates.ok s'

theorem connectTx_grows (htx : checkTransaction tx = .ok ())
    (h : connectTx env nHeight fScriptChecks s tx = .ok s') :
    s'.view.hashBlock = s.view.hashBlock ∧
      ∃ vChecks, s'.queued = s.queued ++ vChecks ∧
        (vChecks ≠ [] → ∃ nHeight, env.mapBlockIndex s.view.hashBlock = some nHeight) := by
  rw [connectTx_eq, bind_eq_ok] at h
  obtain ⟨_, -, h⟩ := h
  obtain ⟨s₁, hs₁, h⟩ := bind_eq_ok.mp h
  obtain ⟨hin, hview, vChecks, hqueued, hknown⟩ := startTx_eq_ok hs₁
  obtain ⟨s₂, hs₂, hhash, hqueued₂, -⟩ := exists_finishTx env nHeight htx hin
  obtain rfl := Except.ok.inj (hs₂.symm.trans h)
  exact ⟨hhash.trans (congrArg _ hview), vChecks, hqueued₂.trans hqueued, hknown⟩

theorem violates_connectTxs (hvtx : ∀ tx ∈ vtx, checkTransaction tx = .ok ())
    (hknown : ∃ nHeight, env.mapBlockIndex s.view.hashBlock = some nHeight) :
    Violates (connectTxs (env.withThreads true) nHeight fScriptChecks s vtx) := by
  induction vtx generalizing s with
  | nil => exact .ok s
  | cons tx vtx ih =>
      obtain ⟨htx, hvtx⟩ := List.forall_mem_cons.mp hvtx
      refine (violates_connectTx htx hknown).bind_of_ok fun s₁ hs₁ ↦ ih hvtx ?_
      rw [(connectTx_grows htx hs₁).1]
      exact hknown

theorem connectTxs_grows (hvtx : ∀ tx ∈ vtx, checkTransaction tx = .ok ())
    (h : connectTxs env nHeight fScriptChecks s vtx = .ok s') :
    ∃ vChecks, s'.queued = s.queued ++ vChecks := by
  induction vtx generalizing s with
  | nil =>
      obtain rfl := Except.ok.inj h
      exact ⟨[], (List.append_nil _).symm⟩
  | cons tx vtx ih =>
      obtain ⟨htx, hvtx⟩ := List.forall_mem_cons.mp hvtx
      obtain ⟨s₁, hs₁, hrest⟩ := bind_eq_ok.mp h
      obtain ⟨-, vChecks, hqueued, -⟩ := connectTx_grows htx hs₁
      obtain ⟨vChecks', hqueued'⟩ := ih hvtx hrest
      exact ⟨vChecks ++ vChecks', by rw [hqueued', hqueued, List.append_assoc]⟩

theorem settles_connectTxs (env : BlockEnv) (nHeight : Int) (fScriptChecks : Bool)
    (hvtx : ∀ tx ∈ vtx, checkTransaction tx = .ok ())
    (hall : s.queued.all env.verifyScript = true) :
    Settles env.verifyScript (connectTxs (env.withThreads true) nHeight fScriptChecks s vtx)
      (connectTxs (env.withThreads false) nHeight fScriptChecks { s with queued := [] } vtx) := by
  induction vtx generalizing s with
  | nil => exact .verified s hall
  | cons tx vtx ih =>
      obtain ⟨htx, hvtx⟩ := List.forall_mem_cons.mp hvtx
      have hstep := settles_connectTx nHeight fScriptChecks htx hall
      rw [connectTxs, connectTxs]
      generalize hx : connectTx (env.withThreads true) nHeight fScriptChecks s tx = x at hstep
      generalize connectTx (env.withThreads false) nHeight fScriptChecks _ tx = y at hstep
      cases hstep with
      | verified s₁ hall₁ => exact ih hvtx hall₁
      | script s₁ hall₁ =>
          -- the script that fails is checked with the view's block in the index
          obtain ⟨hhash, vChecks, hqueued, hknown⟩ := connectTx_grows htx hx
          have hne : vChecks ≠ [] := by
            rintro rfl
            rw [hqueued, List.append_nil, hall] at hall₁
            cases hall₁
          have hknown := hhash.symm ▸ hknown hne
          change Settles _ (connectTxs (env.withThreads true) nHeight fScriptChecks s₁ vtx) _
          cases hrest : connectTxs (env.withThreads true) nHeight fScriptChecks s₁ vtx with
          | error e => exact .other e (violates_connectTxs hvtx hknown e hrest)
          | ok s₂ =>
              obtain ⟨vChecks, hqueued⟩ := connectTxs_grows hvtx hrest
              refine .script s₂ ?_
              rw [hqueued, List.all_append, hall₁, Bool.false_and]
      | error e => exact .error e
      | other e he => exact .other e he

end

/-! ## The block -/

/-- What `ConnectBlock` says with threads, and what it says without. -/
inductive SameVerdict {α : Type} : Except Failure α → Except Failure α → Prop
  | same (r : Except Failure α) : SameVerdict r r
  /-- A script fails.  With threads the block is turned down as well, unless `GetBlockValue`, which
  comes before `Wait`, does not return. -/
  | script (e : Failure) (he : e.violates = true ∨ e = .diverges) :
      SameVerdict (.error e) (.error scriptFailed)

section

variable {env : BlockEnv} {io : UndoIO} {fuel : Nat} {block : CBlock} {pindex : ConnectIndex}
  {view : CCoinsView}

theorem error_blockValue {nHeight : Int} {nFees : Int64} {prevHash : Uint256} {e : Failure}
    (h : blockValue env fuel nHeight nFees prevHash = .error e) : e = .diverges := by
  rw [blockValue] at h
  split at h
  · cases h
  · exact (Except.error.inj h).symm

/-- The limit on the coinbase, which comes after the loop over the transactions. -/
def checkCoinbaseValue (env : BlockEnv) (fuel : Nat) (coinbase : CTransaction)
    (pindex : ConnectIndex) (nFees : Int64) : Except Failure Unit := do
  let nValueOut ← coinbase.valueOut
  let limit ← blockValue env fuel pindex.nHeight nFees (pindex.pprev.getD 0)
  failIf (decide (limit < nValueOut.toUInt64)) (.dos 100 rejectInvalid "bad-cb-amount")

/-- The end of `connectTransactions`. -/
def finishTxs (env : BlockEnv) (fuel : Nat) (coinbase : CTransaction) (pindex : ConnectIndex)
    (s : ConnectState) : Except Failure ConnectState := do
  checkCoinbaseValue env fuel coinbase pindex s.nFees
  failIf (!(s.queued.all env.verifyScript)) (.dos 100)
  return s

theorem connectTransactions_eq {coinbase : CTransaction} {vtx : List CTransaction}
    (h : block.vtx = coinbase :: vtx) :
    connectTransactions env fuel block pindex view =
      failIf (block.vtx.any fun tx ↦
          view.haveCoins (env.getTxHash tx) && !(view.getCoins (env.getTxHash tx)).isPruned)
        (.dos 100 rejectInvalid "bad-txns-BIP30") >>= fun _ ↦
          connectTxs env pindex.nHeight (decide (env.totalBlocksEstimate ≤ pindex.nHeight))
            { view := view } block.vtx >>= finishTxs env fuel coinbase pindex := by
  rw [connectTransactions, h]
  unfold finishTxs
  simp only [checkCoinbaseValue, bind_assoc]

theorem error_checkCoinbaseValue {coinbase : CTransaction} {nFees : Int64} {e : Failure}
    (hcoinbase : checkTransaction coinbase = .ok ())
    (h : checkCoinbaseValue env fuel coinbase pindex nFees = .error e) :
    e.violates = true ∨ e = .diverges := by
  obtain ⟨nValueOut, hout⟩ := exists_valueOut hcoinbase
  rw [checkCoinbaseValue, hout] at h
  change blockValue env fuel pindex.nHeight nFees (pindex.pprev.getD 0) >>= _ = _ at h
  cases hvalue : blockValue env fuel pindex.nHeight nFees (pindex.pprev.getD 0) with
  | error e' =>
      rw [hvalue] at h
      obtain rfl := Except.error.inj h
      exact .inr (error_blockValue hvalue)
  | ok limit =>
      rw [hvalue] at h
      exact .inl (Violates.failIf_dos (by decide) (by decide) e h).violates

/-- With all scripts good, `Wait` makes no difference. -/
theorem finishTxs_of_all {coinbase : CTransaction} {s : ConnectState}
    (hall : s.queued.all env.verifyScript = true) :
    finishTxs env fuel coinbase pindex s =
      checkCoinbaseValue env fuel coinbase pindex s.nFees >>= fun _ ↦ .ok s := by
  rw [finishTxs, hall]
  rfl

/-- With a script that fails, a block is turned down at the end if it was not before. -/
theorem finishTxs_of_not_all (env : BlockEnv) (fuel : Nat) (pindex : ConnectIndex)
    {coinbase : CTransaction} {s : ConnectState}
    (hcoinbase : checkTransaction coinbase = .ok ())
    (hall : s.queued.all env.verifyScript = false) :
    ∃ e, finishTxs env fuel coinbase pindex s = .error e ∧
      (e.violates = true ∨ e = .diverges) := by
  rw [finishTxs, hall]
  cases hvalue : checkCoinbaseValue env fuel coinbase pindex s.nFees with
  | error e => exact ⟨e, rfl, error_checkCoinbaseValue hcoinbase hvalue⟩
  | ok u => exact ⟨.dos 100, rfl, .inl rfl⟩

/-- From the end of the loop over the transactions on. -/
theorem verdict_of_settles (fuel : Nat) (pindex : ConnectIndex) {coinbase : CTransaction}
    {x y : Except Failure ConnectState}
    (hcoinbase : checkTransaction coinbase = .ok ()) (h : Settles env.verifyScript x y) :
    (∃ s, x >>= finishTxs (env.withThreads true) fuel coinbase pindex = .ok s ∧
        y >>= finishTxs (env.withThreads false) fuel coinbase pindex =
          .ok { s with queued := [] }) ∨
      ∃ e e', x >>= finishTxs (env.withThreads true) fuel coinbase pindex = .error e ∧
        y >>= finishTxs (env.withThreads false) fuel coinbase pindex = .error e' ∧
        SameVerdict (.error e : Except Failure Connected) (.error e') := by
  cases h with
  | verified s hall =>
      have hqueue : finishTxs (env.withThreads true) fuel coinbase pindex s =
          checkCoinbaseValue env fuel coinbase pindex s.nFees >>= fun _ ↦ .ok s :=
        finishTxs_of_all hall
      have hinline : finishTxs (env.withThreads false) fuel coinbase pindex
          { s with queued := [] } =
            checkCoinbaseValue env fuel coinbase pindex s.nFees >>= fun _ ↦
              .ok { s with queued := [] } :=
        finishTxs_of_all rfl
      change (∃ s', finishTxs _ _ _ _ _ = _ ∧ finishTxs _ _ _ _ _ = _) ∨
        ∃ e e', finishTxs _ _ _ _ _ = _ ∧ finishTxs _ _ _ _ _ = _ ∧ _
      rw [hqueue, hinline]
      cases checkCoinbaseValue env fuel coinbase pindex s.nFees with
      | error e => exact .inr ⟨e, e, rfl, rfl, .same _⟩
      | ok u => exact .inl ⟨s, rfl, rfl⟩
  | script s hall =>
      obtain ⟨e, he, hviolates⟩ := finishTxs_of_not_all (env.withThreads true) fuel pindex
        hcoinbase hall
      exact .inr ⟨e, scriptFailed, he, rfl, .script e hviolates⟩
  | error e => exact .inr ⟨e, e, rfl, rfl, .same _⟩
  | other e he => exact .inr ⟨e, scriptFailed, rfl, rfl, .script e (.inl he.violates)⟩

/-- The loop over the transactions with what is before and after it. -/
theorem verdict_connectTransactions (env : BlockEnv) (fuel : Nat) (pindex : ConnectIndex)
    (view : CCoinsView) (hvtx : ∀ tx ∈ block.vtx, checkTransaction tx = .ok ())
    (hne : block.vtx ≠ []) :
    (∃ s, connectTransactions (env.withThreads true) fuel block pindex view = .ok s ∧
        connectTransactions (env.withThreads false) fuel block pindex view =
          .ok { s with queued := [] }) ∨
      ∃ e e', connectTransactions (env.withThreads true) fuel block pindex view = .error e ∧
        connectTransactions (env.withThreads false) fuel block pindex view = .error e' ∧
        SameVerdict (.error e : Except Failure Connected) (.error e') := by
  obtain ⟨coinbase, vtx, hblock⟩ := List.exists_cons_of_ne_nil hne
  have hcoinbase : checkTransaction coinbase = .ok () :=
    hvtx coinbase (hblock ▸ List.mem_cons_self)
  rw [connectTransactions_eq hblock, connectTransactions_eq hblock]
  cases hbip : failIf (block.vtx.any fun tx ↦
      view.haveCoins (env.getTxHash tx) && !(view.getCoins (env.getTxHash tx)).isPruned)
      (.dos 100 rejectInvalid "bad-txns-BIP30") with
  | error e =>
      simp only [BlockEnv.withThreads, hbip]
      exact .inr ⟨e, e, rfl, rfl, .same _⟩
  | ok u =>
      have hloop := settles_connectTxs env pindex.nHeight
        (decide (env.totalBlocksEstimate ≤ pindex.nHeight)) (s := { view := view }) hvtx rfl
      have hverdict := verdict_of_settles fuel pindex hcoinbase hloop
      simp only [BlockEnv.withThreads, hbip] at hverdict ⊢
      exact hverdict

end

/-- `ConnectBlock` with threads and without. -/
theorem connectBlock_withThreads (env : BlockEnv) (io : UndoIO) (fuel : Nat) (block : CBlock)
    (pindex : ConnectIndex) (view : CCoinsView) (fJustCheck : Bool) :
    (connectBlock (env.withThreads true) io fuel block pindex view fJustCheck).1 =
        (connectBlock (env.withThreads false) io fuel block pindex view fJustCheck).1 ∧
      SameVerdict (connectBlock (env.withThreads true) io fuel block pindex view fJustCheck).2
        (connectBlock (env.withThreads false) io fuel block pindex view fJustCheck).2 := by
  have hcheck : checkBlock (env.withThreads true) block pindex.nHeight (!fJustCheck) (!fJustCheck) =
      checkBlock (env.withThreads false) block pindex.nHeight (!fJustCheck) (!fJustCheck) := rfl
  rw [connectBlock, connectBlock, hcheck]
  cases hresult : checkBlock (env.withThreads false) block pindex.nHeight (!fJustCheck)
      (!fJustCheck) with
  | error e => exact ⟨rfl, .same _⟩
  | ok u =>
      have hvtx : ∀ tx ∈ block.vtx, checkTransaction tx = .ok () := by
        simp only [checkBlock, bind_eq_ok] at hresult
        obtain ⟨_, _, _, _, _, _, _, _, _, htxs, _⟩ := hresult
        exact forM_eq_ok htxs
      have hne : block.vtx ≠ [] := by
        obtain ⟨coinbase, vtx, hblock, -⟩ := (checkBlock_shape hresult).coinbase
        rw [hblock]
        exact List.cons_ne_nil coinbase vtx
      have htxs := verdict_connectTransactions env fuel pindex view hvtx hne
      simp only [BlockEnv.withThreads] at htxs ⊢
      split_ifs with hbest hgenesis hjust
      · exact ⟨rfl, .same _⟩
      · exact ⟨rfl, .same _⟩
      · obtain ⟨s, hqueue, hinline⟩ | ⟨e, e', hqueue, hinline, hsame⟩ := htxs
        · rw [hqueue, hinline]
          exact ⟨rfl, .same _⟩
        · rw [hqueue, hinline]
          exact ⟨rfl, hsame⟩
      · obtain ⟨s, hqueue, hinline⟩ | ⟨e, e', hqueue, hinline, hsame⟩ := htxs
        · rw [hqueue, hinline]
          exact ⟨rfl, .same _⟩
        · rw [hqueue, hinline]
          exact ⟨rfl, hsame⟩

/-- **Checks in parallel.**  For any number of workers, any batch size and any order of the steps,
`Wait` returns what the checks say, made one after the other, and leaves the queue as it found it;
no other answer is possible, and so a block is judged as it is without threads. -/
theorem checkQueue_verdict :
    (∀ (T : Type) (eval : T → Bool) (nBatchSize nWorkers : Nat)
      (l : List (Choice T × Option Bool)) (s : QueueSystem T),
        Run (QueueSystem.Step eval) (.start nBatchSize nWorkers) l s → s.Sound eval) ∧
      (∀ (env : BlockEnv) (checks : List CScriptCheck) (fRet : Bool),
        QueueSystem.Answers env.verifyScript checks fRet ↔ fRet = checks.all env.verifyScript) ∧
      ∀ (env : BlockEnv) (io : UndoIO) (fuel : Nat) (block : CBlock) (pindex : ConnectIndex)
        (view : CCoinsView) (fJustCheck : Bool),
        (connectBlock (env.withThreads true) io fuel block pindex view fJustCheck).1 =
            (connectBlock (env.withThreads false) io fuel block pindex view fJustCheck).1 ∧
          SameVerdict (connectBlock (env.withThreads true) io fuel block pindex view fJustCheck).2
            (connectBlock (env.withThreads false) io fuel block pindex view fJustCheck).2 :=
  ⟨fun _ _ _ _ _ _ h ↦ .of_run h, fun _ _ _ ↦ QueueSystem.answers_iff, connectBlock_withThreads⟩

/-- A worker and the master share two checks, one of which fails. -/
theorem checkQueue_verdict_sample :
    ∃ l s s', Run (QueueSystem.Step id) (.start 2 1) l s ∧ s.added = [true, false] ∧
      s.step id .master = some (s', some false) := by
  have hrun : Run (QueueSystem.Step id) (.start 2 1)
      [(.construct, none), (.add [true, false], none), (.worker 0, none)] _ :=
    .cons rfl (.cons rfl (.cons rfl (.nil _)))
  obtain ⟨l, s, s', fRet, hrest, hadded, hret⟩ :=
    (checkQueue_verdict.1 Bool id 2 1 _ _ hrun).returns nofun
  have hall := hrun.append hrest
  obtain ⟨rfl, -⟩ := (checkQueue_verdict.1 Bool id 2 1 _ _ hall).ret _ _ _ hret
  refine ⟨_, s, s', hall, hadded, ?_⟩
  rw [hret, hadded]
  rfl

end Fedoracoin
