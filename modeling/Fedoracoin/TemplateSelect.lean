import Fedoracoin.TemplateCollect

/-!
# The loop over the queue

One round of the loop of `CreateNewBlock` takes a transaction off the queue, and the transaction is
passed over or joins the block (`Round`).  Each transaction is taken off at most once, and not
before all those of the pool that it spends from are in the block; so the loop ends, and no freed
entry is read (`selectTxs_spec`).
-/

namespace Fedoracoin

open CCoinsView

variable {D : Type}

/-! ## What a round does -/

/-- What is checked of a transaction that joins the block. -/
structure Fits (env : TemplateEnv D) (call : TemplateCall) (s : Selection D) (tx : CTransaction)
    (nTxFees : Int64) (nTxSigOps : Nat) : Prop where
  size : s.nBlockSize + tx.getSerializeSize < call.nBlockMaxSize
  sigOps : s.nBlockSigOps + nTxSigOps < maxBlockSigops
  count : nTxSigOps = env.getLegacySigOpCount tx + env.getP2SHSigOpCount tx s.view
  inputs : s.view.haveInputs tx = true
  fees : ∃ nValueIn nValueOut, s.view.getValueIn tx = .ok nValueIn ∧
    tx.valueOut = .ok nValueOut ∧ nTxFees = nValueIn - nValueOut
  checks : ∃ vChecks, s.view.checkInputs env.mapBlockIndex env.verifyScript tx true
    scriptVerifyP2sh false = .ok vChecks

/-- The queue after its front was taken off; its order is `b` from now on. -/
structure QueueLeft (env : TemplateEnv D) (s : Selection D) (p : TxPriority D) (b : Bool)
    (q : List (TxPriority D)) : Prop where
  front : ∃ rest, s.vecPriority = p :: rest ∧ q.Perm rest
  heap : (∀ b, StrictWeak (env.comparer b)) →
    env.heap.IsHeap (env.comparer s.fSortedByFee) s.vecPriority →
    env.heap.IsHeap (env.comparer b) q

/-- The state in which those that depend on the transaction are looked at. -/
def Selection.joined (s : Selection D) (tx : CTransaction) (nTxFees : Int64) (nTxSigOps : Nat)
    (view : CCoinsView) (b : Bool) (q : List (TxPriority D)) : Selection D where
  view := view
  vOrphan := s.vOrphan
  vecPriority := q
  vtx := s.vtx ++ [tx]
  vTxFees := s.vTxFees ++ [nTxFees]
  vTxSigOps := s.vTxSigOps ++ [nTxSigOps]
  nBlockSize := s.nBlockSize + tx.getSerializeSize
  nBlockSigOps := s.nBlockSigOps + nTxSigOps
  nFees := s.nFees + nTxFees
  fSortedByFee := b

/-- A round of the loop. -/
inductive Round (env : TemplateEnv D) (call : TemplateCall) (mapDependers : Uint256 → List Nat)
    (s : Selection D) : Selection D → Prop
  | skip {p : TxPriority D} {b : Bool} {q : List (TxPriority D)} (hqueue : QueueLeft env s p b q) :
      Round env call mapDependers s { s with fSortedByFee := b, vecPriority := q }
  | add {s' : Selection D} {p : TxPriority D} {b : Bool} {q : List (TxPriority D)}
      {nTxFees : Int64} {nTxSigOps : Nat} {view : CCoinsView} {txundo : CTxUndo}
      (hqueue : QueueLeft env s p b q) (hfits : Fits env call s p.ptx nTxFees nTxSigOps)
      (hupdate : s.view.updateCoins p.ptx call.nHeight (env.getTxHash p.ptx) = .ok (view, txundo))
      (hrelease : (mapDependers (env.getTxHash p.ptx)).foldlM
        (env.releaseOrphan (env.getTxHash p.ptx))
        (s.joined p.ptx nTxFees nTxSigOps view b q) = .ok s') :
      Round env call mapDependers s s'

section

variable {env : TemplateEnv D} {call : TemplateCall} {mapDependers : Uint256 → List Nat}
  {s s' : Selection D} {p : TxPriority D} {rest : List (TxPriority D)}

theorem tryTx_eq_ok {b : Bool} {q : List (TxPriority D)}
    (hsize : s.nBlockSize + p.ptx.getSerializeSize < call.nBlockMaxSize)
    (hqueue : QueueLeft env s p b q)
    (h : env.tryTx call mapDependers p.ptx { s with fSortedByFee := b, vecPriority := q } =
      .ok s') : Round env call mapDependers s s' := by
  rw [TemplateEnv.tryTx] at h
  cases hin : s.view.haveInputs p.ptx with
  | false =>
      rw [hin] at h
      obtain rfl := Except.ok.inj h
      exact .skip hqueue
  | true =>
      rw [hin, if_neg (by decide)] at h
      obtain ⟨nValueIn, hvalue, h⟩ := bind_eq_ok.mp h
      obtain ⟨nValueOut, hout, h⟩ := bind_eq_ok.mp h
      dsimp only at h
      split at h
      · obtain rfl := Except.ok.inj h
        exact .skip hqueue
      · next hsigOps =>
        cases hchecks : s.view.checkInputs env.mapBlockIndex env.verifyScript p.ptx true
            scriptVerifyP2sh false with
        | error e =>
            rw [hchecks] at h
            dsimp only at h
            split at h
            · obtain rfl := Except.ok.inj h
              exact .skip hqueue
            · cases h
        | ok vChecks =>
            rw [hchecks] at h
            obtain ⟨⟨view, txundo⟩, hupdate, h⟩ := bind_eq_ok.mp h
            exact .add hqueue ⟨hsize, not_le.mp hsigOps, rfl, hin,
              ⟨nValueIn, nValueOut, hvalue, hout, rfl⟩, vChecks, hchecks⟩ hupdate h

/-- What there is of a queue once the front was taken off. -/
theorem queueLeft_popHeap (env : TemplateEnv D) (hfront : s.vecPriority = p :: rest) :
    QueueLeft env s p s.fSortedByFee
    (env.heap.popHeap (env.comparer s.fSortedByFee) s.vecPriority) := by
  refine ⟨⟨rest, hfront, ?_⟩, fun hlt hheap ↦ ?_⟩
  · rw [hfront]
    exact env.heap.popHeap_perm _ _ _
  · rw [hfront] at hheap ⊢
    exact env.heap.isHeap_popHeap _ _ _ (hlt _) hheap

theorem QueueLeft.makeHeap {b : Bool} {q : List (TxPriority D)} (h : QueueLeft env s p b q) :
    QueueLeft env s p true (env.heap.makeHeap (env.comparer true) q) := by
  obtain ⟨rest, hrest, hperm⟩ := h.front
  exact ⟨⟨rest, hrest, (env.heap.makeHeap_perm _ _).trans hperm⟩,
    fun hlt _ ↦ env.heap.isHeap_makeHeap _ _ (hlt _)⟩

/-- **What the loop body does.** -/
theorem takeTx_eq_ok (hfront : s.vecPriority = p :: rest)
    (h : env.takeTx call mapDependers p s = .ok s') : Round env call mapDependers s s' := by
  have hqueue := queueLeft_popHeap env hfront
  rw [TemplateEnv.takeTx, TemplateEnv.considerTx] at h
  dsimp only at h
  split at h
  · obtain rfl := Except.ok.inj h
    exact .skip hqueue
  · next hsize =>
    split at h
    · obtain rfl := Except.ok.inj h
      exact .skip hqueue
    · split at h
      · obtain rfl := Except.ok.inj h
        exact .skip hqueue
      · split at h
        · exact tryTx_eq_ok (not_le.mp hsize) hqueue.makeHeap h
        · exact tryTx_eq_ok (not_le.mp hsize) hqueue h

end

/-! ## Letting go of what depends on a transaction -/

/-- What an entry waits for once `done` are in the block. -/
def COrphan.settle (done : Finset Uint256) (o : COrphan D) : COrphan D :=
  { o with setDependsOn := o.setDependsOn \ done }

/-- What is queued or waits. -/
def Selection.open (s : Selection D) : List CTransaction :=
  s.vecPriority.map (·.ptx) ++ waitingTxs s.vOrphan

section

variable {env : TemplateEnv D} {call : TemplateCall} {s s' : Selection D} {hash : Uint256} {i : Nat}
  {o : COrphan D} {l : List (Option (COrphan D))} {done : Finset Uint256}

theorem waitingTxs_set (h : l[i]? = some (some o)) (hne : o.setDependsOn ≠ ∅) (o' : COrphan D)
    (hptx : o'.ptx = o.ptx) :
    (waitingTxs l).Perm
      (if o'.setDependsOn = ∅ then o.ptx :: waitingTxs (l.set i (some o'))
        else waitingTxs (l.set i (some o'))) := by
  obtain ⟨hi, hget⟩ := List.getElem?_eq_some_iff.mp h
  obtain ⟨l₁, l₂, hl, -, hset⟩ : ∃ l₁ l₂, l = l₁ ++ l[i] :: l₂ ∧ l₁.length = i ∧
      l.set i (some o') = l₁ ++ some o' :: l₂ := List.exists_of_set hi
  rw [hset]
  rw [hget] at hl
  rw [hl]
  simp only [waitingTxs, List.filterMap_append, List.filterMap_cons, Option.bind_some, if_neg hne,
    hptx]
  split
  · exact List.perm_middle
  · exact .refl _

/-- What is left as it is, and what is let go, when `hash` has joined the block. -/
structure Released (env : TemplateEnv D) (hash : Uint256) (s s' : Selection D) : Prop where
  same : s' = { s with vOrphan := s'.vOrphan, vecPriority := s'.vecPriority }
  perm : s'.open.Perm s.open
  pushed : ∀ p ∈ s'.vecPriority, p ∈ s.vecPriority ∨
    ∃ (i : Nat) (o : COrphan D), s.vOrphan[i]? = some (some o) ∧ p.ptx = o.ptx ∧
      o.setDependsOn ⊆ {hash}
  settled : ∀ (i : Nat) (o' : COrphan D), s'.vOrphan[i]? = some (some o') →
    ∃ o, s.vOrphan[i]? = some (some o) ∧ o'.ptx = o.ptx ∧
      o.setDependsOn ⊆ o'.setDependsOn ∪ {hash}
  heap : (∀ b, StrictWeak (env.comparer b)) →
    env.heap.IsHeap (env.comparer s.fSortedByFee) s.vecPriority →
    env.heap.IsHeap (env.comparer s.fSortedByFee) s'.vecPriority

theorem Released.refl (env : TemplateEnv D) (hash : Uint256) (s : Selection D) :
    Released env hash s s :=
  ⟨rfl, .refl _, fun _ hp ↦ Or.inl hp, fun _ o ho ↦ ⟨o, ho, rfl, Finset.subset_union_left⟩,
    fun _ hheap ↦ hheap⟩

theorem Released.trans {s₁ : Selection D} (h : Released env hash s s₁)
    (h' : Released env hash s₁ s') : Released env hash s s' := by
  refine ⟨by rw [h'.same, h.same], h'.perm.trans h.perm, fun p hp ↦ ?_, fun i o' ho' ↦ ?_,
    fun hlt hheap ↦ ?_⟩
  · rcases h'.pushed p hp with hp | ⟨i, o', ho', hptx, hsub⟩
    · exact h.pushed p hp
    · obtain ⟨o, ho, hptx', hsub'⟩ := h.settled i o' ho'
      refine Or.inr ⟨i, o, ho, hptx.trans hptx', hsub'.trans ?_⟩
      exact Finset.union_subset hsub (Finset.Subset.refl _)
  · obtain ⟨o₁, ho₁, hptx₁, hsub₁⟩ := h'.settled i o' ho'
    obtain ⟨o, ho, hptx, hsub⟩ := h.settled i o₁ ho₁
    refine ⟨o, ho, hptx₁.trans hptx, hsub.trans ?_⟩
    exact Finset.union_subset hsub₁ Finset.subset_union_right
  · have hb : s₁.fSortedByFee = s.fSortedByFee := by rw [h.same]
    rw [← hb]
    exact h'.heap hlt (hb ▸ h.heap hlt hheap)

/-- One entry is looked at. -/
theorem releaseOrphan_spec (env : TemplateEnv D) (hash : Uint256)
    (h : s.vOrphan[i]? = some (some o)) :
    ∃ s', env.releaseOrphan hash s i = .ok s' ∧ Released env hash s s' ∧
      s'.vOrphan = s.vOrphan.set i (some (o.settle {hash})) := by
  rw [TemplateEnv.releaseOrphan, h]
  dsimp only
  by_cases hempty : o.setDependsOn = ∅
  · -- nothing is left to wait for
    rw [if_pos hempty]
    have hsettle : o.settle {hash} = o := by
      rw [COrphan.settle, hempty, Finset.empty_sdiff, ← hempty]
    obtain ⟨hi, hget⟩ := List.getElem?_eq_some_iff.mp h
    exact ⟨s, rfl, .refl env hash s, by rw [hsettle, ← hget, List.set_getElem_self]⟩
  · rw [if_neg hempty, ← Finset.sdiff_singleton_eq_erase]
    have hwait := waitingTxs_set h hempty (o.settle {hash}) rfl
    refine ⟨_, rfl, ⟨rfl, ?_, fun p hp ↦ ?_, fun j o' ho' ↦ ?_, fun hlt hheap ↦ ?_⟩, rfl⟩
    · rw [COrphan.settle] at hwait
      rw [Selection.open, Selection.open]
      dsimp only at hwait ⊢
      split at hwait
      · next hlast =>
        rw [if_pos hlast]
        have hpush := (env.heap.pushHeap_perm (env.comparer s.fSortedByFee) s.vecPriority
          ⟨o.dPriority, o.dFeePerKb, o.ptx⟩).map (·.ptx)
        exact (hpush.append_right _).trans
          (List.perm_middle.symm.trans (hwait.symm.append_left _))
      · next hlast =>
        rw [if_neg hlast]
        exact hwait.symm.append_left _
    · dsimp only at hp
      split at hp
      · next hlast =>
        rcases List.mem_cons.mp ((env.heap.pushHeap_perm _ _ _).mem_iff.mp hp) with rfl | hp
        · exact Or.inr ⟨i, o, h, rfl, Finset.sdiff_eq_empty_iff_subset.mp hlast⟩
        · exact Or.inl hp
      · exact Or.inl hp
    · change (s.vOrphan.set i _)[j]? = _ at ho'
      by_cases hj : i = j
      · obtain ⟨hi, -⟩ := List.getElem?_eq_some_iff.mp h
        rw [← hj, List.getElem?_set_self hi] at ho'
        obtain rfl := Option.some.inj (Option.some.inj ho')
        exact ⟨o, hj ▸ h, rfl, le_sdiff_sup⟩
      · rw [List.getElem?_set_ne hj] at ho'
        exact ⟨o', ho', rfl, Finset.subset_union_left⟩
    · dsimp only
      split
      · exact env.heap.isHeap_pushHeap _ _ _ (hlt _) hheap
      · exact hheap

theorem settle_settle (o : COrphan D) (s t : Finset Uint256) :
    (o.settle s).settle t = o.settle (s ∪ t) := by
  rw [COrphan.settle, COrphan.settle, COrphan.settle, sdiff_sdiff_left]
  rfl

theorem released_of_foldlM {is : List Nat}
    (h : is.foldlM (env.releaseOrphan hash) s = .ok s') : Released env hash s s' := by
  induction is generalizing s with
  | nil =>
      obtain rfl := Except.ok.inj h
      exact .refl env hash s
  | cons i is ih =>
      rw [List.foldlM_cons, bind_eq_ok] at h
      obtain ⟨s₁, hs₁, h⟩ := h
      have hlive : ∃ o, s.vOrphan[i]? = some (some o) := by
        rw [TemplateEnv.releaseOrphan] at hs₁
        split at hs₁
        · next o ho => exact ⟨o, ho⟩
        · cases hs₁
      obtain ⟨o, ho⟩ := hlive
      obtain ⟨s₂, hs₂, hreleased, -⟩ := releaseOrphan_spec env hash ho
      obtain rfl := Except.ok.inj (hs₂.symm.trans hs₁)
      exact hreleased.trans (ih h)

/-- All that depend on a transaction are looked at. -/
theorem releaseOrphans_spec (env : TemplateEnv D) (hash : Uint256) {is : List Nat}
    (h : ∀ i ∈ is, ∃ o, s.vOrphan[i]? = some (some o)) :
    ∃ s', is.foldlM (env.releaseOrphan hash) s = .ok s' ∧ Released env hash s s' ∧
      ∀ i : Nat, s'.vOrphan[i]? =
        if i ∈ is then (s.vOrphan[i]?).map (Option.map (COrphan.settle {hash}))
        else s.vOrphan[i]? := by
  induction is generalizing s with
  | nil => exact ⟨s, rfl, .refl env hash s, fun i ↦ by simp⟩
  | cons i is ih =>
      obtain ⟨⟨o, ho⟩, hrest⟩ := List.forall_mem_cons.mp h
      obtain ⟨s₁, hs₁, h₁, hset⟩ := releaseOrphan_spec env hash ho
      have hget : ∀ j : Nat, s₁.vOrphan[j]? =
          if j = i then some (some (o.settle {hash})) else s.vOrphan[j]? := by
        intro j
        rw [hset, List.getElem?_set]
        obtain ⟨hi, -⟩ := List.getElem?_eq_some_iff.mp ho
        by_cases hj : j = i
        · rw [if_pos hj.symm, if_pos hj, if_pos hi]
        · rw [if_neg (Ne.symm hj), if_neg hj]
      obtain ⟨s', hs', h', hall⟩ := ih (s := s₁) fun j hj ↦ by
        obtain ⟨o', ho'⟩ := hrest j hj
        rw [hget]
        split
        · exact ⟨_, rfl⟩
        · exact ⟨o', ho'⟩
      refine ⟨s', ?_, h₁.trans h', fun j ↦ ?_⟩
      · rw [List.foldlM_cons]
        exact bind_eq_ok.mpr ⟨s₁, hs₁, hs'⟩
      · rw [hall, hget]
        by_cases hj : j = i
        · rw [if_pos hj, if_pos (List.mem_cons.mpr (Or.inl hj)), hj, ho, Option.map_some,
            Option.map_some, Option.map_some, Option.map_some, settle_settle,
            Finset.union_idempotent]
          exact ite_self _
        · simp only [List.mem_cons, hj, false_or, if_false]

end

/-! ## A round does not fail -/

section

variable {env : TemplateEnv D} {call : TemplateCall} {mapDependers : Uint256 → List Nat}
  {s s' : Selection D} {p : TxPriority D} {rest : List (TxPriority D)} {tx : CTransaction}

theorem violates_checkInputScript (verifyScript : CScriptCheck → Bool) (check : CScriptCheck) :
    Violates (checkInputScript verifyScript check) := by
  have hcheck : Violates (.error (.dos 100 rejectNonstandard "non-canonical") :
      Except Failure Unit) := by
    rintro e he
    obtain rfl := Except.error.inj he
    exact ⟨100, rejectNonstandard, "non-canonical", false, rfl, by decide, by decide⟩
  rw [checkInputScript]
  refine .ite (.ok ()) ?_
  split
  · exact Violates.bind (.failIf_dos (by decide) (by decide)) fun _ ↦ hcheck
  · exact hcheck

/-- `CheckInputs` returns, on inputs that are there. -/
theorem returns_of_checkInputs {env : BlockEnv} {view : CCoinsView} {flags : Nat} {e : Failure}
    (htx : checkTransaction tx = .ok ()) (hin : view.haveInputs tx = true)
    (hknown : ∃ nHeight, env.mapBlockIndex view.hashBlock = some nHeight)
    (h : view.checkInputs env.mapBlockIndex env.verifyScript tx true flags false = .error e) :
    e.returns = true := by
  have hviolates : Violates
      (view.checkInputs env.mapBlockIndex env.verifyScript tx true flags false) := by
    rw [checkInputs]
    refine .ite (.ok []) (Violates.bind_of_ok ?_ fun _ _ ↦ ?_)
    · -- without scripts only the amounts are checked
      intro e he
      cases hcb : tx.isCoinBase with
      | true =>
          rw [checkInputs, hcb] at h
          cases h
      | false =>
          have hamounts : Violates (view.checkInputs env.mapBlockIndex env.verifyScript tx false
              scriptFlags true) := violates_checkInputs htx hin hknown
          refine hamounts e ?_
          rw [checkInputs, hcb, if_neg Bool.false_ne_true, he]
          rfl
    · exact Violates.bind (.forM _ (violates_checkInputScript _)) fun _ ↦ .ok []
  obtain ⟨level, chRejectCode, strRejectReason, corruption, rfl, -⟩ := hviolates e h
  rfl

theorem exists_addTx {nTxFees : Int64} {nTxSigOps : Nat} (htx : checkTransaction tx = .ok ())
    (hin : s.view.haveInputs tx = true)
    (hlive : ∀ i ∈ mapDependers (env.getTxHash tx), ∃ o, s.vOrphan[i]? = some (some o)) :
    ∃ s', env.addTx call mapDependers tx nTxFees nTxSigOps s = .ok s' := by
  obtain ⟨view, txundo, hupdate, -⟩ := exists_updateCoins htx hin call.nHeight (env.getTxHash tx)
  obtain ⟨s', hs', -⟩ := releaseOrphans_spec env (env.getTxHash tx)
    (s := s.joined tx nTxFees nTxSigOps view s.fSortedByFee s.vecPriority) hlive
  exact ⟨s', bind_eq_ok.mpr ⟨_, hupdate, hs'⟩⟩

/-- What `takeTx` relies on. -/
theorem exists_takeTx (call : TemplateCall) (htx : checkTransaction p.ptx = .ok ())
    (hknown : ∃ nHeight, env.mapBlockIndex s.view.hashBlock = some nHeight)
    (hlive : ∀ i ∈ mapDependers (env.getTxHash p.ptx), ∃ o, s.vOrphan[i]? = some (some o)) :
    ∃ s', env.takeTx call mapDependers p s = .ok s' := by
  have htry : ∀ (b : Bool) (q : List (TxPriority D)), ∃ s', env.tryTx call mapDependers p.ptx
      { s with fSortedByFee := b, vecPriority := q } = .ok s' := by
    intro b q
    rw [TemplateEnv.tryTx]
    cases hin : s.view.haveInputs p.ptx with
    | false => exact ⟨_, rfl⟩
    | true =>
        obtain ⟨nValueIn, hvalue⟩ := exists_getValueIn hin
        obtain ⟨nValueOut, hout⟩ := exists_valueOut htx
        dsimp only
        rw [if_neg (by decide), hvalue, hout]
        change ∃ s', ite _ _ _ = Except.ok s'
        split
        · exact ⟨_, rfl⟩
        · split
          · next e he => exact ⟨_, if_pos (returns_of_checkInputs htx hin hknown he)⟩
          · exact exists_addTx htx hin hlive
  rw [TemplateEnv.takeTx, TemplateEnv.considerTx]
  dsimp only
  split
  · exact ⟨_, rfl⟩
  · split
    · exact ⟨_, rfl⟩
    · split
      · exact ⟨_, rfl⟩
      · split
        · exact htry true _
        · exact htry s.fSortedByFee _

end

/-! ## The order of the transactions -/

/-- The ids of the transactions in the block. -/
def TemplateEnv.done (env : TemplateEnv D) (vtx : List CTransaction) : Finset Uint256 :=
  (vtx.map env.getTxHash).toFinset

/-- How far the loop has come with what was collected from `txs`; `skipped` are the transactions
that were passed over. -/
structure Progress (env : TemplateEnv D) (view : CCoinsView) (c : Collected D)
    (txs : List CTransaction) (s : Selection D) (skipped : List CTransaction) : Prop where
  pending : s.vOrphan = c.vOrphan.map (Option.map (COrphan.settle (env.done s.vtx)))
  perm : (s.vtx ++ skipped ++ s.open).Perm txs
  /-- What was taken off the queue, or is in it, has all that it spends from in the block. -/
  ready : ∀ tx ∈ skipped ++ s.vecPriority.map (·.ptx), missing view tx.vin ⊆ env.done s.vtx
  before : ∀ l₁ tx l₂, s.vtx = l₁ ++ tx :: l₂ → missing view tx.vin ⊆ env.done l₁
  hashBlock : s.view.hashBlock = view.hashBlock

section

variable {env : TemplateEnv D} {call : TemplateCall} {view : CCoinsView} {c : Collected D}
  {txs skipped : List CTransaction} {s s' : Selection D}

theorem Progress.start (h : c.From view txs) :
    Progress env view c txs (env.startSelection call view c) [] := by
  refine ⟨?_, ?_, ?_, fun l₁ tx l₂ h ↦ absurd h (by simp [TemplateEnv.startSelection]), rfl⟩
  · have hid : COrphan.settle (D := D) (env.done []) = id := by
      funext o
      rw [COrphan.settle, TemplateEnv.done, List.map_nil, List.toFinset_nil, Finset.sdiff_empty]
      rfl
    change c.vOrphan = c.vOrphan.map (Option.map (COrphan.settle (env.done [])))
    rw [hid, Option.map_id, List.map_id]
  · exact (((env.heap.makeHeap_perm _ _).map _).append_right _).trans h.perm
  · intro tx htx
    obtain ⟨p, hp, rfl⟩ := List.mem_map.mp htx
    rw [h.ready p ((env.heap.makeHeap_perm _ _).mem_iff.mp hp)]
    exact Finset.empty_subset _

/-- The front of the queue, moved to the end of what was passed over or of the block. -/
theorem Progress.perm_front {p : TxPriority D} {b : Bool} {q : List (TxPriority D)}
    (h : Progress env view c txs s skipped) (hqueue : QueueLeft env s p b q) :
    (s.vtx ++ skipped ++ p.ptx :: (q.map (·.ptx) ++ waitingTxs s.vOrphan)).Perm txs := by
  obtain ⟨rest, hrest, hperm⟩ := hqueue.front
  refine List.Perm.trans (.append_left _ ?_) h.perm
  rw [Selection.open, hrest, List.map_cons, List.cons_append]
  exact ((hperm.map _).append_right _).cons _

theorem Progress.front_mem {p : TxPriority D} {b : Bool} {q : List (TxPriority D)}
    (h : Progress env view c txs s skipped) (hqueue : QueueLeft env s p b q) :
    missing view p.ptx.vin ⊆ env.done s.vtx ∧
      ∀ p' ∈ q, missing view p'.ptx.vin ⊆ env.done s.vtx := by
  obtain ⟨rest, hrest, hperm⟩ := hqueue.front
  refine ⟨h.ready _ (List.mem_append.mpr (Or.inr ?_)), fun p' hp' ↦
    h.ready _ (List.mem_append.mpr (Or.inr ?_))⟩
  · rw [hrest]
    exact List.mem_cons_self
  · rw [hrest]
    exact List.mem_cons_of_mem _ (List.mem_map_of_mem (hperm.mem_iff.mp hp'))

theorem TemplateEnv.done_concat (env : TemplateEnv D) (vtx : List CTransaction)
    (tx : CTransaction) : env.done (vtx ++ [tx]) = env.done vtx ∪ {env.getTxHash tx} := by
  rw [done, List.map_append, List.toFinset_append]
  rfl

/-- The entries that depend on a transaction are there. -/
theorem Progress.live (hc : c.From view txs) (h : Progress env view c txs s skipped)
    {hash : Uint256} {i : Nat} (hi : i ∈ c.mapDependers hash) :
    ∃ o, s.vOrphan[i]? = some (some o) := by
  obtain ⟨o, ho, -⟩ := (hc.dependers hash i).mp hi
  exact ⟨_, by rw [h.pending, List.getElem?_map, ho]; rfl⟩

/-- What waits, when one more transaction has joined the block. -/
theorem Progress.pending_settle (hc : c.From view txs) (h : Progress env view c txs s skipped)
    (hash : Uint256) (i : Nat) :
    (if i ∈ c.mapDependers hash then (s.vOrphan[i]?).map (Option.map (COrphan.settle {hash}))
      else s.vOrphan[i]?) =
      (c.vOrphan.map (Option.map (COrphan.settle (env.done s.vtx ∪ {hash}))))[i]? := by
  rw [h.pending, List.getElem?_map, List.getElem?_map]
  cases hi : c.vOrphan[i]? with
  | none => exact ite_self _
  | some x =>
      cases x with
      | none => exact ite_self _
      | some o =>
          simp only [Option.map_some, settle_settle]
          split
          · rfl
          · next hnot =>
            -- what does not depend on the transaction does not wait for it
            have hmem : hash ∉ o.setDependsOn :=
              fun hmem ↦ hnot ((hc.dependers _ i).mpr ⟨o, hi, hmem⟩)
            rw [COrphan.settle, COrphan.settle, Finset.sdiff_union_distrib,
              Finset.sdiff_singleton_eq_erase, Finset.erase_eq_of_notMem hmem,
              Finset.inter_eq_left.mpr Finset.sdiff_subset]

theorem forall_split_concat {α : Type} {Q : List α → α → Prop} {l : List α} {x : α}
    (h : ∀ l₁ a l₂, l = l₁ ++ a :: l₂ → Q l₁ a) (hlast : Q l x) :
    ∀ l₁ a l₂, l ++ [x] = l₁ ++ a :: l₂ → Q l₁ a := by
  intro l₁ a l₂ hl
  rcases List.eq_nil_or_concat l₂ with rfl | ⟨l₂, x', rfl⟩
  · obtain ⟨rfl, hx⟩ := List.append_inj' hl rfl
    obtain rfl := List.singleton_inj.mp hx
    exact hlast
  · rw [List.concat_eq_append, ← List.cons_append, ← List.append_assoc] at hl
    exact h l₁ a l₂ (List.append_inj' hl rfl).1

theorem Progress.round (hc : c.From view txs) (hcheck : ∀ tx ∈ txs, checkTransaction tx = .ok ())
    (h : Progress env view c txs s skipped) (hround : Round env call c.mapDependers s s') :
    ∃ skipped', Progress env view c txs s' skipped' ∧
      s'.vtx.length + skipped'.length = s.vtx.length + skipped.length + 1 := by
  cases hround with
  | @skip p b q hqueue =>
      obtain ⟨hfront, hrest⟩ := h.front_mem hqueue
      refine ⟨skipped ++ [p.ptx], ⟨h.pending, ?_, fun tx htx ↦ ?_, h.before, h.hashBlock⟩,
        by rw [List.length_append]; rfl⟩
      · have hperm := h.perm_front hqueue
        rwa [List.append_cons, List.append_assoc s.vtx] at hperm
      · rw [List.append_assoc, List.singleton_append, List.mem_append, List.mem_cons] at htx
        rcases htx with htx | rfl | htx
        · exact h.ready tx (List.mem_append.mpr (Or.inl htx))
        · exact hfront
        · obtain ⟨p', hp', rfl⟩ := List.mem_map.mp htx
          exact hrest p' hp'
  | @add _ p b q nTxFees nTxSigOps view' txundo hqueue hfits hupdate hrelease =>
      obtain ⟨hfront, hrest⟩ := h.front_mem hqueue
      have hlive : ∀ i ∈ c.mapDependers (env.getTxHash p.ptx), ∃ o,
          (s.joined p.ptx nTxFees nTxSigOps view' b q).vOrphan[i]? = some (some o) :=
        fun i hi ↦ h.live hc hi
      obtain ⟨s₁, hs₁, hreleased, hget⟩ := releaseOrphans_spec env (env.getTxHash p.ptx) hlive
      obtain rfl := Except.ok.inj (hs₁.symm.trans hrelease)
      have hvtx : s₁.vtx = s.vtx ++ [p.ptx] := by rw [hreleased.same]; rfl
      have hmono : env.done s.vtx ⊆ env.done s₁.vtx := by
        rw [hvtx, TemplateEnv.done_concat]
        exact Finset.subset_union_left
      refine ⟨skipped, ⟨List.ext_getElem? fun i ↦ ?_, ?_, fun tx htx ↦ ?_, fun l₁ tx l₂ hl ↦ ?_,
        ?_⟩, by rw [hvtx, List.length_append, List.length_singleton]; omega⟩
      · rw [hget, hvtx, TemplateEnv.done_concat]
        exact h.pending_settle hc _ i
      · refine (hreleased.perm.append_left _).trans ?_
        have hperm := h.perm_front hqueue
        rw [hvtx]
        change (s.vtx ++ [p.ptx] ++ skipped ++ (q.map (·.ptx) ++ waitingTxs s.vOrphan)).Perm txs
        refine List.Perm.trans ?_ hperm
        rw [List.append_assoc, List.append_assoc, List.append_assoc, List.singleton_append]
        exact List.perm_middle.symm.append_left _
      · rcases List.mem_append.mp htx with htx | htx
        · exact (h.ready tx (List.mem_append.mpr (Or.inl htx))).trans hmono
        · obtain ⟨p', hp', rfl⟩ := List.mem_map.mp htx
          rcases hreleased.pushed p' hp' with hp' | ⟨i, o, ho, hptx, hsub⟩
          · exact (hrest p' hp').trans hmono
          · change s.vOrphan[i]? = _ at ho
            rw [h.pending, List.getElem?_map] at ho
            obtain ⟨x, hx, hxo⟩ := Option.map_eq_some_iff.mp ho
            obtain ⟨o₀, rfl, rfl⟩ := Option.map_eq_some_iff.mp hxo
            rw [hptx, hvtx, TemplateEnv.done_concat]
            change missing view o₀.ptx.vin ⊆ _
            rw [← (hc.waits i o₀ hx).1]
            exact sdiff_le_iff.mp hsub
      · exact forall_split_concat h.before hfront l₁ tx l₂ (hvtx ▸ hl)
      · rw [hreleased.same]
        change view'.hashBlock = _
        rw [← h.hashBlock]
        have hmem : p.ptx ∈ txs := (h.perm_front hqueue).mem_iff.mp (by simp)
        obtain ⟨view₁, txundo₁, hupdate₁, hhash⟩ := exists_updateCoins (hcheck _ hmem)
          hfits.inputs call.nHeight (env.getTxHash p.ptx)
        obtain ⟨rfl, -⟩ := Prod.mk.inj (Except.ok.inj (hupdate₁.symm.trans hupdate))
        exact hhash

theorem Progress.next (call : TemplateCall) (hc : c.From view txs)
    (hcheck : ∀ tx ∈ txs, checkTransaction tx = .ok ())
    (hknown : ∃ nHeight, env.mapBlockIndex view.hashBlock = some nHeight)
    (h : Progress env view c txs s skipped) {p : TxPriority D} {rest : List (TxPriority D)}
    (hfront : s.vecPriority = p :: rest) :
    ∃ s', env.takeTx call c.mapDependers p s = .ok s' ∧ Round env call c.mapDependers s s' := by
  have hmem : p.ptx ∈ txs := by
    refine h.perm.mem_iff.mp (List.mem_append.mpr (Or.inr ?_))
    rw [Selection.open, hfront]
    exact List.mem_append.mpr (Or.inl List.mem_cons_self)
  obtain ⟨s', hs'⟩ := exists_takeTx call (hcheck _ hmem) (h.hashBlock ▸ hknown)
    fun i hi ↦ h.live hc hi
  exact ⟨s', hs', takeTx_eq_ok hfront hs'⟩

theorem Progress.length_open (h : Progress env view c txs s skipped) :
    s.vtx.length + skipped.length + s.open.length = txs.length := by
  rw [← h.perm.length_eq, List.length_append, List.length_append]

/-- The rounds up to a state. -/
abbrev Rounds (env : TemplateEnv D) (call : TemplateCall) (mapDependers : Uint256 → List Nat) :
    Selection D → Selection D → Prop :=
  Relation.ReflTransGen (Round env call mapDependers)

/-- **The loop ends**, with nothing left in the queue. -/
theorem selectTxs_spec (call : TemplateCall) (hc : c.From view txs)
    (hcheck : ∀ tx ∈ txs, checkTransaction tx = .ok ())
    (hknown : ∃ nHeight, env.mapBlockIndex view.hashBlock = some nHeight)
    (h : Progress env view c txs s skipped) {n : Nat}
    (hn : txs.length < s.vtx.length + skipped.length + n) :
    ∃ s', env.selectTxs call c.mapDependers n s = .ok s' ∧ s'.vecPriority = [] ∧
      Rounds env call c.mapDependers s s' ∧
      ∃ skipped', Progress env view c txs s' skipped' := by
  induction n generalizing s skipped with
  | zero =>
      have := h.length_open
      omega
  | succ n ih =>
      rw [TemplateEnv.selectTxs]
      split
      · next hempty => exact ⟨s, rfl, hempty, .refl, skipped, h⟩
      · next p rest hfront =>
        obtain ⟨s₁, hs₁, hround⟩ := h.next call hc hcheck hknown hfront
        obtain ⟨skipped₁, h₁, hlen⟩ := h.round hc hcheck hround
        obtain ⟨s', hs', hempty, hrounds, hprogress⟩ := ih h₁ (by omega)
        exact ⟨s', bind_eq_ok.mpr ⟨s₁, hs₁, hs'⟩, hempty, .head hround hrounds, hprogress⟩

end

/-! ## What becomes of the transactions of the pool -/

/-- How the transactions of the pool have fared that could join the block. -/
structure PoolFate (env : TemplateEnv D) (call : TemplateCall) (pool : CTxMemPool)
    (vtx skipped waiting : List CTransaction) : Prop where
  perm : (vtx ++ skipped ++ waiting).Perm (pool.sortedTxs.filter fun tx ↦ !call.isExcluded tx)
  /-- A transaction comes after those of the pool that it spends from. -/
  before : ∀ l₁ tx l₂, vtx = l₁ ++ tx :: l₂ → ∀ txin ∈ tx.vin, ∀ parent ∈ pool.txs,
    env.getTxHash parent = txin.prevout.hash → parent ∈ l₁
  /-- What a transaction that was passed over spends from in the pool is in the finished block. -/
  tried : ∀ tx ∈ skipped, ∀ txin ∈ tx.vin, ∀ parent ∈ pool.txs,
    env.getTxHash parent = txin.prevout.hash → parent ∈ vtx
  /-- What still waits does so for one that is not. -/
  waits : ∀ tx ∈ waiting, ∃ txin ∈ tx.vin, ∃ parent ∈ pool.txs,
    env.getTxHash parent = txin.prevout.hash ∧ parent ∉ vtx

section

variable {env : TemplateEnv D} {call : TemplateCall} {pool : CTxMemPool} {pcoinsTip : CCoinsView}
  {c : Collected D} {s : Selection D} {txs skipped : List CTransaction}

theorem CTxMemPool.mem_txs_of_mem_sortedTxs {tx : CTransaction} (h : tx ∈ pool.sortedTxs) :
    tx ∈ pool.txs := by
  obtain ⟨hash, -, hhash⟩ := List.mem_filterMap.mp h
  obtain ⟨e, he, rfl⟩ := Option.map_eq_some_iff.mp hhash
  exact ⟨hash, e, he, rfl⟩

theorem mem_done {hash : Uint256} {vtx : List CTransaction} :
    hash ∈ env.done vtx ↔ ∃ tx ∈ vtx, env.getTxHash tx = hash := by
  rw [TemplateEnv.done, List.mem_toFinset, List.mem_map]

theorem Progress.poolFate (hready : PoolReady env.toBlockEnv pcoinsTip pool)
    (hc : c.From pcoinsTip (pool.sortedTxs.filter fun tx ↦ !call.isExcluded tx))
    (h : Progress env pcoinsTip c (pool.sortedTxs.filter fun tx ↦ !call.isExcluded tx) s skipped)
    (hempty : s.vecPriority = []) :
    PoolFate env call pool s.vtx skipped (waitingTxs s.vOrphan) := by
  have hopen : s.open = waitingTxs s.vOrphan := by rw [Selection.open, hempty]; rfl
  have hpool : ∀ tx ∈ s.vtx ++ skipped ++ waitingTxs s.vOrphan, tx ∈ pool.txs := by
    intro tx htx
    rw [← hopen, h.perm.mem_iff] at htx
    exact CTxMemPool.mem_txs_of_mem_sortedTxs (List.mem_filter.mp htx).1
  -- a transaction of the pool whose id is among those of `l` is in `l`
  have hin : ∀ (l : List CTransaction), (∀ tx ∈ l, tx ∈ pool.txs) → ∀ (tx : CTransaction),
      missing pcoinsTip tx.vin ⊆ env.done l → ∀ txin ∈ tx.vin, ∀ parent ∈ pool.txs,
        env.getTxHash parent = txin.prevout.hash → parent ∈ l := by
    intro l hl tx hsub txin htxin parent hparent hhash
    obtain ⟨tx', htx', heq⟩ := mem_done.mp (hsub (mem_missing.mpr
      ⟨⟨txin, htxin, rfl⟩, hhash ▸ hready.fresh parent hparent⟩))
    rwa [← hready.consistent.eq_of_hash_eq (hl tx' htx') hparent (heq.trans hhash.symm)]
  refine ⟨hopen ▸ h.perm, fun l₁ tx l₂ hl ↦ ?_, fun tx htx ↦ ?_, fun tx htx ↦ ?_⟩
  · exact hin l₁ (fun tx htx ↦ hpool tx (by simp [hl, htx])) tx (h.before l₁ tx l₂ hl)
  · exact hin s.vtx (fun tx htx ↦ hpool tx (by simp [htx])) tx
      (h.ready tx (List.mem_append.mpr (Or.inl htx)))
  · have htxpool := hpool tx (by simp [htx])
    obtain ⟨x, hx, hsome⟩ := List.mem_filterMap.mp htx
    obtain ⟨i, hi⟩ := List.mem_iff_getElem?.mp hx
    rw [h.pending, List.getElem?_map] at hi
    obtain ⟨x₀, hx₀, rfl⟩ := Option.map_eq_some_iff.mp hi
    cases x₀ with
    | none => cases hsome
    | some o =>
        rw [Option.map_some, Option.bind_some, Option.ite_none_left_eq_some] at hsome
        obtain ⟨hne, htxo⟩ := hsome
        obtain rfl := Option.some.inj htxo
        -- one of those it waits for is not in the block
        obtain ⟨hash, hmem⟩ := Finset.nonempty_iff_ne_empty.mpr hne
        obtain ⟨hmem, hnot⟩ := Finset.mem_sdiff.mp hmem
        rw [(hc.waits i o hx₀).1, mem_missing] at hmem
        obtain ⟨⟨txin, htxin, rfl⟩, hno⟩ := hmem
        cases hready.found htxpool htxin with
        | coins _ hhave _ => exact absurd (hhave.symm.trans hno) (by decide)
        | pool e _ _ he _ =>
            have hhash := hready.consistent.hash_eq _ e he
            exact ⟨txin, htxin, e.tx, ⟨_, e, he, rfl⟩, hhash,
              fun hin ↦ hnot (mem_done.mpr ⟨e.tx, hin, hhash⟩)⟩

theorem PoolReady.checked_filter (h : PoolReady env.toBlockEnv pcoinsTip pool) :
    ∀ tx ∈ pool.sortedTxs.filter fun tx ↦ !call.isExcluded tx, checkTransaction tx = .ok () :=
  fun tx htx ↦ h.checked tx (CTxMemPool.mem_txs_of_mem_sortedTxs (List.mem_filter.mp htx).1)

theorem length_sortedTxs_filter_le (call : TemplateCall) (pool : CTxMemPool) :
    (pool.sortedTxs.filter fun tx ↦ !call.isExcluded tx).length ≤ pool.mapTx.keys.card := by
  refine (List.length_filter_le _ _).trans ((List.length_filterMap_le _ _).trans ?_)
  rw [Finset.length_sort]

theorem exists_selection (call : TemplateCall)
    (hready : PoolReady env.toBlockEnv pcoinsTip pool)
    (hknown : ∃ nHeight, env.mapBlockIndex pcoinsTip.hashBlock = some nHeight) {rounds : Nat}
    (hrounds : pool.mapTx.keys.card < rounds) :
    ∃ c s skipped, env.collect call pool pcoinsTip = .ok c ∧
      c.From pcoinsTip (pool.sortedTxs.filter fun tx ↦ !call.isExcluded tx) ∧
      env.selectTxs call c.mapDependers rounds (env.startSelection call pcoinsTip c) = .ok s ∧
      Rounds env call c.mapDependers (env.startSelection call pcoinsTip c) s ∧
      s.vecPriority = [] ∧ Progress env pcoinsTip c
        (pool.sortedTxs.filter fun tx ↦ !call.isExcluded tx) s skipped := by
  obtain ⟨c, hcollect, hc⟩ := collect_spec call hready
  obtain ⟨s, hs, hempty, hrun, skipped, hprogress⟩ := selectTxs_spec call hc
    hready.checked_filter hknown (.start hc) (n := rounds)
    (by have := length_sortedTxs_filter_le call pool; omega)
  exact ⟨c, s, skipped, hcollect, hc, hs, hrun, hempty, hprogress⟩

end

/-! ## A pool with a dependency -/

/-- An environment in which the hash of a transaction is its lock time. -/
def templateEnv : TemplateEnv Int :=
  { sampleEnv with
    hashGenesisBlock := 1
    getLegacySigOpCount := CTransaction.getLegacySigOpCount
    getP2SHSigOpCount := CCoinsView.p2shSigOpCount
    doubles := ⟨id, (· + ·), (· * ·), (· / ·), fun a b ↦ decide (a < b), fun a b ↦ a == b⟩
    heap := .sorted _
    nMinRelayTxFee := 0 }

def templateTx (id parent : Nat) (nValue : Int64) : CTransaction where
  vin := [{ prevout := ⟨BitVec.ofNat 256 parent, 0⟩ }]
  vout := [⟨nValue, []⟩]
  nLockTime := id

def templateCoins : CCoinsView where
  coins := (∅ : Finmap _).insert 50 { vout := [⟨30, []⟩], nHeight := 1 }
  hashBlock := 7

/-- A transaction that spends the coin, and one that spends from it. -/
def templatePool : CTxMemPool :=
  (CTxMemPool.empty.addUnchecked 2 ⟨templateTx 2 50 20, 10, 0, 9⟩).addUnchecked 3
    ⟨templateTx 3 2 10, 10, 0, 9⟩

def templateCall : TemplateCall where
  scriptPubKeyIn := []
  pindexPrev := ⟨7, some 6, 9, {}⟩
  adjustedTime := 0
  nTime := 0
  nBits := 0
  fuel := 1

theorem templatePool_inv : templatePool.Inv templateEnv.getTxHash Set.univ ∧
    templatePool.txs = {templateTx 3 2 10, templateTx 2 50 20} := by
  have hempty : CTxMemPool.empty.Inv templateEnv.getTxHash Set.univ :=
    CTxMemPool.inv_of_lookup_eq_none Finmap.lookup_empty Finmap.lookup_empty
  let parent : CTxMemPoolEntry := ⟨templateTx 2 50 20, 10, 0, 9⟩
  have haccept₁ : CTxMemPool.accept templateEnv.getTxHash (.ok ()) .empty parent =
      .ok (CTxMemPool.empty.addUnchecked 2 parent) := rfl
  obtain ⟨hinv₁, htxs₁⟩ := hempty.accept (Set.mem_univ _) haccept₁
  have haccept₂ : CTxMemPool.accept templateEnv.getTxHash (.ok ())
      (CTxMemPool.empty.addUnchecked 2 parent) ⟨templateTx 3 2 10, 10, 0, 9⟩ =
      .ok templatePool := rfl
  obtain ⟨hinv₂, htxs₂⟩ := hinv₁.accept (Set.mem_univ _) haccept₂
  have hnone : CTxMemPool.empty.txs = ∅ := by
    rw [Set.eq_empty_iff_forall_notMem]
    rintro _ ⟨hash, e, he, -⟩
    exact absurd he (by simp [CTxMemPool.empty])
  refine ⟨hinv₂, htxs₂.trans ?_⟩
  rw [htxs₁, hnone, insert_empty_eq]

theorem templatePoolReady : PoolReady templateEnv.toBlockEnv templateCoins templatePool := by
  obtain ⟨hinv, htxs⟩ := templatePool_inv
  refine ⟨hinv.consistent, ?_, ?_, ?_⟩
  · rw [htxs]
    rintro tx (rfl | rfl)
    · rfl
    · rfl
  · rw [htxs]
    rintro tx (rfl | rfl)
    · decide
    · decide
  · rw [htxs]
    rintro tx (rfl | rfl) txin htxin
    · obtain rfl := List.mem_singleton.mp htxin
      exact Or.inr ⟨templateTx 2 50 20, Or.inr rfl, rfl, ⟨20, []⟩, by decide⟩
    · obtain rfl := List.mem_singleton.mp htxin
      exact Or.inl ⟨⟨⟨30, []⟩, false, 1⟩, by decide, nofun⟩

section

variable {env : TemplateEnv D} {call : TemplateCall} {pool : CTxMemPool} {pcoinsTip : CCoinsView}

/-- **Parents come first**: the loops end without reading a freed entry, and what becomes of the
transactions of the pool is told by `PoolFate`. -/
theorem selection_fate (hready : PoolReady env.toBlockEnv pcoinsTip pool)
    (hknown : ∃ nHeight, env.mapBlockIndex pcoinsTip.hashBlock = some nHeight) {rounds : Nat}
    (hrounds : pool.mapTx.keys.card < rounds) :
    ∃ c s skipped waiting, env.collect call pool pcoinsTip = .ok c ∧
      env.selectTxs call c.mapDependers rounds (env.startSelection call pcoinsTip c) = .ok s ∧
      PoolFate env call pool s.vtx skipped waiting := by
  obtain ⟨c, s, skipped, hcollect, hc, hs, -, hempty, hprogress⟩ :=
    exists_selection call hready hknown hrounds
  exact ⟨c, s, skipped, _, hcollect, hs, hprogress.poolFate hready hc hempty⟩

end

theorem selection_fate_templatePool :
    ∃ c s skipped waiting, templateEnv.collect templateCall templatePool templateCoins = .ok c ∧
      templateEnv.selectTxs templateCall c.mapDependers 3
        (templateEnv.startSelection templateCall templateCoins c) = .ok s ∧
      PoolFate templateEnv templateCall templatePool s.vtx skipped waiting :=
  selection_fate templatePoolReady ⟨9, rfl⟩ (by decide)

/-! ## The order of the queue -/

/-- The comparisons of `double`, without NaN. -/
structure Doubles.Ordered (d : Doubles D) : Prop where
  strictWeak : StrictWeak d.lt
  eq_iff : ∀ a b, d.eq a b = true ↔ d.lt a b = false ∧ d.lt b a = false

/-- Two orders, the second one deciding between what is equal for the first. -/
theorem Doubles.Ordered.lexicographic {d : Doubles D} (h : d.Ordered) {α : Type} (f g : α → D) :
    StrictWeak fun a b ↦ if d.eq (f a) (f b) then d.lt (g a) (g b) else d.lt (f a) (f b) := by
  have heq : ∀ a b, d.eq (f a) (f b) = true ↔
      d.lt (f a) (f b) = false ∧ d.lt (f b) (f a) = false := fun a b ↦ h.eq_iff _ _
  have hne : ∀ a b, ¬ d.eq (f a) (f b) = true → d.lt (f b) (f a) = false →
      d.lt (f a) (f b) = true := by
    intro a b hab hba
    by_contra hlt
    exact hab ((heq a b).mpr ⟨Bool.eq_false_iff.mpr hlt, hba⟩)
  constructor
  · intro a b hab
    split at hab
    · next hfab =>
      rw [if_pos ((heq b a).mpr ((heq a b).mp hfab).symm)]
      exact h.strictWeak.asymm _ _ hab
    · next hfab =>
      rw [if_neg fun hba ↦ hfab ((heq a b).mpr ((heq b a).mp hba).symm)]
      exact h.strictWeak.asymm _ _ hab
  · intro a b c hba hcb
    -- in each pair the second is not less, and is equal or greater
    have hle : ∀ x y, (if d.eq (f x) (f y) then d.lt (g x) (g y) else d.lt (f x) (f y)) = false →
        d.lt (f x) (f y) = false := by
      intro x y hxy
      split at hxy
      · next hfxy => exact ((heq x y).mp hfxy).1
      · exact hxy
    have hfba := hle b a hba
    have hfcb := hle c b hcb
    have hfca := h.strictWeak.trans _ _ _ hfba hfcb
    split
    · next hf =>
      -- equal at both ends: equal throughout
      obtain ⟨-, hfac⟩ := (heq c a).mp hf
      have hfab : d.lt (f a) (f b) = false := h.strictWeak.trans _ _ _ hfcb hfac
      have hfbc : d.lt (f b) (f c) = false := h.strictWeak.trans _ _ _ hfac hfba
      rw [if_pos ((heq b a).mpr ⟨hfba, hfab⟩)] at hba
      rw [if_pos ((heq c b).mpr ⟨hfcb, hfbc⟩)] at hcb
      exact h.strictWeak.trans _ _ _ hba hcb
    · exact hfca

theorem Doubles.Ordered.comparer {env : TemplateEnv D} (h : env.doubles.Ordered) (b : Bool) :
    StrictWeak (env.comparer b) := by
  cases b with
  | true => exact h.lexicographic TxPriority.dFeePerKb TxPriority.dPriority
  | false => exact h.lexicographic TxPriority.dPriority TxPriority.dFeePerKb

section

variable {env : TemplateEnv D} {call : TemplateCall} {view : CCoinsView} {c : Collected D}
  {s s' : Selection D} {mapDependers : Uint256 → List Nat}

theorem Round.isHeap (hlt : ∀ b, StrictWeak (env.comparer b))
    (h : env.heap.IsHeap (env.comparer s.fSortedByFee) s.vecPriority)
    (hround : Round env call mapDependers s s') :
    env.heap.IsHeap (env.comparer s'.fSortedByFee) s'.vecPriority := by
  cases hround with
  | skip hqueue => exact hqueue.heap hlt h
  | add hqueue hfits hupdate hrelease =>
      have hreleased := released_of_foldlM hrelease
      have hheap := hreleased.heap hlt (hqueue.heap hlt h)
      rw [hreleased.same]
      exact hheap

/-- **The best transaction comes first**: in every round no transaction of the queue comes before
the front in the order in force, which changes from priority to fee while the loop goes on. -/
theorem front_of_rounds (hordered : env.doubles.Ordered)
    (hrounds : Rounds env call mapDependers (env.startSelection call view c) s)
    {p : TxPriority D} {rest : List (TxPriority D)} (hfront : s.vecPriority = p :: rest) :
    ∀ q ∈ rest, txPriorityCompare env.doubles s.fSortedByFee p q = false := by
  have hheap : env.heap.IsHeap (env.comparer s.fSortedByFee) s.vecPriority := by
    clear hfront
    induction hrounds with
    | refl => exact env.heap.isHeap_makeHeap _ _ (hordered.comparer _)
    | tail _ hround ih => exact hround.isHeap hordered.comparer ih
  rw [hfront] at hheap
  exact env.heap.front_max _ _ _ (hordered.comparer _) hheap

end

theorem ordered_templateEnv : templateEnv.doubles.Ordered := by
  refine ⟨⟨fun a b hab ↦ ?_, fun a b c hba hcb ↦ ?_⟩, fun a b ↦ ?_⟩
  · have hab : a < b := of_decide_eq_true hab
    exact decide_eq_false (by omega)
  · have hba : ¬ b < a := of_decide_eq_false hba
    have hcb : ¬ c < b := of_decide_eq_false hcb
    exact decide_eq_false (by omega)
  · change (a == b) = true ↔ decide (a < b) = false ∧ decide (b < a) = false
    rw [beq_iff_eq, decide_eq_false_iff_not, decide_eq_false_iff_not]
    omega

/-- Numbers of three decimals. -/
def decimalEnv : TemplateEnv Int :=
  { templateEnv with
    doubles := { templateEnv.doubles with
      ofInt := (1000 * ·)
      mul := fun a b ↦ a * b / 1000
      div := fun a b ↦ 1000 * a / b } }

/-- A third transaction, whose fee is lower than that of the one that waits. -/
def feePool : CTxMemPool := templatePool.addUnchecked 4 ⟨templateTx 4 51 15, 5, 0, 9⟩

def feeCoins : CCoinsView :=
  { templateCoins with
    coins := templateCoins.coins.insert 51 { vout := [⟨20, []⟩], nHeight := 1 } }

theorem sortedTxs_feePool :
    feePool.sortedTxs = [templateTx 2 50 20, templateTx 3 2 10, templateTx 4 51 15] := by
  have hkeys : feePool.mapTx.keys = [2, 3, 4].toFinset := by decide
  rw [CTxMemPool.sortedTxs, hkeys, (List.toFinset_sort HashLE (by decide)).mpr (by decide)]
  rfl

/-- Transaction 2 was taken, the order has switched, and 3, which waited for 2, comes before 4 for
its fee. -/
theorem front_of_rounds_feePool :
    ∃ c s p q, decimalEnv.collect templateCall feePool feeCoins = .ok c ∧
      Rounds decimalEnv templateCall c.mapDependers
        (decimalEnv.startSelection templateCall feeCoins c) s ∧
      s.vecPriority = [p, q] ∧ p.ptx.nLockTime = 3 ∧ q.ptx.nLockTime = 4 ∧
      txPriorityCompare decimalEnv.doubles true p q = false := by
  have hround : ∃ c p₀ rest s, decimalEnv.collect templateCall feePool feeCoins = .ok c ∧
      (decimalEnv.startSelection templateCall feeCoins c).vecPriority = p₀ :: rest ∧
      decimalEnv.takeTx templateCall c.mapDependers p₀
        (decimalEnv.startSelection templateCall feeCoins c) = .ok s ∧
      s.fSortedByFee = true ∧ s.vecPriority.map (·.ptx.nLockTime) = [3, 4] := by
    rw [TemplateEnv.collect, sortedTxs_feePool]
    exact ⟨_, _, _, _, rfl, rfl, rfl, rfl, rfl⟩
  obtain ⟨c, p₀, rest, s, hc, hfront, htake, hfee, hids⟩ := hround
  have hrounds := Relation.ReflTransGen.single (takeTx_eq_ok hfront htake)
  obtain ⟨p, _, hqueue, hp, hids⟩ := List.map_eq_cons_iff.mp hids
  obtain ⟨q, _, rfl, hq, hnil⟩ := List.map_eq_cons_iff.mp hids
  obtain rfl := List.map_eq_nil_iff.mp hnil
  have hordered : decimalEnv.doubles.Ordered :=
    ⟨ordered_templateEnv.strictWeak, ordered_templateEnv.eq_iff⟩
  refine ⟨c, s, p, q, hc, hrounds, hqueue, hp, hq, ?_⟩
  rw [← hfee]
  exact front_of_rounds hordered hrounds hqueue q (List.mem_singleton_self q)

end Fedoracoin
