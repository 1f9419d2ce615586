import Fedoracoin.Reach

/-!
# The best chain

Here `ConnectBlock` is a judge: what it answers on a block depends on the block.  Then the
blocks of the active chain are accepted ones, and those that were found invalid are not
(`Judged`), in every state of the node.  So a tip is never lost to a block that is only as
good: the tip stays a candidate, and it was there first.
-/

namespace Fedoracoin

variable {Block View World : Type} {env : ChainEnv Block View World} {accepts : Uint256 → Bool}

/-- `ConnectBlock` accepts only blocks that `accepts` says, and finds only others invalid.  It may
also fail in ways that are not about the block. -/
structure ChainEnv.Judges (env : ChainEnv Block View World) (accepts : Uint256 → Bool) : Prop where
  ok : ∀ world block pindex view view',
    (env.connectBlock world block pindex view).2.2 = .ok view' → accepts pindex.blockHash = true
  dos : ∀ world block pindex view level chRejectCode strRejectReason,
    (env.connectBlock world block pindex view).2.2 =
      .error (.dos level chRejectCode strRejectReason false) → accepts pindex.blockHash = false

/-- The databases were written by a node with the same judge. -/
structure Stored.Judged (stored : Stored env) (accepts : Uint256 → Bool) : Prop where
  failedValid : ∀ hash, ((stored.nStatus.lookup hash).getD {}).failedValid = true →
    accepts hash = false
  best : env.getBestBlock stored.coins ∈ stored.mapBlockIndex.entries →
    ∀ hash ∈ stored.mapBlockIndex.lineage (env.getBestBlock stored.coins), accepts hash = true

/-- Empty databases agree with every judge. -/
theorem Stored.judged_empty {coins : View} (h : env.getBestBlock coins = 0) :
    (Stored.empty env coins h).Judged accepts where
  failedValid hash hfailed := by
    rw [empty, Finmap.lookup_empty] at hfailed
    exact absurd hfailed Bool.false_ne_true
  best hmem := absurd hmem Finmap.notMem_empty

namespace ChainState

variable {s s' s₁ : ChainState View World} {state state' : CValidationState} {p x : Uint256}
  {view : View} {pindexNew : Option Uint256} {q : Result View World}
  {r : Except TipFailure Unit}

/-- The active chain and the failure marks agree with the judge. -/
structure Judged (accepts : Uint256 → Bool) (s : ChainState View World) : Prop where
  active : ∀ x ∈ s.chainActive, accepts x = true
  failedValid : ∀ x, s.HasData x → (s.status x).failedValid = true → accepts x = false

namespace Judged

theorem mono (h : Judged accepts s) (hactive : s'.chainActive ⊆ s.chainActive)
    (hfail : ∀ x, s'.HasData x → (s'.status x).failedValid = true →
      s.HasData x ∧ (s.status x).failedValid = true) : Judged accepts s' where
  active x hx := h.active x (hactive hx)
  failedValid x hd hx := by
    obtain ⟨hd, hx⟩ := hfail x hd hx
    exact h.failedValid x hd hx

/-- The globals that the judge does not speak of. -/
theorem frame (h : Judged accepts s) (view : View) (world : World) :
    Judged accepts { s with pcoinsTip := view, world := world } :=
  h.mono (List.Subset.refl _) fun _ hd hx ↦ ⟨hd, hx⟩

theorem touched (h : Judged accepts s) (ht : Touched s p s₁) : Judged accepts s₁ := by
  obtain ⟨_, _, hactive, _⟩ := ht.frame
  refine h.mono (hactive ▸ List.Subset.refl _) fun x hd hx ↦ ⟨(ht.evolves.data x).mp hd, ?_⟩
  rwa [← ht.failedValid]

/-- `InvalidBlockFound` on a block that the judge rejects. -/
theorem markInvalid (h : Judged accepts s) (hp : accepts p = false) :
    Judged accepts (s.markInvalid p) := by
  obtain ⟨best, hbest⟩ := raiseBestInvalid_eq
    ((s.setStatus p { s.status p with failedValid := true }).eraseValid p) p
  rw [ChainState.markInvalid, hbest]
  constructor
  case active => exact h.active
  case failedValid =>
    intro x hd hx
    change HasData (s.setStatus p { s.status p with failedValid := true }) x at hd
    change ((s.setStatus p { s.status p with failedValid := true }).status x).failedValid = true
      at hx
    rw [HasData, status_setStatus] at hd
    rw [status_setStatus] at hx
    split at hx
    case isTrue hxp => rw [hxp, hp]
    case isFalse hxp =>
      rw [if_neg hxp] at hd
      exact h.failedValid x hd hx

end Judged

/-! ## The moves -/

theorem FlushExit.judged (hr : FlushExit env s state view pindexNew q) (hs : s.Inv)
    (h : Judged accepts s) (hp : ∀ pindex, pindexNew = some pindex →
      ∀ x ∈ s.mapBlockIndex.lineage pindex, accepts x = true) : Judged accepts q.1 := by
  cases hr with
  | notWritten => exact h.frame _ _
  | crashed => exact h.frame _ _
  | @done pindex _ =>
      constructor
      case active =>
        intro x hx
        change x ∈ s.chainActive.setTip s.mapBlockIndex (some pindex) at hx
        rw [CChain.setTip_some hs.active.1, BlockTree.path, Forest.mem_path] at hx
        exact hp pindex rfl x hx
      case failedValid => exact h.failedValid

theorem DisconnectExit.judged (hexit : DisconnectExit env s state q) (hs : s.Inv)
    (h : Judged accepts s) : Judged accepts q.1 := by
  cases hexit with
  | failed => exact h.frame s.pcoinsTip _
  | flushed htip _ _ hr =>
      refine hr.judged (hs.frame _ _ _) (h.frame s.pcoinsTip _) fun pindex hprev x hx ↦ ?_
      apply h.active
      exact hs.active.1.mem_of_lineage (List.mem_of_getLast? htip)
        (Forest.mem_lineage_trans hx (Forest.parent_mem_lineage hprev))

theorem ConnectExit.judged (hj : env.Judges accepts) (hexit : ConnectExit env s {} p q)
    (hs : s.Inv) (hp : s.HasData p) (h : Judged accepts s) : Judged accepts q.1 := by
  cases hexit with
  | unread => exact h.frame s.pcoinsTip _
  | unconnected ht => exact h.touched ht
  | corrupt ht => exact h.touched ht
  | rejected ht hans hret hinv hcor =>
      obtain ⟨level, code, reason, heq⟩ := Failure.eq_dos hret hinv
      obtain ⟨world, block, hans⟩ := hans
      rw [heq, hcor] at hans
      exact (h.touched ht).markInvalid (hj.dos _ _ _ _ _ _ _ hans)
  | flushed ht hans hprev hr =>
      obtain ⟨htree, _⟩ := ht.frame
      obtain ⟨world, block, hans⟩ := hans
      refine hr.judged (hs.touched hp ht) (h.touched ht) fun pindex hpindex x hx ↦ ?_
      obtain rfl := Option.some.inj hpindex
      rw [htree] at hx
      -- the block itself, and below it the active chain
      by_cases hxp : x = p
      · rw [hxp]
        exact hj.ok _ _ _ _ _ hans
      · cases hpp : s.mapBlockIndex.pprev p with
        | none =>
            rw [BlockTree.lineage, Forest.lineage_root hpp, List.mem_singleton] at hx
            exact absurd hx hxp
        | some hashPrev =>
            rw [hpp] at hprev
            apply h.active
            exact hs.active.1.mem_of_lineage (List.mem_of_getLast? hprev.symm)
              (Forest.mem_lineage_parent hpp hx hxp)

theorem Move.judged (hj : env.Judges accepts) (hm : Move env {} s r s') (hs : s.Inv)
    (h : Judged accepts s) : Judged accepts s' := by
  cases hm with
  | findMostWorkChain hf =>
      obtain ⟨s₁, h₁, hf'⟩ := findMostWorkChain_spec env hs
      rw [h₁] at hf
      obtain rfl := Option.some.inj hf
      refine h.mono (hf'.chainActive ▸ List.Subset.refl _) fun x hd hx ↦
        ⟨(hf'.evolves.data x).mp hd, ?_⟩
      rwa [← hf'.failedValid]
  | disconnectTip hd =>
      have hexit := disconnectTip_exit env s {}
      rw [hd] at hexit
      exact hexit.judged hs h
  | connectTip p hp hc =>
      have hexit := connectTip_exit env s {} p
      rw [hc] at hexit
      exact hexit.judged hj hs hp h
  | invalidChainFound p =>
      have hm := Marked.raiseBestInvalid s p
      refine h.mono (hm.chainActive ▸ List.Subset.refl _) fun x hd hx ↦
        ⟨(hm.evolves.data x).mp hd, ?_⟩
      rwa [← hm.failedValid]

theorem Moves.judged (hj : env.Judges accepts) (hm : Moves env {} s s') (hs : s.Inv)
    (h : Judged accepts s) : Judged accepts s' := by
  induction hm with
  | refl => exact h
  | tail hmoves hstep ih =>
      obtain ⟨r, hmove, _⟩ := hstep
      exact hmove.judged hj (Moves.inv hmoves hs).1 ih

theorem judged_activateBestChain (hj : env.Judges accepts) {fuel : Nat} (hs : s.Inv)
    (h : Judged accepts s) (hact : s.activateBestChain env fuel {} = some (s', state', r))
    (hr : survives r = true) : Judged accepts s' := by
  rcases activateBestChain_moves hs hact hr with ⟨hmoves, _⟩ | ⟨s₁, hmoves, hmove, _⟩
  · exact hmoves.judged hj hs h
  · exact hmove.judged hj (hmoves.inv hs).1 (hmoves.judged hj hs h)

/-! ## The states of the node -/

theorem judged_loadBlockIndexDB {stored : Stored env} (h : stored.Judged accepts)
    (world : World) : Judged accepts (loadBlockIndexDB env stored world) := by
  constructor
  case active =>
    intro x hx
    rw [loadBlockIndexDB] at hx
    dsimp only at hx
    split at hx
    case isTrue hbest =>
      rw [CChain.setTip_some (Or.inl rfl), BlockTree.path, Forest.mem_path] at hx
      exact h.best hbest x hx
    case isFalse => exact absurd hx List.not_mem_nil
  case failedValid => exact fun x _ hx ↦ h.failedValid x hx

end ChainState

open ChainState

variable {s s' : ChainState View World}

theorem Step.judged {l : Label} (hj : env.Judges accepts) (h : Step env s l s') (hs : s.Inv)
    (hjudged : Judged accepts s) : Judged accepts s' := by
  obtain ⟨hsurvives, fuel, hrun⟩ := h
  rcases l.1.run_cases hs hrun with ⟨hgrown, _⟩ | ⟨state', hact⟩
  · exact hjudged.mono (hgrown.chainActive ▸ List.Subset.refl _) hgrown.failedValid
  · exact judged_activateBestChain hj hs hjudged hact hsurvives

/-- In every state of the node the active chain and the marks agree with the judge. -/
theorem judged_of_run (hj : env.Judges accepts) {stored : Stored env}
    (hstored : stored.Judged accepts) {world : World} {l : List Label}
    (hrun : Run (Step env) (loadBlockIndexDB env stored world) l s) :
    s.Inv ∧ Judged accepts s :=
  hrun.invariant (I := fun s ↦ s.Inv ∧ Judged accepts s)
    (fun _ _ _ hs hstep ↦ ⟨hstep.inv hs.1, hstep.judged hj hs.1 hs.2⟩)
    ⟨inv_loadBlockIndexDB env stored world, judged_loadBlockIndexDB hstored world⟩

namespace ChainState

/-- Blocks that the judge accepts are not marked. -/
theorem Judged.failed_eq_false {p : Uint256} (h : Judged accepts s) (hs : s.Inv)
    (hp : s.HasData p) (hall : ∀ x ∈ s.mapBlockIndex.lineage p, accepts x = true) :
    s.failed p = false := by
  have hfv : ∀ x ∈ s.mapBlockIndex.lineage p, (s.status x).failedValid = false := by
    intro x hx
    by_contra hf
    rw [Bool.not_eq_false] at hf
    have hrej := h.failedValid x (hs.data_of_lineage hp x hx) hf
    rw [hall x hx] at hrej
    cases hrej
  rw [failed_eq_false_iff]
  refine ⟨hfv p (Forest.self_mem_lineage _ p), ?_⟩
  by_contra hf
  rw [Bool.not_eq_false] at hf
  obtain ⟨a, ha, _, hfa⟩ := hs.failedChild p hf
  rw [hfv a ha] at hfa
  cases hfa

/-- The tip of the active chain is a candidate afterwards. -/
theorem tip_mem_valid {t : Uint256} (hs : s.Inv) (hjs : Judged accepts s) (he : Evolves s s')
    (hs' : s'.Inv) (hjs' : Judged accepts s') (ht : s.chainActive.tip = some t) :
    t ∈ s'.setBlockIndexValid := by
  have hmem : t ∈ s.chainActive := List.mem_of_getLast? ht
  have hdata := (he.data t).mpr (hs.active.2 t hmem)
  refine (hs'.mem_valid t).mpr ⟨hdata, hjs'.failed_eq_false hs' hdata fun x hx ↦ ?_⟩
  rw [he.mapBlockIndex] at hx
  exact hjs.active x (hs.active.1.mem_of_lineage hmem hx)

end ChainState

/-- **The best chain is active.**  After `ActivateBestChain` has returned `true`: no candidate is
preferred to the tip, whether or not an ancestor of it failed; a block is marked as the child of
a failed one only if there is such an ancestor; and the tip is not a block with the work of the
tip before that came later than it. -/
theorem activateBestChain_best (env : ChainEnv Block View World) (accepts : Uint256 → Bool)
    (stored : Stored env) (world : World) (l : List Label) (s s' : ChainState View World)
    (fuel : Nat) (state' : CValidationState) (hjudges : env.Judges accepts)
    (hstored : stored.Judged accepts)
    (hrun : Run (Step env) (loadBlockIndexDB env stored world) l s)
    (hact : s.activateBestChain env fuel {} = some (s', state', .ok ())) :
    (∀ x ∈ s'.setBlockIndexValid, ∃ tip, s'.chainActive.tip = some tip ∧
      s'.mapBlockIndex.workComparator env.address tip x = false) ∧
    (∀ x, (s'.status x).failedChild = true → ∃ a ∈ s'.mapBlockIndex.lineage x, a ≠ x ∧
      (s'.status a).failedValid = true) ∧
    ∀ t t', s.chainActive.tip = some t → s'.chainActive.tip = some t' →
      s'.mapBlockIndex.nChainWork t' = s'.mapBlockIndex.nChainWork t →
      s'.mapBlockIndex.nSequenceId t' ≤ s'.mapBlockIndex.nSequenceId t := by
  obtain ⟨hs, hjs⟩ := judged_of_run hjudges hstored hrun
  have hdone := activateBestChain_done hs hact
  have hjs' := judged_activateBestChain hjudges hs hjs hact rfl
  refine ⟨fun x hx ↦ ?_, hdone.inv.failedChild, fun t t' ht ht' hwork ↦ ?_⟩
  · obtain ⟨tip, htip, hle⟩ := hdone.best rfl x hx
    exact ⟨tip, htip, BlockTree.workComparator_eq_false_iff.mpr hle⟩
  · have hmem := tip_mem_valid hs hjs hdone.evolves hdone.inv hjs' ht
    obtain ⟨tip, htip, hle⟩ := hdone.best rfl t hmem
    rw [ht'] at htip
    obtain rfl := Option.some.inj htip
    rw [← not_lt]
    intro hlater
    -- the tip before would be preferred
    refine absurd hle (not_le.mpr (BlockTree.workComparator_iff.mp ?_))
    rw [BlockTree.workComparator, hwork, if_neg (lt_irrefl _), if_neg (lt_irrefl _),
      if_neg hlater.not_gt, if_pos hlater]

/-! ### A node of hashes -/

/-- A node whose blocks are their hashes, whose views are their best blocks, and whose judge
rejects block 4.  The tree is 1 ← 2 and 1 ← 3 ← 4 ← 5. -/
def sampleChainEnv : ChainEnv Uint256 Uint256 Unit where
  address := addressOfHash
  hashPrevBlock hash :=
    if hash = 1 then 0 else if hash = 2 then 1 else if hash = 3 then 1 else hash - 1
  getBlockWork _ := 1
  hashGenesisBlock := 1
  hashGenesisBlock_ne_zero := one_ne_zero_hash
  hashPrevBlock_genesis := rfl
  syncCheckpointEnforced := true
  getBestBlock view := view
  readBlockFromDisk world hash := (world, .ok hash)
  connectBlock world _ pindex view :=
    (world, pindex,
      if view ≠ pindex.pprev.getD 0 then .error .assertion
      else if pindex.blockHash = 4 then .error (.dos 100 rejectInvalid "bad-cb-amount")
      else .ok pindex.blockHash)
  disconnectBlock world _ pindex view :=
    (world,
      if view ≠ pindex.blockHash then .error .assertion
      else pindex.pprev.elim (.error .assertion) .ok)
  writeIO world := (world, {})
  connectBlock_nStatus world block pindex view := ⟨_, _, rfl, id⟩
  connectBlock_ok world block pindex view view' h := by
    dsimp only at h
    split_ifs at h with hview hhash
    exact ⟨not_not.mp hview, (Except.ok.inj h).symm⟩
  disconnectBlock_ok world block pindex view view' h := by
    dsimp only at h
    split_ifs at h with hview
    refine ⟨not_not.mp hview, ?_⟩
    cases hprev : pindex.pprev with
    | none => simp [hprev] at h
    | some hashPrev =>
        rw [hprev] at h
        rw [← Except.ok.inj h]

theorem sampleChainEnv_judges : sampleChainEnv.Judges fun hash ↦ decide (hash ≠ 4) where
  ok world block pindex view view' h := by
    dsimp only [sampleChainEnv] at h
    split_ifs at h with hview hhash
    exact decide_eq_true hhash
  dos world block pindex view level code reason h := by
    dsimp only [sampleChainEnv] at h
    split_ifs at h with hview hhash
    · cases h
    · rw [hhash]
      rfl

/-- The calls by which the sample node gets its blocks. -/
def sampleCalls : List Call :=
  [.initBlockIndex (.ok ()) true, .activateBestChain,
    .processBlock { hash := 2 } (by decide), .activateBestChain,
    .processBlock { hash := 3 } (by decide), .activateBestChain,
    .processBlock { hash := 4 } (by decide)]

/-- The branch of block 4 is tried and given up: its block 3 has the work of the tip 2, but came
later. -/
theorem activateBestChain_best_sample :
    ∃ l s s' state', Run (Step sampleChainEnv)
        (loadBlockIndexDB sampleChainEnv (.empty sampleChainEnv 0 rfl) ()) l s ∧
      s.activateBestChain sampleChainEnv 9 {} = some (s', state', .ok ()) ∧
      (s'.status 4).failedValid = true ∧ s'.chainActive = [1, 2] ∧
      (∀ x ∈ s'.setBlockIndexValid, ∃ tip, s'.chainActive.tip = some tip ∧
        s'.mapBlockIndex.workComparator sampleChainEnv.address tip x = false) ∧
      ∀ t t', s.chainActive.tip = some t → s'.chainActive.tip = some t' →
        s'.mapBlockIndex.nChainWork t' = s'.mapBlockIndex.nChainWork t →
        s'.mapBlockIndex.nSequenceId t' ≤ s'.mapBlockIndex.nSequenceId t := by
  have hplay := Call.exists_run_of_test sampleChainEnv 9
    (loadBlockIndexDB sampleChainEnv (.empty sampleChainEnv 0 rfl) ()) sampleCalls
    (fun s ↦ (s.activateBestChain sampleChainEnv 9 {}).any fun q ↦
      decide ((q.1.status 4).failedValid = true ∧ q.1.chainActive = [1, 2] ∧ q.2.2 = .ok ()))
    (by decide +kernel)
  obtain ⟨l, s, hrun, hact⟩ := hplay
  obtain ⟨⟨s', state', r⟩, hact, hcheck⟩ := (Option.any_eq_true _ _).mp hact
  obtain ⟨hfailed, hchain, rfl⟩ := of_decide_eq_true hcheck
  obtain ⟨hbest, _, hfirst⟩ := activateBestChain_best sampleChainEnv _ (.empty _ 0 rfl) () l s s'
    9 state' sampleChainEnv_judges (Stored.judged_empty rfl) hrun hact
  exact ⟨l, s, s', state', hrun, hact, hfailed, hchain, hbest, hfirst⟩

end Fedoracoin
