import Fedoracoin.BestChain
import Fedoracoin.Node

/-!
# The coins view and the tip

`ConnectBlock` and `DisconnectBlock` assert that the view is at the tip of the active chain.
`ConnectTip` and `DisconnectTip` flush the view, then call `WriteChainState`, and move the tip
only if that succeeds; so the two come apart when it fails, and only then.  They never come
together again, since every later call trips over an `assert`.
-/

namespace Fedoracoin

variable {Block View World : Type} {env : ChainEnv Block View World}

/-- `pcoinsTip->GetBestBlock()` is the hash of `chainActive.Tip()`. -/
def ChainState.Agrees (env : ChainEnv Block View World) (s : ChainState View World) : Prop :=
  env.getBestBlock s.pcoinsTip = s.chainActive.tip.getD 0

/-- `WriteChainState` never fails. -/
def ChainEnv.Writes (env : ChainEnv Block View World) : Prop :=
  ∀ world, writeChainState (env.writeIO world).2 = .ok ()

namespace ChainState

variable {s s' s₁ : ChainState View World} {state state' : CValidationState} {p : Uint256}
  {view : View} {pindexNew : Option Uint256} {q : Result View World}
  {r : Except TipFailure Unit}

theorem agrees_congr (hview : s'.pcoinsTip = s.pcoinsTip)
    (hactive : s'.chainActive = s.chainActive) : Agrees env s' ↔ Agrees env s := by
  rw [Agrees, Agrees, hview, hactive]

/-- Connecting or disconnecting a block moves the tip. -/
theorem Inv.pprev_ne (hs : s.Inv) (hp : s.HasData p) :
    (s.mapBlockIndex.pprev p).getD 0 ≠ p := by
  intro heq
  cases hpp : s.mapBlockIndex.pprev p with
  | none =>
      rw [hpp, Option.getD_none] at heq
      exact hs.zero_notMem (heq ▸ hs.mem_entries hp)
  | some hashPrev =>
      rw [hpp, Option.getD_some] at heq
      have hheight := s.mapBlockIndex.forest.height_parent hpp
      rw [heq] at hheight
      exact absurd hheight (Nat.ne_of_lt (Nat.lt_succ_self _))

/-! ## The moves -/

/-- The end of `ConnectTip` and `DisconnectTip`, when the flushed view is at the new tip and the
new tip is not the old one. -/
theorem FlushExit.agrees (hr : FlushExit env s state view pindexNew q) (hs : s.Inv)
    (hsurvives : survives q.2.2 = true) (hnew : env.getBestBlock view = pindexNew.getD 0)
    (hne : pindexNew.getD 0 ≠ s.chainActive.tip.getD 0) :
    (Agrees env q.1 ↔ ¬ WriteFailed q.2.2) ∧ (env.Writes → ¬ WriteFailed q.2.2) := by
  cases hr with
  | @notWritten pindexNew world e state' hstate hio =>
      have hfailed : WriteFailed (.error (.chainState e)) := ⟨e, rfl⟩
      refine ⟨iff_of_false ?_ (not_not_intro hfailed), fun hwrites ↦ ?_⟩
      · intro h
        rw [Agrees] at h
        exact hne (hnew.symm.trans h)
      · obtain ⟨world, hio⟩ := hio
        rw [hwrites world] at hio
        cases hio
  | crashed => exact absurd hsurvives (by simp [survives, TipFailure.failure, Failure.survives])
  | done =>
      refine ⟨iff_of_true ?_ not_writeFailed_ok, fun _ ↦ not_writeFailed_ok⟩
      rw [Agrees]
      dsimp only
      rw [CChain.tip_setTip hs.active.1, hnew]

/-- A call that leaves the view and the tip. -/
theorem agrees_of_failed {e : Failure} (hview : s'.pcoinsTip = s.pcoinsTip)
    (hactive : s'.chainActive = s.chainActive) :
    (Agrees env s' ↔ Agrees env s ∧ ¬ WriteFailed (.error (.block e))) ∧
      (env.Writes → ¬ WriteFailed (.error (.block e))) := by
  refine ⟨?_, fun _ ↦ not_writeFailed_block e⟩
  rw [agrees_congr hview hactive]
  exact (and_iff_left (not_writeFailed_block e)).symm

theorem DisconnectExit.agrees (hexit : DisconnectExit env s state q) (hs : s.Inv)
    (hsurvives : survives q.2.2 = true) :
    (Agrees env q.1 ↔ Agrees env s ∧ ¬ WriteFailed q.2.2) ∧
      (env.Writes → ¬ WriteFailed q.2.2) := by
  cases hexit with
  | failed => exact agrees_of_failed rfl rfl
  | @flushed tip world view _ htip hbest hprev hr =>
      have hagrees : Agrees env s := by
        rw [Agrees, hbest, htip]
        rfl
      rw [and_iff_right hagrees]
      refine hr.agrees (hs.frame s.pcoinsTip world s.pindexBestInvalid) hsurvives ?_ ?_
      · rw [hprev, Option.getD_some]
      · change _ ≠ s.chainActive.tip.getD 0
        rw [htip, Option.getD_some]
        exact hs.pprev_ne (hs.active.2 tip (List.mem_of_getLast? htip))

theorem ConnectExit.agrees (hexit : ConnectExit env s state p q) (hs : s.Inv) (hp : s.HasData p)
    (hsurvives : survives q.2.2 = true) :
    (Agrees env q.1 ↔ Agrees env s ∧ ¬ WriteFailed q.2.2) ∧
      (env.Writes → ¬ WriteFailed q.2.2) := by
  cases hexit with
  | unread => exact agrees_of_failed rfl rfl
  | unconnected ht =>
      obtain ⟨_, _, hactive, _, hview⟩ := ht.frame
      exact agrees_of_failed hview hactive
  | corrupt ht =>
      obtain ⟨_, _, hactive, _, hview⟩ := ht.frame
      exact agrees_of_failed hview hactive
  | @rejected s₁ _ ht =>
      obtain ⟨_, _, hactive, _, hview⟩ := ht.frame
      obtain ⟨best, hbest⟩ := raiseBestInvalid_eq
        ((s₁.setStatus p { s₁.status p with failedValid := true }).eraseValid p) p
      rw [markInvalid, hbest]
      exact agrees_of_failed hview hactive
  | @flushed s₁ view _ ht hans hprev hr =>
      obtain ⟨_, _, hactive, _, _⟩ := ht.frame
      obtain ⟨world, block, hans⟩ := hans
      obtain ⟨hbest, hnew⟩ := env.connectBlock_ok _ _ _ _ _ hans
      change env.getBestBlock s.pcoinsTip = (s.mapBlockIndex.pprev p).getD 0 at hbest
      change env.getBestBlock view = p at hnew
      have hagrees : Agrees env s := by rw [Agrees, hbest, hprev]
      rw [and_iff_right hagrees]
      refine hr.agrees (hs.touched hp ht) hsurvives hnew ?_
      rw [hactive, ← hprev, Option.getD_some]
      exact (hs.pprev_ne hp).symm

/-- **A move keeps the agreement unless its write of the chain state fails, and never restores
it.** -/
theorem Move.agrees (h : Move env state s r s') (hs : s.Inv) (hsurvives : survives r = true) :
    (Agrees env s' ↔ Agrees env s ∧ ¬ WriteFailed r) ∧ (env.Writes → ¬ WriteFailed r) := by
  cases h with
  | findMostWorkChain h =>
      obtain ⟨s₁, h₁, hf⟩ := findMostWorkChain_spec env hs
      rw [h₁] at h
      obtain rfl := Option.some.inj h
      rw [agrees_congr hf.pcoinsTip hf.chainActive]
      exact ⟨(and_iff_left not_writeFailed_ok).symm, fun _ ↦ not_writeFailed_ok⟩
  | disconnectTip h =>
      have hexit := disconnectTip_exit env s state
      rw [h] at hexit
      exact hexit.agrees hs hsurvives
  | connectTip p hp h =>
      have hexit := connectTip_exit env s state p
      rw [h] at hexit
      exact hexit.agrees hs hp hsurvives
  | invalidChainFound p =>
      have hm := Marked.raiseBestInvalid s p
      rw [agrees_congr hm.pcoinsTip hm.chainActive]
      exact ⟨(and_iff_left not_writeFailed_ok).symm, fun _ ↦ not_writeFailed_ok⟩

theorem Moves.agrees (h : Moves env state s s') (hs : s.Inv) : Agrees env s' ↔ Agrees env s := by
  induction h with
  | refl => exact Iff.rfl
  | tail hmoves hstep ih =>
      obtain ⟨r, hmove, hsurvives, hclean⟩ := hstep
      obtain ⟨hiff, _⟩ := hmove.agrees (Moves.inv hmoves hs).1 hsurvives
      rw [hiff, ih]
      exact and_iff_left hclean

theorem Played.agrees (h : Played env state s s' r) (hs : s.Inv) (hsurvives : survives r = true) :
    (Agrees env s' ↔ Agrees env s ∧ ¬ WriteFailed r) ∧ (env.Writes → ¬ WriteFailed r) := by
  rcases h hsurvives with ⟨hmoves, hclean⟩ | ⟨s₁, hmoves, hmove, _⟩
  · rw [hmoves.agrees hs]
    exact ⟨(and_iff_left hclean).symm, fun _ ↦ hclean⟩
  · have hlast := hmove.agrees (hmoves.inv hs).1 hsurvives
    rwa [hmoves.agrees hs] at hlast

end ChainState

open ChainState

/-! ## The states of the node -/

/-- The calls from outside, and calls of the functions that `ActivateBestChain` calls. -/
inductive TipCall where
  | call (call : Call)
  | disconnectTip (state : CValidationState)
  | connectTip (state : CValidationState) (pindexNew : Uint256)

def TipCall.run (env : ChainEnv Block View World) (fuel : Nat) (s : ChainState View World) :
    TipCall → Option (ChainState View World × Except TipFailure Unit)
  | .call c => c.run env fuel s
  | .disconnectTip state => some ((s.disconnectTip env state).map id Prod.snd)
  | .connectTip state pindexNew => some ((s.connectTip env state pindexNew).map id Prod.snd)

/-- `ConnectTip` is called for blocks whose data is there. -/
def TipCall.Allowed (s : ChainState View World) : TipCall → Prop
  | .call _ | .disconnectTip _ => True
  | .connectTip _ pindexNew => s.HasData pindexNew

abbrev TipLabel := TipCall × Except TipFailure Unit

def TipStep (env : ChainEnv Block View World) (s : ChainState View World) (l : TipLabel)
    (s' : ChainState View World) : Prop :=
  l.1.Allowed s ∧ survives l.2 = true ∧ ∃ fuel, l.1.run env fuel s = some (s', l.2)

variable {s s' : ChainState View World}

theorem Step.tipStep {l : Label} (h : Step env s l s') :
    TipStep env s (l.map .call id) s' := by
  obtain ⟨call, r⟩ := l
  exact ⟨trivial, h⟩

theorem TipStep.agrees {l : TipLabel} (h : TipStep env s l s') (hs : s.Inv) :
    s'.Inv ∧ (Agrees env s' ↔ Agrees env s ∧ ¬ WriteFailed l.2) ∧
      (env.Writes → ¬ WriteFailed l.2) := by
  obtain ⟨call, r⟩ := l
  obtain ⟨hallowed, hsurvives, fuel, hrun⟩ := h
  cases call with
  | call c =>
      rcases c.run_cases hs hrun with ⟨hgrown, hclean⟩ | ⟨state', hact⟩
      · rw [agrees_congr hgrown.pcoinsTip hgrown.chainActive]
        exact ⟨hgrown.inv, (and_iff_left hclean).symm, fun _ ↦ hclean⟩
      · exact ⟨(activateBestChain_done hs hact).inv,
          (activateBestChain_moves hs hact).agrees hs hsurvives⟩
  | disconnectTip state =>
      rcases hdis : s.disconnectTip env state with ⟨s₁, state', r'⟩
      rw [TipCall.run, hdis] at hrun
      obtain ⟨rfl, rfl⟩ := Prod.mk.inj (Option.some.inj hrun)
      have hmove : Move env state s r' s₁ := .disconnectTip hdis
      exact ⟨(hmove.inv hs).1, hmove.agrees hs hsurvives⟩
  | connectTip state p =>
      rcases hconn : s.connectTip env state p with ⟨s₁, state', r'⟩
      rw [TipCall.run, hconn] at hrun
      obtain ⟨rfl, rfl⟩ := Prod.mk.inj (Option.some.inj hrun)
      have hmove : Move env state s r' s₁ := .connectTip p hallowed hconn
      exact ⟨(hmove.inv hs).1, hmove.agrees hs hsurvives⟩

theorem agrees_loadBlockIndexDB (stored : Stored env) (world : World) :
    Agrees env (loadBlockIndexDB env stored world) := by
  rw [Agrees, loadBlockIndexDB]
  dsimp only
  split
  case isTrue => rw [CChain.tip_setTip (Or.inl rfl), Option.getD_some]
  case isFalse hbest => exact stored.best.resolve_right hbest

/-- What `ConnectBlock` and `DisconnectBlock` assert of the view, for the blocks that
`ConnectTip` and `DisconnectTip` may give them. -/
def ChainState.Asserts (env : ChainEnv Block View World) (s : ChainState View World) : Prop :=
  (∀ pindexNew, s.mapBlockIndex.pprev pindexNew = s.chainActive.tip →
    env.getBestBlock s.pcoinsTip = (s.connectIndex pindexNew).pprev.getD 0) ∧
  ∀ pindexDelete, s.chainActive.tip = some pindexDelete →
    env.getBestBlock s.pcoinsTip = (s.connectIndex pindexDelete).blockHash

theorem ChainState.Agrees.asserts (h : Agrees env s) : s.Asserts env := by
  rw [Agrees] at h
  refine ⟨fun p hp ↦ ?_, fun p hp ↦ ?_⟩
  · rw [h, ← hp]
    rfl
  · rw [h, hp]
    rfl

/-- **The view is at the tip** in a state of the node exactly if no `WriteChainState` has failed
on the way to it; and then the assertions about the view hold. -/
theorem agrees_iff (env : ChainEnv Block View World) (stored : Stored env) (world : World)
    (l : List TipLabel) (s : ChainState View World)
    (hrun : Run (TipStep env) (loadBlockIndexDB env stored world) l s) :
    (Agrees env s ↔ ∀ i ∈ l, ¬ WriteFailed i.2) ∧ (env.Writes → Agrees env s) ∧
      (Agrees env s → s.Asserts env) := by
  have hinv := inv_loadBlockIndexDB env stored world
  have hstart := agrees_loadBlockIndexDB stored world
  have hstep : ∀ (s : ChainState View World) (i : TipLabel) s', s.Inv → TipStep env s i s' →
      s'.Inv ∧ (Agrees env s' ↔ Agrees env s ∧ ¬ WriteFailed i.2) := by
    intro s i s' hs hst
    obtain ⟨hinv', hagrees, _⟩ := hst.agrees hs
    exact ⟨hinv', hagrees⟩
  have hiff := hrun.iff_forall hstep hinv
  rw [and_iff_right hstart] at hiff
  refine ⟨hiff, fun hwrites ↦ ?_, Agrees.asserts⟩
  have hall := hrun.invariant (I := fun s ↦ s.Inv ∧ Agrees env s)
    (fun _ _ _ hs hstep ↦ ?_) ⟨hinv, hstart⟩
  · exact hall.2
  · obtain ⟨hinv', hagrees, hclean⟩ := hstep.agrees hs.1
    exact ⟨hinv', hagrees.mpr ⟨hs.2, hclean hwrites⟩⟩

/-- The run of the sample node, with its blocks 2 and 3 connected and block 3 given up. -/
theorem agrees_iff_sample :
    ∃ l s, Run (TipStep sampleChainEnv)
        (loadBlockIndexDB sampleChainEnv (.empty sampleChainEnv 0 rfl) ()) l s ∧
      s.chainActive = [1, 2] ∧ s.pcoinsTip = 2 ∧ Agrees sampleChainEnv s ∧
      s.Asserts sampleChainEnv := by
  have hplay := Call.exists_run_of_test sampleChainEnv 9
    (loadBlockIndexDB sampleChainEnv (.empty sampleChainEnv 0 rfl) ())
    (sampleCalls ++ [.activateBestChain])
    (fun s ↦ decide (s.chainActive = [1, 2] ∧ s.pcoinsTip = 2)) (by decide +kernel)
  obtain ⟨l, s, hrun, hcheck⟩ := hplay
  obtain ⟨hchain, hview⟩ := of_decide_eq_true hcheck
  have hrun := hrun.map fun _ _ _ ↦ Step.tipStep
  obtain ⟨_, hwrites, hasserts⟩ := agrees_iff sampleChainEnv (.empty _ 0 rfl) () _ s hrun
  have hagrees := hwrites fun _ ↦ rfl
  exact ⟨_, s, hrun, hchain, hview, hagrees, hasserts hagrees⟩

/-- What the disk answers when it is full. -/
def diskFull : WriteIO := { checkDiskSpace := false }

/-- The disk is full when block 2 is connected: the view is at block 2 and the tip at block 1, and
the next call ends in a failed `assert`. -/
theorem agrees_fails :
    ∃ l s s' state', Run (TipStep (sampleNode 2 diskFull).chainEnv)
        (loadBlockIndexDB (sampleNode 2 diskFull).chainEnv (.empty _ ⟨∅, 0⟩ rfl) 0) l s ∧
      ¬ Agrees (sampleNode 2 diskFull).chainEnv s ∧
      ¬ s.Asserts (sampleNode 2 diskFull).chainEnv ∧
      s.activateBestChain (sampleNode 2 diskFull).chainEnv 9 {} =
        some (s', state', .error (.block .assertion)) := by
  have hplay := Call.exists_run_of_test (sampleNode 2 diskFull).chainEnv 9
    (loadBlockIndexDB (sampleNode 2 diskFull).chainEnv (.empty _ ⟨∅, 0⟩ rfl) 0)
    [.initBlockIndex (.ok ()) true, .activateBestChain, .processBlock { hash := 2 } (by decide),
      .activateBestChain]
    (fun s ↦ decide (s.pcoinsTip.hashBlock = 2 ∧ s.chainActive = [1] ∧
        s.mapBlockIndex.pprev 2 = some 1) &&
      (s.activateBestChain (sampleNode 2 diskFull).chainEnv 9 {}).any fun q ↦
        decide (q.2.2 = .error (.block .assertion)))
    (by decide +kernel)
  obtain ⟨l, s, hrun, hcheck⟩ := hplay
  obtain ⟨hcheck, hact⟩ := Bool.and_eq_true_iff.mp hcheck
  obtain ⟨hview, hchain, hprev⟩ := of_decide_eq_true hcheck
  obtain ⟨⟨s', state', r⟩, hact, hr⟩ := (Option.any_eq_true _ _).mp hact
  obtain rfl := of_decide_eq_true hr
  have hrun := hrun.map fun _ _ _ ↦ Step.tipStep
  refine ⟨_, s, s', state', hrun, fun h ↦ ?_, fun h ↦ ?_, hact⟩
  · change s.pcoinsTip.hashBlock = s.chainActive.tip.getD 0 at h
    rw [hview, hchain] at h
    cases h
  · have hassert := h.1 2 (by rw [hprev, hchain]; rfl)
    change s.pcoinsTip.hashBlock = (s.mapBlockIndex.pprev 2).getD 0 at hassert
    rw [hview, hprev] at hassert
    cases hassert

end Fedoracoin
