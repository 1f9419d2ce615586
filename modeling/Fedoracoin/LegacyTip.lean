import Fedoracoin.SyncEnforced

/-!
# The tip that older code reads

`pindexBest` and `nBestHeight` were the tip before there was `chainActive`, and some functions
read them still.  Nothing assigns to them any more, so they are what they were initialized
with.  They agree with the tip as long as there is none, and from the first `UpdateTip` on never
again (`mirrors_differ`).
-/

namespace Fedoracoin

open ChainState

variable {Block View World : Type}

/-! ## The readers -/

/-- `CChain::Height`. -/
def CChain.height (vChain : CChain) : Int := vChain.length - 1

/-- `LOCKTIME_THRESHOLD2`. -/
def locktimeThreshold2 : Int := 500000000

/-- `CTransaction::IsFinal`; `adjustedTime` is `GetAdjustedTime()`. -/
def CTransaction.isFinal (nBestHeight adjustedTime : Int) (tx : CTransaction)
    (nBlockHeight nBlockTime : Int) : Bool :=
  if tx.nLockTime = 0 then true
  else
    let nBlockHeight := if nBlockHeight = 0 then nBestHeight else nBlockHeight
    let nBlockTime := if nBlockTime = 0 then adjustedTime else nBlockTime
    let nLockTime : Int := tx.nLockTime
    if nLockTime < (if nLockTime < locktimeThreshold2 then nBlockHeight else nBlockTime) then true
    else tx.vin.all fun txin ↦ decide (txin.nSequence = uintMax)

namespace SyncNode

/-- The end of `UpdateTip` in advisory mode: whether `strCheckpointWarning` is set. -/
def adviseTip (s : SyncNode View World) : Except Failure Bool :=
  match s.pindexBest with
  | none => .error .assertion
  | some pindexBest =>
      match s.chain.mapBlockIndex.pprev pindexBest with
      | none => .ok false
      | some pprev => do
          let satisfied ← s.checkSyncCheckpoint pindexBest (some pprev)
          return !satisfied

def baseMaturity : Int := 30

/-- `IsMatureSyncCheckpoint`. -/
def isMatureSyncCheckpoint (s : SyncNode View World) : Except Failure Bool := do
  failIf (decide (s.hashSyncCheckpoint ∉ s.chain.mapBlockIndex.entries)) .assertion
  return decide
    (s.chain.mapBlockIndex.nHeight s.hashSyncCheckpoint + baseMaturity ≤ s.nBestHeight)

/-- What `GetChainValue` reads. -/
def tipState (s : SyncNode View World) (network : Network) (fEnabled : Bool)
    (lastCheckpointValue : UInt64) : TipState where
  chain := s.pindexBest.elim [] s.chain.mapBlockIndex.lineage
  lastCheckpoint := (Checkpoints.getLastCheckpoint network fEnabled s.chain.mapBlockIndex).map
    s.chain.mapBlockIndex.nHeight
  lastCheckpointValue := lastCheckpointValue

end SyncNode

/-! ## The tip stays set -/

namespace ChainState

variable {env : ChainEnv Block View World} {s s' : ChainState View World}
  {state state' : CValidationState} {p : Uint256} {view : View} {pindexNew : Option Uint256}
  {q : Result View World} {r : Except TipFailure Unit}

theorem setTip_ne_nil (hs : s.mapBlockIndex.forest.Chain s.chainActive) (pindex : Uint256) :
    s.chainActive.setTip s.mapBlockIndex (some pindex) ≠ [] := by
  intro hnil
  have htip := CChain.tip_setTip hs (some pindex)
  rw [hnil] at htip
  exact absurd htip (by simp [CChain.tip])

theorem FlushExit.ne_nil (hr : FlushExit env s state view pindexNew q)
    (hs : s.mapBlockIndex.forest.Chain s.chainActive) (hne : s.chainActive ≠ []) :
    q.1.chainActive ≠ [] := by
  cases hr with
  | notWritten => exact hne
  | crashed => exact hne
  | done => exact setTip_ne_nil hs _

/-- A move leaves a tip where there was one. -/
theorem Move.ne_nil (h : Move env state s r s') (hs : s.Inv) (hne : s.chainActive ≠ []) :
    s'.chainActive ≠ [] := by
  cases h with
  | findMostWorkChain h =>
      obtain ⟨s₁, h₁, hf⟩ := findMostWorkChain_spec env hs
      rw [h₁] at h
      obtain rfl := Option.some.inj h
      rwa [hf.chainActive]
  | disconnectTip h =>
      have hexit := disconnectTip_exit env s state
      rw [h] at hexit
      cases hexit with
      | failed => exact hne
      | flushed _ _ _ hr => exact hr.ne_nil hs.active.1 hne
  | connectTip p hp h =>
      have hexit := connectTip_exit env s state p
      rw [h] at hexit
      have htouched : ∀ {s₁ : ChainState View World}, Touched s p s₁ → s₁.chainActive ≠ [] := by
        intro s₁ ht
        rwa [ht.frame.2.2.1]
      cases hexit with
      | unread => exact hne
      | unconnected ht => exact htouched ht
      | corrupt ht => exact htouched ht
      | rejected ht =>
          rw [markInvalid, (Marked.raiseBestInvalid _ p).chainActive]
          have hactive := htouched ht
          exact hactive
      | flushed ht _ _ hr => exact hr.ne_nil (hs.touched hp ht).active.1 (htouched ht)
  | invalidChainFound p =>
      rwa [(Marked.raiseBestInvalid s p).chainActive]

theorem Moves.ne_nil (h : Moves env state s s') (hs : s.Inv) (hne : s.chainActive ≠ []) :
    s'.chainActive ≠ [] := by
  induction h with
  | refl => exact hne
  | tail hmoves hstep ih =>
      obtain ⟨r, hmove, _⟩ := hstep
      exact hmove.ne_nil (Moves.inv hmoves hs).1 ih

end ChainState

/-- A call leaves a tip where there was one. -/
theorem Step.ne_nil {env : ChainEnv Block View World} {s s' : ChainState View World} {l : Label}
    (h : Step env s l s') (hs : s.Inv) (hne : s.chainActive ≠ []) :
    s'.chainActive ≠ [] := by
  obtain ⟨hsurvives, fuel, hrun⟩ := h
  rcases l.1.run_cases hs hrun with ⟨hgrown, _⟩ | ⟨state', hact⟩
  · rwa [hgrown.chainActive]
  · rcases activateBestChain_moves hs hact hsurvives with ⟨hmoves, _⟩ | ⟨s₁, hmoves, hmove, _⟩
    · exact hmoves.ne_nil hs hne
    · exact hmove.ne_nil (hmoves.inv hs).1 (hmoves.ne_nil hs hne)

/-! ## The mirrors -/

namespace SyncNode

variable {env : SyncEnv Block View World} {s s' s₀ : SyncNode View World} {call : SyncCall}
  {calls : List SyncCall}

theorem ne_nil_of_step (h : SyncStep env s call s') (hs : s.chain.Inv)
    (hne : s.chain.chainActive ≠ []) : s'.chain.chainActive ≠ [] := by
  rcases (syncStep_cases h).2 with heq | ⟨c, fuel, r, hr, hrun⟩
  · rwa [heq]
  · exact Step.ne_nil (l := (c, r)) ⟨hr, fuel, hrun⟩ hs hne

/-- Once there is a tip there always is. -/
theorem ne_nil_of_run (hrun : Run (SyncStep env) s₀ calls s) (hs : s₀.chain.Inv)
    (hne : s₀.chain.chainActive ≠ []) : s.chain.chainActive ≠ [] := by
  have hboth := hrun.invariant (I := fun s ↦ s.chain.Inv ∧ s.chain.chainActive ≠ [])
    (fun _ _ _ hs hstep ↦ ⟨inv_of_syncStep hstep hs.1, ne_nil_of_step hstep hs.1 hs.2⟩)
    ⟨hs, hne⟩
  exact hboth.2

/-- What the mirrors were initialized with, they are for ever. -/
theorem mirrors_of_reachable (h : SyncReachable env s) :
    s.pindexBest = none ∧ s.nBestHeight = -1 := by
  obtain ⟨stored, world, hashSyncCheckpoint, calls, hrun⟩ := h
  have hsame := hrun.invariant (I := SameTip (load env stored world hashSyncCheckpoint))
    (fun _ _ _ hs hstep ↦ hs.trans (syncStep_cases hstep).1) (.refl _)
  exact ⟨hsame.pindexBest, hsame.nBestHeight⟩

/-- **The mirrors are never right once there is a tip**, and what follows `pindexBest` follows a
null pointer. -/
theorem mirrors_differ (hreach : SyncReachable env s₀) (htip : s₀.chain.chainActive ≠ [])
    (hrun : Run (SyncStep env) s₀ calls s) :
    s.pindexBest ≠ s.chain.chainActive.tip ∧ s.nBestHeight ≠ s.chain.chainActive.height ∧
      s.adviseTip = .error .assertion ∧
      ∀ nCheckpointDepth, s.autoSelectSyncCheckpoint nCheckpointDepth = .error .assertion := by
  have hne := ne_nil_of_run hrun (inv_of_reachable hreach) htip
  have hreach' : SyncReachable env s := by
    obtain ⟨stored, world, hashSyncCheckpoint, calls₀, hrun₀⟩ := hreach
    exact ⟨stored, world, hashSyncCheckpoint, _, hrun₀.append hrun⟩
  obtain ⟨hbest, hheight⟩ := mirrors_of_reachable hreach'
  refine ⟨?_, ?_, ?_, fun nCheckpointDepth ↦ ?_⟩
  · rw [hbest]
    exact fun h ↦ hne (List.getLast?_eq_none_iff.mp h.symm)
  · have hpos := List.length_pos_iff.mpr hne
    rw [hheight, CChain.height]
    omega
  · rw [adviseTip, hbest]
  · rw [autoSelectSyncCheckpoint, hbest]

/-- The height that `IsFinal` and `IsMatureSyncCheckpoint` compare with is below every height. -/
theorem readers_of_reachable (h : SyncReachable env s) :
    (s.hashSyncCheckpoint ∈ s.chain.mapBlockIndex.entries →
      s.isMatureSyncCheckpoint = .ok false) ∧
    (∀ tx : CTransaction, tx.nLockTime ≠ 0 → (tx.nLockTime : Int) < locktimeThreshold2 →
      ∀ adjustedTime nBlockTime, tx.isFinal s.nBestHeight adjustedTime 0 nBlockTime =
        tx.vin.all fun txin ↦ decide (txin.nSequence = uintMax)) ∧
    ∀ network fEnabled value, (s.tipState network fEnabled value).chain = [] := by
  obtain ⟨hbest, hheight⟩ := mirrors_of_reachable h
  refine ⟨fun hsync ↦ ?_, fun tx hlock hlt adjustedTime nBlockTime ↦ ?_, fun _ _ _ ↦ ?_⟩
  · have hnot : ¬ (s.chain.mapBlockIndex.nHeight s.hashSyncCheckpoint : Int) + baseMaturity ≤
        s.nBestHeight := by
      rw [hheight, baseMaturity]
      omega
    rw [isMatureSyncCheckpoint, decide_eq_false (not_not_intro hsync), decide_eq_false hnot]
    rfl
  · have hnot : ¬ (tx.nLockTime : Int) < s.nBestHeight := by
      rw [hheight]
      omega
    rw [CTransaction.isFinal, if_neg hlock]
    simp only [if_pos hlt, if_true, if_neg hnot]
  · rw [tipState, hbest]
    rfl

/-- The sample node with block 2 connected. -/
theorem mirrors_differ_sample :
    ∃ s, SyncReachable sampleSyncEnv s ∧ s.chain.chainActive.tip = some 2 ∧
      s.pindexBest ≠ s.chain.chainActive.tip ∧ s.nBestHeight ≠ s.chain.chainActive.height ∧
      s.adviseTip = .error .assertion := by
  obtain ⟨s, hrun, htip⟩ := SyncCall.exists_run_of_test sampleSyncEnv 9 sampleStart connectCalls
    (fun s ↦ decide (s.chain.chainActive.tip = some 2)) (by decide +kernel)
  have htip := of_decide_eq_true htip
  have hreach : SyncReachable sampleSyncEnv s := ⟨_, _, _, _, hrun⟩
  have hne : s.chain.chainActive ≠ [] := fun hnil ↦ absurd (hnil ▸ htip) (by decide)
  obtain ⟨hbest, hheight, hadvise, _⟩ := mirrors_differ hreach hne (.nil s)
  exact ⟨s, hreach, htip, hbest, hheight, hadvise⟩

/-- After the genesis block and block 2 are connected, the tip is block 2 at height 1. -/
theorem mirrors_fail :
    ∃ s, SyncReachable sampleSyncEnv s ∧ s.chain.chainActive.tip = some 2 ∧
      s.chain.chainActive.height = 1 ∧ s.pindexBest = none ∧ s.nBestHeight = -1 ∧
      s.autoSelectSyncCheckpoint 0 = .error .assertion := by
  obtain ⟨s, hrun, htest⟩ := SyncCall.exists_run_of_test sampleSyncEnv 9 sampleStart connectCalls
    (fun s ↦ decide (s.chain.chainActive.tip = some 2 ∧ s.chain.chainActive.height = 1 ∧
      s.pindexBest = none ∧ s.nBestHeight = -1 ∧
      s.autoSelectSyncCheckpoint 0 = .error .assertion)) (by decide +kernel)
  obtain ⟨htip, hheight, hbest, hbestHeight, hselect⟩ := of_decide_eq_true htest
  exact ⟨s, ⟨_, _, _, _, hrun⟩, htip, hheight, hbest, hbestHeight, hselect⟩

end SyncNode

end Fedoracoin
