import Fedoracoin.HeaderRules

/-!
# Runs of the node with synchronized checkpoints

The calls of `Fedoracoin.ChainRun`, where the header of a block that arrives is now checked by
`checkHeader` in the state it arrives in, together with the calls that move the checkpoint.
`AcceptPendingSyncCheckpoint`, which `AcceptBlock` makes last, and the `WriteSyncCheckpoint` of
`InitBlockIndex` come after `ActivateBestChain` and are calls of their own, as that is.
-/

namespace Fedoracoin

variable {Block View World : Type}

/-- What the node takes from elsewhere. -/
structure SyncEnv (Block View World : Type) where
  chain : ChainEnv Block View World
  header : HeaderEnv
  /-- The verification of a message under the master key. -/
  verify : List UInt8 → List UInt8 → Bool

/-! ## Calls -/

namespace SyncNode

/-- The block with the verdict on its header. -/
def arrival (env : SyncEnv Block View World) (s : SyncNode View World) (block : Arrival) :
    Arrival :=
  { block with
    header := env.header.checkHeader env.chain.syncCheckpointEnforced s block.hash
      (env.chain.hashPrevBlock block.hash) }

/-- `ProcessBlock`. -/
def processBlock (env : SyncEnv Block View World) (s : SyncNode View World) (block : Arrival) :
    SyncNode View World × Except Failure Unit :=
  let (chain, r) := s.chain.processBlock env.chain (s.arrival env block)
  ({ s with chain := chain }, r)

/-- `SendSyncCheckpoint(AutoSelectSyncCheckpoint())`, which the master node does at the end of
`ProcessBlock`. -/
def sendSyncCheckpoint (env : SyncEnv Block View World) (nCheckpointDepth : Int)
    (vchSig : List UInt8) (io : CheckpointIO) (s : SyncNode View World) :
    SyncNode View World × Except Failure Bool :=
  match s.autoSelectSyncCheckpoint nCheckpointDepth with
  | .error e => (s, .error e)
  | .ok hash =>
      s.processSyncCheckpoint env.verify env.chain.syncCheckpointEnforced io (.signed hash vchSig)

end SyncNode

/-- The calls from outside. -/
inductive SyncCall where
  | initBlockIndex (stored : Except Failure Unit) (indexWritten : Bool)
  | processBlock (block : Arrival) (hhash : block.hash ≠ 0)
  | activateBestChain
  /-- `WriteSyncCheckpoint(Params().HashGenesisBlock())` in `InitBlockIndex`. -/
  | initSyncCheckpoint (io : CheckpointIO)
  | resetSyncCheckpoint (io : CheckpointIO)
  | processSyncCheckpoint (msg : CSyncCheckpoint) (io : CheckpointIO)
  | acceptPendingSyncCheckpoint (io : CheckpointIO)
  | sendSyncCheckpoint (nCheckpointDepth : Int) (vchSig : List UInt8) (io : CheckpointIO)

/-- What is left of the answer of a function that returns a `bool`. -/
def ended (r : Except Failure Bool) : Except TipFailure Unit :=
  match r with
  | .ok _ => .ok ()
  | .error e => .error (.block e)

/-- What a call does, the outer loop of `ActivateBestChain` bounded by `fuel`. -/
def SyncCall.run (env : SyncEnv Block View World) (fuel : Nat) (s : SyncNode View World) :
    SyncCall → Option (SyncNode View World × Except TipFailure Unit)
  | .initBlockIndex stored indexWritten =>
      let (chain, r) := s.chain.initBlockIndex env.chain stored indexWritten
      some ({ s with chain := chain }, r.mapError .block)
  | .processBlock block _ => some ((s.processBlock env block).map id (Except.mapError .block))
  | .activateBestChain =>
      (s.chain.activateBestChain env.chain fuel {}).map fun q ↦ ({ s with chain := q.1 }, q.2.2)
  | .initSyncCheckpoint io =>
      some ((s.writeSyncCheckpoint io env.chain.hashGenesisBlock).1, .ok ())
  | .resetSyncCheckpoint io =>
      some ((s.resetSyncCheckpoint env.chain.hashGenesisBlock
        (Checkpoints.getLatestHardenedCheckpoint env.header.network) io).1, .ok ())
  | .processSyncCheckpoint msg io =>
      some ((s.processSyncCheckpoint env.verify env.chain.syncCheckpointEnforced io msg).map id
        ended)
  | .acceptPendingSyncCheckpoint io =>
      some ((s.acceptPendingSyncCheckpoint env.chain.syncCheckpointEnforced io).map id ended)
  | .sendSyncCheckpoint nCheckpointDepth vchSig io =>
      some ((s.sendSyncCheckpoint env nCheckpointDepth vchSig io).map id ended)

/-- One call, with the process there afterwards. -/
def SyncStep (env : SyncEnv Block View World) (s : SyncNode View World) (call : SyncCall)
    (s' : SyncNode View World) : Prop :=
  ∃ fuel r, call.run env fuel s = some (s', r) ∧ survives r = true

/-- Makes the calls one after the other, as long as the process is there. -/
def SyncCall.runAll (env : SyncEnv Block View World) (fuel : Nat) (s : SyncNode View World) :
    List SyncCall → Option (SyncNode View World)
  | [] => some s
  | call :: calls => do
      let (s, r) ← call.run env fuel s
      if survives r then runAll env fuel s calls else none

theorem SyncCall.run_of_runAll {env : SyncEnv Block View World} {fuel : Nat}
    {s s' : SyncNode View World} {calls : List SyncCall}
    (h : SyncCall.runAll env fuel s calls = some s') : Run (SyncStep env) s calls s' := by
  induction calls generalizing s with
  | nil =>
      obtain rfl := Option.some.inj h
      exact .nil _
  | cons call calls ih =>
      simp only [runAll, Option.bind_eq_bind, Option.bind_eq_some_iff] at h
      obtain ⟨⟨s₁, r⟩, hcall, h⟩ := h
      split at h
      case isTrue hsurvives => exact .cons ⟨fuel, r, hcall, hsurvives⟩ (ih h)
      case isFalse => cases h

/-- A test of the state that some calls lead to. -/
theorem SyncCall.exists_run_of_test (env : SyncEnv Block View World) (fuel : Nat)
    (s : SyncNode View World) (calls : List SyncCall) (test : SyncNode View World → Bool)
    (h : (SyncCall.runAll env fuel s calls).any test = true) :
    ∃ s', Run (SyncStep env) s calls s' ∧ test s' = true := by
  obtain ⟨s', hrun, htest⟩ := (Option.any_eq_true _ _).mp h
  exact ⟨s', SyncCall.run_of_runAll hrun, htest⟩

/-- The node with its databases loaded. -/
def SyncNode.load (env : SyncEnv Block View World) (stored : Stored env.chain) (world : World)
    (hashSyncCheckpoint : Uint256) : SyncNode View World where
  chain := ChainState.loadBlockIndexDB env.chain stored world
  hashSyncCheckpoint := hashSyncCheckpoint

/-- The states of the node. -/
def SyncReachable (env : SyncEnv Block View World) (s : SyncNode View World) : Prop :=
  ∃ stored world hashSyncCheckpoint calls,
    Run (SyncStep env) (SyncNode.load env stored world hashSyncCheckpoint) calls s

/-! ## What a call does -/

namespace SyncNode

variable {env : SyncEnv Block View World} {s s' s₁ : SyncNode View World} {block : Arrival}
  {call : SyncCall}

/-- The members that nothing assigns to. -/
structure SameTip (s s' : SyncNode View World) : Prop where
  pindexBest : s'.pindexBest = s.pindexBest
  nBestHeight : s'.nBestHeight = s.nBestHeight
  pnext : s'.pnext = s.pnext

theorem SameTip.refl (s : SyncNode View World) : SameTip s s := ⟨rfl, rfl, rfl⟩

theorem SameTip.trans (h : SameTip s s₁) (h' : SameTip s₁ s') : SameTip s s' :=
  ⟨h'.1.trans h.1, h'.2.trans h.2, h'.3.trans h.3⟩

/-- A call that moves the checkpoint, at most. -/
structure Aside (s s' : SyncNode View World) : Prop extends SameTip s s' where
  chain : s'.chain = s.chain

theorem Aside.refl (s : SyncNode View World) : Aside s s := ⟨.refl s, rfl⟩

theorem Aside.trans (h : Aside s s₁) (h' : Aside s₁ s') : Aside s s' :=
  ⟨h.toSameTip.trans h'.toSameTip, h'.chain.trans h.chain⟩

theorem CheckpointExit.aside {q : SyncNode View World × Except Failure Bool}
    (h : CheckpointExit s q) : Aside s q.1 := by
  cases h <;> exact ⟨⟨rfl, rfl, rfl⟩, rfl⟩

theorem aside_writeSyncCheckpoint (s : SyncNode View World) (io : CheckpointIO)
    (hash : Uint256) : Aside s (s.writeSyncCheckpoint io hash).1 := by
  rcases s.writeSyncCheckpoint_cases io hash with h | h
  · rw [h]
    exact .refl s
  · rw [h]
    exact ⟨⟨rfl, rfl, rfl⟩, rfl⟩

theorem aside_prepareReset (hash : Uint256) (s : SyncNode View World) :
    Aside s (s.prepareReset hash).1 := by
  rw [prepareReset]
  split_ifs
  · exact .refl s
  · exact .refl s
  · exact ⟨⟨rfl, rfl, rfl⟩, rfl⟩

theorem aside_resetSyncCheckpoint (s : SyncNode View World) (io : CheckpointIO)
    (hashGenesisBlock hash : Uint256) :
    Aside s (s.resetSyncCheckpoint hashGenesisBlock hash io).1 := by
  have hprepare := aside_prepareReset hash s
  rw [resetSyncCheckpoint]
  split
  case h_1 h =>
    rw [h] at hprepare
    exact hprepare
  case h_2 h =>
    rw [h] at hprepare
    exact hprepare.trans (aside_writeSyncCheckpoint _ io _)

theorem aside_sendSyncCheckpoint (nCheckpointDepth : Int) (vchSig : List UInt8)
    (io : CheckpointIO) :
    Aside s (s.sendSyncCheckpoint env nCheckpointDepth vchSig io).1 := by
  rw [sendSyncCheckpoint]
  split
  case h_1 => exact .refl s
  case h_2 => exact (processSyncCheckpoint_exit _ _ _ _ _).aside

/-- A call is one on the chain, or one aside. -/
theorem syncStep_cases (h : SyncStep env s call s') :
    SameTip s s' ∧ (s'.chain = s.chain ∨
      ∃ (c : Call) (fuel : Nat) (r : Except TipFailure Unit), survives r = true ∧
        c.run env.chain fuel s.chain = some (s'.chain, r)) := by
  obtain ⟨fuel, r, hrun, hr⟩ := h
  have haside : ∀ {q : SyncNode View World}, s' = q → Aside s q →
      SameTip s s' ∧ (s'.chain = s.chain ∨
        ∃ (c : Call) (fuel : Nat) (r : Except TipFailure Unit), survives r = true ∧
          c.run env.chain fuel s.chain = some (s'.chain, r)) := by
    rintro q rfl hq
    exact ⟨hq.toSameTip, Or.inl hq.chain⟩
  cases call with
  | initBlockIndex stored indexWritten =>
      obtain ⟨rfl, rfl⟩ := Prod.mk.inj (Option.some.inj hrun)
      exact ⟨⟨rfl, rfl, rfl⟩, Or.inr ⟨.initBlockIndex stored indexWritten, fuel, _, hr, rfl⟩⟩
  | processBlock block hhash =>
      obtain ⟨rfl, rfl⟩ := Prod.mk.inj (Option.some.inj hrun)
      exact ⟨⟨rfl, rfl, rfl⟩, Or.inr ⟨.processBlock (s.arrival env block) hhash, fuel, _, hr, rfl⟩⟩
  | activateBestChain =>
      obtain ⟨q, hq, heq⟩ := Option.map_eq_some_iff.mp hrun
      obtain ⟨rfl, rfl⟩ := Prod.mk.inj heq
      refine ⟨⟨rfl, rfl, rfl⟩, Or.inr ⟨.activateBestChain, fuel, _, hr, ?_⟩⟩
      rw [Call.run, hq]
      rfl
  | initSyncCheckpoint io =>
      exact haside (Prod.mk.inj (Option.some.inj hrun)).1.symm (aside_writeSyncCheckpoint s io _)
  | resetSyncCheckpoint io =>
      exact haside (Prod.mk.inj (Option.some.inj hrun)).1.symm (aside_resetSyncCheckpoint s io _ _)
  | processSyncCheckpoint msg io =>
      exact haside (Prod.mk.inj (Option.some.inj hrun)).1.symm
        (processSyncCheckpoint_exit _ _ _ _ _).aside
  | acceptPendingSyncCheckpoint io =>
      exact haside (Prod.mk.inj (Option.some.inj hrun)).1.symm
        (acceptPendingSyncCheckpoint_exit _ _ _).aside
  | sendSyncCheckpoint nCheckpointDepth vchSig io =>
      exact haside (Prod.mk.inj (Option.some.inj hrun)).1.symm
        (aside_sendSyncCheckpoint nCheckpointDepth vchSig io)

/-- The invariant of the chain is kept. -/
theorem inv_of_syncStep (h : SyncStep env s call s') (hs : s.chain.Inv) : s'.chain.Inv := by
  rcases (syncStep_cases h).2 with heq | ⟨c, fuel, r, hr, hrun⟩
  · rw [heq]
    exact hs
  · exact Step.inv (l := (c, r)) ⟨hr, fuel, hrun⟩ hs

theorem inv_of_reachable (h : SyncReachable env s) : s.chain.Inv := by
  obtain ⟨stored, world, hashSyncCheckpoint, calls, hrun⟩ := h
  refine hrun.invariant (I := fun s ↦ s.chain.Inv) ?_
    (ChainState.inv_loadBlockIndexDB env.chain stored world)
  exact fun _ _ _ hs hstep ↦ inv_of_syncStep hstep hs

end SyncNode

end Fedoracoin
