import Fedoracoin.SyncRun

/-!
# Where synchronized checkpoints are enforced

Enforcement is the default, and it has no effect.  `AcceptBlockHeader` calls
`CheckSyncCheckpoint` if checkpoints are *not* enforced, so that a header on any branch comes
into the index (`conforms_iff`); and a checkpoint on a side branch is accepted without the node
switching to that branch, since `SetBestChain` does nothing (`checkpoint_active_iff`).
-/

namespace Fedoracoin

variable {Block View World : Type} {env : SyncEnv Block View World}
  {s s' s₀ : SyncNode View World} {call : SyncCall} {calls : List SyncCall} {block : Arrival}

/-- The predecessor that `AcceptBlockHeader` finds; null for the genesis block. -/
def ChainEnv.pindexPrev (env : ChainEnv Block View World) (hash : Uint256) : Option Uint256 :=
  if hash = env.hashGenesisBlock then none else some (env.hashPrevBlock hash)

namespace SyncNode

/-- A step of a run with the checkpoint in the index. -/
def EnforcedStep (env : SyncEnv Block View World) (s : SyncNode View World) (call : SyncCall)
    (s' : SyncNode View World) : Prop :=
  SyncStep env s call s' ∧ s.hashSyncCheckpoint ∈ s.chain.mapBlockIndex.entries

/-- A header that comes into the index satisfies `CheckSyncCheckpoint`. -/
def Conforms (env : SyncEnv Block View World) (s : SyncNode View World) (call : SyncCall)
    (s' : SyncNode View World) : Prop :=
  ∀ block hhash, call = .processBlock block hhash →
    block.hash ∉ s.chain.mapBlockIndex.entries → block.hash ∈ s'.chain.mapBlockIndex.entries →
    s.checkSyncCheckpoint block.hash (env.chain.pindexPrev block.hash) = .ok true

/-- The block passes what `ProcessBlock` and `AcceptBlockHeader` test before they add it, the
synchronized checkpoint apart. -/
def Passes (env : SyncEnv Block View World) (s : SyncNode View World) (block : Arrival) : Prop :=
  let hashPrev := env.chain.hashPrevBlock block.hash
  block.hash ∉ s.chain.mapBlockIndex.entries ∧ block.preliminary = .ok () ∧
    ¬ (hashPrev ≠ 0 ∧ ¬ (hashPrev ∈ s.chain.mapBlockIndex.entries ∧
      (s.chain.status hashPrev).haveData = true)) ∧
    (block.hash = env.chain.hashGenesisBlock ∨ hashPrev ∈ s.chain.mapBlockIndex.entries ∧
      env.header.checkHeader true s block.hash hashPrev = .ok ())

/-- A block that passes the other tests is built on the checkpoint: that is its predecessor, or
an ancestor of it. -/
def BuildsOnCheckpoint (env : SyncEnv Block View World) (s : SyncNode View World)
    (call : SyncCall) : Prop :=
  ∀ block hhash, call = .processBlock block hhash → s.Passes env block →
    block.hash ≠ env.chain.hashGenesisBlock ∧
      s.hashSyncCheckpoint ∈ s.chain.mapBlockIndex.lineage (env.chain.hashPrevBlock block.hash)

/-- A block is added exactly if it passes. -/
theorem mem_processBlock_iff (henforced : env.chain.syncCheckpointEnforced = true)
    (hnew : block.hash ∉ s.chain.mapBlockIndex.entries) :
    block.hash ∈ (s.processBlock env block).1.chain.mapBlockIndex.entries ↔
      s.Passes env block := by
  have h : (s.arrival env block).hash ∉ s.chain.mapBlockIndex.entries := hnew
  have hheader : (s.arrival env block).header = env.header.checkHeader true s block.hash
      (env.chain.hashPrevBlock block.hash) :=
    congrArg (fun enforced ↦ env.header.checkHeader enforced s _ _) henforced
  have hmem : _ ∈ (s.chain.processBlock env.chain _).1.mapBlockIndex.entries ↔ _ :=
    ChainState.mem_processBlock h
  rw [hheader] at hmem
  rw [Passes, and_iff_right hnew]
  exact hmem

/-- One step. -/
theorem conforms_iff_of_step (henforced : env.chain.syncCheckpointEnforced = true)
    (h : EnforcedStep env s call s') :
    Conforms env s call s' ↔ BuildsOnCheckpoint env s call := by
  obtain ⟨⟨fuel, r, hrun, _⟩, hsync⟩ := h
  constructor
  · rintro hconforms block hhash rfl hpasses
    obtain ⟨rfl, -⟩ := Prod.mk.inj (Option.some.inj hrun)
    have hnew := hpasses.1
    have hmem := (mem_processBlock_iff henforced hnew).mpr hpasses
    have hcheck := hconforms block hhash rfl hnew hmem
    rw [ChainEnv.pindexPrev] at hcheck
    split at hcheck
    case isTrue => exact absurd hcheck (by simp [checkSyncCheckpoint])
    case isFalse hg => exact ⟨hg, (checkSyncCheckpoint_iff hsync hnew).mp hcheck⟩
  · rintro hbuilds block hhash rfl hnew hmem
    obtain ⟨rfl, -⟩ := Prod.mk.inj (Option.some.inj hrun)
    obtain ⟨hg, hlineage⟩ :=
      hbuilds block hhash rfl ((mem_processBlock_iff henforced hnew).mp hmem)
    rw [ChainEnv.pindexPrev, if_neg hg]
    exact (checkSyncCheckpoint_iff hsync hnew).mpr hlineage

/-- **The headers added in a run conform to the enforced checkpoint** exactly if each block that
passes the other tests is built on the checkpoint of the time. -/
theorem conforms_iff (henforced : env.chain.syncCheckpointEnforced = true) :
    Run.Throughout (EnforcedStep env) (Conforms env) s₀ calls s ↔
      Run.Throughout (EnforcedStep env) (fun s call _ ↦ BuildsOnCheckpoint env s call)
        s₀ calls s :=
  Run.throughout_congr fun _ _ _ hstep ↦ conforms_iff_of_step henforced hstep

/-! ## Reorganization -/

section Reorganize

variable {enforced : Bool} {io : CheckpointIO} {msg : CSyncCheckpoint} {hash : Uint256}

/-- A write that succeeds moves the checkpoint and nothing else. -/
theorem writeSyncCheckpoint_eq (h : s.writeSyncCheckpoint io hash = (s', true)) :
    s' = { s with hashSyncCheckpoint := hash } := by
  rcases s.writeSyncCheckpoint_cases io hash with hw | hw
  · rw [hw] at h
    cases (Prod.mk.inj h).2
  · rw [hw] at h
    exact (Prod.mk.inj h).1.symm

theorem processChecked_eq_true (h : s.processChecked enforced io msg = (s', .ok true)) :
    s'.chain = s.chain ∧ s'.hashSyncCheckpoint = msg.hashCheckpoint := by
  rw [processChecked] at h
  split at h
  case isTrue => cases (Prod.mk.inj h).2
  case isFalse =>
    obtain ⟨invalid, accepted, hvalid, -⟩ := s.validateSyncCheckpoint_spec msg.hashCheckpoint
    rw [hvalid] at h
    cases accepted with
    | false => cases (Prod.mk.inj h).2
    | true =>
        dsimp only at h
        rw [reorganize_eq] at h
        dsimp only at h
        split at h
        case h_1 => cases (Prod.mk.inj h).2
        case h_2 s₁ hwrite =>
          obtain ⟨rfl, -⟩ := Prod.mk.inj h
          rw [writeSyncCheckpoint_eq hwrite]
          exact ⟨rfl, rfl⟩

theorem processSyncCheckpoint_eq_true {verify : List UInt8 → List UInt8 → Bool}
    (h : s.processSyncCheckpoint verify enforced io msg = (s', .ok true)) :
    s'.chain = s.chain ∧ ∃ nVersion rest,
      CSyncCheckpoint.unserializeUnsigned msg.vchMsg =
        .ok ((nVersion, s'.hashSyncCheckpoint), rest) := by
  rw [processSyncCheckpoint] at h
  split at h
  case h_1 => cases (Prod.mk.inj h).2
  case h_2 => cases (Prod.mk.inj h).2
  case h_3 checked hsig =>
    obtain ⟨hchain, hhash⟩ := processChecked_eq_true h
    refine ⟨hchain, ?_⟩
    rw [CSyncCheckpoint.checkSignature] at hsig
    split at hsig
    case isTrue => exact absurd (Except.ok.inj hsig) (by simp)
    case isFalse =>
      split at hsig
      case h_1 => cases hsig
      case h_2 nVersion hashCheckpoint rest hread =>
        obtain rfl := Option.some.inj (Except.ok.inj hsig)
        rw [hhash]
        exact ⟨nVersion, rest, hread⟩

theorem acceptPendingSyncCheckpoint_eq_true
    (h : s.acceptPendingSyncCheckpoint enforced io = (s', .ok true)) :
    s'.chain = s.chain ∧ s'.hashSyncCheckpoint = s.hashPendingCheckpoint := by
  rw [acceptPendingSyncCheckpoint] at h
  split at h
  case isFalse => cases (Prod.mk.inj h).2
  case isTrue =>
    obtain ⟨invalid, accepted, hvalid, -⟩ := s.validateSyncCheckpoint_spec s.hashPendingCheckpoint
    rw [hvalid] at h
    cases accepted with
    | false => cases (Prod.mk.inj h).2
    | true =>
        dsimp only at h
        rw [reorganize_eq] at h
        dsimp only at h
        split at h
        case h_1 => cases (Prod.mk.inj h).2
        case h_2 s₁ hwrite =>
          obtain ⟨rfl, -⟩ := Prod.mk.inj h
          rw [writeSyncCheckpoint_eq hwrite]
          exact ⟨rfl, rfl⟩

/-- **The checkpointed block is active afterwards** exactly if it was so before: the block that a
message names, and the one that is pending. -/
theorem checkpoint_active_iff (verify : List UInt8 → List UInt8 → Bool) (io : CheckpointIO)
    (s : SyncNode View World) :
    (∀ msg s' nVersion hash rest,
      CSyncCheckpoint.unserializeUnsigned msg.vchMsg = .ok ((nVersion, hash), rest) →
      s.processSyncCheckpoint verify true io msg = (s', .ok true) →
      (s'.chain.chainActive.contains s'.chain.mapBlockIndex s'.hashSyncCheckpoint = true ↔
        s.chain.chainActive.contains s.chain.mapBlockIndex hash = true)) ∧
    ∀ s', s.acceptPendingSyncCheckpoint true io = (s', .ok true) →
      (s'.chain.chainActive.contains s'.chain.mapBlockIndex s'.hashSyncCheckpoint = true ↔
        s.chain.chainActive.contains s.chain.mapBlockIndex s.hashPendingCheckpoint = true) := by
  constructor
  · intro msg s' nVersion hash rest hread h
    obtain ⟨hchain, nVersion', rest', hread'⟩ := processSyncCheckpoint_eq_true h
    rw [hread] at hread'
    have hhash := (Prod.mk.inj (Prod.mk.inj (Except.ok.inj hread')).1).2
    rw [hchain, hhash]
  · intro s' h
    obtain ⟨hchain, hhash⟩ := acceptPendingSyncCheckpoint_eq_true h
    rw [hchain, hhash]

end Reorganize

/-! ## The sample node -/

/-- The sample node, whose headers are a minute apart and have one target. -/
def sampleSyncEnv : SyncEnv Uint256 Uint256 Unit where
  chain := sampleChainEnv
  header :=
    { eventHorizon := fun _ _ _ ↦ false
      nVersion := fun _ ↦ 2
      index := fun hash ↦ ⟨60 * hash.toNat, 0x1e0fffff⟩ }
  verify _ _ := true

theorem getBestBlock_sample : sampleChainEnv.getBestBlock 0 = 0 := rfl

theorem two_ne_zero_hash : (2 : Uint256) ≠ 0 := by decide

theorem three_ne_zero_hash : (3 : Uint256) ≠ 0 := by decide

def sampleStart : SyncNode Uint256 Unit :=
  load sampleSyncEnv (.empty sampleChainEnv 0 getBestBlock_sample) () 0

/-- The calls of a first start. -/
def startCalls : List SyncCall :=
  [.initBlockIndex (.ok ()) true, .activateBestChain, .initSyncCheckpoint {}]

/-- Blocks 1 and 2 connected. -/
def connectCalls : List SyncCall :=
  startCalls ++ [.processBlock { hash := 2 } two_ne_zero_hash, .activateBestChain]

/-- Block 3 stored on another branch. -/
def forkCalls : List SyncCall :=
  connectCalls ++ [.processBlock { hash := 3 } three_ne_zero_hash, .activateBestChain]

/-- A run with block 2 built on the checkpoint, which is block 1. -/
theorem conforms_iff_sample :
    ∃ s s', SyncReachable sampleSyncEnv s ∧
      Run (EnforcedStep sampleSyncEnv) s [.processBlock { hash := 2 } (by decide)] s' ∧
      (2 : Uint256) ∈ s'.chain.mapBlockIndex.entries ∧
      Run.Throughout (EnforcedStep sampleSyncEnv) (Conforms sampleSyncEnv) s
        [.processBlock { hash := 2 } (by decide)] s' := by
  have hplay := SyncCall.exists_run_of_test sampleSyncEnv 9 sampleStart startCalls
    (fun s ↦ decide (s.hashSyncCheckpoint = 1 ∧ (1 : Uint256) ∈ s.chain.mapBlockIndex.entries) &&
      ((SyncCall.processBlock { hash := 2 } (by decide)).run sampleSyncEnv 9 s).any fun q ↦
        survives q.2 && decide ((2 : Uint256) ∈ q.1.chain.mapBlockIndex.entries))
    (by decide +kernel)
  obtain ⟨s, hrun, htest⟩ := hplay
  obtain ⟨hsync, hadded⟩ := Bool.and_eq_true_iff.mp htest
  obtain ⟨hsync, hmem⟩ := of_decide_eq_true hsync
  obtain ⟨⟨s', r⟩, hcall, hr⟩ := (Option.any_eq_true _ _).mp hadded
  obtain ⟨hr, h2⟩ := Bool.and_eq_true_iff.mp hr
  have hstep : EnforcedStep sampleSyncEnv s (.processBlock { hash := 2 } (by decide)) s' :=
    ⟨⟨9, r, hcall, hr⟩, by rwa [hsync]⟩
  refine ⟨s, s', ⟨_, _, _, _, hrun⟩, .cons hstep (.nil s'), of_decide_eq_true h2, ?_⟩
  apply (conforms_iff rfl).mpr
  apply Run.throughout_singleton
  rintro s₂ - block hhash heq -
  obtain rfl := SyncCall.processBlock.inj heq
  refine ⟨by decide, ?_⟩
  rw [hsync]
  exact Forest.self_mem_lineage _ 1

/-- The checkpoint is at block 2, and block 3, which is on another branch, comes into the
index. -/
theorem conforms_fails :
    sampleSyncEnv.chain.syncCheckpointEnforced = true ∧ ∃ s s', SyncReachable sampleSyncEnv s ∧
      s.hashSyncCheckpoint = 2 ∧
      EnforcedStep sampleSyncEnv s (.processBlock { hash := 3 } (by decide)) s' ∧
      (3 : Uint256) ∈ s'.chain.mapBlockIndex.entries ∧
      s.checkSyncCheckpoint 3 (some 1) = .ok false ∧
      ¬ Conforms sampleSyncEnv s (.processBlock { hash := 3 } (by decide)) s' := by
  refine ⟨rfl, ?_⟩
  have hplay := SyncCall.exists_run_of_test sampleSyncEnv 9 sampleStart
    (connectCalls ++ [.processSyncCheckpoint (.signed 2 []) {}])
    (fun s ↦ decide (s.hashSyncCheckpoint = 2 ∧ (2 : Uint256) ∈ s.chain.mapBlockIndex.entries ∧
        (3 : Uint256) ∉ s.chain.mapBlockIndex.entries ∧
        s.checkSyncCheckpoint 3 (some 1) = .ok false) &&
      ((SyncCall.processBlock { hash := 3 } (by decide)).run sampleSyncEnv 9 s).any fun q ↦
        survives q.2 && decide ((3 : Uint256) ∈ q.1.chain.mapBlockIndex.entries))
    (by decide +kernel)
  obtain ⟨s, hrun, htest⟩ := hplay
  obtain ⟨hstate, hadded⟩ := Bool.and_eq_true_iff.mp htest
  obtain ⟨hsync, hmem, hnew, hcheck⟩ := of_decide_eq_true hstate
  obtain ⟨⟨s', r⟩, hcall, hr⟩ := (Option.any_eq_true _ _).mp hadded
  obtain ⟨hr, h3⟩ := Bool.and_eq_true_iff.mp hr
  have h3 := of_decide_eq_true h3
  refine ⟨s, s', ⟨_, _, _, _, hrun⟩, hsync, ⟨⟨9, r, hcall, hr⟩, by rwa [hsync]⟩, h3, hcheck, ?_⟩
  intro hconforms
  have htrue : s.checkSyncCheckpoint 3 (some 1) = .ok true := hconforms _ _ rfl hnew h3
  rw [hcheck] at htrue
  cases htrue

/-- A checkpoint on the active chain. -/
theorem checkpoint_active_iff_sample :
    ∃ s s', SyncReachable sampleSyncEnv s ∧
      s.processSyncCheckpoint sampleSyncEnv.verify true {} (.signed 2 []) = (s', .ok true) ∧
      s'.chain.chainActive.contains s'.chain.mapBlockIndex s'.hashSyncCheckpoint = true := by
  have hplay := SyncCall.exists_run_of_test sampleSyncEnv 9 sampleStart connectCalls
    (fun s ↦ decide ((s.processSyncCheckpoint sampleSyncEnv.verify true {} (.signed 2 [])).2 =
        .ok true ∧ s.chain.chainActive.contains s.chain.mapBlockIndex 2 = true))
    (by decide +kernel)
  obtain ⟨s, hrun, htest⟩ := hplay
  obtain ⟨hok, hactive⟩ := of_decide_eq_true htest
  have h : s.processSyncCheckpoint sampleSyncEnv.verify true {} (.signed 2 []) = (_, .ok true) :=
    Prod.ext rfl hok
  have hread := CSyncCheckpoint.unserializeUnsigned_signed 2 []
  have hiff := (checkpoint_active_iff sampleSyncEnv.verify {} s).1 _ _ _ _ _ hread h
  exact ⟨s, _, ⟨_, _, _, _, hrun⟩, h, hiff.mpr hactive⟩

/-- The tip is block 2, and block 3 is on another branch.  A checkpoint at block 3 is accepted, and
the tip stays. -/
theorem checkpoint_active_fails :
    sampleSyncEnv.chain.syncCheckpointEnforced = true ∧ ∃ s s', SyncReachable sampleSyncEnv s ∧
      s.processSyncCheckpoint sampleSyncEnv.verify true {} (.signed 3 []) = (s', .ok true) ∧
      s'.hashSyncCheckpoint = 3 ∧ s'.chain.chainActive = [1, 2] ∧
      s'.chain.chainActive.contains s'.chain.mapBlockIndex s'.hashSyncCheckpoint = false := by
  refine ⟨rfl, ?_⟩
  have hplay := SyncCall.exists_run_of_test sampleSyncEnv 9 sampleStart forkCalls
    (fun s ↦
      let q := s.processSyncCheckpoint sampleSyncEnv.verify true {} (.signed 3 [])
      decide (q.2 = .ok true ∧ q.1.hashSyncCheckpoint = 3 ∧ q.1.chain.chainActive = [1, 2] ∧
        q.1.chain.chainActive.contains q.1.chain.mapBlockIndex q.1.hashSyncCheckpoint = false))
    (by decide +kernel)
  obtain ⟨s, hrun, htest⟩ := hplay
  obtain ⟨hok, hsync, hactive, hnot⟩ := of_decide_eq_true htest
  exact ⟨s, _, ⟨_, _, _, _, hrun⟩, Prod.ext rfl hok, hsync, hactive, hnot⟩

end SyncNode

end Fedoracoin
