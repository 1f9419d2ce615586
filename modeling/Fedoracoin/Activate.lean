import Fedoracoin.Chain
import Fedoracoin.Lib.Loop

/-!
# Activating the best chain

`ConnectTip`, `DisconnectTip`, `FindMostWorkChain` and `ActivateBestChain`, and the calls
that reach them from outside: `InitBlockIndex` and `ProcessBlock`.  What these functions call
is collected in `ChainEnv`.  Everything outside the process (the block files, the databases,
the clock) has a state of its own, the `World`, which each call to it may change; so its
answers may vary in any way from one call to the next.

A loop of the source is a body and `Loop.run`.  The loops inside `ActivateBestChain` get as
many iterations as their own data allow; the outer one gets `fuel`.
-/

namespace Fedoracoin

/-! ## What the functions call -/

/-- Whether the failing function returns `false` rather than not at all. -/
def Failure.returns : Failure → Bool
  | .dos .. | .abort _ | .error _ => true
  | .exception _ | .assertion | .diverges => false

/-- `state.IsInvalid()`. -/
def CValidationState.isInvalid (state : CValidationState) : Bool := decide (state.mode = .invalid)

/-- What `WriteChainState` is answered. -/
structure WriteIO where
  /-- Whether it is time to write. -/
  fWrite : Bool := true
  checkDiskSpace : Bool := true
  flush : Bool := true

/-- `WriteChainState`. -/
def writeChainState (io : WriteIO) : Except Failure Unit := do
  failIf (io.fWrite && !io.checkDiskSpace) (.abort "out of disk space")
  failIf (io.fWrite && !io.flush) (.abort "Failed to write to coin database")

/-- What activating a chain takes from elsewhere.  The last three fields say what is relied
on: `ConnectBlock` touches the validity level and the undo flag of the entry only, and the two
functions take the view from one best block to the next, as their first `assert` and their last
statement have it. -/
structure ChainEnv (Block View World : Type) where
  /-- Where the entry of a block is allocated. -/
  address : Uint256 ↪ Nat
  hashPrevBlock : Uint256 → Uint256
  /-- `GetBlockWork` of the entry of a block. -/
  getBlockWork : Uint256 → Nat
  hashGenesisBlock : Uint256
  hashGenesisBlock_ne_zero : hashGenesisBlock ≠ 0
  hashPrevBlock_genesis : hashPrevBlock hashGenesisBlock = 0
  /-- `IsSyncCheckpointEnforced()`. -/
  syncCheckpointEnforced : Bool
  getBestBlock : View → Uint256
  readBlockFromDisk : World → Uint256 → World × Except Failure Block
  connectBlock : World → Block → ConnectIndex → View →
    World × ConnectIndex × Except Failure View
  disconnectBlock : World → Block → ConnectIndex → View → World × Except Failure View
  writeIO : World → World × WriteIO
  connectBlock_nStatus : ∀ world block pindex view, ∃ valid haveUndo,
    (connectBlock world block pindex view).2.1.nStatus =
      { pindex.nStatus with valid := valid, haveUndo := haveUndo } ∧
    (blockValidTransactions ≤ pindex.nStatus.valid → blockValidTransactions ≤ valid)
  connectBlock_ok : ∀ world block pindex view view',
    (connectBlock world block pindex view).2.2 = .ok view' →
    getBestBlock view = pindex.pprev.getD 0 ∧ getBestBlock view' = pindex.blockHash
  disconnectBlock_ok : ∀ world block pindex view view',
    (disconnectBlock world block pindex view).2 = .ok view' →
    getBestBlock view = pindex.blockHash ∧ pindex.pprev = some (getBestBlock view')

/-- Why `ConnectTip`, `DisconnectTip` or `ActivateBestChain` did not return `true`. -/
inductive TipFailure where
  /-- The block could not be read, connected or disconnected. -/
  | block (failure : Failure)
  /-- `WriteChainState` failed. -/
  | chainState (failure : Failure)
deriving DecidableEq

def TipFailure.failure : TipFailure → Failure
  | .block failure | .chainState failure => failure

/-- The globals of `main.cpp`, with `nStatus` of the index entries and the world. -/
structure ChainState (View World : Type) where
  mapBlockIndex : BlockTree
  nStatus : Finmap fun _ : Uint256 ↦ BlockStatus
  nBlockSequenceId : Nat := 1
  setBlockIndexValid : List Uint256 := []
  chainActive : CChain := []
  chainMostWork : CChain := []
  pindexBestInvalid : Option Uint256 := none
  pcoinsTip : View
  world : World
deriving DecidableEq

namespace ChainState

variable {Block View World : Type}

/-- `pindex->nStatus`. -/
def status (s : ChainState View World) (pindex : Uint256) : BlockStatus :=
  (s.nStatus.lookup pindex).getD {}

/-- `pindex->nStatus & BLOCK_FAILED_MASK`. -/
def failed (s : ChainState View World) (pindex : Uint256) : Bool := (s.status pindex).failed

def setStatus (s : ChainState View World) (pindex : Uint256) (nStatus : BlockStatus) :
    ChainState View World :=
  { s with nStatus := s.nStatus.insert pindex nStatus }

/-- `setBlockIndexValid.erase(pindex)`. -/
def eraseValid (s : ChainState View World) (pindex : Uint256) : ChainState View World :=
  { s with setBlockIndexValid := s.setBlockIndexValid.filter (· ≠ pindex) }

/-- The entry as `ConnectBlock` and `DisconnectBlock` see it. -/
def connectIndex (s : ChainState View World) (pindex : Uint256) : ConnectIndex where
  blockHash := pindex
  pprev := s.mapBlockIndex.pprev pindex
  nHeight := s.mapBlockIndex.nHeight pindex
  nStatus := s.status pindex

/-- `if (!pindexBestInvalid || pindex->nChainWork > pindexBestInvalid->nChainWork)`. -/
def raiseBestInvalid (s : ChainState View World) (pindex : Uint256) : ChainState View World :=
  if s.pindexBestInvalid.all fun best ↦
      decide (s.mapBlockIndex.nChainWork best < s.mapBlockIndex.nChainWork pindex) then
    { s with pindexBestInvalid := some pindex }
  else s

/-- `InvalidChainFound`, whose last line looks at the active tip. -/
def invalidChainFound (s : ChainState View World) (pindexNew : Uint256) :
    Except Failure (ChainState View World) :=
  match s.chainActive.tip with
  | none => .error .assertion
  | some _ => .ok (s.raiseBestInvalid pindexNew)

/-- `InvalidBlockFound`, for the index; the peer that sent the block is not modelled. -/
def invalidBlockFound (s : ChainState View World) (pindex : Uint256) (state : CValidationState) :
    Except Failure (ChainState View World) :=
  if state.corruptionPossible then .ok s
  else
    ((s.setStatus pindex { s.status pindex with failedValid := true }).eraseValid
      pindex).invalidChainFound pindex

/-- `UpdateTip`.  It looks at the new tip; and where sync checkpoints are not enforced, it
follows `pindexBest`, which is never set. -/
def updateTip (env : ChainEnv Block View World) (s : ChainState View World)
    (pindexNew : Option Uint256) : Except Failure (ChainState View World) :=
  if pindexNew.isNone || !env.syncCheckpointEnforced then .error .assertion
  else .ok { s with chainActive := s.chainActive.setTip s.mapBlockIndex pindexNew }

/-! ## `DisconnectTip` and `ConnectTip` -/

/-- What a call leaves: the globals, the validation state, and what it returned. -/
abbrev Result (View World : Type) :=
  ChainState View World × CValidationState × Except TipFailure Unit

/-- The end of both functions: the view is flushed, `WriteChainState` and `UpdateTip`. -/
def flushTip (env : ChainEnv Block View World) (s : ChainState View World)
    (state : CValidationState) (view : View) (pindexNew : Option Uint256) : Result View World :=
  let (world, io) := env.writeIO s.world
  let s := { s with pcoinsTip := view, world := world }
  match writeChainState io with
  | .error e => (s, state.fail e, .error (.chainState e))
  | .ok () =>
      match s.updateTip env pindexNew with
      | .error e => (s, state, .error (.block e))
      | .ok s => (s, state, .ok ())

/-- How a failed `ReadBlockFromDisk` ends its caller. -/
def readFailure (message : String) (e : Failure) : Failure :=
  if e.returns then .abort message else e

/-- `DisconnectTip`. -/
def disconnectTip (env : ChainEnv Block View World) (s : ChainState View World)
    (state : CValidationState) : Result View World :=
  match s.chainActive.tip with
  | none => (s, state, .error (.block .assertion))
  | some pindexDelete =>
      match env.readBlockFromDisk s.world pindexDelete with
      | (world, .error e) =>
          let e := readFailure "DisconnectTip,Failed to read block" e
          ({ s with world := world }, state.fail e, .error (.block e))
      | (world, .ok block) =>
          match env.disconnectBlock world block (s.connectIndex pindexDelete) s.pcoinsTip with
          | (world, .error e) => ({ s with world := world }, state.fail e, .error (.block e))
          | (world, .ok view) =>
              { s with world := world }.flushTip env state view
                (s.mapBlockIndex.pprev pindexDelete)

/-- The part of `ConnectTip` that follows a failed `ConnectBlock`. -/
def connectFailed (s : ChainState View World) (state : CValidationState) (pindexNew : Uint256)
    (e : Failure) : Result View World :=
  let state := state.fail e
  if e.returns && state.isInvalid then
    match s.invalidBlockFound pindexNew state with
    | .error e => (s, state, .error (.block e))
    | .ok s => (s, state, .error (.block e))
  else (s, state, .error (.block e))

/-- `ConnectTip`. -/
def connectTip (env : ChainEnv Block View World) (s : ChainState View World)
    (state : CValidationState) (pindexNew : Uint256) : Result View World :=
  if s.mapBlockIndex.pprev pindexNew ≠ s.chainActive.tip then
    (s, state, .error (.block .assertion))
  else
    match env.readBlockFromDisk s.world pindexNew with
    | (world, .error e) =>
        let e := readFailure
          "Connect a new block to chainActive,Failed to read block." e
        ({ s with world := world }, state.fail e, .error (.block e))
    | (world, .ok block) =>
        match env.connectBlock world block (s.connectIndex pindexNew) s.pcoinsTip with
        | (world, pindex, .error e) =>
            ({ s with world := world }.setStatus pindexNew pindex.nStatus).connectFailed
              state pindexNew e
        | (world, pindex, .ok view) =>
            ({ s with world := world }.setStatus pindexNew pindex.nStatus).flushTip env
              state view (some pindexNew)

/-! ## `FindMostWorkChain` -/

/-- In case the current best is invalid, do not consider it. -/
def dropInvalidBody (s : ChainState View World) :
    Option (ChainState View World ⊕ ChainState View World) :=
  match s.chainMostWork.tip with
  | none => some (.inl s)
  | some tip =>
      if s.failed tip then
        let s := s.eraseValid tip
        some (.inr { s with
          chainMostWork := s.chainMostWork.setTip s.mapBlockIndex (s.mapBlockIndex.pprev tip) })
      else some (.inl s)

/-- `setBlockIndexValid.rbegin()`. -/
def bestCandidate (env : ChainEnv Block View World) (s : ChainState View World) :
    Option Uint256 :=
  s.setBlockIndexValid.argmax (s.mapBlockIndex.workKey env.address)

/-- The first failed block on the way from a candidate to the active chain. -/
def invalidAncestor (s : ChainState View World) (pindexNew : Uint256) : Option Uint256 :=
  ((s.mapBlockIndex.lineage pindexNew).takeWhile fun pindexTest ↦
    !s.chainActive.contains s.mapBlockIndex pindexTest).find? s.failed

/-- Marks a block as the descendant of a failed one. -/
def failChild (s : ChainState View World) (pindexFailed : Uint256) : ChainState View World :=
  (s.setStatus pindexFailed { s.status pindexFailed with failedChild := true }).eraseValid
    pindexFailed

/-- Candidate has an invalid ancestor, remove entire chain from the set. -/
def failChain (s : ChainState View World) (pindexNew pindexTest : Uint256) :
    ChainState View World :=
  ((s.mapBlockIndex.lineage pindexNew).takeWhile (· ≠ pindexTest)).foldl failChild
    (s.raiseBestInvalid pindexNew)

/-- Find the best candidate header, and check the path between it and the active chain. -/
def candidateBody (env : ChainEnv Block View World) (s : ChainState View World) :
    Option ((ChainState View World × Option Uint256) ⊕ ChainState View World) :=
  match s.bestCandidate env with
  | none => some (.inl (s, none))
  | some pindexNew =>
      match s.invalidAncestor pindexNew with
      | none => some (.inl (s, some pindexNew))
      | some pindexTest => some (.inr (s.failChain pindexNew pindexTest))

/-- Check whether it's actually an improvement. -/
def improveMostWork (env : ChainEnv Block View World) (s : ChainState View World)
    (pindexNew : Uint256) : ChainState View World :=
  if s.chainMostWork.tip.any fun tip ↦
      !s.mapBlockIndex.workComparator env.address tip pindexNew then s
  else { s with chainMostWork := s.chainMostWork.setTip s.mapBlockIndex (some pindexNew) }

/-- `FindMostWorkChain`. -/
def findMostWorkChain (env : ChainEnv Block View World) (s : ChainState View World) :
    Option (ChainState View World) := do
  let s ← Loop.run dropInvalidBody (s.chainMostWork.length + 1) s
  match ← Loop.run (candidateBody env) (s.setBlockIndexValid.length + 1) s with
  | (s, none) => some s
  | (s, some pindexNew) => some (s.improveMostWork env pindexNew)

/-! ## `ActivateBestChain` -/

/-- Disconnect active blocks which are no longer in the best chain. -/
def disconnectBody (env : ChainEnv Block View World) (state : CValidationState)
    (s : ChainState View World) : Option (Result View World ⊕ ChainState View World) :=
  match s.chainActive.tip with
  | none => some (.inl (s, state, .ok ()))
  | some tip =>
      if s.chainMostWork.contains s.mapBlockIndex tip then some (.inl (s, state, .ok ()))
      else
        match s.disconnectTip env state with
        | (s, _, .ok ()) => some (.inr s)
        | (s, state, .error e) => some (.inl (s, state, .error e))

/-- How an iteration of the outer loop ends. -/
inductive Round where
  /-- `fComplete` stays set. -/
  | complete
  /-- The block violates a consensus rule. -/
  | rejected (corruptionPossible : Bool)
  /-- `return false`, or no return. -/
  | failed (failure : TipFailure)
deriving DecidableEq

/-- The part of the loop that follows a failed `ConnectTip`. -/
def connectTipFailed (s : ChainState View World) (state : CValidationState)
    (pindexMostWork : Uint256) (e : TipFailure) :
    ChainState View World × CValidationState × Round :=
  if e.failure.returns && state.isInvalid then
    if state.corruptionPossible then (s, {}, .rejected true)
    else
      match s.invalidChainFound pindexMostWork with
      | .error e => (s, state, .failed (.block e))
      | .ok s => (s, {}, .rejected false)
  else (s, state, .failed e)

/-- Connect new blocks. -/
def connectBody (env : ChainEnv Block View World) (state : CValidationState)
    (pindexMostWork : Uint256) (s : ChainState View World) :
    Option ((ChainState View World × CValidationState × Round) ⊕ ChainState View World) :=
  if s.chainActive.contains s.mapBlockIndex pindexMostWork then
    some (.inl (s, state, .complete))
  else
    match s.chainMostWork[s.chainActive.length]? with
    | none => some (.inl (s, state, .failed (.block .assertion)))
    | some pindexConnect =>
        match s.connectTip env state pindexConnect with
        | (s, _, .ok ()) => some (.inr s)
        | (s, state, .error e) => some (.inl (s.connectTipFailed state pindexMostWork e))

/-- One iteration of `while (!fComplete)`. -/
def activateRound (env : ChainEnv Block View World) (s : ChainState View World)
    (state : CValidationState) :
    Option (ChainState View World × CValidationState × Round) := do
  let s ← s.findMostWorkChain env
  match s.chainMostWork.tip with
  | none => some (s, state, .complete)
  | some pindexMostWork =>
      match ← Loop.run (disconnectBody env state) (s.chainActive.length + 1) s with
      | (s, state, .error e) => some (s, state, .failed e)
      | (s, state, .ok ()) =>
          Loop.run (connectBody env state pindexMostWork) (s.chainMostWork.length + 1) s

/-- The outer loop. -/
def activateBody (env : ChainEnv Block View World)
    (p : ChainState View World × CValidationState) :
    Option (Result View World ⊕ (ChainState View World × CValidationState)) :=
  (p.1.activateRound env p.2).map fun
    | (s, state, .complete) => .inl (s, state, .ok ())
    | (s, state, .rejected _) => .inr (s, state)
    | (s, state, .failed e) => .inl (s, state, .error e)

/-- `ActivateBestChain`. -/
def activateBestChain (env : ChainEnv Block View World) (fuel : Nat)
    (s : ChainState View World) (state : CValidationState) : Option (Result View World) :=
  Loop.run (activateBody env) fuel (s, state)

end ChainState

end Fedoracoin
