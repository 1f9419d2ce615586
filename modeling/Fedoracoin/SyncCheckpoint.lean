import Fedoracoin.ChainRun
import Fedoracoin.Serialize

/-!
# Synchronized checkpoints

The functions of `checkpointsync.cpp` that move `hashSyncCheckpoint` and that test blocks
against it, and the functions of `main.cpp` and `main.h` they rely on.  A `CBlockIndex*` that
may be null is an `Option`, and reading through a null pointer is a failed assertion.  What a
function writes to the log or sends to peers is left out, so that `return error(..)` is
`return false`.

`pindexBest`, `nBestHeight` and `pnext` date from before `chainActive`.  They are in the state
because the functions here read them.
-/

namespace Fedoracoin

variable {Block View World : Type}

/-! ## Messages -/

/-- `CSyncCheckpoint`, with the members of `CUnsignedSyncCheckpoint`. -/
structure CSyncCheckpoint where
  nVersion : Int := 1
  hashCheckpoint : Uint256 := 0
  vchMsg : List UInt8 := []
  vchSig : List UInt8 := []
deriving DecidableEq

namespace CSyncCheckpoint

/-- The members of `CUnsignedSyncCheckpoint`, as they are read from `vchMsg`. -/
def unserializeUnsigned : StreamReader (Int × Uint256) := do
  let nVersion ← readUInt 4
  let hashCheckpoint ← unserializeUint256
  return ((BitVec.ofNat 32 nVersion).toInt, hashCheckpoint)

/-- `CheckSignature`, with the message it leaves.  `verify` is the verification of the hash of
`vchMsg` against `vchSig` under the master key. -/
def checkSignature (verify : List UInt8 → List UInt8 → Bool) (msg : CSyncCheckpoint) :
    Except Failure (Option CSyncCheckpoint) :=
  if !verify msg.vchMsg msg.vchSig then .ok none
  else
    match unserializeUnsigned msg.vchMsg with
    | .error message => .error (.exception message)
    | .ok ((nVersion, hashCheckpoint), _) =>
        .ok (some { msg with nVersion := nVersion, hashCheckpoint := hashCheckpoint })

section

open Wire

/-- The message of `SendSyncCheckpoint`. -/
def signed (hashCheckpoint : Uint256) (vchSig : List UInt8) : CSyncCheckpoint where
  hashCheckpoint := hashCheckpoint
  vchMsg := toBytes 4 1 ++ serializeUint256 hashCheckpoint
  vchSig := vchSig

/-- A message says what it was made of. -/
theorem unserializeUnsigned_signed (hashCheckpoint : Uint256) (vchSig : List UInt8) :
    unserializeUnsigned (signed hashCheckpoint vchSig).vchMsg = .ok ((1, hashCheckpoint), []) := by
  have hversion : Reads (readUInt 4) (toBytes 4 1) 1 := reads_readUInt (by norm_num)
  have hread := hversion.bind (f := fun nVersion ↦ do
    let hashCheckpoint ← unserializeUint256
    return ((BitVec.ofNat 32 nVersion).toInt, hashCheckpoint))
    ((reads_unserializeUint256 hashCheckpoint).map fun hash ↦ ((BitVec.ofNat 32 1).toInt, hash))
  have hall := hread []
  rw [List.append_nil] at hall
  exact hall

end

end CSyncCheckpoint

/-! ## The state -/

/-- The globals of `main.cpp` and `checkpointsync.cpp`. -/
structure SyncNode (View World : Type) where
  chain : ChainState View World
  hashSyncCheckpoint : Uint256 := 0
  hashPendingCheckpoint : Uint256 := 0
  hashInvalidCheckpoint : Uint256 := 0
  checkpointMessage : CSyncCheckpoint := {}
  checkpointMessagePending : CSyncCheckpoint := {}
  pindexBest : Option Uint256 := none
  nBestHeight : Int := -1
  /-- `pindex->pnext`. -/
  pnext : Uint256 → Option Uint256 := fun _ ↦ none

/-- What the block tree database answers to `WriteSyncCheckpoint` and `Sync`. -/
structure CheckpointIO where
  written : Bool := true
  synced : Bool := true
deriving DecidableEq

/-! ## Tracing back -/

section Trace

variable (tree : BlockTree) (nHeight : Nat)

/-- `while (pindex->nHeight > nHeight) if (!(pindex = pindex->pprev)) return error(..);`,
where the error has the value `none`. -/
def traceBody : Option Uint256 → Option (Except Failure (Option Uint256) ⊕ Option Uint256)
  | none => some (.inl (.error .assertion))
  | some pindex =>
      if nHeight < tree.nHeight pindex then
        match tree.pprev pindex with
        | none => some (.inl (.ok none))
        | some pprev => some (.inr (some pprev))
      else some (.inl (.ok (some pindex)))

def traceBack (pindex : Uint256) : Except Failure (Option Uint256) :=
  (Loop.run (traceBody tree nHeight) (tree.nHeight pindex + 1) (some pindex)).getD
    (.error .diverges)

end Trace

namespace SyncNode

/-- `IsInMainChain`. -/
def isInMainChain (s : SyncNode View World) (pindex : Uint256) : Bool :=
  (s.pnext pindex).isSome || decide (s.pindexBest = some pindex)

/-- `SetBestChain`. -/
def setBestChain (s : SyncNode View World) (_pindexNew : Uint256) : SyncNode View World × Bool :=
  (s, true)

/-- `ValidateSyncCheckpoint`. -/
def validateSyncCheckpoint (s : SyncNode View World) (hashCheckpoint : Uint256) :
    SyncNode View World × Except Failure Bool :=
  let tree := s.chain.mapBlockIndex
  if s.hashSyncCheckpoint ∉ tree.entries then (s, .ok false)
  else if hashCheckpoint ∉ tree.entries then (s, .ok false)
  else if tree.nHeight hashCheckpoint ≤ tree.nHeight s.hashSyncCheckpoint then
    -- an older checkpoint, which the current one should descend from
    match traceBack tree (tree.nHeight hashCheckpoint) s.hashSyncCheckpoint with
    | .error e => (s, .error e)
    | .ok none => (s, .ok false)
    | .ok (some pindex) =>
        if pindex ≠ hashCheckpoint then
          ({ s with hashInvalidCheckpoint := hashCheckpoint }, .ok false)
        else (s, .ok false)
  else
    match traceBack tree (tree.nHeight s.hashSyncCheckpoint) hashCheckpoint with
    | .error e => (s, .error e)
    | .ok none => (s, .ok false)
    | .ok (some pindex) =>
        if pindex ≠ s.hashSyncCheckpoint then
          ({ s with hashInvalidCheckpoint := hashCheckpoint }, .ok false)
        else (s, .ok true)

/-- `WriteSyncCheckpoint`. -/
def writeSyncCheckpoint (s : SyncNode View World) (io : CheckpointIO) (hashCheckpoint : Uint256) :
    SyncNode View World × Bool :=
  if !io.written then (s, false)
  else if !io.synced then (s, false)
  else ({ s with hashSyncCheckpoint := hashCheckpoint }, true)

/-- The test that `ProcessSyncCheckpoint` and `AcceptPendingSyncCheckpoint` make before they
write: where checkpoints are enforced, the checkpoint is to be in the main chain. -/
def reorganize (enforced : Bool) (s : SyncNode View World) (hashCheckpoint : Uint256) :
    SyncNode View World × Bool :=
  if enforced && !s.isInMainChain hashCheckpoint then
    match s.setBestChain hashCheckpoint with
    | (s, true) => (s, true)
    | (s, false) => ({ s with hashInvalidCheckpoint := hashCheckpoint }, false)
  else (s, true)

/-- `AcceptPendingSyncCheckpoint`. -/
def acceptPendingSyncCheckpoint (enforced : Bool) (io : CheckpointIO) (s : SyncNode View World) :
    SyncNode View World × Except Failure Bool :=
  if s.hashPendingCheckpoint ≠ 0 ∧ s.hashPendingCheckpoint ∈ s.chain.mapBlockIndex.entries then
    match s.validateSyncCheckpoint s.hashPendingCheckpoint with
    | (s, .error e) => (s, .error e)
    | (s, .ok false) =>
        ({ s with hashPendingCheckpoint := 0, checkpointMessagePending := {} }, .ok false)
    | (s, .ok true) =>
        match s.reorganize enforced s.hashPendingCheckpoint with
        | (s, false) => (s, .ok false)
        | (s, true) =>
            match s.writeSyncCheckpoint io s.hashPendingCheckpoint with
            | (s, false) => (s, .ok false)
            | (s, true) =>
                ({ s with
                  hashPendingCheckpoint := 0
                  checkpointMessage := s.checkpointMessagePending
                  checkpointMessagePending := {} }, .ok true)
  else (s, .ok false)

/-- `ProcessSyncCheckpoint`, from where the signature has been checked. -/
def processChecked (enforced : Bool) (io : CheckpointIO) (s : SyncNode View World)
    (msg : CSyncCheckpoint) : SyncNode View World × Except Failure Bool :=
  if msg.hashCheckpoint ∉ s.chain.mapBlockIndex.entries then
    -- we haven't received the checkpoint chain, keep the checkpoint as pending
    ({ s with
      hashPendingCheckpoint := msg.hashCheckpoint
      checkpointMessagePending := msg }, .ok false)
  else
    match s.validateSyncCheckpoint msg.hashCheckpoint with
    | (s, .error e) => (s, .error e)
    | (s, .ok false) => (s, .ok false)
    | (s, .ok true) =>
        match s.reorganize enforced msg.hashCheckpoint with
        | (s, false) => (s, .ok false)
        | (s, true) =>
            match s.writeSyncCheckpoint io msg.hashCheckpoint with
            | (s, false) => (s, .ok false)
            | (s, true) =>
                ({ s with
                  checkpointMessage := msg
                  hashPendingCheckpoint := 0
                  checkpointMessagePending := {} }, .ok true)

/-- `CSyncCheckpoint::ProcessSyncCheckpoint`. -/
def processSyncCheckpoint (verify : List UInt8 → List UInt8 → Bool) (enforced : Bool)
    (io : CheckpointIO) (s : SyncNode View World) (msg : CSyncCheckpoint) :
    SyncNode View World × Except Failure Bool :=
  match msg.checkSignature verify with
  | .error e => (s, .error e)
  | .ok none => (s, .ok false)
  | .ok (some msg) => s.processChecked enforced io msg

/-- `CheckSyncCheckpoint`. -/
def checkSyncCheckpoint (s : SyncNode View World) (hashBlock : Uint256) :
    (pindexPrev : Option Uint256) → Except Failure Bool
  | none => .error .assertion
  | some pindexPrev => do
      let tree := s.chain.mapBlockIndex
      let nHeight := tree.nHeight pindexPrev + 1
      failIf (decide (s.hashSyncCheckpoint ∉ tree.entries)) .assertion
      let nHeightSync := tree.nHeight s.hashSyncCheckpoint
      if nHeightSync < nHeight then
        -- only descendant of sync-checkpoint can pass check
        let pindex ← traceBack tree nHeightSync pindexPrev
        return pindex.any fun pindex ↦
          !(decide (tree.nHeight pindex < nHeightSync) || decide (pindex ≠ s.hashSyncCheckpoint))
      else if nHeight = nHeightSync then return decide (hashBlock = s.hashSyncCheckpoint)
      else return decide (hashBlock ∈ tree.entries)

/-- The part of `ResetSyncCheckpoint` before it writes. -/
def prepareReset (hash : Uint256) (s : SyncNode View World) : SyncNode View World × Bool :=
  if hash ∈ s.chain.mapBlockIndex.entries then
    if !s.isInMainChain hash then s.setBestChain hash else (s, true)
  else
    -- checkpoint block not yet accepted
    ({ s with hashPendingCheckpoint := hash, checkpointMessagePending := {} }, true)

/-- `ResetSyncCheckpoint`, where `hash` is `Checkpoints::GetLatestHardenedCheckpoint()`. -/
def resetSyncCheckpoint (hashGenesisBlock hash : Uint256) (io : CheckpointIO)
    (s : SyncNode View World) : SyncNode View World × Bool :=
  match s.prepareReset hash with
  | (s, false) => (s, false)
  | (s, true) =>
      s.writeSyncCheckpoint io
        (if hash ∈ s.chain.mapBlockIndex.entries ∧ s.isInMainChain hash = true then hash
          else hashGenesisBlock)

/-- `AutoSelectSyncCheckpoint`, with `nCheckpointDepth` for `-checkpointdepth`. -/
def autoSelectSyncCheckpoint (nCheckpointDepth : Int) (s : SyncNode View World) :
    Except Failure Uint256 :=
  match s.pindexBest with
  | none => .error .assertion
  | some pindexBest =>
      let tree := s.chain.mapBlockIndex
      let tooShallow (pindex : Uint256) : Bool :=
        decide ((tree.nHeight pindexBest : Int) < tree.nHeight pindex + nCheckpointDepth)
      match (tree.lineage pindexBest).find? fun pindex ↦
          !((tree.pprev pindex).isSome && tooShallow pindex) with
      | none => .error .diverges
      | some pindex => .ok pindex

end SyncNode

end Fedoracoin
