import Fedoracoin.Coins
import Fedoracoin.Subsidy
import Fedoracoin.Lib.Run

/-!
# Connecting and disconnecting a block

`CheckBlock`, `ConnectBlock` and `DisconnectBlock` of `main.cpp`, over the coins view
of `Fedoracoin.Coins`.  What these functions take from elsewhere (hashes, the header
check, signature operation counts, scripts, the block index, the current tip) is collected
in `BlockEnv`, and what the disk answers in `UndoIO`.
-/

namespace Fedoracoin

/-! ## Blocks and index entries -/

structure CBlockHeader where
  nVersion : Int := 2
  hashPrevBlock : Uint256
  hashMerkleRoot : Uint256
  nTime : Nat
  nBits : Nat
  nNonce : Nat
deriving DecidableEq

structure CBlock extends CBlockHeader where
  vtx : List CTransaction
deriving DecidableEq

structure CBlockUndo where
  vtxundo : List CTxUndo
deriving DecidableEq

/-- The levels of `BlockStatus` below `BLOCK_VALID_MASK`. -/
def blockValidScripts : Nat := 5

/-- `nStatus`: the validity level and the flags. -/
structure BlockStatus where
  valid : Nat := 0
  haveData : Bool := false
  haveUndo : Bool := false
  failedValid : Bool := false
  failedChild : Bool := false
deriving DecidableEq

/-- The part of a block index entry that connecting and disconnecting uses.  `pprev` is
given by its hash; `nUndoPos` is null unless `BLOCK_HAVE_UNDO` is set. -/
structure ConnectIndex where
  blockHash : Uint256
  pprev : Option Uint256
  nHeight : Int
  nStatus : BlockStatus

namespace ConnectIndex

/-- `GetUndoPos().IsNull()`. -/
def undoPosIsNull (pindex : ConnectIndex) : Bool := !pindex.nStatus.haveUndo

end ConnectIndex

/-- What block validation takes from elsewhere. -/
structure BlockEnv where
  /-- `CTransaction::GetHash`. -/
  getTxHash : CTransaction → Uint256
  /-- `CBlockHeader::GetHash`. -/
  getBlockHash : CBlockHeader → Uint256
  /-- `Hash` of two hashes next to each other. -/
  hash : Uint256 → Uint256 → Uint256
  hashGenesisBlock : Uint256
  checkBlockHeader : (block : CBlockHeader) → (nHeight : Int) → (fCheckPOW : Bool) →
    Except Failure Unit
  getLegacySigOpCount : CTransaction → Nat
  getP2SHSigOpCount : CTransaction → CCoinsView → Nat
  verifyScript : CScriptCheck → Bool
  /-- The heights of the blocks in the index. -/
  mapBlockIndex : Uint256 → Option Int
  /-- `Checkpoints::GetTotalBlocksEstimate`. -/
  totalBlocksEstimate : Int
  /-- `nScriptCheckThreads != 0`. -/
  scriptCheckThreads : Bool
  uniformInt : UniformInt
  tip : TipState

/-! ## `CheckBlock` -/

/-- One level of the merkle tree above another; an odd node is paired with itself. -/
def merkleLevel (hash : Uint256 → Uint256 → Uint256) : List Uint256 → List Uint256
  | [] => []
  | [a] => [hash a a]
  | a :: b :: rest => hash a b :: merkleLevel hash rest

/-- The nodes of the merkle tree, level by level; `n` bounds the number of levels. -/
def merkleTree (hash : Uint256 → Uint256 → Uint256) : (n : Nat) → List Uint256 → List Uint256
  | 0, level => level
  | n + 1, level =>
      if 1 < level.length then level ++ merkleTree hash n (merkleLevel hash level) else level

/-- `block.vMerkleTree` after `BuildMerkleTree`.  Its first elements are the transaction
ids, which is where `GetTxHash` reads them. -/
def buildMerkleTree (env : BlockEnv) (block : CBlock) : List Uint256 :=
  merkleTree env.hash block.vtx.length (block.vtx.map env.getTxHash)

def CBlock.getSerializeSize (block : CBlock) : Nat :=
  80 + getSizeOfCompactSize block.vtx.length +
    (block.vtx.map CTransaction.getSerializeSize).sum

def maxBlockSigops : Nat := maxBlockSize / 50

def checkBlock (env : BlockEnv) (block : CBlock) (nHeight : Int)
    (fCheckPOW fCheckMerkleRoot : Bool) : Except Failure Unit := do
  env.checkBlockHeader block.toCBlockHeader nHeight fCheckPOW
  failIf (block.vtx.isEmpty || decide (maxBlockSize < block.vtx.length) ||
      decide (maxBlockSize < block.getSerializeSize))
    (.dos 100 rejectInvalid "bad-blk-length")
  failIf (!(block.vtx.head?.any CTransaction.isCoinBase))
    (.dos 100 rejectInvalid "bad-cb-missing")
  failIf (block.vtx.tail.any CTransaction.isCoinBase) (.dos 100 rejectInvalid "bad-cb-multiple")
  block.vtx.forM checkTransaction
  failIf ((block.vtx.map env.getTxHash).toFinset.card != block.vtx.length)
    (.dos 100 rejectInvalid "bad-txns-duplicate" true)
  failIf (decide (maxBlockSigops < (block.vtx.map env.getLegacySigOpCount).sum))
    (.dos 100 rejectInvalid "bad-blk-sigops" true)
  failIf (fCheckMerkleRoot &&
      (buildMerkleTree env block).getLast? != some block.hashMerkleRoot)
    (.dos 100 rejectInvalid "bad-txnmrklroot" true)

/-! ## `ConnectBlock` -/

/-- The variables of the loop over the transactions. -/
structure ConnectState where
  view : CCoinsView
  nFees : Int64 := 0
  nSigOps : Nat := 0
  vtxundo : List CTxUndo := []
  /-- The checks handed to the queue. -/
  queued : List CScriptCheck := []

def scriptFlags : Nat := scriptVerifyNocache ||| scriptVerifyP2sh

/-- The part of the loop that only concerns transactions that are not coinbases. -/
def connectInputs (env : BlockEnv) (fScriptChecks : Bool) (s : ConnectState)
    (tx : CTransaction) : Except Failure ConnectState := do
  failIf (!s.view.haveInputs tx) (.dos 100 rejectInvalid "bad-txns-inputs-missingorspent")
  let nSigOps := s.nSigOps + env.getP2SHSigOpCount tx s.view
  failIf (decide (maxBlockSigops < nSigOps)) (.dos 100 rejectInvalid "bad-blk-sigops")
  let nValueIn ← s.view.getValueIn tx
  let nValueOut ← tx.valueOut
  let vChecks ← s.view.checkInputs env.mapBlockIndex env.verifyScript tx fScriptChecks
    scriptFlags env.scriptCheckThreads
  return { s with
    nSigOps := nSigOps
    nFees := s.nFees + (nValueIn - nValueOut)
    queued := s.queued ++ vChecks }

/-- The body of the loop over the transactions. -/
def connectTx (env : BlockEnv) (nHeight : Int) (fScriptChecks : Bool) (s : ConnectState)
    (tx : CTransaction) : Except Failure ConnectState := do
  let nSigOps := s.nSigOps + env.getLegacySigOpCount tx
  failIf (decide (maxBlockSigops < nSigOps)) (.dos 100 rejectInvalid "bad-blk-sigops")
  let s := { s with nSigOps := nSigOps }
  let s ← if tx.isCoinBase then .ok s else connectInputs env fScriptChecks s tx
  let (view, txundo) ← s.view.updateCoins tx nHeight (env.getTxHash tx)
  return { s with
    view := view
    vtxundo := if tx.isCoinBase then s.vtxundo else s.vtxundo ++ [txundo] }

/-- The loop over the transactions. -/
def connectTxs (env : BlockEnv) (nHeight : Int) (fScriptChecks : Bool) (s : ConnectState) :
    List CTransaction → Except Failure ConnectState
  | [] => .ok s
  | tx :: vtx => do
      let s ← connectTx env nHeight fScriptChecks s tx
      connectTxs env nHeight fScriptChecks s vtx

/-- The coinbase limit, `GetBlockValue` with the recursion bounded by `fuel`. -/
def blockValue (env : BlockEnv) (fuel : Nat) (nHeight : Int) (nFees : Int64)
    (prevHash : Uint256) : Except Failure UInt64 :=
  match getBlockValue env.uniformInt env.tip fuel nHeight nFees prevHash with
  | some v => .ok v
  | none => .error .diverges

/-- `ConnectBlock` between the genesis block's special case and the writing of the undo
data. -/
def connectTransactions (env : BlockEnv) (fuel : Nat) (block : CBlock) (pindex : ConnectIndex)
    (view : CCoinsView) : Except Failure ConnectState := do
  let fScriptChecks := decide (env.totalBlocksEstimate ≤ pindex.nHeight)
  failIf (block.vtx.any fun tx ↦
      view.haveCoins (env.getTxHash tx) && !(view.getCoins (env.getTxHash tx)).isPruned)
    (.dos 100 rejectInvalid "bad-txns-BIP30")
  let s ← connectTxs env pindex.nHeight fScriptChecks { view := view } block.vtx
  match block.vtx with
  | [] => .error .assertion
  | coinbase :: _ => do
      let nValueOut ← coinbase.valueOut
      let limit ← blockValue env fuel pindex.nHeight s.nFees (pindex.pprev.getD 0)
      -- an `int64_t` is compared with a `uint64_t`
      failIf (decide (limit < nValueOut.toUInt64)) (.dos 100 rejectInvalid "bad-cb-amount")
      failIf (!(s.queued.all env.verifyScript)) (.dos 100)
      return s

/-- What the disk answers while the undo data is written. -/
structure UndoIO where
  findUndoPos : Bool := true
  writeUndo : Bool := true
  writeBlockIndex : Bool := true
  /-- `WriteTxIndex`, or `fTxIndex` unset. -/
  writeTxIndex : Bool := true

/-- The writing of the undo data, with the index entry as it is left. -/
def writeUndoData (io : UndoIO) (pindex : ConnectIndex) : ConnectIndex × Except Failure Unit :=
  if pindex.undoPosIsNull && !io.findUndoPos then (pindex, .error (.abort "out of disk space"))
  else if pindex.undoPosIsNull && pindex.pprev.isNone then (pindex, .error .assertion)
  else if pindex.undoPosIsNull && !io.writeUndo then
    (pindex, .error (.abort "Failed to write undo data"))
  else if pindex.undoPosIsNull || decide (pindex.nStatus.valid < blockValidScripts) then
    let pindex := { pindex with
      nStatus := { pindex.nStatus with haveUndo := true, valid := blockValidScripts } }
    (pindex, failIf (!io.writeBlockIndex) (.abort "Failed to write block index"))
  else (pindex, .ok ())

/-- What a successful `ConnectBlock` yields. -/
structure Connected where
  view : CCoinsView
  blockundo : CBlockUndo

/-- `ConnectBlock`, with the index entry as it is left. -/
def connectBlock (env : BlockEnv) (io : UndoIO) (fuel : Nat) (block : CBlock)
    (pindex : ConnectIndex) (view : CCoinsView) (fJustCheck : Bool) :
    ConnectIndex × Except Failure Connected :=
  match checkBlock env block pindex.nHeight (!fJustCheck) (!fJustCheck) with
  | .error e => (pindex, .error e)
  | .ok () =>
      if view.hashBlock ≠ pindex.pprev.getD 0 then (pindex, .error .assertion)
      else if env.getBlockHash block.toCBlockHeader = env.hashGenesisBlock then
        (pindex, .ok ⟨view.setBestBlock pindex.blockHash, ⟨[]⟩⟩)
      else
        match connectTransactions env fuel block pindex view with
        | .error e => (pindex, .error e)
        | .ok s =>
            if fJustCheck then (pindex, .ok ⟨s.view, ⟨s.vtxundo⟩⟩)
            else
              let (pindex, written) := writeUndoData io pindex
              (pindex, do
                written
                failIf (!io.writeTxIndex) (.abort "Failed to write transaction index")
                return ⟨s.view.setBestBlock pindex.blockHash, ⟨s.vtxundo⟩⟩)

/-! ## `DisconnectBlock` -/

/-- The view being rolled back, and whether everything matched so far. -/
structure UndoState where
  view : CCoinsView
  fClean : Bool := true

/-- Restores one input from its undo record. -/
def restoreInput (s : UndoState) (p : CTxIn × CTxInUndo) : Except Failure UndoState :=
  let out := p.1.prevout
  let (coins, clean) := (s.view.getCoins out.hash).restore out.n p.2
  .ok { view := s.view.setCoins out.hash coins, fClean := s.fClean && clean }

/-- Checks that the outputs of a transaction are as the block made them, and removes them. -/
def removeOutputs (env : BlockEnv) (nHeight : Int) (s : UndoState) (tx : CTransaction) :
    UndoState :=
  let hash := env.getTxHash tx
  let outs := (s.view.getCoins hash).clearUnspendable
  let outsBlock := CCoins.ofTx tx nHeight
  let outs :=
    if outsBlock.nVersion < 0 then { outs with nVersion := outsBlock.nVersion } else outs
  { view := if s.view.haveCoins hash then s.view.setCoins hash {} else s.view
    fClean := s.fClean && outs.eq outsBlock }

/-- Undoes one transaction; there is no undo record for the first one of the block. -/
def disconnectTx (env : BlockEnv) (nHeight : Int) (s : UndoState)
    (p : CTransaction × Option CTxUndo) : Except Failure UndoState :=
  let (tx, txundo) := p
  let s := removeOutputs env nHeight s tx
  match txundo with
  | none => .ok s
  | some txundo => do
      failIf (decide (txundo.vprevout.length ≠ tx.vin.length))
        (.error "DisconnectBlock() : transaction and undo data inconsistent")
      Run.undoAll restoreInput s (tx.vin.zip txundo.vprevout)

/-- `DisconnectBlock`, returning `*pfClean` and the view.  `undoData` is what
`ReadFromDisk` gives. -/
def disconnectBlock (env : BlockEnv) (undoData : Option CBlockUndo) (block : CBlock)
    (pindex : ConnectIndex) (view : CCoinsView) : Except Failure (Bool × CCoinsView) := do
  failIf (decide (view.hashBlock ≠ pindex.blockHash)) .assertion
  failIf pindex.undoPosIsNull (.error "DisconnectBlock() : no undo data available")
  match pindex.pprev, undoData with
  | none, _ => .error .assertion
  | some _, none => .error (.error "DisconnectBlock() : failure reading undo data")
  | some hashPrev, some blockUndo => do
      failIf (decide (blockUndo.vtxundo.length + 1 ≠ block.vtx.length))
        (.error "DisconnectBlock() : block and undo data inconsistent")
      let s ← Run.undoAll (disconnectTx env pindex.nHeight) { view := view }
        (block.vtx.zip (none :: blockUndo.vtxundo.map some))
      return (s.fClean, s.view.setBestBlock hashPrev)

end Fedoracoin
