import Fedoracoin.MempoolAccept
import Fedoracoin.Activate

/-!
# The pool across `ConnectTip` and `DisconnectTip`

What the two functions do to the pool and to `pcoinsTip`; what they do to the chain is the
subject of `Fedoracoin.Activate`.  `ConnectTip` removes the transactions of the block from
the pool, not recursively, and what conflicts with them, recursively.  `DisconnectTip` offers
the transactions of the block to `AcceptToMemoryPool` one by one, all but the coinbase, and
removes those that it refuses with everything that spends from them.

A call is given what it meets: the clock and the globals that validation reads, the answers of
the disk, and the bound on its recursions.
-/

namespace Fedoracoin

/-! ## The globals -/

/-- What `Flush` leaves of a view on the database, which erases pruned entries. -/
def CCoinsView.flushed (view : CCoinsView) : CCoinsView where
  coins :=
    { entries := view.coins.entries.filter fun e ↦ e.2.isPruned = false
      nodupKeys := Multiset.nodup_keys.mp (Multiset.nodup_of_le
        (Multiset.map_le_map (Multiset.filter_le _ _)) view.coins.nodupKeys.nodup_keys) }
  hashBlock := view.hashBlock

/-- `mempool`, `pcoinsTip` and the undo data on disk by block. -/
structure MempoolState where
  mempool : CTxMemPool
  pcoinsTip : CCoinsView
  undoFiles : Finmap fun _ : Uint256 ↦ CBlockUndo

/-- A node with nothing on disk. -/
def MempoolState.initial : MempoolState := ⟨.empty, ⟨∅, 0⟩, ∅⟩

/-- What the functions use from elsewhere, and what is relied on.  `txs` are the transactions
that occur: their hashes do not collide, and none spends from itself.  The genesis block has
but its coinbase. -/
structure MempoolNode extends BlockEnv where
  /-- What `ReadBlockFromDisk` finds for a block. -/
  readBlock : Uint256 → Option CBlock
  txs : Set CTransaction
  readBlock_mem : ∀ hash block, readBlock hash = some block → ∀ tx ∈ block.vtx, tx ∈ txs
  getTxHash_injOn : Set.InjOn getTxHash txs
  acyclic : Cascade.Acyclic (CTransaction.SpentBy getTxHash) txs
  genesis : ∀ hash block, readBlock hash = some block →
    getBlockHash block.toCBlockHeader = hashGenesisBlock → ∀ tx ∈ block.vtx, tx.isCoinBase = true

/-- The entry of a block in the index. -/
structure MempoolNode.Indexed (node : MempoolNode) (pindex : ConnectIndex) : Prop where
  height : node.mapBlockIndex pindex.blockHash = some pindex.nHeight
  pprev : ∀ hash, pindex.pprev = some hash →
    node.mapBlockIndex hash = some (pindex.nHeight - 1)
  /-- No block has the null hash. -/
  null : node.mapBlockIndex 0 = none

/-- What a call of `ConnectTip` or `DisconnectTip` is given and meets. -/
structure MempoolCall where
  pindex : ConnectIndex
  /-- The header check reads the clock. -/
  checkBlockHeader : (block : CBlockHeader) → (nHeight : Int) → (fCheckPOW : Bool) →
    Except Failure Unit
  tip : TipState
  readBlock : Bool := true
  readUndo : Bool := true
  undoIO : UndoIO := {}
  writeIO : WriteIO := {}
  fuel : Nat
  /-- For the transactions that `DisconnectTip` offers to the pool. -/
  accept : AcceptCall

namespace MempoolNode

/-- The environment of validation during a call. -/
def during (node : MempoolNode) (call : MempoolCall) : BlockEnv :=
  { node.toBlockEnv with checkBlockHeader := call.checkBlockHeader, tip := call.tip }

/-- `ReadBlockFromDisk`. -/
def readBlockFromDisk (node : MempoolNode) (call : MempoolCall) : Option CBlock :=
  if call.readBlock then node.readBlock call.pindex.blockHash else none

end MempoolNode

/-! ## The functions -/

def CTxMemPool.addTransactionsUpdated (pool : CTxMemPool) (n : UInt32) : CTxMemPool :=
  { pool with nTransactionsUpdated := pool.nTransactionsUpdated + n }

/-- The loop of `ConnectTip` over the transactions of the block. -/
def removeConnected (getHash : CTransaction → Uint256) (fuel : Nat) :
    List CTransaction → CTxMemPool × List CTransaction →
      Except Failure (CTxMemPool × List CTransaction)
  | [], s => .ok s
  | tx :: vtx, (pool, txConflicted) => do
      let (pool, _) ← CTxMemPool.remove getHash fuel tx false (pool, [])
      let s ← CTxMemPool.removeConflicts getHash fuel tx (pool, txConflicted)
      removeConnected getHash fuel vtx s

/-- The body of the loop of `DisconnectTip`. -/
def resurrectTx (env : BlockEnv) (call : AcceptCall) (fuel : Nat) (pcoinsTip : CCoinsView)
    (tx : CTransaction) (pool : CTxMemPool) : Except Failure CTxMemPool :=
  if tx.isCoinBase then .ok pool
  else
    match acceptToMemoryPool env { call with fLimitFree := false, fRejectInsaneFee := false }
      pcoinsTip pool tx with
    | .ok pool => .ok pool
    | .error e =>
        if e.returns then do
          let (pool, _) ← CTxMemPool.remove env.getTxHash fuel tx true (pool, [])
          return pool
        else .error e

/-- The loop of `DisconnectTip` over the transactions of the block. -/
def resurrect (env : BlockEnv) (call : AcceptCall) (fuel : Nat) (pcoinsTip : CCoinsView) :
    List CTransaction → CTxMemPool → Except Failure CTxMemPool
  | [], pool => .ok pool
  | tx :: vtx, pool => do
      let pool ← resurrectTx env call fuel pcoinsTip tx pool
      resurrect env call fuel pcoinsTip vtx pool

namespace MempoolState

/-- `pcoinsTip` after a `WriteChainState` that succeeds. -/
def written (io : WriteIO) (view : CCoinsView) : CCoinsView :=
  if io.fWrite then view.flushed else view

/-- The undo files after `ConnectBlock` has left the index entry as `pindex'`. -/
def recordUndo (s : MempoolState) (env : BlockEnv) (fuel : Nat) (block : CBlock)
    (pindex pindex' : ConnectIndex) : MempoolState :=
  if pindex.undoPosIsNull && !pindex'.undoPosIsNull then
    match connectTransactions env fuel block pindex s.pcoinsTip with
    | .ok c => { s with undoFiles := s.undoFiles.insert pindex.blockHash ⟨c.vtxundo⟩ }
    | .error _ => s
  else s

def accept (node : MempoolNode) (call : AcceptCall) (tx : CTransaction) (s : MempoolState) :
    MempoolState × Except Failure Unit :=
  match acceptToMemoryPool node.toBlockEnv call s.pcoinsTip s.mempool tx with
  | .error e => (s, .error e)
  | .ok pool => ({ s with mempool := pool }, .ok ())

def connectTip (node : MempoolNode) (call : MempoolCall) (s : MempoolState) :
    MempoolState × Except Failure Unit :=
  match node.readBlockFromDisk call with
  | none => (s, .error (.abort "Connect a new block to chainActive,Failed to read block."))
  | some block =>
      let env := node.during call
      let (pindex, connected) :=
        connectBlock env call.undoIO call.fuel block call.pindex s.pcoinsTip false
      let s := s.recordUndo env call.fuel block call.pindex pindex
      match connected with
      | .error e => (s, .error e)
      | .ok r =>
          match writeChainState call.writeIO with
          | .error e => ({ s with pcoinsTip := r.view }, .error e)
          | .ok () =>
              let s := { s with pcoinsTip := written call.writeIO r.view }
              match removeConnected node.getTxHash call.fuel block.vtx (s.mempool, []) with
              | .error e => (s, .error e)
              | .ok (pool, _) => ({ s with mempool := pool.addTransactionsUpdated 1 }, .ok ())

def disconnectTip (node : MempoolNode) (call : MempoolCall) (s : MempoolState) :
    MempoolState × Except Failure Unit :=
  match node.readBlockFromDisk call with
  | none => (s, .error (.abort "DisconnectTip,Failed to read block"))
  | some block =>
      let undoData := if call.readUndo then s.undoFiles.lookup call.pindex.blockHash else none
      match disconnectBlock (node.during call) undoData block call.pindex s.pcoinsTip with
      | .error e => (s, .error e)
      | .ok (false, _) => (s, .error (.error "DisconnectTip() : DisconnectBlock failed"))
      | .ok (true, view) =>
          match writeChainState call.writeIO with
          | .error e => ({ s with pcoinsTip := view }, .error e)
          | .ok () =>
              let s := { s with pcoinsTip := written call.writeIO view }
              match resurrect node.toBlockEnv call.accept call.fuel s.pcoinsTip block.vtx
                s.mempool with
              | .error e => (s, .error e)
              | .ok pool => ({ s with mempool := pool.addTransactionsUpdated 1 }, .ok ())

/-- The calls. -/
inductive Op where
  | accept (call : AcceptCall) (tx : CTransaction)
  | connectTip (call : MempoolCall)
  | disconnectTip (call : MempoolCall)

def apply (node : MempoolNode) (s : MempoolState) : Op → MempoolState × Except Failure Unit
  | .accept call tx => s.accept node call tx
  | .connectTip call => s.connectTip node call
  | .disconnectTip call => s.disconnectTip node call

/-- What a call may be given. -/
def Op.Admissible (node : MempoolNode) : Op → Prop
  | .accept _ tx => tx ∈ node.txs
  | .connectTip call | .disconnectTip call => node.Indexed call.pindex

/-- A call that returns, with or without success. -/
structure Step (node : MempoolNode) (s : MempoolState) (op : Op) (s' : MempoolState) : Prop where
  admissible : op.Admissible node
  state : (s.apply node op).1 = s'
  returns : ∀ e, (s.apply node op).2 = .error e → e.returns = true

end MempoolState

end Fedoracoin
