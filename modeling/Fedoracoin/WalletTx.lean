import Fedoracoin.MempoolTip
import Mathlib.Data.Finset.Sort

/-!
# The transactions of the wallet

The part of `CWallet` that keeps transactions: how they are added and synced, when their outputs
are spent, and `GetAvailableCredit` with its cache.  The keys of the wallet are in `isMine`, and
do not change.  `fMerkleVerified`, which saves the check of a branch that was checked before, is
left out.
-/

namespace Fedoracoin

/-! ## Transactions with a branch -/

structure CMerkleTx where
  tx : CTransaction
  hashBlock : Uint256 := 0
  vMerkleBranch : List Uint256 := []
  nIndex : Int := -1
deriving DecidableEq

/-- Of the caches, that of `GetAvailableCredit`. -/
structure CWalletTx extends CMerkleTx where
  fAvailableCreditCached : Bool := false
  nAvailableCreditCached : Int64 := 0

/-- What the functions of the wallet use from elsewhere. -/
structure WalletEnv where
  node : MempoolNode
  /-- `ReadBlockFromDisk` compares the hash. -/
  readBlock_hash : ∀ hash block, node.readBlock hash = some block →
    node.getBlockHash block.toCBlockHeader = hash
  /-- `pindex->hashMerkleRoot`. -/
  hashMerkleRoot : Uint256 → Uint256
  /-- `IsMine(*this, scriptPubKey)`. -/
  isMine : CScript → Bool

namespace CMerkleTx

/-- The loop of `GetMerkleBranch`, with `j` and `nSize`, for at most `n` levels. -/
def getMerkleBranchLoop (vMerkleTree : List Uint256) :
    (n nIndex j nSize : Nat) → List Uint256
  | 0, _, _, _ => []
  | n + 1, nIndex, j, nSize =>
      if 1 < nSize then
        vMerkleTree.getD (j + min (nIndex ^^^ 1) (nSize - 1)) 0 ::
          getMerkleBranchLoop vMerkleTree n (nIndex >>> 1) (j + nSize) ((nSize + 1) / 2)
      else []

def getMerkleBranch (env : BlockEnv) (block : CBlock) (nIndex : Nat) : List Uint256 :=
  getMerkleBranchLoop (buildMerkleTree env block) block.vtx.length nIndex 0 block.vtx.length

/-- The loop of `CheckMerkleBranch`. -/
def foldMerkleBranch (env : BlockEnv) (hash : Uint256) : List Uint256 → Nat → Uint256
  | [], _ => hash
  | otherside :: vMerkleBranch, nIndex =>
      foldMerkleBranch env
        (if nIndex % 2 = 1 then env.hash otherside hash else env.hash hash otherside)
        vMerkleBranch (nIndex >>> 1)

def checkMerkleBranch (env : BlockEnv) (hash : Uint256) (vMerkleBranch : List Uint256)
    (nIndex : Int) : Uint256 :=
  if nIndex = -1 then 0 else foldMerkleBranch env hash vMerkleBranch nIndex.toNat

/-- `SetMerkleBranch` for a block. -/
def setMerkleBranch (env : BlockEnv) (block : CBlock) (mtx : CMerkleTx) : CMerkleTx :=
  let mtx := { mtx with hashBlock := env.getBlockHash block.toCBlockHeader }
  match block.vtx.findIdx? (· = mtx.tx) with
  | none => { mtx with vMerkleBranch := [], nIndex := -1 }
  | some nIndex => { mtx with vMerkleBranch := getMerkleBranch env block nIndex, nIndex := nIndex }

end CMerkleTx

/-! ## Depths -/

/-- What depths are read from: `chainActive`, from the genesis block on, and `mempool`. -/
structure ChainView where
  chainActive : List Uint256
  mempool : CTxMemPool

namespace ChainView

variable (env : WalletEnv) (c : ChainView) (mtx : CMerkleTx)

def height : Int := c.chainActive.length - 1

/-- `chainActive.Contains(pindex)`. -/
def contains (hash : Uint256) (nHeight : Int) : Bool :=
  0 ≤ nHeight && c.chainActive[nHeight.toNat]? == some hash

/-- `GetDepthInMainChainINTERNAL`. -/
def getDepthInChain : Int :=
  if mtx.hashBlock = 0 ∨ mtx.nIndex = -1 then 0
  else
    match env.node.mapBlockIndex mtx.hashBlock with
    | none => 0
    | some nHeight =>
        if !c.contains mtx.hashBlock nHeight then 0
        else if CMerkleTx.checkMerkleBranch env.node.toBlockEnv (env.node.getTxHash mtx.tx)
            mtx.vMerkleBranch mtx.nIndex ≠ env.hashMerkleRoot mtx.hashBlock then 0
        else c.height - nHeight + 1

def getDepthInMainChain : Int :=
  let nResult := c.getDepthInChain env mtx
  if nResult = 0 ∧ c.mempool.exists (env.node.getTxHash mtx.tx) = false then -1 else nResult

def getBlocksToMaturity : Int :=
  if !mtx.tx.isCoinBase then 0
  else
    let nHeight := c.height - c.getDepthInMainChain env mtx + 1
    max 0 (getRequiredMaturityDepth nHeight + 20 - c.getDepthInMainChain env mtx)

end ChainView

/-! ## The wallet -/

namespace CWalletTx

def markDirty (wtx : CWalletTx) : CWalletTx := { wtx with fAvailableCreditCached := false }

/-- The merge in `AddToWallet`, and whether it changes anything.  `fFromMe` is left out. -/
def merge (wtx : CWalletTx) (wtxIn : CMerkleTx) : CWalletTx × Bool :=
  let fBlock := decide (wtxIn.hashBlock ≠ 0 ∧ wtxIn.hashBlock ≠ wtx.hashBlock)
  let fBranch := decide (wtxIn.nIndex ≠ -1 ∧
    (wtxIn.vMerkleBranch ≠ wtx.vMerkleBranch ∨ wtxIn.nIndex ≠ wtx.nIndex))
  ({ wtx with
      hashBlock := if fBlock then wtxIn.hashBlock else wtx.hashBlock
      vMerkleBranch := if fBranch then wtxIn.vMerkleBranch else wtx.vMerkleBranch
      nIndex := if fBranch then wtxIn.nIndex else wtx.nIndex }, fBlock || fBranch)

end CWalletTx

/-- The keys of a map, in the order in which it is walked. -/
def sortedKeys {n : Nat} (keys : Finset (BitVec n)) : List (BitVec n) := keys.sort (· ≤ ·)

/-- The part of `CWallet` about transactions. -/
structure CWallet where
  mapWallet : Finmap fun _ : Uint256 ↦ CWalletTx
  mapTxSpends : List (COutPoint × Uint256)

namespace CWallet

/-- The entries of `mapWallet`, in the order of the keys. -/
def items (w : CWallet) : List (Uint256 × CWalletTx) :=
  (sortedKeys w.mapWallet.keys).filterMap fun hash ↦
    (w.mapWallet.lookup hash).map fun wtx ↦ (hash, wtx)

theorem mem_items {w : CWallet} {hash : Uint256} {wtx : CWalletTx} :
    (hash, wtx) ∈ w.items ↔ w.mapWallet.lookup hash = some wtx := by
  rw [items, List.mem_filterMap]
  constructor
  · rintro ⟨hash', -, h⟩
    obtain ⟨wtx', hl, heq⟩ := Option.map_eq_some_iff.mp h
    obtain ⟨rfl, rfl⟩ := Prod.mk.inj heq
    exact hl
  · intro h
    refine ⟨hash, ?_, by rw [h, Option.map_some]⟩
    rw [sortedKeys, Finset.mem_sort, Finmap.mem_keys]
    exact Finmap.mem_iff.mpr ⟨wtx, h⟩

variable (env : WalletEnv) (w : CWallet)

/-- `GetDebit` of an input. -/
def getDebitIn (txin : CTxIn) : Int64 :=
  match w.mapWallet.lookup txin.prevout.hash with
  | none => 0
  | some prev =>
      match prev.tx.vout[txin.prevout.n]? with
      | none => 0
      | some txout => if env.isMine txout.scriptPubKey then txout.nValue else 0

def getDebit (tx : CTransaction) : Except Failure Int64 :=
  tx.vin.foldlM (fun nDebit txin ↦ do
    let nDebit := nDebit + w.getDebitIn env txin
    failIf (!moneyRange nDebit) (.exception "CWallet::GetDebit() : value out of range")
    return nDebit) 0

/-- `IsMine(tx) || IsFromMe(tx)`. -/
def involvesMe (tx : CTransaction) : Except Failure Bool :=
  if tx.vout.any fun txout ↦ env.isMine txout.scriptPubKey then .ok true
  else do
    let nDebit ← w.getDebit env tx
    return decide (0 < nDebit)

/-- `AddToSpends` of a transaction. -/
def addToSpends (tx : CTransaction) : List (COutPoint × Uint256) :=
  if tx.isCoinBase then []
  else tx.vin.map fun txin ↦ (txin.prevout, env.node.getTxHash tx)

/-- `AddToWallet`; `fWritten` is what `WriteToDisk` returns. -/
def addToWallet (fWritten : Bool) (wtxIn : CMerkleTx) : Bool × CWallet :=
  let hash := env.node.getTxHash wtxIn.tx
  match w.mapWallet.lookup hash with
  | none =>
      (fWritten,
        { mapWallet := w.mapWallet.insert hash { wtxIn with }
          mapTxSpends := addToSpends env wtxIn.tx ++ w.mapTxSpends })
  | some wtx =>
      let (wtx, fUpdated) := wtx.merge wtxIn
      (!fUpdated || fWritten, { w with mapWallet := w.mapWallet.insert hash wtx.markDirty })

/-- `AddToWalletIfInvolvingMe`, with `fUpdate`. -/
def addToWalletIfInvolvingMe (fWritten : Bool) (tx : CTransaction) (pblock : Option CBlock) :
    Except Failure (Bool × CWallet) := do
  let fExisted := (w.mapWallet.lookup (env.node.getTxHash tx)).isSome
  let fInvolved ← if fExisted then pure true else w.involvesMe env tx
  if !fInvolved then return (false, w)
  let wtx : CMerkleTx := { tx := tx }
  return w.addToWallet env fWritten
    (pblock.elim wtx fun block ↦ wtx.setMerkleBranch env.node.toBlockEnv block)

/-- The loop of `SyncTransaction`. -/
def markSpentDirty (w : CWallet) (vin : List CTxIn) : CWallet :=
  vin.foldl (fun w txin ↦
    match w.mapWallet.lookup txin.prevout.hash with
    | none => w
    | some wtx => { w with mapWallet := w.mapWallet.insert txin.prevout.hash wtx.markDirty }) w

def syncTransaction (fWritten : Bool) (tx : CTransaction) (pblock : Option CBlock) :
    Except Failure CWallet := do
  let (fAdded, w) ← w.addToWalletIfInvolvingMe env fWritten tx pblock
  return if fAdded then w.markSpentDirty tx.vin else w

/-- The calls of `SyncTransaction`, of which the one at `i` finds `disk i`. -/
def syncTransactions (disk : Nat → Bool) : (i : Nat) → List (CTransaction × Option CBlock) →
    CWallet → Except Failure CWallet
  | _, [], w => .ok w
  | i, (tx, pblock) :: syncs, w => do
      let w ← w.syncTransaction env (disk i) tx pblock
      syncTransactions disk (i + 1) syncs w

variable (c : ChainView)

/-- `mit != mapWallet.end() && mit->second.GetDepthInMainChain() >= 0`. -/
def isLive (wtxid : Uint256) : Bool :=
  match w.mapWallet.lookup wtxid with
  | none => false
  | some wtx => 0 ≤ c.getDepthInMainChain env wtx.toCMerkleTx

def isSpent (outpoint : COutPoint) : Bool :=
  w.mapTxSpends.any fun spend ↦ spend.1 = outpoint && w.isLive env c spend.2

/-- `GetCredit` of an output. -/
def getCredit (txout : CTxOut) : Except Failure Int64 :=
  if !moneyRange txout.nValue then
    .error (.exception "CWallet::GetCredit() : value out of range")
  else .ok (if env.isMine txout.scriptPubKey then txout.nValue else 0)

/-- The loop of `GetAvailableCredit`. -/
def availableCredit (tx : CTransaction) : Except Failure Int64 :=
  tx.vout.zipIdx.foldlM (fun nCredit (txout, i) ↦
    if w.isSpent env c ⟨env.node.getTxHash tx, i⟩ then .ok nCredit
    else do
      let nCredit := nCredit + (← getCredit env txout)
      failIf (!moneyRange nCredit)
        (.exception "CWalletTx::GetAvailableCredit() : value out of range")
      return nCredit) 0

/-- `GetAvailableCredit` of a transaction of the wallet, and the transaction it leaves. -/
def getAvailableCredit (fUseCache : Bool) (wtx : CWalletTx) : Except Failure Int64 × CWalletTx :=
  if wtx.tx.isCoinBase ∧ 0 < c.getBlocksToMaturity env wtx.toCMerkleTx then (.ok 0, wtx)
  else if fUseCache && wtx.fAvailableCreditCached then (.ok wtx.nAvailableCreditCached, wtx)
  else
    match w.availableCredit env c wtx.tx with
    | .error e => (.error e, wtx)
    | .ok nCredit =>
        (.ok nCredit,
          { wtx with fAvailableCreditCached := true, nAvailableCreditCached := nCredit })

end CWallet

/-! ## The node with its wallet -/

/-- What `SyncTransaction` is called with by `DisconnectTip` as it puts back the transactions of
the block, and what the calls of `mempool.remove` give for `removed`. -/
def resurrectLog (env : BlockEnv) (call : AcceptCall) (fuel : Nat) (pcoinsTip : CCoinsView) :
    List CTransaction → CTxMemPool → List CTransaction × List CTransaction
  | [], _ => ([], [])
  | tx :: vtx, pool =>
      let (accepted, removed) :=
        if tx.isCoinBase then ([], [])
        else
          match acceptToMemoryPool env { call with fLimitFree := false, fRejectInsaneFee := false }
            pcoinsTip pool tx with
          | .ok _ => ([tx], [])
          | .error _ =>
              match CTxMemPool.remove env.getTxHash fuel tx true (pool, []) with
              | .ok (_, removed) => ([], removed)
              | .error _ => ([], [])
      match resurrectTx env call fuel pcoinsTip tx pool with
      | .error _ => (accepted, removed)
      | .ok pool =>
          let rest := resurrectLog env call fuel pcoinsTip vtx pool
          (accepted ++ rest.1, removed ++ rest.2)

structure WalletNode where
  pool : MempoolState
  chainActive : List Uint256
  wallet : CWallet

/-- A call, with what `WriteToDisk` returns to the calls of `SyncTransaction` it makes. -/
inductive WalletOp where
  | accept (call : AcceptCall) (tx : CTransaction) (disk : Nat → Bool)
  | connectTip (call : MempoolCall) (disk : Nat → Bool)
  | disconnectTip (call : MempoolCall) (disk : Nat → Bool)
  | getAvailableCredit (hash : Uint256) (fUseCache : Bool)

namespace WalletNode

variable (env : WalletEnv) (s : WalletNode)

def view : ChainView := ⟨s.chainActive, s.pool.mempool⟩

/-- What `ConnectTip` calls `SyncTransaction` with: `ConnectBlock` does for the transactions of the
block, but the genesis block, and `ConnectTip` for what conflicts with them, and for them again. -/
def connectSyncs (call : MempoolCall) : List (CTransaction × Option CBlock) :=
  match env.node.readBlockFromDisk call with
  | none => []
  | some block =>
      match (connectBlock (env.node.during call) call.undoIO call.fuel block call.pindex
        s.pool.pcoinsTip false).2 with
      | .error _ => []
      | .ok _ =>
          (if env.node.getBlockHash block.toCBlockHeader = env.node.hashGenesisBlock then []
            else block.vtx.map (·, some block)) ++
          match writeChainState call.writeIO with
          | .error _ => []
          | .ok () =>
              match removeConnected env.node.getTxHash call.fuel block.vtx
                (s.pool.mempool, []) with
              | .error _ => []
              | .ok (_, txConflicted) =>
                  txConflicted.map (·, none) ++ block.vtx.map (·, some block)

/-- What `DisconnectTip` offers to `AcceptToMemoryPool`, with what is left of it. -/
def disconnectLog (call : MempoolCall) : List CTransaction × List CTransaction :=
  match env.node.readBlockFromDisk call with
  | none => ([], [])
  | some block =>
      let undoData :=
        if call.readUndo then s.pool.undoFiles.lookup call.pindex.blockHash else none
      match disconnectBlock (env.node.during call) undoData block call.pindex s.pool.pcoinsTip with
      | .ok (true, view) =>
          match writeChainState call.writeIO with
          | .error _ => ([], [])
          | .ok () =>
              resurrectLog env.node.toBlockEnv call.accept call.fuel
                (MempoolState.written call.writeIO view) block.vtx s.pool.mempool
      | _ => ([], [])

def disconnectSyncs (call : MempoolCall) : List (CTransaction × Option CBlock) :=
  (s.disconnectLog env call).1.map (·, none) ++
    ((env.node.readBlockFromDisk call).elim [] CBlock.vtx).map (·, none)

/-- The end of a call that changes the pool: one that throws or fails an assertion does not
return. -/
def finish (result : MempoolState × Except Failure Unit) (disk : Nat → Bool)
    (syncs : List (CTransaction × Option CBlock)) (chainActive : List Uint256) :
    Except Failure (WalletNode × Except Failure Unit) :=
  match result with
  | (pool, .error e) =>
      if !e.returns then .error e
      else do
        -- `ConnectBlock` has synced if what failed is `WriteChainState`
        let wallet ← s.wallet.syncTransactions env disk 0 syncs
        return ({ s with pool := pool, wallet := wallet }, .error e)
  | (pool, .ok ()) => do
      let wallet ← s.wallet.syncTransactions env disk 0 syncs
      return ({ pool := pool, chainActive := chainActive, wallet := wallet }, .ok ())

def accept (call : AcceptCall) (tx : CTransaction) (disk : Nat → Bool) :
    Except Failure (WalletNode × Except Failure Unit) :=
  let result := s.pool.accept env.node call tx
  s.finish env result disk (match result.2 with | .ok _ => [(tx, none)] | .error _ => [])
    s.chainActive

def connectTip (call : MempoolCall) (disk : Nat → Bool) :
    Except Failure (WalletNode × Except Failure Unit) :=
  if call.pindex.pprev ≠ s.chainActive.getLast? then .error .assertion
  else
    s.finish env (s.pool.connectTip env.node call) disk (s.connectSyncs env call)
      (s.chainActive ++ [call.pindex.blockHash])

/-- The genesis block is not disconnected: `UpdateTip` reads the new tip. -/
def disconnectTip (call : MempoolCall) (disk : Nat → Bool) :
    Except Failure (WalletNode × Except Failure Unit) :=
  if s.chainActive.getLast? ≠ some call.pindex.blockHash ∨ s.chainActive.length = 1 then
    .error .assertion
  else
    let result := s.pool.disconnectTip env.node call
    s.finish env result disk
      (match result.2 with | .ok _ => s.disconnectSyncs env call | .error _ => [])
      s.chainActive.dropLast

/-- `GetAvailableCredit` keeps what it finds. -/
def getAvailableCredit (hash : Uint256) (fUseCache : Bool) : WalletNode :=
  match s.wallet.mapWallet.lookup hash with
  | none => s
  | some wtx =>
      { s with wallet := { s.wallet with
        mapWallet := s.wallet.mapWallet.insert hash
          (s.wallet.getAvailableCredit env s.view fUseCache wtx).2 } }

def apply : WalletOp → Except Failure (WalletNode × Except Failure Unit)
  | .accept call tx disk => s.accept env call tx disk
  | .connectTip call disk => s.connectTip env call disk
  | .disconnectTip call disk => s.disconnectTip env call disk
  | .getAvailableCredit hash fUseCache => .ok (s.getAvailableCredit env hash fUseCache, .ok ())

end WalletNode

end Fedoracoin
