import Fedoracoin.BlockRun
import Fedoracoin.ChainRun

/-!
# The node

`ChainEnv` with the functions of `main.cpp` in it: `ReadBlockFromDisk`, `ConnectBlock` and
`DisconnectBlock` over the coins view of `Fedoracoin.Coins`.  What they are asked for by
`Fedoracoin.Activate` is proved of them here.
-/

namespace Fedoracoin

variable {env : BlockEnv} {io : UndoIO} {fuel : Nat} {block : CBlock}
  {pindex pindex' : ConnectIndex} {view : CCoinsView}

/-! ## The index entry and the best block -/

/-- An entry with another validity level and undo flag, and a level that still says that the
transactions are there. -/
def ConnectIndex.Revalidated (pindex pindex' : ConnectIndex) : Prop :=
  ∃ valid haveUndo,
    pindex' = { pindex with
      nStatus := { pindex.nStatus with valid := valid, haveUndo := haveUndo } } ∧
    (blockValidTransactions ≤ pindex.nStatus.valid → blockValidTransactions ≤ valid)

theorem ConnectIndex.Revalidated.refl (pindex : ConnectIndex) : pindex.Revalidated pindex :=
  ⟨pindex.nStatus.valid, pindex.nStatus.haveUndo, rfl, id⟩

theorem writeUndoData_revalidated (io : UndoIO) (pindex : ConnectIndex) :
    pindex.Revalidated (writeUndoData io pindex).1 := by
  rw [writeUndoData]
  split
  · exact .refl pindex
  · split
    · exact .refl pindex
    · split
      · exact .refl pindex
      · split
        · exact ⟨blockValidScripts, true, rfl, fun _ ↦ by decide⟩
        · exact .refl pindex

/-- `ConnectBlock` changes no more of the entry. -/
theorem connectBlock_revalidated (env : BlockEnv) (io : UndoIO) (fuel : Nat) (block : CBlock)
    (pindex : ConnectIndex) (view : CCoinsView) (fJustCheck : Bool) :
    pindex.Revalidated (connectBlock env io fuel block pindex view fJustCheck).1 := by
  rw [connectBlock]
  split
  · exact .refl pindex
  · split
    · exact .refl pindex
    · split
      · exact .refl pindex
      · split
        · exact .refl pindex
        · split
          · exact .refl pindex
          · exact writeUndoData_revalidated io pindex

/-- `ConnectBlock` takes the view from the previous block to the connected one. -/
theorem connectBlock_best {r : Connected}
    (h : connectBlock env io fuel block pindex view false = (pindex', .ok r)) :
    view.hashBlock = pindex.pprev.getD 0 ∧ r.view.hashBlock = pindex.blockHash := by
  by_cases hgenesis : env.getBlockHash block.toCBlockHeader = env.hashGenesisBlock
  · rw [connectBlock] at h
    split at h
    · cases (Prod.mk.inj h).2
    · split at h
      case isTrue => cases (Prod.mk.inj h).2
      case isFalse hbest =>
        obtain rfl := Except.ok.inj (Prod.mk.inj h).2
        exact ⟨not_not.mp hbest, rfl⟩
  · have hrun := connectBlock_run hgenesis h
    obtain ⟨s, _, hview, _⟩ := hrun.run
    exact ⟨hrun.hashBlock, by rw [hview]; rfl⟩

/-- And `DisconnectBlock` takes it back. -/
theorem disconnectBlock_best {undoData : Option CBlockUndo} {fClean : Bool} {view' : CCoinsView}
    (h : disconnectBlock env undoData block pindex view = .ok (fClean, view')) :
    view.hashBlock = pindex.blockHash ∧ pindex.pprev = some view'.hashBlock := by
  rw [disconnectBlock.eq_def] at h
  obtain ⟨_, hbest, h⟩ := bind_eq_ok.mp h
  obtain ⟨_, _, h⟩ := bind_eq_ok.mp h
  rw [failIf_eq_ok, decide_eq_false_iff_not, not_not] at hbest
  refine ⟨hbest, ?_⟩
  cases hprev : pindex.pprev with
  | none =>
      rw [hprev] at h
      cases h
  | some hashPrev =>
      rw [hprev] at h
      cases undoData with
      | none => cases h
      | some blockUndo =>
          obtain ⟨_, _, h⟩ := bind_eq_ok.mp h
          obtain ⟨s, _, h⟩ := bind_eq_ok.mp h
          obtain ⟨_, rfl⟩ := Prod.mk.inj (Except.ok.inj h)
          rfl

/-! ## The environment of `ActivateBestChain` -/

/-- What the node has from outside. -/
structure Node (World : Type) where
  /-- Where the entry of a block is allocated. -/
  address : Uint256 ↪ Nat
  hashPrevBlock : Uint256 → Uint256
  getBlockWork : Uint256 → Nat
  hashGenesisBlock : Uint256
  hashGenesisBlock_ne_zero : hashGenesisBlock ≠ 0
  hashPrevBlock_genesis : hashPrevBlock hashGenesisBlock = 0
  syncCheckpointEnforced : Bool
  /-- What validation asks for; the answers depend on the clock and on globals. -/
  blockEnv : World → BlockEnv
  checkProofOfWork : CBlockHeader → Int → Bool
  /-- `OpenBlockFile` and `filein >> block`, with the message of the failure. -/
  readBlock : World → Uint256 → World × Except String CBlock
  /-- `blockUndo.ReadFromDisk`. -/
  readUndo : World → Uint256 → World × Option CBlockUndo
  undoIO : World → World × UndoIO
  writeIO : World → World × WriteIO
  /-- The bound on the recursion in `GetBlockValue`. -/
  fuel : Nat

namespace Node

variable {World : Type} (node : Node World)

/-- The checks of `ReadBlockFromDisk` on what was read. -/
def checkRead (env : BlockEnv) (hash : Uint256) (block : CBlock) : Except Failure CBlock :=
  let hash' := env.getBlockHash block.toCBlockHeader
  match env.mapBlockIndex hash' with
  -- `mapBlockIndex[hash']` is a null pointer then
  | none => .error .assertion
  | some nHeight => do
      failIf (!node.checkProofOfWork block.toCBlockHeader nHeight)
        (.error "Check the header ReadBlockFromDisk : Errors in block header")
      failIf (decide (hash' ≠ hash))
        (.error "ReadBlockFromDisk(CBlock&, CBlockIndex*) : GetHash() doesn't match index")
      return block

/-- `ReadBlockFromDisk`. -/
def readBlockFromDisk (world : World) (hash : Uint256) : World × Except Failure CBlock :=
  match node.readBlock world hash with
  | (world, .error message) => (world, .error (.error message))
  | (world, .ok block) => (world, node.checkRead (node.blockEnv world) hash block)

def validationEnv (world : World) : BlockEnv :=
  { node.blockEnv world with hashGenesisBlock := node.hashGenesisBlock }

/-- `ConnectBlock`. -/
def connectBlock (world : World) (block : CBlock) (pindex : ConnectIndex) (view : CCoinsView) :
    World × ConnectIndex × Except Failure CCoinsView :=
  let io := node.undoIO world
  let connected := Fedoracoin.connectBlock (node.validationEnv world) io.2 node.fuel block pindex
    view false
  (io.1, connected.1, connected.2.map Connected.view)

/-- `DisconnectBlock` with no `pfClean`, which returns `fClean`. -/
def disconnectBlock (world : World) (block : CBlock) (pindex : ConnectIndex)
    (view : CCoinsView) : World × Except Failure CCoinsView :=
  let undoData := node.readUndo world pindex.blockHash
  (undoData.1,
    match Fedoracoin.disconnectBlock (node.validationEnv world) undoData.2 block pindex view with
    | .error e => .error e
    | .ok (false, _) => .error (.error "DisconnectTip() : DisconnectBlock failed")
    | .ok (true, view) => .ok view)

variable {world : World} {view' : CCoinsView}

theorem connectBlock_nStatus (world : World) (block : CBlock) (pindex : ConnectIndex)
    (view : CCoinsView) : ∃ valid haveUndo,
      (node.connectBlock world block pindex view).2.1.nStatus =
        { pindex.nStatus with valid := valid, haveUndo := haveUndo } ∧
      (blockValidTransactions ≤ pindex.nStatus.valid → blockValidTransactions ≤ valid) := by
  obtain ⟨valid, haveUndo, heq, hvalid⟩ := connectBlock_revalidated (node.validationEnv world)
    (node.undoIO world).2 node.fuel block pindex view false
  exact ⟨valid, haveUndo, congrArg ConnectIndex.nStatus heq, hvalid⟩

theorem connectBlock_ok (h : (node.connectBlock world block pindex view).2.2 = .ok view') :
    view.hashBlock = pindex.pprev.getD 0 ∧ view'.hashBlock = pindex.blockHash := by
  rw [connectBlock] at h
  dsimp only at h
  rcases hconn : Fedoracoin.connectBlock (node.validationEnv world) (node.undoIO world).2
    node.fuel block pindex view false with ⟨pindex', e | r⟩
  · rw [hconn] at h
    exact absurd h (by simp [Except.map])
  · rw [hconn] at h
    obtain rfl := Except.ok.inj h
    exact connectBlock_best hconn

theorem disconnectBlock_ok (h : (node.disconnectBlock world block pindex view).2 = .ok view') :
    view.hashBlock = pindex.blockHash ∧ pindex.pprev = some view'.hashBlock := by
  rw [disconnectBlock] at h
  dsimp only at h
  split at h
  · cases h
  · cases h
  · rename_i hdis
    obtain rfl := Except.ok.inj h
    exact disconnectBlock_best hdis

/-- The node's own functions in the environment of `ActivateBestChain`. -/
def chainEnv : ChainEnv CBlock CCoinsView World where
  address := node.address
  hashPrevBlock := node.hashPrevBlock
  getBlockWork := node.getBlockWork
  hashGenesisBlock := node.hashGenesisBlock
  hashGenesisBlock_ne_zero := node.hashGenesisBlock_ne_zero
  hashPrevBlock_genesis := node.hashPrevBlock_genesis
  syncCheckpointEnforced := node.syncCheckpointEnforced
  getBestBlock := CCoinsView.hashBlock
  readBlockFromDisk := node.readBlockFromDisk
  connectBlock := node.connectBlock
  disconnectBlock := node.disconnectBlock
  writeIO := node.writeIO
  connectBlock_nStatus := node.connectBlock_nStatus
  connectBlock_ok _ _ _ _ _ h := node.connectBlock_ok h
  disconnectBlock_ok _ _ _ _ _ h := node.disconnectBlock_ok h

end Node

/-! ### A node with two blocks -/

/-- The coinbase of a block; the hash of a transaction is its lock time. -/
def sampleCoinbase (nLockTime : Nat) : CTransaction where
  vin := [⟨.null, [0, 0], uintMax⟩]
  vout := [⟨0, []⟩]
  nLockTime := nLockTime

/-- A block with one transaction, by its nonce.  Its merkle root is the hash of a coinbase with
the nonce as lock time. -/
def coinbaseBlock (nNonce nLockTime : Nat) : CBlock where
  hashPrevBlock := BitVec.ofNat 256 (nNonce - 1)
  hashMerkleRoot := BitVec.ofNat 256 nNonce
  nTime := 0
  nBits := 0
  nNonce := nNonce
  vtx := [sampleCoinbase nLockTime]

/-- A node whose blocks 1, 2 and 3 follow one another.  It reads block 2 with the coinbase of the
given lock time, and after its first `WriteChainState` all have the given answers.  The world
counts the calls of `WriteChainState`. -/
def sampleNode (nLockTime : Nat) (io : WriteIO) : Node Nat where
  address := addressOfHash
  hashPrevBlock hash := hash - 1
  getBlockWork _ := 1
  hashGenesisBlock := 1
  hashGenesisBlock_ne_zero := one_ne_zero_hash
  hashPrevBlock_genesis := rfl
  syncCheckpointEnforced := true
  blockEnv _ := {
    getTxHash := fun tx ↦ BitVec.ofNat 256 tx.nLockTime
    getBlockHash := fun header ↦ BitVec.ofNat 256 header.nNonce
    hash := fun a b ↦ a + b
    hashGenesisBlock := 1
    checkBlockHeader := fun _ _ _ ↦ .ok ()
    getLegacySigOpCount := fun _ ↦ 0
    getP2SHSigOpCount := fun _ _ ↦ 0
    verifyScript := fun _ ↦ true
    mapBlockIndex := fun hash ↦ if hash = 0 then none else some (hash.toNat - 1 : Nat)
    totalBlocksEstimate := 0
    scriptCheckThreads := false
    uniformInt := fun _ lo _ ↦ lo
    tip := .initial }
  checkProofOfWork _ _ := true
  readBlock world hash :=
    (world, .ok (coinbaseBlock hash.toNat (if hash = 2 then nLockTime else hash.toNat)))
  readUndo world _ := (world, some ⟨[]⟩)
  undoIO world := (world, {})
  writeIO world := (world + 1, if world = 0 then {} else io)
  fuel := 1

end Fedoracoin
