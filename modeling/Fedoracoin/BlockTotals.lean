import Fedoracoin.AcceptBlock
import Fedoracoin.Lib.PathSum

/-!
# Work and transactions along the chain

What `AddToBlockIndex` and `ReceivedBlockTransactions` keep of a block beside its status:
`nChainWork`, `nTx` and `nChainTx`, and the entry that `WriteBlockIndex` puts on disk.  The state
of `Fedoracoin.Activate` is taken as it is, with the two numbers of transactions, the block tree
database and the keys of `mapOrphanBlocks` beside it.

A run consists of the calls that lead to `ReceivedBlockTransactions`, and of those of
`ActivateBestChain`, which is a step of its own.  The loop of `ProcessBlock` over the orphans of an
accepted block is as many steps as there are orphans.  A run goes on after a failed `assert` too.
-/

namespace Fedoracoin

variable {Block View World : Type}

/-! ## The work of a block -/

/-- `GetBlockWork`, with `getuint256`. -/
def getBlockWork (nBits : Nat) : Nat :=
  let bnTarget := CBigNum.setCompact nBits
  if bnTarget ≤ 0 then 0 else ((2 ^ 256 : Int) / (bnTarget + 1)).toNat

/-- The range that `CheckProofOfWork` allows a target. -/
def TargetAccepted (nBits : Nat) : Prop :=
  0 < CBigNum.setCompact nBits ∧ CBigNum.setCompact nBits ≤ bnProofOfWorkLimit

theorem getBlockWork_pos {nBits : Nat} (h : TargetAccepted nBits) : 0 < getBlockWork nBits := by
  obtain ⟨hpos, hle⟩ := h
  have hlimit : (bnProofOfWorkLimit + 1 : Int) ≤ 2 ^ 256 := by decide
  rw [getBlockWork, if_neg hpos.not_ge]
  have hone : (1 : Int) ≤ 2 ^ 256 / (CBigNum.setCompact nBits + 1) := by
    rw [Int.le_ediv_iff_mul_le (Int.lt_add_one_of_le hpos.le), one_mul]
    exact (Int.add_le_add_right hle 1).trans hlimit
  exact Int.pos_iff_toNat_pos.mp hone

/-! ## The state -/

/-- `nTx` and `nChainTx`. -/
structure TxCounts where
  nTx : Nat := 0
  nChainTx : Nat := 0
deriving DecidableEq

/-- What `WriteBlockIndex` writes of an entry, beside the status and the position. -/
structure CDiskBlockIndex where
  hashPrev : Uint256 := 0
  nHeight : Nat := 0
  nTx : Nat := 0
  nBits : Nat := 0
deriving DecidableEq

/-- `ChainEnv`, with `nBits` of the headers. -/
structure IndexEnv (Block View World : Type) extends ChainEnv Block View World where
  nBits : Uint256 → Nat
  getBlockWork_eq : ∀ hash, getBlockWork hash = Fedoracoin.getBlockWork (nBits hash)

/-- A block that arrives, with what is asked of elsewhere.  Its hash stands for its header. -/
structure BlockArrival (env : IndexEnv Block View World) where
  block : CBlock
  /-- What `CheckBlock` asks for. -/
  blockEnv : BlockEnv
  hash_ne_zero : blockEnv.getBlockHash block.toCBlockHeader ≠ 0
  hashPrevBlock_eq :
    env.hashPrevBlock (blockEnv.getBlockHash block.toCBlockHeader) = block.hashPrevBlock
  nBits_eq : env.nBits (blockEnv.getBlockHash block.toCBlockHeader) = block.nBits
  /-- The checks of `AcceptBlockHeader` that follow the search for the previous block. -/
  header : Except Failure Unit := .ok ()
  /-- `IsFinalTx` of all the transactions. -/
  isFinalTx : Bool := true
  /-- The coinbase starts with the height, where most of the last blocks have version 2. -/
  coinbaseHeight : Bool := true
  /-- `FindBlockPos` and `WriteBlockToDisk`. -/
  stored : Except Failure Unit := .ok ()
  /-- `WriteBlockIndex`. -/
  indexWritten : Bool := true

namespace BlockArrival

variable {env : IndexEnv Block View World}

def hash (a : BlockArrival env) : Uint256 := a.blockEnv.getBlockHash a.block.toCBlockHeader

/-- The block as `Fedoracoin.ChainRun` has it. -/
def arrival (a : BlockArrival env) (nHeight : Nat) : Arrival where
  hash := a.hash
  preliminary := checkBlock a.blockEnv a.block intMax true true
  header := a.header
  checkBlock := checkBlock a.blockEnv a.block nHeight true true
  isFinalTx := a.isFinalTx
  coinbaseHeight := a.coinbaseHeight
  stored := a.stored
  indexWritten := a.indexWritten

end BlockArrival

structure IndexState (View World : Type) where
  chain : ChainState View World
  txCounts : Finmap fun _ : Uint256 ↦ TxCounts := ∅
  /-- The entries of the block tree database. -/
  blocktree : Finmap fun _ : Uint256 ↦ CDiskBlockIndex := ∅
  /-- The keys of the map. -/
  mapOrphanBlocks : Finset Uint256 := ∅

namespace IndexState

variable (env : IndexEnv Block View World)

def nTx (s : IndexState View World) (pindex : Uint256) : Nat :=
  ((s.txCounts.lookup pindex).getD {}).nTx

def nChainTx (s : IndexState View World) (pindex : Uint256) : Nat :=
  ((s.txCounts.lookup pindex).getD {}).nChainTx

/-- Empty databases. -/
def start (coins : View) (world : World) : IndexState View World where
  chain := { mapBlockIndex := .empty, nStatus := ∅, pcoinsTip := coins, world := world }

/-- `CDiskBlockIndex(pindex)`. -/
def diskBlockIndex (s : IndexState View World) (pindex : Uint256) : CDiskBlockIndex where
  hashPrev := (s.chain.mapBlockIndex.pprev pindex).getD 0
  nHeight := s.chain.mapBlockIndex.nHeight pindex
  nTx := s.nTx pindex
  nBits := env.nBits pindex

def writeBlockIndex (s : IndexState View World) (pindex : Uint256) : IndexState View World :=
  { s with blocktree := s.blocktree.insert pindex (s.diskBlockIndex env pindex) }

/-- `ReceivedBlockTransactions`, as far as `ActivateBestChain`. -/
def receivedBlockTransactions (s : IndexState View World) (vtxSize : Nat) (pindexNew : Uint256)
    (indexWritten : Bool) : IndexState View World × Except Failure Unit :=
  let nTx := vtxSize % 2 ^ 32
  let nChainTx :=
    match s.chain.mapBlockIndex.pprev pindexNew with
    | some pprev =>
        -- Not the genesis block.
        if s.nChainTx pprev ≠ 0 then (s.nChainTx pprev + nTx) % 2 ^ 32 else 0
    | none => nTx
  let s : IndexState View World := { s with
    chain := s.chain.receiveData pindexNew
    txCounts := s.txCounts.insert pindexNew { nTx := nTx, nChainTx := nChainTx } }
  if indexWritten then (s.writeBlockIndex env pindexNew, .ok ())
  else (s, .error (.abort "Failed to write block index"))

/-- `InitBlockIndex`, with the check in `init.cpp` that precedes it.  The genesis block has one
transaction. -/
def initBlockIndex (s : IndexState View World) (stored : Except Failure Unit)
    (indexWritten : Bool) : IndexState View World × Except Failure Unit :=
  if !s.chain.chainActive.isEmpty then (s, .ok ())
  else if s.chain.mapBlockIndex.entries ≠ ∅ then
    (s, .error (.error "Incorrect or no genesis block found. Wrong datadir for network?"))
  else
    match stored with
    | .error e => (s, .error e)
    | .ok () =>
        { s with
          chain := s.chain.addToBlockIndex env.toChainEnv
            env.hashGenesisBlock }.receivedBlockTransactions env 1 env.hashGenesisBlock indexWritten

variable {env} in
/-- `AcceptBlock`, as far as `ActivateBestChain`. -/
def acceptBlock (s : IndexState View World) (a : BlockArrival env) :
    IndexState View World × Except Failure Unit :=
  match s.chain.acceptBlockHeader env.toChainEnv (a.arrival 0) with
  | .error e => (s, .error e)
  | .ok chain =>
      let s := { s with chain := chain }
      let failed := chain.setStatus a.hash { chain.status a.hash with failedValid := true }
      match checkBlock a.blockEnv a.block (chain.mapBlockIndex.nHeight a.hash) true true with
      | .error e => (s, .error e)
      | .ok () =>
          if !a.isFinalTx then
            ({ s with chain := failed },
              .error (.dos 10 rejectInvalid "bad-txns-nonfinal"))
          else if !a.coinbaseHeight then
            ({ s with chain := failed },
              .error (.dos 100 rejectInvalid "bad-cb-height"))
          else
            match a.stored with
            | .error e => (s, .error e)
            | .ok () =>
                s.receivedBlockTransactions env a.block.vtx.length a.hash a.indexWritten

variable {env} in
/-- `ProcessBlock`, without the loop over the orphans of the block; `pruned` is what
`PruneOrphanBlocks` takes out. -/
def processBlock (s : IndexState View World) (a : BlockArrival env) (pfrom : Bool)
    (pruned : Option Uint256) : IndexState View World × Except Failure Unit :=
  if a.hash ∈ s.chain.mapBlockIndex.entries then (s, .error (.dos 0 0 "duplicate"))
  else if a.hash ∈ s.mapOrphanBlocks then (s, .error (.dos 0 0 "duplicate"))
  else
    match checkBlock a.blockEnv a.block intMax true true with
    | .error e => (s, .error e)
    | .ok () =>
        let hashPrev := a.block.hashPrevBlock
        if hashPrev ≠ 0 ∧ ¬ (hashPrev ∈ s.chain.mapBlockIndex.entries ∧
            (s.chain.status hashPrev).haveData = true) then
          -- orphans are only kept if there is a node to ask for their parents
          if pfrom then
            let mapOrphanBlocks := pruned.elim s.mapOrphanBlocks s.mapOrphanBlocks.erase
            ({ s with mapOrphanBlocks := insert a.hash mapOrphanBlocks }, .ok ())
          else (s, .ok ())
        else s.acceptBlock a

variable {env} in
/-- One orphan in the loop of `ProcessBlock`. -/
def acceptOrphan (s : IndexState View World) (a : BlockArrival env) :
    IndexState View World × Except Failure Unit :=
  let accepted := s.acceptBlock a
  ({ accepted.1 with mapOrphanBlocks := accepted.1.mapOrphanBlocks.erase a.hash }, accepted.2)

end IndexState

/-! ## Runs -/

inductive IndexCall (env : IndexEnv Block View World)
  | initBlockIndex (stored : Except Failure Unit) (indexWritten : Bool)
  | processBlock (a : BlockArrival env) (pfrom : Bool) (pruned : Option Uint256)
  | acceptOrphan (a : BlockArrival env)
  /-- `ConnectBlock` and `InvalidBlockFound` write the entries `written` again. -/
  | activateBestChain (written : List Uint256)

/-- Whether `WriteBlockIndex` succeeds in `ReceivedBlockTransactions`. -/
def IndexCall.writes {env : IndexEnv Block View World} : IndexCall env → Bool
  | .initBlockIndex _ indexWritten => indexWritten
  | .processBlock a _ _ | .acceptOrphan a => a.indexWritten
  | .activateBestChain _ => true

namespace IndexCall

variable {env : IndexEnv Block View World}

open IndexState in
/-- One call, with a bound on the outer loop of `ActivateBestChain`.  The loop over the orphans
comes to a block from the map after its parent was accepted, and the entries that are written again
are those of blocks with their data. -/
def run (fuel : Nat) (s : IndexState View World) : IndexCall env → Option (IndexState View World)
  | .initBlockIndex stored indexWritten => some (s.initBlockIndex env stored indexWritten).1
  | .processBlock a pfrom pruned => some (s.processBlock a pfrom pruned).1
  | .acceptOrphan a =>
      if a.hash ∈ s.mapOrphanBlocks ∧ (s.chain.status a.block.hashPrevBlock).haveData = true then
        some (s.acceptOrphan a).1
      else none
  | .activateBestChain written =>
      if written.all fun pindex ↦ (s.chain.status pindex).haveData then
        (s.chain.activateBestChain env.toChainEnv fuel {}).map fun q ↦
          written.foldl (writeBlockIndex env) { s with chain := q.1 }
      else none

end IndexCall

def IndexStep (env : IndexEnv Block View World) (s : IndexState View World) (call : IndexCall env)
    (s' : IndexState View World) : Prop := ∃ fuel, call.run fuel s = some s'

/-- Makes the calls one after the other. -/
def IndexCall.runAll {env : IndexEnv Block View World} (fuel : Nat) :
    IndexState View World → List (IndexCall env) → Option (IndexState View World)
  | s, [] => some s
  | s, call :: calls => (call.run fuel s).bind fun s ↦ runAll fuel s calls

theorem IndexCall.run_of_runAll {env : IndexEnv Block View World} {fuel : Nat}
    {s s' : IndexState View World} {calls : List (IndexCall env)}
    (h : runAll fuel s calls = some s') : Run (IndexStep env) s calls s' := by
  induction calls generalizing s with
  | nil =>
      obtain rfl := Option.some.inj h
      exact .nil _
  | cons call calls ih =>
      obtain ⟨s₁, hcall, hrest⟩ := Option.bind_eq_some_iff.mp h
      exact .cons ⟨fuel, hcall⟩ (ih hrest)

theorem IndexCall.exists_run_of_test {env : IndexEnv Block View World} {fuel : Nat}
    {s : IndexState View World} {calls : List (IndexCall env)}
    {test : IndexState View World → Bool} (h : (runAll fuel s calls).any test) :
    ∃ s', Run (IndexStep env) s calls s' ∧ test s' = true := by
  obtain ⟨s', hrun, htest⟩ := (Option.any_eq_true _ _).mp h
  exact ⟨s', run_of_runAll hrun, htest⟩

end Fedoracoin
