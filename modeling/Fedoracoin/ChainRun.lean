import Fedoracoin.Activate

/-!
# Runs of the node

How `ActivateBestChain` is reached: the databases are loaded, the genesis block is added if
there is none, and then blocks arrive.  `InitBlockIndex` and `ProcessBlock` are modelled up to
the place where they call `ActivateBestChain`, and that call is a step of its own; so a run may
do more between the two than the node does.  A step is labelled with what the call returned.  A
call that ends in a failed `assert`, or not at all, is not followed by another.
-/

namespace Fedoracoin

variable {Block View World : Type}

/-- Whether the process is there afterwards. -/
def Failure.survives : Failure → Bool
  | .assertion | .diverges => false
  | _ => true

/-- A block that arrives, by its hash, with what the checks of it say. -/
structure Arrival where
  hash : Uint256
  /-- `CheckBlock` in `ProcessBlock`. -/
  preliminary : Except Failure Unit := .ok ()
  /-- The checks of `AcceptBlockHeader` that follow the search for the previous block. -/
  header : Except Failure Unit := .ok ()
  /-- `CheckBlock` in `AcceptBlock`. -/
  checkBlock : Except Failure Unit := .ok ()
  /-- `IsFinalTx` of all the transactions. -/
  isFinalTx : Bool := true
  /-- The coinbase starts with the height, where most of the last blocks have version 2. -/
  coinbaseHeight : Bool := true
  /-- `FindBlockPos` and `WriteBlockToDisk`. -/
  stored : Except Failure Unit := .ok ()
  /-- `WriteBlockIndex`. -/
  indexWritten : Bool := true

/-! ## Loading -/

/-- What the databases hold at the start.  Every entry of the block tree database was written
with the data of its block; and the coin database is at a block of the tree, or empty. -/
structure Stored (env : ChainEnv Block View World) where
  mapBlockIndex : BlockTree
  nStatus : Finmap fun _ : Uint256 ↦ BlockStatus
  /-- The hashes, in the order in which they are read. -/
  hashes : List Uint256
  coins : View
  mem_hashes : ∀ hash, hash ∈ hashes ↔ hash ∈ mapBlockIndex.entries
  mem_nStatus : ∀ hash, hash ∈ nStatus ↔ hash ∈ mapBlockIndex.entries
  zero_notMem : (0 : Uint256) ∉ mapBlockIndex.entries
  data : ∀ hash nStatus', nStatus.lookup hash = some nStatus' →
    nStatus'.haveData = true ∧ blockValidTransactions ≤ nStatus'.valid
  failedChild : ∀ hash nStatus', nStatus.lookup hash = some nStatus' →
    nStatus'.failedChild = true →
    ∃ a ∈ mapBlockIndex.lineage hash, a ≠ hash ∧
      ((nStatus.lookup a).getD {}).failedValid = true
  best : env.getBestBlock coins = 0 ∨ env.getBestBlock coins ∈ mapBlockIndex.entries

/-- Empty databases. -/
def Stored.empty (env : ChainEnv Block View World) (coins : View)
    (h : env.getBestBlock coins = 0) : Stored env where
  mapBlockIndex := .empty
  nStatus := ∅
  hashes := []
  coins := coins
  mem_hashes _ := iff_of_false List.not_mem_nil Finmap.notMem_empty
  mem_nStatus _ := Iff.rfl
  zero_notMem := Finmap.notMem_empty
  data hash nStatus' h := by simp at h
  failedChild hash nStatus' h := by simp at h
  best := Or.inl h

namespace ChainState

/-- `LoadBlockIndexDB`. -/
def loadBlockIndexDB (env : ChainEnv Block View World) (stored : Stored env) (world : World) :
    ChainState View World where
  mapBlockIndex := stored.mapBlockIndex
  nStatus := stored.nStatus
  setBlockIndexValid := stored.hashes.filter fun hash ↦
    let nStatus := (stored.nStatus.lookup hash).getD {}
    decide (blockValidTransactions ≤ nStatus.valid) && !nStatus.failed
  chainActive :=
    let best := env.getBestBlock stored.coins
    if best ∈ stored.mapBlockIndex.entries then
      CChain.setTip stored.mapBlockIndex [] (some best)
    else []
  pcoinsTip := stored.coins
  world := world

/-! ## Adding blocks -/

/-- `AddToBlockIndex` of a header. -/
def addToBlockIndex (env : ChainEnv Block View World) (s : ChainState View World)
    (hash : Uint256) : ChainState View World :=
  if hnew : hash ∈ s.mapBlockIndex.entries then s
  else
    { s with
      mapBlockIndex := s.mapBlockIndex.insert hash (env.hashPrevBlock hash)
        (env.getBlockWork hash) s.nBlockSequenceId hnew
      nStatus := s.nStatus.insert hash (({} : BlockStatus).raiseValidity blockValidTree).1
      nBlockSequenceId := (s.nBlockSequenceId + 1) % 2 ^ 32 }

/-- The part of `ReceivedBlockTransactions` before the index is written. -/
def receiveData (s : ChainState View World) (pindexNew : Uint256) : ChainState View World :=
  let (nStatus, raised) :=
    { s.status pindexNew with haveData := true }.raiseValidity blockValidTransactions
  let s := s.setStatus pindexNew nStatus
  if raised then { s with setBlockIndexValid := pindexNew :: s.setBlockIndexValid } else s

/-- `ReceivedBlockTransactions`, as far as `ActivateBestChain`. -/
def receivedBlockTransactions (s : ChainState View World) (pindexNew : Uint256)
    (indexWritten : Bool) : ChainState View World × Except Failure Unit :=
  (s.receiveData pindexNew, failIf (!indexWritten) (.abort "Failed to write block index"))

/-- `InitBlockIndex`, with the check in `init.cpp` that precedes it. -/
def initBlockIndex (env : ChainEnv Block View World) (s : ChainState View World)
    (stored : Except Failure Unit) (indexWritten : Bool) :
    ChainState View World × Except Failure Unit :=
  if !s.chainActive.isEmpty then (s, .ok ())
  else if s.mapBlockIndex.entries ≠ ∅ then
    (s, .error (.error "Incorrect or no genesis block found. Wrong datadir for network?"))
  else
    match stored with
    | .error e => (s, .error e)
    | .ok () =>
        (s.addToBlockIndex env env.hashGenesisBlock).receivedBlockTransactions
          env.hashGenesisBlock indexWritten

/-- `AcceptBlockHeader`. -/
def acceptBlockHeader (env : ChainEnv Block View World) (s : ChainState View World)
    (block : Arrival) : Except Failure (ChainState View World) := do
  failIf (decide (block.hash ∈ s.mapBlockIndex.entries) && s.failed block.hash)
    (.dos 0 0 "duplicate")
  if block.hash ≠ env.hashGenesisBlock then
    failIf (decide (env.hashPrevBlock block.hash ∉ s.mapBlockIndex.entries))
      (.dos 10 0 "bad-prevblk")
    block.header
  return s.addToBlockIndex env block.hash

/-- `AcceptBlock`. -/
def acceptBlock (env : ChainEnv Block View World) (s : ChainState View World)
    (block : Arrival) : ChainState View World × Except Failure Unit :=
  match s.acceptBlockHeader env block with
  | .error e => (s, .error e)
  | .ok s =>
      match block.checkBlock with
      -- the block is not marked: `state.Invalid()` is the function that sets the state
      | .error e => (s, .error e)
      | .ok () =>
          if !block.isFinalTx then
            (s.setStatus block.hash { s.status block.hash with failedValid := true },
              .error (.dos 10 rejectInvalid "bad-txns-nonfinal"))
          else if !block.coinbaseHeight then
            (s.setStatus block.hash { s.status block.hash with failedValid := true },
              .error (.dos 100 rejectInvalid "bad-cb-height"))
          else
            match block.stored with
            | .error e => (s, .error e)
            | .ok () => s.receivedBlockTransactions block.hash block.indexWritten

/-- `ProcessBlock`.  A block whose predecessor is not there yet is kept aside, and arrives again
once it is. -/
def processBlock (env : ChainEnv Block View World) (s : ChainState View World)
    (block : Arrival) : ChainState View World × Except Failure Unit :=
  if block.hash ∈ s.mapBlockIndex.entries then (s, .error (.dos 0 0 "duplicate"))
  else
    match block.preliminary with
    | .error e => (s, .error e)
    | .ok () =>
        let hashPrev := env.hashPrevBlock block.hash
        if hashPrev ≠ 0 ∧ ¬ (hashPrev ∈ s.mapBlockIndex.entries ∧
            (s.status hashPrev).haveData = true) then (s, .ok ())
        else s.acceptBlock env block

end ChainState

/-! ## Runs -/

/-- The calls from outside. -/
inductive Call where
  | initBlockIndex (stored : Except Failure Unit) (indexWritten : Bool)
  /-- A block arrives; the hash 0 stands for no block. -/
  | processBlock (block : Arrival) (hhash : block.hash ≠ 0)
  | activateBestChain

/-- What a call does, the outer loop of `ActivateBestChain` bounded by `fuel`. -/
def Call.run (env : ChainEnv Block View World) (fuel : Nat) (s : ChainState View World) :
    Call → Option (ChainState View World × Except TipFailure Unit)
  | .initBlockIndex stored indexWritten =>
      some ((s.initBlockIndex env stored indexWritten).map id (Except.mapError .block))
  | .processBlock block _ => some ((s.processBlock env block).map id (Except.mapError .block))
  | .activateBestChain => (s.activateBestChain env fuel {}).map fun q ↦ (q.1, q.2.2)

/-- Whether a call is followed by others. -/
def survives (r : Except TipFailure Unit) : Bool :=
  match r with
  | .ok () => true
  | .error e => e.failure.survives

/-- A call and what it returned. -/
abbrev Label := Call × Except TipFailure Unit

/-- One call. -/
def Step (env : ChainEnv Block View World) (s : ChainState View World) (l : Label)
    (s' : ChainState View World) : Prop :=
  survives l.2 = true ∧ ∃ fuel, l.1.run env fuel s = some (s', l.2)

/-- Makes the calls one after the other, as long as the process is there. -/
def Call.runAll (env : ChainEnv Block View World) (fuel : Nat) (s : ChainState View World) :
    List Call → Option (List Label × ChainState View World)
  | [] => some ([], s)
  | call :: calls => do
      let (s, r) ← call.run env fuel s
      if survives r then
        let (l, s) ← runAll env fuel s calls
        some ((call, r) :: l, s)
      else none

theorem Call.run_of_runAll {env : ChainEnv Block View World} {fuel : Nat}
    {s s' : ChainState View World} {calls : List Call} {l : List Label}
    (h : Call.runAll env fuel s calls = some (l, s')) : Run (Step env) s l s' := by
  induction calls generalizing s l with
  | nil =>
      obtain ⟨rfl, rfl⟩ := Prod.mk.inj (Option.some.inj h)
      exact .nil _
  | cons call calls ih =>
      simp only [runAll, Option.bind_eq_bind, Option.bind_eq_some_iff] at h
      obtain ⟨⟨s₁, r⟩, hcall, h⟩ := h
      split at h
      case isTrue hsurvives =>
        obtain ⟨⟨l₁, s₂⟩, hrest, heq⟩ := Option.bind_eq_some_iff.mp h
        obtain ⟨rfl, rfl⟩ := Prod.mk.inj (Option.some.inj heq)
        exact .cons ⟨hsurvives, fuel, hcall⟩ (ih hrest)
      case isFalse => cases h

/-- A test of the state that some calls lead to. -/
theorem Call.exists_run_of_test (env : ChainEnv Block View World) (fuel : Nat)
    (s : ChainState View World) (calls : List Call) (test : ChainState View World → Bool)
    (h : (Call.runAll env fuel s calls).any (fun q ↦ test q.2) = true) :
    ∃ l s', Run (Step env) s l s' ∧ test s' = true := by
  obtain ⟨⟨l, s'⟩, hrun, htest⟩ := (Option.any_eq_true _ _).mp h
  exact ⟨l, s', Call.run_of_runAll hrun, htest⟩

/-- The states of the node. -/
def Reachable (env : ChainEnv Block View World) (s : ChainState View World) : Prop :=
  ∃ stored world l, Run (Step env) (ChainState.loadBlockIndexDB env stored world) l s

end Fedoracoin
