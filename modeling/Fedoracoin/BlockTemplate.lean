import Fedoracoin.CreateTransaction
import Fedoracoin.LegacyTip
import Fedoracoin.Lib.HeapOps
import Fedoracoin.SigOps

/-!
# Creating a block

`CreateNewBlock` of `miner.cpp`.  The transactions of the pool are collected into a priority queue,
except that those with inputs from others of the pool wait for these.  Then the queue is worked off;
a transaction that fits and is valid on the view joins the block, and those that waited for
nothing but it enter the queue.

Priorities are of type `double`, which is a parameter here, and so are the heap functions of the
standard library.  The entries of `vOrphan` are referred to by pointers; a pointer is the index
of an entry, and an entry that was freed is `none`.
-/

namespace Fedoracoin

/-! ## Signature operations of a transaction -/

def CTransaction.getLegacySigOpCount (tx : CTransaction) : Nat :=
  (tx.vin.map fun txin ↦ getSigOpCount txin.scriptSig false).sum +
    (tx.vout.map fun txout ↦ getSigOpCount txout.scriptPubKey false).sum

/-- `GetP2SHSigOpCount`, on a view that has the inputs. -/
def CCoinsView.p2shSigOpCount (tx : CTransaction) (inputs : CCoinsView) : Nat :=
  if tx.isCoinBase then 0
  else
    (tx.vin.map fun txin ↦
      let prevout := (inputs.getCoins txin.prevout.hash).voutAt txin.prevout.n
      if isPayToScriptHash prevout.scriptPubKey then
        getP2SHSigOpCount prevout.scriptPubKey txin.scriptSig
      else 0).sum

/-! ## Priorities -/

/-- The arithmetic of `double`. -/
structure Doubles (D : Type) where
  ofInt : Int → D
  add : D → D → D
  mul : D → D → D
  div : D → D → D
  lt : D → D → Bool
  eq : D → D → Bool

structure COrphan (D : Type) where
  ptx : CTransaction
  setDependsOn : Finset Uint256 := ∅
  dPriority : D
  dFeePerKb : D

structure TxPriority (D : Type) where
  dPriority : D
  dFeePerKb : D
  ptx : CTransaction

variable {D : Type}

def txPriorityCompare (d : Doubles D) (byFee : Bool) (a b : TxPriority D) : Bool :=
  if byFee then
    if d.eq a.dFeePerKb b.dFeePerKb then d.lt a.dPriority b.dPriority
    else d.lt a.dFeePerKb b.dFeePerKb
  else
    if d.eq a.dPriority b.dPriority then d.lt a.dFeePerKb b.dFeePerKb
    else d.lt a.dPriority b.dPriority

/-- The size that `ComputePriority` divides by. -/
def CTransaction.modifiedSize (tx : CTransaction) (nTxSize : Nat) : Nat :=
  tx.vin.foldl (fun nTxSize txin ↦
    let offset := 41 + min 110 txin.scriptSig.length
    if offset < nTxSize then nTxSize - offset else nTxSize)
    (if nTxSize = 0 then tx.getSerializeSize else nTxSize)

def CTransaction.computePriority (d : Doubles D) (tx : CTransaction) (dPriorityInputs : D)
    (nTxSize : Nat) : D :=
  let nTxSize := tx.modifiedSize nTxSize
  if nTxSize = 0 then d.ofInt 0 else d.div dPriorityInputs (d.ofInt nTxSize)

def allowFree (d : Doubles D) (dPriority : D) : Bool :=
  d.lt (d.ofInt (100 * 100000000 * 1440 / 250)) dPriority

/-! ## Settings -/

def defaultBlockMaxSize : Nat := 250000
def defaultBlockMinSize : Nat := 0

/-- What `CreateNewBlock` is given and reads.  The settings are as `GetArg` finds them. -/
structure TemplateCall where
  scriptPubKeyIn : CScript
  blockMaxSize : Option Int64 := none
  blockPrioritySize : Option Int64 := none
  blockMinSize : Option Int64 := none
  fDebug : Bool := false
  pindexPrev : ConnectIndex
  /-- `GetAdjustedTime()`. -/
  adjustedTime : Int
  /-- What `UpdateTime` sets. -/
  nTime : Nat
  /-- `GetNextWorkRequired`. -/
  nBits : Nat
  /-- For `GetBlockValue`. -/
  fuel : Nat

namespace TemplateCall

/-- `GetArg` as an `unsigned int`. -/
def getArg (arg : Option Int64) (nDefault : Nat) : Nat :=
  (arg.elim nDefault fun v ↦ v.toUInt64.toNat) % 2 ^ 32

def nBlockMaxSize (call : TemplateCall) : Nat :=
  max 1000 (min (maxBlockSize - 1000) (getArg call.blockMaxSize defaultBlockMaxSize))

def nBlockPrioritySize (call : TemplateCall) : Nat :=
  min call.nBlockMaxSize (getArg call.blockPrioritySize defaultBlockPrioritySize)

def nBlockMinSize (call : TemplateCall) : Nat :=
  min call.nBlockMaxSize (getArg call.blockMinSize defaultBlockMinSize)

/-- The height of the new block. -/
def nHeight (call : TemplateCall) : Int := call.pindexPrev.nHeight + 1

/-- What the loop over the pool passes over. -/
def isExcluded (call : TemplateCall) (tx : CTransaction) : Bool :=
  tx.isCoinBase || !tx.isFinal call.pindexPrev.nHeight call.adjustedTime call.nHeight 0

/-- `indexDummy`; its `phashBlock` is null. -/
def indexDummy (call : TemplateCall) : ConnectIndex where
  blockHash := 0
  pprev := some call.pindexPrev.blockHash
  nHeight := call.nHeight
  nStatus := {}

def header (call : TemplateCall) : CBlockHeader where
  hashPrevBlock := call.pindexPrev.blockHash
  hashMerkleRoot := 0
  nTime := call.nTime
  nBits := call.nBits
  nNonce := 0

/-- The coinbase, with `OP_0 OP_0` for its input. -/
def coinbase (call : TemplateCall) (nValue : UInt64) : CTransaction where
  vin := [{ prevout := .null, scriptSig := [0x00, 0x00] }]
  vout := [⟨nValue.toInt64, call.scriptPubKeyIn⟩]

end TemplateCall

/-- What mining takes from elsewhere. -/
structure TemplateEnv (D : Type) extends BlockEnv where
  doubles : Doubles D
  heap : HeapOps (TxPriority D)
  /-- `CTransaction::nMinRelayTxFee`. -/
  nMinRelayTxFee : Int64

/-! ## The loop over the pool -/

/-- The order of `uint256`, as numbers. -/
def HashLE (a b : Uint256) : Prop := a ≤ b

instance : DecidableRel HashLE := fun a b ↦ inferInstanceAs (Decidable (a ≤ b))

instance : IsTrans Uint256 HashLE := ⟨fun _ _ _ h h' ↦ BitVec.le_trans h h'⟩

instance : Std.Total HashLE := ⟨BitVec.le_total⟩

instance : Std.Antisymm HashLE := ⟨fun _ _ h h' ↦ BitVec.le_antisymm h h'⟩

/-- The transactions of the pool, in the order of `mapTx`. -/
def CTxMemPool.sortedTxs (pool : CTxMemPool) : List CTransaction :=
  (pool.mapTx.keys.sort HashLE).filterMap fun hash ↦ (pool.mapTx.lookup hash).map (·.tx)

structure Collected (D : Type) where
  vOrphan : List (Option (COrphan D)) := []
  mapDependers : Uint256 → List Nat := fun _ ↦ []
  vecPriority : List (TxPriority D) := []

/-- The variables of the loop over the inputs. -/
structure InputScan (D : Type) extends Collected D where
  porphan : Option Nat := none
  dPriority : D
  nTotalIn : Int64 := 0

namespace TemplateEnv

variable (env : TemplateEnv D) (call : TemplateCall) (pool : CTxMemPool) (view : CCoinsView)

/-- The entry that `porphan` points to, made if there is none. -/
def makeOrphan (tx : CTransaction) (s : InputScan D) : Nat × List (Option (COrphan D)) :=
  match s.porphan with
  | some i => (i, s.vOrphan)
  | none =>
      (s.vOrphan.length,
        s.vOrphan ++ [some ⟨tx, ∅, env.doubles.ofInt 0, env.doubles.ofInt 0⟩])

/-- The transaction has to wait for `hash`. -/
def waitFor (tx : CTransaction) (hash : Uint256) (s : InputScan D) : InputScan D :=
  let (i, vOrphan) := env.makeOrphan tx s
  { s with
    porphan := some i
    vOrphan := vOrphan.modify i <| Option.map fun o ↦
      { o with setDependsOn := insert hash o.setDependsOn }
    mapDependers := Function.update s.mapDependers hash (s.mapDependers hash ++ [i]) }

/-- An input whose transaction is in the view or in the pool. -/
def scanInput (tx : CTransaction) (s : InputScan D) (txin : CTxIn) :
    Except Failure (InputScan D) :=
  if view.haveCoins txin.prevout.hash then
    let coins := view.getCoins txin.prevout.hash
    match coins.vout[txin.prevout.n]? with
    | none => .error .assertion
    | some txout =>
        let nConf := call.pindexPrev.nHeight - coins.nHeight + 1
        .ok { s with
          nTotalIn := s.nTotalIn + txout.nValue
          dPriority := env.doubles.add s.dPriority
            (env.doubles.mul (env.doubles.ofInt txout.nValue.toInt) (env.doubles.ofInt nConf)) }
  else
    match (pool.mapTx.lookup txin.prevout.hash).bind fun e ↦ e.tx.vout[txin.prevout.n]? with
    | none => .error .assertion
    | some txout =>
        let s := env.waitFor tx txin.prevout.hash s
        .ok { s with nTotalIn := s.nTotalIn + txout.nValue }

/-- The loop over the inputs, with `fMissingInputs`. -/
def scanInputs (tx : CTransaction) (s : InputScan D) :
    List CTxIn → Except Failure (InputScan D × Bool)
  | [] => .ok (s, false)
  | txin :: vin =>
      if !view.haveCoins txin.prevout.hash && !pool.exists txin.prevout.hash then
        -- This should never happen
        if call.fDebug then .error .assertion
        else
          -- the pointers to the entry stay in `mapDependers`
          let vOrphan :=
            if s.porphan.isSome then s.vOrphan.modify (s.vOrphan.length - 1) fun _ ↦ none
            else s.vOrphan
          .ok ({ s with vOrphan := vOrphan }, true)
      else do
        let s ← env.scanInput call pool view tx s txin
        scanInputs tx s vin

/-- A transaction whose inputs were all found. -/
def enqueue (tx : CTransaction) (s : InputScan D) : Except Failure (Collected D) := do
  let nTxSize := tx.getSerializeSize
  let dPriority := tx.computePriority env.doubles s.dPriority nTxSize
  let nValueOut ← tx.valueOut
  let dFeePerKb := env.doubles.div (env.doubles.ofInt (s.nTotalIn - nValueOut).toInt)
    (env.doubles.div (env.doubles.ofInt nTxSize) (env.doubles.ofInt 1000))
  match s.porphan with
  | some i =>
      return { s.toCollected with
        vOrphan := s.vOrphan.modify i <| Option.map fun o ↦
          { o with dPriority := dPriority, dFeePerKb := dFeePerKb } }
  | none =>
      return { s.toCollected with
        vecPriority := s.vecPriority ++ [⟨dPriority, dFeePerKb, tx⟩] }

/-- The body of the loop over the pool. -/
def collectTx (s : Collected D) (tx : CTransaction) : Except Failure (Collected D) :=
  if call.isExcluded tx then .ok s
  else do
    let (s, fMissingInputs) ← env.scanInputs call pool view tx
      { s with dPriority := env.doubles.ofInt 0 } tx.vin
    if fMissingInputs then return s.toCollected
    env.enqueue tx s

def collect : Except Failure (Collected D) :=
  pool.sortedTxs.foldlM (env.collectTx call pool view) {}

end TemplateEnv

/-! ## The loop over the queue -/

/-- The variables of the loop; the block is without its coinbase. -/
structure Selection (D : Type) where
  view : CCoinsView
  vOrphan : List (Option (COrphan D))
  vecPriority : List (TxPriority D)
  vtx : List CTransaction := []
  vTxFees : List Int64 := []
  vTxSigOps : List Nat := []
  nBlockSize : Nat := 1000
  nBlockSigOps : Nat := 100
  nFees : Int64 := 0
  fSortedByFee : Bool

namespace TemplateEnv

variable (env : TemplateEnv D) (call : TemplateCall) (mapDependers : Uint256 → List Nat)

def comparer (fSortedByFee : Bool) : TxPriority D → TxPriority D → Bool :=
  txPriorityCompare env.doubles fSortedByFee

/-- The body of the loop over the transactions that depend on `hash`. -/
def releaseOrphan (hash : Uint256) (s : Selection D) (porphan : Nat) :
    Except Failure (Selection D) :=
  match s.vOrphan[porphan]? with
  | some (some o) =>
      if o.setDependsOn = ∅ then .ok s
      else
        let o := { o with setDependsOn := o.setDependsOn.erase hash }
        .ok { s with
          vOrphan := s.vOrphan.set porphan (some o)
          vecPriority :=
            if o.setDependsOn = ∅ then
              env.heap.pushHeap (env.comparer s.fSortedByFee) s.vecPriority
                ⟨o.dPriority, o.dFeePerKb, o.ptx⟩
            else s.vecPriority }
  | _ => .error .assertion

/-- The transaction joins the block. -/
def addTx (tx : CTransaction) (nTxFees : Int64) (nTxSigOps : Nat) (s : Selection D) :
    Except Failure (Selection D) := do
  let hash := env.getTxHash tx
  let (view, _) ← s.view.updateCoins tx call.nHeight hash
  let s := { s with
    view := view
    vtx := s.vtx ++ [tx]
    vTxFees := s.vTxFees ++ [nTxFees]
    vTxSigOps := s.vTxSigOps ++ [nTxSigOps]
    nBlockSize := s.nBlockSize + tx.getSerializeSize
    nBlockSigOps := s.nBlockSigOps + nTxSigOps
    nFees := s.nFees + nTxFees }
  (mapDependers hash).foldlM (env.releaseOrphan hash) s

/-- The checks that need the inputs. -/
def tryTx (tx : CTransaction) (s : Selection D) : Except Failure (Selection D) :=
  if !s.view.haveInputs tx then .ok s
  else do
    let nValueIn ← s.view.getValueIn tx
    let nValueOut ← tx.valueOut
    let nTxFees := nValueIn - nValueOut
    let nTxSigOps := env.getLegacySigOpCount tx + env.getP2SHSigOpCount tx s.view
    if maxBlockSigops ≤ s.nBlockSigOps + nTxSigOps then return s
    match s.view.checkInputs env.mapBlockIndex env.verifyScript tx true scriptVerifyP2sh false with
    | .error e => if e.returns then return s else .error e
    | .ok _ => env.addTx call mapDependers tx nTxFees nTxSigOps s

/-- Whether the queue is sorted by fee from this transaction on. -/
def switches (p : TxPriority D) (s : Selection D) : Bool :=
  !s.fSortedByFee &&
    (decide (call.nBlockPrioritySize ≤ s.nBlockSize + p.ptx.getSerializeSize) ||
      !allowFree env.doubles p.dPriority)

/-- The rest of the loop body, for the transaction that was taken off the queue. -/
def considerTx (p : TxPriority D) (s : Selection D) : Except Failure (Selection D) :=
  let nTxSize := p.ptx.getSerializeSize
  -- Size limits
  if call.nBlockMaxSize ≤ s.nBlockSize + nTxSize then .ok s
  -- Legacy limits on sigOps
  else if maxBlockSigops ≤ s.nBlockSigOps + env.getLegacySigOpCount p.ptx then .ok s
  -- Skip free transactions if we're past the minimum block size
  else if s.fSortedByFee && env.doubles.lt p.dFeePerKb (env.doubles.ofInt env.nMinRelayTxFee.toInt)
      && decide (call.nBlockMinSize ≤ s.nBlockSize + nTxSize) then .ok s
  else
    let s := if env.switches call p s then
        { s with
          fSortedByFee := true
          vecPriority := env.heap.makeHeap (env.comparer true) s.vecPriority }
      else s
    env.tryTx call mapDependers p.ptx s

/-- The body of the loop over the queue, whose front is `p`. -/
def takeTx (p : TxPriority D) (s : Selection D) : Except Failure (Selection D) :=
  env.considerTx call mapDependers p
    { s with vecPriority := env.heap.popHeap (env.comparer s.fSortedByFee) s.vecPriority }

/-- The loop over the queue, for at most `fuel` rounds. -/
def selectTxs : (fuel : Nat) → Selection D → Except Failure (Selection D)
  | 0, _ => .error .diverges
  | fuel + 1, s =>
      match s.vecPriority with
      | [] => .ok s
      | p :: _ => do
          let s ← env.takeTx call mapDependers p s
          selectTxs fuel s

/-! ## `CreateNewBlock` -/

/-- The state in which the loop over the queue begins. -/
def startSelection (view : CCoinsView) (c : Collected D) : Selection D :=
  let fSortedByFee := decide (call.nBlockPrioritySize ≤ 0)
  { view := view
    vOrphan := c.vOrphan
    vecPriority := env.heap.makeHeap (env.comparer fSortedByFee) c.vecPriority
    fSortedByFee := fSortedByFee }

end TemplateEnv

/-- The coinbase has no fee and no sigops in the lists of the loop. -/
structure CBlockTemplate where
  block : CBlock
  vTxFees : List Int64
  vTxSigOps : List Nat

namespace TemplateEnv

variable (env : TemplateEnv D) (call : TemplateCall)

/-- The block of what was selected. -/
def fillBlock (s : Selection D) (nValue : UInt64) : CBlockTemplate where
  block := { call.header with vtx := call.coinbase nValue :: s.vtx }
  vTxFees := -s.nFees :: s.vTxFees
  vTxSigOps := env.getLegacySigOpCount (call.coinbase nValue) :: s.vTxSigOps

/-- `CreateNewBlock`, with at most `rounds` rounds of the loop over the queue. -/
def createNewBlock (rounds : Nat) (pool : CTxMemPool) (pcoinsTip : CCoinsView) :
    Except Failure CBlockTemplate := do
  let c ← env.collect call pool pcoinsTip
  let s ← env.selectTxs call c.mapDependers rounds (env.startSelection call pcoinsTip c)
  let nValue ← blockValue env.toBlockEnv call.fuel call.nHeight s.nFees call.pindexPrev.blockHash
  let pblocktemplate := env.fillBlock call s nValue
  match connectBlock env.toBlockEnv {} call.fuel pblocktemplate.block call.indexDummy pcoinsTip true
    with
  | (_, .ok _) => return pblocktemplate
  | (_, .error e) =>
      if e.returns then .error (.exception "CreateNewBlock() : ConnectBlock failed") else .error e

end TemplateEnv

end Fedoracoin
