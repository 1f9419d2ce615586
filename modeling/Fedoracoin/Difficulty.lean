import Fedoracoin.BigNum
import Fedoracoin.Lib.Loop

/-!
# The next target

`GetNextWorkRequired` of `main.cpp` and the functions it chooses from, and `ComputeMinWork`.
What they read of the block index is a block and its ancestors: for a `CBlockIndex*` there is
the list of entries from the block down to the genesis block, so that `pprev` is the tail, a
null pointer is the empty list, and the height is the number of ancestors.

The test of `KimotoGravityWell` on floating-point numbers is a parameter, of the three numbers
it depends on.
-/

namespace Fedoracoin

/-- The part of an index entry that targets depend on. -/
structure TargetIndex where
  nTime : Nat
  nBits : Nat
deriving DecidableEq

namespace TargetIndex

def getBlockTime (pindex : TargetIndex) : Int := pindex.nTime

/-- The target that `nBits` stands for. -/
def target (pindex : TargetIndex) : CBigNum := .setCompact pindex.nBits

end TargetIndex

/-- A block and its ancestors, the genesis block last. -/
abbrev Ancestry := List TargetIndex

def Ancestry.nHeight (pindex : Ancestry) : Nat := pindex.length - 1

/-- `bnProofOfWorkLimit`, which is also that of the main network's parameters. -/
def bnProofOfWorkLimit : CBigNum := 2 ^ 236 - 1

def nTargetTimespan : Int := 10 * 60
def nTargetSpacing : Int := 60
def nInterval : Nat := (nTargetTimespan / nTargetSpacing).toNat

/-! ## Retargeting every ten blocks -/

/-- The last block that the testnet's special rule did not make easier. -/
def lastRegularBits : Ancestry → Nat
  | [] => 0
  | [pindex] => pindex.nBits
  | pindex :: pprev =>
      if Ancestry.nHeight (pindex :: pprev) % nInterval ≠ 0 ∧
          pindex.nBits = CBigNum.getCompact bnProofOfWorkLimit then
        lastRegularBits pprev
      else pindex.nBits

/-- What is required between two adjustments of a block with time `nTime`. -/
def bitsBetween (testNet : Bool) (nTime : Nat) (pindexLast : TargetIndex) (pprev : Ancestry) :
    Nat :=
  if testNet then
    if (pindexLast.nTime + nTargetSpacing.toNat * 2) % 2 ^ 32 < nTime then
      CBigNum.getCompact bnProofOfWorkLimit
    else lastRegularBits (pindexLast :: pprev)
  else pindexLast.nBits

/-- `nActualTimespan` before it is limited, with the assertion that there is a first block. -/
def actualTimespan (pindexLast : TargetIndex) (pprev : Ancestry) : Except Failure Int :=
  let blockstogoback := if pprev.length + 1 ≠ nInterval then nInterval else nInterval - 1
  match (pindexLast :: pprev).drop blockstogoback with
  | [] => .error .assertion
  | pindexFirst :: _ => .ok (pindexLast.getBlockTime - pindexFirst.getBlockTime)

/-- The target of `nBits` scaled with the time span. -/
def retarget (nBits : Nat) (nActualTimespan : Int) : Except Failure Nat := do
  let bnNew ← CBigNum.div (.setCompact nBits * nActualTimespan) nTargetTimespan
  let bnNew := if bnProofOfWorkLimit < bnNew then bnProofOfWorkLimit else bnNew
  return CBigNum.getCompact bnNew

/-- The limits of the first version.  The quotients are between integers. -/
def limitTimespanV1 (nActualTimespan : Int) : Int :=
  let nActualTimespanMax := nTargetTimespan * (112 / 100)
  let nActualTimespanMin := nTargetTimespan * (100 / 111)
  let nActualTimespan :=
    if nActualTimespan < nActualTimespanMin then nActualTimespanMin else nActualTimespan
  if nActualTimespanMax < nActualTimespan then nActualTimespanMax else nActualTimespan

def getNextWorkRequiredV1 (testNet : Bool) (nTime : Nat) : Ancestry → Except Failure Nat
  | [] => .ok (CBigNum.getCompact bnProofOfWorkLimit)
  | pindexLast :: pprev =>
      if (pprev.length + 1) % nInterval ≠ 0 then
        .ok (bitsBetween testNet nTime pindexLast pprev)
      else do
        let nActualTimespan ← actualTimespan pindexLast pprev
        retarget pindexLast.nBits (limitTimespanV1 nActualTimespan)

/-- The limits of the second version for the block at the given height. -/
def limitTimespanV2 (height : Nat) (nActualTimespan : Int) : Int :=
  let divisor := if 10000 < height then 4 else if 5000 < height then 8 else 16
  let nActualTimespan :=
    if nActualTimespan < nTargetTimespan / divisor then nTargetTimespan / divisor
    else nActualTimespan
  if nTargetTimespan * 4 < nActualTimespan then nTargetTimespan * 4 else nActualTimespan

def getNextWorkRequiredV2 (testNet : Bool) (nTime : Nat) : Ancestry → Except Failure Nat
  | [] => .ok (CBigNum.getCompact bnProofOfWorkLimit)
  | pindexLast :: pprev =>
      if (pprev.length + 1) % nInterval ≠ 0 then
        .ok (bitsBetween testNet nTime pindexLast pprev)
      else do
        let nActualTimespan ← actualTimespan pindexLast pprev
        retarget pindexLast.nBits (limitTimespanV2 (pprev.length + 1) nActualTimespan)

/-! ## Kimoto gravity well -/

/-- The arguments of `KimotoGravityWell` and its test on floating-point numbers. -/
structure GravityParams where
  targetBlocksSpacingSeconds : Nat
  pastBlocksMin : Nat
  pastBlocksMax : Nat
  /-- Whether the ratio is beyond the event horizon. -/
  eventHorizon : (pastBlocksMass : Nat) → (pastRateActualSeconds pastRateTargetSeconds : Int) → Bool

/-- The variables of the loop. -/
structure GravityState where
  blockReading : Ancestry
  i : Nat := 1
  pastBlocksMass : Nat := 0
  pastRateActualSeconds : Int := 0
  pastRateTargetSeconds : Int := 0
  pastDifficultyAverage : CBigNum := 0
  pastDifficultyAveragePrev : CBigNum := 0

/-- The average with the target of one more block. -/
def gravityAverage (s : GravityState) (reading : TargetIndex) : Except Failure CBigNum :=
  if s.i = 1 then .ok reading.target
  else do
    let change ← CBigNum.div (reading.target - s.pastDifficultyAveragePrev) s.i
    return change + s.pastDifficultyAveragePrev

/-- The variables after the part of the loop body that does not leave it.  The product of two
`uint64` is assigned to an `int64`. -/
def gravityRead (params : GravityParams) (lastSolved reading : TargetIndex) (s : GravityState)
    (average : CBigNum) : GravityState :=
  let pastBlocksMass := s.pastBlocksMass + 1
  let pastRateActualSeconds := lastSolved.getBlockTime - reading.getBlockTime
  { s with
    pastBlocksMass := pastBlocksMass
    pastDifficultyAverage := average
    pastDifficultyAveragePrev := average
    pastRateActualSeconds := if pastRateActualSeconds < 0 then 0 else pastRateActualSeconds
    pastRateTargetSeconds :=
      (BitVec.ofNat 64 (params.targetBlocksSpacingSeconds * pastBlocksMass)).toInt }

/-- One iteration; the loop is left with its variables, or with a failure. -/
def gravityBody (params : GravityParams) (lastSolved : TargetIndex) (s : GravityState) :
    Option (Except Failure GravityState ⊕ GravityState) :=
  match s.blockReading with
  | [] => some (.inl (.ok s))
  | reading :: pprev =>
      if pprev.length = 0 then some (.inl (.ok s))
      else if 0 < params.pastBlocksMax ∧ params.pastBlocksMax < s.i then some (.inl (.ok s))
      else
        match gravityAverage s reading with
        | .error e => some (.inl (.error e))
        | .ok average =>
            let s := gravityRead params lastSolved reading s average
            if params.pastBlocksMin ≤ s.pastBlocksMass ∧
                params.eventHorizon s.pastBlocksMass s.pastRateActualSeconds
                  s.pastRateTargetSeconds then some (.inl (.ok s))
            else if pprev = [] then some (.inl (.ok s))
            else some (.inr { s with blockReading := pprev, i := (s.i + 1) % 2 ^ 32 })

/-- What follows the loop. -/
def gravityScale (s : GravityState) : Except Failure Nat := do
  let bnNew ←
    if s.pastRateActualSeconds ≠ 0 ∧ s.pastRateTargetSeconds ≠ 0 then
      CBigNum.div (s.pastDifficultyAverage * s.pastRateActualSeconds) s.pastRateTargetSeconds
    else pure s.pastDifficultyAverage
  return CBigNum.getCompact (if bnProofOfWorkLimit < bnNew then bnProofOfWorkLimit else bnNew)

/-- The loop, which reads a block of the chain in each iteration. -/
def gravityLoop (params : GravityParams) (lastSolved : TargetIndex) (pindexLast : Ancestry) :
    Except Failure GravityState :=
  (Loop.run (gravityBody params lastSolved) (pindexLast.length + 1)
    { blockReading := pindexLast }).getD (.error .diverges)

def kimotoGravityWell (params : GravityParams) : Ancestry → Except Failure Nat
  | [] => .ok (CBigNum.getCompact bnProofOfWorkLimit)
  | pindexLast :: pprev =>
      if pprev.length = 0 ∨ pprev.length < params.pastBlocksMin then
        .ok (CBigNum.getCompact bnProofOfWorkLimit)
      else do
        let s ← gravityLoop params pindexLast (pindexLast :: pprev)
        gravityScale s

/-- The arguments that `GetNextWorkRequired_V3` calls it with: a quarter of a day and a day. -/
def gravityParamsV3 (eventHorizon : Nat → Int → Int → Bool) : GravityParams where
  targetBlocksSpacingSeconds := 60
  pastBlocksMin := 60 * 60 * 24 / 4 / 60
  pastBlocksMax := 60 * 60 * 24 * 1 / 60
  eventHorizon := eventHorizon

def getNextWorkRequiredV3 (eventHorizon : Nat → Int → Int → Bool) (pindexLast : Ancestry) :
    Except Failure Nat :=
  kimotoGravityWell (gravityParamsV3 eventHorizon) pindexLast

/-! ## `GetNextWorkRequired` -/

def getNextWorkRequired (testNet : Bool) (eventHorizon : Nat → Int → Int → Bool) (nTime : Nat)
    (pindexLast : Ancestry) : Except Failure Nat :=
  if pindexLast = [] then .error .assertion
  else if pindexLast.length < 2500 then getNextWorkRequiredV1 testNet nTime pindexLast
  else if pindexLast.length < 51000 then getNextWorkRequiredV2 testNet nTime pindexLast
  else getNextWorkRequiredV3 eventHorizon pindexLast

/-! ## `ComputeMinWork` -/

/-- `while (nTime > 0 && bnResult < bnLimit)`, for at most `fuel` rounds. -/
def minWorkLoop (bnLimit : CBigNum) : (fuel : Nat) → (bnResult : CBigNum) → (nTime : Int) → CBigNum
  | 0, bnResult, _ => bnResult
  | fuel + 1, bnResult, nTime =>
      if 0 < nTime ∧ bnResult < bnLimit then
        minWorkLoop bnLimit fuel (bnResult * 4) (nTime - nTargetTimespan * 4)
      else bnResult

/-- `ComputeMinWork`; `bnLimit` is `Params().ProofOfWorkLimit()`.  Each round takes more than a
second off `nTime`. -/
def computeMinWork (testNet : Bool) (bnLimit : CBigNum) (nBase : Nat) (nTime : Int) : Nat :=
  if testNet ∧ nTargetSpacing * 2 < nTime then CBigNum.getCompact bnLimit
  else
    let bnResult := minWorkLoop bnLimit nTime.toNat (.setCompact nBase) nTime
    CBigNum.getCompact (if bnLimit < bnResult then bnLimit else bnResult)

end Fedoracoin
