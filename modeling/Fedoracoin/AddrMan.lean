import Fedoracoin.Lib.BackPointer
import Fedoracoin.Lib.MapSum
import Mathlib.Data.Finset.Sort

/-!
# The address manager

`CAddrMan` of `addrman.h` and `addrman.cpp`: the tables, the functions that move addresses between
them, and the functions that read them.

The bucket hashes, the test of `IsRoutable` and the two tests of `Select_` in floating point are
parameters.  The random numbers of a call are a sequence that the call is given, and so is the
adjusted time.  Where an `assert` fails, where the source would follow a subscript to an element
that is not there, and where an `int` is incremented past the largest one, the model has no value.
-/

namespace Fedoracoin

abbrev CNetAddr := BitVec 128

structure CService where
  ip : CNetAddr := 0
  port : BitVec 16 := 0
deriving DecidableEq

structure CAddress extends CService where
  /-- `NODE_NETWORK` by default. -/
  nServices : BitVec 64 := 1
  nTime : BitVec 32 := 100000000
  nLastTry : Int := 0
deriving DecidableEq

structure CAddrInfo extends CAddress where
  /-- where knowledge about this address first came from -/
  source : CNetAddr := 0
  nLastSuccess : Int := 0
  nAttempts : Int := 0
  /-- reference count in new sets (memory only) -/
  nRefCount : Int := 0
  /-- in tried set? (memory only) -/
  fInTried : Bool := false
  /-- position in `vRandom` -/
  nRandomPos : Int := -1
deriving DecidableEq

def addrmanTriedBucketSize : Nat := 64

def addrmanNewBucketSize : Nat := 64

def addrmanNewBucketsPerAddress : Nat := 4

def addrmanTriedEntriesInspectOnEvict : Nat := 4

/-- One of the `ADDRMAN_TRIED_BUCKET_COUNT` buckets. -/
abbrev TriedBucket := Fin 64

/-- One of the `ADDRMAN_NEW_BUCKET_COUNT` buckets. -/
abbrev NewBucket := Fin 256

/-- What the address manager takes from elsewhere. -/
structure AddrEnv where
  /-- `CAddrInfo::GetTriedBucket`. -/
  getTriedBucket : List UInt8 → CService → TriedBucket
  /-- `CAddrInfo::GetNewBucket`, from the key, the address and the source. -/
  getNewBucket : List UInt8 → CNetAddr → CNetAddr → NewBucket
  isRoutable : CNetAddr → Bool
  /-- Whether `Select_` uses a tried node, from `nTried`, `nNew`, `nUnkBias` and a random number. -/
  useTried : Int → Int → Int → Nat → Bool
  /-- Whether `Select_` takes an entry: the round, the entry, the time and a random number. -/
  hasChance : Nat → CAddrInfo → Int → Nat → Bool

structure CAddrMan where
  /-- secret key to randomize bucket select with -/
  nKey : List UInt8
  /-- An `int`, as are the ids; it starts at zero and is only incremented. -/
  nIdCount : Nat
  mapInfo : Finmap fun _ : Nat ↦ CAddrInfo
  mapAddr : Finmap fun _ : CNetAddr ↦ Nat
  vRandom : List Nat
  nTried : Int
  vvTried : TriedBucket → List Nat
  nNew : Int
  vvNew : NewBucket → Finset Nat

/-- `GetRandInt`, which is zero for an empty range. -/
def getRandInt (rand : Nat) (nMax : Nat) : Nat := if nMax = 0 then 0 else rand % nMax

/-- An integer as an `unsigned int`. -/
def toUnsigned (n : Int) : Nat := (BitVec.ofInt 32 n).toNat

namespace CAddrInfo

/-- The constructor from an address and its source. -/
def new (addr : CAddress) (addrSource : CNetAddr) : CAddrInfo :=
  { toCAddress := { addr with nLastTry := 0 }, source := addrSource }

def setRandomPos (info : CAddrInfo) (nRandomPos : Int) : CAddrInfo :=
  { info with nRandomPos := nRandomPos }

def setRefCount (info : CAddrInfo) (nRefCount : Int) : CAddrInfo :=
  { info with nRefCount := nRefCount }

def setInTried (info : CAddrInfo) (fInTried : Bool) : CAddrInfo :=
  { info with fInTried := fInTried }

/-- `IsTerrible`. -/
def isTerrible (info : CAddrInfo) (nNow : Int) : Bool :=
  -- never remove things tried the last minute
  if info.nLastTry ≠ 0 ∧ nNow - 60 ≤ info.nLastTry then false
  -- came in a flying DeLorean
  else if nNow + 10 * 60 < info.nTime.toNat then true
  -- not seen in over a month
  else if info.nTime = 0 ∨ 30 * 86400 < nNow - info.nTime.toNat then true
  -- tried three times and never a success
  else if info.nLastSuccess = 0 ∧ 3 ≤ info.nAttempts then true
  -- 10 successive failures in the last week
  else if 7 * 86400 < nNow - info.nLastSuccess ∧ 10 ≤ info.nAttempts then true
  else false

end CAddrInfo

namespace CAddrMan

/-- The state that the constructor leaves, whatever the key. -/
def new (nKey : List UInt8) : CAddrMan where
  nKey := nKey
  nIdCount := 0
  mapInfo := ∅
  mapAddr := ∅
  vRandom := []
  nTried := 0
  vvTried _ := []
  nNew := 0
  vvNew _ := ∅

/-- `mapInfo[nId] = info`. -/
def setInfo (am : CAddrMan) (nId : Nat) (info : CAddrInfo) : CAddrMan :=
  { am with mapInfo := am.mapInfo.insert nId info }

def setRandom (am : CAddrMan) (vRandom : List Nat) : CAddrMan := { am with vRandom := vRandom }

/-- `nTried += n`. -/
def countTried (am : CAddrMan) (n : Int) : CAddrMan := { am with nTried := am.nTried + n }

/-- `nNew += n`. -/
def countNew (am : CAddrMan) (n : Int) : CAddrMan := { am with nNew := am.nNew + n }

/-- `vvTried[nKBucket] = vTried`. -/
def setTried (am : CAddrMan) (nKBucket : TriedBucket) (vTried : List Nat) : CAddrMan :=
  { am with vvTried := Function.update am.vvTried nKBucket vTried }

/-- `vvNew[nUBucket] = vNew`. -/
def setNew (am : CAddrMan) (nUBucket : NewBucket) (vNew : Finset Nat) : CAddrMan :=
  { am with vvNew := Function.update am.vvNew nUBucket vNew }

/-- `Find`. -/
def find (am : CAddrMan) (addr : CNetAddr) : Option (Nat × CAddrInfo) := do
  let nId ← am.mapAddr.lookup addr
  let info ← am.mapInfo.lookup nId
  return (nId, info)

/-- `Create`, once the next id is there. -/
def createNext (am : CAddrMan) (addr : CAddress) (addrSource : CNetAddr) :
    Nat × CAddrInfo × CAddrMan :=
  let nId := am.nIdCount
  let info := { CAddrInfo.new addr addrSource with nRandomPos := am.vRandom.length }
  (nId, info,
    { am with
      nIdCount := nId + 1
      mapInfo := am.mapInfo.insert nId info
      mapAddr := am.mapAddr.insert addr.ip nId
      vRandom := am.vRandom ++ [nId] })

/-- `Create`. -/
def create (am : CAddrMan) (addr : CAddress) (addrSource : CNetAddr) :
    Option (Nat × CAddrInfo × CAddrMan) :=
  -- `nIdCount++`
  if am.nIdCount + 1 < 2 ^ 31 then some (am.createNext addr addrSource) else none

/-- `SwapRandom`. -/
def swapRandom (am : CAddrMan) (nRndPos1 nRndPos2 : Nat) : Option CAddrMan :=
  if nRndPos1 = nRndPos2 then some am
  else do
    let nId1 ← am.vRandom[nRndPos1]?
    let nId2 ← am.vRandom[nRndPos2]?
    let info1 ← am.mapInfo.lookup nId1
    let am := am.setInfo nId1 (info1.setRandomPos nRndPos2)
    let info2 ← am.mapInfo.lookup nId2
    let am := am.setInfo nId2 (info2.setRandomPos nRndPos1)
    return am.setRandom ((am.vRandom.set nRndPos1 nId2).set nRndPos2 nId1)

/-- One iteration of `SelectTried`: the bucket, and the entry chosen so far with its position. -/
def selectTriedStep (rand : Nat → Nat) (am : CAddrMan) (s : List Nat × Option (Nat × Nat))
    (i : Nat) : Option (List Nat × Option (Nat × Nat)) := do
  let (vTried, oldest) := s
  let nPos := getRandInt (rand i) (vTried.length - i) + i
  let nTemp ← vTried[nPos]?
  let first ← vTried[i]?
  let vTried := (vTried.set nPos first).set i nTemp
  match oldest with
  | none => return (vTried, some (nTemp, nPos))
  | some (nOldest, _) =>
      let info ← am.mapInfo.lookup nTemp
      let infoOldest ← am.mapInfo.lookup nOldest
      if info.nLastSuccess < infoOldest.nLastSuccess then return (vTried, some (nTemp, nPos))
      else return (vTried, oldest)

/-- `SelectTried`, which shuffles the bucket and gives a position in it. -/
def selectTried (rand : Nat → Nat) (am : CAddrMan) (nKBucket : TriedBucket) :
    Option (CAddrMan × Nat) := do
  let size := (am.vvTried nKBucket).length
  let (vTried, oldest) ← (List.range (min addrmanTriedEntriesInspectOnEvict size)).foldlM
    (selectTriedStep rand am) (am.vvTried nKBucket, none)
  let (_, nOldestPos) ← oldest
  return (am.setTried nKBucket vTried, nOldestPos)

/-- Deletes the entry at the end of `vRandom`. -/
def popRandom (am : CAddrMan) (nId : Nat) (addr : CNetAddr) : CAddrMan :=
  { am with
    vRandom := am.vRandom.dropLast
    mapAddr := am.mapAddr.erase addr
    mapInfo := am.mapInfo.erase nId
    nNew := am.nNew - 1 }

/-- Takes an entry out of a new bucket, and deletes it if it was in no other: what both branches of
`ShrinkNew` do. -/
def dropReference (am : CAddrMan) (nUBucket : NewBucket) (nId : Nat) : Option CAddrMan := do
  let info ← am.mapInfo.lookup nId
  let am := am.setInfo nId (info.setRefCount (info.nRefCount - 1))
  let am ← if info.nRefCount - 1 = 0 then do
      let am ← am.swapRandom (toUnsigned info.nRandomPos) (toUnsigned (am.vRandom.length - 1))
      pure (am.popRandom nId info.ip)
    else some am
  return am.setNew nUBucket ((am.vvNew nUBucket).erase nId)

/-- One iteration of the second walk of `ShrinkNew`, at the entry with index `nI`. -/
def pickOldestStep (am : CAddrMan) (n : List Nat) (nOldest : Option Nat) (entry : Nat × Nat) :
    Option (Option Nat) :=
  let (nId, nI) := entry
  if nI ∈ n then
    match nOldest with
    | none => return some nId
    | some old => do
        let info ← am.mapInfo.lookup nId
        let infoOldest ← am.mapInfo.lookup old
        if info.nTime < infoOldest.nTime then return some nId else return nOldest
  else return nOldest

/-- The first walk of `ShrinkNew`. -/
def findTerrible (am : CAddrMan) (nNow : Int) : List Nat → Option (Option Nat)
  | [] => some none
  | nId :: rest => do
      let info ← am.mapInfo.lookup nId
      if info.isTerrible nNow then return some nId else am.findTerrible nNow rest

/-- `ShrinkNew`. -/
def shrinkNew (rand : Nat → Nat) (nNow : Int) (am : CAddrMan) (nUBucket : NewBucket) :
    Option CAddrMan := do
  let vNew := (am.vvNew nUBucket).sort (· ≤ ·)
  -- first look for deletable items
  match ← am.findTerrible nNow vNew with
  | some nId => am.dropReference nUBucket nId
  | none =>
      -- otherwise, select four randomly, and pick the oldest of those to replace
      let n := (List.range 4).map fun k ↦ getRandInt (rand k) vNew.length
      let nOldest ← vNew.zipIdx.foldlM (am.pickOldestStep n) none
      am.dropReference nUBucket (← nOldest)

/-- One iteration of the loop of `MakeTried` over the new buckets. -/
def removeFromBucket (nId : Nat) (am : CAddrMan) (nUBucket : NewBucket) : Option CAddrMan :=
  if nId ∈ am.vvNew nUBucket then do
    let info ← am.mapInfo.lookup nId
    let am := am.setInfo nId (info.setRefCount (info.nRefCount - 1))
    return am.setNew nUBucket ((am.vvNew nUBucket).erase nId)
  else some am

variable (E : AddrEnv)

/-- `MakeTried`. -/
def makeTried (rand : Nat → Nat) (am : CAddrMan) (nId : Nat) (nOrigin : NewBucket) :
    Option CAddrMan := do
  guard (nId ∈ am.vvNew nOrigin)
  -- remove the entry from all new buckets
  let am ← (List.finRange 256).foldlM (removeFromBucket nId) am
  let am := am.countNew (-1)
  let info ← am.mapInfo.lookup nId
  guard (info.nRefCount = 0)
  -- what tried bucket to move the entry to
  let nKBucket := E.getTriedBucket am.nKey info.toCService
  -- first check whether there is place to just add it
  if (am.vvTried nKBucket).length < addrmanTriedBucketSize then
    let am := (am.setTried nKBucket (am.vvTried nKBucket ++ [nId])).countTried 1
    return am.setInfo nId (info.setInTried true)
  else
    -- otherwise, find an item to evict
    let (am, nPos) ← am.selectTried rand nKBucket
    let nOld ← (am.vvTried nKBucket)[nPos]?
    let infoOld ← am.mapInfo.lookup nOld
    -- find which new bucket it belongs to
    let nUBucket := E.getNewBucket am.nKey infoOld.ip infoOld.source
    let am := am.setInfo nOld ((infoOld.setRefCount 1).setInTried false)
    -- if there is no place in that one, move it to the new bucket `nId` came from
    let nTarget := if (am.vvNew nUBucket).card < addrmanNewBucketSize then nUBucket else nOrigin
    let am := am.setNew nTarget (insert nOld (am.vvNew nTarget))
    let am := am.countNew 1
    let am := am.setTried nKBucket ((am.vvTried nKBucket).set nPos nId)
    let info ← am.mapInfo.lookup nId
    return am.setInfo nId (info.setInTried true)

/-- The search of `Good_` for a bucket that holds the entry, from a random one on. -/
def findBucket (am : CAddrMan) (nRnd : Nat) (nId : Nat) : Option NewBucket :=
  ((List.range 256).map fun n ↦ Fin.ofNat 256 (n + nRnd)).find? fun nB ↦ nId ∈ am.vvNew nB

/-- `Good_`. -/
def good_ (rand : Nat → Nat) (am : CAddrMan) (addr : CService) (nTime : Int) : Option CAddrMan :=
  match am.find addr.ip with
  -- if not found, bail out
  | none => some am
  | some (nId, info) =>
      -- check whether we are talking about the exact same CService (including same port)
      if info.toCService ≠ addr then some am
      else
        let am := am.setInfo nId { info with
          nLastSuccess := nTime
          nLastTry := nTime
          nTime := BitVec.ofInt 32 nTime
          nAttempts := 0 }
        -- if it is already in the tried set, don't do anything else
        if info.fInTried then some am
        else
          match am.findBucket (getRandInt (rand 0) 256) nId with
          | none => some am
          | some nUBucket => am.makeTried E (fun k ↦ rand (k + 1)) nId nUBucket

/-- The end of `Add_`: the entry goes to the bucket of its new source. -/
def addReference (rand : Nat → Nat) (nNow : Int) (am : CAddrMan) (nId : Nat) (info : CAddrInfo)
    (source : CNetAddr) : Option CAddrMan :=
  let nUBucket := E.getNewBucket am.nKey info.ip source
  if nId ∈ am.vvNew nUBucket then some am
  else do
    let am := am.setInfo nId (info.setRefCount (info.nRefCount + 1))
    let am ←
      if (am.vvNew nUBucket).card = addrmanNewBucketSize then am.shrinkNew rand nNow nUBucket
      else some am
    return am.setNew nUBucket (insert nId (am.vvNew nUBucket))

/-- What `Add_` updates in an entry that is there: its time, from time to time, and its services. -/
def refresh (info : CAddrInfo) (addr : CAddress) (nTimePenalty nNow : Int) : CAddrInfo :=
  let fCurrentlyOnline := nNow - addr.nTime.toNat < 24 * 60 * 60
  let nUpdateInterval : Int := if fCurrentlyOnline then 60 * 60 else 24 * 60 * 60
  let nTime :=
    if addr.nTime ≠ 0 ∧ (info.nTime = 0 ∨
        (info.nTime.toNat : Int) < addr.nTime.toNat - nUpdateInterval - nTimePenalty) then
      BitVec.ofInt 32 (max 0 (addr.nTime.toNat - nTimePenalty))
    else info.nTime
  { info with nTime := nTime, nServices := info.nServices ||| addr.nServices }

/-- `Add_`. -/
def add_ (rand : Nat → Nat) (am : CAddrMan) (addr : CAddress) (source : CNetAddr)
    (nTimePenalty nNow : Int) : Option (CAddrMan × Bool) :=
  if ¬ E.isRoutable addr.ip then some (am, false)
  else
    match am.find addr.ip with
    | some (nId, info) =>
        let info := refresh info addr nTimePenalty nNow
        let am := am.setInfo nId info
        -- do not update if no new information is present
        if addr.nTime = 0 ∨ info.nTime ≠ 0 ∧ addr.nTime ≤ info.nTime then some (am, false)
        -- do not update if the entry was already in the "tried" table
        else if info.fInTried then some (am, false)
        -- do not update if the max reference count is reached
        else if info.nRefCount = addrmanNewBucketsPerAddress then some (am, false)
        else
          -- stochastic test: previous nRefCount == N: 2^N times harder to increase it
          let nFactor := 2 ^ info.nRefCount.toNat
          if 1 < nFactor ∧ getRandInt (rand 0) nFactor ≠ 0 then some (am, false)
          else do
            let am ← am.addReference E (fun k ↦ rand (k + 1)) nNow nId info source
            return (am, false)
    | none => do
        let (nId, info, am) ← am.create addr source
        let info := { info with
          nTime := BitVec.ofInt 32 (max 0 (info.nTime.toNat - nTimePenalty)) }
        let am := am.setInfo nId info
        let am := am.countNew 1
        let am ← am.addReference E (fun k ↦ rand (k + 1)) nNow nId info source
        return (am, true)

/-- `Attempt_`. -/
def attempt_ (am : CAddrMan) (addr : CService) (nTime : Int) : Option CAddrMan :=
  match am.find addr.ip with
  | none => some am
  | some (nId, info) =>
      if info.toCService ≠ addr then some am
      -- `info.nAttempts++`
      else if info.nAttempts + 1 < 2 ^ 31 then
        some (am.setInfo nId { info with nLastTry := nTime, nAttempts := info.nAttempts + 1 })
      else none

/-- `Connected_`. -/
def connected_ (am : CAddrMan) (addr : CService) (nTime : Int) : CAddrMan :=
  match am.find addr.ip with
  | none => am
  | some (nId, info) =>
      if info.toCService ≠ addr then am
      else if 20 * 60 < nTime - info.nTime.toNat then
        am.setInfo nId { info with nTime := BitVec.ofInt 32 nTime }
      else am

/-- The rounds of one of the loops of `Select_`, over buckets with their entries in order: the
address chosen, or nothing if the loop is still running after `rounds` of them. -/
def selectFrom {β : Type} (bucket : Nat → β) (entries : β → List Nat) (nNow : Int)
    (rand : Nat → Nat) (am : CAddrMan) (tries : Nat) : Nat → Option (Option CAddress)
  | 0 => some none
  | rounds + 1 => do
      let rest := fun k ↦ rand (k + 3)
      let vBucket := entries (bucket (rand 0))
      if vBucket.length = 0 then selectFrom bucket entries nNow rest am tries rounds
      else do
        let nId ← vBucket[getRandInt (rand 1) vBucket.length]?
        let info ← am.mapInfo.lookup nId
        if E.hasChance tries info nNow (getRandInt (rand 2) (2 ^ 30)) then
          return some info.toCAddress
        else selectFrom bucket entries nNow rest am (tries + 1) rounds

/-- `Select_`, for as many rounds of its loop as are given to it. -/
def select_ (rand : Nat → Nat) (am : CAddrMan) (nUnkBias nNow : Int) (rounds : Nat) :
    Option (Option CAddress) :=
  if am.vRandom.length = 0 then some (some {})
  else if E.useTried am.nTried am.nNew nUnkBias (getRandInt (rand 0) (2 ^ 30)) then
    am.selectFrom E (fun n ↦ Fin.ofNat 64 n) am.vvTried nNow (fun k ↦ rand (k + 1)) 0 rounds
  else
    am.selectFrom E (fun n ↦ Fin.ofNat 256 n) (fun nB ↦ (am.vvNew nB).sort (· ≤ ·)) nNow
      (fun k ↦ rand (k + 1)) 0 rounds

/-- One iteration of `GetAddr_`. -/
def getAddrStep (rand : Nat → Nat) (s : CAddrMan × List CAddress) (n : Nat) :
    Option (CAddrMan × List CAddress) := do
  let (am, vAddr) := s
  let nRndPos := getRandInt (rand n) (am.vRandom.length - n) + n
  let am ← am.swapRandom n nRndPos
  let nId ← am.vRandom[n]?
  let info ← am.mapInfo.lookup nId
  return (am, vAddr ++ [info.toCAddress])

/-- `GetAddr_`. -/
def getAddr_ (rand : Nat → Nat) (am : CAddrMan) : Option (CAddrMan × List CAddress) :=
  let nNodes := min (23 * am.vRandom.length / 100) 2500
  (List.range nNodes).foldlM (getAddrStep rand) (am, [])

end CAddrMan

end Fedoracoin
