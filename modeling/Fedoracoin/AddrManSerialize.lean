import Fedoracoin.AddrManCalls
import Fedoracoin.BlockSerialize

/-!
# The file format of the address manager

The `IMPLEMENT_SERIALIZE` blocks of `CNetAddr`, `CService`, `CAddress`, `CAddrInfo` and `CAddrMan`
for a stream of type `SER_DISK`.  Ids are numbered anew in the file, the tried buckets are rebuilt
from the key, and the reference counts from the new buckets.

Where the reader would use a negative number as an id, or a bucket that is not there, the model has
no value.
-/

namespace Fedoracoin

open Wire

/-! ## Addresses -/

/-- `htons`, which is its own inverse. -/
def htons (port : BitVec 16) : BitVec 16 :=
  BitVec.ofNat 16 (port.toNat % 256 * 256 + port.toNat / 256)

def CNetAddr.serialize (ip : CNetAddr) : List UInt8 := toBytes 16 ip.toNat

def CNetAddr.unserialize : StreamReader CNetAddr := do
  let n ← readUInt 16
  return BitVec.ofNat 128 n

namespace CService

def serialize (addr : CService) : List UInt8 :=
  CNetAddr.serialize addr.ip ++ toBytes 2 (htons addr.port).toNat

def unserialize : StreamReader CService := do
  let ip ← CNetAddr.unserialize
  let portN ← readUInt 2
  return { ip := ip, port := htons (BitVec.ofNat 16 portN) }

end CService

namespace CAddress

/-- The version goes first, for the type is `SER_DISK`. -/
def serialize (nVersion : Int) (addr : CAddress) : List UInt8 :=
  serializeInt nVersion ++ toBytes 4 addr.nTime.toNat ++ toBytes 8 addr.nServices.toNat ++
    addr.toCService.serialize

/-- `nLastTry` is memory only. -/
def unserialize : StreamReader CAddress := do
  let _nVersion ← unserializeInt
  let nTime ← readUInt 4
  let nServices ← readUInt 8
  let service ← CService.unserialize
  return { toCService := service, nServices := BitVec.ofNat 64 nServices,
           nTime := BitVec.ofNat 32 nTime }

end CAddress

/-- An `int64_t`, in two's complement. -/
def serializeInt64 (n : Int) : List UInt8 := toBytes 8 (BitVec.ofInt 64 n).toNat

def unserializeInt64 : StreamReader Int := do
  let n ← readUInt 8
  return (BitVec.ofNat 64 n).toInt

namespace CAddrInfo

def serialize (nVersion : Int) (info : CAddrInfo) : List UInt8 :=
  info.toCAddress.serialize nVersion ++ CNetAddr.serialize info.source ++
    serializeInt64 info.nLastSuccess ++ serializeInt info.nAttempts

def unserialize : StreamReader CAddrInfo := do
  let addr ← CAddress.unserialize
  let source ← CNetAddr.unserialize
  let nLastSuccess ← unserializeInt64
  let nAttempts ← unserializeInt
  return { toCAddress := addr, source := source, nLastSuccess := nLastSuccess,
           nAttempts := nAttempts }

end CAddrInfo

namespace CAddrMan

/-! ## Writing -/

/-- The entries in the order in which `mapInfo` is walked. -/
def entries (am : CAddrMan) : List (Nat × CAddrInfo) :=
  (am.mapInfo.keys.sort (· ≤ ·)).filterMap fun nId ↦ (am.mapInfo.lookup nId).map (nId, ·)

/-- The first loop of the writer: the numbers given to the ids, and what is written. -/
def writeNewInfos (nNew : Int) : List (Nat × CAddrInfo) → Int → (Finmap fun _ : Nat ↦ Int) →
    (Finmap fun _ : Nat ↦ Int) × List UInt8
  | [], _, mapUnkIds => (mapUnkIds, [])
  | (nId, info) :: rest, nIds, mapUnkIds =>
      -- this means nNew was wrong
      if nIds = nNew then (mapUnkIds, [])
      else
        let mapUnkIds := mapUnkIds.insert nId nIds
        if info.nRefCount ≠ 0 then
          let (mapUnkIds, written) := writeNewInfos nNew rest (nIds + 1) mapUnkIds
          (mapUnkIds, info.serialize 0 ++ written)
        else writeNewInfos nNew rest nIds mapUnkIds

/-- The second loop of the writer. -/
def writeTriedInfos (nTried : Int) : List (Nat × CAddrInfo) → Int → List UInt8
  | [], _ => []
  | (_, info) :: rest, nIds =>
      -- this means nTried was wrong
      if nIds = nTried then []
      else if info.fInTried then info.serialize 0 ++ writeTriedInfos nTried rest (nIds + 1)
      else writeTriedInfos nTried rest nIds

/-- One bucket, by the numbers of its entries. -/
def writeBucket (mapUnkIds : Finmap fun _ : Nat ↦ Int) (vNew : Finset Nat) : List UInt8 :=
  serializeInt vNew.card ++
    (vNew.sort (· ≤ ·)).flatMap fun nId ↦ serializeInt ((mapUnkIds.lookup nId).getD 0)

/-- The version byte is 0, and hides the version of the stream from the entries. -/
def serialize (am : CAddrMan) : List UInt8 :=
  let (mapUnkIds, newInfos) := writeNewInfos am.nNew am.entries 0 ∅
  serializeByte 0 ++ serializeVector serializeByte am.nKey ++ serializeInt am.nNew ++
    serializeInt am.nTried ++ serializeInt 256 ++ newInfos ++
    writeTriedInfos am.nTried am.entries 0 ++
    (List.finRange 256).flatMap fun b ↦ writeBucket mapUnkIds (am.vvNew b)

/-! ## Reading -/

section

variable (E : AddrEnv)

/-- What the reader does with a new entry. -/
def storeNew (nUBuckets : Int) (am : CAddrMan) (n : Nat) (info : CAddrInfo) : CAddrMan :=
  let info := info.setRandomPos am.vRandom.length
  let am := { am with
    mapInfo := am.mapInfo.insert n info
    mapAddr := am.mapAddr.insert info.ip n
    vRandom := am.vRandom ++ [n] }
  if nUBuckets ≠ 256 then
    let nUBucket := E.getNewBucket am.nKey info.ip info.source
    (am.setNew nUBucket (insert n (am.vvNew nUBucket))).setInfo n
      (info.setRefCount (info.nRefCount + 1))
  else am

/-- What the reader does with a tried entry; the count is that of the lost ones. -/
def storeTried (s : CAddrMan × Int) (info : CAddrInfo) : CAddrMan × Int :=
  let (am, nLost) := s
  let nKBucket := E.getTriedBucket am.nKey info.toCService
  if (am.vvTried nKBucket).length < addrmanTriedBucketSize then
    let info := (info.setRandomPos am.vRandom.length).setInTried true
    let nId := am.nIdCount
    let am := { am with
      vRandom := am.vRandom ++ [nId]
      mapInfo := am.mapInfo.insert nId info
      mapAddr := am.mapAddr.insert info.ip nId
      nIdCount := nId + 1 }
    (am.setTried nKBucket (am.vvTried nKBucket ++ [nId]), nLost)
  else (am, nLost + 1)

/-- What the reader does with an index in a bucket; an entry that is not there is made. -/
def storeIndex (nUBuckets : Int) (nUBucket : NewBucket) (am : CAddrMan) (nIndex : Nat) : CAddrMan :=
  let info := (am.mapInfo.lookup nIndex).getD {}
  let am := am.setInfo nIndex info
  if nUBuckets = 256 ∧ info.nRefCount < addrmanNewBucketsPerAddress then
    (am.setInfo nIndex (info.setRefCount (info.nRefCount + 1))).setNew nUBucket
      (insert nIndex (am.vvNew nUBucket))
  else am

/-- A number that is used as an id. -/
def unserializeId : StreamReader Nat := do
  let n ← unserializeInt
  if n < 0 then throw "negative id" else return n.toNat

def readBucket (nUBuckets : Int) (am : CAddrMan) (b : Nat) : StreamReader CAddrMan := do
  if hb : b < 256 then
    let nSize ← unserializeInt
    (List.range nSize.toNat).foldlM (fun am _ ↦ do
      let nIndex ← unserializeId
      return am.storeIndex nUBuckets ⟨b, hb⟩ nIndex) am
  else throw "no such bucket"

def unserialize : StreamReader CAddrMan := do
  let _nVersion ← unserializeByte
  let nKey ← unserializeVector unserializeByte
  let nNew ← unserializeId
  let nTried ← unserializeInt
  let nUBuckets ← unserializeInt
  let am := { CAddrMan.new nKey with nNew := nNew, nTried := nTried }
  let am ← (List.range nNew).foldlM (fun am n ↦ do
    let info ← CAddrInfo.unserialize
    return am.storeNew E nUBuckets n info) am
  let am := { am with nIdCount := nNew }
  let (am, nLost) ← (List.range nTried.toNat).foldlM (fun s _ ↦ do
    let info ← CAddrInfo.unserialize
    return storeTried E s info) (am, (0 : Int))
  let am := { am with nTried := am.nTried - nLost }
  (List.range nUBuckets.toNat).foldlM (readBucket nUBuckets) am

end

end CAddrMan

end Fedoracoin
