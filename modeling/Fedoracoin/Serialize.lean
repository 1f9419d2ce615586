import Fedoracoin.Core
import Fedoracoin.Lib.Wire

/-!
# Serialization

The part of `serialize.h` that the messages and hashes of the development are written with.
Numbers are little-endian, and the size of a vector is a compact size before its elements.
-/

namespace Fedoracoin

open Wire

variable {α : Type} {n : Nat}

/-- What reading from a `CDataStream` gives, or the text of the exception. -/
abbrev StreamReader (α : Type) := Reader String α

def maxSize : Nat := 0x02000000

/-- `CDataStream::read`. -/
def readData (nSize : Nat) : StreamReader (List UInt8) :=
  take "CDataStream::read() : end of data" nSize

/-- `READDATA` of an unsigned number of `nSize` bytes. -/
def readUInt (nSize : Nat) : StreamReader Nat := do
  let data ← readData nSize
  return ofBytes data

/-! ## Compact sizes -/

def writeCompactSize (nSize : Nat) : List UInt8 :=
  if nSize < 253 then toBytes 1 nSize
  else if nSize ≤ 65535 then toBytes 1 253 ++ toBytes 2 nSize
  else if nSize ≤ uintMax then toBytes 1 254 ++ toBytes 4 nSize
  else toBytes 1 255 ++ toBytes 8 nSize

/-- The number after the first byte, which must not be below `least`. -/
def readLongSize (nSize least : Nat) : StreamReader Nat := do
  let xSize ← readUInt nSize
  if xSize < least then throw "non-canonical ReadCompactSize()" else return xSize

/-- The number whose first byte is `chSize`. -/
def readSized (chSize : Nat) : StreamReader Nat :=
  if chSize < 253 then pure chSize
  else if chSize = 253 then readLongSize 2 253
  else if chSize = 254 then readLongSize 4 0x10000
  else readLongSize 8 0x100000000

def readCompactSize : StreamReader Nat := do
  let chSize ← readUInt 1
  let nSizeRet ← readSized chSize
  if maxSize < nSizeRet then throw "ReadCompactSize() : size too large" else return nSizeRet

@[simp] theorem length_writeCompactSize (nSize : Nat) :
    (writeCompactSize nSize).length = getSizeOfCompactSize nSize := by
  unfold writeCompactSize getSizeOfCompactSize
  split_ifs <;> simp

theorem reads_readUInt {nSize : Nat} (h : n < 256 ^ nSize) :
    Reads (readUInt nSize) (toBytes nSize n) n := reads_toBytes h

theorem reads_readLongSize {nSize least : Nat} (h : n < 256 ^ nSize) (hle : least ≤ n) :
    Reads (readLongSize nSize least) (toBytes nSize n) n := by
  have hr := (reads_readUInt h).bind (f := fun xSize ↦
    if xSize < least then throw "non-canonical ReadCompactSize()" else pure xSize)
    (t := []) (b := n) (by rw [if_neg (Nat.not_lt.mpr hle)]; exact reads_pure n)
  rwa [List.append_nil] at hr

theorem reads_readSized {chSize : Nat} {s : List UInt8} (hch : chSize < 256) (h : n ≤ maxSize)
    (hs : Reads (readSized chSize) s n) : Reads readCompactSize (toBytes 1 chSize ++ s) n := by
  apply (reads_readUInt (by omega)).bind
  rw [← List.append_nil s]
  apply hs.bind
  rw [if_neg (Nat.not_lt.mpr h)]
  exact reads_pure n

theorem reads_readCompactSize (h : n ≤ maxSize) :
    Reads readCompactSize (writeCompactSize n) n := by
  have hmax : maxSize = 33554432 := rfl
  rw [writeCompactSize]
  split_ifs with h₁ h₂ h₃
  · rw [← List.append_nil (toBytes 1 n)]
    apply reads_readSized (h₁.trans (by norm_num)) h
    rw [readSized, if_pos h₁]
    exact reads_pure n
  · apply reads_readSized (by norm_num) h
    rw [readSized, if_neg (by norm_num), if_pos rfl]
    exact reads_readLongSize (by omega) (Nat.not_lt.mp h₁)
  · apply reads_readSized (by norm_num) h
    rw [readSized, if_neg (by norm_num), if_neg (by norm_num), if_pos rfl]
    exact reads_readLongSize (by omega) (by omega)
  · rw [uintMax] at h₃
    omega

theorem readData_of_le {nSize : Nat} {s : List UInt8} (h : nSize ≤ s.length) :
    readData nSize s = .ok (s.take nSize, s.drop nSize) := take_of_le h

theorem readUInt_of_le {nSize : Nat} {s : List UInt8} (h : nSize ≤ s.length) :
    readUInt nSize s = .ok (ofBytes (s.take nSize), s.drop nSize) :=
  bind_of_ok (readData_of_le h)

theorem readUInt_ok {nSize : Nat} {s t : List UInt8} (h : readUInt nSize s = .ok (n, t)) :
    s = toBytes nSize n ++ t ∧ n < 256 ^ nSize := uint_ok h

theorem readLongSize_ok {nSize least : Nat} {s t : List UInt8}
    (h : readLongSize nSize least s = .ok (n, t)) :
    s = toBytes nSize n ++ t ∧ n < 256 ^ nSize ∧ least ≤ n := by
  obtain ⟨xSize, r, hr, h⟩ := bind_ok h
  split at h
  case isTrue => exact absurd h (by simp [throw, throwThe, MonadExceptOf.throw, StateT.lift])
  case isFalse hle =>
    obtain ⟨rfl, rfl⟩ := pure_ok h
    obtain ⟨rfl, hlt⟩ := readUInt_ok hr
    exact ⟨rfl, hlt, Nat.not_lt.mp hle⟩

/-- Only the shortest form of a size is accepted. -/
theorem readCompactSize_ok {s t : List UInt8} (h : readCompactSize s = .ok (n, t)) :
    s = writeCompactSize n ++ t ∧ n ≤ maxSize := by
  obtain ⟨chSize, r, hr, hsized⟩ := bind_ok h
  obtain ⟨nSizeRet, r', hr', hret⟩ := bind_ok hsized
  obtain ⟨rfl, hch⟩ := readUInt_ok hr
  split at hret
  case isTrue => exact absurd hret (by simp [throw, throwThe, MonadExceptOf.throw, StateT.lift])
  case isFalse hmax =>
    obtain ⟨rfl, rfl⟩ := pure_ok hret
    refine ⟨?_, Nat.not_lt.mp hmax⟩
    rw [readSized] at hr'
    rw [writeCompactSize]
    split_ifs at hr' with h₁ h₂ h₃
    · obtain ⟨rfl, rfl⟩ := pure_ok hr'
      rw [if_pos h₁]
    · obtain ⟨rfl, hlt, hle⟩ := readLongSize_ok hr'
      subst h₂
      rw [if_neg (Nat.not_lt.mpr hle), if_pos (by omega), List.append_assoc]
    · obtain ⟨rfl, hlt, hle⟩ := readLongSize_ok hr'
      subst h₃
      rw [if_neg (by omega), if_neg (by omega), if_pos (by rw [uintMax]; omega),
        List.append_assoc]
    · obtain ⟨rfl, -, hle⟩ := readLongSize_ok hr'
      rw [maxSize] at hmax
      omega

/-! ## Vectors -/

def serializeVector (serialize : α → List UInt8) (v : List α) : List UInt8 :=
  writeCompactSize v.length ++ v.flatMap serialize

def unserializeVector (unserialize : StreamReader α) : StreamReader (List α) := do
  let nSize ← readCompactSize
  many unserialize nSize

theorem reads_unserializeVector {serialize : α → List UInt8} {unserialize : StreamReader α}
    {v : List α} (hv : v.length ≤ maxSize)
    (h : ∀ a ∈ v, Reads unserialize (serialize a) a) :
    Reads (unserializeVector unserialize) (serializeVector serialize v) v :=
  (reads_readCompactSize hv).bind (reads_many h)

theorem takes_unserializeVector {serialize : α → List UInt8} {unserialize : StreamReader α}
    (h : Takes unserialize serialize) :
    Takes (unserializeVector unserialize) (serializeVector serialize) := by
  intro s v t hv
  obtain ⟨nSize, r, hr, hmany⟩ := bind_ok hv
  obtain ⟨rfl, -⟩ := readCompactSize_ok hr
  obtain ⟨rfl, rfl⟩ := many_ok h hmany
  rw [serializeVector, List.append_assoc]

theorem length_serializeVector (serialize : α → List UInt8) (v : List α) :
    (serializeVector serialize v).length =
      getSizeOfCompactSize v.length + (v.map fun a ↦ (serialize a).length).sum := by
  rw [serializeVector, List.length_append, length_writeCompactSize, List.length_flatMap]

/-! ## Hashes and bytes -/

def serializeUint256 (hash : Uint256) : List UInt8 := toBytes 32 hash.toNat

def unserializeUint256 : StreamReader Uint256 := do
  let n ← readUInt 32
  return BitVec.ofNat 256 n

def serializeByte (b : UInt8) : List UInt8 := [b]

def unserializeByte : StreamReader UInt8 := do
  let n ← readUInt 1
  return UInt8.ofNat n

theorem reads_unserializeUint256 (hash : Uint256) :
    Reads unserializeUint256 (serializeUint256 hash) hash := by
  have hlt : hash.toNat < 256 ^ 32 := hash.isLt
  have h := (reads_readUInt hlt).map (BitVec.ofNat 256)
  rwa [BitVec.ofNat_toNat, BitVec.setWidth_eq] at h

theorem reads_unserializeByte (b : UInt8) : Reads unserializeByte (serializeByte b) b := by
  have hlt : b.toNat < 256 ^ 1 := b.toNat_lt
  have h := (reads_readUInt hlt).map UInt8.ofNat
  rwa [toBytes, toBytes, UInt8.ofNat_toNat] at h

theorem takes_unserializeByte : Takes unserializeByte serializeByte := by
  intro s b t h
  obtain ⟨n, r, hr, h⟩ := bind_ok h
  obtain ⟨rfl, rfl⟩ := pure_ok h
  obtain ⟨rfl, -⟩ := readUInt_ok hr
  rfl

theorem flatMap_serializeByte (s : List UInt8) : s.flatMap serializeByte = s := by
  induction s with
  | nil => rfl
  | cons b s ih => rw [List.flatMap_cons, ih]; rfl

/-! ## Transactions -/

def CScript.serialize (script : CScript) : List UInt8 := serializeVector serializeByte script

def COutPoint.serialize (prevout : COutPoint) : List UInt8 :=
  serializeUint256 prevout.hash ++ toBytes 4 prevout.n

def CTxIn.serialize (txin : CTxIn) : List UInt8 :=
  txin.prevout.serialize ++ CScript.serialize txin.scriptSig ++ toBytes 4 txin.nSequence

def CTxOut.serialize (txout : CTxOut) : List UInt8 :=
  toBytes 8 txout.nValue.toUInt64.toNat ++ CScript.serialize txout.scriptPubKey

/-- An `int`, in two's complement. -/
def serializeInt (n : Int) : List UInt8 := toBytes 4 (BitVec.ofInt 32 n).toNat

def CTransaction.serialize (tx : CTransaction) : List UInt8 :=
  serializeInt tx.nVersion ++ serializeVector CTxIn.serialize tx.vin ++
    serializeVector CTxOut.serialize tx.vout ++ toBytes 4 tx.nLockTime

theorem CScript.serialize_eq (script : CScript) :
    CScript.serialize script = writeCompactSize script.length ++ script := by
  rw [CScript.serialize, serializeVector, flatMap_serializeByte]

end Fedoracoin
