import Fedoracoin.BlockSerialize
import Fedoracoin.Lib.ReadProgram

/-!
# Reading blocks from any stream

The `Unserialize` templates are programs for any `Stream` that has a `read`.  On the bytes of a
`CDataStream` the program of a block is `CBlock.unserialize` (`onBytes_unserializeBlock`); what it
does on a `CBufferedFile` depends on how many bytes it asks for at a time, which is why a script is
read in one piece here, or in pieces of 5000000 bytes.
-/

namespace Fedoracoin

open Wire

/-- What a template does to a stream. -/
abbrev StreamProgram (α : Type) := ReadProgram String UInt8 α

/-- Runs on the bytes of a `CDataStream`. -/
def StreamProgram.onBytes {α : Type} (p : StreamProgram α) : StreamReader α :=
  p.onList "CDataStream::read() : end of data"

namespace AnyStream

variable {α : Type}

def readUInt (nSize : Nat) : StreamProgram Nat := do
  let data ← .take nSize
  return ofBytes data

def readLongSize (nSize least : Nat) : StreamProgram Nat := do
  let xSize ← readUInt nSize
  if xSize < least then .fail "non-canonical ReadCompactSize()" else return xSize

def readSized (chSize : Nat) : StreamProgram Nat :=
  if chSize < 253 then pure chSize
  else if chSize = 253 then readLongSize 2 253
  else if chSize = 254 then readLongSize 4 0x10000
  else readLongSize 8 0x100000000

def readCompactSize : StreamProgram Nat := do
  let chSize ← readUInt 1
  let nSizeRet ← readSized chSize
  if maxSize < nSizeRet then .fail "ReadCompactSize() : size too large" else return nSizeRet

/-- `Unserialize_impl` of a vector of bytes, in at most `n` pieces. -/
def readPieces : (n nSize : Nat) → StreamProgram (List UInt8)
  | 0, _ => pure []
  | n + 1, nSize =>
      if nSize = 0 then pure []
      else do
        let blk := min nSize 5000000
        let data ← .take blk
        let rest ← readPieces n (nSize - blk)
        return data ++ rest

def unserializeScript : StreamProgram CScript := do
  let nSize ← readCompactSize
  readPieces nSize nSize

/-- The same program `n` times. -/
def many (unserialize : StreamProgram α) : (n : Nat) → StreamProgram (List α)
  | 0 => pure []
  | n + 1 => do
      let a ← unserialize
      let l ← many unserialize n
      return a :: l

/-- `Unserialize_impl` of a vector of structures. -/
def unserializeVector (unserialize : StreamProgram α) : StreamProgram (List α) := do
  let nSize ← readCompactSize
  many unserialize nSize

def unserializeInt : StreamProgram Int := do
  let n ← readUInt 4
  return (BitVec.ofNat 32 n).toInt

def unserializeUint256 : StreamProgram Uint256 := do
  let n ← readUInt 32
  return BitVec.ofNat 256 n

def unserializeOutPoint : StreamProgram COutPoint := do
  let data ← .take 36
  return { hash := BitVec.ofNat 256 (ofBytes (data.take 32)), n := ofBytes (data.drop 32) }

def unserializeTxIn : StreamProgram CTxIn := do
  let prevout ← unserializeOutPoint
  let scriptSig ← unserializeScript
  let nSequence ← readUInt 4
  return { prevout := prevout, scriptSig := scriptSig, nSequence := nSequence }

def unserializeTxOut : StreamProgram CTxOut := do
  let nValue ← readUInt 8
  let scriptPubKey ← unserializeScript
  return { nValue := (UInt64.ofNat nValue).toInt64, scriptPubKey := scriptPubKey }

def unserializeTransaction : StreamProgram CTransaction := do
  let nVersion ← unserializeInt
  let vin ← unserializeVector unserializeTxIn
  let vout ← unserializeVector unserializeTxOut
  let nLockTime ← readUInt 4
  return { nVersion := nVersion, vin := vin, vout := vout, nLockTime := nLockTime }

def unserializeHeader : StreamProgram CBlockHeader := do
  let nVersion ← unserializeInt
  let hashPrevBlock ← unserializeUint256
  let hashMerkleRoot ← unserializeUint256
  let nTime ← readUInt 4
  let nBits ← readUInt 4
  let nNonce ← readUInt 4
  return { nVersion := nVersion, hashPrevBlock := hashPrevBlock, hashMerkleRoot := hashMerkleRoot,
           nTime := nTime, nBits := nBits, nNonce := nNonce }

def unserializeBlock : StreamProgram CBlock := do
  let header ← unserializeHeader
  let vtx ← unserializeVector unserializeTransaction
  return { toCBlockHeader := header, vtx := vtx }

/-! ## On bytes -/

open StreamProgram

@[simp] theorem onBytes_pure (a : α) : onBytes (pure a : StreamProgram α) = pure a := rfl

@[simp] theorem onBytes_fail (e : String) : onBytes (.fail e : StreamProgram α) = throw e := rfl

@[simp] theorem onBytes_take (n : Nat) : onBytes (.take n) = readData n := rfl

@[simp] theorem onBytes_bind {β : Type} (p : StreamProgram α) (f : α → StreamProgram β) :
    onBytes (p >>= f) = onBytes p >>= fun a ↦ onBytes (f a) := ReadProgram.onList_bind _ p f

@[simp] theorem onBytes_ite {c : Prop} [Decidable c] (p q : StreamProgram α) :
    onBytes (if c then p else q) = if c then onBytes p else onBytes q :=
  ReadProgram.onList_ite _ p q

@[simp] theorem onBytes_readUInt (nSize : Nat) :
    onBytes (readUInt nSize) = Fedoracoin.readUInt nSize := by
  simp [readUInt, Fedoracoin.readUInt]

@[simp] theorem onBytes_readCompactSize :
    onBytes readCompactSize = Fedoracoin.readCompactSize := by
  have hlong (nSize least : Nat) :
      onBytes (readLongSize nSize least) = Fedoracoin.readLongSize nSize least := by
    simp [readLongSize, Fedoracoin.readLongSize]
  have hsized (chSize : Nat) : onBytes (readSized chSize) = Fedoracoin.readSized chSize := by
    simp [readSized, Fedoracoin.readSized, hlong]
  simp [readCompactSize, Fedoracoin.readCompactSize, hsized]

theorem readData_zero : readData 0 = pure [] := by
  funext s
  rw [readData, Wire.take, if_neg (Nat.not_lt_zero _)]
  rfl

/-- Reading some bytes in two pieces. -/
theorem readData_add (n m : Nat) :
    (do let data ← readData n; let rest ← readData m; return data ++ rest) = readData (n + m) := by
  funext s
  change (readData n s >>= fun r ↦ readData m r.2 >>= fun r' ↦ .ok (r.1 ++ r'.1, r'.2)) = _
  rw [readData, readData, readData, Wire.take, Wire.take]
  by_cases hn : s.length < n
  · rw [if_pos hn, if_pos (Nat.lt_add_right m hn)]
    rfl
  rw [if_neg hn]
  change (Wire.take _ m (s.drop n) >>= fun r' ↦ .ok (s.take n ++ r'.1, r'.2)) = _
  rw [Wire.take, List.length_drop]
  by_cases hm : s.length - n < m
  · rw [if_pos hm, if_pos (by omega)]
    rfl
  · rw [if_neg hm, if_neg (by omega), List.take_add, ← List.drop_drop]
    rfl

theorem onBytes_readPieces {n nSize : Nat} (h : nSize ≤ n) :
    onBytes (readPieces n nSize) = readData nSize := by
  induction n generalizing nSize with
  | zero =>
      rw [Nat.le_zero.mp h, readPieces, onBytes_pure, readData_zero]
  | succ n ih =>
      rw [readPieces]
      split
      case isTrue hzero => rw [hzero, onBytes_pure, readData_zero]
      case isFalse hpos =>
          have hrest := ih (show nSize - min nSize 5000000 ≤ n by omega)
          simp only [onBytes_bind, onBytes_take, hrest, onBytes_pure]
          rw [readData_add, Nat.add_sub_of_le (Nat.min_le_left _ _)]

/-- Bytes one by one are the bytes at once. -/
theorem many_unserializeByte (n : Nat) : Wire.many unserializeByte n = readData n := by
  induction n with
  | zero => rw [Wire.many, readData_zero]
  | succ n ih =>
      rw [Wire.many, ih, Nat.add_comm, ← readData_add]
      funext s
      cases s with
      | nil => rfl
      | cons b s =>
          have hbyte : unserializeByte (b :: s) = .ok (b, s) := reads_unserializeByte b s
          have hdata : readData 1 (b :: s) = .ok ([b], s) := by
            rw [readData, Wire.take, if_neg (by simp)]
            rfl
          change (unserializeByte (b :: s) >>= fun r ↦
              readData n r.2 >>= fun r' ↦ .ok (r.1 :: r'.1, r'.2)) =
            (readData 1 (b :: s) >>= fun r ↦
              readData n r.2 >>= fun r' ↦ .ok (r.1 ++ r'.1, r'.2))
          rw [hbyte, hdata]
          rfl

@[simp] theorem onBytes_unserializeScript :
    onBytes unserializeScript = CScript.unserialize := by
  have hpieces (nSize : Nat) : onBytes (readPieces nSize nSize) = readData nSize :=
    onBytes_readPieces le_rfl
  simp [unserializeScript, CScript.unserialize, Fedoracoin.unserializeVector, many_unserializeByte,
    hpieces]

theorem onBytes_many (p : StreamProgram α) (n : Nat) :
    onBytes (many p n) = Wire.many (onBytes p) n := by
  induction n with
  | zero => rfl
  | succ n ih => simp [many, Wire.many, ih]

@[simp] theorem onBytes_unserializeVector (p : StreamProgram α) :
    onBytes (unserializeVector p) = Fedoracoin.unserializeVector (onBytes p) := by
  simp [unserializeVector, Fedoracoin.unserializeVector, onBytes_many]

@[simp] theorem onBytes_unserializeTransaction :
    onBytes unserializeTransaction = CTransaction.unserialize := by
  have hout : onBytes unserializeOutPoint = COutPoint.unserialize := by
    simp [unserializeOutPoint, COutPoint.unserialize]
  have htxin : onBytes unserializeTxIn = CTxIn.unserialize := by
    simp [unserializeTxIn, CTxIn.unserialize, hout]
  have htxout : onBytes unserializeTxOut = CTxOut.unserialize := by
    simp [unserializeTxOut, CTxOut.unserialize]
  simp [unserializeTransaction, CTransaction.unserialize, unserializeInt,
    Fedoracoin.unserializeInt, htxin, htxout]

/-- **The program of a block**, on bytes. -/
theorem onBytes_unserializeBlock : onBytes unserializeBlock = CBlock.unserialize := by
  have hheader : onBytes unserializeHeader = CBlockHeader.unserialize := by
    simp [unserializeHeader, CBlockHeader.unserialize, unserializeInt, Fedoracoin.unserializeInt,
      unserializeUint256, Fedoracoin.unserializeUint256]
  simp [unserializeBlock, CBlock.unserialize, hheader]

end AnyStream

end Fedoracoin
