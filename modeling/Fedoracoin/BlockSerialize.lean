import Fedoracoin.Block
import Fedoracoin.Serialize

/-!
# The wire format of transactions and blocks

The `IMPLEMENT_SERIALIZE` blocks of `core.h`: what reads a transaction or a block, and what writes
a block.  `getSerializeSize` of everything is the number of bytes written.  Reading undoes writing
for everything that fits in the fields of the source, and what a reader accepts is what the writer
gives, so that a block in a file can be cut at the sizes of its transactions.
-/

namespace Fedoracoin

open Wire

variable {s t : List UInt8}

/-! ## Readers and writers -/

/-- The inverse of `serializeInt`. -/
def unserializeInt : StreamReader Int := do
  let n ← readUInt 4
  return (BitVec.ofNat 32 n).toInt

def CScript.unserialize : StreamReader CScript := unserializeVector unserializeByte

/-- `FLATDATA`: the 36 bytes of the struct at once. -/
def COutPoint.unserialize : StreamReader COutPoint := do
  let data ← readData 36
  return { hash := BitVec.ofNat 256 (ofBytes (data.take 32)), n := ofBytes (data.drop 32) }

def CTxIn.unserialize : StreamReader CTxIn := do
  let prevout ← COutPoint.unserialize
  let scriptSig ← CScript.unserialize
  let nSequence ← readUInt 4
  return { prevout := prevout, scriptSig := scriptSig, nSequence := nSequence }

def CTxOut.unserialize : StreamReader CTxOut := do
  let nValue ← readUInt 8
  let scriptPubKey ← CScript.unserialize
  return { nValue := (UInt64.ofNat nValue).toInt64, scriptPubKey := scriptPubKey }

def CTransaction.unserialize : StreamReader CTransaction := do
  let nVersion ← unserializeInt
  let vin ← unserializeVector CTxIn.unserialize
  let vout ← unserializeVector CTxOut.unserialize
  let nLockTime ← readUInt 4
  return { nVersion := nVersion, vin := vin, vout := vout, nLockTime := nLockTime }

namespace CBlockHeader

def serialize (header : CBlockHeader) : List UInt8 :=
  serializeInt header.nVersion ++ serializeUint256 header.hashPrevBlock ++
    serializeUint256 header.hashMerkleRoot ++ toBytes 4 header.nTime ++
    toBytes 4 header.nBits ++ toBytes 4 header.nNonce

def unserialize : StreamReader CBlockHeader := do
  let nVersion ← unserializeInt
  let hashPrevBlock ← unserializeUint256
  let hashMerkleRoot ← unserializeUint256
  let nTime ← readUInt 4
  let nBits ← readUInt 4
  let nNonce ← readUInt 4
  return { nVersion := nVersion, hashPrevBlock := hashPrevBlock, hashMerkleRoot := hashMerkleRoot,
           nTime := nTime, nBits := nBits, nNonce := nNonce }

end CBlockHeader

namespace CBlock

def serialize (block : CBlock) : List UInt8 :=
  block.toCBlockHeader.serialize ++ serializeVector CTransaction.serialize block.vtx

def unserialize : StreamReader CBlock := do
  let header ← CBlockHeader.unserialize
  let vtx ← unserializeVector CTransaction.unserialize
  return { toCBlockHeader := header, vtx := vtx }

end CBlock

/-! ## Sizes -/

@[simp] theorem CScript.length_serialize (script : CScript) :
    (CScript.serialize script).length = CScript.getSerializeSize script := by
  rw [CScript.serialize_eq, List.length_append, length_writeCompactSize,
    CScript.getSerializeSize]

@[simp] theorem COutPoint.length_serialize (prevout : COutPoint) :
    prevout.serialize.length = 36 := by
  rw [COutPoint.serialize, serializeUint256, List.length_append, length_toBytes, length_toBytes]

@[simp] theorem CTxIn.length_serialize (txin : CTxIn) :
    txin.serialize.length = txin.getSerializeSize := by
  simp only [CTxIn.serialize, CTxIn.getSerializeSize, List.length_append,
    COutPoint.length_serialize, CScript.length_serialize, length_toBytes]

@[simp] theorem CTxOut.length_serialize (txout : CTxOut) :
    txout.serialize.length = txout.getSerializeSize := by
  rw [CTxOut.serialize, CTxOut.getSerializeSize, List.length_append, length_toBytes,
    CScript.length_serialize]

@[simp] theorem length_serializeInt (n : Int) : (serializeInt n).length = 4 := length_toBytes 4 _

/-- `GetSerializeSize` of a transaction is the number of bytes it is written with. -/
@[simp] theorem CTransaction.length_serialize (tx : CTransaction) :
    tx.serialize.length = tx.getSerializeSize := by
  simp only [CTransaction.serialize, CTransaction.getSerializeSize, List.length_append,
    length_serializeVector, length_serializeInt, length_toBytes, CTxIn.length_serialize,
    CTxOut.length_serialize]

/-- A header has 80 bytes. -/
@[simp] theorem CBlockHeader.length_serialize (header : CBlockHeader) :
    header.serialize.length = 80 := by
  simp only [CBlockHeader.serialize, serializeUint256, List.length_append, length_serializeInt,
    length_toBytes]

@[simp] theorem CBlock.length_serialize (block : CBlock) :
    block.serialize.length = block.getSerializeSize := by
  simp only [CBlock.serialize, CBlock.getSerializeSize, List.length_append,
    length_serializeVector, CBlockHeader.length_serialize, CTransaction.length_serialize,
    Nat.add_assoc]

/-! ## What the readers accept -/

theorem takes_unserializeInt : Takes unserializeInt serializeInt := by
  intro s n t h
  obtain ⟨m, r, hr, h⟩ := bind_ok h
  obtain ⟨rfl, rfl⟩ := pure_ok h
  obtain ⟨rfl, hlt⟩ := readUInt_ok hr
  have hmod : m % 2 ^ 32 = m := Nat.mod_eq_of_lt hlt
  rw [serializeInt, BitVec.ofInt_toInt, BitVec.toNat_ofNat, hmod]

theorem CScript.takes_unserialize : Takes CScript.unserialize CScript.serialize :=
  takes_unserializeVector takes_unserializeByte

theorem COutPoint.takes_unserialize : Takes COutPoint.unserialize COutPoint.serialize := by
  intro s prevout t h
  obtain ⟨data, r, hr, h⟩ := bind_ok h
  obtain ⟨rfl, rfl⟩ := pure_ok h
  obtain ⟨rfl, hlen⟩ := take_ok hr
  have hhash : (data.take 32).length = 32 := by rw [List.length_take, hlen]; rfl
  have hn : (data.drop 32).length = 4 := by rw [List.length_drop, hlen]
  have hlt : ofBytes (data.take 32) % 2 ^ 256 = ofBytes (data.take 32) := by
    apply Nat.mod_eq_of_lt
    have h := ofBytes_lt (data.take 32)
    rwa [hhash] at h
  have htake := toBytes_ofBytes (data.take 32)
  have hdrop := toBytes_ofBytes (data.drop 32)
  rw [hhash] at htake
  rw [hn] at hdrop
  rw [COutPoint.serialize, serializeUint256, BitVec.toNat_ofNat, hlt, htake, hdrop,
    List.take_append_drop]

theorem CTxIn.takes_unserialize : Takes CTxIn.unserialize CTxIn.serialize := by
  intro s txin t h
  obtain ⟨prevout, s₁, h₁, h⟩ := bind_ok h
  obtain ⟨scriptSig, s₂, h₂, h⟩ := bind_ok h
  obtain ⟨nSequence, s₃, h₃, h⟩ := bind_ok h
  obtain ⟨rfl, rfl⟩ := pure_ok h
  rw [COutPoint.takes_unserialize _ _ _ h₁, CScript.takes_unserialize _ _ _ h₂,
    (readUInt_ok h₃).1]
  simp only [CTxIn.serialize, List.append_assoc]

theorem CTxOut.takes_unserialize : Takes CTxOut.unserialize CTxOut.serialize := by
  intro s txout t h
  obtain ⟨nValue, s₁, h₁, h⟩ := bind_ok h
  obtain ⟨scriptPubKey, s₂, h₂, h⟩ := bind_ok h
  obtain ⟨rfl, rfl⟩ := pure_ok h
  obtain ⟨rfl, hlt⟩ := readUInt_ok h₁
  have hmod : nValue % 2 ^ 64 = nValue := Nat.mod_eq_of_lt hlt
  rw [CScript.takes_unserialize _ _ _ h₂, CTxOut.serialize, UInt64.toUInt64_toInt64,
    UInt64.toNat_ofNat', hmod, List.append_assoc]

theorem CTransaction.takes_unserialize :
    Takes CTransaction.unserialize CTransaction.serialize := by
  intro s tx t h
  obtain ⟨nVersion, s₁, h₁, h⟩ := bind_ok h
  obtain ⟨vin, s₂, h₂, h⟩ := bind_ok h
  obtain ⟨vout, s₃, h₃, h⟩ := bind_ok h
  obtain ⟨nLockTime, s₄, h₄, h⟩ := bind_ok h
  obtain ⟨rfl, rfl⟩ := pure_ok h
  rw [takes_unserializeInt _ _ _ h₁,
    takes_unserializeVector CTxIn.takes_unserialize _ _ _ h₂,
    takes_unserializeVector CTxOut.takes_unserialize _ _ _ h₃, (readUInt_ok h₄).1]
  simp only [CTransaction.serialize, List.append_assoc]

/-! ## Reading what was written -/

/-- The fields fit in their C++ types. -/
structure CTxIn.WellTyped (txin : CTxIn) : Prop where
  n : txin.prevout.n ≤ uintMax
  nSequence : txin.nSequence ≤ uintMax

/-- `int` and `unsigned int` fields in their ranges. -/
structure CTransaction.WellTyped (tx : CTransaction) : Prop where
  nVersion : -2 ^ 31 ≤ tx.nVersion ∧ tx.nVersion < 2 ^ 31
  vin : ∀ txin ∈ tx.vin, txin.WellTyped
  nLockTime : tx.nLockTime ≤ uintMax

structure CBlockHeader.WellTyped (header : CBlockHeader) : Prop where
  nVersion : -2 ^ 31 ≤ header.nVersion ∧ header.nVersion < 2 ^ 31
  nTime : header.nTime ≤ uintMax
  nBits : header.nBits ≤ uintMax
  nNonce : header.nNonce ≤ uintMax

structure CBlock.WellTyped (block : CBlock) : Prop where
  header : block.toCBlockHeader.WellTyped
  vtx : ∀ tx ∈ block.vtx, tx.WellTyped

theorem lt_of_le_uintMax {n : Nat} (h : n ≤ uintMax) : n < 256 ^ 4 := by
  rw [uintMax] at h
  omega

theorem reads_unserializeInt {n : Int} (h : -2 ^ 31 ≤ n ∧ n < 2 ^ 31) :
    Reads unserializeInt (serializeInt n) n := by
  have hlt : (BitVec.ofInt 32 n).toNat < 256 ^ 4 := (BitVec.ofInt 32 n).isLt
  have hr := (reads_readUInt hlt).map fun m ↦ (BitVec.ofNat 32 m).toInt
  have hn : (BitVec.ofInt 32 n).toInt = n := by
    rw [BitVec.toInt_ofInt]
    apply Int.bmod_eq_of_le <;> omega
  rwa [BitVec.ofNat_toNat, BitVec.setWidth_eq, hn] at hr

theorem CScript.reads_unserialize {script : CScript} (h : script.length ≤ maxSize) :
    Reads CScript.unserialize (CScript.serialize script) script :=
  reads_unserializeVector h fun b _ ↦ reads_unserializeByte b

theorem COutPoint.reads_unserialize {prevout : COutPoint} (h : prevout.n ≤ uintMax) :
    Reads COutPoint.unserialize prevout.serialize prevout := by
  have hr := (reads_take (e := "CDataStream::read() : end of data") prevout.length_serialize).map
    fun data ↦ ({ hash := BitVec.ofNat 256 (ofBytes (data.take 32)),
                  n := ofBytes (data.drop 32) } : COutPoint)
  have hhash : ofBytes (prevout.serialize.take 32) = prevout.hash.toNat := by
    rw [COutPoint.serialize, serializeUint256, List.take_left' (length_toBytes 32 _)]
    exact ofBytes_toBytes prevout.hash.isLt
  have hn : ofBytes (prevout.serialize.drop 32) = prevout.n := by
    rw [COutPoint.serialize, serializeUint256, List.drop_left' (length_toBytes 32 _)]
    exact ofBytes_toBytes (lt_of_le_uintMax h)
  rwa [hhash, hn, BitVec.ofNat_toNat, BitVec.setWidth_eq] at hr

theorem CTxIn.reads_unserialize {txin : CTxIn} (h : txin.WellTyped)
    (hsize : txin.scriptSig.length ≤ maxSize) :
    Reads CTxIn.unserialize txin.serialize txin := by
  rw [CTxIn.serialize, List.append_assoc]
  apply (COutPoint.reads_unserialize h.n).bind
  apply (CScript.reads_unserialize hsize).bind
  exact (reads_readUInt (lt_of_le_uintMax h.nSequence)).map
    fun nSequence ↦ ({ txin with nSequence := nSequence } : CTxIn)

theorem CTxOut.reads_unserialize {txout : CTxOut} (hsize : txout.scriptPubKey.length ≤ maxSize) :
    Reads CTxOut.unserialize txout.serialize txout := by
  have hlt : txout.nValue.toUInt64.toNat < 256 ^ 8 := txout.nValue.toUInt64.toNat_lt
  apply (reads_readUInt hlt).bind
  rw [UInt64.ofNat_toNat, Int64.toInt64_toUInt64]
  exact (CScript.reads_unserialize hsize).map
    fun scriptPubKey ↦ ({ txout with scriptPubKey := scriptPubKey } : CTxOut)

/-- The vectors of a transaction are no longer than it. -/
theorem CTransaction.le_getSerializeSize (tx : CTransaction) :
    tx.vin.length ≤ tx.getSerializeSize ∧ tx.vout.length ≤ tx.getSerializeSize ∧
      (∀ txin ∈ tx.vin, txin.scriptSig.length ≤ tx.getSerializeSize) ∧
      ∀ txout ∈ tx.vout, txout.scriptPubKey.length ≤ tx.getSerializeSize := by
  have hin : tx.vin.length ≤ (tx.vin.map CTxIn.getSerializeSize).sum := by
    rw [← List.length_map (f := CTxIn.getSerializeSize)]
    apply List.length_le_sum_of_one_le
    intro n hn
    obtain ⟨txin, -, rfl⟩ := List.mem_map.mp hn
    rw [CTxIn.getSerializeSize]
    omega
  have hout : tx.vout.length ≤ (tx.vout.map CTxOut.getSerializeSize).sum := by
    rw [← List.length_map (f := CTxOut.getSerializeSize)]
    apply List.length_le_sum_of_one_le
    intro n hn
    obtain ⟨txout, -, rfl⟩ := List.mem_map.mp hn
    rw [CTxOut.getSerializeSize]
    omega
  rw [CTransaction.getSerializeSize]
  refine ⟨by omega, by omega, fun txin h ↦ ?_, fun txout h ↦ ?_⟩
  · have hle := List.single_le_sum (fun _ _ ↦ Nat.zero_le _) _
      (List.mem_map_of_mem (f := CTxIn.getSerializeSize) h)
    rw [CTxIn.getSerializeSize, CScript.getSerializeSize] at hle
    omega
  · have hle := List.single_le_sum (fun _ _ ↦ Nat.zero_le _) _
      (List.mem_map_of_mem (f := CTxOut.getSerializeSize) h)
    rw [CTxOut.getSerializeSize, CScript.getSerializeSize] at hle
    omega

/-- Reading a transaction undoes writing it. -/
theorem CTransaction.reads_unserialize {tx : CTransaction} (h : tx.WellTyped)
    (hsize : tx.getSerializeSize ≤ maxSize) :
    Reads CTransaction.unserialize tx.serialize tx := by
  obtain ⟨hvin, hvout, hin, hout⟩ := tx.le_getSerializeSize
  rw [CTransaction.serialize, List.append_assoc, List.append_assoc]
  apply (reads_unserializeInt h.nVersion).bind
  apply (reads_unserializeVector (hvin.trans hsize) fun txin hmem ↦
    CTxIn.reads_unserialize (h.vin txin hmem) ((hin txin hmem).trans hsize)).bind
  apply (reads_unserializeVector (hvout.trans hsize) fun txout hmem ↦
    CTxOut.reads_unserialize ((hout txout hmem).trans hsize)).bind
  exact (reads_readUInt (lt_of_le_uintMax h.nLockTime)).map
    fun nLockTime ↦ ({ tx with nLockTime := nLockTime } : CTransaction)

theorem CBlockHeader.reads_unserialize {header : CBlockHeader} (h : header.WellTyped) :
    Reads CBlockHeader.unserialize header.serialize header := by
  simp only [CBlockHeader.serialize, List.append_assoc]
  apply (reads_unserializeInt h.nVersion).bind
  apply (reads_unserializeUint256 _).bind
  apply (reads_unserializeUint256 _).bind
  apply (reads_readUInt (lt_of_le_uintMax h.nTime)).bind
  apply (reads_readUInt (lt_of_le_uintMax h.nBits)).bind
  exact (reads_readUInt (lt_of_le_uintMax h.nNonce)).map
    fun nNonce ↦ ({ header with nNonce := nNonce } : CBlockHeader)

/-- Reading a block undoes writing it. -/
theorem CBlock.reads_unserialize {block : CBlock} (h : block.WellTyped)
    (hsize : block.getSerializeSize ≤ maxSize) :
    Reads CBlock.unserialize block.serialize block := by
  have htx : ∀ tx ∈ block.vtx, tx.getSerializeSize ≤ block.getSerializeSize := by
    intro tx hmem
    have hle := List.single_le_sum (fun _ _ ↦ Nat.zero_le _) _
      (List.mem_map_of_mem (f := CTransaction.getSerializeSize) hmem)
    rw [CBlock.getSerializeSize]
    omega
  have hlen : block.vtx.length ≤ block.getSerializeSize := by
    have hle : block.vtx.length ≤ (block.vtx.map CTransaction.getSerializeSize).sum := by
      rw [← List.length_map (f := CTransaction.getSerializeSize)]
      apply List.length_le_sum_of_one_le
      intro n hn
      obtain ⟨tx, -, rfl⟩ := List.mem_map.mp hn
      rw [CTransaction.getSerializeSize]
      omega
    rw [CBlock.getSerializeSize]
    omega
  apply (CBlockHeader.reads_unserialize h.header).bind
  exact (reads_unserializeVector (hlen.trans hsize) fun tx hmem ↦
    CTransaction.reads_unserialize (h.vtx tx hmem) ((htx tx hmem).trans hsize)).map
    fun vtx ↦ ({ block with vtx := vtx } : CBlock)

end Fedoracoin
