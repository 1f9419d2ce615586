import Fedoracoin.Amount
import Fedoracoin.Coins
import Fedoracoin.Lib.FlagBytes
import Fedoracoin.ScriptCompressor

/-!
# Coins in the database

The serialization of `CCoins` in `coins.h`.  A header code holds three flags, of which two are for
the first two outputs, and how many bytes of the mask for the others are not zero; one less if
neither of the first two outputs is there, since then at least one byte is not zero.

The mask is read until as many bytes that are not zero have come: those are the bytes that
`CalcMaskSize` counts (`calcMaskSize_eq`, `readMask_append`).
-/

namespace Fedoracoin

open Wire FlagBytes

/-! ## `VARINT` of an `int` -/

/-- `WriteVarInt` for an `int`.  The loop ends at once if the number is negative. -/
def writeVarIntInt (n : Int) : List UInt8 :=
  if n < 0 then [UInt8.ofNat (n % 128).toNat] else writeVarInt n.toNat

def getSizeOfVarIntInt (n : Int) : Nat := if n < 0 then 1 else getSizeOfVarInt n.toNat

/-- `ReadVarInt` for an `int`, in two's complement. -/
def readVarIntInt : StreamReader Int := do
  let n ← readVarInt 32
  return (BitVec.ofNat 32 n).toInt

/-! ## Outputs -/

namespace CTxOutCompressor

variable {Point : Type} (ec : EcLib Point)

def serialize (txout : CTxOut) : List UInt8 :=
  let nVal := compressAmount txout.nValue.toUInt64
  writeVarInt nVal.toNat ++ CScriptCompressor.serialize ec txout.scriptPubKey

def getSerializeSize (txout : CTxOut) : Nat :=
  let nVal := compressAmount txout.nValue.toUInt64
  getSizeOfVarInt nVal.toNat + CScriptCompressor.getSerializeSize ec txout.scriptPubKey

/-- `txout` is what the object held before. -/
def unserialize (txout : CTxOut) : StreamReader CTxOut := do
  let nVal ← readVarInt 64
  let scriptPubKey ← CScriptCompressor.unserialize ec txout.scriptPubKey
  return ⟨(decompressAmount (UInt64.ofNat nVal)).toInt64, scriptPubKey⟩

end CTxOutCompressor

namespace CCoins

variable {Point : Type} (ec : EcLib Point) (c : CCoins)

/-! ## The mask -/

/-- The flags of the outputs behind the first two. -/
def isAvailableBehind (i : Nat) : Bool := c.isAvailable (2 + i)

/-- The loop of `CalcMaskSize` from `b` on, for at most `n` rounds. -/
def calcMaskLoop :
    (n b nLastUsedByte nNonzeroBytes : Nat) → Except Failure (Nat × Nat)
  | 0, _, _, _ => .error .diverges
  | n + 1, b, nLastUsedByte, nNonzeroBytes =>
      if 2 + b * 8 < c.vout.length then
        let fZero := (List.range 8).all fun i ↦ !c.isAvailableBehind (b * 8 + i)
        if fZero then calcMaskLoop n (b + 1) nLastUsedByte nNonzeroBytes
        else calcMaskLoop n (b + 1) (b + 1) (nNonzeroBytes + 1)
      else .ok (nLastUsedByte, nNonzeroBytes)

/-- `nBytes` and `nNonzeroBytes`.  As an `unsigned int`, `2 + b * 8` has `2 ^ 29` values: the loop
does not end if there is an output behind each of them. -/
def calcMaskSize : Except Failure (Nat × Nat) := c.calcMaskLoop (2 ^ 29) 0 0 0

/-- `nCode`. -/
def headerCode (nMaskCode : Nat) : Nat :=
  let fFirst := c.isAvailable 0
  let fSecond := c.isAvailable 1
  (8 * (nMaskCode - if fFirst || fSecond then 0 else 1) + (if c.fCoinBase then 1 else 0) +
    (if fFirst then 2 else 0) + if fSecond then 4 else 0) % 2 ^ 32

/-- `assert(fFirst || fSecond || nMaskCode)`. -/
def assertAvailable (nMaskCode : Nat) : Except Failure Unit :=
  if c.isAvailable 0 || c.isAvailable 1 || nMaskCode != 0 then .ok () else .error .assertion

/-! ## Writing and reading -/

def serializeTxOuts : List UInt8 :=
  c.vout.flatMap fun txout ↦ if !txout.isNull then CTxOutCompressor.serialize ec txout else []

def serialize : Except Failure (List UInt8) := do
  let (nMaskSize, nMaskCode) ← c.calcMaskSize
  c.assertAvailable nMaskCode
  return writeVarIntInt c.nVersion ++ (writeVarInt (c.headerCode nMaskCode) ++
    (bytesOf c.isAvailableBehind nMaskSize ++
      (c.serializeTxOuts ec ++ writeVarIntInt c.nHeight)))

/-- The sum is an `unsigned int`. -/
def getSerializeSize : Except Failure Nat := do
  let (nMaskSize, nMaskCode) ← c.calcMaskSize
  c.assertAvailable nMaskCode
  return (getSizeOfVarIntInt c.nVersion + (getSizeOfVarInt (c.headerCode nMaskCode) +
    (nMaskSize +
      ((c.vout.map fun txout ↦
        if !txout.isNull then CTxOutCompressor.getSerializeSize ec txout else 0).sum +
        getSizeOfVarIntInt c.nHeight)))) % 2 ^ 32

/-- The loop over the mask, along the stream. -/
def readMask : (nMaskCode : Nat) → (vAvail : List Bool) → (s : List UInt8) →
    Except String (List Bool × List UInt8)
  | 0, vAvail, s => .ok (vAvail, s)
  | _ + 1, _, [] => .error "CDataStream::read() : end of data"
  | nMaskCode + 1, vAvail, chAvail :: s =>
      readMask (if chAvail ≠ 0 then nMaskCode else nMaskCode + 1) (vAvail ++ flagsOf chAvail) s

/-- Nothing of what the object held before is left. -/
def unserialize : StreamReader CCoins := do
  let nVersion ← readVarIntInt
  let nCode ← readVarInt 32
  let nMaskCode := nCode / 8 + if nCode &&& 6 != 0 then 0 else 1
  let vAvail ← readMask nMaskCode [nCode &&& 2 != 0, nCode &&& 4 != 0]
  let vout ← slots (CTxOutCompressor.unserialize ec .null) .null vAvail
  let nHeight ← readVarIntInt
  return cleanup
    { fCoinBase := nCode &&& 1 != 0, vout := vout, nHeight := nHeight, nVersion := nVersion }

end CCoins

/-! ## Numbers -/

section

variable {n : Int}

@[simp] theorem length_writeVarIntInt (n : Int) :
    (writeVarIntInt n).length = getSizeOfVarIntInt n := by
  rw [writeVarIntInt, getSizeOfVarIntInt]
  split
  · rfl
  · exact length_writeVarInt _

theorem reads_readVarIntInt (h : 0 ≤ n) (hn : n < 2 ^ 31) :
    Reads readVarIntInt (writeVarIntInt n) n := by
  obtain ⟨m, rfl⟩ := Int.eq_ofNat_of_zero_le h
  have hm : m < 2 ^ 31 := Int.ofNat_lt.mp hn
  have hread := (reads_writeVarInt (w := 32) (n := m) (by omega)).map
    fun n ↦ (BitVec.ofNat 32 n).toInt
  have hback : (BitVec.ofNat 32 m).toInt = (m : Int) := by
    rw [BitVec.toInt_eq_toNat_of_lt (by rw [BitVec.toNat_ofNat]; omega), BitVec.toNat_ofNat]
    omega
  rw [hback] at hread
  rw [writeVarIntInt, if_neg (Int.not_lt.mpr h), Int.toNat_natCast]
  exact hread

/-- Of a negative number the lower seven bits come back. -/
theorem reads_readVarIntInt_of_neg (h : n < 0) :
    Reads readVarIntInt (writeVarIntInt n) (n % 128) := by
  obtain ⟨m, hm⟩ := Int.eq_ofNat_of_zero_le (Int.emod_nonneg n (by norm_num : (128 : Int) ≠ 0))
  have hlt : n % 128 < 128 := Int.emod_lt_of_pos n (by norm_num)
  have hread := reads_readVarIntInt (n := n % 128) (by omega) (by omega)
  rw [writeVarIntInt, if_neg (by omega), writeVarInt_of_lt (by omega)] at hread
  rw [writeVarIntInt, if_pos h]
  exact hread

end

namespace CCoins

variable {Point : Type} {ec : EcLib Point} {c : CCoins}

/-! ## The size of the mask -/

/-- The size of the mask, and how many of its bytes are not zero: behind it all flags are clear, and
its last byte is not zero. -/
structure IsMaskSize (c : CCoins) (nMaskSize nMaskCode : Nat) : Prop where
  zero : ∀ i, nMaskSize * 8 ≤ i → c.isAvailableBehind i = false
  last : ∀ ch, (bytesOf c.isAvailableBehind nMaskSize).getLast? = some ch → ch ≠ 0
  count : nMaskCode = (bytesOf c.isAvailableBehind nMaskSize).countP (· != 0)

theorem bytesOf_succ (f : Nat → Bool) (n : Nat) :
    bytesOf f (n + 1) = bytesOf f n ++ [byteOf fun i ↦ f (n * 8 + i)] := by
  rw [bytesOf, List.range_succ, List.map_append, List.map_singleton]
  rfl

/-- Bytes that are zero do not count. -/
theorem countP_bytesOf {f : Nat → Bool} {m n : Nat} (hle : m ≤ n)
    (h : ∀ i, m * 8 ≤ i → i < n * 8 → f i = false) :
    (bytesOf f n).countP (· != 0) = (bytesOf f m).countP (· != 0) := by
  induction n, hle using Nat.le_induction with
  | base => rfl
  | succ n hle ih =>
    have hzero : byteOf (fun i ↦ f (n * 8 + i)) = 0 := by
      rw [byteOf_eq_zero_iff, List.all_eq_true]
      intro i hi
      rw [List.mem_range] at hi
      rw [h (n * 8 + i) (by omega) (by omega)]
      rfl
    rw [bytesOf_succ, List.countP_append, hzero, ih fun i hi hlt ↦ h i hi (by omega)]
    rfl

/-- What the loop has found before `b`. -/
structure MaskUpTo (c : CCoins) (b nLastUsedByte nNonzeroBytes : Nat) : Prop where
  le : nLastUsedByte ≤ b
  zero : ∀ i, nLastUsedByte * 8 ≤ i → i < b * 8 → c.isAvailableBehind i = false
  last : ∀ ch, (bytesOf c.isAvailableBehind nLastUsedByte).getLast? = some ch → ch ≠ 0
  count : nNonzeroBytes = (bytesOf c.isAvailableBehind nLastUsedByte).countP (· != 0)

variable {n b nLastUsedByte nNonzeroBytes nMaskSize nMaskCode : Nat}

theorem MaskUpTo.zero_byte (h : c.MaskUpTo b nLastUsedByte nNonzeroBytes)
    (hzero : byteOf (fun i ↦ c.isAvailableBehind (b * 8 + i)) = 0) :
    c.MaskUpTo (b + 1) nLastUsedByte nNonzeroBytes where
  le := Nat.le_succ_of_le h.le
  zero i hi hlt := by
    rcases Nat.lt_or_ge i (b * 8) with hlt' | hge
    · exact h.zero i hi hlt'
    · rw [byteOf_eq_zero_iff, List.all_eq_true] at hzero
      have hflag := hzero (i - b * 8) (List.mem_range.mpr (by omega))
      rwa [Nat.add_sub_cancel' hge, Bool.not_eq_true'] at hflag
  last := h.last
  count := h.count

theorem MaskUpTo.nonzero_byte (h : c.MaskUpTo b nLastUsedByte nNonzeroBytes)
    (hnonzero : byteOf (fun i ↦ c.isAvailableBehind (b * 8 + i)) ≠ 0) :
    c.MaskUpTo (b + 1) (b + 1) (nNonzeroBytes + 1) where
  le := le_refl _
  zero i hi hlt := absurd hlt (Nat.not_lt.mpr hi)
  last ch hch := by
    rw [bytesOf_succ, List.getLast?_concat] at hch
    rwa [← Option.some.inj hch]
  count := by
    rw [bytesOf_succ, List.countP_append, countP_bytesOf h.le h.zero, ← h.count,
      List.countP_singleton, if_pos (bne_iff_ne.mpr hnonzero)]

theorem isAvailable_of_le {i : Nat} (h : c.vout.length ≤ i) : c.isAvailable i = false := by
  rw [isAvailable, List.getElem?_eq_none h]

theorem MaskUpTo.isMaskSize (h : c.MaskUpTo b nMaskSize nMaskCode)
    (hb : c.vout.length ≤ 2 + b * 8) : c.IsMaskSize nMaskSize nMaskCode where
  zero i hi := by
    rcases Nat.lt_or_ge i (b * 8) with hlt | hge
    · exact h.zero i hi hlt
    · exact isAvailable_of_le (by omega)
  last := h.last
  count := h.count

/-- The loop ends if there are rounds left for it. -/
theorem calcMaskLoop_eq (h : c.MaskUpTo b nLastUsedByte nNonzeroBytes)
    (hn : c.vout.length ≤ 2 + (b + n) * 8) :
    ∃ nMaskSize nMaskCode, c.calcMaskLoop (n + 1) b nLastUsedByte nNonzeroBytes =
      .ok (nMaskSize, nMaskCode) ∧ c.IsMaskSize nMaskSize nMaskCode := by
  induction n generalizing b nLastUsedByte nNonzeroBytes with
  | zero =>
    rw [Nat.add_zero] at hn
    rw [calcMaskLoop, if_neg (Nat.not_lt.mpr hn)]
    exact ⟨_, _, rfl, h.isMaskSize hn⟩
  | succ n ih =>
    have hnext : c.vout.length ≤ 2 + (b + 1 + n) * 8 := by omega
    rw [calcMaskLoop]
    dsimp only
    split_ifs with hb hzero
    · exact ih (h.zero_byte ((byteOf_eq_zero_iff _).mpr hzero)) hnext
    · exact ih (h.nonzero_byte (mt (byteOf_eq_zero_iff _).mp hzero)) hnext
    · exact ⟨_, _, rfl, h.isMaskSize (Nat.not_lt.mp hb)⟩

/-- There are as many rounds as `2 + b * 8` has values. -/
theorem calcMaskSize_eq (hlength : c.vout.length + 5 < 2 ^ 32) :
    ∃ nMaskSize nMaskCode, c.calcMaskSize = .ok (nMaskSize, nMaskCode) ∧
      c.IsMaskSize nMaskSize nMaskCode := by
  have hstart : c.MaskUpTo 0 0 0 :=
    ⟨le_refl _, fun i _ hi ↦ absurd hi (by omega), fun ch hch ↦ (by cases hch), rfl⟩
  exact calcMaskLoop_eq (n := 2 ^ 29 - 1) hstart (by omega)

/-- There is no mask for the first two outputs. -/
theorem calcMaskSize_of_le (hlength : c.vout.length ≤ 2) : c.calcMaskSize = .ok (0, 0) := by
  have hloop : c.calcMaskLoop (2 ^ 29 - 1 + 1) 0 0 0 = .ok (0, 0) := by
    rw [calcMaskLoop, if_neg (by omega)]
  exact hloop

/-- With more outputs the loop does not end. -/
theorem calcMaskLoop_diverges (h : 2 + (b + n) * 8 ≤ c.vout.length + 7) :
    c.calcMaskLoop n b nLastUsedByte nNonzeroBytes = .error .diverges := by
  induction n generalizing b nLastUsedByte nNonzeroBytes with
  | zero => rfl
  | succ n ih =>
    rw [calcMaskLoop, if_pos (by omega)]
    dsimp only
    split
    · exact ih (by omega)
    · exact ih (by omega)

namespace IsMaskSize

variable (h : c.IsMaskSize nMaskSize nMaskCode)
include h

theorem nMaskCode_le : nMaskCode ≤ nMaskSize := by
  have hle := List.countP_le_length (p := (· != 0)) (l := bytesOf c.isAvailableBehind nMaskSize)
  rwa [← h.count, bytesOf, List.length_map, List.length_range] at hle

/-- The last byte is there because of an output. -/
theorem nMaskSize_lt : nMaskSize * 8 < c.vout.length + 6 := by
  cases nMaskSize with
  | zero => omega
  | succ b =>
    by_contra hlt
    have hlast := h.last (byteOf fun i ↦ c.isAvailableBehind (b * 8 + i))
      (by rw [bytesOf_succ, List.getLast?_concat])
    apply hlast
    rw [byteOf_eq_zero_iff, List.all_eq_true]
    intro i _
    rw [isAvailableBehind, isAvailable_of_le (by omega)]
    rfl

theorem isAvailable_eq_false {i : Nat} (hi : 2 + nMaskSize * 8 ≤ i) :
    c.isAvailable i = false := by
  obtain ⟨j, rfl⟩ := Nat.exists_eq_add_of_le (le_trans (Nat.le_add_right 2 _) hi)
  exact h.zero j (by omega)

/-- A mask without bytes that are not zero is empty. -/
theorem nMaskSize_eq_zero (hcode : nMaskCode = 0) : nMaskSize = 0 := by
  rcases List.eq_nil_or_concat (bytesOf c.isAvailableBehind nMaskSize) with hnil | ⟨l, ch, hl⟩
  · have hlength := congrArg List.length hnil
    rwa [bytesOf, List.length_map, List.length_range] at hlength
  · have hne := h.last ch (by rw [hl, List.concat_eq_append, List.getLast?_concat])
    have hcount := h.count
    rw [hcode, eq_comm, List.countP_eq_zero] at hcount
    exact absurd (bne_iff_ne.mpr hne)
      (hcount ch (by rw [hl, List.concat_eq_append]; exact List.mem_append_right _ (.head _)))

end IsMaskSize

/-! ## Reading the mask -/

/-- As many bytes that are not zero as there are in a mask. -/
theorem readMask_append {mask : List UInt8} (hlast : ∀ ch, mask.getLast? = some ch → ch ≠ 0)
    (vAvail : List Bool) (rest : List UInt8) :
    readMask (mask.countP (· != 0)) vAvail (mask ++ rest) =
      .ok (vAvail ++ mask.flatMap flagsOf, rest) := by
  induction mask generalizing vAvail with
  | nil => rw [List.countP_nil, List.nil_append, readMask, List.flatMap_nil, List.append_nil]
  | cons ch mask ih =>
    have hpos : 0 < (ch :: mask).countP (· != 0) := by
      rw [List.countP_pos_iff]
      refine ⟨_, List.getLast_mem (List.cons_ne_nil ch mask), bne_iff_ne.mpr ?_⟩
      exact hlast _ (List.getLast?_eq_some_getLast _)
    have hlast' : ∀ ch', mask.getLast? = some ch' → ch' ≠ 0 := by
      intro ch' hch'
      apply hlast
      cases mask with
      | nil => cases hch'
      | cons ch'' mask => rwa [List.getLast?_cons_cons]
    obtain ⟨n, hn⟩ := Nat.exists_eq_succ_of_ne_zero hpos.ne'
    have hrest : (if ch ≠ 0 then n else n + 1) = mask.countP (· != 0) := by
      rw [List.countP_cons] at hn
      by_cases hch : ch = 0
      · rw [if_neg (not_not.mpr hch)]
        rw [hch] at hn
        exact hn.symm
      · rw [if_pos hch]
        rw [if_pos (bne_iff_ne.mpr hch)] at hn
        exact (Nat.succ.inj hn).symm
    rw [hn, List.cons_append, readMask, hrest, ih hlast', List.flatMap_cons, List.append_assoc]

end CCoins

end Fedoracoin
