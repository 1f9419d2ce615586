import Fedoracoin.Lib.BloomSet
import Fedoracoin.Lib.Loop
import Fedoracoin.ScriptNum
import Fedoracoin.Serialize

/-!
# Bloom filters of peers

`CBloomFilter`, which hashes a key to some bits with `MurmurHash3`.  Reads and writes of the bit
array have no value where the index is out of range, and neither has a remainder by zero.

The flags `isFull` and `isEmpty` bypass the array.  `Consistent` is what they have to say of it for
that to be right; `UpdateEmptyFull` gives it for any array, the empty one too, and every insertion
keeps it (`insert_spec`).
-/

namespace Fedoracoin

open Wire

/-! ## `MurmurHash3` -/

def rotl32 (x r : UInt32) : UInt32 := (x <<< r) ||| (x >>> (32 - r))

/-- What a block, or the tail, is mixed to. -/
def murmurMix (k1 : UInt32) : UInt32 := rotl32 (k1 * 0xcc9e2d51) 15 * 0x1b873593

/-- The tail of up to three bytes, the first one lowest. -/
def murmurTail (h1 : UInt32) (tail : List UInt8) : UInt32 :=
  if tail.length = 0 then h1 else h1 ^^^ murmurMix (UInt32.ofNat (ofBytes tail))

/-- The blocks of four bytes, and the tail. -/
def murmurBody (h1 : UInt32) : List UInt8 → UInt32
  | b0 :: b1 :: b2 :: b3 :: vData =>
      let k1 := UInt32.ofNat (ofBytes [b0, b1, b2, b3])
      murmurBody (rotl32 (h1 ^^^ murmurMix k1) 13 * 5 + 0xe6546b64) vData
  | tail => murmurTail h1 tail

def murmurFinalize (h1 : UInt32) : UInt32 :=
  let h1 := (h1 ^^^ (h1 >>> 16)) * 0x85ebca6b
  let h1 := (h1 ^^^ (h1 >>> 13)) * 0xc2b2ae35
  h1 ^^^ (h1 >>> 16)

/-- `MurmurHash3`. -/
def murmurHash3 (nHashSeed : UInt32) (vDataToHash : Valtype) : UInt32 :=
  murmurFinalize (murmurBody nHashSeed vDataToHash ^^^ UInt32.ofNat vDataToHash.length)

example : murmurHash3 0 [0x00, 0x11, 0x22, 0x33, 0x44, 0x55, 0x66] = 0xb074502c := by decide

/-! ## `CBloomFilter` -/

def maxBloomFilterSize : Nat := 36000
def maxHashFuncs : UInt32 := 50

def bloomUpdateAll : UInt8 := 1
def bloomUpdateP2pubkeyOnly : UInt8 := 2
def bloomUpdateMask : UInt8 := 3

structure CBloomFilter where
  vData : List UInt8
  isFull : Bool
  isEmpty : Bool
  nHashFuncs : UInt32
  nTweak : UInt32
  nFlags : UInt8
deriving DecidableEq

def bitMask : List UInt8 := [0x01, 0x02, 0x04, 0x08, 0x10, 0x20, 0x40, 0x80]

/-- `vData[nIndex >> 3] & bit_mask[7 & nIndex]`. -/
def checkBit (vData : List UInt8) (nIndex : UInt32) : Option Bool := do
  let byte ← vData[(nIndex >>> 3).toNat]?
  let bit ← bitMask[(7 &&& nIndex).toNat]?
  return byte &&& bit ≠ 0

/-- `vData[nIndex >> 3] |= bit_mask[7 & nIndex]`. -/
def setBit (vData : List UInt8) (nIndex : UInt32) : Option (List UInt8) := do
  let byte ← vData[(nIndex >>> 3).toNat]?
  let bit ← bitMask[(7 &&& nIndex).toNat]?
  return vData.set (nIndex >>> 3).toNat (byte ||| bit)

namespace CBloomFilter

/-- `Hash`. -/
def hash (filter : CBloomFilter) (nHashNum : UInt32) (vDataToHash : Valtype) : Option UInt32 :=
  let h := murmurHash3 (nHashNum * 0xFBA4C795 + filter.nTweak) vDataToHash
  if filter.vData.length * 8 = 0 then none
  else some (UInt32.ofNat (h.toNat % (filter.vData.length * 8)))

/-- Sets the bit of hash function `i`. -/
def insertStep (vKey : Valtype) (filter : CBloomFilter) (i : Nat) : Option CBloomFilter := do
  let nIndex ← filter.hash (.ofNat i) vKey
  let vData ← setBit filter.vData nIndex
  return { filter with vData }

/-- `insert`. -/
def insert (filter : CBloomFilter) (vKey : Valtype) : Option CBloomFilter :=
  if filter.isFull then some filter
  else do
    let filter ← (List.range filter.nHashFuncs.toNat).foldlM (insertStep vKey) filter
    return { filter with isEmpty := false }

/-- The loop of `contains` over the hash functions. -/
def checkBits (filter : CBloomFilter) (vKey : Valtype) : List Nat → Option Bool
  | [] => some true
  | i :: l => do
      let nIndex ← filter.hash (.ofNat i) vKey
      if ← checkBit filter.vData nIndex then filter.checkBits vKey l else return false

/-- `contains`. -/
def contains (filter : CBloomFilter) (vKey : Valtype) : Option Bool :=
  if filter.isFull then some true
  else if filter.isEmpty then some false
  else filter.checkBits vKey (List.range filter.nHashFuncs.toNat)

/-- `IsWithinSizeConstraints`. -/
def isWithinSizeConstraints (filter : CBloomFilter) : Bool :=
  filter.vData.length ≤ maxBloomFilterSize && filter.nHashFuncs ≤ maxHashFuncs

/-- `UpdateEmptyFull`. -/
def updateEmptyFull (filter : CBloomFilter) : CBloomFilter :=
  { filter with
    isFull := filter.vData.all (· == 0xff)
    isEmpty := filter.vData.all (· == 0) }

end CBloomFilter

/-! ## Bits -/

section

variable {vData : List UInt8} {nIndex : UInt32}

theorem bitMask_eq {j : Nat} (hj : j < 8) : bitMask[j]? = some (BloomSet.mask j) := by
  interval_cases j <;> decide

theorem toNat_byteIndex : (nIndex >>> 3).toNat = nIndex.toNat / 8 := by
  rw [UInt32.toNat_shiftRight, Nat.shiftRight_eq_div_pow]
  rfl

theorem toNat_bitIndex : (7 &&& nIndex).toNat = nIndex.toNat % 8 := by
  rw [UInt32.toNat_and, Nat.and_comm]
  exact Nat.and_two_pow_sub_one_eq_mod _ 3

theorem bitMask_bitIndex :
    bitMask[(7 &&& nIndex).toNat]? = some (BloomSet.mask (nIndex.toNat % 8)) := by
  rw [toNat_bitIndex]
  exact bitMask_eq (Nat.mod_lt _ (by omega))

/-- A bit of the array can be read. -/
theorem checkBit_eq (h : nIndex.toNat < 8 * vData.length) :
    checkBit vData nIndex = some (BloomSet.bitAt vData nIndex.toNat) := by
  have hget : vData[nIndex.toNat / 8]? = some vData[nIndex.toNat / 8] :=
    List.getElem?_eq_getElem (by omega)
  have hbit := BloomSet.and_mask_ne_zero (b := vData[nIndex.toNat / 8])
    (Nat.mod_lt nIndex.toNat (by omega : 8 > 0))
  rw [checkBit, toNat_byteIndex, hget, bitMask_bitIndex, BloomSet.bitAt_eq hget]
  simp only [Option.bind_eq_bind, Option.bind_some, Option.pure_def, hbit, Bool.decide_eq_true]

/-- A bit of the array can be set, and no other changes. -/
theorem setBit_spec (h : nIndex.toNat < 8 * vData.length) :
    ∃ vData', setBit vData nIndex = some vData' ∧ vData'.length = vData.length ∧
      BloomSet.bits vData' = insert nIndex.toNat (BloomSet.bits vData) := by
  have hget : vData[nIndex.toNat / 8]? = some vData[nIndex.toNat / 8] :=
    List.getElem?_eq_getElem (by omega)
  refine ⟨_, ?_, ?_, BloomSet.bits_set hget⟩
  · rw [setBit, toNat_byteIndex, hget, bitMask_bitIndex]
    rfl
  · rw [List.length_set]

end

namespace CBloomFilter

variable {f g h' : CBloomFilter} {vKey : Valtype} {i : Nat}

/-! ## The array and the flags -/

/-- The bit of hash function `i`. -/
def hashAt (f : CBloomFilter) (i : Nat) (vKey : Valtype) : Nat :=
  (murmurHash3 (.ofNat i * 0xFBA4C795 + f.nTweak) vKey).toNat % (f.vData.length * 8)

/-- The array stands for the key. -/
def Reports (f : CBloomFilter) (vKey : Valtype) : Prop :=
  BloomSet.Reports (fun (i : Fin f.nHashFuncs.toNat) ↦ f.hashAt i) (BloomSet.bits f.vData) vKey

theorem reports_iff : f.Reports vKey ↔
    ∀ i ∈ List.range f.nHashFuncs.toNat, f.hashAt i vKey ∈ BloomSet.bits f.vData := by
  rw [Reports, BloomSet.reports_iff]
  constructor
  · intro h i hi
    exact h ⟨i, List.mem_range.mp hi⟩
  · rintro h ⟨i, hi⟩
    exact h i (List.mem_range.mpr hi)

/-- There is a remainder, and it is the number of a bit. -/
theorem hash_spec (hne : f.vData ≠ []) (i : Nat) (vKey : Valtype) :
    ∃ nIndex, f.hash (.ofNat i) vKey = some nIndex ∧ nIndex.toNat = f.hashAt i vKey ∧
      nIndex.toNat < 8 * f.vData.length := by
  have hpos := List.length_pos_iff.mpr hne
  have hlt : f.hashAt i vKey < f.vData.length * 8 := Nat.mod_lt _ (by omega)
  have hword : f.hashAt i vKey < 2 ^ 32 := (Nat.mod_le _ _).trans_lt (UInt32.toNat_lt _)
  have hnat : (UInt32.ofNat (f.hashAt i vKey)).toNat = f.hashAt i vKey :=
    UInt32.toNat_ofNat_of_lt' hword
  refine ⟨UInt32.ofNat (f.hashAt i vKey), ?_, hnat, ?_⟩
  · rw [hash, if_neg (by omega)]
    rfl
  · rw [hnat, Nat.mul_comm]
    exact hlt

/-- What the flags have to say of the array. -/
structure Consistent (f : CBloomFilter) : Prop where
  ne_nil : f.isFull = false → f.vData ≠ []
  full : f.isFull = true → ∀ n < 8 * f.vData.length, n ∈ BloomSet.bits f.vData
  empty : f.isEmpty = true → BloomSet.bits f.vData = ∅

theorem consistent_updateEmptyFull (f : CBloomFilter) : f.updateEmptyFull.Consistent where
  ne_nil := by
    intro h hnil
    rw [updateEmptyFull] at h hnil
    simp only at h hnil
    rw [hnil] at h
    cases h
  full := by
    intro h n hn
    have hall : ∀ b ∈ f.vData, b = 0xff := by
      simpa [updateEmptyFull, List.all_eq_true] using h
    exact BloomSet.mem_bits_of_full hall hn
  empty := by
    intro h
    have hall : ∀ b ∈ f.vData, b = 0 := by
      simpa [updateEmptyFull, List.all_eq_true] using h
    exact BloomSet.bits_eq_empty hall

theorem checkBits_spec (hne : f.vData ≠ []) (vKey : Valtype) (l : List Nat) :
    ∃ b, f.checkBits vKey l = some b ∧
      (b = true ↔ ∀ i ∈ l, f.hashAt i vKey ∈ BloomSet.bits f.vData) := by
  induction l with
  | nil => exact ⟨true, rfl, by simp⟩
  | cons i l ih =>
      obtain ⟨nIndex, hhash, hat, hlt⟩ := hash_spec hne i vKey
      rw [checkBits, hhash, Option.bind_eq_bind, Option.bind_some, checkBit_eq hlt, hat]
      simp only [Option.bind_eq_bind, Option.bind_some, List.forall_mem_cons, BloomSet.mem_bits]
      cases hbit : BloomSet.bitAt f.vData (f.hashAt i vKey) with
      | true => simpa [BloomSet.mem_bits] using ih
      | false => simp

/-- **`contains` always has a value**, and the flags only answer what the array would, but for a
filter without hash functions. -/
theorem contains_spec (h : f.Consistent) (vKey : Valtype) :
    ∃ b, f.contains vKey = some b ∧
      (b = true ↔ f.isFull = true ∨ f.isEmpty = false ∧ f.Reports vKey) := by
  rw [contains]
  cases hfull : f.isFull with
  | true => exact ⟨true, rfl, by simp⟩
  | false =>
      cases hempty : f.isEmpty with
      | true => exact ⟨false, rfl, by simp⟩
      | false =>
          obtain ⟨b, hb, hiff⟩ := checkBits_spec (h.ne_nil hfull) vKey
            (List.range f.nHashFuncs.toNat)
          refine ⟨b, hb, hiff.trans ?_⟩
          rw [← reports_iff]
          simp

theorem contains_iff (h : f.Consistent) :
    f.contains vKey = some true ↔ f.isFull = true ∨ f.isEmpty = false ∧ f.Reports vKey := by
  obtain ⟨b, hb, hiff⟩ := contains_spec h vKey
  rw [hb, Option.some.injEq, hiff]

/-! ## Insertions -/

/-- What may become of a filter. -/
structure Grows (f g : CBloomFilter) : Prop where
  isFull : g.isFull = f.isFull
  isEmpty : g.isEmpty = true → f.isEmpty = true
  nHashFuncs : g.nHashFuncs = f.nHashFuncs
  nTweak : g.nTweak = f.nTweak
  length : g.vData.length = f.vData.length
  bits : BloomSet.bits f.vData ⊆ BloomSet.bits g.vData

namespace Grows

theorem refl (f : CBloomFilter) : Grows f f := ⟨rfl, id, rfl, rfl, rfl, Set.Subset.rfl⟩

theorem trans (h : Grows f g) (h₂ : Grows g h') : Grows f h' where
  isFull := h₂.isFull.trans h.isFull
  isEmpty := fun he ↦ h.isEmpty (h₂.isEmpty he)
  nHashFuncs := h₂.nHashFuncs.trans h.nHashFuncs
  nTweak := h₂.nTweak.trans h.nTweak
  length := h₂.length.trans h.length
  bits := h.bits.trans h₂.bits

theorem hashAt (h : Grows f g) (i : Nat) (vKey : Valtype) : g.hashAt i vKey = f.hashAt i vKey := by
  rw [CBloomFilter.hashAt, CBloomFilter.hashAt, h.nTweak, h.length]

theorem reports (h : Grows f g) (hf : f.Reports vKey) : g.Reports vKey := by
  have hsame : g.hashAt = f.hashAt := by
    funext i vKey
    exact h.hashAt i vKey
  rw [Reports, h.nHashFuncs, hsame]
  exact BloomSet.Reports.mono hf h.bits

/-- **What a filter contains, it contains when it has grown.** -/
theorem contains (h : Grows f g) (hf : f.Consistent) (hg : g.Consistent)
    (hkey : f.contains vKey = some true) : g.contains vKey = some true := by
  rw [contains_iff hg, h.isFull]
  rcases (contains_iff hf).mp hkey with hfull | ⟨hempty, hreports⟩
  · exact Or.inl hfull
  · refine Or.inr ⟨?_, h.reports hreports⟩
    by_contra hne
    have htrue := h.isEmpty (by simpa using hne)
    rw [hempty] at htrue
    cases htrue

end Grows

/-- Setting the bit of one hash function. -/
theorem insertStep_spec (hne : f.vData ≠ []) (vKey : Valtype) (i : Nat) :
    ∃ vData, insertStep vKey f i = some { f with vData } ∧ vData.length = f.vData.length ∧
      BloomSet.bits vData = Insert.insert (f.hashAt i vKey) (BloomSet.bits f.vData) := by
  obtain ⟨nIndex, hhash, hat, hlt⟩ := hash_spec hne i vKey
  obtain ⟨vData, hset, hlen, hbits⟩ := setBit_spec hlt
  refine ⟨vData, ?_, hlen, hat ▸ hbits⟩
  rw [insertStep, hhash, Option.bind_eq_bind, Option.bind_some, hset]
  rfl

/-- The loop sets the bits of all hash functions and nothing but bits. -/
theorem foldlM_insertStep (hne : f.vData ≠ []) (vKey : Valtype) (l : List Nat) :
    ∃ vData, l.foldlM (insertStep vKey) f = some { f with vData } ∧
      vData.length = f.vData.length ∧ BloomSet.bits f.vData ⊆ BloomSet.bits vData ∧
      ∀ i ∈ l, f.hashAt i vKey ∈ BloomSet.bits vData := by
  obtain ⟨g, hrun, vData, rfl, hlen, hbits, hall⟩ := Loop.foldlM_spec
    (f := insertStep vKey) (l := l) (s := f)
    (I := fun done g ↦ ∃ vData, g = { f with vData } ∧ vData.length = f.vData.length ∧
      BloomSet.bits f.vData ⊆ BloomSet.bits vData ∧
      ∀ i ∈ done, f.hashAt i vKey ∈ BloomSet.bits vData) (by
    rintro done i g - ⟨vData, rfl, hlen, hbits, hall⟩
    have hne' : vData ≠ [] := by
      rw [← List.length_pos_iff, hlen, List.length_pos_iff]
      exact hne
    obtain ⟨vData', hstep, hlen', hbits'⟩ := insertStep_spec (f := { f with vData }) hne' vKey i
    have hat : CBloomFilter.hashAt { f with vData } i vKey = f.hashAt i vKey := by
      rw [hashAt, hashAt, hlen]
    refine ⟨_, hstep, vData', rfl, hlen'.trans hlen, ?_, ?_⟩
    · rw [hbits']
      exact hbits.trans (Set.subset_insert _ _)
    · intro j hj
      rw [hbits', hat]
      rcases List.mem_append.mp hj with hj | hj
      · exact Set.mem_insert_of_mem _ (hall j hj)
      · rw [List.mem_singleton.mp hj]
        exact Set.mem_insert _ _) ⟨f.vData, rfl, rfl, Set.Subset.rfl, by simp⟩
  exact ⟨vData, hrun, hlen, hbits, hall⟩

/-- **An insertion has a value, and what was inserted is contained.** -/
theorem insert_spec (h : f.Consistent) (vKey : Valtype) :
    ∃ g, f.insert vKey = some g ∧ g.Consistent ∧ Grows f g ∧ g.contains vKey = some true := by
  rw [insert]
  cases hfull : f.isFull with
  | true => exact ⟨f, rfl, h, .refl f, (contains_iff h).mpr (Or.inl hfull)⟩
  | false =>
      obtain ⟨vData, hrun, hlen, hbits, hall⟩ := foldlM_insertStep (h.ne_nil hfull) vKey
        (List.range f.nHashFuncs.toNat)
      have hgrows : Grows f { f with vData, isEmpty := false } :=
        ⟨rfl, nofun, rfl, rfl, hlen, hbits⟩
      have hcons : CBloomFilter.Consistent { f with vData, isEmpty := false } := by
        refine ⟨fun _ ↦ ?_, fun hf ↦ ?_, nofun⟩
        · rw [← List.length_pos_iff, hlen, List.length_pos_iff]
          exact h.ne_nil hfull
        · exact absurd (hf.symm.trans hfull) (by simp)
      refine ⟨_, ?_, hcons, hgrows, ?_⟩
      · rw [if_neg (by simp), hrun]
        rfl
      · refine (contains_iff hcons).mpr (Or.inr ⟨rfl, reports_iff.mpr fun i hi ↦ ?_⟩)
        rw [hgrows.hashAt]
        exact hall i hi

end CBloomFilter

end Fedoracoin
