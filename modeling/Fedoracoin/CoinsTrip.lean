import Fedoracoin.CoinsSerialize

/-!
# Coins that come back

What `Serialize` writes for canonical coins, `Unserialize` reads: `coins_roundTrip`.  A height below
zero does not come back, nor does what a spent output still holds (`coins_not_comesBack`).
-/

namespace Fedoracoin

open Wire FlagBytes

namespace CCoins

variable {Point : Type} {ec : EcLib Point} {c : CCoins} {nMaskSize nMaskCode : Nat}

/-! ## The header code -/

theorem and_two_pow_bne_zero (n i : Nat) : (n &&& 2 ^ i != 0) = decide (n / 2 ^ i % 2 = 1) := by
  rw [Nat.and_two_pow, Nat.testBit_eq_decide_div_mod_eq]
  cases decide (n / 2 ^ i % 2 = 1) <;> simp

/-- A number and three flags. -/
theorem flags_of_code {nCode k : Nat} {f₀ f₁ f₂ : Bool}
    (h : nCode = 8 * k + f₀.toNat + 2 * f₁.toNat + 4 * f₂.toNat) :
    (nCode &&& 1 != 0) = f₀ ∧ (nCode &&& 2 != 0) = f₁ ∧ (nCode &&& 4 != 0) = f₂ ∧
      (nCode &&& 6 != 0) = (f₁ || f₂) ∧ nCode / 8 = k := by
  have hflag (i : Nat) (f : Bool) (hi : nCode / 2 ^ i % 2 = f.toNat) :
      (nCode &&& 2 ^ i != 0) = f := by
    rw [and_two_pow_bne_zero, hi]
    cases f <;> rfl
  have h₀ := Bool.toNat_le f₀
  have h₁ := Bool.toNat_le f₁
  have h₂ := Bool.toNat_le f₂
  have hfirst : (nCode &&& 2 != 0) = f₁ := hflag 1 f₁ (by omega)
  have hsecond : (nCode &&& 4 != 0) = f₂ := hflag 2 f₂ (by omega)
  refine ⟨hflag 0 f₀ (by omega), hfirst, hsecond, ?_, by omega⟩
  have hor : nCode &&& 6 = (nCode &&& 2) ||| (nCode &&& 4) := Nat.and_or_distrib_left nCode 2 4
  rw [Bool.eq_iff_iff, Bool.or_eq_true, ← hfirst, ← hsecond, bne_iff_ne, bne_iff_ne, bne_iff_ne,
    hor, Ne, Nat.or_eq_zero_iff, not_and_or]

/-- The header code is short of its range. -/
theorem headerCode_eq (hcode : nMaskCode < 2 ^ 29) :
    c.headerCode nMaskCode =
      8 * (nMaskCode - if c.isAvailable 0 || c.isAvailable 1 then 0 else 1) +
        c.fCoinBase.toNat + 2 * (c.isAvailable 0).toNat + 4 * (c.isAvailable 1).toNat := by
  have hbool (f : Bool) (m : Nat) : (if f then m else 0) = m * f.toNat := by
    cases f
    · rw [Bool.toNat_false, Nat.mul_zero]; rfl
    · rw [Bool.toNat_true, Nat.mul_one]; rfl
  have h₀ := Bool.toNat_le c.fCoinBase
  have h₁ := Bool.toNat_le (c.isAvailable 0)
  have h₂ := Bool.toNat_le (c.isAvailable 1)
  rw [headerCode, hbool c.fCoinBase, hbool (c.isAvailable 0), hbool (c.isAvailable 1)]
  omega

/-! ## The outputs -/

/-- The outputs with null ones up to the end of the mask. -/
def padded (c : CCoins) (nMaskSize : Nat) : List CTxOut :=
  c.vout.rightpad (2 + nMaskSize * 8) .null

theorem Canonical.length_le (hcan : c.Canonical) (h : c.IsMaskSize nMaskSize nMaskCode) :
    c.vout.length ≤ 2 + nMaskSize * 8 := by
  by_contra hlt
  obtain ⟨txout, hget⟩ := SparseList.Canonical.exists_get hcan (by rintro hnil; simp [hnil] at hlt)
  obtain ⟨hget, hnull⟩ := SparseList.get_eq_some_iff.mp hget
  have hfalse := h.isAvailable_eq_false (i := c.vout.length - 1) (by omega)
  rw [isAvailable, hget] at hfalse
  change (!txout.isNull) = false at hfalse
  rw [hnull] at hfalse
  cases hfalse

theorem map_isAvailable {n : Nat} (hn : c.vout.length ≤ n) :
    (List.range n).map c.isAvailable = (c.vout.rightpad n .null).map fun txout ↦ !txout.isNull := by
  apply List.ext_getElem?
  intro i
  rw [List.getElem?_map, List.getElem?_map, List.rightpad, List.getElem?_append]
  split
  case isTrue h =>
    rw [List.getElem?_range (by omega), Option.map_some, isAvailable, List.getElem?_eq_getElem h]
    rfl
  case isFalse h =>
    rw [List.getElem?_replicate]
    rcases Nat.lt_or_ge i n with hlt | hge
    · rw [List.getElem?_range hlt, if_pos (by omega), Option.map_some, Option.map_some,
        isAvailable_of_le (by omega)]
      rfl
    · rw [List.getElem?_eq_none (by rwa [List.length_range]), if_neg (by omega)]
      rfl

/-- What is read of the mask. -/
theorem vAvail_eq (hcan : c.Canonical) (h : c.IsMaskSize nMaskSize nMaskCode) :
    [c.isAvailable 0, c.isAvailable 1] ++
        (bytesOf c.isAvailableBehind nMaskSize).flatMap flagsOf =
      (c.padded nMaskSize).map fun txout ↦ !txout.isNull := by
  rw [flatMap_flagsOf_bytesOf, padded, ← map_isAvailable (hcan.length_le h), List.range_add,
    List.map_append, List.map_map]
  rfl

/-- Null outputs are not written. -/
theorem serializeTxOuts_padded (ec : EcLib Point) (c : CCoins) (nMaskSize : Nat) :
    ((c.padded nMaskSize).flatMap fun txout ↦
      if !txout.isNull then CTxOutCompressor.serialize ec txout else []) =
      c.serializeTxOuts ec := by
  rw [padded, List.rightpad, List.flatMap_append]
  have hnil (k : Nat) : ((List.replicate k CTxOut.null).flatMap fun txout ↦
      if !txout.isNull then CTxOutCompressor.serialize ec txout else []) = [] :=
    List.flatMap_eq_nil_iff.mpr fun txout htxout ↦ by
      rw [List.eq_of_mem_replicate htxout]
      rfl
  rw [hnil, List.append_nil]
  rfl

theorem Canonical.eq_null (hcan : c.Canonical) {txout : CTxOut}
    (htxout : txout ∈ c.padded nMaskSize) (hnull : txout.isNull = true) : txout = .null := by
  rcases List.mem_append.mp htxout with h | h
  · exact SparseList.Canonical.hole_eq hcan txout h hnull
  · exact List.eq_of_mem_replicate h

/-- What is read of the outputs. -/
theorem Canonical.map_padded (hcan : c.Canonical) (nMaskSize : Nat) :
    ((c.padded nMaskSize).map fun txout ↦ if !txout.isNull then txout else CTxOut.null) =
      c.padded nMaskSize := by
  refine (List.map_congr_left fun txout htxout ↦ ?_).trans (List.map_id _)
  cases hnull : txout.isNull with
  | true => exact (hcan.eq_null htxout hnull).symm
  | false => rfl

/-- What `Cleanup` leaves of it. -/
theorem Canonical.trim_padded (hcan : c.Canonical) (nMaskSize : Nat) :
    SparseList.trim CTxOut.isNull (c.padded nMaskSize) = c.vout :=
  SparseList.Canonical.eq_of_get_eq
    (SparseList.canonical_trim fun _ htxout hnull ↦ hcan.eq_null htxout hnull) hcan
    (SparseList.get_trim.trans (SparseList.get_rightpad rfl))

/-! ## The round trip -/

theorem assertAvailable_eq_ok_iff : c.assertAvailable nMaskCode = .ok () ↔
    c.isAvailable 0 = true ∨ c.isAvailable 1 = true ∨ nMaskCode ≠ 0 := by
  rw [assertAvailable]
  split
  case isTrue h =>
    rw [Bool.or_eq_true, Bool.or_eq_true, bne_iff_ne, or_assoc] at h
    exact iff_of_true rfl h
  case isFalse h =>
    rw [Bool.or_eq_true, Bool.or_eq_true, bne_iff_ne, or_assoc] at h
    exact iff_of_false (by simp) h

/-- Coins that are not pruned pass the assertion. -/
theorem assertAvailable_eq_ok (hpruned : c.isPruned = false)
    (h : c.IsMaskSize nMaskSize nMaskCode) : c.assertAvailable nMaskCode = .ok () := by
  rw [assertAvailable_eq_ok_iff]
  by_contra hnone
  rw [not_or, not_or, not_not, Bool.not_eq_true, Bool.not_eq_true] at hnone
  obtain ⟨hfirst, hsecond, hcode⟩ := hnone
  rw [isPruned, List.all_eq_false] at hpruned
  obtain ⟨txout, htxout, hnull⟩ := hpruned
  obtain ⟨i, hi⟩ := List.mem_iff_getElem?.mp htxout
  have havailable : c.isAvailable i = true := by
    rw [isAvailable, hi]
    change (!txout.isNull) = true
    rw [(Bool.not_eq_true _).mp hnull]
    rfl
  rcases i with _ | _ | i
  · rw [hfirst] at havailable
    cases havailable
  · rw [hsecond] at havailable
    cases havailable
  · rw [h.isAvailable_eq_false (by rw [h.nMaskSize_eq_zero hcode]; omega)] at havailable
    cases havailable

/-- What `Serialize` writes. -/
def bytes (ec : EcLib Point) (c : CCoins) (nMaskSize nMaskCode : Nat) : List UInt8 :=
  writeVarIntInt c.nVersion ++ (writeVarInt (c.headerCode nMaskCode) ++
    (bytesOf c.isAvailableBehind nMaskSize ++ (c.serializeTxOuts ec ++ writeVarIntInt c.nHeight)))

theorem serialize_eq (hsize : c.calcMaskSize = .ok (nMaskSize, nMaskCode))
    (hassert : c.assertAvailable nMaskCode = .ok ()) :
    c.serialize ec = .ok (c.bytes ec nMaskSize nMaskCode) := by
  rw [serialize, hsize]
  change (c.assertAvailable nMaskCode >>= fun _ ↦ _) = _
  rw [hassert]
  rfl

/-- What comes back, with the numbers that come back. -/
theorem reads_unserialize {nVersion nHeight : Int} (hcan : c.Canonical)
    (h : c.IsMaskSize nMaskSize nMaskCode) (hassert : c.assertAvailable nMaskCode = .ok ())
    (hcode : nMaskCode < 2 ^ 29)
    (hcodec : ∀ txout ∈ c.vout, txout.isNull = false →
      Reads (CTxOutCompressor.unserialize ec .null) (CTxOutCompressor.serialize ec txout) txout)
    (hversion : Reads readVarIntInt (writeVarIntInt c.nVersion) nVersion)
    (hheight : Reads readVarIntInt (writeVarIntInt c.nHeight) nHeight) :
    Reads (unserialize ec) (c.bytes ec nMaskSize nMaskCode)
      { c with nVersion := nVersion, nHeight := nHeight } := by
  have hheader := headerCode_eq (c := c) hcode
  have hlt : c.headerCode nMaskCode < 2 ^ 32 := Nat.mod_lt _ (by norm_num)
  obtain ⟨hcoinBase, hfirst, hsecond, hany, hdiv⟩ := flags_of_code hheader
  have hback : (c.headerCode nMaskCode / 8 +
      if c.headerCode nMaskCode &&& 6 != 0 then 0 else 1) = nMaskCode := by
    rw [hany, hdiv]
    rw [assertAvailable_eq_ok_iff, ← or_assoc, ← Bool.or_eq_true] at hassert
    cases hor : c.isAvailable 0 || c.isAvailable 1 with
    | true => rfl
    | false =>
      rw [hor] at hassert
      exact Nat.sub_add_cancel
        (Nat.pos_of_ne_zero (hassert.resolve_left Bool.false_ne_true))
  rw [unserialize, bytes]
  apply hversion.bind
  apply (reads_writeVarInt hlt).bind
  dsimp only
  rw [hback, hfirst, hsecond, hcoinBase]
  have hmask : Reads (readMask nMaskCode [c.isAvailable 0, c.isAvailable 1])
      (bytesOf c.isAvailableBehind nMaskSize)
      ((c.padded nMaskSize).map fun txout ↦ !txout.isNull) := by
    intro rest
    rw [← vAvail_eq hcan h, h.count]
    exact readMask_append h.last _ rest
  have hvout : Reads (slots (CTxOutCompressor.unserialize ec .null) .null
      ((c.padded nMaskSize).map fun txout ↦ !txout.isNull)) (c.serializeTxOuts ec)
      (c.padded nMaskSize) := by
    have hread : Reads (slots (CTxOutCompressor.unserialize ec .null) .null
        ((c.padded nMaskSize).map fun txout ↦ !txout.isNull))
        ((c.padded nMaskSize).flatMap fun txout ↦
          if !txout.isNull then CTxOutCompressor.serialize ec txout else [])
        ((c.padded nMaskSize).map fun txout ↦ if !txout.isNull then txout else CTxOut.null) := by
      apply reads_slots
      intro txout htxout hkeep
      rw [Bool.not_eq_true'] at hkeep
      rcases List.mem_append.mp htxout with hvout | hnull
      · exact hcodec txout hvout hkeep
      · rw [List.eq_of_mem_replicate hnull] at hkeep
        cases hkeep
    rwa [serializeTxOuts_padded, hcan.map_padded] at hread
  apply hmask.bind
  apply hvout.bind
  have hend := hheight.map fun nHeight ↦ cleanup
    { fCoinBase := c.fCoinBase, vout := c.padded nMaskSize, nHeight := nHeight,
      nVersion := nVersion }
  rw [cleanup, hcan.trim_padded] at hend
  exact hend

/-- Canonical coins that are not pruned are written, and come back but for the two numbers. -/
theorem exists_reads_unserialize {nVersion nHeight : Int} (hpruned : c.isPruned = false)
    (hcan : c.Canonical) (hlength : c.vout.length + 5 < 2 ^ 32)
    (hcodec : ∀ txout ∈ c.vout, txout.isNull = false →
      Reads (CTxOutCompressor.unserialize ec .null) (CTxOutCompressor.serialize ec txout) txout)
    (hversion : Reads readVarIntInt (writeVarIntInt c.nVersion) nVersion)
    (hheight : Reads readVarIntInt (writeVarIntInt c.nHeight) nHeight) :
    ∃ nMaskSize nMaskCode, c.calcMaskSize = .ok (nMaskSize, nMaskCode) ∧
      c.IsMaskSize nMaskSize nMaskCode ∧ c.assertAvailable nMaskCode = .ok () ∧
      c.serialize ec = .ok (c.bytes ec nMaskSize nMaskCode) ∧
      Reads (unserialize ec) (c.bytes ec nMaskSize nMaskCode)
        { c with nVersion := nVersion, nHeight := nHeight } := by
  obtain ⟨nMaskSize, nMaskCode, hsize, hmask⟩ := calcMaskSize_eq hlength
  have hassert := assertAvailable_eq_ok hpruned hmask
  have hcode : nMaskCode < 2 ^ 29 := by
    have hle := hmask.nMaskCode_le
    have hlt := hmask.nMaskSize_lt
    omega
  exact ⟨nMaskSize, nMaskCode, hsize, hmask, hassert, serialize_eq hsize hassert,
    reads_unserialize hcan hmask hassert hcode hcodec hversion hheight⟩

/-! ## The size -/

theorem getSerializeSize_script (ec : EcLib Point) (script : CScript) :
    CScriptCompressor.getSerializeSize ec script ≡
      (CScriptCompressor.serialize ec script).length [MOD 2 ^ 32] := by
  rw [CScriptCompressor.getSerializeSize, CScriptCompressor.serialize]
  cases CScriptCompressor.compress ec script with
  | some compr => rfl
  | none =>
    dsimp only
    rw [List.length_append, length_writeVarInt, Nat.add_comm]
    exact Nat.mod_modEq _ _

theorem getSerializeSize_txOut (ec : EcLib Point) (txout : CTxOut) :
    CTxOutCompressor.getSerializeSize ec txout ≡
      (CTxOutCompressor.serialize ec txout).length [MOD 2 ^ 32] := by
  rw [CTxOutCompressor.getSerializeSize, CTxOutCompressor.serialize, List.length_append,
    length_writeVarInt]
  exact (getSerializeSize_script ec _).add_left _

theorem getSerializeSize_txOuts (ec : EcLib Point) (c : CCoins) :
    (c.vout.map fun txout ↦
      if !txout.isNull then CTxOutCompressor.getSerializeSize ec txout else 0).sum ≡
      (c.serializeTxOuts ec).length [MOD 2 ^ 32] := by
  rw [serializeTxOuts]
  induction c.vout with
  | nil => rfl
  | cons txout vout ih =>
    rw [List.map_cons, List.sum_cons, List.flatMap_cons, List.length_append]
    refine Nat.ModEq.add ?_ ih
    split
    · exact getSerializeSize_txOut ec txout
    · rfl

/-- The size is the number of bytes, as an `unsigned int`. -/
theorem getSerializeSize_eq (hsize : c.calcMaskSize = .ok (nMaskSize, nMaskCode))
    (hassert : c.assertAvailable nMaskCode = .ok ()) :
    c.getSerializeSize ec = .ok ((c.bytes ec nMaskSize nMaskCode).length % 2 ^ 32) := by
  have hmask : (bytesOf c.isAvailableBehind nMaskSize).length = nMaskSize := by
    rw [bytesOf, List.length_map, List.length_range]
  rw [getSerializeSize, hsize]
  change (c.assertAvailable nMaskCode >>= fun _ ↦ _) = _
  rw [hassert]
  refine congrArg Except.ok ?_
  simp only [bytes, List.length_append, length_writeVarIntInt, length_writeVarInt, hmask]
  exact ((((getSerializeSize_txOuts ec c).add_right _).add_left _).add_left _).add_left _

/-- Coins of which the height is not negative come back. -/
theorem coins_roundTrip (hversion : 0 ≤ c.nVersion ∧ c.nVersion < 2 ^ 31)
    (hheight : 0 ≤ c.nHeight ∧ c.nHeight < 2 ^ 31) (hpruned : c.isPruned = false)
    (hcan : c.Canonical) (hlength : c.vout.length + 5 < 2 ^ 32)
    (hcodec : ∀ txout ∈ c.vout, txout.isNull = false →
      Reads (CTxOutCompressor.unserialize ec .null) (CTxOutCompressor.serialize ec txout) txout) :
    ∃ nMaskSize nMaskCode, c.calcMaskSize = .ok (nMaskSize, nMaskCode) ∧
      nMaskCode = (bytesOf c.isAvailableBehind nMaskSize).countP (· != 0) ∧
      (bytesOf c.isAvailableBehind nMaskSize).length = nMaskSize ∧
      ∃ s, c.serialize ec = .ok s ∧
        s = writeVarIntInt c.nVersion ++ (writeVarInt (c.headerCode nMaskCode) ++
          (bytesOf c.isAvailableBehind nMaskSize ++
            (c.serializeTxOuts ec ++ writeVarIntInt c.nHeight))) ∧
        Reads (unserialize ec) s c ∧ c.getSerializeSize ec = .ok (s.length % 2 ^ 32) := by
  obtain ⟨nMaskSize, nMaskCode, hsize, hmask, hassert, hserialize, hread⟩ :=
    exists_reads_unserialize hpruned hcan hlength hcodec
      (reads_readVarIntInt hversion.1 hversion.2) (reads_readVarIntInt hheight.1 hheight.2)
  exact ⟨nMaskSize, nMaskCode, hsize, hmask.count,
    by rw [bytesOf, List.length_map, List.length_range], _, hserialize, rfl, hread,
    getSerializeSize_eq hsize hassert⟩

/-! ## Coins that come back, and coins that do not -/

/-- An amount that is compressed without loss, and a script that is not too long. -/
theorem reads_txOut (hec : ec.Decompresses) {txout : CTxOut}
    (hamount : CTxOutCompressor.decompressAmount
      (CTxOutCompressor.compressAmount txout.nValue.toUInt64) = txout.nValue.toUInt64)
    (hscript : txout.scriptPubKey.length + CScriptCompressor.nSpecialScripts < 2 ^ 32) :
    Reads (CTxOutCompressor.unserialize ec .null) (CTxOutCompressor.serialize ec txout) txout := by
  have hvalue := reads_writeVarInt
    (CTxOutCompressor.compressAmount txout.nValue.toUInt64).toNat_lt
  have hback : (CTxOutCompressor.decompressAmount (UInt64.ofNat
      (CTxOutCompressor.compressAmount txout.nValue.toUInt64).toNat)).toInt64 = txout.nValue := by
    rw [UInt64.ofNat_toNat, hamount, Int64.toInt64_toUInt64]
  refine hvalue.bind ?_
  rw [hback]
  exact (CScriptCompressor.reads_unserialize hec hscript []).map fun scriptPubKey ↦
    (⟨txout.nValue, scriptPubKey⟩ : CTxOut)

/-- Coins that are not pruned, with a version that is not negative and no null output at the end, of
which the outputs come back. -/
structure IsStored (ec : EcLib Point) (c : CCoins) : Prop where
  nVersion : 0 ≤ c.nVersion
  pruned : c.isPruned = false
  last : ∀ txout ∈ c.vout.getLast?, txout.isNull = false
  codec : ∀ txout ∈ c.vout, txout.isNull = false →
    Reads (CTxOutCompressor.unserialize ec .null) (CTxOutCompressor.serialize ec txout) txout

/-- The coins are written, come back, and have the size that is written. -/
def ComesBack (ec : EcLib Point) (c : CCoins) : Prop :=
  ∃ s, c.serialize ec = .ok s ∧ Reads (unserialize ec) s c ∧
    c.getSerializeSize ec = .ok s.length

end CCoins

def oneOutput : CTxOut := ⟨1, []⟩

theorem reads_oneOutput :
    Reads (CTxOutCompressor.unserialize generatorLib .null)
      (CTxOutCompressor.serialize generatorLib oneOutput) oneOutput :=
  CCoins.reads_txOut generatorLib_decompresses (by decide) (by decide)

/-- The first byte of the mask is zero, the second is not. -/
def sparseCoins : CCoins where
  fCoinBase := true
  vout := List.replicate 12 .null ++ [oneOutput]
  nHeight := 203998
  nVersion := 1

theorem codec_of_mem {c : CCoins} (h : ∀ txout ∈ c.vout, txout.isNull = false → txout = oneOutput) :
    ∀ txout ∈ c.vout, txout.isNull = false →
      Reads (CTxOutCompressor.unserialize generatorLib .null)
        (CTxOutCompressor.serialize generatorLib txout) txout := by
  intro txout htxout hnull
  rw [h txout htxout hnull]
  exact reads_oneOutput

theorem coins_roundTrip_sparse : ∃ s, sparseCoins.serialize generatorLib = .ok s ∧
    Reads (CCoins.unserialize generatorLib) s sparseCoins := by
  have hcan : sparseCoins.Canonical := ⟨by decide, by decide⟩
  obtain ⟨_, _, -, -, -, s, hs, -, hread, -⟩ := CCoins.coins_roundTrip
    ⟨by decide, by decide⟩ ⟨by decide, by decide⟩ (by decide) hcan (by decide)
    (codec_of_mem (by decide))
  exact ⟨s, hs, hread⟩

/-! Coins that do not come back. -/

def heightBelowZero : CCoins where
  vout := [oneOutput]
  nHeight := -1

/-- The first output is spent, and still has a script. -/
def spentWithScript : CCoins where
  vout := [⟨-1, [0x51]⟩, oneOutput]

open CCoins

theorem not_comesBack_heightBelowZero : ¬ ComesBack generatorLib heightBelowZero := by
  rintro ⟨s, hs, hread, -⟩
  have hcan : heightBelowZero.Canonical := ⟨by decide, by decide⟩
  obtain ⟨_, _, -, -, -, hserialize, hback⟩ := exists_reads_unserialize (c := heightBelowZero)
    (by decide) hcan (by decide) (codec_of_mem (by decide))
    (reads_readVarIntInt (n := 0) (by decide) (by decide))
    (reads_readVarIntInt_of_neg (n := -1) (by decide))
  obtain rfl := Except.ok.inj (hserialize.symm.trans hs)
  have heq := (hback []).symm.trans (hread [])
  have hheight := congrArg CCoins.nHeight (Prod.mk.inj (Except.ok.inj heq)).1
  cases hheight

/-- The same is written if the script is cleared. -/
def spentCleared : CCoins where
  vout := [.null, oneOutput]

theorem serialize_spentCleared :
    spentCleared.serialize generatorLib = spentWithScript.serialize generatorLib := by
  have hcode : spentCleared.headerCode 0 = spentWithScript.headerCode 0 := by decide
  rw [serialize_eq (calcMaskSize_of_le (le_refl 2)) rfl,
    serialize_eq (calcMaskSize_of_le (le_refl 2)) rfl, bytes, bytes, hcode]
  rfl

theorem not_comesBack_spentWithScript : ¬ ComesBack generatorLib spentWithScript := by
  rintro ⟨s, hs, hread, -⟩
  have hcan : spentCleared.Canonical := ⟨by decide, by decide⟩
  obtain ⟨_, _, -, -, -, hserialize, hback⟩ := exists_reads_unserialize (c := spentCleared)
    (by decide) hcan (by decide) (codec_of_mem (by decide))
    (reads_readVarIntInt (n := 0) (by decide) (by decide))
    (reads_readVarIntInt (n := 0) (by decide) (by decide))
  obtain rfl := Except.ok.inj ((hserialize.symm.trans serialize_spentCleared).trans hs)
  have heq := (hback []).symm.trans (hread [])
  have hvout := congrArg CCoins.vout (Prod.mk.inj (Except.ok.inj heq)).1
  cases hvout

/-- The loop over the outputs does not end. -/
theorem not_comesBack_of_length {Point : Type} {ec : EcLib Point} {c : CCoins}
    (hlength : 2 ^ 32 ≤ c.vout.length + 5) : ¬ ComesBack ec c := by
  rintro ⟨s, hs, -, -⟩
  have hsize : c.calcMaskSize = .error .diverges := calcMaskLoop_diverges (by omega)
  rw [serialize, hsize] at hs
  cases hs

/-- A long script is written byte by byte. -/
theorem le_length_serialize_script {Point : Type} {ec : EcLib Point} (hec : ec.Decompresses)
    {script : CScript} (h : 67 < script.length) :
    script.length ≤ (CScriptCompressor.serialize ec script).length := by
  rw [CScriptCompressor.serialize]
  cases hcompr : CScriptCompressor.compress ec script with
  | some compr =>
    obtain ⟨_, _, -, -, -, hback⟩ := CScriptCompressor.compress_eq_some hec hcompr
    exact absurd (CScriptCompressor.length_decompress_le hback) (Nat.not_le.mpr h)
  | none =>
    rw [List.length_append]
    exact Nat.le_add_left _ _

/-- Two outputs with a script of nearly `2 ^ 32` bytes. -/
def twoOutputs (script : CScript) : CCoins where
  vout := [⟨1, script⟩, ⟨1, script⟩]

theorem not_comesBack_twoOutputs {Point : Type} {ec : EcLib Point} (hec : ec.Decompresses)
    {script : CScript} (hscript : script.length = 2 ^ 32 - 7) :
    ¬ ComesBack ec (twoOutputs script) := by
  rintro ⟨s, hs, -, hsize⟩
  have hmask : (twoOutputs script).calcMaskSize = .ok (0, 0) := calcMaskSize_of_le (le_refl 2)
  have hassert : (twoOutputs script).assertAvailable 0 = .ok () := rfl
  rw [getSerializeSize_eq hmask hassert] at hsize
  obtain rfl := Except.ok.inj ((serialize_eq hmask hassert).symm.trans hs)
  have hlt := Nat.mod_lt ((twoOutputs script).bytes ec 0 0).length (by norm_num : 2 ^ 32 > 0)
  rw [Except.ok.inj hsize] at hlt
  have hle : script.length ≤ _ := le_length_serialize_script hec (by omega)
  have houts : (twoOutputs script).serializeTxOuts ec =
      CTxOutCompressor.serialize ec ⟨1, script⟩ ++ (CTxOutCompressor.serialize ec ⟨1, script⟩ ++
        []) := rfl
  rw [bytes, houts, CTxOutCompressor.serialize] at hlt
  simp only [List.length_append] at hlt
  omega

/-- Outputs that are all the same. -/
theorem isStored_of_forall {Point : Type} {ec : EcLib Point} {c : CCoins} {o : CTxOut}
    (hversion : 0 ≤ c.nVersion) (hne : c.vout ≠ []) (hnull : o.isNull = false)
    (hcodec : Reads (CTxOutCompressor.unserialize ec .null) (CTxOutCompressor.serialize ec o) o)
    (h : ∀ txout ∈ c.vout, txout = o) : IsStored ec c where
  nVersion := hversion
  pruned := by
    obtain ⟨txout, htxout⟩ := List.exists_mem_of_ne_nil _ hne
    rw [isPruned, List.all_eq_false]
    refine ⟨txout, htxout, ?_⟩
    rw [h txout htxout, hnull]
    exact Bool.false_ne_true
  last txout htxout := by
    rw [h txout (List.mem_of_getLast? htxout)]
    exact hnull
  codec txout htxout _ := by
    rw [h txout htxout]
    exact hcodec

theorem isStored_twoOutputs {script : CScript} (hscript : script.length = 2 ^ 32 - 7) :
    IsStored generatorLib (twoOutputs script) := by
  have hamount : CTxOutCompressor.decompressAmount
      (CTxOutCompressor.compressAmount (1 : Int64).toUInt64) = (1 : Int64).toUInt64 := by decide
  refine isStored_of_forall (o := ⟨1, script⟩) (le_refl 0) (List.cons_ne_nil _ _) rfl
    (reads_txOut generatorLib_decompresses hamount ?_) fun txout htxout ↦ ?_
  · change script.length + 6 < 2 ^ 32
    omega
  · rcases List.mem_cons.mp htxout with h | h
    · exact h
    · exact List.mem_singleton.mp h

/-- A height below zero, a script that is left in a spent output, more outputs than an
`unsigned int` counts, and more bytes than it counts. -/
theorem coins_not_comesBack :
    (IsStored generatorLib heightBelowZero ∧ ¬ ComesBack generatorLib heightBelowZero) ∧
    (IsStored generatorLib spentWithScript ∧ ¬ ComesBack generatorLib spentWithScript) ∧
    (IsStored generatorLib { vout := List.replicate (2 ^ 32 - 5) oneOutput } ∧
      ¬ ComesBack generatorLib { vout := List.replicate (2 ^ 32 - 5) oneOutput }) ∧
    (IsStored generatorLib (twoOutputs (List.replicate (2 ^ 32 - 7) 0)) ∧
      ¬ ComesBack generatorLib (twoOutputs (List.replicate (2 ^ 32 - 7) 0))) := by
  refine ⟨⟨?_, not_comesBack_heightBelowZero⟩, ⟨?_, not_comesBack_spentWithScript⟩, ⟨?_, ?_⟩,
    ⟨?_, ?_⟩⟩
  · exact isStored_of_forall (le_refl 0) (List.cons_ne_nil _ _) rfl reads_oneOutput
      fun txout htxout ↦ List.mem_singleton.mp htxout
  · exact ⟨le_refl 0, by decide, by decide, codec_of_mem (by decide)⟩
  · exact isStored_of_forall (le_refl 0) (List.ne_nil_of_length_pos (by
      rw [List.length_replicate]; norm_num)) rfl reads_oneOutput
      fun txout htxout ↦ List.eq_of_mem_replicate htxout
  · apply not_comesBack_of_length
    rw [List.length_replicate]
    norm_num
  · exact isStored_twoOutputs List.length_replicate
  · exact not_comesBack_twoOutputs generatorLib_decompresses List.length_replicate

end Fedoracoin
