import Fedoracoin.Script
import Fedoracoin.Serialize

/-!
# The hash that is signed

`SignatureHash` writes the transaction with the changes for a signature made while it writes;
`SignatureHashOld`, of the tests, makes them in a copy.  What they hash differs in the script
alone: of a script whose last read fails, the first writes what the read took and not what is
left behind it, while the size it writes counts all of it.
-/

namespace Fedoracoin

open Wire

def sighashNone : BitVec 32 := 2
def sighashSingle : BitVec 32 := 3
def sighashAnyonecanpay : BitVec 32 := 0x80

/-- `CTransactionSignatureSerializer`. -/
structure SignatureSerializer where
  txTo : CTransaction
  scriptCode : CScript
  nIn : Nat
  fAnyoneCanPay : Bool
  fHashSingle : Bool
  fHashNone : Bool

namespace SignatureSerializer

def ofHashType (txTo : CTransaction) (scriptCode : CScript) (nIn : Nat) (nHashType : BitVec 32) :
    SignatureSerializer where
  txTo := txTo
  scriptCode := scriptCode
  nIn := nIn
  fAnyoneCanPay := nHashType &&& sighashAnyonecanpay != 0
  fHashSingle := nHashType &&& 0x1f == sighashSingle
  fHashNone := nHashType &&& 0x1f == sighashNone

/-- The first loop over the script. -/
def nCodeSeparators (scriptCode : CScript) : Nat :=
  (whileGetOp (fun op n ↦ if op.opcodeRet = opCodeseparator then n + 1 else n) scriptCode 0).2

/-- The body of the second loop: `itBegin`, and what is written. -/
def writeUpTo (op : OpRead) (s : List UInt8 × List UInt8) : List UInt8 × List UInt8 :=
  if op.opcodeRet = opCodeseparator then
    (op.pc, s.2 ++ s.1.take (s.1.length - op.pc.length - 1))
  else s

/-- What the second loop and the line behind it write. -/
def scriptBytes (scriptCode : CScript) : List UInt8 :=
  let (it, itBegin, written) := whileGetOp writeUpTo scriptCode (scriptCode, [])
  written ++ itBegin.take (itBegin.length - it.length)

def serializeScriptCode (scriptCode : CScript) : List UInt8 :=
  writeCompactSize (scriptCode.length - nCodeSeparators scriptCode) ++ scriptBytes scriptCode

variable (s : SignatureSerializer)

/-- `SerializeInput`, with what `SerializeScriptCode` writes; an index out of range does not
occur. -/
def serializeInput (script : List UInt8) (nInput : Nat) : List UInt8 :=
  let nInput := if s.fAnyoneCanPay then s.nIn else nInput
  s.txTo.vin[nInput]?.elim [] fun txin ↦
    txin.prevout.serialize ++
      (if nInput ≠ s.nIn then CScript.serialize [] else script) ++
      (if nInput ≠ s.nIn ∧ (s.fHashSingle || s.fHashNone) then serializeInt 0
        else toBytes 4 txin.nSequence)

/-- `SerializeOutput`; an index out of range does not occur. -/
def serializeOutput (nOutput : Nat) : List UInt8 :=
  if s.fHashSingle && nOutput ≠ s.nIn then CTxOut.null.serialize
  else s.txTo.vout[nOutput]?.elim [] CTxOut.serialize

def serializeWith (script : List UInt8) : List UInt8 :=
  let nInputs := if s.fAnyoneCanPay then 1 else s.txTo.vin.length
  let nOutputs :=
    if s.fHashNone then 0 else if s.fHashSingle then s.nIn + 1 else s.txTo.vout.length
  serializeInt s.txTo.nVersion ++
    (writeCompactSize nInputs ++ (List.range nInputs).flatMap (s.serializeInput script)) ++
    (writeCompactSize nOutputs ++ (List.range nOutputs).flatMap s.serializeOutput) ++
    toBytes 4 s.txTo.nLockTime

/-- `Serialize`. -/
def serialize : List UInt8 := s.serializeWith (serializeScriptCode s.scriptCode)

end SignatureSerializer

open SignatureSerializer

/-- What `SignatureHash` hashes, if it does not return one before. -/
def signatureMessage (scriptCode : CScript) (txTo : CTransaction) (nIn : Nat)
    (nHashType : BitVec 32) : Option (List UInt8) :=
  if txTo.vin.length ≤ nIn then none
  else if nHashType &&& 0x1f = sighashSingle ∧ txTo.vout.length ≤ nIn then none
  else some ((ofHashType txTo scriptCode nIn nHashType).serialize ++ toBytes 4 nHashType.toNat)

def signatureHash (hash : List UInt8 → Uint256) (scriptCode : CScript) (txTo : CTransaction)
    (nIn : Nat) (nHashType : BitVec 32) : Uint256 :=
  (signatureMessage scriptCode txTo nIn nHashType).elim 1 hash

/-! ## The reference -/

/-- "Let the others update at will." -/
def updateAtWill (nIn : Nat) (vin : List CTxIn) : List CTxIn :=
  vin.mapIdx fun i txin ↦ if i ≠ nIn then { txin with nSequence := 0 } else txin

/-- The copy of the transaction that `SignatureHashOld` hashes, if it does not return one. -/
def txTmpOld (scriptCode : CScript) (txTo : CTransaction) (nIn : Nat) (nHashType : BitVec 32) :
    Option CTransaction :=
  if txTo.vin.length ≤ nIn then none
  else
    let scriptCode := (findAndDelete scriptCode [opCodeseparator]).1
    let vin := txTo.vin.map fun txin ↦ { txin with scriptSig := [] }
    let vin := vin.modify nIn fun txin ↦ { txin with scriptSig := scriptCode }
    let edited : Option (List CTxIn × List CTxOut) :=
      if nHashType &&& 0x1f = sighashNone then some (updateAtWill nIn vin, [])
      else if nHashType &&& 0x1f = sighashSingle then
        if txTo.vout.length ≤ nIn then none
        else some (updateAtWill nIn vin,
          (txTo.vout.take (nIn + 1)).mapIdx fun i txout ↦ if i < nIn then .null else txout)
      else some (vin, txTo.vout)
    edited.map fun (vin, vout) ↦
      { txTo with
        vin := if nHashType &&& sighashAnyonecanpay ≠ 0 then vin[nIn]?.toList else vin
        vout := vout }

def signatureMessageOld (scriptCode : CScript) (txTo : CTransaction) (nIn : Nat)
    (nHashType : BitVec 32) : Option (List UInt8) :=
  (txTmpOld scriptCode txTo nIn nHashType).map fun txTmp ↦
    txTmp.serialize ++ toBytes 4 nHashType.toNat

/-! ## The script -/

section

variable {pc scriptCode : List UInt8}

/-- The size that is written is that of the script without its separators. -/
theorem nCodeSeparators_add (scriptCode : CScript) :
    nCodeSeparators scriptCode + (dropSeparators scriptCode).length = scriptCode.length := by
  have hcount (pc : List UInt8) (n : Nat) :
      (whileGetOp (fun op n ↦ if op.opcodeRet = opCodeseparator then n + 1 else n) pc n).2 +
        (dropSeparators pc).length = n + pc.length := by
    induction pc using separator_induct generalizing n with
    | stop pc h => rw [whileGetOp_stop h, dropSeparators_stop h]
    | separator pc ih =>
        rw [whileGetOp_separator, if_pos rfl, dropSeparators_separator, ih, List.length_cons,
          Nat.add_assoc, Nat.add_comm 1]
    | read pc h hop ih =>
        have hlen := congrArg List.length (readBytes_append pc)
        rw [List.length_append] at hlen
        rw [whileGetOp_read h, if_neg hop, dropSeparators_read h hop, List.length_append,
          Nat.add_left_comm, ih, ← hlen, Nat.add_left_comm]
  rw [nCodeSeparators, hcount, Nat.zero_add]

theorem length_dropSeparators (scriptCode : CScript) :
    scriptCode.length - nCodeSeparators scriptCode = (dropSeparators scriptCode).length := by
  rw [← nCodeSeparators_add scriptCode, Nat.add_sub_cancel_left]

/-- The second loop, begun at `pc` with bytes before it that are not written yet. -/
theorem writeUpTo_loop (pc pending written : List UInt8) :
    let (it, itBegin, written') := whileGetOp writeUpTo pc (pending ++ pc, written)
    written' ++ itBegin.take (itBegin.length - it.length) ++ readEnd pc =
      written ++ pending ++ dropSeparators pc := by
  induction pc using separator_induct generalizing pending written with
  | stop pc h =>
      have hdrop := List.suffix_iff_eq_drop.mp
        ((getOp2_suffix pc).trans (List.suffix_append pending pc))
      rw [whileGetOp_stop h, readEnd_stop h, dropSeparators_stop h]
      dsimp only
      nth_rewrite 2 [hdrop]
      rw [List.append_assoc, List.take_append_drop, List.append_assoc]
  | separator pc ih =>
      have hwrite : writeUpTo ⟨true, opCodeseparator, [], pc⟩
          (pending ++ opCodeseparator :: pc, written) = (pc, written ++ pending) := by
        have hlen : (pending ++ opCodeseparator :: pc).length - pc.length - 1 = pending.length := by
          rw [List.length_append, List.length_cons]
          omega
        rw [writeUpTo, if_pos rfl, hlen, List.take_left]
      have hih := ih [] (written ++ pending)
      rw [List.append_nil] at hih
      rw [whileGetOp_separator, hwrite, readEnd_read rfl, dropSeparators_separator]
      exact hih
  | read pc h hop ih =>
      have hih := ih (pending ++ readBytes pc) written
      rw [List.append_assoc, readBytes_append] at hih
      rw [whileGetOp_read h, readEnd_read h, writeUpTo, if_neg hop, dropSeparators_read h hop,
        ← List.append_assoc, List.append_assoc written]
      exact hih

/-- What is written lacks the bytes behind the point where reading fails. -/
theorem scriptBytes_append (scriptCode : CScript) :
    scriptBytes scriptCode ++ readEnd scriptCode = dropSeparators scriptCode :=
  writeUpTo_loop scriptCode [] []

end

/-! ## The message around the script -/

section

variable {s : SignatureSerializer} {txTo : CTransaction} {scriptCode : CScript} {nIn : Nat}
  {nHashType : BitVec 32}

/-- The script is written once. -/
theorem framed_serializeWith (h : s.nIn < s.txTo.vin.length) : Framed s.serializeWith := by
  have hframe (nInput : Nat) (hin : (if s.fAnyoneCanPay then s.nIn else nInput) = s.nIn) :
      Framed fun script ↦ s.serializeInput script nInput := by
    simp only [serializeInput, hin, List.getElem?_eq_getElem h, Option.elim_some, ne_eq,
      not_true_eq_false, if_false]
    exact (Framed.field.const_append _).append_const _
  have hvin : Framed fun script ↦
      (List.range (if s.fAnyoneCanPay then 1 else s.txTo.vin.length)).flatMap
        (s.serializeInput script) := by
    cases hany : s.fAnyoneCanPay with
    | true =>
        simp only [if_true, List.range_one, List.flatMap_singleton]
        exact hframe 0 (by rw [hany]; rfl)
    | false =>
        apply Framed.flatMap_range h (hframe s.nIn (by rw [hany]; rfl))
        intro i hi script
        simp only [serializeInput, hany, Bool.false_eq_true, if_false, if_pos hi, ne_eq]
  exact (((hvin.const_append _).const_append _).append_const _).append_const _

/-- The blanked copy, input by input. -/
theorem getElem?_vinOld (vin : List CTxIn) (script : CScript) (nIn i : Nat) :
    ((vin.map fun txin ↦ { txin with scriptSig := [] }).modify nIn fun txin ↦
        { txin with scriptSig := script })[i]? =
      vin[i]?.map fun txin ↦ { txin with scriptSig := if i = nIn then script else [] } := by
  rw [List.getElem?_modify, List.getElem?_map]
  cases vin[i]? with
  | none => rfl
  | some txin =>
      rcases eq_or_ne nIn i with rfl | h
      · simp
      · simp [h, h.symm]

theorem getElem?_updateAtWill (vin : List CTxIn) (i : Nat) :
    (updateAtWill nIn vin)[i]? =
      vin[i]?.map fun txin ↦ { txin with nSequence := if i ≠ nIn then 0 else txin.nSequence } := by
  rw [updateAtWill, List.getElem?_mapIdx]
  cases vin[i]? with
  | none => rfl
  | some txin => rcases eq_or_ne i nIn with h | h <;> simp [h]

/-- What the changes for a signature make of an input. -/
def editInput (s : SignatureSerializer) (script : CScript) (i : Nat) (txin : CTxIn) : CTxIn where
  prevout := txin.prevout
  scriptSig := if i = s.nIn then script else []
  nSequence := if i ≠ s.nIn ∧ (s.fHashSingle || s.fHashNone) then 0 else txin.nSequence

/-- The inputs of the copy, before all but one are dropped. -/
def editInputs (s : SignatureSerializer) (script : CScript) : List CTxIn :=
  s.txTo.vin.mapIdx (editInput s script)

theorem serializeInput_eq (script : CScript) (nInput : Nat) :
    s.serializeInput (CScript.serialize script) nInput =
      (editInputs s script)[if s.fAnyoneCanPay then s.nIn else nInput]?.elim []
        CTxIn.serialize := by
  rw [editInputs, List.getElem?_mapIdx, serializeInput]
  generalize (if s.fAnyoneCanPay then s.nIn else nInput) = i
  cases s.txTo.vin[i]? with
  | none => rfl
  | some txin =>
      have hscript : (if i ≠ s.nIn then CScript.serialize [] else CScript.serialize script) =
          CScript.serialize (if i = s.nIn then script else []) := by
        by_cases hi : i = s.nIn
        · rw [if_neg (not_not.mpr hi), if_pos hi]
        · rw [if_pos hi, if_neg hi]
      have hsequence : (if i ≠ s.nIn ∧ (s.fHashSingle || s.fHashNone) then serializeInt 0
            else toBytes 4 txin.nSequence) =
          toBytes 4 (if i ≠ s.nIn ∧ (s.fHashSingle || s.fHashNone) then 0
            else txin.nSequence) := by
        split <;> rfl
      rw [Option.elim_some, hscript, hsequence]
      rfl

theorem serializeInputs_eq (script : CScript) (h : s.nIn < s.txTo.vin.length) :
    serializeVector CTxIn.serialize
        (if s.fAnyoneCanPay then (editInputs s script)[s.nIn]?.toList else editInputs s script) =
      writeCompactSize (if s.fAnyoneCanPay then 1 else s.txTo.vin.length) ++
        (List.range (if s.fAnyoneCanPay then 1 else s.txTo.vin.length)).flatMap
          (s.serializeInput (CScript.serialize script)) := by
  have hlen : (editInputs s script).length = s.txTo.vin.length := List.length_mapIdx
  rw [funext (serializeInput_eq script), serializeVector]
  cases s.fAnyoneCanPay with
  | true =>
      simp only [if_true, List.range_one, List.flatMap_singleton,
        List.getElem?_eq_getElem (h.trans_eq hlen.symm), Option.toList_some, List.length_singleton,
        Option.elim_some]
  | false =>
      simp only [Bool.false_eq_true, if_false]
      rw [← hlen, flatMap_range_getElem?]

theorem serializeOutputs_single (h : s.nIn < s.txTo.vout.length) (hsingle : s.fHashSingle = true) :
    serializeVector CTxOut.serialize ((s.txTo.vout.take (s.nIn + 1)).mapIdx fun i txout ↦
        if i < s.nIn then CTxOut.null else txout) =
      writeCompactSize (s.nIn + 1) ++ (List.range (s.nIn + 1)).flatMap s.serializeOutput := by
  have hlen : (s.txTo.vout.take (s.nIn + 1)).length = s.nIn + 1 :=
    List.length_take_of_le h
  rw [serializeVector, ← flatMap_range_getElem?, List.length_mapIdx, hlen]
  congr 1
  apply List.flatMap_congr
  intro i hi
  rw [List.mem_range] at hi
  rw [List.getElem?_mapIdx, List.getElem?_take_of_lt hi,
    List.getElem?_eq_getElem (show i < s.txTo.vout.length by omega), serializeOutput, hsingle]
  rcases (Nat.lt_succ_iff.mp hi).lt_or_eq with hlt | rfl
  · simp [hlt, hlt.ne]
  · simp [h]

/-- The steps of the copy come to the changes of each input. -/
theorem vinOld_eq (s : SignatureSerializer) (script : CScript) {vin : List CTxIn}
    (hvin : vin = (s.txTo.vin.map fun txin ↦ { txin with scriptSig := [] }).modify s.nIn fun txin ↦
      { txin with scriptSig := script }) :
    (if s.fHashSingle || s.fHashNone then updateAtWill s.nIn vin else vin) =
      editInputs s script := by
  apply List.ext_getElem?
  intro i
  have hbase := getElem?_vinOld s.txTo.vin script s.nIn i
  rw [← hvin] at hbase
  rw [editInputs, List.getElem?_mapIdx]
  cases hedit : s.fHashSingle || s.fHashNone with
  | true =>
      rw [if_pos rfl, getElem?_updateAtWill, hbase, Option.map_map]
      congr 1
      funext txin
      simp [editInput, hedit]
  | false =>
      rw [if_neg Bool.false_ne_true, hbase]
      congr 1
      funext txin
      simp [editInput, hedit]

/-- The edits for the hash type, in the copy and in the serializer. -/
theorem edited_eq {vin vinTmp : List CTxIn} {voutTmp : List CTxOut} (scriptCode script : CScript)
    (hvin : vin = (txTo.vin.map fun txin ↦ { txin with scriptSig := [] }).modify nIn fun txin ↦
      { txin with scriptSig := script })
    (h : (if nHashType &&& 0x1f = sighashNone then some (updateAtWill nIn vin, [])
      else if nHashType &&& 0x1f = sighashSingle then
        if txTo.vout.length ≤ nIn then none
        else some (updateAtWill nIn vin,
          (txTo.vout.take (nIn + 1)).mapIdx fun i txout ↦ if i < nIn then .null else txout)
      else some (vin, txTo.vout)) = some (vinTmp, voutTmp)) :
    let s := ofHashType txTo scriptCode nIn nHashType
    let nOutputs := if s.fHashNone then 0 else if s.fHashSingle then nIn + 1 else txTo.vout.length
    vinTmp = editInputs s script ∧
      serializeVector CTxOut.serialize voutTmp =
        writeCompactSize nOutputs ++ (List.range nOutputs).flatMap s.serializeOutput := by
  intro s nOutputs
  have hedit := vinOld_eq s script hvin
  split at h
  case isTrue hnone =>
    obtain ⟨rfl, rfl⟩ := Prod.mk.inj (Option.some.inj h)
    have hflag : s.fHashNone = true := beq_iff_eq.mpr hnone
    simp only [hflag, Bool.or_true, if_true] at hedit
    refine ⟨hedit, ?_⟩
    simp only [nOutputs, hflag, if_true]
    rfl
  case isFalse hnone =>
    have hflag : s.fHashNone = false := beq_eq_false_iff_ne.mpr hnone
    simp only [nOutputs, hflag, Bool.false_eq_true, if_false]
    split at h
    case isTrue hsingle =>
      have hflag' : s.fHashSingle = true := beq_iff_eq.mpr hsingle
      simp only [hflag', Bool.true_or, if_true] at hedit ⊢
      split at h
      case isTrue => cases h
      case isFalse hout =>
        obtain ⟨rfl, rfl⟩ := Prod.mk.inj (Option.some.inj h)
        exact ⟨hedit, serializeOutputs_single (Nat.not_le.mp hout) hflag'⟩
    case isFalse hsingle =>
      have hflag' : s.fHashSingle = false := beq_eq_false_iff_ne.mpr hsingle
      obtain ⟨rfl, rfl⟩ := Prod.mk.inj (Option.some.inj h)
      simp only [hflag, hflag', Bool.or_self, Bool.false_eq_true, if_false] at hedit ⊢
      refine ⟨hedit, ?_⟩
      have hout : s.serializeOutput = fun i ↦ txTo.vout[i]?.elim [] CTxOut.serialize := by
        funext i
        rw [serializeOutput, hflag']
        rfl
      rw [hout, flatMap_range_getElem?]
      rfl

/-- The copy is written as the serializer writes, but for the script. -/
theorem serialize_txTmpOld {txTmp : CTransaction}
    (h : txTmpOld scriptCode txTo nIn nHashType = some txTmp) :
    txTmp.serialize = (ofHashType txTo scriptCode nIn nHashType).serializeWith
      (CScript.serialize (dropSeparators scriptCode)) := by
  rw [txTmpOld, findAndDelete_separator] at h
  split at h
  case isTrue => cases h
  case isFalse hin =>
    obtain ⟨⟨vin, vout⟩, hedited, rfl⟩ := Option.map_eq_some_iff.mp h
    obtain ⟨rfl, hvout⟩ := edited_eq scriptCode _ rfl hedited
    have hvin := serializeInputs_eq (s := ofHashType txTo scriptCode nIn nHashType)
      (dropSeparators scriptCode) (Nat.not_le.mp hin)
    have hany : ((ofHashType txTo scriptCode nIn nHashType).fAnyoneCanPay = true) =
        (nHashType &&& sighashAnyonecanpay ≠ 0) := propext bne_iff_ne
    simp only [hany] at hvin
    rw [CTransaction.serialize, serializeWith]
    dsimp only at hvout ⊢
    simp only [hany]
    rw [hvout]
    exact congrArg (fun inputs ↦ serializeInt txTo.nVersion ++ inputs ++ _ ++ _) hvin

end

/-! ## When the two agree -/

section

variable {txTo : CTransaction} {scriptCode : CScript} {nIn : Nat} {nHashType : BitVec 32}

/-- Both return one in the same cases. -/
theorem txTmpOld_eq_none_iff :
    txTmpOld scriptCode txTo nIn nHashType = none ↔
      txTo.vin.length ≤ nIn ∨ nHashType &&& 0x1f = sighashSingle ∧ txTo.vout.length ≤ nIn := by
  rw [txTmpOld]
  by_cases hin : txTo.vin.length ≤ nIn
  · rw [if_pos hin]
    exact iff_of_true rfl (Or.inl hin)
  · rw [if_neg hin, Option.map_eq_none_iff, or_iff_right hin]
    split_ifs with hnone hsingle hout
    · rw [false_iff]
      rintro ⟨hsingle, _⟩
      exact absurd (hnone.symm.trans hsingle) (by decide)
    · exact iff_of_true rfl ⟨hsingle, hout⟩
    · rw [false_iff]
      exact fun h ↦ hout h.2
    · rw [false_iff]
      exact fun h ↦ hsingle h.1

theorem serializeScriptCode_eq_iff :
    serializeScriptCode scriptCode = CScript.serialize (dropSeparators scriptCode) ↔
      readEnd scriptCode = [] := by
  rw [serializeScriptCode, CScript.serialize_eq, length_dropSeparators, List.append_right_inj,
    ← scriptBytes_append]
  exact List.self_eq_append_right

end

/-- `SignatureHash` hashes what the reference hashes if and only if it returns one before or
nothing is left behind the point where reading the script fails; and so long the size written for
the script is that of the bytes written after it. -/
theorem signatureMessage_eq_iff (scriptCode : CScript) (txTo : CTransaction) (nIn : Nat)
    (nHashType : BitVec 32) :
    (signatureMessage scriptCode txTo nIn nHashType =
        signatureMessageOld scriptCode txTo nIn nHashType ↔
      txTo.vin.length ≤ nIn ∨
        (nHashType &&& 0x1f = sighashSingle ∧ txTo.vout.length ≤ nIn) ∨
        readEnd scriptCode = []) ∧
    (scriptCode.length - nCodeSeparators scriptCode = (scriptBytes scriptCode).length ↔
      readEnd scriptCode = []) := by
  constructor
  · rw [signatureMessage, signatureMessageOld, ← or_assoc]
    by_cases hone : txTo.vin.length ≤ nIn ∨
        nHashType &&& 0x1f = sighashSingle ∧ txTo.vout.length ≤ nIn
    · rw [txTmpOld_eq_none_iff.mpr hone]
      refine iff_of_true ?_ (Or.inl hone)
      rcases hone with h | h
      · rw [if_pos h]
        rfl
      · rw [if_pos h, ite_self]
        rfl
    · rw [or_iff_right hone]
      obtain ⟨txTmp, htxTmp⟩ := Option.ne_none_iff_exists'.mp (mt txTmpOld_eq_none_iff.mp hone)
      rw [not_or] at hone
      rw [if_neg hone.1, if_neg hone.2, htxTmp, Option.map_some, Option.some_inj,
        List.append_left_inj, serialize_txTmpOld htxTmp, serialize,
        (framed_serializeWith (Nat.not_le.mp hone.1)).inj]
      exact serializeScriptCode_eq_iff
  · rw [length_dropSeparators, ← scriptBytes_append, List.length_append, Nat.add_eq_left,
      List.length_eq_zero_iff]

/-- A transaction with an input and no output. -/
def emptyOut : CTransaction := { vin := [{ prevout := .null }], vout := [] }

/-- A push of two bytes of which one is missing. -/
theorem signatureMessage_truncatedPush :
    ¬ ∀ (scriptCode : CScript) (txTo : CTransaction) (nIn : Nat) (nHashType : BitVec 32),
      signatureMessage scriptCode txTo nIn nHashType =
        signatureMessageOld scriptCode txTo nIn nHashType := by
  intro hall
  exact absurd (hall [2, 0] emptyOut 0 1) (by decide)

end Fedoracoin
