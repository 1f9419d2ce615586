import Fedoracoin.AccountingEntry
import Fedoracoin.Spendable

/-!
# Combining signatures

`CombineSignatures`, on the stacks that the two `scriptSig`s leave, the bottom first.  It is how the
parties to a multisig script put together what each of them has signed.

The signatures of both are given to the keys that they are of, and as many of them as are required
are pushed in the order of the keys.  The input that results verifies exactly if enough of the keys
have a signature on one of the two sides (`verifyScript_combineSignatures`).
-/

namespace Fedoracoin

open Wire Matching CCryptoKeyStore

section

variable (crypto : Crypto) (txTo : CTransaction) (nIn : Nat)

/-- `CheckSig`, with no hash type asked for and no flags. -/
def checksSig (scriptPubKey : CScript) (vchSig pubkey : Valtype) : Bool :=
  SigContext.checkSig { crypto := crypto, txTo := txTo, nIn := nIn } vchSig pubkey scriptPubKey

/-- `set<valtype> allsigs`. -/
def allSigs (sigs1 sigs2 : List Valtype) : List Valtype :=
  ((sigs1 ++ sigs2).filter fun v ↦ !v.isEmpty).toFinset.sort StringLE

/-- "Now build a merged CScript": the number of signatures, and the script. -/
def mergeSigs (nSigsRequired : Nat) (sigs : Valtype → Option Valtype) :
    (pubkeys : List Valtype) → (nSigsHave : Nat) → (result : CScript) → Nat × CScript
  | [], nSigsHave, result => (nSigsHave, result)
  | pubkey :: pubkeys, nSigsHave, result =>
      if nSigsHave < nSigsRequired then
        match sigs pubkey with
        | none => mergeSigs nSigsRequired sigs pubkeys nSigsHave result
        | some sig => mergeSigs nSigsRequired sigs pubkeys (nSigsHave + 1) (result.push sig)
      else (nSigsHave, result)

/-- `CombineMultisig`, or nothing if the assertion fails. -/
def combineMultisig (scriptPubKey : CScript) (vSolutions sigs1 sigs2 : List Valtype) :
    Option CScript :=
  if vSolutions.length ≤ 1 then none
  else
    let nSigsRequired := ((vSolutions.head?.bind List.head?).getD 0).toNat
    let pubkeys := vSolutions.tail.dropLast
    let sigs := assignAll (checksSig crypto txTo nIn scriptPubKey) (allSigs sigs1 sigs2) pubkeys
    let merged := mergeSigs nSigsRequired sigs pubkeys 0 [0]
    some (merged.2 ++ List.replicate (nSigsRequired - merged.1) 0)

def combineSignatures (scriptPubKey : CScript) (txType : TxnOutType)
    (vSolutions sigs1 sigs2 : List Valtype) : Option CScript :=
  match txType with
  | .nonstandard | .nullData =>
      some (pushAll (if sigs2.length ≤ sigs1.length then sigs1 else sigs2))
  | .pubkey | .pubkeyhash =>
      some (pushAll (if (sigs1.headD []).isEmpty then sigs2 else sigs1))
  | .scripthash =>
      if _hsigs1 : (sigs1.getLastD []).isEmpty then some (pushAll sigs2)
      else if (sigs2.getLastD []).isEmpty then some (pushAll sigs1)
      else
        -- "Recur to combine"
        let spk := sigs1.getLastD []
        let r := solver spk
        (combineSignatures spk r.typeRet r.vSolutionsRet sigs1.dropLast sigs2.dropLast).map
          (·.push spk)
  | .multisig => combineMultisig crypto txTo nIn scriptPubKey vSolutions sigs1 sigs2
termination_by sigs1.length
decreasing_by
  cases sigs1 with
  | nil => exact absurd rfl _hsigs1
  | cons _ _ => simp

end

/-! ## The merged script -/

section

variable {crypto : Crypto} {txTo : CTransaction} {nIn nSigsRequired nSigsHave : Nat}
  {sigs : Valtype → Option Valtype} {pubkeys sigs1 sigs2 : List Valtype} {sig pubkey : Valtype}
  {result script pc : CScript} {m n : UInt8}

theorem mem_allSigs : sig ∈ allSigs sigs1 sigs2 ↔ sig ∈ sigs1 ++ sigs2 ∧ sig ≠ [] := by
  rw [allSigs, Finset.mem_sort, List.mem_toFinset, List.mem_filter, Bool.not_eq_true',
    List.isEmpty_eq_false_iff]

theorem mergeSigs_eq (h : nSigsHave ≤ nSigsRequired) :
    mergeSigs nSigsRequired sigs pubkeys nSigsHave result =
      (nSigsHave + ((pubkeys.filterMap sigs).take (nSigsRequired - nSigsHave)).length,
        result ++ pushAll ((pubkeys.filterMap sigs).take (nSigsRequired - nSigsHave))) := by
  induction pubkeys generalizing nSigsHave result with
  | nil => simp [mergeSigs, pushAll]
  | cons pubkey pubkeys ih =>
      rw [mergeSigs]
      split
      case isTrue hlt =>
        cases hsig : sigs pubkey with
        | none =>
            rw [List.filterMap_cons_none hsig]
            exact ih h
        | some sig =>
            have htake : nSigsRequired - nSigsHave = nSigsRequired - (nSigsHave + 1) + 1 := by omega
            dsimp only
            rw [List.filterMap_cons_some hsig, htake, List.take_succ_cons, ih hlt, push_eq,
              List.append_assoc]
            exact Prod.ext (Nat.succ_add_eq_add_succ ..) rfl
      case isFalse hge =>
        have hnone : nSigsRequired - nSigsHave = 0 := by omega
        rw [hnone, List.take_zero]
        exact Prod.ext rfl (List.append_nil _).symm

theorem pushAll_append (vs ws : List Valtype) : pushAll (vs ++ ws) = pushAll vs ++ pushAll ws := by
  rw [pushAll, List.flatMap_append, pushAll, pushAll]

theorem pushAll_replicate (k : Nat) : pushAll (List.replicate k []) = List.replicate k 0 := by
  induction k with
  | zero => rfl
  | succ k ih =>
      rw [List.replicate_succ, List.replicate_succ, pushAll, List.flatMap_cons, ← pushAll, ih]
      rfl

/-- What is pushed besides the element that is popped in addition. -/
def mergedSigs (sigs : Valtype → Option Valtype) (pubkeys : List Valtype) (nSigsRequired : Nat) :
    List Valtype :=
  let merged := (pubkeys.filterMap sigs).take nSigsRequired
  merged ++ List.replicate (nSigsRequired - merged.length) []

theorem length_mergedSigs : (mergedSigs sigs pubkeys nSigsRequired).length = nSigsRequired := by
  have hle := List.length_take_le nSigsRequired (pubkeys.filterMap sigs)
  rw [mergedSigs, List.length_append, List.length_replicate]
  omega

theorem mergedSigs_of_le (h : nSigsRequired ≤ (pubkeys.filterMap sigs).length) :
    mergedSigs sigs pubkeys nSigsRequired = (pubkeys.filterMap sigs).take nSigsRequired := by
  rw [mergedSigs, List.length_take, Nat.min_eq_left h, Nat.sub_self, List.replicate_zero,
    List.append_nil]

/-- The values that `CombineMultisig` pushes, the one that is popped in addition first. -/
def mergedValues (crypto : Crypto) (txTo : CTransaction) (nIn : Nat) (script : CScript)
    (pubkeys sigs1 sigs2 : List Valtype) (nSigsRequired : Nat) : List Valtype :=
  [] :: mergedSigs (assignAll (checksSig crypto txTo nIn script) (allSigs sigs1 sigs2) pubkeys)
    pubkeys nSigsRequired

theorem combineMultisig_eq (hm : m ≤ op16) :
    combineMultisig crypto txTo nIn script
        ([UInt8.ofNat (decodeOpN m)] :: (pubkeys ++ [[UInt8.ofNat (decodeOpN n)]])) sigs1 sigs2 =
      some (pushAll (mergedValues crypto txTo nIn script pubkeys sigs1 sigs2 (decodeOpN m))) := by
  have hcount : (UInt8.ofNat (decodeOpN m)).toNat = decodeOpN m := toNat_decodeOpN hm
  rw [combineMultisig, if_neg (by simp), List.tail_cons, List.dropLast_concat, List.head?_cons,
    Option.bind_some, List.head?_cons, Option.getD_some, hcount]
  dsimp only
  rw [mergeSigs_eq (Nat.zero_le _), Nat.sub_zero, Nat.zero_add, mergedValues, mergedSigs,
    ← List.cons_append, pushAll_append, pushAll_replicate]
  rfl

/-! ## The verdict -/

/-- The signatures of both sides, as the interpreter is to see them. -/
structure SigsReady (crypto : Crypto) (txTo : CTransaction) (nIn : Nat) (script : CScript)
    (pubkeys sigs : List Valtype) : Prop where
  size : ∀ sig ∈ sigs, sig.length ≤ 520
  /-- No signature has the bytes of a key, which would be dropped from the script. -/
  notKey : ∀ sig ∈ sigs, sig ∉ pubkeys
  /-- A signature that checks is in canonical form, as is its key. -/
  canonical : ∀ sig ∈ sigs, ∀ pubkey ∈ pubkeys, checksSig crypto txTo nIn script sig pubkey = true →
    isCanonicalSignature sig signFlags = some true ∧ isCanonicalPubKey pubkey signFlags = some true
  /-- No signature is of two keys. -/
  unique : ∀ sig ∈ sigs, ∀ pubkey ∈ pubkeys, ∀ pubkey' ∈ pubkeys,
    checksSig crypto txTo nIn script sig pubkey = true →
      checksSig crypto txTo nIn script sig pubkey' = true → pubkey = pubkey'

/-- The keys that have a signature on one of the two sides, one counted as often as it stands in the
script. -/
def countSigned (crypto : Crypto) (txTo : CTransaction) (nIn : Nat) (script : CScript)
    (pubkeys sigs : List Valtype) : Nat :=
  pubkeys.countP fun pubkey ↦ sigs.any fun sig ↦ checksSig crypto txTo nIn script sig pubkey

theorem not_checksSig_nil : checksSig crypto txTo nIn script [] pubkey = false := rfl

theorem sigOk_nil {ctx : SigContext} {flags : Nat} : ctx.sigOk flags script [] pubkey = false := by
  rw [SigContext.sigOk, SigContext.checkCanonicalSig]
  split
  · rfl
  · rfl

theorem length_filterMap_assignAll
    (h : SigsReady crypto txTo nIn script pubkeys (sigs1 ++ sigs2)) :
    (pubkeys.filterMap (assignAll (checksSig crypto txTo nIn script) (allSigs sigs1 sigs2)
      pubkeys)).length = countSigned crypto txTo nIn script pubkeys (sigs1 ++ sigs2) := by
  rw [List.length_filterMap_eq_countP, countSigned]
  refine List.countP_congr fun pubkey hpubkey ↦ ?_
  rw [isSome_assignAll_iff hpubkey fun sig hsig ↦ h.unique sig (mem_allSigs.mp hsig).1,
    List.any_eq_true]
  constructor
  · rintro ⟨sig, hsig, hcheck⟩
    exact ⟨sig, (mem_allSigs.mp hsig).1, hcheck⟩
  · rintro ⟨sig, hsig, hcheck⟩
    refine ⟨sig, mem_allSigs.mpr ⟨hsig, ?_⟩, hcheck⟩
    rintro rfl
    exact absurd hcheck (by rw [not_checksSig_nil]; exact Bool.false_ne_true)

/-- The interpreter sees enough signatures exactly if the keys have them. -/
theorem greedy_mergedSigs (h : SigsReady crypto txTo nIn script pubkeys (sigs1 ++ sigs2))
    {ctx : SigContext} (hctx : ∀ sig pubkey,
      ctx.checkSig sig pubkey script = checksSig crypto txTo nIn script sig pubkey)
    {code : CScript} (hcode : nSigsRequired ≤ countSigned crypto txTo nIn script pubkeys
      (sigs1 ++ sigs2) → code = script) :
    greedy (ctx.sigOk signFlags code) (mergedSigs (assignAll (checksSig crypto txTo nIn script)
      (allSigs sigs1 sigs2) pubkeys) pubkeys nSigsRequired).reverse pubkeys.reverse =
      decide (nSigsRequired ≤ countSigned crypto txTo nIn script pubkeys (sigs1 ++ sigs2)) := by
  have hlength := length_filterMap_assignAll h
  generalize hsigs : assignAll (checksSig crypto txTo nIn script) (allSigs sigs1 sigs2) pubkeys =
    sigs at hlength
  rw [Bool.eq_iff_iff, greedy_iff, decide_eq_true_iff]
  by_cases henough : nSigsRequired ≤ countSigned crypto txTo nIn script pubkeys (sigs1 ++ sigs2)
  · refine iff_of_true ?_ henough
    rw [mergedSigs_of_le (hlength ▸ henough), sublistForall₂_reverse_iff, hcode henough]
    refine sublistForall₂_take _ (sublistForall₂_filterMap fun pubkey hpubkey sig hsig ↦ ?_)
    rw [← hsigs] at hsig
    obtain ⟨hsig, hcheck⟩ := assignAll_eq_some hsig
    have hforms := h.canonical sig (mem_allSigs.mp hsig).1 pubkey hpubkey hcheck
    rw [SigContext.sigOk, SigContext.checkCanonicalSig, if_pos hforms, hctx, hcheck]
    rfl
  · refine iff_of_false (fun hsub ↦ ?_) henough
    -- one of the placeholders is for no key
    have hmem : [] ∈ mergedSigs sigs pubkeys nSigsRequired := by
      rw [mergedSigs]
      refine List.mem_append_right _ (List.mem_replicate.mpr ⟨?_, rfl⟩)
      rw [List.length_take, hlength]
      omega
    obtain ⟨l, hall, -⟩ := List.sublistForall₂_iff.mp hsub
    obtain ⟨pubkey, -, hok⟩ := exists_mem_left hall.flip (List.mem_reverse.mpr hmem)
    exact absurd hok (by rw [sigOk_nil]; exact Bool.false_ne_true)

/-- The stack that the merged script leaves, and what the multisig script makes of it. -/
theorem evalScript_mergedSigs (hm : op1 ≤ m ∧ m ≤ op16) (hn : op1 ≤ n ∧ n ≤ op16)
    (hle : decodeOpN m ≤ pubkeys.length) (hkeys : pubkeys.length = decodeOpN n)
    (hsizes : ∀ vch ∈ pubkeys, isPubKeySize vch = true)
    (hpushes : Pushes pc pubkeys [n, opCheckmultisig])
    (h : SigsReady crypto txTo nIn (m :: pc) pubkeys (sigs1 ++ sigs2)) {ctx : SigContext}
    (hctx : ∀ sig pubkey,
      ctx.checkSig sig pubkey (m :: pc) = checksSig crypto txTo nIn (m :: pc) sig pubkey) :
    (evalScript ctx signFlags (mergedValues crypto txTo nIn (m :: pc) pubkeys sigs1 sigs2
      (decodeOpN m)).reverse (m :: pc)).ret =
      some (verdictStack (decide (decodeOpN m ≤
        countSigned crypto txTo nIn (m :: pc) pubkeys (sigs1 ++ sigs2))) []) := by
  rw [mergedValues, List.reverse_cons,
    evalScript_multisig_code hm hn length_mergedSigs hle hkeys hsizes hpushes,
    greedy_mergedSigs h hctx fun henough ↦ ?_]
  refine scriptCode_notPushed fun sig hsig ↦ ?_
  rw [mergedSigs_of_le (by rw [length_filterMap_assignAll h]; exact henough),
    List.mem_reverse] at hsig
  obtain ⟨pubkey, -, hsig⟩ := List.mem_filterMap.mp (List.mem_of_mem_take hsig)
  obtain ⟨hmem, hne⟩ := mem_allSigs.mp (assignAll_eq_some hsig).1
  refine ⟨(h.size sig hmem).trans_lt (by decide),
    .code (UInt8.lt_of_lt_of_le (by decide) hm.1) hne (hpushes.notPushed (fun vch hvch heq ↦ ?_)
      (.code (UInt8.lt_of_lt_of_le (by decide) hn.1) hne (NotPushed.nil.code (by decide) hne)))⟩
  exact h.notKey sig hmem (heq ▸ hvch)

theorem length_le_of_mem_mergedValues
    (h : SigsReady crypto txTo nIn script pubkeys (sigs1 ++ sigs2)) :
    ∀ v ∈ mergedValues crypto txTo nIn script pubkeys sigs1 sigs2 nSigsRequired,
      v.length ≤ 520 := by
  refine List.forall_mem_cons.mpr ⟨Nat.zero_le _, fun v hv ↦ ?_⟩
  obtain hv | hv := List.mem_append.mp hv
  · obtain ⟨pubkey, -, hv⟩ := List.mem_filterMap.mp (List.mem_of_mem_take hv)
    exact h.size v (mem_allSigs.mp (assignAll_eq_some hv).1).1
  · rw [(List.mem_replicate.mp hv).2]
    exact Nat.zero_le _

/-- `VerifyScript` of the input with another `scriptSig`, as after merging. -/
def verifyMerged (crypto : Crypto) (txTo : CTransaction) (nIn : Nat)
    (scriptSig scriptPubKey : CScript) : Option Bool :=
  (verifyScript { crypto := crypto, txTo := txTo.setScriptSig nIn scriptSig, nIn := nIn } signFlags
    scriptSig scriptPubKey).ret

theorem checkSig_setScriptSig (scriptSig : CScript) :
    SigContext.checkSig { crypto := crypto, txTo := txTo.setScriptSig nIn scriptSig, nIn := nIn }
      sig pubkey script = checksSig crypto txTo nIn script sig pubkey := by
  rw [checksSig, SigContext.checkSig, SigContext.checkSig]
  cases sig.getLast? with
  | none => rfl
  | some back =>
      dsimp only
      rw [signatureHash_setScriptSig]

/-- The script that pays to the hash of another. -/
def payToScriptHash (crypto : Crypto) (script : CScript) : CScript :=
  opHash160 :: 0x14 :: ((crypto.hash160 script).toList ++ [opEqual])

/-- As many keys as the script asks for have a signature. -/
def enoughSigned (crypto : Crypto) (txTo : CTransaction) (nIn : Nat) (script : CScript)
    (vSolutions sigs : List Valtype) : Bool :=
  decide (((vSolutions.head?.bind List.head?).getD 0).toNat ≤
    countSigned crypto txTo nIn script vSolutions.tail.dropLast sigs)

/-- **Combining two sides of a multisig input.** -/
theorem verifyScript_combineSignatures {vSolutions : List Valtype}
    (hsolver : solver script = ⟨true, .multisig, vSolutions⟩)
    (h : SigsReady crypto txTo nIn script vSolutions.tail.dropLast (sigs1 ++ sigs2)) :
    (∃ scriptSig, combineSignatures crypto txTo nIn script .multisig vSolutions sigs1 sigs2 =
        some scriptSig ∧ verifyMerged crypto txTo nIn scriptSig script =
          some (enoughSigned crypto txTo nIn script vSolutions (sigs1 ++ sigs2))) ∧
      (script.length ≤ 520 → ∃ scriptSig, combineSignatures crypto txTo nIn
          (payToScriptHash crypto script) .scripthash [(crypto.hash160 script).toList]
          (sigs1 ++ [script]) (sigs2 ++ [script]) = some scriptSig ∧
        verifyMerged crypto txTo nIn scriptSig (payToScriptHash crypto script) =
          some (enoughSigned crypto txTo nIn script vSolutions (sigs1 ++ sigs2))) := by
  have hbare : isPayToScriptHash script ≠ true :=
    fun hp2sh ↦ absurd (isPayToScriptHash_iff.mp hp2sh) (by simp [hsolver])
  have hstandard := solver_standard (show (solver script).fRet = true by rw [hsolver])
  rw [hsolver] at hstandard
  cases hstandard with
  | @multisig m n pc pubkeys hm hn hle hkeys hsizes hpushes =>
      have hcount : (UInt8.ofNat (decodeOpN m)).toNat = decodeOpN m := toNat_decodeOpN hm.2
      rw [List.tail_cons, List.dropLast_concat] at h
      rw [enoughSigned, List.tail_cons, List.dropLast_concat, List.head?_cons, Option.bind_some,
        List.head?_cons, Option.getD_some, hcount]
      have hfew : (mergedValues crypto txTo nIn (m :: pc) pubkeys sigs1 sigs2
          (decodeOpN m)).length ≤ 17 := by
        rw [mergedValues, List.length_cons, length_mergedSigs]
        exact Nat.succ_le_succ (decodeOpN_le hm.2)
      have hmerge : combineSignatures crypto txTo nIn (m :: pc) .multisig
          ([UInt8.ofNat (decodeOpN m)] :: (pubkeys ++ [[UInt8.ofNat (decodeOpN n)]])) sigs1 sigs2 =
          some (pushAll (mergedValues crypto txTo nIn (m :: pc) pubkeys sigs1 sigs2
            (decodeOpN m))) := by
        rw [combineSignatures]
        exact combineMultisig_eq hm.2
      refine ⟨⟨_, hmerge, ?_⟩, fun hlong ↦ ⟨(pushAll (mergedValues crypto txTo nIn (m :: pc) pubkeys
        sigs1 sigs2 (decodeOpN m))).push (m :: pc), ?_, ?_⟩⟩
      · exact verifyScript_pushAll (length_le_of_mem_mergedValues h) (hfew.trans (by decide)) hbare
          (evalScript_mergedSigs hm hn hle hkeys hsizes hpushes h fun _ _ ↦
            checkSig_setScriptSig _)
      · rw [combineSignatures, List.getLastD_concat, List.getLastD_concat, dif_neg (by simp),
          if_neg (by simp), List.dropLast_concat, List.dropLast_concat]
        dsimp only
        rw [hsolver, hmerge]
        rfl
      · exact verifyScript_subscript (by decide) (length_le_of_mem_mergedValues h) hfew hlong
          Vector.length_toList rfl (isPayToScriptHash_scripthash Vector.length_toList)
          (evalScript_mergedSigs hm hn hle hkeys hsizes hpushes h fun _ _ ↦
            checkSig_setScriptSig _)

end

/-! ## Two of three -/

/-- A signature with a number of its own, of all inputs and outputs. -/
def mergeSig (c : UInt8) : Valtype := [0x30, 6, 2, 1, c, 2, 1, 1, 1]

def mergeKey (c : UInt8) : Valtype := 2 :: c :: List.replicate 31 0

/-- A signature is of the key that has its number. -/
def mergeCrypto : Crypto where
  ripemd160 _ := Vector.replicate 20 0
  sha1 _ := Vector.replicate 20 0
  sha256 _ := Vector.replicate 32 0
  verify _ vchSig pubkey := vchSig[4]? == pubkey[1]?

def mergeTx : CTransaction := { vin := [{ prevout := ⟨1, 0⟩ }], vout := [] }

def mergeScript : CScript :=
  0x52 :: (pushAll [mergeKey 1, mergeKey 2, mergeKey 3] ++ [0x53, opCheckmultisig])

theorem solver_mergeScript : solver mergeScript =
    ⟨true, .multisig, [[2], mergeKey 1, mergeKey 2, mergeKey 3, [3]]⟩ := by
  decide +kernel

/-- The first party has signed with the third key, the second with the first. -/
theorem verifyScript_combineSignatures_mergeScript :
    enoughSigned mergeCrypto mergeTx 0 mergeScript
        [[2], mergeKey 1, mergeKey 2, mergeKey 3, [3]]
        ([[], mergeSig 3, []] ++ [[], mergeSig 1, []]) = true ∧
      (∃ scriptSig, combineSignatures mergeCrypto mergeTx 0 mergeScript .multisig
          [[2], mergeKey 1, mergeKey 2, mergeKey 3, [3]] [[], mergeSig 3, []]
          [[], mergeSig 1, []] = some scriptSig ∧
        verifyMerged mergeCrypto mergeTx 0 scriptSig mergeScript =
          some (enoughSigned mergeCrypto mergeTx 0 mergeScript
            [[2], mergeKey 1, mergeKey 2, mergeKey 3, [3]]
            ([[], mergeSig 3, []] ++ [[], mergeSig 1, []]))) :=
  ⟨by decide +kernel, (verifyScript_combineSignatures solver_mergeScript
    ⟨by decide, by decide, by decide +kernel, by decide +kernel⟩).1⟩

end Fedoracoin
