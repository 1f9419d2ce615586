import Fedoracoin.SignatureForm
import Fedoracoin.SignSignature

/-!
# Verdicts on signed scripts

What the scripts that `SignSignature` makes leave on the stack, and what each type of script makes
of it, as a verdict on the signatures.
-/

namespace Fedoracoin

open Wire Matching

/-! ## What the hash of an input depends on -/

section

variable {txTo : CTransaction} {nIn n : Nat} {code scriptSig : CScript} {nHashType : BitVec 32}

theorem elim_setScriptSig {g : CTxIn → List UInt8}
    (hg : ∀ txin : CTxIn, g { txin with scriptSig := scriptSig } = g txin) (i : Nat) :
    (txTo.setScriptSig nIn scriptSig).vin[i]?.elim [] g = txTo.vin[i]?.elim [] g := by
  rw [CTransaction.setScriptSig]
  dsimp only
  rw [List.getElem?_modify]
  cases txTo.vin[i]? with
  | none => rfl
  | some txin =>
      rw [Option.map_eq_map, Option.map_some, Option.elim_some, Option.elim_some]
      split
      · exact hg txin
      · rfl

/-- "Leave out the signature from the hash, since a signature can't sign itself." -/
theorem signatureHash_setScriptSig (hash : List UInt8 → Uint256) :
    signatureHash hash code (txTo.setScriptSig nIn scriptSig) n nHashType =
      signatureHash hash code txTo n nHashType := by
  have hinput : ∀ script,
      (SignatureSerializer.ofHashType (txTo.setScriptSig nIn scriptSig) code n
        nHashType).serializeInput script =
      (SignatureSerializer.ofHashType txTo code n nHashType).serializeInput script :=
    fun script ↦ funext fun i ↦ elim_setScriptSig (fun _ ↦ rfl) _
  have hlength : (txTo.setScriptSig nIn scriptSig).vin.length = txTo.vin.length :=
    List.length_modify ..
  have hserialize : (SignatureSerializer.ofHashType (txTo.setScriptSig nIn scriptSig) code n
      nHashType).serialize = (SignatureSerializer.ofHashType txTo code n nHashType).serialize := by
    rw [SignatureSerializer.serialize, SignatureSerializer.serialize,
      SignatureSerializer.serializeWith, SignatureSerializer.serializeWith, hinput]
    change _ ++ (writeCompactSize (if _ then 1 else (txTo.setScriptSig nIn scriptSig).vin.length) ++
      (List.range (if _ then 1 else (txTo.setScriptSig nIn scriptSig).vin.length)).flatMap _) ++
      _ ++ _ = _
    rw [hlength]
    rfl
  rw [signatureHash, signatureHash, signatureMessage, signatureMessage, hlength, hserialize]
  rfl

end

/-! ## Encodings -/

/-- The types that callers give. -/
def hashTypes : List (BitVec 32) := [1, 2, 3, 0x81, 0x82, 0x83]

section

variable {vchSig vch : Valtype} {nHashType : BitVec 32}

theorem hashType_of_mem (h : nHashType ∈ hashTypes) :
    BitVec.ofNat 32 (UInt8.ofNat nHashType.toNat).toNat = nHashType := by
  simp only [hashTypes, List.mem_cons, List.not_mem_nil, or_false] at h
  obtain rfl | rfl | rfl | rfl | rfl | rfl := h
  all_goals decide

theorem isHashType_of_mem (h : nHashType ∈ hashTypes) :
    IsHashType (UInt8.ofNat nHashType.toNat) := by
  simp only [hashTypes, List.mem_cons, List.not_mem_nil, or_false] at h
  rw [IsHashType]
  obtain rfl | rfl | rfl | rfl | rfl | rfl := h
  all_goals decide

/-- The first byte, and how long an encoding is. -/
theorem head_of_encoding {back : UInt8}
    (h : isValidSignatureEncoding (vchSig ++ [back]) = some true) :
    (vchSig ++ [back]).length ≤ 73 ∧ (vchSig ++ [back]).head? = some 0x30 := by
  have hback : (vchSig ++ [back])[(vchSig ++ [back]).length - 1]? = some back := by
    rw [← List.getLast?_eq_getElem?, List.getLast?_concat]
  obtain ⟨R, S, hsize, ⟨len, lenR, lenS, -, -, -, hbytes⟩, -, -⟩ :=
    isDerSignature_of_isValidSignatureEncoding h hback
  refine ⟨hsize.2, ?_⟩
  rw [hbytes]
  rfl

theorem signFlags_dersig : CCryptoKeyStore.signFlags &&& scriptVerifyDersig = 0 := by decide

/-- What the interpreter takes for a key. -/
theorem isCanonicalPubKey_iff :
    isCanonicalPubKey vch CCryptoKeyStore.signFlags = some true ↔
      vch.head? = some 4 ∧ vch.length = 65 ∨
        (vch.head? = some 2 ∨ vch.head? = some 3) ∧ vch.length = 33 := by
  rw [isCanonicalPubKey, if_neg (by decide)]
  cases vch with
  | nil => exact iff_of_false (fun h ↦ by cases h) (by simp)
  | cons type rest =>
      rw [List.getElem?_cons_zero, List.head?_cons, Option.bind_eq_bind, Option.bind_some]
      simp only [Option.some.injEq]
      split
      case isTrue hshort =>
        refine iff_of_false (fun h ↦ by cases h) ?_
        rintro (⟨-, hlength⟩ | ⟨-, hlength⟩)
        · omega
        · omega
      case isFalse =>
        split
        case isTrue h4 =>
          subst h4
          simp [pure]
        case isFalse h4 =>
          split
          case isTrue h23 => simp [h4, h23, pure]
          case isFalse h23 => simp [h4, h23, pure]

/-- What has no form of a key is no key. -/
theorem cPubKey_of_head (h : vch.head? = some 0x30) : cPubKey vch = some [] := by
  rw [cPubKey, h]
  rfl

end

/-! ## Evaluations -/

section

variable {ctx : SigContext} {flags : Nat} {vs : List Valtype} {v vch vchSig : Valtype}
  {pc script tail : CScript} {keys sigs : List Valtype} {m n : UInt8} {below : Stack}

/-- A script that pushes some values. -/
def pushAll (vs : List Valtype) : CScript := vs.flatMap (CScript.push [])

theorem push_eq (script : CScript) (v : Valtype) :
    CScript.push script v = script ++ CScript.push [] v := by
  rw [CScript.push, CScript.push, List.nil_append, List.append_assoc]

theorem pushAll_singleton : pushAll [v] = CScript.push [] v := by
  rw [pushAll, List.flatMap_singleton]

theorem pushAll_concat : pushAll (vs ++ [v]) = (pushAll vs).push v := by
  rw [push_eq, pushAll, List.flatMap_append, List.flatMap_singleton, pushAll]

theorem pushes_pushAll (h : ∀ v ∈ vs, v.length < 2 ^ 32) :
    Pushes (pushAll vs ++ tail) vs tail := by
  induction vs with
  | nil => exact .nil tail
  | cons v vs ih =>
      rw [List.forall_mem_cons] at h
      rw [pushAll, List.flatMap_cons, List.append_assoc]
      exact (Pushes.push v _ h.1).append (ih h.2)

theorem pushes_pushAll_nil (h : ∀ v ∈ vs, v.length < 2 ^ 32) : Pushes (pushAll vs) vs [] := by
  have hpushes : Pushes (pushAll vs ++ []) vs [] := pushes_pushAll h
  rwa [List.append_nil] at hpushes

theorem length_le_of_pushes_few (h : Pushes pc vs tail) (hsize : ∀ v ∈ vs, v.length ≤ 520)
    (hfew : vs.length ≤ 18) : pc.length ≤ 9450 + tail.length := by
  have hsum : (vs.map fun v ↦ 5 + v.length).sum ≤ (vs.map fun v ↦ 5 + v.length).length • 525 := by
    refine List.sum_le_card_nsmul _ _ fun k hk ↦ ?_
    obtain ⟨v, hv, rfl⟩ := List.mem_map.mp hk
    have hle := hsize v hv
    omega
  rw [List.length_map, Nat.nsmul_eq_mul] at hsum
  have hle := h.length_le
  omega

/-- The stack after a few pushes. -/
theorem evalScript_pushes (h : Pushes script vs []) (hsize : ∀ v ∈ vs, v.length ≤ 520)
    (hfew : vs.length ≤ 18) : (evalScript ctx flags [] script).ret = some vs.reverse := by
  have hlength : script.length ≤ 10000 :=
    (length_le_of_pushes_few h hsize hfew).trans (by decide)
  rw [evalScript_eq_ends hlength, EvalState.ends_pushes h hsize rfl (by simpa using by omega),
    EvalState.ends_nil rfl rfl]
  exact congrArg some (List.append_nil _)

/-- One of the values is more than an element may be. -/
theorem evalScript_pushes_long (h : Pushes script vs []) (hsize : ∃ v ∈ vs, 520 < v.length)
    (hfew : vs.length ≤ 18) : (evalScript ctx flags [] script).ret = none := by
  by_cases hlength : script.length ≤ 10000
  · rw [evalScript_eq_ends hlength]
    exact EvalState.ends_pushes_long h hsize rfl (by simpa using by omega)
  · rw [evalScript, if_pos (Nat.lt_of_not_le hlength)]

/-- A verdict on the stack. -/
def verdictStack (fSuccess : Bool) (below : Stack) : Stack :=
  (if fSuccess then vchTrue else vchFalse) :: below

theorem endsTrue_verdictStack (fSuccess : Bool) :
    endsTrue (some (verdictStack fSuccess below)) = fSuccess := by
  cases fSuccess with
  | true => rfl
  | false => rfl

theorem length_of_isPubKeySize (h : isPubKeySize vch = true) :
    33 ≤ vch.length ∧ vch.length ≤ 65 := of_decide_eq_true h

theorem length_le_pubkey (hpushes : Pushes script [vch] [opChecksig])
    (hsize : isPubKeySize vch = true) : script.length ≤ 10000 :=
  (length_le_of_pushes_few hpushes (List.forall_mem_singleton.mpr
    ((length_of_isPubKeySize hsize).2.trans (by decide))) (by simp)).trans (by decide)

theorem evalScript_pubkey (hpushes : Pushes script [vch] [opChecksig])
    (hsize : isPubKeySize vch = true) (hsig : vchSig.length < 2 ^ 32)
    (hnot : NotPushed vchSig script) :
    (evalScript ctx CCryptoKeyStore.signFlags [vchSig] script).ret =
      some (verdictStack (ctx.sigOk CCryptoKeyStore.signFlags script vchSig vch) []) := by
  have hvch := (length_of_isPubKeySize hsize).2
  have hlength := length_le_pubkey hpushes hsize
  have hcode : scriptCode script [vchSig] = script :=
    scriptCode_notPushed (List.forall_mem_singleton.mpr ⟨hsig, hnot⟩)
  rw [evalScript_eq_ends hlength, EvalState.ends_pushes hpushes
    (List.forall_mem_singleton.mpr (hvch.trans (by decide))) rfl (by simp),
    EvalState.ends_checkSig signFlags_dersig rfl rfl (by simp) rfl (by simp), hcode]
  rfl

theorem length_le_pubkeyhash {hash : Valtype} (hsize : hash.length = 20)
    (hpushes : Pushes pc [hash] [opEqualverify, opChecksig]) :
    (opDup :: opHash160 :: pc).length ≤ 10000 := by
  have hle := length_le_of_pushes_few hpushes (List.forall_mem_singleton.mpr (by omega)) (by simp)
  simp only [List.length_cons, List.length_nil] at hle ⊢
  omega

theorem evalScript_pubkeyhash {hash vchPubKey : Valtype} (hsize : hash.length = 20)
    (hpushes : Pushes pc [hash] [opEqualverify, opChecksig])
    (hhash : (ctx.crypto.hash160 vchPubKey).toList = hash) (hsig : vchSig.length < 2 ^ 32)
    (hnot : NotPushed vchSig (opDup :: opHash160 :: pc)) :
    (evalScript ctx CCryptoKeyStore.signFlags [vchPubKey, vchSig]
      (opDup :: opHash160 :: pc)).ret =
      some (verdictStack (ctx.sigOk CCryptoKeyStore.signFlags (opDup :: opHash160 :: pc) vchSig
        vchPubKey) []) := by
  have hlength := length_le_pubkeyhash hsize hpushes
  have hcode : scriptCode (opDup :: opHash160 :: pc) [vchSig] = opDup :: opHash160 :: pc :=
    scriptCode_notPushed (List.forall_mem_singleton.mpr ⟨hsig, hnot⟩)
  rw [evalScript_eq_ends hlength,
    EvalState.ends_stack (f := Stack.dup) rfl (by decide) (by decide) rfl (by simp) rfl rfl
      (by simp),
    EvalState.ends_stack (f := Stack.hash ctx.crypto.hash160) rfl (by decide) (by decide) rfl
      (by simp) rfl rfl (by simp),
    EvalState.ends_pushes hpushes (List.forall_mem_singleton.mpr (by omega)) rfl (by simp)]
  have hequal : Stack.equal true (hash :: (ctx.crypto.hash160 vchPubKey).toList ::
      [vchPubKey, vchSig]) = some [vchPubKey, vchSig] := by
    rw [hhash, Stack.equal, beq_self_eq_true]
    rfl
  rw [EvalState.ends_stack rfl (by decide) (by decide) rfl (by simp) rfl hequal (by simp),
    EvalState.ends_checkSig signFlags_dersig rfl rfl (by simp) rfl (by simp), hcode]
  rfl

theorem scriptInt_serialize {k : Nat} (h : k ≤ 16) :
    scriptInt (CScriptNum.serialize k) = some (k : Int) := by
  have hall : ∀ k ≤ 16, scriptInt (CScriptNum.serialize (k : Nat)) = some (k : Int) := by decide
  exact hall k h

theorem toNat_sub_decodeOpN {c : UInt8} (h : op1 ≤ c) :
    ((c.toNat : Int) - 0x50) = (decodeOpN c : Int) := by
  have hle : 0x51 ≤ c.toNat := UInt8.le_iff_toNat_le.mp h
  rw [decodeOpN]
  omega

theorem length_le_of_isPubKeySize (hsizes : ∀ vch ∈ keys, isPubKeySize vch = true) :
    ∀ vch ∈ keys, vch.length ≤ 520 :=
  fun vch hvch ↦ (length_of_isPubKeySize (hsizes vch hvch)).2.trans (by decide)

theorem length_le_multisig {c : UInt8} (hn : n ≤ op16) (hkeys : keys.length = decodeOpN n)
    (hsizes : ∀ vch ∈ keys, isPubKeySize vch = true)
    (hpushes : Pushes pc keys [n, opCheckmultisig]) : (c :: pc).length ≤ 10000 := by
  have hsixteen : decodeOpN n ≤ 16 := decodeOpN_le hn
  have hle := length_le_of_pushes_few hpushes (length_le_of_isPubKeySize hsizes) (by omega)
  simp only [List.length_cons, List.length_nil] at hle ⊢
  omega

/-- The signatures are dropped from the script first. -/
theorem evalScript_multisig_code (hm : op1 ≤ m ∧ m ≤ op16) (hn : op1 ≤ n ∧ n ≤ op16)
    (hsigs : sigs.length = decodeOpN m) (hle : decodeOpN m ≤ keys.length)
    (hkeys : keys.length = decodeOpN n) (hsizes : ∀ vch ∈ keys, isPubKeySize vch = true)
    (hpushes : Pushes pc keys [n, opCheckmultisig]) :
    (evalScript ctx CCryptoKeyStore.signFlags (sigs.reverse ++ [[]]) (m :: pc)).ret =
      some (verdictStack (greedy (ctx.sigOk CCryptoKeyStore.signFlags
        (scriptCode (m :: pc) sigs.reverse)) sigs.reverse keys.reverse) []) := by
  have hsixteen : decodeOpN n ≤ 16 := decodeOpN_le hn.2
  have hlength := length_le_multisig (c := m) hn.2 hkeys hsizes hpushes
  have hkeySizes := length_le_of_isPubKeySize hsizes
  have hstack : CScriptNum.serialize (decodeOpN n) :: (keys.reverse ++
      CScriptNum.serialize (decodeOpN m) :: (sigs.reverse ++ [[]])) =
      multiSigElements (CScriptNum.serialize (decodeOpN n)) (CScriptNum.serialize (decodeOpN m))
        keys.reverse sigs.reverse ++ [] :: [] := by
    rw [multiSigElements, List.cons_append, List.append_assoc]
    rfl
  rw [evalScript_eq_ends hlength,
    EvalState.ends_number rfl hm rfl (by simp; omega), toNat_sub_decodeOpN hm.1,
    EvalState.ends_pushes hpushes hkeySizes rfl (by simp; omega),
    EvalState.ends_number rfl hn rfl (by simp; omega), toNat_sub_decodeOpN hn.1,
    EvalState.ends_checkMultiSig signFlags_dersig rfl rfl hstack ?_ ?_ ?_ ?_ ?_ (by simp)]
  · rfl
  · rw [List.length_reverse, hkeys, scriptInt_serialize hsixteen]
  · rw [List.length_reverse, hsigs, scriptInt_serialize (by omega)]
  · rw [List.length_reverse, List.length_reverse]
    omega
  · rw [List.length_reverse]
    omega
  · rw [List.length_reverse]
    simp
    omega

theorem evalScript_multisig (hm : op1 ≤ m ∧ m ≤ op16) (hn : op1 ≤ n ∧ n ≤ op16)
    (hsigs : sigs.length = decodeOpN m) (hle : decodeOpN m ≤ keys.length)
    (hkeys : keys.length = decodeOpN n) (hsizes : ∀ vch ∈ keys, isPubKeySize vch = true)
    (hpushes : Pushes pc keys [n, opCheckmultisig])
    (hnot : ∀ vchSig ∈ sigs, vchSig.length < 2 ^ 32 ∧ NotPushed vchSig (m :: pc)) :
    (evalScript ctx CCryptoKeyStore.signFlags (sigs.reverse ++ [[]]) (m :: pc)).ret =
      some (verdictStack (greedy (ctx.sigOk CCryptoKeyStore.signFlags (m :: pc)) sigs.reverse
        keys.reverse) []) := by
  have hcode : scriptCode (m :: pc) sigs.reverse = m :: pc :=
    scriptCode_notPushed fun v hv ↦ hnot v (List.mem_reverse.mp hv)
  rw [evalScript_multisig_code hm hn hsigs hle hkeys hsizes hpushes, hcode]

theorem evalScript_scripthash {hash redeem : Valtype} (hsize : hash.length = 20)
    (hfew : below.length ≤ 18) :
    (evalScript ctx flags (redeem :: below) (opHash160 :: 0x14 :: (hash ++ [opEqual]))).ret =
      some (verdictStack ((ctx.crypto.hash160 redeem).toList == hash) below) := by
  have hlength : (opHash160 :: 0x14 :: (hash ++ [opEqual])).length ≤ 10000 := by
    simp only [List.length_cons, List.length_append, List.length_nil]
    omega
  have hread : getOp2 (0x14 :: (hash ++ [opEqual])) = ⟨true, 0x14, hash, [opEqual]⟩ :=
    getOp2_of_getPushSize (by decide) (by rw [hsize]; rfl)
  rw [evalScript_eq_ends hlength,
    EvalState.ends_stack (f := Stack.hash ctx.crypto.hash160) rfl (by decide) (by decide) rfl
      (by simp) rfl rfl (by simp; omega),
    EvalState.ends_pushes (.single hread (by decide))
      (List.forall_mem_singleton.mpr (by omega)) rfl (by simp; omega),
    EvalState.ends_stack (f := Stack.equal false) rfl (by decide) (by decide) rfl (by simp) rfl rfl
      (by simp; omega)]
  exact EvalState.ends_nil rfl rfl

/-- Values and the script that they leave a verdict with. -/
theorem verifyScript_pushAll {fOk : Bool} (hsize : ∀ v ∈ vs, v.length ≤ 520)
    (hfew : vs.length ≤ 18) (hbare : isPayToScriptHash script ≠ true)
    (hverdict : (evalScript ctx flags vs.reverse script).ret = some (verdictStack fOk [])) :
    (verifyScript ctx flags (pushAll vs) script).ret = some fOk := by
  have hstack : (evalScript ctx flags [] (pushAll vs)).ret = some vs.reverse :=
    evalScript_pushes (pushes_pushAll_nil fun v hv ↦ (hsize v hv).trans_lt (by decide)) hsize hfew
  rw [verifyScript, hstack]
  dsimp only
  rw [hverdict, endsTrue_verdictStack]
  cases fOk with
  | false => rfl
  | true => rw [Bool.not_true, if_neg Bool.false_ne_true, if_neg fun hp2sh ↦ hbare hp2sh.2]

/-- The same for a script whose hash is paid to. -/
theorem verifyScript_subscript {fOk : Bool} {hash subscript : Valtype}
    (hflags : flags &&& scriptVerifyP2sh ≠ 0) (hsize : ∀ v ∈ vs, v.length ≤ 520)
    (hfew : vs.length ≤ 17) (hlong : subscript.length ≤ 520) (hlength : hash.length = 20)
    (hhash : (ctx.crypto.hash160 subscript).toList = hash)
    (hp2sh : isPayToScriptHash (opHash160 :: 0x14 :: (hash ++ [opEqual])) = true)
    (hverdict : (evalScript ctx flags vs.reverse subscript).ret = some (verdictStack fOk [])) :
    (verifyScript ctx flags ((pushAll vs).push subscript)
      (opHash160 :: 0x14 :: (hash ++ [opEqual]))).ret = some fOk := by
  have hsizes : ∀ v ∈ vs ++ [subscript], v.length ≤ 520 :=
    List.forall_mem_append.mpr ⟨hsize, List.forall_mem_singleton.mpr hlong⟩
  have hpushes : Pushes ((pushAll vs).push subscript) (vs ++ [subscript]) [] := by
    rw [← pushAll_concat]
    exact pushes_pushAll_nil fun v hv ↦ (hsizes v hv).trans_lt (by decide)
  have hstack : (evalScript ctx flags [] ((pushAll vs).push subscript)).ret =
      some (vs ++ [subscript]).reverse := by
    refine evalScript_pushes hpushes hsizes ?_
    rw [List.length_append]
    exact Nat.succ_le_succ hfew
  rw [verifyScript, hstack, List.reverse_append, List.reverse_singleton, List.singleton_append]
  dsimp only
  rw [evalScript_scripthash hlength (by
    rw [List.length_reverse]
    exact hfew.trans (by decide)), hhash, beq_self_eq_true, endsTrue_verdictStack,
    Bool.not_true, if_neg Bool.false_ne_true, if_pos ⟨hflags, hp2sh⟩, hpushes.isPushOnly,
    Bool.not_true, if_neg Bool.false_ne_true, hverdict, endsTrue_verdictStack]

end

end Fedoracoin
