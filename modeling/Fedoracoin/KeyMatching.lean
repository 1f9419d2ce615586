import Fedoracoin.Lib.Matching
import Fedoracoin.StackAccess

/-!
# The matching of signatures to keys

The loop of `OP_CHECKMULTISIG` goes over the keys once, and gives the next signature to the first
key that it verifies under.  It finds a matching that keeps the order exactly if there is one:
`checkMultiSig_matching`.

A signature whose encoding is not valid makes the script fail where it is looked at, whatever the
key; no key verifies it.
-/

namespace Fedoracoin

open Access Matching

/-- The verdicts on pairs of a signature and a key, where `fEncoded` tells whether a signature is
encoded as it has to be, and `fOk` whether it verifies under a key. -/
def verdictOf (fEncoded : Valtype → Bool) (fOk : Valtype → Valtype → Bool)
    (vchSig vchPubKey : Valtype) : Option Bool :=
  if fEncoded vchSig then some (fOk vchSig vchPubKey) else none

/-- Every signature verifies under the key that it is given, and the keys are in the order of the
signatures. -/
def OrderedMatching (fEncoded : Valtype → Bool) (fOk : Valtype → Valtype → Bool)
    (sigs keys : List Valtype) : Prop :=
  ∃ f : Fin sigs.length → Fin keys.length, StrictMono f ∧
    ∀ i, fEncoded (sigs.get i) = true ∧ fOk (sigs.get i) (keys.get (f i)) = true

variable {fEncoded : Valtype → Bool} {fOk : Valtype → Valtype → Bool} {keys sigs : List Valtype}

theorem matchVerdicts_eq_true_iff :
    matchVerdicts (verdictOf fEncoded fOk) keys sigs = some true ↔
      greedy (fun vchSig vchPubKey ↦ fEncoded vchSig && fOk vchSig vchPubKey) sigs keys =
        true := by
  induction keys generalizing sigs with
  | nil =>
      cases sigs with
      | nil => exact iff_of_true rfl (by rw [greedy])
      | cons vchSig sigs => exact iff_of_false (by simp [matchVerdicts]) (by simp [greedy])
  | cons vchPubKey keys ih =>
      cases sigs with
      | nil => exact iff_of_true rfl (by rw [greedy])
      | cons vchSig sigs =>
          cases hencoded : fEncoded vchSig with
          | false =>
              -- no key verifies the signature
              refine iff_of_false ?_ ?_
              · rw [matchVerdicts, verdictOf, hencoded]
                intro h
                cases h
              · rw [greedy_iff]
                refine not_sublistForall₂_of_forall fun vchPubKey' _ ↦ ?_
                rw [hencoded, Bool.false_and]
                exact Bool.false_ne_true
          | true =>
              rw [matchVerdicts, verdictOf, hencoded, if_pos rfl, Option.bind_eq_bind,
                Option.bind_some, greedy, hencoded, Bool.true_and]
              dsimp only
              generalize (if fOk vchSig vchPubKey = true then sigs else vchSig :: sigs) = left
              split
              case isTrue => exact iff_of_false (by simp) (by simp)
              case isFalse => exact ih

theorem orderedMatching_iff :
    OrderedMatching fEncoded fOk sigs keys ↔
      matchVerdicts (verdictOf fEncoded fOk) keys sigs = some true := by
  rw [matchVerdicts_eq_true_iff, greedy_iff, sublistForall₂_iff_strictMono]
  simp only [Bool.and_eq_true]
  rfl

/-- Whether `EvalScript` takes the encoding of a signature. -/
def sigEncoded (flags : Nat) (vchSig : Valtype) : Bool :=
  decide (checkSignatureEncoding vchSig flags = some true)

/-- `fOk`. -/
def SigContext.sigOk (ctx : SigContext) (flags : Nat) (code : CScript)
    (vchSig vchPubKey : Valtype) : Bool :=
  (ctx.checkCanonicalSig flags vchSig vchPubKey code).ret.getD false

theorem SigContext.verdict_eq (ctx : SigContext) (flags : Nat) (code : CScript) :
    ctx.verdict flags code = verdictOf (sigEncoded flags) (ctx.sigOk flags code) := by
  funext vchSig vchPubKey
  rw [verdict, verdictOf, sigEncoded, sigOk, checkCanonicalSig]
  by_cases hencoded : checkSignatureEncoding vchSig flags = some true
  · rw [if_neg (not_not_intro hencoded), if_pos (decide_eq_true hencoded)]
    split
    case isTrue => rfl
    case isFalse => rfl
  · rw [if_pos hencoded, if_neg (mt of_decide_eq_true hencoded)]

/-- The cursors where the loop begins. -/
def SigCursors.start (keys sigs : List Valtype) : SigCursors :=
  { isig := 3 + keys.length, ikey := 2, nSigsCount := sigs.length, nKeysCount := keys.length }

/-- The elements that are checked, from the number of the keys to the last signature. -/
def multiSigElements (vchKeys vchSigs : Valtype) (keys sigs : List Valtype) : Stack :=
  vchKeys :: (keys ++ vchSigs :: sigs)

variable {vchKeys vchSigs : Valtype} {rest : Stack}

theorem drop_keys : (multiSigElements vchKeys vchSigs keys sigs ++ rest).drop 1 =
    keys ++ (vchSigs :: sigs ++ rest) :=
  List.append_assoc ..

theorem drop_sigs : (multiSigElements vchKeys vchSigs keys sigs ++ rest).drop (2 + keys.length) =
    sigs ++ rest := by
  rw [show 2 + keys.length = 1 + (keys.length + 1) by omega, ← List.drop_drop, drop_keys,
    ← List.drop_drop, List.drop_left]
  rfl

variable (fEncoded fOk vchKeys vchSigs) in
/-- The loop reads nothing behind the elements. -/
theorem matchLoop_elements (hle : sigs.length ≤ keys.length) (rest : Stack) :
    matchLoop (verdictOf fEncoded fOk) (multiSigElements vchKeys vchSigs keys sigs ++ rest)
      keys.length (.start keys sigs) =
      ofOption (matchVerdicts (verdictOf fEncoded fOk) keys sigs) := by
  rw [SigCursors.start, show 3 + keys.length = 2 + keys.length + 1 by omega]
  exact matchLoop_eq _ drop_keys drop_sigs hle (le_refl _)

/-- The checks of the counts. -/
theorem multiSigCounts_elements {nOpCount : Nat} {vchDummy : Valtype}
    (hkeys : scriptInt vchKeys = some (keys.length : Int))
    (hsigs : scriptInt vchSigs = some (sigs.length : Int)) (hle : sigs.length ≤ keys.length)
    (htwenty : keys.length ≤ 20) (hops : nOpCount + keys.length ≤ 201) :
    EvalState.multiSigCountsAccess nOpCount
      (multiSigElements vchKeys vchSigs keys sigs ++ vchDummy :: rest) =
      .ok (keys.length, sigs.length) := by
  have hlength : (multiSigElements vchKeys vchSigs keys sigs ++ vchDummy :: rest).length =
      3 + keys.length + sigs.length + rest.length := by
    simp only [multiSigElements, List.length_append, List.length_cons]
    omega
  have htop : top (multiSigElements vchKeys vchSigs keys sigs ++ vchDummy :: rest)
      (2 + keys.length) = .ok vchSigs := by
    rw [show 2 + keys.length = 1 + keys.length + 1 by omega]
    refine top_of_getElem? ?_
    rw [← List.head?_drop, ← List.drop_drop, drop_keys, List.drop_left]
    rfl
  rw [EvalState.multiSigCountsAccess, hlength, require_pos (by omega), ok_bind,
    top_of_getElem? (show _ = some vchKeys from rfl), ok_bind, hkeys, ofOption_some, ok_bind,
    require_pos (by omega), ok_bind, Int.toNat_natCast, require_pos hops, ok_bind,
    require_pos (by omega), ok_bind, htop, ok_bind, hsigs, ofOption_some, ok_bind,
    require_pos (by omega), ok_bind, Int.toNat_natCast, require_pos (by omega)]
  rfl

/-- **The matching is sound and complete.**  For any verdicts the loop ends, reads nothing but the
elements that are checked, and succeeds exactly if there is a matching; and `OP_CHECKMULTISIG`
pushes a true value exactly if there is a matching for the verdicts of `CheckSig`. -/
theorem checkMultiSig_matching (vchKeys vchSigs : Valtype) (keys sigs : List Valtype)
    (hle : sigs.length ≤ keys.length) (htwenty : keys.length ≤ 20) :
    (∀ fEncoded fOk, ∃ ret : Option Bool,
      (∀ rest, matchLoop (verdictOf fEncoded fOk)
        (multiSigElements vchKeys vchSigs keys sigs ++ rest) keys.length (.start keys sigs) =
          ofOption ret) ∧
      (ret = some true ↔ OrderedMatching fEncoded fOk sigs keys)) ∧
    ∀ (ctx : SigContext) (flags : Nat) (s : EvalState) (vchDummy : Valtype) (below : Stack),
      s.stack = multiSigElements vchKeys vchSigs keys sigs ++ vchDummy :: below →
      scriptInt vchKeys = some (keys.length : Int) →
      scriptInt vchSigs = some (sigs.length : Int) → s.nOpCount + keys.length ≤ 201 →
      (s.checkMultiSigAccess ctx flags false =
          .ok { s with stack := vchTrue :: below, nOpCount := s.nOpCount + keys.length } ↔
        OrderedMatching (sigEncoded flags)
          (ctx.sigOk flags (scriptCode s.pbegincodehash sigs)) sigs keys) := by
  refine ⟨fun fEncoded fOk ↦
    ⟨_, matchLoop_elements fEncoded fOk vchKeys vchSigs hle, orderedMatching_iff.symm⟩, ?_⟩
  intro ctx flags s vchDummy below hstack hkeys hsigs hops
  have hlength : s.stack.length = 3 + keys.length + sigs.length + below.length := by
    rw [hstack]
    simp only [multiSigElements, List.length_append, List.length_cons]
    omega
  have htops : tops s.stack (3 + keys.length) sigs.length = .ok sigs := by
    rw [show 3 + keys.length = 2 + keys.length + 1 by omega, tops_of_le (by omega), hstack,
      drop_sigs, List.take_left]
  have hpop : popMany (3 + keys.length + sigs.length) s.stack = .ok below := by
    rw [popMany_of_le (by omega), hstack,
      show 3 + keys.length + sigs.length = 2 + keys.length + (sigs.length + 1) by omega,
      ← List.drop_drop, drop_sigs, ← List.drop_drop, List.drop_left]
    rfl
  have hloop := matchLoop_elements (sigEncoded flags)
    (ctx.sigOk flags (scriptCode s.pbegincodehash sigs)) vchKeys vchSigs hle (vchDummy :: below)
  rw [← hstack, SigCursors.start] at hloop
  rw [EvalState.checkMultiSigAccess, hstack, multiSigCounts_elements hkeys hsigs hle htwenty hops,
    ← hstack, ok_bind]
  dsimp only
  rw [Int.toNat_natCast, Int.toNat_natCast, htops, ok_bind, SigContext.verdict_eq, hloop, hpop,
    orderedMatching_iff]
  cases matchVerdicts (verdictOf (sigEncoded flags)
    (ctx.sigOk flags (scriptCode s.pbegincodehash sigs))) keys sigs with
  | none =>
      refine iff_of_false (fun h ↦ ?_) (by simp)
      cases h
  | some fSuccess =>
      cases fSuccess with
      | true => exact iff_of_true rfl rfl
      | false =>
          refine iff_of_false (fun h ↦ ?_) (by simp)
          have hstack' := congrArg EvalState.stack (Access.ok.inj h)
          exact absurd (List.cons.inj hstack').1 (by decide)

theorem checkMultiSig_matching_sample :
    matchLoop (verdictOf (fun _ ↦ true) fun vchSig vchPubKey ↦ vchSig == vchPubKey)
      (multiSigElements [3] [2] [[7], [8], [9]] [[7], [9]]) 3 (.start [[7], [8], [9]] [[7], [9]]) =
        .ok true ∧
      OrderedMatching (fun _ ↦ true) (fun vchSig vchPubKey ↦ vchSig == vchPubKey) [[7], [9]]
        [[7], [8], [9]] := by
  obtain ⟨ret, hloop, hret⟩ := (checkMultiSig_matching [3] [2] [[7], [8], [9]] [[7], [9]]
    (by decide) (by decide)).1 (fun _ ↦ true) fun vchSig vchPubKey ↦ vchSig == vchPubKey
  have hrun : matchLoop (verdictOf (fun _ ↦ true) fun vchSig vchPubKey ↦ vchSig == vchPubKey)
      (multiSigElements [3] [2] [[7], [8], [9]] [[7], [9]]) 3
        (.start [[7], [8], [9]] [[7], [9]]) = .ok true := by
    rfl
  refine ⟨hrun, hret.mp ?_⟩
  have htrue := hrun.symm.trans (hloop [])
  cases ret with
  | none => cases htrue
  | some fSuccess => exact congrArg some (Access.ok.inj htrue).symm

end Fedoracoin
