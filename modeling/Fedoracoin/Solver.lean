import Fedoracoin.Coins
import Fedoracoin.ScriptRuns

/-!
# Standard scripts

`Solver` for a script: the templates, how a script is compared with one, and what the scripts of
each type look like.
-/

namespace Fedoracoin

/-- `txnouttype`. -/
inductive TxnOutType where
  | nonstandard
  | pubkey
  | pubkeyhash
  | scripthash
  | multisig
  | nullData
deriving DecidableEq

/-! ## Templates -/

def opSmalldata : UInt8 := 0xf9
def opSmallinteger : UInt8 := 0xfa
def opPubkeys : UInt8 := 0xfb
def opPubkeyhash : UInt8 := 0xfd
def opPubkey : UInt8 := 0xfe

def maxOpReturnRelay : Nat := 40

/-- In the order of the types. -/
def mTemplates : List (TxnOutType × CScript) :=
  [
    (.pubkey, [opPubkey, opChecksig]),
    (.pubkeyhash, [opDup, opHash160, opPubkeyhash, opEqualverify, opChecksig]),
    (.multisig, [opSmallinteger, opPubkeys, opSmallinteger, opCheckmultisig]),
    (.nullData, [opReturn, opSmalldata]),
    (.nullData, [opReturn])
  ]

def isPubKeySize (vch : Valtype) : Bool := decide (33 ≤ vch.length ∧ vch.length ≤ 65)

/-- The inner loop for `OP_PUBKEYS`, for at most `n` rounds: the operation it ends with, and the
keys. -/
def takePubKeys : (n : Nat) → OpRead → List Valtype → OpRead × List Valtype
  | 0, read1, vSolutions => (read1, vSolutions)
  | n + 1, read1, vSolutions =>
      if isPubKeySize read1.vchRet then
        let next := getOp2 read1.pc
        if next.fRet then takePubKeys n next (vSolutions ++ [read1.vchRet])
        else (next, vSolutions ++ [read1.vchRet])
      else (read1, vSolutions)

/-- "Template matching opcodes", but for `OP_PUBKEYS`. -/
def matchOp (read1 read2 : OpRead) (vSolutions : List Valtype) : Option (List Valtype) :=
  if read2.opcodeRet = opPubkey then
    if isPubKeySize read1.vchRet then some (vSolutions ++ [read1.vchRet]) else none
  else if read2.opcodeRet = opPubkeyhash then
    if read1.vchRet.length = 20 then some (vSolutions ++ [read1.vchRet]) else none
  else if read2.opcodeRet = opSmallinteger then
    if read1.opcodeRet = 0 ∨ op1 ≤ read1.opcodeRet ∧ read1.opcodeRet ≤ op16 then
      some (vSolutions ++ [[UInt8.ofNat (decodeOpN read1.opcodeRet)]])
    else none
  else if read2.opcodeRet = opSmalldata then
    if read1.vchRet.length ≤ maxOpReturnRelay then some vSolutions else none
  else if read1.opcodeRet = read2.opcodeRet ∧ read1.vchRet = read2.vchRet then some vSolutions
  else none

/-- "Compare", for at most `n` rounds: the solutions if there is a match. -/
def matchTemplate : (n : Nat) → (pc1 pc2 : CScript) → List Valtype → Option (List Valtype)
  | 0, _, _, _ => none
  | n + 1, pc1, pc2, vSolutions =>
      if pc1 = [] ∧ pc2 = [] then some vSolutions
      else
        let read1 := getOp2 pc1
        let read2 := getOp2 pc2
        if !read1.fRet || !read2.fRet then none
        else if read2.opcodeRet = opPubkeys then
          let (read1, vSolutions) := takePubKeys pc1.length read1 vSolutions
          let read2 := getOp2 read2.pc
          if !read2.fRet then none
          else (matchOp read1 read2 vSolutions).bind (matchTemplate n read1.pc read2.pc)
        else (matchOp read1 read2 vSolutions).bind (matchTemplate n read1.pc read2.pc)

/-- What `Solver` returns and assigns. -/
structure SolverRet where
  fRet : Bool
  typeRet : TxnOutType
  vSolutionsRet : List Valtype
deriving DecidableEq

/-- "Additional checks for TX_MULTISIG"; both numbers are one byte. -/
def isMultisigCount (vSolutions : List Valtype) : Bool :=
  let m := ((vSolutions.head?.bind List.head?).getD 0).toNat
  let n := ((vSolutions.getLast?.bind List.head?).getD 0).toNat
  decide (1 ≤ m ∧ 1 ≤ n ∧ m ≤ n ∧ vSolutions.length - 2 = n)

/-- "Scan templates". -/
def scanTemplates (scriptPubKey : CScript) : List (TxnOutType × CScript) → SolverRet
  | [] => ⟨false, .nonstandard, []⟩
  | (type, script2) :: templates =>
      match matchTemplate (scriptPubKey.length + 1) scriptPubKey script2 [] with
      | none => scanTemplates scriptPubKey templates
      | some vSolutions =>
          ⟨type ≠ .multisig || isMultisigCount vSolutions, type, vSolutions⟩

/-- `Solver`. -/
def solver (scriptPubKey : CScript) : SolverRet :=
  if isPayToScriptHash scriptPubKey then
    ⟨true, .scripthash, [(scriptPubKey.drop 2).take 20]⟩
  else scanTemplates scriptPubKey mTemplates

/-! ## What a template says of a script -/

section

variable {pc pc1 t : CScript} {c : UInt8} {n : Nat} {sols sols' : List Valtype} {read1 : OpRead}

theorem getOp2_code (h : opPushdata4 < c) : getOp2 (c :: pc) = ⟨true, c, [], pc⟩ := by
  rw [getOp2, if_neg (UInt8.not_le.mpr h)]

/-- An operation that has no data is its opcode. -/
theorem eq_cons_of_getOp2 (hread : (getOp2 pc).fRet = true) (hop : (getOp2 pc).opcodeRet = c)
    (hc : opPushdata4 < c) : pc = c :: (getOp2 pc).pc := by
  cases pc with
  | nil => cases hread
  | cons opcode pc =>
      obtain rfl := (opcodeRet_of_getOp2 hread).symm.trans hop
      rw [getOp2_code hc]

theorem opcodeRet_of_not_read (h : (getOp2 pc).fRet = false) :
    (getOp2 pc).opcodeRet = opInvalidopcode := by
  cases pc with
  | nil => rfl
  | cons opcode pc =>
      rw [getOp2] at h ⊢
      split
      case isTrue hop =>
        rw [if_pos hop] at h
        split
        case h_1 => rfl
        case h_2 nSize pc' hsize =>
          rw [hsize] at h
          dsimp only at h
          split
          case isTrue => rfl
          case isFalse hlt =>
            rw [if_neg hlt] at h
            cases h
      case isFalse hop =>
        rw [if_neg hop] at h
        cases h

/-- What has data pushes it. -/
theorem pushes_of_vchRet (hread : (getOp2 pc).fRet = true) (hvch : (getOp2 pc).vchRet ≠ []) :
    Pushes pc [(getOp2 pc).vchRet] (getOp2 pc).pc := by
  refine .cons hread ?_ (.nil _)
  cases pc with
  | nil => cases hread
  | cons opcode pc =>
      rw [opcodeRet_of_getOp2 hread]
      refine UInt8.not_lt.mp fun hlt ↦ hvch ?_
      rw [getOp2_code hlt]

theorem ne_nil_of_isPubKeySize {vch : Valtype} (h : isPubKeySize vch = true) : vch ≠ [] := by
  rintro rfl
  cases h

/-- At the end of a template. -/
theorem matchTemplate_nil (h : matchTemplate n pc1 [] sols = some sols') :
    pc1 = [] ∧ sols' = sols := by
  cases n with
  | zero => cases h
  | succ n =>
      rw [matchTemplate] at h
      split at h
      case isTrue hnil => exact ⟨hnil.1, (Option.some.inj h).symm⟩
      case isFalse =>
        dsimp only at h
        rw [show (getOp2 []).fRet = false from rfl, Bool.not_false, Bool.or_true, if_pos rfl] at h
        cases h

/-- At an opcode of a template. -/
theorem matchTemplate_cons (hc : opPushdata4 < c) (hne : c ≠ opPubkeys)
    (h : matchTemplate n pc1 (c :: t) sols = some sols') :
    ∃ m sols₁, (getOp2 pc1).fRet = true ∧
      matchOp (getOp2 pc1) ⟨true, c, [], t⟩ sols = some sols₁ ∧
      matchTemplate m (getOp2 pc1).pc t sols₁ = some sols' := by
  cases n with
  | zero => cases h
  | succ n =>
      rw [matchTemplate, if_neg fun hnil ↦ List.cons_ne_nil _ _ hnil.2] at h
      dsimp only at h
      rw [getOp2_code hc] at h
      dsimp only at h
      cases hread : (getOp2 pc1).fRet with
      | false =>
          rw [hread, Bool.not_false, Bool.true_or, if_pos rfl] at h
          cases h
      | true =>
          rw [hread, Bool.not_true, Bool.false_or, if_neg Bool.false_ne_true, if_neg hne] at h
          obtain ⟨sols₁, hop, hrest⟩ := Option.bind_eq_some_iff.mp h
          exact ⟨n, sols₁, rfl, hop, hrest⟩

theorem takePubKeys_spec (hread : (getOp2 pc).fRet = true)
    (h : takePubKeys n (getOp2 pc) sols = (read1, sols')) :
    ∃ keys pc', sols' = sols ++ keys ∧ (∀ vch ∈ keys, isPubKeySize vch = true) ∧
      Pushes pc keys pc' ∧ read1 = getOp2 pc' := by
  induction n generalizing pc sols with
  | zero =>
      obtain ⟨rfl, rfl⟩ := Prod.mk.inj h
      exact ⟨[], pc, (List.append_nil _).symm, fun _ h ↦ absurd h List.not_mem_nil, .nil pc, rfl⟩
  | succ n ih =>
      rw [takePubKeys] at h
      split at h
      case isFalse =>
        obtain ⟨rfl, rfl⟩ := Prod.mk.inj h
        exact ⟨[], pc, (List.append_nil _).symm, fun _ h ↦ absurd h List.not_mem_nil, .nil pc, rfl⟩
      case isTrue hsize =>
        have hfirst := pushes_of_vchRet hread (ne_nil_of_isPubKeySize hsize)
        dsimp only at h
        split at h
        case isTrue hnext =>
          obtain ⟨keys, pc', rfl, hkeys, hpushes, hread1⟩ := ih hnext h
          exact ⟨(getOp2 pc).vchRet :: keys, pc', (List.append_assoc ..).symm ▸ rfl,
            List.forall_mem_cons.mpr ⟨hsize, hkeys⟩, hfirst.append hpushes, hread1⟩
        case isFalse =>
          obtain ⟨rfl, rfl⟩ := Prod.mk.inj h
          exact ⟨[(getOp2 pc).vchRet], _, rfl, List.forall_mem_singleton.mpr hsize, hfirst, rfl⟩

/-- At `OP_PUBKEYS`, and the opcode behind it. -/
theorem matchTemplate_pubkeys (hc : opPushdata4 < c)
    (h : matchTemplate n pc1 (opPubkeys :: c :: t) sols = some sols') :
    ∃ m keys pc' sols₁, (∀ vch ∈ keys, isPubKeySize vch = true) ∧ Pushes pc1 keys pc' ∧
      matchOp (getOp2 pc') ⟨true, c, [], t⟩ (sols ++ keys) = some sols₁ ∧
      matchTemplate m (getOp2 pc').pc t sols₁ = some sols' := by
  cases n with
  | zero => cases h
  | succ n =>
      rw [matchTemplate, if_neg fun hnil ↦ List.cons_ne_nil _ _ hnil.2] at h
      dsimp only at h
      rw [getOp2_code (by decide)] at h
      dsimp only at h
      cases hread : (getOp2 pc1).fRet with
      | false =>
          rw [hread, Bool.not_false, Bool.true_or, if_pos rfl] at h
          cases h
      | true =>
          rw [hread, Bool.not_true, Bool.false_or, if_neg Bool.false_ne_true, if_pos rfl,
            getOp2_code hc] at h
          cases htake : takePubKeys pc1.length (getOp2 pc1) sols with
          | mk read1 sols₁ =>
              rw [htake] at h
              obtain ⟨keys, pc', rfl, hkeys, hpushes, rfl⟩ := takePubKeys_spec hread htake
              obtain ⟨sols₂, hop, hrest⟩ := Option.bind_eq_some_iff.mp h
              exact ⟨n, keys, pc', sols₂, hkeys, hpushes, hop, hrest⟩

/-- Opcodes that are no part of a template match themselves. -/
theorem matchOp_code (hc : c < opSmalldata) (h : matchOp read1 ⟨true, c, [], t⟩ sols = some sols') :
    read1.opcodeRet = c ∧ sols' = sols := by
  have hne : ∀ c', opSmalldata ≤ c' → c ≠ c' := by
    rintro c' hle rfl
    exact UInt8.not_lt.mpr hle hc
  rw [matchOp, if_neg (hne _ (by decide)), if_neg (hne _ (by decide)), if_neg (hne _ (by decide)),
    if_neg (hne _ (by decide))] at h
  split at h
  case isTrue hop => exact ⟨hop.1, (Option.some.inj h).symm⟩
  case isFalse => cases h

theorem matchOp_pubkey (h : matchOp read1 ⟨true, opPubkey, [], t⟩ sols = some sols') :
    isPubKeySize read1.vchRet = true ∧ sols' = sols ++ [read1.vchRet] := by
  rw [matchOp, if_pos rfl] at h
  split at h
  case isTrue hsize => exact ⟨hsize, (Option.some.inj h).symm⟩
  case isFalse => cases h

theorem matchOp_pubkeyhash (h : matchOp read1 ⟨true, opPubkeyhash, [], t⟩ sols = some sols') :
    read1.vchRet.length = 20 ∧ sols' = sols ++ [read1.vchRet] := by
  rw [matchOp] at h
  dsimp only at h
  rw [if_neg (by decide), if_pos rfl] at h
  split at h
  case isTrue hsize => exact ⟨hsize, (Option.some.inj h).symm⟩
  case isFalse => cases h

theorem matchOp_smallinteger (h : matchOp read1 ⟨true, opSmallinteger, [], t⟩ sols = some sols') :
    (read1.opcodeRet = 0 ∨ op1 ≤ read1.opcodeRet ∧ read1.opcodeRet ≤ op16) ∧
      sols' = sols ++ [[UInt8.ofNat (decodeOpN read1.opcodeRet)]] := by
  rw [matchOp] at h
  dsimp only at h
  rw [if_neg (by decide), if_neg (by decide), if_pos rfl] at h
  split at h
  case isTrue hsmall => exact ⟨hsmall, (Option.some.inj h).symm⟩
  case isFalse => cases h

/-- An opcode of a template that matches itself. -/
theorem matchTemplate_code (hc : opPushdata4 < c) (hlt : c < opSmalldata)
    (h : matchTemplate n pc1 (c :: t) sols = some sols') :
    ∃ m pc, pc1 = c :: pc ∧ matchTemplate m pc t sols = some sols' := by
  have hne : c ≠ opPubkeys := by
    rintro rfl
    exact absurd hlt (by decide)
  obtain ⟨m, sols₁, hread, hop, hrest⟩ := matchTemplate_cons hc hne h
  obtain ⟨hopcode, rfl⟩ := matchOp_code hlt hop
  exact ⟨m, _, eq_cons_of_getOp2 hread hopcode hc, hrest⟩

end

/-- The scripts of each type, with what `Solver` finds in them. -/
inductive StandardScript : CScript → TxnOutType → List Valtype → Prop
  | pubkey {script : CScript} {vch : Valtype} (hsize : isPubKeySize vch = true)
      (hpushes : Pushes script [vch] [opChecksig]) : StandardScript script .pubkey [vch]
  | pubkeyhash {pc : CScript} {vch : Valtype} (hsize : vch.length = 20)
      (hpushes : Pushes pc [vch] [opEqualverify, opChecksig]) :
      StandardScript (opDup :: opHash160 :: pc) .pubkeyhash [vch]
  | scripthash {hash : Valtype} (hsize : hash.length = 20) :
      StandardScript (opHash160 :: 0x14 :: (hash ++ [opEqual])) .scripthash [hash]
  | multisig {m n : UInt8} {pc : CScript} {keys : List Valtype} (hm : op1 ≤ m ∧ m ≤ op16)
      (hn : op1 ≤ n ∧ n ≤ op16) (hle : decodeOpN m ≤ keys.length)
      (hlength : keys.length = decodeOpN n) (hkeys : ∀ vch ∈ keys, isPubKeySize vch = true)
      (hpushes : Pushes pc keys [n, opCheckmultisig]) :
      StandardScript (m :: pc) .multisig
        ([UInt8.ofNat (decodeOpN m)] :: (keys ++ [[UInt8.ofNat (decodeOpN n)]]))
  | nullData {script : CScript} {vSolutions : List Valtype} :
      StandardScript script .nullData vSolutions

section

variable {script : CScript} {n : Nat} {sols : List Valtype}

theorem standard_pubkey (h : matchTemplate n script [opPubkey, opChecksig] [] = some sols) :
    StandardScript script .pubkey sols := by
  obtain ⟨m, sols₁, hread, hop, hrest⟩ := matchTemplate_cons (by decide) (by decide) h
  obtain ⟨hsize, rfl⟩ := matchOp_pubkey hop
  obtain ⟨m', pc, hpc, hrest⟩ := matchTemplate_code (by decide) (by decide) hrest
  obtain ⟨rfl, rfl⟩ := matchTemplate_nil hrest
  have hpushes := pushes_of_vchRet hread (ne_nil_of_isPubKeySize hsize)
  rw [hpc] at hpushes
  exact .pubkey hsize hpushes

theorem standard_pubkeyhash
    (h : matchTemplate n script [opDup, opHash160, opPubkeyhash, opEqualverify, opChecksig] [] =
      some sols) : StandardScript script .pubkeyhash sols := by
  obtain ⟨m₁, pc₁, rfl, hrest₁⟩ := matchTemplate_code (by decide) (by decide) h
  obtain ⟨m₂, pc₂, rfl, hrest₂⟩ := matchTemplate_code (by decide) (by decide) hrest₁
  obtain ⟨m₃, sols₁, hread, hop, hrest₃⟩ := matchTemplate_cons (by decide) (by decide) hrest₂
  obtain ⟨hsize, rfl⟩ := matchOp_pubkeyhash hop
  obtain ⟨m₄, pc₄, hpc₄, hrest₄⟩ := matchTemplate_code (by decide) (by decide) hrest₃
  obtain ⟨m₅, pc₅, rfl, hrest₅⟩ := matchTemplate_code (by decide) (by decide) hrest₄
  obtain ⟨rfl, rfl⟩ := matchTemplate_nil hrest₅
  have hne : (getOp2 pc₂).vchRet ≠ [] := by
    intro hnil
    rw [hnil] at hsize
    cases hsize
  have hpushes := pushes_of_vchRet hread hne
  rw [hpc₄] at hpushes
  exact .pubkeyhash hsize hpushes

theorem decodeOpN_lt {c : UInt8} (h : c ≤ op16) : decodeOpN c < 256 :=
  (decodeOpN_le h).trans_lt (by decide)

theorem toNat_decodeOpN {c : UInt8} (h : c ≤ op16) :
    (UInt8.ofNat (decodeOpN c)).toNat = decodeOpN c :=
  UInt8.toNat_ofNat_of_lt' (decodeOpN_lt h)

theorem smallinteger_of_pos {c : UInt8} (hsmall : c = 0 ∨ op1 ≤ c ∧ c ≤ op16)
    (hpos : 1 ≤ (UInt8.ofNat (decodeOpN c)).toNat) : op1 ≤ c ∧ c ≤ op16 := by
  obtain rfl | hsmall := hsmall
  · exact absurd hpos (by decide)
  · exact hsmall

theorem standard_multisig
    (h : matchTemplate n script [opSmallinteger, opPubkeys, opSmallinteger, opCheckmultisig] [] =
      some sols) (hcount : isMultisigCount sols = true) :
    StandardScript script .multisig sols := by
  obtain ⟨m₁, sols₁, hread, hop, hrest⟩ := matchTemplate_cons (by decide) (by decide) h
  obtain ⟨hm, rfl⟩ := matchOp_smallinteger hop
  obtain ⟨m₂, keys, pc₂, sols₂, hkeys, hpushes, hop₂, hrest⟩ :=
    matchTemplate_pubkeys (by decide) hrest
  obtain ⟨hn, rfl⟩ := matchOp_smallinteger hop₂
  obtain ⟨m₃, pc₃, hpc₃, hrest⟩ := matchTemplate_code (by decide) (by decide) hrest
  obtain ⟨rfl, rfl⟩ := matchTemplate_nil hrest
  rw [isMultisigCount, List.getLast?_concat] at hcount
  simp only [List.nil_append, List.cons_append, List.head?_cons, Option.bind_some,
    Option.getD_some, decide_eq_true_eq, List.length_cons, List.length_append, List.length_nil]
    at hcount
  obtain ⟨hmpos, hnpos, hle, hlength⟩ := hcount
  have hm := smallinteger_of_pos hm hmpos
  have hn := smallinteger_of_pos hn hnpos
  rw [toNat_decodeOpN hm.2] at hle
  rw [toNat_decodeOpN hn.2] at hle hlength
  have hread₂ : (getOp2 pc₂).fRet = true := by
    cases hfRet : (getOp2 pc₂).fRet with
    | true => rfl
    | false =>
        rw [opcodeRet_of_not_read hfRet] at hn
        exact absurd hn.2 (by decide)
  have hscript := eq_cons_of_getOp2 hread rfl (UInt8.lt_of_lt_of_le (by decide) hm.1)
  have hpc₂ := eq_cons_of_getOp2 hread₂ rfl (UInt8.lt_of_lt_of_le (by decide) hn.1)
  rw [hpc₃] at hpc₂
  rw [hpc₂] at hpushes
  have hstandard : StandardScript ((getOp2 script).opcodeRet :: (getOp2 script).pc) .multisig _ :=
    .multisig hm hn (by omega) (by omega) hkeys hpushes
  rw [← hscript] at hstandard
  exact hstandard

theorem standard_scripthash (h : isPayToScriptHash script = true) :
    StandardScript script .scripthash [(script.drop 2).take 20] := by
  rw [isPayToScriptHash, Bool.and_eq_true, Bool.and_eq_true, Bool.and_eq_true, beq_iff_eq,
    beq_iff_eq, beq_iff_eq, beq_iff_eq] at h
  obtain ⟨⟨⟨hlength, h0⟩, h1⟩, h22⟩ := h
  cases script with
  | nil => cases h0
  | cons a script =>
      cases script with
      | nil => cases h1
      | cons b rest =>
          obtain rfl := Option.some.inj h0
          obtain rfl := Option.some.inj h1
          have hrest : rest.length = 21 := by simpa using hlength
          have hlast : rest[20]? = some opEqual := h22
          have hsplit : rest = rest.take 20 ++ [opEqual] := by
            obtain ⟨hlt, heq⟩ := List.getElem?_eq_some_iff.mp hlast
            conv_lhs => rw [← List.take_append_drop 20 rest]
            rw [List.drop_eq_getElem_cons hlt, heq, List.drop_eq_nil_of_le (by omega)]
          have htake : (rest.take 20).length = 20 := by
            rw [List.length_take]
            omega
          have hstandard := StandardScript.scripthash htake
          rw [← hsplit] at hstandard
          exact hstandard

/-- What `Solver` says of a script that it knows. -/
theorem solver_standard (h : (solver script).fRet = true) :
    StandardScript script (solver script).typeRet (solver script).vSolutionsRet := by
  rw [solver] at h ⊢
  split
  case isTrue hp2sh => exact standard_scripthash hp2sh
  case isFalse hp2sh =>
    rw [if_neg hp2sh, mTemplates, scanTemplates] at h
    rw [mTemplates, scanTemplates]
    split
    case h_2 sols hmatch => exact standard_pubkey hmatch
    case h_1 hmatch =>
      rw [hmatch, scanTemplates] at h
      rw [scanTemplates]
      split
      case h_2 sols hmatch => exact standard_pubkeyhash hmatch
      case h_1 hmatch =>
        rw [hmatch, scanTemplates] at h
        rw [scanTemplates]
        split
        case h_2 sols hmatch =>
          rw [hmatch] at h
          exact standard_multisig hmatch h
        case h_1 hmatch =>
          rw [hmatch, scanTemplates] at h
          rw [scanTemplates]
          split
          case h_2 => exact .nullData
          case h_1 hmatch =>
            rw [hmatch, scanTemplates] at h
            rw [scanTemplates]
            split
            case h_2 => exact .nullData
            case h_1 hmatch =>
              rw [hmatch, scanTemplates] at h
              cases h

end

end Fedoracoin
