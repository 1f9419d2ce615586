import Fedoracoin.Solver

/-!
# The multisig template

The scripts for which `Solver` returns `TX_MULTISIG`, given by a grammar over their bytes, and
`Solver` once more with every access that it makes: to the bytes of the two scripts that it
compares, to the solutions that it has found, and with loops that have to end.
-/

namespace Fedoracoin

open Access Wire

/-! ## Pushes -/

/-- The bytes that push `vch`: the size is the opcode, or follows it in one, two or four bytes. -/
inductive PushBytes (vch : Valtype) : List UInt8 → Prop
  | direct (hlt : vch.length < 0x4c) : PushBytes vch (UInt8.ofNat vch.length :: vch)
  | pushdata {opcode : UInt8} {k : Nat}
      (hop : (opcode, k) ∈ [(opPushdata1, 1), (opPushdata2, 2), (opPushdata4, 4)])
      (hlt : vch.length < 256 ^ k) : PushBytes vch (opcode :: (toBytes k vch.length ++ vch))

/-- `OP_m`, keys of 33 to 65 bytes, their number as an opcode, and `OP_CHECKMULTISIG`. -/
structure IsMultisig (script : CScript) (m : Nat) (keys : List Valtype) : Prop where
  bounds : 1 ≤ m ∧ m ≤ keys.length ∧ keys.length ≤ 16
  sizes : ∀ vch ∈ keys, 33 ≤ vch.length ∧ vch.length ≤ 65
  bytes : ∃ pushes, List.Forall₂ PushBytes keys pushes ∧
    script = UInt8.ofNat (0x50 + m) ::
      (pushes.flatten ++ [UInt8.ofNat (0x50 + keys.length), opCheckmultisig])

section

variable {pc pc' tail : CScript} {vs keys : List Valtype} {v vch : Valtype} {opcode : UInt8}
  {nSize n m : Nat} {bytes : List UInt8} {sols : List Valtype}

/-- What was pushed is read. -/
theorem PushBytes.getOp2_eq (h : PushBytes vch bytes) (tail : CScript) :
    ∃ opcode ≤ opPushdata4, getOp2 (bytes ++ tail) = ⟨true, opcode, vch, tail⟩ := by
  cases h with
  | direct hlt =>
      have hnat : (UInt8.ofNat vch.length).toNat = vch.length :=
        UInt8.toNat_ofNat_of_lt' (hlt.trans (by decide))
      have hop : UInt8.ofNat vch.length < opPushdata1 := by
        rw [UInt8.lt_iff_toNat_lt, hnat]
        exact hlt
      have hle : UInt8.ofNat vch.length ≤ opPushdata4 :=
        UInt8.le_of_lt (UInt8.lt_trans hop (by decide))
      refine ⟨_, hle, getOp2_of_getPushSize hle ?_⟩
      rw [getPushSize, if_pos hop, hnat]
      rfl
  | @pushdata opcode k hop hlt =>
      have hread := readPushSize_append hlt (vch ++ tail)
      rw [List.cons_append, List.append_assoc]
      simp only [List.mem_cons, Prod.mk.injEq, List.not_mem_nil, or_false] at hop
      obtain ⟨rfl, rfl⟩ | ⟨rfl, rfl⟩ | ⟨rfl, rfl⟩ := hop
      · exact ⟨opPushdata1, by decide, getOp2_of_getPushSize (by decide) hread⟩
      · exact ⟨opPushdata2, by decide, getOp2_of_getPushSize (by decide) hread⟩
      · exact ⟨opPushdata4, by decide, getOp2_of_getPushSize (by decide) hread⟩

theorem readPushSize_some {k : Nat} (h : readPushSize k pc = some (nSize, pc')) :
    pc = toBytes k nSize ++ pc' ∧ nSize < 256 ^ k := by
  rw [readPushSize] at h
  split at h
  case isTrue => cases h
  case isFalse hk =>
    obtain ⟨rfl, rfl⟩ := Prod.mk.inj (Option.some.inj h)
    have hlength : (pc.take k).length = k := by
      rw [List.length_take]
      omega
    have hbytes := toBytes_ofBytes (pc.take k)
    have hlt := ofBytes_lt (pc.take k)
    rw [hlength] at hbytes hlt
    exact ⟨by rw [hbytes, List.take_append_drop], hlt⟩

/-- What is read as a push was pushed. -/
theorem pushBytes_of_getOp2 (hread : (getOp2 pc).fRet = true)
    (hle : (getOp2 pc).opcodeRet ≤ opPushdata4) :
    ∃ bytes, PushBytes (getOp2 pc).vchRet bytes ∧ pc = bytes ++ (getOp2 pc).pc := by
  cases pc with
  | nil => cases hread
  | cons opcode pc =>
      rw [opcodeRet_of_getOp2 hread] at hle
      rw [getOp2, if_pos hle] at hread ⊢
      split at hread
      case h_1 => cases hread
      case h_2 nSize pc' hsize =>
        split at hread
        case isTrue => cases hread
        case isFalse hlt =>
          have hlength : (pc'.take nSize).length = nSize := by
            rw [List.length_take]
            omega
          have hdata : pc' = pc'.take nSize ++ pc'.drop nSize := (List.take_append_drop ..).symm
          have hpush {k : Nat} (hop : (opcode, k) ∈
              [(opPushdata1, 1), (opPushdata2, 2), (opPushdata4, 4)])
              (h : readPushSize k pc = some (nSize, pc')) :
              ∃ bytes, PushBytes (pc'.take nSize) bytes ∧
                opcode :: pc = bytes ++ pc'.drop nSize := by
            obtain ⟨hpc, hsmall⟩ := readPushSize_some h
            refine ⟨_, .pushdata hop (hlength.symm ▸ hsmall), ?_⟩
            rw [hlength, List.cons_append, List.append_assoc, ← hdata, hpc]
          rw [if_neg hlt]
          dsimp only
          rw [getPushSize] at hsize
          split_ifs at hsize with h0 h1 h2
          · obtain ⟨rfl, rfl⟩ := Prod.mk.inj (Option.some.inj hsize)
            have hsmall : (pc.take opcode.toNat).length < 0x4c := by
              rw [hlength]
              exact UInt8.lt_iff_toNat_lt.mp h0
            refine ⟨_, .direct hsmall, ?_⟩
            rw [hlength, UInt8.ofNat_toNat, List.cons_append, ← hdata]
          · exact hpush (by rw [h1]; exact List.mem_cons_self) hsize
          · exact hpush (by rw [h2]; exact List.mem_cons_of_mem _ List.mem_cons_self) hsize
          · have h4 : opcode = opPushdata4 := by
              rw [UInt8.lt_iff_toNat_lt] at h0
              rw [UInt8.le_iff_toNat_le] at hle
              rw [← UInt8.toNat_inj] at h1 h2 ⊢
              change ¬opcode.toNat < 76 at h0
              change opcode.toNat ≤ 78 at hle
              change ¬opcode.toNat = 76 at h1
              change ¬opcode.toNat = 77 at h2
              change opcode.toNat = 78
              omega
            exact hpush (by rw [h4]; exact List.mem_cons_of_mem _ (List.mem_cons_of_mem _
              List.mem_cons_self)) hsize

/-- Reading a list of pushes. -/
theorem pushes_iff : Pushes pc vs tail ↔
    ∃ pushes, List.Forall₂ PushBytes vs pushes ∧ pc = pushes.flatten ++ tail := by
  constructor
  · intro h
    induction h with
    | nil pc => exact ⟨[], .nil, rfl⟩
    | cons hread hle _ ih =>
        obtain ⟨bytes, hbytes, hpc⟩ := pushBytes_of_getOp2 hread hle
        obtain ⟨pushes, hpushes, hrest⟩ := ih
        refine ⟨bytes :: pushes, .cons hbytes hpushes, ?_⟩
        rw [List.flatten_cons, List.append_assoc, ← hrest]
        exact hpc
  · rintro ⟨pushes, hpushes, rfl⟩
    induction hpushes with
    | nil => exact .nil tail
    | cons hbytes _ ih =>
        obtain ⟨opcode, hle, hread⟩ := hbytes.getOp2_eq (_ ++ tail)
        rw [List.flatten_cons, List.append_assoc]
        exact (Pushes.single hread hle).append ih

/-! ## What the template says -/

theorem ofNat_decodeOpN {c : UInt8} (h : op1 ≤ c) : UInt8.ofNat (0x50 + decodeOpN c) = c := by
  have hle : 0x51 ≤ c.toNat := UInt8.le_iff_toNat_le.mp h
  have hlt := c.toNat_lt
  apply UInt8.toNat_inj.mp
  rw [decodeOpN, UInt8.toNat_ofNat']
  omega

theorem smallinteger_ofNat (hm : 1 ≤ m ∧ m ≤ 16) :
    (op1 ≤ UInt8.ofNat (0x50 + m) ∧ UInt8.ofNat (0x50 + m) ≤ op16) ∧
      decodeOpN (UInt8.ofNat (0x50 + m)) = m := by
  have hnat : (UInt8.ofNat (0x50 + m)).toNat = 0x50 + m :=
    UInt8.toNat_ofNat_of_lt' (show _ < 256 by omega)
  have h1 : op1.toNat = 0x51 := rfl
  have h16 : op16.toNat = 0x60 := rfl
  rw [UInt8.le_iff_toNat_le, UInt8.le_iff_toNat_le, decodeOpN, hnat, h1, h16]
  omega

theorem isPubKeySize_iff : isPubKeySize vch = true ↔ 33 ≤ vch.length ∧ vch.length ≤ 65 :=
  decide_eq_true_iff

theorem isMultisig_of_standard {script : CScript} (h : StandardScript script .multisig sols) :
    ∃ m keys, IsMultisig script m keys ∧
      sols = [UInt8.ofNat m] :: (keys ++ [[UInt8.ofNat keys.length]]) := by
  cases h with
  | @multisig opm opn pc keys hm hn hle hlength hkeys hpushes =>
      obtain ⟨pushes, hforall, rfl⟩ := pushes_iff.mp hpushes
      have hpos : 1 ≤ decodeOpN opm := by
        have hle : 0x51 ≤ opm.toNat := UInt8.le_iff_toNat_le.mp hm.1
        rw [decodeOpN]
        omega
      refine ⟨decodeOpN opm, keys, ⟨⟨hpos, hle, hlength ▸ decodeOpN_le hn.2⟩,
        fun vch hvch ↦ isPubKeySize_iff.mp (hkeys vch hvch), pushes, hforall, ?_⟩, ?_⟩
      · rw [ofNat_decodeOpN hm.1, hlength, ofNat_decodeOpN hn.1]
      · rw [hlength]

/-! ## What matches the template -/

/-- The greedy loop takes all keys, and stops at an operation without data. -/
theorem takePubKeys_pushes (h : Pushes pc keys pc') (hkeys : ∀ vch ∈ keys, isPubKeySize vch = true)
    (hread : (getOp2 pc').fRet = true) (hstop : (getOp2 pc').vchRet = [])
    (hn : keys.length < n) : takePubKeys n (getOp2 pc) sols = (getOp2 pc', sols ++ keys) := by
  induction h generalizing n sols with
  | nil pc =>
      obtain ⟨n, rfl⟩ := Nat.exists_eq_succ_of_ne_zero (Nat.ne_zero_of_lt hn)
      rw [takePubKeys, hstop, if_neg (by decide), List.append_nil]
  | @cons pc tail vs hread' hle hrest ih =>
      obtain ⟨n, rfl⟩ := Nat.exists_eq_succ_of_ne_zero (Nat.ne_zero_of_lt hn)
      rw [List.forall_mem_cons] at hkeys
      have hnext : (getOp2 (getOp2 pc).pc).fRet = true := by
        cases hrest with
        | nil => exact hread
        | cons hread'' => exact hread''
      rw [takePubKeys, if_pos hkeys.1]
      dsimp only
      rw [if_pos hnext, ih hkeys.2 hread hstop (Nat.lt_of_succ_lt_succ hn), List.append_assoc,
        List.singleton_append]

theorem length_le_of_pushes (h : Pushes pc vs tail) : vs.length + tail.length ≤ pc.length := by
  induction h with
  | nil pc => exact (Nat.zero_add _).le
  | cons hread _ _ ih =>
      have hlt := length_getOp2_lt hread
      rw [List.length_cons]
      omega

/-- An opcode of the template that is the opcode of the script. -/
theorem matchTemplate_self {c : UInt8} {t : CScript} (hc : opPushdata4 < c)
    (hlt : c < opSmalldata) :
    matchTemplate (n + 1) (c :: pc) (c :: t) sols = matchTemplate n pc t sols := by
  have hne : ∀ c', opSmalldata ≤ c' → c ≠ c' := by
    rintro c' hle rfl
    exact UInt8.not_lt.mpr hle hlt
  rw [matchTemplate, if_neg fun hnil ↦ List.cons_ne_nil _ _ hnil.2, getOp2_code hc, getOp2_code hc]
  dsimp only
  rw [if_neg (by decide), if_neg (hne _ (by decide)), matchOp]
  dsimp only
  rw [if_neg (hne _ (by decide)), if_neg (hne _ (by decide)), if_neg (hne _ (by decide)),
    if_neg (hne _ (by decide)), if_pos ⟨rfl, rfl⟩, Option.bind_some]

theorem matchOp_small {read1 : OpRead} {t : CScript}
    (h : op1 ≤ read1.opcodeRet ∧ read1.opcodeRet ≤ op16) :
    matchOp read1 ⟨true, opSmallinteger, [], t⟩ sols =
      some (sols ++ [[UInt8.ofNat (decodeOpN read1.opcodeRet)]]) := by
  rw [matchOp]
  dsimp only
  rw [if_neg (by decide), if_neg (by decide), if_pos rfl, if_pos (.inr h)]

/-- `OP_PUBKEYS` of the template, and the opcode behind it. -/
theorem matchTemplate_pubkeys_eq {c : UInt8} {t : CScript} (hc : opPushdata4 < c)
    (h : Pushes pc keys pc') (hkeys : ∀ vch ∈ keys, isPubKeySize vch = true)
    (hread : (getOp2 pc').fRet = true) (hstop : (getOp2 pc').vchRet = []) :
    matchTemplate (n + 1) pc (opPubkeys :: c :: t) sols =
      (matchOp (getOp2 pc') ⟨true, c, [], t⟩ (sols ++ keys)).bind
        (matchTemplate n (getOp2 pc').pc t) := by
  have hlength := length_le_of_pushes h
  have hfirst : (getOp2 pc).fRet = true := by
    cases h with
    | nil => exact hread
    | cons hread' => exact hread'
  have hpc' : pc'.length ≠ 0 := by
    intro hnil
    rw [List.eq_nil_of_length_eq_zero hnil] at hread
    cases hread
  rw [matchTemplate, if_neg fun hnil ↦ List.cons_ne_nil _ _ hnil.2, getOp2_code (by decide)]
  dsimp only
  rw [hfirst, if_neg (by decide), if_pos rfl, getOp2_code hc,
    takePubKeys_pushes h hkeys hread hstop (by omega)]
  dsimp only
  rw [if_neg (by decide)]

/-- A script of the grammar matches the template. -/
theorem IsMultisig.matchTemplate_eq {script : CScript} (h : IsMultisig script m keys)
    (hn : script.length < n) :
    matchTemplate n script [opSmallinteger, opPubkeys, opSmallinteger, opCheckmultisig] [] =
      some ([UInt8.ofNat m] :: (keys ++ [[UInt8.ofNat keys.length]])) := by
  obtain ⟨⟨hpos, hle, hmax⟩, hsizes, pushes, hforall, rfl⟩ := h
  obtain ⟨hm, hdecodem⟩ := smallinteger_ofNat ⟨hpos, hle.trans hmax⟩
  obtain ⟨hk, hdecodek⟩ := smallinteger_ofNat ⟨hpos.trans hle, hmax⟩
  have hpushes : Pushes
      (pushes.flatten ++ [UInt8.ofNat (0x50 + keys.length), opCheckmultisig]) keys
      [UInt8.ofNat (0x50 + keys.length), opCheckmultisig] := pushes_iff.mpr ⟨pushes, hforall, rfl⟩
  have hlength := length_le_of_pushes hpushes
  have hreadm : getOp2 (UInt8.ofNat (0x50 + m) :: (pushes.flatten ++
      [UInt8.ofNat (0x50 + keys.length), opCheckmultisig])) = ⟨true, _, [], _⟩ :=
    getOp2_code (UInt8.lt_of_lt_of_le (by decide) hm.1)
  have hreadk : getOp2 [UInt8.ofNat (0x50 + keys.length), opCheckmultisig] = ⟨true, _, [], _⟩ :=
    getOp2_code (UInt8.lt_of_lt_of_le (by decide) hk.1)
  rw [List.length_cons] at hn
  obtain ⟨n, rfl⟩ : ∃ k, n = k + 4 := ⟨n - 4, by simp only [List.length_cons] at hlength; omega⟩
  rw [matchTemplate, if_neg fun hnil ↦ List.cons_ne_nil _ _ hnil.2, hreadm,
    getOp2_code (by decide)]
  dsimp only
  rw [if_neg (by decide), if_neg (by decide), matchOp_small hm, Option.bind_some,
    matchTemplate_pubkeys_eq (by decide) hpushes
      (fun vch hvch ↦ isPubKeySize_iff.mpr (hsizes vch hvch)) (by rw [hreadk]) (by rw [hreadk]),
    hreadk, matchOp_small hk, Option.bind_some, matchTemplate_self (by decide) (by decide),
    matchTemplate, if_pos ⟨rfl, rfl⟩, hdecodem, hdecodek]
  rfl

/-- Nothing else matches a script of the grammar. -/
theorem IsMultisig.solver_eq {script : CScript} (h : IsMultisig script m keys) :
    solver script =
      ⟨true, .multisig, [UInt8.ofNat m] :: (keys ++ [[UInt8.ofNat keys.length]])⟩ := by
  have hmatch := h.matchTemplate_eq (Nat.lt_succ_self script.length)
  obtain ⟨⟨hpos, hle, hmax⟩, hsizes, pushes, hforall, hscript⟩ := h
  obtain ⟨hm, -⟩ := smallinteger_ofNat ⟨hpos, hle.trans hmax⟩
  have hread : getOp2 script = ⟨true, UInt8.ofNat (0x50 + m), [],
      pushes.flatten ++ [UInt8.ofNat (0x50 + keys.length), opCheckmultisig]⟩ := by
    rw [hscript]
    exact getOp2_code (UInt8.lt_of_lt_of_le (by decide) hm.1)
  have hp2sh : isPayToScriptHash script = false := by
    have hne : ¬ UInt8.ofNat (0x50 + m) = opHash160 := by
      intro heq
      rw [heq] at hm
      exact absurd hm.2 (by decide)
    have hfirst : (script[0]? == some opHash160) = false := by
      rw [hscript, List.getElem?_cons_zero]
      exact beq_false_of_ne fun heq ↦ hne (Option.some.inj heq)
    rw [isPayToScriptHash, hfirst, Bool.and_false, Bool.false_and, Bool.false_and]
  have hpubkey : matchTemplate (script.length + 1) script [opPubkey, opChecksig] [] = none := by
    refine Option.eq_none_iff_forall_ne_some.mpr fun sols hsols ↦ ?_
    obtain ⟨_, _, -, hop, -⟩ := matchTemplate_cons (by decide) (by decide) hsols
    rw [hread] at hop
    exact absurd (matchOp_pubkey hop).1 (show ¬ isPubKeySize [] = true by decide)
  have hpubkeyhash : matchTemplate (script.length + 1) script
      [opDup, opHash160, opPubkeyhash, opEqualverify, opChecksig] [] = none := by
    refine Option.eq_none_iff_forall_ne_some.mpr fun sols hsols ↦ ?_
    obtain ⟨_, _, hdup, -⟩ := matchTemplate_code (by decide) (by decide) hsols
    rw [hscript, List.cons.injEq] at hdup
    rw [hdup.1] at hm
    exact absurd hm.2 (by decide)
  have hcount :
      isMultisigCount ([UInt8.ofNat m] :: (keys ++ [[UInt8.ofNat keys.length]])) = true := by
    have hnatm : (UInt8.ofNat m).toNat = m := UInt8.toNat_ofNat_of_lt' (show _ < 256 by omega)
    have hnatk : (UInt8.ofNat keys.length).toNat = keys.length :=
      UInt8.toNat_ofNat_of_lt' (show _ < 256 by omega)
    rw [isMultisigCount, ← List.cons_append, List.getLast?_concat]
    simp only [List.cons_append, List.head?_cons, Option.bind_some, Option.getD_some, hnatm, hnatk,
      List.length_cons, List.length_append, List.length_nil, decide_eq_true_eq]
    omega
  rw [solver, hp2sh, if_neg Bool.false_ne_true, mTemplates, scanTemplates, hpubkey, scanTemplates,
    hpubkeyhash, scanTemplates, hmatch]
  dsimp only
  rw [hcount, Bool.or_true]

end

/-! ## The accesses of `Solver` -/

/-- `takePubKeys`, with the accesses to the script. -/
def takePubKeysAccess : (n : Nat) → OpRead → List Valtype → Access (OpRead × List Valtype)
  | 0, _, _ => .unfinished
  | n + 1, read1, vSolutions =>
      if isPubKeySize read1.vchRet then do
        let next ← getOp2Access read1.pc
        if next.fRet then takePubKeysAccess n next (vSolutions ++ [read1.vchRet])
        else return (next, vSolutions ++ [read1.vchRet])
      else return (read1, vSolutions)

/-- `matchTemplate`, with the accesses to both scripts; `none` is `break`. -/
def matchTemplateAccess : (n : Nat) → (pc1 pc2 : CScript) → List Valtype →
    Access (Option (List Valtype))
  | 0, _, _, _ => .unfinished
  | n + 1, pc1, pc2, vSolutions =>
      if pc1 = [] ∧ pc2 = [] then return some vSolutions
      else do
        let read1 ← getOp2Access pc1
        if !read1.fRet then return none
        let read2 ← getOp2Access pc2
        if !read2.fRet then return none
        if read2.opcodeRet = opPubkeys then
          let (read1, vSolutions) ← takePubKeysAccess (read1.pc.length + 1) read1 vSolutions
          let read2 ← getOp2Access read2.pc
          if !read2.fRet then return none
          match matchOp read1 read2 vSolutions with
          | none => return none
          | some vSolutions => matchTemplateAccess n read1.pc read2.pc vSolutions
        else
          match matchOp read1 read2 vSolutions with
          | none => return none
          | some vSolutions => matchTemplateAccess n read1.pc read2.pc vSolutions

/-- `vSolutions.front()[0]` and `vSolutions.back()[0]`. -/
def firstByte : Option Valtype → Access UInt8
  | some (b :: _) => return b
  | _ => .outOfRange

/-- "Additional checks for TX_MULTISIG"; there are two solutions at least. -/
def isMultisigCountAccess (vSolutions : List Valtype) : Access Bool := do
  let m ← firstByte vSolutions.head?
  let n ← firstByte vSolutions.getLast?
  if vSolutions.length < 2 then .outOfRange
  else return decide (1 ≤ m.toNat ∧ 1 ≤ n.toNat ∧ m.toNat ≤ n.toNat ∧
    vSolutions.length - 2 = n.toNat)

/-- "Scan templates", with the accesses. -/
def scanTemplatesAccess (scriptPubKey : CScript) : List (TxnOutType × CScript) → Access SolverRet
  | [] => return ⟨false, .nonstandard, []⟩
  | (type, script2) :: templates => do
      match ← matchTemplateAccess (scriptPubKey.length + 1) scriptPubKey script2 [] with
      | none => scanTemplatesAccess scriptPubKey templates
      | some vSolutions =>
          if type = .multisig then
            let fCount ← isMultisigCountAccess vSolutions
            return ⟨fCount, type, vSolutions⟩
          else return ⟨true, type, vSolutions⟩

/-- `Solver`, with the accesses; the hash is `[begin() + 2, begin() + 22)`. -/
def solverAccess (scriptPubKey : CScript) : Access SolverRet :=
  if isPayToScriptHash scriptPubKey then do
    let (_, pc) ← advanceBytes 2 scriptPubKey
    let (hashBytes, _) ← advanceBytes 20 pc
    return ⟨true, .scripthash, [hashBytes]⟩
  else scanTemplatesAccess scriptPubKey mTemplates

section

variable {pc1 pc2 : CScript} {n m : Nat} {read1 : OpRead} {sols sols' : List Valtype}

/-- The rounds left suffice for what is left of the script. -/
theorem takePubKeysAccess_eq (hn : read1.pc.length < n) (hm : read1.pc.length < m) :
    takePubKeysAccess n read1 sols = .ok (takePubKeys m read1 sols) := by
  induction n generalizing m read1 sols with
  | zero => exact absurd hn (Nat.not_lt_zero _)
  | succ n ih =>
      obtain ⟨m, rfl⟩ := Nat.exists_eq_succ_of_ne_zero (Nat.ne_zero_of_lt hm)
      rw [takePubKeysAccess, takePubKeys]
      split
      case isTrue =>
        rw [getOp2Access_eq, ok_bind]
        dsimp only
        split
        case isTrue hread =>
          have hlt := length_getOp2_lt hread
          exact ih (by omega) (by omega)
        case isFalse => rfl
      case isFalse => rfl

theorem length_takePubKeys_le (m : Nat) (read1 : OpRead) (sols : List Valtype) :
    (takePubKeys m read1 sols).1.pc.length ≤ read1.pc.length := by
  induction m generalizing read1 sols with
  | zero => exact le_refl _
  | succ m ih =>
      rw [takePubKeys]
      split
      case isTrue =>
        have hle := (getOp2_suffix read1.pc).length_le
        dsimp only
        split
        case isTrue => exact (ih _ _).trans hle
        case isFalse => exact hle
      case isFalse => exact le_refl _

theorem matchTemplateAccess_eq (hn : pc1.length < n) :
    matchTemplateAccess n pc1 pc2 sols = .ok (matchTemplate n pc1 pc2 sols) := by
  induction n generalizing pc1 pc2 sols with
  | zero => exact absurd hn (Nat.not_lt_zero _)
  | succ n ih =>
      rw [matchTemplateAccess, matchTemplate]
      split
      case isTrue => rfl
      case isFalse =>
        rw [getOp2Access_eq, ok_bind]
        dsimp only
        cases hread1 : (getOp2 pc1).fRet with
        | false =>
            rw [Bool.not_false, Bool.true_or, if_pos rfl, if_pos rfl]
            rfl
        | true =>
            have hlt := length_getOp2_lt hread1
            rw [Bool.not_true, Bool.false_or, if_neg Bool.false_ne_true, getOp2Access_eq, ok_bind]
            cases hread2 : (getOp2 pc2).fRet with
            | false =>
                rw [Bool.not_false, if_pos rfl, if_pos rfl]
                rfl
            | true =>
                rw [Bool.not_true, if_neg Bool.false_ne_true, if_neg Bool.false_ne_true]
                split
                case isTrue =>
                  have htake : takePubKeysAccess _ (getOp2 pc1) sols =
                      .ok (takePubKeys pc1.length (getOp2 pc1) sols) :=
                    takePubKeysAccess_eq (Nat.lt_succ_self _) hlt
                  have hle := length_takePubKeys_le pc1.length (getOp2 pc1) sols
                  rw [htake, ok_bind, getOp2Access_eq, ok_bind]
                  cases (getOp2 (getOp2 pc2).pc).fRet with
                  | false => rfl
                  | true =>
                      rw [Bool.not_true, if_neg Bool.false_ne_true, if_neg Bool.false_ne_true]
                      cases matchOp (takePubKeys pc1.length (getOp2 pc1) sols).1
                        (getOp2 (getOp2 pc2).pc)
                        (takePubKeys pc1.length (getOp2 pc1) sols).2 with
                      | none => rfl
                      | some sols' => exact ih (by omega)
                case isFalse =>
                  cases matchOp (getOp2 pc1) (getOp2 pc2) sols with
                  | none => rfl
                  | some sols' => exact ih (by omega)

theorem isMultisigCountAccess_eq {b c : UInt8} {keys : List Valtype} :
    isMultisigCountAccess ([b] :: (keys ++ [[c]])) =
      .ok (isMultisigCount ([b] :: (keys ++ [[c]]))) := by
  rw [isMultisigCountAccess, isMultisigCount, ← List.cons_append, List.getLast?_concat,
    List.cons_append, List.head?_cons, firstByte, firstByte]
  dsimp only [pure_eq]
  rw [ok_bind, ok_bind, if_neg (by simp)]
  rfl

/-- Every match of the template has the two numbers. -/
theorem solutions_of_multisig {script : CScript}
    (h : matchTemplate n script [opSmallinteger, opPubkeys, opSmallinteger, opCheckmultisig] [] =
      some sols) : ∃ b c keys, sols = [b] :: (keys ++ [[c]]) := by
  obtain ⟨_, _, -, hop, hrest⟩ := matchTemplate_cons (by decide) (by decide) h
  obtain ⟨-, rfl⟩ := matchOp_smallinteger hop
  obtain ⟨_, keys, _, _, -, -, hop₂, hrest⟩ := matchTemplate_pubkeys (by decide) hrest
  obtain ⟨-, rfl⟩ := matchOp_smallinteger hop₂
  obtain ⟨_, _, -, hrest⟩ := matchTemplate_code (by decide) (by decide) hrest
  obtain ⟨-, rfl⟩ := matchTemplate_nil hrest
  exact ⟨_, _, keys, rfl⟩

theorem scanTemplatesAccess_eq {scriptPubKey : CScript} {templates : List (TxnOutType × CScript)}
    (h : ∀ t ∈ templates, t.1 = .multisig →
      t.2 = [opSmallinteger, opPubkeys, opSmallinteger, opCheckmultisig]) :
    scanTemplatesAccess scriptPubKey templates = .ok (scanTemplates scriptPubKey templates) := by
  induction templates with
  | nil => rfl
  | cons t templates ih =>
      obtain ⟨type, script2⟩ := t
      rw [List.forall_mem_cons] at h
      rw [scanTemplatesAccess, scanTemplates, matchTemplateAccess_eq (Nat.lt_succ_self _), ok_bind]
      cases hmatch : matchTemplate (scriptPubKey.length + 1) scriptPubKey script2 [] with
      | none => exact ih h.2
      | some sols =>
          dsimp only
          split
          case isTrue htype =>
            have hscript2 := h.1 htype
            dsimp only at hscript2
            rw [hscript2] at hmatch
            obtain ⟨b, c, keys, rfl⟩ := solutions_of_multisig hmatch
            rw [isMultisigCountAccess_eq, ok_bind, decide_eq_false (not_not.mpr htype),
              Bool.false_or]
            rfl
          case isFalse htype =>
            rw [decide_eq_true htype, Bool.true_or]
            rfl

/-- `Solver` ends, and makes no access out of range. -/
theorem solverAccess_eq (scriptPubKey : CScript) :
    solverAccess scriptPubKey = .ok (solver scriptPubKey) := by
  rw [solverAccess, solver]
  split
  case isTrue hp2sh =>
    have hlength : scriptPubKey.length = 23 := by
      rw [isPayToScriptHash, Bool.and_eq_true, Bool.and_eq_true, Bool.and_eq_true,
        beq_iff_eq] at hp2sh
      exact hp2sh.1.1.1
    rw [advanceBytes_of_le (by omega), ok_bind]
    dsimp only
    rw [advanceBytes_of_le (by rw [List.length_drop]; omega), ok_bind]
    rfl
  case isFalse =>
    apply scanTemplatesAccess_eq
    simp [mTemplates]

/-- **The multisig template accepts exactly its grammar.** -/
theorem solver_multisig_iff (scriptPubKey : CScript) (vSolutionsRet : List Valtype) :
    solverAccess scriptPubKey = .ok (solver scriptPubKey) ∧
      (solver scriptPubKey = ⟨true, .multisig, vSolutionsRet⟩ ↔
        ∃ m keys, IsMultisig scriptPubKey m keys ∧
          vSolutionsRet = [UInt8.ofNat m] :: (keys ++ [[UInt8.ofNat keys.length]])) := by
  refine ⟨solverAccess_eq scriptPubKey, fun h ↦ ?_, ?_⟩
  · have hstandard : StandardScript scriptPubKey (solver scriptPubKey).typeRet
        (solver scriptPubKey).vSolutionsRet := solver_standard (by rw [h])
    rw [h] at hstandard
    exact isMultisig_of_standard hstandard
  · rintro ⟨m, keys, hmultisig, rfl⟩
    exact hmultisig.solver_eq

end

end Fedoracoin
