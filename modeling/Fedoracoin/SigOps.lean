import Fedoracoin.Interpreter

/-!
# The number of signature operations

`GetSigOpCount` counts the operations of a script without running it.  For `OP_CHECKMULTISIG` it
takes the number of keys from the opcode before, if that pushes a small number, and 20 otherwise.
The interpreter takes it from the stack; where the opcode before pushed a number it is the one on
the top, and where that opcode was not executed this one is not either.  So the count is a bound
on the calls of `CheckSig` (`checkSig_le_sigOpCount`).

The count is an `unsigned int` in the source.  It does not wrap for a script that can be
unserialized (`getSigOpCount_lt`).
-/

namespace Fedoracoin

/-- `DecodeOP_N`, of `OP_1` to `OP_16`. -/
def decodeOpN (opcode : UInt8) : Nat := opcode.toNat - 0x50

/-- What an opcode adds to the count. -/
def sigOps (fAccurate : Bool) (lastOpcode opcode : UInt8) : Nat :=
  if opcode = opChecksig ∨ opcode = opChecksigverify then 1
  else if opcode = opCheckmultisig ∨ opcode = opCheckmultisigverify then
    if fAccurate ∧ op1 ≤ lastOpcode ∧ lastOpcode ≤ op16 then decodeOpN lastOpcode else 20
  else 0

/-- The body of the loop: `n` and `lastOpcode`. -/
def countSigOps (fAccurate : Bool) (op : OpRead) (s : Nat × UInt8) : Nat × UInt8 :=
  (s.1 + sigOps fAccurate s.2 op.opcodeRet, op.opcodeRet)

/-- `GetSigOpCount(fAccurate)`. -/
def getSigOpCount (script : CScript) (fAccurate : Bool) : Nat :=
  (whileGetOp (countSigOps fAccurate) script (0, opInvalidopcode)).2.1

/-- The loop over `scriptSig`, for at most `n` opcodes: `data`, or `none` for `return 0`. -/
def lastPush : (n : Nat) → (pc : CScript) → (data : Valtype) → Option Valtype
  | 0, _, data => some data
  | n + 1, pc, data =>
      if pc = [] then some data
      else
        let op := getOp2 pc
        if !op.fRet then none
        else if op16 < op.opcodeRet then none
        else lastPush n op.pc op.vchRet

/-- `GetSigOpCount(scriptSig)`. -/
def getP2SHSigOpCount (script scriptSig : CScript) : Nat :=
  if !isPayToScriptHash script then getSigOpCount script true
  else (lastPush scriptSig.length scriptSig []).elim 0 fun data ↦ getSigOpCount data true

/-! ## The count along a script -/

section

variable {fAccurate : Bool} {lastOpcode : UInt8} {pc : List UInt8}

/-- The count from a place in a script. -/
def sigOpsFrom (fAccurate : Bool) (lastOpcode : UInt8) (pc : List UInt8) : Nat :=
  (whileGetOp (countSigOps fAccurate) pc (0, lastOpcode)).2.1

theorem getSigOpCount_eq (script : CScript) (fAccurate : Bool) :
    getSigOpCount script fAccurate = sigOpsFrom fAccurate opInvalidopcode script := rfl

theorem whileGetOp_countSigOps (n : Nat) :
    (whileGetOp (countSigOps fAccurate) pc (n, lastOpcode)).2.1 =
      n + sigOpsFrom fAccurate lastOpcode pc := by
  induction pc using getOp2_induct generalizing n lastOpcode with
  | stop pc h =>
      rw [sigOpsFrom, whileGetOp_stop h, whileGetOp_stop h]
      rfl
  | read pc h ih =>
      rw [sigOpsFrom, whileGetOp_read h, whileGetOp_read h]
      dsimp only [countSigOps]
      rw [ih, ih, Nat.zero_add, Nat.add_assoc]

theorem sigOpsFrom_stop (h : (getOp2 pc).fRet = false) :
    sigOpsFrom fAccurate lastOpcode pc = 0 := by
  rw [sigOpsFrom, whileGetOp_stop h]

theorem sigOpsFrom_read (h : (getOp2 pc).fRet = true) :
    sigOpsFrom fAccurate lastOpcode pc =
      sigOps fAccurate lastOpcode (getOp2 pc).opcodeRet +
        sigOpsFrom fAccurate (getOp2 pc).opcodeRet (getOp2 pc).pc := by
  rw [sigOpsFrom, whileGetOp_read h]
  dsimp only [countSigOps]
  rw [whileGetOp_countSigOps, Nat.zero_add]

theorem decodeOpN_le (h : lastOpcode ≤ op16) : decodeOpN lastOpcode ≤ 16 := by
  have hle : lastOpcode.toNat ≤ 0x60 := UInt8.le_iff_toNat_le.mp h
  rw [decodeOpN]
  omega

theorem sigOps_le (fAccurate : Bool) (lastOpcode opcode : UInt8) :
    sigOps fAccurate lastOpcode opcode ≤ 20 := by
  rw [sigOps]
  split_ifs with h1 h2 h3
  · decide
  · exact (decodeOpN_le h3.2.2).trans (by decide)
  · exact le_refl 20
  · exact Nat.zero_le 20

/-- The accurate count is the smaller one. -/
theorem sigOps_accurate_le (lastOpcode opcode : UInt8) :
    sigOps true lastOpcode opcode ≤ sigOps false lastOpcode opcode := by
  by_cases hmulti : opcode = opCheckmultisig ∨ opcode = opCheckmultisigverify
  · have hsig : ¬ (opcode = opChecksig ∨ opcode = opChecksigverify) := by
      rcases hmulti with rfl | rfl
      · decide
      · decide
    have hrough : sigOps false lastOpcode opcode = 20 := by
      rw [sigOps, if_neg hsig, if_pos hmulti, if_neg (fun h ↦ absurd h.1 (by decide))]
    rw [hrough]
    exact sigOps_le true lastOpcode opcode
  · rw [sigOps, sigOps, if_neg hmulti, if_neg hmulti]

theorem sigOpsFrom_accurate_le (lastOpcode : UInt8) (pc : List UInt8) :
    sigOpsFrom true lastOpcode pc ≤ sigOpsFrom false lastOpcode pc := by
  induction pc using getOp2_induct generalizing lastOpcode with
  | stop pc h => rw [sigOpsFrom_stop h, sigOpsFrom_stop h]
  | read pc h ih =>
      rw [sigOpsFrom_read h, sigOpsFrom_read h]
      exact Nat.add_le_add (sigOps_accurate_le _ _) (ih _)

theorem sigOpsFrom_le (fAccurate : Bool) (lastOpcode : UInt8) (pc : List UInt8) :
    sigOpsFrom fAccurate lastOpcode pc ≤ 20 * pc.length := by
  induction pc using getOp2_induct generalizing lastOpcode with
  | stop pc h =>
      rw [sigOpsFrom_stop h]
      exact Nat.zero_le _
  | read pc h ih =>
      rw [sigOpsFrom_read h]
      have hlt := length_getOp2_lt h
      have hrest := ih (getOp2 pc).opcodeRet
      have hop := sigOps_le fAccurate lastOpcode (getOp2 pc).opcodeRet
      omega

/-- The counter does not wrap. -/
theorem getSigOpCount_lt {script : CScript} (h : script.length ≤ maxSize) :
    getSigOpCount script fAccurate < 2 ^ 32 := by
  have hle := sigOpsFrom_le fAccurate opInvalidopcode script
  rw [getSigOpCount_eq]
  calc sigOpsFrom fAccurate opInvalidopcode script
      ≤ 20 * script.length := hle
    _ ≤ 20 * maxSize := Nat.mul_le_mul_left 20 h
    _ < 2 ^ 32 := by decide

end

/-! ## The calls of `CheckSig` -/

variable {ctx : SigContext} {flags : Nat} {lastOpcode opcode : UInt8} {s s' : EvalState}

namespace SigContext

theorem nCheckSig_checkCanonicalSig_le (vchSig vchPubKey : Valtype) (code : CScript) :
    (ctx.checkCanonicalSig flags vchSig vchPubKey code).nCheckSig ≤ 1 := by
  rw [checkCanonicalSig]
  split
  case isTrue => exact le_refl 1
  case isFalse => exact Nat.zero_le 1

theorem nCheckSig_evalCheckSig_le (verify : Bool) (pbegincodehash : CScript) (stack : Stack) :
    (ctx.evalCheckSig flags verify pbegincodehash stack).nCheckSig ≤ 1 := by
  rcases stack with _ | ⟨vchPubKey, _ | ⟨vchSig, stack⟩⟩
  · exact Nat.zero_le 1
  · exact Nat.zero_le 1
  · rw [evalCheckSig]
    split
    case isTrue => exact Nat.zero_le 1
    case isFalse => exact nCheckSig_checkCanonicalSig_le _ _ _

/-- The matching calls `CheckSig` at most once for each key. -/
theorem nCheckSig_matchSigs_le (code : CScript) (keys sigs : List Valtype) :
    (ctx.matchSigs flags code keys sigs).nCheckSig ≤ keys.length := by
  induction keys generalizing sigs with
  | nil =>
      cases sigs with
      | nil => exact le_refl 0
      | cons vchSig sigs => exact le_refl 0
  | cons vchPubKey keys ih =>
      cases sigs with
      | nil => exact Nat.zero_le _
      | cons vchSig sigs =>
          have hone : (ctx.checkCanonicalSig flags vchSig vchPubKey code).nCheckSig ≤ 1 :=
            nCheckSig_checkCanonicalSig_le vchSig vchPubKey code
          rw [matchSigs, List.length_cons]
          split
          case isTrue => exact Nat.zero_le _
          case isFalse =>
            dsimp only
            generalize (if (ctx.checkCanonicalSig flags vchSig vchPubKey code).ret = some true
              then sigs else vchSig :: sigs) = left
            split
            case isTrue => exact hone.trans (Nat.le_add_left 1 _)
            case isFalse =>
              rw [Nat.add_comm]
              exact Nat.add_le_add (ih _) hone

end SigContext

/-- The number of keys is the number on the top of the stack, and at most 20. -/
theorem length_keys_of_multiSigArgs {nOpCount nOpCount' : Nat} {stack : Stack}
    {args : MultiSigArgs} (h : multiSigArgs nOpCount stack = some (args, nOpCount')) :
    args.keys.length ≤ 20 ∧
      ∃ vch, stack.head? = some vch ∧ ∀ n, scriptInt vch = some n → args.keys.length ≤ n := by
  obtain ⟨vch, nKeys, nSigs, hvch, hcount, htwenty, -, -, -, -, rfl⟩ := multiSigArgs_eq_some h
  have hlength : ((stack.drop 1).take nKeys).length ≤ nKeys := List.length_take_le _ _
  refine ⟨hlength.trans htwenty, vch, hvch, fun n hn ↦ ?_⟩
  rw [← Option.some.inj (hcount.symm.trans hn)]
  exact Int.ofNat_le.mpr hlength

theorem opcode_of_checkSig {crypto : Crypto} {verify : Bool}
    (h : instruction crypto opcode = .checkSig verify) :
    opcode = opChecksig ∨ opcode = opChecksigverify := by
  have hmem := mem_switchLabels h (by simp) (by simp) (by simp)
  simp only [switchLabels, List.mem_cons, Prod.mk.injEq, reduceCtorEq, and_false, false_or,
    or_false, List.not_mem_nil] at hmem
  exact hmem.imp And.left And.left

theorem opcode_of_checkMultiSig {crypto : Crypto} {verify : Bool}
    (h : instruction crypto opcode = .checkMultiSig verify) :
    opcode = opCheckmultisig ∨ opcode = opCheckmultisigverify := by
  have hmem := mem_switchLabels h (by simp) (by simp) (by simp)
  simp only [switchLabels, List.mem_cons, Prod.mk.injEq, reduceCtorEq, and_false, false_or,
    or_false, List.not_mem_nil] at hmem
  exact hmem.imp And.left And.left

theorem sigOps_checkSig (h : opcode = opChecksig ∨ opcode = opChecksigverify) :
    sigOps true lastOpcode opcode = 1 := by
  rw [sigOps, if_pos h]

theorem sigOps_checkMultiSig (h : opcode = opCheckmultisig ∨ opcode = opCheckmultisigverify) :
    sigOps true lastOpcode opcode =
      if op1 ≤ lastOpcode ∧ lastOpcode ≤ op16 then decodeOpN lastOpcode else 20 := by
  have hsig : ¬ (opcode = opChecksig ∨ opcode = opChecksigverify) := by
    rcases h with rfl | rfl
    · decide
    · decide
  rw [sigOps, if_neg hsig, if_pos h]
  simp only [true_and]

namespace EvalState

/-- What the opcode before the iterator pushed, if it was executed. -/
def Pushed (lastOpcode : UInt8) (s : EvalState) : Prop :=
  op1 ≤ lastOpcode → lastOpcode ≤ op16 → s.fExec = true →
    s.stack.head? = some (CScriptNum.serialize (decodeOpN lastOpcode))

theorem nCheckSig_checkMultiSig_le (verify : Bool) (hpushed : s.Pushed lastOpcode)
    (hexec : s.fExec = true) :
    (s.checkMultiSig ctx flags verify).nCheckSig ≤
      if op1 ≤ lastOpcode ∧ lastOpcode ≤ op16 then decodeOpN lastOpcode else 20 := by
  rw [checkMultiSig]
  split
  case h_1 => exact Nat.zero_le _
  case h_2 args nOpCount hargs =>
    obtain ⟨htwenty, vch, hvch, hcount⟩ := length_keys_of_multiSigArgs hargs
    refine (SigContext.nCheckSig_matchSigs_le _ args.keys args.sigs).trans ?_
    split
    case isTrue hop =>
      have htop := hvch.symm.trans (hpushed hop.1 hop.2 hexec)
      rw [Option.some.inj htop] at hcount
      exact Int.ofNat_le.mp (hcount _ (CScriptNum.getint_serialize (decodeOpN_le hop.2)))
    case isFalse => exact htwenty

/-- A round calls `CheckSig` at most as often as its opcode counts. -/
theorem nCheckSig_step_le (hpushed : s.Pushed lastOpcode) :
    (s.step ctx flags).nCheckSig ≤ sigOps true lastOpcode (getOp2 s.pc).opcodeRet := by
  cases hfetch : s.fetch with
  | none =>
      rw [step_of_fetch_eq_none hfetch]
      exact Nat.zero_le _
  | some p =>
      obtain ⟨op, s₁⟩ := p
      obtain ⟨rfl, -, -, -, hs₁, -⟩ := fetch_eq_some hfetch
      rw [step_eq hfetch]
      dsimp only
      split
      case isTrue => exact Nat.zero_le _
      case isFalse =>
        split
        case isFalse => exact Nat.zero_le _
        case isTrue hexec =>
          cases hi : instruction ctx.crypto (getOp2 s.pc).opcodeRet with
          | checkSig verify =>
              rw [sigOps_checkSig (opcode_of_checkSig hi)]
              exact SigContext.nCheckSig_evalCheckSig_le _ _ _
          | checkMultiSig verify =>
              have hop := opcode_of_checkMultiSig hi
              rw [sigOps_checkMultiSig hop]
              -- it is no part of a conditional, so it is executed
              have hexec : s₁.fExec = true := by
                refine hexec.resolve_right fun hrange ↦ ?_
                rcases hop with hop | hop
                · rw [hop] at hrange
                  exact absurd hrange (by decide)
                · rw [hop] at hrange
                  exact absurd hrange (by decide)
              have hpushed₁ : s₁.Pushed lastOpcode := by
                rw [hs₁]
                exact hpushed
              exact nCheckSig_checkMultiSig_le verify hpushed₁ hexec
          | _ => exact Nat.zero_le _

/-- An executed opcode of a small number pushes it. -/
theorem pushed_step (h : (s.step ctx flags).ret = some s') :
    s'.Pushed (getOp2 s.pc).opcodeRet := by
  intro hge hle hexec'
  cases hfetch : s.fetch with
  | none =>
      rw [step_of_fetch_eq_none hfetch] at h
      cases h
  | some p =>
      obtain ⟨op, s₁⟩ := p
      obtain ⟨rfl, -, -, -, -, -⟩ := fetch_eq_some hfetch
      rw [step_eq hfetch] at h
      generalize (getOp2 s.pc).opcodeRet = opcode at h hge hle
      have hnotData : ¬ opcode ≤ opPushdata4 := fun hdata ↦
        absurd (UInt8.le_trans hge hdata) (by decide)
      have hnotBranch : ¬ (opIf ≤ opcode ∧ opcode ≤ opEndif) := fun hbranch ↦
        absurd (UInt8.le_trans hbranch.1 hle) (by decide)
      have hnumber : instruction ctx.crypto opcode = .pushNumber (decodeOpN opcode) := by
        have hle' : 0x51 ≤ opcode.toNat := UInt8.le_iff_toNat_le.mp hge
        rw [instruction, if_pos (Or.inr ⟨hge, hle⟩), decodeOpN]
        congr 1
        omega
      obtain ⟨s₂, hexec, hlimited⟩ := Option.bind_eq_some_iff.mp h
      obtain ⟨rfl, -⟩ := limited_eq_some hlimited
      rw [if_neg fun hdata ↦ hnotData hdata.2] at hexec
      split at hexec
      case isTrue =>
        rw [hnumber] at hexec
        obtain rfl := Option.some.inj hexec
        rfl
      case isFalse hskip =>
        obtain rfl := Option.some.inj hexec
        exact absurd (Or.inl hexec') hskip

/-- **Along a run** the calls are bounded by the count of the rest of the script. -/
theorem nCheckSig_loop_le (n : Nat) (hpushed : s.Pushed lastOpcode) :
    (loop ctx flags n s).nCheckSig ≤ sigOpsFrom true lastOpcode s.pc := by
  induction n generalizing s lastOpcode with
  | zero => exact Nat.zero_le _
  | succ n ih =>
      by_cases hpc : s.pc = []
      · rw [loop_end _ hpc]
        exact Nat.zero_le _
      · have hone : (s.step ctx flags).nCheckSig ≤ sigOps true lastOpcode (getOp2 s.pc).opcodeRet :=
          nCheckSig_step_le hpushed
        cases hstep : (s.step ctx flags).ret with
        | none =>
            rw [loop_fail hpc hstep]
            cases hread : (getOp2 s.pc).fRet with
            | true =>
                rw [sigOpsFrom_read hread]
                exact hone.trans (Nat.le_add_right _ _)
            | false =>
                rw [step_of_not_read hread]
                exact Nat.zero_le _
        | some s₁ =>
            obtain ⟨hread, hpc'⟩ := pc_step hstep
            have hrest := ih (pushed_step hstep)
            rw [hpc'] at hrest
            rw [loop_step hpc hstep, sigOpsFrom_read hread]
            exact Nat.add_le_add hone hrest

end EvalState

/-- An evaluation calls `CheckSig` at most as often as the accurate count says. -/
theorem nCheckSig_evalScript_le (stack : Stack) (script : CScript) :
    (evalScript ctx flags stack script).nCheckSig ≤ getSigOpCount script true := by
  rw [evalScript]
  split
  case isTrue => exact Nat.zero_le _
  case isFalse =>
    refine EvalState.nCheckSig_loop_le script.length ?_
    exact nofun

/-! ## The last push -/

/-- The bytes of an element have no more signature operations than `data`, if they are a script. -/
def Covers (data : Valtype) (stack : Stack) : Prop :=
  ∀ vch, stack.head? = some vch → getSigOpCount vch true ≤ getSigOpCount data true

/-- Small numbers, as scripts. -/
theorem getSigOpCount_serialize {n : Int} (hge : -1 ≤ n) (hle : n ≤ 16) :
    getSigOpCount (CScriptNum.serialize n) true = 0 := by
  interval_cases n <;> decide

theorem covers_pushedValue {pc : List UInt8} {vch : Valtype} (stack : Stack)
    (h : EvalState.pushedValue (getOp2 pc) = some vch) :
    Covers (getOp2 pc).vchRet (vch :: stack) := by
  rintro _ ⟨⟩
  rw [EvalState.pushedValue] at h
  split at h
  case isTrue =>
    rw [Option.some.inj h]
  case isFalse hdata =>
    split at h
    case isTrue hnumber =>
      rw [← Option.some.inj h]
      have hrange : -1 ≤ ((getOp2 pc).opcodeRet.toNat : Int) - 0x50 ∧
          ((getOp2 pc).opcodeRet.toNat : Int) - 0x50 ≤ 16 := by
        rcases hnumber with hneg | ⟨hge, hle⟩
        · rw [hneg]
          decide
        · have hge' : 0x51 ≤ (getOp2 pc).opcodeRet.toNat := UInt8.le_iff_toNat_le.mp hge
          have hle' : (getOp2 pc).opcodeRet.toNat ≤ 0x60 := UInt8.le_iff_toNat_le.mp hle
          omega
      rw [getSigOpCount_serialize hrange.1 hrange.2]
      exact Nat.zero_le _
    case isFalse => cases h

/-- The top of the stack after a script that only pushes is the last push, or a small number. -/
theorem exists_lastPush {n : Nat} {data : Valtype} (hn : s.pc.length ≤ n)
    (hpush : isPushOnlyLoop n s.pc = true) (hvfExec : s.vfExec = []) (hcovers : Covers data s.stack)
    (h : (EvalState.loop ctx flags n s).ret = some s') :
    ∃ data', lastPush n s.pc data = some data' ∧ Covers data' s'.stack := by
  induction n generalizing s data with
  | zero =>
      obtain rfl := Option.some.inj h
      exact ⟨data, rfl, hcovers⟩
  | succ n ih =>
      by_cases hpc : s.pc = []
      · rw [EvalState.loop_end _ hpc] at h
        obtain rfl := Option.some.inj h
        exact ⟨data, by rw [lastPush, if_pos hpc], hcovers⟩
      · rw [isPushOnlyLoop, if_neg hpc] at hpush
        simp only [Bool.and_eq_true, Bool.not_eq_true', decide_eq_false_iff_not] at hpush
        obtain ⟨⟨hread, hle⟩, hrest⟩ := hpush
        rw [lastPush, if_neg hpc]
        dsimp only
        rw [hread, if_neg (by simp), if_neg hle]
        cases hstep : (s.step ctx flags).ret with
        | none =>
            rw [EvalState.loop_fail hpc hstep, hstep] at h
            cases h
        | some s₁ =>
            rw [EvalState.loop_step hpc hstep] at h
            have hexec : s.fExec = true := by rw [EvalState.fExec, hvfExec]; rfl
            obtain ⟨vch, hvch, hstack, hvfExec₁⟩ :=
              EvalState.step_push_eq_some hexec (UInt8.not_lt.mp hle) hstep
            obtain ⟨-, hpc₁⟩ := EvalState.pc_step hstep
            have hlt := length_getOp2_lt hread
            have hcovers₁ : Covers (getOp2 s.pc).vchRet s₁.stack := by
              rw [hstack]
              exact covers_pushedValue s.stack hvch
            have hn₁ : s₁.pc.length ≤ n := by
              rw [hpc₁]
              omega
            have hloop := ih hn₁ (by rwa [hpc₁]) (hvfExec₁.trans hvfExec) hcovers₁ h
            rwa [hpc₁] at hloop

/-- The script whose hash is paid to has no more signature operations than are counted for it. -/
theorem getSigOpCount_redeem_le {scriptSig scriptPubKey : CScript} {vch : Valtype} {stack : Stack}
    (hscript : isPayToScriptHash scriptPubKey = true) (hpush : isPushOnly scriptSig = true)
    (h : (evalScript ctx flags [] scriptSig).ret = some (vch :: stack)) :
    getSigOpCount vch true ≤ getP2SHSigOpCount scriptPubKey scriptSig := by
  rw [evalScript] at h
  split at h
  case isTrue => cases h
  case isFalse =>
    obtain ⟨s', hloop, hend⟩ := Option.bind_eq_some_iff.mp h
    rw [EvalState.result] at hend
    split at hend
    case isFalse => cases hend
    case isTrue =>
      have hcovers : Covers [] [] := nofun
      obtain ⟨data, hdata, hcovers'⟩ := exists_lastPush
        (s := { pc := scriptSig, pbegincodehash := scriptSig, stack := [] }) (le_refl _) hpush rfl
        hcovers hloop
      rw [getP2SHSigOpCount, hscript, hdata]
      exact hcovers' vch (by rw [Option.some.inj hend]; rfl)

/-- **The count of the signature operations is a bound on the calls of `CheckSig`**: for a script
that is evaluated, and for one whose hash is paid to.  A `scriptSig` that does more than push is
refused before the latter is evaluated. -/
theorem checkSig_le_sigOpCount :
    (∀ ctx flags stack script,
      (evalScript ctx flags stack script).nCheckSig ≤ getSigOpCount script true ∧
        getSigOpCount script true ≤ getSigOpCount script false) ∧
    ∀ ctx flags scriptSig scriptPubKey,
      (verifyScript ctx flags scriptSig scriptPubKey).redeemCheckSig ≤
        getP2SHSigOpCount scriptPubKey scriptSig := by
  refine ⟨fun ctx flags stack script ↦ ⟨nCheckSig_evalScript_le stack script,
    sigOpsFrom_accurate_le _ script⟩, fun ctx flags scriptSig scriptPubKey ↦ ?_⟩
  rw [verifyScript]
  cases heval : (evalScript ctx flags [] scriptSig).ret with
  | none => exact Nat.zero_le _
  | some stack =>
      dsimp only
      split
      case isTrue => exact Nat.zero_le _
      case isFalse =>
        split
        case isFalse => exact Nat.zero_le _
        case isTrue hscript =>
          split
          case isTrue => exact Nat.zero_le _
          case isFalse hpush =>
            rw [Bool.not_eq_true', Bool.not_eq_false] at hpush
            cases stack with
            | nil => exact Nat.zero_le _
            | cons vch stack =>
                exact (nCheckSig_evalScript_le stack vch).trans
                  (getSigOpCount_redeem_le hscript.2 hpush heval)

/-! ## Scripts without signature operations -/

theorem sigOps_eq_zero (h : sigOps true lastOpcode opcode = 0) :
    ¬ (opcode = opChecksig ∨ opcode = opChecksigverify) ∧
      ¬ (opcode = opCheckmultisig ∨ opcode = opCheckmultisigverify) := by
  constructor
  · intro hsig
    rw [sigOps_checkSig hsig] at h
    cases h
  · intro hmulti
    rw [sigOps_checkMultiSig hmulti] at h
    split at h
    case isTrue hop =>
      have hge : 0x51 ≤ lastOpcode.toNat := UInt8.le_iff_toNat_le.mp hop.1
      rw [decodeOpN] at h
      omega
    case isFalse => cases h

namespace EvalState

variable {flags' : Nat}

/-- The flags are those of the checks of signatures. -/
theorem step_flags (h : sigOps true lastOpcode (getOp2 s.pc).opcodeRet = 0) :
    s.step ctx flags = s.step ctx flags' := by
  cases hfetch : s.fetch with
  | none => rw [step_of_fetch_eq_none hfetch, step_of_fetch_eq_none hfetch]
  | some p =>
      obtain ⟨op, s₁⟩ := p
      obtain ⟨rfl, -, -, -, -, -⟩ := fetch_eq_some hfetch
      obtain ⟨hsig, hmulti⟩ := sigOps_eq_zero h
      have hsame : s₁.execute ctx flags (instruction ctx.crypto (getOp2 s.pc).opcodeRet) =
          s₁.execute ctx flags' (instruction ctx.crypto (getOp2 s.pc).opcodeRet) := by
        cases hi : instruction ctx.crypto (getOp2 s.pc).opcodeRet with
        | checkSig verify => exact absurd (opcode_of_checkSig hi) hsig
        | checkMultiSig verify => exact absurd (opcode_of_checkMultiSig hi) hmulti
        | _ => rfl
      rw [step_eq hfetch, step_eq hfetch, hsame]

theorem loop_flags (n : Nat) (h : sigOpsFrom true lastOpcode s.pc = 0) :
    loop ctx flags n s = loop ctx flags' n s := by
  induction n generalizing s lastOpcode with
  | zero => rfl
  | succ n ih =>
      by_cases hpc : s.pc = []
      · rw [loop_end _ hpc, loop_end _ hpc]
      · cases hread : (getOp2 s.pc).fRet with
        | false =>
            have hfail {flags : Nat} : s.step ctx flags = { ret := none } := step_of_not_read hread
            rw [loop_fail hpc (by rw [hfail]), loop_fail hpc (by rw [hfail]), hfail, hfail]
        | true =>
            rw [sigOpsFrom_read hread, Nat.add_eq_zero_iff] at h
            have hsame : s.step ctx flags = s.step ctx flags' := step_flags h.1
            cases hstep : (s.step ctx flags').ret with
            | none => rw [loop_fail hpc (by rw [hsame, hstep]), loop_fail hpc hstep, hsame]
            | some s₁ =>
                obtain ⟨-, hpc₁⟩ := pc_step hstep
                rw [loop_step hpc (by rw [hsame, hstep]), loop_step hpc hstep, hsame,
                  ih (by rw [hpc₁]; exact h.2)]

end EvalState

theorem evalScript_flags {flags' : Nat} {script : CScript} (stack : Stack)
    (h : getSigOpCount script true = 0) :
    evalScript ctx flags stack script = evalScript ctx flags' stack script := by
  rw [evalScript, evalScript]
  split
  case isTrue => rfl
  case isFalse =>
    rw [EvalState.loop_flags (s := { pc := script, pbegincodehash := script, stack := stack })
      script.length h]

/-- A script that only pushes has no signature operations. -/
theorem sigOpsFrom_of_isPushOnly {n : Nat} {pc : CScript} (hn : pc.length ≤ n)
    (h : isPushOnlyLoop n pc = true) : sigOpsFrom true lastOpcode pc = 0 := by
  induction n generalizing pc lastOpcode with
  | zero =>
      obtain rfl := List.eq_nil_of_length_eq_zero (Nat.le_zero.mp hn)
      exact sigOpsFrom_stop rfl
  | succ n ih =>
      rw [isPushOnlyLoop] at h
      split at h
      case isTrue hpc =>
        rw [hpc]
        exact sigOpsFrom_stop rfl
      case isFalse =>
        simp only [Bool.and_eq_true, Bool.not_eq_true', decide_eq_false_iff_not] at h
        obtain ⟨⟨hread, hle⟩, hrest⟩ := h
        have hlt := length_getOp2_lt hread
        rw [sigOpsFrom_read hread, ih (by omega) hrest, sigOps]
        have hop : ∀ o : UInt8, op16 < o → (getOp2 pc).opcodeRet ≠ o := by
          rintro o ho rfl
          exact hle ho
        rw [if_neg (not_or.mpr ⟨hop _ (by decide), hop _ (by decide)⟩),
          if_neg (not_or.mpr ⟨hop _ (by decide), hop _ (by decide)⟩)]

/-- So has the script that pays to the hash of a script. -/
theorem getSigOpCount_of_isPayToScriptHash {script : CScript}
    (h : isPayToScriptHash script = true) : getSigOpCount script true = 0 := by
  simp only [isPayToScriptHash, Bool.and_eq_true, beq_iff_eq] at h
  obtain ⟨⟨⟨hlength, h0⟩, h1⟩, h22⟩ := h
  rcases script with _ | ⟨a, _ | ⟨b, rest⟩⟩
  · cases hlength
  · cases hlength
  · obtain rfl : a = opHash160 := Option.some.inj h0
    obtain rfl : b = 0x14 := Option.some.inj h1
    have hrest : rest.length = 21 := by
      rw [List.length_cons, List.length_cons] at hlength
      omega
    have hend : rest.drop 20 = [opEqual] := by
      obtain ⟨hlt, hequal⟩ := List.getElem?_eq_some_iff.mp h22
      rw [List.drop_eq_getElem_cons (by omega), List.drop_eq_nil_of_le (by omega)]
      exact congrArg (· :: []) hequal
    have hpush : getOp2 (0x14 :: rest) = ⟨true, 0x14, rest.take 20, [opEqual]⟩ := by
      rw [getOp2, if_pos (by decide), ← hend]
      change (if rest.length < 20 then _ else _ : OpRead) = _
      rw [if_neg (by omega)]
      rfl
    have hread : (getOp2 (opHash160 :: 0x14 :: rest)).fRet = true := rfl
    have hread' : (getOp2 (0x14 :: rest)).fRet = true := by rw [hpush]
    rw [getSigOpCount_eq, sigOpsFrom_read hread]
    change 0 + sigOpsFrom true opHash160 (0x14 :: rest) = 0
    rw [sigOpsFrom_read hread', hpush]
    change 0 + (sigOps true opHash160 0x14 + sigOpsFrom true 0x14 [opEqual]) = 0
    decide

end Fedoracoin
