import Fedoracoin.Lib.Matching
import Fedoracoin.SigOps

/-!
# The check of partial signatures

`EvalMultiSigScript` and `VerifyMultiSigScript`, by which a node tells whether an input that spends
from several keys is fully signed.  `EvalMultiSigScript` is a copy of `EvalScript`, with four
changes: it has no conditionals and no limit on the stacks, it ends at the first
`OP_CHECKMULTISIG`, and instead of matching the signatures to the keys in order it counts the pairs
of a key and a signature of it.

So it says that an input is signed which the network does not accept: if one signature is there
twice, or the signatures are not in the order of the keys, or what follows fails
(`verifyMultiSigScript_sound_iff`).

Which keys have signed, in `bIsSign`, is for the user and left out.
-/

namespace Fedoracoin

/-- `CastToBigNum(..).getint()`. -/
def bigNumInt (vch : Valtype) : Option Int := (castToBigNum vch).map CBigNum.getint

/-- The cases of the `switch` of the copy. -/
def multiSigInstruction (crypto : Crypto) (opcode : UInt8) : Instruction :=
  if opcode = opIf ∨ opcode = opNotif ∨ opcode = opElse ∨ opcode = opEndif then .fail
  else if opcode = opPick then .stack (Stack.pick bigNumInt false)
  else if opcode = opRoll then .stack (Stack.pick bigNumInt true)
  else instruction crypto opcode

namespace SigContext

variable (ctx : SigContext)

/-- The check of a signature in the copy. -/
def checkMultiSigSig (flags : Nat) (vchSig vchPubKey : Valtype) (code : CScript) : Bool :=
  (flags &&& scriptVerifyStrictenc == 0 ||
    isCanonicalSignature vchSig flags == some true &&
      isCanonicalPubKey vchPubKey flags == some true) &&
    ctx.checkSig vchSig vchPubKey code

/-- `OP_CHECKSIG` in the copy. -/
def multiSigCheckSig (flags : Nat) (verify : Bool) (pbegincodehash : CScript) :
    Stack → Option Stack
  | vchPubKey :: vchSig :: stack =>
      pushVerdict verify
        (ctx.checkMultiSigSig flags vchSig vchPubKey (scriptCode pbegincodehash [vchSig])) stack
  | _ => none

/-- `okCount`. -/
def okCount (flags : Nat) (code : CScript) (keys sigs : List Valtype) : Nat :=
  (keys.map fun vchPubKey ↦
    sigs.countP fun vchSig ↦ ctx.checkMultiSigSig flags vchSig vchPubKey code).sum

end SigContext

/-- What the copy takes from the stack: the keys, the signatures that are there, and the number of
signatures that are asked for. -/
structure PartialArgs where
  keys : List Valtype
  sigs : List Valtype
  nSigsCount : Nat

/-- The checks of the counts in the copy. -/
def partialArgs (nOpCount : Nat) (stack : Stack) : Option PartialArgs := do
  let nKeysCount ← bigNumInt (← stack[0]?)
  if nKeysCount < 0 ∨ 20 < nKeysCount then none
  else do
    let nKeys := nKeysCount.toNat
    if 201 < nOpCount + nKeys then none
    else if stack.length < 2 + nKeys then none
    else do
      let nSigsCount ← bigNumInt (← stack[1 + nKeys]?)
      if nSigsCount < 0 ∨ nKeysCount < nSigsCount then none
      else do
        let curSigsCount : Int := nSigsCount + stack.length - (3 + nKeysCount + nSigsCount)
        let curSigsCount := if nSigsCount < curSigsCount then nSigsCount else curSigsCount
        return { keys := (stack.drop 1).take nKeys
                 sigs := (stack.drop (2 + nKeys)).take curSigsCount.toNat
                 nSigsCount := nSigsCount.toNat }

def isCheckMultiSig (opcode : UInt8) : Bool :=
  opcode == opCheckmultisig || opcode == opCheckmultisigverify

namespace EvalState

/-- `OP_CHECKMULTISIG` in the copy: the stack is left as it is. -/
def countMultiSig (ctx : SigContext) (flags : Nat) (s : EvalState) : Option Stack := do
  let args ← partialArgs s.nOpCount s.stack
  if ctx.okCount flags (scriptCode s.pbegincodehash args.sigs) args.keys args.sigs <
      args.nSigsCount then none
  else return s.stack

/-- The other cases of the `switch` of the copy. -/
def multiSigExecute (ctx : SigContext) (flags : Nat) (s : EvalState) (op : OpRead) :
    Option EvalState :=
  if op.opcodeRet ≤ opPushdata4 then some { s with stack := op.vchRet :: s.stack }
  else
    match multiSigInstruction ctx.crypto op.opcodeRet with
    | .checkSig verify =>
        (ctx.multiSigCheckSig flags verify s.pbegincodehash s.stack).map fun stack ↦
          { s with stack := stack }
    | i => (s.execute ctx flags i).ret

/-- The loop of the copy, for at most `n` rounds: the stack where it returns true. -/
def multiSigLoop (ctx : SigContext) (flags : Nat) : (n : Nat) → EvalState → Option Stack
  | 0, s => some s.stack
  | n + 1, s =>
      if s.pc = [] then some s.stack
      else do
        let (op, s) ← s.fetch
        if isCheckMultiSig op.opcodeRet then s.countMultiSig ctx flags
        else multiSigLoop ctx flags n (← s.multiSigExecute ctx flags op)

end EvalState

/-- `EvalMultiSigScript`: the stack where it returns true. -/
def evalMultiSigScript (ctx : SigContext) (flags : Nat) (stack : Stack) (script : CScript) :
    Option Stack :=
  if 10000 < script.length then none
  else
    EvalState.multiSigLoop ctx flags script.length
      { pc := script, pbegincodehash := script, stack := stack }

/-- `VerifyMultiSigScript`; `none` if its `assert` fails. -/
def verifyMultiSigScript (ctx : SigContext) (scriptSig scriptPubKey : CScript) : Option Bool :=
  let flags := scriptVerifyP2sh ||| scriptVerifyStrictenc
  match (evalScript ctx flags [] scriptSig).ret with
  | none => some false
  | some stack =>
      if !endsTrue (evalScript ctx flags stack scriptPubKey).ret then some false
      else if isPayToScriptHash scriptPubKey then
        if !isPushOnly scriptSig then some false
        else
          match stack with
          | [] => none
          | pubKeySerialized :: stackCopy =>
              some (endsTrue
                (evalMultiSigScript ctx scriptVerifyP2sh stackCopy pubKeySerialized))
      else some false

/-! ## What the copy shares with the interpreter -/

variable {ctx : SigContext} {flags : Nat} {s s' : EvalState} {op : OpRead}

theorem bigNumInt_eq : bigNumInt = scriptInt := by
  funext vch
  exact castToBigNum_getint vch

/-- But for the conditionals the cases are the same. -/
theorem multiSigInstruction_eq {crypto : Crypto} {opcode : UInt8}
    (h : ¬ (opcode = opIf ∨ opcode = opNotif ∨ opcode = opElse ∨ opcode = opEndif)) :
    multiSigInstruction crypto opcode = instruction crypto opcode := by
  rw [multiSigInstruction, if_neg h, bigNumInt_eq]
  split
  case isTrue hpick =>
    rw [hpick]
    rfl
  case isFalse =>
    split
    case isTrue hroll =>
      rw [hroll]
      rfl
    case isFalse => rfl

namespace SigContext

/-- With the flags of the copy no encoding is checked. -/
theorem checkSignatureEncoding_p2sh (vchSig : Valtype) :
    checkSignatureEncoding vchSig scriptVerifyP2sh = some true := by
  cases vchSig with
  | nil => rfl
  | cons b vchSig => rfl

theorem checkCanonicalSig_p2sh (vchSig vchPubKey : Valtype) (code : CScript) :
    ctx.checkCanonicalSig scriptVerifyP2sh vchSig vchPubKey code =
      { ret := some (ctx.checkSig vchSig vchPubKey code), nCheckSig := 1 } := rfl

theorem evalCheckSig_p2sh (verify : Bool) (pbegincodehash : CScript) (stack : Stack) :
    (ctx.evalCheckSig scriptVerifyP2sh verify pbegincodehash stack).ret =
      ctx.multiSigCheckSig scriptVerifyP2sh verify pbegincodehash stack := by
  rcases stack with _ | ⟨vchPubKey, _ | ⟨vchSig, stack⟩⟩
  · rfl
  · rfl
  · rw [evalCheckSig, checkSignatureEncoding_p2sh, if_neg (by simp)]
    rfl

/-- The loop of the interpreter is the single pass over the keys. -/
theorem matchSigs_p2sh (code : CScript) (keys sigs : List Valtype) :
    (ctx.matchSigs scriptVerifyP2sh code keys sigs).ret =
      some (Matching.greedy (fun vchSig vchPubKey ↦ ctx.checkSig vchSig vchPubKey code)
        sigs keys) := by
  induction keys generalizing sigs with
  | nil =>
      cases sigs with
      | nil => rfl
      | cons vchSig sigs => rfl
  | cons vchPubKey keys ih =>
      cases sigs with
      | nil => rfl
      | cons vchSig sigs =>
          rw [matchSigs, checkSignatureEncoding_p2sh, if_neg (by simp), checkCanonicalSig_p2sh,
            Matching.greedy]
          simp only [Option.some.injEq]
          generalize (if ctx.checkSig vchSig vchPubKey code = true then sigs
            else vchSig :: sigs) = left
          split
          case isTrue => rfl
          case isFalse => exact ih left

end SigContext

namespace EvalState

/-- **A round of the copy is a round of the interpreter**, but for the limit on the stacks. -/
theorem step_of_multiSigExecute (hfetch : s.fetch = some (op, s')) (hvfExec : s.vfExec = [])
    {s₂ : EvalState}
    (h : s'.multiSigExecute ctx scriptVerifyP2sh op = some s₂) :
    (s.step ctx scriptVerifyP2sh).ret = s₂.limited ∧ s₂.vfExec = [] ∧ s₂.pc = op.pc := by
  obtain ⟨-, -, -, -, hs', -⟩ := fetch_eq_some hfetch
  have hvfExec' : s'.vfExec = [] := by
    rw [hs']
    exact hvfExec
  have hexec : s'.fExec = true := by
    rw [fExec, hvfExec']
    rfl
  have hpc : s'.pc = op.pc := by rw [hs']
  rw [multiSigExecute] at h
  rw [step_eq hfetch]
  dsimp only
  by_cases hdata : op.opcodeRet ≤ opPushdata4
  · rw [if_pos hdata] at h
    obtain rfl := Option.some.inj h
    rw [if_pos ⟨hexec, hdata⟩]
    exact ⟨rfl, hvfExec', hpc⟩
  · rw [if_neg hdata] at h
    rw [if_neg fun h ↦ hdata h.2, if_pos (Or.inl hexec)]
    by_cases hbranch : op.opcodeRet = opIf ∨ op.opcodeRet = opNotif ∨ op.opcodeRet = opElse ∨
        op.opcodeRet = opEndif
    · rw [multiSigInstruction, if_pos hbranch] at h
      exact absurd h (by simp [execute])
    · rw [multiSigInstruction_eq hbranch] at h
      have hbody : (s'.execute ctx scriptVerifyP2sh
          (instruction ctx.crypto op.opcodeRet)).ret = some s₂ := by
        cases hi : instruction ctx.crypto op.opcodeRet with
        | checkSig verify =>
            rw [hi] at h
            rw [execute, SigContext.evalCheckSig_p2sh]
            exact h
        | _ =>
            rw [hi] at h
            exact h
      obtain ⟨hpc', hconditionals⟩ := frame_execute hbody
      refine ⟨by rw [hbody]; rfl, ?_, hpc'.trans hpc⟩
      rw [← hvfExec']
      refine hconditionals (fun notif hi ↦ ?_) (fun hi ↦ ?_) fun hi ↦ ?_
      · exact hbranch (opcode_of_branch hi (Or.inl ⟨notif, rfl⟩))
      · exact hbranch (opcode_of_branch hi (Or.inr (Or.inl rfl)))
      · exact hbranch (opcode_of_branch hi (Or.inr (Or.inr rfl)))

/-! ## Up to the first `OP_CHECKMULTISIG` -/

/-- The operations before the first `OP_CHECKMULTISIG`, for at most `n` of them: whether the stacks
stay within the limit, and the state that they lead to.  At the end of the script there is none
to come. -/
def approach (ctx : SigContext) : (n : Nat) → EvalState → Option (Bool × EvalState)
  | 0, s => some (true, s)
  | n + 1, s =>
      if s.pc = [] ∨ isCheckMultiSig (getOp2 s.pc).opcodeRet = true then some (true, s)
      else do
        let (op, s) ← s.fetch
        let s ← s.multiSigExecute ctx scriptVerifyP2sh op
        let (within, last) ← approach ctx n s
        return (s.limited.isSome && within, last)

/-- From `s` on the interpreter ends with a true value. -/
def Accepts (ctx : SigContext) (s : EvalState) : Prop :=
  endsTrue ((loop ctx scriptVerifyP2sh s.pc.length s).ret.bind result) = true

/-- What the copy makes of the state that `approach` leads to. -/
def countEnd (ctx : SigContext) (s : EvalState) : Option Stack :=
  if s.pc = [] then some s.stack
  else do
    let (_, s) ← s.fetch
    s.countMultiSig ctx scriptVerifyP2sh

variable {n : Nat} {within : Bool} {last : EvalState}

theorem approach_stop (h : s.pc = [] ∨ isCheckMultiSig (getOp2 s.pc).opcodeRet = true) :
    approach ctx n s = some (true, s) := by
  cases n with
  | zero => rfl
  | succ n => rw [approach, if_pos h]

theorem approach_next (h : ¬ (s.pc = [] ∨ isCheckMultiSig (getOp2 s.pc).opcodeRet = true))
    (happroach : approach ctx (n + 1) s = some (within, last)) :
    ∃ op s₁ s₂ within', s.fetch = some (op, s₁) ∧
      s₁.multiSigExecute ctx scriptVerifyP2sh op = some s₂ ∧
      approach ctx n s₂ = some (within', last) ∧ within = (s₂.limited.isSome && within') := by
  rw [approach, if_neg h] at happroach
  obtain ⟨⟨op, s₁⟩, hfetch, happroach⟩ := Option.bind_eq_some_iff.mp happroach
  obtain ⟨s₂, hexec, happroach⟩ := Option.bind_eq_some_iff.mp happroach
  obtain ⟨⟨within', last'⟩, hrest, happroach⟩ := Option.bind_eq_some_iff.mp happroach
  obtain ⟨rfl, rfl⟩ := Prod.mk.inj (Option.some.inj happroach)
  exact ⟨op, s₁, s₂, within', hfetch, hexec, hrest, rfl⟩

/-- Where the operations before `OP_CHECKMULTISIG` lead to. -/
theorem approach_end (hn : s.pc.length ≤ n) (hvfExec : s.vfExec = [])
    (h : approach ctx n s = some (within, last)) :
    last.vfExec = [] ∧ (last.pc = [] ∨ isCheckMultiSig (getOp2 last.pc).opcodeRet = true) := by
  induction n generalizing s within with
  | zero =>
      obtain ⟨-, rfl⟩ := Prod.mk.inj (Option.some.inj h)
      exact ⟨hvfExec, Or.inl (List.eq_nil_of_length_eq_zero (Nat.le_zero.mp hn))⟩
  | succ n ih =>
      by_cases hstop : s.pc = [] ∨ isCheckMultiSig (getOp2 s.pc).opcodeRet = true
      · rw [approach_stop hstop] at h
        obtain ⟨-, rfl⟩ := Prod.mk.inj (Option.some.inj h)
        exact ⟨hvfExec, hstop⟩
      · obtain ⟨op, s₁, s₂, within', hfetch, hexec, hrest, -⟩ := approach_next hstop h
        obtain ⟨-, hvfExec₂, hpc₂⟩ := step_of_multiSigExecute hfetch hvfExec hexec
        obtain ⟨rfl, hread, -⟩ := fetch_eq_some hfetch
        have hlt := length_getOp2_lt hread
        rw [← hpc₂] at hlt
        exact ih (Nat.le_of_lt_succ (hlt.trans_le hn)) hvfExec₂ hrest

/-- The copy, up to there and from there. -/
theorem multiSigLoop_eq (hn : s.pc.length ≤ n) (hvfExec : s.vfExec = []) :
    multiSigLoop ctx scriptVerifyP2sh n s = (approach ctx n s).bind fun p ↦ countEnd ctx p.2 := by
  induction n generalizing s with
  | zero =>
      have hpc : s.pc = [] := List.eq_nil_of_length_eq_zero (Nat.le_zero.mp hn)
      rw [multiSigLoop, approach, Option.bind_some, countEnd, if_pos hpc]
  | succ n ih =>
      rw [multiSigLoop]
      by_cases hpc : s.pc = []
      · rw [if_pos hpc, approach_stop (Or.inl hpc), Option.bind_some, countEnd, if_pos hpc]
      · rw [if_neg hpc]
        by_cases hmulti : isCheckMultiSig (getOp2 s.pc).opcodeRet = true
        · rw [approach_stop (Or.inr hmulti), Option.bind_some, countEnd, if_neg hpc]
          cases hfetch : s.fetch with
          | none => rfl
          | some p =>
              obtain ⟨op, s₁⟩ := p
              obtain ⟨rfl, -⟩ := fetch_eq_some hfetch
              exact if_pos hmulti
        · rw [approach, if_neg (not_or.mpr ⟨hpc, hmulti⟩)]
          cases hfetch : s.fetch with
          | none => rfl
          | some p =>
              obtain ⟨op, s₁⟩ := p
              have hop : op = getOp2 s.pc := (fetch_eq_some hfetch).1
              change (if isCheckMultiSig op.opcodeRet = true then _ else _ : Option Stack) = _
              rw [hop, if_neg hmulti, ← hop]
              cases hexec : s₁.multiSigExecute ctx scriptVerifyP2sh op with
              | none =>
                  change none = (Option.bind (s₁.multiSigExecute ctx scriptVerifyP2sh op) _).bind _
                  rw [hexec]
                  rfl
              | some s₂ =>
                  obtain ⟨-, hvfExec₂, hpc₂⟩ := step_of_multiSigExecute hfetch hvfExec hexec
                  obtain ⟨-, hread, -⟩ := fetch_eq_some hfetch
                  rw [hop] at hread hpc₂
                  have hlt := length_getOp2_lt hread
                  rw [← hpc₂] at hlt
                  change multiSigLoop ctx scriptVerifyP2sh n s₂ =
                    (Option.bind (s₁.multiSigExecute ctx scriptVerifyP2sh op) _).bind _
                  rw [hexec, ih (Nat.le_of_lt_succ (hlt.trans_le hn)) hvfExec₂, Option.bind_some]
                  cases approach ctx n s₂ with
                  | none => rfl
                  | some q => rfl

/-- The interpreter, up to there and from there. -/
theorem loop_of_approach (hn : s.pc.length ≤ n) (hvfExec : s.vfExec = [])
    (h : approach ctx n s = some (within, last)) :
    (loop ctx scriptVerifyP2sh n s).ret =
      if within then (loop ctx scriptVerifyP2sh last.pc.length last).ret else none := by
  induction n generalizing s within with
  | zero =>
      obtain ⟨rfl, rfl⟩ := Prod.mk.inj (Option.some.inj h)
      rw [if_pos rfl, loop_fuel hn (le_refl _)]
  | succ n ih =>
      by_cases hstop : s.pc = [] ∨ isCheckMultiSig (getOp2 s.pc).opcodeRet = true
      · rw [approach_stop hstop] at h
        obtain ⟨rfl, rfl⟩ := Prod.mk.inj (Option.some.inj h)
        rw [if_pos rfl, loop_fuel hn (le_refl _)]
      · obtain ⟨op, s₁, s₂, within', hfetch, hexec, hrest, rfl⟩ := approach_next hstop h
        obtain ⟨hstep, hvfExec₂, hpc₂⟩ := step_of_multiSigExecute hfetch hvfExec hexec
        obtain ⟨rfl, hread, -⟩ := fetch_eq_some hfetch
        have hlt := length_getOp2_lt hread
        rw [← hpc₂] at hlt
        have hpc : s.pc ≠ [] := fun h ↦ hstop (Or.inl h)
        cases hlimited : s₂.limited with
        | none =>
            rw [hlimited] at hstep
            rw [loop_fail hpc hstep, hstep]
            rfl
        | some s₃ =>
            obtain ⟨rfl, -⟩ := limited_eq_some hlimited
            rw [hlimited] at hstep
            rw [loop_step hpc hstep, ih (Nat.le_of_lt_succ (hlt.trans_le hn)) hvfExec₂ hrest]
            rfl

/-! ## At the first `OP_CHECKMULTISIG` -/

/-- The copy's condition, the iterator behind the opcode: there are keys, and as many pairs of a key
and a signature of it as signatures are asked for. -/
def PairsSuffice (ctx : SigContext) (s : EvalState) : Prop :=
  ∃ args, partialArgs s.nOpCount s.stack = some args ∧ endsTrue (some s.stack) = true ∧
    args.nSigsCount ≤ ctx.okCount scriptVerifyP2sh (scriptCode s.pbegincodehash args.sigs)
      args.keys args.sigs

/-- Each signature is one by a key, in the order of the keys. -/
def InOrder (ctx : SigContext) (s : EvalState) (args : MultiSigArgs) : Prop :=
  List.SublistForall₂ (fun vchSig vchPubKey ↦
    ctx.checkSig vchSig vchPubKey (scriptCode s.pbegincodehash args.sigs) = true)
    args.sigs args.keys

/-- The condition of the network, the iterator behind the opcode: the signatures that are asked for
are there, and a further element; and with the verdict whether they are in order, the rest of the
script ends with a true value. -/
def OrderSuffices (ctx : SigContext) (opcode : UInt8) (s : EvalState) : Prop :=
  ∃ args nOpCount fSuccess stack s',
    multiSigArgs s.nOpCount s.stack = some (args, nOpCount) ∧
      (fSuccess = true ↔ InOrder ctx s args) ∧
      pushVerdict (opcode == opCheckmultisigverify) fSuccess args.rest = some stack ∧
      limited { s with stack := stack, nOpCount := nOpCount } = some s' ∧ Accepts ctx s'

theorem countMultiSig_iff :
    endsTrue (s.countMultiSig ctx scriptVerifyP2sh) = true ↔ PairsSuffice ctx s := by
  rw [countMultiSig, PairsSuffice]
  cases hargs : partialArgs s.nOpCount s.stack with
  | none => exact iff_of_false (by simp [endsTrue]) (by simp)
  | some args =>
      change endsTrue (if _ then none else some s.stack) = true ↔ _
      split
      case isTrue hlt =>
        refine iff_of_false (by simp [endsTrue]) ?_
        rintro ⟨args', hargs', -, hle⟩
        obtain rfl := Option.some.inj hargs'
        exact absurd hlt (Nat.not_lt.mpr hle)
      case isFalse hlt =>
        constructor
        · exact fun hend ↦ ⟨args, rfl, hend, Nat.le_of_not_lt hlt⟩
        · rintro ⟨-, -, hend, -⟩
          exact hend

theorem instruction_of_isCheckMultiSig {crypto : Crypto} {opcode : UInt8}
    (h : isCheckMultiSig opcode = true) :
    instruction crypto opcode = .checkMultiSig (opcode == opCheckmultisigverify) := by
  rw [isCheckMultiSig, Bool.or_eq_true, beq_iff_eq, beq_iff_eq] at h
  rcases h with rfl | rfl
  · rfl
  · rfl

theorem ret_checkMultiSig (verify : Bool) :
    (s.checkMultiSig ctx scriptVerifyP2sh verify).ret =
      (multiSigArgs s.nOpCount s.stack).bind fun p ↦
        (pushVerdict verify (Matching.greedy (fun vchSig vchPubKey ↦
          ctx.checkSig vchSig vchPubKey (scriptCode s.pbegincodehash p.1.sigs)) p.1.sigs p.1.keys)
            p.1.rest).map fun stack ↦ { s with stack := stack, nOpCount := p.2 } := by
  rw [checkMultiSig]
  cases multiSigArgs s.nOpCount s.stack with
  | none => rfl
  | some p =>
      obtain ⟨args, nOpCount⟩ := p
      dsimp only
      rw [SigContext.matchSigs_p2sh, Option.bind_some]
      generalize Matching.greedy _ args.sigs args.keys = fSuccess
      change Option.bind (pushVerdict verify fSuccess args.rest) _ = _
      cases pushVerdict verify fSuccess args.rest with
      | none => rfl
      | some stack => rfl

theorem ret_step_of_isCheckMultiSig (hfetch : s.fetch = some (op, s')) (hvfExec : s.vfExec = [])
    (hop : isCheckMultiSig op.opcodeRet = true) :
    (s.step ctx scriptVerifyP2sh).ret =
      (s'.checkMultiSig ctx scriptVerifyP2sh (op.opcodeRet == opCheckmultisigverify)).ret.bind
        limited := by
  obtain ⟨-, -, -, -, hs', -⟩ := fetch_eq_some hfetch
  have hexec : s'.fExec = true := by
    rw [fExec, hs', hvfExec]
    rfl
  have hdata : ¬ op.opcodeRet ≤ opPushdata4 := by
    intro hle
    rw [isCheckMultiSig, Bool.or_eq_true, beq_iff_eq, beq_iff_eq] at hop
    rcases hop with hop | hop
    · rw [hop] at hle
      exact absurd hle (by decide)
    · rw [hop] at hle
      exact absurd hle (by decide)
  rw [step_eq hfetch, if_neg fun h ↦ hdata h.2, if_pos (Or.inl hexec),
    instruction_of_isCheckMultiSig hop]
  rfl

/-- What ends with a true value got through every step. -/
theorem endsTrue_bind_iff {α : Type} {x : Option α} {f : α → Option Stack} :
    endsTrue (x.bind f) = true ↔ ∃ a, x = some a ∧ endsTrue (f a) = true := by
  cases x with
  | none => exact iff_of_false Bool.false_ne_true nofun
  | some a =>
      constructor
      · exact fun h ↦ ⟨a, rfl, h⟩
      · rintro ⟨_, ⟨⟩, h⟩
        exact h

/-- What the interpreter makes of the first `OP_CHECKMULTISIG`. -/
theorem accepts_iff (hfetch : s.fetch = some (op, s')) (hvfExec : s.vfExec = [])
    (hop : isCheckMultiSig op.opcodeRet = true) :
    Accepts ctx s ↔ OrderSuffices ctx op.opcodeRet s' := by
  obtain ⟨hread', hread, -⟩ := fetch_eq_some hfetch
  have hpc : s.pc ≠ [] := by
    rintro hnil
    rw [hread', hnil] at hread
    cases hread
  rw [Accepts, ret_loop_step hpc, ret_step_of_isCheckMultiSig hfetch hvfExec hop,
    ret_checkMultiSig]
  simp only [Option.bind_assoc, endsTrue_bind_iff, Option.map_eq_some_iff]
  constructor
  · rintro ⟨⟨args, nOpCount⟩, hargs, _, ⟨stack, hpush, rfl⟩, s₂, hlimited, haccepts⟩
    refine ⟨args, nOpCount, _, stack, s₂, hargs, Matching.greedy_iff, hpush, hlimited, ?_⟩
    exact endsTrue_bind_iff.mpr haccepts
  · rintro ⟨args, nOpCount, fSuccess, stack, s₂, hargs, hverdict, hpush, hlimited, haccepts⟩
    have hgreedy : Matching.greedy (fun vchSig vchPubKey ↦
        ctx.checkSig vchSig vchPubKey (scriptCode s'.pbegincodehash args.sigs)) args.sigs
          args.keys = fSuccess := by
      rw [Bool.eq_iff_iff, hverdict]
      exact Matching.greedy_iff
    exact ⟨(args, nOpCount), hargs, _, ⟨stack, hgreedy.symm ▸ hpush, rfl⟩, s₂, hlimited,
      endsTrue_bind_iff.mp haccepts⟩

/-- **Where both agree**, from the start of a script: if the copy gets to the end of the script or
finds enough pairs, then no stack was too large, and the signatures are in order and the rest of
the script ends with a true value. -/
def Agrees (ctx : SigContext) (s : EvalState) : Prop :=
  ∀ within last, approach ctx s.pc.length s = some (within, last) →
    (last.pc = [] → endsTrue (some last.stack) = true → within = true) ∧
    ∀ op s', last.fetch = some (op, s') → PairsSuffice ctx s' →
      within = true ∧ OrderSuffices ctx op.opcodeRet s'

theorem fetch_eq_none_of_end (hpc : s.pc = []) : s.fetch = none := by
  rw [fetch, hpc]
  rfl

theorem accepts_end (hpc : s.pc = []) (hvfExec : s.vfExec = []) :
    Accepts ctx s ↔ endsTrue (some s.stack) = true := by
  rw [Accepts, loop_end _ hpc, Option.bind_some, result, if_pos hvfExec]

theorem sound_iff_agrees (hvfExec : s.vfExec = []) :
    (endsTrue (multiSigLoop ctx scriptVerifyP2sh s.pc.length s) = true → Accepts ctx s) ↔
      Agrees ctx s := by
  have hnone : ¬ endsTrue none = true := by decide
  rw [multiSigLoop_eq (le_refl _) hvfExec, Agrees]
  cases happroach : approach ctx s.pc.length s with
  | none => exact iff_of_true (fun h ↦ absurd h hnone) nofun
  | some p =>
      obtain ⟨within, last⟩ := p
      obtain ⟨hvfExecLast, hlast⟩ := approach_end (le_refl _) hvfExec happroach
      have haccepts : Accepts ctx s ↔ within = true ∧ Accepts ctx last := by
        rw [Accepts, loop_of_approach (le_refl _) hvfExec happroach]
        split
        case isTrue hwithin => exact (and_iff_right hwithin).symm
        case isFalse hwithin => exact iff_of_false hnone fun h ↦ hwithin h.1
      have hall {P : Bool → EvalState → Prop} :
          (∀ within' last', some (within, last) = some (within', last') → P within' last') ↔
            P within last := by
        refine ⟨fun h ↦ h _ _ rfl, ?_⟩
        rintro h _ _ ⟨⟩
        exact h
      rw [haccepts, Option.bind_some, countEnd, hall]
      by_cases hpc : last.pc = []
      · rw [if_pos hpc, accepts_end hpc hvfExecLast, fetch_eq_none_of_end hpc]
        constructor
        · exact fun h ↦ ⟨fun _ hend ↦ (h hend).1, nofun⟩
        · exact fun h hend ↦ ⟨h.1 hpc hend, hend⟩
      · rw [if_neg hpc]
        have hmulti := hlast.resolve_left hpc
        cases hfetch : last.fetch with
        | none =>
            exact iff_of_true (fun h ↦ absurd h hnone)
              ⟨fun h ↦ absurd h hpc, nofun⟩
        | some p =>
            obtain ⟨op, s'⟩ := p
            have hop : isCheckMultiSig op.opcodeRet = true := by
              rw [(fetch_eq_some hfetch).1]
              exact hmulti
            change (endsTrue (s'.countMultiSig ctx scriptVerifyP2sh) = true → _) ↔ _
            rw [countMultiSig_iff, accepts_iff hfetch hvfExecLast hop]
            constructor
            · refine fun h ↦ ⟨fun h ↦ absurd h hpc, ?_⟩
              rintro _ _ ⟨⟩
              exact h
            · exact fun h ↦ h.2 op s' rfl

/-- Where `OP_CHECKMULTISIG` is the last operation, the signatures have to be there and in order. -/
theorem orderSuffices_last (hpc : s.pc = []) (hvfExec : s.vfExec = [])
    (hsize : s.stack.length + s.altstack.length ≤ 1000) :
    OrderSuffices ctx opCheckmultisig s ↔
      ∃ args nOpCount, multiSigArgs s.nOpCount s.stack = some (args, nOpCount) ∧
        InOrder ctx s args := by
  have haccepts (fSuccess : Bool) (rest : Stack) (nOpCount : Nat) :
      Accepts ctx { s with
        stack := (if fSuccess then vchTrue else vchFalse) :: rest
        nOpCount := nOpCount } ↔ fSuccess = true := by
    refine (accepts_end (s := { s with
      stack := (if fSuccess then vchTrue else vchFalse) :: rest
      nOpCount := nOpCount }) hpc hvfExec).trans ?_
    cases fSuccess with
    | true => exact iff_of_true rfl rfl
    | false => exact iff_of_false (by simp [endsTrue, vchFalse, castToBool]) (by simp)
  constructor
  · rintro ⟨args, nOpCount, fSuccess, stack, s', hargs, hverdict, hpush, hlimited, h⟩
    obtain rfl := Option.some.inj hpush
    obtain ⟨rfl, -⟩ := limited_eq_some hlimited
    exact ⟨args, nOpCount, hargs, hverdict.mp ((haccepts fSuccess args.rest nOpCount).mp h)⟩
  · rintro ⟨args, nOpCount, hargs, horder⟩
    obtain ⟨_, nKeys, nSigs, -, -, -, -, hlength, -, -, hrest⟩ := multiSigArgs_eq_some hargs
    refine ⟨args, nOpCount, true, vchTrue :: args.rest,
      { s with stack := vchTrue :: args.rest, nOpCount := nOpCount }, hargs, iff_of_true rfl horder,
      rfl, ?_, (haccepts true args.rest nOpCount).mpr rfl⟩
    have hle : args.rest.length + 3 ≤ s.stack.length := by
      rw [hrest, List.length_drop]
      omega
    refine if_neg ?_
    dsimp only
    rw [List.length_cons]
    omega

end EvalState

/-! ## The theorem -/

/-- `scriptSig` pushes the script whose hash is paid to, and the stack below it. -/
def Redeems (ctx : SigContext) (scriptSig scriptPubKey redeem : CScript) (stack : Stack) : Prop :=
  (evalScript ctx (scriptVerifyP2sh ||| scriptVerifyStrictenc) [] scriptSig).ret =
      some (redeem :: stack) ∧
    endsTrue (evalScript ctx (scriptVerifyP2sh ||| scriptVerifyStrictenc) (redeem :: stack)
      scriptPubKey).ret = true ∧
    isPushOnly scriptSig = true ∧ redeem.length ≤ 10000

theorem verifyMultiSigScript_iff {scriptSig scriptPubKey : CScript}
    (hscript : isPayToScriptHash scriptPubKey = true) :
    verifyMultiSigScript ctx scriptSig scriptPubKey = some true ↔
      ∃ redeem stack, Redeems ctx scriptSig scriptPubKey redeem stack ∧
        endsTrue (evalMultiSigScript ctx scriptVerifyP2sh stack redeem) = true := by
  have hsize {redeem : CScript} {stack : Stack}
      (h : endsTrue (evalMultiSigScript ctx scriptVerifyP2sh stack redeem) = true) :
      redeem.length ≤ 10000 := by
    rw [evalMultiSigScript] at h
    split at h
    case isTrue => exact absurd h (by simp [endsTrue])
    case isFalse hle => exact Nat.le_of_not_lt hle
  constructor
  · intro h
    rw [verifyMultiSigScript] at h
    split at h
    case h_1 => cases h
    case h_2 stack heval =>
      split at h
      case isTrue => cases h
      case isFalse hend =>
        split at h
        case isTrue => cases h
        case isFalse hpush =>
          rw [Bool.not_eq_true', Bool.not_eq_false] at hend hpush
          cases stack with
          | nil => cases h
          | cons redeem stack =>
              have hcopy := Option.some.inj h
              exact ⟨redeem, stack, ⟨heval, hend, hpush, hsize hcopy⟩, hcopy⟩
  · rintro ⟨redeem, stack, ⟨heval, hend, hpush, -⟩, hcopy⟩
    rw [verifyMultiSigScript, heval]
    dsimp only
    rw [hend, if_neg (by simp), if_pos hscript, hpush, if_neg (by simp), hcopy]

theorem verifyScript_of_redeems {scriptSig scriptPubKey redeem : CScript} {stack : Stack}
    (hscript : isPayToScriptHash scriptPubKey = true)
    (h : Redeems ctx scriptSig scriptPubKey redeem stack) :
    (verifyScript ctx scriptVerifyP2sh scriptSig scriptPubKey).ret =
      some (endsTrue (evalScript ctx scriptVerifyP2sh stack redeem).ret) := by
  obtain ⟨heval, hend, hpush, -⟩ := h
  -- neither script has signature operations, so the flags do not matter
  have hsig : getSigOpCount scriptSig true = 0 := sigOpsFrom_of_isPushOnly (le_refl _) hpush
  rw [evalScript_flags [] hsig] at heval
  rw [evalScript_flags _ (getSigOpCount_of_isPayToScriptHash hscript)] at hend
  rw [verifyScript, heval]
  dsimp only
  rw [hend, if_neg (by simp), if_pos ⟨by decide, hscript⟩, hpush, if_neg (by simp)]

theorem evalMultiSigScript_eq {redeem : CScript} (stack : Stack) (h : redeem.length ≤ 10000) :
    evalMultiSigScript ctx scriptVerifyP2sh stack redeem =
      EvalState.multiSigLoop ctx scriptVerifyP2sh redeem.length
        { pc := redeem, pbegincodehash := redeem, stack := stack } := by
  rw [evalMultiSigScript, if_neg (Nat.not_lt.mpr h)]

theorem endsTrue_evalScript_iff {redeem : CScript} (stack : Stack) (h : redeem.length ≤ 10000) :
    endsTrue (evalScript ctx scriptVerifyP2sh stack redeem).ret = true ↔
      EvalState.Accepts ctx { pc := redeem, pbegincodehash := redeem, stack := stack } := by
  rw [evalScript, if_neg (Nat.not_lt.mpr h)]
  rfl

/-- **When the check of partial signatures can be relied on**: what it reports as fully signed is
accepted by the network, exactly if the copy and the interpreter agree on the script whose hash is
paid to. -/
theorem verifyMultiSigScript_sound_iff (ctx : SigContext) (scriptSig scriptPubKey : CScript)
    (hscript : isPayToScriptHash scriptPubKey = true) :
    (verifyMultiSigScript ctx scriptSig scriptPubKey = some true →
        (verifyScript ctx scriptVerifyP2sh scriptSig scriptPubKey).ret = some true) ↔
      ∀ redeem stack, Redeems ctx scriptSig scriptPubKey redeem stack →
        EvalState.Agrees ctx { pc := redeem, pbegincodehash := redeem, stack := stack } := by
  have hagrees {redeem : CScript} {stack : Stack}
      (h : Redeems ctx scriptSig scriptPubKey redeem stack) :
      (endsTrue (evalMultiSigScript ctx scriptVerifyP2sh stack redeem) = true →
          (verifyScript ctx scriptVerifyP2sh scriptSig scriptPubKey).ret = some true) ↔
        EvalState.Agrees ctx { pc := redeem, pbegincodehash := redeem, stack := stack } := by
    rw [verifyScript_of_redeems hscript h, Option.some_inj, endsTrue_evalScript_iff _ h.2.2.2,
      evalMultiSigScript_eq _ h.2.2.2]
    exact EvalState.sound_iff_agrees
      (s := { pc := redeem, pbegincodehash := redeem, stack := stack }) rfl
  rw [verifyMultiSigScript_iff hscript]
  constructor
  · intro hsound redeem stack hredeems
    exact (hagrees hredeems).mp fun hcopy ↦ hsound ⟨redeem, stack, hredeems, hcopy⟩
  · rintro h ⟨redeem, stack, hredeems, hcopy⟩
    exact (hagrees hredeems).mpr (h redeem stack hredeems) hcopy

/-! ### Two of two -/

/-- A signature is the key that it is by. -/
def sampleCrypto : Crypto where
  ripemd160 _ := Vector.replicate 20 0
  sha1 _ := Vector.replicate 20 0
  sha256 _ := Vector.replicate 32 0
  verify _ vchSig vchPubKey := vchSig == vchPubKey

def sampleContext : SigContext where
  crypto := sampleCrypto
  txTo := { vin := [{ prevout := ⟨1, 0⟩ }], vout := [] }
  nIn := 0

/-- `OP_2 7 8 OP_2 OP_CHECKMULTISIG`. -/
def sampleRedeem : CScript := [0x52, 1, 7, 1, 8, 0x52, opCheckmultisig]

def samplePubKeyScript : CScript := opHash160 :: 0x14 :: (List.replicate 20 0 ++ [opEqual])

/-- `OP_0`, two signatures of all inputs and outputs, and the script. -/
def sampleScriptSig (key1 key2 : UInt8) : CScript :=
  [0, 2, key1, 1, 2, key2, 1, 7] ++ sampleRedeem

/-- Signed by the one key and by the other. -/
theorem verifyMultiSigScript_sound_iff_sample :
    verifyMultiSigScript sampleContext (sampleScriptSig 7 8) samplePubKeyScript = some true ∧
      ∀ redeem stack,
        Redeems sampleContext (sampleScriptSig 7 8) samplePubKeyScript redeem stack →
        EvalState.Agrees sampleContext
          { pc := redeem, pbegincodehash := redeem, stack := stack } :=
  ⟨by decide +kernel,
    (verifyMultiSigScript_sound_iff sampleContext (sampleScriptSig 7 8) samplePubKeyScript
      (by decide)).mp fun _ ↦ by decide +kernel⟩

/-- Signed twice by the same key: reported as fully signed, and not accepted. -/
theorem verifyMultiSigScript_sound_fails :
    isPayToScriptHash samplePubKeyScript = true ∧
      verifyMultiSigScript sampleContext (sampleScriptSig 7 7) samplePubKeyScript = some true ∧
      (verifyScript sampleContext scriptVerifyP2sh (sampleScriptSig 7 7) samplePubKeyScript).ret =
        some false :=
  ⟨by decide, by decide +kernel, by decide +kernel⟩

end Fedoracoin
