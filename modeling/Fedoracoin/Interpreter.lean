import Fedoracoin.Signature

/-!
# The interpreter of scripts

`EvalScript` and `VerifyScript`.  A stack is the list of its elements, the top first, and an
iterator into the script is the list of the bytes from it to the end, as it is for `GetOp`.  Where
the source returns `false` or throws, what is left is `none`.

Beside its result an evaluation counts the calls of `CheckSig`, also where it fails.
-/

namespace Fedoracoin

open Wire

/-! ## Opcodes -/

def op1negate : UInt8 := 0x4f
def op1 : UInt8 := 0x51
def op16 : UInt8 := 0x60
def opNop : UInt8 := 0x61
def opIf : UInt8 := 0x63
def opNotif : UInt8 := 0x64
def opElse : UInt8 := 0x67
def opEndif : UInt8 := 0x68
def opVerify : UInt8 := 0x69
def opToaltstack : UInt8 := 0x6b
def opFromaltstack : UInt8 := 0x6c
def op2drop : UInt8 := 0x6d
def op2dup : UInt8 := 0x6e
def op3dup : UInt8 := 0x6f
def op2over : UInt8 := 0x70
def op2rot : UInt8 := 0x71
def op2swap : UInt8 := 0x72
def opIfdup : UInt8 := 0x73
def opDepth : UInt8 := 0x74
def opDrop : UInt8 := 0x75
def opDup : UInt8 := 0x76
def opNip : UInt8 := 0x77
def opOver : UInt8 := 0x78
def opPick : UInt8 := 0x79
def opRoll : UInt8 := 0x7a
def opRot : UInt8 := 0x7b
def opSwap : UInt8 := 0x7c
def opTuck : UInt8 := 0x7d
def opSize : UInt8 := 0x82
def opEqual : UInt8 := 0x87
def opEqualverify : UInt8 := 0x88
def op1add : UInt8 := 0x8b
def op1sub : UInt8 := 0x8c
def opNegate : UInt8 := 0x8f
def opAbs : UInt8 := 0x90
def opNot : UInt8 := 0x91
def op0notequal : UInt8 := 0x92
def opAdd : UInt8 := 0x93
def opSub : UInt8 := 0x94
def opBooland : UInt8 := 0x9a
def opBoolor : UInt8 := 0x9b
def opNumequal : UInt8 := 0x9c
def opNumequalverify : UInt8 := 0x9d
def opNumnotequal : UInt8 := 0x9e
def opLessthan : UInt8 := 0x9f
def opGreaterthan : UInt8 := 0xa0
def opLessthanorequal : UInt8 := 0xa1
def opGreaterthanorequal : UInt8 := 0xa2
def opMin : UInt8 := 0xa3
def opMax : UInt8 := 0xa4
def opWithin : UInt8 := 0xa5
def opRipemd160 : UInt8 := 0xa6
def opSha1 : UInt8 := 0xa7
def opSha256 : UInt8 := 0xa8
def opHash160 : UInt8 := 0xa9
def opHash256 : UInt8 := 0xaa
def opChecksig : UInt8 := 0xac
def opChecksigverify : UInt8 := 0xad
def opCheckmultisig : UInt8 := 0xae
def opCheckmultisigverify : UInt8 := 0xaf
def opNop1 : UInt8 := 0xb0
def opNop10 : UInt8 := 0xb9

/-- `OP_CAT` to `OP_RIGHT`, `OP_INVERT` to `OP_XOR`, `OP_2MUL`, `OP_2DIV`, `OP_MUL` to
`OP_RSHIFT`. -/
def disabledOpcodes : List UInt8 :=
  [0x7e, 0x7f, 0x80, 0x81, 0x83, 0x84, 0x85, 0x86, 0x8d, 0x8e, 0x95, 0x96, 0x97, 0x98, 0x99]

/-! ## Operations on the stack -/

abbrev Stack := List Valtype

/-- The end of the operations with a `VERIFY` form: the verdict is pushed, or asked for. -/
def pushVerdict (verify fSuccess : Bool) (stack : Stack) : Option Stack :=
  if verify then if fSuccess then some stack else none
  else some ((if fSuccess then vchTrue else vchFalse) :: stack)

namespace Stack

def verify : Stack → Option Stack
  | vch :: stack => if castToBool vch then some stack else none
  | [] => none

def drop2 : Stack → Option Stack
  | _ :: _ :: stack => some stack
  | _ => none

def dup2 : Stack → Option Stack
  | x2 :: x1 :: stack => some (x2 :: x1 :: x2 :: x1 :: stack)
  | _ => none

def dup3 : Stack → Option Stack
  | x3 :: x2 :: x1 :: stack => some (x3 :: x2 :: x1 :: x3 :: x2 :: x1 :: stack)
  | _ => none

def over2 : Stack → Option Stack
  | x4 :: x3 :: x2 :: x1 :: stack => some (x2 :: x1 :: x4 :: x3 :: x2 :: x1 :: stack)
  | _ => none

def rot2 : Stack → Option Stack
  | x6 :: x5 :: x4 :: x3 :: x2 :: x1 :: stack =>
      some (x2 :: x1 :: x6 :: x5 :: x4 :: x3 :: stack)
  | _ => none

def swap2 : Stack → Option Stack
  | x4 :: x3 :: x2 :: x1 :: stack => some (x2 :: x1 :: x4 :: x3 :: stack)
  | _ => none

def ifdup : Stack → Option Stack
  | x :: stack => some (if castToBool x then x :: x :: stack else x :: stack)
  | [] => none

def depth (stack : Stack) : Option Stack :=
  some (CScriptNum.serialize stack.length :: stack)

def drop1 : Stack → Option Stack
  | _ :: stack => some stack
  | [] => none

def dup : Stack → Option Stack
  | x :: stack => some (x :: x :: stack)
  | [] => none

def nip : Stack → Option Stack
  | x2 :: _ :: stack => some (x2 :: stack)
  | _ => none

def «over» : Stack → Option Stack
  | x2 :: x1 :: stack => some (x1 :: x2 :: x1 :: stack)
  | _ => none

/-- `OP_PICK`, or `OP_ROLL`.  `getint` reads the number on the top. -/
def pick (getint : Valtype → Option Int) (roll : Bool) : Stack → Option Stack
  | vch :: x :: stack => do
      let n ← getint vch
      if n < 0 ∨ ((x :: stack).length : Int) ≤ n then none
      else do
        let vch ← (x :: stack)[n.toNat]?
        return vch :: if roll then (x :: stack).eraseIdx n.toNat else x :: stack
  | _ => none

def rot : Stack → Option Stack
  | x3 :: x2 :: x1 :: stack => some (x1 :: x3 :: x2 :: stack)
  | _ => none

def swap : Stack → Option Stack
  | x2 :: x1 :: stack => some (x1 :: x2 :: stack)
  | _ => none

def tuck : Stack → Option Stack
  | x2 :: x1 :: stack => some (x2 :: x1 :: x2 :: stack)
  | _ => none

def size : Stack → Option Stack
  | x :: stack => some (CScriptNum.serialize x.length :: x :: stack)
  | [] => none

def equal (verify : Bool) : Stack → Option Stack
  | vch2 :: vch1 :: stack => pushVerdict verify (vch1 == vch2) stack
  | _ => none

def unary (f : CScriptNum → CScriptNum) : Stack → Option Stack
  | x :: stack => do
      let bn ← CScriptNum.ofVch x
      return CScriptNum.serialize (f bn) :: stack
  | [] => none

def binary (f : CScriptNum → CScriptNum → CScriptNum) : Stack → Option Stack
  | x2 :: x1 :: stack => do
      let bn1 ← CScriptNum.ofVch x1
      let bn2 ← CScriptNum.ofVch x2
      return CScriptNum.serialize (f bn1 bn2) :: stack
  | _ => none

def compare (f : CScriptNum → CScriptNum → Bool) : Stack → Option Stack :=
  binary fun bn1 bn2 ↦ .ofBool (f bn1 bn2)

def within : Stack → Option Stack
  | x3 :: x2 :: x1 :: stack => do
      let bn1 ← CScriptNum.ofVch x1
      let bn2 ← CScriptNum.ofVch x2
      let bn3 ← CScriptNum.ofVch x3
      pushVerdict false (decide (bn2 ≤ bn1) && decide (bn1 < bn3)) stack
  | _ => none

def hash {n : Nat} (h : List UInt8 → Vector UInt8 n) : Stack → Option Stack
  | vch :: stack => some ((h vch).toList :: stack)
  | [] => none

end Stack

/-- The cases of the `switch`. -/
inductive Instruction where
  /-- `OP_1NEGATE`, `OP_1` to `OP_16`. -/
  | pushNumber (n : Int)
  | nop
  /-- `OP_IF`, or `OP_NOTIF`. -/
  | branchIf (notif : Bool)
  | branchElse
  | branchEnd
  /-- The operations on the stack alone. -/
  | stack (f : Stack → Option Stack)
  | toAltStack
  | fromAltStack
  | codeSeparator
  | checkSig (verify : Bool)
  | checkMultiSig (verify : Bool)
  /-- `OP_RETURN` and what is not an operation. -/
  | fail

/-- The number on the top of the stack, for `OP_PICK`, `OP_ROLL` and `OP_CHECKMULTISIG`. -/
def scriptInt (vch : Valtype) : Option Int := (CScriptNum.ofVch vch).map CScriptNum.getint

/-- The labels of the `switch`, but for those of the numbers and of `OP_NOP`. -/
def switchLabels (crypto : Crypto) : List (UInt8 × Instruction) :=
  [
    (opIf, .branchIf false),
    (opNotif, .branchIf true),
    (opElse, .branchElse),
    (opEndif, .branchEnd),
    (opToaltstack, .toAltStack),
    (opFromaltstack, .fromAltStack),
    (opCodeseparator, .codeSeparator),
    (opChecksig, .checkSig false),
    (opChecksigverify, .checkSig true),
    (opCheckmultisig, .checkMultiSig false),
    (opCheckmultisigverify, .checkMultiSig true),
    (opVerify, .stack Stack.verify),
    (op2drop, .stack Stack.drop2),
    (op2dup, .stack Stack.dup2),
    (op3dup, .stack Stack.dup3),
    (op2over, .stack Stack.over2),
    (op2rot, .stack Stack.rot2),
    (op2swap, .stack Stack.swap2),
    (opIfdup, .stack Stack.ifdup),
    (opDepth, .stack Stack.depth),
    (opDrop, .stack Stack.drop1),
    (opDup, .stack Stack.dup),
    (opNip, .stack Stack.nip),
    (opOver, .stack Stack.over),
    (opPick, .stack (Stack.pick scriptInt false)),
    (opRoll, .stack (Stack.pick scriptInt true)),
    (opRot, .stack Stack.rot),
    (opSwap, .stack Stack.swap),
    (opTuck, .stack Stack.tuck),
    (opSize, .stack Stack.size),
    (opEqual, .stack (Stack.equal false)),
    (opEqualverify, .stack (Stack.equal true)),
    (op1add, .stack (Stack.unary fun bn ↦ bn + 1)),
    (op1sub, .stack (Stack.unary fun bn ↦ bn - 1)),
    (opNegate, .stack (Stack.unary fun bn ↦ -bn)),
    (opAbs, .stack (Stack.unary fun bn ↦ if bn < 0 then -bn else bn)),
    (opNot, .stack (Stack.unary fun bn ↦ .ofBool (bn = 0))),
    (op0notequal, .stack (Stack.unary fun bn ↦ .ofBool (bn ≠ 0))),
    (opAdd, .stack (Stack.binary fun bn1 bn2 ↦ bn1 + bn2)),
    (opSub, .stack (Stack.binary fun bn1 bn2 ↦ bn1 - bn2)),
    (opBooland, .stack (Stack.compare fun bn1 bn2 ↦ bn1 ≠ 0 ∧ bn2 ≠ 0)),
    (opBoolor, .stack (Stack.compare fun bn1 bn2 ↦ bn1 ≠ 0 ∨ bn2 ≠ 0)),
    (opNumequal, .stack (Stack.compare fun bn1 bn2 ↦ bn1 = bn2)),
    (opNumequalverify, .stack fun stack ↦
      Stack.compare (fun bn1 bn2 ↦ bn1 = bn2) stack >>= Stack.verify),
    (opNumnotequal, .stack (Stack.compare fun bn1 bn2 ↦ bn1 ≠ bn2)),
    (opLessthan, .stack (Stack.compare fun bn1 bn2 ↦ bn1 < bn2)),
    (opGreaterthan, .stack (Stack.compare fun bn1 bn2 ↦ bn2 < bn1)),
    (opLessthanorequal, .stack (Stack.compare fun bn1 bn2 ↦ bn1 ≤ bn2)),
    (opGreaterthanorequal, .stack (Stack.compare fun bn1 bn2 ↦ bn2 ≤ bn1)),
    (opMin, .stack (Stack.binary fun bn1 bn2 ↦ if bn1 < bn2 then bn1 else bn2)),
    (opMax, .stack (Stack.binary fun bn1 bn2 ↦ if bn2 < bn1 then bn1 else bn2)),
    (opWithin, .stack Stack.within),
    (opRipemd160, .stack (Stack.hash crypto.ripemd160)),
    (opSha1, .stack (Stack.hash crypto.sha1)),
    (opSha256, .stack (Stack.hash crypto.sha256)),
    (opHash160, .stack (Stack.hash crypto.hash160)),
    (opHash256, .stack (Stack.hash crypto.hash256))
  ]

/-- The case of an opcode. -/
def instruction (crypto : Crypto) (opcode : UInt8) : Instruction :=
  if opcode = op1negate ∨ op1 ≤ opcode ∧ opcode ≤ op16 then
    .pushNumber ((opcode.toNat : Int) - 0x50)
  else if opcode = opNop ∨ opNop1 ≤ opcode ∧ opcode ≤ opNop10 then .nop
  else ((switchLabels crypto).lookup opcode).getD .fail

/-- An opcode that is no label fails. -/
theorem mem_switchLabels {crypto : Crypto} {opcode : UInt8} {i : Instruction}
    (h : instruction crypto opcode = i) (hnumber : ∀ n, i ≠ .pushNumber n) (hnop : i ≠ .nop)
    (hfail : i ≠ .fail) : (opcode, i) ∈ switchLabels crypto := by
  rw [instruction] at h
  split at h
  case isTrue => exact absurd h.symm (hnumber _)
  case isFalse =>
    split at h
    case isTrue => exact absurd h.symm hnop
    case isFalse =>
      cases hlookup : (switchLabels crypto).lookup opcode with
      | none =>
          rw [hlookup] at h
          exact absurd h.symm hfail
      | some i' =>
          rw [hlookup] at h
          obtain rfl : i' = i := h
          obtain ⟨l₁, l₂, hsplit, -⟩ := List.lookup_eq_some_iff.mp hlookup
          rw [hsplit]
          exact List.mem_append_right l₁ (List.mem_cons_self ..)

theorem opcode_of_branch {crypto : Crypto} {opcode : UInt8} {i : Instruction}
    (h : instruction crypto opcode = i)
    (hi : (∃ notif, i = .branchIf notif) ∨ i = .branchElse ∨ i = .branchEnd) :
    opcode = opIf ∨ opcode = opNotif ∨ opcode = opElse ∨ opcode = opEndif := by
  have hmem : (opcode, i) ∈ switchLabels crypto := by
    rcases hi with ⟨notif, rfl⟩ | rfl | rfl
    · exact mem_switchLabels h (by simp) (by simp) (by simp)
    · exact mem_switchLabels h (by simp) (by simp) (by simp)
    · exact mem_switchLabels h (by simp) (by simp) (by simp)
  rcases hi with ⟨notif, rfl⟩ | rfl | rfl
  · simp only [switchLabels, List.mem_cons, Prod.mk.injEq, reduceCtorEq, and_false, or_false,
      List.not_mem_nil] at hmem
    exact hmem.elim (fun h ↦ Or.inl h.1) fun h ↦ Or.inr (Or.inl h.1)
  · simp only [switchLabels, List.mem_cons, Prod.mk.injEq, reduceCtorEq, and_false, and_true,
      false_or, or_false, List.not_mem_nil] at hmem
    exact Or.inr (Or.inr (Or.inl hmem))
  · simp only [switchLabels, List.mem_cons, Prod.mk.injEq, reduceCtorEq, and_false, and_true,
      false_or, or_false, List.not_mem_nil] at hmem
    exact Or.inr (Or.inr (Or.inr hmem))

/-! ## Signatures -/

/-- A result, if there is one, and how often `CheckSig` was called. -/
structure Counted (α : Type) where
  ret : Option α
  nCheckSig : Nat := 0

/-- `operator<<` of a script, of a vector. -/
def CScript.push (script : CScript) (b : Valtype) : CScript :=
  script ++
    (if b.length < opPushdata1.toNat then [UInt8.ofNat b.length]
      else if b.length ≤ 0xff then [opPushdata1, UInt8.ofNat b.length]
      else if b.length ≤ 0xffff then opPushdata2 :: toBytes 2 b.length
      else opPushdata4 :: toBytes 4 b.length) ++ b

/-- The script that is signed: the signatures are dropped from it. -/
def scriptCode (pbegincodehash : CScript) (sigs : List Valtype) : CScript :=
  sigs.foldl (fun code vchSig ↦ (findAndDelete code (CScript.push [] vchSig)).1) pbegincodehash

namespace SigContext

variable (ctx : SigContext) (flags : Nat)

/-- `IsCanonicalSignature(..) && IsCanonicalPubKey(..) && CheckSig(..)`. -/
def checkCanonicalSig (vchSig vchPubKey : Valtype) (code : CScript) : Counted Bool :=
  if isCanonicalSignature vchSig flags = some true ∧ isCanonicalPubKey vchPubKey flags = some true
  then { ret := some (ctx.checkSig vchSig vchPubKey code), nCheckSig := 1 }
  else { ret := some false }

/-- `OP_CHECKSIG`. -/
def evalCheckSig (verify : Bool) (pbegincodehash : CScript) : Stack → Counted Stack
  | vchPubKey :: vchSig :: stack =>
      if checkSignatureEncoding vchSig flags ≠ some true then { ret := none }
      else
        let check :=
          ctx.checkCanonicalSig flags vchSig vchPubKey (scriptCode pbegincodehash [vchSig])
        { check with ret := check.ret.bind (pushVerdict verify · stack) }
  | _ => { ret := none }

/-- The loop of `OP_CHECKMULTISIG`.  While there are signatures left there are as many keys. -/
def matchSigs (code : CScript) : (keys sigs : List Valtype) → Counted Bool
  | _, [] => { ret := some true }
  | [], _ :: _ => { ret := some false }
  | vchPubKey :: keys, vchSig :: sigs =>
      if checkSignatureEncoding vchSig flags ≠ some true then { ret := none }
      else
        let check := ctx.checkCanonicalSig flags vchSig vchPubKey code
        let left := if check.ret = some true then sigs else vchSig :: sigs
        if keys.length < left.length then { check with ret := some false }
        else
          let rest := matchSigs code keys left
          { ret := rest.ret, nCheckSig := check.nCheckSig + rest.nCheckSig }

end SigContext

/-- What `OP_CHECKMULTISIG` takes from the stack, the last of each kind first. -/
structure MultiSigArgs where
  keys : List Valtype
  sigs : List Valtype
  /-- The stack without them and the element that is popped in addition. -/
  rest : Stack

/-- The checks of the counts and of the stack, with the new `nOpCount`. -/
def multiSigArgs (nOpCount : Nat) (stack : Stack) : Option (MultiSigArgs × Nat) := do
  let nKeysCount ← scriptInt (← stack[0]?)
  if nKeysCount < 0 ∨ 20 < nKeysCount then none
  else do
    let nKeys := nKeysCount.toNat
    if 201 < nOpCount + nKeys then none
    else if stack.length < 2 + nKeys then none
    else do
      let nSigsCount ← scriptInt (← stack[1 + nKeys]?)
      if nSigsCount < 0 ∨ nKeysCount < nSigsCount then none
      else do
        let nSigs := nSigsCount.toNat
        if stack.length < 3 + nKeys + nSigs then none
        else
          return ({ keys := (stack.drop 1).take nKeys
                    sigs := (stack.drop (2 + nKeys)).take nSigs
                    rest := stack.drop (3 + nKeys + nSigs) }, nOpCount + nKeys)

/-- What the checks of `OP_CHECKMULTISIG` say. -/
theorem multiSigArgs_eq_some {nOpCount nOpCount' : Nat} {stack : Stack} {args : MultiSigArgs}
    (h : multiSigArgs nOpCount stack = some (args, nOpCount')) :
    ∃ (vch : Valtype) (nKeys nSigs : Nat), stack.head? = some vch ∧ scriptInt vch = some ↑nKeys ∧
      nKeys ≤ 20 ∧ nSigs ≤ nKeys ∧ 3 + nKeys + nSigs ≤ stack.length ∧
      nOpCount' = nOpCount + nKeys ∧ nOpCount' ≤ 201 ∧
      args = { keys := (stack.drop 1).take nKeys
               sigs := (stack.drop (2 + nKeys)).take nSigs
               rest := stack.drop (3 + nKeys + nSigs) } := by
  rw [multiSigArgs] at h
  obtain ⟨vch, hvch, h⟩ := Option.bind_eq_some_iff.mp h
  obtain ⟨nKeysCount, hcount, h⟩ := Option.bind_eq_some_iff.mp h
  split at h
  case isTrue => cases h
  case isFalse hkeys =>
    dsimp only at h
    split at h
    case isTrue => cases h
    case isFalse hops =>
      split at h
      case isTrue => cases h
      case isFalse =>
        obtain ⟨_, -, h⟩ := Option.bind_eq_some_iff.mp h
        obtain ⟨nSigsCount, -, h⟩ := Option.bind_eq_some_iff.mp h
        split at h
        case isTrue => cases h
        case isFalse hsigs =>
          split at h
          case isTrue => cases h
          case isFalse hlength =>
            obtain ⟨rfl, rfl⟩ := Prod.mk.inj (Option.some.inj h)
            obtain ⟨nKeys, rfl⟩ := Int.eq_ofNat_of_zero_le (by omega : 0 ≤ nKeysCount)
            obtain ⟨nSigs, rfl⟩ := Int.eq_ofNat_of_zero_le (by omega : 0 ≤ nSigsCount)
            simp only [Int.toNat_natCast] at hops hlength ⊢
            refine ⟨vch, nKeys, nSigs, ?_, hcount, by omega, by omega, by omega, rfl, by omega,
              rfl⟩
            rw [List.head?_eq_getElem?]
            exact hvch

/-! ## Evaluation -/

structure EvalState where
  pc : CScript
  pbegincodehash : CScript
  stack : Stack
  altstack : Stack := []
  /-- The innermost first. -/
  vfExec : List Bool := []
  nOpCount : Nat := 0

namespace EvalState

def fExec (s : EvalState) : Bool := s.vfExec.all id

/-- `OP_IF`. -/
def branchIf (notif : Bool) (s : EvalState) : Option EvalState :=
  if s.fExec then
    match s.stack with
    | vch :: stack =>
        let fValue := if notif then !castToBool vch else castToBool vch
        some { s with stack := stack, vfExec := fValue :: s.vfExec }
    | [] => none
  else some { s with vfExec := false :: s.vfExec }

def branchElse (s : EvalState) : Option EvalState :=
  match s.vfExec with
  | fValue :: vfExec => some { s with vfExec := (!fValue) :: vfExec }
  | [] => none

def branchEnd (s : EvalState) : Option EvalState :=
  match s.vfExec with
  | _ :: vfExec => some { s with vfExec := vfExec }
  | [] => none

def toAltStack (s : EvalState) : Option EvalState :=
  match s.stack with
  | vch :: stack => some { s with stack := stack, altstack := vch :: s.altstack }
  | [] => none

def fromAltStack (s : EvalState) : Option EvalState :=
  match s.altstack with
  | vch :: altstack => some { s with stack := vch :: s.stack, altstack := altstack }
  | [] => none

/-- `OP_CHECKMULTISIG`. -/
def checkMultiSig (ctx : SigContext) (flags : Nat) (verify : Bool) (s : EvalState) :
    Counted EvalState :=
  match multiSigArgs s.nOpCount s.stack with
  | none => { ret := none }
  | some (args, nOpCount) =>
      let check := ctx.matchSigs flags (scriptCode s.pbegincodehash args.sigs) args.keys args.sigs
      { check with
        ret := do
          let stack ← pushVerdict verify (← check.ret) args.rest
          return { s with stack := stack, nOpCount := nOpCount } }

/-- The `switch`; the iterator is behind the opcode. -/
def execute (ctx : SigContext) (flags : Nat) (s : EvalState) : Instruction → Counted EvalState
  | .pushNumber n => { ret := some { s with stack := CScriptNum.serialize n :: s.stack } }
  | .nop => { ret := some s }
  | .branchIf notif => { ret := s.branchIf notif }
  | .branchElse => { ret := s.branchElse }
  | .branchEnd => { ret := s.branchEnd }
  | .stack f => { ret := (f s.stack).map fun stack ↦ { s with stack := stack } }
  | .toAltStack => { ret := s.toAltStack }
  | .fromAltStack => { ret := s.fromAltStack }
  | .codeSeparator => { ret := some { s with pbegincodehash := s.pc } }
  | .checkSig verify =>
      let r := ctx.evalCheckSig flags verify s.pbegincodehash s.stack
      { r with ret := r.ret.map fun stack ↦ { s with stack := stack } }
  | .checkMultiSig verify => s.checkMultiSig ctx flags verify
  | .fail => { ret := none }

/-- The instruction is read: the checks before the `switch`. -/
def fetch (s : EvalState) : Option (OpRead × EvalState) :=
  let op := getOp2 s.pc
  if !op.fRet then none
  else if 520 < op.vchRet.length then none
  else if op16 < op.opcodeRet ∧ 201 < s.nOpCount + 1 then none
  else if op.opcodeRet ∈ disabledOpcodes then none
  else
    some (op,
      { s with
        pc := op.pc
        nOpCount := if op16 < op.opcodeRet then s.nOpCount + 1 else s.nOpCount })

variable {ctx : SigContext} {flags : Nat} {s s' : EvalState} {op : OpRead}

theorem fetch_eq_some (h : s.fetch = some (op, s')) :
    op = getOp2 s.pc ∧ op.fRet = true ∧ op.vchRet.length ≤ 520 ∧
      op.opcodeRet ∉ disabledOpcodes ∧
      s' = { s with
        pc := op.pc
        nOpCount := if op16 < op.opcodeRet then s.nOpCount + 1 else s.nOpCount } ∧
      (op16 < op.opcodeRet → s.nOpCount + 1 ≤ 201) := by
  rw [fetch] at h
  split at h
  case isTrue => cases h
  case isFalse hread =>
    split at h
    case isTrue => cases h
    case isFalse hsize =>
      split at h
      case isTrue => cases h
      case isFalse hcount =>
        split at h
        case isTrue => cases h
        case isFalse hdisabled =>
          obtain ⟨rfl, rfl⟩ := Prod.mk.inj (Option.some.inj h)
          refine ⟨rfl, by simpa using hread, Nat.le_of_not_lt hsize, hdisabled, rfl, fun hop ↦ ?_⟩
          rw [and_iff_right hop] at hcount
          exact Nat.le_of_not_lt hcount

/-- The `switch` leaves the iterator alone, and the conditionals unless the operation is one. -/
theorem frame_execute {i : Instruction} (h : (s.execute ctx flags i).ret = some s') :
    s'.pc = s.pc ∧
      ((∀ notif, i ≠ .branchIf notif) → i ≠ .branchElse → i ≠ .branchEnd →
        s'.vfExec = s.vfExec) := by
  cases i with
  | pushNumber n =>
      obtain rfl := Option.some.inj h
      exact ⟨rfl, fun _ _ _ ↦ rfl⟩
  | nop =>
      obtain rfl := Option.some.inj h
      exact ⟨rfl, fun _ _ _ ↦ rfl⟩
  | codeSeparator =>
      obtain rfl := Option.some.inj h
      exact ⟨rfl, fun _ _ _ ↦ rfl⟩
  | fail => exact absurd h (by simp [execute])
  | branchIf notif =>
      refine ⟨?_, fun hif ↦ absurd rfl (hif notif)⟩
      change s.branchIf notif = some s' at h
      rw [branchIf] at h
      split at h
      case isTrue =>
        split at h
        case h_1 => exact (congrArg EvalState.pc (Option.some.inj h)).symm
        case h_2 => cases h
      case isFalse => exact (congrArg EvalState.pc (Option.some.inj h)).symm
  | branchElse =>
      refine ⟨?_, fun _ helse ↦ absurd rfl helse⟩
      change s.branchElse = some s' at h
      rw [branchElse] at h
      split at h
      case h_1 => exact (congrArg EvalState.pc (Option.some.inj h)).symm
      case h_2 => cases h
  | branchEnd =>
      refine ⟨?_, fun _ _ hend ↦ absurd rfl hend⟩
      change s.branchEnd = some s' at h
      rw [branchEnd] at h
      split at h
      case h_1 => exact (congrArg EvalState.pc (Option.some.inj h)).symm
      case h_2 => cases h
  | toAltStack =>
      change s.toAltStack = some s' at h
      rw [toAltStack] at h
      split at h
      case h_1 =>
        obtain rfl := Option.some.inj h
        exact ⟨rfl, fun _ _ _ ↦ rfl⟩
      case h_2 => cases h
  | fromAltStack =>
      change s.fromAltStack = some s' at h
      rw [fromAltStack] at h
      split at h
      case h_1 =>
        obtain rfl := Option.some.inj h
        exact ⟨rfl, fun _ _ _ ↦ rfl⟩
      case h_2 => cases h
  | stack f =>
      obtain ⟨stack, -, rfl⟩ := Option.map_eq_some_iff.mp h
      exact ⟨rfl, fun _ _ _ ↦ rfl⟩
  | checkSig verify =>
      obtain ⟨stack, -, rfl⟩ := Option.map_eq_some_iff.mp h
      exact ⟨rfl, fun _ _ _ ↦ rfl⟩
  | checkMultiSig verify =>
      change (s.checkMultiSig ctx flags verify).ret = some s' at h
      rw [checkMultiSig] at h
      split at h
      case h_1 => cases h
      case h_2 =>
        obtain ⟨fSuccess, -, h⟩ := Option.bind_eq_some_iff.mp h
        obtain ⟨stack, -, h⟩ := Option.bind_eq_some_iff.mp h
        obtain rfl := Option.some.inj h
        exact ⟨rfl, fun _ _ _ ↦ rfl⟩

/-- "Size limits". -/
def limited (s : EvalState) : Option EvalState :=
  if 1000 < s.stack.length + s.altstack.length then none else some s

/-- The body of the loop. -/
def step (ctx : SigContext) (flags : Nat) (s : EvalState) : Counted EvalState :=
  match s.fetch with
  | none => { ret := none }
  | some (op, s) =>
      let r : Counted EvalState :=
        if s.fExec ∧ op.opcodeRet ≤ opPushdata4 then
          { ret := some { s with stack := op.vchRet :: s.stack } }
        else if s.fExec ∨ opIf ≤ op.opcodeRet ∧ op.opcodeRet ≤ opEndif then
          s.execute ctx flags (instruction ctx.crypto op.opcodeRet)
        else { ret := some s }
      { r with ret := r.ret.bind limited }

/-- The `if` in front of the `switch`. -/
theorem step_eq (hfetch : s.fetch = some (op, s')) :
    s.step ctx flags =
      let r : Counted EvalState :=
        if s'.fExec ∧ op.opcodeRet ≤ opPushdata4 then
          { ret := some { s' with stack := op.vchRet :: s'.stack } }
        else if s'.fExec ∨ opIf ≤ op.opcodeRet ∧ op.opcodeRet ≤ opEndif then
          s'.execute ctx flags (instruction ctx.crypto op.opcodeRet)
        else { ret := some s' }
      { r with ret := r.ret.bind limited } := by
  rw [step, hfetch]

theorem step_of_fetch_eq_none (hfetch : s.fetch = none) : s.step ctx flags = { ret := none } := by
  rw [step, hfetch]

theorem step_of_not_read (hread : (getOp2 s.pc).fRet = false) :
    s.step ctx flags = { ret := none } := by
  refine step_of_fetch_eq_none ?_
  rw [fetch, if_pos (by rw [hread]; rfl)]

theorem limited_eq_some (h : s.limited = some s') :
    s' = s ∧ s.stack.length + s.altstack.length ≤ 1000 := by
  rw [limited] at h
  split at h
  case isTrue => cases h
  case isFalse hle => exact ⟨(Option.some.inj h).symm, Nat.le_of_not_lt hle⟩

/-- A round takes an operation. -/
theorem pc_step (h : (s.step ctx flags).ret = some s') :
    (getOp2 s.pc).fRet = true ∧ s'.pc = (getOp2 s.pc).pc := by
  cases hfetch : s.fetch with
  | none =>
      rw [step_of_fetch_eq_none hfetch] at h
      cases h
  | some p =>
      obtain ⟨op, s₁⟩ := p
      obtain ⟨rfl, hread, -, -, hs₁, -⟩ := fetch_eq_some hfetch
      refine ⟨hread, ?_⟩
      rw [step_eq hfetch] at h
      obtain ⟨s₂, hexec, hlimited⟩ := Option.bind_eq_some_iff.mp h
      obtain ⟨rfl, -⟩ := limited_eq_some hlimited
      have hpc : s'.pc = s₁.pc := by
        split at hexec
        case isTrue => exact (congrArg EvalState.pc (Option.some.inj hexec)).symm
        case isFalse =>
          split at hexec
          case isTrue => exact (frame_execute hexec).1
          case isFalse => exact (congrArg EvalState.pc (Option.some.inj hexec)).symm
      rw [hpc, hs₁]

/-! ### Pushing -/

/-- What an opcode up to `OP_16` pushes; `OP_RESERVED` is no operation. -/
def pushedValue (op : OpRead) : Option Valtype :=
  if op.opcodeRet ≤ opPushdata4 then some op.vchRet
  else if op.opcodeRet = op1negate ∨ op1 ≤ op.opcodeRet ∧ op.opcodeRet ≤ op16 then
    some (CScriptNum.serialize ((op.opcodeRet.toNat : Int) - 0x50))
  else none

theorem opcode_of_mem_switchLabels {crypto : Crypto} {opcode : UInt8} {i : Instruction}
    (h : (opcode, i) ∈ switchLabels crypto) : op16 < opcode := by
  have hall : ((switchLabels crypto).map Prod.fst).all (fun p ↦ decide (op16 < p)) = true := rfl
  exact of_decide_eq_true (List.all_eq_true.mp hall opcode (List.mem_map_of_mem h))

theorem instruction_reserved {crypto : Crypto} {opcode : UInt8} (hle : opcode ≤ op16)
    (hnumber : ¬ (opcode = op1negate ∨ op1 ≤ opcode ∧ opcode ≤ op16)) :
    instruction crypto opcode = .fail := by
  have hnop : ¬ (opcode = opNop ∨ opNop1 ≤ opcode ∧ opcode ≤ opNop10) := by
    rintro (rfl | ⟨hge, -⟩)
    · exact absurd hle (by decide)
    · exact absurd (UInt8.le_trans hge hle) (by decide)
  rw [instruction, if_neg hnumber, if_neg hnop]
  cases hlookup : (switchLabels crypto).lookup opcode with
  | none => rfl
  | some i =>
      obtain ⟨l₁, l₂, hsplit, -⟩ := List.lookup_eq_some_iff.mp hlookup
      have hmem : (opcode, i) ∈ switchLabels crypto := by
        rw [hsplit]
        exact List.mem_append_right l₁ (List.mem_cons_self ..)
      exact absurd hle (UInt8.not_le.mpr (opcode_of_mem_switchLabels hmem))

/-- **An executed operation up to `OP_16` pushes**, whatever it is evaluated for. -/
theorem step_push (hfetch : s.fetch = some (op, s')) (hexec : s.fExec = true)
    (hle : op.opcodeRet ≤ op16) :
    s.step ctx flags =
      { ret := ((pushedValue op).map fun vch ↦ { s' with stack := vch :: s'.stack }).bind
          limited } := by
  obtain ⟨-, -, -, -, hs', -⟩ := fetch_eq_some hfetch
  have hexec' : s'.fExec = true := by
    rw [hs']
    exact hexec
  rw [step_eq hfetch, pushedValue]
  by_cases hdata : op.opcodeRet ≤ opPushdata4
  · rw [if_pos ⟨hexec', hdata⟩, if_pos hdata]
    rfl
  · rw [if_neg fun h ↦ hdata h.2, if_neg hdata, if_pos (Or.inl hexec')]
    by_cases hnumber : op.opcodeRet = op1negate ∨ op1 ≤ op.opcodeRet ∧ op.opcodeRet ≤ op16
    · rw [if_pos hnumber, instruction, if_pos hnumber]
      rfl
    · rw [if_neg hnumber, instruction_reserved hle hnumber]
      rfl

theorem step_push_eq_some (hexec : s.fExec = true) (hle : (getOp2 s.pc).opcodeRet ≤ op16)
    (h : (s.step ctx flags).ret = some s') :
    ∃ vch, pushedValue (getOp2 s.pc) = some vch ∧ s'.stack = vch :: s.stack ∧
      s'.vfExec = s.vfExec := by
  cases hfetch : s.fetch with
  | none =>
      rw [step_of_fetch_eq_none hfetch] at h
      cases h
  | some p =>
      obtain ⟨op, s₁⟩ := p
      obtain ⟨rfl, -, -, -, hs₁, -⟩ := fetch_eq_some hfetch
      rw [step_push hfetch hexec hle] at h
      obtain ⟨s₂, hpushed, hlimited⟩ := Option.bind_eq_some_iff.mp h
      obtain ⟨vch, hvch, rfl⟩ := Option.map_eq_some_iff.mp hpushed
      obtain ⟨rfl, -⟩ := limited_eq_some hlimited
      refine ⟨vch, hvch, ?_, ?_⟩
      · rw [hs₁]
      · rw [hs₁]

/-! ### The loop -/

/-- The loop, for at most `n` rounds. -/
def loop (ctx : SigContext) (flags : Nat) : (n : Nat) → EvalState → Counted EvalState
  | 0, s => { ret := some s }
  | n + 1, s =>
      if s.pc = [] then { ret := some s }
      else
        let r := s.step ctx flags
        match r.ret with
        | none => r
        | some s =>
            let rest := loop ctx flags n s
            { rest with nCheckSig := r.nCheckSig + rest.nCheckSig }

/-- What is left at the end. -/
def result (s : EvalState) : Option Stack := if s.vfExec = [] then some s.stack else none

theorem loop_end (n : Nat) (hpc : s.pc = []) : loop ctx flags n s = { ret := some s } := by
  cases n with
  | zero => rfl
  | succ n => rw [loop, if_pos hpc]

theorem loop_fail {n : Nat} (hpc : s.pc ≠ []) (hstep : (s.step ctx flags).ret = none) :
    loop ctx flags (n + 1) s = s.step ctx flags := by
  rw [loop, if_neg hpc]
  dsimp only
  rw [hstep]

theorem loop_step {n : Nat} (hpc : s.pc ≠ []) (hstep : (s.step ctx flags).ret = some s') :
    loop ctx flags (n + 1) s =
      { ret := (loop ctx flags n s').ret
        nCheckSig := (s.step ctx flags).nCheckSig + (loop ctx flags n s').nCheckSig } := by
  rw [loop, if_neg hpc]
  dsimp only
  rw [hstep]

/-- One round for each byte is enough. -/
theorem loop_fuel {n m : Nat} (hn : s.pc.length ≤ n) (hm : s.pc.length ≤ m) :
    loop ctx flags n s = loop ctx flags m s := by
  induction n generalizing m s with
  | zero =>
      have hpc : s.pc = [] := List.eq_nil_of_length_eq_zero (Nat.le_zero.mp hn)
      rw [loop_end _ hpc, loop_end _ hpc]
  | succ n ih =>
      by_cases hpc : s.pc = []
      · rw [loop_end _ hpc, loop_end _ hpc]
      · cases m with
        | zero => exact absurd (List.eq_nil_of_length_eq_zero (Nat.le_zero.mp hm)) hpc
        | succ m =>
            cases hstep : (s.step ctx flags).ret with
            | none => rw [loop_fail hpc hstep, loop_fail hpc hstep]
            | some s₁ =>
                obtain ⟨hread, hpc₁⟩ := pc_step hstep
                have hlt := length_getOp2_lt hread
                rw [← hpc₁] at hlt
                rw [loop_step hpc hstep, loop_step hpc hstep,
                  ih (Nat.le_of_lt_succ (hlt.trans_le hn)) (Nat.le_of_lt_succ (hlt.trans_le hm))]

/-- What the loop leaves, by its first round. -/
theorem ret_loop_step (hpc : s.pc ≠ []) :
    (loop ctx flags s.pc.length s).ret =
      (s.step ctx flags).ret.bind fun s' ↦ (loop ctx flags s'.pc.length s').ret := by
  obtain ⟨n, hn⟩ := Nat.exists_eq_succ_of_ne_zero fun h ↦ hpc (List.length_eq_zero_iff.mp h)
  rw [hn]
  cases hstep : (s.step ctx flags).ret with
  | none =>
      rw [loop_fail hpc hstep, hstep]
      rfl
  | some s' =>
      obtain ⟨hread, hpc'⟩ := pc_step hstep
      have hlt := length_getOp2_lt hread
      rw [← hpc', hn] at hlt
      rw [loop_step hpc hstep, loop_fuel (Nat.le_of_lt_succ hlt) (le_refl _)]
      rfl

end EvalState

/-- `EvalScript`. -/
def evalScript (ctx : SigContext) (flags : Nat) (stack : Stack) (script : CScript) :
    Counted Stack :=
  if 10000 < script.length then { ret := none }
  else
    let r := EvalState.loop ctx flags script.length
      { pc := script, pbegincodehash := script, stack := stack }
    { r with ret := r.ret.bind EvalState.result }

/-! ## Verification -/

def isPayToScriptHash (script : CScript) : Bool :=
  script.length == 23 && script[0]? == some opHash160 && script[1]? == some 0x14 &&
    script[22]? == some opEqual

/-- `IsPushOnly`, for at most `n` opcodes. -/
def isPushOnlyLoop : (n : Nat) → (pc : CScript) → Bool
  | 0, _ => true
  | n + 1, pc =>
      if pc = [] then true
      else
        let op := getOp2 pc
        op.fRet && !decide (op16 < op.opcodeRet) && isPushOnlyLoop n op.pc

def isPushOnly (script : CScript) : Bool := isPushOnlyLoop script.length script

/-- Whether an evaluation ends with a true value. -/
def endsTrue (ret : Option Stack) : Bool :=
  match ret with
  | some (vch :: _) => castToBool vch
  | _ => false

/-- What `VerifyScript` returns, `none` if its `assert` fails, and the calls of `CheckSig` while it
evaluates the script whose hash is paid to. -/
structure Verification where
  ret : Option Bool
  redeemCheckSig : Nat := 0
deriving DecidableEq

/-- `VerifyScript`. -/
def verifyScript (ctx : SigContext) (flags : Nat) (scriptSig scriptPubKey : CScript) :
    Verification :=
  match (evalScript ctx flags [] scriptSig).ret with
  | none => { ret := some false }
  | some stack =>
      if !endsTrue (evalScript ctx flags stack scriptPubKey).ret then { ret := some false }
      else if flags &&& scriptVerifyP2sh ≠ 0 ∧ isPayToScriptHash scriptPubKey then
        if !isPushOnly scriptSig then { ret := some false }
        else
          match stack with
          | [] => { ret := none }
          | pubKeySerialized :: stackCopy =>
              let r := evalScript ctx flags stackCopy pubKeySerialized
              { ret := some (endsTrue r.ret), redeemCheckSig := r.nCheckSig }
      else { ret := some true }

end Fedoracoin
