import Fedoracoin.Interpreter
import Fedoracoin.Lib.Access

/-!
# The accesses of the interpreter

`EvalScript` once more, with every access to its vectors as the source makes it: an element that is
read, popped, erased or swapped is looked up by its position, and a position that does not exist is
an outcome of its own.  So is a byte that is read behind the end of the script, and a loop that does
not end.  `evalScriptAccess_eq` says that there is none of them, and that the interpreter of
`Interpreter` is this one.
-/

namespace Fedoracoin

open Access Wire

/-! ## Reading an operation -/

/-- `*pc++`. -/
def readByte : List UInt8 → Access (UInt8 × List UInt8)
  | b :: pc => .ok (b, pc)
  | [] => .outOfRange

/-- `k` bytes from `pc` on, and the iterator behind them. -/
def advanceBytes (k : Nat) (pc : List UInt8) : Access (List UInt8 × List UInt8) :=
  if pc.length < k then .outOfRange else .ok (pc.take k, pc.drop k)

/-- The size of an immediate operand; `none` is `return false`. -/
def getPushSizeAccess (opcode : UInt8) (pc : List UInt8) :
    Access (Option (Nat × List UInt8)) :=
  if opcode < opPushdata1 then .ok (some (opcode.toNat, pc))
  else if opcode = opPushdata1 then
    if pc.length < 1 then .ok none
    else do
      let (nSize, pc) ← readByte pc
      return some (nSize.toNat, pc)
  else if opcode = opPushdata2 then
    if pc.length < 2 then .ok none
    else do
      let (nSize, pc) ← advanceBytes 2 pc
      return some (ofBytes nSize, pc)
  else
    if pc.length < 4 then .ok none
    else do
      let (nSize, pc) ← advanceBytes 4 pc
      return some (ofBytes nSize, pc)

/-- The immediate operand. -/
def getOperandAccess (opcode : UInt8) (pc : List UInt8) : Access OpRead := do
  match ← getPushSizeAccess opcode pc with
  | none => return .fail pc
  | some (nSize, pc) =>
      if pc.length < nSize then return .fail pc
      else do
        let (vch, pc) ← advanceBytes nSize pc
        return ⟨true, opcode, vch, pc⟩

/-- `GetOp2`. -/
def getOp2Access (pc : List UInt8) : Access OpRead :=
  if pc = [] then .ok (.fail [])
  else if pc.length < 1 then .ok (.fail pc)
  else do
    let (opcode, pc) ← readByte pc
    if opcode ≤ opPushdata4 then getOperandAccess opcode pc
    else return ⟨true, opcode, [], pc⟩

theorem advanceBytes_of_le {k : Nat} {pc : List UInt8} (h : ¬ pc.length < k) :
    advanceBytes k pc = .ok (pc.take k, pc.drop k) := if_neg h

theorem getPushSizeAccess_eq (opcode : UInt8) (pc : List UInt8) :
    getPushSizeAccess opcode pc = .ok (getPushSize opcode pc) := by
  rw [getPushSizeAccess, getPushSize]
  split
  case isTrue => rfl
  case isFalse =>
    split
    case isTrue =>
      rw [readPushSize]
      cases pc with
      | nil => rfl
      | cons b pc => 
          rw [if_neg (by simp), if_neg (by simp), readByte, ok_bind, List.take_succ_cons,
            List.take_zero, ofBytes, ofBytes, Nat.mul_zero, Nat.add_zero]
          rfl
    case isFalse =>
      split
      case isTrue =>
        rw [readPushSize]
        split
        case isTrue => rfl
        case isFalse h =>
          rw [advanceBytes_of_le h]
          rfl
      case isFalse =>
        rw [readPushSize]
        split
        case isTrue => rfl
        case isFalse h =>
          rw [advanceBytes_of_le h]
          rfl

theorem getOp2Access_eq (pc : List UInt8) : getOp2Access pc = .ok (getOp2 pc) := by
  cases pc with
  | nil => rfl
  | cons opcode pc =>
      rw [getOp2Access, if_neg (List.cons_ne_nil opcode pc), if_neg (by simp), readByte, ok_bind,
        getOp2]
      dsimp only
      by_cases hpush : opcode ≤ opPushdata4
      · rw [if_pos hpush, if_pos hpush, getOperandAccess, getPushSizeAccess_eq, ok_bind]
        cases getPushSize opcode pc with
        | none => rfl
        | some p =>
            obtain ⟨nSize, pc⟩ := p
            dsimp only
            split
            case isTrue => rfl
            case isFalse h =>
              rw [advanceBytes_of_le h]
              rfl
      · rw [if_neg hpush, if_neg hpush]
        rfl

/-! ## The operations on the stack -/

/-- What a `VERIFY` form does with the verdict that was pushed. -/
def verifyAccess (verify fSuccess : Bool) (stack : Stack) : Access Stack :=
  if verify then if fSuccess then pop stack else .reject else .ok stack

namespace StackAccess

def verify (stack : Stack) : Access Stack := do
  require (1 ≤ stack.length)
  let vch ← top stack 1
  if castToBool vch then pop stack else .reject

def drop2 (stack : Stack) : Access Stack := do
  require (2 ≤ stack.length)
  let stack ← pop stack
  pop stack

def dup2 (stack : Stack) : Access Stack := do
  require (2 ≤ stack.length)
  let vch1 ← top stack 2
  let vch2 ← top stack 1
  return vch2 :: vch1 :: stack

def dup3 (stack : Stack) : Access Stack := do
  require (3 ≤ stack.length)
  let vch1 ← top stack 3
  let vch2 ← top stack 2
  let vch3 ← top stack 1
  return vch3 :: vch2 :: vch1 :: stack

def over2 (stack : Stack) : Access Stack := do
  require (4 ≤ stack.length)
  let vch1 ← top stack 4
  let vch2 ← top stack 3
  return vch2 :: vch1 :: stack

def rot2 (stack : Stack) : Access Stack := do
  require (6 ≤ stack.length)
  let vch1 ← top stack 6
  let vch2 ← top stack 5
  let stack ← eraseRange stack 6 4
  return vch2 :: vch1 :: stack

def swap2 (stack : Stack) : Access Stack := do
  require (4 ≤ stack.length)
  let stack ← swapTop stack 4 2
  swapTop stack 3 1

def ifdup (stack : Stack) : Access Stack := do
  require (1 ≤ stack.length)
  let vch ← top stack 1
  return if castToBool vch then vch :: stack else stack

def depth (stack : Stack) : Access Stack := .ok (CScriptNum.serialize stack.length :: stack)

def drop1 (stack : Stack) : Access Stack := do
  require (1 ≤ stack.length)
  pop stack

def dup (stack : Stack) : Access Stack := do
  require (1 ≤ stack.length)
  let vch ← top stack 1
  return vch :: stack

def nip (stack : Stack) : Access Stack := do
  require (2 ≤ stack.length)
  eraseEnd stack 2

def «over» (stack : Stack) : Access Stack := do
  require (2 ≤ stack.length)
  let vch ← top stack 2
  return vch :: stack

def pick (roll : Bool) (stack : Stack) : Access Stack := do
  require (2 ≤ stack.length)
  let vch ← top stack 1
  let n ← ofOption (scriptInt vch)
  let stack ← pop stack
  require (¬ (n < 0 ∨ (stack.length : Int) ≤ n))
  let vch ← top stack (n.toNat + 1)
  let stack ← if roll then eraseEnd stack (n.toNat + 1) else .ok stack
  return vch :: stack

def rot (stack : Stack) : Access Stack := do
  require (3 ≤ stack.length)
  let stack ← swapTop stack 3 2
  swapTop stack 2 1

def swap (stack : Stack) : Access Stack := do
  require (2 ≤ stack.length)
  swapTop stack 2 1

def tuck (stack : Stack) : Access Stack := do
  require (2 ≤ stack.length)
  let vch ← top stack 1
  insertEnd stack 2 vch

def size (stack : Stack) : Access Stack := do
  require (1 ≤ stack.length)
  let vch ← top stack 1
  return CScriptNum.serialize vch.length :: stack

def equal (verify : Bool) (stack : Stack) : Access Stack := do
  require (2 ≤ stack.length)
  let vch1 ← top stack 2
  let vch2 ← top stack 1
  let fEqual := vch1 == vch2
  let stack ← pop stack
  let stack ← pop stack
  verifyAccess verify fEqual ((if fEqual then vchTrue else vchFalse) :: stack)

def unary (f : CScriptNum → CScriptNum) (stack : Stack) : Access Stack := do
  require (1 ≤ stack.length)
  let vch ← top stack 1
  let bn ← ofOption (CScriptNum.ofVch vch)
  let stack ← pop stack
  return CScriptNum.serialize (f bn) :: stack

def binary (f : CScriptNum → CScriptNum → CScriptNum) (stack : Stack) : Access Stack := do
  require (2 ≤ stack.length)
  let vch1 ← top stack 2
  let bn1 ← ofOption (CScriptNum.ofVch vch1)
  let vch2 ← top stack 1
  let bn2 ← ofOption (CScriptNum.ofVch vch2)
  let stack ← pop stack
  let stack ← pop stack
  return CScriptNum.serialize (f bn1 bn2) :: stack

def compare (f : CScriptNum → CScriptNum → Bool) (stack : Stack) : Access Stack :=
  binary (fun bn1 bn2 ↦ .ofBool (f bn1 bn2)) stack

/-- `OP_NUMEQUALVERIFY`: the number that was pushed is looked at again. -/
def numequalverify (stack : Stack) : Access Stack := do
  let stack ← compare (fun bn1 bn2 ↦ bn1 = bn2) stack
  let vch ← top stack 1
  if castToBool vch then pop stack else .reject

def within (stack : Stack) : Access Stack := do
  require (3 ≤ stack.length)
  let vch1 ← top stack 3
  let bn1 ← ofOption (CScriptNum.ofVch vch1)
  let vch2 ← top stack 2
  let bn2 ← ofOption (CScriptNum.ofVch vch2)
  let vch3 ← top stack 1
  let bn3 ← ofOption (CScriptNum.ofVch vch3)
  let fValue := decide (bn2 ≤ bn1) && decide (bn1 < bn3)
  let stack ← pop stack
  let stack ← pop stack
  let stack ← pop stack
  return (if fValue then vchTrue else vchFalse) :: stack

def hash {n : Nat} (h : List UInt8 → Vector UInt8 n) (stack : Stack) : Access Stack := do
  require (1 ≤ stack.length)
  let vch ← top stack 1
  let stack ← pop stack
  return (h vch).toList :: stack

/-! ### No access is out of range -/

theorem verify_eq (stack : Stack) : verify stack = ofOption (Stack.verify stack) := by
  rcases stack with _ | ⟨x1, stack⟩
  · rfl
  · exact (apply_ite ofOption (castToBool x1 = true) (some stack) none).symm

theorem drop2_eq (stack : Stack) : drop2 stack = ofOption (Stack.drop2 stack) := by
  rcases stack with _ | ⟨x2, _ | ⟨x1, stack⟩⟩
  · rfl
  · rfl
  · rfl

theorem dup2_eq (stack : Stack) : dup2 stack = ofOption (Stack.dup2 stack) := by
  rcases stack with _ | ⟨x2, _ | ⟨x1, stack⟩⟩
  · rfl
  · rfl
  · rfl

theorem dup3_eq (stack : Stack) : dup3 stack = ofOption (Stack.dup3 stack) := by
  rcases stack with _ | ⟨x3, _ | ⟨x2, _ | ⟨x1, stack⟩⟩⟩
  · rfl
  · rfl
  · rfl
  · rfl

theorem over2_eq (stack : Stack) : over2 stack = ofOption (Stack.over2 stack) := by
  rcases stack with _ | ⟨x4, _ | ⟨x3, _ | ⟨x2, _ | ⟨x1, stack⟩⟩⟩⟩
  · rfl
  · rfl
  · rfl
  · rfl
  · rfl

theorem rot2_eq (stack : Stack) : rot2 stack = ofOption (Stack.rot2 stack) := by
  rcases stack with _ | ⟨x6, _ | ⟨x5, _ | ⟨x4, _ | ⟨x3, _ | ⟨x2, _ | ⟨x1, stack⟩⟩⟩⟩⟩⟩
  · rfl
  · rfl
  · rfl
  · rfl
  · rfl
  · rfl
  · rfl

theorem swap2_eq (stack : Stack) : swap2 stack = ofOption (Stack.swap2 stack) := by
  rcases stack with _ | ⟨x4, _ | ⟨x3, _ | ⟨x2, _ | ⟨x1, stack⟩⟩⟩⟩
  · rfl
  · rfl
  · rfl
  · rfl
  · rfl

theorem ifdup_eq (stack : Stack) : ifdup stack = ofOption (Stack.ifdup stack) := by
  rcases stack with _ | ⟨x1, stack⟩
  · rfl
  · rfl

theorem depth_eq (stack : Stack) : depth stack = ofOption (Stack.depth stack) := by
  rfl

theorem drop1_eq (stack : Stack) : drop1 stack = ofOption (Stack.drop1 stack) := by
  rcases stack with _ | ⟨x1, stack⟩
  · rfl
  · rfl

theorem dup_eq (stack : Stack) : dup stack = ofOption (Stack.dup stack) := by
  rcases stack with _ | ⟨x1, stack⟩
  · rfl
  · rfl

theorem nip_eq (stack : Stack) : nip stack = ofOption (Stack.nip stack) := by
  rcases stack with _ | ⟨x2, _ | ⟨x1, stack⟩⟩
  · rfl
  · rfl
  · rfl

theorem over_eq (stack : Stack) : «over» stack = ofOption (Stack.«over» stack) := by
  rcases stack with _ | ⟨x2, _ | ⟨x1, stack⟩⟩
  · rfl
  · rfl
  · rfl

theorem rot_eq (stack : Stack) : rot stack = ofOption (Stack.rot stack) := by
  rcases stack with _ | ⟨x3, _ | ⟨x2, _ | ⟨x1, stack⟩⟩⟩
  · rfl
  · rfl
  · rfl
  · rfl

theorem swap_eq (stack : Stack) : swap stack = ofOption (Stack.swap stack) := by
  rcases stack with _ | ⟨x2, _ | ⟨x1, stack⟩⟩
  · rfl
  · rfl
  · rfl

theorem tuck_eq (stack : Stack) : tuck stack = ofOption (Stack.tuck stack) := by
  rcases stack with _ | ⟨x2, _ | ⟨x1, stack⟩⟩
  · rfl
  · rfl
  · rfl

theorem size_eq (stack : Stack) : size stack = ofOption (Stack.size stack) := by
  rcases stack with _ | ⟨x1, stack⟩
  · rfl
  · rfl

/-- `OP_PICK` and `OP_ROLL`: the number is compared with the size of the stack before it is used. -/
theorem pick_eq (roll : Bool) (stack : Stack) :
    pick roll stack = ofOption (Stack.pick scriptInt roll stack) := by
  rcases stack with _ | ⟨vch, _ | ⟨x, stack⟩⟩
  · rfl
  · rfl
  · change (ofOption (scriptInt vch) >>= _) = _
    rw [Stack.pick, Option.bind_eq_bind, ofOption_bind]
    congr 1
    funext n
    change (require _ >>= _) = _
    by_cases hout : n < 0 ∨ ((x :: stack).length : Int) ≤ n
    · rw [require_neg (not_not_intro hout), if_pos hout]
      rfl
    · have hlt : n.toNat < (x :: stack).length := by omega
      rw [require_pos hout, ok_bind, top_of_getElem? (List.getElem?_eq_getElem hlt), ok_bind,
        eraseEnd_of_lt hlt, if_neg hout, List.getElem?_eq_getElem hlt]
      cases roll with
      | true => rfl
      | false => rfl

theorem verifyAccess_eq (verify fSuccess : Bool) (stack : Stack) :
    verifyAccess verify fSuccess ((if fSuccess then vchTrue else vchFalse) :: stack) =
      ofOption (pushVerdict verify fSuccess stack) := by
  cases verify with
  | true =>
      cases fSuccess with
      | true => rfl
      | false => rfl
  | false => rfl

theorem equal_eq (verify : Bool) (stack : Stack) :
    equal verify stack = ofOption (Stack.equal verify stack) := by
  rcases stack with _ | ⟨x2, _ | ⟨x1, stack⟩⟩
  · rfl
  · rfl
  · exact verifyAccess_eq verify (x1 == x2) stack

theorem unary_eq (f : CScriptNum → CScriptNum) (stack : Stack) :
    unary f stack = ofOption (Stack.unary f stack) := by
  rcases stack with _ | ⟨x, stack⟩
  · rfl
  · rw [Stack.unary, Option.bind_eq_bind, ofOption_bind]
    rfl

theorem binary_eq (f : CScriptNum → CScriptNum → CScriptNum) (stack : Stack) :
    binary f stack = ofOption (Stack.binary f stack) := by
  rcases stack with _ | ⟨x2, _ | ⟨x1, stack⟩⟩
  · rfl
  · rfl
  · rw [Stack.binary, Option.bind_eq_bind, ofOption_bind]
    change (ofOption (CScriptNum.ofVch x1) >>= _) = _
    congr 1
    funext bn1
    rw [ofOption_bind]
    rfl

theorem compare_eq (f : CScriptNum → CScriptNum → Bool) (stack : Stack) :
    compare f stack = ofOption (Stack.compare f stack) := binary_eq _ stack

theorem numequalverify_eq (stack : Stack) : numequalverify stack =
    ofOption (Stack.compare (fun bn1 bn2 ↦ bn1 = bn2) stack >>= Stack.verify) := by
  rw [numequalverify, compare_eq, Option.bind_eq_bind, ofOption_bind]
  cases hcompare : Stack.compare (fun bn1 bn2 ↦ bn1 = bn2) stack with
  | none => rfl
  | some stack' =>
      rcases stack with _ | ⟨x2, _ | ⟨x1, stack⟩⟩
      · exact absurd hcompare (by simp [Stack.compare, Stack.binary])
      · exact absurd hcompare (by simp [Stack.compare, Stack.binary])
      · obtain ⟨bn1, -, h⟩ := Option.bind_eq_some_iff.mp hcompare
        obtain ⟨bn2, -, h⟩ := Option.bind_eq_some_iff.mp h
        obtain rfl := Option.some.inj h
        rw [ofOption_some, ok_bind, ok_bind, ← verify_eq]
        rfl

theorem within_eq (stack : Stack) : within stack = ofOption (Stack.within stack) := by
  rcases stack with _ | ⟨x3, _ | ⟨x2, _ | ⟨x1, stack⟩⟩⟩
  · rfl
  · rfl
  · rfl
  · rw [Stack.within, Option.bind_eq_bind, ofOption_bind]
    change (ofOption (CScriptNum.ofVch x1) >>= _) = _
    congr 1
    funext bn1
    rw [ofOption_bind]
    change (ofOption (CScriptNum.ofVch x2) >>= _) = _
    congr 1
    funext bn2
    rw [ofOption_bind]
    rfl

theorem hash_eq {n : Nat} (h : List UInt8 → Vector UInt8 n) (stack : Stack) :
    hash h stack = ofOption (Stack.hash h stack) := by
  rcases stack with _ | ⟨x, stack⟩
  · rfl
  · rfl

end StackAccess

/-- The cases of the `switch` that are operations on the stack alone. -/
def stackLabels (crypto : Crypto) : List (UInt8 × (Stack → Access Stack)) :=
  [
    (opVerify, StackAccess.verify),
    (op2drop, StackAccess.drop2),
    (op2dup, StackAccess.dup2),
    (op3dup, StackAccess.dup3),
    (op2over, StackAccess.over2),
    (op2rot, StackAccess.rot2),
    (op2swap, StackAccess.swap2),
    (opIfdup, StackAccess.ifdup),
    (opDepth, StackAccess.depth),
    (opDrop, StackAccess.drop1),
    (opDup, StackAccess.dup),
    (opNip, StackAccess.nip),
    (opOver, StackAccess.over),
    (opPick, StackAccess.pick false),
    (opRoll, StackAccess.pick true),
    (opRot, StackAccess.rot),
    (opSwap, StackAccess.swap),
    (opTuck, StackAccess.tuck),
    (opSize, StackAccess.size),
    (opEqual, StackAccess.equal false),
    (opEqualverify, StackAccess.equal true),
    (op1add, StackAccess.unary fun bn ↦ bn + 1),
    (op1sub, StackAccess.unary fun bn ↦ bn - 1),
    (opNegate, StackAccess.unary fun bn ↦ -bn),
    (opAbs, StackAccess.unary fun bn ↦ if bn < 0 then -bn else bn),
    (opNot, StackAccess.unary fun bn ↦ .ofBool (bn = 0)),
    (op0notequal, StackAccess.unary fun bn ↦ .ofBool (bn ≠ 0)),
    (opAdd, StackAccess.binary fun bn1 bn2 ↦ bn1 + bn2),
    (opSub, StackAccess.binary fun bn1 bn2 ↦ bn1 - bn2),
    (opBooland, StackAccess.compare fun bn1 bn2 ↦ bn1 ≠ 0 ∧ bn2 ≠ 0),
    (opBoolor, StackAccess.compare fun bn1 bn2 ↦ bn1 ≠ 0 ∨ bn2 ≠ 0),
    (opNumequal, StackAccess.compare fun bn1 bn2 ↦ bn1 = bn2),
    (opNumequalverify, StackAccess.numequalverify),
    (opNumnotequal, StackAccess.compare fun bn1 bn2 ↦ bn1 ≠ bn2),
    (opLessthan, StackAccess.compare fun bn1 bn2 ↦ bn1 < bn2),
    (opGreaterthan, StackAccess.compare fun bn1 bn2 ↦ bn2 < bn1),
    (opLessthanorequal, StackAccess.compare fun bn1 bn2 ↦ bn1 ≤ bn2),
    (opGreaterthanorequal, StackAccess.compare fun bn1 bn2 ↦ bn2 ≤ bn1),
    (opMin, StackAccess.binary fun bn1 bn2 ↦ if bn1 < bn2 then bn1 else bn2),
    (opMax, StackAccess.binary fun bn1 bn2 ↦ if bn2 < bn1 then bn1 else bn2),
    (opWithin, StackAccess.within),
    (opRipemd160, StackAccess.hash crypto.ripemd160),
    (opSha1, StackAccess.hash crypto.sha1),
    (opSha256, StackAccess.hash crypto.sha256),
    (opHash160, StackAccess.hash crypto.hash160),
    (opHash256, StackAccess.hash crypto.hash256)
  ]

/-- The operation of a label of the `switch`, if it is one on the stack alone. -/
def stackOperation : UInt8 × Instruction → Option (UInt8 × (Stack → Option Stack))
  | (opcode, .stack f) => some (opcode, f)
  | _ => none

/-- The two tables have the same operations. -/
theorem stackLabels_refine (crypto : Crypto) :
    List.Forall₂ (fun p q ↦ p.1 = q.1 ∧ ∀ stack, q.2 stack = ofOption (p.2 stack))
      ((switchLabels crypto).filterMap stackOperation) (stackLabels crypto) :=
  .cons ⟨rfl, StackAccess.verify_eq⟩ <| .cons ⟨rfl, StackAccess.drop2_eq⟩ <|
  .cons ⟨rfl, StackAccess.dup2_eq⟩ <| .cons ⟨rfl, StackAccess.dup3_eq⟩ <|
  .cons ⟨rfl, StackAccess.over2_eq⟩ <| .cons ⟨rfl, StackAccess.rot2_eq⟩ <|
  .cons ⟨rfl, StackAccess.swap2_eq⟩ <| .cons ⟨rfl, StackAccess.ifdup_eq⟩ <|
  .cons ⟨rfl, StackAccess.depth_eq⟩ <| .cons ⟨rfl, StackAccess.drop1_eq⟩ <|
  .cons ⟨rfl, StackAccess.dup_eq⟩ <| .cons ⟨rfl, StackAccess.nip_eq⟩ <|
  .cons ⟨rfl, StackAccess.over_eq⟩ <| .cons ⟨rfl, StackAccess.pick_eq false⟩ <|
  .cons ⟨rfl, StackAccess.pick_eq true⟩ <| .cons ⟨rfl, StackAccess.rot_eq⟩ <|
  .cons ⟨rfl, StackAccess.swap_eq⟩ <| .cons ⟨rfl, StackAccess.tuck_eq⟩ <|
  .cons ⟨rfl, StackAccess.size_eq⟩ <| .cons ⟨rfl, StackAccess.equal_eq false⟩ <|
  .cons ⟨rfl, StackAccess.equal_eq true⟩ <| .cons ⟨rfl, StackAccess.unary_eq _⟩ <|
  .cons ⟨rfl, StackAccess.unary_eq _⟩ <| .cons ⟨rfl, StackAccess.unary_eq _⟩ <|
  .cons ⟨rfl, StackAccess.unary_eq _⟩ <| .cons ⟨rfl, StackAccess.unary_eq _⟩ <|
  .cons ⟨rfl, StackAccess.unary_eq _⟩ <| .cons ⟨rfl, StackAccess.binary_eq _⟩ <|
  .cons ⟨rfl, StackAccess.binary_eq _⟩ <| .cons ⟨rfl, StackAccess.compare_eq _⟩ <|
  .cons ⟨rfl, StackAccess.compare_eq _⟩ <| .cons ⟨rfl, StackAccess.compare_eq _⟩ <|
  .cons ⟨rfl, StackAccess.numequalverify_eq⟩ <| .cons ⟨rfl, StackAccess.compare_eq _⟩ <|
  .cons ⟨rfl, StackAccess.compare_eq _⟩ <| .cons ⟨rfl, StackAccess.compare_eq _⟩ <|
  .cons ⟨rfl, StackAccess.compare_eq _⟩ <| .cons ⟨rfl, StackAccess.compare_eq _⟩ <|
  .cons ⟨rfl, StackAccess.binary_eq _⟩ <| .cons ⟨rfl, StackAccess.binary_eq _⟩ <|
  .cons ⟨rfl, StackAccess.within_eq⟩ <| .cons ⟨rfl, StackAccess.hash_eq _⟩ <|
  .cons ⟨rfl, StackAccess.hash_eq _⟩ <| .cons ⟨rfl, StackAccess.hash_eq _⟩ <|
  .cons ⟨rfl, StackAccess.hash_eq _⟩ <| .cons ⟨rfl, StackAccess.hash_eq _⟩ .nil

theorem lookup_stackOperation {labels : List (UInt8 × Instruction)} {opcode : UInt8}
    {f : Stack → Option Stack} (h : labels.lookup opcode = some (.stack f)) :
    (labels.filterMap stackOperation).lookup opcode = some f := by
  induction labels with
  | nil => cases h
  | cons p labels ih =>
      obtain ⟨label, i⟩ := p
      rw [List.lookup_cons] at h
      cases hopcode : opcode == label with
      | true =>
          rw [hopcode] at h
          obtain rfl := Option.some.inj h
          have hhead : stackOperation (label, .stack f) = some (label, f) := rfl
          rw [List.filterMap_cons_some hhead, List.lookup_cons, hopcode]
      | false =>
          rw [hopcode] at h
          cases hi : stackOperation (label, i) with
          | none =>
              rw [List.filterMap_cons_none hi]
              exact ih h
          | some q =>
              have hq : q.1 = label := by
                cases i with
                | stack f => exact (congrArg Prod.fst (Option.some.inj hi)).symm
                | _ => exact absurd hi (by simp [stackOperation])
              rw [List.filterMap_cons_some hi, List.lookup_cons, hq, hopcode]
              exact ih h

theorem exists_lookup_of_forall₂ {α β γ : Type} [BEq α] {R : β → γ → Prop} {k : α} {b : β}
    {l₁ : List (α × β)} {l₂ : List (α × γ)}
    (h : List.Forall₂ (fun p q ↦ p.1 = q.1 ∧ R p.2 q.2) l₁ l₂) (hb : l₁.lookup k = some b) :
    ∃ c, l₂.lookup k = some c ∧ R b c := by
  induction h with
  | nil => cases hb
  | @cons p q l₁ l₂ hpq _ ih =>
      obtain ⟨k₁, b₁⟩ := p
      obtain ⟨k₂, c₂⟩ := q
      obtain ⟨rfl, hr⟩ : k₁ = k₂ ∧ R b₁ c₂ := hpq
      rw [List.lookup_cons] at hb ⊢
      cases hk : k == k₁ with
      | true =>
          rw [hk] at hb
          obtain rfl := Option.some.inj hb
          exact ⟨c₂, rfl, hr⟩
      | false =>
          rw [hk] at hb
          exact ih hb

theorem exists_stackLabel {crypto : Crypto} {opcode : UInt8} {f : Stack → Option Stack}
    (h : instruction crypto opcode = .stack f) :
    ∃ g, (stackLabels crypto).lookup opcode = some g ∧ ∀ stack, g stack = ofOption (f stack) := by
  have hlookup : (switchLabels crypto).lookup opcode = some (.stack f) := by
    rw [instruction] at h
    split at h
    case isTrue => cases h
    case isFalse =>
      split at h
      case isTrue => cases h
      case isFalse =>
        cases hl : (switchLabels crypto).lookup opcode with
        | none =>
            rw [hl] at h
            cases h
        | some i =>
            rw [hl] at h
            exact congrArg some h
  exact exists_lookup_of_forall₂
    (R := fun f (g : Stack → Access Stack) ↦ ∀ stack, g stack = ofOption (f stack))
    (stackLabels_refine crypto) (lookup_stackOperation hlookup)

/-! ## Signatures -/

/-- What the loop of `OP_CHECKMULTISIG` says of a signature and a key; `none` is `return false`. -/
def SigContext.verdict (ctx : SigContext) (flags : Nat) (code : CScript)
    (vchSig vchPubKey : Valtype) : Option Bool :=
  if checkSignatureEncoding vchSig flags ≠ some true then none
  else (ctx.checkCanonicalSig flags vchSig vchPubKey code).ret

/-- `OP_CHECKSIG`. -/
def SigContext.checkSigAccess (ctx : SigContext) (flags : Nat) (verify : Bool)
    (pbegincodehash : CScript) (stack : Stack) : Access Stack := do
  require (2 ≤ stack.length)
  let vchSig ← top stack 2
  let vchPubKey ← top stack 1
  let fSuccess ← ofOption
    (ctx.verdict flags (scriptCode pbegincodehash [vchSig]) vchSig vchPubKey)
  let stack ← pop stack
  let stack ← pop stack
  verifyAccess verify fSuccess ((if fSuccess then vchTrue else vchFalse) :: stack)

theorem SigContext.checkSigAccess_eq (ctx : SigContext) (flags : Nat) (verify : Bool)
    (pbegincodehash : CScript) (stack : Stack) :
    ctx.checkSigAccess flags verify pbegincodehash stack =
      ofOption (ctx.evalCheckSig flags verify pbegincodehash stack).ret := by
  rcases stack with _ | ⟨vchPubKey, _ | ⟨vchSig, stack⟩⟩
  · rfl
  · rfl
  · change (ofOption (ctx.verdict ..) >>= _) = _
    rw [verdict, evalCheckSig]
    split
    case isTrue => rfl
    case isFalse =>
      dsimp only
      rw [ofOption_bind]
      congr 1
      funext fSuccess
      exact StackAccess.verifyAccess_eq verify fSuccess stack

/-- The variables of the loop of `OP_CHECKMULTISIG`. -/
structure SigCursors where
  isig : Nat
  ikey : Nat
  nSigsCount : Int
  nKeysCount : Int
  fSuccess : Bool := true

/-- The loop of `OP_CHECKMULTISIG`, for at most `n` rounds. -/
def matchLoop (verdict : Valtype → Valtype → Option Bool) (stack : Stack) :
    (n : Nat) → SigCursors → Access Bool
  | n, c =>
    if c.fSuccess ∧ 0 < c.nSigsCount then
      match n with
      | 0 => .unfinished
      | n + 1 => do
          let vchSig ← top stack c.isig
          let vchPubKey ← top stack c.ikey
          let fOk ← ofOption (verdict vchSig vchPubKey)
          let isig := if fOk then c.isig + 1 else c.isig
          let nSigsCount := if fOk then c.nSigsCount - 1 else c.nSigsCount
          let ikey := c.ikey + 1
          let nKeysCount := c.nKeysCount - 1
          matchLoop verdict stack n
            { isig := isig, ikey := ikey, nSigsCount := nSigsCount, nKeysCount := nKeysCount
              fSuccess := !decide (nKeysCount < nSigsCount) }
    else .ok c.fSuccess

theorem matchLoop_done {verdict : Valtype → Valtype → Option Bool} {stack : Stack} {n : Nat}
    {c : SigCursors} (h : c.fSuccess = false) : matchLoop verdict stack n c = .ok false := by
  have hdone : ¬ (c.fSuccess = true ∧ 0 < c.nSigsCount) := by
    rw [h]
    exact fun hd ↦ Bool.false_ne_true hd.1
  cases n with
  | zero => rw [matchLoop, if_neg hdone, h]
  | succ n => rw [matchLoop, if_neg hdone, h]

/-- The loop, over the keys and the signatures that are left. -/
def matchVerdicts (verdict : Valtype → Valtype → Option Bool) :
    (keys sigs : List Valtype) → Option Bool
  | _, [] => some true
  | [], _ :: _ => some false
  | vchPubKey :: keys, vchSig :: sigs => do
      let fOk ← verdict vchSig vchPubKey
      let left := if fOk then sigs else vchSig :: sigs
      if keys.length < left.length then some false else matchVerdicts verdict keys left

theorem ret_matchSigs (ctx : SigContext) (flags : Nat) (code : CScript)
    (keys sigs : List Valtype) :
    (ctx.matchSigs flags code keys sigs).ret =
      matchVerdicts (ctx.verdict flags code) keys sigs := by
  induction keys generalizing sigs with
  | nil =>
      cases sigs with
      | nil => rfl
      | cons => rfl
  | cons vchPubKey keys ih =>
      cases sigs with
      | nil => rfl
      | cons vchSig sigs =>
          rw [SigContext.matchSigs, matchVerdicts, SigContext.verdict]
          split
          case isTrue => rfl
          case isFalse =>
            have hret : ∃ fOk, (ctx.checkCanonicalSig flags vchSig vchPubKey code).ret =
                some fOk := by
              rw [SigContext.checkCanonicalSig]
              split
              case isTrue => exact ⟨_, rfl⟩
              case isFalse => exact ⟨_, rfl⟩
            obtain ⟨fOk, hret⟩ := hret
            dsimp only
            rw [hret, Option.bind_eq_bind, Option.bind_some]
            cases fOk with
            | true =>
                rw [if_pos rfl, if_pos rfl]
                split
                case isTrue => rfl
                case isFalse => exact ih sigs
            | false =>
                have hno : ¬ some false = some true := by simp
                rw [if_neg hno, if_neg Bool.false_ne_true]
                split
                case isTrue => rfl
                case isFalse => exact ih (vchSig :: sigs)

/-- **While there are signatures left, the loop reads keys and signatures.** -/
theorem matchLoop_eq (verdict : Valtype → Valtype → Option Bool) {stack keys sigs r₁ r₂ : Stack}
    {i k n : Nat} (hkeys : stack.drop k = keys ++ r₁) (hsigs : stack.drop i = sigs ++ r₂)
    (hle : sigs.length ≤ keys.length) (hn : keys.length ≤ n) :
    matchLoop verdict stack n
      { isig := i + 1, ikey := k + 1, nSigsCount := sigs.length, nKeysCount := keys.length } =
      ofOption (matchVerdicts verdict keys sigs) := by
  induction n generalizing keys sigs i k with
  | zero =>
      obtain rfl := List.eq_nil_of_length_eq_zero (Nat.le_zero.mp hn)
      obtain rfl := List.eq_nil_of_length_eq_zero (Nat.le_zero.mp hle)
      rfl
  | succ n ih =>
      cases sigs with
      | nil =>
          cases keys with
          | nil => rfl
          | cons => rfl
      | cons vchSig sigs =>
          cases keys with
          | nil => exact absurd hle (Nat.not_succ_le_zero _)
          | cons vchPubKey keys =>
              have hsig : stack[i]? = some vchSig := by
                rw [← List.head?_drop, hsigs]
                rfl
              have hkey : stack[k]? = some vchPubKey := by
                rw [← List.head?_drop, hkeys]
                rfl
              have hkeys' : stack.drop (k + 1) = keys ++ r₁ := by
                rw [← List.tail_drop, hkeys]
                rfl
              have hsigs' : stack.drop (i + 1) = sigs ++ r₂ := by
                rw [← List.tail_drop, hsigs]
                rfl
              have hrest {i' : Nat} {left : List Valtype} (hleft : stack.drop i' = left ++ r₂) :
                  matchLoop verdict stack n
                    { isig := i' + 1, ikey := k + 1 + 1, nSigsCount := left.length
                      nKeysCount := keys.length
                      fSuccess := !decide ((keys.length : Int) < left.length) } =
                    ofOption (if keys.length < left.length then some false
                      else matchVerdicts verdict keys left) := by
                by_cases hlt : keys.length < left.length
                · rw [if_pos hlt, decide_eq_true (Int.ofNat_lt.mpr hlt)]
                  exact matchLoop_done rfl
                · rw [if_neg hlt, decide_eq_false fun h ↦ hlt (Int.ofNat_lt.mp h)]
                  exact ih hkeys' hleft (Nat.le_of_not_lt hlt) (Nat.le_of_succ_le_succ hn)
              have hkeysCount : ((vchPubKey :: keys).length : Int) - 1 = keys.length := by simp
              have hsigsCount : ((vchSig :: sigs).length : Int) - 1 = sigs.length := by simp
              rw [matchLoop, if_pos ⟨rfl, by simp⟩, top_of_getElem? hsig, ok_bind,
                top_of_getElem? hkey, ok_bind, matchVerdicts, Option.bind_eq_bind, ofOption_bind]
              congr 1
              funext fOk
              rw [hkeysCount, hsigsCount]
              cases fOk with
              | true => exact hrest hsigs'
              | false => exact hrest hsigs

/-! ## The `switch` -/

namespace EvalState

/-- `OP_IF` and `OP_NOTIF`. -/
def branchIfAccess (notif : Bool) (s : EvalState) : Access EvalState :=
  if s.fExec then do
    require (1 ≤ s.stack.length)
    let vch ← top s.stack 1
    let fValue := if notif then !castToBool vch else castToBool vch
    let stack ← pop s.stack
    return { s with stack := stack, vfExec := fValue :: s.vfExec }
  else .ok { s with vfExec := false :: s.vfExec }

/-- `OP_ELSE`. -/
def branchElseAccess (s : EvalState) : Access EvalState := do
  require (s.vfExec ≠ [])
  let fValue ← top s.vfExec 1
  let vfExec ← pop s.vfExec
  return { s with vfExec := (!fValue) :: vfExec }

/-- `OP_ENDIF`. -/
def branchEndAccess (s : EvalState) : Access EvalState := do
  require (s.vfExec ≠ [])
  let vfExec ← pop s.vfExec
  return { s with vfExec := vfExec }

def toAltStackAccess (s : EvalState) : Access EvalState := do
  require (1 ≤ s.stack.length)
  let vch ← top s.stack 1
  let stack ← pop s.stack
  return { s with stack := stack, altstack := vch :: s.altstack }

def fromAltStackAccess (s : EvalState) : Access EvalState := do
  require (1 ≤ s.altstack.length)
  let vch ← top s.altstack 1
  let altstack ← pop s.altstack
  return { s with stack := vch :: s.stack, altstack := altstack }

/-- The checks of the counts of `OP_CHECKMULTISIG`. -/
def multiSigCountsAccess (nOpCount : Nat) (stack : Stack) : Access (Int × Int) := do
  require (1 ≤ stack.length)
  let nKeysCount ← ofOption (scriptInt (← top stack 1))
  require (¬ (nKeysCount < 0 ∨ 20 < nKeysCount))
  require (nOpCount + nKeysCount.toNat ≤ 201)
  require (2 + nKeysCount.toNat ≤ stack.length)
  let nSigsCount ← ofOption (scriptInt (← top stack (2 + nKeysCount.toNat)))
  require (¬ (nSigsCount < 0 ∨ nKeysCount < nSigsCount))
  require (3 + nKeysCount.toNat + nSigsCount.toNat ≤ stack.length)
  return (nKeysCount, nSigsCount)

/-- `OP_CHECKMULTISIG`. -/
def checkMultiSigAccess (ctx : SigContext) (flags : Nat) (verify : Bool) (s : EvalState) :
    Access EvalState := do
  let (nKeysCount, nSigsCount) ← multiSigCountsAccess s.nOpCount s.stack
  let isig := 3 + nKeysCount.toNat
  let sigs ← tops s.stack isig nSigsCount.toNat
  let fSuccess ← matchLoop (ctx.verdict flags (scriptCode s.pbegincodehash sigs)) s.stack
    nKeysCount.toNat
    { isig := isig, ikey := 2, nSigsCount := nSigsCount, nKeysCount := nKeysCount }
  let stack ← popMany (isig + nSigsCount.toNat) s.stack
  let stack ← verifyAccess verify fSuccess ((if fSuccess then vchTrue else vchFalse) :: stack)
  return { s with stack := stack, nOpCount := s.nOpCount + nKeysCount.toNat }

/-- The `switch`. -/
def executeAccess (ctx : SigContext) (flags : Nat) (opcode : UInt8) (s : EvalState) :
    Access EvalState :=
  match instruction ctx.crypto opcode with
  | .pushNumber n => .ok { s with stack := CScriptNum.serialize n :: s.stack }
  | .nop => .ok s
  | .branchIf notif => s.branchIfAccess notif
  | .branchElse => s.branchElseAccess
  | .branchEnd => s.branchEndAccess
  | .stack _ =>
      match (stackLabels ctx.crypto).lookup opcode with
      | none => .reject
      | some f => do
          let stack ← f s.stack
          return { s with stack := stack }
  | .toAltStack => s.toAltStackAccess
  | .fromAltStack => s.fromAltStackAccess
  | .codeSeparator => .ok { s with pbegincodehash := s.pc }
  | .checkSig verify => do
      let stack ← ctx.checkSigAccess flags verify s.pbegincodehash s.stack
      return { s with stack := stack }
  | .checkMultiSig verify => s.checkMultiSigAccess ctx flags verify
  | .fail => .reject

/-- An operation that was read. -/
def performAccess (ctx : SigContext) (flags : Nat) (op : OpRead) (s : EvalState) :
    Access EvalState :=
  if s.fExec ∧ op.opcodeRet ≤ opPushdata4 then .ok { s with stack := op.vchRet :: s.stack }
  else if s.fExec ∨ opIf ≤ op.opcodeRet ∧ op.opcodeRet ≤ opEndif then
    s.executeAccess ctx flags op.opcodeRet
  else .ok s

/-- The instruction is read: the checks before the `switch`. -/
def fetchAccess (s : EvalState) : Access (OpRead × EvalState) := do
  let op ← getOp2Access s.pc
  require (op.fRet = true)
  require (op.vchRet.length ≤ 520)
  require (¬ (op16 < op.opcodeRet ∧ 201 < s.nOpCount + 1))
  require (op.opcodeRet ∉ disabledOpcodes)
  return (op,
    { s with
      pc := op.pc
      nOpCount := if op16 < op.opcodeRet then s.nOpCount + 1 else s.nOpCount })

/-- The body of the loop. -/
def stepAccess (ctx : SigContext) (flags : Nat) (s : EvalState) : Access EvalState := do
  let (op, s) ← s.fetchAccess
  let s ← s.performAccess ctx flags op
  require (s.stack.length + s.altstack.length ≤ 1000)
  return s

/-- `while (pc < pend)`, for at most `n` rounds. -/
def loopAccess (ctx : SigContext) (flags : Nat) : (n : Nat) → EvalState → Access EvalState
  | n, s =>
    if s.pc = [] then .ok s
    else
      match n with
      | 0 => .unfinished
      | n + 1 => do
          let s ← s.stepAccess ctx flags
          loopAccess ctx flags n s

end EvalState

/-- `EvalScript`. -/
def evalScriptAccess (ctx : SigContext) (flags : Nat) (stack : Stack) (script : CScript) :
    Access Stack := do
  require (script.length ≤ 10000)
  let s ← EvalState.loopAccess ctx flags script.length
    { pc := script, pbegincodehash := script, stack := stack }
  require (s.vfExec = [])
  return s.stack

/-! ### No access is out of range -/

namespace EvalState

variable {ctx : SigContext} {flags : Nat} {s : EvalState}

theorem branchIfAccess_eq (notif : Bool) (s : EvalState) :
    s.branchIfAccess notif = ofOption (s.branchIf notif) := by
  rw [branchIfAccess, branchIf]
  split
  case isTrue =>
    cases s.stack with
    | nil => rfl
    | cons => rfl
  case isFalse => rfl

theorem branchElseAccess_eq (s : EvalState) :
    s.branchElseAccess = ofOption s.branchElse := by
  rw [branchElseAccess, branchElse]
  cases s.vfExec with
  | nil => rfl
  | cons => rfl

theorem branchEndAccess_eq (s : EvalState) : s.branchEndAccess = ofOption s.branchEnd := by
  rw [branchEndAccess, branchEnd]
  cases s.vfExec with
  | nil => rfl
  | cons => rfl

theorem toAltStackAccess_eq (s : EvalState) :
    s.toAltStackAccess = ofOption s.toAltStack := by
  rw [toAltStackAccess, toAltStack]
  cases s.stack with
  | nil => rfl
  | cons => rfl

theorem fromAltStackAccess_eq (s : EvalState) :
    s.fromAltStackAccess = ofOption s.fromAltStack := by
  rw [fromAltStackAccess, fromAltStack]
  cases s.altstack with
  | nil => rfl
  | cons => rfl

theorem multiSigCountsAccess_cases (nOpCount : Nat) (stack : Stack) :
    multiSigCountsAccess nOpCount stack = .reject ∧ multiSigArgs nOpCount stack = none ∨
      ∃ nKeys nSigs : Nat, multiSigCountsAccess nOpCount stack = .ok (nKeys, nSigs) ∧
        nSigs ≤ nKeys ∧ 3 + nKeys + nSigs ≤ stack.length ∧
        multiSigArgs nOpCount stack =
          some ({ keys := (stack.drop 1).take nKeys
                  sigs := (stack.drop (2 + nKeys)).take nSigs
                  rest := stack.drop (3 + nKeys + nSigs) }, nOpCount + nKeys) := by
  rw [multiSigCountsAccess, multiSigArgs]
  by_cases hpos : 1 ≤ stack.length
  case neg =>
    obtain rfl : stack = [] := List.eq_nil_of_length_eq_zero (by omega)
    exact Or.inl ⟨rfl, rfl⟩
  have hvch := List.getElem?_eq_getElem hpos
  rw [require_pos hpos, ok_bind, top_of_getElem? hvch, hvch, ok_bind]
  simp only [Option.bind_eq_bind, Option.bind_some]
  cases scriptInt stack[0] with
  | none => exact Or.inl ⟨rfl, rfl⟩
  | some nKeysCount =>
      rw [ofOption_some, ok_bind, Option.bind_some]
      by_cases hkeys : nKeysCount < 0 ∨ 20 < nKeysCount
      case pos =>
        rw [require_neg (not_not_intro hkeys), if_pos hkeys]
        exact Or.inl ⟨rfl, rfl⟩
      rw [require_pos hkeys, if_neg hkeys, ok_bind]
      obtain ⟨nKeys, rfl⟩ := Int.eq_ofNat_of_zero_le (by omega : 0 ≤ nKeysCount)
      rw [Int.toNat_natCast]
      by_cases hops : nOpCount + nKeys ≤ 201
      case neg =>
        rw [require_neg hops, if_pos (Nat.lt_of_not_le hops)]
        exact Or.inl ⟨rfl, rfl⟩
      rw [require_pos hops, if_neg (Nat.not_lt.mpr hops), ok_bind]
      by_cases hroom : 2 + nKeys ≤ stack.length
      case neg =>
        rw [require_neg hroom, if_pos (Nat.lt_of_not_le hroom)]
        exact Or.inl ⟨rfl, rfl⟩
      have hsigs := List.getElem?_eq_getElem (show 1 + nKeys < stack.length by omega)
      have htop : top stack (2 + nKeys) = .ok stack[1 + nKeys] := by
        rw [show 2 + nKeys = 1 + nKeys + 1 by omega]
        exact top_of_getElem? hsigs
      rw [require_pos hroom, if_neg (Nat.not_lt.mpr hroom), ok_bind, htop, ok_bind, hsigs,
        Option.bind_some]
      cases scriptInt stack[1 + nKeys] with
      | none => exact Or.inl ⟨rfl, rfl⟩
      | some nSigsCount =>
          rw [ofOption_some, ok_bind, Option.bind_some]
          by_cases hcount : nSigsCount < 0 ∨ (nKeys : Int) < nSigsCount
          case pos =>
            rw [require_neg (not_not_intro hcount), if_pos hcount]
            exact Or.inl ⟨rfl, rfl⟩
          rw [require_pos hcount, if_neg hcount, ok_bind]
          obtain ⟨nSigs, rfl⟩ := Int.eq_ofNat_of_zero_le (by omega : 0 ≤ nSigsCount)
          rw [Int.toNat_natCast]
          by_cases hlength : 3 + nKeys + nSigs ≤ stack.length
          case neg =>
            rw [require_neg hlength, if_pos (Nat.lt_of_not_le hlength)]
            exact Or.inl ⟨rfl, rfl⟩
          rw [require_pos hlength, if_neg (Nat.not_lt.mpr hlength)]
          exact Or.inr ⟨nKeys, nSigs, rfl, by omega, hlength, rfl⟩

theorem checkMultiSigAccess_eq (verify : Bool) (s : EvalState) :
    s.checkMultiSigAccess ctx flags verify =
      ofOption (s.checkMultiSig ctx flags verify).ret := by
  rw [checkMultiSigAccess, checkMultiSig]
  rcases multiSigCountsAccess_cases s.nOpCount s.stack with ⟨hreject, hnone⟩ |
    ⟨nKeys, nSigs, hok, hle, hlength, hsome⟩
  · rw [hreject, hnone]
    rfl
  · rw [hok, hsome, ok_bind]
    dsimp only
    have hkeys : s.stack.drop 1 = (s.stack.drop 1).take nKeys ++ (s.stack.drop 1).drop nKeys :=
      (List.take_append_drop ..).symm
    have hsigs : s.stack.drop (2 + nKeys) =
        (s.stack.drop (2 + nKeys)).take nSigs ++ (s.stack.drop (2 + nKeys)).drop nSigs :=
      (List.take_append_drop ..).symm
    have hkeysLength : ((s.stack.drop 1).take nKeys).length = nKeys := by
      rw [List.length_take, List.length_drop]
      omega
    have hsigsLength : ((s.stack.drop (2 + nKeys)).take nSigs).length = nSigs := by
      rw [List.length_take, List.length_drop]
      omega
    have htops : tops s.stack (3 + nKeys) nSigs =
        .ok ((s.stack.drop (2 + nKeys)).take nSigs) := by
      rw [show 3 + nKeys = 2 + nKeys + 1 by omega]
      exact tops_of_le (by omega)
    generalize (s.stack.drop (2 + nKeys)).take nSigs = sigs at hsigs hsigsLength htops ⊢
    generalize (s.stack.drop 1).take nKeys = keys at hkeys hkeysLength ⊢
    have hmatch := matchLoop_eq (ctx.verdict flags (scriptCode s.pbegincodehash sigs)) hkeys hsigs
      (by omega) (le_refl _)
    rw [hkeysLength, hsigsLength] at hmatch
    have hcursor : 3 + nKeys = 2 + nKeys + 1 := by omega
    rw [Int.toNat_natCast, Int.toNat_natCast, htops, ok_bind, hcursor, hmatch, ret_matchSigs,
      ← hcursor, Option.bind_eq_bind, ofOption_bind]
    congr 1
    funext fSuccess
    rw [popMany_of_le hlength, ok_bind, StackAccess.verifyAccess_eq, Option.bind_eq_bind,
      ofOption_bind]
    rfl

theorem executeAccess_eq (opcode : UInt8) (s : EvalState) :
    s.executeAccess ctx flags opcode =
      ofOption (s.execute ctx flags (instruction ctx.crypto opcode)).ret := by
  rw [executeAccess]
  cases hi : instruction ctx.crypto opcode with
  | pushNumber n => rfl
  | nop => rfl
  | codeSeparator => rfl
  | fail => rfl
  | branchIf notif => exact branchIfAccess_eq notif s
  | branchElse => exact branchElseAccess_eq s
  | branchEnd => exact branchEndAccess_eq s
  | toAltStack => exact toAltStackAccess_eq s
  | fromAltStack => exact fromAltStackAccess_eq s
  | checkMultiSig verify => exact checkMultiSigAccess_eq verify s
  | stack f =>
      obtain ⟨g, hg, heq⟩ := exists_stackLabel hi
      dsimp only
      rw [hg, execute, ofOption_map, ← heq]
      rfl
  | checkSig verify =>
      dsimp only
      rw [SigContext.checkSigAccess_eq, execute, ofOption_map]
      rfl

theorem performAccess_eq (op : OpRead) (s : EvalState) :
    s.performAccess ctx flags op =
      ofOption (if s.fExec ∧ op.opcodeRet ≤ opPushdata4 then
          ({ ret := some { s with stack := op.vchRet :: s.stack } } : Counted EvalState)
        else if s.fExec ∨ opIf ≤ op.opcodeRet ∧ op.opcodeRet ≤ opEndif then
          s.execute ctx flags (instruction ctx.crypto op.opcodeRet)
        else { ret := some s }).ret := by
  rw [performAccess]
  split
  case isTrue => rfl
  case isFalse =>
    split
    case isTrue => exact executeAccess_eq op.opcodeRet s
    case isFalse => rfl

theorem require_limited (s : EvalState) :
    (require (s.stack.length + s.altstack.length ≤ 1000) >>= fun _ ↦ .ok s) =
      ofOption s.limited := by
  rw [limited]
  split
  case isTrue hlt =>
    rw [require_neg (Nat.not_le_of_lt hlt)]
    rfl
  case isFalse hle =>
    rw [require_pos (Nat.le_of_not_lt hle)]
    rfl

theorem fetchAccess_eq (s : EvalState) : s.fetchAccess = ofOption s.fetch := by
  rw [fetchAccess, getOp2Access_eq, ok_bind, fetch]
  generalize getOp2 s.pc = op
  by_cases hread : op.fRet = true
  case neg =>
    have hfail : (!op.fRet) = true := by simpa using hread
    rw [require_neg hread, if_pos hfail]
    rfl
  have hok : ¬ (!op.fRet) = true := by simpa using hread
  rw [require_pos hread, if_neg hok, ok_bind]
  by_cases hsize : op.vchRet.length ≤ 520
  case neg =>
    rw [require_neg hsize, if_pos (Nat.lt_of_not_le hsize)]
    rfl
  rw [require_pos hsize, if_neg (Nat.not_lt.mpr hsize), ok_bind]
  by_cases hcount : op16 < op.opcodeRet ∧ 201 < s.nOpCount + 1
  case pos =>
    rw [require_neg (not_not_intro hcount), if_pos hcount]
    rfl
  rw [require_pos hcount, if_neg hcount, ok_bind]
  by_cases hdisabled : op.opcodeRet ∈ disabledOpcodes
  case pos =>
    rw [require_neg (not_not_intro hdisabled), if_pos hdisabled]
    rfl
  rw [require_pos hdisabled, if_neg hdisabled]
  rfl

theorem stepAccess_eq (s : EvalState) :
    s.stepAccess ctx flags = ofOption (s.step ctx flags).ret := by
  rw [stepAccess, fetchAccess_eq, step]
  cases s.fetch with
  | none => rfl
  | some p =>
      obtain ⟨op, s⟩ := p
      rw [ofOption_some, ok_bind]
      dsimp only
      rw [performAccess_eq, ofOption_bind]
      congr 1
      funext s
      exact require_limited s

variable (ctx flags s) in
theorem loopAccess_eq {n : Nat} (hn : s.pc.length ≤ n) :
    s.loopAccess ctx flags n = ofOption (loop ctx flags n s).ret := by
  induction n generalizing s with
  | zero =>
      have hpc : s.pc = [] := List.eq_nil_of_length_eq_zero (Nat.le_zero.mp hn)
      rw [loopAccess, if_pos hpc]
      rfl
  | succ n ih =>
      by_cases hpc : s.pc = []
      · rw [loopAccess, if_pos hpc, loop_end _ hpc]
        rfl
      · rw [loopAccess, if_neg hpc, stepAccess_eq]
        cases hstep : (s.step ctx flags).ret with
        | none =>
            rw [loop_fail hpc hstep, hstep]
            rfl
        | some s' =>
            obtain ⟨hread, hpc'⟩ := pc_step hstep
            have hlt := length_getOp2_lt hread
            rw [← hpc'] at hlt
            rw [loop_step hpc hstep, ofOption_some, ok_bind]
            exact ih s' (Nat.le_of_lt_succ (hlt.trans_le hn))

end EvalState

/-- **The interpreter makes no access out of range, and ends.** -/
theorem evalScriptAccess_eq (ctx : SigContext) (flags : Nat) (stack : Stack) (script : CScript) :
    evalScriptAccess ctx flags stack script =
      ofOption (evalScript ctx flags stack script).ret := by
  rw [evalScriptAccess, evalScript]
  split
  case isTrue hlt =>
    rw [require_neg (Nat.not_le_of_lt hlt)]
    rfl
  case isFalse hle =>
    have hloop := EvalState.loopAccess_eq ctx flags
      { pc := script, pbegincodehash := script, stack := stack } (le_refl script.length)
    rw [require_pos (Nat.le_of_not_lt hle), ok_bind, hloop, ofOption_bind]
    congr 1
    funext s
    rw [EvalState.result]
    split
    case isTrue hend =>
      rw [require_pos hend]
      rfl
    case isFalse hend =>
      rw [require_neg hend]
      rfl

end Fedoracoin
