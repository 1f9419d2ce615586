import Fedoracoin.Interpreter

/-!
# Conditionals as blocks

`EvalScript` keeps one truth value for each conditional that it is in, and looks at all of them
before every operation.  The reading of a script that its author has in mind is another one: a
conditional is a block, of a branch for `OP_IF` and one for each `OP_ELSE`, and evaluating it
evaluates every other branch.  `Code` is that reading, `Code.run` evaluates it, and
`evalScript_structured` says that it is the same.

A branch that is not taken is still read: its operations are counted, what it would push must not be
too long, and `OP_VERIF` and `OP_VERNOTIF` are allowed nowhere.
-/

namespace Fedoracoin

/-- The opcodes that the loop has in `OP_IF <= opcode && opcode <= OP_ENDIF`. -/
def inConditionals (opcode : UInt8) : Bool := decide (opIf ≤ opcode) && decide (opcode ≤ opEndif)

/-- Whether an opcode opens, continues or closes a block. -/
def isConditional (opcode : UInt8) : Bool :=
  opcode == opIf || opcode == opNotif || opcode == opElse || opcode == opEndif

theorem conditional_cases {opcode : UInt8} (h : isConditional opcode = true) :
    (∃ notif : Bool, opcode = if notif then opNotif else opIf) ∨ opcode = opElse ∨
      opcode = opEndif := by
  simp only [isConditional, Bool.or_eq_true, beq_iff_eq, or_assoc] at h
  rcases h with h | h | h
  · exact Or.inl ⟨false, h⟩
  · exact Or.inl ⟨true, h⟩
  · exact Or.inr h

/-! ## Blocks -/

mutual

/-- A script whose conditionals are blocks, by its operations as they are read. -/
inductive Code where
  | done
  | op (op : OpRead) (hop : isConditional op.opcodeRet = false) (next : Code)
  /-- A conditional, with the branch behind `OP_IF` or `OP_NOTIF`. -/
  | block (op : OpRead) (notif : Bool) (hop : op.opcodeRet = if notif then opNotif else opIf)
      (body : Code) (others : Branches) (next : Code)

/-- The other branches of a block, and its end. -/
inductive Branches where
  | endIf (op : OpRead) (hop : op.opcodeRet = opEndif)
  | orElse (op : OpRead) (hop : op.opcodeRet = opElse) (body : Code) (others : Branches)

end

mutual

/-- The operations in the order in which they stand. -/
def Code.ops : Code → List OpRead
  | .done => []
  | .op op _ next => op :: next.ops
  | .block op _ _ body others next => op :: (body.ops ++ (others.ops ++ next.ops))

def Branches.ops : Branches → List OpRead
  | .endIf op _ => [op]
  | .orElse op _ body others => op :: (body.ops ++ others.ops)

end

/-- The operations that reading a script from an iterator to its end gives. -/
inductive ReadsOps : CScript → List OpRead → Prop
  | done : ReadsOps [] []
  | next {pc : CScript} {ops : List OpRead} (hread : (getOp2 pc).fRet = true)
      (hrest : ReadsOps (getOp2 pc).pc ops) : ReadsOps pc (getOp2 pc :: ops)

/-- The conditionals of a script match. -/
def Balanced (script : CScript) : Prop := ∃ code : Code, ReadsOps script code.ops

/-- A branch may have any number of others. -/
example : Balanced [0x51, opIf, 0x52, opElse, opElse, opEndif] :=
  ⟨.op (getOp2 [0x51, opIf, 0x52, opElse, opElse, opEndif]) rfl
    (.block (getOp2 [opIf, 0x52, opElse, opElse, opEndif]) false rfl
      (.op (getOp2 [0x52, opElse, opElse, opEndif]) rfl .done)
      (.orElse (getOp2 [opElse, opElse, opEndif]) rfl .done
        (.orElse (getOp2 [opElse, opEndif]) rfl .done (.endIf (getOp2 [opEndif]) rfl))) .done),
    .next rfl (.next rfl (.next rfl (.next rfl (.next rfl (.next rfl .done)))))⟩

/-- The variables of `EvalScript`, but for the iterator and the conditionals. -/
structure BlockState where
  pbegincodehash : CScript
  stack : Stack
  altstack : Stack := []
  nOpCount : Nat := 0

namespace BlockState

/-- The state of the loop at `pc`, in the conditionals `vfExec`. -/
def flat (st : BlockState) (pc : CScript) (vfExec : List Bool) : EvalState where
  pc := pc
  pbegincodehash := st.pbegincodehash
  stack := st.stack
  altstack := st.altstack
  vfExec := vfExec
  nOpCount := st.nOpCount

end BlockState

/-- The state without the iterator and the conditionals. -/
def EvalState.inner (s : EvalState) : BlockState where
  pbegincodehash := s.pbegincodehash
  stack := s.stack
  altstack := s.altstack
  nOpCount := s.nOpCount

namespace BlockState

/-- The checks of an operation, also where it is not executed. -/
def count (op : OpRead) (st : BlockState) : Option BlockState :=
  if 520 < op.vchRet.length then none
  else if op16 < op.opcodeRet ∧ 201 < st.nOpCount + 1 then none
  else if op.opcodeRet ∈ disabledOpcodes then none
  else
    some { st with nOpCount := if op16 < op.opcodeRet then st.nOpCount + 1 else st.nOpCount }

def limited (st : BlockState) : Option BlockState :=
  if 1000 < st.stack.length + st.altstack.length then none else some st

/-- An operation that is executed. -/
def perform (ctx : SigContext) (flags : Nat) (op : OpRead) (st : BlockState) : Option BlockState :=
  if op.opcodeRet ≤ opPushdata4 then some { st with stack := op.vchRet :: st.stack }
  else
    ((st.flat op.pc []).execute ctx flags (instruction ctx.crypto op.opcodeRet)).ret.map
      EvalState.inner

/-- An operation in a branch that is taken or not. -/
def performIf (ctx : SigContext) (flags : Nat) (fExec : Bool) (op : OpRead) (st : BlockState) :
    Option BlockState :=
  if fExec then st.perform ctx flags op
  else if inConditionals op.opcodeRet then none
  else some st

/-- An operation that is no conditional. -/
def runOp (ctx : SigContext) (flags : Nat) (fExec : Bool) (op : OpRead) (st : BlockState) :
    Option BlockState := do
  let st ← st.count op
  let st ← st.performIf ctx flags fExec op
  st.limited

/-- Whether the first branch of a block is taken, if the block is executed. -/
def branchValue (fExec notif : Bool) (st : BlockState) : Option (Bool × BlockState) :=
  if fExec then
    match st.stack with
    | vch :: stack =>
        some (if notif then !castToBool vch else castToBool vch, { st with stack := stack })
    | [] => none
  else some (false, st)

/-- `OP_IF` and `OP_NOTIF`. -/
def runIf (fExec notif : Bool) (op : OpRead) (st : BlockState) : Option (Bool × BlockState) := do
  let st ← st.count op
  let (fValue, st) ← st.branchValue fExec notif
  st.limited.map fun st ↦ (fValue, st)

/-- `OP_ELSE` and `OP_ENDIF`. -/
def runMark (op : OpRead) (st : BlockState) : Option BlockState := do
  let st ← st.count op
  st.limited

end BlockState

mutual

/-- The evaluation of the blocks of a branch that is taken or not. -/
def Code.run (ctx : SigContext) (flags : Nat) : Code → (fExec : Bool) → BlockState →
    Option BlockState
  | .done, _, st => some st
  | .op op _ next, fExec, st => do
      let st ← st.runOp ctx flags fExec op
      next.run ctx flags fExec st
  | .block op notif _ body others next, fExec, st => do
      let (fValue, st) ← st.runIf fExec notif op
      let st ← body.run ctx flags (fValue && fExec) st
      let st ← others.run ctx flags fExec fValue st
      next.run ctx flags fExec st

/-- The other branches, behind one that is taken or not: every `OP_ELSE` changes that. -/
def Branches.run (ctx : SigContext) (flags : Nat) : Branches → (fExec fValue : Bool) →
    BlockState → Option BlockState
  | .endIf op _, _, _, st => st.runMark op
  | .orElse op _ body others, fExec, fValue, st => do
      let st ← st.runMark op
      let st ← body.run ctx flags (!fValue && fExec) st
      others.run ctx flags fExec (!fValue) st

end

/-! ## A round of the loop -/

variable {ctx : SigContext} {flags : Nat} {st : BlockState} {pc : CScript} {vfExec : List Bool}
  {op : OpRead} {ops : List OpRead}

namespace BlockState

@[simp] theorem flat_fExec : (st.flat pc vfExec).fExec = vfExec.all id := rfl

theorem flat_limited : (st.flat pc vfExec).limited = st.limited.map (·.flat pc vfExec) := by
  rw [limited, apply_ite (Option.map _)]
  rfl

/-- The checks before the `switch`. -/
theorem flat_fetch (hread : (getOp2 pc).fRet = true) :
    (st.flat pc vfExec).fetch =
      (st.count (getOp2 pc)).map fun st ↦ (getOp2 pc, st.flat (getOp2 pc).pc vfExec) := by
  have hok : ¬ (!(getOp2 pc).fRet) = true := by
    rw [hread]
    exact Bool.false_ne_true
  rw [count, apply_ite (Option.map _), apply_ite (Option.map _), apply_ite (Option.map _)]
  exact if_neg hok

/-- The `switch`, but for the conditionals, does not look at the conditionals. -/
theorem flat_execute {i : Instruction} (hif : ∀ notif, i ≠ .branchIf notif)
    (helse : i ≠ .branchElse) (hend : i ≠ .branchEnd) :
    ((st.flat pc vfExec).execute ctx flags i).ret =
      (((st.flat pc []).execute ctx flags i).ret.map EvalState.inner).map (·.flat pc vfExec) := by
  cases i with
  | pushNumber n => rfl
  | nop => rfl
  | codeSeparator => rfl
  | fail => rfl
  | branchIf notif => exact absurd rfl (hif notif)
  | branchElse => exact absurd rfl helse
  | branchEnd => exact absurd rfl hend
  | stack f =>
      rw [EvalState.execute, EvalState.execute, Option.map_map, Option.map_map]
      rfl
  | toAltStack =>
      obtain ⟨code, stack, altstack, nOpCount⟩ := st
      cases stack with
      | nil => rfl
      | cons => rfl
  | fromAltStack =>
      obtain ⟨code, stack, altstack, nOpCount⟩ := st
      cases altstack with
      | nil => rfl
      | cons => rfl
  | checkSig verify =>
      rw [EvalState.execute, EvalState.execute, Option.map_map, Option.map_map]
      rfl
  | checkMultiSig verify =>
      change ((st.flat pc vfExec).checkMultiSig ctx flags verify).ret =
        (((st.flat pc []).checkMultiSig ctx flags verify).ret.map _).map _
      have hargs : multiSigArgs (st.flat pc vfExec).nOpCount (st.flat pc vfExec).stack =
          multiSigArgs (st.flat pc []).nOpCount (st.flat pc []).stack := rfl
      rw [EvalState.checkMultiSig, EvalState.checkMultiSig, hargs]
      cases multiSigArgs (st.flat pc []).nOpCount (st.flat pc []).stack with
      | none => rfl
      | some p =>
          obtain ⟨args, nOpCount⟩ := p
          have hcode : (st.flat pc vfExec).pbegincodehash = (st.flat pc []).pbegincodehash := rfl
          dsimp only
          rw [hcode]
          cases (ctx.matchSigs flags (scriptCode (st.flat pc []).pbegincodehash args.sigs)
            args.keys args.sigs).ret with
          | none => rfl
          | some fSuccess =>
              simp only [Option.bind_eq_bind, Option.bind_some]
              cases pushVerdict verify fSuccess args.rest with
              | none => rfl
              | some stack => rfl

/-- A round of the loop, by the `if` in front of the `switch`. -/
theorem ret_step_flat (hread : (getOp2 pc).fRet = true) :
    ((st.flat pc vfExec).step ctx flags).ret =
      (st.count (getOp2 pc)).bind fun st ↦
        (if vfExec.all id = true ∧ (getOp2 pc).opcodeRet ≤ opPushdata4 then
          some ({ st with stack := (getOp2 pc).vchRet :: st.stack }.flat (getOp2 pc).pc vfExec)
        else if vfExec.all id = true ∨ inConditionals (getOp2 pc).opcodeRet = true then
          ((st.flat (getOp2 pc).pc vfExec).execute ctx flags
            (instruction ctx.crypto (getOp2 pc).opcodeRet)).ret
        else some (st.flat (getOp2 pc).pc vfExec)).bind EvalState.limited := by
  have hfetch : (st.flat pc vfExec).fetch = _ := flat_fetch hread
  have hin : inConditionals (getOp2 pc).opcodeRet = true ↔
      opIf ≤ (getOp2 pc).opcodeRet ∧ (getOp2 pc).opcodeRet ≤ opEndif := by
    rw [inConditionals, Bool.and_eq_true, decide_eq_true_iff, decide_eq_true_iff]
  cases hcount : st.count (getOp2 pc) with
  | none =>
      rw [hcount] at hfetch
      rw [EvalState.step_of_fetch_eq_none hfetch]
      rfl
  | some st' =>
      rw [hcount] at hfetch
      rw [EvalState.step_eq hfetch, Option.bind_some]
      dsimp only [flat_fExec]
      congr 1
      refine (apply_ite Counted.ret _ _ _).trans (if_congr Iff.rfl rfl ?_)
      exact (apply_ite Counted.ret _ _ _).trans (if_congr (or_congr_right hin.symm) rfl rfl)

theorem instruction_verif {crypto : Crypto} {opcode : UInt8} (hin : inConditionals opcode = true)
    (hop : isConditional opcode = false) : instruction crypto opcode = .fail := by
  have hverif : ∀ opcode, inConditionals opcode = true → isConditional opcode = false →
      opcode = 0x65 ∨ opcode = 0x66 :=
    Wire.forall_byte (by decide +kernel)
  obtain rfl | rfl := hverif opcode hin hop
  · rfl
  · rfl

/-- An operation that is no conditional. -/
theorem step_op (hread : (getOp2 pc).fRet = true)
    (hop : isConditional (getOp2 pc).opcodeRet = false) :
    ((st.flat pc vfExec).step ctx flags).ret =
      (st.runOp ctx flags (vfExec.all id) (getOp2 pc)).map (·.flat (getOp2 pc).pc vfExec) := by
  have hnot : ¬ ((getOp2 pc).opcodeRet = opIf ∨ (getOp2 pc).opcodeRet = opNotif ∨
      (getOp2 pc).opcodeRet = opElse ∨ (getOp2 pc).opcodeRet = opEndif) := by
    simpa [isConditional, and_assoc] using hop
  rw [ret_step_flat hread, runOp, Option.bind_eq_bind, Option.map_bind]
  congr 1
  funext st
  change _ = ((st.performIf ctx flags (vfExec.all id) (getOp2 pc)).bind limited).map _
  rw [Option.map_bind]
  rw [performIf]
  cases vfExec.all id with
  | true =>
      rw [if_pos rfl, perform]
      by_cases hdata : (getOp2 pc).opcodeRet ≤ opPushdata4
      · rw [if_pos ⟨rfl, hdata⟩, if_pos hdata]
        exact flat_limited
      · rw [if_neg fun h ↦ hdata h.2, if_neg hdata, if_pos (Or.inl rfl),
          flat_execute (fun notif h ↦ hnot (opcode_of_branch h (Or.inl ⟨notif, rfl⟩)))
            (fun h ↦ hnot (opcode_of_branch h (Or.inr (Or.inl rfl))))
            (fun h ↦ hnot (opcode_of_branch h (Or.inr (Or.inr rfl)))), Option.bind_map]
        congr 1
        funext st
        exact flat_limited
  | false =>
      rw [if_neg fun h ↦ Bool.false_ne_true h.1, if_neg Bool.false_ne_true]
      cases hin : inConditionals (getOp2 pc).opcodeRet with
      | true => 
          rw [if_pos (Or.inr rfl), instruction_verif hin hop]
          rfl
      | false =>
          rw [if_neg (by simp), if_neg (by simp)]
          exact flat_limited

/-- `OP_IF` and `OP_NOTIF`. -/
theorem step_if {notif : Bool} (hread : (getOp2 pc).fRet = true)
    (hop : (getOp2 pc).opcodeRet = if notif then opNotif else opIf) :
    ((st.flat pc vfExec).step ctx flags).ret =
      (st.runIf (vfExec.all id) notif (getOp2 pc)).map fun p ↦
        p.2.flat (getOp2 pc).pc (p.1 :: vfExec) := by
  have hin : inConditionals (getOp2 pc).opcodeRet = true := by
    rw [hop]
    cases notif with
    | true => rfl
    | false => rfl
  have hinstruction : instruction ctx.crypto (getOp2 pc).opcodeRet = .branchIf notif := by
    rw [hop]
    cases notif with
    | true => rfl
    | false => rfl
  have hdata : ¬ (getOp2 pc).opcodeRet ≤ opPushdata4 := by
    rw [hop]
    cases notif with
    | true => decide
    | false => decide
  rw [ret_step_flat hread, runIf, Option.bind_eq_bind, Option.map_bind]
  congr 1
  funext st
  rw [if_neg fun h ↦ hdata h.2, if_pos (Or.inr hin), hinstruction]
  change ((st.flat (getOp2 pc).pc vfExec).branchIf notif).bind _ = _
  have hlimited (fValue : Bool) (st : BlockState) :
      (st.flat (getOp2 pc).pc (fValue :: vfExec)).limited =
        (st.limited.map fun st ↦ (fValue, st)).map fun p ↦
          p.2.flat (getOp2 pc).pc (p.1 :: vfExec) := by
    rw [flat_limited, Option.map_map]
    rfl
  rw [EvalState.branchIf, flat_fExec, Function.comp_apply, branchValue]
  cases vfExec.all id with
  | true =>
      obtain ⟨code, stack, altstack, nOpCount⟩ := st
      cases stack with
      | nil => rfl
      | cons vch stack =>
          exact hlimited (if notif then !castToBool vch else castToBool vch)
            ⟨code, stack, altstack, nOpCount⟩
  | false => exact hlimited false st

/-- `OP_ELSE`. -/
theorem step_else {fValue : Bool} (hread : (getOp2 pc).fRet = true)
    (hop : (getOp2 pc).opcodeRet = opElse) :
    ((st.flat pc (fValue :: vfExec)).step ctx flags).ret =
      (st.runMark (getOp2 pc)).map (·.flat (getOp2 pc).pc ((!fValue) :: vfExec)) := by
  rw [ret_step_flat hread, hop, runMark, Option.bind_eq_bind, Option.map_bind]
  congr 1
  funext st
  have hin : inConditionals opElse = true := rfl
  rw [if_neg fun h ↦ absurd h.2 (by decide), if_pos (Or.inr hin)]
  exact flat_limited

/-- `OP_ENDIF`. -/
theorem step_endif {fValue : Bool} (hread : (getOp2 pc).fRet = true)
    (hop : (getOp2 pc).opcodeRet = opEndif) :
    ((st.flat pc (fValue :: vfExec)).step ctx flags).ret =
      (st.runMark (getOp2 pc)).map (·.flat (getOp2 pc).pc vfExec) := by
  rw [ret_step_flat hread, hop, runMark, Option.bind_eq_bind, Option.map_bind]
  congr 1
  funext st
  have hin : inConditionals opEndif = true := rfl
  rw [if_neg fun h ↦ absurd h.2 (by decide), if_pos (Or.inr hin)]
  exact flat_limited

/-- An end, or another branch, of nothing. -/
theorem step_unmatched (hread : (getOp2 pc).fRet = true)
    (hop : (getOp2 pc).opcodeRet = opElse ∨ (getOp2 pc).opcodeRet = opEndif) :
    ((st.flat pc []).step ctx flags).ret = none := by
  rw [ret_step_flat hread]
  refine Option.bind_eq_none_iff.mpr fun st _ ↦ ?_
  rcases hop with hop | hop
  · rw [hop]
    rfl
  · rw [hop]
    rfl

/-! ## The loop -/

/-- What the loop leaves, from a state on. -/
def finish (ctx : SigContext) (flags : Nat) (st : BlockState) (pc : CScript)
    (vfExec : List Bool) : Option EvalState :=
  (EvalState.loop ctx flags pc.length (st.flat pc vfExec)).ret

theorem finish_eq (hpc : pc ≠ []) :
    st.finish ctx flags pc vfExec =
      ((st.flat pc vfExec).step ctx flags).ret.bind fun s ↦
        s.inner.finish ctx flags s.pc s.vfExec :=
  EvalState.ret_loop_step (s := st.flat pc vfExec) hpc

theorem finish_read (hread : (getOp2 pc).fRet = true) :
    st.finish ctx flags pc vfExec =
      ((st.flat pc vfExec).step ctx flags).ret.bind fun s ↦
        s.inner.finish ctx flags s.pc s.vfExec := by
  refine finish_eq ?_
  rintro rfl
  exact Bool.false_ne_true hread

end BlockState

theorem readsOps_cons_iff : ReadsOps pc (op :: ops) ↔
    op = getOp2 pc ∧ (getOp2 pc).fRet = true ∧ ReadsOps (getOp2 pc).pc ops := by
  constructor
  · intro h
    cases h with
    | next hread hrest => exact ⟨rfl, hread, hrest⟩
  · rintro ⟨rfl, hread, hrest⟩
    exact .next hread hrest

mutual

/-- The loop evaluates the blocks of a branch. -/
theorem Code.finish_eq (ctx : SigContext) (flags : Nat) {pc : CScript} {ops : List OpRead} :
    ∀ code : Code, ReadsOps pc (code.ops ++ ops) → ∃ pc', ReadsOps pc' ops ∧ ∀ st vfExec,
      BlockState.finish ctx flags st pc vfExec =
        (code.run ctx flags (vfExec.all id) st).bind fun st ↦ st.finish ctx flags pc' vfExec
  | .done, hreads => ⟨pc, hreads, fun _ _ ↦ rfl⟩
  | .op op hop next, hreads => by
      rw [Code.ops, List.cons_append, readsOps_cons_iff] at hreads
      obtain ⟨rfl, hread, hrest⟩ := hreads
      obtain ⟨pc', hreads', hnext⟩ := next.finish_eq ctx flags hrest
      refine ⟨pc', hreads', fun st vfExec ↦ ?_⟩
      rw [BlockState.finish_read hread, BlockState.step_op hread hop, Option.bind_map, Code.run,
        Option.bind_eq_bind, Option.bind_assoc]
      congr 1
      funext st
      exact hnext st vfExec
  | .block op notif hop body others next, hreads => by
      rw [Code.ops, List.cons_append, readsOps_cons_iff, List.append_assoc, List.append_assoc]
        at hreads
      obtain ⟨rfl, hread, hrest⟩ := hreads
      obtain ⟨pc₁, hreads₁, hbody⟩ := body.finish_eq ctx flags hrest
      obtain ⟨pc₂, hreads₂, hothers⟩ := others.finish_eq ctx flags hreads₁
      obtain ⟨pc₃, hreads₃, hnext⟩ := next.finish_eq ctx flags hreads₂
      refine ⟨pc₃, hreads₃, fun st vfExec ↦ ?_⟩
      rw [BlockState.finish_read hread, BlockState.step_if hread hop, Option.bind_map, Code.run,
        Option.bind_eq_bind, Option.bind_assoc]
      congr 1
      funext p
      obtain ⟨fValue, st⟩ := p
      refine (hbody st (fValue :: vfExec)).trans ?_
      simp only [Option.bind_eq_bind, Option.bind_assoc]
      congr 1
      funext st
      rw [hothers]
      congr 1
      funext st
      exact hnext st vfExec

/-- The loop evaluates the other branches of a block, and leaves it. -/
theorem Branches.finish_eq (ctx : SigContext) (flags : Nat) {pc : CScript} {ops : List OpRead} :
    ∀ others : Branches, ReadsOps pc (others.ops ++ ops) → ∃ pc', ReadsOps pc' ops ∧
      ∀ st fValue vfExec, BlockState.finish ctx flags st pc (fValue :: vfExec) =
        (others.run ctx flags (vfExec.all id) fValue st).bind fun st ↦
          st.finish ctx flags pc' vfExec
  | .endIf op hop, hreads => by
      rw [Branches.ops, List.cons_append, readsOps_cons_iff] at hreads
      obtain ⟨rfl, hread, hrest⟩ := hreads
      refine ⟨_, hrest, fun st fValue vfExec ↦ ?_⟩
      rw [BlockState.finish_read hread, BlockState.step_endif hread hop, Option.bind_map]
      rfl
  | .orElse op hop body others, hreads => by
      rw [Branches.ops, List.cons_append, readsOps_cons_iff, List.append_assoc] at hreads
      obtain ⟨rfl, hread, hrest⟩ := hreads
      obtain ⟨pc₁, hreads₁, hbody⟩ := body.finish_eq ctx flags hrest
      obtain ⟨pc₂, hreads₂, hothers⟩ := others.finish_eq ctx flags hreads₁
      refine ⟨pc₂, hreads₂, fun st fValue vfExec ↦ ?_⟩
      rw [BlockState.finish_read hread, BlockState.step_else hread hop, Option.bind_map,
        Branches.run, Option.bind_eq_bind, Option.bind_assoc]
      congr 1
      funext st
      refine (hbody st ((!fValue) :: vfExec)).trans ?_
      rw [Option.bind_assoc]
      congr 1
      funext st
      exact hothers st (!fValue) vfExec

end

/-! ## Scripts whose conditionals do not match -/

/-- The operations behind a state in the middle of blocks: for each block its other branches, and
what is behind it. -/
def openOps (blocks : List (Branches × Code)) : List OpRead :=
  blocks.flatMap fun p ↦ p.1.ops ++ p.2.ops

/-- A loop that ends outside of all conditionals has read their ends. -/
theorem exists_code_of_finish {s' : EvalState} (hs' : s'.vfExec = [])
    (h : st.finish ctx flags pc vfExec = some s') :
    ∃ (code : Code) (blocks : List (Branches × Code)), blocks.length = vfExec.length ∧
      ReadsOps pc (code.ops ++ openOps blocks) := by
  induction pc using getOp2_induct generalizing st vfExec with
  | stop pc hread =>
      by_cases hpc : pc = []
      · obtain rfl := hpc
        obtain rfl := Option.some.inj h
        obtain rfl : vfExec = [] := hs'
        exact ⟨.done, [], rfl, .done⟩
      · rw [BlockState.finish_eq hpc, EvalState.step_of_not_read hread] at h
        cases h
  | read pc hread ih =>
      rw [BlockState.finish_read hread] at h
      cases hop : isConditional (getOp2 pc).opcodeRet with
      | false =>
          rw [BlockState.step_op hread hop, Option.bind_map] at h
          obtain ⟨st', -, h⟩ := Option.bind_eq_some_iff.mp h
          obtain ⟨code, blocks, hlength, hreads⟩ := ih h
          exact ⟨.op _ hop code, blocks, hlength, .next hread hreads⟩
      | true =>
          rcases conditional_cases hop with ⟨notif, hif⟩ | hother
          · rw [BlockState.step_if hread hif, Option.bind_map] at h
            obtain ⟨⟨fValue, st'⟩, -, h⟩ := Option.bind_eq_some_iff.mp h
            obtain ⟨code, blocks, hlength, hreads⟩ := ih h
            obtain ⟨⟨others, next⟩, blocks, rfl⟩ := List.exists_cons_of_length_eq_add_one hlength
            refine ⟨.block _ notif hif code others next, blocks, Nat.succ.inj hlength, ?_⟩
            have hreads' := ReadsOps.next hread hreads
            rw [openOps, List.flatMap_cons, List.append_assoc] at hreads'
            rw [Code.ops, List.cons_append, List.append_assoc, List.append_assoc]
            exact hreads'
          · cases vfExec with
            | nil =>
                rw [BlockState.step_unmatched hread hother] at h
                cases h
            | cons fValue vfExec =>
                rcases hother with helse | hend
                · rw [BlockState.step_else hread helse, Option.bind_map] at h
                  obtain ⟨st', -, h⟩ := Option.bind_eq_some_iff.mp h
                  obtain ⟨code, blocks, hlength, hreads⟩ := ih h
                  obtain ⟨⟨others, next⟩, blocks, rfl⟩ :=
                    List.exists_cons_of_length_eq_add_one hlength
                  refine ⟨.done, (.orElse _ helse code others, next) :: blocks, hlength, ?_⟩
                  have hreads' := ReadsOps.next hread hreads
                  rw [openOps, List.flatMap_cons, List.append_assoc] at hreads'
                  rw [openOps, List.flatMap_cons, Branches.ops, Code.ops, List.nil_append,
                    List.cons_append, List.append_assoc, List.cons_append, List.append_assoc,
                    List.append_assoc]
                  exact hreads'
                · rw [BlockState.step_endif hread hend, Option.bind_map] at h
                  obtain ⟨st', -, h⟩ := Option.bind_eq_some_iff.mp h
                  obtain ⟨code, blocks, hlength, hreads⟩ := ih h
                  refine ⟨.done, (.endIf _ hend, code) :: blocks, congrArg (· + 1) hlength, ?_⟩
                  exact .next hread hreads

/-! ## Branches that are not taken -/

namespace BlockState

variable {st' : BlockState}

/-- Two states with the same stacks. -/
def SameStacks (st st' : BlockState) : Prop :=
  st'.stack = st.stack ∧ st'.altstack = st.altstack

theorem sameStacks_count (h : st.count op = some st') : st.SameStacks st' := by
  rw [count] at h
  split at h
  case isTrue => cases h
  case isFalse =>
    split at h
    case isTrue => cases h
    case isFalse =>
      split at h
      case isTrue => cases h
      case isFalse =>
        obtain rfl := Option.some.inj h
        exact ⟨rfl, rfl⟩

theorem eq_of_limited (h : st.limited = some st') : st' = st := by
  rw [limited] at h
  split at h
  case isTrue => cases h
  case isFalse => exact (Option.some.inj h).symm

theorem sameStacks_runMark (h : st.runMark op = some st') : st.SameStacks st' := by
  obtain ⟨st₁, hcount, hlimited⟩ := Option.bind_eq_some_iff.mp h
  obtain rfl := eq_of_limited hlimited
  exact sameStacks_count hcount

theorem sameStacks_runIf {notif fValue : Bool}
    (h : st.runIf false notif op = some (fValue, st')) : st.SameStacks st' := by
  obtain ⟨st₁, hcount, h⟩ := Option.bind_eq_some_iff.mp h
  obtain ⟨st₂, hlimited, heq⟩ := Option.map_eq_some_iff.mp h
  obtain rfl := eq_of_limited hlimited
  obtain ⟨-, rfl⟩ := Prod.mk.inj heq
  exact sameStacks_count hcount

theorem sameStacks_runOp (h : st.runOp ctx flags false op = some st') : st.SameStacks st' := by
  obtain ⟨st₁, hcount, h⟩ := Option.bind_eq_some_iff.mp h
  obtain ⟨st₂, hperform, hlimited⟩ := Option.bind_eq_some_iff.mp h
  obtain rfl := eq_of_limited hlimited
  rw [performIf, if_neg Bool.false_ne_true] at hperform
  split at hperform
  case isTrue => cases hperform
  case isFalse =>
    obtain rfl := Option.some.inj hperform
    exact sameStacks_count hcount

/-- An operation in a branch that is not taken. -/
theorem sameStacks_step {s' : EvalState} (hexec : vfExec.all id = false)
    (h : ((st.flat pc vfExec).step ctx flags).ret = some s') : st.SameStacks s'.inner := by
  have hread : (getOp2 pc).fRet = true := (EvalState.pc_step h).1
  cases hop : isConditional (getOp2 pc).opcodeRet with
  | false =>
      rw [step_op hread hop, hexec] at h
      obtain ⟨st', hrun, rfl⟩ := Option.map_eq_some_iff.mp h
      exact sameStacks_runOp hrun
  | true =>
      rcases conditional_cases hop with ⟨notif, hif⟩ | hother
      · rw [step_if hread hif, hexec] at h
        obtain ⟨⟨fValue, st'⟩, hrun, rfl⟩ := Option.map_eq_some_iff.mp h
        exact sameStacks_runIf hrun
      · cases vfExec with
        | nil => cases hexec
        | cons fValue vfExec =>
            rcases hother with helse | hend
            · rw [step_else hread helse] at h
              obtain ⟨st', hrun, rfl⟩ := Option.map_eq_some_iff.mp h
              exact sameStacks_runMark hrun
            · rw [step_endif hread hend] at h
              obtain ⟨st', hrun, rfl⟩ := Option.map_eq_some_iff.mp h
              exact sameStacks_runMark hrun

end BlockState

/-- **Conditionals are blocks.**  A script whose conditionals match is evaluated as the blocks that
they are; what is in a branch that is not taken changes no stack; and a script whose conditionals
do not match fails. -/
theorem evalScript_structured (ctx : SigContext) (flags : Nat) (stack : Stack)
    (script : CScript) :
    (∀ code : Code, ReadsOps script code.ops →
      (EvalState.loop ctx flags script.length
        { pc := script, pbegincodehash := script, stack := stack }).ret =
          (code.run ctx flags true { pbegincodehash := script, stack := stack }).map
            (·.flat [] []) ∧
      (evalScript ctx flags stack script).ret =
        if 10000 < script.length then none
        else (code.run ctx flags true { pbegincodehash := script, stack := stack }).map
          BlockState.stack) ∧
    (∀ s s' : EvalState, s.fExec = false → (s.step ctx flags).ret = some s' →
      s'.stack = s.stack ∧ s'.altstack = s.altstack) ∧
    (¬ Balanced script → (evalScript ctx flags stack script).ret = none) := by
  have hret : (evalScript ctx flags stack script).ret = if 10000 < script.length then none
      else (BlockState.finish ctx flags { pbegincodehash := script, stack := stack } script []).bind
        EvalState.result := by
    rw [evalScript, apply_ite Counted.ret]
    rfl
  refine ⟨fun code hreads ↦ ?_, fun s s' hexec hstep ↦ ?_, fun hnot ↦ ?_⟩
  · rw [← List.append_nil code.ops] at hreads
    obtain ⟨pc', hreads', hfinish⟩ := code.finish_eq ctx flags hreads
    cases hreads'
    have hloop := hfinish { pbegincodehash := script, stack := stack } []
    rw [List.all_nil] at hloop
    refine ⟨hloop.trans Option.map_eq_bind.symm, ?_⟩
    rw [hret, hloop, Option.bind_assoc, Option.map_eq_bind]
    rfl
  · have hsame : s.inner.SameStacks s'.inner := BlockState.sameStacks_step hexec hstep
    exact hsame
  · rw [hret]
    split
    case isTrue => rfl
    case isFalse =>
      refine Option.bind_eq_none_iff.mpr fun s' hfinish ↦ ?_
      rw [EvalState.result]
      split
      case isTrue hend =>
        obtain ⟨code, blocks, hlength, hreads⟩ := exists_code_of_finish hend hfinish
        obtain rfl := List.eq_nil_of_length_eq_zero hlength
        rw [openOps, List.flatMap_nil, List.append_nil] at hreads
        exact absurd ⟨code, hreads⟩ hnot
      case isFalse => rfl

end Fedoracoin
