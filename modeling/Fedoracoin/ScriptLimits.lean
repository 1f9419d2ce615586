import Fedoracoin.Lib.Run
import Fedoracoin.MultiSig
import Fedoracoin.ScriptNumForm
import Fedoracoin.StackAccess

/-!
# The limits of the interpreter

`EvalScript` ends, makes no access out of range (`evalScriptAccess_eq`), and keeps its limits after
every operation: `evalScript_limits`.
-/

namespace Fedoracoin

/-- `MAX_SCRIPT_ELEMENT_SIZE`. -/
def maxScriptElementSize : Nat := 520

/-- Every element of the stack has at most 520 bytes. -/
def Small (stack : Stack) : Prop := ∀ vch ∈ stack, vch.length ≤ maxScriptElementSize

namespace Small

variable {stack stack' : Stack} {vch : Valtype}

theorem cons (hvch : vch.length ≤ maxScriptElementSize) (h : Small stack) :
    Small (vch :: stack) := by
  intro x hx
  rcases List.mem_cons.mp hx with rfl | hx
  · exact hvch
  · exact h x hx

theorem subset (hsub : stack' ⊆ stack) (h : Small stack) : Small stack' :=
  fun vch hvch ↦ h vch (hsub hvch)

end Small

/-! ## The size of what is pushed -/

/-- A number has at most nine bytes. -/
theorem length_serialize_le (value : Int) : (CScriptNum.serialize value).length ≤ 9 := by
  have hle := CScriptNum.length_absBytes_le 8 value.natAbs
  rw [CScriptNum.serialize]
  split
  case h_1 => exact Nat.zero_le 9
  case h_2 =>
    split
    case isTrue =>
      rw [List.length_append]
      exact Nat.succ_le_succ hle
    case isFalse =>
      split
      case isTrue =>
        rw [List.length_append, List.length_dropLast, List.length_singleton]
        omega
      case isFalse => exact Nat.le_succ_of_le hle

theorem small_number (value : Int) : (CScriptNum.serialize value).length ≤ maxScriptElementSize :=
  (length_serialize_le value).trans (by decide)

theorem small_verdict (fSuccess : Bool) :
    (if fSuccess then vchTrue else vchFalse).length ≤ maxScriptElementSize := by
  cases fSuccess with
  | true => decide
  | false => decide

/-- An operation on the stack that keeps the elements small. -/
def KeepsSmall (f : Stack → Option Stack) : Prop :=
  ∀ stack stack', Small stack → f stack = some stack' → Small stack'

theorem small_pushVerdict {verify fSuccess : Bool} {stack stack' : Stack} (hs : Small stack)
    (h : pushVerdict verify fSuccess stack = some stack') : Small stack' := by
  rw [pushVerdict] at h
  split at h
  case isTrue =>
    split at h
    case isTrue =>
      obtain rfl := Option.some.inj h
      exact hs
    case isFalse => cases h
  case isFalse =>
    obtain rfl := Option.some.inj h
    exact hs.cons (small_verdict fSuccess)

/-- An operation that only rearranges, copies and drops. -/
theorem keepsSmall_of_subset {f : Stack → Option Stack}
    (h : ∀ stack stack', f stack = some stack' → stack' ⊆ stack) : KeepsSmall f :=
  fun stack stack' hs hf ↦ hs.subset (h stack stack' hf)

namespace Stack

theorem keepsSmall_drop2 : KeepsSmall drop2 := keepsSmall_of_subset fun stack stack' h x ↦ by
  unfold drop2 at h
  split at h
  · obtain rfl := Option.some.inj h
    simp only [List.mem_cons]
    tauto
  · cases h

theorem keepsSmall_dup2 : KeepsSmall dup2 := keepsSmall_of_subset fun stack stack' h x ↦ by
  unfold dup2 at h
  split at h
  · obtain rfl := Option.some.inj h
    simp only [List.mem_cons]
    tauto
  · cases h

theorem keepsSmall_dup3 : KeepsSmall dup3 := keepsSmall_of_subset fun stack stack' h x ↦ by
  unfold dup3 at h
  split at h
  · obtain rfl := Option.some.inj h
    simp only [List.mem_cons]
    tauto
  · cases h

theorem keepsSmall_over2 : KeepsSmall over2 := keepsSmall_of_subset fun stack stack' h x ↦ by
  unfold over2 at h
  split at h
  · obtain rfl := Option.some.inj h
    simp only [List.mem_cons]
    tauto
  · cases h

theorem keepsSmall_rot2 : KeepsSmall rot2 := keepsSmall_of_subset fun stack stack' h x ↦ by
  unfold rot2 at h
  split at h
  · obtain rfl := Option.some.inj h
    simp only [List.mem_cons]
    tauto
  · cases h

theorem keepsSmall_swap2 : KeepsSmall swap2 := keepsSmall_of_subset fun stack stack' h x ↦ by
  unfold swap2 at h
  split at h
  · obtain rfl := Option.some.inj h
    simp only [List.mem_cons]
    tauto
  · cases h

theorem keepsSmall_drop1 : KeepsSmall drop1 := keepsSmall_of_subset fun stack stack' h x ↦ by
  rcases stack with _ | ⟨x1, stack⟩
  · cases h
  · obtain rfl := Option.some.inj h
    simp only [List.mem_cons]
    tauto

theorem keepsSmall_dup : KeepsSmall dup := keepsSmall_of_subset fun stack stack' h x ↦ by
  rcases stack with _ | ⟨x1, stack⟩
  · cases h
  · obtain rfl := Option.some.inj h
    simp only [List.mem_cons]
    tauto

theorem keepsSmall_nip : KeepsSmall nip := keepsSmall_of_subset fun stack stack' h x ↦ by
  unfold nip at h
  split at h
  · obtain rfl := Option.some.inj h
    simp only [List.mem_cons]
    tauto
  · cases h

theorem keepsSmall_over : KeepsSmall «over» := keepsSmall_of_subset fun stack stack' h x ↦ by
  unfold «over» at h
  split at h
  · obtain rfl := Option.some.inj h
    simp only [List.mem_cons]
    tauto
  · cases h

theorem keepsSmall_rot : KeepsSmall rot := keepsSmall_of_subset fun stack stack' h x ↦ by
  unfold rot at h
  split at h
  · obtain rfl := Option.some.inj h
    simp only [List.mem_cons]
    tauto
  · cases h

theorem keepsSmall_swap : KeepsSmall swap := keepsSmall_of_subset fun stack stack' h x ↦ by
  unfold swap at h
  split at h
  · obtain rfl := Option.some.inj h
    simp only [List.mem_cons]
    tauto
  · cases h

theorem keepsSmall_tuck : KeepsSmall tuck := keepsSmall_of_subset fun stack stack' h x ↦ by
  unfold tuck at h
  split at h
  · obtain rfl := Option.some.inj h
    simp only [List.mem_cons]
    tauto
  · cases h

theorem keepsSmall_verify : KeepsSmall verify := keepsSmall_of_subset fun stack stack' h x ↦ by
  rcases stack with _ | ⟨x1, stack⟩
  · cases h
  · rw [verify] at h
    split at h
    case isTrue =>
      obtain rfl := Option.some.inj h
      exact List.mem_cons_of_mem x1
    case isFalse => cases h

theorem keepsSmall_ifdup : KeepsSmall ifdup := keepsSmall_of_subset fun stack stack' h x ↦ by
  rcases stack with _ | ⟨x1, stack⟩
  · cases h
  · obtain rfl := Option.some.inj h
    split
    case isTrue =>
      simp only [List.mem_cons]
      tauto
    case isFalse => exact id

theorem keepsSmall_pick (roll : Bool) : KeepsSmall (pick scriptInt roll) :=
  keepsSmall_of_subset fun stack stack' h x ↦ by
    rcases stack with _ | ⟨vch, _ | ⟨x1, stack⟩⟩
    · cases h
    · cases h
    · obtain ⟨n, -, h⟩ := Option.bind_eq_some_iff.mp h
      split at h
      case isTrue => cases h
      case isFalse =>
        obtain ⟨vch', hget, h⟩ := Option.bind_eq_some_iff.mp h
        obtain rfl := Option.some.inj h
        have hmem := List.mem_of_getElem? hget
        intro hx
        refine List.mem_cons_of_mem vch ?_
        rcases List.mem_cons.mp hx with rfl | hx
        · exact hmem
        · cases roll with
          | true => exact List.mem_of_mem_eraseIdx hx
          | false => exact hx

theorem keepsSmall_depth : KeepsSmall depth := fun stack stack' hs h ↦ by
  obtain rfl := Option.some.inj h
  exact hs.cons (small_number stack.length)

theorem keepsSmall_size : KeepsSmall size := fun stack stack' hs h ↦ by
  rcases stack with _ | ⟨x1, stack⟩
  · cases h
  · obtain rfl := Option.some.inj h
    exact hs.cons (small_number x1.length)

theorem keepsSmall_equal (verify : Bool) : KeepsSmall (equal verify) := fun stack stack' hs h ↦ by
  rcases stack with _ | ⟨x2, _ | ⟨x1, stack⟩⟩
  · cases h
  · cases h
  · exact small_pushVerdict (hs.subset fun x ↦ List.mem_cons_of_mem x2 ∘ List.mem_cons_of_mem x1) h

theorem keepsSmall_unary (f : CScriptNum → CScriptNum) : KeepsSmall (unary f) :=
  fun stack stack' hs h ↦ by
    rcases stack with _ | ⟨x1, stack⟩
    · cases h
    · obtain ⟨bn, -, h⟩ := Option.bind_eq_some_iff.mp h
      obtain rfl := Option.some.inj h
      exact (hs.subset fun x ↦ List.mem_cons_of_mem x1).cons (small_number (f bn))

theorem keepsSmall_binary (f : CScriptNum → CScriptNum → CScriptNum) : KeepsSmall (binary f) :=
  fun stack stack' hs h ↦ by
    rcases stack with _ | ⟨x2, _ | ⟨x1, stack⟩⟩
    · cases h
    · cases h
    · obtain ⟨bn1, -, h⟩ := Option.bind_eq_some_iff.mp h
      obtain ⟨bn2, -, h⟩ := Option.bind_eq_some_iff.mp h
      obtain rfl := Option.some.inj h
      exact (hs.subset fun x ↦ List.mem_cons_of_mem x2 ∘ List.mem_cons_of_mem x1).cons
        (small_number (f bn1 bn2))

theorem keepsSmall_compare (f : CScriptNum → CScriptNum → Bool) : KeepsSmall (compare f) :=
  keepsSmall_binary _

theorem keepsSmall_numequalverify : KeepsSmall fun stack ↦
    compare (fun bn1 bn2 ↦ bn1 = bn2) stack >>= verify := fun stack stack' hs h ↦ by
  obtain ⟨stack₁, hcompare, hverify⟩ := Option.bind_eq_some_iff.mp h
  exact keepsSmall_verify _ _ (keepsSmall_compare _ _ _ hs hcompare) hverify

theorem keepsSmall_within : KeepsSmall within := fun stack stack' hs h ↦ by
  rcases stack with _ | ⟨x3, _ | ⟨x2, _ | ⟨x1, stack⟩⟩⟩
  · cases h
  · cases h
  · cases h
  · obtain ⟨bn1, -, h⟩ := Option.bind_eq_some_iff.mp h
    obtain ⟨bn2, -, h⟩ := Option.bind_eq_some_iff.mp h
    obtain ⟨bn3, -, h⟩ := Option.bind_eq_some_iff.mp h
    refine small_pushVerdict (hs.subset fun x hx ↦ ?_) h
    exact List.mem_cons_of_mem x3 (List.mem_cons_of_mem x2 (List.mem_cons_of_mem x1 hx))

theorem keepsSmall_hash {n : Nat} (h : List UInt8 → Vector UInt8 n)
    (hn : n ≤ maxScriptElementSize) : KeepsSmall (hash h) := fun stack stack' hs hhash ↦ by
  rcases stack with _ | ⟨x1, stack⟩
  · cases hhash
  · obtain rfl := Option.some.inj hhash
    refine (hs.subset fun x ↦ List.mem_cons_of_mem x1).cons ?_
    rw [Vector.length_toList]
    exact hn

end Stack

theorem keepsSmall_stackOperation (crypto : Crypto) :
    ((switchLabels crypto).filterMap stackOperation).Forall fun p ↦ KeepsSmall p.2 :=
  ⟨Stack.keepsSmall_verify, Stack.keepsSmall_drop2, Stack.keepsSmall_dup2, Stack.keepsSmall_dup3,
    Stack.keepsSmall_over2, Stack.keepsSmall_rot2, Stack.keepsSmall_swap2, Stack.keepsSmall_ifdup,
    Stack.keepsSmall_depth, Stack.keepsSmall_drop1, Stack.keepsSmall_dup, Stack.keepsSmall_nip,
    Stack.keepsSmall_over, Stack.keepsSmall_pick false, Stack.keepsSmall_pick true,
    Stack.keepsSmall_rot, Stack.keepsSmall_swap, Stack.keepsSmall_tuck, Stack.keepsSmall_size,
    Stack.keepsSmall_equal false, Stack.keepsSmall_equal true, Stack.keepsSmall_unary _,
    Stack.keepsSmall_unary _, Stack.keepsSmall_unary _, Stack.keepsSmall_unary _,
    Stack.keepsSmall_unary _, Stack.keepsSmall_unary _, Stack.keepsSmall_binary _,
    Stack.keepsSmall_binary _, Stack.keepsSmall_compare _, Stack.keepsSmall_compare _,
    Stack.keepsSmall_compare _, Stack.keepsSmall_numequalverify, Stack.keepsSmall_compare _,
    Stack.keepsSmall_compare _, Stack.keepsSmall_compare _, Stack.keepsSmall_compare _,
    Stack.keepsSmall_compare _, Stack.keepsSmall_binary _, Stack.keepsSmall_binary _,
    Stack.keepsSmall_within, Stack.keepsSmall_hash _ (by decide),
    Stack.keepsSmall_hash _ (by decide), Stack.keepsSmall_hash _ (by decide),
    Stack.keepsSmall_hash _ (by decide),
    Stack.keepsSmall_hash _ (by decide)⟩

theorem keepsSmall_of_instruction {crypto : Crypto} {opcode : UInt8} {f : Stack → Option Stack}
    (h : instruction crypto opcode = .stack f) : KeepsSmall f := by
  have hmem := mem_switchLabels h (by simp) (by simp) (by simp)
  have hop : (opcode, f) ∈ (switchLabels crypto).filterMap stackOperation :=
    List.mem_filterMap.mpr ⟨_, hmem, rfl⟩
  exact List.forall_iff_forall_mem.mp (keepsSmall_stackOperation crypto) _ hop

/-! ## A round of the loop -/

namespace EvalState

variable {ctx : SigContext} {flags : Nat} {s s' : EvalState} {op : OpRead}

/-- The limits that hold at every operation. -/
structure Limits (s : EvalState) : Prop where
  small_stack : Small s.stack
  small_altstack : Small s.altstack
  nOpCount_le : s.nOpCount ≤ 201

theorem Limits.setStack (h : s.Limits) {stack : Stack} (hstack : Small stack) :
    { s with stack := stack }.Limits :=
  ⟨hstack, h.small_altstack, h.nOpCount_le⟩

theorem Limits.branchIf {notif : Bool} (h : s.Limits) (hs' : s.branchIf notif = some s') :
    s'.Limits ∧ s'.nOpCount = s.nOpCount := by
  rw [EvalState.branchIf] at hs'
  split at hs'
  case isTrue =>
    split at hs'
    case h_1 vch stack hstack =>
      obtain rfl := Option.some.inj hs'
      have hsmall := h.small_stack
      rw [hstack] at hsmall
      exact ⟨⟨hsmall.subset fun x ↦ List.mem_cons_of_mem vch, h.small_altstack, h.nOpCount_le⟩,
        rfl⟩
    case h_2 => cases hs'
  case isFalse =>
    obtain rfl := Option.some.inj hs'
    exact ⟨⟨h.small_stack, h.small_altstack, h.nOpCount_le⟩, rfl⟩

theorem Limits.toAltStack (h : s.Limits) (hs' : s.toAltStack = some s') :
    s'.Limits ∧ s'.nOpCount = s.nOpCount := by
  rw [EvalState.toAltStack] at hs'
  split at hs'
  case h_1 vch stack hstack =>
    obtain rfl := Option.some.inj hs'
    have hsmall := h.small_stack
    rw [hstack] at hsmall
    exact ⟨⟨hsmall.subset fun x ↦ List.mem_cons_of_mem vch,
      h.small_altstack.cons (hsmall vch List.mem_cons_self), h.nOpCount_le⟩, rfl⟩
  case h_2 => cases hs'

theorem Limits.fromAltStack (h : s.Limits) (hs' : s.fromAltStack = some s') :
    s'.Limits ∧ s'.nOpCount = s.nOpCount := by
  rw [EvalState.fromAltStack] at hs'
  split at hs'
  case h_1 vch altstack haltstack =>
    obtain rfl := Option.some.inj hs'
    have hsmall := h.small_altstack
    rw [haltstack] at hsmall
    exact ⟨⟨h.small_stack.cons (hsmall vch List.mem_cons_self),
      hsmall.subset fun x ↦ List.mem_cons_of_mem vch, h.nOpCount_le⟩, rfl⟩
  case h_2 => cases hs'

theorem small_evalCheckSig {verify : Bool} {code : CScript} {stack stack' : Stack}
    (hs : Small stack) (h : (ctx.evalCheckSig flags verify code stack).ret = some stack') :
    Small stack' := by
  rcases stack with _ | ⟨vchPubKey, _ | ⟨vchSig, stack⟩⟩
  · cases h
  · cases h
  · rw [SigContext.evalCheckSig] at h
    split at h
    case isTrue => cases h
    case isFalse =>
      obtain ⟨fSuccess, -, h⟩ := Option.bind_eq_some_iff.mp h
      refine small_pushVerdict (hs.subset fun x hx ↦ ?_) h
      exact List.mem_cons_of_mem vchPubKey (List.mem_cons_of_mem vchSig hx)

theorem Limits.checkMultiSig {verify : Bool} (h : s.Limits)
    (hs' : (s.checkMultiSig ctx flags verify).ret = some s') :
    s'.Limits ∧ s.nOpCount ≤ s'.nOpCount := by
  rw [EvalState.checkMultiSig] at hs'
  split at hs'
  case h_1 => cases hs'
  case h_2 args nOpCount hargs =>
    obtain ⟨fSuccess, -, hs'⟩ := Option.bind_eq_some_iff.mp hs'
    obtain ⟨stack, hverdict, hs'⟩ := Option.bind_eq_some_iff.mp hs'
    obtain rfl := Option.some.inj hs'
    obtain ⟨_, nKeys, nSigs, -, -, -, -, -, hcount, hle, rfl⟩ := multiSigArgs_eq_some hargs
    refine ⟨⟨?_, h.small_altstack, hle⟩, ?_⟩
    · exact small_pushVerdict (h.small_stack.subset (List.drop_subset ..)) hverdict
    · change s.nOpCount ≤ nOpCount
      omega

theorem Limits.execute {opcode : UInt8} (h : s.Limits)
    (hs' : (s.execute ctx flags (instruction ctx.crypto opcode)).ret = some s') :
    s'.Limits ∧ s.nOpCount ≤ s'.nOpCount := by
  cases hi : instruction ctx.crypto opcode with
  | pushNumber n =>
      rw [hi] at hs'
      obtain rfl := Option.some.inj hs'
      exact ⟨h.setStack (h.small_stack.cons (small_number n)), le_refl _⟩
  | nop =>
      rw [hi] at hs'
      obtain rfl := Option.some.inj hs'
      exact ⟨h, le_refl _⟩
  | codeSeparator =>
      rw [hi] at hs'
      obtain rfl := Option.some.inj hs'
      exact ⟨⟨h.small_stack, h.small_altstack, h.nOpCount_le⟩, le_refl _⟩
  | fail =>
      rw [hi] at hs'
      cases hs'
  | branchIf notif =>
      rw [hi] at hs'
      exact (h.branchIf hs').imp_right Eq.ge
  | branchElse =>
      rw [hi] at hs'
      change s.branchElse = some s' at hs'
      rw [branchElse] at hs'
      split at hs'
      case h_1 =>
        obtain rfl := Option.some.inj hs'
        exact ⟨⟨h.small_stack, h.small_altstack, h.nOpCount_le⟩, le_refl _⟩
      case h_2 => cases hs'
  | branchEnd =>
      rw [hi] at hs'
      change s.branchEnd = some s' at hs'
      rw [branchEnd] at hs'
      split at hs'
      case h_1 =>
        obtain rfl := Option.some.inj hs'
        exact ⟨⟨h.small_stack, h.small_altstack, h.nOpCount_le⟩, le_refl _⟩
      case h_2 => cases hs'
  | toAltStack =>
      rw [hi] at hs'
      exact (h.toAltStack hs').imp_right Eq.ge
  | fromAltStack =>
      rw [hi] at hs'
      exact (h.fromAltStack hs').imp_right Eq.ge
  | stack f =>
      rw [hi] at hs'
      obtain ⟨stack, hf, rfl⟩ := Option.map_eq_some_iff.mp hs'
      exact ⟨h.setStack (keepsSmall_of_instruction hi _ _ h.small_stack hf), le_refl _⟩
  | checkSig verify =>
      rw [hi] at hs'
      obtain ⟨stack, hcheck, rfl⟩ := Option.map_eq_some_iff.mp hs'
      exact ⟨h.setStack (small_evalCheckSig h.small_stack hcheck), le_refl _⟩
  | checkMultiSig verify =>
      rw [hi] at hs'
      exact h.checkMultiSig hs'

/-- The opcodes that are counted. -/
def isCounted (op : OpRead) : Bool := decide (op16 < op.opcodeRet)

/-- **A round keeps the limits**, and counts its operation. -/
theorem Limits.step (h : s.Limits) (hs' : (s.step ctx flags).ret = some s') :
    s'.Limits ∧ s'.stack.length + s'.altstack.length ≤ 1000 ∧
      s.nOpCount + (if isCounted (getOp2 s.pc) then 1 else 0) ≤ s'.nOpCount := by
  cases hfetch : s.fetch with
  | none =>
      rw [step_of_fetch_eq_none hfetch] at hs'
      cases hs'
  | some p =>
      obtain ⟨op, s₁⟩ := p
      obtain ⟨rfl, -, hsize, -, hs₁, hcount⟩ := fetch_eq_some hfetch
      rw [step_eq hfetch] at hs'
      obtain ⟨s₂, hexec, hlimited⟩ := Option.bind_eq_some_iff.mp hs'
      obtain ⟨rfl, htotal⟩ := limited_eq_some hlimited
      have hops : s₁.nOpCount = s.nOpCount + if isCounted (getOp2 s.pc) then 1 else 0 := by
        rw [hs₁, isCounted]
        by_cases hop : op16 < (getOp2 s.pc).opcodeRet
        · rw [decide_eq_true hop]
          exact if_pos hop
        · rw [decide_eq_false hop]
          exact if_neg hop
      have hlimits : s₁.Limits := by
        rw [hs₁]
        refine ⟨h.small_stack, h.small_altstack, ?_⟩
        dsimp only
        split
        case isTrue hop => exact hcount hop
        case isFalse => exact h.nOpCount_le
      rw [← hops]
      have hperformed : s'.Limits ∧ s₁.nOpCount ≤ s'.nOpCount := by
        split at hexec
        case isTrue =>
          obtain rfl := Option.some.inj hexec
          exact ⟨hlimits.setStack (hlimits.small_stack.cons hsize), le_refl _⟩
        case isFalse =>
          split at hexec
          case isTrue => exact hlimits.execute hexec
          case isFalse =>
            obtain rfl := Option.some.inj hexec
            exact ⟨hlimits, le_refl _⟩
      exact ⟨hperformed.1, htotal, hperformed.2⟩

/-- A round of the loop, with the operation that it takes. -/
def Round (ctx : SigContext) (flags : Nat) (s : EvalState) (op : OpRead) (s' : EvalState) : Prop :=
  s.pc ≠ [] ∧ op = getOp2 s.pc ∧ (s.step ctx flags).ret = some s'

/-- What holds after some rounds. -/
theorem limits_of_run {ops : List OpRead} (hrun : Run (Round ctx flags) s ops s')
    (h : s.Limits) (htotal : s.stack.length + s.altstack.length ≤ 1000) :
    s'.Limits ∧ s'.stack.length + s'.altstack.length ≤ 1000 ∧
      s.nOpCount + ops.countP isCounted ≤ s'.nOpCount ∧ s'.pc <:+ s.pc ∧
      ops.length + s'.pc.length ≤ s.pc.length := by
  induction hrun with
  | nil => exact ⟨h, htotal, le_refl _, List.suffix_refl _, (Nat.zero_add _).le⟩
  | @cons s s₁ s' op ops hround _ ih =>
      obtain ⟨-, rfl, hstep⟩ := hround
      obtain ⟨h₁, htotal₁, hcount₁⟩ := h.step hstep
      obtain ⟨hread, hpc₁⟩ := pc_step hstep
      have hsuffix := getOp2_suffix s.pc
      have hlt := length_getOp2_lt hread
      rw [← hpc₁] at hsuffix hlt
      obtain ⟨h', htotal', hcount', hsuffix', hlength'⟩ := ih h₁ htotal₁
      refine ⟨h', htotal', ?_, hsuffix'.trans hsuffix, ?_⟩
      · rw [List.countP_cons]
        omega
      · rw [List.length_cons]
        omega

end EvalState

/-- **The limits of the interpreter.**  `EvalScript` ends without an access out of range, and after
every operation the elements are small, the stacks have at most 1000 of them, at most 201 operations
have been counted, and the iterator is in the script. -/
theorem evalScript_limits (ctx : SigContext) (flags : Nat) (stack : Stack) (script : CScript)
    (hsmall : Small stack) (hlength : stack.length ≤ 1000) :
    (evalScriptAccess ctx flags stack script ≠ .unfinished ∧
      evalScriptAccess ctx flags stack script ≠ .outOfRange ∧
      evalScriptAccess ctx flags stack script =
        Access.ofOption (evalScript ctx flags stack script).ret) ∧
    ∀ (ops : List OpRead) (s : EvalState),
      Run (EvalState.Round ctx flags) { pc := script, pbegincodehash := script, stack := stack }
        ops s →
      Small s.stack ∧ Small s.altstack ∧ s.stack.length + s.altstack.length ≤ 1000 ∧
        ops.countP EvalState.isCounted ≤ s.nOpCount ∧ s.nOpCount ≤ 201 ∧ s.pc <:+ script ∧
        ops.length ≤ script.length := by
  have heq := evalScriptAccess_eq ctx flags stack script
  refine ⟨⟨?_, ?_, heq⟩, fun ops s hrun ↦ ?_⟩
  · rw [heq]
    exact Access.ofOption_ne_unfinished _
  · rw [heq]
    exact Access.ofOption_ne_outOfRange _
  · obtain ⟨h, htotal, hcount, hsuffix, hle⟩ := EvalState.limits_of_run hrun
      ⟨hsmall, nofun, Nat.zero_le 201⟩ hlength
    exact ⟨h.small_stack, h.small_altstack, htotal, (Nat.zero_add _).symm.trans_le hcount,
      h.nOpCount_le, hsuffix, (Nat.le_add_right _ _).trans hle⟩

theorem evalScript_limits_sample :
    evalScriptAccess sampleContext 0 [[1]] [opDup] = .ok [[1], [1]] ∧
      ∀ (ops : List OpRead) (s : EvalState),
        Run (EvalState.Round sampleContext 0)
          { pc := [opDup], pbegincodehash := [opDup], stack := [[1]] } ops s →
        Small s.stack ∧ ops.length ≤ 1 := by
  have hsmall : Small [[1]] := by
    intro vch hvch
    obtain rfl := List.mem_singleton.mp hvch
    decide
  obtain ⟨⟨-, -, heq⟩, hall⟩ :=
    evalScript_limits sampleContext 0 [[1]] [opDup] hsmall (by decide)
  refine ⟨heq.trans rfl, fun ops s hrun ↦ ?_⟩
  obtain ⟨hs, -, -, -, -, -, hle⟩ := hall ops s hrun
  exact ⟨hs, hle⟩

end Fedoracoin
