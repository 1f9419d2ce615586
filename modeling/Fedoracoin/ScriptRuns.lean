import Fedoracoin.KeyMatching
import Fedoracoin.SigOps

/-!
# Evaluating scripts without conditionals

What the interpreter makes of a script that pushes, and of the operations behind it, one lemma for
each.  `EvalState.ends` is what the evaluation from a state on leaves; the lemmas say how it
changes with one operation, so that the evaluation of a script is a chain of them.
-/

namespace Fedoracoin

open Wire Matching

/-! ## Scripts that push -/

/-- Reading from an iterator gives the values that are pushed, up to another. -/
inductive Pushes : CScript → List Valtype → CScript → Prop
  | nil (pc : CScript) : Pushes pc [] pc
  | cons {pc tail : CScript} {vs : List Valtype} (hread : (getOp2 pc).fRet = true)
      (hle : (getOp2 pc).opcodeRet ≤ opPushdata4) (hrest : Pushes (getOp2 pc).pc vs tail) :
      Pushes pc ((getOp2 pc).vchRet :: vs) tail

variable {pc pc' tail : CScript} {vs ws : List Valtype} {v : Valtype}

theorem length_le_of_getPushSize {opcode : UInt8} {nSize : Nat}
    (h : getPushSize opcode pc = some (nSize, pc')) : pc.length ≤ 4 + pc'.length := by
  have hread {k : Nat} (hk : k ≤ 4) (h : readPushSize k pc = some (nSize, pc')) :
      pc.length ≤ 4 + pc'.length := by
    rw [readPushSize] at h
    split at h
    case isTrue => cases h
    case isFalse =>
      obtain ⟨-, rfl⟩ := Prod.mk.inj (Option.some.inj h)
      rw [List.length_drop]
      omega
  rw [getPushSize] at h
  split_ifs at h
  · obtain ⟨-, rfl⟩ := Prod.mk.inj (Option.some.inj h)
    omega
  · exact hread (by decide) h
  · exact hread (by decide) h
  · exact hread (by decide) h

/-- A push takes its value, and five bytes more at most. -/
theorem length_le_of_getOp2 (hread : (getOp2 pc).fRet = true)
    (hle : (getOp2 pc).opcodeRet ≤ opPushdata4) :
    pc.length ≤ 5 + (getOp2 pc).vchRet.length + (getOp2 pc).pc.length := by
  cases pc with
  | nil => cases hread
  | cons opcode pc =>
      rw [opcodeRet_of_getOp2 hread] at hle
      rw [getOp2, if_pos hle] at hread ⊢
      split at hread
      case h_1 => cases hread
      case h_2 nSize pc' hsize =>
        have hlength := length_le_of_getPushSize hsize
        split at hread
        case isTrue => cases hread
        case isFalse h =>
          rw [if_neg h]
          simp only [List.length_cons, List.length_take, List.length_drop]
          omega

/-- A value behind its size. -/
theorem getOp2_of_getPushSize {opcode : UInt8} (hop : opcode ≤ opPushdata4)
    (hsize : getPushSize opcode pc = some (v.length, v ++ tail)) :
    getOp2 (opcode :: pc) = ⟨true, opcode, v, tail⟩ := by
  rw [getOp2, if_pos hop, hsize]
  dsimp only
  rw [if_neg (by rw [List.length_append]; omega), List.take_left, List.drop_left]

theorem readPushSize_append {k n : Nat} (h : n < 256 ^ k) (rest : List UInt8) :
    readPushSize k (toBytes k n ++ rest) = some (n, rest) := by
  rw [readPushSize, if_neg (by rw [List.length_append, length_toBytes]; omega),
    List.take_left' (length_toBytes k n), List.drop_left' (length_toBytes k n), ofBytes_toBytes h]

/-- What `operator<<` appends is read as it was given. -/
theorem getOp2_push (v : Valtype) (tail : CScript) (h : v.length < 2 ^ 32) :
    ∃ opcode ≤ opPushdata4, getOp2 (CScript.push [] v ++ tail) = ⟨true, opcode, v, tail⟩ := by
  rw [CScript.push, List.nil_append, List.append_assoc]
  split
  case isTrue hlt =>
    have hnat : (UInt8.ofNat v.length).toNat = v.length :=
      UInt8.toNat_ofNat_of_lt' (hlt.trans (by decide))
    have hop : UInt8.ofNat v.length < opPushdata1 := by
      rw [UInt8.lt_iff_toNat_lt, hnat]
      exact hlt
    refine ⟨_, UInt8.le_of_lt (UInt8.lt_trans hop (by decide)), getOp2_of_getPushSize
      (UInt8.le_of_lt (UInt8.lt_trans hop (by decide))) ?_⟩
    rw [getPushSize, if_pos hop, hnat]
    rfl
  case isFalse =>
    split
    case isTrue hle =>
      refine ⟨opPushdata1, by decide, getOp2_of_getPushSize (by decide) ?_⟩
      have hread := readPushSize_append (k := 1) (n := v.length) (by omega) (v ++ tail)
      exact hread
    case isFalse =>
      split
      case isTrue hle =>
        refine ⟨opPushdata2, by decide, getOp2_of_getPushSize (by decide) ?_⟩
        have hread := readPushSize_append (k := 2) (n := v.length) (by omega) (v ++ tail)
        exact hread
      case isFalse =>
        refine ⟨opPushdata4, by decide, getOp2_of_getPushSize (by decide) ?_⟩
        have hread := readPushSize_append (k := 4) (n := v.length) (by omega) (v ++ tail)
        exact hread

namespace Pushes

theorem append (h : Pushes pc vs pc') (h' : Pushes pc' ws tail) : Pushes pc (vs ++ ws) tail := by
  induction h with
  | nil pc => exact h'
  | cons hread hle _ ih => exact .cons hread hle (ih h')

theorem single {opcode : UInt8} (h : getOp2 pc = ⟨true, opcode, v, tail⟩)
    (hle : opcode ≤ opPushdata4) : Pushes pc [v] tail := by
  have hread : (getOp2 pc).fRet = true := by rw [h]
  have hop : (getOp2 pc).opcodeRet ≤ opPushdata4 := by
    rw [h]
    exact hle
  have hrest : Pushes (getOp2 pc).pc [] tail := by
    rw [h]
    exact .nil tail
  have hpushes := cons hread hop hrest
  rwa [h] at hpushes

theorem push (v : Valtype) (tail : CScript) (h : v.length < 2 ^ 32) :
    Pushes (CScript.push [] v ++ tail) [v] tail := by
  obtain ⟨opcode, hle, hread⟩ := getOp2_push v tail h
  exact single hread hle

/-- A script that only pushes. -/
theorem isPushOnlyLoop_eq {n : Nat} (hn : pc.length ≤ n) (h : Pushes pc vs []) :
    isPushOnlyLoop n pc = true := by
  induction n generalizing pc vs with
  | zero => rfl
  | succ n ih =>
      rw [isPushOnlyLoop]
      split
      case isTrue => rfl
      case isFalse hpc =>
        cases h with
        | nil => exact absurd rfl hpc
        | cons hread hle hrest =>
            have hlt := length_getOp2_lt hread
            have hop : ¬ op16 < (getOp2 pc).opcodeRet :=
              UInt8.not_lt.mpr (UInt8.le_trans hle (by decide))
            dsimp only
            rw [hread, decide_eq_false hop, ih (by omega) hrest]
            rfl

theorem isPushOnly (h : Pushes pc vs []) : isPushOnly pc = true :=
  h.isPushOnlyLoop_eq (le_refl _)

/-- How long a script is that pushes. -/
theorem length_le (h : Pushes pc vs tail) :
    pc.length ≤ (vs.map fun v ↦ 5 + v.length).sum + tail.length := by
  induction h with
  | nil pc => simp
  | cons hread hle hrest ih =>
      have hop := length_le_of_getOp2 hread hle
      rw [List.map_cons, List.sum_cons]
      omega

end Pushes

/-! ## What is not pushed is not deleted -/

/-- None of the operations that are read from an iterator has `v`. -/
inductive NotPushed (v : Valtype) : CScript → Prop
  | stop {pc : CScript} (hread : (getOp2 pc).fRet = false) : NotPushed v pc
  | read {pc : CScript} (hne : (getOp2 pc).vchRet ≠ v) (hrest : NotPushed v (getOp2 pc).pc) :
      NotPushed v pc

theorem NotPushed.nil : NotPushed v [] := .stop rfl

theorem NotPushed.code {opcode : UInt8} (hop : opPushdata4 < opcode) (hv : v ≠ [])
    (h : NotPushed v tail) : NotPushed v (opcode :: tail) := by
  have hread : getOp2 (opcode :: tail) = ⟨true, opcode, [], tail⟩ := by
    rw [getOp2, if_neg (UInt8.not_le.mpr hop)]
  refine .read ?_ ?_
  · rw [hread]
    exact hv.symm
  · rwa [hread]

theorem Pushes.notPushed (h : Pushes pc vs tail) (hvs : ∀ w ∈ vs, w ≠ v)
    (htail : NotPushed v tail) : NotPushed v pc := by
  induction h with
  | nil pc => exact htail
  | cons hread hle _ ih =>
      exact .read (hvs _ List.mem_cons_self)
        (ih (fun w hw ↦ hvs w (List.mem_cons_of_mem _ hw)) htail)

theorem push_ne_nil (v : Valtype) : CScript.push [] v ≠ [] := by
  rw [CScript.push, List.nil_append]
  split_ifs
  all_goals exact List.cons_ne_nil _ _

theorem not_isPrefixOf_push (hv : v.length < 2 ^ 32)
    (hpc : (getOp2 pc).fRet = false ∨ (getOp2 pc).vchRet ≠ v) :
    (CScript.push [] v).isPrefixOf pc = false := by
  refine Bool.eq_false_iff.mpr fun hpre ↦ ?_
  obtain ⟨tail, rfl⟩ := List.isPrefixOf_iff_prefix.mp hpre
  obtain ⟨opcode, -, hread⟩ := getOp2_push v tail hv
  rw [hread] at hpc
  exact hpc.elim (fun h ↦ by cases h) fun h ↦ h rfl

theorem findAndDeleteLoop_notPushed {n nFound : Nat} {done : List UInt8} (hv : v.length < 2 ^ 32)
    (h : NotPushed v pc) :
    (findAndDeleteLoop (CScript.push [] v) n done pc nFound).1 = done ++ pc := by
  have hmatch : ∀ pc nFound, (getOp2 pc).fRet = false ∨ (getOp2 pc).vchRet ≠ v →
      eraseMatches (CScript.push [] v) pc.length pc nFound = (pc, nFound) := by
    intro pc nFound hpc
    cases hlen : pc.length with
    | zero => rfl
    | succ n => rw [eraseMatches, not_isPrefixOf_push hv hpc, if_neg Bool.false_ne_true]
  induction h generalizing n nFound done with
  | stop hread =>
      cases n with
      | zero => rfl
      | succ n =>
          rw [findAndDeleteLoop, hmatch _ _ (.inl hread)]
          dsimp only
          rw [hread, if_neg Bool.false_ne_true]
  | @read pc hne _ ih =>
      cases n with
      | zero => rfl
      | succ n =>
          rw [findAndDeleteLoop, hmatch _ _ (.inr hne)]
          dsimp only
          split
          · rw [ih, List.append_assoc, readBytes_append]
          · rfl

theorem findAndDelete_notPushed (hv : v.length < 2 ^ 32) (h : NotPushed v pc) :
    (findAndDelete pc (CScript.push [] v)).1 = pc := by
  rw [findAndDelete, if_neg (push_ne_nil v), findAndDeleteLoop_notPushed hv h, List.nil_append]

/-- The script that is signed, if it pushes none of the signatures. -/
theorem scriptCode_notPushed {sigs : List Valtype}
    (h : ∀ vchSig ∈ sigs, vchSig.length < 2 ^ 32 ∧ NotPushed vchSig pc) :
    scriptCode pc sigs = pc := by
  rw [scriptCode]
  induction sigs with
  | nil => rfl
  | cons vchSig sigs ih =>
      obtain ⟨hlength, hnot⟩ := h vchSig List.mem_cons_self
      rw [List.foldl_cons, findAndDelete_notPushed hlength hnot]
      exact ih fun w hw ↦ h w (List.mem_cons_of_mem _ hw)

/-! ## Signature operations -/

theorem checkSignatureEncoding_of_flags {flags : Nat} (hflags : flags &&& scriptVerifyDersig = 0)
    (vchSig : Valtype) : checkSignatureEncoding vchSig flags = some true := by
  rw [checkSignatureEncoding]
  split
  case isTrue => rfl
  case isFalse => rw [if_neg (not_not.mpr hflags)]; rfl

/-- The counts and the elements that `OP_CHECKMULTISIG` finds. -/
theorem multiSigArgs_elements {nOpCount : Nat} {vchKeys vchSigs vchDummy : Valtype}
    {keys sigs : List Valtype} {below : Stack}
    (hkeys : scriptInt vchKeys = some (keys.length : Int))
    (hsigs : scriptInt vchSigs = some (sigs.length : Int)) (hle : sigs.length ≤ keys.length)
    (htwenty : keys.length ≤ 20) (hcount : nOpCount + keys.length ≤ 201) :
    multiSigArgs nOpCount (multiSigElements vchKeys vchSigs keys sigs ++ vchDummy :: below) =
      some ({ keys := keys, sigs := sigs, rest := below }, nOpCount + keys.length) := by
  have hlength : (multiSigElements vchKeys vchSigs keys sigs ++ vchDummy :: below).length =
      3 + keys.length + sigs.length + below.length := by
    simp only [multiSigElements, List.length_append, List.length_cons]
    omega
  have htop : (multiSigElements vchKeys vchSigs keys sigs ++ vchDummy :: below)[1 + keys.length]? =
      some vchSigs := by
    rw [← List.head?_drop, ← List.drop_drop, drop_keys, List.drop_left]
    rfl
  have hrest : (multiSigElements vchKeys vchSigs keys sigs ++ vchDummy :: below).drop
      (3 + keys.length + sigs.length) = below := by
    rw [show 3 + keys.length + sigs.length = 2 + keys.length + (sigs.length + 1) by omega,
      ← List.drop_drop, drop_sigs, ← List.drop_drop, List.drop_left]
    rfl
  rw [multiSigArgs, show (multiSigElements vchKeys vchSigs keys sigs ++ vchDummy :: below)[0]? =
    some vchKeys from rfl]
  dsimp only [bind, Option.bind]
  rw [hkeys]
  dsimp only
  rw [if_neg (by omega), Int.toNat_natCast, if_neg (by omega), if_neg (by omega), htop]
  dsimp only
  rw [hsigs]
  dsimp only
  rw [if_neg (by omega), Int.toNat_natCast, if_neg (by omega), drop_keys, drop_sigs, hrest,
    List.take_left, List.take_left]
  rfl

/-- The loop is the single pass over the keys. -/
theorem matchSigs_eq {ctx : SigContext} {flags : Nat} (hflags : flags &&& scriptVerifyDersig = 0)
    (code : CScript) (keys sigs : List Valtype) :
    (ctx.matchSigs flags code keys sigs).ret = some (greedy (ctx.sigOk flags code) sigs keys) := by
  induction keys generalizing sigs with
  | nil =>
      cases sigs with
      | nil => rfl
      | cons vchSig sigs => rfl
  | cons vchPubKey keys ih =>
      cases sigs with
      | nil => rfl
      | cons vchSig sigs =>
          have hret : (ctx.checkCanonicalSig flags vchSig vchPubKey code).ret =
              some (ctx.sigOk flags code vchSig vchPubKey) := by
            rw [SigContext.sigOk, SigContext.checkCanonicalSig]
            split
            case isTrue => rfl
            case isFalse => rfl
          rw [SigContext.matchSigs,
            if_neg (not_not.mpr (checkSignatureEncoding_of_flags hflags vchSig)), greedy]
          simp only [hret, Option.some.injEq]
          generalize (if ctx.sigOk flags code vchSig vchPubKey = true then sigs
            else vchSig :: sigs) = left
          split
          case isTrue => rfl
          case isFalse => exact ih left

/-! ## One operation after the other -/

namespace EvalState

variable {ctx : SigContext} {flags : Nat} {s s' : EvalState} {c : UInt8}

/-- What the evaluation leaves from a state on. -/
def ends (ctx : SigContext) (flags : Nat) (s : EvalState) : Option Stack :=
  (loop ctx flags s.pc.length s).ret.bind result

theorem ends_nil (hpc : s.pc = []) (hvfExec : s.vfExec = []) :
    ends ctx flags s = some s.stack := by
  rw [ends, loop_end _ hpc, Option.bind_some, result, if_pos hvfExec]

theorem ends_step (hpc : s.pc ≠ []) (h : (s.step ctx flags).ret = some s') :
    ends ctx flags s = ends ctx flags s' := by
  rw [ends, ret_loop_step hpc, h]
  rfl

theorem ends_fail (hpc : s.pc ≠ []) (h : (s.step ctx flags).ret = none) :
    ends ctx flags s = none := by
  rw [ends, ret_loop_step hpc, h]
  rfl

theorem limited_of_le (h : s.stack.length + s.altstack.length ≤ 1000) : s.limited = some s :=
  if_neg (Nat.not_lt.mpr h)

theorem ne_nil_of_read (hread : (getOp2 s.pc).fRet = true) : s.pc ≠ [] := by
  intro hpc
  rw [hpc] at hread
  cases hread

theorem fExec_of_nil (hvfExec : s.vfExec = []) : s.fExec = true := by
  rw [fExec, hvfExec]
  rfl

theorem fetch_of_read (hread : (getOp2 s.pc).fRet = true)
    (hsize : (getOp2 s.pc).vchRet.length ≤ 520) (hle : (getOp2 s.pc).opcodeRet ≤ op16) :
    s.fetch = some (getOp2 s.pc, { s with pc := (getOp2 s.pc).pc }) := by
  have hop : ¬ op16 < (getOp2 s.pc).opcodeRet := UInt8.not_lt.mpr hle
  have hdisabled : (getOp2 s.pc).opcodeRet ∉ disabledOpcodes := by
    intro hmem
    have hall : disabledOpcodes.all (fun o ↦ decide (op16 < o)) = true := rfl
    exact hop (of_decide_eq_true (List.all_eq_true.mp hall _ hmem))
  rw [fetch, hread, Bool.not_true, if_neg Bool.false_ne_true, if_neg (Nat.not_lt.mpr hsize),
    if_neg (fun h ↦ hop h.1), if_neg hdisabled, if_neg hop]

/-- A push. -/
theorem ends_push (hread : (getOp2 s.pc).fRet = true)
    (hsize : (getOp2 s.pc).vchRet.length ≤ 520) (hle : (getOp2 s.pc).opcodeRet ≤ opPushdata4)
    (hvfExec : s.vfExec = []) (hstack : s.stack.length + s.altstack.length < 1000) :
    ends ctx flags s = ends ctx flags
      { s with pc := (getOp2 s.pc).pc, stack := (getOp2 s.pc).vchRet :: s.stack } := by
  have hle' : (getOp2 s.pc).opcodeRet ≤ op16 := UInt8.le_trans hle (by decide)
  refine ends_step (ne_nil_of_read hread) ?_
  rw [step_push (fetch_of_read hread hsize hle') (fExec_of_nil hvfExec) hle', pushedValue,
    if_pos hle]
  refine limited_of_le ?_
  dsimp only
  rw [List.length_cons]
  omega

/-- A push of more than an element may have. -/
theorem ends_push_long (hread : (getOp2 s.pc).fRet = true)
    (hsize : 520 < (getOp2 s.pc).vchRet.length) : ends ctx flags s = none := by
  refine ends_fail (ne_nil_of_read hread) (congrArg Counted.ret (step_of_fetch_eq_none ?_))
  rw [fetch, hread, Bool.not_true, if_neg Bool.false_ne_true, if_pos hsize]

/-- Pushes, one after the other. -/
theorem ends_pushes (h : Pushes s.pc vs tail) (hsize : ∀ v ∈ vs, v.length ≤ 520)
    (hvfExec : s.vfExec = []) (hstack : s.stack.length + s.altstack.length + vs.length ≤ 1000) :
    ends ctx flags s = ends ctx flags { s with pc := tail, stack := vs.reverse ++ s.stack } := by
  generalize hpc : s.pc = pc at h
  induction h generalizing s with
  | nil pc =>
      subst hpc
      rfl
  | cons hread hle hrest ih =>
      subst hpc
      rw [List.length_cons] at hstack
      refine (ends_push hread (hsize _ List.mem_cons_self) hle hvfExec (by omega)).trans ?_
      refine (ih (s := { s with pc := (getOp2 s.pc).pc, stack := (getOp2 s.pc).vchRet :: s.stack })
        (fun v hv ↦ hsize v (List.mem_cons_of_mem _ hv)) hvfExec ?_ rfl).trans ?_
      · simp only [List.length_cons]
        omega
      · rw [List.reverse_cons, List.append_assoc]
        rfl

/-- One of them has more than an element may have. -/
theorem ends_pushes_long (h : Pushes s.pc vs tail) (hsize : ∃ v ∈ vs, 520 < v.length)
    (hvfExec : s.vfExec = []) (hstack : s.stack.length + s.altstack.length + vs.length ≤ 1000) :
    ends ctx flags s = none := by
  generalize hpc : s.pc = pc at h
  induction h generalizing s with
  | nil pc =>
      obtain ⟨v, hv, -⟩ := hsize
      cases hv
  | cons hread hle hrest ih =>
      subst hpc
      rw [List.length_cons] at hstack
      by_cases hlong : 520 < (getOp2 s.pc).vchRet.length
      · exact ends_push_long hread hlong
      · rw [ends_push hread (Nat.le_of_not_lt hlong) hle hvfExec (by omega)]
        refine ih (s := { s with
          pc := (getOp2 s.pc).pc, stack := (getOp2 s.pc).vchRet :: s.stack }) ?_ hvfExec ?_ rfl
        · obtain ⟨v, hv, hv520⟩ := hsize
          obtain rfl | hv := List.mem_cons.mp hv
          · exact absurd hv520 hlong
          · exact ⟨v, hv, hv520⟩
        · simp only [List.length_cons]
          omega

/-- An opcode above `OP_16`. -/
theorem ends_code (hpc : s.pc = c :: tail) (hc : op16 < c) (hdisabled : c ∉ disabledOpcodes)
    (hvfExec : s.vfExec = []) (hcount : s.nOpCount + 1 ≤ 201)
    (hrun : ((({ s with pc := tail, nOpCount := s.nOpCount + 1 } : EvalState).execute ctx flags
      (instruction ctx.crypto c)).ret.bind limited) = some s') :
    ends ctx flags s = ends ctx flags s' := by
  have hread : getOp2 s.pc = ⟨true, c, [], tail⟩ := by
    rw [hpc, getOp2, if_neg (UInt8.not_le.mpr (UInt8.lt_trans (by decide) hc))]
  have hfetch : s.fetch = some (⟨true, c, [], tail⟩,
      { s with pc := tail, nOpCount := s.nOpCount + 1 }) := by
    rw [fetch, hread]
    dsimp only
    rw [Bool.not_true, if_neg Bool.false_ne_true, if_neg (by simp),
      if_neg (fun h ↦ absurd h.2 (Nat.not_lt.mpr hcount)), if_neg hdisabled, if_pos hc]
  refine ends_step (hpc ▸ List.cons_ne_nil c tail) ?_
  rw [step_eq hfetch]
  dsimp only
  have hexec : fExec { s with pc := tail, nOpCount := s.nOpCount + 1 } = true :=
    fExec_of_nil hvfExec
  rw [if_neg fun h ↦ absurd h.2 (UInt8.not_le.mpr (UInt8.lt_trans (by decide) hc)),
    if_pos (Or.inl hexec)]
  exact hrun

/-- An operation on the stack alone. -/
theorem ends_stack {f : Stack → Option Stack} {stack : Stack} (hpc : s.pc = c :: tail)
    (hc : op16 < c) (hdisabled : c ∉ disabledOpcodes) (hvfExec : s.vfExec = [])
    (hcount : s.nOpCount + 1 ≤ 201) (hop : instruction ctx.crypto c = .stack f)
    (hf : f s.stack = some stack) (hlimit : stack.length + s.altstack.length ≤ 1000) :
    ends ctx flags s =
      ends ctx flags { s with pc := tail, nOpCount := s.nOpCount + 1, stack := stack } := by
  refine ends_code hpc hc hdisabled hvfExec hcount ?_
  rw [hop]
  change ((f s.stack).map _).bind limited = _
  rw [hf]
  exact limited_of_le hlimit

/-- `OP_1` to `OP_16`. -/
theorem ends_number (hpc : s.pc = c :: tail) (hc : op1 ≤ c ∧ c ≤ op16) (hvfExec : s.vfExec = [])
    (hstack : s.stack.length + s.altstack.length < 1000) :
    ends ctx flags s = ends ctx flags
      { s with pc := tail, stack := CScriptNum.serialize ((c.toNat : Int) - 0x50) :: s.stack } := by
  have hop : ¬ c ≤ opPushdata4 := UInt8.not_le.mpr (UInt8.lt_of_lt_of_le (by decide) hc.1)
  have hread : getOp2 s.pc = ⟨true, c, [], tail⟩ := by
    rw [hpc, getOp2, if_neg hop]
  have hfetch : s.fetch = some (getOp2 s.pc, { s with pc := (getOp2 s.pc).pc }) :=
    fetch_of_read (by rw [hread]) (by rw [hread]; exact Nat.zero_le _) (by rw [hread]; exact hc.2)
  rw [hread] at hfetch
  refine ends_step (hpc ▸ List.cons_ne_nil c tail) ?_
  rw [step_push hfetch (fExec_of_nil hvfExec) hc.2, pushedValue, if_neg hop, if_pos (Or.inr hc)]
  refine limited_of_le ?_
  dsimp only
  rw [List.length_cons]
  omega

/-- `OP_CHECKSIG` at the end of a script. -/
theorem ends_checkSig {vchPubKey vchSig : Valtype} {below : Stack}
    (hflags : flags &&& scriptVerifyDersig = 0) (hpc : s.pc = [opChecksig])
    (hvfExec : s.vfExec = []) (hcount : s.nOpCount + 1 ≤ 201)
    (hstack : s.stack = vchPubKey :: vchSig :: below)
    (hlimit : below.length + s.altstack.length < 1000) :
    ends ctx flags s = some ((if ctx.sigOk flags (scriptCode s.pbegincodehash [vchSig]) vchSig
      vchPubKey then vchTrue else vchFalse) :: below) := by
  have hcheck : (ctx.checkCanonicalSig flags vchSig vchPubKey
      (scriptCode s.pbegincodehash [vchSig])).ret =
        some (ctx.sigOk flags (scriptCode s.pbegincodehash [vchSig]) vchSig vchPubKey) := by
    rw [SigContext.sigOk, SigContext.checkCanonicalSig]
    split
    case isTrue => rfl
    case isFalse => rfl
  have hexec : (ctx.evalCheckSig flags false s.pbegincodehash s.stack).ret =
      some ((if ctx.sigOk flags (scriptCode s.pbegincodehash [vchSig]) vchSig vchPubKey then vchTrue
        else vchFalse) :: below) := by
    rw [hstack, SigContext.evalCheckSig, if_neg (not_not.mpr (checkSignatureEncoding_of_flags hflags
      vchSig))]
    dsimp only
    rw [hcheck, Option.bind_some, pushVerdict, if_neg Bool.false_ne_true]
  have hrun : (((ctx.evalCheckSig flags false s.pbegincodehash s.stack).ret.map fun stack ↦
      ({ s with pc := [], nOpCount := s.nOpCount + 1, stack := stack } : EvalState)).bind
        limited) = some
      { s with
        pc := []
        nOpCount := s.nOpCount + 1
        stack := (if ctx.sigOk flags (scriptCode s.pbegincodehash [vchSig]) vchSig vchPubKey
          then vchTrue else vchFalse) :: below } := by
    rw [hexec]
    exact limited_of_le (by simp only [List.length_cons]; omega)
  rw [ends_code hpc (by decide) (by decide) hvfExec hcount hrun]
  exact ends_nil rfl hvfExec

/-- `OP_CHECKMULTISIG` at the end of a script. -/
theorem ends_checkMultiSig {vchKeys vchSigs vchDummy : Valtype} {keys sigs : List Valtype}
    {below : Stack} (hflags : flags &&& scriptVerifyDersig = 0)
    (hpc : s.pc = [opCheckmultisig]) (hvfExec : s.vfExec = [])
    (hstack : s.stack = multiSigElements vchKeys vchSigs keys sigs ++ vchDummy :: below)
    (hkeys : scriptInt vchKeys = some (keys.length : Int))
    (hsigs : scriptInt vchSigs = some (sigs.length : Int)) (hle : sigs.length ≤ keys.length)
    (htwenty : keys.length ≤ 20) (hcount : s.nOpCount + 1 + keys.length ≤ 201)
    (hlimit : below.length + s.altstack.length < 1000) :
    ends ctx flags s = some ((if greedy (ctx.sigOk flags (scriptCode s.pbegincodehash sigs)) sigs
      keys then vchTrue else vchFalse) :: below) := by
  have hrun : ((({ s with pc := [], nOpCount := s.nOpCount + 1 } : EvalState).checkMultiSig ctx
      flags false).ret.bind limited) = some
      { s with
        pc := []
        nOpCount := s.nOpCount + 1 + keys.length
        stack := (if greedy (ctx.sigOk flags (scriptCode s.pbegincodehash sigs)) sigs keys
          then vchTrue else vchFalse) :: below } := by
    rw [checkMultiSig]
    dsimp only
    rw [hstack, multiSigArgs_elements hkeys hsigs hle htwenty hcount]
    dsimp only
    rw [matchSigs_eq hflags]
    exact limited_of_le (by simp only [List.length_cons]; omega)
  rw [ends_code hpc (by decide) (by decide) hvfExec (by omega) hrun]
  exact ends_nil rfl hvfExec

end EvalState

/-- The evaluation of a script from a stack. -/
theorem evalScript_eq_ends {ctx : SigContext} {flags : Nat} {stack : Stack} {script : CScript}
    (h : script.length ≤ 10000) :
    (evalScript ctx flags stack script).ret =
      EvalState.ends ctx flags { pc := script, pbegincodehash := script, stack := stack } := by
  rw [evalScript, if_neg (Nat.not_lt.mpr h)]
  rfl

end Fedoracoin
