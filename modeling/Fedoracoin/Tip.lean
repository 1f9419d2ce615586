import Fedoracoin.ChainInv

/-!
# The exits of `DisconnectTip` and `ConnectTip`

Each way in which the two functions end is a constructor that says what it leaves of the
globals, of the validation state, and what it returns.  What holds of every call is proved by
cases on these.
-/

namespace Fedoracoin

/-- `writeChainState` fails with `state.Error` or `state.Abort` only. -/
theorem writeChainState_eq_error {io : WriteIO} {e : Failure}
    (h : writeChainState io = .error e) : ∃ message, e = .abort message := by
  rcases io with ⟨fWrite, checkDiskSpace, flush⟩
  cases fWrite <;> cases checkDiskSpace <;> cases flush <;>
    simp [writeChainState, failIf, bind, Except.bind] at h <;> exact ⟨_, h.symm⟩

@[simp] theorem CValidationState.isInvalid_fail_abort (state : CValidationState)
    (message : String) : (state.fail (.abort message)).isInvalid = false := rfl

/-- The only failure that is a violation of a rule, in a fresh state. -/
theorem Failure.eq_dos {e : Failure} (hret : e.returns = true)
    (hinv : (CValidationState.fail {} e).isInvalid = true) :
    ∃ level chRejectCode strRejectReason, e = .dos level chRejectCode strRejectReason
      (CValidationState.fail {} e).corruptionPossible := by
  cases e with
  | dos level chRejectCode strRejectReason corruption =>
      exact ⟨level, chRejectCode, strRejectReason, rfl⟩
  | abort message => cases hinv
  | error message => exact absurd hinv (by simp [CValidationState.fail, CValidationState.isInvalid])
  | exception message => exact absurd hret (by simp [returns])
  | assertion => exact absurd hret (by simp [returns])
  | diverges => exact absurd hret (by simp [returns])

namespace ChainState

variable {Block View World : Type} {env : ChainEnv Block View World}
  {s s' s₁ : ChainState View World} {state state' : CValidationState} {p x : Uint256}
  {view : View} {pindexNew : Option Uint256} {r : Result View World}

theorem readFailure_not_invalid (message : String) (e : Failure) (state : CValidationState) :
    ((readFailure message e).returns &&
      (state.fail (readFailure message e)).isInvalid) = false := by
  rw [readFailure]
  split
  case isTrue => rw [CValidationState.isInvalid_fail_abort, Bool.and_false]
  case isFalse h => rw [Bool.eq_false_of_not_eq_true h, Bool.false_and]

/-! ## The end of both functions -/

/-- How `flushTip` ends. -/
inductive FlushExit (env : ChainEnv Block View World) (s : ChainState View World)
    (state : CValidationState) (view : View) : Option Uint256 → Result View World → Prop
  /-- `WriteChainState` failed, with the view flushed and the tip not moved. -/
  | notWritten {pindexNew world e state'} (hstate : state'.isInvalid = false)
      (hio : ∃ world, writeChainState (env.writeIO world).2 = .error e) :
      FlushExit env s state view pindexNew
        ({ s with pcoinsTip := view, world := world }, state', .error (.chainState e))
  | crashed {pindexNew world} :
      FlushExit env s state view pindexNew
        ({ s with pcoinsTip := view, world := world }, state, .error (.block .assertion))
  | done {pindex world} :
      FlushExit env s state view (some pindex)
        ({ s with
          pcoinsTip := view
          world := world
          chainActive := s.chainActive.setTip s.mapBlockIndex (some pindex) }, state, .ok ())

theorem flushTip_exit (env : ChainEnv Block View World) (s : ChainState View World)
    (state : CValidationState) (view : View) (pindexNew : Option Uint256) :
    FlushExit env s state view pindexNew (s.flushTip env state view pindexNew) := by
  rw [flushTip]
  dsimp only
  cases hw : writeChainState (env.writeIO s.world).2 with
  | error e =>
      obtain ⟨message, rfl⟩ := writeChainState_eq_error hw
      exact .notWritten (state.isInvalid_fail_abort message) ⟨s.world, hw⟩
  | ok u =>
      dsimp only
      rw [updateTip]
      cases pindexNew with
      | none => exact .crashed
      | some pindex =>
          split
          case h_1 h =>
            split at h
            case isTrue =>
              obtain rfl := Except.error.inj h
              exact .crashed
            case isFalse => cases h
          case h_2 h =>
            split at h
            case isTrue => cases h
            case isFalse =>
              obtain rfl := Except.ok.inj h
              exact .done

/-! ## `DisconnectTip` -/

/-- How `DisconnectTip` ends. -/
inductive DisconnectExit (env : ChainEnv Block View World) (s : ChainState View World)
    (state : CValidationState) : Result View World → Prop
  /-- There was no tip, or its block could not be read or disconnected. -/
  | failed {world e state'} :
      DisconnectExit env s state ({ s with world := world }, state', .error (.block e))
  | flushed {tip world view r} (htip : s.chainActive.tip = some tip)
      (hbest : env.getBestBlock s.pcoinsTip = tip)
      (hprev : s.mapBlockIndex.pprev tip = some (env.getBestBlock view))
      (hr : FlushExit env { s with world := world } state view (s.mapBlockIndex.pprev tip) r) :
      DisconnectExit env s state r

theorem disconnectTip_exit (env : ChainEnv Block View World) (s : ChainState View World)
    (state : CValidationState) : DisconnectExit env s state (s.disconnectTip env state) := by
  rw [disconnectTip]
  cases htip : s.chainActive.tip with
  | none =>
      change DisconnectExit env s state ({ s with world := s.world }, state, _)
      exact .failed
  | some tip =>
      dsimp only
      rcases hread : env.readBlockFromDisk s.world tip with ⟨world, _ | block⟩
      · exact .failed
      · dsimp only
        rcases hdis : env.disconnectBlock world block (s.connectIndex tip) s.pcoinsTip with
          ⟨world', _ | view⟩
        · exact .failed
        · obtain ⟨hbest, hprev⟩ := env.disconnectBlock_ok world block (s.connectIndex tip)
            s.pcoinsTip view (by rw [hdis])
          exact .flushed htip hbest hprev (flushTip_exit env _ state view _)

/-! ## `ConnectTip` -/

/-- `ConnectBlock` has run on the block, and has changed no more than it may. -/
def Touched (s : ChainState View World) (p : Uint256) (s₁ : ChainState View World) : Prop :=
  ∃ world valid haveUndo,
    (blockValidTransactions ≤ (s.status p).valid → blockValidTransactions ≤ valid) ∧
    s₁ = { s with world := world }.setStatus p
      { s.status p with valid := valid, haveUndo := haveUndo }

/-- What `ConnectBlock` answered on some reading of the block. -/
def Answered (env : ChainEnv Block View World) (s : ChainState View World) (p : Uint256)
    (answer : Except Failure View) : Prop :=
  ∃ world block, (env.connectBlock world block (s.connectIndex p) s.pcoinsTip).2.2 = answer

/-- What `InvalidBlockFound` does to the index. -/
def markInvalid (s : ChainState View World) (p : Uint256) : ChainState View World :=
  ((s.setStatus p { s.status p with failedValid := true }).eraseValid p).raiseBestInvalid p

/-- How `ConnectTip` ends. -/
inductive ConnectExit (env : ChainEnv Block View World) (s : ChainState View World)
    (state : CValidationState) (p : Uint256) : Result View World → Prop
  /-- The block is not a child of the tip, or could not be read. -/
  | unread {world e state'} (h : (e.returns && state'.isInvalid) = false) :
      ConnectExit env s state p ({ s with world := world }, state', .error (.block e))
  /-- `ConnectBlock` failed, but not because of the block. -/
  | unconnected {s₁ : ChainState View World} {e state'} (ht : Touched s p s₁)
      (h : (e.returns && state'.isInvalid) = false) :
      ConnectExit env s state p (s₁, state', .error (.block e))
  /-- `ConnectBlock` rejected what was read, which may not be the block. -/
  | corrupt {s₁ : ChainState View World} {e} (ht : Touched s p s₁)
      (hans : Answered env s p (.error e)) (hret : e.returns = true)
      (hinv : (state.fail e).isInvalid = true)
      (hcor : (state.fail e).corruptionPossible = true) :
      ConnectExit env s state p (s₁, state.fail e, .error (.block e))
  /-- `ConnectBlock` rejected the block. -/
  | rejected {s₁ : ChainState View World} {e} (ht : Touched s p s₁)
      (hans : Answered env s p (.error e)) (hret : e.returns = true)
      (hinv : (state.fail e).isInvalid = true)
      (hcor : (state.fail e).corruptionPossible = false) :
      ConnectExit env s state p (s₁.markInvalid p, state.fail e, .error (.block e))
  | flushed {s₁ : ChainState View World} {view : View} {r} (ht : Touched s p s₁)
      (hans : Answered env s p (.ok view))
      (hprev : s.mapBlockIndex.pprev p = s.chainActive.tip)
      (hr : FlushExit env s₁ state view (some p) r) : ConnectExit env s state p r

theorem connectFailed_exit {e : Failure} (ht : Touched s p s₁)
    (hans : Answered env s p (.error e)) :
    ConnectExit env s state p (s₁.connectFailed state p e) := by
  rw [connectFailed]
  cases hinv : e.returns && (state.fail e).isInvalid with
  | false => exact .unconnected ht hinv
  | true =>
      obtain ⟨hret, hinv⟩ := Bool.and_eq_true_iff.mp hinv
      rw [if_pos rfl, invalidBlockFound]
      cases hcor : (state.fail e).corruptionPossible with
      | true => exact .corrupt ht hans hret hinv hcor
      | false =>
          rw [if_neg (by simp), invalidChainFound]
          split
          case h_1 h =>
            split at h
            case h_1 =>
              obtain rfl := Except.error.inj h
              exact .unconnected ht rfl
            case h_2 => cases h
          case h_2 h =>
            split at h
            case h_1 => cases h
            case h_2 =>
              obtain rfl := Except.ok.inj h
              exact .rejected ht hans hret hinv hcor

theorem connectTip_exit (env : ChainEnv Block View World) (s : ChainState View World)
    (state : CValidationState) (p : Uint256) :
    ConnectExit env s state p (s.connectTip env state p) := by
  rw [connectTip]
  by_cases hprev : s.mapBlockIndex.pprev p = s.chainActive.tip
  · rw [if_neg (not_not_intro hprev)]
    rcases hread : env.readBlockFromDisk s.world p with ⟨world, e | block⟩
    · exact .unread (readFailure_not_invalid _ e state)
    · dsimp only
      obtain ⟨valid, haveUndo, hstatus, hle⟩ :=
        env.connectBlock_nStatus world block (s.connectIndex p) s.pcoinsTip
      rcases hconn : env.connectBlock world block (s.connectIndex p) s.pcoinsTip with
        ⟨world', pindex, e | view⟩
      · rw [hconn] at hstatus
        dsimp only at hstatus ⊢
        exact connectFailed_exit ⟨world', valid, haveUndo, hle, by rw [hstatus]; rfl⟩
          ⟨world, block, by rw [hconn]⟩
      · rw [hconn] at hstatus
        dsimp only at hstatus ⊢
        exact .flushed ⟨world', valid, haveUndo, hle, by rw [hstatus]; rfl⟩
          ⟨world, block, by rw [hconn]⟩ hprev (flushTip_exit env _ state view _)
  · rw [if_pos hprev]
    exact .unread rfl

/-! ## What every call keeps -/

theorem Touched.status (h : Touched s p s₁) (x : Uint256) :
    ∃ valid haveUndo,
      s₁.status x = { s.status x with valid := valid, haveUndo := haveUndo } := by
  obtain ⟨world, valid, haveUndo, _, rfl⟩ := h
  rw [status_setStatus]
  split
  case isTrue hx => exact ⟨valid, haveUndo, by rw [hx]⟩
  case isFalse => exact ⟨(s.status x).valid, (s.status x).haveUndo, rfl⟩

theorem Touched.failed (h : Touched s p s₁) (x : Uint256) : s₁.failed x = s.failed x := by
  obtain ⟨valid, haveUndo, hx⟩ := h.status x
  rw [ChainState.failed, ChainState.failed, hx]
  rfl

theorem Touched.failedValid (h : Touched s p s₁) (x : Uint256) :
    (s₁.status x).failedValid = (s.status x).failedValid := by
  obtain ⟨valid, haveUndo, hx⟩ := h.status x
  rw [hx]

theorem Touched.frame (h : Touched s p s₁) :
    s₁.mapBlockIndex = s.mapBlockIndex ∧ s₁.setBlockIndexValid = s.setBlockIndexValid ∧
      s₁.chainActive = s.chainActive ∧ s₁.chainMostWork = s.chainMostWork ∧
      s₁.pcoinsTip = s.pcoinsTip := by
  obtain ⟨world, valid, haveUndo, _, rfl⟩ := h
  exact ⟨rfl, rfl, rfl, rfl, rfl⟩

theorem Touched.evolves (h : Touched s p s₁) : Evolves s s₁ := by
  obtain ⟨htree, hset, _⟩ := h.frame
  constructor
  case mapBlockIndex => exact htree
  case data =>
    intro x
    obtain ⟨valid, haveUndo, hx⟩ := h.status x
    rw [HasData, HasData, hx]
  case failedValid =>
    intro x hx
    rwa [h.failedValid]
  case failedChild =>
    intro x hx
    obtain ⟨valid, haveUndo, hx'⟩ := h.status x
    rwa [hx']
  case sublist => exact hset ▸ List.Sublist.refl _

theorem Inv.touched (hs : s.Inv) (hp : s.HasData p) (h : Touched s p s₁) : s₁.Inv := by
  obtain ⟨world, valid, haveUndo, hle, rfl⟩ := h
  have hs' := hs.frame s.pcoinsTip world s.pindexBestInvalid
  refine hs'.setStatus _ s.setBlockIndexValid (hs.mem_entries hp) (fun h ↦ h) ?_
    (fun h ↦ h) (fun h ↦ hs.failedChild p h) fun x ↦ ?_
  · exact iff_of_true hp (hle ((hs.valid_iff p).mp hp))
  · split
    case isTrue hx =>
      rw [hx]
      exact hs.mem_valid p
    case isFalse => exact Iff.rfl

/-- The failed block leaves the set. -/
theorem Inv.markInvalid (hs : s.Inv) (hp : s.HasData p) :
    (s.markInvalid p).Inv ∧ Evolves s (s.markInvalid p) ∧
      p ∉ (s.markInvalid p).setBlockIndexValid := by
  obtain ⟨hinv, hevolves⟩ := hs.fail { s.status p with failedValid := true }
    (hs.mem_entries hp) rfl rfl (fun _ ↦ rfl) (fun h ↦ h) (fun h ↦ hs.failedChild p h) rfl
  have hm := Marked.raiseBestInvalid
    ((s.setStatus p { s.status p with failedValid := true }).eraseValid p) p
  refine ⟨hinv.raiseBestInvalid p, hevolves.trans hm.evolves, fun h ↦ ?_⟩
  exact (mem_eraseValid.mp (hm.evolves.sublist.subset h)).2 rfl

theorem FlushExit.inv (h : FlushExit env s state view pindexNew r) (hs : s.Inv)
    (hp : ∀ pindex, pindexNew = some pindex → s.HasData pindex) : r.1.Inv ∧ Evolves s r.1 := by
  cases h with
  | notWritten => exact ⟨hs.frame _ _ _, .of_eq rfl rfl rfl⟩
  | crashed => exact ⟨hs.frame _ _ _, .of_eq rfl rfl rfl⟩
  | done =>
      have hgood := hs.goodChain_setTip hs.active (hp _ rfl)
      exact ⟨(hs.with_active hgood).frame _ _ _, .of_eq rfl rfl rfl⟩

theorem DisconnectExit.inv (h : DisconnectExit env s state r) (hs : s.Inv) :
    r.1.Inv ∧ Evolves s r.1 := by
  cases h with
  | failed => exact ⟨hs.frame _ _ _, .of_eq rfl rfl rfl⟩
  | @flushed _ world _ _ _ _ _ hr =>
      obtain ⟨hinv, hevolves⟩ := hr.inv (hs.frame _ _ _) fun q hq ↦ hs.pprev_data _ q hq
      have hsame : Evolves s { s with world := world } := .of_eq rfl rfl rfl
      exact ⟨hinv, hsame.trans hevolves⟩

theorem ConnectExit.inv (h : ConnectExit env s state p r) (hs : s.Inv) (hp : s.HasData p) :
    r.1.Inv ∧ Evolves s r.1 := by
  cases h with
  | unread => exact ⟨hs.frame _ _ _, .of_eq rfl rfl rfl⟩
  | unconnected ht => exact ⟨hs.touched hp ht, ht.evolves⟩
  | corrupt ht => exact ⟨hs.touched hp ht, ht.evolves⟩
  | rejected ht =>
      obtain ⟨hinv, hevolves, _⟩ :=
        (hs.touched hp ht).markInvalid ((ht.evolves.data p).mpr hp)
      exact ⟨hinv, ht.evolves.trans hevolves⟩
  | flushed ht _ _ hr =>
      obtain ⟨hinv, hevolves⟩ := hr.inv (hs.touched hp ht) fun q hq ↦
        (ht.evolves.data q).mpr (Option.some.inj hq ▸ hp)
      exact ⟨hinv, ht.evolves.trans hevolves⟩

end ChainState

end Fedoracoin
