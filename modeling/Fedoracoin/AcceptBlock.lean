import Fedoracoin.Node
import Fedoracoin.ProofOfWork

/-!
# When `AcceptBlock` fails

`AcceptBlock` with the validation state it is given.  After a failed `CheckBlock` it asks
`state.Invalid()`, which is not the question `state.IsInvalid()` but a function that enters a
failure without code and reason, and returns `false`.  So the block is not marked, and what
`CheckBlock` reported is overwritten (`reported_iff`).

The header is in the index before the block is stored, and `ProcessBlock` takes a block that is
in the index for a duplicate.  So a block that could not be stored is not accepted later either
(`resubmit_iff`).
-/

namespace Fedoracoin

variable {Block View World : Type}

/-- `state.Invalid`, with what it returns. -/
def CValidationState.invalid (state : CValidationState) (ret : Bool := false)
    (chRejectCode : UInt8 := 0) (strRejectReason : String := "") : CValidationState × Bool :=
  (state.fail (.dos 0 chRejectCode strRejectReason), ret)

/-- Whether the failure is the violation of a rule. -/
def Failure.violates : Failure → Bool
  | .dos .. => true
  | _ => false

theorem Violation.violates {e : Failure} (h : Violation e) : e.violates = true := by
  obtain ⟨_, _, _, _, rfl, _⟩ := h
  rfl

/-- The block, with the storage working. -/
def Arrival.retry (block : Arrival) : Arrival :=
  { block with stored := .ok (), indexWritten := true }

namespace ChainState

/-- What follows a failed `CheckBlock`. -/
def checkBlockFailed (s : ChainState View World) (state : CValidationState) (pindex : Uint256) :
    ChainState View World × CValidationState :=
  let (state, ret) := state.invalid
  if ret && !state.corruptionPossible then
    (s.setStatus pindex { s.status pindex with failedValid := true }, state)
  else (s, state)

/-- `AcceptBlock`, as far as `ActivateBestChain`, with the validation state. -/
def acceptBlockState (env : ChainEnv Block View World) (s : ChainState View World)
    (state : CValidationState) (block : Arrival) :
    ChainState View World × CValidationState × Except Failure Unit :=
  match s.acceptBlockHeader env block with
  | .error e => (s, state.fail e, .error e)
  | .ok s =>
      match block.checkBlock with
      | .error e =>
          if e.returns then
            let (s, state) := s.checkBlockFailed (state.fail e) block.hash
            (s, state, .error e)
          else (s, state, .error e)
      | .ok () =>
          if !block.isFinalTx then
            let e := .dos 10 rejectInvalid "bad-txns-nonfinal"
            (s.setStatus block.hash { s.status block.hash with failedValid := true },
              state.fail e, .error e)
          else if !block.coinbaseHeight then
            let e := .dos 100 rejectInvalid "bad-cb-height"
            (s.setStatus block.hash { s.status block.hash with failedValid := true },
              state.fail e, .error e)
          else
            match block.stored with
            | .error e => (s, state.fail e, .error e)
            | .ok () =>
                match s.receivedBlockTransactions block.hash block.indexWritten with
                | (s, .error e) => (s, state.fail e, .error e)
                | (s, .ok ()) => (s, state, .ok ())

variable {env : ChainEnv Block View World} {s s₁ s₂ : ChainState View World}
  {state : CValidationState} {block : Arrival} {e : Failure}

/-! ## A failed `CheckBlock` -/

/-- Without the validation state this is the `AcceptBlock` of the runs. -/
theorem acceptBlockState_eq (env : ChainEnv Block View World) (s : ChainState View World)
    (state : CValidationState) (block : Arrival) :
    ((s.acceptBlockState env state block).1, (s.acceptBlockState env state block).2.2) =
      s.acceptBlock env block := by
  rw [acceptBlockState, acceptBlock]
  cases s.acceptBlockHeader env block with
  | error e => rfl
  | ok s₁ =>
      cases block.checkBlock with
      | error e =>
          dsimp only
          split
          case isTrue => rfl
          case isFalse => rfl
      | ok u =>
          dsimp only
          split
          case isTrue => rfl
          case isFalse =>
            split
            case isTrue => rfl
            case isFalse =>
              cases block.stored with
              | error e => rfl
              | ok u =>
                  dsimp only
                  rcases s₁.receivedBlockTransactions block.hash block.indexWritten with
                    ⟨s₂, _ | _⟩
                  · rfl
                  · rfl

/-- The failure of `CheckBlock` reaches the index and the validation state. -/
def Reported (env : ChainEnv Block View World) (s : ChainState View World)
    (state : CValidationState) (block : Arrival) : Prop :=
  ∀ s₁ e, s.acceptBlockHeader env block = .ok s₁ → block.checkBlock = .error e →
    let q := s.acceptBlockState env state block
    (∀ level chRejectCode strRejectReason, e = .dos level chRejectCode strRejectReason false →
      (q.1.status block.hash).failedValid = true) ∧
    q.2.1.chRejectCode = (state.fail e).chRejectCode ∧
    q.2.1.strRejectReason = (state.fail e).strRejectReason ∧
    q.2.1.nDoS = (state.fail e).nDoS

/-- What a failed `CheckBlock` leaves. -/
theorem acceptBlockState_checkBlock (state : CValidationState)
    (hheader : s.acceptBlockHeader env block = .ok s₁)
    (hcheck : block.checkBlock = .error e) (hviolation : Violation e) :
    s.acceptBlockState env state block = (s₁, (state.fail e).fail (.dos 0), .error e) := by
  obtain ⟨level, code, reason, corruption, rfl, -⟩ := hviolation
  rw [acceptBlockState, hheader]
  dsimp only
  rw [hcheck]
  rfl

/-- **A failure of `CheckBlock` is never reported**: all is as it should be exactly if `CheckBlock`
does not fail, or is not called. -/
theorem reported_iff {benv : BlockEnv} {pow : PowEnv} {cblock : CBlock} {nHeight : Int}
    (hpow : benv.checkBlockHeader = pow.checkBlockHeader)
    (hcheck : block.checkBlock = checkBlock benv cblock nHeight true true) :
    Reported env s state block ↔
      ∀ s₁, s.acceptBlockHeader env block = .ok s₁ → block.checkBlock = .ok () := by
  constructor
  · intro hreported s₁ hheader
    cases hfail : block.checkBlock with
    | ok u => rfl
    | error e =>
        have hviolation : Violation e := violation_of_checkBlock hpow e (hcheck.symm.trans hfail)
        obtain ⟨-, hcode, -⟩ := hreported s₁ e hheader hfail
        rw [acceptBlockState_checkBlock state hheader hfail hviolation] at hcode
        obtain ⟨level, code, reason, corruption, rfl, hne, -⟩ := hviolation
        simp only [CValidationState.chRejectCode_fail] at hcode
        exact absurd hcode.symm hne
  · intro hok s₁ e hheader hfail
    rw [hok s₁ hheader] at hfail
    cases hfail

/-- A header that is accepted is not marked. -/
theorem failed_of_acceptBlockHeader (hheader : s.acceptBlockHeader env block = .ok s₁) :
    s₁.failed block.hash = false := by
  obtain ⟨rfl, -⟩ := acceptBlockHeader_eq_ok hheader
  by_cases hmem : block.hash ∈ s.mapBlockIndex.entries
  · have hsame : s.addToBlockIndex env block.hash = s := by
      rw [addToBlockIndex, dif_pos hmem]
    rw [hsame]
    rw [acceptBlockHeader, bind_eq_ok] at hheader
    obtain ⟨_, hdup, -⟩ := hheader
    rw [failIf_eq_ok, decide_eq_true hmem, Bool.true_and] at hdup
    exact hdup
  · rw [ChainState.failed, status_addToBlockIndex env hmem, if_pos rfl]
    rfl

/-- Wherever `CheckBlock` fails, the block is not marked, and code and reason are gone. -/
theorem lost_of_checkBlock (hheader : s.acceptBlockHeader env block = .ok s₁)
    (hcheck : block.checkBlock = .error e) (hviolation : Violation e) :
    let q := s.acceptBlockState env state block
    (q.1.status block.hash).failedValid = false ∧ q.2.1.chRejectCode = 0 ∧
      q.2.1.strRejectReason = "" := by
  rw [acceptBlockState_checkBlock state hheader hcheck hviolation]
  exact ⟨(failed_eq_false_iff.mp (failed_of_acceptBlockHeader hheader)).1,
    CValidationState.chRejectCode_fail .., CValidationState.strRejectReason_fail ..⟩

/-! ### A block with the other proof of work -/

/-- The first hash of every header meets its target; the second one is given. -/
def samplePow (hashS : Uint256) : PowEnv where
  getPoWHash _ := 0
  getPoWHashS _ := hashS
  adjustedTime := 0
  pcheckpoint := none
  hashTip := 1

def samplePowEnv (hashS : Uint256) : BlockEnv :=
  { (sampleNode 2 {}).blockEnv 0 with checkBlockHeader := (samplePow hashS).checkBlockHeader }

def samplePowBlock : CBlock := { coinbaseBlock 2 2 with nBits := 0x1e0fffff }

/-- How the block arrives on top of the genesis block. -/
def sampleArrival (hashS : Uint256) : Arrival where
  hash := 2
  preliminary := checkBlock (samplePowEnv hashS) samplePowBlock intMax true true
  checkBlock := checkBlock (samplePowEnv hashS) samplePowBlock 1 true true

/-- The start of the sample node. -/
def sampleGenesis : List Call := [.initBlockIndex (.ok ()) true, .activateBestChain]

/-- With both hashes small enough the block passes. -/
theorem reported_iff_sample :
    ∃ s, Reachable sampleChainEnv s ∧
      (s.acceptBlockState sampleChainEnv {} (sampleArrival 0)).2.2 = .ok () ∧
      s.Reported sampleChainEnv {} (sampleArrival 0) := by
  obtain ⟨l, s, hrun, htest⟩ := Call.exists_run_of_test sampleChainEnv 9
    (loadBlockIndexDB sampleChainEnv (.empty sampleChainEnv 0 rfl) ()) sampleGenesis
    (fun s ↦ decide ((s.acceptBlockState sampleChainEnv {} (sampleArrival 0)).2.2 = .ok ()))
    (by decide +kernel)
  have hcheck : (sampleArrival 0).checkBlock = .ok () := by decide +kernel
  have hpow : (samplePowEnv 0).checkBlockHeader = (samplePow 0).checkBlockHeader := rfl
  exact ⟨s, ⟨_, _, _, hrun⟩, of_decide_eq_true htest,
    (reported_iff hpow rfl).mpr fun _ _ ↦ hcheck⟩

/-- With the second hash too large it passes where the height is not known, and fails at its
height with code and reason; then it is not marked, and code and reason are gone. -/
theorem reported_fails :
    let block := sampleArrival (BitVec.allOnes 256)
    block.preliminary = .ok () ∧
      block.checkBlock = .error (.dos 50 rejectInvalid "high-hash") ∧
      ∃ s, Reachable sampleChainEnv s ∧
        let q := s.acceptBlockState sampleChainEnv {} block
        q.2.2 = .error (.dos 50 rejectInvalid "high-hash") ∧
        (q.1.status 2).failedValid = false ∧ q.2.1.chRejectCode = 0 ∧
        q.2.1.strRejectReason = "" ∧ ¬ s.Reported sampleChainEnv {} block := by
  intro block
  have hcheck : block.checkBlock = .error (.dos 50 rejectInvalid "high-hash") := by
    decide +kernel
  refine ⟨by decide +kernel, hcheck, ?_⟩
  obtain ⟨l, s, hrun, htest⟩ := Call.exists_run_of_test sampleChainEnv 9
    (loadBlockIndexDB sampleChainEnv (.empty sampleChainEnv 0 rfl) ()) sampleGenesis
    (fun s ↦ (s.acceptBlockHeader sampleChainEnv block).toBool) (by decide +kernel)
  cases hheader : s.acceptBlockHeader sampleChainEnv block with
  | error e =>
      rw [hheader] at htest
      exact absurd htest (by simp [Except.toBool])
  | ok s₁ =>
      have hviolation : Violation (.dos 50 rejectInvalid "high-hash") :=
        ⟨_, _, _, _, rfl, by decide, by decide⟩
      have hleft := acceptBlockState_checkBlock {} hheader hcheck hviolation
      obtain ⟨hmark, hcode, hreason⟩ := lost_of_checkBlock hheader hcheck hviolation
      refine ⟨s, ⟨_, _, _, hrun⟩, ?_, hmark, hcode, hreason, fun hreported ↦ ?_⟩
      · rw [hleft]
      · obtain ⟨hmarked, -⟩ := hreported s₁ _ hheader hcheck
        exact absurd ((hmarked _ _ _ rfl).symm.trans hmark) (by decide)

/-! ## Submitting a block again -/

/-- A block in the index is a duplicate. -/
theorem processBlock_of_mem (hmem : block.hash ∈ s.mapBlockIndex.entries) :
    s.processBlock env block = (s, .error (.dos 0 0 "duplicate")) := by
  rw [processBlock, if_pos hmem]

/-- `ProcessBlock` gets to `AcceptBlock`. -/
def Submitted (env : ChainEnv Block View World) (s : ChainState View World) (block : Arrival) :
    Prop :=
  block.hash ∉ s.mapBlockIndex.entries ∧ block.preliminary = .ok () ∧
    ¬ (env.hashPrevBlock block.hash ≠ 0 ∧
      ¬ (env.hashPrevBlock block.hash ∈ s.mapBlockIndex.entries ∧
        (s.status (env.hashPrevBlock block.hash)).haveData = true))

instance (env : ChainEnv Block View World) (s : ChainState View World) (block : Arrival) :
    Decidable (Submitted env s block) :=
  inferInstanceAs (Decidable (_ ∧ _ ∧ ¬ (_ ∧ ¬ (_ ∧ _))))

theorem Submitted.processBlock (h : Submitted env s block) :
    s.processBlock env block = s.acceptBlock env block := by
  rw [ChainState.processBlock, if_neg h.1, h.2.1]
  exact if_neg h.2.2

/-- Once its header is accepted the block is in the index. -/
theorem Submitted.mem (h : Submitted env s block)
    (hheader : s.acceptBlockHeader env block = .ok s₁) :
    block.hash ∈ (s.acceptBlock env block).1.mapBlockIndex.entries := by
  rw [← h.processBlock, mem_processBlock h.1]
  exact ⟨h.2.1, h.2.2, (exists_acceptBlockHeader_iff h.1).mp ⟨s₁, hheader⟩⟩

/-- Where the failure is not the violation of a rule, what fails after the header is the storage. -/
theorem acceptBlock_retry (hheader : s.acceptBlockHeader env block = .ok s₁)
    (hcheck : Violates block.checkBlock)
    (hrule : ∀ e, (s.acceptBlock env block).2 = .error e → e.violates = false) :
    (s.acceptBlock env block.retry).2 = .ok () := by
  have hretry : s.acceptBlockHeader env block.retry = .ok s₁ := hheader
  rw [acceptBlock, hheader] at hrule
  rw [acceptBlock, hretry]
  change (match block.checkBlock with
    | .error e => (s₁, .error e)
    | .ok () => _ : ChainState View World × Except Failure Unit).2 = _
  cases hblock : block.checkBlock with
  | error e =>
      rw [hblock] at hrule
      exact absurd (hcheck e hblock).violates (by rw [hrule e rfl]; simp)
  | ok u =>
      rw [hblock] at hrule
      dsimp only at hrule ⊢
      cases hfinal : block.isFinalTx with
      | false =>
          rw [hfinal] at hrule
          exact absurd (hrule _ rfl) (by simp [Failure.violates])
      | true =>
          rw [hfinal] at hrule
          rw [show block.retry.isFinalTx = true from hfinal]
          cases hheight : block.coinbaseHeight with
          | false =>
              rw [hheight] at hrule
              exact absurd (hrule _ rfl) (by simp [Failure.violates])
          | true =>
              rw [show block.retry.coinbaseHeight = true from hheight]
              rfl

/-- **A block that could not be stored is not accepted later.**  Submitted again, with the storage
working, it gets the answer of a first submission exactly if it was its header that was not
accepted; and never after `ActivateBestChain` failed. -/
theorem resubmit_iff (hreach : Reachable env s) (hhash : block.hash ≠ 0)
    (hcheck : Violates block.checkBlock) (hsub : Submitted env s block) :
    (∀ e, (s.processBlock env block).2 = .error e → e.violates = false →
      (((s.processBlock env block).1.processBlock env block.retry).2 =
          (s.processBlock env block.retry).2 ↔
        s.acceptBlockHeader env block = .error e)) ∧
    ∀ fuel s₂ state' e, (s.processBlock env block).2 = .ok () →
      (s.processBlock env block).1.activateBestChain env fuel {} = some (s₂, state', .error e) →
      (s₂.processBlock env block.retry).2 ≠ (s.processBlock env block.retry).2 := by
  have hretry : Submitted env s block.retry := hsub
  have hduplicate {s' : ChainState View World} (hmem : block.hash ∈ s'.mapBlockIndex.entries) :
      (s'.processBlock env block.retry).2 = .error (.dos 0 0 "duplicate") := by
    have hmem' : block.retry.hash ∈ s'.mapBlockIndex.entries := hmem
    rw [processBlock_of_mem hmem']
  constructor
  · intro e hfail hrule
    rw [hsub.processBlock] at hfail ⊢
    rw [hretry.processBlock]
    cases hheader : s.acceptBlockHeader env block with
    | error e' =>
        have hheader' : s.acceptBlockHeader env block.retry = .error e' := hheader
        have hsame : s.acceptBlock env block = (s, .error e') := by
          rw [acceptBlock, hheader]
        rw [hsame] at hfail ⊢
        rw [hretry.processBlock]
        exact iff_of_true rfl (congrArg Except.error (Except.error.inj hfail))
    | ok s₁ =>
        have hfirst := acceptBlock_retry hheader hcheck fun e' he' ↦ by
          rw [hfail] at he'
          rwa [← Except.error.inj he']
        rw [hfirst, hduplicate (hsub.mem hheader)]
        exact iff_of_false (by simp) (by simp)
  · intro fuel s₂ state' e hok hactivate
    have hgrown : Grown s (s.processBlock env block).1 :=
      Grown.processBlock hreach.inv hhash
    have hdone := activateBestChain_done hgrown.inv hactivate
    rw [hsub.processBlock] at hok hdone
    cases hheader : s.acceptBlockHeader env block with
    | error e' =>
        rw [acceptBlock, hheader] at hok
        cases hok
    | ok s₁ =>
        have hfirst := acceptBlock_retry hheader hcheck fun e' he' ↦ by
          rw [hok] at he'
          cases he'
        have hmem := hsub.mem hheader
        rw [← hdone.evolves.mapBlockIndex] at hmem
        rw [hretry.processBlock, hfirst, hduplicate hmem]
        simp

/-- The second block, which does not pass the check against the synchronized checkpoint. -/
def sampleAdvised : Arrival where
  hash := 2
  header := .error (.error "checkpoint AcceptBlock() : rejected by synchronized checkpoint")

/-- A block whose header is not accepted gets the same answer again. -/
theorem resubmit_iff_sample :
    ∃ s, Reachable sampleChainEnv s ∧
      (∃ e, (s.processBlock sampleChainEnv sampleAdvised).2 = .error e ∧ e.violates = false) ∧
      ((s.processBlock sampleChainEnv sampleAdvised).1.processBlock sampleChainEnv
        sampleAdvised.retry).2 = (s.processBlock sampleChainEnv sampleAdvised.retry).2 := by
  obtain ⟨l, s, hrun, htest⟩ := Call.exists_run_of_test sampleChainEnv 9
    (loadBlockIndexDB sampleChainEnv (.empty sampleChainEnv 0 rfl) ()) sampleGenesis
    (fun s ↦ decide (Submitted sampleChainEnv s sampleAdvised) &&
      decide ((s.processBlock sampleChainEnv sampleAdvised).2 = sampleAdvised.header) &&
      match s.acceptBlockHeader sampleChainEnv sampleAdvised with
      | .error e => decide (.error e = sampleAdvised.header)
      | .ok _ => false) (by decide +kernel)
  rw [Bool.and_eq_true, Bool.and_eq_true, decide_eq_true_eq, decide_eq_true_eq] at htest
  obtain ⟨⟨hsub, hfail⟩, hheader⟩ := htest
  have hreach : Reachable sampleChainEnv s := ⟨_, _, _, hrun⟩
  have hnone : Violates sampleAdvised.checkBlock := fun e h ↦ absurd h (by simp [sampleAdvised])
  have hiff := (resubmit_iff hreach (by decide) hnone hsub).1 _ hfail rfl
  refine ⟨s, hreach, ⟨_, hfail, rfl⟩, hiff.mpr ?_⟩
  cases hblock : s.acceptBlockHeader sampleChainEnv sampleAdvised with
  | ok s₁ =>
      rw [hblock] at hheader
      cases hheader
  | error e =>
      rw [hblock] at hheader
      exact congrArg Except.error (Except.error.inj (of_decide_eq_true hheader))

/-- The second block, for which there is no room. -/
def sampleUnstored : Arrival where
  hash := 2
  stored := .error (.abort "out of disk space")

/-- Once there is room the block would be accepted, but it is taken for a duplicate. -/
theorem resubmit_fails :
    ∃ s, Reachable sampleChainEnv s ∧ Submitted sampleChainEnv s sampleUnstored ∧
      (s.processBlock sampleChainEnv sampleUnstored).2 = .error (.abort "out of disk space") ∧
      (s.processBlock sampleChainEnv sampleUnstored.retry).2 = .ok () ∧
      ((s.processBlock sampleChainEnv sampleUnstored).1.processBlock sampleChainEnv
        sampleUnstored.retry).2 = .error (.dos 0 0 "duplicate") := by
  obtain ⟨l, s, hrun, htest⟩ := Call.exists_run_of_test sampleChainEnv 9
    (loadBlockIndexDB sampleChainEnv (.empty sampleChainEnv 0 rfl) ()) sampleGenesis
    (fun s ↦ decide (Submitted sampleChainEnv s sampleUnstored) &&
      decide ((s.processBlock sampleChainEnv sampleUnstored).2 =
        .error (.abort "out of disk space")) &&
      decide ((s.processBlock sampleChainEnv sampleUnstored.retry).2 = .ok ()) &&
      decide (((s.processBlock sampleChainEnv sampleUnstored).1.processBlock sampleChainEnv
        sampleUnstored.retry).2 = .error (.dos 0 0 "duplicate"))) (by decide +kernel)
  simp only [Bool.and_eq_true, decide_eq_true_eq] at htest
  obtain ⟨⟨⟨hsub, hfail⟩, hfirst⟩, hagain⟩ := htest
  exact ⟨s, ⟨_, _, _, hrun⟩, hsub, hfail, hfirst, hagain⟩

end ChainState

end Fedoracoin
