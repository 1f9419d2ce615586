import Fedoracoin.SyncCheckpoint
import Fedoracoin.BestChain

/-!
# The synchronized checkpoint only moves forward

Tracing back finds the ancestor at the height asked for (`traceBack_eq`), so
`ValidateSyncCheckpoint` accepts the strict descendants of the current checkpoint and nothing
else.  What `ProcessSyncCheckpoint` and `AcceptPendingSyncCheckpoint` can do is one inductive
type, `CheckpointExit`, and the rest of the section is by cases on it.
-/

namespace Fedoracoin

variable {Block View World : Type} {tree : BlockTree} {nHeight : Nat} {hash pindex : Uint256}
  {s s' s₀ : SyncNode View World} {enforced : Bool} {io : CheckpointIO}

/-! ## Tracing back -/

/-- The loop stops at the ancestor that has the height, or at once if there is none above it. -/
theorem traceBack_eq (tree : BlockTree) (nHeight : Nat) (pindex : Uint256) :
    ∃ a ∈ tree.lineage pindex, traceBack tree nHeight pindex = .ok (some a) ∧
      tree.nHeight a = min nHeight (tree.nHeight pindex) := by
  simp only [traceBack]
  induction pindex using tree.forest.induct with
  | root p hp =>
      have h0 : tree.nHeight p = 0 := tree.forest.height_root hp
      have hexit : traceBody tree nHeight (some p) = some (.inl (.ok (some p))) := by
        rw [traceBody, if_neg (by rw [h0]; exact Nat.not_lt_zero _)]
      refine ⟨p, tree.forest.self_mem_lineage p, ?_, by rw [h0, Nat.min_zero]⟩
      rw [Loop.run_exit hexit]
      rfl
  | child p q hp ih =>
      have hq : tree.nHeight p = tree.nHeight q + 1 := tree.forest.height_parent hp
      by_cases hlt : nHeight < tree.nHeight p
      · have hagain : traceBody tree nHeight (some p) = some (.inr (some q)) := by
          rw [traceBody, if_pos hlt, show tree.pprev p = some q from hp]
        obtain ⟨a, ha, htrace, hheight⟩ := ih
        refine ⟨a, ?_, ?_, ?_⟩
        · rw [BlockTree.lineage, Forest.lineage_parent hp]
          exact List.mem_cons_of_mem p ha
        · rw [Loop.run_again hagain, hq]
          exact htrace
        · rw [hheight, min_eq_left hlt.le, min_eq_left (by omega)]
      · have hexit : traceBody tree nHeight (some p) = some (.inl (.ok (some p))) := by
          rw [traceBody, if_neg hlt]
        refine ⟨p, tree.forest.self_mem_lineage p, ?_, (min_eq_right (Nat.not_lt.mp hlt)).symm⟩
        rw [Loop.run_exit hexit]
        rfl

/-- Whether a block is an ancestor is seen at its height. -/
theorem traceBack_eq_iff {a : Uint256} (hle : tree.nHeight a ≤ tree.nHeight pindex) :
    traceBack tree (tree.nHeight a) pindex = .ok (some a) ↔ a ∈ tree.lineage pindex := by
  obtain ⟨b, hb, htrace, hheight⟩ := traceBack_eq tree (tree.nHeight a) pindex
  rw [min_eq_left hle] at hheight
  rw [htrace]
  constructor
  · intro h
    obtain rfl := Option.some.inj (Except.ok.inj h)
    exact hb
  · intro ha
    rw [tree.forest.eq_of_height_eq hb ha hheight]

namespace SyncNode

/-! ## Validation -/

/-- A strict descendant of the checkpoint, both being in the index. -/
def Extending (s : SyncNode View World) (hash : Uint256) : Prop :=
  s.hashSyncCheckpoint ∈ s.chain.mapBlockIndex.entries ∧ hash ∈ s.chain.mapBlockIndex.entries ∧
    hash ≠ s.hashSyncCheckpoint ∧
    s.hashSyncCheckpoint ∈ s.chain.mapBlockIndex.lineage hash

/-- `ValidateSyncCheckpoint` accepts the strict descendants, and changes no more than
`hashInvalidCheckpoint`. -/
theorem validateSyncCheckpoint_spec (s : SyncNode View World) (hash : Uint256) :
    ∃ invalid accepted, s.validateSyncCheckpoint hash =
      ({ s with hashInvalidCheckpoint := invalid }, .ok accepted) ∧
      (accepted = true ↔ s.Extending hash) := by
  rw [validateSyncCheckpoint]
  by_cases hsync : s.hashSyncCheckpoint ∈ s.chain.mapBlockIndex.entries
  swap
  · rw [if_pos hsync]
    exact ⟨_, false, rfl, iff_of_false (by simp) fun h ↦ hsync h.1⟩
  by_cases hmem : hash ∈ s.chain.mapBlockIndex.entries
  swap
  · rw [if_neg (not_not_intro hsync), if_pos hmem]
    exact ⟨_, false, rfl, iff_of_false (by simp) fun h ↦ hmem h.2.1⟩
  rw [if_neg (not_not_intro hsync), if_neg (not_not_intro hmem)]
  split
  case isTrue hle =>
    -- a strict descendant would be higher
    have hnot : ¬ s.Extending hash := fun h ↦
      absurd (s.chain.mapBlockIndex.forest.height_lt_of_mem h.2.2.2 h.2.2.1.symm)
        (Nat.not_lt.mpr hle)
    obtain ⟨a, _, htrace, _⟩ := traceBack_eq s.chain.mapBlockIndex
      (s.chain.mapBlockIndex.nHeight hash) s.hashSyncCheckpoint
    rw [htrace]
    dsimp only
    split
    case isTrue => exact ⟨_, false, rfl, iff_of_false (by simp) hnot⟩
    case isFalse => exact ⟨_, false, rfl, iff_of_false (by simp) hnot⟩
  case isFalse hlt =>
    have hle := (Nat.not_le.mp hlt).le
    have hiff := traceBack_eq_iff hle
    obtain ⟨a, ha, htrace, _⟩ := traceBack_eq s.chain.mapBlockIndex
      (s.chain.mapBlockIndex.nHeight s.hashSyncCheckpoint) hash
    rw [htrace] at hiff ⊢
    dsimp only
    split
    case isTrue hne =>
      refine ⟨_, false, rfl, iff_of_false (by simp) fun h ↦ hne ?_⟩
      exact Option.some.inj (Except.ok.inj (hiff.mpr h.2.2.2))
    case isFalse heq =>
      rw [not_not] at heq
      refine ⟨_, true, rfl, iff_of_true rfl ⟨hsync, hmem, ?_, heq ▸ ha⟩⟩
      rintro rfl
      exact hlt (le_refl _)

/-! ## What the two functions can do -/

/-- How `ProcessSyncCheckpoint` and `AcceptPendingSyncCheckpoint` end. -/
inductive CheckpointExit (s : SyncNode View World) :
    SyncNode View World × Except Failure Bool → Prop
  | unchanged {invalid r} (hr : r = .ok false ∨ ∃ message, r = .error (.exception message)) :
      CheckpointExit s ({ s with hashInvalidCheckpoint := invalid }, r)
  /-- The block is not there yet. -/
  | pending {msg : CSyncCheckpoint}
      (hmem : msg.hashCheckpoint ∉ s.chain.mapBlockIndex.entries) :
      CheckpointExit s ({ s with
        hashPendingCheckpoint := msg.hashCheckpoint
        checkpointMessagePending := msg }, .ok false)
  /-- The pending checkpoint is not valid. -/
  | dropped {invalid} :
      CheckpointExit s ({ s with
        hashInvalidCheckpoint := invalid
        hashPendingCheckpoint := 0
        checkpointMessagePending := {} }, .ok false)
  | moved {invalid hash msg} (hext : s.Extending hash) :
      CheckpointExit s ({ s with
        hashInvalidCheckpoint := invalid
        hashSyncCheckpoint := hash
        hashPendingCheckpoint := 0
        checkpointMessage := msg
        checkpointMessagePending := {} }, .ok true)

theorem CheckpointExit.same {r : Except Failure Bool}
    (hr : r = .ok false ∨ ∃ message, r = .error (.exception message)) :
    CheckpointExit s (s, r) := by
  have h : CheckpointExit s ({ s with hashInvalidCheckpoint := s.hashInvalidCheckpoint }, r) :=
    .unchanged hr
  exact h

/-- Nothing is reorganized. -/
@[simp] theorem reorganize_eq (enforced : Bool) (s : SyncNode View World) (hash : Uint256) :
    s.reorganize enforced hash = (s, true) := by
  simp [reorganize, setBestChain]

theorem writeSyncCheckpoint_cases (s : SyncNode View World) (io : CheckpointIO)
    (hash : Uint256) : s.writeSyncCheckpoint io hash = (s, false) ∨
      s.writeSyncCheckpoint io hash = ({ s with hashSyncCheckpoint := hash }, true) := by
  rw [writeSyncCheckpoint]
  split_ifs
  · exact Or.inl rfl
  · exact Or.inl rfl
  · exact Or.inr rfl

theorem acceptPendingSyncCheckpoint_exit (enforced : Bool) (io : CheckpointIO)
    (s : SyncNode View World) :
    CheckpointExit s (s.acceptPendingSyncCheckpoint enforced io) := by
  rw [acceptPendingSyncCheckpoint]
  split
  case isFalse => exact .same (Or.inl rfl)
  case isTrue =>
    obtain ⟨invalid, accepted, hvalid, haccepted⟩ :=
      s.validateSyncCheckpoint_spec s.hashPendingCheckpoint
    rw [hvalid]
    cases accepted with
    | false => exact .dropped
    | true =>
        dsimp only
        rw [reorganize_eq]
        dsimp only
        rcases writeSyncCheckpoint_cases { s with hashInvalidCheckpoint := invalid } io
          s.hashPendingCheckpoint with hwrite | hwrite
        · rw [hwrite]
          exact .unchanged (Or.inl rfl)
        · rw [hwrite]
          exact .moved (haccepted.mp rfl)

theorem processChecked_exit (enforced : Bool) (io : CheckpointIO) (s : SyncNode View World)
    (msg : CSyncCheckpoint) : CheckpointExit s (s.processChecked enforced io msg) := by
  rw [processChecked]
  split
  case isTrue hmem => exact .pending hmem
  case isFalse =>
    obtain ⟨invalid, accepted, hvalid, haccepted⟩ :=
      s.validateSyncCheckpoint_spec msg.hashCheckpoint
    rw [hvalid]
    cases accepted with
    | false => exact .unchanged (Or.inl rfl)
    | true =>
        dsimp only
        rw [reorganize_eq]
        dsimp only
        rcases writeSyncCheckpoint_cases { s with hashInvalidCheckpoint := invalid } io
          msg.hashCheckpoint with hwrite | hwrite
        · rw [hwrite]
          exact .unchanged (Or.inl rfl)
        · rw [hwrite]
          exact .moved (haccepted.mp rfl)

theorem processSyncCheckpoint_exit (verify : List UInt8 → List UInt8 → Bool) (enforced : Bool)
    (io : CheckpointIO) (s : SyncNode View World) (msg : CSyncCheckpoint) :
    CheckpointExit s (s.processSyncCheckpoint verify enforced io msg) := by
  rw [processSyncCheckpoint]
  split
  case h_1 e hsig =>
    rw [CSyncCheckpoint.checkSignature] at hsig
    split at hsig
    case isTrue => cases hsig
    case isFalse =>
      split at hsig
      case h_1 message _ =>
        obtain rfl := Except.error.inj hsig
        exact .same (Or.inr ⟨message, rfl⟩)
      case h_2 => cases hsig
  case h_2 => exact .same (Or.inl rfl)
  case h_3 msg' _ => exact processChecked_exit enforced io s msg'

end SyncNode

/-! ## Runs -/

/-- The calls that the checkpoint is moved by, and those that the index grows by. -/
inductive CheckpointCall where
  | processSyncCheckpoint (msg : CSyncCheckpoint) (io : CheckpointIO)
  | acceptPendingSyncCheckpoint (io : CheckpointIO)
  | addToBlockIndex (hash : Uint256)

/-- What a call does, and what it returned. -/
def CheckpointCall.run (env : ChainEnv Block View World) (verify : List UInt8 → List UInt8 → Bool)
    (s : SyncNode View World) : CheckpointCall → SyncNode View World × Except Failure Bool
  | .processSyncCheckpoint msg io =>
      s.processSyncCheckpoint verify env.syncCheckpointEnforced io msg
  | .acceptPendingSyncCheckpoint io =>
      s.acceptPendingSyncCheckpoint env.syncCheckpointEnforced io
  | .addToBlockIndex hash => ({ s with chain := s.chain.addToBlockIndex env hash }, .ok true)

/-- One call.  An exception is caught where messages are processed. -/
def CheckpointStep (env : ChainEnv Block View World) (verify : List UInt8 → List UInt8 → Bool)
    (s : SyncNode View World) (call : CheckpointCall) (s' : SyncNode View World) : Prop :=
  s' = (call.run env verify s).1

namespace SyncNode

variable {env : ChainEnv Block View World} {verify : List UInt8 → List UInt8 → Bool}
  {call : CheckpointCall} {calls : List CheckpointCall}

/-- What the calls between `s` and `s'` keep. -/
structure Forward (s s' : SyncNode View World) : Prop where
  mem : s'.hashSyncCheckpoint ∈ s'.chain.mapBlockIndex.entries
  /-- The checkpoint is where it was, or at a descendant. -/
  descends : s.hashSyncCheckpoint ∈ s'.chain.mapBlockIndex.lineage s'.hashSyncCheckpoint
  /-- The index only grows. -/
  lineage : ∀ hash ∈ s.chain.mapBlockIndex.entries, hash ∈ s'.chain.mapBlockIndex.entries ∧
    s'.chain.mapBlockIndex.lineage hash = s.chain.mapBlockIndex.lineage hash
  pending : s'.hashPendingCheckpoint = 0 ∨
    s'.hashPendingCheckpoint = s'.checkpointMessagePending.hashCheckpoint ∨
    s'.hashPendingCheckpoint = s.hashPendingCheckpoint ∧
      s'.checkpointMessagePending = s.checkpointMessagePending

namespace Forward

theorem refl (h : s.hashSyncCheckpoint ∈ s.chain.mapBlockIndex.entries) : Forward s s where
  mem := h
  descends := s.chain.mapBlockIndex.forest.self_mem_lineage _
  lineage _ hmem := ⟨hmem, rfl⟩
  pending := Or.inr (Or.inr ⟨rfl, rfl⟩)

theorem trans (h : Forward s₀ s) (h' : Forward s s') : Forward s₀ s' where
  mem := h'.mem
  descends := by
    have hold : s₀.hashSyncCheckpoint ∈ s'.chain.mapBlockIndex.lineage s.hashSyncCheckpoint := by
      rw [(h'.lineage _ h.mem).2]
      exact h.descends
    exact Forest.mem_lineage_trans hold h'.descends
  lineage hash hmem := by
    obtain ⟨hmem₁, hlineage⟩ := h.lineage hash hmem
    obtain ⟨hmem', hlineage'⟩ := h'.lineage hash hmem₁
    exact ⟨hmem', hlineage'.trans hlineage⟩
  pending := by
    rcases h'.pending with h0 | hmsg | ⟨hpending, hmsg⟩
    · exact Or.inl h0
    · exact Or.inr (Or.inl hmsg)
    · rw [hpending, hmsg]
      exact h.pending

end Forward

/-- A strict descendant of the checkpoint is one step forward. -/
theorem CheckpointExit.forward {q : SyncNode View World × Except Failure Bool}
    (h : CheckpointExit s q) (hs : s.hashSyncCheckpoint ∈ s.chain.mapBlockIndex.entries) :
    Forward s q.1 := by
  cases h with
  | unchanged => exact ⟨hs, (Forward.refl hs).descends, (Forward.refl hs).lineage,
      Or.inr (Or.inr ⟨rfl, rfl⟩)⟩
  | pending => exact ⟨hs, (Forward.refl hs).descends, (Forward.refl hs).lineage,
      Or.inr (Or.inl rfl)⟩
  | dropped => exact ⟨hs, (Forward.refl hs).descends, (Forward.refl hs).lineage, Or.inl rfl⟩
  | moved hext => exact ⟨hext.2.1, hext.2.2.2, (Forward.refl hs).lineage, Or.inl rfl⟩

theorem forward_addToBlockIndex (env : ChainEnv Block View World) (hash : Uint256)
    (hs : s.hashSyncCheckpoint ∈ s.chain.mapBlockIndex.entries) :
    Forward s { s with chain := s.chain.addToBlockIndex env hash } := by
  by_cases hmem : hash ∈ s.chain.mapBlockIndex.entries
  · have hsame : s.chain.addToBlockIndex env hash = s.chain := by
      rw [ChainState.addToBlockIndex, dif_pos hmem]
    rw [hsame]
    exact .refl hs
  · have htree := ChainState.mapBlockIndex_addToBlockIndex env hmem
    have hlineage : ∀ x ∈ s.chain.mapBlockIndex.entries,
        x ∈ (s.chain.addToBlockIndex env hash).mapBlockIndex.entries ∧
        (s.chain.addToBlockIndex env hash).mapBlockIndex.lineage x =
          s.chain.mapBlockIndex.lineage x := by
      intro x hx
      rw [htree]
      exact ⟨(BlockTree.mem_insert hmem).mpr (Or.inr hx), BlockTree.lineage_insert hmem hx⟩
    refine ⟨(hlineage _ hs).1, ?_, hlineage, Or.inr (Or.inr ⟨rfl, rfl⟩)⟩
    exact Forest.self_mem_lineage _ _

/-- One call. -/
theorem forward_run (env : ChainEnv Block View World)
    (verify : List UInt8 → List UInt8 → Bool) (call : CheckpointCall)
    (hs : s.hashSyncCheckpoint ∈ s.chain.mapBlockIndex.entries) :
    Forward s (call.run env verify s).1 := by
  cases call with
  | processSyncCheckpoint msg io => exact (processSyncCheckpoint_exit _ _ _ _ _).forward hs
  | acceptPendingSyncCheckpoint io =>
      exact (acceptPendingSyncCheckpoint_exit _ _ _).forward hs
  | addToBlockIndex hash => exact forward_addToBlockIndex env hash hs

/-- Any number of calls. -/
theorem forward_of_run (hrun : Run (CheckpointStep env verify) s₀ calls s)
    (hs : s₀.hashSyncCheckpoint ∈ s₀.chain.mapBlockIndex.entries) : Forward s₀ s := by
  refine hrun.invariant (I := Forward s₀) ?_ (.refl hs)
  rintro s₁ call s₂ h₁ rfl
  exact h₁.trans (forward_run env verify call h₁.mem)

theorem CheckpointExit.returned {q : SyncNode View World × Except Failure Bool}
    (h : CheckpointExit s q) {e : Failure} (he : q.2 = .error e) :
    ∃ message, e = .exception message := by
  cases h with
  | unchanged hr =>
      rcases hr with hr | ⟨message, hr⟩
      · rw [hr] at he
        cases he
      · exact ⟨message, Except.error.inj (he.symm.trans hr)⟩
  | pending => cases he
  | dropped => cases he
  | moved => cases he

/-- No call reads through a null pointer, and each one ends. -/
theorem returned_run (env : ChainEnv Block View World)
    (verify : List UInt8 → List UInt8 → Bool) (call : CheckpointCall) {e : Failure}
    (he : (call.run env verify s).2 = .error e) : ∃ message, e = .exception message := by
  cases call with
  | processSyncCheckpoint msg io => exact (processSyncCheckpoint_exit _ _ _ _ _).returned he
  | acceptPendingSyncCheckpoint io =>
      exact (acceptPendingSyncCheckpoint_exit _ _ _).returned he
  | addToBlockIndex hash => exact absurd he (by simp [CheckpointCall.run])

/-- **The checkpoint moves along one branch, and forward only.**  After any calls, and in the
call that follows them. -/
theorem syncCheckpoint_linear (hrun : Run (CheckpointStep env verify) s₀ calls s)
    (hs : s₀.hashSyncCheckpoint ∈ s₀.chain.mapBlockIndex.entries) (call : CheckpointCall) :
    s.hashSyncCheckpoint ∈ s.chain.mapBlockIndex.entries ∧
      (s.hashPendingCheckpoint = 0 ∨
        s.hashPendingCheckpoint = s.checkpointMessagePending.hashCheckpoint ∨
        s.hashPendingCheckpoint = s₀.hashPendingCheckpoint ∧
          s.checkpointMessagePending = s₀.checkpointMessagePending) ∧
      ((call.run env verify s).1.hashSyncCheckpoint = s.hashSyncCheckpoint ∨
        (call.run env verify s).1.hashSyncCheckpoint ≠ s.hashSyncCheckpoint ∧
          s.hashSyncCheckpoint ∈ (call.run env verify s).1.chain.mapBlockIndex.lineage
            (call.run env verify s).1.hashSyncCheckpoint) ∧
      ∀ e, (call.run env verify s).2 = .error e → ∃ message, e = .exception message := by
  have hforward := forward_of_run hrun hs
  refine ⟨hforward.mem, hforward.pending, ?_, fun e he ↦ returned_run env verify call he⟩
  by_cases hsame : (call.run env verify s).1.hashSyncCheckpoint = s.hashSyncCheckpoint
  · exact Or.inl hsame
  · exact Or.inr ⟨hsame, (forward_run env verify call hforward.mem).descends⟩

/-- The sample node with its genesis block as the checkpoint. -/
def sample : SyncNode Uint256 Unit where
  chain := (ChainState.loadBlockIndexDB sampleChainEnv (.empty sampleChainEnv 0 rfl) ()
    ).addToBlockIndex sampleChainEnv 1
  hashSyncCheckpoint := 1

/-- A checkpoint that comes before its block waits for it, and is moved to. -/
theorem syncCheckpoint_linear_pending :
    ∃ s, Run (CheckpointStep sampleChainEnv fun _ _ ↦ true) sample
        [.processSyncCheckpoint (.signed 3 []) {}, .addToBlockIndex 3] s ∧
      s.hashPendingCheckpoint = 3 ∧
      let s' := (CheckpointCall.run sampleChainEnv (fun _ _ ↦ true) s
        (.acceptPendingSyncCheckpoint {})).1
      s'.hashSyncCheckpoint = 3 ∧ (s'.hashSyncCheckpoint = s.hashSyncCheckpoint ∨
        s'.hashSyncCheckpoint ≠ s.hashSyncCheckpoint ∧
          s.hashSyncCheckpoint ∈ s'.chain.mapBlockIndex.lineage s'.hashSyncCheckpoint) := by
  have hrun : Run (CheckpointStep sampleChainEnv fun _ _ ↦ true) sample
      [.processSyncCheckpoint (.signed 3 []) {}, .addToBlockIndex 3] _ :=
    .cons rfl (.cons rfl (.nil _))
  have hlinear := syncCheckpoint_linear hrun (by decide +kernel) (.acceptPendingSyncCheckpoint {})
  exact ⟨_, hrun, by decide +kernel, by decide +kernel, hlinear.2.2.1⟩

end SyncNode

end Fedoracoin
