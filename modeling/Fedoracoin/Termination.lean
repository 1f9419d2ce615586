import Fedoracoin.BestChain
import Fedoracoin.Node

/-!
# Termination of `ActivateBestChain`

An iteration of the outer loop that finds an invalid block takes it out of the set of
candidates, unless what was read from the disk may not be the block: then nothing is marked,
and the next iteration finds the same block.  So the loop ends exactly if only finitely many
iterations end in the second way.
-/

namespace Fedoracoin

variable {Block View World : Type} {env : ChainEnv Block View World}

namespace ChainState

variable {s s' : ChainState View World} {state state' : CValidationState} {m : Uint256}

/-- The iteration from here ends with a block that violates a rule, while what was read from the
disk may not be the block. -/
def CorruptRound (env : ChainEnv Block View World)
    (p : ChainState View World × CValidationState) : Prop :=
  ∃ s' state', p.1.activateRound env p.2 = some (s', state', .rejected true)

/-- `ConnectBlock` never says that what it was given may not be the block. -/
def NeverCorrupt (env : ChainEnv Block View World) : Prop :=
  ∀ world block pindex view level chRejectCode strRejectReason,
    (env.connectBlock world block pindex view).2.2 ≠
      .error (.dos level chRejectCode strRejectReason true)

/-- An iteration goes on, or the loop ends; and if it goes on without corruption there are fewer
candidates. -/
theorem activateBody_spec (hs : s.Inv) (state : CValidationState) :
    (∃ r, activateBody env (s, state) = some (.inl r)) ∨
      ∃ p, activateBody env (s, state) = some (.inr p) ∧ p.1.Inv ∧
        (CorruptRound env (s, state) ∨
          p.1.setBlockIndexValid.length < s.setBlockIndexValid.length) := by
  obtain ⟨⟨s', state', round⟩, hround, hdone⟩ := activateRound_spec env hs state
  rw [activateBody, hround]
  cases round with
  | complete => exact Or.inl ⟨_, rfl⟩
  | failed e => exact Or.inl ⟨_, rfl⟩
  | rejected corruption =>
      refine Or.inr ⟨_, rfl, hdone.inv, ?_⟩
      cases corruption with
      | true => exact Or.inl ⟨s', state', hround⟩
      | false => exact Or.inr (hdone.shrinks rfl)

/-! ## Where corruption comes from -/

/-- In a fresh state, corruption is what `ConnectBlock` said of the block. -/
theorem connectTipFailed_ne_corrupt (hnever : NeverCorrupt env) {e : TipFailure} {p : Uint256}
    (hexit : ConnectExit env s {} p (s', state', .error e)) :
    (s'.connectTipFailed state' m e).2.2 ≠ .rejected true := by
  cases hexit with
  | unread hni =>
      rw [connectTipFailed_of_not_invalid (e := .block _) hni]
      exact fun h ↦ absurd h (by simp)
  | unconnected _ hni =>
      rw [connectTipFailed_of_not_invalid (e := .block _) hni]
      exact fun h ↦ absurd h (by simp)
  | corrupt _ hans hret hinv hcor =>
      obtain ⟨level, code, reason, heq⟩ := Failure.eq_dos hret hinv
      obtain ⟨world, block, hans⟩ := hans
      rw [heq, hcor] at hans
      exact absurd hans (hnever _ _ _ _ _ _ _)
  | @rejected s₁ _ _ _ hret hinv hcor =>
      rw [connectTipFailed, TipFailure.failure, hret, hinv, hcor, Bool.and_self, if_pos rfl,
        if_neg (by simp), invalidChainFound]
      cases (s₁.markInvalid p).chainActive.tip with
      | none => exact fun h ↦ absurd h (by simp)
      | some tip => exact fun h ↦ absurd h (by simp)
  | flushed _ _ _ hr =>
      cases hr with
      | notWritten hstate =>
          rw [connectTipFailed_of_not_invalid (by rw [hstate, Bool.and_false])]
          exact fun h ↦ absurd h (by simp)
      | crashed =>
          rw [connectTipFailed_of_not_invalid (e := .block .assertion) rfl]
          exact fun h ↦ absurd h (by simp)

theorem NeverCorrupt.not_corruptRound (hnever : NeverCorrupt env) (s : ChainState View World) :
    ¬ CorruptRound env (s, {}) := by
  rintro ⟨s', state', hround⟩
  simp only [activateRound, Option.bind_eq_bind, Option.bind_eq_some_iff] at hround
  obtain ⟨s₁, hfind, hround⟩ := hround
  split at hround
  · cases hround
  · obtain ⟨⟨s₂, state₂, e | u⟩, hdis, hconn⟩ := Option.bind_eq_some_iff.mp hround
    · cases hconn
    · obtain ⟨hstate, _⟩ := (disconnectBody_moves .refl hdis).2 rfl
      dsimp only at hstate hconn
      subst hstate
      refine Loop.run_invariant (I := fun _ ↦ True) (Q := fun q ↦ q.2.2 ≠ .rejected true)
        (fun _ _ _ _ ↦ trivial) ?_ trivial hconn rfl
      intro s₃ q _ hbody
      rw [connectBody] at hbody
      split at hbody
      · obtain rfl := Sum.inl.inj (Option.some.inj hbody)
        exact fun h ↦ absurd h (by simp)
      · split at hbody
        · obtain rfl := Sum.inl.inj (Option.some.inj hbody)
          exact fun h ↦ absurd h (by simp)
        · rename_i p _
          have hexit := connectTip_exit env s₃ {} p
          split at hbody
          case h_1 => cases hbody
          case h_2 hc =>
            rw [hc] at hexit
            obtain rfl := Sum.inl.inj (Option.some.inj hbody)
            exact connectTipFailed_ne_corrupt hnever hexit

end ChainState

open ChainState

/-- A call ends exactly if only finitely many of its iterations end with a block that may have been
read wrongly. -/
theorem ChainState.Inv.ends_iff {s : ChainState View World} (hs : s.Inv) :
    (∃ fuel r, s.activateBestChain env fuel {} = some r) ↔
      {k | ∃ p, Loop.after (activateBody env) k (s, {}) = some p ∧
        CorruptRound env p}.Finite :=
  Loop.exists_run_iff (I := fun p ↦ p.1.Inv) (m := fun p ↦ p.1.setBlockIndexValid.length)
    (fun p hp ↦ activateBody_spec hp p.2) hs

theorem ChainState.NeverCorrupt.ends {s : ChainState View World} (hnever : NeverCorrupt env)
    (hs : s.Inv) : ∃ fuel r, s.activateBestChain env fuel {} = some r := by
  apply hs.ends_iff.mpr
  have hempty : {k | ∃ p, Loop.after (activateBody env) k (s, {}) = some p ∧
      CorruptRound env p} = ∅ := by
    rw [Set.eq_empty_iff_forall_notMem]
    rintro k ⟨⟨s', state'⟩, hafter, hcorrupt⟩
    -- every iteration starts from a fresh state
    have hfresh : s'.Inv ∧ state' = {} := by
      refine Loop.after_invariant (I := fun p : ChainState View World × CValidationState ↦
        p.1.Inv ∧ p.2 = {}) ?_ ⟨hs, rfl⟩ hafter
      rintro ⟨s₁, state₁⟩ p ⟨hs₁, _⟩ hbody
      obtain ⟨corruption, hround⟩ := activateBody_eq_inr.mp hbody
      have hdone := activateRound_done hs₁ hround
      exact ⟨hdone.inv, hdone.rejected corruption rfl⟩
    obtain ⟨_, rfl⟩ := hfresh
    exact hnever.not_corruptRound s' hcorrupt
  rw [hempty]
  exact Set.finite_empty

/-- **Termination.**  A call of `ActivateBestChain` ends exactly if only finitely many of its
iterations end with a block that may have been read wrongly; so it does if `ConnectBlock` never
says so. -/
theorem activateBestChain_terminates_iff (env : ChainEnv Block View World)
    (s : ChainState View World) (h : Reachable env s) :
    ((∃ fuel r, s.activateBestChain env fuel {} = some r) ↔
      {k | ∃ p, Loop.after (activateBody env) k (s, {}) = some p ∧
        CorruptRound env p}.Finite) ∧
    (NeverCorrupt env → ∃ fuel r, s.activateBestChain env fuel {} = some r) :=
  ⟨h.inv.ends_iff, fun hnever ↦ hnever.ends h.inv⟩

/-- The sample node of hashes never reads a block wrongly. -/
theorem activateBestChain_terminates_iff_sample :
    ∃ s, Reachable sampleChainEnv s ∧ s.chainActive = [1, 2] ∧
      (∃ fuel r, s.activateBestChain sampleChainEnv fuel {} = some r) ∧
      {k | ∃ p, Loop.after (activateBody sampleChainEnv) k (s, {}) = some p ∧
        CorruptRound sampleChainEnv p}.Finite := by
  have hplay := Call.exists_run_of_test sampleChainEnv 9
    (loadBlockIndexDB sampleChainEnv (.empty sampleChainEnv 0 rfl) ()) sampleCalls
    (fun s ↦ decide (s.chainActive = [1, 2])) (by decide +kernel)
  obtain ⟨l, s, hrun, hcheck⟩ := hplay
  have hreach : Reachable sampleChainEnv s := ⟨_, (), l, hrun⟩
  obtain ⟨hiff, hends⟩ := activateBestChain_terminates_iff sampleChainEnv s hreach
  have hnever : NeverCorrupt sampleChainEnv := by
    intro world block pindex view level code reason h
    dsimp only [sampleChainEnv] at h
    split_ifs at h with hview hhash
    · cases h
    · cases h
  exact ⟨s, hreach, of_decide_eq_true hcheck, hends hnever, hiff.mp (hends hnever)⟩

/-- A node that reads block 2 with another coinbase goes on for ever: its merkle root does not
match, so nothing is marked. -/
theorem activateBestChain_diverges :
    ∃ s, Reachable (sampleNode 6 {}).chainEnv s ∧
      ∀ fuel, s.activateBestChain (sampleNode 6 {}).chainEnv fuel {} = none := by
  have hplay := Call.exists_run_of_test (sampleNode 6 {}).chainEnv 9
    (loadBlockIndexDB (sampleNode 6 {}).chainEnv (.empty _ ⟨∅, 0⟩ rfl) 0)
    [.initBlockIndex (.ok ()) true, .activateBestChain, .processBlock { hash := 2 } (by decide)]
    (fun s ↦ (activateBody (sampleNode 6 {}).chainEnv (s, {})).any fun
      | .inl _ => false
      | .inr p => decide (activateBody (sampleNode 6 {}).chainEnv p = some (.inr p)))
    (by decide +kernel)
  obtain ⟨l, s, hrun, hfirst⟩ := hplay
  obtain ⟨r | p, hfirst, hagain⟩ := (Option.any_eq_true _ _).mp hfirst
  · cases hagain
  · refine ⟨s, ⟨_, 0, l, hrun⟩, fun fuel ↦ ?_⟩
    -- the state after the first iteration comes back after every other
    refine Loop.run_eq_none (I := fun q ↦ q = (s, {}) ∨ q = p) ?_ (Or.inl rfl) fuel
    rintro q (rfl | rfl)
    · exact ⟨p, hfirst, Or.inr rfl⟩
    · exact ⟨q, of_decide_eq_true hagain, Or.inr rfl⟩

end Fedoracoin
