import Fedoracoin.Round

/-!
# `ActivateBestChain` as a sequence of moves

A call of `ActivateBestChain` is a sequence of calls of `FindMostWorkChain`, `DisconnectTip` and
`ConnectTip`.  What each of these keeps, the whole keeps (`activateBestChain_moves`); and with
`RoundDone` this says what a call of `ActivateBestChain` leaves (`ActivateDone`).
-/

namespace Fedoracoin

/-- `WriteChainState` failed. -/
def WriteFailed (r : Except TipFailure Unit) : Prop := ∃ e, r = .error (.chainState e)

@[simp] theorem survives_assertion : survives (.error (.block .assertion)) = false := rfl

@[simp] theorem not_writeFailed_ok : ¬ WriteFailed (.ok ()) := fun ⟨_, h⟩ ↦ absurd h (by simp)

@[simp] theorem not_writeFailed_block (e : Failure) : ¬ WriteFailed (.error (.block e)) :=
  fun ⟨_, h⟩ ↦ absurd h (by simp)

theorem not_writeFailed_mapError (r : Except Failure Unit) :
    ¬ WriteFailed (r.mapError TipFailure.block) := by
  cases r with
  | ok u => exact not_writeFailed_ok
  | error e => exact not_writeFailed_block e

namespace ChainState

variable {Block View World : Type} {env : ChainEnv Block View World}
  {s s' s₁ : ChainState View World} {state state' : CValidationState} {m p x : Uint256}
  {r : Except TipFailure Unit}

/-! ## Moves -/

/-- One of the calls that `ActivateBestChain` makes, with what it returned. -/
inductive Move (env : ChainEnv Block View World) (state : CValidationState) :
    ChainState View World → Except TipFailure Unit → ChainState View World → Prop
  | findMostWorkChain {a b : ChainState View World} (h : a.findMostWorkChain env = some b) :
      Move env state a (.ok ()) b
  | disconnectTip {a b : ChainState View World} {state₁ res}
      (h : a.disconnectTip env state = (b, state₁, res)) : Move env state a res b
  | connectTip {a b : ChainState View World} {state₁ res} (pindex : Uint256)
      (hp : a.HasData pindex)
      (h : a.connectTip env state pindex = (b, state₁, res)) : Move env state a res b
  | invalidChainFound {a : ChainState View World} (pindex : Uint256) :
      Move env state a (.ok ()) (a.raiseBestInvalid pindex)

theorem Move.inv (h : Move env state s r s') (hs : s.Inv) : s'.Inv ∧ Evolves s s' := by
  cases h with
  | findMostWorkChain h =>
      obtain ⟨s₁, h₁, hf⟩ := findMostWorkChain_spec env hs
      rw [h₁] at h
      obtain rfl := Option.some.inj h
      exact ⟨hf.inv, hf.evolves⟩
  | disconnectTip h =>
      have hexit := disconnectTip_exit env s state
      rw [h] at hexit
      exact hexit.inv hs
  | connectTip p hp h =>
      have hexit := connectTip_exit env s state p
      rw [h] at hexit
      exact hexit.inv hs hp
  | invalidChainFound p =>
      exact ⟨hs.raiseBestInvalid p, (Marked.raiseBestInvalid s p).evolves⟩

/-- Moves of which none crashed or failed to write the chain state. -/
def Moves (env : ChainEnv Block View World) (state : CValidationState) :
    ChainState View World → ChainState View World → Prop :=
  Relation.ReflTransGen fun s s' ↦
    ∃ r, Move env state s r s' ∧ survives r = true ∧ ¬ WriteFailed r

theorem Moves.inv (h : Moves env state s s') (hs : s.Inv) : s'.Inv ∧ Evolves s s' := by
  induction h with
  | refl => exact ⟨hs, .refl s⟩
  | tail _ hstep ih =>
      obtain ⟨r, hmove, _⟩ := hstep
      obtain ⟨hinv, hevolves⟩ := hmove.inv ih.1
      exact ⟨hinv, ih.2.trans hevolves⟩

theorem Moves.step (h : Moves env state s s₁) (hm : Move env state s₁ r s')
    (hr : survives r = true) (hw : ¬ WriteFailed r) : Moves env state s s' :=
  Relation.ReflTransGen.tail h ⟨r, hm, hr, hw⟩

/-- A call made of moves: either it did not fail to write the chain state, or that was its last
move. -/
def Played (env : ChainEnv Block View World) (state : CValidationState)
    (s s' : ChainState View World) (r : Except TipFailure Unit) : Prop :=
  survives r = true → (Moves env state s s' ∧ ¬ WriteFailed r) ∨
    ∃ s₁, Moves env state s s₁ ∧ Move env state s₁ r s' ∧ WriteFailed r

/-- A call that ends with a failed move. -/
theorem Played.of_move (h : Moves env state s s₁) (hm : Move env state s₁ r s') :
    Played env state s s' r := by
  intro hr
  by_cases hw : WriteFailed r
  · exact Or.inr ⟨s₁, h, hm, hw⟩
  · exact Or.inl ⟨h.step hm hr hw, hw⟩

theorem disconnectBody_moves {q : Result View World} {n : Nat} (h : Moves env state s s₁)
    (hrun : Loop.run (disconnectBody env state) n s₁ = some q) :
    Played env state s q.1 q.2.2 ∧ (q.2.2 = .ok () → q.2.1 = state ∧ Moves env state s q.1) := by
  refine Loop.run_invariant (I := Moves env state s)
    (Q := fun q ↦ Played env state s q.1 q.2.2 ∧
      (q.2.2 = .ok () → q.2.1 = state ∧ Moves env state s q.1)) ?_ ?_ h hrun
  · intro s₁ s₂ hs₁ hbody
    rw [disconnectBody] at hbody
    split at hbody
    · cases hbody
    · split at hbody
      · cases hbody
      · split at hbody
        case h_1 hd =>
          obtain rfl := Sum.inr.inj (Option.some.inj hbody)
          exact hs₁.step (.disconnectTip hd) rfl not_writeFailed_ok
        case h_2 => cases hbody
  · intro s₁ q hs₁ hbody
    have hstay : Played env state s s₁ (.ok ()) := fun _ ↦ Or.inl ⟨hs₁, not_writeFailed_ok⟩
    rw [disconnectBody] at hbody
    split at hbody
    · obtain rfl := Sum.inl.inj (Option.some.inj hbody)
      exact ⟨hstay, fun _ ↦ ⟨rfl, hs₁⟩⟩
    · split at hbody
      · obtain rfl := Sum.inl.inj (Option.some.inj hbody)
        exact ⟨hstay, fun _ ↦ ⟨rfl, hs₁⟩⟩
      · split at hbody
        case h_1 => cases hbody
        case h_2 hd =>
          obtain rfl := Sum.inl.inj (Option.some.inj hbody)
          exact ⟨.of_move hs₁ (.disconnectTip hd), fun hr ↦ absurd hr (by simp)⟩

/-- How the end of a round continues a call. -/
def RoundPlayed (env : ChainEnv Block View World) (state : CValidationState)
    (s : ChainState View World) (q : ChainState View World × CValidationState × Round) : Prop :=
  match q.2.2 with
  | .complete => Moves env state s q.1
  | .rejected _ => Moves env state s q.1 ∧ q.2.1 = {}
  | .failed e => Played env state s q.1 (.error e)

/-- After a failed `ConnectTip`. -/
theorem connectTipFailed_moves {e : TipFailure} (h : Moves env state s s₁)
    (hp : s₁.HasData p) (hc : s₁.connectTip env state p = (s', state', .error e)) :
    RoundPlayed env state s (s'.connectTipFailed state' m e) := by
  have hmove : Move env state s₁ (.error e) s' := .connectTip p hp hc
  rw [connectTipFailed]
  cases hni : e.failure.returns && state'.isInvalid with
  | false => exact .of_move h hmove
  | true =>
      -- a rejected block is neither a crash nor a failed write
      have hexit := connectTip_exit env s₁ state p
      rw [hc] at hexit
      have hwf : ¬ WriteFailed (.error e) := by
        rintro ⟨e', he'⟩
        obtain rfl := Except.error.inj he'
        cases hexit with
        | flushed _ _ _ hr =>
            cases hr with
            | notWritten hstate => simp [hstate] at hni
      have hsv : survives (.error e) = true := by
        rw [survives]
        revert hni
        cases e.failure <;> simp [Failure.returns, Failure.survives]
      have hmoves := h.step hmove hsv hwf
      rw [if_pos rfl]
      split
      case isTrue => exact ⟨hmoves, rfl⟩
      case isFalse =>
        rw [ChainState.invalidChainFound]
        cases s'.chainActive.tip with
        | none => exact fun hr ↦ absurd hr (by simp)
        | some tip =>
            exact ⟨hmoves.step (.invalidChainFound m) rfl not_writeFailed_ok, rfl⟩

theorem connectBody_moves {q : ChainState View World × CValidationState × Round} {n : Nat}
    (hs : s.Inv) (h : Moves env state s s₁)
    (hrun : Loop.run (connectBody env state m) n s₁ = some q) : RoundPlayed env state s q := by
  refine Loop.run_invariant (I := Moves env state s) (Q := RoundPlayed env state s) ?_ ?_ h hrun
  · intro s₁ s₂ hs₁ hbody
    rw [connectBody] at hbody
    split at hbody
    · cases hbody
    · split at hbody
      · cases hbody
      · rename_i p hget
        have hp := (hs₁.inv hs).1.mostWork.2 p (List.mem_of_getElem? hget)
        split at hbody
        case h_1 hc =>
          obtain rfl := Sum.inr.inj (Option.some.inj hbody)
          exact hs₁.step (.connectTip p hp hc) rfl not_writeFailed_ok
        case h_2 => cases hbody
  · intro s₁ q hs₁ hbody
    rw [connectBody] at hbody
    split at hbody
    · obtain rfl := Sum.inl.inj (Option.some.inj hbody)
      exact hs₁
    · split at hbody
      · obtain rfl := Sum.inl.inj (Option.some.inj hbody)
        exact fun hr ↦ absurd hr (by simp)
      · rename_i p hget
        have hp := (hs₁.inv hs).1.mostWork.2 p (List.mem_of_getElem? hget)
        split at hbody
        case h_1 => cases hbody
        case h_2 hc =>
          obtain rfl := Sum.inl.inj (Option.some.inj hbody)
          exact connectTipFailed_moves hs₁ hp hc

theorem activateRound_moves {q : ChainState View World × CValidationState × Round}
    (hs : s.Inv) (h : Moves env state s s₁) (hround : s₁.activateRound env state = some q) :
    RoundPlayed env state s q := by
  simp only [activateRound, Option.bind_eq_bind, Option.bind_eq_some_iff] at hround
  obtain ⟨s₂, hfind, hround⟩ := hround
  have hs₂ := h.step (.findMostWorkChain hfind) rfl not_writeFailed_ok
  split at hround
  · obtain rfl := Option.some.inj hround
    exact hs₂
  · obtain ⟨⟨s₃, state₃, e | u⟩, hdis, hconn⟩ := Option.bind_eq_some_iff.mp hround
    · obtain rfl := Option.some.inj hconn
      exact (disconnectBody_moves hs₂ hdis).1
    · obtain ⟨hstate, hmoves⟩ := (disconnectBody_moves hs₂ hdis).2 rfl
      dsimp only at hstate hmoves
      subst hstate
      exact connectBody_moves hs hmoves hconn

/-- **`ActivateBestChain` is a sequence of moves.** -/
theorem activateBestChain_moves {fuel : Nat} (hs : s.Inv)
    (h : s.activateBestChain env fuel {} = some (s', state', r)) : Played env {} s s' r := by
  refine Loop.run_invariant (I := fun q ↦ Moves env {} s q.1 ∧ q.2 = {})
    (Q := fun q ↦ Played env {} s q.1 q.2.2) ?_ ?_
    (show Moves env {} s s ∧ _ from ⟨.refl, rfl⟩) h
  · rintro ⟨s₁, state₁⟩ p ⟨hs₁, rfl⟩ hbody
    obtain ⟨corruption, hround⟩ := activateBody_eq_inr.mp hbody
    exact activateRound_moves hs hs₁ hround
  · rintro ⟨s₁, state₁⟩ q ⟨hs₁, rfl⟩ hbody
    rcases activateBody_eq_inl hbody with ⟨hround, hr⟩ | ⟨e, hround, hr⟩
    · rw [hr]
      exact fun _ ↦ Or.inl ⟨activateRound_moves hs hs₁ hround, not_writeFailed_ok⟩
    · rw [hr]
      exact activateRound_moves hs hs₁ hround

/-! ## What a call leaves -/

/-- What `ActivateBestChain` leaves. -/
structure ActivateDone (env : ChainEnv Block View World) (s s' : ChainState View World)
    (r : Except TipFailure Unit) : Prop where
  inv : s'.Inv
  evolves : Evolves s s'
  best : r = .ok () → ∀ x ∈ s'.setBlockIndexValid, ∃ tip, s'.chainActive.tip = some tip ∧
    s'.mapBlockIndex.workKey env.address x ≤ s'.mapBlockIndex.workKey env.address tip

theorem activateBestChain_done {fuel : Nat} (hs : s.Inv)
    (h : s.activateBestChain env fuel state = some (s', state', r)) :
    ActivateDone env s s' r := by
  refine Loop.run_invariant (I := fun q ↦ q.1.Inv ∧ Evolves s q.1)
    (Q := fun q ↦ ActivateDone env s q.1 q.2.2) ?_ ?_ ⟨hs, .refl s⟩ h
  · rintro ⟨s₁, state₁⟩ p ⟨hs₁, he⟩ hbody
    obtain ⟨corruption, hround⟩ := activateBody_eq_inr.mp hbody
    have hdone := activateRound_done hs₁ hround
    exact ⟨hdone.inv, he.trans hdone.evolves⟩
  · rintro ⟨s₁, state₁⟩ q ⟨hs₁, he⟩ hbody
    rcases activateBody_eq_inl hbody with ⟨hround, -⟩ | ⟨e, hround, hr⟩
    · have hdone := activateRound_done hs₁ hround
      exact ⟨hdone.inv, he.trans hdone.evolves, fun _ ↦ hdone.best rfl⟩
    · have hdone := activateRound_done hs₁ hround
      refine ⟨hdone.inv, he.trans hdone.evolves, fun hok ↦ ?_⟩
      rw [hr] at hok
      cases hok

end ChainState

end Fedoracoin
