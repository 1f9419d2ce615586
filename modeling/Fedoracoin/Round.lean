import Fedoracoin.Tip

/-!
# One round of `ActivateBestChain`

An iteration of the outer loop finds the chain with the most work, disconnects what is not on
it and connects what is.  Every round ends; a round that leaves `fComplete` set has made the
best candidate the tip; and a round in which a block was found invalid has made the set of
candidates smaller.
-/

namespace Fedoracoin

namespace ChainState

variable {Block View World : Type} {env : ChainEnv Block View World}
  {s s' s₁ : ChainState View World} {state state' : CValidationState} {m p x : Uint256}
  {r : Result View World}

/-! ## Disconnecting -/

/-- What the loop over `DisconnectTip` has done so far: blocks of the active chain that are not
on the chain with the most work have gone. -/
structure Rewound (s s₁ : ChainState View World) : Prop where
  inv : s₁.Inv
  mapBlockIndex : s₁.mapBlockIndex = s.mapBlockIndex
  nStatus : s₁.nStatus = s.nStatus
  setBlockIndexValid : s₁.setBlockIndexValid = s.setBlockIndexValid
  chainMostWork : s₁.chainMostWork = s.chainMostWork
  kept : ∀ x ∈ s.chainMostWork, x ∈ s.chainActive → x ∈ s₁.chainActive

namespace Rewound

theorem refl (hs : s.Inv) : Rewound s s := ⟨hs, rfl, rfl, rfl, rfl, fun _ _ h ↦ h⟩

theorem frame (h : Rewound s s₁) (view : View) (world : World) :
    Rewound s { s₁ with pcoinsTip := view, world := world } :=
  ⟨h.inv.frame view world s₁.pindexBestInvalid, h.mapBlockIndex, h.nStatus,
    h.setBlockIndexValid, h.chainMostWork, h.kept⟩

theorem evolves (h : Rewound s s₁) : Evolves s s₁ :=
  .of_eq h.mapBlockIndex h.nStatus h.setBlockIndexValid

theorem failed (h : Rewound s s₁) (x : Uint256) : s₁.failed x = s.failed x := by
  rw [ChainState.failed, ChainState.failed, status, status, h.nStatus]

/-- The tip moves to its predecessor. -/
theorem pop {tip : Uint256} (h : Rewound s s₁) (htip : s₁.chainActive.tip = some tip)
    (hout : tip ∉ s₁.chainMostWork) :
    Rewound s { s₁ with
      chainActive := s₁.chainActive.setTip s₁.mapBlockIndex (s₁.mapBlockIndex.pprev tip) } := by
  have hgood := h.inv.goodChain_setTip_pprev h.inv.active tip
  refine ⟨h.inv.with_active hgood, h.mapBlockIndex, h.nStatus, h.setBlockIndexValid,
    h.chainMostWork, fun x hx hxa ↦ ?_⟩
  have hmem := h.kept x hx hxa
  have hne : x ≠ tip := by
    rintro rfl
    rw [h.chainMostWork] at hout
    exact hout hx
  rw [CChain.eq_path h.inv.active.1 htip, BlockTree.path, Forest.mem_path] at hmem
  cases hprev : s₁.mapBlockIndex.pprev tip with
  | none =>
      rw [Forest.lineage_root hprev, List.mem_singleton] at hmem
      exact absurd hmem hne
  | some hashPrev =>
      change x ∈ CChain.setTip s₁.mapBlockIndex s₁.chainActive (some hashPrev)
      rw [CChain.setTip_some h.inv.active.1, BlockTree.path, Forest.mem_path]
      exact Forest.mem_lineage_parent hprev hmem hne

end Rewound

/-- What the loop ends with. -/
structure DisconnectDone (s : ChainState View World) (state : CValidationState)
    (r : Result View World) : Prop where
  rewound : Rewound s r.1
  ok : r.2.2 = .ok () → r.2.1 = state ∧
    ∀ tip, r.1.chainActive.tip = some tip → tip ∈ r.1.chainMostWork

theorem disconnect_spec (env : ChainEnv Block View World) (state : CValidationState)
    (hs : s.Inv) :
    ∃ r, Loop.run (disconnectBody env state) (s.chainActive.length + 1) s = some r ∧
      DisconnectDone s state r := by
  refine Loop.run_spec (I := Rewound s) (m := fun s₁ ↦ s₁.chainActive.length) ?_ (.refl hs)
    (Nat.lt_succ_self _)
  intro s₁ h
  rw [disconnectBody]
  cases htip : s₁.chainActive.tip with
  | none =>
      refine Or.inl ⟨(s₁, state, .ok ()), rfl, h, fun _ ↦ ⟨rfl, fun tip htip' ↦ ?_⟩⟩
      rw [htip] at htip'
      cases htip'
  | some tip =>
      dsimp only
      split
      case isTrue hin =>
        refine Or.inl ⟨(s₁, state, .ok ()), rfl, h, fun _ ↦ ⟨rfl, fun tip' htip' ↦ ?_⟩⟩
        rw [htip] at htip'
        rw [← Option.some.inj htip']
        exact (CChain.contains_iff h.inv.mostWork.1).mp hin
      case isFalse hout =>
        rw [CChain.contains_iff h.inv.mostWork.1] at hout
        have hexit := disconnectTip_exit env s₁ state
        rcases hd : s₁.disconnectTip env state with ⟨s₂, state₂, res⟩
        rw [hd] at hexit
        cases hexit with
        | failed => exact Or.inl ⟨_, rfl, h.frame s₁.pcoinsTip _, fun hr ↦ absurd hr (by simp)⟩
        | flushed htip' _ _ hr =>
            rw [htip] at htip'
            obtain rfl := Option.some.inj htip'
            generalize hprev : s₁.mapBlockIndex.pprev tip = hashPrev at hr
            cases hr with
            | notWritten => exact Or.inl ⟨_, rfl, h.frame _ _, fun hr ↦ absurd hr (by simp)⟩
            | crashed => exact Or.inl ⟨_, rfl, h.frame _ _, fun hr ↦ absurd hr (by simp)⟩
            | done =>
                have hpop := h.pop htip hout
                rw [hprev] at hpop
                have hlen := CChain.length_setTip_pprev h.inv.active.1 htip
                rw [hprev] at hlen
                exact Or.inr ⟨_, rfl, hpop.frame _ _, hlen⟩

/-! ## Connecting -/

/-- What the loop over `ConnectTip` has done so far: the active chain has grown along the chain
with the most work. -/
structure Advanced (s s₁ : ChainState View World) : Prop where
  inv : s₁.Inv
  evolves : Evolves s s₁
  failed : ∀ x, s₁.failed x = s.failed x
  setBlockIndexValid : s₁.setBlockIndexValid = s.setBlockIndexValid
  chainMostWork : s₁.chainMostWork = s.chainMostWork
  tip : ∀ tip, s₁.chainActive.tip = some tip → tip ∈ s₁.chainMostWork
  kept : ∀ x ∈ s.chainActive, x ∈ s₁.chainActive

/-- The two chains meet. -/
theorem Inv.tip_eq (hs : s.Inv) (hm : s.chainMostWork.tip = some m)
    (htip : ∀ tip, s.chainActive.tip = some tip → tip ∈ s.chainMostWork)
    (hin : m ∈ s.chainActive) : s.chainActive.tip = some m := by
  cases ht : s.chainActive.tip with
  | none =>
      rw [List.getLast?_eq_none_iff.mp ht] at hin
      exact absurd hin List.not_mem_nil
  | some t =>
      have htm := htip t ht
      rw [CChain.eq_path hs.mostWork.1 hm, BlockTree.path, Forest.mem_path] at htm
      rw [CChain.eq_path hs.active.1 ht, BlockTree.path, Forest.mem_path] at hin
      rw [Forest.eq_of_height_eq htm (Forest.self_mem_lineage _ m)
        (le_antisymm (Forest.height_le_of_mem htm) (Forest.height_le_of_mem hin))]

/-- The next block to connect. -/
theorem Inv.exists_next (hs : s.Inv) (hm : s.chainMostWork.tip = some m)
    (htip : ∀ tip, s.chainActive.tip = some tip → tip ∈ s.chainMostWork)
    (hout : m ∉ s.chainActive) :
    ∃ p, s.chainMostWork[s.chainActive.length]? = some p ∧ p ∈ s.chainMostWork ∧
      p ∉ s.chainActive ∧ s.mapBlockIndex.nHeight p = s.chainActive.length := by
  have hpath := CChain.eq_path hs.mostWork.1 hm
  have hlt : s.chainActive.length < s.chainMostWork.length := by
    rw [hpath, BlockTree.path, Forest.length_path, Nat.lt_succ_iff]
    cases ht : s.chainActive.tip with
    | none =>
        rw [List.getLast?_eq_none_iff.mp ht]
        exact Nat.zero_le _
    | some t =>
        have htm := htip t ht
        rw [hpath, BlockTree.path, Forest.mem_path] at htm
        have hne : t ≠ m := by
          rintro rfl
          exact hout (List.mem_of_getLast? ht)
        rw [CChain.eq_path hs.active.1 ht, BlockTree.path, Forest.length_path]
        exact Forest.height_lt_of_mem htm hne
  have hget := List.getElem?_eq_getElem hlt
  obtain ⟨hmem, hheight⟩ := hs.mostWork.1.getElem?_iff.mp hget
  refine ⟨_, hget, hmem, fun hin ↦ ?_, hheight⟩
  exact absurd (hs.active.1.height_lt hin) (by rw [hheight]; exact lt_irrefl _)

/-- What the loop ends with. -/
structure ConnectDone (s : ChainState View World) (m : Uint256)
    (q : ChainState View World × CValidationState × Round) : Prop where
  inv : q.1.Inv
  evolves : Evolves s q.1
  complete : q.2.2 = .complete → q.1.chainActive.tip = some m
  rejected : ∀ corruption, q.2.2 = .rejected corruption → q.2.1 = {}
  shrinks : q.2.2 = .rejected false →
    (∀ x ∈ s.chainMostWork, x ∉ s.chainActive → s.failed x = false) →
    q.1.setBlockIndexValid.length < s.setBlockIndexValid.length

theorem connectTipFailed_of_not_invalid {e : TipFailure}
    (h : (e.failure.returns && state.isInvalid) = false) :
    s.connectTipFailed state m e = (s, state, .failed e) := by
  rw [connectTipFailed, h]
  rfl

/-- A round that ends with a failure promises nothing else. -/
theorem ConnectDone.of_failed {e : TipFailure} (hinv : s₁.Inv) (hevolves : Evolves s s₁) :
    ConnectDone s m (s₁, state, .failed e) :=
  ⟨hinv, hevolves, fun h ↦ absurd h (by simp), fun _ h ↦ absurd h (by simp),
    fun h ↦ absurd h (by simp)⟩

/-- After a `ConnectTip` that failed on a block outside of the active chain. -/
theorem connectTipFailed_done {e : TipFailure} (h : Advanced s s₁) (hp : p ∈ s₁.chainMostWork)
    (hout : p ∉ s₁.chainActive) (hexit : ConnectExit env s₁ state p (s', state', .error e)) :
    ConnectDone s m (s'.connectTipFailed state' m e) := by
  have hdata := h.inv.mostWork.2 p hp
  obtain ⟨hinv', hevolves'⟩ := hexit.inv h.inv hdata
  have hevolves := h.evolves.trans hevolves'
  cases hexit with
  | unread hni =>
      rw [connectTipFailed_of_not_invalid (e := .block _) hni]
      exact .of_failed hinv' hevolves
  | unconnected _ hni =>
      rw [connectTipFailed_of_not_invalid (e := .block _) hni]
      exact .of_failed hinv' hevolves
  | corrupt ht _ hret hinv hcor =>
      rw [connectTipFailed, TipFailure.failure, hret, hinv, hcor]
      exact ⟨hinv', hevolves, fun h ↦ absurd h (by simp), fun _ _ ↦ rfl, fun h ↦ absurd h (by simp)⟩
  | @rejected s₂ _ ht _ hret hinv hcor =>
      rw [connectTipFailed, TipFailure.failure, hret, hinv, hcor, Bool.and_self, if_pos rfl,
        if_neg (by simp), invalidChainFound]
      cases (s₂.markInvalid p).chainActive.tip with
      | none => exact .of_failed hinv' hevolves
      | some tip =>
          have hmark := Marked.raiseBestInvalid (s₂.markInvalid p) m
          refine ⟨hinv'.raiseBestInvalid m, hevolves.trans hmark.evolves,
            fun h ↦ absurd h (by simp), fun _ _ ↦ rfl, fun _ hclean ↦ ?_⟩
          -- the block was a candidate, and it is none any more
          rw [h.chainMostWork] at hp
          have hvalid := hclean p hp fun hin ↦ hout (h.kept p hin)
          rw [← h.failed] at hvalid
          have hmem := (h.inv.mem_valid p).mpr ⟨hdata, hvalid⟩
          rw [h.setBlockIndexValid] at hmem
          obtain ⟨_, _, hgone⟩ :=
            (h.inv.touched hdata ht).markInvalid ((ht.evolves.data p).mpr hdata)
          exact (hevolves.trans hmark.evolves).length_lt hmem fun hin ↦
            hgone (hmark.evolves.sublist.subset hin)
  | flushed _ _ _ hr =>
      cases hr with
      | notWritten hstate =>
          rw [connectTipFailed_of_not_invalid (by rw [hstate, Bool.and_false])]
          exact .of_failed hinv' hevolves
      | crashed =>
          rw [connectTipFailed_of_not_invalid (e := .block .assertion) rfl]
          exact .of_failed hinv' hevolves

/-- After a `ConnectTip` that succeeded. -/
theorem Advanced.push (h : Advanced s s₁) (hp : p ∈ s₁.chainMostWork)
    (hheight : s₁.mapBlockIndex.nHeight p = s₁.chainActive.length)
    (hexit : ConnectExit env s₁ state p (s', state', .ok ())) :
    Advanced s s' ∧ s'.chainActive.length = s₁.chainActive.length + 1 := by
  obtain ⟨hinv', hevolves'⟩ := hexit.inv h.inv (h.inv.mostWork.2 p hp)
  cases hexit with
  | @flushed s₂ _ _ ht _ hprev hr =>
      obtain ⟨htree, hset, hactive, hmost, _⟩ := ht.frame
      cases hr with
      | done =>
          have hpath : s₂.chainActive.setTip s₂.mapBlockIndex (some p) =
              s₁.mapBlockIndex.path p := by
            rw [htree, hactive, CChain.setTip_some h.inv.active.1]
          constructor
          · refine ⟨hinv', h.evolves.trans hevolves', fun x ↦ (ht.failed x).trans (h.failed x),
              hset.trans h.setBlockIndexValid, hmost.trans h.chainMostWork, ?_, ?_⟩
            · intro tip htip
              change CChain.tip (s₂.chainActive.setTip s₂.mapBlockIndex (some p)) = some tip
                at htip
              rw [hpath, CChain.tip_path] at htip
              rw [← Option.some.inj htip]
              exact hmost ▸ hp
            · intro x hx
              change x ∈ s₂.chainActive.setTip s₂.mapBlockIndex (some p)
              have hx₁ := h.kept x hx
              cases htip : s₁.chainActive.tip with
              | none =>
                  rw [List.getLast?_eq_none_iff.mp htip] at hx₁
                  exact absurd hx₁ List.not_mem_nil
              | some tip =>
                  rw [CChain.eq_path h.inv.active.1 htip, BlockTree.path, Forest.mem_path] at hx₁
                  rw [htip] at hprev
                  rw [hpath, BlockTree.path, Forest.mem_path]
                  exact Forest.mem_lineage_trans hx₁ (Forest.parent_mem_lineage hprev)
          · change (s₂.chainActive.setTip s₂.mapBlockIndex (some p)).length = _
            rw [hpath, BlockTree.path, Forest.length_path, BlockTree.forest_height, hheight]

theorem connect_spec (env : ChainEnv Block View World) (state : CValidationState) (hs : s.Inv)
    (hm : s.chainMostWork.tip = some m)
    (htip : ∀ tip, s.chainActive.tip = some tip → tip ∈ s.chainMostWork) :
    ∃ q, Loop.run (connectBody env state m) (s.chainMostWork.length + 1) s = some q ∧
      ConnectDone s m q := by
  refine Loop.run_spec (I := Advanced s)
    (m := fun s₁ ↦ s.chainMostWork.length - s₁.chainActive.length) ?_
    ⟨hs, .refl s, fun _ ↦ rfl, rfl, rfl, htip, fun _ hx ↦ hx⟩
    (Nat.lt_succ_of_le (Nat.sub_le _ _))
  intro s₁ h
  rw [connectBody]
  have hm₁ : s₁.chainMostWork.tip = some m := by rw [h.chainMostWork, hm]
  split
  case isTrue hin =>
    have hmeet := h.inv.tip_eq hm₁ h.tip ((CChain.contains_iff h.inv.active.1).mp hin)
    exact Or.inl ⟨_, rfl, h.inv, h.evolves, fun _ ↦ hmeet, fun _ h ↦ absurd h (by simp),
      fun h ↦ absurd h (by simp)⟩
  case isFalse hout =>
    rw [CChain.contains_iff h.inv.active.1] at hout
    obtain ⟨p, hget, hp, hpout, hheight⟩ := h.inv.exists_next hm₁ h.tip hout
    rw [hget]
    dsimp only
    have hexit := connectTip_exit env s₁ state p
    rcases hc : s₁.connectTip env state p with ⟨s₂, state₂, e | u⟩ <;> rw [hc] at hexit
    · exact Or.inl ⟨_, rfl, connectTipFailed_done h hp hpout hexit⟩
    · obtain ⟨hadv, hlen⟩ := h.push hp hheight hexit
      refine Or.inr ⟨_, rfl, hadv, ?_⟩
      have hlt : s₁.chainActive.length < s.chainMostWork.length := by
        rw [← h.chainMostWork]
        exact (List.getElem?_eq_some_iff.mp hget).1
      rw [hlen]
      omega

/-! ## The round -/

/-- What a round ends with. -/
structure RoundDone (env : ChainEnv Block View World) (s : ChainState View World)
    (q : ChainState View World × CValidationState × Round) : Prop where
  inv : q.1.Inv
  evolves : Evolves s q.1
  best : q.2.2 = .complete → ∀ x ∈ q.1.setBlockIndexValid, ∃ tip,
    q.1.chainActive.tip = some tip ∧
    q.1.mapBlockIndex.workKey env.address x ≤ q.1.mapBlockIndex.workKey env.address tip
  rejected : ∀ corruption, q.2.2 = .rejected corruption → q.2.1 = {}
  shrinks : q.2.2 = .rejected false →
    q.1.setBlockIndexValid.length < s.setBlockIndexValid.length

theorem activateRound_spec (env : ChainEnv Block View World) (hs : s.Inv)
    (state : CValidationState) : ∃ q, s.activateRound env state = some q ∧ RoundDone env s q := by
  obtain ⟨s₁, hfind, hf⟩ := findMostWorkChain_spec env hs
  rw [activateRound, hfind]
  simp only [Option.bind_eq_bind, Option.bind_some]
  cases hm : s₁.chainMostWork.tip with
  | none =>
      refine ⟨_, rfl, hf.inv, hf.evolves, fun _ x hx ↦ ?_, fun _ h ↦ absurd h (by simp),
        fun h ↦ absurd h (by simp)⟩
      obtain ⟨m, hm', _⟩ := hf.best x hx
      rw [hm] at hm'
      cases hm'
  | some m =>
      obtain ⟨⟨s₂, state₂, e | u⟩, hdis, hrew, hok⟩ := disconnect_spec env state hf.inv
      · dsimp only
        rw [hdis]
        exact ⟨_, rfl, hrew.inv, hf.evolves.trans hrew.evolves, fun h ↦ absurd h (by simp),
          fun _ h ↦ absurd h (by simp), fun h ↦ absurd h (by simp)⟩
      · obtain ⟨rfl, htip₂⟩ := hok rfl
        have hm₂ : s₂.chainMostWork.tip = some m := by rw [hrew.chainMostWork, hm]
        obtain ⟨q, hconn, hq⟩ := connect_spec env state₂ hrew.inv hm₂ htip₂
        dsimp only
        rw [hdis]
        refine ⟨q, hconn, hq.inv, (hf.evolves.trans hrew.evolves).trans hq.evolves, ?_,
          hq.rejected, ?_⟩
        · intro hc x hx
          have htree := (hrew.evolves.trans hq.evolves).mapBlockIndex
          obtain ⟨m', hm', hle⟩ :=
            hf.best x ((hrew.evolves.trans hq.evolves).sublist.subset hx)
          rw [hm] at hm'
          obtain rfl := Option.some.inj hm'
          exact ⟨m, hq.complete hc, by rw [htree]; exact hle⟩
        · intro hr
          have hle := hrew.evolves.sublist.length_le
          rcases hf.clean with hlt | hclean
          · exact ((hq.evolves.sublist.length_le.trans hle).trans_lt hlt)
          · refine (hq.shrinks hr fun x hx hxa ↦ ?_).trans_le
              (hle.trans hf.evolves.sublist.length_le)
            rw [hrew.failed]
            rw [hrew.chainMostWork] at hx
            refine hclean m hm x ?_ fun hin ↦ hxa (hrew.kept x hx hin)
            rw [CChain.eq_path hf.inv.mostWork.1 hm, BlockTree.path, Forest.mem_path] at hx
            exact hx

theorem activateRound_done {q : ChainState View World × CValidationState × Round} (hs : s.Inv)
    (h : s.activateRound env state = some q) : RoundDone env s q := by
  obtain ⟨q', hround, hdone⟩ := activateRound_spec env hs state
  obtain rfl := Option.some.inj (hround.symm.trans h)
  exact hdone

/-- An iteration after which the loop goes on has rejected a block. -/
theorem activateBody_eq_inr {p p' : ChainState View World × CValidationState} :
    activateBody env p = some (.inr p') ↔
      ∃ corruption, p.1.activateRound env p.2 = some (p'.1, p'.2, .rejected corruption) := by
  rw [activateBody, Option.map_eq_some_iff]
  constructor
  · rintro ⟨⟨s, state, round⟩, hround, h⟩
    cases round with
    | complete => cases h
    | rejected corruption =>
        obtain rfl := Sum.inr.inj h
        exact ⟨corruption, hround⟩
    | failed e => cases h
  · rintro ⟨corruption, hround⟩
    exact ⟨_, hround, rfl⟩

/-- The iteration that leaves the loop has connected the best chain, or failed. -/
theorem activateBody_eq_inl {p : ChainState View World × CValidationState}
    {q : Result View World} (h : activateBody env p = some (.inl q)) :
    p.1.activateRound env p.2 = some (q.1, q.2.1, .complete) ∧ q.2.2 = .ok () ∨
      ∃ e, p.1.activateRound env p.2 = some (q.1, q.2.1, .failed e) ∧ q.2.2 = .error e := by
  rw [activateBody, Option.map_eq_some_iff] at h
  obtain ⟨⟨s, state, round⟩, hround, h⟩ := h
  cases round with
  | complete =>
      obtain rfl := Sum.inl.inj h
      exact Or.inl ⟨hround, rfl⟩
  | rejected corruption => cases h
  | failed e =>
      obtain rfl := Sum.inl.inj h
      exact Or.inr ⟨e, hround, rfl⟩

end ChainState

end Fedoracoin
