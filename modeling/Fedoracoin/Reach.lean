import Fedoracoin.Moves

/-!
# Reachable states

The invariant holds of what is loaded, and every call keeps it.  Outside of
`ActivateBestChain` a call does no more than to add a block to the index (`Grown`).
-/

namespace Fedoracoin

variable {Block View World : Type} {env : ChainEnv Block View World}

namespace Stored

variable {stored : Stored env} {hash : Uint256}

/-- A stored entry was written with its data. -/
theorem status_of_mem (h : hash ∈ stored.mapBlockIndex.entries) :
    ((stored.nStatus.lookup hash).getD {}).haveData = true ∧
      blockValidTransactions ≤ ((stored.nStatus.lookup hash).getD {}).valid := by
  obtain ⟨nStatus, hl⟩ := Finmap.mem_iff.mp ((stored.mem_nStatus hash).mpr h)
  rw [hl, Option.getD_some]
  exact stored.data hash nStatus hl

theorem status_of_notMem (h : hash ∉ stored.mapBlockIndex.entries) :
    (stored.nStatus.lookup hash).getD {} = {} := by
  rw [Finmap.lookup_eq_none.mpr fun hmem ↦ h ((stored.mem_nStatus hash).mp hmem), Option.getD_none]

end Stored

namespace ChainState

variable {s s' s₁ : ChainState View World} {hash p x : Uint256} {r : Except Failure Unit}

/-! ## Loading -/

@[simp] theorem status_loadBlockIndexDB (stored : Stored env) (world : World) :
    (loadBlockIndexDB env stored world).status x = (stored.nStatus.lookup x).getD {} := rfl

theorem inv_loadBlockIndexDB (env : ChainEnv Block View World) (stored : Stored env)
    (world : World) : (loadBlockIndexDB env stored world).Inv := by
  have hdata : ∀ x, (loadBlockIndexDB env stored world).HasData x ↔
      x ∈ stored.mapBlockIndex.entries := by
    intro x
    by_cases hx : x ∈ stored.mapBlockIndex.entries
    · exact iff_of_true (Stored.status_of_mem hx).1 hx
    · refine iff_of_false (fun h ↦ ?_) hx
      rw [HasData, status_loadBlockIndexDB, Stored.status_of_notMem hx] at h
      cases h
  have hvalid : ∀ x, blockValidTransactions ≤
      ((loadBlockIndexDB env stored world).status x).valid ↔
      x ∈ stored.mapBlockIndex.entries := by
    intro x
    by_cases hx : x ∈ stored.mapBlockIndex.entries
    · exact iff_of_true (Stored.status_of_mem hx).2 hx
    · refine iff_of_false (fun h ↦ ?_) hx
      rw [status_loadBlockIndexDB, Stored.status_of_notMem hx] at h
      cases h
  constructor
  case mem_valid =>
    intro x
    rw [loadBlockIndexDB, List.mem_filter, stored.mem_hashes, Bool.and_eq_true,
      decide_eq_true_eq, Bool.not_eq_true']
    change _ ∧ blockValidTransactions ≤ ((loadBlockIndexDB env stored world).status x).valid ∧
      (loadBlockIndexDB env stored world).failed x = false ↔ _
    rw [hvalid, ← and_assoc, and_self]
    exact and_congr_left fun _ ↦ (hdata x).symm
  case known => exact fun x hx ↦ Stored.status_of_notMem hx
  case zero_notMem => exact stored.zero_notMem
  case valid_iff => exact fun x ↦ (hdata x).trans (hvalid x).symm
  case pprev_data => exact fun x hashPrev h ↦ (hdata _).mpr (BlockTree.pprev_mem h)
  case active =>
    rw [loadBlockIndexDB]
    dsimp only
    split
    case isTrue hbest =>
      rw [CChain.setTip_some (Or.inl rfl)]
      refine ⟨Forest.chain_path _ _, fun x hx ↦ (hdata x).mpr ?_⟩
      exact BlockTree.mem_of_lineage hbest x (Forest.mem_path.mp hx)
    case isFalse => exact ⟨Or.inl rfl, fun _ h ↦ absurd h List.not_mem_nil⟩
  case mostWork => exact ⟨Or.inl rfl, fun _ h ↦ absurd h List.not_mem_nil⟩
  case failedChild =>
    intro x hx
    cases hl : stored.nStatus.lookup x with
    | none =>
        rw [status_loadBlockIndexDB, hl] at hx
        cases hx
    | some nStatus =>
        rw [status_loadBlockIndexDB, hl] at hx
        exact stored.failedChild x nStatus hl hx

/-! ## Adding blocks -/

/-- What a call does outside of `ActivateBestChain`. -/
structure Grown (s s' : ChainState View World) : Prop where
  inv : s'.Inv
  chainActive : s'.chainActive = s.chainActive
  pcoinsTip : s'.pcoinsTip = s.pcoinsTip
  get : ∀ x ∈ s.mapBlockIndex.entries, x ∈ s'.mapBlockIndex.entries ∧
    s'.mapBlockIndex.get x = s.mapBlockIndex.get x
  data : ∀ x, s.HasData x → s'.HasData x
  failedValid : ∀ x, s'.HasData x → (s'.status x).failedValid = true →
    s.HasData x ∧ (s.status x).failedValid = true

namespace Grown

theorem refl (hs : s.Inv) : Grown s s :=
  ⟨hs, rfl, rfl, fun _ h ↦ ⟨h, rfl⟩, fun _ h ↦ h, fun _ h h' ↦ ⟨h, h'⟩⟩

theorem trans (h : Grown s s₁) (h' : Grown s₁ s') : Grown s s' where
  inv := h'.inv
  chainActive := h'.chainActive.trans h.chainActive
  pcoinsTip := h'.pcoinsTip.trans h.pcoinsTip
  get x hx := by
    obtain ⟨hmem, hget⟩ := h.get x hx
    obtain ⟨hmem', hget'⟩ := h'.get x hmem
    exact ⟨hmem', hget'.trans hget⟩
  data x hx := h'.data x (h.data x hx)
  failedValid x hd hx := by
    obtain ⟨hd₁, hx₁⟩ := h'.failedValid x hd hx
    exact h.failedValid x hd₁ hx₁

end Grown

section AddToBlockIndex

variable (env) (hnew : hash ∉ s.mapBlockIndex.entries)

include hnew

theorem mapBlockIndex_addToBlockIndex : (s.addToBlockIndex env hash).mapBlockIndex =
    s.mapBlockIndex.insert hash (env.hashPrevBlock hash) (env.getBlockWork hash)
      s.nBlockSequenceId hnew := by
  rw [ChainState.addToBlockIndex, dif_neg hnew]

theorem status_addToBlockIndex (x : Uint256) : (s.addToBlockIndex env hash).status x =
    if x = hash then { valid := blockValidTree } else s.status x := by
  rw [ChainState.addToBlockIndex, dif_neg hnew]
  exact status_setStatus (s := s)

/-- Nothing but the index changes with a new entry. -/
theorem addToBlockIndex_frame :
    (s.addToBlockIndex env hash).setBlockIndexValid = s.setBlockIndexValid ∧
      (s.addToBlockIndex env hash).chainActive = s.chainActive ∧
      (s.addToBlockIndex env hash).chainMostWork = s.chainMostWork ∧
      (s.addToBlockIndex env hash).pcoinsTip = s.pcoinsTip := by
  rw [ChainState.addToBlockIndex, dif_neg hnew]
  exact ⟨rfl, rfl, rfl, rfl⟩

theorem mem_addToBlockIndex (x : Uint256) :
    x ∈ (s.addToBlockIndex env hash).mapBlockIndex.entries ↔
      x = hash ∨ x ∈ s.mapBlockIndex.entries := by
  rw [mapBlockIndex_addToBlockIndex env hnew]
  exact BlockTree.mem_insert hnew

/-- The new entry has no data. -/
theorem hasData_addToBlockIndex (hs : s.Inv) (x : Uint256) :
    (s.addToBlockIndex env hash).HasData x ↔ s.HasData x := by
  rw [HasData, status_addToBlockIndex env hnew]
  split
  case isTrue hx =>
    subst hx
    exact iff_of_false (by decide) fun hd ↦ hnew (hs.mem_entries hd)
  case isFalse => exact Iff.rfl

theorem GoodChain.addToBlockIndex {c : CChain} (hs : s.Inv) (hc : s.GoodChain c) :
    (s.addToBlockIndex env hash).GoodChain c := by
  constructor
  · rw [mapBlockIndex_addToBlockIndex env hnew]
    exact BlockTree.chain_insert hnew hc.1 fun x hx ↦ hs.mem_entries (hc.2 x hx)
  · intro x hx
    rw [hasData_addToBlockIndex env hnew hs]
    exact hc.2 x hx

/-- A failed ancestor is still one. -/
theorem HasFailedAncestor.addToBlockIndex (hx : x ∈ s.mapBlockIndex.entries)
    (h : s.HasFailedAncestor x) : (s.addToBlockIndex env hash).HasFailedAncestor x := by
  obtain ⟨a, ha, hax, hf⟩ := h
  refine ⟨a, ?_, hax, ?_⟩
  · rwa [mapBlockIndex_addToBlockIndex env hnew, BlockTree.lineage_insert hnew hx]
  · rw [status_addToBlockIndex env hnew, if_neg, hf]
    rintro rfl
    exact hnew (BlockTree.mem_of_lineage hx _ ha)

/-- A new entry keeps the invariant if its block may follow the block that its header names. -/
theorem Inv.addToBlockIndex (hs : s.Inv) (h0 : hash ≠ 0)
    (hprev : env.hashPrevBlock hash ∈ s.mapBlockIndex.entries →
      s.HasData (env.hashPrevBlock hash)) : (s.addToBlockIndex env hash).Inv := by
  obtain ⟨hvalid, hactive, hmostWork, -⟩ := addToBlockIndex_frame env hnew
  constructor
  case mem_valid =>
    intro x
    rw [hvalid, hs.mem_valid, hasData_addToBlockIndex env hnew hs]
    refine and_congr_right fun hd ↦ ?_
    rw [failed, failed, status_addToBlockIndex env hnew, if_neg]
    rintro rfl
    exact hnew (hs.mem_entries hd)
  case known =>
    intro x hx
    rw [mem_addToBlockIndex env hnew, not_or] at hx
    rw [status_addToBlockIndex env hnew, if_neg hx.1, hs.known x hx.2]
  case zero_notMem =>
    rw [mem_addToBlockIndex env hnew, not_or]
    exact ⟨h0.symm, hs.zero_notMem⟩
  case valid_iff =>
    intro x
    rw [HasData, status_addToBlockIndex env hnew]
    split
    case isTrue => exact iff_of_false (by decide) (by decide)
    case isFalse => exact hs.valid_iff x
  case pprev_data =>
    intro x hashPrev hx
    rw [mapBlockIndex_addToBlockIndex env hnew] at hx
    rw [hasData_addToBlockIndex env hnew hs]
    by_cases hxh : x = hash
    · subst hxh
      obtain ⟨rfl, hin⟩ := BlockTree.pprev_insert hnew hx
      exact hprev hin
    · rw [BlockTree.pprev, BlockTree.get_insert_of_ne hnew hxh] at hx
      exact hs.pprev_data x hashPrev hx
  case active => exact hactive ▸ hs.active.addToBlockIndex env hnew hs
  case mostWork => exact hmostWork ▸ hs.mostWork.addToBlockIndex env hnew hs
  case failedChild =>
    intro x hx
    rw [status_addToBlockIndex env hnew] at hx
    split at hx
    case isTrue => cases hx
    case isFalse =>
      apply (hs.failedChild x hx).addToBlockIndex env hnew
      by_contra hout
      rw [hs.known x hout] at hx
      cases hx

end AddToBlockIndex

/-- A new entry, the block of which may follow the block that its header names. -/
theorem Grown.addToBlockIndex (hs : s.Inv) (hnew : hash ∉ s.mapBlockIndex.entries)
    (h0 : hash ≠ 0) (hprev : env.hashPrevBlock hash ∈ s.mapBlockIndex.entries →
      s.HasData (env.hashPrevBlock hash)) :
    Grown s (s.addToBlockIndex env hash) ∧
      hash ∈ (s.addToBlockIndex env hash).mapBlockIndex.entries ∧
      (s.addToBlockIndex env hash).status hash = { valid := blockValidTree } := by
  obtain ⟨-, hactive, -, hview⟩ := addToBlockIndex_frame env hnew
  refine ⟨⟨hs.addToBlockIndex env hnew h0 hprev, hactive, hview, fun x hx ↦ ⟨?_, ?_⟩,
    fun x ↦ (hasData_addToBlockIndex env hnew hs x).mpr, fun x hd hx ↦ ?_⟩, ?_, ?_⟩
  · exact (mem_addToBlockIndex env hnew x).mpr (Or.inr hx)
  · rw [mapBlockIndex_addToBlockIndex env hnew]
    exact BlockTree.get_insert_of_ne hnew fun hxh ↦ hnew (hxh ▸ hx)
  · rw [hasData_addToBlockIndex env hnew hs] at hd
    rw [status_addToBlockIndex env hnew, if_neg] at hx
    · exact ⟨hd, hx⟩
    · rintro rfl
      exact hnew (hs.mem_entries hd)
  · exact (mem_addToBlockIndex env hnew hash).mpr (Or.inl rfl)
  · rw [status_addToBlockIndex env hnew, if_pos rfl]

/-- The data of a block whose header is known. -/
theorem Grown.receiveData (hs : s.Inv) (hp : p ∈ s.mapBlockIndex.entries)
    (hstatus : s.status p = { valid := blockValidTree }) : Grown s (s.receiveData p) := by
  have hnodata : ¬ s.HasData p := by
    rw [HasData, hstatus]
    decide
  have heq : s.receiveData p =
      { s.setStatus p { valid := blockValidTransactions, haveData := true } with
        setBlockIndexValid := p :: s.setBlockIndexValid } := by
    rw [ChainState.receiveData, hstatus]
    rfl
  have hstatus' : ∀ x, (s.receiveData p).status x =
      if x = p then { valid := blockValidTransactions, haveData := true } else s.status x := by
    intro x
    rw [heq]
    exact status_setStatus
  refine ⟨?_, ?_, ?_, ?_, ?_, ?_⟩
  · rw [heq]
    refine hs.setStatus _ _ hp (fun h ↦ absurd h hnodata) (by decide) ?_
      (fun h ↦ absurd h Bool.false_ne_true) fun x ↦ ?_
    · rw [hstatus]
      exact fun h ↦ h
    · split
      case isTrue hx => exact iff_of_true (List.mem_cons.mpr (Or.inl hx)) (by decide)
      case isFalse hx =>
        rw [List.mem_cons]
        exact or_iff_right hx
  · rw [heq]; rfl
  · rw [heq]; rfl
  · intro x hx
    rw [heq]
    exact ⟨hx, rfl⟩
  · intro x hx
    rw [HasData, hstatus', if_neg]
    · exact hx
    · rintro rfl
      exact hnodata hx
  · intro x hd hx
    rw [hstatus'] at hx
    split at hx
    case isTrue => cases hx
    case isFalse hxp =>
      rw [HasData, hstatus', if_neg hxp] at hd
      exact ⟨hd, hx⟩

/-- A block without data is marked. -/
theorem Grown.setFailedValid (hs : s.Inv) (hp : p ∈ s.mapBlockIndex.entries)
    (hstatus : s.status p = { valid := blockValidTree }) :
    Grown s (s.setStatus p { s.status p with failedValid := true }) := by
  have hnodata : ¬ s.HasData p := by
    rw [HasData, hstatus]
    decide
  have hdata : ∀ x, (s.setStatus p { s.status p with failedValid := true }).HasData x ↔
      s.HasData x := by
    intro x
    rw [HasData, status_setStatus]
    split
    case isTrue hx => rw [hx, HasData]
    case isFalse => exact Iff.rfl
  refine ⟨?_, rfl, rfl, fun x hx ↦ ⟨hx, rfl⟩, fun x hx ↦ (hdata x).mpr hx, fun x hd hx ↦ ?_⟩
  · refine hs.setStatus _ s.setBlockIndexValid hp (fun h ↦ h) (hs.valid_iff p)
      (fun _ ↦ rfl) (fun h ↦ hs.failedChild p h) fun x ↦ ?_
    split
    case isTrue hx =>
      rw [hx, hs.mem_valid]
      exact iff_of_false (fun h ↦ hnodata h.1) fun h ↦ hnodata h.1
    case isFalse => exact Iff.rfl
  · rw [hdata] at hd
    rw [status_setStatus, if_neg] at hx
    · exact ⟨hd, hx⟩
    · rintro rfl
      exact hnodata hd

theorem Grown.receivedBlockTransactions {indexWritten : Bool} (hs : s.Inv)
    (hp : p ∈ s.mapBlockIndex.entries) (hstatus : s.status p = { valid := blockValidTree }) :
    Grown s (s.receivedBlockTransactions p indexWritten).1 := receiveData hs hp hstatus

theorem Grown.initBlockIndex {stored : Except Failure Unit} {indexWritten : Bool} (hs : s.Inv) :
    Grown s (s.initBlockIndex env stored indexWritten).1 := by
  rw [ChainState.initBlockIndex.eq_def]
  split
  · exact .refl hs
  · split
    · exact .refl hs
    · rename_i hempty
      rw [not_not] at hempty
      cases stored with
      | error e => exact .refl hs
      | ok u =>
          have hnot : ∀ x, x ∉ s.mapBlockIndex.entries := fun x ↦ by
            rw [hempty]
            exact Finmap.notMem_empty
          obtain ⟨hadd, hmem, hstatus⟩ := Grown.addToBlockIndex hs
            (hnot env.hashGenesisBlock) env.hashGenesisBlock_ne_zero fun h ↦ absurd h (hnot _)
          exact hadd.trans (receivedBlockTransactions hadd.inv hmem hstatus)

theorem acceptBlockHeader_eq_ok {block : Arrival} (h : s.acceptBlockHeader env block = .ok s') :
    s' = s.addToBlockIndex env block.hash ∧ (block.hash = env.hashGenesisBlock ∨
      env.hashPrevBlock block.hash ∈ s.mapBlockIndex.entries) := by
  rw [acceptBlockHeader] at h
  by_cases hg : block.hash = env.hashGenesisBlock
  · simp only [ne_eq, hg, not_true_eq_false, if_false, bind_eq_ok] at h
    obtain ⟨_, _, hs'⟩ := h
    rw [← hg] at hs'
    exact ⟨(Except.ok.inj hs').symm, Or.inl hg⟩
  · simp only [ne_eq, hg, not_false_eq_true, if_true, bind_eq_ok, failIf_eq_ok] at h
    obtain ⟨_, _, _, hprev, _, _, hs'⟩ := h
    rw [decide_eq_false_iff_not, not_not] at hprev
    exact ⟨(Except.ok.inj hs').symm, Or.inr hprev⟩

/-- The header of a new block is accepted if its predecessor is there and it passes the checks. -/
theorem exists_acceptBlockHeader_iff {block : Arrival}
    (hnew : block.hash ∉ s.mapBlockIndex.entries) :
    (∃ s', s.acceptBlockHeader env block = .ok s') ↔ block.hash = env.hashGenesisBlock ∨
      env.hashPrevBlock block.hash ∈ s.mapBlockIndex.entries ∧ block.header = .ok () := by
  rw [acceptBlockHeader, decide_eq_false hnew, Bool.false_and]
  by_cases hg : block.hash = env.hashGenesisBlock
  · rw [if_neg (not_not_intro hg)]
    exact iff_of_true ⟨_, rfl⟩ (Or.inl hg)
  · rw [if_pos hg, or_iff_right hg]
    by_cases hprev : env.hashPrevBlock block.hash ∈ s.mapBlockIndex.entries
    · rw [decide_eq_false (not_not_intro hprev), and_iff_right hprev]
      cases block.header with
      | error e =>
          apply iff_of_false
          · rintro ⟨s', h⟩
            cases h
          · exact fun h ↦ absurd h (by simp)
      | ok u => exact iff_of_true ⟨_, rfl⟩ rfl
    · rw [decide_eq_true hprev]
      apply iff_of_false
      · rintro ⟨s', h⟩
        cases h
      · exact fun h ↦ hprev h.1

/-- The block comes into the index if its header is accepted, whatever becomes of it then. -/
theorem mem_processBlock {block : Arrival} (hnew : block.hash ∉ s.mapBlockIndex.entries) :
    block.hash ∈ (s.processBlock env block).1.mapBlockIndex.entries ↔
      block.preliminary = .ok () ∧
        ¬ (env.hashPrevBlock block.hash ≠ 0 ∧
          ¬ (env.hashPrevBlock block.hash ∈ s.mapBlockIndex.entries ∧
            (s.status (env.hashPrevBlock block.hash)).haveData = true)) ∧
        (block.hash = env.hashGenesisBlock ∨
          env.hashPrevBlock block.hash ∈ s.mapBlockIndex.entries ∧ block.header = .ok ()) := by
  rw [ChainState.processBlock, if_neg hnew, ← exists_acceptBlockHeader_iff hnew]
  cases block.preliminary with
  | error e => exact iff_of_false hnew fun h ↦ absurd h.1 (by simp)
  | ok u =>
      rw [and_iff_right rfl]
      dsimp only
      split
      case isTrue horphan => exact iff_of_false hnew fun h ↦ h.1 horphan
      case isFalse horphan =>
        rw [and_iff_right horphan, acceptBlock]
        cases hheader : s.acceptBlockHeader env block with
        | error e => exact iff_of_false hnew (by simp)
        | ok s₁ =>
            obtain ⟨rfl, _⟩ := acceptBlockHeader_eq_ok hheader
            have hmem : block.hash ∈ (s.addToBlockIndex env block.hash).mapBlockIndex.entries := by
              rw [mem_addToBlockIndex env hnew]
              exact Or.inl rfl
            refine iff_of_true ?_ ⟨_, rfl⟩
            cases block.checkBlock with
            | error e => exact hmem
            | ok u =>
                dsimp only
                split
                case isTrue => exact hmem
                case isFalse =>
                  split
                  case isTrue => exact hmem
                  case isFalse =>
                    cases block.stored with
                    | error e => exact hmem
                    | ok u =>
                        rw [receivedBlockTransactions, receiveData]
                        dsimp only
                        split <;> exact hmem

theorem Grown.processBlock {block : Arrival} (hs : s.Inv) (h0 : block.hash ≠ 0) :
    Grown s (s.processBlock env block).1 := by
  rw [ChainState.processBlock]
  split
  case isTrue => exact .refl hs
  case isFalse hnew =>
    cases block.preliminary with
    | error e => exact .refl hs
    | ok u =>
        dsimp only
        split
        case isTrue => exact .refl hs
        case isFalse horphan =>
          rw [acceptBlock]
          cases hheader : s.acceptBlockHeader env block with
          | error e => exact .refl hs
          | ok s₁ =>
              obtain ⟨rfl, _⟩ := acceptBlockHeader_eq_ok hheader
              -- the block of hash 0 is in no tree, so the predecessor is there with its data
              have hprev : env.hashPrevBlock block.hash ∈ s.mapBlockIndex.entries →
                  s.HasData (env.hashPrevBlock block.hash) := by
                intro hin
                rw [not_and_or, not_not, not_not] at horphan
                rcases horphan with hz | ⟨_, hd⟩
                · rw [hz] at hin
                  exact absurd hin hs.zero_notMem
                · exact hd
              obtain ⟨hadd, hmem, hstatus⟩ := Grown.addToBlockIndex hs hnew h0 hprev
              cases block.checkBlock with
              | error e => exact hadd
              | ok u =>
                  dsimp only
                  split
                  case isTrue => exact hadd.trans (setFailedValid hadd.inv hmem hstatus)
                  case isFalse =>
                    split
                    case isTrue => exact hadd.trans (setFailedValid hadd.inv hmem hstatus)
                    case isFalse =>
                      cases block.stored with
                      | error e => exact hadd
                      | ok u => exact hadd.trans (receivedBlockTransactions hadd.inv hmem hstatus)

end ChainState

/-! ## Calls -/

open ChainState

variable {s s' : ChainState View World} {call : Call} {fuel : Nat}
  {r : Except TipFailure Unit}

/-- **A call adds to the index, or activates the best chain.** -/
theorem Call.run_cases (hs : s.Inv) (h : call.run env fuel s = some (s', r)) :
    (Grown s s' ∧ ¬ WriteFailed r) ∨
      ∃ state', s.activateBestChain env fuel {} = some (s', state', r) := by
  cases call with
  | initBlockIndex stored indexWritten =>
      left
      obtain ⟨rfl, rfl⟩ := Prod.mk.inj (Option.some.inj h)
      exact ⟨Grown.initBlockIndex hs, not_writeFailed_mapError _⟩
  | processBlock block hhash =>
      left
      obtain ⟨rfl, rfl⟩ := Prod.mk.inj (Option.some.inj h)
      exact ⟨Grown.processBlock hs hhash, not_writeFailed_mapError _⟩
  | activateBestChain =>
      right
      obtain ⟨⟨s₁, state', r'⟩, hrun, heq⟩ := Option.map_eq_some_iff.mp h
      obtain ⟨rfl, rfl⟩ := Prod.mk.inj heq
      exact ⟨state', hrun⟩

theorem Step.inv {l : Label} (h : Step env s l s') (hs : s.Inv) : s'.Inv := by
  obtain ⟨_, fuel, hrun⟩ := h
  rcases l.1.run_cases hs hrun with ⟨hgrown, _⟩ | ⟨state', hact⟩
  · exact hgrown.inv
  · exact (activateBestChain_done hs hact).inv

theorem Reachable.inv (h : Reachable env s) : s.Inv := by
  obtain ⟨stored, world, l, hrun⟩ := h
  exact hrun.invariant (fun _ _ _ hs hstep ↦ hstep.inv hs) (inv_loadBlockIndexDB env stored world)

end Fedoracoin
