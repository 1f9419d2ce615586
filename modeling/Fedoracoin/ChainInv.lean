import Fedoracoin.ChainRun

/-!
# What holds between the operations

`Inv` is the invariant of the index, the set of candidates and the two chains, and `Evolves`
is how they change while a chain is activated: the tree stays, the statuses only gain
failures, and candidates only leave the set.  Each of `FindMostWorkChain`, `DisconnectTip`
and `ConnectTip` is described once, by a specification or by its exits, and keeps the
invariant.
-/

namespace Fedoracoin

namespace ChainState

variable {Block View World : Type} {env : ChainEnv Block View World}
  {s s' s₁ : ChainState View World} {h x p : Uint256} {nStatus : BlockStatus}

/-! ## Statuses and the set -/

@[simp] theorem status_setStatus :
    (s.setStatus p nStatus).status x = if x = p then nStatus else s.status x := by
  rw [status, status, setStatus]
  by_cases hx : x = p
  · rw [hx, Finmap.lookup_insert, Option.getD_some, if_pos rfl]
  · rw [Finmap.lookup_insert_of_ne _ hx, if_neg hx]

/-- What a new status keeps of the old one is kept of every status. -/
theorem status_setStatus_mono {P : BlockStatus → Prop} (hkeep : P (s.status p) → P nStatus)
    (hx : P (s.status x)) : P ((s.setStatus p nStatus).status x) := by
  rw [status_setStatus]
  split
  case isTrue hxp =>
    rw [hxp] at hx
    exact hkeep hx
  case isFalse => exact hx

@[simp] theorem status_eraseValid : (s.eraseValid p).status x = s.status x := rfl

@[simp] theorem mem_eraseValid :
    x ∈ (s.eraseValid p).setBlockIndexValid ↔ x ∈ s.setBlockIndexValid ∧ x ≠ p := by
  rw [eraseValid, List.mem_filter, decide_eq_true_eq]

/-- The data of the block is there. -/
def HasData (s : ChainState View World) (h : Uint256) : Prop := (s.status h).haveData = true

theorem failed_eq_false_iff :
    s.failed h = false ↔ (s.status h).failedValid = false ∧ (s.status h).failedChild = false := by
  rw [failed, BlockStatus.failed, Bool.or_eq_false_iff]

theorem failed_eq_true_iff :
    s.failed h = true ↔ (s.status h).failedValid = true ∨ (s.status h).failedChild = true := by
  rw [failed, BlockStatus.failed, Bool.or_eq_true]

/-- A chain of blocks with their data. -/
def GoodChain (s : ChainState View World) (c : CChain) : Prop :=
  s.mapBlockIndex.forest.Chain c ∧ ∀ h ∈ c, s.HasData h

/-- A block has an ancestor that was found invalid. -/
def HasFailedAncestor (s : ChainState View World) (h : Uint256) : Prop :=
  ∃ a ∈ s.mapBlockIndex.lineage h, a ≠ h ∧ (s.status a).failedValid = true

/-- The invariant. -/
structure Inv (s : ChainState View World) : Prop where
  mem_valid : ∀ h, h ∈ s.setBlockIndexValid ↔ s.HasData h ∧ s.failed h = false
  known : ∀ h, h ∉ s.mapBlockIndex.entries → s.status h = {}
  zero_notMem : (0 : Uint256) ∉ s.mapBlockIndex.entries
  valid_iff : ∀ h, s.HasData h ↔ blockValidTransactions ≤ (s.status h).valid
  pprev_data : ∀ h hashPrev, s.mapBlockIndex.pprev h = some hashPrev → s.HasData hashPrev
  active : s.GoodChain s.chainActive
  mostWork : s.GoodChain s.chainMostWork
  failedChild : ∀ h, (s.status h).failedChild = true → s.HasFailedAncestor h

/-- How a state changes while a chain is activated. -/
structure Evolves (s s' : ChainState View World) : Prop where
  mapBlockIndex : s'.mapBlockIndex = s.mapBlockIndex
  data : ∀ h, s'.HasData h ↔ s.HasData h
  failedValid : ∀ h, (s.status h).failedValid = true → (s'.status h).failedValid = true
  failedChild : ∀ h, (s.status h).failedChild = true → (s'.status h).failedChild = true
  sublist : s'.setBlockIndexValid.Sublist s.setBlockIndexValid

namespace Evolves

theorem refl (s : ChainState View World) : Evolves s s where
  mapBlockIndex := rfl
  data _ := Iff.rfl
  failedValid _ := id
  failedChild _ := id
  sublist := List.Sublist.refl _

/-- The tree, the statuses and the set are the same. -/
theorem of_eq (htree : s'.mapBlockIndex = s.mapBlockIndex) (hstatus : s'.nStatus = s.nStatus)
    (hset : s'.setBlockIndexValid = s.setBlockIndexValid) : Evolves s s' := by
  have h : ∀ x, s'.status x = s.status x := fun x ↦ by rw [status, status, hstatus]
  constructor
  case mapBlockIndex => exact htree
  case data => exact fun x ↦ by rw [HasData, HasData, h]
  case failedValid => exact fun x hx ↦ by rwa [h]
  case failedChild => exact fun x hx ↦ by rwa [h]
  case sublist => exact hset ▸ List.Sublist.refl _

theorem trans (h : Evolves s s₁) (h' : Evolves s₁ s') : Evolves s s' where
  mapBlockIndex := h'.mapBlockIndex.trans h.mapBlockIndex
  data x := (h'.data x).trans (h.data x)
  failedValid x hx := h'.failedValid x (h.failedValid x hx)
  failedChild x hx := h'.failedChild x (h.failedChild x hx)
  sublist := h'.sublist.trans h.sublist

/-- A candidate that has gone makes the set smaller. -/
theorem length_lt (h : Evolves s s') (hx : x ∈ s.setBlockIndexValid)
    (hx' : x ∉ s'.setBlockIndexValid) :
    s'.setBlockIndexValid.length < s.setBlockIndexValid.length := by
  refine lt_of_le_of_ne h.sublist.length_le fun hlen ↦ ?_
  rw [h.sublist.eq_of_length hlen] at hx'
  exact hx' hx

end Evolves

namespace Inv

theorem mem_entries (hs : s.Inv) (h : s.HasData x) : x ∈ s.mapBlockIndex.entries := by
  by_contra hx
  rw [HasData, hs.known x hx] at h
  cases h

/-- The ancestors of a block with its data have theirs. -/
theorem data_of_lineage (hs : s.Inv) (h : s.HasData p) :
    ∀ x ∈ s.mapBlockIndex.lineage p, s.HasData x := by
  rw [BlockTree.lineage]
  induction p using s.mapBlockIndex.forest.induct with
  | root a ha =>
      intro x hx
      rw [Forest.lineage_root ha, List.mem_singleton] at hx
      rwa [hx]
  | child a b ha ih =>
      intro x hx
      rw [Forest.lineage_parent ha, List.mem_cons] at hx
      rcases hx with rfl | hx
      · exact h
      · exact ih (hs.pprev_data a b ha) x hx

theorem goodChain_path (hs : s.Inv) (h : s.HasData p) : s.GoodChain (s.mapBlockIndex.path p) :=
  ⟨Forest.chain_path _ p, fun x hx ↦ hs.data_of_lineage h x (Forest.mem_path.mp hx)⟩

/-- The chain that `SetTip` makes. -/
theorem goodChain_setTip {c : CChain} (hs : s.Inv) (hc : s.GoodChain c)
    (hp : s.HasData p) : s.GoodChain (c.setTip s.mapBlockIndex (some p)) := by
  rw [CChain.setTip_some hc.1]
  exact hs.goodChain_path hp

theorem goodChain_setTip_pprev {c : CChain} (hs : s.Inv) (hc : s.GoodChain c) (tip : Uint256) :
    s.GoodChain (c.setTip s.mapBlockIndex (s.mapBlockIndex.pprev tip)) := by
  cases hprev : s.mapBlockIndex.pprev tip with
  | none => exact ⟨Or.inl rfl, fun _ h ↦ absurd h List.not_mem_nil⟩
  | some hashPrev => exact hs.goodChain_setTip hc (hs.pprev_data tip hashPrev hprev)

/-- The globals that the invariant does not speak of. -/
theorem frame (hs : s.Inv) (view : View) (world : World) (best : Option Uint256) :
    Inv { s with pcoinsTip := view, world := world, pindexBestInvalid := best } :=
  ⟨hs.mem_valid, hs.known, hs.zero_notMem, hs.valid_iff, hs.pprev_data, hs.active, hs.mostWork,
    hs.failedChild⟩

theorem with_active {c : CChain} (hs : s.Inv) (hc : s.GoodChain c) :
    Inv { s with chainActive := c } :=
  ⟨hs.mem_valid, hs.known, hs.zero_notMem, hs.valid_iff, hs.pprev_data, hc, hs.mostWork,
    hs.failedChild⟩

theorem with_mostWork {c : CChain} (hs : s.Inv) (hc : s.GoodChain c) :
    Inv { s with chainMostWork := c } :=
  ⟨hs.mem_valid, hs.known, hs.zero_notMem, hs.valid_iff, hs.pprev_data, hs.active, hc,
    hs.failedChild⟩

/-- A block gets a new status, and its place in the set with it. -/
theorem setStatus (nStatus : BlockStatus) (valid : List Uint256) (hs : s.Inv)
    (hp : p ∈ s.mapBlockIndex.entries)
    (hdata : s.HasData p → nStatus.haveData = true)
    (hvalid : nStatus.haveData = true ↔ blockValidTransactions ≤ nStatus.valid)
    (hkeep : (s.status p).failedValid = true → nStatus.failedValid = true)
    (hchild : nStatus.failedChild = true → s.HasFailedAncestor p)
    (hset : ∀ h, h ∈ valid ↔ if h = p then nStatus.haveData = true ∧ nStatus.failed = false
      else h ∈ s.setBlockIndexValid) :
    Inv { s.setStatus p nStatus with setBlockIndexValid := valid } := by
  set s₁ : ChainState View World := { s.setStatus p nStatus with setBlockIndexValid := valid }
  have hstatus : ∀ x, s₁.status x = if x = p then nStatus else s.status x :=
    fun _ ↦ status_setStatus
  have hmono : ∀ x, s.HasData x → s₁.HasData x := fun _ ↦
    status_setStatus_mono (P := fun nStatus ↦ nStatus.haveData = true) hdata
  have hfv : ∀ x, (s.status x).failedValid = true → (s₁.status x).failedValid = true := fun _ ↦
    status_setStatus_mono (P := fun nStatus ↦ nStatus.failedValid = true) hkeep
  have hgood : ∀ c, s.GoodChain c → s₁.GoodChain c :=
    fun c hc ↦ ⟨hc.1, fun x hx ↦ hmono x (hc.2 x hx)⟩
  constructor
  case mem_valid =>
    intro x
    have hfail : s₁.failed x = (s₁.status x).failed := rfl
    rw [show x ∈ s₁.setBlockIndexValid ↔ _ from hset x, hfail, HasData, hstatus]
    split
    case isTrue => exact Iff.rfl
    case isFalse => exact hs.mem_valid x
  case known =>
    intro x hx
    rw [hstatus, if_neg (by rintro rfl; exact hx hp)]
    exact hs.known x hx
  case zero_notMem => exact hs.zero_notMem
  case valid_iff =>
    intro x
    rw [HasData, hstatus]
    split
    case isTrue => exact hvalid
    case isFalse => exact hs.valid_iff x
  case pprev_data => exact fun x hashPrev hx ↦ hmono _ (hs.pprev_data x hashPrev hx)
  case active => exact hgood _ hs.active
  case mostWork => exact hgood _ hs.mostWork
  case failedChild =>
    intro x hx
    have hanc : s.HasFailedAncestor x := by
      rw [hstatus] at hx
      split at hx
      case isTrue hxp =>
        rw [hxp]
        exact hchild hx
      case isFalse => exact hs.failedChild x hx
    obtain ⟨a, ha, hne, hf⟩ := hanc
    exact ⟨a, ha, hne, hfv a hf⟩

end Inv

theorem raiseBestInvalid_eq (s : ChainState View World) (p : Uint256) :
    ∃ best, s.raiseBestInvalid p = { s with pindexBestInvalid := best } := by
  rw [raiseBestInvalid]
  split
  · exact ⟨_, rfl⟩
  · exact ⟨s.pindexBestInvalid, rfl⟩

theorem Inv.raiseBestInvalid (hs : s.Inv) (p : Uint256) : (s.raiseBestInvalid p).Inv := by
  obtain ⟨best, hbest⟩ := s.raiseBestInvalid_eq p
  rw [hbest]
  exact hs.frame _ _ _

/-! ## Marking blocks -/

/-- A block is marked as failed and leaves the set. -/
theorem Inv.fail (nStatus : BlockStatus) (hs : s.Inv) (hp : p ∈ s.mapBlockIndex.entries)
    (hdata : nStatus.haveData = (s.status p).haveData)
    (hvalid : nStatus.valid = (s.status p).valid)
    (hkeep : (s.status p).failedValid = true → nStatus.failedValid = true)
    (hkeep' : (s.status p).failedChild = true → nStatus.failedChild = true)
    (hchild : nStatus.failedChild = true → s.HasFailedAncestor p)
    (hfail : nStatus.failed = true) :
    ((s.setStatus p nStatus).eraseValid p).Inv ∧
      Evolves s ((s.setStatus p nStatus).eraseValid p) := by
  have hstatus : ∀ x, ((s.setStatus p nStatus).eraseValid p).status x =
      if x = p then nStatus else s.status x := fun _ ↦ status_setStatus
  constructor
  · apply hs.setStatus _ _ hp
    case hdata => exact fun h ↦ hdata.trans h
    case hvalid =>
      rw [hdata, hvalid]
      exact hs.valid_iff p
    case hkeep => exact hkeep
    case hchild => exact hchild
    case hset =>
      intro x
      rw [List.mem_filter, decide_eq_true_eq, hfail]
      split
      case isTrue hx => simp [hx]
      case isFalse hx => exact and_iff_left hx
  · constructor
    case mapBlockIndex => rfl
    case data =>
      intro x
      rw [HasData, hstatus]
      split
      case isTrue hx => rw [hx, hdata, HasData]
      case isFalse => exact Iff.rfl
    case failedValid =>
      exact fun _ ↦ status_setStatus_mono (P := fun nStatus ↦ nStatus.failedValid = true) hkeep
    case failedChild =>
      exact fun _ ↦ status_setStatus_mono (P := fun nStatus ↦ nStatus.failedChild = true) hkeep'
    case sublist => exact List.filter_sublist

/-- What the search for a candidate changes: marks of descendants of failed blocks. -/
structure Marked (s s' : ChainState View World) : Prop where
  evolves : Evolves s s'
  chainActive : s'.chainActive = s.chainActive
  chainMostWork : s'.chainMostWork = s.chainMostWork
  pcoinsTip : s'.pcoinsTip = s.pcoinsTip
  failedValid : ∀ x, (s'.status x).failedValid = (s.status x).failedValid

namespace Marked

theorem refl (s : ChainState View World) : Marked s s := ⟨.refl s, rfl, rfl, rfl, fun _ ↦ rfl⟩

theorem trans (h : Marked s s₁) (h' : Marked s₁ s') : Marked s s' where
  evolves := h.evolves.trans h'.evolves
  chainActive := h'.chainActive.trans h.chainActive
  chainMostWork := h'.chainMostWork.trans h.chainMostWork
  pcoinsTip := h'.pcoinsTip.trans h.pcoinsTip
  failedValid x := (h'.failedValid x).trans (h.failedValid x)

theorem hasFailedAncestor (h : Marked s s') (ha : s.HasFailedAncestor x) :
    s'.HasFailedAncestor x := by
  obtain ⟨a, hax, hne, hf⟩ := ha
  refine ⟨a, ?_, hne, (h.failedValid a).trans hf⟩
  rwa [h.evolves.mapBlockIndex]

theorem raiseBestInvalid (s : ChainState View World) (p : Uint256) :
    Marked s (s.raiseBestInvalid p) := by
  obtain ⟨best, hbest⟩ := s.raiseBestInvalid_eq p
  rw [hbest]
  exact ⟨.of_eq rfl rfl rfl, rfl, rfl, rfl, fun _ ↦ rfl⟩

end Marked

theorem Inv.failChild (hs : s.Inv) (hx : x ∈ s.mapBlockIndex.entries)
    (ha : s.HasFailedAncestor x) : (s.failChild x).Inv ∧ Marked s (s.failChild x) := by
  obtain ⟨hinv, hevolves⟩ := hs.fail { s.status x with failedChild := true } hx rfl
    rfl id (fun _ ↦ rfl) (fun _ ↦ ha) (Bool.or_true _)
  refine ⟨hinv, hevolves, rfl, rfl, rfl, fun y ↦ ?_⟩
  rw [ChainState.failChild, status_eraseValid, status_setStatus]
  split
  case isTrue hy => rw [hy]
  case isFalse => rfl

theorem Inv.foldl_failChild {l : List Uint256} (hs : s.Inv)
    (hl : ∀ x ∈ l, x ∈ s.mapBlockIndex.entries ∧ s.HasFailedAncestor x) :
    (l.foldl ChainState.failChild s).Inv ∧ Marked s (l.foldl ChainState.failChild s) ∧
      ∀ x ∈ l, x ∉ (l.foldl ChainState.failChild s).setBlockIndexValid := by
  induction l generalizing s with
  | nil => exact ⟨hs, .refl s, fun _ hx ↦ absurd hx List.not_mem_nil⟩
  | cons y l ih =>
      obtain ⟨hy, hya⟩ := hl y List.mem_cons_self
      obtain ⟨hs₁, hm₁⟩ := hs.failChild hy hya
      obtain ⟨hinv, hm, hout⟩ := ih hs₁ fun x hx ↦ by
        obtain ⟨hx, hxa⟩ := hl x (List.mem_cons_of_mem _ hx)
        exact ⟨hx, hm₁.hasFailedAncestor hxa⟩
      refine ⟨hinv, hm₁.trans hm, fun x hx ↦ ?_⟩
      rcases List.mem_cons.mp hx with rfl | hx
      · -- it left with its own mark, and nothing comes back
        intro hmem
        exact (mem_eraseValid.mp (hm.evolves.sublist.subset hmem)).2 rfl
      · exact hout x hx

/-- The descendants of a failed block have a failed ancestor. -/
theorem Inv.hasFailedAncestor (hs : s.Inv) (hf : s.failed p = true)
    (hp : p ∈ s.mapBlockIndex.lineage x) (hne : x ≠ p) : s.HasFailedAncestor x := by
  rcases failed_eq_true_iff.mp hf with hfv | hfc
  · exact ⟨p, hp, hne.symm, hfv⟩
  · obtain ⟨a, ha, hap, hfv⟩ := hs.failedChild p hfc
    refine ⟨a, Forest.mem_lineage_trans ha hp, ?_, hfv⟩
    rintro rfl
    exact absurd (Forest.height_le_of_mem hp) (Forest.height_lt_of_mem ha hap).not_ge

theorem Inv.failChain (hs : s.Inv) (hx : s.HasData x) (hp : p ∈ s.mapBlockIndex.lineage x)
    (hf : s.failed p = true) : (s.failChain x p).Inv ∧ Marked s (s.failChain x p) ∧
      (x ≠ p → x ∉ (s.failChain x p).setBlockIndexValid) := by
  have hl : ∀ y ∈ (s.mapBlockIndex.lineage x).takeWhile (· ≠ p),
      y ∈ s.mapBlockIndex.entries ∧ s.HasFailedAncestor y := by
    intro y hy
    obtain ⟨hyx, hpy, hne⟩ := (Forest.mem_takeWhile_ne hp).mp hy
    exact ⟨hs.mem_entries (hs.data_of_lineage hx y hyx), hs.hasFailedAncestor hf hpy hne⟩
  have hm := Marked.raiseBestInvalid s x
  obtain ⟨hinv, hmark, hout⟩ := (hs.raiseBestInvalid x).foldl_failChild fun y hy ↦
    ⟨hm.evolves.mapBlockIndex ▸ (hl y hy).1, hm.hasFailedAncestor (hl y hy).2⟩
  refine ⟨hinv, hm.trans hmark, fun hne ↦ hout x ?_⟩
  exact (Forest.mem_takeWhile_ne hp).mpr ⟨Forest.self_mem_lineage _ x, hp, hne⟩

/-! ## `FindMostWorkChain` -/

/-- Invalid blocks are dropped from the end of `chainMostWork`; they are not in the set. -/
theorem dropInvalid_spec (hs : s.Inv) :
    ∃ s', Loop.run dropInvalidBody (s.chainMostWork.length + 1) s = some s' ∧
      ∃ c, s' = { s with chainMostWork := c } ∧ s.GoodChain c ∧
        ∀ tip, CChain.tip c = some tip → s.failed tip = false := by
  refine Loop.run_spec (I := fun s₁ ↦ ∃ c, s₁ = { s with chainMostWork := c } ∧ s.GoodChain c)
    (m := fun s₁ ↦ s₁.chainMostWork.length) ?_ ⟨s.chainMostWork, rfl, hs.mostWork⟩
    (Nat.lt_succ_self _)
  rintro s₁ ⟨c, rfl, hc⟩
  cases htip : CChain.tip c with
  | none =>
      left
      refine ⟨{ s with chainMostWork := c }, ?_, c, rfl, hc, ?_⟩
      · rw [dropInvalidBody, htip]
      · intro tip h
        rw [htip] at h
        cases h
  | some tip =>
      cases hfail : s.failed tip with
      | false =>
          left
          refine ⟨{ s with chainMostWork := c }, ?_, c, rfl, hc, ?_⟩
          · have hfail' : failed { s with chainMostWork := c } tip = false := hfail
            simp only [dropInvalidBody, htip]
            exact if_neg (by rw [hfail']; simp)
          · intro tip' h
            rw [htip] at h
            rwa [← Option.some.inj h]
      | true =>
          right
          have herase : s.setBlockIndexValid.filter (· ≠ tip) = s.setBlockIndexValid := by
            apply List.filter_eq_self.mpr
            intro x hx
            rw [decide_eq_true_eq]
            rintro rfl
            rw [((hs.mem_valid x).mp hx).2] at hfail
            cases hfail
          refine ⟨{ s with
            chainMostWork := c.setTip s.mapBlockIndex (s.mapBlockIndex.pprev tip) }, ?_,
            ⟨_, rfl, hs.goodChain_setTip_pprev hc tip⟩, CChain.length_setTip_pprev hc.1 htip⟩
          simp only [dropInvalidBody, htip]
          rw [if_pos (show failed { s with chainMostWork := c } tip = true from hfail)]
          simp only [eraseValid, herase]

/-- The way from a candidate to the active chain. -/
theorem mem_untilActive (hs : s.Inv) {n : Uint256} :
    (x ∈ (s.mapBlockIndex.lineage n).takeWhile fun y ↦
      !s.chainActive.contains s.mapBlockIndex y) ↔
      x ∈ s.mapBlockIndex.lineage n ∧ x ∉ s.chainActive := by
  have hiff : ∀ y, s.chainActive.contains s.mapBlockIndex y = true ↔ y ∈ s.chainActive :=
    fun _ ↦ CChain.contains_iff hs.active.1
  rw [BlockTree.lineage, Forest.mem_takeWhile_lineage, Bool.not_eq_true',
    CChain.contains_eq_false_iff hs.active.1]
  intro y z hy hz
  rw [Bool.not_eq_false', hiff] at hy
  rw [Bool.not_eq_false', hiff]
  exact hs.active.1.mem_of_lineage hy hz

/-- What the search ends with: a best candidate, with no failed block on its way to the active
chain; or an empty set. -/
def Candidate (env : ChainEnv Block View World) (s : ChainState View World) :
    Option Uint256 → Prop
  | none => s.setBlockIndexValid = []
  | some n => n ∈ s.setBlockIndexValid ∧
      (∀ x ∈ s.setBlockIndexValid, s.mapBlockIndex.workKey env.address x ≤
        s.mapBlockIndex.workKey env.address n) ∧
      ∀ x ∈ s.mapBlockIndex.lineage n, x ∉ s.chainActive → s.failed x = false

theorem candidate_spec (env : ChainEnv Block View World) (hs : s.Inv) :
    ∃ r, Loop.run (candidateBody env) (s.setBlockIndexValid.length + 1) s = some r ∧
      (r.1.Inv ∧ Marked s r.1 ∧
        (r.1.setBlockIndexValid.length < s.setBlockIndexValid.length ∨ r.1 = s)) ∧
      Candidate env r.1 r.2 := by
  refine Loop.run_spec (I := fun s₁ ↦ s₁.Inv ∧ Marked s s₁ ∧
    (s₁.setBlockIndexValid.length < s.setBlockIndexValid.length ∨ s₁ = s))
    (m := fun s₁ ↦ s₁.setBlockIndexValid.length) ?_ ⟨hs, .refl s, Or.inr rfl⟩
    (Nat.lt_succ_self _)
  rintro s₁ ⟨hs₁, hm, hlen⟩
  rw [candidateBody]
  cases hbest : s₁.bestCandidate env with
  | none => exact Or.inl ⟨(s₁, none), rfl, ⟨hs₁, hm, hlen⟩, List.argmax_eq_none.mp hbest⟩
  | some n =>
      have hn : n ∈ s₁.setBlockIndexValid := List.argmax_mem hbest
      obtain ⟨hdata, hnf⟩ := (hs₁.mem_valid n).mp hn
      cases hanc : s₁.invalidAncestor n with
      | none =>
          left
          refine ⟨(s₁, some n), by simp only [hanc], ⟨hs₁, hm, hlen⟩, hn,
            fun x hx ↦ List.le_of_mem_argmax hx hbest, fun x hx hxa ↦ ?_⟩
          have hnone := List.find?_eq_none.mp hanc x ((mem_untilActive hs₁).mpr ⟨hx, hxa⟩)
          exact Bool.not_eq_true _ ▸ hnone
      | some t =>
          right
          have hf : s₁.failed t = true := List.find?_some hanc
          have ht := ((mem_untilActive hs₁).mp (List.mem_of_find?_eq_some hanc)).1
          obtain ⟨hs₂, hm₂, hout⟩ := hs₁.failChain hdata ht hf
          have hne : n ≠ t := by
            rintro rfl
            rw [hnf] at hf
            cases hf
          have hlt := hm₂.evolves.length_lt hn (hout hne)
          refine ⟨_, by simp only [hanc], ⟨hs₂, hm.trans hm₂, Or.inl ?_⟩, hlt⟩
          exact hlt.trans_le hm.evolves.sublist.length_le

/-- What `FindMostWorkChain` does.  No candidate is better than the tip it leaves; and unless it
took a candidate out of the set, no block on the way from that tip to the active chain is known
to be invalid. -/
structure FoundMostWork (env : ChainEnv Block View World) (s s' : ChainState View World) :
    Prop where
  inv : s'.Inv
  evolves : Evolves s s'
  chainActive : s'.chainActive = s.chainActive
  pcoinsTip : s'.pcoinsTip = s.pcoinsTip
  failedValid : ∀ x, (s'.status x).failedValid = (s.status x).failedValid
  best : ∀ x ∈ s'.setBlockIndexValid, ∃ m, s'.chainMostWork.tip = some m ∧
    s'.mapBlockIndex.workKey env.address x ≤ s'.mapBlockIndex.workKey env.address m
  clean : s'.setBlockIndexValid.length < s.setBlockIndexValid.length ∨
    ∀ m, s'.chainMostWork.tip = some m →
      ∀ x ∈ s'.mapBlockIndex.lineage m, x ∉ s'.chainActive → s'.failed x = false

theorem improveMostWork_eq (env : ChainEnv Block View World) (s : ChainState View World)
    (n : Uint256) :
    (∃ m, s.chainMostWork.tip = some m ∧
        s.mapBlockIndex.workKey env.address n ≤ s.mapBlockIndex.workKey env.address m ∧
        s.improveMostWork env n = s) ∨
      s.improveMostWork env n =
        { s with chainMostWork := s.chainMostWork.setTip s.mapBlockIndex (some n) } := by
  rw [improveMostWork]
  split
  case isTrue h =>
    left
    cases hm : s.chainMostWork.tip with
    | none => simp [hm] at h
    | some m =>
        rw [hm, Option.any_some, Bool.not_eq_true', BlockTree.workComparator_eq_false_iff] at h
        exact ⟨m, rfl, h, rfl⟩
  case isFalse => exact Or.inr rfl

theorem findMostWorkChain_eq {s₂ : ChainState View World} {o : Option Uint256}
    (hdrop : Loop.run dropInvalidBody (s.chainMostWork.length + 1) s = some s₁)
    (hcand : Loop.run (candidateBody env) (s₁.setBlockIndexValid.length + 1) s₁ =
      some (s₂, o)) :
    s.findMostWorkChain env = some (o.elim s₂ (s₂.improveMostWork env)) := by
  rw [findMostWorkChain, hdrop]
  simp only [Option.bind_eq_bind, Option.bind_some, hcand]
  cases o with
  | none => rfl
  | some n => rfl

theorem findMostWorkChain_spec (env : ChainEnv Block View World) (hs : s.Inv) :
    ∃ s', s.findMostWorkChain env = some s' ∧ FoundMostWork env s s' := by
  obtain ⟨s₁, hdrop, c, rfl, hc, htip⟩ := dropInvalid_spec hs
  have hs₁ := hs.with_mostWork hc
  obtain ⟨⟨s₂, o⟩, hcand, ⟨hs₂, hm, hlen⟩, ho⟩ := candidate_spec env hs₁
  have hsame : Evolves s { s with chainMostWork := c } := .of_eq rfl rfl rfl
  have he : Evolves s s₂ := hsame.trans hm.evolves
  have hrun := findMostWorkChain_eq hdrop hcand
  cases o with
  | none =>
      refine ⟨s₂, hrun, hs₂, he, hm.chainActive, hm.pcoinsTip, hm.failedValid, ?_, ?_⟩
      · intro x hx
        rw [show s₂.setBlockIndexValid = [] from ho] at hx
        exact absurd hx List.not_mem_nil
      · refine hlen.imp_right ?_
        rintro rfl m hmt
        -- a valid tip would be a candidate itself
        have hmem := (hs₁.mem_valid m).mpr ⟨hc.2 m (List.mem_of_getLast? hmt), htip m hmt⟩
        rw [show setBlockIndexValid { s with chainMostWork := c } = [] from ho] at hmem
        exact absurd hmem List.not_mem_nil
  | some n =>
      obtain ⟨hn, hbest, hpath⟩ := ho
      obtain ⟨hdata, _⟩ := (hs₂.mem_valid n).mp hn
      rcases improveMostWork_eq env s₂ n with ⟨m, hmt, hle, heq⟩ | heq
      · refine ⟨s₂, hrun.trans (congrArg some heq), hs₂, he, hm.chainActive, hm.pcoinsTip,
          hm.failedValid, fun x hx ↦ ⟨m, hmt, (hbest x hx).trans hle⟩, ?_⟩
        refine hlen.imp_right ?_
        rintro rfl m' hmt'
        rw [hmt] at hmt'
        obtain rfl := Option.some.inj hmt'
        -- the kept tip is as good as the best candidate, so it is the best candidate
        have hmem := (hs₁.mem_valid m).mpr ⟨hc.2 m (List.mem_of_getLast? hmt), htip m hmt⟩
        have hmn := BlockTree.workKey_injective _ _ (le_antisymm hle (hbest m hmem))
        rw [← hmn]
        exact hpath
      · have hgood := hs₂.goodChain_setTip hs₂.mostWork hdata
        have htip' := CChain.tip_setTip hs₂.mostWork.1 (some n)
        refine ⟨{ s₂ with chainMostWork := s₂.chainMostWork.setTip s₂.mapBlockIndex (some n) },
          hrun.trans (congrArg some heq), hs₂.with_mostWork hgood, ?_, hm.chainActive, hm.pcoinsTip,
          hm.failedValid, fun x hx ↦ ⟨n, htip', hbest x hx⟩, Or.inr ?_⟩
        · exact he.trans (.of_eq rfl rfl rfl)
        · intro m hmt
          change CChain.tip (CChain.setTip s₂.mapBlockIndex s₂.chainMostWork (some n)) = some m
            at hmt
          rw [htip'] at hmt
          obtain rfl := Option.some.inj hmt
          exact hpath

end ChainState

end Fedoracoin
