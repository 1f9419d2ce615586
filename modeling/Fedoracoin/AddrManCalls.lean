import Fedoracoin.AddrManMoves

/-!
# The calls of the address manager

Every call keeps the address manager consistent, whatever the random numbers and the bucket hashes,
and none of its assertions fails: `addrMan_consistent_iff`.
-/

namespace Fedoracoin

/-- The tests of `Check_` on the times of an entry. -/
structure CAddrInfo.TimesOk (info : CAddrInfo) : Prop where
  nLastTry : 0 ≤ info.nLastTry
  nLastSuccess : 0 ≤ info.nLastSuccess
  tried : info.fInTried = true → info.nLastSuccess ≠ 0

theorem CAddrInfo.timesOk_core {info : CAddrInfo} : info.core.TimesOk ↔ info.TimesOk :=
  ⟨fun h ↦ ⟨h.nLastTry, h.nLastSuccess, h.tried⟩, fun h ↦ ⟨h.nLastTry, h.nLastSuccess, h.tried⟩⟩

namespace CAddrMan

/-- The consistency conditions of `Check_` on the indices, the buckets and the counters, with the
limits of the buckets. -/
structure Consistent (am : CAddrMan) : Prop where
  /-- The next id is not in use. -/
  id_lt : ∀ nId info, am.mapInfo.lookup nId = some info → nId < am.nIdCount
  mapAddr_iff : ∀ addr nId, am.mapAddr.lookup addr = some nId ↔
    ∃ info, am.mapInfo.lookup nId = some info ∧ info.ip = addr
  vRandom_iff : ∀ nId nRandomPos,
    (∃ info, am.mapInfo.lookup nId = some info ∧ info.nRandomPos = nRandomPos) ↔
      ∃ p : Nat, nRandomPos = p ∧ am.vRandom[p]? = some nId
  tried : ∀ nId info, am.mapInfo.lookup nId = some info → info.fInTried = true →
    info.nRefCount = 0 ∧ (∃! k, nId ∈ am.vvTried k) ∧ ∀ b, nId ∉ am.vvNew b
  new : ∀ nId info, am.mapInfo.lookup nId = some info → info.fInTried = false →
    info.nRefCount = (am.bucketsOf nId).card ∧ 1 ≤ info.nRefCount ∧
      info.nRefCount ≤ addrmanNewBucketsPerAddress ∧ ∀ k, nId ∉ am.vvTried k
  exists_of_tried : ∀ nId k, nId ∈ am.vvTried k → ∃ info, am.mapInfo.lookup nId = some info
  exists_of_new : ∀ nId b, nId ∈ am.vvNew b → ∃ info, am.mapInfo.lookup nId = some info
  tried_nodup : ∀ k, (am.vvTried k).Nodup
  nTried_eq : am.nTried = MapSum.count (·.fInTried) am.mapInfo
  nNew_eq : am.nNew = MapSum.count (! ·.fInTried) am.mapInfo
  tried_le : ∀ k, (am.vvTried k).length ≤ addrmanTriedBucketSize
  new_le : ∀ b, (am.vvNew b).card ≤ addrmanNewBucketSize

theorem view_eq_some_iff {α : Type} {am : CAddrMan} {f : CAddrInfo → α} {nId : Nat} {x : α} :
    am.view f nId = some x ↔ ∃ info, am.mapInfo.lookup nId = some info ∧ f info = x :=
  Option.map_eq_some_iff

theorem Settled.consistent {am : CAddrMan} (h : am.Settled) : am.Consistent where
  id_lt nId info hl := h.inv.id_lt nId _ (view_of_lookup hl)
  mapAddr_iff addr nId := (h.inv.mapAddr_iff addr nId).trans view_eq_some_iff
  vRandom_iff nId pos := view_eq_some_iff.symm.trans (h.inv.points nId pos)
  tried := by
    intro nId info hl hin
    have hempty := h.inv.bucketsOf_eq_empty hl hin
    refine ⟨?_, ?_, notMem_of_bucketsOf_eq_empty hempty⟩
    · rw [h.inv.nRefCount_eq nId _ (view_of_lookup hl), hempty]
      rfl
    · obtain ⟨k, hk⟩ := (h.inv.tried_iff nId).mpr ((view_of_lookup hl).trans (congrArg some hin))
      exact ⟨k, hk, fun k' hk' ↦ h.inv.tried_unique nId k' k hk' hk⟩
  new := by
    intro nId info hl hin
    have href := h.inv.nRefCount_eq nId _ (view_of_lookup hl)
    have hone := h.limits.one_le nId ((view_of_lookup hl).trans (congrArg some hin)) rfl
    have hfour := h.limits.le_four nId
    rw [add_zero] at href
    refine ⟨href, ?_, ?_, h.inv.notMem_vvTried hl hin⟩
    · rw [href]
      exact_mod_cast hone
    · rw [href]
      exact_mod_cast hfour
  exists_of_tried nId k hk := (h.inv.exists_lookup_of_tried hk).imp fun _ ↦ And.left
  exists_of_new nId b hb := (h.inv.exists_lookup_of_new hb).imp fun _ ↦ And.left
  tried_nodup := h.inv.tried_nodup
  nTried_eq := h.inv.nTried_eq
  nNew_eq := (add_zero am.nNew).symm.trans h.inv.nNew_eq
  tried_le := h.limits.tried_le
  new_le := h.limits.new_le

theorem Consistent.settled {am : CAddrMan} (h : am.Consistent) : am.Settled := by
  have hflag : ∀ nId info, am.mapInfo.lookup nId = some info →
      am.view (·.fInTried) nId = some info.fInTried := fun nId info hl ↦ view_of_lookup hl
  have hnew : ∀ nId b, nId ∈ am.vvNew b → am.view (·.fInTried) nId = some false := by
    intro nId b hb
    obtain ⟨info, hl⟩ := h.exists_of_new nId b hb
    rw [hflag nId info hl]
    cases hin : info.fInTried with
    | false => rfl
    | true => exact absurd hb ((h.tried nId info hl hin).2.2 b)
  have htried : ∀ nId k, nId ∈ am.vvTried k → ∃ info, am.mapInfo.lookup nId = some info ∧
      info.fInTried = true := by
    intro nId k hk
    obtain ⟨info, hl⟩ := h.exists_of_tried nId k hk
    cases hin : info.fInTried with
    | true => exact ⟨info, hl, hin⟩
    | false => exact absurd hk ((h.new nId info hl hin).2.2.2 k)
  have hempty : ∀ nId, (∀ b, nId ∉ am.vvNew b) → am.bucketsOf nId = ∅ := by
    intro nId hnot
    rw [Finset.eq_empty_iff_forall_notMem]
    exact fun b hb ↦ hnot b (mem_bucketsOf.mp hb)
  refine ⟨⟨⟨?_, ?_, ?_⟩, ?_, ?_, h.tried_nodup, hnew, ?_, h.nTried_eq, ?_⟩,
    h.tried_le, h.new_le, ?_, ?_⟩
  · intro nId addr hv
    obtain ⟨info, hl, -⟩ := view_eq_some hv
    exact h.id_lt nId info hl
  · exact fun addr nId ↦ (h.mapAddr_iff addr nId).trans view_eq_some_iff.symm
  · exact fun nId pos ↦ view_eq_some_iff.trans (h.vRandom_iff nId pos)
  · intro nId
    rw [view_eq_some_iff]
    constructor
    · rintro ⟨k, hk⟩
      exact htried nId k hk
    · rintro ⟨info, hl, hin⟩
      exact (h.tried nId info hl hin).2.1.exists
  · intro nId k k' hk hk'
    obtain ⟨info, hl, hin⟩ := htried nId k hk
    exact (h.tried nId info hl hin).2.1.unique hk hk'
  · intro nId n hn
    obtain ⟨info, hl, rfl⟩ := view_eq_some hn
    rw [add_zero]
    cases hin : info.fInTried with
    | false => exact (h.new nId info hl hin).1
    | true =>
        obtain ⟨href, -, hnot⟩ := h.tried nId info hl hin
        rw [href, hempty nId hnot]
        rfl
  · rw [add_zero]
    exact h.nNew_eq
  · intro nId hv _
    obtain ⟨info, hl, hin⟩ := view_eq_some hv
    obtain ⟨href, hone, -⟩ := h.new nId info hl hin
    rw [href] at hone
    exact_mod_cast hone
  · intro nId
    cases hl : am.mapInfo.lookup nId with
    | none =>
        have hnot : ∀ b, nId ∉ am.vvNew b := by
          intro b hb
          obtain ⟨info, hl'⟩ := h.exists_of_new nId b hb
          exact absurd (hl.symm.trans hl') (by simp)
        rw [hempty nId hnot]
        exact Nat.zero_le _
    | some info =>
        cases hin : info.fInTried with
        | false =>
            obtain ⟨href, -, hfour, -⟩ := h.new nId info hl hin
            rw [href] at hfour
            exact_mod_cast hfour
        | true =>
            rw [hempty nId (h.tried nId info hl hin).2.2]
            exact Nat.zero_le _

/-! ## What the calls keep besides -/

/-- The tried entries are in the bucket of their hash. -/
def Filed (E : AddrEnv) (am : CAddrMan) : Prop :=
  ∀ nId k info, nId ∈ am.vvTried k → am.mapInfo.lookup nId = some info →
    E.getTriedBucket am.nKey info.toCService = k

/-- The tests of `Check_` on the times of the entries. -/
def TimesOk (am : CAddrMan) : Prop :=
  ∀ nId info, am.mapInfo.lookup nId = some info → info.TimesOk

/-- An entry is still at its address, and has not been tried more often. -/
def Carries (info info' : CAddrInfo) : Prop :=
  info'.ip = info.ip ∧ ∀ n : Nat, info.nAttempts ≤ n → info'.nAttempts ≤ n

/-- The entries stay in their buckets, and so do their times if the time given is `ok`; there are no
new ones. -/
structure Kept (E : AddrEnv) (ok : Prop) (am am' : CAddrMan) : Prop where
  fixed : am'.fixed = am.fixed
  filed : am.Filed E → am'.Filed E
  times : ok → am.TimesOk → am'.TimesOk
  entries : ∀ nId info', am'.mapInfo.lookup nId = some info' →
    ∃ info, am.mapInfo.lookup nId = some info ∧ Carries info info'

namespace Kept

variable {E : AddrEnv} {ok : Prop} {am am' am'' : CAddrMan} {nId : Nat} {info info' : CAddrInfo}
  {b : NewBucket}

theorem refl (am : CAddrMan) : Kept E ok am am :=
  ⟨rfl, id, fun _ ↦ id, fun _ info hl ↦ ⟨info, hl, rfl, fun _ ↦ id⟩⟩

theorem trans (h : Kept E ok am am') (h' : Kept E ok am' am'') : Kept E ok am am'' where
  fixed := h'.fixed.trans h.fixed
  filed := h'.filed ∘ h.filed
  times hok := h'.times hok ∘ h.times hok
  entries nId info'' hl'' := by
    obtain ⟨info', hl', hip', hattempts'⟩ := h'.entries nId info'' hl''
    obtain ⟨info, hl, hip, hattempts⟩ := h.entries nId info' hl'
    exact ⟨info, hl, hip'.trans hip, fun n hn ↦ hattempts' n (hattempts n hn)⟩

/-- What is in the tried buckets was there before, with the same service. -/
theorem filed_of_view (hkey : am'.nKey = am.nKey)
    (hmem : ∀ j k, j ∈ am'.vvTried k → j ∈ am.vvTried k ∧
      am'.view (·.toCService) j = am.view (·.toCService) j) (h : am.Filed E) : am'.Filed E := by
  intro j k info' hj hl
  obtain ⟨hj, hview⟩ := hmem j k hj
  rw [view_of_lookup hl] at hview
  obtain ⟨info, hl, heq⟩ := view_eq_some hview.symm
  rw [hkey, ← heq]
  exact h j k info hj hl

/-- What is there was there before, up to the bookkeeping. -/
theorem times_of_view (hmem : ∀ j info', am'.mapInfo.lookup j = some info' →
      am'.view CAddrInfo.core j = am.view CAddrInfo.core j) (h : am.TimesOk) : am'.TimesOk := by
  intro j info' hl
  have hview := hmem j info' hl
  rw [view_of_lookup hl] at hview
  obtain ⟨info, hl, heq⟩ := view_eq_some hview.symm
  have hok := h j info hl
  rw [← CAddrInfo.timesOk_core, heq] at hok
  exact CAddrInfo.timesOk_core.mp hok

/-- The same, with the flag. -/
theorem entries_of_view (hmem : ∀ j info', am'.mapInfo.lookup j = some info' →
      am'.view (fun info ↦ info.core.setInTried false) j =
        am.view (fun info ↦ info.core.setInTried false) j) (j : Nat) (info' : CAddrInfo)
    (hl : am'.mapInfo.lookup j = some info') :
    ∃ info, am.mapInfo.lookup j = some info ∧ Carries info info' := by
  have hview := hmem j info' hl
  rw [view_of_lookup hl] at hview
  obtain ⟨info, hl, heq⟩ := view_eq_some hview.symm
  have hattempts : info.nAttempts = info'.nAttempts := congrArg (·.nAttempts) heq
  exact ⟨info, hl, (congrArg (·.ip) heq).symm, fun n hn ↦ hattempts ▸ hn⟩

theorem filed_setInfo (hl : am.mapInfo.lookup nId = some info)
    (hservice : info'.toCService = info.toCService) :
    am.Filed E → (am.setInfo nId info').Filed E :=
  filed_of_view rfl fun j _ hj ↦ ⟨hj, congrFun (view_setInfo_of_eq hl hservice) j⟩

theorem times_setInfo (hl : am.mapInfo.lookup nId = some info)
    (htimes : info.TimesOk → info'.TimesOk) (h : am.TimesOk) :
    (am.setInfo nId info').TimesOk := by
  intro j inf hj
  obtain ⟨rfl, rfl⟩ | ⟨-, hj⟩ := Finmap.cases_lookup_insert hj
  · exact htimes (h j info hl)
  · exact h j inf hj

/-- Statistics of an entry change. -/
theorem setInfo (hl : am.mapInfo.lookup nId = some info)
    (hservice : info'.toCService = info.toCService)
    (htimes : ok → info.TimesOk → info'.TimesOk)
    (hattempts : ∀ n : Nat, info.nAttempts ≤ n → info'.nAttempts ≤ n) :
    Kept E ok am (am.setInfo nId info') where
  fixed := rfl
  filed := filed_setInfo hl hservice
  times hok := times_setInfo hl (htimes hok)
  entries := by
    intro j inf hj
    obtain ⟨rfl, rfl⟩ | ⟨-, hj⟩ := Finmap.cases_lookup_insert hj
    · exact ⟨info, hl, congrArg (·.ip) hservice, hattempts⟩
    · exact ⟨inf, hj, rfl, fun _ ↦ id⟩

theorem setNew (am : CAddrMan) (b : NewBucket) (s : Finset Nat) :
    Kept E ok am (am.setNew b s) :=
  ⟨rfl, id, fun _ ↦ id, fun _ info hl ↦ ⟨info, hl, rfl, fun _ ↦ id⟩⟩

theorem reordered (h : Reordered am am') : Kept E ok am am' where
  fixed := h.fixed
  entries := entries_of_view fun j _ _ ↦ congrFun (h.view_eq fun _ ↦ rfl) j
  filed := by
    refine filed_of_view h.nKey fun j k hj ↦ ⟨?_, ?_⟩
    · rwa [h.vvTried] at hj
    · exact congrFun (h.view_eq fun _ ↦ rfl) j
  times := fun _ ↦ times_of_view fun j _ _ ↦ congrFun h.view_core j

theorem dropped (h : am.Dropped am' b nId) (hnot : ∀ k, nId ∉ am.vvTried k) :
    Kept E ok am am' := by
  have hcore : ∀ j info', am'.mapInfo.lookup j = some info' →
      am'.view CAddrInfo.core j = am.view CAddrInfo.core j := by
    intro j info' hl
    by_cases hjn : j = nId
    · subst hjn
      rcases h.view_self with hnone | ⟨hsame, -⟩
      · rw [view_of_lookup hl] at hnone
        cases hnone
      · exact hsame
    · exact h.view_of_ne j hjn
  refine ⟨h.fixed, filed_of_view (congrArg Prod.fst h.fixed) fun j k hj ↦ ?_,
    fun _ ↦ times_of_view hcore,
    entries_of_view fun j info' hl ↦ view_of_core (fun _ ↦ rfl) (hcore j info' hl)⟩
  rw [h.vvTried] at hj
  have hjn : j ≠ nId := by
    rintro rfl
    exact hnot k hj
  exact ⟨hj, view_of_core (fun _ ↦ rfl) (h.view_of_ne j hjn)⟩

theorem tried {k : TriedBucket} (h : am.Tried am' nId k) (hl : am.mapInfo.lookup nId = some info)
    (hk : E.getTriedBucket am.nKey info.toCService = k) (hok : ok → info.nLastSuccess ≠ 0) :
    Kept E ok am am' where
  fixed := h.fixed
  entries := entries_of_view fun j _ _ ↦ congrFun h.view j
  filed := by
    intro hfiled j k' info' hj hl'
    have hservice : am'.view (·.toCService) j = am.view (·.toCService) j := by
      have hcomp : ∀ am : CAddrMan, am.view (·.toCService) j =
          (am.view (fun info ↦ info.core.setInTried false) j).map (·.toCService) := by
        intro am
        rw [view, view, Option.map_map]
        rfl
      rw [hcomp, hcomp, h.view]
    rw [view_of_lookup hl'] at hservice
    obtain ⟨inf, hinf, heq⟩ := view_eq_some hservice.symm
    rw [show am'.nKey = am.nKey from congrArg Prod.fst h.fixed, ← heq]
    rcases h.mem_vvTried j k' hj with hj | ⟨rfl, rfl⟩
    · exact hfiled j k' inf hj hinf
    · rw [← hk, Option.some.inj (hinf.symm.trans hl)]
  times := by
    intro hok' htimes j info' hl'
    have hview := congrFun h.view j
    rw [view_of_lookup hl'] at hview
    obtain ⟨inf, hinf, heq⟩ := view_eq_some hview.symm
    have hold := htimes j inf hinf
    have hstats : info'.nLastTry = inf.nLastTry ∧ info'.nLastSuccess = inf.nLastSuccess :=
      ⟨(congrArg (·.nLastTry) heq).symm, (congrArg (·.nLastSuccess) heq).symm⟩
    refine ⟨hstats.1 ▸ hold.nLastTry, hstats.2 ▸ hold.nLastSuccess, fun hin ↦ ?_⟩
    rw [hstats.2]
    rcases h.fInTried j ((view_of_lookup hl').trans (congrArg some hin)) with rfl | hwas
    · rw [Option.some.inj (hinf.symm.trans hl)]
      exact hok hok'
    · rw [view_of_lookup hinf] at hwas
      exact hold.tried (Option.some.inj hwas)

end Kept

/-- No more than `n` ids were given, and no entry was tried more often. -/
structure CountsLe (am : CAddrMan) (n : Nat) : Prop where
  nIdCount : am.nIdCount ≤ n
  nAttempts : ∀ nId info, am.mapInfo.lookup nId = some info → info.nAttempts ≤ n

/-- What `k` calls do besides. -/
structure Advanced (E : AddrEnv) (ok : Prop) (k : Nat) (am am' : CAddrMan) : Prop where
  nKey : am'.nKey = am.nKey
  filed : am.Filed E → am'.Filed E
  times : ok → am.TimesOk → am'.TimesOk
  counts : ∀ n, am.CountsLe n → am'.CountsLe (n + k)

section

variable {E : AddrEnv} {ok : Prop} {k k' : Nat} {am am' am'' : CAddrMan}

theorem Kept.advanced (h : Kept E ok am am') : Advanced E ok k am am' where
  nKey := congrArg Prod.fst h.fixed
  filed := h.filed
  times := h.times
  counts n hn := by
    have hid : am'.nIdCount = am.nIdCount := congrArg Prod.snd h.fixed
    refine ⟨(hid.le.trans hn.nIdCount).trans (Nat.le_add_right ..), fun nId info' hl' ↦ ?_⟩
    obtain ⟨info, hl, -, hattempts⟩ := h.entries nId info' hl'
    have hle := hattempts n (hn.nAttempts nId info hl)
    omega

theorem Advanced.trans (h : Advanced E ok k am am') (h' : Advanced E ok k' am' am'') :
    Advanced E ok (k + k') am am'' where
  nKey := h'.nKey.trans h.nKey
  filed := h'.filed ∘ h.filed
  times hok := h'.times hok ∘ h.times hok
  counts n hn := Nat.add_assoc n k k' ▸ h'.counts _ (h.counts n hn)

end

/-! ## The calls -/

section

variable {am : CAddrMan} {nId : Nat} {info : CAddrInfo} {addr : CNetAddr} {b : NewBucket}
  {owed : Nat → Int} {missing : Int}

theorem find_eq_some (h : am.find addr = some (nId, info)) :
    am.mapInfo.lookup nId = some info := by
  obtain ⟨j, -, hj⟩ := Option.bind_eq_some_iff.mp h
  obtain ⟨inf, hl, heq⟩ := Option.bind_eq_some_iff.mp hj
  obtain ⟨rfl, rfl⟩ := Prod.mk.inj (Option.some.inj heq)
  exact hl

theorem Inv.find_eq_none (h : am.Inv owed missing) (hnone : am.find addr = none) :
    am.mapAddr.lookup addr = none := by
  cases hl : am.mapAddr.lookup addr with
  | none => rfl
  | some j =>
      obtain ⟨inf, hinf, -⟩ := view_eq_some ((h.mapAddr_iff addr j).mp hl)
      simp [find, hl, hinf] at hnone

theorem Limits.setInfo (h : am.Limits owed) (info' : CAddrInfo)
    (hl : am.mapInfo.lookup nId = some info) (hin : info'.fInTried = info.fInTried) :
    (am.setInfo nId info').Limits owed where
  __ := h
  one_le := by
    rw [view_setInfo_of_eq hl hin]
    exact h.one_le

/-- The statistics of an entry may change. -/
theorem Settled.setInfo (h : am.Settled) (info' : CAddrInfo)
    (hl : am.mapInfo.lookup nId = some info) (hip : info'.ip = info.ip)
    (hpos : info'.nRandomPos = info.nRandomPos) (hin : info'.fInTried = info.fInTried)
    (href : info'.nRefCount = info.nRefCount) : (am.setInfo nId info').Settled :=
  ⟨h.inv.setStats info' hl hip hpos hin href, h.limits.setInfo info' hl hin⟩

theorem Dropped.bucketsOf_of_ne {am' : CAddrMan} (h : am.Dropped am' b nId) {j : Nat}
    (hj : j ≠ nId) : am'.bucketsOf j = am.bucketsOf j := by
  have hsame : am'.bucketsOf j = (am.setNew b ((am.vvNew b).erase nId)).bucketsOf j := by
    rw [bucketsOf, bucketsOf, h.vvNew]
    rfl
  rw [hsame, bucketsOf_erase_of_ne hj]

theorem Dropped.limits {am' : CAddrMan} (h : am.Dropped am' b nId) (hlim : am.Limits owed) :
    am'.Limits owed where
  tried_le := by
    rw [h.vvTried]
    exact hlim.tried_le
  new_le := by
    intro b'
    rw [h.vvNew]
    by_cases hb : b' = b
    · subst hb
      rw [Function.update_self]
      exact (Finset.card_le_card (Finset.erase_subset _ _)).trans (hlim.new_le b')
    · rw [Function.update_of_ne hb]
      exact hlim.new_le b'
  one_le := by
    intro j hj hj0
    by_cases hjn : j = nId
    · subst hjn
      rcases h.view_self with hnone | ⟨-, hone⟩
      · obtain ⟨inf, hl, -⟩ := view_eq_some hj
        rw [view_of_lookup hl] at hnone
        cases hnone
      · exact hone
    · rw [h.bucketsOf_of_ne hjn]
      rw [view_of_core (fun _ ↦ rfl) (h.view_of_ne j hjn)] at hj
      exact hlim.one_le j hj hj0
  le_four := by
    intro j
    by_cases hjn : j = nId
    · subst hjn
      have hsame : am'.bucketsOf j = (am.bucketsOf j).erase b := by
        rw [← bucketsOf_erase, bucketsOf, bucketsOf, h.vvNew]
        rfl
      rw [hsame]
      exact (Finset.card_le_card (Finset.erase_subset _ _)).trans (hlim.le_four j)
    · rw [h.bucketsOf_of_ne hjn]
      exact hlim.le_four j

end

section

variable {E : AddrEnv} {ok : Prop} {am : CAddrMan} {nId : Nat} {info : CAddrInfo}

/-- A bucket that is full loses an entry, but not the one whose reference is counted. -/
theorem place_spec {b : NewBucket} (E : AddrEnv) (ok : Prop) (rand : Nat → Nat) (nNow : Int)
    (h : am.Inv (Function.update (fun _ ↦ 0) nId 1) 0)
    (hlim : am.Limits (Function.update (fun _ ↦ 0) nId 1))
    (hview : am.view (·.fInTried) nId = some false) (hb : nId ∉ am.vvNew b)
    (hcard : (am.bucketsOf nId).card < addrmanNewBucketsPerAddress) :
    ∃ am', (if (am.vvNew b).card = addrmanNewBucketSize then am.shrinkNew rand nNow b
        else some am) = some am' ∧ am'.Inv (Function.update (fun _ ↦ 0) nId 1) 0 ∧
      am'.Limits (Function.update (fun _ ↦ 0) nId 1) ∧ Kept E ok am am' ∧
      am'.view (·.fInTried) nId = some false ∧ nId ∉ am'.vvNew b ∧
      (am'.vvNew b).card < addrmanNewBucketSize ∧
      (am'.bucketsOf nId).card < addrmanNewBucketsPerAddress := by
  have hothers : ∀ j, j ≠ nId → (Function.update (fun _ ↦ (0 : Int)) nId 1) j = 0 := fun j hj ↦
    Function.update_of_ne hj _ _
  by_cases hfull : (am.vvNew b).card = addrmanNewBucketSize
  · rw [if_pos hfull]
    have hlen := h.length_vRandom_le hlim nId fun j hj ↦ by
      by_contra hjn
      exact hj (hothers j hjn)
    obtain ⟨j, hj, am', hshrink, h', hdropped⟩ := shrinkNew_spec rand nNow h
      (Nat.lt_of_le_of_lt hlen (by decide))
      (Finset.card_pos.mp (by rw [hfull]; decide))
      (fun j hj ↦ hothers j fun heq ↦ hb (heq ▸ hj))
    have hjn : nId ≠ j := fun heq ↦ hb (heq ▸ hj)
    obtain ⟨infoJ, hlJ, hinJ⟩ := h.exists_lookup_of_new hj
    have hbucket : am'.vvNew b = (am.vvNew b).erase j := by
      rw [hdropped.vvNew, Function.update_self]
    refine ⟨am', hshrink, h', hdropped.limits hlim,
      .dropped hdropped (h.notMem_vvTried hlJ hinJ), ?_, ?_, ?_, ?_⟩
    · rw [view_of_core (fun _ ↦ rfl) (hdropped.view_of_ne nId hjn)]
      exact hview
    · rw [hbucket]
      exact fun hmem ↦ hb (Finset.mem_of_mem_erase hmem)
    · rw [hbucket, ← hfull]
      exact Finset.card_erase_lt_of_mem hj
    · rw [hdropped.bucketsOf_of_ne hjn]
      exact hcard
  · rw [if_neg hfull]
    exact ⟨am, rfl, h, hlim, .refl am, hview, hb,
      Nat.lt_of_le_of_ne (hlim.new_le b) hfull, hcard⟩

/-- The counted reference is made. -/
theorem Limits.insertNew {b : NewBucket} (hlim : am.Limits (Function.update (fun _ ↦ 0) nId 1))
    (hroom : (am.vvNew b).card < addrmanNewBucketSize)
    (hcard : (am.bucketsOf nId).card < addrmanNewBucketsPerAddress) :
    (am.setNew b (insert nId (am.vvNew b))).Limits fun _ ↦ 0 := by
  refine ⟨hlim.tried_le, fun b' ↦ ?_, fun j hj _ ↦ ?_, fun j ↦ ?_⟩
  · change (Function.update am.vvNew b (insert nId (am.vvNew b)) b').card ≤ _
    by_cases hbb : b' = b
    · subst hbb
      rw [Function.update_self]
      exact (Finset.card_insert_le _ _).trans hroom
    · rw [Function.update_of_ne hbb]
      exact hlim.new_le b'
  · by_cases hjn : j = nId
    · subst hjn
      rw [bucketsOf_insert]
      exact Finset.card_pos.mpr ⟨b, Finset.mem_insert_self _ _⟩
    · rw [bucketsOf_insert_of_ne hjn]
      exact hlim.one_le j hj (Function.update_of_ne hjn _ _)
  · by_cases hjn : j = nId
    · subst hjn
      rw [bucketsOf_insert]
      exact (Finset.card_insert_le _ _).trans hcard
    · rw [bucketsOf_insert_of_ne hjn]
      exact hlim.le_four j

/-- The end of `Add_`, for an entry that can take one more reference. -/
theorem addReference_spec (E : AddrEnv) (ok : Prop) (rand : Nat → Nat) (nNow : Int)
    (source : CNetAddr) (h : am.Inv (fun _ ↦ 0) 0)
    (hlim : am.Limits (Function.update (fun _ ↦ 0) nId 1))
    (hl : am.mapInfo.lookup nId = some info) (hin : info.fInTried = false)
    (hcard : (am.bucketsOf nId).card < addrmanNewBucketsPerAddress) :
    ∃ am', addReference E rand nNow am nId info source = some am' ∧ am'.Settled ∧
      Kept E ok am am' := by
  rw [addReference]
  generalize E.getNewBucket am.nKey info.ip source = b
  have hothers : ∀ j, j ≠ nId → (Function.update (fun _ ↦ (0 : Int)) nId 1) j = 0 := fun j hj ↦
    Function.update_of_ne hj _ _
  by_cases hb : nId ∈ am.vvNew b
  · rw [if_pos hb]
    refine ⟨am, rfl, ⟨h, hlim.tried_le, hlim.new_le, fun j hj _ ↦ ?_, hlim.le_four⟩, .refl am⟩
    by_cases hjn : j = nId
    · subst hjn
      exact Finset.card_pos.mpr ⟨b, mem_bucketsOf.mpr hb⟩
    · exact hlim.one_le j hj (hothers j hjn)
  rw [if_neg hb]
  -- the reference is counted before there is place for it
  have h₁ := h.setInfo (info.setRefCount (info.nRefCount + 1)) hl rfl rfl rfl
  have hval : (info.setRefCount (info.nRefCount + 1)).nRefCount = info.nRefCount + 1 := rfl
  rw [hval, show (0 : Int) + (info.nRefCount + 1 - info.nRefCount) = 1 by omega] at h₁
  have hlim₁ := hlim.setInfo (info.setRefCount (info.nRefCount + 1)) hl rfl
  have hkept₁ : Kept E ok am (am.setInfo nId (info.setRefCount (info.nRefCount + 1))) :=
    Kept.setInfo hl rfl (fun _ hok ↦ ⟨hok.nLastTry, hok.nLastSuccess, hok.tried⟩) fun _ ↦ id
  have hview₁ : (am.setInfo nId (info.setRefCount (info.nRefCount + 1))).view (·.fInTried) nId =
      some false := by
    rw [view_setInfo, Function.update_self]
    exact congrArg some hin
  generalize ham₁ : am.setInfo nId (info.setRefCount (info.nRefCount + 1)) = am₁
    at h₁ hlim₁ hkept₁ hview₁
  have hnew₁ : am₁.vvNew = am.vvNew := by
    rw [← ham₁]
    rfl
  have hcard₁ : (am₁.bucketsOf nId).card < addrmanNewBucketsPerAddress := by
    rw [← ham₁]
    exact hcard
  rw [← hnew₁] at hb
  obtain ⟨am₂, hrun, h₂, hlim₂, hkept₂, hview₂, hb₂, hroom, hcard₂⟩ :=
    place_spec E ok rand nNow h₁ hlim₁ hview₁ hb hcard₁
  have h₃ := h₂.insertNew hview₂ hb₂
  rw [Function.update_self, Function.update_idem, sub_self, Function.update_eq_self_iff.mpr rfl]
    at h₃
  simp only [Option.bind_eq_bind, Option.bind_some, Option.pure_def]
  refine ⟨am₂.setNew b (insert nId (am₂.vvNew b)), ?_, ⟨h₃, hlim₂.insertNew hroom hcard₂⟩,
    (hkept₁.trans hkept₂).trans (.setNew _ _ _)⟩
  split at hrun
  case isTrue hfull => rw [if_pos hfull, hrun, Option.bind_some]
  case isFalse hfull => rw [if_neg hfull, Option.some.inj hrun]

theorem refresh_spec (info : CAddrInfo) (addr : CAddress) (nTimePenalty nNow : Int) :
    (refresh info addr nTimePenalty nNow).toCService = info.toCService ∧
      (refresh info addr nTimePenalty nNow).nRandomPos = info.nRandomPos ∧
      (refresh info addr nTimePenalty nNow).fInTried = info.fInTried ∧
      (refresh info addr nTimePenalty nNow).nRefCount = info.nRefCount ∧
      (refresh info addr nTimePenalty nNow).nAttempts = info.nAttempts ∧
      (info.TimesOk → (refresh info addr nTimePenalty nNow).TimesOk) :=
  ⟨rfl, rfl, rfl, rfl, rfl, fun h ↦ ⟨h.nLastTry, h.nLastSuccess, h.tried⟩⟩

theorem createNext_entry {addr : CAddress} {source : CNetAddr}
    (hl : ((am.createNext addr source).2.2.countNew 1).mapInfo.lookup nId = some info) :
    info = (am.createNext addr source).2.1 ∨ am.mapInfo.lookup nId = some info := by
  by_cases hj : nId = am.nIdCount
  · subst hj
    exact Or.inl (Option.some.inj ((Finmap.lookup_insert _).symm.trans hl)).symm
  · exact Or.inr ((Finmap.lookup_insert_of_ne _ hj).symm.trans hl)

/-- `Create` with the count of the new entry, which is in no bucket yet. -/
theorem Settled.createNext {addr : CAddress} (E : AddrEnv) (ok : Prop) (h : am.Settled)
    (source : CNetAddr) (hnone : am.mapAddr.lookup addr.ip = none) :
    ((am.createNext addr source).2.2.countNew 1).Inv (fun _ ↦ 0) 0 ∧
      ((am.createNext addr source).2.2.countNew 1).Limits
        (Function.update (fun _ ↦ 0) am.nIdCount 1) ∧
      ((am.createNext addr source).2.2.countNew 1).bucketsOf am.nIdCount = ∅ ∧
      Advanced E ok 1 am ((am.createNext addr source).2.2.countNew 1) := by
  have hview : ∀ {α : Type} (f : CAddrInfo → α) j, j ≠ am.nIdCount →
      ((am.createNext addr source).2.2.countNew 1).view f j = am.view f j := by
    intro α f j hj
    exact congrArg (Option.map f) (Finmap.lookup_insert_of_ne _ hj)
  have hfresh : ∀ info, am.mapInfo.lookup am.nIdCount ≠ some info := by
    intro info hl
    exact Nat.lt_irrefl _ (h.inv.id_lt _ _ (view_of_lookup hl))
  refine ⟨h.inv.createNext hnone rfl, ⟨h.limits.tried_le, h.limits.new_le, ?_, h.limits.le_four⟩,
    ?_, ?_⟩
  · intro j hj hj0
    have hjn : j ≠ am.nIdCount := by
      rintro rfl
      rw [Function.update_self] at hj0
      exact absurd hj0 (by decide)
    rw [hview _ j hjn] at hj
    exact h.limits.one_le j hj rfl
  · rw [Finset.eq_empty_iff_forall_notMem]
    intro b hb
    obtain ⟨info, hl, -⟩ := h.inv.exists_lookup_of_new (mem_bucketsOf.mp hb)
    exact hfresh info hl
  · refine ⟨rfl, Kept.filed_of_view rfl ?_, ?_, fun n hn ↦ ⟨Nat.succ_le_succ hn.nIdCount, ?_⟩⟩
    · intro j k hj
      obtain ⟨info, hl, -⟩ := h.inv.exists_lookup_of_tried hj
      exact ⟨hj, hview _ j fun heq ↦ hfresh info (heq ▸ hl)⟩
    · intro _ htimes j info hl
      rcases createNext_entry hl with rfl | hl
      · exact ⟨Int.le_refl 0, Int.le_refl 0, fun hin ↦ absurd hin (by simp [CAddrMan.createNext,
          CAddrInfo.new])⟩
      · exact htimes j info hl
    · intro j info hl
      rcases createNext_entry hl with rfl | hl
      · exact Int.natCast_nonneg _
      · exact (hn.nAttempts j info hl).trans (Int.ofNat_le.mpr (Nat.le_succ n))

end

section

variable {E : AddrEnv} {am : CAddrMan} {nId : Nat} {info : CAddrInfo}

/-- `Add_` of an address that is new. -/
theorem add_new_spec (rand : Nat → Nat) (addr : CAddress) (source : CNetAddr)
    (nTimePenalty nNow : Int) (h : am.Settled) (hroutable : E.isRoutable addr.ip = true)
    (hfind : am.find addr.ip = none) (hid : am.nIdCount + 1 < 2 ^ 31) :
    ∃ am', add_ E rand am addr source nTimePenalty nNow = some (am', true) ∧ am'.Settled ∧
      Kept E True ((am.createNext addr source).2.2.countNew 1) am' := by
  have hnone := h.inv.find_eq_none hfind
  obtain ⟨hinv, hlim, hempty, -⟩ := h.createNext E True source hnone
  rw [add_, if_neg (not_not_intro hroutable), hfind]
  dsimp only
  simp only [create, if_pos hid, Option.bind_eq_bind, Option.bind_some]
  generalize hinfo : ({ (am.createNext addr source).2.1 with
    nTime := BitVec.ofInt 32
      (max 0 ((am.createNext addr source).2.1.nTime.toNat - nTimePenalty)) } : CAddrInfo) = info'
  generalize ham₁ : (am.createNext addr source).2.2.countNew 1 = am₁ at hinv hlim hempty ⊢
  have hl : am₁.mapInfo.lookup am.nIdCount = some (am.createNext addr source).2.1 := by
    rw [← ham₁]
    exact Finmap.lookup_insert _
  have hinv₂ := hinv.setStats info' hl (by rw [← hinfo]) (by rw [← hinfo])
    (by rw [← hinfo]) (by rw [← hinfo])
  have hlim₂ := hlim.setInfo info' hl (by rw [← hinfo])
  have hkept₂ : Kept E True am₁ (am₁.setInfo am.nIdCount info') := by
    refine .setInfo hl (by rw [← hinfo]) (fun _ hok ↦ ?_) fun n hn ↦ ?_
    · rw [← hinfo]
      exact ⟨hok.nLastTry, hok.nLastSuccess, hok.tried⟩
    · rw [← hinfo]
      exact hn
  have hl' : (am₁.setInfo am.nIdCount info').mapInfo.lookup am.nIdCount = some info' :=
    Finmap.lookup_insert _
  have hlt : ((am₁.setInfo am.nIdCount info').bucketsOf am.nIdCount).card <
      addrmanNewBucketsPerAddress := by
    change (am₁.bucketsOf am.nIdCount).card < _
    rw [hempty]
    decide
  obtain ⟨am', hrun, hs', hkept'⟩ := addReference_spec E True
    (fun k ↦ rand (k + 1)) nNow source hinv₂ hlim₂ hl' (by rw [← hinfo]; rfl) hlt
  have hstate : ((am.createNext addr source).2.2.setInfo am.nIdCount info').countNew 1 =
      am₁.setInfo am.nIdCount info' := by
    rw [← ham₁]
    rfl
  refine ⟨am', ?_, hs', hkept₂.trans hkept'⟩
  change (addReference E (fun k ↦ rand (k + 1)) nNow
    (((am.createNext addr source).2.2.setInfo am.nIdCount info').countNew 1) am.nIdCount info'
      source).bind _ = _
  rw [hstate, hrun]
  rfl

theorem add_spec (rand : Nat → Nat) (addr : CAddress) (source : CNetAddr)
    (nTimePenalty nNow : Int) (h : am.Settled)
    (hid : E.isRoutable addr.ip = true → am.find addr.ip = none → am.nIdCount + 1 < 2 ^ 31) :
    ∃ am' fNew, add_ E rand am addr source nTimePenalty nNow = some (am', fNew) ∧ am'.Settled ∧
      Advanced E True 1 am am' := by
  by_cases hroutable : E.isRoutable addr.ip = true
  case neg => exact ⟨am, false, by rw [add_, if_pos hroutable], h, (Kept.refl am).advanced⟩
  cases hfind : am.find addr.ip with
  | none =>
      obtain ⟨am', hrun, hs', hkept⟩ :=
        add_new_spec rand addr source nTimePenalty nNow h hroutable hfind (hid hroutable hfind)
      obtain ⟨-, -, -, hcreate⟩ := h.createNext E True source (h.inv.find_eq_none hfind)
      have hadvanced : Advanced E True 0 _ am' := hkept.advanced
      exact ⟨am', true, hrun, hs', hcreate.trans hadvanced⟩
  | some p =>
      obtain ⟨nId, info⟩ := p
      have hl := find_eq_some hfind
      obtain ⟨hservice, hpos, hin, href, hattempts, htimes⟩ :=
        refresh_spec info addr nTimePenalty nNow
      rw [add_, if_neg (not_not_intro hroutable), hfind]
      dsimp only
      generalize refresh info addr nTimePenalty nNow = info'
        at hservice hpos hin href hattempts htimes ⊢
      have hs := h.setInfo info' hl (congrArg (·.ip) hservice) hpos hin href
      have hkept : Kept E True am (am.setInfo nId info') :=
        .setInfo hl hservice (fun _ ↦ htimes) fun n hn ↦ hattempts ▸ hn
      by_cases hinformed : addr.nTime = 0 ∨ info'.nTime ≠ 0 ∧ addr.nTime ≤ info'.nTime
      · rw [if_pos hinformed]
        exact ⟨_, false, rfl, hs, hkept.advanced⟩
      rw [if_neg hinformed]
      by_cases htried : info'.fInTried
      · rw [if_pos htried]
        exact ⟨_, false, rfl, hs, hkept.advanced⟩
      rw [if_neg htried]
      by_cases hmax : info'.nRefCount = addrmanNewBucketsPerAddress
      · rw [if_pos hmax]
        exact ⟨_, false, rfl, hs, hkept.advanced⟩
      rw [if_neg hmax]
      split
      case isTrue => exact ⟨_, false, rfl, hs, hkept.advanced⟩
      case isFalse =>
        have hl' : (am.setInfo nId info').mapInfo.lookup nId = some info' := Finmap.lookup_insert _
        have hcard := hs.inv.nRefCount_eq nId _ (view_of_lookup hl')
        have hfour := hs.limits.le_four nId
        rw [add_zero] at hcard
        have hlt : ((am.setInfo nId info').bucketsOf nId).card < addrmanNewBucketsPerAddress := by
          refine Nat.lt_of_le_of_ne hfour fun heq ↦ hmax ?_
          rw [hcard, heq]
        have hlim : (am.setInfo nId info').Limits (Function.update (fun _ ↦ 0) nId 1) := by
          refine ⟨hs.limits.tried_le, hs.limits.new_le, fun j hj _ ↦ ?_, hs.limits.le_four⟩
          exact hs.limits.one_le j hj rfl
        obtain ⟨am', hrun, hs', hkept'⟩ := addReference_spec E True (fun k ↦ rand (k + 1)) nNow
          source hs.inv hlim hl' (Bool.eq_false_of_not_eq_true htried) hlt
        refine ⟨am', false, ?_, hs', (hkept.trans hkept').advanced⟩
        simp only [hrun, Option.bind_eq_bind, Option.bind_some, Option.pure_def]

theorem findBucket_mem {nRnd : Nat} {b : NewBucket} (h : am.findBucket nRnd nId = some b) :
    nId ∈ am.vvNew b := by
  have htest : decide (nId ∈ am.vvNew b) = true :=
    @List.find?_some _ (fun nB ↦ decide (nId ∈ am.vvNew nB)) _ _ h
  exact of_decide_eq_true htest

theorem good_spec (rand : Nat → Nat) (addr : CService) (nTime : Int) (h : am.Settled) :
    ∃ am', good_ E rand am addr nTime = some am' ∧ am'.Settled ∧ Kept E (0 < nTime) am am' := by
  rw [good_]
  cases hfind : am.find addr.ip with
  | none => exact ⟨am, rfl, h, .refl am⟩
  | some p =>
      obtain ⟨nId, info⟩ := p
      have hl := find_eq_some hfind
      dsimp only
      by_cases hsame : info.toCService ≠ addr
      · rw [if_pos hsame]
        exact ⟨am, rfl, h, .refl am⟩
      rw [if_neg hsame]
      generalize hinfo : ({ info with
        nLastSuccess := nTime
        nLastTry := nTime
        nTime := BitVec.ofInt 32 nTime
        nAttempts := 0 } : CAddrInfo) = info'
      have hservice : info'.toCService = info.toCService := by rw [← hinfo]
      have hs := h.setInfo info' hl (congrArg (·.ip) hservice) (by rw [← hinfo])
        (by rw [← hinfo]) (by rw [← hinfo])
      have hkept : Kept E (0 < nTime) am (am.setInfo nId info') := by
        refine .setInfo hl hservice (fun hok _ ↦ ?_) fun n _ ↦ ?_
        · rw [← hinfo]
          exact ⟨Int.le_of_lt hok, Int.le_of_lt hok, fun _ ↦ (Int.ne_of_lt hok).symm⟩
        · rw [← hinfo]
          exact Int.natCast_nonneg n
      have hl' : (am.setInfo nId info').mapInfo.lookup nId = some info' := Finmap.lookup_insert _
      by_cases htried : info.fInTried
      · rw [if_pos htried]
        exact ⟨_, rfl, hs, hkept⟩
      rw [if_neg htried]
      cases hbucket : (am.setInfo nId info').findBucket (getRandInt (rand 0) 256) nId with
      | none => exact ⟨_, rfl, hs, hkept⟩
      | some nUBucket =>
          obtain ⟨am', hrun, hs', hmoved⟩ := makeTried_spec (E := E) (fun k ↦ rand (k + 1)) hs hl'
            (findBucket_mem hbucket)
          refine ⟨am', hrun, hs', hkept.trans (.tried hmoved hl' rfl fun hok ↦ ?_)⟩
          rw [← hinfo]
          exact (Int.ne_of_lt hok).symm

theorem attempt_spec (addr : CService) (nTime : Int) (h : am.Settled)
    (hattempts : ∀ nId info, am.find addr.ip = some (nId, info) → info.toCService = addr →
      info.nAttempts + 1 < 2 ^ 31) :
    ∃ am', attempt_ am addr nTime = some am' ∧ am'.Settled ∧
      Advanced E (0 < nTime) 1 am am' := by
  rw [attempt_]
  cases hfind : am.find addr.ip with
  | none => exact ⟨am, rfl, h, (Kept.refl am).advanced⟩
  | some p =>
      obtain ⟨nId, info⟩ := p
      have hl := find_eq_some hfind
      dsimp only
      split
      case isTrue => exact ⟨am, rfl, h, (Kept.refl am).advanced⟩
      case isFalse hsame =>
        rw [if_pos (hattempts nId info hfind (not_not.mp hsame))]
        refine ⟨_, rfl, h.setInfo _ hl rfl rfl rfl rfl, rfl, Kept.filed_setInfo hl rfl,
          fun hok ↦ Kept.times_setInfo hl fun hold ↦ ?_, fun n hn ↦ ⟨?_, fun j inf hj ↦ ?_⟩⟩
        · exact ⟨Int.le_of_lt hok, hold.nLastSuccess, hold.tried⟩
        · exact hn.nIdCount.trans (Nat.le_succ n)
        · obtain ⟨rfl, rfl⟩ | ⟨-, hj⟩ := Finmap.cases_lookup_insert hj
          · exact Int.add_le_add_right (hn.nAttempts j info hl) 1
          · exact (hn.nAttempts j inf hj).trans (Int.ofNat_le.mpr (Nat.le_succ n))

theorem connected_spec (addr : CService) (nTime : Int) (h : am.Settled) :
    (connected_ am addr nTime).Settled ∧ Kept E True am (connected_ am addr nTime) := by
  rw [connected_]
  cases hfind : am.find addr.ip with
  | none => exact ⟨h, .refl am⟩
  | some p =>
      obtain ⟨nId, info⟩ := p
      have hl := find_eq_some hfind
      dsimp only
      split
      case isTrue => exact ⟨h, .refl am⟩
      case isFalse =>
        split
        case isTrue =>
          refine ⟨h.setInfo _ hl rfl rfl rfl rfl,
            .setInfo hl rfl (fun _ hold ↦ ?_) fun _ ↦ id⟩
          exact ⟨hold.nLastTry, hold.nLastSuccess, hold.tried⟩
        case isFalse => exact ⟨h, .refl am⟩

theorem selectFrom_spec {β : Type} {bucket : Nat → β} {entries : β → List Nat} (nNow : Int)
    (rand : Nat → Nat) (tries rounds : Nat)
    (hl : ∀ b, ∀ j ∈ entries b, ∃ info, am.mapInfo.lookup j = some info) :
    ∃ r, selectFrom E bucket entries nNow rand am tries rounds = some r := by
  induction rounds generalizing rand tries with
  | zero => exact ⟨none, rfl⟩
  | succ rounds ih =>
      rw [selectFrom]
      by_cases hempty : (entries (bucket (rand 0))).length = 0
      · simp only [if_pos hempty]
        exact ih _ _
      · have hlt := getRandInt_lt (r := rand 1) (Nat.pos_of_ne_zero hempty)
        obtain ⟨info, hinfo⟩ := hl _ _ (List.getElem_mem hlt)
        simp only [if_neg hempty, List.getElem?_eq_getElem hlt, hinfo, Option.bind_eq_bind,
          Option.bind_some]
        split
        case isTrue => exact ⟨_, rfl⟩
        case isFalse => exact ih _ _

theorem select_spec (rand : Nat → Nat) (nUnkBias nNow : Int) (rounds : Nat) (h : am.Settled) :
    ∃ r, select_ E rand am nUnkBias nNow rounds = some r := by
  rw [select_]
  split
  case isTrue => exact ⟨_, rfl⟩
  case isFalse =>
    split
    case isTrue =>
      refine selectFrom_spec nNow _ 0 rounds fun k j hj ↦ ?_
      exact (h.inv.exists_lookup_of_tried hj).imp fun _ ↦ And.left
    case isFalse =>
      refine selectFrom_spec nNow _ 0 rounds fun b j hj ↦ ?_
      exact (h.inv.exists_lookup_of_new ((Finset.mem_sort _).mp hj)).imp fun _ ↦ And.left

theorem getAddr_spec (rand : Nat → Nat) (h : am.Settled) :
    ∃ am' vAddr, getAddr_ rand am = some (am', vAddr) ∧ am'.Settled ∧ Kept E True am am' := by
  have hstep : ∀ (done : List Nat) (n : Nat) (s : CAddrMan × List CAddress),
      n ∈ List.range (min (23 * am.vRandom.length / 100) 2500) →
      (Reordered am s.1 ∧ s.1.Inv (fun _ ↦ 0) 0) →
      ∃ s', getAddrStep rand s n = some s' ∧ Reordered am s'.1 ∧ s'.1.Inv (fun _ ↦ 0) 0 := by
    rintro done n ⟨am₁, vAddr⟩ hn ⟨hr, hinv⟩
    have hlen : am₁.vRandom.length = am.vRandom.length := hr.length
    have hlt : n < am₁.vRandom.length := by
      have hmin := (List.mem_range.mp hn).trans_le (Nat.min_le_left _ _)
      omega
    have hpos : getRandInt (rand n) (am₁.vRandom.length - n) + n < am₁.vRandom.length := by
      have hrand := getRandInt_lt (r := rand n) (Nat.sub_pos_of_lt hlt)
      omega
    obtain ⟨am₂, hswap, hr₂, hinv₂, -⟩ := hinv.swapRandom hlt hpos
    have hlt₂ : n < am₂.vRandom.length := by
      rw [hr₂.length]
      exact hlt
    have hget : am₂.vRandom[n]? = some am₂.vRandom[n] := List.getElem?_eq_getElem hlt₂
    obtain ⟨info, hl, -⟩ := hinv₂.exists_lookup_of_getElem? hget
    rw [getAddrStep]
    simp only [hswap, hget, hl, Option.bind_eq_bind, Option.bind_some, Option.pure_def]
    exact ⟨_, rfl, hr.trans hr₂, hinv₂⟩
  obtain ⟨⟨am', vAddr⟩, hrun, hr, hinv⟩ := Loop.foldlM_spec
    (I := fun (_ : List Nat) (s : CAddrMan × List CAddress) ↦
      Reordered am s.1 ∧ s.1.Inv (fun _ ↦ 0) 0) (s := (am, [])) hstep ⟨.refl am, h.inv⟩
  exact ⟨am', vAddr, hrun, ⟨hinv, hr.limits h.limits⟩, .reordered hr⟩

end

end CAddrMan

/-! ## Runs -/

/-- A call, with its random numbers and the adjusted time where the call reads it. -/
inductive AddrCall
  | add (addr : CAddress) (source : CNetAddr) (nTimePenalty nNow : Int) (rand : Nat → Nat)
  | good (addr : CService) (nTime : Int) (rand : Nat → Nat)
  | attempt (addr : CService) (nTime : Int)
  | connected (addr : CService) (nTime : Int)
  /-- `Select`, up to the end of its loop or as many rounds of it as are given. -/
  | select (nUnkBias nNow : Int) (rounds : Nat) (rand : Nat → Nat)
  | getAddr (rand : Nat → Nat)

namespace AddrCall

/-- There is no state if an assertion fails or an `int` overflows. -/
def run (E : AddrEnv) (am : CAddrMan) : AddrCall → Option CAddrMan
  | add addr source nTimePenalty nNow rand =>
      (am.add_ E rand addr source nTimePenalty nNow).map Prod.fst
  | good addr nTime rand => am.good_ E rand addr nTime
  | attempt addr nTime => am.attempt_ addr nTime
  | connected addr nTime => some (am.connected_ addr nTime)
  | select nUnkBias nNow rounds rand => (am.select_ E rand nUnkBias nNow rounds).map fun _ ↦ am
  | getAddr rand => (am.getAddr_ rand).map Prod.fst

/-- The time that is recorded is a time after the epoch. -/
def TimeOk : AddrCall → Prop
  | good _ nTime _ => 0 < nTime
  | attempt _ nTime => 0 < nTime
  | _ => True

/-- The counter that the call increments is below `INT_MAX`: the next id, for an address that is
new, or the attempts at an address. -/
def InRange (E : AddrEnv) (am : CAddrMan) : AddrCall → Prop
  | add addr _ _ _ _ => E.isRoutable addr.ip = true → am.find addr.ip = none →
      am.nIdCount + 1 < 2 ^ 31
  | attempt addr _ => ∀ nId info, am.find addr.ip = some (nId, info) → info.toCService = addr →
      info.nAttempts + 1 < 2 ^ 31
  | _ => True

variable {E : AddrEnv} {am : CAddrMan}

theorem run_spec (call : AddrCall) (h : am.Settled) (hrange : call.InRange E am) :
    ∃ am', call.run E am = some am' ∧ am'.Settled ∧ am.Advanced E call.TimeOk 1 am' := by
  cases call with
  | add addr source nTimePenalty nNow rand =>
      obtain ⟨am', fNew, hrun, hs, hadvanced⟩ :=
        CAddrMan.add_spec rand addr source nTimePenalty nNow h hrange
      exact ⟨am', congrArg (Option.map Prod.fst) hrun, hs, hadvanced⟩
  | good addr nTime rand =>
      obtain ⟨am', hrun, hs, hkept⟩ := CAddrMan.good_spec (E := E) rand addr nTime h
      exact ⟨am', hrun, hs, hkept.advanced⟩
  | attempt addr nTime => exact CAddrMan.attempt_spec addr nTime h hrange
  | connected addr nTime =>
      obtain ⟨hs, hkept⟩ := CAddrMan.connected_spec (E := E) addr nTime h
      exact ⟨_, rfl, hs, hkept.advanced⟩
  | select nUnkBias nNow rounds rand =>
      obtain ⟨r, hr⟩ := CAddrMan.select_spec (E := E) rand nUnkBias nNow rounds h
      exact ⟨am, congrArg (Option.map fun _ ↦ am) hr, h, (CAddrMan.Kept.refl am).advanced⟩
  | getAddr rand =>
      obtain ⟨am', vAddr, hrun, hs, hkept⟩ := CAddrMan.getAddr_spec (E := E) rand h
      exact ⟨am', congrArg (Option.map Prod.fst) hrun, hs, hkept.advanced⟩

/-- An overflow leaves no state. -/
theorem inRange_of_run {call : AddrCall} {am' : CAddrMan} (hrun : call.run E am = some am') :
    call.InRange E am := by
  cases call with
  | add addr source nTimePenalty nNow rand =>
      intro hroutable hfind
      by_contra hid
      rw [run, CAddrMan.add_, if_neg (not_not_intro hroutable), hfind] at hrun
      dsimp only at hrun
      rw [CAddrMan.create, if_neg hid] at hrun
      cases hrun
  | attempt addr nTime =>
      intro nId info hfind hsame
      by_contra hattempts
      rw [run, CAddrMan.attempt_, hfind] at hrun
      dsimp only at hrun
      rw [if_neg (not_not_intro hsame), if_neg hattempts] at hrun
      cases hrun
  | _ => trivial

/-- The calls one after the other. -/
def runAll (E : AddrEnv) (am : CAddrMan) (calls : List AddrCall) : Option CAddrMan :=
  calls.foldlM (run E) am

/-- Every call of the run finds its counter below `INT_MAX`. -/
def AllInRange (E : AddrEnv) (am : CAddrMan) (calls : List AddrCall) : Prop :=
  ∀ done call rest am', calls = done ++ call :: rest → runAll E am done = some am' →
    call.InRange E am'

theorem runAll_cons {call : AddrCall} {calls : List AddrCall} :
    runAll E am (call :: calls) = (call.run E am).bind fun am' ↦ runAll E am' calls := rfl

theorem allInRange_cons {call : AddrCall} {calls : List AddrCall} :
    AllInRange E am (call :: calls) ↔ call.InRange E am ∧
      ∀ am', call.run E am = some am' → AllInRange E am' calls := by
  constructor
  · refine fun h ↦ ⟨h [] call calls am rfl rfl, fun am' hrun done c rest am'' hcalls hdone ↦ ?_⟩
    refine h (call :: done) c rest am'' (congrArg (call :: ·) hcalls) ?_
    rw [runAll_cons, hrun]
    exact hdone
  · rintro ⟨hrange, hrest⟩ done c rest am'' hcalls hdone
    cases done with
    | nil =>
        obtain ⟨rfl, rfl⟩ := List.cons.inj hcalls
        exact Option.some.inj hdone ▸ hrange
    | cons c' done =>
        obtain ⟨rfl, rfl⟩ := List.cons.inj hcalls
        obtain ⟨am', hrun, hdone⟩ := Option.bind_eq_some_iff.mp hdone
        exact hrest am' hrun done c rest am'' rfl hdone

theorem runAll_spec (calls : List AddrCall) (h : am.Settled) (hrange : AllInRange E am calls) :
    ∃ am', runAll E am calls = some am' ∧ am'.Settled ∧
      am.Advanced E (∀ call ∈ calls, call.TimeOk) calls.length am' := by
  induction calls generalizing am with
  | nil => exact ⟨am, rfl, h, (CAddrMan.Kept.refl am).advanced⟩
  | cons call calls ih =>
      obtain ⟨hfirst, hrest⟩ := allInRange_cons.mp hrange
      obtain ⟨am₁, hrun, hs, h₁⟩ := call.run_spec h hfirst
      obtain ⟨am', hruns, hs', h₂⟩ := ih hs (hrest am₁ hrun)
      refine ⟨am', by rw [runAll_cons, hrun]; exact hruns, hs', h₂.nKey.trans h₁.nKey,
        h₂.filed ∘ h₁.filed, fun hok ↦ ?_, fun n hn ↦ ?_⟩
      · obtain ⟨hok₁, hok₂⟩ := List.forall_mem_cons.mp hok
        exact h₂.times hok₂ ∘ h₁.times hok₁
      · rw [List.length_cons, Nat.add_comm _ 1, ← Nat.add_assoc]
        exact h₂.counts _ (h₁.counts n hn)

theorem allInRange_of_runAll {calls : List AddrCall} {am' : CAddrMan}
    (hrun : runAll E am calls = some am') : AllInRange E am calls := by
  induction calls generalizing am with
  | nil => exact fun done call rest _ hcalls ↦ absurd hcalls (by simp)
  | cons call calls ih =>
      obtain ⟨am₁, hfirst, hrest⟩ := Option.bind_eq_some_iff.mp hrun
      refine allInRange_cons.mpr ⟨inRange_of_run hfirst, fun am₂ hrun₂ ↦ ?_⟩
      rw [hfirst] at hrun₂
      exact Option.some.inj hrun₂ ▸ ih hrest

/-- The counters cannot get too high in so few calls. -/
theorem allInRange_of_length {calls : List AddrCall} {n : Nat} (h : am.Settled)
    (hcounts : am.CountsLe n) (hlength : n + calls.length < 2 ^ 31) : AllInRange E am calls := by
  induction calls generalizing am n with
  | nil => exact fun done call rest _ hcalls ↦ absurd hcalls (by simp)
  | cons call calls ih =>
      rw [List.length_cons] at hlength
      have hrange : call.InRange E am := by
        have hid := hcounts.nIdCount
        cases call with
        | add => exact fun _ _ ↦ by omega
        | attempt =>
            intro nId info hfind _
            have hattempts := hcounts.nAttempts nId info (CAddrMan.find_eq_some hfind)
            omega
        | _ => trivial
      obtain ⟨am₁, hrun, hs, h₁⟩ := call.run_spec h hrange
      refine allInRange_cons.mpr ⟨hrange, fun am₂ hrun₂ ↦ ?_⟩
      obtain rfl := Option.some.inj (hrun.symm.trans hrun₂)
      exact ih hs (h₁.counts n hcounts) (by omega)

end AddrCall

theorem CAddrMan.settled_new (nKey : List UInt8) : (CAddrMan.new nKey).Settled where
  inv :=
    { id_lt := fun _ _ h ↦ absurd h (by simp [CAddrMan.view, CAddrMan.new])
      mapAddr_iff := fun _ _ ↦ by simp [CAddrMan.view, CAddrMan.new]
      points := fun _ _ ↦ by simp [CAddrMan.view, CAddrMan.new]
      tried_iff := fun _ ↦ by simp [CAddrMan.view, CAddrMan.new]
      tried_unique := fun _ _ _ h ↦ absurd h List.not_mem_nil
      tried_nodup := fun _ ↦ List.nodup_nil
      new_view := fun _ _ h ↦ absurd h (Finset.notMem_empty _)
      nRefCount_eq := fun _ _ h ↦ absurd h (by simp [CAddrMan.view, CAddrMan.new])
      nTried_eq := rfl
      nNew_eq := rfl }
  limits :=
    { tried_le := fun _ ↦ Nat.zero_le _
      new_le := fun _ ↦ Nat.zero_le _
      one_le := fun _ h _ ↦ absurd h (by simp [CAddrMan.view, CAddrMan.new])
      le_four := by
        intro nId
        have hempty : (CAddrMan.new nKey).bucketsOf nId = ∅ := by
          rw [Finset.eq_empty_iff_forall_notMem]
          exact fun b hb ↦ Finset.notMem_empty _ (CAddrMan.mem_bucketsOf.mp hb)
        rw [hempty]
        exact Nat.zero_le _ }

theorem CAddrMan.countsLe_new (nKey : List UInt8) : (CAddrMan.new nKey).CountsLe 0 :=
  ⟨le_rfl, fun _ _ hl ↦ absurd hl (by simp [CAddrMan.new])⟩

def sampleAddrEnv : AddrEnv where
  getTriedBucket _ addr := (addr.port.setWidth 6).toFin
  getNewBucket _ addr source := ((addr + source).setWidth 8).toFin
  isRoutable _ := true
  useTried _ _ _ _ := true
  hasChance _ _ _ _ := true

def sampleService : CService := ⟨1, 8333⟩

end Fedoracoin
