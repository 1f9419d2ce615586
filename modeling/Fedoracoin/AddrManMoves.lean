import Fedoracoin.AddrManInv
import Fedoracoin.Lib.Loop

/-!
# Moving addresses between the buckets

`ShrinkNew` and `MakeTried` keep the invariant and the limits, and none of their assertions fails:
`shrinkNew_spec` and `makeTried_spec`.
-/

namespace Fedoracoin

theorem getRandInt_lt {r n : Nat} (hn : 0 < n) : getRandInt r n < n := by
  rw [getRandInt, if_neg (Nat.ne_of_gt hn)]
  exact Nat.mod_lt r hn

theorem toUnsigned_of_lt {n : Nat} (hn : n < 2 ^ 32) : toUnsigned n = n := by
  rw [toUnsigned, BitVec.ofInt_natCast, BitVec.toNat_ofNat]
  exact Nat.mod_eq_of_lt hn

/-- What no bookkeeping changes in an entry. -/
def CAddrInfo.core (info : CAddrInfo) : CAddrInfo := (info.setRandomPos 0).setRefCount 0

namespace CAddrMan

/-- The sizes of the buckets, and how many new buckets an entry is in.  An entry with pending
references is left out. -/
structure Limits (am : CAddrMan) (owed : Nat → Int) : Prop where
  tried_le : ∀ k, (am.vvTried k).length ≤ addrmanTriedBucketSize
  new_le : ∀ b, (am.vvNew b).card ≤ addrmanNewBucketSize
  one_le : ∀ nId, am.view (·.fInTried) nId = some false → owed nId = 0 →
    1 ≤ (am.bucketsOf nId).card
  le_four : ∀ nId, (am.bucketsOf nId).card ≤ addrmanNewBucketsPerAddress

theorem view_core_setInfo {am : CAddrMan} {nId : Nat} {info : CAddrInfo} (info' : CAddrInfo)
    (hl : am.mapInfo.lookup nId = some info) (hcore : info'.core = info.core) :
    (am.setInfo nId info').view CAddrInfo.core = am.view CAddrInfo.core :=
  view_setInfo_of_eq hl hcore

/-- A field of the core. -/
theorem view_of_core {α : Type} {am am' : CAddrMan} {f : CAddrInfo → α} {nId : Nat}
    (hf : ∀ info : CAddrInfo, f info = f info.core)
    (h : am'.view CAddrInfo.core nId = am.view CAddrInfo.core nId) :
    am'.view f nId = am.view f nId := by
  have hcomp : ∀ am : CAddrMan, am.view f nId = (am.view CAddrInfo.core nId).map f := by
    intro am
    rw [view, view, Option.map_map]
    exact congrArg (Option.map · _) (funext hf)
  rw [hcomp, hcomp, h]

namespace Reordered

theorem view_core {am am' : CAddrMan} (h : Reordered am am') :
    am'.view CAddrInfo.core = am.view CAddrInfo.core :=
  h.view_eq fun _ ↦ rfl

theorem limits {am am' : CAddrMan} {owed : Nat → Int} (h : Reordered am am')
    (hl : am.Limits owed) : am'.Limits owed where
  tried_le := by
    rw [h.vvTried]
    exact hl.tried_le
  new_le := by
    rw [h.vvNew]
    exact hl.new_le
  one_le := by
    have hbuckets : am'.bucketsOf = am.bucketsOf := by
      funext j
      rw [bucketsOf, bucketsOf, h.vvNew]
    rw [hbuckets, h.view_eq fun _ ↦ rfl]
    exact hl.one_le
  le_four := by
    have hbuckets : am'.bucketsOf = am.bucketsOf := by
      funext j
      rw [bucketsOf, bucketsOf, h.vvNew]
    rw [hbuckets]
    exact hl.le_four

end Reordered

section

variable {am : CAddrMan} {owed : Nat → Int} {missing : Int} {nId : Nat} {b : NewBucket}

/-- The buckets hold only so many addresses. -/
theorem Inv.length_vRandom_le (h : am.Inv owed missing) (hlim : am.Limits owed) (nId : Nat)
    (howed : ∀ j, owed j ≠ 0 → j = nId) : am.vRandom.length ≤ 20481 := by
  have hsub : am.vRandom.toFinset ⊆ insert nId
      ((Finset.univ.biUnion fun k ↦ (am.vvTried k).toFinset) ∪ Finset.univ.biUnion am.vvNew) := by
    intro j hj
    rw [List.mem_toFinset, h.points.mem_iff, Option.isSome_iff_exists] at hj
    rw [Finset.mem_insert, Finset.mem_union, Finset.mem_biUnion, Finset.mem_biUnion]
    obtain ⟨z, hz⟩ := hj
    obtain ⟨info, hl, -⟩ := view_eq_some hz
    cases hin : info.fInTried with
    | true =>
        obtain ⟨k, hk⟩ := (h.tried_iff j).mpr ((view_of_lookup hl).trans (congrArg some hin))
        exact Or.inr (Or.inl ⟨k, Finset.mem_univ k, List.mem_toFinset.mpr hk⟩)
    | false =>
        by_cases hj0 : owed j = 0
        · have hpos := hlim.one_le j ((view_of_lookup hl).trans (congrArg some hin)) hj0
          obtain ⟨b, hb⟩ := Finset.card_pos.mp hpos
          exact Or.inr (Or.inr ⟨b, Finset.mem_univ b, mem_bucketsOf.mp hb⟩)
        · exact Or.inl (howed j hj0)
  have htried : (Finset.univ.biUnion fun k ↦ (am.vvTried k).toFinset).card ≤ 64 * 64 := by
    refine (Finset.card_biUnion_le_card_mul _ _ 64 ?_).trans_eq ?_
    · exact fun k _ ↦ (List.toFinset_card_le _).trans (hlim.tried_le k)
    · rw [Finset.card_univ, Fintype.card_fin]
  have hnew : (Finset.univ.biUnion am.vvNew).card ≤ 256 * 64 := by
    refine (Finset.card_biUnion_le_card_mul _ _ 64 ?_).trans_eq ?_
    · exact fun b _ ↦ hlim.new_le b
    · rw [Finset.card_univ, Fintype.card_fin]
  have hcard := (Finset.card_le_card hsub).trans (Finset.card_insert_le _ _)
  have hunion := Finset.card_union_le (Finset.univ.biUnion fun k ↦ (am.vvTried k).toFinset)
    (Finset.univ.biUnion am.vvNew)
  rw [List.toFinset_card_of_nodup h.points.nodup] at hcard
  omega

/-- What taking an entry out of a new bucket leaves. -/
structure Dropped (am am' : CAddrMan) (b : NewBucket) (nId : Nat) : Prop where
  fixed : am'.fixed = am.fixed
  vvTried : am'.vvTried = am.vvTried
  vvNew : am'.vvNew = Function.update am.vvNew b ((am.vvNew b).erase nId)
  view_of_ne : ∀ j, j ≠ nId → am'.view CAddrInfo.core j = am.view CAddrInfo.core j
  /-- The entry itself is deleted with its last reference. -/
  view_self : am'.view CAddrInfo.core nId = none ∨
    am'.view CAddrInfo.core nId = am.view CAddrInfo.core nId ∧ 1 ≤ (am'.bucketsOf nId).card

/-- An entry goes to the end of the vector. -/
theorem Inv.swapRandom_end {info : CAddrInfo} (h : am.Inv owed missing)
    (hl : am.mapInfo.lookup nId = some info) (hlen : am.vRandom.length < 2 ^ 32) :
    ∃ am', am.swapRandom (toUnsigned info.nRandomPos) (toUnsigned (am.vRandom.length - 1)) =
        some am' ∧
      am.Reordered am' ∧ am'.Inv owed missing ∧
      am'.vRandom[am'.vRandom.length - 1]? = some nId := by
  obtain ⟨p, hp, hpos⟩ := h.points.exists_getElem? (view_of_lookup hl)
  obtain ⟨hplt, -⟩ := List.getElem?_eq_some_iff.mp hpos
  have hp' : toUnsigned info.nRandomPos = p := by
    rw [show info.nRandomPos = p from hp]
    exact toUnsigned_of_lt (hplt.trans hlen)
  have hq' : toUnsigned (am.vRandom.length - 1) = am.vRandom.length - 1 := by
    rw [← Nat.cast_one, ← Nat.cast_sub (Nat.one_le_of_lt hplt)]
    exact toUnsigned_of_lt (Nat.lt_of_le_of_lt (Nat.sub_le _ _) hlen)
  obtain ⟨am', hswap, hr, h', hq⟩ := h.swapRandom hplt
    (Nat.sub_one_lt (Nat.ne_of_gt (Nat.zero_lt_of_lt hplt)))
  refine ⟨am', ?_, hr, h', ?_⟩
  · rw [hp', hq', hswap]
  · rw [hr.length, hq, hpos]

theorem dropReference_spec (h : am.Inv owed missing) (hb : nId ∈ am.vvNew b) (howed : owed nId = 0)
    (hlen : am.vRandom.length < 2 ^ 32) :
    ∃ am', am.dropReference b nId = some am' ∧ am'.Inv owed missing ∧ am.Dropped am' b nId := by
  obtain ⟨info, hl, hin⟩ := h.exists_lookup_of_new hb
  have href := h.nRefCount_eq nId _ (view_of_lookup hl)
  have hcard := Finset.card_erase_add_one (mem_bucketsOf.mpr hb)
  rw [howed, add_zero] at href
  have h₁ := h.setInfo (info.setRefCount (info.nRefCount - 1)) hl rfl rfl rfl
  have hcore := view_core_setInfo (info.setRefCount (info.nRefCount - 1)) hl rfl
  generalize ham₁ : am.setInfo nId (info.setRefCount (info.nRefCount - 1)) = am₁ at h₁ hcore
  have hl₁ : am₁.mapInfo.lookup nId = some (info.setRefCount (info.nRefCount - 1)) := by
    rw [← ham₁]
    exact Finmap.lookup_insert _
  have hb₁ : nId ∈ am₁.vvNew b := by
    rw [← ham₁]
    exact hb
  have hnew₁ : am₁.vvNew = am.vvNew := by
    rw [← ham₁]
    rfl
  have hvec₁ : am₁.vRandom = am.vRandom := by
    rw [← ham₁]
    rfl
  have htried₁ : am₁.vvTried = am.vvTried := by
    rw [← ham₁]
    rfl
  have hfixed₁ : am₁.fixed = am.fixed := by
    rw [← ham₁]
    rfl
  have howed₂ : ∀ j, j ≠ nId → Function.update (Function.update owed nId
      (owed nId + (info.nRefCount - 1 - info.nRefCount))) nId
        (Function.update owed nId (owed nId + (info.nRefCount - 1 - info.nRefCount)) nId + 1) j =
          owed j := by
    intro j hj
    rw [Function.update_of_ne hj, Function.update_of_ne hj]
  rw [dropReference]
  simp only [hl, ham₁, Option.bind_eq_bind, Option.bind_some, Option.pure_def]
  by_cases hlast : info.nRefCount - 1 = 0
  · -- the last reference: the entry goes to the end of the vector and is deleted
    rw [if_pos hlast]
    rw [← hvec₁] at hlen
    obtain ⟨am₂, hswap, hr, h₂, hend⟩ := h₁.swapRandom_end hl₁ hlen
    replace hswap : am₁.swapRandom (toUnsigned info.nRandomPos) _ = some am₂ := hswap
    obtain ⟨z, hl₂⟩ := hr.lookup hl₁
    have hb₂ : nId ∈ am₂.vvNew b := by
      rw [hr.vvNew]
      exact hb₁
    have hnone : (am₂.setNew b ((am₂.vvNew b).erase nId)).bucketsOf nId = ∅ := by
      have hsame : am₂.bucketsOf nId = am.bucketsOf nId := by
        rw [bucketsOf, bucketsOf, hr.vvNew, hnew₁]
      rw [bucketsOf_erase, ← Finset.card_eq_zero, hsame]
      omega
    have h₃ := (h₂.eraseNew hb₂).delete ((info.setRefCount (info.nRefCount - 1)).setRandomPos z)
      hl₂ hin hnone hend
    simp only [hswap, Option.bind_some]
    refine ⟨_, rfl, h₃.owed_congr ?_, hr.fixed.trans hfixed₁, hr.vvTried.trans htried₁, ?_, ?_, ?_⟩
    · intro j inf hj
      refine (howed₂ j ?_).symm
      rintro rfl
      exact absurd (hj.symm.trans (Finmap.lookup_erase _ _)) (by simp)
    · change Function.update am₂.vvNew b _ = _
      rw [hr.vvNew, hnew₁]
      change Function.update am.vvNew b ((am₂.vvNew b).erase nId) = _
      rw [hr.vvNew, hnew₁]
    · intro j hj
      change ((am₂.mapInfo.erase nId).lookup j).map _ = _
      rw [Finmap.lookup_erase_ne hj]
      exact congrFun (hr.view_core.trans hcore) j
    · left
      change ((am₂.mapInfo.erase nId).lookup nId).map _ = _
      rw [Finmap.lookup_erase]
      rfl
  · rw [if_neg hlast]
    have h₂ := h₁.eraseNew hb₁
    have hbuckets : (am₁.setNew b ((am₁.vvNew b).erase nId)).bucketsOf nId =
        (am.bucketsOf nId).erase b := by
      rw [bucketsOf_erase, bucketsOf, bucketsOf, hnew₁]
    refine ⟨_, rfl, h₂.owed_congr ?_, hfixed₁, htried₁, ?_, fun j _ ↦ congrFun hcore j,
      Or.inr ⟨congrFun hcore nId, ?_⟩⟩
    · intro j inf _
      by_cases hj : j = nId
      · subst hj
        have hval : (info.setRefCount (info.nRefCount - 1)).nRefCount = info.nRefCount - 1 := rfl
        rw [Function.update_self, Function.update_self, hval]
        omega
      · exact (howed₂ j hj).symm
    · change Function.update am₁.vvNew b ((am₁.vvNew b).erase nId) = _
      rw [hnew₁]
    · rw [hbuckets]
      omega

end

/-! ## `ShrinkNew` -/

theorem findTerrible_spec {am : CAddrMan} {l : List Nat} (nNow : Int)
    (hl : ∀ j ∈ l, ∃ info, am.mapInfo.lookup j = some info) :
    ∃ found, am.findTerrible nNow l = some found ∧ ∀ j, found = some j → j ∈ l := by
  induction l with
  | nil => exact ⟨none, rfl, nofun⟩
  | cons j l ih =>
      obtain ⟨info, hinfo⟩ := hl j List.mem_cons_self
      obtain ⟨found, hfound, hmem⟩ := ih fun i hi ↦ hl i (List.mem_cons_of_mem j hi)
      rw [findTerrible]
      simp only [hinfo, Option.bind_eq_bind, Option.bind_some]
      split
      case isTrue =>
        refine ⟨some j, rfl, ?_⟩
        rintro i hi
        obtain rfl := Option.some.inj hi
        exact List.mem_cons_self
      case isFalse => exact ⟨found, hfound, fun i hi ↦ List.mem_cons_of_mem j (hmem i hi)⟩

theorem pickOldest_spec {am : CAddrMan} {l : List Nat} {n : List Nat}
    (hl : ∀ j ∈ l, ∃ info, am.mapInfo.lookup j = some info) (hn : ∃ k ∈ n, k < l.length) :
    ∃ j ∈ l, l.zipIdx.foldlM (am.pickOldestStep n) none = some (some j) := by
  have hmem : ∀ e ∈ l.zipIdx, e.1 ∈ l := fun e he ↦ List.fst_mem_of_mem_zipIdx he
  have hstep : ∀ (done : List (Nat × Nat)) (e : Nat × Nat) (s : Option Nat), e ∈ l.zipIdx →
      (∀ j, s = some j → j ∈ l) ∧ ((∃ e' ∈ done, e'.2 ∈ n) → s.isSome) →
      ∃ s', am.pickOldestStep n s e = some s' ∧ (∀ j, s' = some j → j ∈ l) ∧
        ((∃ e' ∈ done ++ [e], e'.2 ∈ n) → s'.isSome) := by
    rintro done ⟨j, nI⟩ s he ⟨hs, hdone⟩
    have hj : j ∈ l := hmem _ he
    have hkeep : (∃ e' ∈ done ++ [(j, nI)], e'.2 ∈ n) → (∃ e' ∈ done, e'.2 ∈ n) ∨ nI ∈ n := by
      rintro ⟨e', he', hn'⟩
      rcases List.mem_append.mp he' with he' | he'
      · exact Or.inl ⟨e', he', hn'⟩
      · rw [List.mem_singleton.mp he'] at hn'
        exact Or.inr hn'
    have hsome : ∀ i, i ∈ l → ∀ i', some i = some i' → i' ∈ l := by
      rintro i hi i' hii
      rwa [← Option.some.inj hii]
    simp only [pickOldestStep]
    split
    case isTrue =>
      cases s with
      | none => exact ⟨some j, rfl, hsome j hj, fun _ ↦ rfl⟩
      | some old =>
          obtain ⟨info, hinfo⟩ := hl j hj
          obtain ⟨infoOld, hinfoOld⟩ := hl old (hs old rfl)
          simp only [hinfo, hinfoOld, Option.bind_eq_bind, Option.bind_some]
          split
          case isTrue => exact ⟨some j, rfl, hsome j hj, fun _ ↦ rfl⟩
          case isFalse => exact ⟨some old, rfl, hs, fun _ ↦ rfl⟩
    case isFalse hnot =>
      exact ⟨s, rfl, hs, fun hex ↦ hdone ((hkeep hex).resolve_right hnot)⟩
  obtain ⟨s, hrun, hs, hall⟩ := Loop.foldlM_spec (I := fun (done : List (Nat × Nat)) s ↦
    (∀ j, s = some j → j ∈ l) ∧ ((∃ e' ∈ done, e'.2 ∈ n) → s.isSome)) hstep
    ⟨fun j hj ↦ absurd hj.symm (Option.some_ne_none j), fun ⟨_, he, _⟩ ↦
      absurd he List.not_mem_nil⟩
  obtain ⟨k, hk, hlt⟩ := hn
  have hsome : s.isSome := by
    refine hall ⟨(l[k], k), ?_, hk⟩
    rw [List.mem_zipIdx_iff_getElem?]
    exact List.getElem?_eq_getElem hlt
  obtain ⟨j, rfl⟩ := Option.isSome_iff_exists.mp hsome
  exact ⟨j, hs j rfl, hrun⟩

/-- `ShrinkNew` takes one of the entries out of the bucket. -/
theorem shrinkNew_spec {am : CAddrMan} {owed : Nat → Int} {missing : Int} {b : NewBucket}
    (rand : Nat → Nat) (nNow : Int) (h : am.Inv owed missing) (hlen : am.vRandom.length < 2 ^ 32)
    (hne : (am.vvNew b).Nonempty) (howed : ∀ j ∈ am.vvNew b, owed j = 0) :
    ∃ j ∈ am.vvNew b, ∃ am', shrinkNew rand nNow am b = some am' ∧ am'.Inv owed missing ∧
      am.Dropped am' b j := by
  have hmem : ∀ j, j ∈ (am.vvNew b).sort (· ≤ ·) ↔ j ∈ am.vvNew b := fun j ↦ Finset.mem_sort _
  have hlookup : ∀ j ∈ (am.vvNew b).sort (· ≤ ·), ∃ info, am.mapInfo.lookup j = some info := by
    intro j hj
    obtain ⟨info, hl, -⟩ := h.exists_lookup_of_new ((hmem j).mp hj)
    exact ⟨info, hl⟩
  have hlenSort : 0 < ((am.vvNew b).sort (· ≤ ·)).length := by
    rw [Finset.length_sort]
    exact Finset.card_pos.mpr hne
  obtain ⟨found, hfound, hin⟩ := findTerrible_spec nNow hlookup
  rw [shrinkNew]
  simp only [hfound, Option.bind_eq_bind, Option.bind_some]
  cases found with
  | some j =>
      have hj := (hmem j).mp (hin j rfl)
      obtain ⟨am', hdrop, h', hdropped⟩ := dropReference_spec h hj (howed j hj) hlen
      exact ⟨j, hj, am', hdrop, h', hdropped⟩
  | none =>
      obtain ⟨j, hj, hpick⟩ := pickOldest_spec
        (n := (List.range 4).map fun k ↦ getRandInt (rand k) ((am.vvNew b).sort (· ≤ ·)).length)
        hlookup ⟨_, List.mem_map_of_mem (List.mem_range.mpr (by decide : 0 < 4)),
          getRandInt_lt hlenSort⟩
      have hj' := (hmem j).mp hj
      obtain ⟨am', hdrop, h', hdropped⟩ := dropReference_spec h hj' (howed j hj') hlen
      refine ⟨j, hj', am', ?_, h', hdropped⟩
      simp only [hpick, Option.bind_some]
      exact hdrop

/-! ## `MakeTried` -/

/-- `SelectTried` shuffles the bucket and chooses a position in it. -/
theorem selectTried_spec {am : CAddrMan} {k : TriedBucket} (rand : Nat → Nat)
    (hlookup : ∀ j ∈ am.vvTried k, ∃ info, am.mapInfo.lookup j = some info)
    (hne : 0 < (am.vvTried k).length) :
    ∃ l nPos, selectTried rand am k = some (am.setTried k l, nPos) ∧ l.Perm (am.vvTried k) ∧
      nPos < l.length := by
  have hstep : ∀ (done : List Nat) (i : Nat) (s : List Nat × Option (Nat × Nat)),
      i ∈ List.range (min addrmanTriedEntriesInspectOnEvict (am.vvTried k).length) →
      (s.1.Perm (am.vvTried k) ∧
        (∀ o, s.2 = some o → o.1 ∈ am.vvTried k ∧ o.2 < (am.vvTried k).length) ∧
        (done ≠ [] → s.2.isSome)) →
      ∃ s', selectTriedStep rand am s i = some s' ∧ s'.1.Perm (am.vvTried k) ∧
        (∀ o, s'.2 = some o → o.1 ∈ am.vvTried k ∧ o.2 < (am.vvTried k).length) ∧
        (done ++ [i] ≠ [] → s'.2.isSome) := by
    rintro done i ⟨vTried, oldest⟩ hi ⟨hperm, hold, -⟩
    have hlen : vTried.length = (am.vvTried k).length := hperm.length_eq
    have hilt : i < vTried.length := by
      rw [hlen]
      exact (List.mem_range.mp hi).trans_le (Nat.min_le_right _ _)
    have hpos : getRandInt (rand i) (vTried.length - i) + i < vTried.length := by
      have hr := getRandInt_lt (r := rand i) (Nat.sub_pos_of_lt hilt)
      omega
    rw [selectTriedStep]
    generalize getRandInt (rand i) (vTried.length - i) + i = nPos at hpos ⊢
    have htemp : vTried[nPos]? = some vTried[nPos] := List.getElem?_eq_getElem hpos
    have hfirst : vTried[i]? = some vTried[i] := List.getElem?_eq_getElem hilt
    have hswap : ((vTried.set nPos vTried[i]).set i vTried[nPos]).Perm (am.vvTried k) :=
      (List.set_set_perm hpos hilt).trans hperm
    have hmem : vTried[nPos] ∈ am.vvTried k := hperm.mem_iff.mp (List.getElem_mem hpos)
    have hchosen : ∀ o, some (vTried[nPos], nPos) = some o →
        o.1 ∈ am.vvTried k ∧ o.2 < (am.vvTried k).length := by
      rintro o ho
      obtain rfl := Option.some.inj ho
      exact ⟨hmem, hlen ▸ hpos⟩
    simp only [htemp, hfirst, Option.bind_eq_bind, Option.bind_some]
    cases oldest with
    | none => exact ⟨_, rfl, hswap, hchosen, fun _ ↦ rfl⟩
    | some o =>
        obtain ⟨info, hinfo⟩ := hlookup _ hmem
        obtain ⟨infoOld, hinfoOld⟩ := hlookup o.1 (hold o rfl).1
        simp only [hinfo, hinfoOld, Option.bind_some]
        split
        case isTrue => exact ⟨_, rfl, hswap, hchosen, fun _ ↦ rfl⟩
        case isFalse => exact ⟨_, rfl, hswap, hold, fun _ ↦ rfl⟩
  obtain ⟨⟨l, oldest⟩, hrun, hperm, hold, hsome⟩ := Loop.foldlM_spec
    (I := fun (done : List Nat) (s : List Nat × Option (Nat × Nat)) ↦ s.1.Perm (am.vvTried k) ∧
      (∀ o, s.2 = some o → o.1 ∈ am.vvTried k ∧ o.2 < (am.vvTried k).length) ∧
      (done ≠ [] → s.2.isSome)) (s := (am.vvTried k, none)) hstep
    ⟨List.Perm.refl _, fun o ho ↦ absurd ho.symm (Option.some_ne_none o),
      fun hnil ↦ absurd rfl hnil⟩
  have hrange : List.range (min addrmanTriedEntriesInspectOnEvict (am.vvTried k).length) ≠ [] := by
    rw [ne_eq, List.range_eq_nil]
    exact Nat.ne_of_gt (Nat.lt_min.mpr ⟨by decide, hne⟩)
  obtain ⟨o, rfl⟩ := Option.isSome_iff_exists.mp (hsome hrange)
  refine ⟨l, o.2, ?_, hperm, hperm.length_eq ▸ (hold o rfl).2⟩
  rw [selectTried]
  simp only [hrun, Option.bind_eq_bind, Option.bind_some, Option.pure_def]

/-- The loop of `MakeTried` takes the entry out of all new buckets. -/
theorem removeFromBuckets_spec {am : CAddrMan} {owed : Nat → Int} {missing : Int} (nId : Nat)
    (h : am.Inv owed missing) :
    ∃ am', (List.finRange 256).foldlM (removeFromBucket nId) am = some am' ∧
      am'.Inv owed missing ∧ am'.fixed = am.fixed ∧ am'.vvTried = am.vvTried ∧
      am'.view CAddrInfo.core = am.view CAddrInfo.core ∧
      ∀ b, am'.vvNew b = (am.vvNew b).erase nId := by
  have hstep : ∀ (done : List NewBucket) (b : NewBucket) (s : CAddrMan), b ∈ List.finRange 256 →
      (s.Inv owed missing ∧ s.fixed = am.fixed ∧ s.vvTried = am.vvTried ∧
        s.view CAddrInfo.core = am.view CAddrInfo.core ∧
        ∀ b, s.vvNew b = am.vvNew b ∧ (b ∈ done → nId ∉ am.vvNew b) ∨
          s.vvNew b = (am.vvNew b).erase nId) →
      ∃ s', removeFromBucket nId s b = some s' ∧ s'.Inv owed missing ∧ s'.fixed = am.fixed ∧
        s'.vvTried = am.vvTried ∧ s'.view CAddrInfo.core = am.view CAddrInfo.core ∧
        ∀ b', s'.vvNew b' = am.vvNew b' ∧ (b' ∈ done ++ [b] → nId ∉ am.vvNew b') ∨
          s'.vvNew b' = (am.vvNew b').erase nId := by
    rintro done b s - ⟨hs, hfixed, htried, hview, hnew⟩
    rw [removeFromBucket]
    by_cases hb : nId ∈ s.vvNew b
    · rw [if_pos hb]
      obtain ⟨info, hl, -⟩ := hs.exists_lookup_of_new hb
      have h₁ := hs.setInfo (info.setRefCount (info.nRefCount - 1)) hl rfl rfl rfl
      have hval : (info.setRefCount (info.nRefCount - 1)).nRefCount = info.nRefCount - 1 := rfl
      have h₂ := h₁.eraseNew (b := b) hb
      rw [hval, Function.update_self, Function.update_idem,
        show owed nId + (info.nRefCount - 1 - info.nRefCount) + 1 = owed nId by omega,
        Function.update_eq_self] at h₂
      simp only [hl, Option.bind_eq_bind, Option.bind_some, Option.pure_def]
      refine ⟨_, rfl, h₂, hfixed, htried, (view_core_setInfo _ hl (by rfl)).trans hview, ?_⟩
      intro b'
      change Function.update s.vvNew b ((s.vvNew b).erase nId) b' = _ ∧ _ ∨
        Function.update s.vvNew b ((s.vvNew b).erase nId) b' = _
      by_cases hbb : b' = b
      · subst hbb
        rw [Function.update_self]
        rcases hnew b' with ⟨heq, -⟩ | heq
        · exact Or.inr (by rw [heq])
        · exact Or.inr (by rw [heq, Finset.erase_idem])
      · rw [Function.update_of_ne hbb]
        refine (hnew b').imp_left fun ⟨heq, hdone⟩ ↦ ⟨heq, fun hmem ↦ hdone ?_⟩
        exact (List.mem_append.mp hmem).resolve_right fun hb' ↦ hbb (List.mem_singleton.mp hb')
    · rw [if_neg hb]
      refine ⟨s, rfl, hs, hfixed, htried, hview, ?_⟩
      intro b'
      refine (hnew b').imp_left fun ⟨heq, hdone⟩ ↦ ⟨heq, fun hmem ↦ ?_⟩
      rcases List.mem_append.mp hmem with hmem | hmem
      · exact hdone hmem
      · obtain rfl := List.mem_singleton.mp hmem
        exact heq ▸ hb
  obtain ⟨am', hrun, h', hfixed, htried, hview, hnew⟩ := Loop.foldlM_spec
    (I := fun (done : List NewBucket) (s : CAddrMan) ↦ s.Inv owed missing ∧ s.fixed = am.fixed ∧
      s.vvTried = am.vvTried ∧ s.view CAddrInfo.core = am.view CAddrInfo.core ∧
      ∀ b, s.vvNew b = am.vvNew b ∧ (b ∈ done → nId ∉ am.vvNew b) ∨
        s.vvNew b = (am.vvNew b).erase nId) hstep
    ⟨h, rfl, rfl, rfl, fun b ↦ Or.inl ⟨rfl, nofun⟩⟩
  refine ⟨am', hrun, h', hfixed, htried, hview, fun b ↦ ?_⟩
  rcases hnew b with ⟨heq, hdone⟩ | heq
  · rw [heq, Finset.erase_eq_of_notMem (hdone (List.mem_finRange b))]
  · exact heq

/-- Nothing is pending. -/
structure Settled (am : CAddrMan) : Prop where
  inv : am.Inv (fun _ ↦ 0) 0
  limits : am.Limits fun _ ↦ 0

/-- What moving an entry to the tried buckets leaves alone, and where the entry is then. -/
structure Tried (am am' : CAddrMan) (nId : Nat) (k : TriedBucket) : Prop where
  fixed : am'.fixed = am.fixed
  view : am'.view (fun info ↦ info.core.setInTried false) =
    am.view fun info ↦ info.core.setInTried false
  mem_vvTried : ∀ j b, j ∈ am'.vvTried b → j ∈ am.vvTried b ∨ j = nId ∧ b = k
  fInTried : ∀ j, am'.view (·.fInTried) j = some true →
    j = nId ∨ am.view (·.fInTried) j = some true

section

variable {E : AddrEnv} {am am₁ : CAddrMan} {nId : Nat} {info : CAddrInfo} {nOrigin : NewBucket}
  {k : TriedBucket}

/-- The entry is out of the new buckets, and not counted. -/
structure Removed (am am₁ : CAddrMan) (nId : Nat) : Prop where
  inv : am₁.Inv (fun _ ↦ 0) 1
  fixed : am₁.fixed = am.fixed
  vvTried : am₁.vvTried = am.vvTried
  view_core : am₁.view CAddrInfo.core = am.view CAddrInfo.core
  vvNew : ∀ b, am₁.vvNew b = (am.vvNew b).erase nId

namespace Removed

theorem bucketsOf_self (h : Removed am am₁ nId) : am₁.bucketsOf nId = ∅ := by
  rw [Finset.eq_empty_iff_forall_notMem]
  intro b hb
  rw [mem_bucketsOf, h.vvNew] at hb
  exact Finset.notMem_erase nId _ hb

theorem bucketsOf_of_ne (h : Removed am am₁ nId) {j : Nat} (hj : j ≠ nId) :
    am₁.bucketsOf j = am.bucketsOf j := by
  ext b
  rw [mem_bucketsOf, mem_bucketsOf, h.vvNew, Finset.mem_erase]
  exact and_iff_right hj

theorem card_vvNew_le (h : Removed am am₁ nId) (hlim : am.Limits fun _ ↦ 0) (b : NewBucket) :
    (am₁.vvNew b).card ≤ addrmanNewBucketSize := by
  rw [h.vvNew]
  exact (Finset.card_le_card (Finset.erase_subset _ _)).trans (hlim.new_le b)

/-- There is place in the bucket that the entry came from. -/
theorem card_vvNew_lt (h : Removed am am₁ nId) (hlim : am.Limits fun _ ↦ 0) {b : NewBucket}
    (hb : nId ∈ am.vvNew b) : (am₁.vvNew b).card < addrmanNewBucketSize := by
  have hcard := Finset.card_erase_add_one hb
  have hle := hlim.new_le b
  rw [h.vvNew]
  omega

theorem limits (h : Removed am am₁ nId) (hlim : am.Limits fun _ ↦ 0) {j : Nat} (hj : j ≠ nId)
    (hview : am.view (·.fInTried) j = some false) : 1 ≤ (am₁.bucketsOf j).card := by
  rw [h.bucketsOf_of_ne hj]
  exact hlim.one_le j hview rfl

theorem le_four (h : Removed am am₁ nId) (hlim : am.Limits fun _ ↦ 0) (j : Nat) :
    (am₁.bucketsOf j).card ≤ addrmanNewBucketsPerAddress := by
  by_cases hj : j = nId
  · rw [hj, h.bucketsOf_self]
    exact Nat.zero_le _
  · rw [h.bucketsOf_of_ne hj]
    exact hlim.le_four j

/-- There is place in the tried bucket. -/
theorem enter (h : Removed am am₁ nId) (hlim : am.Limits fun _ ↦ 0)
    (hl : am₁.mapInfo.lookup nId = some info) (hin : info.fInTried = false)
    (hlt : (am₁.vvTried k).length < addrmanTriedBucketSize) :
    (((am₁.setTried k (am₁.vvTried k ++ [nId])).countTried 1).setInfo nId
      (info.setInTried true)).Settled ∧
    am.Tried (((am₁.setTried k (am₁.vvTried k ++ [nId])).countTried 1).setInfo nId
      (info.setInTried true)) nId k := by
  have hview : ∀ {α : Type} (f : CAddrInfo → α),
      (((am₁.setTried k (am₁.vvTried k ++ [nId])).countTried 1).setInfo nId
        (info.setInTried true)).view f =
          Function.update (am₁.view f) nId (some (f (info.setInTried true))) := fun f ↦ view_setInfo
  have hflag : ∀ j, j ≠ nId → am₁.view (·.fInTried) j = am.view (·.fInTried) j := fun j _ ↦
    view_of_core (fun _ ↦ rfl) (congrFun h.view_core j)
  constructor
  · refine ⟨h.inv.enterTried hl hin h.bucketsOf_self, ?_, h.card_vvNew_le hlim, ?_, h.le_four hlim⟩
    · intro b
      change (Function.update am₁.vvTried k _ b).length ≤ _
      by_cases hb : b = k
      · subst hb
        rw [Function.update_self, List.length_append]
        exact hlt
      · rw [Function.update_of_ne hb, h.vvTried]
        exact hlim.tried_le b
    · intro j hj _
      rw [hview] at hj
      by_cases hjn : j = nId
      · subst hjn
        rw [Function.update_self] at hj
        exact absurd (Option.some.inj hj) (by simp [CAddrInfo.setInTried])
      · rw [Function.update_of_ne hjn, hflag j hjn] at hj
        exact h.limits hlim hjn hj
  · refine ⟨h.fixed, ?_, ?_, ?_⟩
    · refine (view_setInfo_of_eq hl (by rfl)).trans ?_
      funext j
      exact view_of_core (fun _ ↦ rfl) (congrFun h.view_core j)
    · intro j b hj
      rw [← h.vvTried]
      change j ∈ (am₁.setTried k _).vvTried b at hj
      rw [mem_setTried] at hj
      split at hj
      case isTrue hb =>
        subst hb
        rcases List.mem_append.mp hj with hj | hj
        · exact Or.inl hj
        · exact Or.inr ⟨List.mem_singleton.mp hj, rfl⟩
      case isFalse => exact Or.inl hj
    · intro j hj
      by_cases hjn : j = nId
      · exact Or.inl hjn
      · rw [hview, Function.update_of_ne hjn, hflag j hjn] at hj
        exact Or.inr hj

end Removed

/-- An entry of a full tried bucket goes back to a new bucket, and another takes its place. -/
structure Evicted (am₁ am' : CAddrMan) (k : TriedBucket) (vTried : List Nat) (nTarget : NewBucket)
    (nId nOld : Nat) (info infoOld : CAddrInfo) : Prop where
  fixed : am'.fixed = am₁.fixed
  view : ∀ {α : Type} (f : CAddrInfo → α), am'.view f =
    Function.update (Function.update (am₁.view f) nOld
      (some (f ((infoOld.setRefCount 1).setInTried false)))) nId
        (some (f (info.setInTried true)))
  vvTried : ∀ b, am'.vvTried b = if b = k then vTried else am₁.vvTried b
  vvNew : am'.vvNew = Function.update am₁.vvNew nTarget (insert nOld (am₁.vvNew nTarget))

section Eviction

variable {am' : CAddrMan} {l vTried : List Nat} {nPos nOld : Nat} {infoOld : CAddrInfo}
  {nTarget : NewBucket}

/-- The updates of `MakeTried` for a full bucket. -/
theorem evicted_of_eq
    (ham' : am' = (((((am₁.setTried k l).setInfo nOld
      ((infoOld.setRefCount 1).setInTried false)).setNew nTarget
        (insert nOld (am₁.vvNew nTarget))).countNew 1).setTried k vTried).setInfo nId
          (info.setInTried true)) :
    Evicted am₁ am' k vTried nTarget nId nOld info infoOld where
  fixed := by
    rw [ham']
    rfl
  view f := by
    rw [ham']
    exact view_setInfo.trans (congrArg (Function.update · _ _) view_setInfo)
  vvTried b := by
    rw [ham']
    change Function.update (Function.update am₁.vvTried k l) k vTried b = _
    rw [Function.update_idem, Function.update_apply]
  vvNew := by
    rw [ham']
    rfl

namespace Evicted

variable (he : Evicted am₁ am' k vTried nTarget nId nOld info infoOld)

include he

theorem bucketsOf (hnone : am₁.bucketsOf nOld = ∅) (j : Nat) :
    am'.bucketsOf j = if j = nOld then {nTarget} else am₁.bucketsOf j := by
  have hsame : am'.bucketsOf j = (am₁.setNew nTarget
      (insert nOld (am₁.vvNew nTarget))).bucketsOf j := by
    rw [CAddrMan.bucketsOf, he.vvNew]
    rfl
  rw [hsame]
  split
  case isTrue hj =>
    subst hj
    rw [bucketsOf_insert, hnone]
    rfl
  case isFalse hj => exact bucketsOf_insert_of_ne hj

/-- An entry in the new buckets is the evicted one, or was there. -/
theorem fInTried_eq {j : Nat} {fInTried : Bool}
    (hj : am'.view (·.fInTried) j = some fInTried) (hjn : j ≠ nId) :
    j = nOld ∧ fInTried = false ∨ j ≠ nOld ∧ am₁.view (·.fInTried) j = some fInTried := by
  rw [he.view, Function.update_of_ne hjn] at hj
  by_cases hjold : j = nOld
  · subst hjold
    rw [Function.update_self] at hj
    exact Or.inl ⟨rfl, (Option.some.inj hj).symm⟩
  · rw [Function.update_of_ne hjold] at hj
    exact Or.inr ⟨hjold, hj⟩

theorem fInTried_self : am'.view (·.fInTried) nId = some true := by
  rw [he.view, Function.update_self]
  rfl

/-- The limits hold where the new bucket has place. -/
theorem limits (h : Removed am am₁ nId) (hlim : am.Limits fun _ ↦ 0)
    (hnone : am₁.bucketsOf nOld = ∅) (hlength : vTried.length = (am₁.vvTried k).length)
    (hroom : (am₁.vvNew nTarget).card < addrmanNewBucketSize) : am'.Limits fun _ ↦ 0 := by
  refine ⟨fun b ↦ ?_, fun b ↦ ?_, fun j hj _ ↦ ?_, fun j ↦ ?_⟩
  · rw [he.vvTried]
    split
    case isTrue hb =>
      rw [hlength, h.vvTried]
      exact hlim.tried_le k
    case isFalse =>
      rw [h.vvTried]
      exact hlim.tried_le b
  · rw [he.vvNew]
    by_cases hb : b = nTarget
    · subst hb
      rw [Function.update_self]
      exact (Finset.card_insert_le _ _).trans hroom
    · rw [Function.update_of_ne hb]
      exact h.card_vvNew_le hlim b
  · rw [he.bucketsOf hnone]
    split
    case isTrue => exact Nat.le_refl 1
    case isFalse hjold =>
      by_cases hjn : j = nId
      · subst hjn
        exact absurd (Option.some.inj (hj.symm.trans he.fInTried_self)) (by simp)
      · obtain ⟨hjold', -⟩ | ⟨-, hview⟩ := he.fInTried_eq hj hjn
        · exact absurd hjold' hjold
        · rw [view_of_core (fun _ ↦ rfl) (congrFun h.view_core j)] at hview
          exact h.limits hlim hjn hview
  · rw [he.bucketsOf hnone]
    split
    case isTrue => exact (by decide : 1 ≤ addrmanNewBucketsPerAddress)
    case isFalse => exact h.le_four hlim j

/-- The other entries stay in their tried buckets. -/
theorem tried (h : Removed am am₁ nId) (hl : am₁.mapInfo.lookup nId = some info)
    (hlOld : am₁.mapInfo.lookup nOld = some infoOld)
    (hmem : ∀ j ∈ vTried, j ∈ am₁.vvTried k ∨ j = nId) : am.Tried am' nId k := by
  refine ⟨he.fixed.trans h.fixed, ?_, fun j b hj ↦ ?_, fun j hj ↦ ?_⟩
  · rw [he.view]
    funext j
    have hstats : am₁.view (fun info ↦ info.core.setInTried false) j =
        am.view (fun info ↦ info.core.setInTried false) j :=
      view_of_core (fun _ ↦ rfl) (congrFun h.view_core j)
    rw [← hstats]
    by_cases hjn : j = nId
    · subst hjn
      rw [Function.update_self, view_of_lookup hl]
      rfl
    · rw [Function.update_of_ne hjn]
      by_cases hjold : j = nOld
      · subst hjold
        rw [Function.update_self, view_of_lookup hlOld]
        rfl
      · rw [Function.update_of_ne hjold]
  · rw [← h.vvTried]
    rw [he.vvTried] at hj
    split at hj
    case isTrue hb =>
      subst hb
      exact (hmem j hj).imp_right fun hjn ↦ ⟨hjn, rfl⟩
    case isFalse => exact Or.inl hj
  · by_cases hjn : j = nId
    · exact Or.inl hjn
    · obtain ⟨-, hfalse⟩ | ⟨-, hview⟩ := he.fInTried_eq hj hjn
      · cases hfalse
      · rw [view_of_core (fun _ ↦ rfl) (congrFun h.view_core j)] at hview
        exact Or.inr hview

end Evicted

/-- The invariant, update by update. -/
theorem Removed.inv_evict (h : Removed am am₁ nId) (hl : am₁.mapInfo.lookup nId = some info)
    (hin : info.fInTried = false) (hperm : l.Perm (am₁.vvTried k)) (hget : l[nPos]? = some nOld)
    (hlOld : am₁.mapInfo.lookup nOld = some infoOld) (hne : nId ≠ nOld)
    (hnone : am₁.bucketsOf nOld = ∅)
    (ham' : am' = (((((am₁.setTried k l).setInfo nOld
      ((infoOld.setRefCount 1).setInTried false)).setNew nTarget
        (insert nOld (am₁.vvNew nTarget))).countNew 1).setTried k (l.set nPos nId)).setInfo nId
          (info.setInTried true)) :
    am'.Inv (fun _ ↦ 0) 0 := by
  obtain ⟨hlt, hget'⟩ := List.getElem?_eq_some_iff.mp hget
  have hold : l.Perm (nOld :: l.eraseIdx nPos) := by
    rw [← hget']
    exact (List.getElem_cons_eraseIdx_perm hlt).symm
  have hnew : (l.set nPos nId).Perm (nId :: l.eraseIdx nPos) :=
    List.set_perm_cons_eraseIdx hlt nId
  have href : infoOld.nRefCount = 0 := by
    rw [h.inv.nRefCount_eq nOld _ (view_of_lookup hlOld), hnone]
    rfl
  have h₂ := h.inv.permTried hperm
  have h₃ := h₂.setInfo (infoOld.setRefCount 1) hlOld rfl rfl rfl
  have hlOld₃ : ((am₁.setTried k l).setInfo nOld (infoOld.setRefCount 1)).mapInfo.lookup nOld =
      some (infoOld.setRefCount 1) := Finmap.lookup_insert _
  have hl₃ : ((am₁.setTried k l).setInfo nOld (infoOld.setRefCount 1)).mapInfo.lookup nId =
      some info := (Finmap.lookup_insert_of_ne _ hne).trans hl
  have hold₃ : (((am₁.setTried k l).setInfo nOld (infoOld.setRefCount 1)).vvTried k).Perm
      (nOld :: l.eraseIdx nPos) := by
    change (Function.update am₁.vvTried k l k).Perm _
    rw [Function.update_self]
    exact hold
  have h₄ := h₃.replaceTried hold₃ hnew hlOld₃ hl₃ hin h.bucketsOf_self
  generalize ham₄ : (((am₁.setTried k l).setInfo nOld (infoOld.setRefCount 1)).setTried k
    (l.set nPos nId)).setInfo nOld ((infoOld.setRefCount 1).setInTried false) = am₄ at h₄
  have hstate : am' = ((am₄.setInfo nId (info.setInTried true)).setNew nTarget
      (insert nOld ((am₄.setInfo nId (info.setInTried true)).vvNew nTarget))).countNew 1 := by
    rw [ham', ← ham₄]
    simp only [CAddrMan.setInfo, CAddrMan.setTried, CAddrMan.setNew, CAddrMan.countNew,
      Finmap.insert_insert]
  have hnotOld : nOld ∉ (am₄.setInfo nId (info.setInTried true)).vvNew nTarget := by
    rw [← ham₄]
    exact notMem_of_bucketsOf_eq_empty hnone nTarget
  have hflagOld : (am₄.setInfo nId (info.setInTried true)).view (·.fInTried) nOld = some false := by
    rw [view_setInfo, Function.update_of_ne (Ne.symm hne), ← ham₄, view_setInfo,
      Function.update_self]
    rfl
  have h₅ := (h₄.insertNew hflagOld hnotOld).countNew 1
  rw [← hstate] at h₅
  refine h₅.owed_congr fun j _ _ ↦ ?_
  have hval : (infoOld.setRefCount 1).nRefCount = 1 := rfl
  rw [hval, href, Function.update_self, Function.update_idem]
  by_cases hj : j = nOld
  · subst hj
    rw [Function.update_self]
    rfl
  · rw [Function.update_of_ne hj]

/-- The tried bucket is full: an entry of it goes back to a new bucket that has place. -/
theorem Removed.evict (h : Removed am am₁ nId) (hlim : am.Limits fun _ ↦ 0)
    (hl : am₁.mapInfo.lookup nId = some info) (hin : info.fInTried = false)
    (hperm : l.Perm (am₁.vvTried k)) (hget : l[nPos]? = some nOld)
    (hlOld : am₁.mapInfo.lookup nOld = some infoOld)
    (hroom : (am₁.vvNew nTarget).card < addrmanNewBucketSize)
    (ham' : am' = (((((am₁.setTried k l).setInfo nOld
      ((infoOld.setRefCount 1).setInTried false)).setNew nTarget
        (insert nOld (am₁.vvNew nTarget))).countNew 1).setTried k (l.set nPos nId)).setInfo nId
          (info.setInTried true)) :
    am'.Settled ∧ am.Tried am' nId k := by
  have hmemOld : nOld ∈ am₁.vvTried k := hperm.mem_iff.mp (List.mem_of_getElem? hget)
  have hinOld : infoOld.fInTried = true := by
    obtain ⟨inf, hinf, htrue⟩ := h.inv.exists_lookup_of_tried hmemOld
    rwa [← Option.some.inj (hlOld.symm.trans hinf)] at htrue
  have hne : nId ≠ nOld := by
    rintro rfl
    exact h.inv.notMem_vvTried hl hin k hmemOld
  have hnone := h.inv.bucketsOf_eq_empty hlOld hinOld
  have he := evicted_of_eq ham'
  have hlength : (l.set nPos nId).length = (am₁.vvTried k).length := by
    rw [List.length_set, hperm.length_eq]
  constructor
  · exact ⟨h.inv_evict hl hin hperm hget hlOld hne hnone ham',
      he.limits h hlim hnone hlength hroom⟩
  · refine he.tried h hl hlOld fun j hj ↦ ?_
    exact (List.mem_or_eq_of_mem_set hj).imp_left hperm.mem_iff.mp

end Eviction

/-- `MakeTried` moves the entry to the tried buckets. -/
theorem makeTried_spec (rand : Nat → Nat) (h : am.Settled)
    (hl : am.mapInfo.lookup nId = some info) (hb : nId ∈ am.vvNew nOrigin) :
    ∃ am', makeTried E rand am nId nOrigin = some am' ∧ am'.Settled ∧
      am.Tried am' nId (E.getTriedBucket am.nKey info.toCService) := by
  obtain ⟨am₀, hremove, hinv, hfixed, htried, hview, hnew⟩ := removeFromBuckets_spec nId h.inv
  have hr : Removed am (am₀.countNew (-1)) nId :=
    ⟨hinv.countNew (-1), hfixed, htried, hview, hnew⟩
  have hflag := view_of_core (f := (·.fInTried)) (fun _ ↦ rfl) (congrFun hr.view_core nId)
  have hservice := view_of_core (f := (·.toCService)) (fun _ ↦ rfl) (congrFun hr.view_core nId)
  rw [view_of_lookup hl] at hservice
  obtain ⟨info₁, hl₁, heq⟩ := view_eq_some hservice
  have hin₁ : info₁.fInTried = false := by
    rw [h.inv.new_view nId nOrigin hb, view_of_lookup hl₁] at hflag
    exact Option.some.inj hflag
  have href₁ : info₁.nRefCount = 0 := by
    rw [hr.inv.nRefCount_eq nId _ (view_of_lookup hl₁), hr.bucketsOf_self]
    rfl
  have hnKey : (am₀.countNew (-1)).nKey = am.nKey := congrArg Prod.fst hfixed
  rw [makeTried]
  simp only [hb, hremove, hl₁, href₁, heq, hnKey, guard_true, Option.pure_def, Option.bind_eq_bind,
    Option.bind_some]
  generalize hk : E.getTriedBucket am.nKey info.toCService = k
  generalize ham₁ : am₀.countNew (-1) = am₁ at hr hl₁ hnKey
  by_cases hlt : (am₁.vvTried k).length < addrmanTriedBucketSize
  · rw [if_pos hlt]
    exact ⟨_, rfl, hr.enter h.limits hl₁ hin₁ hlt⟩
  · rw [if_neg hlt]
    have hpos : 0 < (am₁.vvTried k).length :=
      Nat.lt_of_lt_of_le (by decide : 0 < addrmanTriedBucketSize) (Nat.le_of_not_lt hlt)
    obtain ⟨l, nPos, hselect, hperm, hposlt⟩ := selectTried_spec rand
      (fun j hj ↦ (hr.inv.exists_lookup_of_tried hj).imp fun _ ↦ And.left) hpos
    have hget : l[nPos]? = some l[nPos] := List.getElem?_eq_getElem hposlt
    generalize l[nPos] = nOld at hget
    have hmemOld : nOld ∈ am₁.vvTried k := hperm.mem_iff.mp (List.mem_of_getElem? hget)
    obtain ⟨infoOld, hlOld, hinOld⟩ := hr.inv.exists_lookup_of_tried hmemOld
    have hne : nId ≠ nOld := by
      rintro rfl
      exact hr.inv.notMem_vvTried hl₁ hin₁ k hmemOld
    have hself : (am₁.setTried k l).vvTried k = l := by
      change Function.update am₁.vvTried k l k = l
      rw [Function.update_self]
    have hget' : ((am₁.setTried k l).vvTried k)[nPos]? = some nOld := by
      rw [hself]
      exact hget
    have hlOld' : (am₁.setTried k l).mapInfo.lookup nOld = some infoOld := hlOld
    simp only [hselect, hget', hlOld', Option.bind_some]
    generalize hT : (if (((am₁.setTried k l).setInfo nOld _).vvNew _).card < _ then _
      else nOrigin) = nTarget
    generalize hs : CAddrMan.setTried (CAddrMan.countNew _ 1) k _ = s
    have hroom : (am₁.vvNew nTarget).card < addrmanNewBucketSize := by
      rw [← hT]
      split
      case isTrue hplace => exact hplace
      case isFalse => exact hr.card_vvNew_lt h.limits hb
    have hl₂ : s.mapInfo.lookup nId = some info₁ := by
      rw [← hs]
      exact (Finmap.lookup_insert_of_ne _ hne).trans hl₁
    have hvec : ∀ am₂ : CAddrMan, am₂.vvTried = (am₁.setTried k l).vvTried → am₂.vvTried k = l := by
      intro am₂ hv
      rw [hv, hself]
    rw [hl₂]
    refine ⟨_, rfl, hr.evict h.limits hl₁ hin₁ hperm hget hlOld hroom ?_⟩
    rw [← hs, hvec]
    · rfl
    · rfl

end

end CAddrMan

end Fedoracoin
