import Fedoracoin.AddrMan
import Mathlib.Data.Fintype.BigOperators

/-!
# The invariant of the address manager

The three indices, the two families of buckets and the counters agree, up to what is pending in the
middle of a call: references that are counted and not made, and entries that are in no bucket.  Each
update of the source is a lemma about that.
-/

namespace Fedoracoin

namespace CAddrMan

/-- A field of the entries. -/
def view {α : Type} (am : CAddrMan) (f : CAddrInfo → α) (nId : Nat) : Option α :=
  (am.mapInfo.lookup nId).map f

/-- What no update but `Create` changes. -/
def fixed (am : CAddrMan) : List UInt8 × Nat := (am.nKey, am.nIdCount)

/-- The new buckets that hold an entry. -/
def bucketsOf (am : CAddrMan) (nId : Nat) : Finset NewBucket :=
  Finset.univ.filter fun b ↦ nId ∈ am.vvNew b

/-- The two indices by address and by position. -/
structure Indexed (am : CAddrMan) : Prop where
  id_lt : ∀ nId addr, am.view (·.ip) nId = some addr → nId < am.nIdCount
  mapAddr_iff : ∀ addr nId, am.mapAddr.lookup addr = some nId ↔ am.view (·.ip) nId = some addr
  points : BackPointer.Points am.vRandom (am.view (·.nRandomPos))

/-- The indices, the buckets and the counters agree.  `owed` is how many references of an entry are
counted beyond the buckets that hold it, and `missing` how many entries in no bucket are not counted
by `nNew`. -/
structure Inv (am : CAddrMan) (owed : Nat → Int) (missing : Int) : Prop extends Indexed am where
  tried_iff : ∀ nId, (∃ b, nId ∈ am.vvTried b) ↔ am.view (·.fInTried) nId = some true
  tried_unique : ∀ nId b b', nId ∈ am.vvTried b → nId ∈ am.vvTried b' → b = b'
  tried_nodup : ∀ b, (am.vvTried b).Nodup
  new_view : ∀ nId b, nId ∈ am.vvNew b → am.view (·.fInTried) nId = some false
  nRefCount_eq : ∀ nId n, am.view (·.nRefCount) nId = some n →
    n = (am.bucketsOf nId).card + owed nId
  nTried_eq : am.nTried = MapSum.count (·.fInTried) am.mapInfo
  nNew_eq : am.nNew + missing = MapSum.count (! ·.fInTried) am.mapInfo

section

variable {α : Type} {am : CAddrMan} {f : CAddrInfo → α} {nId nId' : Nat} {info info' : CAddrInfo}
  {b : NewBucket} {owed : Nat → Int} {missing : Int}

theorem view_of_lookup (hl : am.mapInfo.lookup nId = some info) :
    am.view f nId = some (f info) := by
  rw [view, hl]
  rfl

theorem view_eq_some {x : α} (h : am.view f nId = some x) :
    ∃ info, am.mapInfo.lookup nId = some info ∧ f info = x :=
  Option.map_eq_some_iff.mp h

theorem view_setInfo : (am.setInfo nId info).view f =
    Function.update (am.view f) nId (some (f info)) := by
  funext k
  by_cases hk : k = nId
  · subst hk
    rw [Function.update_self, view, setInfo, Finmap.lookup_insert]
    rfl
  · rw [Function.update_of_ne hk, view, setInfo, Finmap.lookup_insert_of_ne _ hk]
    rfl

/-- A field that an update leaves alone. -/
theorem view_setInfo_of_eq (hl : am.mapInfo.lookup nId = some info) (hf : f info' = f info) :
    (am.setInfo nId info').view f = am.view f := by
  rw [view_setInfo, hf, ← view_of_lookup hl, Function.update_eq_self]

theorem mem_bucketsOf : b ∈ am.bucketsOf nId ↔ nId ∈ am.vvNew b := by
  rw [bucketsOf, Finset.mem_filter]
  exact and_iff_right (Finset.mem_univ b)

theorem notMem_of_bucketsOf_eq_empty (h : am.bucketsOf nId = ∅) (b : NewBucket) :
    nId ∉ am.vvNew b := by
  rw [← mem_bucketsOf, h]
  exact Finset.notMem_empty b

theorem count_setInfo_of_eq {p : CAddrInfo → Bool} (hl : am.mapInfo.lookup nId = some info)
    (hp : p info' = p info) :
    MapSum.count p (am.setInfo nId info').mapInfo = MapSum.count p am.mapInfo :=
  MapSum.count_congr p fun k ↦ congrFun (view_setInfo_of_eq (f := p) hl hp) k

end

theorem Indexed.congr {am am' : CAddrMan} (h : am.Indexed) (hid : am'.nIdCount = am.nIdCount)
    (haddr : am'.mapAddr = am.mapAddr) (hrandom : am'.vRandom = am.vRandom)
    (hip : am'.view (·.ip) = am.view (·.ip))
    (hpos : am'.view (·.nRandomPos) = am.view (·.nRandomPos)) : am'.Indexed where
  id_lt := by
    rw [hip, hid]
    exact h.id_lt
  mapAddr_iff := by
    rw [hip, haddr]
    exact h.mapAddr_iff
  points := by
    rw [hpos, hrandom]
    exact h.points

theorem Indexed.view_nIdCount {α : Type} {am : CAddrMan} (h : am.Indexed) (f : CAddrInfo → α) :
    am.view f am.nIdCount = none := by
  rw [view, Option.map_eq_none_iff]
  cases hl : am.mapInfo.lookup am.nIdCount with
  | none => rfl
  | some info => exact absurd (h.id_lt _ _ (view_of_lookup hl)) (Nat.lt_irrefl _)

/-- A new entry is indexed at the end of the vector. -/
theorem Indexed.push {am am' : CAddrMan} {info : CAddrInfo} (h : am.Indexed)
    (hnone : am.mapAddr.lookup info.ip = none) (hpos : info.nRandomPos = am.vRandom.length)
    (hid : am'.nIdCount = am.nIdCount + 1)
    (haddr : am'.mapAddr = am.mapAddr.insert info.ip am.nIdCount)
    (hrandom : am'.vRandom = am.vRandom ++ [am.nIdCount])
    (hview : ∀ {α : Type} (f : CAddrInfo → α), am'.view f =
      Function.update (am.view f) am.nIdCount (some (f info))) : am'.Indexed where
  id_lt j addr hj := by
    rw [hid]
    rw [hview] at hj
    by_cases hjn : j = am.nIdCount
    · exact hjn ▸ Nat.lt_succ_self _
    · rw [Function.update_of_ne hjn] at hj
      exact Nat.lt_succ_of_lt (h.id_lt j addr hj)
  mapAddr_iff addr j := by
    rw [hview, haddr]
    by_cases ha : addr = info.ip
    · subst ha
      rw [Finmap.lookup_insert]
      by_cases hj : j = am.nIdCount
      · subst hj
        rw [Function.update_self]
        exact iff_of_true rfl rfl
      · rw [Function.update_of_ne hj, ← h.mapAddr_iff, hnone]
        exact iff_of_false (fun heq ↦ hj (Option.some.inj heq).symm) (by simp)
    · rw [Finmap.lookup_insert_of_ne _ ha, h.mapAddr_iff]
      by_cases hj : j = am.nIdCount
      · subst hj
        rw [Function.update_self, h.view_nIdCount]
        exact iff_of_false (by simp) (fun heq ↦ ha (Option.some.inj heq).symm)
      · rw [Function.update_of_ne hj]
  points := by
    rw [hview, hrandom, hpos]
    exact h.points.push (h.view_nIdCount _)

/-- The entry at the end of the vector leaves the indices. -/
theorem Indexed.pop {am am' : CAddrMan} {nId : Nat} {info : CAddrInfo} (h : am.Indexed)
    (hl : am.mapInfo.lookup nId = some info)
    (hlast : am.vRandom[am.vRandom.length - 1]? = some nId)
    (hid : am'.nIdCount = am.nIdCount) (haddr : am'.mapAddr = am.mapAddr.erase info.ip)
    (hrandom : am'.vRandom = am.vRandom.dropLast)
    (hview : ∀ {α : Type} (f : CAddrInfo → α), am'.view f =
      Function.update (am.view f) nId none) : am'.Indexed where
  id_lt j addr hj := by
    rw [hid]
    rw [hview] at hj
    by_cases hjn : j = nId
    · subst hjn
      rw [Function.update_self] at hj
      cases hj
    · rw [Function.update_of_ne hjn] at hj
      exact h.id_lt j addr hj
  mapAddr_iff addr j := by
    rw [hview, haddr]
    by_cases ha : addr = info.ip
    · subst ha
      rw [Finmap.lookup_erase]
      refine iff_of_false (by simp) ?_
      by_cases hj : j = nId
      · subst hj
        rw [Function.update_self]
        simp
      · rw [Function.update_of_ne hj, ← h.mapAddr_iff]
        intro hj'
        have hself := (h.mapAddr_iff _ _).mpr (view_of_lookup (f := (·.ip)) hl)
        exact hj (Option.some.inj (hj'.symm.trans hself))
    · rw [Finmap.lookup_erase_ne ha, h.mapAddr_iff]
      by_cases hj : j = nId
      · subst hj
        rw [Function.update_self, view_of_lookup hl, Option.some_inj]
        exact iff_of_false (Ne.symm ha) (by simp)
      · rw [Function.update_of_ne hj]
  points := by
    rw [hview, hrandom]
    exact h.points.pop hlast

namespace Inv

variable {am : CAddrMan} {owed : Nat → Int} {missing : Int} {nId nOld : Nat}
  {info info' infoOld : CAddrInfo} {b : NewBucket} {k : TriedBucket}

theorem inTried_eq_false (h : am.Inv owed missing) (hl : am.mapInfo.lookup nId = some info)
    (hb : nId ∈ am.vvNew b) : info.fInTried = false := by
  have hview := h.new_view nId b hb
  rw [view_of_lookup hl] at hview
  exact Option.some.inj hview

theorem exists_lookup_of_new (h : am.Inv owed missing) (hb : nId ∈ am.vvNew b) :
    ∃ info, am.mapInfo.lookup nId = some info ∧ info.fInTried = false :=
  view_eq_some (h.new_view nId b hb)

theorem exists_lookup_of_tried (h : am.Inv owed missing) (hk : nId ∈ am.vvTried k) :
    ∃ info, am.mapInfo.lookup nId = some info ∧ info.fInTried = true :=
  view_eq_some ((h.tried_iff nId).mp ⟨k, hk⟩)

/-- What is in tried is in no new bucket. -/
theorem bucketsOf_eq_empty (h : am.Inv owed missing) (hl : am.mapInfo.lookup nId = some info)
    (hin : info.fInTried = true) : am.bucketsOf nId = ∅ := by
  rw [Finset.eq_empty_iff_forall_notMem]
  intro b hb
  have hfalse := h.inTried_eq_false hl (mem_bucketsOf.mp hb)
  rw [hin] at hfalse
  cases hfalse

theorem notMem_vvTried (h : am.Inv owed missing) (hl : am.mapInfo.lookup nId = some info)
    (hin : info.fInTried = false) (b : TriedBucket) : nId ∉ am.vvTried b := by
  intro hb
  have htrue := (h.tried_iff nId).mp ⟨b, hb⟩
  rw [view_of_lookup hl, hin] at htrue
  cases htrue

/-- Statistics of an entry may change. -/
theorem setInfo (h : am.Inv owed missing) (info' : CAddrInfo)
    (hl : am.mapInfo.lookup nId = some info) (hip : info'.ip = info.ip)
    (hpos : info'.nRandomPos = info.nRandomPos)
    (hin : info'.fInTried = info.fInTried) :
    (am.setInfo nId info').Inv
      (Function.update owed nId (owed nId + (info'.nRefCount - info.nRefCount))) missing where
  toIndexed := h.toIndexed.congr rfl rfl rfl (view_setInfo_of_eq hl hip)
    (view_setInfo_of_eq hl hpos)
  tried_iff := by
    rw [view_setInfo_of_eq hl hin]
    exact h.tried_iff
  tried_unique := h.tried_unique
  tried_nodup := h.tried_nodup
  new_view := by
    rw [view_setInfo_of_eq hl hin]
    exact h.new_view
  nRefCount_eq := by
    intro k n hk
    rw [view_setInfo] at hk
    by_cases hkn : k = nId
    · subst hkn
      rw [Function.update_self] at hk ⊢
      have hold := h.nRefCount_eq k _ (view_of_lookup hl)
      obtain rfl := Option.some.inj hk
      change info'.nRefCount = (am.bucketsOf k).card + _
      omega
    · rw [Function.update_of_ne hkn] at hk ⊢
      exact h.nRefCount_eq k n hk
  nTried_eq := by
    rw [count_setInfo_of_eq hl hin]
    exact h.nTried_eq
  nNew_eq := by
    rw [count_setInfo_of_eq hl (by rw [hin])]
    exact h.nNew_eq

/-- Statistics other than the reference count. -/
theorem setStats (h : am.Inv owed missing) (info' : CAddrInfo)
    (hl : am.mapInfo.lookup nId = some info) (hip : info'.ip = info.ip)
    (hpos : info'.nRandomPos = info.nRandomPos)
    (hin : info'.fInTried = info.fInTried) (href : info'.nRefCount = info.nRefCount) :
    (am.setInfo nId info').Inv owed missing := by
  have hset := h.setInfo info' hl hip hpos hin
  rwa [href, sub_self, add_zero, Function.update_eq_self] at hset

/-- What is owed to an entry that is not there does not matter. -/
theorem owed_congr {owed' : Nat → Int} (h : am.Inv owed missing)
    (howed : ∀ k info, am.mapInfo.lookup k = some info → owed' k = owed k) :
    am.Inv owed' missing where
  __ := h
  nRefCount_eq := by
    intro k n hk
    obtain ⟨info, hl, -⟩ := view_eq_some hk
    rw [howed k info hl]
    exact h.nRefCount_eq k n hk

end Inv

/-! ## The new buckets -/

theorem mem_bucketsOf_setNew {am : CAddrMan} {nId : Nat} {b b' : NewBucket} {s : Finset Nat} :
    b' ∈ (am.setNew b s).bucketsOf nId ↔ if b' = b then nId ∈ s else b' ∈ am.bucketsOf nId := by
  rw [mem_bucketsOf, setNew]
  by_cases hb : b' = b
  · subst hb
    rw [if_pos rfl]
    change nId ∈ Function.update am.vvNew b' s b' ↔ nId ∈ s
    rw [Function.update_self]
  · rw [if_neg hb, mem_bucketsOf]
    change nId ∈ Function.update am.vvNew b s b' ↔ nId ∈ am.vvNew b'
    rw [Function.update_of_ne hb]

theorem bucketsOf_erase (am : CAddrMan) (nId : Nat) (b : NewBucket) :
    (am.setNew b ((am.vvNew b).erase nId)).bucketsOf nId = (am.bucketsOf nId).erase b := by
  ext b'
  rw [mem_bucketsOf_setNew, Finset.mem_erase]
  by_cases hb : b' = b
  · subst hb
    simp
  · simp [hb]

theorem bucketsOf_erase_of_ne {am : CAddrMan} {nId k : Nat} {b : NewBucket} (hk : k ≠ nId) :
    (am.setNew b ((am.vvNew b).erase nId)).bucketsOf k = am.bucketsOf k := by
  ext b'
  rw [mem_bucketsOf_setNew]
  by_cases hb : b' = b
  · subst hb
    rw [if_pos rfl, Finset.mem_erase, mem_bucketsOf]
    exact and_iff_right hk
  · rw [if_neg hb]

theorem bucketsOf_insert (am : CAddrMan) (nId : Nat) (b : NewBucket) :
    (am.setNew b (insert nId (am.vvNew b))).bucketsOf nId = insert b (am.bucketsOf nId) := by
  ext b'
  rw [mem_bucketsOf_setNew, Finset.mem_insert]
  by_cases hb : b' = b
  · subst hb
    simp
  · simp [hb]

theorem bucketsOf_insert_of_ne {am : CAddrMan} {nId k : Nat} {b : NewBucket} (hk : k ≠ nId) :
    (am.setNew b (insert nId (am.vvNew b))).bucketsOf k = am.bucketsOf k := by
  ext b'
  rw [mem_bucketsOf_setNew]
  by_cases hb : b' = b
  · subst hb
    rw [if_pos rfl, Finset.mem_insert, mem_bucketsOf]
    exact or_iff_right hk
  · rw [if_neg hb]

namespace Inv

variable {am : CAddrMan} {owed : Nat → Int} {missing : Int} {nId nOld : Nat}
  {info info' infoOld : CAddrInfo} {b : NewBucket} {k : TriedBucket}

/-- A reference is taken back. -/
theorem eraseNew (h : am.Inv owed missing) (hb : nId ∈ am.vvNew b) :
    (am.setNew b ((am.vvNew b).erase nId)).Inv (Function.update owed nId (owed nId + 1))
      missing where
  __ := h
  toIndexed := h.toIndexed.congr rfl rfl rfl rfl rfl
  new_view := by
    intro j b' hj
    rw [← mem_bucketsOf, mem_bucketsOf_setNew] at hj
    split at hj
    case isTrue => exact h.new_view j b (Finset.mem_of_mem_erase hj)
    case isFalse => exact h.new_view j b' (mem_bucketsOf.mp hj)
  nRefCount_eq := by
    intro j n hj
    have hold := h.nRefCount_eq j n hj
    by_cases hjn : j = nId
    · subst hjn
      have hcard := Finset.card_erase_add_one (mem_bucketsOf.mpr hb)
      rw [bucketsOf_erase, Function.update_self]
      omega
    · rwa [bucketsOf_erase_of_ne hjn, Function.update_of_ne hjn]

/-- A reference is made. -/
theorem insertNew (h : am.Inv owed missing) (hview : am.view (·.fInTried) nId = some false)
    (hb : nId ∉ am.vvNew b) :
    (am.setNew b (insert nId (am.vvNew b))).Inv (Function.update owed nId (owed nId - 1))
      missing where
  __ := h
  toIndexed := h.toIndexed.congr rfl rfl rfl rfl rfl
  new_view := by
    intro j b' hj
    rw [← mem_bucketsOf, mem_bucketsOf_setNew] at hj
    split at hj
    case isTrue =>
      rcases Finset.mem_insert.mp hj with rfl | hj
      · exact hview
      · exact h.new_view j b hj
    case isFalse => exact h.new_view j b' (mem_bucketsOf.mp hj)
  nRefCount_eq := by
    intro j n hj
    have hold := h.nRefCount_eq j n hj
    by_cases hjn : j = nId
    · subst hjn
      have hcard := Finset.card_insert_of_notMem (mt mem_bucketsOf.mp hb)
      rw [bucketsOf_insert, Function.update_self]
      omega
    · rwa [bucketsOf_insert_of_ne hjn, Function.update_of_ne hjn]

/-- An entry in no bucket is counted or not. -/
theorem countNew (h : am.Inv owed missing) (n : Int) : (am.countNew n).Inv owed (missing - n) where
  __ := h
  toIndexed := h.toIndexed.congr rfl rfl rfl rfl rfl
  nNew_eq := by
    have hold := h.nNew_eq
    change am.nNew + n + (missing - n) = (MapSum.count _ am.mapInfo : Int)
    omega

end Inv

/-! ## The vector -/

/-- The states that differ in nothing but the order of `vRandom`. -/
structure Reordered (am am' : CAddrMan) : Prop where
  nKey : am'.nKey = am.nKey
  nIdCount : am'.nIdCount = am.nIdCount
  mapAddr : am'.mapAddr = am.mapAddr
  nTried : am'.nTried = am.nTried
  vvTried : am'.vvTried = am.vvTried
  nNew : am'.nNew = am.nNew
  vvNew : am'.vvNew = am.vvNew
  length : am'.vRandom.length = am.vRandom.length
  view : am'.view (·.setRandomPos 0) =
    am.view (·.setRandomPos 0)

namespace Reordered

variable {α : Type} {am am' am'' : CAddrMan} {f : CAddrInfo → α} {nId : Nat} {info : CAddrInfo}
  {owed : Nat → Int} {missing : Int}

theorem refl (am : CAddrMan) : Reordered am am := ⟨rfl, rfl, rfl, rfl, rfl, rfl, rfl, rfl, rfl⟩

theorem trans (h : Reordered am am') (h' : Reordered am' am'') : Reordered am am'' :=
  ⟨h'.nKey.trans h.nKey, h'.nIdCount.trans h.nIdCount, h'.mapAddr.trans h.mapAddr,
    h'.nTried.trans h.nTried, h'.vvTried.trans h.vvTried, h'.nNew.trans h.nNew,
    h'.vvNew.trans h.vvNew, h'.length.trans h.length, h'.view.trans h.view⟩

theorem fixed (h : Reordered am am') : am'.fixed = am.fixed := Prod.ext h.nKey h.nIdCount

/-- The other fields of the entries. -/
theorem view_eq (h : Reordered am am')
    (hf : ∀ info : CAddrInfo, f info = f (info.setRandomPos 0)) :
    am'.view f = am.view f := by
  have hcomp : ∀ am : CAddrMan, am.view f = fun nId ↦
      (am.view (·.setRandomPos 0) nId).map f := by
    intro am
    funext nId
    rw [CAddrMan.view, CAddrMan.view, Option.map_map]
    exact congrArg (Option.map · _) (funext hf)
  rw [hcomp, hcomp, h.view]

theorem lookup (h : Reordered am am') (hl : am.mapInfo.lookup nId = some info) :
    ∃ z, am'.mapInfo.lookup nId = some (info.setRandomPos z) := by
  have hview := congrFun h.view nId
  rw [view_of_lookup hl] at hview
  obtain ⟨info', hl', heq⟩ := view_eq_some hview
  refine ⟨info'.nRandomPos, ?_⟩
  rw [hl', Option.some_inj]
  have hstats := congrArg (CAddrInfo.setRandomPos · info'.nRandomPos) heq
  exact hstats

theorem inv (hr : Reordered am am') (h : am.Inv owed missing)
    (hpoints : BackPointer.Points am'.vRandom (am'.view (·.nRandomPos))) :
    am'.Inv owed missing where
  id_lt := by
    rw [hr.nIdCount, hr.view_eq fun _ ↦ rfl]
    exact h.id_lt
  mapAddr_iff := by
    rw [hr.mapAddr, hr.view_eq fun _ ↦ rfl]
    exact h.mapAddr_iff
  points := hpoints
  tried_iff := by
    rw [hr.vvTried, hr.view_eq fun _ ↦ rfl]
    exact h.tried_iff
  tried_unique := by
    rw [hr.vvTried]
    exact h.tried_unique
  tried_nodup := by
    rw [hr.vvTried]
    exact h.tried_nodup
  new_view := by
    rw [hr.vvNew, hr.view_eq fun _ ↦ rfl]
    exact h.new_view
  nRefCount_eq := by
    have hbuckets : am'.bucketsOf = am.bucketsOf := by
      funext j
      rw [bucketsOf, bucketsOf, hr.vvNew]
    rw [hbuckets, hr.view_eq fun _ ↦ rfl]
    exact h.nRefCount_eq
  nTried_eq := by
    rw [hr.nTried, h.nTried_eq]
    exact congrArg _ (MapSum.count_congr _ fun j ↦
      congrFun (hr.view_eq (f := (·.fInTried)) fun _ ↦ rfl) j).symm
  nNew_eq := by
    rw [hr.nNew, h.nNew_eq]
    exact congrArg _ (MapSum.count_congr _ fun j ↦
      congrFun (hr.view_eq (f := (! ·.fInTried)) fun _ ↦ rfl) j).symm

end Reordered

namespace Inv

variable {am : CAddrMan} {owed : Nat → Int} {missing : Int} {nId nOld : Nat}
  {info info' infoOld : CAddrInfo} {b : NewBucket} {k : TriedBucket} {p q : Nat}

theorem exists_lookup_of_getElem? (h : am.Inv owed missing) (hp : am.vRandom[p]? = some nId) :
    ∃ info, am.mapInfo.lookup nId = some info ∧ info.nRandomPos = p :=
  view_eq_some (h.points.of_getElem? hp)

/-- `SwapRandom` swaps two positions. -/
theorem swapRandom (h : am.Inv owed missing) (hp : p < am.vRandom.length)
    (hq : q < am.vRandom.length) :
    ∃ am', am.swapRandom p q = some am' ∧ am.Reordered am' ∧ am'.Inv owed missing ∧
      am'.vRandom[q]? = am.vRandom[p]? := by
  rw [CAddrMan.swapRandom]
  by_cases hpq : p = q
  · rw [if_pos hpq]
    exact ⟨am, rfl, .refl am, h, by rw [hpq]⟩
  rw [if_neg hpq]
  have hi : am.vRandom[p]? = some am.vRandom[p] := List.getElem?_eq_getElem hp
  have hj : am.vRandom[q]? = some am.vRandom[q] := List.getElem?_eq_getElem hq
  generalize am.vRandom[p] = i at hi
  generalize am.vRandom[q] = j at hj
  have hij : j ≠ i := by
    rintro rfl
    exact hpq (h.points.inj hi hj)
  obtain ⟨info1, hl1, -⟩ := h.exists_lookup_of_getElem? hi
  obtain ⟨info2, hl2, -⟩ := h.exists_lookup_of_getElem? hj
  have hl2' : (am.setInfo i (info1.setRandomPos q)).mapInfo.lookup j = some info2 := by
    rw [CAddrMan.setInfo, Finmap.lookup_insert_of_ne _ hij]
    exact hl2
  simp only [hi, hj, hl1, hl2', Option.bind_eq_bind, Option.bind_some, Option.pure_def]
  generalize ham' : (am.setInfo i (info1.setRandomPos q)).setInfo j (info2.setRandomPos p) = am'
  have hview : ∀ {α : Type} (f : CAddrInfo → α), am'.view f = Function.update
      (Function.update (am.view f) i (some (f (info1.setRandomPos q)))) j
        (some (f (info2.setRandomPos p))) := by
    intro α f
    rw [← ham', view_setInfo, view_setInfo]
  have hsame : am'.view (·.setRandomPos 0) = am.view (·.setRandomPos 0) := by
    rw [← ham']
    exact (view_setInfo_of_eq hl2' (by rfl)).trans (view_setInfo_of_eq hl1 (by rfl))
  have hr : am.Reordered (am'.setRandom ((am.vRandom.set p j).set q i)) := by
    subst ham'
    refine ⟨rfl, rfl, rfl, rfl, rfl, rfl, rfl, ?_, hsame⟩
    rw [setRandom, List.length_set, List.length_set]
  have hvec : am'.vRandom = am.vRandom := by
    subst ham'
    rfl
  rw [hvec]
  refine ⟨_, rfl, hr, hr.inv h ?_, ?_⟩
  · have hswap := h.points.swap hi hj hpq
    have hpos := hview (·.nRandomPos)
    change BackPointer.Points _ (am'.view (·.nRandomPos))
    rw [hpos]
    exact hswap
  · exact List.getElem?_set_self (by rwa [List.length_set])

theorem view_popRandom {α : Type} (f : CAddrInfo → α) (addr : CNetAddr) :
    (am.popRandom nId addr).view f = Function.update (am.view f) nId none := by
  funext j
  rw [CAddrMan.view, CAddrMan.popRandom]
  by_cases hj : j = nId
  · subst hj
    rw [Function.update_self, Finmap.lookup_erase]
    rfl
  · rw [Function.update_of_ne hj, Finmap.lookup_erase_ne hj]
    rfl

/-- An entry in no bucket that is at the end of the vector is deleted. -/
theorem delete (h : am.Inv owed missing) (info : CAddrInfo)
    (hl : am.mapInfo.lookup nId = some info) (hin : info.fInTried = false)
    (hnone : am.bucketsOf nId = ∅)
    (hlast : am.vRandom[am.vRandom.length - 1]? = some nId) :
    (am.popRandom nId info.ip).Inv owed missing := by
  have hview : ∀ {α : Type} (f : CAddrInfo → α), (am.popRandom nId info.ip).view f =
      Function.update (am.view f) nId none := fun f ↦ view_popRandom f info.ip
  have hcount : ∀ test : CAddrInfo → Bool,
      (MapSum.count test (am.popRandom nId info.ip).mapInfo : Int) =
        MapSum.count test am.mapInfo - if test info then 1 else 0 := by
    intro test
    rw [CAddrMan.popRandom, MapSum.count_erase, hl, Option.elim_some]
  constructor
  case toIndexed => exact h.toIndexed.pop hl hlast rfl rfl rfl hview
  case tried_iff =>
    intro j
    rw [hview]
    by_cases hj : j = nId
    · subst hj
      rw [Function.update_self]
      refine iff_of_false ?_ (by simp)
      rintro ⟨b, hb⟩
      exact h.notMem_vvTried hl hin b hb
    · rw [Function.update_of_ne hj]
      exact h.tried_iff j
  case tried_unique => exact h.tried_unique
  case tried_nodup => exact h.tried_nodup
  case new_view =>
    intro j b hj
    rw [hview]
    by_cases hjn : j = nId
    · subst hjn
      exact absurd hj (notMem_of_bucketsOf_eq_empty hnone b)
    · rw [Function.update_of_ne hjn]
      exact h.new_view j b hj
  case nRefCount_eq =>
    intro j n hj
    rw [hview] at hj
    by_cases hjn : j = nId
    · subst hjn
      rw [Function.update_self] at hj
      cases hj
    · rw [Function.update_of_ne hjn] at hj
      exact h.nRefCount_eq j n hj
  case nTried_eq =>
    have hold := h.nTried_eq
    have hnew := hcount (·.fInTried)
    rw [if_neg (by simp [hin])] at hnew
    change am.nTried = _
    omega
  case nNew_eq =>
    have hold := h.nNew_eq
    have hnew := hcount (! ·.fInTried)
    rw [if_pos (by simp [hin])] at hnew
    change am.nNew - 1 + missing = _
    omega

end Inv

/-! ## The tried buckets -/

theorem mem_setTried {am : CAddrMan} {nId : Nat} {k b : TriedBucket} {l : List Nat} :
    nId ∈ (am.setTried k l).vvTried b ↔ if b = k then nId ∈ l else nId ∈ am.vvTried b := by
  rw [setTried]
  by_cases hb : b = k
  · subst hb
    rw [if_pos rfl]
    change nId ∈ Function.update am.vvTried b l b ↔ nId ∈ l
    rw [Function.update_self]
  · rw [if_neg hb]
    change nId ∈ Function.update am.vvTried k l b ↔ nId ∈ am.vvTried b
    rw [Function.update_of_ne hb]

theorem nodup_setTried {am : CAddrMan} {k : TriedBucket} {l : List Nat} (hl : l.Nodup)
    (h : ∀ b, (am.vvTried b).Nodup) (b : TriedBucket) : ((am.setTried k l).vvTried b).Nodup := by
  rw [setTried]
  by_cases hb : b = k
  · subst hb
    change (Function.update am.vvTried b l b).Nodup
    rwa [Function.update_self]
  · change (Function.update am.vvTried k l b).Nodup
    rw [Function.update_of_ne hb]
    exact h b

namespace Inv

variable {am : CAddrMan} {owed : Nat → Int} {missing : Int} {nId nOld : Nat}
  {info infoOld : CAddrInfo} {k : TriedBucket} {l rest : List Nat}

/-- The order in a bucket does not matter. -/
theorem permTried (h : am.Inv owed missing) (hl : l.Perm (am.vvTried k)) :
    (am.setTried k l).Inv owed missing := by
  have hmem : ∀ j b, j ∈ (am.setTried k l).vvTried b ↔ j ∈ am.vvTried b := by
    intro j b
    rw [mem_setTried]
    split
    case isTrue hb => rw [hl.mem_iff, hb]
    case isFalse => exact Iff.rfl
  exact {
    __ := h
    toIndexed := h.toIndexed.congr rfl rfl rfl rfl rfl
    tried_iff := by
      intro j
      simp only [hmem]
      exact h.tried_iff j
    tried_unique := by
      intro j b b' hb hb'
      exact h.tried_unique j b b' ((hmem j b).mp hb) ((hmem j b').mp hb')
    tried_nodup := nodup_setTried (hl.nodup_iff.mpr (h.tried_nodup k)) h.tried_nodup
    nNew_eq := h.nNew_eq }

/-- What becomes of the entries when one of them changes its kind. -/
theorem count_setInfo {test : CAddrInfo → Bool} {info' : CAddrInfo}
    (hl : am.mapInfo.lookup nId = some info) :
    (MapSum.count test (am.setInfo nId info').mapInfo : Int) =
      MapSum.count test am.mapInfo - (if test info then 1 else 0) +
        if test info' then 1 else 0 := by
  rw [CAddrMan.setInfo, MapSum.count_insert, hl, Option.elim_some]

/-- An entry in no bucket enters a tried one. -/
theorem enterTried (h : am.Inv owed missing) (hl : am.mapInfo.lookup nId = some info)
    (hin : info.fInTried = false) (hnone : am.bucketsOf nId = ∅) :
    (((am.setTried k (am.vvTried k ++ [nId])).countTried 1).setInfo nId
      (info.setInTried true)).Inv owed (missing - 1) := by
  have hview : ∀ {α : Type} (f : CAddrInfo → α), f (info.setInTried true) = f info →
      (((am.setTried k (am.vvTried k ++ [nId])).countTried 1).setInfo nId
        (info.setInTried true)).view f = am.view f :=
    fun f hf ↦ view_setInfo_of_eq hl hf
  have hnot := h.notMem_vvTried hl hin
  have hmem : ∀ j b, j ∈ (am.setTried k (am.vvTried k ++ [nId])).vvTried b ↔
      j ∈ am.vvTried b ∨ b = k ∧ j = nId := by
    intro j b
    rw [mem_setTried]
    split
    case isTrue hb =>
      subst hb
      rw [List.mem_append, List.mem_singleton]
      simp
    case isFalse hb => simp [hb]
  constructor
  case toIndexed => exact h.toIndexed.congr rfl rfl rfl (hview _ rfl) (hview _ rfl)
  case tried_iff =>
    intro j
    rw [view_setInfo]
    refine (exists_congr (hmem j)).trans ?_
    by_cases hj : j = nId
    · subst hj
      rw [Function.update_self]
      exact iff_of_true ⟨k, Or.inr ⟨rfl, rfl⟩⟩ rfl
    · rw [Function.update_of_ne hj]
      simp only [hj, and_false, or_false]
      exact h.tried_iff j
  case tried_unique =>
    intro j b b' hb hb'
    rcases (hmem j b).mp hb with hb | ⟨hbk, hj⟩
    · rcases (hmem j b').mp hb' with hb' | ⟨-, hj⟩
      · exact h.tried_unique j b b' hb hb'
      · exact absurd (hj ▸ hb) (hnot b)
    · rcases (hmem j b').mp hb' with hb' | ⟨hbk', -⟩
      · exact absurd (hj ▸ hb') (hnot b')
      · rw [hbk, hbk']
  case tried_nodup =>
    refine nodup_setTried ?_ h.tried_nodup
    rw [List.nodup_append]
    refine ⟨h.tried_nodup k, List.nodup_singleton _, ?_⟩
    rintro j hj j' hj' rfl
    exact hnot k (List.mem_singleton.mp hj' ▸ hj)
  case new_view =>
    intro j b hj
    rw [view_setInfo]
    by_cases hjn : j = nId
    · subst hjn
      exact absurd hj (notMem_of_bucketsOf_eq_empty hnone b)
    · rw [Function.update_of_ne hjn]
      exact h.new_view j b hj
  case nRefCount_eq =>
    rw [hview _ rfl]
    exact h.nRefCount_eq
  case nTried_eq =>
    have hold := h.nTried_eq
    have hnew : (MapSum.count (·.fInTried) (am.setInfo nId (info.setInTried true)).mapInfo : Int) =
        _ := count_setInfo hl
    rw [if_neg (by simp [hin]), if_pos (by rfl)] at hnew
    change am.nTried + 1 = (MapSum.count _ (am.setInfo nId _).mapInfo : Int)
    omega
  case nNew_eq =>
    have hold := h.nNew_eq
    have hnew : (MapSum.count (! ·.fInTried)
        (am.setInfo nId (info.setInTried true)).mapInfo : Int) = _ := count_setInfo hl
    rw [if_pos (by simp [hin]), if_neg (by simp [CAddrInfo.setInTried])] at hnew
    change am.nNew + (missing - 1) = (MapSum.count _ (am.setInfo nId _).mapInfo : Int)
    omega

/-- What is in a tried bucket when one entry takes the place of another. -/
theorem mem_setTried_of_perm (h : am.Inv owed missing)
    (hold : (am.vvTried k).Perm (nOld :: rest)) (hnew : l.Perm (nId :: rest)) (j : Nat)
    (b : TriedBucket) :
    j ∈ (am.setTried k l).vvTried b ↔ b = k ∧ j = nId ∨ j ∈ am.vvTried b ∧ j ≠ nOld := by
  have hmemOld : nOld ∈ am.vvTried k := hold.mem_iff.mpr List.mem_cons_self
  obtain ⟨hrest, -⟩ := List.nodup_cons.mp (hold.nodup_iff.mp (h.tried_nodup k))
  rw [mem_setTried]
  split
  case isTrue hb =>
    subst hb
    rw [hnew.mem_iff, hold.mem_iff, List.mem_cons, List.mem_cons]
    constructor
    · rintro (hj | hj)
      · exact Or.inl ⟨rfl, hj⟩
      · exact Or.inr ⟨Or.inr hj, fun heq ↦ hrest (heq ▸ hj)⟩
    · rintro (⟨-, hj⟩ | ⟨hj, hjold⟩)
      · exact Or.inl hj
      · exact Or.inr (hj.resolve_left hjold)
  case isFalse hb =>
    constructor
    · intro hj
      refine Or.inr ⟨hj, ?_⟩
      rintro rfl
      exact hb (h.tried_unique j b k hj hmemOld)
    · rintro (⟨hbk, -⟩ | ⟨hj, -⟩)
      · exact absurd hbk hb
      · exact hj

/-- An entry in no bucket takes the place of a tried one, which is in no bucket then. -/
theorem replaceTried (h : am.Inv owed missing) (hold : (am.vvTried k).Perm (nOld :: rest))
    (hnew : l.Perm (nId :: rest)) (hlOld : am.mapInfo.lookup nOld = some infoOld)
    (hl : am.mapInfo.lookup nId = some info) (hin : info.fInTried = false)
    (hnone : am.bucketsOf nId = ∅) :
    (((am.setTried k l).setInfo nOld (infoOld.setInTried false)).setInfo nId
      (info.setInTried true)).Inv owed missing := by
  have hmemOld : nOld ∈ am.vvTried k := hold.mem_iff.mpr List.mem_cons_self
  have hnot := h.notMem_vvTried hl hin
  have hne : nId ≠ nOld := by
    rintro rfl
    exact hnot k hmemOld
  obtain ⟨hrest, hnodup⟩ := List.nodup_cons.mp (hold.nodup_iff.mp (h.tried_nodup k))
  have hinOld : infoOld.fInTried = true := by
    obtain ⟨inf, hinf, htrue⟩ := h.exists_lookup_of_tried hmemOld
    rwa [← Option.some.inj (hlOld.symm.trans hinf)] at htrue
  have hl' : ((am.setTried k l).setInfo nOld (infoOld.setInTried false)).mapInfo.lookup nId =
      some info := (Finmap.lookup_insert_of_ne _ hne).trans hl
  have hview : ∀ {α : Type} (f : CAddrInfo → α), f (info.setInTried true) = f info →
      f (infoOld.setInTried false) = f infoOld →
      (((am.setTried k l).setInfo nOld (infoOld.setInTried false)).setInfo nId
        (info.setInTried true)).view f = am.view f := by
    intro α f hf hfOld
    exact (view_setInfo_of_eq hl' hf).trans (view_setInfo_of_eq hlOld hfOld)
  have hflag : ∀ j, (((am.setTried k l).setInfo nOld (infoOld.setInTried false)).setInfo nId
      (info.setInTried true)).view (·.fInTried) j =
        if j = nId then some true else if j = nOld then some false else am.view (·.fInTried) j := by
    intro j
    rw [view_setInfo, view_setInfo, Function.update_apply, Function.update_apply]
    rfl
  have hmem := h.mem_setTried_of_perm hold hnew
  have hcount : ∀ test : CAddrInfo → Bool,
      (MapSum.count test (((am.setTried k l).setInfo nOld (infoOld.setInTried false)).setInfo nId
        (info.setInTried true)).mapInfo : Int) = MapSum.count test am.mapInfo -
          (if test infoOld then 1 else 0) + (if test (infoOld.setInTried false) then 1 else 0) -
          (if test info then 1 else 0) + (if test (info.setInTried true) then 1 else 0) := by
    intro test
    have hfirst : (MapSum.count test
        ((am.setTried k l).setInfo nOld (infoOld.setInTried false)).mapInfo : Int) = _ :=
      count_setInfo hlOld
    rw [count_setInfo hl', hfirst]
    rfl
  constructor
  case toIndexed => exact h.toIndexed.congr rfl rfl rfl (hview _ rfl rfl) (hview _ rfl rfl)
  case tried_iff =>
    intro j
    rw [hflag]
    refine (exists_congr (hmem j)).trans ?_
    by_cases hj : j = nId
    · rw [if_pos hj]
      exact iff_of_true ⟨k, Or.inl ⟨rfl, hj⟩⟩ rfl
    · rw [if_neg hj]
      by_cases hjold : j = nOld
      · rw [if_pos hjold]
        refine iff_of_false ?_ (by simp)
        rintro ⟨b, ⟨-, heq⟩ | ⟨-, hne⟩⟩
        · exact hj heq
        · exact hne hjold
      · rw [if_neg hjold, ← h.tried_iff j]
        simp [hj, hjold]
  case tried_unique =>
    intro j b b' hb hb'
    rcases (hmem j b).mp hb with ⟨hbk, hj⟩ | ⟨hb, -⟩
    · rcases (hmem j b').mp hb' with ⟨hbk', -⟩ | ⟨hb', -⟩
      · rw [hbk, hbk']
      · exact absurd (hj ▸ hb') (hnot b')
    · rcases (hmem j b').mp hb' with ⟨-, hj⟩ | ⟨hb', -⟩
      · exact absurd (hj ▸ hb) (hnot b)
      · exact h.tried_unique j b b' hb hb'
  case tried_nodup =>
    refine nodup_setTried (hnew.nodup_iff.mpr (List.nodup_cons.mpr ⟨?_, hnodup⟩)) h.tried_nodup
    intro hmemrest
    exact hnot k (hold.mem_iff.mpr (List.mem_cons_of_mem _ hmemrest))
  case new_view =>
    intro j b hj
    rw [hflag]
    by_cases hjn : j = nId
    · subst hjn
      exact absurd hj (notMem_of_bucketsOf_eq_empty hnone b)
    · rw [if_neg hjn]
      by_cases hjold : j = nOld
      · rw [if_pos hjold]
      · rw [if_neg hjold]
        exact h.new_view j b hj
  case nRefCount_eq =>
    rw [hview _ rfl rfl]
    exact h.nRefCount_eq
  case nTried_eq =>
    have hstart := h.nTried_eq
    have hend := hcount (·.fInTried)
    rw [if_pos hinOld, if_neg (by simp [CAddrInfo.setInTried]), if_neg (by simp [hin]),
      if_pos (by rfl)] at hend
    change am.nTried = _
    omega
  case nNew_eq =>
    have hstart := h.nNew_eq
    have hend := hcount (! ·.fInTried)
    rw [if_neg (by simp [hinOld]), if_pos (by rfl), if_pos (by simp [hin]),
      if_neg (by simp [CAddrInfo.setInTried])] at hend
    change am.nNew + missing = _
    omega

theorem nIdCount_notMem (h : am.Inv owed missing) (b : NewBucket) : am.nIdCount ∉ am.vvNew b := by
  intro hb
  have hview := h.new_view _ b hb
  rw [h.view_nIdCount] at hview
  cases hview

theorem bucketsOf_nIdCount (h : am.Inv owed missing) : am.bucketsOf am.nIdCount = ∅ := by
  rw [Finset.eq_empty_iff_forall_notMem]
  exact fun b hb ↦ h.nIdCount_notMem b (mem_bucketsOf.mp hb)

/-- A new entry, in no bucket and with no reference. -/
theorem push {am' : CAddrMan} (h : am.Inv owed missing)
    (ham' : am' = { am with
      nIdCount := am.nIdCount + 1
      mapInfo := am.mapInfo.insert am.nIdCount info
      mapAddr := am.mapAddr.insert info.ip am.nIdCount
      vRandom := am.vRandom ++ [am.nIdCount]
      nNew := am.nNew + 1 })
    (hnone : am.mapAddr.lookup info.ip = none) (hpos : info.nRandomPos = am.vRandom.length)
    (href : info.nRefCount = 0) (hin : info.fInTried = false) (howed : owed am.nIdCount = 0) :
    am'.Inv owed missing := by
  have hview : ∀ {α : Type} (f : CAddrInfo → α), am'.view f =
      Function.update (am.view f) am.nIdCount (some (f info)) := by
    intro α f
    subst ham'
    exact view_setInfo
  have hcount : ∀ test : CAddrInfo → Bool, (MapSum.count test am'.mapInfo : Int) =
      MapSum.count test am.mapInfo + if test info then 1 else 0 := by
    intro test
    have hfresh : am.mapInfo.lookup am.nIdCount = none :=
      Option.map_eq_none_iff.mp (h.view_nIdCount id)
    subst ham'
    rw [MapSum.count_insert, hfresh, Option.elim_none, sub_zero]
  have hbuckets : am'.bucketsOf = am.bucketsOf := by
    subst ham'
    rfl
  have htried : am'.vvTried = am.vvTried := by
    subst ham'
    rfl
  constructor
  case toIndexed =>
    refine h.toIndexed.push hnone hpos ?_ ?_ ?_ hview
    all_goals
      subst ham'
      rfl
  case tried_iff =>
    intro j
    rw [hview, htried, h.tried_iff]
    by_cases hj : j = am.nIdCount
    · subst hj
      rw [Function.update_self, h.view_nIdCount, hin]
      simp
    · rw [Function.update_of_ne hj]
  case tried_unique =>
    rw [htried]
    exact h.tried_unique
  case tried_nodup =>
    rw [htried]
    exact h.tried_nodup
  case new_view =>
    intro j b hj
    rw [← mem_bucketsOf, hbuckets, mem_bucketsOf] at hj
    have hjn : j ≠ am.nIdCount := by
      rintro rfl
      exact h.nIdCount_notMem b hj
    rw [hview, Function.update_of_ne hjn]
    exact h.new_view j b hj
  case nRefCount_eq =>
    intro j n hj
    rw [hview] at hj
    rw [hbuckets]
    by_cases hjn : j = am.nIdCount
    · subst hjn
      rw [Function.update_self, href] at hj
      obtain rfl := Option.some.inj hj
      rw [h.bucketsOf_nIdCount, howed]
      rfl
    · rw [Function.update_of_ne hjn] at hj
      exact h.nRefCount_eq j n hj
  case nTried_eq =>
    have hstart := h.nTried_eq
    have hend := hcount (·.fInTried)
    rw [if_neg (by simp [hin])] at hend
    have hn : am'.nTried = am.nTried := by
      subst ham'
      rfl
    omega
  case nNew_eq =>
    have hstart := h.nNew_eq
    have hend := hcount (! ·.fInTried)
    rw [if_pos (by simp [hin])] at hend
    have hn : am'.nNew = am.nNew + 1 := by
      subst ham'
      rfl
    omega

/-- `Create`, with the count of the new entry. -/
theorem createNext (h : am.Inv owed missing) {addr : CAddress} {addrSource : CNetAddr}
    (hnone : am.mapAddr.lookup addr.ip = none) (howed : owed am.nIdCount = 0) :
    ((am.createNext addr addrSource).2.2.countNew 1).Inv owed missing := by
  have hpushed : (am.createNext addr addrSource).2.2.countNew 1 = { am with
      nIdCount := am.nIdCount + 1
      mapInfo := am.mapInfo.insert am.nIdCount
        { CAddrInfo.new addr addrSource with nRandomPos := am.vRandom.length }
      mapAddr := am.mapAddr.insert addr.ip am.nIdCount
      vRandom := am.vRandom ++ [am.nIdCount]
      nNew := am.nNew + 1 } := by
    rfl
  exact h.push hpushed hnone rfl rfl rfl howed

end Inv

end CAddrMan

end Fedoracoin
