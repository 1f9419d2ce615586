import Fedoracoin.AddrManRebuild

/-!
# The round trip of the address manager

The writer gives the new entries, and after them the tried ones, their places as numbers; what is
read back is consistent, and has the entries that were written, by their addresses, except the tried
ones for which the bucket of their hash has no room.
-/

namespace Fedoracoin

open Wire

namespace CAddrInfo

/-- An entry without the time of the last try, the position in `vRandom` and the reference count,
which are in memory only. -/
def saved (info : CAddrInfo) : CAddrInfo := { info.core with nLastTry := 0 }

theorem saved_eq {info info' : CAddrInfo} (h : info'.core = info.core) :
    info'.saved = info.saved := congrArg (fun info ↦ { info with nLastTry := 0 }) h

theorem saved_onDisk {info : CAddrInfo} (hin : info.fInTried = false) :
    info.onDisk.saved = info.saved := by
  obtain ⟨addr, source, nLastSuccess, nAttempts, nRefCount, fInTried, nRandomPos⟩ := info
  obtain rfl : fInTried = false := hin
  rfl

theorem saved_onDisk_tried {info : CAddrInfo} (hin : info.fInTried = true) :
    (info.onDisk.setInTried true).saved = info.saved := by
  obtain ⟨addr, source, nLastSuccess, nAttempts, nRefCount, fInTried, nRandomPos⟩ := info
  obtain rfl : fInTried = true := hin
  rfl

end CAddrInfo

namespace CAddrMan

variable {E : AddrEnv} {am : CAddrMan} {nKey : List UInt8} {es news trieds : List CAddrInfo}
  {buckets : NewBucket → List Nat}

/-! ## What is rebuilt -/

/-- The address manager with the entries `es`, whose ids are their places. -/
structure Rebuilt (E : AddrEnv) (nKey : List UInt8) (es : List CAddrInfo)
    (buckets : NewBucket → List Nat) (am : CAddrMan) : Prop where
  settled : am.Settled
  key : am.nKey = nKey
  filed : am.Filed E
  view_core : ∀ nId, am.view CAddrInfo.core nId = es[nId]?.map CAddrInfo.core
  mem_vvNew : ∀ b nId, nId ∈ am.vvNew b ↔ nId ∈ buckets b

theorem mem_hashedTo {nId : Nat} {k : TriedBucket} : nId ∈ hashedTo E nKey es k ↔
    ∃ info, es[nId]? = some info ∧ info.fInTried = true ∧
      E.getTriedBucket nKey info.toCService = k := by
  rw [hashedTo, List.mem_filter, List.mem_range]
  constructor
  · rintro ⟨hlt, htest⟩
    rw [List.getElem?_eq_getElem hlt, Option.any_some, Bool.and_eq_true, beq_iff_eq] at htest
    exact ⟨_, List.getElem?_eq_getElem hlt, htest⟩
  · rintro ⟨info, hget, hin, hk⟩
    obtain ⟨hlt, -⟩ := List.getElem?_eq_some_iff.mp hget
    refine ⟨hlt, ?_⟩
    rw [hget, Option.any_some, hin, hk, Bool.true_and]
    exact beq_self_eq_true k

/-- A field that the references leave alone is that of the entry. -/
theorem Filled.view_eq {am₀ : CAddrMan} {done : List (NewBucket × Nat)} (h : Filled E nKey es am₀)
    (hr : Referenced am₀ done am) {α : Type} (f : CAddrInfo → α)
    (hf : ∀ info : CAddrInfo, f info = f (info.setRefCount 0)) (nId : Nat) :
    am.view f nId = es[nId]?.map fun info ↦ f (info.setRandomPos nId) := by
  rw [hr.view_eq f hf, CAddrMan.view, h.lookup, Option.map_map]
  rfl

/-- The reference counts are the last thing that is missing. -/
theorem Filled.settled {am₀ : CAddrMan} {done : List (NewBucket × Nat)}
    (h : Filled E nKey es am₀) (hr : Referenced am₀ done am) (hid : am₀.nIdCount = es.length)
    (hnTried : am₀.nTried = es.countP (·.fInTried)) (hnNew : am₀.nNew = es.countP (! ·.fInTried))
    (hdone : ∀ b nId, (b, nId) ∈ done → ∃ info, es[nId]? = some info ∧ info.fInTried = false)
    (hlimits : am.Limits fun _ ↦ 0) : am.Settled where
  limits := hlimits
  inv := by
    have hview : ∀ {α : Type} (f : CAddrInfo → α),
        (∀ info : CAddrInfo, f info = f (info.setRefCount 0)) →
        ∀ nId, am.view f nId = es[nId]?.map fun info ↦ f (info.setRandomPos nId) :=
      fun f hf ↦ h.view_eq hr f hf
    have hvvTried : am.vvTried = hashedTo E nKey es :=
      (congrArg (·.vvTried) hr.frame).trans h.vvTried
    have hcount : ∀ p : CAddrInfo → Bool, (∀ info : CAddrInfo, p info = p (info.setRefCount 0)) →
        MapSum.count p am.mapInfo = MapSum.count p am₀.mapInfo := fun p hp ↦
      MapSum.count_congr p fun nId ↦ congrFun (hr.view_eq p hp) nId
    constructor
    case toIndexed =>
      constructor
      case id_lt =>
        intro nId addr hv
        rw [hview _ (fun _ ↦ rfl), Option.map_eq_some_iff] at hv
        obtain ⟨info, hget, -⟩ := hv
        rw [congrArg (·.nIdCount) hr.frame, hid]
        exact (List.getElem?_eq_some_iff.mp hget).1
      case mapAddr_iff =>
        intro addr nId
        rw [congrArg (·.mapAddr) hr.frame, h.mapAddr_iff, hview _ (fun _ ↦ rfl),
          Option.map_eq_some_iff]
        rfl
      case points =>
        intro nId z
        rw [congrArg (·.vRandom) hr.frame, h.vRandom, hview _ (fun _ ↦ rfl), Option.map_eq_some_iff]
        constructor
        · rintro ⟨info, hget, rfl⟩
          obtain ⟨hlt, -⟩ := List.getElem?_eq_some_iff.mp hget
          exact ⟨nId, rfl, List.getElem?_range hlt⟩
        · rintro ⟨p, rfl, hp⟩
          obtain ⟨hlt, hval⟩ := List.getElem?_eq_some_iff.mp hp
          rw [List.getElem_range] at hval
          subst hval
          rw [List.length_range] at hlt
          exact ⟨es[p], List.getElem?_eq_getElem hlt, rfl⟩
    case tried_iff =>
      intro nId
      rw [hview _ (fun _ ↦ rfl), Option.map_eq_some_iff, hvvTried]
      simp only [mem_hashedTo]
      constructor
      · rintro ⟨k, info, hget, hin, -⟩
        exact ⟨info, hget, hin⟩
      · rintro ⟨info, hget, hin⟩
        exact ⟨_, info, hget, hin, rfl⟩
    case tried_unique =>
      intro nId b b' hb hb'
      rw [hvvTried, mem_hashedTo] at hb hb'
      obtain ⟨info, hget, -, rfl⟩ := hb
      obtain ⟨info', hget', -, rfl⟩ := hb'
      rw [hget] at hget'
      rw [Option.some.inj hget']
    case tried_nodup =>
      intro b
      rw [hvvTried, hashedTo]
      exact List.nodup_range.filter _
    case new_view =>
      intro nId b hb
      obtain ⟨info, hget, hin⟩ := hdone b nId ((hr.mem_vvNew b nId).mp hb)
      rw [hview _ (fun _ ↦ rfl), hget]
      exact congrArg some hin
    case nRefCount_eq =>
      intro nId n hn
      rw [hr.nRefCount nId n hn, add_zero]
    case nTried_eq =>
      rw [congrArg (·.nTried) hr.frame, hcount _ (fun _ ↦ rfl), h.count_tried]
      exact hnTried
    case nNew_eq =>
      rw [congrArg (·.nNew) hr.frame, hcount _ (fun _ ↦ rfl), h.count_new, add_zero]
      exact hnNew

/-- The indices of all the buckets, in the order of the file. -/
def indexPairs (buckets : NewBucket → List Nat) : List (NewBucket × Nat) :=
  (List.finRange 256).flatMap fun b ↦ (buckets b).map (b, ·)

theorem mem_indexPairs {b : NewBucket} {nId : Nat} :
    (b, nId) ∈ indexPairs buckets ↔ nId ∈ buckets b := by
  rw [indexPairs, List.mem_flatMap]
  constructor
  · rintro ⟨b', -, hmem⟩
    obtain ⟨nId', hnId', heq⟩ := List.mem_map.mp hmem
    obtain ⟨rfl, rfl⟩ := Prod.mk.inj heq
    exact hnId'
  · exact fun h ↦ ⟨b, List.mem_finRange b, List.mem_map_of_mem h⟩

theorem nodup_indexPairs (hnodup : ∀ b, (buckets b).Nodup) : (indexPairs buckets).Nodup := by
  rw [indexPairs, List.nodup_flatMap]
  refine ⟨fun b _ ↦ (hnodup b).map (Prod.mk_right_injective b), ?_⟩
  refine (List.nodup_finRange 256).imp fun {b b'} hne ↦ List.disjoint_left.mpr fun p hp hp' ↦ ?_
  obtain ⟨nId, -, rfl⟩ := List.mem_map.mp hp
  obtain ⟨nId', -, heq⟩ := List.mem_map.mp hp'
  exact hne (congrArg Prod.fst heq).symm

theorem foldl_indexPairs (am : CAddrMan) : (List.finRange 256).foldl
    (fun am b ↦ (buckets b).foldl (fun am nIndex ↦ am.storeIndex 256 b nIndex) am) am =
      (indexPairs buckets).foldl (fun am p ↦ am.storeIndex 256 p.1 p.2) am := by
  rw [indexPairs, List.foldl_flatMap]
  simp only [List.foldl_map]

theorem countP_inTried (hin : ∀ info ∈ news, info.fInTried = false) (kept : List CAddrInfo) :
    (news ++ kept.map (·.setInTried true)).countP (·.fInTried) = kept.length ∧
      (news ++ kept.map (·.setInTried true)).countP (! ·.fInTried) = news.length := by
  have hnews : news.countP (·.fInTried) = 0 :=
    List.countP_eq_zero.mpr fun info hinfo ↦ by rw [hin info hinfo]; exact Bool.false_ne_true
  have hnews' : news.countP (! ·.fInTried) = news.length :=
    List.countP_eq_length.mpr fun info hinfo ↦ by rw [hin info hinfo]; rfl
  have hkept : (kept.map (·.setInTried true)).countP (·.fInTried) = kept.length := by
    rw [List.countP_map]
    exact List.countP_eq_length.mpr fun info _ ↦ rfl
  have hkept' : (kept.map (·.setInTried true)).countP (! ·.fInTried) = 0 := by
    rw [List.countP_map]
    exact List.countP_eq_zero.mpr fun info _ ↦ Bool.false_ne_true
  rw [List.countP_append, List.countP_append, hnews, hnews', hkept, hkept']
  exact ⟨Nat.zero_add _, Nat.add_zero _⟩

/-- The limits of what is rebuilt are those of what is read. -/
theorem Filled.limits {am₀ : CAddrMan} {kept : List CAddrInfo}
    (h : Filled E nKey (news ++ kept.map (·.setInTried true)) am₀)
    (hr : Referenced am₀ (indexPairs buckets) am) (hin : ∀ info ∈ news, info.fInTried = false)
    (hkept : ∀ k, hashCount E nKey kept k ≤ addrmanTriedBucketSize)
    (hsize : ∀ b, (buckets b).length ≤ addrmanNewBucketSize)
    (hone : ∀ nId < news.length, ∃ b, nId ∈ buckets b)
    (hfour : ∀ nId, (Finset.univ.filter fun b ↦ (b, nId) ∈ indexPairs buckets).card ≤
      addrmanNewBucketsPerAddress) : am.Limits fun _ ↦ 0 := by
  have hmem : ∀ b nId, nId ∈ am.vvNew b ↔ nId ∈ buckets b := fun b nId ↦
    (hr.mem_vvNew b nId).trans mem_indexPairs
  constructor
  case tried_le =>
    intro k
    rw [congrArg (·.vvTried) hr.frame, congrFun h.vvTried k, length_hashedTo hin]
    exact hkept k
  case new_le =>
    intro b
    have hsub : am.vvNew b ⊆ (buckets b).toFinset := fun nId h ↦
      List.mem_toFinset.mpr ((hmem b nId).mp h)
    exact ((Finset.card_le_card hsub).trans (List.toFinset_card_le _)).trans (hsize b)
  case one_le =>
    intro nId hv _
    rw [h.view_eq hr _ fun _ ↦ rfl] at hv
    obtain ⟨info, hget, hfalse⟩ := Option.map_eq_some_iff.mp hv
    have hnId : nId < news.length := by
      by_contra hge
      rw [List.getElem?_append_right (Nat.not_lt.mp hge), List.getElem?_map] at hget
      obtain ⟨info₀, -, rfl⟩ := Option.map_eq_some_iff.mp hget
      exact absurd hfalse (by simp [CAddrInfo.setInTried, CAddrInfo.setRandomPos])
    obtain ⟨b, hb⟩ := hone nId hnId
    exact Finset.card_pos.mpr ⟨b, mem_bucketsOf.mpr ((hmem b nId).mpr hb)⟩
  case le_four =>
    intro nId
    rw [hr.bucketsOf_eq]
    exact hfour nId

theorem Filled.rebuilt {am₀ : CAddrMan} (h : Filled E nKey es am₀)
    (hr : Referenced am₀ (indexPairs buckets) am) (hsettled : am.Settled) :
    Rebuilt E nKey es buckets am where
  settled := hsettled
  key := (congrArg (·.nKey) hr.frame).trans h.key
  filed nId k info hk hl := by
    rw [congrArg (·.vvTried) hr.frame, congrFun h.vvTried k, mem_hashedTo] at hk
    obtain ⟨info₀, hget, -, rfl⟩ := hk
    have hservice : am.view (·.toCService) nId = some info₀.toCService := by
      rw [h.view_eq hr _ fun _ ↦ rfl, hget]
      rfl
    rw [view_of_lookup hl] at hservice
    rw [Option.some.inj hservice, congrArg (·.nKey) hr.frame]
    exact congrArg (E.getTriedBucket · _) h.key
  view_core nId := by
    rw [h.view_eq hr _ fun _ ↦ rfl]
    rfl
  mem_vvNew b nId := (hr.mem_vvNew b nId).trans mem_indexPairs

variable (E nKey news trieds buckets) in
/-- **What the reader rebuilds.** -/
theorem rebuild_spec (hip : ((news ++ trieds).map (·.ip)).Nodup)
    (hin : ∀ info ∈ news, info.fInTried = false)
    (hzero : ∀ info ∈ news ++ trieds, info.nRefCount = 0) (hnodup : ∀ b, (buckets b).Nodup)
    (hsize : ∀ b, (buckets b).length ≤ addrmanNewBucketSize)
    (hlt : ∀ b, ∀ nId ∈ buckets b, nId < news.length)
    (hone : ∀ nId < news.length, ∃ b, nId ∈ buckets b)
    (hfour : ∀ nId, (Finset.univ.filter fun b ↦ nId ∈ buckets b).card ≤
      addrmanNewBucketsPerAddress) :
    ∃ kept, kept.Sublist trieds ∧
      ((∀ k, hashCount E nKey trieds k ≤ addrmanTriedBucketSize) → kept = trieds) ∧
      Rebuilt E nKey (news ++ kept.map (·.setInTried true)) buckets
        (rebuild E nKey news trieds buckets) := by
  have hipNews : (news.map (·.ip)).Nodup := by
    rw [List.map_append] at hip
    exact (List.nodup_append.mp hip).1
  obtain ⟨hf, hnNew, hnTried⟩ := filled_news hipNews hin
    (filled_new E nKey news.length trieds.length)
  rw [rebuild]
  dsimp only
  generalize List.foldl _ _ news.zipIdx = am₁ at hf hnNew hnTried ⊢
  have hf' : Filled E nKey news { am₁ with nIdCount := news.length } :=
    ⟨hf.key, hf.lookup, hf.mapAddr_iff, hf.vRandom, hf.vvTried, hf.vvNew, hf.count_tried,
      hf.count_new⟩
  obtain ⟨kept, hkept⟩ := readTried hf' hin rfl hip
  generalize List.foldl (storeTried E) _ trieds = s at hkept ⊢
  obtain ⟨am₂, nLost⟩ := s
  refine ⟨kept, hkept.sublist, hkept.none_lost, ?_⟩
  obtain ⟨hcountTried, hcountNew⟩ := countP_inTried hin kept
  have hsize₂ := hkept.le
  generalize hes : news ++ kept.map (·.setInTried true) = es at hcountTried hcountNew
  have hesZero : ∀ info ∈ es, info.nRefCount = 0 := by
    intro info hmem
    rw [← hes] at hmem
    rcases List.mem_append.mp hmem with hmem | hmem
    · exact hzero info (List.mem_append_left _ hmem)
    · obtain ⟨info₀, hmem₀, rfl⟩ := List.mem_map.mp hmem
      exact hzero info₀ (List.mem_append_right _ (hkept.sublist.subset hmem₀))
  have hesNew : ∀ nId < news.length, ∃ info, es[nId]? = some info ∧ info.fInTried = false := by
    intro nId hnId
    rw [← hes, List.getElem?_append_left hnId, List.getElem?_eq_getElem hnId]
    exact ⟨news[nId], rfl, hin _ (List.getElem_mem hnId)⟩
  have hf₃ : Filled E nKey es { am₂ with nTried := am₂.nTried - nLost } := by
    have h := hkept.filled
    rw [hes] at h
    exact ⟨h.key, h.lookup, h.mapAddr_iff, h.vRandom, h.vvTried, h.vvNew, h.count_tried,
      h.count_new⟩
  have hfour' : ∀ nId, (Finset.univ.filter fun b ↦ (b, nId) ∈ indexPairs buckets).card ≤
      addrmanNewBucketsPerAddress := by
    intro nId
    simp only [mem_indexPairs]
    exact hfour nId
  rw [foldl_indexPairs]
  have hzeroCount : ∀ nId n, CAddrMan.view { am₂ with nTried := am₂.nTried - nLost }
      (·.nRefCount) nId = some n → n = 0 := by
    intro nId n hn
    obtain ⟨info, hl, rfl⟩ := view_eq_some hn
    rw [hf₃.lookup] at hl
    obtain ⟨info₀, hget, rfl⟩ := Option.map_eq_some_iff.mp hl
    exact hesZero info₀ (List.mem_of_getElem? hget)
  have hthere : ∀ p ∈ indexPairs buckets, ∃ info,
      (Finmap.lookup p.2 am₂.mapInfo : Option CAddrInfo) = some info := by
    intro p hp
    obtain ⟨info, hget, -⟩ := hesNew p.2 (hlt p.1 p.2 (mem_indexPairs.mp hp))
    refine ⟨info.setRandomPos p.2, (hf₃.lookup p.2).trans ?_⟩
    rw [hget]
    rfl
  have hr := referenced hf₃.vvNew hzeroCount hthere (nodup_indexPairs hnodup) hfour'
  generalize List.foldl _ _ (indexPairs buckets) = am₄ at hr ⊢
  have hlimits : am₄.Limits fun _ ↦ 0 := by
    rw [← hes] at hf₃
    exact hf₃.limits hr hin hsize₂ hsize hone hfour'
  refine hf₃.rebuilt hr (hf₃.settled hr ?_ ?_ ?_ ?_ hlimits)
  · rw [← hes, List.length_append, List.length_map]
    exact hkept.nIdCount_eq
  · have hlost := hkept.nLost_eq
    rw [hcountTried]
    change am₂.nTried - nLost = _
    change nLost + _ = _ at hlost
    have hnTried₂ : am₂.nTried = trieds.length := hkept.nTried_eq.trans hnTried
    omega
  · rw [hcountNew]
    exact hkept.nNew_eq.trans hnNew
  · exact fun b nId h ↦ hesNew nId (hlt b nId (mem_indexPairs.mp h))

/-! ## What is written -/

theorem mem_entries {e : Nat × CAddrInfo} :
    e ∈ am.entries ↔ am.mapInfo.lookup e.1 = some e.2 := by
  rw [entries, List.mem_filterMap]
  constructor
  · rintro ⟨nId, -, hmap⟩
    obtain ⟨info, hl, rfl⟩ := Option.map_eq_some_iff.mp hmap
    exact hl
  · intro hl
    refine ⟨e.1, (Finset.mem_sort _).mpr (Finmap.mem_keys.mpr ?_), by rw [hl]; rfl⟩
    exact Finmap.lookup_isSome.mp (by rw [hl]; rfl)

theorem nodup_entries : (am.entries.map Prod.fst).Nodup := by
  have hsub : (am.entries.map Prod.fst).Sublist (am.mapInfo.keys.sort (· ≤ ·)) := by
    rw [entries]
    generalize am.mapInfo.keys.sort (· ≤ ·) = l
    induction l with
    | nil => exact List.Sublist.refl []
    | cons nId l ih =>
        rw [List.filterMap_cons]
        cases am.mapInfo.lookup nId with
        | none => exact ih.cons nId
        | some info => exact ih.cons_cons nId
  exact hsub.nodup (Finset.sort_nodup _ _)

theorem count_eq_countP (p : CAddrInfo → Bool) :
    MapSum.count p am.mapInfo = am.entries.countP fun e ↦ p e.2 := by
  have hnodup : (am.entries.filter fun e ↦ p e.2).map Prod.fst |>.Nodup :=
    (List.filter_sublist.map Prod.fst).nodup nodup_entries
  rw [List.countP_eq_length_filter, ← List.length_map (f := Prod.fst),
    ← List.toFinset_card_of_nodup hnodup, MapSum.count]
  congr 1
  ext nId
  rw [Finset.mem_filter, List.mem_toFinset, List.mem_map, Finmap.mem_keys, ← Finmap.lookup_isSome]
  constructor
  · rintro ⟨hsome, hp⟩
    obtain ⟨info, hl⟩ := Option.isSome_iff_exists.mp hsome
    rw [hl] at hp
    exact ⟨(nId, info), List.mem_filter.mpr ⟨mem_entries.mpr hl, hp⟩, rfl⟩
  · rintro ⟨e, he, rfl⟩
    obtain ⟨hmem, hp⟩ := List.mem_filter.mp he
    rw [mem_entries.mp hmem]
    exact ⟨rfl, hp⟩

/-- The new entries in the order in which they are written. -/
def newEntries (am : CAddrMan) : List (Nat × CAddrInfo) := am.entries.filter (! ·.2.fInTried)

/-- The tried entries in the order in which they are written. -/
def triedEntries (am : CAddrMan) : List (Nat × CAddrInfo) := am.entries.filter (·.2.fInTried)

/-- The place of an id among the new entries. -/
def place (am : CAddrMan) (nId : Nat) : Nat := (am.newEntries.map Prod.fst).idxOf nId

/-- The indices of a bucket in the file. -/
def indices (am : CAddrMan) (b : NewBucket) : List Nat :=
  ((am.vvNew b).sort (· ≤ ·)).map am.place

/-- The first loop of the writer numbers the new entries. -/
theorem writeNewInfos_spec {nNew : Int} {rest : List (Nat × CAddrInfo)} (nIds : Int)
    (mapUnkIds : Finmap fun _ : Nat ↦ Int) (hnodup : (rest.map Prod.fst).Nodup)
    (href : ∀ e ∈ rest, e.2.nRefCount = 0 ↔ e.2.fInTried = true)
    (hnNew : nNew = nIds + (rest.filter (! ·.2.fInTried)).length) :
    (writeNewInfos nNew rest nIds mapUnkIds).2 =
      (rest.filter (! ·.2.fInTried)).flatMap (·.2.serialize 0) ∧
    (∀ (j : Nat) e, (rest.filter (! ·.2.fInTried))[j]? = some e →
      (writeNewInfos nNew rest nIds mapUnkIds).1.lookup e.1 = some (nIds + j)) ∧
    ∀ nId, nId ∉ rest.map Prod.fst →
      (writeNewInfos nNew rest nIds mapUnkIds).1.lookup nId = mapUnkIds.lookup nId := by
  induction rest generalizing nIds mapUnkIds with
  | nil => exact ⟨rfl, nofun, fun _ _ ↦ rfl⟩
  | cons e rest ih =>
      obtain ⟨nId, info⟩ := e
      rw [List.map_cons, List.nodup_cons] at hnodup
      obtain ⟨hnotMem, hnodup⟩ := hnodup
      have href' : ∀ e ∈ rest, e.2.nRefCount = 0 ↔ e.2.fInTried = true := fun e he ↦
        href e (List.mem_cons_of_mem _ he)
      have hself : info.nRefCount = 0 ↔ info.fInTried = true := href _ List.mem_cons_self
      rw [writeNewInfos]
      cases hin : info.fInTried with
      | true =>
          rw [List.filter_cons_of_neg (by rw [hin]; exact Bool.false_ne_true)] at hnNew ⊢
          split
          case isTrue heq =>
            -- no new entry is left
            have hnil : rest.filter (! ·.2.fInTried) = [] := by
              rw [← List.length_eq_zero_iff]
              omega
            rw [hnil]
            exact ⟨rfl, nofun, fun _ _ ↦ rfl⟩
          case isFalse =>
            dsimp only
            rw [if_neg (not_not_intro (hself.mpr hin))]
            obtain ⟨hbytes, hnum, hother⟩ := ih nIds (mapUnkIds.insert nId nIds) hnodup href' hnNew
            refine ⟨hbytes, hnum, fun nId' hnot ↦ ?_⟩
            rw [List.map_cons, List.mem_cons, not_or] at hnot
            rw [hother nId' hnot.2, Finmap.lookup_insert_of_ne _ hnot.1]
      | false =>
          rw [List.filter_cons_of_pos (by rw [hin]; rfl)] at hnNew ⊢
          rw [List.length_cons] at hnNew
          push_cast at hnNew
          dsimp only
          rw [if_neg (by omega), if_pos (mt hself.mp (by rw [hin]; exact Bool.false_ne_true))]
          obtain ⟨hbytes, hnum, hother⟩ := ih (nIds + 1) (mapUnkIds.insert nId nIds) hnodup
            href' (by omega)
          refine ⟨?_, fun j e he ↦ ?_, fun nId' hnot ↦ ?_⟩
          · rw [List.flatMap_cons, ← hbytes]
          · cases j with
            | zero =>
                obtain rfl := Option.some.inj he
                refine (hother nId hnotMem).trans ?_
                rw [Finmap.lookup_insert, Nat.cast_zero, add_zero]
            | succ j =>
                rw [List.getElem?_cons_succ] at he
                refine (hnum j e he).trans ?_
                push_cast
                rw [add_assoc, add_comm 1 (j : Int)]
          · rw [List.map_cons, List.mem_cons, not_or] at hnot
            refine (hother nId' hnot.2).trans ?_
            rw [Finmap.lookup_insert_of_ne _ hnot.1]

/-- The second loop of the writer. -/
theorem writeTriedInfos_spec {nTried nIds : Int} {rest : List (Nat × CAddrInfo)}
    (hnTried : nTried = nIds + (rest.filter (·.2.fInTried)).length) :
    writeTriedInfos nTried rest nIds =
      (rest.filter (·.2.fInTried)).flatMap (·.2.serialize 0) := by
  induction rest generalizing nIds with
  | nil => rfl
  | cons e rest ih =>
      obtain ⟨nId, info⟩ := e
      rw [writeTriedInfos]
      cases hin : info.fInTried with
      | true =>
          rw [List.filter_cons_of_pos (by exact hin)] at hnTried ⊢
          rw [List.length_cons] at hnTried
          push_cast at hnTried
          rw [if_neg (by omega), if_pos rfl, ih (by omega), List.flatMap_cons]
      | false =>
          rw [List.filter_cons_of_neg (by rw [hin]; exact Bool.false_ne_true)] at hnTried ⊢
          rw [if_neg Bool.false_ne_true]
          split
          case isTrue heq =>
            -- no tried entry is left
            have hnil : rest.filter (·.2.fInTried) = [] := by
              rw [← List.length_eq_zero_iff]
              omega
            rw [hnil]
            rfl
          case isFalse => exact ih hnTried

theorem mem_newEntries {e : Nat × CAddrInfo} : e ∈ am.newEntries ↔
    am.mapInfo.lookup e.1 = some e.2 ∧ e.2.fInTried = false := by
  rw [newEntries, List.mem_filter, mem_entries, Bool.not_eq_true']

theorem mem_triedEntries {e : Nat × CAddrInfo} : e ∈ am.triedEntries ↔
    am.mapInfo.lookup e.1 = some e.2 ∧ e.2.fInTried = true := by
  rw [triedEntries, List.mem_filter, mem_entries]

theorem nodup_newEntries : (am.newEntries.map Prod.fst).Nodup :=
  (List.filter_sublist.map Prod.fst).nodup nodup_entries

theorem place_of_getElem? {j : Nat} {e : Nat × CAddrInfo} (he : am.newEntries[j]? = some e) :
    am.place e.1 = j := by
  obtain ⟨hj, rfl⟩ := List.getElem?_eq_some_iff.mp he
  have hj' : j < (am.newEntries.map Prod.fst).length := by rwa [List.length_map]
  have hidx := nodup_newEntries.idxOf_getElem j hj'
  rwa [List.getElem_map] at hidx

theorem getElem?_place {nId : Nat} {info : CAddrInfo} (hl : am.mapInfo.lookup nId = some info)
    (hin : info.fInTried = false) : am.newEntries[am.place nId]? = some (nId, info) := by
  obtain ⟨j, hj⟩ := List.mem_iff_getElem?.mp (mem_newEntries (e := (nId, info)).mpr ⟨hl, hin⟩)
  rwa [place_of_getElem? hj]

namespace Settled

/-- An id in a new bucket has its place. -/
theorem exists_place (h : am.Settled) {nId : Nat} {b : NewBucket} (hb : nId ∈ am.vvNew b) :
    ∃ info, am.mapInfo.lookup nId = some info ∧ info.fInTried = false ∧
      am.newEntries[am.place nId]? = some (nId, info) := by
  obtain ⟨info, hl, hin⟩ := h.inv.exists_lookup_of_new hb
  exact ⟨info, hl, hin, getElem?_place hl hin⟩

theorem mem_indices (h : am.Settled) {j : Nat} {e : Nat × CAddrInfo}
    (he : am.newEntries[j]? = some e) (b : NewBucket) : j ∈ am.indices b ↔ e.1 ∈ am.vvNew b := by
  rw [indices, List.mem_map]
  constructor
  · rintro ⟨nId, hmem, rfl⟩
    rw [Finset.mem_sort] at hmem
    obtain ⟨info, -, -, hget⟩ := h.exists_place hmem
    rw [hget] at he
    obtain rfl := Option.some.inj he
    exact hmem
  · intro hmem
    exact ⟨e.1, (Finset.mem_sort _).mpr hmem, place_of_getElem? he⟩

theorem lt_of_mem_indices (h : am.Settled) {j : Nat} {b : NewBucket} (hj : j ∈ am.indices b) :
    j < am.newEntries.length := by
  obtain ⟨nId, hmem, rfl⟩ := List.mem_map.mp hj
  obtain ⟨info, -, -, hget⟩ := h.exists_place ((Finset.mem_sort _).mp hmem)
  exact (List.getElem?_eq_some_iff.mp hget).1

theorem nodup_indices (h : am.Settled) (b : NewBucket) : (am.indices b).Nodup := by
  refine (Finset.sort_nodup _ _).map_on fun nId hmem nId' hmem' heq ↦ ?_
  obtain ⟨info, -, -, hget⟩ := h.exists_place ((Finset.mem_sort _).mp hmem)
  obtain ⟨info', -, -, hget'⟩ := h.exists_place ((Finset.mem_sort _).mp hmem')
  rw [heq, hget'] at hget
  exact (congrArg Prod.fst (Option.some.inj hget)).symm

theorem filter_mem_indices (h : am.Settled) {j : Nat} {e : Nat × CAddrInfo}
    (he : am.newEntries[j]? = some e) :
    (Finset.univ.filter fun b ↦ j ∈ am.indices b) = am.bucketsOf e.1 :=
  Finset.filter_congr fun b _ ↦ h.mem_indices he b

/-- The counters are the lengths of the two lists. -/
theorem counts_eq (h : am.Settled) : am.nNew = am.newEntries.length ∧
    am.nTried = am.triedEntries.length := by
  have hnNew := h.inv.nNew_eq
  rw [add_zero] at hnNew
  rw [hnNew, h.inv.nTried_eq, count_eq_countP, count_eq_countP, List.countP_eq_length_filter,
    List.countP_eq_length_filter]
  exact ⟨rfl, rfl⟩

/-- The file. -/
theorem serialize_eq (h : am.Settled) : am.serialize =
    serializeByte 0 ++ serializeVector serializeByte am.nKey ++
      serializeInt (am.newEntries.map Prod.snd).length ++
      serializeInt (am.triedEntries.map Prod.snd).length ++ serializeInt 256 ++
      (am.newEntries.map Prod.snd).flatMap (·.serialize 0) ++
      (am.triedEntries.map Prod.snd).flatMap (·.serialize 0) ++
      (List.finRange 256).flatMap fun b ↦ writeIndices (am.indices b) := by
  obtain ⟨hnNew, hnTried⟩ := h.counts_eq
  have href : ∀ e ∈ am.entries, e.2.nRefCount = 0 ↔ e.2.fInTried = true := by
    intro e he
    have hl := mem_entries.mp he
    have hcount := h.inv.nRefCount_eq e.1 _ (view_of_lookup hl)
    cases hin : e.2.fInTried with
    | true =>
        rw [h.inv.bucketsOf_eq_empty hl hin] at hcount
        exact iff_of_true hcount rfl
    | false =>
        have hone := h.limits.one_le e.1 ((view_of_lookup hl).trans (congrArg some hin)) rfl
        refine iff_of_false ?_ Bool.false_ne_true
        omega
  obtain ⟨hbytes, hnum, -⟩ := writeNewInfos_spec 0 ∅ nodup_entries href
    (hnNew.trans (zero_add _).symm)
  have hbucket : ∀ b, writeBucket (writeNewInfos am.nNew am.entries 0 ∅).1 (am.vvNew b) =
      writeIndices (am.indices b) := by
    intro b
    rw [writeBucket, writeIndices, indices, List.length_map, Finset.length_sort, List.flatMap_map]
    congr 1
    refine List.flatMap_congr fun nId hmem ↦ ?_
    obtain ⟨info, -, -, hget⟩ := h.exists_place ((Finset.mem_sort _).mp hmem)
    have hnumber := hnum _ _ hget
    rw [zero_add] at hnumber
    rw [hnumber]
    rfl
  rw [serialize]
  dsimp only
  simp only [hbucket]
  rw [hbytes, writeTriedInfos_spec (hnTried.trans (zero_add _).symm), hnNew, hnTried,
    List.length_map, List.length_map, List.flatMap_map, List.flatMap_map]
  rfl

end Settled

/-! ## The round trip -/

/-- The data of an address with the new buckets that hold it. -/
def entry (am : CAddrMan) (addr : CNetAddr) : Option (CAddrInfo × Finset NewBucket) :=
  (am.find addr).map fun (nId, info) ↦ (info.saved, am.bucketsOf nId)

/-- How many tried entries have the hash of a tried bucket. -/
def triedCount (E : AddrEnv) (am : CAddrMan) (k : TriedBucket) : Nat :=
  MapSum.count (fun info ↦ info.fInTried && E.getTriedBucket am.nKey info.toCService == k)
    am.mapInfo

/-- The fields of the entries fit in their C++ types. -/
def WellTyped (am : CAddrMan) : Prop :=
  ∀ nId info, am.mapInfo.lookup nId = some info → info.WellTyped

theorem Settled.length_entries_le (h : am.Settled) : am.entries.length ≤ 20481 := by
  refine le_trans ?_ (h.inv.length_vRandom_le h.limits 0 fun _ hne ↦ absurd rfl hne)
  rw [← List.length_map (f := Prod.fst)]
  refine (nodup_entries.subperm fun nId hmem ↦ ?_).length_le
  obtain ⟨e, he, rfl⟩ := List.mem_map.mp hmem
  rw [h.inv.points.mem_iff, view_of_lookup (mem_entries.mp he)]
  rfl

theorem triedCount_eq (am : CAddrMan) (k : TriedBucket) : am.triedCount E k =
    hashCount E am.nKey ((am.triedEntries.map Prod.snd).map CAddrInfo.onDisk) k := by
  rw [triedCount, count_eq_countP, hashCount, List.countP_map, List.countP_map, triedEntries,
    List.countP_filter]
  refine List.countP_congr fun e _ ↦ ?_
  rw [Bool.and_comm]
  rfl

/-- What is read back of what is written. -/
theorem Settled.trip (E : AddrEnv) (h : am.Settled) (hkey : am.nKey.length ≤ maxSize)
    (htyped : am.WellTyped) :
    ∃ am' kept, unserialize E am.serialize = .ok (am', []) ∧
      kept.Sublist ((am.triedEntries.map Prod.snd).map CAddrInfo.onDisk) ∧
      ((∀ k, am.triedCount E k ≤ addrmanTriedBucketSize) →
        kept = (am.triedEntries.map Prod.snd).map CAddrInfo.onDisk) ∧
      Rebuilt E am.nKey ((am.newEntries.map Prod.snd).map CAddrInfo.onDisk ++
        kept.map (·.setInTried true)) am.indices am' := by
  have hnewLen : am.newEntries.length ≤ 20481 :=
    (List.length_filter_le _ _).trans h.length_entries_le
  have htriedLen : am.triedEntries.length ≤ 20481 :=
    (List.length_filter_le _ _).trans h.length_entries_le
  have hmem : ∀ info ∈ am.newEntries.map Prod.snd ++ am.triedEntries.map Prod.snd,
      ∃ nId, am.mapInfo.lookup nId = some info := by
    intro info hinfo
    rw [← List.map_append] at hinfo
    obtain ⟨e, he, rfl⟩ := List.mem_map.mp hinfo
    rcases List.mem_append.mp he with he | he
    · exact ⟨e.1, (mem_newEntries.mp he).1⟩
    · exact ⟨e.1, (mem_triedEntries.mp he).1⟩
  have hindices : ∀ b, (am.indices b).length ≤ addrmanNewBucketSize := by
    intro b
    rw [indices, List.length_map, Finset.length_sort]
    exact h.limits.new_le b
  have hreads : Reads (unserialize E) am.serialize
      (rebuild E am.nKey ((am.newEntries.map Prod.snd).map CAddrInfo.onDisk)
        ((am.triedEntries.map Prod.snd).map CAddrInfo.onDisk) am.indices) := by
    rw [h.serialize_eq]
    refine reads_unserialize hkey ?_ ?_ ?_ ?_ ?_ ?_
    · intro info hinfo
      obtain ⟨nId, hl⟩ := hmem info (List.mem_append_left _ hinfo)
      exact htyped nId info hl
    · intro info hinfo
      obtain ⟨nId, hl⟩ := hmem info (List.mem_append_right _ hinfo)
      exact htyped nId info hl
    · rw [List.length_map]
      omega
    · rw [List.length_map]
      omega
    · exact fun b ↦ (hindices b).trans_lt (by norm_num [addrmanNewBucketSize])
    · intro b j hj
      have hlt := h.lt_of_mem_indices hj
      omega
  have hip : (((am.newEntries.map Prod.snd).map CAddrInfo.onDisk ++
      (am.triedEntries.map Prod.snd).map CAddrInfo.onDisk).map (·.ip)).Nodup := by
    have hperm : (am.newEntries ++ am.triedEntries).Perm am.entries :=
      List.perm_append_comm.trans
        (List.filter_append_perm (fun e : Nat × CAddrInfo ↦ e.2.fInTried) am.entries)
    rw [← List.map_append, ← List.map_append, List.map_map, List.map_map,
      (hperm.map _).nodup_iff]
    refine (List.Nodup.of_map _ nodup_entries).map_on fun e he e' he' heq ↦ ?_
    have hl := mem_entries.mp he
    have hl' := mem_entries.mp he'
    have haddr := (h.inv.mapAddr_iff _ _).mpr (view_of_lookup hl)
    rw [show e.2.ip = e'.2.ip from heq,
      (h.inv.mapAddr_iff _ _).mpr (view_of_lookup hl')] at haddr
    rw [← Option.some.inj haddr, hl'] at hl
    exact Prod.ext (Option.some.inj haddr).symm (Option.some.inj hl).symm
  have hfresh : ∀ info ∈ (am.newEntries.map Prod.snd).map CAddrInfo.onDisk,
      info.fInTried = false := by
    intro info hinfo
    obtain ⟨info₀, -, rfl⟩ := List.mem_map.mp hinfo
    rfl
  have hzero : ∀ info ∈ (am.newEntries.map Prod.snd).map CAddrInfo.onDisk ++
      (am.triedEntries.map Prod.snd).map CAddrInfo.onDisk, info.nRefCount = 0 := by
    intro info hinfo
    rw [← List.map_append] at hinfo
    obtain ⟨info₀, -, rfl⟩ := List.mem_map.mp hinfo
    rfl
  have hplace : ∀ b, ∀ j ∈ am.indices b,
      j < ((am.newEntries.map Prod.snd).map CAddrInfo.onDisk).length := by
    intro b j hj
    rw [List.length_map, List.length_map]
    exact h.lt_of_mem_indices hj
  have hone : ∀ j < ((am.newEntries.map Prod.snd).map CAddrInfo.onDisk).length,
      ∃ b, j ∈ am.indices b := by
    intro j hj
    rw [List.length_map, List.length_map] at hj
    have hget : am.newEntries[j]? = some am.newEntries[j] := List.getElem?_eq_getElem hj
    obtain ⟨hl, hin⟩ := mem_newEntries.mp (List.getElem_mem hj)
    have hpos := h.limits.one_le _ ((view_of_lookup hl).trans (congrArg some hin)) rfl
    obtain ⟨b, hb⟩ := Finset.card_pos.mp hpos
    exact ⟨b, (h.mem_indices hget b).mpr (mem_bucketsOf.mp hb)⟩
  have hfour : ∀ j, (Finset.univ.filter fun b ↦ j ∈ am.indices b).card ≤
      addrmanNewBucketsPerAddress := by
    intro j
    by_cases hj : j < am.newEntries.length
    · rw [h.filter_mem_indices (List.getElem?_eq_getElem hj)]
      exact h.limits.le_four _
    · rw [Finset.filter_false_of_mem fun b _ hmem ↦ hj (h.lt_of_mem_indices hmem)]
      exact Nat.zero_le _
  obtain ⟨kept, hsub, hall, hrebuilt⟩ := rebuild_spec E am.nKey _ _ am.indices hip hfresh hzero
    h.nodup_indices hindices hplace hone hfour
  have hr := hreads []
  rw [List.append_nil] at hr
  refine ⟨_, kept, hr, hsub, fun hle ↦ hall fun k ↦ ?_, hrebuilt⟩
  rw [← triedCount_eq]
  exact hle k

theorem Settled.entry_eq_some (h : am.Settled) {addr : CNetAddr}
    {x : CAddrInfo × Finset NewBucket} : am.entry addr = some x ↔
      ∃ nId info, am.mapInfo.lookup nId = some info ∧ info.ip = addr ∧
        (info.saved, am.bucketsOf nId) = x := by
  rw [entry, Option.map_eq_some_iff]
  constructor
  · rintro ⟨⟨nId, info⟩, hfind, heq⟩
    have hl := find_eq_some hfind
    obtain ⟨nId', haddr, hbind⟩ := Option.bind_eq_some_iff.mp hfind
    obtain ⟨info', -, hpair⟩ := Option.bind_eq_some_iff.mp hbind
    obtain ⟨rfl, rfl⟩ := Prod.mk.inj (Option.some.inj hpair)
    have hip := (h.inv.mapAddr_iff addr nId').mp haddr
    rw [view_of_lookup hl] at hip
    exact ⟨nId', info', hl, Option.some.inj hip, heq⟩
  · rintro ⟨nId, info, hl, rfl, heq⟩
    refine ⟨(nId, info), ?_, heq⟩
    rw [find, (h.inv.mapAddr_iff info.ip nId).mpr (view_of_lookup hl), Option.bind_eq_bind,
      Option.bind_some, hl]
    rfl

namespace Rebuilt

variable {am' : CAddrMan}

theorem entry_eq_some (hr : Rebuilt E nKey es buckets am') {addr : CNetAddr}
    {x : CAddrInfo × Finset NewBucket} : am'.entry addr = some x ↔
      ∃ j info, es[j]? = some info ∧ info.ip = addr ∧
        (info.saved, Finset.univ.filter fun b ↦ j ∈ buckets b) = x := by
  have hbuckets : ∀ j, am'.bucketsOf j = Finset.univ.filter fun b ↦ j ∈ buckets b := fun j ↦
    Finset.filter_congr fun b _ ↦ hr.mem_vvNew b j
  rw [hr.settled.entry_eq_some]
  constructor
  · rintro ⟨j, info, hl, rfl, rfl⟩
    have hcore := hr.view_core j
    rw [view_of_lookup hl] at hcore
    obtain ⟨info', hget, heq⟩ := Option.map_eq_some_iff.mp hcore.symm
    refine ⟨j, info', hget, congrArg (·.ip) heq, ?_⟩
    rw [← hbuckets, CAddrInfo.saved_eq heq]
  · rintro ⟨j, info, hget, rfl, rfl⟩
    have hcore := hr.view_core j
    rw [hget] at hcore
    obtain ⟨info', hl, heq⟩ := view_eq_some hcore
    refine ⟨j, info', hl, congrArg (·.ip) heq, ?_⟩
    rw [← hbuckets, CAddrInfo.saved_eq heq]

/-- Nothing is made up. -/
theorem entry_of_entry (h : am.Settled) {kept : List CAddrInfo}
    (hsub : kept.Sublist ((am.triedEntries.map Prod.snd).map CAddrInfo.onDisk))
    (hr : Rebuilt E nKey ((am.newEntries.map Prod.snd).map CAddrInfo.onDisk ++
      kept.map (·.setInTried true)) am.indices am') {addr : CNetAddr}
    {x : CAddrInfo × Finset NewBucket} (hx : am'.entry addr = some x) :
    am.entry addr = some x := by
  obtain ⟨j, info, hget, rfl, rfl⟩ := hr.entry_eq_some.mp hx
  rw [h.entry_eq_some]
  by_cases hj : j < am.newEntries.length
  · have hget₀ : am.newEntries[j]? = some am.newEntries[j] := List.getElem?_eq_getElem hj
    obtain ⟨hl, hin⟩ := mem_newEntries.mp (List.getElem_mem hj)
    rw [List.getElem?_append_left (by rw [List.length_map, List.length_map]; exact hj),
      List.getElem?_map, List.getElem?_map, hget₀] at hget
    obtain rfl := Option.some.inj hget
    refine ⟨_, _, hl, rfl, ?_⟩
    rw [CAddrInfo.saved_onDisk hin, h.filter_mem_indices hget₀]
  · have hlen : ((am.newEntries.map Prod.snd).map CAddrInfo.onDisk).length ≤ j := by
      rw [List.length_map, List.length_map]
      exact Nat.not_lt.mp hj
    rw [List.getElem?_append_right hlen, List.getElem?_map] at hget
    obtain ⟨info₁, hget₁, rfl⟩ := Option.map_eq_some_iff.mp hget
    obtain ⟨info₀, hmem, rfl⟩ := List.mem_map.mp (hsub.subset (List.mem_of_getElem? hget₁))
    obtain ⟨e, he, rfl⟩ := List.mem_map.mp hmem
    obtain ⟨hl, hin⟩ := mem_triedEntries.mp he
    refine ⟨e.1, e.2, hl, rfl, ?_⟩
    rw [CAddrInfo.saved_onDisk_tried hin, h.inv.bucketsOf_eq_empty hl hin,
      Finset.filter_false_of_mem fun b _ hmem ↦ hj (h.lt_of_mem_indices hmem)]

/-- The new entries are there, and the tried ones if none was lost. -/
theorem entry_of_kept (h : am.Settled) {kept : List CAddrInfo}
    (hr : Rebuilt E nKey ((am.newEntries.map Prod.snd).map CAddrInfo.onDisk ++
      kept.map (·.setInTried true)) am.indices am') {addr : CNetAddr}
    {x : CAddrInfo × Finset NewBucket} (hx : am.entry addr = some x)
    (hkept : x.1.fInTried = true →
      kept = (am.triedEntries.map Prod.snd).map CAddrInfo.onDisk) :
    am'.entry addr = some x := by
  obtain ⟨nId, info, hl, rfl, rfl⟩ := h.entry_eq_some.mp hx
  rw [hr.entry_eq_some]
  cases hin : info.fInTried with
  | false =>
      have hget := getElem?_place hl hin
      obtain ⟨hlt, -⟩ := List.getElem?_eq_some_iff.mp hget
      refine ⟨am.place nId, info.onDisk, ?_, rfl, ?_⟩
      · rw [List.getElem?_append_left (by rw [List.length_map, List.length_map]; exact hlt),
          List.getElem?_map, List.getElem?_map, hget]
        rfl
      · rw [CAddrInfo.saved_onDisk hin, h.filter_mem_indices hget]
  | true =>
      rw [hkept hin]
      obtain ⟨j, hj⟩ := List.mem_iff_getElem?.mp
        (mem_triedEntries (e := (nId, info)).mpr ⟨hl, hin⟩)
      refine ⟨am.newEntries.length + j, info.onDisk.setInTried true, ?_, rfl, ?_⟩
      · rw [List.getElem?_append_right (by rw [List.length_map, List.length_map]; omega),
          List.length_map, List.length_map, Nat.add_sub_cancel_left, List.getElem?_map,
          List.getElem?_map, List.getElem?_map, hj]
        rfl
      · rw [CAddrInfo.saved_onDisk_tried hin, h.inv.bucketsOf_eq_empty hl hin,
          Finset.filter_false_of_mem fun b _ hmem ↦ ?_]
        have hlt := h.lt_of_mem_indices hmem
        omega

/-- The time of the last try is not read back, and the other times are as they were. -/
theorem times {kept : List CAddrInfo}
    (hsub : kept.Sublist ((am.triedEntries.map Prod.snd).map CAddrInfo.onDisk))
    (hr : Rebuilt E nKey ((am.newEntries.map Prod.snd).map CAddrInfo.onDisk ++
      kept.map (·.setInTried true)) am.indices am') {j : Nat} {info : CAddrInfo}
    (hl : am'.mapInfo.lookup j = some info) :
    info.nLastTry = 0 ∧ ∃ nId info₀, am.mapInfo.lookup nId = some info₀ ∧
      info.nLastSuccess = info₀.nLastSuccess ∧ info.fInTried = info₀.fInTried := by
  have hcore := hr.view_core j
  rw [view_of_lookup hl] at hcore
  obtain ⟨e, hget, heq⟩ := Option.map_eq_some_iff.mp hcore.symm
  have htry : info.nLastTry = e.nLastTry := (congrArg (·.nLastTry) heq).symm
  have hsuccess : info.nLastSuccess = e.nLastSuccess := (congrArg (·.nLastSuccess) heq).symm
  have htried : info.fInTried = e.fInTried := (congrArg (·.fInTried) heq).symm
  rw [htry, hsuccess, htried]
  rcases List.mem_append.mp (List.mem_of_getElem? hget) with hmem | hmem
  · obtain ⟨info₁, hmem₁, rfl⟩ := List.mem_map.mp hmem
    obtain ⟨e₀, he₀, rfl⟩ := List.mem_map.mp hmem₁
    obtain ⟨hl₀, hin⟩ := mem_newEntries.mp he₀
    exact ⟨rfl, e₀.1, e₀.2, hl₀, rfl, hin.symm⟩
  · obtain ⟨info₁, hmem₁, rfl⟩ := List.mem_map.mp hmem
    obtain ⟨info₂, hmem₂, rfl⟩ := List.mem_map.mp (hsub.subset hmem₁)
    obtain ⟨e₀, he₀, rfl⟩ := List.mem_map.mp hmem₂
    obtain ⟨hl₀, hin⟩ := mem_triedEntries.mp he₀
    exact ⟨rfl, e₀.1, e₀.2, hl₀, rfl, hin.symm⟩

end Rebuilt

/-- In their buckets, no more entries have a hash than there is room for. -/
theorem Settled.triedCount_le (h : am.Settled) (hfiled : am.Filed E) (k : TriedBucket) :
    am.triedCount E k ≤ addrmanTriedBucketSize := by
  refine le_trans (le_trans (Finset.card_le_card ?_) (List.toFinset_card_le (am.vvTried k)))
    (h.limits.tried_le k)
  intro nId hnId
  rw [Finset.mem_filter, Option.any_eq_true] at hnId
  obtain ⟨-, info, hl, htest⟩ := hnId
  rw [Bool.and_eq_true, beq_iff_eq] at htest
  obtain ⟨k', hk'⟩ := (h.inv.tried_iff nId).mpr ((view_of_lookup hl).trans (congrArg some htest.1))
  have hk := hfiled nId k' info hk' hl
  rw [htest.2] at hk
  rw [List.mem_toFinset, hk]
  exact hk'

/-- What reading back gives. -/
structure ReadBack (E : AddrEnv) (am am' : CAddrMan) : Prop where
  consistent : am'.Consistent
  times : am.TimesOk → am'.TimesOk
  nKey : am'.nKey = am.nKey
  filed : am'.Filed E
  /-- An address is as it was, or was tried and is lost. -/
  entry : ∀ addr, am'.entry addr = am.entry addr ∨ am'.entry addr = none ∧
    ∃ x, am.entry addr = some x ∧ x.1.fInTried = true
  none_lost : (∀ k, am.triedCount E k ≤ addrmanTriedBucketSize) →
    ∀ addr, am'.entry addr = am.entry addr
  nLastTry : ∀ nId info, am'.mapInfo.lookup nId = some info → info.nLastTry = 0

theorem Settled.readBack (E : AddrEnv) (h : am.Settled) (hkey : am.nKey.length ≤ maxSize)
    (htyped : am.WellTyped) :
    ∃ am', unserialize E am.serialize = .ok (am', []) ∧ ReadBack E am am' := by
  obtain ⟨am', kept, hread, hsub, hall, hr⟩ := h.trip E hkey htyped
  refine ⟨am', hread, hr.settled.consistent, fun htimes j info hl ↦ ?_, hr.key, hr.filed,
    fun addr ↦ ?_, fun hle addr ↦ ?_, fun j info hl ↦ (hr.times hsub hl).1⟩
  · obtain ⟨htry, nId, info₀, hl₀, hsuccess, htried⟩ := hr.times hsub hl
    have hold := htimes nId info₀ hl₀
    refine ⟨htry.ge, ?_, ?_⟩
    · rw [hsuccess]
      exact hold.nLastSuccess
    · rw [hsuccess, htried]
      exact hold.tried
  · cases hx' : am'.entry addr with
    | some x => exact Or.inl (hr.entry_of_entry h hsub hx').symm
    | none =>
        cases hx : am.entry addr with
        | none => exact Or.inl rfl
        | some x =>
            refine Or.inr ⟨rfl, x, rfl, ?_⟩
            by_contra hin
            have hthere := hr.entry_of_kept h hx fun htrue ↦ absurd htrue hin
            rw [hx'] at hthere
            cases hthere
  · cases hx : am.entry addr with
    | some x => exact hr.entry_of_kept h hx fun _ ↦ hall hle
    | none =>
        cases hx' : am'.entry addr with
        | none => rfl
        | some x =>
            rw [hr.entry_of_entry h hsub hx'] at hx
            cases hx

end CAddrMan

open CAddrMan

/-- **The round trip.**  Reading what was written gives a consistent address manager with the same
key and, by their addresses, the same entries in the same new buckets, except for tried entries that
find no room in the bucket of their hash.  There is room if the tried entries stand in the buckets
of their hashes, and so they do after any calls in which no counter overflows. -/
theorem addrMan_roundTrip (E : AddrEnv) :
    (∀ am : CAddrMan, am.Consistent → am.nKey.length ≤ maxSize → am.WellTyped →
      ∃ am', unserialize E am.serialize = .ok (am', []) ∧ ReadBack E am am') ∧
    (∀ am : CAddrMan, am.Consistent → am.Filed E →
      ∀ k, am.triedCount E k ≤ addrmanTriedBucketSize) ∧
    ∀ nKey calls am, AddrCall.runAll E (CAddrMan.new nKey) calls = some am →
      am.Consistent ∧ am.Filed E := by
  refine ⟨fun _ h ↦ h.settled.readBack E, fun _ h ↦ h.settled.triedCount_le,
    fun nKey calls am hrun ↦ ?_⟩
  obtain ⟨am', hrun', hs, hadvanced⟩ := AddrCall.runAll_spec calls (settled_new nKey)
    (AddrCall.allInRange_of_runAll hrun)
  rw [hrun] at hrun'
  obtain rfl := Option.some.inj hrun'
  exact ⟨hs.consistent, hadvanced.filed nofun⟩

/-- An address is added, found good and moved to the tried ones.  A second one is named by two
sources and stands in two new buckets. -/
def sampleGoodCalls : List AddrCall :=
  [.add { sampleService with nTime := 1000 } 2 0 1000 (fun _ ↦ 0),
    .good sampleService 90001 (fun _ ↦ 0),
    .add { ip := 2, port := 8333, nTime := 1000 } 2 0 1000 (fun _ ↦ 0),
    .add { ip := 2, port := 8333, nTime := 90000 } 3 7200 90000 (fun _ ↦ 0)]

def sampleGoodInfo : CAddrInfo :=
  { sampleService with
    nTime := 90001, nLastTry := 90001, source := 2, nLastSuccess := 90001, fInTried := true,
    nRandomPos := 0 }

def sampleNewInfo : CAddrInfo :=
  { ip := 2, port := 8333, nTime := 82800, source := 2, nRefCount := 2, nRandomPos := 1 }

theorem sampleGoodRun : ∃ am, AddrCall.runAll sampleAddrEnv (CAddrMan.new [0]) sampleGoodCalls =
    some am ∧ am.Settled ∧ am.WellTyped ∧ am.TimesOk ∧ am.nKey = [0] ∧
      am.find 1 = some (0, sampleGoodInfo) ∧ am.entry 2 = some (sampleNewInfo.saved, {4, 5}) := by
  have hrange : AddrCall.AllInRange sampleAddrEnv (CAddrMan.new [0]) sampleGoodCalls :=
    AddrCall.allInRange_of_length (settled_new [0]) (countsLe_new [0]) (by decide)
  obtain ⟨am, hrun, hs, hadvanced⟩ := AddrCall.runAll_spec sampleGoodCalls (settled_new [0]) hrange
  have hfinal : (AddrCall.runAll sampleAddrEnv (CAddrMan.new [0]) sampleGoodCalls).map
      (fun am ↦ (am.nIdCount, am.find 1, am.find 2, am.bucketsOf 1)) =
        some (2, some (0, sampleGoodInfo), some (1, sampleNewInfo), {4, 5}) := by decide +kernel
  rw [hrun] at hfinal
  simp only [Option.map_some, Option.some.injEq, Prod.mk.injEq] at hfinal
  obtain ⟨hid, hfind, hfind₂, hbuckets⟩ := hfinal
  have hl₀ := find_eq_some hfind
  have hl₁ := find_eq_some hfind₂
  have hentry : am.entry 2 = some (sampleNewInfo.saved, {4, 5}) := by
    rw [entry, hfind₂, ← hbuckets]
    rfl
  have honly : ∀ nId info, am.mapInfo.lookup nId = some info →
      info = sampleGoodInfo ∨ info = sampleNewInfo := by
    intro nId info hinfo
    have hlt := hs.inv.id_lt nId _ (view_of_lookup hinfo)
    obtain rfl | rfl : nId = 0 ∨ nId = 1 := by omega
    · exact .inl (Option.some.inj (hl₀.symm.trans hinfo)).symm
    · exact .inr (Option.some.inj (hl₁.symm.trans hinfo)).symm
  refine ⟨am, hrun, hs, fun nId info hinfo ↦ ?_, fun nId info hinfo ↦ ?_, hadvanced.nKey, hfind,
    hentry⟩
  · obtain rfl | rfl := honly nId info hinfo
    · exact ⟨by decide, by decide⟩
    · exact ⟨by decide, by decide⟩
  · obtain rfl | rfl := honly nId info hinfo
    · exact ⟨by decide, by decide, by decide⟩
    · exact ⟨by decide, by decide, by decide⟩

theorem addrMan_roundTrip_sample : ∃ am am',
    AddrCall.runAll sampleAddrEnv (CAddrMan.new [0]) sampleGoodCalls = some am ∧
      unserialize sampleAddrEnv am.serialize = .ok (am', []) ∧ am'.Consistent ∧
      am'.entry 1 = some (sampleGoodInfo.saved, ∅) ∧
      am'.entry 2 = some (sampleNewInfo.saved, {4, 5}) := by
  obtain ⟨htrip, hroom, hreach⟩ := addrMan_roundTrip sampleAddrEnv
  obtain ⟨am, hrun, hs, htyped, -, hkey, hfind, hentry⟩ := sampleGoodRun
  obtain ⟨hconsistent, hfiled⟩ := hreach [0] sampleGoodCalls am hrun
  obtain ⟨am', hread, hback⟩ := htrip am hconsistent (by rw [hkey]; decide) htyped
  have hnone := hback.none_lost (hroom am hconsistent hfiled)
  refine ⟨am, am', hrun, hread, hback.consistent, ?_, (hnone 2).trans hentry⟩
  rw [hnone 1, entry, hfind]
  exact congrArg (fun buckets ↦ some (sampleGoodInfo.saved, buckets))
    (hs.inv.bucketsOf_eq_empty (find_eq_some hfind) rfl)

/-- 65 tried addresses. -/
def sampleCrowd : List CAddrInfo :=
  (List.range 65).map fun n ↦ { ip := BitVec.ofNat 128 n, nLastSuccess := 1 }

def sampleSpreadEnv : AddrEnv :=
  { sampleAddrEnv with getTriedBucket := fun _ addr ↦ (addr.ip.setWidth 6).toFin }

def sampleNarrowEnv : AddrEnv := { sampleAddrEnv with getTriedBucket := fun _ _ ↦ Fin.last 63 }

/-- The 65 addresses, spread over the tried buckets. -/
def sampleCrowded : CAddrMan := rebuild sampleSpreadEnv [0] [] sampleCrowd fun _ ↦ []

theorem sampleCrowded_spec : sampleCrowded.Settled ∧ sampleCrowded.nKey = [0] ∧
    sampleCrowded.nTried = 65 ∧ ∀ nId info, sampleCrowded.mapInfo.lookup nId = some info →
      info.nLastTry = 0 ∧ info.nLastSuccess = 1 ∧ info.nAttempts = 0 := by
  have hmem : ∀ info ∈ sampleCrowd, info.nRefCount = 0 ∧ info.nLastTry = 0 ∧
      info.nLastSuccess = 1 ∧ info.nAttempts = 0 := by
    intro info hinfo
    obtain ⟨n, -, rfl⟩ := List.mem_map.mp hinfo
    exact ⟨rfl, rfl, rfl, rfl⟩
  obtain ⟨kept, hsub, -, hr⟩ := rebuild_spec sampleSpreadEnv [0] [] sampleCrowd (fun _ ↦ [])
    (by decide +kernel)
    (nofun)
    (fun info hinfo ↦ (hmem info hinfo).1) (fun _ ↦ List.nodup_nil) (fun _ ↦ Nat.zero_le _)
    (nofun) (fun _ h ↦ absurd h (Nat.not_lt_zero _))
    fun nId ↦ by simp
  change Rebuilt _ _ _ _ sampleCrowded at hr
  refine ⟨hr.settled, hr.key, by decide +kernel, fun nId info hl ↦ ?_⟩
  have hcore := hr.view_core nId
  rw [view_of_lookup hl] at hcore
  obtain ⟨e, hget, heq⟩ := Option.map_eq_some_iff.mp hcore.symm
  rw [List.nil_append] at hget
  obtain ⟨info₀, hmem₀, rfl⟩ := List.mem_map.mp (List.mem_of_getElem? hget)
  obtain ⟨-, htry, hsuccess, hattempts⟩ := hmem info₀ (hsub.subset hmem₀)
  exact ⟨(congrArg (·.nLastTry) heq).symm.trans htry,
    (congrArg (·.nLastSuccess) heq).symm.trans hsuccess,
    (congrArg (·.nAttempts) heq).symm.trans hattempts⟩

theorem triedCount_narrow (am : CAddrMan) :
    am.triedCount sampleNarrowEnv (Fin.last 63) = MapSum.count (·.fInTried) am.mapInfo := by
  have htest : (fun info : CAddrInfo ↦ info.fInTried &&
      sampleNarrowEnv.getTriedBucket am.nKey info.toCService == Fin.last 63) = (·.fInTried) := by
    funext info
    exact Bool.and_true _
  rw [triedCount, htest]

/-- What is not kept: the time of the last try of a tried address, and one of 65 tried addresses
with the same hash. -/
theorem addrMan_roundTrip_loses :
    (∃ am am', AddrCall.runAll sampleAddrEnv (CAddrMan.new [0]) sampleGoodCalls = some am ∧
      am.Consistent ∧ am.TimesOk ∧ unserialize sampleAddrEnv am.serialize = .ok (am', []) ∧
      (∃ info, am.find 1 = some (0, info) ∧ info.fInTried = true ∧ info.nLastTry = 90001) ∧
      ∀ nId info, am'.find 1 = some (nId, info) → info.nLastTry = 0) ∧
    sampleCrowded.Consistent ∧ sampleCrowded.TimesOk ∧ sampleCrowded.nTried = 65 ∧
      ∃ am', unserialize sampleNarrowEnv sampleCrowded.serialize = .ok (am', []) ∧
        am'.nTried ≤ 64 := by
  constructor
  · obtain ⟨am, hrun, hs, htyped, htimes, hkey, hfind, -⟩ := sampleGoodRun
    obtain ⟨am', hread, hback⟩ := hs.readBack sampleAddrEnv (by rw [hkey]; decide) htyped
    exact ⟨am, am', hrun, hs.consistent, htimes, hread, ⟨_, hfind, rfl, rfl⟩,
      fun nId info hfind' ↦ hback.nLastTry nId info (find_eq_some hfind')⟩
  · obtain ⟨hs, hkey, hcount, hinfos⟩ := sampleCrowded_spec
    have htyped : sampleCrowded.WellTyped := by
      intro nId info hl
      obtain ⟨-, hsuccess, hattempts⟩ := hinfos nId info hl
      constructor
      · rw [hsuccess]
        decide
      · rw [hattempts]
        decide
    have htimes : sampleCrowded.TimesOk := by
      intro nId info hl
      obtain ⟨htry, hsuccess, -⟩ := hinfos nId info hl
      refine ⟨htry.ge, ?_, fun _ ↦ ?_⟩
      · rw [hsuccess]
        exact Int.one_nonneg
      · rw [hsuccess]
        exact one_ne_zero
    obtain ⟨am', hread, hback⟩ := hs.readBack sampleNarrowEnv (by rw [hkey]; decide) htyped
    refine ⟨hs.consistent, htimes, hcount, am', hread, ?_⟩
    have hle := hback.consistent.settled.triedCount_le hback.filed (Fin.last 63)
    rw [triedCount_narrow] at hle
    rw [hback.consistent.nTried_eq]
    exact_mod_cast hle

end Fedoracoin
