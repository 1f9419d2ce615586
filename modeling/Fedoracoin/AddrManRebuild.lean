import Fedoracoin.AddrManRead

/-!
# What the reader of the address manager rebuilds

`Filled` describes the state after each entry that is read, and `Rebuilt` the state at the end: the
ids are the places in the file, the tried buckets are those of the hashes, and the reference counts
are those of the buckets in the file.  A rebuilt address manager is consistent.
-/

namespace Fedoracoin

namespace CAddrMan

variable {E : AddrEnv} {am am' : CAddrMan} {nKey : List UInt8} {es news trieds : List CAddrInfo}
  {info : CAddrInfo}

/-- The tried entries of a bucket, in the order of their ids. -/
def hashedTo (E : AddrEnv) (nKey : List UInt8) (es : List CAddrInfo) (k : TriedBucket) : List Nat :=
  (List.range es.length).filter fun nId ↦
    es[nId]?.any fun info ↦ info.fInTried && E.getTriedBucket nKey info.toCService == k

/-- The entries `es` have been read, and their ids are their places. -/
structure Filled (E : AddrEnv) (nKey : List UInt8) (es : List CAddrInfo) (am : CAddrMan) :
    Prop where
  key : am.nKey = nKey
  lookup : ∀ nId, am.mapInfo.lookup nId = es[nId]?.map (·.setRandomPos nId)
  mapAddr_iff : ∀ addr nId, am.mapAddr.lookup addr = some nId ↔
    ∃ info, es[nId]? = some info ∧ info.ip = addr
  vRandom : am.vRandom = List.range es.length
  vvTried : am.vvTried = hashedTo E nKey es
  vvNew : am.vvNew = fun _ ↦ ∅
  count_tried : MapSum.count (·.fInTried) am.mapInfo = es.countP (·.fInTried)
  count_new : MapSum.count (! ·.fInTried) am.mapInfo = es.countP (! ·.fInTried)

theorem filled_new (E : AddrEnv) (nKey : List UInt8) (nNew nTried : Int) :
    Filled E nKey [] { CAddrMan.new nKey with nNew := nNew, nTried := nTried } where
  key := rfl
  lookup nId := rfl
  mapAddr_iff addr nId := by simp [CAddrMan.new]
  vRandom := rfl
  vvTried := rfl
  vvNew := rfl
  count_tried := rfl
  count_new := rfl

theorem hashedTo_append (E : AddrEnv) (nKey : List UInt8) (es : List CAddrInfo) (info : CAddrInfo)
    (k : TriedBucket) : hashedTo E nKey (es ++ [info]) k =
      hashedTo E nKey es k ++
        if info.fInTried && E.getTriedBucket nKey info.toCService == k then [es.length]
        else [] := by
  rw [hashedTo, List.length_append, List.length_singleton, List.range_succ, List.filter_append]
  congr 1
  · apply List.filter_congr
    intro nId hnId
    rw [List.getElem?_append_left (List.mem_range.mp hnId)]
  · rw [List.filter_singleton, List.getElem?_concat_length, Option.any_some]
    cases info.fInTried && E.getTriedBucket nKey info.toCService == k <;> rfl

namespace Filled

/-- One more entry is read. -/
theorem push (h : Filled E nKey es am) (hip : ∀ info' ∈ es, info'.ip ≠ info.ip)
    (hkey : am'.nKey = am.nKey)
    (hinfo : am'.mapInfo = am.mapInfo.insert es.length (info.setRandomPos es.length))
    (haddr : am'.mapAddr = am.mapAddr.insert info.ip es.length)
    (hrandom : am'.vRandom = am.vRandom ++ [es.length])
    (htried : am'.vvTried = hashedTo E nKey (es ++ [info])) (hnew : am'.vvNew = am.vvNew) :
    Filled E nKey (es ++ [info]) am' := by
  have hfresh : am.mapInfo.lookup es.length = none := by
    rw [h.lookup, List.getElem?_eq_none (Nat.le_refl _)]
    rfl
  have hcount : ∀ test : CAddrInfo → Bool, test (info.setRandomPos es.length) = test info →
      MapSum.count test am.mapInfo = es.countP test →
      MapSum.count test am'.mapInfo = (es ++ [info]).countP test := by
    intro test htest hold
    have hins := MapSum.count_insert test (m := am.mapInfo) (k := es.length)
      (b := info.setRandomPos es.length)
    rw [hfresh, Option.elim_none, htest, ← hinfo, hold] at hins
    rw [List.countP_append, List.countP_singleton]
    have hcast : ((if test info then 1 else 0 : Nat) : Int) = if test info then 1 else 0 :=
      Nat.cast_ite _ 1 0
    omega
  constructor
  case key => rw [hkey, h.key]
  case lookup =>
    intro nId
    rw [hinfo]
    rcases Nat.lt_trichotomy nId es.length with hlt | rfl | hlt
    · rw [Finmap.lookup_insert_of_ne _ hlt.ne, h.lookup, List.getElem?_append_left hlt]
    · rw [Finmap.lookup_insert, List.getElem?_concat_length]
      rfl
    · rw [Finmap.lookup_insert_of_ne _ hlt.ne', h.lookup, List.getElem?_eq_none hlt.le,
        List.getElem?_eq_none (by rw [List.length_append]; exact hlt)]
  case mapAddr_iff =>
    intro addr nId
    rw [haddr]
    have hlast : (es ++ [info])[es.length]? = some info := List.getElem?_concat_length
    by_cases ha : addr = info.ip
    · subst ha
      rw [Finmap.lookup_insert]
      constructor
      · intro heq
        obtain rfl := Option.some.inj heq
        exact ⟨info, hlast, rfl⟩
      · rintro ⟨info', hget, hsame⟩
        rcases Nat.lt_trichotomy nId es.length with hlt | rfl | hlt
        · rw [List.getElem?_append_left hlt] at hget
          exact absurd hsame (hip info' (List.mem_of_getElem? hget))
        · rfl
        · rw [List.getElem?_eq_none (by rw [List.length_append]; exact hlt)] at hget
          cases hget
    · rw [Finmap.lookup_insert_of_ne _ ha, h.mapAddr_iff]
      refine exists_congr fun info' ↦ and_congr_left fun hsame ↦ ?_
      rcases Nat.lt_trichotomy nId es.length with hlt | rfl | hlt
      · rw [List.getElem?_append_left hlt]
      · rw [hlast, List.getElem?_eq_none (Nat.le_refl _)]
        refine iff_of_false (by simp) fun heq ↦ ha ?_
        rw [← hsame, Option.some.inj heq]
      · rw [List.getElem?_eq_none hlt.le,
          List.getElem?_eq_none (by rw [List.length_append]; exact hlt)]
  case vRandom =>
    rw [hrandom, h.vRandom, List.length_append, List.length_singleton, List.range_succ]
  case vvTried => exact htried
  case vvNew => rw [hnew, h.vvNew]
  case count_tried => exact hcount _ rfl h.count_tried
  case count_new => exact hcount _ rfl h.count_new

end Filled

/-- The loop over the new entries. -/
theorem filled_news (hip : (news.map (·.ip)).Nodup) (hin : ∀ info ∈ news, info.fInTried = false)
    (h : Filled E nKey [] am) :
    Filled E nKey news (news.zipIdx.foldl (fun am e ↦ am.storeNew E 256 e.2 e.1) am) ∧
      (news.zipIdx.foldl (fun am e ↦ am.storeNew E 256 e.2 e.1) am).nNew = am.nNew ∧
      (news.zipIdx.foldl (fun am e ↦ am.storeNew E 256 e.2 e.1) am).nTried = am.nTried := by
  induction news using List.reverseRecOn with
  | nil => exact ⟨h, rfl, rfl⟩
  | append_singleton news info ih =>
      rw [List.map_append, List.nodup_append] at hip
      obtain ⟨hf, hnew, htried⟩ := ih hip.1 fun i hi ↦ hin i (List.mem_append_left _ hi)
      rw [List.zipIdx_append, List.foldl_append]
      generalize news.zipIdx.foldl (fun am e ↦ am.storeNew E 256 e.2 e.1) am = am₁ at hf hnew htried
      have hlen : am₁.vRandom.length = news.length := by
        rw [hf.vRandom, List.length_range]
      have hstore : am₁.storeNew E 256 news.length info = { am₁ with
          mapInfo := am₁.mapInfo.insert news.length (info.setRandomPos news.length)
          mapAddr := am₁.mapAddr.insert info.ip news.length
          vRandom := am₁.vRandom ++ [news.length] } := by
        rw [storeNew, hlen]
        exact if_neg fun hne ↦ hne rfl
      rw [Nat.zero_add]
      change Filled E nKey (news ++ [info]) (am₁.storeNew E 256 news.length info) ∧
        (am₁.storeNew E 256 news.length info).nNew = am.nNew ∧
        (am₁.storeNew E 256 news.length info).nTried = am.nTried
      rw [hstore]
      refine ⟨hf.push ?_ rfl rfl rfl rfl ?_ rfl, hnew, htried⟩
      · intro info' hmem
        exact hip.2.2 _ (List.mem_map_of_mem hmem) _
          (List.mem_map_of_mem (List.mem_singleton_self _))
      · funext k
        rw [hashedTo_append, hin info (by simp)]
        change am₁.vvTried k = _
        rw [hf.vvTried]
        simp

/-! ## The tried entries -/

/-- How many entries have the hash of a tried bucket. -/
def hashCount (E : AddrEnv) (nKey : List UInt8) (es : List CAddrInfo) (k : TriedBucket) : Nat :=
  es.countP fun info ↦ E.getTriedBucket nKey info.toCService == k

theorem length_hashedTo (hin : ∀ info ∈ news, info.fInTried = false) (kept : List CAddrInfo)
    (k : TriedBucket) : (hashedTo E nKey (news ++ kept.map (·.setInTried true)) k).length =
      hashCount E nKey kept k := by
  have hnews : (hashedTo E nKey news k).length = 0 := by
    rw [hashedTo, List.length_eq_zero_iff, List.filter_eq_nil_iff]
    intro nId hnId
    have hlt := List.mem_range.mp hnId
    rw [List.getElem?_eq_getElem hlt, Option.any_some, hin _ (List.getElem_mem hlt)]
    exact Bool.false_ne_true
  induction kept using List.reverseRecOn with
  | nil => rwa [List.map_nil, List.append_nil]
  | append_singleton kept info ih =>
      rw [List.map_append, List.map_singleton, ← List.append_assoc, hashedTo_append,
        List.length_append, ih, hashCount, hashCount, List.countP_append, List.countP_singleton]
      congr 1
      have htrue : (info.setInTried true).fInTried = true := rfl
      have hservice : (info.setInTried true).toCService = info.toCService := rfl
      rw [htrue, hservice, Bool.true_and]
      split <;> rfl

/-- The tried entries `trieds` have been read, and `kept` found place. -/
structure ReadTried (E : AddrEnv) (nKey : List UInt8) (news trieds kept : List CAddrInfo)
    (nNew nTried : Int) (s : CAddrMan × Int) : Prop where
  filled : Filled E nKey (news ++ kept.map (·.setInTried true)) s.1
  sublist : kept.Sublist trieds
  nIdCount_eq : s.1.nIdCount = news.length + kept.length
  nNew_eq : s.1.nNew = nNew
  nTried_eq : s.1.nTried = nTried
  nLost_eq : s.2 + kept.length = trieds.length
  le : ∀ k, hashCount E nKey kept k ≤ addrmanTriedBucketSize
  none_lost : (∀ k, hashCount E nKey trieds k ≤ addrmanTriedBucketSize) → kept = trieds

namespace ReadTried

variable {kept : List CAddrInfo} {nNew nTried : Int} {s : CAddrMan × Int}

theorem hashCount_append (es : List CAddrInfo) (info : CAddrInfo) (k : TriedBucket) :
    hashCount E nKey (es ++ [info]) k =
      hashCount E nKey es k + if E.getTriedBucket nKey info.toCService = k then 1 else 0 := by
  rw [hashCount, List.countP_append, List.countP_singleton, hashCount]
  simp only [beq_iff_eq]

/-- One more tried entry is read: it goes to the bucket of its hash, or is lost. -/
theorem push (h : ReadTried E nKey news trieds kept nNew nTried s)
    (hin : ∀ info ∈ news, info.fInTried = false)
    (hip : ((news ++ (trieds ++ [info])).map (·.ip)).Nodup) :
    ∃ kept', ReadTried E nKey news (trieds ++ [info]) kept' nNew nTried (storeTried E s info) := by
  obtain ⟨am, nLost⟩ := s
  have hf := h.filled
  have hlen : am.vRandom.length = news.length + kept.length := by
    rw [hf.vRandom, List.length_range, List.length_append, List.length_map]
  have hsize : ∀ k, (am.vvTried k).length = hashCount E nKey kept k := by
    intro k
    rw [hf.vvTried, length_hashedTo hin]
  have hother : ∀ info' ∈ news ++ trieds, info'.ip ≠ info.ip := by
    intro info' hmem
    rw [← List.append_assoc, List.map_append, List.nodup_append] at hip
    exact hip.2.2 _ (List.mem_map_of_mem hmem) _ (List.mem_map_of_mem (List.mem_singleton_self _))
  rw [storeTried, hf.key, hsize]
  set k := E.getTriedBucket nKey info.toCService with hk
  by_cases hroom : hashCount E nKey kept k < addrmanTriedBucketSize
  · rw [if_pos hroom]
    refine ⟨kept ++ [info], ?_, h.sublist.append_right [info], ?_, h.nNew_eq, h.nTried_eq, ?_, ?_,
      ?_⟩
    · have hnew : (news ++ kept.map (·.setInTried true)).length = am.nIdCount := by
        rw [List.length_append, List.length_map, h.nIdCount_eq]
      have hlen' : am.vRandom.length = am.nIdCount := hlen.trans h.nIdCount_eq.symm
      rw [List.map_append, List.map_singleton, ← List.append_assoc]
      refine hf.push ?_ hf.key.symm ?_ ?_ ?_ ?_ rfl
      · intro info' hmem
        rcases List.mem_append.mp hmem with hmem | hmem
        · exact hother info' (List.mem_append_left _ hmem)
        · obtain ⟨info₀, hmem₀, rfl⟩ := List.mem_map.mp hmem
          exact hother info₀ (List.mem_append_right _ (h.sublist.subset hmem₀))
      · rw [hnew, ← hlen']
        rfl
      · rw [hnew]
        rfl
      · rw [hnew]
        rfl
      · funext b
        rw [hashedTo_append, ← hf.vvTried, hnew]
        change Function.update am.vvTried k (am.vvTried k ++ [am.nIdCount]) b =
          am.vvTried b ++ if true && (k == b) then _ else _
        rw [Bool.true_and]
        by_cases hb : b = k
        · subst hb
          rw [Function.update_self, if_pos (beq_self_eq_true k)]
        · rw [Function.update_of_ne hb, if_neg (by simpa using Ne.symm hb), List.append_nil]
    · change am.nIdCount + 1 = _
      rw [h.nIdCount_eq, List.length_append, List.length_singleton, Nat.add_assoc]
    · have hold := h.nLost_eq
      rw [List.length_append, List.length_append, List.length_singleton]
      push_cast at hold ⊢
      change nLost + _ = _
      change nLost + _ = _ at hold
      omega
    · intro b
      rw [hashCount_append, ← hk]
      split
      case isTrue heq =>
        subst heq
        exact hroom
      case isFalse => exact h.le b
    · intro hle
      rw [h.none_lost fun b ↦ ?_]
      refine le_trans ?_ (hle b)
      rw [hashCount_append]
      exact Nat.le_add_right _ _
  · rw [if_neg hroom]
    refine ⟨kept, hf, h.sublist.trans (List.sublist_append_left _ _), h.nIdCount_eq, h.nNew_eq,
      h.nTried_eq, ?_, h.le, ?_⟩
    · have hold := h.nLost_eq
      rw [List.length_append, List.length_singleton]
      push_cast
      change nLost + _ = _ at hold
      change nLost + 1 + _ = _
      omega
    · intro hle
      have hk' := hle k
      rw [hashCount_append, ← hk, if_pos rfl] at hk'
      have hall : kept = trieds := h.none_lost fun b ↦ by
        refine le_trans ?_ (hle b)
        rw [hashCount_append]
        exact Nat.le_add_right _ _
      rw [hall] at hroom
      exact absurd hk' hroom

end ReadTried

/-- The loop over the tried entries. -/
theorem readTried (h : Filled E nKey news am) (hin : ∀ info ∈ news, info.fInTried = false)
    (hid : am.nIdCount = news.length) (hip : ((news ++ trieds).map (·.ip)).Nodup) :
    ∃ kept, ReadTried E nKey news trieds kept am.nNew am.nTried
      (trieds.foldl (storeTried E) (am, 0)) := by
  induction trieds using List.reverseRecOn with
  | nil =>
      refine ⟨[], ?_, List.Sublist.refl [], hid, rfl, rfl, rfl, fun k ↦ Nat.zero_le _, fun _ ↦ rfl⟩
      rwa [List.map_nil, List.append_nil]
  | append_singleton trieds info ih =>
      have hip' : ((news ++ trieds).map (·.ip)).Nodup := by
        rw [← List.append_assoc, List.map_append] at hip
        exact (List.nodup_append.mp hip).1
      obtain ⟨kept, hkept⟩ := ih hip'
      rw [List.foldl_append]
      exact hkept.push hin hip

/-! ## The new buckets -/

/-- The indices `done` have been read, each with its bucket. -/
structure Referenced (am₀ : CAddrMan) (done : List (NewBucket × Nat)) (am : CAddrMan) : Prop where
  frame : { am with mapInfo := am₀.mapInfo, vvNew := am₀.vvNew } = am₀
  view : am.view (·.setRefCount 0) = am₀.view (·.setRefCount 0)
  mem_vvNew : ∀ b nId, nId ∈ am.vvNew b ↔ (b, nId) ∈ done
  nRefCount : ∀ nId n, am.view (·.nRefCount) nId = some n → n = (am.bucketsOf nId).card

namespace Referenced

variable {am₀ : CAddrMan} {done : List (NewBucket × Nat)} {b : NewBucket} {nId : Nat}

theorem bucketsOf_eq (h : Referenced am₀ done am) (nId : Nat) :
    am.bucketsOf nId = Finset.univ.filter fun b ↦ (b, nId) ∈ done := by
  apply Finset.filter_congr
  intro b _
  exact h.mem_vvNew b nId

/-- A field that does not depend on the reference count. -/
theorem view_eq {α : Type} (h : Referenced am₀ done am) (f : CAddrInfo → α)
    (hf : ∀ info : CAddrInfo, f info = f (info.setRefCount 0)) : am.view f = am₀.view f := by
  have hcomp : ∀ am : CAddrMan, am.view f = fun nId ↦ (am.view (·.setRefCount 0) nId).map f := by
    intro am
    funext nId
    rw [CAddrMan.view, CAddrMan.view, Option.map_map]
    exact congrArg (Option.map · _) (funext hf)
  rw [hcomp, hcomp, h.view]

/-- One more index is read. -/
theorem push (h : Referenced am₀ done am) (hl : am₀.mapInfo.lookup nId = some info)
    (hnot : (b, nId) ∉ done) (hfour : (am.bucketsOf nId).card < addrmanNewBucketsPerAddress) :
    Referenced am₀ (done ++ [(b, nId)]) (am.storeIndex 256 b nId) := by
  obtain ⟨info', hl', -⟩ := view_eq_some ((congrFun h.view nId).trans (view_of_lookup hl))
  have href := h.nRefCount nId _ (view_of_lookup hl')
  have hlt : info'.nRefCount < addrmanNewBucketsPerAddress := by
    rw [href]
    exact_mod_cast hfour
  have hself : (am.setInfo nId info').mapInfo.lookup nId = some info' := Finmap.lookup_insert _
  have hstore : am.storeIndex 256 b nId = ((am.setInfo nId info').setInfo nId
      (info'.setRefCount (info'.nRefCount + 1))).setNew b (insert nId (am.vvNew b)) := by
    rw [storeIndex, hl', Option.getD_some, if_pos ⟨rfl, hlt⟩]
    rfl
  have hnotMem : b ∉ am.bucketsOf nId := fun hb ↦
    hnot ((h.mem_vvNew b nId).mp (mem_bucketsOf.mp hb))
  have hview : ∀ {α : Type} (f : CAddrInfo → α), (am.storeIndex 256 b nId).view f =
      Function.update (am.view f) nId (some (f (info'.setRefCount (info'.nRefCount + 1)))) := by
    intro α f
    rw [hstore]
    change ((am.setInfo nId info').setInfo nId _).view f = _
    rw [view_setInfo, view_setInfo_of_eq hl' rfl]
  rw [hstore] at hview ⊢
  refine ⟨h.frame, ?_, fun b' nId' ↦ ?_, fun nId' n hn ↦ ?_⟩
  · rw [hview, ← h.view]
    change Function.update (am.view (·.setRefCount 0)) nId (some (info'.setRefCount 0)) = _
    rw [← view_of_lookup (f := fun info : CAddrInfo ↦ info.setRefCount 0) hl',
      Function.update_eq_self]
  · rw [List.mem_append, List.mem_singleton, Prod.mk.injEq]
    change nId' ∈ Function.update am.vvNew b (insert nId (am.vvNew b)) b' ↔ _
    by_cases hb : b' = b
    · subst hb
      rw [Function.update_self, Finset.mem_insert, h.mem_vvNew]
      tauto
    · rw [Function.update_of_ne hb, h.mem_vvNew]
      tauto
  · rw [hview] at hn
    by_cases hne : nId' = nId
    · subst hne
      rw [Function.update_self] at hn
      have hcard : ((am.setNew b (insert nId' (am.vvNew b))).bucketsOf nId').card =
          (am.bucketsOf nId').card + 1 := by
        rw [bucketsOf_insert, Finset.card_insert_of_notMem hnotMem]
      change n = (((am.setNew b (insert nId' (am.vvNew b))).bucketsOf nId').card : Int)
      rw [hcard, ← Option.some.inj hn]
      change info'.nRefCount + 1 = _
      rw [href]
      rfl
    · rw [Function.update_of_ne hne] at hn
      change n = (((am.setNew b (insert nId (am.vvNew b))).bucketsOf nId').card : Int)
      rw [bucketsOf_insert_of_ne hne]
      exact h.nRefCount nId' n hn

end Referenced

/-- The loop over the indices of the buckets. -/
theorem referenced {am₀ : CAddrMan} {pairs : List (NewBucket × Nat)}
    (hempty : am₀.vvNew = fun _ ↦ ∅) (hzero : ∀ nId n, am₀.view (·.nRefCount) nId = some n → n = 0)
    (hthere : ∀ p ∈ pairs, ∃ info, am₀.mapInfo.lookup p.2 = some info) (hnodup : pairs.Nodup)
    (hfour : ∀ nId, (Finset.univ.filter fun b ↦ (b, nId) ∈ pairs).card ≤
      addrmanNewBucketsPerAddress) :
    Referenced am₀ pairs (pairs.foldl (fun am p ↦ am.storeIndex 256 p.1 p.2) am₀) := by
  induction pairs using List.reverseRecOn with
  | nil =>
      have hnone : ∀ b nId, nId ∉ am₀.vvNew b := by
        intro b nId
        rw [hempty]
        exact Finset.notMem_empty nId
      refine ⟨rfl, rfl, fun b nId ↦ iff_of_false (hnone b nId) List.not_mem_nil, fun nId n hn ↦ ?_⟩
      have hbuckets : am₀.bucketsOf nId = ∅ := by
        rw [Finset.eq_empty_iff_forall_notMem]
        exact fun b hb ↦ hnone b nId (mem_bucketsOf.mp hb)
      rw [List.foldl_nil, hbuckets, hzero nId n hn]
      rfl
  | append_singleton pairs p ih =>
      obtain ⟨b, nId⟩ := p
      obtain ⟨hnodup', -, hdisj⟩ := List.nodup_append.mp hnodup
      have hnot : (b, nId) ∉ pairs := fun hmem ↦ hdisj _ hmem _ (List.mem_singleton_self _) rfl
      have hsub : ∀ nId', (Finset.univ.filter fun b ↦ (b, nId') ∈ pairs) ⊆
          Finset.univ.filter fun b' ↦ (b', nId') ∈ pairs ++ [(b, nId)] := by
        intro nId'
        apply Finset.monotone_filter_right
        exact fun b' _ ↦ List.mem_append_left _
      have hr := ih (fun p hp ↦ hthere p (List.mem_append_left _ hp)) hnodup'
        fun nId' ↦ (Finset.card_le_card (hsub nId')).trans (hfour nId')
      obtain ⟨info, hl⟩ := hthere (b, nId) (List.mem_append_right _ (List.mem_singleton_self _))
      rw [List.foldl_append]
      refine hr.push hl hnot ?_
      rw [hr.bucketsOf_eq]
      refine (Finset.card_lt_card ?_).trans_le (hfour nId)
      refine (Finset.ssubset_iff_of_subset (hsub nId)).mpr ⟨b, ?_, ?_⟩
      · rw [Finset.mem_filter]
        exact ⟨Finset.mem_univ b, List.mem_append_right _ (List.mem_singleton_self _)⟩
      · rw [Finset.mem_filter]
        exact fun h ↦ hnot h.2

end CAddrMan

end Fedoracoin
