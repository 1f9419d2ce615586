import Fedoracoin.AddrManSerialize

/-!
# Reading the file of the address manager

What the reader makes of entries, indices and buckets that stand in the file as the writer writes
them: `reads_unserialize`.  The result is `rebuild`, and `Rebuilt` describes it.
-/

namespace Fedoracoin

open Wire

theorem toNat_htons (port : BitVec 16) :
    (htons port).toNat = port.toNat % 256 * 256 + port.toNat / 256 := by
  have hlt := port.isLt
  have hsum : port.toNat % 256 * 256 + port.toNat / 256 < 2 ^ 16 := by omega
  exact (BitVec.toNat_ofNat _ 16).trans (Nat.mod_eq_of_lt hsum)

theorem htons_htons (port : BitVec 16) : htons (htons port) = port := by
  have hlt := port.isLt
  apply BitVec.eq_of_toNat_eq
  rw [toNat_htons, toNat_htons]
  omega

theorem reads_bitVec {w k : Nat} (hw : w = 8 * k) (x : BitVec w) :
    Reads (readUInt k >>= fun n ↦ pure (BitVec.ofNat w n)) (toBytes k x.toNat) x := by
  have hlt : x.toNat < 256 ^ k := by
    rw [show (256 : Nat) = 2 ^ 8 from rfl, ← Nat.pow_mul, ← hw]
    exact x.isLt
  have hr := (reads_readUInt hlt).map (BitVec.ofNat w)
  rwa [BitVec.ofNat_toNat, BitVec.setWidth_eq] at hr

theorem CNetAddr.reads_unserialize (ip : CNetAddr) :
    Reads CNetAddr.unserialize (CNetAddr.serialize ip) ip := reads_bitVec (k := 16) rfl ip

theorem CService.reads_unserialize (addr : CService) :
    Reads CService.unserialize addr.serialize addr := by
  have hlt : (htons addr.port).toNat < 256 ^ 2 := (htons addr.port).isLt
  apply (CNetAddr.reads_unserialize addr.ip).bind
  have hr := (reads_readUInt hlt).map
    fun portN ↦ ({ ip := addr.ip, port := htons (BitVec.ofNat 16 portN) } : CService)
  rwa [BitVec.ofNat_toNat, BitVec.setWidth_eq, htons_htons] at hr

theorem reads_unserializeInt64 {n : Int} (h : -2 ^ 63 ≤ n ∧ n < 2 ^ 63) :
    Reads unserializeInt64 (serializeInt64 n) n := by
  have hlt : (BitVec.ofInt 64 n).toNat < 256 ^ 8 := (BitVec.ofInt 64 n).isLt
  have hr := (reads_readUInt hlt).map fun m ↦ (BitVec.ofNat 64 m).toInt
  have hn : (BitVec.ofInt 64 n).toInt = n := by
    rw [BitVec.toInt_ofInt]
    apply Int.bmod_eq_of_le <;> omega
  rwa [BitVec.ofNat_toNat, BitVec.setWidth_eq, hn] at hr

namespace CAddrInfo

/-- The fields fit in their C++ types. -/
structure WellTyped (info : CAddrInfo) : Prop where
  nLastSuccess : -2 ^ 63 ≤ info.nLastSuccess ∧ info.nLastSuccess < 2 ^ 63
  nAttempts : -2 ^ 31 ≤ info.nAttempts ∧ info.nAttempts < 2 ^ 31

/-- What of an entry is in the file. -/
def onDisk (info : CAddrInfo) : CAddrInfo :=
  { toCService := info.toCService, nServices := info.nServices, nTime := info.nTime,
    source := info.source, nLastSuccess := info.nLastSuccess, nAttempts := info.nAttempts }

theorem reads_unserialize {info : CAddrInfo} (h : info.WellTyped) :
    Reads unserialize (info.serialize 0) info.onDisk := by
  have haddr : Reads CAddress.unserialize (info.toCAddress.serialize 0)
      { toCService := info.toCService, nServices := info.nServices, nTime := info.nTime } := by
    have htime : info.nTime.toNat < 256 ^ 4 := info.nTime.isLt
    have hservices : info.nServices.toNat < 256 ^ 8 := info.nServices.isLt
    rw [CAddress.serialize, List.append_assoc, List.append_assoc]
    apply (reads_unserializeInt ⟨by norm_num, by norm_num⟩).bind
    apply (reads_readUInt htime).bind
    apply (reads_readUInt hservices).bind
    rw [BitVec.ofNat_toNat, BitVec.ofNat_toNat, BitVec.setWidth_eq, BitVec.setWidth_eq]
    exact (CService.reads_unserialize info.toCService).map fun service ↦
      ({ toCService := service, nServices := info.nServices, nTime := info.nTime } : CAddress)
  rw [serialize, List.append_assoc, List.append_assoc]
  apply haddr.bind
  apply (CNetAddr.reads_unserialize info.source).bind
  apply (reads_unserializeInt64 h.nLastSuccess).bind
  exact (reads_unserializeInt h.nAttempts).map fun nAttempts ↦
    ({ info.onDisk with nAttempts := nAttempts } : CAddrInfo)

end CAddrInfo

namespace CAddrMan

variable {E : AddrEnv}

/-- The bytes of a bucket by its indices. -/
def writeIndices (indices : List Nat) : List UInt8 :=
  serializeInt indices.length ++ indices.flatMap fun nIndex : Nat ↦ serializeInt nIndex

/-- The address manager that is made from new entries, tried entries and buckets. -/
def rebuild (E : AddrEnv) (nKey : List UInt8) (news trieds : List CAddrInfo)
    (buckets : NewBucket → List Nat) : CAddrMan :=
  let am := { CAddrMan.new nKey with nNew := news.length, nTried := trieds.length }
  let am := news.zipIdx.foldl (fun am e ↦ am.storeNew E 256 e.2 e.1) am
  let am := { am with nIdCount := news.length }
  let (am, nLost) := trieds.foldl (storeTried E) (am, 0)
  let am := { am with nTried := am.nTried - nLost }
  (List.finRange 256).foldl
    (fun am b ↦ (buckets b).foldl (fun am nIndex ↦ am.storeIndex 256 b nIndex) am) am

theorem reads_unserializeId {n : Nat} (h : n < 2 ^ 31) :
    Reads unserializeId (serializeInt n) n := by
  rw [← List.append_nil (serializeInt n)]
  apply (reads_unserializeInt ⟨by omega, by omega⟩).bind
  rw [if_neg (Int.not_lt.mpr (Int.natCast_nonneg n))]
  exact reads_pure n

theorem foldl_zipIdx {α β : Type} (f : β → α → β) (l : List α) (s : β) :
    l.zipIdx.foldl (fun s e ↦ f s e.1) s = l.foldl f s := by
  rw [← List.foldl_map (f := Prod.fst) (g := f), List.zipIdx_map_fst]

theorem reads_readBucket {b : NewBucket} {indices : List Nat} (hlen : indices.length < 2 ^ 31)
    (hindices : ∀ i ∈ indices, i < 2 ^ 31) (am : CAddrMan) :
    Reads (readBucket 256 am b) (writeIndices indices)
      (indices.foldl (fun am nIndex ↦ am.storeIndex 256 b nIndex) am) := by
  rw [readBucket, dif_pos b.isLt]
  apply (reads_unserializeInt ⟨by omega, by omega⟩).bind
  rw [Int.toNat_natCast, ← foldl_zipIdx]
  refine reads_foldlM_range (f := fun am nIndex _ ↦ am.storeIndex 256 b nIndex)
    (fun i a ha am ↦ ?_) am
  exact (reads_unserializeId (hindices a (List.mem_of_getElem? ha))).map
    fun nIndex ↦ am.storeIndex 256 b nIndex

/-- **The reader.** -/
theorem reads_unserialize {nKey : List UInt8} {news trieds : List CAddrInfo}
    {buckets : NewBucket → List Nat} (hkey : nKey.length ≤ maxSize)
    (hnews : ∀ info ∈ news, info.WellTyped) (htrieds : ∀ info ∈ trieds, info.WellTyped)
    (hnewLen : news.length < 2 ^ 31) (htriedLen : trieds.length < 2 ^ 31)
    (hbuckets : ∀ b, (buckets b).length < 2 ^ 31) (hindices : ∀ b, ∀ i ∈ buckets b, i < 2 ^ 31) :
    Reads (unserialize E)
      (serializeByte 0 ++ serializeVector serializeByte nKey ++ serializeInt news.length ++
        serializeInt trieds.length ++ serializeInt 256 ++ news.flatMap (·.serialize 0) ++
        trieds.flatMap (·.serialize 0) ++
        (List.finRange 256).flatMap fun b ↦ writeIndices (buckets b))
      (rebuild E nKey (news.map CAddrInfo.onDisk) (trieds.map CAddrInfo.onDisk) buckets) := by
  simp only [List.append_assoc]
  apply (reads_unserializeByte 0).bind
  apply (reads_unserializeVector hkey fun b _ ↦ reads_unserializeByte b).bind
  apply (reads_unserializeId hnewLen).bind
  apply (reads_unserializeInt ⟨by omega, by omega⟩).bind
  apply (reads_unserializeInt ⟨by norm_num, by norm_num⟩).bind
  have hnewLoop : ∀ am : CAddrMan, Reads ((List.range news.length).foldlM (fun am n ↦ do
      let info ← CAddrInfo.unserialize
      return am.storeNew E 256 n info) am) (news.flatMap (·.serialize 0))
      ((news.map CAddrInfo.onDisk).zipIdx.foldl (fun am e ↦ am.storeNew E 256 e.2 e.1) am) := by
    intro am
    rw [List.zipIdx_map, List.foldl_map]
    refine reads_foldlM_range (f := fun (am : CAddrMan) (info : CAddrInfo) n ↦
      am.storeNew E 256 n info.onDisk) (fun i info hinfo am ↦ ?_) am
    exact (CAddrInfo.reads_unserialize (hnews info (List.mem_of_getElem? hinfo))).map
      fun info ↦ am.storeNew E 256 i info
  have htriedLoop : ∀ s : CAddrMan × Int, Reads ((List.range trieds.length).foldlM (fun s _ ↦ do
      let info ← CAddrInfo.unserialize
      return storeTried E s info) s) (trieds.flatMap (·.serialize 0))
      ((trieds.map CAddrInfo.onDisk).foldl (storeTried E) s) := by
    intro s
    rw [List.foldl_map, ← foldl_zipIdx]
    refine reads_foldlM_range (f := fun s (info : CAddrInfo) _ ↦ storeTried E s info.onDisk)
      (fun i info hinfo s ↦ ?_) s
    exact (CAddrInfo.reads_unserialize (htrieds info (List.mem_of_getElem? hinfo))).map
      fun info ↦ storeTried E s info
  have hbucketLoop : ∀ am : CAddrMan, Reads ((List.range 256).foldlM (readBucket 256) am)
      ((List.finRange 256).flatMap fun b ↦ writeIndices (buckets b))
      ((List.finRange 256).foldl
        (fun am b ↦ (buckets b).foldl (fun am nIndex ↦ am.storeIndex 256 b nIndex) am) am) := by
    intro am
    have hround : ∀ i b, (List.finRange 256)[i]? = some b → ∀ am : CAddrMan,
        Reads (readBucket 256 am i) (writeIndices (buckets b))
          ((buckets b).foldl (fun am nIndex ↦ am.storeIndex 256 b nIndex) am) := by
      intro i b hb am
      obtain ⟨hi, rfl⟩ := List.getElem?_eq_some_iff.mp hb
      have hr := reads_readBucket (hbuckets (List.finRange 256)[i])
        (hindices (List.finRange 256)[i]) (b := (List.finRange 256)[i]) am
      rwa [show ((List.finRange 256)[i] : Fin 256).val = i by simp] at hr
    have hr := reads_foldlM_range (f := fun (am : CAddrMan) (b : NewBucket) _ ↦
      (buckets b).foldl (fun am nIndex ↦ am.storeIndex 256 b nIndex) am) hround am
    rw [List.length_finRange, foldl_zipIdx (fun (am : CAddrMan) (b : NewBucket) ↦
      (buckets b).foldl (fun am nIndex ↦ am.storeIndex 256 b nIndex) am)] at hr
    exact hr
  apply (hnewLoop _).bind
  rw [rebuild, List.length_map, List.length_map]
  apply (htriedLoop _).bind
  exact hbucketLoop _

end CAddrMan

end Fedoracoin
