import Fedoracoin.CryptoKeyStore
import Mathlib.Data.List.DropRight

/-!
# The birthday of a wallet

`CWalletDB::LoadWallet`, for the records of keys and of their metadata, and the start of
`ScanForWalletTransactions`.  `nTimeFirstKey` is the least creation time that was read, but a time
of 0, which stands for an unknown one, sets it back to the 0 it starts from.

`SafeBirthday` is what the rest of the wallet takes `nTimeFirstKey` for, and `safeBirthday_iff` says
which records bring it about.
-/

namespace Fedoracoin

/-- What the reading of a private key uses of OpenSSL. -/
structure PrivKeyLib (Point : Type) extends KeyLib Point where
  /-- `d2i_ECPrivateKey`, into the key of the object. -/
  d2i : List UInt8 → CKey Point → Option (CKey Point)
  /-- `EC_KEY_check_key`. -/
  checkKey : CKey Point → Bool

structure CKeyMetadata where
  nVersion : Int := 1
  /-- 0 means unknown. -/
  nCreateTime : Int64 := 0

/-- A record of the wallet file, as it is read; `wkey` records go the way of `key` records. -/
inductive KeyRecord where
  | key (vchPubKey : CPubKey) (vchPrivKey : List UInt8)
  | ckey (vchPubKey : CPubKey) (vchPrivKey : List UInt8)
  | keymeta (vchPubKey : CPubKey) (keyMeta : CKeyMetadata)

namespace CKey

variable {Point : Type} (lib : PrivKeyLib Point)

def setPrivKey (vchPrivKey : List UInt8) (key : CKey Point) : Option (CKey Point) :=
  match lib.d2i vchPrivKey key with
  | none => none
  | some key => if lib.checkKey key then some { key with fSet := true } else none

def isValid (key : CKey Point) : Except Failure Bool :=
  if !key.fSet then .ok false
  else if !lib.checkKey key then .ok false
  else do
    let (secret, fCompr) ← key.getSecret
    let key2 ← CKey.setSecret lib.ec secret fCompr {}
    let vchPubKey ← key.getPubKey lib.ec
    let vchPubKey2 ← key2.getPubKey lib.ec
    return decide (vchPubKey = vchPubKey2)

end CKey

/-! ## Loading -/

section

variable {Point : Type} (lib : PrivKeyLib Point)

/-- The branch for `"key"`: what `ReadKeyValue` returns, and the store. -/
def readKey (s : CCryptoKeyStore) (vchPubKey : CPubKey) (vchPrivKey : List UInt8) :
    Except Failure (Bool × CCryptoKeyStore) :=
  match (CKey.setPubKey lib.ec vchPubKey {}).setPrivKey lib vchPrivKey with
  | none => .ok (false, s)
  | some key => do
      if (← key.getPubKey lib.ec) ≠ vchPubKey then return (false, s)
      if !(← key.isValid lib) then return (false, s)
      s.addKey lib.toKeyLib key

/-- What a record does to the keys; what is thrown is caught. -/
def loadKeyRecord (s : CCryptoKeyStore) : KeyRecord → Bool × CCryptoKeyStore
  | .key vchPubKey vchPrivKey =>
      match readKey lib s vchPubKey vchPrivKey with
      | .ok r => r
      | .error _ => (false, s)
  | .ckey vchPubKey vchPrivKey => s.addCryptedKey lib.toKeyLib vchPubKey vchPrivKey
  | .keymeta _ _ => (true, s)

/-- The wallet, `wss` and `result` of `LoadWallet`, with `result == DB_LOAD_OK` as `fOk`. -/
structure LoadState where
  keys : CCryptoKeyStore := {}
  mapKeyMetadata : Finmap fun _ : CKeyID ↦ CKeyMetadata := ∅
  nTimeFirstKey : Int64 := 0
  nKeys : UInt32 := 0
  nCKeys : UInt32 := 0
  nKeyMeta : UInt32 := 0
  fOk : Bool := true

namespace LoadState

def loadKeyMetadata (w : LoadState) (pubkey : CPubKey) (keyMeta : CKeyMetadata) : LoadState :=
  { w with
    nTimeFirstKey :=
      if keyMeta.nCreateTime ≠ 0 ∧ (w.nTimeFirstKey = 0 ∨ keyMeta.nCreateTime < w.nTimeFirstKey)
      then keyMeta.nCreateTime else w.nTimeFirstKey
    mapKeyMetadata := w.mapKeyMetadata.insert (lib.getID pubkey) keyMeta }

/-- `ReadKeyValue`, and what the loop makes of its result. -/
def readKeyValue (w : LoadState) (record : KeyRecord) : LoadState :=
  let (fRet, keys) := loadKeyRecord lib w.keys record
  let w := { w with keys := keys, fOk := w.fOk && fRet }
  match record with
  | .key _ _ => w  --wss.nKeys++;
  | .ckey _ _ => { w with nCKeys := w.nCKeys + 1 }
  | .keymeta vchPubKey keyMeta =>
      let w := { w with nKeyMeta := w.nKeyMeta + 1 }
      let w := w.loadKeyMetadata lib vchPubKey keyMeta
      -- find earliest key creation time, as wallet birthday
      { w with
        nTimeFirstKey :=
          if w.nTimeFirstKey = 0 ∨ keyMeta.nCreateTime < w.nTimeFirstKey then keyMeta.nCreateTime
          else w.nTimeFirstKey }

end LoadState

/-- "nTimeFirstKey is only reliable if all keys have metadata"; after an error nothing is done. -/
def loadWallet (records : List KeyRecord) : LoadState :=
  let w := records.foldl (LoadState.readKeyValue lib) {}
  if w.fOk && decide (w.nKeys + w.nCKeys ≠ w.nKeyMeta) then { w with nTimeFirstKey := 1 } else w

/-- Where the scan starts, by the times of the blocks from `pindexStart` on. -/
def scanStart (nTimeFirstKey : Int64) (nTimes : List UInt32) : List UInt32 :=
  nTimes.dropWhile fun nTime ↦
    decide (nTimeFirstKey ≠ 0 ∧ Int64.ofNat nTime.toNat < nTimeFirstKey - 7200)

/-! ## What it is for -/

/-- The key was loaded, and nobody knows when it was made. -/
def LoadState.UnknownAge (w : LoadState) (address : CKeyID) : Prop :=
  w.keys.haveKey address = true ∧
    ∀ keyMeta, w.mapKeyMetadata.lookup address = some keyMeta → keyMeta.nCreateTime = 0

/-- The birthday is before every key that was loaded. -/
structure LoadState.SafeBirthday (w : LoadState) : Prop where
  unknown : (∃ address, w.UnknownAge address) → w.nTimeFirstKey = 0 ∨ w.nTimeFirstKey = 1
  known : (¬ ∃ address, w.UnknownAge address) → ∀ address keyMeta,
    w.keys.haveKey address = true → w.mapKeyMetadata.lookup address = some keyMeta →
      w.nTimeFirstKey ≤ keyMeta.nCreateTime
  scan : (∃ address, w.UnknownAge address) → ∀ nTimes, scanStart w.nTimeFirstKey nTimes = nTimes

/-! ## What is in the records -/

namespace KeyRecord

/-- The creation times, in the order in which they are read. -/
def times (records : List KeyRecord) : List Int64 :=
  records.filterMap fun
    | keymeta _ keyMeta => some keyMeta.nCreateTime
    | _ => none

/-- The creation time in the last metadata of a key. -/
def createTime (records : List KeyRecord) (address : CKeyID) : Option Int64 :=
  (records.filterMap fun
    | keymeta vchPubKey keyMeta =>
        if lib.getID vchPubKey = address then some keyMeta.nCreateTime else none
    | _ => none).getLast?

/-- The keys of the records, and whether all of them were taken. -/
def loadKeys (records : List KeyRecord) : Bool × CCryptoKeyStore :=
  records.foldl (fun s record ↦
    let (fRet, keys) := loadKeyRecord lib s.2 record
    (s.1 && fRet, keys)) (true, {})

def isCKey : KeyRecord → Bool
  | ckey _ _ => true
  | _ => false

def HasKey (records : List KeyRecord) (address : CKeyID) : Prop :=
  (loadKeys lib records).2.haveKey address = true

/-- A key without metadata, or with metadata of time 0. -/
def HasUnknown (records : List KeyRecord) : Prop :=
  ∃ address, HasKey lib records address ∧
    ∀ nCreateTime, createTime lib records address = some nCreateTime → nCreateTime = 0

/-- All keys were taken, and there are not as many encrypted keys as metadata. -/
def FallsBack (records : List KeyRecord) : Prop :=
  (loadKeys lib records).1 = true ∧
    UInt32.ofNat (records.countP isCKey) ≠ UInt32.ofNat (times records).length

/-- The times that come after the last 0. -/
def timesAfterZero (records : List KeyRecord) : List Int64 := (times records).rtakeWhile (· ≠ 0)

/-- The records give a birthday that is safe. -/
structure Dated (records : List KeyRecord) : Prop where
  /-- The birthday is 1, and no key was made before that. -/
  fallback : FallsBack lib records → ¬ HasUnknown lib records → ∀ address nCreateTime,
    HasKey lib records address → createTime lib records address = some nCreateTime →
      1 ≤ nCreateTime
  /-- With a key of unknown age, no time is negative, and what comes after the last 0 has a 1. -/
  unknown : ¬ FallsBack lib records → HasUnknown lib records →
    (∀ c ∈ times records, 0 ≤ c) ∧ (timesAfterZero records = [] ∨ 1 ∈ timesAfterZero records)
  /-- A 0 does not hide the times of the keys. -/
  known : ¬ FallsBack lib records → ¬ HasUnknown lib records →
    (∃ c ∈ times records, c < 0) ∨ timesAfterZero records = [] ∨ ∀ address nCreateTime,
      HasKey lib records address → createTime lib records address = some nCreateTime →
        ∃ c ∈ timesAfterZero records, c ≤ nCreateTime

end KeyRecord

/-! ## The fold over the times -/

/-- What both ifs make of `nTimeFirstKey`. -/
def stepTime (nTimeFirstKey nCreateTime : Int64) : Int64 :=
  if nCreateTime = 0 then if nTimeFirstKey < 0 then nTimeFirstKey else 0
  else if nTimeFirstKey = 0 ∨ nCreateTime < nTimeFirstKey then nCreateTime else nTimeFirstKey

theorem stepTime_eq (t c : Int64) :
    stepTime t c =
      let t := if c ≠ 0 ∧ (t = 0 ∨ c < t) then c else t
      if t = 0 ∨ c < t then c else t := by
  have hzero : (0 : Int64).toInt = 0 := rfl
  rw [stepTime, ← Int64.toInt_inj]
  simp only [Int64.lt_iff_toInt_lt, ← Int64.toInt_inj, hzero, apply_ite Int64.toInt]
  omega

/-- What one time makes of the birthday. -/
theorem stepTime_cases (t c : Int64) :
    (c = 0 ∧ (t < 0 ∧ stepTime t c = t ∨ 0 ≤ t ∧ stepTime t c = 0)) ∨
      (c ≠ 0 ∧ ((t = 0 ∨ c < t) ∧ stepTime t c = c ∨ t ≠ 0 ∧ t ≤ c ∧ stepTime t c = t)) := by
  rw [stepTime]
  by_cases hc : c = 0
  · rw [if_pos hc]
    by_cases ht : t < 0
    · exact Or.inl ⟨hc, Or.inl ⟨ht, if_pos ht⟩⟩
    · exact Or.inl ⟨hc, Or.inr ⟨Int64.not_lt.mp ht, if_neg ht⟩⟩
  · rw [if_neg hc]
    by_cases ht : t = 0 ∨ c < t
    · exact Or.inr ⟨hc, Or.inl ⟨ht, if_pos ht⟩⟩
    · have hnot := ht
      rw [not_or, Int64.not_lt] at ht
      exact Or.inr ⟨hc, Or.inr ⟨ht.1, ht.2, if_neg hnot⟩⟩

/-- **The least time, if one is negative, and else the least one after the last 0.** -/
theorem foldl_stepTime (cs : List Int64) :
    ((∃ c ∈ cs, c < 0) → cs.foldl stepTime 0 ∈ cs ∧ ∀ c ∈ cs, cs.foldl stepTime 0 ≤ c) ∧
    ((∀ c ∈ cs, 0 ≤ c) →
      cs.rtakeWhile (· ≠ 0) = [] ∧ cs.foldl stepTime 0 = 0 ∨
        cs.foldl stepTime 0 ∈ cs.rtakeWhile (· ≠ 0) ∧
          ∀ c ∈ cs.rtakeWhile (· ≠ 0), cs.foldl stepTime 0 ≤ c) := by
  induction cs using List.reverseRecOn with
  | nil => exact ⟨fun h ↦ by simp at h, fun _ ↦ Or.inl ⟨rfl, rfl⟩⟩
  | append_singleton cs c ih =>
      obtain ⟨hneg, hnonneg⟩ := ih
      rw [List.foldl_append, List.foldl_cons, List.foldl_nil, List.rtakeWhile_concat]
      generalize cs.foldl stepTime 0 = t at hneg hnonneg
      have hstep := stepTime_cases t c
      have hnonneg' : (∀ c ∈ cs, 0 ≤ c) → 0 ≤ t := by
        intro hcs
        rcases hnonneg hcs with ⟨-, rfl⟩ | ⟨hmem, -⟩
        · exact Int64.le_refl 0
        · exact hcs t ((List.rtakeWhile_suffix _ _).mem hmem)
      constructor
      · rintro ⟨d, hd, hlt⟩
        by_cases hcs : ∃ c ∈ cs, c < 0
        · -- what is negative stays, or becomes less
          obtain ⟨hmem, hle⟩ := hneg hcs
          obtain ⟨e, he, hlt'⟩ := hcs
          have htneg := Int64.lt_of_le_of_lt (hle e he) hlt'
          simp only [List.mem_append, List.mem_singleton]
          grind
        · have hcs' : ∀ c ∈ cs, 0 ≤ c := fun e he ↦
            Int64.not_lt.mp fun hlt' ↦ hcs ⟨e, he, hlt'⟩
          have ht := hnonneg' hcs'
          have hc : c < 0 := by
            rcases List.mem_append.mp hd with hd | hd
            · exact absurd ⟨d, hd, hlt⟩ hcs
            · exact List.mem_singleton.mp hd ▸ hlt
          simp only [List.mem_append, List.mem_singleton]
          grind
      · intro hall
        have hcs : ∀ c ∈ cs, 0 ≤ c := fun d hd ↦ hall d (List.mem_append_left _ hd)
        have ht := hnonneg' hcs
        rcases hstep with ⟨rfl, hstep⟩ | ⟨hc, hstep⟩
        · refine Or.inl ⟨if_neg (by decide), ?_⟩
          grind
        · have hpos := hall c (List.mem_append_right _ (List.mem_singleton_self c))
          rw [if_pos (decide_eq_true hc)]
          refine Or.inr ?_
          simp only [List.mem_append, List.mem_singleton]
          rcases hnonneg hcs with ⟨hnil, rfl⟩ | ⟨hmem, hle⟩
          · rw [hnil]
            grind
          · have hne := List.mem_rtakeWhile_imp hmem
            rw [decide_eq_true_eq] at hne
            grind

/-! ## What a load leaves -/

open KeyRecord

variable {lib} {records : List KeyRecord} {record : KeyRecord} {w : LoadState}

/-- What a record does to the birthday. -/
theorem nTimeFirstKey_readKeyValue :
    (w.readKeyValue lib record).nTimeFirstKey =
      (times [record]).foldl stepTime w.nTimeFirstKey := by
  cases record with
  | key vchPubKey vchPrivKey => rfl
  | ckey vchPubKey vchPrivKey => rfl
  | keymeta vchPubKey keyMeta => exact (stepTime_eq _ _).symm

/-- The variables of the load, from the records alone. -/
structure LoadSpec {Point : Type} (lib : PrivKeyLib Point) (w : LoadState)
    (records : List KeyRecord) : Prop where
  nTimeFirstKey : w.nTimeFirstKey = (times records).foldl stepTime 0
  createTime : ∀ address,
    (w.mapKeyMetadata.lookup address).map (·.nCreateTime) = createTime lib records address
  keys : (w.fOk, w.keys) = loadKeys lib records
  nKeys : w.nKeys = 0
  nCKeys : w.nCKeys = UInt32.ofNat (records.countP isCKey)
  nKeyMeta : w.nKeyMeta = UInt32.ofNat (times records).length

theorem loadSpec {Point : Type} (lib : PrivKeyLib Point) (records : List KeyRecord) :
    LoadSpec lib (records.foldl (LoadState.readKeyValue lib) {}) records := by
  induction records using List.reverseRecOn with
  | nil => exact ⟨rfl, fun address ↦ rfl, rfl, rfl, rfl, rfl⟩
  | append_singleton records record ih =>
      rw [List.foldl_append, List.foldl_cons, List.foldl_nil]
      generalize records.foldl (LoadState.readKeyValue lib) {} = w at ih
      have htimes : times (records ++ [record]) = times records ++ times [record] :=
        List.filterMap_append
      constructor
      case nTimeFirstKey =>
        rw [nTimeFirstKey_readKeyValue, htimes, List.foldl_append, ih.nTimeFirstKey]
      case createTime =>
        intro address
        have happ : createTime lib (records ++ [record]) address =
            (createTime lib [record] address).or (createTime lib records address) := by
          rw [createTime, List.filterMap_append, List.getLast?_append]
          rfl
        rw [happ]
        cases record with
        | key vchPubKey vchPrivKey => exact ih.createTime address
        | ckey vchPubKey vchPrivKey => exact ih.createTime address
        | keymeta vchPubKey keyMeta =>
            change
              ((w.mapKeyMetadata.insert (lib.getID vchPubKey) keyMeta).lookup address).map _ = _
            by_cases h : lib.getID vchPubKey = address
            · rw [h, Finmap.lookup_insert]
              simp [createTime, h]
            · rw [Finmap.lookup_insert_of_ne _ (Ne.symm h), ih.createTime]
              simp [createTime, h]
      case keys =>
        rw [loadKeys, List.foldl_append]
        change _ = List.foldl _ (loadKeys lib records) [record]
        rw [← ih.keys]
        cases record with
        | key vchPubKey vchPrivKey => rfl
        | ckey vchPubKey vchPrivKey => rfl
        | keymeta vchPubKey keyMeta => rfl
      case nKeys =>
        cases record with
        | key vchPubKey vchPrivKey => exact ih.nKeys
        | ckey vchPubKey vchPrivKey => exact ih.nKeys
        | keymeta vchPubKey keyMeta => exact ih.nKeys
      case nCKeys =>
        rw [List.countP_append]
        cases record with
        | key vchPubKey vchPrivKey => exact ih.nCKeys
        | ckey vchPubKey vchPrivKey =>
            change w.nCKeys + 1 = UInt32.ofNat (records.countP isCKey + 1)
            rw [ih.nCKeys, UInt32.ofNat_add]
            rfl
        | keymeta vchPubKey keyMeta => exact ih.nCKeys
      case nKeyMeta =>
        rw [htimes, List.length_append]
        cases record with
        | key vchPubKey vchPrivKey => exact ih.nKeyMeta
        | ckey vchPubKey vchPrivKey => exact ih.nKeyMeta
        | keymeta vchPubKey keyMeta =>
            change w.nKeyMeta + 1 = UInt32.ofNat ((times records).length + 1)
            rw [ih.nKeyMeta, UInt32.ofNat_add]
            rfl

theorem loadWallet_spec {Point : Type} (lib : PrivKeyLib Point) (records : List KeyRecord) :
    (∀ address, (loadWallet lib records).keys.haveKey address = true ↔
        HasKey lib records address) ∧
      (∀ address, ((loadWallet lib records).mapKeyMetadata.lookup address).map (·.nCreateTime) =
        createTime lib records address) ∧
      (FallsBack lib records → (loadWallet lib records).nTimeFirstKey = 1) ∧
      (¬ FallsBack lib records →
        (loadWallet lib records).nTimeFirstKey = (times records).foldl stepTime 0) := by
  have hw := loadSpec lib records
  rw [loadWallet]
  generalize records.foldl (LoadState.readKeyValue lib) {} = w at hw
  have hkeys := hw.keys
  have hfall : (w.fOk && decide (w.nKeys + w.nCKeys ≠ w.nKeyMeta)) = true ↔
      FallsBack lib records := by
    rw [Bool.and_eq_true, decide_eq_true_eq, hw.nKeys, hw.nCKeys, hw.nKeyMeta, UInt32.zero_add,
      FallsBack, ← hkeys]
  have hhave : ∀ address, w.keys.haveKey address = true ↔ HasKey lib records address := by
    intro address
    rw [HasKey, ← hkeys]
  split
  case isTrue h =>
    exact ⟨hhave, hw.createTime, fun _ ↦ rfl, fun hnot ↦ absurd (hfall.mp h) hnot⟩
  case isFalse h =>
    exact ⟨hhave, hw.createTime, fun hf ↦ absurd (hfall.mpr hf) h, fun _ ↦ hw.nTimeFirstKey⟩

/-- With a birthday of 0 or 1 no block is skipped. -/
theorem scanStart_of_early {t : Int64} (h : t = 0 ∨ t = 1) (nTimes : List UInt32) :
    scanStart t nTimes = nTimes := by
  rw [scanStart, List.dropWhile_eq_self_iff]
  intro hpos hskip
  rcases h with rfl | rfl
  · exact (of_decide_eq_true hskip).1 rfl
  · have hlt := (of_decide_eq_true hskip).2
    generalize nTimes[0] = nTime at hlt
    have hsmall := nTime.toNat_lt
    have hnonneg : (Int64.ofNat nTime.toNat).toInt = nTime.toNat := by
      rw [Int64.toInt_ofNat']
      exact Int.bmod_eq_of_le (by rw [Int64.size]; omega) (by rw [Int64.size]; omega)
    have hneg : ((1 : Int64) - 7200).toInt = -7199 := rfl
    rw [Int64.lt_iff_toInt_lt, hnonneg, hneg] at hlt
    omega

/-- A creation time of a key was read. -/
theorem mem_times_of_createTime {address : CKeyID} {c : Int64}
    (hc : createTime lib records address = some c) : c ∈ times records := by
  obtain ⟨record, hrecord, hsome⟩ := List.mem_filterMap.mp (List.mem_of_getLast? hc)
  refine List.mem_filterMap.mpr ⟨record, hrecord, ?_⟩
  cases record with
  | key vchPubKey vchPrivKey => exact absurd hsome nofun
  | ckey vchPubKey vchPrivKey => exact absurd hsome nofun
  | keymeta vchPubKey keyMeta =>
      dsimp only at hsome ⊢
      split at hsome
      case isTrue => exact hsome
      case isFalse => exact absurd hsome nofun

/-- What a birthday has to be for the keys of the records. -/
structure SafeTime {Point : Type} (lib : PrivKeyLib Point) (records : List KeyRecord)
    (t : Int64) : Prop where
  unknown : HasUnknown lib records → t = 0 ∨ t = 1
  known : ¬ HasUnknown lib records → ∀ address c, HasKey lib records address →
    createTime lib records address = some c → t ≤ c

theorem safeBirthday_loadWallet {Point : Type} (lib : PrivKeyLib Point)
    (records : List KeyRecord) :
    (loadWallet lib records).SafeBirthday ↔
      SafeTime lib records (loadWallet lib records).nTimeFirstKey := by
  obtain ⟨hhave, htime, -, -⟩ := loadWallet_spec lib records
  generalize loadWallet lib records = w at hhave htime
  have hunknown : (∃ address, w.UnknownAge address) ↔ HasUnknown lib records := by
    refine exists_congr fun address ↦ and_congr (hhave address) ?_
    rw [← htime]
    cases w.mapKeyMetadata.lookup address with
    | none => simp
    | some keyMeta => simp
  constructor
  · intro h
    refine ⟨fun hu ↦ h.unknown (hunknown.mpr hu), fun hu address c hkey hc ↦ ?_⟩
    rw [← htime] at hc
    obtain ⟨keyMeta, hlookup, rfl⟩ := Option.map_eq_some_iff.mp hc
    exact h.known (hu ∘ hunknown.mp) address keyMeta ((hhave address).mpr hkey) hlookup
  · intro h
    have hearly (hu : ∃ address, w.UnknownAge address) := h.unknown (hunknown.mp hu)
    refine ⟨hearly, fun hu address keyMeta hkey hlookup ↦ ?_,
      fun hu ↦ scanStart_of_early (hearly hu)⟩
    refine h.known (hu ∘ hunknown.mpr) address _ ((hhave address).mp hkey) ?_
    rw [← htime, hlookup, Option.map_some]

/-- The birthday of a wallet where not all keys have metadata. -/
theorem safeTime_one (hf : FallsBack lib records) :
    SafeTime lib records 1 ↔ Dated lib records :=
  ⟨fun h ↦ ⟨fun _ ↦ h.known, fun hnot ↦ absurd hf hnot, fun hnot ↦ absurd hf hnot⟩,
    fun h ↦ ⟨fun _ ↦ Or.inr rfl, h.fallback hf⟩⟩

/-- A negative birthday is before all keys. -/
theorem safeTime_of_neg (hf : ¬ FallsBack lib records) {t d : Int64} (hd : d ∈ times records)
    (hlt : d < 0) (hle : ∀ c ∈ times records, t ≤ c) :
    SafeTime lib records t ↔ Dated lib records := by
  have ht := Int64.lt_of_le_of_lt (hle d hd) hlt
  constructor
  · intro h
    refine ⟨fun hfall ↦ absurd hfall hf, fun _ hu ↦ ?_, fun _ _ ↦ Or.inl ⟨d, hd, hlt⟩⟩
    rcases h.unknown hu with rfl | rfl
    · exact absurd ht (by decide)
    · exact absurd ht (by decide)
  · intro h
    refine ⟨fun hu ↦ ?_, fun _ address c _ hc ↦ hle c (mem_times_of_createTime hc)⟩
    exact absurd hlt (Int64.not_lt.mpr ((h.unknown hf hu).1 d hd))

/-- So is a birthday of 0, if no time is negative. -/
theorem safeTime_zero (hf : ¬ FallsBack lib records) (hall : ∀ c ∈ times records, 0 ≤ c)
    (hnil : timesAfterZero records = []) : SafeTime lib records 0 ↔ Dated lib records := by
  constructor
  · exact fun _ ↦ ⟨fun h ↦ absurd h hf, fun _ _ ↦ ⟨hall, Or.inl hnil⟩,
      fun _ _ ↦ Or.inr (Or.inl hnil)⟩
  · exact fun _ ↦ ⟨fun _ ↦ Or.inl rfl,
      fun _ address c _ hc ↦ hall c (mem_times_of_createTime hc)⟩

/-- The least of the times after the last 0. -/
theorem safeTime_of_mem (hf : ¬ FallsBack lib records) (hall : ∀ c ∈ times records, 0 ≤ c)
    {t : Int64} (hmem : t ∈ timesAfterZero records)
    (hle : ∀ c ∈ timesAfterZero records, t ≤ c) :
    SafeTime lib records t ↔ Dated lib records := by
  have hpos := hall t ((List.rtakeWhile_suffix _ _).mem hmem)
  have htne : t ≠ 0 := by simpa using List.mem_rtakeWhile_imp hmem
  have hcons : timesAfterZero records ≠ [] := List.ne_nil_of_mem hmem
  constructor
  · intro h
    refine ⟨fun hfall ↦ absurd hfall hf, fun _ hu ↦ ⟨hall, Or.inr ?_⟩,
      fun _ hu ↦ Or.inr (Or.inr ?_)⟩
    · rcases h.unknown hu with ht | ht
      · exact absurd ht htne
      · exact ht ▸ hmem
    · exact fun address c hkey hc ↦ ⟨t, hmem, h.known hu address c hkey hc⟩
  · intro h
    refine ⟨fun hu ↦ Or.inr ?_, fun hu address c hkey hc ↦ ?_⟩
    · have hone := hle 1 ((h.unknown hf hu).2.resolve_left hcons)
      grind
    · rcases h.known hf hu with ⟨d, hd, hlt⟩ | hnil | hle'
      · exact absurd hlt (Int64.not_lt.mpr (hall d hd))
      · exact absurd hnil hcons
      · obtain ⟨c', hc', hle''⟩ := hle' address c hkey hc
        exact Int64.le_trans (hle c' hc') hle''

/-- **The birthday that a load leaves is safe exactly if the records are dated so.** -/
theorem safeBirthday_iff (lib : PrivKeyLib Point) (records : List KeyRecord) :
    (loadWallet lib records).SafeBirthday ↔ Dated lib records := by
  obtain ⟨-, -, hfall, hfold⟩ := loadWallet_spec lib records
  rw [safeBirthday_loadWallet]
  by_cases hf : FallsBack lib records
  · rw [hfall hf]
    exact safeTime_one hf
  · obtain ⟨hneg, hnonneg⟩ := foldl_stepTime (times records)
    rw [hfold hf]
    by_cases hnegative : ∃ c ∈ times records, c < 0
    · obtain ⟨-, hle⟩ := hneg hnegative
      obtain ⟨d, hd, hlt⟩ := hnegative
      exact safeTime_of_neg hf hd hlt hle
    · have hall : ∀ c ∈ times records, 0 ≤ c := fun c hc ↦
        Int64.not_lt.mp fun hlt ↦ hnegative ⟨c, hc, hlt⟩
      rcases hnonneg hall with ⟨hnil, hzero⟩ | ⟨hmem, hle⟩
      · rw [hzero]
        exact safeTime_zero hf hall hnil
      · exact safeTime_of_mem hf hall hmem hle

end

/-- No private key is read. -/
def samplePrivKeyLib : PrivKeyLib Uint256 where
  toKeyLib := sampleKeyLib
  d2i _ _ := none
  checkKey _ := false

/-- Two encrypted keys: nobody knows when the first one was made. -/
def sampleKeyRecords : List KeyRecord :=
  [.ckey [2, 1] [0], .ckey [2, 2] [0], .keymeta [2, 1] { nCreateTime := 0 },
    .keymeta [2, 2] { nCreateTime := 1400000000 }]

/-- The birthday is that of the second key. -/
theorem sampleKeyRecords_unsafe :
    (loadWallet samplePrivKeyLib sampleKeyRecords).nTimeFirstKey = 1400000000 ∧
      (∃ address, (loadWallet samplePrivKeyLib sampleKeyRecords).UnknownAge address) ∧
      ¬ (loadWallet samplePrivKeyLib sampleKeyRecords).SafeBirthday := by
  have htime : (loadWallet samplePrivKeyLib sampleKeyRecords).nTimeFirstKey = 1400000000 := by
    decide
  have hkey : (loadWallet samplePrivKeyLib sampleKeyRecords).keys.haveKey
      (sampleKeyLib.getID [2, 1]) = true := by decide
  have hmeta : ((loadWallet samplePrivKeyLib sampleKeyRecords).mapKeyMetadata.lookup
      (sampleKeyLib.getID [2, 1])).map (·.nCreateTime) = some 0 := by decide
  have hunknown : ∃ address,
      (loadWallet samplePrivKeyLib sampleKeyRecords).UnknownAge address := by
    refine ⟨_, hkey, fun keyMeta hlookup ↦ ?_⟩
    rw [hlookup, Option.map_some] at hmeta
    exact Option.some.inj hmeta
  refine ⟨htime, hunknown, fun h ↦ ?_⟩
  have := h.unknown hunknown
  rw [htime] at this
  exact absurd this (by decide)

end Fedoracoin
