import Fedoracoin.Key
import Fedoracoin.Lib.Loop
import Mathlib.Data.Finset.Max

/-!
# The signature cache

`CheckSig` with its `CSignatureCache`: a set of triples of a signature hash, a signature and a
public key that were found to go together.  Whether they do depends on nothing else, so as long as
nothing else is in the set (`Valid`), a hit is what the verification would say.  Whatever is
evicted, and whatever the limit of a call, the cache cannot be told from none (`runCheckSig_eq`).
-/

namespace Fedoracoin

/-! ## `CSignatureCache` -/

/-- `sigdata_type`. -/
structure SigData where
  hash : Uint256
  vchSig : Valtype
  pubKey : Valtype

namespace SigData

/-- What a tuple is compared by. -/
def key (k : SigData) : Nat ×ₗ List Nat ×ₗ List Nat :=
  toLex (k.hash.toNat, toLex (k.vchSig.map UInt8.toNat, k.pubKey.map UInt8.toNat))

theorem key_injective : Function.Injective key := by
  rintro ⟨hash, vchSig, pubKey⟩ ⟨hash', vchSig', pubKey'⟩ h
  obtain ⟨hhash, hrest⟩ := Prod.mk.inj h
  obtain ⟨hsig, hpubKey⟩ := Prod.mk.inj hrest
  have hbytes : Function.Injective (List.map UInt8.toNat) :=
    List.map_injective_iff.mpr fun _ _ ↦ UInt8.toNat_inj.mp
  obtain rfl : hash = hash' := BitVec.eq_of_toNat_eq hhash
  obtain rfl : vchSig = vchSig' := hbytes hsig
  obtain rfl : pubKey = pubKey' := hbytes hpubKey
  rfl

instance : LinearOrder SigData := LinearOrder.lift' key key_injective

end SigData

namespace CSignatureCache

/-- `setValid.lower_bound`. -/
def lowerBound (setValid : Finset SigData) (k : SigData) : WithTop SigData :=
  (setValid.filter (k ≤ ·)).min

/-- Evicts a random entry, the number `i` of a call, if there are too many; there is no value if it
would erase the end of the set. -/
def evictBody (nMaxCacheSize : Int) (randomHash : Nat → Uint256) (s : Nat × Finset SigData) :
    Option (Finset SigData ⊕ Nat × Finset SigData) :=
  if nMaxCacheSize < s.2.card then
    match lowerBound s.2 ⟨randomHash s.1, [], []⟩ with
    | some it => some (.inr (s.1 + 1, s.2.erase it))
    | none =>
        match s.2.min with
        | some it => some (.inr (s.1 + 1, s.2.erase it))
        | none => none
  else some (.inl s.2)

/-- `Set`, with at most `n` iterations of its loop. -/
def set (n : Nat) (nMaxCacheSize : Int) (randomHash : Nat → Uint256) (setValid : Finset SigData)
    (k : SigData) : Option (Finset SigData) :=
  if nMaxCacheSize ≤ 0 then some setValid
  else (Loop.run (evictBody nMaxCacheSize randomHash) n (0, setValid)).map (insert k)

end CSignatureCache

/-! ## `CheckSig` -/

/-- What is computed outside of the repository. -/
structure SigLib (Point : Type) extends EcLib Point where
  hash : List UInt8 → Uint256
  /-- Whether `ECDSA_verify` returns 1. -/
  ecdsaVerify : Uint256 → Valtype → Point → Bool

/-- The arguments of a call, with `-maxsigcachesize` and the random hashes in it. -/
structure SigCall where
  vchSig : Valtype
  vchPubKey : Valtype
  scriptCode : CScript
  txTo : CTransaction
  nIn : Nat
  nHashType : BitVec 32 := 0
  flags : Nat := 0
  nMaxCacheSize : Int := 50000
  randomHash : Nat → Uint256 := fun _ ↦ 0

namespace SigCall

/-- The triple that the verdict is about: the signature without the type of the hash, which is one
byte at its end.  There is none if that is not the type that is asked for. -/
def sigData (hash : List UInt8 → Uint256) (c : SigCall) : Option SigData := do
  let back ← c.vchSig.getLast?
  let nHashType := BitVec.ofNat 32 back.toNat
  if c.nHashType ≠ 0 ∧ c.nHashType ≠ nHashType then none
  else
    some
      { hash := signatureHash hash c.scriptCode c.txTo c.nIn nHashType
        vchSig := c.vchSig.dropLast
        pubKey := c.vchPubKey }

end SigCall

namespace SigLib

variable {Point : Type} (lib : SigLib Point)

/-- `CKey::SetPubKey` and `CKey::Verify`; there is no value if a public key is too short for its
first byte, where the source reads behind it. -/
def verify (k : SigData) : Option Bool := do
  let vchPubKey ← cPubKey k.pubKey
  let key := CKey.setPubKey lib.toEcLib vchPubKey {}
  match key.pub with
  | none => return false
  | some point => return lib.ecdsaVerify k.hash k.vchSig point

/-- `CheckSig` with no cache. -/
def checkSigUncached (c : SigCall) : Option Bool :=
  match c.sigData lib.hash with
  | none => some false
  | some k => lib.verify k

/-- `CheckSig`, with what it leaves in the cache. -/
def checkSig (n : Nat) (setValid : Finset SigData) (c : SigCall) :
    Option (Bool × Finset SigData) :=
  match c.sigData lib.hash with
  | none => some (false, setValid)
  | some k =>
      if k ∈ setValid then some (true, setValid)
      else do
        let verified ← lib.verify k
        if !verified then return (false, setValid)
        else if c.flags &&& scriptVerifyNocache = 0 then do
          let setValid ← CSignatureCache.set n c.nMaxCacheSize c.randomHash setValid k
          return (true, setValid)
        else return (true, setValid)

/-- What some calls return one after the other. -/
def runCheckSig (n : Nat) : Finset SigData → List SigCall → Option (List Bool)
  | _, [] => some []
  | setValid, c :: calls => do
      let (ret, setValid) ← lib.checkSig n setValid c
      let rets ← runCheckSig n setValid calls
      return ret :: rets

end SigLib

/-! ## Evictions -/

namespace CSignatureCache

variable {setValid : Finset SigData} {k : SigData} {nMaxCacheSize : Int}
  {randomHash : Nat → Uint256} {n : Nat}

theorem mem_of_lowerBound {it : SigData} (h : lowerBound setValid k = some it) : it ∈ setValid :=
  (Finset.mem_filter.mp (Finset.mem_of_min h)).1

/-- An iteration leaves the loop or erases one entry. -/
theorem evictBody_spec (randomHash : Nat → Uint256) (s : Nat × Finset SigData)
    (hmax : 0 < nMaxCacheSize) :
    evictBody nMaxCacheSize randomHash s = some (.inl s.2) ∧ (s.2.card : Int) ≤ nMaxCacheSize ∨
      ∃ it ∈ s.2, evictBody nMaxCacheSize randomHash s = some (.inr (s.1 + 1, s.2.erase it)) := by
  rw [evictBody]
  split
  case isTrue hlt =>
      right
      cases hbound : lowerBound s.2 ⟨randomHash s.1, [], []⟩ with
      | coe it => exact ⟨it, mem_of_lowerBound hbound, rfl⟩
      | top =>
          have hne : s.2.Nonempty := by
            rw [← Finset.card_pos]
            omega
          obtain ⟨it, hit⟩ := Finset.min_of_nonempty hne
          simp only [hit]
          exact ⟨it, Finset.mem_of_min hit, rfl⟩
  case isFalse hge => exact Or.inl ⟨rfl, Int.not_lt.mp hge⟩

/-- **The eviction loop** ends, and takes entries away only. -/
theorem evict_spec (setValid : Finset SigData) (hmax : 0 < nMaxCacheSize)
    (hn : setValid.card < n) :
    ∃ kept, Loop.run (evictBody nMaxCacheSize randomHash) n (0, setValid) = some kept ∧
      kept ⊆ setValid := by
  refine Loop.run_spec (I := fun s ↦ s.2 ⊆ setValid) (m := fun s ↦ s.2.card) ?_
    (Finset.Subset.refl _) hn
  intro s hs
  rcases evictBody_spec randomHash s hmax with ⟨hexit, -⟩ | ⟨it, hit, hagain⟩
  · exact Or.inl ⟨s.2, hexit, hs⟩
  · exact Or.inr ⟨_, hagain, (Finset.erase_subset it s.2).trans hs, Finset.card_erase_lt_of_mem hit⟩

/-- `Set` adds at most the entry. -/
theorem set_spec (setValid : Finset SigData) (k : SigData) (nMaxCacheSize : Int)
    (randomHash : Nat → Uint256) (hn : setValid.card < n) :
    ∃ setValid', set n nMaxCacheSize randomHash setValid k = some setValid' ∧
      setValid' ⊆ insert k setValid := by
  rw [set]
  split
  case isTrue => exact ⟨setValid, rfl, Finset.subset_insert k setValid⟩
  case isFalse hmax =>
      obtain ⟨kept, hrun, hsub⟩ := evict_spec setValid (Int.not_le.mp hmax) hn
      exact ⟨insert k kept, by rw [hrun]; rfl, Finset.insert_subset_insert k hsub⟩

end CSignatureCache

/-! ## Transparency -/

namespace SigLib

variable {Point : Type} {lib : SigLib Point} {setValid : Finset SigData} {c : SigCall}
  {calls : List SigCall} {n : Nat}

/-- Every triple in the cache was verified. -/
def Valid (lib : SigLib Point) (setValid : Finset SigData) : Prop :=
  ∀ k ∈ setValid, lib.verify k = some true

/-- **One call.**  With verified triples in the cache, a call returns what it does with none, and
adds at most one triple, which is verified. -/
theorem checkSig_spec (hvalid : lib.Valid setValid) (hn : setValid.card < n) :
    match lib.checkSigUncached c with
    | none => lib.checkSig n setValid c = none
    | some ret => ∃ setValid', lib.checkSig n setValid c = some (ret, setValid') ∧
        lib.Valid setValid' ∧ setValid'.card ≤ setValid.card + 1 := by
  rw [checkSigUncached, checkSig]
  cases c.sigData lib.hash with
  | none => exact ⟨setValid, rfl, hvalid, Nat.le_succ _⟩
  | some k =>
      by_cases hmem : k ∈ setValid
      · -- a hit: what is in the cache was verified
        simp only [hvalid k hmem, if_pos hmem]
        exact ⟨setValid, rfl, hvalid, Nat.le_succ _⟩
      · simp only [if_neg hmem]
        cases hverify : lib.verify k with
        | none => rfl
        | some verified =>
            cases verified with
            | false => exact ⟨setValid, rfl, hvalid, Nat.le_succ _⟩
            | true =>
                simp only [Option.bind_eq_bind, Option.bind_some, Bool.not_true,
                  Bool.false_eq_true, if_false]
                split
                case isTrue =>
                    obtain ⟨setValid', hset, hsub⟩ :=
                      CSignatureCache.set_spec setValid k c.nMaxCacheSize c.randomHash hn
                    refine ⟨setValid', by rw [hset]; rfl, fun k' hk' ↦ ?_, ?_⟩
                    · rcases Finset.mem_insert.mp (hsub hk') with rfl | hk'
                      · exact hverify
                      · exact hvalid k' hk'
                    · exact (Finset.card_le_card hsub).trans (Finset.card_insert_le k setValid)
                case isFalse => exact ⟨setValid, rfl, hvalid, Nat.le_succ _⟩

theorem runCheckSig_of_valid (hvalid : lib.Valid setValid)
    (hn : setValid.card + calls.length < n) :
    lib.runCheckSig n setValid calls = calls.mapM lib.checkSigUncached := by
  induction calls generalizing setValid with
  | nil => rfl
  | cons c calls ih =>
      rw [List.length_cons] at hn
      have hcall := checkSig_spec (c := c) hvalid (n := n) (by omega)
      rw [runCheckSig, List.mapM_cons]
      cases huncached : lib.checkSigUncached c with
      | none =>
          rw [huncached] at hcall
          rw [hcall]
          rfl
      | some ret =>
          rw [huncached] at hcall
          obtain ⟨setValid', hret, hvalid', hcard⟩ := hcall
          rw [hret]
          simp only [Option.bind_eq_bind, Option.bind_some]
          rw [ih hvalid' (by omega)]

/-- **The signature cache is transparent.**  From an empty cache, any calls return what they return
with no cache, for any flags, evictions and limits; there is no value for either if a call reads
behind a public key. -/
theorem runCheckSig_eq (lib : SigLib Point) (calls : List SigCall) (n : Nat)
    (hn : calls.length < n) :
    lib.runCheckSig n ∅ calls = calls.mapM lib.checkSigUncached := by
  apply runCheckSig_of_valid
  · exact fun k hk ↦ absurd hk (Finset.notMem_empty k)
  · rwa [Finset.card_empty, Nat.zero_add]

/-- A library that takes every signature, and a call with a key of 33 bytes. -/
def sampleSigLib : SigLib Unit where
  regenerate _ := none
  i2o _ _ := []
  o2i _ := some ((), .compressed)
  hash _ := 0
  ecdsaVerify _ _ _ := true

def sampleSigCall : SigCall where
  vchSig := [7, 1]
  vchPubKey := 2 :: List.replicate 32 0
  scriptCode := []
  txTo := { vin := [⟨⟨50, 0⟩, [], uintMax⟩], vout := [⟨20, []⟩], nLockTime := 0 }
  nIn := 0
  nMaxCacheSize := 1

/-- Twice the same call, of which the second is a hit, and one with no signature. -/
theorem runCheckSig_eq_sample :
    sampleSigLib.runCheckSig 4 ∅
        [sampleSigCall, sampleSigCall, { sampleSigCall with vchSig := [] }] =
      some [true, true, false] :=
  (runCheckSig_eq sampleSigLib
    [sampleSigCall, sampleSigCall, { sampleSigCall with vchSig := [] }] 4 (by decide)).trans
    (by decide +kernel)

/-- With no cache this is the `CheckSig` of the interpreter, where its verification has a value. -/
theorem checkSigUncached_eq (ctx : SigContext) (vchSig vchPubKey : Valtype) (scriptCode : CScript)
    (hhash : lib.hash = ctx.crypto.hash)
    (hverify : ∀ sighash, lib.verify ⟨sighash, vchSig.dropLast, vchPubKey⟩ =
      some (ctx.crypto.verify sighash vchSig.dropLast vchPubKey)) :
    lib.checkSigUncached { vchSig := vchSig, vchPubKey := vchPubKey, scriptCode := scriptCode,
                           txTo := ctx.txTo, nIn := ctx.nIn, nHashType := ctx.nHashType } =
      some (ctx.checkSig vchSig vchPubKey scriptCode) := by
  rw [checkSigUncached, SigCall.sigData, SigContext.checkSig]
  cases vchSig.getLast? with
  | none => rfl
  | some back =>
      simp only [Option.bind_eq_bind, Option.bind_some]
      split_ifs with htype
      · rfl
      · dsimp only
        rw [hverify, hhash]

end SigLib

end Fedoracoin
