import Mathlib.Data.Finset.Sort
import Fedoracoin.Key
import Fedoracoin.Lib.Tabulate

/-!
# The encrypted key store

`CBasicKeyStore` and `CCryptoKeyStore`, with `EncryptSecret` and `DecryptSecret`.  A function that
changes the store gives what it returns, or throws, and the store it leaves.
-/

namespace Fedoracoin

open Wire

/-! ## Secrets -/

/-- What the key stores use of OpenSSL.  `encrypt` and `decrypt` are AES-256-CBC, by key,
initialization vector and text. -/
structure KeyLib (Point : Type) where
  ec : EcLib Point
  crypto : Crypto
  encrypt : List UInt8 → List UInt8 → List UInt8 → Option (List UInt8)
  decrypt : List UInt8 → List UInt8 → List UInt8 → Option (List UInt8)

structure KeyLib.Lawful {Point : Type} (lib : KeyLib Point) : Prop where
  ec : lib.ec.Lawful
  /-- Decryption undoes encryption under the same key and vector. -/
  decrypt_encrypt (chKey chIV text : List UInt8) (h : chKey.length = 32) :
    ∃ vchCiphertext, lib.encrypt chKey chIV text = some vchCiphertext ∧
      lib.decrypt chKey chIV vchCiphertext = some text

def walletCryptoKeySize : Nat := 32

namespace KeyLib

variable {Point : Type} (lib : KeyLib Point)

/-- `CPubKey::GetID`. -/
def getID (vchPubKey : CPubKey) : Uint160 := lib.crypto.getID vchPubKey

/-- The vector that `nIV` gives. -/
def chIV (nIV : Uint256) : List UInt8 := toBytes walletCryptoKeySize nIV.toNat

/-- `EncryptSecret`, whose `SetKey` refuses a key of another size. -/
def encryptSecret (vMasterKey vchPlaintext : List UInt8) (nIV : Uint256) : Option (List UInt8) :=
  if vMasterKey.length ≠ walletCryptoKeySize then none
  else lib.encrypt vMasterKey (chIV nIV) vchPlaintext

def decryptSecret (vMasterKey vchCiphertext : List UInt8) (nIV : Uint256) : Option (List UInt8) :=
  if vMasterKey.length ≠ walletCryptoKeySize then none
  else lib.decrypt vMasterKey (chIV nIV) vchCiphertext

variable {lib} {vMasterKey : List UInt8} (h : vMasterKey.length = 32) (text : List UInt8)
  (nIV : Uint256)
include h

theorem encryptSecret_of_length :
    lib.encryptSecret vMasterKey text nIV = lib.encrypt vMasterKey (chIV nIV) text :=
  if_neg (not_not.mpr h)

theorem decryptSecret_of_length :
    lib.decryptSecret vMasterKey text nIV = lib.decrypt vMasterKey (chIV nIV) text :=
  if_neg (not_not.mpr h)

end KeyLib

/-! ## The stores -/

abbrev CKeyID := Uint160

abbrev KeyMap := Finmap fun _ : CKeyID ↦ List UInt8 × Bool

abbrev CryptedKeyMap := Finmap fun _ : CKeyID ↦ CPubKey × List UInt8

/-- The items of a map, in the order of the keys. -/
def items {β : Type} (m : Finmap fun _ : CKeyID ↦ β) : List (CKeyID × β) :=
  ((m.keys.image BitVec.toNat).sort (· ≤ ·)).filterMap fun n ↦
    (m.lookup (BitVec.ofNat 160 n)).map (BitVec.ofNat 160 n, ·)

structure CBasicKeyStore where
  mapKeys : KeyMap := ∅
  mapScripts : Finmap fun _ : Uint160 ↦ CScript := ∅

structure CCryptoKeyStore extends CBasicKeyStore where
  fUseCrypto : Bool := false
  mapCryptedKeys : CryptedKeyMap := ∅
  vMasterKey : List UInt8 := []

namespace CBasicKeyStore

variable {Point : Type} (lib : KeyLib Point) (s : CBasicKeyStore)

def addKey (key : CKey Point) : Except Failure (Bool × CBasicKeyStore) := do
  let (secret, fCompressed) ← key.getSecret
  let vchPubKey ← key.getPubKey lib.ec
  return (true, { s with
    mapKeys := s.mapKeys.insert (lib.getID vchPubKey) (secret, fCompressed) })

def haveKey (address : CKeyID) : Bool := address ∈ s.mapKeys

/-- `GetKey`, with the key it leaves in `keyOut`. -/
def getKey (address : CKeyID) (keyOut : CKey Point) : Except Failure (Bool × CKey Point) :=
  match s.mapKeys.lookup address with
  | none => .ok (false, keyOut)
  | some (secret, fCompressed) => do
      let keyOut ← CKey.setSecret lib.ec secret fCompressed {}
      return (true, keyOut)

def addCScript (redeemScript : CScript) : CBasicKeyStore :=
  { s with mapScripts := s.mapScripts.insert (lib.crypto.getID redeemScript) redeemScript }

def haveCScript (hash : Uint160) : Bool := hash ∈ s.mapScripts

def getCScript (hash : Uint160) : Option CScript := s.mapScripts.lookup hash

end CBasicKeyStore

namespace CCryptoKeyStore

variable {Point : Type} (lib : KeyLib Point) (s : CCryptoKeyStore)

def isCrypted : Bool := s.fUseCrypto

def isLocked : Bool := if !s.isCrypted then false else s.vMasterKey.isEmpty

def setCrypted : Bool × CCryptoKeyStore :=
  if s.fUseCrypto then (true, s)
  else if s.mapKeys.keys ≠ ∅ then (false, s)
  else (true, { s with fUseCrypto := true })

def lockKeyStore : Bool × CCryptoKeyStore :=
  let (fOk, s) := s.setCrypted
  if !fOk then (false, s) else (true, { s with vMasterKey := [] })

def haveKey (address : CKeyID) : Bool :=
  if !s.isCrypted then s.toCBasicKeyStore.haveKey address
  else address ∈ s.mapCryptedKeys

/-- The secret of an entry of `mapCryptedKeys`, under a master key. -/
def decryptEntry (vMasterKey : List UInt8) (entry : CPubKey × List UInt8) : Option (List UInt8) :=
  (lib.decryptSecret vMasterKey entry.2 (lib.crypto.hash entry.1)).filter (·.length = 32)

/-- Whether the first entry is decrypted to the key it is of.  `key` is a new object. -/
def testEntry (vMasterKeyIn : List UInt8) (entry : CPubKey × List UInt8) : Except Failure Bool :=
  match decryptEntry lib vMasterKeyIn entry with
  | none => .ok false
  | some vchSecret => do
      let key ← (CKey.setPubKey lib.ec entry.1 {}).setSecret lib.ec vchSecret false
      let vchPubKey ← key.getPubKey lib.ec
      return vchPubKey = entry.1

/-- The loop ends at its first entry. -/
def unlock (vMasterKeyIn : List UInt8) : Except Failure Bool × CCryptoKeyStore :=
  let (fOk, s) := s.setCrypted
  if !fOk then (.ok false, s)
  else
    match (items s.mapCryptedKeys).head? with
    | none => (.ok true, { s with vMasterKey := vMasterKeyIn })
    | some (_, entry) =>
        match testEntry lib vMasterKeyIn entry with
        | .ok true => (.ok true, { s with vMasterKey := vMasterKeyIn })
        | failed => (failed, s)

def addCryptedKey (vchPubKey : CPubKey) (vchCryptedSecret : List UInt8) : Bool × CCryptoKeyStore :=
  let (fOk, s) := s.setCrypted
  if !fOk then (false, s)
  else (true, { s with
    mapCryptedKeys := s.mapCryptedKeys.insert (lib.getID vchPubKey) (vchPubKey, vchCryptedSecret) })

/-- What `AddKey` and the loop of `EncryptKeys` do with a key. -/
def encryptKey (vMasterKey : List UInt8) (key : CKey Point) :
    Except Failure (Bool × CCryptoKeyStore) := do
  let vchPubKey ← key.getPubKey lib.ec
  let (secret, _) ← key.getSecret
  match lib.encryptSecret vMasterKey secret (lib.crypto.hash vchPubKey) with
  | none => return (false, s)
  | some vchCryptedSecret => return s.addCryptedKey lib vchPubKey vchCryptedSecret

/-- What throws leaves the store as it was. -/
def addKey (key : CKey Point) : Except Failure (Bool × CCryptoKeyStore) :=
  if !s.isCrypted then do
    let (fOk, basic) ← s.toCBasicKeyStore.addKey lib key
    return (fOk, { s with toCBasicKeyStore := basic })
  else if s.isLocked then .ok (false, s)
  else s.encryptKey lib s.vMasterKey key

def getKey (address : CKeyID) (keyOut : CKey Point) : Except Failure (Bool × CKey Point) :=
  if !s.isCrypted then s.toCBasicKeyStore.getKey lib address keyOut
  else
    match s.mapCryptedKeys.lookup address with
    | none => .ok (false, keyOut)
    | some entry =>
        match decryptEntry lib s.vMasterKey entry with
        | none => .ok (false, keyOut)
        | some vchSecret => do
            let keyOut ← (CKey.setPubKey lib.ec entry.1 keyOut).setSecret lib.ec vchSecret false
            return (true, keyOut)

/-- The public key that `GetPubKey` gives; `none` is `return false`. -/
def getPubKey (address : CKeyID) : Except Failure (Option CPubKey) :=
  if !s.isCrypted then do
    let (fFound, key) ← s.getKey lib address {}
    if !fFound then return none
    let vchPubKey ← key.getPubKey lib.ec
    return some vchPubKey
  else .ok ((s.mapCryptedKeys.lookup address).map Prod.fst)

/-- The loop of `EncryptKeys`. -/
def encryptLoop (vMasterKeyIn : List UInt8) (s : CCryptoKeyStore) :
    List (CKeyID × (List UInt8 × Bool)) → Except Failure Bool × CCryptoKeyStore
  | [] => (.ok true, { s with mapKeys := ∅ })
  | (_, (secret, fCompressed)) :: keys =>
      let encrypted := do
        let key ← CKey.setSecret lib.ec secret fCompressed {}
        s.encryptKey lib vMasterKeyIn key
      match encrypted with
      | .error e => (.error e, s)
      | .ok (false, s) => (.ok false, s)
      | .ok (true, s) => encryptLoop vMasterKeyIn s keys

def encryptKeys (vMasterKeyIn : List UInt8) : Except Failure Bool × CCryptoKeyStore :=
  if s.mapCryptedKeys.keys ≠ ∅ ∨ s.isCrypted then (.ok false, s)
  else encryptLoop lib vMasterKeyIn { s with fUseCrypto := true } (items s.mapKeys)

def addCScript (redeemScript : CScript) : CCryptoKeyStore :=
  { s with toCBasicKeyStore := s.toCBasicKeyStore.addCScript lib redeemScript }

end CCryptoKeyStore

/-! ## Runs -/

inductive KeystoreOp {Point : Type} (ec : EcLib Point) where
  | addKey (k : MadeKey ec)
  | addCScript (redeemScript : CScript)
  | encryptKeys
  | lockKeyStore
  | unlock

namespace KeystoreOp

variable {Point : Type} (lib : KeyLib Point) (vMasterKey : List UInt8)

/-- The store after a call, whose master key is `vMasterKey`. -/
def run (s : CCryptoKeyStore) : KeystoreOp lib.ec → CCryptoKeyStore
  | addKey k =>
      match s.addKey lib k.toCKey with
      | .ok (_, s) => s
      | .error _ => s
  | addCScript redeemScript => s.addCScript lib redeemScript
  | encryptKeys => (s.encryptKeys lib vMasterKey).2
  | lockKeyStore => s.lockKeyStore.2
  | unlock => (s.unlock lib vMasterKey).2

/-- The key that a call adds. -/
def adds (s : CCryptoKeyStore) : KeystoreOp lib.ec → List (MadeKey lib.ec)
  | addKey k =>
      match s.addKey lib k.toCKey with
      | .ok (true, _) => [k]
      | _ => []
  | _ => []

/-- The key that a call is given. -/
def keys {ec : EcLib Point} : KeystoreOp ec → List (MadeKey ec)
  | addKey k => [k]
  | _ => []

/-- The store and the keys that were added to it, after a call. -/
def after (s : CCryptoKeyStore × List (MadeKey lib.ec)) (op : KeystoreOp lib.ec) :
    CCryptoKeyStore × List (MadeKey lib.ec) :=
  (op.run lib vMasterKey s.1, op.adds lib s.1 ++ s.2)

end KeystoreOp

/-! ## The invariant -/

section

variable {Point : Type} {lib : KeyLib Point}

def MadeKey.id (k : MadeKey lib.ec) : CKeyID := lib.getID k.pubKey

/-- The entry of `mapKeys`. -/
def MadeKey.plain (k : MadeKey lib.ec) : List UInt8 × Bool := (k.secret, k.fCompressed)

/-- The entry of `mapCryptedKeys` under a master key. -/
def MadeKey.crypted (vMasterKey : List UInt8) (k : MadeKey lib.ec) : CPubKey × List UInt8 :=
  (k.pubKey, (lib.encryptSecret vMasterKey k.secret (lib.crypto.hash k.pubKey)).getD [])

theorem mem_items {β : Type} {m : Finmap fun _ : CKeyID ↦ β} {item : CKeyID × β} :
    item ∈ items m ↔ m.lookup item.1 = some item.2 := by
  rw [items, List.mem_filterMap]
  constructor
  · rintro ⟨n, -, hn⟩
    obtain ⟨b, hb, rfl⟩ := Option.map_eq_some_iff.mp hn
    exact hb
  · intro h
    refine ⟨item.1.toNat, (Finset.mem_sort _).mpr (Finset.mem_image.mpr ⟨item.1, ?_, rfl⟩), ?_⟩
    · rw [Finmap.mem_keys, ← Finmap.lookup_isSome, h]
      rfl
    · rw [BitVec.ofNat_toNat, BitVec.setWidth_eq, h]
      rfl

namespace CCryptoKeyStore

/-- While nothing is encrypted, `mapKeys` has the keys and there is no master key. -/
structure Plain (added : List (MadeKey lib.ec)) (s : CCryptoKeyStore) : Prop where
  fUseCrypto : s.fUseCrypto = false
  mapKeys : Tabulates MadeKey.id MadeKey.plain added s.mapKeys
  mapCryptedKeys : s.mapCryptedKeys = ∅
  vMasterKey : s.vMasterKey = []

/-- Afterwards `mapCryptedKeys` has them. -/
structure Crypted (vMasterKey : List UInt8) (added : List (MadeKey lib.ec)) (s : CCryptoKeyStore) :
    Prop where
  fUseCrypto : s.fUseCrypto = true
  mapKeys : s.mapKeys = ∅
  mapCryptedKeys : Tabulates MadeKey.id (MadeKey.crypted vMasterKey) added s.mapCryptedKeys
  vMasterKey : s.vMasterKey = [] ∨ s.vMasterKey = vMasterKey

variable {vMasterKey : List UInt8} {added : List (MadeKey lib.ec)} {s : CCryptoKeyStore}
  {k : MadeKey lib.ec}

theorem addKey_of_plain (h : s.Plain added) : s.addKey lib k.toCKey =
    .ok (true, { s with mapKeys := s.mapKeys.insert k.id k.plain }) := by
  rw [addKey, isCrypted, h.fUseCrypto, Bool.not_false, if_pos rfl, CBasicKeyStore.addKey,
    k.getSecret_toCKey]
  rfl

theorem fUseCrypto_of_isLocked (hlocked : s.isLocked = true) : s.fUseCrypto = true := by
  cases hcrypted : s.fUseCrypto with
  | true => rfl
  | false =>
      rw [isLocked, isCrypted, hcrypted] at hlocked
      cases hlocked

theorem addKey_of_locked (hlocked : s.isLocked = true) (key : CKey Point) :
    s.addKey lib key = .ok (false, s) := by
  rw [addKey, isCrypted, fUseCrypto_of_isLocked hlocked, Bool.not_true, if_neg Bool.false_ne_true,
    if_pos hlocked]

theorem setCrypted_of_crypted (hcrypted : s.fUseCrypto = true) : s.setCrypted = (true, s) :=
  if_pos hcrypted

section

variable (hlib : lib.Lawful) (hmaster : vMasterKey.length = 32)
include hlib hmaster

theorem encryptSecret_eq (k : MadeKey lib.ec) :
    lib.encryptSecret vMasterKey k.secret (lib.crypto.hash k.pubKey) =
      some (k.crypted vMasterKey).2 := by
  obtain ⟨vchCiphertext, hencrypt, -⟩ :=
    hlib.decrypt_encrypt vMasterKey (KeyLib.chIV (lib.crypto.hash k.pubKey)) k.secret hmaster
  have hsome : lib.encryptSecret vMasterKey k.secret (lib.crypto.hash k.pubKey) =
      some vchCiphertext := by
    rw [KeyLib.encryptSecret_of_length hmaster, hencrypt]
  rw [MadeKey.crypted, hsome]
  rfl

/-- The entry of a key is decrypted to its secret. -/
theorem decryptEntry_crypted (k : MadeKey lib.ec) :
    decryptEntry lib vMasterKey (k.crypted vMasterKey) = some k.secret := by
  obtain ⟨vchCiphertext, hencrypt, hdecrypt⟩ :=
    hlib.decrypt_encrypt vMasterKey (KeyLib.chIV (lib.crypto.hash k.pubKey)) k.secret hmaster
  have hsome := encryptSecret_eq hlib hmaster k
  rw [KeyLib.encryptSecret_of_length hmaster, hencrypt] at hsome
  rw [decryptEntry, KeyLib.decryptSecret_of_length hmaster, ← Option.some.inj hsome]
  change (lib.decrypt vMasterKey (KeyLib.chIV (lib.crypto.hash k.pubKey)) vchCiphertext).filter _ =
    some k.secret
  rw [hdecrypt, Option.filter_some, if_pos (decide_eq_true k.length_secret)]

theorem encryptKey_eq (hcrypted : s.fUseCrypto = true) :
    s.encryptKey lib vMasterKey k.toCKey = .ok (true, { s with
      mapCryptedKeys := s.mapCryptedKeys.insert k.id (k.crypted vMasterKey) }) := by
  rw [encryptKey, k.getPubKey_toCKey, k.getSecret_toCKey]
  change (match lib.encryptSecret vMasterKey k.secret (lib.crypto.hash k.pubKey) with
    | none => .ok (false, s)
    | some vchCryptedSecret => .ok (s.addCryptedKey lib k.pubKey vchCryptedSecret) :
      Except Failure (Bool × CCryptoKeyStore)) = _
  rw [encryptSecret_eq hlib hmaster k]
  dsimp only
  rw [addCryptedKey, setCrypted_of_crypted hcrypted]
  rfl

theorem encryptLoop_eq (ks : List (MadeKey lib.ec)) (hcrypted : s.fUseCrypto = true) :
    encryptLoop lib vMasterKey s (ks.map fun k ↦ (k.id, k.plain)) = (.ok true, { s with
      mapKeys := ∅
      mapCryptedKeys := ks.foldl (fun m k ↦ m.insert k.id (k.crypted vMasterKey))
        s.mapCryptedKeys }) := by
  induction ks generalizing s with
  | nil => rfl
  | cons k ks ih =>
      have hkey : (do
          let key ← CKey.setSecret lib.ec k.secret k.fCompressed {}
          s.encryptKey lib vMasterKey key) = .ok (true, { s with
            mapCryptedKeys := s.mapCryptedKeys.insert k.id (k.crypted vMasterKey) }) := by
        rw [k.setSecret_eq, Bool.or_false]
        exact encryptKey_eq hlib hmaster hcrypted
      rw [List.map_cons, encryptLoop]
      change (match (do
          let key ← CKey.setSecret lib.ec k.secret k.fCompressed {}
          s.encryptKey lib vMasterKey key) with
        | .error e => (.error e, s)
        | .ok (false, s) => (.ok false, s)
        | .ok (true, s) => encryptLoop lib vMasterKey s (ks.map fun k ↦ (k.id, k.plain)) :
          Except Failure Bool × CCryptoKeyStore) = _
      rw [hkey]
      exact ih hcrypted

theorem encryptKeys_of_plain (h : s.Plain added)
    (hinj : ∀ j ∈ added, ∀ k ∈ added, j.id = k.id → j = k) :
    (s.encryptKeys lib vMasterKey).1 = .ok true ∧
      (s.encryptKeys lib vMasterKey).2.Crypted vMasterKey added := by
  obtain ⟨ks, hks, hadded⟩ :=
    h.mapKeys.exists_map fun item (hitem : item ∈ items s.mapKeys) ↦ mem_items.mp hitem
  have hmem : ∀ k, k ∈ ks ++ [] ↔ k ∈ added := by
    intro k
    rw [List.append_nil]
    refine ⟨hadded k, fun hk ↦ ?_⟩
    have hitem : (k.id, k.plain) ∈ items s.mapKeys := mem_items.mpr (h.mapKeys.lookup hk)
    rw [hks] at hitem
    obtain ⟨j, hj, heq⟩ := List.mem_map.mp hitem
    rwa [hinj k hk j (hadded j hj) (Prod.mk.inj heq).1.symm]
  have hloop : s.encryptKeys lib vMasterKey = _ :=
    (if_neg (by
      rw [h.mapCryptedKeys, isCrypted, h.fUseCrypto]
      simp)).trans ((congrArg (encryptLoop lib vMasterKey { s with fUseCrypto := true }) hks).trans
        (encryptLoop_eq hlib hmaster ks rfl))
  rw [hloop]
  refine ⟨rfl, rfl, rfl, ?_, .inl h.vMasterKey⟩
  dsimp only
  rw [h.mapCryptedKeys]
  exact (Tabulates.empty.foldl_insert fun j hj k hk ↦
    hinj j ((hmem j).mp hj) k ((hmem k).mp hk)).congr hmem

/-- The first entry is decrypted to the key it is of. -/
theorem testEntry_crypted (k : MadeKey lib.ec) :
    testEntry lib vMasterKey (k.crypted vMasterKey) = .ok true := by
  rw [testEntry, decryptEntry_crypted hlib hmaster]
  change ((CKey.setPubKey lib.ec k.pubKey {}).setSecret lib.ec k.secret false >>= _) = _
  rw [k.setSecret_setPubKey hlib.ec, Bool.or_false]
  exact congrArg Except.ok (decide_eq_true rfl)

theorem unlock_of_crypted (h : s.Crypted vMasterKey added) :
    s.unlock lib vMasterKey = (.ok true, { s with vMasterKey := vMasterKey }) := by
  rw [unlock, setCrypted_of_crypted h.fUseCrypto]
  dsimp only
  cases hhead : (items s.mapCryptedKeys).head? with
  | none => rfl
  | some item =>
      obtain ⟨k, -, -, hk⟩ :=
        (h.mapCryptedKeys _ _).mp (mem_items.mp (List.mem_of_head? hhead))
      dsimp only
      rw [← hk, testEntry_crypted hlib hmaster]
      rfl

omit hlib hmaster in
theorem Crypted.vMasterKey_of_unlocked (h : s.Crypted vMasterKey added)
    (hlocked : s.isLocked = false) : s.vMasterKey = vMasterKey := by
  refine h.vMasterKey.resolve_left fun hnil ↦ ?_
  rw [isLocked, isCrypted, h.fUseCrypto, hnil] at hlocked
  cases hlocked

theorem getKey_of_crypted (h : s.Crypted vMasterKey added) (hlocked : s.isLocked = false)
    (hk : k ∈ added) (keyOut : CKey Point) : s.getKey lib k.id keyOut =
      .ok (true, (k.withForm (k.fCompressed || keyOut.fCompressedPubKey)).toCKey) := by
  rw [getKey, isCrypted, h.fUseCrypto, Bool.not_true, if_neg Bool.false_ne_true,
    h.mapCryptedKeys.lookup hk, h.vMasterKey_of_unlocked hlocked]
  dsimp only
  rw [decryptEntry_crypted hlib hmaster]
  change (CKey.setSecret lib.ec k.secret false (CKey.setPubKey lib.ec k.pubKey keyOut) >>= _) = _
  rw [k.setSecret_setPubKey hlib.ec]
  rfl

end

theorem getKey_of_plain (h : s.Plain added) (hk : k ∈ added) (keyOut : CKey Point) :
    s.getKey lib k.id keyOut = .ok (true, k.toCKey) := by
  rw [getKey, isCrypted, h.fUseCrypto, Bool.not_false, if_pos rfl, CBasicKeyStore.getKey,
    h.mapKeys.lookup hk]
  change (CKey.setSecret lib.ec k.secret k.fCompressed {} >>= _) = _
  rw [k.setSecret_eq, Bool.or_false]
  rfl

/-- What holds of the store after any calls. -/
def Inv (vMasterKey : List UInt8) (added : List (MadeKey lib.ec)) (s : CCryptoKeyStore) : Prop :=
  s.Plain added ∨ s.Crypted vMasterKey added

theorem haveKey_iff (h : s.Inv vMasterKey added) {id : CKeyID} :
    s.haveKey id = true ↔ ∃ k ∈ added, k.id = id := by
  rw [haveKey, isCrypted]
  obtain h | h := h
  · rw [h.fUseCrypto, Bool.not_false, if_pos rfl, CBasicKeyStore.haveKey, decide_eq_true_eq,
      h.mapKeys.mem_iff]
  · rw [h.fUseCrypto, Bool.not_true, if_neg Bool.false_ne_true, decide_eq_true_eq,
      h.mapCryptedKeys.mem_iff]

theorem getPubKey_eq (h : s.Inv vMasterKey added) (hk : k ∈ added) :
    s.getPubKey lib k.id = .ok (some k.pubKey) := by
  rw [getPubKey, isCrypted]
  obtain h | h := h
  · rw [h.fUseCrypto, Bool.not_false, if_pos rfl, getKey_of_plain h hk]
    rfl
  · rw [h.fUseCrypto, Bool.not_true, if_neg Bool.false_ne_true, h.mapCryptedKeys.lookup hk]
    rfl

/-- No other id is found. -/
theorem not_found (h : s.Inv vMasterKey added) {id : CKeyID} (hid : ∀ k ∈ added, k.id ≠ id) :
    s.getPubKey lib id = .ok none ∧
      ∀ keyOut, s.getKey lib id keyOut = .ok (false, keyOut) := by
  have hnone : ¬ ∃ k ∈ added, k.id = id := fun ⟨k, hk, hkid⟩ ↦ hid k hk hkid
  obtain h | h := h
  · have hlookup := Finmap.lookup_eq_none.mpr (mt h.mapKeys.mem_iff.mp hnone)
    have hget : ∀ keyOut, s.getKey lib id keyOut = .ok (false, keyOut) := by
      intro keyOut
      rw [getKey, isCrypted, h.fUseCrypto, Bool.not_false, if_pos rfl, CBasicKeyStore.getKey,
        hlookup]
    refine ⟨?_, hget⟩
    rw [getPubKey, isCrypted, h.fUseCrypto, Bool.not_false, if_pos rfl, hget]
    rfl
  · have hlookup := Finmap.lookup_eq_none.mpr (mt h.mapCryptedKeys.mem_iff.mp hnone)
    rw [getPubKey, isCrypted, h.fUseCrypto, Bool.not_true, if_neg Bool.false_ne_true, hlookup]
    refine ⟨rfl, fun keyOut ↦ ?_⟩
    rw [getKey, isCrypted, h.fUseCrypto, Bool.not_true, if_neg Bool.false_ne_true, hlookup]

variable (vMasterKey) in
/-- A store without keys may be encrypted without a master key. -/
theorem setCrypted_of_plain (h : s.Plain added) : s.setCrypted = (false, s) ∨
    ∃ s', s.setCrypted = (true, s') ∧ s'.Crypted vMasterKey added := by
  rw [setCrypted, h.fUseCrypto, if_neg Bool.false_ne_true]
  split
  case isTrue => exact .inl rfl
  case isFalse hempty =>
    rw [not_not] at hempty
    have hadded : added = [] := by
      refine List.eq_nil_iff_forall_not_mem.mpr fun k hk ↦ ?_
      have hmem := Finmap.mem_keys.mpr (h.mapKeys.mem_iff.mpr ⟨k, hk, rfl⟩)
      rw [hempty] at hmem
      exact absurd hmem (Finset.notMem_empty _)
    refine .inr ⟨_, rfl, rfl, ?_, ?_, .inl h.vMasterKey⟩
    · refine Finmap.ext_lookup fun id ↦ ?_
      rw [Finmap.lookup_empty, Finmap.lookup_eq_none, ← Finmap.mem_keys, hempty]
      exact Finset.notMem_empty id
    · rw [hadded]
      dsimp only
      rw [h.mapCryptedKeys]
      exact Tabulates.empty

theorem Plain.addKey (h : s.Plain added) (hinj : ∀ j ∈ added, j.id = k.id → j = k) :
    ({ s with mapKeys := s.mapKeys.insert k.id k.plain } : CCryptoKeyStore).Plain (k :: added) where
  __ := h
  mapKeys := h.mapKeys.insert hinj

theorem Inv.addCScript (h : s.Inv vMasterKey added) (redeemScript : CScript) :
    (s.addCScript lib redeemScript).Inv vMasterKey added :=
  h.imp (fun h ↦ ⟨h.fUseCrypto, h.mapKeys, h.mapCryptedKeys, h.vMasterKey⟩)
    fun h ↦ ⟨h.fUseCrypto, h.mapKeys, h.mapCryptedKeys, h.vMasterKey⟩

theorem Inv.lockKeyStore (h : s.Inv vMasterKey added) :
    s.lockKeyStore.2.Inv vMasterKey added := by
  obtain h | h := h
  · obtain hset | ⟨s', hset, h'⟩ := setCrypted_of_plain vMasterKey h
    · rw [CCryptoKeyStore.lockKeyStore, hset]
      exact .inl h
    · rw [CCryptoKeyStore.lockKeyStore, hset]
      exact .inr ⟨h'.fUseCrypto, h'.mapKeys, h'.mapCryptedKeys, .inl rfl⟩
  · rw [CCryptoKeyStore.lockKeyStore, setCrypted_of_crypted h.fUseCrypto]
    exact .inr ⟨h.fUseCrypto, h.mapKeys, h.mapCryptedKeys, .inl rfl⟩

section

variable (hlib : lib.Lawful) (hmaster : vMasterKey.length = 32)
include hlib hmaster

theorem Inv.unlock (h : s.Inv vMasterKey added) :
    (s.unlock lib vMasterKey).2.Inv vMasterKey added := by
  have hcrypted : ∀ s : CCryptoKeyStore, s.Crypted vMasterKey added →
      (s.unlock lib vMasterKey).2.Inv vMasterKey added := by
    intro s h
    rw [unlock_of_crypted hlib hmaster h]
    exact .inr ⟨h.fUseCrypto, h.mapKeys, h.mapCryptedKeys, .inr rfl⟩
  obtain h | h := h
  · obtain hset | ⟨s', hset, h'⟩ := setCrypted_of_plain vMasterKey h
    · rw [CCryptoKeyStore.unlock, hset]
      exact .inl h
    · have heq : s.unlock lib vMasterKey = s'.unlock lib vMasterKey := by
        rw [CCryptoKeyStore.unlock, CCryptoKeyStore.unlock, hset,
          setCrypted_of_crypted h'.fUseCrypto]
      rw [heq]
      exact hcrypted s' h'
  · exact hcrypted s h

theorem Inv.encryptKeys (h : s.Inv vMasterKey added)
    (hinj : ∀ j ∈ added, ∀ k ∈ added, j.id = k.id → j = k) :
    (s.encryptKeys lib vMasterKey).2.Inv vMasterKey added := by
  obtain h | h := h
  · exact .inr (encryptKeys_of_plain hlib hmaster h hinj).2
  · rw [CCryptoKeyStore.encryptKeys, if_pos (.inr h.fUseCrypto)]
    exact .inr h

/-- A key is added unless the store is locked. -/
theorem addKey_of_unlocked (h : s.Inv vMasterKey added) (hlocked : s.isLocked = false)
    (k : MadeKey lib.ec) : ∃ s', s.addKey lib k.toCKey = .ok (true, s') ∧ s'.isLocked = false ∧
      ((∀ j ∈ added, j.id = k.id → j = k) → s'.Inv vMasterKey (k :: added)) := by
  obtain h | h := h
  · exact ⟨_, addKey_of_plain h, hlocked, fun hinj ↦ .inl (h.addKey hinj)⟩
  · rw [CCryptoKeyStore.addKey, isCrypted, h.fUseCrypto, Bool.not_true, if_neg Bool.false_ne_true,
      hlocked, if_neg Bool.false_ne_true, h.vMasterKey_of_unlocked hlocked,
      encryptKey_eq hlib hmaster h.fUseCrypto]
    exact ⟨_, rfl, hlocked, fun hinj ↦
      .inr ⟨h.fUseCrypto, h.mapKeys, h.mapCryptedKeys.insert hinj, h.vMasterKey⟩⟩

theorem inv_after {keys : List (MadeKey lib.ec)} {op : KeystoreOp lib.ec}
    (hids : ∀ j ∈ keys, ∀ k ∈ keys, j.id = k.id → j = k) (hop : ∀ k ∈ op.keys, k ∈ keys)
    (hadded : ∀ k ∈ added, k ∈ keys) (h : s.Inv vMasterKey added) :
    (op.run lib vMasterKey s).Inv vMasterKey (op.adds lib s ++ added) ∧
      ∀ k ∈ op.adds lib s ++ added, k ∈ keys := by
  have hinj : ∀ j ∈ added, ∀ k ∈ added, j.id = k.id → j = k :=
    fun j hj k hk ↦ hids j (hadded j hj) k (hadded k hk)
  cases op with
  | addKey k =>
      have hk : k ∈ keys := hop k List.mem_cons_self
      rw [KeystoreOp.run, KeystoreOp.adds]
      cases hlocked : s.isLocked with
      | true =>
          rw [addKey_of_locked hlocked]
          exact ⟨h, hadded⟩
      | false =>
          obtain ⟨s', hadd, -, h'⟩ := addKey_of_unlocked hlib hmaster h hlocked k
          rw [hadd]
          exact ⟨h' fun j hj ↦ hids j (hadded j hj) k hk, List.forall_mem_cons.mpr ⟨hk, hadded⟩⟩
  | addCScript redeemScript => exact ⟨h.addCScript redeemScript, hadded⟩
  | encryptKeys => exact ⟨h.encryptKeys hlib hmaster hinj, hadded⟩
  | lockKeyStore => exact ⟨h.lockKeyStore, hadded⟩
  | unlock => exact ⟨h.unlock hlib hmaster, hadded⟩

end

/-- `GetKey` into `keyOut` gives back the secret, in a key whose public key has the id. -/
def Restores (s : CCryptoKeyStore) (k : MadeKey lib.ec) (keyOut : CKey Point) : Prop :=
  ∃ key, s.getKey lib k.id keyOut = .ok (true, key) ∧
    (∃ fCompressed, key.getSecret = .ok (k.secret, fCompressed)) ∧
    ∃ vchPubKey, key.getPubKey lib.ec = .ok vchPubKey ∧ lib.getID vchPubKey = k.id

theorem restores_iff_of_getKey {keyOut : CKey Point} {fCompressed : Bool}
    (h : s.getKey lib k.id keyOut = .ok (true, (k.withForm fCompressed).toCKey)) :
    s.Restores k keyOut ↔ (k.withForm fCompressed).id = k.id := by
  constructor
  · rintro ⟨key, hget, -, vchPubKey, hpub, hid⟩
    obtain rfl := (Prod.mk.inj (Except.ok.inj (hget.symm.trans h))).2
    obtain rfl := Except.ok.inj (hpub.symm.trans (k.withForm fCompressed).getPubKey_toCKey)
    exact hid
  · intro hid
    exact ⟨_, h, ⟨fCompressed, (k.withForm fCompressed).getSecret_toCKey⟩, _,
      (k.withForm fCompressed).getPubKey_toCKey, hid⟩

theorem restores_iff (hlib : lib.Lawful) (hmaster : vMasterKey.length = 32)
    (h : s.Inv vMasterKey added) (hlocked : s.isLocked = false) (hk : k ∈ added)
    (hforms : lib.getID (lib.ec.i2o k.point .compressed) ≠
      lib.getID (lib.ec.i2o k.point .uncompressed)) (keyOut : CKey Point) :
    s.Restores k keyOut ↔
      (s.isCrypted = true → keyOut.fCompressedPubKey = true → k.fCompressed = true) := by
  obtain h | h := h
  · rw [restores_iff_of_getKey (getKey_of_plain h hk keyOut), isCrypted, h.fUseCrypto]
    exact iff_of_true rfl nofun
  · rw [restores_iff_of_getKey (getKey_of_crypted hlib hmaster h hlocked hk keyOut), isCrypted,
      h.fUseCrypto, MadeKey.id, MadeKey.id, MadeKey.pubKey, MadeKey.pubKey]
    change lib.getID (lib.ec.i2o k.point (.ofCompressed (k.fCompressed || _))) = _ ↔ _
    cases k.fCompressed with
    | true => exact iff_of_true rfl fun _ _ ↦ rfl
    | false =>
        cases keyOut.fCompressedPubKey with
        | true => exact iff_of_false hforms fun h ↦ Bool.false_ne_true (h rfl rfl)
        | false => exact iff_of_true rfl fun _ h ↦ h

end CCryptoKeyStore

/-- **The encrypted key store.** -/
theorem cryptoKeyStore_lossless_iff (hlib : lib.Lawful) {vMasterKey : List UInt8}
    (hmaster : vMasterKey.length = 32) (ops : List (KeystoreOp lib.ec))
    (hids : ∀ j ∈ ops.flatMap KeystoreOp.keys, ∀ k ∈ ops.flatMap KeystoreOp.keys,
      j.id = k.id → j = k)
    (hforms : ∀ k ∈ ops.flatMap KeystoreOp.keys, lib.getID (lib.ec.i2o k.point .compressed) ≠
      lib.getID (lib.ec.i2o k.point .uncompressed)) :
    let (s, added) := ops.foldl (KeystoreOp.after lib vMasterKey) ({}, [])
    (s.isCrypted = false → (s.encryptKeys lib vMasterKey).1 = .ok true) ∧
    (s.isLocked = true → ∀ key, s.addKey lib key = .ok (false, s)) ∧
    (s.isLocked = false → ∀ k : MadeKey lib.ec, ∃ s', s.addKey lib k.toCKey = .ok (true, s')) ∧
    (∀ id, s.haveKey id = true ↔ ∃ k ∈ added, k.id = id) ∧
    (∀ k ∈ added, s.getPubKey lib k.id = .ok (some k.pubKey)) ∧
    (∀ id, (∀ k ∈ added, k.id ≠ id) → s.getPubKey lib id = .ok none ∧
      ∀ keyOut, s.getKey lib id keyOut = .ok (false, keyOut)) ∧
    (s.isLocked = false → ∀ k ∈ added, ∀ keyOut, s.Restores k keyOut ↔
      (s.isCrypted = true → keyOut.fCompressedPubKey = true → k.fCompressed = true)) := by
  have hrun := List.foldlRecOn (motive := fun s : CCryptoKeyStore × List (MadeKey lib.ec) ↦
      s.1.Inv vMasterKey s.2 ∧ ∀ k ∈ s.2, k ∈ ops.flatMap KeystoreOp.keys)
    ops (KeystoreOp.after lib vMasterKey) (b := ({}, []))
    ⟨.inl ⟨rfl, Tabulates.empty, rfl, rfl⟩, nofun⟩
    fun s h op hop ↦ CCryptoKeyStore.inv_after hlib hmaster hids
      (fun k hk ↦ List.mem_flatMap.mpr ⟨op, hop, hk⟩) h.2 h.1
  obtain ⟨hinv, hadded⟩ := hrun
  generalize ops.foldl (KeystoreOp.after lib vMasterKey) ({}, []) = reached at hinv hadded
  obtain ⟨s, added⟩ := reached
  refine ⟨fun hplain ↦ ?_, CCryptoKeyStore.addKey_of_locked, fun hlocked k ↦ ?_,
    fun _ ↦ CCryptoKeyStore.haveKey_iff hinv, fun _ hk ↦ CCryptoKeyStore.getPubKey_eq hinv hk,
    fun _ hid ↦ CCryptoKeyStore.not_found hinv hid, fun hlocked k hk ↦
      CCryptoKeyStore.restores_iff hlib hmaster hinv hlocked hk (hforms k (hadded k hk))⟩
  · obtain h | h := hinv
    · exact (CCryptoKeyStore.encryptKeys_of_plain hlib hmaster h
        fun j hj k hk ↦ hids j (hadded j hj) k (hadded k hk)).1
    · exact absurd (hplain.symm.trans h.fUseCrypto) Bool.false_ne_true
  · obtain ⟨s', hadd, -⟩ := CCryptoKeyStore.addKey_of_unlocked hlib hmaster hinv hlocked k
    exact ⟨s', hadd⟩

end

/-! ### A library to compute with -/

/-- Points are numbers, the tag of a public key is its form, and a text is encrypted byte by
byte. -/
def sampleKeyLib : KeyLib Uint256 where
  ec := {
    regenerate := fun n ↦ some (BitVec.ofNat 256 n)
    i2o := fun point form ↦
      match form with
      | .compressed => 2 :: toBytes 32 point.toNat
      | _ => 4 :: (toBytes 32 point.toNat ++ toBytes 32 0)
    o2i := fun vch ↦
      match vch with
      | 2 :: vch => some (BitVec.ofNat 256 (ofBytes vch), .compressed)
      | 4 :: vch => some (BitVec.ofNat 256 (ofBytes (vch.take 32)), .uncompressed)
      | _ => none }
  crypto := {
    ripemd160 := fun vch ↦ Vector.ofFn fun i ↦ vch.getD i 0
    sha1 := fun vch ↦ Vector.ofFn fun i ↦ vch.getD i 0
    sha256 := fun vch ↦ Vector.ofFn fun i ↦ vch.getD i 0
    verify := fun _ _ _ ↦ false }
  encrypt chKey _ text := some (text.map (· ^^^ chKey.headD 0))
  decrypt chKey _ vch := some (vch.map (· ^^^ chKey.headD 0))

theorem sampleKeyLib_lawful : sampleKeyLib.Lawful where
  ec := {
    length_compressed := fun point ↦ by
      change (2 :: toBytes 32 point.toNat).length = 33
      rw [List.length_cons, length_toBytes]
    length_uncompressed := fun point ↦ by
      change (4 :: (toBytes 32 point.toNat ++ toBytes 32 0)).length = 65
      rw [List.length_cons, List.length_append, length_toBytes, length_toBytes]
    o2i_i2o := fun point fCompressed ↦ by
      have hlt : point.toNat < 256 ^ 32 := point.isLt
      cases fCompressed with
      | true =>
          change some (BitVec.ofNat 256 (ofBytes (toBytes 32 point.toNat)), _) = _
          rw [ofBytes_toBytes hlt, BitVec.ofNat_toNat, BitVec.setWidth_eq]
          rfl
      | false =>
          change some (BitVec.ofNat 256 (ofBytes ((toBytes 32 point.toNat ++
            toBytes 32 0).take 32)), _) = _
          rw [List.take_left' (length_toBytes 32 _), ofBytes_toBytes hlt, BitVec.ofNat_toNat,
            BitVec.setWidth_eq]
          rfl }
  decrypt_encrypt chKey chIV text h := by
    refine ⟨_, rfl, ?_⟩
    change some ((text.map (· ^^^ chKey.headD 0)).map (· ^^^ chKey.headD 0)) = some text
    rw [List.map_map]
    congr 1
    conv_rhs => rw [← List.map_id text]
    refine List.map_congr_left fun b _ ↦ ?_
    change b ^^^ chKey.headD 0 ^^^ chKey.headD 0 = b
    rw [UInt8.xor_assoc, UInt8.xor_self, UInt8.xor_zero]

def sampleMadeKey (fCompressed : Bool) : MadeKey sampleKeyLib.ec where
  secret := 1 :: List.replicate 31 0
  fCompressed := fCompressed
  point := BitVec.ofNat 256 (ofBytes (1 :: List.replicate 31 0).reverse)
  length_secret := rfl
  regenerate := rfl

def sampleMasterKey : List UInt8 := List.replicate 32 7

theorem length_sampleMasterKey : sampleMasterKey.length = 32 := rfl

def sampleKeystoreOps : List (KeystoreOp sampleKeyLib.ec) :=
  [.addKey (sampleMadeKey false), .encryptKeys, .unlock]

theorem sampleMadeKey_forms (fCompressed : Bool) :
    sampleKeyLib.getID (sampleKeyLib.ec.i2o (sampleMadeKey fCompressed).point .compressed) ≠
      sampleKeyLib.getID (sampleKeyLib.ec.i2o (sampleMadeKey fCompressed).point .uncompressed) := by
  cases fCompressed <;> decide +kernel

theorem isLocked_sampleKeystoreOps :
    (sampleKeystoreOps.foldl (KeystoreOp.after sampleKeyLib sampleMasterKey) ({}, [])).1.isLocked =
      false := by
  decide +kernel

/-- An uncompressed key, encrypted, is given back in a new object. -/
theorem cryptoKeyStore_lossless_iff_sample :
    let (s, _) := sampleKeystoreOps.foldl (KeystoreOp.after sampleKeyLib sampleMasterKey) ({}, [])
    s.isCrypted = true ∧ s.isLocked = false ∧ s.Restores (sampleMadeKey false) {} := by
  have h := cryptoKeyStore_lossless_iff sampleKeyLib_lawful length_sampleMasterKey sampleKeystoreOps
    (fun j hj k hk _ ↦ (List.mem_singleton.mp hj).trans (List.mem_singleton.mp hk).symm)
    (fun k hk ↦ by
      obtain rfl := List.mem_singleton.mp hk
      exact sampleMadeKey_forms false)
  obtain ⟨-, -, -, -, -, -, hrestores⟩ := h
  exact ⟨by decide +kernel, isLocked_sampleKeystoreOps,
    (hrestores isLocked_sampleKeystoreOps _ (List.mem_singleton_self _) {}).mpr
      fun _ hform ↦ absurd hform Bool.false_ne_true⟩

/-- An uncompressed key is not given back in an object that had a compressed one. -/
theorem cryptoKeyStore_loses_key : ∃ s : CCryptoKeyStore,
    sampleKeystoreOps.foldl (KeystoreOp.after sampleKeyLib sampleMasterKey) ({}, []) =
      (s, [sampleMadeKey false]) ∧ s.isLocked = false ∧
    ¬ s.Restores (sampleMadeKey false) (sampleMadeKey true).toCKey := by
  have hempty : ({} : CCryptoKeyStore).Plain ([] : List (MadeKey sampleKeyLib.ec)) :=
    ⟨rfl, Tabulates.empty, rfl, rfl⟩
  have hplain := hempty.addKey (k := sampleMadeKey false) nofun
  obtain ⟨-, hcrypted⟩ := CCryptoKeyStore.encryptKeys_of_plain sampleKeyLib_lawful
    length_sampleMasterKey hplain
    fun j hj k hk _ ↦ (List.mem_singleton.mp hj).trans (List.mem_singleton.mp hk).symm
  have hinv := CCryptoKeyStore.Inv.unlock sampleKeyLib_lawful length_sampleMasterKey
    (.inr hcrypted)
  refine ⟨_, rfl, isLocked_sampleKeystoreOps, fun hrestores ↦ ?_⟩
  have hcompressed := (CCryptoKeyStore.restores_iff sampleKeyLib_lawful length_sampleMasterKey hinv
    isLocked_sampleKeystoreOps (List.mem_singleton_self _) (sampleMadeKey_forms false) _).mp
    hrestores (by decide +kernel) rfl
  exact Bool.false_ne_true hcompressed

end Fedoracoin
