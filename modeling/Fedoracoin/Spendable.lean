import Fedoracoin.ScriptVerdicts

/-!
# Spending what is mine

`SignSignature` succeeds for a script that `IsMine` if the script is `Spendable`: the keys that are
signed for have the encoding that the interpreter asks for, and a script whose hash is paid to is
small enough to be pushed, and does not itself pay to the hash of a script.  No other script is
signed for, unless a signature verifies under a key that did not make it.
-/

namespace Fedoracoin

open Wire Matching

/-! ## What signing relies on -/

section

variable {Point : Type} (lib : SignLib Point)

/-- What is used of OpenSSL. -/
structure SignLib.Sound : Prop where
  lawful : lib.toKeyLib.Lawful
  /-- The bytes of a public key are read back as a key of its point. -/
  head_compressed (point : Point) :
    (lib.ec.i2o point .compressed).head? = some 2 ∨ (lib.ec.i2o point .compressed).head? = some 3
  head_uncompressed (point : Point) : (lib.ec.i2o point .uncompressed).head? = some 4
  /-- A signature is encoded as DER has it, is longer than the id of a key, and verifies under the
  public keys of its point. -/
  sign (k : MadeKey lib.ec) (hash : Uint256) : ∃ vchSig, lib.sign k.toCKey hash = some vchSig ∧
    (∀ nHashType, isValidSignatureEncoding (vchSig ++ [nHashType]) = some true) ∧
    20 ≤ vchSig.length ∧ ∀ vch form, lib.ec.o2i vch = some (k.point, form) →
      lib.crypto.verify hash vchSig vch = true

/-- A signature verifies under no other public keys.  This is an idealisation: no one finds another
for keys that are given, but some can be computed from the signature and the hash. -/
def SignLib.Exclusive : Prop :=
  ∀ (k : MadeKey lib.ec) (hash : Uint256) (vchSig vch : Valtype),
    lib.sign k.toCKey hash = some vchSig → lib.crypto.verify hash vchSig vch = true →
      ∃ form, lib.ec.o2i vch = some (k.point, form)

end

namespace CCryptoKeyStore

section

variable {Point : Type} (lib : SignLib Point) (s : CCryptoKeyStore)

/-- The key that is signed with for `pubkey` has `vch` as a public key, in an encoding that the
interpreter takes. -/
def SignsFor (pubkey vch : Valtype) : Prop :=
  isCanonicalPubKey vch signFlags = some true ∧ ∃ vchPubKey key point form,
    cPubKey pubkey = some vchPubKey ∧
    s.getKey lib.toKeyLib (lib.getID vchPubKey) {} = .ok (true, key) ∧ key.pub = some point ∧
    lib.ec.o2i vch = some (point, form)

/-- A script whose signatures verify.  Of the keys of a multisig script the first are signed for. -/
def SpendableBare (script : CScript) : Prop :=
  let r := solver script
  match r.typeRet with
  | .pubkey => s.SignsFor lib (r.vSolutionsRet.headD []) (r.vSolutionsRet.headD [])
  | .pubkeyhash => True
  | .multisig =>
      let keys := r.vSolutionsRet.tail.dropLast
      let nRequired := ((r.vSolutionsRet.head?.bind List.head?).getD 0).toNat
      List.SublistForall₂ (s.SignsFor lib) (keys.take nRequired) keys
  | _ => False

def Spendable (scriptPubKey : CScript) : Prop :=
  let r := solver scriptPubKey
  if r.typeRet = .scripthash then
    ∃ subscript, s.getCScript (uint160 (r.vSolutionsRet.headD [])) = some subscript ∧
      subscript.length ≤ 520 ∧ s.SpendableBare lib subscript
  else s.SpendableBare lib scriptPubKey

end

/-! ## Stores that calls lead to -/

section

variable {Point : Type} {lib : KeyLib Point} {vMasterKey : List UInt8}
  {keys added : List (MadeKey lib.ec)} {s : CCryptoKeyStore}

/-- A store whose keys are among `keys`, with its scripts under their hashes.  Of keys with one id
it has the last. -/
structure Reached (lib : KeyLib Point) (vMasterKey : List UInt8) (keys : List (MadeKey lib.ec))
    (s : CCryptoKeyStore) : Prop where
  inv : ∃ added : List (MadeKey lib.ec), s.Inv vMasterKey added ∧ (∀ k ∈ added, k ∈ keys) ∧
    ∀ j ∈ added, ∀ k ∈ added, j.id = k.id → j = k
  scripts : ∀ id script, s.getCScript id = some script → lib.crypto.getID script = id

theorem reached_empty : Reached lib vMasterKey keys {} where
  inv := ⟨[], .inl ⟨rfl, Tabulates.empty, rfl, rfl⟩, nofun,
    nofun⟩
  scripts id script h := by
    rw [CBasicKeyStore.getCScript, Finmap.lookup_empty] at h
    cases h

theorem Reached.scripts_congr (h : s.Reached lib vMasterKey keys) {s' : CCryptoKeyStore}
    (hscripts : s'.mapScripts = s.mapScripts) (id : Uint160) (script : CScript)
    (hscript : s'.getCScript id = some script) : lib.crypto.getID script = id := by
  refine h.scripts id script ?_
  rw [CBasicKeyStore.getCScript, ← hscripts]
  exact hscript

theorem mapScripts_setCrypted : s.setCrypted.2.mapScripts = s.mapScripts := by
  rw [setCrypted]
  split_ifs
  all_goals rfl

theorem mapScripts_addCryptedKey (vchPubKey : CPubKey) (vchCryptedSecret : List UInt8) :
    (s.addCryptedKey lib vchPubKey vchCryptedSecret).2.mapScripts = s.mapScripts := by
  rw [addCryptedKey]
  dsimp only
  split
  · exact mapScripts_setCrypted
  · exact mapScripts_setCrypted

theorem mapScripts_encryptKey {key : CKey Point} {fOk : Bool} {s' : CCryptoKeyStore}
    (h : s.encryptKey lib vMasterKey key = .ok (fOk, s')) : s'.mapScripts = s.mapScripts := by
  rw [encryptKey] at h
  obtain ⟨vchPubKey, -, h⟩ := bind_eq_ok.mp h
  obtain ⟨⟨secret, fCompressed⟩, -, h⟩ := bind_eq_ok.mp h
  dsimp only at h
  split at h
  case h_1 =>
    obtain ⟨-, rfl⟩ := Prod.mk.inj (Except.ok.inj h)
    rfl
  case h_2 vchCryptedSecret _ =>
    have hs' : (s.addCryptedKey lib vchPubKey vchCryptedSecret).2 = s' :=
      congrArg Prod.snd (Except.ok.inj h)
    rw [← hs']
    exact mapScripts_addCryptedKey vchPubKey vchCryptedSecret

theorem mapScripts_encryptLoop (entries : List (CKeyID × (List UInt8 × Bool))) :
    (encryptLoop lib vMasterKey s entries).2.mapScripts = s.mapScripts := by
  induction entries generalizing s with
  | nil => rfl
  | cons entry entries ih =>
      obtain ⟨id, secret, fCompressed⟩ := entry
      rw [encryptLoop]
      split
      case h_1 => rfl
      case h_2 s' hencrypt =>
        obtain ⟨key, -, hkey⟩ := bind_eq_ok.mp hencrypt
        exact mapScripts_encryptKey hkey
      case h_3 s' hencrypt =>
        obtain ⟨key, -, hkey⟩ := bind_eq_ok.mp hencrypt
        exact ih.trans (mapScripts_encryptKey hkey)

section

variable (hlib : lib.Lawful) (hmaster : vMasterKey.length = 32)
include hlib hmaster

/-- A key takes the place of the key that had its id. -/
theorem Inv.addKey (h : s.Inv vMasterKey added) (hlocked : s.isLocked = false)
    (k : MadeKey lib.ec) : ∃ s', s.addKey lib k.toCKey = .ok (true, s') ∧
      s'.mapScripts = s.mapScripts ∧
      s'.Inv vMasterKey (k :: added.filter fun j ↦ decide (j.id ≠ k.id)) := by
  obtain h | h := h
  · exact ⟨_, addKey_of_plain h, rfl,
      .inl ⟨h.fUseCrypto, h.mapKeys.insert_filter k, h.mapCryptedKeys, h.vMasterKey⟩⟩
  · rw [CCryptoKeyStore.addKey, isCrypted, h.fUseCrypto, Bool.not_true, if_neg Bool.false_ne_true,
      hlocked, if_neg Bool.false_ne_true, h.vMasterKey_of_unlocked hlocked,
      encryptKey_eq hlib hmaster h.fUseCrypto]
    exact ⟨_, rfl, rfl,
      .inr ⟨h.fUseCrypto, h.mapKeys, h.mapCryptedKeys.insert_filter k, h.vMasterKey⟩⟩

theorem Reached.addKey (h : s.Reached lib vMasterKey keys) {k : MadeKey lib.ec} (hk : k ∈ keys) :
    (KeystoreOp.run lib vMasterKey s (.addKey k)).Reached lib vMasterKey keys := by
  obtain ⟨added, hinv, hadded, hinj⟩ := h.inv
  rw [KeystoreOp.run]
  cases hlocked : s.isLocked with
  | true =>
      rw [addKey_of_locked hlocked]
      exact h
  | false =>
      obtain ⟨s', hadd, hscripts, hinv'⟩ := hinv.addKey hlib hmaster hlocked k
      rw [hadd]
      refine ⟨⟨_, hinv', ?_, ?_⟩, h.scripts_congr hscripts⟩
      · exact List.forall_mem_cons.mpr ⟨hk, fun j hj ↦ hadded j (List.mem_filter.mp hj).1⟩
      · intro i hi j hj hid
        obtain rfl | hi := List.mem_cons.mp hi
        · obtain rfl | hj := List.mem_cons.mp hj
          · rfl
          · exact absurd hid.symm (of_decide_eq_true (List.mem_filter.mp hj).2)
        · obtain rfl | hj := List.mem_cons.mp hj
          · exact absurd hid (of_decide_eq_true (List.mem_filter.mp hi).2)
          · exact hinj i (List.mem_filter.mp hi).1 j (List.mem_filter.mp hj).1 hid

theorem Reached.run (h : s.Reached lib vMasterKey keys) {op : KeystoreOp lib.ec}
    (hop : ∀ k ∈ op.keys, k ∈ keys) :
    (op.run lib vMasterKey s).Reached lib vMasterKey keys := by
  obtain ⟨added, hinv, hadded, hinj⟩ := h.inv
  cases op with
  | addKey k => exact h.addKey hlib hmaster (hop k List.mem_cons_self)
  | addCScript redeemScript =>
      refine ⟨⟨added, hinv.addCScript redeemScript, hadded, hinj⟩, fun id script hscript ↦ ?_⟩
      change (s.mapScripts.insert (lib.crypto.getID redeemScript) redeemScript).lookup id = _
        at hscript
      by_cases hid : id = lib.crypto.getID redeemScript
      · rw [hid, Finmap.lookup_insert] at hscript
        rw [← Option.some.inj hscript, hid]
      · rw [Finmap.lookup_insert_of_ne _ hid] at hscript
        exact h.scripts id script hscript
  | encryptKeys =>
      refine ⟨⟨added, hinv.encryptKeys hlib hmaster hinj, hadded, hinj⟩, h.scripts_congr ?_⟩
      rw [KeystoreOp.run, CCryptoKeyStore.encryptKeys]
      split
      · rfl
      · exact mapScripts_encryptLoop _
  | lockKeyStore =>
      refine ⟨⟨added, hinv.lockKeyStore, hadded, hinj⟩, h.scripts_congr ?_⟩
      rw [KeystoreOp.run, CCryptoKeyStore.lockKeyStore]
      dsimp only
      split
      · exact mapScripts_setCrypted
      · exact mapScripts_setCrypted
  | unlock =>
      refine ⟨⟨added, hinv.unlock hlib hmaster, hadded, hinj⟩, h.scripts_congr ?_⟩
      rw [KeystoreOp.run, CCryptoKeyStore.unlock]
      dsimp only
      split
      · exact mapScripts_setCrypted
      · split
        · exact mapScripts_setCrypted
        · split
          · exact mapScripts_setCrypted
          · exact mapScripts_setCrypted

/-- After any calls. -/
theorem reached_foldl (ops : List (KeystoreOp lib.ec)) :
    (ops.foldl (KeystoreOp.run lib vMasterKey) {}).Reached lib vMasterKey
      (ops.flatMap KeystoreOp.keys) :=
  List.foldlRecOn (motive := fun s : CCryptoKeyStore ↦
      s.Reached lib vMasterKey (ops.flatMap KeystoreOp.keys))
    ops (KeystoreOp.run lib vMasterKey) reached_empty fun _ h op hop ↦
      h.run hlib hmaster fun _ hk ↦ List.mem_flatMap.mpr ⟨op, hop, hk⟩

end

end

/-! ## Signatures of a store -/

section

variable {Point : Type} {lib : SignLib Point} {vMasterKey : List UInt8}
  {keys : List (MadeKey lib.ec)} {s : CCryptoKeyStore} {hash : Uint256} {nHashType : BitVec 32}
  {id : CKeyID} {k : MadeKey lib.ec} {vchSig pubkey vch : Valtype} {vchPubKey : CPubKey}

/-- What the `scriptSig` of an input is tested in. -/
def inputContext (lib : SignLib Point) (txTo : CTransaction) (nIn : Nat) (scriptSig : CScript) :
    SigContext :=
  { crypto := lib.crypto, txTo := txTo.setScriptSig nIn scriptSig, nIn := nIn }

/-- The key of an id, and what it signs a hash with. -/
structure Signs (lib : SignLib Point) (s : CCryptoKeyStore) (hash : Uint256)
    (nHashType : BitVec 32) (id : CKeyID) (k : MadeKey lib.ec) (vchSig : Valtype) : Prop where
  getID : lib.getID k.pubKey = id
  getKey : s.getKey lib.toKeyLib id {} = .ok (true, k.toCKey)
  getPubKey : s.getPubKey lib.toKeyLib id = .ok (some k.pubKey)
  signed : ∃ sig, lib.sign k.toCKey hash = some sig ∧
    vchSig = sig ++ [UInt8.ofNat nHashType.toNat]

theorem Signs.sign1_eq (h : Signs lib s hash nHashType id k vchSig) (scriptSigRet : CScript) :
    s.sign1 lib hash nHashType id scriptSigRet = some (true, scriptSigRet.push vchSig) := by
  obtain ⟨sig, hsign, rfl⟩ := h.signed
  rw [sign1, h.getKey, Except.toOption, Option.bind_eq_bind, Option.bind_some]
  dsimp only
  rw [Bool.not_true, if_neg Bool.false_ne_true, hsign]
  rfl

variable (hsound : lib.Sound)
include hsound

/-- Each id that the store has is signed for. -/
theorem exists_signs (hmaster : vMasterKey.length = 32)
    (h : s.Reached lib.toKeyLib vMasterKey keys) (hlocked : s.isLocked = false)
    (hhave : s.haveKey id = true) (hash : Uint256) (nHashType : BitVec 32) :
    ∃ k ∈ keys, ∃ vchSig, Signs lib s hash nHashType id k vchSig := by
  obtain ⟨added, hinv, hadded, -⟩ := h.inv
  obtain ⟨k, hk, rfl⟩ := (haveKey_iff hinv).mp hhave
  obtain ⟨sig, hsign, -⟩ := hsound.sign k hash
  refine ⟨k, hadded k hk, _, rfl, ?_, getPubKey_eq hinv hk, sig, hsign, rfl⟩
  obtain hinv | hinv := hinv
  · exact getKey_of_plain hinv hk {}
  · rw [getKey_of_crypted hsound.lawful hmaster hinv hlocked hk, Bool.or_false]
    rfl

theorem Signs.form (h : Signs lib s hash nHashType id k vchSig) :
    20 < vchSig.length ∧ vchSig.length ≤ 73 ∧ vchSig.head? = some 0x30 := by
  obtain ⟨sig, hsign, rfl⟩ := h.signed
  obtain ⟨sig', hsign', hencoding, hlength, -⟩ := hsound.sign k hash
  obtain rfl := Option.some.inj (hsign.symm.trans hsign')
  obtain ⟨hle, hhead⟩ := head_of_encoding (hencoding (UInt8.ofNat nHashType.toNat))
  refine ⟨?_, hle, hhead⟩
  rw [List.length_append, List.length_singleton]
  omega

variable {txTo : CTransaction} {nIn : Nat} {code scriptSig : CScript}

/-- What the interpreter makes of a signature. -/
theorem Signs.sigOk_iff
    (h : Signs lib s (signatureHash lib.crypto.hash code txTo nIn nHashType) nHashType id k vchSig)
    (htype : nHashType ∈ hashTypes) :
    (inputContext lib txTo nIn scriptSig).sigOk signFlags code vchSig vch = true ↔
      isCanonicalPubKey vch signFlags = some true ∧
        ∃ sig, lib.sign k.toCKey (signatureHash lib.crypto.hash code txTo nIn nHashType) =
            some sig ∧
          lib.crypto.verify (signatureHash lib.crypto.hash code txTo nIn nHashType) sig vch =
            true := by
  obtain ⟨sig, hsign, rfl⟩ := h.signed
  obtain ⟨sig', hsign', hencoding, -⟩ := hsound.sign k _
  obtain rfl := Option.some.inj (hsign.symm.trans hsign')
  have hcanonical : isCanonicalSignature (sig ++ [UInt8.ofNat nHashType.toNat]) signFlags =
      some true :=
    (isCanonicalSignature_iff_encoding (by decide) (by decide)).mpr
      ⟨hencoding _, _, List.getLast?_concat, isHashType_of_mem htype⟩
  have hcheck : (inputContext lib txTo nIn scriptSig).checkSig
      (sig ++ [UInt8.ofNat nHashType.toNat]) vch code = lib.crypto.verify
        (signatureHash lib.crypto.hash code txTo nIn nHashType) sig vch := by
    rw [SigContext.checkSig, List.getLast?_concat]
    refine (if_neg fun h ↦ h.1 rfl).trans ?_
    change lib.crypto.verify (signatureHash lib.crypto.hash code (txTo.setScriptSig nIn scriptSig)
      nIn _) _ _ = _
    rw [hashType_of_mem htype, signatureHash_setScriptSig, List.dropLast_concat]
  rw [SigContext.sigOk, SigContext.checkCanonicalSig]
  by_cases hkey : isCanonicalPubKey vch signFlags = some true
  · rw [if_pos ⟨hcanonical, hkey⟩, hcheck]
    simp [hkey, hsign]
  · rw [if_neg fun h ↦ hkey h.2]
    exact iff_of_false Bool.false_ne_true fun h ↦ hkey h.1

theorem Signs.sigOk_of_signsFor
    (h : Signs lib s (signatureHash lib.crypto.hash code txTo nIn nHashType) nHashType
      (lib.getID vchPubKey) k vchSig)
    (hpubkey : cPubKey pubkey = some vchPubKey) (htype : nHashType ∈ hashTypes)
    (hfor : s.SignsFor lib pubkey vch) :
    (inputContext lib txTo nIn scriptSig).sigOk signFlags code vchSig vch = true := by
  obtain ⟨hcanonical, vchPubKey', key, point, form, hpubkey', hget, hpoint, hread⟩ := hfor
  obtain rfl := Option.some.inj (hpubkey'.symm.trans hpubkey)
  obtain rfl : k.toCKey = key := congrArg Prod.snd (Except.ok.inj (h.getKey.symm.trans hget))
  obtain rfl := Option.some.inj hpoint
  obtain ⟨sig, hsign, -, -, hverify⟩ := hsound.sign k _
  exact (h.sigOk_iff hsound htype).mpr ⟨hcanonical, sig, hsign, hverify vch form hread⟩

theorem Signs.signsFor_of_sigOk
    (h : Signs lib s (signatureHash lib.crypto.hash code txTo nIn nHashType) nHashType
      (lib.getID vchPubKey) k vchSig)
    (hpubkey : cPubKey pubkey = some vchPubKey) (htype : nHashType ∈ hashTypes)
    (hexclusive : lib.Exclusive)
    (hok : (inputContext lib txTo nIn scriptSig).sigOk signFlags code vchSig vch = true) :
    s.SignsFor lib pubkey vch := by
  obtain ⟨hcanonical, sig, hsign, hverify⟩ := (h.sigOk_iff hsound htype).mp hok
  obtain ⟨form, hread⟩ := hexclusive k _ sig vch hsign hverify
  exact ⟨hcanonical, vchPubKey, k.toCKey, k.point, form, hpubkey, h.getKey, rfl, hread⟩

end

/-! ## Scripts that are solved -/

section

variable {Point : Type} {lib : SignLib Point} {vMasterKey : List UInt8}
  {keys : List (MadeKey lib.ec)} {s : CCryptoKeyStore} {nHashType : BitVec 32}
  {txTo : CTransaction} {nIn : Nat} {script pc : CScript} {vch vchSig vchPubKey : Valtype}

/-- A verdict that is right about `P`, as far as signatures show who made them. -/
def Agrees (lib : SignLib Point) (P : Prop) (fOk : Bool) : Prop :=
  (P → fOk = true) ∧ (lib.Exclusive → fOk = true → P)

/-- A script is solved by values, which leave a verdict. -/
structure Solved (lib : SignLib Point) (s : CCryptoKeyStore) (nHashType : BitVec 32)
    (txTo : CTransaction) (nIn : Nat) (script : CScript) (type : TxnOutType) (vs : List Valtype) :
    Prop where
  length : script.length ≤ 10000
  solverSign : s.solverSign lib (signatureHash lib.crypto.hash script txTo nIn nHashType) nHashType
    script = some (true, pushAll vs, type)
  size : ∀ v ∈ vs, v.length ≤ 520
  few : vs.length ≤ 17
  verdict (scriptSig : CScript) : ∃ fOk,
    (evalScript (inputContext lib txTo nIn scriptSig) signFlags vs.reverse script).ret =
      some (verdictStack fOk []) ∧ Agrees lib (s.SpendableBare lib script) fOk

theorem toList_hash160 {crypto : Crypto} {hash : Valtype} (hsize : hash.length = 20)
    (h : crypto.getID vch = uint160 hash) : (crypto.hash160 vch).toList = hash := by
  have hlength : (crypto.hash160 vch).toList.length = 20 := Vector.length_toList
  have hlt₁ := ofBytes_lt (crypto.hash160 vch).toList
  have hlt₂ := ofBytes_lt hash
  rw [hlength, show 256 ^ 20 = 2 ^ 160 by norm_num] at hlt₁
  rw [hsize, show 256 ^ 20 = 2 ^ 160 by norm_num] at hlt₂
  have hnat := congrArg BitVec.toNat h
  rw [Crypto.getID, uint160, BitVec.toNat_ofNat, BitVec.toNat_ofNat, Nat.mod_eq_of_lt hlt₁,
    Nat.mod_eq_of_lt hlt₂] at hnat
  have hhash := toBytes_ofBytes hash
  have hbytes := toBytes_ofBytes (crypto.hash160 vch).toList
  rw [hsize] at hhash
  rw [hlength, hnat, hhash] at hbytes
  exact hbytes.symm

/-- A public key that was made is one that the interpreter takes. -/
theorem isCanonicalPubKey_pubKey (hsound : lib.Sound) (k : MadeKey lib.ec) :
    isCanonicalPubKey k.pubKey signFlags = some true := by
  rw [isCanonicalPubKey_iff, MadeKey.pubKey]
  cases k.fCompressed with
  | true =>
      exact .inr ⟨hsound.head_compressed k.point, hsound.lawful.ec.length_compressed k.point⟩
  | false =>
      exact .inl ⟨hsound.head_uncompressed k.point, hsound.lawful.ec.length_uncompressed k.point⟩

variable (hsound : lib.Sound) (hmaster : vMasterKey.length = 32)
  (h : s.Reached lib.toKeyLib vMasterKey keys) (hlocked : s.isLocked = false)
  (hempty : ∀ k ∈ keys, lib.getID k.pubKey ≠ lib.getID []) (htype : nHashType ∈ hashTypes)

include h hempty in
/-- A key of a script is no signature, since the store has the key. -/
theorem ne_of_haveKey (hpub : cPubKey vch = some vchPubKey)
    (hhave : s.haveKey (lib.getID vchPubKey) = true) (hhead : vchSig.head? = some 0x30) :
    vch ≠ vchSig := by
  rintro rfl
  obtain rfl := Option.some.inj ((cPubKey_of_head hhead).symm.trans hpub)
  obtain ⟨added, hinv, hadded, -⟩ := h.inv
  obtain ⟨k, hk, hid⟩ := (haveKey_iff hinv).mp hhave
  exact hempty k (hadded k hk) hid

include hsound hmaster h hlocked hempty htype

theorem solved_pubkey (hsolver : solver script = ⟨true, .pubkey, [vch]⟩)
    (hsize : isPubKeySize vch = true) (hpushes : Pushes script [vch] [opChecksig])
    (hpub : cPubKey vch = some vchPubKey) (hhave : s.haveKey (lib.getID vchPubKey) = true) :
    ∃ vs, Solved lib s nHashType txTo nIn script .pubkey vs := by
  obtain ⟨k, -, vchSig, hsigns⟩ := exists_signs hsound hmaster h hlocked hhave
    (signatureHash lib.crypto.hash script txTo nIn nHashType) nHashType
  obtain ⟨-, hle, hhead⟩ := hsigns.form hsound
  have hne := ne_of_haveKey h hempty hpub hhave hhead
  have hsig : vchSig ≠ [] := by
    rintro rfl
    cases hhead
  have hspendable : s.SpendableBare lib script = s.SignsFor lib vch vch := by
    rw [SpendableBare, hsolver]
    rfl
  refine ⟨[vchSig], length_le_pubkey hpushes hsize, ?_, ?_, ?_, fun scriptSig ↦
    ⟨_, evalScript_pubkey hpushes hsize ?_ ?_, ?_, ?_⟩⟩
  · rw [solverSign, hsolver]
    change (cPubKey vch >>= _) = _
    rw [hpub]
    change (s.sign1 lib _ nHashType (lib.getID vchPubKey) [] >>= _) = _
    rw [hsigns.sign1_eq, pushAll_singleton]
    rfl
  · exact List.forall_mem_singleton.mpr (hle.trans (by decide))
  · simp
  · exact hle.trans_lt (by decide)
  · exact hpushes.notPushed (List.forall_mem_singleton.mpr hne)
      (NotPushed.nil.code (by decide) hsig)
  · rw [hspendable]
    exact hsigns.sigOk_of_signsFor hsound hpub htype
  · rw [hspendable]
    exact hsigns.signsFor_of_sigOk hsound hpub htype

omit hempty in
theorem solved_pubkeyhash {hash : Valtype}
    (hsolver : solver (opDup :: opHash160 :: pc) = ⟨true, .pubkeyhash, [hash]⟩)
    (hsize : hash.length = 20) (hpushes : Pushes pc [hash] [opEqualverify, opChecksig])
    (hhave : s.haveKey (uint160 hash) = true) :
    ∃ vs, Solved lib s nHashType txTo nIn (opDup :: opHash160 :: pc) .pubkeyhash vs := by
  obtain ⟨k, -, vchSig, hsigns⟩ := exists_signs hsound hmaster h hlocked hhave
    (signatureHash lib.crypto.hash (opDup :: opHash160 :: pc) txTo nIn nHashType) nHashType
  obtain ⟨hlt, hle, hhead⟩ := hsigns.form hsound
  have hne : hash ≠ vchSig := by
    rintro rfl
    omega
  have hsig : vchSig ≠ [] := by
    rintro rfl
    cases hhead
  have hpubKey := isCanonicalPubKey_pubKey hsound k
  have hlength : k.pubKey.length ≤ 65 := by
    rw [isCanonicalPubKey_iff] at hpubKey
    omega
  have hspendable : s.SpendableBare lib (opDup :: opHash160 :: pc) = True := by
    rw [SpendableBare, hsolver]
  refine ⟨[vchSig, k.pubKey], length_le_pubkeyhash hsize hpushes, ?_, ?_, ?_, fun scriptSig ↦
    ⟨_, evalScript_pubkeyhash hsize hpushes (toList_hash160 hsize hsigns.getID) ?_ ?_, ?_, ?_⟩⟩
  · rw [solverSign, hsolver]
    change (s.sign1 lib _ nHashType (uint160 hash) [] >>= _) = _
    rw [hsigns.sign1_eq]
    change ((s.getPubKey lib.toKeyLib (uint160 hash)).toOption >>= _) = _
    rw [hsigns.getPubKey, show [vchSig, k.pubKey] = [vchSig] ++ [k.pubKey] from rfl, pushAll_concat,
      pushAll_singleton]
    rfl
  · exact List.forall_mem_cons.mpr ⟨hle.trans (by decide),
      List.forall_mem_singleton.mpr (hlength.trans (by decide))⟩
  · simp
  · exact hle.trans_lt (by decide)
  · refine .code (by decide) hsig (.code (by decide) hsig ?_)
    exact hpushes.notPushed (List.forall_mem_singleton.mpr hne)
      (.code (by decide) hsig (NotPushed.nil.code (by decide) hsig))
  · intro _
    obtain ⟨sig, hsign, -, -, hverify⟩ := hsound.sign k
      (signatureHash lib.crypto.hash (opDup :: opHash160 :: pc) txTo nIn nHashType)
    exact (hsigns.sigOk_iff hsound htype).mpr ⟨hpubKey, sig, hsign,
      hverify k.pubKey _ (hsound.lawful.ec.o2i_i2o k.point k.fCompressed)⟩
  · intro _ _
    rw [hspendable]
    trivial

omit hsound hmaster h hlocked hempty htype in
theorem haveKeys_spec {pubkeys : List Valtype} {nResult : Nat}
    (hhave : s.haveKeys lib pubkeys = some nResult) : nResult ≤ pubkeys.length ∧
      (nResult = pubkeys.length → ∀ vch ∈ pubkeys, ∃ vchPubKey, cPubKey vch = some vchPubKey ∧
        s.haveKey (lib.getID vchPubKey) = true) := by
  induction pubkeys generalizing nResult with
  | nil =>
      obtain rfl := Option.some.inj hhave
      exact ⟨Nat.le_refl _, nofun⟩
  | cons vch pubkeys ih =>
      rw [haveKeys] at hhave
      obtain ⟨vchPubKey, hpub, hhave⟩ := Option.bind_eq_some_iff.mp hhave
      obtain ⟨nRest, hrest, hhave⟩ := Option.bind_eq_some_iff.mp hhave
      obtain ⟨hle, hall⟩ := ih hrest
      obtain rfl := Option.some.inj hhave
      rw [List.length_cons]
      split
      case isTrue hkey =>
        refine ⟨Nat.succ_le_succ hle, fun heq ↦ List.forall_mem_cons.mpr ⟨⟨_, hpub, hkey⟩, ?_⟩⟩
        exact hall (Nat.succ.inj heq)
      case isFalse => exact ⟨Nat.le_succ_of_le hle, fun heq ↦ absurd heq (by omega)⟩

/-- The signature of the key that a key of a script stands for. -/
def SignedBy (lib : SignLib Point) (s : CCryptoKeyStore) (hash : Uint256) (nHashType : BitVec 32)
    (pubkey vchSig : Valtype) : Prop :=
  ∃ vchPubKey k, cPubKey pubkey = some vchPubKey ∧
    Signs lib s hash nHashType (lib.getID vchPubKey) k vchSig

omit hsound hmaster h hlocked hempty htype in
/-- Signatures are made until there are enough. -/
theorem signNLoop_eq {hash : Uint256} {pubkeys sigs : List Valtype} {nRequired nSigned : Nat}
    {scriptSigRet : CScript} (hsigns : List.Forall₂ (SignedBy lib s hash nHashType) pubkeys sigs)
    (hle : nSigned ≤ nRequired) :
    s.signNLoop lib hash nHashType nRequired pubkeys nSigned scriptSigRet =
      some (nSigned + (sigs.take (nRequired - nSigned)).length,
        scriptSigRet ++ pushAll (sigs.take (nRequired - nSigned))) := by
  induction hsigns generalizing nSigned scriptSigRet with
  | nil =>
      rw [signNLoop, List.take_nil]
      exact congrArg (fun script ↦ some (nSigned, script)) (List.append_nil _).symm
  | @cons pubkey vchSig pubkeys sigs hsign _ ih =>
      obtain ⟨vchPubKey, k, hpub, hsign⟩ := hsign
      rw [signNLoop]
      split
      case isTrue hlt =>
        rw [hpub]
        change (s.sign1 lib hash nHashType (lib.getID vchPubKey) scriptSigRet >>= _) = _
        rw [hsign.sign1_eq]
        change s.signNLoop lib hash nHashType nRequired pubkeys (nSigned + 1)
          (scriptSigRet.push vchSig) = _
        have htake : (vchSig :: sigs).take (nRequired - nSigned) =
            vchSig :: sigs.take (nRequired - (nSigned + 1)) := by
          rw [show nRequired - nSigned = nRequired - (nSigned + 1) + 1 by omega,
            List.take_succ_cons]
        rw [ih (show nSigned + 1 ≤ nRequired from hlt), htake, List.length_cons, push_eq,
          List.append_assoc, pushAll, pushAll, List.flatMap_cons, Nat.add_right_comm]
        rfl
      case isFalse hge =>
        rw [show nRequired - nSigned = 0 by omega, List.take_zero]
        exact congrArg (fun script ↦ some (nSigned, script)) (List.append_nil _).symm

theorem solved_multisig {m n : UInt8} {pubkeys : List Valtype}
    (hsolver : solver (m :: pc) = ⟨true, .multisig,
      [UInt8.ofNat (decodeOpN m)] :: (pubkeys ++ [[UInt8.ofNat (decodeOpN n)]])⟩)
    (hm : op1 ≤ m ∧ m ≤ op16) (hn : op1 ≤ n ∧ n ≤ op16) (hle : decodeOpN m ≤ pubkeys.length)
    (hlength : pubkeys.length = decodeOpN n) (hsizes : ∀ vch ∈ pubkeys, isPubKeySize vch = true)
    (hpushes : Pushes pc pubkeys [n, opCheckmultisig])
    (hhave : ∀ vch ∈ pubkeys, ∃ vchPubKey, cPubKey vch = some vchPubKey ∧
      s.haveKey (lib.getID vchPubKey) = true) :
    ∃ vs, Solved lib s nHashType txTo nIn (m :: pc) .multisig vs := by
  have hexists : ∀ pubkey ∈ pubkeys, ∃ vchSig, SignedBy lib s
      (signatureHash lib.crypto.hash (m :: pc) txTo nIn nHashType) nHashType pubkey vchSig := by
    intro pubkey hpubkey
    obtain ⟨vchPubKey, hpub, hkey⟩ := hhave pubkey hpubkey
    obtain ⟨k, -, vchSig, hsigns⟩ := exists_signs hsound hmaster h hlocked hkey
      (signatureHash lib.crypto.hash (m :: pc) txTo nIn nHashType) nHashType
    exact ⟨vchSig, vchPubKey, k, hpub, hsigns⟩
  obtain ⟨allSigs, hall⟩ := exists_forall₂ hexists
  have htake := List.forall₂_take (decodeOpN m) hall
  have hlengths := htake.length_eq
  rw [List.length_take, Nat.min_eq_left hle] at hlengths
  generalize hsigs : allSigs.take (decodeOpN m) = sigs at htake hlengths
  have hforms : ∀ vchSig ∈ sigs, 20 < vchSig.length ∧ vchSig.length ≤ 73 ∧
      vchSig.head? = some 0x30 := by
    intro vchSig hvchSig
    obtain ⟨pubkey, -, vchPubKey, k, -, hsigns⟩ := exists_mem_left htake hvchSig
    exact hsigns.form hsound
  have hcount : (UInt8.ofNat (decodeOpN m)).toNat = decodeOpN m := toNat_decodeOpN hm.2
  have hspendable : s.SpendableBare lib (m :: pc) =
      List.SublistForall₂ (s.SignsFor lib) (pubkeys.take (decodeOpN m)) pubkeys := by
    rw [SpendableBare, hsolver]
    dsimp only
    rw [List.tail_cons, List.dropLast_concat, List.head?_cons, Option.bind_some, List.head?_cons,
      Option.getD_some, hcount]
  have hsignN : s.signN lib (signatureHash lib.crypto.hash (m :: pc) txTo nIn nHashType) nHashType
      ([UInt8.ofNat (decodeOpN m)] :: (pubkeys ++ [[UInt8.ofNat (decodeOpN n)]])) [0] =
      some (true, pushAll ([] :: sigs)) := by
    rw [signN, List.tail_cons, List.dropLast_concat, List.head?_cons, Option.bind_some,
      List.head?_cons, Option.getD_some, hcount, signNLoop_eq hall (Nat.zero_le _), Nat.sub_zero,
      hsigs, ← hlengths]
    change some (decide (0 + decodeOpN m = decodeOpN m), _) = _
    rw [Nat.zero_add, decide_eq_true rfl]
    rfl
  refine ⟨[] :: sigs, length_le_multisig hn.2 hlength hsizes hpushes, ?_, ?_, ?_, fun scriptSig ↦
    ⟨greedy ((inputContext lib txTo nIn scriptSig).sigOk signFlags (m :: pc)) sigs.reverse
      pubkeys.reverse, ?_, ?_, ?_⟩⟩
  · rw [solverSign, hsolver]
    change (s.signN lib _ nHashType _ [0] >>= _) = _
    rw [hsignN]
    rfl
  · exact List.forall_mem_cons.mpr ⟨Nat.zero_le _, fun vchSig hvchSig ↦
      (hforms vchSig hvchSig).2.1.trans (by decide)⟩
  · rw [List.length_cons, ← hlengths]
    exact Nat.succ_le_succ (decodeOpN_le hm.2)
  · rw [List.reverse_cons]
    refine evalScript_multisig hm hn hlengths.symm hle hlength hsizes hpushes
      fun vchSig hvchSig ↦ ?_
    obtain ⟨-, hshort, hhead⟩ := hforms vchSig hvchSig
    have hne : vchSig ≠ [] := by
      rintro rfl
      cases hhead
    refine ⟨hshort.trans_lt (by decide), .code (UInt8.lt_of_lt_of_le (by decide) hm.1) hne ?_⟩
    refine hpushes.notPushed (fun vch hvch ↦ ?_)
      (.code (UInt8.lt_of_lt_of_le (by decide) hn.1) hne (NotPushed.nil.code (by decide) hne))
    obtain ⟨vchPubKey, hpub, hkey⟩ := hhave vch hvch
    exact ne_of_haveKey h hempty hpub hkey hhead
  · rw [hspendable, greedy_iff, sublistForall₂_reverse_iff]
    refine sublistForall₂_of_forall₂ htake ?_
    rintro pubkey vchSig ⟨vchPubKey, k, hpub, hsigns⟩ vch hfor
    exact hsigns.sigOk_of_signsFor hsound hpub htype hfor
  · rw [hspendable, greedy_iff, sublistForall₂_reverse_iff]
    intro hexclusive
    refine sublistForall₂_of_forall₂ htake.flip ?_
    rintro vchSig pubkey ⟨vchPubKey, k, hpub, hsigns⟩ vch hok
    exact hsigns.signsFor_of_sigOk hsound hpub htype hexclusive hok

/-- What is mine is solved, unless it pays to the hash of a script. -/
theorem solved_of_isMine {n : Nat} (hmine : s.isMine lib n script = some true)
    (hbare : (solver script).typeRet ≠ .scripthash) :
    ∃ vs, Solved lib s nHashType txTo nIn script (solver script).typeRet vs := by
  cases n with
  | zero => cases hmine
  | succ n =>
      rw [isMine] at hmine
      dsimp only at hmine
      cases hfRet : (solver script).fRet with
      | false =>
          rw [hfRet, Bool.not_false, if_pos rfl] at hmine
          cases hmine
      | true =>
          rw [hfRet, Bool.not_true, if_neg Bool.false_ne_true] at hmine
          have hstandard := solver_standard hfRet
          generalize hr : solver script = r at hstandard hmine hbare hfRet
          obtain ⟨fRet, type, sols⟩ := r
          dsimp only at hstandard hmine hbare hfRet ⊢
          subst hfRet
          cases hstandard with
          | @pubkey _ vch hsize hpushes =>
              obtain ⟨vchPubKey, hpub, hhave⟩ := Option.bind_eq_some_iff.mp hmine
              exact solved_pubkey hsound hmaster h hlocked hempty htype hr hsize hpushes hpub
                (Option.some.inj hhave)
          | pubkeyhash hsize hpushes =>
              exact solved_pubkeyhash hsound hmaster h hlocked htype hr hsize hpushes
                (Option.some.inj hmine)
          | scripthash hsize => exact absurd rfl hbare
          | @multisig _ _ _ pubkeys hm hn hle hlength hkeys hpushes =>
              obtain ⟨nResult, hhave, hall⟩ := Option.bind_eq_some_iff.mp hmine
              rw [List.tail_cons, List.dropLast_concat] at hhave hall
              exact solved_multisig hsound hmaster h hlocked hempty htype hr hm hn hle hlength hkeys
                hpushes ((haveKeys_spec hhave).2 (of_decide_eq_true (Option.some.inj hall)))
          | nullData => cases hmine

omit hsound hmaster h hlocked hempty htype

theorem typeRet_scanTemplates (script : CScript) (templates : List (TxnOutType × CScript)) :
    (scanTemplates script templates).typeRet = .nonstandard ∨
      (scanTemplates script templates).typeRet ∈ templates.map Prod.fst := by
  induction templates with
  | nil => exact .inl rfl
  | cons template templates ih =>
      rw [scanTemplates]
      split
      · exact ih.imp_right (List.mem_cons_of_mem _)
      · exact .inr List.mem_cons_self

theorem isPayToScriptHash_iff :
    isPayToScriptHash script = true ↔ (solver script).typeRet = .scripthash := by
  rw [solver]
  split
  case isTrue hp2sh => exact iff_of_true hp2sh rfl
  case isFalse hp2sh =>
    refine iff_of_false hp2sh fun htype ↦ ?_
    have hscan := typeRet_scanTemplates script mTemplates
    rw [htype] at hscan
    revert hscan
    decide

theorem isPayToScriptHash_scripthash {hash : Valtype} (hsize : hash.length = 20) :
    isPayToScriptHash (opHash160 :: 0x14 :: (hash ++ [opEqual])) = true := by
  have hlast : (hash ++ [opEqual])[20]? = some opEqual := by
    rw [← hsize, List.getElem?_concat_length]
  rw [isPayToScriptHash, List.length_cons, List.length_cons, List.length_append, hsize]
  simp only [List.getElem?_cons_succ, List.getElem?_cons_zero, hlast]
  rfl

/-- The verdict on a script is that on its input. -/
theorem Solved.testSolution_eq {type : TxnOutType} {vs : List Valtype}
    (hsolved : Solved lib s nHashType txTo nIn script type vs)
    (hbare : (solver script).typeRet ≠ .scripthash) :
    ∃ fOk, testSolution lib script txTo nIn (pushAll vs) = some fOk ∧
      Agrees lib (s.SpendableBare lib script) fOk := by
  obtain ⟨fOk, hverdict, hagrees⟩ := hsolved.verdict (pushAll vs)
  exact ⟨fOk, verifyScript_pushAll hsolved.size (hsolved.few.trans (by decide))
    (fun hp2sh ↦ hbare (isPayToScriptHash_iff.mp hp2sh)) hverdict, hagrees⟩

/-- The same for the script whose hash is paid to, if it is not too long. -/
theorem Solved.testSolution_subscript {type : TxnOutType} {vs : List Valtype} {hash : Valtype}
    {subscript : CScript} (hsolved : Solved lib s nHashType txTo nIn subscript type vs)
    (hsize : hash.length = 20) (hhash : (lib.crypto.hash160 subscript).toList = hash) :
    ∃ fOk, testSolution lib (opHash160 :: 0x14 :: (hash ++ [opEqual])) txTo nIn
        ((pushAll vs).push subscript) = some fOk ∧
      Agrees lib (subscript.length ≤ 520 ∧ s.SpendableBare lib subscript) fOk := by
  obtain ⟨fOk, hverdict, hagrees⟩ := hsolved.verdict ((pushAll vs).push subscript)
  by_cases hlong : subscript.length ≤ 520
  · exact ⟨fOk, verifyScript_subscript (by decide) hsolved.size hsolved.few hlong hsize hhash
      (isPayToScriptHash_scripthash hsize) hverdict, fun h ↦ hagrees.1 h.2,
      fun hexclusive h ↦ ⟨hlong, hagrees.2 hexclusive h⟩⟩
  · have hsubscript : subscript.length < 2 ^ 32 := hsolved.length.trans_lt (by decide)
    have hpushes : Pushes ((pushAll vs).push subscript) (vs ++ [subscript]) [] := by
      rw [← pushAll_concat]
      refine pushes_pushAll_nil fun v hv ↦ ?_
      obtain hv | hv := List.mem_append.mp hv
      · exact (hsolved.size v hv).trans_lt (by decide)
      · rwa [List.mem_singleton.mp hv]
    have hfew : (vs ++ [subscript]).length ≤ 18 := by
      rw [List.length_append]
      exact Nat.succ_le_succ hsolved.few
    have hnone : (evalScript (inputContext lib txTo nIn ((pushAll vs).push subscript)) signFlags []
        ((pushAll vs).push subscript)).ret = none :=
      evalScript_pushes_long hpushes
        ⟨subscript, List.mem_append_right _ List.mem_cons_self, Nat.lt_of_not_le hlong⟩ hfew
    refine ⟨false, ?_, fun h ↦ absurd h.1 hlong, fun _ h ↦ absurd h Bool.false_ne_true⟩
    change (verifyScript (inputContext lib txTo nIn ((pushAll vs).push subscript)) signFlags
      ((pushAll vs).push subscript) (opHash160 :: 0x14 :: (hash ++ [opEqual]))).ret = _
    rw [verifyScript, hnone]

variable {n : Nat} {scriptPubKey : CScript}

/-- A script of the store, whose hash is paid to. -/
theorem exists_subscript (hmine : s.isMine lib n scriptPubKey = some true)
    (hp2sh : (solver scriptPubKey).typeRet = .scripthash) :
    ∃ m hash subscript, scriptPubKey = opHash160 :: 0x14 :: (hash ++ [opEqual]) ∧
      hash.length = 20 ∧ solver scriptPubKey = ⟨true, .scripthash, [hash]⟩ ∧
      s.getCScript (uint160 hash) = some subscript ∧ s.isMine lib m subscript = some true := by
  cases n with
  | zero => cases hmine
  | succ m =>
      rw [isMine] at hmine
      dsimp only at hmine
      cases hfRet : (solver scriptPubKey).fRet with
      | false =>
          rw [hfRet, Bool.not_false, if_pos rfl] at hmine
          cases hmine
      | true =>
          rw [hfRet, Bool.not_true, if_neg Bool.false_ne_true] at hmine
          have hstandard := solver_standard hfRet
          generalize solver scriptPubKey = r at hstandard hmine hp2sh hfRet
          obtain ⟨fRet, type, sols⟩ := r
          dsimp only at hstandard hmine hp2sh hfRet
          subst hfRet hp2sh
          cases hstandard with
          | @scripthash hash hsize =>
              dsimp only at hmine
              rw [List.headD_cons] at hmine
              split at hmine
              case h_1 => cases hmine
              case h_2 subscript hscript =>
                exact ⟨m, hash, subscript, rfl, hsize, rfl, hscript, hmine⟩

include hsound hmaster h hlocked hempty htype

theorem signSignature_bare (hnIn : nIn < txTo.vin.length)
    (hmine : s.isMine lib n scriptPubKey = some true)
    (hbare : (solver scriptPubKey).typeRet ≠ .scripthash) :
    ∃ fOk scriptSig, s.signSignature lib nHashType scriptPubKey txTo nIn = some (fOk, scriptSig) ∧
      Agrees lib (s.Spendable lib scriptPubKey) fOk := by
  obtain ⟨vs, hsolved⟩ : ∃ vs, Solved lib s nHashType txTo nIn scriptPubKey
      (solver scriptPubKey).typeRet vs :=
    solved_of_isMine hsound hmaster h hlocked hempty htype hmine hbare
  obtain ⟨fOk, htest, hagrees⟩ := hsolved.testSolution_eq hbare
  refine ⟨fOk, pushAll vs, ?_, ?_⟩
  · rw [signSignature, if_neg (Nat.not_le.mpr hnIn)]
    change (s.solverSign lib _ nHashType scriptPubKey >>= _) = _
    rw [hsolved.solverSign]
    change (if (solver scriptPubKey).typeRet = .scripthash then _ else
      testSolution lib scriptPubKey txTo nIn (pushAll vs) >>= _) = _
    rw [if_neg hbare, htest]
    rfl
  · rw [Spendable, if_neg hbare]
    exact hagrees

theorem signSignature_scripthash (hnIn : nIn < txTo.vin.length)
    (hmine : s.isMine lib n scriptPubKey = some true)
    (hp2sh : (solver scriptPubKey).typeRet = .scripthash) :
    ∃ fOk scriptSig, s.signSignature lib nHashType scriptPubKey txTo nIn = some (fOk, scriptSig) ∧
      Agrees lib (s.Spendable lib scriptPubKey) fOk := by
  obtain ⟨m, hash, subscript, rfl, hsize, hsolver, hscript, hsubscript⟩ :=
    exists_subscript hmine hp2sh
  have hspendable : s.Spendable lib (opHash160 :: 0x14 :: (hash ++ [opEqual])) =
      (subscript.length ≤ 520 ∧ s.SpendableBare lib subscript) := by
    rw [Spendable, hsolver]
    dsimp only
    rw [if_pos rfl, List.headD_cons, hscript]
    simp
  have hsolve : s.solverSign lib (signatureHash lib.crypto.hash
      (opHash160 :: 0x14 :: (hash ++ [opEqual])) txTo nIn nHashType) nHashType
      (opHash160 :: 0x14 :: (hash ++ [opEqual])) = some (true, subscript, .scripthash) := by
    rw [solverSign, hsolver]
    dsimp only
    rw [Bool.not_true, if_neg Bool.false_ne_true, List.headD_cons, hscript]
  rw [signSignature, if_neg (Nat.not_le.mpr hnIn), hspendable]
  change ∃ fOk scriptSig, (s.solverSign lib _ nHashType _ >>= _) = _ ∧ _
  rw [hsolve]
  change ∃ fOk scriptSig, (s.solverSign lib (signatureHash lib.crypto.hash subscript
    (txTo.setScriptSig nIn subscript) nIn nHashType) nHashType subscript >>= _) = _ ∧ _
  rw [signatureHash_setScriptSig]
  by_cases hbare : (solver subscript).typeRet = .scripthash
  · obtain ⟨-, hash', subscript', -, -, hsolver', hscript', -⟩ := exists_subscript hsubscript hbare
    have hsolve' : s.solverSign lib (signatureHash lib.crypto.hash subscript txTo nIn nHashType)
        nHashType subscript = some (true, subscript', .scripthash) := by
      rw [solverSign, hsolver']
      dsimp only
      rw [Bool.not_true, if_neg Bool.false_ne_true, List.headD_cons, hscript']
    rw [hsolve']
    refine ⟨false, _, rfl, fun hspend ↦ ?_, fun _ h ↦ absurd h Bool.false_ne_true⟩
    have hfalse := hspend.2
    rw [SpendableBare, hsolver'] at hfalse
    exact hfalse.elim
  · obtain ⟨vs, hsolved⟩ : ∃ vs, Solved lib s nHashType txTo nIn subscript
        (solver subscript).typeRet vs :=
      solved_of_isMine hsound hmaster h hlocked hempty htype hsubscript hbare
    obtain ⟨fOk, htest, hagrees⟩ := hsolved.testSolution_subscript hsize
      (toList_hash160 hsize (h.scripts _ _ hscript))
    refine ⟨fOk, (pushAll vs).push subscript, ?_, hagrees⟩
    rw [hsolved.solverSign]
    change (if !(true && decide ((solver subscript).typeRet ≠ .scripthash)) then _ else
      testSolution lib _ txTo nIn ((pushAll vs).push subscript) >>= _) = _
    rw [decide_eq_true hbare, htest]
    rfl

end

end CCryptoKeyStore

/-- **What is mine can be spent.** -/
theorem signSignature_of_isMine_iff {Point : Type} {lib : SignLib Point} (hsound : lib.Sound)
    {vMasterKey : List UInt8} (hmaster : vMasterKey.length = 32)
    (ops : List (KeystoreOp lib.ec))
    (hempty : ∀ k ∈ ops.flatMap KeystoreOp.keys, lib.getID k.pubKey ≠ lib.getID [])
    {n : Nat} {scriptPubKey : CScript} {txTo : CTransaction} {nIn : Nat} {nHashType : BitVec 32}
    (hnIn : nIn < txTo.vin.length) (htype : nHashType ∈ hashTypes) :
    let s := ops.foldl (KeystoreOp.run lib.toKeyLib vMasterKey) {}
    s.isLocked = false → s.isMine lib n scriptPubKey = some true →
      (s.Spendable lib scriptPubKey →
        (s.signSignature lib nHashType scriptPubKey txTo nIn).map Prod.fst = some true) ∧
      (lib.Exclusive →
        (s.signSignature lib nHashType scriptPubKey txTo nIn).map Prod.fst = some true →
          s.Spendable lib scriptPubKey) := by
  intro s hlocked hmine
  have h := CCryptoKeyStore.reached_foldl hsound.lawful hmaster ops
  have hsigned : ∃ fOk scriptSig,
      s.signSignature lib nHashType scriptPubKey txTo nIn = some (fOk, scriptSig) ∧
        CCryptoKeyStore.Agrees lib (s.Spendable lib scriptPubKey) fOk := by
    by_cases hp2sh : (solver scriptPubKey).typeRet = .scripthash
    · exact CCryptoKeyStore.signSignature_scripthash hsound hmaster h hlocked hempty htype hnIn
        hmine hp2sh
    · exact CCryptoKeyStore.signSignature_bare hsound hmaster h hlocked hempty htype hnIn hmine
        hp2sh
  obtain ⟨fOk, scriptSig, heq, hagrees⟩ := hsigned
  rw [heq, Option.map_some, Option.some.injEq]
  exact hagrees

/-! ### A library to sign with -/

/-- A signature that is the point of its key. -/
def sampleSig (point : Uint256) : Valtype :=
  0x30 :: 38 :: 0x02 :: 33 :: (1 :: toBytes 32 point.toNat ++ [0x02, 1, 1])

def sampleSignLib : SignLib Uint256 where
  ec := sampleKeyLib.ec
  crypto := { sampleKeyLib.crypto with
    verify := fun _ vchSig vch ↦
      match sampleKeyLib.ec.o2i vch with
      | none => false
      | some (point, _) => vchSig == sampleSig point }
  encrypt := sampleKeyLib.encrypt
  decrypt := sampleKeyLib.decrypt
  sign key _ := key.pub.map sampleSig

theorem isDerSignature_sampleSig (point : Uint256) (nHashType : UInt8) :
    IsDerSignature (sampleSig point ++ [nHashType]) (1 :: toBytes 32 point.toNat) [1]
      nHashType where
  size := by
    simp [sampleSig]
  bytes := ⟨38, 33, 1, by simp [sampleSig], by simp, rfl, by simp [sampleSig]⟩
  integerR := ⟨List.cons_ne_nil _ _, fun first h ↦ Option.some.inj h ▸ rfl, fun _ h ↦ by cases h⟩
  integerS := ⟨List.cons_ne_nil _ _, fun first h ↦ Option.some.inj h ▸ rfl, fun _ h ↦ by cases h⟩

theorem sampleSignLib_sound : sampleSignLib.Sound where
  lawful := ⟨sampleKeyLib_lawful.ec, sampleKeyLib_lawful.decrypt_encrypt⟩
  head_compressed point := .inl rfl
  head_uncompressed point := rfl
  sign k hash := by
    refine ⟨sampleSig k.point, rfl, fun nHashType ↦ isValidSignatureEncoding_of_isDerSignature
      (isDerSignature_sampleSig k.point nHashType), ?_, ?_⟩
    · simp [sampleSig]
    · intro vch form hread
      change (match sampleKeyLib.ec.o2i vch with
        | none => false
        | some (point, _) => sampleSig k.point == sampleSig point) = true
      rw [show sampleKeyLib.ec.o2i vch = _ from hread]
      exact beq_self_eq_true _

theorem sampleSig_injective : Function.Injective sampleSig := by
  intro point point' h
  have hbody : 1 :: toBytes 32 point.toNat ++ [0x02, 1, 1] =
      1 :: toBytes 32 point'.toNat ++ [0x02, 1, 1] :=
    congrArg (List.drop 4) h
  have hbytes := List.append_cancel_right hbody
  have hnat := congrArg ofBytes (List.cons.inj hbytes).2
  rw [ofBytes_toBytes (show point.toNat < 256 ^ 32 from point.isLt),
    ofBytes_toBytes (show point'.toNat < 256 ^ 32 from point'.isLt)] at hnat
  exact BitVec.eq_of_toNat_eq hnat

theorem sampleSignLib_exclusive : sampleSignLib.Exclusive := by
  intro k hash vchSig vch hsign hverify
  obtain rfl : sampleSig k.point = vchSig := Option.some.inj hsign
  change (match sampleKeyLib.ec.o2i vch with
    | none => false
    | some (point, _) => sampleSig k.point == sampleSig point) = true at hverify
  split at hverify
  case h_1 => cases hverify
  case h_2 point form hread =>
    rw [sampleSig_injective (eq_of_beq hverify)]
    exact ⟨form, hread⟩

def sampleTxTo : CTransaction where
  nVersion := 1
  vin := [{ prevout := { hash := 0, n := 0 }, scriptSig := [], nSequence := 0 }]
  vout := []
  nLockTime := 0

def samplePubKeyHash : CScript :=
  opDup :: opHash160 :: 0x14 ::
    ((sampleSignLib.crypto.hash160 (sampleMadeKey true).pubKey).toList ++
      [opEqualverify, opChecksig])

theorem signSignature_of_isMine_iff_sample :
    ((([.addKey (sampleMadeKey true), .encryptKeys, .unlock] :
      List (KeystoreOp sampleSignLib.ec)).foldl
        (KeystoreOp.run sampleSignLib.toKeyLib sampleMasterKey) {}).signSignature sampleSignLib 1
          samplePubKeyHash sampleTxTo 0).map Prod.fst = some true := by
  refine (signSignature_of_isMine_iff sampleSignLib_sound length_sampleMasterKey
    [.addKey (sampleMadeKey true), .encryptKeys, .unlock] ?_ (n := 1) (by decide) (by decide)
    (by decide +kernel) (by decide +kernel)).1 ?_
  · intro k hk
    obtain rfl := List.mem_singleton.mp hk
    decide +kernel
  · have hsolver : solver samplePubKeyHash = ⟨true, .pubkeyhash,
        [(sampleSignLib.crypto.hash160 (sampleMadeKey true).pubKey).toList]⟩ := by
      decide +kernel
    rw [CCryptoKeyStore.Spendable, hsolver, if_neg (by decide), CCryptoKeyStore.SpendableBare,
      hsolver]
    trivial

/-- One of sixteen keys is asked for. -/
def sampleRedeemScript : CScript :=
  op1 :: (pushAll (List.replicate 16 (sampleMadeKey true).pubKey) ++ [op16, opCheckmultisig])

def sampleSpentScript : CScript :=
  opHash160 :: 0x14 :: ((sampleSignLib.crypto.hash160 sampleRedeemScript).toList ++ [opEqual])

def sampleScriptOps : List (KeystoreOp sampleSignLib.ec) :=
  [.addKey (sampleMadeKey true), .addCScript sampleRedeemScript]

/-- A script of 547 bytes is mine, and its hash is paid to. -/
theorem signSignature_fails_of_isMine :
    let s := sampleScriptOps.foldl (KeystoreOp.run sampleSignLib.toKeyLib sampleMasterKey) {}
    s.isLocked = false ∧ s.isMine sampleSignLib 2 sampleSpentScript = some true ∧
      (s.signSignature sampleSignLib 1 sampleSpentScript sampleTxTo 0).map Prod.fst =
        some false := by
  intro s
  have hlocked : s.isLocked = false := by decide +kernel
  have hmine : s.isMine sampleSignLib 2 sampleSpentScript = some true := by decide +kernel
  refine ⟨hlocked, hmine, ?_⟩
  have hsolver : solver sampleSpentScript = ⟨true, .scripthash,
      [(sampleSignLib.crypto.hash160 sampleRedeemScript).toList]⟩ := by decide +kernel
  have hscript : s.getCScript (uint160 (sampleSignLib.crypto.hash160 sampleRedeemScript).toList) =
      some sampleRedeemScript := by decide +kernel
  obtain ⟨fOk, scriptSig, hsign, hagrees⟩ : ∃ fOk scriptSig,
      s.signSignature sampleSignLib 1 sampleSpentScript sampleTxTo 0 = some (fOk, scriptSig) ∧
        CCryptoKeyStore.Agrees sampleSignLib (s.Spendable sampleSignLib sampleSpentScript) fOk :=
    CCryptoKeyStore.signSignature_scripthash sampleSignLib_sound length_sampleMasterKey
      (CCryptoKeyStore.reached_foldl sampleSignLib_sound.lawful length_sampleMasterKey
        sampleScriptOps) hlocked (fun k hk ↦ by
          obtain rfl := List.mem_singleton.mp hk
          decide +kernel) (by decide) (by decide) hmine (congrArg SolverRet.typeRet hsolver)
  rw [hsign]
  cases fOk with
  | false => rfl
  | true =>
      have hspendable := hagrees.2 sampleSignLib_exclusive rfl
      rw [CCryptoKeyStore.Spendable, hsolver, if_pos rfl] at hspendable
      obtain ⟨subscript, hsubscript, hsize, -⟩ := hspendable
      obtain rfl := Option.some.inj (hsubscript.symm.trans hscript)
      exact absurd hsize (by decide +kernel)

end Fedoracoin
