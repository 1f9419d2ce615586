import Fedoracoin.Interpreter
import Fedoracoin.Key
import Fedoracoin.VarInt

/-!
# Compressed scripts

`CScriptCompressor`: the form in which the coin database stores scripts.  Scripts that pay to the
hash of a key, to the hash of a script or to a key are a tag below six and the hash or the key;
all others are their size, plus six, and their bytes.

The size is an `unsigned int`, so that a script must be shorter than `2 ^ 32 - 6` bytes to come
back: `scriptCompressor_roundTrip_iff`.
-/

namespace Fedoracoin

open Wire

variable {Point : Type}

/-- `SetCompressedPubKey(false)`, which sets the flag, too. -/
def CKey.setUncompressedPubKey (key : CKey Point) : CKey Point :=
  { key with form := .uncompressed, fCompressedPubKey := true }

/-- A key in the form that is not compressed. -/
def IsUncompressed (pubkey : List UInt8) : Prop := pubkey.length = 65 ∧ pubkey.head? = some 0x04

/-- A compressed key is the parity of the second coordinate and the first one.  The point that is
read from it is that of the uncompressed key, and is written out as that key. -/
structure EcLib.Decompresses (ec : EcLib Point) : Prop where
  o2i_compressed (pubkey : List UInt8) (point : Point) (form : PointForm) :
    IsUncompressed pubkey → ec.o2i pubkey = some (point, form) →
    ∃ form', ec.o2i ((0x02 ||| (pubkey.getD 64 0 &&& 0x01)) :: (pubkey.drop 1).take 32) =
      some (point, form')
  i2o_uncompressed (pubkey : List UInt8) (point : Point) (form : PointForm) :
    IsUncompressed pubkey → ec.o2i pubkey = some (point, form) →
    ec.i2o point .uncompressed = pubkey

namespace CScriptCompressor

def nSpecialScripts : Nat := 6

variable (ec : EcLib Point)

def isToKeyID (script : CScript) : Option (List UInt8) :=
  if script.length = 25 ∧ script[0]? = some opDup ∧ script[1]? = some opHash160 ∧
      script[2]? = some 20 ∧ script[23]? = some opEqualverify ∧ script[24]? = some opChecksig then
    some ((script.drop 3).take 20)
  else none

def isToScriptID (script : CScript) : Option (List UInt8) :=
  if script.length = 23 ∧ script[0]? = some opHash160 ∧ script[1]? = some 20 ∧
      script[22]? = some opEqual then
    some ((script.drop 2).take 20)
  else none

/-- The key, if `SetPubKey` accepts it where it is not compressed. -/
def isToPubKey (script : CScript) : Option (List UInt8) :=
  if script.length = 35 ∧ script[0]? = some 33 ∧ script[34]? = some opChecksig ∧
      (script[1]? = some 0x02 ∨ script[1]? = some 0x03) then
    some ((script.drop 1).take 33)
  else if script.length = 67 ∧ script[0]? = some 65 ∧ script[66]? = some opChecksig ∧
      script[1]? = some 0x04 then
    let pubkey := (script.drop 1).take 65
    match cPubKey pubkey with
    | none => none
    | some vchPubKey => if (CKey.setPubKey ec vchPubKey {}).fSet then some pubkey else none
  else none

def compress (script : CScript) : Option (List UInt8) :=
  match isToKeyID script with
  | some keyID => some (0x00 :: keyID)
  | none =>
      match isToScriptID script with
      | some scriptID => some (0x01 :: scriptID)
      | none =>
          match isToPubKey ec script with
          | none => none
          | some pubkey =>
              let out := (pubkey.drop 1).take 32
              let chHeader := pubkey.headD 0
              if chHeader = 0x02 ∨ chHeader = 0x03 then some (chHeader :: out)
              else if chHeader = 0x04 then some ((0x04 ||| (pubkey.getD 64 0 &&& 0x01)) :: out)
              else none

def getSpecialSize (nSize : Nat) : Nat :=
  if nSize = 0 ∨ nSize = 1 then 20
  else if nSize = 2 ∨ nSize = 3 ∨ nSize = 4 ∨ nSize = 5 then 32
  else 0

/-- The key that is not compressed, if `SetPubKey` accepts the compressed one. -/
def decompressPubKey (vch : List UInt8) : Except String (Option (List UInt8)) :=
  match cPubKey vch with
  | none => .ok none
  | some vchPubKey =>
      let key := CKey.setPubKey ec vchPubKey {}
      if !key.fSet then .ok none
      else
        match key.setUncompressedPubKey.getPubKey ec with
        | .error _ => .error "CKey::GetPubKey() : i2o_ECPublicKey failed"
        | .ok pubkey =>
            if pubkey.length ≠ 65 then .error "Assertion `pubkey.size() == 65' failed"
            else .ok (some pubkey)

/-- The new script, if there is one. -/
def decompress (nSize : Nat) (data : List UInt8) : Except String (Option CScript) :=
  if nSize = 0 then
    .ok (some ([opDup, opHash160, 20] ++ data.take 20 ++ [opEqualverify, opChecksig]))
  else if nSize = 1 then .ok (some ([opHash160, 20] ++ data.take 20 ++ [opEqual]))
  else if nSize = 2 ∨ nSize = 3 then
    .ok (some ([33, UInt8.ofNat nSize] ++ data.take 32 ++ [opChecksig]))
  else if nSize = 4 ∨ nSize = 5 then
    match decompressPubKey ec (UInt8.ofNat (nSize - 2) :: data.take 32) with
    | .error e => .error e
    | .ok none => .ok none
    | .ok (some pubkey) => .ok (some ([65] ++ pubkey ++ [opChecksig]))
  else .ok none

/-- The `unsigned int` that stands before a script that is not compressed. -/
def sizeCode (script : CScript) : Nat := (script.length + nSpecialScripts) % 2 ^ 32

def getSerializeSize (script : CScript) : Nat :=
  match compress ec script with
  | some compr => compr.length
  | none => (script.length + getSizeOfVarInt (sizeCode script)) % 2 ^ 32

def serialize (script : CScript) : List UInt8 :=
  match compress ec script with
  | some compr => compr
  | none => writeVarInt (sizeCode script) ++ script

/-- `script` is what the object held before, and holds still if `Decompress` fails. -/
def unserialize (script : CScript) : StreamReader CScript := do
  let nSize ← readVarInt 32
  if nSize < nSpecialScripts then
    let vch ← readData (getSpecialSize nSize)
    match decompress ec nSize vch with
    | .error e => throw e
    | .ok fDecompressed => return fDecompressed.getD script
  else readData (nSize - nSpecialScripts)

/-! ## The scripts that are recognised -/

/-- Bytes between a beginning and an end that are known byte by byte. -/
theorem eq_append_of_getElem? {pre post script : List UInt8} {k : Nat}
    (hlength : script.length = pre.length + k + post.length)
    (hpre : ∀ i < pre.length, script[i]? = pre[i]?)
    (hpost : ∀ i < post.length, script[pre.length + k + i]? = post[i]?) :
    script = pre ++ (script.drop pre.length).take k ++ post := by
  have hbegin : script.take pre.length = pre := by
    apply List.ext_getElem?
    intro i
    rw [List.getElem?_take]
    split
    case isTrue h => exact hpre i h
    case isFalse h => rw [List.getElem?_eq_none (Nat.not_lt.mp h)]
  have hend : script.drop (pre.length + k) = post := by
    apply List.ext_getElem?
    intro i
    rw [List.getElem?_drop]
    rcases Nat.lt_or_ge i post.length with h | h
    · exact hpost i h
    · rw [List.getElem?_eq_none h, List.getElem?_eq_none (by omega)]
  calc script = script.take pre.length ++ script.drop pre.length := (List.take_append_drop _ _).symm
    _ = pre ++ ((script.drop pre.length).take k ++ (script.drop pre.length).drop k) := by
        rw [hbegin, List.take_append_drop]
    _ = pre ++ (script.drop pre.length).take k ++ post := by
        rw [List.drop_drop, hend, List.append_assoc]

variable {ec} {script before pubkey compr data s t : List UInt8} {n : Nat}

theorem length_take_drop {k m : Nat} (h : m + k ≤ script.length) :
    ((script.drop m).take k).length = k := by
  rw [List.length_take, List.length_drop]
  omega

theorem isToKeyID_eq_some {keyID : List UInt8} (h : isToKeyID script = some keyID) :
    script = [opDup, opHash160, 20] ++ keyID ++ [opEqualverify, opChecksig] ∧
      keyID.length = 20 := by
  rw [isToKeyID] at h
  split at h
  case isTrue hscript =>
    obtain ⟨hlength, h0, h1, h2, h23, h24⟩ := hscript
    obtain rfl := Option.some.inj h
    refine ⟨eq_append_of_getElem? hlength ?_ ?_, length_take_drop (by omega)⟩
    · rintro (_ | _ | _ | i) hi
      exacts [h0, h1, h2, absurd hi (Nat.not_lt.mpr (Nat.le_add_left 3 i))]
    · rintro (_ | _ | i) hi
      exacts [h23, h24, absurd hi (Nat.not_lt.mpr (Nat.le_add_left 2 i))]
  case isFalse => cases h

theorem isToScriptID_eq_some {scriptID : List UInt8} (h : isToScriptID script = some scriptID) :
    script = [opHash160, 20] ++ scriptID ++ [opEqual] ∧ scriptID.length = 20 := by
  rw [isToScriptID] at h
  split at h
  case isTrue hscript =>
    obtain ⟨hlength, h0, h1, h22⟩ := hscript
    obtain rfl := Option.some.inj h
    refine ⟨eq_append_of_getElem? hlength ?_ ?_, length_take_drop (by omega)⟩
    · rintro (_ | _ | i) hi
      exacts [h0, h1, absurd hi (Nat.not_lt.mpr (Nat.le_add_left 2 i))]
    · rintro (_ | i) hi
      exacts [h22, absurd hi (Nat.not_lt.mpr (Nat.le_add_left 1 i))]
  case isFalse => cases h

/-- A size, a key of that size, and `OP_CHECKSIG`. -/
theorem eq_push_checksig {size chHeader : UInt8} {k : Nat} (hlength : script.length = k + 3)
    (h0 : script[0]? = some size) (h1 : script[1]? = some chHeader)
    (hlast : script[k + 2]? = some opChecksig) :
    ∃ rest, (script.drop 1).take (k + 1) = chHeader :: rest ∧ rest.length = k ∧
      script = [size] ++ (chHeader :: rest) ++ [opChecksig] := by
  have hframe : script = [size] ++ (script.drop 1).take (k + 1) ++ [opChecksig] := by
    apply eq_append_of_getElem?
    · rw [hlength, List.length_singleton, List.length_singleton]
      omega
    · rintro (_ | i) hi
      exacts [h0, absurd hi (Nat.not_lt.mpr (Nat.le_add_left 1 i))]
    · rintro (_ | i) hi
      · rw [List.length_singleton, show 1 + (k + 1) + 0 = k + 2 by omega, hlast]
        rfl
      · exact absurd hi (Nat.not_lt.mpr (Nat.le_add_left 1 i))
  have hhead : (script.drop 1)[0]? = some chHeader := by rwa [List.getElem?_drop]
  obtain ⟨rest, hrest⟩ : ∃ rest, script.drop 1 = chHeader :: rest := by
    cases hdrop : script.drop 1 with
    | nil =>
      rw [hdrop] at hhead
      cases hhead
    | cons c rest =>
      rw [hdrop] at hhead
      obtain rfl := Option.some.inj hhead
      exact ⟨rest, rfl⟩
  have hlen : (chHeader :: rest).length = k + 2 := by
    rw [← hrest, List.length_drop, hlength]
    omega
  rw [hrest, List.take_succ_cons] at hframe
  rw [List.length_cons] at hlen
  refine ⟨rest.take k, by rw [hrest, List.take_succ_cons], ?_, hframe⟩
  rw [List.length_take]
  omega

/-- A compressed key, or an uncompressed one that is valid. -/
theorem isToPubKey_eq_some (h : isToPubKey ec script = some pubkey) :
    (∃ chHeader rest, (chHeader = 0x02 ∨ chHeader = 0x03) ∧ rest.length = 32 ∧
      pubkey = chHeader :: rest ∧ script = [33] ++ pubkey ++ [opChecksig]) ∨
    ∃ rest point form, rest.length = 64 ∧ pubkey = 0x04 :: rest ∧
      ec.o2i pubkey = some (point, form) ∧ script = [65] ++ pubkey ++ [opChecksig] := by
  rw [isToPubKey] at h
  split at h
  case isTrue hscript =>
    obtain ⟨hlength, h0, hlast, hheader⟩ := hscript
    obtain rfl := Option.some.inj h
    rcases hheader with h1 | h1
    · obtain ⟨rest, htake, hrest, heq⟩ := eq_push_checksig hlength h0 h1 hlast
      exact .inl ⟨0x02, rest, .inl rfl, hrest, htake, htake ▸ heq⟩
    · obtain ⟨rest, htake, hrest, heq⟩ := eq_push_checksig hlength h0 h1 hlast
      exact .inl ⟨0x03, rest, .inr rfl, hrest, htake, htake ▸ heq⟩
  case isFalse =>
    split at h
    case isTrue hscript =>
      obtain ⟨hlength, h0, hlast, h1⟩ := hscript
      obtain ⟨rest, htake, hrest, heq⟩ := eq_push_checksig hlength h0 h1 hlast
      have hpub : cPubKey ((script.drop 1).take 65) = some (0x04 :: rest) := by
        rw [htake, cPubKey]
        change (if (0x04 :: rest).length < 65 then none else some ((0x04 :: rest).take 65)) = _
        rw [if_neg (by rw [List.length_cons, hrest]; omega), List.take_of_length_le]
        rw [List.length_cons, hrest]
      dsimp only at h
      rw [hpub, htake] at h
      dsimp only at h
      split at h
      case isTrue hset =>
        obtain rfl := Option.some.inj h
        rw [CKey.setPubKey] at hset
        split at hset
        case h_1 => cases hset
        case h_2 point form ho2i => exact .inr ⟨rest, point, form, hrest, rfl, ho2i, heq⟩
      case isFalse => cases h
    case isFalse => cases h

/-! ## The special scripts -/

/-- A tag and the bytes from which the script is put together again. -/
def IsSpecial (ec : EcLib Point) (script compr : List UInt8) : Prop :=
  ∃ tag data, compr = tag :: data ∧ tag.toNat < nSpecialScripts ∧
    data.length = getSpecialSize tag.toNat ∧ decompress ec tag.toNat data = .ok (some script)

theorem and_one_eq (b : UInt8) : b &&& 0x01 = 0 ∨ b &&& 0x01 = 1 := by
  have h : (b &&& 0x01).toNat = b.toNat % 2 := by
    rw [UInt8.toNat_and]
    exact Nat.and_two_pow_sub_one_eq_mod b.toNat 1
  rw [← UInt8.toNat_inj, ← UInt8.toNat_inj, h]
  exact Nat.mod_two_eq_zero_or_one b.toNat

theorem cPubKey_compressed {chHeader : UInt8} {rest : List UInt8}
    (hheader : chHeader = 0x02 ∨ chHeader = 0x03) (hrest : rest.length = 32) :
    cPubKey (chHeader :: rest) = some (chHeader :: rest) := by
  have hlength : (chHeader :: rest).length = 33 := by rw [List.length_cons, hrest]
  have hlen : CPubKey.getLen chHeader = 33 := if_pos hheader
  rw [cPubKey, List.head?_cons, Option.elim_some, hlen]
  rw [if_neg (by omega), List.take_of_length_le hlength.le]

/-- A key that is compressed comes back. -/
theorem decompressPubKey_eq (hec : ec.Decompresses) {rest : List UInt8} {point : Point}
    {form : PointForm} (hrest : rest.length = 64)
    (hpub : ec.o2i (0x04 :: rest) = some (point, form)) :
    decompressPubKey ec ((0x02 ||| ((0x04 :: rest).getD 64 0 &&& 0x01)) :: rest.take 32) =
      .ok (some (0x04 :: rest)) := by
  have huncompressed : IsUncompressed (0x04 :: rest) :=
    ⟨by rw [List.length_cons, hrest], rfl⟩
  obtain ⟨form', hcompressed⟩ := hec.o2i_compressed _ _ _ huncompressed hpub
  have hout := hec.i2o_uncompressed _ _ _ huncompressed hpub
  rw [List.drop_one, List.tail_cons] at hcompressed
  generalize (0x04 :: rest).getD 64 0 = b at *
  have hheader : 0x02 ||| (b &&& 0x01) = 0x02 ∨ 0x02 ||| (b &&& 0x01) = 0x03 := by
    rcases and_one_eq b with h | h
    · exact .inl (by rw [h]; rfl)
    · exact .inr (by rw [h]; rfl)
  have htake : (rest.take 32).length = 32 := by
    rw [List.length_take, hrest]
    rfl
  have hset : CKey.setPubKey ec ((0x02 ||| (b &&& 0x01)) :: rest.take 32) {} =
      { pub := some point, form := .compressed, fSet := true, fCompressedPubKey := true } := by
    rw [CKey.setPubKey, hcompressed]
    exact if_pos (by rw [List.length_cons, htake])
  rw [decompressPubKey, cPubKey_compressed hheader htake]
  dsimp only
  rw [hset]
  change (if (ec.i2o point .uncompressed).length ≠ 65 then _
    else Except.ok (some (ec.i2o point .uncompressed))) = _
  rw [hout, if_neg (not_not.mpr huncompressed.1)]

theorem isSpecial_pubKey (hec : ec.Decompresses) (h : isToPubKey ec script = some pubkey)
    (hcompr : (if pubkey.headD 0 = 0x02 ∨ pubkey.headD 0 = 0x03 then
        some (pubkey.headD 0 :: (pubkey.drop 1).take 32)
      else if pubkey.headD 0 = 0x04 then
        some ((0x04 ||| (pubkey.getD 64 0 &&& 0x01)) :: (pubkey.drop 1).take 32)
      else none) = some compr) : IsSpecial ec script compr := by
  rcases isToPubKey_eq_some h with
    ⟨chHeader, rest, hheader, hrest, rfl, rfl⟩ | ⟨rest, point, form, hrest, rfl, ho2i, rfl⟩
  · rw [List.headD_cons, List.drop_one, List.tail_cons] at hcompr
    rw [if_pos hheader, List.take_of_length_le hrest.le] at hcompr
    obtain rfl := Option.some.inj hcompr
    refine ⟨chHeader, rest, rfl, ?_, ?_, ?_⟩
    · rcases hheader with rfl | rfl <;> decide
    · rw [hrest]
      rcases hheader with rfl | rfl <;> rfl
    · have htag : chHeader.toNat = 2 ∨ chHeader.toNat = 3 :=
        hheader.imp (congrArg UInt8.toNat) (congrArg UInt8.toNat)
      rw [decompress, if_neg (by omega), if_neg (by omega), if_pos htag, UInt8.ofNat_toNat,
        List.take_of_length_le hrest.le]
      rfl
  · rw [List.headD_cons, if_neg (by decide), if_pos rfl, List.drop_one, List.tail_cons] at hcompr
    obtain rfl := Option.some.inj hcompr
    have hback := decompressPubKey_eq hec hrest ho2i
    generalize (0x04 :: rest).getD 64 0 = b at *
    have htake : (rest.take 32).length = 32 := by
      rw [List.length_take, hrest]
      rfl
    have htag : ((0x04 ||| (b &&& 0x01)).toNat = 4 ∨ (0x04 ||| (b &&& 0x01)).toNat = 5) ∧
        UInt8.ofNat ((0x04 ||| (b &&& 0x01)).toNat - 2) = 0x02 ||| (b &&& 0x01) := by
      rcases and_one_eq b with h | h
      · rw [h]
        exact ⟨.inl rfl, rfl⟩
      · rw [h]
        exact ⟨.inr rfl, rfl⟩
    refine ⟨_, _, rfl, ?_, ?_, ?_⟩
    · rw [nSpecialScripts]
      omega
    · rw [htake, getSpecialSize, if_neg (by omega), if_pos (by omega)]
    · rw [decompress, if_neg (by omega), if_neg (by omega), if_neg (by omega), if_pos htag.1,
        htag.2, List.take_take, Nat.min_self, hback]

/-- What is compressed is decompressed to the script, from a tag that no other code begins with. -/
theorem compress_eq_some (hec : ec.Decompresses) (h : compress ec script = some compr) :
    IsSpecial ec script compr := by
  rw [compress] at h
  split at h
  case h_1 keyID hkeyID =>
    obtain rfl := Option.some.inj h
    obtain ⟨hscript, hlength⟩ := isToKeyID_eq_some hkeyID
    refine ⟨0x00, keyID, rfl, by decide, hlength, ?_⟩
    rw [hscript]
    change Except.ok (some ([opDup, opHash160, 20] ++ keyID.take 20 ++ _)) = _
    rw [List.take_of_length_le hlength.le]
  case h_2 =>
    split at h
    case h_1 scriptID hscriptID =>
      obtain rfl := Option.some.inj h
      obtain ⟨hscript, hlength⟩ := isToScriptID_eq_some hscriptID
      refine ⟨0x01, scriptID, rfl, by decide, hlength, ?_⟩
      rw [hscript]
      change Except.ok (some ([opHash160, 20] ++ scriptID.take 20 ++ _)) = _
      rw [List.take_of_length_le hlength.le]
    case h_2 =>
      split at h
      case h_1 => cases h
      case h_2 pubkey hpubkey => exact isSpecial_pubKey hec hpubkey h

/-! ## The round trip -/

/-- Every code is a number, and bytes that depend on it. -/
theorem serialize_eq (hec : ec.Decompresses) (script : CScript) :
    ∃ nSize data, nSize < 2 ^ 32 ∧ serialize ec script = writeVarInt nSize ++ data ∧
      if (compress ec script).isSome then
        nSize < nSpecialScripts ∧ data.length = getSpecialSize nSize ∧
          decompress ec nSize data = .ok (some script)
      else nSize = sizeCode script ∧ data = script := by
  rw [serialize]
  cases h : compress ec script with
  | none => exact ⟨_, _, Nat.mod_lt _ (by norm_num), rfl, rfl, rfl⟩
  | some compr =>
    obtain ⟨tag, data, rfl, htag, hlength, hback⟩ := compress_eq_some hec h
    rw [nSpecialScripts] at htag
    refine ⟨tag.toNat, data, by omega, ?_, htag, hlength, hback⟩
    change tag :: data = _
    rw [writeVarInt_of_lt (by omega), UInt8.ofNat_toNat]
    rfl

theorem sizeCode_of_lt (h : script.length + nSpecialScripts < 2 ^ 32) :
    sizeCode script = script.length + nSpecialScripts := Nat.mod_eq_of_lt h

theorem reads_unserialize (hec : ec.Decompresses)
    (hlength : script.length + nSpecialScripts < 2 ^ 32) (before : CScript) :
    Reads (unserialize ec before) (serialize ec script) script := by
  obtain ⟨nSize, data, hlt, hserialize, hdata⟩ := serialize_eq hec script
  rw [hserialize, unserialize]
  apply (reads_writeVarInt hlt).bind
  split at hdata
  case isTrue =>
    obtain ⟨hspecial, hsize, hback⟩ := hdata
    rw [if_pos hspecial]
    rw [← List.append_nil data]
    apply (reads_take hsize).bind
    rw [hback]
    exact reads_pure script
  case isFalse =>
    obtain ⟨rfl, rfl⟩ := hdata
    rw [sizeCode_of_lt hlength, if_neg (Nat.not_lt.mpr (Nat.le_add_left _ _)),
      Nat.add_sub_cancel]
    exact reads_take rfl

theorem length_serialize (hlength : script.length + nSpecialScripts < 2 ^ 32) :
    (serialize ec script).length = getSerializeSize ec script := by
  rw [serialize, getSerializeSize]
  cases compress ec script with
  | some compr => rfl
  | none =>
    have hcode : sizeCode script < 2 ^ 32 := Nat.mod_lt _ (by norm_num)
    have hsize : getSizeOfVarInt (sizeCode script) ≤ 5 :=
      getSizeOfVarInt_le (k := 4) (hcode.trans (by norm_num))
    rw [nSpecialScripts] at hlength
    dsimp only
    rw [List.length_append, length_writeVarInt, Nat.add_comm, Nat.mod_eq_of_lt (by omega)]

/-- The number that a code begins with says whether the script is a special one. -/
theorem exists_tag (hec : ec.Decompresses)
    (hlength : script.length + nSpecialScripts < 2 ^ 32) :
    ∃ nSize data, serialize ec script = writeVarInt nSize ++ data ∧
      Reads (readVarInt 32) (writeVarInt nSize) nSize ∧
      (nSize < nSpecialScripts ↔ (compress ec script).isSome) := by
  obtain ⟨nSize, data, hlt, hserialize, hdata⟩ := serialize_eq hec script
  refine ⟨nSize, data, hserialize, reads_writeVarInt hlt, ?_⟩
  split at hdata
  case isTrue hsome => exact iff_of_true hdata.1 hsome
  case isFalse hnone =>
    rw [hdata.1, sizeCode_of_lt hlength]
    exact iff_of_false (Nat.not_lt.mpr (Nat.le_add_left _ _)) hnone

/-- A script that is shorter than `2 ^ 32 - 6` bytes comes back, whatever the object held before;
the size is that of what is written; tags stand before special scripts only; and no code begins
another one. -/
theorem scriptCompressor_roundTrip (hec : ec.Decompresses)
    (hlength : script.length + nSpecialScripts < 2 ^ 32) :
    (∀ before, Reads (unserialize ec before) (serialize ec script) script) ∧
    (serialize ec script).length = getSerializeSize ec script ∧
    (∃ nSize data, serialize ec script = writeVarInt nSize ++ data ∧
      Reads (readVarInt 32) (writeVarInt nSize) nSize ∧
      (nSize < nSpecialScripts ↔ (compress ec script).isSome)) ∧
    ∀ script', script'.length + nSpecialScripts < 2 ^ 32 →
      serialize ec script <+: serialize ec script' → script' = script := by
  refine ⟨reads_unserialize hec hlength, length_serialize hlength, exists_tag hec hlength,
    fun script' hlength' hprefix ↦ ?_⟩
  obtain ⟨rest, hrest⟩ := hprefix
  have hread := reads_unserialize hec hlength [] rest
  have hread' := reads_unserialize hec hlength' [] []
  rw [List.append_nil, ← hrest, hread] at hread'
  exact (Prod.mk.inj (Except.ok.inj hread')).1.symm

/-! ## Scripts that are too long -/

theorem length_decompressPubKey (h : decompressPubKey ec data = .ok (some pubkey)) :
    pubkey.length = 65 := by
  rw [decompressPubKey] at h
  split at h
  case h_1 => cases h
  case h_2 =>
    dsimp only at h
    split at h
    case isTrue => cases h
    case isFalse =>
      split at h
      case h_1 => cases h
      case h_2 =>
        split at h
        case isTrue => cases h
        case isFalse hlength =>
          obtain rfl := Option.some.inj (Except.ok.inj h)
          exact not_not.mp hlength

theorem length_append_take_le (pre data post : List UInt8) (k : Nat) :
    (pre ++ data.take k ++ post).length ≤ pre.length + k + post.length := by
  rw [List.length_append, List.length_append]
  have hle : (data.take k).length ≤ k := List.length_take_le k data
  omega

theorem length_decompress_le (h : decompress ec n data = .ok (some script)) :
    script.length ≤ 67 := by
  rw [decompress] at h
  split_ifs at h
  · obtain rfl := Option.some.inj (Except.ok.inj h)
    exact (length_append_take_le _ _ _ _).trans (by simp)
  · obtain rfl := Option.some.inj (Except.ok.inj h)
    exact (length_append_take_le _ _ _ _).trans (by simp)
  · obtain rfl := Option.some.inj (Except.ok.inj h)
    exact (length_append_take_le _ _ _ _).trans (by simp)
  · split at h
    case h_1 => cases h
    case h_2 => cases h
    case h_3 pubkey hpubkey =>
      obtain rfl := Option.some.inj (Except.ok.inj h)
      rw [List.length_append, List.length_append, length_decompressPubKey hpubkey]
      simp only [List.length_cons, List.length_nil]
      omega
  · cases h

/-- What is read is short, unless it is what was there before. -/
theorem length_of_unserialize (h : unserialize ec before s = .ok (script, t)) :
    script = before ∨ script.length + nSpecialScripts < 2 ^ 32 := by
  obtain ⟨nSize, r, hsize, h⟩ := bind_ok h
  obtain ⟨a, -, -, hmod⟩ := readVarInt_ok hsize
  have hlt : nSize < 2 ^ 32 := hmod ▸ Nat.mod_lt _ (by norm_num)
  split at h
  case isTrue =>
    obtain ⟨vch, r', -, h⟩ := bind_ok h
    cases hdecompress : decompress ec nSize vch with
    | error e =>
      rw [hdecompress] at h
      cases h
    | ok fDecompressed =>
      rw [hdecompress] at h
      obtain ⟨rfl, -⟩ := pure_ok h
      cases fDecompressed with
      | none => exact .inl rfl
      | some script =>
        have hle := length_decompress_le hdecompress
        rw [Option.getD_some, nSpecialScripts]
        exact .inr (by omega)
  case isFalse hspecial =>
    obtain ⟨-, hlength⟩ := take_ok h
    rw [hlength]
    exact .inr (by omega)

/-- Longer scripts do not come back. -/
theorem not_reads_unserialize (hbefore : before.length + nSpecialScripts < 2 ^ 32)
    (hlength : ¬ script.length + nSpecialScripts < 2 ^ 32) :
    ¬ Reads (unserialize ec before) (serialize ec script) script := by
  intro h
  rcases length_of_unserialize (h []) with rfl | hlt
  · exact hlength hbefore
  · exact hlength hlt

end CScriptCompressor

/-! The generator of the curve. -/

def generatorX : List UInt8 :=
  [0x79, 0xbe, 0x66, 0x7e, 0xf9, 0xdc, 0xbb, 0xac, 0x55, 0xa0, 0x62, 0x95, 0xce, 0x87, 0x0b, 0x07,
   0x02, 0x9b, 0xfc, 0xdb, 0x2d, 0xce, 0x28, 0xd9, 0x59, 0xf2, 0x81, 0x5b, 0x16, 0xf8, 0x17, 0x98]

def generatorY : List UInt8 :=
  [0x48, 0x3a, 0xda, 0x77, 0x26, 0xa3, 0xc4, 0x65, 0x5d, 0xa4, 0xfb, 0xfc, 0x0e, 0x11, 0x08, 0xa8,
   0xfd, 0x17, 0xb4, 0x48, 0xa6, 0x85, 0x54, 0x19, 0x9c, 0x47, 0xd0, 0x8f, 0xfb, 0x10, 0xd4, 0xb8]

/-- Knows no other point. -/
def generatorLib : EcLib Unit where
  regenerate n := if n = 1 then some () else none
  i2o _ form :=
    match form with
    | .compressed => 0x02 :: generatorX
    | .uncompressed => 0x04 :: generatorX ++ generatorY
    | .hybrid => 0x06 :: generatorX ++ generatorY
  o2i s :=
    if s = 0x02 :: generatorX then some ((), .compressed)
    else if s = 0x04 :: generatorX ++ generatorY then some ((), .uncompressed)
    else if s = 0x06 :: generatorX ++ generatorY then some ((), .hybrid)
    else none

theorem generatorLib_eq_of_uncompressed {pubkey : List UInt8} {form : PointForm}
    (h : IsUncompressed pubkey) (ho2i : generatorLib.o2i pubkey = some ((), form)) :
    pubkey = 0x04 :: generatorX ++ generatorY := by
  simp only [generatorLib] at ho2i
  split_ifs at ho2i with h02 h04 h06
  · rw [h02] at h
    exact absurd h.2 (by decide)
  · exact h04
  · rw [h06] at h
    exact absurd h.2 (by decide)

theorem generatorLib_decompresses : generatorLib.Decompresses where
  o2i_compressed pubkey point form h ho2i := by
    cases point
    rw [generatorLib_eq_of_uncompressed h ho2i]
    exact ⟨.compressed, by decide⟩
  i2o_uncompressed pubkey _ form h ho2i := (generatorLib_eq_of_uncompressed h ho2i).symm

def generatorScript : CScript := 65 :: 0x04 :: generatorX ++ generatorY ++ [opChecksig]

theorem scriptCompressor_roundTrip_generator :
    CScriptCompressor.serialize generatorLib generatorScript = 0x04 :: generatorX ∧
      Reads (CScriptCompressor.unserialize generatorLib [])
        (CScriptCompressor.serialize generatorLib generatorScript) generatorScript :=
  ⟨by decide, (CScriptCompressor.scriptCompressor_roundTrip generatorLib_decompresses
    (by decide)).1 []⟩

/-- The size of a script that is too long, plus six, is no `unsigned int`. -/
def tooLongScript : CScript := List.replicate (2 ^ 32 - 6) 0

theorem scriptCompressor_tooLong : generatorLib.Decompresses ∧
    ¬ Reads (CScriptCompressor.unserialize generatorLib [])
      (CScriptCompressor.serialize generatorLib tooLongScript) tooLongScript := by
  have hlength : tooLongScript.length = 2 ^ 32 - 6 := List.length_replicate
  refine ⟨generatorLib_decompresses, CScriptCompressor.not_reads_unserialize (by decide) ?_⟩
  rw [hlength]
  decide

end Fedoracoin
