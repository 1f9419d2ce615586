import Fedoracoin.Signature

/-!
# Keys

`CKey` of `key.cpp`, as far as the key stores use it.  An `EC_KEY` is its private key, its public
key and the form in which the public key is written out; `fCompressedPubKey` is kept beside it.
-/

namespace Fedoracoin

open Wire

abbrev Uint160 := BitVec 160

/-- `point_conversion_form_t`. -/
inductive PointForm where
  | compressed
  | uncompressed
  | hybrid
deriving DecidableEq

def PointForm.ofCompressed (fCompressed : Bool) : PointForm :=
  if fCompressed then .compressed else .uncompressed

/-- The functions of OpenSSL that act on a key. -/
structure EcLib (Point : Type) where
  /-- `EC_KEY_regenerate_key`. -/
  regenerate : Nat → Option Point
  /-- `i2o_ECPublicKey`. -/
  i2o : Point → PointForm → List UInt8
  /-- `o2i_ECPublicKey`, which also finds the form. -/
  o2i : List UInt8 → Option (Point × PointForm)

/-- A compressed public key has 33 bytes, an uncompressed one does not, and both are read back. -/
structure EcLib.Lawful {Point : Type} (ec : EcLib Point) : Prop where
  length_compressed (point : Point) : (ec.i2o point .compressed).length = 33
  length_uncompressed (point : Point) : (ec.i2o point .uncompressed).length = 65
  o2i_i2o (point : Point) (fCompressed : Bool) :
    ec.o2i (ec.i2o point (.ofCompressed fCompressed)) = some (point, .ofCompressed fCompressed)

/-- A `CPubKey`, as the `size()` bytes of it that are used. -/
abbrev CPubKey := List UInt8

/-- `CPubKey::GetLen`. -/
def CPubKey.getLen (chHeader : UInt8) : Nat :=
  if chHeader = 2 ∨ chHeader = 3 then 33
  else if chHeader = 4 ∨ chHeader = 6 ∨ chHeader = 7 then 65
  else 0

/-- The constructor of `CPubKey` from a vector, of which the first byte says how much is copied. -/
def cPubKey (vchPubKeyIn : List UInt8) : Option CPubKey :=
  let len := vchPubKeyIn.head?.elim 0 CPubKey.getLen
  if vchPubKeyIn.length < len then none else some (vchPubKeyIn.take len)

namespace Crypto

/-- `CPubKey::GetID` and `CScript::GetID`. -/
def getID (crypto : Crypto) (vch : List UInt8) : Uint160 :=
  BitVec.ofNat 160 (ofBytes (crypto.hash160 vch).toList)

end Crypto

structure CKey (Point : Type) where
  priv : Option Nat := none
  pub : Option Point := none
  form : PointForm := .uncompressed
  fSet : Bool := false
  fCompressedPubKey : Bool := false

namespace CKey

variable {Point : Type} (ec : EcLib Point)

def setCompressedPubKey (key : CKey Point) : CKey Point :=
  { key with form := .compressed, fCompressedPubKey := true }

/-- The private key is a new `EC_KEY`; `fCompressedPubKey` is that of the object. -/
def setSecret (vchSecret : List UInt8) (fCompressed : Bool) (key : CKey Point) :
    Except Failure (CKey Point) :=
  if vchSecret.length ≠ 32 then .error (.exception "CKey::SetSecret() : secret must be 32 bytes")
  else
    let bn := ofBytes vchSecret.reverse
    match ec.regenerate bn with
    | none => .error (.exception "CKey::SetSecret() : EC_KEY_regenerate_key failed")
    | some point =>
        let key : CKey Point := { priv := some bn, pub := some point, fSet := true,
                                  fCompressedPubKey := key.fCompressedPubKey }
        .ok (if fCompressed || key.fCompressedPubKey then key.setCompressedPubKey else key)

/-- The 32 bytes and the flag. -/
def getSecret (key : CKey Point) : Except Failure (List UInt8 × Bool) :=
  match key.priv with
  | none => .error .assertion
  | some bn => .ok ((toBytes 32 bn).reverse, key.fCompressedPubKey)

/-- The result is the key alone where the source ignores the `bool`. -/
def setPubKey (vchPubKey : CPubKey) (key : CKey Point) : CKey Point :=
  match ec.o2i vchPubKey with
  | none => {}
  | some (point, form) =>
      let key : CKey Point := { key with pub := some point, form := form, fSet := true }
      if vchPubKey.length = 33 then key.setCompressedPubKey else key

def getPubKey (key : CKey Point) : Except Failure CPubKey :=
  match key.pub with
  | none => .error (.exception "CKey::GetPubKey() : i2o_ECPublicKey failed")
  | some point => .ok (ec.i2o point key.form)

end CKey

/-! ## Keys that were made from a secret -/

/-- A key as `SetSecret` leaves it in a new object. -/
structure MadeKey {Point : Type} (ec : EcLib Point) where
  secret : List UInt8
  fCompressed : Bool
  point : Point
  length_secret : secret.length = 32
  regenerate : ec.regenerate (ofBytes secret.reverse) = some point

namespace MadeKey

variable {Point : Type} {ec : EcLib Point} (k : MadeKey ec)

def toCKey : CKey Point where
  priv := some (ofBytes k.secret.reverse)
  pub := some k.point
  form := .ofCompressed k.fCompressed
  fSet := true
  fCompressedPubKey := k.fCompressed

def pubKey : CPubKey := ec.i2o k.point (.ofCompressed k.fCompressed)

/-- The key of the same secret in another form. -/
def withForm (fCompressed : Bool) : MadeKey ec := { k with fCompressed := fCompressed }

theorem getPubKey_toCKey : k.toCKey.getPubKey ec = .ok k.pubKey := rfl

/-- The leading zeros of a secret are kept. -/
theorem getSecret_toCKey : k.toCKey.getSecret = .ok (k.secret, k.fCompressed) := by
  have hbytes := toBytes_ofBytes k.secret.reverse
  rw [List.length_reverse, k.length_secret] at hbytes
  change Except.ok ((toBytes 32 (ofBytes k.secret.reverse)).reverse, k.fCompressed) = _
  rw [hbytes, List.reverse_reverse]

theorem setSecret_eq (fCompressed : Bool) (key : CKey Point) :
    CKey.setSecret ec k.secret fCompressed key =
      .ok (k.withForm (fCompressed || key.fCompressedPubKey)).toCKey := by
  rw [CKey.setSecret, if_neg (not_not.mpr k.length_secret)]
  dsimp only
  rw [k.regenerate]
  dsimp only
  cases key.fCompressedPubKey with
  | true =>
      rw [Bool.or_true, if_pos rfl]
      rfl
  | false =>
      cases fCompressed with
      | true => rfl
      | false => rfl

variable (hec : ec.Lawful)
include hec

theorem length_pubKey : k.pubKey.length = 33 ↔ k.fCompressed = true := by
  rw [pubKey]
  cases k.fCompressed with
  | true => exact iff_of_true (hec.length_compressed k.point) rfl
  | false =>
      refine iff_of_false ?_ Bool.false_ne_true
      rw [PointForm.ofCompressed, if_neg Bool.false_ne_true, hec.length_uncompressed k.point]
      decide

/-- `SetPubKey` sets the flag for a compressed key, and clears it for none. -/
theorem fCompressedPubKey_setPubKey (key : CKey Point) :
    (CKey.setPubKey ec k.pubKey key).fCompressedPubKey =
      (k.fCompressed || key.fCompressedPubKey) := by
  have hread : ec.o2i k.pubKey = some (k.point, .ofCompressed k.fCompressed) :=
    hec.o2i_i2o k.point k.fCompressed
  rw [CKey.setPubKey, hread]
  dsimp only
  cases hform : k.fCompressed with
  | true =>
      rw [if_pos ((k.length_pubKey hec).mpr hform)]
      rfl
  | false =>
      rw [if_neg (mt (k.length_pubKey hec).mp (by rw [hform]; exact Bool.false_ne_true))]
      rfl

/-- A public key and a secret into an object that is not new. -/
theorem setSecret_setPubKey (key : CKey Point) :
    CKey.setSecret ec k.secret false (CKey.setPubKey ec k.pubKey key) =
      .ok (k.withForm (k.fCompressed || key.fCompressedPubKey)).toCKey := by
  rw [setSecret_eq, Bool.false_or, k.fCompressedPubKey_setPubKey hec]

end MadeKey

end Fedoracoin
