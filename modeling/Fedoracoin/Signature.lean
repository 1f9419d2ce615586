import Fedoracoin.ScriptNum
import Fedoracoin.SignatureHash

/-!
# Signatures of inputs

The checks of the encodings of signatures and keys, and `CheckSig` without its cache.  The hashes
and the verification of a signature are those of OpenSSL, and parameters.  A byte that is read
behind the end of a string is `none`.
-/

namespace Fedoracoin

open Wire

/-! ## Encodings -/

def isCanonicalPubKey (vchPubKey : Valtype) (flags : Nat) : Option Bool := do
  if flags &&& scriptVerifyStrictenc = 0 then return true
  if vchPubKey.length < 33 then return false
  let type ← vchPubKey[0]?
  if type = 0x04 then return decide (vchPubKey.length = 65)
  else if type = 0x02 ∨ type = 0x03 then return decide (vchPubKey.length = 33)
  else return false

/-- The last part of `CompareBigEndian`, where both have the same length. -/
def compareBytes : (c1 c2 : List UInt8) → Int
  | b1 :: c1, b2 :: c2 => if b2 < b1 then 1 else if b1 < b2 then -1 else compareBytes c1 c2
  | _, _ => 0

def compareBigEndian (c1 c2 : List UInt8) : Int :=
  let extra1 := c1.take (c1.length - c2.length)
  let extra2 := c2.take (c2.length - c1.length)
  if extra1.any (· ≠ 0) then 1
  else if extra2.any (· ≠ 0) then -1
  else compareBytes (c1.drop (c1.length - c2.length)) (c2.drop (c2.length - c1.length))

/-- The order of secp256k1, less one, divided by two. -/
def vchMaxModHalfOrder : List UInt8 :=
  [0x7f, 0xff, 0xff, 0xff, 0xff, 0xff, 0xff, 0xff, 0xff, 0xff, 0xff, 0xff, 0xff, 0xff, 0xff, 0xff,
    0x5d, 0x57, 0x6e, 0x73, 0x57, 0xa4, 0x50, 0x1d, 0xdf, 0xe9, 0x2f, 0x46, 0x68, 0x1b, 0x20, 0xa0]

/-- `CKey::CheckSignatureElement`, with `half`. -/
def checkSignatureElement (vch : List UInt8) : Bool :=
  decide (0 < compareBigEndian vch []) &&
    decide (compareBigEndian vch vchMaxModHalfOrder ≤ 0)

/-- The part of `IsCanonicalSignature` about one of the two numbers, which starts at `start`: the
type and the length stand before it. -/
def isCanonicalInteger (vchSig : Valtype) (start nLen : Nat) : Option Bool := do
  let type ← vchSig[start - 2]?
  if type ≠ 0x02 then return false
  if nLen = 0 then return false
  let first ← vchSig[start]?
  if first &&& 0x80 ≠ 0 then return false
  if 1 < nLen ∧ first = 0x00 then
    let second ← vchSig[start + 1]?
    return second &&& 0x80 ≠ 0
  else return true

def isCanonicalSignature (vchSig : Valtype) (flags : Nat) : Option Bool := do
  if flags &&& scriptVerifyStrictenc = 0 then return true
  if vchSig.length < 9 then return false
  if 73 < vchSig.length then return false
  let back ← vchSig[vchSig.length - 1]?
  let nHashType := back &&& ~~~0x80
  if nHashType < 1 ∨ 3 < nHashType then return false
  let type ← vchSig[0]?
  if type ≠ 0x30 then return false
  let len ← vchSig[1]?
  if len.toNat ≠ vchSig.length - 3 then return false
  let nLenR := (← vchSig[3]?).toNat
  if vchSig.length ≤ 5 + nLenR then return false
  let nLenS := (← vchSig[5 + nLenR]?).toNat
  if nLenR + nLenS + 7 ≠ vchSig.length then return false
  if !(← isCanonicalInteger vchSig 4 nLenR) then return false
  if !(← isCanonicalInteger vchSig (6 + nLenR) nLenS) then return false
  if flags &&& scriptVerifyLowS = 0 then return true
  return checkSignatureElement ((vchSig.drop (6 + nLenR)).take nLenS)

/-- "This largely overlaps with IsCanonicalSignature above, but lacks hashtype constraints." -/
def isValidSignatureEncoding (sig : Valtype) : Option Bool := do
  if sig.length < 9 then return false
  if 73 < sig.length then return false
  let type ← sig[0]?
  if type ≠ 0x30 then return false
  let len ← sig[1]?
  if len.toNat ≠ sig.length - 3 then return false
  let lenR := (← sig[3]?).toNat
  if sig.length ≤ 5 + lenR then return false
  let lenS := (← sig[5 + lenR]?).toNat
  if lenR + lenS + 7 ≠ sig.length then return false
  if !(← isCanonicalInteger sig 4 lenR) then return false
  isCanonicalInteger sig (lenR + 6) lenS

def checkSignatureEncoding (vchSig : Valtype) (flags : Nat) : Option Bool := do
  if vchSig.length = 0 then return true
  if flags &&& scriptVerifyDersig ≠ 0 then isValidSignatureEncoding vchSig
  else return true

/-! ## The check of a signature -/

/-- What is computed outside of the repository. -/
structure Crypto where
  ripemd160 : List UInt8 → Vector UInt8 20
  sha1 : List UInt8 → Vector UInt8 20
  sha256 : List UInt8 → Vector UInt8 32
  /-- `CKey::SetPubKey` and `CKey::Verify`. -/
  verify : (sighash : Uint256) → (vchSig vchPubKey : Valtype) → Bool

namespace Crypto

def hash160 (crypto : Crypto) (vch : List UInt8) : Vector UInt8 20 :=
  crypto.ripemd160 (crypto.sha256 vch).toList

def hash256 (crypto : Crypto) (vch : List UInt8) : Vector UInt8 32 :=
  crypto.sha256 (crypto.sha256 vch).toList

/-- `Hash`, as a number. -/
def hash (crypto : Crypto) (vch : List UInt8) : Uint256 :=
  BitVec.ofNat 256 (ofBytes (crypto.hash256 vch).toList)

end Crypto

/-- What a script is evaluated for. -/
structure SigContext where
  crypto : Crypto
  txTo : CTransaction
  nIn : Nat
  nHashType : BitVec 32 := 0

namespace SigContext

/-- `CheckSig`.  The flags say whether the cache is written. -/
def checkSig (ctx : SigContext) (vchSig vchPubKey : Valtype) (scriptCode : CScript) : Bool :=
  match vchSig.getLast? with
  | none => false
  | some back =>
      let hashType := BitVec.ofNat 32 back.toNat
      if ctx.nHashType ≠ 0 ∧ ctx.nHashType ≠ hashType then false
      else
        ctx.crypto.verify (signatureHash ctx.crypto.hash scriptCode ctx.txTo ctx.nIn hashType)
          vchSig.dropLast vchPubKey

end SigContext

end Fedoracoin
