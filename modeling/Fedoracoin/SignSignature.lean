import Fedoracoin.CryptoKeyStore
import Fedoracoin.Solver

/-!
# Signing inputs

`IsMine` and `SignSignature`, over `CCryptoKeyStore`.  Where a byte behind the end of a string is
read, a key cannot be made, or there is no such input, the result is `none`.
-/

namespace Fedoracoin

/-! ## Keys in scripts -/

/-- What signing uses of OpenSSL. -/
structure SignLib (Point : Type) extends KeyLib Point where
  /-- `ECDSA_sign`. -/
  sign : CKey Point → Uint256 → Option (List UInt8)

/-- A `uint160` from its bytes. -/
def uint160 (vch : Valtype) : Uint160 := BitVec.ofNat 160 (Wire.ofBytes vch)

/-- A transaction with another `scriptSig` at an input. -/
def CTransaction.setScriptSig (txTo : CTransaction) (nIn : Nat) (scriptSig : CScript) :
    CTransaction :=
  { txTo with vin := txTo.vin.modify nIn fun txin ↦ { txin with scriptSig := scriptSig } }

namespace CCryptoKeyStore

variable {Point : Type} (lib : SignLib Point) (s : CCryptoKeyStore)

def haveKeys : List Valtype → Option Nat
  | [] => some 0
  | pubkey :: pubkeys => do
      let vchPubKey ← cPubKey pubkey
      let nResult ← haveKeys pubkeys
      return if s.haveKey (lib.getID vchPubKey) then nResult + 1 else nResult

/-- `IsMine`, for at most `n` scripts. -/
def isMine : (n : Nat) → CScript → Option Bool
  | 0, _ => none
  | n + 1, scriptPubKey =>
      let r := solver scriptPubKey
      if !r.fRet then some false
      else
        match r.typeRet with
        | .nonstandard | .nullData => some false
        | .pubkey => do
            let vchPubKey ← cPubKey (r.vSolutionsRet.headD [])
            return s.haveKey (lib.getID vchPubKey)
        | .pubkeyhash => some (s.haveKey (uint160 (r.vSolutionsRet.headD [])))
        | .scripthash =>
            match s.getCScript (uint160 (r.vSolutionsRet.headD [])) with
            | none => some false
            | some subscript => isMine n subscript
        | .multisig => do
            let keys := r.vSolutionsRet.tail.dropLast
            let nResult ← s.haveKeys lib keys
            return nResult = keys.length

variable (hash : Uint256) (nHashType : BitVec 32)

def sign1 (address : CKeyID) (scriptSigRet : CScript) : Option (Bool × CScript) := do
  let (fFound, key) ← (s.getKey lib.toKeyLib address {}).toOption
  if !fFound then return (false, scriptSigRet)
  match lib.sign key hash with
  | none => return (false, scriptSigRet)
  | some vchSig => return (true, scriptSigRet.push (vchSig ++ [UInt8.ofNat nHashType.toNat]))

/-- The loop of `SignN`. -/
def signNLoop (nRequired : Nat) : (pubkeys : List Valtype) → (nSigned : Nat) → CScript →
    Option (Nat × CScript)
  | [], nSigned, scriptSigRet => some (nSigned, scriptSigRet)
  | pubkey :: pubkeys, nSigned, scriptSigRet =>
      if nSigned < nRequired then do
        let vchPubKey ← cPubKey pubkey
        let (fSigned, scriptSigRet) ←
          s.sign1 lib hash nHashType (lib.getID vchPubKey) scriptSigRet
        signNLoop nRequired pubkeys (if fSigned then nSigned + 1 else nSigned) scriptSigRet
      else some (nSigned, scriptSigRet)

def signN (multisigdata : List Valtype) (scriptSigRet : CScript) : Option (Bool × CScript) := do
  let nRequired := ((multisigdata.head?.bind List.head?).getD 0).toNat
  let (nSigned, scriptSigRet) ← s.signNLoop lib hash nHashType nRequired
    multisigdata.tail.dropLast 0 scriptSigRet
  return (nSigned = nRequired, scriptSigRet)

/-- `Solver` for signing: what it returns, `scriptSigRet` and `whichTypeRet`. -/
def solverSign (scriptPubKey : CScript) : Option (Bool × CScript × TxnOutType) :=
  let r := solver scriptPubKey
  if !r.fRet then some (false, [], r.typeRet)
  else
    match r.typeRet with
    | .nonstandard | .nullData => some (false, [], r.typeRet)
    | .pubkey => do
        let vchPubKey ← cPubKey (r.vSolutionsRet.headD [])
        let (fSigned, scriptSigRet) ← s.sign1 lib hash nHashType (lib.getID vchPubKey) []
        return (fSigned, scriptSigRet, r.typeRet)
    | .pubkeyhash => do
        let keyID := uint160 (r.vSolutionsRet.headD [])
        let (fSigned, scriptSigRet) ← s.sign1 lib hash nHashType keyID []
        if !fSigned then return (false, scriptSigRet, r.typeRet)
        let vch ← (s.getPubKey lib.toKeyLib keyID).toOption
        return (true, scriptSigRet.push (vch.getD []), r.typeRet)
    | .scripthash =>
        match s.getCScript (uint160 (r.vSolutionsRet.headD [])) with
        | none => some (false, [], r.typeRet)
        | some scriptSigRet => some (true, scriptSigRet, r.typeRet)
    | .multisig => do
        let (fSigned, scriptSigRet) ← s.signN lib hash nHashType r.vSolutionsRet [0]
        return (fSigned, scriptSigRet, r.typeRet)

def signFlags : Nat := scriptVerifyP2sh ||| scriptVerifyStrictenc

variable (fromPubKey : CScript) (txTo : CTransaction) (nIn : Nat)

/-- "Test solution". -/
def testSolution (scriptSig : CScript) : Option Bool :=
  (verifyScript { crypto := lib.crypto, txTo := txTo.setScriptSig nIn scriptSig, nIn := nIn }
    signFlags scriptSig fromPubKey).ret

/-- `SignSignature`: what it returns, and the `scriptSig` it leaves. -/
def signSignature : Option (Bool × CScript) := do
  if txTo.vin.length ≤ nIn then none
  let hash := signatureHash lib.crypto.hash fromPubKey txTo nIn nHashType
  let (fSolved, scriptSig, whichType) ← s.solverSign lib hash nHashType fromPubKey
  if !fSolved then return (false, scriptSig)
  if whichType = .scripthash then
    let subscript := scriptSig
    let hash2 := signatureHash lib.crypto.hash subscript (txTo.setScriptSig nIn scriptSig) nIn
      nHashType
    let (fSolved, scriptSig, subType) ← s.solverSign lib hash2 nHashType subscript
    let scriptSig := scriptSig.push subscript
    if !(fSolved && subType ≠ .scripthash) then return (false, scriptSig)
    return (← testSolution lib fromPubKey txTo nIn scriptSig, scriptSig)
  else return (← testSolution lib fromPubKey txTo nIn scriptSig, scriptSig)

end CCryptoKeyStore

end Fedoracoin
