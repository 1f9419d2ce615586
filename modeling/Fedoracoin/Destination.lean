import Fedoracoin.SignSignature
import Fedoracoin.WalletTx

/-!
# Destinations

`CTxDestination` and the functions of `script.cpp` that say whom a script pays.
-/

namespace Fedoracoin

inductive CTxDestination where
  | noDestination
  | keyID (keyID : CKeyID)
  | scriptID (scriptID : Uint160)
deriving DecidableEq

/-- What the wallet asks about scripts, with the keys that it holds. -/
structure AddressEnv extends WalletEnv where
  /-- `IsMyShare(*this, scriptPubKey)`. -/
  isMyShare : CScript → Bool
  /-- `IsMine(*this, address)`. -/
  isMineDestination : CTxDestination → Bool
  extractDestination : CScript → Option CTxDestination

namespace CCryptoKeyStore

variable {Point : Type} (lib : SignLib Point) (s : CCryptoKeyStore)

/-- `ExtractDestination`, where it returns true. -/
def extractDestination (scriptPubKey : CScript) : Option CTxDestination :=
  let r := solver scriptPubKey
  if !r.fRet then none
  else
    match r.typeRet with
    | .pubkey => (cPubKey (r.vSolutionsRet.headD [])).map fun vch ↦ .keyID (lib.getID vch)
    | .pubkeyhash => some (.keyID (uint160 (r.vSolutionsRet.headD [])))
    | .scripthash => some (.scriptID (uint160 (r.vSolutionsRet.headD [])))
    -- Multisig txns have more than one address...
    | .nonstandard | .nullData | .multisig => none

/-- `CKeyStoreIsMineVisitor`. -/
def isMineDestination : CTxDestination → Bool
  | .noDestination => false
  | .keyID keyID => s.haveKey keyID
  | .scriptID scriptID => s.haveCScript scriptID

/-- `IsMyShare`, for at most `n` scripts. -/
def isMyShare : (n : Nat) → CScript → Option Bool
  | 0, _ => none
  | n + 1, scriptPubKey =>
      let r := solver scriptPubKey
      if !r.fRet then some false
      else
        match r.typeRet with
        | .nonstandard | .nullData | .pubkey | .pubkeyhash => some false
        | .scripthash =>
            match s.getCScript (uint160 (r.vSolutionsRet.headD [])) with
            | none => some false
            | some subscript => isMyShare n subscript
        | .multisig => do
            let keys := r.vSolutionsRet.tail.dropLast
            let nkeys ← s.haveKeys lib keys
            return decide (0 < nkeys ∧ nkeys < keys.length)

/-- The answers that a key store gives. -/
def addressEnv (env : WalletEnv) (n : Nat) : AddressEnv :=
  { env with
    isMine := fun script ↦ (s.isMine lib n script).getD false
    isMyShare := fun script ↦ (s.isMyShare lib n script).getD false
    isMineDestination := s.isMineDestination
    extractDestination := extractDestination lib }

end CCryptoKeyStore

end Fedoracoin
