import Fedoracoin.MerkleRoot
import Fedoracoin.Serialize

/-!
# Partial merkle trees

`CPartialMerkleTree` of `main.h`: a merkle tree pruned to the branches that lead to some of
the transactions.  Positions and the two counters of the traversals are `unsigned int` in the
source; they stay below the width of the tree, or below the sizes of vectors, and are natural
numbers here.
-/

namespace Fedoracoin

structure CPartialMerkleTree where
  nTransactions : Nat := 0
  vBits : List Bool := []
  vHash : List Uint256 := []
  fBad : Bool := true
deriving DecidableEq

/-- `CalcTreeWidth`, in `unsigned int` arithmetic. -/
def calcTreeWidth (nTransactions height : Nat) : Nat :=
  (nTransactions + 2 ^ height - 1) % 2 ^ 32 / 2 ^ height

/-- `while (CalcTreeWidth(nHeight) > 1) nHeight++`, for at most `fuel` rounds. -/
def calcHeight (nTransactions : Nat) : (fuel nHeight : Nat) → Nat
  | 0, nHeight => nHeight
  | fuel + 1, nHeight =>
      if 1 < calcTreeWidth nTransactions nHeight then calcHeight nTransactions fuel (nHeight + 1)
      else nHeight

/-- The height from which the traversals start. -/
def treeHeight (nTransactions : Nat) : Nat := calcHeight nTransactions 32 0

section

variable (hash : Uint256 → Uint256 → Uint256)

def calcHash (nTransactions : Nat) (vTxid : List Uint256) : (height pos : Nat) → Uint256
  | 0, pos => vTxid.getD pos 0
  | height + 1, pos =>
      let left := calcHash nTransactions vTxid height (pos * 2)
      let right :=
        if pos * 2 + 1 < calcTreeWidth nTransactions height then
          calcHash nTransactions vTxid height (pos * 2 + 1)
        else left
      hash left right

namespace CPartialMerkleTree

/-! ## Building -/

/-- `fParentOfMatch`: whether a transaction below the node is matched. -/
def parentOfMatch (nTransactions : Nat) (vMatch : List Bool) (height pos : Nat) : Bool :=
  (List.range' (pos * 2 ^ height) (2 ^ height)).any fun p ↦
    decide (p < nTransactions) && vMatch.getD p false

def traverseAndBuild (vTxid : List Uint256) (vMatch : List Bool) :
    (height pos : Nat) → CPartialMerkleTree → CPartialMerkleTree
  | 0, pos, pmt =>
      let fParentOfMatch := parentOfMatch pmt.nTransactions vMatch 0 pos
      { pmt with
        vBits := pmt.vBits ++ [fParentOfMatch]
        vHash := pmt.vHash ++ [calcHash hash pmt.nTransactions vTxid 0 pos] }
  | height + 1, pos, pmt =>
      let fParentOfMatch := parentOfMatch pmt.nTransactions vMatch (height + 1) pos
      let pmt := { pmt with vBits := pmt.vBits ++ [fParentOfMatch] }
      if !fParentOfMatch then
        { pmt with
          vHash := pmt.vHash ++ [calcHash hash pmt.nTransactions vTxid (height + 1) pos] }
      else
        let pmt := traverseAndBuild vTxid vMatch height (pos * 2) pmt
        if pos * 2 + 1 < calcTreeWidth pmt.nTransactions height then
          traverseAndBuild vTxid vMatch height (pos * 2 + 1) pmt
        else pmt

/-- The constructor with a list of transaction ids and a mask. -/
def ofMatch (vTxid : List Uint256) (vMatch : List Bool) : CPartialMerkleTree :=
  let nTransactions := vTxid.length % 2 ^ 32
  traverseAndBuild hash vTxid vMatch (treeHeight nTransactions) 0
    { nTransactions := nTransactions, fBad := false }

/-! ## Extracting -/

/-- The variables of `ExtractMatches`. -/
structure Extraction where
  nBitsUsed : Nat := 0
  nHashUsed : Nat := 0
  vMatch : List Uint256 := []
  fBad : Bool
deriving DecidableEq

/-- The branch that uses a stored hash; `fMatched` is `height==0 && fParentOfMatch`. -/
def useHash (pmt : CPartialMerkleTree) (fMatched : Bool) (s : Extraction) :
    Uint256 × Extraction :=
  match pmt.vHash[s.nHashUsed]? with
  | none => (0, { s with fBad := true })
  | some hash =>
      (hash, { s with
        nHashUsed := s.nHashUsed + 1
        vMatch := if fMatched then s.vMatch ++ [hash] else s.vMatch })

def traverseAndExtract (pmt : CPartialMerkleTree) :
    (height pos : Nat) → Extraction → Uint256 × Extraction
  | 0, _, s =>
      match pmt.vBits[s.nBitsUsed]? with
      | none => (0, { s with fBad := true })
      | some fParentOfMatch =>
          pmt.useHash fParentOfMatch { s with nBitsUsed := s.nBitsUsed + 1 }
  | height + 1, pos, s =>
      match pmt.vBits[s.nBitsUsed]? with
      | none => (0, { s with fBad := true })
      | some fParentOfMatch =>
          let s := { s with nBitsUsed := s.nBitsUsed + 1 }
          if !fParentOfMatch then pmt.useHash false s
          else
            let (left, s) := pmt.traverseAndExtract height (pos * 2) s
            let (right, s) :=
              if pos * 2 + 1 < calcTreeWidth pmt.nTransactions height then
                pmt.traverseAndExtract height (pos * 2 + 1) s
              else (left, s)
            (hash left right, s)

/-- `ExtractMatches`, with its variables as they are left. -/
def extractMatches (pmt : CPartialMerkleTree) : Uint256 × Extraction :=
  if pmt.nTransactions = 0 then (0, { fBad := pmt.fBad })
  else if maxBlockSize / 60 < pmt.nTransactions then (0, { fBad := pmt.fBad })
  else if pmt.nTransactions < pmt.vHash.length then (0, { fBad := pmt.fBad })
  else if pmt.vBits.length < pmt.vHash.length then (0, { fBad := pmt.fBad })
  else
    let (hashMerkleRoot, s) :=
      pmt.traverseAndExtract hash (treeHeight pmt.nTransactions) 0 { fBad := pmt.fBad }
    if s.fBad then (0, s)
    else if (s.nBitsUsed + 7) / 8 ≠ (pmt.vBits.length + 7) / 8 then (0, s)
    else if s.nHashUsed ≠ pmt.vHash.length then (0, s)
    else (hashMerkleRoot, s)

/-! ## On the wire -/

def serialize (pmt : CPartialMerkleTree) : List UInt8 :=
  Wire.toBytes 4 pmt.nTransactions ++ serializeVector serializeUint256 pmt.vHash ++
    serializeVector serializeByte (Wire.packBits pmt.vBits pmt.vBits.length)

def unserialize : StreamReader CPartialMerkleTree := do
  let nTransactions ← readUInt 4
  let vHash ← unserializeVector unserializeUint256
  let vBytes ← unserializeVector unserializeByte
  return { nTransactions, vBits := Wire.unpackBits vBytes, vHash, fBad := false }

end CPartialMerkleTree

end

end Fedoracoin
