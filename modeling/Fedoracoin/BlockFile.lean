import Fedoracoin.BlockSerialize

/-!
# Block files

Places in the files `blk?????.dat`, and the writing and reading of one block there
(`OpenBlockFile`, `WriteBlockToDisk` and `ReadBlockFromDisk` of `main.cpp`).  A block stands after
the message start and its size, and its position is that of its first byte.
-/

namespace Fedoracoin

open Wire

/-- A place in a block file; it is null if there is no file. -/
structure CDiskBlockPos where
  nFile : Int := -1
  nPos : Nat := 0
deriving DecidableEq

namespace CDiskBlockPos

def isNull (pos : CDiskBlockPos) : Bool := pos.nFile == -1

end CDiskBlockPos

/-- The bytes of the block files that exist, by their numbers. -/
abbrev BlockFiles := Int → Option (List UInt8)

/-- What `OpenBlockFile` leaves to be read. -/
def openBlockFile (files : BlockFiles) (pos : CDiskBlockPos) : Option (List UInt8) :=
  if pos.isNull then none else (files pos.nFile).map (·.drop pos.nPos)

/-- `WriteBlockToDisk`, with the position it leaves; there is no value if it fails. -/
def writeBlockToDisk (messageStart : List UInt8) (files : BlockFiles) (block : CBlock)
    (pos : CDiskBlockPos) : Option (BlockFiles × CDiskBlockPos) :=
  if pos.isNull then none
  else
    let nSize := block.getSerializeSize
    let header := messageStart ++ toBytes 4 nSize
    let file := (files pos.nFile).getD []
    some (Function.update files pos.nFile
        (some (writeAt file pos.nPos (header ++ block.serialize))),
      { pos with nPos := pos.nPos + header.length })

/-- `ReadBlockFromDisk`; there is no value if it fails.  `checkProofOfWork` is the check of the
header at the height that the index has for the block. -/
def readBlockFromDisk (checkProofOfWork : CBlockHeader → Bool) (files : BlockFiles)
    (pos : CDiskBlockPos) : Option CBlock := do
  let filein ← openBlockFile files pos
  let (block, _) ← (CBlock.unserialize filein).toOption
  if checkProofOfWork block.toCBlockHeader then some block else none

variable {files files' : BlockFiles} {pos pos' : CDiskBlockPos} {block : CBlock}
  {messageStart : List UInt8} {checkProofOfWork : CBlockHeader → Bool}

/-- A block that was read stands in its file as it is written. -/
theorem readBlockFromDisk_ok (h : readBlockFromDisk checkProofOfWork files pos = some block) :
    ∃ filein rest, openBlockFile files pos = some filein ∧
      CBlock.unserialize filein = .ok (block, rest) := by
  rw [readBlockFromDisk] at h
  cases hopen : openBlockFile files pos with
  | none =>
      rw [hopen] at h
      cases h
  | some filein =>
      rw [hopen] at h
      cases hread : CBlock.unserialize filein with
      | error e =>
          simp [hread, Except.toOption] at h
      | ok p =>
          simp only [hread, Except.toOption, Option.bind_eq_bind, Option.bind_some,
            Option.ite_none_right_eq_some, Option.some.injEq] at h
          exact ⟨filein, p.2, rfl, by rw [hread, ← h.2]⟩

/-- A block can be read where it was written. -/
theorem readBlockFromDisk_writeBlockToDisk (hblock : block.WellTyped)
    (hsize : block.getSerializeSize ≤ maxSize)
    (hpow : checkProofOfWork block.toCBlockHeader = true)
    (h : writeBlockToDisk messageStart files block pos = some (files', pos')) :
    readBlockFromDisk checkProofOfWork files' pos' = some block := by
  rw [writeBlockToDisk] at h
  split at h
  case isTrue => cases h
  case isFalse hnull =>
    obtain ⟨rfl, rfl⟩ := Prod.mk.inj (Option.some.inj h)
    have hopen : ¬ (CDiskBlockPos.isNull
        { pos with nPos := pos.nPos + (messageStart ++ toBytes 4 block.getSerializeSize).length }
        = true) := hnull
    rw [readBlockFromDisk, openBlockFile, if_neg hopen]
    simp only [Function.update_self, Option.map_some, drop_writeAt, Option.bind_eq_bind,
      Option.bind_some]
    rw [CBlock.reads_unserialize hblock hsize]
    simp [Except.toOption, hpow]

end Fedoracoin
