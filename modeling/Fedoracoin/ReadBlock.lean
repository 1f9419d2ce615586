import Fedoracoin.BlockFile
import Fedoracoin.ProofOfWork

/-!
# Reading blocks through the index

`ReadBlockFromDisk` looks for the height of the block that it has read in `mapBlockIndex`, by the
hash of that block and with `operator[]`.  Of a hash that is not there, `operator[]` makes an entry
with a null pointer, which is then dereferenced.  Otherwise the reader is that of
`Fedoracoin.BlockFile`, at the height of the entry, and does not touch the map.
-/

namespace Fedoracoin

/-- Of `CBlockIndex`, what a block is read with. -/
structure DiskIndex where
  /-- `*phashBlock`. -/
  hash : Uint256
  nHeight : Int
  haveData : Bool := true
  nFile : Int := 0
  nDataPos : Nat := 0
deriving DecidableEq

/-- `GetBlockPos`. -/
def DiskIndex.getBlockPos (pindex : DiskIndex) : CDiskBlockPos :=
  if pindex.haveData then { nFile := pindex.nFile, nPos := pindex.nDataPos } else {}

/-- `mapBlockIndex`, a map to pointers. -/
abbrev PointerMap := Finmap fun _ : Uint256 ↦ Option DiskIndex

namespace PointerMap

variable {mapBlockIndex : PointerMap} {hash : Uint256} {pindex : DiskIndex}

/-- `mapBlockIndex[hash]`, and the map after it. -/
def subscript (mapBlockIndex : PointerMap) (hash : Uint256) : Option DiskIndex × PointerMap :=
  match mapBlockIndex.lookup hash with
  | some pointer => (pointer, mapBlockIndex)
  | none => (none, mapBlockIndex.insert hash none)

theorem subscript_of_lookup {pointer : Option DiskIndex}
    (h : mapBlockIndex.lookup hash = some pointer) :
    mapBlockIndex.subscript hash = (pointer, mapBlockIndex) := by
  rw [subscript, h]

/-- A pointer that is not null was there before. -/
theorem subscript_eq_some :
    (mapBlockIndex.subscript hash).1 = some pindex ↔
      mapBlockIndex.lookup hash = some (some pindex) := by
  cases hlookup : mapBlockIndex.lookup hash with
  | none => simp [subscript, hlookup]
  | some pointer => simp [subscript, hlookup]

end PointerMap

/-- What `ReadBlockFromDisk` takes from elsewhere. -/
structure ReadEnv extends PowEnv where
  getBlockHash : CBlockHeader → Uint256
  files : BlockFiles

namespace ReadEnv

variable (env : ReadEnv) (mapBlockIndex : PointerMap)

/-- `ReadBlockFromDisk` at a position, and `mapBlockIndex` after it.  It returns the block, or
nothing for false; there is no value if it dereferences a null pointer. -/
def readBlockFromDisk (pos : CDiskBlockPos) : Option (Option CBlock) × PointerMap :=
  match openBlockFile env.files pos with
  | none => (some none, mapBlockIndex)
  | some filein =>
      match CBlock.unserialize filein with
      | .error _ => (some none, mapBlockIndex)
      | .ok (block, _) =>
          -- Check the header
          match mapBlockIndex.subscript (env.getBlockHash block.toCBlockHeader) with
          | (none, mapBlockIndex) => (none, mapBlockIndex)
          | (some pindex, mapBlockIndex) =>
              if env.checkProofOfWork block.toCBlockHeader pindex.nHeight then
                (some (some block), mapBlockIndex)
              else (some none, mapBlockIndex)

/-- `ReadBlockFromDisk` for an entry of the index. -/
def readIndexedBlock (pindex : DiskIndex) : Option (Option CBlock) × PointerMap :=
  match env.readBlockFromDisk mapBlockIndex pindex.getBlockPos with
  | (some (some block), mapBlockIndex) =>
      if env.getBlockHash block.toCBlockHeader = pindex.hash then
        (some (some block), mapBlockIndex)
      else (some none, mapBlockIndex)
  | r => r

/-- A block stands at the position. -/
def Holds (pos : CDiskBlockPos) (block : CBlock) : Prop :=
  ∃ filein rest, openBlockFile env.files pos = some filein ∧
    CBlock.unserialize filein = .ok (block, rest)

/-- The block at the position, if there is one, has an entry in the index. -/
def Known (pos : CDiskBlockPos) : Prop :=
  ∀ block, env.Holds pos block →
    ∃ pindex, mapBlockIndex.lookup (env.getBlockHash block.toCBlockHeader) = some (some pindex)

variable {env mapBlockIndex} {pos : CDiskBlockPos} {block : CBlock} {pindex : DiskIndex}

/-! ## The ways it ends -/

theorem readBlockFromDisk_of_not_holds (h : ∀ block, ¬ env.Holds pos block) :
    env.readBlockFromDisk mapBlockIndex pos = (some none, mapBlockIndex) := by
  rw [readBlockFromDisk]
  cases hopen : openBlockFile env.files pos with
  | none => rfl
  | some filein =>
      cases hread : CBlock.unserialize filein with
      | error e => simp only [hread]
      | ok r => exact absurd ⟨filein, r.2, hopen, hread⟩ (h r.1)

theorem readBlockFromDisk_of_lookup (hblock : env.Holds pos block)
    (h : mapBlockIndex.lookup (env.getBlockHash block.toCBlockHeader) = some (some pindex)) :
    env.readBlockFromDisk mapBlockIndex pos =
      (some (if env.checkProofOfWork block.toCBlockHeader pindex.nHeight then some block
        else none), mapBlockIndex) := by
  obtain ⟨filein, rest, hopen, hread⟩ := hblock
  simp only [readBlockFromDisk, hopen, hread, PointerMap.subscript_of_lookup h]
  split
  case isTrue hpow => rfl
  case isFalse hpow => rfl

/-- It dereferences a null pointer if the block that it reads has no entry. -/
theorem readBlockFromDisk_of_not_lookup (hblock : env.Holds pos block)
    (h : ∀ pindex, mapBlockIndex.lookup (env.getBlockHash block.toCBlockHeader) ≠
      some (some pindex)) :
    (env.readBlockFromDisk mapBlockIndex pos).1 = none := by
  obtain ⟨filein, rest, hopen, hread⟩ := hblock
  simp only [readBlockFromDisk, hopen, hread]
  split
  case h_1 => rfl
  case h_2 pindex _ hsub =>
      have hfst := congrArg Prod.fst hsub
      exact absurd (PointerMap.subscript_eq_some.mp hfst) (h pindex)

/-! ## When it returns -/

/-- `ReadBlockFromDisk` returns with the map unchanged if and only if the block at the position,
if there is one, has an entry. -/
theorem exists_readBlockFromDisk_iff :
    (∃ r, env.readBlockFromDisk mapBlockIndex pos = (some r, mapBlockIndex)) ↔
      env.Known mapBlockIndex pos := by
  constructor
  · rintro ⟨r, hr⟩ block hblock
    by_contra hnone
    have hnull := readBlockFromDisk_of_not_lookup hblock (not_exists.mp hnone)
    rw [hr] at hnull
    cases hnull
  · intro hknown
    by_cases hex : ∃ block, env.Holds pos block
    · obtain ⟨block, hblock⟩ := hex
      obtain ⟨pindex, hlookup⟩ := hknown block hblock
      exact ⟨_, readBlockFromDisk_of_lookup hblock hlookup⟩
    · exact ⟨none, readBlockFromDisk_of_not_holds (not_exists.mp hex)⟩

/-- The test of the hash that the second overload adds comes too late to matter. -/
theorem exists_readIndexedBlock_iff :
    (∃ r, env.readIndexedBlock mapBlockIndex pindex = (some r, mapBlockIndex)) ↔
      ∃ r, env.readBlockFromDisk mapBlockIndex pindex.getBlockPos = (some r, mapBlockIndex) := by
  rw [readIndexedBlock]
  split
  case h_1 block mapBlockIndex' hread =>
      rw [hread]
      split
      case isTrue => rfl
      case isFalse =>
          constructor
          · rintro ⟨r, hr⟩
            exact ⟨some block, Prod.ext rfl (Prod.mk.inj hr).2⟩
          · rintro ⟨r, hr⟩
            exact ⟨none, Prod.ext rfl (Prod.mk.inj hr).2⟩
  case h_2 => rfl

/-- **Reading a block keeps the index.**  Both overloads return, true or false, and leave
`mapBlockIndex` as it is, if and only if the block that stands at the position has an entry, or no
block stands there. -/
theorem readBlockFromDisk_keeps_iff (env : ReadEnv) (mapBlockIndex : PointerMap) :
    (∀ pos : CDiskBlockPos,
      (∃ r, env.readBlockFromDisk mapBlockIndex pos = (some r, mapBlockIndex)) ↔
        env.Known mapBlockIndex pos) ∧
    ∀ pindex : DiskIndex,
      (∃ r, env.readIndexedBlock mapBlockIndex pindex = (some r, mapBlockIndex)) ↔
        env.Known mapBlockIndex pindex.getBlockPos :=
  ⟨fun _ ↦ exists_readBlockFromDisk_iff,
    fun _ ↦ exists_readIndexedBlock_iff.trans exists_readBlockFromDisk_iff⟩

/-- A file of zeros, where a block of which every field is zero stands at each position. -/
def zerosRead : ReadEnv where
  getPoWHash _ := 0
  getPoWHashS _ := 0
  adjustedTime := 0
  pcheckpoint := none
  hashTip := 0
  getBlockHash header := BitVec.ofNat 256 header.nNonce + 1
  files _ := some (List.replicate 100 0)

/-- The hash of that block is 1.  In an index that has the entry 2 alone, reading the block of that
entry puts a null pointer in the map, and dereferences it. -/
theorem readBlockFromDisk_keeps_fails :
    ¬ ∀ (env : ReadEnv) (mapBlockIndex : PointerMap) (pindex : DiskIndex),
      mapBlockIndex.lookup pindex.hash = some (some pindex) →
      ∃ r, env.readIndexedBlock mapBlockIndex pindex = (some r, mapBlockIndex) := by
  intro hall
  obtain ⟨r, hr⟩ := hall zerosRead (Finmap.singleton 2 (some { hash := 2, nHeight := 1 }))
    { hash := 2, nHeight := 1 } (by decide)
  have hnull : (zerosRead.readIndexedBlock
      (Finmap.singleton 2 (some { hash := 2, nHeight := 1 })) { hash := 2, nHeight := 1 }).1 =
        none := by decide
  rw [hr] at hnull
  cases hnull

end ReadEnv

end Fedoracoin
