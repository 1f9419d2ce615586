import Fedoracoin.BlockFile

/-!
# Space in the block files

`FindBlockPos` and `FindUndoPos` of `main.cpp`, which give out places in the files `blk?????.dat`
and `rev?????.dat` from the sizes in `CBlockFileInfo`, in memory for the last file and in the
database for the others.

The outcomes of the test for free disk space and of the writes to the database are given to a call.
What `FlushBlockFile` and `AllocateFileRange` do to the files leaves no trace in the state, and is
left out.
-/

namespace Fedoracoin

def maxBlockfileSize : BitVec 32 := 0x8000000

def blockfileChunkSize : BitVec 32 := 0x1000000

def undofileChunkSize : BitVec 32 := 0x100000

structure CBlockFileInfo where
  /-- number of blocks stored in file -/
  nBlocks : BitVec 32 := 0
  /-- number of used bytes of block file -/
  nSize : BitVec 32 := 0
  /-- number of used bytes in the undo file -/
  nUndoSize : BitVec 32 := 0
  nHeightFirst : BitVec 32 := 0
  nHeightLast : BitVec 32 := 0
  nTimeFirst : BitVec 64 := 0
  nTimeLast : BitVec 64 := 0
deriving DecidableEq

/-- `AddBlock`, which does not update `nSize`. -/
def CBlockFileInfo.addBlock (info : CBlockFileInfo) (nHeightIn : BitVec 32)
    (nTimeIn : BitVec 64) : CBlockFileInfo :=
  { info with
    nHeightFirst :=
      if info.nBlocks = 0 ∨ nHeightIn < info.nHeightFirst then nHeightIn else info.nHeightFirst
    nTimeFirst :=
      if info.nBlocks = 0 ∨ nTimeIn < info.nTimeFirst then nTimeIn else info.nTimeFirst
    nBlocks := info.nBlocks + 1
    nHeightLast := if info.nHeightLast < nHeightIn then nHeightIn else info.nHeightLast
    nTimeLast := if info.nTimeLast < nTimeIn then nTimeIn else info.nTimeLast }

/-- `nSize += nAddSize`. -/
def CBlockFileInfo.addSize (info : CBlockFileInfo) (nAddSize : BitVec 32) : CBlockFileInfo :=
  { info with nSize := info.nSize + nAddSize }

/-- `nUndoSize += nAddSize`. -/
def CBlockFileInfo.addUndo (info : CBlockFileInfo) (nAddSize : BitVec 32) : CBlockFileInfo :=
  { info with nUndoSize := info.nUndoSize + nAddSize }

/-- The variables of the last block file, and what `pblocktree` holds of the block files. -/
structure BlockFileState where
  nLastBlockFile : Int := 0
  infoLastBlockFile : CBlockFileInfo := {}
  blockFileInfos : Finmap fun _ : Int ↦ CBlockFileInfo := ∅
  lastBlockFile : Option Int := none

/-- How the disk behaves in a call. -/
structure DiskOutcome where
  /-- `CheckDiskSpace` -/
  hasSpace : Bool := true
  /-- `WriteBlockFileInfo` -/
  infoWritten : Bool := true
  /-- `WriteLastBlockFile` -/
  lastWritten : Bool := true

/-- Whether the used bytes reach into another chunk. -/
def needsChunk (nChunkSize nPos nNewSize : BitVec 32) : Bool :=
  (nPos + nChunkSize - 1) / nChunkSize < (nNewSize + nChunkSize - 1) / nChunkSize

namespace BlockFileState

/-- `ReadBlockFileInfo` into an empty record, which stays empty if there is nothing to be read. -/
def readBlockFileInfo (s : BlockFileState) (nFile : Int) : CBlockFileInfo :=
  (s.blockFileInfos.lookup nFile).getD {}

/-- `WriteBlockFileInfo`. -/
def writeBlockFileInfo (s : BlockFileState) (nFile : Int) (info : CBlockFileInfo) :
    BlockFileState :=
  { s with blockFileInfos := s.blockFileInfos.insert nFile info }

def setLastBlockFile (s : BlockFileState) (nFile : Int) : BlockFileState :=
  { s with nLastBlockFile := nFile, infoLastBlockFile := s.readBlockFileInfo nFile }

def setInfo (s : BlockFileState) (info : CBlockFileInfo) : BlockFileState :=
  { s with infoLastBlockFile := info }

/-- The loop that leaves full block files, for as many rounds as are given to it. -/
def leaveFull (nAddSize : BitVec 32) : Nat → BlockFileState → Bool → Option (BlockFileState × Bool)
  | 0, _, _ => none
  | rounds + 1, s, fUpdatedLast =>
      if maxBlockfileSize ≤ s.infoLastBlockFile.nSize + nAddSize then
        leaveFull nAddSize rounds (s.setLastBlockFile (s.nLastBlockFile + 1)) true
      else some (s, fUpdatedLast)

/-- The first part of `FindBlockPos`: the file, and the place in it. -/
def chooseFile (rounds : Nat) (s : BlockFileState) (pos : CDiskBlockPos) (nAddSize : BitVec 32)
    (fKnown : Bool) : Option (BlockFileState × CDiskBlockPos × Bool) :=
  if fKnown then
    if s.nLastBlockFile ≠ pos.nFile then some (s.setLastBlockFile pos.nFile, pos, true)
    else some (s, pos, false)
  else (leaveFull nAddSize rounds s false).map fun (s, fUpdatedLast) ↦
    (s, ⟨s.nLastBlockFile, s.infoLastBlockFile.nSize.toNat⟩, fUpdatedLast)

/-- `WriteLastBlockFile`, whose failure is not noticed. -/
def writeLastBlockFile (disk : DiskOutcome) (s : BlockFileState) : BlockFileState :=
  if disk.lastWritten then { s with lastBlockFile := some s.nLastBlockFile } else s

/-- The end of `FindBlockPos`, once the block is counted. -/
def saveBlockInfo (disk : DiskOutcome) (fKnown : Bool) (s : BlockFileState) (pos : CDiskBlockPos)
    (fUpdatedLast : Bool) : BlockFileState × Except String CDiskBlockPos :=
  if ¬ fKnown ∧ needsChunk blockfileChunkSize (BitVec.ofNat 32 pos.nPos)
      s.infoLastBlockFile.nSize ∧ ¬ disk.hasSpace then
    (s, .error "out of disk space")
  else if ¬ disk.infoWritten then (s, .error "Failed to write file info")
  else if fUpdatedLast then
    ((s.writeBlockFileInfo s.nLastBlockFile s.infoLastBlockFile).writeLastBlockFile disk, .ok pos)
  else (s.writeBlockFileInfo s.nLastBlockFile s.infoLastBlockFile, .ok pos)

/-- `FindBlockPos`, with the place or the message of the failure. -/
def findBlockPos (disk : DiskOutcome) (rounds : Nat) (s : BlockFileState) (pos : CDiskBlockPos)
    (nAddSize nHeight : BitVec 32) (nTime : BitVec 64) (fKnown : Bool) :
    Option (BlockFileState × Except String CDiskBlockPos) :=
  (s.chooseFile rounds pos nAddSize fKnown).map fun (s, pos, fUpdatedLast) ↦
    saveBlockInfo disk fKnown
      (s.setInfo ((s.infoLastBlockFile.addSize nAddSize).addBlock nHeight nTime)) pos fUpdatedLast

/-- The part that the two branches of `FindUndoPos` have in common. -/
def storeUndoSize (disk : DiskOutcome) (nFile : Int) (nAddSize : BitVec 32) (s : BlockFileState)
    (info : CBlockFileInfo) : BlockFileState × Except String CDiskBlockPos :=
  if ¬ disk.infoWritten then (s, .error "Failed to write block info")
  else if needsChunk undofileChunkSize info.nUndoSize (info.nUndoSize + nAddSize) ∧
      ¬ disk.hasSpace then
    (s.writeBlockFileInfo nFile (info.addUndo nAddSize), .error "out of disk space")
  else (s.writeBlockFileInfo nFile (info.addUndo nAddSize), .ok ⟨nFile, info.nUndoSize.toNat⟩)

/-- `FindUndoPos`. -/
def findUndoPos (disk : DiskOutcome) (s : BlockFileState) (nFile : Int) (nAddSize : BitVec 32) :
    BlockFileState × Except String CDiskBlockPos :=
  if nFile = s.nLastBlockFile then
    storeUndoSize disk nFile nAddSize (s.setInfo (s.infoLastBlockFile.addUndo nAddSize))
      s.infoLastBlockFile
  else
    match s.blockFileInfos.lookup nFile with
    | none => (s, .error "Failed to read block info")
    | some info => storeUndoSize disk nFile nAddSize s info

/-- What `LoadBlockIndexDB` reads of the block files. -/
def loadLastBlockFile (s : BlockFileState) : BlockFileState :=
  ({ s with nLastBlockFile := 0, infoLastBlockFile := {} } : BlockFileState).setLastBlockFile
    (s.lastBlockFile.getD 0)

end BlockFileState

/-! ## Runs -/

/-- Blocks stand in the files `blk?????.dat`, and undo records in the files `rev?????.dat`. -/
inductive FileKind
  | blk
  | rev
deriving DecidableEq

/-- A block or an undo record in a file. -/
structure FileRecord where
  kind : FileKind
  nFile : Int
  nPos : Nat
  nSize : Nat
deriving DecidableEq

namespace FileRecord

def stop (r : FileRecord) : Nat := r.nPos + r.nSize

/-- No byte belongs to both. -/
def Disjoint (r r' : FileRecord) : Prop :=
  r.kind = r'.kind → r.nFile = r'.nFile → r.stop ≤ r'.nPos ∨ r'.stop ≤ r.nPos

instance (r r' : FileRecord) : Decidable (r.Disjoint r') :=
  inferInstanceAs (Decidable (_ → _ → _))

end FileRecord

/-- The state with the records that have been stored or indexed. -/
structure BlockSpace extends BlockFileState where
  stored : List FileRecord := []

inductive FileCall
  /-- `FindBlockPos` for a block that is in the file, at a position after its header. -/
  | known (pos : CDiskBlockPos) (nAddSize nHeight : BitVec 32) (nTime : BitVec 64)
      (disk : DiskOutcome)
  /-- `FindBlockPos` for a new block. -/
  | append (nAddSize nHeight : BitVec 32) (nTime : BitVec 64) (disk : DiskOutcome) (rounds : Nat)
  /-- `FindUndoPos`. -/
  | undo (nFile : Int) (nAddSize : BitVec 32) (disk : DiskOutcome)
  /-- The node is started again. -/
  | load

namespace FileCall

/-- The state after a call, and the record that it finds a place for or is told of. -/
def run (s : BlockSpace) : FileCall → Option (BlockFileState × Option FileRecord)
  | known pos nAddSize nHeight nTime disk =>
      (s.findBlockPos disk 0 pos nAddSize nHeight nTime true).map fun (s', r) ↦
        -- the size counts the header, which is 8 bytes
        (s', r.toOption.map fun pos ↦ ⟨.blk, pos.nFile, pos.nPos - 8, nAddSize.toNat⟩)
  | append nAddSize nHeight nTime disk rounds =>
      (s.findBlockPos disk rounds {} nAddSize nHeight nTime false).map fun (s', r) ↦
        (s', r.toOption.map fun pos ↦ ⟨.blk, pos.nFile, pos.nPos, nAddSize.toNat⟩)
  | undo nFile nAddSize disk =>
      let (s', r) := s.findUndoPos disk nFile nAddSize
      some (s', r.toOption.map fun pos ↦ ⟨.rev, pos.nFile, pos.nPos, nAddSize.toNat⟩)
  | load => some (s.loadLastBlockFile, none)

def isKnown : FileCall → Bool
  | known .. => true
  | _ => false

end FileCall

/-! ## The sizes cover the records -/

/-- The used bytes of one of the two files. -/
def CBlockFileInfo.size (info : CBlockFileInfo) : FileKind → Nat
  | .blk => info.nSize.toNat
  | .rev => info.nUndoSize.toNat

theorem CBlockFileInfo.size_addBlock (info : CBlockFileInfo) (nHeightIn : BitVec 32)
    (nTimeIn : BitVec 64) (kind : FileKind) :
    (info.addBlock nHeightIn nTimeIn).size kind = info.size kind := by
  cases kind <;> rfl

theorem CBlockFileInfo.size_le_addUndo {info : CBlockFileInfo} {nAddSize : BitVec 32}
    (hlt : info.nUndoSize.toNat + nAddSize.toNat < 2 ^ 32) (kind : FileKind) :
    info.size kind ≤ (info.addUndo nAddSize).size kind := by
  cases kind with
  | blk => exact le_rfl
  | rev => exact (Nat.le_add_right _ _).trans_eq (BitVec.toNat_add_of_lt hlt).symm

namespace BlockFileState

variable {s s' s₁ : BlockFileState} {stored : List FileRecord} {info : CBlockFileInfo} {nFile : Int}
  {nAddSize nHeight : BitVec 32} {nTime : BitVec 64} {disk : DiskOutcome} {rounds : Nat}
  {pos pos₁ : CDiskBlockPos} {fKnown fUpdatedLast fUpdatedLast' : Bool}

/-- The record of a block file that is in use. -/
def infoOf (s : BlockFileState) (nFile : Int) : CBlockFileInfo :=
  if nFile = s.nLastBlockFile then s.infoLastBlockFile else s.readBlockFileInfo nFile

/-- No record goes beyond the sizes, in memory and in the database. -/
structure Covers (s : BlockFileState) (stored : List FileRecord) : Prop where
  db : ∀ r ∈ stored, r.stop ≤ (s.readBlockFileInfo r.nFile).size r.kind
  last : ∀ r ∈ stored, r.nFile = s.nLastBlockFile → r.stop ≤ s.infoLastBlockFile.size r.kind

namespace Covers

theorem nil (s : BlockFileState) : s.Covers [] :=
  ⟨fun _ h ↦ absurd h List.not_mem_nil, fun _ h ↦ absurd h List.not_mem_nil⟩

theorem setLastBlockFile (h : s.Covers stored) (nFile : Int) :
    (s.setLastBlockFile nFile).Covers stored := by
  refine ⟨h.db, fun r hr hlast ↦ ?_⟩
  rw [show nFile = r.nFile from hlast.symm]
  exact h.db r hr

theorem setInfo (h : s.Covers stored)
    (hle : ∀ kind, s.infoLastBlockFile.size kind ≤ info.size kind) :
    (s.setInfo info).Covers stored :=
  ⟨h.db, fun r hr hlast ↦ (h.last r hr hlast).trans (hle r.kind)⟩

theorem writeBlockFileInfo (h : s.Covers stored)
    (hle : ∀ r ∈ stored, r.nFile = nFile → r.stop ≤ info.size r.kind) :
    (s.writeBlockFileInfo nFile info).Covers stored := by
  refine ⟨fun r hr ↦ ?_, h.last⟩
  by_cases hfile : r.nFile = nFile
  · rw [readBlockFileInfo, BlockFileState.writeBlockFileInfo, hfile, Finmap.lookup_insert]
    exact hle r hr hfile
  · rw [readBlockFileInfo, BlockFileState.writeBlockFileInfo, Finmap.lookup_insert_of_ne _ hfile]
    exact h.db r hr

theorem cons {r : FileRecord} (h : s.Covers stored)
    (hdb : r.stop ≤ (s.readBlockFileInfo r.nFile).size r.kind)
    (hlast : r.nFile = s.nLastBlockFile → r.stop ≤ s.infoLastBlockFile.size r.kind) :
    s.Covers (r :: stored) := by
  constructor
  · intro r' hr'
    rcases List.mem_cons.mp hr' with rfl | hr'
    · exact hdb
    · exact h.db r' hr'
  · intro r' hr'
    rcases List.mem_cons.mp hr' with rfl | hr'
    · exact hlast
    · exact h.last r' hr'

theorem writeLastBlockFile (h : s.Covers stored) (disk : DiskOutcome) :
    (s.writeLastBlockFile disk).Covers stored := by
  rw [BlockFileState.writeLastBlockFile]
  split
  case isTrue => exact ⟨h.db, h.last⟩
  case isFalse => exact h

/-- The sizes that a call goes by cover the records. -/
theorem infoOf (h : s.Covers stored) {r : FileRecord} (hr : r ∈ stored) :
    r.stop ≤ (s.infoOf r.nFile).size r.kind := by
  rw [BlockFileState.infoOf]
  split
  case isTrue hlast => exact h.last r hr hlast
  case isFalse => exact h.db r hr

end Covers

theorem leaveFull_spec (h : s.Covers stored)
    (hrun : leaveFull nAddSize rounds s fUpdatedLast = some (s', fUpdatedLast')) :
    s'.Covers stored ∧ s.nLastBlockFile ≤ s'.nLastBlockFile ∧
      s'.infoLastBlockFile = s.infoOf s'.nLastBlockFile ∧
      s'.infoLastBlockFile.nSize + nAddSize < maxBlockfileSize := by
  induction rounds generalizing s fUpdatedLast with
  | zero => exact absurd hrun (by simp [leaveFull])
  | succ rounds ih =>
      rw [leaveFull] at hrun
      split at hrun
      case isTrue =>
        obtain ⟨hcovers, hle, hinfo, hlt⟩ := ih (h.setLastBlockFile _) hrun
        have hle' : s.nLastBlockFile + 1 ≤ s'.nLastBlockFile := hle
        have hne : s'.nLastBlockFile ≠ s.nLastBlockFile := by omega
        refine ⟨hcovers, by omega, ?_, hlt⟩
        rw [hinfo, show s.infoOf s'.nLastBlockFile = s.readBlockFileInfo s'.nLastBlockFile from
          if_neg hne, infoOf]
        split
        case isTrue heq =>
          rw [heq]
          rfl
        case isFalse => rfl
      case isFalse hfull =>
        obtain ⟨rfl, -⟩ := Prod.mk.inj (Option.some.inj hrun)
        exact ⟨h, le_rfl, (if_pos rfl).symm, BitVec.not_le.mp hfull⟩

theorem chooseFile_known (h : s.Covers stored) :
    ∃ s₁ fUpdatedLast, s.chooseFile rounds pos nAddSize true = some (s₁, pos, fUpdatedLast) ∧
      s₁.Covers stored ∧ s₁.nLastBlockFile = pos.nFile ∧
      s₁.infoLastBlockFile = s.infoOf pos.nFile := by
  rw [chooseFile, if_pos rfl]
  split
  case isTrue hne =>
    exact ⟨_, _, rfl, h.setLastBlockFile _, rfl, (if_neg (Ne.symm hne)).symm⟩
  case isFalse heq =>
    have heq' := not_not.mp heq
    exact ⟨_, _, rfl, h, heq', (if_pos heq'.symm).symm⟩

theorem chooseFile_append (h : s.Covers stored)
    (hrun : s.chooseFile rounds pos nAddSize false = some (s₁, pos₁, fUpdatedLast)) :
    s₁.Covers stored ∧ s.nLastBlockFile ≤ s₁.nLastBlockFile ∧
      s₁.infoLastBlockFile = s.infoOf s₁.nLastBlockFile ∧
      s₁.infoLastBlockFile.nSize + nAddSize < maxBlockfileSize ∧
      pos₁ = ⟨s₁.nLastBlockFile, s₁.infoLastBlockFile.nSize.toNat⟩ := by
  rw [chooseFile, if_neg Bool.false_ne_true] at hrun
  obtain ⟨⟨s₂, b⟩, hleave, heq⟩ := Option.map_eq_some_iff.mp hrun
  obtain ⟨rfl, hpos⟩ := Prod.mk.inj heq
  obtain ⟨hcovers, hle, hinfo, hlt⟩ := leaveFull_spec h hleave
  exact ⟨hcovers, hle, hinfo, hlt, (Prod.mk.inj hpos).1.symm⟩

variable (disk fKnown pos fUpdatedLast) in
/-- What is counted may be stored in the file. -/
theorem saveBlockInfo_spec (h : s.Covers stored) :
    (saveBlockInfo disk fKnown s pos fUpdatedLast).1.Covers stored ∧
      ∀ pos', (saveBlockInfo disk fKnown s pos fUpdatedLast).2 = .ok pos' → pos' = pos ∧
        ∀ r : FileRecord, r.nFile = s.nLastBlockFile → r.stop ≤ s.infoLastBlockFile.size r.kind →
          (saveBlockInfo disk fKnown s pos fUpdatedLast).1.Covers (r :: stored) := by
  have hwrite : (s.writeBlockFileInfo s.nLastBlockFile s.infoLastBlockFile).Covers stored :=
    h.writeBlockFileInfo h.last
  have hplace : ∀ r : FileRecord, r.nFile = s.nLastBlockFile →
      r.stop ≤ s.infoLastBlockFile.size r.kind →
      (s.writeBlockFileInfo s.nLastBlockFile s.infoLastBlockFile).Covers (r :: stored) := by
    intro r hfile hstop
    refine hwrite.cons ?_ fun _ ↦ hstop
    rw [hfile, readBlockFileInfo, writeBlockFileInfo, Finmap.lookup_insert]
    exact hstop
  rw [saveBlockInfo]
  split
  case isTrue => exact ⟨h, fun pos' heq ↦ absurd heq (by simp)⟩
  case isFalse =>
    split
    case isTrue => exact ⟨h, fun pos' heq ↦ absurd heq (by simp)⟩
    case isFalse =>
      split
      case isTrue =>
        exact ⟨hwrite.writeLastBlockFile disk, fun pos' heq ↦ ⟨(Except.ok.inj heq).symm,
          fun r hfile hstop ↦ (hplace r hfile hstop).writeLastBlockFile disk⟩⟩
      case isFalse => exact ⟨hwrite, fun pos' heq ↦ ⟨(Except.ok.inj heq).symm, hplace⟩⟩

/-- The rest of `FindBlockPos`. -/
theorem findBlockPos_spec {r : Except String CDiskBlockPos}
    (hchoose : s.chooseFile rounds pos nAddSize fKnown = some (s₁, pos₁, fUpdatedLast))
    (h : s₁.Covers stored) (hlt : s₁.infoLastBlockFile.nSize.toNat + nAddSize.toNat < 2 ^ 32)
    (hrun : s.findBlockPos disk rounds pos nAddSize nHeight nTime fKnown = some (s', r)) :
    s'.Covers stored ∧ ∀ pos', r = .ok pos' → pos' = pos₁ ∧
      ∀ p ≤ s₁.infoLastBlockFile.nSize.toNat,
        s'.Covers (⟨.blk, s₁.nLastBlockFile, p, nAddSize.toNat⟩ :: stored) := by
  rw [findBlockPos, hchoose, Option.map_some] at hrun
  have hresult : saveBlockInfo disk fKnown
      (s₁.setInfo ((s₁.infoLastBlockFile.addSize nAddSize).addBlock nHeight nTime)) pos₁
      fUpdatedLast = (s', r) := Option.some.inj hrun
  generalize hinfo : (s₁.infoLastBlockFile.addSize nAddSize).addBlock nHeight nTime = info
    at hresult
  have hsize : info.size .blk = s₁.infoLastBlockFile.nSize.toNat + nAddSize.toNat := by
    rw [← hinfo, CBlockFileInfo.size_addBlock]
    exact BitVec.toNat_add_of_lt hlt
  have hset : (s₁.setInfo info).Covers stored := by
    refine h.setInfo fun kind ↦ ?_
    cases kind with
    | blk =>
        rw [hsize]
        exact Nat.le_add_right _ _
    | rev =>
        rw [← hinfo, CBlockFileInfo.size_addBlock]
        exact le_rfl
  obtain ⟨hnone, hsome⟩ := saveBlockInfo_spec disk pos₁ fKnown fUpdatedLast hset
  rw [hresult] at hnone hsome
  refine ⟨hnone, fun pos' hr ↦ ?_⟩
  obtain ⟨hpos, hall⟩ := hsome pos' hr
  refine ⟨hpos, fun p hp ↦ hall _ rfl ?_⟩
  change p + nAddSize.toNat ≤ info.size .blk
  rw [hsize]
  exact Nat.add_le_add_right hp _

theorem storeUndoSize_spec (h : s.Covers stored)
    (hlt : info.nUndoSize.toNat + nAddSize.toNat < 2 ^ 32)
    (hle : ∀ r ∈ stored, r.nFile = nFile → r.stop ≤ info.size r.kind)
    (hlast : nFile = s.nLastBlockFile → s.infoLastBlockFile = info.addUndo nAddSize) :
    (storeUndoSize disk nFile nAddSize s info).1.Covers stored ∧
      ∀ pos, (storeUndoSize disk nFile nAddSize s info).2 = .ok pos →
        pos = ⟨nFile, info.nUndoSize.toNat⟩ ∧
        (storeUndoSize disk nFile nAddSize s info).1.Covers
          (⟨.rev, nFile, info.nUndoSize.toNat, nAddSize.toNat⟩ :: stored) := by
  have hstop : FileRecord.stop ⟨.rev, nFile, info.nUndoSize.toNat, nAddSize.toNat⟩ ≤
      (info.addUndo nAddSize).size .rev := (BitVec.toNat_add_of_lt hlt).ge
  have hwrite : (s.writeBlockFileInfo nFile (info.addUndo nAddSize)).Covers stored :=
    h.writeBlockFileInfo fun r hr hfile ↦
      (hle r hr hfile).trans (CBlockFileInfo.size_le_addUndo hlt r.kind)
  rw [storeUndoSize]
  split
  case isTrue => exact ⟨h, fun pos heq ↦ absurd heq (by simp)⟩
  case isFalse =>
    split
    case isTrue => exact ⟨hwrite, fun pos heq ↦ absurd heq (by simp)⟩
    case isFalse =>
      refine ⟨hwrite, fun pos heq ↦ ⟨(Except.ok.inj heq).symm, hwrite.cons ?_ fun hfile ↦ ?_⟩⟩
      · rw [readBlockFileInfo, writeBlockFileInfo, Finmap.lookup_insert]
        exact hstop
      · rw [show (s.writeBlockFileInfo nFile (info.addUndo nAddSize)).infoLastBlockFile =
          info.addUndo nAddSize from hlast hfile]
        exact hstop

variable (disk) in
/-- `FindUndoPos`. -/
theorem findUndoPos_spec (h : s.Covers stored)
    (hlt : (s.infoOf nFile).nUndoSize.toNat + nAddSize.toNat < 2 ^ 32) :
    (s.findUndoPos disk nFile nAddSize).1.Covers stored ∧
      ∀ pos, (s.findUndoPos disk nFile nAddSize).2 = .ok pos →
        pos = ⟨nFile, (s.infoOf nFile).nUndoSize.toNat⟩ ∧
        (s.findUndoPos disk nFile nAddSize).1.Covers
          (⟨.rev, nFile, (s.infoOf nFile).nUndoSize.toNat, nAddSize.toNat⟩ :: stored) := by
  have hle : ∀ r ∈ stored, r.nFile = nFile → r.stop ≤ (s.infoOf nFile).size r.kind := by
    intro r hr hfile
    rw [← hfile]
    exact h.infoOf hr
  rw [findUndoPos]
  split
  case isTrue hlast =>
    rw [show s.infoOf nFile = s.infoLastBlockFile from if_pos hlast] at hlt hle ⊢
    exact storeUndoSize_spec (h.setInfo (CBlockFileInfo.size_le_addUndo hlt)) hlt hle fun _ ↦ rfl
  case isFalse hlast =>
    rw [show s.infoOf nFile = s.readBlockFileInfo nFile from if_neg hlast, readBlockFileInfo]
      at hlt hle ⊢
    cases hread : s.blockFileInfos.lookup nFile with
    | none => exact ⟨h, fun pos heq ↦ absurd heq (by simp)⟩
    | some info =>
        rw [hread, Option.getD_some] at hlt hle
        rw [Option.getD_some]
        exact storeUndoSize_spec h hlt hle fun heq ↦ absurd heq hlast

theorem Covers.loadLastBlockFile (h : s.Covers stored) : s.loadLastBlockFile.Covers stored := by
  refine ⟨h.db, fun r hr hlast ↦ ?_⟩
  have hdb := h.db r hr
  rw [hlast] at hdb
  exact hdb

end BlockFileState

/-! ## The calls -/

namespace FileCall

/-- A block that is known starts where the counted bytes of its file end or before, so that nothing
was skipped, and no size passes what an `unsigned int` holds. -/
def Safe (s : BlockSpace) : FileCall → Prop
  | known pos nAddSize _ _ _ =>
      pos.nPos ≤ (s.infoOf pos.nFile).nSize.toNat + 8 ∧
        (s.infoOf pos.nFile).nSize.toNat + nAddSize.toNat < 2 ^ 32
  | append nAddSize _ _ _ _ => ∀ nFile, s.nLastBlockFile ≤ nFile →
      (s.infoOf nFile).nSize.toNat + nAddSize.toNat < 2 ^ 32
  | undo nFile nAddSize _ => (s.infoOf nFile).nUndoSize.toNat + nAddSize.toNat < 2 ^ 32
  | load => True

/-- A call that finds a place. -/
theorem run_spec {s : BlockSpace} {call : FileCall} {s' : BlockFileState} {r : Option FileRecord}
    (h : s.Covers s.stored) (hsafe : call.Safe s) (hrun : call.run s = some (s', r)) :
    s'.Covers (r.toList ++ s.stored) ∧ (call.isKnown = false → ∀ r₀ ∈ r,
      (∀ r' ∈ s.stored, r'.kind = r₀.kind → r'.nFile = r₀.nFile → r'.stop ≤ r₀.nPos) ∧
      (r₀.kind = .blk → r₀.stop < maxBlockfileSize.toNat)) := by
  cases call with
  | known pos nAddSize nHeight nTime disk =>
      obtain ⟨⟨s₂, r₂⟩, hfind, heq⟩ := Option.map_eq_some_iff.mp hrun
      obtain ⟨rfl, rfl⟩ := Prod.mk.inj heq
      obtain ⟨hstart, hlt⟩ := hsafe
      obtain ⟨s₁, fUpdatedLast, hchoose, hcovers, hfile, hinfo⟩ := BlockFileState.chooseFile_known h
      rw [← hinfo] at hstart hlt
      obtain ⟨hnone, hsome⟩ := BlockFileState.findBlockPos_spec hchoose hcovers hlt hfind
      refine ⟨?_, fun hk ↦ absurd hk (by simp [isKnown])⟩
      cases r₂ with
      | error message => exact hnone
      | ok pos' =>
          obtain ⟨rfl, hall⟩ := hsome pos' rfl
          have hcons := hall (pos'.nPos - 8) (by omega)
          rwa [hfile] at hcons
  | append nAddSize nHeight nTime disk rounds =>
      obtain ⟨⟨s₂, r₂⟩, hfind, heq⟩ := Option.map_eq_some_iff.mp hrun
      obtain ⟨rfl, rfl⟩ := Prod.mk.inj heq
      obtain ⟨⟨s₁, pos₁, fUpdatedLast⟩, hchoose, -⟩ := Option.map_eq_some_iff.mp hfind
      obtain ⟨hcovers, hle, hinfo, hmax, rfl⟩ := BlockFileState.chooseFile_append h hchoose
      have hlt := hsafe s₁.nLastBlockFile hle
      rw [← hinfo] at hlt
      obtain ⟨hnone, hsome⟩ := BlockFileState.findBlockPos_spec hchoose hcovers hlt hfind
      cases r₂ with
      | error message => exact ⟨hnone, fun _ r₀ hr₀ ↦ absurd hr₀ (by simp [Except.toOption])⟩
      | ok pos' =>
          obtain ⟨rfl, hall⟩ := hsome pos' rfl
          refine ⟨hall _ le_rfl, fun _ r₀ hr₀ ↦ ?_⟩
          obtain rfl := Option.some.inj hr₀
          refine ⟨fun r' hr' hkind hfile ↦ ?_, fun _ ↦ ?_⟩
          · have hr := hcovers.last r' hr' hfile
            rwa [hkind] at hr
          · have hsum := BitVec.lt_def.mp hmax
            rwa [BitVec.toNat_add_of_lt hlt] at hsum
  | undo nFile nAddSize disk =>
      obtain ⟨hnone, hsome⟩ := BlockFileState.findUndoPos_spec disk h hsafe
      rw [run] at hrun
      generalize s.findUndoPos disk nFile nAddSize = found at hrun hnone hsome
      obtain ⟨s₂, r₂⟩ := found
      obtain ⟨rfl, rfl⟩ := Prod.mk.inj (Option.some.inj hrun)
      cases r₂ with
      | error message => exact ⟨hnone, fun _ r₀ hr₀ ↦ absurd hr₀ (by simp [Except.toOption])⟩
      | ok pos' =>
          obtain ⟨rfl, hcons⟩ := hsome pos' rfl
          refine ⟨hcons, fun _ r₀ hr₀ ↦ ?_⟩
          obtain rfl := Option.some.inj hr₀
          refine ⟨fun r' hr' hkind hfile ↦ ?_, fun hkind ↦ absurd hkind (by simp)⟩
          have hr := h.infoOf hr'
          rwa [hkind, hfile] at hr
  | load =>
      obtain ⟨rfl, rfl⟩ := Prod.mk.inj (Option.some.inj hrun)
      exact ⟨h.loadLastBlockFile, fun _ r₀ hr₀ ↦ absurd hr₀ (by simp)⟩

/-- A call, with what it has stored or indexed. -/
def Step (s : BlockSpace) (call : FileCall) (s' : BlockSpace) : Prop :=
  ∃ t r, call.run s = some (t, r) ∧ s' = { t with stored := r.toList ++ s.stored }

def SafeStep (s : BlockSpace) (call : FileCall) (s' : BlockSpace) : Prop :=
  call.Safe s ∧ Step s call s'

theorem covers_of_run {calls : List FileCall} {s : BlockSpace}
    (hrun : Run SafeStep {} calls s) : s.Covers s.stored := by
  refine hrun.invariant (I := fun s ↦ s.Covers s.stored) ?_ (BlockFileState.Covers.nil _)
  rintro s call s' h ⟨hsafe, t, r, hcall, rfl⟩
  exact (run_spec h hsafe hcall).1

end FileCall

/-- The loop over the full files ends at a file that is not in the database, if not before. -/
theorem BlockFileState.exists_leaveFull {nAddSize : BitVec 32} (hlt : nAddSize < maxBlockfileSize)
    (s : BlockFileState) (fUpdatedLast : Bool) :
    ∃ rounds r, leaveFull nAddSize rounds s fUpdatedLast = some r := by
  induction hcard : (s.blockFileInfos.keys.filter (s.nLastBlockFile < ·)).card
    using Nat.strong_induction_on generalizing s fUpdatedLast with
  | _ card ih =>
      by_cases hfull : maxBlockfileSize ≤ s.infoLastBlockFile.nSize + nAddSize
      · obtain ⟨rounds, r, hr⟩ : ∃ rounds r, leaveFull nAddSize rounds
            (s.setLastBlockFile (s.nLastBlockFile + 1)) true = some r := by
          cases hread : s.blockFileInfos.lookup (s.nLastBlockFile + 1) with
          | none =>
              refine ⟨1, _, if_neg ?_⟩
              rw [show (s.setLastBlockFile (s.nLastBlockFile + 1)).infoLastBlockFile = {} by
                rw [setLastBlockFile, readBlockFileInfo, hread]; rfl]
              change ¬ maxBlockfileSize ≤ 0#32 + nAddSize
              rw [BitVec.zero_add]
              exact BitVec.not_le.mpr hlt
          | some info =>
              refine ih _ ?_ _ true rfl
              rw [← hcard]
              refine Finset.card_lt_card ((Finset.ssubset_iff_of_subset ?_).mpr
                ⟨s.nLastBlockFile + 1, ?_, ?_⟩)
              · refine Finset.monotone_filter_right _ fun nFile _ hgt ↦ ?_
                exact (Int.lt_succ _).trans hgt
              · rw [Finset.mem_filter, Finmap.mem_keys, ← Finmap.lookup_isSome, hread]
                exact ⟨rfl, Int.lt_succ _⟩
              · rw [Finset.mem_filter]
                exact fun h ↦ lt_irrefl _ h.2
        exact ⟨rounds + 1, r, (if_pos hfull).trans hr⟩
      · exact ⟨1, _, if_neg hfull⟩

theorem BlockFileState.exists_findBlockPos {nAddSize : BitVec 32} (s : BlockFileState)
    (disk : DiskOutcome) (nHeight : BitVec 32) (nTime : BitVec 64)
    (hlt : nAddSize < maxBlockfileSize) :
    ∃ rounds found, s.findBlockPos disk rounds {} nAddSize nHeight nTime false = some found := by
  obtain ⟨rounds, ⟨s₁, fUpdatedLast⟩, hleave⟩ := s.exists_leaveFull hlt false
  have hchoose : s.chooseFile rounds {} nAddSize false =
      some (s₁, ⟨s₁.nLastBlockFile, s₁.infoLastBlockFile.nSize.toNat⟩, fUpdatedLast) := by
    rw [chooseFile, if_neg Bool.false_ne_true, hleave, Option.map_some]
  exact ⟨rounds, _, congrArg (Option.map _) hchoose⟩

/-- **No space is handed out twice.**  In a run of safe calls, the place for a new block or undo
record is clear of every record that was stored or indexed before, and so of every record in the
files if those of its file were all indexed, and no new block goes beyond the size of a file. -/
theorem blockSpace_disjoint {calls : List FileCall} {s : BlockSpace}
    (hrun : Run FileCall.SafeStep {} calls s) :
    (∀ call t r, FileCall.Safe s call → call.isKnown = false → call.run s = some (t, some r) →
      (∀ r' ∈ s.stored, r.Disjoint r') ∧
      (∀ onDisk : List FileRecord, (∀ r' ∈ onDisk, r'.nFile = r.nFile → r' ∈ s.stored) →
        ∀ r' ∈ onDisk, r.Disjoint r') ∧
      (r.kind = .blk → r.stop < maxBlockfileSize.toNat)) ∧
    ∀ nAddSize nHeight nTime disk, nAddSize < maxBlockfileSize →
      ∃ rounds t r, FileCall.run s (.append nAddSize nHeight nTime disk rounds) = some (t, r) := by
  have hcovers := FileCall.covers_of_run hrun
  constructor
  · intro call t r hsafe hnew hcall
    obtain ⟨-, hplace⟩ := FileCall.run_spec hcovers hsafe hcall
    obtain ⟨hbelow, hmax⟩ := hplace hnew r rfl
    have hdisjoint : ∀ r' ∈ s.stored, r.Disjoint r' := fun r' hr' hkind hfile ↦
      Or.inr (hbelow r' hr' hkind.symm hfile.symm)
    refine ⟨hdisjoint, fun onDisk hall r' hr' hkind hfile ↦ ?_, hmax⟩
    exact hdisjoint r' (hall r' hr' hfile.symm) hkind hfile
  · intro nAddSize nHeight nTime disk hlt
    obtain ⟨rounds, found, hfind⟩ := s.exists_findBlockPos disk nHeight nTime hlt
    exact ⟨rounds, _, _, congrArg (Option.map _) hfind⟩

/-- Two blocks that follow each other in a file. -/
def sampleFileBlocks : List FileRecord := [⟨.blk, 0, 0, 108⟩, ⟨.blk, 0, 108, 208⟩]

def sampleFirstCall : FileCall := .known ⟨0, 8⟩ 108 0 1000 {}

def sampleSecondCall : FileCall := .known ⟨0, 116⟩ 208 1 2000 {}

def sampleAppendCall : FileCall := .append 158 2 3000 {} 1

theorem blockSpace_disjoint_sample : ∃ s t, Run FileCall.SafeStep {}
    [sampleFirstCall, sampleSecondCall] s ∧
      sampleAppendCall.run s = some (t, some ⟨.blk, 0, 316, 158⟩) ∧
      ∀ r' ∈ s.stored, FileRecord.Disjoint ⟨.blk, 0, 316, 158⟩ r' := by
  have hrun : ∃ s t, Run FileCall.SafeStep {} [sampleFirstCall, sampleSecondCall] s ∧
      sampleAppendCall.run s = some (t, some ⟨.blk, 0, 316, 158⟩) ∧
      s.nLastBlockFile = 0 ∧ (s.infoOf 0).nSize = 316 ∧ s.blockFileInfos.keys = {0} := by
    refine ⟨_, _, .cons ⟨?_, _, _, rfl, rfl⟩ (.cons ⟨?_, _, _, rfl, rfl⟩ (.nil _)), rfl,
      rfl, rfl, ?_⟩
    · exact ⟨by decide +kernel, by decide +kernel⟩
    · exact ⟨by decide +kernel, by decide +kernel⟩
    · decide +kernel
  obtain ⟨s, t, hrun, hcall, hlast, hsize, hkeys⟩ := hrun
  have hsafe : sampleAppendCall.Safe s := by
    intro nFile _
    by_cases hfile : nFile = 0
    · rw [hfile]
      change (s.infoOf 0).nSize.toNat + 158 < 2 ^ 32
      rw [hsize]
      decide
    · have hnone : s.blockFileInfos.lookup nFile = none := by
        rw [Finmap.lookup_eq_none, ← Finmap.mem_keys, hkeys, Finset.mem_singleton]
        exact hfile
      change (s.infoOf nFile).nSize.toNat + 158 < 2 ^ 32
      rw [BlockFileState.infoOf, hlast, if_neg hfile, BlockFileState.readBlockFileInfo, hnone]
      decide
  exact ⟨s, t, hrun, hcall, ((blockSpace_disjoint hrun).1 _ _ _ hsafe rfl hcall).1⟩
/-- The first block is skipped, the second is indexed where it is, and the new block is put upon
it. -/
theorem blockSpace_overlap :
    sampleFileBlocks.Pairwise FileRecord.Disjoint ∧
    ∃ s t r, Run FileCall.Step {} [sampleSecondCall] s ∧
      sampleAppendCall.run s = some (t, some r) ∧
      ∃ r' ∈ s.stored, r' ∈ sampleFileBlocks ∧ ¬ r.Disjoint r' := by
  exact ⟨by decide, _, _, _, .cons ⟨_, _, rfl, rfl⟩ (.nil _), rfl, ⟨.blk, 0, 108, 208⟩,
    List.mem_cons_self, by decide, by decide⟩

end Fedoracoin
