import Fedoracoin.AnyStream
import Fedoracoin.BufferedFile
import Fedoracoin.Framing

/-!
# Importing a file of blocks

`LoadExternalBlockFile` looks for the message start in a file, and for a block behind it.  Where
there is none, it goes back to "start one byte further next time".  `Attempt.Right` is what one
iteration finds out about the file from the place that it starts from (`attempt_spec`): where no
record is, and the block of the record that it comes to.
-/

namespace Fedoracoin

open Wire AnyStream
open CMessageHeader (messageStartSize)

/-! ## The scan -/

/-- A block that was offered to `ProcessBlock`, between `nBlockPos` and `nEnd` in the file. -/
structure Offer where
  nBlockPos : Nat
  block : CBlock
  nEnd : Nat

/-- `Params().MessageStart()`, and `ProcessBlock`: what it returns after the blocks offered before,
and whether `state.IsError()` then holds.  An exception is neither. -/
structure ImportEnv where
  messageStart : List UInt8
  length_messageStart : messageStart.length = messageStartSize
  processBlock : List Offer → Offer → Bool × Bool

structure ScanState where
  blkdat : CBufferedFile
  nRewind : Nat
  nLoaded : Nat := 0
  offered : List Offer := []
  fError : Bool := false

/-- What one iteration comes to: no header was found, or none that is one, or one without a block,
or one with a block. -/
inductive Attempt where
  | stop (blkdat : CBufferedFile)
  | skip (blkdat : CBufferedFile) (nRewind : Nat)
  | broken (blkdat : CBufferedFile) (nRewind : Nat)
  | record (blkdat : CBufferedFile) (offer : Offer)

namespace ImportEnv

variable (env : ImportEnv) (n nStartByte : Nat)

/-- Reads the block behind a header. -/
def readBlock (blkdat : CBufferedFile) (nRewind nSize : Nat) : Option Attempt :=
  let nBlockPos := blkdat.nReadPos
  let blkdat := (blkdat.setLimit (nBlockPos + nSize)).2
  match unserializeBlock.exec (fun nSize blkdat ↦ blkdat.read nSize) blkdat with
  | none => none
  | some (.error _, blkdat) => some (.broken blkdat nRewind)
  | some (.ok block, blkdat) => some (.record blkdat ⟨nBlockPos, block, blkdat.nReadPos⟩)

/-- Reads the size behind the message start. -/
def readSize (blkdat : CBufferedFile) (nRewind : Nat) : Option Attempt :=
  match blkdat.read 4 with
  | none => none
  | some (.error _, blkdat) => some (.stop blkdat)
  | some (.ok data, blkdat) =>
      let nSize := ofBytes data
      if nSize < 80 ∨ maxBlockSize < nSize then some (.skip blkdat nRewind)
      else readBlock blkdat nRewind nSize

/-- Reads the message start whose first byte was found. -/
def readStart (blkdat : CBufferedFile) : Option Attempt :=
  let nRewind := blkdat.nReadPos + 1
  match blkdat.read messageStartSize with
  | none => none
  | some (.error _, blkdat) => some (.stop blkdat)
  | some (.ok buf, blkdat) =>
      if buf ≠ env.messageStart then some (.skip blkdat nRewind) else readSize blkdat nRewind

/-- Goes to `nRewind`, and locates a header from there on.  The `nRewind++` before would count only
if `FindByte` throws, and that ends the loop. -/
def attempt (blkdat : CBufferedFile) (nRewind : Nat) : Option Attempt :=
  let blkdat := (blkdat.setPos nRewind).2
  let blkdat := (blkdat.setLimit noLimit).2
  match CBufferedFile.findByte (env.messageStart.headD 0) n blkdat with
  | none => none
  | some (.error _, blkdat) => some (.stop blkdat)
  | some (.ok _, blkdat) => env.readStart blkdat

/-- Processes a block that was read. -/
def offerBlock (s : ScanState) (offer : Offer) : ScanState ⊕ ScanState :=
  let r := env.processBlock s.offered offer
  let s := { s with
    offered := s.offered ++ [offer]
    nLoaded := if r.1 then s.nLoaded + 1 else s.nLoaded
    fError := r.2 }
  if r.2 then .inl s else .inr s

/-- An iteration of the loop of `LoadExternalBlockFile`. -/
def scanBody (s : ScanState) : Option (ScanState ⊕ ScanState) :=
  if s.blkdat.good && !s.blkdat.eof then
    match env.attempt n s.blkdat s.nRewind with
    | none => none
    | some (.stop blkdat) => some (.inl { s with blkdat })
    | some (.skip blkdat nRewind) => some (.inr { s with blkdat, nRewind })
    | some (.broken blkdat nRewind) => some (.inr { s with blkdat, nRewind })
    | some (.record blkdat offer) =>
        let s := { s with blkdat, nRewind := offer.nEnd }
        if nStartByte ≤ offer.nBlockPos then some (env.offerBlock s offer) else some (.inr s)
  else some (.inl s)

/-- The scan starts where the buffered file is. -/
def scanFrom (blkdat : CBufferedFile) : ScanState := { blkdat, nRewind := blkdat.nReadPos }

/-- The start of the scan, behind the part of the file that is already indexed, if its size is
known. -/
def scanStart (fileIn : FileStream) : Option UInt32 → ScanState
  | none => scanFrom (.init fileIn (2 * maxBlockSize) (maxBlockSize + 8))
  | some nSize =>
      scanFrom ((CBufferedFile.init fileIn (2 * maxBlockSize) (maxBlockSize + 8)).seek
        nSize.toNat).2

/-- The loop, of at most `n` iterations. -/
def scanBlocks (fileIn : FileStream) (info : Option UInt32) : Option ScanState :=
  Loop.run (env.scanBody n (info.getD 0).toNat) n (scanStart fileIn info)

/-- `LoadExternalBlockFile`. -/
def loadExternalBlockFile (fileIn : FileStream) (info : Option UInt32) : Option Bool := do
  let s ← env.scanBlocks n fileIn info
  return 0 < s.nLoaded

end ImportEnv

/-! ## Records -/

section

variable {env : ImportEnv} {content : List UInt8} {p : Nat} {block : CBlock}

/-- The size that stands behind a message start at `p`. -/
def recordSize (content : List UInt8) (p : Nat) : Nat := ofBytes ((content.drop (p + 4)).take 4)

/-- At `p` there is the message start, a size within bounds, and a block of no more than that. -/
structure IsRecord (env : ImportEnv) (content : List UInt8) (p : Nat) (block : CBlock) : Prop where
  messageStart : (content.drop p).take messageStartSize = env.messageStart
  least : 80 ≤ recordSize content p
  most : recordSize content p ≤ maxBlockSize
  unserialize : ∃ rest, CBlock.unserialize
    ((content.drop (p + 8)).take (recordSize content p)) = .ok (block, rest)

/-- The block is the program of a block at work. -/
theorem IsRecord.onList (h : IsRecord env content p block) :
    ∃ rest, unserializeBlock.onList "CDataStream::read() : end of data"
      ((content.drop (p + 8)).take (recordSize content p)) = .ok (block, rest) := by
  obtain ⟨rest, hrest⟩ := h.unserialize
  rw [← onBytes_unserializeBlock] at hrest
  exact ⟨rest, hrest⟩

/-- The program asks for 4 bytes and for 32 at first. -/
theorem fits_unserializeBlock {b : Nat} {w : List UInt8} (hb : 32 ≤ b) (hw : w.length ≤ b + 8) :
    unserializeBlock.Fits b w := by
  intro h₁
  refine ⟨by omega, fun h₂ ↦ ⟨hb, ReadProgram.fits_of_length_le _ ?_⟩⟩
  rw [List.length_drop] at h₂
  rw [List.length_drop, List.length_drop]
  omega

/-- A record has a block behind its header. -/
theorem IsRecord.lt_length (h : IsRecord env content p block) : p + 8 < content.length := by
  obtain ⟨rest, hrest⟩ := h.onList
  by_contra hge
  rw [List.drop_eq_nil_of_le (Nat.not_lt.mp hge), List.take_nil] at hrest
  cases hrest

/-- The first byte of a message start. -/
theorem getElem?_of_messageStart
    (hstart : (content.drop p).take messageStartSize = env.messageStart)
    (hlt : p < content.length) : content[p]? = some (env.messageStart.headD 0) := by
  rw [List.drop_eq_getElem_cons hlt] at hstart
  rw [← hstart, List.getElem?_eq_getElem hlt]
  rfl

theorem IsRecord.getElem? (h : IsRecord env content p block) :
    content[p]? = some (env.messageStart.headD 0) := by
  have hlt := h.lt_length
  exact getElem?_of_messageStart h.messageStart (by omega)

end

/-! ## One iteration -/

/-- The buffered file of the scan of a file with some content, from `base` on. -/
structure Scanning (content : List UInt8) (base : Nat) (f : CBufferedFile) : Prop where
  window : f.Window base
  content_eq : f.src.content = content
  nRewind_eq : f.nRewind = maxBlockSize + 8
  size_eq : f.vchBuf.length = 2 * maxBlockSize

section

variable {env : ImportEnv} {content : List UInt8} {base n p q h r nSize : Nat} {b : Bool}
  {block : CBlock} {f g : CBufferedFile}

theorem Scanning.moves (hs : Scanning content base f) (hm : f.Moves base g) :
    Scanning content base g where
  window := hm.window
  content_eq := hm.content.trans hs.content_eq
  nRewind_eq := hm.rewind.trans hs.nRewind_eq
  size_eq := hm.size.trans hs.size_eq

/-- Positions in the file are far from the end of their type. -/
theorem Scanning.lt_noLimit (hs : Scanning content base f) (hbase : base < 2 ^ 32) :
    f.nReadPos + 8 < noLimit := by
  have hread := hs.window.read_le
  have hsrc := hs.window.src_le
  have hlen := f.src.length_lt
  have hmax : noLimit = 2 ^ 64 - 1 := rfl
  omega

theorem Scanning.setLimit (hs : Scanning content base f) {nLimit : Nat}
    (hle : f.nReadPos ≤ nLimit) :
    (f.setLimit nLimit).2 = { f with nReadLimit := nLimit } ∧
      Scanning content base { f with nReadLimit := nLimit } := by
  refine ⟨?_, ⟨?_, hs.content_eq, hs.nRewind_eq, hs.size_eq⟩⟩
  · rw [CBufferedFile.setLimit, if_neg (Nat.not_lt.mpr hle)]
  · have hw := hs.window
    exact ⟨hw.rewind_lt, hw.size_le, hw.pos_eq, hw.base_le, hw.read_le, hw.ahead_le, hw.src_le,
      hw.eof_le, hw.holds⟩

/-- What a read that does not throw leaves. -/
theorem Scanning.read_ok {data : List UInt8} (hs : Scanning content base f)
    (hrun : f.read n = some (.ok data, g)) : Scanning content base g ∧ g.failbit = f.failbit := by
  obtain ⟨r, g', hrun', hmoves, hcases⟩ := CBufferedFile.read_spec hs.window n
  rw [hrun] at hrun'
  obtain ⟨rfl, rfl⟩ := Prod.mk.inj (Option.some.inj hrun')
  rcases hcases with ⟨-, -, -, hfail⟩ | ⟨e, he, -⟩
  · exact ⟨hs.moves hmoves, hfail⟩
  · cases he

/-- The buffered file stands in front of the bytes up to its limit. -/
structure InFront (content : List UInt8) (base : Nat) (b : Bool) (f : CBufferedFile)
    (w : List UInt8) : Prop where
  scanning : Scanning content base f
  read_le : f.nReadPos ≤ f.nReadLimit
  failbit_eq : f.failbit = b
  eq : w = (content.drop f.nReadPos).take (f.nReadLimit - f.nReadPos)

/-- It gives those bytes, if they are not asked for all at once. -/
theorem InFront.read {w : List UInt8} (hf : InFront content base b f w) (hn : n ≤ w.length)
    (hle : n ≤ maxBlockSize - 8) :
    ∃ g, f.read n = some (.ok (w.take n), g) ∧ InFront content base b g (w.drop n) := by
  have hs := hf.scanning
  have hread := hf.read_le
  have hrewind := hs.nRewind_eq
  have hsize := hs.size_eq
  have hmax : maxBlockSize = 1000000 := rfl
  have hw := hf.eq
  have hlen : n ≤ min (f.nReadLimit - f.nReadPos) (content.length - f.nReadPos) := by
    rw [hw, List.length_take, List.length_drop] at hn
    exact hn
  obtain ⟨r, g, hrun, hmoves, ⟨rfl, hin, hpos, hfail⟩ | ⟨e, -, hbad⟩⟩ :=
    CBufferedFile.read_spec hs.window n
  · refine ⟨g, ?_, hs.moves hmoves, ?_, hfail.trans hf.failbit_eq, ?_⟩
    · rw [hrun, hs.content_eq, hw, List.take_take, Nat.min_eq_left (by omega)]
    · rw [hmoves.limit, hpos]
      omega
    · rw [hw, hmoves.limit, hpos, List.drop_take, List.drop_drop, Nat.sub_sub]
  · rw [hs.content_eq] at hbad
    omega

/-- What is asked for beyond the end of the file sets the failbit. -/
theorem InFront.read_end {w : List UInt8} (hf : InFront content base b f w) (hn : w.length < n)
    (hle : n ≤ maxBlockSize - 8) (hbase : base ≤ content.length)
    (hfar : content.length + n ≤ f.nReadLimit) :
    ∃ e g, f.read n = some (.error e, g) ∧ g.failbit = true := by
  have hs := hf.scanning
  have hrewind := hs.nRewind_eq
  have hsize := hs.size_eq
  have hmax : maxBlockSize = 1000000 := rfl
  have hread := hs.window.read_le
  have hsrc := hs.window.src_le
  rw [hs.content_eq] at hsrc
  have hlen : min (f.nReadLimit - f.nReadPos) (content.length - f.nReadPos) < n := by
    rw [hf.eq, List.length_take, List.length_drop] at hn
    exact hn
  obtain ⟨r, g, hrun, -, ⟨rfl, hin, -, -⟩ | ⟨e, rfl, hbad⟩⟩ := CBufferedFile.read_spec hs.window n
  · rw [hs.content_eq] at hin
    omega
  · refine ⟨e, g, hrun, ?_⟩
    rcases hbad with hlimit | hlarge | ⟨-, hfail⟩
    · omega
    · omega
    · exact hfail

/-- No record starts from `q` up to `r`. -/
def Clear (env : ImportEnv) (content : List UInt8) (q r : Nat) : Prop :=
  ∀ p block, q ≤ p → p < r → ¬ IsRecord env content p block

theorem Clear.succ (hc : Clear env content q h) (hno : ∀ block, ¬ IsRecord env content h block) :
    Clear env content q (h + 1) := by
  intro p block hq hlt
  rcases Nat.lt_succ_iff_lt_or_eq.mp hlt with hlt | rfl
  · exact hc p block hq hlt
  · exact hno block

/-- There is a header at `p`, but no block behind it. -/
structure IsFalseRecord (env : ImportEnv) (content : List UInt8) (p : Nat) : Prop where
  messageStart : (content.drop p).take messageStartSize = env.messageStart
  least : 80 ≤ recordSize content p
  most : recordSize content p ≤ maxBlockSize
  not_isRecord : ∀ block, ¬ IsRecord env content p block

/-- There is a header at `p`, and the file ends in the block behind it, which is read in pieces of
at most `k` bytes. -/
structure IsCutShort (env : ImportEnv) (content : List UInt8) (p k : Nat) : Prop where
  messageStart : (content.drop p).take messageStartSize = env.messageStart
  least : 80 ≤ recordSize content p
  most : recordSize content p ≤ maxBlockSize
  runsOut : unserializeBlock.RunsOut k (content.drop (p + 8))
  piece_le : k ≤ maxBlockSize - 8
  far : content.length + k ≤ p + 8 + recordSize content p

/-- What an iteration that goes to `q` may say. -/
def Attempt.Right (env : ImportEnv) (content : List UInt8) (base q : Nat) (b : Bool) :
    Attempt → Prop
  | stop _ => ∀ p block, q ≤ p → ¬ IsRecord env content p block
  | skip g r => Scanning content base g ∧ q < r ∧ r ≤ g.nSrcPos ∧ Clear env content q r ∧
      g.failbit = b ∧ g.nSrcPos ≤ r + g.nRewind ∧
      (g.eof = true → ∀ p block, r ≤ p → ¬ IsRecord env content p block)
  | broken g r => Scanning content base g ∧ r ≤ g.nSrcPos ∧ Clear env content q r ∧
      ∃ h, q ≤ h ∧ r = h + 1 ∧ IsFalseRecord env content h
  | record g offer => Scanning content base g ∧ g.nReadPos = offer.nEnd ∧
      q + 8 ≤ offer.nBlockPos ∧ offer.nBlockPos ≤ offer.nEnd ∧ g.failbit = b ∧
      Clear env content q (offer.nBlockPos - 8) ∧
      ∀ block, IsRecord env content (offer.nBlockPos - 8) block → block = offer.block

/-- A header may start at `h`, of which the first `k` bytes have been read. -/
structure AtHeader (env : ImportEnv) (content : List UInt8) (base q : Nat) (b : Bool) (h k : Nat)
    (f : CBufferedFile) : Prop where
  scanning : Scanning content base f
  limit_eq : f.nReadLimit = noLimit
  clear : Clear env content q h
  le : q ≤ h
  read_eq : f.nReadPos = h + k
  lt_src : h < f.nSrcPos
  src_le : f.nSrcPos ≤ h + 1 + f.nRewind
  failbit_eq : f.failbit = b

/-- At the end of the file there is no room for a block. -/
theorem not_isRecord_of_eof (hs : Scanning content base f) (heof : f.eof = true)
    (hle : f.nReadPos ≤ p + 8) : ¬ IsRecord env content p block := by
  intro hrec
  have hlt := hrec.lt_length
  rw [CBufferedFile.eof, Bool.and_eq_true, decide_eq_true_eq] at heof
  have hend := hs.window.eof_le heof.2
  rw [hs.content_eq] at hend
  omega

theorem AtHeader.right_skip {k : Nat} (ha : AtHeader env content base q b h k f) (hk : k ≤ 8)
    (hno : ∀ block, ¬ IsRecord env content h block) :
    (Attempt.skip f (h + 1)).Right env content base q b := by
  refine ⟨ha.scanning, Nat.lt_succ_of_le ha.le, ha.lt_src, ha.clear.succ hno, ha.failbit_eq,
    ha.src_le, fun heof p block hp ↦ ?_⟩
  have hread := ha.read_eq
  exact not_isRecord_of_eof ha.scanning heof (by omega)

/-- Four more bytes of a header, unless the file ends. -/
theorem AtHeader.read {k : Nat} (ha : AtHeader env content base q b h k f) (hk : k ≤ 4)
    (hbase : base < 2 ^ 32) :
    (∃ g, f.read 4 = some (.ok ((content.drop (h + k)).take 4), g) ∧
        AtHeader env content base q b h (k + 4) g) ∨
      ∃ e g, f.read 4 = some (.error e, g) ∧
        ∀ p block, q ≤ p → ¬ IsRecord env content p block := by
  have hs := ha.scanning
  have hread := ha.read_eq
  have hrewind := hs.nRewind_eq
  have hsize := hs.size_eq
  have hlimit := ha.limit_eq
  have hfar := hs.lt_noLimit hbase
  have hsrc := ha.src_le
  have hmax : maxBlockSize = 1000000 := rfl
  obtain ⟨r, g, hrun, hmoves, ⟨rfl, hin, hpos, hfail⟩ | ⟨e, rfl, hbad⟩⟩ :=
    CBufferedFile.read_spec hs.window 4
  · left
    have hmsrc := hmoves.src_le
    have hgrewind := hmoves.rewind
    have hgread := hmoves.window.read_le
    refine ⟨g, ?_, hs.moves hmoves, ?_, ha.clear, ha.le, ?_, ?_, ?_, hfail.trans ha.failbit_eq⟩
    · rw [hrun, hs.content_eq, hread]
    · rw [hmoves.limit, hlimit]
    · omega
    · omega
    · omega
  · right
    refine ⟨e, g, hrun, fun p block hq hrec ↦ ?_⟩
    rw [hs.content_eq] at hbad
    have hlt := hrec.lt_length
    rcases Nat.lt_or_ge p h with hbefore | hafter
    · exact ha.clear p block hq hbefore hrec
    · omega

/-- **The block behind a header**: it is read if there is one. -/
theorem readBlock_spec (ha : AtHeader env content base q b h 8 f)
    (hstart : (content.drop h).take messageStartSize = env.messageStart)
    (hsize : recordSize content h = nSize) (hleast : 80 ≤ nSize) (hmost : nSize ≤ maxBlockSize) :
    ∃ a, ImportEnv.readBlock f (h + 1) nSize = some a ∧ a.Right env content base q b := by
  have hs := ha.scanning
  obtain ⟨hset, hs'⟩ := hs.setLimit (Nat.le_add_right f.nReadPos nSize)
  have hread := ha.read_eq
  have hfront : InFront content base b { f with nReadLimit := f.nReadPos + nSize }
      ((content.drop (h + 8)).take nSize) := by
    refine ⟨hs', Nat.le_add_right _ _, ha.failbit_eq, ?_⟩
    simp only [hread, Nat.add_sub_cancel_left]
  have hrec {block : CBlock} (hrec : IsRecord env content h block) :
      ∃ g, unserializeBlock.exec (fun nSize f ↦ f.read nSize)
        { f with nReadLimit := f.nReadPos + nSize } = some (.ok block, g) := by
    obtain ⟨rest, hrest⟩ := hrec.onList
    rw [hsize] at hrest
    have hmax : maxBlockSize = 1000000 := rfl
    have hfits : unserializeBlock.Fits (maxBlockSize - 8) ((content.drop (h + 8)).take nSize) := by
      apply fits_unserializeBlock (by omega)
      rw [List.length_take]
      omega
    obtain ⟨g, hexec, -⟩ := ReadProgram.exec_of_onList
      (fun n f w hf hn hle ↦ InFront.read hf hn hle) unserializeBlock hfront hfits hrest
    exact ⟨g, hexec⟩
  obtain ⟨r, g, hexec, hs'', hle⟩ := ReadProgram.exec_spec
    (I := fun g ↦ Scanning content base g ∧ h + 8 ≤ g.nReadPos) (fun n g hg ↦ by
      obtain ⟨r, g', hrun, hmoves, -⟩ := CBufferedFile.read_spec hg.1.window n
      exact ⟨r, g', hrun, hg.1.moves hmoves, hg.2.trans hmoves.read_le⟩) unserializeBlock
    ⟨hs', hread.ge⟩
  rw [ImportEnv.readBlock]
  simp only [hset, hexec]
  cases r with
  | error e =>
      have hno (block : CBlock) : ¬ IsRecord env content h block := by
        intro hblock
        obtain ⟨g', hg'⟩ := hrec hblock
        rw [hexec] at hg'
        cases hg'
      have hgread := hs''.window.read_le
      refine ⟨_, rfl, hs'', by omega, ha.clear.succ hno, h, ha.le, rfl, hstart, ?_, ?_, hno⟩
      · rw [hsize]
        exact hleast
      · rw [hsize]
        exact hmost
  | ok block =>
      have hblockpos : f.nReadPos - 8 = h := by rw [hread, Nat.add_sub_cancel]
      have hq := ha.le
      refine ⟨_, rfl, hs'', rfl, ?_, ?_, ?_, ?_, ?_⟩
      · simp only
        omega
      · simp only
        omega
      · have hkept := ReadProgram.exec_ok_invariant
          (I := fun g ↦ Scanning content base g ∧ g.failbit = b) (fun n g data g' hg hrun ↦
            ⟨(hg.1.read_ok hrun).1, (hg.1.read_ok hrun).2.trans hg.2⟩) unserializeBlock
          ⟨hs', ha.failbit_eq⟩ hexec
        exact hkept.2
      · simp only [hblockpos]
        exact ha.clear
      · simp only [hblockpos]
        intro block' hblock'
        obtain ⟨g', hg'⟩ := hrec hblock'
        rw [hexec] at hg'
        cases hg'
        rfl

theorem readSize_spec (ha : AtHeader env content base q b h 4 f)
    (hstart : (content.drop h).take messageStartSize = env.messageStart) (hbase : base < 2 ^ 32) :
    ∃ a, ImportEnv.readSize f (h + 1) = some a ∧ a.Right env content base q b := by
  rw [ImportEnv.readSize]
  rcases ha.read le_rfl hbase with ⟨g, hread, hg⟩ | ⟨e, g, hread, hnone⟩
  · rw [hread]
    simp only
    split
    case isTrue hbad =>
        refine ⟨_, rfl, hg.right_skip le_rfl fun block hrec ↦ ?_⟩
        have hleast := hrec.least
        have hmost := hrec.most
        rw [recordSize] at hleast hmost
        omega
    case isFalse hok =>
        rw [not_or, Nat.not_lt, Nat.not_lt] at hok
        exact readBlock_spec hg hstart rfl hok.1 hok.2
  · rw [hread]
    exact ⟨_, rfl, hnone⟩

theorem readStart_spec (ha : AtHeader env content base q b h 0 f) (hbase : base < 2 ^ 32) :
    ∃ a, env.readStart f = some a ∧ a.Right env content base q b := by
  rw [ImportEnv.readStart]
  rcases ha.read (Nat.zero_le _) hbase with ⟨g, hread, hg⟩ | ⟨e, g, hread, hnone⟩
  · have hpos : f.nReadPos + 1 = h + 1 := by rw [ha.read_eq, Nat.add_zero]
    have hfour : messageStartSize = 4 := rfl
    rw [hfour, hread, hpos]
    simp only
    split
    case isTrue hbad =>
        refine ⟨_, rfl, hg.right_skip (by omega) fun block hrec ↦ ?_⟩
        exact hbad hrec.messageStart
    case isFalse hok => exact readSize_spec hg (not_not.mp hok) hbase
  · have hfour : messageStartSize = 4 := rfl
    rw [hfour, hread]
    exact ⟨_, rfl, hnone⟩

/-- **One iteration** ends.  It goes to `r` if the buffer reaches that far back, and on
otherwise. -/
theorem attempt_spec (env : ImportEnv) (hs : Scanning content base f) (hbase : base < 2 ^ 32)
    (hr : base ≤ r) (hsrc : r ≤ f.nSrcPos) (hn : content.length < n) :
    ∃ a q, env.attempt n f r = some a ∧ r ≤ q ∧ a.Right env content base q f.failbit ∧
      (f.nSrcPos ≤ r + f.nRewind → q = r) := by
  obtain ⟨b, q, hset, hle, hw, hback⟩ := CBufferedFile.setPos_spec hs.window hr hsrc
  have hs₁ : Scanning content base { f with nReadPos := q } :=
    ⟨hw, hs.content_eq, hs.nRewind_eq, hs.size_eq⟩
  have hfar : q + 8 < noLimit := hs₁.lt_noLimit hbase
  have hlow : q ≤ noLimit := by omega
  obtain ⟨hlimit, hs₂⟩ := hs₁.setLimit hlow
  obtain ⟨r', g, hfind, hmoves, hcases⟩ := CBufferedFile.findByte_spec hs₂.window
    (env.messageStart.headD 0) (n := n) (by rw [hs₂.content_eq]; omega)
  rw [hs₂.content_eq] at hcases
  have hclear {e : Nat} (hno : ∀ p, q ≤ p → p < e → content[p]? ≠ some (env.messageStart.headD 0)) :
      Clear env content q e := fun p block hq hlt hrec ↦ hno p hq hlt hrec.getElem?
  rw [ImportEnv.attempt, hset, hlimit, hfind]
  rcases hcases with ⟨rfl, hat, hlt, hno, hfail⟩ | ⟨e, rfl, hno⟩
  · have hg := hs₂.moves hmoves
    have hahead := hg.window.ahead_le
    have hrewind := hg.nRewind_eq
    have hsize := hg.size_eq
    have hmax : maxBlockSize = 1000000 := rfl
    have hheader : AtHeader env content base q f.failbit g.nReadPos 0 g :=
      ⟨hg, hmoves.limit, hclear hno, hmoves.read_le, rfl, hlt, by omega, hfail⟩
    obtain ⟨a, ha, hright⟩ := readStart_spec hheader hbase
    exact ⟨a, q, ha, hle, hright, hback⟩
  · exact ⟨_, q, rfl, hle, fun p block hq hrec ↦ hno p hq hrec.getElem?, hback⟩

/-! ## The end of the file -/

/-- **A block that the file ends in** is read to the end of the file. -/
theorem readBlock_of_isCutShort {k : Nat} (ha : AtHeader env content base q b h 8 f)
    (hcut : IsCutShort env content h k) (hbase : base ≤ content.length) (r : Nat) :
    ∃ g, ImportEnv.readBlock f r (recordSize content h) = some (.broken g r) ∧
      g.good = false := by
  have hs := ha.scanning
  have hfar := hcut.far
  obtain ⟨hset, hs'⟩ := hs.setLimit (Nat.le_add_right f.nReadPos (recordSize content h))
  have hread := ha.read_eq
  have hfront : InFront content base b { f with nReadLimit := f.nReadPos + recordSize content h }
      (content.drop (h + 8)) := by
    refine ⟨hs', Nat.le_add_right _ _, ha.failbit_eq, ?_⟩
    simp only [hread, Nat.add_sub_cancel_left]
    rw [List.take_of_length_le]
    rw [List.length_drop]
    omega
  obtain ⟨e, g, hexec, hfail⟩ := ReadProgram.exec_of_runsOut (P := fun g ↦ g.failbit = true)
    (S := fun f w ↦ InFront content base b f w ∧ content.length + k ≤ f.nReadLimit)
    (fun n f w hf hn hle ↦ by
      obtain ⟨g, hrun, hg⟩ := hf.1.read hn (hle.trans hcut.piece_le)
      obtain ⟨r, g', hrun', hmoves, -⟩ := CBufferedFile.read_spec hf.1.scanning.window n
      rw [hrun] at hrun'
      obtain ⟨-, rfl⟩ := Prod.mk.inj (Option.some.inj hrun')
      exact ⟨g, hrun, hg, hmoves.limit ▸ hf.2⟩)
    (fun n f w hf hn hle ↦ hf.1.read_end hn (hle.trans hcut.piece_le) hbase
      ((Nat.add_le_add_left hle _).trans hf.2))
    unserializeBlock ⟨hfront, by rw [hread]; exact hfar⟩ hcut.runsOut
  refine ⟨g, ?_, by rw [CBufferedFile.good, hfail]; rfl⟩
  rw [ImportEnv.readBlock]
  simp only [hset, hexec]

/-- An iteration from there on leaves a file that can no longer be read, though there is a record
still. -/
theorem attempt_of_isCutShort {k : Nat} (env : ImportEnv) (hs : Scanning content base f)
    (hbase : base < 2 ^ 32) (hr : base ≤ r) (hsrc : r ≤ f.nSrcPos)
    (hback : f.nSrcPos ≤ r + f.nRewind) (hn : content.length < n)
    (hcut : IsCutShort env content r k) (hrec : IsRecord env content p block) (hp : r ≤ p) :
    ∃ g, env.attempt n f r = some (.broken g (r + 1)) ∧ g.good = false := by
  have hlt := hrec.lt_length
  have hset := CBufferedFile.setPos_eq hback hsrc
  have hs₁ : Scanning content base { f with nReadPos := r } :=
    ⟨hs.window.move hr hsrc hback, hs.content_eq, hs.nRewind_eq, hs.size_eq⟩
  have hfar : r + 8 < noLimit := hs₁.lt_noLimit hbase
  have hlow : r ≤ noLimit := by omega
  obtain ⟨hlimit, hs₂⟩ := hs₁.setLimit hlow
  obtain ⟨r', g, hfind, hmoves, hcases⟩ := CBufferedFile.findByte_spec hs₂.window
    (env.messageStart.headD 0) (n := n) (by rw [hs₂.content_eq]; omega)
  rw [hs₂.content_eq] at hcases
  have hfirst : content[r]? = some (env.messageStart.headD 0) :=
    getElem?_of_messageStart hcut.messageStart (by omega)
  rw [ImportEnv.attempt, hset, hlimit, hfind]
  rcases hcases with ⟨rfl, -, hltsrc, hno, hfail⟩ | ⟨e, rfl, hno⟩
  · have hat : g.nReadPos = r := by
      refine (Nat.le_antisymm ?_ hmoves.read_le)
      by_contra hover
      exact hno r le_rfl (Nat.not_le.mp hover) hfirst
    have hg := hs₂.moves hmoves
    have hahead := hg.window.ahead_le
    have hrewind := hg.nRewind_eq
    have hsize := hg.size_eq
    have hmax : maxBlockSize = 1000000 := rfl
    have hheader : AtHeader env content base r f.failbit r 0 g :=
      ⟨hg, hmoves.limit, fun p' _ hle hlt ↦ absurd hlt (Nat.not_lt.mpr hle), le_rfl, hat,
        hat ▸ hltsrc, by omega, hfail⟩
    -- what is read of the header is there, because a record is behind it
    rcases hheader.read (Nat.zero_le _) hbase with ⟨g₁, hread₁, hg₁⟩ | ⟨e, g₁, -, hnone⟩
    · rcases hg₁.read le_rfl hbase with ⟨g₂, hread₂, hg₂⟩ | ⟨e, g₂, -, hnone⟩
      · obtain ⟨g₃, hbroken, hgood⟩ := readBlock_of_isCutShort hg₂ hcut (by omega) (r + 1)
        refine ⟨g₃, ?_, hgood⟩
        have hfour : messageStartSize = 4 := rfl
        have hbuf : (content.drop (r + 0)).take 4 = env.messageStart := hcut.messageStart
        have hsizes : ¬ (ofBytes ((content.drop (r + (0 + 4))).take 4) < 80 ∨
            maxBlockSize < ofBytes ((content.drop (r + (0 + 4))).take 4)) := by
          rw [not_or, Nat.not_lt, Nat.not_lt]
          exact ⟨hcut.least, hcut.most⟩
        simp only [ImportEnv.readStart, ImportEnv.readSize, hfour, hread₁, hbuf, hread₂, hat]
        rw [if_neg (not_not.mpr rfl), if_neg hsizes]
        exact hbroken
      · exact absurd hrec (hnone p block hp)
    · exact absurd hrec (hnone p block hp)
  · exact absurd hfirst (hno r le_rfl)

end

end Fedoracoin
