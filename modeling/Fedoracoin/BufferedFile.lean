import Fedoracoin.Core
import Fedoracoin.Lib.RingBuffer

/-!
# Buffered files

`CBufferedFile`, a ring buffer before a file that "guarantees the ability to rewind a given number
of bytes".  `Window` is its invariant: what the buffer holds is the file from the last `Seek` on, as
far as it reaches back.  Every operation keeps it, and with it reads give the bytes of the file, but
for rewinds.  `SetPos` counts the guaranteed bytes back from what has been read from the file, not
from what has been read from the buffer, and so refuses to rewind over less than the guarantee once
`Fill` has read ahead; and behind a `Seek` the buffer holds something else.  The runs whose rewinds
do neither are faithful to the file (`CBufferedFile.faithful_of_allMeet`).

A call has no value where the source divides by zero or does not end, and what it throws comes with
the state that it leaves.
-/

namespace Fedoracoin

/-! ## The file -/

/-- What is used of a `FILE`.  Offsets in a file are `long`. -/
structure FileStream where
  content : List UInt8
  length_lt : content.length < 2 ^ 63
  pos : Nat := 0
  feof : Bool := false

namespace FileStream

/-- `fread` gets fewer bytes only at the end of the file, which is then known. -/
def fread (src : FileStream) (n : Nat) : List UInt8 × FileStream :=
  let data := (src.content.drop src.pos).take n
  (data, { src with pos := src.pos + data.length, feof := src.feof || decide (data.length < n) })

/-- `fseek` from the start of the file, and `ftell`.  It fails for a negative offset. -/
def fseek (src : FileStream) (nLongPos : Int) : FileStream :=
  { src with pos := nLongPos.toNat, feof := false }

end FileStream

/-- A conversion to `long`, which has 64 bits. -/
@[irreducible] def toLong (nPos : Nat) : Int := Int.bmod nPos (2 ^ 64)

theorem toNat_toLong {nPos : Nat} (hpos : 0 ≤ toLong nPos) (hlt : nPos < 2 ^ 64) :
    (toLong nPos).toNat = nPos := by
  unfold toLong at hpos ⊢
  rw [Int.bmod_def] at hpos ⊢
  split at hpos <;> omega

theorem toLong_of_lt {nPos : Nat} (hlt : nPos < 2 ^ 63) : toLong nPos = nPos := by
  unfold toLong
  rw [Int.bmod_def]
  split <;> omega

/-! ## `CBufferedFile` -/

/-- `(uint64_t)(-1)`. -/
def noLimit : Nat := 2 ^ 64 - 1

/-- `failbit` is the state. -/
structure CBufferedFile where
  src : FileStream
  nSrcPos : Nat := 0
  nReadPos : Nat := 0
  nReadLimit : Nat := noLimit
  nRewind : Nat
  vchBuf : List UInt8
  failbit : Bool := false

/-- What a call returns or throws, and the state it leaves. -/
abbrev FileResult (α : Type) := Option (Except String α × CBufferedFile)

namespace FileResult

variable {α β : Type}

/-- The next statement, unless there was an exception. -/
def andThen (r : FileResult α) (k : α → CBufferedFile → FileResult β) : FileResult β :=
  match r with
  | none => none
  | some (.error e, file) => some (.error e, file)
  | some (.ok a, file) => k a file

@[simp] theorem andThen_ok (a : α) (file : CBufferedFile) (k : α → CBufferedFile → FileResult β) :
    andThen (some (.ok a, file)) k = k a file := rfl

@[simp] theorem andThen_error (e : String) (file : CBufferedFile)
    (k : α → CBufferedFile → FileResult β) :
    andThen (some (.error e, file)) k = some (.error e, file) := rfl

end FileResult

namespace CBufferedFile

def init (fileIn : FileStream) (nBufSize nRewindIn : Nat) : CBufferedFile where
  src := fileIn
  nRewind := nRewindIn
  vchBuf := List.replicate nBufSize 0

def good (file : CBufferedFile) : Bool := !file.failbit

def eof (file : CBufferedFile) : Bool := file.nReadPos = file.nSrcPos && file.src.feof

/-- `Fill`; its numbers are `unsigned int`. -/
def fill (file : CBufferedFile) : FileResult Bool :=
  let size := file.vchBuf.length
  if size = 0 then none
  else
    let pos := file.nSrcPos % size % (uintMax + 1)
    let readNow := (size - pos) % (uintMax + 1)
    let nAvail := (((size : Int) - (file.nSrcPos - file.nReadPos) - file.nRewind) %
      (uintMax + 1)).toNat
    let readNow := if nAvail < readNow then nAvail else readNow
    if readNow = 0 then some (.ok false, file)
    else
      let (data, src) := file.src.fread readNow
      let file := { file with src, vchBuf := RingBuffer.store file.vchBuf pos data }
      if data.length = 0 then
        some (.error (if src.feof then "CBufferedFile::Fill : end of file"
          else "CBufferedFile::Fill : fread failed"), { file with failbit := true })
      else some (.ok true, { file with nSrcPos := file.nSrcPos + data.length })

/-- `if (nReadPos == nSrcPos) Fill();`. -/
def refill (file : CBufferedFile) : FileResult Bool :=
  if file.nReadPos = file.nSrcPos then file.fill else some (.ok true, file)

/-- The loop of `read`, of at most `n` iterations. -/
def readLoop : (n nSize : Nat) → CBufferedFile → FileResult (List UInt8)
  | _, 0, file => some (.ok [], file)
  | 0, _ + 1, _ => none
  | n + 1, nSize, file =>
      file.refill.andThen fun _ file ↦
        let size := file.vchBuf.length
        let pos := file.nReadPos % size % (uintMax + 1)
        let nNow := if size < nSize + pos then size - pos else nSize
        let nNow := if file.nSrcPos < nNow + file.nReadPos then file.nSrcPos - file.nReadPos
          else nNow
        let pch := (file.vchBuf.drop pos).take nNow
        (readLoop n (nSize - nNow) { file with nReadPos := file.nReadPos + nNow }).andThen
          fun rest file ↦ some (.ok (pch ++ rest), file)

/-- `read`; an iteration that does not get a byte would be repeated for ever. -/
def read (nSize : Nat) (file : CBufferedFile) : FileResult (List UInt8) :=
  if file.nReadLimit < nSize + file.nReadPos then
    some (.error "Read attempted past buffer limit", file)
  else if file.vchBuf.length < nSize + file.nRewind then
    some (.error "Read larger than buffer size", file)
  else readLoop nSize nSize file

/-- `SetPos`. -/
def setPos (nPos : Nat) (file : CBufferedFile) : Bool × CBufferedFile :=
  if nPos + file.nRewind < file.nSrcPos then
    (false, { file with nReadPos := file.nSrcPos - file.nRewind })
  else if file.nSrcPos < nPos then (false, { file with nReadPos := file.nSrcPos })
  else (true, { file with nReadPos := nPos })

/-- `Seek`. -/
def seek (nPos : Nat) (file : CBufferedFile) : Bool × CBufferedFile :=
  let nLongPos := toLong nPos
  if nLongPos < 0 then (false, file)
  else
    let src := file.src.fseek nLongPos
    (true, { file with src, nSrcPos := src.pos, nReadPos := src.pos })

/-- `SetLimit`. -/
def setLimit (nPos : Nat) (file : CBufferedFile) : Bool × CBufferedFile :=
  if nPos < file.nReadPos then (false, file) else (true, { file with nReadLimit := nPos })

/-- `FindByte`, of at most `n` iterations. -/
def findByte (ch : UInt8) : (n : Nat) → CBufferedFile → FileResult Unit
  | 0, _ => none
  | n + 1, file =>
      file.refill.andThen fun _ file ↦
        if file.vchBuf[file.nReadPos % file.vchBuf.length]? = some ch then some (.ok (), file)
        else findByte ch n { file with nReadPos := file.nReadPos + 1 }

variable {base n nSize q : Nat} {f g h' : CBufferedFile} {ch : UInt8}

/-! ## The window -/

/-- From the last `Seek`, which was to `base`, the buffer holds the file as far as it reaches
back. -/
structure Window (base : Nat) (f : CBufferedFile) : Prop where
  rewind_lt : f.nRewind < f.vchBuf.length
  size_le : f.vchBuf.length ≤ uintMax
  pos_eq : f.src.pos = f.nSrcPos
  base_le : base ≤ f.nReadPos
  read_le : f.nReadPos ≤ f.nSrcPos
  ahead_le : f.nSrcPos ≤ f.nReadPos + max f.nRewind (f.vchBuf.length - f.nRewind)
  src_le : f.nSrcPos ≤ max base f.src.content.length
  eof_le : f.src.feof = true → f.src.content.length ≤ f.nSrcPos
  holds : RingBuffer.Holds f.vchBuf f.src.content (max base (f.nSrcPos - f.vchBuf.length)) f.nSrcPos

theorem window_init (src : FileStream) (hpos : src.pos = 0) (heof : src.feof = false)
    {nBufSize nRewindIn : Nat} (hlt : nRewindIn < nBufSize) (hle : nBufSize ≤ uintMax) :
    Window 0 (init src nBufSize nRewindIn) where
  rewind_lt := by simpa [init] using hlt
  size_le := by simpa [init] using hle
  pos_eq := hpos
  base_le := le_rfl
  read_le := le_rfl
  ahead_le := Nat.zero_le _
  src_le := Nat.zero_le _
  eof_le he := absurd (heof.symm.trans he) (by simp)
  holds q _ hq := absurd hq (Nat.not_lt_zero q)

/-- What a call that only reads does. -/
structure Moves (base : Nat) (f g : CBufferedFile) : Prop where
  window : Window base g
  content : g.src.content = f.src.content
  limit : g.nReadLimit = f.nReadLimit
  rewind : g.nRewind = f.nRewind
  size : g.vchBuf.length = f.vchBuf.length
  read_le : f.nReadPos ≤ g.nReadPos
  src_le : g.nSrcPos ≤ max f.nSrcPos (g.nReadPos + (f.vchBuf.length - f.nRewind))

theorem Moves.refl (h : Window base f) : Moves base f f :=
  ⟨h, rfl, rfl, rfl, rfl, le_rfl, le_max_left _ _⟩

theorem Moves.trans (h₁ : Moves base f g) (h₂ : Moves base g h') : Moves base f h' where
  window := h₂.window
  content := h₂.content.trans h₁.content
  limit := h₂.limit.trans h₁.limit
  rewind := h₂.rewind.trans h₁.rewind
  size := h₂.size.trans h₁.size
  read_le := h₁.read_le.trans h₂.read_le
  src_le := by
    have hle₁ := h₁.src_le
    have hle₂ := h₂.src_le
    rw [h₁.size, h₁.rewind] at hle₂
    have hread := h₂.read_le
    omega

theorem length_fread (src : FileStream) (n : Nat) :
    (src.fread n).1.length = min n (src.content.length - src.pos) := by
  rw [FileStream.fread, List.length_take, List.length_drop]

/-- Of the elements that are read, each is the element of the file at its place. -/
theorem getElem?_fread (src : FileStream) {n i : Nat} (hi : i < (src.fread n).1.length) :
    (src.fread n).1[i]? = src.content[src.pos + i]? := by
  rw [length_fread] at hi
  rw [FileStream.fread, List.getElem?_take_of_lt (by omega), List.getElem?_drop]

/-- The bytes that `Fill` asks for. -/
def readNow (f : CBufferedFile) : Nat :=
  min (f.vchBuf.length - f.nRewind) (f.vchBuf.length - f.nSrcPos % f.vchBuf.length)

/-- `Fill` where all of its numbers fit: it stores what comes next in the file. -/
theorem fill_eq (h : Window base f) (heq : f.nReadPos = f.nSrcPos) :
    f.fill =
      let r := f.src.fread f.readNow
      let file := { f with
        src := r.2
        vchBuf := RingBuffer.store f.vchBuf (f.nSrcPos % f.vchBuf.length) r.1 }
      if r.1.length = 0 then
        some (.error (if r.2.feof then "CBufferedFile::Fill : end of file"
          else "CBufferedFile::Fill : fread failed"), { file with failbit := true })
      else some (.ok true, { file with nSrcPos := f.nSrcPos + r.1.length }) := by
  have hrewind := h.rewind_lt
  have hsize := h.size_le
  have hpos : f.nSrcPos % f.vchBuf.length < f.vchBuf.length := Nat.mod_lt _ (by omega)
  have hmod : f.nSrcPos % f.vchBuf.length % (uintMax + 1) = f.nSrcPos % f.vchBuf.length :=
    Nat.mod_eq_of_lt (by omega)
  have hnow : (f.vchBuf.length - f.nSrcPos % f.vchBuf.length) % (uintMax + 1) =
      f.vchBuf.length - f.nSrcPos % f.vchBuf.length := Nat.mod_eq_of_lt (by omega)
  have havail : (((f.vchBuf.length : Int) - (f.nSrcPos - f.nReadPos) - f.nRewind) %
      (uintMax + 1)).toNat = f.vchBuf.length - f.nRewind := by
    rw [heq, Int.emod_eq_of_lt (by omega) (by omega)]
    omega
  have hmin : (if f.vchBuf.length - f.nRewind < f.vchBuf.length - f.nSrcPos % f.vchBuf.length
      then f.vchBuf.length - f.nRewind else f.vchBuf.length - f.nSrcPos % f.vchBuf.length) =
      f.readNow := by
    rw [readNow]
    split <;> omega
  have hne : f.readNow ≠ 0 := by
    rw [readNow]
    omega
  rw [fill]
  simp only [hmod, hnow, havail, hmin]
  rw [if_neg (by omega), if_neg hne]

/-- The window after the bytes that come next are stored. -/
theorem Window.fill (h : Window base f) (heq : f.nReadPos = f.nSrcPos) :
    Window base { f with
      src := (f.src.fread f.readNow).2
      vchBuf := RingBuffer.store f.vchBuf (f.nSrcPos % f.vchBuf.length) (f.src.fread f.readNow).1
      nSrcPos := f.nSrcPos + (f.src.fread f.readNow).1.length } := by
  have hrewind := h.rewind_lt
  have hlen := length_fread f.src f.readNow
  have hnow : f.readNow = min (f.vchBuf.length - f.nRewind)
    (f.vchBuf.length - f.nSrcPos % f.vchBuf.length) := rfl
  have hpos : f.nSrcPos % f.vchBuf.length < f.vchBuf.length := Nat.mod_lt _ (by omega)
  have hfit : f.nSrcPos % f.vchBuf.length + (f.src.fread f.readNow).1.length ≤ f.vchBuf.length := by
    omega
  have hsame := RingBuffer.length_store hfit
  have hsrcpos := h.pos_eq
  have hsrc := h.src_le
  have hbase := h.base_le
  refine ⟨?_, ?_, ?_, hbase, ?_, ?_, ?_, ?_, ?_⟩
  · rw [hsame]
    exact hrewind
  · rw [hsame]
    exact h.size_le
  · rw [← hsrcpos]
    rfl
  · simp only
    omega
  · simp only [hsame]
    omega
  · change f.nSrcPos + _ ≤ max base f.src.content.length
    omega
  · intro heof
    change (f.src.feof || decide (_ < f.readNow)) = true at heof
    change f.src.content.length ≤ f.nSrcPos + _
    rw [Bool.or_eq_true, decide_eq_true_eq] at heof
    rcases heof with hold | hshort
    · exact (h.eof_le hold).trans (Nat.le_add_right _ _)
    · change (f.src.fread f.readNow).1.length < f.readNow at hshort
      omega
  · simp only [hsame]
    refine RingBuffer.Holds.store h.holds (by omega) ?_ hfit (by omega)
    intro i hi
    rw [getElem?_fread f.src hi, hsrcpos]
    rfl

/-- **`Fill`** reads ahead, or fails at the end of the file. -/
theorem fill_spec (h : Window base f) (heq : f.nReadPos = f.nSrcPos) :
    ∃ r g, f.fill = some (r, g) ∧ Moves base f g ∧ g.nReadPos = f.nReadPos ∧
      ((∃ b, r = .ok b ∧ g.nReadPos < g.nSrcPos ∧ g.failbit = f.failbit ∧
          f.nReadPos < f.src.content.length) ∨
        ∃ e, r = .error e ∧ f.src.content.length ≤ f.nReadPos ∧ g.failbit = true) := by
  have hrewind := h.rewind_lt
  have hsize : f.nSrcPos % f.vchBuf.length < f.vchBuf.length := Nat.mod_lt _ (by omega)
  have hlen := length_fread f.src f.readNow
  rw [h.pos_eq] at hlen
  have hnow : f.readNow = min (f.vchBuf.length - f.nRewind)
    (f.vchBuf.length - f.nSrcPos % f.vchBuf.length) := rfl
  have hwindow := h.fill heq
  have hsame : (RingBuffer.store f.vchBuf (f.nSrcPos % f.vchBuf.length)
      (f.src.fread f.readNow).1).length = f.vchBuf.length := RingBuffer.length_store (by omega)
  rw [fill_eq h heq]
  by_cases hzero : (f.src.fread f.readNow).1.length = 0
  · rw [hzero, Nat.add_zero] at hwindow
    refine ⟨_, _, if_pos hzero, ⟨?_, rfl, rfl, rfl, hsame, le_rfl, le_max_left _ _⟩, rfl,
      Or.inr ⟨_, rfl, by omega, rfl⟩⟩
    exact ⟨hwindow.rewind_lt, hwindow.size_le, hwindow.pos_eq, hwindow.base_le, hwindow.read_le,
      hwindow.ahead_le, hwindow.src_le, hwindow.eof_le, hwindow.holds⟩
  · refine ⟨_, _, if_neg hzero, ⟨hwindow, rfl, rfl, rfl, hsame, le_rfl, ?_⟩, rfl,
      Or.inl ⟨true, rfl, ?_, rfl, ?_⟩⟩
    · simp only
      omega
    · simp only
      omega
    · omega

theorem refill_spec (h : Window base f) :
    ∃ r g, f.refill = some (r, g) ∧ Moves base f g ∧ g.nReadPos = f.nReadPos ∧
      ((∃ b, r = .ok b ∧ g.nReadPos < g.nSrcPos ∧ g.failbit = f.failbit ∧
          f.nReadPos < f.src.content.length) ∨
        ∃ e, r = .error e ∧ f.src.content.length ≤ f.nReadPos ∧ g.failbit = true) := by
  rw [refill]
  split
  case isTrue heq => exact fill_spec h heq
  case isFalse hne =>
      have hread := h.read_le
      have hsrc := h.src_le
      have hbase := h.base_le
      refine ⟨.ok true, f, rfl, .refl h, rfl, Or.inl ⟨true, rfl, ?_, rfl, ?_⟩⟩ <;> omega

/-! ## Reading -/

/-- Reading on in the buffer. -/
theorem Moves.advance (h : Moves base f g) (nNow : Nat) (hle : g.nReadPos + nNow ≤ g.nSrcPos) :
    Moves base f { g with nReadPos := g.nReadPos + nNow } where
  __ := h
  window := by
    have hw := h.window
    have hbase := hw.base_le
    have hahead := hw.ahead_le
    exact ⟨hw.rewind_lt, hw.size_le, hw.pos_eq, hbase.trans (Nat.le_add_right _ _), hle,
      hahead.trans (by simp only; omega), hw.src_le, hw.eof_le, hw.holds⟩
  read_le := h.read_le.trans (Nat.le_add_right _ _)
  src_le := by
    have hsrc := h.src_le
    simp only
    omega

/-- What is in the buffer from the reading position on is the file. -/
theorem Window.take_drop (h : Window base f) {k : Nat} (hk : f.nReadPos + k ≤ f.nSrcPos)
    (hfit : f.nReadPos % f.vchBuf.length + k ≤ f.vchBuf.length) :
    (f.vchBuf.drop (f.nReadPos % f.vchBuf.length)).take k =
      (f.src.content.drop f.nReadPos).take k := by
  have hrewind := h.rewind_lt
  have hbase := h.base_le
  have hahead := h.ahead_le
  exact h.holds.read (by omega) hk hfit

/-- How much an iteration of `read` copies. -/
def nowRead (f : CBufferedFile) (nSize : Nat) : Nat :=
  min nSize (min (f.vchBuf.length - f.nReadPos % f.vchBuf.length) (f.nSrcPos - f.nReadPos))

theorem readLoop_zero (n : Nat) (f : CBufferedFile) : f.readLoop n 0 = some (.ok [], f) := by
  cases n <;> rfl

/-- An iteration of `read` copies the next bytes of the file. -/
theorem readLoop_succ {b : Bool} (hrefill : f.refill = some (.ok b, g)) (h : Window base g)
    (hlt : g.nReadPos < g.nSrcPos) (hpos : 0 < nSize) :
    f.readLoop (n + 1) nSize =
      (readLoop n (nSize - g.nowRead nSize)
        { g with nReadPos := g.nReadPos + g.nowRead nSize }).andThen fun rest file ↦
          some (.ok ((g.src.content.drop g.nReadPos).take (g.nowRead nSize) ++ rest), file) := by
  have hrewind := h.rewind_lt
  have hsize := h.size_le
  have hplace : g.nReadPos % g.vchBuf.length < g.vchBuf.length := Nat.mod_lt _ (by omega)
  have hmod : g.nReadPos % g.vchBuf.length % (uintMax + 1) = g.nReadPos % g.vchBuf.length :=
    Nat.mod_eq_of_lt (by omega)
  have hnow : g.nowRead nSize = min nSize
    (min (g.vchBuf.length - g.nReadPos % g.vchBuf.length) (g.nSrcPos - g.nReadPos)) := rfl
  have hdata := h.take_drop (k := g.nowRead nSize) (by omega) (by omega)
  obtain ⟨m, rfl⟩ := Nat.exists_eq_succ_of_ne_zero hpos.ne'
  have hif : (if g.nSrcPos < (if g.vchBuf.length < m.succ + g.nReadPos % g.vchBuf.length
      then g.vchBuf.length - g.nReadPos % g.vchBuf.length else m.succ) + g.nReadPos
      then g.nSrcPos - g.nReadPos
      else if g.vchBuf.length < m.succ + g.nReadPos % g.vchBuf.length
      then g.vchBuf.length - g.nReadPos % g.vchBuf.length else m.succ) =
      g.nowRead m.succ := by
    split_ifs <;> omega
  rw [Nat.succ_eq_add_one] at hif hdata ⊢
  rw [readLoop, hrefill, FileResult.andThen_ok]
  · simp only [hmod, hif, hdata]
  · exact Nat.succ_ne_zero m

theorem readLoop_error {e : String} (hrefill : f.refill = some (.error e, g)) (hpos : 0 < nSize) :
    f.readLoop (n + 1) nSize = some (.error e, g) := by
  rw [readLoop, hrefill, FileResult.andThen_error]
  exact hpos.ne'

/-- **The loop of `read`** gets the next bytes of the file, or fails at its end. -/
theorem readLoop_spec (h : Window base f) (hn : nSize ≤ n) :
    ∃ r g, f.readLoop n nSize = some (r, g) ∧ Moves base f g ∧
      ((r = .ok ((f.src.content.drop f.nReadPos).take nSize) ∧
          nSize ≤ f.src.content.length - f.nReadPos ∧ g.nReadPos = f.nReadPos + nSize ∧
          g.failbit = f.failbit) ∨
        ∃ e, r = .error e ∧ f.src.content.length - f.nReadPos < nSize ∧ g.failbit = true) := by
  induction n generalizing nSize f with
  | zero =>
      obtain rfl := Nat.le_zero.mp hn
      exact ⟨_, f, readLoop_zero 0 f, .refl h, Or.inl ⟨rfl, Nat.zero_le _, rfl, rfl⟩⟩
  | succ n ih =>
      rcases Nat.eq_zero_or_pos nSize with rfl | hpos
      · exact ⟨_, f, readLoop_zero _ f, .refl h, Or.inl ⟨rfl, Nat.zero_le _, rfl, rfl⟩⟩
      obtain ⟨r, g, hrefill, hmoves, hsame, ⟨b, rfl, hlt, hfail, hin⟩ | ⟨e, rfl, hend, hfail⟩⟩ :=
        refill_spec h
      · have hw := hmoves.window
        have hplace : g.nReadPos % g.vchBuf.length < g.vchBuf.length :=
          Nat.mod_lt _ (Nat.zero_lt_of_lt hw.rewind_lt)
        have hnow : g.nowRead nSize = min nSize
          (min (g.vchBuf.length - g.nReadPos % g.vchBuf.length) (g.nSrcPos - g.nReadPos)) := rfl
        have hmoves' := hmoves.advance (g.nowRead nSize) (by omega)
        obtain ⟨r, g', hrun, hrest, hcases⟩ := ih hmoves'.window
          (show nSize - g.nowRead nSize ≤ n by omega)
        have hcontent : g.src.content = f.src.content := hmoves.content
        simp only [hcontent, hsame] at hcases
        rw [readLoop_succ hrefill hw hlt hpos, hrun]
        rcases hcases with ⟨rfl, hle, hread, hfail'⟩ | ⟨e, rfl, hend, hfail'⟩
        · refine ⟨_, g', rfl, hmoves'.trans hrest, Or.inl ⟨?_, ?_, ?_, hfail'.trans hfail⟩⟩
          · rw [hcontent, hsame, ← List.drop_drop, ← List.take_add,
              Nat.add_sub_of_le (by omega)]
          · have hsrc := hw.src_le
            have hbase := hw.base_le
            rw [hcontent] at hsrc
            omega
          · omega
        · exact ⟨_, g', rfl, hmoves'.trans hrest, Or.inr ⟨e, rfl, by omega, hfail'⟩⟩
      · rw [readLoop_error hrefill hpos]
        exact ⟨_, g, rfl, hmoves, Or.inr ⟨e, rfl, by omega, hfail⟩⟩

/-- **`read`** always ends. It throws, or it returns the next bytes of the file. -/
theorem read_spec (h : Window base f) (nSize : Nat) :
    ∃ r g, f.read nSize = some (r, g) ∧ Moves base f g ∧
      ((r = .ok ((f.src.content.drop f.nReadPos).take nSize) ∧
          nSize ≤ f.src.content.length - f.nReadPos ∧ g.nReadPos = f.nReadPos + nSize ∧
          g.failbit = f.failbit) ∨
        ∃ e, r = .error e ∧ (f.nReadLimit < nSize + f.nReadPos ∨
          f.vchBuf.length < nSize + f.nRewind ∨
            f.src.content.length - f.nReadPos < nSize ∧ g.failbit = true)) := by
  rw [read]
  split_ifs with hlimit hlarge
  · exact ⟨_, f, rfl, .refl h, Or.inr ⟨_, rfl, Or.inl hlimit⟩⟩
  · exact ⟨_, f, rfl, .refl h, Or.inr ⟨_, rfl, Or.inr (Or.inl hlarge)⟩⟩
  · obtain ⟨r, g, hrun, hmoves, hok | ⟨e, he, hend⟩⟩ := readLoop_spec h (le_refl nSize)
    · exact ⟨r, g, hrun, hmoves, Or.inl hok⟩
    · exact ⟨r, g, hrun, hmoves, Or.inr ⟨e, he, Or.inr (Or.inr hend)⟩⟩

/-- **`FindByte`** comes to the next place of the byte in the file, or fails at the end. -/
theorem findByte_spec (h : Window base f) (ch : UInt8)
    (hn : f.src.content.length - f.nReadPos < n) :
    ∃ r g, findByte ch n f = some (r, g) ∧ Moves base f g ∧
      ((r = .ok () ∧ f.src.content[g.nReadPos]? = some ch ∧ g.nReadPos < g.nSrcPos ∧
          (∀ q, f.nReadPos ≤ q → q < g.nReadPos → f.src.content[q]? ≠ some ch) ∧
          g.failbit = f.failbit) ∨
        ∃ e, r = .error e ∧ ∀ q, f.nReadPos ≤ q → f.src.content[q]? ≠ some ch) := by
  induction n generalizing f with
  | zero => exact absurd hn (Nat.not_lt_zero _)
  | succ n ih =>
      obtain ⟨r, g, hrefill, hmoves, hsame, ⟨b, rfl, hlt, hfail, hin⟩ | ⟨e, rfl, hend, -⟩⟩ :=
        refill_spec h
      · have hw := hmoves.window
        have hcontent : g.src.content = f.src.content := hmoves.content
        have hbyte : g.vchBuf[g.nReadPos % g.vchBuf.length]? = f.src.content[f.nReadPos]? := by
          have hrewind := hw.rewind_lt
          have hbase := hw.base_le
          have hahead := hw.ahead_le
          rw [hw.holds g.nReadPos (by omega) hlt, hcontent, hsame]
        rw [findByte, hrefill, FileResult.andThen_ok, hbyte]
        by_cases hfound : f.src.content[f.nReadPos]? = some ch
        · rw [if_pos hfound]
          refine ⟨_, g, rfl, hmoves, Or.inl ⟨rfl, ?_, hlt, ?_, hfail⟩⟩
          · rw [hsame]
            exact hfound
          · intro q hq hq'
            omega
        · rw [if_neg hfound]
          have hmoves' := hmoves.advance 1 hlt
          obtain ⟨r, g', hrun, hrest, hcases⟩ := ih hmoves'.window (by
            simp only [hcontent, hsame]
            omega)
          simp only [hcontent, hsame] at hcases
          refine ⟨r, g', hrun, hmoves'.trans hrest, ?_⟩
          have hhere (q : Nat) (hq : f.nReadPos ≤ q) :
              q = f.nReadPos ∨ f.nReadPos + 1 ≤ q := by omega
          rcases hcases with ⟨rfl, hat, hlt', hbefore, hfail'⟩ | ⟨e, rfl, hnone⟩
          · refine Or.inl ⟨rfl, hat, hlt', fun q hq hq' ↦ ?_, hfail'.trans hfail⟩
            rcases hhere q hq with rfl | hnext
            · exact hfound
            · exact hbefore q hnext hq'
          · refine Or.inr ⟨e, rfl, fun q hq ↦ ?_⟩
            rcases hhere q hq with rfl | hnext
            · exact hfound
            · exact hnone q hnext
      · rw [findByte, hrefill, FileResult.andThen_error]
        refine ⟨_, g, rfl, hmoves, Or.inr ⟨e, rfl, fun q hq ↦ ?_⟩⟩
        rw [List.getElem?_eq_none (hend.trans hq)]
        exact Option.some_ne_none ch ∘ Eq.symm

/-! ## Positions -/

/-- A position in what the buffer holds is a window too. -/
theorem Window.move (h : Window base f) (hbase : base ≤ q) (hle : q ≤ f.nSrcPos)
    (hrewind : f.nSrcPos ≤ q + f.nRewind) : Window base { f with nReadPos := q } :=
  ⟨h.rewind_lt, h.size_le, h.pos_eq, hbase, hle, hrewind.trans (by simp only; omega), h.src_le,
    h.eof_le, h.holds⟩

theorem setPos_eq (hrewind : f.nSrcPos ≤ q + f.nRewind) (hle : q ≤ f.nSrcPos) :
    f.setPos q = (true, { f with nReadPos := q }) := by
  rw [setPos, if_neg (Nat.not_lt.mpr hrewind), if_neg (Nat.not_lt.mpr hle)]

/-- **A rewind succeeds** exactly if it is no further than the guarantee behind what has been read
from the file. -/
theorem setPos_iff (h : Window base f) (hle : q ≤ f.nReadPos) :
    (f.setPos q).1 = true ↔ f.nSrcPos ≤ q + f.nRewind := by
  constructor
  · intro hset
    by_contra hfar
    rw [setPos, if_pos (Nat.not_le.mp hfar)] at hset
    cases hset
  · intro hrewind
    rw [setPos_eq hrewind (hle.trans h.read_le)]

/-- `SetPos` to what has been read from the file goes there, or as far back as it may. -/
theorem setPos_spec (h : Window base f) (hbase : base ≤ q) (hle : q ≤ f.nSrcPos) :
    ∃ b p, f.setPos q = (b, { f with nReadPos := p }) ∧ q ≤ p ∧
      Window base { f with nReadPos := p } ∧ (f.nSrcPos ≤ q + f.nRewind → p = q) := by
  rcases Nat.lt_or_ge (q + f.nRewind) f.nSrcPos with hfar | hrewind
  · refine ⟨false, f.nSrcPos - f.nRewind, ?_, by omega, ?_, fun h ↦ absurd h (by omega)⟩
    · rw [setPos, if_pos hfar]
    · exact h.move (by omega) (Nat.sub_le _ _) (by omega)
  · exact ⟨true, q, setPos_eq hrewind hle, le_rfl, h.move hbase hle hrewind, fun _ ↦ rfl⟩

/-- A place in the file is a new window. -/
theorem Window.seek (h : Window base f) (p : Nat) :
    Window p { f with
      src := { f.src with pos := p, feof := false }
      nSrcPos := p
      nReadPos := p } where
  rewind_lt := h.rewind_lt
  size_le := h.size_le
  pos_eq := rfl
  base_le := le_rfl
  read_le := le_rfl
  ahead_le := Nat.le_add_right _ _
  src_le := le_max_left _ _
  eof_le he := absurd he (by simp)
  holds q hq hlt := absurd ((le_max_left _ _).trans hq) (Nat.not_le.mpr hlt)

/-- **`Seek`** goes to a place in the file, or nowhere. -/
theorem seek_spec (f : CBufferedFile) (nPos : Nat) :
    f.seek nPos = (false, f) ∨ ∃ p, (nPos < 2 ^ 64 → p = nPos) ∧
      f.seek nPos = (true, { f with
        src := { f.src with pos := p, feof := false }
        nSrcPos := p
        nReadPos := p }) := by
  rw [CBufferedFile.seek]
  split
  case isTrue => exact Or.inl rfl
  case isFalse hpos => exact Or.inr ⟨_, toNat_toLong (Int.not_lt.mp hpos), rfl⟩

theorem seek_of_lt (f : CBufferedFile) {nPos : Nat} (hlt : nPos < 2 ^ 63) :
    f.seek nPos = (true, { f with
      src := { f.src with pos := nPos, feof := false }
      nSrcPos := nPos
      nReadPos := nPos }) := by
  have hlong := toLong_of_lt hlt
  have hnat : (toLong nPos).toNat = nPos := by rw [hlong, Int.toNat_natCast]
  rw [CBufferedFile.seek, if_neg (by omega), FileStream.fseek, hnat]

/-! ## Runs -/

end CBufferedFile

/-- The calls. -/
inductive BufferCall where
  | read (nSize : Nat)
  | setPos (nPos : Nat)
  | setLimit (nPos : Nat)
  | seek (nPos : Nat)
  | findByte (ch : UInt8)

/-- What they return or throw. -/
inductive BufferReturn where
  | data (r : Except String (List UInt8))
  | flag (b : Bool)
  | found (r : Except String Unit)

namespace BufferCall

open CBufferedFile

/-- Makes a call; the loops of `FindByte` make at most `n` iterations. -/
def run (n : Nat) (f : CBufferedFile) : BufferCall → Option (BufferReturn × CBufferedFile)
  | read nSize => (f.read nSize).map fun r ↦ (.data r.1, r.2)
  | setPos nPos => some (.flag (f.setPos nPos).1, (f.setPos nPos).2)
  | setLimit nPos => some (.flag (f.setLimit nPos).1, (f.setLimit nPos).2)
  | seek nPos => some (.flag (f.seek nPos).1, (f.seek nPos).2)
  | findByte ch => (CBufferedFile.findByte ch n f).map fun r ↦ (.found r.1, r.2)

/-- `SetPos` only rewinds, and by no more than is guaranteed. -/
def InRange (f : CBufferedFile) : BufferCall → Prop
  | setPos nPos => nPos ≤ f.nReadPos ∧ f.nReadPos ≤ nPos + f.nRewind
  | _ => True

/-- The bytes are those of the file from `GetPos` on, and rewinding succeeds. -/
def Right (f : CBufferedFile) (out : BufferReturn) (g : CBufferedFile) : BufferCall → Prop
  | read nSize => ∀ pch, out = .data (.ok pch) →
      pch = (f.src.content.drop f.nReadPos).take nSize ∧ pch.length = nSize ∧
        g.nReadPos = f.nReadPos + nSize
  | setPos nPos => out = .flag true ∧ g.nReadPos = nPos
  | setLimit _ => g.nReadPos = f.nReadPos
  | seek nPos => nPos < 2 ^ 64 → out = .flag true → g.nReadPos = nPos
  | findByte ch => out = .found (.ok ()) →
      f.nReadPos ≤ g.nReadPos ∧ f.src.content[g.nReadPos]? = some ch ∧
        ∀ q, f.nReadPos ≤ q → q < g.nReadPos → f.src.content[q]? ≠ some ch

/-- A rewind is no further than the guarantee behind what has been read from the file, and not
behind the last `Seek`, which was to `base`. -/
def Meets (base : Nat) (f : CBufferedFile) : BufferCall → Prop
  | setPos nPos => f.nSrcPos ≤ nPos + f.nRewind ∧ base ≤ nPos
  | _ => True

/-- Where the last `Seek` was to after a call. -/
def base (base : Nat) (f : CBufferedFile) : BufferCall → Nat
  | seek nPos => if (f.seek nPos).1 then (f.seek nPos).2.nReadPos else base
  | _ => base

variable {b n : Nat} {f : CBufferedFile}

/-- **One call.** -/
theorem run_spec (h : Window b f) (call : BufferCall) (hn : f.src.content.length < n)
    (hrange : call.InRange f) (hmeets : call.Meets b f) :
    ∃ out g, call.run n f = some (out, g) ∧ g.src.content = f.src.content ∧
      call.Right f out g ∧ Window (call.base b f) g := by
  cases call with
  | read nSize =>
      obtain ⟨r, g, hread, hmoves, hcases⟩ := read_spec h nSize
      refine ⟨.data r, g, by rw [run, hread]; rfl, hmoves.content, ?_, hmoves.window⟩
      intro pch hpch
      rcases hcases with ⟨rfl, hle, hpos, -⟩ | ⟨e, rfl, -⟩
      · cases hpch
        refine ⟨rfl, ?_, hpos⟩
        rw [List.length_take, List.length_drop, Nat.min_eq_left hle]
      · cases hpch
  | setPos nPos =>
      have hle := hrange.1.trans h.read_le
      refine ⟨_, _, rfl, ?_, ?_, ?_⟩
      all_goals rw [setPos_eq hmeets.1 hle]
      · exact ⟨rfl, rfl⟩
      · exact h.move hmeets.2 hle hmeets.1
  | setLimit nPos =>
      refine ⟨_, _, rfl, ?_, ?_, ?_⟩
      all_goals
        rw [CBufferedFile.setLimit]
        split
      · rfl
      · rfl
      · rfl
      · rfl
      · exact h
      · exact ⟨h.rewind_lt, h.size_le, h.pos_eq, h.base_le, h.read_le, h.ahead_le, h.src_le,
          h.eof_le, h.holds⟩
  | seek nPos =>
      refine ⟨_, _, rfl, ?_⟩
      rw [BufferCall.base]
      rcases seek_spec f nPos with hseek | ⟨p, hp, hseek⟩
      · rw [hseek]
        refine ⟨rfl, fun _ hflag ↦ ?_, h⟩
        cases hflag
      · rw [hseek]
        exact ⟨rfl, fun hlt _ ↦ hp hlt, h.seek p⟩
  | findByte ch =>
      obtain ⟨r, g, hfind, hmoves, hcases⟩ := findByte_spec h ch (n := n) (by omega)
      refine ⟨.found r, g, by rw [run, hfind]; rfl, hmoves.content, ?_, hmoves.window⟩
      intro hfound
      rcases hcases with ⟨rfl, hat, -, hbefore, -⟩ | ⟨e, rfl, -⟩
      · exact ⟨hmoves.read_le, hat, hbefore⟩
      · cases hfound

end BufferCall

namespace CBufferedFile

/-- **A faithful window.**  As long as rewinds are in range, every call ends and is right. -/
def Faithful (n : Nat) : CBufferedFile → List BufferCall → Prop
  | _, [] => True
  | f, call :: calls => call.InRange f →
      ∃ out g, call.run n f = some (out, g) ∧ g.src.content = f.src.content ∧
        call.Right f out g ∧ Faithful n g calls

/-- No rewind of a run, which starts with a window from `base`, goes too far. -/
def AllMeet (n : Nat) : (base : Nat) → CBufferedFile → List BufferCall → Prop
  | _, _, [] => True
  | base, f, call :: calls => call.Meets base f ∧
      ∀ out g, call.run n f = some (out, g) → AllMeet n (call.base base f) g calls

theorem faithful_of_allMeet {calls : List BufferCall} (h : Window base f)
    (hn : f.src.content.length < n) (hmeet : AllMeet n base f calls) : Faithful n f calls := by
  induction calls generalizing base f with
  | nil => trivial
  | cons call calls ih =>
      intro hrange
      obtain ⟨hmeets, hrest⟩ := hmeet
      obtain ⟨out, g, hrun, hcontent, hright, hwindow⟩ := call.run_spec h hn hrange hmeets
      refine ⟨out, g, hrun, hcontent, hright, ih hwindow ?_ (hrest out g hrun)⟩
      rw [hcontent]
      exact hn

/-- Ten bytes. -/
def sampleStream : FileStream where
  content := [0, 1, 2, 3, 4, 5, 6, 7, 8, 9]
  length_lt := by decide

/-- After one byte was read, a rewind to the start is refused: `Fill` has read on to byte 8. -/
theorem faithful_fails :
    ¬ ∀ (src : FileStream) (nBufSize nRewindIn n : Nat) (calls : List BufferCall),
      src.pos = 0 → src.feof = false → src.content.length < n →
        Faithful n (init src nBufSize nRewindIn) calls := by
  intro hall
  obtain ⟨out, g, hrun, -, -, hrest⟩ :=
    hall sampleStream 10 2 11 [.read 1, .setPos 0] rfl rfl (by decide) trivial
  have hread : (BufferCall.read 1).run 11 (init sampleStream 10 2) =
      some (.data (.ok [0]), { init sampleStream 10 2 with
        src := { sampleStream with pos := 8 }
        nSrcPos := 8
        nReadPos := 1
        vchBuf := [0, 1, 2, 3, 4, 5, 6, 7, 0, 0] }) := rfl
  obtain ⟨-, rfl⟩ := Prod.mk.inj (Option.some.inj (hrun.symm.trans hread))
  obtain ⟨out, g, hset, -, ⟨hflag, -⟩, -⟩ := hrest ⟨by decide, by decide⟩
  have hfalse := (Prod.mk.inj (Option.some.inj hset)).1.trans hflag
  exact absurd (BufferReturn.flag.inj hfalse) (by decide)

end CBufferedFile

end Fedoracoin
