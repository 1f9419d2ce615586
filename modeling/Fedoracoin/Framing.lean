import Fedoracoin.Serialize
import Fedoracoin.Lib.Loop
import Fedoracoin.Lib.PrefixCode
import Fedoracoin.Lib.Run

/-!
# Framing of messages

`EndMessage` and `SocketSendData` on one side of a connection, `ReceiveMsgBytes` on the other.  The
sender keeps a cursor inside the front entry of its queue, the receiver one inside its last message,
and neither sees where the other one cuts.  Messages form a prefix code, since the header has the
size of what follows, so the bytes received so far determine the messages received so far.
-/

namespace Fedoracoin

open Wire PrefixCode

abbrev CSerializeData := List UInt8

/-! ## Headers -/

structure CMessageHeader where
  pchMessageStart : List UInt8
  pchCommand : List UInt8
  nMessageSize : Nat
  nChecksum : Nat
deriving DecidableEq

namespace CMessageHeader

def messageStartSize : Nat := 4
def commandSize : Nat := 12
def messageSizeOffset : Nat := messageStartSize + commandSize
def checksumOffset : Nat := messageSizeOffset + 4
def headerSize : Nat := checksumOffset + 4

/-- The header of a message that has not arrived; the command is not a valid one. -/
def empty (messageStart : List UInt8) : CMessageHeader where
  pchMessageStart := messageStart
  pchCommand := 0 :: 1 :: List.replicate (commandSize - 2) 0
  nMessageSize := uintMax
  nChecksum := 0

/-- The header that `BeginMessage` writes, with the name cut or padded as `strncpy` does. -/
def ofCommand (messageStart pszCommand : List UInt8) (nMessageSize : Nat) : CMessageHeader where
  pchMessageStart := messageStart
  pchCommand := (pszCommand ++ List.replicate commandSize 0).take commandSize
  nMessageSize := nMessageSize
  nChecksum := 0

def serialize (hdr : CMessageHeader) : List UInt8 :=
  hdr.pchMessageStart ++ hdr.pchCommand ++ toBytes 4 hdr.nMessageSize ++ toBytes 4 hdr.nChecksum

def unserialize : StreamReader CMessageHeader := do
  let pchMessageStart ← readData messageStartSize
  let pchCommand ← readData commandSize
  let nMessageSize ← readUInt 4
  let nChecksum ← readUInt 4
  return { pchMessageStart := pchMessageStart, pchCommand := pchCommand,
           nMessageSize := nMessageSize, nChecksum := nChecksum }

end CMessageHeader

open CMessageHeader

/-! ## The sender -/

/-- What `send` answers when it is given `n` bytes: how many it took, or a negative number and
whether the error is one that ends the connection. -/
structure SendResult (n : Nat) where
  nBytes : Int
  fatal : Bool := false
  le : nBytes ≤ n

/-- The socket during one call of `SocketSendData`, by the number of the call of `send`. -/
abbrev Socket := (nCall n : Nat) → SendResult n

/-- The members of `CNode` that sending uses. -/
structure SendQueue where
  vSendMsg : List CSerializeData := []
  nSendOffset : Nat := 0
  nSendSize : Nat := 0
  nSendBytes : Nat := 0
  fDisconnect : Bool := false
deriving DecidableEq

namespace SendQueue

/-- The loop of `SocketSendData` at the entries `it`, with the bytes given to the transport; there
is no value if the assertion fails. -/
def sendLoop (send : Socket) : (nCall : Nat) → (it : List CSerializeData) → SendQueue →
    Option (List CSerializeData × SendQueue × List UInt8)
  | _, [], node => some ([], node, [])
  | nCall, data :: it, node =>
      if data.length ≤ node.nSendOffset then none
      else
        let r := send nCall (data.length - node.nSendOffset)
        if 0 < r.nBytes then
          let nBytes := r.nBytes.toNat
          let sent := (data.drop node.nSendOffset).take nBytes
          let node := { node with
            nSendBytes := node.nSendBytes + nBytes, nSendOffset := node.nSendOffset + nBytes }
          if node.nSendOffset = data.length then
            let node := { node with nSendOffset := 0, nSendSize := node.nSendSize - data.length }
            match sendLoop send (nCall + 1) it node with
            | none => none
            | some (it, node, bytes) => some (it, node, sent ++ bytes)
          -- could not send full message; stop sending more
          else some (data :: it, node, sent)
        else
          some (data :: it,
            { node with fDisconnect := node.fDisconnect || decide (r.nBytes < 0) && r.fatal }, [])

/-- `SocketSendData`, with the bytes given to the transport. -/
def socketSendData (send : Socket) (node : SendQueue) : Option (SendQueue × List UInt8) :=
  match sendLoop send 0 node.vSendMsg node with
  | none => none
  | some (it, node, bytes) =>
      if it.isEmpty && (node.nSendOffset != 0 || node.nSendSize != 0) then none
      else some ({ node with vSendMsg := it }, bytes)

/-- `ssSend` with the size and the checksum in its header. -/
def finishMessage (hash : List UInt8 → Uint256) (ssSend : CSerializeData) : CSerializeData :=
  let nSize := ssSend.length - headerSize
  let ssSend := writeAt ssSend messageSizeOffset (toBytes 4 nSize)
  let nChecksum := (hash (ssSend.drop headerSize)).toNat % 2 ^ 32
  writeAt ssSend checksumOffset (toBytes 4 nChecksum)

/-- `EndMessage`, with the bytes given to the transport by the optimistic write.  There is no value
if the header is not complete: its fields are written to, and the assertion fails. -/
def endMessage (hash : List UInt8 → Uint256) (send : Socket) (ssSend : CSerializeData)
    (node : SendQueue) : Option (SendQueue × List UInt8) :=
  if ssSend.isEmpty then some (node, [])
  else if ssSend.length < headerSize then none
  else
    let data := finishMessage hash ssSend
    let node' := { node with
      vSendMsg := node.vSendMsg ++ [data], nSendSize := node.nSendSize + data.length }
    if node.vSendMsg.isEmpty then socketSendData send node' else some (node', [])

end SendQueue

/-! ## The receiver -/

structure CNetMessage where
  inData : Bool := false
  hdrbuf : List UInt8 := List.replicate headerSize 0
  hdr : CMessageHeader
  nHdrPos : Nat := 0
  vRecv : List UInt8 := []
  nDataPos : Nat := 0
deriving DecidableEq

/-- `resize` of a stream nothing was read from. -/
def resize (v : List UInt8) (n : Nat) : List UInt8 := v.take n ++ List.replicate (n - v.length) 0

namespace CNetMessage

def complete (msg : CNetMessage) : Bool :=
  msg.inData && msg.hdr.nMessageSize == msg.nDataPos

/-- `readHeader`: how many bytes were taken, or no number for `-1`. -/
def readHeader (msg : CNetMessage) (pch : List UInt8) : Option Nat × CNetMessage :=
  let nRemaining := headerSize - msg.nHdrPos
  let nCopy := min nRemaining pch.length
  let msg := { msg with
    hdrbuf := writeAt msg.hdrbuf msg.nHdrPos (pch.take nCopy), nHdrPos := msg.nHdrPos + nCopy }
  if msg.nHdrPos < headerSize then (some nCopy, msg)
  else
    match CMessageHeader.unserialize msg.hdrbuf with
    | .error _ => (none, msg)
    | .ok (hdr, hdrbuf) =>
        let msg := { msg with hdr := hdr, hdrbuf := hdrbuf }
        if maxSize < hdr.nMessageSize then (none, msg)
        else
          (some nCopy, { msg with inData := true, vRecv := resize msg.vRecv hdr.nMessageSize })

def readData (msg : CNetMessage) (pch : List UInt8) : Nat × CNetMessage :=
  let nRemaining := msg.hdr.nMessageSize - msg.nDataPos
  let nCopy := min nRemaining pch.length
  (nCopy, { msg with
    vRecv := writeAt msg.vRecv msg.nDataPos (pch.take nCopy), nDataPos := msg.nDataPos + nCopy })

/-- `readHeader` or `readData`, whichever the message is at. -/
def absorb (msg : CNetMessage) (pch : List UInt8) : Option Nat × CNetMessage :=
  if !msg.inData then msg.readHeader pch
  else
    let (handled, msg) := msg.readData pch
    (some handled, msg)

end CNetMessage

section

variable (messageStart : List UInt8)

/-- The messages that are there, and the current incomplete one, or a new one. -/
def currentMessage (vRecvMsg : List CNetMessage) : List CNetMessage × CNetMessage :=
  match vRecvMsg.getLast? with
  | none => (vRecvMsg, { hdr := CMessageHeader.empty messageStart })
  | some msg =>
      if msg.complete then (vRecvMsg, { hdr := CMessageHeader.empty messageStart })
      else (vRecvMsg.dropLast, msg)

/-- The body of the loop of `ReceiveMsgBytes`. -/
def receiveBody (s : List CNetMessage × List UInt8) :
    Option ((Bool × List CNetMessage) ⊕ (List CNetMessage × List UInt8)) :=
  let (vRecvMsg, pch) := s
  if pch.isEmpty then some (.inl (true, vRecvMsg))
  else
    let (earlier, msg) := currentMessage messageStart vRecvMsg
    match msg.absorb pch with
    | (none, msg) => some (.inl (false, earlier ++ [msg]))
    | (some handled, msg) => some (.inr (earlier ++ [msg], pch.drop handled))

/-- `ReceiveMsgBytes`.  There is no value if its loop goes on after as many rounds as there are
bytes. -/
def receiveMsgBytes (vRecvMsg : List CNetMessage) (pch : List UInt8) :
    Option (Bool × List CNetMessage) :=
  Loop.run (receiveBody messageStart) (pch.length + 1) (vRecvMsg, pch)

end

/-! ## A connection -/

/-- Two nodes and what is between them. -/
structure Link where
  sender : SendQueue := {}
  /-- The bytes that the transport took and has not delivered. -/
  wire : List UInt8 := []
  vRecvMsg : List CNetMessage := []
  /-- The messages that were erased from the front of `vRecvMsg`. -/
  processed : List CNetMessage := []
  /-- `ReceiveMsgBytes` returned false. -/
  refused : Bool := false
  /-- The messages queued so far. -/
  queued : List CSerializeData := []

inductive LinkCall
  | endMessage (send : Socket) (ssSend : CSerializeData)
  | socketSendData (send : Socket)
  /-- The next `n` bytes arrive. -/
  | receiveMsgBytes (n : Nat)
  /-- `ProcessMessages` is done with the front message. -/
  | processMessage

/-- One call on one of the sides.  Payloads have at most `MAX_SIZE` bytes. -/
def LinkStep (hash : List UInt8 → Uint256) (messageStart : List UInt8) (s : Link) :
    LinkCall → Link → Prop
  | .endMessage send ssSend, s' =>
      ssSend.length ≤ headerSize + maxSize ∧
      ∃ node bytes, s.sender.endMessage hash send ssSend = some (node, bytes) ∧
        s' = { s with
          sender := node
          wire := s.wire ++ bytes
          queued := if ssSend.isEmpty then s.queued
            else s.queued ++ [SendQueue.finishMessage hash ssSend] }
  | .socketSendData send, s' =>
      ∃ node bytes, s.sender.socketSendData send = some (node, bytes) ∧
        s' = { s with sender := node, wire := s.wire ++ bytes }
  | .receiveMsgBytes n, s' =>
      ∃ ok vRecvMsg, receiveMsgBytes messageStart s.vRecvMsg (s.wire.take n) =
          some (ok, vRecvMsg) ∧
        s' = { s with
          wire := s.wire.drop n, vRecvMsg := vRecvMsg, refused := s.refused || !ok }
  | .processMessage, s' =>
      ∃ msg rest, s.vRecvMsg = msg :: rest ∧ msg.complete = true ∧
        s' = { s with vRecvMsg := rest, processed := s.processed ++ [msg] }

/-! ## The sender's cursor -/

namespace SendQueue

variable {node : SendQueue} {it : List CSerializeData}

/-- The cursor when the entries `it` are left: it is inside the front entry, and `nSendSize` is
the size of them all. -/
structure Holds (node : SendQueue) (it : List CSerializeData) : Prop where
  ne_nil : ∀ data ∈ it, data ≠ []
  nSendSize : node.nSendSize = (it.map List.length).sum
  nSendOffset : node.nSendOffset < it.head?.elim 1 List.length

/-- What is queued and was not given to the transport. -/
def unsent (node : SendQueue) : List UInt8 := node.vSendMsg.flatten.drop node.nSendOffset

theorem holds_empty : Holds {} [] where
  ne_nil _ h := absurd h List.not_mem_nil
  nSendSize := rfl
  nSendOffset := Nat.one_pos

/-- The loop gives away what the cursor passes, and the assertion in it holds. -/
theorem sendLoop_spec (send : Socket) (nCall : Nat) (h : node.Holds it) :
    ∃ it' node' bytes, sendLoop send nCall it node = some (it', node', bytes) ∧
      node'.Holds it' ∧
      bytes ++ it'.flatten.drop node'.nSendOffset = it.flatten.drop node.nSendOffset := by
  induction it generalizing node nCall with
  | nil => exact ⟨[], node, [], rfl, h, List.nil_append _⟩
  | cons data it ih =>
      have hlt : node.nSendOffset < data.length := h.nSendOffset
      have hdrop : (data :: it).flatten.drop node.nSendOffset =
          data.drop node.nSendOffset ++ it.flatten := by
        rw [List.flatten_cons, List.drop_append_of_le_length hlt.le]
      have hsize : node.nSendSize = data.length + (it.map List.length).sum := h.nSendSize
      rw [sendLoop, if_neg (Nat.not_le.mpr hlt)]
      dsimp only
      split
      case isFalse => exact ⟨data :: it, _, [], rfl, ⟨h.ne_nil, h.nSendSize, hlt⟩, rfl⟩
      case isTrue hpos =>
        have hle := (send nCall (data.length - node.nSendOffset)).le
        generalize (send nCall (data.length - node.nSendOffset)).nBytes = nBytes at hpos hle
        split
        case isFalse hpart =>
          -- the front entry stays, with the cursor further on in it
          refine ⟨data :: it, _, _, rfl, ⟨h.ne_nil, h.nSendSize, ?_⟩, ?_⟩
          · change node.nSendOffset + nBytes.toNat < data.length
            omega
          · change _ ++ (data :: it).flatten.drop (node.nSendOffset + nBytes.toNat) = _
            rw [hdrop, List.flatten_cons, List.drop_append_of_le_length (by omega),
              ← List.append_assoc, ← List.drop_drop, List.take_append_drop]
        case isTrue hfull =>
          have hrest : ({ node with
              nSendBytes := node.nSendBytes + nBytes.toNat
              nSendOffset := 0
              nSendSize := node.nSendSize - data.length } : SendQueue).Holds it := by
            refine ⟨fun d hd ↦ h.ne_nil d (List.mem_cons_of_mem _ hd), ?_, ?_⟩
            · change node.nSendSize - data.length = _
              rw [hsize, Nat.add_sub_cancel_left]
            · cases it with
              | nil => exact Nat.one_pos
              | cons d it =>
                  exact List.length_pos_iff.mpr (h.ne_nil d (by simp))
          obtain ⟨it', node', bytes, hloop, hholds, hbytes⟩ := ih (nCall + 1) hrest
          rw [hloop]
          refine ⟨it', node', _, rfl, hholds, ?_⟩
          rw [List.append_assoc, hbytes, hdrop, List.drop_zero, List.take_of_length_le]
          rw [List.length_drop]
          omega

/-- `SocketSendData` returns, whatever the socket answers, and what it gives to the transport is
the front of what was queued. -/
theorem socketSendData_spec (h : node.Holds node.vSendMsg) (send : Socket) :
    ∃ node' bytes, node.socketSendData send = some (node', bytes) ∧
      node'.Holds node'.vSendMsg ∧ bytes ++ node'.unsent = node.unsent := by
  obtain ⟨it, node', bytes, hloop, hholds, hbytes⟩ := sendLoop_spec send 0 h
  have hassert : (it.isEmpty && (node'.nSendOffset != 0 || node'.nSendSize != 0)) = false := by
    cases it with
    | cons data it => rfl
    | nil =>
        have hoffset : node'.nSendOffset = 0 := Nat.lt_one_iff.mp hholds.nSendOffset
        have hsize : node'.nSendSize = 0 := hholds.nSendSize
        rw [hoffset, hsize]
        rfl
  rw [socketSendData, hloop]
  simp only [hassert, Bool.false_eq_true, if_false]
  exact ⟨_, bytes, rfl, ⟨hholds.ne_nil, hholds.nSendSize, hholds.nSendOffset⟩, hbytes⟩

end SendQueue

/-! ## Messages as words -/

/-- A header with the size of what follows. -/
structure IsMessage (data : CSerializeData) : Prop where
  header : headerSize ≤ data.length
  payload : data.length ≤ headerSize + maxSize
  nMessageSize : ofBytes ((data.drop messageSizeOffset).take 4) + headerSize = data.length

theorem headerSize_eq : headerSize = 24 := rfl

theorem messageSizeOffset_eq : messageSizeOffset = 16 := rfl

theorem checksumOffset_eq : checksumOffset = 20 := rfl

/-- The size is in the header, so no message begins another one. -/
theorem isPrefixCode_isMessage : IsPrefixCode IsMessage where
  ne_nil data h := by
    rintro rfl
    exact absurd h.header (by rw [headerSize_eq]; exact Nat.not_succ_le_zero _)
  eq_of_begin a b ha hb hab := by
    obtain ⟨t, rfl⟩ := hab
    have hlen := ha.header
    have hsize := hb.nMessageSize
    rw [headerSize_eq] at hlen
    rw [List.drop_append_of_le_length (by rw [messageSizeOffset_eq]; omega),
      List.take_append_of_le_length (by rw [List.length_drop, messageSizeOffset_eq]; omega),
      ha.nMessageSize, List.length_append] at hsize
    rw [List.length_eq_zero_iff.mp (by omega : t.length = 0), List.append_nil]

/-- What `EndMessage` queues is a message. -/
theorem SendQueue.isMessage_finishMessage (hash : List UInt8 → Uint256) {ssSend : CSerializeData}
    (hheader : headerSize ≤ ssSend.length) (hpayload : ssSend.length ≤ headerSize + maxSize) :
    IsMessage (finishMessage hash ssSend) := by
  rw [headerSize_eq] at hheader
  have hmax : maxSize = 33554432 := rfl
  rw [finishMessage]
  generalize hsized : writeAt ssSend messageSizeOffset (toBytes 4 (ssSend.length - headerSize)) =
    sized
  generalize (hash (sized.drop headerSize)).toNat % 2 ^ 32 = nChecksum
  have hlen : sized.length = ssSend.length := by
    rw [← hsized]
    apply length_writeAt
    rw [length_toBytes, messageSizeOffset_eq]
    omega
  have htake : sized.take checksumOffset =
      ssSend.take messageSizeOffset ++ toBytes 4 (ssSend.length - headerSize) := by
    rw [← hsized, ← take_writeAt _ (by rw [messageSizeOffset_eq]; omega), length_toBytes]
    rfl
  have hlen' : (writeAt sized checksumOffset (toBytes 4 nChecksum)).length = ssSend.length := by
    rw [length_writeAt (by rw [length_toBytes, checksumOffset_eq]; omega), hlen]
  constructor
  case header => rwa [hlen', headerSize_eq]
  case payload => rwa [hlen']
  case nMessageSize =>
    have hfield : ((writeAt sized checksumOffset (toBytes 4 nChecksum)).drop
        messageSizeOffset).take 4 = toBytes 4 (ssSend.length - headerSize) := by
      rw [writeAt_of_le (by rw [checksumOffset_eq]; omega), htake, List.append_assoc,
        List.append_assoc, List.drop_left', List.take_left' (length_toBytes 4 _)]
      rw [List.length_take, messageSizeOffset_eq]
      omega
    rw [hfield, hlen', ofBytes_toBytes (by rw [headerSize_eq] at hpayload ⊢; omega), headerSize_eq]
    omega

namespace SendQueue

variable {node : SendQueue}

/-- The cursor is not past the end of what is queued. -/
theorem Holds.offset_le (h : node.Holds node.vSendMsg) :
    node.nSendOffset ≤ node.vSendMsg.flatten.length := by
  have hlt := h.nSendOffset
  cases hv : node.vSendMsg with
  | nil =>
      rw [hv] at hlt
      exact (Nat.lt_one_iff.mp hlt).le
  | cons data it =>
      rw [hv] at hlt
      rw [List.flatten_cons, List.length_append]
      exact hlt.le.trans (Nat.le_add_right _ _)

/-- `EndMessage` returns, and puts one message behind what was queued. -/
theorem endMessage_spec (h : node.Holds node.vSendMsg) (hash : List UInt8 → Uint256)
    (send : Socket) {ssSend : CSerializeData} (hheader : headerSize ≤ ssSend.length)
    (hpayload : ssSend.length ≤ headerSize + maxSize) :
    ∃ node' bytes, node.endMessage hash send ssSend = some (node', bytes) ∧
      node'.Holds node'.vSendMsg ∧
      bytes ++ node'.unsent = node.unsent ++ finishMessage hash ssSend := by
  have hmessage := isMessage_finishMessage hash hheader hpayload
  have hne : ssSend.isEmpty = false := by
    rw [List.isEmpty_eq_false_iff]
    rintro rfl
    exact absurd hheader (by rw [headerSize_eq]; exact Nat.not_succ_le_zero _)
  rw [endMessage, hne, if_neg Bool.false_ne_true, if_neg (Nat.not_lt.mpr hheader)]
  dsimp only
  generalize finishMessage hash ssSend = data at hmessage
  generalize hnode : ({ node with
    vSendMsg := node.vSendMsg ++ [data]
    nSendSize := node.nSendSize + data.length } : SendQueue) = node₁
  have hdata := isPrefixCode_isMessage.ne_nil data hmessage
  have hholds : node₁.Holds node₁.vSendMsg := by
    subst hnode
    constructor
    case ne_nil =>
      intro d hd
      rcases List.mem_append.mp hd with hd | hd
      · exact h.ne_nil d hd
      · exact List.mem_singleton.mp hd ▸ hdata
    case nSendSize =>
      change node.nSendSize + data.length = _
      rw [h.nSendSize, List.map_append, List.sum_append, List.map_singleton,
        List.sum_singleton]
    case nSendOffset =>
      have hlt := h.nSendOffset
      change node.nSendOffset < (node.vSendMsg ++ [data]).head?.elim 1 List.length
      cases hv : node.vSendMsg with
      | cons d it => rwa [hv] at hlt
      | nil =>
          rw [hv] at hlt
          rw [Nat.lt_one_iff.mp hlt]
          exact List.length_pos_iff.mpr hdata
  have hunsent : node₁.unsent = node.unsent ++ data := by
    subst hnode
    rw [unsent, unsent, List.flatten_append, List.flatten_singleton,
      List.drop_append_of_le_length h.offset_le]
  split
  case isTrue =>
    obtain ⟨node', bytes, hsend, hholds', hbytes⟩ := socketSendData_spec hholds send
    exact ⟨node', bytes, hsend, hholds', hbytes.trans hunsent⟩
  case isFalse => exact ⟨node₁, [], rfl, hholds, hunsent⟩

end SendQueue

/-! ## The receiver's cursor -/

namespace CMessageHeader

variable {hdr : CMessageHeader} {s : List UInt8}

theorem takes_unserialize : Takes unserialize serialize := by
  intro s hdr t h
  obtain ⟨pchMessageStart, s₁, h₁, h⟩ := bind_ok h
  obtain ⟨pchCommand, s₂, h₂, h⟩ := bind_ok h
  obtain ⟨nMessageSize, s₃, h₃, h⟩ := bind_ok h
  obtain ⟨nChecksum, s₄, h₄, h⟩ := bind_ok h
  obtain ⟨rfl, rfl⟩ := pure_ok h
  rw [(take_ok h₁).1, (take_ok h₂).1, (readUInt_ok h₃).1, (readUInt_ok h₄).1]
  simp only [serialize, List.append_assoc]

/-- A full buffer is always a header. -/
theorem unserialize_of_length (h : s.length = headerSize) :
    ∃ hdr, unserialize s = .ok (hdr, []) ∧ hdr.serialize = s ∧
      hdr.nMessageSize = ofBytes ((s.drop messageSizeOffset).take 4) := by
  rw [headerSize_eq] at h
  have hstart : messageStartSize = 4 := rfl
  have hcommand : commandSize = 12 := rfl
  have hread : unserialize s = .ok
      ({ pchMessageStart := s.take 4, pchCommand := (s.drop 4).take 12,
         nMessageSize := ofBytes ((s.drop 16).take 4),
         nChecksum := ofBytes ((s.drop 20).take 4) }, []) := by
    rw [unserialize, bind_of_ok (readData_of_le (by omega)),
      bind_of_ok (readData_of_le (by rw [List.length_drop]; omega)),
      bind_of_ok (readUInt_of_le (by simp only [List.length_drop]; omega)),
      bind_of_ok (readUInt_of_le (by simp only [List.length_drop]; omega))]
    have hend : s.drop 24 = [] := List.drop_eq_nil_of_le h.le
    simp only [List.drop_drop, hstart, hcommand, Nat.reduceAdd, hend]
    rfl
  refine ⟨_, hread, ?_, rfl⟩
  have h := takes_unserialize _ _ _ hread
  rwa [List.append_nil, eq_comm] at h

end CMessageHeader

namespace CNetMessage

variable {msg msg' : CNetMessage} {pch : List UInt8}

/-- The bytes of a message that have arrived. -/
def bytes (msg : CNetMessage) : List UInt8 :=
  if msg.inData then msg.hdr.serialize ++ msg.vRecv.take msg.nDataPos
  else msg.hdrbuf.take msg.nHdrPos

/-- The header and the payload. -/
def message (msg : CNetMessage) : List UInt8 := msg.hdr.serialize ++ msg.vRecv

/-- A message in the header has room in its buffer, one in the data has the room its header asks
for. -/
inductive Valid (msg : CNetMessage) : Prop
  | header (hin : msg.inData = false) (hbuf : msg.hdrbuf.length = headerSize)
      (hpos : msg.nHdrPos < headerSize) (hrecv : msg.vRecv = []) (hdata : msg.nDataPos = 0)
  | data (hin : msg.inData = true) (hhdr : msg.hdr.serialize.length = headerSize)
      (hsize : ofBytes ((msg.hdr.serialize.drop messageSizeOffset).take 4) = msg.hdr.nMessageSize)
      (hmax : msg.hdr.nMessageSize ≤ maxSize) (hrecv : msg.vRecv.length = msg.hdr.nMessageSize)
      (hpos : msg.nDataPos ≤ msg.hdr.nMessageSize)

theorem valid_new (hdr : CMessageHeader) : Valid { hdr := hdr } :=
  .header rfl (List.length_replicate ..) (by rw [headerSize_eq]; exact Nat.succ_pos 23) rfl rfl

theorem bytes_new (hdr : CMessageHeader) : bytes { hdr := hdr } = [] := rfl

/-- All of a complete message has arrived. -/
theorem Valid.bytes_of_complete (h : msg.Valid) (hc : msg.complete = true) :
    msg.bytes = msg.message ∧ IsMessage msg.message := by
  rw [complete, Bool.and_eq_true, beq_iff_eq] at hc
  obtain ⟨hin, hpos⟩ := hc
  cases h with
  | header hin' => exact absurd hin (by simp [hin'])
  | data _ hhdr hsize hmax hrecv =>
      have hlen : msg.message.length = headerSize + msg.hdr.nMessageSize := by
        rw [message, List.length_append, hhdr, hrecv]
      refine ⟨?_, ?_, ?_, ?_⟩
      · rw [bytes, if_pos hin, message, ← hpos, ← hrecv, List.take_length]
      · rw [hlen]
        exact Nat.le_add_right _ _
      · rw [hlen]
        exact Nat.add_le_add_left hmax _
      · rw [message, List.drop_append_of_le_length (by rw [hhdr]; decide),
          List.take_append_of_le_length (by rw [List.length_drop, hhdr]; decide), hsize,
          ← message, hlen, Nat.add_comm]

/-- The header takes what it lacks.  It is refused only for the size it asks for. -/
theorem Valid.readHeader (h : msg.Valid) (hin : msg.inData = false) (hpch : pch ≠ []) :
    ∃ n, 0 < n ∧ n ≤ pch.length ∧
      ((∃ msg', msg.readHeader pch = (some n, msg') ∧ msg'.Valid ∧
          msg'.bytes = msg.bytes ++ pch.take n) ∨
        (msg.readHeader pch).1 = none ∧ (msg.bytes ++ pch.take n).length = headerSize ∧
          maxSize < ofBytes (((msg.bytes ++ pch.take n).drop messageSizeOffset).take 4)) := by
  cases h with
  | data hin' => exact absurd hin' (by simp [hin])
  | header _ hbuf hpos hrecv hdata =>
      have hlen := List.length_pos_iff.mpr hpch
      refine ⟨min (headerSize - msg.nHdrPos) pch.length, by omega, Nat.min_le_right _ _, ?_⟩
      rw [CNetMessage.readHeader]
      dsimp only
      generalize hn : min (headerSize - msg.nHdrPos) pch.length = n
      have htake : (pch.take n).length = n := by
        rw [List.length_take]
        omega
      have hbytes : msg.bytes ++ pch.take n =
          (writeAt msg.hdrbuf msg.nHdrPos (pch.take n)).take (msg.nHdrPos + n) := by
        have h := take_writeAt (pch.take n) (hbuf ▸ hpos.le)
        rw [htake] at h
        rw [bytes, hin, h]
        rfl
      have hbuf' : (writeAt msg.hdrbuf msg.nHdrPos (pch.take n)).length = headerSize := by
        rw [length_writeAt (by omega), hbuf]
      rw [hbytes]
      generalize writeAt msg.hdrbuf msg.nHdrPos (pch.take n) = hdrbuf at hbuf'
      split
      case isTrue hshort =>
        refine Or.inl ⟨_, rfl, .header hin hbuf' hshort hrecv hdata, ?_⟩
        rw [bytes, hin]
        rfl
      case isFalse hfull =>
        have hpos' : msg.nHdrPos + n = headerSize := by omega
        obtain ⟨hdr, hread, hser, hsize⟩ := CMessageHeader.unserialize_of_length hbuf'
        rw [hread, hpos', List.take_of_length_le hbuf'.le]
        dsimp only
        split
        case isTrue hmax => exact Or.inr ⟨rfl, hbuf', hsize ▸ hmax⟩
        case isFalse hmax =>
          refine Or.inl ⟨_, rfl, .data rfl ?_ ?_ (Nat.not_lt.mp hmax) ?_ ?_, ?_⟩
          · change hdr.serialize.length = _
            rw [hser, hbuf']
          · change ofBytes ((hdr.serialize.drop _).take 4) = hdr.nMessageSize
            rw [hser, hsize]
          · change (resize msg.vRecv hdr.nMessageSize).length = _
            rw [hrecv, resize, List.take_nil, List.nil_append, List.length_replicate]
            rfl
          · change msg.nDataPos ≤ _
            rw [hdata]
            exact Nat.zero_le _
          · change hdr.serialize ++ (resize msg.vRecv hdr.nMessageSize).take msg.nDataPos = hdrbuf
            rw [hdata, hser, List.take_zero, List.append_nil]

/-- The data takes what it lacks. -/
theorem Valid.readData (h : msg.Valid) (hin : msg.inData = true) (hc : msg.complete = false)
    (hpch : pch ≠ []) :
    ∃ n msg', msg.readData pch = (n, msg') ∧ 0 < n ∧ n ≤ pch.length ∧ msg'.Valid ∧
      msg'.bytes = msg.bytes ++ pch.take n := by
  cases h with
  | header hin' => exact absurd hin' (by simp [hin])
  | data _ hhdr hsize hmax hrecv hpos =>
      have hlen := List.length_pos_iff.mpr hpch
      have hne : msg.nDataPos ≠ msg.hdr.nMessageSize := by
        rintro heq
        rw [complete, hin, heq, beq_self_eq_true] at hc
        cases hc
      rw [CNetMessage.readData]
      generalize hn : min (msg.hdr.nMessageSize - msg.nDataPos) pch.length = n
      have htake : (pch.take n).length = n := by
        rw [List.length_take]
        omega
      refine ⟨n, _, rfl, by omega, by omega, .data hin hhdr hsize hmax ?_ ?_, ?_⟩
      · change (writeAt msg.vRecv msg.nDataPos (pch.take n)).length = _
        rw [length_writeAt (by omega), hrecv]
      · change msg.nDataPos + n ≤ msg.hdr.nMessageSize
        omega
      · have h := take_writeAt (pch.take n) (hrecv ▸ hpos)
        rw [htake] at h
        rw [bytes, bytes, if_pos hin, if_pos hin, List.append_assoc, ← h]

end CNetMessage

/-! ## Chunks -/

/-- What `vRecvMsg` holds between two chunks: only the last message may be incomplete. -/
structure Arriving (vRecvMsg : List CNetMessage) : Prop where
  valid : ∀ msg ∈ vRecvMsg, msg.Valid
  complete : ∀ msg ∈ vRecvMsg.dropLast, msg.complete = true

/-- Messages that are all there. -/
def Arrived (msgs : List CNetMessage) : Prop := ∀ msg ∈ msgs, msg.Valid ∧ msg.complete = true

section

variable {vRecvMsg earlier msgs : List CNetMessage} {msg : CNetMessage}

theorem Arrived.append_singleton (h : Arrived earlier) (hmsg : msg.Valid) :
    Arriving (earlier ++ [msg]) where
  valid m hm := by
    rcases List.mem_append.mp hm with hm | hm
    · exact (h m hm).1
    · exact List.mem_singleton.mp hm ▸ hmsg
  complete m hm := by
    rw [List.dropLast_concat] at hm
    exact (h m hm).2

theorem Arrived.flatMap_bytes (h : Arrived msgs) :
    msgs.flatMap CNetMessage.bytes = (msgs.map CNetMessage.message).flatten := by
  rw [List.flatMap]
  congr 1
  exact List.map_congr_left fun msg hmsg ↦ ((h msg hmsg).1.bytes_of_complete (h msg hmsg).2).1

theorem Arrived.isMessage (h : Arrived msgs) : ∀ data ∈ msgs.map CNetMessage.message,
    IsMessage data := by
  intro data hdata
  obtain ⟨msg, hmsg, rfl⟩ := List.mem_map.mp hdata
  exact ((h msg hmsg).1.bytes_of_complete (h msg hmsg).2).2

/-- The current message is incomplete, and all before it have arrived. -/
theorem currentMessage_spec (messageStart : List UInt8) (h : Arriving vRecvMsg) :
    Arrived (currentMessage messageStart vRecvMsg).1 ∧
      (currentMessage messageStart vRecvMsg).2.Valid ∧
      (currentMessage messageStart vRecvMsg).2.complete = false ∧
      (currentMessage messageStart vRecvMsg).1.flatMap CNetMessage.bytes ++
        (currentMessage messageStart vRecvMsg).2.bytes = vRecvMsg.flatMap CNetMessage.bytes := by
  rw [currentMessage]
  cases vRecvMsg using List.reverseRecOn with
  | nil =>
      refine ⟨nofun, CNetMessage.valid_new _, rfl, ?_⟩
      exact CNetMessage.bytes_new (CMessageHeader.empty messageStart)
  | append_singleton l msg =>
      have hl : Arrived l := fun m hm ↦ ⟨h.valid m (List.mem_append_left _ hm),
        h.complete m (by rwa [List.dropLast_concat])⟩
      have hmsg : msg.Valid := h.valid msg (List.mem_append_right _ List.mem_cons_self)
      rw [List.getLast?_concat]
      dsimp only
      split
      case isTrue hc =>
        refine ⟨?_, CNetMessage.valid_new _, rfl, ?_⟩
        · intro m hm
          rcases List.mem_append.mp hm with hm | hm
          · exact hl m hm
          · exact List.mem_singleton.mp hm ▸ ⟨hmsg, hc⟩
        · rw [CNetMessage.bytes_new, List.append_nil]
      case isFalse hc =>
        rw [List.dropLast_concat, List.flatMap_append, List.flatMap_singleton]
        exact ⟨hl, hmsg, Bool.not_eq_true _ ▸ hc, rfl⟩

/-- One round of the loop takes some bytes, or refuses a header for the size it asks for. -/
theorem receiveBody_spec (messageStart : List UInt8) (h : Arriving vRecvMsg) {pch : List UInt8}
    (hpch : pch ≠ []) :
    (∃ v n, receiveBody messageStart (vRecvMsg, pch) = some (.inr (v, pch.drop n)) ∧
      0 < n ∧ Arriving v ∧
      v.flatMap CNetMessage.bytes = vRecvMsg.flatMap CNetMessage.bytes ++ pch.take n) ∨
    ∃ v earlier hdr n, receiveBody messageStart (vRecvMsg, pch) = some (.inl (false, v)) ∧
      Arrived earlier ∧ hdr.length = headerSize ∧
      maxSize < ofBytes ((hdr.drop messageSizeOffset).take 4) ∧
      earlier.flatMap CNetMessage.bytes ++ hdr =
        vRecvMsg.flatMap CNetMessage.bytes ++ pch.take n := by
  obtain ⟨hearlier, hvalid, hc, hbytes⟩ := currentMessage_spec messageStart h
  rw [receiveBody]
  dsimp only
  rw [if_neg (by simpa using hpch)]
  generalize (currentMessage messageStart vRecvMsg).1 = earlier at *
  generalize (currentMessage messageStart vRecvMsg).2 = msg at *
  rw [← hbytes]
  cases hin : msg.inData with
  | true =>
      obtain ⟨n, msg', hread, hn, -, hvalid', hbytes'⟩ := hvalid.readData hin hc hpch
      rw [CNetMessage.absorb, hin, hread]
      refine Or.inl ⟨_, n, rfl, hn, hearlier.append_singleton hvalid', ?_⟩
      rw [List.flatMap_append, List.flatMap_singleton, hbytes', List.append_assoc]
  | false =>
      obtain ⟨n, hn, -, ⟨msg', hread, hvalid', hbytes'⟩ | ⟨hread, hlen, hmax⟩⟩ :=
        hvalid.readHeader hin hpch
      · rw [CNetMessage.absorb, hin]
        simp only [Bool.not_false, if_true]
        rw [hread]
        refine Or.inl ⟨_, n, rfl, hn, hearlier.append_singleton hvalid', ?_⟩
        rw [List.flatMap_append, List.flatMap_singleton, hbytes', List.append_assoc]
      · rw [CNetMessage.absorb, hin]
        simp only [Bool.not_false, if_true]
        cases hr : msg.readHeader pch with
        | mk handled msg' =>
            rw [hr] at hread
            cases handled with
            | some handled => cases hread
            | none =>
                exact Or.inr ⟨_, earlier, _, n, rfl, hearlier, hlen, hmax,
                  by rw [List.append_assoc]⟩

/-- `ReceiveMsgBytes` returns on every chunk, and either keeps all of it, or refuses a header that
asks for too much. -/
theorem receiveMsgBytes_spec (messageStart : List UInt8) (h : Arriving vRecvMsg)
    (pch : List UInt8) :
    ∃ ok v, receiveMsgBytes messageStart vRecvMsg pch = some (ok, v) ∧
      (ok = true → Arriving v ∧
        v.flatMap CNetMessage.bytes = vRecvMsg.flatMap CNetMessage.bytes ++ pch) ∧
      (ok = false → ∃ earlier hdr, Arrived earlier ∧ hdr.length = headerSize ∧
        maxSize < ofBytes ((hdr.drop messageSizeOffset).take 4) ∧
        earlier.flatMap CNetMessage.bytes ++ hdr <+:
          vRecvMsg.flatMap CNetMessage.bytes ++ pch) := by
  have hrun := @Loop.run_spec _ _ (receiveBody messageStart) (vRecvMsg, pch) (pch.length + 1)
    (fun r ↦ Arriving r.1 ∧
      r.1.flatMap CNetMessage.bytes ++ r.2 = vRecvMsg.flatMap CNetMessage.bytes ++ pch)
    (fun r ↦ (r.1 = true → Arriving r.2 ∧
        r.2.flatMap CNetMessage.bytes = vRecvMsg.flatMap CNetMessage.bytes ++ pch) ∧
      (r.1 = false → ∃ earlier hdr, Arrived earlier ∧ hdr.length = headerSize ∧
        maxSize < ofBytes ((hdr.drop messageSizeOffset).take 4) ∧
        earlier.flatMap CNetMessage.bytes ++ hdr <+:
          vRecvMsg.flatMap CNetMessage.bytes ++ pch))
    (fun r ↦ r.2.length) ?_ ⟨h, rfl⟩ (Nat.lt_succ_self _)
  · obtain ⟨⟨ok, v⟩, hrun, htrue, hfalse⟩ := hrun
    exact ⟨ok, v, hrun, htrue, hfalse⟩
  · rintro ⟨v, rest⟩ ⟨hv, hstream⟩
    dsimp only at hv hstream
    by_cases hrest : rest = []
    · subst hrest
      rw [List.append_nil] at hstream
      exact Or.inl ⟨(true, v), rfl, fun _ ↦ ⟨hv, hstream⟩, nofun⟩
    · rcases receiveBody_spec messageStart hv hrest with
        ⟨v', n, hbody, hn, hv', hbytes⟩ | ⟨v', earlier, hdr, n, hbody, hearlier, hlen, hmax, hbytes⟩
      · refine Or.inr ⟨(v', rest.drop n), hbody, ⟨hv', ?_⟩, ?_⟩
        · dsimp only
          rw [hbytes, List.append_assoc, List.take_append_drop, hstream]
        · have hpos := List.length_pos_iff.mpr hrest
          dsimp only
          rw [List.length_drop]
          omega
      · refine Or.inl ⟨(false, v'), hbody, nofun,
          fun _ ↦ ⟨earlier, hdr, hearlier, hlen, hmax, ?_⟩⟩
        rw [hbytes, ← hstream]
        exact (List.prefix_append_right_inj _).mpr (List.take_prefix n rest)

end

/-! ## Runs -/

namespace Link

variable {hash : List UInt8 → Uint256} {messageStart : List UInt8} {s s' : Link} {call : LinkCall}

/-- The bytes of the queued messages are with the receiver, on the wire and with the sender, in
this order. -/
structure Inv (s : Link) : Prop where
  sender : s.sender.Holds s.sender.vSendMsg
  queued : ∀ data ∈ s.queued, IsMessage data
  processed : Arrived s.processed
  arriving : Arriving s.vRecvMsg
  refused : s.refused = false
  stream : s.processed.flatMap CNetMessage.bytes ++ s.vRecvMsg.flatMap CNetMessage.bytes ++
    s.wire ++ s.sender.unsent = s.queued.flatten

theorem inv_empty : Inv {} where
  sender := SendQueue.holds_empty
  queued _ h := absurd h List.not_mem_nil
  processed _ h := absurd h List.not_mem_nil
  arriving := ⟨nofun, nofun⟩
  refused := rfl
  stream := rfl

/-- No header that arrives after whole messages asks for too much. -/
theorem Inv.not_refused (hs : s.Inv) {earlier : List CNetMessage} {hdr : List UInt8}
    (hearlier : Arrived earlier) (hlen : hdr.length = headerSize)
    (hpre : s.processed.flatMap CNetMessage.bytes ++ (earlier.flatMap CNetMessage.bytes ++ hdr) <+:
      s.queued.flatten) :
    ofBytes ((hdr.drop messageSizeOffset).take 4) ≤ maxSize := by
  have hall : Arrived (s.processed ++ earlier) := by
    intro msg hmsg
    rcases List.mem_append.mp hmsg with hmsg | hmsg
    · exact hs.processed msg hmsg
    · exact hearlier msg hmsg
  rw [← List.append_assoc, ← List.flatMap_append, hall.flatMap_bytes] at hpre
  obtain ⟨zs, hzs, hpre⟩ :=
    isPrefixCode_isMessage.rest_of_flatten hall.isMessage hs.queued hpre
  cases zs with
  | nil =>
      rw [List.flatten_nil, List.prefix_nil] at hpre
      rw [hpre] at hlen
      cases hlen
  | cons data zs =>
      have hdata : IsMessage data := hs.queued data (by rw [hzs]; simp)
      have hbegins : hdr <+: data := by
        apply List.prefix_of_prefix_length_le hpre (List.prefix_append data _)
        rw [hlen]
        exact hdata.header
      obtain ⟨payload, rfl⟩ := hbegins
      have hsize := hdata.nMessageSize
      have hle := hdata.payload
      rw [List.drop_append_of_le_length (by rw [hlen]; decide),
        List.take_append_of_le_length (by rw [List.length_drop, hlen]; decide)] at hsize
      omega

theorem Inv.step (hs : s.Inv) (h : LinkStep hash messageStart s call s') : s'.Inv := by
  have hstream := hs.stream
  cases call with
  | endMessage send ssSend =>
      obtain ⟨hpayload, node, bytes, hend, rfl⟩ := h
      by_cases hempty : ssSend.isEmpty = true
      · rw [SendQueue.endMessage, if_pos hempty] at hend
        obtain ⟨rfl, rfl⟩ := Prod.mk.inj (Option.some.inj hend)
        rw [if_pos hempty, List.append_nil]
        exact hs
      · by_cases hheader : ssSend.length < headerSize
        · rw [SendQueue.endMessage, if_neg hempty, if_pos hheader] at hend
          cases hend
        · have hlen := Nat.not_lt.mp hheader
          obtain ⟨node', bytes', hend', hholds, hbytes⟩ :=
            SendQueue.endMessage_spec hs.sender hash send hlen hpayload
          obtain ⟨rfl, rfl⟩ := Prod.mk.inj (Option.some.inj (hend.symm.trans hend'))
          rw [if_neg hempty]
          refine ⟨hholds, ?_, hs.processed, hs.arriving, hs.refused, ?_⟩
          · intro data hdata
            rcases List.mem_append.mp hdata with hdata | hdata
            · exact hs.queued data hdata
            · exact List.mem_singleton.mp hdata ▸
                SendQueue.isMessage_finishMessage hash hlen hpayload
          · dsimp only
            rw [List.flatten_append, List.flatten_singleton, ← hstream]
            simp only [List.append_assoc, hbytes]
  | socketSendData send =>
      obtain ⟨node, bytes, hsend, rfl⟩ := h
      obtain ⟨node', bytes', hsend', hholds, hbytes⟩ :=
        SendQueue.socketSendData_spec hs.sender send
      obtain ⟨rfl, rfl⟩ := Prod.mk.inj (Option.some.inj (hsend.symm.trans hsend'))
      refine ⟨hholds, hs.queued, hs.processed, hs.arriving, hs.refused, ?_⟩
      dsimp only
      rw [← hstream]
      simp only [List.append_assoc, hbytes]
  | receiveMsgBytes n =>
      obtain ⟨ok, v, hrecv, rfl⟩ := h
      obtain ⟨ok', v', hrecv', htrue, hfalse⟩ :=
        receiveMsgBytes_spec messageStart hs.arriving (s.wire.take n)
      obtain ⟨rfl, rfl⟩ := Prod.mk.inj (Option.some.inj (hrecv.symm.trans hrecv'))
      cases ok with
      | true =>
          obtain ⟨harriving, hbytes⟩ := htrue rfl
          refine ⟨hs.sender, hs.queued, hs.processed, harriving, ?_, ?_⟩
          · rw [hs.refused]
            rfl
          · dsimp only
            rw [hbytes, ← hstream]
            simp only [List.append_assoc, List.take_append_drop]
      | false =>
          obtain ⟨earlier, hdr, hearlier, hlen, hmax, hpre⟩ := hfalse rfl
          refine absurd (hs.not_refused hearlier hlen ?_) (Nat.not_le.mpr hmax)
          rw [← hstream, List.append_assoc, List.append_assoc, List.prefix_append_right_inj]
          apply hpre.trans
          rw [List.prefix_append_right_inj]
          exact (List.take_prefix n s.wire).trans (List.prefix_append _ _)
  | processMessage =>
      obtain ⟨msg, rest, hv, hc, rfl⟩ := h
      have hvalid := hs.arriving.valid
      rw [hv] at hvalid
      refine ⟨hs.sender, hs.queued, ?_, ⟨?_, ?_⟩, hs.refused, ?_⟩
      · intro m hm
        rcases List.mem_append.mp hm with hm | hm
        · exact hs.processed m hm
        · exact List.mem_singleton.mp hm ▸ ⟨hvalid msg List.mem_cons_self, hc⟩
      · exact fun m hm ↦ hvalid m (List.mem_cons_of_mem _ hm)
      · intro m hm
        cases rest with
        | nil => exact absurd hm List.not_mem_nil
        | cons r rest =>
            apply hs.arriving.complete
            rw [hv, List.dropLast_cons_cons]
            exact List.mem_cons_of_mem _ hm
      · dsimp only
        rw [← hstream, hv, List.flatMap_append, List.flatMap_singleton, List.flatMap_cons]
        simp only [List.append_assoc]

/-- The completed messages have arrived. -/
theorem Inv.arrived (hs : s.Inv) :
    Arrived (s.processed ++ s.vRecvMsg.filter CNetMessage.complete) := by
  intro msg hmsg
  rcases List.mem_append.mp hmsg with hmsg | hmsg
  · exact hs.processed msg hmsg
  · obtain ⟨hmem, hc⟩ := List.mem_filter.mp hmsg
    exact ⟨hs.arriving.valid msg hmem, hc⟩

/-- The completed messages come first in `vRecvMsg`. -/
theorem flatMap_filter_complete {vRecvMsg : List CNetMessage} (h : Arriving vRecvMsg) :
    (vRecvMsg.filter CNetMessage.complete).flatMap CNetMessage.bytes <+:
      vRecvMsg.flatMap CNetMessage.bytes := by
  cases vRecvMsg using List.reverseRecOn with
  | nil => exact List.prefix_rfl
  | append_singleton l msg =>
      have hl : l.filter CNetMessage.complete = l :=
        List.filter_eq_self.mpr fun m hm ↦ h.complete m (by rwa [List.dropLast_concat])
      rw [List.filter_append, hl, List.flatMap_append, List.flatMap_append,
        List.prefix_append_right_inj, List.filter_singleton]
      cases msg.complete with
      | true => exact List.prefix_rfl
      | false => exact List.nil_prefix

end Link

/-- **Framing.**  In every state that calls on the two sides lead to, whatever `send` answers and
wherever the stream is cut, the messages completed so far are, header and payload, the first ones
that were queued, and no chunk was refused.  The sender's cursor is inside the front entry and
`nSendSize` is the size of what is left.  `SocketSendData` and `EndMessage` return, so that no
assertion fails, and `ReceiveMsgBytes` returns on every chunk. -/
theorem framing {hash : List UInt8 → Uint256} {messageStart : List UInt8} {calls : List LinkCall}
    {s : Link} (h : Run (LinkStep hash messageStart) {} calls s) :
    (s.processed ++ s.vRecvMsg.filter CNetMessage.complete).map CNetMessage.message <+: s.queued ∧
    s.refused = false ∧
    s.sender.nSendSize = (s.sender.vSendMsg.map List.length).sum ∧
    (∀ data it, s.sender.vSendMsg = data :: it → s.sender.nSendOffset < data.length) ∧
    (s.sender.vSendMsg = [] → s.sender.nSendOffset = 0) ∧
    (∀ send, ∃ r, s.sender.socketSendData send = some r) ∧
    (∀ send ssSend, headerSize ≤ ssSend.length → ssSend.length ≤ headerSize + maxSize →
      ∃ r, s.sender.endMessage hash send ssSend = some r) ∧
    ∀ pch, ∃ r, receiveMsgBytes messageStart s.vRecvMsg pch = some r := by
  have hs : s.Inv := h.invariant (fun _ _ _ ↦ Link.Inv.step) Link.inv_empty
  have hoffset := hs.sender.nSendOffset
  refine ⟨?_, hs.refused, hs.sender.nSendSize, ?_, ?_, ?_, ?_, ?_⟩
  · apply isPrefixCode_isMessage.begins_of_flatten hs.arrived.isMessage hs.queued
    rw [← hs.arrived.flatMap_bytes, List.flatMap_append, ← hs.stream, List.append_assoc,
      List.append_assoc, List.prefix_append_right_inj]
    exact (Link.flatMap_filter_complete hs.arriving).trans (List.prefix_append _ _)
  · intro data it hv
    rwa [hv] at hoffset
  · intro hv
    rw [hv] at hoffset
    exact Nat.lt_one_iff.mp hoffset
  · intro send
    obtain ⟨node, bytes, hsend, -⟩ := SendQueue.socketSendData_spec hs.sender send
    exact ⟨_, hsend⟩
  · intro send ssSend hheader hpayload
    obtain ⟨node, bytes, hend, -⟩ :=
      SendQueue.endMessage_spec hs.sender hash send hheader hpayload
    exact ⟨_, hend⟩
  · intro pch
    obtain ⟨ok, v, hrecv, -⟩ := receiveMsgBytes_spec messageStart hs.arriving pch
    exact ⟨_, hrecv⟩

/-- A socket that takes at most `k` bytes at a time. -/
def sampleSocket (k : Nat) : Socket := fun _ n ↦ ⟨min k n, false, by omega⟩

/-- What `BeginMessage` and a payload of two bytes leave in `ssSend`. -/
def sampleSend : CSerializeData :=
  (CMessageHeader.ofCommand [1, 2, 3, 4] [112, 105, 110, 103] 0).serialize ++ [7, 8]

/-- A message is sent in two parts, which arrive in three; a second one without a payload is
queued. -/
theorem framing_sample :
    ∃ s : Link, Run (LinkStep (fun _ ↦ 5) [1, 2, 3, 4]) {}
        [.endMessage (sampleSocket 10) sampleSend, .receiveMsgBytes 7,
          .endMessage (sampleSocket 1) (sampleSend.take 24), .socketSendData (sampleSocket 16),
          .receiveMsgBytes 18, .receiveMsgBytes 1] s ∧
      (s.processed ++ s.vRecvMsg.filter CNetMessage.complete).map CNetMessage.message <+:
        s.queued ∧ ∃ r, s.sender.socketSendData (sampleSocket 3) = some r := by
  have hrun : ∃ s, Run (LinkStep (fun _ ↦ 5) [1, 2, 3, 4]) {}
      [.endMessage (sampleSocket 10) sampleSend, .receiveMsgBytes 7,
        .endMessage (sampleSocket 1) (sampleSend.take 24), .socketSendData (sampleSocket 16),
        .receiveMsgBytes 18, .receiveMsgBytes 1] s :=
    ⟨_, .cons ⟨by decide, _, _, rfl, rfl⟩ (.cons ⟨_, _, rfl, rfl⟩
      (.cons ⟨by decide, _, _, rfl, rfl⟩ (.cons ⟨_, _, rfl, rfl⟩ (.cons ⟨_, _, rfl, rfl⟩
        (.cons ⟨_, _, rfl, rfl⟩ (.nil _))))))⟩
  obtain ⟨s, hrun⟩ := hrun
  obtain ⟨hbegins, -, -, -, -, hsend, -⟩ := framing hrun
  exact ⟨s, hrun, hbegins, hsend (sampleSocket 3)⟩

end Fedoracoin
