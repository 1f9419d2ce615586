import Fedoracoin.Lib.Run

/-!
# The version handshake

The two ends of a connection: "version" and "verack" in `ProcessMessage`, the versions of `ssSend`
and of the messages in `vRecvMsg`, and what the other threads may push or take in between.

What one end has pushed and the other has not yet read takes the reader from where it is to where
the writer is (`Reads`).  So every message is read at the version that it was written with, but for
alerts and checkpoints, whose format does not depend on it.
-/

namespace Fedoracoin.Handshake

def initProtoVersion : Int := 209
def minPeerProtoVersion : Int := 70001

/-- The end that has called `ConnectNode`, and the end that has accepted the connection. -/
inductive PeerEnd
  | outbound
  | inbound
deriving DecidableEq

def PeerEnd.other : PeerEnd → PeerEnd
  | .outbound => .inbound
  | .inbound => .outbound

inductive Command
  | version (nVersion : Int) (nNonce : UInt64)
  | verack
  /-- "alert" and "checkpoint", which any thread may push. -/
  | relay
  /-- Any message of the message handler. -/
  | other

/-- A message, with the version of `ssSend` when it was pushed. -/
structure Message where
  strCommand : Command
  nVersion : Int

/-- A message in `vRecvMsg`, with the version of its `vRecv`. -/
structure CNetMessage where
  msg : Message
  nVersion : Int

/-- The statement of the answer to "version" that the message handler is at. -/
inductive Handler
  /-- There is nothing to answer yet. -/
  | idle
  /-- `if (pfrom->fInbound) pfrom->PushVersion();` -/
  | pushVersion
  /-- `pfrom->PushMessage("verack");` -/
  | pushVerack
  /-- `pfrom->ssSend.SetVersion(..);` -/
  | setVersion
  /-- `pfrom->fSuccessfullyConnected = true;` -/
  | connect
  | done
deriving DecidableEq

/-- Nothing but what `RelayTo` pushes comes in between. -/
def Handler.busy : Handler → Bool
  | .pushVersion | .pushVerack | .setVersion => true
  | .idle | .connect | .done => false

structure CNode where
  fInbound : Bool
  nVersion : Int := 0
  ssSend : Int := initProtoVersion
  nRecvVersion : Int := initProtoVersion
  vRecvMsg : List CNetMessage := []
  fSuccessfullyConnected : Bool := false
  fDisconnect : Bool := false
  nMisbehavior : Nat := 0
  handler : Handler := .idle

namespace CNode

def setRecvVersion (node : CNode) (nVersionIn : Int) : CNode :=
  { node with
    nRecvVersion := nVersionIn
    vRecvMsg := node.vRecvMsg.map fun msg ↦ { msg with nVersion := nVersionIn } }

/-- `ReceiveMsgBytes`, when a message begins. -/
def receive (node : CNode) (msg : Message) : CNode :=
  { node with vRecvMsg := node.vRecvMsg ++ [⟨msg, node.nRecvVersion⟩] }

/-- `ProcessMessage` up to `PushVersion`, and what it pushes. -/
def processMessage (protocolVersion : Int) (nLocalHostNonce : UInt64) (pfrom : CNode) :
    Command → CNode × List Command
  | .version nVersion nNonce =>
      if pfrom.nVersion ≠ 0 then
        -- "reject", for a duplicate version message
        ({ pfrom with nMisbehavior := pfrom.nMisbehavior + 1 }, [.other])
      else if nVersion < minPeerProtoVersion then
        ({ pfrom with nVersion := nVersion, fDisconnect := true }, [.other])
      else
        let pfrom := { pfrom with nVersion := if nVersion = 10300 then 300 else nVersion }
        -- "Disconnect if we connected to ourself"
        if nNonce = nLocalHostNonce ∧ 1 < nNonce then ({ pfrom with fDisconnect := true }, [])
        else ({ pfrom with handler := .pushVersion }, [])
  | .verack =>
      -- "Must have a version message before anything else"
      if pfrom.nVersion = 0 then ({ pfrom with nMisbehavior := pfrom.nMisbehavior + 1 }, [])
      else (pfrom.setRecvVersion (min pfrom.nVersion protocolVersion), [])
  | .relay | .other =>
      if pfrom.nVersion = 0 then ({ pfrom with nMisbehavior := pfrom.nMisbehavior + 1 }, [])
      else (pfrom, [])

/-- "In case the connection got shut down, its receive buffer was wiped". -/
def eraseRecvMsg (pfrom : CNode) : CNode :=
  if pfrom.fDisconnect then pfrom else { pfrom with vRecvMsg := pfrom.vRecvMsg.tail }

/-- `ProcessMessages`; a message in `vRecvMsg` may still be incomplete. -/
def processMessages (protocolVersion : Int) (nLocalHostNonce : UInt64) (pfrom : CNode) :
    Option (CNode × List Command) :=
  if pfrom.fDisconnect ∨ (pfrom.handler ≠ .idle ∧ pfrom.handler ≠ .done) then none
  else
    match pfrom.vRecvMsg with
    | [] => none
    | msg :: _ =>
        let r := processMessage protocolVersion nLocalHostNonce pfrom msg.msg.strCommand
        some (r.1.eraseRecvMsg, r.2)

/-- The next statement of the answer to "version". -/
def handle (protocolVersion : Int) (nNonce : UInt64) (pfrom : CNode) :
    Option (CNode × List Command) :=
  match pfrom.handler with
  | .idle | .done => none
  | .pushVersion =>
      some ({ pfrom with handler := .pushVerack },
        if pfrom.fInbound then [.version protocolVersion nNonce] else [])
  | .pushVerack => some ({ pfrom with handler := .setVersion }, [.verack])
  | .setVersion =>
      some ({ pfrom with ssSend := min pfrom.nVersion protocolVersion, handler := .connect }, [])
  | .connect => some ({ pfrom with fSuccessfullyConnected := true, handler := .done }, [])

end CNode

/-- The `PROTOCOL_VERSION` of each end, which the other does not take for obsolete. -/
structure Protocol where
  version : PeerEnd → Int
  supported : ∀ e, minPeerProtoVersion ≤ version e

/-- The two ends, and the messages of each that are on the way to the other. -/
structure Connection where
  node : PeerEnd → CNode
  wire : PeerEnd → List Message

inductive Action
  | receive (e : PeerEnd)
  | process (e : PeerEnd) (nLocalHostNonce : UInt64)
  | handle (e : PeerEnd) (nNonce : UInt64)
  /-- A message of `SendMessages` or of the answer to another message. -/
  | send (e : PeerEnd)
  /-- `RelayTo`, in any thread. -/
  | relay (e : PeerEnd)
  /-- For any other reason. -/
  | disconnect (e : PeerEnd)

namespace Connection

/-- `PushMessage`, by an end that is left as `r`. -/
def push (s : Connection) (e : PeerEnd) (r : CNode × List Command) : Connection where
  node := Function.update s.node e r.1
  wire := Function.update s.wire e (s.wire e ++ r.2.map fun c ↦ ⟨c, r.1.ssSend⟩)

variable (P : Protocol)

def step (s : Connection) : Action → Option Connection
  | .receive e =>
      match s.wire e.other with
      | [] => none
      | msg :: rest =>
          some ⟨Function.update s.node e ((s.node e).receive msg),
            Function.update s.wire e.other rest⟩
  | .process e nLocalHostNonce =>
      ((s.node e).processMessages (P.version e) nLocalHostNonce).map (s.push e)
  | .handle e nNonce => ((s.node e).handle (P.version e) nNonce).map (s.push e)
  | .send e =>
      -- "Don't send anything until we get their version message"
      if (s.node e).nVersion = 0 ∨ (s.node e).handler.busy then none
      else some (s.push e (s.node e, [.other]))
  | .relay e => some (s.push e (s.node e, [.relay]))
  | .disconnect e => some (s.push e ({ s.node e with fDisconnect := true }, []))

/-- The `CNode` of the end that connects has pushed its version when it was made. -/
def start (nNonce : UInt64) : Connection where
  node e := { fInbound := e = .inbound }
  wire
    | .outbound => [⟨.version (P.version .outbound) nNonce, initProtoVersion⟩]
    | .inbound => []

abbrev Step (s : Connection) (a : Action) (s' : Connection) : Prop :=
  s.step P a = some s'

end Connection

/-! ## What has been read, and what was written -/

section

variable (P : Protocol)

/-- The version that the two ends agree on. -/
def negotiatedVersion : Int := min (P.version .outbound) (P.version .inbound)

/-- How far one direction of the handshake is. -/
inductive Phase
  | silent
  | greeted
  | negotiated

/-- The version of the messages from here on. -/
def Phase.version : Phase → Int
  | .silent | .greeted => initProtoVersion
  | .negotiated => negotiatedVersion P

/-- The messages of the end `e`, as they may follow each other.  In a calm handshake nothing comes
before "version". -/
inductive Reads (calm : Bool) (e : PeerEnd) : Phase → Message → Phase → Prop
  | version (nNonce : UInt64) :
      Reads calm e .silent ⟨.version (P.version e) nNonce, initProtoVersion⟩ .greeted
  | verack : Reads calm e .greeted ⟨.verack, initProtoVersion⟩ .negotiated
  | relay (phase : Phase) (nVersion : Int) (hphase : calm = true → phase ≠ .silent) :
      Reads calm e phase ⟨.relay, nVersion⟩ phase
  | other (phase : Phase) (hphase : calm = true → phase ≠ .silent) :
      Reads calm e phase ⟨.other, phase.version P⟩ phase

namespace CNode

/-- What the end has read. -/
def reading (node : CNode) : Phase :=
  if node.nVersion = 0 then .silent
  else if node.nRecvVersion = initProtoVersion then .greeted
  else .negotiated

/-- What the end has written. -/
def writing (node : CNode) : Phase :=
  match node.handler with
  | .idle | .pushVersion => if node.fInbound then .silent else .greeted
  | .pushVerack => .greeted
  | .setVersion | .connect | .done => .negotiated

structure Inv (e : PeerEnd) (node : CNode) : Prop where
  fInbound : node.fInbound = true ↔ e = .inbound
  nVersion : node.nVersion = 0 ∨ node.nVersion = P.version e.other
  idle : node.nVersion = 0 → node.handler = .idle
  answered : node.nVersion ≠ 0 → node.handler = .idle → node.fDisconnect = true
  nRecvVersion : node.nRecvVersion = node.reading.version P
  vRecvMsg : ∀ msg ∈ node.vRecvMsg, msg.nVersion = node.nRecvVersion
  ssSend : node.handler.busy = false → node.ssSend = node.writing.version P
  ssSend_busy : node.handler.busy = true → node.ssSend = initProtoVersion
  connected : node.fSuccessfullyConnected = true ↔ node.handler = .done

end CNode

/-- An end that has come to `phase`, with `vRecvMsg` to process and then what is on the way, comes
to where the other end is. -/
def Connection.Unread (calm : Bool) (s : Connection) (e : PeerEnd) (phase : Phase)
    (vRecvMsg : List CNetMessage) : Prop :=
  Run (Reads P calm e.other) phase (vRecvMsg.map CNetMessage.msg ++ s.wire e.other)
    (s.node e.other).writing

/-- The invariant of a connection: for each end, and for what it has not read. -/
structure Connection.Inv (calm : Bool) (s : Connection) : Prop where
  node : ∀ e, (s.node e).Inv P e
  unread : ∀ e, (s.node e).fDisconnect = false →
    s.Unread P calm e (s.node e).reading (s.node e).vRecvMsg
  calm : calm = true → ∀ e, (s.node e).nMisbehavior = 0

end

section

variable {P : Protocol} {calm : Bool} {e : PeerEnd} {node : CNode}
  {s s' : Connection} {a : Action} {msg : Message} {phase phase' : Phase} {r : CNode × List Command}

@[simp] theorem PeerEnd.other_other (e : PeerEnd) : e.other.other = e := by
  cases e <;> rfl

@[simp] theorem PeerEnd.other_ne (e : PeerEnd) : e.other ≠ e := by
  cases e <;> decide

theorem PeerEnd.eq_or_eq_other (e e' : PeerEnd) : e' = e ∨ e' = e.other := by
  cases e <;> cases e' <;> simp [PeerEnd.other]

theorem min_eq_negotiatedVersion (e : PeerEnd) :
    min (P.version e.other) (P.version e) = negotiatedVersion P := by
  cases e
  · exact min_comm ..
  · rfl

theorem negotiatedVersion_ne :
    negotiatedVersion P ≠ initProtoVersion :=
  (lt_of_lt_of_le (by decide) (le_min (P.supported .outbound) (P.supported .inbound))).ne'

theorem CNode.reading_eq_silent : node.reading = .silent ↔ node.nVersion = 0 := by
  rw [CNode.reading]
  split
  case isTrue h => exact iff_of_true rfl h
  case isFalse h => exact iff_of_false (by split <;> simp) h

theorem CNode.reading_eq_greeted (h : node.reading = .greeted) :
    node.nVersion ≠ 0 ∧ node.nRecvVersion = initProtoVersion := by
  rw [CNode.reading] at h
  split at h
  · cases h
  · next hv =>
    split at h
    · next hr => exact ⟨hv, hr⟩
    · cases h

/-- What is read is read at the version that it was written with. -/
theorem Reads.nVersion_eq (h : Reads P calm e phase msg phase')
    (hrelay : msg.strCommand ≠ .relay) : msg.nVersion = phase.version P := by
  cases h with
  | version => rfl
  | verack => rfl
  | relay => exact absurd rfl hrelay
  | other => rfl

/-! ## One step -/

theorem Connection.Inv.update (h : s.Inv P calm) (hnode : node.Inv P e)
    {wire : PeerEnd → List Message}
    (hread : node.fDisconnect = false →
      (⟨s.node, wire⟩ : Connection).Unread P calm e node.reading node.vRecvMsg)
    (hwrite : (s.node e.other).fDisconnect = false → Run (Reads P calm e)
      (s.node e.other).reading ((s.node e.other).vRecvMsg.map CNetMessage.msg ++ wire e)
      node.writing)
    (hcalm : calm = true → node.nMisbehavior = 0) :
    (⟨Function.update s.node e node, wire⟩ : Connection).Inv P calm := by
  have hself : Function.update s.node e node e = node := Function.update_self ..
  have hother : Function.update s.node e node e.other = s.node e.other :=
    Function.update_of_ne (PeerEnd.other_ne e) ..
  refine ⟨fun e' ↦ ?_, fun e' hdisconnect ↦ ?_, fun hc e' ↦ ?_⟩
  · dsimp only
    obtain rfl | rfl := PeerEnd.eq_or_eq_other e e'
    · rw [hself]
      exact hnode
    · rw [hother]
      exact h.node _
  · rw [Connection.Unread]
    dsimp only at hdisconnect ⊢
    obtain rfl | rfl := PeerEnd.eq_or_eq_other e e'
    · rw [hself] at hdisconnect ⊢
      rw [hother]
      exact hread hdisconnect
    · rw [hother] at hdisconnect ⊢
      rw [PeerEnd.other_other, hself]
      exact hwrite hdisconnect
  · dsimp only
    obtain rfl | rfl := PeerEnd.eq_or_eq_other e e'
    · rw [hself]
      exact hcalm hc
    · rw [hother]
      exact h.calm hc _

/-- What the other end has not read of an end. -/
theorem Connection.Inv.unread_other (h : s.Inv P calm)
    (hdisconnect : (s.node e.other).fDisconnect = false) :
    Run (Reads P calm e) (s.node e.other).reading
      ((s.node e.other).vRecvMsg.map CNetMessage.msg ++ s.wire e) (s.node e).writing := by
  have hrun := h.unread e.other hdisconnect
  rwa [Connection.Unread, PeerEnd.other_other] at hrun

theorem Connection.push_node_self : (s.push e r).node e = r.1 := Function.update_self ..

theorem Connection.Inv.push (h : s.Inv P calm) (hnode : r.1.Inv P e)
    (hread : r.1.fDisconnect = false → s.Unread P calm e r.1.reading r.1.vRecvMsg)
    (hwrite : Run (Reads P calm e) (s.node e).writing
      (r.2.map fun c ↦ ⟨c, r.1.ssSend⟩) r.1.writing)
    (hcalm : calm = true → r.1.nMisbehavior = 0) : (s.push e r).Inv P calm := by
  refine h.update hnode (fun hdisconnect ↦ ?_) (fun hdisconnect ↦ ?_) hcalm
  · rw [Connection.Unread]
    dsimp only
    rw [Function.update_of_ne (PeerEnd.other_ne e)]
    exact hread hdisconnect
  · rw [Function.update_self, ← List.append_assoc]
    exact (h.unread_other hdisconnect).append hwrite

/-- A step of an end that reads nothing. -/
theorem Connection.Inv.push_of_reading (h : s.Inv P calm)
    (hnode : r.1.Inv P e) (hreading : r.1.reading = (s.node e).reading)
    (hmsgs : r.1.vRecvMsg = (s.node e).vRecvMsg)
    (hdisconnect : r.1.fDisconnect = false → (s.node e).fDisconnect = false)
    (hwrite : Run (Reads P calm e) (s.node e).writing
      (r.2.map fun c ↦ ⟨c, r.1.ssSend⟩) r.1.writing)
    (hmisbehavior : r.1.nMisbehavior = (s.node e).nMisbehavior) :
    (s.push e r).Inv P calm := by
  refine h.push hnode (fun hr ↦ ?_) hwrite fun hc ↦ hmisbehavior.trans (h.calm hc e)
  rw [hreading, hmsgs]
  exact h.unread e (hdisconnect hr)

/-- Only the messages, the disconnection and the misbehaviour have changed. -/
theorem CNode.Inv.frame (h : node.Inv P e) {vRecvMsg : List CNetMessage} {fDisconnect : Bool}
    (hmsgs : ∀ m ∈ vRecvMsg, m.nVersion = node.nRecvVersion)
    (hdisconnect : node.fDisconnect = true → fDisconnect = true) (nMisbehavior : Nat) :
    CNode.Inv P e { node with
      vRecvMsg := vRecvMsg
      fDisconnect := fDisconnect
      nMisbehavior := nMisbehavior } where
  __ := h
  answered hnz hidle := hdisconnect (h.answered hnz hidle)
  vRecvMsg := hmsgs

theorem CNode.Inv.receive (h : node.Inv P e) (msg : Message) : (node.receive msg).Inv P e := by
  refine h.frame (fun m hm ↦ ?_) id node.nMisbehavior
  obtain hm | hm := List.mem_append.mp hm
  · exact h.vRecvMsg m hm
  · rw [List.mem_singleton.mp hm]

theorem Connection.Inv.receive (h : s.Inv P calm)
    (hstep : s.step P (.receive e) = some s') : s'.Inv P calm := by
  rw [Connection.step] at hstep
  split at hstep
  case h_1 => cases hstep
  case h_2 msg rest hwire =>
    obtain rfl := Option.some.inj hstep
    refine h.update ((h.node e).receive msg) (fun hdisconnect ↦ ?_) (fun hdisconnect ↦ ?_)
      fun hc ↦ h.calm hc e
    · have hrun := h.unread e hdisconnect
      rw [Connection.Unread, hwire] at hrun
      rw [Connection.Unread]
      dsimp only
      rw [Function.update_self, CNode.receive, List.map_append, List.append_assoc]
      exact hrun
    · rw [Function.update_of_ne (PeerEnd.other_ne e).symm]
      exact h.unread_other hdisconnect

/-- The answer to "version" goes on. -/
theorem Connection.Inv.advance (h : s.Inv P calm) (hidle : (s.node e).handler ≠ .idle)
    {handler : Handler} {ssSend : Int} {connected : Bool} {cmds : List Command}
    (hidle' : handler ≠ .idle) (hssSend : handler.busy = false → ssSend = negotiatedVersion P)
    (hbusy : handler.busy = true → ssSend = initProtoVersion)
    (hconnected : connected = true ↔ handler = .done)
    (hwrite : Run (Reads P calm e) (s.node e).writing (cmds.map fun c ↦ ⟨c, ssSend⟩)
      (CNode.writing { s.node e with handler := handler })) :
    (s.push e ({ s.node e with
      handler := handler
      ssSend := ssSend
      fSuccessfullyConnected := connected }, cmds)).Inv P calm := by
  have hnode := h.node e
  refine h.push_of_reading ⟨hnode.fInbound, hnode.nVersion,
    fun h0 ↦ absurd (hnode.idle h0) hidle, fun _ h0 ↦ absurd h0 hidle', hnode.nRecvVersion,
    hnode.vRecvMsg, fun hfree ↦ (hssSend hfree).trans ?_, hbusy, hconnected⟩ rfl rfl id hwrite rfl
  cases handler with
  | idle => exact absurd rfl hidle'
  | pushVersion | pushVerack | setVersion => exact absurd hfree (by simp [Handler.busy])
  | connect | done => rfl

theorem Connection.Inv.handle (h : s.Inv P calm) {nNonce : UInt64}
    (hstep : s.step P (.handle e nNonce) = some s') : s'.Inv P calm := by
  obtain ⟨r, hr, rfl⟩ := Option.map_eq_some_iff.mp hstep
  have hnode := h.node e
  have hversion (hidle : (s.node e).handler ≠ .idle) :
      (s.node e).nVersion = P.version e.other :=
    hnode.nVersion.resolve_left fun h0 ↦ hidle (hnode.idle h0)
  rw [CNode.handle] at hr
  split at hr
  case h_1 => cases hr
  case h_2 => cases hr
  all_goals
    obtain rfl := Option.some.inj hr
  case h_3 hhandler =>
    have hsend := hnode.ssSend_busy (by rw [hhandler]; rfl)
    refine h.advance (by simp [hhandler]) (by simp) (by simp [Handler.busy]) (fun _ ↦ hsend)
      (by rw [hnode.connected, hhandler]; simp) ?_
    rw [hsend, CNode.writing, hhandler]
    dsimp only
    split
    · exact .cons (.version nNonce) (.nil _)
    · exact .nil _
  case h_4 hhandler =>
    have hsend := hnode.ssSend_busy (by rw [hhandler]; rfl)
    refine h.advance (by simp [hhandler]) (by simp) (by simp [Handler.busy]) (fun _ ↦ hsend)
      (by rw [hnode.connected, hhandler]; simp) ?_
    rw [hsend, CNode.writing, hhandler]
    exact .cons .verack (.nil _)
  case h_5 hhandler =>
    refine h.advance (by simp [hhandler]) (by simp) (fun _ ↦ ?_) (by simp [Handler.busy])
      (by rw [hnode.connected, hhandler]; simp) ?_
    · rw [hversion (by simp [hhandler]), min_eq_negotiatedVersion]
    · rw [CNode.writing, hhandler]
      exact .nil _
  case h_6 hhandler =>
    refine h.advance (by simp [hhandler]) (by simp) (fun _ ↦ ?_) (by simp [Handler.busy])
      (by simp) ?_
    · rw [hnode.ssSend (by rw [hhandler]; rfl), CNode.writing, hhandler]
      rfl
    · rw [CNode.writing, hhandler]
      exact .nil _

/-- The message in front is read at its own version, if it is complete. -/
theorem Connection.Inv.front (h : s.Inv P calm)
    (hdisconnect : (s.node e).fDisconnect = false) {rest : List CNetMessage} {m : CNetMessage}
    (hmsgs : (s.node e).vRecvMsg = m :: rest) :
    m.nVersion = (s.node e).reading.version P ∧
      ∃ phase, Reads P calm e.other (s.node e).reading m.msg phase ∧
        s.Unread P calm e phase rest := by
  have hrun := h.unread e hdisconnect
  rw [hmsgs] at hrun
  refine ⟨?_, Run.cons_iff.mp hrun⟩
  rw [← (h.node e).nRecvVersion]
  exact (h.node e).vRecvMsg m (hmsgs ▸ List.mem_cons_self)

/-- A good version message was read. -/
theorem CNode.Inv.greet (h : node.Inv P e) (h0 : node.nVersion = 0) {vRecvMsg : List CNetMessage}
    (hmsgs : ∀ m ∈ vRecvMsg, m ∈ node.vRecvMsg) {fDisconnect : Bool} {handler : Handler}
    (hhandler : handler = .pushVersion ∨ handler = .idle ∧ fDisconnect = true) :
    let node' : CNode := { node with
      nVersion := P.version e.other
      vRecvMsg := vRecvMsg
      fDisconnect := fDisconnect
      handler := handler }
    node'.Inv P e ∧ node'.reading = .greeted := by
  intro node'
  have hnz : P.version e.other ≠ 0 := (lt_of_lt_of_le (by decide) (P.supported e.other)).ne'
  have hidle := h.idle h0
  have hrecv := h.nRecvVersion
  rw [CNode.reading_eq_silent.mpr h0] at hrecv
  have hreading : node'.reading = .greeted := (if_neg hnz).trans (if_pos hrecv)
  have hsend := h.ssSend (by rw [hidle]; rfl)
  have hinit : node.ssSend = initProtoVersion := by
    rw [hsend, CNode.writing, hidle]
    dsimp only
    split <;> rfl
  refine ⟨⟨h.fInbound, .inr rfl, fun h0' ↦ absurd h0' hnz, fun _ hidle' ↦ ?_, ?_,
    fun m hm ↦ h.vRecvMsg m (hmsgs m hm), fun hbusy ↦ ?_, fun _ ↦ hinit,
    iff_of_false (by rw [h.connected, hidle]; simp) ?_⟩, hreading⟩
  · obtain rfl | ⟨-, hd⟩ := hhandler
    · exact absurd hidle' (by simp [node'])
    · exact hd
  · rw [hreading]
    exact hrecv
  · obtain rfl | ⟨rfl, -⟩ := hhandler
    · exact absurd hbusy (by simp [node', Handler.busy])
    · rw [CNode.writing, hidle] at hsend
      exact hsend
  · obtain rfl | ⟨rfl, -⟩ := hhandler <;> simp [node']

/-- "verack" was read. -/
theorem CNode.Inv.verack (h : node.Inv P e) (hnz : node.nVersion ≠ 0) (rest : List CNetMessage) :
    let node' : CNode := { node with
      nRecvVersion := negotiatedVersion P
      vRecvMsg := rest.map fun msg ↦ { msg with nVersion := negotiatedVersion P } }
    node'.Inv P e ∧ node'.reading = .negotiated := by
  intro node'
  have hreading : node'.reading = .negotiated :=
    (if_neg hnz).trans (if_neg negotiatedVersion_ne)
  refine ⟨⟨h.fInbound, h.nVersion, h.idle, h.answered, ?_, fun m hm ↦ ?_, h.ssSend, h.ssSend_busy,
    h.connected⟩, hreading⟩
  · rw [hreading]
    rfl
  · obtain ⟨_, -, rfl⟩ := List.mem_map.mp hm
    rfl

theorem CNode.eraseRecvMsg_of_connected (h : node.fDisconnect = false) :
    node.eraseRecvMsg = { node with vRecvMsg := node.vRecvMsg.tail } := by
  rw [eraseRecvMsg, if_neg (by rw [h]; simp)]

theorem CNode.processMessage_version {nVersion protocolVersion : Int}
    {nNonce nLocalHostNonce : UInt64} (h0 : node.nVersion = 0)
    (hversion : minPeerProtoVersion ≤ nVersion) :
    node.processMessage protocolVersion nLocalHostNonce (.version nVersion nNonce) =
      (if nNonce = nLocalHostNonce ∧ 1 < nNonce then
        { node with nVersion := nVersion, fDisconnect := true }
      else { node with nVersion := nVersion, handler := .pushVersion }, []) := by
  have hquirk : nVersion ≠ 10300 := (lt_of_lt_of_le (by decide) hversion).ne'
  rw [processMessage, if_neg (not_not_intro h0), if_neg (not_lt.mpr hversion)]
  simp only [if_neg hquirk]
  split <;> rfl

theorem CNode.processMessage_other (node : CNode) (protocolVersion : Int)
    (nLocalHostNonce : UInt64) {c : Command} (hc : c = .relay ∨ c = .other) :
    node.processMessage protocolVersion nLocalHostNonce c =
      ({ node with
        nMisbehavior := node.nMisbehavior + if node.nVersion = 0 then 1 else 0 }, []) := by
  obtain rfl | rfl := hc
  all_goals
    rw [processMessage]
    split <;> rfl

/-- What processing the message in front leaves. -/
inductive Connection.Processed (P : Protocol) (calm : Bool) (s : Connection) (e : PeerEnd)
    (rest : List CNetMessage) : CNode × List Command → Prop
  /-- The other end is this end. -/
  | self (h0 : (s.node e).nVersion = 0) :
      Processed P calm s e rest
        ({ s.node e with nVersion := P.version e.other, fDisconnect := true }, [])
  | version (h0 : (s.node e).nVersion = 0) (hrest : s.Unread P calm e .greeted rest) :
      Processed P calm s e rest
        ({ s.node e with
          nVersion := P.version e.other
          vRecvMsg := rest
          handler := .pushVersion }, [])
  | verack (hnz : (s.node e).nVersion ≠ 0) (hrest : s.Unread P calm e .negotiated rest) :
      Processed P calm s e rest
        ({ s.node e with
          nRecvVersion := negotiatedVersion P
          vRecvMsg := rest.map fun msg ↦ { msg with nVersion := negotiatedVersion P } }, [])
  | other (hcalm : calm = true → (s.node e).nVersion ≠ 0)
      (hrest : s.Unread P calm e (s.node e).reading rest) :
      Processed P calm s e rest
        ({ s.node e with
          vRecvMsg := rest
          nMisbehavior := (s.node e).nMisbehavior +
            if (s.node e).nVersion = 0 then 1 else 0 }, [])

theorem Connection.Inv.processed (h : s.Inv P calm) {nLocalHostNonce : UInt64}
    (hr : (s.node e).processMessages (P.version e) nLocalHostNonce = some r) :
    (s.node e).fDisconnect = false ∧ ∃ m rest, (s.node e).vRecvMsg = m :: rest ∧
      s.Processed P calm e rest r := by
  rw [CNode.processMessages] at hr
  split at hr
  case isTrue => cases hr
  case isFalse hready =>
    obtain ⟨hdisconnect, -⟩ := not_or.mp hready
    rw [Bool.not_eq_true] at hdisconnect
    split at hr
    case h_1 => cases hr
    case h_2 m rest hmsgs =>
      obtain rfl := Option.some.inj hr
      refine ⟨hdisconnect, m, rest, hmsgs, ?_⟩
      obtain ⟨-, phase, hread, hrest⟩ := h.front hdisconnect hmsgs
      have hother (hcalm : calm = true → (s.node e).reading ≠ .silent)
          (hrest : s.Unread P calm e (s.node e).reading rest) :
          s.Processed P calm e rest
            (({ s.node e with
              nMisbehavior := (s.node e).nMisbehavior +
                if (s.node e).nVersion = 0 then 1 else 0 } : CNode).eraseRecvMsg, []) := by
        rw [CNode.eraseRecvMsg_of_connected]
        swap
        · exact hdisconnect
        dsimp only
        rw [hmsgs]
        exact .other (fun hc ↦ mt CNode.reading_eq_silent.mpr (hcalm hc)) hrest
      generalize hphase : (s.node e).reading = phase₀ at hread hother
      generalize hm : m.msg = m₀ at hread
      cases hread with
      | version nNonce =>
          have h0 := CNode.reading_eq_silent.mp hphase
          rw [CNode.processMessage_version h0 (P.supported e.other)]
          dsimp only
          split
          · rw [CNode.eraseRecvMsg, if_pos rfl]
            exact .self h0
          · rw [CNode.eraseRecvMsg_of_connected]
            swap
            · exact hdisconnect
            dsimp only
            rw [hmsgs]
            exact .version h0 hrest
      | verack =>
          obtain ⟨hnz, -⟩ := CNode.reading_eq_greeted hphase
          rw [CNode.processMessage, if_neg hnz, (h.node e).nVersion.resolve_left hnz,
            min_eq_negotiatedVersion]
          dsimp only
          rw [CNode.eraseRecvMsg_of_connected]
          swap
          · exact hdisconnect
          dsimp only [CNode.setRecvVersion]
          rw [hmsgs]
          exact .verack hnz hrest
      | relay _ nVersion hcalm =>
          rw [CNode.processMessage_other _ _ _ (.inl rfl)]
          exact hother hcalm hrest
      | other _ hcalm =>
          rw [CNode.processMessage_other _ _ _ (.inr rfl)]
          exact hother hcalm hrest

theorem Connection.Inv.process (h : s.Inv P calm) {nLocalHostNonce : UInt64}
    (hstep : s.step P (.process e nLocalHostNonce) = some s') : s'.Inv P calm := by
  obtain ⟨r, hr, rfl⟩ := Option.map_eq_some_iff.mp hstep
  have hnode := h.node e
  obtain ⟨hdisconnect, m, rest, hmsgs, hprocessed⟩ := h.processed hr
  have hsub : ∀ m ∈ rest, m ∈ (s.node e).vRecvMsg :=
    fun m hm ↦ hmsgs ▸ List.mem_cons_of_mem _ hm
  cases hprocessed with
  | self h0 =>
      obtain ⟨hnew, -⟩ := hnode.greet h0 (fun m (hm : m ∈ (s.node e).vRecvMsg) ↦ hm)
        (.inr ⟨hnode.idle h0, rfl⟩)
      exact h.push hnew (nofun) (.nil _) fun hc ↦ h.calm hc e
  | version h0 hrest =>
      obtain ⟨hnew, hreading⟩ := hnode.greet h0 hsub (.inl rfl)
      refine h.push hnew (fun _ ↦ hreading ▸ hrest) ?_ fun hc ↦ h.calm hc e
      rw [CNode.writing, hnode.idle h0]
      exact .nil _
  | verack hnz hrest =>
      obtain ⟨hnew, hreading⟩ := hnode.verack hnz rest
      refine h.push hnew (fun _ ↦ ?_) (.nil _) fun hc ↦ h.calm hc e
      rw [hreading, Connection.Unread, List.map_map]
      exact hrest
  | other hcalm hrest =>
      refine h.push (hnode.frame (fun m hm ↦ hnode.vRecvMsg m (hsub m hm)) id _)
        (fun _ ↦ hrest) (.nil _) fun hc ↦ ?_
      dsimp only
      rw [h.calm hc e, if_neg (hcalm hc)]

theorem Connection.Inv.pushOne (h : s.Inv P calm) {c : Command}
    (hread : Reads P calm e (s.node e).writing ⟨c, (s.node e).ssSend⟩
      (s.node e).writing) : (s.push e (s.node e, [c])).Inv P calm :=
  h.push_of_reading (h.node e) rfl rfl id (.cons hread (.nil _)) rfl

theorem CNode.Inv.of_writing_silent (h : node.Inv P e)
    (hsilent : node.writing = .silent) :
    e = .inbound ∧ (node.handler.busy = true ∨ node.handler = .idle) := by
  rw [CNode.writing] at hsilent
  split at hsilent
  case h_1 hhandler =>
    rw [ite_eq_left_iff] at hsilent
    exact ⟨h.fInbound.mp (by_contra fun hin ↦ by simpa using hsilent hin), .inr hhandler⟩
  case h_2 hhandler =>
    rw [ite_eq_left_iff] at hsilent
    exact ⟨h.fInbound.mp (by_contra fun hin ↦ by simpa using hsilent hin),
      .inl (by rw [hhandler]; rfl)⟩
  all_goals cases hsilent

theorem Connection.Inv.step (h : s.Inv P calm) (hstep : s.step P a = some s')
    (hcalm : calm = true → a ≠ .relay .inbound ∧ ∀ e, (s'.node e).fDisconnect = false) :
    s'.Inv P calm := by
  cases a with
  | receive e => exact h.receive hstep
  | process e nLocalHostNonce => exact h.process hstep
  | handle e nNonce => exact h.handle hstep
  | send e =>
      rw [Connection.step] at hstep
      split at hstep
      case isTrue => cases hstep
      case isFalse hfree =>
        obtain rfl := Option.some.inj hstep
        obtain ⟨hnz, hbusy⟩ := not_or.mp hfree
        rw [Bool.not_eq_true] at hbusy
        refine h.pushOne ?_
        rw [(h.node e).ssSend hbusy]
        refine .other _ fun hc hsilent ↦ ?_
        have hdisconnect := (hcalm hc).2 e
        rw [Connection.push_node_self] at hdisconnect
        obtain ⟨-, hbusy' | hidle⟩ := (h.node e).of_writing_silent hsilent
        · exact absurd hbusy' (by rw [hbusy]; simp)
        · exact absurd ((h.node e).answered hnz hidle) (by rw [hdisconnect]; simp)
  | relay e =>
      obtain rfl := Option.some.inj hstep
      refine h.pushOne (.relay _ _ fun hc hsilent ↦ ?_)
      obtain ⟨rfl, -⟩ := (h.node e).of_writing_silent hsilent
      exact (hcalm hc).1 rfl
  | disconnect e =>
      obtain rfl := Option.some.inj hstep
      exact h.push_of_reading ((h.node e).frame (h.node e).vRecvMsg (fun _ ↦ rfl) _) rfl rfl
        (nofun) (.nil _) rfl

theorem Connection.inv_start (nNonce : UInt64) : (start P nNonce).Inv P calm where
  node e := by
    refine ⟨by simp [start], .inl rfl, fun _ ↦ rfl, fun hnz ↦ absurd rfl hnz, rfl,
      nofun, fun _ ↦ ?_, fun _ ↦ rfl, by simp [start]⟩
    cases e <;> rfl
  unread e _ := by
    cases e with
    | outbound => exact .nil _
    | inbound => exact .cons (.version nNonce) (.nil _)
  calm _ e := rfl

/-! ## Runs -/

theorem Connection.disconnect_of_update {e' : PeerEnd} {wire : PeerEnd → List Message}
    (hnode : (s.node e).fDisconnect = true → node.fDisconnect = true)
    (h : (s.node e').fDisconnect = true) :
    ((⟨Function.update s.node e node, wire⟩ : Connection).node e').fDisconnect = true := by
  dsimp only
  by_cases he : e' = e
  · subst he
    rw [Function.update_self]
    exact hnode h
  · rw [Function.update_of_ne he]
    exact h

/-- An end that is to disconnect stays so. -/
theorem Connection.disconnect_of_step (hstep : s.step P a = some s')
    (h : (s.node e).fDisconnect = true) : (s'.node e).fDisconnect = true := by
  cases a with
  | receive e' =>
      rw [step] at hstep
      split at hstep
      · cases hstep
      · obtain rfl := Option.some.inj hstep
        exact disconnect_of_update (fun h ↦ h) h
  | process e' nLocalHostNonce =>
      obtain ⟨r, hr, rfl⟩ := Option.map_eq_some_iff.mp hstep
      rw [CNode.processMessages] at hr
      refine disconnect_of_update (fun h ↦ ?_) h
      rw [if_pos (.inl h)] at hr
      cases hr
  | handle e' nNonce =>
      obtain ⟨r, hr, rfl⟩ := Option.map_eq_some_iff.mp hstep
      rw [CNode.handle] at hr
      refine disconnect_of_update (fun h ↦ ?_) h
      split at hr
      · cases hr
      · cases hr
      all_goals
        obtain rfl := Option.some.inj hr
        exact h
  | send e' =>
      rw [step] at hstep
      split at hstep
      · cases hstep
      · obtain rfl := Option.some.inj hstep
        exact disconnect_of_update (fun h ↦ h) h
  | relay e' =>
      obtain rfl := Option.some.inj hstep
      exact disconnect_of_update (fun h ↦ h) h
  | disconnect e' =>
      obtain rfl := Option.some.inj hstep
      exact disconnect_of_update (fun _ ↦ rfl) h

/-- The invariant holds after every run, and in a calm one if the ends have stayed connected. -/
theorem Connection.inv_of_run
    {acts : List Action} (h : s.Inv P calm)
    (hrun : Run (Step P) s acts s')
    (hcalm : calm = true → .relay .inbound ∉ acts ∧ ∀ e, (s'.node e).fDisconnect = false) :
    s'.Inv P calm := by
  induction hrun with
  | nil => exact h
  | @cons s s₁ s' a acts hstep hrun ih =>
      refine ih (h.step hstep fun hc ↦ ?_) fun hc ↦ ?_
      · obtain ⟨hrelay, hconn⟩ := hcalm hc
        refine ⟨fun ha ↦ hrelay (by simp [ha]), fun e ↦ by_contra fun hd ↦ ?_⟩
        have hlast := hrun.invariant (I := fun s ↦ (s.node e).fDisconnect = true)
          (fun _ _ _ hs hst ↦ disconnect_of_step hst hs) (by simpa using hd)
        exact absurd hlast (by rw [hconn e]; simp)
      · obtain ⟨hrelay, hconn⟩ := hcalm hc
        exact ⟨fun ha ↦ hrelay (by simp [ha]), hconn⟩

/-- Safety: what is processed is read at the version that it was written with, alerts and
checkpoints apart, an end that is connected knows the version of the other, and if the inbound end
relays nothing the two do not take each other for misbehaving. -/
theorem versions_agree {nNonce : UInt64}
    {acts : List Action}
    (hrun : Run (Connection.Step P) (.start P nNonce) acts s) :
    (∀ e m rest, (s.node e).fDisconnect = false → (s.node e).vRecvMsg = m :: rest →
      m.msg.strCommand ≠ .relay → m.nVersion = m.msg.nVersion) ∧
    (∀ e, (s.node e).fSuccessfullyConnected = true →
      (s.node e).nVersion = P.version e.other ∧
        (s.node e).ssSend = negotiatedVersion P) ∧
    (.relay .inbound ∉ acts → (∀ e, (s.node e).fDisconnect = false) →
      ∀ e, (s.node e).nMisbehavior = 0) := by
  have h : s.Inv P false :=
    Connection.inv_of_run (Connection.inv_start nNonce) hrun (by simp)
  refine ⟨fun e m rest hdisconnect hmsgs hrelay ↦ ?_, fun e hconnected ↦ ?_,
    fun hrelay hdisconnect ↦ ?_⟩
  · obtain ⟨hversion, phase, hread, -⟩ := h.front hdisconnect hmsgs
    rw [hversion, hread.nVersion_eq hrelay]
  · have hnode := h.node e
    have hdone := hnode.connected.mp hconnected
    have hnz : (s.node e).nVersion ≠ 0 := fun h0 ↦ by simp [hnode.idle h0] at hdone
    refine ⟨hnode.nVersion.resolve_left hnz, ?_⟩
    rw [hnode.ssSend (by rw [hdone]; rfl), CNode.writing, hdone]
    rfl
  · have hcalm : s.Inv P true :=
      Connection.inv_of_run (Connection.inv_start nNonce) hrun fun _ ↦ ⟨hrelay, hdisconnect⟩
    exact hcalm.calm rfl

/-! ## Progress -/

/-- The steps that no end has to wait for. -/
def Action.isHandshake : Action → Bool
  | .receive _ | .process _ _ | .handle _ _ => true
  | .send _ | .relay _ | .disconnect _ => false

/-- A bound on the steps that are left to a handler. -/
def Handler.work : Handler → Nat
  | .idle | .pushVersion => 8
  | .pushVerack => 5
  | .setVersion => 2
  | .connect => 1
  | .done => 0

def CNode.work (node : CNode) : Nat :=
  node.vRecvMsg.length + node.handler.work + if node.fDisconnect then 0 else 1

def Connection.workOf (s : Connection) (e : PeerEnd) : Nat :=
  2 * (s.wire e).length + (s.node e).work

def Connection.work (s : Connection) : Nat := s.workOf .outbound + s.workOf .inbound

theorem Connection.work_eq (s : Connection) (e : PeerEnd) :
    s.work = s.workOf e + s.workOf e.other := by
  cases e
  · rfl
  · exact Nat.add_comm ..

theorem Connection.work_push_lt (h : r.1.work + 2 * r.2.length < (s.node e).work) :
    (s.push e r).work < s.work := by
  have hother : (s.push e r).workOf e.other = s.workOf e.other := by
    rw [workOf, push, workOf]
    dsimp only
    rw [Function.update_of_ne (PeerEnd.other_ne e), Function.update_of_ne (PeerEnd.other_ne e)]
  have hself : (s.push e r).workOf e = s.workOf e - (s.node e).work + r.1.work +
      2 * r.2.length := by
    rw [workOf, push_node_self, push, workOf]
    dsimp only
    rw [Function.update_self, List.length_append, List.length_map]
    omega
  have hle : (s.node e).work ≤ s.workOf e := Nat.le_add_left ..
  rw [(s.push e r).work_eq e, s.work_eq e, hother, hself]
  omega

theorem Connection.Inv.process_work
    (h : s.Inv P calm) {nLocalHostNonce : UInt64}
    (hr : (s.node e).processMessages (P.version e) nLocalHostNonce = some r) :
    r.1.work + 2 * r.2.length < (s.node e).work := by
  obtain ⟨hdisconnect, m, rest, hmsgs, hprocessed⟩ := h.processed hr
  cases hprocessed with
  | self h0 => simp [CNode.work, hdisconnect]
  | version h0 hrest =>
      simp [CNode.work, hmsgs, (h.node e).idle h0, Handler.work]
  | verack hnz hrest => simp [CNode.work, hmsgs]
  | other hcalm hrest => simp [CNode.work, hmsgs]

theorem CNode.handle_work {protocolVersion : Int} {nNonce : UInt64}
    (hr : node.handle protocolVersion nNonce = some r) :
    r.1.work + 2 * r.2.length < node.work := by
  rw [handle] at hr
  split at hr
  · cases hr
  · cases hr
  case h_3 hhandler =>
    obtain rfl := Option.some.inj hr
    have hlength :
        (if node.fInbound then [Command.version protocolVersion nNonce] else []).length ≤ 1 := by
      split <;> simp
    simp only [work, hhandler, Handler.work]
    omega
  all_goals
    next hhandler =>
      obtain rfl := Option.some.inj hr
      simp only [work, hhandler, Handler.work, List.length_cons, List.length_nil]
      omega

theorem Connection.Inv.step_work
    (h : s.Inv P calm) (hstep : s.step P a = some s')
    (ha : a.isHandshake = true) : s'.work < s.work := by
  cases a with
  | receive e =>
      rw [Connection.step] at hstep
      split at hstep
      · cases hstep
      · next msg rest hwire =>
        obtain rfl := Option.some.inj hstep
        rw [Connection.work_eq _ e, s.work_eq e]
        simp only [Connection.workOf, Function.update_self, hwire,
          Function.update_of_ne (PeerEnd.other_ne e),
          Function.update_of_ne (PeerEnd.other_ne e).symm, CNode.work, CNode.receive,
          List.length_append, List.length_cons, List.length_nil]
        omega
  | process e nLocalHostNonce =>
      obtain ⟨r, hr, rfl⟩ := Option.map_eq_some_iff.mp hstep
      exact Connection.work_push_lt (h.process_work hr)
  | handle e nNonce =>
      obtain ⟨r, hr, rfl⟩ := Option.map_eq_some_iff.mp hstep
      exact Connection.work_push_lt (CNode.handle_work hr)
  | send e | relay e | disconnect e => exact absurd ha (by simp [Action.isHandshake])

/-- The handshake is over. -/
structure CNode.Connected (P : Protocol) (e : PeerEnd) (node : CNode) : Prop where
  connected : node.fSuccessfullyConnected = true
  nVersion : node.nVersion = P.version e.other
  nRecvVersion : node.nRecvVersion = negotiatedVersion P
  ssSend : node.ssSend = negotiatedVersion P

/-- An end that waits has not heard the other, or is done. -/
theorem CNode.Inv.waits (h : node.Inv P e) (hdisconnect : node.fDisconnect = false)
    {pv : Int} (hhandle : node.handle pv 0 = none) :
    node.reading = .silent ∧ node.handler = .idle ∨ node.handler = .done := by
  rw [CNode.handle] at hhandle
  split at hhandle
  case h_1 hhandler =>
    refine .inl ⟨CNode.reading_eq_silent.mpr (by_contra fun hnz ↦ ?_), hhandler⟩
    exact absurd (h.answered hnz hhandler) (by rw [hdisconnect]; simp)
  case h_2 hhandler => exact .inr hhandler
  all_goals cases hhandle

theorem CNode.Inv.connected_of_done (h : node.Inv P e) (hdone : node.handler = .done)
    (hreading : node.reading = .negotiated) : node.Connected P e where
  connected := h.connected.mpr hdone
  nVersion := h.nVersion.resolve_left fun h0 ↦ by simp [h.idle h0] at hdone
  nRecvVersion := by
    rw [h.nRecvVersion, hreading]
    rfl
  ssSend := by
    rw [h.ssSend (by rw [hdone]; rfl), CNode.writing, hdone]
    rfl

/-- Where no end can take a step of its own, both are done. -/
theorem Connection.Inv.connected (h : s.Inv P calm)
    (hstuck : ∀ a, a.isHandshake = true → s.step P a = none)
    (hdisconnect : ∀ e, (s.node e).fDisconnect = false) (e : PeerEnd) :
    (s.node e).Connected P e := by
  have hhandle (e : PeerEnd) : (s.node e).reading = .silent ∧ (s.node e).handler = .idle ∨
      (s.node e).handler = .done :=
    (h.node e).waits (hdisconnect e) (Option.map_eq_none_iff.mp (hstuck (.handle e 0) rfl))
  have hwire (e : PeerEnd) : s.wire e.other = [] := by
    have hreceive := hstuck (.receive e) rfl
    rw [Connection.step] at hreceive
    split at hreceive
    · assumption
    · cases hreceive
  have hmsgs (e : PeerEnd) : (s.node e).vRecvMsg = [] := by
    have hprocess := Option.map_eq_none_iff.mp (hstuck (.process e 0) rfl)
    rw [CNode.processMessages, if_neg] at hprocess
    · split at hprocess
      · assumption
      · cases hprocess
    · rintro (hd | ⟨hidle, hdone⟩)
      · exact absurd hd (by rw [hdisconnect e]; simp)
      · exact (hhandle e).elim (fun hw ↦ hidle hw.2) hdone
  -- nothing is pending, so each end has read what the other has written
  have hread (e : PeerEnd) : (s.node e).reading = (s.node e.other).writing := by
    have hrun := h.unread e (hdisconnect e)
    rw [Connection.Unread, hmsgs e, hwire e] at hrun
    exact (Run.nil_iff.mp hrun).symm
  have hdone_of (e : PeerEnd) (hw : (s.node e.other).writing ≠ .silent) :
      (s.node e).handler = .done :=
    (hhandle e).resolve_left fun hs ↦ hw ((hread e).symm.trans hs.1)
  have hwriting_of {e : PeerEnd} (hdone : (s.node e).handler = .done) :
      (s.node e).writing = .negotiated := by
    rw [CNode.writing, hdone]
  have hinbound : (s.node .inbound).handler = .done := by
    refine hdone_of .inbound fun hsilent ↦ ?_
    exact absurd ((h.node .outbound).of_writing_silent hsilent).1 (by decide)
  have houtbound : (s.node .outbound).handler = .done :=
    hdone_of .outbound (by
      rw [PeerEnd.other, hwriting_of hinbound]
      simp)
  cases e with
  | outbound =>
      exact (h.node _).connected_of_done houtbound ((hread _).trans (hwriting_of hinbound))
  | inbound =>
      exact (h.node _).connected_of_done hinbound ((hread _).trans (hwriting_of houtbound))

/-- Progress: from whatever state the two have come to, only so many steps of the handshake can
follow each other, and where none is left both ends are connected, at the same version. -/
theorem handshake_completes
    {nNonce : UInt64} {acts : List Action}
    (hrun : Run (Connection.Step P) (.start P nNonce) acts s) :
    (∀ acts' s', Run (Connection.Step P) s acts' s' →
      (∀ a ∈ acts', a.isHandshake = true) → acts'.length + s'.work ≤ s.work) ∧
    ((∀ a, a.isHandshake = true → s.step P a = none) →
      (∀ e, (s.node e).fDisconnect = false) → ∀ e, (s.node e).Connected P e) := by
  have h : s.Inv P false :=
    Connection.inv_of_run (Connection.inv_start nNonce) hrun (by simp)
  refine ⟨fun acts' s' hrun' hacts ↦ ?_, h.connected⟩
  clear hrun
  induction hrun' with
  | nil => simp
  | @cons s s₁ s' a acts' hstep _ ih =>
      obtain ⟨ha, hacts⟩ := List.forall_mem_cons.mp hacts
      have hlt := h.step_work hstep ha
      have hrest := ih (h.step hstep (by simp)) hacts
      rw [List.length_cons]
      omega

end

/-! ## An example -/

/-- The inbound end is newer. -/
def sampleProtocol : Protocol where
  version
    | .outbound => 70002
    | .inbound => 70003
  supported e := by cases e <;> decide

/-- Each end answers the other, until nothing is left to read. -/
def sampleActs : List Action :=
  [.receive .inbound, .process .inbound 7, .handle .inbound 7, .handle .inbound 0,
    .handle .inbound 0, .handle .inbound 0, .receive .outbound, .receive .outbound,
    .process .outbound 5, .handle .outbound 0, .handle .outbound 0, .handle .outbound 0,
    .handle .outbound 0, .process .outbound 0, .receive .inbound, .process .inbound 0]

/-- The connection when they are done. -/
def sampleConnection : Connection :=
  (sampleActs.foldlM (Connection.step sampleProtocol) (.start sampleProtocol 5)).getD
    (.start sampleProtocol 5)

theorem run_sample : Run (Connection.Step sampleProtocol) (.start sampleProtocol 5) sampleActs
    sampleConnection :=
  Run.of_foldlM (by rfl)

theorem versions_agree_sample :
    (sampleConnection.node .inbound).fSuccessfullyConnected = true ∧
      (sampleConnection.node .inbound).nVersion = sampleProtocol.version .outbound ∧
        (sampleConnection.node .inbound).ssSend = negotiatedVersion sampleProtocol :=
  ⟨by decide, (versions_agree run_sample).2.1 .inbound
    (by decide)⟩

theorem handshake_completes_sample :
    sampleActs.length + sampleConnection.work ≤ (Connection.start sampleProtocol 5).work ∧
      (sampleConnection.node .outbound).Connected sampleProtocol .outbound ∧
        (sampleConnection.node .inbound).Connected sampleProtocol .inbound := by
  have hconnected := (handshake_completes run_sample).2
    (fun a ha ↦ by rcases a with ⟨⟨⟩⟩ | ⟨⟨⟩, _⟩ | ⟨⟨⟩, _⟩ | _ | _ | _ <;> first | rfl | cases ha)
    (fun e ↦ by cases e <;> rfl)
  exact ⟨(handshake_completes (.nil _)).1 _ _ run_sample (by decide), hconnected _, hconnected _⟩

end Fedoracoin.Handshake
