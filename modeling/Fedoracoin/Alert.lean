import Fedoracoin.AddrManRead

/-!
# Alerts

`CAlert::ProcessAlert` of `alert.cpp` over `mapAlerts`.  The adjusted time is read once in a call.
The notifications, `-alertnotify` and what only they use are left out.

An alert whose `nID` is the greatest `int` says that the alert key is compromised.
-/

namespace Fedoracoin

open Wire

def maxInt : Int := 2147483647

/-- A string, as the bytes it is compared by. -/
def stringBytes (s : String) : List UInt8 := s.toList.map fun c ↦ UInt8.ofNat c.toNat

/-! ## Messages -/

structure CUnsignedAlert where
  nVersion : Int
  nRelayUntil : Int
  nExpiration : Int
  nID : Int
  nCancel : Int
  setCancel : Finset Int
  nMinVer : Int
  nMaxVer : Int
  setSubVer : Finset (List UInt8)
  nPriority : Int
  strComment : List UInt8
  strStatusBar : List UInt8
  strReserved : List UInt8
deriving DecidableEq

def unserializeString : StreamReader (List UInt8) := unserializeVector unserializeByte

def unserializeSet {α : Type} [DecidableEq α] (unserialize : StreamReader α) :
    StreamReader (Finset α) := do
  let keys ← unserializeVector unserialize
  return keys.toFinset

namespace CUnsignedAlert

def unserialize : StreamReader CUnsignedAlert := do
  let nVersion ← unserializeInt
  let nRelayUntil ← unserializeInt64
  let nExpiration ← unserializeInt64
  let nID ← unserializeInt
  let nCancel ← unserializeInt
  let setCancel ← unserializeSet unserializeInt
  let nMinVer ← unserializeInt
  let nMaxVer ← unserializeInt
  let setSubVer ← unserializeSet unserializeString
  let nPriority ← unserializeInt
  let strComment ← unserializeString
  let strStatusBar ← unserializeString
  let strReserved ← unserializeString
  return { nVersion, nRelayUntil, nExpiration, nID, nCancel, setCancel, nMinVer, nMaxVer,
           setSubVer, nPriority, strComment, strStatusBar, strReserved }

/-- `IsInEffect`, at the adjusted time `nTime`. -/
def isInEffect (nTime : Int) (alert : CUnsignedAlert) : Bool := nTime < alert.nExpiration

def cancels (nTime : Int) (self alert : CUnsignedAlert) : Bool :=
  if !self.isInEffect nTime then false
  else alert.nID ≤ self.nCancel || alert.nID ∈ self.setCancel

/-- The pre-defined message of an alert whose `nID` is reserved. -/
def isKeyCompromised (alert : CUnsignedAlert) : Bool :=
  alert.nExpiration = maxInt && alert.nCancel = maxInt - 1 && alert.nMinVer = 0 &&
    alert.nMaxVer = maxInt && alert.setSubVer = ∅ && alert.nPriority = maxInt &&
    alert.strStatusBar = stringBytes "URGENT: Alert key compromised, upgrade required"

/-- The checks that `ProcessAlert` makes of the members before it takes the lock. -/
def passes (nTime : Int) (alert : CUnsignedAlert) : Bool :=
  if !alert.isInEffect nTime then false
  else if alert.nID = maxInt then alert.isKeyCompromised
  else true

end CUnsignedAlert

structure CAlert extends CUnsignedAlert where
  vchMsg : List UInt8
  vchSig : List UInt8

/-- What the code relies on outside of `alert.cpp`: the verification of a message's hash against
a signature under `Params().AlertKey()`, and the hash. -/
structure AlertEnv where
  verify : List UInt8 → List UInt8 → Bool
  hash : List UInt8 → Uint256

/-- An alert as it arrives, and the adjusted time at which it is processed. -/
structure AlertCall where
  nTime : Int
  vchMsg : List UInt8
  vchSig : List UInt8

abbrev AlertMap := List (Uint256 × CAlert)

/-! ## Processing -/

namespace AlertEnv

variable (env : AlertEnv)

/-- `CheckSignature`, with the members it reads. -/
def checkSignature (vchMsg vchSig : List UInt8) : Except Failure (Option CAlert) :=
  if !env.verify vchMsg vchSig then .ok none
  else
    match CUnsignedAlert.unserialize vchMsg with
    | .error message => .error (.exception message)
    | .ok (alert, _) => .ok (some { toCUnsignedAlert := alert, vchMsg := vchMsg, vchSig := vchSig })

/-- The alert of a call that passes the checks. -/
def checkAlert (call : AlertCall) : Except Failure (Option CAlert) := do
  let checked ← env.checkSignature call.vchMsg call.vchSig
  return checked.filter fun alert ↦ alert.passes call.nTime

/-- The loop that cancels previous alerts. -/
def cancelPrevious (nTime : Int) (alert : CAlert) (mapAlerts : AlertMap) : AlertMap :=
  mapAlerts.filter fun item ↦
    !(alert.cancels nTime item.2.toCUnsignedAlert || !item.2.isInEffect nTime)

/-- `mapAlerts.insert`, which keeps an entry that is there. -/
def insertAlert (alert : CAlert) (mapAlerts : AlertMap) : AlertMap :=
  if mapAlerts.any (·.1 = env.hash alert.vchMsg) then mapAlerts
  else (env.hash alert.vchMsg, alert) :: mapAlerts

/-- What `ProcessAlert` does under the lock. -/
def enterAlert (nTime : Int) (alert : CAlert) (mapAlerts : AlertMap) : Bool × AlertMap :=
  let mapAlerts := cancelPrevious nTime alert mapAlerts
  if mapAlerts.any fun item ↦ item.2.cancels nTime alert.toCUnsignedAlert then (false, mapAlerts)
  else (true, env.insertAlert alert mapAlerts)

def processAlert (call : AlertCall) (mapAlerts : AlertMap) : Except Failure (Bool × AlertMap) := do
  let some alert ← env.checkAlert call | return (false, mapAlerts)
  return env.enterAlert call.nTime alert mapAlerts

/-- `mapAlerts` after a call.  What is thrown is caught by the message loop. -/
def after (mapAlerts : AlertMap) (call : AlertCall) : AlertMap :=
  match env.processAlert call mapAlerts with
  | .ok (_, mapAlerts) => mapAlerts
  | .error _ => mapAlerts

/-- `mapAlerts` after the calls of a run. -/
def afterAll (mapAlerts : AlertMap) (calls : List AlertCall) : AlertMap :=
  calls.foldl env.after mapAlerts

end AlertEnv

/-! ## The final alert -/

/-- The alert of the message is in `mapAlerts`. -/
def AlertEnv.Shown (env : AlertEnv) (vchMsg : List UInt8) (mapAlerts : AlertMap) : Prop :=
  ∃ alert, (env.hash vchMsg, alert) ∈ mapAlerts ∧ alert.vchMsg = vchMsg

/-- When the message arrives, an alert in effect that its alert does not cancel stands against
it. -/
def AlertEnv.Blocked (env : AlertEnv) (call : AlertCall) (alert : CUnsignedAlert)
    (mapAlerts : AlertMap) : Prop :=
  ¬ env.Shown call.vchMsg mapAlerts ∧ ∃ item ∈ mapAlerts,
    alert.cancels call.nTime item.2.toCUnsignedAlert = false ∧ item.2.isInEffect call.nTime ∧
      (item.2.cancels call.nTime alert ∨ item.1 = env.hash call.vchMsg)

/-- A call whose alert passes the checks, is of another message, and finds the alert expired or
cancels it. -/
def AlertEnv.Overrides (env : AlertEnv) (vchMsg : List UInt8) (alert : CUnsignedAlert)
    (call : AlertCall) : Prop :=
  ∃ other, env.checkAlert call = .ok (some other) ∧ other.vchMsg ≠ vchMsg ∧
    (other.cancels call.nTime alert ∨ alert.isInEffect call.nTime = false)

/-- The members of an alert are those its message gives. -/
def CAlert.Parsed (alert : CAlert) : Prop :=
  ∃ rest, CUnsignedAlert.unserialize alert.vchMsg = .ok (alert.toCUnsignedAlert, rest)

namespace AlertEnv

variable {env : AlertEnv} {mapAlerts : AlertMap} {call : AlertCall} {alert : CAlert} {nTime : Int}
  {item : Uint256 × CAlert}

/-- What holds of `mapAlerts` after any calls. -/
def Inv (env : AlertEnv) (mapAlerts : AlertMap) : Prop :=
  ∀ item ∈ mapAlerts, item.1 = env.hash item.2.vchMsg ∧ item.2.Parsed

theorem checkSignature_eq_some {vchMsg vchSig : List UInt8} :
    env.checkSignature vchMsg vchSig = .ok (some alert) ↔ env.verify vchMsg vchSig = true ∧
      alert.vchMsg = vchMsg ∧ alert.vchSig = vchSig ∧ alert.Parsed := by
  rw [checkSignature]
  cases env.verify vchMsg vchSig with
  | false => simp
  | true =>
      rw [Bool.not_true, if_neg Bool.false_ne_true]
      cases hread : CUnsignedAlert.unserialize vchMsg with
      | error message =>
          refine iff_of_false (fun h ↦ by cases h) ?_
          rintro ⟨-, rfl, -, rest, hparsed⟩
          rw [hread] at hparsed
          cases hparsed
      | ok parsed =>
          constructor
          · intro h
            obtain rfl := Option.some.inj (Except.ok.inj h)
            exact ⟨rfl, rfl, rfl, parsed.2, hread⟩
          · rintro ⟨-, rfl, rfl, rest, hparsed⟩
            obtain rfl := Except.ok.inj (hread.symm.trans hparsed)
            rfl

theorem checkAlert_eq_some : env.checkAlert call = .ok (some alert) ↔
    env.checkSignature call.vchMsg call.vchSig = .ok (some alert) ∧
      alert.passes call.nTime = true := by
  rw [checkAlert, bind_eq_ok]
  constructor
  · rintro ⟨checked, hsig, h⟩
    obtain ⟨rfl, hpasses⟩ := Option.filter_eq_some_iff.mp (Except.ok.inj h)
    exact ⟨hsig, hpasses⟩
  · rintro ⟨hsig, hpasses⟩
    exact ⟨some alert, hsig, congrArg Except.ok (Option.filter_eq_some_iff.mpr ⟨rfl, hpasses⟩)⟩

theorem isInEffect_of_passes {alert : CUnsignedAlert}
    (h : alert.passes nTime = true) : alert.isInEffect nTime = true := by
  cases heffect : alert.isInEffect nTime with
  | true => rfl
  | false =>
      rw [CUnsignedAlert.passes, heffect] at h
      cases h

theorem isKeyCompromised_of_passes {alert : CUnsignedAlert} (h : alert.passes nTime = true)
    (hid : alert.nID = maxInt) : alert.isKeyCompromised = true := by
  rw [CUnsignedAlert.passes, isInEffect_of_passes h, if_pos hid] at h
  exact h

theorem mem_cancelPrevious : item ∈ cancelPrevious nTime alert mapAlerts ↔
    item ∈ mapAlerts ∧ alert.cancels nTime item.2.toCUnsignedAlert = false ∧
      item.2.isInEffect nTime = true := by
  rw [cancelPrevious, List.mem_filter, Bool.not_eq_true', Bool.or_eq_false_iff,
    Bool.not_eq_false']

theorem mem_insertAlert : item ∈ env.insertAlert alert mapAlerts ↔
    item ∈ mapAlerts ∨
      item = (env.hash alert.vchMsg, alert) ∧ ∀ old ∈ mapAlerts, old.1 ≠ env.hash alert.vchMsg := by
  rw [insertAlert]
  split
  case isTrue h =>
    obtain ⟨old, hold, heq⟩ := List.any_eq_true.mp h
    refine (or_iff_left ?_).symm
    rintro ⟨-, hnone⟩
    exact hnone old hold (of_decide_eq_true heq)
  case isFalse h =>
    rw [List.mem_cons, or_comm, and_iff_left]
    intro old hold heq
    exact h (List.any_eq_true.mpr ⟨old, hold, decide_eq_true heq⟩)

/-- What an alert past the checks leaves: what it does not cancel, and itself unless one of these
cancels it or has its hash. -/
theorem mem_enterAlert : item ∈ (env.enterAlert nTime alert mapAlerts).2 ↔
    item ∈ cancelPrevious nTime alert mapAlerts ∨ item = (env.hash alert.vchMsg, alert) ∧
      ∀ old ∈ cancelPrevious nTime alert mapAlerts,
        old.2.cancels nTime alert.toCUnsignedAlert = false ∧ old.1 ≠ env.hash alert.vchMsg := by
  rw [enterAlert]
  split
  case isTrue h =>
    obtain ⟨old, hold, hcancels⟩ := List.any_eq_true.mp h
    refine (or_iff_left ?_).symm
    rintro ⟨-, hnone⟩
    exact Bool.false_ne_true ((hnone old hold).1.symm.trans hcancels)
  case isFalse h =>
    have hnone : ∀ old ∈ cancelPrevious nTime alert mapAlerts,
        old.2.cancels nTime alert.toCUnsignedAlert = false := fun old hold ↦
      Bool.eq_false_iff.mpr fun hcancels ↦ h (List.any_eq_true.mpr ⟨old, hold, hcancels⟩)
    rw [mem_insertAlert, forall₂_and, and_iff_right hnone]

variable (env mapAlerts call) in
/-- A call whose alert passes the checks enters it, and any other changes nothing. -/
theorem after_cases : (∃ alert, env.checkAlert call = .ok (some alert) ∧
      env.after mapAlerts call = (env.enterAlert call.nTime alert mapAlerts).2) ∨
    (∀ alert, ¬ env.checkAlert call = .ok (some alert)) ∧
      env.after mapAlerts call = mapAlerts := by
  rw [after, processAlert]
  cases hcheck : env.checkAlert call with
  | error e =>
      refine .inr ⟨fun alert h ↦ ?_, rfl⟩
      cases h
  | ok checked =>
      cases checked with
      | none =>
          refine .inr ⟨fun alert h ↦ ?_, rfl⟩
          cases h
      | some alert => exact .inl ⟨alert, rfl, rfl⟩

theorem parsed_of_checkAlert (h : env.checkAlert call = .ok (some alert)) :
    alert.vchMsg = call.vchMsg ∧ alert.Parsed := by
  obtain ⟨-, hmsg, -, hparsed⟩ := checkSignature_eq_some.mp (checkAlert_eq_some.mp h).1
  exact ⟨hmsg, hparsed⟩

theorem Inv.after (h : env.Inv mapAlerts) (call : AlertCall) :
    env.Inv (env.after mapAlerts call) := by
  obtain ⟨alert, hcheck, heq⟩ | ⟨-, heq⟩ := after_cases env mapAlerts call
  · rw [heq]
    intro item hitem
    obtain hold | ⟨rfl, -⟩ := mem_enterAlert.mp hitem
    · exact h item (mem_cancelPrevious.mp hold).1
    · exact ⟨rfl, (parsed_of_checkAlert hcheck).2⟩
  · rw [heq]
    exact h

theorem inv_afterAll (env : AlertEnv) (calls : List AlertCall) : env.Inv (env.afterAll [] calls) :=
  List.foldlRecOn calls env.after (nofun)
    fun _ h call _ ↦ h.after call

end AlertEnv

theorem unserializeInt_le {s t : List UInt8} {n : Int} (h : unserializeInt s = .ok (n, t)) :
    n ≤ maxInt := by
  obtain ⟨m, s', -, h⟩ := bind_ok h
  obtain ⟨rfl, -⟩ := pure_ok h
  have hlt := (BitVec.ofNat 32 m).toInt_lt
  rw [maxInt]
  omega

theorem CAlert.Parsed.nID_le {alert : CAlert} (h : alert.Parsed) : alert.nID ≤ maxInt := by
  obtain ⟨rest, h⟩ := h
  obtain ⟨nVersion, s, -, h⟩ := bind_ok h
  obtain ⟨nRelayUntil, s, -, h⟩ := bind_ok h
  obtain ⟨nExpiration, s, -, h⟩ := bind_ok h
  obtain ⟨nID, s, hid, h⟩ := bind_ok h
  have hle := unserializeInt_le hid
  obtain ⟨nCancel, s, -, h⟩ := bind_ok h
  obtain ⟨setCancel, s, -, h⟩ := bind_ok h
  obtain ⟨nMinVer, s, -, h⟩ := bind_ok h
  obtain ⟨nMaxVer, s, -, h⟩ := bind_ok h
  obtain ⟨setSubVer, s, -, h⟩ := bind_ok h
  obtain ⟨nPriority, s, -, h⟩ := bind_ok h
  obtain ⟨strComment, s, -, h⟩ := bind_ok h
  obtain ⟨strStatusBar, s, -, h⟩ := bind_ok h
  obtain ⟨strReserved, s, -, h⟩ := bind_ok h
  obtain ⟨heq, -⟩ := pure_ok h
  rw [heq]
  exact hle

namespace CUnsignedAlert

variable {nTime : Int} {final alert : CUnsignedAlert}

theorem nCancel_of_isKeyCompromised (h : final.isKeyCompromised = true) :
    final.nCancel = maxInt - 1 := by
  simp only [isKeyCompromised, Bool.and_eq_true, decide_eq_true_eq] at h
  exact h.1.1.1.1.1.2

theorem cancels_eq_true : final.cancels nTime alert = true ↔
    final.isInEffect nTime = true ∧ (alert.nID ≤ final.nCancel ∨ alert.nID ∈ final.setCancel) := by
  rw [cancels]
  cases final.isInEffect nTime <;> simp

/-- An alert of the pre-defined message that cancels itself cancels everything. -/
theorem cancels_of_self (hform : final.isKeyCompromised = true) (hid : final.nID = maxInt)
    (hself : final.cancels nTime final = true) (h : alert.nID ≤ maxInt) :
    final.cancels nTime alert = true := by
  have hcancel := nCancel_of_isKeyCompromised hform
  obtain ⟨heffect, hself⟩ := cancels_eq_true.mp hself
  refine cancels_eq_true.mpr ⟨heffect, ?_⟩
  obtain hlt | heq := h.lt_or_eq
  · left
    omega
  · right
    rw [heq, ← hid]
    exact hself.resolve_left (by omega)

end CUnsignedAlert

namespace AlertEnv

variable {env : AlertEnv} {mapAlerts : AlertMap} {call : AlertCall} {vchMsg rest : List UInt8}
  {final : CUnsignedAlert} {alert : CAlert} {nTime : Int}

/-- Alerts of one message have the same members. -/
theorem eq_of_parsed (hread : CUnsignedAlert.unserialize vchMsg = .ok (final, rest))
    (hparsed : alert.Parsed) (hmsg : alert.vchMsg = vchMsg) : alert.toCUnsignedAlert = final := by
  obtain ⟨rest', hparsed⟩ := hparsed
  rw [hmsg, hread] at hparsed
  exact (Prod.mk.inj (Except.ok.inj hparsed)).1.symm

/-- The message again. -/
theorem shown_again (hread : CUnsignedAlert.unserialize vchMsg = .ok (final, rest))
    (hid : final.nID = maxInt) (hform : final.isKeyCompromised = true) (hinv : env.Inv mapAlerts)
    (hshown : env.Shown vchMsg mapAlerts) (hparsed : alert.Parsed) (hmsg : alert.vchMsg = vchMsg)
    (heffect : alert.isInEffect nTime = true) :
    env.Shown vchMsg (env.enterAlert nTime alert mapAlerts).2 := by
  obtain ⟨old, hold, holdmsg⟩ := hshown
  have halert := eq_of_parsed hread hparsed hmsg
  have heq := eq_of_parsed hread (hinv _ hold).2 holdmsg
  cases hself : final.cancels nTime final with
  | true =>
      -- everything is cancelled, and nothing is left to stand against it
      have hnone : cancelPrevious nTime alert mapAlerts = [] := by
        refine List.eq_nil_iff_forall_not_mem.mpr fun item hitem ↦ ?_
        obtain ⟨hmem, hkept, -⟩ := mem_cancelPrevious.mp hitem
        rw [halert, CUnsignedAlert.cancels_of_self hform hid hself (hinv item hmem).2.nID_le]
          at hkept
        cases hkept
      refine ⟨alert, mem_enterAlert.mpr (.inr ⟨?_, fun item hitem ↦ ?_⟩), hmsg⟩
      · rw [hmsg]
      · rw [hnone] at hitem
        cases hitem
  | false =>
      refine ⟨old, mem_enterAlert.mpr (.inl (mem_cancelPrevious.mpr ⟨hold, ?_, ?_⟩)), holdmsg⟩
      · rw [halert, heq, hself]
      · rw [heq, ← halert, heffect]

/-- An alert of another message. -/
theorem shown_other (hread : CUnsignedAlert.unserialize vchMsg = .ok (final, rest))
    (hinv : env.Inv mapAlerts) (hshown : env.Shown vchMsg mapAlerts)
    (hmsg : alert.vchMsg ≠ vchMsg) :
    env.Shown vchMsg (env.enterAlert nTime alert mapAlerts).2 ↔
      ¬ (alert.cancels nTime final = true ∨ final.isInEffect nTime = false) := by
  rw [not_or, Bool.not_eq_true, Bool.not_eq_false]
  constructor
  · rintro ⟨kept, hkept, hkeptmsg⟩
    obtain hkept | ⟨hnew, -⟩ := mem_enterAlert.mp hkept
    · obtain ⟨hmem, hcancels, heffect⟩ := mem_cancelPrevious.mp hkept
      have heq := eq_of_parsed hread (hinv _ hmem).2 hkeptmsg
      rw [← heq]
      exact ⟨hcancels, heffect⟩
    · obtain rfl := (Prod.mk.inj hnew).2
      exact absurd hkeptmsg hmsg
  · rintro ⟨hcancels, heffect⟩
    obtain ⟨old, hold, holdmsg⟩ := hshown
    have heq := eq_of_parsed hread (hinv _ hold).2 holdmsg
    refine ⟨old, mem_enterAlert.mpr (.inl (mem_cancelPrevious.mpr ⟨hold, ?_, ?_⟩)), holdmsg⟩
    · rw [heq, hcancels]
    · rw [heq, heffect]

/-- The alert stays exactly if the call does not override it. -/
theorem shown_after (hread : CUnsignedAlert.unserialize vchMsg = .ok (final, rest))
    (hid : final.nID = maxInt) (hform : final.isKeyCompromised = true) (hinv : env.Inv mapAlerts)
    (hshown : env.Shown vchMsg mapAlerts) :
    env.Shown vchMsg (env.after mapAlerts call) ↔ ¬ env.Overrides vchMsg final call := by
  obtain ⟨alert, hcheck, heq⟩ | ⟨hnone, heq⟩ := after_cases env mapAlerts call
  · obtain ⟨hmsg, hparsed⟩ := parsed_of_checkAlert hcheck
    have heffect := isInEffect_of_passes (checkAlert_eq_some.mp hcheck).2
    rw [heq]
    by_cases hsame : alert.vchMsg = vchMsg
    · refine iff_of_true (shown_again hread hid hform hinv hshown hparsed hsame heffect) ?_
      rintro ⟨other, hother, hne, -⟩
      obtain rfl := Option.some.inj (Except.ok.inj (hcheck.symm.trans hother))
      exact hne hsame
    · rw [shown_other hread hinv hshown hsame]
      refine not_congr ⟨fun h ↦ ⟨alert, hcheck, hsame, h⟩, ?_⟩
      rintro ⟨other, hother, -, h⟩
      obtain rfl := Option.some.inj (Except.ok.inj (hcheck.symm.trans hother))
      exact h
  · rw [heq]
    refine iff_of_true hshown ?_
    rintro ⟨other, hother, -⟩
    exact hnone other hother

/-- The alert is entered exactly if nothing stands against it. -/
theorem shown_given (hcheck : env.checkAlert call = .ok (some alert))
    (hid : alert.nID = maxInt) (hinv : env.Inv mapAlerts) :
    env.Shown call.vchMsg (env.after mapAlerts call) ↔
      ¬ env.Blocked call alert.toCUnsignedAlert mapAlerts := by
  obtain ⟨hmsg, rest, hread⟩ := parsed_of_checkAlert hcheck
  have hpasses := (checkAlert_eq_some.mp hcheck).2
  have hform := isKeyCompromised_of_passes hpasses hid
  rw [hmsg] at hread
  by_cases hshown : env.Shown call.vchMsg mapAlerts
  · rw [shown_after hread hid hform hinv hshown]
    refine iff_of_true ?_ fun hblocked ↦ hblocked.1 hshown
    rintro ⟨other, hother, hne, -⟩
    obtain rfl := Option.some.inj (Except.ok.inj (hcheck.symm.trans hother))
    exact hne hmsg
  · obtain ⟨alert', hcheck', heq⟩ | ⟨hnone, -⟩ := after_cases env mapAlerts call
    · obtain rfl := Option.some.inj (Except.ok.inj (hcheck.symm.trans hcheck'))
      rw [heq]
      constructor
      · rintro ⟨kept, hkept, hkeptmsg⟩ ⟨-, item, hitem, hkeep, heffect, hagainst⟩
        obtain hkept | ⟨-, hfree⟩ := mem_enterAlert.mp hkept
        · exact hshown ⟨kept, (mem_cancelPrevious.mp hkept).1, hkeptmsg⟩
        · obtain ⟨hcancels, hhash⟩ := hfree item (mem_cancelPrevious.mpr ⟨hitem, hkeep, heffect⟩)
          rw [hmsg] at hhash
          exact hagainst.elim (fun h ↦ Bool.false_ne_true (hcancels.symm.trans h)) hhash
      · intro hfree
        refine ⟨alert, mem_enterAlert.mpr (.inr ⟨?_, fun item hitem ↦ ?_⟩), hmsg⟩
        · rw [hmsg]
        · obtain ⟨hmem, hkeep, heffect⟩ := mem_cancelPrevious.mp hitem
          rw [hmsg]
          refine ⟨Bool.eq_false_iff.mpr fun hcancels ↦ ?_, fun hhash ↦ ?_⟩
          · exact hfree ⟨hshown, item, hmem, hkeep, heffect, .inl hcancels⟩
          · exact hfree ⟨hshown, item, hmem, hkeep, heffect, .inr hhash⟩
    · exact absurd hcheck (hnone alert)

end AlertEnv

/-- **The final alert.** -/
theorem finalAlert_kept_iff (env : AlertEnv) (pre post : List AlertCall) {call : AlertCall}
    {final : CUnsignedAlert} {rest : List UInt8}
    (hverify : env.verify call.vchMsg call.vchSig = true)
    (hread : CUnsignedAlert.unserialize call.vchMsg = .ok (final, rest))
    (hid : final.nID = maxInt) (hform : final.isKeyCompromised = true)
    (heffect : final.isInEffect call.nTime = true) :
    (∀ later, later <+: post →
      env.Shown call.vchMsg (env.afterAll [] (pre ++ call :: later))) ↔
      ¬ env.Blocked call final (env.afterAll [] pre) ∧
        ∀ other ∈ post, ¬ env.Overrides call.vchMsg final other := by
  have hpasses : final.passes call.nTime = true := by
    rw [CUnsignedAlert.passes, heffect, if_pos hid, hform]
    rfl
  let alert : CAlert := { toCUnsignedAlert := final, vchMsg := call.vchMsg, vchSig := call.vchSig }
  have hcheck : env.checkAlert call = .ok (some alert) :=
    AlertEnv.checkAlert_eq_some.mpr
      ⟨AlertEnv.checkSignature_eq_some.mpr ⟨hverify, rfl, rfl, rest, hread⟩, hpasses⟩
  have hinv := AlertEnv.inv_afterAll env pre
  have hrun : (∀ later, later <+: post →
      env.Shown call.vchMsg (later.foldl env.after (env.after (env.afterAll [] pre) call))) ↔
        env.Shown call.vchMsg (env.after (env.afterAll [] pre) call) ∧
          ∀ other ∈ post, ¬ env.Overrides call.vchMsg final other :=
    Run.prefix_iff_forall (I := env.Inv) (fun _ other hm ↦ hm.after other)
      (fun _ _ hm hshown ↦ AlertEnv.shown_after hread hid hform hm hshown) (hinv.after call)
  rw [← AlertEnv.shown_given hcheck hid hinv, ← hrun]
  refine forall₂_congr fun later _ ↦ ?_
  rw [AlertEnv.afterAll, AlertEnv.afterAll, List.foldl_append]
  rfl

/-! ### Two messages -/

/-- The final alert. -/
def sampleFinal : CUnsignedAlert where
  nVersion := 1
  nRelayUntil := 0
  nExpiration := maxInt
  nID := maxInt
  nCancel := maxInt - 1
  setCancel := ∅
  nMinVer := 0
  nMaxVer := maxInt
  setSubVer := ∅
  nPriority := maxInt
  strComment := []
  strStatusBar := stringBytes "URGENT: Alert key compromised, upgrade required"
  strReserved := []

/-- An alert with another number that cancels up to the greatest `int`. -/
def sampleOverride : CUnsignedAlert :=
  { sampleFinal with nID := 1, nCancel := maxInt, nPriority := 0, strStatusBar := [] }

/-- An alert that cancels nothing. -/
def sampleNotice : CUnsignedAlert := { sampleOverride with nCancel := 0 }

/-- The message of an alert without sets. -/
def sampleAlertMsg (alert : CUnsignedAlert) : List UInt8 :=
  serializeInt alert.nVersion ++ serializeInt64 alert.nRelayUntil ++
    serializeInt64 alert.nExpiration ++ serializeInt alert.nID ++ serializeInt alert.nCancel ++
    [0] ++ serializeInt alert.nMinVer ++ serializeInt alert.nMaxVer ++ [0] ++
    serializeInt alert.nPriority ++ serializeVector serializeByte alert.strComment ++
    serializeVector serializeByte alert.strStatusBar ++
    serializeVector serializeByte alert.strReserved

def sampleAlertEnv : AlertEnv where
  verify _ vchSig := vchSig = [1]
  hash vchMsg := BitVec.ofNat 256 (ofBytes vchMsg)

def sampleAlertCall (alert : CUnsignedAlert) : AlertCall :=
  { nTime := 1400000000, vchMsg := sampleAlertMsg alert, vchSig := [1] }

theorem unserialize_sampleFinal :
    CUnsignedAlert.unserialize (sampleAlertMsg sampleFinal) = .ok (sampleFinal, []) := by
  decide +kernel

theorem unserialize_sampleOverride :
    CUnsignedAlert.unserialize (sampleAlertMsg sampleOverride) = .ok (sampleOverride, []) := by
  decide +kernel

/-- An alert that cancels nothing, before the final one and after it. -/
theorem finalAlert_kept_iff_sample :
    sampleAlertEnv.Shown (sampleAlertMsg sampleFinal) (sampleAlertEnv.afterAll []
      ([sampleAlertCall sampleNotice] ++ [sampleAlertCall sampleFinal,
        sampleAlertCall sampleNotice])) := by
  refine (@finalAlert_kept_iff sampleAlertEnv [sampleAlertCall sampleNotice]
    [sampleAlertCall sampleNotice] (sampleAlertCall sampleFinal) _ _ rfl unserialize_sampleFinal
    rfl (by decide) (by decide)).mpr ⟨?_, fun other hother ↦ ?_⟩ _ List.prefix_rfl
  · have hmap : ∀ item ∈ sampleAlertEnv.afterAll [] [sampleAlertCall sampleNotice],
        ¬ (item.2.cancels 1400000000 sampleFinal ∨
          item.1 = sampleAlertEnv.hash (sampleAlertMsg sampleFinal)) := by decide +kernel
    rintro ⟨-, item, hitem, -, -, hblocks⟩
    exact hmap item hitem hblocks
  · obtain rfl := List.mem_singleton.mp hother
    have hcheck : ∀ alert, sampleAlertEnv.checkAlert (sampleAlertCall sampleNotice) =
        .ok (some alert) → alert.cancels 1400000000 sampleFinal = false := by
      rintro alert ⟨⟩
      rfl
    rintro ⟨alert, halert, -, hcancels | hexpired⟩
    · exact absurd ((hcheck alert halert).symm.trans hcancels) Bool.false_ne_true
    · cases hexpired

/-- The final alert can be overridden. -/
theorem finalAlert_overridden : ¬ ∀ (env : AlertEnv) (pre post : List AlertCall)
    (call : AlertCall) (final : CUnsignedAlert) (rest : List UInt8),
    (∀ other ∈ pre ++ call :: post, ∃ alert, env.checkSignature other.vchMsg other.vchSig =
      .ok (some alert) ∧ alert.isInEffect other.nTime = true) →
    CUnsignedAlert.unserialize call.vchMsg = .ok (final, rest) → final.nID = maxInt →
    final.isKeyCompromised = true → ∀ later, later <+: post →
      env.Shown call.vchMsg (env.afterAll [] (pre ++ call :: later)) := by
  intro h
  have hsigned : ∀ alert : CUnsignedAlert,
      CUnsignedAlert.unserialize (sampleAlertMsg alert) = .ok (alert, []) →
        sampleAlertEnv.checkSignature (sampleAlertMsg alert) [1] =
          .ok (some { toCUnsignedAlert := alert, vchMsg := sampleAlertMsg alert, vchSig := [1] }) :=
    fun alert hread ↦ AlertEnv.checkSignature_eq_some.mpr ⟨rfl, rfl, rfl, [], hread⟩
  obtain ⟨alert, halert, hmsg⟩ := h sampleAlertEnv [] [sampleAlertCall sampleOverride]
    (sampleAlertCall sampleFinal) sampleFinal []
    (by
      rintro other hother
      obtain rfl | hother := List.mem_cons.mp hother
      · exact ⟨_, hsigned sampleFinal unserialize_sampleFinal, by decide⟩
      · obtain rfl := List.mem_singleton.mp hother
        exact ⟨_, hsigned sampleOverride unserialize_sampleOverride, by decide⟩)
    unserialize_sampleFinal rfl (by decide) [sampleAlertCall sampleOverride] List.prefix_rfl
  have hmsgs : (sampleAlertEnv.afterAll [] [sampleAlertCall sampleFinal,
      sampleAlertCall sampleOverride]).map (·.2.vchMsg) = [sampleAlertMsg sampleOverride] := by
    decide +kernel
  have hmem := List.mem_map_of_mem (f := fun item : Uint256 × CAlert ↦ item.2.vchMsg) halert
  rw [List.nil_append, hmsgs, hmsg] at hmem
  exact absurd hmem (by decide +kernel)

end Fedoracoin
