import Fedoracoin.Core

/-!
# Validation results and `CheckTransaction`

`CValidationState` and the checks of a transaction that depend on nothing but the
transaction.  A check that fails does so in one of a few ways, and these are the
constructors of `Failure`; what each of them does to the validation state is
`CValidationState.fail`.  Checks are then computations in `Except Failure`.
-/

namespace Fedoracoin

/-! ## Failures -/

def rejectMalformed : UInt8 := 0x01
def rejectInvalid : UInt8 := 0x10
def rejectNonstandard : UInt8 := 0x40
def rejectCheckpoint : UInt8 := 0x43

/-- The ways in which a check ends without success. -/
inductive Failure where
  /-- `state.DoS`, or `state.Invalid` with level 0. -/
  | dos (level : Nat) (chRejectCode : UInt8 := 0) (strRejectReason : String := "")
      (corruption : Bool := false)
  /-- `state.Error` or `state.Abort`. -/
  | abort (strRejectReason : String)
  /-- `return error(..)`, with the state untouched. -/
  | error (message : String)
  /-- A `runtime_error`. -/
  | exception (message : String)
  /-- A failed `assert`, or an access outside of a container. -/
  | assertion
  /-- A recursion that does not end within the fuel it is given. -/
  | diverges
deriving DecidableEq

inductive ModeState where
  | valid
  | invalid
  | error
deriving DecidableEq

structure CValidationState where
  mode : ModeState := .valid
  nDoS : Nat := 0
  strRejectReason : String := ""
  chRejectCode : UInt8 := 0
  corruptionPossible : Bool := false
deriving DecidableEq

/-- The effect of a failure on the validation state. -/
def CValidationState.fail (state : CValidationState) : Failure → CValidationState
  | .dos level chRejectCode strRejectReason corruption =>
      let state := { state with
        chRejectCode := chRejectCode
        strRejectReason := strRejectReason
        corruptionPossible := corruption }
      if state.mode = .error then state
      else { state with nDoS := state.nDoS + level, mode := .invalid }
  | .abort strRejectReason =>
      { state with
        mode := .error
        strRejectReason :=
          if state.mode = .valid then strRejectReason else state.strRejectReason }
  | .error _ | .exception _ | .assertion | .diverges => state

@[simp] theorem CValidationState.chRejectCode_fail (state : CValidationState) (level : Nat)
    (chRejectCode : UInt8) (strRejectReason : String) (corruption : Bool) :
    (state.fail (.dos level chRejectCode strRejectReason corruption)).chRejectCode =
      chRejectCode := by
  rw [fail]
  split
  · rfl
  · rfl

@[simp] theorem CValidationState.strRejectReason_fail (state : CValidationState) (level : Nat)
    (chRejectCode : UInt8) (strRejectReason : String) (corruption : Bool) :
    (state.fail (.dos level chRejectCode strRejectReason corruption)).strRejectReason =
      strRejectReason := by
  rw [fail]
  split
  · rfl
  · rfl

/-- `if (c) return failure;`. -/
def failIf (c : Bool) (failure : Failure) : Except Failure Unit :=
  if c then .error failure else .ok ()

@[simp] theorem failIf_eq_ok {c : Bool} {failure : Failure} {u : Unit} :
    failIf c failure = .ok u ↔ c = false := by
  cases c <;> simp [failIf]

/-- Peels the first step off a computation that succeeds. -/
theorem bind_eq_ok {ε α β : Type} {x : Except ε α} {f : α → Except ε β} {r : β} :
    x >>= f = .ok r ↔ ∃ a, x = .ok a ∧ f a = .ok r := by
  cases x with
  | error e => simp [bind, Except.bind]
  | ok a => simp [bind, Except.bind]

/-- `GetValueOut` with its exception. -/
def CTransaction.valueOut (tx : CTransaction) : Except Failure Int64 :=
  tx.getValueOut.mapError fun _ ↦ .exception "CTransaction::GetValueOut() : value out of range"

@[simp] theorem CTransaction.valueOut_eq_ok {tx : CTransaction} {v : Int64} :
    tx.valueOut = .ok v ↔ tx.getValueOut = .ok v := by
  rw [valueOut]
  cases tx.getValueOut <;> simp [Except.mapError]

/-! ## `CheckTransaction` -/

def maxBlockSize : Nat := 1000000

namespace CTransaction

/-- The part of `CheckTransaction` before the loop over the outputs. -/
def checkShape (tx : CTransaction) : Except Failure Unit := do
  failIf tx.vin.isEmpty (.dos 10 rejectInvalid "bad-txns-vin-empty")
  failIf tx.vout.isEmpty (.dos 10 rejectInvalid "bad-txns-vout-empty")
  failIf (decide (maxBlockSize < tx.getSerializeSize))
    (.dos 100 rejectInvalid "bad-txns-oversize")

/-- The loop over the outputs.  `txout.nValue > MAX_MONEY` is a comparison of a signed
with an unsigned value. -/
def checkOutputsTally : RunningSum.Tally CTxOut Failure where
  value txout := txout.nValue
  before txout := do
    failIf (decide (txout.nValue < 0)) (.dos 100 rejectInvalid "bad-txns-vout-negative")
    failIf (decide (maxMoney < txout.nValue.toUInt64))
      (.dos 100 rejectInvalid "bad-txns-vout-toolarge")
  after _ nValueOut :=
    failIf (!moneyRange nValueOut) (.dos 100 rejectInvalid "bad-txns-txouttotal-toolarge")

/-- The loop over the inputs; `vInOutPoints` holds the outpoints seen so far. -/
def checkDuplicateInputs (vInOutPoints : List COutPoint) : List CTxIn → Except Failure Unit
  | [] => .ok ()
  | txin :: vin => do
      failIf (vInOutPoints.contains txin.prevout)
        (.dos 100 rejectInvalid "bad-txns-inputs-duplicate")
      checkDuplicateInputs (txin.prevout :: vInOutPoints) vin

/-- The checks that differ between coinbases and other transactions. -/
def checkKind (tx : CTransaction) : Except Failure Unit :=
  if tx.isCoinBase then
    let size := ((tx.vin.map (·.scriptSig)).headD []).length
    failIf (decide (size < 2) || decide (200 < size)) (.dos 100 rejectInvalid "bad-cb-length")
  else
    failIf (tx.vin.any (·.prevout.isNull)) (.dos 10 rejectInvalid "bad-txns-prevout-null")

end CTransaction

open CTransaction in
def checkTransaction (tx : CTransaction) : Except Failure Unit := do
  checkShape tx
  let _ ← checkOutputsTally.run 0 tx.vout
  checkDuplicateInputs [] tx.vin
  checkKind tx

namespace CTransaction

variable {tx : CTransaction}

theorem checkOutputs_before_eq_ok {txout : CTxOut} :
    checkOutputsTally.before txout = .ok () ↔ 0 ≤ txout.nValue := by
  have key : checkOutputsTally.before txout = .ok () ↔
      ¬ txout.nValue < 0 ∧ ¬ maxMoney < txout.nValue.toUInt64 := by
    simp [checkOutputsTally, bind_eq_ok]
  rw [key, Int64.not_lt]
  exact ⟨fun h ↦ h.1, fun h ↦ ⟨h, UInt64.not_lt.mpr (toUInt64_le_maxMoney h)⟩⟩

theorem checkOutputsTally_guarded : checkOutputsTally.Guarded := by
  intro txout s hb
  rw [checkOutputs_before_eq_ok] at hb
  change failIf (!moneyRange s) _ = _ ↔ 0 ≤ txout.nValue ∧ 0 ≤ s
  rw [failIf_eq_ok, Bool.not_eq_false', moneyRange_iff]
  exact ⟨fun hs ↦ ⟨hb, hs⟩, fun h ↦ h.2⟩

theorem checkDuplicateInputs_eq_ok {seen : List COutPoint} {vin : List CTxIn} :
    checkDuplicateInputs seen vin = .ok () ↔
      (vin.map (·.prevout)).Nodup ∧ ∀ txin ∈ vin, txin.prevout ∉ seen := by
  induction vin generalizing seen with
  | nil => simp [checkDuplicateInputs]
  | cons txin vin ih =>
      rw [checkDuplicateInputs, bind_eq_ok]
      simp only [failIf_eq_ok, ih, List.contains_eq_mem, decide_eq_false_iff_not, exists_const,
        List.map_cons, List.nodup_cons, List.mem_cons, List.mem_map, not_or, forall_eq_or_imp]
      constructor
      · rintro ⟨hseen, hnd, hall⟩
        refine ⟨⟨?_, hnd⟩, hseen, fun y hy ↦ (hall y hy).2⟩
        rintro ⟨y, hy, heq⟩
        exact (hall y hy).1 heq
      · rintro ⟨⟨hnot, hnd⟩, hseen, hall⟩
        exact ⟨hseen, hnd, fun y hy ↦ ⟨fun heq ↦ hnot ⟨y, hy, heq⟩, hall y hy⟩⟩

/-- What `CheckTransaction` establishes about the amounts and the inputs. -/
theorem of_checkTransaction (h : checkTransaction tx = .ok ()) :
    tx.vin ≠ [] ∧ (∀ o ∈ tx.vout, 0 ≤ o.nValue) ∧ (tx.vin.map (·.prevout)).Nodup := by
  simp only [checkTransaction, checkShape, bind_eq_ok, failIf_eq_ok] at h
  obtain ⟨_, ⟨_, hvin, _⟩, total, hrun, _, hdup, _⟩ := h
  refine ⟨?_, ?_, (checkDuplicateInputs_eq_ok.mp hdup).1⟩
  · rintro hnil
    rw [hnil] at hvin
    cases hvin
  · exact (checkOutputsTally_guarded.run_ok (by decide) hrun).2.2

end CTransaction

end Fedoracoin
