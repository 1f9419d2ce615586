import Fedoracoin.Coins

/-!
# Running totals and `MoneyRange`

Four loops add up amounts: those of `CheckTransaction`, `GetValueOut`, `GetValueIn` and
`CheckInputs`.  Here each of them is traced down to the operands of its additions.
`MoneyRange` admits every non-negative amount, so the tests after an addition notice an
overflow, but they do not prevent it; and `GetValueIn` makes no test.  The additions all
stay in range exactly when two conditions on the amounts hold (`noOverflow_iff`).
-/

namespace Fedoracoin

open RunningSum

/-- None of the additions with these operands overflows. -/
def NoOverflow (additions : List (Int64 × Int64)) : Prop :=
  ∀ p ∈ additions, ¬ AddOverflows p.1 p.2

instance (additions : List (Int64 × Int64)) : Decidable (NoOverflow additions) :=
  decidable_of_iff (additions.all fun p ↦ !decide (AddOverflows p.1 p.2)) <| by
    simp only [List.all_eq_true, Bool.not_eq_true', decide_eq_false_iff_not, NoOverflow]

namespace CTransaction

/-- The additions `CheckTransaction` performs. -/
def checkTransactionAdditions (tx : CTransaction) : List (Int64 × Int64) :=
  match checkShape tx with
  | .ok () => checkOutputsTally.additions 0 tx.vout
  | .error _ => []

/-- The additions `GetValueOut` performs. -/
def valueOutAdditions (tx : CTransaction) : List (Int64 × Int64) :=
  valueOutTally.additions 0 tx.vout

/-- The outputs up to the first negative one. -/
def leadingOutputs (tx : CTransaction) : List CTxOut :=
  tx.vout.takeWhile fun txout ↦ decide (0 ≤ txout.nValue)

end CTransaction

namespace CCoinsView

/-- The additions `GetValueIn` performs. -/
def valueInAdditions (view : CCoinsView) (tx : CTransaction) : List (Int64 × Int64) :=
  if tx.isCoinBase then [] else view.valueInTally.additions 0 tx.vin

/-- The additions the input loop of `CheckInputs` performs. -/
def checkInputsAdditions (mapBlockIndex : Uint256 → Option Int) (view : CCoinsView)
    (tx : CTransaction) : List (Int64 × Int64) :=
  if tx.isCoinBase || !view.haveInputs tx then []
  else
    match mapBlockIndex view.hashBlock with
    | none => []
    | some nHeight => (view.checkInputsTally (nHeight + 1)).additions 0 tx.vin

/-- The inputs up to the first one whose output is not available. -/
def leadingInputs (view : CCoinsView) (tx : CTransaction) : List CTxIn :=
  tx.vin.takeWhile fun txin ↦ (view.output txin.prevout).isSome

end CCoinsView

/-- The outputs of a transaction up to the first negative one add up to less than `2 ^ 63`. -/
def OutputsFit (tx : CTransaction) : Prop :=
  (tx.leadingOutputs.map fun txout ↦ txout.nValue.toInt).sum < 2 ^ 63

/-- The values of the inputs up to the first unavailable one have all their partial sums in
the signed 64-bit range. -/
def InputsFit (view : CCoinsView) (tx : CTransaction) : Prop :=
  tx.isCoinBase = true ∨
    Tally.PartialSumsFit 0 ((view.leadingInputs tx).map fun txin ↦ (view.inputValue txin).toInt)

section

variable {tx : CTransaction} {view : CCoinsView} {mapBlockIndex : Uint256 → Option Int}

open CTransaction CCoinsView

theorem valueOutAdditions_iff : NoOverflow tx.valueOutAdditions ↔ OutputsFit tx := by
  classical
  refine (valueOutTally_guarded.safe_iff (by decide)).trans ?_
  have hlead : valueOutTally.leading tx.vout = tx.leadingOutputs := by
    simp [Tally.leading, leadingOutputs, valueOutTally]
  rw [hlead, OutputsFit]
  exact Iff.of_eq (by simp [Tally.exact, valueOutTally])

theorem checkTransactionAdditions_of (h : OutputsFit tx) :
    NoOverflow tx.checkTransactionAdditions := by
  classical
  rw [checkTransactionAdditions]
  split
  · refine (checkOutputsTally_guarded.safe_iff (by decide)).mpr ?_
    have hlead : checkOutputsTally.leading tx.vout = tx.leadingOutputs := by
      simp only [Tally.leading, leadingOutputs, checkOutputs_before_eq_ok]
      simp [checkOutputsTally]
    rw [hlead]
    simpa [Tally.exact, checkOutputsTally, OutputsFit] using h
  · simp [NoOverflow]

theorem valueIn_before_eq_ok {txin : CTxIn} :
    view.valueInTally.before txin = .ok () ↔ (view.output txin.prevout).isSome = true := by
  change (do let _ ← view.getOutputFor txin; return ()) = _ ↔ _
  simp only [bind_eq_ok, getOutputFor_eq_ok, Option.isSome_iff_exists]
  exact ⟨fun ⟨txout, h, _⟩ ↦ ⟨txout, h⟩, fun ⟨txout, h⟩ ↦ ⟨txout, h, rfl⟩⟩

theorem valueInAdditions_iff : NoOverflow (view.valueInAdditions tx) ↔ InputsFit view tx := by
  classical
  rw [valueInAdditions, InputsFit]
  cases htx : tx.isCoinBase with
  | true => simp [NoOverflow]
  | false =>
      simp only [Bool.false_eq_true, if_false, false_or]
      refine (view.valueInTally.safe_iff_of_after_ok fun _ _ ↦ rfl).trans ?_
      simp only [valueIn_before_eq_ok, Bool.decide_eq_true]
      rfl

/-- The total of a prefix is one of the partial sums. -/
theorem sum_lt_of_partialSumsFit {acc : Int} {vs ws : List Int} (hacc : acc < 2 ^ 63)
    (h : Tally.PartialSumsFit acc vs) (hws : ws <+: vs) : acc + ws.sum < 2 ^ 63 := by
  induction vs generalizing acc ws with
  | nil =>
      rw [List.prefix_nil.mp hws]
      simpa using hacc
  | cons v vs ih =>
      rcases List.prefix_cons_iff.mp hws with rfl | ⟨ws, rfl, hws'⟩
      · simpa using hacc
      · rw [List.sum_cons, ← add_assoc]
        exact ih h.1.2 h.2 hws'

theorem checkInputsAdditions_of (h : InputsFit view tx) :
    NoOverflow (view.checkInputsAdditions mapBlockIndex tx) := by
  classical
  rw [checkInputsAdditions]
  cases htx : tx.isCoinBase with
  | true => simp [NoOverflow]
  | false =>
      cases hin : view.haveInputs tx with
      | false => simp [NoOverflow]
      | true =>
          cases mapBlockIndex view.hashBlock with
          | none => simp [NoOverflow]
          | some nHeight =>
              refine (checkInputsTally_guarded.safe_iff (by decide)).mpr ?_
              rw [InputsFit, htx] at h
              have hfit := h.resolve_left (by simp)
              -- with all inputs available, the partial sums are over all of them
              have hall : view.leadingInputs tx = tx.vin := by
                rw [leadingInputs, List.takeWhile_eq_self_iff]
                intro txin hmem
                exact Option.isSome_iff_exists.mpr ((haveInputs_iff htx).mp hin txin hmem)
              rw [hall] at hfit
              exact sum_lt_of_partialSumsFit (by decide) hfit
                ((List.takeWhile_prefix _).map _)

end

/-- **When the running totals stay in range.**  For a transaction and a view with arbitrary
amounts, the four loops add without overflow exactly when the leading outputs add up to
less than `2 ^ 63` and, unless the transaction is a coinbase, so do the partial sums of
the leading inputs. -/
theorem noOverflow_iff (mapBlockIndex : Uint256 → Option Int) (view : CCoinsView)
    (tx : CTransaction) :
    (NoOverflow tx.checkTransactionAdditions ∧ NoOverflow tx.valueOutAdditions ∧
        NoOverflow (view.valueInAdditions tx) ∧
        NoOverflow (view.checkInputsAdditions mapBlockIndex tx)) ↔
      OutputsFit tx ∧ InputsFit view tx := by
  rw [valueOutAdditions_iff, valueInAdditions_iff]
  constructor
  · rintro ⟨_, hout, hin, _⟩
    exact ⟨hout, hin⟩
  · rintro ⟨hout, hin⟩
    exact ⟨checkTransactionAdditions_of hout, hout, hin, checkInputsAdditions_of hin⟩

/-- Two outputs of `2 ^ 63 - 1` base units, each accepted by `MoneyRange`, overflow the
totals of `CheckTransaction` and `GetValueOut`. -/
theorem noOverflow_fails :
    ¬ ∀ (mapBlockIndex : Uint256 → Option Int) (view : CCoinsView) (tx : CTransaction),
      NoOverflow tx.checkTransactionAdditions ∧ NoOverflow tx.valueOutAdditions ∧
        NoOverflow (view.valueInAdditions tx) ∧
        NoOverflow (view.checkInputsAdditions mapBlockIndex tx) := by
  intro h
  have hall := h (fun _ ↦ none) ⟨∅, 0⟩
    { vin := [⟨⟨1, 0⟩, [], uintMax⟩]
      vout := [⟨Int64.maxValue, []⟩, ⟨Int64.maxValue, []⟩] }
  exact absurd hall.1 (by decide)

end Fedoracoin
