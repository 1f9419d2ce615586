import Fedoracoin.BlockRun
import Fedoracoin.HeaderRules

/-!
# Checks of a header on its own

`CheckProofOfWork` and `CheckBlockHeader`.  A header has two hashes for its proof of work, of
which the main network asks for the second; where the height is not known yet, either will do.

Every failure of `CheckBlock` is the violation of a rule, with a code and a reason
(`violation_of_checkBlock`).
-/

namespace Fedoracoin

/-- `INT_MAX`, for a height that is not known. -/
def intMax : Int := 2147483647

/-- `CheckProofOfWork`; `bnLimit` is `Params().ProofOfWorkLimit()`. -/
def checkHashProofOfWork (bnLimit : CBigNum) (hash : Uint256) (nBits : Nat) : Bool :=
  let bnTarget := CBigNum.setCompact nBits
  if bnTarget ≤ 0 ∨ bnLimit < bnTarget then false
  else decide ((hash.toNat : Int) ≤ bnTarget)

/-- What the checks of a header take from elsewhere. -/
structure PowEnv where
  network : Network := .main
  getPoWHash : CBlockHeader → Uint256
  getPoWHashS : CBlockHeader → Uint256
  /-- `GetAdjustedTime()`. -/
  adjustedTime : Int
  /-- `Checkpoints::GetLastCheckpoint`. -/
  pcheckpoint : Option TargetIndex
  /-- The hash of the tip, 0 if there is none. -/
  hashTip : Uint256

namespace PowEnv

/-- `CBlockHeader::CheckProofOfWork`. -/
def checkProofOfWork (env : PowEnv) (block : CBlockHeader) (nHeight : Int) : Bool :=
  let hash := checkHashProofOfWork bnProofOfWorkLimit (env.getPoWHash block) block.nBits
  let hashS := checkHashProofOfWork bnProofOfWorkLimit (env.getPoWHashS block) block.nBits
  if env.network.testNet then
    if nHeight = intMax then hashS || hash
    else if 10 ≤ nHeight then hash
    else hashS
  else if nHeight = intMax then hashS || hash
  else hashS

/-- `CheckBlockHeader`. -/
def checkBlockHeader (env : PowEnv) (block : CBlockHeader) (nHeight : Int) (fCheckPOW : Bool) :
    Except Failure Unit := do
  failIf (fCheckPOW && !env.checkProofOfWork block nHeight) (.dos 50 rejectInvalid "high-hash")
  failIf (decide (env.adjustedTime + 2 * 60 * 60 < block.nTime))
    (.dos 0 rejectInvalid "time-too-new")
  match env.pcheckpoint with
  | none => .ok ()
  | some pcheckpoint =>
      if block.hashPrevBlock ≠ env.hashTip then
        checkAgainstCheckpoint pcheckpoint ⟨block.nTime, block.nBits⟩
      else .ok ()

end PowEnv

/-! ## Violations -/

/-- The violation of a rule, reported with a code and a reason. -/
def Violation (e : Failure) : Prop :=
  ∃ level chRejectCode strRejectReason corruption,
    e = .dos level chRejectCode strRejectReason corruption ∧ chRejectCode ≠ 0 ∧
      strRejectReason ≠ ""

/-- A check whose failures are violations. -/
def Violates {α : Type} (x : Except Failure α) : Prop := ∀ e, x = .error e → Violation e

namespace Violates

variable {α β : Type} {x : Except Failure α}

theorem ok (a : α) : Violates (.ok a : Except Failure α) := nofun

theorem bind_of_ok {f : α → Except Failure β} (hx : Violates x)
    (hf : ∀ a, x = .ok a → Violates (f a)) : Violates (x >>= f) := by
  intro e he
  cases x with
  | error e' =>
      obtain rfl : e' = e := Except.error.inj he
      exact hx _ rfl
  | ok a => exact hf a rfl e he

theorem bind {f : α → Except Failure β} (hx : Violates x) (hf : ∀ a, Violates (f a)) :
    Violates (x >>= f) :=
  hx.bind_of_ok fun a _ ↦ hf a

theorem failIf_dos {c : Bool} {level : Nat} {chRejectCode : UInt8} {strRejectReason : String}
    {corruption : Bool} (hcode : chRejectCode ≠ 0) (hreason : strRejectReason ≠ "") :
    Violates (failIf c (.dos level chRejectCode strRejectReason corruption)) := by
  intro e he
  rw [failIf] at he
  split at he
  case isTrue =>
    obtain rfl := Except.error.inj he
    exact ⟨level, chRejectCode, strRejectReason, corruption, rfl, hcode, hreason⟩
  case isFalse => cases he

theorem ite {c : Prop} [Decidable c] {y : Except Failure α} (hx : Violates x) (hy : Violates y) :
    Violates (if c then x else y) := by
  split
  · exact hx
  · exact hy

theorem forM {f : β → Except Failure Unit} (l : List β) (hf : ∀ b, Violates (f b)) :
    Violates (l.forM f) := by
  induction l with
  | nil => exact .ok ()
  | cons b l ih => exact (hf b).bind fun _ ↦ ih

theorem tally {t : RunningSum.Tally β Failure} (hbefore : ∀ b, Violates (t.before b))
    (hafter : ∀ b total, Violates (t.after b total)) (acc : Int64) (l : List β) :
    Violates (t.run acc l) := by
  induction l generalizing acc with
  | nil => exact .ok acc
  | cons b l ih =>
      rw [RunningSum.Tally.run]
      cases hb : t.before b with
      | error e' =>
          rintro e he
          obtain rfl : e' = e := Except.error.inj he
          exact hbefore b _ hb
      | ok u =>
          cases ha : t.after b (acc + t.value b) with
          | error e' =>
              rintro e he
              obtain rfl : e' = e := Except.error.inj he
              exact hafter b _ _ ha
          | ok u => exact ih _

end Violates

open CTransaction in
theorem violates_checkTransaction (tx : CTransaction) : Violates (checkTransaction tx) := by
  have hfail (c : Bool) (level : Nat) (strRejectReason : String) (h : strRejectReason ≠ "") :
      Violates (failIf c (.dos level rejectInvalid strRejectReason)) :=
    .failIf_dos (by decide) h
  have hduplicates : ∀ seen vin, Violates (checkDuplicateInputs seen vin) := by
    intro seen vin
    induction vin generalizing seen with
    | nil => exact .ok ()
    | cons txin vin ih => exact (hfail _ _ _ (by decide)).bind fun _ ↦ ih _
  have houtputs : Violates (checkOutputsTally.run 0 tx.vout) := by
    apply Violates.tally
    · exact fun txout ↦ (hfail _ _ _ (by decide)).bind fun _ ↦ hfail _ _ _ (by decide)
    · exact fun txout total ↦ hfail _ _ _ (by decide)
  rw [checkTransaction]
  apply Violates.bind
  · rw [checkShape]
    refine (hfail _ _ _ (by decide)).bind fun _ ↦ (hfail _ _ _ (by decide)).bind fun _ ↦ ?_
    exact hfail _ _ _ (by decide)
  · refine fun _ ↦ houtputs.bind fun _ ↦ (hduplicates _ _).bind fun _ ↦ ?_
    rw [checkKind]
    exact .ite (hfail _ _ _ (by decide)) (hfail _ _ _ (by decide))

theorem PowEnv.violates_checkBlockHeader (env : PowEnv) (block : CBlockHeader) (nHeight : Int)
    (fCheckPOW : Bool) : Violates (env.checkBlockHeader block nHeight fCheckPOW) := by
  rw [checkBlockHeader]
  refine (Violates.failIf_dos (by decide) (by decide)).bind fun _ ↦
    (Violates.failIf_dos (by decide) (by decide)).bind fun _ ↦ ?_
  split
  · exact .ok ()
  · apply Violates.ite
    · rw [checkAgainstCheckpoint]
      exact (Violates.failIf_dos (by decide) (by decide)).bind fun _ ↦
        .failIf_dos (by decide) (by decide)
    · exact .ok ()

/-- `CheckBlock` fails with the violation of a rule only. -/
theorem violation_of_checkBlock {env : BlockEnv} {pow : PowEnv} {block : CBlock} {nHeight : Int}
    {fCheckPOW fCheckMerkleRoot : Bool} (hpow : env.checkBlockHeader = pow.checkBlockHeader) :
    Violates (checkBlock env block nHeight fCheckPOW fCheckMerkleRoot) := by
  have hfail (c : Bool) (strRejectReason : String) (corruption : Bool)
      (h : strRejectReason ≠ "") :
      Violates (failIf c (.dos 100 rejectInvalid strRejectReason corruption)) :=
    .failIf_dos (by decide) h
  rw [checkBlock, hpow]
  refine (pow.violates_checkBlockHeader _ _ _).bind fun _ ↦ ?_
  refine (hfail _ _ _ (by decide)).bind fun _ ↦ (hfail _ _ _ (by decide)).bind fun _ ↦ ?_
  refine (hfail _ _ _ (by decide)).bind fun _ ↦
    (Violates.forM _ violates_checkTransaction).bind fun _ ↦ ?_
  refine (hfail _ _ _ (by decide)).bind fun _ ↦ (hfail _ _ _ (by decide)).bind fun _ ↦ ?_
  exact hfail _ _ _ (by decide)

end Fedoracoin
