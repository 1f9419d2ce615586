import Fedoracoin.BlockTotals
import Mathlib.Data.List.Find

/-!
# Fork warnings

`CheckForkWarningConditions`, `CheckForkWarningConditionsOnNewFork` and `InvalidChainFound`, over
the globals that they share.  Between the calls the active chain may move anywhere.  What
`IsInitialBlockDownload` says is given with each call.  Following a null pointer is
`Failure.assertion`, and ends the run.

`pindexBestForkTip` and `pindexBestForkBase` are set together, but the tip alone is cleared, and an
alert may be given without a tip.  What the two hold comes from the last call that recorded a fork.
-/

namespace Fedoracoin

structure ForkEnv where
  /-- `mapBlockIndex`, with all the blocks of the run. -/
  tree : BlockTree
  nBits : Uint256 → Nat
  /-- `-alertnotify` is not empty. -/
  fAlertNotify : Bool

structure ForkState where
  /-- `chainActive.Tip()`. -/
  tip : Option Uint256 := none
  pindexBestInvalid : Option Uint256 := none
  pindexBestForkTip : Option Uint256 := none
  pindexBestForkBase : Option Uint256 := none
  fLargeWorkForkFound : Bool := false
  fLargeWorkInvalidChainFound : Bool := false
  /-- The block that each alert has named, the last one first. -/
  alerts : List Uint256 := []
deriving DecidableEq

/-- `chainActive.Height()`. -/
def ForkState.height (env : ForkEnv) (s : ForkState) : Int :=
  match s.tip with
  | none => -1
  | some tip => env.tree.nHeight tip

namespace ForkEnv

variable (env : ForkEnv)

def nChainWork (pindex : Uint256) : Uint256 := BitVec.ofNat 256 (env.tree.nChainWork pindex)

/-- `(pindex->GetBlockWork() * n).getuint256()`. -/
def blockWorkTimes (n : Nat) (pindex : Uint256) : Uint256 :=
  BitVec.ofNat 256 (getBlockWork (env.nBits pindex) * n)

/-- `while (plonger && plonger->nHeight > nHeight) plonger = plonger->pprev;` -/
def lower (nHeight : Nat) (plonger : Option Uint256) : Option Uint256 :=
  plonger.bind fun plonger ↦
    (env.tree.lineage plonger).find? fun pindex ↦ env.tree.nHeight pindex ≤ nHeight

/-- The outer loop; the list is what `pfork = pfork->pprev` goes through. -/
def searchFork : List Uint256 → (plonger : Option Uint256) → Option Uint256
  | [], _ => none
  | pfork :: pprevs, plonger =>
      if some pfork = plonger then some pfork
      else
        let plonger := env.lower (env.tree.nHeight pfork) plonger
        if some pfork = plonger then some pfork else searchFork pprevs plonger

end ForkEnv

namespace ForkState

variable (env : ForkEnv) (s : ForkState)

/-- "If our best fork is no longer within 72 blocks [..] of our head, drop it". -/
def dropFork : ForkState :=
  if s.pindexBestForkTip.any fun pindexBestForkTip ↦
      decide (72 ≤ s.height env - env.tree.nHeight pindexBestForkTip) then
    { s with pindexBestForkTip := none }
  else s

/-- There is a fork, or an invalid chain at least 6 blocks longer. -/
def hasLargeWork : Except Failure Bool :=
  if s.pindexBestForkTip.isSome then .ok true
  else
    match s.pindexBestInvalid, s.tip with
    | none, _ => .ok false
    | some _, none => .error .assertion
    | some pindexBestInvalid, some tip =>
        .ok (decide (env.nChainWork tip + env.blockWorkTimes 6 tip <
          env.nChainWork pindexBestInvalid))

/-- The alert, which names the base. -/
def alert : Except Failure ForkState :=
  match s.pindexBestForkBase with
  | none => .error .assertion
  | some pindexBestForkBase => .ok { s with alerts := pindexBestForkBase :: s.alerts }

/-- The line for the log, and the flag. -/
def logWarning : Except Failure ForkState :=
  match s.pindexBestForkTip, s.pindexBestForkBase with
  | some _, none => .error .assertion
  | some _, some _ => .ok { s with fLargeWorkForkFound := true }
  | none, _ => .ok { s with fLargeWorkInvalidChainFound := true }

def checkForkWarningConditions (fInitialBlockDownload : Bool) : Except Failure ForkState :=
  if fInitialBlockDownload then .ok s
  else do
    let s := s.dropFork env
    if ← s.hasLargeWork env then
      let s ← if !s.fLargeWorkForkFound && env.fAlertNotify then s.alert else .ok s
      s.logWarning
    else
      return { s with fLargeWorkForkFound := false, fLargeWorkInvalidChainFound := false }

/-- A fork that goes higher than the one that is kept, of at least 7 blocks and with its tip within
72 blocks of ours. -/
def isLargeFork (pindexNewForkTip pfork : Uint256) : Bool :=
  (s.pindexBestForkTip.all fun pindexBestForkTip ↦
      decide (env.tree.nHeight pindexBestForkTip < env.tree.nHeight pindexNewForkTip)) &&
    decide (env.blockWorkTimes 7 pfork < env.nChainWork pindexNewForkTip - env.nChainWork pfork) &&
    decide (s.height env - env.tree.nHeight pindexNewForkTip < 72)

/-- `CheckForkWarningConditionsOnNewFork`, up to its last line. -/
def considerFork (pindexNewForkTip : Uint256) : ForkState :=
  match env.searchFork (env.tree.lineage pindexNewForkTip) s.tip with
  | none => s
  | some pfork =>
      if s.isLargeFork env pindexNewForkTip pfork then
        { s with pindexBestForkTip := some pindexNewForkTip, pindexBestForkBase := some pfork }
      else s

/-- `InvalidChainFound`, up to its last line. -/
def raiseBestInvalid (pindexNew : Uint256) : ForkState :=
  if s.pindexBestInvalid.all fun pindexBestInvalid ↦
      decide (env.nChainWork pindexBestInvalid < env.nChainWork pindexNew) then
    { s with pindexBestInvalid := some pindexNew }
  else s

end ForkState

/-! ## Calls -/

inductive ForkCall where
  /-- Elsewhere the active chain gets another tip. -/
  | setTip (tip : Option Uint256)
  | checkForkWarningConditions (fInitialBlockDownload : Bool)
  | checkForkWarningConditionsOnNewFork (fInitialBlockDownload : Bool) (pindexNewForkTip : Uint256)
  | invalidChainFound (fInitialBlockDownload : Bool) (pindexNew : Uint256)

namespace ForkState

variable (env : ForkEnv)

/-- How a call enters `CheckForkWarningConditions`.  `InvalidChainFound` looks at the active tip
before. -/
def enter (s : ForkState) : ForkCall → Option (Bool × ForkState)
  | .setTip _ => none
  | .checkForkWarningConditions fInitialBlockDownload => some (fInitialBlockDownload, s)
  | .checkForkWarningConditionsOnNewFork fInitialBlockDownload pindexNewForkTip =>
      some (fInitialBlockDownload, s.considerFork env pindexNewForkTip)
  | .invalidChainFound fInitialBlockDownload pindexNew =>
      if s.tip.isSome then some (fInitialBlockDownload, s.raiseBestInvalid env pindexNew) else none

def step (s : ForkState) (call : ForkCall) : Except Failure ForkState :=
  match call, s.enter env call with
  | .setTip tip, _ => .ok { s with tip := tip }
  | _, none => .error .assertion
  | _, some (fInitialBlockDownload, s) => s.checkForkWarningConditions env fInitialBlockDownload

/-- `CheckForkWarningConditions`, entered in the state `s`, builds the text of an alert. -/
def BuildsAlert (fInitialBlockDownload : Bool) (s : ForkState) : Prop :=
  fInitialBlockDownload = false ∧ (s.dropFork env).hasLargeWork env = .ok true ∧
    s.fLargeWorkForkFound = false ∧ env.fAlertNotify = true

/-- What the alert is about: the best fork, or else the best invalid chain. -/
def reported (s : ForkState) : Option Uint256 :=
  (s.dropFork env).pindexBestForkTip.or s.pindexBestInvalid

/-- The base is there, and lies under the active tip and under what the alert is about. -/
def BaseIsCommon (s : ForkState) : Prop :=
  ∃ base tip fork, s.pindexBestForkBase = some base ∧ s.tip = some tip ∧
    s.reported env = some fork ∧ base ∈ env.tree.lineage tip ∧ base ∈ env.tree.lineage fork

end ForkState

/-- The block is the last common ancestor. -/
def BlockTree.IsLastCommon (tree : BlockTree) (a b : Uint256) (c : Uint256) : Prop :=
  c ∈ tree.lineage a ∧ c ∈ tree.lineage b ∧
    ∀ x, x ∈ tree.lineage a → x ∈ tree.lineage b → x ∈ tree.lineage c

/-- The loop for a new fork ends at the last common ancestor, if there is a common one. -/
def ForkEnv.SearchEnds (env : ForkEnv) (pindexNewForkTip tip : Uint256) : Prop :=
  match env.searchFork (env.tree.lineage pindexNewForkTip) (some tip) with
  | some pfork => env.tree.IsLastCommon pindexNewForkTip tip pfork
  | none => ∀ x ∈ env.tree.lineage pindexNewForkTip, x ∉ env.tree.lineage tip

/-- The first block of the one lineage that the other has as well. -/
def BlockTree.lastCommon (tree : BlockTree) (a b : Uint256) : Option Uint256 :=
  (tree.lineage a).find? fun x ↦ x ∈ tree.lineage b

/-- The fork that a call records and the active tip then, if the new fork passes the tests where it
leaves the active chain. -/
def ForkState.recorded (env : ForkEnv) (s : ForkState) : ForkCall → Option (Uint256 × Uint256)
  | .checkForkWarningConditionsOnNewFork _ pindexNewForkTip => do
      let tip ← s.tip
      let pfork ← env.tree.lastCommon pindexNewForkTip tip
      if s.isLargeFork env pindexNewForkTip pfork then some (pindexNewForkTip, tip) else none
  | _ => none

/-- What the last of the calls that records a fork records. -/
def ForkState.lastRecorded (env : ForkEnv) (s : ForkState) :
    List ForkCall → Option (Uint256 × Uint256)
  | [] => none
  | call :: calls =>
      match s.step env call with
      | .error _ => s.recorded env call
      | .ok s' => (s'.lastRecorded env calls).or (s.recorded env call)

/-- A fork was recorded, and the active chain still has the blocks that it shared with the fork
then.  Where the fork is not kept and the alert is about an invalid chain, that has them too. -/
def ForkState.KeepsForkPoint (env : ForkEnv) (record : Option (Uint256 × Uint256))
    (s : ForkState) : Prop :=
  ∃ fork tipThen tip, record = some (fork, tipThen) ∧ s.tip = some tip ∧
    (∀ x ∈ env.tree.lineage fork, x ∈ env.tree.lineage tipThen → x ∈ env.tree.lineage tip) ∧
    ((s.dropFork env).pindexBestForkTip = none →
      ∃ pindexBestInvalid, s.pindexBestInvalid = some pindexBestInvalid ∧
        ∀ x ∈ env.tree.lineage fork, x ∈ env.tree.lineage tipThen →
          x ∈ env.tree.lineage pindexBestInvalid)

/-- After the first calls of a run from the start another comes up, in the state `s`. -/
def CallReached (env : ForkEnv) (calls done : List ForkCall) (s : ForkState) (call : ForkCall) :
    Prop :=
  ∃ rest, calls = done ++ call :: rest ∧
    Run (fun s call s' ↦ ForkState.step env s call = .ok s') {} done s

/-- No alert is built on a base that is not common, and the searches for forks end well. -/
def ForkWarningsSafe (env : ForkEnv) (calls : List ForkCall) : Prop :=
  ∀ done s call, CallReached env calls done s call →
    (∀ fInitialBlockDownload s', s.enter env call = some (fInitialBlockDownload, s') →
      s'.BuildsAlert env fInitialBlockDownload → s'.BaseIsCommon env) ∧
    ∀ fInitialBlockDownload pindexNewForkTip tip,
      call = .checkForkWarningConditionsOnNewFork fInitialBlockDownload pindexNewForkTip →
      s.tip = some tip → env.SearchEnds pindexNewForkTip tip

/-! ## The search -/

namespace BlockTree

variable (tree : BlockTree)

theorem exists_root (a : Uint256) : ∃ x ∈ tree.lineage a, tree.nHeight x = 0 := by
  induction a using tree.forest.induct with
  | root a ha => exact ⟨a, tree.forest.self_mem_lineage a, tree.forest.height_root ha⟩
  | child a b hab ih =>
      obtain ⟨x, hx, h₀⟩ := ih
      have hlin : tree.lineage a = a :: tree.lineage b := Forest.lineage_parent hab
      exact ⟨x, hlin ▸ List.mem_cons_of_mem _ hx, h₀⟩

variable {tree}

/-- The first block of a kind in a lineage is above all others of the kind. -/
theorem find?_lineage {p : Uint256 → Bool} {a c : Uint256}
    (hfind : (tree.lineage a).find? p = some c) :
    p c = true ∧ c ∈ tree.lineage a ∧ ∀ x ∈ tree.lineage a, p x = true → x ∈ tree.lineage c := by
  obtain ⟨hc, before, after, hsplit, hbefore⟩ := List.find?_eq_some_iff_append.mp hfind
  have hlin : c :: after = tree.lineage c := Forest.lineage_of_append hsplit
  refine ⟨hc, ?_, fun x hx hp ↦ ?_⟩
  · rw [hsplit]
    exact List.mem_append_right _ List.mem_cons_self
  · rw [hsplit] at hx
    rcases List.mem_append.mp hx with hx | hx
    · simpa [hp] using hbefore x hx
    · rwa [← hlin]

theorem isLastCommon_of_lastCommon {a b c : Uint256} (h : tree.lastCommon a b = some c) :
    tree.IsLastCommon a b c := by
  obtain ⟨hcb, hca, hlast⟩ := find?_lineage h
  exact ⟨hca, of_decide_eq_true hcb, fun x hxa hxb ↦ hlast x hxa (decide_eq_true hxb)⟩

end BlockTree

namespace ForkEnv

variable {env : ForkEnv} {a b r : Uint256}

/-- The inner loop ends at the highest ancestor that is low enough. -/
theorem lower_spec (env : ForkEnv) (nHeight : Nat) (b : Uint256) :
    ∃ r, env.lower nHeight (some b) = some r ∧ r ∈ env.tree.lineage b ∧
      env.tree.nHeight r ≤ nHeight ∧
      ∀ x ∈ env.tree.lineage b, env.tree.nHeight x ≤ nHeight → x ∈ env.tree.lineage r := by
  rw [lower, Option.bind_some]
  cases hfind : (env.tree.lineage b).find? fun pindex ↦
      decide (env.tree.nHeight pindex ≤ nHeight) with
  | none =>
      obtain ⟨x, hx, h₀⟩ := env.tree.exists_root b
      exact absurd (decide_eq_true (by omega)) (List.find?_eq_none.mp hfind x hx)
  | some r =>
      obtain ⟨hr, hmem, hhigh⟩ := BlockTree.find?_lineage hfind
      exact ⟨r, rfl, hmem, of_decide_eq_true hr, fun x hx hle ↦ hhigh x hx (decide_eq_true hle)⟩

/-- One round of the outer loop.  It stops at a block that the other lineage has, and lowers the
other block to one with the same ancestors from that height down. -/
theorem searchFork_cons (env : ForkEnv) (a b : Uint256) :
    ∃ r, (∀ pprevs, env.searchFork (a :: pprevs) (some b) =
        if a ∈ env.tree.lineage b then some a else env.searchFork pprevs (some r)) ∧
      ∀ x, env.tree.nHeight x ≤ env.tree.nHeight a →
        (x ∈ env.tree.lineage r ↔ x ∈ env.tree.lineage b) := by
  obtain ⟨r, hr, hmem, hle, hhigh⟩ := env.lower_spec (env.tree.nHeight a) b
  refine ⟨r, fun pprevs ↦ ?_, fun x hx ↦
    ⟨fun hxr ↦ Forest.mem_lineage_trans hxr hmem, fun hxb ↦ hhigh x hxb hx⟩⟩
  rw [searchFork, hr]
  by_cases hab : a = b
  · rw [if_pos (congrArg some hab), if_pos (hab ▸ env.tree.forest.self_mem_lineage a)]
  · rw [if_neg (mt Option.some.inj hab)]
    dsimp only
    by_cases har : a = r
    · rw [if_pos (congrArg some har), if_pos (har ▸ hmem)]
    · have hnot : a ∉ env.tree.lineage b := by
        intro ha
        have hge : env.tree.nHeight a ≤ env.tree.nHeight r :=
          Forest.height_le_of_mem (hhigh a ha le_rfl)
        exact har (Forest.eq_of_height_eq ha hmem (le_antisymm hge hle))
      rw [if_neg (mt Option.some.inj har), if_neg hnot]

/-- **The search ends at the last common ancestor.** -/
theorem searchFork_eq (env : ForkEnv) (a b : Uint256) :
    env.searchFork (env.tree.lineage a) (some b) = env.tree.lastCommon a b := by
  rw [BlockTree.lastCommon]
  induction a using env.tree.forest.induct generalizing b with
  | root a ha =>
      obtain ⟨r, hcons, -⟩ := env.searchFork_cons a b
      have hlin : env.tree.lineage a = [a] := Forest.lineage_root ha
      rw [hlin, hcons, searchFork, List.find?_cons]
      by_cases hab : a ∈ env.tree.lineage b
      · rw [if_pos hab, decide_eq_true hab]
      · rw [if_neg hab, decide_eq_false hab]
        rfl
  | child a p hap ih =>
      obtain ⟨r, hcons, hsame⟩ := env.searchFork_cons a b
      have hlin : env.tree.lineage a = a :: env.tree.lineage p := Forest.lineage_parent hap
      rw [hlin, hcons, List.find?_cons]
      by_cases hab : a ∈ env.tree.lineage b
      · rw [if_pos hab, decide_eq_true hab]
      · rw [if_neg hab, decide_eq_false hab, ih r]
        refine List.find?_congr fun x hx ↦ ?_
        have hxa : x ∈ env.tree.lineage a := hlin ▸ List.mem_cons_of_mem _ hx
        exact decide_eq_decide.mpr (hsame x (Forest.height_le_of_mem hxa))

theorem searchEnds (env : ForkEnv) (a b : Uint256) : env.SearchEnds a b := by
  rw [SearchEnds, searchFork_eq]
  cases hlast : env.tree.lastCommon a b with
  | none => exact fun x hx hxb ↦ List.find?_eq_none.mp hlast x hx (decide_eq_true hxb)
  | some c => exact BlockTree.isLastCommon_of_lastCommon hlast

/-- Without an active chain nothing is found. -/
theorem searchFork_none (env : ForkEnv) (l : List Uint256) : env.searchFork l none = none := by
  induction l with
  | nil => rfl
  | cons x l ih =>
      rw [searchFork, if_neg nofun]
      exact (if_neg nofun).trans ih

end ForkEnv

/-! ## What every call keeps -/

namespace ForkState

variable {env : ForkEnv} {s s' : ForkState} {call : ForkCall} {calls : List ForkCall}
  {record : Option (Uint256 × Uint256)} {fInitialBlockDownload : Bool}

/-- The base is where the fork of the record left the active chain, and no other fork is kept. -/
structure Remembers (env : ForkEnv) (record : Option (Uint256 × Uint256)) (s : ForkState) :
    Prop where
  base : Option.Rel (fun (fork, tipThen) base ↦ env.tree.IsLastCommon fork tipThen base) record
    s.pindexBestForkBase
  tip : ∀ fork, s.pindexBestForkTip = some fork → record.map Prod.fst = some fork

/-- The base stays, and the fork stays or is dropped. -/
def SameBase (s s' : ForkState) : Prop :=
  s'.pindexBestForkBase = s.pindexBestForkBase ∧
    (s'.pindexBestForkTip = none ∨ s'.pindexBestForkTip = s.pindexBestForkTip)

theorem SameBase.trans {s₁ s₂ s₃ : ForkState} (h : SameBase s₁ s₂) (h' : SameBase s₂ s₃) :
    SameBase s₁ s₃ := by
  refine ⟨h'.1.trans h.1, ?_⟩
  rcases h'.2 with hnone | hsame
  · exact Or.inl hnone
  · rw [hsame]
    exact h.2

theorem Remembers.sameBase (h : s.Remembers env record) (hsame : SameBase s s') :
    s'.Remembers env record := by
  refine ⟨hsame.1 ▸ h.base, fun fork hfork ↦ ?_⟩
  rcases hsame.2 with hnone | htip
  · exact absurd (hnone.symm.trans hfork) nofun
  · exact h.tip fork (htip ▸ hfork)

theorem dropFork_sameBase (env : ForkEnv) (s : ForkState) : SameBase s (s.dropFork env) := by
  rw [dropFork]
  split
  case isTrue => exact ⟨rfl, Or.inl rfl⟩
  case isFalse => exact ⟨rfl, Or.inr rfl⟩

theorem logWarning_sameBase (h : s.logWarning = .ok s') : SameBase s s' := by
  rw [logWarning] at h
  split at h
  · exact absurd h nofun
  · obtain rfl := Except.ok.inj h
    exact ⟨rfl, Or.inr rfl⟩
  · obtain rfl := Except.ok.inj h
    exact ⟨rfl, Or.inr rfl⟩

theorem alert_sameBase (h : s.alert = .ok s') : SameBase s s' := by
  rw [alert] at h
  split at h
  · exact absurd h nofun
  · obtain rfl := Except.ok.inj h
    exact ⟨rfl, Or.inr rfl⟩

/-- The check leaves the base, and at most drops the fork. -/
theorem check_sameBase (hrun : s.checkForkWarningConditions env fInitialBlockDownload = .ok s') :
    SameBase s s' := by
  rw [checkForkWarningConditions] at hrun
  split at hrun
  case isTrue =>
    obtain rfl := Except.ok.inj hrun
    exact ⟨rfl, Or.inr rfl⟩
  case isFalse =>
    have hdrop := dropFork_sameBase env s
    dsimp only at hrun
    generalize s.dropFork env = s₁ at hrun hdrop
    obtain ⟨fLargeWork, -, hrun⟩ := bind_eq_ok.mp hrun
    cases fLargeWork with
    | false =>
        obtain rfl := Except.ok.inj hrun
        exact hdrop
    | true =>
        rw [if_pos rfl] at hrun
        split at hrun
        case isTrue =>
          obtain ⟨s₂, halert, hrun⟩ := bind_eq_ok.mp hrun
          exact (hdrop.trans (alert_sameBase halert)).trans (logWarning_sameBase hrun)
        case isFalse =>
          obtain ⟨s₂, hs₂, hrun⟩ := bind_eq_ok.mp hrun
          obtain rfl := Except.ok.inj hs₂
          exact hdrop.trans (logWarning_sameBase hrun)

/-- A new fork is kept with its base if the call records it. -/
theorem considerFork_cases (env : ForkEnv) (s : ForkState) (f : Bool) (fork : Uint256) :
    (s.recorded env (.checkForkWarningConditionsOnNewFork f fork) = none ∧
      s.considerFork env fork = s) ∨
    ∃ tip pfork,
      s.recorded env (.checkForkWarningConditionsOnNewFork f fork) = some (fork, tip) ∧
      env.tree.IsLastCommon fork tip pfork ∧
      s.considerFork env fork =
        { s with pindexBestForkTip := some fork, pindexBestForkBase := some pfork } := by
  rw [recorded, considerFork]
  cases htip : s.tip with
  | none =>
      rw [ForkEnv.searchFork_none]
      exact Or.inl ⟨rfl, rfl⟩
  | some tip =>
      rw [ForkEnv.searchFork_eq, Option.bind_eq_bind, Option.bind_some]
      cases hfork : env.tree.lastCommon fork tip with
      | none => exact Or.inl ⟨rfl, rfl⟩
      | some pfork =>
          rw [Option.bind_some]
          dsimp only
          by_cases hlarge : s.isLargeFork env fork pfork = true
          · rw [if_pos hlarge, if_pos hlarge]
            exact Or.inr ⟨tip, pfork, rfl, BlockTree.isLastCommon_of_lastCommon hfork, rfl⟩
          · rw [if_neg hlarge, if_neg hlarge]
            exact Or.inl ⟨rfl, rfl⟩

theorem Remembers.enter (h : s.Remembers env record)
    (henter : s.enter env call = some (fInitialBlockDownload, s')) :
    s'.Remembers env ((s.recorded env call).or record) := by
  cases call with
  | setTip tip => exact absurd henter nofun
  | checkForkWarningConditions f =>
      obtain ⟨-, rfl⟩ := Prod.mk.inj (Option.some.inj henter)
      exact h
  | checkForkWarningConditionsOnNewFork f pindexNewForkTip =>
      obtain ⟨-, rfl⟩ := Prod.mk.inj (Option.some.inj henter)
      rcases considerFork_cases env s f pindexNewForkTip with
        ⟨hnone, hs⟩ | ⟨tip, pfork, hrecord, hlast, hs⟩
      · rw [hnone, hs]
        exact h
      · rw [hrecord, hs]
        exact ⟨.some hlast, fun fork hfork ↦ hfork⟩
  | invalidChainFound f pindexNew =>
      rw [ForkState.enter] at henter
      split at henter
      case isTrue =>
        obtain ⟨-, rfl⟩ := Prod.mk.inj (Option.some.inj henter)
        rw [raiseBestInvalid]
        split
        case isTrue => exact h.sameBase ⟨rfl, Or.inr rfl⟩
        case isFalse => exact h
      case isFalse => exact absurd henter nofun

theorem Remembers.step (h : s.Remembers env record) (hstep : s.step env call = .ok s') :
    s'.Remembers env ((s.recorded env call).or record) := by
  unfold ForkState.step at hstep
  split at hstep
  · obtain rfl := Except.ok.inj hstep
    exact h.sameBase ⟨rfl, Or.inr rfl⟩
  · exact absurd hstep nofun
  · rename_i henter
    exact (h.enter henter).sameBase (check_sameBase hstep)

/-- **The base and the fork in every state of a run are those of the last record.** -/
theorem Remembers.run (h : s.Remembers env record)
    (hrun : Run (fun s call s' ↦ ForkState.step env s call = .ok s') s calls s') :
    s'.Remembers env ((s.lastRecorded env calls).or record) := by
  induction hrun generalizing record with
  | nil s => exact h
  | cons hstep hrun ih =>
      have hrest := ih (h.step hstep)
      rw [lastRecorded, hstep]
      rwa [← Option.or_assoc] at hrest

theorem lastRecorded_append
    (hrun : Run (fun s call s' ↦ ForkState.step env s call = .ok s') s calls s') :
    s.lastRecorded env (calls ++ [call]) =
      (s'.recorded env call).or (s.lastRecorded env calls) := by
  induction hrun with
  | nil s =>
      rw [List.nil_append, lastRecorded, lastRecorded, Option.or_none]
      cases s.step env call with
      | error e => rfl
      | ok s' => rfl
  | cons hstep hrun ih =>
      rw [List.cons_append, lastRecorded, lastRecorded, hstep]
      dsimp only
      rw [ih, Option.or_assoc]

theorem Remembers.baseIsCommon_iff (h : s.Remembers env record) :
    s.BaseIsCommon env ↔ s.KeepsForkPoint env record := by
  have hdrop := h.sameBase (dropFork_sameBase env s)
  have hbase := h.base
  constructor
  · rintro ⟨base, tip, fork, hb, htip, hreported, hactive, hunder⟩
    rw [hb] at hbase
    cases hbase with
    | @some r _ hcommon =>
      obtain ⟨-, -, hlast⟩ := hcommon
      refine ⟨r.1, r.2, tip, rfl, htip,
        fun x hx hx' ↦ Forest.mem_lineage_trans (hlast x hx hx') hactive, fun hnone ↦ ?_⟩
      rw [reported, hnone, Option.none_or] at hreported
      exact ⟨fork, hreported, fun x hx hx' ↦ Forest.mem_lineage_trans (hlast x hx hx') hunder⟩
  · rintro ⟨fork, tipThen, tip, rfl, htip, hactive, hinvalid⟩
    generalize hb : s.pindexBestForkBase = pindexBestForkBase at hbase
    cases hbase with
    | @some _ base hcommon =>
      obtain ⟨hfork, hthen, -⟩ := hcommon
      have hin := hactive base hfork hthen
      cases hkept : (s.dropFork env).pindexBestForkTip with
      | none =>
          obtain ⟨pindexBestInvalid, hbest, hunder⟩ := hinvalid hkept
          exact ⟨base, tip, pindexBestInvalid, hb, htip, by rw [reported, hkept, hbest]; rfl, hin,
            hunder base hfork hthen⟩
      | some kept =>
          obtain rfl : fork = kept := Option.some.inj (hdrop.tip kept hkept)
          exact ⟨base, tip, fork, hb, htip, by rw [reported, hkept]; rfl, hin, hfork⟩

end ForkState

/-- **Fork warnings are safe in a run exactly if every alert finds the fork point of the last
recorded fork in the active chain**, and, where it is about an invalid chain, in that chain. -/
theorem forkWarningsSafe_iff (env : ForkEnv) (calls : List ForkCall) :
    ForkWarningsSafe env calls ↔
      ∀ done s call, CallReached env calls done s call → ∀ fInitialBlockDownload s',
        s.enter env call = some (fInitialBlockDownload, s') →
        s'.BuildsAlert env fInitialBlockDownload →
        s'.KeepsForkPoint env (ForkState.lastRecorded env {} (done ++ [call])) := by
  have hiff : ∀ {done s call}, CallReached env calls done s call → ∀ {fInitialBlockDownload s'},
      s.enter env call = some (fInitialBlockDownload, s') →
      (s'.BaseIsCommon env ↔
        s'.KeepsForkPoint env (ForkState.lastRecorded env {} (done ++ [call]))) := by
    rintro done s call ⟨rest, -, hrun⟩ f s' henter
    have hstart : ForkState.Remembers env none {} := ⟨.none, nofun⟩
    have hs := hstart.run hrun
    rw [Option.or_none] at hs
    rw [ForkState.lastRecorded_append hrun]
    exact (hs.enter henter).baseIsCommon_iff
  constructor
  · intro h done s call hreach f s' henter halert
    exact (hiff hreach henter).mp ((h done s call hreach).1 f s' henter halert)
  · intro h done s call hreach
    refine ⟨fun f s' henter halert ↦ ?_, fun f pindexNewForkTip tip _ _ ↦ env.searchEnds _ _⟩
    exact (hiff hreach henter).mpr (h done s call hreach f s' henter halert)

theorem one_not_mem_empty : 1 ∉ BlockTree.empty.entries := by decide

theorem two_not_mem_insert :
    2 ∉ (BlockTree.empty.insert 1 0 2 0 one_not_mem_empty).entries := by decide

/-- A genesis block, and a block with much work on it. -/
def sampleForkEnv : ForkEnv where
  tree := (BlockTree.empty.insert 1 0 2 0 one_not_mem_empty).insert 2 1 100 1 two_not_mem_insert
  nBits _ := 0x207fffff
  fAlertNotify := true

/-- The second block is found to be invalid while the active chain is at the first one. -/
def sampleForkCalls : List ForkCall := [.setTip (some 1), .invalidChainFound false 2]

/-- There is no fork, so there is no base for the alert to name. -/
theorem sampleForkCalls_unsafe :
    ForkState.step sampleForkEnv { tip := some 1 } (.invalidChainFound false 2) =
        .error .assertion ∧
      ¬ ForkWarningsSafe sampleForkEnv sampleForkCalls := by
  refine ⟨by decide, fun h ↦ ?_⟩
  have hreach : CallReached sampleForkEnv sampleForkCalls [.setTip (some 1)] { tip := some 1 }
      (.invalidChainFound false 2) :=
    ⟨[], rfl, .cons rfl (.nil _)⟩
  have halert : ForkState.BuildsAlert sampleForkEnv false
      (ForkState.raiseBestInvalid sampleForkEnv { tip := some 1 } 2) :=
    ⟨rfl, by decide, rfl, rfl⟩
  obtain ⟨base, tip, fork, hbase, -⟩ := (h _ _ _ hreach).1 false _ rfl halert
  have hnone : (ForkState.raiseBestInvalid sampleForkEnv { tip := some 1 } 2).pindexBestForkBase =
      none := by decide
  rw [hnone] at hbase
  exact absurd hbase nofun

end Fedoracoin
