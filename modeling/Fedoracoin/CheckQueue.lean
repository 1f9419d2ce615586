import Fedoracoin.Lib.Run
import Mathlib.Algebra.BigOperators.Group.Multiset.Basic
import Mathlib.Algebra.Order.BigOperators.Group.Multiset
import Mathlib.Algebra.Order.Group.Nat
import Mathlib.Tactic.Abel

/-!
# The queue of the script checks

`CCheckQueue` and `CCheckQueueControl`: a master adds checks, workers take them in batches, and
`Wait` makes the master one of the workers until all are done.  Each critical section is one step,
and so is each check, which is made outside of them; a thread that waits may wake at any time, so
that notifications say nothing.  Which thread moves is a choice, and so is what the master adds.

The counters count threads, and objects in memory: they are numbers that do not wrap.

Every thread that has started is idle or holds checks that are counted in `nTodo`, and every check
that has failed has left a trace in `fAllOk` or in the batch that it was in (`Inv`).  So `Wait`
returns what all the checks say, when none of them is left (`Sound.of_run`), and it can always
return (`Ok.exists_return`).
-/

namespace Fedoracoin

structure CCheckQueue (T : Type) where
  /-- The back first. -/
  queue : List T := []
  nIdle : Int := 0
  nTotal : Int := 0
  fAllOk : Bool := true
  nTodo : Nat := 0
  /-- Nothing sets it. -/
  fQuit : Bool := false
  nBatchSize : Nat
deriving DecidableEq

/-- How a critical section of `Loop` ends. -/
inductive SectionEnd (T : Type) where
  | ret (fRet : Bool)
  | wait
  /-- A batch, with `fOk`. -/
  | fetch (vChecks : List T) (fOk : Bool)
  /-- `queue.back()` of an empty queue, or a division by zero. -/
  | undefined

namespace CCheckQueue

variable {T : Type}

def add (q : CCheckQueue T) (vChecks : List T) : CCheckQueue T :=
  { q with queue := vChecks.reverse ++ q.queue, nTodo := q.nTodo + vChecks.length }

/-- "First do the clean-up of the previous loop run"; there was none if `nNow` is 0. -/
def cleanUp (q : CCheckQueue T) (nNow : Nat) (fOk : Bool) : CCheckQueue T :=
  if nNow ≠ 0 then { q with fAllOk := q.fAllOk && fOk, nTodo := q.nTodo - nNow }
  else { q with nTotal := q.nTotal + 1 }

/-- "Decide how many work units to process now." -/
def nNow (q : CCheckQueue T) : Nat :=
  max 1 (min q.nBatchSize (q.queue.length / (q.nTotal + q.nIdle + 1).toNat))

/-- The critical section of `Loop` from the `while` on. -/
def critsect (q : CCheckQueue T) (fMaster : Bool) : CCheckQueue T × SectionEnd T :=
  if q.queue.isEmpty then
    if (fMaster || q.fQuit) && q.nTodo == 0 then
      ({ q with nTotal := q.nTotal - 1, fAllOk := if fMaster then true else q.fAllOk },
        .ret q.fAllOk)
    else ({ q with nIdle := q.nIdle + 1 }, .wait)
  else if q.nTotal + q.nIdle + 1 = 0 ∨ q.queue.length < q.nNow then (q, .undefined)
  else ({ q with queue := q.queue.drop q.nNow }, .fetch (q.queue.take q.nNow) q.fAllOk)

end CCheckQueue

/-! ## Threads -/

/-- Where a thread is in `Loop`. -/
inductive Phase (T : Type) where
  /-- Before the first critical section. -/
  | outside
  | waiting
  /-- With what is left of a batch of `nNow` checks. -/
  | working (nNow : Nat) (vChecks : List T) (fOk : Bool)
  | returned
  | undefined
deriving DecidableEq

/-- A step of a thread: what it leaves, what `Loop` returned, and the checks that were made. -/
structure Advance (T : Type) where
  q : CCheckQueue T
  phase : Phase T
  ret : Option Bool := none
  evaluated : List T := []

section

variable {T : Type}

/-- The thread goes on to the end of a critical section. -/
def enter (q : CCheckQueue T) (fMaster : Bool) : Advance T :=
  match q.critsect fMaster with
  | (q, .ret fRet) => { q := q, phase := .returned, ret := some fRet }
  | (q, .wait) => { q := q, phase := .waiting }
  | (q, .fetch vChecks fOk) => { q := q, phase := .working vChecks.length vChecks fOk }
  | (q, .undefined) => { q := q, phase := .undefined }

/-- The four ends of a critical section. -/
theorem enter_cases (q : CCheckQueue T) (fMaster : Bool) :
    (q.queue = [] ∧ ((fMaster || q.fQuit) && q.nTodo == 0) = true ∧ enter q fMaster =
        { q := { q with nTotal := q.nTotal - 1, fAllOk := if fMaster then true else q.fAllOk }
          phase := .returned
          ret := some q.fAllOk }) ∨
      (q.queue = [] ∧ ¬ ((fMaster || q.fQuit) && q.nTodo == 0) = true ∧
        enter q fMaster = { q := { q with nIdle := q.nIdle + 1 }, phase := .waiting }) ∨
      (q.queue ≠ [] ∧ (q.nTotal + q.nIdle + 1 = 0 ∨ q.queue.length < q.nNow) ∧
        enter q fMaster = { q := q, phase := .undefined }) ∨
      (q.queue ≠ [] ∧ q.nNow ≤ q.queue.length ∧ enter q fMaster =
        { q := { q with queue := q.queue.drop q.nNow }
          phase := .working (q.queue.take q.nNow).length (q.queue.take q.nNow) q.fAllOk }) := by
  rw [enter, CCheckQueue.critsect]
  by_cases hqueue : q.queue = []
  case pos =>
    rw [if_pos (by simpa using hqueue)]
    by_cases hret : ((fMaster || q.fQuit) && q.nTodo == 0) = true
    · rw [if_pos hret]
      exact .inl ⟨hqueue, hret, rfl⟩
    · rw [if_neg hret]
      exact .inr (.inl ⟨hqueue, hret, rfl⟩)
  case neg =>
    rw [if_neg (by simpa using hqueue)]
    by_cases hundefined : q.nTotal + q.nIdle + 1 = 0 ∨ q.queue.length < q.nNow
    · rw [if_pos hundefined]
      exact .inr (.inr (.inl ⟨hqueue, hundefined, rfl⟩))
    · rw [if_neg hundefined]
      exact .inr (.inr (.inr ⟨hqueue, not_lt.mp fun hlt ↦ hundefined (.inr hlt), rfl⟩))

/-- The next step of a thread in `Loop`; `eval` is `operator()` of the checks. -/
def advance (eval : T → Bool) (fMaster : Bool) (q : CCheckQueue T) :
    Phase T → Option (Advance T)
  | .outside => some (enter (q.cleanUp 0 true) fMaster)
  | .working nNow [] fOk => some (enter (q.cleanUp nNow fOk) fMaster)
  | .working nNow (check :: vChecks) fOk =>
      if fOk then
        some { q := q, phase := .working nNow vChecks (eval check), evaluated := [check] }
      else some { q := q, phase := .working nNow vChecks fOk }
  | .waiting => some (enter { q with nIdle := q.nIdle - 1 } fMaster)
  | .returned => none
  | .undefined => none

end

/-- Where the master is. -/
inductive Master (T : Type) where
  /-- Without a `CCheckQueueControl` that is not done. -/
  | idle
  | adding
  /-- In `Wait`, which the destructor calls if it has not been called. -/
  | loop (phase : Phase T)
  /-- After an `assert` of the constructor failed. -/
  | aborted
deriving DecidableEq

/-- The queue, its threads, and what happened since `Wait` returned the last time. -/
structure QueueSystem (T : Type) where
  q : CCheckQueue T
  workers : List (Phase T)
  master : Master T := .idle
  added : List T := []
  evaluated : List T := []

/-- What happens next. -/
inductive Choice (T : Type) where
  | construct
  | add (vChecks : List T)
  | master
  | worker (i : Nat)

namespace QueueSystem

variable {T : Type}

/-- A new queue, with threads that have not started. -/
def start (nBatchSize nWorkers : Nat) : QueueSystem T where
  q := { nBatchSize := nBatchSize }
  workers := List.replicate nWorkers .outside

/-- "Passed queue is supposed to be unused." -/
def Unused (q : CCheckQueue T) : Prop := q.nTotal = q.nIdle ∧ q.nTodo = 0 ∧ q.fAllOk = true

instance (q : CCheckQueue T) : Decidable (Unused q) := inferInstanceAs (Decidable (_ ∧ _ ∧ _))

/-- After a step of the master in `Loop`. -/
def masterMoved (s : QueueSystem T) (a : Advance T) : QueueSystem T × Option Bool :=
  match a.ret with
  | some fRet => ({ q := a.q, workers := s.workers }, some fRet)
  | none =>
      ({ s with q := a.q, master := .loop a.phase, evaluated := s.evaluated ++ a.evaluated }, none)

def workerMoved (s : QueueSystem T) (i : Nat) (a : Advance T) : QueueSystem T :=
  { s with
    q := a.q
    workers := s.workers.set i a.phase
    evaluated := s.evaluated ++ a.evaluated }

/-- A step, with what `Wait` returned. -/
def step (eval : T → Bool) (s : QueueSystem T) : Choice T → Option (QueueSystem T × Option Bool)
  | .construct =>
      match s.master with
      | .idle => some ({ s with master := if Unused s.q then .adding else .aborted }, none)
      | _ => none
  | .add vChecks =>
      match s.master with
      | .adding => some ({ s with q := s.q.add vChecks, added := s.added ++ vChecks }, none)
      | _ => none
  | .master =>
      match s.master with
      | .adding => (advance eval true s.q .outside).map s.masterMoved
      | .loop phase => (advance eval true s.q phase).map s.masterMoved
      | _ => none
  | .worker i => do
      let a ← advance eval false s.q (← s.workers[i]?)
      return (s.workerMoved i a, none)

/-- The steps, labelled by what happens and by what `Wait` returned. -/
def Step (eval : T → Bool) (s : QueueSystem T) (l : Choice T × Option Bool) (s' : QueueSystem T) :
    Prop :=
  s.step eval l.1 = some (s', l.2)

end QueueSystem

/-! ## What a thread stands for -/

namespace Phase

variable {T : Type}

/-- Its part of `nTotal`. -/
def total : Phase T → Int
  | .waiting => 1
  | .working _ _ _ => 1
  | _ => 0

theorem total_nonneg (phase : Phase T) : 0 ≤ phase.total := by
  cases phase <;> simp only [total, le_refl, zero_le_one]

/-- Its part of `nIdle`. -/
def idle : Phase T → Int
  | .waiting => 1
  | _ => 0

theorem idle_nonneg (phase : Phase T) : 0 ≤ phase.idle := by
  cases phase <;> simp only [idle, le_refl, zero_le_one]

/-- Its part of `nTodo`. -/
def held : Phase T → Nat
  | .working nNow _ _ => nNow
  | _ => 0

/-- The checks that it has not made. -/
def pending : Phase T → Multiset T
  | .working _ vChecks _ => vChecks
  | _ => 0

/-- No check of its batch has failed or will fail. -/
def Good (eval : T → Bool) : Phase T → Prop
  | .working _ vChecks fOk => fOk = true ∧ ∀ check ∈ vChecks, eval check = true
  | _ => True

/-- It has not returned, and it holds a check if it holds a batch. -/
def Running : Phase T → Prop
  | .working nNow _ _ => nNow ≠ 0
  | .returned => False
  | .undefined => False
  | _ => True

end Phase

theorem CCheckQueue.nNow_pos {T : Type} (q : CCheckQueue T) : 0 < q.nNow :=
  lt_max_of_lt_left Nat.one_pos

theorem CCheckQueue.nNow_le {T : Type} {q : CCheckQueue T} (h : q.queue ≠ []) :
    q.nNow ≤ q.queue.length :=
  max_le (List.length_pos_iff.mpr h) ((min_le_right _ _).trans (Nat.div_le_self _ _))

/-! ## The invariant -/

/-- What the queue and its threads have to do with the checks that were added, while further `k`
threads are in a critical section. -/
structure Inv {T : Type} (eval : T → Bool) (k : Int) (q : CCheckQueue T)
    (threads : Multiset (Phase T)) (added evaluated : List T) : Prop where
  nTotal : q.nTotal = (threads.map Phase.total).sum + k
  nIdle : q.nIdle = (threads.map Phase.idle).sum
  nTodo : q.nTodo = q.queue.length + (threads.map Phase.held).sum
  fQuit : q.fQuit = false
  running : ∀ phase ∈ threads, phase.Running
  /-- No check was made twice. -/
  counted : (evaluated : Multiset T) + q.queue + (threads.map Phase.pending).sum ≤ added
  /-- A check that fails is still to be made, or has left its trace. -/
  verdict : (q.fAllOk = true ∧ (∀ check ∈ q.queue, eval check = true) ∧
    ∀ phase ∈ threads, phase.Good eval) ↔ ∀ check ∈ added, eval check = true

namespace Inv

variable {T : Type} {eval : T → Bool} {k : Int} {q : CCheckQueue T}
  {threads : Multiset (Phase T)} {added evaluated : List T} {nNow : Nat} {vChecks : List T}
  {fOk : Bool} {check : T} {phase : Phase T}

theorem add (h : Inv eval k q threads added evaluated) (vChecks : List T) :
    Inv eval k (q.add vChecks) threads (added ++ vChecks) evaluated where
  __ := h
  nTodo := by
    change q.nTodo + vChecks.length = (vChecks.reverse ++ q.queue).length + _
    rw [h.nTodo, List.length_append, List.length_reverse]
    omega
  counted := by
    change (evaluated : Multiset T) + ↑(vChecks.reverse ++ q.queue) + _ ≤ ↑(added ++ vChecks)
    rw [← Multiset.coe_add, ← Multiset.coe_add, Multiset.coe_reverse]
    have hcounted := h.counted
    calc (evaluated : Multiset T) + (↑vChecks + ↑q.queue) + (threads.map Phase.pending).sum
        = (↑evaluated + ↑q.queue + (threads.map Phase.pending).sum) + ↑vChecks := by
          abel
      _ ≤ ↑added + ↑vChecks := add_le_add_left hcounted _
  verdict := by
    change (q.fAllOk = true ∧ (∀ check ∈ vChecks.reverse ++ q.queue, eval check = true) ∧ _) ↔ _
    simp only [List.mem_append, List.mem_reverse, or_imp, forall_and, ← h.verdict]
    tauto

theorem cons_iff :
    Inv eval k q (phase ::ₘ threads) added evaluated ↔
      q.nTotal = phase.total + (threads.map Phase.total).sum + k ∧
        q.nIdle = phase.idle + (threads.map Phase.idle).sum ∧
        q.nTodo = q.queue.length + (phase.held + (threads.map Phase.held).sum) ∧
        q.fQuit = false ∧ (phase.Running ∧ ∀ phase ∈ threads, phase.Running) ∧
        (evaluated : Multiset T) + q.queue +
          (phase.pending + (threads.map Phase.pending).sum) ≤ added ∧
        ((q.fAllOk = true ∧ (∀ check ∈ q.queue, eval check = true) ∧
          phase.Good eval ∧ ∀ phase ∈ threads, phase.Good eval) ↔
          ∀ check ∈ added, eval check = true) := by
  constructor
  · rintro ⟨hnTotal, hnIdle, hnTodo, hfQuit, hrunning, hcounted, hverdict⟩
    rw [Multiset.map_cons, Multiset.sum_cons] at hnTotal hnIdle hnTodo hcounted
    rw [Multiset.forall_mem_cons] at hrunning hverdict
    exact ⟨hnTotal, hnIdle, hnTodo, hfQuit, hrunning, hcounted, hverdict⟩
  · rintro ⟨hnTotal, hnIdle, hnTodo, hfQuit, hrunning, hcounted, hverdict⟩
    constructor
    case nTotal => rwa [Multiset.map_cons, Multiset.sum_cons]
    case nIdle => rwa [Multiset.map_cons, Multiset.sum_cons]
    case nTodo => rwa [Multiset.map_cons, Multiset.sum_cons]
    case fQuit => exact hfQuit
    case running => rwa [Multiset.forall_mem_cons]
    case counted => rwa [Multiset.map_cons, Multiset.sum_cons]
    case verdict => rwa [Multiset.forall_mem_cons]

/-- A thread that has not started stands for nothing. -/
theorem cons_outside_iff :
    Inv eval k q (.outside ::ₘ threads) added evaluated ↔
      Inv eval k q threads added evaluated := by
  constructor
  · intro h
    obtain ⟨hnTotal, hnIdle, hnTodo, hfQuit, hrunning, hcounted, hverdict⟩ := cons_iff.mp h
    simp only [Phase.total, Phase.idle, Phase.held, Phase.pending, Phase.Good, zero_add,
      true_and] at *
    exact ⟨hnTotal, hnIdle, hnTodo, hfQuit, hrunning.2, hcounted, hverdict⟩
  · rintro ⟨hnTotal, hnIdle, hnTodo, hfQuit, hrunning, hcounted, hverdict⟩
    refine cons_iff.mpr ?_
    simp only [Phase.total, Phase.idle, Phase.held, Phase.pending, Phase.Good, zero_add,
      true_and]
    exact ⟨hnTotal, hnIdle, hnTodo, hfQuit, ⟨trivial, hrunning⟩, hcounted, hverdict⟩

/-- A thread enters its first critical section. -/
theorem first (h : Inv eval k q (.outside ::ₘ threads) added evaluated) :
    Inv eval (k + 1) (q.cleanUp 0 true) threads added evaluated := by
  obtain ⟨hnTotal, hnIdle, hnTodo, hfQuit, hrunning, hcounted, hverdict⟩ := cons_outside_iff.mp h
  refine ⟨?_, hnIdle, hnTodo, hfQuit, hrunning, hcounted, hverdict⟩
  change q.nTotal + 1 = _
  rw [hnTotal, add_assoc]

/-- A thread wakes. -/
theorem wake (h : Inv eval k q (.waiting ::ₘ threads) added evaluated) :
    Inv eval (k + 1) { q with nIdle := q.nIdle - 1 } threads added evaluated := by
  obtain ⟨hnTotal, hnIdle, hnTodo, hfQuit, hrunning, hcounted, hverdict⟩ := cons_iff.mp h
  simp only [Phase.total, Phase.idle, Phase.held, Phase.pending, Phase.Good, zero_add,
    true_and] at *
  refine ⟨?_, ?_, hnTodo, hfQuit, hrunning.2, hcounted, hverdict⟩
  · change q.nTotal = _
    rw [hnTotal]
    abel
  · change q.nIdle - 1 = _
    rw [hnIdle]
    abel

/-- A thread has made the checks of its batch. -/
theorem cleanUp (h : Inv eval k q (.working nNow [] fOk ::ₘ threads) added evaluated) :
    Inv eval (k + 1) (q.cleanUp nNow fOk) threads added evaluated := by
  have hnow : nNow ≠ 0 := h.running _ (Multiset.mem_cons_self _ _)
  obtain ⟨hnTotal, hnIdle, hnTodo, hfQuit, hrunning, hcounted, hverdict⟩ := cons_iff.mp h
  simp only [Phase.total, Phase.idle, Phase.held, Phase.pending, Phase.Good, zero_add,
    Multiset.coe_nil, List.not_mem_nil, false_implies, implies_true, and_true] at *
  rw [CCheckQueue.cleanUp, if_pos hnow]
  refine ⟨?_, hnIdle, ?_, hfQuit, hrunning.2, hcounted, ?_⟩
  · change q.nTotal = _
    rw [hnTotal]
    abel
  · change q.nTodo - nNow = q.queue.length + _
    omega
  · rw [← hverdict]
    simp only [Bool.and_eq_true]
    tauto

/-- A thread makes a check. -/
theorem evaluate (h : Inv eval k q (.working nNow (check :: vChecks) true ::ₘ threads) added
      evaluated) :
    Inv eval k q (.working nNow vChecks (eval check) ::ₘ threads) added
      (evaluated ++ [check]) := by
  obtain ⟨hnTotal, hnIdle, hnTodo, hfQuit, hrunning, hcounted, hverdict⟩ := cons_iff.mp h
  refine cons_iff.mpr ⟨hnTotal, hnIdle, hnTodo, hfQuit, hrunning, ?_, ?_⟩
  · refine le_of_eq_of_le ?_ hcounted
    simp only [Phase.pending, ← Multiset.coe_add, ← Multiset.cons_coe, ← Multiset.singleton_add,
      Multiset.coe_nil, add_zero]
    abel
  · rw [← hverdict]
    simp only [Phase.Good, List.forall_mem_cons, true_and]

/-- A thread leaves a check out. -/
theorem skip (h : Inv eval k q (.working nNow (check :: vChecks) false ::ₘ threads) added
      evaluated) :
    Inv eval k q (.working nNow vChecks false ::ₘ threads) added evaluated := by
  obtain ⟨hnTotal, hnIdle, hnTodo, hfQuit, hrunning, hcounted, hverdict⟩ := cons_iff.mp h
  refine cons_iff.mpr ⟨hnTotal, hnIdle, hnTodo, hfQuit, hrunning, ?_, ?_⟩
  · refine le_trans ?_ hcounted
    gcongr
    exact Multiset.coe_le.mpr (List.sublist_cons_self check vChecks).subperm
  · rw [← hverdict]
    simp only [Phase.Good, Bool.false_eq_true, false_and]

/-- Without checks that are left to make, a thread is idle. -/
theorem idle_of_nTodo (h : Inv eval k q threads added evaluated) (htodo : q.nTodo = 0) :
    q.queue = [] ∧ ∀ phase ∈ threads, phase = .outside ∨ phase = .waiting := by
  have hsum := h.nTodo
  rw [htodo, eq_comm, Nat.add_eq_zero_iff, List.length_eq_zero_iff,
    Multiset.sum_eq_zero_iff] at hsum
  refine ⟨hsum.1, fun phase hphase ↦ ?_⟩
  have hheld : phase.held = 0 := hsum.2 _ (Multiset.mem_map_of_mem _ hphase)
  have hrunning := h.running phase hphase
  cases phase with
  | outside => exact .inl rfl
  | waiting => exact .inr rfl
  | working nNow vChecks fOk => exact absurd hheld hrunning
  | returned => exact absurd hrunning id
  | undefined => exact absurd hrunning id

/-- The threads that are idle make up the counters. -/
theorem unused_of_nTodo (h : Inv eval 0 q threads [] evaluated) (htodo : q.nTodo = 0) :
    QueueSystem.Unused q := by
  obtain ⟨-, hthreads⟩ := h.idle_of_nTodo htodo
  refine ⟨?_, htodo, (h.verdict.mpr nofun).1⟩
  have htotal : threads.map Phase.total = threads.map Phase.idle := by
    refine Multiset.map_congr rfl fun phase hphase ↦ ?_
    rcases hthreads phase hphase with rfl | rfl
    · rfl
    · rfl
  rw [h.nTotal, h.nIdle, htotal, add_zero]

theorem nIdle_nonneg (h : Inv eval k q threads added evaluated) : 0 ≤ q.nIdle := by
  rw [h.nIdle]
  refine Multiset.sum_nonneg fun n hn ↦ ?_
  obtain ⟨phase, -, rfl⟩ := Multiset.mem_map.mp hn
  exact phase.idle_nonneg

theorem le_nTotal (h : Inv eval k q threads added evaluated) : k ≤ q.nTotal := by
  rw [h.nTotal]
  refine le_add_of_nonneg_left (Multiset.sum_nonneg fun n hn ↦ ?_)
  obtain ⟨phase, -, rfl⟩ := Multiset.mem_map.mp hn
  exact phase.total_nonneg

/-- A thread waits. -/
theorem wait (h : Inv eval (k + 1) q threads added evaluated) :
    Inv eval k { q with nIdle := q.nIdle + 1 } (.waiting ::ₘ threads) added evaluated := by
  refine cons_iff.mpr ⟨?_, ?_, ?_, h.fQuit, ⟨trivial, h.running⟩, ?_, ?_⟩
  · change q.nTotal = 1 + _ + k
    rw [h.nTotal]
    abel
  · change q.nIdle + 1 = 1 + _
    rw [h.nIdle, add_comm]
  · change q.nTodo = q.queue.length + (0 + _)
    rw [h.nTodo, zero_add]
  · simpa only [Phase.pending, zero_add] using h.counted
  · simpa only [Phase.Good, true_and] using h.verdict

/-- A thread takes a batch. -/
theorem fetch (h : Inv eval (k + 1) q threads added evaluated) (hqueue : q.queue ≠ []) :
    Inv eval k { q with queue := q.queue.drop q.nNow }
      (.working (q.queue.take q.nNow).length (q.queue.take q.nNow) q.fAllOk ::ₘ threads)
      added evaluated := by
  have hsplit : q.queue.take q.nNow ++ q.queue.drop q.nNow = q.queue :=
    List.take_append_drop _ _
  refine cons_iff.mpr ⟨?_, ?_, ?_, h.fQuit, ⟨?_, h.running⟩, ?_, ?_⟩
  · change q.nTotal = 1 + _ + k
    rw [h.nTotal]
    abel
  · exact h.nIdle.trans (zero_add _).symm
  · change q.nTodo = (q.queue.drop q.nNow).length + ((q.queue.take q.nNow).length + _)
    rw [h.nTodo, ← add_assoc, add_comm (q.queue.drop _).length, ← List.length_append, hsplit]
  · change (q.queue.take q.nNow).length ≠ 0
    rw [List.length_take, min_eq_left (CCheckQueue.nNow_le hqueue)]
    exact q.nNow_pos.ne'
  · refine le_of_eq_of_le ?_ h.counted
    conv_rhs => rw [← hsplit, ← Multiset.coe_add]
    simp only [Phase.pending]
    abel
  · refine Iff.trans ?_ h.verdict
    conv_rhs => rw [← hsplit]
    simp only [Phase.Good, List.mem_append, or_imp, forall_and]
    tauto

theorem good_of_nTodo (h : Inv eval k q threads added evaluated) (htodo : q.nTodo = 0) :
    ∀ phase ∈ threads, phase.pending = 0 ∧ phase.Good eval := by
  intro phase hphase
  rcases (h.idle_of_nTodo htodo).2 phase hphase with rfl | rfl
  · exact ⟨rfl, trivial⟩
  · exact ⟨rfl, trivial⟩

/-- The master leaves with the verdict. -/
theorem verdict_of_nTodo (h : Inv eval k q threads added evaluated) (htodo : q.nTodo = 0) :
    q.fAllOk = added.all eval := by
  rw [Bool.eq_iff_iff, List.all_eq_true, ← h.verdict, (h.idle_of_nTodo htodo).1]
  exact ⟨fun hall ↦ ⟨hall, nofun, fun phase hphase ↦ (h.good_of_nTodo htodo phase hphase).2⟩,
    And.left⟩

/-- A new round starts. -/
theorem finish (h : Inv eval (k + 1) q threads added evaluated) (htodo : q.nTodo = 0) :
    Inv eval k { q with nTotal := q.nTotal - 1, fAllOk := true } threads [] [] := by
  have hqueue := (h.idle_of_nTodo htodo).1
  refine ⟨?_, h.nIdle, h.nTodo, h.fQuit, h.running, ?_, ?_⟩
  · change q.nTotal - 1 = _
    rw [h.nTotal]
    abel
  · have hpending : (threads.map Phase.pending).sum = 0 := by
      refine Multiset.sum_eq_zero fun n hn ↦ ?_
      obtain ⟨phase, hphase, rfl⟩ := Multiset.mem_map.mp hn
      exact (h.good_of_nTodo htodo phase hphase).1
    change _ + (q.queue : Multiset T) + _ ≤ _
    rw [hpending, hqueue]
    exact le_refl _
  · refine iff_of_true ⟨rfl, ?_, fun phase hphase ↦ (h.good_of_nTodo htodo phase hphase).2⟩ nofun
    change ∀ check ∈ q.queue, _
    rw [hqueue]
    exact nofun

end Inv

/-- What a step of a thread of `Loop` leads to, next to the other threads. -/
inductive Outcome {T : Type} (eval : T → Bool) (fMaster : Bool) (threads : Multiset (Phase T))
    (added evaluated : List T) : Advance T → Prop
  | goesOn {a : Advance T} (hret : a.ret = none)
      (hinv : Inv eval 0 a.q (a.phase ::ₘ threads) added (evaluated ++ a.evaluated)) :
      Outcome eval fMaster threads added evaluated a
  | returns {a : Advance T} {fRet : Bool} (hret : a.ret = some fRet) (hmaster : fMaster = true)
      (hqueue : a.q.queue = []) (htodo : a.q.nTodo = 0)
      (hthreads : ∀ phase ∈ threads, phase = .outside ∨ phase = .waiting)
      (hverdict : fRet = added.all eval) (hinv : Inv eval 0 a.q threads [] []) :
      Outcome eval fMaster threads added evaluated a

namespace Outcome

variable {T : Type} {eval : T → Bool} {fMaster : Bool} {q : CCheckQueue T}
  {threads : Multiset (Phase T)} {added evaluated : List T} {phase : Phase T} {a : Advance T}

/-- A thread leaves its critical section. -/
theorem of_enter (h : Inv eval 1 q threads added evaluated) :
    Outcome eval fMaster threads added evaluated (enter q fMaster) := by
  obtain ⟨hqueue, hret, ha⟩ | ⟨-, -, ha⟩ | ⟨hqueue, hundefined, -⟩ | ⟨hqueue, -, ha⟩ :=
    enter_cases q fMaster
  · rw [h.fQuit, Bool.or_false, Bool.and_eq_true, beq_iff_eq] at hret
    obtain ⟨rfl, htodo⟩ := hret
    rw [ha]
    exact .returns rfl rfl hqueue htodo (h.idle_of_nTodo htodo).2 (h.verdict_of_nTodo htodo)
      (h.finish htodo)
  · rw [ha]
    exact .goesOn rfl ((List.append_nil evaluated).symm ▸ h.wait)
  · -- there is a thread in the section, and not more than the whole queue is taken
    have htotal := h.le_nTotal
    have hidle := h.nIdle_nonneg
    have hle := CCheckQueue.nNow_le hqueue
    omega
  · rw [ha]
    exact .goesOn rfl ((List.append_nil evaluated).symm ▸ h.fetch hqueue)

theorem of_advance (h : Inv eval 0 q (phase ::ₘ threads) added evaluated)
    (hadvance : advance eval fMaster q phase = some a) :
    Outcome eval fMaster threads added evaluated a := by
  cases phase with
  | outside =>
      obtain rfl := Option.some.inj hadvance
      exact of_enter h.first
  | waiting =>
      obtain rfl := Option.some.inj hadvance
      exact of_enter h.wake
  | working nNow vChecks fOk =>
      cases vChecks with
      | nil =>
          obtain rfl := Option.some.inj hadvance
          exact of_enter h.cleanUp
      | cons check vChecks =>
          rw [advance] at hadvance
          cases fOk with
          | true =>
              obtain rfl := Option.some.inj hadvance
              exact .goesOn rfl h.evaluate
          | false =>
              obtain rfl := Option.some.inj hadvance
              exact .goesOn rfl (by simpa only [List.append_nil] using h.skip)
  | returned => exact absurd hadvance (by simp [advance])
  | undefined => exact absurd hadvance (by simp [advance])

end Outcome

/-! ## Runs -/

/-- The master as a thread. -/
def Master.phase {T : Type} : Master T → Phase T
  | .loop phase => phase
  | _ => .outside

namespace QueueSystem

variable {T : Type} {eval : T → Bool} {s s' : QueueSystem T} {c : Choice T} {r : Option Bool}

def threads (s : QueueSystem T) : Multiset (Phase T) := s.master.phase ::ₘ s.workers

/-- A worker and the threads next to it. -/
theorem threads_of_worker {i : Nat} {phase : Phase T} (h : s.workers[i]? = some phase) :
    s.threads = phase ::ₘ s.master.phase ::ₘ (s.workers.eraseIdx i : Multiset (Phase T)) := by
  obtain ⟨hi, rfl⟩ := List.getElem?_eq_some_iff.mp h
  have hperm := List.getElem_cons_eraseIdx_perm hi
  rw [threads, Multiset.cons_swap, Multiset.cons_coe s.workers[i], Multiset.coe_eq_coe.mpr hperm]

theorem threads_workerMoved {i : Nat} {phase : Phase T} (h : s.workers[i]? = some phase)
    (a : Advance T) :
    (s.workerMoved i a).threads =
      a.phase ::ₘ s.master.phase ::ₘ (s.workers.eraseIdx i : Multiset (Phase T)) := by
  obtain ⟨hi, -⟩ := List.getElem?_eq_some_iff.mp h
  have hperm := List.set_perm_cons_eraseIdx hi a.phase
  rw [threads, Multiset.cons_swap, Multiset.cons_coe a.phase, ← Multiset.coe_eq_coe.mpr hperm]
  rfl

/-- The four kinds of steps. -/
theorem step_cases (h : s.step eval c = some (s', r)) :
    (s.master = .idle ∧ r = none ∧
        s' = { s with master := if Unused s.q then .adding else .aborted }) ∨
      (∃ vChecks, s.master = .adding ∧ r = none ∧
        s' = { s with q := s.q.add vChecks, added := s.added ++ vChecks }) ∨
      (∃ a, s.master ≠ .idle ∧ advance eval true s.q s.master.phase = some a ∧
        s.masterMoved a = (s', r)) ∨
      ∃ i phase a, s.workers[i]? = some phase ∧ advance eval false s.q phase = some a ∧ r = none ∧
        s' = s.workerMoved i a := by
  cases c with
  | construct =>
      cases hmaster : s.master <;> simp only [step, hmaster, reduceCtorEq, Option.some.injEq,
        Prod.mk.injEq] at h
      obtain ⟨rfl, rfl⟩ := h
      exact .inl ⟨rfl, rfl, rfl⟩
  | add vChecks =>
      cases hmaster : s.master <;> simp only [step, hmaster, reduceCtorEq, Option.some.injEq,
        Prod.mk.injEq] at h
      obtain ⟨rfl, rfl⟩ := h
      exact .inr (.inl ⟨vChecks, rfl, rfl, rfl⟩)
  | master =>
      refine .inr (.inr (.inl ?_))
      cases hmaster : s.master <;> simp only [step, hmaster, reduceCtorEq,
        Option.map_eq_some_iff] at h
      · obtain ⟨a, hadvance, hmoved⟩ := h
        exact ⟨a, nofun, hadvance, hmoved⟩
      · obtain ⟨a, hadvance, hmoved⟩ := h
        exact ⟨a, nofun, hadvance, hmoved⟩
  | worker i =>
      simp only [step, Option.bind_eq_bind, Option.bind_eq_some_iff, Option.pure_def,
        Option.some.injEq, Prod.mk.injEq] at h
      obtain ⟨phase, hphase, a, hadvance, rfl, rfl⟩ := h
      exact .inr (.inr (.inr ⟨i, phase, a, hphase, hadvance, rfl, rfl⟩))

/-- The invariant of the queue with its threads. -/
structure Ok (eval : T → Bool) (s : QueueSystem T) : Prop where
  inv : Inv eval 0 s.q s.threads s.added s.evaluated
  master : s.master ≠ .aborted
  idle : s.master = .idle → s.q.nTodo = 0 ∧ s.added = []

theorem ok_start (eval : T → Bool) (nBatchSize nWorkers : Nat) :
    (start nBatchSize nWorkers : QueueSystem T).Ok eval where
  inv := by
    have hthreads : ∀ phase ∈ (start nBatchSize nWorkers : QueueSystem T).threads,
        phase = .outside := by
      intro phase hphase
      rcases Multiset.mem_cons.mp hphase with rfl | hphase
      · rfl
      · exact List.eq_of_mem_replicate hphase
    have hsum {M : Type} [AddCommMonoid M] (f : Phase T → M) (hf : f .outside = 0) :
        ((start nBatchSize nWorkers : QueueSystem T).threads.map f).sum = 0 := by
      refine Multiset.sum_eq_zero fun n hn ↦ ?_
      obtain ⟨phase, hphase, rfl⟩ := Multiset.mem_map.mp hn
      rw [hthreads phase hphase, hf]
    refine ⟨?_, ?_, ?_, rfl, ?_, ?_, ?_⟩
    · rw [hsum Phase.total rfl]
      rfl
    · rw [hsum Phase.idle rfl]
      rfl
    · rw [hsum Phase.held rfl]
      rfl
    · intro phase hphase
      rw [hthreads phase hphase]
      exact trivial
    · rw [hsum Phase.pending rfl]
      exact le_refl _
    · refine iff_of_true ⟨rfl, nofun, fun phase hphase ↦ ?_⟩ nofun
      rw [hthreads phase hphase]
      exact trivial
  master := nofun
  idle _ := ⟨rfl, rfl⟩

namespace Ok

theorem unused (h : s.Ok eval) (hidle : s.master = .idle) : Unused s.q := by
  obtain ⟨htodo, hadded⟩ := h.idle hidle
  have hinv := h.inv
  rw [hadded] at hinv
  exact hinv.unused_of_nTodo htodo

theorem outcome_master (h : s.Ok eval) {a : Advance T}
    (hadvance : advance eval true s.q s.master.phase = some a) :
    Outcome eval true s.workers s.added s.evaluated a :=
  .of_advance h.inv hadvance

theorem outcome_worker (h : s.Ok eval) {i : Nat} {phase : Phase T} {a : Advance T}
    (hphase : s.workers[i]? = some phase) (hadvance : advance eval false s.q phase = some a) :
    Outcome eval false (s.master.phase ::ₘ (s.workers.eraseIdx i : Multiset (Phase T)))
      s.added s.evaluated a := by
  have hinv := h.inv
  rw [threads_of_worker hphase] at hinv
  exact .of_advance hinv hadvance

end Ok

/-- A worker does not add to what is left. -/
theorem nTodo_advance_le {fMaster : Bool} {q : CCheckQueue T} {phase : Phase T} {a : Advance T}
    (h : advance eval fMaster q phase = some a) : a.q.nTodo ≤ q.nTodo := by
  have henter (q : CCheckQueue T) : (enter q fMaster).q.nTodo = q.nTodo := by
    obtain ⟨-, -, ha⟩ | ⟨-, -, ha⟩ | ⟨-, -, ha⟩ | ⟨-, -, ha⟩ := enter_cases q fMaster <;> rw [ha]
  cases phase with
  | outside =>
      obtain rfl := Option.some.inj h
      exact (henter _).le
  | waiting =>
      obtain rfl := Option.some.inj h
      exact (henter _).le
  | working nNow vChecks fOk =>
      cases vChecks with
      | nil =>
          obtain rfl := Option.some.inj h
          rw [henter, CCheckQueue.cleanUp]
          split
          · exact Nat.sub_le _ _
          · exact le_refl _
      | cons check vChecks =>
          rw [advance] at h
          cases fOk <;> obtain rfl := Option.some.inj h <;> exact le_refl _
  | returned => exact absurd h (by simp [advance])
  | undefined => exact absurd h (by simp [advance])

/-- A step keeps the invariant. -/
theorem Ok.step (h : s.Ok eval) (hstep : s.step eval c = some (s', r)) : s'.Ok eval := by
  obtain ⟨hmaster, -, rfl⟩ | ⟨vChecks, hmaster, -, rfl⟩ | ⟨a, hmaster, hadvance, hmoved⟩ |
    ⟨i, phase, a, hphase, hadvance, -, rfl⟩ := step_cases hstep
  · rw [if_pos (h.unused hmaster)]
    refine ⟨?_, nofun, nofun⟩
    have hinv := h.inv
    rw [threads, hmaster] at hinv
    exact hinv
  · refine ⟨h.inv.add vChecks, h.master, fun hidle ↦ ?_⟩
    rw [hmaster] at hidle
    exact absurd hidle nofun
  · cases h.outcome_master hadvance with
    | goesOn hret hinv =>
        rw [masterMoved, hret] at hmoved
        obtain ⟨rfl, -⟩ := Prod.mk.inj hmoved
        exact ⟨hinv, nofun, nofun⟩
    | returns hret _ _ htodo _ _ hinv =>
        rw [masterMoved, hret] at hmoved
        obtain ⟨rfl, -⟩ := Prod.mk.inj hmoved
        exact ⟨Inv.cons_outside_iff.mpr hinv, nofun, fun _ ↦ ⟨htodo, rfl⟩⟩
  · cases h.outcome_worker hphase hadvance with
    | goesOn _ hinv =>
        rw [← threads_workerMoved hphase] at hinv
        refine ⟨hinv, h.master, fun hidle ↦ ?_⟩
        obtain ⟨htodo, hadded⟩ := h.idle hidle
        exact ⟨Nat.le_zero.mp (htodo ▸ nTodo_advance_le hadvance), hadded⟩
    | returns _ hmaster => exact absurd hmaster nofun

theorem ok_of_run {nBatchSize nWorkers : Nat} {l : List (Choice T × Option Bool)}
    (h : Run (Step eval) (start nBatchSize nWorkers) l s) : s.Ok eval :=
  h.invariant (fun _ _ _ hok hstep ↦ hok.step hstep) (ok_start eval nBatchSize nWorkers)

/-! ### `Wait` can always return -/

/-- What is left to do, weighing a check more while it is in the queue. -/
def work (q : CCheckQueue T) (pending : Multiset T) : Nat :=
  q.nTodo + 2 * q.queue.length + pending.card

theorem work_enter_le (q : CCheckQueue T) (fMaster : Bool) :
    work (enter q fMaster).q (enter q fMaster).phase.pending ≤ work q 0 ∧
      (q.queue ≠ [] → (enter q fMaster).phase.Running →
        work (enter q fMaster).q (enter q fMaster).phase.pending < work q 0) := by
  obtain ⟨hqueue, -, ha⟩ | ⟨hqueue, -, ha⟩ | ⟨-, -, ha⟩ | ⟨-, hle, ha⟩ := enter_cases q fMaster
  · rw [ha]
    exact ⟨le_refl _, fun hne ↦ absurd hqueue hne⟩
  · rw [ha]
    exact ⟨le_refl _, fun hne ↦ absurd hqueue hne⟩
  · rw [ha]
    exact ⟨le_refl _, fun _ hrunning ↦ absurd hrunning id⟩
  · have hpos := q.nNow_pos
    have hlt : work { q with queue := q.queue.drop q.nNow } (q.queue.take q.nNow) < work q 0 := by
      simp only [work, List.length_drop, Multiset.coe_card, List.length_take, Multiset.card_zero]
      omega
    rw [ha]
    exact ⟨hlt.le, fun _ _ ↦ hlt⟩

/-- A step of a thread that holds a batch or finds one. -/
theorem work_advance_lt {fMaster : Bool} {q : CCheckQueue T} {phase : Phase T} {a : Advance T}
    (hadvance : advance eval fMaster q phase = some a) (hrunning : phase.Running)
    (hheld : phase.held ≤ q.nTodo) (hactive : phase.held ≠ 0 ∨ q.queue ≠ [])
    (ha : a.phase.Running) : work a.q a.phase.pending < work q phase.pending := by
  cases phase with
  | outside =>
      obtain rfl := Option.some.inj hadvance
      exact (work_enter_le (q.cleanUp 0 true) fMaster).2 (hactive.resolve_left (absurd rfl)) ha
  | waiting =>
      obtain rfl := Option.some.inj hadvance
      exact (work_enter_le { q with nIdle := q.nIdle - 1 } fMaster).2
        (hactive.resolve_left (absurd rfl)) ha
  | working nNow vChecks fOk =>
      cases vChecks with
      | nil =>
          obtain rfl := Option.some.inj hadvance
          refine (work_enter_le (q.cleanUp nNow fOk) fMaster).1.trans_lt ?_
          have hnow : nNow ≠ 0 := hrunning
          have hle : nNow ≤ q.nTodo := hheld
          rw [CCheckQueue.cleanUp, if_pos hnow]
          change q.nTodo - nNow + 2 * q.queue.length + 0 < q.nTodo + 2 * q.queue.length + 0
          omega
      | cons check vChecks =>
          rw [advance] at hadvance
          cases fOk <;> obtain rfl := Option.some.inj hadvance <;>
            exact Nat.add_lt_add_left (Nat.lt_succ_self _) _
  | returned => exact absurd hrunning id
  | undefined => exact absurd hrunning id

theorem exists_advance (eval : T → Bool) (fMaster : Bool) (q : CCheckQueue T) {phase : Phase T}
    (h : phase.Running) : ∃ a, advance eval fMaster q phase = some a := by
  cases phase with
  | outside => exact ⟨_, rfl⟩
  | waiting => exact ⟨_, rfl⟩
  | working nNow vChecks fOk =>
      cases vChecks with
      | nil => exact ⟨_, rfl⟩
      | cons check vChecks => cases fOk <;> exact ⟨_, rfl⟩
  | returned => exact absurd h id
  | undefined => exact absurd h id

/-- A master that has nothing to do returns. -/
theorem ret_advance_of_nTodo {q : CCheckQueue T} {phase : Phase T} {a : Advance T}
    (hadvance : advance eval true q phase = some a) (hphase : phase = .outside ∨ phase = .waiting)
    (hqueue : q.queue = []) (htodo : q.nTodo = 0) : a.ret ≠ none := by
  have henter (q : CCheckQueue T) (hqueue : q.queue = []) (htodo : q.nTodo = 0) :
      (enter q true).ret ≠ none := by
    rw [enter, CCheckQueue.critsect, if_pos (by simpa using hqueue), if_pos (by simpa using htodo)]
    exact nofun
  rcases hphase with rfl | rfl
  · obtain rfl := Option.some.inj hadvance
    exact henter (q.cleanUp 0 true) hqueue htodo
  · obtain rfl := Option.some.inj hadvance
    exact henter { q with nIdle := q.nIdle - 1 } hqueue htodo

/-- What is left to do next to the other threads. -/
theorem work_cons_lt {q q' : CCheckQueue T} {phase phase' : Phase T}
    (h : work q' phase'.pending < work q phase.pending) (threads : Multiset (Phase T)) :
    work q' ((phase' ::ₘ threads).map Phase.pending).sum <
      work q ((phase ::ₘ threads).map Phase.pending).sum := by
  rw [Multiset.map_cons, Multiset.sum_cons, Multiset.map_cons, Multiset.sum_cons, work, work,
    Multiset.card_add, Multiset.card_add, ← add_assoc, ← add_assoc]
  exact Nat.add_lt_add_right h _

theorem step_master (hidle : s.master ≠ .idle) (haborted : s.master ≠ .aborted) :
    s.step eval .master = (advance eval true s.q s.master.phase).map s.masterMoved := by
  cases hmaster : s.master with
  | idle => exact absurd hmaster hidle
  | adding => simp only [step, hmaster, Master.phase]
  | loop phase => simp only [step, hmaster, Master.phase]
  | aborted => exact absurd hmaster haborted

theorem step_worker {i : Nat} {phase : Phase T} {a : Advance T}
    (hphase : s.workers[i]? = some phase) (hadvance : advance eval false s.q phase = some a) :
    s.step eval (.worker i) = some (s.workerMoved i a, none) := by
  simp only [step, hphase, hadvance, Option.bind_eq_bind, Option.bind_some, Option.pure_def]

theorem Ok.held_le (h : s.Ok eval) {phase : Phase T} (hphase : phase ∈ s.threads) :
    phase.held ≤ s.q.nTodo := by
  rw [h.inv.nTodo]
  exact (Multiset.single_le_sum (fun _ _ ↦ Nat.zero_le _) _
    (Multiset.mem_map_of_mem Phase.held hphase)).trans (Nat.le_add_left _ _)

/-- `Wait` returns next, or some step leaves less to do. -/
def Proceeds (eval : T → Bool) (s : QueueSystem T) : Prop :=
  (∃ s' fRet, s.step eval .master = some (s', some fRet)) ∨
    ∃ c s', s.step eval c = some (s', none) ∧ s'.master ≠ .idle ∧ s'.added = s.added ∧
      work s'.q (s'.threads.map Phase.pending).sum < work s.q (s.threads.map Phase.pending).sum

/-- The master has something to do. -/
theorem Ok.proceeds_master (h : s.Ok eval) (hmaster : s.master ≠ .idle)
    (hactive : s.master.phase.held ≠ 0 ∨ s.q.queue ≠ []) : s.Proceeds eval := by
  have hmem : s.master.phase ∈ s.threads := Multiset.mem_cons_self _ _
  have hrunning := h.inv.running _ hmem
  obtain ⟨a, hadvance⟩ := exists_advance eval true s.q hrunning
  have hstep : s.step eval .master = some (s.masterMoved a) := by
    rw [step_master hmaster h.master, hadvance, Option.map_some]
  cases h.outcome_master hadvance with
  | goesOn hret hinv =>
      rw [masterMoved, hret] at hstep
      refine .inr ⟨.master, _, hstep, nofun, rfl, ?_⟩
      exact work_cons_lt (work_advance_lt hadvance hrunning (h.held_le hmem) hactive
        (hinv.running _ (Multiset.mem_cons_self _ _))) _
  | returns hret =>
      rw [masterMoved, hret] at hstep
      exact .inl ⟨_, _, hstep⟩

/-- A worker has a batch. -/
theorem Ok.proceeds_worker (h : s.Ok eval) (hmaster : s.master ≠ .idle) {phase : Phase T}
    (hworker : phase ∈ s.workers) (hheld : phase.held ≠ 0) : s.Proceeds eval := by
  have hphase : phase ∈ s.threads := Multiset.mem_cons_of_mem hworker
  obtain ⟨i, hi⟩ := List.mem_iff_getElem?.mp hworker
  have hrunning := h.inv.running _ hphase
  obtain ⟨a, hadvance⟩ := exists_advance eval false s.q hrunning
  cases h.outcome_worker hi hadvance with
  | goesOn hret hinv =>
      refine .inr ⟨.worker i, _, step_worker hi hadvance, hmaster, rfl, ?_⟩
      rw [threads_workerMoved hi, threads_of_worker hi]
      exact work_cons_lt (work_advance_lt hadvance hrunning (h.held_le hphase) (.inl hheld)
        (hinv.running _ (Multiset.mem_cons_self _ _))) _
  | returns _ hmaster => exact absurd hmaster nofun

/-- Nothing is left to do. -/
theorem Ok.proceeds_of_nTodo (h : s.Ok eval) (hmaster : s.master ≠ .idle)
    (htodo : s.q.nTodo = 0) : s.Proceeds eval := by
  have hmem : s.master.phase ∈ s.threads := Multiset.mem_cons_self _ _
  obtain ⟨hqueue, hidle⟩ := h.inv.idle_of_nTodo htodo
  obtain ⟨a, hadvance⟩ := exists_advance eval true s.q (h.inv.running _ hmem)
  have hret := ret_advance_of_nTodo hadvance (hidle _ hmem) hqueue htodo
  obtain ⟨fRet, hret⟩ := Option.ne_none_iff_exists'.mp hret
  refine .inl ⟨{ q := a.q, workers := s.workers }, fRet, ?_⟩
  rw [step_master hmaster h.master, hadvance, Option.map_some, masterMoved, hret]

theorem Ok.proceeds (h : s.Ok eval) (hmaster : s.master ≠ .idle) : s.Proceeds eval := by
  by_cases hqueue : s.q.queue = []
  case neg => exact h.proceeds_master hmaster (.inr hqueue)
  by_cases hheld : ∃ phase ∈ s.threads, phase.held ≠ 0
  case pos =>
    obtain ⟨phase, hphase, hheld⟩ := hheld
    rcases Multiset.mem_cons.mp hphase with rfl | hworker
    · exact h.proceeds_master hmaster (.inl hheld)
    · exact h.proceeds_worker hmaster hworker hheld
  case neg =>
    refine h.proceeds_of_nTodo hmaster ?_
    rw [h.inv.nTodo, hqueue, List.length_nil, zero_add]
    refine Multiset.sum_eq_zero fun n hn ↦ ?_
    obtain ⟨phase, hphase, rfl⟩ := Multiset.mem_map.mp hn
    exact not_not.mp fun hne ↦ hheld ⟨phase, hphase, hne⟩

/-- From whatever state, some order of the steps makes `Wait` return. -/
theorem Ok.exists_return (h : s.Ok eval) (hmaster : s.master ≠ .idle) :
    ∃ l s₁ s' fRet, Run (Step eval) s l s₁ ∧ s₁.added = s.added ∧
      s₁.step eval .master = some (s', some fRet) := by
  induction hn : work s.q (s.threads.map Phase.pending).sum using Nat.strong_induction_on
    generalizing s with
  | _ n ih =>
      obtain ⟨s', fRet, hret⟩ | ⟨c, s₁, hstep, hmaster₁, hadded, hlt⟩ := h.proceeds hmaster
      · exact ⟨[], s, s', fRet, .nil s, rfl, hret⟩
      · obtain ⟨l, s₂, s', fRet, hrun, hadded₂, hret⟩ :=
          ih _ (hn ▸ hlt) (h.step hstep) hmaster₁ rfl
        exact ⟨(c, none) :: l, s₂, s', fRet, .cons hstep hrun, hadded₂.trans hadded, hret⟩

/-! ### What the queue guarantees -/

/-- What can be said of the queue whenever one looks at it. -/
structure Sound (eval : T → Bool) (s : QueueSystem T) : Prop where
  /-- No check was taken from an empty queue. -/
  defined : s.master.phase ≠ .undefined ∧ .undefined ∉ s.workers
  /-- The assertions hold. -/
  asserts : s.master ≠ .aborted ∧ (s.master = .idle → Unused s.q)
  /-- Each check is made once at most, and after it was added. -/
  once : List.Subperm s.evaluated s.added
  /-- `Wait` returns what the checks say, and leaves none of them. -/
  ret : ∀ c s' fRet, s.step eval c = some (s', some fRet) →
    fRet = s.added.all eval ∧ s'.master = .idle ∧ s'.q.queue = [] ∧
      ∀ phase ∈ s'.workers, phase = .outside ∨ phase = .waiting
  /-- `Wait` can return, however it came to this. -/
  returns : s.master ≠ .idle → ∃ l s₁ s' fRet, Run (Step eval) s l s₁ ∧ s₁.added = s.added ∧
    s₁.step eval .master = some (s', some fRet)

theorem Ok.sound (h : s.Ok eval) : s.Sound eval where
  defined := by
    constructor
    · exact fun hphase ↦ h.inv.running .undefined (hphase ▸ Multiset.mem_cons_self _ _)
    · exact fun hphase ↦ h.inv.running .undefined (Multiset.mem_cons_of_mem hphase)
  asserts := ⟨h.master, h.unused⟩
  once := by
    have hle : (s.evaluated : Multiset T) ≤ s.added :=
      (Multiset.le_add_right _ _).trans ((Multiset.le_add_right _ _).trans h.inv.counted)
    exact Multiset.coe_le.mp hle
  ret := by
    intro c s' fRet hstep
    obtain ⟨-, hr, -⟩ | ⟨_, -, hr, -⟩ | ⟨a, -, hadvance, hmoved⟩ | ⟨_, _, _, -, -, hr, -⟩ :=
      step_cases hstep
    · exact absurd hr nofun
    · exact absurd hr nofun
    · cases h.outcome_master hadvance with
      | goesOn hret =>
          rw [masterMoved, hret] at hmoved
          exact absurd (Prod.mk.inj hmoved).2 nofun
      | returns hret _ hqueue _ hthreads hverdict =>
          rw [masterMoved, hret] at hmoved
          obtain ⟨rfl, hr⟩ := Prod.mk.inj hmoved
          obtain rfl := Option.some.inj hr
          exact ⟨hverdict, rfl, hqueue, hthreads⟩
    · exact absurd hr nofun
  returns := h.exists_return

theorem Sound.of_run {nBatchSize nWorkers : Nat} {l : List (Choice T × Option Bool)}
    (h : Run (Step eval) (start nBatchSize nWorkers) l s) : s.Sound eval :=
  (ok_of_run h).sound

/-- What `Wait` may return after these checks were added. -/
def Answers (eval : T → Bool) (checks : List T) (fRet : Bool) : Prop :=
  ∃ nBatchSize nWorkers l s c s', Run (Step eval) (start nBatchSize nWorkers) l s ∧
    s.added = checks ∧ s.step eval c = some (s', some fRet)

/-- There is one answer. -/
theorem answers_iff {checks : List T} {fRet : Bool} :
    Answers eval checks fRet ↔ fRet = checks.all eval := by
  constructor
  · rintro ⟨_, _, _, s, c, s', hrun, rfl, hret⟩
    exact ((Sound.of_run hrun).ret c s' fRet hret).1
  · rintro rfl
    have hadded : Run (Step eval) (start 0 0) [(.construct, none), (.add checks, none)]
        { q := CCheckQueue.add { nBatchSize := 0 } checks
          workers := []
          master := .adding
          added := checks } :=
      .cons rfl (.cons rfl (.nil _))
    obtain ⟨l, s, s', fRet, hrest, hchecks, hret⟩ := (Sound.of_run hadded).returns (by simp)
    have hrun := hadded.append hrest
    refine ⟨0, 0, _, s, .master, s', hrun, hchecks, ?_⟩
    rw [hret, ((Sound.of_run hrun).ret _ _ _ hret).1, hchecks]

end QueueSystem

end Fedoracoin
