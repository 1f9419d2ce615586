import Fedoracoin.AddrMan
import Fedoracoin.Lib.OrderStatistic
import Fedoracoin.Lib.SlidingWindow

/-!
# The network time

`AddTimeData` takes the offset of the clock of each new peer into a `CMedianFilter`, a window of 200
samples with a zero to begin with, and sets `nTimeOffset` to the median whenever the window has an
odd size of at least 5.  The size stays 200 once it is that.  The other way for the offset to go
astray is the median `INT64_MIN`, which has no absolute value.
-/

namespace Fedoracoin

open OrderStatistic

def abs64 (n : Int64) : Int64 := if 0 ≤ n then n else -n

/-! ## `CMedianFilter` -/

structure CMedianFilter where
  vValues : List Int64
  vSorted : List Int64
  nSize : Nat
  /-- What `median` asserts. -/
  size_pos : 0 < vSorted.length
deriving DecidableEq

namespace CMedianFilter

/-- The constructor. -/
def new (size : Nat) (initial_value : Int64) : CMedianFilter where
  vValues := [initial_value]
  vSorted := [initial_value]
  nSize := size
  size_pos := Nat.one_pos

def input (filter : CMedianFilter) (value : Int64) : CMedianFilter where
  vValues :=
    (if filter.vValues.length = filter.nSize then filter.vValues.tail
      else filter.vValues) ++ [value]
  vSorted := List.insertionSort (· ≤ ·)
    ((if filter.vValues.length = filter.nSize then filter.vValues.tail else filter.vValues) ++
      [value])
  nSize := filter.nSize
  size_pos := by
    rw [List.length_insertionSort, List.length_append]
    exact Nat.succ_pos _

def median (filter : CMedianFilter) : Int64 :=
  have := filter.size_pos
  if filter.vSorted.length % 2 = 1 then filter.vSorted[filter.vSorted.length / 2]
  else
    (filter.vSorted[filter.vSorted.length / 2 - 1] +
      filter.vSorted[filter.vSorted.length / 2]) / 2

def size (filter : CMedianFilter) : Nat := filter.vValues.length

end CMedianFilter

/-- The median of a list: the middle one in order, or the mean of the middle two without its
fraction. -/
@[irreducible] def IsMedian (l : List Int64) (m : Int64) : Prop :=
  if l.length % 2 = 1 then atRank (l.map Int64.toInt) (l.length / 2) = some m.toInt
  else ∃ a b, atRank (l.map Int64.toInt) (l.length / 2 - 1) = some a ∧
    atRank (l.map Int64.toInt) (l.length / 2) = some b ∧ m.toInt = (a + b).tdiv 2

/-- The middle two of a list have a sum that an `int64_t` can hold. -/
def MiddlesFit (l : List Int64) : Prop :=
  ∀ a b, atRank (l.map Int64.toInt) (l.length / 2 - 1) = some a →
    atRank (l.map Int64.toInt) (l.length / 2) = some b → -2 ^ 63 ≤ a + b ∧ a + b < 2 ^ 63

namespace CMedianFilter

variable {l : List Int64} {filter : CMedianFilter} {a b : Int64} {k : Nat}

theorem atRank_map_toInt (l : List Int64) (k : Nat) :
    atRank (l.map Int64.toInt) k = (l.insertionSort (· ≤ ·))[k]?.map Int64.toInt := by
  have hsort := List.map_insertionSort (· ≤ ·) (· ≤ ·) Int64.toInt l
    fun _ _ _ _ ↦ Int64.le_iff_toInt_le
  rw [atRank, ← hsort, List.getElem?_map]

theorem tdiv_two (n : Int) : n.tdiv 2 = if 0 ≤ n then n / 2 else -(-n / 2) := by
  split
  case isTrue h => exact Int.tdiv_eq_ediv_of_nonneg h
  case isFalse h =>
    have hneg : 0 ≤ -n := by omega
    rw [← Int.tdiv_eq_ediv_of_nonneg hneg, Int.neg_tdiv, Int.neg_neg]

theorem bmod_sum {n : Int} (hle : -2 ^ 64 ≤ n) (hlt : n < 2 ^ 64) :
    n.bmod (2 ^ 64) =
      if n < -2 ^ 63 then n + 2 ^ 64 else if n < 2 ^ 63 then n else n - 2 ^ 64 := by
  rw [Int.bmod]
  split_ifs
  all_goals omega

/-- The mean that is computed is the mean if the sum does not leave its range. -/
theorem toInt_mean_iff (a b : Int64) :
    ((a + b) / 2).toInt = (a.toInt + b.toInt).tdiv 2 ↔
      -2 ^ 63 ≤ a.toInt + b.toInt ∧ a.toInt + b.toInt < 2 ^ 63 := by
  have ha := a.toInt_lt
  have ha' := a.le_toInt
  have hb := b.toInt_lt
  have hb' := b.le_toInt
  have htwo : (2 : Int64).toInt = 2 := rfl
  have hsmall : ((a + b).toInt.tdiv 2).bmod (2 ^ 64) = (a + b).toInt.tdiv 2 := by
    have hlt := (a + b).toInt_lt
    have hle := (a + b).le_toInt
    rw [tdiv_two]
    apply Int.bmod_eq_of_le
    · split_ifs
      all_goals omega
    · split_ifs
      all_goals omega
  rw [Int64.toInt_div, htwo, hsmall, Int64.toInt_add, bmod_sum (by omega) (by omega), tdiv_two,
    tdiv_two]
  split_ifs
  all_goals omega

/-! ## The median of the window -/

/-- A filter that `input` has left. -/
def Sorted (filter : CMedianFilter) : Prop :=
  filter.vSorted = filter.vValues.insertionSort (· ≤ ·)

theorem sorted_new (size : Nat) (initial_value : Int64) : (new size initial_value).Sorted := rfl

theorem sorted_input (filter : CMedianFilter) (value : Int64) : (filter.input value).Sorted := rfl

theorem vValues_input (filter : CMedianFilter) (value : Int64) :
    (filter.input value).vValues = SlidingWindow.push filter.nSize filter.vValues value := rfl

section

variable (h : filter.Sorted)

include h

theorem length_vSorted : filter.vSorted.length = filter.vValues.length := by
  rw [h, List.length_insertionSort]

theorem atRank_vSorted (hk : k < filter.vSorted.length) :
    atRank (filter.vValues.map Int64.toInt) k = some filter.vSorted[k].toInt := by
  rw [atRank_map_toInt, ← h, List.getElem?_eq_getElem hk, Option.map_some]

/-- Of an odd number of values the median is one of them. -/
theorem isMedian_of_odd (hodd : filter.vValues.length % 2 = 1) :
    IsMedian filter.vValues filter.median := by
  have hlen := length_vSorted h
  have hpos := filter.size_pos
  rw [IsMedian, if_pos hodd, ← hlen, atRank_vSorted h (Nat.div_lt_self hpos Nat.one_lt_two)]
  rw [← hlen] at hodd
  rw [median, if_pos hodd]

/-- Of an even number of values the median is right if the middle two can be added. -/
theorem isMedian_iff_of_even (heven : ¬ filter.vValues.length % 2 = 1) :
    IsMedian filter.vValues filter.median ↔ MiddlesFit filter.vValues := by
  have hlen := length_vSorted h
  have hpos := filter.size_pos
  have hhigh : filter.vSorted.length / 2 < filter.vSorted.length :=
    Nat.div_lt_self hpos Nat.one_lt_two
  have hlow : filter.vSorted.length / 2 - 1 < filter.vSorted.length :=
    (Nat.sub_le _ 1).trans_lt hhigh
  have hmedian : filter.median =
      (filter.vSorted[filter.vSorted.length / 2 - 1] +
        filter.vSorted[filter.vSorted.length / 2]) / 2 := by
    rw [median, if_neg (hlen ▸ heven)]
  rw [IsMedian, if_neg heven, MiddlesFit, ← hlen, atRank_vSorted h hhigh, atRank_vSorted h hlow,
    hmedian]
  constructor
  · rintro ⟨a, b, ha, hb, hmean⟩ a' b' ha' hb'
    obtain rfl := Option.some.inj (ha.symm.trans ha')
    obtain rfl := Option.some.inj (hb.symm.trans hb')
    obtain rfl := Option.some.inj ha
    obtain rfl := Option.some.inj hb
    exact (toInt_mean_iff _ _).mp hmean
  · intro hfit
    exact ⟨_, _, rfl, rfl, (toInt_mean_iff _ _).mpr (hfit _ _ rfl rfl)⟩

end

end CMedianFilter

/-! ## `AddTimeData` -/

/-- What a call does: its address is known, or it adds a sample, and may then set `nTimeOffset` from
a median. -/
inductive AddOutcome where
  | duplicate
  | added
  | recomputed (nMedian : Int64)
deriving DecidableEq

structure TimeOffsets where
  vTimeOffsets : CMedianFilter := .new 200 0
  nTimeOffset : Int64 := 0
  /-- A warning was given. -/
  fDone : Bool := false
deriving DecidableEq

/-- `AddTimeData`, from "Add data" on. -/
def TimeOffsets.addSample (s : TimeOffsets) (nOffsetSample : Int64) : AddOutcome × TimeOffsets :=
  let vTimeOffsets := s.vTimeOffsets.input nOffsetSample
  if 5 ≤ vTimeOffsets.size ∧ vTimeOffsets.size % 2 = 1 then
    let nMedian := vTimeOffsets.median
    -- Only let other nodes change our time by so much
    if abs64 nMedian < 70 * 60 then
      (.recomputed nMedian, { s with vTimeOffsets := vTimeOffsets, nTimeOffset := nMedian })
    else
      -- If nobody has a time different than ours but within 5 minutes of ours, give a warning
      let fMatch := vTimeOffsets.vSorted.any fun nOffset ↦ nOffset != 0 && abs64 nOffset < 5 * 60
      (.recomputed nMedian,
        { vTimeOffsets := vTimeOffsets, nTimeOffset := 0, fDone := s.fDone || !fMatch })
  else (.added, { s with vTimeOffsets := vTimeOffsets })

structure TimeData extends TimeOffsets where
  setKnown : Finset CNetAddr := ∅
deriving DecidableEq

/-- A call, with what `GetTime` returns in it. -/
structure TimeCall where
  ip : CNetAddr
  nTime : Int64
  now : Int64

namespace TimeData

def addTimeData (s : TimeData) (c : TimeCall) : AddOutcome × TimeData :=
  let nOffsetSample := c.nTime - c.now
  -- Ignore duplicates
  if c.ip ∈ s.setKnown then (.duplicate, s)
  else
    let r := s.toTimeOffsets.addSample nOffsetSample
    (r.1, { toTimeOffsets := r.2, setKnown := insert c.ip s.setKnown })

/-- What each of some calls does, and the state that it leaves. -/
def run (s : TimeData) : List TimeCall → List (AddOutcome × TimeData)
  | [] => []
  | c :: calls => s.addTimeData c :: run (s.addTimeData c).2 calls

end TimeData

/-- The samples that calls add: those of the addresses that are new. -/
def newSamples (setKnown : Finset CNetAddr) : List TimeCall → List Int64
  | [] => []
  | c :: calls =>
      if c.ip ∈ setKnown then newSamples setKnown calls
      else (c.nTime - c.now) :: newSamples (insert c.ip setKnown) calls

/-! ## Runs of samples -/

namespace TimeOffsets

variable {s : TimeOffsets} {samples : List Int64} {x : Int64} {n i : Nat}

/-- The state after some samples. -/
def after (samples : List Int64) : TimeOffsets :=
  samples.foldl (fun s nOffsetSample ↦ (s.addSample nOffsetSample).2) {}

/-- What each of some samples does. -/
def runSamples (s : TimeOffsets) : List Int64 → List (AddOutcome × TimeOffsets)
  | [] => []
  | x :: samples => s.addSample x :: runSamples (s.addSample x).2 samples

theorem after_concat (samples : List Int64) (x : Int64) :
    after (samples ++ [x]) = ((after samples).addSample x).2 := by
  rw [after, List.foldl_append]
  rfl

/-- The samples in the window, with the zero that it begins with. -/
def window (samples : List Int64) : List Int64 := ((0 : Int64) :: samples).rtake 200

/-- Whatever it does, a sample is put in. -/
theorem vTimeOffsets_addSample (s : TimeOffsets) (x : Int64) :
    (s.addSample x).2.vTimeOffsets = s.vTimeOffsets.input x := by
  rw [addSample]
  dsimp only
  split
  case isTrue =>
      split
      case isTrue => rfl
      case isFalse => rfl
  case isFalse => rfl

/-- **The window** holds the last 200 samples, in a filter that is sorted. -/
theorem vTimeOffsets_after (samples : List Int64) :
    (after samples).vTimeOffsets.vValues = window samples ∧
      (after samples).vTimeOffsets.nSize = 200 ∧ (after samples).vTimeOffsets.Sorted := by
  induction samples using List.reverseRecOn with
  | nil => exact ⟨rfl, rfl, CMedianFilter.sorted_new _ _⟩
  | append_singleton samples x ih =>
      obtain ⟨hvalues, hsize, -⟩ := ih
      rw [after_concat, vTimeOffsets_addSample]
      refine ⟨?_, hsize, CMedianFilter.sorted_input _ _⟩
      rw [CMedianFilter.vValues_input, hvalues, hsize, window, window,
        SlidingWindow.push_rtake (by decide)]
      rfl

theorem length_window (samples : List Int64) :
    (window samples).length = min 200 (samples.length + 1) :=
  SlidingWindow.length_rtake _ _

theorem size_after (samples : List Int64) :
    (after samples).vTimeOffsets.size = min 200 (samples.length + 1) := by
  rw [CMedianFilter.size, (vTimeOffsets_after samples).1, length_window]

/-- The size at which `nTimeOffset` is set. -/
def Recomputes (n : Nat) : Prop := 5 ≤ min 200 (n + 1) ∧ min 200 (n + 1) % 2 = 1

instance (n : Nat) : Decidable (Recomputes n) := inferInstanceAs (Decidable (_ ∧ _))

/-- **One sample.**  Where the size of the window is odd and at least 5, the offset is set from the
median; otherwise only the window changes. -/
theorem addSample_after (samples : List Int64) (x : Int64) :
    let median := (after (samples ++ [x])).vTimeOffsets.median
    ((after samples).addSample x).1 =
        (if Recomputes (samples.length + 1) then .recomputed median else .added) ∧
      (after (samples ++ [x])).nTimeOffset =
        if Recomputes (samples.length + 1) then
          if abs64 median < 70 * 60 then median else 0
        else (after samples).nTimeOffset := by
  have hsize := size_after (samples ++ [x])
  rw [after_concat, vTimeOffsets_addSample] at hsize
  rw [List.length_append, List.length_singleton] at hsize
  have hrec : Recomputes (samples.length + 1) ↔
      5 ≤ ((after samples).vTimeOffsets.input x).size ∧
        ((after samples).vTimeOffsets.input x).size % 2 = 1 := by
    rw [Recomputes, ← hsize]
  rw [after_concat, vTimeOffsets_addSample, addSample]
  simp only [hrec]
  split
  case isTrue h =>
      split
      case isTrue hlt => exact ⟨rfl, rfl⟩
      case isFalse hge => exact ⟨rfl, rfl⟩
  case isFalse h => exact ⟨rfl, rfl⟩

/-- A sample is never a duplicate. -/
theorem addSample_ne_duplicate (s : TimeOffsets) (x : Int64) : (s.addSample x).1 ≠ .duplicate := by
  rw [addSample]
  dsimp only
  split
  case isTrue =>
      split
      case isTrue => exact AddOutcome.noConfusion
      case isFalse => exact AddOutcome.noConfusion
  case isFalse => exact AddOutcome.noConfusion

theorem getElem?_runSamples (pre samples : List Int64) (i : Nat) :
    (runSamples (after pre) samples)[i]? =
      samples[i]?.map fun x ↦ (after (pre ++ samples.take i)).addSample x := by
  induction samples generalizing pre i with
  | nil => rfl
  | cons x samples ih =>
      rw [runSamples]
      cases i with
      | zero => rw [List.take_zero, List.append_nil]; rfl
      | succ i =>
          rw [List.getElem?_cons_succ, List.getElem?_cons_succ, List.take_succ_cons, ← after_concat,
            ih, List.append_assoc]
          rfl

end TimeOffsets

/-! ## Runs of calls -/

namespace TimeData

open TimeOffsets

variable {s : TimeData} {calls : List TimeCall} {k n i : Nat} {r : AddOutcome × TimeData}

/-- The calls that add a sample. -/
def adding (s : TimeData) (calls : List TimeCall) : List (AddOutcome × TimeData) :=
  (s.run calls).filter (·.1 != .duplicate)

theorem addTimeData_of_mem {c : TimeCall} (h : c.ip ∈ s.setKnown) :
    s.addTimeData c = (.duplicate, s) := by
  rw [addTimeData, if_pos h]

theorem addTimeData_of_notMem {c : TimeCall} (h : c.ip ∉ s.setKnown) :
    s.addTimeData c = ((s.toTimeOffsets.addSample (c.nTime - c.now)).1,
      { toTimeOffsets := (s.toTimeOffsets.addSample (c.nTime - c.now)).2,
        setKnown := insert c.ip s.setKnown }) := by
  rw [addTimeData, if_neg h]

/-- The calls that add a sample do with it what a run of samples does. -/
theorem map_adding (s : TimeData) (calls : List TimeCall) :
    (s.adding calls).map (fun r ↦ (r.1, r.2.toTimeOffsets)) =
      runSamples s.toTimeOffsets (newSamples s.setKnown calls) := by
  induction calls generalizing s with
  | nil => rfl
  | cons c calls ih =>
      rw [adding, run, newSamples]
      by_cases h : c.ip ∈ s.setKnown
      · rw [addTimeData_of_mem h, if_pos h, List.filter_cons_of_neg (by simp)]
        exact ih s
      · have hne := addSample_ne_duplicate s.toTimeOffsets (c.nTime - c.now)
        rw [addTimeData_of_notMem h, if_neg h, List.filter_cons_of_pos (by simpa using hne),
          List.map_cons, runSamples]
        congr 1
        exact ih _

/-- The state after some of the calls is that after their samples. -/
theorem toTimeOffsets_of_run (pre : List Int64) (hs : s.toTimeOffsets = after pre)
    (hr : (s.run calls)[k]? = some r) :
    r.2.toTimeOffsets = after (pre ++ newSamples s.setKnown (calls.take (k + 1))) := by
  induction calls generalizing s pre k with
  | nil => exact absurd hr (by simp [run])
  | cons c calls ih =>
      rw [run] at hr
      rw [List.take_succ_cons, newSamples]
      by_cases h : c.ip ∈ s.setKnown
      · rw [addTimeData_of_mem h] at hr
        rw [if_pos h]
        cases k with
        | zero =>
            obtain rfl := Option.some.inj hr
            rw [List.take_zero, newSamples, List.append_nil, hs]
        | succ k => exact ih pre hs hr
      · rw [addTimeData_of_notMem h] at hr
        rw [if_neg h, List.append_cons]
        have hnext : (s.toTimeOffsets.addSample (c.nTime - c.now)).2 =
            after (pre ++ [c.nTime - c.now]) := by
          rw [after_concat, hs]
        cases k with
        | zero =>
            obtain rfl := Option.some.inj hr
            rw [List.take_zero, newSamples, List.append_nil]
            exact hnext
        | succ k =>
            exact ih (s := { toTimeOffsets := (s.toTimeOffsets.addSample (c.nTime - c.now)).2,
                             setKnown := insert c.ip s.setKnown }) _ hnext hr

/-- Some of the calls have added some of the samples. -/
theorem newSamples_take (setKnown : Finset CNetAddr) (calls : List TimeCall) (k : Nat) :
    ∃ n ≤ (newSamples setKnown calls).length,
      newSamples setKnown (calls.take k) = (newSamples setKnown calls).take n := by
  induction calls generalizing setKnown k with
  | nil => exact ⟨0, le_rfl, by rw [List.take_nil, List.take_zero]; rfl⟩
  | cons c calls ih =>
      cases k with
      | zero => exact ⟨0, Nat.zero_le _, rfl⟩
      | succ k =>
          rw [List.take_succ_cons, newSamples, newSamples]
          by_cases h : c.ip ∈ setKnown
          · rw [if_pos h, if_pos h]
            exact ih setKnown k
          · obtain ⟨n, hn, heq⟩ := ih (insert c.ip setKnown) k
            rw [if_neg h, if_neg h]
            exact ⟨n + 1, Nat.succ_le_succ hn, by rw [heq, List.take_succ_cons]⟩

/-- Every state is that after some of the samples. -/
theorem exists_take_of_run (hr : (run {} calls)[k]? = some r) :
    ∃ n ≤ (newSamples ∅ calls).length,
      newSamples ∅ (calls.take (k + 1)) = (newSamples ∅ calls).take n ∧
      r.2.toTimeOffsets = after ((newSamples ∅ calls).take n) := by
  obtain ⟨n, hn, heq⟩ := newSamples_take ∅ calls (k + 1)
  refine ⟨n, hn, heq, ?_⟩
  rw [← heq]
  exact toTimeOffsets_of_run (s := {}) [] rfl hr

theorem getElem?_map_adding (calls : List TimeCall) (i : Nat) :
    (adding {} calls)[i]?.map (fun r ↦ (r.1, r.2.toTimeOffsets)) =
      (newSamples ∅ calls)[i]?.map fun x ↦
        (after ((newSamples ∅ calls).take i)).addSample x := by
  rw [← List.getElem?_map, map_adding]
  exact getElem?_runSamples [] _ i

/-- What the call that adds sample `i` does. -/
theorem adding_spec (hr : (adding {} calls)[i]? = some r) :
    i < (newSamples ∅ calls).length ∧
      r.1 = (if Recomputes (i + 1) then .recomputed r.2.vTimeOffsets.median else .added) ∧
      r.2.toTimeOffsets = after ((newSamples ∅ calls).take (i + 1)) ∧
      r.2.nTimeOffset =
        if Recomputes (i + 1) then
          if abs64 r.2.vTimeOffsets.median < 70 * 60 then r.2.vTimeOffsets.median else 0
        else (after ((newSamples ∅ calls).take i)).nTimeOffset := by
  have hmap := getElem?_map_adding calls i
  rw [hr, Option.map_some] at hmap
  obtain ⟨x, hx, hadd⟩ := Option.map_eq_some_iff.mp hmap.symm
  obtain ⟨hi, hget⟩ := List.getElem?_eq_some_iff.mp hx
  have hfst : ((after ((newSamples ∅ calls).take i)).addSample x).1 = r.1 := congrArg Prod.fst hadd
  have hsnd : ((after ((newSamples ∅ calls).take i)).addSample x).2 = r.2.toTimeOffsets :=
    congrArg Prod.snd hadd
  have hstep := addSample_after ((newSamples ∅ calls).take i) x
  have htake : (newSamples ∅ calls).take i ++ [x] = (newSamples ∅ calls).take (i + 1) := by
    rw [List.take_succ_eq_append_getElem hi, hget]
  have hafter : r.2.toTimeOffsets = after ((newSamples ∅ calls).take (i + 1)) := by
    rw [← hsnd, ← after_concat, htake]
  rw [htake, List.length_take, Nat.min_eq_left hi.le, ← hafter, hfst] at hstep
  exact ⟨hi, hstep.1, hafter, hstep.2⟩

theorem exists_adding (calls : List TimeCall) (i : Nat)
    (hi : i < (newSamples ∅ calls).length) :
    ∃ r, (adding {} calls)[i]? = some r := by
  have hmap := getElem?_map_adding calls i
  rw [List.getElem?_eq_getElem hi, Option.map_some] at hmap
  obtain ⟨r, hr, -⟩ := Option.map_eq_some_iff.mp hmap
  exact ⟨r, hr⟩

end TimeData

/-! ## What keeps the offset on track -/

section

variable {filter : CMedianFilter} {n : Int64}

theorem abs64_lt_iff (n : Int64) :
    abs64 n < 70 * 60 ↔ |n.toInt| < 70 * 60 ∨ n = Int64.minValue := by
  have hlt := n.toInt_lt
  have hle := n.le_toInt
  have hmin : n = Int64.minValue ↔ n.toInt = -2 ^ 63 := by
    rw [← Int64.toInt_inj, Int64.toInt_minValue]
  have hbound : (70 * 60 : Int64).toInt = 70 * 60 := rfl
  have hzero : (0 : Int64).toInt = 0 := rfl
  rw [Int64.lt_iff_toInt_lt, hbound, hmin, abs64]
  split
  case isTrue h =>
      rw [Int64.le_iff_toInt_le, hzero] at h
      rw [abs_of_nonneg h]
      omega
  case isFalse h =>
      rw [Int64.le_iff_toInt_le, hzero] at h
      rw [abs_of_neg (by omega), Int64.toInt_neg]
      by_cases heq : n.toInt = -2 ^ 63
      · rw [heq]
        decide
      · rw [Int.bmod_eq_of_le (by omega) (by omega)]
        omega

/-- The median is `INT64_MIN` if more than half of the values are. -/
theorem CMedianFilter.median_eq_minValue_iff (h : filter.Sorted)
    (hodd : filter.vValues.length % 2 = 1) :
    filter.median = Int64.minValue ↔
      filter.vValues.length / 2 < filter.vValues.count Int64.minValue := by
  have hmedian := isMedian_of_odd h hodd
  rw [IsMedian, if_pos hodd] at hmedian
  have hrank := le_atRank_iff (m := -2 ^ 63 + 1) hmedian
  have hcount : (filter.vValues.map Int64.toInt).countP (· < -2 ^ 63 + 1) =
      filter.vValues.count Int64.minValue := by
    rw [List.countP_map, List.count]
    apply List.countP_congr
    intro a _
    have hle := a.le_toInt
    rw [Function.comp_apply, decide_eq_true_iff, beq_iff_eq, ← Int64.toInt_inj,
      Int64.toInt_minValue]
    omega
  have hle := filter.median.le_toInt
  rw [hcount] at hrank
  rw [← Int64.toInt_inj, Int64.toInt_minValue, ← not_iff_not, Nat.not_lt, ← hrank]
  omega

end

end Fedoracoin
