import Fedoracoin.NetworkTime

/-!
# Whether the network time keeps tracking

What is asked of `nTimeOffset` over a run of `AddTimeData`: that it is bounded, and that of any two
samples that are added one after the other, one sets it from the median.  It is so in the runs with
at most 199 samples in which no median is `INT64_MIN` and no mean overflows, and in no others
(`offsetTracks_iff`).
-/

namespace Fedoracoin

open TimeOffsets TimeData

/-- A call has set `nTimeOffset` from the median of the window. -/
def FromMedian (r : AddOutcome × TimeData) : Prop :=
  ∃ m, r.1 = .recomputed m ∧ IsMedian r.2.vTimeOffsets.vValues m ∧
    r.2.nTimeOffset = if |m.toInt| < 70 * 60 then m else 0

/-- The network time tracks the peers over some calls. -/
structure OffsetTracks (calls : List TimeCall) : Prop where
  magnitude : ∀ r ∈ run {} calls, |r.2.nTimeOffset.toInt| < 70 * 60
  /-- Once five samples are stored, one of any two consecutive calls that add one does so. -/
  recomputes : ∀ (i : Nat) (r r' : AddOutcome × TimeData), (adding {} calls)[i]? = some r →
    (adding {} calls)[i + 1]? = some r' → 5 ≤ r.2.vTimeOffsets.size → FromMedian r ∨ FromMedian r'
  /-- The median is that of the last 200 values, with the one that the window begins with. -/
  median : ∀ (k : Nat) (r : AddOutcome × TimeData), (run {} calls)[k]? = some r →
    IsMedian (((0 : Int64) :: newSamples ∅ (calls.take (k + 1))).rtake 200)
      r.2.vTimeOffsets.median

/-- What the samples have to be for that. -/
structure Trackable (samples : List Int64) : Prop where
  length_le : samples.length ≤ 199
  /-- At the odd sizes from 5 on no more than half of the window is `INT64_MIN`. -/
  few_minValue : ∀ n ≤ samples.length, 5 ≤ n + 1 → (n + 1) % 2 = 1 →
    ((0 : Int64) :: samples.take n).count Int64.minValue ≤ (n + 1) / 2
  /-- At the even sizes the middle two can be added. -/
  middlesFit : ∀ n ≤ samples.length, ¬ (n + 1) % 2 = 1 → MiddlesFit ((0 : Int64) :: samples.take n)

variable {calls : List TimeCall} {samples : List Int64} {r : AddOutcome × TimeData} {n i k : Nat}

/-! ## Windows that are not full -/

theorem window_take (hlen : samples.length ≤ 199) (n : Nat) :
    window (samples.take n) = (0 : Int64) :: samples.take n := by
  apply SlidingWindow.rtake_of_le
  rw [List.length_cons, List.length_take]
  omega

theorem recomputes_iff (hn : n ≤ 199) : Recomputes n ↔ 5 ≤ n + 1 ∧ (n + 1) % 2 = 1 := by
  rw [Recomputes, Nat.min_eq_right (Nat.succ_le_succ hn)]

theorem vValues_take (hlen : samples.length ≤ 199) (n : Nat) :
    (after (samples.take n)).vTimeOffsets.vValues = (0 : Int64) :: samples.take n := by
  rw [(vTimeOffsets_after _).1, window_take hlen]

theorem length_vValues_take (hlen : samples.length ≤ 199) (hn : n ≤ samples.length) :
    (after (samples.take n)).vTimeOffsets.vValues.length = n + 1 := by
  rw [vValues_take hlen, List.length_cons, List.length_take, Nat.min_eq_left hn]

theorem median_take_eq_minValue_iff (hlen : samples.length ≤ 199) (hn : n ≤ samples.length)
    (hodd : (n + 1) % 2 = 1) :
    (after (samples.take n)).vTimeOffsets.median = Int64.minValue ↔
      (n + 1) / 2 < ((0 : Int64) :: samples.take n).count Int64.minValue := by
  have hsize := length_vValues_take hlen hn
  have hmin := CMedianFilter.median_eq_minValue_iff (vTimeOffsets_after (samples.take n)).2.2
    (hsize.symm ▸ hodd)
  rwa [hsize, vValues_take hlen] at hmin

/-! ## Where the samples are as they have to be -/

section

variable (h : Trackable samples)

include h

theorem Trackable.median_ne (hn : n ≤ samples.length) (hrec : Recomputes n) :
    (after (samples.take n)).vTimeOffsets.median ≠ Int64.minValue := by
  obtain ⟨hfive, hodd⟩ := (recomputes_iff (hn.trans h.length_le)).mp hrec
  rw [ne_eq, median_take_eq_minValue_iff h.length_le hn hodd, Nat.not_lt]
  exact h.few_minValue n hn hfive hodd

theorem Trackable.isMedian (hn : n ≤ samples.length) :
    IsMedian ((0 : Int64) :: samples.take n) (after (samples.take n)).vTimeOffsets.median := by
  have hsorted := (vTimeOffsets_after (samples.take n)).2.2
  have hsize := length_vValues_take h.length_le hn
  rw [← vValues_take h.length_le]
  by_cases hodd : (n + 1) % 2 = 1
  · exact CMedianFilter.isMedian_of_odd hsorted (hsize.symm ▸ hodd)
  · rw [CMedianFilter.isMedian_iff_of_even hsorted (hsize.symm ▸ hodd), vValues_take h.length_le]
    exact h.middlesFit n hn hodd

/-- The offset that a median gives is in bounds. -/
theorem Trackable.abs64_lt_iff (hn : n ≤ samples.length) (hrec : Recomputes n) :
    abs64 (after (samples.take n)).vTimeOffsets.median < 70 * 60 ↔
      |(after (samples.take n)).vTimeOffsets.median.toInt| < 70 * 60 := by
  rw [Fedoracoin.abs64_lt_iff, or_iff_left (h.median_ne hn hrec)]

theorem Trackable.magnitude (hn : n ≤ samples.length) :
    |(after (samples.take n)).nTimeOffset.toInt| < 70 * 60 := by
  induction n with
  | zero =>
      rw [List.take_zero]
      decide
  | succ n ih =>
      have hstep := addSample_after (samples.take n) samples[n]
      rw [← List.take_succ_eq_append_getElem hn, List.length_take,
        Nat.min_eq_left (Nat.le_of_succ_le hn)] at hstep
      rw [hstep.2]
      split
      case isTrue hrec =>
          split
          case isTrue hlt => exact (h.abs64_lt_iff hn hrec).mp hlt
          case isFalse => decide
      case isFalse => exact ih (Nat.le_of_succ_le hn)

end

theorem Trackable.fromMedian (h : Trackable (newSamples ∅ calls))
    (hr : (adding {} calls)[i]? = some r) (hrec : Recomputes (i + 1)) : FromMedian r := by
  obtain ⟨hi, hfst, hafter, hoffset⟩ := adding_spec hr
  have hmedian := h.isMedian (n := i + 1) hi
  have habs := h.abs64_lt_iff (n := i + 1) hi hrec
  rw [← vValues_take h.length_le] at hmedian
  rw [← hafter] at hmedian habs
  rw [if_pos hrec] at hfst hoffset
  refine ⟨_, hfst, hmedian, ?_⟩
  rw [hoffset]
  simp only [habs]

theorem Trackable.offsetTracks (h : Trackable (newSamples ∅ calls)) : OffsetTracks calls where
  magnitude r hr := by
    obtain ⟨k, hk⟩ := List.mem_iff_getElem?.mp hr
    obtain ⟨n, hn, -, hafter⟩ := exists_take_of_run hk
    rw [hafter]
    exact h.magnitude hn
  recomputes i r r' hr hr' hfive := by
    obtain ⟨hi, -, hafter, -⟩ := adding_spec hr
    obtain ⟨hi', -⟩ := adding_spec hr'
    have hlen := h.length_le
    rw [hafter, size_after, List.length_take, Nat.min_eq_left hi] at hfive
    by_cases hodd : (i + 1 + 1) % 2 = 1
    · exact Or.inl (h.fromMedian hr ((recomputes_iff (by omega)).mpr ⟨by omega, hodd⟩))
    · exact Or.inr (h.fromMedian hr' ((recomputes_iff (by omega)).mpr ⟨by omega, by omega⟩))
  median k r hr := by
    obtain ⟨n, hn, htake, hafter⟩ := exists_take_of_run hr
    have hwindow : ((0 : Int64) :: newSamples ∅ (calls.take (k + 1))).rtake 200 =
        (0 : Int64) :: (newSamples ∅ calls).take n := by
      rw [htake]
      exact window_take h.length_le n
    rw [hwindow, hafter]
    exact h.isMedian hn

/-! ## Where they are not -/

/-- With a full window nothing is set any more. -/
theorem not_recomputes (hn : 199 ≤ n) : ¬ Recomputes n := by
  rw [Recomputes, Nat.min_eq_left (Nat.succ_le_succ hn)]
  decide

theorem not_fromMedian (hr : (adding {} calls)[i]? = some r) (hi : 199 ≤ i + 1) :
    ¬ FromMedian r := by
  obtain ⟨-, hfst, -⟩ := adding_spec hr
  rw [if_neg (not_recomputes hi)] at hfst
  rintro ⟨m, hm, -⟩
  rw [hm] at hfst
  exact absurd hfst AddOutcome.noConfusion

theorem OffsetTracks.length_le (h : OffsetTracks calls) : (newSamples ∅ calls).length ≤ 199 := by
  by_contra hlong
  obtain ⟨r, hr⟩ := exists_adding calls 198 (by omega)
  obtain ⟨r', hr'⟩ := exists_adding calls 199 (by omega)
  obtain ⟨-, -, hafter, -⟩ := adding_spec hr
  have hsize : 5 ≤ r.2.vTimeOffsets.size := by
    rw [hafter, size_after, List.length_take]
    omega
  rcases h.recomputes 198 r r' hr hr' hsize with hmedian | hmedian
  · exact not_fromMedian hr (by decide) hmedian
  · exact not_fromMedian hr' (by decide) hmedian

theorem OffsetTracks.isMedian_vValues (h : OffsetTracks calls) (hr : r ∈ run {} calls) :
    IsMedian r.2.vTimeOffsets.vValues r.2.vTimeOffsets.median := by
  obtain ⟨k, hk⟩ := List.mem_iff_getElem?.mp hr
  obtain ⟨n, -, htake, hafter⟩ := exists_take_of_run hk
  have hwindow : ((0 : Int64) :: newSamples ∅ (calls.take (k + 1))).rtake 200 =
      r.2.vTimeOffsets.vValues := by
    rw [htake, hafter, (vTimeOffsets_after _).1, window]
  have hmedian := h.median k r hk
  rwa [hwindow] at hmedian

theorem OffsetTracks.trackable (h : OffsetTracks calls) : Trackable (newSamples ∅ calls) where
  length_le := h.length_le
  few_minValue n hn hfive hodd := by
    by_contra hmany
    obtain ⟨i, rfl⟩ := Nat.exists_eq_succ_of_ne_zero (n := n) (by omega)
    have hmin := (median_take_eq_minValue_iff h.length_le hn hodd).mpr (Nat.lt_of_not_le hmany)
    obtain ⟨r, hr⟩ := exists_adding calls i hn
    obtain ⟨-, -, hafter, hoffset⟩ := adding_spec hr
    have hrec : Recomputes (i + 1) := (recomputes_iff (hn.trans h.length_le)).mpr ⟨hfive, hodd⟩
    rw [← hafter] at hmin
    rw [if_pos hrec, hmin, if_pos (by decide)] at hoffset
    have hmagnitude := h.magnitude r (List.mem_of_mem_filter (List.mem_of_getElem? hr))
    rw [hoffset] at hmagnitude
    exact absurd hmagnitude (by decide)
  middlesFit n hn heven := by
    obtain ⟨i, rfl⟩ := Nat.exists_eq_succ_of_ne_zero (n := n) (by omega)
    obtain ⟨r, hr⟩ := exists_adding calls i hn
    obtain ⟨-, -, hafter, -⟩ := adding_spec hr
    have hmedian := h.isMedian_vValues (List.mem_of_mem_filter (List.mem_of_getElem? hr))
    have hsorted := (vTimeOffsets_after ((newSamples ∅ calls).take (i + 1))).2.2
    have hsize := length_vValues_take h.length_le hn
    rw [hafter, CMedianFilter.isMedian_iff_of_even hsorted (hsize.symm ▸ heven),
      vValues_take h.length_le] at hmedian
    exact hmedian

/-- **The network time.**  Over any calls `nTimeOffset` stays in bounds and is set from the median
by one of any two samples that follow each other, with a median that is that of the last 200 values,
if and only if there are at most 199 samples, no more than half of an odd window is `INT64_MIN`,
and the middle two of an even one can be added. -/
theorem offsetTracks_iff (calls : List TimeCall) :
    OffsetTracks calls ↔ Trackable (newSamples ∅ calls) :=
  ⟨fun h ↦ h.trackable, fun h ↦ h.offsetTracks⟩

/-- Peers that are told apart give a sample each. -/
theorem newSamples_of_nodup (setKnown : Finset CNetAddr) (calls : List TimeCall)
    (hnew : ∀ c ∈ calls, c.ip ∉ setKnown) (hnodup : (calls.map TimeCall.ip).Nodup) :
    newSamples setKnown calls = calls.map fun c ↦ c.nTime - c.now := by
  induction calls generalizing setKnown with
  | nil => rfl
  | cons c calls ih =>
      obtain ⟨hnot, hnodup⟩ := List.nodup_cons.mp hnodup
      rw [newSamples, if_neg (hnew c List.mem_cons_self), List.map_cons, ih _ ?_ hnodup]
      intro c' hc' hmem
      rcases Finset.mem_insert.mp hmem with heq | hknown
      · exact hnot (heq ▸ List.mem_map_of_mem hc')
      · exact hnew c' (List.mem_cons_of_mem _ hc') hknown

/-- The clocks of 200 peers are a minute ahead. -/
def minuteAhead : List TimeCall :=
  (List.range 200).map fun i ↦ { ip := BitVec.ofNat 128 i, nTime := 60, now := 0 }

theorem nodup_minuteAhead : (minuteAhead.map TimeCall.ip).Nodup := by
  rw [minuteAhead, List.map_map]
  refine List.nodup_range.map_on fun i hi j hj heq ↦ ?_
  rw [List.mem_range] at hi hj
  have hnat := congrArg BitVec.toNat heq
  simp only [Function.comp_apply, BitVec.toNat_ofNat] at hnat
  omega

/-- The samples 199 and 200 both meet a window of 200, and neither sets the offset. -/
theorem offsetTracks_fails : ¬ ∀ calls, OffsetTracks calls := by
  intro hall
  have hlen := (hall minuteAhead).length_le
  rw [newSamples_of_nodup ∅ minuteAhead (fun c _ ↦ Finset.notMem_empty c.ip) nodup_minuteAhead,
    List.length_map, minuteAhead, List.length_map, List.length_range] at hlen
  exact absurd hlen (by decide)

end Fedoracoin
