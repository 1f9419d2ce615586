import Fedoracoin.Retarget

/-!
# The average of the gravity well

`KimotoGravityWell` averages the targets of the latest blocks by moving the average towards each
target by its `i`-th part, with a quotient that is cut off towards zero.  An average between the
least and the greatest target stays there (`GravityInv`), whatever the test on floating-point
numbers says and so wherever the window ends.
-/

namespace Fedoracoin

open Truncation CBigNum

/-- Between the least and the greatest of the given targets. -/
def AmongTargets (blocks : Ancestry) (bn : CBigNum) : Prop :=
  ∃ lo ∈ blocks, ∃ hi ∈ blocks, lo.target ≤ bn ∧ bn ≤ hi.target

/-- Moving a part of the way towards `x` ends between the two. -/
theorem move_between (x a : Int) (i : Nat) :
    min x a ≤ (x - a).tdiv i + a ∧ (x - a).tdiv i + a ≤ max x a := by
  rcases Int.le_total a x with h | h
  · have hnonneg : 0 ≤ (x - a).tdiv i := Int.tdiv_nonneg (by omega) (Int.natCast_nonneg i)
    have hle : (x - a).tdiv i ≤ x - a := Int.tdiv_le_self _ (by omega)
    omega
  · have hneg : (x - a).tdiv i = -(a - x).tdiv i := by
      rw [← Int.neg_tdiv, Int.neg_sub]
    have hnonneg : 0 ≤ (a - x).tdiv i := Int.tdiv_nonneg (by omega) (Int.natCast_nonneg i)
    have hle : (a - x).tdiv i ≤ a - x := Int.tdiv_le_self _ (by omega)
    omega

section

variable {blocks : Ancestry} {bn : CBigNum}

theorem amongTargets_singleton (reading : TargetIndex) :
    AmongTargets [reading] reading.target :=
  ⟨reading, List.mem_singleton_self _, reading, List.mem_singleton_self _, le_refl _, le_refl _⟩

/-- One more target. -/
theorem AmongTargets.move (h : AmongTargets blocks bn) (reading : TargetIndex) (i : Nat) :
    AmongTargets (blocks ++ [reading]) ((reading.target - bn).tdiv i + bn) := by
  obtain ⟨lo, hlo, hi', hhi, hle, hle'⟩ := h
  obtain ⟨hmin, hmax⟩ := move_between reading.target bn i
  have hlo' := List.mem_append_left [reading] hlo
  have hhi' := List.mem_append_left [reading] hhi
  have hlast : reading ∈ blocks ++ [reading] := List.mem_append_right _ (List.mem_singleton_self _)
  rcases Int.le_total reading.target bn with hx | hx
  · rw [min_eq_left hx] at hmin
    rw [max_eq_right hx] at hmax
    exact ⟨reading, hlast, hi', hhi', hmin, hmax.trans hle'⟩
  · rw [min_eq_right hx] at hmin
    rw [max_eq_left hx] at hmax
    exact ⟨lo, hlo', reading, hlast, hle.trans hmin, hmax⟩

end

/-! ## The loop -/

section

variable {params : GravityParams} {pindexLast : TargetIndex} {pprev : Ancestry}
  {s s' : GravityState} {k : Nat}

/-- What holds before each iteration, `k` blocks having been read. -/
structure GravityInv (params : GravityParams) (chain : Ancestry) (k : Nat) (s : GravityState) :
    Prop where
  reading : s.blockReading = chain.drop k
  i_eq : s.i = k + 1
  mass : s.pastBlocksMass = k
  prev : s.pastDifficultyAveragePrev = s.pastDifficultyAverage
  lt : k < chain.length
  le_max : k ≤ params.pastBlocksMax
  average : 0 < k → AmongTargets (chain.take k) s.pastDifficultyAverage
  actual : 0 ≤ s.pastRateActualSeconds
  target : s.pastRateTargetSeconds = (params.targetBlocksSpacingSeconds * k : Nat)

/-- What holds when the loop is left. -/
structure GravityWindow (params : GravityParams) (chain : Ancestry) (s : GravityState) : Prop where
  min_le : min params.pastBlocksMin (chain.length - 1) ≤ s.pastBlocksMass
  le_max : s.pastBlocksMass ≤ params.pastBlocksMax
  average : AmongTargets (chain.take s.pastBlocksMass) s.pastDifficultyAverage
  actual : 0 ≤ s.pastRateActualSeconds
  target : 0 ≤ s.pastRateTargetSeconds

/-- What the callers of `KimotoGravityWell` see to. -/
structure GravityParams.Ok (params : GravityParams) : Prop where
  min_le : params.pastBlocksMin ≤ params.pastBlocksMax
  pos : 0 < params.pastBlocksMax
  lt : params.pastBlocksMax + 1 < 2 ^ 32
  spacing : params.targetBlocksSpacingSeconds * params.pastBlocksMax < 2 ^ 63

theorem gravityInv_init (params : GravityParams) (chain : Ancestry) (hne : chain ≠ []) :
    GravityInv params chain 0 { blockReading := chain } where
  reading := rfl
  i_eq := rfl
  mass := rfl
  prev := rfl
  lt := List.length_pos_of_ne_nil hne
  le_max := Nat.zero_le _
  average h := absurd h (lt_irrefl 0)
  actual := le_refl _
  target := rfl

/-- The average of an iteration. -/
theorem gravityAverage_spec {chain : Ancestry} (h : GravityInv params chain k s)
    {reading : TargetIndex} (hread : chain[k]? = some reading) :
    ∃ average, gravityAverage s reading = .ok average ∧
      AmongTargets (chain.take (k + 1)) average := by
  obtain ⟨hlt, rfl⟩ := List.getElem?_eq_some_iff.mp hread
  rw [List.take_succ_eq_append_getElem hlt, gravityAverage, h.i_eq]
  rcases Nat.eq_zero_or_pos k with rfl | hk
  · exact ⟨_, if_pos rfl, amongTargets_singleton _⟩
  · have hne : ((k + 1 : Nat) : Int) ≠ 0 := by omega
    rw [if_neg (by omega), h.prev, CBigNum.div, if_neg hne]
    exact ⟨_, rfl, (h.average hk).move _ _⟩

/-- The number of seconds aimed at does not overflow. -/
theorem toInt_spacing (hok : params.Ok) (hk : k ≤ params.pastBlocksMax) :
    (BitVec.ofNat 64 (params.targetBlocksSpacingSeconds * k)).toInt =
      (params.targetBlocksSpacingSeconds * k : Nat) := by
  have hlt : params.targetBlocksSpacingSeconds * k < 2 ^ 63 :=
    (Nat.mul_le_mul_left _ hk).trans_lt hok.spacing
  have hmod : (BitVec.ofNat 64 (params.targetBlocksSpacingSeconds * k)).toNat =
      params.targetBlocksSpacingSeconds * k := by
    rw [BitVec.toNat_ofNat, Nat.mod_eq_of_lt (hlt.trans (by norm_num))]
  rw [BitVec.toInt_eq_toNat_of_lt (by omega), hmod]

/-- A block is read, and the loop goes on. -/
theorem GravityInv.read {chain : Ancestry} (h : GravityInv params chain k s)
    (pindexLast reading : TargetIndex) {average : CBigNum} (hok : params.Ok)
    (haverage : AmongTargets (chain.take (k + 1)) average)
    (hk : k + 1 ≤ params.pastBlocksMax) (hlt : k + 1 < chain.length) :
    GravityInv params chain (k + 1)
      { gravityRead params pindexLast reading s average with
        blockReading := chain.drop (k + 1)
        i := (s.i + 1) % 2 ^ 32 } where
  reading := rfl
  i_eq := by
    have hmax := hok.lt
    rw [h.i_eq, Nat.mod_eq_of_lt (by omega)]
  mass := congrArg (· + 1) h.mass
  prev := rfl
  lt := hlt
  le_max := hk
  average _ := haverage
  actual := by
    rw [gravityRead]
    split
    · exact le_refl _
    · exact Int.not_lt.mp ‹_›
  target := by
    rw [gravityRead, h.mass]
    exact toInt_spacing hok hk

/-- An invariant that holds with enough blocks read is what holds at the end. -/
theorem GravityInv.window {chain : Ancestry} (h : GravityInv params chain k s) (hk : 0 < k)
    (hmin : min params.pastBlocksMin (chain.length - 1) ≤ k) : GravityWindow params chain s where
  min_le := by rwa [h.mass]
  le_max := by
    rw [h.mass]
    exact h.le_max
  average := by
    rw [h.mass]
    exact h.average hk
  actual := h.actual
  target := by
    rw [h.target]
    exact Int.natCast_nonneg _

/-- One iteration: the loop is left with a window that is long enough, or goes on. -/
theorem gravityBody_spec {chain : Ancestry} (hok : params.Ok) (hlong : 1 < chain.length)
    (h : GravityInv params chain k s) :
    (∃ s', gravityBody params pindexLast s = some (.inl (.ok s')) ∧
        GravityWindow params chain s') ∨
      ∃ s', gravityBody params pindexLast s = some (.inr s') ∧
        GravityInv params chain (k + 1) s' := by
  have hdrop := List.drop_eq_getElem_cons h.lt
  have hlen : (chain.drop (k + 1)).length = chain.length - (k + 1) := List.length_drop
  have hmax := hok.min_le
  have hpos := hok.pos
  have hle := h.le_max
  rw [gravityBody, h.reading, hdrop]
  dsimp only
  by_cases hgenesis : (chain.drop (k + 1)).length = 0
  · left
    refine ⟨s, if_pos hgenesis, h.window (by omega) (by omega)⟩
  · rw [if_neg hgenesis, h.i_eq]
    by_cases hbound : 0 < params.pastBlocksMax ∧ params.pastBlocksMax < k + 1
    · left
      refine ⟨s, if_pos hbound, h.window (by omega) (by omega)⟩
    · obtain ⟨average, haverage, hamong⟩ := gravityAverage_spec h (List.getElem?_eq_getElem h.lt)
      have hk : k + 1 ≤ params.pastBlocksMax := by
        rw [not_and_or] at hbound
        omega
      have hnext := h.read pindexLast chain[k] hok hamong hk (by omega)
      rw [if_neg hbound, haverage]
      dsimp only
      split
      case isTrue hbreak =>
        left
        have hwindow := hnext.window (Nat.succ_pos k) (by
          rw [gravityRead, h.mass] at hbreak
          exact (min_le_left _ _).trans hbreak.1)
        exact ⟨_, rfl, hwindow.min_le, hwindow.le_max, hwindow.average, hwindow.actual,
          hwindow.target⟩
      case isFalse =>
        right
        rw [if_neg (by rintro hnil; exact hgenesis (by rw [hnil]; rfl))]
        exact ⟨_, rfl, hnext⟩

/-- The loop ends with a window. -/
theorem gravityLoop_spec (pindexLast : TargetIndex) {chain : Ancestry} (hok : params.Ok)
    (hlong : 1 < chain.length) :
    ∃ s, gravityLoop params pindexLast chain = .ok s ∧ GravityWindow params chain s := by
  have hinit := gravityInv_init params chain (List.ne_nil_of_length_pos (by omega))
  have hbody : ∀ s, (∃ k, GravityInv params chain k s) →
      (∃ r, gravityBody params pindexLast s = some (.inl r) ∧
        ∃ s', r = .ok s' ∧ GravityWindow params chain s') ∨
      ∃ s', gravityBody params pindexLast s = some (.inr s') ∧
        (∃ k, GravityInv params chain k s') ∧
        s'.blockReading.length < s.blockReading.length := by
    rintro s ⟨k, h⟩
    rcases gravityBody_spec hok hlong h with ⟨s', hs', hwindow⟩ | ⟨s', hs', hinv⟩
    · exact Or.inl ⟨.ok s', hs', s', rfl, hwindow⟩
    · refine Or.inr ⟨s', hs', ⟨k + 1, hinv⟩, ?_⟩
      have hlt := h.lt
      rw [hinv.reading, h.reading, List.length_drop, List.length_drop]
      omega
  obtain ⟨r, hr, s, rfl, hs⟩ := Loop.run_spec hbody ⟨0, hinit⟩ (Nat.lt_succ_self _)
  refine ⟨s, ?_, hs⟩
  rw [gravityLoop, hr]
  rfl

/-! ## The scaled average -/

/-- Capping and rounding do not raise a number that is not negative. -/
theorem setCompact_capped (x : CBigNum) :
    setCompact (getCompact (if bnProofOfWorkLimit < x then bnProofOfWorkLimit else x)) ≤
        bnProofOfWorkLimit ∧
      (0 ≤ x →
        setCompact (getCompact (if bnProofOfWorkLimit < x then bnProofOfWorkLimit else x)) ≤
          x) := by
  rcases lt_or_ge x 0 with hneg | hnonneg
  · have hpos : (0 : Int) < bnProofOfWorkLimit := by decide
    rw [if_neg (hneg.trans hpos).not_gt]
    exact ⟨(setCompact_getCompact_nonpos hneg).trans hpos.le, fun h ↦ absurd h hneg.not_ge⟩
  · obtain ⟨n, rfl⟩ := Int.eq_ofNat_of_zero_le hnonneg
    obtain ⟨R, hR, hfloor⟩ := getCompact_capped n
    rw [hR, bnProofOfWorkLimit_eq]
    refine ⟨Int.ofNat_le.mpr (hfloor.le.trans (min_le_left _ _)), fun _ ↦ ?_⟩
    exact Int.ofNat_le.mpr (hfloor.le.trans (min_le_right _ _))

/-- What follows the loop: no division is by zero, and the result is capped and rounded. -/
theorem gravityScale_spec {chain : Ancestry} (h : GravityWindow params chain s) :
    ∃ c, gravityScale s = .ok c ∧ setCompact c ≤ bnProofOfWorkLimit ∧
      (0 ≤ s.pastDifficultyAverage → s.pastRateActualSeconds ≠ 0 →
        s.pastRateTargetSeconds ≠ 0 →
        setCompact c * s.pastRateTargetSeconds ≤
          s.pastDifficultyAverage * s.pastRateActualSeconds) := by
  by_cases hscale : s.pastRateActualSeconds ≠ 0 ∧ s.pastRateTargetSeconds ≠ 0
  · obtain ⟨hcap, hle⟩ := setCompact_capped
      ((s.pastDifficultyAverage * s.pastRateActualSeconds).tdiv s.pastRateTargetSeconds)
    refine ⟨_, ?_, hcap, ?_⟩
    · rw [gravityScale, if_pos hscale, CBigNum.div, if_neg hscale.2]
      rfl
    · intro havg _ _
      have hnonneg := Int.mul_nonneg havg h.actual
      have hquot := Int.tdiv_nonneg hnonneg h.target
      calc _ ≤ (s.pastDifficultyAverage * s.pastRateActualSeconds).tdiv s.pastRateTargetSeconds *
            s.pastRateTargetSeconds := Int.mul_le_mul_of_nonneg_right (hle hquot) h.target
        _ ≤ s.pastDifficultyAverage * s.pastRateActualSeconds := by
            rw [Int.tdiv_eq_ediv_of_nonneg hnonneg]
            exact Int.ediv_mul_le _ hscale.2
  · refine ⟨_, ?_, (setCompact_capped s.pastDifficultyAverage).1, ?_⟩
    · rw [gravityScale, if_neg hscale]
      rfl
    · intro _ hactual htarget
      exact absurd ⟨hactual, htarget⟩ hscale

/-- The invariant of the iterations that do not end the loop. -/
theorem gravityInv_after {chain : Ancestry} (hok : params.Ok) (hlong : 1 < chain.length)
    (h : Loop.after (gravityBody params pindexLast) k { blockReading := chain } = some s) :
    GravityInv params chain k s := by
  have hinit := gravityInv_init params chain (List.ne_nil_of_length_pos (by omega))
  rw [← Nat.zero_add k]
  refine Loop.after_induct ?_ hinit h
  intro j s s' hinv hs'
  rcases gravityBody_spec hok hlong hinv with ⟨s₁, hs₁, _⟩ | ⟨s₁, hs₁, hinv'⟩
  · exact absurd (hs₁.symm.trans hs') (by simp)
  · obtain rfl := Sum.inr.inj (Option.some.inj (hs₁.symm.trans hs'))
    exact hinv'

end

/-! ## The gravity well -/

/-- The gravity well does not fail, and its result is not above the limit. -/
theorem kimotoGravityWell_le {params : GravityParams} (hok : params.Ok) (pindexLast : Ancestry) :
    ∃ c, kimotoGravityWell params pindexLast = .ok c ∧ setCompact c ≤ bnProofOfWorkLimit := by
  have hlimit := (setCompact_capped bnProofOfWorkLimit).1
  cases pindexLast with
  | nil => exact ⟨_, rfl, hlimit⟩
  | cons pindexLast pprev =>
      rw [kimotoGravityWell]
      split
      case isTrue => exact ⟨_, rfl, hlimit⟩
      case isFalse hlong =>
        rw [not_or] at hlong
        obtain ⟨s, hs, hwindow⟩ := gravityLoop_spec pindexLast hok
          (show 1 < (pindexLast :: pprev).length by rw [List.length_cons]; omega)
        obtain ⟨c, hc, hcap, _⟩ := gravityScale_spec hwindow
        refine ⟨c, ?_, hcap⟩
        rw [hs]
        exact hc

/-- The average after each iteration is between the least and the greatest of the targets read,
whatever the test on floating-point numbers says; the gravity well does not fail, its window has
between `PastBlocksMin` blocks, or all if there are fewer, and `PastBlocksMax` blocks, and its
result is not above the limit, nor above the average scaled with the time it took if the targets
are not negative, as `CheckProofOfWork` sees to. -/
theorem kimotoGravityWell_average (params : GravityParams) (pindexLast : TargetIndex)
    (pprev : Ancestry) (hok : params.Ok) :
    (∀ k s, 0 < k →
      Loop.after (gravityBody params pindexLast) k { blockReading := pindexLast :: pprev } =
        some s →
      s.pastBlocksMass = k ∧
        AmongTargets ((pindexLast :: pprev).take k) s.pastDifficultyAverage) ∧
    ∃ c, kimotoGravityWell params (pindexLast :: pprev) = .ok c ∧
      setCompact c ≤ bnProofOfWorkLimit ∧
      (pprev.length ≠ 0 → params.pastBlocksMin ≤ pprev.length →
        ∃ s, gravityLoop params pindexLast (pindexLast :: pprev) = .ok s ∧
          gravityScale s = .ok c ∧
          AmongTargets ((pindexLast :: pprev).take s.pastBlocksMass) s.pastDifficultyAverage ∧
          min params.pastBlocksMin pprev.length ≤ s.pastBlocksMass ∧
          s.pastBlocksMass ≤ params.pastBlocksMax ∧
          ((∀ b ∈ (pindexLast :: pprev).take s.pastBlocksMass, 0 ≤ b.target) →
            s.pastRateActualSeconds ≠ 0 → s.pastRateTargetSeconds ≠ 0 →
            setCompact c * s.pastRateTargetSeconds ≤
              s.pastDifficultyAverage * s.pastRateActualSeconds)) := by
  by_cases hgenesis : pprev.length = 0
  · obtain rfl := List.length_eq_zero_iff.mp hgenesis
    refine ⟨fun k s hk h ↦ ?_, _, rfl, (setCompact_capped bnProofOfWorkLimit).1, ?_⟩
    · obtain ⟨k, rfl⟩ := Nat.exists_eq_succ_of_ne_zero hk.ne'
      exact absurd h (by simp [Loop.after, gravityBody])
    · intro hne
      exact absurd rfl hne
  · have hlong : 1 < (pindexLast :: pprev).length := by
      rw [List.length_cons]
      omega
    constructor
    · intro k s hk h
      have hinv := gravityInv_after hok hlong h
      exact ⟨hinv.mass, hinv.average hk⟩
    · by_cases hshort : pprev.length < params.pastBlocksMin
      · refine ⟨_, if_pos (Or.inr hshort), (setCompact_capped bnProofOfWorkLimit).1, ?_⟩
        intro _ hmin
        exact absurd hmin (Nat.not_le.mpr hshort)
      · obtain ⟨s, hs, hwindow⟩ := gravityLoop_spec pindexLast hok hlong
        obtain ⟨c, hc, hcap, hscaled⟩ := gravityScale_spec hwindow
        refine ⟨c, ?_, hcap, fun _ _ ↦ ⟨s, hs, hc, hwindow.average, hwindow.min_le,
          hwindow.le_max, fun hnonneg ↦ hscaled ?_⟩⟩
        · rw [kimotoGravityWell, if_neg (not_or.mpr ⟨hgenesis, hshort⟩), hs]
          exact hc
        · obtain ⟨lo, hlo, _, _, hle, _⟩ := hwindow.average
          exact (hnonneg lo hlo).trans hle

/-- The arguments of `GetNextWorkRequired_V3`. -/
theorem gravityParamsV3_ok (eventHorizon : Nat → Int → Int → Bool) :
    (gravityParamsV3 eventHorizon).Ok where
  min_le := show 360 ≤ 1440 by norm_num
  pos := show 0 < 1440 by norm_num
  lt := show 1440 + 1 < 2 ^ 32 by norm_num
  spacing := show 60 * 1440 < 2 ^ 63 by norm_num

/-- 200 blocks, and 200 before them whose targets are greater. -/
def unevenAncestry : Ancestry :=
  List.replicate 200 ⟨0, 0x1d00ffff⟩ ++ List.replicate 200 ⟨0, 0x1e00ffff⟩

/-- The window reaches back to both kinds of blocks. -/
theorem kimotoGravityWell_average_sample :
    ∃ c s, getNextWorkRequiredV3 (fun _ _ _ ↦ true) (⟨0, 0x1e0ffff0⟩ :: unevenAncestry) = .ok c ∧
      setCompact c ≤ bnProofOfWorkLimit ∧
      gravityLoop (gravityParamsV3 fun _ _ _ ↦ true) ⟨0, 0x1e0ffff0⟩
        (⟨0, 0x1e0ffff0⟩ :: unevenAncestry) = .ok s ∧
      AmongTargets ((⟨0, 0x1e0ffff0⟩ :: unevenAncestry).take s.pastBlocksMass)
        s.pastDifficultyAverage ∧ 360 ≤ s.pastBlocksMass := by
  obtain ⟨_, c, hc, hcap, hwindow⟩ := kimotoGravityWell_average
    (gravityParamsV3 fun _ _ _ ↦ true) ⟨0, 0x1e0ffff0⟩ unevenAncestry (gravityParamsV3_ok _)
  have hlength : unevenAncestry.length = 400 := by
    rw [unevenAncestry, List.length_append, List.length_replicate, List.length_replicate]
  rw [hlength] at hwindow
  obtain ⟨s, hs, -, haverage, hmin, -⟩ := hwindow (by norm_num) (show 360 ≤ 400 by norm_num)
  exact ⟨c, s, hc, hcap, hs, haverage, hmin⟩

end Fedoracoin
