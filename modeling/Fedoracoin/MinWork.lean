import Fedoracoin.Gravity
import Fedoracoin.Lib.Run

/-!
# The filter against the last checkpoint

`CheckBlockHeader` rejects a block that does not extend the tip if it is dated before the last
checkpoint, or has a target that `ComputeMinWork` takes to be too easy so soon after it.  In
closed form `ComputeMinWork` is a factor of four for each forty minutes begun
(`computeMinWork_eq`), and the targets that `GetNextWorkRequired` asks for may rise faster: the
timestamps of blocks need not rise, the first window after the checkpoint reaches back before
it, and within one window a factor `x / 600` beats four in forty minutes for every time span `x`
between twenty and forty minutes.
-/

namespace Fedoracoin

open Truncation CBigNum

/-! ## The rules for a block on a chain -/

def nMedianTimeSpan : Nat := 11

def Ancestry.getMedianTimePast (pindex : Ancestry) : Int :=
  let times := ((pindex.take nMedianTimeSpan).map TargetIndex.getBlockTime).insertionSort (· ≤ ·)
  times.getD (times.length / 2) 0

/-- The rules of `AcceptBlockHeader` that depend on the chain. -/
def ContextuallyValid (eventHorizon : Nat → Int → Int → Bool) (pindexPrev : Ancestry)
    (block : TargetIndex) : Prop :=
  getNextWorkRequired false eventHorizon block.nTime pindexPrev = .ok block.nBits ∧
    pindexPrev.getMedianTimePast < block.getBlockTime

/-- A valid block on top of a chain. -/
def Extends (eventHorizon : Nat → Int → Int → Bool) (pindexPrev : Ancestry) (block : TargetIndex)
    (pindex : Ancestry) : Prop :=
  ContextuallyValid eventHorizon pindexPrev block ∧ pindex = block :: pindexPrev

/-- The tests of `CheckBlockHeader` against the last checkpoint, on the main network. -/
def checkAgainstCheckpoint (pcheckpoint block : TargetIndex) : Except Failure Unit := do
  let deltaTime := block.getBlockTime - pcheckpoint.nTime
  failIf (decide (deltaTime < 0)) (.dos 100 rejectCheckpoint "time-too-old")
  let bnRequired := setCompact
    (computeMinWork false bnProofOfWorkLimit pcheckpoint.nBits deltaTime)
  failIf (decide (bnRequired < block.target)) (.dos 100 rejectInvalid "bad-diffbits")

/-! ## `ComputeMinWork` in closed form -/

/-- The periods of forty minutes begun. -/
def periodsBegun (nTime : Nat) : Nat := (nTime + 2399) / 2400

theorem periodsBegun_add_one {nTime : Int} (hpos : 0 < nTime) :
    periodsBegun nTime.toNat = periodsBegun (nTime - nTargetTimespan * 4).toNat + 1 := by
  have hspan : nTargetTimespan * 4 = 2400 := rfl
  rw [periodsBegun, periodsBegun, hspan]
  omega

theorem periodsBegun_of_nonpos {nTime : Int} (h : nTime ≤ 0) : periodsBegun nTime.toNat = 0 := by
  rw [Int.toNat_of_nonpos h]
  rfl

theorem minWorkLoop_eq {fuel x : Nat} {nTime : Int} (hfuel : nTime.toNat ≤ fuel) :
    min (powLimit : Int) (minWorkLoop bnProofOfWorkLimit fuel x nTime) =
      (min powLimit (x * 4 ^ periodsBegun nTime.toNat) : Nat) := by
  induction fuel generalizing x nTime with
  | zero =>
      rw [minWorkLoop, periodsBegun_of_nonpos (by omega), pow_zero, Nat.mul_one, Nat.cast_min]
  | succ fuel ih =>
      rw [minWorkLoop]
      split
      case isTrue hloop =>
        have hspan : nTargetTimespan * 4 = 2400 := rfl
        have hx : (x : Int) * 4 = (x * 4 : Nat) := by rw [Nat.cast_mul]; rfl
        rw [hx, ih (by omega), periodsBegun_add_one hloop.1, pow_succ', Nat.mul_assoc]
      case isFalse hend =>
        rw [not_and_or, Int.not_lt, Int.not_lt, bnProofOfWorkLimit_eq, Int.ofNat_le] at hend
        rcases hend with hend | hend
        · rw [periodsBegun_of_nonpos hend, pow_zero, Nat.mul_one, Nat.cast_min]
        · -- at the limit the factors to come do not matter
          have hle : powLimit ≤ x * 4 ^ periodsBegun nTime.toNat :=
            hend.trans (Nat.le_mul_of_pos_right x (Nat.pow_pos (by norm_num)))
          rw [min_eq_left (Int.ofNat_le.mpr hend), min_eq_left hle]

/-- `ComputeMinWork` on the main network. -/
theorem computeMinWork_eq {nBase T : Nat} (hT : setCompact nBase = T) (nTime : Int) :
    ∃ R : Nat, setCompact (computeMinWork false bnProofOfWorkLimit nBase nTime) = R ∧
      CompactFloor (min powLimit (T * 4 ^ periodsBegun nTime.toNat)) R := by
  have hcap (r : CBigNum) : (if bnProofOfWorkLimit < r then bnProofOfWorkLimit else r) =
      min (powLimit : Int) r := by
    rw [bnProofOfWorkLimit_eq]
    split
    case isTrue h => rw [min_eq_left h.le]
    case isFalse h => rw [min_eq_right (Int.not_lt.mp h)]
  rw [computeMinWork, if_neg (by simp), hT]
  dsimp only
  rw [hcap, minWorkLoop_eq (le_refl _)]
  exact setCompact_getCompact _ (numBytes_lt_of_le_powLimit (min_le_left _ _))

/-! ## Targets along a chain -/

variable {eventHorizon : Nat → Int → Int → Bool} {pindexPrev pindex : Ancestry}
  {block : TargetIndex} {blocks : List TargetIndex} {n T : Nat}

/-- The target of the newest block. -/
def Ancestry.target (pindex : Ancestry) : CBigNum := (pindex.head?.map TargetIndex.target).getD 0

theorem getNextWorkRequired_of_lt {testNet : Bool} {nTime : Nat} (hge : 2500 ≤ pindex.length)
    (hlt : pindex.length < 51000) :
    getNextWorkRequired testNet eventHorizon nTime pindex =
      getNextWorkRequiredV2 testNet nTime pindex := by
  rw [getNextWorkRequired, if_neg (List.ne_nil_of_length_pos (by omega)), if_neg (by omega),
    if_pos hlt]

theorem getNextWorkRequired_of_ge {testNet : Bool} {nTime : Nat} (hge : 51000 ≤ pindex.length) :
    getNextWorkRequired testNet eventHorizon nTime pindex =
      getNextWorkRequiredV3 eventHorizon pindex := by
  rw [getNextWorkRequired, if_neg (List.ne_nil_of_length_pos (by omega)), if_neg (by omega),
    if_neg (by omega)]

theorem retarget_le {nBits c : Nat} {a : Int} (h : retarget nBits a = .ok c) :
    setCompact c ≤ bnProofOfWorkLimit := by
  rw [retarget, CBigNum.div, if_neg (by decide)] at h
  rw [← Except.ok.inj h]
  exact (setCompact_capped _).1

/-- On the main network the next target is not above the limit if that of the parent is not. -/
theorem ContextuallyValid.target_le (h : ContextuallyValid eventHorizon pindexPrev block)
    (hlen : 2500 ≤ pindexPrev.length) (hle : pindexPrev.target ≤ bnProofOfWorkLimit) :
    block.target ≤ bnProofOfWorkLimit := by
  obtain ⟨pindexLast, pprev, rfl⟩ :=
    List.exists_cons_of_length_pos (show 0 < pindexPrev.length by omega)
  have hbits := h.1
  rcases Nat.lt_or_ge (pindexLast :: pprev).length 51000 with hlt | hge
  · rw [getNextWorkRequired_of_lt hlen hlt] at hbits
    by_cases hadjust : (pprev.length + 1) % nInterval = 0
    · obtain ⟨t, ht⟩ := actualTimespan_eq_ok pindexLast hadjust
      rw [getNextWorkRequiredV2_adjust hadjust ht] at hbits
      exact retarget_le hbits
    · rw [getNextWorkRequiredV2_between hadjust] at hbits
      rwa [TargetIndex.target, ← Except.ok.inj hbits]
  · rw [getNextWorkRequired_of_ge hge] at hbits
    obtain ⟨c, hc, hcap⟩ := kimotoGravityWell_le (gravityParamsV3_ok eventHorizon)
      (pindexLast :: pprev)
    rwa [TargetIndex.target, ← Except.ok.inj (hc.symm.trans hbits)]

/-- A run of valid blocks keeps the length and the target within their bounds. -/
theorem target_le_of_run (hrun : Run (Extends eventHorizon) pindexPrev blocks pindex)
    (hlen : 2500 ≤ pindexPrev.length) (hle : pindexPrev.target ≤ bnProofOfWorkLimit) :
    2500 ≤ pindex.length ∧ pindex.target ≤ bnProofOfWorkLimit := by
  apply hrun.invariant (I := fun pindex ↦ 2500 ≤ pindex.length ∧
    pindex.target ≤ bnProofOfWorkLimit) _ ⟨hlen, hle⟩
  rintro pindex block _ ⟨hlen, hle⟩ ⟨hvalid, rfl⟩
  constructor
  · exact hlen.trans (Nat.le_succ _)
  · exact hvalid.target_le hlen hle

/-! ## The retargets since a checkpoint -/

/-- The limited time spans of the retargets of the second version, newest first, for the blocks
with at least `n` ancestors. -/
def spansSince (n : Nat) : Ancestry → List Nat
  | [] => []
  | [_] => []
  | _ :: pindexLast :: pprev =>
      let spans := spansSince n (pindexLast :: pprev)
      if n ≤ pprev.length + 1 ∧ (pprev.length + 1) % nInterval = 0 then
        match actualTimespan pindexLast pprev with
        | .error _ => spans
        | .ok t => (limitTimespanV2 (pprev.length + 1) t).toNat :: spans
      else spans

theorem spansSince_of_le (h : pindex.length ≤ n) : spansSince n pindex = [] := by
  induction pindex with
  | nil => rfl
  | cons block pprev ih =>
      cases pprev with
      | nil => rfl
      | cons pindexLast pprev =>
          rw [List.length_cons] at h
          rw [spansSince, ih (by omega), if_neg]
          rintro ⟨hle, _⟩
          rw [List.length_cons] at h
          omega

theorem spansSince_between {pindexLast : TargetIndex} {pprev : Ancestry}
    (hbetween : (pprev.length + 1) % nInterval ≠ 0) :
    spansSince n (block :: pindexLast :: pprev) = spansSince n (pindexLast :: pprev) := by
  rw [spansSince, if_neg (by rintro ⟨_, hadjust⟩; exact hbetween hadjust)]

theorem spansSince_adjust {pindexLast : TargetIndex} {pprev : Ancestry}
    (hle : n ≤ pprev.length + 1) (hadjust : (pprev.length + 1) % nInterval = 0) {t : Int}
    (ht : actualTimespan pindexLast pprev = .ok t) :
    spansSince n (block :: pindexLast :: pprev) =
      (limitTimespanV2 (pprev.length + 1) t).toNat :: spansSince n (pindexLast :: pprev) := by
  rw [spansSince, if_pos ⟨hle, hadjust⟩, ht]

/-- What a retarget makes of the target `T` with the limited time span `a`: it is scaled, capped
and written in compact form. -/
def scaledTarget (T a : Nat) : Nat :=
  (setCompact (getCompact (min powLimit (T * a / 600) : Nat))).toNat

theorem compactFloor_scaledTarget (T a : Nat) :
    CompactFloor (min powLimit (T * a / 600)) (scaledTarget T a) := by
  obtain ⟨R, hR, hfloor⟩ := setCompact_getCompact (min powLimit (T * a / 600))
    (numBytes_lt_of_le_powLimit (min_le_left _ _))
  rwa [scaledTarget, hR, Int.toNat_natCast]

theorem retarget_eq_scaledTarget {nBits : Nat} (hT : setCompact nBits = T) (a : Nat) :
    ∃ c, retarget nBits a = .ok c ∧ setCompact c = scaledTarget T a := by
  obtain ⟨c, R, hc, hR, hfloor⟩ := retarget_eq_ok hT a
  exact ⟨c, hc, hR.trans (congrArg Nat.cast (hfloor.unique (compactFloor_scaledTarget T a)))⟩

/-- What retargets with these time spans, the newest first, make of the target `T`. -/
def retargeted (T : Nat) : List Nat → Nat
  | [] => T
  | a :: spans => scaledTarget (retargeted T spans) a

/-- The target grows by no more than the product of the spans. -/
theorem retargeted_mul_le (T : Nat) (spans : List Nat) :
    retargeted T spans * 600 ^ spans.length ≤ T * spans.prod := by
  induction spans with
  | nil => exact le_refl _
  | cons a spans ih =>
      set R := retargeted T spans with hR
      have hscale : scaledTarget R a * 600 ≤ R * a := (Nat.le_div_iff_mul_le (by norm_num)).mp
        ((compactFloor_scaledTarget R a).le.trans (min_le_right _ _))
      rw [retargeted, ← hR, List.length_cons, List.prod_cons]
      calc scaledTarget R a * 600 ^ (spans.length + 1)
          = scaledTarget R a * 600 * 600 ^ spans.length := by rw [pow_succ', Nat.mul_assoc]
        _ ≤ R * a * 600 ^ spans.length := Nat.mul_le_mul_right _ hscale
        _ = R * 600 ^ spans.length * a := Nat.mul_right_comm _ _ _
        _ ≤ T * spans.prod * a := Nat.mul_le_mul_right _ ih
        _ = T * (a * spans.prod) := by rw [Nat.mul_assoc, Nat.mul_comm a]

/-- A valid block of the second version has the target of its parent, or is a retarget. -/
theorem ContextuallyValid.target_eq_retargeted
    (hvalid : ContextuallyValid eventHorizon pindexPrev block) (hlen : 2500 ≤ pindexPrev.length)
    (hlt : pindexPrev.length < 51000) (hle : n ≤ pindexPrev.length)
    (hT : pindexPrev.target = retargeted T (spansSince n pindexPrev)) :
    block.target = retargeted T (spansSince n (block :: pindexPrev)) := by
  have hbits := hvalid.1
  rw [getNextWorkRequired_of_lt hlen hlt] at hbits
  obtain ⟨pindexLast, pprev, rfl⟩ :=
    List.exists_cons_of_length_pos (show 0 < pindexPrev.length by omega)
  by_cases hadjust : (pprev.length + 1) % nInterval = 0
  · obtain ⟨t, ht⟩ := actualTimespan_eq_ok pindexLast hadjust
    have hpos : 0 < limitTimespanV2 (pprev.length + 1) t := by
      rw [limitTimespanV2_eq]
      exact (leastTimespanV2_pos _).trans_le (le_max_left _ _)
    obtain ⟨c, hc, hR⟩ :=
      retarget_eq_scaledTarget hT (limitTimespanV2 (pprev.length + 1) t).toNat
    rw [getNextWorkRequiredV2_adjust hadjust ht] at hbits
    rw [Int.toNat_of_nonneg hpos.le] at hc
    obtain rfl : c = block.nBits := Except.ok.inj (hc.symm.trans hbits)
    rw [spansSince_adjust hle hadjust ht]
    exact hR
  · rw [getNextWorkRequiredV2_between hadjust] at hbits
    rw [spansSince_between hadjust, ← hT]
    exact congrArg setCompact (Except.ok.inj hbits).symm

theorem target_eq_retargeted_of_run (hT : pindexPrev.target = T) (hlen : 2500 ≤ pindexPrev.length)
    (hrun : Run (Extends eventHorizon) pindexPrev blocks pindex) (hlt : pindex.length ≤ 51000) :
    pindex.target = retargeted T (spansSince pindexPrev.length pindex) := by
  have hinv := hrun.invariant (I := fun pindex ↦ pindexPrev.length ≤ pindex.length ∧
      (pindex.length ≤ 51000 →
        pindex.target = retargeted T (spansSince pindexPrev.length pindex))) ?_ ⟨le_refl _, ?_⟩
  · exact hinv.2 hlt
  · rintro pindex block _ ⟨hle, ih⟩ ⟨hvalid, rfl⟩
    refine ⟨hle.trans (Nat.le_succ _), fun hlt ↦ ?_⟩
    rw [List.length_cons] at hlt
    exact hvalid.target_eq_retargeted (hlen.trans hle) (by omega) hle (ih (by omega))
  · intro _
    rw [spansSince_of_le (le_refl _)]
    exact hT

/-! ## When the filter passes -/

theorem checkAgainstCheckpoint_eq_ok {pcheckpoint : TargetIndex} :
    checkAgainstCheckpoint pcheckpoint block = .ok () ↔ pcheckpoint.nTime ≤ block.nTime ∧
      block.target ≤ setCompact (computeMinWork false bnProofOfWorkLimit pcheckpoint.nBits
        (block.getBlockTime - pcheckpoint.nTime)) := by
  rw [checkAgainstCheckpoint, bind_eq_ok]
  simp only [failIf_eq_ok, decide_eq_false_iff_not, Int.not_lt, exists_const]
  apply and_congr_left'
  rw [TargetIndex.getBlockTime]
  omega

/-- Rounding and the limit do not matter for a target that is in compact form and not above the
limit. -/
theorem target_le_floor_iff {x R : Nat} (hcap : block.target ≤ bnProofOfWorkLimit)
    (hfloor : CompactFloor (min powLimit x) R) : block.target ≤ R ↔ block.target ≤ x := by
  have hrep := representable_setCompact block.nBits
  change Representable 256 mantissaBound block.target.toNat at hrep
  rw [bnProofOfWorkLimit_eq] at hcap
  rw [← Int.toNat_le, ← Int.toNat_le, hfloor.le_iff hrep, le_min_iff]
  exact and_iff_right (Int.toNat_le.mpr hcap)

/-- A contextually valid block passes the filter against a checkpoint before it if and only if it
is not dated before the checkpoint and its target is at most the checkpoint's times four for each
forty minutes begun.  For blocks up to the second version's last height this is a condition on
the dates: retargeting the checkpoint's target with the time spans since then must not lead above
that; so it holds if the spans, in units of ten minutes, multiply to no more. -/
theorem checkAgainstCheckpoint_iff (eventHorizon : Nat → Int → Int → Bool)
    (pcheckpoint : TargetIndex) (before : Ancestry) (blocks : List TargetIndex)
    (pindexPrev : Ancestry) (block : TargetIndex) (T : Nat) (hheight : 2500 ≤ before.length)
    (hT : pcheckpoint.target = T) (hle : T ≤ powLimit)
    (hrun : Run (Extends eventHorizon) (pcheckpoint :: before) blocks pindexPrev)
    (hvalid : ContextuallyValid eventHorizon pindexPrev block) :
    (checkAgainstCheckpoint pcheckpoint block = .ok () ↔ pcheckpoint.nTime ≤ block.nTime ∧
      block.target ≤ (T * 4 ^ periodsBegun (block.nTime - pcheckpoint.nTime) : Nat)) ∧
    (pindexPrev.length < 51000 →
      (checkAgainstCheckpoint pcheckpoint block = .ok () ↔ pcheckpoint.nTime ≤ block.nTime ∧
        retargeted T (spansSince (before.length + 1) (block :: pindexPrev)) ≤
          T * 4 ^ periodsBegun (block.nTime - pcheckpoint.nTime)) ∧
      (pcheckpoint.nTime ≤ block.nTime →
        (spansSince (before.length + 1) (block :: pindexPrev)).prod ≤
          600 ^ (spansSince (before.length + 1) (block :: pindexPrev)).length *
            4 ^ periodsBegun (block.nTime - pcheckpoint.nTime) →
        checkAgainstCheckpoint pcheckpoint block = .ok ())) := by
  have hlen : 2500 ≤ (pcheckpoint :: before).length := hheight.trans (Nat.le_succ _)
  have hiff : checkAgainstCheckpoint pcheckpoint block = .ok () ↔
      pcheckpoint.nTime ≤ block.nTime ∧
        block.target ≤ (T * 4 ^ periodsBegun (block.nTime - pcheckpoint.nTime) : Nat) := by
    rw [checkAgainstCheckpoint_eq_ok]
    apply and_congr_right
    intro htime
    obtain ⟨hlen', hcap⟩ := target_le_of_run hrun hlen (by
      rw [bnProofOfWorkLimit_eq]
      exact hT.trans_le (Int.ofNat_le.mpr hle))
    obtain ⟨R, hR, hfloor⟩ := computeMinWork_eq hT (block.getBlockTime - pcheckpoint.nTime)
    have hdelta : (block.getBlockTime - pcheckpoint.nTime).toNat =
        block.nTime - pcheckpoint.nTime := by
      rw [TargetIndex.getBlockTime]
      omega
    rw [hdelta] at hfloor
    rw [hR]
    exact target_le_floor_iff (hvalid.target_le hlen' hcap) hfloor
  refine ⟨hiff, fun hlt ↦ ?_⟩
  have hrun' : Run (Extends eventHorizon) (pcheckpoint :: before) (blocks ++ [block])
      (block :: pindexPrev) := hrun.append (.cons ⟨hvalid, rfl⟩ (.nil _))
  have htarget : block.target =
      retargeted T (spansSince (before.length + 1) (block :: pindexPrev)) :=
    target_eq_retargeted_of_run (show Ancestry.target (pcheckpoint :: before) = T from hT) hlen
      hrun' hlt
  rw [htarget, Int.ofNat_le] at hiff
  refine ⟨hiff, fun htime hspans ↦ hiff.mpr ⟨htime, ?_⟩⟩
  set spans := spansSince (before.length + 1) (block :: pindexPrev)
  have hpos : 0 < 600 ^ spans.length := Nat.pow_pos (by norm_num)
  rw [← Nat.mul_le_mul_right_iff hpos]
  calc retargeted T spans * 600 ^ spans.length ≤ T * spans.prod := retargeted_mul_le T spans
    _ ≤ T * (600 ^ spans.length * 4 ^ periodsBegun (block.nTime - pcheckpoint.nTime)) :=
        Nat.mul_le_mul_left T hspans
    _ = T * 4 ^ periodsBegun (block.nTime - pcheckpoint.nTime) * 600 ^ spans.length := by
        rw [Nat.mul_comm (600 ^ _), Nat.mul_assoc]

/-! ## A chain with a late block -/

/-- Blocks a minute apart, two minutes after the genesis block. -/
def steadyChain : Nat → Ancestry
  | 0 => []
  | height + 1 => ⟨if height = 0 then 0 else 60 * (height + 1), 0x1b010000⟩ :: steadyChain height

theorem length_steadyChain (n : Nat) : (steadyChain n).length = n := by
  induction n with
  | zero => rfl
  | succ n ih => rw [steadyChain, List.length_cons, ih]

/-- A block at an adjustment height, half an hour late. -/
def lateBlock : TargetIndex := ⟨152400, 0x1b010000⟩

/-- A block with the same time as its parent, for which the target is four times as easy. -/
def easyBlock : TargetIndex := ⟨152400, 0x1b040000⟩

theorem getNextWorkRequired_lateBlock (eventHorizon : Nat → Int → Int → Bool) (nTime : Nat) :
    getNextWorkRequired false eventHorizon nTime (lateBlock :: steadyChain 2509) =
      .ok 0x1b040000 := by
  have hlen : (lateBlock :: steadyChain 2509).length = 2510 := by
    rw [List.length_cons, length_steadyChain]
  have hadjust : ((steadyChain 2509).length + 1) % nInterval = 0 := by
    rw [length_steadyChain]
    rfl
  have hspan : actualTimespan lateBlock (steadyChain 2509) = .ok 2400 := by
    rw [actualTimespan, length_steadyChain]
    decide
  rw [getNextWorkRequired_of_lt (by omega) (by omega), getNextWorkRequiredV2_adjust hadjust hspan,
    length_steadyChain]
  decide

/-- The target that `GetNextWorkRequired` asks for is too easy for the filter. -/
theorem checkAgainstCheckpoint_easyBlock :
    ¬ ∀ (eventHorizon : Nat → Int → Int → Bool) (pcheckpoint : TargetIndex) (before : Ancestry)
      (blocks : List TargetIndex) (pindexPrev : Ancestry) (block : TargetIndex) (T : Nat),
      2500 ≤ before.length → pcheckpoint.target = T → 0 < T → T ≤ powLimit →
      Run (Extends eventHorizon) (pcheckpoint :: before) blocks pindexPrev →
      ContextuallyValid eventHorizon pindexPrev block →
      checkAgainstCheckpoint pcheckpoint block = .ok () := by
  intro hall
  have h := hall (fun _ _ _ ↦ false) lateBlock (steadyChain 2509) [] _ easyBlock
    (0x010000 * 256 ^ 24) (by rw [length_steadyChain]; norm_num) (by decide) (by decide)
    (by decide) (.nil _) ⟨getNextWorkRequired_lateBlock _ _, by decide⟩
  cases h

/-- The same block dated a second later passes. -/
theorem checkAgainstCheckpoint_iff_sample :
    checkAgainstCheckpoint lateBlock ⟨152401, 0x1b040000⟩ = .ok () := by
  refine (checkAgainstCheckpoint_iff (fun _ _ _ ↦ false) lateBlock (steadyChain 2509) [] _
    ⟨152401, 0x1b040000⟩ (0x010000 * 256 ^ 24) (by rw [length_steadyChain]; norm_num) (by decide)
    (by decide) (.nil _) ⟨getNextWorkRequired_lateBlock _ _, by decide⟩).1.mpr ?_
  exact ⟨by decide, by decide⟩

end Fedoracoin
