import Fedoracoin.Difficulty

/-!
# Retargeting every ten blocks

What the two versions that retarget every ten blocks do at an adjustment height.  Both scale the
target with a limited time span, cap it and write it in compact form, which rounds down
(`retarget_eq_ok`); they differ in the limits.  Those of the second version are as declared; the
quotients in those of the first are between integers, so that it admits spans from 0 to 600.
-/

namespace Fedoracoin

open Truncation CBigNum

variable {pindexLast : TargetIndex} {pprev : Ancestry} {T : Nat}

/-- The greatest number in compact form that is not above `x`. -/
abbrev CompactFloor (x v : Nat) : Prop := RoundsDown 256 mantissaBound x v

/-- The proof-of-work limit. -/
def powLimit : Nat := 2 ^ 236 - 1

theorem bnProofOfWorkLimit_eq : bnProofOfWorkLimit = (powLimit : Int) := by decide

theorem numBytes_lt_of_le_powLimit {n : Nat} (h : n ≤ powLimit) : numBytes n < 255 := by
  have hle : numBytes n ≤ 30 := by
    rw [numBytes_le_iff]
    exact h.trans_lt (by decide)
  exact hle.trans_lt (by norm_num)

theorem div_natCast (a : Nat) {b : Nat} (hb : b ≠ 0) :
    CBigNum.div (a : Int) (b : Int) = .ok ((a / b : Nat) : Int) := by
  rw [CBigNum.div, if_neg (Int.natCast_ne_zero.mpr hb)]
  rfl

/-- A target that is not above the limit has a compact form, which rounds it down. -/
theorem getCompact_capped (n : Nat) :
    ∃ R : Nat, setCompact (getCompact
      (if bnProofOfWorkLimit < (n : Int) then bnProofOfWorkLimit else n)) = R ∧
      CompactFloor (min powLimit n) R := by
  have hcap : (if bnProofOfWorkLimit < (n : Int) then bnProofOfWorkLimit else n) =
      ((min powLimit n : Nat) : Int) := by
    rw [bnProofOfWorkLimit_eq]
    split
    case isTrue h => rw [min_eq_left (Int.ofNat_lt.mp h).le]
    case isFalse h => rw [min_eq_right (Int.ofNat_le.mp (Int.not_lt.mp h))]
  rw [hcap]
  exact setCompact_getCompact _ (numBytes_lt_of_le_powLimit (min_le_left _ _))

/-- Scaling a target, for a time span that is not negative. -/
theorem retarget_eq_ok {nBits : Nat} (hT : setCompact nBits = T) (a : Nat) :
    ∃ c R : Nat, retarget nBits a = .ok c ∧ setCompact c = R ∧
      CompactFloor (min powLimit (T * a / 600)) R := by
  obtain ⟨R, hR, hfloor⟩ := getCompact_capped (T * a / 600)
  have hdiv : CBigNum.div ((T : Int) * a) nTargetTimespan = .ok ((T * a / 600 : Nat) : Int) := by
    rw [← Int.natCast_mul]
    exact div_natCast (T * a) (by norm_num)
  refine ⟨_, R, ?_, hR, hfloor⟩
  rw [retarget, hT, hdiv]
  rfl

/-! ## The window -/

/-- At an adjustment height there is a first block to the window. -/
theorem actualTimespan_eq_ok (pindexLast : TargetIndex)
    (hadjust : (pprev.length + 1) % nInterval = 0) :
    ∃ t, actualTimespan pindexLast pprev = .ok t := by
  have hten : nInterval = 10 := rfl
  rw [hten] at hadjust
  rw [actualTimespan, hten]
  set blockstogoback := if pprev.length + 1 ≠ 10 then 10 else 10 - 1 with hback
  have hlt : blockstogoback < (pindexLast :: pprev).length := by
    rw [hback, List.length_cons]
    split <;> omega
  rw [List.drop_eq_getElem_cons hlt]
  exact ⟨_, rfl⟩

/-! ## The first version -/

theorem limitTimespanV1_eq (t : Int) : limitTimespanV1 t = max 0 (min t 600) := by
  have hmax : nTargetTimespan * (112 / 100) = 600 := rfl
  have hmin : nTargetTimespan * (100 / 111) = 0 := rfl
  simp only [limitTimespanV1, hmax, hmin]
  split <;> split <;> omega

theorem limitTimespanV1_natCast (t : Int) :
    limitTimespanV1 t = ((max 0 (min t 600)).toNat : Int) := by
  rw [limitTimespanV1_eq, Int.toNat_of_nonneg (le_max_left _ _)]

/-- The declared band: some target within 10% up and 12% down of `T`, capped at the limit and
rounded down, and not zero. -/
def InBandV1 (T R : Nat) : Prop :=
  0 < R ∧ ∃ v, 100 * T ≤ 111 * v ∧ 100 * v ≤ 112 * T ∧ CompactFloor (min powLimit v) R

/-- The least target in the band. -/
def leastInBand (T : Nat) : Nat := (100 * T + 110) / 111

theorem leastInBand_le_iff {v : Nat} : leastInBand T ≤ v ↔ 100 * T ≤ 111 * v := by
  rw [leastInBand]
  omega

theorem leastInBand_le (T : Nat) : leastInBand T ≤ T := leastInBand_le_iff.mpr (by omega)

theorem leastInBand_pos (hpos : 0 < T) : 0 < leastInBand T := by
  rw [leastInBand]
  omega

/-- A target that is scaled down is in the band if it is not below the band's least target in
compact form. -/
theorem inBandV1_iff {w R lo : Nat} (hpos : 0 < T) (hle : T ≤ powLimit) (hw : w ≤ T)
    (hR : CompactFloor (min powLimit w) R) (hlo : CompactFloor (leastInBand T) lo) :
    InBandV1 T R ↔ lo ≤ w := by
  have hleast := leastInBand_le T
  rw [min_eq_right (hw.trans hle)] at hR
  constructor
  · rintro ⟨_, v, hv, _, hR'⟩
    have h := hlo.mono hR' (le_min (hleast.trans hle) (leastInBand_le_iff.mpr hv))
    exact h.trans hR.le
  · intro h
    have hloR : lo ≤ R := (hR.le_iff hlo.representable).mpr h
    refine ⟨(hlo.pos (by decide) (leastInBand_pos hpos)).trans_le hloR, ?_⟩
    rcases Nat.lt_or_ge w (leastInBand T) with hlt | hge
    · -- below the band, but rounded to what its least target is rounded to
      obtain rfl : R = lo := le_antisymm (hR.mono hlo hlt.le) hloR
      refine ⟨leastInBand T, leastInBand_le_iff.mp (le_refl _), by omega, ?_⟩
      rwa [min_eq_right (hleast.trans hle)]
    · refine ⟨w, leastInBand_le_iff.mp hge, by omega, ?_⟩
      rwa [min_eq_right (hw.trans hle)]

theorem getNextWorkRequiredV1_adjust {testNet : Bool} {nTime : Nat}
    (hadjust : (pprev.length + 1) % nInterval = 0) {t : Int}
    (ht : actualTimespan pindexLast pprev = .ok t) :
    getNextWorkRequiredV1 testNet nTime (pindexLast :: pprev) =
      retarget pindexLast.nBits (limitTimespanV1 t) := by
  rw [getNextWorkRequiredV1, if_neg (not_not.mpr hadjust), ht]
  rfl

/-- A retarget of the first version is in its declared band if and only if the target scaled
with the time span, limited to 0..600, is not below the band's least target in compact form. -/
theorem getNextWorkRequiredV1_inBand_iff (testNet : Bool) (nTime : Nat)
    (pindexLast : TargetIndex) (pprev : Ancestry) (T : Nat)
    (hadjust : (pprev.length + 1) % nInterval = 0) (hT : pindexLast.target = T) (hpos : 0 < T)
    (hle : T ≤ powLimit) :
    ∃ (t : Int) (c R lo : Nat), actualTimespan pindexLast pprev = .ok t ∧
      getNextWorkRequiredV1 testNet nTime (pindexLast :: pprev) = .ok c ∧ setCompact c = R ∧
      setCompact (getCompact (leastInBand T)) = lo ∧
      (InBandV1 T R ↔ lo ≤ T * (max 0 (min t 600)).toNat / 600) := by
  obtain ⟨t, ht⟩ := actualTimespan_eq_ok pindexLast hadjust
  obtain ⟨c, R, hc, hR, hfloor⟩ := retarget_eq_ok hT (max 0 (min t 600)).toNat
  obtain ⟨lo, hlo, hfloor'⟩ := setCompact_getCompact (leastInBand T)
    (numBytes_lt_of_le_powLimit ((leastInBand_le T).trans hle))
  have hw : T * (max 0 (min t 600)).toNat / 600 ≤ T := by
    apply Nat.div_le_of_le_mul
    rw [Nat.mul_comm]
    apply Nat.mul_le_mul_right
    omega
  refine ⟨t, c, R, lo, ht, ?_, hR, hlo, inBandV1_iff hpos hle hw hfloor hfloor'⟩
  rw [getNextWorkRequiredV1_adjust hadjust ht, limitTimespanV1_natCast]
  exact hc

/-- Ten blocks of which the last is ten minutes after the first. -/
theorem getNextWorkRequiredV1_inBand_iff_sample :
    ∃ c R : Nat, getNextWorkRequiredV1 false 0
        (⟨600, 0x1e0ffff0⟩ :: List.replicate 9 ⟨0, 0x1e0ffff0⟩) = .ok c ∧
      setCompact c = R ∧ InBandV1 (0x0ffff0 * 256 ^ 27) R := by
  obtain ⟨t, c, R, lo, ht, hc, hR, hlo, hiff⟩ := getNextWorkRequiredV1_inBand_iff false 0
    ⟨600, 0x1e0ffff0⟩ (List.replicate 9 ⟨0, 0x1e0ffff0⟩) (0x0ffff0 * 256 ^ 27) (by decide)
    (by decide) (by decide) (by decide)
  obtain rfl : 600 = t := Except.ok.inj (Eq.trans (by decide) ht)
  have hlo' : (setCompact (getCompact (leastInBand (0x0ffff0 * 256 ^ 27)))).toNat = lo := by
    rw [hlo, Int.toNat_natCast]
  refine ⟨c, R, hc, hR, hiff.mpr ?_⟩
  rw [← hlo']
  decide

/-- Twenty blocks a second apart, except that the tenth is dated later than the last. -/
def aheadOfTime : Ancestry :=
  (List.range 20).reverse.map fun h ↦ ⟨if h = 9 then 5000 else h, 0x1e0ffff0⟩

theorem getNextWorkRequiredV1_zero :
    ¬ ∀ (testNet : Bool) (nTime : Nat) (pindexLast : TargetIndex) (pprev : Ancestry) (T : Nat),
      (pprev.length + 1) % nInterval = 0 → pprev.length + 1 < 2500 → pindexLast.target = T →
      0 < T → T ≤ powLimit →
      ∃ c R : Nat, getNextWorkRequiredV1 testNet nTime (pindexLast :: pprev) = .ok c ∧
        setCompact c = R ∧ InBandV1 T R := by
  intro hall
  obtain ⟨c, R, hc, hR, hpos, _⟩ := hall false 20 ⟨19, 0x1e0ffff0⟩ aheadOfTime.tail
    (0x0ffff0 * 256 ^ 27) (by decide) (by decide) (by decide) (by decide) (by decide)
  obtain rfl : 0 = c := Except.ok.inj (Eq.trans (by decide) hc)
  obtain rfl : 0 = R := Int.ofNat_inj.mp (Eq.trans (by decide) hR)
  exact absurd hpos (lt_irrefl 0)

/-! ## The second version -/

/-- The least time span that the second version scales with. -/
def leastTimespanV2 (height : Nat) : Int :=
  if 10000 < height then 150 else if 5000 < height then 75 else 37

theorem leastTimespanV2_pos (height : Nat) : 0 < leastTimespanV2 height := by
  rw [leastTimespanV2]
  split
  · norm_num
  · split <;> norm_num

theorem leastTimespanV2_le (height : Nat) : leastTimespanV2 height ≤ 2400 := by
  rw [leastTimespanV2]
  split
  · norm_num
  · split <;> norm_num

theorem limitTimespanV2_eq (height : Nat) (t : Int) :
    limitTimespanV2 height t = max (leastTimespanV2 height) (min t 2400) := by
  have hmax : nTargetTimespan * 4 = 2400 := rfl
  have hmin : nTargetTimespan / (if 10000 < height then 4 else if 5000 < height then 8 else 16) =
      leastTimespanV2 height := by
    rw [leastTimespanV2]
    split
    · rfl
    · split <;> rfl
  have hle := leastTimespanV2_le height
  simp only [limitTimespanV2, hmax, hmin]
  split <;> split <;> omega

theorem retarget_isOk (nBits : Nat) (t : Int) : ∃ c, retarget nBits t = .ok c := by
  rw [retarget, CBigNum.div, if_neg (by decide)]
  exact ⟨_, rfl⟩

theorem getNextWorkRequiredV2_adjust {testNet : Bool} {nTime : Nat}
    (hadjust : (pprev.length + 1) % nInterval = 0) {t : Int}
    (ht : actualTimespan pindexLast pprev = .ok t) :
    getNextWorkRequiredV2 testNet nTime (pindexLast :: pprev) =
      retarget pindexLast.nBits (limitTimespanV2 (pprev.length + 1) t) := by
  rw [getNextWorkRequiredV2, if_neg (not_not.mpr hadjust), ht]
  rfl

/-- Between two adjustments on the main network the target stays. -/
theorem getNextWorkRequiredV2_between {nTime : Nat}
    (hbetween : (pprev.length + 1) % nInterval ≠ 0) :
    getNextWorkRequiredV2 false nTime (pindexLast :: pprev) = .ok pindexLast.nBits := by
  rw [getNextWorkRequiredV2, if_pos hbetween]
  rfl

theorem getNextWorkRequiredV2_isOk (testNet : Bool) (nTime : Nat) (pindexLast : Ancestry) :
    ∃ c, getNextWorkRequiredV2 testNet nTime pindexLast = .ok c := by
  cases pindexLast with
  | nil => exact ⟨_, rfl⟩
  | cons pindexLast pprev =>
      by_cases hadjust : (pprev.length + 1) % nInterval = 0
      · obtain ⟨t, ht⟩ := actualTimespan_eq_ok pindexLast hadjust
        rw [getNextWorkRequiredV2_adjust hadjust ht]
        exact retarget_isOk _ _
      · rw [getNextWorkRequiredV2, if_pos hadjust]
        exact ⟨_, rfl⟩

/-- The second version never fails its assertion; at an adjustment height it scales the target
with the time span, limited from below according to the height and to 2400 from above; and
between adjustments on the main network it keeps the target. -/
theorem getNextWorkRequiredV2_bounded (testNet : Bool) (nTime : Nat) :
    (∀ pindexLast, ∃ c, getNextWorkRequiredV2 testNet nTime pindexLast = .ok c) ∧
    (∀ (pindexLast : TargetIndex) (pprev : Ancestry) (T : Nat),
      (pprev.length + 1) % nInterval = 0 → pindexLast.target = T → 0 < T → T ≤ powLimit →
      ∃ (t : Int) (a c R : Nat), actualTimespan pindexLast pprev = .ok t ∧
        (a : Int) = max (leastTimespanV2 (pprev.length + 1)) (min t 2400) ∧
        getNextWorkRequiredV2 testNet nTime (pindexLast :: pprev) = .ok c ∧
        setCompact c = R ∧ R ≤ min powLimit (4 * T) ∧
        CompactFloor (min powLimit (T * a / 600)) R) ∧
    (∀ (pindexLast : TargetIndex) (pprev : Ancestry), (pprev.length + 1) % nInterval ≠ 0 →
      getNextWorkRequiredV2 false nTime (pindexLast :: pprev) = .ok pindexLast.nBits) := by
  refine ⟨getNextWorkRequiredV2_isOk testNet nTime, ?_, fun _ _ ↦ getNextWorkRequiredV2_between⟩
  intro pindexLast pprev T hadjust hT hpos hle
  obtain ⟨t, ht⟩ := actualTimespan_eq_ok pindexLast hadjust
  have hleast := leastTimespanV2_pos (pprev.length + 1)
  obtain ⟨a, ha⟩ := Int.eq_ofNat_of_zero_le
    (hleast.le.trans (le_max_left (leastTimespanV2 (pprev.length + 1)) (min t 2400)))
  have ha' : a ≤ 2400 := by
    rw [← Int.ofNat_le, ← ha]
    exact max_le (leastTimespanV2_le _) (min_le_right _ _)
  obtain ⟨c, R, hc, hR, hfloor⟩ := retarget_eq_ok hT a
  refine ⟨t, a, c, R, ht, ha.symm, ?_, hR, ?_, hfloor⟩
  · rw [getNextWorkRequiredV2_adjust hadjust ht, limitTimespanV2_eq, ha]
    exact hc
  · apply hfloor.le.trans (min_le_min_left _ _)
    apply Nat.div_le_of_le_mul
    calc T * a ≤ T * 2400 := Nat.mul_le_mul_left T ha'
      _ = 600 * (4 * T) := by omega

/-- Ten blocks within nine seconds: the target is divided by sixteen, nearly. -/
theorem getNextWorkRequiredV2_bounded_sample :
    ∃ c R : Nat, getNextWorkRequiredV2 false 0
        (⟨9, 0x1e0ffff0⟩ :: List.replicate 9 ⟨0, 0x1e0ffff0⟩) = .ok c ∧
      setCompact c = R ∧ R ≤ min powLimit (4 * (0x0ffff0 * 256 ^ 27)) := by
  obtain ⟨t, a, c, R, _, _, hc, hR, hle, _⟩ := (getNextWorkRequiredV2_bounded false 0).2.1
    ⟨9, 0x1e0ffff0⟩ (List.replicate 9 ⟨0, 0x1e0ffff0⟩) (0x0ffff0 * 256 ^ 27) (by decide)
    (by decide) (by decide) (by decide)
  exact ⟨c, R, hc, hR, hle⟩

end Fedoracoin
