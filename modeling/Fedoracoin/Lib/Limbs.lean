import Mathlib.Data.Nat.Bitwise
import Mathlib.Tactic.Ring

/-!
# Numbers in limbs

A natural number in limbs of `w` bits, the least significant first, and what has to be shown of the
limbs of a result for it to be a sum, a successor, a shift, a bitwise operation or an order.

Carries run through `value` by induction on the limbs; shifts and bitwise operations go through the
bits, where bit `i` is bit `i % w` of limb `i / w` (`testBit_value`).
-/

namespace Limbs

variable {w n k s : Nat} {xs ys zs : List (BitVec w)} {x y : BitVec w}

/-! ## Values -/

def value : List (BitVec w) → Nat
  | [] => 0
  | x :: xs => x.toNat + 2 ^ w * value xs

theorem two_pow_cons (w n : Nat) : 2 ^ (w * (n + 1)) = 2 ^ w * 2 ^ (w * n) := by
  rw [Nat.mul_succ, Nat.add_comm, pow_add]

theorem value_lt (xs : List (BitVec w)) : value xs < 2 ^ (w * xs.length) := by
  induction xs with
  | nil => exact Nat.two_pow_pos _
  | cons x xs ih =>
      have hx := x.isLt
      have hle : 2 ^ w * (value xs + 1) ≤ 2 ^ w * 2 ^ (w * xs.length) := Nat.mul_le_mul_left _ ih
      rw [Nat.mul_succ] at hle
      rw [value, List.length_cons, two_pow_cons]
      omega

theorem value_append (xs ys : List (BitVec w)) :
    value (xs ++ ys) = value xs + 2 ^ (w * xs.length) * value ys := by
  induction xs with
  | nil => rw [List.nil_append, value, List.length_nil, Nat.mul_zero, pow_zero, Nat.one_mul,
      Nat.zero_add]
  | cons x xs ih =>
      rw [List.cons_append, value, value, ih, List.length_cons, two_pow_cons]
      ring

theorem value_replicate_zero (w n : Nat) : value (List.replicate n (0 : BitVec w)) = 0 := by
  induction n with
  | zero => rfl
  | succ n ih =>
      rw [List.replicate_succ, value, ih, Nat.mul_zero]
      rfl

/-- Adding below `2 ^ w` and multiples of it. -/
theorem add_mod_two_pow {a b : Nat} (ha : a < 2 ^ w) (n : Nat) :
    (a + 2 ^ w * b) % 2 ^ (w * (n + 1)) = a + 2 ^ w * (b % 2 ^ (w * n)) := by
  rw [two_pow_cons, Nat.mod_mul, Nat.add_mul_mod_self_left, Nat.mod_eq_of_lt ha,
    Nat.add_mul_div_left _ _ (Nat.two_pow_pos w), Nat.div_eq_of_lt ha, Nat.zero_add]

/-- Numbers of equally many limbs. -/
theorem value_inj (hlen : xs.length = ys.length) (h : value xs = value ys) : xs = ys := by
  induction xs generalizing ys with
  | nil => exact (List.eq_nil_of_length_eq_zero hlen.symm).symm
  | cons x xs ih =>
      cases ys with
      | nil => exact absurd hlen (Nat.succ_ne_zero _)
      | cons y ys =>
          have hx := x.isLt
          have hy := y.isLt
          rw [value, value] at h
          have hlow := congrArg (· % 2 ^ w) h
          have hhigh := congrArg (· / 2 ^ w) h
          simp only [Nat.add_mul_mod_self_left, Nat.mod_eq_of_lt hx, Nat.mod_eq_of_lt hy] at hlow
          simp only [Nat.add_mul_div_left _ _ (Nat.two_pow_pos w), Nat.div_eq_of_lt hx,
            Nat.div_eq_of_lt hy, Nat.zero_add] at hhigh
          rw [BitVec.eq_of_toNat_eq hlow, ih (Nat.succ.inj hlen) hhigh]

/-! ## Bits -/

theorem testBit_value (hw : 0 < w) (xs : List (BitVec w)) (i : Nat) :
    (value xs).testBit i = (xs.getD (i / w) 0).getLsbD (i % w) := by
  induction xs generalizing i with
  | nil => simp [value]
  | cons x xs ih =>
      rcases Nat.lt_or_ge i w with hi | hi
      · rw [value, Nat.div_eq_of_lt hi, Nat.mod_eq_of_lt hi, List.getD_cons_zero, Nat.add_comm,
          Nat.testBit_two_pow_mul_add _ x.isLt, if_pos hi]
        rfl
      · rw [value, Nat.add_comm, Nat.testBit_two_pow_mul_add _ x.isLt, if_neg (Nat.not_lt.mpr hi),
          ih, Nat.div_eq_sub_div hw hi, Nat.mod_eq_sub_mod hi, List.getD_cons_succ]

/-- A number whose limbs have the bits of another. -/
theorem value_eq_mod_of_testBit (hw : 0 < w) {m : Nat}
    (h : ∀ j < xs.length, ∀ r < w, (xs.getD j 0).getLsbD r = m.testBit (w * j + r)) :
    value xs = m % 2 ^ (w * xs.length) := by
  apply Nat.eq_of_testBit_eq
  intro i
  rw [testBit_value hw, Nat.testBit_mod_two_pow]
  by_cases hi : i / w < xs.length
  · have hlt : i < w * xs.length := by rwa [Nat.mul_comm, ← Nat.div_lt_iff_lt_mul hw]
    rw [h _ hi _ (Nat.mod_lt i hw), Nat.div_add_mod, decide_eq_true hlt, Bool.true_and]
  · have hlt : ¬ i < w * xs.length := by rwa [Nat.mul_comm, ← Nat.div_lt_iff_lt_mul hw]
    rw [List.getD_eq_default _ _ (Nat.le_of_not_lt hi), decide_eq_false hlt, Bool.false_and]
    exact BitVec.getLsbD_zero

theorem getLsbD_getD (hw : 0 < w) (xs : List (BitVec w)) (j : Nat) {r : Nat} (hr : r < w) :
    (xs.getD j 0).getLsbD r = (value xs).testBit (w * j + r) := by
  rw [testBit_value hw, Nat.mul_add_div hw, Nat.div_eq_of_lt hr, Nat.add_zero,
    Nat.mul_add_mod_self_left, Nat.mod_eq_of_lt hr]

/-! ## Bitwise operations -/

theorem getD_zipWith (f : BitVec w → BitVec w → BitVec w) (hlen : xs.length = ys.length) {j : Nat}
    (hj : j < xs.length) :
    (List.zipWith f xs ys).getD j 0 = f (xs.getD j 0) (ys.getD j 0) := by
  rw [List.getD_eq_getElem _ _ (by rw [List.length_zipWith]; omega), List.getElem_zipWith,
    List.getD_eq_getElem _ _ hj, List.getD_eq_getElem _ _ (hlen ▸ hj)]

/-- An operation on the bits of limbs is one on the bits of numbers. -/
theorem value_zipWith (hw : 0 < w) (hlen : xs.length = ys.length)
    {f : BitVec w → BitVec w → BitVec w} {g : Nat → Nat → Nat} {bit : Bool → Bool → Bool}
    (hf : ∀ x y r, (f x y).getLsbD r = bit (x.getLsbD r) (y.getLsbD r))
    (hg : ∀ m n r, (g m n).testBit r = bit (m.testBit r) (n.testBit r))
    (hlt : ∀ {m n k : Nat}, m < 2 ^ k → n < 2 ^ k → g m n < 2 ^ k) :
    value (List.zipWith f xs ys) = g (value xs) (value ys) := by
  have hlength : (List.zipWith f xs ys).length = xs.length := by
    rw [List.length_zipWith]
    omega
  have hmod : value (List.zipWith f xs ys) =
      g (value xs) (value ys) % 2 ^ (w * (List.zipWith f xs ys).length) := by
    apply value_eq_mod_of_testBit hw
    intro j hj r hr
    rw [getD_zipWith f hlen (hlength ▸ hj), hf, hg, getLsbD_getD hw xs j hr,
      getLsbD_getD hw ys j hr]
  rwa [hlength, Nat.mod_eq_of_lt (hlt (value_lt xs) (hlen ▸ value_lt ys))] at hmod

theorem value_not (xs : List (BitVec w)) :
    value (xs.map (~~~ ·)) = 2 ^ (w * xs.length) - 1 - value xs := by
  induction xs with
  | nil => rfl
  | cons x xs ih =>
      have hx := x.isLt
      have hlt := value_lt xs
      have hle : 2 ^ w * (value xs + 1) ≤ 2 ^ w * 2 ^ (w * xs.length) := Nat.mul_le_mul_left _ hlt
      rw [Nat.mul_succ] at hle
      rw [List.map_cons, value, value, ih, BitVec.toNat_not, List.length_cons, two_pow_cons,
        Nat.mul_sub, Nat.mul_sub, Nat.mul_one]
      omega

/-! ## Carries -/

/-- One limb of a sum. -/
theorem value_cons_add {z : BitVec w} {c c' : Nat}
    (hz : z.toNat + 2 ^ w * c' = x.toNat + y.toNat + c)
    (hzs : value zs = (value xs + value ys + c') % 2 ^ (w * n)) :
    value (z :: zs) = (value (x :: xs) + value (y :: ys) + c) % 2 ^ (w * (n + 1)) := by
  have hsum : value (x :: xs) + value (y :: ys) + c =
      z.toNat + 2 ^ w * (value xs + value ys + c') := by
    rw [value, value, Nat.mul_add, Nat.mul_add]
    omega
  rw [hsum, add_mod_two_pow z.isLt, value, hzs]

theorem toNat_add_one (x : BitVec w) : (x + 1).toNat = (x.toNat + 1) % 2 ^ w := by
  rw [BitVec.toNat_add]
  exact Nat.add_mod_mod _ _ _

theorem add_one_eq_zero_iff (x : BitVec w) : x + 1 = 0 ↔ x.toNat + 1 = 2 ^ w := by
  have hx := x.isLt
  rw [← BitVec.toNat_inj, toNat_add_one]
  change (x.toNat + 1) % 2 ^ w = 0 ↔ _
  constructor
  · intro h
    have hdvd := Nat.dvd_of_mod_eq_zero h
    exact le_antisymm hx (Nat.le_of_dvd (Nat.succ_pos _) hdvd)
  · intro h
    rw [h, Nat.mod_self]

/-- A limb that overflows. -/
theorem value_succ_of_eq_zero (hx : x + 1 = 0)
    (hzs : value zs = (value xs + 1) % 2 ^ (w * n)) :
    value ((x + 1) :: zs) = (value (x :: xs) + 1) % 2 ^ (w * (n + 1)) := by
  have hmax := (add_one_eq_zero_iff x).mp hx
  have hsum : value (x :: xs) + 1 = (x + 1).toNat + 2 ^ w * (value xs + 1) := by
    rw [hx, value, Nat.mul_succ]
    change _ = 0 + _
    omega
  rw [hsum, add_mod_two_pow (x + 1).isLt, value, hzs]

theorem value_succ_of_ne_zero (hx : x + 1 ≠ 0) (xs : List (BitVec w)) :
    value ((x + 1) :: xs) = (value (x :: xs) + 1) % 2 ^ (w * (xs.length + 1)) := by
  have hone : (x + 1).toNat = x.toNat + 1 := by
    have hmax := mt (add_one_eq_zero_iff x).mpr hx
    have hlt := x.isLt
    rw [toNat_add_one, Nat.mod_eq_of_lt (by omega)]
  have hvalue : value ((x + 1) :: xs) = value (x :: xs) + 1 := by
    rw [value, value, hone]
    omega
  have hlt := value_lt ((x + 1) :: xs)
  rw [List.length_cons] at hlt
  rw [← hvalue, Nat.mod_eq_of_lt hlt]

theorem toNat_sub_one (hw : 0 < w) (x : BitVec w) :
    (x - 1).toNat = if x.toNat = 0 then 2 ^ w - 1 else x.toNat - 1 := by
  have hx := x.isLt
  have hone : (1 : BitVec w).toNat = 1 := Nat.mod_eq_of_lt (Nat.one_lt_two_pow hw.ne')
  rw [BitVec.toNat_sub, hone]
  split
  case isTrue h =>
    rw [h, Nat.add_zero]
    exact Nat.mod_eq_of_lt (by omega)
  case isFalse h =>
    rw [show 2 ^ w - 1 + x.toNat = x.toNat - 1 + 2 ^ w by omega, Nat.add_mod_right]
    exact Nat.mod_eq_of_lt (by omega)

theorem sub_one_eq_allOnes_iff (hw : 0 < w) (x : BitVec w) :
    x - 1 = BitVec.allOnes w ↔ x.toNat = 0 := by
  have hx := x.isLt
  rw [← BitVec.toNat_inj, toNat_sub_one hw, BitVec.toNat_allOnes]
  split
  case isTrue h => exact iff_of_true rfl h
  case isFalse h => exact iff_of_false (by omega) h

/-- A limb that is zero, where one is borrowed from the next. -/
theorem value_pred_of_eq_allOnes (hw : 0 < w) (hx : x - 1 = BitVec.allOnes w)
    (hzs : value zs = (value xs + (2 ^ (w * n) - 1)) % 2 ^ (w * n)) :
    value ((x - 1) :: zs) =
      (value (x :: xs) + (2 ^ (w * (n + 1)) - 1)) % 2 ^ (w * (n + 1)) := by
  have hzero := (sub_one_eq_allOnes_iff hw x).mp hx
  have hpos := Nat.two_pow_pos w
  have hone : (x - 1).toNat = 2 ^ w - 1 := by rw [hx, BitVec.toNat_allOnes]
  have hle : 2 ^ w * 1 ≤ 2 ^ w * 2 ^ (w * n) := Nat.mul_le_mul_left _ (Nat.two_pow_pos _)
  have hsum : value (x :: xs) + (2 ^ (w * (n + 1)) - 1) =
      (x - 1).toNat + 2 ^ w * (value xs + (2 ^ (w * n) - 1)) := by
    rw [value, hzero, hone, two_pow_cons, Nat.mul_add, Nat.mul_sub]
    omega
  rw [hsum, add_mod_two_pow (x - 1).isLt, value, hzs]

theorem value_pred_of_ne_allOnes (hw : 0 < w) (hx : x - 1 ≠ BitVec.allOnes w)
    (xs : List (BitVec w)) :
    value ((x - 1) :: xs) = (value (x :: xs) + (2 ^ (w * (xs.length + 1)) - 1)) %
      2 ^ (w * (xs.length + 1)) := by
  have hne := mt (sub_one_eq_allOnes_iff hw x).mpr hx
  have hlt := value_lt ((x - 1) :: xs)
  rw [List.length_cons] at hlt
  have hpos := Nat.two_pow_pos (w * (xs.length + 1))
  have hsum : value (x :: xs) + (2 ^ (w * (xs.length + 1)) - 1) =
      value ((x - 1) :: xs) + 2 ^ (w * (xs.length + 1)) := by
    rw [value, value, toNat_sub_one hw, if_neg hne]
    omega
  rw [hsum, Nat.add_mod_right, Nat.mod_eq_of_lt hlt]

/-! ## Order -/

/-- The highest limb that differs decides. -/
theorem value_concat_lt (hlen : xs.length = ys.length) (h : x < y) :
    value (xs ++ [x]) < value (ys ++ [y]) := by
  have hlt := value_lt xs
  have hle : 2 ^ (w * xs.length) * (x.toNat + 1) ≤ 2 ^ (w * xs.length) * y.toNat :=
    Nat.mul_le_mul_left _ h
  have hone (x : BitVec w) : value [x] = x.toNat := by
    rw [value, value, Nat.mul_zero, Nat.add_zero]
  rw [Nat.mul_succ] at hle
  rw [value_append, value_append, ← hlen, hone, hone]
  omega

/-! ## Shifts -/

theorem getLsbD_getD_shiftLeft (hw : 0 < w) (xs : List (BitVec w)) (j : Nat) {r : Nat}
    (hr : r < w) :
    (xs.getD j 0 <<< s).getLsbD r = (decide (s ≤ r) && (value xs).testBit (w * j + (r - s))) := by
  rw [BitVec.getLsbD_shiftLeft, decide_eq_true hr, Bool.true_and, getLsbD_getD hw xs j (by omega)]
  by_cases hrs : s ≤ r
  · simp [hrs, Nat.not_lt.mpr hrs]
  · simp [hrs, Nat.lt_of_not_le hrs]

theorem getLsbD_getD_ushiftRight (hw : 0 < w) (xs : List (BitVec w)) (j r : Nat) :
    (xs.getD j 0 >>> s).getLsbD r =
      (decide (s + r < w) && (value xs).testBit (w * j + (s + r))) := by
  rw [BitVec.getLsbD_ushiftRight]
  by_cases hrs : s + r < w
  · rw [getLsbD_getD hw xs j hrs, decide_eq_true hrs, Bool.true_and]
  · rw [BitVec.getLsbD_of_ge _ _ (Nat.le_of_not_lt hrs), decide_eq_false hrs, Bool.false_and]

theorem getLsbD_ite (c : Prop) [Decidable c] (x : BitVec w) (r : Nat) :
    (if c then x else 0).getLsbD r = (decide c && x.getLsbD r) := by
  by_cases hc : c
  · rw [if_pos hc, decide_eq_true hc, Bool.true_and]
  · rw [if_neg hc, decide_eq_false hc, Bool.false_and]
    exact BitVec.getLsbD_zero

/-- A shift by `k` limbs and `s` bits, towards the most significant. -/
theorem value_shiftLeft (hs : s < w) (hlen : zs.length = xs.length)
    (h : ∀ j < xs.length, zs.getD j 0 =
      (if k ≤ j then xs.getD (j - k) 0 <<< s else 0) |||
        (if k + 1 ≤ j ∧ s ≠ 0 then xs.getD (j - (k + 1)) 0 >>> (w - s) else 0)) :
    value zs = value xs * 2 ^ (w * k + s) % 2 ^ (w * xs.length) := by
  have hw : 0 < w := Nat.zero_lt_of_lt hs
  rw [← hlen]
  apply value_eq_mod_of_testBit hw
  intro j hj r hr
  rw [h j (hlen ▸ hj), BitVec.getLsbD_or, getLsbD_ite, getLsbD_ite,
    getLsbD_getD_shiftLeft hw xs _ hr, getLsbD_getD_ushiftRight hw, Nat.testBit_mul_two_pow]
  rcases Nat.lt_or_ge r s with hrs | hrs
  · -- a bit of the limb before
    rw [decide_eq_false (Nat.not_le.mpr hrs), Bool.false_and, Bool.and_false, Bool.false_or]
    by_cases hk : k + 1 ≤ j
    · obtain ⟨i, rfl⟩ := Nat.exists_eq_add_of_le hk
      have hle : w * k + s ≤ w * (k + 1 + i) + r := by
        rw [Nat.mul_add, Nat.mul_succ]
        omega
      have hindex : w * (k + 1 + i) + r - (w * k + s) = w * i + (w - s + r) := by
        rw [Nat.mul_add, Nat.mul_succ]
        omega
      have hs0 : s ≠ 0 := Nat.ne_zero_of_lt hrs
      have hlt : w - s + r < w := by omega
      rw [hindex, Nat.add_sub_cancel_left]
      simp [hle, hs0, hlt]
    · have hle : ¬ w * k + s ≤ w * j + r := by
        have hmul := Nat.mul_le_mul_left w (Nat.le_of_lt_succ (Nat.lt_of_not_le hk))
        omega
      simp [hk, hle]
  · have hlt : ¬ w - s + r < w := by omega
    rw [decide_eq_false hlt, Bool.false_and, Bool.and_false, Bool.or_false]
    by_cases hk : k ≤ j
    · obtain ⟨i, rfl⟩ := Nat.exists_eq_add_of_le hk
      have hle : w * k + s ≤ w * (k + i) + r := by
        rw [Nat.mul_add]
        omega
      have hindex : w * (k + i) + r - (w * k + s) = w * i + (r - s) := by
        rw [Nat.mul_add]
        omega
      rw [hindex, Nat.add_sub_cancel_left]
      simp [hle, hrs]
    · have hle : ¬ w * k + s ≤ w * j + r := by
        have hmul := Nat.mul_le_mul_left w (Nat.lt_of_not_le hk)
        rw [Nat.mul_succ] at hmul
        omega
      simp [hk, hle]

/-- A shift by `k` limbs and `s` bits, towards the least significant. -/
theorem value_shiftRight (hs : s < w) (hlen : zs.length = xs.length)
    (h : ∀ j < xs.length, zs.getD j 0 =
      (if s ≠ 0 then xs.getD (j + (k + 1)) 0 <<< (w - s) else 0) ||| xs.getD (j + k) 0 >>> s) :
    value zs = value xs / 2 ^ (w * k + s) := by
  have hw : 0 < w := Nat.zero_lt_of_lt hs
  have hlt : value xs / 2 ^ (w * k + s) < 2 ^ (w * zs.length) :=
    (Nat.div_le_self _ _).trans_lt (hlen ▸ value_lt xs)
  rw [← Nat.mod_eq_of_lt hlt]
  apply value_eq_mod_of_testBit hw
  intro j hj r hr
  rw [h j (hlen ▸ hj), BitVec.getLsbD_or, getLsbD_ite, getLsbD_getD_shiftLeft hw xs _ hr,
    getLsbD_getD_ushiftRight hw, Nat.testBit_div_two_pow]
  rcases Nat.lt_or_ge (s + r) w with hrs | hrs
  · have hle : ¬ w - s ≤ r := by omega
    have hindex : w * j + r + (w * k + s) = w * (j + k) + (s + r) := by
      rw [Nat.mul_add]
      omega
    rw [hindex, decide_eq_false hle, decide_eq_true hrs]
    simp
  · -- a bit of the limb behind
    have hs0 : s ≠ 0 := by omega
    have hle : w - s ≤ r := by omega
    have hindex : w * j + r + (w * k + s) = w * (j + (k + 1)) + (r - (w - s)) := by
      rw [Nat.mul_add, Nat.mul_succ]
      omega
    rw [hindex, decide_eq_true hs0, decide_eq_true hle, decide_eq_false (Nat.not_lt.mpr hrs)]
    simp

end Limbs
