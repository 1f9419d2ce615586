import Mathlib.Order.Bounds.Image
import Mathlib.Tactic.Ring

/-!
# Rounding down to a mantissa and an exponent

The numbers `m * b ^ k` with a mantissa `m` below a bound `M`, and rounding down to such a
number.  Dropping the fewest digits that let the mantissa fit does it (`roundsDown_drop`), if
`b` divides `M`.
-/

namespace Truncation

variable {b M x y v w k : Nat}

/-- A mantissa below `M` and an exponent. -/
def Representable (b M v : Nat) : Prop := ∃ m < M, ∃ k, v = m * b ^ k

/-- The greatest representable number that is not above `x`. -/
def RoundsDown (b M x v : Nat) : Prop := IsGreatest {v | Representable b M v ∧ v ≤ x} v

namespace RoundsDown

theorem le (h : RoundsDown b M x v) : v ≤ x := h.1.2

theorem representable (h : RoundsDown b M x v) : Representable b M v := h.1.1

/-- The representable numbers below `x` are those below what `x` is rounded to. -/
theorem le_iff (h : RoundsDown b M x v) (hw : Representable b M w) : w ≤ v ↔ w ≤ x :=
  ⟨fun hle ↦ hle.trans h.le, fun hle ↦ h.2 ⟨hw, hle⟩⟩

theorem unique (h : RoundsDown b M x v) (h' : RoundsDown b M x w) : v = w := IsGreatest.unique h h'

theorem mono (h : RoundsDown b M x v) (h' : RoundsDown b M y w) (hle : x ≤ y) : v ≤ w :=
  (h'.le_iff h.representable).mpr (h.le.trans hle)

theorem pos (h : RoundsDown b M x v) (hM : 1 < M) (hx : 0 < x) : 0 < v :=
  (h.le_iff ⟨1, hM, 0, (Nat.mul_one 1).symm⟩).mpr hx

end RoundsDown

theorem Representable.roundsDown (h : Representable b M x) : RoundsDown b M x x :=
  ⟨⟨h, le_refl x⟩, fun _ hw ↦ hw.2⟩

/-- The fewest digits to drop. -/
structure Fits (b M x k : Nat) : Prop where
  lt : x / b ^ k < M
  least : ∀ j < k, M ≤ x / b ^ j

/-- Dropping the fewest digits rounds down. -/
theorem roundsDown_drop (hb : 0 < b) (hM : b ∣ M) (h : Fits b M x k) :
    RoundsDown b M x (x / b ^ k * b ^ k) := by
  refine ⟨⟨⟨_, h.lt, k, rfl⟩, Nat.div_mul_le_self _ _⟩, ?_⟩
  rintro w ⟨⟨m, hm, j, rfl⟩, hle⟩
  rcases Nat.lt_or_ge j k with hjk | hkj
  · -- one digit fewer would not do, and a number with that exponent is below one that fits
    obtain ⟨k, rfl⟩ := Nat.exists_eq_succ_of_ne_zero (Nat.ne_zero_of_lt hjk)
    obtain ⟨q, rfl⟩ := hM
    have hx : b * q * b ^ k ≤ x :=
      (Nat.le_div_iff_mul_le (Nat.pow_pos hb)).mp (h.least k k.lt_succ_self)
    have hq : q ≤ x / b ^ (k + 1) := by
      rw [Nat.le_div_iff_mul_le (Nat.pow_pos hb), pow_succ']
      calc q * (b * b ^ k) = b * q * b ^ k := by rw [← Nat.mul_assoc, Nat.mul_comm q b]
        _ ≤ x := hx
    calc m * b ^ j ≤ b * q * b ^ k :=
          Nat.mul_le_mul hm.le (Nat.pow_le_pow_right hb (Nat.lt_succ_iff.mp hjk))
      _ = q * b ^ (k + 1) := by rw [pow_succ', ← Nat.mul_assoc, Nat.mul_comm q b]
      _ ≤ x / b ^ (k + 1) * b ^ (k + 1) := Nat.mul_le_mul_right _ hq
  · obtain ⟨i, rfl⟩ := Nat.exists_eq_add_of_le hkj
    rw [pow_add, Nat.mul_comm (b ^ k), ← Nat.mul_assoc] at hle ⊢
    exact Nat.mul_le_mul_right _ ((Nat.le_div_iff_mul_le (Nat.pow_pos hb)).mpr hle)

/-- Some number of digits is enough. -/
theorem exists_fits (hb : 1 < b) (hM : 0 < M) (x : Nat) : ∃ k, Fits b M x k := by
  have hex : ∃ k, x / b ^ k < M :=
    ⟨x, (Nat.div_eq_of_lt (Nat.lt_pow_self hb)).trans_lt hM⟩
  exact ⟨Nat.find hex, Nat.find_spec hex, fun j hj ↦ Nat.not_lt.mp (Nat.find_min hex hj)⟩

/-- What rounding takes away, relative to the number. -/
theorem RoundsDown.sub_mul_lt (h : RoundsDown b M x v) (hb : 1 < b) {q : Nat} (hM : M = b * q)
    (hq : 0 < q) (hx : 0 < x) : (x - v) * q < x := by
  obtain ⟨k, hk⟩ := exists_fits hb (hM ▸ Nat.mul_pos (Nat.zero_lt_of_lt hb) hq : 0 < M) x
  obtain rfl := h.unique (roundsDown_drop (Nat.zero_lt_of_lt hb) ⟨q, hM⟩ hk)
  have hsub : x - x / b ^ k * b ^ k = x % b ^ k := by
    rw [Nat.mul_comm, ← Nat.mod_eq_sub_mul_div]
  rw [hsub]
  cases k with
  | zero => rwa [pow_zero, Nat.mod_one, Nat.zero_mul]
  | succ k =>
    have hle : M * b ^ k ≤ x := (Nat.le_div_iff_mul_le (Nat.pow_pos (Nat.zero_lt_of_lt hb))).mp
      (hk.least k k.lt_succ_self)
    calc x % b ^ (k + 1) * q < b ^ (k + 1) * q :=
          Nat.mul_lt_mul_of_pos_right (Nat.mod_lt _ (Nat.pow_pos (Nat.zero_lt_of_lt hb))) hq
      _ = M * b ^ k := by rw [hM, pow_succ']; ring
      _ ≤ x := hle

end Truncation
