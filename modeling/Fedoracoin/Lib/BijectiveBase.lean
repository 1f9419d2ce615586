import Mathlib.Algebra.BigOperators.Ring.Finset
import Mathlib.Algebra.BigOperators.Intervals
import Mathlib.Data.List.GetD

/-!
# Bijective numeration

Numerals in base `b` whose digits stand for 1 to `b`: a digit `d < b` stands for `d + 1`.  No digit
is zero, so that a numeral has no leading zeros to drop and every number has exactly one numeral.
-/

namespace BijectiveBase

open Finset

variable {b d d' : Nat} {ds ds' : List Nat}

/-- What a numeral stands for, the most significant digit first. -/
def value (b : Nat) (ds : List Nat) : Nat := ds.foldl (fun m d ↦ m * b + (d + 1)) 0

@[simp] theorem value_nil (b : Nat) : value b [] = 0 := rfl

@[simp] theorem value_concat (b : Nat) (ds : List Nat) (d : Nat) :
    value b (ds ++ [d]) = value b ds * b + (d + 1) := by
  rw [value, List.foldl_append]
  rfl

/-- Every number has at most one numeral. -/
theorem value_inj (hds : ∀ d ∈ ds, d < b) (hds' : ∀ d ∈ ds', d < b)
    (h : value b ds = value b ds') : ds = ds' := by
  induction ds using List.reverseRecOn generalizing ds' with
  | nil =>
      cases ds' using List.reverseRecOn with
      | nil => rfl
      | append_singleton ds' d' =>
          rw [value_nil, value_concat] at h
          omega
  | append_singleton ds d ih =>
      cases ds' using List.reverseRecOn with
      | nil =>
          rw [value_nil, value_concat] at h
          omega
      | append_singleton ds' d' =>
          rw [List.forall_mem_append, List.forall_mem_singleton] at hds hds'
          rw [value_concat, value_concat, ← Nat.add_assoc, ← Nat.add_assoc, Nat.add_left_inj,
            Nat.mul_comm _ b, Nat.mul_comm _ b] at h
          have hb : 0 < b := Nat.zero_lt_of_lt hds.2
          have hd : d = d' := by
            have hmod := congrArg (· % b) h
            simpa only [Nat.mul_add_mod, Nat.mod_eq_of_lt hds.2, Nat.mod_eq_of_lt hds'.2] using hmod
          have hvalue : value b ds = value b ds' := by
            rw [hd, Nat.add_left_inj] at h
            exact Nat.eq_of_mul_eq_mul_left hb h
          rw [ih hds.1 hds'.1 hvalue, hd]

/-- The value as a sum over the places, counted from the last one. -/
theorem value_eq_sum (b : Nat) (ds : List Nat) :
    value b ds = ∑ i ∈ range ds.length, b ^ i * (ds.getD (ds.length - i - 1) 0 + 1) := by
  induction ds using List.reverseRecOn with
  | nil => rfl
  | append_singleton ds d ih =>
      rw [value_concat, ih, List.length_append, List.length_singleton, sum_range_succ', sum_mul]
      congr 1
      · apply sum_congr rfl
        intro i hi
        have hlt : ds.length - i - 1 < ds.length := by
          have := mem_range.mp hi
          omega
        rw [show ds.length + 1 - (i + 1) - 1 = ds.length - i - 1 by omega,
          List.getD_append _ _ _ _ hlt, pow_succ, Nat.mul_right_comm]
      · rw [Nat.sub_zero, Nat.add_sub_cancel, List.getD_eq_getElem?_getD,
          List.getElem?_concat_length, pow_zero, Nat.one_mul, Option.getD_some]

end BijectiveBase
