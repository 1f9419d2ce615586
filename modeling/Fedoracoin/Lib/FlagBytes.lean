import Mathlib.Data.List.Basic

/-!
# Flags in bytes

Eight flags to a byte, the first one in the lowest bit.
-/

namespace FlagBytes

variable {f : Nat → Bool}

/-- `ch |= 1 << i` for the flags that are set. -/
def byteOf (f : Nat → Bool) : UInt8 :=
  (List.range 8).foldl (fun ch i ↦ if f i then ch ||| UInt8.ofNat (1 <<< i) else ch) 0

/-- `(ch & (1 << p)) != 0`. -/
def flagsOf (ch : UInt8) : List Bool :=
  (List.range 8).map fun p ↦ ch &&& UInt8.ofNat (1 <<< p) != 0

/-- The bytes of the first `8 * n` flags. -/
def bytesOf (f : Nat → Bool) (n : Nat) : List UInt8 :=
  (List.range n).map fun b ↦ byteOf fun i ↦ f (b * 8 + i)

/-- The flags of a byte are apart. -/
theorem and_eq_zero_iff : ∀ i < 8, ∀ p < 8,
    UInt8.ofNat (1 <<< i) &&& UInt8.ofNat (1 <<< p) = 0 ↔ p ≠ i := by
  decide +kernel

/-- One flag is set. -/
theorem ite_and_eq_zero_iff {i p : Nat} (hi : i < 8) (hp : p < 8) (ch : UInt8) :
    (if f i then ch ||| UInt8.ofNat (1 <<< i) else ch) &&& UInt8.ofNat (1 <<< p) = 0 ↔
      ¬ (p = i ∧ f p = true) ∧ ch &&& UInt8.ofNat (1 <<< p) = 0 := by
  by_cases hf : f i
  · have hdistrib : (ch ||| UInt8.ofNat (1 <<< i)) &&& UInt8.ofNat (1 <<< p) =
        ch &&& UInt8.ofNat (1 <<< p) ||| UInt8.ofNat (1 <<< i) &&& UInt8.ofNat (1 <<< p) :=
      UInt8.toBitVec_inj.mp BitVec.and_or_distrib_right
    rw [if_pos hf, hdistrib, UInt8.or_eq_zero_iff, and_eq_zero_iff i hi p hp, and_comm]
    refine and_congr_left fun _ ↦ not_congr ⟨?_, And.left⟩
    rintro rfl
    exact ⟨rfl, hf⟩
  · rw [if_neg hf, iff_and_self]
    rintro - ⟨rfl, hp⟩
    exact hf hp

/-- Flags are set one after the other. -/
theorem foldl_and_eq_zero_iff {is : List Nat} (his : ∀ i ∈ is, i < 8) {p : Nat} (hp : p < 8)
    (ch : UInt8) :
    is.foldl (fun ch i ↦ if f i then ch ||| UInt8.ofNat (1 <<< i) else ch) ch &&&
        UInt8.ofNat (1 <<< p) = 0 ↔
      ¬ (p ∈ is ∧ f p = true) ∧ ch &&& UInt8.ofNat (1 <<< p) = 0 := by
  induction is generalizing ch with
  | nil => simp
  | cons i is ih =>
    obtain ⟨hi, his⟩ := List.forall_mem_cons.mp his
    rw [List.foldl_cons, ih his, ite_and_eq_zero_iff hi hp, List.mem_cons, or_and_right, not_or,
      ← and_assoc, and_comm (a := ¬ (p ∈ is ∧ f p = true))]

theorem foldl_eq_self {is : List Nat} (his : ∀ i ∈ is, f i = false) (ch : UInt8) :
    is.foldl (fun ch i ↦ if f i then ch ||| UInt8.ofNat (1 <<< i) else ch) ch = ch := by
  induction is generalizing ch with
  | nil => rfl
  | cons i is ih =>
    obtain ⟨hi, his⟩ := List.forall_mem_cons.mp his
    rw [List.foldl_cons, ih his, if_neg (Bool.eq_false_iff.mp hi)]

theorem flagsOf_byteOf (f : Nat → Bool) : flagsOf (byteOf f) = (List.range 8).map f := by
  refine List.map_congr_left fun p hp ↦ ?_
  rw [byteOf, Bool.eq_iff_iff, bne_iff_ne, Ne,
    foldl_and_eq_zero_iff (fun _ ↦ List.mem_range.mp) (List.mem_range.mp hp), UInt8.zero_and]
  simp [List.mem_range.mp hp]

theorem byteOf_eq_zero_iff (f : Nat → Bool) :
    byteOf f = 0 ↔ (List.range 8).all fun i ↦ !f i := by
  rw [List.all_eq_true]
  constructor
  · intro hzero p hp
    have hflag := foldl_and_eq_zero_iff (f := f) (fun _ ↦ List.mem_range.mp)
      (List.mem_range.mp hp) 0
    rw [← byteOf, hzero, UInt8.zero_and] at hflag
    simpa [List.mem_range.mp hp] using hflag
  · intro hnone
    exact foldl_eq_self (fun i hi ↦ (Bool.not_eq_true' _).mp (hnone i hi)) 0

/-- The flags come back. -/
theorem flatMap_flagsOf_bytesOf (f : Nat → Bool) (n : Nat) :
    (bytesOf f n).flatMap flagsOf = (List.range (n * 8)).map f := by
  induction n with
  | zero => rfl
  | succ n ih =>
    rw [bytesOf, List.range_succ, List.map_append, List.flatMap_append, ← bytesOf, ih,
      List.map_singleton, List.flatMap_singleton, flagsOf_byteOf, Nat.succ_mul, List.range_add,
      List.map_append, List.map_map]
    rfl

end FlagBytes
