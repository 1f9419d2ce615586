import Mathlib.Data.Nat.Bitwise
import Mathlib.Data.Set.Lattice

/-!
# Bloom filters

Several hash functions take a key to positions, and a set of positions stands for the keys all of
whose positions are in it.  It may stand for keys that were never added, but a key that was added
stays reported however the set grows (`Reports.mono`).  Sets of positions are kept in bytes, eight
to a byte from its lowest bit on.
-/

namespace BloomSet

/-! ## Sets of positions -/

section

variable {ι κ β : Type*} {hash : ι → κ → β} {S T : Set β} {k : κ}

/-- Where a key is hashed to. -/
def positions (hash : ι → κ → β) (k : κ) : Set β := Set.range fun i ↦ hash i k

/-- The set stands for the key. -/
def Reports (hash : ι → κ → β) (S : Set β) (k : κ) : Prop := positions hash k ⊆ S

theorem reports_iff : Reports hash S k ↔ ∀ i, hash i k ∈ S := Set.range_subset_iff

theorem Reports.mono (h : Reports hash S k) (hST : S ⊆ T) : Reports hash T k := h.trans hST

end

/-! ## Positions in bytes -/

variable {v : List UInt8} {b : UInt8} {n m j : Nat}

/-- Whether a position is set. -/
def bitAt (v : List UInt8) (n : Nat) : Bool := v[n / 8]?.any fun b ↦ b.toNat.testBit (n % 8)

/-- The positions that are set. -/
def bits (v : List UInt8) : Set Nat := {n | bitAt v n = true}

/-- The byte with a single bit set. -/
def mask (j : Nat) : UInt8 := UInt8.ofNat (2 ^ j)

theorem toNat_mask (hj : j < 8) : (mask j).toNat = 2 ^ j := by
  have hlt : 2 ^ j < 2 ^ 8 := Nat.pow_lt_pow_right (by omega) hj
  rw [mask, UInt8.toNat_ofNat']
  exact Nat.mod_eq_of_lt hlt

/-- The test of a bit in a byte. -/
theorem and_mask_ne_zero (hj : j < 8) : b &&& mask j ≠ 0 ↔ b.toNat.testBit j = true := by
  rw [Ne, ← UInt8.toNat_inj, UInt8.toNat_and, toNat_mask hj, Nat.and_two_pow]
  cases b.toNat.testBit j <;> simp

theorem bitAt_eq (h : v[n / 8]? = some b) : bitAt v n = b.toNat.testBit (n % 8) := by
  rw [bitAt, h, Option.any_some]

theorem mem_bits : n ∈ bits v ↔ bitAt v n = true := Iff.rfl

/-- Setting a bit in its byte puts one position into the set. -/
theorem bits_set (h : v[n / 8]? = some b) :
    bits (v.set (n / 8) (b ||| mask (n % 8))) = insert n (bits v) := by
  obtain ⟨hlt, -⟩ := List.getElem?_eq_some_iff.mp h
  have hmod {m : Nat} : m % 8 < 8 := Nat.mod_lt m (by omega)
  ext m
  rw [Set.mem_insert_iff, mem_bits, mem_bits, bitAt, List.getElem?_set]
  rcases eq_or_ne (n / 8) (m / 8) with heq | hne
  · have hv : v[m / 8]? = some b := heq ▸ h
    rw [if_pos heq, if_pos hlt, bitAt_eq hv, Option.any_some, UInt8.toNat_or, Nat.testBit_or,
      toNat_mask hmod, Nat.testBit_two_pow, Bool.or_eq_true, decide_eq_true_eq, or_comm]
    have hpos : n % 8 = m % 8 ↔ m = n := by omega
    rw [hpos]
  · have hm : m ≠ n := fun hmn ↦ hne (congrArg (· / 8) hmn.symm)
    rw [if_neg hne, bitAt]
    simp [hm]

/-- Bytes without a set bit. -/
theorem bits_eq_empty (h : ∀ b ∈ v, b = 0) : bits v = ∅ := by
  ext n
  rw [mem_bits, bitAt]
  cases hb : v[n / 8]? with
  | none => simp
  | some b =>
      have hzero := h b (List.mem_of_getElem? hb)
      simp [hzero]

/-- Bytes with every bit set. -/
theorem mem_bits_of_full (h : ∀ b ∈ v, b = 0xff) (hn : n < 8 * v.length) : n ∈ bits v := by
  have hb : v[n / 8]? = some v[n / 8] := List.getElem?_eq_getElem (by omega)
  have hfull : v[n / 8] = 0xff := h _ (List.getElem_mem _)
  have hones : (0xff : UInt8).toNat = 2 ^ 8 - 1 := rfl
  rw [mem_bits, bitAt_eq hb, hfull, hones, Nat.testBit_two_pow_sub_one]
  exact decide_eq_true (Nat.mod_lt n (by omega))

end BloomSet
