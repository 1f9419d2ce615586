import Mathlib.Algebra.BigOperators.Ring.Finset
import Mathlib.Algebra.Order.BigOperators.Group.Finset
import Mathlib.Algebra.Order.Ring.Int
import Mathlib.Data.Finmap

/-!
# Sums over finite maps

The sum of a weight over the values of a finite map, and what overwriting or erasing an entry
does to it; counting the values that satisfy a test is a sum of this kind.
-/

/-- What is found after an insertion is the new entry or an old one. -/
theorem Finmap.cases_lookup_insert {α β : Type*} [DecidableEq α] {m : Finmap fun _ : α ↦ β}
    {a k : α} {b c : β} (h : (m.insert k b).lookup a = some c) :
    a = k ∧ b = c ∨ a ≠ k ∧ m.lookup a = some c := by
  by_cases ha : a = k
  · subst ha
    rw [Finmap.lookup_insert] at h
    exact .inl ⟨rfl, Option.some.inj h⟩
  · rw [Finmap.lookup_insert_of_ne _ ha] at h
    exact .inr ⟨ha, h⟩

namespace MapSum

variable {α β : Type*} [DecidableEq α] (f : β → Int) {m : Finmap fun _ : α ↦ β} {k : α} {b : β}

/-- The sum of `f` over the values of the map. -/
def total (m : Finmap fun _ : α ↦ β) : Int := ∑ k ∈ m.keys, (m.lookup k).elim 0 f

/-- The sum may range over more keys, as absent ones count for nothing. -/
theorem total_eq_sum {s : Finset α} (hs : m.keys ⊆ s) :
    total f m = ∑ k ∈ s, (m.lookup k).elim 0 f := by
  refine Finset.sum_subset hs fun k _ hk ↦ ?_
  rw [Finmap.mem_keys, ← Finmap.lookup_eq_none] at hk
  rw [hk]
  rfl

theorem keys_insert_subset : (m.insert k b).keys ⊆ insert k m.keys := by
  intro a ha
  rw [Finmap.mem_keys, Finmap.mem_insert] at ha
  rw [Finset.mem_insert, Finmap.mem_keys]
  exact ha

/-- Overwriting an entry replaces its weight. -/
theorem total_insert :
    total f (m.insert k b) = total f m - (m.lookup k).elim 0 f + f b := by
  rw [total_eq_sum f keys_insert_subset, total_eq_sum f (Finset.subset_insert k m.keys),
    ← Finset.add_sum_erase _ _ (Finset.mem_insert_self k m.keys),
    ← Finset.add_sum_erase _ _ (Finset.mem_insert_self k m.keys), Finmap.lookup_insert]
  have hrest : ∑ a ∈ (insert k m.keys).erase k, ((m.insert k b).lookup a).elim 0 f =
      ∑ a ∈ (insert k m.keys).erase k, (m.lookup a).elim 0 f := by
    refine Finset.sum_congr rfl fun a ha ↦ ?_
    rw [Finmap.lookup_insert_of_ne _ (Finset.ne_of_mem_erase ha)]
  rw [hrest, Option.elim_some]
  omega

/-- Erasing an entry takes its weight away. -/
theorem total_erase : total f (m.erase k) = total f m - (m.lookup k).elim 0 f := by
  have hkeys : (m.erase k).keys ⊆ m.keys := by
    intro a ha
    rw [Finmap.mem_keys, Finmap.mem_erase] at ha
    exact Finmap.mem_keys.mpr ha.2
  rw [total_eq_sum f (hkeys.trans (Finset.subset_insert k _)),
    total_eq_sum f (Finset.subset_insert k m.keys),
    ← Finset.add_sum_erase _ _ (Finset.mem_insert_self k m.keys),
    ← Finset.add_sum_erase _ _ (Finset.mem_insert_self k m.keys), Finmap.lookup_erase]
  have hrest : ∑ a ∈ (insert k m.keys).erase k, ((m.erase k).lookup a).elim 0 f =
      ∑ a ∈ (insert k m.keys).erase k, (m.lookup a).elim 0 f := by
    refine Finset.sum_congr rfl fun a ha ↦ ?_
    rw [Finmap.lookup_erase_ne (Finset.ne_of_mem_erase ha)]
  rw [hrest, Option.elim_none]
  omega

section

variable (p : β → Bool)

/-- The number of values that satisfy the test. -/
def count (m : Finmap fun _ : α ↦ β) : Nat := (m.keys.filter fun k ↦ (m.lookup k).any p).card

/-- The count depends on nothing but the outcomes of the test. -/
theorem count_congr {m' : Finmap fun _ : α ↦ β}
    (h : ∀ k, (m'.lookup k).map p = (m.lookup k).map p) : count p m' = count p m := by
  have hmem : ∀ (m : Finmap fun _ : α ↦ β) k,
      (k ∈ m.keys.filter fun k ↦ (m.lookup k).any p) ↔ (m.lookup k).map p = some true := by
    intro m k
    rw [Finset.mem_filter, Finmap.mem_keys, ← Finmap.lookup_isSome]
    cases m.lookup k <;> simp
  rw [count, count]
  congr 1
  ext k
  rw [hmem, hmem, h]

theorem count_eq_total : (count p m : Int) = total (fun b ↦ if p b then 1 else 0) m := by
  rw [count, Finset.card_filter, total, Nat.cast_sum]
  refine Finset.sum_congr rfl fun k _ ↦ ?_
  cases m.lookup k with
  | none => rfl
  | some b => exact Nat.cast_ite _ 1 0

theorem count_insert : (count p (m.insert k b) : Int) =
    count p m - (m.lookup k).elim 0 (fun b ↦ if p b then 1 else 0) + if p b then 1 else 0 := by
  rw [count_eq_total, count_eq_total, total_insert]

theorem count_erase : (count p (m.erase k) : Int) =
    count p m - (m.lookup k).elim 0 (fun b ↦ if p b then 1 else 0) := by
  rw [count_eq_total, count_eq_total, total_erase]

end

end MapSum
