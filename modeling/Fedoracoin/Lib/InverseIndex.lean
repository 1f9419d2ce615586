import Mathlib.Data.Finmap

/-!
# Inverse indices

A map from keys to sets, kept as the inverse of a relation between keys and items: the set
stored under a key holds the items that are related to it, and no set is empty.

`Inverts idx R` says so.  `add` and `drop` enter and remove one pair, and `drop` removes the key
with the last of its items.  Folds of them over the keys of one item change the relation at that
item alone (`Inverts.addAll`, `Inverts.dropAll`).
-/

variable {κ ι α : Type*} [DecidableEq κ]

namespace InverseIndex

/-- The index holds the pairs of the relation, and no empty sets. -/
structure Inverts (idx : Finmap fun _ : κ ↦ Finset ι) (R : κ → ι → Prop) : Prop where
  nonempty : ∀ {k s}, idx.lookup k = some s → s.Nonempty
  mem_iff : ∀ k i, i ∈ (idx.lookup k).getD ∅ ↔ R k i

variable {idx : Finmap fun _ : κ ↦ Finset ι} {R R' : κ → ι → Prop} {k : κ} {i : ι} {l : List α}
  {key : α → κ}

theorem inverts_empty : Inverts (∅ : Finmap fun _ : κ ↦ Finset ι) fun _ _ ↦ False where
  nonempty h := absurd h (by simp)
  mem_iff k i := by simp

namespace Inverts

theorem congr (h : Inverts idx R) (hR : ∀ k i, R k i ↔ R' k i) : Inverts idx R' where
  nonempty := h.nonempty
  mem_iff k i := (h.mem_iff k i).trans (hR k i)

end Inverts

section

variable [DecidableEq ι]

/-- `idx[k].insert(i)`, where a missing set is an empty one. -/
def add (i : ι) (idx : Finmap fun _ : κ ↦ Finset ι) (k : κ) : Finmap fun _ : κ ↦ Finset ι :=
  idx.insert k (insert i ((idx.lookup k).getD ∅))

/-- Removes `i` from the set of `k`, and the set if nothing is left in it. -/
def drop (i : ι) (idx : Finmap fun _ : κ ↦ Finset ι) (k : κ) : Finmap fun _ : κ ↦ Finset ι :=
  match idx.lookup k with
  | none => idx
  | some s => if s.erase i = ∅ then idx.erase k else idx.insert k (s.erase i)

namespace Inverts

theorem add (h : Inverts idx R) (i : ι) (k : κ) :
    Inverts (add i idx k) fun k' i' ↦ R k' i' ∨ k' = k ∧ i' = i where
  nonempty := by
    intro k' s hs
    rw [InverseIndex.add] at hs
    by_cases hk : k' = k
    · subst hk
      rw [Finmap.lookup_insert] at hs
      obtain rfl := Option.some.inj hs
      exact Finset.insert_nonempty _ _
    · rw [Finmap.lookup_insert_of_ne _ hk] at hs
      exact h.nonempty hs
  mem_iff := by
    intro k' i'
    rw [InverseIndex.add]
    by_cases hk : k' = k
    · subst hk
      rw [Finmap.lookup_insert, Option.getD_some, Finset.mem_insert, h.mem_iff, or_comm]
      simp
    · rw [Finmap.lookup_insert_of_ne _ hk, h.mem_iff]
      simp [hk]

theorem drop (h : Inverts idx R) (i : ι) (k : κ) :
    Inverts (drop i idx k) fun k' i' ↦ R k' i' ∧ ¬ (k' = k ∧ i' = i) := by
  have hother : ∀ {k' s}, k' ≠ k →
      ((InverseIndex.drop i idx k).lookup k' = some s ↔ idx.lookup k' = some s) := by
    intro k' s hk
    rw [InverseIndex.drop]
    cases hl : idx.lookup k with
    | none => exact Iff.rfl
    | some t =>
        dsimp only
        split
        · rw [Finmap.lookup_erase_ne hk]
        · rw [Finmap.lookup_insert_of_ne _ hk]
  have hsame : (InverseIndex.drop i idx k).lookup k =
      (idx.lookup k).bind fun s ↦ if s.erase i = ∅ then none else some (s.erase i) := by
    rw [InverseIndex.drop]
    cases hl : idx.lookup k with
    | none => exact hl
    | some t =>
        dsimp only
        split
        case isTrue he => rw [Finmap.lookup_erase, Option.bind_some, if_pos he]
        case isFalse he => rw [Finmap.lookup_insert, Option.bind_some, if_neg he]
  constructor
  case nonempty =>
    intro k' s hs
    by_cases hk : k' = k
    · subst hk
      rw [hsame] at hs
      obtain ⟨t, -, ht⟩ := Option.bind_eq_some_iff.mp hs
      split at ht
      case isTrue => cases ht
      case isFalse he =>
        obtain rfl := Option.some.inj ht
        exact Finset.nonempty_iff_ne_empty.mpr he
    · exact h.nonempty ((hother hk).mp hs)
  case mem_iff =>
    intro k' i'
    by_cases hk : k' = k
    · subst hk
      rw [hsame, ← h.mem_iff]
      cases hl : idx.lookup k' with
      | none => simp
      | some t =>
          rw [Option.bind_some, Option.getD_some]
          have hmem : i' ∈ t.erase i ↔ i' ∈ t ∧ ¬ (k' = k' ∧ i' = i) := by
            rw [Finset.mem_erase, and_comm]
            simp
          split
          case isTrue he =>
            rw [← hmem, he]
            simp
          case isFalse => exact hmem
    · have hl : (InverseIndex.drop i idx k).lookup k' = idx.lookup k' := by
        ext s
        exact hother hk
      rw [hl, h.mem_iff]
      simp [hk]

/-- An item entered under its keys. -/
theorem addAll (h : Inverts idx R) (i : ι) (key : α → κ) (l : List α) :
    Inverts (l.foldl (fun idx a ↦ InverseIndex.add i idx (key a)) idx)
      fun k i' ↦ R k i' ∨ (∃ a ∈ l, key a = k) ∧ i' = i := by
  induction l generalizing idx R with
  | nil => exact h.congr fun k i' ↦ by simp
  | cons a l ih =>
      apply (ih (h.add i (key a))).congr
      intro k i'
      rw [List.exists_mem_cons_iff, or_assoc, or_and_right, eq_comm (a := k)]

/-- An item removed under its keys. -/
theorem dropAll (h : Inverts idx R) (i : ι) (key : α → κ) (l : List α) :
    Inverts (l.foldl (fun idx a ↦ InverseIndex.drop i idx (key a)) idx)
      fun k i' ↦ R k i' ∧ ¬ ((∃ a ∈ l, key a = k) ∧ i' = i) := by
  induction l generalizing idx R with
  | nil => exact h.congr fun k i' ↦ by simp
  | cons a l ih =>
      apply (ih (h.drop i (key a))).congr
      intro k i'
      rw [List.exists_mem_cons_iff, or_and_right, not_or, and_assoc, eq_comm (a := k)]

end Inverts

end

end InverseIndex
