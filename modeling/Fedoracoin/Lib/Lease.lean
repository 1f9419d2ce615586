import Mathlib.Data.Finmap

/-!
# Things that are lent

Entries of a table, by an index, are on offer or held by someone, and leave the table when they are
used.  What an entry is of, its value under `f`, is used once: `Lending` says that nothing on offer
or held has been used, and that no two of it are of the same.

* `Lending.add`: an entry comes on offer, under an index that nobody holds;
* `Lending.clear`: what is on offer is withdrawn;
* `Lending.take_use`: what is on offer is used;
* `Lending.take`, `Lending.giveBack`, `Lending.use`: what is on offer is taken, and what is held is
  given back or used.
-/

variable {ι κ α β : Type*} [DecidableEq ι]

structure Lending (f : α → β) (offered : Finset ι) (table : Finmap fun _ : ι ↦ α)
    (held : κ → Option ι) (used : List β) : Prop where
  mem_table (i : ι) : i ∈ table ↔ i ∈ offered ∨ ∃ r, held r = some i
  not_offered {r : κ} {i : ι} (h : held r = some i) : i ∉ offered
  held_inj {r r' : κ} {i : ι} (h : held r = some i) (h' : held r' = some i) : r = r'
  table_inj {i j : ι} {a b : α} (hi : table.lookup i = some a) (hj : table.lookup j = some b)
    (h : f a = f b) : i = j
  unused {i : ι} {a : α} (h : table.lookup i = some a) : f a ∉ used

namespace Lending

variable {f : α → β} {offered : Finset ι} {table : Finmap fun _ : ι ↦ α} {held : κ → Option ι}
  {used : List β} {i : ι} {r : κ} {a : α}

theorem exists_lookup (h : Lending f offered table held used) (hi : i ∈ offered) :
    ∃ a, table.lookup i = some a :=
  Finmap.mem_iff.mp ((h.mem_table i).mpr (.inl hi))

theorem exists_lookup_of_held (h : Lending f offered table held used) (hr : held r = some i) :
    ∃ a, table.lookup i = some a :=
  Finmap.mem_iff.mp ((h.mem_table i).mpr (.inr ⟨r, hr⟩))

theorem lookup_of_erase {j : ι} (h : (table.erase i).lookup j = some a) :
    j ≠ i ∧ table.lookup j = some a := by
  have hne : j ≠ i := by
    rintro rfl
    rw [Finmap.lookup_erase] at h
    cases h
  rw [Finmap.lookup_erase_ne hne] at h
  exact ⟨hne, h⟩

theorem add (h : Lending f offered table held used) (hheld : ∀ r, held r ≠ some i)
    (hnew : ∀ j b, table.lookup j = some b → f b ≠ f a) (hunused : f a ∉ used) :
    Lending f (insert i offered) (table.insert i a) held used where
  mem_table j := by
    rw [Finmap.mem_insert, Finset.mem_insert, h.mem_table, or_assoc]
  not_offered {r} j hj hmem := by
    obtain rfl | hmem := Finset.mem_insert.mp hmem
    · exact hheld r hj
    · exact h.not_offered hj hmem
  held_inj := h.held_inj
  table_inj {j k b c} hj hk heq := by
    by_cases hji : j = i
    · by_cases hki : k = i
      · exact hji.trans hki.symm
      · rw [hji, Finmap.lookup_insert] at hj
        rw [Finmap.lookup_insert_of_ne _ hki] at hk
        exact absurd (heq.symm.trans (congrArg f (Option.some.inj hj).symm)) (hnew k c hk)
    · rw [Finmap.lookup_insert_of_ne _ hji] at hj
      by_cases hki : k = i
      · rw [hki, Finmap.lookup_insert] at hk
        exact absurd (heq.trans (congrArg f (Option.some.inj hk).symm)) (hnew j b hj)
      · rw [Finmap.lookup_insert_of_ne _ hki] at hk
        exact h.table_inj hj hk heq
  unused {j b} hj := by
    by_cases hji : j = i
    · rw [hji, Finmap.lookup_insert] at hj
      rwa [← Option.some.inj hj]
    · rw [Finmap.lookup_insert_of_ne _ hji] at hj
      exact h.unused hj

/-- What is on offer leaves the table with its offer. -/
theorem clear {table' : Finmap fun _ : ι ↦ α} (h : Lending f offered table held used)
    (htable : ∀ i, table'.lookup i = if i ∈ offered then none else table.lookup i) :
    Lending f ∅ table' held used := by
  have hlookup {j : ι} {b : α} (hj : table'.lookup j = some b) : table.lookup j = some b := by
    rw [htable] at hj
    split at hj
    case isTrue => cases hj
    case isFalse => exact hj
  refine ⟨fun j ↦ ?_, fun _ ↦ Finset.notMem_empty _, h.held_inj,
    fun hj hk ↦ h.table_inj (hlookup hj) (hlookup hk), fun hj ↦ h.unused (hlookup hj)⟩
  rw [← Finmap.lookup_isSome, htable]
  split
  case isTrue hoffered =>
    refine iff_of_false Bool.false_ne_true ?_
    rintro (hj | ⟨r, hr⟩)
    · exact Finset.notMem_empty j hj
    · exact h.not_offered hr hoffered
  case isFalse hoffered =>
    rw [Finmap.lookup_isSome, h.mem_table]
    exact or_congr_left (iff_of_false hoffered (Finset.notMem_empty j))

/-- What is on offer is used without being held. -/
theorem take_use (h : Lending f offered table held used) (hi : i ∈ offered)
    (ha : table.lookup i = some a) :
    Lending f (offered.erase i) (table.erase i) held (f a :: used) where
  mem_table j := by
    rw [Finmap.mem_erase, h.mem_table, Finset.mem_erase]
    constructor
    · rintro ⟨hji, hj | hj⟩
      · exact .inl ⟨hji, hj⟩
      · exact .inr hj
    · rintro (⟨hji, hj⟩ | ⟨r, hr⟩)
      · exact ⟨hji, .inl hj⟩
      · refine ⟨?_, .inr ⟨r, hr⟩⟩
        rintro rfl
        exact h.not_offered hr hi
  not_offered hj := mt Finset.mem_of_mem_erase (h.not_offered hj)
  held_inj := h.held_inj
  table_inj hj hk := h.table_inj (lookup_of_erase hj).2 (lookup_of_erase hk).2
  unused {j b} hj hmem := by
    obtain ⟨hji, hj⟩ := lookup_of_erase hj
    obtain heq | hmem := List.mem_cons.mp hmem
    · exact hji (h.table_inj hj ha heq)
    · exact h.unused hj hmem

variable [DecidableEq κ]

theorem take (h : Lending f offered table held used) (hi : i ∈ offered) (hr : held r = none) :
    Lending f (offered.erase i) table (Function.update held r (some i)) used where
  mem_table j := by
    rw [h.mem_table, Finset.mem_erase]
    constructor
    · rintro (hj | ⟨r', hr'⟩)
      · by_cases hji : j = i
        · exact .inr ⟨r, by rw [Function.update_self, hji]⟩
        · exact .inl ⟨hji, hj⟩
      · refine .inr ⟨r', ?_⟩
        rwa [Function.update_of_ne]
        rintro rfl
        rw [hr] at hr'
        cases hr'
    · rintro (⟨-, hj⟩ | ⟨r', hr'⟩)
      · exact .inl hj
      · by_cases hrr : r' = r
        · rw [hrr, Function.update_self] at hr'
          obtain rfl := Option.some.inj hr'
          exact .inl hi
        · rw [Function.update_of_ne hrr] at hr'
          exact .inr ⟨r', hr'⟩
  not_offered {r' j} hj hmem := by
    obtain ⟨hji, hmem⟩ := Finset.mem_erase.mp hmem
    by_cases hrr : r' = r
    · rw [hrr, Function.update_self] at hj
      exact hji (Option.some.inj hj).symm
    · rw [Function.update_of_ne hrr] at hj
      exact h.not_offered hj hmem
  held_inj {r₁ r₂ j} h₁ h₂ := by
    by_cases hr₁ : r₁ = r
    · by_cases hr₂ : r₂ = r
      · exact hr₁.trans hr₂.symm
      · rw [hr₁, Function.update_self] at h₁
        rw [Function.update_of_ne hr₂] at h₂
        obtain rfl := Option.some.inj h₁
        exact absurd hi (h.not_offered h₂)
    · rw [Function.update_of_ne hr₁] at h₁
      by_cases hr₂ : r₂ = r
      · rw [hr₂, Function.update_self] at h₂
        obtain rfl := Option.some.inj h₂
        exact absurd hi (h.not_offered h₁)
      · rw [Function.update_of_ne hr₂] at h₂
        exact h.held_inj h₁ h₂
  table_inj := h.table_inj
  unused := h.unused

omit [DecidableEq ι] in
/-- Who holds something when one lets go. -/
theorem held_of_update {j : ι} {r' : κ} (hr : Function.update held r none r' = some j) :
    r' ≠ r ∧ held r' = some j := by
  have hne : r' ≠ r := by
    rintro rfl
    rw [Function.update_self] at hr
    cases hr
  rw [Function.update_of_ne hne] at hr
  exact ⟨hne, hr⟩

theorem giveBack (h : Lending f offered table held used) (hr : held r = some i) :
    Lending f (insert i offered) table (Function.update held r none) used where
  mem_table j := by
    rw [h.mem_table, Finset.mem_insert]
    constructor
    · rintro (hj | ⟨r', hr'⟩)
      · exact .inl (.inr hj)
      · by_cases hrr : r' = r
        · rw [hrr, hr] at hr'
          exact .inl (.inl (Option.some.inj hr').symm)
        · exact .inr ⟨r', by rw [Function.update_of_ne hrr, hr']⟩
    · rintro ((rfl | hj) | ⟨r', hr'⟩)
      · exact .inr ⟨r, hr⟩
      · exact .inl hj
      · exact .inr ⟨r', (held_of_update hr').2⟩
  not_offered {r' j} hj hmem := by
    obtain ⟨hrr, hj⟩ := held_of_update hj
    obtain rfl | hmem := Finset.mem_insert.mp hmem
    · exact hrr (h.held_inj hj hr)
    · exact h.not_offered hj hmem
  held_inj h₁ h₂ := h.held_inj (held_of_update h₁).2 (held_of_update h₂).2
  table_inj := h.table_inj
  unused := h.unused

theorem use (h : Lending f offered table held used) (hr : held r = some i)
    (ha : table.lookup i = some a) :
    Lending f offered (table.erase i) (Function.update held r none) (f a :: used) where
  mem_table j := by
    rw [Finmap.mem_erase, h.mem_table]
    constructor
    · rintro ⟨hji, hj | ⟨r', hr'⟩⟩
      · exact .inl hj
      · refine .inr ⟨r', ?_⟩
        rwa [Function.update_of_ne]
        rintro rfl
        rw [hr] at hr'
        exact hji (Option.some.inj hr').symm
    · rintro (hj | ⟨r', hr'⟩)
      · refine ⟨?_, .inl hj⟩
        rintro rfl
        exact h.not_offered hr hj
      · obtain ⟨hrr, hr'⟩ := held_of_update hr'
        refine ⟨?_, .inr ⟨r', hr'⟩⟩
        rintro rfl
        exact hrr (h.held_inj hr' hr)
  not_offered hj := h.not_offered (held_of_update hj).2
  held_inj h₁ h₂ := h.held_inj (held_of_update h₁).2 (held_of_update h₂).2
  table_inj hj hk := h.table_inj (lookup_of_erase hj).2 (lookup_of_erase hk).2
  unused {j b} hj hmem := by
    obtain ⟨hji, hj⟩ := lookup_of_erase hj
    obtain heq | hmem := List.mem_cons.mp hmem
    · exact hji (h.table_inj hj ha heq)
    · exact h.unused hj hmem

end Lending
