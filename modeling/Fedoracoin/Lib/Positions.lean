import Mathlib.Data.Finmap

/-!
# Lists with an index of positions

Several owners keep linked lists, the cells of which have an identity that stays when other cells
are inserted or erased.  A map from keys to an owner and a cell says where the entry of a key is.

`Tracks lists key pos` says that the map leads exactly to the entries that are listed.  So no key
is listed twice (`Tracks.unique`).  The three rules are appending an entry with a new key, erasing
the entry that the map leads to, and dropping the list of an owner.
-/

variable {ω κ α : Type*}

namespace Positions

/-- A linked list: its cells in order, each with its identity. -/
abbrev Cells (α : Type*) := List (Nat × α)

/-- Erases the cell that an iterator points to; there is no value if it is not in the list. -/
def eraseCell (l : Cells α) (it : Nat) : Option (Cells α) :=
  if it ∈ l.map Prod.fst then some (l.filter (·.1 ≠ it)) else none

variable [DecidableEq ω] [DecidableEq κ]

/-- The map leads to the entries of the lists, and to each of them by its key. -/
structure Tracks (lists : ω → Cells α) (key : α → κ) (pos : Finmap fun _ : κ ↦ ω × Nat) :
    Prop where
  lookup_iff : ∀ k o it, pos.lookup k = some (o, it) ↔ ∃ a, (it, a) ∈ lists o ∧ key a = k
  nodup : ∀ o, ((lists o).map Prod.fst).Nodup

variable {lists : ω → Cells α} {key : α → κ} {pos : Finmap fun _ : κ ↦ ω × Nat} {o o' : ω}
  {it it' c : Nat} {a a' : α} {k : κ}

omit [DecidableEq ω] in
theorem tracks_empty (key : α → κ) : Tracks (fun _ : ω ↦ []) key ∅ where
  lookup_iff k o it := by simp
  nodup o := List.nodup_nil

namespace Tracks

omit [DecidableEq ω]

theorem congr {lists' : ω → Cells α} (h : Tracks lists key pos)
    (heq : ∀ o, lists' o = lists o) : Tracks lists' key pos := by
  rwa [funext heq]

/-- The entry of a cell. -/
theorem eq_of_mem (h : Tracks lists key pos) (ha : (it, a) ∈ lists o) (ha' : (it, a') ∈ lists o) :
    a = a' := by
  have heq := List.inj_on_of_nodup_map (h.nodup o) ha ha' rfl
  exact (Prod.mk.inj heq).2

/-- No key is listed twice. -/
theorem unique (h : Tracks lists key pos) (ha : (it, a) ∈ lists o) (ha' : (it', a') ∈ lists o')
    (hkey : key a = key a') : o = o' ∧ it = it' ∧ a = a' := by
  have hl := (h.lookup_iff (key a') o it).mpr ⟨a, ha, hkey⟩
  have hl' := (h.lookup_iff (key a') o' it').mpr ⟨a', ha', rfl⟩
  obtain ⟨rfl, rfl⟩ := Prod.mk.inj (Option.some.inj (hl.symm.trans hl'))
  exact ⟨rfl, rfl, h.eq_of_mem ha ha'⟩

theorem nodup_keys (h : Tracks lists key pos) (o : ω) : ((lists o).map (key ·.2)).Nodup := by
  apply (h.nodup o).of_map.map_on
  rintro ⟨it, a⟩ ha ⟨it', a'⟩ ha' hkey
  obtain ⟨-, rfl, rfl⟩ := h.unique ha ha' hkey
  rfl

theorem lookup_eq_none_iff (h : Tracks lists key pos) :
    pos.lookup k = none ↔ ∀ o it a, (it, a) ∈ lists o → key a ≠ k := by
  constructor
  · rintro hnone o it a ha rfl
    have hl := (h.lookup_iff (key a) o it).mpr ⟨a, ha, rfl⟩
    exact absurd (hnone.symm.trans hl) (by simp)
  · intro hall
    cases hl : pos.lookup k with
    | none => rfl
    | some p =>
        obtain ⟨a, ha, hkey⟩ := (h.lookup_iff k p.1 p.2).mp hl
        exact absurd hkey (hall p.1 p.2 a ha)

/-- The cell that the map leads to can be erased. -/
theorem eraseCell (h : Tracks lists key pos) (hl : pos.lookup k = some (o, it)) :
    Positions.eraseCell (lists o) it = some ((lists o).filter (·.1 ≠ it)) := by
  obtain ⟨a, ha, -⟩ := (h.lookup_iff k o it).mp hl
  rw [Positions.eraseCell, if_pos (List.mem_map_of_mem (f := Prod.fst) ha)]

theorem length_filter (h : Tracks lists key pos) (hl : pos.lookup k = some (o, it)) :
    ((lists o).filter (·.1 ≠ it)).length + 1 = (lists o).length := by
  obtain ⟨a, ha, -⟩ := (h.lookup_iff k o it).mp hl
  have hnodup := h.nodup o
  generalize lists o = l at ha hnodup ⊢
  induction l with
  | nil => exact absurd ha List.not_mem_nil
  | cons x l ih =>
      rw [List.map_cons, List.nodup_cons] at hnodup
      by_cases hx : x.1 = it
      · have hrest : l.filter (·.1 ≠ it) = l := by
          rw [List.filter_eq_self]
          intro y hy
          rw [decide_eq_true_eq, ← hx]
          exact fun hyx ↦ hnodup.1 (hyx ▸ List.mem_map_of_mem hy)
        rw [List.filter_cons_of_neg (by simp [hx]), hrest, List.length_cons]
      · rcases List.mem_cons.mp ha with rfl | ha
        · exact absurd rfl hx
        · rw [List.filter_cons_of_pos (by simp [hx]), List.length_cons, ih ha hnodup.2,
            List.length_cons]

omit [DecidableEq κ] in
/-- The other cells are those of the other keys. -/
theorem filter_cell [DecidableEq κ] (h : Tracks lists key pos) (hl : pos.lookup k = some (o, it)) :
    (lists o).filter (·.1 ≠ it) = (lists o).filter (key ·.2 ≠ k) := by
  obtain ⟨a, ha, hkey⟩ := (h.lookup_iff k o it).mp hl
  apply List.filter_congr
  rintro ⟨it', b⟩ hb
  rw [decide_eq_decide]
  refine not_congr ⟨?_, ?_⟩
  · rintro rfl
    rw [h.eq_of_mem hb ha, hkey]
  · intro hbk
    exact (h.unique hb ha (hbk.trans hkey.symm)).2.1

/-- A key that is not listed is in no list. -/
theorem filter_eq_self (h : Tracks lists key pos) (hl : ∀ it, pos.lookup k ≠ some (o, it)) :
    (lists o).filter (key ·.2 ≠ k) = lists o := by
  rw [List.filter_eq_self]
  rintro ⟨it, a⟩ ha
  rw [decide_eq_true_eq]
  intro hkey
  exact hl it ((h.lookup_iff k o it).mpr ⟨a, ha, hkey⟩)

end Tracks

namespace Tracks

/-- A new key goes to the end of a list. -/
theorem push (h : Tracks lists key pos) (hnew : pos.lookup (key a) = none)
    (hit : ∀ x ∈ lists o, x.1 ≠ c) :
    Tracks (Function.update lists o (lists o ++ [(c, a)])) key
      (pos.insert (key a) (o, c)) where
  lookup_iff := by
    intro k o' it'
    by_cases hk : k = key a
    · subst hk
      rw [Finmap.lookup_insert]
      have hold := h.lookup_eq_none_iff.mp hnew
      by_cases ho : o' = o
      · subst ho
        rw [Function.update_self]
        constructor
        · intro heq
          obtain ⟨-, rfl⟩ := Prod.mk.inj (Option.some.inj heq)
          exact ⟨a, by simp, rfl⟩
        · rintro ⟨b, hb, hkey⟩
          rcases List.mem_append.mp hb with hb | hb
          · exact absurd hkey (hold o' it' b hb)
          · obtain ⟨rfl, -⟩ := Prod.mk.inj (List.mem_singleton.mp hb)
            rfl
      · rw [Function.update_of_ne ho]
        refine iff_of_false ?_ ?_
        · intro heq
          exact ho (Prod.mk.inj (Option.some.inj heq)).1.symm
        · rintro ⟨b, hb, hkey⟩
          exact hold o' it' b hb hkey
    · rw [Finmap.lookup_insert_of_ne _ hk, h.lookup_iff]
      by_cases ho : o' = o
      · subst ho
        rw [Function.update_self]
        constructor
        · rintro ⟨b, hb, hkey⟩
          exact ⟨b, List.mem_append_left _ hb, hkey⟩
        · rintro ⟨b, hb, rfl⟩
          rcases List.mem_append.mp hb with hb | hb
          · exact ⟨b, hb, rfl⟩
          · obtain ⟨-, rfl⟩ := Prod.mk.inj (List.mem_singleton.mp hb)
            exact absurd rfl hk
      · rw [Function.update_of_ne ho]
  nodup := by
    intro o'
    by_cases ho : o' = o
    · subst ho
      rw [Function.update_self, List.map_append, List.nodup_append]
      refine ⟨h.nodup o', List.nodup_singleton _, ?_⟩
      intro x hx y hy
      obtain ⟨p, hp, rfl⟩ := List.mem_map.mp hx
      rw [List.map_singleton, List.mem_singleton] at hy
      rw [hy]
      exact hit p hp
    · rw [Function.update_of_ne ho]
      exact h.nodup o'

/-- The entry of a key goes. -/
theorem erase (h : Tracks lists key pos) (hl : pos.lookup k = some (o, it)) :
    Tracks (Function.update lists o ((lists o).filter (·.1 ≠ it))) key (pos.erase k) where
  lookup_iff := by
    obtain ⟨a, ha, hkey⟩ := (h.lookup_iff k o it).mp hl
    intro k' o' it'
    have hmem : ∀ b, (it', b) ∈ Function.update lists o ((lists o).filter (·.1 ≠ it)) o' ↔
        (it', b) ∈ lists o' ∧ key b ≠ k := by
      intro b
      by_cases ho : o' = o
      · subst ho
        rw [Function.update_self, List.mem_filter, decide_eq_true_eq]
        refine and_congr_right fun hb ↦ not_congr ?_
        dsimp only
        constructor
        · rintro rfl
          rw [h.eq_of_mem hb ha, hkey]
        · intro hbk
          exact (h.unique hb ha (hbk.trans hkey.symm)).2.1
      · rw [Function.update_of_ne ho]
        refine (and_iff_left_of_imp ?_).symm
        intro hb hbk
        exact ho (h.unique hb ha (hbk.trans hkey.symm)).1
    by_cases hk : k' = k
    · subst hk
      rw [Finmap.lookup_erase]
      refine iff_of_false (by simp) ?_
      rintro ⟨b, hb, hbk⟩
      exact ((hmem b).mp hb).2 hbk
    · rw [Finmap.lookup_erase_ne hk, h.lookup_iff]
      constructor
      · rintro ⟨b, hb, rfl⟩
        exact ⟨b, (hmem b).mpr ⟨hb, hk⟩, rfl⟩
      · rintro ⟨b, hb, rfl⟩
        exact ⟨b, ((hmem b).mp hb).1, rfl⟩
  nodup := by
    intro o'
    by_cases ho : o' = o
    · subst ho
      rw [Function.update_self]
      exact (h.nodup o').sublist (List.filter_sublist.map Prod.fst)
    · rw [Function.update_of_ne ho]
      exact h.nodup o'

omit [DecidableEq ω] in
theorem lookup_foldl_erase (l : List α) (key : α → κ) (pos : Finmap fun _ : κ ↦ ω × Nat) (k : κ) :
    (l.foldl (fun pos a ↦ pos.erase (key a)) pos).lookup k =
      if ∃ a ∈ l, key a = k then none else pos.lookup k := by
  induction l generalizing pos with
  | nil => simp
  | cons a l ih =>
      rw [List.foldl_cons, ih]
      simp only [List.exists_mem_cons_iff]
      by_cases ha : key a = k
      · subst ha
        rw [Finmap.lookup_erase, if_pos (Or.inl rfl), ite_self]
      · rw [Finmap.lookup_erase_ne (Ne.symm ha)]
        simp [ha]

/-- An owner goes, with the entries of its list. -/
theorem drop (h : Tracks lists key pos) (o : ω) :
    Tracks (Function.update lists o [])
      key ((lists o).foldl (fun pos x ↦ pos.erase (key x.2)) pos) where
  lookup_iff := by
    intro k o' it'
    have hfold : ((lists o).foldl (fun pos x ↦ pos.erase (key x.2)) pos).lookup k =
        if ∃ x ∈ lists o, key x.2 = k then none else pos.lookup k :=
      lookup_foldl_erase (lists o) (fun x ↦ key x.2) pos k
    rw [hfold]
    by_cases ho : o' = o
    · subst ho
      rw [Function.update_self]
      refine iff_of_false ?_ (by simp)
      intro heq
      split at heq
      case isTrue => cases heq
      case isFalse hnot =>
        obtain ⟨a, ha, hkey⟩ := (h.lookup_iff k o' it').mp heq
        exact hnot ⟨(it', a), ha, hkey⟩
    · rw [Function.update_of_ne ho]
      by_cases hex : ∃ x ∈ lists o, key x.2 = k
      · rw [if_pos hex]
        refine iff_of_false (by simp) ?_
        obtain ⟨⟨it, a⟩, ha, hkey⟩ := hex
        rintro ⟨b, hb, hbk⟩
        exact ho (h.unique hb ha (hbk.trans hkey.symm)).1
      · rw [if_neg hex]
        exact h.lookup_iff k o' it'
  nodup := by
    intro o'
    by_cases ho : o' = o
    · subst ho
      rw [Function.update_self]
      exact List.nodup_nil
    · rw [Function.update_of_ne ho]
      exact h.nodup o'

end Tracks

end Positions
