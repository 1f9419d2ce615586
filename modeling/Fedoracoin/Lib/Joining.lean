import Mathlib.Data.Set.Basic

/-!
# Joining classes

Groups of items that overlap, and the classes they make up: two items are in one class if a chain
of groups leads from one to the other.  Classes are given by a relation that is symmetric and
transitive, and holds of an item and itself where there is a class for it.

`join R g` is what becomes of the classes of `R` when a further group `g` arrives, and the classes
of a family with `g` are the classes of the family, joined by `g` (`transGen_linked_insert`).
-/

universe u

variable {α : Type u}

namespace Joining

/-- Both are in one of the groups. -/
def Linked (G : Set (Set α)) (a b : α) : Prop := ∃ g ∈ G, a ∈ g ∧ b ∈ g

/-- The item is in the group, or in a class that meets it. -/
def Touches (R : α → α → Prop) (g : Set α) (a : α) : Prop := a ∈ g ∨ ∃ c ∈ g, R a c

/-- All classes that meet the group become one, with the group. -/
def join (R : α → α → Prop) (g : Set α) (a b : α) : Prop := R a b ∨ Touches R g a ∧ Touches R g b

variable {R : α → α → Prop} {G : Set (Set α)} {g : Set α} {a b c : α}

theorem Linked.symm (h : Linked G a b) : Linked G b a := by
  obtain ⟨g, hg, ha, hb⟩ := h
  exact ⟨g, hg, hb, ha⟩

theorem transGen_linked_symm (h : Relation.TransGen (Linked G) a b) :
    Relation.TransGen (Linked G) b a := by
  induction h with
  | single h => exact .single h.symm
  | tail _ h ih => exact .head h.symm ih

theorem Touches.of_rel (hsymm : ∀ {a b}, R a b → R b a) (htrans : ∀ {a b c}, R a b → R b c → R a c)
    (h : Touches R g a) (hab : R a b) : Touches R g b := by
  rcases h with ha | ⟨c, hc, hac⟩
  · exact Or.inr ⟨a, ha, hsymm hab⟩
  · exact Or.inr ⟨c, hc, htrans (hsymm hab) hac⟩

/-- Joined classes are classes. -/
theorem join_trans (hsymm : ∀ {a b}, R a b → R b a) (htrans : ∀ {a b c}, R a b → R b c → R a c)
    (hab : join R g a b) (hbc : join R g b c) : join R g a c := by
  rcases hab with hab | ⟨ha, hb⟩
  · rcases hbc with hbc | ⟨hb, hc⟩
    · exact Or.inl (htrans hab hbc)
    · exact Or.inr ⟨hb.of_rel hsymm htrans (hsymm hab), hc⟩
  · rcases hbc with hbc | ⟨-, hc⟩
    · exact Or.inr ⟨ha, hb.of_rel hsymm htrans hbc⟩
    · exact Or.inr ⟨ha, hc⟩

/-- **A further group joins the classes it meets.** -/
theorem transGen_linked_insert :
    Relation.TransGen (Linked (insert g G)) a b ↔ join (Relation.TransGen (Linked G)) g a b := by
  have hmono : ∀ {a b}, Relation.TransGen (Linked G) a b →
      Relation.TransGen (Linked (insert g G)) a b := fun {a b} h ↦
    Relation.TransGen.mono (fun _ _ ⟨g', hg', ha, hb⟩ ↦ ⟨g', Or.inr hg', ha, hb⟩) a b h
  have hlink : ∀ {a b}, a ∈ g → b ∈ g → Relation.TransGen (Linked (insert g G)) a b :=
    fun ha hb ↦ .single ⟨g, Or.inl rfl, ha, hb⟩
  constructor
  · intro h
    induction h with
    | single h =>
        obtain ⟨g', rfl | hg', ha, hb⟩ := h
        · exact Or.inr ⟨Or.inl ha, Or.inl hb⟩
        · exact Or.inl (.single ⟨g', hg', ha, hb⟩)
    | tail _ h ih =>
        refine join_trans transGen_linked_symm Relation.TransGen.trans ih ?_
        obtain ⟨g', rfl | hg', ha, hb⟩ := h
        · exact Or.inr ⟨Or.inl ha, Or.inl hb⟩
        · exact Or.inl (.single ⟨g', hg', ha, hb⟩)
  · -- what touches the group is linked to an item of it
    have htouch : ∀ {a}, Touches (Relation.TransGen (Linked G)) g a →
        ∃ c ∈ g, Relation.TransGen (Linked (insert g G)) a c := by
      rintro a (ha | ⟨c, hc, hac⟩)
      · exact ⟨a, ha, hlink ha ha⟩
      · exact ⟨c, hc, hmono hac⟩
    rintro (h | ⟨ha, hb⟩)
    · exact hmono h
    · obtain ⟨c, hc, hac⟩ := htouch ha
      obtain ⟨d, hd, hbd⟩ := htouch hb
      exact (hac.trans (hlink hc hd)).trans (transGen_linked_symm hbd)

theorem not_linked_empty : ¬ Relation.TransGen (Linked (∅ : Set (Set α))) a b := by
  intro h
  obtain ⟨c, ⟨g, hg, -⟩, -⟩ := Relation.TransGen.head'_iff.mp h
  exact hg

end Joining
