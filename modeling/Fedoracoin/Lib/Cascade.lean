import Mathlib.Data.Set.Card

/-!
# Cascading removal

A relation `child` on nodes, and a set of live nodes from which a node is to be removed
together with everything below it.  `Below child live a` are the nodes reached from `a` by
child steps through live nodes.

Removal goes child by child, and each child takes along what is below it among the nodes
that are still live.  `Progress` is the invariant of that loop: what has been removed
lies below `a` and is closed under live children.  When all live children of `a` are gone
it is exactly what was below `a` at the start (`Progress.eq`).

What is left of the live nodes then has no node below one that was removed, which is `Closed`.
-/

namespace Cascade

variable {α : Type*} {child : α → α → Prop} {live live' S X : Set α} {a b c : α}

/-- The nodes reached from `a` by one or more child steps through live nodes. -/
inductive Below (child : α → α → Prop) (live : Set α) (a : α) : α → Prop
  | child {b : α} (hb : b ∈ live) (h : child a b) : Below child live a b
  | trans {b c : α} (hab : Below child live a b) (hc : c ∈ live) (h : child b c) :
      Below child live a c

/-- No node of the set is below itself. -/
def Acyclic (child : α → α → Prop) (S : Set α) : Prop := ∀ a ∈ S, ¬ Below child S a a

/-- A rank that rises along the relation rules out cycles. -/
theorem acyclic_of_rank (rank : α → ℕ)
    (h : ∀ a ∈ S, ∀ b ∈ S, child a b → rank a < rank b) : Acyclic child S := by
  intro a ha hself
  have hlt : ∀ b, Below child S a b → b ∈ S ∧ rank a < rank b := by
    intro b hb
    induction hb with
    | child hb hab => exact ⟨hb, h _ ha _ hb hab⟩
    | trans _ hc hbc ih => exact ⟨hc, ih.2.trans (h _ ih.1 _ hc hbc)⟩
  exact lt_irrefl _ (hlt a hself).2

namespace Below

theorem mem (h : Below child live a b) : b ∈ live := by
  cases h with
  | child hb _ => exact hb
  | trans _ hb _ => exact hb

theorem mono (h : Below child live a b) (hsub : live ⊆ live') : Below child live' a b := by
  induction h with
  | child hb h => exact .child (hsub hb) h
  | trans _ hc h ih => exact .trans ih (hsub hc) h

theorem append (h : Below child live a b) (h' : Below child live b c) : Below child live a c := by
  induction h' with
  | child hb h' => exact .trans h hb h'
  | trans _ hc h' ih => exact .trans ih hc h'

/-- A child of a live node has strictly fewer nodes below it. -/
theorem ncard_lt (hfin : live.Finite) (hacyc : Acyclic child S) (hsub : live ⊆ S)
    (hb : b ∈ live) (h : child a b) :
    {c | Below child live b c}.ncard < {c | Below child live a c}.ncard := by
  refine Set.ncard_lt_ncard ⟨fun c hc ↦ (Below.child hb h).append hc, fun hback ↦ ?_⟩
    (hfin.subset fun c hc ↦ hc.mem)
  have hself : Below child live b b := hback (Below.child hb h)
  exact hacyc b (hsub hb) (hself.mono hsub)

theorem ncard_mono (hfin : live'.Finite) (hsub : live ⊆ live') :
    {c | Below child live b c}.ncard ≤ {c | Below child live' b c}.ncard :=
  Set.ncard_le_ncard (fun _ hc ↦ hc.mono hsub) (hfin.subset fun _ hc ↦ hc.mem)

end Below

/-- The nodes of `X` have been removed on the way to removing everything below `a`. -/
structure Progress (child : α → α → Prop) (live : Set α) (a : α) (X : Set α) : Prop where
  below : ∀ b ∈ X, Below child live a b
  closed : ∀ b ∈ X, ∀ c ∈ live, child b c → c ∈ X

namespace Progress

theorem empty : Progress child live a ∅ := ⟨by simp, by simp⟩

/-- Removing a child with what is below it among the remaining nodes. -/
theorem step (h : Progress child live a X) (hb : b ∈ live) (hchild : child a b) {Y : Set α}
    (hY : ∀ c, c ∈ Y ↔ c ∈ live \ X ∧ (c = b ∨ Below child (live \ X) b c)) :
    Progress child live a (Y ∪ X) := by
  constructor
  · rintro c (hc | hc)
    · obtain ⟨_, rfl | hbelow⟩ := (hY c).mp hc
      · exact .child hb hchild
      · exact (Below.child hb hchild).append (hbelow.mono Set.sdiff_subset)
    · exact h.below c hc
  · rintro c (hc | hc) d hd hcd
    · by_cases hdX : d ∈ X
      · exact Or.inr hdX
      · refine Or.inl ((hY d).mpr ⟨⟨hd, hdX⟩, Or.inr ?_⟩)
        obtain ⟨_, rfl | hbelow⟩ := (hY c).mp hc
        · exact .child ⟨hd, hdX⟩ hcd
        · exact .trans hbelow ⟨hd, hdX⟩ hcd
    · exact Or.inr (h.closed c hc d hd hcd)

/-- With all children gone, what has been removed is what was below. -/
theorem eq (h : Progress child live a X) (hall : ∀ b ∈ live, child a b → b ∈ X) :
    X = {b | Below child live a b} := by
  ext b
  refine ⟨h.below b, fun hb ↦ ?_⟩
  induction hb with
  | child hb hchild => exact hall _ hb hchild
  | trans _ hc hchild ih => exact h.closed _ ih _ hc hchild

end Progress

/-- `kept` is what is left of `live` by a removal that took along the live children of what it
removed. -/
structure Closed (child : α → α → Prop) (live kept : Set α) : Prop where
  sub : kept ⊆ live
  closed : ∀ a ∈ live, a ∉ kept → ∀ b ∈ kept, ¬ child a b

namespace Closed

theorem refl : Closed child live live := ⟨subset_rfl, fun _ ha hnot ↦ absurd ha hnot⟩

theorem trans (h : Closed child live live') (h' : Closed child live' S) : Closed child live S := by
  constructor
  · exact h'.sub.trans h.sub
  · intro a ha hnot b hb
    by_cases ha' : a ∈ live'
    · exact h'.closed a ha' hnot b hb
    · exact h.closed a ha ha' b (h'.sub hb)

/-- Removing a node with everything below it. -/
theorem of_below (h : ∀ b, b ∈ live' ↔ b ∈ live ∧ ¬ (b = a ∨ Below child live a b)) :
    Closed child live live' := by
  constructor
  · exact fun b hb ↦ ((h b).mp hb).1
  · intro c hc hnot b hb hchild
    obtain ⟨hlive, hkeep⟩ := (h b).mp hb
    rw [h, not_and_not_right] at hnot
    rcases hnot hc with rfl | hbelow
    · exact hkeep (Or.inr (.child hlive hchild))
    · exact hkeep (Or.inr (.trans hbelow hlive hchild))

end Closed

end Cascade
