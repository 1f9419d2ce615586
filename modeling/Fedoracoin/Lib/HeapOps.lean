import Mathlib.Data.List.Sort

/-!
# Heap functions

The functions `make_heap`, `pop_heap` and `push_heap` of a standard library, with what is
documented of them: they rearrange, and for a strict weak order they keep a property of lists,
being a heap, under which no element is greater than the first one.  Nothing is said of the order
of the other elements, nor of elements that are equivalent.

`HeapOps.sorted` is an implementation that keeps the list sorted.
-/

variable {α : Type*}

/-- A strict weak order, as a function. -/
structure StrictWeak (lt : α → α → Bool) : Prop where
  asymm : ∀ a b, lt a b = true → lt b a = false
  trans : ∀ a b c, lt b a = false → lt c b = false → lt c a = false

/-- `popHeap` is given a list that is not empty, and also drops the element it has moved to the
end; `pushHeap` also puts the new element there. -/
structure HeapOps (α : Type*) where
  makeHeap : (α → α → Bool) → List α → List α
  popHeap : (α → α → Bool) → List α → List α
  pushHeap : (α → α → Bool) → List α → α → List α
  IsHeap : (α → α → Bool) → List α → Prop
  makeHeap_perm : ∀ lt l, (makeHeap lt l).Perm l
  popHeap_perm : ∀ lt a l, (popHeap lt (a :: l)).Perm l
  pushHeap_perm : ∀ lt l a, (pushHeap lt l a).Perm (a :: l)
  isHeap_makeHeap : ∀ lt l, StrictWeak lt → IsHeap lt (makeHeap lt l)
  isHeap_popHeap : ∀ lt a l, StrictWeak lt → IsHeap lt (a :: l) → IsHeap lt (popHeap lt (a :: l))
  isHeap_pushHeap : ∀ lt l a, StrictWeak lt → IsHeap lt l → IsHeap lt (pushHeap lt l a)
  front_max : ∀ lt a l, StrictWeak lt → IsHeap lt (a :: l) → ∀ b ∈ l, lt a b = false

namespace HeapOps

/-- Puts an element before the first one it is not less than. -/
def insertSorted (lt : α → α → Bool) (a : α) : List α → List α
  | [] => [a]
  | b :: l => if lt a b then b :: insertSorted lt a l else a :: b :: l

def sortedList (lt : α → α → Bool) (l : List α) : List α := l.foldr (insertSorted lt) []

variable {lt : α → α → Bool} {a b : α} {l : List α}

theorem insertSorted_perm : (insertSorted lt a l).Perm (a :: l) := by
  induction l with
  | nil => exact .refl _
  | cons b l ih =>
      rw [insertSorted]
      split
      · exact (ih.cons b).trans (.swap a b l)
      · exact .refl _

theorem pairwise_insertSorted (hlt : StrictWeak lt) (h : l.Pairwise fun x y ↦ lt x y = false) :
    (insertSorted lt a l).Pairwise fun x y ↦ lt x y = false := by
  induction l with
  | nil => exact List.pairwise_singleton _ _
  | cons b l ih =>
      obtain ⟨hb, hl⟩ := List.pairwise_cons.mp h
      rw [insertSorted]
      split
      · next hab =>
        refine List.pairwise_cons.mpr ⟨fun c hc ↦ ?_, ih hl⟩
        rcases List.mem_cons.mp (insertSorted_perm.mem_iff.mp hc) with rfl | hc
        · exact hlt.asymm _ _ hab
        · exact hb c hc
      · next hab =>
        have hab : lt a b = false := Bool.eq_false_iff.mpr hab
        refine List.pairwise_cons.mpr ⟨fun c hc ↦ ?_, h⟩
        rcases List.mem_cons.mp hc with rfl | hc
        · exact hab
        · exact hlt.trans _ _ _ (hb c hc) hab

theorem sortedList_perm : (sortedList lt l).Perm l := by
  induction l with
  | nil => exact .refl _
  | cons a l ih => exact insertSorted_perm.trans (ih.cons a)

theorem pairwise_sortedList (hlt : StrictWeak lt) :
    (sortedList lt l).Pairwise fun x y ↦ lt x y = false := by
  induction l with
  | nil => exact List.Pairwise.nil
  | cons a l ih => exact pairwise_insertSorted hlt ih

/-- A heap that is sorted. -/
def sorted (α : Type*) : HeapOps α where
  makeHeap := sortedList
  popHeap _ l := l.tail
  pushHeap lt l a := insertSorted lt a l
  IsHeap lt l := l.Pairwise fun x y ↦ lt x y = false
  makeHeap_perm _ _ := sortedList_perm
  popHeap_perm _ _ l := .refl l
  pushHeap_perm _ _ _ := insertSorted_perm
  isHeap_makeHeap _ _ hlt := pairwise_sortedList hlt
  isHeap_popHeap _ _ _ _ h := (List.pairwise_cons.mp h).2
  isHeap_pushHeap _ _ _ hlt h := pairwise_insertSorted hlt h
  front_max _ _ _ _ h := (List.pairwise_cons.mp h).1

end HeapOps
