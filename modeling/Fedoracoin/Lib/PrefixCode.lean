import Mathlib.Data.List.Infix

/-!
# Prefix codes

Words of which none begins another one.  A concatenation of such words can be cut in one way only,
whatever part of it has arrived: the words whose concatenation begins another concatenation are the
first words of that one.
-/

namespace PrefixCode

variable {α : Type*} {C : List α → Prop} {a b : List α} {xs ys : List (List α)}

/-- No word of the code is empty or begins another one. -/
structure IsPrefixCode (C : List α → Prop) : Prop where
  ne_nil : ∀ a, C a → a ≠ []
  eq_of_begin : ∀ a b, C a → C b → a <+: b → a = b

namespace IsPrefixCode

variable (h : IsPrefixCode C)

include h

/-- Two words that begin one list. -/
theorem eq_of_begin_of_begin {l : List α} (ha : C a) (hb : C b) (hal : a <+: l) (hbl : b <+: l) :
    a = b := by
  rcases List.prefix_or_prefix_of_prefix hal hbl with hab | hba
  · exact h.eq_of_begin a b ha hb hab
  · exact (h.eq_of_begin b a hb ha hba).symm

/-- Concatenations are compared word by word. -/
theorem begins_of_flatten (hxs : ∀ x ∈ xs, C x) (hys : ∀ y ∈ ys, C y)
    (hpre : xs.flatten <+: ys.flatten) : xs <+: ys := by
  induction xs generalizing ys with
  | nil => exact List.nil_prefix
  | cons x xs ih =>
      cases ys with
      | nil =>
          rw [List.flatten_nil, List.prefix_nil, List.flatten_cons] at hpre
          exact absurd (List.append_eq_nil_iff.mp hpre).1 (h.ne_nil x (hxs x List.mem_cons_self))
      | cons y ys =>
          rw [List.flatten_cons, List.flatten_cons] at hpre
          have hxy : x = y := h.eq_of_begin_of_begin (hxs x List.mem_cons_self)
            (hys y List.mem_cons_self) ((List.prefix_append x _).trans hpre)
            (List.prefix_append y _)
          subst hxy
          rw [List.prefix_append_right_inj] at hpre
          rw [List.cons_prefix_cons]
          exact ⟨rfl, ih (fun x hx ↦ hxs x (List.mem_cons_of_mem _ hx))
            (fun y hy ↦ hys y (List.mem_cons_of_mem _ hy)) hpre⟩

/-- What has arrived after whole words is the beginning of the next words. -/
theorem rest_of_flatten (hxs : ∀ x ∈ xs, C x) (hys : ∀ y ∈ ys, C y)
    (hpre : xs.flatten ++ a <+: ys.flatten) : ∃ zs, ys = xs ++ zs ∧ a <+: zs.flatten := by
  obtain ⟨zs, rfl⟩ := h.begins_of_flatten hxs hys ((List.prefix_append _ a).trans hpre)
  refine ⟨zs, rfl, ?_⟩
  rwa [List.flatten_append, List.prefix_append_right_inj] at hpre

end IsPrefixCode

end PrefixCode
