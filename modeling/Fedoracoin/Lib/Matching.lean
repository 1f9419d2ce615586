import Mathlib.Data.List.NodupEquivFin

/-!
# Matching a list into another, in order

`List.SublistForall₂ R l₁ l₂` says that the elements of `l₁` have partners in `l₂`, in the same
order.  A single pass over `l₂` decides it: the next element of `l₁` takes the first partner that
it finds, since giving up a partner never helps (`sublistForall₂_cons_cons_iff`).
-/

namespace Matching

variable {α β : Type} {R : α → β → Prop} {r : α → β → Bool} {a : α} {b : β} {l₁ : List α}
  {l₂ : List β}

theorem length_le (h : List.SublistForall₂ R l₁ l₂) : l₁.length ≤ l₂.length := by
  induction h with
  | nil => exact Nat.zero_le _
  | cons _ _ ih => exact Nat.succ_le_succ ih
  | cons_right _ ih => exact Nat.le_trans ih (Nat.le_succ _)

theorem tail (h : List.SublistForall₂ R (a :: l₁) l₂) : List.SublistForall₂ R l₁ l₂ := by
  generalize hl : a :: l₁ = l at h
  induction h with
  | nil => cases hl
  | cons _ hrest _ =>
      obtain ⟨-, rfl⟩ := List.cons.inj hl
      exact .cons_right hrest
  | cons_right _ ih => exact .cons_right (ih hl)

/-- The next element takes the next partner if it can. -/
theorem sublistForall₂_cons_cons_iff :
    List.SublistForall₂ R (a :: l₁) (b :: l₂) ↔
      (R a b ∧ List.SublistForall₂ R l₁ l₂) ∨ List.SublistForall₂ R (a :: l₁) l₂ := by
  constructor
  · rintro (_ | ⟨hr, hrest⟩ | hrest)
    · exact Or.inl ⟨hr, hrest⟩
    · exact Or.inr hrest
  · rintro (⟨hr, hrest⟩ | hrest)
    · exact .cons hr hrest
    · exact .cons_right hrest

theorem sublistForall₂_of_pos (h : R a b) :
    List.SublistForall₂ R (a :: l₁) (b :: l₂) ↔ List.SublistForall₂ R l₁ l₂ := by
  rw [sublistForall₂_cons_cons_iff]
  exact ⟨fun h' ↦ h'.elim And.right tail, fun h' ↦ Or.inl ⟨h, h'⟩⟩

theorem sublistForall₂_of_neg (h : ¬ R a b) :
    List.SublistForall₂ R (a :: l₁) (b :: l₂) ↔ List.SublistForall₂ R (a :: l₁) l₂ := by
  rw [sublistForall₂_cons_cons_iff]
  exact or_iff_right fun h' ↦ h h'.1

theorem not_sublistForall₂_of_forall (h : ∀ b ∈ l₂, ¬ R a b) :
    ¬ List.SublistForall₂ R (a :: l₁) l₂ := by
  intro hsub
  obtain ⟨l, hall, hl⟩ := List.sublistForall₂_iff.mp hsub
  cases hall with
  | cons hr _ => exact h _ (hl.subset List.mem_cons_self) hr

/-- To have partners in order is to be mapped to them by an increasing function. -/
theorem sublistForall₂_iff_strictMono :
    List.SublistForall₂ R l₁ l₂ ↔
      ∃ f : Fin l₁.length → Fin l₂.length, StrictMono f ∧ ∀ i, R (l₁.get i) (l₂.get (f i)) := by
  constructor
  · intro h
    obtain ⟨l, hall, hsub⟩ := List.sublistForall₂_iff.mp h
    obtain ⟨f, hf⟩ := List.sublist_iff_exists_fin_orderEmbedding_get_eq.mp hsub
    refine ⟨fun i ↦ f (Fin.cast hall.length_eq i), fun i j hij ↦ f.strictMono hij, fun i ↦ ?_⟩
    rw [← hf]
    exact hall.get i.isLt _
  · rintro ⟨f, hmono, hall⟩
    have hlength : (List.ofFn fun i ↦ l₂.get (f i)).length = l₁.length := List.length_ofFn
    refine List.sublistForall₂_iff.mpr ⟨List.ofFn fun i ↦ l₂.get (f i), ?_, ?_⟩
    · refine List.forall₂_iff_get.mpr ⟨hlength.symm, fun i h₁ h₂ ↦ ?_⟩
      rw [List.get_ofFn]
      exact hall ⟨i, h₁⟩
    · refine List.sublist_iff_exists_fin_orderEmbedding_get_eq.mpr
        ⟨OrderEmbedding.ofStrictMono (fun i ↦ f (Fin.cast hlength i)) fun i j hij ↦ hmono hij,
          fun i ↦ ?_⟩
      rw [List.get_ofFn]
      rfl

/-- The order may be taken from the other end. -/
theorem sublistForall₂_reverse_iff :
    List.SublistForall₂ R l₁.reverse l₂.reverse ↔ List.SublistForall₂ R l₁ l₂ := by
  rw [List.sublistForall₂_iff, List.sublistForall₂_iff]
  constructor
  · rintro ⟨l, hall, hsub⟩
    refine ⟨l.reverse, ?_, ?_⟩
    · rwa [← List.forall₂_reverse_iff, List.reverse_reverse]
    · rwa [← List.reverse_sublist, List.reverse_reverse]
  · rintro ⟨l, hall, hsub⟩
    exact ⟨l.reverse, List.forall₂_reverse_iff.mpr hall, hsub.reverse⟩

/-- Partners are also partners of what stands for an element, where the relation is passed on. -/
theorem sublistForall₂_of_forall₂ {γ : Type} {S : α → γ → Prop} {R' : γ → β → Prop} {l₃ : List γ}
    (hall : List.Forall₂ S l₁ l₃) (h : ∀ a c, S a c → ∀ b, R a b → R' c b)
    (hsub : List.SublistForall₂ R l₁ l₂) : List.SublistForall₂ R' l₃ l₂ := by
  induction hsub generalizing l₃ with
  | nil =>
      cases hall
      exact .nil
  | cons hr _ ih =>
      cases hall with
      | cons hs hrest => exact .cons (h _ _ hs _ hr) (ih hrest)
  | cons_right _ ih => exact .cons_right (ih hall)

theorem exists_forall₂ {S : α → β → Prop} (h : ∀ a ∈ l₁, ∃ b, S a b) :
    ∃ l₂, List.Forall₂ S l₁ l₂ := by
  induction l₁ with
  | nil => exact ⟨[], .nil⟩
  | cons a l₁ ih =>
      obtain ⟨⟨b, hb⟩, h⟩ := List.forall_mem_cons.mp h
      obtain ⟨l₂, hall⟩ := ih h
      exact ⟨b :: l₂, .cons hb hall⟩

theorem exists_mem_left {S : α → β → Prop} (hall : List.Forall₂ S l₁ l₂) (hb : b ∈ l₂) :
    ∃ a ∈ l₁, S a b := by
  induction hall with
  | nil => exact absurd hb List.not_mem_nil
  | @cons a _ _ _ hs _ ih =>
      obtain rfl | hb := List.mem_cons.mp hb
      · exact ⟨a, List.mem_cons_self, hs⟩
      · obtain ⟨a, ha, hs⟩ := ih hb
        exact ⟨a, List.mem_cons_of_mem _ ha, hs⟩

/-- The single pass.  It stops when more elements are left than partners. -/
def greedy (r : α → β → Bool) : List α → List β → Bool
  | [], _ => true
  | _ :: _, [] => false
  | a :: l₁, b :: l₂ =>
      let left := if r a b then l₁ else a :: l₁
      if l₂.length < left.length then false else greedy r left l₂

/-- **The single pass is complete.** -/
theorem greedy_iff :
    greedy r l₁ l₂ = true ↔ List.SublistForall₂ (fun a b ↦ r a b = true) l₁ l₂ := by
  induction l₂ generalizing l₁ with
  | nil =>
      cases l₁ with
      | nil => exact iff_of_true (by rw [greedy]) .nil
      | cons a l₁ => exact iff_of_false (by simp [greedy]) fun h ↦ nomatch h
  | cons b l₂ ih =>
      cases l₁ with
      | nil => exact iff_of_true (by rw [greedy]) .nil
      | cons a l₁ =>
          have hleft : List.SublistForall₂ (fun a b ↦ r a b = true) (a :: l₁) (b :: l₂) ↔
              List.SublistForall₂ (fun a b ↦ r a b = true)
                (if r a b then l₁ else a :: l₁) l₂ := by
            split
            case isTrue hr => exact sublistForall₂_of_pos hr
            case isFalse hr => exact sublistForall₂_of_neg hr
          rw [greedy, hleft]
          generalize (if r a b then l₁ else a :: l₁) = left
          split
          case isTrue hlt =>
            exact iff_of_false (by simp) fun h ↦ absurd hlt (Nat.not_lt.mpr (length_le h))
          case isFalse => exact ih

/-! ## Giving each element to a partner -/

section

variable [DecidableEq β] {f : β → Option α} {b' : β}

/-- The first free partner of `a` gets it. -/
def assign (r : α → β → Bool) (l₂ : List β) (f : β → Option α) (a : α) : β → Option α :=
  match l₂.find? fun b ↦ (f b).isNone && r a b with
  | none => f
  | some b => Function.update f b (some a)

def assignAll (r : α → β → Bool) (l₁ : List α) (l₂ : List β) : β → Option α :=
  l₁.foldl (assign r l₂) fun _ ↦ none

theorem assign_eq_some {a' : α} (h : assign r l₂ f a b = some a') :
    f b = some a' ∨ a' = a ∧ r a b = true := by
  rw [assign] at h
  cases hfind : l₂.find? fun b ↦ (f b).isNone && r a b with
  | none =>
      rw [hfind] at h
      exact .inl h
  | some b' =>
      rw [hfind] at h
      dsimp only at h
      by_cases hb : b = b'
      · subst hb
        rw [Function.update_self, Option.some.injEq] at h
        have hfree := List.find?_some hfind
        rw [Bool.and_eq_true] at hfree
        exact .inr ⟨h.symm, hfree.2⟩
      · rw [Function.update_of_ne hb] at h
        exact .inl h

/-- What a partner has got is for it. -/
theorem assignAll_eq_some (h : assignAll r l₁ l₂ b = some a) : a ∈ l₁ ∧ r a b = true := by
  suffices hfold : ∀ (l : List α) (f : β → Option α),
      (∀ b a, f b = some a → a ∈ l₁ ∧ r a b = true) → l ⊆ l₁ →
        ∀ b a, l.foldl (assign r l₂) f b = some a → a ∈ l₁ ∧ r a b = true from
    hfold l₁ _ (fun _ _ h ↦ absurd h (by simp)) (List.Subset.refl _) b a h
  intro l
  induction l with
  | nil => exact fun f hf _ ↦ hf
  | cons x l ih =>
      intro f hf hsub
      obtain ⟨hx, hsub⟩ := List.cons_subset.mp hsub
      refine ih _ (fun b a h ↦ ?_) hsub
      obtain h | ⟨rfl, hr⟩ := assign_eq_some h
      · exact hf b a h
      · exact ⟨hx, hr⟩

theorem isSome_assign (h : (f b).isSome = true) : (assign r l₂ f a b).isSome = true := by
  rw [assign]
  cases l₂.find? fun b ↦ (f b).isNone && r a b with
  | none => exact h
  | some b' =>
      dsimp only
      by_cases hb : b = b'
      · rw [hb, Function.update_self, Option.isSome_some]
      · rwa [Function.update_of_ne hb]

theorem isSome_foldl_assign (h : (f b).isSome = true) :
    (l₁.foldl (assign r l₂) f b).isSome = true := by
  induction l₁ generalizing f with
  | nil => exact h
  | cons a l₁ ih => exact ih (isSome_assign h)

/-- If no element is for two partners, none goes without. -/
theorem isSome_assignAll_iff (hb : b ∈ l₂)
    (hunique : ∀ a ∈ l₁, ∀ b ∈ l₂, ∀ b' ∈ l₂, r a b = true → r a b' = true → b = b') :
    (assignAll r l₁ l₂ b).isSome = true ↔ ∃ a ∈ l₁, r a b = true := by
  constructor
  · intro h
    obtain ⟨a, ha⟩ := Option.isSome_iff_exists.mp h
    exact ⟨a, assignAll_eq_some ha⟩
  · rintro ⟨a, ha, hr⟩
    obtain ⟨before, after, rfl⟩ := List.append_of_mem ha
    rw [assignAll, List.foldl_append, List.foldl_cons]
    refine isSome_foldl_assign ?_
    generalize before.foldl (assign r l₂) (fun _ ↦ none) = f
    cases hf : f b with
    | some a' => exact isSome_assign (by rw [hf, Option.isSome_some])
    | none =>
        have hfind : (l₂.find? fun b ↦ (f b).isNone && r a b) = some b := by
          cases h : l₂.find? fun b ↦ (f b).isNone && r a b with
          | none =>
              have := List.find?_eq_none.mp h b hb
              rw [hf, hr] at this
              exact absurd rfl this
          | some b' =>
              have hb' := List.find?_some h
              rw [Bool.and_eq_true] at hb'
              rw [hunique a ha b' (List.mem_of_find?_eq_some h) b hb hb'.2 hr]
        rw [assign, hfind]
        dsimp only
        rw [Function.update_self, Option.isSome_some]

end

/-- Partners in order that are given by a function. -/
theorem sublistForall₂_filterMap {f : β → Option α} (h : ∀ b ∈ l₂, ∀ a, f b = some a → R a b) :
    List.SublistForall₂ R (l₂.filterMap f) l₂ := by
  induction l₂ with
  | nil => exact .nil
  | cons b l₂ ih =>
      obtain ⟨hb, hrest⟩ := List.forall_mem_cons.mp h
      cases hf : f b with
      | none =>
          rw [List.filterMap_cons_none hf]
          exact .cons_right (ih hrest)
      | some a =>
          rw [List.filterMap_cons_some hf]
          exact .cons (hb a hf) (ih hrest)

theorem sublistForall₂_take (n : Nat) (h : List.SublistForall₂ R l₁ l₂) :
    List.SublistForall₂ R (l₁.take n) l₂ := by
  obtain ⟨l, hall, hsub⟩ := List.sublistForall₂_iff.mp h
  exact List.sublistForall₂_iff.mpr
    ⟨l.take n, List.forall₂_take n hall, (List.take_sublist n l).trans hsub⟩

end Matching
