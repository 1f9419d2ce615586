import Mathlib.Data.List.TakeWhile
import Mathlib.Data.List.Infix

/-!
# Forests given by parents and heights

A forest is a parent function together with heights that go down by one from a node to its
parent.  `lineage a` lists `a` and its ancestors up to the root, which is what a loop that
follows parents visits, and `path a` is the same list from the root down.  A `Chain` is a
path, or empty; its elements are the nodes that it holds at the position of their height.
-/

variable {α : Type*}

/-- Nodes with parents, and heights that certify that following parents ends. -/
structure Forest (α : Type*) where
  parent : α → Option α
  height : α → Nat
  height_root : ∀ {a}, parent a = none → height a = 0
  height_parent : ∀ {a b}, parent a = some b → height a = height b + 1

namespace Forest

variable {F F' : Forest α} {a b c x : α} {l : List α}

/-- `a` and its ancestors, at most `n` of these. -/
def climb (F : Forest α) : Nat → α → List α
  | 0, a => [a]
  | n + 1, a =>
      a :: match F.parent a with
        | none => []
        | some b => F.climb n b

/-- `a` and its ancestors. -/
def lineage (F : Forest α) (a : α) : List α := F.climb (F.height a) a

theorem lineage_root (h : F.parent a = none) : F.lineage a = [a] := by
  rw [lineage, F.height_root h, climb]

theorem lineage_parent (h : F.parent a = some b) : F.lineage a = a :: F.lineage b := by
  rw [lineage, F.height_parent h, climb, h]
  rfl

/-- Induction from the root down. -/
@[elab_as_elim]
theorem induct {P : α → Prop} (F : Forest α) (root : ∀ a, F.parent a = none → P a)
    (child : ∀ a b, F.parent a = some b → P b → P a) (a : α) : P a := by
  induction hn : F.height a generalizing a with
  | zero =>
      cases h : F.parent a with
      | none => exact root a h
      | some b =>
          have := F.height_parent h
          omega
  | succ n ih =>
      cases h : F.parent a with
      | none => exact root a h
      | some b =>
          have := F.height_parent h
          exact child a b h (ih b (by omega))

/-! ## Ancestors -/

theorem self_mem_lineage (F : Forest α) (a : α) : a ∈ F.lineage a := by
  cases h : F.parent a with
  | none => simp [lineage_root h]
  | some b => simp [lineage_parent h]

theorem parent_mem_lineage (h : F.parent a = some b) : b ∈ F.lineage a := by
  rw [lineage_parent h]
  exact List.mem_cons_of_mem _ (F.self_mem_lineage b)

theorem mem_lineage_trans (hab : a ∈ F.lineage b) (hbc : b ∈ F.lineage c) : a ∈ F.lineage c := by
  induction c using F.induct with
  | root c h =>
      rw [lineage_root h, List.mem_singleton] at hbc
      rwa [← hbc]
  | child c d h ih =>
      rw [lineage_parent h] at hbc ⊢
      rcases List.mem_cons.mp hbc with rfl | hbd
      · rwa [lineage_parent h] at hab
      · exact List.mem_cons_of_mem _ (ih hbd)

/-- The other ancestors are lower. -/
theorem height_lt_of_mem (h : a ∈ F.lineage b) (hne : a ≠ b) : F.height a < F.height b := by
  induction b using F.induct with
  | root b hb =>
      rw [lineage_root hb, List.mem_singleton] at h
      exact absurd h hne
  | child b c hb ih =>
      have hc := F.height_parent hb
      rw [lineage_parent hb, List.mem_cons] at h
      rcases h with rfl | h
      · exact absurd rfl hne
      · by_cases hac : a = c
        · rw [hac, hc]
          exact Nat.lt_succ_self _
        · exact (ih h hac).trans (by omega)

theorem height_le_of_mem (h : a ∈ F.lineage b) : F.height a ≤ F.height b := by
  by_cases hab : a = b
  · rw [hab]
  · exact (height_lt_of_mem h hab).le

/-- The ancestors of a node are ancestors of each other. -/
theorem mem_lineage_of_le (ha : a ∈ F.lineage c) (hb : b ∈ F.lineage c)
    (hle : F.height a ≤ F.height b) : a ∈ F.lineage b := by
  induction c using F.induct with
  | root c h =>
      rw [lineage_root h, List.mem_singleton] at ha hb
      rw [ha, hb]
      exact F.self_mem_lineage c
  | child c d h ih =>
      have hda := ha
      have hdb := hb
      rw [lineage_parent h, List.mem_cons] at hda hdb
      rcases hdb with rfl | hdb
      · exact ha
      · rcases hda with rfl | hda
        · have := height_le_of_mem hdb
          have := F.height_parent h
          omega
        · exact ih hda hdb

theorem eq_of_height_eq (ha : a ∈ F.lineage c) (hb : b ∈ F.lineage c)
    (h : F.height a = F.height b) : a = b := by
  by_contra hne
  exact absurd h (height_lt_of_mem (mem_lineage_of_le ha hb h.le) hne).ne

/-- The proper ancestors are those of the parent. -/
theorem mem_lineage_parent (h : F.parent a = some b) (hx : x ∈ F.lineage a) (hne : x ≠ a) :
    x ∈ F.lineage b := by
  rw [lineage_parent h] at hx
  exact (List.mem_cons.mp hx).resolve_left hne

/-- What is left of a walk up from `a` is the walk up from where it has come. -/
theorem lineage_of_append {l' : List α} (h : F.lineage a = l ++ x :: l') :
    x :: l' = F.lineage x := by
  induction a using F.induct generalizing l with
  | root a ha =>
      rw [lineage_root ha] at h
      cases l with
      | nil =>
          obtain ⟨rfl, rfl⟩ := List.cons.inj h
          exact (lineage_root ha).symm
      | cons y l => exact absurd (List.cons.inj h).2 (by simp)
  | child a b ha ih =>
      rw [lineage_parent ha] at h
      cases l with
      | nil =>
          obtain ⟨rfl, rfl⟩ := List.cons.inj h
          exact (lineage_parent ha).symm
      | cons y l => exact ih (List.cons.inj h).2

/-- Walking up from `a` while `p` holds: where `p` once fails for good, the walk visits all
the ancestors that satisfy it. -/
theorem mem_takeWhile_lineage {p : α → Bool}
    (hp : ∀ x y, p x = false → y ∈ F.lineage x → p y = false) :
    x ∈ (F.lineage a).takeWhile p ↔ x ∈ F.lineage a ∧ p x = true := by
  induction a using F.induct with
  | root a h =>
      rw [lineage_root h]
      cases hpa : p a with
      | false => simp +contextual [hpa]
      | true => simp +contextual [hpa]
  | child a b h ih =>
      cases hpa : p a with
      | false =>
          rw [lineage_parent h, List.takeWhile_cons_of_neg (by simp [hpa]), ← lineage_parent h]
          constructor
          · intro hx
            exact absurd hx List.not_mem_nil
          · rintro ⟨hx, hpx⟩
            rw [hp a x hpa hx] at hpx
            exact absurd hpx Bool.false_ne_true
      | true =>
          rw [lineage_parent h, List.takeWhile_cons_of_pos hpa, List.mem_cons, List.mem_cons, ih]
          constructor
          · rintro (rfl | ⟨hx, hpx⟩)
            · exact ⟨Or.inl rfl, hpa⟩
            · exact ⟨Or.inr hx, hpx⟩
          · rintro ⟨rfl | hx, hpx⟩
            · exact Or.inl rfl
            · exact Or.inr ⟨hx, hpx⟩

/-- Walking up from `a` as far as `b` visits the nodes between them. -/
theorem mem_takeWhile_ne [DecidableEq α] (hb : b ∈ F.lineage a) :
    x ∈ (F.lineage a).takeWhile (· ≠ b) ↔ x ∈ F.lineage a ∧ b ∈ F.lineage x ∧ x ≠ b := by
  induction a using F.induct with
  | root a h =>
      rw [lineage_root h, List.mem_singleton] at hb
      subst hb
      rw [lineage_root h, List.takeWhile_cons_of_neg (by simp)]
      simp +contextual
  | child a c h ih =>
      by_cases hab : a = b
      · subst hab
        rw [lineage_parent h, List.takeWhile_cons_of_neg (by simp), ← lineage_parent h]
        constructor
        · intro hx
          exact absurd hx List.not_mem_nil
        · rintro ⟨hx, hax, hne⟩
          exact absurd (height_le_of_mem hax) (height_lt_of_mem hx hne).not_ge
      · have hbc := mem_lineage_parent h hb (Ne.symm hab)
        rw [lineage_parent h, List.takeWhile_cons_of_pos (by simpa using hab), List.mem_cons,
          List.mem_cons, ih hbc]
        constructor
        · rintro (rfl | ⟨hx, hbx, hne⟩)
          · exact ⟨Or.inl rfl, hb, hab⟩
          · exact ⟨Or.inr hx, hbx, hne⟩
        · rintro ⟨rfl | hx, hbx, hne⟩
          · exact Or.inl rfl
          · exact Or.inr ⟨hx, hbx, hne⟩

/-- Two forests that agree on a lineage have it in common. -/
theorem lineage_congr (h : ∀ x ∈ F.lineage a, F'.parent x = F.parent x) :
    F'.lineage a = F.lineage a := by
  induction a using F.induct with
  | root a ha =>
      rw [lineage_root ha, lineage_root ((h a (F.self_mem_lineage a)).trans ha)]
  | child a b ha ih =>
      rw [lineage_parent ha, lineage_parent ((h a (F.self_mem_lineage a)).trans ha),
        ih fun x hx ↦ h x (mem_lineage_trans hx (parent_mem_lineage ha))]

/-! ## Paths and chains -/

/-- The nodes from the root to `a`. -/
def path (F : Forest α) (a : α) : List α := (F.lineage a).reverse

@[simp] theorem mem_path : x ∈ F.path a ↔ x ∈ F.lineage a := List.mem_reverse

theorem path_root (h : F.parent a = none) : F.path a = [a] := by
  rw [path, lineage_root h]
  rfl

theorem path_parent (h : F.parent a = some b) : F.path a = F.path b ++ [a] := by
  rw [path, lineage_parent h, List.reverse_cons]
  rfl

theorem path_eq_append (F : Forest α) (a : α) : ∃ l, F.path a = l ++ [a] := by
  cases h : F.parent a with
  | none => exact ⟨[], path_root h⟩
  | some b => exact ⟨F.path b, path_parent h⟩

@[simp] theorem getLast?_path (F : Forest α) (a : α) : (F.path a).getLast? = some a := by
  obtain ⟨l, h⟩ := F.path_eq_append a
  rw [h, List.getLast?_append, List.getLast?_singleton, Option.some_or]

@[simp] theorem length_path (F : Forest α) (a : α) : (F.path a).length = F.height a + 1 := by
  induction a using F.induct with
  | root a h => rw [path_root h, F.height_root h, List.length_singleton]
  | child a b h ih => rw [path_parent h, List.length_append, ih, F.height_parent h,
      List.length_singleton]

/-- A path holds each node at the position of its height. -/
theorem getElem?_path {i : Nat} :
    (F.path a)[i]? = some x ↔ x ∈ F.lineage a ∧ F.height x = i := by
  induction a using F.induct with
  | root a h =>
      rw [path_root h, lineage_root h, List.mem_singleton, List.getElem?_singleton]
      constructor
      · intro hx
        split at hx
        · obtain rfl := Option.some.inj hx
          exact ⟨rfl, (F.height_root h).trans (by omega)⟩
        · cases hx
      · rintro ⟨rfl, rfl⟩
        rw [F.height_root h, if_pos rfl]
  | child a b h ih =>
      have hb := F.height_parent h
      rcases Nat.lt_trichotomy i (F.height a) with hlt | rfl | hgt
      · rw [path_parent h, List.getElem?_append_left (by rw [length_path]; omega), ih,
          lineage_parent h, List.mem_cons]
        constructor
        · rintro ⟨hx, rfl⟩
          exact ⟨Or.inr hx, rfl⟩
        · rintro ⟨rfl | hx, rfl⟩
          · exact absurd hlt (lt_irrefl _)
          · exact ⟨hx, rfl⟩
      · rw [path_parent h, hb, ← length_path, List.getElem?_concat_length]
        constructor
        · intro hx
          obtain rfl := Option.some.inj hx
          exact ⟨F.self_mem_lineage _, by rw [length_path, hb]⟩
        · rintro ⟨hx, hxa⟩
          rw [length_path, ← hb] at hxa
          rw [eq_of_height_eq hx (F.self_mem_lineage a) hxa]
      · rw [List.getElem?_eq_none (by rw [length_path]; omega)]
        constructor
        · intro hx
          cases hx
        · rintro ⟨hx, rfl⟩
          exact absurd (height_le_of_mem hx) hgt.not_ge

theorem take_path (h : x ∈ F.lineage a) : (F.path a).take (F.height x + 1) = F.path x := by
  apply List.ext_getElem?
  intro i
  rw [List.getElem?_take]
  apply Option.ext
  intro y
  split
  case isTrue hi =>
    rw [getElem?_path, getElem?_path]
    constructor
    · rintro ⟨hy, rfl⟩
      exact ⟨mem_lineage_of_le hy h (by omega), rfl⟩
    · rintro ⟨hy, rfl⟩
      exact ⟨mem_lineage_trans hy h, rfl⟩
  case isFalse hi =>
    rw [getElem?_path]
    constructor
    · intro hy
      cases hy
    · rintro ⟨hy, rfl⟩
      exact absurd (height_le_of_mem hy) (by omega)

/-- A path from a root, or nothing. -/
def Chain (F : Forest α) (l : List α) : Prop := l = [] ∨ ∃ a, l = F.path a

theorem chain_path (F : Forest α) (a : α) : F.Chain (F.path a) := Or.inr ⟨a, rfl⟩

namespace Chain

theorem eq_path (hl : F.Chain l) (h : l.getLast? = some a) : l = F.path a := by
  rcases hl with rfl | ⟨b, rfl⟩
  · cases h
  · rw [getLast?_path] at h
    rw [Option.some.inj h]

/-- Membership is looking at one position. -/
theorem getElem?_iff (hl : F.Chain l) {i : Nat} :
    l[i]? = some x ↔ x ∈ l ∧ F.height x = i := by
  rcases hl with rfl | ⟨a, rfl⟩
  · simp
  · rw [getElem?_path, mem_path]

/-- Cutting a chain below one of its nodes leaves the path to it. -/
theorem take_eq (hl : F.Chain l) (hx : x ∈ l) : l.take (F.height x + 1) = F.path x := by
  rcases hl with rfl | ⟨a, rfl⟩
  · exact absurd hx List.not_mem_nil
  · exact take_path (mem_path.mp hx)

theorem height_lt (hl : F.Chain l) (hx : x ∈ l) : F.height x < l.length := by
  rcases hl with rfl | ⟨a, rfl⟩
  · exact absurd hx List.not_mem_nil
  · rw [length_path]
    exact Nat.lt_succ_of_le (height_le_of_mem (mem_path.mp hx))

/-- A chain holds the ancestors of what it holds. -/
theorem mem_of_lineage (hl : F.Chain l) (hx : x ∈ l) (h : a ∈ F.lineage x) : a ∈ l := by
  rcases hl with rfl | ⟨b, rfl⟩
  · exact absurd hx List.not_mem_nil
  · exact mem_path.mpr (mem_lineage_trans h (mem_path.mp hx))

theorem congr (hl : F.Chain l) (h : ∀ x ∈ l, F'.parent x = F.parent x) : F'.Chain l := by
  rcases hl with rfl | ⟨a, rfl⟩
  · exact Or.inl rfl
  · refine Or.inr ⟨a, ?_⟩
    rw [path, path, lineage_congr fun x hx ↦ h x (mem_path.mpr hx)]

end Chain

end Forest
