import Fedoracoin.Lib.Forest
import Mathlib.Algebra.GroupWithZero.Nat
import Mathlib.Data.List.Sort

/-!
# Sums along the paths of a forest

`pathSum w a` adds up `w` from the root to `a`.  It can be kept while nodes come in, each one
looking at its parent, and it can be computed afterwards for all nodes at once: `sweep` goes
through a list of nodes and gives each its value from that of its parent.  Where the list is
sorted by a key that is smaller for the parent, both say the same (`sweep_eq`).
-/

variable {α β : Type*}

namespace Forest

variable {F F' : Forest α} {a b x : α} {w w' : α → Nat}

/-- What the nodes on the path to `a` have together. -/
def pathSum (F : Forest α) (w : α → Nat) (a : α) : Nat := ((F.lineage a).map w).sum

theorem pathSum_root (w : α → Nat) (h : F.parent a = none) : F.pathSum w a = w a := by
  rw [pathSum, lineage_root h, List.map_singleton, List.sum_singleton]

theorem pathSum_parent (w : α → Nat) (h : F.parent a = some b) :
    F.pathSum w a = F.pathSum w b + w a := by
  rw [pathSum, lineage_parent h, List.map_cons, List.sum_cons, Nat.add_comm, pathSum]

theorem le_pathSum (F : Forest α) (w : α → Nat) (a : α) : w a ≤ F.pathSum w a := by
  cases h : F.parent a with
  | none => exact (pathSum_root w h).ge
  | some b =>
      rw [pathSum_parent w h]
      exact Nat.le_add_left _ _

/-- The sum goes up along a path. -/
theorem pathSum_le_of_mem (h : x ∈ F.lineage a) : F.pathSum w x ≤ F.pathSum w a := by
  induction a using F.induct with
  | root a ha =>
      rw [lineage_root ha, List.mem_singleton] at h
      rw [h]
  | child a b ha ih =>
      rw [lineage_parent ha, List.mem_cons] at h
      rcases h with rfl | h
      · exact le_rfl
      · rw [pathSum_parent w ha]
        exact (ih h).trans (Nat.le_add_right _ _)

end Forest

/-! ## All nodes at once -/

section Sweep

variable [DecidableEq α] (parent : α → Option α) (f : Option β → α → β)

/-- Gives each node of the list its value from that of its parent, one after the other. -/
def sweep : List α → (α → β) → α → β
  | [], val => val
  | a :: l, val => sweep l (Function.update val a (f ((parent a).map val) a))

variable {parent f} {key : α → Nat} {want : α → β} {P : α → Prop} {l : List α}

/-- The nodes that have been visited have their values, and the rest is sorted. -/
theorem sweep_eq_of_visited {visited : List α} {val : α → β}
    (hwant : ∀ a, P a → want a = f ((parent a).map want) a)
    (hparent : ∀ a b, P a → parent a = some b → P b ∧ key b < key a)
    (hmem : ∀ a, P a → a ∈ visited ∨ a ∈ l) (hsorted : l.Pairwise (key · ≤ key ·))
    (hval : ∀ a ∈ visited, P a → val a = want a) {a : α} (ha : P a) :
    sweep parent f l val a = want a := by
  induction l generalizing visited val with
  | nil => exact hval a ((hmem a ha).resolve_right List.not_mem_nil) ha
  | cons x l ih =>
      obtain ⟨hle, hsorted⟩ := List.pairwise_cons.mp hsorted
      -- the parent of `x` is not behind `x`, so it has been visited
      have hvisited : ∀ b, P x → parent x = some b → val b = want b := by
        intro b hx hb
        obtain ⟨hPb, hlt⟩ := hparent x b hx hb
        rcases hmem b hPb with hv | hl
        · exact hval b hv hPb
        · rcases List.mem_cons.mp hl with rfl | hl
          · exact absurd hlt (lt_irrefl _)
          · exact absurd (hle b hl) hlt.not_ge
      rw [sweep]
      have hcons : ∀ b, P b → b ∈ x :: visited ∨ b ∈ l := by
        intro b hb
        rw [List.mem_cons]
        rcases hmem b hb with hv | hl
        · exact Or.inl (Or.inr hv)
        · exact (List.mem_cons.mp hl).imp Or.inl id
      apply ih hcons hsorted
      intro b hb hPb
      by_cases hbx : b = x
      · subst hbx
        rw [Function.update_self, hwant b hPb]
        congr 1
        cases hp : parent b with
        | none => rfl
        | some c => exact congrArg some (hvisited c hPb hp)
      · rw [Function.update_of_ne hbx]
        exact hval b ((List.mem_cons.mp hb).resolve_left hbx) hPb

/-- **A sweep in the order of the keys gives every node its value.** -/
theorem sweep_eq (val : α → β) (hwant : ∀ a, P a → want a = f ((parent a).map want) a)
    (hparent : ∀ a b, P a → parent a = some b → P b ∧ key b < key a)
    (hmem : ∀ a, P a → a ∈ l) (hsorted : l.Pairwise (key · ≤ key ·)) {a : α} (ha : P a) :
    sweep parent f l val a = want a :=
  have hval : ∀ a ∈ ([] : List α), P a → val a = want a := nofun
  sweep_eq_of_visited hwant hparent (fun a ha ↦ Or.inr (hmem a ha)) hsorted hval ha

end Sweep
