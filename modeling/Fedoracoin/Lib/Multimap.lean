import Mathlib.Data.List.Induction
import Mathlib.Data.List.Sort

/-!
# Ordered multimaps

A map that may hold several items under one key, as the list of its entries in the order of the
keys.  Items of one key stand in the order in which they came.
-/

universe u v

/-- The entries, from the smallest key on. -/
@[ext]
structure Multimap (κ : Type u) (α : Type v) [LinearOrder κ] where
  entries : List (κ × α)
  sorted : entries.Pairwise fun e e' ↦ e.1 ≤ e'.1

namespace Multimap

variable {κ : Type u} {α : Type v} [LinearOrder κ]

def empty : Multimap κ α := ⟨[], .nil⟩

/-- An entry goes before the first one with a greater key. -/
theorem sorted_orderedInsert {l : List (κ × α)} (h : l.Pairwise fun e e' ↦ e.1 ≤ e'.1)
    (e : κ × α) :
    (l.orderedInsert (fun e e' ↦ e.1 < e'.1) e).Pairwise fun e e' ↦ e.1 ≤ e'.1 := by
  induction l with
  | nil => exact List.pairwise_singleton _ _
  | cons x l ih =>
      obtain ⟨hx, hl⟩ := List.pairwise_cons.mp h
      rw [List.orderedInsert_cons]
      split
      case isTrue hlt =>
        refine List.pairwise_cons.mpr ⟨fun y hy ↦ ?_, h⟩
        rcases List.mem_cons.mp hy with rfl | hy
        · exact hlt.le
        · exact hlt.le.trans (hx y hy)
      case isFalse hle =>
        refine List.pairwise_cons.mpr ⟨fun y hy ↦ ?_, ih hl⟩
        rcases (List.mem_orderedInsert _).mp hy with rfl | hy
        · exact not_lt.mp hle
        · exact hx y hy

def insert (m : Multimap κ α) (k : κ) (a : α) : Multimap κ α where
  entries := m.entries.orderedInsert (fun e e' ↦ e.1 < e'.1) (k, a)
  sorted := sorted_orderedInsert m.sorted (k, a)

/-- Without the first entry. -/
def pop (m : Multimap κ α) : Multimap κ α :=
  ⟨m.entries.tail, m.sorted.sublist (List.tail_sublist _)⟩

/-- Without the first entry that is equal to the given one. -/
def erase [DecidableEq α] (m : Multimap κ α) (e : κ × α) : Multimap κ α :=
  ⟨m.entries.erase e, m.sorted.sublist List.erase_sublist⟩

/-- The entries of a list, inserted from the first to the last. -/
def ofList (l : List (κ × α)) : Multimap κ α := l.foldl (fun m e ↦ m.insert e.1 e.2) empty

variable {m : Multimap κ α} {k : κ} {a : α} {e : κ × α}

theorem perm_insert (m : Multimap κ α) (k : κ) (a : α) :
    (m.insert k a).entries.Perm ((k, a) :: m.entries) := List.perm_orderedInsert _ _ _

@[simp] theorem mem_insert : e ∈ (m.insert k a).entries ↔ e = (k, a) ∨ e ∈ m.entries :=
  List.mem_orderedInsert _

theorem nodup_insert (h : m.entries.Nodup) (hnew : (k, a) ∉ m.entries) :
    (m.insert k a).entries.Nodup :=
  (perm_insert m k a).nodup_iff.mpr (List.nodup_cons.mpr ⟨hnew, h⟩)

/-- The first entry has the smallest key. -/
theorem key_le_of_cons {l : List (κ × α)} (h : m.entries = e :: l) :
    ∀ e' ∈ m.entries, e.1 ≤ e'.1 := by
  have hs := m.sorted
  rw [h] at hs ⊢
  intro e' he'
  rcases List.mem_cons.mp he' with rfl | he'
  · exact le_rfl
  · exact (List.pairwise_cons.mp hs).1 e' he'

theorem perm_ofList (l : List (κ × α)) : (ofList l).entries.Perm l := by
  induction l using List.reverseRecOn with
  | nil => exact .refl _
  | append_singleton l e ih =>
      rw [ofList, List.foldl_append, List.foldl_cons, List.foldl_nil]
      refine (perm_insert _ _ _).trans (((ih.cons e)).trans ?_)
      exact (List.perm_append_singleton e l).symm

end Multimap
