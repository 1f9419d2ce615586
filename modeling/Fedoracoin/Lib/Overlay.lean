import Mathlib.Data.Finmap

/-!
# Finite maps over a view

The entries of a finite map laid over what lies below, and the relation between a store that may
drop dead entries and the map it stands for.  Laws of `laidOver` turn the operations of a write-back
cache into updates of one function: setting an entry (`laidOver_insert`), fetching one from below
(`laidOver_fetch`), and writing all of them to the layer below (`laidOver_union`).
-/

namespace Overlay

variable {κ β : Type} [DecidableEq κ] {m m' : Finmap fun _ : κ ↦ β} {f : κ → Option β} {k : κ}
  {b : β}

/-- The entries of `m` over `f`. -/
def laidOver (m : Finmap fun _ : κ ↦ β) (f : κ → Option β) (k : κ) : Option β :=
  (m.lookup k).or (f k)

theorem laidOver_of_some (h : m.lookup k = some b) : laidOver m f k = some b := by
  rw [laidOver, h, Option.some_or]

theorem laidOver_of_none (h : m.lookup k = none) : laidOver m f k = f k := by
  rw [laidOver, h, Option.none_or]

@[simp] theorem laidOver_empty (f : κ → Option β) : laidOver ∅ f = f := by
  funext k
  exact laidOver_of_none (Finmap.lookup_empty k)

theorem laidOver_insert (m : Finmap fun _ : κ ↦ β) (f : κ → Option β) (k : κ) (b : β) :
    laidOver (m.insert k b) f = Function.update (laidOver m f) k (some b) := by
  funext j
  rcases eq_or_ne j k with rfl | h
  · rw [Function.update_self, laidOver_of_some (Finmap.lookup_insert m)]
  · rw [Function.update_of_ne h, laidOver, laidOver, Finmap.lookup_insert_of_ne m h]

/-- Fetching an entry from below does not show. -/
theorem laidOver_fetch (hm : m.lookup k = none) (h : f k = some b) :
    laidOver (m.insert k b) f = laidOver m f := by
  rw [laidOver_insert, ← h, ← laidOver_of_none (f := f) hm, Function.update_eq_self]

/-- Writing a map to the one below. -/
theorem laidOver_union (m m' : Finmap fun _ : κ ↦ β) (f : κ → Option β) :
    laidOver (m ∪ m') f = laidOver m (laidOver m' f) := by
  funext k
  by_cases hk : k ∈ m
  · obtain ⟨b, hb⟩ := Finmap.mem_iff.mp hk
    rw [laidOver_of_some hb, laidOver_of_some ((Finmap.lookup_union_left hk).trans hb)]
  · rw [laidOver_of_none (Finmap.lookup_eq_none.mpr hk), laidOver,
      Finmap.lookup_union_right hk, laidOver]

/-! ## Dropping dead entries -/

variable {dead : β → Prop} {a c d : Option β}

/-- `a` is `c`, or nothing in place of a dead entry. -/
def Prunes (dead : β → Prop) (a c : Option β) : Prop := a = c ∨ a = none ∧ ∃ b, c = some b ∧ dead b

namespace Prunes

theorem refl (a : Option β) : Prunes dead a a := Or.inl rfl

theorem of_eq (h : a = c) : Prunes dead a c := Or.inl h

theorem trans (h : Prunes dead a c) (h' : Prunes dead c d) : Prunes dead a d := by
  rcases h with rfl | ⟨rfl, b, rfl, hb⟩
  · exact h'
  · rcases h' with rfl | ⟨h', _⟩
    · exact Or.inr ⟨rfl, b, rfl, hb⟩
    · cases h'

/-- An entry that is there is the entry. -/
theorem eq_some (h : Prunes dead (some b) c) : c = some b := by
  rcases h with rfl | ⟨h, _⟩
  · rfl
  · cases h

end Prunes

end Overlay
