import Mathlib.Data.List.Nodup
import Mathlib.Order.Lattice
import Mathlib.Order.Nat

/-!
# Partial shuffles

The first steps of a shuffle of a list: step `i` swaps the element at `i` with one at `pos i`,
which is not before it.  The first places then hold the elements that were drawn, in order
(`getElem?_shuffle`), whatever later steps do, and the place that an element was drawn from holds
another one afterwards, unless it was drawn in place (`eq_of_getElem?_shuffle`).
-/

namespace PartialShuffle

variable {α : Type*} {l : List α} {a b : α} {i j k m n : Nat} {pos : Nat → Nat}

/-! ## Swaps -/

/-- Swaps two elements, if both are there. -/
def swap (l : List α) (i j : Nat) : List α :=
  match l[i]?, l[j]? with
  | some a, some b => (l.set j a).set i b
  | _, _ => l

theorem swap_eq (hi : l[i]? = some a) (hj : l[j]? = some b) :
    swap l i j = (l.set j a).set i b := by
  simp only [swap, hi, hj]

theorem swap_perm (hi : i < l.length) (hj : j < l.length) : (swap l i j).Perm l := by
  rw [swap_eq (List.getElem?_eq_getElem hi) (List.getElem?_eq_getElem hj)]
  exact List.set_set_perm hj hi

theorem getElem?_swap_left (hi : i < l.length) (hj : j < l.length) :
    (swap l i j)[i]? = l[j]? := by
  have hlen : i < (l.set j l[i]).length := by rwa [List.length_set]
  rw [swap_eq (List.getElem?_eq_getElem hi) (List.getElem?_eq_getElem hj),
    List.getElem?_set_self hlen, List.getElem?_eq_getElem hj]

theorem getElem?_swap_of_ne (hki : k ≠ i) (hkj : k ≠ j) : (swap l i j)[k]? = l[k]? := by
  rw [swap]
  split
  case h_1 => rw [List.getElem?_set_ne hki.symm, List.getElem?_set_ne hkj.symm]
  case h_2 => rfl

/-! ## Shuffles -/

/-- The list after `n` steps. -/
def shuffle (pos : Nat → Nat) (l : List α) : Nat → List α
  | 0 => l
  | n + 1 => swap (shuffle pos l n) n (pos n)

/-- What step `i` draws. -/
def drawn (pos : Nat → Nat) (l : List α) (i : Nat) : Option α := (shuffle pos l i)[pos i]?

/-- Each of the first `m` steps draws from the places that are left. -/
def Draws (pos : Nat → Nat) (l : List α) (m : Nat) : Prop :=
  ∀ i < m, i ≤ pos i ∧ pos i < l.length

theorem Draws.mono (h : Draws pos l m) (hle : n ≤ m) : Draws pos l n :=
  fun i hi ↦ h i (hi.trans_le hle)

theorem Draws.lt_length (h : Draws pos l m) (hi : i < m) : i < l.length :=
  (h i hi).1.trans_lt (h i hi).2

theorem shuffle_perm (h : Draws pos l m) : (shuffle pos l m).Perm l := by
  induction m with
  | zero => exact List.Perm.refl l
  | succ m ih =>
      have hprev := ih (h.mono m.le_succ)
      have hlen := hprev.length_eq
      apply List.Perm.trans _ hprev
      apply swap_perm
      · exact (h.lt_length m.lt_succ_self).trans_eq hlen.symm
      · exact (h m m.lt_succ_self).2.trans_eq hlen.symm

theorem drawn_isSome (h : Draws pos l m) (hi : i < m) : ∃ a, drawn pos l i = some a := by
  have hlen := (shuffle_perm (h.mono hi.le)).length_eq
  exact ⟨_, List.getElem?_eq_getElem ((h i hi).2.trans_eq hlen.symm)⟩

theorem mem_of_drawn (h : Draws pos l m) (hi : i < m) (ha : drawn pos l i = some a) : a ∈ l :=
  (shuffle_perm (h.mono hi.le)).mem_iff.mp (List.mem_of_getElem? ha)

/-- **The first places hold what was drawn.** -/
theorem getElem?_shuffle (h : Draws pos l m) (hi : i < m) :
    (shuffle pos l m)[i]? = drawn pos l i := by
  induction m with
  | zero => exact absurd hi (Nat.not_lt_zero i)
  | succ m ih =>
      have hprev := h.mono m.le_succ
      have hlen := (shuffle_perm hprev).length_eq
      rcases Nat.lt_succ_iff_lt_or_eq.mp hi with hlt | rfl
      · rw [shuffle, getElem?_swap_of_ne hlt.ne (hlt.trans_le (h m m.lt_succ_self).1).ne,
          ih hprev hlt]
      · rw [shuffle, getElem?_swap_left ((h.lt_length hi).trans_eq hlen.symm)
          ((h i hi).2.trans_eq hlen.symm), drawn]

/-- In a list without repetitions, what was drawn is in the first places only. -/
theorem eq_of_getElem?_shuffle (hl : l.Nodup) (h : Draws pos l m) (hi : i < m)
    (ha : drawn pos l i = some a) (hj : (shuffle pos l m)[j]? = some a) : j = i := by
  have hnodup : (shuffle pos l m).Nodup := (shuffle_perm h).nodup_iff.mpr hl
  obtain ⟨hlt, -⟩ := List.getElem?_eq_some_iff.mp hj
  rw [← getElem?_shuffle h hi, ← hj] at ha
  exact (List.getElem?_inj hlt hnodup).mp ha.symm

/-! ## The first least value -/

/-- Of the values of `f` before `n`, that at `k` is the first of the least. -/
def IsFirstLeast {β : Type*} [LT β] [LE β] (f : Nat → β) (n k : Nat) : Prop :=
  k < n ∧ (∀ j < n, f k ≤ f j) ∧ ∀ j < k, f k < f j

namespace IsFirstLeast

variable {β : Type*} [LinearOrder β] {f : Nat → β}

theorem one : IsFirstLeast f 1 0 := by
  refine ⟨Nat.one_pos, fun j hj ↦ ?_, fun j hj ↦ absurd hj j.not_lt_zero⟩
  rw [Nat.lt_one_iff.mp hj]

theorem of_lt (h : IsFirstLeast f n k) (hlt : f n < f k) : IsFirstLeast f (n + 1) n := by
  have hbefore : ∀ j < n, f n < f j := fun j hj ↦ hlt.trans_le (h.2.1 j hj)
  refine ⟨n.lt_succ_self, fun j hj ↦ ?_, hbefore⟩
  rcases Nat.lt_succ_iff_lt_or_eq.mp hj with hj | rfl
  · exact (hbefore j hj).le
  · exact le_rfl

theorem of_le (h : IsFirstLeast f n k) (hle : f k ≤ f n) : IsFirstLeast f (n + 1) k := by
  refine ⟨h.1.trans n.lt_succ_self, fun j hj ↦ ?_, h.2.2⟩
  rcases Nat.lt_succ_iff_lt_or_eq.mp hj with hj | rfl
  · exact h.2.1 j hj
  · exact hle

theorem unique (h : IsFirstLeast f n j) (h' : IsFirstLeast f n k) : j = k := by
  rcases Nat.lt_trichotomy j k with hlt | heq | hlt
  · exact absurd (h.2.1 k h'.1) (not_le.mpr (h'.2.2 j hlt))
  · exact heq
  · exact absurd (h'.2.1 j h.1) (not_le.mpr (h.2.2 k hlt))

end IsFirstLeast

end PartialShuffle
