import Mathlib.Data.List.InsertIdx
import Mathlib.Order.Nat

/-!
# Vectors that move when they are full

A vector that grows keeps its elements in a block of some capacity, and moves to a new block when
one is added to a full one.  A position in a block that is not the vector's any more has no index.

* `Vec.pushBack`, `Vec.insert` and `Vec.clear`, which keeps the block;
* `Vec.distance`: the index of a position, where there is one;
* `Vec.grown`: the capacity that a number of elements lead to.
-/

namespace Reallocation

variable {α : Type*}

/-- The capacity of the block after one that was full. -/
structure Growth where
  next : Nat → Nat
  lt_next : ∀ n, n < next n

/-- `block` counts the blocks there have been. -/
structure Vec (α : Type*) where
  data : List α
  capacity : Nat
  block : Nat
  length_le : data.length ≤ capacity

structure Position where
  block : Nat
  index : Nat

namespace Vec

def empty : Vec α := ⟨[], 0, 0, le_rfl⟩

/-- The block is kept. -/
def clear (v : Vec α) : Vec α := ⟨[], v.capacity, v.block, Nat.zero_le _⟩

def position (v : Vec α) (i : Nat) : Position := ⟨v.block, i⟩

/-- How far a position is from the beginning, if it is one in the vector's block. -/
def distance (v : Vec α) (p : Position) : Option Nat :=
  if p.block = v.block then some p.index else none

variable (g : Growth)

def insert (v : Vec α) (i : Nat) (x : α) : Vec α :=
  if h : v.data.length < v.capacity then
    ⟨v.data.insertIdx i x, v.capacity, v.block, List.length_insertIdx_le_succ.trans h⟩
  else
    ⟨v.data.insertIdx i x, g.next v.capacity, v.block + 1,
      List.length_insertIdx_le_succ.trans
        ((Nat.succ_le_succ v.length_le).trans (g.lt_next _))⟩

def pushBack (v : Vec α) (x : α) : Vec α := v.insert g v.data.length x

def pushAll (v : Vec α) (xs : List α) : Vec α := xs.foldl (pushBack g) v

/-- The capacity after `n` elements are added one by one to the `m` in a block. -/
def grown (capacity m : Nat) : Nat → Nat
  | 0 => capacity
  | n + 1 => grown (if m < capacity then capacity else g.next capacity) (m + 1) n

variable {g} {v : Vec α} {x : α} {xs : List α} {i : Nat}

@[simp] theorem data_clear : v.clear.data = [] := rfl

@[simp] theorem data_insert : (v.insert g i x).data = v.data.insertIdx i x := by
  rw [insert]
  split
  · rfl
  · rfl

theorem capacity_insert : (v.insert g i x).capacity =
    if v.data.length < v.capacity then v.capacity else g.next v.capacity := by
  rw [insert]
  split
  · rfl
  · rfl

/-- A position survives an insertion exactly where there was room. -/
theorem distance_insert (j : Nat) : (v.insert g i x).distance (v.position j) =
    if v.data.length < v.capacity then some j else none := by
  rw [insert]
  split
  case isTrue => exact if_pos rfl
  case isFalse => exact if_neg (Nat.ne_of_lt (Nat.lt_succ_self _))

@[simp] theorem data_pushBack : (v.pushBack g x).data = v.data ++ [x] := by
  rw [pushBack, data_insert, List.insertIdx_length_self]

@[simp] theorem data_pushAll : (v.pushAll g xs).data = v.data ++ xs := by
  induction xs generalizing v with
  | nil => exact (List.append_nil _).symm
  | cons x xs ih =>
      have hrest := ih (v := v.pushBack g x)
      rw [data_pushBack, List.append_assoc] at hrest
      exact hrest

theorem capacity_pushAll :
    (v.pushAll g xs).capacity = grown g v.capacity v.data.length xs.length := by
  induction xs generalizing v with
  | nil => rfl
  | cons x xs ih =>
      have hrest := ih (v := v.pushBack g x)
      rw [data_pushBack, List.length_append, pushBack, capacity_insert] at hrest
      exact hrest

/-- A block that has room for all elements is kept. -/
theorem grown_of_le {capacity m n : Nat} (h : m + n ≤ capacity) :
    grown g capacity m n = capacity := by
  induction n generalizing m with
  | zero => rfl
  | succ n ih =>
      rw [grown, if_pos (by omega)]
      exact ih (by omega)

theorem le_grown {capacity m n : Nat} (hm : m ≤ capacity) : m + n ≤ grown g capacity m n := by
  induction n generalizing capacity m with
  | zero => exact hm
  | succ n ih =>
      rw [grown, ← Nat.succ_add_eq_add_succ]
      apply ih
      split
      case isTrue h => exact h
      case isFalse h => exact Nat.succ_le_of_lt (hm.trans_lt (g.lt_next capacity))

/-- The elements fit again after the vector is cleared. -/
theorem grown_grown {capacity m n : Nat} (hm : m ≤ capacity) :
    grown g (grown g capacity m n) m n = grown g capacity m n :=
  grown_of_le (le_grown hm)

end Vec

end Reallocation
