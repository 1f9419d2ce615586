import Mathlib.Data.List.Basic

/-!
# Accesses to a vector from its end

A computation that reads and changes a vector, where a position that does not exist is an outcome of
its own: `Access α` is a result, a failure that the program itself decides on, an access out of
range, or a loop that has not ended.  A vector is the list of its elements, the last first, and
positions are counted from the end, from 1 on.

`Access.ofOption` are the computations that do neither of the last two; a program whose accesses are
all in range is shown to be one.
-/

/-- What a computation with accesses to a vector ends with. -/
inductive Access (α : Type) where
  | ok (a : α)
  | reject
  | outOfRange
  | unfinished

namespace Access

variable {α β γ : Type}

def bind (x : Access α) (f : α → Access β) : Access β :=
  match x with
  | .ok a => f a
  | .reject => .reject
  | .outOfRange => .outOfRange
  | .unfinished => .unfinished

instance : Monad Access where
  pure := .ok
  bind := bind

/-- A failure that the program decides on. -/
def ofOption : Option α → Access α
  | some a => .ok a
  | none => .reject

/-- `if (!c) return false`. -/
def require (c : Prop) [Decidable c] : Access Unit := if c then .ok () else .reject

@[simp] theorem ok_bind (a : α) (f : α → Access β) : (Access.ok a >>= f) = f a := rfl

@[simp] theorem pure_eq (a : α) : (pure a : Access α) = .ok a := rfl

@[simp] theorem ofOption_some (a : α) : ofOption (some a) = .ok a := rfl

/-- Computations without faults compose. -/
theorem ofOption_bind (x : Option α) (f : α → Option β) :
    ofOption (x.bind f) = ofOption x >>= fun a ↦ ofOption (f a) := by
  cases x with
  | none => rfl
  | some a => rfl

theorem ofOption_map (x : Option α) (f : α → β) :
    ofOption (x.map f) = ofOption x >>= fun a ↦ .ok (f a) := by
  cases x with
  | none => rfl
  | some a => rfl

theorem ofOption_ne_outOfRange (x : Option α) : ofOption x ≠ .outOfRange := by
  cases x with
  | none => exact fun h ↦ nomatch h
  | some a => exact fun h ↦ nomatch h

theorem ofOption_ne_unfinished (x : Option α) : ofOption x ≠ .unfinished := by
  cases x with
  | none => exact fun h ↦ nomatch h
  | some a => exact fun h ↦ nomatch h

theorem require_pos {c : Prop} [Decidable c] (h : c) : require c = .ok () := if_pos h

theorem require_neg {c : Prop} [Decidable c] (h : ¬ c) : require c = .reject := if_neg h

/-! ## The accesses -/

/-- The element at a position. -/
def top (v : List α) (i : Nat) : Access α :=
  match i with
  | 0 => .outOfRange
  | i + 1 =>
      match v[i]? with
      | some a => .ok a
      | none => .outOfRange

/-- `pop_back`. -/
def pop : List α → Access (List α)
  | _ :: v => .ok v
  | [] => .outOfRange

/-- `pop_back`, `i` times. -/
def popMany : (i : Nat) → List α → Access (List α)
  | 0, v => .ok v
  | i + 1, v => pop v >>= popMany i

/-- `erase(end() - i)`. -/
def eraseEnd (v : List α) (i : Nat) : Access (List α) :=
  if 0 < i ∧ i ≤ v.length then .ok (v.eraseIdx (i - 1)) else .outOfRange

/-- `erase(end() - i, end() - j)`. -/
def eraseRange (v : List α) (i j : Nat) : Access (List α) :=
  if j ≤ i ∧ i ≤ v.length then .ok (v.take j ++ v.drop i) else .outOfRange

/-- `insert(end() - i, a)`. -/
def insertEnd (v : List α) (i : Nat) (a : α) : Access (List α) :=
  if i ≤ v.length then .ok (v.take i ++ a :: v.drop i) else .outOfRange

/-- `swap`, of the elements at two positions. -/
def swapTop (v : List α) (i j : Nat) : Access (List α) := do
  let a ← top v i
  let b ← top v j
  return (v.set (i - 1) b).set (j - 1) a

theorem top_of_getElem? {v : List α} {i : Nat} {a : α} (h : v[i]? = some a) :
    top v (i + 1) = .ok a := by
  rw [top, h]

theorem popMany_of_le {v : List α} {i : Nat} (h : i ≤ v.length) :
    popMany i v = .ok (v.drop i) := by
  induction i generalizing v with
  | zero => rfl
  | succ i ih =>
      cases v with
      | nil => exact absurd h (Nat.not_succ_le_zero i)
      | cons a v => exact ih (Nat.le_of_succ_le_succ h)

theorem eraseEnd_of_lt {v : List α} {i : Nat} (h : i < v.length) :
    eraseEnd v (i + 1) = .ok (v.eraseIdx i) :=
  if_pos ⟨Nat.succ_pos i, h⟩

/-- `i` elements from a position on, towards the beginning. -/
def tops (v : List α) (start : Nat) : (i : Nat) → Access (List α)
  | 0 => .ok []
  | i + 1 => do
      let a ← top v start
      let rest ← tops v (start + 1) i
      return a :: rest

theorem tops_of_le {v : List α} {start i : Nat} (h : start + i ≤ v.length) :
    tops v (start + 1) i = .ok ((v.drop start).take i) := by
  induction i generalizing start with
  | zero => rfl
  | succ i ih =>
      have hlt : start < v.length := by omega
      rw [tops, top_of_getElem? (List.getElem?_eq_getElem hlt), ok_bind, ih (by omega), ok_bind,
        pure_eq, List.drop_eq_getElem_cons hlt, List.take_succ_cons]

end Access
