import Mathlib.Data.List.Perm.Basic

/-!
# Selections from a list

A selection marks items of a list by booleans in a list beside it.
-/

namespace Selection

variable {α : Type*} {x : α} {xs : List α} {fs : List Bool} {i : Nat}

/-- The marked items. -/
def pick : List α → List Bool → List α
  | x :: xs, f :: fs => if f then x :: pick xs fs else pick xs fs
  | _, _ => []

theorem pick_sublist (xs : List α) (fs : List Bool) : (pick xs fs).Sublist xs := by
  induction xs generalizing fs with
  | nil => exact List.nil_sublist _
  | cons x xs ih =>
    cases fs with
    | nil => exact List.nil_sublist _
    | cons f fs =>
      cases f with
      | false => exact (ih fs).cons x
      | true => exact (ih fs).cons_cons x

theorem pick_replicate_true (xs : List α) : pick xs (List.replicate xs.length true) = xs := by
  induction xs with
  | nil => rfl
  | cons x xs ih => exact congrArg (x :: ·) ih

theorem pick_replicate_false (xs : List α) (n : Nat) : pick xs (List.replicate n false) = [] := by
  induction xs generalizing n with
  | nil => rfl
  | cons x xs ih =>
    cases n with
    | zero => rfl
    | succ n => exact ih n

/-- Marking one more item adds it. -/
theorem pick_set_true (hx : xs[i]? = some x) (hf : fs[i]? = some false) :
    (pick xs (fs.set i true)).Perm (x :: pick xs fs) := by
  induction xs generalizing fs i with
  | nil => cases hx
  | cons y xs ih =>
    cases fs with
    | nil => cases hf
    | cons f fs =>
      cases i with
      | zero =>
        obtain rfl := Option.some.inj hx
        obtain rfl := Option.some.inj hf
        exact .refl _
      | succ i =>
        rw [List.getElem?_cons_succ] at hx hf
        cases f with
        | false => exact ih hx hf
        | true => exact ((ih hx hf).cons y).trans (.swap x y _)

/-- A mark that is set and taken back. -/
theorem set_true_set_false (hf : fs[i]? = some false) : (fs.set i true).set i false = fs := by
  obtain ⟨hlt, hget⟩ := List.getElem?_eq_some_iff.mp hf
  rw [List.set_set, ← hget, List.set_getElem_self]

end Selection
