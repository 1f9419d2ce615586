import Mathlib.Algebra.BigOperators.Group.List.Basic
import Mathlib.Tactic.Ring

/-!
# Books of what is opened and closed

A book has entries that are opened with a value, and closed by a closing that names their key.
What it comes to can be told in two ways: as a flow, what is opened less what the closings take
away, and as a stock, what is open still.  `flow_add_excess` says what lies between the two.
-/

namespace DoubleEntry

/-- An entry of a book; `opened` says whether its opening counts, and `closed` whether it is held
to be closed. -/
structure Entry (κ : Type*) where
  key : κ
  value : Int
  opened : Bool
  closed : Bool

variable {κ : Type*} [DecidableEq κ]

/-- What a closing that names `key` takes away. -/
def valueAt (book : List (Entry κ)) (key : κ) : Int :=
  (book.map fun e ↦ if e.key = key then e.value else 0).sum

section

variable (book : List (Entry κ)) (closings : List κ)

def opened : Int := (book.map fun e ↦ if e.opened then e.value else 0).sum

def flow : Int := opened book - (closings.map (valueAt book)).sum

def stock : Int := (book.map fun e ↦ if e.opened && !e.closed then e.value else 0).sum

/-- What is held to be closed, though no closing names it. -/
def unnamed : Int :=
  (book.map fun e ↦
    if e.opened && e.closed && decide (e.key ∉ closings) then e.value else 0).sum

/-- What the closings take away beyond the one that an entry held to be closed accounts for. -/
def excess : Int :=
  (book.map fun e ↦
    if e.key ∈ closings then
      ((closings.count e.key : Int) - if e.opened && e.closed then 1 else 0) * e.value
    else 0).sum

end

variable {book : List (Entry κ)} {closings : List κ}

/-- The closings take an entry away as often as they name it. -/
theorem sum_valueAt : (closings.map (valueAt book)).sum =
    (book.map fun e ↦ (closings.count e.key : Int) * e.value).sum := by
  induction closings with
  | nil =>
      rw [List.map_nil, List.sum_nil]
      refine (List.sum_eq_zero fun v hv ↦ ?_).symm
      obtain ⟨e, -, rfl⟩ := List.mem_map.mp hv
      rw [List.count_nil, Nat.cast_zero, zero_mul]
  | cons key closings ih =>
      rw [List.map_cons, List.sum_cons, ih, valueAt, ← List.sum_map_add]
      refine congrArg List.sum (List.map_congr_left fun e _ ↦ ?_)
      rw [List.count_cons]
      by_cases hkey : e.key = key
      · rw [if_pos hkey, if_pos (beq_iff_eq.mpr hkey.symm), Nat.cast_add, Nat.cast_one]
        ring
      · rw [if_neg hkey, if_neg fun h ↦ hkey (beq_iff_eq.mp h).symm, zero_add, Nat.add_zero]

/-- **The two ways.**  A closing that names what is not held to be closed, or names it again, lowers
the flow only; what is held to be closed and not named lowers the stock only. -/
theorem flow_add_excess :
    flow book closings + excess book closings = stock book + unnamed book closings := by
  have hsum : opened book + excess book closings =
      stock book + unnamed book closings + (closings.map (valueAt book)).sum := by
    rw [sum_valueAt, opened, excess, stock, unnamed, ← List.sum_map_add, ← List.sum_map_add,
      ← List.sum_map_add]
    refine congrArg List.sum (List.map_congr_left fun e _ ↦ ?_)
    by_cases hkey : e.key ∈ closings
    · rw [if_pos hkey, decide_eq_false (not_not.mpr hkey), Bool.and_false]
      cases e.opened with
      | false => simp
      | true =>
          cases e.closed with
          | false => simp
          | true =>
              simp only [Bool.and_true, Bool.not_true, Bool.and_false, Bool.false_eq_true, if_true,
                if_false]
              ring
    · rw [if_neg hkey, decide_eq_true hkey, List.count_eq_zero.mpr hkey, Bool.and_true]
      cases e.opened with
      | false => simp
      | true => cases e.closed <;> simp
  rw [flow]
  omega

/-- Of what is worth something, the closings name once what is opened and held to be closed, and
nothing else. -/
def ClosedOnce (book : List (Entry κ)) (closings : List κ) : Prop :=
  ∀ e ∈ book, e.value ≠ 0 → closings.count e.key = if e.opened && e.closed then 1 else 0

theorem ClosedOnce.unnamed_eq_zero (h : ClosedOnce book closings) : unnamed book closings = 0 := by
  refine List.sum_eq_zero fun v hv ↦ ?_
  obtain ⟨e, he, rfl⟩ := List.mem_map.mp hv
  by_cases hvalue : e.value = 0
  · rw [hvalue, ite_self]
  refine if_neg fun hclosed ↦ ?_
  obtain ⟨hclosed, hkey⟩ := Bool.and_eq_true_iff.mp hclosed
  have hcount := h e he hvalue
  rw [List.count_eq_zero.mpr (of_decide_eq_true hkey), if_pos hclosed] at hcount
  exact absurd hcount Nat.zero_ne_one

theorem ClosedOnce.excess_eq_zero (h : ClosedOnce book closings) : excess book closings = 0 := by
  refine List.sum_eq_zero fun v hv ↦ ?_
  obtain ⟨e, he, rfl⟩ := List.mem_map.mp hv
  by_cases hvalue : e.value = 0
  · rw [hvalue, mul_zero, ite_self]
  rw [h e he hvalue, Nat.cast_ite, Nat.cast_one, Nat.cast_zero, sub_self, zero_mul, ite_self]

/-! ## Sums over the parts of a list -/

theorem sum_map_filter {α : Type*} (p : α → Bool) (f : α → Int) (l : List α) :
    ((l.filter p).map f).sum = (l.map fun x ↦ if p x then f x else 0).sum := by
  rw [List.sum_map_ite, List.sum_map_zero, add_zero]
  simp only [Bool.decide_eq_true]

theorem sum_flatMap {α β : Type*} (l : List α) (g : α → List β) (f : β → Int) :
    ((l.flatMap g).map f).sum = (l.map fun x ↦ ((g x).map f).sum).sum := by
  induction l with
  | nil => rfl
  | cons x l ih =>
      rw [List.flatMap_cons, List.map_append, List.sum_append, List.map_cons, List.sum_cons, ih]

/-- Of a list with its positions, a sum that looks at one position only. -/
theorem sum_zipIdx {α : Type*} (f : α → Int) (l : List α) (n k : Nat) :
    ((l.zipIdx k).map fun p ↦ if p.2 = k + n then f p.1 else 0).sum = (l[n]?).elim 0 f := by
  induction l generalizing n k with
  | nil => rfl
  | cons x l ih =>
      rw [List.zipIdx_cons, List.map_cons, List.sum_cons]
      cases n with
      | zero =>
          rw [if_pos (Nat.add_zero k).symm, List.sum_eq_zero, add_zero]
          · rfl
          · intro v hv
            obtain ⟨⟨y, i⟩, hmem, rfl⟩ := List.mem_map.mp hv
            have hle := (List.mem_zipIdx_iff_le_and_getElem?_sub.mp hmem).1
            exact if_neg (by omega)
      | succ n =>
          rw [if_neg (by omega), zero_add, List.getElem?_cons_succ, ← ih n (k + 1),
            Nat.add_assoc k 1 n, Nat.add_comm 1 n]

end DoubleEntry
