import Mathlib.Algebra.Order.BigOperators.Group.List
import Mathlib.Algebra.Order.Ring.Int
import Mathlib.Data.List.DropRight

/-!
# Lists with holes

A list in which the elements satisfying `hole` stand for absent ones, and in which
trailing holes may be dropped, represents a finite partial function on the indices,
`get hole l`.  Erasing an index, writing an index past the end and trimming the holes at
the end act on that function as expected (`get_erase`, `get_write`, `get_trim`).

Many lists represent one function.  The canonical ones have one fixed element for their
holes and no hole at the end; two canonical lists that represent the same function are
equal (`Canonical.eq_of_get_eq`).
-/

namespace SparseList

variable {α : Type*} (hole : α → Bool)

/-- The element at an index, if there is one that is not a hole. -/
def get (l : List α) (n : Nat) : Option α := l[n]?.filter fun x ↦ !hole x

/-- Drops the holes at the end. -/
def trim (l : List α) : List α := l.rdropWhile hole

/-- Writes an index, padding the list with `blank` when it is too short. -/
def write (blank : α) (l : List α) (n : Nat) (x : α) : List α :=
  (l.rightpad (n + 1) blank).set n x

variable {hole} {l l' : List α} {n : Nat} {x blank : α}

theorem get_eq_some_iff : get hole l n = some x ↔ l[n]? = some x ∧ hole x = false := by
  simp [get, Option.filter_eq_some_iff]

@[simp] theorem get_nil : get hole [] n = none := rfl

theorem get_eq_none_of_le (h : l.length ≤ n) : get hole l n = none := by
  rw [get, List.getElem?_eq_none h]
  rfl

theorem get_eq_none_iff : get hole l = (fun _ ↦ none) ↔ ∀ x ∈ l, hole x = true := by
  constructor
  · intro h x hx
    obtain ⟨n, hn⟩ := List.mem_iff_getElem?.mp hx
    by_contra hne
    have hget := get_eq_some_iff.mpr ⟨hn, Bool.eq_false_iff.mpr hne⟩
    rw [h] at hget
    cases hget
  · intro h
    funext n
    rw [Option.eq_none_iff_forall_ne_some]
    intro x hx
    obtain ⟨hx, hne⟩ := get_eq_some_iff.mp hx
    rw [h x (List.mem_of_getElem? hx)] at hne
    cases hne

/-- Trimming does not change what a list represents. -/
@[simp] theorem get_trim : get hole (trim hole l) = get hole l := by
  induction l using List.reverseRecOn with
  | nil => rfl
  | append_singleton l x ih =>
      cases hx : hole x with
      | false => rw [trim, List.rdropWhile_concat_neg (h := by simp [hx])]
      | true =>
          rw [trim, List.rdropWhile_concat_pos (h := hx)]
          refine ih.trans ?_
          funext n
          rcases lt_trichotomy n l.length with hlt | heq | hgt
          · rw [get, get, List.getElem?_append_left hlt]
          · rw [get_eq_none_of_le heq.ge, get, heq, List.getElem?_concat_length,
              Option.filter_some, hx]
            rfl
          · rw [get_eq_none_of_le hgt.le, get_eq_none_of_le]
            rw [List.length_append, List.length_singleton]
            omega

theorem trim_eq_nil_iff : trim hole l = [] ↔ ∀ x ∈ l, hole x = true :=
  List.rdropWhile_eq_nil_iff

theorem get_erase (hblank : hole blank = true) :
    get hole (l.set n blank) = Function.update (get hole l) n none := by
  funext m
  by_cases hm : m = n
  · subst hm
    rw [Function.update_self, get, List.getElem?_set_self']
    cases l[m]? <;> simp [hblank]
  · rw [Function.update_of_ne hm, get, get, List.getElem?_set_ne (Ne.symm hm)]

theorem get_rightpad (hblank : hole blank = true) :
    get hole (l.rightpad n blank) = get hole l := by
  funext m
  rw [List.rightpad]
  rcases lt_or_ge m l.length with hlt | hge
  · rw [get, get, List.getElem?_append_left hlt]
  · rw [get_eq_none_of_le hge, get, List.getElem?_append_right hge, List.getElem?_replicate]
    split
    · simp [hblank]
    · rfl

/-- Writing a hole leaves one. -/
theorem get_write_filter (hblank : hole blank = true) :
    get hole (write blank l n x) =
      Function.update (get hole l) n ((some x).filter fun x ↦ !hole x) := by
  funext m
  by_cases hm : m = n
  · subst hm
    rw [Function.update_self, get, write, List.getElem?_set_self]
    rw [List.length_rightpad]
    omega
  · rw [Function.update_of_ne hm, get, write, List.getElem?_set_ne (Ne.symm hm), ← get,
      get_rightpad hblank]

theorem get_write (hblank : hole blank = true) (hx : hole x = false) :
    get hole (write blank l n x) = Function.update (get hole l) n (some x) := by
  rw [get_write_filter hblank, Option.filter_some, hx]
  rfl

/-! ## Sums -/

/-- The sum of the weights of the elements that are not holes. -/
def weight (hole : α → Bool) (w : α → Int) (l : List α) : Int :=
  (l.map fun x ↦ if hole x then 0 else w x).sum

variable {w : α → Int}

theorem weight_nonneg (h : ∀ n x, get hole l n = some x → 0 ≤ w x) : 0 ≤ weight hole w l := by
  refine List.sum_nonneg fun v hv ↦ ?_
  obtain ⟨x, hx, rfl⟩ := List.mem_map.mp hv
  obtain ⟨n, hn⟩ := List.mem_iff_getElem?.mp hx
  split
  · exact le_rfl
  · rename_i hhole
    exact h n x (get_eq_some_iff.mpr ⟨hn, Bool.eq_false_iff.mpr hhole⟩)

@[simp] theorem weight_trim : weight hole w (trim hole l) = weight hole w l := by
  induction l using List.reverseRecOn with
  | nil => rfl
  | append_singleton l x ih =>
      cases hx : hole x with
      | false => rw [trim, List.rdropWhile_concat_neg (h := by simp [hx])]
      | true =>
          rw [trim, List.rdropWhile_concat_pos (h := hx)]
          refine ih.trans ?_
          simp [weight, hx]

theorem weight_erase (hblank : hole blank = true) (h : get hole l n = some x) :
    weight hole w (l.set n blank) = weight hole w l - w x := by
  induction l generalizing n with
  | nil => simp at h
  | cons y l ih =>
      cases n with
      | zero =>
          obtain ⟨hy, hx⟩ := get_eq_some_iff.mp h
          obtain rfl := Option.some.inj hy
          simp [weight, hblank, hx]
      | succ n =>
          have hrest := ih (n := n) h
          simp only [weight, List.set_cons_succ, List.map_cons, List.sum_cons] at hrest ⊢
          rw [hrest, add_sub_assoc]

/-! ## Canonical lists -/

/-- All holes are the same, and none is at the end. -/
structure Canonical (hole : α → Bool) (blank : α) (l : List α) : Prop where
  hole_eq : ∀ x ∈ l, hole x = true → x = blank
  last : ∀ x ∈ l.getLast?, hole x = false

theorem Canonical.nil : Canonical hole blank [] := ⟨by simp, by simp⟩

/-- The last index of a canonical list is not a hole. -/
theorem Canonical.exists_get (h : Canonical hole blank l) (hl : l ≠ []) :
    ∃ x, get hole l (l.length - 1) = some x := by
  refine ⟨l.getLast hl, get_eq_some_iff.mpr ⟨?_, h.last _ (List.getLast?_eq_some_getLast hl)⟩⟩
  rw [← List.getLast?_eq_getElem?, List.getLast?_eq_some_getLast hl]

theorem Canonical.length_le (h' : Canonical hole blank l') (heq : get hole l = get hole l') :
    l'.length ≤ l.length := by
  by_contra hlt
  obtain ⟨x, hx⟩ := h'.exists_get (by rintro rfl; simp at hlt)
  rw [← heq, get_eq_none_of_le (by omega)] at hx
  cases hx

/-- A canonical list is determined by the function it represents. -/
theorem Canonical.eq_of_get_eq (h : Canonical hole blank l) (h' : Canonical hole blank l')
    (heq : get hole l = get hole l') : l = l' := by
  have hlen : l.length = l'.length := le_antisymm (h.length_le heq.symm) (h'.length_le heq)
  refine List.ext_getElem hlen fun n hn hn' ↦ ?_
  have hpt : ∀ y, get hole l n = some y ↔ get hole l' n = some y := fun y ↦ by rw [heq]
  simp only [get_eq_some_iff, List.getElem?_eq_getElem hn, List.getElem?_eq_getElem hn',
    Option.some.injEq] at hpt
  cases hx : hole l[n] with
  | false => exact ((hpt l[n]).mp ⟨rfl, hx⟩).1.symm
  | true =>
      cases hx' : hole l'[n] with
      | false => exact ((hpt l'[n]).mpr ⟨rfl, hx'⟩).1
      | true =>
          rw [h.hole_eq _ (List.getElem_mem hn) hx, h'.hole_eq _ (List.getElem_mem hn') hx']

theorem canonical_trim (h : ∀ x ∈ l, hole x = true → x = blank) :
    Canonical hole blank (trim hole l) := by
  refine ⟨fun x hx ↦ h x ((List.rdropWhile_prefix hole l).subset hx), fun x hx ↦ ?_⟩
  rw [Option.mem_def, List.getLast?_eq_some_iff] at hx
  obtain ⟨ys, hys⟩ := hx
  have hne : trim hole l ≠ [] := by rw [hys]; simp
  have hlast := List.rdropWhile_last_not hole l hne
  have hx : (trim hole l).getLast hne = x := by simp only [hys, List.getLast_concat]
  rw [← Bool.not_eq_true, ← hx]
  exact hlast

theorem Canonical.trim_erase (h : Canonical hole blank l) :
    Canonical hole blank (trim hole (l.set n blank)) := by
  refine canonical_trim fun x hx hhole ↦ ?_
  rcases List.mem_or_eq_of_mem_set hx with hx | rfl
  · exact h.hole_eq x hx hhole
  · rfl

theorem Canonical.write (h : Canonical hole blank l) (hx : hole x = false) :
    Canonical hole blank (write blank l n x) := by
  constructor
  · intro y hy hhole
    rcases List.mem_or_eq_of_mem_set hy with hy | rfl
    · rcases List.mem_append.mp hy with hy | hy
      · exact h.hole_eq y hy hhole
      · exact List.eq_of_mem_replicate hy
    · rw [hx] at hhole
      cases hhole
  · intro y hy
    have hlen : (SparseList.write blank l n x).length = max l.length (n + 1) := by
      rw [SparseList.write, List.length_set, List.length_rightpad, max_comm]
    rw [Option.mem_def, List.getLast?_eq_getElem?, hlen, SparseList.write] at hy
    rcases lt_or_ge (n + 1) l.length with hlt | hge
    · rw [max_eq_left hlt.le, List.getElem?_set_ne (by omega), List.rightpad,
        List.getElem?_append_left (by omega), ← List.getLast?_eq_getElem?] at hy
      exact h.last y hy
    · rw [max_eq_right hge, Nat.add_sub_cancel, List.getElem?_set_self, Option.some.injEq] at hy
      · exact hy ▸ hx
      · rw [List.length_rightpad]
        omega

end SparseList
