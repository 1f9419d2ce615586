import Mathlib.Data.List.Nodup

/-!
# Vectors whose items know where they stand

A vector of distinct items, and for each item the position it is at, so that an item is found and
removed without a search.

`Points vec pos` says that the positions are right.  The rules are a new item at the end, two items
changing places, and the last item leaving; removing an item is a swap and a removal at the end.
-/

variable {ι : Type*}

namespace BackPointer

/-- The items with a position are those of the vector, and the position is theirs. -/
def Points (vec : List ι) (pos : ι → Option Int) : Prop :=
  ∀ i z, pos i = some z ↔ ∃ p : Nat, z = p ∧ vec[p]? = some i

variable {vec : List ι} {pos : ι → Option Int} {i j : ι} {p q : Nat} {z : Int}

namespace Points

theorem of_getElem? (h : Points vec pos) (hp : vec[p]? = some i) : pos i = some (p : Int) :=
  (h i p).mpr ⟨p, rfl, hp⟩

theorem exists_getElem? (h : Points vec pos) (hz : pos i = some z) :
    ∃ p : Nat, z = p ∧ vec[p]? = some i :=
  (h i z).mp hz

theorem inj (h : Points vec pos) (hp : vec[p]? = some i) (hq : vec[q]? = some i) : p = q := by
  have heq := (h.of_getElem? hp).symm.trans (h.of_getElem? hq)
  exact Int.ofNat.inj (Option.some.inj heq)

theorem mem_iff (h : Points vec pos) : i ∈ vec ↔ (pos i).isSome := by
  rw [List.mem_iff_getElem?, Option.isSome_iff_exists]
  constructor
  · rintro ⟨p, hp⟩
    exact ⟨p, h.of_getElem? hp⟩
  · rintro ⟨z, hz⟩
    obtain ⟨p, -, hp⟩ := h.exists_getElem? hz
    exact ⟨p, hp⟩

theorem nodup (h : Points vec pos) : vec.Nodup := by
  rw [List.nodup_iff_getElem?_ne_getElem?]
  intro p q hpq hq heq
  have hi : vec[q]? = some vec[q] := List.getElem?_eq_getElem hq
  exact absurd (h.inj (heq.trans hi) hi) (Nat.ne_of_lt hpq)

section

variable [DecidableEq ι]

/-- A new item goes to the end. -/
theorem push (h : Points vec pos) (hi : pos i = none) :
    Points (vec ++ [i]) (Function.update pos i (some (vec.length : Int))) := by
  intro k z
  by_cases hk : k = i
  · subst hk
    rw [Function.update_self]
    constructor
    · intro hz
      exact ⟨vec.length, (Option.some.inj hz).symm, List.getElem?_concat_length⟩
    · rintro ⟨p, rfl, hp⟩
      rcases Nat.lt_trichotomy p vec.length with hlt | rfl | hlt
      · rw [List.getElem?_append_left hlt] at hp
        exact absurd (hi.symm.trans (h.of_getElem? hp)) (by simp)
      · rfl
      · rw [List.getElem?_eq_none (by rw [List.length_append]; exact hlt)] at hp
        cases hp
  · rw [Function.update_of_ne hk, h k z]
    refine exists_congr fun p ↦ and_congr_right fun _ ↦ ?_
    rcases Nat.lt_trichotomy p vec.length with hlt | rfl | hlt
    · rw [List.getElem?_append_left hlt]
    · rw [List.getElem?_concat_length, List.getElem?_eq_none (Nat.le_refl _)]
      simp [Ne.symm hk]
    · rw [List.getElem?_eq_none (Nat.le_of_lt hlt),
        List.getElem?_eq_none (by rw [List.length_append]; exact hlt)]

/-- Two items change places. -/
theorem swap (h : Points vec pos) (hp : vec[p]? = some i) (hq : vec[q]? = some j) (hpq : p ≠ q) :
    Points ((vec.set p j).set q i)
      (Function.update (Function.update pos i (some (q : Int))) j (some (p : Int))) := by
  have hij : i ≠ j := by
    rintro rfl
    exact hpq (h.inj hp hq)
  obtain ⟨hplt, -⟩ := List.getElem?_eq_some_iff.mp hp
  obtain ⟨hqlt, -⟩ := List.getElem?_eq_some_iff.mp hq
  have hset : ∀ r : Nat, ((vec.set p j).set q i)[r]? =
      if r = q then some i else if r = p then some j else vec[r]? := by
    intro r
    by_cases hrq : r = q
    · subst hrq
      rw [if_pos rfl, List.getElem?_set_self (by rw [List.length_set]; exact hqlt)]
    · rw [if_neg hrq, List.getElem?_set_ne (Ne.symm hrq)]
      by_cases hrp : r = p
      · subst hrp
        rw [if_pos rfl, List.getElem?_set_self hplt]
      · rw [if_neg hrp, List.getElem?_set_ne (Ne.symm hrp)]
  intro k z
  by_cases hkj : k = j
  · subst hkj
    rw [Function.update_self]
    constructor
    · intro hz
      refine ⟨p, (Option.some.inj hz).symm, ?_⟩
      rw [hset, if_neg hpq, if_pos rfl]
    · rintro ⟨r, rfl, hr⟩
      rw [hset] at hr
      split at hr
      case isTrue => exact absurd (Option.some.inj hr) hij
      case isFalse hrq =>
        split at hr
        case isTrue hrp => rw [hrp]
        case isFalse => exact absurd (h.inj hr hq) hrq
  · rw [Function.update_of_ne hkj]
    by_cases hki : k = i
    · subst hki
      rw [Function.update_self]
      constructor
      · intro hz
        refine ⟨q, (Option.some.inj hz).symm, ?_⟩
        rw [hset, if_pos rfl]
      · rintro ⟨r, rfl, hr⟩
        rw [hset] at hr
        split at hr
        case isTrue hrq => rw [hrq]
        case isFalse =>
          split at hr
          case isTrue => exact absurd (Option.some.inj hr).symm hij
          case isFalse hrp => exact absurd (h.inj hr hp) hrp
    · rw [Function.update_of_ne hki, h k z]
      refine exists_congr fun r ↦ and_congr_right fun _ ↦ ?_
      rw [hset]
      by_cases hrq : r = q
      · subst hrq
        rw [if_pos rfl, hq]
        simp [Ne.symm hkj, Ne.symm hki]
      · rw [if_neg hrq]
        by_cases hrp : r = p
        · subst hrp
          rw [if_pos rfl, hp]
          simp [Ne.symm hkj, Ne.symm hki]
        · rw [if_neg hrp]

/-- The last item leaves. -/
theorem pop (h : Points vec pos) (hi : vec[vec.length - 1]? = some i) :
    Points vec.dropLast (Function.update pos i none) := by
  obtain ⟨hlt, -⟩ := List.getElem?_eq_some_iff.mp hi
  intro k z
  by_cases hk : k = i
  · subst hk
    rw [Function.update_self]
    refine iff_of_false (by simp) ?_
    rintro ⟨p, -, hp⟩
    rw [List.getElem?_dropLast] at hp
    split at hp
    case isTrue hplt => exact absurd (h.inj hp hi) (Nat.ne_of_lt hplt)
    case isFalse => cases hp
  · rw [Function.update_of_ne hk, h k z]
    refine exists_congr fun p ↦ and_congr_right fun _ ↦ ?_
    rw [List.getElem?_dropLast]
    by_cases hplt : p < vec.length - 1
    · rw [if_pos hplt]
    · rw [if_neg hplt]
      refine iff_of_false ?_ (by simp)
      intro hp
      obtain ⟨hlt', -⟩ := List.getElem?_eq_some_iff.mp hp
      obtain rfl : p = vec.length - 1 := by omega
      exact hk (Option.some.inj (hp.symm.trans hi))

end

end Points

end BackPointer
