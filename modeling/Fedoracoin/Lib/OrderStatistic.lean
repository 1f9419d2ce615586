import Mathlib.Data.List.Sort

/-!
# Order statistics

The element of rank `k` of a list, and the upper median, which is the element of rank half the
length.  An order statistic is compared with a bound by counting: the element of rank `k` is at
least `m` if and only if at most `k` elements of the list are below `m` (`le_atRank_iff`).  So
sorted lists are met in one proof only, and what a window does to its median is said in terms
of `List.countP`.
-/

namespace OrderStatistic

variable {α : Type*} [LinearOrder α] {l l' : List α} {k : Nat} {m x y : α}

/-- The element of rank `k`. -/
def atRank (l : List α) (k : Nat) : Option α := (l.insertionSort (· ≤ ·))[k]?

def upperMedian (l : List α) : Option α := atRank l (l.length / 2)

/-- In a sorted list the elements below a bound come first. -/
theorem le_getElem_iff (hsorted : l.Pairwise (· ≤ ·)) (hx : l[k]? = some x) :
    m ≤ x ↔ l.countP (· < m) ≤ k := by
  induction l generalizing k with
  | nil => cases hx
  | cons a l ih =>
      obtain ⟨ha, hl⟩ := List.pairwise_cons.mp hsorted
      by_cases ham : a < m
      · rw [List.countP_cons_of_pos (by simpa using ham)]
        cases k with
        | zero =>
            obtain rfl : a = x := by simpa using hx
            exact iff_of_false (not_le.mpr ham) (by simp)
        | succ k => rw [ih hl (by simpa using hx), Nat.succ_le_succ_iff]
      · have hmem : x ∈ a :: l := List.mem_of_getElem? hx
        have hax : a ≤ x := by
          rcases List.mem_cons.mp hmem with rfl | hmem
          · exact le_refl _
          · exact ha x hmem
        have hnone : (a :: l).countP (· < m) = 0 := by
          rw [List.countP_eq_zero]
          intro b hb
          rw [decide_eq_true_eq, not_lt]
          rcases List.mem_cons.mp hb with rfl | hb
          · exact not_lt.mp ham
          · exact (not_lt.mp ham).trans (ha b hb)
        rw [hnone]
        exact iff_of_true ((not_lt.mp ham).trans hax) (Nat.zero_le k)

/-- An order statistic is at least `m` if no more elements than its rank are below `m`. -/
theorem le_atRank_iff (hx : atRank l k = some x) : m ≤ x ↔ l.countP (· < m) ≤ k := by
  have hperm := List.perm_insertionSort (· ≤ ·) l
  rw [le_getElem_iff (List.pairwise_insertionSort (· ≤ ·) l) hx, hperm.countP_eq]

theorem exists_atRank (hk : k < l.length) : ∃ x, atRank l k = some x := by
  rw [← List.length_insertionSort (· ≤ ·) l] at hk
  exact ⟨_, List.getElem?_eq_getElem hk⟩

theorem exists_upperMedian (hl : l ≠ []) : ∃ x, upperMedian l = some x := by
  apply exists_atRank
  have hpos := List.length_pos_iff.mpr hl
  omega

/-- The median does not fall when the window loses at most one element and gets one that is
not below the median. -/
theorem upperMedian_le_cons (hx : upperMedian l = some x) (hsub : List.Sublist l' l)
    (hlen : l.length ≤ l'.length + 1) (hy : x ≤ y) {z : α}
    (hz : upperMedian (y :: l') = some z) : x ≤ z := by
  have hcount : l.countP (· < x) ≤ l.length / 2 := (le_atRank_iff hx).mp (le_refl x)
  apply (le_atRank_iff hz).mpr
  rw [List.countP_cons_of_neg (by simpa using hy), List.length_cons]
  calc l'.countP (· < x) ≤ l.countP (· < x) := hsub.countP_le
    _ ≤ l.length / 2 := hcount
    _ ≤ (l'.length + 1) / 2 := Nat.div_le_div_right hlen

end OrderStatistic
