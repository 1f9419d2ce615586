import Mathlib.Data.List.DropRight

/-!
# Sliding windows

A window of capacity `n` drops its first element when it is full and gets another.  It always holds
the last elements that went in, `n` of them if there were so many (`push_rtake`).
-/

namespace SlidingWindow

variable {α : Type*} {l : List α} {n : Nat}

/-- A window gets an element. -/
def push (n : Nat) (w : List α) (a : α) : List α := (if w.length = n then w.tail else w) ++ [a]

theorem length_rtake (l : List α) (n : Nat) : (l.rtake n).length = min n l.length := by
  rw [List.rtake, List.length_drop]
  omega

/-- The last elements are all, if there are not more. -/
theorem rtake_of_le (h : l.length ≤ n) : l.rtake n = l := by
  rw [List.rtake, Nat.sub_eq_zero_of_le h, List.drop_zero]

/-- **A window holds what went in last.** -/
theorem push_rtake (hn : 0 < n) (l : List α) (a : α) :
    push n (l.rtake n) a = (l ++ [a]).rtake n := by
  rw [push, length_rtake]
  rcases Nat.lt_or_ge l.length n with hlt | hge
  · have hlen : (l ++ [a]).length ≤ n := by
      rw [List.length_append]
      exact hlt
    rw [if_neg (by omega), rtake_of_le hlt.le, rtake_of_le hlen]
  · have hsub : l.length + 1 - n = l.length - n + 1 := by omega
    rw [if_pos (Nat.min_eq_left hge), List.rtake, List.rtake, List.length_append,
      List.length_singleton, hsub, List.tail_drop, List.drop_append_of_le_length (by omega)]

end SlidingWindow
