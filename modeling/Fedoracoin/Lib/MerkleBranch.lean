import Fedoracoin.Lib.Merkle
import Mathlib.Data.Nat.Bitwise
import Mathlib.Data.Nat.Log

/-!
# Branches of a merkle tree

`branch hash n l i` are the nodes that are hashed with those over the leaf `i` of `l`, from the
leaves up, and `climb` hashes a leaf with them.  It comes to the root (`climb_branch`).  A branch
has a node for each level above the leaves, of which there are `Nat.clog 2` of the number of
leaves, and a tree is its rows up to there (`tree_eq_rows`).
-/

namespace Merkle

variable {α : Type*} {hash : α → α → α} {l : List α} {a : α} {n i : Nat}

/-- The node that is hashed with the node `i`; a last one without a neighbour is its own. -/
def sibling (l : List α) (i : Nat) : Option α := l[min (i ^^^ 1) (l.length - 1)]?

def branch (hash : α → α → α) : (n : Nat) → (l : List α) → (i : Nat) → List α
  | 0, _, _ => []
  | n + 1, l, i =>
      if 1 < l.length then (sibling l i).toList ++ branch hash n (level hash l) (i / 2) else []

def climb (hash : α → α → α) (a : α) : List α → (i : Nat) → α
  | [], _ => a
  | b :: bs, i => climb hash (if i % 2 = 1 then hash b a else hash a b) bs (i / 2)

/-- A node and its sibling make the node above. -/
theorem exists_sibling (hash : α → α → α) (ha : l[i]? = some a) : ∃ b, sibling l i = some b ∧
    (level hash l)[i / 2]? = some (if i % 2 = 1 then hash b a else hash a b) := by
  obtain ⟨hi, -⟩ := List.getElem?_eq_some_iff.mp ha
  rw [sibling, getElem?_level]
  rcases Nat.even_or_odd i with heven | hodd
  · have hmod : ¬ i % 2 = 1 := Nat.not_odd_iff_even.mpr heven ∘ Nat.odd_iff.mpr
    simp only [if_neg hmod]
    rw [Nat.xor_one_of_even heven, Nat.mul_div_cancel' heven.two_dvd, ha, Option.map_some]
    rcases Nat.lt_or_ge (i + 1) l.length with hlt | hge
    · rw [Nat.min_eq_left (Nat.le_sub_one_of_lt hlt), List.getElem?_eq_getElem hlt]
      exact ⟨_, rfl, rfl⟩
    · have hlast : l.length - 1 = i := by omega
      rw [hlast, Nat.min_eq_right (Nat.le_succ i), ha, List.getElem?_eq_none hge]
      exact ⟨_, rfl, rfl⟩
  · have hmod := Nat.odd_iff.mp hodd
    have hprev : 2 * (i / 2) = i - 1 := by omega
    have hself : i - 1 + 1 = i := by omega
    have hlt : i - 1 < l.length := (Nat.sub_le i 1).trans_lt hi
    simp only [if_pos hmod]
    rw [Nat.xor_one_of_odd hodd, hprev, hself, ha, Nat.min_eq_left (Nat.sub_le_sub_right hi.le 1),
      List.getElem?_eq_getElem hlt]
    exact ⟨_, rfl, rfl⟩

theorem branch_succ (h : 1 < l.length) {b : α} (hb : sibling l i = some b) :
    branch hash (n + 1) l i = b :: branch hash n (level hash l) (i / 2) := by
  rw [branch, if_pos h, hb]
  rfl

theorem branch_of_le (h : l.length ≤ 1) : branch hash n l i = [] := by
  cases n with
  | zero => rfl
  | succ n => rw [branch, if_neg (Nat.not_lt.mpr h)]

/-- The next level is over fewer nodes. -/
theorem length_level_le (hn : l.length ≤ n + 1) (h : 1 < l.length) :
    (level hash l).length ≤ n := by
  rw [length_level]
  omega

/-- The leaves are one level more than the nodes above them. -/
theorem clog_level (hash : α → α → α) (h : 1 < l.length) :
    Nat.clog 2 (level hash l).length + 1 = Nat.clog 2 l.length := by
  rw [Nat.clog_of_two_le Nat.one_lt_two h, length_level]
  rfl

/-- **A branch leads to the root.** -/
theorem climb_branch (hn : l.length ≤ n) (ha : l[i]? = some a) :
    (tree hash n l).getLast? = some (climb hash a (branch hash n l i) i) := by
  induction n generalizing l i a with
  | zero =>
      rw [List.length_eq_zero_iff.mp (Nat.le_zero.mp hn)] at ha
      cases ha
  | succ n ih =>
      rcases Nat.lt_or_ge 1 l.length with h | h
      · obtain ⟨b, hb, hlevel⟩ := exists_sibling hash ha
        rw [getLast?_tree_succ h, branch_succ h hb, climb]
        exact ih (length_level_le hn h) hlevel
      · obtain ⟨hi, -⟩ := List.getElem?_eq_some_iff.mp ha
        obtain rfl : i = 0 := by omega
        rw [tree_of_le h, branch_of_le h, climb, List.getLast?_eq_getElem?,
          show l.length - 1 = 0 by omega, ha]

/-- It has a node for each level above the leaves. -/
theorem length_branch (hn : l.length ≤ n) (hi : i < l.length) :
    (branch hash n l i).length = Nat.clog 2 l.length := by
  induction n generalizing l i with
  | zero => exact absurd hi (by omega)
  | succ n ih =>
      rcases Nat.lt_or_ge 1 l.length with h | h
      · obtain ⟨b, hb, -⟩ := exists_sibling hash (List.getElem?_eq_getElem hi)
        have hhalf : i / 2 < (level hash l).length := by
          rw [length_level]
          omega
        rw [branch_succ h hb, List.length_cons, ih (length_level_le hn h) hhalf, clog_level hash h]
      · rw [branch_of_le h, Nat.clog_of_right_le_one h, List.length_nil]

/-- A tree is its rows. -/
theorem tree_eq_rows (hn : l.length ≤ n) :
    tree hash n l = (List.range (Nat.clog 2 l.length + 1)).flatMap (row hash l) := by
  induction n generalizing l with
  | zero =>
      obtain rfl := List.length_eq_zero_iff.mp (Nat.le_zero.mp hn)
      rfl
  | succ n ih =>
      rcases Nat.lt_or_ge 1 l.length with h | h
      · have hrows : (List.range (Nat.clog 2 (level hash l).length + 1)).flatMap
            (row hash (level hash l)) =
            (List.range (Nat.clog 2 (level hash l).length + 1)).flatMap
              (fun k ↦ row hash l (k + 1)) := by
          apply List.flatMap_congr
          exact fun k _ ↦ row_level hash l k
        rw [tree_succ h, ih (length_level_le hn h), hrows, ← clog_level hash h,
          List.range_succ_eq_map (n := Nat.clog 2 (level hash l).length + 1), List.flatMap_cons,
          List.flatMap_map, row_zero]
      · rw [tree_of_le h, Nat.clog_of_right_le_one h, List.range_one, List.flatMap_singleton,
          row_zero]

/-- The first row of one node is that of the root. -/
theorem length_row_eq_one (hash : α → α → α) (hne : l ≠ []) (k : Nat) :
    (row hash l k).length = 1 ↔ Nat.clog 2 l.length ≤ k := by
  have hpos : 0 < l.length := List.length_pos_iff.mpr hne
  have hpow : 0 < 2 ^ k := Nat.two_pow_pos k
  rw [Nat.clog_le_iff_le_pow Nat.one_lt_two, length_row, Nat.div_eq_iff hpow]
  omega

end Merkle
