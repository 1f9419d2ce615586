import Mathlib.Data.List.Nodup
import Mathlib.Tactic.Ring

/-!
# Merkle trees that pair an odd node with itself

The levels of a tree over a list of leaves, from the leaves up.  `pairs` are the pairs of nodes
that are hashed to make the next level, `row hash l h` is level `h` over the leaves `l`, and
`tree` is all levels in one list, the root last.

The root does not bind the leaves: the last leaf of an odd list may be repeated.  It does
if the leaves are distinct (`eq_of_root_eq`), as long as no two of the pairs that occur
collide and no inner node is a leaf.  The reason is that then the nodes of every level are
distinct (`Nodup.level`), and for distinct nodes the pairs determine the level
(`eq_of_pairs_eq`).
-/

namespace Merkle

variable {α : Type*} {hash : α → α → α} {l l' : List α} {a b : α} {n n' h i : Nat}

/-! ## Levels -/

/-- The pairs of neighbours; a last one without a neighbour is paired with itself. -/
def pairs : List α → List (α × α)
  | [] => []
  | [a] => [(a, a)]
  | a :: b :: l => (a, b) :: pairs l

/-- The level above. -/
def level (hash : α → α → α) (l : List α) : List α := (pairs l).map fun p ↦ hash p.1 p.2

/-- Level `h` over the leaves. -/
def row (hash : α → α → α) (l : List α) (h : Nat) : List α := (level hash)^[h] l

/-- The pairs that are hashed for a tree of at most `n` levels. -/
def hashed (hash : α → α → α) : (n : Nat) → List α → List (α × α)
  | 0, _ => []
  | n + 1, l => if 1 < l.length then pairs l ++ hashed hash n (level hash l) else []

/-- All nodes, level by level. -/
def tree (hash : α → α → α) (n : Nat) (l : List α) : List α :=
  l ++ (hashed hash n l).map fun p ↦ hash p.1 p.2

@[simp] theorem length_pairs (l : List α) : (pairs l).length = (l.length + 1) / 2 := by
  induction l using pairs.induct with
  | case1 => rw [pairs, List.length_nil, List.length_nil]
  | case2 a => rw [pairs, List.length_singleton, List.length_singleton]
  | case3 a b l ih =>
      rw [pairs, List.length_cons, ih, List.length_cons, List.length_cons]
      omega

@[simp] theorem length_level (hash : α → α → α) (l : List α) :
    (level hash l).length = (l.length + 1) / 2 := by
  rw [level, List.length_map, length_pairs]

theorem getElem?_pairs (l : List α) (i : Nat) :
    (pairs l)[i]? = l[2 * i]?.map fun a ↦ (a, l[2 * i + 1]?.getD a) := by
  induction l using pairs.induct generalizing i with
  | case1 => rfl
  | case2 a =>
      cases i with
      | zero => rfl
      | succ i => rfl
  | case3 a b l ih =>
      cases i with
      | zero => rfl
      | succ i => exact ih i

theorem getElem?_level (hash : α → α → α) (l : List α) (i : Nat) :
    (level hash l)[i]? = l[2 * i]?.map fun a ↦ hash a (l[2 * i + 1]?.getD a) := by
  rw [level, List.getElem?_map, getElem?_pairs, Option.map_map]
  rfl

@[simp] theorem row_zero (hash : α → α → α) (l : List α) : row hash l 0 = l := rfl

theorem row_succ (hash : α → α → α) (l : List α) (h : Nat) :
    row hash l (h + 1) = level hash (row hash l h) := Function.iterate_succ_apply' _ _ _

theorem row_level (hash : α → α → α) (l : List α) (h : Nat) :
    row hash (level hash l) h = row hash l (h + 1) := (Function.iterate_succ_apply _ _ _).symm

/-! ## Distinct leaves -/

theorem fst_mem_of_mem_pairs {p : α × α} (hp : p ∈ pairs l) : p.1 ∈ l := by
  obtain ⟨i, hi⟩ := List.mem_iff_getElem?.mp hp
  rw [getElem?_pairs, Option.map_eq_some_iff] at hi
  obtain ⟨a, ha, rfl⟩ := hi
  exact List.mem_of_getElem? ha

theorem nodup_pairs (hl : l.Nodup) : (pairs l).Nodup := by
  induction l using pairs.induct with
  | case1 => exact List.nodup_nil
  | case2 a => exact List.nodup_singleton _
  | case3 a b l ih =>
      rw [List.nodup_cons, List.nodup_cons] at hl
      obtain ⟨ha, _, hl⟩ := hl
      rw [pairs, List.nodup_cons]
      refine ⟨fun hmem ↦ ha ?_, ih hl⟩
      exact List.mem_cons_of_mem _ (fst_mem_of_mem_pairs hmem)

/-- The pairs determine a level of distinct nodes. -/
theorem eq_of_pairs_eq (hl : l.Nodup) (hl' : l'.Nodup) (h : pairs l = pairs l') : l = l' := by
  induction l using pairs.induct generalizing l' with
  | case1 =>
      have hlen := congrArg List.length h
      rw [length_pairs, length_pairs, List.length_nil] at hlen
      exact (List.length_eq_zero_iff.mp (by omega)).symm
  | case2 a =>
      cases l' using pairs.induct with
      | case1 => exact absurd h (by simp [pairs])
      | case2 a' =>
          rw [(Prod.mk.inj (List.cons.inj h).1).1]
      | case3 a' b' l' =>
          obtain ⟨⟨rfl, rfl⟩, _⟩ := (List.cons.inj h).imp_left Prod.mk.inj
          exact absurd hl' (by simp)
  | case3 a b l ih =>
      cases l' using pairs.induct with
      | case1 => exact absurd h (by simp [pairs])
      | case2 a' =>
          obtain ⟨⟨rfl, rfl⟩, _⟩ := (List.cons.inj h).imp_left Prod.mk.inj
          exact absurd hl (by simp)
      | case3 a' b' l' =>
          obtain ⟨⟨rfl, rfl⟩, hrest⟩ := (List.cons.inj h).imp_left Prod.mk.inj
          rw [ih hl.of_cons.of_cons hl'.of_cons.of_cons hrest]

/-- No two inputs of the hash collide, where one of them is among the given pairs. -/
def Binding (hash : α → α → α) (ps : List (α × α)) : Prop :=
  ∀ p ∈ ps, ∀ a b, hash a b = hash p.1 p.2 → (a, b) = p

theorem Binding.mono {ps ps' : List (α × α)} (h : Binding hash ps) (hsub : ps' ⊆ ps) :
    Binding hash ps' := fun p hp ↦ h p (hsub hp)

/-- A hash with the one value `c` outside of the pairs `qs` need only be tested on those. -/
theorem Binding.of_const {ps qs : List (α × α)} {c : α} (hc : ∀ a b, (a, b) ∉ qs → hash a b = c)
    (h : ∀ p ∈ ps, hash p.1 p.2 ≠ c ∧ ∀ q ∈ qs, hash q.1 q.2 = hash p.1 p.2 → q = p) :
    Binding hash ps := by
  intro p hp a b heq
  obtain ⟨hne, hqs⟩ := h p hp
  by_cases hmem : (a, b) ∈ qs
  · exact hqs (a, b) hmem heq
  · rw [hc a b hmem] at heq
    exact absurd heq.symm hne

/-- The nodes above distinct nodes are distinct. -/
theorem nodup_level (hl : l.Nodup) (h : Binding hash (pairs l)) : (level hash l).Nodup :=
  (nodup_pairs hl).map_on fun p _ q hq heq ↦ h q hq p.1 p.2 heq

theorem Binding.map_inj {ps qs : List (α × α)} (h : Binding hash ps)
    (heq : ps.map (fun p ↦ hash p.1 p.2) = qs.map fun p ↦ hash p.1 p.2) : ps = qs := by
  induction ps generalizing qs with
  | nil =>
      rw [List.map_nil, eq_comm, List.map_eq_nil_iff] at heq
      exact heq.symm
  | cons p ps ih =>
      cases qs with
      | nil => exact absurd heq (by simp)
      | cons q qs =>
          obtain ⟨hhead, htail⟩ := List.cons.inj heq
          have hq := h p List.mem_cons_self q.1 q.2 hhead.symm
          rw [ih (h.mono (List.subset_cons_self p ps)) htail, ← hq]

/-- Distinct nodes are determined by the level above. -/
theorem level_inj (hl : l.Nodup) (hl' : l'.Nodup) (h : Binding hash (pairs l))
    (heq : level hash l = level hash l') : l = l' :=
  eq_of_pairs_eq hl hl' (h.map_inj heq)

/-! ## Trees -/

theorem hashed_of_le (h : l.length ≤ 1) : hashed hash n l = [] := by
  cases n with
  | zero => rfl
  | succ n => rw [hashed, if_neg (Nat.not_lt.mpr h)]

theorem hashed_succ (h : 1 < l.length) :
    hashed hash (n + 1) l = pairs l ++ hashed hash n (level hash l) := by
  rw [hashed, if_pos h]

theorem tree_of_le (h : l.length ≤ 1) : tree hash n l = l := by
  rw [tree, hashed_of_le h, List.map_nil, List.append_nil]

theorem tree_succ (h : 1 < l.length) :
    tree hash (n + 1) l = l ++ tree hash n (level hash l) := by
  rw [tree, hashed_succ h, List.map_append]
  rfl

theorem getLast?_tree_succ (h : 1 < l.length) :
    (tree hash (n + 1) l).getLast? = (tree hash n (level hash l)).getLast? := by
  have hne : tree hash n (level hash l) ≠ [] := by
    intro hnil
    have hlen := congrArg List.length (List.append_eq_nil_iff.mp hnil).1
    rw [length_level, List.length_nil] at hlen
    omega
  rw [tree_succ h, List.getLast?_append_of_ne_nil _ hne]

/-- Both children of an inner node are nodes. -/
theorem fst_of_mem_hashed {p : α × α} (hp : p ∈ hashed hash n l) :
    p.1 ∈ l ∨ ∃ q ∈ hashed hash n l, p.1 = hash q.1 q.2 := by
  induction n generalizing l with
  | zero => exact absurd hp List.not_mem_nil
  | succ n ih =>
      rcases Nat.lt_or_ge 1 l.length with hlen | hlen
      · rw [hashed_succ hlen] at hp ⊢
        rcases List.mem_append.mp hp with hp | hp
        · exact Or.inl (fst_mem_of_mem_pairs hp)
        · right
          rcases ih hp with hmem | ⟨q, hq, heq⟩
          · obtain ⟨q, hq, heq⟩ := List.mem_map.mp hmem
            exact ⟨q, List.mem_append_left _ hq, heq.symm⟩
          · exact ⟨q, List.mem_append_right _ hq, heq⟩
      · rw [hashed_of_le hlen] at hp
        exact absurd hp List.not_mem_nil

/-- The root of a tree of more than one node is an inner node. -/
theorem root_mem_hashed (hn : l.length ≤ n) (h : 1 < l.length)
    (hroot : (tree hash n l).getLast? = some a) : ∃ p ∈ hashed hash n l, a = hash p.1 p.2 := by
  obtain ⟨n, rfl⟩ := Nat.exists_eq_add_of_lt (h.trans_le hn)
  have hne : (hashed hash (1 + n + 1) l).map (fun p ↦ hash p.1 p.2) ≠ [] := by
    intro hnil
    have hlen := congrArg List.length (List.map_eq_nil_iff.mp hnil)
    rw [hashed_succ h, List.length_append, length_pairs, List.length_nil] at hlen
    omega
  rw [tree, List.getLast?_append_of_ne_nil _ hne] at hroot
  obtain ⟨p, hp, heq⟩ := List.mem_map.mp (List.mem_of_getLast? hroot)
  exact ⟨p, hp, heq.symm⟩

/-- Some leaf is an inner node of the other tree. -/
def Mixed (hash : α → α → α) (l : List α) (ps : List (α × α)) : Prop :=
  ∃ a ∈ l, ∃ p ∈ ps, a = hash p.1 p.2

/-- A node on the first level that is an inner node of another tree has children that are. -/
theorem Mixed.of_level (hb : Binding hash (pairs l))
    (h : Mixed hash (level hash l) (hashed hash n (level hash l'))) (hlen : 1 < l'.length) :
    Mixed hash l (hashed hash (n + 1) l') := by
  obtain ⟨a, ha, p, hp, heq⟩ := h
  obtain ⟨q, hq, rfl⟩ := List.mem_map.mp ha
  obtain rfl := hb q hq p.1 p.2 heq.symm
  rw [hashed_succ hlen]
  refine ⟨p.1, fst_mem_of_mem_pairs hq, ?_⟩
  rcases fst_of_mem_hashed hp with hmem | ⟨r, hr, heq⟩
  · obtain ⟨r, hr, heq⟩ := List.mem_map.mp hmem
    exact ⟨r, List.mem_append_left _ hr, heq.symm⟩
  · exact ⟨r, List.mem_append_right _ hr, heq⟩

/-- Trees of distinct leaves with the same root have the same leaves, or one of them hangs in
the other. -/
theorem eq_or_mixed (hn : l.length ≤ n) (hn' : l'.length ≤ n') (hne : l ≠ []) (hne' : l' ≠ [])
    (hl : l.Nodup) (hl' : l'.Nodup) (hb : Binding hash (hashed hash n l))
    (hb' : Binding hash (hashed hash n' l'))
    (hroot : (tree hash n l).getLast? = (tree hash n' l').getLast?) :
    l = l' ∨ Mixed hash l (hashed hash n' l') ∨ Mixed hash l' (hashed hash n l) := by
  induction n generalizing l l' n' with
  | zero => exact absurd (List.length_eq_zero_iff.mp (Nat.le_zero.mp hn)) hne
  | succ n ih =>
      rcases Nat.lt_or_ge 1 l.length with hlen | hlen
      · rcases Nat.lt_or_ge 1 l'.length with hlen' | hlen'
        · obtain ⟨n', rfl⟩ := Nat.exists_eq_succ_of_ne_zero (Nat.ne_zero_of_lt (hlen'.trans_le hn'))
          rw [getLast?_tree_succ hlen, getLast?_tree_succ hlen'] at hroot
          rw [hashed_succ hlen] at hb
          rw [hashed_succ hlen'] at hb'
          have hpairs := hb.mono (List.subset_append_left _ _)
          have hpairs' := hb'.mono (List.subset_append_left _ _)
          rcases ih (by rw [length_level]; omega) (by rw [length_level]; omega)
            (List.ne_nil_of_length_pos (by rw [length_level]; omega))
            (List.ne_nil_of_length_pos (by rw [length_level]; omega))
            (nodup_level hl hpairs) (nodup_level hl' hpairs')
            (hb.mono (List.subset_append_right _ _)) (hb'.mono (List.subset_append_right _ _))
            hroot with heq | hmixed | hmixed
          · exact Or.inl (level_inj hl hl' hpairs heq)
          · exact Or.inr (Or.inl (hmixed.of_level hpairs hlen'))
          · exact Or.inr (Or.inr (hmixed.of_level hpairs' hlen))
        · obtain ⟨a, rfl⟩ := List.length_eq_one_iff.mp
            (le_antisymm hlen' (List.length_pos_iff.mpr hne'))
          rw [tree_of_le hlen'] at hroot
          obtain ⟨p, hp, heq⟩ := root_mem_hashed hn hlen hroot
          exact Or.inr (Or.inr ⟨a, List.mem_singleton_self a, p, hp, heq⟩)
      · obtain ⟨a, rfl⟩ := List.length_eq_one_iff.mp
          (le_antisymm hlen (List.length_pos_iff.mpr hne))
        rw [tree_of_le hlen] at hroot
        rcases Nat.lt_or_ge 1 l'.length with hlen' | hlen'
        · obtain ⟨p, hp, heq⟩ := root_mem_hashed hn' hlen' hroot.symm
          exact Or.inr (Or.inl ⟨a, List.mem_singleton_self a, p, hp, heq⟩)
        · obtain ⟨a', rfl⟩ := List.length_eq_one_iff.mp
            (le_antisymm hlen' (List.length_pos_iff.mpr hne'))
          rw [tree_of_le hlen'] at hroot
          exact Or.inl (congrArg (· :: []) (Option.some.inj hroot))

/-- **Binding.**  Distinct leaves are determined by the root, if no leaf is an inner node. -/
theorem eq_of_root_eq (hn : l.length ≤ n) (hn' : l'.length ≤ n') (hne : l ≠ []) (hne' : l' ≠ [])
    (hl : l.Nodup) (hl' : l'.Nodup) (hb : Binding hash (hashed hash n l))
    (hb' : Binding hash (hashed hash n' l')) (hm : ¬ Mixed hash l (hashed hash n' l'))
    (hm' : ¬ Mixed hash l' (hashed hash n l))
    (hroot : (tree hash n l).getLast? = (tree hash n' l').getLast?) : l = l' :=
  (eq_or_mixed hn hn' hne hne' hl hl' hb hb' hroot).resolve_right (not_or.mpr ⟨hm, hm'⟩)

/-! ## Rows -/

theorem length_row (hash : α → α → α) (l : List α) (h : Nat) :
    (row hash l h).length = (l.length + 2 ^ h - 1) / 2 ^ h := by
  induction h with
  | zero => rw [row_zero, pow_zero, Nat.div_one, Nat.add_sub_cancel]
  | succ h ih =>
      have hpos : 0 < 2 ^ h := Nat.two_pow_pos h
      rw [row_succ, length_level, ih, ← Nat.add_div_right _ hpos, Nat.div_div_eq_div_mul, pow_succ]
      congr 1
      omega

theorem getElem?_row_succ (hash : α → α → α) (l : List α) (h i : Nat) :
    (row hash l (h + 1))[i]? = (row hash l h)[2 * i]?.map fun a ↦
      hash a ((row hash l h)[2 * i + 1]?.getD a) := by
  rw [row_succ, getElem?_level]

/-- The root is the node of the first row that has one node. -/
theorem getLast?_tree_row (hn : l.length ≤ n) (hlong : ∀ k < h, 1 < (row hash l k).length)
    (hlast : (row hash l h).length = 1) :
    (tree hash n l).getLast? = (row hash l h)[0]? := by
  induction h generalizing l n with
  | zero =>
      obtain ⟨a, rfl⟩ := List.length_eq_one_iff.mp hlast
      rw [tree_of_le (le_refl 1)]
      rfl
  | succ h ih =>
      have hlen : 1 < l.length := hlong 0 h.succ_pos
      obtain ⟨n, rfl⟩ := Nat.exists_eq_succ_of_ne_zero (Nat.ne_zero_of_lt (hlen.trans_le hn))
      rw [getLast?_tree_succ hlen, ← row_level]
      apply ih
      · rw [length_level]
        omega
      · intro k hk
        rw [row_level]
        exact hlong (k + 1) (Nat.succ_lt_succ hk)
      · rwa [row_level]

theorem pairs_row_subset (hn : l.length ≤ n) (hlong : ∀ k ≤ h, 1 < (row hash l k).length) :
    pairs (row hash l h) ⊆ hashed hash n l := by
  have hlen : 1 < l.length := hlong 0 h.zero_le
  obtain ⟨n, rfl⟩ := Nat.exists_eq_succ_of_ne_zero (Nat.ne_zero_of_lt (hlen.trans_le hn))
  rw [hashed_succ hlen]
  induction h generalizing l n with
  | zero => exact List.subset_append_left _ _
  | succ h ih =>
      have hlen' : 1 < (level hash l).length := hlong 1 (Nat.succ_le_succ h.zero_le)
      have hn' : (level hash l).length ≤ n := by
        rw [length_level]
        omega
      obtain ⟨n, rfl⟩ := Nat.exists_eq_succ_of_ne_zero (Nat.ne_zero_of_lt (hlen'.trans_le hn'))
      rw [← row_level]
      apply List.Subset.trans _ (List.subset_append_right _ _)
      rw [hashed_succ hlen']
      exact ih (fun k hk ↦ by rw [row_level]; exact hlong (k + 1) (Nat.succ_le_succ hk)) hlen'
        n hn'

end Merkle
