import Fedoracoin.Chain
import Fedoracoin.Lib.Loop

/-!
# The vector of a chain

`CChain` as it is stored: a vector of pointers that `SetTip` resizes, and then rewrites from the tip
down until it meets a block that is already in its place.  What is below that block was written by
earlier calls.  After any calls the vector is the path to the last tip (`setTip_eq`), which is what
`Fedoracoin.Chain` has for a chain, and the pointer returned is that of the last block that the old
and the new chain have in common.
-/

namespace Fedoracoin

/-- `vChain`; the pointers are null where nothing was written since the last resize. -/
abbrev ChainVector := List (Option Uint256)

namespace ChainVector

/-! ## The members of `CChain` -/

def genesis (vChain : ChainVector) : Option Uint256 := vChain[0]?.join

def tip (vChain : ChainVector) : Option Uint256 := vChain[vChain.length - 1]?.join

/-- `operator[]`. -/
def subscript (vChain : ChainVector) (nHeight : Int) : Option Uint256 :=
  if nHeight < 0 ∨ (vChain.length : Int) ≤ nHeight then none else vChain[nHeight.toNat]?.join

def contains (tree : BlockTree) (vChain : ChainVector) (pindex : Uint256) : Bool :=
  vChain.subscript (tree.nHeight pindex) == some pindex

def next (tree : BlockTree) (vChain : ChainVector) (pindex : Uint256) : Option Uint256 :=
  if vChain.contains tree pindex then vChain.subscript (tree.nHeight pindex + 1) else none

def height (vChain : ChainVector) : Int := vChain.length - 1

/-- `vChain.resize`. -/
def resize (vChain : ChainVector) (n : Nat) : ChainVector :=
  vChain.take n ++ List.replicate (n - vChain.length) none

/-- An iteration of the loop of `SetTip`; there is no value if it leaves the vector. -/
def setTipBody (tree : BlockTree) (s : ChainVector × Option Uint256) :
    Option (ChainVector × Option Uint256 ⊕ ChainVector × Option Uint256) :=
  match s.2 with
  | none => some (.inl s)
  | some pindex => do
      let entry ← s.1[tree.nHeight pindex]?
      if entry = some pindex then return .inl s
      else return .inr (s.1.set (tree.nHeight pindex) (some pindex), tree.pprev pindex)

/-- `SetTip`, with the pointer it returns.  The loop goes down one height each time. -/
def setTip (tree : BlockTree) (vChain : ChainVector) :
    Option Uint256 → Option (ChainVector × Option Uint256)
  | none => some ([], none)
  | some pindex =>
      Loop.run (setTipBody tree) (tree.nHeight pindex + 2)
        (vChain.resize (tree.nHeight pindex + 1), some pindex)

variable {tree : BlockTree} {vChain v : ChainVector} {c : CChain} {pindex a b : Uint256}
variable {i j n : Nat}

/-! ## The members on a vector without gaps -/

@[simp] theorem subscript_map (l : CChain) (nHeight : Int) :
    subscript (l.map some) nHeight = if nHeight < 0 then none else l[nHeight.toNat]? := by
  rw [subscript, List.length_map]
  split
  case isTrue h =>
      split
      case isTrue => rfl
      case isFalse hneg =>
          have hle : l.length ≤ nHeight.toNat := by omega
          rw [List.getElem?_eq_none hle]
  case isFalse h =>
      have hneg : ¬ nHeight < 0 := fun hneg ↦ h (Or.inl hneg)
      have hlt : nHeight.toNat < l.length := by omega
      rw [if_neg hneg, List.getElem?_map, List.getElem?_eq_getElem hlt]
      rfl

theorem contains_map (c : CChain) (pindex : Uint256) :
    contains tree (c.map some) pindex = c.contains tree pindex := by
  have hneg : ¬ (tree.nHeight pindex : Int) < 0 := Int.not_lt.mpr (Int.natCast_nonneg _)
  rw [contains, subscript_map, if_neg hneg, Int.toNat_natCast, CChain.contains]

theorem tip_map (l : CChain) : tip (l.map some) = l.tip := by
  rw [tip, List.length_map, List.getElem?_map, CChain.tip, List.getLast?_eq_getElem?]
  cases l[l.length - 1]? with
  | none => rfl
  | some a => rfl

/-! ## The loop -/

/-- Below this height the loop has not been yet. -/
def bound (tree : BlockTree) (pindex : Option Uint256) : Nat :=
  pindex.elim 0 fun pindex ↦ tree.nHeight pindex + 1

theorem bound_pprev (tree : BlockTree) (pindex : Uint256) :
    bound tree (tree.pprev pindex) = tree.nHeight pindex := by
  cases h : tree.pprev pindex with
  | none => exact (tree.forest.height_root h).symm
  | some hashPrev => exact (tree.forest.height_parent h).symm

theorem length_resize (vChain : ChainVector) (n : Nat) : (vChain.resize n).length = n := by
  rw [resize, List.length_append, List.length_take, List.length_replicate]
  omega

/-- A pointer that is left after a resize was there before. -/
theorem of_getElem?_resize (h : (vChain.resize n)[i]? = some (some a)) :
    vChain[i]? = some (some a) := by
  rw [resize, List.getElem?_append] at h
  split at h
  case isTrue hi =>
      rw [List.length_take] at hi
      rwa [List.getElem?_take_of_lt (hi.trans_le (Nat.min_le_left _ _))] at h
  case isFalse hi =>
      rw [List.getElem?_replicate] at h
      split at h
      case isTrue => exact absurd (Option.some.inj h) (by simp)
      case isFalse => cases h

theorem getElem?_resize (hi : i < n) (h : vChain[i]? = some (some a)) :
    (vChain.resize n)[i]? = some (some a) := by
  obtain ⟨hlt, -⟩ := List.getElem?_eq_some_iff.mp h
  have hlt' : i < (vChain.take n).length := by
    rw [List.length_take]
    exact Nat.lt_min.mpr ⟨hi, hlt⟩
  rw [resize, List.getElem?_append_left hlt', List.getElem?_take_of_lt hi, h]

/-- The invariant of the loop that writes the path to `target` over the chain `c`: it is at an
ancestor of `target`, above which the path has been written and nothing is in `c`, and from there
down the vector is as it was. -/
structure Writing (tree : BlockTree) (c : CChain) (target : Uint256)
    (s : ChainVector × Option Uint256) : Prop where
  length_eq : s.1.length = tree.nHeight target + 1
  ancestor : ∀ p, s.2 = some p → p ∈ tree.lineage target
  written : ∀ i, bound tree s.2 ≤ i → s.1[i]? = ((tree.path target).map some)[i]?
  kept : ∀ i < bound tree s.2, s.1[i]? = (resize (c.map some) (tree.nHeight target + 1))[i]?
  fresh : ∀ x ∈ tree.lineage target, bound tree s.2 ≤ tree.nHeight x → x ∉ c

/-- What the loop ends with: the path, and the last common block. -/
def Written (tree : BlockTree) (c : CChain) (target : Uint256)
    (r : ChainVector × Option Uint256) : Prop :=
  r.1 = (tree.path target).map some ∧
    ∀ x, x ∈ c ∧ x ∈ tree.lineage target ↔ ∃ p, r.2 = some p ∧ x ∈ tree.lineage p

theorem getElem?_path_map (h : a ∈ tree.lineage pindex) :
    ((tree.path pindex).map some)[tree.nHeight a]? = some (some a) := by
  have hget : (tree.path pindex)[tree.nHeight a]? = some a := Forest.getElem?_path.mpr ⟨h, rfl⟩
  rw [List.getElem?_map, hget, Option.map_some]

theorem Writing.start (tree : BlockTree) (c : CChain) (target : Uint256) :
    Writing tree c target (resize (c.map some) (tree.nHeight target + 1), some target) where
  length_eq := length_resize _ _
  ancestor p hp := by
    obtain rfl := Option.some.inj hp
    exact tree.forest.self_mem_lineage target
  written i hi := by
    have hlen : ((tree.path target).map some).length = tree.nHeight target + 1 := by
      rw [List.length_map]
      exact tree.forest.length_path target
    rw [List.getElem?_eq_none (hlen.trans_le hi)]
    exact List.getElem?_eq_none ((length_resize _ _).trans_le hi)
  kept i _ := rfl
  fresh x hx hle := by
    have hxle := Forest.height_le_of_mem hx
    exact absurd hxle (Nat.not_le.mpr hle)

section

variable {s : ChainVector × Option Uint256} {target p : Uint256}

theorem Writing.lookup (h : Writing tree c target s) (hs : s.2 = some p) :
    ∃ entry, s.1[tree.nHeight p]? = some entry := by
  have hle := Forest.height_le_of_mem (h.ancestor p hs)
  exact ⟨_, List.getElem?_eq_getElem (Nat.lt_succ_of_le hle |>.trans_eq h.length_eq.symm)⟩

/-- Where the vector already has the block, the old chain does. -/
theorem Writing.mem_iff (h : Writing tree c target s) (hc : tree.forest.Chain c)
    (hs : s.2 = some p) : s.1[tree.nHeight p]? = some (some p) ↔ p ∈ c := by
  have hle : tree.nHeight p < tree.nHeight target + 1 :=
    Nat.lt_succ_of_le (Forest.height_le_of_mem (h.ancestor p hs))
  have hbound : tree.nHeight p < bound tree s.2 := by
    rw [hs]
    exact Nat.lt_succ_self _
  rw [h.kept _ hbound]
  constructor
  · intro hget
    have hold := of_getElem?_resize hget
    rw [List.getElem?_map, Option.map_eq_some_iff] at hold
    obtain ⟨_, hget, heq⟩ := hold
    obtain rfl := Option.some.inj heq
    exact List.mem_of_getElem? hget
  · intro hmem
    apply getElem?_resize hle
    rw [List.getElem?_map, ← BlockTree.forest_height, hc.getElem?_iff.mpr ⟨hmem, rfl⟩]
    rfl

/-- A round writes one block. -/
theorem Writing.step (h : Writing tree c target s) (hs : s.2 = some p) (hp : p ∉ c) :
    Writing tree c target (s.1.set (tree.nHeight p) (some p), tree.pprev p) where
  length_eq := (List.length_set ..).trans h.length_eq
  ancestor q hq := Forest.mem_lineage_trans (Forest.parent_mem_lineage hq) (h.ancestor p hs)
  written i hi := by
    rw [bound_pprev] at hi
    rcases hi.eq_or_lt with rfl | hlt
    · have hle : tree.nHeight p ≤ tree.nHeight target :=
        Forest.height_le_of_mem (h.ancestor p hs)
      rw [List.getElem?_set_self (Nat.lt_succ_of_le hle |>.trans_eq h.length_eq.symm),
        getElem?_path_map (h.ancestor p hs)]
    · rw [List.getElem?_set_ne hlt.ne]
      apply h.written
      rw [hs]
      exact hlt
  kept i hi := by
    rw [bound_pprev] at hi
    rw [List.getElem?_set_ne hi.ne']
    apply h.kept
    rw [hs]
    exact hi.trans (Nat.lt_succ_self _)
  fresh x hx hle := by
    rw [bound_pprev] at hle
    rcases hle.eq_or_lt with heq | hlt
    · rwa [← Forest.eq_of_height_eq (h.ancestor p hs) hx heq]
    · apply h.fresh x hx
      rw [hs]
      exact hlt

/-- At the end of the path nothing is left of the old chain. -/
theorem Writing.finish_none (h : Writing tree c target s) (hs : s.2 = none) :
    Written tree c target s := by
  have hbound : bound tree s.2 = 0 := by rw [hs]; rfl
  refine ⟨List.ext_getElem? fun i ↦ h.written i (hbound.trans_le i.zero_le), fun x ↦ ?_⟩
  constructor
  · rintro ⟨hx, hanc⟩
    exact absurd hx (h.fresh x hanc (hbound.trans_le (Nat.zero_le _)))
  · rintro ⟨p, hp, -⟩
    rw [hs] at hp
    cases hp

/-- **The early stop.**  Below a block that is in its place the old chain is the path. -/
theorem Writing.finish_some (h : Writing tree c target s) (hc : tree.forest.Chain c)
    (hs : s.2 = some p) (hp : p ∈ c) : Written tree c target s := by
  have hanc := h.ancestor p hs
  have hpath (x : Uint256) (hx : x ∈ tree.lineage target) (hle : tree.nHeight x ≤ tree.nHeight p) :
      x ∈ c := hc.mem_of_lineage hp (Forest.mem_lineage_of_le hx hanc hle)
  refine ⟨List.ext_getElem? fun i ↦ ?_, fun x ↦ ?_⟩
  · rcases Nat.lt_or_ge i (tree.nHeight p + 1) with hlt | hge
    · have hi : i < tree.nHeight target + 1 :=
        hlt.trans_le (Nat.succ_le_succ (Forest.height_le_of_mem hanc))
      have hlen : i < (tree.path target).length := by
        rwa [BlockTree.path, Forest.length_path]
      have hget := List.getElem?_eq_getElem hlen
      obtain ⟨hx, hxi⟩ := Forest.getElem?_path.mp hget
      rw [h.kept i (by rw [hs]; exact hlt), List.getElem?_map, hget, Option.map_some]
      apply getElem?_resize hi
      rw [List.getElem?_map, hc.getElem?_iff.mpr ⟨hpath _ hx (hxi.trans_le ?_), hxi⟩]
      · rfl
      · exact Nat.le_of_lt_succ hlt
    · exact h.written i (by rw [hs]; exact hge)
  · constructor
    · rintro ⟨hx, hxt⟩
      refine ⟨p, hs, Forest.mem_lineage_of_le hxt hanc ?_⟩
      by_contra hlt
      exact h.fresh x hxt (by rw [hs]; exact Nat.lt_of_not_le hlt) hx
    · rintro ⟨q, hq, hx⟩
      obtain rfl := Option.some.inj (hs.symm.trans hq)
      exact ⟨hc.mem_of_lineage hp hx, Forest.mem_lineage_trans hx hanc⟩

end

/-- **`SetTip`.**  Over any chain it writes the path to the new tip, and it returns the last block
that the two have in common. -/
theorem setTip_eq (hc : tree.forest.Chain c) (pindex : Uint256) :
    ∃ r, setTip tree (c.map some) (some pindex) = some r ∧ Written tree c pindex r := by
  rw [setTip]
  refine Loop.run_spec (I := Writing tree c pindex) (m := fun s ↦ bound tree s.2) ?_
    (Writing.start tree c pindex) (Nat.lt_succ_self _)
  rintro s hs
  rw [setTipBody]
  cases hcur : s.2 with
  | none => exact Or.inl ⟨s, rfl, hs.finish_none hcur⟩
  | some p =>
      obtain ⟨entry, hentry⟩ := hs.lookup hcur
      have hmem := hs.mem_iff hc hcur
      rw [hentry, Option.some_inj] at hmem
      simp only [hentry, Option.bind_eq_bind, Option.bind_some]
      by_cases hp : p ∈ c
      · rw [if_pos (hmem.mpr hp)]
        exact Or.inl ⟨s, rfl, hs.finish_some hc hcur hp⟩
      · rw [if_neg (hmem.not.mpr hp)]
        refine Or.inr ⟨_, rfl, hs.step hcur hp, ?_⟩
        rw [bound_pprev]
        exact Nat.lt_succ_self _

/-! ## Runs -/

/-- The chain for a tip, which may be null. -/
def pathTo (tree : BlockTree) (tip : Option Uint256) : CChain := tip.elim [] tree.path

theorem chain_pathTo (tree : BlockTree) (tip : Option Uint256) :
    tree.forest.Chain (pathTo tree tip) := by
  cases tip with
  | none => exact Or.inl rfl
  | some pindex => exact tree.forest.chain_path pindex

/-- `SetTip` on the vector is `SetTip` on the chain; a null tip clears it. -/
theorem setTip_spec (hc : tree.forest.Chain c) (tip : Option Uint256) :
    ∃ fork, setTip tree (c.map some) tip = some ((CChain.setTip tree c tip).map some, fork) ∧
      CChain.setTip tree c tip = pathTo tree tip := by
  cases tip with
  | none => exact ⟨none, rfl, rfl⟩
  | some pindex =>
      obtain ⟨r, hr, hpath, -⟩ := setTip_eq hc pindex
      have hset : CChain.setTip tree c (some pindex) = tree.path pindex := CChain.setTip_some hc _
      refine ⟨r.2, ?_, hset⟩
      rw [hr, hset, ← hpath]

/-- The vector after some calls of `SetTip` on a new chain. -/
def runSetTip (tree : BlockTree) (tips : List (Option Uint256)) : Option ChainVector :=
  tips.foldlM (fun vChain tip ↦ (setTip tree vChain tip).map Prod.fst) []

/-- After any calls the vector is the path to the last tip. -/
theorem runSetTip_eq (tree : BlockTree) (tips : List (Option Uint256)) :
    runSetTip tree tips = some ((pathTo tree tips.getLast?.join).map some) := by
  induction tips using List.reverseRecOn with
  | nil => rfl
  | append_singleton tips tip ih =>
      obtain ⟨fork, hset, hpath⟩ := setTip_spec (chain_pathTo tree tips.getLast?.join) tip
      rw [hpath] at hset
      rw [runSetTip] at ih ⊢
      rw [List.foldlM_append, ih, List.getLast?_concat]
      simp only [Option.bind_eq_bind, Option.bind_some, List.foldlM_cons, hset, Option.map_some,
        List.foldlM_nil, Option.pure_def, Option.join_some]

/-- What a vector is for a tip: a branch of the tree. -/
structure Branch (tree : BlockTree) (vChain : ChainVector) (pindex : Uint256) : Prop where
  tip_eq : vChain.tip = some pindex
  height_eq : vChain.height = tree.nHeight pindex
  /-- Each position holds the ancestor at its height. -/
  ancestor : ∀ nHeight ≤ tree.nHeight pindex, ∃ a ∈ tree.lineage pindex,
    tree.nHeight a = nHeight ∧ vChain[nHeight]? = some (some a)
  subscript_iff : ∀ (nHeight : Int) (a : Uint256), vChain.subscript nHeight = some a ↔
    a ∈ tree.lineage pindex ∧ (tree.nHeight a : Int) = nHeight
  contains_iff : ∀ a, vChain.contains tree a = true ↔ a ∈ tree.lineage pindex
  next_iff : ∀ a b, vChain.next tree a = some b ↔
    b ∈ tree.lineage pindex ∧ tree.pprev b = some a

theorem subscript_path_iff (tree : BlockTree) (pindex : Uint256) (nHeight : Int) (a : Uint256) :
    subscript ((tree.path pindex).map some) nHeight = some a ↔
      a ∈ tree.lineage pindex ∧ (tree.nHeight a : Int) = nHeight := by
  rw [subscript_map]
  split
  case isTrue hneg => exact iff_of_false (by simp) fun h ↦ by omega
  case isFalse hneg =>
      have hget : (tree.path pindex)[nHeight.toNat]? = some a ↔
          a ∈ tree.lineage pindex ∧ tree.nHeight a = nHeight.toNat := Forest.getElem?_path
      rw [hget]
      exact and_congr_right fun _ ↦ by omega

theorem contains_path_iff (tree : BlockTree) (pindex a : Uint256) :
    contains tree ((tree.path pindex).map some) a = true ↔ a ∈ tree.lineage pindex := by
  have hchain : tree.forest.Chain (tree.path pindex) := tree.forest.chain_path pindex
  rw [contains_map, CChain.contains_iff hchain]
  exact Forest.mem_path

theorem branch_path (tree : BlockTree) (pindex : Uint256) :
    Branch tree ((tree.path pindex).map some) pindex where
  tip_eq := by rw [tip_map, CChain.tip_path]
  height_eq := by
    have hlen : (tree.path pindex).length = tree.nHeight pindex + 1 :=
      tree.forest.length_path pindex
    rw [height, List.length_map, hlen]
    omega
  ancestor nHeight hle := by
    have hlt : nHeight < (tree.path pindex).length := by
      rw [BlockTree.path, Forest.length_path]
      exact Nat.lt_succ_of_le hle
    have hget := List.getElem?_eq_getElem hlt
    obtain ⟨hanc, hheight⟩ := Forest.getElem?_path.mp hget
    exact ⟨_, hanc, hheight, by rw [List.getElem?_map, hget, Option.map_some]⟩
  subscript_iff := subscript_path_iff tree pindex
  contains_iff := contains_path_iff tree pindex
  next_iff a b := by
    rw [next]
    constructor
    · intro hnext
      split at hnext
      case isTrue ha =>
          obtain ⟨hb, hheight⟩ := (subscript_path_iff tree pindex _ _).mp hnext
          refine ⟨hb, ?_⟩
          cases hprev : tree.pprev b with
          | none =>
              have hroot : tree.nHeight b = 0 := tree.forest.height_root hprev
              omega
          | some hashPrev =>
              have hchild : tree.nHeight b = tree.nHeight hashPrev + 1 :=
                tree.forest.height_parent hprev
              have hanc := Forest.mem_lineage_trans (Forest.parent_mem_lineage hprev) hb
              have heq : tree.nHeight hashPrev = tree.nHeight a := by omega
              rw [Forest.eq_of_height_eq hanc ((contains_path_iff tree pindex a).mp ha) heq]
      case isFalse => cases hnext
    · rintro ⟨hb, hprev⟩
      have hchild : tree.nHeight b = tree.nHeight a + 1 := tree.forest.height_parent hprev
      have ha := Forest.mem_lineage_trans (Forest.parent_mem_lineage hprev) hb
      rw [if_pos ((contains_path_iff tree pindex a).mpr ha), subscript_path_iff]
      exact ⟨hb, by omega⟩

/-- **`CChain` holds one branch.**  After any calls of `SetTip`, to tips on any branches, the vector
is the branch to the last of them, or empty if that was null. -/
theorem runSetTip_branch (tree : BlockTree) (tips : List (Option Uint256)) :
    ∃ vChain, runSetTip tree tips = some vChain ∧
      match tips.getLast?.join with
      | some pindex => Branch tree vChain pindex
      | none => vChain = [] ∧ ∀ pindex, vChain.contains tree pindex = false ∧
          vChain.next tree pindex = none := by
  refine ⟨_, runSetTip_eq tree tips, ?_⟩
  cases tips.getLast?.join with
  | some pindex => exact branch_path tree pindex
  | none => exact ⟨rfl, fun pindex ↦ ⟨rfl, rfl⟩⟩

end ChainVector

end Fedoracoin
