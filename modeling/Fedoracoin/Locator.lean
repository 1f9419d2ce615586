import Fedoracoin.ChainVector

/-!
# Block locators

`GetLocator` lists the ancestors of a block, first one by one and then with steps that double.  It
follows `pprev` while it is off the chain, and takes blocks from the vector by their height from
there on; either way the next block is the ancestor at the height that it asks for
(`nextBlock_eq`).  `FindFork` takes the first of the hashes that its own chain contains.  The last
is that of the genesis block, which all chains contain.
-/

namespace Fedoracoin

namespace ChainVector

variable (tree : BlockTree) (vChain : ChainVector)

/-! ## `GetLocator` -/

/-- In case `pindex` is not in this chain, iterate `pprev` to find blocks.  There is no value if
that is null; `n` bounds the iterations. -/
def leaveFork (nHeight : Nat) : (n : Nat) → (pindex : Uint256) → Option Uint256
  | 0, _ => none
  | n + 1, pindex =>
      if nHeight < tree.nHeight pindex ∧ vChain.contains tree pindex = false then do
        let hashPrev ← tree.pprev pindex
        leaveFork nHeight n hashPrev
      else some pindex

/-- The pointer for the next iteration, which may be null. -/
def nextBlock (nHeight : Nat) (pindex : Uint256) : Option (Option Uint256) := do
  let pindex ← leaveFork tree vChain nHeight (tree.nHeight pindex + 1) pindex
  -- If pindex is in this chain, use direct height-based access.
  if nHeight < tree.nHeight pindex then return vChain.subscript nHeight
  else return some pindex

/-- The variables of the loop.  `nStep` would leave the range of an `int` only after a step back by
`2 ^ 30`, to the genesis block, where it is not used any more. -/
structure LocatorState where
  pindex : Option Uint256
  nStep : Nat := 1
  vHave : List Uint256 := []

def locatorBody (s : LocatorState) : Option (List Uint256 ⊕ LocatorState) :=
  match s.pindex with
  | none => some (.inl s.vHave)
  | some pindex =>
      let vHave := s.vHave ++ [pindex]
      -- Stop when we have added the genesis block.
      if tree.nHeight pindex = 0 then some (.inl vHave)
      else do
        -- Exponentially larger steps back, plus the genesis block.
        let nHeight := tree.nHeight pindex - s.nStep
        let pindex ← nextBlock tree vChain nHeight pindex
        return .inr
          { pindex := pindex
            nStep := if 10 < vHave.length then s.nStep * 2 else s.nStep
            vHave := vHave }

/-- `GetLocator`, of at most `n` iterations; it starts at the tip for a null pointer. -/
def getLocator (n : Nat) (pindex : Option Uint256) : Option (List Uint256) :=
  Loop.run (locatorBody tree vChain) n { pindex := pindex.or vChain.tip }

/-! ## `FindFork` -/

/-- `FindFork`, with `tree` for `mapBlockIndex`. -/
def findFork : (vHave : List Uint256) → Option Uint256
  | [] => vChain.genesis
  | hash :: vHave =>
      if hash ∈ tree.entries ∧ vChain.contains tree hash = true then some hash
      else findFork vHave

variable {tree vChain} {c : CChain} {pindex start a : Uint256} {n nHeight : Nat}

/-! ## One step back -/

theorem exists_pprev (h : 0 < tree.nHeight pindex) : ∃ hashPrev, tree.pprev pindex = some hashPrev ∧
    tree.nHeight pindex = tree.nHeight hashPrev + 1 := by
  cases hprev : tree.pprev pindex with
  | none =>
      have hroot : tree.nHeight pindex = 0 := tree.forest.height_root hprev
      exact absurd h (by omega)
  | some hashPrev => exact ⟨hashPrev, rfl, tree.forest.height_parent hprev⟩

/-- The walk ends at the ancestor that is asked for, or above it on the chain. -/
theorem leaveFork_spec (vChain : ChainVector) (hn : tree.nHeight pindex < n)
    (hle : nHeight ≤ tree.nHeight pindex) :
    ∃ a ∈ tree.lineage pindex, leaveFork tree vChain nHeight n pindex = some a ∧
      nHeight ≤ tree.nHeight a ∧
      (tree.nHeight a = nHeight ∨ vChain.contains tree a = true) := by
  induction n generalizing pindex with
  | zero => exact absurd hn (Nat.not_lt_zero _)
  | succ n ih =>
      rw [leaveFork]
      split
      case isTrue h =>
          obtain ⟨hashPrev, hprev, hheight⟩ := exists_pprev (nHeight.zero_le.trans_lt h.1)
          obtain ⟨a, ha, hrun, hle', hstop⟩ := @ih hashPrev (by omega) (by omega)
          refine ⟨a, Forest.mem_lineage_trans ha (Forest.parent_mem_lineage hprev), ?_, hle', hstop⟩
          rw [hprev]
          exact hrun
      case isFalse h =>
          refine ⟨pindex, tree.forest.self_mem_lineage pindex, rfl, hle, ?_⟩
          rw [not_and_or, Bool.not_eq_false, Nat.not_lt] at h
          exact h.imp_left fun h ↦ le_antisymm h hle

/-- **One step back.**  Whether a block is on the chain or not, the next one is its ancestor at the
height that is asked for. -/
theorem nextBlock_eq (hc : tree.forest.Chain c) (hle : nHeight ≤ tree.nHeight pindex) :
    ∃ a ∈ tree.lineage pindex, tree.nHeight a = nHeight ∧
      nextBlock tree (c.map some) nHeight pindex = some (some a) := by
  obtain ⟨b, hb, hrun, hle', hstop⟩ := leaveFork_spec (c.map some) (Nat.lt_succ_self _) hle
  rw [nextBlock, hrun]
  simp only [Option.bind_eq_bind, Option.bind_some, Option.pure_def]
  split
  case isTrue hlt =>
      have hcontains := hstop.resolve_left hlt.ne'
      rw [contains_map, CChain.contains_iff hc] at hcontains
      -- on the chain, all ancestors are at their heights
      have hlen : nHeight < (tree.path b).length := by
        rw [BlockTree.path, Forest.length_path]
        exact hlt.trans (Nat.lt_succ_self _)
      have hget := List.getElem?_eq_getElem hlen
      obtain ⟨ha, hheight⟩ := Forest.getElem?_path.mp hget
      refine ⟨_, Forest.mem_lineage_trans ha hb, hheight, ?_⟩
      rw [subscript_map, if_neg (Int.not_lt.mpr (Int.natCast_nonneg _)), Int.toNat_natCast]
      exact congrArg some (hc.getElem?_iff.mpr ⟨hc.mem_of_lineage hcontains ha, hheight⟩)
  case isFalse hge => exact ⟨b, hb, le_antisymm (Nat.not_lt.mp hge) hle', rfl⟩

/-! ## The loop -/

/-- A locator of a block: hashes of its ancestors with strictly decreasing heights, from the block
itself to the genesis block. -/
structure IsLocator (tree : BlockTree) (start : Uint256) (vHave : List Uint256) : Prop where
  head : vHave.head? = some start
  ancestor : ∀ a ∈ vHave, a ∈ tree.lineage start
  descending : vHave.Pairwise fun a b ↦ tree.nHeight b < tree.nHeight a
  genesis : ∃ g, vHave.getLast? = some g ∧ tree.pprev g = none ∧ tree.nHeight g = 0

/-- What the loop keeps: with the block that it is at, it has a locator but for the end. -/
structure Locating (tree : BlockTree) (start : Uint256) (s : LocatorState) (p : Uint256) :
    Prop where
  pindex_eq : s.pindex = some p
  nStep_pos : 0 < s.nStep
  head : (s.vHave ++ [p]).head? = some start
  ancestor : ∀ a ∈ s.vHave ++ [p], a ∈ tree.lineage start
  descending : (s.vHave ++ [p]).Pairwise fun a b ↦ tree.nHeight b < tree.nHeight a

section

variable {s : LocatorState} {p : Uint256}

theorem Locating.first (tree : BlockTree) (start : Uint256) :
    Locating tree start { pindex := some start } start where
  pindex_eq := rfl
  nStep_pos := Nat.one_pos
  head := rfl
  ancestor a ha := by
    rw [List.nil_append, List.mem_singleton] at ha
    rw [ha]
    exact tree.forest.self_mem_lineage start
  descending := List.pairwise_singleton _ _

theorem Locating.finish (h : Locating tree start s p) (hp : tree.nHeight p = 0) :
    IsLocator tree start (s.vHave ++ [p]) where
  __ := h
  genesis := by
    refine ⟨p, List.getLast?_concat, ?_, hp⟩
    cases hprev : tree.pprev p with
    | none => rfl
    | some hashPrev =>
        have hchild : tree.nHeight p = tree.nHeight hashPrev + 1 := tree.forest.height_parent hprev
        omega

theorem Locating.step {nStep : Nat} (h : Locating tree start s p) (ha : a ∈ tree.lineage p)
    (hlt : tree.nHeight a < tree.nHeight p) (hStep : 0 < nStep) :
    Locating tree start { pindex := some a, nStep := nStep, vHave := s.vHave ++ [p] } a where
  pindex_eq := rfl
  nStep_pos := hStep
  head := by
    rw [List.head?_append, h.head]
    rfl
  ancestor x hx := by
    rcases List.mem_append.mp hx with hx | hx
    · exact h.ancestor x hx
    · rw [List.mem_singleton.mp hx]
      exact Forest.mem_lineage_trans ha (h.ancestor p (by simp))
  descending := by
    rw [List.pairwise_append]
    refine ⟨h.descending, List.pairwise_singleton _ _, fun x hx y hy ↦ ?_⟩
    rw [List.mem_singleton.mp hy]
    rcases List.mem_append.mp hx with hx | hx
    · exact hlt.trans ((List.pairwise_append.mp h.descending).2.2 x hx p (by simp))
    · rwa [List.mem_singleton.mp hx]

end

/-- **`GetLocator`** ends, with a locator of the block that it starts from. -/
theorem getLocator_spec (hc : tree.forest.Chain c) (start : Uint256)
    (hn : tree.nHeight start < n) :
    ∃ vHave, getLocator tree (c.map some) n (some start) = some vHave ∧
      IsLocator tree start vHave := by
  have hbody : ∀ s, (∃ p, Locating tree start s p) →
      (∃ r, locatorBody tree (c.map some) s = some (.inl r) ∧ IsLocator tree start r) ∨
      ∃ s', locatorBody tree (c.map some) s = some (.inr s') ∧ (∃ p, Locating tree start s' p) ∧
        s'.pindex.elim 0 tree.nHeight < s.pindex.elim 0 tree.nHeight := by
    rintro s ⟨p, h⟩
    rw [locatorBody]
    simp only [h.pindex_eq]
    by_cases hp : tree.nHeight p = 0
    · rw [if_pos hp]
      exact Or.inl ⟨_, rfl, h.finish hp⟩
    · have hpos := h.nStep_pos
      have hlt : tree.nHeight p - s.nStep < tree.nHeight p := by omega
      obtain ⟨a, ha, hheight, hnext⟩ := nextBlock_eq hc hlt.le
      rw [if_neg hp, hnext]
      rw [← hheight] at hlt
      refine Or.inr ⟨_, rfl, ⟨a, h.step ha hlt ?_⟩, hlt⟩
      split
      case isTrue => omega
      case isFalse => exact hpos
  exact Loop.run_spec (m := fun s ↦ s.pindex.elim 0 tree.nHeight) hbody
    ⟨start, Locating.first tree start⟩ hn

/-! ## `FindFork` -/

theorem findFork_cons (ha : a ∈ tree.entries) (hcontains : vChain.contains tree a = true)
    (vHave : List Uint256) : findFork tree vChain (a :: vHave) = some a := by
  rw [findFork, if_pos ⟨ha, hcontains⟩]

/-- A fork that is found is a hash of the locator that the chain contains. -/
theorem findFork_cases (tree : BlockTree) (vChain : ChainVector) (vHave : List Uint256) :
    (∃ a ∈ vHave, findFork tree vChain vHave = some a ∧ vChain.contains tree a = true) ∨
      findFork tree vChain vHave = vChain.genesis ∧
        ∀ a ∈ vHave, a ∈ tree.entries → vChain.contains tree a = false := by
  induction vHave with
  | nil => exact Or.inr ⟨rfl, nofun⟩
  | cons hash vHave ih =>
      by_cases h : hash ∈ tree.entries ∧ vChain.contains tree hash = true
      · exact Or.inl ⟨hash, List.mem_cons_self, findFork_cons h.1 h.2 vHave, h.2⟩
      · rw [findFork, if_neg h]
        rcases ih with ⟨a, ha, hfind, hcontains⟩ | ⟨hgenesis, hnone⟩
        · exact Or.inl ⟨a, List.mem_cons_of_mem _ ha, hfind, hcontains⟩
        · refine Or.inr ⟨hgenesis, fun a ha hmem ↦ ?_⟩
          rcases List.mem_cons.mp ha with rfl | ha
          · exact Bool.eq_false_iff.mpr fun hcontains ↦ h ⟨hmem, hcontains⟩
          · exact hnone a ha hmem

/-! ## Two nodes -/

/-- The whole block tree, of which every node knows a part: it has one root. -/
structure RootedTree extends BlockTree where
  hashGenesisBlock : Uint256
  root_eq : ∀ hash ∈ entries, toBlockTree.pprev hash = none → hash = hashGenesisBlock

/-- A node: what it knows of the block tree, with the ancestors of each block, and the tip of its
active chain, if it has one. -/
structure Node (whole : RootedTree) where
  mapBlockIndex : BlockTree
  known : ∀ hash ∈ mapBlockIndex.entries, hash ∈ whole.entries ∧
    whole.pprev hash = mapBlockIndex.pprev hash
  tip : Option Uint256
  tip_mem : ∀ pindex, tip = some pindex → pindex ∈ mapBlockIndex.entries

namespace Node

variable {whole : RootedTree} (node : Node whole)

/-- `chainActive`. -/
def chainActive : ChainVector := (pathTo node.mapBlockIndex node.tip).map some

variable {node} {tip : Uint256}

/-- It is what the calls of `SetTip` have left. -/
theorem runSetTip_eq_chainActive {tips : List (Option Uint256)}
    (htip : tips.getLast?.join = node.tip) :
    runSetTip node.mapBlockIndex tips = some node.chainActive := by
  rw [runSetTip_eq, htip, chainActive]

/-- A node has the ancestors of a block as they are in the whole tree. -/
theorem lineage_eq (h : a ∈ node.mapBlockIndex.entries) :
    node.mapBlockIndex.lineage a = whole.lineage a :=
  (Forest.lineage_congr fun x hx ↦
    (node.known x (BlockTree.mem_of_lineage h x hx)).2).symm

theorem contains_iff (htip : node.tip = some tip) :
    node.chainActive.contains node.mapBlockIndex a = true ↔ a ∈ whole.lineage tip := by
  rw [← lineage_eq (node.tip_mem tip htip), chainActive, htip]
  exact contains_path_iff node.mapBlockIndex tip a

/-- The genesis block is on every chain. -/
theorem genesis_eq (htip : node.tip = some tip) :
    node.chainActive.genesis = some whole.hashGenesisBlock ∧
      whole.hashGenesisBlock ∈ whole.lineage tip := by
  have hmem := node.tip_mem tip htip
  have hlen : 0 < (node.mapBlockIndex.path tip).length := by
    rw [BlockTree.path, Forest.length_path]
    exact Nat.succ_pos _
  have hget := List.getElem?_eq_getElem hlen
  obtain ⟨hanc, hheight⟩ := Forest.getElem?_path.mp hget
  generalize (node.mapBlockIndex.path tip)[0] = g at hget hanc hheight
  have hknown := node.known g (BlockTree.mem_of_lineage hmem g hanc)
  have hroot : whole.pprev g = none := by
    rw [hknown.2]
    cases hprev : node.mapBlockIndex.pprev g with
    | none => rfl
    | some hashPrev =>
        have hchild := node.mapBlockIndex.forest.height_parent hprev
        omega
  obtain rfl := whole.root_eq g hknown.1 hroot
  have hlineage : whole.hashGenesisBlock ∈ node.mapBlockIndex.lineage tip := hanc
  rw [lineage_eq hmem] at hlineage
  refine ⟨?_, hlineage⟩
  rw [chainActive, htip, genesis, List.getElem?_map]
  exact congrArg (fun o ↦ (o.map some).join) hget

/-- **`FindFork`.**  For the locator of a block of another node it returns an ancestor of that block
on its own chain, and the block itself if that is there. -/
theorem findFork_spec {finder : Node whole} {vHave : List Uint256}
    (htip : finder.tip = some tip) (hstart : start ∈ node.mapBlockIndex.entries)
    (hloc : IsLocator node.mapBlockIndex start vHave) :
    ∃ a, findFork finder.mapBlockIndex finder.chainActive vHave = some a ∧
      a ∈ whole.lineage tip ∧ a ∈ whole.lineage start ∧
      (start ∈ whole.lineage tip → a = start) := by
  have hlineage (x : Uint256) (hx : x ∈ vHave) : x ∈ whole.lineage start := by
    rw [← lineage_eq hstart]
    exact hloc.ancestor x hx
  have hfinder (x : Uint256) (hx : x ∈ whole.lineage tip) : x ∈ finder.mapBlockIndex.entries := by
    rw [← lineage_eq (finder.tip_mem tip htip)] at hx
    exact BlockTree.mem_of_lineage (finder.tip_mem tip htip) x hx
  by_cases hon : start ∈ whole.lineage tip
  · obtain ⟨rest, rfl⟩ := List.head?_eq_some_iff.mp hloc.head
    exact ⟨start, findFork_cons (hfinder start hon) ((contains_iff htip).mpr hon) rest, hon,
      whole.forest.self_mem_lineage start, fun _ ↦ rfl⟩
  · rcases findFork_cases finder.mapBlockIndex finder.chainActive vHave with
      ⟨a, ha, hfind, hcontains⟩ | ⟨hgenesis, -⟩
    · exact ⟨a, hfind, (contains_iff htip).mp hcontains, hlineage a ha, fun h ↦ absurd h hon⟩
    · obtain ⟨g, hlast, hroot, -⟩ := hloc.genesis
      have hg := List.mem_of_getLast? hlast
      have hmem := BlockTree.mem_of_lineage hstart g (hloc.ancestor g hg)
      have hknown := node.known g hmem
      obtain rfl := whole.root_eq g hknown.1 (hknown.2.trans hroot)
      obtain ⟨hfirst, hon'⟩ := genesis_eq htip
      exact ⟨_, hgenesis.trans hfirst, hon', hlineage _ hg, fun h ↦ absurd h hon⟩

end Node

/-- **Block locators.**  On any active chain `GetLocator` ends for every block, and returns the
hashes of ancestors with strictly decreasing heights, from the block to the genesis block.
`FindFork` of any node with a chain in the same block tree returns a block of its active chain that
is an ancestor of the block, so on the other active chain if that is; and the block itself if its
active chain contains it. -/
theorem locator_spec (whole : RootedTree) (node : Node whole) (start : Uint256) (n : Nat)
    (hstart : start ∈ node.mapBlockIndex.entries) (hn : node.mapBlockIndex.nHeight start < n) :
    ∃ vHave, getLocator node.mapBlockIndex node.chainActive n (some start) = some vHave ∧
      IsLocator node.mapBlockIndex start vHave ∧
      ∀ (finder : Node whole) (tip : Uint256), finder.tip = some tip →
        ∃ a, findFork finder.mapBlockIndex finder.chainActive vHave = some a ∧
          finder.chainActive.contains finder.mapBlockIndex a = true ∧
          a ∈ node.mapBlockIndex.lineage start ∧
          (node.chainActive.contains node.mapBlockIndex start = true →
            node.chainActive.contains node.mapBlockIndex a = true) ∧
          (finder.chainActive.contains finder.mapBlockIndex start = true → a = start) := by
  have hchain := chain_pathTo node.mapBlockIndex node.tip
  obtain ⟨vHave, hrun, hloc⟩ := getLocator_spec hchain start hn
  refine ⟨vHave, hrun, hloc, fun finder tip htip ↦ ?_⟩
  obtain ⟨a, hfind, hon, hanc, heq⟩ := Node.findFork_spec htip hstart hloc
  rw [← Node.lineage_eq hstart] at hanc
  refine ⟨a, hfind, (Node.contains_iff htip).mpr hon, hanc, fun hcontains ↦ ?_,
    fun hcontains ↦ heq ((Node.contains_iff htip).mp hcontains)⟩
  rw [Node.chainActive, contains_map, CChain.contains_iff hchain] at hcontains ⊢
  exact hchain.mem_of_lineage hcontains hanc

/-- Two blocks, 3 and 4, on the second block of a tree. -/
def forkTree : BlockTree :=
  (((BlockTree.empty.insert 1 0 1 0 (by decide)).insert 2 1 1 1 (by decide)).insert 3 2 1 2
    (by decide)).insert 4 2 1 3 (by decide)

def forkRooted : RootedTree where
  toBlockTree := forkTree
  hashGenesisBlock := 1
  root_eq hash hmem hroot := by
    rw [forkTree, BlockTree.mem_insert, BlockTree.mem_insert, BlockTree.mem_insert,
      BlockTree.mem_insert] at hmem
    obtain rfl | rfl | rfl | rfl | hempty := hmem
    · cases hroot
    · cases hroot
    · cases hroot
    · rfl
    · exact absurd hempty Finmap.notMem_empty

def forkNode (tip : Uint256) (htip : tip ∈ forkTree.entries) : Node forkRooted where
  mapBlockIndex := forkTree
  known _ hmem := ⟨hmem, rfl⟩
  tip := some tip
  tip_mem _ h := Option.some.inj h ▸ htip

/-- The locator of block 4, from the node whose tip is 3, for that node itself. -/
theorem locator_spec_sample :
    ∃ vHave a, getLocator forkTree (forkNode 3 (by decide)).chainActive 3 (some 4) = some vHave ∧
      findFork forkTree (forkNode 3 (by decide)).chainActive vHave = some a ∧
      (forkNode 3 (by decide)).chainActive.contains forkTree a = true ∧
      a ∈ forkTree.lineage 4 := by
  obtain ⟨vHave, hrun, -, hfork⟩ :=
    locator_spec forkRooted (forkNode 3 (by decide)) 4 3 (by decide) (by decide)
  obtain ⟨a, hfind, hon, hanc, -⟩ := hfork (forkNode 3 (by decide)) 3 rfl
  exact ⟨vHave, a, hrun, hfind, hon, hanc⟩

end ChainVector

end Fedoracoin
