import Fedoracoin.Block
import Fedoracoin.Lib.Forest
import Mathlib.Data.Prod.Lex

/-!
# The block index and the chains

`mapBlockIndex`, `CBlockIndexWorkComparator` and `CChain`.  A pointer to an index entry is
the hash of its block, and a null pointer is `none`.  The part of an entry that is fixed when
the entry is made is kept in `BlockTree`; `nStatus`, which changes afterwards, is kept apart
from it in the state of `Fedoracoin.Activate`.
-/

namespace Fedoracoin

/-! ## Status -/

def blockValidTree : Nat := 2
def blockValidTransactions : Nat := 3

namespace BlockStatus

/-- `nStatus & BLOCK_FAILED_MASK`. -/
def failed (nStatus : BlockStatus) : Bool := nStatus.failedValid || nStatus.failedChild

/-- `RaiseValidity`, and whether the validity was changed. -/
def raiseValidity (nStatus : BlockStatus) (nUpTo : Nat) : BlockStatus × Bool :=
  if nStatus.failed then (nStatus, false)
  else if nStatus.valid < nUpTo then ({ nStatus with valid := nUpTo }, true)
  else (nStatus, false)

end BlockStatus

/-! ## Entries -/

/-- What is fixed when an index entry is made. -/
structure CBlockIndex where
  pprev : Option Uint256 := none
  nHeight : Nat := 0
  nChainWork : Nat := 0
  nSequenceId : Nat := 0
deriving DecidableEq

/-- `mapBlockIndex`.  The predecessor of an entry is in the map, one below it. -/
structure BlockTree where
  entries : Finmap fun _ : Uint256 ↦ CBlockIndex
  height_root : ∀ {hash pindex}, entries.lookup hash = some pindex → pindex.pprev = none →
    pindex.nHeight = 0
  height_child : ∀ {hash pindex hashPrev}, entries.lookup hash = some pindex →
    pindex.pprev = some hashPrev →
    ∃ pindexPrev, entries.lookup hashPrev = some pindexPrev ∧
      pindex.nHeight = pindexPrev.nHeight + 1
deriving DecidableEq

namespace BlockTree

def empty : BlockTree where
  entries := ∅
  height_root h := by simp at h
  height_child h := by simp at h

/-- The entry of a block; pointers are only ever to blocks that have one. -/
def get (tree : BlockTree) (hash : Uint256) : CBlockIndex := (tree.entries.lookup hash).getD {}

def pprev (tree : BlockTree) (hash : Uint256) : Option Uint256 := (tree.get hash).pprev
def nHeight (tree : BlockTree) (hash : Uint256) : Nat := (tree.get hash).nHeight
def nChainWork (tree : BlockTree) (hash : Uint256) : Nat := (tree.get hash).nChainWork
def nSequenceId (tree : BlockTree) (hash : Uint256) : Nat := (tree.get hash).nSequenceId

variable {tree : BlockTree} {hash hashPrev : Uint256} {pindex : CBlockIndex}

theorem get_of_lookup (h : tree.entries.lookup hash = some pindex) : tree.get hash = pindex := by
  rw [get, h, Option.getD_some]

theorem exists_lookup_of_pprev (h : tree.pprev hash = some hashPrev) :
    ∃ pindex, tree.entries.lookup hash = some pindex ∧ pindex.pprev = some hashPrev := by
  rw [pprev, get] at h
  cases hl : tree.entries.lookup hash with
  | none => simp [hl] at h
  | some pindex => exact ⟨pindex, rfl, by simpa [hl] using h⟩

/-- The predecessor of a block is in the map. -/
theorem pprev_mem (h : tree.pprev hash = some hashPrev) : hashPrev ∈ tree.entries := by
  obtain ⟨pindex, hl, hp⟩ := exists_lookup_of_pprev h
  obtain ⟨pindexPrev, hl', _⟩ := tree.height_child hl hp
  exact Finmap.mem_iff.mpr ⟨pindexPrev, hl'⟩

/-- The tree that `pprev` spans. -/
def forest (tree : BlockTree) : Forest Uint256 where
  parent := tree.pprev
  height := tree.nHeight
  height_root := by
    intro hash h
    rw [nHeight, get]
    rw [pprev, get] at h
    cases hl : tree.entries.lookup hash with
    | none => rfl
    | some pindex => exact tree.height_root hl (by simpa [hl] using h)
  height_parent := by
    intro hash hashPrev h
    obtain ⟨pindex, hl, hp⟩ := exists_lookup_of_pprev h
    obtain ⟨pindexPrev, hl', hheight⟩ := tree.height_child hl hp
    rw [nHeight, nHeight, get_of_lookup hl, get_of_lookup hl', hheight]

@[simp] theorem forest_parent (tree : BlockTree) : tree.forest.parent = tree.pprev := rfl
@[simp] theorem forest_height (tree : BlockTree) : tree.forest.height = tree.nHeight := rfl

/-- The blocks that a loop `pindex = pindex->pprev` visits. -/
def lineage (tree : BlockTree) (hash : Uint256) : List Uint256 := tree.forest.lineage hash

/-- The blocks from the genesis block to the given one. -/
def path (tree : BlockTree) (hash : Uint256) : List Uint256 := tree.forest.path hash

theorem mem_of_lineage (h : hash ∈ tree.entries) :
    ∀ x ∈ tree.lineage hash, x ∈ tree.entries := by
  rw [lineage]
  induction hash using tree.forest.induct with
  | root a ha =>
      intro x hx
      rw [Forest.lineage_root ha, List.mem_singleton] at hx
      rwa [hx]
  | child a b ha ih =>
      intro x hx
      rw [Forest.lineage_parent ha, List.mem_cons] at hx
      rcases hx with rfl | hx
      · exact h
      · exact ih (pprev_mem ha) x hx

/-! ### Adding a block -/

/-- The entry that `AddToBlockIndex` makes; `nBlockWork` is `GetBlockWork`. -/
def newIndex (tree : BlockTree) (hashPrev : Uint256) (nBlockWork nSequenceId : Nat) :
    CBlockIndex :=
  match tree.entries.lookup hashPrev with
  | none => { nChainWork := nBlockWork % 2 ^ 256, nSequenceId := nSequenceId }
  | some pindexPrev =>
      { pprev := some hashPrev
        nHeight := pindexPrev.nHeight + 1
        nChainWork := (pindexPrev.nChainWork + nBlockWork) % 2 ^ 256
        nSequenceId := nSequenceId }

theorem newIndex_cases (tree : BlockTree) (hashPrev : Uint256) (nBlockWork nSequenceId : Nat) :
    ((tree.newIndex hashPrev nBlockWork nSequenceId).pprev = none ∧
        (tree.newIndex hashPrev nBlockWork nSequenceId).nHeight = 0) ∨
      ∃ pindexPrev, tree.entries.lookup hashPrev = some pindexPrev ∧
        (tree.newIndex hashPrev nBlockWork nSequenceId).pprev = some hashPrev ∧
        (tree.newIndex hashPrev nBlockWork nSequenceId).nHeight = pindexPrev.nHeight + 1 := by
  rw [newIndex]
  cases h : tree.entries.lookup hashPrev with
  | none => exact Or.inl ⟨rfl, rfl⟩
  | some pindexPrev => exact Or.inr ⟨pindexPrev, rfl, rfl, rfl⟩

/-- Inserts the entry of a new block. -/
def insert (tree : BlockTree) (hash hashPrev : Uint256) (nBlockWork nSequenceId : Nat)
    (hnew : hash ∉ tree.entries) : BlockTree where
  entries := tree.entries.insert hash (tree.newIndex hashPrev nBlockWork nSequenceId)
  height_root := by
    intro hash' pindex hl hp
    by_cases hhash : hash' = hash
    · subst hhash
      rw [Finmap.lookup_insert] at hl
      obtain rfl := Option.some.inj hl
      rcases tree.newIndex_cases hashPrev nBlockWork nSequenceId with ⟨_, h0⟩ | ⟨_, _, hp', _⟩
      · exact h0
      · rw [hp] at hp'
        cases hp'
    · rw [Finmap.lookup_insert_of_ne _ hhash] at hl
      exact tree.height_root hl hp
  height_child := by
    intro hash' pindex hashPrev' hl hp
    -- predecessors are old entries, so the new one does not shadow them
    have hold : ∀ {h' e}, tree.entries.lookup h' = some e → h' ≠ hash := by
      rintro h' e he rfl
      exact hnew (Finmap.mem_iff.mpr ⟨e, he⟩)
    by_cases hhash : hash' = hash
    · subst hhash
      rw [Finmap.lookup_insert] at hl
      obtain rfl := Option.some.inj hl
      rcases tree.newIndex_cases hashPrev nBlockWork nSequenceId with
        ⟨hp', _⟩ | ⟨pindexPrev, hlPrev, hp', hheight⟩
      · rw [hp] at hp'
        cases hp'
      · rw [hp] at hp'
        obtain rfl := Option.some.inj hp'
        exact ⟨pindexPrev, by rw [Finmap.lookup_insert_of_ne _ (hold hlPrev), hlPrev], hheight⟩
    · rw [Finmap.lookup_insert_of_ne _ hhash] at hl
      obtain ⟨pindexPrev, hlPrev, hheight⟩ := tree.height_child hl hp
      exact ⟨pindexPrev, by rw [Finmap.lookup_insert_of_ne _ (hold hlPrev), hlPrev], hheight⟩

variable {nBlockWork nSequenceId : Nat} (hnew : hash ∉ tree.entries)

theorem get_insert_of_ne {hash' : Uint256} (h : hash' ≠ hash) :
    (tree.insert hash hashPrev nBlockWork nSequenceId hnew).get hash' = tree.get hash' := by
  rw [get, get, insert, Finmap.lookup_insert_of_ne _ h]

theorem mem_insert {hash' : Uint256} :
    hash' ∈ (tree.insert hash hashPrev nBlockWork nSequenceId hnew).entries ↔
      hash' = hash ∨ hash' ∈ tree.entries := Finmap.mem_insert

/-- The predecessor of an inserted block is the one its header names, if that is known. -/
theorem pprev_insert {hashPrev' : Uint256}
    (h : (tree.insert hash hashPrev nBlockWork nSequenceId hnew).pprev hash = some hashPrev') :
    hashPrev' = hashPrev ∧ hashPrev ∈ tree.entries := by
  rw [pprev, get, insert, Finmap.lookup_insert, Option.getD_some] at h
  rcases tree.newIndex_cases hashPrev nBlockWork nSequenceId with ⟨hp, _⟩ | ⟨e, hl, hp, _⟩
  · rw [hp] at h
    cases h
  · rw [hp] at h
    exact ⟨(Option.some.inj h).symm, Finmap.mem_iff.mpr ⟨e, hl⟩⟩

theorem lineage_insert {hash' : Uint256} (h : hash' ∈ tree.entries) :
    (tree.insert hash hashPrev nBlockWork nSequenceId hnew).lineage hash' =
      tree.lineage hash' := by
  apply Forest.lineage_congr
  intro x hx
  have hne : x ≠ hash := by
    rintro rfl
    exact hnew (mem_of_lineage h _ hx)
  exact congrArg CBlockIndex.pprev (get_insert_of_ne hnew hne)

theorem chain_insert {c : List Uint256} (hc : tree.forest.Chain c)
    (hmem : ∀ x ∈ c, x ∈ tree.entries) :
    (tree.insert hash hashPrev nBlockWork nSequenceId hnew).forest.Chain c := by
  apply hc.congr
  intro x hx
  have hne : x ≠ hash := by
    rintro rfl
    exact hnew (hmem _ hx)
  exact congrArg CBlockIndex.pprev (get_insert_of_ne hnew hne)

/-! ### `CBlockIndexWorkComparator` -/

/-- `CBlockIndexWorkComparator`, with the addresses of the entries. -/
def workComparator (tree : BlockTree) (address : Uint256 ↪ Nat) (pa pb : Uint256) : Bool :=
  -- First sort by most total work, ...
  if tree.nChainWork pb < tree.nChainWork pa then false
  else if tree.nChainWork pa < tree.nChainWork pb then true
  -- ... then by earliest time received, ...
  else if tree.nSequenceId pa < tree.nSequenceId pb then false
  else if tree.nSequenceId pb < tree.nSequenceId pa then true
  -- Use pointer address as tie breaker
  else if address pa < address pb then false
  else if address pb < address pa then true
  else false

/-- What the comparator sorts by. -/
def workKey (tree : BlockTree) (address : Uint256 ↪ Nat) (pindex : Uint256) :
    Nat ×ₗ Natᵒᵈ ×ₗ Natᵒᵈ :=
  toLex (tree.nChainWork pindex,
    toLex (.toDual (tree.nSequenceId pindex), .toDual (address pindex)))

variable {address : Uint256 ↪ Nat} {pa pb : Uint256}

theorem workComparator_iff :
    tree.workComparator address pa pb = true ↔
      tree.workKey address pa < tree.workKey address pb := by
  rw [workComparator, workKey, workKey, Prod.Lex.toLex_lt_toLex, Prod.Lex.toLex_lt_toLex,
    OrderDual.toDual_lt_toDual, OrderDual.toDual_lt_toDual, OrderDual.toDual_inj]
  split_ifs <;> simp <;> omega

theorem workComparator_eq_false_iff :
    tree.workComparator address pa pb = false ↔
      tree.workKey address pb ≤ tree.workKey address pa := by
  rw [← not_lt, ← workComparator_iff, Bool.not_eq_true]

theorem workKey_injective (tree : BlockTree) (address : Uint256 ↪ Nat) :
    Function.Injective (tree.workKey address) := by
  intro pa pb h
  apply address.injective
  have h₂ := congrArg (fun k ↦ (ofLex (ofLex k).2).2) h
  exact OrderDual.toDual_inj.mp h₂

end BlockTree

/-- An allocation of the entries in the order of their hashes. -/
def addressOfHash : Uint256 ↪ Nat where
  toFun := BitVec.toNat
  inj' _ _ h := BitVec.eq_of_toNat_eq h

theorem one_ne_zero_hash : (1 : Uint256) ≠ 0 := by decide

/-! ## `CChain` -/

/-- `vChain`. -/
abbrev CChain := List Uint256

namespace CChain

def tip (vChain : CChain) : Option Uint256 := vChain.getLast?

def contains (tree : BlockTree) (vChain : CChain) (pindex : Uint256) : Bool :=
  vChain[tree.nHeight pindex]? == some pindex

/-- `SetTip`.  The loop writes from the tip down, as far as the first block that is already
in its place; `vChain` keeps what is below. -/
def setTip (tree : BlockTree) (vChain : CChain) : Option Uint256 → CChain
  | none => []
  | some pindex =>
      let written := (tree.lineage pindex).takeWhile fun p ↦ !contains tree vChain p
      vChain.take (tree.nHeight pindex + 1 - written.length) ++ written.reverse

variable {tree : BlockTree} {vChain : CChain} {pindex : Uint256}

theorem contains_iff (h : tree.forest.Chain vChain) :
    contains tree vChain pindex = true ↔ pindex ∈ vChain := by
  rw [contains, beq_iff_eq, ← BlockTree.forest_height, h.getElem?_iff, and_iff_left rfl]

theorem contains_eq_false_iff (h : tree.forest.Chain vChain) :
    contains tree vChain pindex = false ↔ pindex ∉ vChain := by
  rw [← contains_iff h, Bool.not_eq_true]

theorem setTip_some (h : tree.forest.Chain vChain) (pindex : Uint256) :
    setTip tree vChain (some pindex) = tree.path pindex := by
  have hsplit := List.takeWhile_append_dropWhile (p := fun p ↦ !contains tree vChain p)
    (l := tree.lineage pindex)
  have hlen := tree.forest.length_path pindex
  rw [Forest.path, List.length_reverse, BlockTree.forest_height] at hlen
  change (tree.lineage pindex).length = _ at hlen
  rw [setTip, BlockTree.path, Forest.path]
  change _ = (tree.lineage pindex).reverse
  generalize hw : (tree.lineage pindex).takeWhile (fun p ↦ !contains tree vChain p) = written
    at hsplit ⊢
  cases hrest : (tree.lineage pindex).dropWhile (fun p ↦ !contains tree vChain p) with
  | nil =>
      rw [hrest, List.append_nil] at hsplit
      rw [hsplit, hlen, Nat.sub_self, List.take_zero, List.nil_append]
  | cons y rest =>
      -- the loop stops at `y`, and the rest of the lineage is that of `y`
      rw [hrest] at hsplit
      have hy : y :: rest = tree.lineage y := Forest.lineage_of_append hsplit.symm
      have hmem : y ∈ vChain := by
        have hstop := List.head?_dropWhile_not (fun p ↦ !contains tree vChain p)
          (tree.lineage pindex)
        rw [hrest, List.head?_cons] at hstop
        exact (contains_iff h).mp (by simpa using hstop)
      have hleny := tree.forest.length_path y
      rw [Forest.path, List.length_reverse, BlockTree.forest_height] at hleny
      change (tree.lineage y).length = _ at hleny
      have hkept : tree.nHeight pindex + 1 - written.length = tree.nHeight y + 1 := by
        rw [← hlen, ← hsplit, hy, List.length_append, hleny, Nat.add_sub_cancel_left]
      rw [hkept, ← BlockTree.forest_height, h.take_eq hmem, Forest.path, ← hsplit, hy,
        List.reverse_append]
      rfl

/-- Moving the tip to its predecessor makes a chain shorter. -/
theorem length_setTip_pprev {tip : Uint256} (h : tree.forest.Chain vChain)
    (htip : vChain.getLast? = some tip) :
    (setTip tree vChain (tree.pprev tip)).length < vChain.length := by
  rw [h.eq_path htip, Forest.length_path, Nat.lt_succ_iff]
  cases hprev : tree.pprev tip with
  | none => exact Nat.zero_le _
  | some hashPrev =>
      rw [setTip_some (Forest.chain_path _ tip), BlockTree.path, Forest.length_path,
        tree.forest.height_parent hprev]

@[simp] theorem tip_path (tree : BlockTree) (pindex : Uint256) :
    tip (tree.path pindex) = some pindex := tree.forest.getLast?_path pindex

theorem eq_path (h : tree.forest.Chain vChain) (htip : tip vChain = some pindex) :
    vChain = tree.path pindex := h.eq_path htip

theorem tip_setTip (h : tree.forest.Chain vChain) (pindex : Option Uint256) :
    tip (setTip tree vChain pindex) = pindex := by
  cases pindex with
  | none => rfl
  | some pindex => rw [setTip_some h, tip_path]

end CChain

end Fedoracoin
