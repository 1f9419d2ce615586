import Fedoracoin.BlockTotals

/-!
# What holds of the totals

Each block is summed up from its parent: the work when its header comes in, the transactions when
its data comes in.  No block is in the tree before its parent has its data, so what was summed up
once stays right (`Totals`).
-/

namespace Fedoracoin

variable {Block View World : Type}

/-! ## The work in the tree -/

/-- The work of a chain is that of the chain of the parent and that of the block. -/
def BlockTree.SumsWork (tree : BlockTree) (work : Uint256 → Nat) : Prop :=
  ∀ hash ∈ tree.entries, tree.nChainWork hash =
    ((tree.pprev hash).elim 0 tree.nChainWork + work hash) % 2 ^ 256

namespace BlockTree

variable {tree : BlockTree} {work : Uint256 → Nat} {hash : Uint256}

theorem sumsWork_empty (work : Uint256 → Nat) : BlockTree.empty.SumsWork work :=
  fun _ h ↦ absurd h Finmap.notMem_empty

theorem SumsWork.insert {hashPrev : Uint256} {nSequenceId : Nat} (h : tree.SumsWork work)
    (hnew : hash ∉ tree.entries) :
    (tree.insert hash hashPrev (work hash) nSequenceId hnew).SumsWork work := by
  have hget : ∀ x ∈ tree.entries,
      (tree.insert hash hashPrev (work hash) nSequenceId hnew).get x = tree.get x := by
    intro x hx
    apply get_insert_of_ne hnew
    rintro rfl
    exact hnew hx
  intro x hx
  rcases (mem_insert hnew).mp hx with rfl | hx
  · have hself : (tree.insert x hashPrev (work x) nSequenceId hnew).get x =
        tree.newIndex hashPrev (work x) nSequenceId := by
      rw [get, BlockTree.insert, Finmap.lookup_insert, Option.getD_some]
    rw [nChainWork, pprev, hself, newIndex]
    cases hl : tree.entries.lookup hashPrev with
    | none => exact congrArg (· % 2 ^ 256) (Nat.zero_add _).symm
    | some pindexPrev =>
        rw [Option.elim_some, nChainWork, hget _ (Finmap.mem_iff.mpr ⟨pindexPrev, hl⟩),
          get_of_lookup hl]
  · rw [nChainWork, pprev, hget x hx]
    change tree.nChainWork x = _
    rw [h x hx, pprev]
    cases hp : (tree.get x).pprev with
    | none => rfl
    | some p =>
        rw [Option.elim_some, Option.elim_some, nChainWork, nChainWork, hget p (pprev_mem hp)]

/-- The work of a chain is the sum over its blocks, as far as 256 bits go. -/
theorem SumsWork.eq_pathSum (h : tree.SumsWork work) (hmem : hash ∈ tree.entries) :
    tree.nChainWork hash = tree.forest.pathSum work hash % 2 ^ 256 := by
  induction hash using tree.forest.induct with
  | root a ha =>
      rw [h a hmem, Forest.pathSum_root work ha, show tree.pprev a = none from ha, Option.elim_none,
        Nat.zero_add]
  | child a b ha ih =>
      rw [h a hmem, Forest.pathSum_parent work ha, show tree.pprev a = some b from ha,
        Option.elim_some, ih (pprev_mem ha), Nat.mod_add_mod]

/-- The sum up to a new block. -/
theorem pathSum_insert {hashPrev : Uint256} {nBlockWork nSequenceId : Nat} {w w' : Uint256 → Nat}
    (hnew : hash ∉ tree.entries) (hprev : hashPrev ∈ tree.entries)
    (hw : ∀ x ∈ tree.entries, w' x = w x) :
    (tree.insert hash hashPrev nBlockWork nSequenceId hnew).forest.pathSum w' hash =
      tree.forest.pathSum w hashPrev + w' hash := by
  obtain ⟨pindexPrev, hl⟩ := Finmap.mem_iff.mp hprev
  have hpprev : (tree.insert hash hashPrev nBlockWork nSequenceId hnew).forest.parent hash =
      some hashPrev := by
    rw [forest_parent, pprev, get, insert, Finmap.lookup_insert, Option.getD_some, newIndex, hl]
  have hlineage : (tree.insert hash hashPrev nBlockWork nSequenceId hnew).forest.lineage hashPrev =
      tree.forest.lineage hashPrev := lineage_insert hnew hprev
  rw [Forest.pathSum_parent _ hpprev, Forest.pathSum, hlineage, Forest.pathSum]
  congr 2
  apply List.map_congr_left
  intro x hx
  exact hw x (mem_of_lineage hprev x hx)

end BlockTree

/-! ## The invariant -/

/-- `nChainTx` of a block, from that of its parent. -/
def chainTxAfter (prev : Option Nat) (nTx : Nat) : Nat :=
  match prev with
  | some n => if n ≠ 0 then (n + nTx) % 2 ^ 32 else 0
  | none => nTx

namespace IndexState

variable (env : IndexEnv Block View World)

/-- What is in memory was summed up, and what is on disk is what is in memory. -/
structure Totals (s : IndexState View World) : Prop where
  inv : s.chain.Inv
  work : s.chain.mapBlockIndex.SumsWork env.getBlockWork
  nTx_pos : ∀ hash, s.chain.HasData hash → 0 < s.nTx hash
  nChainTx : ∀ hash, s.chain.HasData hash →
    s.nChainTx hash = chainTxAfter ((s.chain.mapBlockIndex.pprev hash).map s.nChainTx) (s.nTx hash)
  disk : ∀ hash entry, s.blocktree.lookup hash = some entry →
    s.chain.HasData hash ∧ entry = s.diskBlockIndex env hash

/-- Every block with its data is on disk. -/
def AllWritten (s : IndexState View World) : Prop :=
  ∀ hash, s.chain.HasData hash → hash ∈ s.blocktree

/-- A block waits in the map as long as its header is not in the tree. -/
def OrphansApart (s : IndexState View World) : Prop :=
  ∀ hash ∈ s.mapOrphanBlocks,
    hash ∉ s.chain.mapBlockIndex.entries ∧ env.hashPrevBlock hash ≠ 0

variable {env} {s : IndexState View World} {chain : ChainState View World} {p hash : Uint256}

@[simp] theorem chain_writeBlockIndex (s : IndexState View World) :
    (s.writeBlockIndex env p).chain = s.chain := rfl
namespace Totals

theorem start (env : IndexEnv Block View World) (coins : View) (world : World) :
    (IndexState.start coins world).Totals env := by
  have hstatus : ∀ x, (IndexState.start coins world).chain.status x = {} := fun x ↦ rfl
  have hdata : ∀ x, ¬ (IndexState.start coins world).chain.HasData x := by
    intro x hx
    rw [ChainState.HasData, hstatus] at hx
    cases hx
  have hnil : (IndexState.start coins world).chain.GoodChain [] :=
    ⟨Or.inl rfl, fun _ h ↦ absurd h List.not_mem_nil⟩
  constructor
  case inv =>
    constructor
    case mem_valid => exact fun x ↦ iff_of_false List.not_mem_nil fun h ↦ hdata x h.1
    case known => exact fun x _ ↦ hstatus x
    case zero_notMem => exact Finmap.notMem_empty
    case valid_iff =>
      intro x
      rw [hstatus]
      exact iff_of_false (hdata x) (by decide)
    case pprev_data => exact fun x hashPrev h ↦ absurd (BlockTree.pprev_mem h) Finmap.notMem_empty
    case active => exact hnil
    case mostWork => exact hnil
    case failedChild =>
      intro x hx
      rw [hstatus] at hx
      cases hx
  case work => exact BlockTree.sumsWork_empty _
  case nTx_pos => exact fun x hx ↦ absurd hx (hdata x)
  case nChainTx => exact fun x hx ↦ absurd hx (hdata x)
  case disk => exact fun x entry h ↦ absurd h (by simp [IndexState.start])

/-- The tree stays, and which blocks have their data. -/
theorem with_chain (h : s.Totals env) (hinv : chain.Inv)
    (htree : chain.mapBlockIndex = s.chain.mapBlockIndex)
    (hdata : ∀ x, chain.HasData x ↔ s.chain.HasData x) : Totals env { s with chain := chain } := by
  constructor
  case inv => exact hinv
  case work => exact htree ▸ h.work
  case nTx_pos => exact fun x hx ↦ h.nTx_pos x ((hdata x).mp hx)
  case nChainTx =>
    intro x hx
    change s.nChainTx x = chainTxAfter ((chain.mapBlockIndex.pprev x).map s.nChainTx) (s.nTx x)
    rw [htree]
    exact h.nChainTx x ((hdata x).mp hx)
  case disk =>
    intro x entry hx
    obtain ⟨hd, rfl⟩ := h.disk x entry hx
    refine ⟨(hdata x).mpr hd, ?_⟩
    rw [diskBlockIndex, diskBlockIndex, htree]
    rfl

/-- A new header. -/
theorem addToBlockIndex (h : s.Totals env) (hnew : hash ∉ s.chain.mapBlockIndex.entries)
    (h0 : hash ≠ 0) (hprev : env.hashPrevBlock hash ∈ s.chain.mapBlockIndex.entries →
      s.chain.HasData (env.hashPrevBlock hash)) :
    Totals env { s with chain := s.chain.addToBlockIndex env.toChainEnv hash } := by
  have htree := ChainState.mapBlockIndex_addToBlockIndex env.toChainEnv hnew
  have hdata := ChainState.hasData_addToBlockIndex env.toChainEnv hnew h.inv
  have hget : ∀ x, s.chain.HasData x →
      (s.chain.addToBlockIndex env.toChainEnv hash).mapBlockIndex.get x =
        s.chain.mapBlockIndex.get x := by
    intro x hx
    rw [htree]
    apply BlockTree.get_insert_of_ne hnew
    rintro rfl
    exact hnew (h.inv.mem_entries hx)
  constructor
  case inv => exact h.inv.addToBlockIndex env.toChainEnv hnew h0 hprev
  case work =>
    change (s.chain.addToBlockIndex env.toChainEnv hash).mapBlockIndex.SumsWork _
    rw [htree]
    exact h.work.insert hnew
  case nTx_pos => exact fun x hx ↦ h.nTx_pos x ((hdata x).mp hx)
  case nChainTx =>
    intro x hx
    have hx := (hdata x).mp hx
    rw [BlockTree.pprev, hget x hx]
    exact h.nChainTx x hx
  case disk =>
    intro x entry hx
    obtain ⟨hd, rfl⟩ := h.disk x entry hx
    refine ⟨(hdata x).mpr hd, ?_⟩
    rw [diskBlockIndex, diskBlockIndex, BlockTree.pprev, BlockTree.nHeight, BlockTree.pprev,
      BlockTree.nHeight, hget x hd]
    rfl

theorem writeBlockIndex (h : s.Totals env) (hp : s.chain.HasData p) :
    (s.writeBlockIndex env p).Totals env := by
  refine ⟨h.inv, h.work, h.nTx_pos, h.nChainTx, fun x entry hx ↦ ?_⟩
  by_cases hxp : x = p
  · subst hxp
    rw [IndexState.writeBlockIndex, Finmap.lookup_insert] at hx
    exact ⟨hp, (Option.some.inj hx).symm⟩
  · rw [IndexState.writeBlockIndex, Finmap.lookup_insert_of_ne _ hxp] at hx
    exact h.disk x entry hx

end Totals

/-! ## The data of a block -/

/-- The state before the index is written. -/
def withData (s : IndexState View World) (vtxSize : Nat) (pindexNew : Uint256) :
    IndexState View World :=
  let nTx := vtxSize % 2 ^ 32
  let nChainTx := chainTxAfter ((s.chain.mapBlockIndex.pprev pindexNew).map s.nChainTx) nTx
  { s with
    chain := s.chain.receiveData pindexNew
    txCounts := s.txCounts.insert pindexNew { nTx := nTx, nChainTx := nChainTx } }

variable {vtxSize : Nat} {indexWritten : Bool} {x : Uint256}

theorem receivedBlockTransactions_fst :
    (s.receivedBlockTransactions env vtxSize p indexWritten).1 =
      if indexWritten then (s.withData vtxSize p).writeBlockIndex env p
      else s.withData vtxSize p := by
  rw [receivedBlockTransactions, withData]
  cases s.chain.mapBlockIndex.pprev p with
  | none => cases indexWritten <;> rfl
  | some q => cases indexWritten <;> rfl

theorem nTx_withData : (s.withData vtxSize p).nTx p = vtxSize % 2 ^ 32 := by
  rw [nTx, withData, Finmap.lookup_insert]
  rfl

theorem nChainTx_withData : (s.withData vtxSize p).nChainTx p =
    chainTxAfter ((s.chain.mapBlockIndex.pprev p).map s.nChainTx) (vtxSize % 2 ^ 32) := by
  rw [nChainTx, withData, Finmap.lookup_insert]
  rfl

theorem nTx_withData_of_ne (hx : x ≠ p) : (s.withData vtxSize p).nTx x = s.nTx x := by
  rw [nTx, withData, Finmap.lookup_insert_of_ne _ hx]
  rfl

theorem nChainTx_withData_of_ne (hx : x ≠ p) :
    (s.withData vtxSize p).nChainTx x = s.nChainTx x := by
  rw [nChainTx, withData, Finmap.lookup_insert_of_ne _ hx]
  rfl

section

variable (hstatus : s.chain.status p = { valid := blockValidTree })

include hstatus

theorem ne_of_hasData (hx : s.chain.HasData x) : x ≠ p := by
  rintro rfl
  rw [ChainState.HasData, hstatus] at hx
  cases hx

theorem receiveData_eq : s.chain.receiveData p =
    { s.chain.setStatus p { valid := blockValidTransactions, haveData := true } with
      setBlockIndexValid := p :: s.chain.setBlockIndexValid } := by
  rw [ChainState.receiveData, hstatus]
  rfl

theorem mapBlockIndex_withData :
    (s.withData vtxSize p).chain.mapBlockIndex = s.chain.mapBlockIndex := by
  rw [withData, receiveData_eq hstatus]
  rfl

theorem hasData_withData :
    (s.withData vtxSize p).chain.HasData x ↔ x = p ∨ s.chain.HasData x := by
  rw [withData, receiveData_eq hstatus, ChainState.HasData]
  change ((s.chain.setStatus p _).status x).haveData = true ↔ _
  rw [ChainState.status_setStatus]
  split
  case isTrue hx => exact iff_of_true rfl (Or.inl hx)
  case isFalse hx => exact (or_iff_right hx).symm

/-- Whatever the parent of a block is, it had its data before. -/
theorem Totals.map_nChainTx_withData (h : s.Totals env) :
    (s.chain.mapBlockIndex.pprev x).map (s.withData vtxSize p).nChainTx =
      (s.chain.mapBlockIndex.pprev x).map s.nChainTx := by
  cases hq : s.chain.mapBlockIndex.pprev x with
  | none => rfl
  | some q =>
      have hqp := ne_of_hasData hstatus (h.inv.pprev_data x q hq)
      exact congrArg some (nChainTx_withData_of_ne hqp)

theorem Totals.withData (h : s.Totals env) (hp : p ∈ s.chain.mapBlockIndex.entries)
    (hpos : 0 < vtxSize) (hlt : vtxSize < 2 ^ 32) : (s.withData vtxSize p).Totals env := by
  have htree : (s.withData vtxSize p).chain.mapBlockIndex = s.chain.mapBlockIndex :=
    mapBlockIndex_withData hstatus
  constructor
  case inv => exact (ChainState.Grown.receiveData h.inv hp hstatus).inv
  case work => exact htree ▸ h.work
  case nTx_pos =>
    intro x hx
    rcases (hasData_withData hstatus).mp hx with rfl | hd
    · rwa [nTx_withData, Nat.mod_eq_of_lt hlt]
    · rw [nTx_withData_of_ne (ne_of_hasData hstatus hd)]
      exact h.nTx_pos x hd
  case nChainTx =>
    intro x hx
    rw [htree, h.map_nChainTx_withData hstatus]
    rcases (hasData_withData hstatus).mp hx with rfl | hd
    · rw [nTx_withData, nChainTx_withData]
    · have hxp := ne_of_hasData hstatus hd
      rw [nTx_withData_of_ne hxp, nChainTx_withData_of_ne hxp]
      exact h.nChainTx x hd
  case disk =>
    intro x entry hx
    obtain ⟨hd, rfl⟩ := h.disk x entry hx
    refine ⟨(hasData_withData hstatus).mpr (Or.inr hd), ?_⟩
    rw [diskBlockIndex, diskBlockIndex, htree, nTx_withData_of_ne (ne_of_hasData hstatus hd)]

end

/-- A block whose header is known gets its data. -/
theorem Totals.receivedBlockTransactions (h : s.Totals env)
    (hp : p ∈ s.chain.mapBlockIndex.entries)
    (hstatus : s.chain.status p = { valid := blockValidTree }) (hpos : 0 < vtxSize)
    (hlt : vtxSize < 2 ^ 32) :
    (s.receivedBlockTransactions env vtxSize p indexWritten).1.Totals env := by
  have htotals := h.withData hstatus hp hpos hlt
  rw [receivedBlockTransactions_fst]
  split
  case isTrue => exact htotals.writeBlockIndex ((hasData_withData hstatus).mpr (Or.inl rfl))
  case isFalse => exact htotals

/-! ## The calls -/

/-- What a call does to the tree and the map: it may add a header, the data of which goes to disk
if the index is written. -/
structure Extends (s s' : IndexState View World) (hash : Uint256) (indexWritten : Bool) :
    Prop where
  mem : ∀ x ∈ s'.chain.mapBlockIndex.entries, x = hash ∨ x ∈ s.chain.mapBlockIndex.entries
  orphans : s'.mapOrphanBlocks = s.mapOrphanBlocks
  allWritten : indexWritten = true → s.AllWritten → s'.AllWritten

theorem Extends.refl (s : IndexState View World) (hash : Uint256) (indexWritten : Bool) :
    Extends s s hash indexWritten := ⟨fun _ ↦ Or.inr, rfl, fun _ ↦ id⟩

/-- The data of a block that is in the tree. -/
theorem extends_receivedBlockTransactions (env : IndexEnv Block View World)
    (hstatus : s.chain.status p = { valid := blockValidTree }) :
    Extends s (s.receivedBlockTransactions env vtxSize p indexWritten).1 p indexWritten := by
  have htree : (s.withData vtxSize p).chain.mapBlockIndex = s.chain.mapBlockIndex :=
    mapBlockIndex_withData hstatus
  rw [receivedBlockTransactions_fst]
  cases indexWritten with
  | false => exact ⟨fun x hx ↦ Or.inr (htree ▸ hx), rfl, fun h ↦ absurd h Bool.false_ne_true⟩
  | true =>
      refine ⟨fun x hx ↦ Or.inr (htree ▸ hx), rfl, fun _ hall x hx ↦ ?_⟩
      have hx : (s.withData vtxSize p).chain.HasData x := hx
      apply Finmap.mem_insert.mpr
      exact ((hasData_withData hstatus).mp hx).imp id (hall x)

theorem vtx_of_checkBlock {env : BlockEnv} {block : CBlock} {nHeight : Int}
    {fCheckPOW fCheckMerkleRoot : Bool}
    (h : checkBlock env block nHeight fCheckPOW fCheckMerkleRoot = .ok ()) :
    0 < block.vtx.length ∧ block.vtx.length < 2 ^ 32 := by
  simp only [checkBlock, bind_eq_ok, failIf_eq_ok, exists_const] at h
  obtain ⟨_, _, hlen, _⟩ := h
  simp only [Bool.or_eq_false_iff, decide_eq_false_iff_not, not_lt] at hlen
  obtain ⟨⟨hne, hle⟩, _⟩ := hlen
  refine ⟨List.length_pos_iff.mpr fun hnil ↦ ?_, hle.trans_lt (by decide)⟩
  rw [hnil] at hne
  cases hne

/-- `AcceptBlock` of a block that is not in the tree. -/
theorem acceptBlock_cases (a : BlockArrival env) :
    let added : IndexState View World :=
      { s with chain := s.chain.addToBlockIndex env.toChainEnv a.hash }
    let failed := added.chain.setStatus a.hash
      { added.chain.status a.hash with failedValid := true }
    (s.acceptBlock a).1 = s ∨
      (s.acceptBlock a).1 = added ∨
      (s.acceptBlock a).1 = { added with chain := failed } ∨
      (0 < a.block.vtx.length ∧ a.block.vtx.length < 2 ^ 32) ∧
        (s.acceptBlock a).1 = (added.receivedBlockTransactions env a.block.vtx.length a.hash
          a.indexWritten).1 := by
  intro added failed
  rw [acceptBlock]
  cases hheader : s.chain.acceptBlockHeader env.toChainEnv (a.arrival 0) with
  | error e => exact Or.inl rfl
  | ok chain =>
      obtain ⟨rfl, -⟩ := ChainState.acceptBlockHeader_eq_ok hheader
      right
      dsimp only
      cases hcheck : checkBlock a.blockEnv a.block _ true true with
      | error e => exact Or.inl rfl
      | ok u =>
          dsimp only
          split
          case isTrue => exact Or.inr (Or.inl rfl)
          case isFalse =>
            split
            case isTrue => exact Or.inr (Or.inl rfl)
            case isFalse =>
              cases a.stored with
              | error e => exact Or.inl rfl
              | ok u => exact Or.inr (Or.inr ⟨vtx_of_checkBlock hcheck, rfl⟩)

/-- A new header alone. -/
theorem extends_addToBlockIndex (h : s.Totals env) (hnew : hash ∉ s.chain.mapBlockIndex.entries)
    (indexWritten : Bool) :
    Extends s { s with chain := s.chain.addToBlockIndex env.toChainEnv hash } hash
      indexWritten where
  mem x hx := (ChainState.mem_addToBlockIndex env.toChainEnv hnew x).mp hx
  orphans := rfl
  allWritten _ hall x hx :=
    hall x ((ChainState.hasData_addToBlockIndex env.toChainEnv hnew h.inv x).mp hx)

theorem Extends.trans {s₁ s₂ : IndexState View World} (h : Extends s s₁ hash indexWritten)
    (h' : Extends s₁ s₂ hash indexWritten) : Extends s s₂ hash indexWritten where
  mem x hx := (h'.mem x hx).elim Or.inl (h.mem x)
  orphans := h'.orphans.trans h.orphans
  allWritten hw hall := h'.allWritten hw (h.allWritten hw hall)

/-- A new header, with what becomes of its block. -/
theorem Totals.acceptBlock (h : s.Totals env) (a : BlockArrival env)
    (hnew : a.hash ∉ s.chain.mapBlockIndex.entries)
    (hprev : env.hashPrevBlock a.hash ∈ s.chain.mapBlockIndex.entries →
      s.chain.HasData (env.hashPrevBlock a.hash)) :
    (s.acceptBlock a).1.Totals env ∧ Extends s (s.acceptBlock a).1 a.hash a.indexWritten := by
  have htotals := h.addToBlockIndex hnew a.hash_ne_zero hprev
  have hext := extends_addToBlockIndex h hnew a.indexWritten
  obtain ⟨-, hentry, hstatus⟩ :=
    ChainState.Grown.addToBlockIndex h.inv hnew a.hash_ne_zero hprev
  rcases s.acceptBlock_cases a with heq | heq | heq | ⟨⟨hpos, hlt⟩, heq⟩
  · rw [heq]
    exact ⟨h, .refl _ _ _⟩
  · rw [heq]
    exact ⟨htotals, hext⟩
  · rw [heq]
    have hgrown := ChainState.Grown.setFailedValid htotals.inv hentry hstatus
    have hdata : ∀ x, ((s.chain.addToBlockIndex env.toChainEnv a.hash).setStatus a.hash
        { (s.chain.addToBlockIndex env.toChainEnv a.hash).status a.hash with
          failedValid := true }).HasData x ↔
        (s.chain.addToBlockIndex env.toChainEnv a.hash).HasData x := by
      intro x
      rw [ChainState.HasData, ChainState.status_setStatus]
      split
      case isTrue hx => rw [hx, ChainState.HasData]
      case isFalse => exact Iff.rfl
    exact ⟨htotals.with_chain hgrown.inv rfl hdata, hext.mem, rfl,
      fun hw hall x hx ↦ hext.allWritten hw hall x ((hdata x).mp hx)⟩
  · rw [heq]
    exact ⟨htotals.receivedBlockTransactions hentry hstatus hpos hlt,
      hext.trans (extends_receivedBlockTransactions env hstatus)⟩

theorem Totals.initBlockIndex (h : s.Totals env) (stored : Except Failure Unit)
    (indexWritten : Bool) : (s.initBlockIndex env stored indexWritten).1.Totals env ∧
      Extends s (s.initBlockIndex env stored indexWritten).1 env.hashGenesisBlock
        indexWritten := by
  rw [IndexState.initBlockIndex.eq_def]
  split
  case isTrue => exact ⟨h, .refl _ _ _⟩
  case isFalse =>
    split
    case isTrue => exact ⟨h, .refl _ _ _⟩
    case isFalse hempty =>
      cases stored with
      | error e => exact ⟨h, .refl _ _ _⟩
      | ok u =>
          rw [not_not] at hempty
          have hnot : ∀ x, x ∉ s.chain.mapBlockIndex.entries := fun x ↦ by
            rw [hempty]
            exact Finmap.notMem_empty
          have hnew := hnot env.hashGenesisBlock
          have hprev : env.hashPrevBlock env.hashGenesisBlock ∈ s.chain.mapBlockIndex.entries →
              s.chain.HasData (env.hashPrevBlock env.hashGenesisBlock) :=
            fun hx ↦ absurd hx (hnot _)
          have htotals := h.addToBlockIndex hnew env.hashGenesisBlock_ne_zero hprev
          have hext := extends_addToBlockIndex h hnew indexWritten
          obtain ⟨-, hentry, hstatus⟩ :=
            ChainState.Grown.addToBlockIndex h.inv hnew env.hashGenesisBlock_ne_zero hprev
          exact ⟨htotals.receivedBlockTransactions hentry hstatus Nat.one_pos (by decide),
            hext.trans (extends_receivedBlockTransactions env hstatus)⟩

theorem OrphansApart.extends {s' : IndexState View World} (h : s.OrphansApart env)
    (hext : Extends s s' hash indexWritten) (hhash : hash ∉ s.mapOrphanBlocks) :
    s'.OrphansApart env := by
  intro x hx
  rw [hext.orphans] at hx
  obtain ⟨hnot, hprev⟩ := h x hx
  refine ⟨fun hmem ↦ ?_, hprev⟩
  rcases hext.mem x hmem with rfl | hmem
  · exact hhash hx
  · exact hnot hmem

/-- The entries of blocks with their data are written again. -/
theorem Totals.foldl_writeBlockIndex {written : List Uint256} (h : s.Totals env)
    (hdata : ∀ pindex ∈ written, s.chain.HasData pindex) :
    (written.foldl (IndexState.writeBlockIndex env) s).Totals env ∧
      (written.foldl (IndexState.writeBlockIndex env) s).chain = s.chain ∧
      (written.foldl (IndexState.writeBlockIndex env) s).mapOrphanBlocks = s.mapOrphanBlocks ∧
      ∀ x ∈ s.blocktree, x ∈ (written.foldl (IndexState.writeBlockIndex env) s).blocktree := by
  induction written generalizing s with
  | nil => exact ⟨h, rfl, rfl, fun _ hx ↦ hx⟩
  | cons pindex written ih =>
      rw [List.foldl_cons]
      obtain ⟨htotals, hchain, hmap, hmem⟩ :=
        ih (h.writeBlockIndex (hdata pindex List.mem_cons_self))
          fun x hx ↦ hdata x (List.mem_cons_of_mem _ hx)
      exact ⟨htotals, hchain, hmap, fun x hx ↦ hmem x (Finmap.mem_insert.mpr (Or.inr hx))⟩

end IndexState

open IndexState in
/-- **Every call keeps the totals**, and if the index is written, what is in memory is on disk. -/
theorem IndexStep.totals {env : IndexEnv Block View World} {s s' : IndexState View World}
    {call : IndexCall env} (hstep : IndexStep env s call s') (htotals : s.Totals env)
    (horphans : s.OrphansApart env) :
    s'.Totals env ∧ s'.OrphansApart env ∧
      (call.writes = true → s.AllWritten → s'.AllWritten) := by
  obtain ⟨fuel, hrun⟩ := hstep
  cases call with
  | initBlockIndex stored indexWritten =>
      obtain rfl := Option.some.inj hrun
      obtain ⟨htotals', hext⟩ := htotals.initBlockIndex stored indexWritten
      refine ⟨htotals', horphans.extends hext fun hmem ↦ ?_, hext.allWritten⟩
      exact (horphans _ hmem).2 env.hashPrevBlock_genesis
  | processBlock a pfrom pruned =>
      obtain rfl := Option.some.inj hrun
      rw [IndexState.processBlock]
      split
      case isTrue => exact ⟨htotals, horphans, fun _ ↦ id⟩
      case isFalse hnew =>
        split
        case isTrue => exact ⟨htotals, horphans, fun _ ↦ id⟩
        case isFalse hnotOrphan =>
          cases checkBlock a.blockEnv a.block intMax true true with
          | error e => exact ⟨htotals, horphans, fun _ ↦ id⟩
          | ok u =>
              dsimp only
              split
              case isTrue horphan =>
                cases pfrom with
                | false => exact ⟨htotals, horphans, fun _ ↦ id⟩
                | true =>
                    refine ⟨⟨htotals.inv, htotals.work, htotals.nTx_pos, htotals.nChainTx,
                      htotals.disk⟩, fun x hx ↦ ?_, fun _ hall ↦ hall⟩
                    rcases Finset.mem_insert.mp hx with rfl | hx
                    · exact ⟨hnew, a.hashPrevBlock_eq ▸ horphan.1⟩
                    · apply horphans x
                      cases pruned with
                      | none => exact hx
                      | some y => exact Finset.mem_of_mem_erase hx
              case isFalse horphan =>
                -- the block of hash 0 is in no tree, so the predecessor is there with its data
                have hprev : env.hashPrevBlock a.hash ∈ s.chain.mapBlockIndex.entries →
                    s.chain.HasData (env.hashPrevBlock a.hash) := by
                  intro hin
                  rw [← a.hashPrevBlock_eq, not_and_or, not_not, not_not] at horphan
                  rcases horphan with hz | ⟨_, hd⟩
                  · exact absurd (hz ▸ hin) htotals.inv.zero_notMem
                  · exact hd
                obtain ⟨htotals', hext⟩ := htotals.acceptBlock a hnew hprev
                exact ⟨htotals', horphans.extends hext hnotOrphan, hext.allWritten⟩
  | acceptOrphan a =>
      rw [IndexCall.run, Option.ite_none_right_eq_some] at hrun
      obtain ⟨⟨hmem, hdata⟩, hrun⟩ := hrun
      obtain rfl := Option.some.inj hrun
      rw [← a.hashPrevBlock_eq] at hdata
      obtain ⟨htotals', hext⟩ := htotals.acceptBlock a (horphans _ hmem).1 fun _ ↦ hdata
      refine ⟨⟨htotals'.inv, htotals'.work, htotals'.nTx_pos, htotals'.nChainTx, htotals'.disk⟩,
        fun x hx ↦ ?_, hext.allWritten⟩
      obtain ⟨hne, hx⟩ := Finset.mem_erase.mp hx
      rw [hext.orphans] at hx
      obtain ⟨hnot, hprev⟩ := horphans x hx
      exact ⟨fun hin ↦ hnot ((hext.mem x hin).resolve_left hne), hprev⟩
  | activateBestChain written =>
      rw [IndexCall.run, Option.ite_none_right_eq_some] at hrun
      obtain ⟨hdata, hrun⟩ := hrun
      rw [List.all_eq_true] at hdata
      obtain ⟨⟨chain, state, r⟩, hactivate, rfl⟩ := Option.map_eq_some_iff.mp hrun
      have hdone := ChainState.activateBestChain_done htotals.inv hactivate
      have htotals' : Totals env { s with chain := chain } :=
        htotals.with_chain hdone.inv hdone.evolves.mapBlockIndex hdone.evolves.data
      obtain ⟨hwritten, hchain, hmap, hmem⟩ := htotals'.foldl_writeBlockIndex
        fun x hx ↦ (hdone.evolves.data x).mpr (hdata x hx)
      refine ⟨hwritten, fun x hx ↦ ?_, fun _ hall x hx ↦ ?_⟩
      · rw [hmap] at hx
        rw [hchain, hdone.evolves.mapBlockIndex]
        exact horphans x hx
      · rw [hchain] at hx
        exact hmem x (hall x ((hdone.evolves.data x).mp hx))

namespace IndexState

variable {env : IndexEnv Block View World} {s : IndexState View World} {hash : Uint256}
  {coins : View} {world : World} {calls : List (IndexCall env)}

/-- The totals of every state that the calls lead to. -/
theorem totals_of_run (hrun : Run (IndexStep env) (IndexState.start coins world) calls s) :
    s.Totals env := by
  refine (hrun.invariant (I := fun s ↦ s.Totals env ∧ s.OrphansApart env) ?_ ?_).1
  · intro s call s' hs hstep
    obtain ⟨htotals, horphans, -⟩ := hstep.totals hs.1 hs.2
    exact ⟨htotals, horphans⟩
  · exact ⟨.start env coins world, fun _ h ↦ absurd h (Finset.notMem_empty _)⟩

/-- As long as the index is written, every block with its data is on disk. -/
theorem allWritten_of_run (hrun : Run (IndexStep env) (IndexState.start coins world) calls s)
    (hwrites : ∀ call ∈ calls, call.writes = true) : s.AllWritten := by
  have hrun' : Run (fun s (call : IndexCall env) s' ↦
      IndexStep env s call s' ∧ call.writes = true) (IndexState.start coins world) calls s :=
    hrun.imp fun _ call _ hmem hstep ↦ ⟨hstep, hwrites call hmem⟩
  refine (hrun'.invariant (I := fun s ↦ s.Totals env ∧ s.OrphansApart env ∧ s.AllWritten) ?_
    ?_).2.2
  · rintro s call s' ⟨htotals, horphans, hall⟩ ⟨hstep, hwrites⟩
    obtain ⟨htotals', horphans', hall'⟩ := hstep.totals htotals horphans
    exact ⟨htotals', horphans', hall' hwrites hall⟩
  · refine ⟨.start env coins world, fun _ h ↦ absurd h (Finset.notMem_empty _), fun x hx ↦ ?_⟩
    exact absurd ((Totals.start env coins world).inv.mem_entries hx) Finmap.notMem_empty

/-! ## The sums -/

/-- The transactions of the blocks up to the given one. -/
def sumTx (s : IndexState View World) (hash : Uint256) : Nat :=
  s.chain.mapBlockIndex.forest.pathSum s.nTx hash

/-- The work of the blocks up to the given one. -/
def sumWork (env : IndexEnv Block View World) (s : IndexState View World) (hash : Uint256) : Nat :=
  s.chain.mapBlockIndex.forest.pathSum (fun x ↦ Fedoracoin.getBlockWork (env.nBits x)) hash

theorem Totals.sumTx_pos (h : s.Totals env) (hdata : s.chain.HasData hash) : 0 < s.sumTx hash :=
  (h.nTx_pos hash hdata).trans_le (Forest.le_pathSum _ _ _)

/-- As long as the sum fits into 32 bits it is what was counted. -/
theorem Totals.nChainTx_eq (h : s.Totals env) (hdata : s.chain.HasData hash)
    (hlt : s.sumTx hash < 2 ^ 32) : s.nChainTx hash = s.sumTx hash := by
  induction hash using s.chain.mapBlockIndex.forest.induct with
  | root a ha =>
      rw [h.nChainTx a hdata, show s.chain.mapBlockIndex.pprev a = none from ha, Option.map_none,
        sumTx, Forest.pathSum_root _ ha, chainTxAfter]
  | child a b ha ih =>
      have hb := h.inv.pprev_data a b ha
      have hsum : s.sumTx a = s.sumTx b + s.nTx a := Forest.pathSum_parent _ ha
      have hprev := ih hb (by omega)
      have hne : s.nChainTx b ≠ 0 := hprev ▸ (h.sumTx_pos hb).ne'
      rw [h.nChainTx a hdata, show s.chain.mapBlockIndex.pprev a = some b from ha, Option.map_some,
        chainTxAfter, if_pos hne, hprev, ← hsum, Nat.mod_eq_of_lt hlt]

/-- Where the sum reaches 32 bits, nothing is left of it. -/
theorem Totals.nChainTx_eq_zero (h : s.Totals env) (hdata : s.chain.HasData hash)
    (hlt : s.nTx hash < 2 ^ 32) (hsum : s.sumTx hash = 2 ^ 32) : s.nChainTx hash = 0 := by
  cases hprev : s.chain.mapBlockIndex.pprev hash with
  | none =>
      have heq : s.sumTx hash = s.nTx hash := Forest.pathSum_root _ hprev
      omega
  | some hashPrev =>
      have heq : s.sumTx hash = s.sumTx hashPrev + s.nTx hash := Forest.pathSum_parent _ hprev
      have hpos := h.nTx_pos hash hdata
      have hdataPrev := h.inv.pprev_data hash hashPrev hprev
      have hcount := h.nChainTx_eq hdataPrev (by omega)
      have hne : s.nChainTx hashPrev ≠ 0 := hcount ▸ (h.sumTx_pos hdataPrev).ne'
      rw [h.nChainTx hash hdata, hprev, Option.map_some, chainTxAfter, if_pos hne, hcount, ← heq,
        hsum, Nat.mod_self]

theorem Totals.nChainWork_eq (h : s.Totals env) (hdata : s.chain.HasData hash) :
    s.chain.mapBlockIndex.nChainWork hash = s.sumWork env hash % 2 ^ 256 := by
  rw [h.work.eq_pathSum (h.inv.mem_entries hdata), sumWork]
  congr 2
  exact funext env.getBlockWork_eq

/-! ## A block that is accepted -/

/-- Nothing speaks against the block. -/
structure Sound (a : BlockArrival env) : Prop where
  checkBlock : ∀ nHeight, checkBlock a.blockEnv a.block nHeight true true = .ok ()
  header : a.header = .ok ()
  isFinalTx : a.isFinalTx = true
  coinbaseHeight : a.coinbaseHeight = true
  stored : a.stored = .ok ()

theorem Sound.processBlock {a : BlockArrival env} (ha : Sound a)
    (hnew : a.hash ∉ s.chain.mapBlockIndex.entries) (horphans : a.hash ∉ s.mapOrphanBlocks)
    (hprev : a.block.hashPrevBlock ∈ s.chain.mapBlockIndex.entries)
    (hdata : s.chain.HasData a.block.hashPrevBlock) :
    s.processBlock a pfrom pruned =
      receivedBlockTransactions env
        { s with chain := s.chain.addToBlockIndex env.toChainEnv a.hash }
        a.block.vtx.length a.hash a.indexWritten := by
  have hknown : env.hashPrevBlock a.hash ∈ s.chain.mapBlockIndex.entries := by
    rw [BlockArrival.hash, a.hashPrevBlock_eq]
    exact hprev
  have hheader : ∃ chain, s.chain.acceptBlockHeader env.toChainEnv (a.arrival 0) = .ok chain :=
    (ChainState.exists_acceptBlockHeader_iff hnew).mpr (Or.inr ⟨hknown, ha.header⟩)
  obtain ⟨chain, hheader⟩ := hheader
  obtain ⟨rfl, -⟩ := ChainState.acceptBlockHeader_eq_ok hheader
  rw [IndexState.processBlock, if_neg hnew, if_neg horphans, ha.checkBlock]
  dsimp only
  rw [if_neg fun hnot ↦ hnot.2 ⟨hprev, hdata⟩, acceptBlock, hheader]
  dsimp only
  rw [ha.checkBlock, ha.isFinalTx, ha.coinbaseHeight, ha.stored]
  rfl

/-- What there is of a block once its data came in. -/
theorem receivedBlockTransactions_sums (vtxSize : Nat) (indexWritten : Bool)
    (hnew : hash ∉ s.chain.mapBlockIndex.entries)
    (hprev : env.hashPrevBlock hash ∈ s.chain.mapBlockIndex.entries) :
    let added : IndexState View World :=
      { s with chain := s.chain.addToBlockIndex env.toChainEnv hash }
    let s' := (added.receivedBlockTransactions env vtxSize hash indexWritten).1
    (∀ x ∈ s'.chain.mapBlockIndex.entries, x = hash ∨ x ∈ s.chain.mapBlockIndex.entries) ∧
      s'.chain.HasData hash ∧ s'.nTx hash = vtxSize % 2 ^ 32 ∧
      s'.sumTx hash = s.sumTx (env.hashPrevBlock hash) + vtxSize % 2 ^ 32 := by
  intro added s'
  have hstatus : added.chain.status hash = { valid := blockValidTree } := by
    rw [ChainState.status_addToBlockIndex env.toChainEnv hnew, if_pos rfl]
  have hs' : s'.chain = (added.withData vtxSize hash).chain ∧
      s'.nTx = (added.withData vtxSize hash).nTx := by
    change (added.receivedBlockTransactions env vtxSize hash indexWritten).1.chain = _ ∧
      (added.receivedBlockTransactions env vtxSize hash indexWritten).1.nTx = _
    rw [receivedBlockTransactions_fst]
    cases indexWritten with
    | false => exact ⟨rfl, rfl⟩
    | true => exact ⟨rfl, rfl⟩
  obtain ⟨hchain, hnTx⟩ := hs'
  have htree : s'.chain.mapBlockIndex = s.chain.mapBlockIndex.insert hash (env.hashPrevBlock hash)
      (env.toChainEnv.getBlockWork hash) s.chain.nBlockSequenceId hnew := by
    rw [hchain, mapBlockIndex_withData hstatus]
    exact ChainState.mapBlockIndex_addToBlockIndex env.toChainEnv hnew
  have hself : s'.nTx hash = vtxSize % 2 ^ 32 := by rw [hnTx, nTx_withData]
  have hold : ∀ x ∈ s.chain.mapBlockIndex.entries, s'.nTx x = s.nTx x := by
    intro x hx
    rw [hnTx, nTx_withData_of_ne]
    · rfl
    · rintro rfl
      exact hnew hx
  refine ⟨fun x hx ↦ (BlockTree.mem_insert hnew).mp (htree ▸ hx),
    hchain ▸ (hasData_withData hstatus).mpr (Or.inl rfl), hself, ?_⟩
  rw [sumTx, htree, BlockTree.pathSum_insert hnew hprev hold, hself]
  rfl

end IndexState

end Fedoracoin
