import Fedoracoin.Termination
import Fedoracoin.TotalsInv
import Fedoracoin.Undo

/-!
# Loading the totals

`LoadBlockIndexGuts` and the loop of `LoadBlockIndexDB`, as far as `nChainWork` and `nChainTx`.
Neither is on disk: they are computed for all entries at once, in the order of their heights.  An
entry whose parent is not on disk gets an empty one for a parent.
-/

namespace Fedoracoin

variable {Block View World : Type}

/-! ## `LoadBlockIndexGuts` -/

/-- What is filled in of an entry. -/
structure LoadedIndex where
  pprev : Option Uint256 := none
  nHeight : Nat := 0
  nTx : Nat := 0
  nBits : Nat := 0
deriving DecidableEq

/-- `mapBlockIndex` while it is loaded. -/
abbrev LoadedMap := AList fun _ : Uint256 ↦ LoadedIndex

/-- `nChainWork` and `nChainTx`. -/
structure ChainTotals where
  nChainWork : Nat := 0
  nChainTx : Nat := 0
deriving DecidableEq

namespace LoadedMap

/-- `InsertBlockIndex`. -/
def insertBlockIndex (map : LoadedMap) (hash : Uint256) : LoadedMap × Option Uint256 :=
  if hash = 0 then (map, none)
  -- Return existing
  else if hash ∈ map then (map, some hash)
  -- Create new
  else (map.insert hash {}, some hash)

/-- What is done with one entry of the database. -/
def loadEntry (map : LoadedMap) (r : Uint256 × CDiskBlockIndex) : LoadedMap :=
  let pindexNew := map.insertBlockIndex r.1
  let pprev := insertBlockIndex pindexNew.1 r.2.hashPrev
  pprev.1.insert r.1
    { pprev := pprev.2, nHeight := r.2.nHeight, nTx := r.2.nTx, nBits := r.2.nBits }

/-- `LoadBlockIndexGuts`; the cursor goes through the entries of the database. -/
def loadBlockIndexGuts (cursor : List (Uint256 × CDiskBlockIndex)) : LoadedMap :=
  cursor.foldl loadEntry ∅

def get (map : LoadedMap) (hash : Uint256) : LoadedIndex := (map.lookup hash).getD {}

/-! ## The loop of `LoadBlockIndexDB` -/

/-- The order of pairs of a height and a pointer. -/
def sortsBefore (map : LoadedMap) (address : Uint256 ↪ Nat) (a b : Uint256) : Bool :=
  decide ((map.get a).nHeight < (map.get b).nHeight ∨
    (map.get a).nHeight = (map.get b).nHeight ∧ address a ≤ address b)

def sortedByHeight (map : LoadedMap) (address : Uint256 ↪ Nat) : List Uint256 :=
  map.keys.mergeSort (map.sortsBefore address)

/-- What the loop computes for an entry. -/
def totalsAfter (map : LoadedMap) (pprev : Option ChainTotals) (hash : Uint256) :
    ChainTotals where
  nChainWork := (pprev.elim 0 ChainTotals.nChainWork + getBlockWork (map.get hash).nBits) % 2 ^ 256
  nChainTx := (pprev.elim 0 ChainTotals.nChainTx + (map.get hash).nTx) % 2 ^ 32

/-- `LoadBlockIndexDB`. -/
def loadBlockIndexDB (address : Uint256 ↪ Nat) (cursor : List (Uint256 × CDiskBlockIndex)) :
    Uint256 → ChainTotals :=
  let map := loadBlockIndexGuts cursor
  sweep (fun hash ↦ (map.get hash).pprev) map.totalsAfter (map.sortedByHeight address) fun _ ↦ {}

/-! ## What is loaded -/

/-- An entry of the database, loaded. -/
def ofDisk (entry : CDiskBlockIndex) : LoadedIndex where
  pprev := if entry.hashPrev = 0 then none else some entry.hashPrev
  nHeight := entry.nHeight
  nTx := entry.nTx
  nBits := entry.nBits

variable {map : LoadedMap} {hash x : Uint256} {entry : CDiskBlockIndex} {pindex : LoadedIndex}
  {cursor : List (Uint256 × CDiskBlockIndex)} {address : Uint256 ↪ Nat}

theorem insertBlockIndex_snd (map : LoadedMap) (hash : Uint256) :
    (map.insertBlockIndex hash).2 = if hash = 0 then none else some hash := by
  rw [insertBlockIndex]
  split
  · rfl
  · split <;> rfl

theorem lookup_insertBlockIndex (h : map.lookup x = some pindex) :
    (map.insertBlockIndex hash).1.lookup x = some pindex := by
  rw [insertBlockIndex]
  split
  · exact h
  · split
    · exact h
    · rename_i hnot
      rw [AList.lookup_insert_ne, h]
      rintro rfl
      exact hnot (AList.lookup_isSome.mp (h ▸ rfl))

theorem lookup_loadEntry_self :
    (map.loadEntry (hash, entry)).lookup hash = some (ofDisk entry) := by
  rw [loadEntry, AList.lookup_insert, insertBlockIndex_snd]
  rfl

theorem lookup_loadEntry_of_ne (hx : x ≠ hash) (h : map.lookup x = some pindex) :
    (map.loadEntry (hash, entry)).lookup x = some pindex := by
  rw [loadEntry, AList.lookup_insert_ne hx]
  exact lookup_insertBlockIndex (lookup_insertBlockIndex h)

/-- A loaded entry stays, where the cursor does not come to another one of the same hash. -/
theorem lookup_foldl_loadEntry (h : map.lookup hash = some (ofDisk entry))
    (hsame : ∀ entry', (hash, entry') ∈ cursor → entry' = entry) :
    (cursor.foldl loadEntry map).lookup hash = some (ofDisk entry) := by
  induction cursor generalizing map with
  | nil => exact h
  | cons r cursor ih =>
      rw [List.foldl_cons]
      apply ih
      · obtain ⟨hash', entry'⟩ := r
        by_cases hhash : hash = hash'
        · subst hhash
          rw [lookup_loadEntry_self, hsame entry' List.mem_cons_self]
        · exact lookup_loadEntry_of_ne hhash h
      · exact fun entry' hmem ↦ hsame entry' (List.mem_cons_of_mem _ hmem)

/-- Whatever the cursor comes to is loaded. -/
theorem lookup_loadBlockIndexGuts (hmem : (hash, entry) ∈ cursor)
    (hsame : ∀ entry', (hash, entry') ∈ cursor → entry' = entry) :
    (loadBlockIndexGuts cursor).lookup hash = some (ofDisk entry) := by
  obtain ⟨before, after, rfl⟩ := List.append_of_mem hmem
  rw [loadBlockIndexGuts, List.foldl_append, List.foldl_cons]
  apply lookup_foldl_loadEntry lookup_loadEntry_self
  intro entry' h
  exact hsame entry' (List.mem_append_right _ (List.mem_cons_of_mem _ h))

/-! ## The order -/

theorem mem_sortedByHeight : hash ∈ map.sortedByHeight address ↔ hash ∈ map.keys :=
  (List.mergeSort_perm _ _).mem_iff

theorem pairwise_sortedByHeight (map : LoadedMap) (address : Uint256 ↪ Nat) :
    (map.sortedByHeight address).Pairwise fun a b ↦ (map.get a).nHeight ≤ (map.get b).nHeight := by
  have htrans : ∀ a b c, map.sortsBefore address a b = true →
      map.sortsBefore address b c = true → map.sortsBefore address a c = true := by
    intro a b c hab hbc
    rw [sortsBefore, decide_eq_true_eq] at hab hbc ⊢
    omega
  have htotal : ∀ a b, (map.sortsBefore address a b || map.sortsBefore address b a) = true := by
    intro a b
    rw [sortsBefore, sortsBefore, Bool.or_eq_true, decide_eq_true_eq, decide_eq_true_eq]
    omega
  refine (List.pairwise_mergeSort htrans htotal map.keys).imp fun {a b} h ↦ ?_
  rw [sortsBefore, decide_eq_true_eq] at h
  omega

/-- What the loop computes, where entries are above their parents. -/
theorem loadBlockIndexDB_eq {address : Uint256 ↪ Nat} (want : Uint256 → ChainTotals)
    (P : Uint256 → Prop)
    (hwant : ∀ a, P a → want a = (loadBlockIndexGuts cursor).totalsAfter
      (((loadBlockIndexGuts cursor).get a).pprev.map want) a)
    (hparent : ∀ a b, P a → ((loadBlockIndexGuts cursor).get a).pprev = some b →
      P b ∧
        ((loadBlockIndexGuts cursor).get b).nHeight < ((loadBlockIndexGuts cursor).get a).nHeight)
    (hmem : ∀ a, P a → a ∈ loadBlockIndexGuts cursor) (hP : P hash) :
    loadBlockIndexDB address cursor hash = want hash := by
  rw [loadBlockIndexDB]
  exact sweep_eq (fun _ ↦ {}) hwant hparent
    (fun a ha ↦ mem_sortedByHeight.mpr (AList.mem_keys.mp (hmem a ha)))
    (pairwise_sortedByHeight _ address) hP

end LoadedMap

/-! ## Both computations agree -/

namespace IndexState

variable {env : IndexEnv Block View World} {s : IndexState View World} {hash x : Uint256}
  {cursor : List (Uint256 × CDiskBlockIndex)}

/-- The cursor goes through what is on disk. -/
def Reads (s : IndexState View World) (cursor : List (Uint256 × CDiskBlockIndex)) : Prop :=
  ∀ hash entry, (hash, entry) ∈ cursor ↔ s.blocktree.lookup hash = some entry

open LoadedMap

/-- The entry of a block with its data, from memory. -/
def loaded (env : IndexEnv Block View World) (s : IndexState View World) (hash : Uint256) :
    LoadedIndex where
  pprev := s.chain.mapBlockIndex.pprev hash
  nHeight := s.chain.mapBlockIndex.nHeight hash
  nTx := s.nTx hash
  nBits := env.nBits hash

/-- What is kept in memory. -/
def chainTotals (s : IndexState View World) (hash : Uint256) : ChainTotals where
  nChainWork := s.chain.mapBlockIndex.nChainWork hash
  nChainTx := s.nChainTx hash

/-- What was on disk is as it is in memory. -/
theorem Totals.lookup_loadBlockIndexGuts (h : s.Totals env) (hread : s.Reads cursor)
    (hx : x ∈ s.blocktree) : (loadBlockIndexGuts cursor).lookup x = some (s.loaded env x) := by
  obtain ⟨entry, hl⟩ := Finmap.mem_iff.mp hx
  obtain ⟨hdata, rfl⟩ := h.disk x entry hl
  rw [LoadedMap.lookup_loadBlockIndexGuts ((hread x _).mpr hl)]
  · rw [ofDisk, loaded, diskBlockIndex]
    cases hp : s.chain.mapBlockIndex.pprev x with
    | none => rfl
    | some p =>
        have hne : p ≠ 0 := by
          rintro rfl
          exact h.inv.zero_notMem (BlockTree.pprev_mem hp)
        dsimp only [Option.getD_some]
        rw [if_neg hne]
  · intro entry' hmem
    exact (Option.some.inj (((hread x entry').mp hmem).symm.trans hl))

/-- **Loading computes what was kept**, for a block that is on disk with all before it. -/
theorem Totals.loadBlockIndexDB_eq (h : s.Totals env) (hread : s.Reads cursor)
    (address : Uint256 ↪ Nat) (hdisk : ∀ x ∈ s.chain.mapBlockIndex.lineage hash, x ∈ s.blocktree)
    (hlt : s.sumTx hash < 2 ^ 32) :
    loadBlockIndexDB address cursor hash = s.chainTotals hash := by
  set map := loadBlockIndexGuts cursor with hmap
  have hlookup : ∀ x ∈ s.chain.mapBlockIndex.lineage hash,
      map.lookup x = some (s.loaded env x) := fun x hx ↦
    h.lookup_loadBlockIndexGuts hread (hdisk x hx)
  have hget : ∀ x ∈ s.chain.mapBlockIndex.lineage hash, map.get x = s.loaded env x := by
    intro x hx
    rw [LoadedMap.get, hlookup x hx, Option.getD_some]
  have hdata : ∀ x ∈ s.chain.mapBlockIndex.lineage hash, s.chain.HasData x := by
    intro x hx
    obtain ⟨entry, hl⟩ := Finmap.mem_iff.mp (hdisk x hx)
    exact (h.disk x entry hl).1
  have hsum : ∀ x ∈ s.chain.mapBlockIndex.lineage hash, s.sumTx x < 2 ^ 32 := fun x hx ↦
    (Forest.pathSum_le_of_mem hx).trans_lt hlt
  have hparent : ∀ a b, a ∈ s.chain.mapBlockIndex.lineage hash →
      s.chain.mapBlockIndex.pprev a = some b → b ∈ s.chain.mapBlockIndex.lineage hash :=
    fun a b ha hb ↦ Forest.mem_lineage_trans (Forest.parent_mem_lineage hb) ha
  have hmem : ∀ x ∈ s.chain.mapBlockIndex.lineage hash, x ∈ map := by
    intro x hx
    rw [← AList.lookup_isSome, hlookup x hx]
    rfl
  refine LoadedMap.loadBlockIndexDB_eq s.chainTotals (· ∈ s.chain.mapBlockIndex.lineage hash) ?_ ?_
    hmem (Forest.self_mem_lineage _ hash)
  · -- the loop computes what `AddToBlockIndex` and `ReceivedBlockTransactions` did
    intro a ha
    have hwork := h.work a (h.inv.mem_entries (hdata a ha))
    rw [env.getBlockWork_eq] at hwork
    rw [totalsAfter, hget a ha, loaded, chainTotals, hwork,
      h.nChainTx_eq (hdata a ha) (hsum a ha)]
    have hlt := hsum a ha
    cases hp : s.chain.mapBlockIndex.pprev a with
    | none =>
        have hsumTx : s.sumTx a = s.nTx a := Forest.pathSum_root _ hp
        rw [hsumTx] at hlt ⊢
        rw [Option.map_none, Option.elim_none, Option.elim_none, Option.elim_none, Nat.zero_add,
          Nat.zero_add, Nat.mod_eq_of_lt hlt]
    | some b =>
        have hb := hparent a b ha hp
        have hsumTx : s.sumTx a = s.sumTx b + s.nTx a := Forest.pathSum_parent _ hp
        rw [hsumTx] at hlt ⊢
        rw [Option.map_some, Option.elim_some, Option.elim_some, Option.elim_some, chainTotals,
          h.nChainTx_eq (hdata b hb) (hsum b hb), Nat.mod_eq_of_lt hlt]
  · intro a b ha hp
    rw [hget a ha] at hp
    have hb := hparent a b ha hp
    refine ⟨hb, ?_⟩
    rw [hget a ha, hget b hb]
    have hheight := s.chain.mapBlockIndex.forest.height_parent hp
    exact (Nat.lt_succ_self _).trans_eq hheight.symm

end IndexState

/-! ## A chain that goes on

The hash of a block is one above that of the block before it, but for one block on top of the
genesis block.  Every block has three transactions. -/

def forkHash : Uint256 := 0x80000000

def countingBlockEnv : BlockEnv :=
  { sampleEnv with
    getBlockHash := fun header ↦ if header.nNonce = 0 then forkHash else header.hashPrevBlock + 1 }

def countingBlock (nBits : Nat) (hashPrev : Uint256) (nNonce : Nat) : CBlock :=
  { sampleBlock with hashPrevBlock := hashPrev, nBits := nBits, nNonce := nNonce }

theorem checkBlock_countingBlock (nBits : Nat) (hashPrev : Uint256) (nNonce : Nat)
    (nHeight : Int) :
    checkBlock countingBlockEnv (countingBlock nBits hashPrev nNonce) nHeight true true =
      .ok () := by
  have h : checkBlock countingBlockEnv (countingBlock 0 0 0) 0 true true = .ok () := by
    decide +kernel
  exact h

def countingEnv (nBits : Nat) : IndexEnv Uint256 Uint256 Unit :=
  { sampleChainEnv with
    hashPrevBlock := fun hash ↦ if hash = forkHash then 1 else hash - 1
    getBlockWork := fun _ ↦ getBlockWork nBits
    hashPrevBlock_genesis := rfl
    connectBlock := fun world _ pindex view ↦
      (world, pindex,
        if view ≠ pindex.pprev.getD 0 then .error .assertion else .ok pindex.blockHash)
    connectBlock_nStatus := fun world block pindex view ↦ ⟨_, _, rfl, id⟩
    connectBlock_ok := by
      intro world block pindex view view' h
      dsimp only at h
      split_ifs at h with hview
      exact ⟨not_not.mp hview, (Except.ok.inj h).symm⟩
    nBits := fun _ ↦ nBits
    getBlockWork_eq := fun _ ↦ rfl }

/-- The next block of the chain. -/
def countingArrival (nBits : Nat) (hashPrev : Uint256) (h0 : hashPrev + 1 ≠ 0)
    (hfork : hashPrev + 1 ≠ forkHash) : BlockArrival (countingEnv nBits) where
  block := countingBlock nBits hashPrev 1
  blockEnv := countingBlockEnv
  hash_ne_zero := h0
  hashPrevBlock_eq := (if_neg hfork).trans (add_sub_cancel_right hashPrev 1)
  nBits_eq := rfl

/-- The other block on top of the genesis block. -/
def forkArrival (nBits : Nat) (indexWritten : Bool) : BlockArrival (countingEnv nBits) where
  block := countingBlock nBits 1 0
  blockEnv := countingBlockEnv
  hash_ne_zero := show forkHash ≠ 0 by decide
  hashPrevBlock_eq := rfl
  nBits_eq := rfl
  indexWritten := indexWritten

theorem lt_add_one_of_ne_zero {x : Uint256} (h : x + 1 ≠ 0) : x < x + 1 := by
  have htoNat : (x + 1).toNat = (x.toNat + 1) % 2 ^ 256 := BitVec.toNat_add x 1
  rw [BitVec.lt_def, htoNat]
  rcases Nat.eq_or_lt_of_le (Nat.succ_le_of_lt x.isLt) with hmax | hlt
  · refine absurd (BitVec.eq_of_toNat_eq ?_) h
    rw [htoNat, ← Nat.succ_eq_add_one, hmax, Nat.mod_self]
    rfl
  · rw [Nat.mod_eq_of_lt hlt]
    exact Nat.lt_succ_self _

section

variable {nBits n : Nat} {s : IndexState Uint256 Unit} {hashPrev hash : Uint256}

theorem sound_countingArrival {h0 : hashPrev + 1 ≠ 0} {hfork : hashPrev + 1 ≠ forkHash} :
    IndexState.Sound (countingArrival nBits hashPrev h0 hfork) where
  checkBlock := checkBlock_countingBlock nBits hashPrev 1
  header := rfl
  isFinalTx := rfl
  coinbaseHeight := rfl
  stored := rfl

theorem countingEnv_neverCorrupt (nBits : Nat) :
    ChainState.NeverCorrupt (countingEnv nBits).toChainEnv := by
  intro world block pindex view level code reason h
  dsimp only [countingEnv] at h
  split_ifs at h with hview
  cases h

namespace IndexState

/-- A chain up to `hash`, with `n` blocks on top of the genesis block. -/
structure CountedTo (nBits : Nat) (s : IndexState Uint256 Unit) (hash : Uint256) (n : Nat) :
    Prop where
  totals : s.Totals (countingEnv nBits)
  orphans : s.mapOrphanBlocks = ∅
  le : ∀ x ∈ s.chain.mapBlockIndex.entries, x ≤ hash
  data : s.chain.HasData hash
  nTx : s.nTx hash ≤ 3
  sumTx : s.sumTx hash = 3 * n + 1

theorem CountedTo.processBlock (h : s.CountedTo nBits hashPrev n) (h0 : hashPrev + 1 ≠ 0)
    (hfork : hashPrev + 1 ≠ forkHash) :
    (s.processBlock (countingArrival nBits hashPrev h0 hfork) true none).1.CountedTo nBits
      (hashPrev + 1) (n + 1) := by
  set a := countingArrival nBits hashPrev h0 hfork with ha
  have hknown : (countingEnv nBits).hashPrevBlock a.hash = hashPrev := a.hashPrevBlock_eq
  have hprev := h.totals.inv.mem_entries h.data
  have hnew : a.hash ∉ s.chain.mapBlockIndex.entries :=
    fun hmem ↦ (BitVec.not_le.mpr (lt_add_one_of_ne_zero h0)) (h.le _ hmem)
  have horphans : a.hash ∉ s.mapOrphanBlocks := h.orphans ▸ Finset.notMem_empty _
  have hstep : IndexStep (countingEnv nBits) s (.processBlock a true none)
      (s.processBlock a true none).1 := ⟨0, rfl⟩
  obtain ⟨htotals, -, -⟩ := hstep.totals h.totals fun x hx ↦
    absurd hx (h.orphans ▸ Finset.notMem_empty x)
  obtain ⟨hmem, hdata, hnTx, hsum⟩ := receivedBlockTransactions_sums 3 true hnew
    (hknown.symm ▸ hprev)
  rw [sound_countingArrival.processBlock hnew horphans hprev h.data] at htotals ⊢
  constructor
  case totals => exact htotals
  case orphans => exact h.orphans
  case le =>
    intro x hx
    rcases hmem x hx with rfl | hx
    · exact BitVec.le_refl _
    · exact BitVec.le_trans (h.le x hx) (BitVec.le_of_lt (lt_add_one_of_ne_zero h0))
  case data => exact hdata
  case nTx => exact hnTx.le
  case sumTx =>
    rw [hknown, h.sumTx] at hsum
    exact hsum

/-- The new tip is connected, and its entry is written again. -/
theorem CountedTo.activateBestChain (h : s.CountedTo nBits hash n) :
    ∃ s', IndexStep (countingEnv nBits) s (.activateBestChain [hash]) s' ∧
      s'.CountedTo nBits hash n := by
  obtain ⟨fuel, ⟨chain, state, r⟩, hactivate⟩ := (countingEnv_neverCorrupt nBits).ends h.totals.inv
  have hdone := ChainState.activateBestChain_done h.totals.inv hactivate
  have htree := hdone.evolves.mapBlockIndex
  have hdata := (hdone.evolves.data hash).mpr h.data
  have htotals := (h.totals.with_chain hdone.inv htree hdone.evolves.data).writeBlockIndex hdata
  have hrun : (IndexCall.activateBestChain [hash] : IndexCall (countingEnv nBits)).run fuel s =
      some (writeBlockIndex (countingEnv nBits) { s with chain := chain } hash) := by
    rw [IndexCall.run, if_pos (List.all_eq_true.mpr fun x hx ↦ List.mem_singleton.mp hx ▸ h.data),
      hactivate]
    rfl
  have hsum : (writeBlockIndex (countingEnv nBits) { s with chain := chain } hash).sumTx hash =
      s.sumTx hash := by
    rw [IndexState.sumTx, IndexState.sumTx, chain_writeBlockIndex, htree]
    rfl
  exact ⟨_, ⟨fuel, hrun⟩, htotals, h.orphans, htree ▸ h.le, hdata, h.nTx, hsum.trans h.sumTx⟩

theorem CountedTo.initBlockIndex (nBits : Nat) :
    ((IndexState.start 0 ()).initBlockIndex (countingEnv nBits) (.ok ()) true).1.CountedTo nBits 1
      0 := by
  obtain ⟨htotals, hext⟩ := (Totals.start (countingEnv nBits) 0 ()).initBlockIndex (.ok ()) true
  constructor
  case totals => exact htotals
  case orphans => exact hext.orphans
  case le =>
    intro x hx
    rcases hext.mem x hx with rfl | hx
    · exact BitVec.le_refl _
    · exact absurd hx Finmap.notMem_empty
  case data => rfl
  case nTx => exact Nat.le_of_ble_eq_true rfl
  case sumTx => exact Forest.pathSum_root _ rfl

/-- The chain goes on for as long as there are hashes. -/
theorem exists_countedTo (nBits n : Nat) (hn : n + 1 < 2 ^ 31) :
    ∃ calls s, Run (IndexStep (countingEnv nBits)) (IndexState.start 0 ()) calls s ∧
      s.CountedTo nBits (BitVec.ofNat 256 (n + 1)) n := by
  induction n with
  | zero =>
      obtain ⟨s, hstep, hs⟩ := (CountedTo.initBlockIndex nBits).activateBestChain
      have hinit : IndexStep (countingEnv nBits) (IndexState.start 0 ())
          (.initBlockIndex (.ok ()) true) _ := ⟨0, rfl⟩
      exact ⟨_, s, .cons hinit (.cons hstep (.nil s)), hs⟩
  | succ n ih =>
      obtain ⟨calls, s, hrun, hs⟩ := ih (Nat.lt_of_succ_lt hn)
      have hsucc : BitVec.ofNat 256 (n + 1 + 1) = BitVec.ofNat 256 (n + 1) + 1 :=
        BitVec.ofNat_add (n + 1) 1
      have htoNat : (BitVec.ofNat 256 (n + 1) + 1).toNat = n + 1 + 1 := by
        rw [← hsucc, BitVec.toNat_ofNat, Nat.mod_eq_of_lt (hn.trans (by decide))]
      have h0 : BitVec.ofNat 256 (n + 1) + 1 ≠ 0 := by
        intro heq
        rw [heq] at htoNat
        exact absurd htoNat.symm (Nat.succ_ne_zero _)
      have hfork : BitVec.ofNat 256 (n + 1) + 1 ≠ forkHash := by
        intro heq
        rw [heq] at htoNat
        exact hn.ne htoNat.symm
      obtain ⟨s', hstep, hs'⟩ := (hs.processBlock h0 hfork).activateBestChain
      have hprocess : IndexStep (countingEnv nBits) s
          (.processBlock (countingArrival nBits _ h0 hfork) true none) _ := ⟨0, rfl⟩
      have hrun' := hrun.append (.cons hprocess (.cons hstep (.nil s')))
      exact ⟨_, s', hrun', hsucc ▸ hs'⟩

end IndexState

end

/-- `nBits` of the limit and of the target one. -/
def limitBits : Nat := 0x1e0fffff
def leastBits : Nat := 0x03000001

/-- The chain grows by two blocks, and then there are two blocks on the other side. -/
def forkCalls (indexWritten : Bool) : List (IndexCall (countingEnv limitBits)) :=
  [.initBlockIndex (.ok ()) true, .activateBestChain [1],
    .processBlock (countingArrival limitBits 1 (by decide) (by decide)) true none,
    .activateBestChain [2],
    .processBlock (countingArrival limitBits 2 (by decide) (by decide)) true none,
    .activateBestChain [3],
    .processBlock (forkArrival limitBits indexWritten) true none,
    .processBlock (countingArrival limitBits forkHash (by decide) (by decide)) true none,
    .activateBestChain []]

/-- What is on disk where the index was not written for the first block on the other side. -/
def forkCursor : List (Uint256 × CDiskBlockIndex) :=
  [(1, { nTx := 1, nBits := limitBits }),
    (2, { hashPrev := 1, nHeight := 1, nTx := 3, nBits := limitBits }),
    (3, { hashPrev := 2, nHeight := 2, nTx := 3, nBits := limitBits }),
    (forkHash + 1, { hashPrev := forkHash, nHeight := 2, nTx := 3, nBits := limitBits })]

def forkDisk : Finmap fun _ : Uint256 ↦ CDiskBlockIndex :=
  (forkCursor.map fun r ↦ ⟨r.1, r.2⟩).toFinmap

theorem reads_forkCursor {s : IndexState Uint256 Unit} (h : s.blocktree = forkDisk) :
    s.Reads forkCursor := by
  have hnodup : List.NodupKeys (β := fun _ ↦ CDiskBlockIndex)
      (forkCursor.map fun r ↦ ⟨r.1, r.2⟩) := by
    rw [List.NodupKeys]
    decide
  intro hash entry
  rw [h, forkDisk, Finmap.dlookup_list_toFinmap, ← Option.mem_def, List.mem_dlookup_iff hnodup,
    List.mem_map]
  constructor
  · exact fun hmem ↦ ⟨_, hmem, rfl⟩
  · rintro ⟨r, hmem, heq⟩
    cases heq
    exact hmem

open LoadedMap in
theorem nChainTx_forkCursor :
    (loadBlockIndexDB addressOfHash forkCursor (forkHash + 1)).nChainTx = 3 := by
  have hfirst : (loadBlockIndexGuts forkCursor).get forkHash = {} := by decide +kernel
  have hsecond : (loadBlockIndexGuts forkCursor).get (forkHash + 1) =
      { pprev := some forkHash, nHeight := 2, nTx := 3, nBits := limitBits } := by decide +kernel
  -- the parent was not on disk, so it is empty
  let want (x : Uint256) : ChainTotals :=
    (loadBlockIndexGuts forkCursor).totalsAfter (if x = forkHash then none else some {}) x
  have hload : loadBlockIndexDB addressOfHash forkCursor (forkHash + 1) = want (forkHash + 1) := by
    apply loadBlockIndexDB_eq want fun x ↦ x = forkHash ∨ x = forkHash + 1
    · rintro x (rfl | rfl)
      · rw [hfirst]
        rfl
      · rw [hsecond]
        decide +kernel
    · rintro x b (rfl | rfl) hb
      · rw [hfirst] at hb
        cases hb
      · rw [hsecond] at hb ⊢
        obtain rfl := Option.some.inj hb
        exact ⟨Or.inl rfl, hfirst ▸ Nat.two_pos⟩
    · rintro x (rfl | rfl)
      · decide +kernel
      · decide +kernel
    · exact Or.inr rfl
  rw [hload]
  decide +kernel

open IndexState in
/-- **The totals of the block index.**  Wherever the calls lead, a block with its data has the data
of all before it, and its height is one above that of its parent.  As long as they fit into their
fields, its work and its number of transactions are the sums over the chain.  Candidates have
their data.  Loading computes the same numbers for every block that is on disk with all before it,
and these are all blocks with their data if every write of the index succeeded. -/
theorem blockIndex_totals (env : IndexEnv Block View World) {coins : View} {world : World}
    {calls : List (IndexCall env)} {s : IndexState View World}
    (hrun : Run (IndexStep env) (IndexState.start coins world) calls s) :
    (∀ hash, s.chain.HasData hash →
      (∀ x ∈ s.chain.mapBlockIndex.lineage hash, s.chain.HasData x) ∧
      (s.sumTx hash < 2 ^ 32 → s.nChainTx hash = s.sumTx hash ∧ 0 < s.nChainTx hash) ∧
      (s.sumWork env hash < 2 ^ 256 →
        s.chain.mapBlockIndex.nChainWork hash = s.sumWork env hash ∧
        ∀ hashPrev, s.chain.mapBlockIndex.pprev hash = some hashPrev →
          TargetAccepted (env.nBits hash) →
          s.chain.mapBlockIndex.nChainWork hashPrev < s.chain.mapBlockIndex.nChainWork hash) ∧
      ∀ hashPrev, s.chain.mapBlockIndex.pprev hash = some hashPrev →
        s.chain.mapBlockIndex.nHeight hash = s.chain.mapBlockIndex.nHeight hashPrev + 1) ∧
    (∀ hash ∈ s.chain.setBlockIndexValid, s.chain.HasData hash) ∧
    (∀ address cursor, s.Reads cursor → ∀ hash,
      (∀ x ∈ s.chain.mapBlockIndex.lineage hash, x ∈ s.blocktree) → s.sumTx hash < 2 ^ 32 →
      LoadedMap.loadBlockIndexDB address cursor hash = s.chainTotals hash) ∧
    ((∀ call ∈ calls, call.writes = true) →
      ∀ hash, s.chain.HasData hash ↔ hash ∈ s.blocktree) := by
  have h := totals_of_run hrun
  refine ⟨fun hash hdata ↦ ⟨h.inv.data_of_lineage hdata, fun hlt ↦ ?_, fun hlt ↦ ?_, ?_⟩, ?_, ?_,
    ?_⟩
  · have heq := h.nChainTx_eq hdata hlt
    exact ⟨heq, heq ▸ h.sumTx_pos hdata⟩
  · have heq : s.chain.mapBlockIndex.nChainWork hash = s.sumWork env hash := by
      rw [h.nChainWork_eq hdata, Nat.mod_eq_of_lt hlt]
    refine ⟨heq, fun hashPrev hprev haccepted ↦ ?_⟩
    have hsum : s.sumWork env hash =
        s.sumWork env hashPrev + getBlockWork (env.nBits hash) := Forest.pathSum_parent _ hprev
    have hpos := getBlockWork_pos haccepted
    rw [heq, h.nChainWork_eq (h.inv.pprev_data hash hashPrev hprev), Nat.mod_eq_of_lt (by omega)]
    omega
  · exact fun hashPrev hprev ↦ s.chain.mapBlockIndex.forest.height_parent hprev
  · exact fun hash hmem ↦ ((h.inv.mem_valid hash).mp hmem).1
  · exact fun address cursor hread hash hdisk hlt ↦
      h.loadBlockIndexDB_eq hread address hdisk hlt
  · intro hwrites hash
    refine ⟨allWritten_of_run hrun hwrites hash, fun hmem ↦ ?_⟩
    obtain ⟨entry, hl⟩ := Finmap.mem_iff.mp hmem
    exact (h.disk hash entry hl).1

open IndexState in
/-- With everything written, what is loaded is what was kept. -/
theorem blockIndex_totals_sample :
    ∃ s, Run (IndexStep (countingEnv limitBits)) (IndexState.start 0 ()) (forkCalls true) s ∧
      s.chain.HasData (forkHash + 1) ∧
      (s.nChainTx (forkHash + 1) = s.sumTx (forkHash + 1) ∧ 0 < s.nChainTx (forkHash + 1)) ∧
      ∀ address cursor, s.Reads cursor →
        LoadedMap.loadBlockIndexDB address cursor (forkHash + 1) =
          s.chainTotals (forkHash + 1) := by
  have hplay : (IndexCall.runAll 9 (IndexState.start 0 ()) (forkCalls true)).any fun s ↦
      (s.chain.status (forkHash + 1)).haveData && decide (s.sumTx (forkHash + 1) = 7) &&
        (s.chain.mapBlockIndex.lineage (forkHash + 1)).all fun x ↦ decide (x ∈ s.blocktree) := by
    decide +kernel
  obtain ⟨s, hrun, htest⟩ := IndexCall.exists_run_of_test hplay
  simp only [Bool.and_eq_true, decide_eq_true_eq, List.all_eq_true] at htest
  obtain ⟨⟨hdata, hsum⟩, hdisk⟩ := htest
  have hlt : s.sumTx (forkHash + 1) < 2 ^ 32 := by
    rw [hsum]
    decide
  obtain ⟨hblocks, -, hload, -⟩ := blockIndex_totals (countingEnv limitBits) hrun
  exact ⟨s, hrun, hdata, (hblocks _ hdata).2.1 hlt,
    fun address cursor hread ↦ hload address cursor hread _ hdisk hlt⟩

open IndexState in
/-- A chain of 1431655765 blocks with three transactions each has 2 ^ 32 transactions with the
genesis block, and counts none.  Two blocks of the least target have the work 2 ^ 256, and none is
counted.  And where the index could not be written for a block that is not connected, what is
loaded of the next block leaves out all before it. -/
theorem blockIndex_totals_fails :
    (∃ calls s hash, Run (IndexStep (countingEnv limitBits)) (IndexState.start 0 ()) calls s ∧
      s.chain.HasData hash ∧ s.nChainTx hash = 0 ∧ s.sumTx hash = 2 ^ 32) ∧
    (∃ calls s, Run (IndexStep (countingEnv leastBits)) (IndexState.start 0 ()) calls s ∧
      s.chain.HasData 2 ∧ s.chain.mapBlockIndex.pprev 2 = some 1 ∧ TargetAccepted leastBits ∧
      s.chain.mapBlockIndex.nChainWork 2 = 0 ∧ s.chain.mapBlockIndex.nChainWork 1 = 2 ^ 255 ∧
      s.sumWork (countingEnv leastBits) 2 = 2 ^ 256) ∧
    ∃ s, Run (IndexStep (countingEnv limitBits)) (IndexState.start 0 ()) (forkCalls false) s ∧
      s.chain.chainActive = [1, 2, 3] ∧ s.Reads forkCursor ∧ s.chain.HasData (forkHash + 1) ∧
      forkHash + 1 ∈ s.blocktree ∧ s.nChainTx (forkHash + 1) = 7 ∧
      (LoadedMap.loadBlockIndexDB addressOfHash forkCursor (forkHash + 1)).nChainTx = 3 := by
  refine ⟨?_, ?_, ?_⟩
  · obtain ⟨calls, s, hrun, hs⟩ := exists_countedTo limitBits 1431655765 (by decide)
    exact ⟨calls, s, _, hrun, hs.data,
      hs.totals.nChainTx_eq_zero hs.data (hs.nTx.trans_lt (by decide)) hs.sumTx, hs.sumTx⟩
  · have hplay : (IndexCall.runAll 9 (IndexState.start 0 ())
        ([.initBlockIndex (.ok ()) true, .activateBestChain [1],
          .processBlock (countingArrival leastBits 1 (by decide) (by decide)) true none,
          .activateBestChain []] : List (IndexCall (countingEnv leastBits)))).any fun s ↦
        (s.chain.status 2).haveData && decide (s.chain.mapBlockIndex.pprev 2 = some 1) &&
          decide (s.chain.mapBlockIndex.nChainWork 2 = 0) &&
          decide (s.chain.mapBlockIndex.nChainWork 1 = 2 ^ 255) &&
          decide (s.sumWork (countingEnv leastBits) 2 = 2 ^ 256) := by
      decide +kernel
    obtain ⟨s, hrun, htest⟩ := IndexCall.exists_run_of_test hplay
    simp only [Bool.and_eq_true, decide_eq_true_eq] at htest
    obtain ⟨⟨⟨⟨hdata, hprev⟩, hzero⟩, hwork⟩, hsum⟩ := htest
    exact ⟨_, s, hrun, hdata, hprev, ⟨by decide +kernel, by decide +kernel⟩, hzero, hwork, hsum⟩
  · have hplay : (IndexCall.runAll 9 (IndexState.start 0 ()) (forkCalls false)).any fun s ↦
        decide (s.chain.chainActive = [1, 2, 3]) && (s.chain.status (forkHash + 1)).haveData &&
          decide (s.nChainTx (forkHash + 1) = 7) && decide (s.blocktree = forkDisk) := by
      decide +kernel
    obtain ⟨s, hrun, htest⟩ := IndexCall.exists_run_of_test hplay
    simp only [Bool.and_eq_true, decide_eq_true_eq] at htest
    obtain ⟨⟨⟨hactive, hdata⟩, hcount⟩, hdisk⟩ := htest
    have hmem : forkHash + 1 ∈ s.blocktree := by
      rw [hdisk]
      decide +kernel
    exact ⟨s, hrun, hactive, reads_forkCursor hdisk, hdata, hmem, hcount, nChainTx_forkCursor⟩

end Fedoracoin
