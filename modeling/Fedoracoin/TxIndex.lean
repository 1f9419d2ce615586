import Fedoracoin.BlockFile
import Fedoracoin.Undo

/-!
# The transaction index

With `-txindex`, `ConnectBlock` records where in the block files each transaction is, and
`GetTransaction` reads it back.  The recorded offset is accumulated from `GetSerializeSize` and
counted from the end of the header, so it is right because sizes are numbers of bytes and because
the block was itself read from its place in the file.
-/

namespace Fedoracoin

open Wire

/-! ## Recording -/

/-- A transaction in a block file; the offset is counted from the end of the block's header. -/
structure CDiskTxPos extends CDiskBlockPos where
  nTxOffset : Nat := 0
deriving DecidableEq

/-- The entries of the block tree database whose keys are transaction ids. -/
abbrev TxIndex := Finmap fun _ : Uint256 ↦ CDiskTxPos

/-- `vPos`, as the loop over the transactions fills it from `pos` on. -/
def vPosLoop (getTxHash : CTransaction → Uint256) (pos : CDiskTxPos) :
    List CTransaction → List (Uint256 × CDiskTxPos)
  | [] => []
  | tx :: vtx =>
      (getTxHash tx, pos) ::
        vPosLoop getTxHash { pos with nTxOffset := pos.nTxOffset + tx.getSerializeSize } vtx

/-- `vPos` of `ConnectBlock`. -/
def connectVPos (env : BlockEnv) (block : CBlock) (blockPos : CDiskBlockPos) :
    List (Uint256 × CDiskTxPos) :=
  vPosLoop env.getTxHash
    { toCDiskBlockPos := blockPos, nTxOffset := getSizeOfCompactSize block.vtx.length } block.vtx

/-- `WriteTxIndex`: one batch, in the order of the vector. -/
def writeTxIndex (txindex : TxIndex) (vect : List (Uint256 × CDiskTxPos)) : TxIndex :=
  vect.foldl (fun txindex p ↦ txindex.insert p.1 p.2) txindex

/-- `ConnectBlock` with the transaction index; `blockPos` is `pindex->GetBlockPos()`. -/
def connectBlockIndexed (env : BlockEnv) (io : UndoIO) (fuel : Nat) (block : CBlock)
    (pindex : ConnectIndex) (blockPos : CDiskBlockPos) (view : CCoinsView)
    (fJustCheck fTxIndex : Bool) (txindex : TxIndex) :
    (ConnectIndex × Except Failure Connected) × TxIndex :=
  match connectBlock env io fuel block pindex view fJustCheck with
  | (pindex, .error e) => ((pindex, .error e), txindex)
  | (pindex, .ok r) =>
      -- the genesis block and a mere check return before the index is written
      if env.getBlockHash block.toCBlockHeader = env.hashGenesisBlock ∨ fJustCheck ∨ !fTxIndex then
        ((pindex, .ok r), txindex)
      else ((pindex, .ok r), writeTxIndex txindex (connectVPos env block blockPos))

/-! ## Reading -/

/-- The header of the block, and the transaction `nTxOffset` bytes after it. -/
def readIndexedTx (files : BlockFiles) (postx : CDiskTxPos) :
    Option (CBlockHeader × CTransaction) := do
  let file ← openBlockFile files postx.toCDiskBlockPos
  let (header, file) ← (CBlockHeader.unserialize file).toOption
  let (txOut, _) ← (CTransaction.unserialize (file.drop postx.nTxOffset)).toOption
  return (header, txOut)

/-- What `GetTransaction` does with `fTxIndex` set, for a transaction that is not in the memory
pool: the transaction and the hash of its block, or `false`.  There is no value if the index does
not have the transaction, and the search goes on. -/
def getTransactionIndexed (env : BlockEnv) (files : BlockFiles) (txindex : TxIndex)
    (hash : Uint256) : Option (Except Unit (CTransaction × Uint256)) := do
  let postx ← txindex.lookup hash
  match readIndexedTx files postx with
  | none => some (.error ())
  | some (header, txOut) =>
      if env.getTxHash txOut ≠ hash then some (.error ())
      else some (.ok (txOut, env.getBlockHash header))

/-! ## What is recorded -/

variable {env : BlockEnv} {block : CBlock} {blockPos : CDiskBlockPos} {files : BlockFiles}
  {pos : CDiskTxPos} {vtx : List CTransaction} {txindex : TxIndex} {i : Nat}

/-- The entry of the `i`-th transaction: the sizes of the ones before it are added up. -/
theorem vPosLoop_getElem? (hi : i < vtx.length) :
    (vPosLoop env.getTxHash pos vtx)[i]? = some (env.getTxHash vtx[i],
      { pos with nTxOffset :=
          pos.nTxOffset + ((vtx.take i).map CTransaction.getSerializeSize).sum }) := by
  induction vtx generalizing pos i with
  | nil => exact absurd hi (Nat.not_lt_zero i)
  | cons tx vtx ih =>
      cases i with
      | zero => rfl
      | succ i =>
          rw [vPosLoop, List.getElem?_cons_succ, ih (Nat.lt_of_succ_lt_succ hi),
            List.take_succ_cons, List.map_cons, List.sum_cons, ← Nat.add_assoc]
          rfl

theorem map_fst_vPosLoop :
    (vPosLoop env.getTxHash pos vtx).map Prod.fst = vtx.map env.getTxHash := by
  induction vtx generalizing pos with
  | nil => rfl
  | cons tx vtx ih => rw [vPosLoop, List.map_cons, ih, List.map_cons]

/-- With distinct keys every entry of a batch is there afterwards. -/
theorem lookup_writeTxIndex (txindex : TxIndex) {vect : List (Uint256 × CDiskTxPos)}
    (hnodup : (vect.map Prod.fst).Nodup) {p : Uint256 × CDiskTxPos} (hp : p ∈ vect) :
    (writeTxIndex txindex vect).lookup p.1 = some p.2 := by
  -- from the back, since a later entry replaces an earlier one
  induction vect using List.reverseRecOn with
  | nil => exact absurd hp List.not_mem_nil
  | append_singleton vect q ih =>
      rw [List.map_append, List.map_singleton] at hnodup
      have hq : q.1 ∉ vect.map Prod.fst := fun h ↦
        List.disjoint_of_nodup_append hnodup h List.mem_cons_self
      rw [writeTxIndex, List.foldl_append, List.foldl_cons, List.foldl_nil]
      rcases List.mem_append.mp hp with hmem | hmem
      · have hne : p.1 ≠ q.1 := fun h ↦ hq (h ▸ List.mem_map_of_mem hmem)
        rw [Finmap.lookup_insert_of_ne _ hne]
        exact ih (List.Nodup.of_append_left hnodup) hmem
      · rw [List.mem_singleton.mp hmem, Finmap.lookup_insert]

/-! ## Reading what is recorded -/

/-- The transaction at the offset that is accumulated for it. -/
theorem readIndexedTx_of_unserialize {filein rest : List UInt8}
    (hopen : openBlockFile files blockPos = some filein)
    (hread : CBlock.unserialize filein = .ok (block, rest)) (hi : i < block.vtx.length) :
    readIndexedTx files { toCDiskBlockPos := blockPos, nTxOffset :=
        getSizeOfCompactSize block.vtx.length +
          ((block.vtx.take i).map CTransaction.getSerializeSize).sum } =
      some (block.toCBlockHeader, block.vtx[i]) := by
  obtain ⟨header, s, hheader, h⟩ := bind_ok hread
  obtain ⟨vtx, s', hvtx, h⟩ := bind_ok h
  obtain ⟨rfl, rfl⟩ := pure_ok h
  obtain ⟨nSize, s'', hsize, hmany⟩ := bind_ok hvtx
  obtain ⟨rfl, -⟩ := readCompactSize_ok hsize
  have hlen := (many_ok CTransaction.takes_unserialize hmany).2
  obtain ⟨r, htx⟩ := many_getElem CTransaction.takes_unserialize hmany hi
  simp only [CTransaction.length_serialize] at htx
  have hdrop : (writeCompactSize nSize ++ s'').drop (getSizeOfCompactSize vtx.length +
      ((vtx.take i).map CTransaction.getSerializeSize).sum) =
      s''.drop ((vtx.take i).map CTransaction.getSerializeSize).sum := by
    rw [hlen, ← length_writeCompactSize, ← List.drop_drop, List.drop_left' rfl]
  simp only [readIndexedTx, hopen, hheader, Except.toOption, Option.bind_eq_bind,
    Option.bind_some, hdrop]
  rw [htx]
  rfl

/-- Every transaction of a block that was read from its place and recorded is found again. -/
theorem getTransactionIndexed_writeTxIndex {checkProofOfWork : CBlockHeader → Bool}
    (hread : readBlockFromDisk checkProofOfWork files blockPos = some block)
    (hnodup : (block.vtx.map env.getTxHash).Nodup) (hi : i < block.vtx.length) :
    ∃ postx, (writeTxIndex txindex (connectVPos env block blockPos)).lookup
        (env.getTxHash block.vtx[i]) = some postx ∧
      postx.toCDiskBlockPos = blockPos ∧
      readIndexedTx files postx = some (block.toCBlockHeader, block.vtx[i]) ∧
      getTransactionIndexed env files (writeTxIndex txindex (connectVPos env block blockPos))
          (env.getTxHash block.vtx[i]) =
        some (.ok (block.vtx[i], env.getBlockHash block.toCBlockHeader)) := by
  obtain ⟨filein, rest, hopen, hblock⟩ := readBlockFromDisk_ok hread
  have hkeys : ((connectVPos env block blockPos).map Prod.fst).Nodup := by
    rw [connectVPos, map_fst_vPosLoop]
    exact hnodup
  have hlookup := lookup_writeTxIndex txindex hkeys
    (List.mem_of_getElem? (vPosLoop_getElem? hi))
  have hreads := readIndexedTx_of_unserialize hopen hblock hi
  refine ⟨_, hlookup, rfl, hreads, ?_⟩
  rw [getTransactionIndexed, hlookup]
  simp only [Option.bind_eq_bind, Option.bind_some]
  rw [hreads]
  simp

/-- **The transaction index.**  Sizes are numbers of bytes, reading undoes writing, and for a block
that was read from its place and accepted by `ConnectBlock` with the index on, the position
recorded for each of its transactions is where `GetTransaction` finds that transaction.  The
genesis block is accepted without its transactions being recorded. -/
theorem txIndex_correct :
    (∀ tx : CTransaction, tx.serialize.length = tx.getSerializeSize) ∧
    (∀ tx : CTransaction, tx.WellTyped → tx.getSerializeSize ≤ maxSize →
      Reads CTransaction.unserialize tx.serialize tx) ∧
    (∀ block : CBlock, block.WellTyped → block.getSerializeSize ≤ maxSize →
      Reads CBlock.unserialize block.serialize block) ∧
    ∀ (env : BlockEnv) (io : UndoIO) (fuel : Nat) (block : CBlock) (pindex pindex' : ConnectIndex)
      (blockPos : CDiskBlockPos) (view : CCoinsView) (txindex txindex' : TxIndex) (r : Connected)
      (checkProofOfWork : CBlockHeader → Bool) (files : BlockFiles),
      readBlockFromDisk checkProofOfWork files blockPos = some block →
      connectBlockIndexed env io fuel block pindex blockPos view false true txindex =
        ((pindex', .ok r), txindex') →
      if env.getBlockHash block.toCBlockHeader = env.hashGenesisBlock then txindex' = txindex
      else ∀ (i : Nat) (hi : i < block.vtx.length), ∃ postx,
        txindex'.lookup (env.getTxHash block.vtx[i]) = some postx ∧
        postx.toCDiskBlockPos = blockPos ∧
        readIndexedTx files postx = some (block.toCBlockHeader, block.vtx[i]) ∧
        getTransactionIndexed env files txindex' (env.getTxHash block.vtx[i]) =
          some (.ok (block.vtx[i], env.getBlockHash block.toCBlockHeader)) := by
  refine ⟨CTransaction.length_serialize, fun tx ↦ CTransaction.reads_unserialize,
    fun block ↦ CBlock.reads_unserialize, ?_⟩
  intro env io fuel block pindex pindex' blockPos view txindex txindex' r checkProofOfWork files
    hread hconn
  rw [connectBlockIndexed] at hconn
  cases hc : connectBlock env io fuel block pindex view false with
  | mk pindex₁ result =>
      rw [hc] at hconn
      cases result with
      | error e => exact absurd (Prod.mk.inj (Prod.mk.inj hconn).1).2 (by simp)
      | ok r₁ =>
          have hshape : BlockShape env block := by
            rw [connectBlock] at hc
            cases hcheck : checkBlock env block pindex.nHeight (!false) (!false) with
            | error e =>
                rw [hcheck] at hc
                exact absurd (Prod.mk.inj hc).2 (by simp)
            | ok _ => exact checkBlock_shape hcheck
          by_cases hgen : env.getBlockHash block.toCBlockHeader = env.hashGenesisBlock
          · rw [if_pos hgen]
            simp only [hgen, true_or, if_true] at hconn
            exact (Prod.mk.inj hconn).2.symm
          · rw [if_neg hgen]
            simp only [hgen, Bool.not_true, Bool.false_eq_true, or_self, if_false] at hconn
            obtain rfl := (Prod.mk.inj hconn).2
            intro i hi
            exact getTransactionIndexed_writeTxIndex hread hshape.nodup hi

theorem sampleBlock_wellTyped : sampleBlock.WellTyped where
  header := ⟨by decide, by decide, by decide, by decide⟩
  vtx := by
    simp only [sampleBlock, List.forall_mem_cons]
    refine ⟨⟨by decide, ?_, by decide⟩, ⟨by decide, ?_, by decide⟩, ⟨by decide, ?_, by decide⟩,
      by simp⟩ <;> exact List.forall_mem_singleton.mpr ⟨by decide, by decide⟩

/-- A block of three transactions in a file that held five bytes. -/
theorem txIndex_correct_sample :
    ∃ files pos pindex' r txindex',
      writeBlockToDisk [1, 2, 3, 4] (fun _ ↦ some [0, 0, 0, 0, 0]) sampleBlock ⟨2, 5⟩ =
        some (files, pos) ∧ pos = ⟨2, 13⟩ ∧
      connectBlockIndexed sampleEnv {} 1 sampleBlock sampleIndex pos (sampleView 5) false true ∅ =
        ((pindex', .ok r), txindex') ∧
      getTransactionIndexed sampleEnv files txindex' 3 = some (.ok (sampleBlock.vtx[2], 8)) := by
  have hclean : roundTripClean sampleEnv sampleBlock sampleIndex (sampleView 5) = some true := by
    decide +kernel
  obtain ⟨pindex', r, _, hconn, _⟩ := connects_of_roundTripClean hclean
  have hwrite : writeBlockToDisk [1, 2, 3, 4] (fun _ ↦ some [0, 0, 0, 0, 0]) sampleBlock ⟨2, 5⟩ =
      some (_, ⟨2, 13⟩) := rfl
  have hread : readBlockFromDisk (fun _ ↦ true) _ ⟨2, 13⟩ = some sampleBlock :=
    readBlockFromDisk_writeBlockToDisk sampleBlock_wellTyped (by decide) rfl hwrite
  have hindexed : connectBlockIndexed sampleEnv {} 1 sampleBlock sampleIndex ⟨2, 13⟩ (sampleView 5)
      false true ∅ = ((pindex', .ok r),
        writeTxIndex ∅ (connectVPos sampleEnv sampleBlock ⟨2, 13⟩)) := by
    rw [connectBlockIndexed, hconn]
    rfl
  have h := txIndex_correct.2.2.2 sampleEnv {} 1 sampleBlock sampleIndex pindex' ⟨2, 13⟩
    (sampleView 5) ∅ _ r _ _ hread hindexed
  rw [if_neg (by decide)] at h
  obtain ⟨postx, -, -, -, hget⟩ := h 2 (by decide)
  exact ⟨_, _, pindex', r, _, hwrite, rfl, hindexed, hget⟩

end Fedoracoin
