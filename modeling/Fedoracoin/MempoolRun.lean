import Fedoracoin.MempoolBacked

/-!
# Runs of the pool

Over every run of `AcceptToMemoryPool`, `ConnectTip` and `DisconnectTip` the inputs of the
pool refer to coins of `pcoinsTip` or to transactions of the pool, and the coinbases they
spend are mature, as long as no `WriteChainState` fails and whenever a block is disconnected
no transaction of the pool spends its coinbase or one that is not mature one block earlier
(`mempool_inputsBacked`).  `DisconnectTip` does not look at these: it puts back the
transactions of the block but does not check again those that were in the pool.
-/

namespace Fedoracoin

open CTxMemPool

/-! ## What is claimed of a state -/

/-- What `CTxMemPool::check` asserts of the inputs: they are available, or outputs of another
transaction of the pool. -/
def MempoolState.InputsUnspent (env : BlockEnv) (s : MempoolState) : Prop :=
  ∀ tx ∈ s.mempool.txs, ∀ txin ∈ tx.vin,
    (s.pcoinsTip.getCoins txin.prevout.hash).isAvailable txin.prevout.n = true ∨
      ∃ tx2 ∈ s.mempool.txs, tx2 ≠ tx ∧ env.getTxHash tx2 = txin.prevout.hash ∧
        ∃ txout, tx2.vout[txin.prevout.n]? = some txout ∧ txout.isNull = false

/-- The maturity rule of `CheckInputs` for the coinbases that the pool spends, at the next
height. -/
def MempoolState.CoinbasesMature (env : BlockEnv) (s : MempoolState) : Prop :=
  ∀ tx ∈ s.mempool.txs, ∀ txin ∈ tx.vin,
    (s.pcoinsTip.getCoins txin.prevout.hash).isAvailable txin.prevout.n = true →
    (s.pcoinsTip.getCoins txin.prevout.hash).fCoinBase = true →
    Mature env.mapBlockIndex s.pcoinsTip (s.pcoinsTip.getCoins txin.prevout.hash).nHeight

structure MempoolState.InputsBacked (env : BlockEnv) (s : MempoolState) : Prop where
  unspent : s.InputsUnspent env
  mature : s.CoinbasesMature env

/-! ## The condition on a step -/

/-- No transaction of the pool depends on the coinbase of the block that is disconnected, or on
its height. -/
structure MempoolState.Undisturbed (node : MempoolNode) (s : MempoolState) (call : MempoolCall) :
    Prop where
  coinbase : ∀ block, node.readBlockFromDisk call = some block →
    ∀ cb ∈ block.vtx, cb.isCoinBase = true → ∀ tx ∈ s.mempool.txs, ∀ txin ∈ tx.vin,
      node.getTxHash cb ≠ txin.prevout.hash
  mature : ∀ tx ∈ s.mempool.txs, ∀ txin ∈ tx.vin,
    (s.pcoinsTip.getCoins txin.prevout.hash).isAvailable txin.prevout.n = true →
    (s.pcoinsTip.getCoins txin.prevout.hash).fCoinBase = true →
    getRequiredMaturityDepth (s.pcoinsTip.getCoins txin.prevout.hash).nHeight ≤
      call.pindex.nHeight - (s.pcoinsTip.getCoins txin.prevout.hash).nHeight

/-- The condition: `WriteChainState` does not fail, and a block that is disconnected disturbs
nothing. -/
def MempoolState.Op.Safe (node : MempoolNode) (s : MempoolState) : MempoolState.Op → Prop
  | .accept _ _ => True
  | .connectTip call => writeChainState call.writeIO = .ok ()
  | .disconnectTip call => writeChainState call.writeIO = .ok () ∧ s.Undisturbed node call

/-- A step that meets the condition. -/
def MempoolState.SafeStep (node : MempoolNode) (s : MempoolState) (op : MempoolState.Op)
    (s' : MempoolState) : Prop :=
  s.Step node op s' ∧ op.Safe node s

/-! ## The invariant -/

/-- The undo data on disk is sourced. -/
def SourcedFiles (node : MempoolNode) (undoFiles : Finmap fun _ : Uint256 ↦ CBlockUndo) : Prop :=
  ∀ hash blockUndo block, undoFiles.lookup hash = some blockUndo →
    node.readBlock hash = some block →
    SourcedUndos node.getTxHash node.txs (block.vtx.zip (none :: blockUndo.vtxundo.map some))

structure MempoolState.Inv (node : MempoolNode) (s : MempoolState) : Prop where
  pool : BackedPool node s.pcoinsTip ∅ s.mempool
  sourced : s.pcoinsTip.Sourced node.getTxHash node.txs
  files : SourcedFiles node s.undoFiles

namespace MempoolState

variable {node : MempoolNode} {s s' : MempoolState} {call : MempoolCall} {block : CBlock}
  {view view' : CCoinsView} {pool pool' : CTxMemPool} {o : COutPoint}

theorem Inv.initial (node : MempoolNode) : MempoolState.initial.Inv node := by
  refine ⟨⟨inv_of_lookup_eq_none Finmap.lookup_empty Finmap.lookup_empty, ?_, ?_⟩, ?_, ?_⟩
  · rintro _ ⟨hash, e, he, -⟩
    exact absurd he (by simp [MempoolState.initial, CTxMemPool.empty])
  · rintro _ ⟨hash, e, he, -⟩
    exact absurd he (by simp [MempoolState.initial, CTxMemPool.empty])
  · intro o k hk
    exact absurd (CCoins.coin_eq_some.mp hk).1
      (by simp [MempoolState.initial, CCoinsView.getCoins, CCoins.outputs])
  · intro hash blockUndo block hlookup
    exact absurd hlookup (by simp [MempoolState.initial])

/-- In a state with the invariant the inputs of the pool refer to coins or to the pool, and the
coinbases they spend are mature. -/
theorem Inv.inputsBacked (h : s.Inv node) : s.InputsBacked node.toBlockEnv := by
  constructor
  · intro tx htx txin htxin
    rcases h.pool.backed tx htx txin htxin with ⟨k, hk, -⟩ | ⟨p, hp | hp, hhash, txout, hkept⟩
    · exact Or.inl (CCoins.isAvailable_iff_coin.mpr ⟨k, hk⟩)
    · refine Or.inr ⟨p, hp, ?_, hhash, txout, CTransaction.kept_eq_some hkept⟩
      rintro rfl
      -- a transaction does not spend from itself
      have hmem := h.pool.inv.sub hp
      exact node.acyclic p hmem (.child hmem (spentBy_of_kept htxin hhash hkept))
    · exact absurd hp (Set.notMem_empty p)
  · intro tx htx txin htxin havail hflag
    obtain ⟨k, hk⟩ := CCoins.isAvailable_iff_coin.mp havail
    obtain ⟨-, hcb, hheight⟩ := CCoins.coin_eq_some.mp hk
    rw [← hheight]
    rcases h.pool.backed tx htx txin htxin with ⟨k', hk', hmature⟩ | ⟨p, hp | hp, hhash, -⟩
    · obtain rfl : k' = k := Option.some.inj (hk'.symm.trans hk)
      exact hmature (hcb.trans hflag)
    · -- the coin and the transaction of the pool have one source
      obtain ⟨tx', hkept', hcb'⟩ := h.sourced txin.prevout k hk
      obtain rfl := node.getTxHash_injOn hkept'.mem (h.pool.inv.sub hp)
        (hkept'.hash.trans hhash.symm)
      have hnot := h.pool.notCoinBase tx' hp
      rw [← hcb', hcb, hflag] at hnot
      cases hnot
    · exact absurd hp (Set.notMem_empty p)

/-! ## Steps -/

theorem readBlock_of_readBlockFromDisk (h : node.readBlockFromDisk call = some block) :
    node.readBlock call.pindex.blockHash = some block := by
  rw [MempoolNode.readBlockFromDisk] at h
  split at h
  · exact h
  · cases h

/-- What is mature stays so when a block is connected. -/
theorem mature_connect {pindex : ConnectIndex} {nHeight : Int} (hindexed : node.Indexed pindex)
    (hview : view.hashBlock = pindex.pprev.getD 0) (hview' : view'.hashBlock = pindex.blockHash)
    (h : Mature node.mapBlockIndex view nHeight) : Mature node.mapBlockIndex view' nHeight := by
  obtain ⟨nBestHeight, hbest, hle⟩ := h
  rw [hview] at hbest
  cases hprev : pindex.pprev with
  | none =>
      rw [hprev, Option.getD_none, hindexed.null] at hbest
      cases hbest
  | some hashPrev =>
      rw [hprev, Option.getD_some, hindexed.pprev hashPrev hprev, Option.some.injEq] at hbest
      refine ⟨pindex.nHeight, by rw [hview', hindexed.height], ?_⟩
      omega

/-- **Connecting**: the coins of the block back what spends from its transactions. -/
theorem connected {pindex' : ConnectIndex} {r : Connected} (hindexed : node.Indexed call.pindex)
    (hread : node.readBlock call.pindex.blockHash = some block)
    (hconn : connectBlock (node.during call) call.undoIO call.fuel block call.pindex view false =
      (pindex', .ok r))
    (h : BackedPool node view {t | t ∈ block.vtx ∧ t.isCoinBase = false} pool)
    (hdone : Disjoined pool {t | t ∈ block.vtx}) :
    BackedPool node (written call.writeIO r.view) ∅ pool := by
  obtain ⟨hbest, hbest'⟩ := connectBlock_best hconn
  refine ⟨h.inv, h.notCoinBase, fun t ht txin htxin ↦ ?_⟩
  have hunspent : ∀ tx ∈ block.vtx, ∀ txin' ∈ tx.vin, txin'.prevout ≠ txin.prevout :=
    fun tx htx txin' htxin' ↦ (hdone.unspent tx htx txin' htxin' t ht txin htxin).symm
  rcases h.backed t ht txin htxin with ⟨k, hk, hmature⟩ | ⟨p, hp | ⟨hp, hcb⟩, hhash, txout, hkept⟩
  · refine Or.inl ⟨k, ?_, fun hflag ↦ ?_⟩
    · rw [coin_written]
      exact connectBlock_coin_of_unspent hconn hk hunspent
    · exact mature_connect hindexed hbest (hashBlock_written.trans hbest') (hmature hflag)
  · exact Or.inr ⟨p, Or.inl hp, hhash, txout, hkept⟩
  · by_cases hgenesis : (node.during call).getBlockHash block.toCBlockHeader =
        (node.during call).hashGenesisBlock
    · rw [node.genesis _ block hread hgenesis p hp] at hcb
      cases hcb
    · have hprevout : (⟨node.getTxHash p, txin.prevout.n⟩ : COutPoint) = txin.prevout := by
        rw [hhash]
      have hcreated : r.view.coin ⟨node.getTxHash p, txin.prevout.n⟩ =
          (CCoins.ofTx p call.pindex.nHeight).coin txin.prevout.n :=
        (connectBlock_run hgenesis hconn).coin_of_created hp (hprevout ▸ hunspent)
      rw [hprevout, CCoins.coin_ofTx, hkept] at hcreated
      refine Or.inl ⟨⟨txout, p.isCoinBase, call.pindex.nHeight⟩, ?_, fun hflag ↦ ?_⟩
      · rw [coin_written, hcreated]
        rfl
      · rw [hcb] at hflag
        cases hflag

/-- **Disconnecting**: what spends from the transactions of the block counts on them to be put
back. -/
theorem disconnected {undoData : Option CBlockUndo} (hindexed : node.Indexed call.pindex)
    (hsafe : s.Undisturbed node call) (h : s.Inv node)
    (hread : node.readBlockFromDisk call = some block)
    (hundo : ∀ blockUndo, undoData = some blockUndo →
      s.undoFiles.lookup call.pindex.blockHash = some blockUndo)
    (hdis : disconnectBlock (node.during call) undoData block call.pindex s.pcoinsTip =
      .ok (true, view)) :
    BackedPool node (written call.writeIO view) (spending block.vtx) s.mempool ∧
      view.Sourced node.getTxHash node.txs := by
  have hblock := readBlock_of_readBlockFromDisk hread
  obtain ⟨-, hprev⟩ := disconnectBlock_best hdis
  have hinj : Set.InjOn (node.during call).getTxHash node.txs := node.getTxHash_injOn
  obtain ⟨hsourced, hkeeps⟩ :=
    disconnectBlock_coin hinj h.sourced (fun _ hdata ↦ h.files _ _ _ (hundo _ hdata) hblock) hdis
  refine ⟨⟨h.pool.inv, h.pool.notCoinBase, fun t ht txin htxin ↦ ?_⟩, hsourced⟩
  rcases h.pool.backed t ht txin htxin with ⟨k, hk, -⟩ | ⟨p, hp | hp, hkept⟩
  · by_cases hin : ∃ tx ∈ block.vtx, node.getTxHash tx = txin.prevout.hash
    · -- the coin is one of the transaction that is put back
      obtain ⟨tx, htx, hhash⟩ := hin
      obtain ⟨tx', hkept, -⟩ := h.sourced txin.prevout k hk
      obtain rfl := node.getTxHash_injOn hkept.mem (node.readBlock_mem _ _ hblock tx htx)
        (hkept.hash.trans hhash.symm)
      refine Or.inr ⟨tx', Or.inr ⟨htx, ?_⟩, hhash, k.out, hkept.kept⟩
      rw [← Bool.not_eq_true]
      intro hcb
      exact hsafe.coinbase block hread tx' htx hcb t ht txin htxin hhash
    · refine Or.inl ⟨k, ?_, fun hflag ↦ ?_⟩
      · rw [coin_written]
        exact hkeeps _ k hk fun tx htx hhash ↦ hin ⟨tx, htx, hhash⟩
      · obtain ⟨-, hcb, hheight⟩ := CCoins.coin_eq_some.mp hk
        have hdeep := hsafe.mature t ht txin htxin (CCoins.isAvailable_iff_coin.mpr ⟨k, hk⟩)
          (hcb.symm.trans hflag)
        refine ⟨call.pindex.nHeight - 1, ?_, ?_⟩
        · rw [hashBlock_written]
          exact hindexed.pprev _ hprev
        · rw [hheight, sub_add_cancel]
          exact hdeep
  · exact Or.inr ⟨p, Or.inl hp, hkept⟩
  · exact absurd hp (Set.notMem_empty p)

theorem recordUndo_frame (s : MempoolState) (env : BlockEnv) (fuel : Nat) (block : CBlock)
    (pindex pindex' : ConnectIndex) :
    ∃ undoFiles,
      s.recordUndo env fuel block pindex pindex' = { s with undoFiles := undoFiles } := by
  rw [MempoolState.recordUndo]
  split
  · split
    · exact ⟨_, rfl⟩
    · exact ⟨_, rfl⟩
  · exact ⟨_, rfl⟩

/-- What `ConnectBlock` writes is sourced, whether it succeeds in the end or not. -/
theorem Inv.recordUndo {pindex' : ConnectIndex} {res : Except Failure Connected} (h : s.Inv node)
    (hread : node.readBlock call.pindex.blockHash = some block)
    (hconn : connectBlock (node.during call) call.undoIO call.fuel block call.pindex s.pcoinsTip
      false = (pindex', res)) :
    MempoolState.Inv node
      (s.recordUndo (node.during call) call.fuel block call.pindex pindex') := by
  rw [MempoolState.recordUndo]
  split
  case isFalse => exact h
  case isTrue hnew =>
    rw [Bool.and_eq_true, Bool.not_eq_true'] at hnew
    split
    case h_2 => exact h
    case h_1 c hc =>
      have hview : s.pcoinsTip.Sourced (node.during call).getTxHash node.txs := h.sourced
      obtain ⟨-, hundos⟩ := sourced_connectTransactions (shape_of_written hconn hnew.1 hnew.2) hview
        (node.readBlock_mem _ _ hread) hc
      refine ⟨h.pool, h.sourced, fun hash blockUndo block' hlookup hread' ↦ ?_⟩
      by_cases hhash : hash = call.pindex.blockHash
      · rw [hhash, Finmap.lookup_insert, Option.some.injEq] at hlookup
        rw [hhash, hread, Option.some.injEq] at hread'
        subst hlookup hread'
        exact hundos
      · rw [Finmap.lookup_insert_of_ne _ hhash] at hlookup
        exact h.files hash blockUndo block' hlookup hread'

theorem Inv.accept {call : AcceptCall} {tx : CTransaction} (h : s.Inv node)
    (htx : tx ∈ node.txs) : MempoolState.Inv node (s.accept node call tx).1 := by
  rw [MempoolState.accept]
  split
  · exact h
  · rename_i pool haccept
    have hpool : BackedPool node s.pcoinsTip (insert tx ∅) s.mempool :=
      h.pool.shrunk (.refl h.pool.inv) fun p hp ↦ absurd hp (Set.notMem_empty p)
    exact ⟨hpool.accept htx haccept, h.sourced, h.files⟩

theorem Inv.connectTip (h : s.Inv node) (hindexed : node.Indexed call.pindex)
    (hwrite : writeChainState call.writeIO = .ok ())
    (hreturns : ∀ e, (s.connectTip node call).2 = .error e → e.returns = true) :
    MempoolState.Inv node (s.connectTip node call).1 := by
  rw [MempoolState.connectTip] at hreturns ⊢
  split
  · exact h
  · rename_i block hread
    have hblock := readBlock_of_readBlockFromDisk hread
    have hS := node.readBlock_mem _ _ hblock
    rcases hconn : connectBlock (node.during call) call.undoIO call.fuel block call.pindex
      s.pcoinsTip false with ⟨pindex', e | r⟩
    · simp only [hconn]
      exact h.recordUndo hblock hconn
    · have hrecorded := h.recordUndo hblock hconn
      obtain ⟨undoFiles, hframe⟩ :=
        recordUndo_frame s (node.during call) call.fuel block call.pindex pindex'
      rw [hframe] at hrecorded
      simp only [hread, hconn, hwrite, hframe] at hreturns ⊢
      split
      · rename_i e hfail
        simp only [hfail] at hreturns
        have hno := removeConnected_not_returns hfail
        rw [hreturns e rfl] at hno
        cases hno
      · rename_i pool txConflicted hremove
        have hstart : BackedPool node s.pcoinsTip
            {t | t ∈ (∅ : Set CTransaction) ∧ t.isCoinBase = false} s.mempool :=
          h.pool.shrunk (.refl h.pool.inv) fun p hp ↦ absurd hp (Set.notMem_empty p)
        obtain ⟨hpool, hdone⟩ := hstart.removeConnected
          ⟨fun tx htx ↦ absurd htx (Set.notMem_empty tx),
            fun tx htx ↦ absurd htx (Set.notMem_empty tx)⟩ hS hremove
        simp only [Set.mem_empty_iff_false, false_or] at hpool hdone
        have hview : s.pcoinsTip.Sourced (node.during call).getTxHash node.txs := h.sourced
        have hview' := sourced_connectBlock hconn hview hS
        exact ⟨(connected hindexed hblock hconn hpool hdone).addTransactionsUpdated 1,
          sourced_written hview', hrecorded.files⟩

theorem Inv.disconnectTip (h : s.Inv node) (hindexed : node.Indexed call.pindex)
    (hwrite : writeChainState call.writeIO = .ok ()) (hsafe : s.Undisturbed node call)
    (hreturns : ∀ e, (s.disconnectTip node call).2 = .error e → e.returns = true) :
    MempoolState.Inv node (s.disconnectTip node call).1 := by
  rw [MempoolState.disconnectTip] at hreturns ⊢
  split
  · exact h
  · rename_i block hread
    have hblock := readBlock_of_readBlockFromDisk hread
    have hundo : ∀ blockUndo,
        (if call.readUndo then s.undoFiles.lookup call.pindex.blockHash else none) =
          some blockUndo → s.undoFiles.lookup call.pindex.blockHash = some blockUndo := by
      intro blockUndo hdata
      split at hdata
      · exact hdata
      · cases hdata
    dsimp only
    split
    · exact h
    · exact h
    · rename_i view hdis
      obtain ⟨hpool, hsourced⟩ := disconnected hindexed hsafe h hread hundo hdis
      simp only [hread, hdis, hwrite] at hreturns ⊢
      split
      · rename_i e hfail
        simp only [hfail] at hreturns
        have hno := resurrect_not_returns hfail
        rw [hreturns e rfl] at hno
        cases hno
      · rename_i pool hrun
        exact ⟨(hpool.resurrect (node.readBlock_mem _ _ hblock) hrun).addTransactionsUpdated 1,
          sourced_written hsourced, h.files⟩

/-- **One step keeps the invariant.** -/
theorem SafeStep.inv {op : Op} (hstep : s.SafeStep node op s') (h : s.Inv node) : s'.Inv node := by
  obtain ⟨⟨hadm, rfl, hreturns⟩, hsafe⟩ := hstep
  cases op with
  | accept call tx => exact h.accept hadm
  | connectTip call => exact h.connectTip hadm hsafe hreturns
  | disconnectTip call => exact h.disconnectTip hadm hsafe.1 hsafe.2 hreturns

end MempoolState

/-- **The inputs of the pool stay backed**, in every state of every run whose steps meet the
condition. -/
theorem mempool_inputsBacked (node : MempoolNode) {ops : List MempoolState.Op} {s : MempoolState}
    (h : Run (MempoolState.SafeStep node) .initial ops s) : s.InputsBacked node.toBlockEnv := by
  have hinv : s.Inv node :=
    h.invariant (fun _ _ _ hinv hstep ↦ hstep.inv hinv) (MempoolState.Inv.initial node)
  exact hinv.inputsBacked

/-! ## A chain of coinbases -/

namespace MempoolState

/-- The state after some calls, if they all succeed. -/
def runAll (node : MempoolNode) (s : MempoolState) : List Op → Option MempoolState
  | [] => some s
  | op :: ops =>
      match s.apply node op with
      | (s, .ok ()) => runAll node s ops
      | (_, .error _) => none

theorem run_of_runAll {node : MempoolNode} {s s' : MempoolState} {ops : List Op}
    (hadm : ∀ op ∈ ops, op.Admissible node) (h : s.runAll node ops = some s') :
    Run (Step node) s ops s' := by
  induction ops generalizing s with
  | nil =>
      obtain rfl := Option.some.inj h
      exact .nil _
  | cons op ops ih =>
      rw [List.forall_mem_cons] at hadm
      rw [runAll] at h
      split at h
      · rename_i s₁ happly
        refine .cons ⟨hadm.1, by rw [happly], fun e he ↦ ?_⟩ (ih hadm.2 h)
        rw [happly] at he
        cases he
      · cases h

/-- A test of the state that some calls lead to. -/
theorem exists_run_of_test {node : MempoolNode} {ops : List Op} (s : MempoolState)
    (P : MempoolState → Prop) [DecidablePred P] (hadm : ∀ op ∈ ops, op.Admissible node)
    (h : (s.runAll node ops).any (fun s ↦ decide (P s)) = true) :
    ∃ s', Run (Step node) s ops s' ∧ P s' := by
  obtain ⟨s', hs', hP⟩ := (Option.any_eq_true _ _).mp h
  exact ⟨s', run_of_runAll hadm hs', of_decide_eq_true hP⟩

end MempoolState

/-- Transaction 98 spends from transaction 2, 99 from 98; the others are coinbases. -/
def reorgTx (id : Nat) : CTransaction :=
  if id = 98 then chainTx 98 2
  else if id = 99 then chainTx 99 98
  else { vin := [⟨.null, [0, 0], uintMax⟩], vout := [⟨100, []⟩], nLockTime := id }

/-- The block at height `k`; the one at height 31 has a transaction besides its coinbase. -/
def reorgBlock (k : Nat) : CBlock where
  hashPrevBlock := BitVec.ofNat 256 k
  hashMerkleRoot := BitVec.ofNat 256 (if k = 31 then 32 + 98 else k + 1)
  nTime := 0
  nBits := 0
  nNonce := k + 1
  vtx := reorgTx (k + 1) :: if k = 31 then [reorgTx 98] else []

/-- The height of the block with a hash, which is one less. -/
def reorgHeight (hash : Uint256) : Option Nat :=
  if hash = 0 ∨ 40 < hash.toNat then none else some (hash.toNat - 1)

def reorgEnv : BlockEnv :=
  { sampleEnv with
    getTxHash := chainHash
    hashGenesisBlock := 1
    mapBlockIndex := fun hash ↦ (reorgHeight hash).map fun k ↦ (k : Int) }

theorem nLockTime_reorgTx (id : Nat) : (reorgTx id).nLockTime = id := by
  rw [reorgTx]
  split
  · subst_vars
    rfl
  · split
    · subst_vars
      rfl
    · rfl

theorem ofNat_inj {a b : Nat} (ha : a < 100) (hb : b < 100)
    (h : BitVec.ofNat 256 a = BitVec.ofNat 256 b) : a = b := by
  have hnat := congrArg BitVec.toNat h
  rwa [BitVec.toNat_ofNat, BitVec.toNat_ofNat, Nat.mod_eq_of_lt (by omega),
    Nat.mod_eq_of_lt (by omega)] at hnat

/-- What a transaction spends from has a smaller number. -/
theorem reorgTx_spentBy {a b : Nat} (ha : a < 100)
    (h : CTransaction.SpentBy chainHash (reorgTx a) (reorgTx b)) : a < b := by
  obtain ⟨i, hi, txin, hmem, ho⟩ := h
  have hlen : (reorgTx a).vout.length = 1 := by
    rw [reorgTx]
    split
    · rfl
    · split <;> rfl
  have hhash : txin.prevout.hash = BitVec.ofNat 256 a := by rw [ho, chainHash, nLockTime_reorgTx]
  rw [reorgTx] at hmem
  split at hmem
  · obtain rfl := List.mem_singleton.mp hmem
    have hparent := ofNat_inj (by omega) ha hhash
    omega
  · split at hmem
    · obtain rfl := List.mem_singleton.mp hmem
      have hparent := ofNat_inj (by omega) ha hhash
      omega
    · obtain rfl := List.mem_singleton.mp hmem
      have hnull : uintMax = i := congrArg COutPoint.n ho
      rw [hlen, ← hnull] at hi
      exact absurd hi (by decide)

theorem vtx_reorgBlock {k : Nat} (hk : k < 40) :
    ∀ tx ∈ (reorgBlock k).vtx, ∃ id < 100, tx = reorgTx id := by
  intro tx htx
  rcases List.mem_cons.mp htx with rfl | htx
  · exact ⟨k + 1, by omega, rfl⟩
  · split at htx
    · obtain rfl := List.mem_singleton.mp htx
      exact ⟨98, by omega, rfl⟩
    · exact absurd htx List.not_mem_nil

theorem reorgHeight_lt {hash : Uint256} {k : Nat} (h : reorgHeight hash = some k) : k < 40 := by
  rw [reorgHeight] at h
  split at h
  · cases h
  · obtain rfl := Option.some.inj h
    omega

def reorgNode : MempoolNode where
  toBlockEnv := reorgEnv
  readBlock hash := (reorgHeight hash).map reorgBlock
  txs := {tx | ∃ id < 100, tx = reorgTx id}
  readBlock_mem := by
    intro hash block hread
    obtain ⟨k, hk, rfl⟩ := Option.map_eq_some_iff.mp hread
    exact vtx_reorgBlock (reorgHeight_lt hk)
  getTxHash_injOn := by
    rintro _ ⟨a, ha, rfl⟩ _ ⟨b, hb, rfl⟩ h
    have hid : a = b := by
      refine ofNat_inj ha hb ?_
      have hhash : BitVec.ofNat 256 (reorgTx a).nLockTime =
        BitVec.ofNat 256 (reorgTx b).nLockTime := h
      rwa [nLockTime_reorgTx, nLockTime_reorgTx] at hhash
    rw [hid]
  acyclic := by
    refine Cascade.acyclic_of_rank CTransaction.nLockTime ?_
    rintro _ ⟨a, ha, rfl⟩ _ ⟨b, hb, rfl⟩ h
    rw [nLockTime_reorgTx, nLockTime_reorgTx]
    exact reorgTx_spentBy ha h
  genesis := by
    intro hash block hread hgenesis
    obtain ⟨k, hk, rfl⟩ := Option.map_eq_some_iff.mp hread
    have hk' := reorgHeight_lt hk
    have hzero : k + 1 = 1 := ofNat_inj (by omega) (by omega) hgenesis
    obtain rfl : k = 0 := by omega
    decide

/-- A call without further conditions on the transaction. -/
def freeCall : AcceptCall where
  policy :=
    { isStandardTx _ := .ok ()
      areInputsStandard _ _ := true
      checkFees _ _ _ _ := .ok () }
  nTime := 0
  nHeight := 0

/-- A call for the block at height `k`, whose undo data is there or not. -/
def reorgCall (k : Nat) (haveUndo : Bool) : MempoolCall where
  pindex :=
    { blockHash := BitVec.ofNat 256 (k + 1)
      pprev := if k = 0 then none else some (BitVec.ofNat 256 k)
      nHeight := k
      nStatus := { haveUndo := haveUndo } }
  checkBlockHeader _ _ _ := .ok ()
  tip := .initial
  fuel := 3
  accept := freeCall

theorem indexed_reorgCall {k : Nat} {haveUndo : Bool} (hk : k < 40) :
    reorgNode.Indexed (reorgCall k haveUndo).pindex := by
  have hheight : ∀ k < 40, reorgNode.mapBlockIndex (BitVec.ofNat 256 (k + 1)) = some (k : Int) := by
    decide +kernel
  refine ⟨hheight k hk, fun hash hprev ↦ ?_, by decide⟩
  cases k with
  | zero => exact absurd hprev (by simp [reorgCall])
  | succ k =>
      obtain rfl := Option.some.inj hprev
      rw [hheight k (by omega)]
      exact congrArg some (add_sub_cancel_right (k : Int) 1).symm

/-- Connects the blocks from height 0 to 30, and accepts a spend of the coinbase at height 1. -/
def reorgOps : List MempoolState.Op :=
  ((List.range 31).map fun k ↦ .connectTip (reorgCall k false)) ++ [.accept freeCall (reorgTx 98)]

/-- Then connects block 31, in which the spend is, and accepts a spend of its output. -/
def childOps : List MempoolState.Op :=
  reorgOps ++ [.connectTip (reorgCall 31 false), .accept freeCall (reorgTx 99)]

/-- Disconnects `n` blocks from height `k` down. -/
def disconnectOps (k n : Nat) : List MempoolState.Op :=
  (List.range n).map fun i ↦ .disconnectTip (reorgCall (k - i) true)

theorem admissible_reorgOps : ∀ op ∈ reorgOps, op.Admissible reorgNode := by
  intro op hop
  rcases List.mem_append.mp hop with hop | hop
  · obtain ⟨k, hk, rfl⟩ := List.mem_map.mp hop
    exact indexed_reorgCall ((List.mem_range.mp hk).trans (by decide))
  · obtain rfl := List.mem_singleton.mp hop
    exact ⟨98, by decide, rfl⟩

theorem admissible_disconnectOps {k n : Nat} (hk : k < 40) :
    ∀ op ∈ disconnectOps k n, op.Admissible reorgNode := by
  intro op hop
  obtain ⟨i, -, rfl⟩ := List.mem_map.mp hop
  exact indexed_reorgCall ((Nat.sub_le k i).trans_lt hk)

theorem eq_of_keys_eq_singleton {pool : CTxMemPool} {hash : Uint256} {tx tx' : CTransaction}
    (h : (pool.mapTx.lookup hash).map CTxMemPoolEntry.tx = some tx)
    (hkeys : pool.mapTx.keys = {hash}) (hmem : tx' ∈ pool.txs) : tx' = tx := by
  obtain ⟨hash', e, he, rfl⟩ := hmem
  have hkey := Finmap.mem_keys.mpr (Finmap.mem_of_lookup_eq_some he)
  rw [hkeys, Finset.mem_singleton] at hkey
  rw [hkey] at he
  rw [he] at h
  exact Option.some.inj h

theorem mem_txs_of_lookup {pool : CTxMemPool} {hash : Uint256} {tx : CTransaction}
    (h : (pool.mapTx.lookup hash).map CTxMemPoolEntry.tx = some tx) : tx ∈ pool.txs := by
  obtain ⟨e, he, rfl⟩ := Option.map_eq_some_iff.mp h
  exact ⟨hash, e, he, rfl⟩

/-- Transaction 98 is in the pool, and the coin it spends is not mature. -/
def LeftImmature (s : MempoolState) : Prop :=
  (s.mempool.mapTx.lookup 98).map CTxMemPoolEntry.tx = some (reorgTx 98) ∧
    (s.pcoinsTip.getCoins 2).isAvailable 0 = true ∧ (s.pcoinsTip.getCoins 2).fCoinBase = true ∧
    (s.pcoinsTip.getCoins 2).nHeight = 1 ∧ reorgEnv.mapBlockIndex s.pcoinsTip.hashBlock = some 29
deriving Decidable

/-- Transaction 98 is alone in the pool, and what it spends is not available. -/
def LeftOrphaned (s : MempoolState) : Prop :=
  (s.mempool.mapTx.lookup 98).map CTxMemPoolEntry.tx = some (reorgTx 98) ∧
    s.mempool.mapTx.keys = {98} ∧ (s.pcoinsTip.getCoins 2).isAvailable 0 = false
deriving Decidable

/-- Disconnecting one block leaves a spend that is no longer mature, and disconnecting thirty a
spend of nothing. -/
theorem mempool_inputsBacked_fails :
    (¬ ∀ (node : MempoolNode) (ops : List MempoolState.Op) (s : MempoolState),
      Run (MempoolState.Step node) .initial ops s → s.CoinbasesMature node.toBlockEnv) ∧
    ¬ ∀ (node : MempoolNode) (ops : List MempoolState.Op) (s : MempoolState),
      Run (MempoolState.Step node) .initial ops s → s.InputsUnspent node.toBlockEnv := by
  have hadm : ∀ n, ∀ op ∈ reorgOps ++ disconnectOps 30 n, op.Admissible reorgNode := by
    intro n op hop
    exact (List.mem_append.mp hop).elim (admissible_reorgOps op)
      (admissible_disconnectOps (by decide) op)
  have hspend : (⟨⟨2, 0⟩, [], uintMax⟩ : CTxIn) ∈ (reorgTx 98).vin := by decide
  constructor
  · intro hall
    obtain ⟨s, hrun, htx, havail, hflag, hheight, hindex⟩ :=
      MempoolState.exists_run_of_test .initial LeftImmature (hadm 1) (by decide +kernel)
    obtain ⟨nBestHeight, hbest, hle⟩ :=
      hall reorgNode _ s hrun _ (mem_txs_of_lookup htx) _ hspend havail hflag
    obtain rfl := Option.some.inj (hbest.symm.trans hindex)
    rw [hheight] at hle
    exact absurd hle (by decide)
  · intro hall
    obtain ⟨s, hrun, htx, hkeys, havail⟩ :=
      MempoolState.exists_run_of_test .initial LeftOrphaned (hadm 30) (by decide +kernel)
    rcases hall reorgNode _ s hrun _ (mem_txs_of_lookup htx) _ hspend with
      hcoin | ⟨tx2, htx2, hne, -⟩
    · rw [havail] at hcoin
      cases hcoin
    · exact hne (eq_of_keys_eq_singleton htx hkeys htx2)

theorem admissible_childOps : ∀ op ∈ childOps, op.Admissible reorgNode := by
  intro op hop
  rcases List.mem_append.mp hop with hop | hop
  · exact admissible_reorgOps op hop
  · rcases List.mem_cons.mp hop with rfl | hop
    · exact indexed_reorgCall (by decide)
    · obtain rfl := List.mem_singleton.mp hop
      exact ⟨99, by decide, rfl⟩

/-- None of these calls disconnects a block. -/
theorem safe_childOps : ∀ op ∈ childOps, ∀ s, op.Safe reorgNode s := by
  intro op hop s
  rcases List.mem_append.mp hop with hop | hop
  · rcases List.mem_append.mp hop with hop | hop
    · obtain ⟨k, -, rfl⟩ := List.mem_map.mp hop
      rfl
    · obtain rfl := List.mem_singleton.mp hop
      trivial
  · rcases List.mem_cons.mp hop with rfl | hop
    · rfl
    · obtain rfl := List.mem_singleton.mp hop
      trivial

/-- Transactions 98 and 99 are in the pool. -/
def BothBack (s : MempoolState) : Prop :=
  (s.mempool.mapTx.lookup 98).map CTxMemPoolEntry.tx = some (reorgTx 98) ∧
    (s.mempool.mapTx.lookup 99).map CTxMemPoolEntry.tx = some (reorgTx 99)
deriving Decidable

/-- Transaction 99 is alone in the pool, and disconnecting block 31 brings 98 back. -/
def ChildAccepted (s : MempoolState) : Prop :=
  (s.mempool.mapTx.lookup 99).map CTxMemPoolEntry.tx = some (reorgTx 99) ∧
    s.mempool.mapTx.keys = {99} ∧ (s.pcoinsTip.getCoins 98).fCoinBase = false ∧
    (s.runAll reorgNode (disconnectOps 31 1)).any (fun s ↦ decide (BothBack s)) = true
deriving Decidable

theorem ChildAccepted.undisturbed {s : MempoolState} (h : ChildAccepted s) :
    s.Undisturbed reorgNode (reorgCall 31 true) := by
  obtain ⟨hchild, hkeys, hflag, -⟩ := h
  have hread : reorgNode.readBlockFromDisk (reorgCall 31 true) = some (reorgBlock 31) := by
    decide +kernel
  constructor
  · intro block hblock cb hcb hcoinbase tx htx txin htxin
    obtain rfl := Option.some.inj (hread.symm.trans hblock)
    rw [eq_of_keys_eq_singleton hchild hkeys htx] at htxin
    obtain rfl := List.mem_singleton.mp htxin
    rcases List.mem_cons.mp hcb with rfl | hcb
    · decide
    · obtain rfl := List.mem_singleton.mp hcb
      exact absurd hcoinbase (by decide)
  · intro tx htx txin htxin _ hcb
    rw [eq_of_keys_eq_singleton hchild hkeys htx] at htxin
    obtain rfl := List.mem_singleton.mp htxin
    have hcb' : (s.pcoinsTip.getCoins 98).fCoinBase = true := hcb
    rw [hflag] at hcb'
    cases hcb'

theorem mempool_inputsBacked_reorg :
    ∃ s, Run (MempoolState.SafeStep reorgNode) .initial (childOps ++ disconnectOps 31 1) s ∧
      reorgTx 98 ∈ s.mempool.txs ∧ reorgTx 99 ∈ s.mempool.txs ∧
      s.InputsBacked reorgNode.toBlockEnv := by
  obtain ⟨s, hrun, hs⟩ :=
    MempoolState.exists_run_of_test .initial ChildAccepted admissible_childOps (by decide +kernel)
  obtain ⟨s', hback, h98, h99⟩ :=
    MempoolState.exists_run_of_test s BothBack (admissible_disconnectOps (by decide)) hs.2.2.2
  have hsafe : Run (MempoolState.SafeStep reorgNode) .initial childOps s :=
    hrun.imp fun s op _ hop hstep ↦ ⟨hstep, safe_childOps op hop s⟩
  have hlast : Run (MempoolState.SafeStep reorgNode) s (disconnectOps 31 1) s' := by
    obtain ⟨s₁, hstep, hnil⟩ := Run.cons_iff.mp hback
    exact Run.cons_iff.mpr ⟨s₁, ⟨hstep, rfl, hs.undisturbed⟩, Run.nil_iff.mpr (Run.nil_iff.mp hnil)⟩
  have hall := hsafe.append hlast
  exact ⟨s', hall, mem_txs_of_lookup h98, mem_txs_of_lookup h99,
    mempool_inputsBacked reorgNode hall⟩

end Fedoracoin
