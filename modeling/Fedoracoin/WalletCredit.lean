import Fedoracoin.WalletTx
import Fedoracoin.MempoolRun

/-!
# The cache of `GetAvailableCredit`

The cached credit of a transaction depends on which transactions of the wallet are in the chain or
in the pool.  What a call changes of these it passes to `SyncTransaction`, which marks what they
spend as dirty, but for the transactions that `DisconnectTip` removes from the pool along with one
that is refused.  Where these matter to no cache, every cache is right: `walletCredit_coherent`.
-/

namespace Fedoracoin

open CTxMemPool

/-! ## What changes in the pool -/

/-- The transactions of which the pool may have other entries afterwards, all from `S`. -/
structure CTxMemPool.Changed (getHash : CTransaction → Uint256) (S : Set CTransaction)
    (pool pool' : CTxMemPool) (changed : List CTransaction) : Prop where
  sub : ∀ tx ∈ changed, tx ∈ S
  lookup : ∀ hash ∉ changed.map getHash, pool'.mapTx.lookup hash = pool.mapTx.lookup hash
  txs : pool'.txs ⊆ S

section

variable {getHash : CTransaction → Uint256} {S : Set CTransaction} {pool pool' pool'' : CTxMemPool}
  {tx : CTransaction} {changed changed' removed removed' : List CTransaction} {fuel : Nat}
  {s' : CTxMemPool × List CTransaction}

theorem CTxMemPool.Changed.refl (h : pool.txs ⊆ S) : Changed getHash S pool pool [] :=
  ⟨nofun, fun _ _ ↦ rfl, h⟩

theorem CTxMemPool.Changed.trans (h : Changed getHash S pool pool' changed)
    (h' : Changed getHash S pool' pool'' changed') :
    Changed getHash S pool pool'' (changed' ++ changed) where
  sub tx htx := (List.mem_append.mp htx).elim (h'.sub tx) (h.sub tx)
  lookup hash hhash := by
    rw [List.map_append, List.mem_append, not_or] at hhash
    rw [h'.lookup hash hhash.1, h.lookup hash hhash.2]
  txs := h'.txs

theorem CTxMemPool.Changed.exists_eq (h : Changed getHash S pool pool' changed) {hash : Uint256}
    (hhash : hash ∉ changed.map getHash) : pool'.exists hash = pool.exists hash := by
  rw [CTxMemPool.exists, CTxMemPool.exists, h.lookup hash hhash]

theorem CTxMemPool.Changed.of_erase (htx : tx ∈ S) (hpool : pool.txs ⊆ S)
    (h : pool'.mapTx = pool.mapTx.erase (getHash tx)) : Changed getHash S pool pool' [tx] where
  sub t ht := (List.mem_singleton.mp ht) ▸ htx
  lookup hash hhash := by
    rw [h, Finmap.lookup_erase_ne]
    rintro rfl
    exact hhash (List.mem_singleton_self _)
  txs := by
    rintro t ⟨hash, e, he, rfl⟩
    rw [h] at he
    exact hpool ⟨hash, e, (lookup_erase_eq_some he).2, rfl⟩

/-- The end of `remove`. -/
theorem changed_removeEntry (htx : tx ∈ S) (hpool : pool.txs ⊆ S) :
    ∃ new, (removeEntry getHash tx (pool, removed)).2 = new ++ removed ∧
      Changed getHash S pool (removeEntry getHash tx (pool, removed)).1 new := by
  rw [removeEntry]
  split
  case isTrue => exact ⟨[tx], rfl, .of_erase htx hpool rfl⟩
  case isFalse => exact ⟨[], rfl, .refl hpool⟩

/-- What a pointer of `mapNextTx` leads to is in the pool. -/
theorem mem_of_spender {p : CInPoint} (h : pool.spender p = .ok tx) (hpool : pool.txs ⊆ S) :
    tx ∈ S := by
  rw [spender] at h
  split at h
  case h_1 e he =>
    obtain rfl := Except.ok.inj h
    exact hpool ⟨p.ptx, e, he, rfl⟩
  case h_2 => cases h

theorem changed_removeSpenders
    {removeRec : CTransaction → CTxMemPool × List CTransaction →
      Except Failure (CTxMemPool × List CTransaction)}
    (hrec : ∀ tx ∈ S, ∀ pool removed s', pool.txs ⊆ S → removeRec tx (pool, removed) = .ok s' →
      ∃ new, s'.2 = new ++ removed ∧ Changed getHash S pool s'.1 new)
    {hash : Uint256} {is : List Nat} (hpool : pool.txs ⊆ S)
    (h : removeSpenders removeRec hash is (pool, removed) = .ok s') :
    ∃ new, s'.2 = new ++ removed ∧ Changed getHash S pool s'.1 new := by
  induction is generalizing pool removed with
  | nil =>
      obtain rfl := Except.ok.inj h
      exact ⟨[], rfl, .refl hpool⟩
  | cons i is ih =>
      rw [removeSpenders] at h
      split at h
      case h_1 => exact ih hpool h
      case h_2 p hp =>
        obtain ⟨tx, hspender, h⟩ := bind_eq_ok.mp h
        obtain ⟨⟨pool₁, removed₁⟩, hremove, h⟩ := bind_eq_ok.mp h
        obtain ⟨new, rfl, hchanged⟩ :=
          hrec tx (mem_of_spender hspender hpool) pool removed _ hpool hremove
        obtain ⟨new', hnew', hchanged'⟩ := ih hchanged.txs h
        exact ⟨new' ++ new, by rw [hnew', List.append_assoc], hchanged.trans hchanged'⟩

theorem changed_remove {fRecursive : Bool} (htx : tx ∈ S) (hpool : pool.txs ⊆ S)
    (h : remove getHash fuel tx fRecursive (pool, removed) = .ok s') :
    ∃ new, s'.2 = new ++ removed ∧ Changed getHash S pool s'.1 new := by
  induction fuel generalizing tx fRecursive pool removed s' with
  | zero => cases h
  | succ fuel ih =>
      rw [remove] at h
      split at h
      case isTrue =>
        obtain ⟨⟨pool₁, removed₁⟩, hspenders, h⟩ := bind_eq_ok.mp h
        obtain rfl := Except.ok.inj h
        obtain ⟨new, rfl, hchanged⟩ := changed_removeSpenders
          (fun tx htx pool removed s' hpool hs' ↦ ih htx hpool hs') hpool hspenders
        obtain ⟨new', hnew', hchanged'⟩ := changed_removeEntry htx hchanged.txs
        exact ⟨new' ++ new, by rw [hnew', List.append_assoc], hchanged.trans hchanged'⟩
      case isFalse =>
        obtain rfl := Except.ok.inj h
        exact changed_removeEntry htx hpool

theorem changed_removeConflicts (hpool : pool.txs ⊆ S)
    (h : removeConflicts getHash fuel tx (pool, removed) = .ok s') :
    ∃ new, s'.2 = new ++ removed ∧ Changed getHash S pool s'.1 new := by
  rw [removeConflicts] at h
  generalize tx.vin = vin at h
  induction vin generalizing pool removed with
  | nil =>
      obtain rfl := Except.ok.inj h
      exact ⟨[], rfl, .refl hpool⟩
  | cons txin vin ih =>
      rw [removeConflictsLoop] at h
      split at h
      case h_1 => exact ih hpool h
      case h_2 p hp =>
        obtain ⟨txConflict, hspender, h⟩ := bind_eq_ok.mp h
        dsimp only at h
        split at h
        case isTrue =>
          obtain ⟨⟨pool₁, removed₁⟩, hremove, h⟩ := bind_eq_ok.mp h
          obtain ⟨new, rfl, hchanged⟩ :=
            changed_remove (mem_of_spender hspender hpool) hpool hremove
          obtain ⟨new', hnew', hchanged'⟩ := ih hchanged.txs h
          exact ⟨new' ++ new, by rw [hnew', List.append_assoc], hchanged.trans hchanged'⟩
        case isFalse => exact ih hpool h

/-- `ConnectTip` passes what it removes on, and removes the transactions of the block. -/
theorem changed_removeConnected {vtx : List CTransaction} (hvtx : ∀ tx ∈ vtx, tx ∈ S)
    (hpool : pool.txs ⊆ S) (h : removeConnected getHash fuel vtx (pool, removed) = .ok s') :
    ∃ new changed, s'.2 = new ++ removed ∧ Changed getHash S pool s'.1 changed ∧
      (∀ tx ∈ new, tx ∈ S) ∧ ∀ tx ∈ changed, tx ∈ new ∨ tx ∈ vtx := by
  induction vtx generalizing pool removed with
  | nil =>
      obtain rfl := Except.ok.inj h
      exact ⟨[], [], rfl, .refl hpool, nofun,
        nofun⟩
  | cons tx vtx ih =>
      rw [removeConnected] at h
      obtain ⟨⟨pool₁, unused⟩, hremove, h⟩ := bind_eq_ok.mp h
      obtain ⟨⟨pool₂, removed₂⟩, hconflicts, h⟩ := bind_eq_ok.mp h
      have htx := hvtx tx List.mem_cons_self
      have hsingle : ∃ gone, Changed getHash S pool pool₁ gone ∧ ∀ t ∈ gone, t = tx := by
        cases fuel with
        | zero => cases hremove
        | succ fuel =>
            obtain hs := Except.ok.inj hremove
            change removeEntry getHash tx (pool, []) = (pool₁, unused) at hs
            rw [removeEntry] at hs
            split at hs
            case isTrue =>
              obtain ⟨rfl, -⟩ := Prod.mk.inj hs
              exact ⟨[tx], .of_erase htx hpool rfl, fun t ht ↦ List.mem_singleton.mp ht⟩
            case isFalse =>
              obtain ⟨rfl, -⟩ := Prod.mk.inj hs
              exact ⟨[], .refl hpool, nofun⟩
      obtain ⟨gone, hgone, hgone_eq⟩ := hsingle
      obtain ⟨new, rfl, hchanged⟩ := changed_removeConflicts hgone.txs hconflicts
      obtain ⟨new', changed', hnew', hchanged', hnew_sub, hsub'⟩ :=
        ih (fun t ht ↦ hvtx t (List.mem_cons_of_mem _ ht)) hchanged.txs h
      refine ⟨new' ++ new, changed' ++ (new ++ gone), by rw [hnew', List.append_assoc],
        (hgone.trans hchanged).trans hchanged', fun t ht ↦ ?_, fun t ht ↦ ?_⟩
      · exact (List.mem_append.mp ht).elim (hnew_sub t) (hchanged.sub t)
      · rw [List.mem_append, List.mem_append] at ht
        obtain ht | ht | ht := ht
        · exact (hsub' t ht).imp (List.mem_append_left _) (List.mem_cons_of_mem _)
        · exact .inl (List.mem_append_right _ ht)
        · exact .inr (hgone_eq t ht ▸ List.mem_cons_self)

variable {env : BlockEnv} {call : AcceptCall} {view : CCoinsView}

theorem changed_acceptToMemoryPool (htx : tx ∈ S) (hpool : pool.txs ⊆ S)
    (h : acceptToMemoryPool env call view pool tx = .ok pool') :
    Changed env.getTxHash S pool pool' [tx] := by
  obtain ⟨entry, rfl, haccept, -⟩ := acceptToMemoryPool_eq_ok h
  obtain ⟨-, -, -, -, -, rfl⟩ := CTxMemPool.accept_eq_ok.mp haccept
  refine ⟨fun t ht ↦ (List.mem_singleton.mp ht) ▸ htx, fun hash hhash ↦ ?_, ?_⟩
  · rw [CTxMemPool.addUnchecked, Finmap.lookup_insert_of_ne]
    rintro rfl
    exact hhash (List.mem_singleton_self _)
  · rintro t ⟨hash, e, he, rfl⟩
    rw [CTxMemPool.addUnchecked] at he
    dsimp only at he
    obtain ⟨-, rfl⟩ | ⟨-, he⟩ := Finmap.cases_lookup_insert he
    · assumption
    · exact hpool ⟨hash, e, he, rfl⟩

/-- `DisconnectTip` syncs what is accepted again, and forgets what is removed. -/
theorem changed_resurrect {vtx : List CTransaction} (hvtx : ∀ tx ∈ vtx, tx ∈ S)
    (hpool : pool.txs ⊆ S) (h : resurrect env call fuel view vtx pool = .ok pool') :
    ∃ changed, Changed env.getTxHash S pool pool' changed ∧ ∀ tx ∈ changed,
      tx ∈ (resurrectLog env call fuel view vtx pool).1 ∨
      tx ∈ (resurrectLog env call fuel view vtx pool).2 := by
  induction vtx generalizing pool with
  | nil =>
      obtain rfl := Except.ok.inj h
      exact ⟨[], .refl hpool, nofun⟩
  | cons tx vtx ih =>
      rw [resurrect] at h
      obtain ⟨pool₁, hone, h⟩ := bind_eq_ok.mp h
      have hvtx' : ∀ t ∈ vtx, t ∈ S := fun t ht ↦ hvtx t (List.mem_cons_of_mem _ ht)
      rw [resurrectLog, hone]
      dsimp only
      rw [resurrectTx] at hone
      by_cases hcb : tx.isCoinBase = true
      · rw [if_pos hcb] at hone ⊢
        obtain rfl := Except.ok.inj hone
        exact ih hvtx' hpool h
      · rw [if_neg hcb] at hone ⊢
        cases haccept : acceptToMemoryPool env
          { call with fLimitFree := false, fRejectInsaneFee := false } view pool tx with
        | ok pool₂ =>
          rw [haccept] at hone
          obtain rfl := Except.ok.inj hone
          have hchanged := changed_acceptToMemoryPool (hvtx tx List.mem_cons_self) hpool haccept
          obtain ⟨changed, hchanged', hsub⟩ := ih hvtx' hchanged.txs h
          refine ⟨changed ++ [tx], hchanged.trans hchanged', fun t ht ↦ ?_⟩
          obtain ht | ht := List.mem_append.mp ht
          · exact (hsub t ht).imp (List.mem_append_right _) (List.mem_append_right _)
          · exact .inl (List.mem_append_left _ ht)
        | error e =>
          rw [haccept] at hone
          dsimp only at hone
          split at hone
          case isFalse => cases hone
          case isTrue =>
            obtain ⟨⟨pool₂, removed₂⟩, hremove, hone⟩ := bind_eq_ok.mp hone
            obtain rfl := Except.ok.inj hone
            obtain ⟨new, hnew, hchanged⟩ :=
              changed_remove (hvtx tx List.mem_cons_self) hpool hremove
            obtain ⟨changed, hchanged', hsub⟩ := ih hvtx' hchanged.txs h
            refine ⟨changed ++ new, hchanged.trans hchanged', fun t ht ↦ ?_⟩
            dsimp only
            rw [hremove]
            dsimp only at hnew ⊢
            rw [List.append_nil] at hnew
            obtain ht | ht := List.mem_append.mp ht
            · exact (hsub t ht).imp (List.mem_append_right _) (List.mem_append_right _)
            · exact .inr (List.mem_append_left _ (hnew ▸ ht))

end

/-! ## What a sync does to the wallet -/

namespace CWallet

variable {env : WalletEnv} {c c' : ChainView} {w w' w₀ : CWallet} {tx : CTransaction}
  {pblock : Option CBlock} {fWritten fAdded : Bool} {hash : Uint256} {wtx : CWalletTx}
  {wtxIn : CMerkleTx} {o : COutPoint}

/-- The available credit of `hash` is cached. -/
def Cached (w : CWallet) (hash : Uint256) : Prop :=
  ∃ wtx, w.mapWallet.lookup hash = some wtx ∧ wtx.fAvailableCreditCached = true

def SpendsCached (w : CWallet) (tx : CTransaction) : Prop :=
  ∃ txin ∈ tx.vin, w.Cached txin.prevout.hash

/-- What `LoadWallet` checks, and what the functions of the wallet keep. -/
structure WellFormed (env : WalletEnv) (w : CWallet) : Prop where
  key : ∀ hash wtx, w.mapWallet.lookup hash = some wtx →
    wtx.tx ∈ env.node.txs ∧ env.node.getTxHash wtx.tx = hash
  placed : ∀ hash wtx block, w.mapWallet.lookup hash = some wtx → wtx.hashBlock ≠ 0 →
    env.node.readBlock wtx.hashBlock = some block → wtx.tx ∈ block.vtx
  spends : ∀ spend ∈ w.mapTxSpends, ∃ wtx, w.mapWallet.lookup spend.2 = some wtx ∧
    ∃ txin ∈ wtx.tx.vin, txin.prevout = spend.1

/-- What a sync is called with. -/
structure Syncable (env : WalletEnv) (tx : CTransaction) (pblock : Option CBlock) : Prop where
  mem : tx ∈ env.node.txs
  block : ∀ block ∈ pblock, env.node.readBlock (env.node.getBlockHash block.toCBlockHeader) =
    some block ∧ tx ∈ block.vtx

/-- What a sync of `tx` changes. -/
structure Synced (env : WalletEnv) (tx : CTransaction) (w w' : CWallet) : Prop where
  cached : ∀ hash wtx, w'.mapWallet.lookup hash = some wtx → wtx.fAvailableCreditCached = true →
    w.mapWallet.lookup hash = some wtx
  entry : ∀ hash ≠ env.node.getTxHash tx,
    (w'.mapWallet.lookup hash).map CWalletTx.toCMerkleTx =
      (w.mapWallet.lookup hash).map CWalletTx.toCMerkleTx
  mono : w.mapTxSpends ⊆ w'.mapTxSpends
  spends : ∀ spend ∈ w'.mapTxSpends, spend.2 ≠ env.node.getTxHash tx → spend ∈ w.mapTxSpends

theorem Synced.refl : Synced env tx w w :=
  ⟨fun _ _ h _ ↦ h, fun _ _ ↦ rfl, List.Subset.refl _, fun _ h _ ↦ h⟩

theorem Synced.trans {w₁ : CWallet} (h : Synced env tx w w₁) (h' : Synced env tx w₁ w') :
    Synced env tx w w' where
  cached hash wtx hwtx hcached := h.cached hash wtx (h'.cached hash wtx hwtx hcached) hcached
  entry hash hne := (h'.entry hash hne).trans (h.entry hash hne)
  mono := List.Subset.trans h.mono h'.mono
  spends spend hspend hne := h.spends spend (h'.spends spend hspend hne) hne

theorem Synced.cached_of_cached (h : Synced env tx w w') (hcached : w'.Cached hash) :
    w.Cached hash := by
  obtain ⟨wtx, hwtx, hset⟩ := hcached
  exact ⟨wtx, h.cached hash wtx hwtx hset, hset⟩

theorem markDirty_markDirty : wtx.markDirty.markDirty = wtx.markDirty := rfl

theorem mapTxSpends_markSpentDirty {vin : List CTxIn} :
    (w.markSpentDirty vin).mapTxSpends = w.mapTxSpends := by
  rw [markSpentDirty]
  induction vin generalizing w with
  | nil => rfl
  | cons txin vin ih =>
      rw [List.foldl_cons, ih]
      split
      · rfl
      · rfl

theorem lookup_markSpentDirty {vin : List CTxIn} :
    (w.markSpentDirty vin).mapWallet.lookup hash =
      if hash ∈ vin.map (·.prevout.hash) then (w.mapWallet.lookup hash).map CWalletTx.markDirty
      else w.mapWallet.lookup hash := by
  induction vin generalizing w with
  | nil => rw [List.map_nil, if_neg List.not_mem_nil, markSpentDirty, List.foldl_nil]
  | cons txin vin ih =>
      rw [markSpentDirty, List.foldl_cons]
      split
      case h_1 hnone =>
        rw [← markSpentDirty, ih, List.map_cons]
        by_cases hhash : hash = txin.prevout.hash
        · subst hhash
          rw [hnone, Option.map_none, ite_self, ite_self]
        · simp only [List.mem_cons, hhash, false_or]
      case h_2 wtx hwtx =>
        rw [← markSpentDirty, ih, List.map_cons]
        by_cases hhash : hash = txin.prevout.hash
        · subst hhash
          rw [Finmap.lookup_insert, hwtx, if_pos List.mem_cons_self, Option.map_some,
            Option.map_some, markDirty_markDirty, ite_self]
        · rw [Finmap.lookup_insert_of_ne _ hhash]
          simp only [List.mem_cons, hhash, false_or]

theorem not_cached_markSpentDirty {txin : CTxIn} (htxin : txin ∈ tx.vin) :
    ¬(w.markSpentDirty tx.vin).Cached txin.prevout.hash := by
  rintro ⟨wtx, hwtx, hset⟩
  rw [lookup_markSpentDirty, if_pos (List.mem_map_of_mem htxin)] at hwtx
  obtain ⟨wtx', -, rfl⟩ := Option.map_eq_some_iff.mp hwtx
  exact absurd hset Bool.false_ne_true

theorem synced_markSpentDirty {vin : List CTxIn} : Synced env tx w (w.markSpentDirty vin) where
  cached hash wtx hwtx hset := by
    rw [lookup_markSpentDirty] at hwtx
    split at hwtx
    · obtain ⟨wtx', -, rfl⟩ := Option.map_eq_some_iff.mp hwtx
      exact absurd hset Bool.false_ne_true
    · exact hwtx
  entry hash _ := by
    rw [lookup_markSpentDirty]
    split
    · rw [Option.map_map]
      rfl
    · rfl
  mono := by rw [mapTxSpends_markSpentDirty]; exact List.Subset.refl _
  spends spend hspend _ := by rwa [mapTxSpends_markSpentDirty] at hspend

/-- The caches do not matter. -/
theorem WellFormed.of_entry (h : w.WellFormed env)
    (hentry : ∀ hash, (w'.mapWallet.lookup hash).map CWalletTx.toCMerkleTx =
      (w.mapWallet.lookup hash).map CWalletTx.toCMerkleTx)
    (hspends : w'.mapTxSpends = w.mapTxSpends) : w'.WellFormed env := by
  have hentry' : ∀ hash wtx, w'.mapWallet.lookup hash = some wtx →
      ∃ wtx', w.mapWallet.lookup hash = some wtx' ∧ wtx'.toCMerkleTx = wtx.toCMerkleTx := by
    intro hash wtx hwtx
    have heq := hentry hash
    rw [hwtx] at heq
    exact Option.map_eq_some_iff.mp heq.symm
  refine ⟨fun hash wtx hwtx ↦ ?_, fun hash wtx block hwtx hnull hread ↦ ?_, fun spend hspend ↦ ?_⟩
  · obtain ⟨wtx', hwtx', heq⟩ := hentry' hash wtx hwtx
    rw [← heq]
    exact h.key hash wtx' hwtx'
  · obtain ⟨wtx', hwtx', heq⟩ := hentry' hash wtx hwtx
    rw [← heq] at hnull hread ⊢
    exact h.placed hash wtx' block hwtx' hnull hread
  · rw [hspends] at hspend
    obtain ⟨wtx, hwtx, hin⟩ := h.spends spend hspend
    have heq := hentry spend.2
    rw [hwtx] at heq
    obtain ⟨wtx', hwtx', heq⟩ := Option.map_eq_some_iff.mp heq
    exact ⟨wtx', hwtx', by rwa [heq]⟩

theorem WellFormed.markSpentDirty (h : w.WellFormed env) {vin : List CTxIn} :
    (w.markSpentDirty vin).WellFormed env := by
  refine h.of_entry (fun hash ↦ ?_) mapTxSpends_markSpentDirty
  rw [lookup_markSpentDirty]
  split
  · rw [Option.map_map]
    rfl
  · rfl

/-- `AddToWallet` of a transaction that the wallet has or has not. -/
theorem synced_addToWallet (htx : wtxIn.tx = tx) :
    Synced env tx w (w.addToWallet env fWritten wtxIn).2 := by
  subst htx
  rw [addToWallet]
  dsimp only
  split
  case h_1 hnone =>
    refine ⟨fun hash wtx hwtx hset ↦ ?_, fun hash hne ↦ ?_, List.subset_append_right _ _,
      fun spend hspend hne ↦ ?_⟩
    · obtain ⟨-, rfl⟩ | ⟨-, hwtx⟩ := Finmap.cases_lookup_insert hwtx
      · exact absurd hset Bool.false_ne_true
      · exact hwtx
    · rw [Finmap.lookup_insert_of_ne _ hne]
    · obtain hspend | hspend := List.mem_append.mp hspend
      · rw [addToSpends] at hspend
        split at hspend
        · exact absurd hspend List.not_mem_nil
        · obtain ⟨txin, -, rfl⟩ := List.mem_map.mp hspend
          exact absurd rfl hne
      · exact hspend
  case h_2 wtx₀ hwtx₀ =>
    refine ⟨fun hash wtx hwtx hset ↦ ?_, fun hash hne ↦ ?_, List.Subset.refl _,
      fun spend hspend _ ↦ hspend⟩
    · obtain ⟨-, rfl⟩ | ⟨-, hwtx⟩ := Finmap.cases_lookup_insert hwtx
      · exact absurd hset Bool.false_ne_true
      · exact hwtx
    · rw [Finmap.lookup_insert_of_ne _ hne]

theorem hashBlock_merge : (wtx.merge wtxIn).1.hashBlock = wtx.hashBlock ∨
    (wtx.merge wtxIn).1.hashBlock = wtxIn.hashBlock := by
  rw [CWalletTx.merge]
  dsimp only
  split
  · exact .inr rfl
  · exact .inl rfl

theorem WellFormed.addToWallet (h : w.WellFormed env) (hmem : wtxIn.tx ∈ env.node.txs)
    (hplaced : ∀ block, wtxIn.hashBlock ≠ 0 → env.node.readBlock wtxIn.hashBlock = some block →
      wtxIn.tx ∈ block.vtx) :
    (w.addToWallet env fWritten wtxIn).2.WellFormed env := by
  rw [CWallet.addToWallet]
  dsimp only
  split
  case h_1 hnone =>
    refine ⟨fun hash wtx hwtx ↦ ?_, fun hash wtx block hwtx hnull hread ↦ ?_,
      fun spend hspend ↦ ?_⟩
    · obtain ⟨rfl, rfl⟩ | ⟨-, hwtx⟩ := Finmap.cases_lookup_insert hwtx
      · exact ⟨hmem, rfl⟩
      · exact h.key hash wtx hwtx
    · obtain ⟨-, rfl⟩ | ⟨-, hwtx⟩ := Finmap.cases_lookup_insert hwtx
      · exact hplaced block hnull hread
      · exact h.placed hash wtx block hwtx hnull hread
    · obtain hspend | hspend := List.mem_append.mp hspend
      · rw [addToSpends] at hspend
        split at hspend
        · exact absurd hspend List.not_mem_nil
        · obtain ⟨txin, htxin, rfl⟩ := List.mem_map.mp hspend
          exact ⟨_, Finmap.lookup_insert _, txin, htxin, rfl⟩
      · obtain ⟨wtx, hwtx, hin⟩ := h.spends spend hspend
        have hne : spend.2 ≠ env.node.getTxHash wtxIn.tx := by
          rintro heq
          rw [heq, hnone] at hwtx
          cases hwtx
        exact ⟨wtx, by rwa [Finmap.lookup_insert_of_ne _ hne], hin⟩
  case h_2 wtx₀ hwtx₀ =>
    have hsame : wtx₀.tx = wtxIn.tx := by
      obtain ⟨hmem₀, hkey₀⟩ := h.key _ _ hwtx₀
      exact env.node.getTxHash_injOn hmem₀ hmem hkey₀
    refine ⟨fun hash wtx hwtx ↦ ?_, fun hash wtx block hwtx hnull hread ↦ ?_,
      fun spend hspend ↦ ?_⟩
    · obtain ⟨rfl, rfl⟩ | ⟨-, hwtx⟩ := Finmap.cases_lookup_insert hwtx
      · exact h.key _ wtx₀ hwtx₀
      · exact h.key hash wtx hwtx
    · obtain ⟨rfl, rfl⟩ | ⟨-, hwtx⟩ := Finmap.cases_lookup_insert hwtx
      · change (wtx₀.merge wtxIn).1.hashBlock ≠ 0 at hnull
        change env.node.readBlock (wtx₀.merge wtxIn).1.hashBlock = some block at hread
        change wtx₀.tx ∈ block.vtx
        have hblock : (wtx₀.merge wtxIn).1.hashBlock = wtx₀.hashBlock ∨
            (wtx₀.merge wtxIn).1.hashBlock = wtxIn.hashBlock := hashBlock_merge
        obtain heq | heq := hblock
        · rw [heq] at hnull hread
          exact h.placed _ _ block hwtx₀ hnull hread
        · rw [heq] at hnull hread
          rw [hsame]
          exact hplaced block hnull hread
      · exact h.placed hash wtx block hwtx hnull hread
    · obtain ⟨wtx, hwtx, hin⟩ := h.spends spend hspend
      by_cases hhash : spend.2 = env.node.getTxHash wtxIn.tx
      · rw [hhash, hwtx₀] at hwtx
        obtain rfl := Option.some.inj hwtx
        exact ⟨(wtx₀.merge wtxIn).1.markDirty, by rw [hhash, Finmap.lookup_insert], hin⟩
      · exact ⟨wtx, by rwa [Finmap.lookup_insert_of_ne _ hhash], hin⟩

theorem addToWallet_of_written (h : fWritten = true) :
    (w.addToWallet env fWritten wtxIn).1 = true := by
  subst h
  rw [addToWallet]
  dsimp only
  split
  · rfl
  · exact Bool.or_true _

theorem tx_setMerkleBranch {block : CBlock} :
    (wtxIn.setMerkleBranch env.node.toBlockEnv block).tx = wtxIn.tx := by
  rw [CMerkleTx.setMerkleBranch]
  dsimp only
  split
  · rfl
  · rfl

theorem hashBlock_setMerkleBranch {block : CBlock} :
    (wtxIn.setMerkleBranch env.node.toBlockEnv block).hashBlock =
      env.node.getBlockHash block.toCBlockHeader := by
  rw [CMerkleTx.setMerkleBranch]
  dsimp only
  split
  · rfl
  · rfl

/-- What `AddToWalletIfInvolvingMe` does: nothing, or what `AddToWallet` does. -/
theorem addToWalletIfInvolvingMe_eq_ok {r : Bool × CWallet}
    (h : w.addToWalletIfInvolvingMe env fWritten tx pblock = .ok r) :
    (r = (false, w) ∧ w.mapWallet.lookup (env.node.getTxHash tx) = none) ∨
      ∃ wtxIn : CMerkleTx, wtxIn.tx = tx ∧ r = w.addToWallet env fWritten wtxIn ∧
        (wtxIn.hashBlock = 0 ∨
          ∃ block ∈ pblock, wtxIn.hashBlock = env.node.getBlockHash block.toCBlockHeader) := by
  have hadd : ∃ wtxIn : CMerkleTx, wtxIn.tx = tx ∧
      pblock.elim { tx := tx } (fun block ↦
        CMerkleTx.setMerkleBranch env.node.toBlockEnv block { tx := tx }) = wtxIn ∧
      (wtxIn.hashBlock = 0 ∨
        ∃ block ∈ pblock, wtxIn.hashBlock = env.node.getBlockHash block.toCBlockHeader) := by
    cases pblock with
    | none => exact ⟨_, rfl, rfl, .inl rfl⟩
    | some block =>
        exact ⟨_, tx_setMerkleBranch, rfl, .inr ⟨block, rfl, hashBlock_setMerkleBranch⟩⟩
  obtain ⟨wtxIn, htx, heq, hblock⟩ := hadd
  rw [addToWalletIfInvolvingMe] at h
  dsimp only at h
  rw [heq] at h
  split at h
  case isTrue => exact .inr ⟨wtxIn, htx, (Except.ok.inj h).symm, hblock⟩
  case isFalse hexisted =>
    obtain ⟨fInvolved, -, h⟩ := bind_eq_ok.mp h
    cases fInvolved with
    | false =>
        refine .inl ⟨(Except.ok.inj h).symm, ?_⟩
        rwa [Option.isSome_iff_ne_none, not_not] at hexisted
    | true => exact .inr ⟨wtxIn, htx, (Except.ok.inj h).symm, hblock⟩

theorem addToWalletIfInvolvingMe_spec {r : Bool × CWallet} (hw : w.WellFormed env)
    (hsyncable : Syncable env tx pblock)
    (h : w.addToWalletIfInvolvingMe env fWritten tx pblock = .ok r) :
    Synced env tx w r.2 ∧ r.2.WellFormed env ∧ (fWritten = true → r.1 = false →
      r.2.mapWallet.lookup (env.node.getTxHash tx) = none) := by
  obtain ⟨rfl, hnone⟩ | ⟨wtxIn, rfl, rfl, hblock⟩ := addToWalletIfInvolvingMe_eq_ok h
  · exact ⟨.refl, hw, fun _ _ ↦ hnone⟩
  · refine ⟨synced_addToWallet rfl, hw.addToWallet hsyncable.mem fun block hnull hread ↦ ?_,
      fun hwritten hfalse ↦ ?_⟩
    · obtain hzero | ⟨block', hblock', heq⟩ := hblock
      · exact absurd hzero hnull
      · obtain ⟨hread', hmem⟩ := hsyncable.block block' hblock'
        rw [heq, hread'] at hread
        obtain rfl := Option.some.inj hread
        exact hmem
    · rw [addToWallet_of_written hwritten] at hfalse
      cases hfalse

/-- A sync, which marks what the transaction spends unless it is not in the wallet, or was not
written. -/
theorem syncTransaction_spec (hw : w.WellFormed env) (hsyncable : Syncable env tx pblock)
    (h : w.syncTransaction env fWritten tx pblock = .ok w') :
    Synced env tx w w' ∧ w'.WellFormed env ∧
      (fWritten = true → (w'.mapWallet.lookup (env.node.getTxHash tx)).isSome →
        ∀ txin ∈ tx.vin, ¬w'.Cached txin.prevout.hash) := by
  obtain ⟨⟨fAdded, w₁⟩, hadd, h⟩ := bind_eq_ok.mp h
  obtain ⟨hsynced, hw₁, hnone⟩ := addToWalletIfInvolvingMe_spec hw hsyncable hadd
  obtain rfl := Except.ok.inj h
  cases fAdded with
  | true =>
      exact ⟨hsynced.trans synced_markSpentDirty, hw₁.markSpentDirty,
        fun _ _ txin htxin ↦ not_cached_markSpentDirty htxin⟩
  | false =>
      refine ⟨hsynced, hw₁, fun hwritten hsome ↦ ?_⟩
      rw [if_neg Bool.false_ne_true, hnone hwritten rfl] at hsome
      exact absurd hsome Bool.false_ne_true

/-! ## What the credit depends on -/

theorem isLive_congr (h : (w'.mapWallet.lookup hash).map CWalletTx.toCMerkleTx =
    (w.mapWallet.lookup hash).map CWalletTx.toCMerkleTx) :
    w'.isLive env c hash = w.isLive env c hash := by
  rw [isLive, isLive]
  cases hw' : w'.mapWallet.lookup hash with
  | none =>
      rw [hw', Option.map_none] at h
      rw [Option.map_eq_none_iff.mp h.symm]
  | some wtx' =>
      rw [hw', Option.map_some] at h
      obtain ⟨wtx, hwtx, heq⟩ := Option.map_eq_some_iff.mp h.symm
      rw [hwtx]
      dsimp only
      rw [heq]

theorem isSpent_congr
    (hspends : ∀ hash, (o, hash) ∈ w'.mapTxSpends ↔ (o, hash) ∈ w.mapTxSpends)
    (hlive : ∀ hash, (o, hash) ∈ w.mapTxSpends → w'.isLive env c' hash = w.isLive env c hash) :
    w'.isSpent env c' o = w.isSpent env c o := by
  rw [Bool.eq_iff_iff, isSpent, isSpent, List.any_eq_true, List.any_eq_true]
  constructor
  · rintro ⟨⟨o', hash⟩, hmem, hspent⟩
    rw [Bool.and_eq_true, decide_eq_true_eq] at hspent
    obtain ⟨rfl, hl⟩ := hspent
    have hmem := (hspends hash).mp hmem
    exact ⟨_, hmem, by rw [← hlive hash hmem, hl, decide_eq_true rfl]; rfl⟩
  · rintro ⟨⟨o', hash⟩, hmem, hspent⟩
    rw [Bool.and_eq_true, decide_eq_true_eq] at hspent
    obtain ⟨rfl, hl⟩ := hspent
    exact ⟨_, (hspends hash).mpr hmem, by rw [hlive hash hmem, hl, decide_eq_true rfl]; rfl⟩

theorem availableCredit_congr
    (h : ∀ i, w'.isSpent env c' ⟨env.node.getTxHash tx, i⟩ =
      w.isSpent env c ⟨env.node.getTxHash tx, i⟩) :
    w'.availableCredit env c' tx = w.availableCredit env c tx := by
  rw [availableCredit, availableCredit]
  congr 1
  funext nCredit ⟨txout, i⟩
  dsimp only
  rw [h i]

/-- Every cached credit is right, but for what `pending` may have changed. -/
def CreditUpTo (env : WalletEnv) (c : ChainView) (w : CWallet) (pending : List Uint256) : Prop :=
  ∀ hash wtx, w.mapWallet.lookup hash = some wtx → wtx.fAvailableCreditCached = true →
    (∃ spend ∈ w.mapTxSpends, spend.1.hash = hash ∧ spend.2 ∈ pending) ∨
      w.availableCredit env c wtx.tx = .ok wtx.nAvailableCreditCached

theorem CreditUpTo.get (h : w.CreditUpTo env c []) (hwtx : w.mapWallet.lookup hash = some wtx)
    (hset : wtx.fAvailableCreditCached = true) :
    w.availableCredit env c wtx.tx = .ok wtx.nAvailableCreditCached := by
  obtain ⟨spend, -, -, hmem⟩ | hcredit := h hash wtx hwtx hset
  · exact absurd hmem List.not_mem_nil
  · exact hcredit

theorem toCMerkleTx_getAvailableCredit {fUseCache : Bool} :
    (w.getAvailableCredit env c fUseCache wtx).2.toCMerkleTx = wtx.toCMerkleTx := by
  rw [getAvailableCredit]
  split
  · rfl
  · split
    · rfl
    · split
      · rfl
      · rfl

/-- What `GetAvailableCredit` leaves in the cache is right if what it finds there is. -/
theorem availableCredit_getAvailableCredit {fUseCache : Bool}
    (h : wtx.fAvailableCreditCached = true →
      w.availableCredit env c wtx.tx = .ok wtx.nAvailableCreditCached)
    (hset : (w.getAvailableCredit env c fUseCache wtx).2.fAvailableCreditCached = true) :
    w.availableCredit env c (w.getAvailableCredit env c fUseCache wtx).2.tx =
      .ok (w.getAvailableCredit env c fUseCache wtx).2.nAvailableCreditCached := by
  rw [getAvailableCredit] at hset ⊢
  split
  case isTrue himmature =>
    rw [if_pos himmature] at hset
    exact h hset
  case isFalse himmature =>
    rw [if_neg himmature] at hset
    split
    case isTrue hcached => exact h (Bool.and_eq_true_iff.mp hcached).2
    case isFalse hcached =>
      rw [if_neg hcached] at hset
      split
      case h_1 e he =>
        rw [he] at hset
        exact h hset
      case h_2 nCredit hcredit => exact hcredit

/-- Where the cache is right, it makes no difference. -/
theorem getAvailableCredit_eq (h : wtx.fAvailableCreditCached = true →
    w.availableCredit env c wtx.tx = .ok wtx.nAvailableCreditCached) :
    (w.getAvailableCredit env c true wtx).1 = (w.getAvailableCredit env c false wtx).1 := by
  rw [getAvailableCredit, getAvailableCredit, Bool.true_and, Bool.false_and,
    if_neg Bool.false_ne_true]
  split
  case isTrue => rfl
  case isFalse =>
    split
    case isTrue hcached => rw [h hcached]
    case isFalse => rfl

theorem CreditUpTo.sync {pending : List Uint256} (hw : w.WellFormed env)
    (h : w.CreditUpTo env c (env.node.getTxHash tx :: pending))
    (hsyncable : Syncable env tx pblock) (hheeded : w.SpendsCached tx → fWritten = true)
    (hsync : w.syncTransaction env fWritten tx pblock = .ok w') : w'.CreditUpTo env c pending := by
  obtain ⟨hsynced, hw', hdirty⟩ := syncTransaction_spec hw hsyncable hsync
  intro hash wtx hwtx hset
  have hcached' : w'.Cached hash := ⟨wtx, hwtx, hset⟩
  -- what `tx` spends is not cached any more, or was not
  have hnone : ∀ spend ∈ w'.mapTxSpends, spend.1.hash = hash →
      spend.2 ≠ env.node.getTxHash tx := by
    rintro ⟨o, hash'⟩ hspend rfl rfl
    obtain ⟨wtx', hwtx', txin, htxin, rfl⟩ := hw'.spends _ hspend
    obtain ⟨hmem', hkey'⟩ := hw'.key _ _ hwtx'
    obtain rfl := env.node.getTxHash_injOn hmem' hsyncable.mem hkey'
    have hwritten := hheeded ⟨txin, htxin, hsynced.cached_of_cached hcached'⟩
    exact hdirty hwritten (by rw [hwtx']; rfl) txin htxin hcached'
  have hwtx₀ := hsynced.cached hash wtx hwtx hset
  obtain ⟨spend, hspend, hhash, hpending⟩ | hcredit := h hash wtx hwtx₀ hset
  · have hspend' := hsynced.mono hspend
    obtain heq | hpending := List.mem_cons.mp hpending
    · exact absurd heq (hnone spend hspend' hhash)
    · exact .inl ⟨spend, hspend', hhash, hpending⟩
  · refine .inr ?_
    rw [← hcredit, availableCredit_congr fun i ↦ ?_]
    obtain ⟨-, hkey⟩ := hw.key hash wtx hwtx₀
    refine isSpent_congr (fun hash' ↦ ⟨fun hmem ↦ ?_, fun hmem ↦ hsynced.mono hmem⟩)
      fun hash' hmem ↦ isLive_congr (hsynced.entry hash' ?_)
    · exact hsynced.spends _ hmem (hnone _ hmem hkey)
    · exact hnone _ (hsynced.mono hmem) hkey

theorem syncTransactions_spec {disk : Nat → Bool} {i : Nat}
    {syncs : List (CTransaction × Option CBlock)} (hw : w.WellFormed env)
    (hsyncable : ∀ p ∈ syncs, Syncable env p.1 p.2)
    (hheeded : ∀ j p, syncs[j]? = some p → w.SpendsCached p.1 → disk (i + j) = true)
    (hcredit : w.CreditUpTo env c (syncs.map fun p ↦ env.node.getTxHash p.1))
    (h : w.syncTransactions env disk i syncs = .ok w') :
    w'.WellFormed env ∧ w'.CreditUpTo env c [] := by
  induction syncs generalizing i w with
  | nil =>
      obtain rfl := Except.ok.inj h
      exact ⟨hw, hcredit⟩
  | cons p syncs ih =>
      obtain ⟨tx, pblock⟩ := p
      obtain ⟨w₁, hsync, h⟩ := bind_eq_ok.mp h
      have hfirst := hsyncable (tx, pblock) List.mem_cons_self
      obtain ⟨hsynced, hw₁, -⟩ := syncTransaction_spec hw hfirst hsync
      refine ih hw₁ (fun p hp ↦ hsyncable p (List.mem_cons_of_mem _ hp))
        (fun j p hp ⟨txin, htxin, hcached⟩ ↦ ?_)
        (hcredit.sync hw hfirst (hheeded 0 (tx, pblock) rfl) hsync) h
      have hj := hheeded (j + 1) p hp ⟨txin, htxin, hsynced.cached_of_cached hcached⟩
      rwa [Nat.add_assoc, Nat.add_comm 1 j]

end CWallet

/-! ## What the depths depend on -/

namespace ChainView

variable {env : WalletEnv} {c c' : ChainView} {mtx : CMerkleTx} {hash p : Uint256} {nHeight : Int}

theorem contains_append {l : List Uint256} {pool pool' : CTxMemPool} (h : hash ≠ p) :
    ChainView.contains ⟨l ++ [p], pool'⟩ hash nHeight =
      ChainView.contains ⟨l, pool⟩ hash nHeight := by
  rw [ChainView.contains, ChainView.contains]
  congr 1
  rw [List.getElem?_append]
  split
  case isTrue => rfl
  case isFalse hlen =>
    rw [List.getElem?_eq_none (not_lt.mp hlen), Bool.eq_iff_iff, beq_iff_eq, beq_iff_eq]
    constructor
    · intro heq
      obtain ⟨hlt, heq⟩ := List.getElem?_eq_some_iff.mp heq
      rw [List.getElem_singleton] at heq
      exact absurd heq.symm h
    · intro heq
      cases heq

theorem getDepthInChain_nonneg : 0 ≤ c.getDepthInChain env mtx := by
  rw [getDepthInChain]
  split
  case isTrue => exact le_rfl
  case isFalse =>
    split
    case h_1 => exact le_rfl
    case h_2 nHeight hindex =>
      split
      case isTrue => exact le_rfl
      case isFalse hcontains =>
        split
        case isTrue => exact le_rfl
        case isFalse =>
          rw [Bool.not_eq_true', Bool.not_eq_false, ChainView.contains, Bool.and_eq_true,
            decide_eq_true_eq, beq_iff_eq] at hcontains
          obtain ⟨hlt, -⟩ := List.getElem?_eq_some_iff.mp hcontains.2
          rw [ChainView.height]
          omega

theorem getDepthInChain_eq_zero_congr
    (h : ∀ nHeight, c'.contains mtx.hashBlock nHeight = c.contains mtx.hashBlock nHeight) :
    c'.getDepthInChain env mtx = 0 ↔ c.getDepthInChain env mtx = 0 := by
  rw [getDepthInChain, getDepthInChain]
  split
  case isTrue => exact Iff.rfl
  case isFalse =>
    split
    case h_1 => exact Iff.rfl
    case h_2 nHeight hindex =>
      rw [h nHeight]
      split
      case isTrue => exact Iff.rfl
      case isFalse hcontains =>
        have hcontains' := hcontains
        rw [← h nHeight] at hcontains'
        split
        case isTrue => exact Iff.rfl
        case isFalse =>
          rw [Bool.not_eq_true', Bool.not_eq_false, ChainView.contains, Bool.and_eq_true,
            decide_eq_true_eq, beq_iff_eq] at hcontains hcontains'
          obtain ⟨hlt, -⟩ := List.getElem?_eq_some_iff.mp hcontains.2
          obtain ⟨hlt', -⟩ := List.getElem?_eq_some_iff.mp hcontains'.2
          rw [ChainView.height, ChainView.height]
          omega

theorem getDepthInMainChain_nonneg_iff : 0 ≤ c.getDepthInMainChain env mtx ↔
    ¬(c.getDepthInChain env mtx = 0 ∧
      c.mempool.exists (env.node.getTxHash mtx.tx) = false) := by
  have hnonneg : 0 ≤ c.getDepthInChain env mtx := getDepthInChain_nonneg
  rw [getDepthInMainChain]
  split
  case isTrue h => exact iff_of_false (by decide) (not_not.mpr h)
  case isFalse h => exact iff_of_true hnonneg h

end ChainView

namespace CWallet

variable {env : WalletEnv} {c c' : ChainView} {w : CWallet} {hash : Uint256}

theorem isLive_view (hw : w.WellFormed env)
    (hchain : ∀ wtx nHeight, w.mapWallet.lookup hash = some wtx →
      c'.contains wtx.hashBlock nHeight = c.contains wtx.hashBlock nHeight)
    (hpool : c'.mempool.exists hash = c.mempool.exists hash) :
    w.isLive env c' hash = w.isLive env c hash := by
  rw [isLive, isLive]
  split
  case h_1 => rfl
  case h_2 wtx hwtx =>
    rw [Bool.eq_iff_iff, decide_eq_true_eq, decide_eq_true_eq,
      ChainView.getDepthInMainChain_nonneg_iff, ChainView.getDepthInMainChain_nonneg_iff,
      (hw.key hash wtx hwtx).2, hpool,
      ChainView.getDepthInChain_eq_zero_congr fun nHeight ↦ hchain wtx nHeight hwtx]

/-- What a call changes before it syncs. -/
theorem CreditUpTo.of_view {pending : List Uint256} (hw : w.WellFormed env)
    (h : w.CreditUpTo env c [])
    (hlive : ∀ spend ∈ w.mapTxSpends, w.Cached spend.1.hash → spend.2 ∉ pending →
      w.isLive env c' spend.2 = w.isLive env c spend.2) : w.CreditUpTo env c' pending := by
  intro hash wtx hwtx hset
  by_cases hpending : ∃ spend ∈ w.mapTxSpends, spend.1.hash = hash ∧ spend.2 ∈ pending
  · exact .inl hpending
  · refine .inr ?_
    rw [← h.get hwtx hset, availableCredit_congr fun i ↦ ?_]
    obtain ⟨-, hkey⟩ := hw.key hash wtx hwtx
    refine isSpent_congr (fun _ ↦ Iff.rfl) fun hash' hmem ↦ hlive _ hmem ?_ fun hin ↦ ?_
    · rw [hkey]
      exact ⟨wtx, hwtx, hset⟩
    · exact hpending ⟨_, hmem, hkey, hin⟩

end CWallet

/-! ## The calls -/

namespace MempoolState

variable {node : MempoolNode} {call : MempoolCall} {s : MempoolState} {e : Failure}

theorem mempool_recordUndo (s : MempoolState) (env : BlockEnv) (fuel : Nat) (block : CBlock)
    (pindex pindex' : ConnectIndex) :
    (s.recordUndo env fuel block pindex pindex').mempool = s.mempool := by
  rw [recordUndo]
  split
  · split
    · rfl
    · rfl
  · rfl

theorem mempool_connectTip_of_error (h : (s.connectTip node call).2 = .error e) :
    (s.connectTip node call).1.mempool = s.mempool := by
  rw [connectTip] at h ⊢
  split
  case h_1 => rfl
  case h_2 block hblock =>
    simp only [hblock] at h
    dsimp only
    split
    case h_1 => exact mempool_recordUndo _ _ _ _ _ _
    case h_2 r hr =>
      simp only [hr] at h
      split
      case h_1 => exact mempool_recordUndo _ _ _ _ _ _
      case h_2 hwrite =>
        simp only [hwrite] at h
        split
        case h_1 => exact mempool_recordUndo _ _ _ _ _ _
        case h_2 pool removed hremove =>
          rw [hremove] at h
          cases h

theorem mempool_disconnectTip_of_error (h : (s.disconnectTip node call).2 = .error e) :
    (s.disconnectTip node call).1.mempool = s.mempool := by
  rw [disconnectTip] at h ⊢
  split
  case h_1 => rfl
  case h_2 block hblock =>
    simp only [hblock] at h
    dsimp only
    split
    case h_1 => rfl
    case h_2 => rfl
    case h_3 view hdisconnect =>
      simp only [hdisconnect] at h
      split
      case h_1 => rfl
      case h_2 hwrite =>
        simp only [hwrite] at h
        split
        case h_1 => rfl
        case h_2 pool hresurrect =>
          rw [hresurrect] at h
          cases h

end MempoolState

/-- What a call may be given. -/
def WalletOp.Admissible (env : WalletEnv) : WalletOp → Prop
  | .accept _ tx _ => tx ∈ env.node.txs
  | .connectTip call _ | .disconnectTip call _ => env.node.Indexed call.pindex
  | .getAvailableCredit _ _ => True

/-- What `WriteToDisk` returns in a call. -/
def WalletOp.disk : WalletOp → Nat → Bool
  | .accept _ _ disk | .connectTip _ disk | .disconnectTip _ disk => disk
  | .getAvailableCredit _ _ => fun _ ↦ true

namespace WalletNode

variable {env : WalletEnv} {s s' : WalletNode} {ret : Except Failure Unit} {call : MempoolCall}
  {disk : Nat → Bool} {tx : CTransaction}

/-- What the wallet is loaded to, and every call keeps. -/
structure Inv (env : WalletEnv) (s : WalletNode) : Prop where
  pool : s.pool.mempool.txs ⊆ env.node.txs
  wallet : s.wallet.WellFormed env
  credit : s.wallet.CreditUpTo env s.view []

/-- A node whose wallet is loaded, with no cache. -/
structure Loaded (env : WalletEnv) (s : WalletNode) : Prop where
  pool : s.pool.mempool.txs ⊆ env.node.txs
  wallet : s.wallet.WellFormed env
  cached : ∀ hash, ¬s.wallet.Cached hash

theorem Loaded.inv (h : s.Loaded env) : s.Inv env where
  pool := h.pool
  wallet := h.wallet
  credit hash wtx hwtx hset := absurd ⟨wtx, hwtx, hset⟩ (h.cached hash)

/-- What a call syncs. -/
def syncs (env : WalletEnv) (s : WalletNode) : WalletOp → List (CTransaction × Option CBlock)
  | .accept _ tx _ => [(tx, none)]
  | .connectTip call _ => s.connectSyncs env call
  | .disconnectTip call _ => s.disconnectSyncs env call
  | .getAvailableCredit _ _ => []

/-- What the pool loses in a call of `DisconnectTip` that is not put back first. -/
def dropped (env : WalletEnv) (s : WalletNode) : WalletOp → List CTransaction
  | .disconnectTip call _ => (s.disconnectLog env call).2
  | _ => []

/-- What spends from a transaction with a cached credit is written when it is synced, and it is
synced if `DisconnectTip` drops it from the pool. -/
structure Heeded (env : WalletEnv) (s : WalletNode) (op : WalletOp) : Prop where
  written : ∀ i p, (s.syncs env op)[i]? = some p → s.wallet.SpendsCached p.1 → op.disk i = true
  synced : ∀ tx ∈ s.dropped env op, ∀ wtx,
    s.wallet.mapWallet.lookup (env.node.getTxHash tx) = some wtx →
    s.wallet.SpendsCached wtx.tx →
    ∃ p ∈ s.syncs env op, env.node.getTxHash p.1 = env.node.getTxHash tx

/-- A call that returns, with or without success. -/
structure Step (env : WalletEnv) (s : WalletNode) (op : WalletOp) (s' : WalletNode) : Prop where
  admissible : op.Admissible env
  apply : ∃ ret, s.apply env op = .ok (s', ret)

theorem finish_eq_ok {result : MempoolState × Except Failure Unit}
    {syncs : List (CTransaction × Option CBlock)} {chainActive : List Uint256}
    (h : s.finish env result disk syncs chainActive = .ok (s', ret)) :
    result = (s'.pool, ret) ∧
      s.wallet.syncTransactions env disk 0 syncs = .ok s'.wallet ∧
      (ret = .ok () ∧ s'.chainActive = chainActive ∨
        ∃ e, ret = .error e ∧ s'.chainActive = s.chainActive) := by
  obtain ⟨pool, _ | _⟩ := result
  case error e =>
    rw [finish] at h
    split at h
    case isTrue => cases h
    case isFalse =>
      obtain ⟨wallet, hsyncs, h⟩ := bind_eq_ok.mp h
      obtain ⟨rfl, rfl⟩ := Prod.mk.inj (Except.ok.inj h)
      exact ⟨rfl, hsyncs, .inr ⟨e, rfl, rfl⟩⟩
  case ok =>
    obtain ⟨wallet, hsyncs, h⟩ := bind_eq_ok.mp h
    obtain ⟨rfl, rfl⟩ := Prod.mk.inj (Except.ok.inj h)
    exact ⟨rfl, hsyncs, .inl ⟨rfl, rfl⟩⟩

/-- The end of a call.  If it succeeds, what it syncs accounts for what it changes. -/
theorem Inv.finish {result : MempoolState × Except Failure Unit}
    {syncs : List (CTransaction × Option CBlock)} {chainActive : List Uint256} (h : s.Inv env)
    (hfinish : s.finish env result disk syncs chainActive = .ok (s', ret))
    (hsyncable : ∀ p ∈ syncs, CWallet.Syncable env p.1 p.2)
    (hwritten : ∀ i p, syncs[i]? = some p → s.wallet.SpendsCached p.1 → disk i = true)
    (herror : ∀ e, result.2 = .error e → result.1.mempool = s.pool.mempool)
    (hok : result.2 = .ok () → result.1.mempool.txs ⊆ env.node.txs ∧
      ∀ spend ∈ s.wallet.mapTxSpends, s.wallet.Cached spend.1.hash →
        spend.2 ∉ syncs.map (fun p ↦ env.node.getTxHash p.1) →
        s.wallet.isLive env ⟨chainActive, result.1.mempool⟩ spend.2 =
          s.wallet.isLive env s.view spend.2) : s'.Inv env := by
  obtain ⟨rfl, hsyncs, hchain⟩ := finish_eq_ok hfinish
  have hchanged : s'.pool.mempool.txs ⊆ env.node.txs ∧
      ∀ spend ∈ s.wallet.mapTxSpends, s.wallet.Cached spend.1.hash →
        spend.2 ∉ syncs.map (fun p ↦ env.node.getTxHash p.1) →
        s.wallet.isLive env s'.view spend.2 = s.wallet.isLive env s.view spend.2 := by
    obtain ⟨rfl, rfl⟩ | ⟨e, rfl, hchain⟩ := hchain
    · exact hok rfl
    · have hview : s'.view = s.view := by
        rw [WalletNode.view, WalletNode.view, hchain, ← herror e rfl]
      rw [hview, herror e rfl]
      exact ⟨h.pool, fun _ _ _ _ ↦ rfl⟩
  obtain ⟨hpool, hlive⟩ := hchanged
  obtain ⟨hwallet, hcredit⟩ := CWallet.syncTransactions_spec h.wallet hsyncable
    (fun j p hp hspends ↦ by rw [Nat.zero_add]; exact hwritten j p hp hspends)
    (h.credit.of_view h.wallet hlive) hsyncs
  exact ⟨hpool, hwallet, hcredit⟩

theorem Inv.accept {call : AcceptCall} (h : s.Inv env) (htx : tx ∈ env.node.txs)
    (hheeded : s.Heeded env (.accept call tx disk))
    (hstep : s.accept env call tx disk = .ok (s', ret)) : s'.Inv env := by
  refine h.finish hstep (fun p hp ↦ ?_) (fun i p hp ↦ ?_) (fun e he ↦ ?_) fun hok ↦ ?_
  · split at hp
    · obtain rfl := List.mem_singleton.mp hp
      exact ⟨htx, fun block hblock ↦ by cases hblock⟩
    · exact absurd hp List.not_mem_nil
  · split at hp
    · exact hheeded.written i p hp
    · cases hp
  · rw [MempoolState.accept] at he ⊢
    split at he
    · rfl
    · cases he
  · rw [hok]
    dsimp only
    rw [MempoolState.accept] at hok ⊢
    split at hok
    case h_1 => cases hok
    case h_2 pool haccept =>
      have hchanged := changed_acceptToMemoryPool htx h.pool haccept
      refine ⟨hchanged.txs, fun spend hspend _ hnot ↦ ?_⟩
      exact CWallet.isLive_view h.wallet (fun _ _ _ ↦ rfl) (hchanged.exists_eq hnot)

theorem mem_readBlock {block : CBlock} (h : env.node.readBlockFromDisk call = some block) :
    env.node.readBlock call.pindex.blockHash = some block ∧
      env.node.getBlockHash block.toCBlockHeader = call.pindex.blockHash := by
  have hread := MempoolState.readBlock_of_readBlockFromDisk h
  exact ⟨hread, env.readBlock_hash _ _ hread⟩

/-- The transactions of a block that is connected or disconnected. -/
theorem syncable_block {block : CBlock} (h : env.node.readBlockFromDisk call = some block)
    (htx : tx ∈ block.vtx) : CWallet.Syncable env tx (some block) where
  mem := env.node.readBlock_mem _ _ (mem_readBlock h).1 tx htx
  block block' hblock' := by
    obtain rfl := Option.some.inj hblock'
    obtain ⟨hread, hhash⟩ := mem_readBlock h
    rw [hhash]
    exact ⟨hread, htx⟩

/-- The transactions outside of a block that the chain gains or loses keep their depth. -/
theorem hashBlock_ne {block : CBlock} {hash : Uint256} {wtx : CWalletTx} (h : s.Inv env)
    (hindexed : env.node.Indexed call.pindex)
    (hread : env.node.readBlockFromDisk call = some block)
    (hwtx : s.wallet.mapWallet.lookup hash = some wtx)
    (hnot : hash ∉ block.vtx.map env.node.getTxHash) : wtx.hashBlock ≠ call.pindex.blockHash := by
  intro heq
  have hnull : wtx.hashBlock ≠ 0 := by
    rintro hzero
    have hheight := hindexed.height
    rw [← heq, hzero, hindexed.null] at hheight
    cases hheight
  have hmem := h.wallet.placed hash wtx block hwtx hnull
    (by rw [heq]; exact (mem_readBlock hread).1)
  obtain ⟨-, rfl⟩ := h.wallet.key hash wtx hwtx
  exact hnot (List.mem_map_of_mem hmem)

/-- What a successful `ConnectTip` removes from the pool. -/
theorem connectTip_ok (h : (s.pool.connectTip env.node call).2 = .ok ()) :
    ∃ block pool conflicted first, env.node.readBlockFromDisk call = some block ∧
      removeConnected env.node.getTxHash call.fuel block.vtx (s.pool.mempool, []) =
        .ok (pool, conflicted) ∧
      (s.pool.connectTip env.node call).1.mempool = pool.addTransactionsUpdated 1 ∧
      s.connectSyncs env call =
        first ++ (conflicted.map (·, none) ++ block.vtx.map (·, some block)) := by
  rw [MempoolState.connectTip] at h ⊢
  cases hread : env.node.readBlockFromDisk call with
  | none =>
      rw [hread] at h
      cases h
  | some block =>
      simp only [hread] at h
      dsimp only
      split at h
      case h_1 => cases h
      case h_2 r hr =>
        split at h
        case h_1 => cases h
        case h_2 hwrite =>
          split at h
          case h_1 => cases h
          case h_2 pool conflicted hremove =>
            rw [MempoolState.mempool_recordUndo] at hremove
            exact ⟨block, pool, conflicted,
              if env.node.getBlockHash block.toCBlockHeader = env.node.hashGenesisBlock then []
              else block.vtx.map (·, some block), rfl, hremove, rfl,
              by rw [connectSyncs]; simp only [hread, hr, hwrite, hremove]⟩

/-- Everything that `ConnectTip` syncs. -/
theorem syncable_connectSyncs (hpool : s.pool.mempool.txs ⊆ env.node.txs) :
    ∀ p ∈ s.connectSyncs env call, CWallet.Syncable env p.1 p.2 := by
  intro p hp
  rw [connectSyncs] at hp
  split at hp
  case h_1 => exact absurd hp List.not_mem_nil
  case h_2 block hread =>
    have hvtx : ∀ p ∈ block.vtx.map (·, some block), CWallet.Syncable env p.1 p.2 := by
      intro p hp
      obtain ⟨tx, htx, rfl⟩ := List.mem_map.mp hp
      exact syncable_block hread htx
    split at hp
    case h_1 => exact absurd hp List.not_mem_nil
    case h_2 r hr =>
      obtain hp | hp := List.mem_append.mp hp
      · split at hp
        · exact absurd hp List.not_mem_nil
        · exact hvtx p hp
      · split at hp
        case h_1 => exact absurd hp List.not_mem_nil
        case h_2 =>
          split at hp
          case h_1 => exact absurd hp List.not_mem_nil
          case h_2 pool conflicted hremove =>
            obtain hp | hp := List.mem_append.mp hp
            · obtain ⟨tx, htx, rfl⟩ := List.mem_map.mp hp
              obtain ⟨new, changed, hnew, -, hsub, -⟩ := changed_removeConnected
                (fun tx htx ↦ (syncable_block hread htx).mem) hpool hremove
              rw [List.append_nil] at hnew
              exact ⟨hsub tx (hnew ▸ htx), fun block hblock ↦ by cases hblock⟩
            · exact hvtx p hp

theorem Inv.connectTip (h : s.Inv env) (hindexed : env.node.Indexed call.pindex)
    (hheeded : s.Heeded env (.connectTip call disk))
    (hstep : s.connectTip env call disk = .ok (s', ret)) : s'.Inv env := by
  rw [WalletNode.connectTip] at hstep
  split at hstep
  case isTrue => cases hstep
  case isFalse =>
    refine h.finish hstep (syncable_connectSyncs h.pool) hheeded.written
      (fun e he ↦ MempoolState.mempool_connectTip_of_error he) fun hok ↦ ?_
    obtain ⟨block, pool, conflicted, first, hread, hremove, hpool, hsyncs⟩ := connectTip_ok hok
    obtain ⟨new, changed, hnew, hchanged, -, hsub⟩ := changed_removeConnected
      (fun tx htx ↦ (syncable_block hread htx).mem) h.pool hremove
    rw [List.append_nil] at hnew
    subst hnew
    rw [hpool, hsyncs]
    refine ⟨hchanged.txs, fun spend hspend _ hnot ↦ ?_⟩
    rw [List.map_append, List.map_append, List.mem_append, List.mem_append, List.map_map,
      List.map_map, not_or, not_or] at hnot
    obtain ⟨-, hconflicted, hvtx⟩ := hnot
    refine CWallet.isLive_view h.wallet (fun wtx nHeight hwtx ↦ ?_) ?_
    · exact ChainView.contains_append (hashBlock_ne h hindexed hread hwtx hvtx)
    · refine hchanged.exists_eq fun hmem ↦ ?_
      obtain ⟨tx, htx, heq⟩ := List.mem_map.mp hmem
      obtain htx | htx := hsub tx htx
      · exact hconflicted (List.mem_map.mpr ⟨tx, htx, heq⟩)
      · exact hvtx (List.mem_map.mpr ⟨tx, htx, heq⟩)

/-- What a successful `DisconnectTip` does to the pool. -/
theorem disconnectTip_ok (h : (s.pool.disconnectTip env.node call).2 = .ok ()) :
    ∃ block view pool, env.node.readBlockFromDisk call = some block ∧
      resurrect env.node.toBlockEnv call.accept call.fuel view block.vtx s.pool.mempool =
        .ok pool ∧
      (s.pool.disconnectTip env.node call).1.mempool = pool.addTransactionsUpdated 1 ∧
      s.disconnectLog env call =
        resurrectLog env.node.toBlockEnv call.accept call.fuel view block.vtx s.pool.mempool := by
  rw [MempoolState.disconnectTip] at h ⊢
  cases hread : env.node.readBlockFromDisk call with
  | none =>
      rw [hread] at h
      cases h
  | some block =>
      simp only [hread] at h
      dsimp only
      split at h
      case h_1 => cases h
      case h_2 => cases h
      case h_3 view hdisconnect =>
        split at h
        case h_1 => cases h
        case h_2 hwrite =>
          split at h
          case h_1 => cases h
          case h_2 pool hresurrect =>
            exact ⟨block, _, pool, rfl, hresurrect, rfl,
              by rw [disconnectLog]; simp only [hread, hdisconnect, hwrite]⟩

theorem mem_resurrectLog {benv : BlockEnv} {acall : AcceptCall} {fuel : Nat} {view : CCoinsView}
    {vtx : List CTransaction} {pool : CTxMemPool}
    (h : tx ∈ (resurrectLog benv acall fuel view vtx pool).1) : tx ∈ vtx := by
  induction vtx generalizing pool with
  | nil => exact absurd h List.not_mem_nil
  | cons t vtx ih =>
      have hfirst : ∀ accepted : List CTransaction, (∀ u ∈ accepted, u = t) →
          tx ∈ accepted → tx ∈ t :: vtx :=
        fun accepted hsub hmem ↦ List.mem_cons.mpr (.inl (hsub tx hmem))
      rw [resurrectLog] at h
      split at h
      case h_1 accepted removed hlog =>
        have hsub : ∀ u ∈ accepted, u = t := by
          intro u hu
          split at hlog
          · obtain ⟨rfl, -⟩ := Prod.mk.inj hlog
            exact absurd hu List.not_mem_nil
          · split at hlog
            · obtain ⟨rfl, -⟩ := Prod.mk.inj hlog
              exact List.mem_singleton.mp hu
            · split at hlog
              · obtain ⟨rfl, -⟩ := Prod.mk.inj hlog
                exact absurd hu List.not_mem_nil
              · obtain ⟨rfl, -⟩ := Prod.mk.inj hlog
                exact absurd hu List.not_mem_nil
        split at h
        · exact hfirst accepted hsub h
        · obtain h | h := List.mem_append.mp h
          · exact hfirst accepted hsub h
          · exact List.mem_cons_of_mem _ (ih h)

theorem Inv.disconnectTip (h : s.Inv env) (hindexed : env.node.Indexed call.pindex)
    (hheeded : s.Heeded env (.disconnectTip call disk))
    (hstep : s.disconnectTip env call disk = .ok (s', ret)) : s'.Inv env := by
  rw [WalletNode.disconnectTip] at hstep
  split at hstep
  case isTrue => cases hstep
  case isFalse htip =>
    obtain ⟨htip, -⟩ := not_or.mp htip
    have hsync : ∀ hok : (s.pool.disconnectTip env.node call).2 = .ok (),
        ∀ p ∈ s.disconnectSyncs env call, CWallet.Syncable env p.1 p.2 := by
      intro hok p hp
      obtain ⟨block, view, pool, hread, -, -, hlog⟩ := disconnectTip_ok hok
      have hvtx : ∀ p : CTransaction × Option CBlock, p.1 ∈ block.vtx → p.2 = none →
          CWallet.Syncable env p.1 p.2 := fun p hp hnone ↦
        ⟨(syncable_block hread hp).mem, fun block hblock ↦ by rw [hnone] at hblock; cases hblock⟩
      rw [disconnectSyncs, hlog, hread] at hp
      obtain hp | hp := List.mem_append.mp hp
      · obtain ⟨tx, htx, rfl⟩ := List.mem_map.mp hp
        exact hvtx _ (mem_resurrectLog htx) rfl
      · obtain ⟨tx, htx, rfl⟩ := List.mem_map.mp hp
        exact hvtx _ htx rfl
    refine h.finish hstep (fun p hp ↦ ?_) (fun i p hp ↦ ?_)
      (fun e he ↦ MempoolState.mempool_disconnectTip_of_error he) fun hok ↦ ?_
    · split at hp
      case h_1 hok => exact hsync hok p hp
      case h_2 => exact absurd hp List.not_mem_nil
    · split at hp
      case h_1 => exact hheeded.written i p hp
      case h_2 => cases hp
    · rw [hok]
      dsimp only
      obtain ⟨block, view, pool, hread, hresurrect, hpool, hlog⟩ := disconnectTip_ok hok
      obtain ⟨changed, hchanged, hsub⟩ := changed_resurrect
        (fun tx htx ↦ (syncable_block hread htx).mem) h.pool hresurrect
      rw [hpool]
      refine ⟨hchanged.txs, fun spend hspend hcached hnot ↦ ?_⟩
      have hnot' : ∀ p ∈ s.disconnectSyncs env call, env.node.getTxHash p.1 ≠ spend.2 :=
        fun p hp heq ↦ hnot (List.mem_map.mpr ⟨p, hp, heq⟩)
      have hvtx : spend.2 ∉ block.vtx.map env.node.getTxHash := by
        intro hmem
        obtain ⟨tx, htx, heq⟩ := List.mem_map.mp hmem
        refine hnot' (tx, none) (List.mem_append_right _ (List.mem_map.mpr ⟨tx, ?_, rfl⟩)) heq
        rw [hread]
        exact htx
      obtain ⟨wtx, hwtx, txin, htxin, hprevout⟩ := h.wallet.spends spend hspend
      refine CWallet.isLive_view h.wallet (fun wtx nHeight hwtx ↦ ?_) ?_
      · have hlast : s.chainActive = s.chainActive.dropLast ++ [call.pindex.blockHash] :=
          (List.dropLast_append_getLast? _ (not_not.mp htip)).symm
        rw [WalletNode.view, hlast]
        rw [List.dropLast_concat]
        exact (ChainView.contains_append (hashBlock_ne h hindexed hread hwtx hvtx)).symm
      · refine hchanged.exists_eq fun hmem ↦ ?_
        obtain ⟨tx, htx, heq⟩ := List.mem_map.mp hmem
        obtain htx | htx := hsub tx htx
        · refine hnot' (tx, none) (List.mem_append_left _ (List.mem_map.mpr ⟨tx, ?_, rfl⟩)) heq
          rw [hlog]
          exact htx
        · have hdropped : tx ∈ s.dropped env (.disconnectTip call disk) := by
            rw [dropped, hlog]
            exact htx
          obtain ⟨p, hp, hhash⟩ := hheeded.synced tx hdropped wtx (by rw [heq]; exact hwtx)
            ⟨txin, htxin, by rw [hprevout]; exact hcached⟩
          exact hnot' p hp (hhash.trans heq)

/-- `GetAvailableCredit` caches what is right. -/
theorem Inv.getAvailableCredit {hash : Uint256} {fUseCache : Bool} (h : s.Inv env) :
    (s.getAvailableCredit env hash fUseCache).Inv env := by
  rw [WalletNode.getAvailableCredit]
  split
  case h_1 => exact h
  case h_2 wtx hwtx =>
    let wtx₁ := (s.wallet.getAvailableCredit env s.view fUseCache wtx).2
    let w' : CWallet := { s.wallet with mapWallet := s.wallet.mapWallet.insert hash wtx₁ }
    have hentry : ∀ hash', (w'.mapWallet.lookup hash').map CWalletTx.toCMerkleTx =
        (s.wallet.mapWallet.lookup hash').map CWalletTx.toCMerkleTx := by
      intro hash'
      dsimp only [w', wtx₁]
      by_cases hhash : hash' = hash
      · rw [hhash, Finmap.lookup_insert, hwtx, Option.map_some, Option.map_some,
          CWallet.toCMerkleTx_getAvailableCredit]
      · rw [Finmap.lookup_insert_of_ne _ hhash]
    have hcredit : ∀ tx, w'.availableCredit env s.view tx =
        s.wallet.availableCredit env s.view tx := fun tx ↦
      CWallet.availableCredit_congr fun i ↦ CWallet.isSpent_congr (fun _ ↦ Iff.rfl)
        fun hash' _ ↦ CWallet.isLive_congr (hentry hash')
    refine ⟨h.pool, h.wallet.of_entry hentry rfl, fun hash' wtx' hwtx' hset ↦ .inr ?_⟩
    refine (hcredit wtx'.tx).trans ?_
    obtain ⟨-, rfl⟩ | ⟨-, hwtx'⟩ := Finmap.cases_lookup_insert hwtx'
    · exact CWallet.availableCredit_getAvailableCredit (h.credit.get hwtx) hset
    · exact h.credit.get hwtx' hset

theorem Step.inv {op : WalletOp} (hstep : s.Step env op s') (hheeded : s.Heeded env op)
    (h : s.Inv env) : s'.Inv env := by
  obtain ⟨hadmissible, ret, happly⟩ := hstep
  cases op with
  | accept call tx disk => exact h.accept hadmissible hheeded happly
  | connectTip call disk => exact h.connectTip hadmissible hheeded happly
  | disconnectTip call disk => exact h.disconnectTip hadmissible hheeded happly
  | getAvailableCredit hash fUseCache =>
      obtain ⟨rfl, -⟩ := Prod.mk.inj (Except.ok.inj happly)
      exact h.getAvailableCredit

/-- In every run of which each call is heeded, `GetAvailableCredit` gives the same with and without
its cache, and what is cached is the sum over the outputs that are not spent. -/
theorem walletCredit_coherent (env : WalletEnv) {ops : List WalletOp} {s s' : WalletNode}
    (hloaded : s.Loaded env)
    (hrun : Run (fun s op s' ↦ s.Step env op s' ∧ s.Heeded env op) s ops s') (hash : Uint256)
    (wtx : CWalletTx) (hwtx : s'.wallet.mapWallet.lookup hash = some wtx) :
    (s'.wallet.getAvailableCredit env s'.view true wtx).1 =
        (s'.wallet.getAvailableCredit env s'.view false wtx).1 ∧
      (wtx.fAvailableCreditCached = true →
        s'.wallet.availableCredit env s'.view wtx.tx = .ok wtx.nAvailableCreditCached) := by
  have hinv : s'.Inv env :=
    hrun.invariant (fun _ _ _ h ⟨hstep, hheeded⟩ ↦ hstep.inv hheeded h) hloaded.inv
  have hcached := hinv.credit.get hwtx
  exact ⟨CWallet.getAvailableCredit_eq hcached, hcached⟩

end WalletNode

/-! ## A transaction that is dropped -/

namespace WalletNode

/-- The state after some calls, if they all succeed and pass a test. -/
def runAll (env : WalletEnv) (test : WalletNode → WalletOp → Bool) :
    WalletNode → List WalletOp → Option WalletNode
  | s, [] => some s
  | s, op :: ops =>
      if test s op then
        match s.apply env op with
        | .ok (s, .ok ()) => runAll env test s ops
        | _ => none
      else none

theorem run_of_runAll {env : WalletEnv} {test : WalletNode → WalletOp → Bool} {s s' : WalletNode}
    {ops : List WalletOp} (hadm : ∀ op ∈ ops, op.Admissible env)
    (h : runAll env test s ops = some s') :
    Run (fun s op s' ↦ s.Step env op s' ∧ test s op = true) s ops s' := by
  induction ops generalizing s with
  | nil =>
      obtain rfl := Option.some.inj h
      exact .nil _
  | cons op ops ih =>
      rw [List.forall_mem_cons] at hadm
      rw [runAll] at h
      split at h
      case isFalse => cases h
      case isTrue htest =>
        split at h
        case h_2 => cases h
        case h_1 s₁ happly => exact .cons ⟨⟨hadm.1, _, happly⟩, htest⟩ (ih hadm.2 h)

theorem Heeded.of_dropped {env : WalletEnv} {s : WalletNode} {op : WalletOp}
    (hdisk : ∀ i, op.disk i = true) (h : (s.dropped env op).isEmpty = true) :
    s.Heeded env op where
  written i _ _ _ := hdisk i
  synced tx htx := by
    rw [List.isEmpty_iff.mp h] at htx
    exact absurd htx List.not_mem_nil

end WalletNode

/-- Transaction 3 pays the wallet, transaction 6 spends from 4, and 7 from 3 and 6; the others are
coinbases. -/
def walletTx (id : Nat) : CTransaction :=
  if id = 3 then
    { vin := [⟨⟨1, 1⟩, [], uintMax⟩], vout := [⟨100, [0x51]⟩], nLockTime := 3 }
  else if id = 4 then chainTx 4 1
  else if id = 6 then chainTx 6 4
  else if id = 7 then
    { vin := [⟨⟨3, 0⟩, [], uintMax⟩, ⟨⟨6, 0⟩, [], uintMax⟩], vout := [⟨100, []⟩], nLockTime := 7 }
  else { vin := [⟨.null, [0, 0], uintMax⟩], vout := [⟨100, []⟩], nLockTime := id }

/-- The transactions of the block at height `k`. -/
def walletVtx : Nat → List CTransaction
  | 0 => [walletTx 1]
  | 1 => [walletTx 2, walletTx 3, walletTx 4]
  | _ => [walletTx 5, walletTx 6]

def walletBlock (k : Nat) : CBlock where
  hashPrevBlock := BitVec.ofNat 256 k
  hashMerkleRoot := if k = 0 then 1 else if k = 1 then 13 else 11
  nTime := 0
  nBits := 0
  nNonce := k + 1
  vtx := walletVtx k

def walletHeight (hash : Uint256) : Option Nat :=
  if hash = 0 ∨ 3 < hash.toNat then none else some (hash.toNat - 1)

theorem walletHeight_eq_some {hash : Uint256} {k : Nat} (h : walletHeight hash = some k) :
    k < 3 ∧ hash = BitVec.ofNat 256 (k + 1) := by
  rw [walletHeight] at h
  split at h
  case isTrue => cases h
  case isFalse hrange =>
    obtain rfl := Option.some.inj h
    obtain ⟨hne, hle⟩ := not_or.mp hrange
    have hpos : hash.toNat ≠ 0 := fun hzero ↦ hne (BitVec.eq_of_toNat_eq hzero)
    refine ⟨by omega, BitVec.eq_of_toNat_eq ?_⟩
    rw [BitVec.toNat_ofNat, Nat.sub_add_cancel (Nat.one_le_iff_ne_zero.mpr hpos),
      Nat.mod_eq_of_lt hash.isLt]

theorem mem_walletVtx : ∀ k < 3, ∀ tx ∈ walletVtx k, ∃ id < 8, tx = walletTx id := by
  decide

theorem nLockTime_walletTx : ∀ id < 8, (walletTx id).nLockTime = id := by
  decide

theorem walletTx_spentBy : ∀ a < 8, ∀ b < 8,
    CTransaction.SpentBy chainHash (walletTx a) (walletTx b) → a < b := by
  unfold CTransaction.SpentBy
  decide

def walletTxs : Set CTransaction := {tx | ∃ id < 8, tx = walletTx id}

theorem walletTxs_injOn : Set.InjOn chainHash walletTxs := by
  rintro _ ⟨a, ha, rfl⟩ _ ⟨b, hb, rfl⟩ h
  have hhash : BitVec.ofNat 256 (walletTx a).nLockTime =
    BitVec.ofNat 256 (walletTx b).nLockTime := h
  rw [nLockTime_walletTx a ha, nLockTime_walletTx b hb] at hhash
  rw [ofNat_inj (by omega) (by omega) hhash]

theorem walletTxs_acyclic : Cascade.Acyclic (CTransaction.SpentBy chainHash) walletTxs := by
  refine Cascade.acyclic_of_rank CTransaction.nLockTime ?_
  rintro _ ⟨a, ha, rfl⟩ _ ⟨b, hb, rfl⟩ h
  rw [nLockTime_walletTx a ha, nLockTime_walletTx b hb]
  exact walletTx_spentBy a ha b hb h

theorem mem_walletTxs {hash : Uint256} {block : CBlock}
    (h : (walletHeight hash).map walletBlock = some block) : ∀ tx ∈ block.vtx, tx ∈ walletTxs := by
  obtain ⟨k, hk, rfl⟩ := Option.map_eq_some_iff.mp h
  exact mem_walletVtx k (walletHeight_eq_some hk).1

theorem walletBlock_genesis {hash : Uint256} {block : CBlock}
    (h : (walletHeight hash).map walletBlock = some block)
    (hgenesis : BitVec.ofNat 256 block.nNonce = 1) : ∀ tx ∈ block.vtx, tx.isCoinBase = true := by
  obtain ⟨k, hk, rfl⟩ := Option.map_eq_some_iff.mp h
  have hlt := (walletHeight_eq_some hk).1
  have hone : k + 1 = 1 := ofNat_inj (by omega) (by omega) hgenesis
  obtain rfl : k = 0 := by omega
  decide

theorem walletBlock_hash {hash : Uint256} {block : CBlock}
    (h : (walletHeight hash).map walletBlock = some block) :
    BitVec.ofNat 256 block.nNonce = hash := by
  obtain ⟨k, hk, rfl⟩ := Option.map_eq_some_iff.mp h
  exact (walletHeight_eq_some hk).2.symm

def walletMempoolNode : MempoolNode where
  toBlockEnv :=
    { sampleEnv with
      getTxHash := chainHash
      hashGenesisBlock := 1
      mapBlockIndex := fun hash ↦ (walletHeight hash).map fun k ↦ (k : Int) }
  readBlock hash := (walletHeight hash).map walletBlock
  txs := walletTxs
  readBlock_mem _ _ h := mem_walletTxs h
  getTxHash_injOn := walletTxs_injOn
  acyclic := walletTxs_acyclic
  genesis _ _ h hgenesis := walletBlock_genesis h hgenesis

def walletEnv : WalletEnv where
  node := walletMempoolNode
  readBlock_hash _ _ h := walletBlock_hash h
  hashMerkleRoot hash := (walletBlock (hash.toNat - 1)).hashMerkleRoot
  isMine script := script = [0x51]

/-- At height 1, with transaction 3 in the wallet. -/
def walletStart : WalletNode where
  pool :=
    { mempool := .empty
      pcoinsTip :=
        { coins := ((∅ : Finmap fun _ : Uint256 ↦ CCoins).insert 3
            ⟨false, (walletTx 3).vout, 1, 1⟩).insert 4 ⟨false, (walletTx 4).vout, 1, 1⟩
          hashBlock := 2 }
      undoFiles := ∅ }
  chainActive := [1, 2]
  wallet :=
    { mapWallet := (∅ : Finmap fun _ : Uint256 ↦ CWalletTx).insert 3
        { CMerkleTx.setMerkleBranch sampleEnv (walletBlock 1) { tx := walletTx 3 } with }
      mapTxSpends := [(⟨1, 1⟩, 3)] }

theorem loaded_walletStart : walletStart.Loaded walletEnv := by
  have hlookup : ∀ hash wtx, walletStart.wallet.mapWallet.lookup hash = some wtx →
      hash = 3 ∧ wtx =
        { CMerkleTx.setMerkleBranch sampleEnv (walletBlock 1) { tx := walletTx 3 } with } := by
    intro hash wtx hwtx
    by_cases hhash : hash = 3
    · rw [hhash, walletStart, Finmap.lookup_insert] at hwtx
      exact ⟨hhash, (Option.some.inj hwtx).symm⟩
    · rw [walletStart, Finmap.lookup_insert_of_ne _ hhash, Finmap.lookup_empty] at hwtx
      cases hwtx
  refine ⟨?_, ⟨fun hash wtx hwtx ↦ ?_, fun hash wtx block hwtx hnull hread ↦ ?_,
    fun spend hspend ↦ ?_⟩, fun hash hcached ↦ ?_⟩
  · rintro tx ⟨hash, e, he, -⟩
    exact absurd he (by simp [walletStart, CTxMemPool.empty])
  · obtain ⟨rfl, rfl⟩ := hlookup hash wtx hwtx
    exact ⟨⟨3, by decide, rfl⟩, rfl⟩
  · obtain ⟨rfl, rfl⟩ := hlookup hash wtx hwtx
    have hread' : walletEnv.node.readBlock 2 = some (walletBlock 1) := by decide
    obtain rfl := Option.some.inj (hread'.symm.trans hread)
    decide
  · obtain rfl := List.mem_singleton.mp hspend
    exact ⟨_, Finmap.lookup_insert _, ⟨⟨1, 1⟩, [], uintMax⟩, by decide, rfl⟩
  · obtain ⟨wtx, hwtx, hset⟩ := hcached
    obtain ⟨rfl, rfl⟩ := hlookup hash wtx hwtx
    cases hset

/-- A call for block 2, after which transaction 6 is standard or not. -/
def walletCall (fStandard haveUndo : Bool) : MempoolCall where
  pindex := { blockHash := 3, pprev := some 2, nHeight := 2, nStatus := { haveUndo := haveUndo } }
  checkBlockHeader _ _ _ := .ok ()
  tip := .initial
  fuel := 3
  accept :=
    { freeCall with
      policy :=
        { freeCall.policy with
          isStandardTx := fun tx ↦
            if fStandard = false ∧ tx.nLockTime = 6 then .error "scriptpubkey" else .ok () } }

/-- Connects a block with transaction 6, accepts 7, caches the credit of 3, and disconnects the
block. -/
def walletOps (fStandard : Bool) : List WalletOp :=
  [.connectTip (walletCall fStandard false) fun _ ↦ true,
    .accept freeCall (walletTx 7) fun _ ↦ true, .getAvailableCredit 3 true,
    .disconnectTip (walletCall fStandard true) fun _ ↦ true]

theorem admissible_walletOps (fStandard : Bool) :
    ∀ op ∈ walletOps fStandard, op.Admissible walletEnv := by
  have hindexed : ∀ haveUndo, walletEnv.node.Indexed (walletCall fStandard haveUndo).pindex := by
    intro haveUndo
    refine ⟨rfl, fun hash hprev ↦ ?_, rfl⟩
    obtain rfl := Option.some.inj hprev
    rfl
  intro op hop
  simp only [walletOps, List.mem_cons, List.not_mem_nil, or_false] at hop
  obtain rfl | rfl | rfl | rfl := hop
  · exact hindexed false
  · exact ⟨7, by decide, rfl⟩
  · trivial
  · exact hindexed true

/-- What the wallet says of transaction 3. -/
def creditOf (s : WalletNode) (fUseCache : Bool) : Option (Except Failure Int64) :=
  (s.wallet.mapWallet.lookup 3).map fun wtx ↦
    (s.wallet.getAvailableCredit walletEnv s.view fUseCache wtx).1

theorem disk_walletOps (fStandard : Bool) : ∀ op ∈ walletOps fStandard, ∀ i, op.disk i = true := by
  intro op hop i
  simp only [walletOps, List.mem_cons, List.not_mem_nil, or_false] at hop
  obtain rfl | rfl | rfl | rfl := hop
  all_goals rfl

/-- `DisconnectTip` cannot put transaction 6 back, and drops 7, which the wallet still takes for the
spender of 3. -/
theorem walletCredit_stale :
    ¬ ∀ (env : WalletEnv) (ops : List WalletOp) (s s' : WalletNode), s.Loaded env →
      Run (fun s op s' ↦ s.Step env op s') s ops s' → ∀ hash wtx,
      s'.wallet.mapWallet.lookup hash = some wtx →
      (s'.wallet.getAvailableCredit env s'.view true wtx).1 =
        (s'.wallet.getAvailableCredit env s'.view false wtx).1 := by
  intro hall
  have hstale : (WalletNode.runAll walletEnv (fun _ _ ↦ true) walletStart (walletOps false)).any
      (fun s ↦ decide (creditOf s true = some (.ok 0) ∧ creditOf s false = some (.ok 100))) =
        true := by
    decide +kernel
  obtain ⟨s, hs, hcredit⟩ := (Option.any_eq_true _ _).mp hstale
  obtain ⟨htrue, hfalse⟩ := of_decide_eq_true hcredit
  have hrun := WalletNode.run_of_runAll (admissible_walletOps false) hs
  obtain ⟨wtx, hwtx, htrue⟩ := Option.map_eq_some_iff.mp htrue
  rw [creditOf, hwtx, Option.map_some] at hfalse
  have heq := hall walletEnv _ _ s loaded_walletStart (hrun.imp fun _ _ _ _ h ↦ h.1) 3 wtx hwtx
  rw [htrue, Option.some.inj hfalse] at heq
  exact absurd (Except.ok.inj heq) (by decide)

/-- Where transaction 6 is put back, 7 stays. -/
theorem walletCredit_coherent_sample :
    ∃ s wtx, Run (fun s op s' ↦ WalletNode.Step walletEnv s op s' ∧ s.Heeded walletEnv op)
        walletStart (walletOps true) s ∧
      s.wallet.mapWallet.lookup 3 = some wtx ∧ wtx.fAvailableCreditCached = true ∧
      (s.wallet.getAvailableCredit walletEnv s.view true wtx).1 =
        (s.wallet.getAvailableCredit walletEnv s.view false wtx).1 := by
  have hcached : (WalletNode.runAll walletEnv
      (fun s op ↦ (s.dropped walletEnv op).isEmpty) walletStart (walletOps true)).any
      (fun s ↦ (s.wallet.mapWallet.lookup 3).any (·.fAvailableCreditCached)) = true := by
    decide +kernel
  obtain ⟨s, hs, hcached⟩ := (Option.any_eq_true _ _).mp hcached
  obtain ⟨wtx, hwtx, hset⟩ := (Option.any_eq_true _ _).mp hcached
  have hrun : Run (fun s op s' ↦ WalletNode.Step walletEnv s op s' ∧ s.Heeded walletEnv op)
      walletStart (walletOps true) s :=
    (WalletNode.run_of_runAll (admissible_walletOps true) hs).imp
      fun _ op _ hop h ↦ ⟨h.1, .of_dropped (disk_walletOps true op hop) h.2⟩
  exact ⟨s, wtx, hrun, hwtx, hset,
    (WalletNode.walletCredit_coherent walletEnv loaded_walletStart hrun 3 wtx hwtx).1⟩

end Fedoracoin
