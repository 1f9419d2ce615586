import Fedoracoin.MempoolTip
import Fedoracoin.Node

/-!
# The inputs of the pool stay backed

The invariant behind what `CTxMemPool::check` asserts of the coins: the pool is consistent,
has no coinbase, and every input is backed by a mature coin of `pcoinsTip` or by a
transaction of the pool.  It is stated with a set of further transactions that count as if
they were in the pool (`BackedPool`), since it is between the two that the loops of
`ConnectTip` and `DisconnectTip` move transactions: the former takes transactions of the
block out of the pool one by one, the latter puts them back.

Whatever a removal takes along, it leaves no input without what backs it
(`BackedPool.shrunk`).
-/

namespace Fedoracoin

open Cascade CTxMemPool

/-! ## Flushing -/

section

variable {view : CCoinsView} {txid : Uint256}

theorem lookup_flushed : view.flushed.coins.lookup txid =
    (view.coins.lookup txid).filter fun c ↦ !c.isPruned := by
  ext c
  rw [Finmap.lookup_eq_some_iff, Option.filter_eq_some_iff, Finmap.lookup_eq_some_iff,
    CCoinsView.flushed, Multiset.mem_filter, Bool.not_eq_true']

/-- Flushing loses no coin. -/
theorem coin_flushed : view.flushed.coin = view.coin := by
  funext o
  rw [CCoinsView.coin, CCoinsView.coin, CCoinsView.getCoins, CCoinsView.getCoins, lookup_flushed]
  cases view.coins.lookup o.hash with
  | none => rfl
  | some c =>
      cases hp : c.isPruned with
      | false =>
          rw [Option.filter_some, hp]
          rfl
      | true =>
          rw [Option.filter_some, hp, Option.getD_some, CCoins.coin_of_isPruned hp]
          rfl

theorem coin_written {io : WriteIO} : (MempoolState.written io view).coin = view.coin := by
  rw [MempoolState.written]
  split
  · exact coin_flushed
  · rfl

theorem hashBlock_written {io : WriteIO} :
    (MempoolState.written io view).hashBlock = view.hashBlock := by
  rw [MempoolState.written]
  split <;> rfl

theorem sourced_written {getHash : CTransaction → Uint256} {S : Set CTransaction} {io : WriteIO}
    (h : view.Sourced getHash S) : (MempoolState.written io view).Sourced getHash S := by
  intro o k hk
  rw [coin_written] at hk
  exact h o k hk

end

/-! ## Failures -/

section

variable {getHash : CTransaction → Uint256} {fuel : Nat} {tx : CTransaction} {fRecursive : Bool}
  {s : CTxMemPool × List CTransaction} {e : Failure}

/-- Peels the first step off a computation that fails. -/
theorem bind_eq_error {ε α β : Type} {x : Except ε α} {f : α → Except ε β} {e : ε} :
    x >>= f = .error e ↔ x = .error e ∨ ∃ a, x = .ok a ∧ f a = .error e := by
  cases x with
  | error e => simp [bind, Except.bind]
  | ok a => simp [bind, Except.bind]

theorem spender_not_returns {pool : CTxMemPool} {p : CInPoint} (h : pool.spender p = .error e) :
    e.returns = false := by
  rw [spender] at h
  split at h
  · cases h
  · obtain rfl := Except.error.inj h
    rfl

/-- A removal that fails does not return. -/
theorem remove_not_returns (h : remove getHash fuel tx fRecursive s = .error e) :
    e.returns = false := by
  induction fuel generalizing tx fRecursive s with
  | zero =>
      obtain rfl := Except.error.inj h
      rfl
  | succ fuel ih =>
      have hloop : ∀ hash is s,
          removeSpenders (fun tx s ↦ remove getHash fuel tx true s) hash is s = .error e →
            e.returns = false := by
        intro hash is
        induction is with
        | nil => exact fun s h ↦ absurd h (by simp [removeSpenders])
        | cons i is ihis =>
            intro s h
            rw [removeSpenders] at h
            split at h
            · exact ihis s h
            · rcases bind_eq_error.mp h with h | ⟨c, -, h⟩
              · exact spender_not_returns h
              · rcases bind_eq_error.mp h with h | ⟨s₁, -, h⟩
                · exact ih h
                · exact ihis s₁ h
      rw [remove] at h
      split at h
      · rcases bind_eq_error.mp h with h | ⟨s₁, -, h⟩
        · exact hloop _ _ s h
        · exact absurd h (by simp [pure, Except.pure])
      · exact absurd h (by simp [bind, Except.bind, pure, Except.pure])

theorem removeConflicts_not_returns (h : removeConflicts getHash fuel tx s = .error e) :
    e.returns = false := by
  have hloop : ∀ vin s, removeConflictsLoop getHash fuel tx vin s = .error e →
      e.returns = false := by
    intro vin
    induction vin with
    | nil => exact fun s h ↦ absurd h (by simp [removeConflictsLoop])
    | cons txin vin ih =>
        intro s h
        rw [removeConflictsLoop] at h
        split at h
        · exact ih s h
        · rcases bind_eq_error.mp h with h | ⟨c, -, h⟩
          · exact spender_not_returns h
          · dsimp only at h
            split at h
            · rcases bind_eq_error.mp h with h | ⟨s₁, -, h⟩
              · exact remove_not_returns h
              · exact ih s₁ h
            · exact ih s h
  exact hloop tx.vin s h

theorem removeConnected_not_returns {vtx : List CTransaction}
    (h : removeConnected getHash fuel vtx s = .error e) : e.returns = false := by
  induction vtx generalizing s with
  | nil => exact absurd h (by simp [removeConnected])
  | cons tx vtx ih =>
      rcases bind_eq_error.mp h with h | ⟨s₁, -, h⟩
      · exact remove_not_returns h
      · rcases bind_eq_error.mp h with h | ⟨s₂, -, h⟩
        · exact removeConflicts_not_returns h
        · exact ih h

theorem resurrect_not_returns {env : BlockEnv} {call : AcceptCall} {view : CCoinsView}
    {vtx : List CTransaction} {pool : CTxMemPool}
    (h : resurrect env call fuel view vtx pool = .error e) : e.returns = false := by
  induction vtx generalizing pool with
  | nil => exact absurd h (by simp [resurrect])
  | cons tx vtx ih =>
      rcases bind_eq_error.mp h with h | ⟨pool₁, -, h⟩
      · rw [resurrectTx] at h
        split at h
        · cases h
        · split at h
          case h_1 => cases h
          case h_2 e' _ =>
            split at h
            case isTrue =>
              rcases bind_eq_error.mp h with h | ⟨s₁, -, h⟩
              · exact remove_not_returns h
              · exact absurd h (by simp [pure, Except.pure])
            case isFalse hno =>
              obtain rfl := Except.error.inj h
              exact Bool.eq_false_of_not_eq_true hno
      · exact ih h

end

/-! ## Backed pools -/

/-- A consistent pool without coinbases whose inputs are backed, the transactions `extra` counting
as if they were in it. -/
structure BackedPool (node : MempoolNode) (view : CCoinsView) (extra : Set CTransaction)
    (pool : CTxMemPool) : Prop where
  inv : pool.Inv node.getTxHash node.txs
  notCoinBase : ∀ t ∈ pool.txs, t.isCoinBase = false
  backed : ∀ t ∈ pool.txs, ∀ txin ∈ t.vin,
    Backed node.toBlockEnv view (pool.txs ∪ extra) txin.prevout

section

variable {node : MempoolNode} {view view' : CCoinsView} {extra extra' : Set CTransaction}
  {pool pool' : CTxMemPool} {tx : CTransaction} {vtx : List CTransaction} {fuel : Nat}
  {call : AcceptCall}

/-- An input that is backed by a transaction spends from it. -/
theorem spentBy_of_kept {t p : CTransaction} {txin : CTxIn} {txout : CTxOut}
    (htxin : txin ∈ t.vin) (hhash : node.getTxHash p = txin.prevout.hash)
    (hkept : p.kept txin.prevout.n = some txout) : CTransaction.SpentBy node.getTxHash p t := by
  obtain ⟨hget, -⟩ := CTransaction.kept_eq_some hkept
  refine ⟨txin.prevout.n, ?_, txin, htxin, ?_⟩
  · rw [List.getElem?_eq_some_iff] at hget
    exact hget.1
  · rw [hhash]

theorem BackedPool.addTransactionsUpdated (h : BackedPool node view extra pool) (n : UInt32) :
    BackedPool node view extra (pool.addTransactionsUpdated n) :=
  ⟨⟨⟨h.inv.consistent.hash_eq, h.inv.consistent.input, h.inv.consistent.inPoint⟩, h.inv.sub⟩,
    h.notCoinBase, h.backed⟩

/-- A removal that takes along what spends from what it removes leaves the others backed, and a
transaction that nothing spends from any more need not count. -/
theorem BackedPool.shrunk (h : BackedPool node view extra pool)
    (hs : Shrunk node.getTxHash node.txs pool pool')
    (hextra : ∀ p ∈ extra, p ∉ extra' →
      ∀ t ∈ pool'.txs, ¬ CTransaction.SpentBy node.getTxHash p t) :
    BackedPool node view extra' pool' := by
  refine ⟨hs.inv, fun t ht ↦ h.notCoinBase t (hs.closed.sub ht), fun t ht txin htxin ↦ ?_⟩
  rcases h.backed t (hs.closed.sub ht) txin htxin with hcoin | ⟨p, hp, hhash, txout, hkept⟩
  · exact Or.inl hcoin
  · have hspent := spentBy_of_kept htxin hhash hkept
    refine Or.inr ⟨p, ?_, hhash, txout, hkept⟩
    rcases hp with hp | hp
    · by_cases hp' : p ∈ pool'.txs
      · exact Or.inl hp'
      · exact absurd hspent (hs.closed.closed p hp hp' t ht)
    · by_cases hp' : p ∈ extra'
      · exact Or.inr hp'
      · exact absurd hspent (hextra p hp hp' t ht)

theorem BackedPool.accept (h : BackedPool node view (insert tx extra) pool) (htx : tx ∈ node.txs)
    (haccept : acceptToMemoryPool node.toBlockEnv call view pool tx = .ok pool') :
    BackedPool node view extra pool' := by
  have hbacked : ∀ txin ∈ tx.vin, Backed node.toBlockEnv view pool.txs txin.prevout :=
    fun txin htxin ↦ acceptToMemoryPool_backed h.inv.consistent haccept htxin
  obtain ⟨entry, rfl, hok, -⟩ := acceptToMemoryPool_eq_ok haccept
  obtain ⟨hinv, htxs⟩ := h.inv.accept htx hok
  obtain ⟨-, hcb, -⟩ := accept_eq_ok.mp hok
  refine ⟨hinv, ?_, ?_⟩
  · rw [htxs]
    rintro t (rfl | ht)
    · exact hcb
    · exact h.notCoinBase t ht
  · rw [htxs]
    rintro t (rfl | ht) txin htxin
    · refine (hbacked txin htxin).mono fun p hp ↦ ?_
      exact Or.inl (Or.inr hp)
    · refine (h.backed t ht txin htxin).mono ?_
      rintro p (hp | rfl | hp)
      · exact Or.inl (Or.inr hp)
      · exact Or.inl (Or.inl rfl)
      · exact Or.inr hp

/-! ## The loop of `DisconnectTip` -/

/-- The transactions of a block that are not coinbases. -/
def spending (vtx : List CTransaction) : Set CTransaction := {tx | tx ∈ vtx ∧ tx.isCoinBase = false}

theorem spending_cons_of_coinBase (hcb : tx.isCoinBase = true) :
    spending (tx :: vtx) = spending vtx := by
  ext t
  constructor
  · rintro ⟨ht, hnot⟩
    rcases List.mem_cons.mp ht with rfl | ht
    · rw [hcb] at hnot
      cases hnot
    · exact ⟨ht, hnot⟩
  · rintro ⟨ht, hnot⟩
    exact ⟨List.mem_cons_of_mem _ ht, hnot⟩

theorem spending_cons (hcb : tx.isCoinBase = false) :
    spending (tx :: vtx) = insert tx (spending vtx) := by
  ext t
  constructor
  · rintro ⟨ht, hnot⟩
    exact (List.mem_cons.mp ht).imp_right fun ht ↦ ⟨ht, hnot⟩
  · rintro (rfl | ⟨ht, hnot⟩)
    · exact ⟨List.mem_cons_self, hcb⟩
    · exact ⟨List.mem_cons_of_mem _ ht, hnot⟩

/-- A transaction is put back, or everything that spends from it is removed. -/
theorem BackedPool.resurrectTx (h : BackedPool node view (spending (tx :: vtx)) pool)
    (htx : tx ∈ node.txs)
    (hstep : resurrectTx node.toBlockEnv call fuel view tx pool = .ok pool') :
    BackedPool node view (spending vtx) pool' := by
  rw [Fedoracoin.resurrectTx] at hstep
  cases hcb : tx.isCoinBase with
  | true =>
      rw [hcb, if_pos rfl] at hstep
      obtain rfl := Except.ok.inj hstep
      rwa [spending_cons_of_coinBase hcb] at h
  | false =>
      rw [hcb, if_neg Bool.false_ne_true] at hstep
      rw [spending_cons hcb] at h
      split at hstep
      case h_1 pool₁ haccept =>
        obtain rfl := Except.ok.inj hstep
        exact h.accept htx haccept
      case h_2 e hrefused =>
        split at hstep
        case isFalse => cases hstep
        case isTrue =>
          obtain ⟨⟨pool₁, removed⟩, hremove, hret⟩ := bind_eq_ok.mp hstep
          obtain rfl := Except.ok.inj hret
          obtain ⟨hshrunk, hgone⟩ :=
            h.inv.remove node.getTxHash_injOn node.acyclic htx hremove
          refine h.shrunk hshrunk ?_
          rintro p (rfl | hp) hnot t ht
          · exact (hgone t ht).2
          · exact absurd hp hnot

/-- **Putting back the transactions of a block.** -/
theorem BackedPool.resurrect (h : BackedPool node view (spending vtx) pool)
    (hvtx : ∀ tx ∈ vtx, tx ∈ node.txs)
    (hrun : resurrect node.toBlockEnv call fuel view vtx pool = .ok pool') :
    BackedPool node view ∅ pool' := by
  induction vtx generalizing pool with
  | nil =>
      obtain rfl := Except.ok.inj hrun
      have hnone : spending [] = ∅ := Set.eq_empty_of_forall_notMem fun t ht ↦
        absurd ht.1 List.not_mem_nil
      rwa [hnone] at h
  | cons tx vtx ih =>
      rw [List.forall_mem_cons] at hvtx
      obtain ⟨pool₁, hstep, hrest⟩ := bind_eq_ok.mp hrun
      exact ih (h.resurrectTx hvtx.1 hstep) hvtx.2 hrest

/-! ## The loop of `ConnectTip` -/

/-- The transactions `done` have been taken out of the pool, with what conflicts with them. -/
structure Disjoined (pool : CTxMemPool) (done : Set CTransaction) : Prop where
  notMem : ∀ tx ∈ done, tx ∉ pool.txs
  unspent : ∀ tx ∈ done, ∀ txin ∈ tx.vin, ∀ t ∈ pool.txs, ∀ txin' ∈ t.vin,
    txin'.prevout ≠ txin.prevout

theorem Disjoined.mono {done : Set CTransaction} (h : Disjoined pool done)
    (hsub : pool'.txs ⊆ pool.txs) : Disjoined pool' done :=
  ⟨fun tx htx ht ↦ h.notMem tx htx (hsub ht),
    fun tx htx txin htxin t ht ↦ h.unspent tx htx txin htxin t (hsub ht)⟩

/-- Taking out one transaction of the block. -/
theorem BackedPool.removeConnected_step {done : Set CTransaction} {pool₁ : CTxMemPool}
    {removed removed' removed'' removed₁ : List CTransaction}
    (h : BackedPool node view {t | t ∈ done ∧ t.isCoinBase = false} pool)
    (hdone : Disjoined pool done) (htx : tx ∈ node.txs)
    (hremove : remove node.getTxHash fuel tx false (pool, removed) = .ok (pool₁, removed₁))
    (hconflicts : removeConflicts node.getTxHash fuel tx (pool₁, removed') =
      .ok (pool', removed'')) :
    BackedPool node view {t | t ∈ insert tx done ∧ t.isCoinBase = false} pool' ∧
      Disjoined pool' (insert tx done) := by
  obtain ⟨hinv₁, htxs⟩ := h.inv.remove_single node.getTxHash_injOn htx hremove
  -- the transaction itself now counts as one of the block
  have h₁ : BackedPool node view {t | t ∈ insert tx done ∧ t.isCoinBase = false} pool₁ := by
    refine ⟨hinv₁, ?_, ?_⟩
    · rw [htxs]
      exact fun t ht ↦ h.notCoinBase t ht.1
    · rw [htxs]
      intro t ht txin htxin
      refine (h.backed t ht.1 txin htxin).mono ?_
      rintro p (hp | hp)
      · by_cases heq : p = tx
        · exact Or.inr ⟨Or.inl heq, h.notCoinBase p hp⟩
        · exact Or.inl ⟨hp, heq⟩
      · exact Or.inr ⟨Or.inr hp.1, hp.2⟩
  obtain ⟨hshrunk, hfree⟩ :=
    hinv₁.removeConflictsLoop node.getTxHash_injOn node.acyclic hconflicts
  have hsub₁ : pool₁.txs ⊆ pool.txs := htxs ▸ Set.sdiff_subset
  have hnot : tx ∉ pool'.txs := by
    intro hmem
    have hmem₁ := hshrunk.closed.sub hmem
    rw [htxs] at hmem₁
    exact hmem₁.2 rfl
  have hdone' := hdone.mono (hshrunk.closed.sub.trans hsub₁)
  refine ⟨h₁.shrunk hshrunk fun p hp hp' ↦ absurd hp hp', ?_, ?_⟩
  · rintro t (rfl | ht)
    · exact hnot
    · exact hdone'.notMem t ht
  · rintro t (rfl | ht) txin htxin
    · intro u hu
      exact hfree txin htxin u hu fun heq ↦ hnot (heq ▸ hu)
    · exact hdone'.unspent t ht txin htxin

/-- **Taking out the transactions of a block.** -/
theorem BackedPool.removeConnected {done : Set CTransaction}
    {removed removed' : List CTransaction}
    (h : BackedPool node view {t | t ∈ done ∧ t.isCoinBase = false} pool)
    (hdone : Disjoined pool done) (hvtx : ∀ tx ∈ vtx, tx ∈ node.txs)
    (hrun : removeConnected node.getTxHash fuel vtx (pool, removed) = .ok (pool', removed')) :
    BackedPool node view {t | (t ∈ done ∨ t ∈ vtx) ∧ t.isCoinBase = false} pool' ∧
      Disjoined pool' {t | t ∈ done ∨ t ∈ vtx} := by
  induction vtx generalizing pool removed done with
  | nil =>
      obtain ⟨rfl, -⟩ := Prod.mk.inj (Except.ok.inj hrun)
      simp only [List.not_mem_nil, or_false]
      exact ⟨h, hdone⟩
  | cons tx vtx ih =>
      rw [List.forall_mem_cons] at hvtx
      obtain ⟨⟨pool₁, removed₁⟩, hremove, hrun⟩ := bind_eq_ok.mp hrun
      obtain ⟨⟨pool₂, removed₂⟩, hconflicts, hrest⟩ := bind_eq_ok.mp hrun
      obtain ⟨h₂, hdone₂⟩ := h.removeConnected_step hdone hvtx.1 hremove hconflicts
      have hset : ∀ t, (t ∈ done ∨ t ∈ tx :: vtx) ↔ (t ∈ insert tx done ∨ t ∈ vtx) := by
        intro t
        rw [List.mem_cons, Set.mem_insert_iff, or_left_comm, or_assoc]
      simp only [hset]
      exact ih h₂ hdone₂ hvtx.2 hrest

end

end Fedoracoin
