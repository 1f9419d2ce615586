import Fedoracoin.CoinMap
import Fedoracoin.Mempool

/-!
# `AcceptToMemoryPool`

The whole of `AcceptToMemoryPool`, with its checks on the coins.  They are made on a view
over the chain state and the pool: the coins of a transaction are those that `pcoinsTip` has,
and else its outputs if it is in the pool.  Standardness, fees and the rate limit are
parameters; the priority of the entry, a floating point number, is left out.

A transaction that is accepted has each of its inputs backed (`acceptToMemoryPool_backed`):
by a coin of `pcoinsTip` that is mature, or by an output of a transaction in the pool.
-/

namespace Fedoracoin

/-! ## The view of the pool -/

def memPoolHeight : Int := 0x7FFFFFFF

/-- `CCoinsViewMemPool::GetCoins`. -/
def memPoolCoins (base : CCoinsView) (mempool : CTxMemPool) (txid : Uint256) : Option CCoins :=
  match base.coins.lookup txid with
  | some coins => some coins
  | none => (mempool.mapTx.lookup txid).map fun e ↦ .ofTx e.tx memPoolHeight

/-- What a cache has after the coins of the inputs were asked for. -/
def fetchInputs (getCoins : Uint256 → Option CCoins) :
    List CTxIn → Finmap fun _ : Uint256 ↦ CCoins
  | [] => ∅
  | txin :: vin =>
      match getCoins txin.prevout.hash with
      | some coins => (fetchInputs getCoins vin).insert txin.prevout.hash coins
      | none => fetchInputs getCoins vin

/-- The view left when its backend is the dummy again: the coins of the inputs and the best
block. -/
def memPoolView (base : CCoinsView) (mempool : CTxMemPool) (tx : CTransaction) : CCoinsView where
  coins := fetchInputs (memPoolCoins base mempool) tx.vin
  hashBlock := base.hashBlock

/-! ## The function -/

def rejectDuplicate : UInt8 := 0x12

def memPoolScriptFlags : Nat := scriptVerifyP2sh ||| scriptVerifyStrictenc ||| scriptVerifyDersig

/-- The checks that do not concern the chain state. -/
structure MempoolPolicy where
  /-- `IsStandardTx` on the main network, with the reason of the failure. -/
  isStandardTx : CTransaction → Except String Unit
  /-- `AreInputsStandard` on the main network. -/
  areInputsStandard : CTransaction → CCoinsView → Bool
  /-- `GetMinFee`, the limit on free transactions and the one on insane fees. -/
  checkFees : CTransaction → (nFees : Int64) → (fLimitFree fRejectInsaneFee : Bool) →
    Except Failure Unit

/-- What a call of `AcceptToMemoryPool` is given besides the transaction. -/
structure AcceptCall where
  policy : MempoolPolicy
  fLimitFree : Bool := false
  fRejectInsaneFee : Bool := false
  /-- `GetTime()`. -/
  nTime : Int64
  /-- `chainActive.Height()`. -/
  nHeight : Nat

def acceptToMemoryPool (env : BlockEnv) (call : AcceptCall) (pcoinsTip : CCoinsView)
    (pool : CTxMemPool) (tx : CTransaction) : Except Failure CTxMemPool := do
  checkTransaction tx
  failIf tx.isCoinBase (.dos 100 rejectInvalid "coinbase")
  (call.policy.isStandardTx tx).mapError (.dos 0 rejectNonstandard ·)
  let hash := env.getTxHash tx
  failIf (pool.exists hash) (.error "")
  failIf (tx.vin.any fun txin ↦ (pool.mapNextTx.lookup txin.prevout).isSome) (.error "")
  -- do we already have it?
  failIf (memPoolCoins pcoinsTip pool hash).isSome (.error "")
  -- do all inputs exist?
  failIf (tx.vin.any fun txin ↦ (memPoolCoins pcoinsTip pool txin.prevout.hash).isNone) (.error "")
  let view := memPoolView pcoinsTip pool tx
  failIf (!view.haveInputs tx) (.dos 0 rejectDuplicate "bad-txns-inputs-spent")
  failIf (!call.policy.areInputsStandard tx view)
    (.error "AcceptToMemoryPool: : nonstandard transaction input")
  let nValueIn ← view.getValueIn tx
  let nValueOut ← tx.valueOut
  let nFees := nValueIn - nValueOut
  call.policy.checkFees tx nFees call.fLimitFree call.fRejectInsaneFee
  let _ ← view.checkInputs env.mapBlockIndex env.verifyScript tx true memPoolScriptFlags false
  return pool.addUnchecked hash ⟨tx, nFees, call.nTime, call.nHeight⟩

/-! ## What backs an input -/

/-- A coinbase of height `nHeight` may be spent in the block after the best block of the view. -/
def Mature (mapBlockIndex : Uint256 → Option Int) (view : CCoinsView) (nHeight : Int) : Prop :=
  ∃ nBestHeight, mapBlockIndex view.hashBlock = some nBestHeight ∧
    getRequiredMaturityDepth nHeight ≤ nBestHeight + 1 - nHeight

/-- There is a coin at the outpoint, and it may be spent. -/
def BackedByCoin (mapBlockIndex : Uint256 → Option Int) (view : CCoinsView) (o : COutPoint) :
    Prop :=
  ∃ k, view.coin o = some k ∧ (k.fCoinBase = true → Mature mapBlockIndex view k.nHeight)

/-- The outpoint is of an output kept from a transaction of `live`. -/
def BackedByTx (getHash : CTransaction → Uint256) (live : Set CTransaction) (o : COutPoint) :
    Prop :=
  ∃ tx ∈ live, getHash tx = o.hash ∧ ∃ txout, tx.kept o.n = some txout

def Backed (env : BlockEnv) (view : CCoinsView) (live : Set CTransaction) (o : COutPoint) : Prop :=
  BackedByCoin env.mapBlockIndex view o ∨ BackedByTx env.getTxHash live o

section

variable {env : BlockEnv} {call : AcceptCall} {pcoinsTip view : CCoinsView}
  {pool pool' : CTxMemPool} {tx : CTransaction} {txin : CTxIn} {vin : List CTxIn}
  {getCoins : Uint256 → Option CCoins}

theorem Backed.mono {live live' : Set CTransaction} {o : COutPoint} (h : Backed env view live o)
    (hsub : live ⊆ live') : Backed env view live' o := by
  refine h.imp_right ?_
  rintro ⟨tx, htx, hkept⟩
  exact ⟨tx, hsub htx, hkept⟩

/-- The cache has nothing but what it was given. -/
theorem getCoins_of_lookup_fetchInputs {hash : Uint256} {coins : CCoins}
    (h : (fetchInputs getCoins vin).lookup hash = some coins) : getCoins hash = some coins := by
  induction vin with
  | nil =>
      rw [fetchInputs, Finmap.lookup_empty] at h
      cases h
  | cons txin vin ih =>
      rw [fetchInputs] at h
      split at h
      case h_1 c hc =>
        by_cases hhash : hash = txin.prevout.hash
        · rw [hhash, Finmap.lookup_insert] at h
          rw [hhash, hc, h]
        · rw [Finmap.lookup_insert_of_ne _ hhash] at h
          exact ih h
      case h_2 => exact ih h

/-- An output available in the view is one of `pcoinsTip` or of a transaction in the pool. -/
theorem output_memPoolView {o : COutPoint} {txout : CTxOut}
    (h : (memPoolView pcoinsTip pool tx).output o = some txout) :
    (memPoolView pcoinsTip pool tx).getCoins o.hash = pcoinsTip.getCoins o.hash ∨
      ∃ e, pool.mapTx.lookup o.hash = some e ∧ e.tx.kept o.n = some txout := by
  rw [CCoinsView.output, CCoinsView.getCoins] at h
  cases hl : (memPoolView pcoinsTip pool tx).coins.lookup o.hash with
  | none => exact absurd h (by simp [hl, CCoins.outputs])
  | some coins =>
      have hfrom : memPoolCoins pcoinsTip pool o.hash = some coins :=
        getCoins_of_lookup_fetchInputs hl
      rw [hl, Option.getD_some] at h
      rw [CCoinsView.getCoins, hl, CCoinsView.getCoins]
      cases hbase : pcoinsTip.coins.lookup o.hash with
      | some c =>
          rw [memPoolCoins, hbase] at hfrom
          exact Or.inl (congrArg (Option.getD · {}) hfrom.symm)
      | none =>
          rw [memPoolCoins, hbase, Option.map_eq_some_iff] at hfrom
          obtain ⟨e, he, rfl⟩ := hfrom
          exact Or.inr ⟨e, he, h⟩

/-- `CheckInputs` has found the coins of the inputs mature. -/
theorem mature_of_checkInputAmounts {mapBlockIndex : Uint256 → Option Int}
    (h : view.checkInputAmounts mapBlockIndex tx = .ok ()) (htxin : txin ∈ tx.vin)
    (hcb : (view.getCoins txin.prevout.hash).fCoinBase = true) :
    Mature mapBlockIndex view (view.getCoins txin.prevout.hash).nHeight := by
  rw [CCoinsView.checkInputAmounts] at h
  obtain ⟨_, -, h⟩ := bind_eq_ok.mp h
  split at h
  · cases h
  · rename_i nHeight hindex
    obtain ⟨nValueIn, hrun, -⟩ := bind_eq_ok.mp h
    have hbefore := RunningSum.Tally.before_of_run _ hrun txin htxin
    rw [CCoinsView.checkInputsTally, failIf_eq_ok, hcb, Bool.true_and,
      decide_eq_false_iff_not, not_lt] at hbefore
    exact ⟨nHeight, hindex, hbefore⟩

/-- Everything an acceptance does. -/
theorem acceptToMemoryPool_eq_ok
    (h : acceptToMemoryPool env call pcoinsTip pool tx = .ok pool') :
    ∃ entry, entry.tx = tx ∧ pool.accept env.getTxHash (.ok ()) entry = .ok pool' ∧
      (memPoolView pcoinsTip pool tx).haveInputs tx = true ∧
      (memPoolView pcoinsTip pool tx).checkInputAmounts env.mapBlockIndex tx = .ok () := by
  simp only [acceptToMemoryPool, bind_eq_ok, failIf_eq_ok, exists_const] at h
  obtain ⟨_, hcheck, hcb, _, _, hnew, hfree, _, _, hinputs, _, nValueIn, _, nValueOut, _, _, _, _,
    hchecks, h⟩ := h
  obtain rfl := Except.ok.inj h
  refine ⟨⟨tx, nValueIn - nValueOut, call.nTime, call.nHeight⟩, rfl, ?_,
    by rwa [Bool.not_eq_false'] at hinputs, checkInputs_eq_ok hcb hchecks⟩
  rw [CTxMemPool.exists, Option.isSome_eq_false_iff, Option.isNone_iff_eq_none] at hnew
  simp only [List.any_eq_false, Bool.not_eq_true, Option.isSome_eq_false_iff,
    Option.isNone_iff_eq_none] at hfree
  exact CTxMemPool.accept_eq_ok.mpr ⟨hcheck, hcb, hnew, hfree, rfl, rfl⟩

/-- **Every input of an accepted transaction is backed.** -/
theorem acceptToMemoryPool_backed (hc : pool.Consistent env.getTxHash)
    (h : acceptToMemoryPool env call pcoinsTip pool tx = .ok pool') (htxin : txin ∈ tx.vin) :
    Backed env pcoinsTip pool.txs txin.prevout := by
  obtain ⟨entry, rfl, haccept, hinputs, hamounts⟩ := acceptToMemoryPool_eq_ok h
  obtain ⟨-, hcb, -⟩ := CTxMemPool.accept_eq_ok.mp haccept
  obtain ⟨txout, hout⟩ := (CCoinsView.haveInputs_iff hcb).mp hinputs txin htxin
  rcases output_memPoolView hout with hget | ⟨e, he, hkept⟩
  · refine Or.inl ⟨⟨txout, (pcoinsTip.getCoins txin.prevout.hash).fCoinBase,
      (pcoinsTip.getCoins txin.prevout.hash).nHeight⟩, ?_, fun hflag ↦ ?_⟩
    · rw [CCoinsView.output, hget] at hout
      exact CCoins.coin_eq_some.mpr ⟨hout, rfl, rfl⟩
    · have hmature := mature_of_checkInputAmounts hamounts htxin (by rw [hget]; exact hflag)
      rw [hget] at hmature
      exact hmature
  · exact Or.inr ⟨e.tx, ⟨_, e, he, rfl⟩, hc.hash_eq _ e he, txout, hkept⟩

end

end Fedoracoin
