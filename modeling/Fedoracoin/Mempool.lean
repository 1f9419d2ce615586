import Fedoracoin.Validation
import Fedoracoin.Lib.Cascade
import Fedoracoin.Lib.Run
import Mathlib.Data.Finmap

/-!
# The memory pool

`CTxMemPool` of `txmempool.cpp`: the transactions by id, and for each outpoint they spend
the transaction and the index of the input that does.  The pointer of a `CInPoint` goes
to the transaction stored in `mapTx`; it is modelled by the key it is stored under, so that a
pointer to a transaction no longer stored is one whose key is absent.

`remove` follows `mapNextTx` from the outputs of a transaction to its spenders and erases
from the same maps on the way back.  It carries a fuel argument; that the recursion ends
is part of what is proved about it.  The hash of a transaction is a parameter.
-/

namespace Fedoracoin

/-- An entry of the pool; `dPriority`, a floating point number, is left out. -/
structure CTxMemPoolEntry where
  tx : CTransaction
  nFee : Int64
  nTime : Int64
  nHeight : Nat

/-- `ptx` is the key of the transaction in `mapTx`. -/
@[ext]
structure CInPoint where
  ptx : Uint256
  n : Nat
deriving DecidableEq

structure CTxMemPool where
  mapTx : Finmap fun _ : Uint256 ↦ CTxMemPoolEntry
  mapNextTx : Finmap fun _ : COutPoint ↦ CInPoint
  nTransactionsUpdated : UInt32 := 0

namespace CTxMemPool

def empty : CTxMemPool := { mapTx := ∅, mapNextTx := ∅ }

def «exists» (pool : CTxMemPool) (hash : Uint256) : Bool := (pool.mapTx.lookup hash).isSome

/-- The loop of `addUnchecked`, from input `i` on. -/
def markInputs (hash : Uint256) (i : Nat) (mapNextTx : Finmap fun _ : COutPoint ↦ CInPoint) :
    List CTxIn → Finmap fun _ : COutPoint ↦ CInPoint
  | [] => mapNextTx
  | txin :: vin => markInputs hash (i + 1) (mapNextTx.insert txin.prevout ⟨hash, i⟩) vin

def addUnchecked (pool : CTxMemPool) (hash : Uint256) (entry : CTxMemPoolEntry) : CTxMemPool where
  mapTx := pool.mapTx.insert hash entry
  mapNextTx := markInputs hash 0 pool.mapNextTx entry.tx.vin
  nTransactionsUpdated := pool.nTransactionsUpdated + 1

/-- The loop of `remove` that forgets the inputs. -/
def unmarkInputs (mapNextTx : Finmap fun _ : COutPoint ↦ CInPoint) :
    List CTxIn → Finmap fun _ : COutPoint ↦ CInPoint
  | [] => mapNextTx
  | txin :: vin => unmarkInputs (mapNextTx.erase txin.prevout) vin

/-- The end of `remove`: the transaction itself, if it is in the pool. -/
def removeEntry (getHash : CTransaction → Uint256) (tx : CTransaction)
    (s : CTxMemPool × List CTransaction) : CTxMemPool × List CTransaction :=
  let (pool, removed) := s
  if pool.exists (getHash tx) then
    ({ mapTx := pool.mapTx.erase (getHash tx)
       mapNextTx := unmarkInputs pool.mapNextTx tx.vin
       nTransactionsUpdated := pool.nTransactionsUpdated + 1 }, tx :: removed)
  else s

/-- The transaction an outpoint is spent by, through the pointer. -/
def spender (pool : CTxMemPool) (p : CInPoint) : Except Failure CTransaction :=
  match pool.mapTx.lookup p.ptx with
  | some e => .ok e.tx
  | none => .error .assertion

/-- The loop of `remove` over the outputs `is`; `removeRec` is the recursive call. -/
def removeSpenders
    (removeRec : CTransaction → CTxMemPool × List CTransaction →
      Except Failure (CTxMemPool × List CTransaction))
    (hash : Uint256) : (is : List Nat) → CTxMemPool × List CTransaction →
      Except Failure (CTxMemPool × List CTransaction)
  | [], s => .ok s
  | i :: is, s =>
      match s.1.mapNextTx.lookup ⟨hash, i⟩ with
      | none => removeSpenders removeRec hash is s
      | some p => do
          let tx ← s.1.spender p
          let s ← removeRec tx s
          removeSpenders removeRec hash is s

/-- `remove`, on the pool and the list of removed transactions. -/
def remove (getHash : CTransaction → Uint256) :
    (fuel : Nat) → CTransaction → (fRecursive : Bool) → CTxMemPool × List CTransaction →
      Except Failure (CTxMemPool × List CTransaction)
  | 0, _, _, _ => .error .diverges
  | fuel + 1, tx, fRecursive, s => do
      let s ← if fRecursive then
          removeSpenders (fun tx s ↦ remove getHash fuel tx true s) (getHash tx)
            (List.range tx.vout.length) s
        else .ok s
      return removeEntry getHash tx s

/-- The loop of `removeConflicts` over the inputs of `tx`. -/
def removeConflictsLoop (getHash : CTransaction → Uint256) (fuel : Nat) (tx : CTransaction) :
    List CTxIn → CTxMemPool × List CTransaction →
      Except Failure (CTxMemPool × List CTransaction)
  | [], s => .ok s
  | txin :: vin, s =>
      match s.1.mapNextTx.lookup txin.prevout with
      | none => removeConflictsLoop getHash fuel tx vin s
      | some p => do
          let txConflict ← s.1.spender p
          let s ← if txConflict ≠ tx then remove getHash fuel txConflict true s else .ok s
          removeConflictsLoop getHash fuel tx vin s

def removeConflicts (getHash : CTransaction → Uint256) (fuel : Nat) (tx : CTransaction)
    (s : CTxMemPool × List CTransaction) : Except Failure (CTxMemPool × List CTransaction) :=
  removeConflictsLoop getHash fuel tx tx.vin s

def clear (pool : CTxMemPool) : CTxMemPool where
  mapTx := ∅
  mapNextTx := ∅
  nTransactionsUpdated := pool.nTransactionsUpdated + 1

/-- `AcceptToMemoryPool`, as far as it concerns the pool.  `otherChecks` stands for what it
tests on the coins view, standardness and fees. -/
def accept (getHash : CTransaction → Uint256) (otherChecks : Except Failure Unit)
    (pool : CTxMemPool) (entry : CTxMemPoolEntry) : Except Failure CTxMemPool := do
  checkTransaction entry.tx
  failIf entry.tx.isCoinBase (.dos 100 rejectInvalid "coinbase")
  failIf (pool.exists (getHash entry.tx)) (.error "")
  failIf (entry.tx.vin.any fun txin ↦ (pool.mapNextTx.lookup txin.prevout).isSome) (.error "")
  otherChecks
  return pool.addUnchecked (getHash entry.tx) entry

/-! ## Consistency -/

/-- The conditions `CTxMemPool::check` asserts that concern the pool alone. -/
structure Consistent (getHash : CTransaction → Uint256) (pool : CTxMemPool) : Prop where
  /-- A transaction is stored under its hash. -/
  hash_eq : ∀ hash e, pool.mapTx.lookup hash = some e → getHash e.tx = hash
  /-- The first loop: each input is in `mapNextTx`, with its transaction and index. -/
  input : ∀ hash e, pool.mapTx.lookup hash = some e → ∀ i txin, e.tx.vin[i]? = some txin →
    pool.mapNextTx.lookup txin.prevout = some ⟨hash, i⟩
  /-- The second loop: each entry of `mapNextTx` is of an input of a transaction stored. -/
  inPoint : ∀ o p, pool.mapNextTx.lookup o = some p → ∃ e txin,
    pool.mapTx.lookup p.ptx = some e ∧ e.tx.vin[p.n]? = some txin ∧ txin.prevout = o

/-- The transactions in the pool. -/
def txs (pool : CTxMemPool) : Set CTransaction :=
  {tx | ∃ hash e, pool.mapTx.lookup hash = some e ∧ e.tx = tx}

end CTxMemPool

/-- `tx` spends an output of `parent`. -/
def CTransaction.SpentBy (getHash : CTransaction → Uint256) (parent tx : CTransaction) : Prop :=
  ∃ i < parent.vout.length, ∃ txin ∈ tx.vin, txin.prevout = ⟨getHash parent, i⟩

namespace CTxMemPool

open CTransaction (SpentBy)

variable {getHash : CTransaction → Uint256} {pool pool' pool'' : CTxMemPool}
  {tx tx' : CTransaction} {hash : Uint256} {vin : List CTxIn} {o : COutPoint} {i : Nat}
  {mapNextTx : Finmap fun _ : COutPoint ↦ CInPoint} {new new' removed : List CTransaction}

theorem Consistent.mem_txs (hc : pool.Consistent getHash) :
    tx ∈ pool.txs ↔ ∃ e, pool.mapTx.lookup (getHash tx) = some e ∧ e.tx = tx := by
  constructor
  · rintro ⟨hash, e, he, rfl⟩
    exact ⟨e, by rwa [hc.hash_eq hash e he], rfl⟩
  · rintro ⟨e, he, rfl⟩
    exact ⟨_, e, he, rfl⟩

/-- Two transactions of the pool with the same hash are the same. -/
theorem Consistent.eq_of_hash_eq (hc : pool.Consistent getHash) (htx : tx ∈ pool.txs)
    (htx' : tx' ∈ pool.txs) (h : getHash tx = getHash tx') : tx = tx' := by
  obtain ⟨e, he, rfl⟩ := hc.mem_txs.mp htx
  obtain ⟨e', he', rfl⟩ := hc.mem_txs.mp htx'
  rw [h, he', Option.some.injEq] at he
  rw [he]

/-- No outpoint is spent twice. -/
theorem Consistent.eq_of_prevout_eq (hc : pool.Consistent getHash) (htx : tx ∈ pool.txs)
    (htx' : tx' ∈ pool.txs) {i j : Nat} {txin txin' : CTxIn} (hi : tx.vin[i]? = some txin)
    (hj : tx'.vin[j]? = some txin') (h : txin.prevout = txin'.prevout) : tx = tx' ∧ i = j := by
  obtain ⟨e, he, rfl⟩ := hc.mem_txs.mp htx
  obtain ⟨e', he', rfl⟩ := hc.mem_txs.mp htx'
  have hin := hc.input _ e he i txin hi
  rw [h, hc.input _ e' he' j txin' hj, Option.some.injEq, CInPoint.mk.injEq] at hin
  exact ⟨hc.eq_of_hash_eq htx htx' hin.1.symm, hin.2.symm⟩

/-- An outpoint that is not in `mapNextTx` is spent by no transaction of the pool. -/
theorem Consistent.prevout_ne {txin : CTxIn} (hc : pool.Consistent getHash)
    (h : pool.mapNextTx.lookup o = none) (htx : tx ∈ pool.txs) (hin : txin ∈ tx.vin) :
    txin.prevout ≠ o := by
  rintro rfl
  obtain ⟨e, he, rfl⟩ := hc.mem_txs.mp htx
  obtain ⟨i, hi⟩ := List.mem_iff_getElem?.mp hin
  rw [hc.input _ e he i txin hi] at h
  cases h

/-- An outpoint that is in `mapNextTx` leads to the one transaction of the pool that spends it. -/
theorem Consistent.exists_spender {p : CInPoint} (hc : pool.Consistent getHash)
    (h : pool.mapNextTx.lookup o = some p) :
    ∃ tx ∈ pool.txs, pool.spender p = .ok tx ∧
      ∀ t ∈ pool.txs, (∃ txin ∈ t.vin, txin.prevout = o) ↔ t = tx := by
  obtain ⟨e, txin, he, hin, ho⟩ := hc.inPoint o p h
  have hmem : e.tx ∈ pool.txs := ⟨_, e, he, rfl⟩
  refine ⟨e.tx, hmem, by rw [spender, he], fun t ht ↦ ?_⟩
  constructor
  · rintro ⟨txin', htxin', ho'⟩
    obtain ⟨i, hi⟩ := List.mem_iff_getElem?.mp htxin'
    exact (hc.eq_of_prevout_eq ht hmem hi hin (ho'.trans ho.symm)).1
  · rintro rfl
    exact ⟨txin, List.mem_of_getElem? hin, ho⟩

theorem finite_txs : pool.txs.Finite := by
  refine Set.Finite.subset (pool.mapTx.keys.finite_toSet.image fun hash ↦
    ((pool.mapTx.lookup hash).map CTxMemPoolEntry.tx).getD { vin := [], vout := [] }) ?_
  rintro _ ⟨hash, e, he, rfl⟩
  refine ⟨hash, Finset.mem_coe.mpr (Finmap.mem_keys.mpr (Finmap.mem_of_lookup_eq_some he)), ?_⟩
  simp only [he, Option.map_some, Option.getD_some]

/-! ## Adding -/

theorem lookup_markInputs_of_notMem (h : ∀ txin ∈ vin, txin.prevout ≠ o) :
    (markInputs hash i mapNextTx vin).lookup o = mapNextTx.lookup o := by
  induction vin generalizing i mapNextTx with
  | nil => rfl
  | cons txin vin ih =>
      rw [markInputs, ih fun txin' hmem ↦ h txin' (by simp [hmem]),
        Finmap.lookup_insert_of_ne _ (h txin (by simp)).symm]

theorem lookup_markInputs (hnd : (vin.map (·.prevout)).Nodup) {j : Nat} {txin : CTxIn}
    (hj : vin[j]? = some txin) :
    (markInputs hash i mapNextTx vin).lookup txin.prevout = some ⟨hash, i + j⟩ := by
  induction vin generalizing i j mapNextTx with
  | nil => simp at hj
  | cons txin₀ vin ih =>
      rw [List.map_cons, List.nodup_cons] at hnd
      cases j with
      | zero =>
          obtain rfl := Option.some.inj hj
          rw [markInputs, lookup_markInputs_of_notMem, Finmap.lookup_insert]
          · rfl
          · intro txin' hmem heq
            exact hnd.1 (List.mem_map.mpr ⟨txin', hmem, heq⟩)
      | succ j =>
          rw [markInputs, ih hnd.2 hj, Nat.add_assoc, Nat.add_comm 1 j]

/-- The entries made are of the inputs. -/
theorem lookup_markInputs_cases {p : CInPoint} (hnd : (vin.map (·.prevout)).Nodup)
    (h : (markInputs hash i mapNextTx vin).lookup o = some p) :
    mapNextTx.lookup o = some p ∨
      ∃ j txin, vin[j]? = some txin ∧ txin.prevout = o ∧ p = ⟨hash, i + j⟩ := by
  by_cases hmem : ∃ txin ∈ vin, txin.prevout = o
  · obtain ⟨txin, hmem, rfl⟩ := hmem
    obtain ⟨j, hj⟩ := List.mem_iff_getElem?.mp hmem
    rw [lookup_markInputs hnd hj, Option.some.injEq] at h
    exact Or.inr ⟨j, txin, hj, rfl, h.symm⟩
  · rw [lookup_markInputs_of_notMem fun txin hin heq ↦ hmem ⟨txin, hin, heq⟩] at h
    exact Or.inl h

theorem Consistent.addUnchecked {entry : CTxMemPoolEntry} (hc : pool.Consistent getHash)
    (hnd : (entry.tx.vin.map (·.prevout)).Nodup)
    (hnew : pool.mapTx.lookup (getHash entry.tx) = none)
    (hfree : ∀ txin ∈ entry.tx.vin, pool.mapNextTx.lookup txin.prevout = none) :
    (pool.addUnchecked (getHash entry.tx) entry).Consistent getHash := by
  constructor
  · intro hash e he
    by_cases hh : hash = getHash entry.tx
    · rw [hh, CTxMemPool.addUnchecked, Finmap.lookup_insert, Option.some.injEq] at he
      rw [hh, he]
    · rw [CTxMemPool.addUnchecked, Finmap.lookup_insert_of_ne _ hh] at he
      exact hc.hash_eq hash e he
  · intro hash e he i txin hi
    by_cases hh : hash = getHash entry.tx
    · subst hh
      rw [CTxMemPool.addUnchecked, Finmap.lookup_insert, Option.some.injEq] at he
      subst he
      rw [CTxMemPool.addUnchecked, lookup_markInputs hnd hi, Nat.zero_add]
    · rw [CTxMemPool.addUnchecked, Finmap.lookup_insert_of_ne _ hh] at he
      have hin := hc.input hash e he i txin hi
      rw [CTxMemPool.addUnchecked, lookup_markInputs_of_notMem, hin]
      intro txin' hmem heq
      rw [← heq, hfree txin' hmem] at hin
      cases hin
  · intro o p hp
    rcases lookup_markInputs_cases hnd hp with hp | ⟨j, txin, hj, ho, rfl⟩
    · obtain ⟨e, txin, he, hin, ho⟩ := hc.inPoint o p hp
      have hne : p.ptx ≠ getHash entry.tx := by
        intro heq
        rw [heq, hnew] at he
        cases he
      exact ⟨e, txin, (Finmap.lookup_insert_of_ne _ hne).trans he, hin, ho⟩
    · rw [Nat.zero_add]
      exact ⟨entry, txin, Finmap.lookup_insert _, hj, ho⟩

/-! ## Removing -/

theorem lookup_unmarkInputs_of_mem (h : ∃ txin ∈ vin, txin.prevout = o) :
    (unmarkInputs mapNextTx vin).lookup o = none := by
  have hnone : ∀ (vin : List CTxIn) (m : Finmap fun _ : COutPoint ↦ CInPoint),
      m.lookup o = none → (unmarkInputs m vin).lookup o = none := by
    intro vin
    induction vin with
    | nil => exact fun _ h ↦ h
    | cons txin vin ih =>
        intro m hm
        refine ih _ ?_
        by_cases ho : o = txin.prevout
        · rw [ho, Finmap.lookup_erase]
        · rw [Finmap.lookup_erase_ne ho, hm]
  induction vin generalizing mapNextTx with
  | nil => simp at h
  | cons txin vin ih =>
      by_cases ho : txin.prevout = o
      · subst ho
        exact hnone vin _ (Finmap.lookup_erase _ _)
      · refine ih ?_
        obtain ⟨txin', hmem, heq⟩ := h
        rcases List.mem_cons.mp hmem with rfl | hmem
        · exact absurd heq ho
        · exact ⟨txin', hmem, heq⟩

theorem lookup_unmarkInputs_of_notMem (h : ∀ txin ∈ vin, txin.prevout ≠ o) :
    (unmarkInputs mapNextTx vin).lookup o = mapNextTx.lookup o := by
  induction vin generalizing mapNextTx with
  | nil => rfl
  | cons txin vin ih =>
      rw [unmarkInputs, ih fun txin' hmem ↦ h txin' (by simp [hmem]),
        Finmap.lookup_erase_ne (h txin (by simp)).symm]

/-- `pool'` is what is left of `pool` when the transactions `new` have been removed. -/
structure Removed (getHash : CTransaction → Uint256) (pool pool' : CTxMemPool)
    (new : List CTransaction) : Prop where
  consistent : pool'.Consistent getHash
  nodup : new.Nodup
  mem : ∀ tx ∈ new, tx ∈ pool.txs
  lookup : ∀ hash, pool'.mapTx.lookup hash =
    if hash ∈ new.map getHash then none else pool.mapTx.lookup hash

theorem Removed.refl (hc : pool.Consistent getHash) : Removed getHash pool pool [] :=
  ⟨hc, List.nodup_nil, by simp, by simp⟩

theorem Removed.mem_txs (h : Removed getHash pool pool' new) (hc : pool.Consistent getHash) :
    tx ∈ pool'.txs ↔ tx ∈ pool.txs ∧ tx ∉ new := by
  rw [h.consistent.mem_txs, h.lookup, hc.mem_txs]
  constructor
  · rintro ⟨e, he, rfl⟩
    split at he
    · cases he
    · rename_i hnot
      exact ⟨⟨e, he, rfl⟩, fun hmem ↦ hnot (List.mem_map_of_mem hmem)⟩
  · rintro ⟨⟨e, he, rfl⟩, hnot⟩
    refine ⟨e, ?_, rfl⟩
    rw [if_neg, he]
    intro hmem
    obtain ⟨tx', hmem', heq⟩ := List.mem_map.mp hmem
    have htx : e.tx ∈ pool.txs := ⟨_, e, he, rfl⟩
    rw [hc.eq_of_hash_eq (h.mem tx' hmem') htx heq] at hmem'
    exact hnot hmem'

theorem Removed.txs_eq (h : Removed getHash pool pool' new) (hc : pool.Consistent getHash) :
    pool'.txs = pool.txs \ {tx | tx ∈ new} := by
  ext tx
  exact h.mem_txs hc

theorem Removed.trans (h : Removed getHash pool pool' new)
    (h' : Removed getHash pool' pool'' new') (hc : pool.Consistent getHash) :
    Removed getHash pool pool'' (new' ++ new) := by
  refine ⟨h'.consistent, ?_, ?_, fun hash ↦ ?_⟩
  · rw [List.nodup_append]
    refine ⟨h'.nodup, h.nodup, ?_⟩
    rintro tx htx _ htx' rfl
    exact ((h.mem_txs hc).mp (h'.mem tx htx)).2 htx'
  · intro tx htx
    rcases List.mem_append.mp htx with htx | htx
    · exact ((h.mem_txs hc).mp (h'.mem tx htx)).1
    · exact h.mem tx htx
  · rw [h'.lookup, h.lookup, List.map_append]
    by_cases hmem' : hash ∈ new'.map getHash
    · rw [if_pos hmem', if_pos (List.mem_append_left _ hmem')]
    · by_cases hmem : hash ∈ new.map getHash
      · rw [if_neg hmem', if_pos hmem, if_pos (List.mem_append_right _ hmem)]
      · rw [if_neg hmem', if_neg hmem, if_neg]
        rw [List.mem_append, not_or]
        exact ⟨hmem', hmem⟩

theorem lookup_erase_eq_some {e : CTxMemPoolEntry} {hash' : Uint256}
    (h : (pool.mapTx.erase hash').lookup hash = some e) :
    hash ≠ hash' ∧ pool.mapTx.lookup hash = some e := by
  by_cases hh : hash = hash'
  · rw [hh, Finmap.lookup_erase] at h
    cases h
  · rw [Finmap.lookup_erase_ne hh] at h
    exact ⟨hh, h⟩

variable (removed) in
/-- Removing one transaction of the pool. -/
theorem Removed.removeEntry (hc : pool.Consistent getHash) (htx : tx ∈ pool.txs) :
    ∃ pool', removeEntry getHash tx (pool, removed) = (pool', tx :: removed) ∧
      Removed getHash pool pool' [tx] := by
  obtain ⟨e, he, rfl⟩ := hc.mem_txs.mp htx
  have hexists : pool.exists (getHash e.tx) = true := by rw [CTxMemPool.exists, he]; rfl
  refine ⟨_, by rw [CTxMemPool.removeEntry, if_pos hexists], ⟨⟨?_, ?_, ?_⟩, by simp, by simpa,
    fun hash ↦ ?_⟩⟩
  · intro hash e' he'
    exact hc.hash_eq hash e' (lookup_erase_eq_some he').2
  · intro hash e' he' i txin hi
    obtain ⟨hh, he'⟩ := lookup_erase_eq_some he'
    have hin := hc.input hash e' he' i txin hi
    rw [lookup_unmarkInputs_of_notMem, hin]
    -- an input of the removed transaction would be marked as such
    intro txin' hmem heq
    obtain ⟨j, hj⟩ := List.mem_iff_getElem?.mp hmem
    rw [← heq, hc.input _ e he j txin' hj, Option.some.injEq, CInPoint.mk.injEq] at hin
    exact hh hin.1.symm
  · intro o p hp
    have hnot : ∀ txin ∈ e.tx.vin, txin.prevout ≠ o := by
      intro txin hmem heq
      rw [lookup_unmarkInputs_of_mem ⟨txin, hmem, heq⟩] at hp
      cases hp
    rw [lookup_unmarkInputs_of_notMem hnot] at hp
    obtain ⟨e', txin, he', hin, ho⟩ := hc.inPoint o p hp
    have hne : p.ptx ≠ getHash e.tx := by
      intro heq
      rw [heq, he, Option.some.injEq] at he'
      subst he'
      exact hnot txin (List.mem_of_getElem? hin) ho
    exact ⟨e', txin, (Finmap.lookup_erase_ne hne).trans he', hin, ho⟩
  · by_cases hh : hash = getHash e.tx
    · rw [if_pos (by simp [hh]), hh, Finmap.lookup_erase]
    · rw [if_neg (by simp [hh]), Finmap.lookup_erase_ne hh]

/-! ## Removing recursively -/

open Cascade

/-- `new` is `tx`, if it was in the pool, with everything in the pool that spends from it. -/
structure Cascaded (getHash : CTransaction → Uint256) (pool : CTxMemPool) (tx : CTransaction)
    (pool' : CTxMemPool) (new : List CTransaction) : Prop where
  removed : Removed getHash pool pool' new
  mem_iff : ∀ t, t ∈ new ↔
    t ∈ pool.txs ∧ (t = tx ∨ Below (SpentBy getHash) pool.txs tx t)

/-- What a spender of `tx` takes along has been removed on the way as well. -/
theorem Cascaded.progress {c : CTransaction} {new₁ : List CTransaction}
    (h : Cascaded getHash pool' c pool'' new₁) (hc : pool.Consistent getHash)
    (hrem : Removed getHash pool pool' new) (hmem : c ∈ pool.txs) (hspent : SpentBy getHash tx c)
    (hprog : Progress (SpentBy getHash) pool.txs tx {t | t ∈ new}) :
    Progress (SpentBy getHash) pool.txs tx {t | t ∈ new₁ ++ new} := by
  have hstep := hprog.step hmem hspent (Y := {t | t ∈ new₁}) fun t ↦ by
    rw [← hrem.txs_eq hc]
    exact h.mem_iff t
  have hunion : {t | t ∈ new₁ ++ new} = {t | t ∈ new₁} ∪ {t | t ∈ new} := by
    ext t
    exact List.mem_append
  rwa [hunion]

variable (tx removed) in
/-- The loop over the outputs of `tx`.  Either it ends with all their spenders removed, or
one of the recursive calls ran out of fuel. -/
theorem removeSpenders_spec {P : Prop}
    {removeRec : CTransaction → CTxMemPool × List CTransaction →
      Except Failure (CTxMemPool × List CTransaction)}
    (hc : pool.Consistent getHash)
    (hrec : ∀ c pool' removed, pool'.Consistent getHash → pool'.txs ⊆ pool.txs →
      c ∈ pool'.txs → SpentBy getHash tx c →
      (∃ pool'' new, removeRec c (pool', removed) = .ok (pool'', new ++ removed) ∧
        Cascaded getHash pool' c pool'' new) ∨
      (removeRec c (pool', removed) = .error .diverges ∧ P))
    {is : List Nat} (his : ∀ i ∈ is, i < tx.vout.length)
    (hrem : Removed getHash pool pool' new)
    (hprog : Progress (SpentBy getHash) pool.txs tx {t | t ∈ new}) :
    (∃ pool'' new', removeSpenders removeRec (getHash tx) is (pool', new ++ removed) =
        .ok (pool'', new' ++ removed) ∧ Removed getHash pool pool'' new' ∧
      Progress (SpentBy getHash) pool.txs tx {t | t ∈ new'} ∧ (∀ t ∈ new, t ∈ new') ∧
      ∀ i ∈ is, ∀ t ∈ pool.txs, ∀ txin ∈ t.vin, txin.prevout = ⟨getHash tx, i⟩ → t ∈ new') ∨
    (removeSpenders removeRec (getHash tx) is (pool', new ++ removed) = .error .diverges ∧ P) := by
  induction is generalizing pool' new with
  | nil => exact Or.inl ⟨pool', new, rfl, hrem, hprog, fun _ h ↦ h, by simp⟩
  | cons i is ih =>
      have his' : ∀ i ∈ is, i < tx.vout.length := fun j hj ↦ his j (by simp [hj])
      rw [removeSpenders]
      cases hl : pool'.mapNextTx.lookup ⟨getHash tx, i⟩ with
      | none =>
          -- nothing left spends this output
          refine (ih his' hrem hprog).imp_left ?_
          rintro ⟨pool'', new', hloop, hrem', hprog', hsub, hall⟩
          refine ⟨pool'', new', hloop, hrem', hprog', hsub, ?_⟩
          rintro j hj t ht txin htxin ho
          rcases List.mem_cons.mp hj with rfl | hj
          · by_contra hnot
            have ht' := (hrem.mem_txs hc).mpr ⟨ht, fun hmem ↦ hnot (hsub _ hmem)⟩
            exact hrem.consistent.prevout_ne hl ht' htxin ho
          · exact hall j hj t ht txin htxin ho
      | some p =>
          obtain ⟨c, hmem', hspender, honly⟩ := hrem.consistent.exists_spender hl
          have hsub' : pool'.txs ⊆ pool.txs := fun t ht ↦ ((hrem.mem_txs hc).mp ht).1
          have hspent : SpentBy getHash tx c :=
            ⟨i, his i (by simp), (honly c hmem').mpr rfl⟩
          simp only [hspender, bind, Except.bind]
          rcases hrec c pool' (new ++ removed) hrem.consistent hsub' hmem' hspent with
            ⟨pool₁, new₁, hcall, hcas⟩ | ⟨hcall, hP⟩
          · have hrem₁ := hrem.trans hcas.removed hc
            have hprog₁ := hcas.progress hc hrem (hsub' hmem') hspent hprog
            rw [hcall, ← List.append_assoc]
            refine (ih his' hrem₁ hprog₁).imp_left ?_
            rintro ⟨pool'', new', hloop, hrem', hprog', hsub, hall⟩
            refine ⟨pool'', new', hloop, hrem', hprog',
              fun t ht ↦ hsub t (List.mem_append_right _ ht), ?_⟩
            rintro j hj t ht txin' htxin' ho'
            rcases List.mem_cons.mp hj with rfl | hj
            · by_cases hnew : t ∈ new
              · exact hsub t (List.mem_append_right _ hnew)
              · -- the only spender of the output is the one just removed
                obtain rfl := (honly t ((hrem.mem_txs hc).mpr ⟨ht, hnew⟩)).mp ⟨txin', htxin', ho'⟩
                exact hsub _ (List.mem_append_left _ ((hcas.mem_iff _).mpr ⟨hmem', Or.inl rfl⟩))
            · exact hall j hj t ht txin' htxin' ho'
          · exact Or.inr ⟨by rw [hcall], hP⟩

variable {S : Set CTransaction}

/-- What `remove` finds under the hash of `tx` is `tx`. -/
theorem Consistent.exists_iff (hc : pool.Consistent getHash) (hinj : Set.InjOn getHash S)
    (hsub : pool.txs ⊆ S) (htx : tx ∈ S) : pool.exists (getHash tx) = true ↔ tx ∈ pool.txs := by
  rw [CTxMemPool.exists, Option.isSome_iff_exists, hc.mem_txs]
  constructor
  · rintro ⟨e, he⟩
    exact ⟨e, he, hinj (hsub ⟨_, e, he, rfl⟩) htx (hc.hash_eq _ e he)⟩
  · rintro ⟨e, he, _⟩
    exact ⟨e, he⟩

variable (removed) in
/-- **Recursive removal.**  It removes exactly the transaction and what spends from it, directly
or through others, given more fuel than there are such spenders. -/
theorem remove_spec (hinj : Set.InjOn getHash S) (hacyc : Acyclic (SpentBy getHash) S)
    (fuel : Nat) (htx : tx ∈ S) (hc : pool.Consistent getHash) (hsub : pool.txs ⊆ S) :
    (∃ pool' new, remove getHash fuel tx true (pool, removed) = .ok (pool', new ++ removed) ∧
      Cascaded getHash pool tx pool' new) ∨
    (remove getHash fuel tx true (pool, removed) = .error .diverges ∧
      fuel ≤ {t | Below (SpentBy getHash) pool.txs tx t}.ncard) := by
  induction fuel generalizing tx pool removed with
  | zero => exact Or.inr ⟨rfl, Nat.zero_le _⟩
  | succ fuel ih =>
      have hloop := removeSpenders_spec tx removed (P := fuel + 1 ≤
          {t | Below (SpentBy getHash) pool.txs tx t}.ncard) hc
        (fun c pool' removed hc' hsub' hmem hspent ↦ (ih removed
          (hsub (hsub' hmem)) hc' (hsub'.trans hsub)).imp_right fun ⟨hfail, hle⟩ ↦
            ⟨hfail, Nat.lt_of_le_of_lt (hle.trans (Below.ncard_mono finite_txs hsub'))
              (Below.ncard_lt finite_txs hacyc hsub (hsub' hmem) hspent)⟩)
        (fun i (hi : i ∈ List.range tx.vout.length) ↦ List.mem_range.mp hi)
        (Removed.refl hc) (by simpa using Progress.empty)
      rw [List.nil_append] at hloop
      rw [remove, if_pos rfl]
      rcases hloop with ⟨pool₁, new, hloop, hrem, hprog, -, hall⟩ | ⟨hloop, hP⟩
      · rw [hloop]
        have hbelow : {t | t ∈ new} = {t | Below (SpentBy getHash) pool.txs tx t} :=
          hprog.eq fun t ht ⟨i, hi, txin, htxin, ho⟩ ↦
            hall i (List.mem_range.mpr hi) t ht txin htxin ho
        have hmem : ∀ t, t ∈ new ↔ Below (SpentBy getHash) pool.txs tx t :=
          fun t ↦ iff_of_eq (congrArg (t ∈ ·) hbelow)
        have hsub₁ : pool₁.txs ⊆ S := fun t ht ↦ hsub ((hrem.mem_txs hc).mp ht).1
        refine Or.inl ?_
        by_cases hin : tx ∈ pool.txs
        · have hself : tx ∉ new := fun h ↦ hacyc tx htx (((hmem tx).mp h).mono hsub)
          obtain ⟨pool', hentry, hlast⟩ := Removed.removeEntry (new ++ removed)
            hrem.consistent ((hrem.mem_txs hc).mpr ⟨hin, hself⟩)
          refine ⟨pool', tx :: new, congrArg Except.ok hentry, hrem.trans hlast hc, fun t ↦ ?_⟩
          rw [List.mem_cons, hmem]
          constructor
          · rintro (rfl | ht)
            · exact ⟨hin, Or.inl rfl⟩
            · exact ⟨ht.mem, Or.inr ht⟩
          · exact fun h ↦ h.2
        · have hno : ¬ pool₁.exists (getHash tx) = true := fun h ↦
            hin ((hrem.mem_txs hc).mp ((hrem.consistent.exists_iff hinj hsub₁ htx).mp h)).1
          refine ⟨pool₁, new, congrArg Except.ok (if_neg hno), hrem, fun t ↦ ?_⟩
          rw [hmem]
          constructor
          · exact fun ht ↦ ⟨ht.mem, Or.inr ht⟩
          · rintro ⟨ht, rfl | hb⟩
            · exact absurd ht hin
            · exact hb
      · rw [hloop]
        exact Or.inr ⟨rfl, hP⟩

/-! ## Runs -/

/-- The operations on the pool. -/
inductive Op where
  | accept (entry : CTxMemPoolEntry)
  | remove (tx : CTransaction) (fRecursive : Bool)
  | removeConflicts (tx : CTransaction)
  | clear

/-- An operation on transactions of `S` that returns. -/
inductive Step (getHash : CTransaction → Uint256) (S : Set CTransaction) :
    CTxMemPool → Op → CTxMemPool → Prop
  | accept {pool pool' : CTxMemPool} {entry : CTxMemPoolEntry}
      {otherChecks : Except Failure Unit} (hmem : entry.tx ∈ S)
      (h : pool.accept getHash otherChecks entry = .ok pool') :
      Step getHash S pool (.accept entry) pool'
  | remove {pool pool' : CTxMemPool} {tx : CTransaction} {fRecursive : Bool} {fuel : Nat}
      {removed removed' : List CTransaction} (hmem : tx ∈ S)
      (h : remove getHash fuel tx fRecursive (pool, removed) = .ok (pool', removed')) :
      Step getHash S pool (.remove tx fRecursive) pool'
  | removeConflicts {pool pool' : CTxMemPool} {tx : CTransaction} {fuel : Nat}
      {removed removed' : List CTransaction} (hmem : tx ∈ S)
      (h : removeConflicts getHash fuel tx (pool, removed) = .ok (pool', removed')) :
      Step getHash S pool (.removeConflicts tx) pool'
  | clear {pool : CTxMemPool} : Step getHash S pool .clear pool.clear

/-- A consistent pool of transactions of `S`. -/
structure Inv (getHash : CTransaction → Uint256) (S : Set CTransaction) (pool : CTxMemPool) :
    Prop where
  consistent : pool.Consistent getHash
  sub : pool.txs ⊆ S

theorem inv_of_lookup_eq_none (h : ∀ hash, pool.mapTx.lookup hash = none)
    (h' : ∀ o, pool.mapNextTx.lookup o = none) : pool.Inv getHash S := by
  refine ⟨⟨?_, ?_, ?_⟩, ?_⟩
  · intro hash e he
    rw [h] at he
    cases he
  · intro hash e he
    rw [h] at he
    cases he
  · intro o p hp
    rw [h'] at hp
    cases hp
  · rintro _ ⟨hash, e, he, _⟩
    rw [h] at he
    cases he

theorem accept_eq_ok {entry : CTxMemPoolEntry} {otherChecks : Except Failure Unit} :
    pool.accept getHash otherChecks entry = .ok pool' ↔
      checkTransaction entry.tx = .ok () ∧ entry.tx.isCoinBase = false ∧
      pool.mapTx.lookup (getHash entry.tx) = none ∧
      (∀ txin ∈ entry.tx.vin, pool.mapNextTx.lookup txin.prevout = none) ∧
      otherChecks = .ok () ∧ pool' = pool.addUnchecked (getHash entry.tx) entry := by
  simp only [accept, bind_eq_ok, failIf_eq_ok, exists_const, CTxMemPool.exists,
    Option.isSome_eq_false_iff, Option.isNone_iff_eq_none, List.any_eq_false, Bool.not_eq_true,
    pure, Except.pure, Except.ok.injEq, eq_comm (a := pool')]
  constructor
  · rintro ⟨_, hcheck, hcb, hnew, hfree, _, hother, h⟩
    exact ⟨hcheck, hcb, hnew, hfree, hother, h⟩
  · rintro ⟨hcheck, hcb, hnew, hfree, hother, h⟩
    exact ⟨(), hcheck, hcb, hnew, hfree, (), hother, h⟩

theorem Cascaded.inv {c : CTransaction} (h : Cascaded getHash pool c pool' new)
    (hinv : pool.Inv getHash S) : pool'.Inv getHash S :=
  ⟨h.removed.consistent,
    fun _ ht ↦ hinv.sub ((h.removed.mem_txs hinv.consistent).mp ht).1⟩

/-- What a removal that took along everything spending from what it removed left of the pool. -/
structure Shrunk (getHash : CTransaction → Uint256) (S : Set CTransaction)
    (pool pool' : CTxMemPool) : Prop where
  inv : pool'.Inv getHash S
  closed : Closed (SpentBy getHash) pool.txs pool'.txs

theorem Shrunk.refl (hinv : pool.Inv getHash S) : Shrunk getHash S pool pool := ⟨hinv, .refl⟩

theorem Shrunk.trans (h : Shrunk getHash S pool pool') (h' : Shrunk getHash S pool' pool'') :
    Shrunk getHash S pool pool'' :=
  ⟨h'.inv, h.closed.trans h'.closed⟩

theorem Cascaded.mem_txs {c t : CTransaction} (h : Cascaded getHash pool c pool' new)
    (hc : pool.Consistent getHash) :
    t ∈ pool'.txs ↔ t ∈ pool.txs ∧ ¬ (t = c ∨ Below (SpentBy getHash) pool.txs c t) := by
  rw [h.removed.mem_txs hc, h.mem_iff]
  constructor
  · rintro ⟨ht, hnot⟩
    exact ⟨ht, fun hbelow ↦ hnot ⟨ht, hbelow⟩⟩
  · rintro ⟨ht, hnot⟩
    exact ⟨ht, fun hbelow ↦ hnot hbelow.2⟩

/-- A recursive removal that returns leaves neither the transaction nor what spends from it. -/
theorem Inv.remove (hinj : Set.InjOn getHash S) (hacyc : Acyclic (SpentBy getHash) S)
    (hinv : pool.Inv getHash S) (htx : tx ∈ S) {fuel : Nat} {removed' : List CTransaction}
    (h : remove getHash fuel tx true (pool, removed) = .ok (pool', removed')) :
    Shrunk getHash S pool pool' ∧ ∀ t ∈ pool'.txs, t ≠ tx ∧ ¬ SpentBy getHash tx t := by
  rcases remove_spec removed hinj hacyc fuel htx hinv.consistent hinv.sub
    with ⟨pool₁, new, hok, hcas⟩ | ⟨hfail, _⟩
  · rw [h, Except.ok.injEq, Prod.mk.injEq] at hok
    obtain ⟨rfl, -⟩ := hok
    refine ⟨⟨hcas.inv hinv, .of_below fun t ↦ hcas.mem_txs hinv.consistent⟩, fun t ht ↦ ?_⟩
    obtain ⟨hmem, hnot⟩ := (hcas.mem_txs hinv.consistent).mp ht
    exact ⟨fun heq ↦ hnot (Or.inl heq), fun hspent ↦ hnot (Or.inr (.child hmem hspent))⟩
  · rw [h] at hfail
    cases hfail

/-- A removal that is not recursive leaves everything else. -/
theorem Inv.remove_single (hinj : Set.InjOn getHash S) (hinv : pool.Inv getHash S) (htx : tx ∈ S)
    {fuel : Nat} {removed' : List CTransaction}
    (h : CTxMemPool.remove getHash fuel tx false (pool, removed) = .ok (pool', removed')) :
    pool'.Inv getHash S ∧ pool'.txs = pool.txs \ {tx} := by
  cases fuel with
  | zero => exact absurd h (by simp [CTxMemPool.remove])
  | succ fuel =>
      have hentry := Except.ok.inj h
      by_cases hin : tx ∈ pool.txs
      · obtain ⟨pool₁, heq, hrem⟩ := Removed.removeEntry removed hinv.consistent hin
        rw [hentry, Prod.mk.injEq] at heq
        obtain ⟨rfl, -⟩ := heq
        have htxs := hrem.txs_eq hinv.consistent
        simp only [List.mem_singleton, Set.ofPred_eq_eq_singleton] at htxs
        exact ⟨⟨hrem.consistent, htxs ▸ Set.sdiff_subset.trans hinv.sub⟩, htxs⟩
      · rw [removeEntry, if_neg fun he ↦
          hin ((hinv.consistent.exists_iff hinj hinv.sub htx).mp he)] at hentry
        obtain ⟨rfl, -⟩ := Prod.mk.inj hentry
        exact ⟨hinv, (Set.sdiff_singleton_eq_self hin).symm⟩

/-- What conflicts with `tx` is removed with everything that spends from it. -/
theorem Inv.removeConflictsLoop (hinj : Set.InjOn getHash S)
    (hacyc : Acyclic (SpentBy getHash) S) (hinv : pool.Inv getHash S) {fuel : Nat}
    {removed' : List CTransaction}
    (h : removeConflictsLoop getHash fuel tx vin (pool, removed) = .ok (pool', removed')) :
    Shrunk getHash S pool pool' ∧ ∀ txin ∈ vin, ∀ t ∈ pool'.txs, t ≠ tx →
      ∀ txin' ∈ t.vin, txin'.prevout ≠ txin.prevout := by
  induction vin generalizing pool removed with
  | nil =>
      obtain ⟨rfl, _⟩ := Prod.mk.inj (Except.ok.inj h)
      exact ⟨.refl hinv, nofun⟩
  | cons txin vin ih =>
      rw [CTxMemPool.removeConflictsLoop] at h
      rw [List.forall_mem_cons]
      split at h
      case h_1 hnone =>
        obtain ⟨hshrunk, hfree⟩ := ih hinv h
        exact ⟨hshrunk, fun t ht _ txin' hin ↦
          hinv.consistent.prevout_ne hnone (hshrunk.closed.sub ht) hin, hfree⟩
      case h_2 p hp =>
        rw [bind_eq_ok] at h
        obtain ⟨txConflict, hspender, h⟩ := h
        -- the transaction found is the only one of the pool to spend the output
        obtain ⟨c, hmem, hc, honly⟩ := hinv.consistent.exists_spender hp
        obtain rfl := Except.ok.inj (hspender.symm.trans hc)
        split at h
        · rw [bind_eq_ok] at h
          obtain ⟨⟨pool₁, removed₁⟩, hcall, hrest⟩ := h
          obtain ⟨hshrunk, hgone⟩ := hinv.remove hinj hacyc (hinv.sub hmem) hcall
          obtain ⟨hshrunk', hfree⟩ := ih hshrunk.inv hrest
          refine ⟨hshrunk.trans hshrunk', fun t ht _ txin' hin heq ↦ ?_, hfree⟩
          have ht₁ := hshrunk'.closed.sub ht
          exact (hgone t ht₁).1 ((honly t (hshrunk.closed.sub ht₁)).mp ⟨txin', hin, heq⟩)
        · rename_i hsame
          obtain ⟨hshrunk, hfree⟩ := ih hinv h
          refine ⟨hshrunk, fun t ht hne txin' hin heq ↦ hne ?_, hfree⟩
          rw [(honly t (hshrunk.closed.sub ht)).mp ⟨txin', hin, heq⟩, not_not.mp hsame]

/-- Accepting adds the transaction, which is none that was there. -/
theorem Inv.accept (hinv : pool.Inv getHash S) {entry : CTxMemPoolEntry}
    {otherChecks : Except Failure Unit} (hmem : entry.tx ∈ S)
    (h : pool.accept getHash otherChecks entry = .ok pool') :
    pool'.Inv getHash S ∧ pool'.txs = insert entry.tx pool.txs := by
  obtain ⟨hcheck, -, hnew, hfree, -, rfl⟩ := accept_eq_ok.mp h
  have htxs : (pool.addUnchecked (getHash entry.tx) entry).txs = insert entry.tx pool.txs := by
    ext t
    constructor
    · rintro ⟨hash, e, he, rfl⟩
      rw [addUnchecked] at he
      by_cases hh : hash = getHash entry.tx
      · rw [hh, Finmap.lookup_insert, Option.some.injEq] at he
        exact Or.inl (he ▸ rfl)
      · rw [Finmap.lookup_insert_of_ne _ hh] at he
        exact Or.inr ⟨hash, e, he, rfl⟩
    · rintro (rfl | ⟨hash, e, he, rfl⟩)
      · exact ⟨_, entry, Finmap.lookup_insert _, rfl⟩
      · refine ⟨hash, e, (Finmap.lookup_insert_of_ne _ ?_).trans he, rfl⟩
        rintro rfl
        rw [hnew] at he
        cases he
  refine ⟨⟨hinv.consistent.addUnchecked (CTransaction.of_checkTransaction hcheck).2.2 hnew hfree,
    ?_⟩, htxs⟩
  rw [htxs]
  exact Set.insert_subset hmem hinv.sub

theorem Step.inv (hinj : Set.InjOn getHash S) (hacyc : Acyclic (SpentBy getHash) S) {op : Op}
    (h : Step getHash S pool op pool') (hinv : pool.Inv getHash S) : pool'.Inv getHash S := by
  cases h with
  | accept hmem h => exact (hinv.accept hmem h).1
  | @remove _ tx fRecursive fuel _ _ hmem h =>
      cases fRecursive with
      | true => exact (hinv.remove hinj hacyc hmem h).1.inv
      | false => exact (hinv.remove_single hinj hmem h).1
  | removeConflicts _ h => exact (hinv.removeConflictsLoop hinj hacyc h).1.inv
  | clear => exact inv_of_lookup_eq_none Finmap.lookup_empty Finmap.lookup_empty

end CTxMemPool

open CTxMemPool Cascade

/-- **The pool stays consistent, and recursive removal is exact.**  Over every run of operations
on a set of transactions whose hashes do not collide and of which none spends from itself,
directly or through others. -/
theorem memPool_consistent (getHash : CTransaction → Uint256) (S : Set CTransaction)
    (hinj : Set.InjOn getHash S) (hacyc : Acyclic (CTransaction.SpentBy getHash) S)
    {ops : List Op} {pool : CTxMemPool} (h : Run (CTxMemPool.Step getHash S) empty ops pool) :
    pool.Consistent getHash ∧
    (∀ tx ∈ pool.txs, ∀ tx' ∈ pool.txs, ∀ (i j : Nat) (txin txin' : CTxIn), tx.vin[i]? = some txin →
      tx'.vin[j]? = some txin' → txin.prevout = txin'.prevout → tx = tx' ∧ i = j) ∧
    ∀ tx ∈ S, ∀ removed fuel, pool.txs.ncard < fuel → ∃ pool' new,
      remove getHash fuel tx true (pool, removed) = .ok (pool', new ++ removed) ∧
      Cascaded getHash pool tx pool' new := by
  have hinv : pool.Inv getHash S := h.invariant (fun _ _ _ hinv hst ↦ hst.inv hinj hacyc hinv)
    (inv_of_lookup_eq_none Finmap.lookup_empty Finmap.lookup_empty)
  refine ⟨hinv.consistent, ?_, ?_⟩
  · intro tx htx tx' htx' i j txin txin' hi hj ho
    exact hinv.consistent.eq_of_prevout_eq htx htx' hi hj ho
  · intro tx htx removed fuel hfuel
    refine (remove_spec _ hinj hacyc _ htx hinv.consistent hinv.sub).resolve_right ?_
    rintro ⟨_, hle⟩
    have hcard : {t | Below (CTransaction.SpentBy getHash) pool.txs tx t}.ncard ≤
        pool.txs.ncard := Set.ncard_le_ncard (fun _ ht ↦ ht.mem) finite_txs
    omega

/-- A transaction with lock time `id` that spends the first output of transaction `parent`. -/
def chainTx (id parent : Nat) : CTransaction where
  vin := [⟨⟨BitVec.ofNat 256 parent, 0⟩, [], uintMax⟩]
  vout := [⟨100, []⟩]
  nLockTime := id

def chainEntry (id parent : Nat) : CTxMemPoolEntry := ⟨chainTx id parent, 0, 0, 0⟩

/-- Three transactions, each spending from the one before. -/
def chainTxs : Set CTransaction := {chainTx 1 100, chainTx 2 1, chainTx 3 2}

/-- A hash that does not collide on them. -/
def chainHash (tx : CTransaction) : Uint256 := BitVec.ofNat 256 tx.nLockTime

theorem chainHash_injOn : Set.InjOn chainHash chainTxs := by
  rintro _ (rfl | rfl | rfl) _ (rfl | rfl | rfl) h
  all_goals first
    | rfl
    | cases h

theorem chainTxs_acyclic : Acyclic (CTransaction.SpentBy chainHash) chainTxs := by
  refine acyclic_of_rank CTransaction.nLockTime ?_
  rintro _ (rfl | rfl | rfl) _ (rfl | rfl | rfl) ⟨i, _, txin, hmem, ho⟩
  all_goals
    obtain rfl := List.mem_singleton.mp hmem
    have hhash : _ = chainHash _ := congrArg COutPoint.hash ho
    revert hhash
    decide

theorem memPool_consistent_chain :
    ∃ pool, Run (CTxMemPool.Step chainHash chainTxs) empty
        [.accept (chainEntry 1 100), .accept (chainEntry 2 1), .accept (chainEntry 3 2)] pool ∧
      pool.Consistent chainHash ∧
      ∃ fuel pool' new, remove chainHash fuel (chainTx 1 100) true (pool, []) =
          .ok (pool', new ++ []) ∧
        Cascaded chainHash pool (chainTx 1 100) pool' new := by
  have hfirst : CTxMemPool.Step chainHash chainTxs empty (.accept (chainEntry 1 100))
      (empty.addUnchecked 1 (chainEntry 1 100)) :=
    @CTxMemPool.Step.accept chainHash chainTxs _ _ _ (.ok ()) (Or.inl rfl) (accept_eq_ok.mpr
      ⟨by decide +kernel, by decide, by decide +kernel, by decide +kernel, rfl, rfl⟩)
  have hsecond : CTxMemPool.Step chainHash chainTxs (empty.addUnchecked 1 (chainEntry 1 100))
      (.accept (chainEntry 2 1))
      ((empty.addUnchecked 1 (chainEntry 1 100)).addUnchecked 2 (chainEntry 2 1)) :=
    @CTxMemPool.Step.accept chainHash chainTxs _ _ _ (.ok ()) (Or.inr (Or.inl rfl))
      (accept_eq_ok.mpr
        ⟨by decide +kernel, by decide, by decide +kernel, by decide +kernel, rfl, rfl⟩)
  have hthird : CTxMemPool.Step chainHash chainTxs
      ((empty.addUnchecked 1 (chainEntry 1 100)).addUnchecked 2 (chainEntry 2 1))
      (.accept (chainEntry 3 2))
      (((empty.addUnchecked 1 (chainEntry 1 100)).addUnchecked 2 (chainEntry 2 1)).addUnchecked 3
        (chainEntry 3 2)) :=
    @CTxMemPool.Step.accept chainHash chainTxs _ _ _ (.ok ()) (Or.inr (Or.inr rfl))
      (accept_eq_ok.mpr
        ⟨by decide +kernel, by decide, by decide +kernel, by decide +kernel, rfl, rfl⟩)
  have hrun := Run.cons hfirst (.cons hsecond (.cons hthird (.nil _)))
  obtain ⟨hconsistent, _, hremove⟩ :=
    memPool_consistent chainHash chainTxs chainHash_injOn chainTxs_acyclic hrun
  exact ⟨_, hrun, hconsistent, _, hremove (chainTx 1 100) (Or.inl rfl) [] _ (Nat.lt_succ_self _)⟩

end Fedoracoin
