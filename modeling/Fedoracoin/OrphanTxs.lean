import Fedoracoin.Core
import Fedoracoin.Lib.InverseIndex
import Fedoracoin.Lib.Loop
import Fedoracoin.Lib.Run
import Mathlib.Data.Finset.Sort

/-!
# Orphan transactions

`mapOrphanTransactions` and its index `mapOrphanTransactionsByPrev` of `main.cpp`, the functions
that change them, and the part of `ProcessMessage` that takes up the orphans of a transaction
that was accepted.  `AcceptToMemoryPool` is a parameter, with whatever state it keeps.

An iterator is the key it points to.  Where the source would follow one to an entry that is gone,
the model has no value, and that this does not happen is part of what is proved.
-/

namespace Fedoracoin

abbrev NodeId := Int

structure COrphanTx where
  tx : CTransaction := { vin := [], vout := [] }
  fromPeer : NodeId := 0
deriving DecidableEq

structure OrphanTxs where
  mapOrphanTransactions : Finmap fun _ : Uint256 ↦ COrphanTx
  mapOrphanTransactionsByPrev : Finmap fun _ : Uint256 ↦ Finset Uint256

/-- What `AcceptToMemoryPool` answers. -/
structure AcceptResult where
  accepted : Bool
  fMissingInputs : Bool := false
  /-- `nDoS`, if the state is invalid. -/
  nDoS : Option Nat := none

/-- What the handling of transactions takes from elsewhere. -/
structure TxEnv (Pool : Type) where
  /-- `CTransaction::GetHash`. -/
  getHash : CTransaction → Uint256
  acceptToMemoryPool : Pool → CTransaction → Pool × AcceptResult

namespace OrphanTxs

def empty : OrphanTxs := ⟨∅, ∅⟩

/-- `mapOrphanTransactions.size()`. -/
def size (s : OrphanTxs) : Nat := s.mapOrphanTransactions.keys.card

/-- The keys in the order in which the map is walked. -/
def hashes (s : OrphanTxs) : List Uint256 := s.mapOrphanTransactions.keys.sort (· ≤ ·)

section

variable (getHash : CTransaction → Uint256)

/-- `AddOrphanTx`. -/
def addOrphanTx (s : OrphanTxs) (tx : CTransaction) (peer : NodeId) : OrphanTxs × Bool :=
  let hash := getHash tx
  if (s.mapOrphanTransactions.lookup hash).isSome then (s, false)
  -- Ignore big transactions
  else if 5000 < tx.getSerializeSize then (s, false)
  else
    ({ mapOrphanTransactions := s.mapOrphanTransactions.insert hash ⟨tx, peer⟩
       mapOrphanTransactionsByPrev := tx.vin.foldl
         (fun byPrev txin ↦ InverseIndex.add hash byPrev txin.prevout.hash)
         s.mapOrphanTransactionsByPrev }, true)

/-- `EraseOrphanTx`. -/
def eraseOrphanTx (s : OrphanTxs) (hash : Uint256) : OrphanTxs :=
  match s.mapOrphanTransactions.lookup hash with
  | none => s
  | some orphan =>
      { mapOrphanTransactions := s.mapOrphanTransactions.erase hash
        mapOrphanTransactionsByPrev := orphan.tx.vin.foldl
          (fun byPrev txin ↦ InverseIndex.drop hash byPrev txin.prevout.hash)
          s.mapOrphanTransactionsByPrev }

/-- The loop of `EraseOrphansFor`, which takes its next step before it erases. -/
def eraseOrphansForLoop (peer : NodeId) : List Uint256 → OrphanTxs → Option OrphanTxs
  | [], s => some s
  | hash :: rest, s =>
      match s.mapOrphanTransactions.lookup hash with
      | none => none
      | some orphan =>
          eraseOrphansForLoop peer rest
            (if orphan.fromPeer = peer then s.eraseOrphanTx (getHash orphan.tx) else s)

/-- `EraseOrphansFor`. -/
def eraseOrphansFor (s : OrphanTxs) (peer : NodeId) : Option OrphanTxs :=
  eraseOrphansForLoop getHash peer s.hashes s

end

/-- The entry to evict: `lower_bound(randomhash)`, or the first one. -/
def victim (s : OrphanTxs) (randomhash : Uint256) : Option Uint256 :=
  (s.hashes.find? fun hash ↦ decide (randomhash ≤ hash)).or s.hashes.head?

/-- An iteration of `LimitOrphanTxSize`, with `nEvicted`. -/
def limitBody (nMaxOrphans : Nat) (randHash : Nat → Uint256) (p : OrphanTxs × Nat) :
    Option ((OrphanTxs × Nat) ⊕ (OrphanTxs × Nat)) :=
  if nMaxOrphans < p.1.size then
    match p.1.victim (randHash p.2) with
    | none => none
    | some hash => some (.inr (p.1.eraseOrphanTx hash, p.2 + 1))
  else some (.inl p)

/-- `LimitOrphanTxSize`; `randHash` are the values of `GetRandHash()`. -/
def limitOrphanTxSize (s : OrphanTxs) (nMaxOrphans : Nat) (randHash : Nat → Uint256) :
    Option (OrphanTxs × Nat) :=
  Loop.run (limitBody nMaxOrphans randHash) (s.size + 1) (s, 0)

/-- `mapOrphanTransactions[hash]`, which makes an entry where there is none. -/
def subscript (s : OrphanTxs) (hash : Uint256) : OrphanTxs × COrphanTx :=
  match s.mapOrphanTransactions.lookup hash with
  | some orphan => (s, orphan)
  | none => ({ s with mapOrphanTransactions := s.mapOrphanTransactions.insert hash {} }, {})

end OrphanTxs

/-! ## The handler of `tx` -/

/-- The variables of the loop that takes up orphans. -/
structure Resolution (Pool : Type) where
  orphans : OrphanTxs
  pool : Pool
  /-- What is left of the queue. -/
  vWorkQueue : List Uint256
  vEraseQueue : List Uint256
  setMisbehaving : Finset NodeId := ∅

namespace TxEnv

variable {Pool : Type} (env : TxEnv Pool)

/-- The body of the inner loop. -/
def resolveOrphan (s : Resolution Pool) (orphanHash : Uint256) : Resolution Pool :=
  let (orphans, orphan) := s.orphans.subscript orphanHash
  let s := { s with orphans := orphans, vEraseQueue := s.vEraseQueue ++ [orphanHash] }
  if orphan.fromPeer ∈ s.setMisbehaving then s
  else
    let (pool, result) := env.acceptToMemoryPool s.pool orphan.tx
    let s := { s with pool := pool }
    if result.accepted then { s with vWorkQueue := s.vWorkQueue ++ [orphanHash] }
    else if !result.fMissingInputs && result.nDoS.any (0 < ·) then
      -- Punish peer that gave us an invalid orphan tx
      { s with setMisbehaving := insert orphan.fromPeer s.setMisbehaving }
    else s

/-- Recursively process any orphan transactions that depended on this one. -/
def resolveBody (s : Resolution Pool) : Option (Resolution Pool ⊕ Resolution Pool) :=
  match s.vWorkQueue with
  | [] => some (.inl s)
  | hash :: rest =>
      let s := { s with vWorkQueue := rest }
      match s.orphans.mapOrphanTransactionsByPrev.lookup hash with
      | none => some (.inr s)
      | some orphanHashes =>
          some (.inr ((orphanHashes.sort (· ≤ ·)).foldl env.resolveOrphan s))

/-- The `tx` branch of `ProcessMessage`, as far as it concerns the pools. -/
def processTx (fuel : Nat) (s : OrphanTxs × Pool) (tx : CTransaction) (pfrom : NodeId)
    (nMaxOrphanTx : Nat) (randHash : Nat → Uint256) : Option (OrphanTxs × Pool) :=
  let (pool, result) := env.acceptToMemoryPool s.2 tx
  let hash := env.getHash tx
  if result.accepted then do
    let r ← Loop.run env.resolveBody fuel
      { orphans := s.1, pool := pool, vWorkQueue := [hash], vEraseQueue := [hash] }
    return (r.vEraseQueue.foldl OrphanTxs.eraseOrphanTx r.orphans, r.pool)
  else if result.fMissingInputs then do
    -- DoS prevention: do not allow mapOrphanTransactions to grow unbounded
    let (orphans, _) ← (s.1.addOrphanTx env.getHash tx pfrom).1.limitOrphanTxSize nMaxOrphanTx
      randHash
    return (orphans, pool)
  else some (s.1, pool)

end TxEnv

/-- The calls that change the orphan transactions. -/
inductive OrphanTxCall where
  | addOrphanTx (tx : CTransaction) (peer : NodeId)
  | eraseOrphanTx (hash : Uint256)
  | eraseOrphansFor (peer : NodeId)
  | limitOrphanTxSize (nMaxOrphans : Nat) (randHash : Nat → Uint256)
  | processTx (tx : CTransaction) (pfrom : NodeId) (nMaxOrphanTx : Nat) (randHash : Nat → Uint256)

/-- What a call does, the loop over the work queue bounded by `fuel`. -/
def OrphanTxCall.run {Pool : Type} (env : TxEnv Pool) (fuel : Nat) (s : OrphanTxs × Pool) :
    OrphanTxCall → Option (OrphanTxs × Pool)
  | .addOrphanTx tx peer => some ((s.1.addOrphanTx env.getHash tx peer).1, s.2)
  | .eraseOrphanTx hash => some (s.1.eraseOrphanTx hash, s.2)
  | .eraseOrphansFor peer => (s.1.eraseOrphansFor env.getHash peer).map (·, s.2)
  | .limitOrphanTxSize nMaxOrphans randHash =>
      (s.1.limitOrphanTxSize nMaxOrphans randHash).map fun r ↦ (r.1, s.2)
  | .processTx tx pfrom nMaxOrphanTx randHash =>
      env.processTx fuel s tx pfrom nMaxOrphanTx randHash

/-- One call. -/
def OrphanTxStep {Pool : Type} (env : TxEnv Pool) (s : OrphanTxs × Pool) (call : OrphanTxCall)
    (s' : OrphanTxs × Pool) : Prop :=
  ∃ fuel, call.run env fuel s = some s'

namespace OrphanTxs

variable {getHash : CTransaction → Uint256} {s s' : OrphanTxs} {hash : Uint256} {orphan : COrphanTx}
  {peer : NodeId} {l : List Uint256}

/-! ## The invariant -/

/-- The orphan has an input with the hash. -/
def SpentBy (s : OrphanTxs) (prevHash hash : Uint256) : Prop :=
  ∃ orphan, s.mapOrphanTransactions.lookup hash = some orphan ∧
    ∃ txin ∈ orphan.tx.vin, txin.prevout.hash = prevHash

structure Inv (getHash : CTransaction → Uint256) (s : OrphanTxs) : Prop where
  getHash_eq : ∀ {hash orphan}, s.mapOrphanTransactions.lookup hash = some orphan →
    getHash orphan.tx = hash
  inverts : InverseIndex.Inverts s.mapOrphanTransactionsByPrev s.SpentBy

theorem inv_empty (getHash : CTransaction → Uint256) : empty.Inv getHash where
  getHash_eq h := absurd h (by simp [empty])
  inverts := InverseIndex.inverts_empty.congr fun _ _ ↦ by simp [SpentBy, empty]

@[simp] theorem mem_hashes : hash ∈ s.hashes ↔ (s.mapOrphanTransactions.lookup hash).isSome := by
  rw [hashes, Finset.mem_sort, Finmap.mem_keys, Finmap.lookup_isSome]

theorem nodup_hashes (s : OrphanTxs) : s.hashes.Nodup := Finset.sort_nodup _ _

/-! ### `AddOrphanTx` and `EraseOrphanTx` -/

/-- What `AddOrphanTx` does: nothing, or it enters the transaction. -/
theorem addOrphanTx_cases (getHash : CTransaction → Uint256) (s : OrphanTxs) (tx : CTransaction)
    (peer : NodeId) :
    s.addOrphanTx getHash tx peer = (s, false) ∨
      s.mapOrphanTransactions.lookup (getHash tx) = none ∧ tx.getSerializeSize ≤ 5000 ∧
        s.addOrphanTx getHash tx peer =
          ({ mapOrphanTransactions := s.mapOrphanTransactions.insert (getHash tx) ⟨tx, peer⟩
             mapOrphanTransactionsByPrev := tx.vin.foldl
               (fun byPrev txin ↦ InverseIndex.add (getHash tx) byPrev txin.prevout.hash)
               s.mapOrphanTransactionsByPrev }, true) := by
  rw [addOrphanTx]
  cases hl : s.mapOrphanTransactions.lookup (getHash tx) with
  | some orphan => exact Or.inl rfl
  | none =>
      rw [if_neg (by simp)]
      split
      case isTrue => exact Or.inl rfl
      case isFalse hsize => exact Or.inr ⟨rfl, Nat.not_lt.mp hsize, rfl⟩

theorem Inv.addOrphanTx (hs : s.Inv getHash) (tx : CTransaction) (peer : NodeId) :
    (s.addOrphanTx getHash tx peer).1.Inv getHash := by
  rcases addOrphanTx_cases getHash s tx peer with heq | ⟨hnone, -, heq⟩
  · rwa [heq]
  · rw [heq]
    constructor
    case getHash_eq =>
      intro hash orphan hl
      by_cases hhash : hash = getHash tx
      · rw [hhash, Finmap.lookup_insert] at hl
        obtain rfl := Option.some.inj hl
        exact hhash.symm
      · rw [Finmap.lookup_insert_of_ne _ hhash] at hl
        exact hs.getHash_eq hl
    case inverts =>
      apply (hs.inverts.addAll (getHash tx) (fun txin : CTxIn ↦ txin.prevout.hash) tx.vin).congr
      intro prevHash hash
      by_cases hhash : hash = getHash tx
      · subst hhash
        simp [SpentBy, hnone]
      · simp [SpentBy, Finmap.lookup_insert_of_ne _ hhash, hhash]

theorem lookup_eraseOrphanTx (s : OrphanTxs) (hash h : Uint256) :
    (s.eraseOrphanTx hash).mapOrphanTransactions.lookup h =
      if h = hash then none else s.mapOrphanTransactions.lookup h := by
  rw [eraseOrphanTx]
  cases hl : s.mapOrphanTransactions.lookup hash with
  | none =>
      by_cases hh : h = hash
      · rw [if_pos hh, hh]
        exact hl
      · rw [if_neg hh]
  | some orphan =>
      by_cases hh : h = hash
      · rw [if_pos hh, hh]
        exact Finmap.lookup_erase _ _
      · rw [if_neg hh]
        exact Finmap.lookup_erase_ne hh

theorem Inv.eraseOrphanTx (hs : s.Inv getHash) (hash : Uint256) :
    (s.eraseOrphanTx hash).Inv getHash := by
  have hlookup := lookup_eraseOrphanTx s hash
  constructor
  case getHash_eq =>
    intro h orphan hl
    rw [hlookup] at hl
    split at hl
    case isTrue => cases hl
    case isFalse => exact hs.getHash_eq hl
  case inverts =>
    have hspent : ∀ prevHash h, (s.eraseOrphanTx hash).SpentBy prevHash h ↔
        s.SpentBy prevHash h ∧ h ≠ hash := by
      intro prevHash h
      by_cases hh : h = hash
      · simp [SpentBy, hlookup, hh]
      · simp [SpentBy, hlookup, hh]
    rw [OrphanTxs.eraseOrphanTx] at hspent ⊢
    cases hl : s.mapOrphanTransactions.lookup hash with
    | none => exact hs.inverts
    | some orphan =>
        rw [hl] at hspent
        apply (hs.inverts.dropAll hash (fun txin : CTxIn ↦ txin.prevout.hash) orphan.tx.vin).congr
        intro prevHash h
        rw [hspent]
        refine and_congr_right fun h₁ ↦ not_congr (and_iff_right_of_imp ?_)
        rintro rfl
        obtain ⟨o, ho, hin⟩ := h₁
        rw [hl] at ho
        obtain rfl := Option.some.inj ho
        exact hin

/-- Erasing an orphan makes the pool smaller by one. -/
theorem size_eraseOrphanTx (h : (s.mapOrphanTransactions.lookup hash).isSome) :
    (s.eraseOrphanTx hash).size + 1 = s.size := by
  obtain ⟨orphan, hl⟩ := Option.isSome_iff_exists.mp h
  rw [eraseOrphanTx, hl]
  dsimp only [size]
  rw [Finmap.keys_erase]
  apply Finset.card_erase_add_one
  rwa [Finmap.mem_keys, ← Finmap.lookup_isSome]

/-! ### `EraseOrphansFor` -/

theorem eraseOrphansForLoop_spec (peer : NodeId) (hs : s.Inv getHash) (hl : l.Nodup)
    (hmem : ∀ hash ∈ l, (s.mapOrphanTransactions.lookup hash).isSome) :
    ∃ s', eraseOrphansForLoop getHash peer l s = some s' ∧ s'.Inv getHash ∧
      ∀ hash orphan, s'.mapOrphanTransactions.lookup hash = some orphan ↔
        s.mapOrphanTransactions.lookup hash = some orphan ∧
          ¬ (hash ∈ l ∧ orphan.fromPeer = peer) := by
  induction l generalizing s with
  | nil => exact ⟨s, rfl, hs, fun hash orphan ↦ by simp⟩
  | cons h l ih =>
      obtain ⟨hnot, hnodup⟩ := List.nodup_cons.mp hl
      obtain ⟨o, ho⟩ := Option.isSome_iff_exists.mp (hmem h List.mem_cons_self)
      rw [eraseOrphansForLoop, ho]
      dsimp only
      by_cases hpeer : o.fromPeer = peer
      · rw [if_pos hpeer, hs.getHash_eq ho]
        have hlookup := lookup_eraseOrphanTx s h
        obtain ⟨s', hloop, hs', hiff⟩ := ih (hs.eraseOrphanTx h) hnodup fun x hx ↦ by
          rw [hlookup, if_neg (ne_of_mem_of_not_mem hx hnot)]
          exact hmem x (List.mem_cons_of_mem h hx)
        refine ⟨s', hloop, hs', fun hash orphan ↦ ?_⟩
        rw [hiff, hlookup]
        by_cases hh : hash = h
        · subst hh
          rw [if_pos rfl, ho]
          simp only [List.mem_cons, true_or, true_and]
          refine iff_of_false (fun h ↦ absurd h.1 (by simp)) ?_
          rintro ⟨heq, hne⟩
          exact hne (Option.some.inj heq ▸ hpeer)
        · simp [hh]
      · rw [if_neg hpeer]
        obtain ⟨s', hloop, hs', hiff⟩ := ih hs hnodup fun x hx ↦
          hmem x (List.mem_cons_of_mem h hx)
        refine ⟨s', hloop, hs', fun hash orphan ↦ ?_⟩
        rw [hiff]
        by_cases hh : hash = h
        · subst hh
          refine and_congr_right fun heq ↦ ?_
          rw [ho] at heq
          obtain rfl := Option.some.inj heq
          simp [hpeer]
        · simp [hh]

/-- `EraseOrphansFor` erases what the peer sent, and nothing else. -/
theorem eraseOrphansFor_spec (hs : s.Inv getHash) (peer : NodeId) :
    ∃ s', s.eraseOrphansFor getHash peer = some s' ∧ s'.Inv getHash ∧
      ∀ hash orphan, s'.mapOrphanTransactions.lookup hash = some orphan ↔
        s.mapOrphanTransactions.lookup hash = some orphan ∧ orphan.fromPeer ≠ peer := by
  obtain ⟨s', hloop, hs', hiff⟩ := eraseOrphansForLoop_spec peer hs s.nodup_hashes
    fun hash hh ↦ mem_hashes.mp hh
  refine ⟨s', hloop, hs', fun hash orphan ↦ ?_⟩
  rw [hiff]
  refine and_congr_right fun hl ↦ ?_
  simp [hl]

/-! ### `LimitOrphanTxSize` -/

/-- There is always an entry to evict. -/
theorem exists_victim (h : 0 < s.size) (randomhash : Uint256) :
    ∃ hash, s.victim randomhash = some hash ∧ (s.mapOrphanTransactions.lookup hash).isSome := by
  rw [victim]
  cases hfind : s.hashes.find? fun hash ↦ decide (randomhash ≤ hash) with
  | some hash => exact ⟨hash, rfl, mem_hashes.mp (List.mem_of_find?_eq_some hfind)⟩
  | none =>
      obtain ⟨hash, hmem⟩ := Finset.card_pos.mp h
      cases hl : s.hashes with
      | nil =>
          rw [← Finset.mem_sort (· ≤ ·)] at hmem
          change hash ∈ s.hashes at hmem
          rw [hl] at hmem
          exact absurd hmem List.not_mem_nil
      | cons first rest =>
          refine ⟨first, rfl, mem_hashes.mp ?_⟩
          rw [hl]
          exact List.mem_cons_self

/-- `LimitOrphanTxSize` returns, and erases no more than it has to. -/
theorem limitOrphanTxSize_spec (hs : s.Inv getHash) (nMaxOrphans : Nat)
    (randHash : Nat → Uint256) :
    ∃ s' nEvicted, s.limitOrphanTxSize nMaxOrphans randHash = some (s', nEvicted) ∧
      s'.Inv getHash ∧ s'.size = min s.size nMaxOrphans ∧ nEvicted = s.size - nMaxOrphans := by
  have hrun := @Loop.run_spec _ _ (limitBody nMaxOrphans randHash) (s, 0) _
    (fun p ↦ p.1.Inv getHash ∧ p.1.size + p.2 = s.size ∧ (p.2 = 0 ∨ nMaxOrphans ≤ p.1.size))
    (fun p ↦ p.1.Inv getHash ∧ p.1.size = min s.size nMaxOrphans ∧
      p.2 = s.size - nMaxOrphans)
    (fun p ↦ p.1.size) ?_ ⟨hs, by simp, Or.inl rfl⟩ (Nat.lt_succ_self _)
  · obtain ⟨⟨s', nEvicted⟩, hrun, hinv, hsize, hn⟩ := hrun
    exact ⟨s', nEvicted, hrun, hinv, hsize, hn⟩
  · rintro ⟨s₁, n⟩ ⟨hinv, hsum, hor⟩
    dsimp only at hinv hsum hor
    rw [limitBody]
    dsimp only
    split
    case isTrue hlt =>
      obtain ⟨hash, hvictim, hmem⟩ := exists_victim (Nat.zero_lt_of_lt hlt) (randHash n)
      have hsize := size_eraseOrphanTx hmem
      rw [hvictim]
      refine Or.inr ⟨_, rfl, ⟨hinv.eraseOrphanTx hash, ?_, ?_⟩, ?_⟩
      · dsimp only
        omega
      · exact Or.inr (by dsimp only; omega)
      · dsimp only
        omega
    case isFalse hle =>
      refine Or.inl ⟨_, rfl, hinv, ?_, ?_⟩
      · dsimp only
        omega
      · dsimp only
        omega

theorem subscript_of_isSome (h : (s.mapOrphanTransactions.lookup hash).isSome) :
    ∃ orphan, s.mapOrphanTransactions.lookup hash = some orphan ∧
      s.subscript hash = (s, orphan) := by
  obtain ⟨orphan, hl⟩ := Option.isSome_iff_exists.mp h
  exact ⟨orphan, hl, by rw [subscript, hl]⟩

/-- The index only lists orphans that are there. -/
theorem Inv.isSome_of_mem (hs : s.Inv getHash) {prevHash : Uint256} {hashes : Finset Uint256}
    (hl : s.mapOrphanTransactionsByPrev.lookup prevHash = some hashes) (hmem : hash ∈ hashes) :
    (s.mapOrphanTransactions.lookup hash).isSome := by
  have hin : hash ∈ (s.mapOrphanTransactionsByPrev.lookup prevHash).getD ∅ := by rwa [hl]
  obtain ⟨orphan, ho, -⟩ := (hs.inverts.mem_iff prevHash hash).mp hin
  rw [ho]
  rfl

theorem Inv.foldl_eraseOrphanTx (hs : s.Inv getHash) (l : List Uint256) :
    (l.foldl OrphanTxs.eraseOrphanTx s).Inv getHash := by
  induction l generalizing s with
  | nil => exact hs
  | cons hash l ih => exact ih (hs.eraseOrphanTx hash)

end OrphanTxs

/-! ### The handler of `tx` -/

namespace TxEnv

variable {Pool : Type} {env : TxEnv Pool} {r r' : Resolution Pool} {orphanHash : Uint256}
  {orphans : OrphanTxs} {l : List Uint256}

variable (env) in
/-- What the body of the inner loop does with an orphan that is there. -/
theorem resolveOrphan_cases
    (h : (r.orphans.mapOrphanTransactions.lookup orphanHash).isSome) :
    ∃ orphan, r.orphans.mapOrphanTransactions.lookup orphanHash = some orphan ∧
      (env.resolveOrphan r orphanHash).orphans = r.orphans ∧
      ((env.resolveOrphan r orphanHash).pool = r.pool ∧
          (env.resolveOrphan r orphanHash).vWorkQueue = r.vWorkQueue ∨
        (env.resolveOrphan r orphanHash).pool =
            (env.acceptToMemoryPool r.pool orphan.tx).1 ∧
          (env.resolveOrphan r orphanHash).vWorkQueue = r.vWorkQueue ++
            if (env.acceptToMemoryPool r.pool orphan.tx).2.accepted then [orphanHash]
            else []) := by
  obtain ⟨orphan, hl, hsub⟩ := OrphanTxs.subscript_of_isSome h
  refine ⟨orphan, hl, ?_⟩
  rw [resolveOrphan, hsub]
  dsimp only
  split
  case isTrue => exact ⟨rfl, Or.inl ⟨rfl, rfl⟩⟩
  case isFalse =>
    split
    case isTrue => exact ⟨rfl, Or.inr ⟨rfl, rfl⟩⟩
    case isFalse =>
      rw [List.append_nil]
      split
      · exact ⟨rfl, Or.inr ⟨rfl, rfl⟩⟩
      · exact ⟨rfl, Or.inr ⟨rfl, rfl⟩⟩

/-- The loop leaves the orphans alone. -/
theorem orphans_foldl_resolveOrphan (hr : r.orphans = orphans)
    (hmem : ∀ hash ∈ l, (orphans.mapOrphanTransactions.lookup hash).isSome) :
    (l.foldl env.resolveOrphan r).orphans = orphans := by
  induction l generalizing r with
  | nil => exact hr
  | cons hash l ih =>
      obtain ⟨-, -, hsame, -⟩ :=
        resolveOrphan_cases env (hr ▸ hmem hash List.mem_cons_self)
      exact ih (hsame.trans hr) fun x hx ↦ hmem x (List.mem_cons_of_mem hash hx)

theorem resolveBody_orphans (hs : orphans.Inv env.getHash) (hr : r.orphans = orphans) :
    (r.vWorkQueue = [] ∧ env.resolveBody r = some (.inl r)) ∨
      ∃ hash rest, ∃ l : List Uint256, r.vWorkQueue = hash :: rest ∧
        (∀ x ∈ l, (orphans.mapOrphanTransactions.lookup x).isSome) ∧
        env.resolveBody r =
          some (.inr (l.foldl env.resolveOrphan { r with vWorkQueue := rest })) := by
  rw [resolveBody]
  cases hq : r.vWorkQueue with
  | nil => exact Or.inl ⟨rfl, rfl⟩
  | cons hash rest =>
      refine Or.inr ⟨hash, rest, ?_⟩
      dsimp only
      rw [hr]
      cases hl : orphans.mapOrphanTransactionsByPrev.lookup hash with
      | none => exact ⟨[], rfl, nofun, rfl⟩
      | some hashes =>
          refine ⟨hashes.sort (· ≤ ·), rfl, fun x hx ↦ ?_, rfl⟩
          exact hs.isSome_of_mem hl ((Finset.mem_sort _).mp hx)

theorem Inv.processTx {s s' : OrphanTxs × Pool} {fuel nMaxOrphanTx : Nat} {tx : CTransaction}
    {pfrom : NodeId} {randHash : Nat → Uint256} (hs : s.1.Inv env.getHash)
    (h : env.processTx fuel s tx pfrom nMaxOrphanTx randHash = some s') :
    s'.1.Inv env.getHash := by
  rw [TxEnv.processTx] at h
  dsimp only at h
  split at h
  case isTrue =>
    obtain ⟨r, hrun, heq⟩ := Option.bind_eq_some_iff.mp h
    obtain rfl := Option.some.inj heq
    have hr : r.orphans = s.1 := by
      refine Loop.run_invariant (I := fun r : Resolution Pool ↦ r.orphans = s.1)
        (Q := fun r ↦ r.orphans = s.1) ?_ ?_ rfl hrun
      · intro r r' hr hbody
        rcases resolveBody_orphans hs hr with ⟨-, heq⟩ | ⟨hash, rest, l, -, hmem, heq⟩
        · exact absurd (heq.symm.trans hbody) (by simp)
        · obtain rfl := Sum.inr.inj (Option.some.inj (heq.symm.trans hbody))
          apply orphans_foldl_resolveOrphan ?_ hmem
          exact hr
      · intro r r' hr hbody
        rcases resolveBody_orphans hs hr with ⟨-, heq⟩ | ⟨hash, rest, l, -, hmem, heq⟩
        · obtain rfl := Sum.inl.inj (Option.some.inj (heq.symm.trans hbody))
          exact hr
        · exact absurd (heq.symm.trans hbody) (by simp)
    rw [hr]
    exact hs.foldl_eraseOrphanTx r.vEraseQueue
  case isFalse =>
    split at h
    case isTrue =>
      obtain ⟨orphans, n, hlimit, hinv, -⟩ := OrphanTxs.limitOrphanTxSize_spec
        (hs.addOrphanTx tx pfrom) nMaxOrphanTx randHash
      rw [hlimit] at h
      obtain rfl := Option.some.inj h
      exact hinv
    case isFalse =>
      obtain rfl := Option.some.inj h
      exact hs

end TxEnv

/-! ## Runs -/

theorem OrphanTxStep.inv {Pool : Type} {env : TxEnv Pool} {s s' : OrphanTxs × Pool}
    {call : OrphanTxCall} (hs : s.1.Inv env.getHash) (h : OrphanTxStep env s call s') :
    s'.1.Inv env.getHash := by
  obtain ⟨fuel, h⟩ := h
  cases call with
  | addOrphanTx tx peer =>
      obtain rfl := Option.some.inj h
      exact hs.addOrphanTx tx peer
  | eraseOrphanTx hash =>
      obtain rfl := Option.some.inj h
      exact hs.eraseOrphanTx hash
  | eraseOrphansFor peer =>
      obtain ⟨orphans, herase, hinv, -⟩ := OrphanTxs.eraseOrphansFor_spec hs peer
      rw [OrphanTxCall.run, herase] at h
      obtain rfl := Option.some.inj h
      exact hinv
  | limitOrphanTxSize nMaxOrphans randHash =>
      obtain ⟨orphans, n, hlimit, hinv, -⟩ :=
        OrphanTxs.limitOrphanTxSize_spec hs nMaxOrphans randHash
      rw [OrphanTxCall.run, hlimit] at h
      obtain rfl := Option.some.inj h
      exact hinv
  | processTx tx pfrom nMaxOrphanTx randHash => exact TxEnv.Inv.processTx hs h

/-- **The orphan transactions and their index.**  Over every sequence of calls the index is the
inverse of the inputs of the orphans, without empty sets; `LimitOrphanTxSize` returns with at most
as many orphans as it is told, and `EraseOrphansFor` with none of the peer. -/
theorem orphanTxs_indexed {Pool : Type} {env : TxEnv Pool} {pool₀ pool : Pool} {s : OrphanTxs}
    {calls : List OrphanTxCall} (h : Run (OrphanTxStep env) (.empty, pool₀) calls (s, pool)) :
    (∀ prevHash hashes, s.mapOrphanTransactionsByPrev.lookup prevHash = some hashes →
      hashes.Nonempty) ∧
    (∀ prevHash hash, hash ∈ (s.mapOrphanTransactionsByPrev.lookup prevHash).getD ∅ ↔
      ∃ orphan, s.mapOrphanTransactions.lookup hash = some orphan ∧
        ∃ txin ∈ orphan.tx.vin, txin.prevout.hash = prevHash) ∧
    (∀ hash orphan, s.mapOrphanTransactions.lookup hash = some orphan →
      env.getHash orphan.tx = hash) ∧
    (∀ nMaxOrphans randHash, ∃ s' nEvicted,
      s.limitOrphanTxSize nMaxOrphans randHash = some (s', nEvicted) ∧ s'.size ≤ nMaxOrphans) ∧
    ∀ peer, ∃ s', s.eraseOrphansFor env.getHash peer = some s' ∧
      ∀ hash orphan, s'.mapOrphanTransactions.lookup hash = some orphan →
        orphan.fromPeer ≠ peer := by
  have hs : s.Inv env.getHash := h.invariant (I := fun s ↦ s.1.Inv env.getHash)
    (fun _ _ _ ↦ OrphanTxStep.inv) (OrphanTxs.inv_empty env.getHash)
  refine ⟨fun _ _ ↦ hs.inverts.nonempty, hs.inverts.mem_iff, fun _ _ ↦ hs.getHash_eq, ?_, ?_⟩
  · intro nMaxOrphans randHash
    obtain ⟨s', n, hlimit, -, hsize, -⟩ :=
      OrphanTxs.limitOrphanTxSize_spec hs nMaxOrphans randHash
    exact ⟨s', n, hlimit, hsize ▸ min_le_right _ _⟩
  · intro peer
    obtain ⟨s', herase, -, hiff⟩ := OrphanTxs.eraseOrphansFor_spec hs peer
    exact ⟨s', herase, fun hash orphan ho ↦ ((hiff hash orphan).mp ho).2⟩

/-- A pool that finds no inputs; the lock time stands for the hash. -/
def sampleTxEnv : TxEnv Unit where
  getHash tx := BitVec.ofNat 256 tx.nLockTime
  acceptToMemoryPool pool _ := (pool, { accepted := false, fMissingInputs := true })

/-- A transaction that spends two outputs of one other. -/
def sampleOrphan (hash : Nat) (prevHash : Uint256) : CTransaction where
  vin := [{ prevout := ⟨prevHash, 0⟩ }, { prevout := ⟨prevHash, 1⟩ }]
  vout := []
  nLockTime := hash

/-- Two orphans of one parent, from two peers. -/
theorem orphanTxs_indexed_sample :
    ∃ s, Run (OrphanTxStep sampleTxEnv) (.empty, ())
        [.addOrphanTx (sampleOrphan 5 9) 1, .addOrphanTx (sampleOrphan 6 9) 2] (s, ()) ∧
      5 ∈ (s.mapOrphanTransactionsByPrev.lookup 9).getD ∅ ∧
      6 ∈ (s.mapOrphanTransactionsByPrev.lookup 9).getD ∅ ∧
      ∃ s', s.eraseOrphansFor sampleTxEnv.getHash 1 = some s' ∧
        ∀ hash orphan, s'.mapOrphanTransactions.lookup hash = some orphan →
          orphan.fromPeer ≠ 1 := by
  have hrun : Run (OrphanTxStep sampleTxEnv) (.empty, ())
      [.addOrphanTx (sampleOrphan 5 9) 1, .addOrphanTx (sampleOrphan 6 9) 2] _ :=
    .cons ⟨0, rfl⟩ (.cons ⟨0, rfl⟩ (.nil _))
  obtain ⟨-, hiff, -, -, herase⟩ := orphanTxs_indexed hrun
  exact ⟨_, hrun, (hiff 9 5).mpr ⟨⟨sampleOrphan 5 9, 1⟩, rfl, by simp [sampleOrphan]⟩,
    (hiff 9 6).mpr ⟨⟨sampleOrphan 6 9, 2⟩, rfl, by simp [sampleOrphan]⟩, herase 1⟩

end Fedoracoin
