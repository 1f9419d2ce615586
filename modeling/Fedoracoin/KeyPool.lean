import Fedoracoin.CryptoKeyStore
import Fedoracoin.Lib.Lease
import Fedoracoin.Lib.Run

/-!
# The key pool

The key pool of `CWallet` and the objects of `CReserveKey`.  A function gives what it returns, or
throws, and the wallet it leaves.  `none` stands for the index -1.
-/

namespace Fedoracoin

/-- An entry of the key pool. -/
structure CKeyPool where
  nTime : Int := 0
  vchPubKey : CPubKey := []

/-- A key allocated from the key pool. -/
structure CReserveKey where
  nIndex : Option Nat := none
  vchPubKey : CPubKey := []

/-- The part of a `CWallet` and of its database that the key pool is about. -/
structure KeyPoolWallet where
  store : CCryptoKeyStore := {}
  setKeyPool : Finset Nat := ∅
  /-- The records `"pool"` of the database. -/
  pool : Finmap fun _ : Nat ↦ CKeyPool := ∅
  vchDefaultKey : CPubKey := []

/-- What the outside gives to a key that is generated for the pool, and whether the database takes
its record. -/
structure NewKey {Point : Type} (ec : EcLib Point) where
  key : MadeKey ec
  nTime : Int
  fWritten : Bool

/-- `nTargetSize + 1`, where `nKeypool` is the argument `-keypool`. -/
def poolTarget (nKeypool : Int) (kpSize : BitVec 32) : Nat :=
  ((if 0 < kpSize then kpSize else BitVec.ofInt 32 (max nKeypool 0)) + 1).toNat

/-- What `ReserveKeyFromKeyPool` leaves, in `nIndex` also if it throws. -/
structure Reservation where
  ret : Except Failure CKeyPool
  nIndex : Option Nat
  wallet : KeyPoolWallet

def topUpFailed : Failure := .exception "TopUpKeyPool() : writing generated key failed"

def readFailed : Failure := .exception "ReserveKeyFromKeyPool() : read failed"

def unknownKey : Failure := .exception "ReserveKeyFromKeyPool() : unknown key in key pool"

namespace KeyPoolWallet

variable {Point : Type} (lib : KeyLib Point) (nKeypool : Int) (w : KeyPoolWallet)

def generateNewKey (key : MadeKey lib.ec) : Except Failure CPubKey × KeyPoolWallet :=
  match w.store.addKey lib key.toCKey with
  | .error e => (.error e, w)
  | .ok (fOk, store) =>
      (if fOk then .ok key.pubKey
        else .error (.exception "CWallet::GenerateNewKey() : AddKey failed"),
        { w with store := store })

def writePool (nIndex : Nat) (keypool : CKeyPool) (fWritten : Bool) : KeyPoolWallet :=
  if fWritten then { w with pool := w.pool.insert nIndex keypool } else w

/-- `*(--setKeyPool.end())`. -/
def newest : Option Nat := w.setKeyPool.max

/-- The index behind the last one. -/
def nEnd : Nat := w.newest.elim 1 (· + 1)

/-- The loop of `NewKeyPool`, `n` times from `i` on. -/
def newKeyLoop (news : Nat → NewKey lib.ec) (w : KeyPoolWallet) :
    (n i : Nat) → Except Failure Unit × KeyPoolWallet
  | 0, _ => (.ok (), w)
  | n + 1, i =>
      match w.generateNewKey lib (news i).key with
      | (.error e, w) => (.error e, w)
      | (.ok vchPubKey, w) =>
          let w := w.writePool (i + 1) ⟨(news i).nTime, vchPubKey⟩ (news i).fWritten
          newKeyLoop news { w with setKeyPool := insert (i + 1) w.setKeyPool } n (i + 1)

def newKeyPool (news : Nat → NewKey lib.ec) : Except Failure Bool × KeyPoolWallet :=
  let w := { w with
    pool := (w.setKeyPool.sort (· ≤ ·)).foldl (fun pool nIndex ↦ pool.erase nIndex) w.pool
    setKeyPool := ∅ }
  if w.store.isLocked then (.ok false, w)
  else
    match newKeyLoop lib news w (max nKeypool 0).toNat 0 with
    | (.error e, w) => (.error e, w)
    | (.ok (), w) => (.ok true, w)

/-- The loop of `TopUpKeyPool`, at most `n` times, which is enough for `n` new indices. -/
def topUpLoop (news : Nat → NewKey lib.ec) (target : Nat) (w : KeyPoolWallet) :
    (n i : Nat) → Except Failure Unit × KeyPoolWallet
  | 0, _ => (.ok (), w)
  | n + 1, i =>
      if target ≤ w.setKeyPool.card then (.ok (), w)
      else
        let nEnd := w.nEnd
        match w.generateNewKey lib (news i).key with
        | (.error e, w) => (.error e, w)
        | (.ok vchPubKey, w) =>
            let w := w.writePool nEnd ⟨(news i).nTime, vchPubKey⟩ (news i).fWritten
            if !(news i).fWritten then (.error topUpFailed, w)
            else topUpLoop news target { w with setKeyPool := insert nEnd w.setKeyPool } n (i + 1)

def topUpKeyPool (kpSize : BitVec 32) (news : Nat → NewKey lib.ec) :
    Except Failure Bool × KeyPoolWallet :=
  if w.store.isLocked then (.ok false, w)
  else
    let target := poolTarget nKeypool kpSize
    match topUpLoop lib news target w target 0 with
    | (.error e, w) => (.error e, w)
    | (.ok (), w) => (.ok true, w)

/-- `*(setKeyPool.begin())`. -/
def oldest : Option Nat := w.setKeyPool.min

/-- The part of `ReserveKeyFromKeyPool` behind `TopUpKeyPool`. -/
def reserveOldest : Reservation :=
  match w.oldest with
  | none => ⟨.ok {}, none, w⟩
  | some nIndex =>
      let w := { w with setKeyPool := w.setKeyPool.erase nIndex }
      match w.pool.lookup nIndex with
      | none => ⟨.error readFailed, some nIndex, w⟩
      | some keypool =>
          if !w.store.haveKey (lib.getID keypool.vchPubKey) then
            ⟨.error unknownKey, some nIndex, w⟩
          else if keypool.vchPubKey = [] then ⟨.error .assertion, some nIndex, w⟩
          else ⟨.ok keypool, some nIndex, w⟩

def reserveKeyFromKeyPool (news : Nat → NewKey lib.ec) : Reservation :=
  if !w.store.isLocked then
    match w.topUpKeyPool lib nKeypool 0 news with
    | (.error e, w) => ⟨.error e, none, w⟩
    | (.ok _, w) => w.reserveOldest lib
  else w.reserveOldest lib

/-- Decrementing `end()` of an empty set is `assertion`. -/
def addReserveKey (keypool : CKeyPool) (fWritten : Bool) : Except Failure Nat × KeyPoolWallet :=
  if w.setKeyPool = ∅ then (.error .assertion, w)
  else
    let nIndex := w.nEnd
    let w := w.writePool nIndex keypool fWritten
    if !fWritten then (.error (.exception "AddReserveKey() : writing added key failed"), w)
    else (.ok nIndex, { w with setKeyPool := insert nIndex w.setKeyPool })

def keepKey (nIndex : Nat) : KeyPoolWallet := { w with pool := w.pool.erase nIndex }

def returnKey (nIndex : Nat) : KeyPoolWallet :=
  { w with setKeyPool := insert nIndex w.setKeyPool }

/-- The key, if there is one, and whether it was kept: `key` is generated if the pool is empty. -/
def getKeyFromPool (news : Nat → NewKey lib.ec) (key : MadeKey lib.ec) :
    Except Failure (Option (CPubKey × Bool)) × KeyPoolWallet :=
  match w.reserveKeyFromKeyPool lib nKeypool news with
  | ⟨.error e, _, w⟩ => (.error e, w)
  | ⟨.ok _, none, w⟩ =>
      if w.store.isLocked then (.ok none, w)
      else
        match w.generateNewKey lib key with
        | (.error e, w) => (.error e, w)
        | (.ok vchPubKey, w) => (.ok (some (vchPubKey, false)), w)
  | ⟨.ok keypool, some nIndex, w⟩ => (.ok (some (keypool.vchPubKey, true)), w.keepKey nIndex)

/-- `none` is the current time. -/
def getOldestKeyPoolTime (news : Nat → NewKey lib.ec) :
    Except Failure (Option Int) × KeyPoolWallet :=
  match w.reserveKeyFromKeyPool lib nKeypool news with
  | ⟨.error e, _, w⟩ => (.error e, w)
  | ⟨.ok _, none, w⟩ => (.ok none, w)
  | ⟨.ok keypool, some nIndex, w⟩ => (.ok (some keypool.nTime), w.returnKey nIndex)

end KeyPoolWallet

namespace CReserveKey

variable {Point : Type} (lib : KeyLib Point) (nKeypool : Int) (key : CReserveKey)
  (w : KeyPoolWallet)

/-- What `GetReservedKey` returns, and the object and the wallet it leaves; `none` is `false`. -/
structure Got where
  ret : Except Failure (Option CPubKey)
  key : CReserveKey
  wallet : KeyPoolWallet

/-- The end of `GetReservedKey`. -/
def got : Got :=
  ⟨if key.vchPubKey = [] then .error .assertion else .ok (some key.vchPubKey), key, w⟩

def getReservedKey (news : Nat → NewKey lib.ec) : Got :=
  match key.nIndex with
  | some _ => key.got w
  | none =>
      match w.reserveKeyFromKeyPool lib nKeypool news with
      | ⟨.error e, nIndex, w⟩ => ⟨.error e, { key with nIndex := nIndex }, w⟩
      | ⟨.ok keypool, some nIndex, w⟩ => got ⟨some nIndex, keypool.vchPubKey⟩ w
      | ⟨.ok _, none, w⟩ =>
          if w.vchDefaultKey ≠ [] then got ⟨none, w.vchDefaultKey⟩ w
          else ⟨.ok none, { key with nIndex := none }, w⟩

/-- `KeepKey`, which leaves the object as it was constructed. -/
def keepKey : KeyPoolWallet := key.nIndex.elim w w.keepKey

/-- `ReturnKey`, which the destructor calls. -/
def returnKey : KeyPoolWallet := key.nIndex.elim w w.returnKey

end CReserveKey

/-! ## Runs -/

/-- The wallet, the objects of `CReserveKey`, of which those that are not live have no index, and
the keys that were passed to `KeepKey`. -/
structure KeyPoolState (κ : Type) where
  wallet : KeyPoolWallet
  reserveKey : κ → CReserveKey
  kept : List CPubKey := []

inductive KeyPoolOp {Point : Type} (ec : EcLib Point) (κ : Type) where
  | topUpKeyPool (kpSize : BitVec 32) (news : Nat → NewKey ec)
  | newKeyPool (news : Nat → NewKey ec)
  | addReserveKey (keypool : CKeyPool) (fWritten : Bool)
  | getKeyFromPool (news : Nat → NewKey ec) (key : MadeKey ec)
  | getOldestKeyPoolTime (news : Nat → NewKey ec)
  | getReservedKey (r : κ) (news : Nat → NewKey ec)
  | keepKey (r : κ)
  | returnKey (r : κ)
  | encryptKeys
  | lock
  | unlock

namespace KeyPoolState

variable {κ : Type}

/-- The state with another wallet. -/
def withWallet (s : KeyPoolState κ) (w : KeyPoolWallet) : KeyPoolState κ := { s with wallet := w }

/-- The state after a call of the key store. -/
def onStore (s : KeyPoolState κ) (store : CCryptoKeyStore) : KeyPoolState κ :=
  s.withWallet { s.wallet with store := store }

end KeyPoolState

namespace KeyPoolOp

variable {Point κ : Type} [DecidableEq κ] (lib : KeyLib Point) (nKeypool : Int)
  (vMasterKey : List UInt8) (s : KeyPoolState κ)

/-- The keys that a call hands out, or what it throws, and the state it leaves. -/
def run : KeyPoolOp lib.ec κ → Except Failure (List CPubKey) × KeyPoolState κ
  | topUpKeyPool kpSize news =>
      let (ret, w) := s.wallet.topUpKeyPool lib nKeypool kpSize news
      (ret.map fun _ ↦ [], s.withWallet w)
  | newKeyPool news =>
      let (ret, w) := s.wallet.newKeyPool lib nKeypool news
      (ret.map fun _ ↦ [], s.withWallet w)
  | addReserveKey keypool fWritten =>
      let (ret, w) := s.wallet.addReserveKey keypool fWritten
      (ret.map fun _ ↦ [], s.withWallet w)
  | getKeyFromPool news key =>
      match s.wallet.getKeyFromPool lib nKeypool news key with
      | (.ok (some (vchPubKey, fKept)), w) =>
          (.ok [vchPubKey],
            { s with wallet := w, kept := if fKept then vchPubKey :: s.kept else s.kept })
      | (.ok none, w) => (.ok [], s.withWallet w)
      | (.error e, w) => (.error e, s.withWallet w)
  | getOldestKeyPoolTime news =>
      let (ret, w) := s.wallet.getOldestKeyPoolTime lib nKeypool news
      (ret.map fun _ ↦ [], s.withWallet w)
  | getReservedKey r news =>
      let got := (s.reserveKey r).getReservedKey lib nKeypool s.wallet news
      (got.ret.map Option.toList,
        { s with wallet := got.wallet, reserveKey := Function.update s.reserveKey r got.key })
  | keepKey r =>
      (.ok [],
        { wallet := (s.reserveKey r).keepKey s.wallet
          reserveKey := Function.update s.reserveKey r {}
          kept := if (s.reserveKey r).nIndex = none then s.kept
            else (s.reserveKey r).vchPubKey :: s.kept })
  | returnKey r =>
      (.ok [],
        { s with
          wallet := (s.reserveKey r).returnKey s.wallet
          reserveKey := Function.update s.reserveKey r {} })
  | encryptKeys => (.ok [], s.onStore (s.wallet.store.encryptKeys lib vMasterKey).2)
  | lock => (.ok [], s.onStore s.wallet.store.lockKeyStore.2)
  | unlock => (.ok [], s.onStore (s.wallet.store.unlock lib vMasterKey).2)

/-- The state after a call. -/
def after (s : KeyPoolState κ) (op : KeyPoolOp lib.ec κ) : KeyPoolState κ :=
  (op.run lib nKeypool vMasterKey s).2

end KeyPoolOp

/-! ## The invariant -/

theorem MadeKey.pubKey_ne_nil {Point : Type} {ec : EcLib Point} (hec : ec.Lawful)
    (k : MadeKey ec) : k.pubKey ≠ [] := by
  intro hnil
  have hlength := congrArg List.length hnil
  rw [MadeKey.pubKey] at hlength
  cases hform : k.fCompressed with
  | true =>
      rw [hform] at hlength
      exact absurd ((hec.length_compressed k.point).symm.trans hlength) (by decide)
  | false =>
      rw [hform] at hlength
      exact absurd ((hec.length_uncompressed k.point).symm.trans hlength) (by decide)

namespace KeyPoolWallet

variable {Point κ : Type} {lib : KeyLib Point} {nKeypool : Int} {vMasterKey : List UInt8}
  {reserveKey : κ → CReserveKey} {kept : List CPubKey} {added : List (MadeKey lib.ec)}
  {w : KeyPoolWallet} {news : Nat → NewKey lib.ec} {i n target : Nat} {keypool : CKeyPool} {r : κ}

theorem lt_nEnd (hi : i ∈ w.setKeyPool) : i < w.nEnd := by
  rw [nEnd]
  cases hnewest : w.newest with
  | none =>
      rw [Finset.max_eq_bot.mp hnewest] at hi
      exact absurd hi (Finset.notMem_empty i)
  | some last => exact Nat.lt_succ_of_le (Finset.le_max_of_eq hi hnewest)

theorem nEnd_notMem : w.nEnd ∉ w.setKeyPool := fun hmem ↦ absurd (lt_nEnd hmem) (lt_irrefl _)

theorem nEnd_insert {w' : KeyPoolWallet} (h : w'.setKeyPool = insert w.nEnd w.setKeyPool) :
    w'.nEnd = w.nEnd + 1 := by
  have hle : w.setKeyPool.max ≤ (w.nEnd : WithBot Nat) :=
    Finset.max_le fun i hi ↦ WithBot.coe_le_coe.mpr (lt_nEnd hi).le
  have hmax : w'.setKeyPool.max = (w.nEnd : WithBot Nat) := by
    rw [h]
    exact Finset.max_insert.trans (max_eq_left hle)
  have hnewest : w'.newest = some w.nEnd := hmax
  conv_lhs => rw [nEnd]
  rw [hnewest]
  rfl

theorem lookup_foldl_erase (l : List Nat) (pool : Finmap fun _ : Nat ↦ CKeyPool) (i : Nat) :
    (l.foldl (fun pool nIndex ↦ pool.erase nIndex) pool).lookup i =
      if i ∈ l then none else pool.lookup i := by
  induction l generalizing pool with
  | nil => rfl
  | cons j l ih =>
      rw [List.foldl_cons, ih]
      by_cases hij : i = j
      · subst hij
        rw [Finmap.lookup_erase, ite_self, if_pos List.mem_cons_self]
      · rw [Finmap.lookup_erase_ne hij]
        simp only [List.mem_cons, hij, false_or]

theorem oldest_eq_none (h : w.oldest = none) : w.setKeyPool = ∅ := Finset.min_eq_top.mp h

theorem mem_of_oldest (h : w.oldest = some i) : i ∈ w.setKeyPool := Finset.mem_of_min h

/-- What holds of the wallet, by the objects of `CReserveKey`, the keys that were kept and those
that were added to the store. -/
structure Sound (vMasterKey : List UInt8) (reserveKey : κ → CReserveKey) (kept : List CPubKey)
    (added : List (MadeKey lib.ec)) (w : KeyPoolWallet) : Prop where
  store : w.store.Inv vMasterKey added
  ids : ∀ j ∈ added, ∀ k ∈ added, j.id = k.id → j = k
  lending : Lending CKeyPool.vchPubKey w.setKeyPool w.pool (fun r ↦ (reserveKey r).nIndex) kept
  known {i : Nat} {keypool : CKeyPool} (h : w.pool.lookup i = some keypool) :
    (∃ k ∈ added, k.id = lib.getID keypool.vchPubKey) ∧ keypool.vchPubKey ≠ []
  kept_known : ∀ vchPubKey ∈ kept, ∃ k ∈ added, k.id = lib.getID vchPubKey
  held {r : κ} {i : Nat} {keypool : CKeyPool} (hr : (reserveKey r).nIndex = some i)
    (h : w.pool.lookup i = some keypool) : (reserveKey r).vchPubKey = keypool.vchPubKey

/-- The keys from `i` on, `n` of them, are new. -/
structure AreNew (added : List (MadeKey lib.ec)) (news : Nat → NewKey lib.ec) (i n : Nat) :
    Prop where
  not_added {j : Nat} (hi : i ≤ j) (hn : j < i + n) : ∀ k ∈ added, k.id ≠ (news j).key.id
  distinct {j l : Nat} (hi : i ≤ j) (hjl : j < l) (hn : l < i + n) :
    (news j).key.id ≠ (news l).key.id

theorem AreNew.tail (h : AreNew added news i (n + 1)) :
    AreNew ((news i).key :: added) news (i + 1) n where
  not_added {j} hi hn := by
    intro k hk
    obtain rfl | hk := List.mem_cons.mp hk
    · exact h.distinct (le_refl i) hi (by omega)
    · exact h.not_added (by omega) (by omega) k hk
  distinct hi hjl hn := h.distinct (by omega) hjl (by omega)

/-- The first of the keys can be added under an index that nobody holds. -/
theorem Sound.add (h : w.Sound vMasterKey reserveKey kept added)
    (hheld : ∀ r, (reserveKey r).nIndex ≠ some i)
    (hknown : ∃ k ∈ added, k.id = lib.getID keypool.vchPubKey) (hvalid : keypool.vchPubKey ≠ [])
    (hnew : ∀ j b, w.pool.lookup j = some b → b.vchPubKey ≠ keypool.vchPubKey)
    (hunused : keypool.vchPubKey ∉ kept) :
    ({ w with pool := w.pool.insert i keypool, setKeyPool := insert i w.setKeyPool } :
      KeyPoolWallet).Sound vMasterKey reserveKey kept added where
  __ := h
  lending := h.lending.add hheld hnew hunused
  known {j b} hj := by
    by_cases hji : j = i
    · rw [hji, Finmap.lookup_insert] at hj
      rw [← Option.some.inj hj]
      exact ⟨hknown, hvalid⟩
    · rw [Finmap.lookup_insert_of_ne _ hji] at hj
      exact h.known hj
  held {r j b} hr hj := by
    have hji : j ≠ i := by
      rintro rfl
      exact hheld r hr
    rw [Finmap.lookup_insert_of_ne _ hji] at hj
    exact h.held hr hj

section

variable (hlib : lib.Lawful) (hmaster : vMasterKey.length = 32)
include hlib hmaster

theorem Sound.generateNewKey (h : w.Sound vMasterKey reserveKey kept added)
    (hlocked : w.store.isLocked = false) {key : MadeKey lib.ec}
    (hnew : ∀ k ∈ added, k.id ≠ key.id) :
    ∃ store, w.generateNewKey lib key = (.ok key.pubKey, { w with store := store }) ∧
      store.isLocked = false ∧
      ({ w with store := store } : KeyPoolWallet).Sound vMasterKey reserveKey kept
        (key :: added) := by
  obtain ⟨store, hadd, hlocked', hinv⟩ :=
    CCryptoKeyStore.addKey_of_unlocked hlib hmaster h.store hlocked key
  refine ⟨store, ?_, hlocked', hinv fun j hj hid ↦ absurd hid (hnew j hj), ?_, h.lending, ?_, ?_,
    h.held⟩
  · rw [KeyPoolWallet.generateNewKey, hadd]
    rfl
  · intro j hj k hk hid
    obtain hj' | hj' := List.mem_cons.mp hj
    · obtain hk' | hk' := List.mem_cons.mp hk
      · exact hj'.trans hk'.symm
      · exact absurd (hid.symm.trans (congrArg MadeKey.id hj')) (hnew k hk')
    · obtain hk' | hk' := List.mem_cons.mp hk
      · exact absurd (hid.trans (congrArg MadeKey.id hk')) (hnew j hj')
      · exact h.ids j hj' k hk' hid
  · intro i keypool hi
    obtain ⟨⟨k, hk, hid⟩, hvalid⟩ := h.known hi
    exact ⟨⟨k, List.mem_cons_of_mem _ hk, hid⟩, hvalid⟩
  · intro vchPubKey hkept
    obtain ⟨k, hk, hid⟩ := h.kept_known vchPubKey hkept
    exact ⟨k, List.mem_cons_of_mem _ hk, hid⟩

/-- A key that is generated is offered. -/
theorem Sound.addNew (h : w.Sound vMasterKey reserveKey kept added)
    (hlocked : w.store.isLocked = false) {key : MadeKey lib.ec}
    (hnew : ∀ k ∈ added, k.id ≠ key.id) (hheld : ∀ r, (reserveKey r).nIndex ≠ some i)
    (nTime : Int) :
    ∃ store, w.generateNewKey lib key = (.ok key.pubKey, { w with store := store }) ∧
      store.isLocked = false ∧
      ({ w with
        store := store
        pool := w.pool.insert i ⟨nTime, key.pubKey⟩
        setKeyPool := insert i w.setKeyPool } : KeyPoolWallet).Sound vMasterKey reserveKey kept
          (key :: added) := by
  obtain ⟨store, hgen, hlocked', hsound⟩ := h.generateNewKey hlib hmaster hlocked hnew
  refine ⟨store, hgen, hlocked', hsound.add hheld ⟨key, List.mem_cons_self, rfl⟩
    (key.pubKey_ne_nil hlib.ec) ?_ ?_⟩
  · intro j b hj heq
    obtain ⟨⟨k, hk, hid⟩, -⟩ := h.known hj
    exact hnew k hk (hid.trans (congrArg lib.getID heq))
  · intro hkept
    obtain ⟨k, hk, hid⟩ := h.kept_known _ hkept
    exact hnew k hk hid

theorem Sound.newKeyLoop (h : w.Sound vMasterKey reserveKey kept added)
    (hlocked : w.store.isLocked = false) (hnew : AreNew added news i n)
    (hgood : ∀ j, i ≤ j → j < i + n → (news j).fWritten = true ∧
      ∀ r, (reserveKey r).nIndex ≠ some (j + 1)) :
    ∃ (added' : List (MadeKey lib.ec)) (w' : KeyPoolWallet),
      newKeyLoop lib news w n i = (.ok (), w') ∧ w'.Sound vMasterKey reserveKey kept added' := by
  induction n generalizing i w added with
  | zero => exact ⟨added, w, rfl, h⟩
  | succ n ih =>
      obtain ⟨hwritten, hheld⟩ := hgood i (le_refl i) (by omega)
      obtain ⟨store, hgen, hlocked', hsound⟩ := h.addNew hlib hmaster hlocked
        (hnew.not_added (le_refl i) (by omega)) hheld (news i).nTime
      obtain ⟨added', w', hloop, h'⟩ :=
        ih hsound hlocked' hnew.tail fun j hi hn ↦ hgood j (by omega) (by omega)
      refine ⟨added', w', ?_, h'⟩
      rw [KeyPoolWallet.newKeyLoop, hgen]
      dsimp only
      rw [writePool, hwritten, if_pos rfl]
      exact hloop

theorem Sound.topUpLoop (h : w.Sound vMasterKey reserveKey kept added)
    (hlocked : w.store.isLocked = false) (hn : target ≤ w.setKeyPool.card + n)
    (hnew : AreNew added news i (target - w.setKeyPool.card))
    (hspares : ∀ j < target - w.setKeyPool.card, (∀ l ≤ j, (news (i + l)).fWritten = true) →
      ∀ r, (reserveKey r).nIndex ≠ some (w.nEnd + j)) :
    ∃ (ret : Except Failure Unit) (added' : List (MadeKey lib.ec)) (w' : KeyPoolWallet),
      topUpLoop lib news target w n i = (ret, w') ∧
      w'.Sound vMasterKey reserveKey kept added' ∧
      (ret = .error topUpFailed ∨ ret = .ok () ∧ target ≤ w'.setKeyPool.card) := by
  induction n generalizing i w added with
  | zero => exact ⟨_, added, w, rfl, h, .inr ⟨rfl, hn⟩⟩
  | succ n ih =>
      rw [KeyPoolWallet.topUpLoop]
      by_cases hcard : target ≤ w.setKeyPool.card
      · rw [if_pos hcard]
        exact ⟨_, added, w, rfl, h, .inr ⟨rfl, hcard⟩⟩
      · rw [if_neg hcard]
        have hi : ∀ k ∈ added, k.id ≠ (news i).key.id :=
          hnew.not_added (le_refl i) (by omega)
        cases hwritten : (news i).fWritten with
        | false =>
            obtain ⟨store, hgen, -, hsound⟩ :=
              h.generateNewKey hlib hmaster hlocked hi
            dsimp only
            rw [hgen]
            dsimp only
            rw [writePool, if_neg Bool.false_ne_true, Bool.not_false, if_pos rfl]
            exact ⟨_, _, _, rfl, hsound, .inl rfl⟩
        | true =>
            have hheld : ∀ r, (reserveKey r).nIndex ≠ some w.nEnd :=
              hspares 0 (by omega) fun l hl ↦ by rwa [Nat.le_zero.mp hl]
            obtain ⟨store, hgen, hlocked', hsound⟩ :=
              h.addNew hlib hmaster hlocked hi hheld (news i).nTime
            have hcard' : (insert w.nEnd w.setKeyPool).card = w.setKeyPool.card + 1 :=
              Finset.card_insert_of_notMem nEnd_notMem
            dsimp only
            rw [hgen]
            dsimp only
            rw [writePool, if_pos rfl, Bool.not_true, if_neg Bool.false_ne_true]
            refine ih hsound hlocked' ?_ ?_ ?_
            · dsimp only
              omega
            · dsimp only
              rw [hcard']
              have htail := hnew
              rw [show target - w.setKeyPool.card = target - (w.setKeyPool.card + 1) + 1 by omega]
                at htail
              exact htail.tail
            · intro j hj hall r
              rw [nEnd_insert (w := w) rfl, Nat.add_assoc, Nat.add_comm 1 j]
              dsimp only at hj
              rw [hcard'] at hj
              refine hspares (j + 1) (by omega) (fun l hl ↦ ?_) r
              cases l with
              | zero => exact hwritten
              | succ l =>
                  rw [show i + (l + 1) = i + 1 + l by omega]
                  exact hall l (by omega)

theorem Sound.newKeyPool (h : w.Sound vMasterKey reserveKey kept added)
    (hnew : w.store.isLocked = false → AreNew added news 0 (max nKeypool 0).toNat)
    (hgood : w.store.isLocked = false → ∀ j < (max nKeypool 0).toNat, (news j).fWritten = true ∧
      ∀ r, (reserveKey r).nIndex ≠ some (j + 1)) :
    ∃ (fRet : Bool) (added' : List (MadeKey lib.ec)) (w' : KeyPoolWallet),
      w.newKeyPool lib nKeypool news = (.ok fRet, w') ∧
      w'.Sound vMasterKey reserveKey kept added' := by
  have hlookup : ∀ i, ((w.setKeyPool.sort (· ≤ ·)).foldl (fun pool nIndex ↦ pool.erase nIndex)
      w.pool).lookup i = if i ∈ w.setKeyPool then none else w.pool.lookup i := by
    intro i
    rw [lookup_foldl_erase]
    simp only [Finset.mem_sort]
  have hsome {i : Nat} {keypool : CKeyPool} (hi : ((w.setKeyPool.sort (· ≤ ·)).foldl
      (fun pool nIndex ↦ pool.erase nIndex) w.pool).lookup i = some keypool) :
      w.pool.lookup i = some keypool := by
    rw [hlookup] at hi
    split at hi
    case isTrue => cases hi
    case isFalse => exact hi
  have hcleared : ({ w with
      pool := (w.setKeyPool.sort (· ≤ ·)).foldl (fun pool nIndex ↦ pool.erase nIndex) w.pool
      setKeyPool := ∅ } : KeyPoolWallet).Sound vMasterKey reserveKey kept added :=
    ⟨h.store, h.ids, h.lending.clear hlookup, fun hi ↦ h.known (hsome hi), h.kept_known,
      fun hr hi ↦ h.held hr (hsome hi)⟩
  rw [KeyPoolWallet.newKeyPool]
  dsimp only
  cases hlocked : w.store.isLocked with
  | true =>
      rw [if_pos rfl]
      exact ⟨_, _, _, rfl, hcleared⟩
  | false =>
      obtain ⟨added', w', hloop, h'⟩ := hcleared.newKeyLoop hlib hmaster hlocked
        (hnew hlocked) fun j _ hn ↦ hgood hlocked j (by omega)
      rw [if_neg Bool.false_ne_true, hloop]
      exact ⟨_, _, _, rfl, h'⟩

/-- How many keys `TopUpKeyPool` is to generate. -/
def missing (nKeypool : Int) (kpSize : BitVec 32) (w : KeyPoolWallet) : Nat :=
  poolTarget nKeypool kpSize - w.setKeyPool.card

/-- None of the next `n` indices is held of which the records are written. -/
def Spares (reserveKey : κ → CReserveKey) (news : Nat → NewKey lib.ec) (n : Nat)
    (w : KeyPoolWallet) : Prop :=
  ∀ j < n, (∀ l ≤ j, (news l).fWritten = true) → ∀ r, (reserveKey r).nIndex ≠ some (w.nEnd + j)

theorem Sound.topUpKeyPool {kpSize : BitVec 32} (h : w.Sound vMasterKey reserveKey kept added)
    (hnew : w.store.isLocked = false → AreNew added news 0 (w.missing nKeypool kpSize))
    (hspares : w.store.isLocked = false → w.Spares reserveKey news (w.missing nKeypool kpSize)) :
    ∃ (ret : Except Failure Bool) (added' : List (MadeKey lib.ec)) (w' : KeyPoolWallet),
      w.topUpKeyPool lib nKeypool kpSize news = (ret, w') ∧
      w'.Sound vMasterKey reserveKey kept added' ∧
      (ret = .error topUpFailed ∨ (∃ fRet, ret = .ok fRet) ∧
        (w.store.isLocked = false → poolTarget nKeypool kpSize ≤ w'.setKeyPool.card)) := by
  rw [KeyPoolWallet.topUpKeyPool]
  cases hlocked : w.store.isLocked with
  | true =>
      rw [if_pos rfl]
      exact ⟨_, _, _, rfl, h, .inr ⟨⟨_, rfl⟩, fun hunlocked ↦ by cases hunlocked⟩⟩
  | false =>
      obtain ⟨ret, added', w', hloop, h', hret⟩ :=
        h.topUpLoop hlib hmaster hlocked (Nat.le_add_left _ _) (hnew hlocked) (i := 0)
          fun j hj hall ↦ hspares hlocked j hj fun l hl ↦ (Nat.zero_add l) ▸ hall l hl
      rw [if_neg Bool.false_ne_true]
      dsimp only
      rw [hloop]
      obtain rfl | ⟨rfl, hcard⟩ := hret
      · exact ⟨_, _, _, rfl, h', .inl rfl⟩
      · exact ⟨_, _, _, rfl, h', .inr ⟨⟨_, rfl⟩, fun _ ↦ hcard⟩⟩

omit hlib hmaster in
theorem Sound.reserveOldest (h : w.Sound vMasterKey reserveKey kept added) :
    w.setKeyPool = ∅ ∧ w.reserveOldest lib = ⟨.ok {}, none, w⟩ ∨
    ∃ i ∈ w.setKeyPool, ∃ keypool, w.pool.lookup i = some keypool ∧
      w.reserveOldest lib =
        ⟨.ok keypool, some i, { w with setKeyPool := w.setKeyPool.erase i }⟩ := by
  rw [KeyPoolWallet.reserveOldest]
  cases holdest : w.oldest with
  | none => exact .inl ⟨oldest_eq_none holdest, rfl⟩
  | some i =>
      have hi := mem_of_oldest holdest
      obtain ⟨keypool, hlookup⟩ := h.lending.exists_lookup hi
      obtain ⟨hknown, hvalid⟩ := h.known hlookup
      refine .inr ⟨i, hi, keypool, hlookup, ?_⟩
      dsimp only
      rw [hlookup]
      dsimp only
      rw [(CCryptoKeyStore.haveKey_iff h.store).mpr hknown, Bool.not_true,
        if_neg Bool.false_ne_true, if_neg hvalid]

/-- The pool is empty, and `TopUpKeyPool` adds nothing to it. -/
def Exhausted (nKeypool : Int) (w : KeyPoolWallet) : Prop :=
  w.setKeyPool = ∅ ∧ (w.store.isLocked = true ∨ poolTarget nKeypool 0 = 0)

theorem Sound.reserveKeyFromKeyPool (h : w.Sound vMasterKey reserveKey kept added)
    (hnew : w.store.isLocked = false → AreNew added news 0 (w.missing nKeypool 0))
    (hspares : w.store.isLocked = false → w.Spares reserveKey news (w.missing nKeypool 0)) :
    w.Exhausted nKeypool ∧ w.reserveKeyFromKeyPool lib nKeypool news = ⟨.ok {}, none, w⟩ ∨
    ∃ (added' : List (MadeKey lib.ec)) (w' : KeyPoolWallet),
      w'.Sound vMasterKey reserveKey kept added' ∧
      (w.reserveKeyFromKeyPool lib nKeypool news = ⟨.error topUpFailed, none, w'⟩ ∨
        ∃ i ∈ w'.setKeyPool, ∃ keypool, w'.pool.lookup i = some keypool ∧
          w.reserveKeyFromKeyPool lib nKeypool news =
            ⟨.ok keypool, some i, { w' with setKeyPool := w'.setKeyPool.erase i }⟩) := by
  rw [KeyPoolWallet.reserveKeyFromKeyPool]
  cases hlocked : w.store.isLocked with
  | true =>
      rw [Bool.not_true, if_neg Bool.false_ne_true]
      obtain ⟨hempty, heq⟩ | hfound := h.reserveOldest
      · exact .inl ⟨⟨hempty, .inl hlocked⟩, heq⟩
      · exact .inr ⟨added, w, h, .inr hfound⟩
  | false =>
      rw [Bool.not_false, if_pos rfl]
      by_cases hzero : poolTarget nKeypool 0 = 0
      · -- nothing is generated
        have htop : w.topUpKeyPool lib nKeypool 0 news = (.ok true, w) := by
          rw [KeyPoolWallet.topUpKeyPool, hlocked, if_neg Bool.false_ne_true]
          dsimp only
          rw [hzero]
          rfl
        rw [htop]
        obtain ⟨hempty, heq⟩ | hfound := h.reserveOldest
        · exact .inl ⟨⟨hempty, .inr hzero⟩, heq⟩
        · exact .inr ⟨added, w, h, .inr hfound⟩
      · obtain ⟨ret, added', w', htop, h', hret⟩ :=
          h.topUpKeyPool hlib hmaster hnew hspares
        rw [htop]
        obtain rfl | ⟨⟨fRet, rfl⟩, hcard⟩ := hret
        · exact .inr ⟨added', w', h', .inl rfl⟩
        · refine .inr ⟨added', w', h', .inr (h'.reserveOldest.resolve_left ?_)⟩
          rintro ⟨hempty, -⟩
          have hle := hcard hlocked
          rw [hempty, Finset.card_empty] at hle
          exact hzero (Nat.le_zero.mp hle)

omit hlib hmaster in
theorem Sound.addReserveKey (h : w.Sound vMasterKey reserveKey kept added) {fWritten : Bool}
    (hne : w.setKeyPool ≠ ∅)
    (hgood : fWritten = true → (∀ r, (reserveKey r).nIndex ≠ some w.nEnd) ∧
      w.store.haveKey (lib.getID keypool.vchPubKey) = true ∧ keypool.vchPubKey ≠ [] ∧
      (∀ j b, w.pool.lookup j = some b → b.vchPubKey ≠ keypool.vchPubKey) ∧
      keypool.vchPubKey ∉ kept) :
    ∃ ret w', w.addReserveKey keypool fWritten = (ret, w') ∧
      w'.Sound vMasterKey reserveKey kept added ∧
      (ret = .error (.exception "AddReserveKey() : writing added key failed") ∨
        ∃ nIndex, ret = .ok nIndex) := by
  rw [KeyPoolWallet.addReserveKey, if_neg hne]
  dsimp only
  cases fWritten with
  | false => exact ⟨_, _, rfl, h, .inl rfl⟩
  | true =>
      obtain ⟨hheld, hhave, hvalid, hnew, hunused⟩ := hgood rfl
      exact ⟨_, _, rfl, h.add hheld ((CCryptoKeyStore.haveKey_iff h.store).mp hhave) hvalid hnew
        hunused, .inr ⟨_, rfl⟩⟩

end

/-! ### Objects of `CReserveKey` -/

section

variable [DecidableEq κ]

theorem nIndex_update (reserveKey : κ → CReserveKey) (r : κ) (key : CReserveKey) :
    (fun r' ↦ (Function.update reserveKey r key r').nIndex) =
      Function.update (fun r ↦ (reserveKey r).nIndex) r key.nIndex :=
  Function.comp_update CReserveKey.nIndex reserveKey r key

/-- An object without an index can be written to. -/
theorem Sound.update_none (h : w.Sound vMasterKey reserveKey kept added)
    (hr : (reserveKey r).nIndex = none) {key : CReserveKey} (hkey : key.nIndex = none) :
    w.Sound vMasterKey (Function.update reserveKey r key) kept added where
  __ := h
  lending := by
    rw [nIndex_update, hkey, ← hr, Function.update_eq_self]
    exact h.lending
  held {r' i keypool} hr' hi := by
    by_cases hrr : r' = r
    · rw [hrr, Function.update_self, hkey] at hr'
      cases hr'
    · rw [Function.update_of_ne hrr] at hr' ⊢
      exact h.held hr' hi

theorem Sound.take (h : w.Sound vMasterKey reserveKey kept added) (hi : i ∈ w.setKeyPool)
    (hlookup : w.pool.lookup i = some keypool) (hr : (reserveKey r).nIndex = none) :
    ({ w with setKeyPool := w.setKeyPool.erase i } : KeyPoolWallet).Sound vMasterKey
      (Function.update reserveKey r ⟨some i, keypool.vchPubKey⟩) kept added where
  __ := h
  lending := by
    rw [nIndex_update]
    exact h.lending.take hi hr
  held {r' j b} hr' hj := by
    by_cases hrr : r' = r
    · rw [hrr, Function.update_self] at hr' ⊢
      obtain rfl := Option.some.inj hr'
      exact congrArg CKeyPool.vchPubKey (Option.some.inj (hlookup.symm.trans hj))
    · rw [Function.update_of_ne hrr] at hr' ⊢
      exact h.held hr' hj

theorem Sound.returnKey (h : w.Sound vMasterKey reserveKey kept added) (r : κ) :
    ((reserveKey r).returnKey w).Sound vMasterKey (Function.update reserveKey r {}) kept added := by
  rw [CReserveKey.returnKey]
  cases hr : (reserveKey r).nIndex with
  | none => exact h.update_none hr rfl
  | some i =>
      refine ⟨h.store, h.ids, ?_, h.known, h.kept_known, ?_⟩
      · rw [nIndex_update]
        exact h.lending.giveBack hr
      · intro r' j b hr' hj
        by_cases hrr : r' = r
        · rw [hrr, Function.update_self] at hr'
          cases hr'
        · rw [Function.update_of_ne hrr] at hr' ⊢
          exact h.held hr' hj

theorem Sound.keepKey (h : w.Sound vMasterKey reserveKey kept added) (r : κ) :
    ((reserveKey r).keepKey w).Sound vMasterKey (Function.update reserveKey r {})
      (if (reserveKey r).nIndex = none then kept else (reserveKey r).vchPubKey :: kept)
      added := by
  rw [CReserveKey.keepKey]
  cases hr : (reserveKey r).nIndex with
  | none =>
      rw [if_pos rfl]
      exact h.update_none hr rfl
  | some i =>
      obtain ⟨keypool, hlookup⟩ := h.lending.exists_lookup_of_held hr
      have hheld := h.held hr hlookup
      rw [if_neg (Option.some_ne_none i), hheld]
      refine ⟨h.store, h.ids, ?_, fun hj ↦ h.known (Lending.lookup_of_erase hj).2, ?_, ?_⟩
      · rw [nIndex_update]
        exact h.lending.use hr hlookup
      · intro vchPubKey hmem
        obtain rfl | hmem := List.mem_cons.mp hmem
        · exact (h.known hlookup).1
        · exact h.kept_known vchPubKey hmem
      · intro r' j b hr' hj
        by_cases hrr : r' = r
        · rw [hrr, Function.update_self] at hr'
          cases hr'
        · rw [Function.update_of_ne hrr] at hr' ⊢
          exact h.held hr' (Lending.lookup_of_erase hj).2

end

/-- A key of the pool is kept at once. -/
theorem Sound.takeKeep (h : w.Sound vMasterKey reserveKey kept added) (hi : i ∈ w.setKeyPool)
    (hlookup : w.pool.lookup i = some keypool) :
    (({ w with setKeyPool := w.setKeyPool.erase i } : KeyPoolWallet).keepKey i).Sound vMasterKey
      reserveKey (keypool.vchPubKey :: kept) added where
  store := h.store
  ids := h.ids
  lending := h.lending.take_use hi hlookup
  known hj := h.known (Lending.lookup_of_erase hj).2
  kept_known vchPubKey hmem := by
    obtain rfl | hmem := List.mem_cons.mp hmem
    · exact (h.known hlookup).1
    · exact h.kept_known vchPubKey hmem
  held hr hj := h.held hr (Lending.lookup_of_erase hj).2

theorem Sound.onStore (h : w.Sound vMasterKey reserveKey kept added) {store : CCryptoKeyStore}
    (hstore : store.Inv vMasterKey added) :
    ({ w with store := store } : KeyPoolWallet).Sound vMasterKey reserveKey kept added :=
  ⟨hstore, h.ids, h.lending, h.known, h.kept_known, h.held⟩

/-- The first `n` keys are not in the store, and have different ids. -/
structure FreshKeys (news : Nat → NewKey lib.ec) (n : Nat) (w : KeyPoolWallet) : Prop where
  not_found {j : Nat} (hn : j < n) : w.store.haveKey (news j).key.id = false
  distinct {j l : Nat} (hjl : j < l) (hn : l < n) : (news j).key.id ≠ (news l).key.id

theorem Sound.ne_of_not_found (h : w.Sound vMasterKey reserveKey kept added)
    {key : MadeKey lib.ec} (hnew : w.store.haveKey key.id = false) :
    ∀ k ∈ added, k.id ≠ key.id := by
  intro k hk hid
  rw [(CCryptoKeyStore.haveKey_iff h.store).mpr ⟨k, hk, hid⟩] at hnew
  cases hnew

theorem Sound.areNew (h : w.Sound vMasterKey reserveKey kept added) (hnew : w.FreshKeys news n) :
    AreNew added news 0 n where
  not_added _ hn := h.ne_of_not_found (hnew.not_found (by omega))
  distinct _ hjl hn := hnew.distinct hjl (by omega)

end KeyPoolWallet

/-! ## The condition -/

namespace KeyPoolOp

variable {Point κ : Type} (lib : KeyLib Point) (nKeypool : Int) (s : KeyPoolState κ)

/-- The keys that a call may generate are new. -/
def Fresh : KeyPoolOp lib.ec κ → Prop
  | topUpKeyPool kpSize news => s.wallet.FreshKeys news (s.wallet.missing nKeypool kpSize)
  | newKeyPool news => s.wallet.FreshKeys news (max nKeypool 0).toNat
  | getKeyFromPool news key => s.wallet.FreshKeys news (s.wallet.missing nKeypool 0) ∧
      s.wallet.store.haveKey key.id = false
  | getOldestKeyPoolTime news => s.wallet.FreshKeys news (s.wallet.missing nKeypool 0)
  | getReservedKey _ news => s.wallet.FreshKeys news (s.wallet.missing nKeypool 0)
  | _ => True

/-- What `TopUpKeyPool` writes in front of a reservation is not held. -/
def TopUpSpares (news : Nat → NewKey lib.ec) (kpSize : BitVec 32) : Prop :=
  s.wallet.store.isLocked = false →
    s.wallet.Spares s.reserveKey news (s.wallet.missing nKeypool kpSize)

/-- No record is written under an index that is held, `NewKeyPool` has every record written, the
key of `AddReserveKey` is known and new to a pool that is not empty, and an empty pool does not
make `GetReservedKey` give a default key that was kept. -/
def Spares : KeyPoolOp lib.ec κ → Prop
  | topUpKeyPool kpSize news => TopUpSpares lib nKeypool s news kpSize
  | newKeyPool news => s.wallet.store.isLocked = false → ∀ j < (max nKeypool 0).toNat,
      (news j).fWritten = true ∧ ∀ r, (s.reserveKey r).nIndex ≠ some (j + 1)
  | addReserveKey keypool fWritten => s.wallet.setKeyPool ≠ ∅ ∧
      (fWritten = true → (∀ r, (s.reserveKey r).nIndex ≠ some s.wallet.nEnd) ∧
        s.wallet.store.haveKey (lib.getID keypool.vchPubKey) = true ∧ keypool.vchPubKey ≠ [] ∧
        (∀ j b, s.wallet.pool.lookup j = some b → b.vchPubKey ≠ keypool.vchPubKey) ∧
        keypool.vchPubKey ∉ s.kept)
  | getKeyFromPool news _ => TopUpSpares lib nKeypool s news 0
  | getOldestKeyPoolTime news => TopUpSpares lib nKeypool s news 0
  | getReservedKey r news => (s.reserveKey r).nIndex = none →
      TopUpSpares lib nKeypool s news 0 ∧
      (s.wallet.Exhausted nKeypool → s.wallet.vchDefaultKey ∉ s.kept)
  | _ => True

end KeyPoolOp

/-- A call throws none of the errors of the pool, and hands out no key that was kept. -/
structure SafeCall (kept : List CPubKey) (ret : Except Failure (List CPubKey)) : Prop where
  error {e : Failure} (h : ret = .error e) : e ≠ readFailed ∧ e ≠ unknownKey ∧ e ≠ .assertion
  ok {keys : List CPubKey} (h : ret = .ok keys) : ∀ key ∈ keys, key ∉ kept

namespace SafeCall

variable {kept : List CPubKey}

theorem of_ok {keys : List CPubKey} (h : ∀ key ∈ keys, key ∉ kept) : SafeCall kept (.ok keys) where
  error heq := by cases heq
  ok heq := by
    obtain rfl := Except.ok.inj heq
    exact h

theorem nil : SafeCall kept (.ok []) := of_ok nofun

theorem topUpFailed : SafeCall kept (.error topUpFailed) where
  error heq := by
    obtain rfl := Except.error.inj heq
    exact ⟨by decide, by decide, by decide⟩
  ok heq := by cases heq

end SafeCall

namespace KeyPoolState

variable {Point κ : Type} {lib : KeyLib Point} {nKeypool : Int} {vMasterKey : List UInt8}
  {s : KeyPoolState κ}

/-- Every index of the pool has a record whose key is in the store, and nobody holds one. -/
structure Coherent (lib : KeyLib Point) (s : KeyPoolState κ) : Prop where
  record {i : Nat} (h : i ∈ s.wallet.setKeyPool) : ∃ keypool,
    s.wallet.pool.lookup i = some keypool ∧
      s.wallet.store.haveKey (lib.getID keypool.vchPubKey) = true
  not_held {r : κ} {i : Nat} (h : (s.reserveKey r).nIndex = some i) : i ∉ s.wallet.setKeyPool

def Inv (lib : KeyLib Point) (vMasterKey : List UInt8) (s : KeyPoolState κ) : Prop :=
  ∃ added : List (MadeKey lib.ec), s.wallet.Sound vMasterKey s.reserveKey s.kept added

theorem Inv.coherent (h : s.Inv lib vMasterKey) : s.Coherent lib := by
  obtain ⟨added, h⟩ := h
  refine ⟨fun hi ↦ ?_, fun hr ↦ h.lending.not_offered hr⟩
  obtain ⟨keypool, hlookup⟩ := h.lending.exists_lookup hi
  exact ⟨keypool, hlookup, (CCryptoKeyStore.haveKey_iff h.store).mpr (h.known hlookup).1⟩

/-- A wallet that was just loaded: its pool are the records, of different keys of the store. -/
structure Loaded (vMasterKey : List UInt8) (added : List (MadeKey lib.ec)) (s : KeyPoolState κ) :
    Prop where
  store : s.wallet.store.Inv vMasterKey added
  ids : ∀ j ∈ added, ∀ k ∈ added, j.id = k.id → j = k
  setKeyPool : s.wallet.setKeyPool = s.wallet.pool.keys
  known {i : Nat} {keypool : CKeyPool} (h : s.wallet.pool.lookup i = some keypool) :
    (∃ k ∈ added, k.id = lib.getID keypool.vchPubKey) ∧ keypool.vchPubKey ≠ []
  pool_inj {i j : Nat} {a b : CKeyPool} (hi : s.wallet.pool.lookup i = some a)
    (hj : s.wallet.pool.lookup j = some b) (h : a.vchPubKey = b.vchPubKey) : i = j
  reserveKey (r : κ) : (s.reserveKey r).nIndex = none
  kept : s.kept = []

theorem Loaded.inv {added : List (MadeKey lib.ec)} (h : s.Loaded vMasterKey added) :
    s.Inv lib vMasterKey := by
  have hheld {r : κ} {i : Nat} (hr : (s.reserveKey r).nIndex = some i) : False := by
    rw [h.reserveKey] at hr
    cases hr
  refine ⟨added, h.store, h.ids, ⟨fun i ↦ ?_, fun hr ↦ (hheld hr).elim, fun hr ↦ (hheld hr).elim,
    h.pool_inj, fun _ ↦ ?_⟩, h.known, fun vchPubKey hmem ↦ ?_, fun hr ↦ (hheld hr).elim⟩
  · rw [h.setKeyPool, Finmap.mem_keys]
    refine (or_iff_left ?_).symm
    rintro ⟨r, hr⟩
    exact hheld hr
  · rw [h.kept]
    exact List.not_mem_nil
  · rw [h.kept] at hmem
    exact absurd hmem List.not_mem_nil

variable [DecidableEq κ]

section

variable {s : KeyPoolState κ} {added : List (MadeKey lib.ec)} (hlib : lib.Lawful)
  (hmaster : vMasterKey.length = 32)

include hlib hmaster

/-- With an empty pool a key is made. -/
theorem run_getKeyFromPool (h : s.wallet.Sound vMasterKey s.reserveKey s.kept added)
    {news : Nat → NewKey lib.ec} {key : MadeKey lib.ec}
    (hfresh : KeyPoolOp.Fresh lib nKeypool s (.getKeyFromPool news key))
    (hspares : KeyPoolOp.Spares lib nKeypool s (.getKeyFromPool news key)) :
    (KeyPoolOp.run lib nKeypool vMasterKey s (.getKeyFromPool news key)).2.Inv lib vMasterKey ∧
      SafeCall s.kept (KeyPoolOp.run lib nKeypool vMasterKey s (.getKeyFromPool news key)).1 := by
  obtain ⟨-, hreserve⟩ | ⟨added', w', h', hreserve | ⟨i, hi, keypool, hlookup, hreserve⟩⟩ :=
    h.reserveKeyFromKeyPool hlib hmaster (fun _ ↦ h.areNew hfresh.1) hspares
  · cases hlocked : s.wallet.store.isLocked with
    | true =>
        rw [KeyPoolOp.run, KeyPoolWallet.getKeyFromPool, hreserve]
        dsimp only
        rw [hlocked, if_pos rfl]
        exact ⟨⟨added, h⟩, SafeCall.nil⟩
    | false =>
        obtain ⟨store, hgen, -, hsound⟩ := h.generateNewKey hlib hmaster hlocked
          (h.ne_of_not_found hfresh.2)
        rw [KeyPoolOp.run, KeyPoolWallet.getKeyFromPool, hreserve]
        dsimp only
        rw [hlocked, if_neg Bool.false_ne_true, hgen]
        refine ⟨⟨_, hsound⟩, SafeCall.of_ok fun vchPubKey hmem hkept ↦ ?_⟩
        obtain rfl := List.mem_singleton.mp hmem
        obtain ⟨k, hk, hid⟩ := h.kept_known _ hkept
        exact h.ne_of_not_found hfresh.2 k hk hid
  · rw [KeyPoolOp.run, KeyPoolWallet.getKeyFromPool, hreserve]
    exact ⟨⟨added', h'⟩, SafeCall.topUpFailed⟩
  · rw [KeyPoolOp.run, KeyPoolWallet.getKeyFromPool, hreserve]
    refine ⟨⟨added', h'.takeKeep hi hlookup⟩, SafeCall.of_ok fun vchPubKey hmem ↦ ?_⟩
    obtain rfl := List.mem_singleton.mp hmem
    exact h'.lending.unused hlookup

/-- The oldest key is reserved and returned. -/
theorem run_getOldestKeyPoolTime (h : s.wallet.Sound vMasterKey s.reserveKey s.kept added)
    {news : Nat → NewKey lib.ec}
    (hfresh : KeyPoolOp.Fresh lib nKeypool s (.getOldestKeyPoolTime news))
    (hspares : KeyPoolOp.Spares lib nKeypool s (.getOldestKeyPoolTime news)) :
    (KeyPoolOp.run lib nKeypool vMasterKey s (.getOldestKeyPoolTime news)).2.Inv lib vMasterKey ∧
      SafeCall s.kept (KeyPoolOp.run lib nKeypool vMasterKey s (.getOldestKeyPoolTime news)).1 := by
  obtain ⟨-, hreserve⟩ | ⟨added', w', h', hreserve | ⟨i, hi, keypool, hlookup, hreserve⟩⟩ :=
    h.reserveKeyFromKeyPool hlib hmaster (fun _ ↦ h.areNew hfresh) hspares
  · rw [KeyPoolOp.run, KeyPoolWallet.getOldestKeyPoolTime, hreserve]
    exact ⟨⟨added, h⟩, SafeCall.nil⟩
  · rw [KeyPoolOp.run, KeyPoolWallet.getOldestKeyPoolTime, hreserve]
    exact ⟨⟨added', h'⟩, SafeCall.topUpFailed⟩
  · rw [KeyPoolOp.run, KeyPoolWallet.getOldestKeyPoolTime, hreserve]
    have hback : ({ w' with setKeyPool := w'.setKeyPool.erase i } : KeyPoolWallet).returnKey i =
        w' := by
      rw [KeyPoolWallet.returnKey]
      dsimp only
      rw [Finset.insert_erase hi]
    refine ⟨⟨added', ?_⟩, SafeCall.nil⟩
    dsimp only [withWallet]
    rw [hback]
    exact h'

/-- A key that is reserved already stays the same. -/
theorem run_getReservedKey (h : s.wallet.Sound vMasterKey s.reserveKey s.kept added)
    {r : κ} {news : Nat → NewKey lib.ec}
    (hfresh : KeyPoolOp.Fresh lib nKeypool s (.getReservedKey r news))
    (hspares : KeyPoolOp.Spares lib nKeypool s (.getReservedKey r news)) :
    (KeyPoolOp.run lib nKeypool vMasterKey s (.getReservedKey r news)).2.Inv lib vMasterKey ∧
      SafeCall s.kept (KeyPoolOp.run lib nKeypool vMasterKey s (.getReservedKey r news)).1 := by
  rw [KeyPoolOp.run, CReserveKey.getReservedKey]
  cases hr : (s.reserveKey r).nIndex with
  | some i =>
      obtain ⟨keypool, hlookup⟩ := h.lending.exists_lookup_of_held hr
      have hheld := h.held hr hlookup
      dsimp only
      rw [CReserveKey.got, if_neg (hheld ▸ (h.known hlookup).2)]
      dsimp only
      rw [Function.update_eq_self]
      refine ⟨⟨added, h⟩, SafeCall.of_ok fun vchPubKey hmem ↦ ?_⟩
      obtain rfl := List.mem_singleton.mp hmem
      rw [hheld]
      exact h.lending.unused hlookup
  | none =>
      obtain ⟨hsparing, hdefault⟩ := hspares hr
      dsimp only
      obtain ⟨hexhausted, hreserve⟩ | ⟨added', w', h', hreserve | ⟨i, hi, keypool, hlookup,
          hreserve⟩⟩ :=
        h.reserveKeyFromKeyPool hlib hmaster (fun _ ↦ h.areNew hfresh) hsparing
      · rw [hreserve]
        dsimp only
        by_cases hvalid : s.wallet.vchDefaultKey = []
        · rw [if_neg (not_not.mpr hvalid)]
          exact ⟨⟨added, h.update_none hr rfl⟩, SafeCall.nil⟩
        · rw [if_pos hvalid, CReserveKey.got, if_neg hvalid]
          refine ⟨⟨added, h.update_none hr rfl⟩, SafeCall.of_ok fun vchPubKey hmem ↦ ?_⟩
          obtain rfl := List.mem_singleton.mp hmem
          exact hdefault hexhausted
      · rw [hreserve]
        exact ⟨⟨added', h'.update_none hr rfl⟩, SafeCall.topUpFailed⟩
      · rw [hreserve]
        dsimp only
        rw [CReserveKey.got, if_neg (h'.known hlookup).2]
        refine ⟨⟨added', h'.take hi hlookup hr⟩, SafeCall.of_ok fun vchPubKey hmem ↦ ?_⟩
        obtain rfl := List.mem_singleton.mp hmem
        exact h'.lending.unused hlookup

end

/-- One call. -/
theorem Inv.run (hlib : lib.Lawful) (hmaster : vMasterKey.length = 32) (h : s.Inv lib vMasterKey)
    {op : KeyPoolOp lib.ec κ} (hfresh : op.Fresh lib nKeypool s)
    (hspares : op.Spares lib nKeypool s) :
    (op.run lib nKeypool vMasterKey s).2.Inv lib vMasterKey ∧
      SafeCall s.kept (op.run lib nKeypool vMasterKey s).1 := by
  obtain ⟨added, h⟩ := h
  cases op with
  | topUpKeyPool kpSize news =>
      obtain ⟨ret, added', w', htop, h', hret⟩ :=
        h.topUpKeyPool hlib hmaster (fun _ ↦ h.areNew hfresh) hspares
      rw [KeyPoolOp.run, htop]
      refine ⟨⟨added', h'⟩, ?_⟩
      obtain rfl | ⟨⟨fRet, rfl⟩, -⟩ := hret
      · exact SafeCall.topUpFailed
      · exact SafeCall.nil
  | newKeyPool news =>
      obtain ⟨fRet, added', w', hpool, h'⟩ :=
        h.newKeyPool hlib hmaster (fun _ ↦ h.areNew hfresh) hspares
      rw [KeyPoolOp.run, hpool]
      exact ⟨⟨added', h'⟩, SafeCall.nil⟩
  | addReserveKey keypool fWritten =>
      obtain ⟨ret, w', hadd, h', hret⟩ := h.addReserveKey hspares.1 hspares.2
      rw [KeyPoolOp.run, hadd]
      refine ⟨⟨added, h'⟩, ?_⟩
      obtain rfl | ⟨nIndex, rfl⟩ := hret
      · refine ⟨fun heq ↦ ?_, fun heq ↦ ?_⟩
        · obtain rfl := Except.error.inj heq
          exact ⟨by decide, by decide, by decide⟩
        · cases heq
      · exact SafeCall.nil
  | getKeyFromPool news key => exact run_getKeyFromPool hlib hmaster h hfresh hspares
  | getOldestKeyPoolTime news => exact run_getOldestKeyPoolTime hlib hmaster h hfresh hspares
  | getReservedKey r news => exact run_getReservedKey hlib hmaster h hfresh hspares
  | keepKey r => exact ⟨⟨added, h.keepKey r⟩, SafeCall.nil⟩
  | returnKey r => exact ⟨⟨added, h.returnKey r⟩, SafeCall.nil⟩
  | encryptKeys =>
      exact ⟨⟨added, h.onStore (h.store.encryptKeys hlib hmaster h.ids)⟩, SafeCall.nil⟩
  | lock => exact ⟨⟨added, h.onStore h.store.lockKeyStore⟩, SafeCall.nil⟩
  | unlock => exact ⟨⟨added, h.onStore (h.store.unlock hlib hmaster)⟩, SafeCall.nil⟩

end KeyPoolState

/-- **The key pool is safe** in a run of calls that meet the condition. -/
theorem keyPool_safe {Point κ : Type} [DecidableEq κ] {lib : KeyLib Point} (hlib : lib.Lawful)
    (nKeypool : Int) {vMasterKey : List UInt8} (hmaster : vMasterKey.length = 32)
    {s : KeyPoolState κ} {added : List (MadeKey lib.ec)} (hs : s.Loaded vMasterKey added)
    {ops : List (KeyPoolOp lib.ec κ)}
    (hops : Run.Guarded (KeyPoolOp.after lib nKeypool vMasterKey)
      (fun s op ↦ op.Fresh lib nKeypool s ∧ op.Spares lib nKeypool s) s ops) :
    (∀ l, l <+: ops → (l.foldl (KeyPoolOp.after lib nKeypool vMasterKey) s).Coherent lib) ∧
    ∀ l op, l ++ [op] <+: ops →
      let s := l.foldl (KeyPoolOp.after lib nKeypool vMasterKey) s
      SafeCall s.kept (op.run lib nKeypool vMasterKey s).1 := by
  obtain ⟨hinv, hguard⟩ := hops.invariant (I := KeyPoolState.Inv lib vMasterKey)
    (fun s op h hop ↦ (h.run hlib hmaster hop.1 hop.2).1) hs.inv
  refine ⟨fun l hl ↦ (hinv l hl).coherent, fun l op hl ↦ ?_⟩
  obtain ⟨hfresh, hspares⟩ := hguard l op hl
  exact ((hinv l ((List.prefix_append l [op]).trans hl)).run hlib hmaster hfresh hspares).2

/-! ### A pool to compute with -/

theorem length_sampleSecret (i : Nat) : (Wire.toBytes 32 (i + 1)).reverse.length = 32 := by
  rw [List.length_reverse, Wire.length_toBytes]

def sampleNewKey (i : Nat) : NewKey sampleKeyLib.ec where
  key := {
    secret := (Wire.toBytes 32 (i + 1)).reverse
    fCompressed := true
    point := BitVec.ofNat 256 (Wire.ofBytes (Wire.toBytes 32 (i + 1)).reverse.reverse)
    length_secret := length_sampleSecret i
    regenerate := rfl }
  nTime := 0
  fWritten := true

def sampleKeyPool : KeyPoolState Bool := { wallet := {}, reserveKey := fun _ ↦ {} }

theorem sampleKeyPool_loaded :
    sampleKeyPool.Loaded sampleMasterKey ([] : List (MadeKey sampleKeyLib.ec)) where
  store := .inl ⟨rfl, Tabulates.empty, rfl, rfl⟩
  ids j hj := absurd hj List.not_mem_nil
  setKeyPool := Finmap.keys_empty.symm
  known hi := by cases (Finmap.lookup_empty _).symm.trans hi
  pool_inj hi := by cases (Finmap.lookup_empty _).symm.trans hi
  reserveKey _ := rfl
  kept := rfl

/-- A reservation that is kept. -/
theorem keyPool_safe_sample :
    let ops : List (KeyPoolOp sampleKeyLib.ec Bool) :=
      [.getReservedKey true sampleNewKey, .keepKey true]
    (ops.foldl (KeyPoolOp.after sampleKeyLib 1 sampleMasterKey) sampleKeyPool).Coherent
      sampleKeyLib := by
  intro ops
  have hfresh : sampleKeyPool.wallet.FreshKeys sampleNewKey 2 := by
    refine ⟨fun {j} hj ↦ ?_, fun {j l} hjl hl ↦ ?_⟩
    · obtain rfl | rfl : j = 0 ∨ j = 1 := by omega
      · decide +kernel
      · decide +kernel
    · obtain ⟨rfl, rfl⟩ : j = 0 ∧ l = 1 := by omega
      decide +kernel
  have hspares : (KeyPoolOp.getReservedKey true sampleNewKey).Spares sampleKeyLib 1
      sampleKeyPool :=
    fun _ ↦ ⟨fun _ j _ _ r hr ↦ (by cases hr), fun _ ↦ List.not_mem_nil⟩
  have hops : Run.Guarded (KeyPoolOp.after sampleKeyLib 1 sampleMasterKey)
      (fun s op ↦ op.Fresh sampleKeyLib 1 s ∧ op.Spares sampleKeyLib 1 s) sampleKeyPool ops :=
    ⟨⟨hfresh, hspares⟩, ⟨trivial, trivial⟩, trivial⟩
  exact (keyPool_safe sampleKeyLib_lawful 1 length_sampleMasterKey sampleKeyPool_loaded hops).1 ops
    List.prefix_rfl

/-- A reservation that is alive when `EncryptWallet` makes a new pool. -/
def sampleKeyPoolOps : List (KeyPoolOp sampleKeyLib.ec Bool) :=
  [.getReservedKey true sampleNewKey, .newKeyPool fun i ↦ sampleNewKey (i + 2), .keepKey true]

theorem keyPool_reuses_index :
    let s := (sampleKeyPoolOps.take 2).foldl (KeyPoolOp.after sampleKeyLib 1 sampleMasterKey)
      sampleKeyPool
    let s' := sampleKeyPoolOps.foldl (KeyPoolOp.after sampleKeyLib 1 sampleMasterKey) sampleKeyPool
    (s.reserveKey true).nIndex = some 1 ∧ 1 ∈ s.wallet.setKeyPool ∧
      ((KeyPoolOp.getReservedKey false fun i ↦ sampleNewKey (i + 3)).run sampleKeyLib 1
        sampleMasterKey s').1 = .error readFailed := by
  decide +kernel

end Fedoracoin
