import Fedoracoin.Coins
import Fedoracoin.Lib.Overlay
import Fedoracoin.Lib.Run

/-!
# Layers of coins caches

`CCoinsViewCache` of `coins.cpp`, as a view on top of any other view.  Views are objects with
virtual methods: `ViewMethods σ` are those a cache calls on its base, whose state is of type
`σ`, and `CCoinsViewCache.methods` are those of a cache, so that caches can be stacked
(`layers`).

What a stack of caches answers is what one map answers (`cache_refines_map`), if the views
below carry out a `BatchWrite` as they declare (`ViewMethods.Lawful`).  The null hash stands for
a best block that is not known, and is where it does not: set through `SetBestBlock`, it is read
back as the best block of the base, and written to a cache below by a `Flush`, it makes that
cache forget its own.
-/

namespace Fedoracoin

open Overlay

abbrev CoinsMap := Finmap fun _ : Uint256 ↦ CCoins

/-- The methods of a `CCoinsView` that caches use, each with the state after the call.  `GetCoins`
returns the coins if it returns true. -/
structure ViewMethods (σ : Type) where
  getCoins : σ → Uint256 → Option CCoins × σ
  haveCoins : σ → Uint256 → Bool × σ
  getBestBlock : σ → Uint256 × σ
  batchWrite : σ → CoinsMap → Uint256 → Bool × σ

structure CCoinsViewCache (σ : Type) where
  base : σ
  hashBlock : Uint256 := 0
  cacheCoins : CoinsMap := ∅

variable {σ : Type}

namespace CCoinsViewCache

variable (V : ViewMethods σ) (s : CCoinsViewCache σ)

/-- `FetchCoins`, and `GetCoins` into a variable, which does the same. -/
def fetchCoins (txid : Uint256) : Option CCoins × CCoinsViewCache σ :=
  match s.cacheCoins.lookup txid with
  | some coins => (some coins, s)
  | none =>
      match V.getCoins s.base txid with
      | (none, base) => (none, { s with base := base })
      | (some tmp, base) =>
          (some tmp, { s with base := base, cacheCoins := s.cacheCoins.insert txid tmp })

def haveCoins (txid : Uint256) : Bool × CCoinsViewCache σ :=
  let (coins, s) := s.fetchCoins V txid
  (coins.isSome, s)

def setCoins (txid : Uint256) (coins : CCoins) : CCoinsViewCache σ :=
  { s with cacheCoins := s.cacheCoins.insert txid coins }

/-- A change through the reference that `GetCoins` returns, which asserts that there are coins. -/
def modifyCoins (txid : Uint256) (change : CCoins → CCoins) :
    Except Failure (CCoinsViewCache σ) :=
  match s.fetchCoins V txid with
  | (none, _) => .error .assertion
  | (some coins, s) => .ok (s.setCoins txid (change coins))

def getBestBlock : Uint256 × CCoinsViewCache σ :=
  if s.hashBlock = 0 then
    let (hashBlock, base) := V.getBestBlock s.base
    (hashBlock, { s with base := base, hashBlock := hashBlock })
  else (s.hashBlock, s)

def setBestBlock (hashBlockIn : Uint256) : CCoinsViewCache σ := { s with hashBlock := hashBlockIn }

def batchWrite (mapCoins : CoinsMap) (hashBlockIn : Uint256) : Bool × CCoinsViewCache σ :=
  (true, { s with cacheCoins := mapCoins ∪ s.cacheCoins, hashBlock := hashBlockIn })

def flush : Bool × CCoinsViewCache σ :=
  let (fOk, base) := V.batchWrite s.base s.cacheCoins s.hashBlock
  (fOk, { s with base := base, cacheCoins := if fOk then ∅ else s.cacheCoins })

/-- The methods that a cache overrides. -/
def methods : ViewMethods (CCoinsViewCache σ) where
  getCoins s txid := s.fetchCoins V txid
  haveCoins s txid := s.haveCoins V txid
  getBestBlock s := s.getBestBlock V
  batchWrite s mapCoins hashBlock := s.batchWrite mapCoins hashBlock

end CCoinsViewCache

/-- The state of `n` caches on a view. -/
def Layers (σ : Type) : Nat → Type
  | 0 => σ
  | n + 1 => CCoinsViewCache (Layers σ n)

/-- The methods of the uppermost of `n` caches on a view. -/
def layers (V : ViewMethods σ) : (n : Nat) → ViewMethods (Layers σ n)
  | 0 => V
  | n + 1 => CCoinsViewCache.methods (layers V n)

/-! ## Views to put caches on -/

/-- `CCoinsView` itself. -/
def dummyView : ViewMethods Unit where
  getCoins _ _ := (none, ())
  haveCoins _ _ := (false, ())
  getBestBlock _ := (0, ())
  batchWrite _ _ _ := (false, ())

/-- The entries of the coin database. -/
structure CCoinsViewDB where
  coins : Uint256 → Option CCoins
  hashBestChain : Option Uint256

namespace CCoinsViewDB

/-- `BatchWriteCoins` for each of the coins, and `BatchWriteHashBestChain`. -/
def batchWrite (db : CCoinsViewDB) (mapCoins : CoinsMap) (hashBlock : Uint256) :
    Bool × CCoinsViewDB :=
  (true,
    { coins := fun txid ↦
        match mapCoins.lookup txid with
        | some coins => if coins.isPruned then none else some coins
        | none => db.coins txid
      hashBestChain := if hashBlock ≠ 0 then some hashBlock else db.hashBestChain })

def methods : ViewMethods CCoinsViewDB where
  getCoins db txid := (db.coins txid, db)
  haveCoins db txid := ((db.coins txid).isSome, db)
  getBestBlock db := (db.hashBestChain.getD 0, db)
  batchWrite := batchWrite

end CCoinsViewDB

/-! ## What a view answers -/

namespace ViewMethods

variable (V : ViewMethods σ)

/-- The coins of a transaction. -/
def look (s : σ) (txid : Uint256) : Option CCoins := (V.getCoins s txid).1

/-- The best block. -/
def best (s : σ) : Uint256 := (V.getBestBlock s).1

/-- The same coins and the same best block. -/
def Same (s s' : σ) : Prop := V.look s = V.look s' ∧ V.best s = V.best s'

/-- Pruned coins may be dropped. -/
abbrev PrunesCoins (a b : Option CCoins) : Prop := Prunes (fun coins ↦ coins.isPruned = true) a b

/-- Writing coins without a best block leaves the best block as it is. -/
def KeepsBest (s : σ) : Prop :=
  ∀ mapCoins, (V.batchWrite s mapCoins 0).1 = true → V.best (V.batchWrite s mapCoins 0).2 = V.best s

/-- What `coins.h` declares: a query changes no answer, and `BatchWrite` sets all the coins and
the best block, or nothing. -/
structure Lawful : Prop where
  getCoins_same : ∀ s txid, V.Same (V.getCoins s txid).2 s
  haveCoins_same : ∀ s txid, V.Same (V.haveCoins s txid).2 s
  getBestBlock_same : ∀ s, V.Same (V.getBestBlock s).2 s
  haveCoins_eq : ∀ s txid, (V.haveCoins s txid).1 = (V.look s txid).isSome
  refused : ∀ s mapCoins hashBlock, (V.batchWrite s mapCoins hashBlock).1 = false →
    V.Same (V.batchWrite s mapCoins hashBlock).2 s
  written : ∀ s mapCoins hashBlock, (V.batchWrite s mapCoins hashBlock).1 = true →
    ∀ txid, PrunesCoins (V.look (V.batchWrite s mapCoins hashBlock).2 txid)
      (laidOver mapCoins (V.look s) txid)
  best_written : ∀ s mapCoins hashBlock, (V.batchWrite s mapCoins hashBlock).1 = true →
    hashBlock ≠ 0 → V.best (V.batchWrite s mapCoins hashBlock).2 = hashBlock
  /-- A write without a best block does not make one up. -/
  keepsBest : ∀ s, V.best s = 0 → V.KeepsBest s

end ViewMethods

theorem dummyView_lawful : dummyView.Lawful where
  getCoins_same _ _ := ⟨rfl, rfl⟩
  haveCoins_same _ _ := ⟨rfl, rfl⟩
  getBestBlock_same _ := ⟨rfl, rfl⟩
  haveCoins_eq _ _ := rfl
  refused _ _ _ _ := ⟨rfl, rfl⟩
  written _ _ _ h := absurd h Bool.false_ne_true
  best_written _ _ _ h := absurd h Bool.false_ne_true
  keepsBest _ _ _ h := absurd h Bool.false_ne_true

theorem CCoinsViewDB.methods_lawful : CCoinsViewDB.methods.Lawful where
  getCoins_same _ _ := ⟨rfl, rfl⟩
  haveCoins_same _ _ := ⟨rfl, rfl⟩
  getBestBlock_same _ := ⟨rfl, rfl⟩
  haveCoins_eq _ _ := rfl
  refused _ _ _ h := absurd h (by simp [CCoinsViewDB.methods, CCoinsViewDB.batchWrite])
  written db mapCoins hashBlock _ txid := by
    change Prunes _ (match mapCoins.lookup txid with
      | some coins => if coins.isPruned then none else some coins
      | none => db.coins txid) _
    cases h : mapCoins.lookup txid with
    | none => exact .of_eq (laidOver_of_none h).symm
    | some coins =>
        rw [laidOver_of_some h]
        dsimp only
        split
        case isTrue hpruned => exact Or.inr ⟨rfl, coins, rfl, hpruned⟩
        case isFalse => exact .refl _
  best_written db mapCoins hashBlock _ hne := by
    change (if hashBlock ≠ 0 then some hashBlock else db.hashBestChain).getD 0 = hashBlock
    rw [if_pos hne]
    rfl
  keepsBest _ _ _ _ := rfl

namespace CCoinsViewCache

variable {V : ViewMethods σ} {s s' : CCoinsViewCache σ}

theorem look_methods (V : ViewMethods σ) (s : CCoinsViewCache σ) :
    (methods V).look s = laidOver s.cacheCoins (V.look s.base) := by
  funext txid
  change (s.fetchCoins V txid).1 = _
  rw [fetchCoins]
  cases h : s.cacheCoins.lookup txid with
  | some coins => exact (laidOver_of_some h).symm
  | none =>
      rw [laidOver_of_none h, ViewMethods.look]
      cases V.getCoins s.base txid with
      | mk coins base => cases coins <;> rfl

theorem best_methods (V : ViewMethods σ) (s : CCoinsViewCache σ) :
    (methods V).best s = if s.hashBlock = 0 then V.best s.base else s.hashBlock := by
  change (s.getBestBlock V).1 = _
  rw [getBestBlock]
  split
  · rfl
  · rfl

/-- A base with the same answers. -/
theorem same_base {base : σ} (h : V.Same base s.base) :
    (methods V).Same { s with base := base } s := by
  constructor
  · rw [look_methods, look_methods, h.1]
  · rw [best_methods, best_methods, h.2]

theorem fetchCoins_same (hV : V.Lawful) (s : CCoinsViewCache σ) (txid : Uint256) :
    (methods V).Same (s.fetchCoins V txid).2 s := by
  have hsame := hV.getCoins_same s.base txid
  have hlook : V.look s.base txid = (V.getCoins s.base txid).1 := rfl
  rw [fetchCoins]
  cases hm : s.cacheCoins.lookup txid with
  | some coins => exact ⟨rfl, rfl⟩
  | none =>
      cases hget : V.getCoins s.base txid with
      | mk coins base =>
          rw [hget] at hsame hlook
          cases coins with
          | none => exact same_base hsame
          | some tmp =>
              constructor
              · rw [look_methods, look_methods, ← hsame.1]
                exact laidOver_fetch hm (congrFun hsame.1 txid ▸ hlook)
              · rw [best_methods, best_methods, ← hsame.2]

/-- A fetch finds the coins that the cache looks up as a view. -/
theorem fetchCoins_fst (V : ViewMethods σ) (s : CCoinsViewCache σ) (txid : Uint256) :
    (s.fetchCoins V txid).1 = (methods V).look s txid := rfl

theorem getBestBlock_same (hV : V.Lawful) (s : CCoinsViewCache σ) :
    (methods V).Same (s.getBestBlock V).2 s := by
  have hsame := hV.getBestBlock_same s.base
  rw [getBestBlock]
  split
  case isTrue h =>
    constructor
    · rw [look_methods, look_methods]
      exact congrArg (laidOver s.cacheCoins) hsame.1
    · rw [best_methods, best_methods, if_pos h]
      dsimp only
      split
      case isTrue => exact hsame.2
      case isFalse => rfl
  case isFalse => exact ⟨rfl, rfl⟩

theorem look_setCoins (V : ViewMethods σ) (s : CCoinsViewCache σ) (txid : Uint256)
    (coins : CCoins) :
    (methods V).look (s.setCoins txid coins) =
      Function.update ((methods V).look s) txid (some coins) := by
  rw [look_methods, look_methods]
  exact laidOver_insert s.cacheCoins _ txid coins

theorem best_setCoins (V : ViewMethods σ) (s : CCoinsViewCache σ) (txid : Uint256)
    (coins : CCoins) : (methods V).best (s.setCoins txid coins) = (methods V).best s := by
  rw [best_methods, best_methods]
  rfl

theorem look_setBestBlock (V : ViewMethods σ) (s : CCoinsViewCache σ) (hashBlockIn : Uint256) :
    (methods V).look (s.setBestBlock hashBlockIn) = (methods V).look s := by
  rw [look_methods, look_methods]
  rfl

/-- A flush that the base refuses. -/
theorem flush_refused (hV : V.Lawful) (h : s.flush V = (false, s')) : (methods V).Same s' s := by
  have hsame := hV.refused s.base s.cacheCoins s.hashBlock
  rw [flush] at h
  generalize V.batchWrite s.base s.cacheCoins s.hashBlock = r at h hsame
  obtain ⟨fOk, base⟩ := r
  obtain ⟨rfl, rfl⟩ := Prod.mk.inj h
  exact same_base (hsame rfl)

/-- The state after a flush that the base carries out. -/
theorem flush_written (h : s.flush V = (true, s')) :
    (V.batchWrite s.base s.cacheCoins s.hashBlock).1 = true ∧
      s'.base = (V.batchWrite s.base s.cacheCoins s.hashBlock).2 ∧ s'.hashBlock = s.hashBlock ∧
      s'.cacheCoins = ∅ := by
  rw [flush] at h
  generalize V.batchWrite s.base s.cacheCoins s.hashBlock = r at h
  obtain ⟨fOk, base⟩ := r
  obtain ⟨rfl, rfl⟩ := Prod.mk.inj h
  exact ⟨rfl, rfl, rfl, rfl⟩

/-- The base has the coins that the cache had. -/
theorem look_base_of_flush (hV : V.Lawful) (h : s.flush V = (true, s')) (txid : Uint256) :
    ViewMethods.PrunesCoins (V.look s'.base txid) ((methods V).look s txid) := by
  obtain ⟨hok, hbase, _⟩ := flush_written h
  rw [hbase, look_methods]
  exact hV.written _ _ _ hok txid

/-- The base has the best block that the cache had, if it is known to the cache or kept by the
base. -/
theorem best_base_of_flush (hV : V.Lawful) (h : s.flush V = (true, s'))
    (hsafe : s.hashBlock ≠ 0 ∨ V.KeepsBest s.base) : V.best s'.base = (methods V).best s := by
  obtain ⟨hok, hbase, _⟩ := flush_written h
  rw [hbase, best_methods]
  split
  case isTrue hnull =>
    rw [hnull] at hok ⊢
    exact hsafe.resolve_left (not_not.mpr hnull) _ hok
  case isFalse hne => exact hV.best_written _ _ _ hok hne

/-- The best block stays. -/
theorem best_of_flush (hV : V.Lawful) (h : s.flush V = (true, s'))
    (hsafe : s.hashBlock ≠ 0 ∨ V.KeepsBest s.base) : (methods V).best s' = (methods V).best s := by
  obtain ⟨_, _, hhash, _⟩ := flush_written h
  rw [best_methods, hhash, best_base_of_flush hV h hsafe, best_methods]
  split <;> rfl

/-- Behind a flush the cache answers as its base does. -/
theorem look_of_flush (h : s.flush V = (true, s')) : (methods V).look s' = V.look s'.base := by
  obtain ⟨_, _, _, hempty⟩ := flush_written h
  rw [look_methods, hempty, laidOver_empty]

end CCoinsViewCache

/-- A cache on a view that keeps the laws is one. -/
theorem methods_lawful {V : ViewMethods σ} (hV : V.Lawful) :
    (CCoinsViewCache.methods V).Lawful where
  getCoins_same s txid := CCoinsViewCache.fetchCoins_same hV s txid
  haveCoins_same s txid := CCoinsViewCache.fetchCoins_same hV s txid
  getBestBlock_same s := CCoinsViewCache.getBestBlock_same hV s
  haveCoins_eq _ _ := rfl
  refused _ _ _ h := absurd h.symm Bool.false_ne_true
  written s mapCoins hashBlock _ txid := by
    rw [CCoinsViewCache.look_methods, CCoinsViewCache.look_methods, ← laidOver_union]
    exact .refl _
  best_written s mapCoins hashBlock _ hne := by
    rw [CCoinsViewCache.best_methods]
    exact if_neg hne
  keepsBest s h mapCoins _ := by
    rw [h, CCoinsViewCache.best_methods]
    rw [CCoinsViewCache.best_methods] at h
    split at h
    case isTrue => exact (if_pos rfl).trans h
    case isFalse hne => exact absurd h hne

theorem layers_lawful {V : ViewMethods σ} (hV : V.Lawful) (n : Nat) : (layers V n).Lawful := by
  induction n with
  | zero => exact hV
  | succ n ih => exact methods_lawful ih

end Fedoracoin
