import Fedoracoin.Lib.Selection
import Fedoracoin.WalletTx

/-!
# Selecting coins to spend

`SelectCoinsMinConf` and `ApproximateBestSubset` of `wallet.cpp`.  A coin is a value and a pair of
a pointer to a transaction and the number of an output; a list of booleans marks a subset of the
coins, and the search keeps two of them, each with its total.
-/

namespace Fedoracoin

open RunningSum Selection

/-- A transaction of the wallet, with the cache of `GetDebit`. -/
structure CDebitTx extends CWalletTx where
  fDebitCached : Bool := false
  nDebitCached : Int64 := 0

namespace CWallet

variable (env : WalletEnv) (w : CWallet)

/-- `GetDebit` of a transaction of the wallet.  What it puts into the cache it would find again. -/
def getDebitCached (wtx : CDebitTx) : Except Failure Int64 :=
  if wtx.tx.vin.isEmpty then .ok 0
  else if wtx.fDebitCached then .ok wtx.nDebitCached
  else w.getDebit env wtx.tx

def isFromMe (wtx : CDebitTx) : Except Failure Bool := do
  let nDebit ← w.getDebitCached env wtx
  return decide (0 < nDebit)

end CWallet

variable {P : Type} {wtx : P → CDebitTx}

/-- An output that can be spent.  `tx` is a pointer, and `wtx` what pointers lead to. -/
structure COutput (wtx : P → CDebitTx) where
  tx : P
  i : Nat
  nDepth : Int
  i_lt : i < (wtx tx).tx.vout.length

/-- `pair<int64_t, pair<const CWalletTx*, unsigned int> >`. -/
abbrev CoinPair (P : Type) := Int64 × P × Nat

namespace COutput

variable (output : COutput wtx)

def nValue : Int64 := ((wtx output.tx).tx.vout.get ⟨output.i, output.i_lt⟩).nValue

def coin : CoinPair P := (output.nValue, output.tx, output.i)

end COutput

/-! ## The search for a subset -/

/-- The variables of `ApproximateBestSubset`. -/
structure SubsetSearch where
  vfIncluded : List Bool
  nTotal : Int64 := 0
  fReachedTarget : Bool := false
  vfBest : List Bool
  nBest : Int64

namespace SubsetSearch

/-- The coin at `i` is included, and taken out again if the target is reached with it. -/
def includeCoin (nTargetValue : Int64) (coin : CoinPair P) (i : Nat) (s : SubsetSearch) :
    SubsetSearch :=
  let nTotal := s.nTotal + coin.1
  let vfIncluded := s.vfIncluded.set i true
  if nTargetValue ≤ nTotal then
    { s with
      fReachedTarget := true
      nBest := if nTotal < s.nBest then nTotal else s.nBest
      vfBest := if nTotal < s.nBest then vfIncluded else s.vfBest
      nTotal := nTotal - coin.1
      vfIncluded := vfIncluded.set i false }
  else { s with nTotal := nTotal, vfIncluded := vfIncluded }

/-- A pass over the coins from `i` on, of which those that `fTake` says are included. -/
def pass (nTargetValue : Int64) (fTake : Nat → SubsetSearch → Bool) :
    (i : Nat) → List (CoinPair P) → SubsetSearch → SubsetSearch
  | _, [], s => s
  | i, coin :: coins, s =>
      pass nTargetValue fTake (i + 1) coins
        (if fTake i s then s.includeCoin nTargetValue coin i else s)

/-- Two passes: one that includes at random, and unless that reaches the target, one that includes
what is not. -/
def rep (nTargetValue : Int64) (rand : Nat → Bool) (vValue : List (CoinPair P))
    (best : List Bool × Int64) : List Bool × Int64 :=
  let s := pass nTargetValue (fun i _ ↦ rand i) 0 vValue
    { vfIncluded := List.replicate vValue.length false, vfBest := best.1, nBest := best.2 }
  let s :=
    if s.fReachedTarget then s
    else pass nTargetValue (fun i s ↦ !s.vfIncluded.getD i false) 0 vValue s
  (s.vfBest, s.nBest)

/-- The loop, with `left` the number of iterations that `nRep < iterations` still allows.  Each one
draws a bit for every coin. -/
def reps (nTargetValue : Int64) (rand : Nat → Bool) (vValue : List (CoinPair P)) :
    (left nRep : Nat) → List Bool × Int64 → List Bool × Int64
  | 0, _, best => best
  | left + 1, nRep, best =>
      if best.2 = nTargetValue then best
      else
        reps nTargetValue rand vValue left (nRep + 1)
          (rep nTargetValue (fun i ↦ rand (nRep * vValue.length + i)) vValue best)

end SubsetSearch

/-- `vfBest` and `nBest`; `rand` is `insecure_rand() & 1`, call by call. -/
def approximateBestSubset (rand : Nat → Bool) (vValue : List (CoinPair P))
    (nTotalLower nTargetValue : Int64) (iterations : Nat) : List Bool × Int64 :=
  SubsetSearch.reps nTargetValue rand vValue iterations 0
    (List.replicate vValue.length true, nTotalLower)

/-! ## The selection -/

/-- What the standard library and the random numbers decide. -/
structure SelectionChoices (wtx : P → CDebitTx) where
  /-- `random_shuffle`. -/
  shuffle : List (COutput wtx) → List (COutput wtx)
  shuffle_perm : ∀ vCoins, (shuffle vCoins).Perm vCoins
  /-- `sort` by value, from the largest on.  It need not be stable. -/
  sort : List (CoinPair P) → List (CoinPair P)
  sort_perm : ∀ vValue, (sort vValue).Perm vValue
  sort_sorted : ∀ vValue, (sort vValue).Pairwise fun coin coin' ↦ coin'.1 ≤ coin.1
  /-- The bits that the first search draws. -/
  rand : Nat → Bool
  /-- The bits that the second search draws. -/
  randAgain : Nat → Bool

/-- The variables of the first loop.  `coinLowestLarger` starts with the largest `int64_t` and no
transaction. -/
structure SortedCoins (P : Type) where
  vValue : List (CoinPair P) := []
  nTotalLower : Int64 := 0
  coinLowestLarger : Option (CoinPair P) := none

/-- `setCoinsRet` and `nValueRet`. -/
structure CoinsRet (P : Type) where
  setCoinsRet : Finset (P × Nat) := ∅
  nValueRet : Int64 := 0

section

variable [DecidableEq P]

def CoinsRet.insert (ret : CoinsRet P) (coin : CoinPair P) : CoinsRet P where
  setCoinsRet := Insert.insert coin.2 ret.setCoinsRet
  nValueRet := ret.nValueRet + coin.1

/-- The loop at the end, over the coins that are marked. -/
def CoinsRet.insertMarked (ret : CoinsRet P) (vValue : List (CoinPair P)) (vf : List Bool) :
    CoinsRet P :=
  (vValue.zip vf).foldl (fun ret p ↦ if p.2 then ret.insert p.1 else ret) ret

namespace SortedCoins

variable (choices : SelectionChoices wtx) (nTargetValue : Int64) (c : SortedCoins P)

/-- `coinLowestLarger.first`. -/
def lowestLarger : Int64 := c.coinLowestLarger.elim Int64.maxValue (·.1)

/-- One round of the first loop for a coin that is not exactly what is asked for. -/
def add (coin : CoinPair P) : SortedCoins P :=
  if coin.1 < nTargetValue + cent then
    { c with vValue := c.vValue ++ [coin], nTotalLower := c.nTotalLower + coin.1 }
  else if coin.1 < c.lowestLarger then { c with coinLowestLarger := some coin }
  else c

/-- The subset that is found for the smaller coins, and its total. -/
def bestSubset (vValue : List (CoinPair P)) : List Bool × Int64 :=
  let best := approximateBestSubset choices.rand vValue c.nTotalLower nTargetValue 1000
  if best.2 ≠ nTargetValue ∧ nTargetValue + cent ≤ c.nTotalLower then
    approximateBestSubset choices.randAgain vValue c.nTotalLower (nTargetValue + cent) 1000
  else best

/-- What follows the first loop. -/
def select : Bool × CoinsRet P :=
  if c.nTotalLower = nTargetValue then (true, c.vValue.foldl CoinsRet.insert {})
  else if c.nTotalLower < nTargetValue then
    match c.coinLowestLarger with
    | none => (false, {})
    | some coin => (true, CoinsRet.insert {} coin)
  else
    let vValue := choices.sort c.vValue
    let (vfBest, nBest) := c.bestSubset choices nTargetValue vValue
    match c.coinLowestLarger with
    | none => (true, CoinsRet.insertMarked {} vValue vfBest)
    | some coin =>
        if (nBest ≠ nTargetValue ∧ nBest < nTargetValue + cent) ∨ coin.1 ≤ nBest then
          (true, CoinsRet.insert {} coin)
        else (true, CoinsRet.insertMarked {} vValue vfBest)

end SortedCoins

namespace CWallet

variable (env : WalletEnv) (w : CWallet) (nTargetValue : Int64) (nConfMine nConfTheirs : Int)

/-- The first loop, which returns if it finds a coin that is exactly what is asked for. -/
def sortCoins : List (COutput wtx) → SortedCoins P → Except Failure (CoinPair P ⊕ SortedCoins P)
  | [], c => .ok (.inr c)
  | output :: vCoins, c => do
      let fFromMe ← w.isFromMe env (wtx output.tx)
      if output.nDepth < (if fFromMe then nConfMine else nConfTheirs) then sortCoins vCoins c
      else if output.nValue = nTargetValue then return .inl output.coin
      else sortCoins vCoins (c.add nTargetValue output.coin)

def selectCoinsMinConf (choices : SelectionChoices wtx) (vCoins : List (COutput wtx)) :
    Except Failure (Bool × CoinsRet P) := do
  match ← w.sortCoins env nTargetValue nConfMine nConfTheirs (choices.shuffle vCoins) {} with
  | .inl coin => return (true, CoinsRet.insert {} coin)
  | .inr c => return c.select choices nTargetValue

end CWallet

end

end Fedoracoin
