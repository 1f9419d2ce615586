import Fedoracoin.CoinSelection
import Fedoracoin.WalletCredit

/-!
# What `SelectCoinsMinConf` returns

The totals of the search are the sums of what is marked (`SubsetSearch.Sound`), whatever the random
bits are, and the first loop splits the outputs with enough confirmations into smaller and larger
coins (`SortedCoins.Splits`).  `nValueRet` is therefore the sum over `setCoinsRet`, and what is
asked for is found if and only if there is as much: `selectCoinsMinConf_exact`.
-/

namespace Fedoracoin

open RunningSum Selection

variable {P : Type} {wtx : P → CDebitTx} {nTargetValue : Int64} {coin : CoinPair P}
  {coins vValue : List (CoinPair P)}

/-! ## Sums of values -/

def sumValues (coins : List (CoinPair P)) : Int := (coins.map fun coin ↦ coin.1.toInt).sum

@[simp] theorem sumValues_nil : sumValues ([] : List (CoinPair P)) = 0 := rfl

@[simp] theorem sumValues_cons :
    sumValues (coin :: coins) = coin.1.toInt + sumValues coins := List.sum_cons

theorem sumValues_perm (h : coins.Perm vValue) : sumValues coins = sumValues vValue :=
  (h.map _).sum_eq

/-- Coins whose values are not negative and add up to an `int64_t`. -/
structure Countable (coins : List (CoinPair P)) : Prop where
  nonneg : ∀ coin ∈ coins, 0 ≤ coin.1.toInt
  lt : sumValues coins < 2 ^ 63

namespace Countable

theorem sumValues_le (h : Countable vValue) (hsub : coins.Sublist vValue) :
    sumValues coins ≤ sumValues vValue := by
  apply (hsub.map _).sum_le_sum
  intro n hn
  obtain ⟨coin, hcoin, rfl⟩ := List.mem_map.mp hn
  exact h.nonneg coin hcoin

theorem sumValues_nonneg (h : Countable coins) : 0 ≤ sumValues coins :=
  h.sumValues_le (List.nil_sublist _)

theorem of_sublist (h : Countable vValue) (hsub : coins.Sublist vValue) : Countable coins where
  nonneg coin hcoin := h.nonneg coin (hsub.subset hcoin)
  lt := (h.sumValues_le hsub).trans_lt h.lt

theorem of_perm (h : Countable vValue) (hperm : coins.Perm vValue) : Countable coins where
  nonneg coin hcoin := h.nonneg coin (hperm.subset hcoin)
  lt := (sumValues_perm hperm).trans_lt h.lt

theorem le_sumValues (h : Countable coins) (hcoin : coin ∈ coins) :
    coin.1.toInt ≤ sumValues coins := by
  have hle := h.sumValues_le (List.singleton_sublist.mpr hcoin)
  rwa [sumValues_cons, sumValues_nil, add_zero] at hle

/-- Adding a value to the total of the others does not overflow. -/
theorem toInt_add (h : Countable (coin :: coins)) {n : Int64} (hn : n.toInt = sumValues coins) :
    (n + coin.1).toInt = sumValues (coin :: coins) := by
  have hlt := h.lt
  have hpos := h.nonneg coin List.mem_cons_self
  have hrest := (h.of_sublist (List.sublist_cons_self coin coins)).sumValues_nonneg
  rw [sumValues_cons] at hlt ⊢
  rw [RunningSum.toInt_add, hn, Int.add_comm]
  rw [AddOverflows]
  omega

end Countable

/-! ## The search for a subset -/

/-- The two totals are those of what is marked, and the better one reaches the target. -/
structure SubsetSearch.Sound (vValue : List (CoinPair P)) (nTargetValue : Int64)
    (s : SubsetSearch) : Prop where
  length : s.vfIncluded.length = vValue.length
  total : s.nTotal.toInt = sumValues (pick vValue s.vfIncluded)
  best : s.nBest.toInt = sumValues (pick vValue s.vfBest)
  le : nTargetValue ≤ s.nBest

/-- A subset and its total, which reaches the target. -/
structure Reaches (vValue : List (CoinPair P)) (nTargetValue : Int64)
    (best : List Bool × Int64) : Prop where
  sum : best.2.toInt = sumValues (pick vValue best.1)
  le : nTargetValue ≤ best.2

namespace SubsetSearch

variable {s : SubsetSearch} {i : Nat} {best : List Bool × Int64}

/-- A coin that is not included yet is included. -/
theorem Sound.includeCoin (h : s.Sound vValue nTargetValue) (hvalue : Countable vValue)
    (hcoin : vValue[i]? = some coin) (hflag : s.vfIncluded[i]? = some false) :
    (s.includeCoin nTargetValue coin i).Sound vValue nTargetValue := by
  have hperm := pick_set_true hcoin hflag
  have htotal : (s.nTotal + coin.1).toInt =
      sumValues (pick vValue (s.vfIncluded.set i true)) := by
    rw [sumValues_perm hperm]
    exact ((hvalue.of_sublist (pick_sublist _ _)).of_perm hperm.symm).toInt_add h.total
  rw [SubsetSearch.includeCoin]
  split
  case isTrue hreached =>
    refine ⟨?_, ?_, ?_, ?_⟩
    · rw [List.length_set, List.length_set, h.length]
    · dsimp only
      rw [set_true_set_false hflag, Int64.add_sub_cancel, h.total]
    · dsimp only
      split
      · exact htotal
      · exact h.best
    · dsimp only
      split
      · exact hreached
      · exact h.le
  case isFalse => exact ⟨by rw [List.length_set, h.length], htotal, h.best, h.le⟩

/-- The other marks stay. -/
theorem includeCoin_getElem? {j : Nat} (hij : i ≠ j) :
    (s.includeCoin nTargetValue coin i).vfIncluded[j]? = s.vfIncluded[j]? := by
  rw [includeCoin]
  split
  · exact (List.getElem?_set_ne hij).trans (List.getElem?_set_ne hij)
  · exact List.getElem?_set_ne hij

/-- A pass keeps the totals if it takes no coin that is included when its turn comes. -/
theorem Sound.pass (fTake : Nat → SubsetSearch → Bool) (h : s.Sound vValue nTargetValue)
    (hvalue : Countable vValue) (hcoins : vValue.drop i = coins)
    (htake : ∀ j, i ≤ j → j < vValue.length → ∀ s' : SubsetSearch,
      s'.vfIncluded[j]? = s.vfIncluded[j]? → fTake j s' → s.vfIncluded[j]? = some false) :
    (SubsetSearch.pass nTargetValue fTake i coins s).Sound vValue nTargetValue := by
  induction coins generalizing i s with
  | nil => exact h
  | cons coin coins ih =>
    have hcoin : vValue[i]? = some coin := by
      have hget : (vValue.drop i)[0]? = some coin := by rw [hcoins]; rfl
      rwa [List.getElem?_drop] at hget
    have hrest : vValue.drop (i + 1) = coins := by
      rw [← List.tail_drop, hcoins]
      rfl
    have hlt := (List.getElem?_eq_some_iff.mp hcoin).1
    rw [SubsetSearch.pass]
    split
    case isTrue ht =>
      apply ih (h.includeCoin hvalue hcoin (htake i (le_refl i) hlt s rfl ht)) hrest
      intro j hj hjlt s' hs' hj'
      rw [includeCoin_getElem? (by omega)] at hs' ⊢
      exact htake j (by omega) hjlt s' hs' hj'
    case isFalse => exact ih h hrest fun j hj ↦ htake j (by omega)

theorem reaches_rep (rand : Nat → Bool) (hvalue : Countable vValue)
    (h : Reaches vValue nTargetValue best) :
    Reaches vValue nTargetValue (rep nTargetValue rand vValue best) := by
  have hstart : Sound vValue nTargetValue
      { vfIncluded := List.replicate vValue.length false, vfBest := best.1, nBest := best.2 } := by
    refine ⟨List.length_replicate, ?_, h.sum, h.le⟩
    rw [pick_replicate_false]
    rfl
  have hfirst := hstart.pass (fun i _ ↦ rand i) hvalue List.drop_zero
    fun j _ hj _ _ _ ↦ by rw [List.getElem?_replicate, if_pos hj]
  rw [rep]
  split
  case isTrue => exact ⟨hfirst.best, hfirst.le⟩
  case isFalse =>
    have hsecond := hfirst.pass (fun i s ↦ !s.vfIncluded.getD i false) hvalue
      List.drop_zero fun j _ hj s' hs' hfree ↦ by
        rw [List.getD_eq_getElem?_getD, hs'] at hfree
        rw [← hfirst.length] at hj
        rw [List.getElem?_eq_getElem hj] at hfree ⊢
        rw [Bool.not_eq_true', Option.getD_some] at hfree
        rw [hfree]
    exact ⟨hsecond.best, hsecond.le⟩

theorem reaches_reps (rand : Nat → Bool) (hvalue : Countable vValue) {left nRep : Nat}
    (h : Reaches vValue nTargetValue best) :
    Reaches vValue nTargetValue (reps nTargetValue rand vValue left nRep best) := by
  induction left generalizing nRep best with
  | zero => exact h
  | succ left ih =>
    rw [reps]
    split
    · exact h
    · exact ih (reaches_rep _ hvalue h)

end SubsetSearch

/-- The search starts with all coins. -/
theorem reaches_approximateBestSubset (rand : Nat → Bool) (hvalue : Countable vValue)
    {nTotalLower : Int64} (hsum : nTotalLower.toInt = sumValues vValue)
    (hle : nTargetValue ≤ nTotalLower) (iterations : Nat) :
    Reaches vValue nTargetValue
      (approximateBestSubset rand vValue nTotalLower nTargetValue iterations) :=
  SubsetSearch.reaches_reps rand hvalue
    ⟨by rw [pick_replicate_true]; exact hsum, hle⟩

/-! ## The first loop -/

/-- Coins with which the sums of the selection are `int64_t`s. -/
structure Payable (nTargetValue : Int64) (coins : List (CoinPair P)) : Prop where
  target : 0 ≤ nTargetValue.toInt
  nonneg : ∀ coin ∈ coins, 0 ≤ coin.1.toInt
  lt : sumValues coins + nTargetValue.toInt + cent.toInt < 2 ^ 63

theorem toInt_cent : cent.toInt = 1000000 := rfl

namespace Payable

theorem countable (h : Payable nTargetValue coins) : Countable coins where
  nonneg := h.nonneg
  lt := by
    have hlt := h.lt
    have htarget := h.target
    rw [toInt_cent] at hlt
    omega

theorem toInt_target_add (h : Payable nTargetValue coins) :
    (nTargetValue + cent).toInt = nTargetValue.toInt + cent.toInt := by
  have hlt := h.lt
  have htarget := h.target
  have hsum := h.countable.sumValues_nonneg
  rw [toInt_cent] at hlt
  apply RunningSum.toInt_add
  rw [AddOverflows, toInt_cent]
  omega

theorem of_sublist (h : Payable nTargetValue vValue) (hsub : coins.Sublist vValue) :
    Payable nTargetValue coins where
  target := h.target
  nonneg coin hcoin := h.nonneg coin (hsub.subset hcoin)
  lt := by
    have hle := h.countable.sumValues_le hsub
    have hlt := h.lt
    omega

theorem of_perm (h : Payable nTargetValue vValue) (hperm : coins.Perm vValue) :
    Payable nTargetValue coins where
  target := h.target
  nonneg coin hcoin := h.nonneg coin (hperm.subset hcoin)
  lt := sumValues_perm hperm ▸ h.lt

theorem le_target_add (h : Payable nTargetValue coins) :
    nTargetValue ≤ nTargetValue + cent := by
  rw [Int64.le_iff_toInt_le, h.toInt_target_add, toInt_cent]
  omega

/-- `coinLowestLarger` starts above every value. -/
theorem lt_maxValue (h : Payable nTargetValue coins) (hcoin : coin ∈ coins) :
    coin.1 < Int64.maxValue := by
  have hle := h.countable.le_sumValues hcoin
  have hlt := h.lt
  have htarget := h.target
  rw [toInt_cent] at hlt
  rw [Int64.lt_iff_toInt_lt, Int64.toInt_maxValue]
  omega

end Payable

/-- What the first loop has made of the coins so far. -/
structure SortedCoins.Splits (nTargetValue : Int64) (coins : List (CoinPair P))
    (c : SortedCoins P) : Prop where
  lower : c.vValue = coins.filter fun coin ↦ decide (coin.1 < nTargetValue + cent)
  total : c.nTotalLower.toInt = sumValues c.vValue
  none : c.coinLowestLarger = none → ∀ coin ∈ coins, coin.1 < nTargetValue + cent
  some : ∀ coin, c.coinLowestLarger = some coin → coin ∈ coins ∧ nTargetValue + cent ≤ coin.1

namespace SortedCoins

variable {c : SortedCoins P}

theorem splits_nil : Splits nTargetValue [] ({} : SortedCoins P) where
  lower := rfl
  total := rfl
  none _ _ hcoin := absurd hcoin List.not_mem_nil
  some _ h := by cases h

theorem Splits.sublist (h : c.Splits nTargetValue coins) : c.vValue.Sublist coins :=
  h.lower ▸ List.filter_sublist

theorem Splits.add (h : c.Splits nTargetValue coins)
    (hpay : Payable nTargetValue (coins ++ [coin])) :
    (c.add nTargetValue coin).Splits nTargetValue (coins ++ [coin]) := by
  rw [SortedCoins.add]
  split
  case isTrue hlower =>
    have hsub : (c.vValue ++ [coin]).Sublist (coins ++ [coin]) := h.sublist.append_right _
    have hcount : Countable (coin :: c.vValue) :=
      (hpay.countable.of_sublist hsub).of_perm (List.perm_append_singleton _ _).symm
    refine ⟨?_, ?_, fun hnone ↦ ?_, fun larger hlarger ↦ ?_⟩
    · rw [List.filter_append, ← h.lower, List.filter_singleton, decide_eq_true hlower]
      rfl
    · exact (hcount.toInt_add h.total).trans
        (sumValues_perm (List.perm_append_singleton _ _).symm)
    · rw [List.forall_mem_append, List.forall_mem_singleton]
      exact ⟨h.none hnone, hlower⟩
    · obtain ⟨hmem, hle⟩ := h.some larger hlarger
      exact ⟨List.mem_append_left _ hmem, hle⟩
  case isFalse hlarge =>
    have hlower : c.vValue =
        (coins ++ [coin]).filter fun coin ↦ decide (coin.1 < nTargetValue + cent) := by
      rw [List.filter_append, ← h.lower, List.filter_singleton, decide_eq_false hlarge]
      exact (List.append_nil _).symm
    have hmem : coin ∈ coins ++ [coin] := List.mem_append_right _ (List.mem_singleton_self _)
    split
    case isTrue =>
      refine ⟨hlower, h.total, fun hnone ↦ (by cases hnone), fun larger hlarger ↦ ?_⟩
      obtain rfl := Option.some.inj hlarger
      exact ⟨hmem, Int64.not_lt.mp hlarge⟩
    case isFalse hkeep =>
      refine ⟨hlower, h.total, fun hnone ↦ ?_, fun larger hlarger ↦ ?_⟩
      · rw [lowestLarger, hnone] at hkeep
        exact absurd (hpay.lt_maxValue hmem) hkeep
      · obtain ⟨hmem, hle⟩ := h.some larger hlarger
        exact ⟨List.mem_append_left _ hmem, hle⟩

/-- The larger coins are more than is asked for. -/
theorem Splits.le_of_some (h : c.Splits nTargetValue coins) (hpay : Payable nTargetValue coins)
    (hlarger : c.coinLowestLarger = .some coin) : nTargetValue ≤ coin.1 :=
  Int64.le_trans hpay.le_target_add (h.some coin hlarger).2

theorem Splits.reaches_bestSubset (h : c.Splits nTargetValue coins)
    (hpay : Payable nTargetValue coins) (choices : SelectionChoices wtx)
    (hle : nTargetValue ≤ c.nTotalLower) :
    Reaches (choices.sort c.vValue) nTargetValue
      (c.bestSubset choices nTargetValue (choices.sort c.vValue)) := by
  have hperm := choices.sort_perm c.vValue
  have hcount := (hpay.countable.of_sublist h.sublist).of_perm hperm
  have hsum := h.total.trans (sumValues_perm hperm.symm)
  rw [bestSubset]
  split
  case isTrue hagain =>
    have hreach :=
      reaches_approximateBestSubset choices.randAgain hcount hsum hagain.2 1000
    exact ⟨hreach.sum, Int64.le_trans hpay.le_target_add hreach.le⟩
  case isFalse => exact reaches_approximateBestSubset choices.rand hcount hsum hle 1000

end SortedCoins

namespace CWallet

variable (env : WalletEnv) (w : CWallet) (nConfMine nConfTheirs : Int)

/-- Whether an output has enough confirmations. -/
def enoughConf (output : COutput wtx) : Bool :=
  match w.isFromMe env (wtx output.tx) with
  | .ok fFromMe => decide ((if fFromMe then nConfMine else nConfTheirs) ≤ output.nDepth)
  | .error _ => false

/-- The coins among which `SelectCoinsMinConf` chooses. -/
def candidates (vCoins : List (COutput wtx)) : List (CoinPair P) :=
  (vCoins.filter (w.enoughConf env nConfMine nConfTheirs)).map COutput.coin

variable {env w nConfMine nConfTheirs} {output : COutput wtx} {vCoins : List (COutput wtx)}
  {c : SortedCoins P} {r : CoinPair P ⊕ SortedCoins P}

theorem candidates_cons : w.candidates env nConfMine nConfTheirs (output :: vCoins) =
    if w.enoughConf env nConfMine nConfTheirs output then
      output.coin :: w.candidates env nConfMine nConfTheirs vCoins
    else w.candidates env nConfMine nConfTheirs vCoins := by
  rw [candidates, List.filter_cons]
  split <;> rfl

theorem candidates_perm {vCoins' : List (COutput wtx)} (h : vCoins.Perm vCoins') :
    (w.candidates env nConfMine nConfTheirs vCoins).Perm
      (w.candidates env nConfMine nConfTheirs vCoins') :=
  (h.filter _).map _

theorem sumValues_map_coin (vCoins : List (COutput wtx)) :
    sumValues (vCoins.map COutput.coin) = (vCoins.map fun output ↦ output.nValue.toInt).sum := by
  rw [sumValues, List.map_map]
  rfl

theorem candidates_sublist (vCoins : List (COutput wtx)) :
    (w.candidates env nConfMine nConfTheirs vCoins).Sublist (vCoins.map COutput.coin) :=
  List.filter_sublist.map _

/-- The first loop ends with a coin that is exactly what is asked for, or has split all coins. -/
theorem sortCoins_splits (h : c.Splits nTargetValue coins)
    (hpay : Payable nTargetValue (coins ++ w.candidates env nConfMine nConfTheirs vCoins))
    (hr : w.sortCoins env nTargetValue nConfMine nConfTheirs vCoins c = .ok r) :
    r.elim
      (fun coin ↦ coin ∈ w.candidates env nConfMine nConfTheirs vCoins ∧ coin.1 = nTargetValue)
      (SortedCoins.Splits nTargetValue
        (coins ++ w.candidates env nConfMine nConfTheirs vCoins)) := by
  induction vCoins generalizing coins c with
  | nil =>
    obtain rfl := Except.ok.inj hr
    exact (List.append_nil coins).symm ▸ h
  | cons output vCoins ih =>
    obtain ⟨fFromMe, hfrom, hr⟩ := bind_eq_ok.mp hr
    have henough : w.enoughConf env nConfMine nConfTheirs output =
        decide ((if fFromMe then nConfMine else nConfTheirs) ≤ output.nDepth) := by
      rw [enoughConf, hfrom]
    rw [candidates_cons, henough] at hpay ⊢
    by_cases hdepth : output.nDepth < (if fFromMe then nConfMine else nConfTheirs)
    · rw [if_pos hdepth] at hr
      rw [decide_eq_false (Int.not_le.mpr hdepth), if_neg Bool.false_ne_true] at hpay ⊢
      exact ih h hpay hr
    · rw [if_neg hdepth] at hr
      rw [decide_eq_true (Int.not_lt.mp hdepth), if_pos rfl] at hpay ⊢
      split at hr
      case isTrue hexact =>
        obtain rfl := Except.ok.inj hr
        exact ⟨List.mem_cons_self, hexact⟩
      case isFalse =>
        rw [List.append_cons] at hpay
        have hnext := ih (h.add (hpay.of_sublist (List.sublist_append_left _ _))) hpay hr
        cases r with
        | inl coin => exact ⟨List.mem_cons_of_mem _ hnext.1, hnext.2⟩
        | inr c =>
          rw [List.append_cons]
          exact hnext

/-- The first loop throws only where `IsFromMe` does. -/
theorem exists_sortCoins_eq
    (hfrom : ∀ output ∈ vCoins, ∃ fFromMe, w.isFromMe env (wtx output.tx) = .ok fFromMe)
    (c : SortedCoins P) :
    ∃ r, w.sortCoins env nTargetValue nConfMine nConfTheirs vCoins c = .ok r := by
  induction vCoins generalizing c with
  | nil => exact ⟨_, rfl⟩
  | cons output vCoins ih =>
    obtain ⟨fFromMe, hfromMe⟩ := hfrom output List.mem_cons_self
    have hrest := ih fun output houtput ↦ hfrom output (List.mem_cons_of_mem _ houtput)
    rw [sortCoins, hfromMe]
    change ∃ r, (if output.nDepth < (if fFromMe then nConfMine else nConfTheirs) then _
      else if output.nValue = nTargetValue then _ else _) = _
    by_cases hdepth : output.nDepth < (if fFromMe then nConfMine else nConfTheirs)
    · rw [if_pos hdepth]
      exact hrest c
    · rw [if_neg hdepth]
      split
      · exact ⟨_, rfl⟩
      · exact hrest _

end CWallet

/-! ## The coins that are returned -/

/-- The value of an output that a pair leads to. -/
def inputValue (wtx : P → CDebitTx) (input : P × Nat) : Int :=
  ((wtx input.1).tx.vout[input.2]?).elim 0 fun txout ↦ txout.nValue.toInt

theorem inputValue_coin (output : COutput wtx) :
    inputValue wtx output.coin.2 = output.nValue.toInt := by
  rw [inputValue, COutput.coin, List.getElem?_eq_getElem output.i_lt]
  rfl

section

variable [DecidableEq P]

/-- `setCoinsRet` are the coins, and `nValueRet` is their sum. -/
structure CoinsRet.Holds (ret : CoinsRet P) (coins : List (CoinPair P)) : Prop where
  setCoinsRet : ret.setCoinsRet = (coins.map (·.2)).toFinset
  nValueRet : ret.nValueRet.toInt = sumValues coins

namespace CoinsRet

variable {ret : CoinsRet P}

theorem holds_nil : ({} : CoinsRet P).Holds [] := ⟨rfl, rfl⟩

theorem Holds.insert (h : ret.Holds coins) (hcount : Countable (coin :: coins)) :
    (ret.insert coin).Holds (coin :: coins) where
  setCoinsRet := by
    rw [List.map_cons, List.toFinset_cons, ← h.setCoinsRet]
    rfl
  nValueRet := hcount.toInt_add h.nValueRet

theorem Holds.foldl_insert (h : ret.Holds vValue) (hcount : Countable (coins ++ vValue)) :
    (coins.foldl CoinsRet.insert ret).Holds (coins.reverse ++ vValue) := by
  induction coins generalizing ret vValue with
  | nil => exact h
  | cons coin coins ih =>
    have hperm : (coins ++ coin :: vValue).Perm (coin :: coins ++ vValue) := List.perm_middle
    have hcount' := hcount.of_perm hperm
    rw [List.foldl_cons, List.reverse_cons, List.append_assoc]
    exact ih (h.insert (hcount'.of_sublist (List.sublist_append_right _ _))) hcount'

theorem holds_foldl_insert (hcount : Countable coins) :
    (coins.foldl CoinsRet.insert {}).Holds coins := by
  have h : (coins.foldl CoinsRet.insert {}).Holds (coins.reverse ++ []) :=
    holds_nil.foldl_insert (by rwa [List.append_nil])
  rw [List.append_nil] at h
  refine ⟨h.setCoinsRet.trans ?_, h.nValueRet.trans (sumValues_perm (List.reverse_perm _))⟩
  rw [List.map_reverse, List.toFinset_reverse]

theorem insertMarked_eq (ret : CoinsRet P) (vValue : List (CoinPair P)) (vf : List Bool) :
    ret.insertMarked vValue vf = (pick vValue vf).foldl CoinsRet.insert ret := by
  rw [insertMarked]
  induction vValue generalizing vf ret with
  | nil => rfl
  | cons coin vValue ih =>
    cases vf with
    | nil => rfl
    | cons f vf =>
      cases f with
      | false => exact ih ret vf
      | true => exact ih (ret.insert coin) vf

end CoinsRet

/-- What is returned for the coins among which is chosen. -/
structure SelectionOutcome (nTargetValue : Int64) (coins : List (CoinPair P))
    (r : Bool × CoinsRet P) : Prop where
  found_iff : r.1 = true ↔ nTargetValue.toInt ≤ sumValues coins
  pays : r.1 = true → ∃ picked : List (CoinPair P), picked.Subperm coins ∧ r.2.Holds picked ∧
    nTargetValue.toInt ≤ sumValues picked
  empty : r.1 = false → r.2 = {}

namespace SelectionOutcome

variable {ret : CoinsRet P} {picked : List (CoinPair P)}

theorem of_holds (h : ret.Holds picked) (hcount : Countable coins) (hsub : picked.Subperm coins)
    (hle : nTargetValue.toInt ≤ sumValues picked) :
    SelectionOutcome nTargetValue coins (true, ret) where
  found_iff := by
    obtain ⟨picked', hperm, hsub⟩ := hsub
    have hsum := hcount.sumValues_le hsub
    rw [sumValues_perm hperm] at hsum
    exact ⟨fun _ ↦ hle.trans hsum, fun _ ↦ rfl⟩
  pays _ := ⟨picked, hsub, h, hle⟩
  empty hfalse := by cases hfalse

theorem of_coin (hcount : Countable coins) (hcoin : coin ∈ coins)
    (hle : nTargetValue ≤ coin.1) :
    SelectionOutcome nTargetValue coins (true, CoinsRet.insert {} coin) := by
  have hsub : [coin].Sublist coins := List.singleton_sublist.mpr hcoin
  refine of_holds (CoinsRet.holds_nil.insert (hcount.of_sublist hsub)) hcount hsub.subperm ?_
  rw [sumValues_cons, sumValues_nil, add_zero]
  exact Int64.le_iff_toInt_le.mp hle

theorem of_perm {r : Bool × CoinsRet P} (h : SelectionOutcome nTargetValue vValue r)
    (hperm : vValue.Perm coins) : SelectionOutcome nTargetValue coins r where
  found_iff := sumValues_perm hperm ▸ h.found_iff
  pays hfound := by
    obtain ⟨picked, hsub, hholds, hle⟩ := h.pays hfound
    exact ⟨picked, hsub.trans hperm.subperm, hholds, hle⟩
  empty := h.empty

end SelectionOutcome

namespace SortedCoins.Splits

variable {c : SortedCoins P}

/-- The marked coins are returned. -/
theorem outcome_insertMarked (h : c.Splits nTargetValue coins)
    (hpay : Payable nTargetValue coins) (choices : SelectionChoices wtx) {best : List Bool × Int64}
    (hreach : Reaches (choices.sort c.vValue) nTargetValue best) :
    SelectionOutcome nTargetValue coins
      (true, CoinsRet.insertMarked {} (choices.sort c.vValue) best.1) := by
  have hperm := choices.sort_perm c.vValue
  have hpick := pick_sublist (choices.sort c.vValue) best.1
  have hcount := (hpay.countable.of_sublist h.sublist).of_perm hperm
  rw [CoinsRet.insertMarked_eq]
  apply SelectionOutcome.of_holds (CoinsRet.holds_foldl_insert (hcount.of_sublist hpick))
    hpay.countable
  · exact hpick.subperm.trans (hperm.subperm.trans h.sublist.subperm)
  · rw [← hreach.sum]
    exact Int64.le_iff_toInt_le.mp hreach.le

/-- What follows the first loop. -/
theorem outcome_select (h : c.Splits nTargetValue coins) (hpay : Payable nTargetValue coins)
    (choices : SelectionChoices wtx) :
    SelectionOutcome nTargetValue coins (c.select choices nTargetValue) := by
  have hcount := hpay.countable
  rw [select]
  split
  case isTrue hexact =>
    apply SelectionOutcome.of_holds (CoinsRet.holds_foldl_insert (hcount.of_sublist h.sublist))
      hcount h.sublist.subperm
    rw [← h.total, hexact]
  case isFalse =>
    split
    case isTrue hless =>
      split
      case h_1 hnone =>
        -- all coins are smaller ones, and together not enough
        have hall : c.vValue = coins := h.lower.trans (List.filter_eq_self.mpr fun coin hcoin ↦
          decide_eq_true (h.none hnone coin hcoin))
        have hlt := Int64.lt_iff_toInt_lt.mp hless
        rw [h.total, hall] at hlt
        exact ⟨⟨fun hfalse ↦ (by cases hfalse), fun hle ↦ absurd hlt (Int.not_lt.mpr hle)⟩,
          fun hfalse ↦ (by cases hfalse), fun _ ↦ rfl⟩
      case h_2 coin hlarger =>
        exact SelectionOutcome.of_coin hcount (h.some coin hlarger).1 (h.le_of_some hpay hlarger)
    case isFalse hless =>
      have hreach := h.reaches_bestSubset hpay choices (Int64.not_lt.mp hless)
      dsimp only
      split
      case h_1 => exact h.outcome_insertMarked hpay choices hreach
      case h_2 coin hlarger =>
        split
        · exact SelectionOutcome.of_coin hcount (h.some coin hlarger).1 (h.le_of_some hpay hlarger)
        · exact h.outcome_insertMarked hpay choices hreach

end SortedCoins.Splits

/-! ## The selection -/

namespace CWallet

variable {env : WalletEnv} {w : CWallet} {nConfMine nConfTheirs : Int}
  {vCoins : List (COutput wtx)}

/-- The shuffle does not matter. -/
theorem outcome_selectCoinsMinConf {choices : SelectionChoices wtx} {r : Bool × CoinsRet P}
    (hpay : Payable nTargetValue (vCoins.map COutput.coin))
    (hr : w.selectCoinsMinConf env nTargetValue nConfMine nConfTheirs choices vCoins = .ok r) :
    SelectionOutcome nTargetValue (w.candidates env nConfMine nConfTheirs vCoins) r := by
  have hperm : (w.candidates env nConfMine nConfTheirs (choices.shuffle vCoins)).Perm
      (w.candidates env nConfMine nConfTheirs vCoins) :=
    candidates_perm (choices.shuffle_perm vCoins)
  have hpay' : Payable nTargetValue (w.candidates env nConfMine nConfTheirs vCoins) :=
    hpay.of_sublist (candidates_sublist vCoins)
  have hshuffled := hpay'.of_perm hperm
  obtain ⟨found, hfound, hr⟩ := bind_eq_ok.mp hr
  have hsplit := sortCoins_splits SortedCoins.splits_nil hshuffled hfound
  cases found with
  | inl coin =>
    obtain rfl := Except.ok.inj hr
    apply SelectionOutcome.of_coin hpay'.countable (hperm.subset hsplit.1)
    exact hsplit.2 ▸ Int64.le_refl _
  | inr c =>
    obtain rfl := Except.ok.inj hr
    exact (hsplit.outcome_select hshuffled choices).of_perm hperm

/-- Where no coin is there twice, `nValueRet` is what `setCoinsRet` is worth. -/
theorem sum_setCoinsRet {picked : List (CoinPair P)} {ret : CoinsRet P}
    (hdistinct : (vCoins.map fun output ↦ (output.tx, output.i)).Nodup)
    (hsub : picked.Subperm (vCoins.map COutput.coin)) (hholds : ret.Holds picked) :
    ret.nValueRet.toInt = ∑ input ∈ ret.setCoinsRet, inputValue wtx input := by
  have hnodup : (picked.map (·.2)).Nodup := by
    have hall : ((vCoins.map COutput.coin).map (·.2)).Nodup := by rwa [List.map_map]
    obtain ⟨picked', hperm, hsub'⟩ := hsub
    exact (hperm.map _).nodup_iff.mp ((hsub'.map _).nodup hall)
  rw [hholds.nValueRet, hholds.setCoinsRet, List.sum_toFinset _ hnodup, List.map_map]
  apply congrArg List.sum
  apply List.map_congr_left
  intro coin hcoin
  obtain ⟨output, -, rfl⟩ := List.mem_map.mp (hsub.subset hcoin)
  exact (inputValue_coin output).symm

/-- `SelectCoinsMinConf` finds what is asked for if and only if there is as much, and what it
returns is a set of outputs with enough confirmations and their sum. -/
theorem selectCoinsMinConf_exact (env : WalletEnv) (w : CWallet) (nTargetValue : Int64)
    (nConfMine nConfTheirs : Int) (choices : SelectionChoices wtx) (vCoins : List (COutput wtx))
    (htarget : 0 ≤ nTargetValue)
    (hdistinct : (vCoins.map fun output ↦ (output.tx, output.i)).Nodup)
    (hvalue : ∀ output ∈ vCoins, 0 ≤ output.nValue)
    (hlt : (vCoins.map fun output ↦ output.nValue.toInt).sum + nTargetValue.toInt + cent.toInt <
      2 ^ 63) :
    ((∀ output ∈ vCoins, ∃ fFromMe, w.isFromMe env (wtx output.tx) = .ok fFromMe) →
      ∃ r, w.selectCoinsMinConf env nTargetValue nConfMine nConfTheirs choices vCoins = .ok r) ∧
    ∀ fFound ret,
      w.selectCoinsMinConf env nTargetValue nConfMine nConfTheirs choices vCoins =
        .ok (fFound, ret) →
      (fFound = true ↔ nTargetValue.toInt ≤
        ((vCoins.filter (w.enoughConf env nConfMine nConfTheirs)).map
          fun output ↦ output.nValue.toInt).sum) ∧
      (fFound = true →
        (∀ input ∈ ret.setCoinsRet, ∃ output ∈ vCoins,
          w.enoughConf env nConfMine nConfTheirs output = true ∧
            (output.tx, output.i) = input) ∧
        ret.nValueRet.toInt = ∑ input ∈ ret.setCoinsRet, inputValue wtx input ∧
        nTargetValue ≤ ret.nValueRet) ∧
      (fFound = false → ret.setCoinsRet = ∅ ∧ ret.nValueRet = 0) := by
  have hpay : Payable nTargetValue (vCoins.map COutput.coin) := by
    refine ⟨nonneg_iff.mp htarget, ?_, by rwa [sumValues_map_coin]⟩
    rw [List.forall_mem_map]
    exact fun output houtput ↦ nonneg_iff.mp (hvalue output houtput)
  refine ⟨fun hfrom ↦ ?_, fun fFound ret hr ↦ ?_⟩
  · obtain ⟨found, hfound⟩ : ∃ found, w.sortCoins env nTargetValue nConfMine nConfTheirs
        (choices.shuffle vCoins) {} = .ok found :=
      exists_sortCoins_eq (fun output houtput ↦
        hfrom output ((choices.shuffle_perm vCoins).subset houtput)) {}
    rw [selectCoinsMinConf, hfound]
    cases found with
    | inl coin => exact ⟨_, rfl⟩
    | inr c => exact ⟨_, rfl⟩
  · have houtcome := outcome_selectCoinsMinConf hpay hr
    refine ⟨?_, fun hfound ↦ ?_, fun hfound ↦ ?_⟩
    · rw [← sumValues_map_coin]
      exact houtcome.found_iff
    · obtain ⟨picked, hsub, hholds, hle⟩ := houtcome.pays hfound
      have hmem : ∀ coin ∈ picked, ∃ output ∈ vCoins,
          w.enoughConf env nConfMine nConfTheirs output = true ∧ output.coin = coin := by
        intro coin hcoin
        obtain ⟨output, houtput, rfl⟩ := List.mem_map.mp (hsub.subset hcoin)
        obtain ⟨hin, henough⟩ := List.mem_filter.mp houtput
        exact ⟨output, hin, henough, rfl⟩
      refine ⟨fun input hinput ↦ ?_, ?_, ?_⟩
      · rw [hholds.setCoinsRet, List.mem_toFinset, List.mem_map] at hinput
        obtain ⟨coin, hcoin, rfl⟩ := hinput
        obtain ⟨output, houtput, henough, rfl⟩ := hmem coin hcoin
        exact ⟨output, houtput, henough, rfl⟩
      · exact sum_setCoinsRet hdistinct (hsub.trans (candidates_sublist vCoins).subperm) hholds
      · rw [Int64.le_iff_toInt_le, hholds.nValueRet]
        exact hle
    · have hempty := houtcome.empty hfound
      exact ⟨congrArg CoinsRet.setCoinsRet hempty, congrArg CoinsRet.nValueRet hempty⟩

end CWallet

end

/-! Three coins of one, two and five cents, of which three cents are asked for. -/

def centTx (k : Nat) : CDebitTx where
  tx := { vin := [], vout := [⟨Int64.ofNat (1000000 * k), []⟩] }

def centOutputs : List (COutput centTx) := [1, 2, 5].map fun k ↦ ⟨k, 0, 10, Nat.zero_lt_one⟩

/-- The order of the sort. -/
def largerFirst (coin coin' : CoinPair Nat) : Bool := decide (coin'.1 ≤ coin.1)

theorem largerFirst_iff {coin coin' : CoinPair Nat} :
    largerFirst coin coin' = true ↔ coin'.1 ≤ coin.1 := decide_eq_true_iff

theorem largerFirst_trans (a b c : CoinPair Nat) (hab : largerFirst a b = true)
    (hbc : largerFirst b c = true) : largerFirst a c = true := by
  rw [largerFirst_iff] at hab hbc ⊢
  exact Int64.le_trans hbc hab

theorem largerFirst_total (a b : CoinPair Nat) : (largerFirst a b || largerFirst b a) = true := by
  rw [Bool.or_eq_true, largerFirst_iff, largerFirst_iff]
  exact Int64.le_total b.1 a.1

/-- No shuffle, and bits that are all zero. -/
def centChoices : SelectionChoices centTx where
  shuffle vCoins := vCoins
  shuffle_perm _ := .refl _
  sort vValue := vValue.mergeSort largerFirst
  sort_perm vValue := List.mergeSort_perm vValue _
  sort_sorted vValue := (List.pairwise_mergeSort largerFirst_trans largerFirst_total vValue).imp
    largerFirst_iff.mp
  rand _ := false
  randAgain _ := false

theorem selectCoinsMinConf_exact_three_cents :
    ∃ ret : CoinsRet Nat, walletStart.wallet.selectCoinsMinConf walletEnv 3000000 1 6 centChoices
      centOutputs = .ok (true, ret) ∧
      ret.nValueRet.toInt = ∑ input ∈ ret.setCoinsRet, inputValue centTx input ∧
      3000000 ≤ ret.nValueRet := by
  obtain ⟨hreturns, hexact⟩ := CWallet.selectCoinsMinConf_exact walletEnv
    walletStart.wallet 3000000 1 6 centChoices centOutputs (by decide) (by decide) (by decide)
    (by decide)
  obtain ⟨⟨fFound, ret⟩, hret⟩ := hreturns fun output _ ↦ ⟨false, rfl⟩
  obtain ⟨hiff, hpays, -⟩ := hexact fFound ret hret
  have hfound : fFound = true := hiff.mpr (by decide)
  obtain ⟨-, hsum, hle⟩ := hpays hfound
  exact ⟨ret, hfound ▸ hret, hsum, hle⟩

end Fedoracoin
