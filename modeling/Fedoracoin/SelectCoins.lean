import Fedoracoin.CreateConserves

/-!
# `SelectCoins`

What `CreateTransaction` asks of `SelectCoins` it gets, as long as the coins of the wallet are worth
less than `2 ^ 62`.
-/

namespace Fedoracoin

open RunningSum

variable {P : Type} [DecidableEq P] {wtx : P → CDebitTx}

/-- `SelectCoins` for the coins that `AvailableCoins` gives.  `choices` are those of the three
calls, and `fHasSelected` is whether coins are selected by hand. -/
def CWallet.selectCoins (env : WalletEnv) (w : CWallet) (choices : Fin 3 → SelectionChoices wtx)
    (bSpendZeroConfChange fHasSelected : Bool) (vCoins : List (COutput wtx))
    (nTargetValue : Int64) : Except Failure (Bool × CoinsRet P) := do
  -- coin control -> return all selected outputs
  if fHasSelected then
    let ret := (vCoins.map COutput.coin).foldl CoinsRet.insert {}
    return (decide (nTargetValue ≤ ret.nValueRet), ret)
  let r ← w.selectCoinsMinConf env nTargetValue 1 6 (choices 0) vCoins
  if r.1 then return r
  let r ← w.selectCoinsMinConf env nTargetValue 1 1 (choices 1) vCoins
  if r.1 || !bSpendZeroConfChange then return r
  w.selectCoinsMinConf env nTargetValue 0 1 (choices 2) vCoins

/-- Different outputs that are worth less than `2 ^ 62`. -/
structure Funds (vCoins : List (COutput wtx)) : Prop where
  distinct : (vCoins.map fun output ↦ (output.tx, output.i)).Nodup
  nonneg : ∀ output ∈ vCoins, 0 ≤ output.nValue
  lt : sumValues (vCoins.map COutput.coin) < 2 ^ 62

/-- Coins from the wallet that are enough, and their sum. -/
def Picks (vCoins : List (COutput wtx)) (nTargetValue : Int64) (ret : CoinsRet P) : Prop :=
  ∃ picked : List (CoinPair P), picked.Subperm (vCoins.map COutput.coin) ∧ ret.Holds picked ∧
    nTargetValue.toInt ≤ sumValues picked

namespace CWallet

variable {env : WalletEnv} {w : CWallet} {vCoins : List (COutput wtx)} {nTargetValue : Int64}
  {ret : CoinsRet P}

omit [DecidableEq P] in
theorem countable_of_funds (h : Funds vCoins) : Countable (vCoins.map COutput.coin) := by
  refine ⟨?_, h.lt.trans (by decide)⟩
  rw [List.forall_mem_map]
  exact fun output houtput ↦ nonneg_iff.mp (h.nonneg output houtput)

theorem picks_of_minConf (h : Funds vCoins) (htarget : 0 ≤ nTargetValue.toInt)
    (hlt : nTargetValue.toInt + cent.toInt < 2 ^ 62) {nConfMine nConfTheirs : Int}
    {choices : SelectionChoices wtx}
    (hr : w.selectCoinsMinConf env nTargetValue nConfMine nConfTheirs choices vCoins =
      .ok (true, ret)) : Picks vCoins nTargetValue ret := by
  have hpay : Payable nTargetValue (vCoins.map COutput.coin) := by
    have hsum := h.lt
    exact ⟨htarget, (countable_of_funds h).nonneg, by omega⟩
  obtain ⟨picked, hsub, hholds, hle⟩ := (outcome_selectCoinsMinConf hpay hr).pays rfl
  exact ⟨picked, hsub.trans (candidates_sublist vCoins).subperm, hholds, hle⟩

/-- Whichever call finds coins, they are enough. -/
theorem picks_of_selectCoins (h : Funds vCoins) (htarget : 0 ≤ nTargetValue.toInt)
    (hlt : nTargetValue.toInt + cent.toInt < 2 ^ 62) {choices : Fin 3 → SelectionChoices wtx}
    {bSpendZeroConfChange fHasSelected : Bool}
    (hr : w.selectCoins env choices bSpendZeroConfChange fHasSelected vCoins nTargetValue =
      .ok (true, ret)) : Picks vCoins nTargetValue ret := by
  rw [selectCoins] at hr
  split at hr
  case isTrue =>
    obtain ⟨hle, rfl⟩ := Prod.mk.inj (Except.ok.inj hr)
    have hholds := CoinsRet.holds_foldl_insert (countable_of_funds h)
    refine ⟨_, List.Subperm.refl _, hholds, ?_⟩
    rw [← hholds.nValueRet]
    exact Int64.le_iff_toInt_le.mp (of_decide_eq_true hle)
  case isFalse =>
    obtain ⟨⟨fFound, first⟩, hfirst, hr⟩ := bind_eq_ok.mp hr
    cases fFound with
    | true =>
        obtain rfl := congrArg Prod.snd (Except.ok.inj hr)
        exact picks_of_minConf h htarget hlt hfirst
    | false =>
        obtain ⟨⟨fFound, second⟩, hsecond, hr⟩ := bind_eq_ok.mp hr
        cases fFound with
        | true =>
            obtain rfl := congrArg Prod.snd (Except.ok.inj hr)
            exact picks_of_minConf h htarget hlt hsecond
        | false =>
            cases bSpendZeroConfChange with
            | false => cases hr
            | true => exact picks_of_minConf h htarget hlt hr

end CWallet

/-- **The contract.**  Where the coins of a round are those that `SelectCoins` returns, they are
what `CreateTransaction` asks for. -/
theorem contract_of_selectCoins {env : CreateEnv P} {calls : CreateCalls env}
    {walletEnv : WalletEnv} {w : CWallet} {choices : Fin 3 → SelectionChoices env.wtx}
    {bSpendZeroConfChange fHasSelected : Bool} {vCoins : List (COutput env.wtx)}
    (h : Funds vCoins)
    (hcalls : ∀ nTargetValue coins, calls.selectCoins nTargetValue = some coins → ∃ ret,
      w.selectCoins walletEnv choices bSpendZeroConfChange fHasSelected vCoins nTargetValue =
        .ok (true, ret) ∧
      coins.setCoins.toFinset = ret.setCoinsRet ∧ coins.nValueIn = ret.nValueRet) :
    calls.Contract := by
  intro nTargetValue coins htarget hlt hcoins
  obtain ⟨ret, hr, hset, hvalue⟩ := hcalls nTargetValue coins hcoins
  obtain ⟨picked, hsub, hholds, hle⟩ := CWallet.picks_of_selectCoins h htarget hlt hr
  refine ⟨?_, ?_, ?_⟩
  · rw [Int64.le_iff_toInt_le, hvalue, hholds.nValueRet]
    exact hle
  · rw [hvalue, CWallet.sum_setCoinsRet h.distinct hsub hholds, ← hset,
      List.sum_toFinset _ coins.nodup]
  · obtain ⟨picked', hperm, hsub'⟩ := hsub
    rw [hvalue, hholds.nValueRet, ← sumValues_perm hperm]
    exact ((CWallet.countable_of_funds h).sumValues_le hsub').trans_lt h.lt

end Fedoracoin
