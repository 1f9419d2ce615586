import Fedoracoin.Balance
import Fedoracoin.Lib.DoubleEntry

/-!
# The two balances

`getbalance` says that `getbalance '*' 0` should return the same number as `GetBalance`.  An output
that is spent by a transaction that is not trusted, though, is left out by `GetBalance` and
counted by the other, and so on: `balances_agree_iff` says when the numbers are the same.
-/

namespace Fedoracoin

open RunningSum DoubleEntry

/-! ## Sums over a transaction -/

/-- The amounts of the outputs for which `p`. -/
def CTransaction.outputSum (tx : CTransaction) (p : CTxOut → Nat → Bool) : Int :=
  (tx.vout.zipIdx.map fun (txout, i) ↦ if p txout i then txout.nValue.toInt else 0).sum

namespace CWallet

variable (env : AddressEnv) (w : CWallet) (c : ChainView)

/-- What the inputs take from outputs of the wallet. -/
def inputSum (tx : CTransaction) : Int :=
  (tx.vin.map fun txin ↦ (w.getDebitIn env.toWalletEnv txin).toInt).sum

/-- `IsSpent` of an output of a transaction. -/
def isSpentOut (tx : CTransaction) (i : Nat) : Bool :=
  w.isSpent env.toWalletEnv c ⟨env.node.getTxHash tx, i⟩

/-- The outputs that are ours and not spent. -/
def unspentSum (tx : CTransaction) : Int :=
  tx.outputSum fun txout i ↦ env.isMine txout.scriptPubKey && !w.isSpentOut env c tx i

/-- What is missing from a cached credit. -/
def staleCredit (wtx : CWalletTx) : Int :=
  if wtx.fAvailableCreditCached then
    w.unspentSum env c wtx.tx - wtx.nAvailableCreditCached.toInt
  else 0

/-- What a cached debit has too much; one that is negative counts for nothing. -/
def staleDebit (wtx : CDebitTx) : Int :=
  if wtx.fDebitCached && !wtx.tx.vin.isEmpty then
    max 0 wtx.nDebitCached.toInt - w.inputSum env wtx.tx
  else 0

/-- The outputs of a transaction from us that go to a destination of the wallet that has no name,
though they are not ours. -/
def otherChange (mapAddressBook : Finset CTxDestination) (wtx : CDebitTx) : Int :=
  if (w.isFromMe env.toWalletEnv wtx).toOption = some true then
    wtx.tx.outputSum fun txout _ ↦
      isChange env mapAddressBook txout && !env.isMine txout.scriptPubKey
  else 0

end CWallet

namespace BalanceWallet

variable (env : AddressEnv) (w : BalanceWallet) (c : BalanceView)

/-- Both loops count the transaction. -/
def isCounted (item : Uint256 × CSharedTx) : Bool :=
  decide ((w.isTrusted env c item.2.toCDebitTx).toOption = some true) &&
    decide (¬ 0 < c.getBlocksToMaturity env.toWalletEnv item.2.toCMerkleTx)

def counted : List (Uint256 × CSharedTx) := w.sharedItems.filter (w.isCounted env c)

/-- The outputs of a transaction; one that is not ours comes to nothing. -/
def entries (item : Uint256 × CSharedTx) : List (DoubleEntry.Entry COutPoint) :=
  item.2.tx.vout.zipIdx.map fun (txout, i) ↦
    { key := ⟨item.1, i⟩
      value := if env.isMine txout.scriptPubKey then txout.nValue.toInt else 0
      opened := w.isCounted env c item
      closed := w.isSpentOut env c.toChainView item.2.tx i }

def book : List (DoubleEntry.Entry COutPoint) := w.sharedItems.flatMap (w.entries env c)

/-- What the transactions that are counted spend. -/
def closings : List COutPoint :=
  (w.counted env c).flatMap fun item ↦ item.2.tx.vin.map CTxIn.prevout

/-- `getbalance '*' 0` and `GetBalance` return the same number. -/
def BalancesAgree : Prop :=
  ∃ nBalance, w.getBalanceOfAll env c 0 = .ok nBalance ∧ w.getBalance env c = .ok nBalance

/-- No amount that is looked at is out of range, and what is counted and spent, but by nothing that
is counted, makes up for what is spent without being counted. -/
structure Settled : Prop where
  trusts : ∀ item ∈ w.sharedItems,
    ∃ fTrusted, w.isTrusted env c item.2.toCDebitTx = .ok fTrusted
  debits : ∀ item ∈ w.counted env c,
    ∃ fFromMe, w.isFromMe env.toWalletEnv item.2.toCDebitTx = .ok fFromMe
  outputs : ∀ item ∈ w.counted env c,
    w.isFromMe env.toWalletEnv item.2.toCDebitTx = .ok true →
      (∀ txout ∈ item.2.tx.vout, 0 ≤ txout.nValue) ∧
        (item.2.tx.outputSum fun _ _ ↦ true) < 2 ^ 63
  credits : ∀ item ∈ w.counted env c, item.2.fAvailableCreditCached = false →
    (∀ txout i, (txout, i) ∈ item.2.tx.vout.zipIdx →
      w.isSpentOut env c.toChainView item.2.tx i = false → 0 ≤ txout.nValue) ∧
      w.unspentSum env c.toChainView item.2.tx < 2 ^ 63
  value :
    unnamed (w.book env c) (w.closings env c) +
        ((w.counted env c).map fun item ↦
          w.otherChange env w.mapAddressBook item.2.toCDebitTx).sum +
        ((w.counted env c).map fun item ↦
          w.staleCredit env c.toChainView item.2.toCWalletTx).sum ≡
      excess (w.book env c) (w.closings env c) +
        ((w.counted env c).map fun item ↦ w.staleDebit env item.2.toCDebitTx).sum [ZMOD 2 ^ 64]

end BalanceWallet

/-! ## What a transaction brings -/

theorem CTransaction.outputSum_eq (tx : CTransaction) (p : CTxOut → Bool) :
    (tx.outputSum fun txout _ ↦ p txout) =
      (tx.vout.map fun txout ↦ if p txout then txout.nValue.toInt else 0).sum := by
  have hmap : (tx.vout.zipIdx.map fun (txout, _) ↦ if p txout then txout.nValue.toInt else 0) =
      (tx.vout.zipIdx.map Prod.fst).map fun txout ↦ if p txout then txout.nValue.toInt else 0 := by
    rw [List.map_map]
    rfl
  rw [outputSum, hmap, List.zipIdx_map_fst]

namespace CWallet

variable {env : AddressEnv} {w : CWallet} {c : ChainView} {wtx : CDebitTx} {tx : CTransaction}
  {mapAddressBook : Finset CTxDestination} {strFromAccount : String} {nDebit : Int64}
  {amounts : TxAmounts}

/-- The loop of `GetDebit`. -/
def debitTally (env : AddressEnv) (w : CWallet) : Tally CTxIn Failure where
  value txin := w.getDebitIn env.toWalletEnv txin
  before _ := .ok ()
  after _ nDebit :=
    failIf (!moneyRange nDebit) (.exception "CWallet::GetDebit() : value out of range")

theorem getDebit_eq_run : w.getDebit env.toWalletEnv tx = (debitTally env w).run 0 tx.vin :=
  (debitTally env w).foldlM_eq_run tx.vin 0

theorem nonneg_of_run_debitTally {vin : List CTxIn} {acc : Int64} (hacc : 0 ≤ acc)
    (h : (debitTally env w).run acc vin = .ok nDebit) : 0 ≤ nDebit := by
  induction vin generalizing acc with
  | nil =>
      rw [← Except.ok.inj h]
      exact hacc
  | cons txin vin ih =>
      obtain ⟨-, hafter, h⟩ := Tally.run_cons_eq_ok _ |>.mp h
      have hrange := failIf_eq_ok.mp hafter
      rw [Bool.not_eq_false', moneyRange_iff] at hrange
      exact ih hrange h

/-- What `GetDebit` takes away, with a cache that may be stale. -/
theorem getDebitCached_modEq (h : w.getDebitCached env.toWalletEnv wtx = .ok nDebit) :
    max 0 nDebit.toInt ≡ w.inputSum env wtx.tx + w.staleDebit env wtx [ZMOD 2 ^ 64] := by
  rw [getDebitCached] at h
  rw [staleDebit]
  split at h
  case isTrue hempty =>
    rw [← Except.ok.inj h, hempty, inputSum, List.isEmpty_iff.mp hempty]
    simp
  case isFalse hempty =>
    rw [Bool.not_eq_true] at hempty
    rw [hempty]
    split at h
    case isTrue hcached =>
      rw [← Except.ok.inj h, hcached]
      simp
    case isFalse hcached =>
      rw [Bool.not_eq_true] at hcached
      rw [getDebit_eq_run] at h
      have hnonneg := nonneg_iff.mp (nonneg_of_run_debitTally (by decide) h)
      have hmod := (debitTally env w).run_modEq h
      rw [Int64.toInt_zero, zero_add] at hmod
      rw [hcached, max_eq_right hnonneg, Bool.false_and, if_neg Bool.false_ne_true, add_zero]
      exact hmod

theorem isFromMe_eq_ok {fFromMe : Bool} : w.isFromMe env.toWalletEnv wtx = .ok fFromMe ↔
    ∃ nDebit, w.getDebitCached env.toWalletEnv wtx = .ok nDebit ∧
      decide (0 < nDebit) = fFromMe := by
  rw [isFromMe, bind_eq_ok]
  exact exists_congr fun nDebit ↦ and_congr_right fun _ ↦
    ⟨Except.ok.inj, congrArg Except.ok⟩

end CWallet

/-- What is received, less what is sent. -/
def TxAmounts.net (amounts : TxAmounts) : Int :=
  (amounts.listReceived.map fun r ↦ r.2.toInt).sum - (amounts.listSent.map fun r ↦ r.2.toInt).sum

namespace CWallet

variable {env : AddressEnv} {w : CWallet} {c : ChainView} {wtx : CDebitTx} {tx : CTransaction}
  {mapAddressBook : Finset CTxDestination} {strFromAccount : String} {nDebit : Int64}
  {amounts : TxAmounts}

/-- What an output adds to what is received, less what is sent. -/
def netOut (env : AddressEnv) (mapAddressBook : Finset CTxDestination) (nDebit : Int64)
    (txout : CTxOut) : Int :=
  if 0 < nDebit then
    if isChange env mapAddressBook txout then 0
    else (if env.isMine txout.scriptPubKey then txout.nValue.toInt else 0) - txout.nValue.toInt
  else if env.isMine txout.scriptPubKey then txout.nValue.toInt else 0

theorem addAmounts_spec (env : AddressEnv) (mapAddressBook : Finset CTxDestination)
    (nDebit : Int64) (amounts : TxAmounts) (txout : CTxOut) :
    (addAmounts env mapAddressBook nDebit amounts txout).net =
        amounts.net + netOut env mapAddressBook nDebit txout ∧
      (addAmounts env mapAddressBook nDebit amounts txout).nFee = amounts.nFee := by
  rw [addAmounts, netOut]
  by_cases hdebit : 0 < nDebit
  · simp only [if_pos hdebit]
    cases isChange env mapAddressBook txout with
    | true => exact ⟨(add_zero _).symm, rfl⟩
    | false =>
        refine ⟨?_, rfl⟩
        cases env.isMine txout.scriptPubKey with
        | true => simp [TxAmounts.net]
        | false => simp [TxAmounts.net]; ring
  · simp only [if_neg hdebit]
    cases env.isMine txout.scriptPubKey with
    | false => exact ⟨(add_zero _).symm, rfl⟩
    | true =>
        refine ⟨?_, rfl⟩
        simp [TxAmounts.net]
        ring

theorem foldl_addAmounts_spec (env : AddressEnv) (mapAddressBook : Finset CTxDestination)
    (nDebit : Int64) (vout : List CTxOut) (amounts : TxAmounts) :
    (vout.foldl (addAmounts env mapAddressBook nDebit) amounts).net =
        amounts.net + (vout.map (netOut env mapAddressBook nDebit)).sum ∧
      (vout.foldl (addAmounts env mapAddressBook nDebit) amounts).nFee = amounts.nFee := by
  induction vout generalizing amounts with
  | nil => exact ⟨(add_zero _).symm, rfl⟩
  | cons txout vout ih =>
      obtain ⟨hnet, hfee⟩ := addAmounts_spec env mapAddressBook nDebit amounts txout
      obtain ⟨hnet', hfee'⟩ := ih (addAmounts env mapAddressBook nDebit amounts txout)
      rw [List.foldl_cons, List.map_cons, List.sum_cons]
      exact ⟨by rw [hnet', hnet, add_assoc], hfee'.trans hfee⟩

theorem otherChange_eq {fFromMe : Bool} (h : w.isFromMe env.toWalletEnv wtx = .ok fFromMe) :
    w.otherChange env mapAddressBook wtx =
      if fFromMe then
        wtx.tx.outputSum fun txout _ ↦
          isChange env mapAddressBook txout && !env.isMine txout.scriptPubKey
      else 0 := by
  rw [otherChange, h]
  cases fFromMe <;> rfl

/-- For a transaction from us, with the fee, the outputs that are reported make up for the others,
but for change that is not ours. -/
theorem sum_netOut (env : AddressEnv) (mapAddressBook : Finset CTxDestination)
    (tx : CTransaction) (hdebit : 0 < nDebit) :
    (tx.vout.map (netOut env mapAddressBook nDebit)).sum + tx.outputSum (fun _ _ ↦ true) =
      (tx.outputSum fun txout _ ↦ env.isMine txout.scriptPubKey) +
        tx.outputSum fun txout _ ↦
          isChange env mapAddressBook txout && !env.isMine txout.scriptPubKey := by
  rw [tx.outputSum_eq fun _ ↦ true, tx.outputSum_eq fun txout ↦ env.isMine txout.scriptPubKey,
    tx.outputSum_eq fun txout ↦
      isChange env mapAddressBook txout && !env.isMine txout.scriptPubKey,
    ← List.sum_map_add, ← List.sum_map_add]
  refine congrArg List.sum (List.map_congr_left fun txout _ ↦ ?_)
  rw [netOut, if_pos hdebit, if_pos rfl]
  cases isChange env mapAddressBook txout with
  | true => cases env.isMine txout.scriptPubKey <;> simp
  | false => cases env.isMine txout.scriptPubKey <;> simp

theorem sum_netOut_of_not (env : AddressEnv) (mapAddressBook : Finset CTxDestination)
    (tx : CTransaction) (hdebit : ¬ 0 < nDebit) :
    (tx.vout.map (netOut env mapAddressBook nDebit)).sum =
      tx.outputSum fun txout _ ↦ env.isMine txout.scriptPubKey := by
  rw [tx.outputSum_eq fun txout ↦ env.isMine txout.scriptPubKey]
  refine congrArg List.sum (List.map_congr_left fun txout _ ↦ ?_)
  rw [netOut, if_neg hdebit]

theorem exists_valueOut_iff : (∃ nValueOut, tx.valueOut = .ok nValueOut) ↔
    (∀ txout ∈ tx.vout, 0 ≤ txout.nValue) ∧ (tx.outputSum fun _ _ ↦ true) < 2 ^ 63 := by
  simp only [CTransaction.valueOut_eq_ok]
  rw [CTransaction.getValueOut, CTransaction.valueOutTally_guarded.exists_run_iff (by decide),
    Int64.toInt_zero, zero_add, tx.outputSum_eq fun _ ↦ true]
  refine and_congr (forall₂_congr fun txout _ ↦ ?_) Iff.rfl
  exact ⟨fun h ↦ h.2, fun h ↦ ⟨rfl, h⟩⟩

theorem toInt_valueOut {nValueOut : Int64} (h : tx.valueOut = .ok nValueOut) :
    nValueOut.toInt = tx.outputSum fun _ _ ↦ true := by
  rw [tx.outputSum_eq fun _ ↦ true]
  exact (CTransaction.getValueOut_ok (CTransaction.valueOut_eq_ok.mp h)).1

/-- `GetAmounts` returns, unless `GetDebit` or `GetValueOut` throws. -/
theorem exists_getAmounts_iff (env : AddressEnv) (w : CWallet)
    (mapAddressBook : Finset CTxDestination) (strFromAccount : String) (wtx : CDebitTx) :
    (∃ amounts, w.getAmounts env mapAddressBook strFromAccount wtx = .ok amounts) ↔
      (∃ fFromMe, w.isFromMe env.toWalletEnv wtx = .ok fFromMe) ∧
        (w.isFromMe env.toWalletEnv wtx = .ok true →
          ∃ nValueOut, wtx.tx.valueOut = .ok nValueOut) := by
  rw [getAmounts, isFromMe]
  cases w.getDebitCached env.toWalletEnv wtx with
  | error e =>
      constructor
      · rintro ⟨amounts, h⟩
        cases h
      · rintro ⟨⟨fFromMe, h⟩, -⟩
        cases h
  | ok nDebit =>
      show (∃ amounts, (if 0 < nDebit then _ else _) = Except.ok amounts) ↔ _
      by_cases hdebit : 0 < nDebit
      · rw [if_pos hdebit]
        constructor
        · rintro ⟨amounts, h⟩
          obtain ⟨nValueOut, hvalue, -⟩ := bind_eq_ok.mp h
          exact ⟨⟨_, rfl⟩, fun _ ↦ ⟨nValueOut, hvalue⟩⟩
        · rintro ⟨-, h⟩
          obtain ⟨nValueOut, hvalue⟩ := h (congrArg Except.ok (decide_eq_true hdebit))
          exact ⟨_, bind_eq_ok.mpr ⟨nValueOut, hvalue, rfl⟩⟩
      · rw [if_neg hdebit]
        refine ⟨fun _ ↦ ⟨⟨_, rfl⟩, fun h ↦ ?_⟩, fun _ ↦ ⟨_, rfl⟩⟩
        exact absurd (of_decide_eq_true (Except.ok.inj h)) hdebit

/-- **What a transaction brings.**  It is what its outputs give to the wallet, less what its inputs
take from it. -/
theorem getAmounts_modEq
    (h : w.getAmounts env mapAddressBook strFromAccount wtx = .ok amounts) :
    amounts.net - amounts.nFee.toInt ≡
      (wtx.tx.outputSum fun txout _ ↦ env.isMine txout.scriptPubKey) +
        w.otherChange env mapAddressBook wtx -
        (w.inputSum env wtx.tx + w.staleDebit env wtx) [ZMOD 2 ^ 64] := by
  obtain ⟨nDebit, hread, h⟩ := bind_eq_ok.mp h
  have hmod := getDebitCached_modEq hread
  rw [otherChange_eq (isFromMe_eq_ok.mpr ⟨nDebit, hread, rfl⟩)]
  by_cases hdebit : 0 < nDebit
  · rw [decide_eq_true hdebit, if_pos rfl]
    rw [if_pos hdebit] at h
    obtain ⟨nValueOut, hvalue, h⟩ := bind_eq_ok.mp h
    obtain ⟨hnet, hfee⟩ := foldl_addAmounts_spec env mapAddressBook nDebit wtx.tx.vout
      { nFee := nDebit - nValueOut, strSentAccount := strFromAccount }
    have hsum := sum_netOut env mapAddressBook wtx.tx hdebit
    have hfee' := toInt_sub_modEq nDebit nValueOut
    rw [max_eq_right (by rw [Int64.lt_iff_toInt_lt] at hdebit; exact hdebit.le)] at hmod
    rw [toInt_valueOut hvalue] at hfee'
    obtain rfl := Except.ok.inj h
    rw [hnet, hfee, show TxAmounts.net _ = 0 from rfl, zero_add, ← hsum]
    calc _ ≡ (wtx.tx.vout.map (netOut env mapAddressBook nDebit)).sum -
          (nDebit.toInt - wtx.tx.outputSum fun _ _ ↦ true) [ZMOD 2 ^ 64] := hfee'.sub_left _
      _ = (wtx.tx.vout.map (netOut env mapAddressBook nDebit)).sum +
          (wtx.tx.outputSum fun _ _ ↦ true) - nDebit.toInt := by ring
      _ ≡ _ [ZMOD 2 ^ 64] := hmod.sub_left _
  · rw [decide_eq_false hdebit, if_neg Bool.false_ne_true, add_zero]
    rw [if_neg hdebit] at h
    obtain ⟨hnet, hfee⟩ := foldl_addAmounts_spec env mapAddressBook nDebit wtx.tx.vout
      { strSentAccount := strFromAccount }
    rw [max_eq_left (by rw [Int64.lt_iff_toInt_lt] at hdebit; exact not_lt.mp hdebit)] at hmod
    obtain rfl := Except.ok.inj h
    rw [hnet, hfee, show TxAmounts.net _ = 0 from rfl, zero_add,
      sum_netOut_of_not env mapAddressBook wtx.tx hdebit]
    exact hmod.sub_left _

/-! ## The available credit -/

/-- The loop of `GetAvailableCredit` over the outputs that are not spent. -/
def availableTally (env : AddressEnv) : Tally (CTxOut × Nat) Failure where
  value p := if env.isMine p.1.scriptPubKey then p.1.nValue else 0
  before p :=
    failIf (!moneyRange p.1.nValue) (.exception "CWallet::GetCredit() : value out of range")
  after _ nCredit :=
    failIf (!moneyRange nCredit)
      (.exception "CWalletTx::GetAvailableCredit() : value out of range")

theorem before_availableTally {p : CTxOut × Nat} :
    (availableTally env).before p = .ok () ↔ 0 ≤ p.1.nValue := by
  rw [availableTally, failIf_eq_ok, Bool.not_eq_false', moneyRange_iff]

theorem value_availableTally (env : AddressEnv) {p : CTxOut × Nat} (h : 0 ≤ p.1.nValue) :
    0 ≤ (availableTally env).value p := by
  rw [availableTally]
  dsimp only
  split
  · exact h
  · decide

theorem availableTally_guarded : (availableTally env).Guarded := by
  intro p nCredit hbefore
  have hvalue := value_availableTally env (before_availableTally.mp hbefore)
  rw [show (availableTally env).after p nCredit = failIf (!moneyRange nCredit) _ from rfl,
    failIf_eq_ok, Bool.not_eq_false', moneyRange_iff]
  exact ⟨fun h ↦ ⟨hvalue, h⟩, fun h ↦ h.2⟩

theorem availableCredit_eq_run :
    w.availableCredit env.toWalletEnv c tx =
      (availableTally env).run 0
        (tx.vout.zipIdx.filter fun p ↦ !w.isSpentOut env c tx p.2) := by
  rw [← Tally.foldlM_eq_run, List.foldlM_filter, availableCredit]
  refine congrArg (fun f ↦ tx.vout.zipIdx.foldlM f 0) ?_
  funext nCredit p
  obtain ⟨txout, i⟩ := p
  dsimp only
  rw [isSpentOut, getCredit, availableTally]
  dsimp only
  cases w.isSpent env.toWalletEnv c ⟨env.node.getTxHash tx, i⟩ with
  | true => rfl
  | false =>
      cases moneyRange txout.nValue with
      | true => rfl
      | false => rfl

theorem exact_availableTally : (availableTally env).exact
    (tx.vout.zipIdx.filter fun p ↦ !w.isSpentOut env c tx p.2) = w.unspentSum env c tx := by
  rw [Tally.exact, sum_map_filter, unspentSum, CTransaction.outputSum]
  refine congrArg List.sum (List.map_congr_left fun p _ ↦ ?_)
  obtain ⟨txout, i⟩ := p
  dsimp only
  rw [availableTally]
  dsimp only
  cases env.isMine txout.scriptPubKey with
  | true => rw [Bool.true_and, if_pos rfl]
  | false =>
      rw [Bool.false_and, if_neg Bool.false_ne_true, if_neg Bool.false_ne_true, Int64.toInt_zero,
        ite_self]

/-- The credit is available, unless an output that is not spent has no amount. -/
theorem exists_availableCredit_iff :
    (∃ nCredit, w.availableCredit env.toWalletEnv c tx = .ok nCredit) ↔
      (∀ txout i, (txout, i) ∈ tx.vout.zipIdx → w.isSpentOut env c tx i = false →
        0 ≤ txout.nValue) ∧ w.unspentSum env c tx < 2 ^ 63 := by
  rw [availableCredit_eq_run, availableTally_guarded.exists_run_iff (by decide), Int64.toInt_zero,
    zero_add, exact_availableTally]
  refine and_congr_left fun _ ↦ ?_
  constructor
  · intro h txout i hmem hspent
    exact before_availableTally.mp
      (h (txout, i) (List.mem_filter.mpr ⟨hmem, by rw [hspent]; rfl⟩)).1
  · rintro h ⟨txout, i⟩ hmem
    obtain ⟨hmem, hspent⟩ := List.mem_filter.mp hmem
    have hnonneg := h txout i hmem (Bool.not_eq_true' _ ▸ hspent)
    exact ⟨before_availableTally.mpr hnonneg, value_availableTally env hnonneg⟩

theorem toInt_availableCredit {nCredit : Int64}
    (h : w.availableCredit env.toWalletEnv c tx = .ok nCredit) :
    nCredit.toInt = w.unspentSum env c tx := by
  rw [availableCredit_eq_run] at h
  rw [(availableTally_guarded.run_ok (by decide) h).1, exact_availableTally, Int64.toInt_zero,
    zero_add]

end CWallet

/-! ## The rounds of the loops -/

namespace BalanceWallet

variable {env : AddressEnv} {w : BalanceWallet} {c : BalanceView} {item : Uint256 × CSharedTx}
  {fTrusted : Bool}

theorem trusted_of_isCounted (h : w.isCounted env c item = true) :
    w.isTrusted env c item.2.toCDebitTx = .ok true := by
  have htrusted := of_decide_eq_true (Bool.and_eq_true_iff.mp h).1
  cases hread : w.isTrusted env c item.2.toCDebitTx with
  | error e =>
      rw [hread] at htrusted
      cases htrusted
  | ok fTrusted =>
      rw [hread] at htrusted
      rw [Option.some.inj htrusted]

theorem depth_of_isTrusted {wtx : CDebitTx} (h : w.isTrusted env c wtx = .ok true) :
    0 ≤ c.getDepthInMainChain env.toWalletEnv wtx.toCMerkleTx := by
  rw [CWallet.isTrusted] at h
  by_contra hdepth
  rw [if_neg (show ¬ 1 ≤ c.getDepthInMainChain env.toWalletEnv wtx.toCMerkleTx by omega),
    if_pos (not_le.mp hdepth)] at h
  split at h
  · cases h
  · cases h

/-- A round of either loop: it asks `IsTrusted`, and adds `read` if the transaction counts. -/
def round (env : AddressEnv) (w : BalanceWallet) (c : BalanceView) (item : Uint256 × CSharedTx)
    {α : Type} (read : Except Failure α) (add : α → Int64) (nSum : Int64) :
    Except Failure Int64 := do
  let _ ← w.isTrusted env c item.2.toCDebitTx
  if w.isCounted env c item then
    let a ← read
    return add a
  else return nSum

section Round

variable {α : Type} {read : Except Failure α} {add : α → Int64} {nSum r : Int64}

theorem round_eq_ok (h : w.round env c item read add nSum = .ok r) :
    if w.isCounted env c item then ∃ a, read = .ok a ∧ r = add a else r = nSum := by
  obtain ⟨fTrusted, htrusted, h⟩ := bind_eq_ok.mp h
  split at h
  case isTrue hcounted =>
    obtain ⟨a, ha, h⟩ := bind_eq_ok.mp h
    rw [if_pos hcounted]
    exact ⟨a, ha, (Except.ok.inj h).symm⟩
  case isFalse hcounted =>
    rw [if_neg hcounted]
    exact (Except.ok.inj h).symm

theorem round_returns_iff : (∃ r, w.round env c item read add nSum = .ok r) ↔
    (∃ fTrusted, w.isTrusted env c item.2.toCDebitTx = .ok fTrusted) ∧
      (w.isCounted env c item = true → ∃ a, read = .ok a) := by
  constructor
  · rintro ⟨r, h⟩
    refine ⟨?_, fun hcounted ↦ ?_⟩
    · obtain ⟨fTrusted, htrusted, -⟩ := bind_eq_ok.mp h
      exact ⟨fTrusted, htrusted⟩
    · have hread := round_eq_ok h
      rw [if_pos hcounted] at hread
      obtain ⟨a, ha, -⟩ := hread
      exact ⟨a, ha⟩
  · rintro ⟨⟨fTrusted, htrusted⟩, h⟩
    rw [round, htrusted]
    by_cases hcounted : w.isCounted env c item = true
    · obtain ⟨a, rfl⟩ := h hcounted
      exact ⟨add a, if_pos hcounted⟩
    · exact ⟨nSum, if_neg hcounted⟩

end Round

theorem addFlows_modEq {nMinDepth nDepth : Int} (hdepth : nMinDepth ≤ nDepth)
    (amounts : TxAmounts) (nBalance : Int64) :
    (addFlows nMinDepth nDepth amounts nBalance).toInt ≡
      nBalance.toInt + (amounts.net - amounts.nFee.toInt) [ZMOD 2 ^ 64] := by
  rw [addFlows, if_pos hdepth]
  have hreceived := toInt_foldl_add_modEq (fun r : CTxDestination × Int64 ↦ r.2)
    amounts.listReceived nBalance
  have hsent := toInt_foldl_sub_modEq (fun r : CTxDestination × Int64 ↦ r.2) amounts.listSent
    (amounts.listReceived.foldl (fun nBalance r ↦ nBalance + r.2) nBalance)
  have hrest := hsent.trans (hreceived.sub_right _)
  refine (toInt_sub_modEq _ _).trans ((hrest.sub_right _).trans ?_)
  rw [TxAmounts.net, add_sub_assoc', add_sub_assoc']

/-- What a round of `getbalance '*' 0` adds. -/
def flowOf (env : AddressEnv) (w : BalanceWallet) (c : BalanceView) (item : Uint256 × CSharedTx) :
    Int :=
  if w.isCounted env c item then
    (item.2.tx.outputSum fun txout _ ↦ env.isMine txout.scriptPubKey) +
      w.otherChange env w.mapAddressBook item.2.toCDebitTx -
      (w.inputSum env item.2.tx + w.staleDebit env item.2.toCDebitTx)
  else 0

theorem addAmountsOf_eq (nBalance : Int64) :
    w.addAmountsOf env c 0 nBalance item = w.round env c item
      (w.getAmounts env w.mapAddressBook (w.strFromAccount item.1) item.2.toCDebitTx)
      (fun amounts ↦ addFlows 0 (c.getDepthInMainChain env.toWalletEnv item.2.toCMerkleTx) amounts
        nBalance) nBalance := by
  rw [addAmountsOf, round, isCounted]
  cases w.isTrusted env c item.2.toCDebitTx with
  | error e => rfl
  | ok fTrusted =>
      cases fTrusted with
      | false => rfl
      | true =>
          by_cases hmature : 0 < c.getBlocksToMaturity env.toWalletEnv item.2.toCMerkleTx
          · rw [decide_eq_false (not_not.mpr hmature)]
            exact if_pos hmature
          · rw [decide_eq_true hmature]
            exact if_neg hmature

theorem addAmountsOf_returns (env : AddressEnv) (w : BalanceWallet) (c : BalanceView)
    (item : Uint256 × CSharedTx) (nBalance : Int64) :
    (∃ r, w.addAmountsOf env c 0 nBalance item = .ok r) ↔
      (∃ fTrusted, w.isTrusted env c item.2.toCDebitTx = .ok fTrusted) ∧
        (w.isCounted env c item = true →
          (∃ fFromMe, w.isFromMe env.toWalletEnv item.2.toCDebitTx = .ok fFromMe) ∧
            (w.isFromMe env.toWalletEnv item.2.toCDebitTx = .ok true →
              (∀ txout ∈ item.2.tx.vout, 0 ≤ txout.nValue) ∧
                (item.2.tx.outputSum fun _ _ ↦ true) < 2 ^ 63)) := by
  rw [addAmountsOf_eq, round_returns_iff, ← CWallet.exists_valueOut_iff]
  exact and_congr_right fun _ ↦ imp_congr_right fun _ ↦ CWallet.exists_getAmounts_iff ..

theorem addAmountsOf_modEq {nBalance r : Int64} (h : w.addAmountsOf env c 0 nBalance item = .ok r) :
    r.toInt ≡ nBalance.toInt + flowOf env w c item [ZMOD 2 ^ 64] := by
  have hround := round_eq_ok (addAmountsOf_eq nBalance ▸ h)
  rw [flowOf]
  split at hround
  case isTrue hcounted =>
    obtain ⟨amounts, hamounts, rfl⟩ := hround
    rw [if_pos hcounted]
    exact (addFlows_modEq (depth_of_isTrusted (trusted_of_isCounted hcounted)) amounts
      nBalance).trans ((CWallet.getAmounts_modEq hamounts).add_left _)
  case isFalse hcounted => rw [if_neg hcounted, hround, add_zero]

theorem getAvailableCredit_of_mature {wtx : CWalletTx}
    (hmature : ¬ 0 < c.getBlocksToMaturity env.toWalletEnv wtx.toCMerkleTx) :
    (w.getAvailableCredit env.toWalletEnv c.toChainView true wtx).1 =
      if wtx.fAvailableCreditCached then .ok wtx.nAvailableCreditCached
      else w.availableCredit env.toWalletEnv c.toChainView wtx.tx := by
  rw [CWallet.getAvailableCredit, if_neg fun h ↦ hmature h.2, Bool.true_and]
  cases wtx.fAvailableCreditCached with
  | true => rfl
  | false =>
      rw [if_neg Bool.false_ne_true, if_neg Bool.false_ne_true]
      cases w.availableCredit env.toWalletEnv c.toChainView wtx.tx <;> rfl

theorem getAvailableCredit_of_immature {wtx : CWalletTx}
    (hmature : 0 < c.getBlocksToMaturity env.toWalletEnv wtx.toCMerkleTx) :
    (w.getAvailableCredit env.toWalletEnv c.toChainView true wtx).1 = .ok 0 := by
  have hcb : wtx.tx.isCoinBase = true := by
    rw [ChainView.getBlocksToMaturity] at hmature
    by_contra hcb
    rw [Bool.not_eq_true] at hcb
    rw [hcb] at hmature
    exact absurd hmature (lt_irrefl 0)
  rw [CWallet.getAvailableCredit, if_pos ⟨hcb, hmature⟩]

/-- What a round of `GetBalance` adds. -/
def stockOf (env : AddressEnv) (w : BalanceWallet) (c : BalanceView) (item : Uint256 × CSharedTx) :
    Int :=
  if w.isCounted env c item then
    w.unspentSum env c.toChainView item.2.tx -
      w.staleCredit env c.toChainView item.2.toCWalletTx
  else 0

theorem addAvailable_eq (nTotal : Int64) :
    w.addAvailable env c nTotal item = w.round env c item
      (if item.2.fAvailableCreditCached then .ok item.2.nAvailableCreditCached
        else w.availableCredit env.toWalletEnv c.toChainView item.2.tx)
      (fun nCredit ↦ nTotal + nCredit) nTotal := by
  rw [addAvailable, round, isCounted]
  cases w.isTrusted env c item.2.toCDebitTx with
  | error e => rfl
  | ok fTrusted =>
      cases fTrusted with
      | false => rfl
      | true =>
          by_cases hmature : 0 < c.getBlocksToMaturity env.toWalletEnv item.2.toCMerkleTx
          · rw [decide_eq_false (not_not.mpr hmature), getAvailableCredit_of_immature hmature]
            exact congrArg Except.ok (Int64.add_zero nTotal)
          · rw [decide_eq_true hmature, getAvailableCredit_of_mature hmature]
            rfl

theorem addAvailable_returns (env : AddressEnv) (w : BalanceWallet) (c : BalanceView)
    (item : Uint256 × CSharedTx) (nTotal : Int64) :
    (∃ r, w.addAvailable env c nTotal item = .ok r) ↔
      (∃ fTrusted, w.isTrusted env c item.2.toCDebitTx = .ok fTrusted) ∧
        (w.isCounted env c item = true → item.2.fAvailableCreditCached = false →
          (∀ txout i, (txout, i) ∈ item.2.tx.vout.zipIdx →
            w.isSpentOut env c.toChainView item.2.tx i = false → 0 ≤ txout.nValue) ∧
            w.unspentSum env c.toChainView item.2.tx < 2 ^ 63) := by
  rw [addAvailable_eq, round_returns_iff, ← CWallet.exists_availableCredit_iff]
  refine and_congr_right fun _ ↦ imp_congr_right fun _ ↦ ?_
  cases item.2.fAvailableCreditCached with
  | true => exact ⟨fun _ h ↦ absurd h.symm Bool.false_ne_true, fun _ ↦ ⟨_, rfl⟩⟩
  | false => exact ⟨fun h _ ↦ h, fun h ↦ h rfl⟩

theorem addAvailable_modEq {nTotal r : Int64} (h : w.addAvailable env c nTotal item = .ok r) :
    r.toInt ≡ nTotal.toInt + stockOf env w c item [ZMOD 2 ^ 64] := by
  have hround := round_eq_ok (addAvailable_eq nTotal ▸ h)
  rw [stockOf]
  split at hround
  case isTrue hcounted =>
    obtain ⟨nCredit, hcredit, rfl⟩ := hround
    rw [if_pos hcounted, CWallet.staleCredit]
    refine (toInt_add_modEq nTotal nCredit).trans (Int.ModEq.add_left _ ?_)
    split at hcredit
    case isTrue hcached => rw [if_pos hcached, sub_sub_cancel, Except.ok.inj hcredit]
    case isFalse hcached => rw [if_neg hcached, sub_zero, CWallet.toInt_availableCredit hcredit]
  case isFalse hcounted => rw [if_neg hcounted, hround, add_zero]

/-! ## The book -/

/-- What is looked up under a key is what a sum over the entries that counts no other comes to. -/
theorem sum_items {w : CWallet} {f : Uint256 × CWalletTx → Int} (hash : Uint256)
    (h : ∀ item, item.1 ≠ hash → f item = 0) :
    (w.items.map f).sum = (w.mapWallet.lookup hash).elim 0 fun wtx ↦ f (hash, wtx) := by
  have hkeys : ∀ keys : List Uint256,
      ((keys.filterMap fun hash ↦
        (w.mapWallet.lookup hash).map fun wtx ↦ (hash, wtx)).map f).sum =
      (keys.map fun hash ↦ (w.mapWallet.lookup hash).elim 0 fun wtx ↦ f (hash, wtx)).sum := by
    intro keys
    induction keys with
    | nil => rfl
    | cons key keys ih =>
        rw [List.filterMap_cons, List.map_cons, List.sum_cons, ← ih]
        cases w.mapWallet.lookup key with
        | none => exact (zero_add _).symm
        | some wtx => rfl
  rw [CWallet.items, sortedKeys, hkeys, ← List.sum_toFinset _ (Finset.sort_nodup _ _),
    Finset.sort_toFinset]
  refine Finset.sum_eq_single hash (fun key _ hne ↦ ?_) fun hmem ↦ ?_
  · cases w.mapWallet.lookup key with
    | none => rfl
    | some wtx => exact h (key, wtx) hne
  · rw [Finmap.mem_keys, ← Finmap.lookup_eq_none] at hmem
    rw [hmem]
    rfl

/-- What a transaction has under the key of an output. -/
theorem sum_entries (item : Uint256 × CSharedTx) (outpoint : COutPoint) :
    ((w.entries env c item).map fun e ↦ if e.key = outpoint then e.value else 0).sum =
      if item.1 = outpoint.hash then
        (item.2.tx.vout[outpoint.n]?).elim 0 fun txout ↦
          if env.isMine txout.scriptPubKey then txout.nValue.toInt else 0
      else 0 := by
  rw [entries, List.map_map]
  split
  case isTrue hhash =>
    rw [← sum_zipIdx _ _ _ 0]
    refine congrArg List.sum (List.map_congr_left fun ⟨txout, i⟩ _ ↦ ?_)
    have hkey : (⟨item.1, i⟩ : COutPoint) = outpoint ↔ i = 0 + outpoint.n := by
      rw [hhash, Nat.zero_add]
      exact ⟨congrArg COutPoint.n, fun h ↦ h ▸ rfl⟩
    exact if_congr hkey rfl rfl
  case isFalse hhash =>
    refine List.sum_eq_zero fun v hv ↦ ?_
    obtain ⟨⟨txout, i⟩, -, rfl⟩ := List.mem_map.mp hv
    exact if_neg fun h ↦ hhash (congrArg COutPoint.hash h)

/-- The book has what `GetDebit` finds for an input. -/
theorem valueAt_book (txin : CTxIn) :
    valueAt (w.book env c) txin.prevout = (w.getDebitIn env.toWalletEnv txin).toInt := by
  rw [valueAt, book, sum_flatMap, SharedWallet.sharedItems, List.map_map]
  simp only [sum_entries]
  refine (sum_items txin.prevout.hash fun item hne ↦ if_neg hne).trans ?_
  rw [CWallet.getDebitIn]
  cases w.mapWallet.lookup txin.prevout.hash with
  | none => rfl
  | some prev =>
      rw [Option.elim_some, if_pos rfl]
      dsimp only
      cases prev.tx.vout[txin.prevout.n]? with
      | none => rfl
      | some txout =>
          dsimp only
          rw [Option.elim_some]
          split <;> rfl

theorem opened_book : opened (w.book env c) =
    ((w.counted env c).map fun item ↦
      item.2.tx.outputSum fun txout _ ↦ env.isMine txout.scriptPubKey).sum := by
  rw [opened, book, sum_flatMap, counted, sum_map_filter]
  refine congrArg List.sum (List.map_congr_left fun item _ ↦ ?_)
  rw [entries, List.map_map, CTransaction.outputSum]
  split
  case isTrue hcounted =>
    refine congrArg List.sum (List.map_congr_left fun p _ ↦ ?_)
    exact if_pos hcounted
  case isFalse hcounted =>
    refine List.sum_eq_zero fun v hv ↦ ?_
    obtain ⟨⟨txout, i⟩, -, rfl⟩ := List.mem_map.mp hv
    exact if_neg hcounted

theorem stock_book : stock (w.book env c) =
    ((w.counted env c).map fun item ↦ w.unspentSum env c.toChainView item.2.tx).sum := by
  rw [stock, book, sum_flatMap, counted, sum_map_filter]
  refine congrArg List.sum (List.map_congr_left fun item _ ↦ ?_)
  rw [entries, List.map_map, CWallet.unspentSum, CTransaction.outputSum]
  split
  case isTrue hcounted =>
    refine congrArg List.sum (List.map_congr_left fun p _ ↦ ?_)
    obtain ⟨txout, i⟩ := p
    rw [Function.comp_apply]
    dsimp only
    rw [hcounted, Bool.true_and]
    cases env.isMine txout.scriptPubKey with
    | true => rfl
    | false => exact ite_self 0
  case isFalse hcounted =>
    refine List.sum_eq_zero fun v hv ↦ ?_
    obtain ⟨⟨txout, i⟩, -, rfl⟩ := List.mem_map.mp hv
    exact if_neg fun h ↦ hcounted (Bool.and_eq_true_iff.mp h).1

theorem sum_closings : ((w.closings env c).map (valueAt (w.book env c))).sum =
    ((w.counted env c).map fun item ↦ w.inputSum env item.2.tx).sum := by
  rw [closings, sum_flatMap]
  refine congrArg List.sum (List.map_congr_left fun item _ ↦ ?_)
  rw [List.map_map, CWallet.inputSum]
  exact congrArg List.sum (List.map_congr_left fun txin _ ↦ valueAt_book txin)

/-- The rounds of `getbalance '*' 0` add the flow of the book, with what is misread. -/
theorem sum_flowOf : (w.sharedItems.map (flowOf env w c)).sum =
    flow (w.book env c) (w.closings env c) +
      ((w.counted env c).map fun item ↦
        w.otherChange env w.mapAddressBook item.2.toCDebitTx).sum -
      ((w.counted env c).map fun item ↦ w.staleDebit env item.2.toCDebitTx).sum := by
  have hsum : (w.sharedItems.map (flowOf env w c)).sum +
      (((w.counted env c).map fun item ↦ w.inputSum env item.2.tx).sum +
        ((w.counted env c).map fun item ↦ w.staleDebit env item.2.toCDebitTx).sum) =
      ((w.counted env c).map fun item ↦
        item.2.tx.outputSum fun txout _ ↦ env.isMine txout.scriptPubKey).sum +
        ((w.counted env c).map fun item ↦
          w.otherChange env w.mapAddressBook item.2.toCDebitTx).sum := by
    rw [show (w.sharedItems.map (flowOf env w c)).sum = ((w.counted env c).map _).sum from
        (sum_map_filter _ _ _).symm, ← List.sum_map_add, ← List.sum_map_add, ← List.sum_map_add]
    exact congrArg List.sum (List.map_congr_left fun item _ ↦ sub_add_cancel _ _)
  rw [flow, opened_book, sum_closings]
  omega

/-- The rounds of `GetBalance` add the stock. -/
theorem sum_stockOf : (w.sharedItems.map (stockOf env w c)).sum =
    stock (w.book env c) -
      ((w.counted env c).map fun item ↦
        w.staleCredit env c.toChainView item.2.toCWalletTx).sum := by
  rw [stock_book, eq_sub_iff_add_eq,
    show (w.sharedItems.map (stockOf env w c)).sum = ((w.counted env c).map _).sum from
      (sum_map_filter _ _ _).symm, ← List.sum_map_add]
  exact congrArg List.sum (List.map_congr_left fun item _ ↦ sub_add_cancel _ _)

/-! ## When the balances agree -/

/-- What the two loops add is the same where what lies between flow and stock, with what is
misread, comes to nothing. -/
theorem sum_flowOf_modEq_iff :
    (w.sharedItems.map (flowOf env w c)).sum ≡ (w.sharedItems.map (stockOf env w c)).sum
        [ZMOD 2 ^ 64] ↔
      unnamed (w.book env c) (w.closings env c) +
          ((w.counted env c).map fun item ↦
            w.otherChange env w.mapAddressBook item.2.toCDebitTx).sum +
          ((w.counted env c).map fun item ↦
            w.staleCredit env c.toChainView item.2.toCWalletTx).sum ≡
        excess (w.book env c) (w.closings env c) +
          ((w.counted env c).map fun item ↦ w.staleDebit env item.2.toCDebitTx).sum
          [ZMOD 2 ^ 64] := by
  have hbook := @flow_add_excess _ _ (w.book env c) (w.closings env c)
  rw [sum_flowOf, sum_stockOf, Int.modEq_iff_dvd, Int.modEq_iff_dvd]
  refine iff_of_eq (congrArg _ ?_)
  omega

theorem forall_sharedItems_iff {p q : Uint256 × CSharedTx → Prop} :
    (∀ item ∈ w.sharedItems, p item ∧ (w.isCounted env c item = true → q item)) ↔
      (∀ item ∈ w.sharedItems, p item) ∧ ∀ item ∈ w.counted env c, q item := by
  simp only [counted, List.mem_filter, and_imp, imp_and, forall_and]

/-- When `getbalance '*' 0` returns, and what. -/
theorem getBalanceOfAll_spec (env : AddressEnv) (w : BalanceWallet) (c : BalanceView) :
    ((∃ nBalance, w.getBalanceOfAll env c 0 = .ok nBalance) ↔
      (∀ item ∈ w.sharedItems, ∃ fTrusted, w.isTrusted env c item.2.toCDebitTx = .ok fTrusted) ∧
        ∀ item ∈ w.counted env c,
          (∃ fFromMe, w.isFromMe env.toWalletEnv item.2.toCDebitTx = .ok fFromMe) ∧
            (w.isFromMe env.toWalletEnv item.2.toCDebitTx = .ok true →
              (∀ txout ∈ item.2.tx.vout, 0 ≤ txout.nValue) ∧
                (item.2.tx.outputSum fun _ _ ↦ true) < 2 ^ 63)) ∧
      ∀ nBalance, w.getBalanceOfAll env c 0 = .ok nBalance →
        nBalance.toInt ≡ (w.sharedItems.map (flowOf env w c)).sum [ZMOD 2 ^ 64] := by
  obtain ⟨hreturns, hflow⟩ := foldlM_spec
    (fun item (_ : item ∈ w.sharedItems) nBalance ↦ addAmountsOf_returns env w c item nBalance)
    (fun item _ nBalance r h ↦ addAmountsOf_modEq h) 0
  rw [Int64.toInt_zero, zero_add] at hflow
  exact ⟨hreturns.trans forall_sharedItems_iff, hflow⟩

/-- When `GetBalance` returns, and what. -/
theorem getBalance_spec (env : AddressEnv) (w : BalanceWallet) (c : BalanceView) :
    ((∃ nTotal, w.getBalance env c = .ok nTotal) ↔
      (∀ item ∈ w.sharedItems, ∃ fTrusted, w.isTrusted env c item.2.toCDebitTx = .ok fTrusted) ∧
        ∀ item ∈ w.counted env c, item.2.fAvailableCreditCached = false →
          (∀ txout i, (txout, i) ∈ item.2.tx.vout.zipIdx →
            w.isSpentOut env c.toChainView item.2.tx i = false → 0 ≤ txout.nValue) ∧
            w.unspentSum env c.toChainView item.2.tx < 2 ^ 63) ∧
      ∀ nTotal, w.getBalance env c = .ok nTotal →
        nTotal.toInt ≡ (w.sharedItems.map (stockOf env w c)).sum [ZMOD 2 ^ 64] := by
  obtain ⟨hreturns, hstock⟩ := foldlM_spec
    (fun item (_ : item ∈ w.sharedItems) nTotal ↦ addAvailable_returns env w c item nTotal)
    (fun item _ nTotal r h ↦ addAvailable_modEq h) 0
  rw [Int64.toInt_zero, zero_add] at hstock
  exact ⟨hreturns.trans forall_sharedItems_iff, hstock⟩

theorem Settled.balancesAgree (h : w.Settled env c) : w.BalancesAgree env c := by
  obtain ⟨hreturns, hflow⟩ := getBalanceOfAll_spec env w c
  obtain ⟨hreturns', hstock⟩ := getBalance_spec env w c
  obtain ⟨nBalance, hofAll⟩ :=
    hreturns.mpr ⟨h.trusts, fun item hitem ↦ ⟨h.debits item hitem, h.outputs item hitem⟩⟩
  obtain ⟨nTotal, hbalance⟩ := hreturns'.mpr ⟨h.trusts, h.credits⟩
  have hsame : nBalance = nTotal := toInt_modEq_iff.mp ((hflow nBalance hofAll).trans
    ((sum_flowOf_modEq_iff.mpr h.value).trans (hstock nTotal hbalance).symm))
  exact ⟨nBalance, hofAll, hsame ▸ hbalance⟩

/-- **The two balances.**  `getbalance '*' 0` and `GetBalance` return the same number iff no amount
is out of range, and what lies between flow and stock comes to nothing. -/
theorem balances_agree_iff (env : AddressEnv) (w : BalanceWallet) (c : BalanceView) :
    w.BalancesAgree env c ↔ w.Settled env c := by
  obtain ⟨hreturns, hflow⟩ := getBalanceOfAll_spec env w c
  obtain ⟨hreturns', hstock⟩ := getBalance_spec env w c
  constructor
  · rintro ⟨nBalance, hofAll, hbalance⟩
    obtain ⟨trusts, hall⟩ := hreturns.mp ⟨nBalance, hofAll⟩
    exact
      { trusts := trusts
        debits := fun item h ↦ (hall item h).1
        outputs := fun item h ↦ (hall item h).2
        credits := (hreturns'.mp ⟨nBalance, hbalance⟩).2
        value := sum_flowOf_modEq_iff.mp
          ((hflow nBalance hofAll).symm.trans (hstock nBalance hbalance)) }
  · exact Settled.balancesAgree

/-- **A wallet whose balances agree.**  Where both return, nothing is misread, and one input that is
counted names each output of ours that is counted and spent, and none any other. -/
theorem balancesAgree_of_spentOnce
    (hofAll : ∃ nBalance, w.getBalanceOfAll env c 0 = .ok nBalance)
    (hbalance : ∃ nTotal, w.getBalance env c = .ok nTotal)
    (hread : ∀ item ∈ w.counted env c,
      w.otherChange env w.mapAddressBook item.2.toCDebitTx = 0 ∧
        w.staleCredit env c.toChainView item.2.toCWalletTx = 0 ∧
        w.staleDebit env item.2.toCDebitTx = 0)
    (honce : ∀ item ∈ w.sharedItems, ∀ txout i, (txout, i) ∈ item.2.tx.vout.zipIdx →
      env.isMine txout.scriptPubKey = true → (w.closings env c).count ⟨item.1, i⟩ =
        if w.isCounted env c item && w.isSpentOut env c.toChainView item.2.tx i then 1 else 0) :
    w.BalancesAgree env c := by
  have hclosed : ClosedOnce (w.book env c) (w.closings env c) := by
    intro e he hvalue
    obtain ⟨item, hitem, he⟩ := List.mem_flatMap.mp he
    obtain ⟨⟨txout, i⟩, hout, rfl⟩ := List.mem_map.mp he
    exact honce item hitem txout i hout (by_contra fun hmine ↦ hvalue (if_neg hmine))
  have hzero : ∀ f : Uint256 × CSharedTx → Int, (∀ item ∈ w.counted env c, f item = 0) →
      ((w.counted env c).map f).sum = 0 := fun f hf ↦
    List.sum_eq_zero (List.forall_mem_map.mpr hf)
  obtain ⟨trusts, hall⟩ := (getBalanceOfAll_spec env w c).1.mp hofAll
  refine Settled.balancesAgree
    { trusts := trusts
      debits := fun item h ↦ (hall item h).1
      outputs := fun item h ↦ (hall item h).2
      credits := ((getBalance_spec env w c).1.mp hbalance).2
      value := ?_ }
  rw [hclosed.unnamed_eq_zero, hclosed.excess_eq_zero, hzero _ fun item h ↦ (hread item h).1,
    hzero _ fun item h ↦ (hread item h).2.1, hzero _ fun item h ↦ (hread item h).2.2]
  exact Int.ModEq.refl 0

end BalanceWallet

/-! ## A coin that an unconfirmed transaction spends -/

/-- The output of transaction 1 is ours. -/
def balanceEnv : AddressEnv := { sharedEnv with isMine := fun script ↦ script = [0x52] }

theorem sharedTx_one_mem : sharedTx 1 ∈ balanceEnv.node.txs := .inl rfl

theorem sharedTx_two_mem : sharedTx 2 ∈ balanceEnv.node.txs := .inr rfl

/-- Transaction 1 is in a block, and transaction 2 has just been sent. -/
def balanceOps : List (SharedOp balanceEnv) :=
  [.add { tx := sharedTx 1, hashBlock := 2, nIndex := 0 } sharedTx_one_mem true,
   .add { tx := sharedTx 2 } sharedTx_two_mem true]

def balanceWallet : BalanceWallet where
  toSharedWallet := SharedWallet.run balanceEnv balanceOps
  mapAddressBook := ∅
  strFromAccount _ := ""

/-- Unconfirmed change is not to be spent. -/
def balanceView : BalanceView where
  chainActive := [1, 2, 3]
  mempool := CTxMemPool.empty.addUnchecked 2 ⟨sharedTx 2, 0, 0, 2⟩
  adjustedTime := 0
  bSpendZeroConfChange := false

theorem items_balanceOps : balanceWallet.sharedItems =
    [(1, { tx := sharedTx 1, hashBlock := 2, nIndex := 0 }), (2, { tx := sharedTx 2 })] := by
  have hkeys : (SharedWallet.run balanceEnv balanceOps).mapWallet.keys =
      insert 1 ({2} : Finset Uint256) := by decide +kernel
  rw [SharedWallet.sharedItems, CWallet.items, sortedKeys, balanceWallet, hkeys, sort_one_two]
  rfl

/-- Both transactions are in a block. -/
def spentOps : List (SharedOp balanceEnv) :=
  [.add { tx := sharedTx 1, hashBlock := 2, nIndex := 0 } sharedTx_one_mem true,
   .add { tx := sharedTx 2, hashBlock := 3, nIndex := 0 } sharedTx_two_mem true]

def spentWallet : BalanceWallet where
  toSharedWallet := SharedWallet.run balanceEnv spentOps
  mapAddressBook := ∅
  strFromAccount _ := ""

def spentView : BalanceView := { balanceView with mempool := .empty }

theorem items_spentOps : spentWallet.sharedItems =
    [(1, { tx := sharedTx 1, hashBlock := 2, nIndex := 0 }),
     (2, { tx := sharedTx 2, hashBlock := 3, nIndex := 0 })] := by
  have hkeys : (SharedWallet.run balanceEnv spentOps).mapWallet.keys =
      insert 1 ({2} : Finset Uint256) := by decide +kernel
  rw [SharedWallet.sharedItems, CWallet.items, sortedKeys, spentWallet, hkeys, sort_one_two]
  rfl

theorem balancesAgree_spentWallet : spentWallet.BalancesAgree balanceEnv spentView := by
  refine BalanceWallet.balancesAgree_of_spentOnce ⟨0, ?_⟩ ⟨0, ?_⟩ ?_ ?_
  · rw [BalanceWallet.getBalanceOfAll, items_spentOps]
    decide +kernel
  · rw [BalanceWallet.getBalance, items_spentOps]
    decide +kernel
  · rw [BalanceWallet.counted, items_spentOps]
    decide +kernel
  · rw [BalanceWallet.closings, BalanceWallet.counted, items_spentOps]
    intro item hitem txout i hout
    simp only [List.mem_cons, List.not_mem_nil, or_false] at hitem
    rcases hitem with rfl | rfl <;> obtain ⟨rfl, rfl⟩ : _ ∧ _ := by simpa [sharedTx] using hout
    · decide +kernel
    · decide +kernel

/-- The output that transaction 2 spends is gone from one balance only. -/
theorem balances_differ :
    balanceWallet.getBalanceOfAll balanceEnv balanceView 0 = .ok 2000000 ∧
      balanceWallet.getBalance balanceEnv balanceView = .ok 0 ∧
      ¬ balanceWallet.BalancesAgree balanceEnv balanceView := by
  have hofAll : balanceWallet.getBalanceOfAll balanceEnv balanceView 0 = .ok 2000000 := by
    rw [BalanceWallet.getBalanceOfAll, items_balanceOps]
    decide +kernel
  have hbalance : balanceWallet.getBalance balanceEnv balanceView = .ok 0 := by
    rw [BalanceWallet.getBalance, items_balanceOps]
    decide +kernel
  refine ⟨hofAll, hbalance, ?_⟩
  rintro ⟨nBalance, hofAll', hbalance'⟩
  rw [hofAll] at hofAll'
  rw [← Except.ok.inj hofAll', hbalance] at hbalance'
  exact absurd (Except.ok.inj hbalance') (by decide)

end Fedoracoin
