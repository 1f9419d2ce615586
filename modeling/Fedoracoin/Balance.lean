import Fedoracoin.AddressGroupings
import Fedoracoin.SharedCoins

/-!
# The balance of the wallet

`GetBalance` adds up the outputs that are not spent; `getbalance '*'` adds up what each transaction
brings, with `GetAmounts`.  Both go over the transactions that `IsTrusted` accepts.
-/

namespace Fedoracoin

open RunningSum

/-- What depths and final transactions are read from. -/
structure BalanceView extends ChainView where
  /-- `GetAdjustedTime()`. -/
  adjustedTime : Int
  /-- `-spendzeroconfchange`. -/
  bSpendZeroConfChange : Bool

/-- The wallet, with the addresses that have a name. -/
structure BalanceWallet extends SharedWallet where
  mapAddressBook : Finset CTxDestination
  strFromAccount : Uint256 → String

/-- What `GetAmounts` returns. -/
structure TxAmounts where
  listReceived : List (CTxDestination × Int64) := []
  listSent : List (CTxDestination × Int64) := []
  nFee : Int64 := 0
  strSentAccount : String
deriving DecidableEq

/-- `IsFinalTx`, with the constants of `CTransaction::IsFinal`. -/
def isFinalTx (c : BalanceView) (tx : CTransaction) (nBlockHeight nBlockTime : Int) : Bool :=
  tx.isFinal c.height c.adjustedTime nBlockHeight nBlockTime

namespace CWallet

variable (env : AddressEnv) (w : CWallet)

/-- The loop of `IsTrusted`: all inputs are from us. -/
def trustInputs : List CTxIn → Except Failure Bool
  | [] => .ok true
  | txin :: vin =>
      match w.mapWallet.lookup txin.prevout.hash with
      -- Transactions not sent by us: not trusted
      | none => .ok false
      | some parent =>
          match parent.tx.vout[txin.prevout.n]? with
          | none => .error .assertion
          | some parentOut =>
              if !env.isMine parentOut.scriptPubKey then .ok false else trustInputs vin

def isTrusted (c : BalanceView) (wtx : CDebitTx) : Except Failure Bool := do
  -- Quick answer in most cases
  if !isFinalTx c wtx.tx 0 0 then return false
  let nDepth := c.getDepthInMainChain env.toWalletEnv wtx.toCMerkleTx
  if 1 ≤ nDepth then return true
  if nDepth < 0 then return false
  if !c.bSpendZeroConfChange then return false
  if !(← w.isFromMe env.toWalletEnv wtx) then return false
  w.trustInputs env wtx.tx.vin

/-- One round of the loop of `GetAmounts`. -/
def addAmounts (mapAddressBook : Finset CTxDestination) (nDebit : Int64) (amounts : TxAmounts)
    (txout : CTxOut) : TxAmounts :=
  let fIsMine := env.isMine txout.scriptPubKey
  -- Don't report 'change' txouts
  if if 0 < nDebit then isChange env mapAddressBook txout else !fIsMine then amounts
  else
    let address := (env.extractDestination txout.scriptPubKey).getD .noDestination
    { amounts with
      listSent :=
        if 0 < nDebit then amounts.listSent ++ [(address, txout.nValue)] else amounts.listSent
      listReceived :=
        if fIsMine then amounts.listReceived ++ [(address, txout.nValue)]
        else amounts.listReceived }

def getAmounts (mapAddressBook : Finset CTxDestination) (strFromAccount : String)
    (wtx : CDebitTx) : Except Failure TxAmounts := do
  let nDebit ← w.getDebitCached env.toWalletEnv wtx
  if 0 < nDebit then -- debit>0 means we signed/sent this transaction
    let nValueOut ← wtx.tx.valueOut
    return wtx.tx.vout.foldl (addAmounts env mapAddressBook nDebit)
      { nFee := nDebit - nValueOut, strSentAccount := strFromAccount }
  else
    return wtx.tx.vout.foldl (addAmounts env mapAddressBook nDebit)
      { strSentAccount := strFromAccount }

end CWallet

namespace BalanceWallet

variable (env : AddressEnv) (w : BalanceWallet) (c : BalanceView)

/-- One round of `GetBalance`.  What `GetAvailableCredit` leaves in a cache is not read again. -/
def addAvailable (nTotal : Int64) (item : Uint256 × CSharedTx) : Except Failure Int64 := do
  let pcoin := item.2
  if ← w.isTrusted env c pcoin.toCDebitTx then
    let nCredit ← (w.getAvailableCredit env.toWalletEnv c.toChainView true pcoin.toCWalletTx).1
    return nTotal + nCredit
  else return nTotal

def getBalance : Except Failure Int64 := w.sharedItems.foldlM (w.addAvailable env c) 0

/-- What a round of `getbalance '*'` adds to `nBalance`. -/
def addFlows (nMinDepth nDepth : Int) (amounts : TxAmounts) (nBalance : Int64) : Int64 :=
  let nBalance :=
    if nMinDepth ≤ nDepth then amounts.listReceived.foldl (fun nBalance r ↦ nBalance + r.2) nBalance
    else nBalance
  amounts.listSent.foldl (fun nBalance r ↦ nBalance - r.2) nBalance - amounts.nFee

/-- One round of `getbalance '*'`. -/
def addAmountsOf (nMinDepth : Int) (nBalance : Int64) (item : Uint256 × CSharedTx) :
    Except Failure Int64 := do
  let wtx := item.2
  if !(← w.isTrusted env c wtx.toCDebitTx) then return nBalance
  if 0 < c.getBlocksToMaturity env.toWalletEnv wtx.toCMerkleTx then return nBalance
  let amounts ← w.getAmounts env w.mapAddressBook (w.strFromAccount item.1) wtx.toCDebitTx
  return addFlows nMinDepth (c.getDepthInMainChain env.toWalletEnv wtx.toCMerkleTx) amounts nBalance

/-- `getbalance '*' nMinDepth`, before `ValueFromAmount`. -/
def getBalanceOfAll (nMinDepth : Int) : Except Failure Int64 :=
  w.sharedItems.foldlM (w.addAmountsOf env c nMinDepth) 0

end BalanceWallet

end Fedoracoin
