import Fedoracoin.CoinSelection
import Fedoracoin.Destination
import Fedoracoin.LegacyTip
import Fedoracoin.WalletCredit

/-!
# The coins of the shared wallet

`AvailableSharedCoins` and `GetSharedBalance` ask `CWalletTx::IsSpent`, which reads `vfSpent`.
Nothing writes `vfSpent`, so these functions take every output for unspent, whatever spends it:
`sharedCoins_agree_iff` says when that is so.
-/

namespace Fedoracoin

open RunningSum

/-- The other fields of a `CWalletTx`. -/
structure SharedFields where
  fDebitCached : Bool := false
  nDebitCached : Int64 := 0
  vtxPrev : List CMerkleTx := []
  vfSpent : List UInt8 := []

structure CSharedTx extends CWalletTx, SharedFields

/-- What the functions of the shared wallet are called with. -/
structure SharedView extends ChainView where
  /-- The global variable. -/
  nBestHeight : Int
  adjustedTime : Int
  /-- For how many transactions after the first the loop of `IsConfirmed` is followed. -/
  nRounds : Nat

/-- `COutput`, with the hash of the transaction it points to. -/
structure SharedOutput where
  hash : Uint256
  i : Nat
  nDepth : Int
deriving DecidableEq

structure SharedWallet extends CWallet where
  fields : Uint256 → SharedFields
  setLockedCoins : Finset COutPoint

def dustHardLimit : Int64 := 1000000

namespace CSharedTx

variable (env : AddressEnv) (w : CWallet) (c : SharedView) (wtx : CSharedTx)

/-- `CWalletTx::IsSpent`. -/
def isSpent (nOut : Nat) : Except Failure Bool :=
  if wtx.tx.vout.length ≤ nOut then
    .error (.exception "CWalletTx::IsSpent() : nOut out of range")
  else
    match wtx.vfSpent[nOut]? with
    | none => .ok false
    | some fSpent => .ok (fSpent != 0)

def isFinal (tx : CTransaction) : Bool := tx.isFinal c.nBestHeight c.adjustedTime 0 0

def isMature : Bool :=
  !(wtx.tx.isCoinBase && decide (0 < c.getBlocksToMaturity env.toWalletEnv wtx.toCMerkleTx))

def toCDebitTx : CDebitTx :=
  { wtx.toCWalletTx with fDebitCached := wtx.fDebitCached, nDebitCached := wtx.nDebitCached }

/-- The loop of `IsConfirmed` over `vWorkQueue`, from the place it is at on. -/
def confirmLoop (vtxPrev : List CMerkleTx) : Nat → List CMerkleTx → Except Failure Bool
  | _, [] => .ok true
  | 0, _ :: _ => .error .diverges
  | n + 1, ptx :: vWorkQueue => do
      if !isFinal c ptx.tx then return false
      if 1 ≤ c.getDepthInMainChain env.toWalletEnv ptx then
        confirmLoop vtxPrev n vWorkQueue
      else
        let nDebit ← w.getDebit env.toWalletEnv ptx.tx
        if !decide (0 < nDebit) then return false
        -- `mapPrev` keeps the last transaction with a hash
        match ptx.tx.vin.mapM fun txin ↦
          vtxPrev.reverse.find? fun tx ↦ env.node.getTxHash tx.tx = txin.prevout.hash with
        | none => return false
        | some prevs => confirmLoop vtxPrev n (vWorkQueue ++ prevs)

def isConfirmed : Except Failure Bool := do
  if !isFinal c wtx.tx then return false
  if 1 ≤ c.getDepthInMainChain env.toWalletEnv wtx.toCMerkleTx then return true
  if !(← w.isFromMe env.toWalletEnv wtx.toCDebitTx) then return false
  confirmLoop env w c wtx.vtxPrev (c.nRounds + 1) [wtx.toCMerkleTx]

/-- `GetSharedCredit` of an output. -/
def getSharedCredit (txout : CTxOut) : Except Failure Int64 :=
  if !moneyRange txout.nValue then
    .error (.exception "CWallet::GetSharedCredit() : value out of range")
  else .ok (if env.isMyShare txout.scriptPubKey then txout.nValue else 0)

/-- The loop of `GetSharedAvailableCredit`. -/
def sharedCreditLoop : Nat → List CTxOut → Int64 → Except Failure Int64
  | _, [], nCredit => .ok nCredit
  | i, txout :: vout, nCredit => do
      if ← wtx.isSpent i then sharedCreditLoop (i + 1) vout nCredit
      else
        let nCredit := nCredit + (← getSharedCredit env txout)
        failIf (!moneyRange nCredit)
          (.exception "CWalletTx::GetSharedAvailableCredit() : value out of range")
        sharedCreditLoop (i + 1) vout nCredit

/-- `GetSharedAvailableCredit`, whose cache is not read. -/
def getSharedAvailableCredit : Except Failure Int64 :=
  if !wtx.isMature env c then .ok 0 else wtx.sharedCreditLoop env 0 wtx.tx.vout 0

end CSharedTx

namespace SharedWallet

variable (env : AddressEnv) (w : SharedWallet) (c : SharedView)

/-- The entries of `mapWallet`. -/
def sharedItems : List (Uint256 × CSharedTx) :=
  w.items.map fun (hash, wtx) ↦ (hash, { toCWalletTx := wtx, toSharedFields := w.fields hash })

/-- What `AvailableSharedCoins` asks of an output besides `IsSpent`. -/
def isCandidate (coinControl : Option (Finset COutPoint)) (outpoint : COutPoint)
    (txout : CTxOut) : Bool :=
  env.isMyShare txout.scriptPubKey && decide (outpoint ∉ w.setLockedCoins) &&
    decide (dustHardLimit ≤ txout.nValue) &&
    coinControl.all fun setSelected ↦ decide (setSelected = ∅ ∨ outpoint ∈ setSelected)

/-- The inner loop of `AvailableSharedCoins`. -/
def listOutputs (coinControl : Option (Finset COutPoint)) (hash : Uint256) (wtx : CSharedTx) :
    Nat → List CTxOut → Except Failure (List SharedOutput)
  | _, [] => .ok []
  | i, txout :: vout => do
      let fSpent ← wtx.isSpent i
      let vCoins ← listOutputs coinControl hash wtx (i + 1) vout
      if !fSpent && w.isCandidate env coinControl ⟨hash, i⟩ txout then
        return ⟨hash, i, c.getDepthInMainChain env.toWalletEnv wtx.toCMerkleTx⟩ :: vCoins
      else return vCoins

/-- One round of the outer loop of `AvailableSharedCoins`. -/
def listTransaction (fOnlyConfirmed : Bool) (coinControl : Option (Finset COutPoint))
    (hash : Uint256) (wtx : CSharedTx) : Except Failure (List SharedOutput) := do
  if !CSharedTx.isFinal c wtx.tx then return []
  if fOnlyConfirmed then
    if !(← wtx.isConfirmed env w.toCWallet c) then return []
  if !wtx.isMature env c then return []
  w.listOutputs env c coinControl hash wtx 0 wtx.tx.vout

def availableSharedCoins (fOnlyConfirmed : Bool) (coinControl : Option (Finset COutPoint)) :
    Except Failure (List SharedOutput) := do
  let vCoins ← w.sharedItems.mapM fun (hash, wtx) ↦
    w.listTransaction env c fOnlyConfirmed coinControl hash wtx
  return vCoins.flatten

/-- The loop of `GetSharedBalance`. -/
def sharedBalanceLoop : List (Uint256 × CSharedTx) → Int64 → Except Failure Int64
  | [], nTotal => .ok nTotal
  | (_, wtx) :: items, nTotal => do
      if ← wtx.isConfirmed env w.toCWallet c then
        let nCredit ← wtx.getSharedAvailableCredit env c
        sharedBalanceLoop items (nTotal + nCredit)
      else sharedBalanceLoop items nTotal

def getSharedBalance : Except Failure Int64 := w.sharedBalanceLoop env c w.sharedItems 0

end SharedWallet

/-! ## Updates of the wallet -/

inductive SharedOp (env : AddressEnv) where
  /-- `AddToWallet`, called by `LoadWallet` and `CommitTransaction`. -/
  | add (wtxIn : CMerkleTx) (mem : wtxIn.tx ∈ env.node.txs) (fWritten : Bool)
  | sync (tx : CTransaction) (mem : tx ∈ env.node.txs) (pblock : Option CBlock) (fWritten : Bool)
  | erase (hash : Uint256)
  /-- What `GetDebit` and `MarkDirty` leave in the cache of a transaction may be anything. -/
  | cacheDebit (hash : Uint256) (fDebitCached : Bool) (nDebitCached : Int64)
  | lockCoin (output : COutPoint)
  | unlockCoin (output : COutPoint)
  | unlockAllCoins

namespace SharedWallet

def empty : SharedWallet where
  mapWallet := ∅
  mapTxSpends := []
  fields _ := {}
  setLockedCoins := ∅

/-- The transactions become those of `wallet`; one that is new is constructed. -/
def withWallet (w : SharedWallet) (wallet : CWallet) : SharedWallet :=
  { w with
    toCWallet := wallet
    fields := fun hash ↦ if (w.mapWallet.lookup hash).isSome then w.fields hash else {} }

variable (env : AddressEnv) (w : SharedWallet)

/-- A sync that throws changes nothing. -/
def apply : SharedOp env → SharedWallet
  | .add wtxIn _ fWritten => w.withWallet (w.addToWallet env.toWalletEnv fWritten wtxIn).2
  | .sync tx _ pblock fWritten =>
      match w.syncTransaction env.toWalletEnv fWritten tx pblock with
      | .error _ => w
      | .ok wallet => w.withWallet wallet
  | .erase hash => { w with mapWallet := w.mapWallet.erase hash }
  | .cacheDebit hash fDebitCached nDebitCached =>
      { w with
        fields := Function.update w.fields hash
          { w.fields hash with fDebitCached := fDebitCached, nDebitCached := nDebitCached } }
  | .lockCoin output => { w with setLockedCoins := insert output w.setLockedCoins }
  | .unlockCoin output => { w with setLockedCoins := w.setLockedCoins.erase output }
  | .unlockAllCoins => { w with setLockedCoins := ∅ }

/-- The wallet after some updates. -/
def run (ops : List (SharedOp env)) : SharedWallet := ops.foldl (apply env) empty

end SharedWallet

/-! ## What is spent -/

namespace CWallet

variable (env : WalletEnv) (w : CWallet) (c : ChainView)

/-- A transaction of the wallet that is not conflicted, and not a coinbase, spends the output. -/
def spentByTx (outpoint : COutPoint) : Bool :=
  w.items.any fun (_, wtx) ↦ decide (0 ≤ c.getDepthInMainChain env wtx.toCMerkleTx) &&
    !wtx.tx.isCoinBase && wtx.tx.vin.any fun txin ↦ decide (txin.prevout = outpoint)

end CWallet

namespace SharedWallet

variable (env : AddressEnv) (w : SharedWallet) (c : SharedView)

/-- The amounts of the outputs that are shared, those where `p` fails being 0. -/
def sharedValues (wtx : CSharedTx) (p : Nat → Bool) : List Int :=
  wtx.tx.vout.zipIdx.map fun (txout, i) ↦
    if env.isMyShare txout.scriptPubKey && p i then txout.nValue.toInt else 0

/-- The outputs of a transaction can be added up. -/
def Summable (wtx : CSharedTx) : Prop :=
  (∀ txout ∈ wtx.tx.vout, 0 ≤ txout.nValue) ∧ (sharedValues env wtx fun _ ↦ true).sum < 2 ^ 63

/-- `GetSharedBalance` adds up the outputs of the transaction. -/
def isCounted (item : Uint256 × CSharedTx) : Bool :=
  decide ((item.2.isConfirmed env w.toCWallet c).toOption = some true) && item.2.isMature env c

def counted : List (Uint256 × CSharedTx) := w.sharedItems.filter (w.isCounted env c)

/-- The sum of the shared outputs for which `p`. -/
def sharedTotal (p : COutPoint → Bool) : Int :=
  ((w.counted env c).map fun (hash, wtx) ↦ (sharedValues env wtx fun i ↦ p ⟨hash, i⟩).sum).sum

/-- The coins of the shared wallet are those that `CWallet::IsSpent` does not report. -/
structure Agrees : Prop where
  coins : ∀ fOnlyConfirmed coinControl vCoins,
    w.availableSharedCoins env c fOnlyConfirmed coinControl = .ok vCoins → ∀ output ∈ vCoins,
      w.isSpent env.toWalletEnv c.toChainView ⟨output.hash, output.i⟩ = false
  balance : ∃ nTotal, w.getSharedBalance env c = .ok nTotal ∧
    nTotal.toInt =
      w.sharedTotal env c fun outpoint ↦ !w.isSpent env.toWalletEnv c.toChainView outpoint

/-- No coin is spent that could be listed, and those that are counted and spent come to nothing. -/
structure Untouched : Prop where
  coins : ∀ hash wtx, (hash, wtx) ∈ w.sharedItems → CSharedTx.isFinal c wtx.tx = true →
    wtx.isMature env c = true → ∀ (i : Nat) (txout : CTxOut), wtx.tx.vout[i]? = some txout →
      w.isCandidate env none ⟨hash, i⟩ txout = true →
        w.spentByTx env.toWalletEnv c.toChainView ⟨hash, i⟩ = false
  confirms : ∀ item ∈ w.sharedItems,
    ∃ fConfirmed, item.2.isConfirmed env w.toCWallet c = .ok fConfirmed
  amounts : ∀ item ∈ w.counted env c, Summable env item.2
  unspent : (w.sharedTotal env c fun outpoint ↦
    !w.spentByTx env.toWalletEnv c.toChainView outpoint) < 2 ^ 63
  spent : 2 ^ 64 ∣ w.sharedTotal env c (w.spentByTx env.toWalletEnv c.toChainView)

end SharedWallet

/-! ## What the wallet keeps -/

namespace SharedWallet

/-- `mapTxSpends` has what the transactions of the wallet spend, and what those spent that were
erased; `vfSpent` and `vtxPrev` are empty. -/
structure Inv (env : AddressEnv) (w : SharedWallet) : Prop where
  key : ∀ hash wtx, w.mapWallet.lookup hash = some wtx →
    wtx.tx ∈ env.node.txs ∧ env.node.getTxHash wtx.tx = hash
  recorded : ∀ hash wtx, w.mapWallet.lookup hash = some wtx → wtx.tx.isCoinBase = false →
    ∀ txin ∈ wtx.tx.vin, (txin.prevout, hash) ∈ w.mapTxSpends
  spends : ∀ spend ∈ w.mapTxSpends, ∃ tx ∈ env.node.txs, env.node.getTxHash tx = spend.2 ∧
    tx.isCoinBase = false ∧ ∃ txin ∈ tx.vin, txin.prevout = spend.1
  fields : ∀ hash, (w.fields hash).vfSpent = [] ∧ (w.fields hash).vtxPrev = []

variable {env : AddressEnv} {w : SharedWallet} {c : SharedView} {wallet : CWallet}
  {hash : Uint256} {wtx : CSharedTx}

theorem inv_empty : empty.Inv env := by
  refine ⟨fun hash wtx h ↦ ?_, fun hash wtx h ↦ ?_, nofun,
    fun _ ↦ ⟨rfl, rfl⟩⟩
  · rw [empty, Finmap.lookup_empty] at h
    cases h
  · rw [empty, Finmap.lookup_empty] at h
    cases h

/-- An update that leaves the transactions what they are. -/
theorem Inv.of_lookup {w' : SharedWallet} (h : w.Inv env)
    (hlookup : ∀ hash wtx, w'.mapWallet.lookup hash = some wtx →
      ∃ wtx', w.mapWallet.lookup hash = some wtx' ∧ wtx'.tx = wtx.tx)
    (hspends : w'.mapTxSpends = w.mapTxSpends)
    (hfields : ∀ hash, (w'.fields hash).vfSpent = [] ∧ (w'.fields hash).vtxPrev = []) :
    w'.Inv env := by
  refine ⟨fun hash wtx hwtx ↦ ?_, fun hash wtx hwtx hcb txin htxin ↦ ?_, ?_, hfields⟩
  · obtain ⟨wtx', hwtx', heq⟩ := hlookup hash wtx hwtx
    rw [← heq]
    exact h.key hash wtx' hwtx'
  · obtain ⟨wtx', hwtx', heq⟩ := hlookup hash wtx hwtx
    rw [← heq] at hcb htxin
    rw [hspends]
    exact h.recorded hash wtx' hwtx' hcb txin htxin
  · rw [hspends]
    exact h.spends

theorem fields_withWallet (h : w.Inv env) (hash : Uint256) :
    ((w.withWallet wallet).fields hash).vfSpent = [] ∧
      ((w.withWallet wallet).fields hash).vtxPrev = [] := by
  rw [withWallet]
  dsimp only
  split
  · exact h.fields hash
  · exact ⟨rfl, rfl⟩

theorem Inv.addToWallet (h : w.Inv env) {wtxIn : CMerkleTx} {fWritten : Bool}
    (hmem : wtxIn.tx ∈ env.node.txs) :
    (w.withWallet (w.addToWallet env.toWalletEnv fWritten wtxIn).2).Inv env := by
  rw [CWallet.addToWallet]
  dsimp only
  split
  case h_1 hnone =>
    refine ⟨fun hash wtx hwtx ↦ ?_, fun hash wtx hwtx hcb txin htxin ↦ ?_, fun spend hspend ↦ ?_,
      fields_withWallet h⟩
    · rw [withWallet] at hwtx
      obtain ⟨rfl, rfl⟩ | ⟨-, hwtx⟩ := Finmap.cases_lookup_insert hwtx
      · exact ⟨hmem, rfl⟩
      · exact h.key hash wtx hwtx
    · rw [withWallet] at hwtx ⊢
      obtain ⟨rfl, rfl⟩ | ⟨-, hwtx⟩ := Finmap.cases_lookup_insert hwtx
      · refine List.mem_append_left _ ?_
        rw [CWallet.addToSpends, if_neg (by rw [hcb]; exact Bool.false_ne_true)]
        exact List.mem_map_of_mem htxin
      · exact List.mem_append_right _ (h.recorded hash wtx hwtx hcb txin htxin)
    · obtain hspend | hspend := List.mem_append.mp hspend
      · rw [CWallet.addToSpends] at hspend
        split at hspend
        case isTrue => exact absurd hspend List.not_mem_nil
        case isFalse hcb =>
          obtain ⟨txin, htxin, rfl⟩ := List.mem_map.mp hspend
          exact ⟨wtxIn.tx, hmem, rfl, Bool.not_eq_true _ ▸ hcb, txin, htxin, rfl⟩
      · exact h.spends spend hspend
  case h_2 wtx hwtx =>
    refine h.of_lookup (fun hash wtx' hwtx' ↦ ?_) rfl (fields_withWallet h)
    rw [withWallet] at hwtx'
    obtain ⟨rfl, rfl⟩ | ⟨-, hwtx'⟩ := Finmap.cases_lookup_insert hwtx'
    · exact ⟨wtx, hwtx, rfl⟩
    · exact ⟨wtx', hwtx', rfl⟩

theorem Inv.markSpentDirty (h : (w.withWallet wallet).Inv env) {vin : List CTxIn} :
    (w.withWallet (wallet.markSpentDirty vin)).Inv env := by
  refine h.of_lookup (fun hash wtx hwtx ↦ ?_) CWallet.mapTxSpends_markSpentDirty h.fields
  rw [withWallet, CWallet.lookup_markSpentDirty] at hwtx
  split at hwtx
  · obtain ⟨wtx', hwtx', rfl⟩ := Option.map_eq_some_iff.mp hwtx
    exact ⟨wtx', hwtx', rfl⟩
  · exact ⟨wtx, hwtx, rfl⟩

theorem Inv.sync (h : w.Inv env) {tx : CTransaction} {pblock : Option CBlock} {fWritten : Bool}
    (hmem : tx ∈ env.node.txs)
    (hsync : w.syncTransaction env.toWalletEnv fWritten tx pblock = .ok wallet) :
    (w.withWallet wallet).Inv env := by
  obtain ⟨⟨fAdded, added⟩, hadd, hsync⟩ := bind_eq_ok.mp hsync
  have hadded : (w.withWallet added).Inv env := by
    obtain ⟨heq, -⟩ | ⟨wtxIn, rfl, heq, -⟩ := CWallet.addToWalletIfInvolvingMe_eq_ok hadd
    · obtain ⟨-, rfl⟩ := Prod.mk.inj heq
      exact h.of_lookup (fun _ wtx hwtx ↦ ⟨wtx, hwtx, rfl⟩) rfl (fields_withWallet h)
    · obtain rfl : added = _ := congrArg Prod.snd heq
      exact h.addToWallet hmem
  obtain rfl := Except.ok.inj hsync
  cases fAdded with
  | true => exact hadded.markSpentDirty
  | false => exact hadded

theorem Inv.apply (h : w.Inv env) (op : SharedOp env) : (w.apply env op).Inv env := by
  cases op with
  | add wtxIn hmem fWritten => exact h.addToWallet hmem
  | sync tx hmem pblock fWritten =>
      rw [SharedWallet.apply]
      split
      case h_1 => exact h
      case h_2 hsync => exact h.sync hmem hsync
  | erase hash =>
      refine h.of_lookup (fun hash' wtx hwtx ↦ ?_) rfl h.fields
      rw [SharedWallet.apply] at hwtx
      by_cases hhash : hash' = hash
      · rw [hhash, Finmap.lookup_erase] at hwtx
        cases hwtx
      · rw [Finmap.lookup_erase_ne hhash] at hwtx
        exact ⟨wtx, hwtx, rfl⟩
  | cacheDebit hash fDebitCached nDebitCached =>
      refine h.of_lookup (fun _ wtx hwtx ↦ ⟨wtx, hwtx, rfl⟩) rfl fun hash' ↦ ?_
      rw [SharedWallet.apply]
      dsimp only
      by_cases hhash : hash' = hash
      · rw [hhash, Function.update_self]
        exact h.fields hash
      · rw [Function.update_of_ne hhash]
        exact h.fields hash'
  | lockCoin output => exact ⟨h.key, h.recorded, h.spends, h.fields⟩
  | unlockCoin output => exact ⟨h.key, h.recorded, h.spends, h.fields⟩
  | unlockAllCoins => exact ⟨h.key, h.recorded, h.spends, h.fields⟩

theorem inv_run (ops : List (SharedOp env)) : (run env ops).Inv env := by
  have hfoldl : ∀ ops : List (SharedOp env), ∀ w : SharedWallet, w.Inv env →
      (ops.foldl (SharedWallet.apply env) w).Inv env := by
    intro ops
    induction ops with
    | nil => exact fun w h ↦ h
    | cons op ops ih => exact fun w h ↦ ih _ (h.apply op)
  exact hfoldl ops empty inv_empty

/-- What `mapTxSpends` and the transactions of the wallet say is the same. -/
theorem Inv.isSpent_eq (h : w.Inv env) (c : ChainView) (outpoint : COutPoint) :
    w.isSpent env.toWalletEnv c outpoint = w.spentByTx env.toWalletEnv c outpoint := by
  rw [Bool.eq_iff_iff, CWallet.isSpent, CWallet.spentByTx, List.any_eq_true, List.any_eq_true]
  constructor
  · rintro ⟨spend, hspend, hlive⟩
    obtain ⟨heq, hlive⟩ := Bool.and_eq_true_iff.mp hlive
    obtain ⟨tx, hmem, hhash, hcb, txin, htxin, hprevout⟩ := h.spends spend hspend
    rw [CWallet.isLive] at hlive
    split at hlive
    case h_1 => cases hlive
    case h_2 wtx hwtx =>
      obtain ⟨hmem', hhash'⟩ := h.key _ _ hwtx
      obtain rfl := env.node.getTxHash_injOn hmem' hmem (hhash'.trans hhash.symm)
      refine ⟨(spend.2, wtx), CWallet.mem_items.mpr hwtx, ?_⟩
      rw [Bool.and_eq_true, Bool.and_eq_true, List.any_eq_true]
      exact ⟨⟨hlive, by rw [hcb]; rfl⟩, txin, htxin,
        decide_eq_true (hprevout.trans (of_decide_eq_true heq))⟩
  · rintro ⟨⟨hash, wtx⟩, hitem, hspends⟩
    rw [Bool.and_eq_true, Bool.and_eq_true, List.any_eq_true] at hspends
    obtain ⟨⟨hdepth, hcb⟩, txin, htxin, hprevout⟩ := hspends
    have hwtx := CWallet.mem_items.mp hitem
    refine ⟨_, h.recorded hash wtx hwtx (Bool.not_eq_true' _ ▸ hcb) txin htxin, ?_⟩
    rw [Bool.and_eq_true, CWallet.isLive, hwtx]
    exact ⟨hprevout, hdepth⟩

theorem Inv.vfSpent (h : w.Inv env) (hitem : (hash, wtx) ∈ w.sharedItems) : wtx.vfSpent = [] := by
  obtain ⟨⟨hash', wtx'⟩, -, heq⟩ := List.mem_map.mp hitem
  obtain ⟨rfl, rfl⟩ := Prod.mk.inj heq
  exact (h.fields hash').1

theorem isSpent_eq_ok (h : wtx.vfSpent = []) {i : Nat} (hi : i < wtx.tx.vout.length) :
    wtx.isSpent i = .ok false := by
  rw [CSharedTx.isSpent, if_neg (Nat.not_le_of_lt hi), h]
  rfl

/-! ## The coins that are listed -/

theorem mem_listOutputs (env : AddressEnv) (w : SharedWallet) (c : SharedView)
    (coinControl : Option (Finset COutPoint)) (hash : Uint256) (h : wtx.vfSpent = []) {i : Nat}
    {vout : List CTxOut} (hi : i + vout.length ≤ wtx.tx.vout.length) :
    ∃ vCoins, w.listOutputs env c coinControl hash wtx i vout = .ok vCoins ∧
      ∀ output, output ∈ vCoins ↔ ∃ j txout, vout[j]? = some txout ∧
        w.isCandidate env coinControl ⟨hash, i + j⟩ txout = true ∧
        output = ⟨hash, i + j, c.getDepthInMainChain env.toWalletEnv wtx.toCMerkleTx⟩ := by
  induction vout generalizing i with
  | nil =>
      refine ⟨[], rfl, fun output ↦ ⟨nofun, ?_⟩⟩
      rintro ⟨j, txout, hj, -⟩
      cases hj
  | cons txout vout ih =>
      rw [List.length_cons] at hi
      obtain ⟨vCoins, hlist, hmem⟩ := ih (i := i + 1) (by omega)
      have hrest : ∀ output, output ∈ vCoins ↔ ∃ j txout', (txout :: vout)[j + 1]? = some txout' ∧
          w.isCandidate env coinControl ⟨hash, i + (j + 1)⟩ txout' = true ∧
          output = ⟨hash, i + (j + 1), c.getDepthInMainChain env.toWalletEnv wtx.toCMerkleTx⟩ := by
        intro output
        rw [hmem]
        simp only [List.getElem?_cons_succ, Nat.add_assoc, Nat.add_comm 1]
      rw [listOutputs, isSpent_eq_ok h (by omega), hlist]
      cases hcand : w.isCandidate env coinControl ⟨hash, i⟩ txout with
      | true =>
          refine ⟨_, rfl, fun output ↦ ?_⟩
          rw [List.mem_cons, hrest]
          constructor
          · rintro (rfl | ⟨j, txout', hj⟩)
            · exact ⟨0, txout, rfl, hcand, rfl⟩
            · exact ⟨j + 1, txout', hj⟩
          · rintro ⟨j, txout', hj, hcand', rfl⟩
            cases j with
            | zero => exact .inl rfl
            | succ j => exact .inr ⟨j, txout', hj, hcand', rfl⟩
      | false =>
          refine ⟨_, rfl, fun output ↦ ?_⟩
          rw [hrest]
          constructor
          · rintro ⟨j, txout', hj⟩
            exact ⟨j + 1, txout', hj⟩
          · rintro ⟨j, txout', hj, hcand', rfl⟩
            cases j with
            | zero =>
                obtain rfl := Option.some.inj hj
                exact absurd (hcand.symm.trans hcand') Bool.false_ne_true
            | succ j => exact ⟨j, txout', hj, hcand', rfl⟩

theorem isCandidate_none {coinControl : Option (Finset COutPoint)} {outpoint : COutPoint}
    {txout : CTxOut} (h : w.isCandidate env coinControl outpoint txout = true) :
    w.isCandidate env none outpoint txout = true := by
  rw [isCandidate, Bool.and_eq_true] at h ⊢
  exact ⟨h.1, rfl⟩

/-- A coin that a transaction gives is one of its outputs, and a candidate. -/
theorem of_mem_listTransaction {fOnlyConfirmed : Bool} {coinControl : Option (Finset COutPoint)}
    (hvfSpent : wtx.vfSpent = []) {vCoins : List SharedOutput}
    (h : w.listTransaction env c fOnlyConfirmed coinControl hash wtx = .ok vCoins)
    {output : SharedOutput} (hmem : output ∈ vCoins) :
    CSharedTx.isFinal c wtx.tx = true ∧ wtx.isMature env c = true ∧ output.hash = hash ∧
      ∃ txout, wtx.tx.vout[output.i]? = some txout ∧
        w.isCandidate env none ⟨hash, output.i⟩ txout = true := by
  have hnil : ∀ {l : List SharedOutput}, (.ok [] : Except Failure (List SharedOutput)) = .ok l →
      output ∉ l := by
    rintro l hl
    rw [← Except.ok.inj hl]
    exact List.not_mem_nil
  obtain ⟨all, hall, hspec⟩ := mem_listOutputs env w c coinControl hash hvfSpent
    (Nat.zero_add wtx.tx.vout.length).le
  have hend : w.listOutputs env c coinControl hash wtx 0 wtx.tx.vout = .ok vCoins →
      output.hash = hash ∧ ∃ txout, wtx.tx.vout[output.i]? = some txout ∧
        w.isCandidate env none ⟨hash, output.i⟩ txout = true := by
    intro heq
    rw [hall] at heq
    obtain rfl := Except.ok.inj heq
    obtain ⟨j, txout, hj, hcand, rfl⟩ := (hspec output).mp hmem
    rw [Nat.zero_add] at hcand ⊢
    exact ⟨rfl, txout, hj, isCandidate_none hcand⟩
  rw [listTransaction] at h
  cases hfinal : CSharedTx.isFinal c wtx.tx with
  | false =>
      rw [hfinal] at h
      exact absurd hmem (hnil h)
  | true =>
      rw [hfinal] at h
      have hmature : ∀ {x : Except Failure (List SharedOutput)},
          (if !wtx.isMature env c then .ok [] else x) = .ok vCoins →
            wtx.isMature env c = true ∧ x = .ok vCoins := by
        intro x hx
        cases hm : wtx.isMature env c with
        | false =>
            rw [hm] at hx
            exact absurd hmem (hnil hx)
        | true =>
            rw [hm] at hx
            exact ⟨rfl, hx⟩
      cases fOnlyConfirmed with
      | false =>
          obtain ⟨hm, h⟩ := hmature h
          exact ⟨rfl, hm, hend h⟩
      | true =>
          obtain ⟨fConfirmed, -, h⟩ := bind_eq_ok.mp h
          cases fConfirmed with
          | false => exact absurd hmem (hnil h)
          | true =>
              obtain ⟨hm, h⟩ := hmature h
              exact ⟨rfl, hm, hend h⟩

/-- Without a restriction every candidate of a final and mature transaction is given. -/
theorem exists_listTransaction (env : AddressEnv) (w : SharedWallet) (c : SharedView)
    (hash : Uint256) (hvfSpent : wtx.vfSpent = []) :
    ∃ vCoins, w.listTransaction env c false none hash wtx = .ok vCoins ∧
      (CSharedTx.isFinal c wtx.tx = true → wtx.isMature env c = true →
        ∀ (i : Nat) (txout : CTxOut), wtx.tx.vout[i]? = some txout →
          w.isCandidate env none ⟨hash, i⟩ txout = true →
            ∃ output ∈ vCoins, output.hash = hash ∧ output.i = i) := by
  obtain ⟨all, hall, hspec⟩ := mem_listOutputs env w c none hash hvfSpent
    (Nat.zero_add wtx.tx.vout.length).le
  rw [listTransaction]
  cases hfinal : CSharedTx.isFinal c wtx.tx with
  | false => exact ⟨[], rfl, nofun⟩
  | true =>
      cases hmature : wtx.isMature env c with
      | false => exact ⟨[], rfl, fun _ h ↦ absurd h Bool.false_ne_true⟩
      | true =>
          refine ⟨all, hall, fun _ _ i txout hi hcand ↦ ?_⟩
          exact ⟨_, (hspec _).mpr ⟨i, txout, hi, by rwa [Nat.zero_add], rfl⟩, rfl,
            Nat.zero_add i⟩

theorem mapM_eq_ok {α β : Type} {f : α → Except Failure β} {l : List α} {r : List β} :
    l.mapM f = .ok r ↔ List.Forall₂ (fun x y ↦ f x = .ok y) l r := by
  induction l generalizing r with
  | nil =>
      rw [List.mapM_nil, List.forall₂_nil_left_iff]
      exact ⟨fun h ↦ (Except.ok.inj h).symm, fun h ↦ congrArg Except.ok h.symm⟩
  | cons x l ih =>
      rw [List.mapM_cons, List.forall₂_cons_left_iff, bind_eq_ok]
      constructor
      · rintro ⟨y, hy, h⟩
        obtain ⟨ys, hys, h⟩ := bind_eq_ok.mp h
        exact ⟨y, ys, hy, ih.mp hys, (Except.ok.inj h).symm⟩
      · rintro ⟨y, ys, hy, hys, rfl⟩
        exact ⟨y, hy, bind_eq_ok.mpr ⟨ys, ih.mpr hys, rfl⟩⟩

theorem exists_mapM_eq_ok {α β : Type} {f : α → Except Failure β} {l : List α}
    (h : ∀ x ∈ l, ∃ y, f x = .ok y) : ∃ r, l.mapM f = .ok r := by
  induction l with
  | nil => exact ⟨[], rfl⟩
  | cons x l ih =>
      obtain ⟨⟨y, hy⟩, h⟩ := List.forall_mem_cons.mp h
      obtain ⟨ys, hys⟩ := ih h
      exact ⟨y :: ys, mapM_eq_ok.mpr (.cons hy (mapM_eq_ok.mp hys))⟩

theorem exists_of_forall₂_right {α β : Type} {R : α → β → Prop} {l : List α} {r : List β}
    (h : List.Forall₂ R l r) {y : β} (hy : y ∈ r) : ∃ x ∈ l, R x y := by
  induction h with
  | nil => cases hy
  | cons hxy _ ih =>
      obtain rfl | hy := List.mem_cons.mp hy
      · exact ⟨_, List.mem_cons_self, hxy⟩
      · obtain ⟨x, hx, hR⟩ := ih hy
        exact ⟨x, List.mem_cons_of_mem _ hx, hR⟩

/-- Every coin that is listed passes a test iff every candidate does. -/
theorem Inv.coins_iff (h : w.Inv env) (p : COutPoint → Bool) :
    (∀ fOnlyConfirmed coinControl vCoins,
      w.availableSharedCoins env c fOnlyConfirmed coinControl = .ok vCoins →
        ∀ output ∈ vCoins, p ⟨output.hash, output.i⟩ = false) ↔
      ∀ hash wtx, (hash, wtx) ∈ w.sharedItems → CSharedTx.isFinal c wtx.tx = true →
        wtx.isMature env c = true → ∀ (i : Nat) (txout : CTxOut), wtx.tx.vout[i]? = some txout →
          w.isCandidate env none ⟨hash, i⟩ txout = true → p ⟨hash, i⟩ = false := by
  constructor
  · intro hall hash wtx hitem hfinal hmature i txout hi hcand
    obtain ⟨lists, hlists⟩ := exists_mapM_eq_ok (l := w.sharedItems)
      (f := fun item ↦ w.listTransaction env c false none item.1 item.2)
      fun item hitem ↦ (exists_listTransaction env w c _ (h.vfSpent hitem)).imp fun _ h ↦ h.1
    obtain ⟨vCoins, hlist, hgives⟩ :=
      exists_listTransaction env w c hash (h.vfSpent hitem)
    obtain ⟨output, houtput, rfl, rfl⟩ := hgives hfinal hmature i txout hi hcand
    obtain ⟨vCoins', hmem, hlist'⟩ := exists_of_forall₂_right (mapM_eq_ok.mp hlists).flip hitem
    obtain rfl := Except.ok.inj (hlist.symm.trans hlist')
    exact hall false none lists.flatten (bind_eq_ok.mpr ⟨lists, hlists, rfl⟩) output
      (List.mem_flatten.mpr ⟨vCoins, hmem, houtput⟩)
  · intro hall fOnlyConfirmed coinControl vCoins havail output houtput
    obtain ⟨lists, hlists, heq⟩ := bind_eq_ok.mp havail
    obtain rfl := Except.ok.inj heq
    obtain ⟨list, hlist, houtput⟩ := List.mem_flatten.mp houtput
    obtain ⟨⟨hash, wtx⟩, hitem, htx⟩ := exists_of_forall₂_right (mapM_eq_ok.mp hlists) hlist
    obtain ⟨hfinal, hmature, rfl, txout, hi, hcand⟩ :=
      of_mem_listTransaction (h.vfSpent hitem) htx houtput
    exact hall _ wtx hitem hfinal hmature _ txout hi hcand

/-! ## The balance -/

/-- The loop of `GetSharedAvailableCredit` where nothing is spent. -/
def sharedTally (env : AddressEnv) : Tally CTxOut Failure where
  value txout := if env.isMyShare txout.scriptPubKey then txout.nValue else 0
  before txout :=
    failIf (!moneyRange txout.nValue)
      (.exception "CWallet::GetSharedCredit() : value out of range")
  after _ nCredit :=
    failIf (!moneyRange nCredit)
      (.exception "CWalletTx::GetSharedAvailableCredit() : value out of range")

theorem before_sharedTally {txout : CTxOut} :
    (sharedTally env).before txout = .ok () ↔ 0 ≤ txout.nValue := by
  rw [sharedTally, failIf_eq_ok, Bool.not_eq_false', moneyRange_iff]

theorem value_sharedTally (env : AddressEnv) {txout : CTxOut} (h : 0 ≤ txout.nValue) :
    0 ≤ (sharedTally env).value txout := by
  rw [sharedTally]
  dsimp only
  split
  · exact h
  · decide

theorem sharedTally_guarded : (sharedTally env).Guarded := by
  intro txout nCredit hbefore
  have hvalue := value_sharedTally env (before_sharedTally.mp hbefore)
  rw [show (sharedTally env).after txout nCredit = failIf (!moneyRange nCredit) _ from rfl,
    failIf_eq_ok, Bool.not_eq_false', moneyRange_iff]
  exact ⟨fun h ↦ ⟨hvalue, h⟩, fun h ↦ h.2⟩

theorem getSharedCredit_eq_ok {txout : CTxOut} {nCredit : Int64} :
    CSharedTx.getSharedCredit env txout = .ok nCredit ↔
      (sharedTally env).before txout = .ok () ∧ (sharedTally env).value txout = nCredit := by
  rw [before_sharedTally, CSharedTx.getSharedCredit, ← moneyRange_iff]
  cases moneyRange txout.nValue with
  | false =>
      constructor
      · intro h
        cases h
      · exact fun h ↦ absurd h.1 Bool.false_ne_true
  | true =>
      constructor
      · exact fun h ↦ ⟨rfl, Except.ok.inj h⟩
      · exact fun h ↦ congrArg Except.ok h.2

theorem sharedCreditLoop_eq_ok (h : wtx.vfSpent = []) {i : Nat} {vout : List CTxOut}
    (hi : i + vout.length ≤ wtx.tx.vout.length) {nCredit r : Int64} :
    wtx.sharedCreditLoop env i vout nCredit = .ok r ↔
      (sharedTally env).run nCredit vout = .ok r := by
  induction vout generalizing i nCredit with
  | nil => exact Iff.rfl
  | cons txout vout ih =>
      rw [List.length_cons] at hi
      rw [CSharedTx.sharedCreditLoop, isSpent_eq_ok h (by omega), Tally.run_cons_eq_ok]
      constructor
      · intro hloop
        obtain ⟨_, hspent, hloop⟩ := bind_eq_ok.mp hloop
        obtain rfl := Except.ok.inj hspent
        obtain ⟨v, hv, hloop⟩ := bind_eq_ok.mp hloop
        obtain ⟨hbefore, rfl⟩ := getSharedCredit_eq_ok.mp hv
        obtain ⟨⟨⟩, hafter, hloop⟩ := bind_eq_ok.mp hloop
        exact ⟨hbefore, hafter, (ih (by omega)).mp hloop⟩
      · rintro ⟨hbefore, hafter, hrun⟩
        refine bind_eq_ok.mpr ⟨false, rfl, ?_⟩
        refine bind_eq_ok.mpr ⟨_, getSharedCredit_eq_ok.mpr ⟨hbefore, rfl⟩, ?_⟩
        exact bind_eq_ok.mpr ⟨(), hafter, (ih (by omega)).mpr hrun⟩

theorem exact_sharedTally (wtx : CSharedTx) :
    (sharedTally env).exact wtx.tx.vout = (sharedValues env wtx fun _ ↦ true).sum := by
  have hvalues : (sharedValues env wtx fun _ ↦ true) =
      (wtx.tx.vout.zipIdx.map Prod.fst).map fun txout ↦ ((sharedTally env).value txout).toInt := by
    rw [List.map_map, sharedValues]
    refine List.map_congr_left fun ⟨txout, i⟩ _ ↦ ?_
    rw [Function.comp_apply, sharedTally]
    dsimp only
    rw [Bool.and_true]
    split
    · rfl
    · rfl
  rw [hvalues, List.zipIdx_map_fst, Tally.exact]

theorem exists_getSharedAvailableCredit_iff (h : wtx.vfSpent = [])
    (hmature : wtx.isMature env c = true) :
    (∃ nCredit, wtx.getSharedAvailableCredit env c = .ok nCredit) ↔ Summable env wtx := by
  rw [CSharedTx.getSharedAvailableCredit, hmature]
  simp only [Bool.not_true, Bool.false_eq_true, if_false,
    sharedCreditLoop_eq_ok h (Nat.zero_add _).le]
  rw [sharedTally_guarded.exists_run_iff (by decide), exact_sharedTally, Int64.toInt_zero, zero_add]
  refine and_congr_left fun _ ↦ forall₂_congr fun txout _ ↦ ?_
  rw [before_sharedTally]
  exact ⟨fun hx ↦ hx.1, fun hx ↦ ⟨hx, value_sharedTally env hx⟩⟩

theorem toInt_getSharedAvailableCredit (h : wtx.vfSpent = []) (hmature : wtx.isMature env c = true)
    {nCredit : Int64} (hcredit : wtx.getSharedAvailableCredit env c = .ok nCredit) :
    nCredit.toInt = (sharedValues env wtx fun _ ↦ true).sum := by
  rw [CSharedTx.getSharedAvailableCredit, hmature] at hcredit
  have hrun := (sharedCreditLoop_eq_ok h (Nat.zero_add _).le).mp hcredit
  rw [(sharedTally_guarded.run_ok (by decide) hrun).1, exact_sharedTally, Int64.toInt_zero,
    zero_add]

theorem getSharedAvailableCredit_of_immature (hmature : wtx.isMature env c = false) :
    wtx.getSharedAvailableCredit env c = .ok 0 := by
  rw [CSharedTx.getSharedAvailableCredit, hmature]
  rfl

/-- When the loop of `GetSharedBalance` returns, and with what. -/
theorem sharedBalanceLoop_spec (env : AddressEnv) (w : SharedWallet) (c : SharedView)
    {items : List (Uint256 × CSharedTx)} (h : ∀ item ∈ items, item.2.vfSpent = [])
    (nTotal : Int64) :
    ((∃ r, w.sharedBalanceLoop env c items nTotal = .ok r) ↔
      (∀ item ∈ items, ∃ fConfirmed, item.2.isConfirmed env w.toCWallet c = .ok fConfirmed) ∧
      ∀ item ∈ items.filter (w.isCounted env c), Summable env item.2) ∧
    ∀ r, w.sharedBalanceLoop env c items nTotal = .ok r →
      r.toInt ≡ nTotal.toInt + ((items.filter (w.isCounted env c)).map fun item ↦
        (sharedValues env item.2 fun _ ↦ true).sum).sum [ZMOD 2 ^ 64] := by
  induction items generalizing nTotal with
  | nil =>
      have hnil : ∀ {p : Uint256 × CSharedTx → Prop}, ∀ item ∈ [], p item :=
        nofun
      refine ⟨⟨fun _ ↦ ⟨hnil, hnil⟩, fun _ ↦ ⟨nTotal, rfl⟩⟩, fun r hr ↦ ?_⟩
      rw [Except.ok.inj hr, List.filter_nil, List.map_nil, List.sum_nil, add_zero]
  | cons item items ih =>
      obtain ⟨hvfSpent, h⟩ := List.forall_mem_cons.mp h
      rw [sharedBalanceLoop, List.forall_mem_cons, List.filter_cons]
      cases hconf : item.2.isConfirmed env w.toCWallet c with
      | error e =>
          refine ⟨⟨?_, ?_⟩, ?_⟩
          · rintro ⟨r, hr⟩
            cases hr
          · rintro ⟨⟨⟨f, hf⟩, -⟩, -⟩
            cases hf
          · intro r hr
            cases hr
      | ok fConfirmed =>
          cases fConfirmed with
          | false =>
              have hcounted : w.isCounted env c item = false := by
                rw [isCounted, hconf]
                rfl
              rw [hcounted]
              refine ⟨(ih h nTotal).1.trans ?_, (ih h nTotal).2⟩
              exact ⟨fun hr ↦ ⟨⟨⟨false, rfl⟩, hr.1⟩, hr.2⟩, fun hr ↦ ⟨hr.1.2, hr.2⟩⟩
          | true =>
              cases hmature : item.2.isMature env c with
              | false =>
                  have hcounted : w.isCounted env c item = false := by
                    rw [isCounted, hmature, Bool.and_false]
                  have hloop : (do
                      if ← (.ok true : Except Failure Bool) then
                        let nCredit ← item.2.getSharedAvailableCredit env c
                        w.sharedBalanceLoop env c items (nTotal + nCredit)
                      else w.sharedBalanceLoop env c items nTotal) =
                      w.sharedBalanceLoop env c items nTotal := by
                    rw [getSharedAvailableCredit_of_immature hmature]
                    show w.sharedBalanceLoop env c items (nTotal + 0) = _
                    rw [Int64.add_zero]
                  rw [hloop, hcounted]
                  refine ⟨(ih h nTotal).1.trans ?_, (ih h nTotal).2⟩
                  exact ⟨fun hr ↦ ⟨⟨⟨true, rfl⟩, hr.1⟩, hr.2⟩, fun hr ↦ ⟨hr.1.2, hr.2⟩⟩
              | true =>
                  have hcounted : w.isCounted env c item = true := by
                    rw [isCounted, hconf, hmature]
                    rfl
                  rw [hcounted, if_pos rfl, List.forall_mem_cons, List.map_cons, List.sum_cons]
                  constructor
                  · constructor
                    · rintro ⟨r, hr⟩
                      obtain ⟨_, hconf, hr⟩ := bind_eq_ok.mp hr
                      obtain rfl := Except.ok.inj hconf
                      obtain ⟨nCredit, hcredit, hr⟩ := bind_eq_ok.mp hr
                      obtain ⟨hconfirms, hsum⟩ := (ih h _).1.mp ⟨r, hr⟩
                      have hfirst := (exists_getSharedAvailableCredit_iff hvfSpent hmature).mp
                        ⟨nCredit, hcredit⟩
                      exact ⟨⟨⟨true, rfl⟩, hconfirms⟩, hfirst, hsum⟩
                    · rintro ⟨⟨-, hconfirms⟩, hfirst, hsum⟩
                      obtain ⟨nCredit, hcredit⟩ :=
                        (exists_getSharedAvailableCredit_iff hvfSpent hmature).mpr hfirst
                      obtain ⟨r, hr⟩ := (ih h (nTotal + nCredit)).1.mpr ⟨hconfirms, hsum⟩
                      exact ⟨r, bind_eq_ok.mpr ⟨true, rfl, bind_eq_ok.mpr ⟨nCredit, hcredit, hr⟩⟩⟩
                  · intro r hr
                    obtain ⟨_, hconf, hr⟩ := bind_eq_ok.mp hr
                    obtain rfl := Except.ok.inj hconf
                    obtain ⟨nCredit, hcredit, hr⟩ := bind_eq_ok.mp hr
                    rw [← toInt_getSharedAvailableCredit hvfSpent hmature hcredit, ← add_assoc]
                    exact ((ih h _).2 r hr).trans ((toInt_add_modEq nTotal nCredit).add_right _)

/-- The shared outputs are those that are spent and those that are not. -/
theorem sharedTotal_add (p : COutPoint → Bool) :
    (w.sharedTotal env c fun outpoint ↦ !p outpoint) + w.sharedTotal env c p =
      w.sharedTotal env c fun _ ↦ true := by
  rw [sharedTotal, sharedTotal, sharedTotal, ← List.sum_map_add]
  refine congrArg List.sum (List.map_congr_left fun ⟨hash, wtx⟩ _ ↦ ?_)
  dsimp only
  rw [sharedValues, sharedValues, sharedValues, ← List.sum_map_add]
  refine congrArg List.sum (List.map_congr_left fun ⟨txout, i⟩ _ ↦ ?_)
  dsimp only
  cases env.isMyShare txout.scriptPubKey
  · rfl
  · cases p ⟨hash, i⟩
    · exact add_zero _
    · exact zero_add _

theorem sharedTotal_nonneg (h : ∀ item ∈ w.counted env c, Summable env item.2)
    (p : COutPoint → Bool) : 0 ≤ w.sharedTotal env c p := by
  refine List.sum_nonneg fun v hv ↦ ?_
  obtain ⟨⟨hash, wtx⟩, hitem, rfl⟩ := List.mem_map.mp hv
  refine List.sum_nonneg fun v hv ↦ ?_
  obtain ⟨⟨txout, i⟩, hout, rfl⟩ := List.mem_map.mp hv
  dsimp only
  split
  · exact nonneg_iff.mp ((h _ hitem).1 txout (List.fst_mem_of_mem_zipIdx hout))
  · exact le_rfl

theorem Inv.balance_iff (h : w.Inv env) (p : COutPoint → Bool) :
    (∃ nTotal, w.getSharedBalance env c = .ok nTotal ∧
      nTotal.toInt = w.sharedTotal env c fun outpoint ↦ !p outpoint) ↔
    (∀ item ∈ w.sharedItems,
      ∃ fConfirmed, item.2.isConfirmed env w.toCWallet c = .ok fConfirmed) ∧
    (∀ item ∈ w.counted env c, Summable env item.2) ∧
    (w.sharedTotal env c fun outpoint ↦ !p outpoint) < 2 ^ 63 ∧
    2 ^ 64 ∣ w.sharedTotal env c p := by
  obtain ⟨hreturns, hmod⟩ := sharedBalanceLoop_spec env w c (fun _ hitem ↦ h.vfSpent hitem) 0
  have htotal : ∀ nTotal, w.getSharedBalance env c = .ok nTotal → nTotal.toInt ≡
      (w.sharedTotal env c fun outpoint ↦ !p outpoint) + w.sharedTotal env c p [ZMOD 2 ^ 64] := by
    intro nTotal hbalance
    rw [sharedTotal_add]
    have hsum := hmod nTotal hbalance
    rwa [Int64.toInt_zero, zero_add] at hsum
  constructor
  · rintro ⟨nTotal, hbalance, heq⟩
    obtain ⟨hconfirms, hamounts⟩ := hreturns.mp ⟨nTotal, hbalance⟩
    have hsum := htotal nTotal hbalance
    rw [← heq] at hsum
    refine ⟨hconfirms, hamounts, ?_, ?_⟩
    · rw [← heq]
      exact nTotal.toInt_lt
    · have hdvd := hsum.dvd
      rwa [add_sub_cancel_left] at hdvd
  · rintro ⟨hconfirms, hamounts, hlt, hdvd⟩
    obtain ⟨nTotal, hbalance⟩ := hreturns.mpr ⟨hconfirms, hamounts⟩
    refine ⟨nTotal, hbalance, ?_⟩
    have hnonneg := sharedTotal_nonneg hamounts fun outpoint ↦ !p outpoint
    have hsum := (htotal nTotal hbalance).dvd
    have hlower := nTotal.le_toInt
    have hupper := nTotal.toInt_lt
    omega

/-- After any updates, the coins of the shared wallet are those that `CWallet::IsSpent` does not
report iff no transaction of the wallet spends a coin that could be listed, and what they spend of
the balance comes to nothing. -/
theorem sharedCoins_agree_iff (env : AddressEnv) (ops : List (SharedOp env)) (c : SharedView) :
    (run env ops).Agrees env c ↔ (run env ops).Untouched env c := by
  have h := inv_run ops
  have hspent : (run env ops).isSpent env.toWalletEnv c.toChainView =
      (run env ops).spentByTx env.toWalletEnv c.toChainView :=
    funext fun outpoint ↦ h.isSpent_eq c.toChainView outpoint
  have hcoins := h.coins_iff (c := c) ((run env ops).spentByTx env.toWalletEnv c.toChainView)
  have hbalance := h.balance_iff (c := c) ((run env ops).spentByTx env.toWalletEnv c.toChainView)
  constructor
  · rintro ⟨hlisted, htotal⟩
    rw [hspent] at hlisted htotal
    obtain ⟨hconfirms, hamounts, hunspent, hdvd⟩ := hbalance.mp htotal
    exact ⟨hcoins.mp hlisted, hconfirms, hamounts, hunspent, hdvd⟩
  · intro hu
    refine ⟨?_, ?_⟩
    · rw [hspent]
      exact hcoins.mpr hu.coins
    · rw [hspent]
      exact hbalance.mpr ⟨hu.confirms, hu.amounts, hu.unspent, hu.spent⟩

end SharedWallet

/-! ## A shared coin that is spent -/

/-- Transaction 1 has a shared output, which transaction 2 spends. -/
def sharedTx (id : Nat) : CTransaction where
  vin := [⟨⟨BitVec.ofNat 256 (id - 1), 0⟩, [], uintMax⟩]
  vout := [⟨2000000, [if id = 1 then 0x52 else 0x51]⟩]
  nLockTime := id

def sharedTxs : Set CTransaction := {sharedTx 1, sharedTx 2}

theorem sharedTxs_injOn : Set.InjOn chainHash sharedTxs := by
  rintro _ (rfl | rfl) _ (rfl | rfl) h
  · rfl
  · cases h
  · cases h
  · rfl

theorem sharedTxs_acyclic : Cascade.Acyclic (CTransaction.SpentBy chainHash) sharedTxs := by
  refine Cascade.acyclic_of_rank CTransaction.nLockTime ?_
  unfold CTransaction.SpentBy
  rintro _ (rfl | rfl) _ (rfl | rfl) h
  · exact absurd h (by decide)
  · decide
  · exact absurd h (by decide)
  · exact absurd h (by decide)

def sharedEnv : AddressEnv where
  node :=
    { toBlockEnv :=
        { sampleEnv with
          getTxHash := chainHash
          mapBlockIndex := fun hash ↦ some (hash.toNat - 1) }
      readBlock := fun _ ↦ none
      txs := sharedTxs
      readBlock_mem := fun _ _ h ↦ by cases h
      getTxHash_injOn := sharedTxs_injOn
      acyclic := sharedTxs_acyclic
      genesis := fun _ _ h ↦ by cases h }
  readBlock_hash _ _ h := by cases h
  hashMerkleRoot hash := hash - 1
  isMine script := script = [0x51]
  isMyShare script := script = [0x52]
  isMineDestination _ := false
  extractDestination _ := none

/-- Both transactions are added, with the blocks they are in. -/
def sharedOps : List (SharedOp sharedEnv) :=
  [.add { tx := sharedTx 1, hashBlock := 2, nIndex := 0 } (.inl rfl) true,
   .add { tx := sharedTx 2, hashBlock := 3, nIndex := 0 } (.inr rfl) true]

def sharedView : SharedView where
  chainActive := [1, 2, 3]
  mempool := .empty
  nBestHeight := -1
  adjustedTime := 0
  nRounds := 0

theorem sort_one_two : (insert 1 ({2} : Finset Uint256)).sort (· ≤ ·) = [1, 2] :=
  (List.toFinset_sort (l := ([1, 2] : List Uint256)) _ (by decide)).mpr (by decide)

theorem items_sharedOps : (SharedWallet.run sharedEnv sharedOps).sharedItems =
    [(1, { tx := sharedTx 1, hashBlock := 2, nIndex := 0 }),
     (2, { tx := sharedTx 2, hashBlock := 3, nIndex := 0 })] := by
  have hkeys : (SharedWallet.run sharedEnv sharedOps).mapWallet.keys =
      insert 1 ({2} : Finset Uint256) := by decide +kernel
  rw [SharedWallet.sharedItems, CWallet.items, sortedKeys, hkeys, sort_one_two]
  rfl

/-- The output that transaction 2 spends is listed and counted. -/
theorem sharedCoins_stale :
    let w := SharedWallet.run sharedEnv sharedOps
    w.isSpent sharedEnv.toWalletEnv sharedView.toChainView ⟨1, 0⟩ = true ∧
      w.availableSharedCoins sharedEnv sharedView true none = .ok [⟨1, 0, 2⟩] ∧
      w.getSharedBalance sharedEnv sharedView = .ok 2000000 ∧
      ¬ w.Agrees sharedEnv sharedView := by
  intro w
  have hspent : w.isSpent sharedEnv.toWalletEnv sharedView.toChainView ⟨1, 0⟩ = true := by
    decide +kernel
  have hlisted : w.availableSharedCoins sharedEnv sharedView true none = .ok [⟨1, 0, 2⟩] := by
    rw [SharedWallet.availableSharedCoins, items_sharedOps]
    decide +kernel
  have hbalance : w.getSharedBalance sharedEnv sharedView = .ok 2000000 := by
    rw [SharedWallet.getSharedBalance, items_sharedOps]
    decide +kernel
  refine ⟨hspent, hlisted, hbalance, fun h ↦ ?_⟩
  exact Bool.false_ne_true
    ((h.coins _ _ _ hlisted _ List.mem_cons_self).symm.trans hspent)

end Fedoracoin
