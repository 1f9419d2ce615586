import Fedoracoin.Validation
import Fedoracoin.Lib.SparseList
import Mathlib.Data.Finmap

/-!
# Coins and the operations on a coins view

`CCoins` holds the unspent outputs of one transaction, as a list in which spent outputs
are null.  A view is a map from transaction ids to `CCoins` with the hash of the block
whose state it represents; the caching of `CCoinsViewCache` does not show in what its
operations return and is left out here.

`CCoins.toEntry` and `CCoinsView.utxos` say what a `CCoins` and a view stand for: the
unspent outputs by index with the height, coinbase flag and version of their transaction.
A pruned entry stands for nothing, like an absent one.  `spend` and `restore` are
related to updates of that function in `CCoins.utxos_spend` and `CCoins.toEntry_restore`.
-/

namespace Fedoracoin

/-! ## Undo information -/

structure CTxInUndo where
  txout : CTxOut
  fCoinBase : Bool := false
  /-- Zero unless the output spent was the last one of its transaction. -/
  nHeight : Int := 0
  nVersion : Int := 0
deriving DecidableEq

structure CTxUndo where
  vprevout : List CTxInUndo
deriving DecidableEq

/-! ## `CCoins` -/

def opReturn : UInt8 := 0x6a

def CScript.isUnspendable (s : CScript) : Bool := s.head? == some opReturn

structure CCoins where
  fCoinBase : Bool := false
  vout : List CTxOut := []
  nHeight : Int := 0
  nVersion : Int := 0
deriving DecidableEq

namespace CCoins

def isPruned (c : CCoins) : Bool := c.vout.all CTxOut.isNull

def isAvailable (c : CCoins) (nPos : Nat) : Bool :=
  match c.vout[nPos]? with
  | some txout => !txout.isNull
  | none => false

def cleanup (c : CCoins) : CCoins := { c with vout := SparseList.trim CTxOut.isNull c.vout }

def clearUnspendable (c : CCoins) : CCoins :=
  cleanup { c with
    vout := c.vout.map fun txout ↦
      if CScript.isUnspendable txout.scriptPubKey then .null else txout }

/-- The constructor from a transaction at a height. -/
def ofTx (tx : CTransaction) (nHeight : Int) : CCoins :=
  clearUnspendable
    { fCoinBase := tx.isCoinBase, vout := tx.vout, nHeight := nHeight, nVersion := tx.nVersion }

/-- `operator==`. -/
def eq (a b : CCoins) : Bool :=
  (a.isPruned && b.isPruned) ||
    (a.fCoinBase == b.fCoinBase && a.nHeight == b.nHeight && a.nVersion == b.nVersion &&
      a.vout == b.vout)

def spend (c : CCoins) (n : Nat) : Option (CCoins × CTxInUndo) :=
  match c.vout[n]? with
  | none => none
  | some txout =>
      if txout.isNull then none
      else
        let c' := cleanup { c with vout := c.vout.set n .null }
        if c'.vout.length = 0 then
          some (c', ⟨txout, c.fCoinBase, c.nHeight, c.nVersion⟩)
        else some (c', { txout := txout })

/-- Puts back the output that `undo` was recorded for, as `DisconnectBlock` does.  The flag
says whether it was expected to be missing. -/
def restore (c : CCoins) (n : Nat) (undo : CTxInUndo) : CCoins × Bool :=
  -- a height in the record means that this was the last output of its transaction
  let clean := if undo.nHeight ≠ 0 then c.isPruned else !c.isPruned
  let c : CCoins :=
    if undo.nHeight ≠ 0 then
      { fCoinBase := undo.fCoinBase, nHeight := undo.nHeight, nVersion := undo.nVersion }
    else c
  let clean := clean && !c.isAvailable n
  ({ c with vout := SparseList.write .null c.vout n undo.txout }, clean)

/-- The output at an index, null past the end. -/
def voutAt (c : CCoins) (n : Nat) : CTxOut := c.vout.getD n .null

end CCoins

/-! ## Views -/

structure CCoinsView where
  coins : Finmap fun _ : Uint256 ↦ CCoins
  hashBlock : Uint256
deriving DecidableEq

namespace CCoinsView

def haveCoins (view : CCoinsView) (txid : Uint256) : Bool := (view.coins.lookup txid).isSome

/-- `GetCoins` returning a reference, which asserts that there is an entry. -/
def access (view : CCoinsView) (txid : Uint256) : Except Failure CCoins :=
  match view.coins.lookup txid with
  | some c => .ok c
  | none => .error .assertion

/-- `GetCoins` into a fresh `CCoins`, which stays as it is when there is no entry. -/
def getCoins (view : CCoinsView) (txid : Uint256) : CCoins := (view.coins.lookup txid).getD {}

def setCoins (view : CCoinsView) (txid : Uint256) (c : CCoins) : CCoinsView :=
  { view with coins := view.coins.insert txid c }

def setBestBlock (view : CCoinsView) (hashBlock : Uint256) : CCoinsView :=
  { view with hashBlock := hashBlock }

def haveInputs (view : CCoinsView) (tx : CTransaction) : Bool :=
  tx.isCoinBase ||
    (tx.vin.all (fun txin ↦ view.haveCoins txin.prevout.hash) &&
      tx.vin.all fun txin ↦ (view.getCoins txin.prevout.hash).isAvailable txin.prevout.n)

/-- `GetOutputFor`, which asserts that the output is available. -/
def getOutputFor (view : CCoinsView) (txin : CTxIn) : Except Failure CTxOut := do
  let c ← view.access txin.prevout.hash
  failIf (!c.isAvailable txin.prevout.n) .assertion
  return c.voutAt txin.prevout.n

/-- The value `coins.vout[prevout.n].nValue` for an input. -/
def inputValue (view : CCoinsView) (txin : CTxIn) : Int64 :=
  ((view.getCoins txin.prevout.hash).voutAt txin.prevout.n).nValue

/-- The loop of `GetValueIn`. -/
def valueInTally (view : CCoinsView) : RunningSum.Tally CTxIn Failure where
  value := view.inputValue
  before txin := do
    let _ ← view.getOutputFor txin
    return ()
  after _ _ := .ok ()

def getValueIn (view : CCoinsView) (tx : CTransaction) : Except Failure Int64 :=
  if tx.isCoinBase then .ok 0 else view.valueInTally.run 0 tx.vin

end CCoinsView

/-! ## `CheckInputs` -/

def coinbaseMaturity : Int := 30
def baseMaturity : Int := 30
def coinbaseMaturityNew : Int := baseMaturity
def coinbaseMaturitySwitch : Int := 1180000

def getRequiredMaturityDepth (nHeight : Int) : Int :=
  if coinbaseMaturitySwitch ≤ nHeight then coinbaseMaturityNew else coinbaseMaturity

structure CScriptCheck where
  scriptPubKey : CScript
  ptxTo : CTransaction
  nIn : Nat
  nFlags : Nat
deriving DecidableEq

namespace CCoinsView

/-- The loop over the inputs that checks maturity and adds up the values. -/
def checkInputsTally (view : CCoinsView) (nSpendHeight : Int) :
    RunningSum.Tally CTxIn Failure where
  value := view.inputValue
  before txin :=
    let c := view.getCoins txin.prevout.hash
    failIf (c.fCoinBase &&
        decide (nSpendHeight - c.nHeight < getRequiredMaturityDepth c.nHeight))
      (.dos 0 rejectInvalid "bad-txns-premature-spend-of-coinbase")
  after txin nValueIn :=
    failIf (!moneyRange (view.inputValue txin) || !moneyRange nValueIn)
      (.dos 100 rejectInvalid "bad-txns-inputvalues-outofrange")

/-- The script check of one input.  `verifyScript` is `VerifyScript`. -/
def checkInputScript (verifyScript : CScriptCheck → Bool) (check : CScriptCheck) :
    Except Failure Unit :=
  if verifyScript check then .ok ()
  else do
    if check.nFlags &&& scriptVerifyStrictenc ≠ 0 then
      failIf (verifyScript { check with nFlags := check.nFlags ^^^ scriptVerifyStrictenc })
        (.dos 0 rejectNonstandard "non-canonical")
    .error (.dos 100 rejectNonstandard "non-canonical")

/-- The script checks of a transaction, one for each input. -/
def scriptChecks (view : CCoinsView) (tx : CTransaction) (flags : Nat) : List CScriptCheck :=
  tx.vin.zipIdx.map fun (txin, i) ↦
    ⟨((view.getCoins txin.prevout.hash).voutAt txin.prevout.n).scriptPubKey, tx, i, flags⟩

/-- The amounts of a transaction that is not a coinbase: `CheckInputs` up to the scripts.
`mapBlockIndex` gives the height of a block in the index. -/
def checkInputAmounts (mapBlockIndex : Uint256 → Option Int) (view : CCoinsView)
    (tx : CTransaction) : Except Failure Unit := do
  failIf (!view.haveInputs tx) (.dos 0)
  match mapBlockIndex view.hashBlock with
  | none => .error .assertion
  | some nHeight => do
      let nValueIn ← (view.checkInputsTally (nHeight + 1)).run 0 tx.vin
      let nValueOut ← tx.valueOut
      failIf (decide (nValueIn < nValueOut)) (.dos 100 rejectInvalid "bad-txns-in-belowout")
      let nTxFee := nValueIn - nValueOut
      failIf (decide (nTxFee < 0)) (.dos 100 rejectInvalid "bad-txns-fee-negative")
      failIf (!moneyRange (0 + nTxFee)) (.dos 100 rejectInvalid "bad-txns-fee-outofrange")

/-- `CheckInputs`.  With a queue the script checks are returned, else they are run. -/
def checkInputs (mapBlockIndex : Uint256 → Option Int) (verifyScript : CScriptCheck → Bool)
    (view : CCoinsView) (tx : CTransaction) (fScriptChecks : Bool) (flags : Nat)
    (queue : Bool) : Except Failure (List CScriptCheck) :=
  if tx.isCoinBase then .ok []
  else do
    checkInputAmounts mapBlockIndex view tx
    if !fScriptChecks then return []
    if queue then return view.scriptChecks tx flags
    (view.scriptChecks tx flags).forM (checkInputScript verifyScript)
    return []

/-! ## `UpdateCoins` -/

/-- `inputs.GetCoins(prevout.hash).Spend(prevout, undo)`, with its assertions. -/
def spendInput (view : CCoinsView) (txin : CTxIn) : Except Failure (CCoinsView × CTxInUndo) := do
  let c ← view.access txin.prevout.hash
  match c.spend txin.prevout.n with
  | none => .error .assertion
  | some (c', undo) => .ok (view.setCoins txin.prevout.hash c', undo)

/-- The loop that marks the inputs spent. -/
def spendInputs (view : CCoinsView) : List CTxIn → Except Failure (CCoinsView × List CTxInUndo)
  | [] => .ok (view, [])
  | txin :: vin => do
      let (view, undo) ← view.spendInput txin
      let (view, vprevout) ← view.spendInputs vin
      return (view, undo :: vprevout)

def updateCoins (view : CCoinsView) (tx : CTransaction) (nHeight : Int) (txhash : Uint256) :
    Except Failure (CCoinsView × CTxUndo) := do
  let (view, vprevout) ← if tx.isCoinBase then .ok (view, []) else view.spendInputs tx.vin
  return (view.setCoins txhash (.ofTx tx nHeight), ⟨vprevout⟩)

end CCoinsView

/-! ## What coins stand for -/

/-- The unspent outputs of one transaction and what the view knows about it. -/
@[ext]
structure Entry where
  output : Nat → Option CTxOut
  fCoinBase : Bool
  nHeight : Int
  nVersion : Int

namespace CCoins

def outputs (c : CCoins) : Nat → Option CTxOut := SparseList.get CTxOut.isNull c.vout

/-- The entry a `CCoins` stands for; none when all outputs are spent. -/
def toEntry (c : CCoins) : Option Entry :=
  if c.isPruned then none else some ⟨c.outputs, c.fCoinBase, c.nHeight, c.nVersion⟩

variable {c c' : CCoins} {n : Nat} {txout : CTxOut} {undo : CTxInUndo}

theorem isPruned_iff : c.isPruned = true ↔ c.outputs = fun _ ↦ none := by
  rw [outputs, SparseList.get_eq_none_iff, isPruned, List.all_eq_true]

theorem isAvailable_iff : c.isAvailable n = true ↔ ∃ txout, c.outputs n = some txout := by
  simp only [outputs, SparseList.get_eq_some_iff, isAvailable]
  cases c.vout[n]? <;> simp

theorem voutAt_eq (h : c.outputs n = some txout) : c.voutAt n = txout := by
  rw [voutAt, List.getD_eq_getElem?_getD, (SparseList.get_eq_some_iff.mp h).1, Option.getD_some]

theorem outputs_clearUnspendable (n : Nat) :
    c.clearUnspendable.outputs n = (c.outputs n).filter fun txout ↦
      !CScript.isUnspendable txout.scriptPubKey := by
  rw [clearUnspendable, cleanup, outputs, SparseList.get_trim, outputs, SparseList.get,
    SparseList.get, List.getElem?_map]
  cases c.vout[n]? with
  | none => rfl
  | some txout =>
      cases hu : CScript.isUnspendable txout.scriptPubKey <;>
        cases hn : txout.isNull <;> simp [Option.filter, hu, hn]

/-- Everything `Spend` does. -/
theorem spend_eq_some (h : c.spend n = some (c', undo)) :
    c.outputs n = some undo.txout ∧ c'.outputs = Function.update c.outputs n none ∧
      c'.fCoinBase = c.fCoinBase ∧ c'.nHeight = c.nHeight ∧ c'.nVersion = c.nVersion ∧
      c'.vout = SparseList.trim CTxOut.isNull (c.vout.set n .null) ∧
      (c'.isPruned = true → undo = ⟨undo.txout, c.fCoinBase, c.nHeight, c.nVersion⟩) ∧
      (c'.isPruned = false → undo = { txout := undo.txout }) := by
  rw [spend] at h
  cases hget : c.vout[n]? with
  | none => simp [hget] at h
  | some txout =>
      cases hnull : txout.isNull with
      | true => simp [hget, hnull] at h
      | false =>
          have hout : c.outputs n = some txout := SparseList.get_eq_some_iff.mpr ⟨hget, hnull⟩
          have hspent : (cleanup { c with vout := c.vout.set n .null }).outputs =
              Function.update c.outputs n none := by
            rw [cleanup, outputs, SparseList.get_trim, SparseList.get_erase CTxOut.isNull_null]
            rfl
          have hlen : (cleanup { c with vout := c.vout.set n .null }).vout.length = 0 ↔
              (cleanup { c with vout := c.vout.set n .null }).isPruned = true := by
            rw [List.length_eq_zero_iff, cleanup, SparseList.trim_eq_nil_iff, isPruned_iff, outputs,
              SparseList.get_trim, SparseList.get_eq_none_iff]
          simp only [hget, hnull, Bool.false_eq_true, if_false] at h
          split at h
          · rename_i h0
            rw [Option.some.injEq, Prod.mk.injEq] at h
            obtain ⟨rfl, rfl⟩ := h
            refine ⟨hout, hspent, rfl, rfl, rfl, rfl, fun _ ↦ rfl, fun hf ↦ ?_⟩
            rw [hlen.mp h0] at hf
            cases hf
          · rename_i h0
            rw [Option.some.injEq, Prod.mk.injEq] at h
            obtain ⟨rfl, rfl⟩ := h
            exact ⟨hout, hspent, rfl, rfl, rfl, rfl, fun ht ↦ absurd (hlen.mpr ht) h0,
              fun _ ↦ rfl⟩

theorem toEntry_eq_none : c.toEntry = none ↔ c.isPruned = true := by
  rw [toEntry]
  split <;> simp_all

theorem toEntry_eq_some {e : Entry} : c.toEntry = some e ↔
    c.isPruned = false ∧ e = ⟨c.outputs, c.fCoinBase, c.nHeight, c.nVersion⟩ := by
  rw [toEntry]
  cases hp : c.isPruned with
  | true => simp
  | false =>
      simp only [Bool.false_eq_true, if_false, Option.some.injEq, true_and]
      exact eq_comm

theorem isPruned_eq_false (h : c.outputs n = some txout) : c.isPruned = false := by
  rw [Bool.eq_false_iff]
  intro hp
  rw [isPruned_iff.mp hp] at h
  cases h

/-- **Restoring undoes spending.**  It does so on any coins that stand for what is left
after spending. -/
theorem restore_spend {w : CCoins} (h : c.spend n = some (c', undo)) (h0 : c.nHeight ≠ 0)
    (hw : w.toEntry = c'.toEntry) :
    (w.restore n undo).2 = true ∧ (w.restore n undo).1.toEntry = c.toEntry := by
  obtain ⟨hout, hspent, hcb, hh, hv, -, hpruned, hleft⟩ := spend_eq_some h
  obtain ⟨-, hnull⟩ := SparseList.get_eq_some_iff.mp hout
  have hc : c.toEntry = some ⟨c.outputs, c.fCoinBase, c.nHeight, c.nVersion⟩ :=
    toEntry_eq_some.mpr ⟨isPruned_eq_false hout, rfl⟩
  have hback : Function.update (Function.update c.outputs n none) n (some undo.txout) =
      c.outputs := by
    rw [Function.update_idem, ← hout, Function.update_eq_self]
  have hwrite : ∀ vout, SparseList.get CTxOut.isNull vout = c'.outputs →
      SparseList.get CTxOut.isNull (SparseList.write .null vout n undo.txout) = c.outputs := by
    intro vout hvout
    rw [SparseList.get_write CTxOut.isNull_null hnull, hvout, hspent, hback]
  cases hp : c'.isPruned with
  | true =>
      -- the last output: the record carries what the entry needs
      have hwp : w.isPruned = true := toEntry_eq_none.mp (hw.trans (toEntry_eq_none.mpr hp))
      have hheight : undo.nHeight = c.nHeight := congrArg CTxInUndo.nHeight (hpruned hp)
      have hnil := hwrite [] (isPruned_iff.mp hp).symm
      rw [restore, if_pos (hheight ▸ h0), if_pos (hheight ▸ h0), hwp]
      refine ⟨rfl, ?_⟩
      rw [hc, toEntry_eq_some]
      refine ⟨isPruned_eq_false (show CCoins.outputs _ n = some undo.txout from ?_), ?_⟩
      · rw [outputs, hnil, hout]
      · rw [Entry.mk.injEq]
        exact ⟨hnil.symm, (congrArg CTxInUndo.fCoinBase (hpruned hp)).symm, hheight.symm,
          (congrArg CTxInUndo.nVersion (hpruned hp)).symm⟩
  | false =>
      -- other outputs are left: the entry is still there
      have hheight : undo.nHeight = 0 := congrArg CTxInUndo.nHeight (hleft hp)
      have hc' : c'.toEntry = some ⟨c'.outputs, c'.fCoinBase, c'.nHeight, c'.nVersion⟩ :=
        toEntry_eq_some.mpr ⟨hp, rfl⟩
      obtain ⟨hwp, hwe⟩ := toEntry_eq_some.mp (hw.trans hc')
      obtain ⟨hwout, hwcb, hwh, hwv⟩ := Entry.mk.injEq .. ▸ hwe
      have hav : w.isAvailable n = false := by
        rw [Bool.eq_false_iff]
        intro hav
        obtain ⟨txout, htx⟩ := isAvailable_iff.mp hav
        rw [← hwout, hspent, Function.update_self] at htx
        cases htx
      rw [restore, if_neg (by simp [hheight]), if_neg (by simp [hheight]), hwp, hav]
      refine ⟨rfl, ?_⟩
      have hfull := hwrite w.vout hwout.symm
      rw [hc, toEntry_eq_some]
      refine ⟨isPruned_eq_false (show CCoins.outputs _ n = some undo.txout from ?_), ?_⟩
      · rw [outputs, hfull, hout]
      · rw [Entry.mk.injEq]
        exact ⟨hfull.symm, hcb.symm.trans hwcb, hh.symm.trans hwh, hv.symm.trans hwv⟩

/-- The list of outputs of a `CCoins` is the canonical one. -/
def Canonical (c : CCoins) : Prop := SparseList.Canonical CTxOut.isNull .null c.vout

theorem canonical_empty : Canonical {} := .nil

theorem Canonical.spend (hc : c.Canonical) (h : c.spend n = some (c', undo)) : c'.Canonical := by
  obtain ⟨-, -, -, -, -, hvout, -⟩ := spend_eq_some h
  rw [Canonical, hvout]
  exact hc.trim_erase

theorem Canonical.restore (hc : c.Canonical) (hnull : undo.txout.isNull = false) :
    (c.restore n undo).1.Canonical := by
  rw [CCoins.restore]
  split
  · exact SparseList.Canonical.nil.write hnull
  · exact SparseList.Canonical.write hc hnull

theorem canonical_clearUnspendable (h : ∀ txout ∈ c.vout, txout.isNull = true → txout = .null) :
    c.clearUnspendable.Canonical := by
  refine SparseList.canonical_trim fun txout hmem hnull ↦ ?_
  obtain ⟨txout', hmem', rfl⟩ := List.mem_map.mp hmem
  split at hnull
  · rw [if_pos (by assumption)]
  · rw [if_neg (by assumption)]
    exact h _ hmem' hnull

theorem canonical_ofTx {tx : CTransaction} {nHeight : Int}
    (h : ∀ txout ∈ tx.vout, 0 ≤ txout.nValue) : (ofTx tx nHeight).Canonical := by
  refine canonical_clearUnspendable fun txout hmem hnull ↦ ?_
  rw [CTxOut.isNull_eq_false_of_nonneg (h txout hmem)] at hnull
  cases hnull

theorem eq_of_pruned {a b : CCoins} (ha : a.isPruned = true) (hb : b.isPruned = true) :
    a.eq b = true := by
  rw [eq, ha, hb]
  rfl

theorem eq_of_vout_eq {a b : CCoins} (hcb : a.fCoinBase = b.fCoinBase)
    (hh : a.nHeight = b.nHeight) (hv : a.nVersion = b.nVersion) (hvout : a.vout = b.vout) :
    a.eq b = true := by
  rw [eq, hcb, hh, hv, hvout]
  simp

/-- The outputs kept from a transaction are spendable, so clearing them again changes
nothing. -/
theorem outputs_clearUnspendable_ofTx {w : CCoins} {tx : CTransaction} {nHeight : Int}
    (h : w.outputs = (ofTx tx nHeight).outputs) : w.clearUnspendable.outputs = w.outputs := by
  funext n
  rw [outputs_clearUnspendable, h, ofTx, outputs_clearUnspendable, Option.filter_filter]
  simp only [Bool.and_self]

/-- Coins that stand for the outputs of a transaction, in canonical form, pass the comparison
of `DisconnectBlock`. -/
theorem eq_ofTx {w : CCoins} {tx : CTransaction} {nHeight v : Int}
    (hw : w.toEntry = (ofTx tx nHeight).toEntry) (hcan : w.Canonical)
    (hnonneg : ∀ txout ∈ tx.vout, 0 ≤ txout.nValue)
    (hv : v = w.nVersion ∨ v = (ofTx tx nHeight).nVersion) :
    eq { w.clearUnspendable with nVersion := v } (ofTx tx nHeight) = true := by
  cases hp : (ofTx tx nHeight).isPruned with
  | true =>
      have hwp : w.isPruned = true := toEntry_eq_none.mp (hw.trans (toEntry_eq_none.mpr hp))
      refine eq_of_pruned (isPruned_iff.mpr ?_) hp
      funext n
      exact (outputs_clearUnspendable n).trans (by rw [isPruned_iff.mp hwp]; rfl)
  | false =>
      obtain ⟨_, hwe⟩ := toEntry_eq_some.mp (hw.trans (toEntry_eq_some.mpr ⟨hp, rfl⟩))
      rw [Entry.mk.injEq] at hwe
      obtain ⟨hout, hcb, hh, hver⟩ := hwe
      have hclear := outputs_clearUnspendable_ofTx hout.symm
      have hvout : w.clearUnspendable.vout = (ofTx tx nHeight).vout :=
        (canonical_clearUnspendable hcan.hole_eq).eq_of_get_eq (canonical_ofTx hnonneg)
          (hclear.trans hout.symm)
      refine eq_of_vout_eq hcb.symm hh.symm ?_ hvout
      rcases hv with rfl | rfl
      · exact hver.symm
      · rfl

end CCoins

namespace CCoinsView

/-- The entries of a view by transaction id. -/
def utxos (view : CCoinsView) (txid : Uint256) : Option Entry :=
  (view.coins.lookup txid).bind CCoins.toEntry

/-- The unspent output at an outpoint. -/
def output (view : CCoinsView) (o : COutPoint) : Option CTxOut :=
  (view.getCoins o.hash).outputs o.n

variable {view view' : CCoinsView} {txin : CTxIn} {undo : CTxInUndo} {txid txid' : Uint256}
  {c : CCoins} {o : COutPoint}

@[simp] theorem lookup_setCoins_self : (view.setCoins txid c).coins.lookup txid = some c :=
  Finmap.lookup_insert _

@[simp] theorem lookup_setCoins_of_ne (h : txid' ≠ txid) :
    (view.setCoins txid c).coins.lookup txid' = view.coins.lookup txid' :=
  Finmap.lookup_insert_of_ne _ h

@[simp] theorem getCoins_setCoins_self : (view.setCoins txid c).getCoins txid = c := by
  rw [getCoins, lookup_setCoins_self, Option.getD_some]

@[simp] theorem getCoins_setCoins_of_ne (h : txid' ≠ txid) :
    (view.setCoins txid c).getCoins txid' = view.getCoins txid' := by
  rw [getCoins, lookup_setCoins_of_ne h, getCoins]

/-- An absent entry stands for what the empty `CCoins` stands for. -/
theorem utxos_eq : view.utxos txid = (view.getCoins txid).toEntry := by
  rw [utxos, getCoins]
  cases view.coins.lookup txid <;> rfl

theorem utxos_setCoins :
    (view.setCoins txid c).utxos = Function.update view.utxos txid c.toEntry := by
  funext txid'
  by_cases h : txid' = txid
  · subst h
    rw [Function.update_self, utxos_eq, getCoins_setCoins_self]
  · rw [Function.update_of_ne h, utxos_eq, getCoins_setCoins_of_ne h, utxos_eq]

theorem haveInputs_iff {tx : CTransaction} (hcb : tx.isCoinBase = false) :
    view.haveInputs tx = true ↔
      ∀ txin ∈ tx.vin, ∃ txout, view.output txin.prevout = some txout := by
  rw [haveInputs, hcb, Bool.false_or, Bool.and_eq_true, List.all_eq_true, List.all_eq_true]
  simp only [CCoins.isAvailable_iff, output]
  refine ⟨fun h ↦ h.2, fun h ↦ ⟨fun txin hmem ↦ ?_, h⟩⟩
  obtain ⟨txout, hout⟩ := h txin hmem
  rw [haveCoins]
  rw [getCoins] at hout
  cases hl : view.coins.lookup txin.prevout.hash with
  | none => simp [hl, CCoins.outputs] at hout
  | some c => rfl

/-- `GetOutputFor` succeeds exactly on available outputs. -/
theorem getOutputFor_eq_ok {txout : CTxOut} :
    view.getOutputFor txin = .ok txout ↔ view.output txin.prevout = some txout := by
  rw [getOutputFor, access, output, getCoins]
  cases view.coins.lookup txin.prevout.hash with
  | none => simp [CCoins.outputs, bind_eq_ok]
  | some c =>
      simp only [bind_eq_ok, Except.ok.injEq, failIf_eq_ok, Bool.not_eq_false',
        CCoins.isAvailable_iff, exists_eq_left', exists_const, Option.getD_some]
      constructor
      · rintro ⟨⟨txout', hout⟩, heq⟩
        rw [CCoins.voutAt_eq hout] at heq
        obtain rfl := Except.ok.inj heq
        exact hout
      · intro hout
        exact ⟨⟨txout, hout⟩, by rw [CCoins.voutAt_eq hout]; rfl⟩

theorem inputValue_eq {txout : CTxOut} (h : view.output txin.prevout = some txout) :
    view.inputValue txin = txout.nValue := by
  rw [inputValue, CCoins.voutAt_eq h]

theorem checkInputsTally_guarded {nSpendHeight : Int} :
    (view.checkInputsTally nSpendHeight).Guarded := by
  intro txin s _
  change failIf (!moneyRange (view.inputValue txin) || !moneyRange s) _ = _ ↔
    0 ≤ view.inputValue txin ∧ 0 ≤ s
  simp

/-- Everything the spending of an input does. -/
theorem spendInput_eq_ok (h : view.spendInput txin = .ok (view', undo)) :
    ∃ c c', view.coins.lookup txin.prevout.hash = some c ∧
      c.spend txin.prevout.n = some (c', undo) ∧ view' = view.setCoins txin.prevout.hash c' := by
  rw [spendInput, access] at h
  cases hl : view.coins.lookup txin.prevout.hash with
  | none => simp [hl, bind_eq_ok] at h
  | some c =>
      rw [hl, bind_eq_ok] at h
      obtain ⟨c', hc', h⟩ := h
      obtain rfl := Except.ok.inj hc'
      cases hs : c.spend txin.prevout.n with
      | none => simp [hs] at h
      | some p =>
          obtain ⟨c', u⟩ := p
          simp only [hs, Except.ok.injEq, Prod.mk.injEq] at h
          obtain ⟨rfl, rfl⟩ := h
          exact ⟨c, c', rfl, hs, rfl⟩

theorem spendInputs_cons_eq_ok {vin : List CTxIn} {undos : List CTxInUndo} :
    view.spendInputs (txin :: vin) = .ok (view', undos) ↔
      ∃ view₁ undo undos', view.spendInput txin = .ok (view₁, undo) ∧
        view₁.spendInputs vin = .ok (view', undos') ∧ undos = undo :: undos' := by
  simp only [spendInputs, bind_eq_ok, Prod.exists]
  constructor
  · rintro ⟨view₁, undo, h₁, view₂, undos', h₂, h⟩
    obtain ⟨rfl, rfl⟩ := Prod.mk.inj (Except.ok.inj h)
    exact ⟨view₁, undo, undos', h₁, h₂, rfl⟩
  · rintro ⟨view₁, undo, undos', h₁, h₂, rfl⟩
    exact ⟨view₁, undo, h₁, view', undos', h₂, rfl⟩

end CCoinsView

end Fedoracoin
