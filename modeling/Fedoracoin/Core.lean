import Fedoracoin.Lib.RunningSum
import Mathlib.Data.BitVec

/-!
# Amounts, outpoints and transactions

The data model of `core.h`, with the parts of `util.h` and `serialize.h` it rests
on.  Amounts are `int64_t` and kept at that width, since several of the results
are about where they wrap.

* A `uint256` is a 256-bit vector; `GetHash` of a transaction or block is a
  parameter of the development wherever it matters, because SHA-256 is not part
  of the repository.
* A `CScript` is its byte string.
* `unsigned int` counters and indices are natural numbers.
-/

namespace Fedoracoin

abbrev Uint256 := BitVec 256

abbrev CScript := List UInt8

/-! ## Script verification flags -/

def scriptVerifyP2sh : Nat := 1
def scriptVerifyStrictenc : Nat := 2
def scriptVerifyLowS : Nat := 4
def scriptVerifyNocache : Nat := 8
def scriptVerifyDersig : Nat := 32

/-! ## Money -/

def oldCoin : Int64 := 500000000
def coin : Int64 := 100000000
def cent : Int64 := 1000000

/-- `MAX_MONEY`, a product of two 64-bit operands. -/
def maxMoney : UInt64 := 500000000000 * coin.toUInt64

/-- `MoneyRange`.  The second comparison is between a signed and an unsigned 64-bit
value, so the signed one is converted. -/
def moneyRange (nValue : Int64) : Bool :=
  decide (0 ≤ nValue) && decide (nValue.toUInt64 ≤ maxMoney)

/-- The product wraps to a value above every non-negative `int64_t`. -/
theorem maxMoney_toNat : maxMoney.toNat = 13106511852580896768 := by decide

/-- Conversion of a signed value to unsigned is reduction modulo `2 ^ 64`. -/
theorem toNat_toUInt64 (v : Int64) : (v.toUInt64.toNat : Int) = v.toInt % 2 ^ 64 := by
  have hlt := v.toUInt64.toNat_lt
  rw [← Int64.toNat_toBitVec] at hlt ⊢
  rw [Int64.toInt, BitVec.toInt_eq_toNat_cond]
  split <;> omega

theorem toNat_toUInt64_of_nonneg {v : Int64} (h : 0 ≤ v) : (v.toUInt64.toNat : Int) = v.toInt := by
  have := v.toInt_lt
  rw [toNat_toUInt64, Int.emod_eq_of_lt (RunningSum.nonneg_iff.mp h) (by omega)]

theorem toUInt64_le_maxMoney {v : Int64} (h : 0 ≤ v) : v.toUInt64 ≤ maxMoney := by
  rw [UInt64.le_iff_toNat_le, maxMoney_toNat]
  have := toNat_toUInt64_of_nonneg h
  have := v.toInt_lt
  omega

/-- `MoneyRange` admits every non-negative amount: its upper test never fails. -/
@[simp] theorem moneyRange_iff {v : Int64} : moneyRange v = true ↔ 0 ≤ v := by
  rw [moneyRange, Bool.and_eq_true, decide_eq_true_eq, decide_eq_true_eq]
  exact ⟨fun h ↦ h.1, fun h ↦ ⟨h, toUInt64_le_maxMoney h⟩⟩

/-! ## Outpoints, inputs, outputs -/

@[ext]
structure COutPoint where
  hash : Uint256
  n : Nat
deriving DecidableEq

/-- `(unsigned int) -1`. -/
def uintMax : Nat := 4294967295

namespace COutPoint

def null : COutPoint := ⟨0, uintMax⟩

def isNull (o : COutPoint) : Bool := o.hash == 0 && o.n == uintMax

end COutPoint

structure CTxIn where
  prevout : COutPoint
  scriptSig : CScript := []
  nSequence : Nat := uintMax
deriving DecidableEq

@[ext]
structure CTxOut where
  nValue : Int64
  scriptPubKey : CScript
deriving DecidableEq

namespace CTxOut

/-- `SetNull`: what a spent output is overwritten with. -/
def null : CTxOut := ⟨-1, []⟩

def isNull (o : CTxOut) : Bool := o.nValue == -1

@[simp] theorem isNull_null : null.isNull = true := rfl

theorem isNull_eq_false_of_nonneg {o : CTxOut} (h : 0 ≤ o.nValue) : o.isNull = false := by
  rw [isNull, beq_eq_false_iff_ne]
  intro h'
  rw [h'] at h
  cases h

end CTxOut

structure CTransaction where
  nVersion : Int := 1
  vin : List CTxIn
  vout : List CTxOut
  nLockTime : Nat := 0
deriving DecidableEq

namespace CTransaction

def isCoinBase (tx : CTransaction) : Bool :=
  match tx.vin with
  | [txin] => txin.prevout.isNull
  | _ => false

/-- The loop of `GetValueOut`; its failed test throws. -/
def valueOutTally : RunningSum.Tally CTxOut Unit where
  value txout := txout.nValue
  before _ := .ok ()
  after txout nValueOut :=
    if !moneyRange txout.nValue || !moneyRange nValueOut then .error () else .ok ()

/-- `GetValueOut`; `.error` is the `runtime_error` "value out of range". -/
def getValueOut (tx : CTransaction) : Except Unit Int64 :=
  valueOutTally.run 0 tx.vout

theorem valueOutTally_guarded : valueOutTally.Guarded := by
  intro txout s _
  change (if !moneyRange txout.nValue || !moneyRange s then _ else _) = _ ↔
    0 ≤ txout.nValue ∧ 0 ≤ s
  rw [← moneyRange_iff, ← moneyRange_iff]
  cases moneyRange txout.nValue <;> cases moneyRange s <;> simp

/-- What `GetValueOut` returns is the exact sum of the outputs. -/
theorem getValueOut_ok {tx : CTransaction} {v : Int64} (h : tx.getValueOut = .ok v) :
    v.toInt = valueOutTally.exact tx.vout ∧ 0 ≤ v ∧ ∀ o ∈ tx.vout, 0 ≤ o.nValue := by
  obtain ⟨hsum, h0, hall⟩ := valueOutTally_guarded.run_ok (by decide) h
  exact ⟨by simpa using hsum, h0, hall⟩

end CTransaction

/-! ## Serialized sizes -/

/-- `GetSizeOfCompactSize`. -/
def getSizeOfCompactSize (nSize : Nat) : Nat :=
  if nSize < 253 then 1
  else if nSize ≤ 65535 then 3
  else if nSize ≤ uintMax then 5
  else 9

def CScript.getSerializeSize (s : CScript) : Nat := getSizeOfCompactSize s.length + s.length

def CTxIn.getSerializeSize (txin : CTxIn) : Nat :=
  36 + CScript.getSerializeSize txin.scriptSig + 4

def CTxOut.getSerializeSize (txout : CTxOut) : Nat :=
  8 + CScript.getSerializeSize txout.scriptPubKey

def CTransaction.getSerializeSize (tx : CTransaction) : Nat :=
  4 + (getSizeOfCompactSize tx.vin.length + (tx.vin.map CTxIn.getSerializeSize).sum)
    + (getSizeOfCompactSize tx.vout.length + (tx.vout.map CTxOut.getSerializeSize).sum) + 4

end Fedoracoin
