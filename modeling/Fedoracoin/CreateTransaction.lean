import Fedoracoin.Lib.Reallocation
import Fedoracoin.SelectedSum

/-!
# Creating a transaction

`CreateTransaction` and `GetMinFee`.  What the calls of a round return is arbitrary: the coins that
`SelectCoins` chooses, the random numbers, the script for the change, the signatures, and whether
the priority, a `double`, allows the transaction to be free.  An iterator into a block that the
vector has left is worth nothing.
-/

namespace Fedoracoin

open Reallocation

inductive GetMinFeeMode where
  | relay
  | send
deriving DecidableEq

/-- The fees that are configured, and `nTransactionFee`. -/
structure FeeRates where
  nTransactionFee : Int64
  nMinTxFee : Int64
  nMinRelayTxFee : Int64

def defaultBlockPrioritySize : Nat := 17000

def maxStandardTxSize : Nat := 100000

/-- The fee detection is disabled. -/
def CTxOut.isDust (_ : CTxOut) (_nMinRelayTxFee : Int64) : Bool := false

def FeeRates.getMinFee (rates : FeeRates) (tx : CTransaction) (nBytes : Nat) (fAllowFree : Bool)
    (mode : GetMinFeeMode) : Int64 :=
  let nBaseFee := if mode = .relay then rates.nMinRelayTxFee else rates.nMinTxFee
  let nMinFee := (1 + Int64.ofNat (nBytes / 1000)) * nBaseFee
  let nMinFee :=
    if fAllowFree ∧ nBytes < (if mode = .send then 5000 else defaultBlockPrioritySize - 1000) then 0
    else nMinFee
  let nMinFee :=
    if nMinFee < nBaseFee ∧ mode = .send ∧ tx.vout.any (fun txout ↦ txout.nValue < cent) then
      nBaseFee
    else nMinFee
  if !moneyRange nMinFee then maxMoney.toInt64 else nMinFee

/-- The transactions of the wallet, by the pointers to them. -/
structure CreateEnv (P : Type) where
  wtx : P → CDebitTx
  getTxHash : CTransaction → Uint256
  /-- The transactions are in a map by their hashes. -/
  getTxHash_inj : Function.Injective fun p ↦ getTxHash (wtx p).tx
  vout_le : ∀ p, (wtx p).tx.vout.length ≤ uintMax
  rates : FeeRates
  growth : Growth

variable {P : Type}

/-- What `SelectCoins` returns: the elements of `setCoins`, in their order, and `nValueIn`. -/
structure SelectedCoins (env : CreateEnv P) where
  setCoins : List (P × Nat)
  nodup : setCoins.Nodup
  lt : ∀ pcoin ∈ setCoins, pcoin.2 < (env.wtx pcoin.1).tx.vout.length
  nValueIn : Int64

/-- What the calls of a round return. -/
structure CreateCalls (env : CreateEnv P) where
  selectCoins : Int64 → Option (SelectedCoins env)
  getRandInt : Nat → Nat
  getRandInt_lt : ∀ nMax, 0 < nMax → getRandInt nMax < nMax
  /-- The script that change is sent to; `none` where `GetReservedKey` fails. -/
  scriptChange : Option CScript
  /-- The `scriptSig` that `SignSignature` gives an input. -/
  signSignature : CTransaction → Nat → Option CScript
  fAllowFree : Bool

/-- What the caller passes. -/
structure NewTx where
  nVersion : Int := 1
  nLockTime : Nat := 0
  vout : Vec CTxOut := .empty
  nChangePos : Option Nat := none

/-- What the loop goes on with; `nRound` counts the rounds. -/
structure CreateState where
  nRound : Nat
  nFeeRet : Int64
  vout : Vec CTxOut
  nChangePos : Option Nat

/-- What is returned, and the variables of the last round. -/
structure Created (env : CreateEnv P) where
  tx : CTransaction
  nFeeRet : Int64
  nChangePos : Option Nat
  coins : SelectedCoins env
  nBytes : Nat
  fAllowFree : Bool

namespace CreateEnv

variable (env : CreateEnv P) (calls : CreateCalls env) (vecSend : List (CScript × Int64))

/-- The loop over the amounts. -/
def sumAmounts : List (CScript × Int64) → Int64 → Except Failure Int64
  | [], nValue => .ok nValue
  | s :: vecSend, nValue =>
      if nValue < 0 then .error (.error "Transaction amounts must be positive")
      else sumAmounts vecSend (nValue + s.2)

/-- The outputs to the payees. -/
def payees : List CTxOut := vecSend.map fun s ↦ ⟨s.2, s.1⟩

/-- `nChange` and `nFeeRet` after what is too small for change has been moved to the fee. -/
def moveToFee (nChange nFeeRet : Int64) : Int64 × Int64 :=
  if nFeeRet < env.rates.nMinTxFee ∧ 0 < nChange ∧ nChange < cent then
    let nMoveToFee :=
      if env.rates.nMinTxFee - nFeeRet < nChange then env.rates.nMinTxFee - nFeeRet else nChange
    (nChange - nMoveToFee, nFeeRet + nMoveToFee)
  else (nChange, nFeeRet)

/-- The change is not put after an output of value 0. -/
def stepBack (vout : List CTxOut) : Nat → Nat
  | 0 => 0
  | position + 1 =>
      if (vout[position + 1]?).any fun txout ↦ txout.nValue = 0 then stepBack vout position
      else position + 1

/-- The place of the change among the outputs. -/
def changePosition (vout : List CTxOut) : Nat :=
  let position := calls.getRandInt (vout.length + 1)
  if 0 < position ∧ position < vout.length then stepBack vout position else position

/-- The output with the change, if it is not added to the fee: `vout`, `nChangePos` and
`nFeeRet`. -/
def addChange (nChange nFeeRet : Int64) (vout : Vec CTxOut) (nChangePos : Option Nat) :
    Except Failure (Vec CTxOut × Option Nat × Int64) :=
  if 0 < nChange then
    match calls.scriptChange with
    | none => .error .assertion
    | some scriptChange =>
        let newTxOut : CTxOut := ⟨nChange, scriptChange⟩
        if newTxOut.isDust env.rates.nMinRelayTxFee then .ok (vout, nChangePos, nFeeRet + nChange)
        else
          let position := changePosition env calls vout.data
          let inserted := vout.insert env.growth position newTxOut
          .ok (inserted, inserted.distance (vout.position position), nFeeRet)
  else .ok (vout, nChangePos, nFeeRet)

/-- The loop that signs, with `nIn`. -/
def signInputs : (nIn : Nat) → List (P × Nat) → CTransaction → Except Failure CTransaction
  | _, [], tx => .ok tx
  | nIn, _ :: setCoins, tx =>
      match calls.signSignature tx nIn with
      | none => .error (.error "Signing transaction failed")
      | some scriptSig =>
          signInputs (nIn + 1) setCoins
            { tx with vin := tx.vin.modify nIn fun txin ↦ { txin with scriptSig := scriptSig } }

/-- The fee that a transaction has to pay. -/
def requiredFee (tx : CTransaction) (nBytes : Nat) (fAllowFree : Bool) : Int64 :=
  let nPayFee := env.rates.nTransactionFee * (1 + Int64.ofNat (nBytes / 1000))
  let nMinFee := env.rates.getMinFee tx nBytes fAllowFree .send
  if nPayFee < nMinFee then nMinFee else nPayFee

/-- A round of the loop. -/
def createRound (wtxNew : NewTx) (nValue : Int64) (s : CreateState) :
    Except Failure (Created env ⊕ CreateState) := do
  failIf ((payees vecSend).any fun txout ↦ txout.isDust env.rates.nMinRelayTxFee)
    (.error "Transaction amount too small")
  let vout := s.vout.clear.pushAll env.growth (payees vecSend)
  match calls.selectCoins (nValue + s.nFeeRet) with
  | none => .error (.error "Insufficient funds")
  | some coins => do
      let (nChange, nFeeRet) := env.moveToFee (coins.nValueIn - nValue - s.nFeeRet) s.nFeeRet
      let (vout, nChangePos, nFeeRet) ← env.addChange calls nChange nFeeRet vout s.nChangePos
      let vin := coins.setCoins.map fun coin ↦
        { prevout := ⟨env.getTxHash (env.wtx coin.1).tx, coin.2⟩ }
      let tx ← env.signInputs calls 0 coins.setCoins
        { nVersion := wtxNew.nVersion, vin := vin, vout := vout.data
          nLockTime := wtxNew.nLockTime }
      let nBytes := tx.getSerializeSize
      failIf (decide (maxStandardTxSize ≤ nBytes)) (.error "Transaction too large")
      let nRequired := env.requiredFee tx nBytes calls.fAllowFree
      if nFeeRet < nRequired then
        return .inr
          { nRound := s.nRound + 1, nFeeRet := nRequired, vout := vout, nChangePos := nChangePos }
      else
        return .inl
          { tx := tx, nFeeRet := nFeeRet, nChangePos := nChangePos, coins := coins,
            nBytes := nBytes, fAllowFree := calls.fAllowFree }

/-- The body of the loop, which an error leaves as well. -/
def createBody (calls : Nat → CreateCalls env) (wtxNew : NewTx) (nValue : Int64) (s : CreateState) :
    Option (Except Failure (Created env) ⊕ CreateState) :=
  match env.createRound (calls s.nRound) vecSend wtxNew nValue s with
  | .error e => some (.inl (.error e))
  | .ok (.inl created) => some (.inl (.ok created))
  | .ok (.inr s') => some (.inr s')

/-- The state before the loop. -/
def createStart (wtxNew : NewTx) : CreateState where
  nRound := 0
  nFeeRet := env.rates.nTransactionFee
  vout := wtxNew.vout
  nChangePos := wtxNew.nChangePos

/-- `nValue`, where the amounts are accepted. -/
def checkAmounts : Except Failure Int64 := do
  let nValue ← sumAmounts vecSend 0
  failIf (vecSend.isEmpty || decide (nValue < 0)) (.error "Transaction amounts must be positive")
  return nValue

/-- `CreateTransaction`, with at most `n` rounds of the loop. -/
def createTransaction (calls : Nat → CreateCalls env) (wtxNew : NewTx) (n : Nat) :
    Option (Except Failure (Created env)) :=
  match checkAmounts vecSend with
  | .error e => some (.error e)
  | .ok nValue =>
      Loop.run (env.createBody vecSend calls wtxNew nValue) n (env.createStart wtxNew)

/-! ## What a round does -/

/-- `nChange` and `nFeeRet` of a round, when the coins are chosen and what is too small for change
has been moved. -/
def leftOver (nValue : Int64) (s : CreateState) (coins : SelectedCoins env) : Int64 × Int64 :=
  env.moveToFee (coins.nValueIn - nValue - s.nFeeRet) s.nFeeRet

/-- What has been selected. -/
def prevouts (coins : SelectedCoins env) : List COutPoint :=
  coins.setCoins.map fun coin ↦ ⟨env.getTxHash (env.wtx coin.1).tx, coin.2⟩

/-- The outputs of a round. -/
structure ChangeAdded (s : CreateState) (nChange : Int64) (vout : Vec CTxOut)
    (nChangePos : Option Nat) : Prop where
  without : ¬ 0 < nChange → vout.data = payees vecSend ∧ nChangePos = s.nChangePos ∧
    vout.capacity = Vec.grown env.growth s.vout.capacity 0 vecSend.length
  change : 0 < nChange → ∃ scriptChange, ∃ position ≤ vecSend.length,
    vout.data = (payees vecSend).insertIdx position ⟨nChange, scriptChange⟩ ∧
    nChangePos =
      if vecSend.length < Vec.grown env.growth s.vout.capacity 0 vecSend.length then some position
      else none

variable {env calls vecSend} {wtxNew : NewTx} {nValue : Int64} {s s' : CreateState}

@[simp] theorem length_payees : (payees vecSend).length = vecSend.length := List.length_map ..

theorem stepBack_le (vout : List CTxOut) (position : Nat) : stepBack vout position ≤ position := by
  induction position with
  | zero => exact le_rfl
  | succ position ih =>
      rw [stepBack]
      split
      · exact ih.trans (Nat.le_succ position)
      · exact le_rfl

theorem changePosition_le (vout : List CTxOut) : changePosition env calls vout ≤ vout.length := by
  have hle := Nat.lt_succ_iff.mp (calls.getRandInt_lt (vout.length + 1) (Nat.succ_pos _))
  rw [changePosition]
  split
  · exact (stepBack_le vout _).trans hle
  · exact hle

theorem addChange_spec {nChange nFeeRet : Int64} {vout : Vec CTxOut}
    {r : Vec CTxOut × Option Nat × Int64}
    (hvout : s.vout.clear.pushAll env.growth (payees vecSend) = vout)
    (h : env.addChange calls nChange nFeeRet vout s.nChangePos = .ok r) :
    ChangeAdded env vecSend s nChange r.1 r.2.1 ∧ r.2.2 = nFeeRet := by
  have hcapacity : vout.capacity = Vec.grown env.growth s.vout.capacity 0 vecSend.length := by
    rw [← hvout, Vec.capacity_pushAll, length_payees]
    rfl
  have hdata : vout.data = payees vecSend := by
    rw [← hvout, Vec.data_pushAll, Vec.data_clear, List.nil_append]
  have hlength : vout.data.length = vecSend.length := by rw [hdata, length_payees]
  rw [addChange] at h
  split at h
  case isFalse hno =>
    obtain rfl := Except.ok.inj h
    exact ⟨⟨fun _ ↦ ⟨hdata, rfl, hcapacity⟩, fun hpos ↦ absurd hpos hno⟩, rfl⟩
  case isTrue hpos =>
    split at h
    case h_1 => cases h
    case h_2 scriptChange _ =>
      obtain rfl := Except.ok.inj h
      refine ⟨⟨fun hno ↦ absurd hpos hno, fun _ ↦ ?_⟩, rfl⟩
      refine ⟨scriptChange, changePosition env calls vout.data, ?_, ?_, ?_⟩
      · rw [← hlength]
        exact changePosition_le vout.data
      · rw [Vec.data_insert, hdata]
      · rw [Vec.distance_insert, hlength, hcapacity]

theorem signInputs_spec {setCoins : List (P × Nat)} {nIn : Nat} {tx tx' : CTransaction}
    (h : env.signInputs calls nIn setCoins tx = .ok tx') :
    tx'.vout = tx.vout ∧ tx'.vin.map (·.prevout) = tx.vin.map (·.prevout) := by
  induction setCoins generalizing nIn tx with
  | nil =>
      obtain rfl := Except.ok.inj h
      exact ⟨rfl, rfl⟩
  | cons coin setCoins ih =>
      rw [signInputs] at h
      split at h
      case h_1 => cases h
      case h_2 scriptSig _ =>
        obtain ⟨hvout, hvin⟩ := ih h
        refine ⟨hvout, hvin.trans ?_⟩
        dsimp only
        apply List.ext_getElem?
        intro i
        rw [List.getElem?_map, List.getElem?_map, List.getElem?_modify]
        cases tx.vin[i]? with
        | none => rfl
        | some txin =>
            split
            · rfl
            · rfl

/-- What a round comes to, if it does not fail. -/
theorem createRound_spec {r : Created env ⊕ CreateState}
    (h : env.createRound calls vecSend wtxNew nValue s = .ok r) :
    ∃ coins vout nChangePos tx,
      calls.selectCoins (nValue + s.nFeeRet) = some coins ∧
      ChangeAdded env vecSend s (env.leftOver nValue s coins).1 vout nChangePos ∧
      tx.vout = vout.data ∧ tx.vin.map (·.prevout) = env.prevouts coins ∧
      tx.getSerializeSize < maxStandardTxSize ∧
      r = if (env.leftOver nValue s coins).2 <
            env.requiredFee tx tx.getSerializeSize calls.fAllowFree then
          .inr ⟨s.nRound + 1, env.requiredFee tx tx.getSerializeSize calls.fAllowFree, vout,
            nChangePos⟩
        else .inl ⟨tx, (env.leftOver nValue s coins).2, nChangePos, coins, tx.getSerializeSize,
          calls.fAllowFree⟩ := by
  obtain ⟨-, -, h⟩ := bind_eq_ok.mp h
  split at h
  case h_1 => cases h
  case h_2 coins hcoins =>
    obtain ⟨⟨vout, nChangePos, nFeeRet⟩, hadd, h⟩ := bind_eq_ok.mp h
    obtain ⟨hadded, hfee⟩ := addChange_spec rfl hadd
    obtain ⟨tx, hsign, h⟩ := bind_eq_ok.mp h
    obtain ⟨hvout, hvin⟩ := signInputs_spec hsign
    obtain ⟨⟨⟩, hsize, h⟩ := bind_eq_ok.mp h
    refine ⟨coins, vout, nChangePos, tx, hcoins, hadded, hvout, ?_, ?_, ?_⟩
    · rw [hvin, List.map_map]
      rfl
    · exact Nat.lt_of_not_le (of_decide_eq_false (failIf_eq_ok.mp hsize))
    · obtain rfl : nFeeRet = (env.leftOver nValue s coins).2 := hfee
      by_cases hlt : (env.leftOver nValue s coins).2 <
          env.requiredFee tx tx.getSerializeSize calls.fAllowFree
      · rw [if_pos hlt]
        exact (Except.ok.inj ((if_pos hlt).symm.trans h)).symm
      · rw [if_neg hlt]
        exact (Except.ok.inj ((if_neg hlt).symm.trans h)).symm

/-! ## The loop -/

variable (env vecSend wtxNew nValue) in
/-- A state that a round starts with. -/
def Reaches (calls : Nat → CreateCalls env) (s : CreateState) : Prop :=
  ∃ k, Loop.after (env.createBody vecSend calls wtxNew nValue) k (env.createStart wtxNew) = some s

section

variable {calls : Nat → CreateCalls env}

theorem createBody_eq_again : env.createBody vecSend calls wtxNew nValue s = some (.inr s') ↔
    env.createRound (calls s.nRound) vecSend wtxNew nValue s = .ok (.inr s') := by
  rw [createBody]
  split
  case h_1 e h =>
    rw [h]
    constructor
    · intro heq
      cases heq
    · intro heq
      cases heq
  case h_2 created h =>
    rw [h]
    constructor
    · intro heq
      cases heq
    · intro heq
      cases heq
  case h_3 s₁ h =>
    rw [h]
    constructor
    · intro heq
      rw [Sum.inr.inj (Option.some.inj heq)]
    · intro heq
      rw [Sum.inr.inj (Except.ok.inj heq)]

theorem createBody_eq_exit {created : Created env} :
    env.createBody vecSend calls wtxNew nValue s = some (.inl (.ok created)) ↔
      env.createRound (calls s.nRound) vecSend wtxNew nValue s = .ok (.inl created) := by
  rw [createBody]
  split
  case h_1 e h =>
    rw [h]
    constructor
    · intro heq
      cases heq
    · intro heq
      cases heq
  case h_2 created' h =>
    rw [h]
    constructor
    · intro heq
      rw [Except.ok.inj (Sum.inl.inj (Option.some.inj heq))]
    · intro heq
      rw [Sum.inl.inj (Except.ok.inj heq)]
  case h_3 s₁ h =>
    rw [h]
    constructor
    · intro heq
      cases heq
    · intro heq
      cases heq

/-- `CreateTransaction` returns true after the last round of a loop. -/
theorem createTransaction_eq_ok {n : Nat} {created : Created env}
    (h : env.createTransaction vecSend calls wtxNew n = some (.ok created)) :
    ∃ nValue s, checkAmounts vecSend = .ok nValue ∧ env.Reaches vecSend wtxNew nValue calls s ∧
      env.createRound (calls s.nRound) vecSend wtxNew nValue s = .ok (.inl created) := by
  rw [createTransaction] at h
  split at h
  case h_1 => cases h
  case h_2 nValue hamounts =>
    obtain ⟨k, -, s, hafter, hexit⟩ := Loop.run_eq_some_iff.mp h
    exact ⟨nValue, s, hamounts, ⟨k, hafter⟩, createBody_eq_exit.mp hexit⟩

theorem createTransaction_of_reaches {created : Created env}
    (hamounts : checkAmounts vecSend = .ok nValue) (hs : env.Reaches vecSend wtxNew nValue calls s)
    (h : env.createRound (calls s.nRound) vecSend wtxNew nValue s = .ok (.inl created)) :
    ∃ n, env.createTransaction vecSend calls wtxNew n = some (.ok created) := by
  obtain ⟨k, hafter⟩ := hs
  refine ⟨k + 1, ?_⟩
  rw [createTransaction, hamounts]
  exact Loop.run_eq_some_iff.mpr
    ⟨k, Nat.lt_succ_self k, s, hafter, createBody_eq_exit.mpr h⟩

end

/-! ## The amounts -/

/-- The sum of the amounts. -/
def total (vecSend : List (CScript × Int64)) : Int := (vecSend.map fun p ↦ p.2.toInt).sum

/-- Amounts that are not negative are added up exactly: a sum that wraps is negative. -/
theorem sumAmounts_spec (hamounts : ∀ p ∈ vecSend, 0 ≤ p.2) {acc : Int64} (hacc : 0 ≤ acc)
    (h : sumAmounts vecSend acc = .ok nValue) (hnonneg : 0 ≤ nValue) :
    nValue.toInt = acc.toInt + total vecSend := by
  induction vecSend generalizing acc with
  | nil =>
      obtain rfl := Except.ok.inj h
      rw [total, List.map_nil, List.sum_nil, add_zero]
  | cons p vecSend ih =>
      obtain ⟨hp, hamounts⟩ := List.forall_mem_cons.mp hamounts
      rw [sumAmounts, if_neg (Int64.not_lt.mpr hacc)] at h
      -- the next test, or the last one, finds a sum that wraps
      have hsum : 0 ≤ acc + p.2 := by
        by_contra hneg
        cases vecSend with
        | nil =>
            obtain rfl := Except.ok.inj h
            exact hneg hnonneg
        | cons q vecSend =>
            rw [sumAmounts, if_pos (Int64.not_le.mp hneg)] at h
            cases h
      have hno : ¬ RunningSum.AddOverflows acc p.2 :=
        fun hov ↦ (RunningSum.addOverflows_iff_of_nonneg hacc hp).mp hov hsum
      rw [ih hamounts hsum h, RunningSum.toInt_add hno, total, total, List.map_cons, List.sum_cons,
        add_assoc]

theorem checkAmounts_eq_ok (h : checkAmounts vecSend = .ok nValue) :
    vecSend ≠ [] ∧ 0 ≤ nValue ∧ sumAmounts vecSend 0 = .ok nValue := by
  obtain ⟨nValue', hsum, h⟩ := bind_eq_ok.mp h
  obtain ⟨⟨⟩, htest, h⟩ := bind_eq_ok.mp h
  obtain rfl := Except.ok.inj h
  obtain ⟨hempty, hneg⟩ := Bool.or_eq_false_iff.mp (failIf_eq_ok.mp htest)
  refine ⟨?_, Int64.not_lt.mp (of_decide_eq_false hneg), hsum⟩
  rintro rfl
  cases hempty

theorem toInt_checkAmounts (hamounts : ∀ p ∈ vecSend, 0 ≤ p.2)
    (h : checkAmounts vecSend = .ok nValue) : nValue.toInt = total vecSend := by
  obtain ⟨-, hnonneg, hsum⟩ := checkAmounts_eq_ok h
  rw [sumAmounts_spec hamounts (by decide) hsum hnonneg, Int64.toInt_zero, zero_add]

theorem sum_payees :
    ((payees vecSend).map fun txout ↦ txout.nValue.toInt).sum = total vecSend := by
  rw [payees, List.map_map]
  rfl

/-- The outputs with the change, in another order. -/
theorem perm_insertIdx_payees {position : Nat} (h : position ≤ vecSend.length) (txout : CTxOut) :
    ((payees vecSend).insertIdx position txout).Perm (txout :: payees vecSend) :=
  List.perm_insertIdx _ _ (by rwa [length_payees])

end CreateEnv

/-! ## A wallet with two coins -/

/-- A wallet with a transaction that has two outputs. -/
def sampleCreateEnv : CreateEnv Unit where
  wtx _ :=
    { tx :=
        { vin := [⟨⟨9, 0⟩, [], uintMax⟩]
          vout := [⟨10000000, [0x51]⟩, ⟨3000000, [0x51]⟩]
          nLockTime := 1 } }
  getTxHash := chainHash
  getTxHash_inj _ _ _ := rfl
  vout_le _ := by decide
  rates := ⟨1000000, 1000000, 1000000⟩
  growth :=
    { next := fun n ↦ n + max n 1
      lt_next := fun n ↦ Nat.lt_add_of_pos_right (lt_max_of_lt_right Nat.one_pos) }

/-- Every round selects the output `i`, puts change first and signs with no bytes. -/
def sampleCreateCalls (i : Fin 2) (_ : Nat) : CreateCalls sampleCreateEnv where
  selectCoins nTargetValue :=
    let nValueIn : Int64 := if i = 0 then 10000000 else 3000000
    if nTargetValue ≤ nValueIn then
      some
        { setCoins := [((), i)]
          nodup := List.nodup_singleton _
          lt := fun pcoin hpcoin ↦ by rw [List.mem_singleton.mp hpcoin]; exact i.isLt
          nValueIn := nValueIn }
    else none
  getRandInt _ := 0
  getRandInt_lt _ h := h
  scriptChange := some [0x52]
  signSignature _ _ := some []
  fAllowFree := false

end Fedoracoin
