import Fedoracoin.CreateTransaction

/-!
# What `CreateTransaction` returns adds up

The loop ends, since a fee that is too small is raised and cannot be raised for ever, and the coins
that are spent are worth the outputs and the fee.  `nChangePos`, however, is read off an iterator
that the insertion of the change invalidates when the vector is full:
`createTransaction_balanced_iff`.
-/

namespace Fedoracoin

open RunningSum Reallocation

/-- The coins are enough, and `nValueIn` is what they are worth. -/
structure SelectedCoins.Pays {P : Type} {env : CreateEnv P} (coins : SelectedCoins env)
    (nTargetValue : Int64) : Prop where
  le : nTargetValue ≤ coins.nValueIn
  sum : coins.nValueIn.toInt = (coins.setCoins.map (inputValue env.wtx)).sum
  lt : coins.nValueIn.toInt < 2 ^ 62

/-- What is asked of `SelectCoins`, which adds `CENT` to a target. -/
def CreateCalls.Contract {P : Type} {env : CreateEnv P} (calls : CreateCalls env) : Prop :=
  ∀ nTargetValue coins, 0 ≤ nTargetValue.toInt → nTargetValue.toInt + cent.toInt < 2 ^ 62 →
    calls.selectCoins nTargetValue = some coins → coins.Pays nTargetValue

namespace CreateEnv

variable {P : Type} (env : CreateEnv P) (vecSend : List (CScript × Int64)) (wtxNew : NewTx)

/-! ## What is promised -/

/-- The largest fee that is asked for. -/
def maxFee : Int := 100 * max env.rates.nTransactionFee.toInt env.rates.nMinTxFee.toInt

/-- The sums fit in an `int64_t`, with the fee of a transaction of any size. -/
structure Fits : Prop where
  amounts : ∀ p ∈ vecSend, 0 ≤ p.2
  fee : 0 ≤ env.rates.nTransactionFee.toInt
  minFee : 0 ≤ env.rates.nMinTxFee.toInt
  total : total vecSend + env.maxFee + cent.toInt < 2 ^ 62

variable {env} in
/-- A transaction that is returned. -/
structure Balanced (created : Created env) : Prop where
  conserved : (created.coins.setCoins.map (inputValue env.wtx)).sum =
    (created.tx.vout.map fun txout ↦ txout.nValue.toInt).sum + created.nFeeRet.toInt
  inputs : created.tx.vin.map (·.prevout) = env.prevouts created.coins
  outputs : created.tx.vout = payees vecSend ∨ ∃ position ≤ vecSend.length, ∃ txout : CTxOut,
    0 < txout.nValue ∧ created.tx.vout = (payees vecSend).insertIdx position txout ∧
    created.nChangePos = some position
  size : created.nBytes = created.tx.getSerializeSize
  fee : max (env.rates.nTransactionFee.toInt * (1 + created.nBytes / 1000))
    (env.rates.getMinFee created.tx created.nBytes created.fAllowFree .send).toInt ≤
      created.nFeeRet.toInt

/-- The loop ends, each retry with a higher fee, and what is returned is balanced. -/
structure Settles (calls : Nat → CreateCalls env) : Prop where
  ends : ∃ n r, env.createTransaction vecSend calls wtxNew n = some r
  raises : ∀ nValue s s', checkAmounts vecSend = .ok nValue →
    env.Reaches vecSend wtxNew nValue calls s →
    env.createRound (calls s.nRound) vecSend wtxNew nValue s = .ok (.inr s') →
      s.nFeeRet < s'.nFeeRet ∧ s'.nFeeRet.toInt ≤ env.maxFee
  balanced : ∀ n created, env.createTransaction vecSend calls wtxNew n = some (.ok created) →
    Balanced vecSend created

/-- The coins of a round are worth more than the amounts and the fee. -/
def LeavesChange (calls : Nat → CreateCalls env) (nValue : Int64) (s : CreateState) : Prop :=
  ∃ coins, (calls s.nRound).selectCoins (nValue + s.nFeeRet) = some coins ∧
    0 < (env.leftOver nValue s coins).1

/-- Where the last round leaves change, the vector has room for it once the payees are in it, from
the beginning or since an earlier round that left change. -/
def Roomy (calls : Nat → CreateCalls env) : Prop :=
  ∀ nValue k s created, checkAmounts vecSend = .ok nValue →
    Loop.after (env.createBody vecSend calls wtxNew nValue) k (env.createStart wtxNew) = some s →
    env.createRound (calls s.nRound) vecSend wtxNew nValue s = .ok (.inl created) →
    env.LeavesChange calls nValue s →
      vecSend.length < Vec.grown env.growth wtxNew.vout.capacity 0 vecSend.length ∨
      ∃ j < k, ∃ s₀, Loop.after (env.createBody vecSend calls wtxNew nValue) j
        (env.createStart wtxNew) = some s₀ ∧ env.LeavesChange calls nValue s₀

variable {env vecSend wtxNew}

/-! ## The fee -/

/-- What is moved to the fee is taken from the change. -/
theorem moveToFee_spec (nChange : Int64) {nFeeRet : Int64} (hmin : 0 ≤ env.rates.nMinTxFee.toInt)
    (hfee : 0 ≤ nFeeRet.toInt) (hchange : 0 ≤ nChange.toInt) :
    (env.moveToFee nChange nFeeRet).1.toInt + (env.moveToFee nChange nFeeRet).2.toInt =
      nChange.toInt + nFeeRet.toInt ∧
    0 ≤ (env.moveToFee nChange nFeeRet).1.toInt ∧
    nFeeRet.toInt ≤ (env.moveToFee nChange nFeeRet).2.toInt := by
  rw [moveToFee]
  split
  case isFalse => exact ⟨rfl, hchange, le_rfl⟩
  case isTrue h =>
    have hlt := Int64.lt_iff_toInt_lt.mp h.1
    have hminLt := env.rates.nMinTxFee.toInt_lt
    have hchangeLt := nChange.toInt_lt
    have hdiff : (env.rates.nMinTxFee - nFeeRet).toInt =
        env.rates.nMinTxFee.toInt - nFeeRet.toInt := toInt_sub (by omega) (by omega)
    dsimp only
    split
    case isTrue hless =>
      have hless := Int64.lt_iff_toInt_lt.mp hless
      rw [hdiff] at hless
      have hleft : (nChange - (env.rates.nMinTxFee - nFeeRet)).toInt =
          nChange.toInt - (env.rates.nMinTxFee - nFeeRet).toInt :=
        toInt_sub (by rw [hdiff]; omega) (by rw [hdiff]; omega)
      have hmoved : (nFeeRet + (env.rates.nMinTxFee - nFeeRet)).toInt =
          nFeeRet.toInt + (env.rates.nMinTxFee - nFeeRet).toInt :=
        toInt_add (by rw [AddOverflows, hdiff]; omega)
      rw [hleft, hmoved, hdiff]
      omega
    case isFalse hless =>
      have hless := Int64.lt_iff_toInt_lt.not.mp hless
      rw [hdiff] at hless
      have hmoved : (nFeeRet + nChange).toInt = nFeeRet.toInt + nChange.toInt :=
        toInt_add (by rw [AddOverflows]; omega)
      rw [Int64.sub_self, Int64.toInt_zero, hmoved]
      omega

theorem toInt_kilobytes {nBytes : Nat} (h : nBytes < maxStandardTxSize) :
    (1 + Int64.ofNat (nBytes / 1000)).toInt = 1 + (nBytes / 1000 : Nat) := by
  have hlt : nBytes / 1000 < 100 := Nat.div_lt_of_lt_mul h
  have hall : ∀ k < 100, (1 + Int64.ofNat k).toInt = 1 + (k : Int) := by decide
  exact hall _ hlt

/-- A fee for each kilobyte of a transaction that is not too large. -/
theorem toInt_mul_kilobytes {nBytes : Nat} (h : nBytes < maxStandardTxSize) {nFee : Int64}
    (hfee : 0 ≤ nFee.toInt) (hlt : 100 * nFee.toInt < 2 ^ 62) :
    (nFee * (1 + Int64.ofNat (nBytes / 1000))).toInt = nFee.toInt * (1 + (nBytes / 1000 : Nat)) ∧
      0 ≤ nFee.toInt * (1 + (nBytes / 1000 : Nat)) ∧
      nFee.toInt * (1 + (nBytes / 1000 : Nat)) ≤ 100 * nFee.toInt := by
  have hk : nBytes / 1000 < 100 := Nat.div_lt_of_lt_mul h
  have hnonneg : 0 ≤ nFee.toInt * (1 + (nBytes / 1000 : Nat)) := Int.mul_nonneg hfee (by omega)
  have hle : nFee.toInt * (1 + (nBytes / 1000 : Nat)) ≤ 100 * nFee.toInt := by
    rw [mul_comm 100]
    exact Int.mul_le_mul_of_nonneg_left (by omega) hfee
  refine ⟨?_, hnonneg, hle⟩
  rw [toInt_mul, toInt_kilobytes h]
  · rw [toInt_kilobytes h]
    omega
  · rw [toInt_kilobytes h]
    omega

theorem getMinFee_bounds (tx : CTransaction) (fAllowFree : Bool) {nBytes : Nat}
    (h : nBytes < maxStandardTxSize) (hmin : 0 ≤ env.rates.nMinTxFee.toInt)
    (hlt : 100 * env.rates.nMinTxFee.toInt < 2 ^ 62) :
    0 ≤ (env.rates.getMinFee tx nBytes fAllowFree .send).toInt ∧
      (env.rates.getMinFee tx nBytes fAllowFree .send).toInt ≤
        100 * env.rates.nMinTxFee.toInt := by
  obtain ⟨hmul, hnonneg, hle⟩ := toInt_mul_kilobytes h hmin hlt
  let InRange : Int64 → Prop := fun nMinFee ↦
    0 ≤ nMinFee.toInt ∧ nMinFee.toInt ≤ 100 * env.rates.nMinTxFee.toInt
  have hite : ∀ (p : Prop) [Decidable p] {a b : Int64}, InRange a → InRange b →
      InRange (if p then a else b) := by
    intro p _ a b ha hb
    split
    · exact ha
    · exact hb
  have hmoney : ∀ nMinFee, InRange nMinFee →
      InRange (if !moneyRange nMinFee then maxMoney.toInt64 else nMinFee) := by
    intro nMinFee hrange
    rw [moneyRange_iff.mpr (nonneg_iff.mpr hrange.1)]
    exact hrange
  have hbase : InRange env.rates.nMinTxFee := ⟨hmin, by omega⟩
  have hzero : InRange 0 := ⟨le_rfl, Int.mul_nonneg (by omega) hmin⟩
  have hrate : InRange ((1 + Int64.ofNat (nBytes / 1000)) * env.rates.nMinTxFee) := by
    dsimp only [InRange]
    rw [Int64.mul_comm, hmul]
    exact ⟨hnonneg, hle⟩
  rw [FeeRates.getMinFee, if_neg (by decide : ¬ GetMinFeeMode.send = GetMinFeeMode.relay)]
  exact hmoney _ (hite _ hbase (hite _ hzero hrate))

theorem total_nonneg (h : env.Fits vecSend) : 0 ≤ total vecSend := by
  refine List.sum_nonneg fun v hv ↦ ?_
  obtain ⟨p, hp, rfl⟩ := List.mem_map.mp hv
  exact nonneg_iff.mp (h.amounts p hp)

theorem maxFee_lt (h : env.Fits vecSend) : env.maxFee < 2 ^ 62 := by
  have hlt := h.total
  have htotal := total_nonneg h
  have hcent : cent.toInt = 1000000 := by decide
  omega

/-- The fee that is asked for is the larger of two, both in range. -/
theorem requiredFee_spec (tx : CTransaction) (fAllowFree : Bool) {nBytes : Nat}
    (h : env.Fits vecSend) (hsize : nBytes < maxStandardTxSize) :
    (env.requiredFee tx nBytes fAllowFree).toInt =
      max (env.rates.nTransactionFee.toInt * (1 + (nBytes / 1000 : Nat)))
        (env.rates.getMinFee tx nBytes fAllowFree .send).toInt ∧
    (env.requiredFee tx nBytes fAllowFree).toInt ≤ env.maxFee := by
  have hmaxFee := maxFee_lt h
  rw [maxFee] at hmaxFee
  obtain ⟨hmul, -, hle⟩ := toInt_mul_kilobytes hsize h.fee (by omega)
  obtain ⟨-, hminLe⟩ := getMinFee_bounds tx fAllowFree hsize h.minFee (by omega)
  have hmax : (env.requiredFee tx nBytes fAllowFree).toInt =
      max (env.rates.nTransactionFee.toInt * (1 + (nBytes / 1000 : Nat)))
        (env.rates.getMinFee tx nBytes fAllowFree .send).toInt := by
    rw [requiredFee]
    split
    case isTrue hlt =>
      rw [Int64.lt_iff_toInt_lt, hmul] at hlt
      exact (max_eq_right hlt.le).symm
    case isFalse hlt =>
      rw [Int64.lt_iff_toInt_lt, hmul] at hlt
      rw [hmul]
      exact (max_eq_left (not_lt.mp hlt)).symm
  refine ⟨hmax, ?_⟩
  rw [hmax, maxFee]
  omega

/-! ## A round -/

/-- The fee a round starts with. -/
structure FeeInRange (env : CreateEnv P) (s : CreateState) : Prop where
  nonneg : 0 ≤ s.nFeeRet.toInt
  le : s.nFeeRet.toInt ≤ env.maxFee

variable {calls : CreateCalls env} {nValue : Int64} {s s' : CreateState} {coins : SelectedCoins env}

/-- What the coins are worth is what is paid, what is left over, and the fee. -/
theorem leftOver_spec (h : env.Fits vecSend) (hcontract : calls.Contract)
    (hamounts : checkAmounts vecSend = .ok nValue) (hs : FeeInRange env s)
    (hcoins : calls.selectCoins (nValue + s.nFeeRet) = some coins) :
    (coins.setCoins.map (inputValue env.wtx)).sum = total vecSend +
      (env.leftOver nValue s coins).1.toInt + (env.leftOver nValue s coins).2.toInt ∧
    0 ≤ (env.leftOver nValue s coins).1.toInt ∧
    s.nFeeRet.toInt ≤ (env.leftOver nValue s coins).2.toInt := by
  have hvalue := toInt_checkAmounts h.amounts hamounts
  have hnonneg := nonneg_iff.mp (checkAmounts_eq_ok hamounts).2.1
  have htotal := h.total
  have hcent : cent.toInt = 1000000 := by decide
  obtain ⟨hfee, hfeeLe⟩ := hs
  have htarget : (nValue + s.nFeeRet).toInt = nValue.toInt + s.nFeeRet.toInt :=
    toInt_add (by rw [AddOverflows]; omega)
  obtain ⟨hle, hworth, hlt⟩ :=
    hcontract _ _ (by rw [htarget]; omega) (by rw [htarget]; omega) hcoins
  rw [Int64.le_iff_toInt_le, htarget] at hle
  have hless : (coins.nValueIn - nValue).toInt = coins.nValueIn.toInt - nValue.toInt :=
    toInt_sub (by omega) (by omega)
  have hchange : (coins.nValueIn - nValue - s.nFeeRet).toInt =
      coins.nValueIn.toInt - nValue.toInt - s.nFeeRet.toInt := by
    rw [← hless]
    exact toInt_sub (by omega) (by omega)
  obtain ⟨hsum, hleft, hraised⟩ :=
    moveToFee_spec (coins.nValueIn - nValue - s.nFeeRet) h.minFee hfee (by omega)
  rw [← hworth]
  refine ⟨?_, hleft, hraised⟩
  rw [hchange] at hsum
  rw [leftOver]
  omega

/-- A retry has a higher fee. -/
theorem raises_of_again (h : env.Fits vecSend) (hcontract : calls.Contract)
    (hamounts : checkAmounts vecSend = .ok nValue) (hs : FeeInRange env s)
    (hround : env.createRound calls vecSend wtxNew nValue s = .ok (.inr s')) :
    s.nFeeRet < s'.nFeeRet ∧ FeeInRange env s' := by
  obtain ⟨coins, vout, nChangePos, tx, hcoins, -, -, -, hsize, hr⟩ := createRound_spec hround
  obtain ⟨-, -, hraised⟩ := leftOver_spec h hcontract hamounts hs hcoins
  split at hr
  case isFalse => cases hr
  case isTrue hlt =>
    obtain rfl := Sum.inr.inj hr
    rw [Int64.lt_iff_toInt_lt] at hlt ⊢
    have hfee := hs.nonneg
    refine ⟨hraised.trans_lt hlt, ⟨?_, (requiredFee_spec _ _ h hsize).2⟩⟩
    dsimp only
    omega

/-- What the last round returns is balanced, apart from `nChangePos` where the vector moves. -/
theorem balanced_iff_of_exit {created : Created env} (h : env.Fits vecSend)
    (hcontract : calls.Contract) (hamounts : checkAmounts vecSend = .ok nValue)
    (hs : FeeInRange env s)
    (hround : env.createRound calls vecSend wtxNew nValue s = .ok (.inl created)) :
    Balanced vecSend created ↔
      ((∃ coins, calls.selectCoins (nValue + s.nFeeRet) = some coins ∧
        0 < (env.leftOver nValue s coins).1) →
        vecSend.length < Vec.grown env.growth s.vout.capacity 0 vecSend.length) := by
  obtain ⟨coins, vout, nChangePos, tx, hcoins, hadded, hvout, hvin, hsize, hr⟩ :=
    createRound_spec hround
  obtain ⟨hconserved, hleft, -⟩ := leftOver_spec h hcontract hamounts hs hcoins
  split at hr
  case isTrue => cases hr
  case isFalse hge =>
    obtain rfl := Sum.inl.inj hr
    have hfee := (requiredFee_spec tx calls.fAllowFree h hsize).1
    rw [Int64.lt_iff_toInt_lt, hfee, not_lt] at hge
    by_cases hpos : 0 < (env.leftOver nValue s coins).1
    · obtain ⟨scriptChange, position, hle, hdata, hplace⟩ := hadded.change hpos
      have hperm : tx.vout.Perm (⟨(env.leftOver nValue s coins).1, scriptChange⟩ ::
          payees vecSend) := by
        rw [hvout, hdata]
        exact perm_insertIdx_payees hle _
      have hsum : (tx.vout.map fun txout ↦ txout.nValue.toInt).sum =
          (env.leftOver nValue s coins).1.toInt + total vecSend := by
        rw [(hperm.map _).sum_eq, List.map_cons, List.sum_cons, sum_payees]
      constructor
      · intro hbalanced _
        obtain heq | ⟨position', -, txout, -, -, hposition⟩ := hbalanced.outputs
        · have hlength := hperm.length_eq
          rw [show tx.vout = payees vecSend from heq, List.length_cons] at hlength
          omega
        · rw [show nChangePos = some position' from hposition] at hplace
          by_contra hfull
          rw [if_neg hfull] at hplace
          cases hplace
      · intro hroom
        have hroom := hroom ⟨coins, hcoins, hpos⟩
        rw [if_pos hroom] at hplace
        have houtputs := hvout.trans hdata
        refine ⟨?_, hvin, .inr ⟨position, hle, ⟨(env.leftOver nValue s coins).1, scriptChange⟩,
          hpos, houtputs, hplace⟩, rfl, hge⟩
        dsimp only
        rw [hconserved, hsum, add_comm (total vecSend)]
    · obtain ⟨hdata, -, -⟩ := hadded.without hpos
      have hzero : (env.leftOver nValue s coins).1.toInt ≤ 0 :=
        not_lt.mp fun hlt ↦ hpos (Int64.lt_iff_toInt_lt.mpr hlt)
      have hsum : (tx.vout.map fun txout ↦ txout.nValue.toInt).sum = total vecSend := by
        rw [hvout, hdata, sum_payees]
      constructor
      · rintro - ⟨coins', hcoins', hpos'⟩
        obtain rfl := Option.some.inj (hcoins.symm.trans hcoins')
        exact absurd hpos' hpos
      · intro _
        refine ⟨?_, hvin, .inl (hvout.trans hdata), rfl, hge⟩
        have hnone : (env.leftOver nValue s coins).1.toInt = 0 := le_antisymm hzero hleft
        dsimp only
        rw [hconserved, hsum, hnone, add_zero]

/-! ## The rounds -/

section

variable {calls : Nat → CreateCalls env}

/-- Once a round has left change, or with room from the beginning, there is room for it. -/
theorem room_again
    (hround : env.createRound (calls s.nRound) vecSend wtxNew nValue s = .ok (.inr s')) :
    vecSend.length < Vec.grown env.growth s'.vout.capacity 0 vecSend.length ↔
      vecSend.length < Vec.grown env.growth s.vout.capacity 0 vecSend.length ∨
        env.LeavesChange calls nValue s := by
  obtain ⟨coins, vout, nChangePos, tx, hcoins, hadded, -, -, -, hr⟩ := createRound_spec hround
  split at hr
  case isFalse => cases hr
  case isTrue =>
    obtain rfl := Sum.inr.inj hr
    dsimp only
    by_cases hpos : 0 < (env.leftOver nValue s coins).1
    · obtain ⟨scriptChange, position, hle, hdata, -⟩ := hadded.change hpos
      have hlength : vout.data.length = vecSend.length + 1 := by
        rw [hdata, (perm_insertIdx_payees hle _).length_eq, List.length_cons, length_payees]
      have hroom : vecSend.length < vout.capacity := by
        rw [← Nat.succ_le_iff, Nat.succ_eq_add_one, ← hlength]
        exact vout.length_le
      rw [Vec.grown_of_le ((Nat.zero_add _).trans_le hroom.le)]
      exact ⟨fun _ ↦ .inr ⟨coins, hcoins, hpos⟩, fun _ ↦ hroom⟩
    · obtain ⟨-, -, hcapacity⟩ := hadded.without hpos
      rw [hcapacity, Vec.grown_grown (Nat.zero_le _)]
      constructor
      · exact .inl
      · rintro (hroom | ⟨coins', hcoins', hpos'⟩)
        · exact hroom
        · obtain rfl := Option.some.inj (hcoins.symm.trans hcoins')
          exact absurd hpos' hpos

theorem room_iff {k : Nat}
    (h : Loop.after (env.createBody vecSend calls wtxNew nValue) k (env.createStart wtxNew) =
      some s) :
    vecSend.length < Vec.grown env.growth s.vout.capacity 0 vecSend.length ↔
      vecSend.length < Vec.grown env.growth wtxNew.vout.capacity 0 vecSend.length ∨
      ∃ j < k, ∃ s₀, Loop.after (env.createBody vecSend calls wtxNew nValue) j
        (env.createStart wtxNew) = some s₀ ∧ env.LeavesChange calls nValue s₀ := by
  have hinduct := Loop.after_induct (j := 0) (I := fun k s ↦
    Loop.after (env.createBody vecSend calls wtxNew nValue) k (env.createStart wtxNew) = some s ∧
    (vecSend.length < Vec.grown env.growth s.vout.capacity 0 vecSend.length ↔
      vecSend.length < Vec.grown env.growth wtxNew.vout.capacity 0 vecSend.length ∨
      ∃ j < k, ∃ s₀, Loop.after (env.createBody vecSend calls wtxNew nValue) j
        (env.createStart wtxNew) = some s₀ ∧ env.LeavesChange calls nValue s₀))
    (fun k s s' hk hbody ↦ ?_) ⟨rfl, ?_⟩ h
  · rw [Nat.zero_add] at hinduct
    exact hinduct.2
  · obtain ⟨hafter, hiff⟩ := hk
    refine ⟨(Loop.after_add hafter).trans (Loop.after_again hbody), ?_⟩
    rw [room_again (createBody_eq_again.mp hbody), hiff, or_assoc]
    refine or_congr_right ⟨?_, ?_⟩
    · rintro (⟨j, hj, hleaves⟩ | hleaves)
      · exact ⟨j, Nat.lt_succ_of_lt hj, hleaves⟩
      · exact ⟨k, Nat.lt_succ_self k, s, hafter, hleaves⟩
    · rintro ⟨j, hj, s₀, hafter₀, hleaves⟩
      obtain hj | rfl := Nat.lt_succ_iff_lt_or_eq.mp hj
      · exact .inl ⟨j, hj, s₀, hafter₀, hleaves⟩
      · obtain rfl := Option.some.inj (hafter.symm.trans hafter₀)
        exact .inr hleaves
  · constructor
    · exact .inl
    · rintro (hroom | ⟨j, hj, -⟩)
      · exact hroom
      · exact absurd hj (Nat.not_lt_zero j)

theorem feeInRange_of_reaches (h : env.Fits vecSend) (hcontract : ∀ i, (calls i).Contract)
    (hamounts : checkAmounts vecSend = .ok nValue)
    (hs : env.Reaches vecSend wtxNew nValue calls s) : FeeInRange env s := by
  obtain ⟨k, hafter⟩ := hs
  refine Loop.after_invariant (fun s s' hs hbody ↦ ?_) ⟨h.fee, ?_⟩ hafter
  · exact (raises_of_again h (hcontract s.nRound) hamounts hs (createBody_eq_again.mp hbody)).2
  · have hfee := h.fee
    rw [createStart, maxFee]
    dsimp only
    omega

/-- A fee that is raised reaches the largest one. -/
theorem createTransaction_ends (h : env.Fits vecSend) (hcontract : ∀ i, (calls i).Contract) :
    ∃ n r, env.createTransaction vecSend calls wtxNew n = some r := by
  cases hamounts : checkAmounts vecSend with
  | error e =>
      refine ⟨0, .error e, ?_⟩
      rw [createTransaction, hamounts]
  | ok nValue =>
      have hrun : ∃ r, Loop.run (env.createBody vecSend calls wtxNew nValue)
          ((env.maxFee - (env.createStart wtxNew).nFeeRet.toInt).toNat + 1)
          (env.createStart wtxNew) = some r ∧ True := by
        refine Loop.run_spec (I := FeeInRange env)
          (m := fun s ↦ (env.maxFee - s.nFeeRet.toInt).toNat) (fun s hs ↦ ?_)
          (feeInRange_of_reaches h hcontract hamounts ⟨0, rfl⟩)
          (Nat.lt_succ_self _)
        cases hround : env.createRound (calls s.nRound) vecSend wtxNew nValue s with
        | error e =>
            refine .inl ⟨.error e, ?_, trivial⟩
            rw [createBody, hround]
        | ok result =>
            cases result with
            | inl created => exact .inl ⟨.ok created, createBody_eq_exit.mpr hround, trivial⟩
            | inr s' =>
                obtain ⟨hlt, hs'⟩ := raises_of_again h (hcontract s.nRound) hamounts hs hround
                refine .inr ⟨s', createBody_eq_again.mpr hround, hs', ?_⟩
                have hlt := Int64.lt_iff_toInt_lt.mp hlt
                have hle := hs'.le
                omega
      obtain ⟨r, hr, -⟩ := hrun
      refine ⟨(env.maxFee - (env.createStart wtxNew).nFeeRet.toInt).toNat + 1, r, ?_⟩
      rw [createTransaction, hamounts]
      exact hr

/-- The loop of `CreateTransaction` ends, with a higher fee each time it goes on, and what it
returns is balanced, iff there is room for the change where the last round leaves some. -/
theorem createTransaction_balanced_iff (env : CreateEnv P) (calls : Nat → CreateCalls env)
    (vecSend : List (CScript × Int64)) (wtxNew : NewTx) (hfits : env.Fits vecSend)
    (hcontract : ∀ i, (calls i).Contract) :
    env.Settles vecSend wtxNew calls ↔ env.Roomy vecSend wtxNew calls := by
  constructor
  · intro hsettles nValue k s created hamounts hafter hround hleaves
    have hs := feeInRange_of_reaches hfits hcontract hamounts ⟨k, hafter⟩
    obtain ⟨n, hn⟩ := createTransaction_of_reaches hamounts ⟨k, hafter⟩ hround
    have hbalanced := hsettles.balanced n created hn
    exact (room_iff hafter).mp
      ((balanced_iff_of_exit hfits (hcontract _) hamounts hs hround).mp hbalanced hleaves)
  · intro hroomy
    refine ⟨createTransaction_ends hfits hcontract, fun nValue s s' hamounts hs hround ↦ ?_,
      fun n created hn ↦ ?_⟩
    · have hrange := feeInRange_of_reaches hfits hcontract hamounts hs
      obtain ⟨hlt, hs'⟩ := raises_of_again hfits (hcontract _) hamounts hrange hround
      exact ⟨hlt, hs'.le⟩
    · obtain ⟨nValue, s, hamounts, ⟨k, hafter⟩, hround⟩ := createTransaction_eq_ok hn
      have hs := feeInRange_of_reaches hfits hcontract hamounts ⟨k, hafter⟩
      refine (balanced_iff_of_exit hfits (hcontract _) hamounts hs hround).mpr fun hleaves ↦ ?_
      exact (room_iff hafter).mpr (hroomy nValue k s created hamounts hafter hround hleaves)

end

end CreateEnv

/-! ## One payee and change -/

theorem contract_sampleCreateCalls (nRound : Nat) : (sampleCreateCalls 0 nRound).Contract := by
  intro nTargetValue coins _ _ h
  by_cases hle : nTargetValue ≤ 10000000
  · obtain rfl := Option.some.inj ((if_pos hle).symm.trans h)
    exact ⟨hle, rfl, by decide⟩
  · cases (if_neg hle).symm.trans h

theorem fits_samplePayee : sampleCreateEnv.Fits [([0x53], 5000000)] := by
  refine ⟨?_, ?_, ?_, ?_⟩
  all_goals decide

/-- The change is put before the only payee. -/
theorem createTransaction_balanced_reserved :
    sampleCreateEnv.Settles [([0x53], 5000000)] { vout := ⟨[], 2, 0, Nat.zero_le 2⟩ }
      (sampleCreateCalls 0) := by
  refine (CreateEnv.createTransaction_balanced_iff sampleCreateEnv (sampleCreateCalls 0)
    [([0x53], 5000000)] _ fits_samplePayee contract_sampleCreateCalls).mpr ?_
  intro nValue k s created _ _ _ _
  exact .inl (by decide)

/-- A vector that holds the only payee is full. -/
theorem createTransaction_changePos :
    ∃ created, sampleCreateEnv.createTransaction [([0x53], 5000000)] (sampleCreateCalls 0) {} 1 =
        some (.ok created) ∧
      created.tx.vout = [⟨4000000, [0x52]⟩, ⟨5000000, [0x53]⟩] ∧ created.nChangePos = none ∧
      ¬ sampleCreateEnv.Settles [([0x53], 5000000)] {} (sampleCreateCalls 0) := by
  obtain ⟨created, hcreated, hvout, hpos⟩ : ∃ created,
      sampleCreateEnv.createTransaction [([0x53], 5000000)] (sampleCreateCalls 0) {} 1 =
        some (.ok created) ∧
      created.tx.vout = [⟨4000000, [0x52]⟩, ⟨5000000, [0x53]⟩] ∧ created.nChangePos = none :=
    ⟨_, rfl, by decide +kernel, by decide +kernel⟩
  refine ⟨created, hcreated, hvout, hpos, fun hsettles ↦ ?_⟩
  obtain heq | ⟨position, -, txout, -, -, hposition⟩ :=
    (hsettles.balanced 1 created hcreated).outputs
  · rw [hvout] at heq
    cases heq
  · rw [hpos] at hposition
    cases hposition

end Fedoracoin
