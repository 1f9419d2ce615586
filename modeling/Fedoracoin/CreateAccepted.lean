import Fedoracoin.CreateTransaction

/-!
# Whether `CheckTransaction` accepts what `CreateTransaction` returns

The test of the amounts looks at the sum before each amount is added, so a negative amount after a
larger positive one passes.  With no negative amount what is returned is accepted, unless the
amounts and the change do not fit in an `int64_t`, or no coin is spent:
`createTransaction_accepted_iff`.
-/

namespace Fedoracoin

open RunningSum Reallocation CTransaction

/-- What `CheckTransaction` asks of a transaction with distinct inputs. -/
theorem checkTransaction_eq_ok_iff {tx : CTransaction} (hsize : tx.getSerializeSize ≤ maxBlockSize)
    (hvout : tx.vout ≠ []) (hnodup : (tx.vin.map (·.prevout)).Nodup)
    (hnull : ∀ txin ∈ tx.vin, txin.prevout.isNull = false) :
    checkTransaction tx = .ok () ↔ tx.vin ≠ [] ∧ (∀ txout ∈ tx.vout, 0 ≤ txout.nValue) ∧
      (tx.vout.map fun txout ↦ txout.nValue.toInt).sum < 2 ^ 63 := by
  have hrun : (∃ r, checkOutputsTally.run 0 tx.vout = .ok r) ↔
      (∀ txout ∈ tx.vout, 0 ≤ txout.nValue) ∧
        (tx.vout.map fun txout ↦ txout.nValue.toInt).sum < 2 ^ 63 := by
    rw [checkOutputsTally_guarded.exists_run_iff (by decide), Int64.toInt_zero, zero_add]
    refine and_congr_left fun _ ↦ forall₂_congr fun txout _ ↦ ?_
    rw [checkOutputs_before_eq_ok]
    exact ⟨fun h ↦ h.1, fun h ↦ ⟨h, h⟩⟩
  have hdup : checkDuplicateInputs [] tx.vin = .ok () :=
    checkDuplicateInputs_eq_ok.mpr ⟨hnodup, fun _ _ ↦ List.not_mem_nil⟩
  have hcb : tx.isCoinBase = false := by
    rw [isCoinBase]
    split
    case h_1 txin hvin => exact hnull txin (by rw [hvin]; exact List.mem_singleton_self txin)
    case h_2 => rfl
  have hkind : checkKind tx = .ok () := by
    rw [checkKind, hcb, if_neg Bool.false_ne_true, failIf_eq_ok, List.any_eq_false]
    exact fun txin htxin ↦ by rw [hnull txin htxin]; exact Bool.false_ne_true
  rw [← hrun]
  constructor
  · intro h
    obtain ⟨⟨⟩, hshape, h⟩ := bind_eq_ok.mp h
    obtain ⟨r, htally, -⟩ := bind_eq_ok.mp h
    refine ⟨?_, r, htally⟩
    obtain ⟨⟨⟩, hvin, -⟩ := bind_eq_ok.mp hshape
    exact List.isEmpty_eq_false_iff.mp (failIf_eq_ok.mp hvin)
  · rintro ⟨hvin, r, htally⟩
    have hshape : checkShape tx = .ok () := by
      rw [checkShape, List.isEmpty_eq_false_iff.mpr hvin, List.isEmpty_eq_false_iff.mpr hvout,
        decide_eq_false (Nat.not_lt.mpr hsize)]
      rfl
    rw [checkTransaction, hshape]
    exact bind_eq_ok.mpr ⟨(), rfl, bind_eq_ok.mpr ⟨r, htally, bind_eq_ok.mpr ⟨(), hdup, hkind⟩⟩⟩

namespace CreateEnv

variable {P : Type} {env : CreateEnv P} {calls : CreateCalls env} {vecSend : List (CScript × Int64)}
  {wtxNew : NewTx} {nValue : Int64} {s : CreateState} {coins : SelectedCoins env}

/-! ## The inputs -/

theorem nodup_prevouts (coins : SelectedCoins env) : (env.prevouts coins).Nodup := by
  refine coins.nodup.map_on fun coin _ coin' _ h ↦ ?_
  obtain ⟨hhash, hn⟩ := COutPoint.mk.inj h
  exact Prod.ext (env.getTxHash_inj hhash) hn

/-- The number of an output is not that of a null outpoint. -/
theorem isNull_of_mem_prevouts {outpoint : COutPoint} (h : outpoint ∈ env.prevouts coins) :
    outpoint.isNull = false := by
  obtain ⟨coin, hcoin, rfl⟩ := List.mem_map.mp h
  have hne : coin.2 ≠ uintMax := ((coins.lt coin hcoin).trans_le (env.vout_le coin.1)).ne
  rw [COutPoint.isNull, Bool.and_eq_false_iff]
  exact .inr (beq_eq_false_iff_ne.mpr hne)

/-! ## The outputs -/

/-- What `CheckTransaction` asks of the last round. -/
structure Acceptable (env : CreateEnv P) (vecSend : List (CScript × Int64)) (nValue : Int64)
    (s : CreateState) (coins : SelectedCoins env) : Prop where
  amounts : ∀ p ∈ vecSend, 0 ≤ p.2
  spends : coins.setCoins ≠ []
  change : 0 < (env.leftOver nValue s coins).1 →
    total vecSend + (env.leftOver nValue s coins).1.toInt < 2 ^ 63

/-- The outputs are in range iff the amounts are, and the sum with the change is. -/
theorem outputs_iff {vout : Vec CTxOut} {nChangePos : Option Nat}
    (hamounts : checkAmounts vecSend = .ok nValue)
    (h : ChangeAdded env vecSend s (env.leftOver nValue s coins).1 vout nChangePos) :
    vout.data ≠ [] ∧
      (((∀ txout ∈ vout.data, 0 ≤ txout.nValue) ∧
          (vout.data.map fun txout ↦ txout.nValue.toInt).sum < 2 ^ 63) ↔
        (∀ p ∈ vecSend, 0 ≤ p.2) ∧ (0 < (env.leftOver nValue s coins).1 →
          total vecSend + (env.leftOver nValue s coins).1.toInt < 2 ^ 63)) := by
  have hne := (checkAmounts_eq_ok hamounts).1
  have hpayees : (∀ txout ∈ payees vecSend, 0 ≤ txout.nValue) ↔ ∀ p ∈ vecSend, 0 ≤ p.2 :=
    List.forall_mem_map
  generalize hchange : (env.leftOver nValue s coins).1 = nChange at h ⊢
  by_cases hpos : 0 < nChange
  · obtain ⟨scriptChange, position, hle, hdata, -⟩ := h.change hpos
    have hperm := perm_insertIdx_payees hle ⟨nChange, scriptChange⟩
    rw [hdata]
    constructor
    · intro hnil
      rw [hnil] at hperm
      exact List.cons_ne_nil _ _ hperm.nil_eq.symm
    · rw [(hperm.map _).sum_eq, List.map_cons, List.sum_cons, sum_payees, add_comm, ← hpayees]
      constructor
      · rintro ⟨hall, hlt⟩
        exact ⟨fun txout htxout ↦ hall txout (hperm.mem_iff.mpr (List.mem_cons_of_mem _ htxout)),
          fun _ ↦ hlt⟩
      · rintro ⟨hall, hlt⟩
        refine ⟨fun txout htxout ↦ ?_, hlt hpos⟩
        obtain rfl | htxout := List.mem_cons.mp (hperm.mem_iff.mp htxout)
        · exact Int64.le_of_lt hpos
        · exact hall txout htxout
  · obtain ⟨hdata, -⟩ := h.without hpos
    rw [hdata, sum_payees, hpayees]
    constructor
    · exact fun hnil ↦ hne (List.map_eq_nil_iff.mp hnil)
    · constructor
      · exact fun hall ↦ ⟨hall.1, fun h ↦ absurd h hpos⟩
      · rintro ⟨hall, -⟩
        refine ⟨hall, ?_⟩
        rw [← toInt_checkAmounts hall hamounts]
        exact nValue.toInt_lt

/-- A transaction that the last round returns is accepted iff the round is acceptable. -/
theorem checkTransaction_created_iff {created : Created env}
    (hamounts : checkAmounts vecSend = .ok nValue)
    (hcoins : calls.selectCoins (nValue + s.nFeeRet) = some coins)
    (h : env.createRound calls vecSend wtxNew nValue s = .ok (.inl created)) :
    checkTransaction created.tx = .ok () ↔ Acceptable env vecSend nValue s coins := by
  obtain ⟨coins', vout, nChangePos, tx, hcoins', hadded, hvout, hvin, hsize, hr⟩ :=
    createRound_spec h
  obtain rfl := Option.some.inj (hcoins.symm.trans hcoins')
  split at hr
  case isTrue => cases hr
  case isFalse =>
    obtain rfl := Sum.inl.inj hr
    obtain ⟨hne, hiff⟩ := outputs_iff hamounts hadded
    have hnil : tx.vin = [] ↔ env.prevouts coins = [] := by
      rw [← hvin, List.map_eq_nil_iff]
    have hspends : tx.vin ≠ [] ↔ coins.setCoins ≠ [] := by
      rw [ne_eq, hnil, prevouts, List.map_eq_nil_iff]
    have hnull : ∀ txin ∈ tx.vin, txin.prevout.isNull = false := by
      intro txin htxin
      have hmem : txin.prevout ∈ env.prevouts coins := by
        rw [← hvin]
        exact List.mem_map_of_mem htxin
      exact isNull_of_mem_prevouts hmem
    rw [checkTransaction_eq_ok_iff (hsize.le.trans (by decide)) (by rw [hvout]; exact hne)
      (by rw [hvin]; exact nodup_prevouts coins) hnull, hvout, hiff, hspends]
    exact ⟨fun hall ↦ ⟨hall.2.1, hall.1, hall.2.2⟩, fun hall ↦ ⟨hall.spends, hall.amounts,
      hall.change⟩⟩

/-- `CheckTransaction` accepts all that `CreateTransaction` returns iff no amount is negative, and
the last round spends a coin and leaves no change that does not fit in an `int64_t` together with
the amounts. -/
theorem createTransaction_accepted_iff (env : CreateEnv P) (calls : Nat → CreateCalls env)
    (vecSend : List (CScript × Int64)) (wtxNew : NewTx) :
    (∀ n created, env.createTransaction vecSend calls wtxNew n = some (.ok created) →
      checkTransaction created.tx = .ok ()) ↔
    ∀ nValue s coins created, checkAmounts vecSend = .ok nValue →
      env.Reaches vecSend wtxNew nValue calls s →
      (calls s.nRound).selectCoins (nValue + s.nFeeRet) = some coins →
      env.createRound (calls s.nRound) vecSend wtxNew nValue s = .ok (.inl created) →
        Acceptable env vecSend nValue s coins := by
  constructor
  · intro hall nValue s coins created hamounts hs hcoins hround
    obtain ⟨n, hn⟩ := createTransaction_of_reaches hamounts hs hround
    exact (checkTransaction_created_iff hamounts hcoins hround).mp (hall n created hn)
  · intro hall n created hn
    obtain ⟨nValue, s, hamounts, hs, hround⟩ := createTransaction_eq_ok hn
    obtain ⟨coins, -, -, -, hcoins, -⟩ := createRound_spec hround
    exact (checkTransaction_created_iff hamounts hcoins hround).mpr
      (hall nValue s coins created hamounts hs hcoins hround)

end CreateEnv

/-! ## A negative amount -/

/-- 5000000 and -3000000 are sent. -/
theorem createTransaction_negative :
    ∃ created, sampleCreateEnv.createTransaction [([0x53], 5000000), ([0x53], -3000000)]
        (sampleCreateCalls 1) {} 1 = some (.ok created) ∧
      checkTransaction created.tx =
        .error (.dos 100 rejectInvalid "bad-txns-vout-negative") :=
  ⟨_, rfl, by decide +kernel⟩

end Fedoracoin
