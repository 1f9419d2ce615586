import Fedoracoin.BlockTemplate
import Fedoracoin.ScriptThreads

/-!
# The loop over the pool

What `CreateNewBlock` collects from a pool in order (`PoolReady`): the queue has the transactions
whose inputs are all in the view, each of the others is in `vOrphan` with exactly the transactions
it waits for, and `mapDependers` leads from each of these to it (`collect_spec`).
-/

namespace Fedoracoin

open CCoinsView

variable {D : Type}

/-! ## Pools in order -/

/-- What the pool is relied on for.  A transaction that the chain state has is not accepted. -/
structure PoolReady (env : BlockEnv) (view : CCoinsView) (pool : CTxMemPool) : Prop where
  consistent : pool.Consistent env.getTxHash
  checked : ∀ tx ∈ pool.txs, checkTransaction tx = .ok ()
  fresh : ∀ tx ∈ pool.txs, view.haveCoins (env.getTxHash tx) = false
  backed : ∀ tx ∈ pool.txs, ∀ txin ∈ tx.vin, Backed env view pool.txs txin.prevout

/-- The output that an input refers to is in the view, or else in the pool. -/
inductive Found (pool : CTxMemPool) (view : CCoinsView) (o : COutPoint) : Prop
  | coins (txout : CTxOut) (h : view.haveCoins o.hash = true)
      (hout : (view.getCoins o.hash).vout[o.n]? = some txout)
  | pool (e : CTxMemPoolEntry) (txout : CTxOut) (h : view.haveCoins o.hash = false)
      (he : pool.mapTx.lookup o.hash = some e) (hout : e.tx.vout[o.n]? = some txout)

theorem PoolReady.found {env : BlockEnv} {pool : CTxMemPool} {view : CCoinsView}
    {tx : CTransaction} {txin : CTxIn} (h : PoolReady env view pool) (htx : tx ∈ pool.txs)
    (htxin : txin ∈ tx.vin) : Found pool view txin.prevout := by
  rcases h.backed tx htx txin htxin with ⟨k, hk, -⟩ | ⟨p, hp, hhash, txout, hkept⟩
  · obtain ⟨hout, -⟩ := CCoins.coin_eq_some.mp hk
    refine .coins k.out ?_ (SparseList.get_eq_some_iff.mp hout).1
    rw [CCoinsView.getCoins] at hout
    rw [haveCoins]
    cases hl : view.coins.lookup txin.prevout.hash with
    | none => simp [hl, CCoins.outputs] at hout
    | some c => rfl
  · obtain ⟨e, he, rfl⟩ := h.consistent.mem_txs.mp hp
    rw [hhash] at he
    exact .pool e txout (hhash ▸ h.fresh _ hp) he (CTransaction.kept_eq_some hkept).1

/-! ## What waits -/

/-- The transactions of the inputs that are not in the view. -/
def missing (view : CCoinsView) (vin : List CTxIn) : Finset Uint256 :=
  (vin.map (·.prevout.hash)).toFinset.filter fun hash ↦ view.haveCoins hash = false

/-- The transactions in `vOrphan` that wait for others. -/
def waitingTxs (vOrphan : List (Option (COrphan D))) : List CTransaction :=
  vOrphan.filterMap fun x ↦ x.bind fun o ↦ if o.setDependsOn = ∅ then none else some o.ptx

section

variable {view : CCoinsView} {vin : List CTxIn} {txin : CTxIn} {hash : Uint256}

theorem mem_missing : hash ∈ missing view vin ↔
    (∃ txin ∈ vin, txin.prevout.hash = hash) ∧ view.haveCoins hash = false := by
  rw [missing, Finset.mem_filter, List.mem_toFinset, List.mem_map]

theorem missing_concat_of_have (h : view.haveCoins txin.prevout.hash = true) :
    missing view (vin ++ [txin]) = missing view vin := by
  ext hash
  simp only [mem_missing, List.mem_append, List.mem_singleton]
  refine and_congr_left fun hno ↦ ⟨?_, fun ⟨t, ht, he⟩ ↦ ⟨t, Or.inl ht, he⟩⟩
  rintro ⟨t, ht | rfl, rfl⟩
  · exact ⟨t, ht, rfl⟩
  · exact absurd (h.symm.trans hno) (by decide)

theorem missing_concat_of_not_have (vin : List CTxIn)
    (h : view.haveCoins txin.prevout.hash = false) :
    missing view (vin ++ [txin]) = insert txin.prevout.hash (missing view vin) := by
  ext hash
  simp only [mem_missing, List.mem_append, List.mem_singleton, Finset.mem_insert]
  constructor
  · rintro ⟨⟨t, ht | rfl, rfl⟩, hno⟩
    · exact Or.inr ⟨⟨t, ht, rfl⟩, hno⟩
    · exact Or.inl rfl
  · rintro (rfl | ⟨⟨t, ht, rfl⟩, hno⟩)
    · exact ⟨⟨txin, Or.inr rfl, rfl⟩, h⟩
    · exact ⟨⟨t, Or.inl ht, rfl⟩, hno⟩

theorem modify_concat {α : Type} (l : List α) (a : α) (f : α → α) :
    (l ++ [a]).modify l.length f = l ++ [f a] := by
  induction l with
  | nil => rfl
  | cons b l ih => rw [List.cons_append, List.length_cons, List.modify_succ_cons, ih]; rfl

end

/-! ## The loop over the inputs -/

/-- What the loop over the inputs has done after the inputs `vin`. -/
structure Scanned (env : TemplateEnv D) (view : CCoinsView) (c : Collected D) (tx : CTransaction)
    (vin : List CTxIn) (s : InputScan D) : Prop where
  queue : s.vecPriority = c.vecPriority
  ready : missing view vin = ∅ → s.porphan = none ∧ s.toCollected = c
  waits : missing view vin ≠ ∅ → s.porphan = some c.vOrphan.length ∧
    s.vOrphan = c.vOrphan ++
      [some ⟨tx, missing view vin, env.doubles.ofInt 0, env.doubles.ofInt 0⟩] ∧
    ∀ hash i, i ∈ s.mapDependers hash ↔
      i ∈ c.mapDependers hash ∨ i = c.vOrphan.length ∧ hash ∈ missing view vin

section

variable {env : TemplateEnv D} {call : TemplateCall} {pool : CTxMemPool} {view : CCoinsView}
  {c : Collected D} {tx : CTransaction} {vin vin' : List CTxIn} {txin : CTxIn} {s : InputScan D}

theorem Scanned.waitFor (h : Scanned env view c tx vin s)
    (hno : view.haveCoins txin.prevout.hash = false) :
    Scanned env view c tx (vin ++ [txin]) (env.waitFor tx txin.prevout.hash s) := by
  have hmissing := missing_concat_of_not_have vin hno
  by_cases hempty : missing view vin = ∅
  · -- the entry is made for this input
    obtain ⟨hporphan, rfl⟩ := h.ready hempty
    refine ⟨rfl, fun h0 ↦ absurd h0 (hmissing ▸ Finset.insert_ne_empty _ _), fun _ ↦ ?_⟩
    rw [hmissing, hempty, TemplateEnv.waitFor, TemplateEnv.makeOrphan, hporphan]
    refine ⟨rfl, modify_concat _ _ _, fun hash i ↦ ?_⟩
    dsimp only
    by_cases hhash : hash = txin.prevout.hash
    · subst hhash
      simp
    · simp [hhash]
  · obtain ⟨hporphan, horphans, hdep⟩ := h.waits hempty
    refine ⟨?_, fun h0 ↦ absurd h0 (hmissing ▸ Finset.insert_ne_empty _ _), fun _ ↦ ?_⟩
    · rw [TemplateEnv.waitFor, TemplateEnv.makeOrphan, hporphan]
      exact h.queue
    · rw [hmissing, TemplateEnv.waitFor, TemplateEnv.makeOrphan, hporphan]
      refine ⟨rfl, ?_, fun hash i ↦ ?_⟩
      · dsimp only
        rw [horphans, modify_concat]
        rfl
      · dsimp only
        by_cases hhash : hash = txin.prevout.hash
        · subst hhash
          simp only [Function.update_self, List.mem_append, List.mem_singleton, hdep,
            Finset.mem_insert, true_or, and_true]
          tauto
        · simp [hhash, hdep]

theorem Scanned.scanInput (call : TemplateCall) (h : Scanned env view c tx vin s)
    (hfound : Found pool view txin.prevout) :
    ∃ s', env.scanInput call pool view tx s txin = .ok s' ∧
      Scanned env view c tx (vin ++ [txin]) s' := by
  rw [TemplateEnv.scanInput]
  cases hfound with
  | coins txout hhave hout =>
      rw [if_pos hhave]
      dsimp only
      rw [hout]
      refine ⟨_, rfl, h.queue, ?_, ?_⟩
      · rw [missing_concat_of_have hhave]
        exact h.ready
      · rw [missing_concat_of_have hhave]
        exact h.waits
  | pool e txout hno he hout =>
      rw [if_neg (Bool.eq_false_iff.mp hno), he, Option.bind_some, hout]
      have hwait := h.waitFor hno
      exact ⟨_, rfl, hwait.queue, hwait.ready, hwait.waits⟩

theorem Scanned.scanInputs (call : TemplateCall) (h : Scanned env view c tx vin s)
    (hfound : ∀ txin ∈ vin', Found pool view txin.prevout) :
    ∃ s', env.scanInputs call pool view tx s vin' = .ok (s', false) ∧
      Scanned env view c tx (vin ++ vin') s' := by
  induction vin' generalizing vin s with
  | nil => exact ⟨s, rfl, by rwa [List.append_nil]⟩
  | cons txin vin' ih =>
      obtain ⟨htxin, hrest⟩ := List.forall_mem_cons.mp hfound
      obtain ⟨s₁, hs₁, h₁⟩ := h.scanInput call htxin
      obtain ⟨s', hs', h'⟩ := ih h₁ hrest
      rw [List.append_assoc, List.singleton_append] at h'
      refine ⟨s', ?_, h'⟩
      have hthere : (!view.haveCoins txin.prevout.hash && !pool.exists txin.prevout.hash) =
          false := by
        cases htxin with
        | coins txout hhave hout => rw [hhave]; rfl
        | pool e txout hno he hout => rw [CTxMemPool.exists, he, Bool.and_comm]; rfl
      rw [TemplateEnv.scanInputs, hthere, if_neg Bool.false_ne_true]
      exact bind_eq_ok.mpr ⟨s₁, hs₁, hs'⟩

end

/-! ## The loop over the pool -/

/-- What the loop over the pool has collected from the transactions `txs`. -/
structure Collected.From (view : CCoinsView) (txs : List CTransaction) (c : Collected D) :
    Prop where
  perm : (c.vecPriority.map (·.ptx) ++ waitingTxs c.vOrphan).Perm txs
  ready : ∀ p ∈ c.vecPriority, missing view p.ptx.vin = ∅
  live : ∀ x ∈ c.vOrphan, ∃ o, x = some o
  waits : ∀ (i : Nat) (o : COrphan D), c.vOrphan[i]? = some (some o) →
    o.setDependsOn = missing view o.ptx.vin ∧ o.setDependsOn ≠ ∅
  dependers : ∀ hash i, i ∈ c.mapDependers hash ↔
    ∃ o, c.vOrphan[i]? = some (some o) ∧ hash ∈ o.setDependsOn

section

variable {env : TemplateEnv D} {call : TemplateCall} {pool : CTxMemPool} {view : CCoinsView}
  {c : Collected D} {tx : CTransaction} {txs txs' : List CTransaction}

theorem waitingTxs_concat (l : List (Option (COrphan D))) (o : COrphan D)
    (h : o.setDependsOn ≠ ∅) : waitingTxs (l ++ [some o]) = waitingTxs l ++ [o.ptx] := by
  rw [waitingTxs, List.filterMap_append, waitingTxs, List.filterMap_cons_some (b := o.ptx)]
  · rfl
  · rw [Option.bind_some, if_neg h]

/-- A transaction whose inputs are all in the view. -/
theorem Collected.From.push (h : c.From view txs) {p : TxPriority D}
    (hready : missing view p.ptx.vin = ∅) :
    Collected.From view (txs ++ [p.ptx]) { c with vecPriority := c.vecPriority ++ [p] } := by
  refine ⟨?_, ?_, h.live, h.waits, h.dependers⟩
  · rw [List.map_append, List.append_assoc]
    exact (List.perm_append_comm.append_left _).trans
      ((List.append_assoc _ _ _).symm ▸ h.perm.append_right _)
  · intro q hq
    rcases List.mem_append.mp hq with hq | hq
    · exact h.ready q hq
    · exact List.mem_singleton.mp hq ▸ hready

/-- A transaction that waits. -/
theorem Collected.From.wait (h : c.From view txs) {o : COrphan D}
    {mapDependers : Uint256 → List Nat} (hset : o.setDependsOn = missing view o.ptx.vin)
    (hne : o.setDependsOn ≠ ∅)
    (hdep : ∀ hash i, i ∈ mapDependers hash ↔
      i ∈ c.mapDependers hash ∨ i = c.vOrphan.length ∧ hash ∈ o.setDependsOn) :
    Collected.From view (txs ++ [o.ptx])
      ⟨c.vOrphan ++ [some o], mapDependers, c.vecPriority⟩ := by
  have hat : ∀ (i : Nat) (o' : COrphan D), (c.vOrphan ++ [some o])[i]? = some (some o') ↔
      c.vOrphan[i]? = some (some o') ∨ i = c.vOrphan.length ∧ o' = o := by
    intro i o'
    rcases lt_trichotomy i c.vOrphan.length with hi | rfl | hi
    · rw [List.getElem?_append_left hi]
      simp [hi.ne]
    · simp [eq_comm]
    · rw [List.getElem?_eq_none (by simpa using hi), List.getElem?_eq_none hi.le]
      simp [hi.ne']
  refine ⟨?_, h.ready, ?_, ?_, ?_⟩
  · rw [waitingTxs_concat _ _ hne, ← List.append_assoc]
    exact h.perm.append_right _
  · intro x hx
    rcases List.mem_append.mp hx with hx | hx
    · exact h.live x hx
    · exact ⟨o, List.mem_singleton.mp hx⟩
  · intro i o' ho'
    rcases (hat i o').mp ho' with ho' | ⟨-, rfl⟩
    · exact h.waits i o' ho'
    · exact ⟨hset, hne⟩
  · intro hash i
    rw [hdep, h.dependers]
    simp only [hat]
    constructor
    · rintro (⟨o', ho', hmem⟩ | ⟨hi, hmem⟩)
      · exact ⟨o', Or.inl ho', hmem⟩
      · exact ⟨o, Or.inr ⟨hi, rfl⟩, hmem⟩
    · rintro ⟨o', ho' | ⟨hi, rfl⟩, hmem⟩
      · exact Or.inl ⟨o', ho', hmem⟩
      · exact Or.inr ⟨hi, hmem⟩

theorem Collected.From.collectTx (env : TemplateEnv D) (pool : CTxMemPool)
    (h : c.From view txs) (hcall : call.isExcluded tx = false)
    (hcheck : checkTransaction tx = .ok ())
    (hfound : ∀ txin ∈ tx.vin, Found pool view txin.prevout) :
    ∃ c', env.collectTx call pool view c tx = .ok c' ∧ c'.From view (txs ++ [tx]) := by
  have hstart : Scanned env view c tx [] { c with dPriority := env.doubles.ofInt 0 } :=
    ⟨rfl, fun _ ↦ ⟨rfl, rfl⟩, fun h0 ↦ absurd rfl h0⟩
  obtain ⟨s, hs, hscan⟩ := hstart.scanInputs call hfound
  obtain ⟨nValueOut, hout⟩ := exists_valueOut hcheck
  rw [List.nil_append] at hscan
  have hcollect : env.collectTx call pool view c tx = env.enqueue tx s := by
    rw [TemplateEnv.collectTx, hcall, if_neg Bool.false_ne_true, hs]
    rfl
  rw [hcollect, TemplateEnv.enqueue, hout]
  by_cases hempty : missing view tx.vin = ∅
  · obtain ⟨hporphan, rfl⟩ := hscan.ready hempty
    rw [hporphan]
    exact ⟨_, rfl, h.push (p := ⟨_, _, tx⟩) hempty⟩
  · obtain ⟨hporphan, horphans, hdep⟩ := hscan.waits hempty
    rw [hporphan, horphans]
    refine ⟨_, rfl, ?_⟩
    dsimp only
    rw [modify_concat, hscan.queue]
    exact h.wait (o := ⟨tx, missing view tx.vin, _, _⟩) rfl hempty hdep

/-- **What is collected from a pool in order.** -/
theorem collect_spec (call : TemplateCall) (h : PoolReady env.toBlockEnv view pool) :
    ∃ c, env.collect call pool view = .ok c ∧
      c.From view (pool.sortedTxs.filter fun tx ↦ !call.isExcluded tx) := by
  have hmem : ∀ tx ∈ pool.sortedTxs, tx ∈ pool.txs := by
    intro tx htx
    obtain ⟨hash, -, hhash⟩ := List.mem_filterMap.mp htx
    obtain ⟨e, he, rfl⟩ := Option.map_eq_some_iff.mp hhash
    exact ⟨hash, e, he, rfl⟩
  have hrun : ∀ (l txs : List CTransaction) (c : Collected D), (∀ tx ∈ l, tx ∈ pool.txs) →
      c.From view txs → ∃ c', l.foldlM (env.collectTx call pool view) c = .ok c' ∧
        c'.From view (txs ++ l.filter fun tx ↦ !call.isExcluded tx) := by
    intro l
    induction l with
    | nil => exact fun txs c _ hc ↦ ⟨c, rfl, by rwa [List.filter_nil, List.append_nil]⟩
    | cons tx l ih =>
        intro txs c hl hc
        obtain ⟨htx, hl⟩ := List.forall_mem_cons.mp hl
        rw [List.foldlM_cons]
        cases hcall : call.isExcluded tx with
        | true =>
            rw [TemplateEnv.collectTx, hcall, if_pos rfl, List.filter_cons_of_neg (by simp [hcall])]
            exact ih txs c hl hc
        | false =>
            obtain ⟨c₁, hc₁, hfrom⟩ := hc.collectTx env pool hcall
              (h.checked tx htx) fun txin htxin ↦ h.found htx htxin
            obtain ⟨c', hc', hfrom'⟩ := ih (txs ++ [tx]) c₁ hl hfrom
            rw [List.append_assoc, List.singleton_append] at hfrom'
            refine ⟨c', bind_eq_ok.mpr ⟨c₁, hc₁, hc'⟩, ?_⟩
            rwa [List.filter_cons_of_pos (by simp [hcall])]
  obtain ⟨c, hc, hfrom⟩ := hrun pool.sortedTxs [] {} hmem
    ⟨.refl _, by simp, by simp, by simp, by simp⟩
  exact ⟨c, hc, hfrom⟩

end

end Fedoracoin
