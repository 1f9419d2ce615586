import Fedoracoin.BloomFilter
import Fedoracoin.ScriptLimits
import Fedoracoin.Solver

/-!
# Filters that peers load

The filter of a peer is loaded with `filterload`, gets what the peer sends with `filteradd`, and
the outpoints of the outputs that `IsRelevantAndUpdate` finds in transactions.  Whatever was loaded,
none of that fails, and nothing that was inserted is ever denied (`noFalseNegatives`), so the peer
is told of every transaction that spends an output that matched.
-/

namespace Fedoracoin

namespace CBloomFilter

/-! ## `IsRelevantAndUpdate` -/

/-- The loop over a script that stops at the first data element the filter contains; every turn
takes a byte or more. -/
def scanScript (filter : CBloomFilter) : Nat → CScript → Option Bool
  | 0, _ => some false
  | n + 1, pc =>
      let op := getOp2 pc
      if op.fRet = false then some false
      else if op.vchRet.length = 0 then filter.scanScript n op.pc
      else do if ← filter.contains op.vchRet then return true else filter.scanScript n op.pc

def matchesScript (filter : CBloomFilter) (script : CScript) : Option Bool :=
  filter.scanScript script.length script

/-- Whether an output that matched is to be added. -/
def updatesFor (filter : CBloomFilter) (scriptPubKey : CScript) : Bool :=
  if filter.nFlags &&& bloomUpdateMask = bloomUpdateAll then true
  else if filter.nFlags &&& bloomUpdateMask = bloomUpdateP2pubkeyOnly then
    let ret := solver scriptPubKey
    ret.fRet && (ret.typeRet = .pubkey || ret.typeRet = .multisig)
  else false

/-- One output of the transaction `hash`, with its number. -/
def scanOutput (hash : Uint256) (s : Bool × CBloomFilter) (output : CTxOut × Nat) :
    Option (Bool × CBloomFilter) := do
  let (fFound, filter) := s
  let (txout, i) := output
  if ← filter.matchesScript txout.scriptPubKey then
    let filter ← if filter.updatesFor txout.scriptPubKey
      then filter.insert (COutPoint.serialize ⟨hash, i⟩) else some filter
    return (true, filter)
  else return (fFound, filter)

/-- The loop over the inputs. -/
def scanInputs (filter : CBloomFilter) : List CTxIn → Option Bool
  | [] => some false
  | txin :: vin => do
      if ← filter.contains txin.prevout.serialize then return true
      if ← filter.matchesScript txin.scriptSig then return true
      filter.scanInputs vin

/-- `IsRelevantAndUpdate`. -/
def isRelevantAndUpdate (filter : CBloomFilter) (tx : CTransaction) (hash : Uint256) :
    Option (Bool × CBloomFilter) :=
  if filter.isFull then some (true, filter)
  else if filter.isEmpty then some (false, filter)
  else do
    let fFound ← filter.contains (serializeUint256 hash)
    let (fFound, filter) ← tx.vout.zipIdx.foldlM (scanOutput hash) (fFound, filter)
    if fFound then return (true, filter)
    let fSpends ← filter.scanInputs tx.vin
    return (fSpends, filter)

end CBloomFilter

/-! ## The messages of a peer -/

/-- What the messages about filters use of a `CNode`. -/
structure FilterNode where
  pfilter : Option CBloomFilter
  nMisbehavior : Nat
  fRelayTxes : Bool

namespace FilterNode

/-- `Misbehaving`. -/
def misbehaving (pfrom : FilterNode) (howmuch : Nat) : FilterNode :=
  { pfrom with nMisbehavior := pfrom.nMisbehavior + howmuch }

/-- `filterload`, with the filter that was read.  Reading it leaves `isEmpty` undetermined. -/
def filterload (pfrom : FilterNode) (filter : CBloomFilter) : FilterNode :=
  let pfrom :=
    if filter.isWithinSizeConstraints then { pfrom with pfilter := some filter.updateEmptyFull }
    else pfrom.misbehaving 100
  { pfrom with fRelayTxes := true }

/-- `filteradd`, with the data that was read. -/
def filteradd (pfrom : FilterNode) (vData : Valtype) : Option FilterNode :=
  if maxScriptElementSize < vData.length then some (pfrom.misbehaving 100)
  else match pfrom.pfilter with
    | none => some (pfrom.misbehaving 100)
    | some filter => do
        let filter ← filter.insert vData
        return { pfrom with pfilter := some filter }

/-- `pfilter->IsRelevantAndUpdate`, where there is a filter. -/
def isRelevantAndUpdate (pfrom : FilterNode) (tx : CTransaction) (hash : Uint256) :
    Option FilterNode :=
  match pfrom.pfilter with
  | none => some pfrom
  | some filter => do
      let (_, filter) ← filter.isRelevantAndUpdate tx hash
      return { pfrom with pfilter := some filter }

end FilterNode

/-- What happens to a filter once it is loaded. -/
inductive FilterCall where
  | filteradd (vData : Valtype)
  | isRelevantAndUpdate (tx : CTransaction) (hash : Uint256)

def FilterCall.run (pfrom : FilterNode) : FilterCall → Option FilterNode
  | filteradd vData => pfrom.filteradd vData
  | isRelevantAndUpdate tx hash => pfrom.isRelevantAndUpdate tx hash

/-- Any number of calls. -/
def FilterNode.run (pfrom : FilterNode) (calls : List FilterCall) : Option FilterNode :=
  calls.foldlM FilterCall.run pfrom

namespace CBloomFilter

variable {f g : CBloomFilter} {data : Valtype} {pc script : CScript} {n i : Nat} {hash : Uint256}

/-! ## The scan of a transaction -/

/-- `data` is an operand that reading the script comes by. -/
inductive Pushes : CScript → Valtype → Prop
  | here {pc : CScript} (h : (getOp2 pc).fRet = true) : Pushes pc (getOp2 pc).vchRet
  | later {pc : CScript} {data : Valtype} (h : (getOp2 pc).fRet = true)
      (hrest : Pushes (getOp2 pc).pc data) : Pushes pc data

theorem pushes_iff (h : (getOp2 pc).fRet = true) :
    Pushes pc data ↔ data = (getOp2 pc).vchRet ∨ Pushes (getOp2 pc).pc data := by
  constructor
  · intro hp
    cases hp with
    | here => exact Or.inl rfl
    | later _ hrest => exact Or.inr hrest
  · rintro (rfl | hrest)
    · exact .here h
    · exact .later h hrest

theorem not_pushes (h : (getOp2 pc).fRet = false) : ¬ Pushes pc data := by
  intro hp
  cases hp with
  | here h' => exact absurd (h.symm.trans h') (by simp)
  | later h' => exact absurd (h.symm.trans h') (by simp)

/-- A data element of the script is in the filter. -/
def Matches (f : CBloomFilter) (script : CScript) : Prop :=
  ∃ data, Pushes script data ∧ data.length ≠ 0 ∧ f.contains data = some true

theorem matches_iff (h : (getOp2 pc).fRet = true) : f.Matches pc ↔
    ((getOp2 pc).vchRet.length ≠ 0 ∧ f.contains (getOp2 pc).vchRet = some true) ∨
      f.Matches (getOp2 pc).pc := by
  simp only [Matches, pushes_iff h]
  constructor
  · rintro ⟨data, rfl | hp, hdata⟩
    · exact Or.inl hdata
    · exact Or.inr ⟨data, hp, hdata⟩
  · rintro (hdata | ⟨data, hp, hdata⟩)
    · exact ⟨_, Or.inl rfl, hdata⟩
    · exact ⟨data, Or.inr hp, hdata⟩

theorem scanScript_spec (h : f.Consistent) (hn : pc.length ≤ n) :
    ∃ b, f.scanScript n pc = some b ∧ (b = true ↔ f.Matches pc) := by
  induction pc using getOp2_induct generalizing n with
  | stop pc hstop =>
      refine ⟨false, ?_, ?_⟩
      · cases n with
        | zero => rfl
        | succ n => rw [scanScript, hstop]; rfl
      · simp [Matches, not_pushes hstop]
  | read pc hread ih =>
      have hlt := length_getOp2_lt hread
      obtain ⟨n, rfl⟩ := Nat.exists_eq_succ_of_ne_zero (by omega : n ≠ 0)
      obtain ⟨b, hb, hrest⟩ := ih (n := n) (by omega)
      rw [scanScript, hread, if_neg (by simp), matches_iff hread]
      by_cases hempty : (getOp2 pc).vchRet.length = 0
      · rw [if_pos hempty]
        exact ⟨b, hb, hrest.trans ⟨Or.inr, fun hm ↦ hm.resolve_left fun hd ↦ hd.1 hempty⟩⟩
      · rw [if_neg hempty]
        obtain ⟨c, hc, -⟩ := contains_spec h (getOp2 pc).vchRet
        rw [hc]
        cases c with
        | true => exact ⟨true, rfl, by simp [hempty]⟩
        | false => exact ⟨b, hb, by simp [hrest]⟩

theorem matchesScript_spec (h : f.Consistent) (script : CScript) :
    ∃ b, f.matchesScript script = some b ∧ (b = true ↔ f.Matches script) :=
  scanScript_spec h (le_refl _)

/-- One output: the filter grows, by the outpoint if the output matches and the flags say so. -/
theorem scanOutput_spec (h : f.Consistent) (hash : Uint256) (fFound : Bool) (txout : CTxOut)
    (i : Nat) : ∃ fFound' g, scanOutput hash (fFound, f) (txout, i) = some (fFound', g) ∧
      g.Consistent ∧ Grows f g ∧
      (f.Matches txout.scriptPubKey → f.updatesFor txout.scriptPubKey = true →
        g.contains (COutPoint.serialize ⟨hash, i⟩) = some true) := by
  obtain ⟨b, hb, hiff⟩ := matchesScript_spec h txout.scriptPubKey
  rw [scanOutput, hb]
  cases b with
  | false =>
      refine ⟨fFound, f, rfl, h, .refl f, fun hm ↦ ?_⟩
      exact absurd (hiff.mpr hm) (by simp)
  | true =>
      cases hupd : f.updatesFor txout.scriptPubKey with
      | false => exact ⟨true, f, by simp, h, .refl f, nofun⟩
      | true =>
          obtain ⟨g, hg, hcons, hgrows, hkey⟩ := insert_spec h (COutPoint.serialize ⟨hash, i⟩)
          exact ⟨true, g, by simp [hg], hcons, hgrows, fun _ _ ↦ hkey⟩

/-- Any outputs. -/
theorem foldlM_scanOutput (h : f.Consistent) (hash : Uint256) (fFound : Bool)
    (outputs : List (CTxOut × Nat)) :
    ∃ fFound' g, outputs.foldlM (scanOutput hash) (fFound, f) = some (fFound', g) ∧
      g.Consistent ∧ Grows f g := by
  obtain ⟨s, hrun, hcons, hgrows⟩ := Loop.foldlM_spec (f := scanOutput hash) (l := outputs)
    (s := (fFound, f)) (I := fun _ s ↦ s.2.Consistent ∧ Grows f s.2) (by
      rintro _ ⟨txout, i⟩ ⟨fFound', g⟩ - ⟨hcons, hgrows⟩
      obtain ⟨r, g', hstep, hcons', hgrows', -⟩ := scanOutput_spec hcons hash fFound' txout i
      exact ⟨(r, g'), hstep, hcons', hgrows.trans hgrows'⟩) ⟨h, .refl f⟩
  exact ⟨s.1, s.2, hrun, hcons, hgrows⟩

theorem scanInputs_spec (h : f.Consistent) (vin : List CTxIn) :
    ∃ b, f.scanInputs vin = some b ∧
      ∀ txin ∈ vin, f.contains txin.prevout.serialize = some true → b = true := by
  induction vin with
  | nil => exact ⟨false, rfl, nofun⟩
  | cons txin vin ih =>
      obtain ⟨c, hc, -⟩ := contains_spec h txin.prevout.serialize
      obtain ⟨m, hm, -⟩ := matchesScript_spec h txin.scriptSig
      obtain ⟨b, hb, hspends⟩ := ih
      rw [scanInputs, hc, hm]
      cases c with
      | true => exact ⟨true, rfl, fun _ _ _ ↦ rfl⟩
      | false =>
          cases m with
          | true => exact ⟨true, rfl, fun _ _ _ ↦ rfl⟩
          | false =>
              refine ⟨b, hb, fun txin' hin hkey ↦ ?_⟩
              rcases List.mem_cons.mp hin with rfl | hin
              · exact absurd (hc.symm.trans hkey) (by simp)
              · exact hspends txin' hin hkey

/-- The filter when the scan comes to output `i`. -/
def beforeOutput (f : CBloomFilter) (tx : CTransaction) (hash : Uint256) (i : Nat) :
    Option (Bool × CBloomFilter) := do
  let fFound ← f.contains (serializeUint256 hash)
  (tx.vout.zipIdx.take i).foldlM (scanOutput hash) (fFound, f)

/-- Output `i` matches when the scan comes to it, and the flags have it added. -/
def AddsOutput (f : CBloomFilter) (tx : CTransaction) (hash : Uint256) (i : Nat) : Prop :=
  ∃ txout fFound g, tx.vout[i]? = some txout ∧ f.beforeOutput tx hash i = some (fFound, g) ∧
    g.Matches txout.scriptPubKey ∧ g.updatesFor txout.scriptPubKey = true

/-- The filter after the outputs contains what they added. -/
theorem scanOutputs_spec (h : f.Consistent) (tx : CTransaction) (hash : Uint256) :
    ∃ c fFound g, f.contains (serializeUint256 hash) = some c ∧
      tx.vout.zipIdx.foldlM (scanOutput hash) (c, f) = some (fFound, g) ∧
      g.Consistent ∧ Grows f g ∧
      ∀ i, f.AddsOutput tx hash i → g.contains (COutPoint.serialize ⟨hash, i⟩) = some true := by
  obtain ⟨c, hc, -⟩ := contains_spec h (serializeUint256 hash)
  obtain ⟨fFound, g, hrun, hcons, hgrows⟩ := foldlM_scanOutput h hash c tx.vout.zipIdx
  refine ⟨c, fFound, g, hc, hrun, hcons, hgrows, ?_⟩
  rintro i ⟨txout, r₁, g₁, hout, hbefore, hmatch, hupd⟩
  obtain ⟨r₁', g₁', hrun₁, hcons₁, -⟩ := foldlM_scanOutput h hash c (tx.vout.zipIdx.take i)
  rw [beforeOutput, hc, Option.bind_eq_bind, Option.bind_some, hrun₁] at hbefore
  obtain ⟨rfl, rfl⟩ := Prod.mk.inj (Option.some.inj hbefore)
  obtain ⟨r₂, g₂, hstep, hcons₂, -, hadds⟩ := scanOutput_spec hcons₁ hash r₁' txout i
  obtain ⟨r₃, g₃, hrun₃, hcons₃, hgrows₃⟩ :=
    foldlM_scanOutput hcons₂ hash r₂ (tx.vout.zipIdx.drop (i + 1))
  have hsplit : tx.vout.zipIdx =
      tx.vout.zipIdx.take i ++ (txout, i) :: tx.vout.zipIdx.drop (i + 1) := by
    obtain ⟨hlt, rfl⟩ := List.getElem?_eq_some_iff.mp hout
    have hlt' : i < tx.vout.zipIdx.length := by simpa using hlt
    have hget : tx.vout.zipIdx[i] = (tx.vout[i], i) := by simp
    rw [← hget, List.cons_getElem_drop_succ, List.take_append_drop]
  have hsame : g = g₃ := by
    rw [hsplit, List.foldlM_append, hrun₁, Option.bind_eq_bind, Option.bind_some,
      List.foldlM_cons, hstep, Option.bind_eq_bind, Option.bind_some, hrun₃] at hrun
    exact (Prod.mk.inj (Option.some.inj hrun)).2.symm
  rw [hsame]
  exact hgrows₃.contains hcons₂ hcons₃ (hadds hmatch hupd)

/-- An empty filter matches nothing and stays. -/
theorem not_matches_of_isEmpty (h : f.Consistent) (hfull : f.isFull = false)
    (hempty : f.isEmpty = true) : ¬ f.Matches script := by
  rintro ⟨data, -, -, hdata⟩
  rcases (contains_iff h).mp hdata with hf | ⟨he, -⟩
  · exact absurd (hfull.symm.trans hf) (by simp)
  · exact absurd (hempty.symm.trans he) (by simp)

theorem foldlM_scanOutput_of_isEmpty (h : f.Consistent) (hfull : f.isFull = false)
    (hempty : f.isEmpty = true) (fFound : Bool) (outputs : List (CTxOut × Nat)) :
    outputs.foldlM (scanOutput hash) (fFound, f) = some (fFound, f) := by
  induction outputs with
  | nil => rfl
  | cons output outputs ih =>
      obtain ⟨b, hb, hiff⟩ := matchesScript_spec h output.1.scriptPubKey
      have hfalse : b = false := by
        rw [← Bool.not_eq_true, hiff]
        exact not_matches_of_isEmpty h hfull hempty
      rw [List.foldlM_cons, scanOutput, hb, hfalse]
      exact ih

theorem not_addsOutput_of_isEmpty {tx : CTransaction} (h : f.Consistent) (hfull : f.isFull = false)
    (hempty : f.isEmpty = true) : ¬ f.AddsOutput tx hash i := by
  rintro ⟨txout, fFound, g, -, hbefore, hmatch, -⟩
  obtain ⟨c, hc, -⟩ := contains_spec h (serializeUint256 hash)
  rw [beforeOutput, hc, Option.bind_eq_bind, Option.bind_some,
    foldlM_scanOutput_of_isEmpty h hfull hempty] at hbefore
  obtain ⟨-, rfl⟩ := Prod.mk.inj (Option.some.inj hbefore)
  exact not_matches_of_isEmpty h hfull hempty hmatch

/-- **A transaction is looked through without a fault, and what its outputs add is contained.** -/
theorem isRelevantAndUpdate_spec (h : f.Consistent) (tx : CTransaction) (hash : Uint256) :
    ∃ b g, f.isRelevantAndUpdate tx hash = some (b, g) ∧ g.Consistent ∧ Grows f g ∧
      (∀ i, f.AddsOutput tx hash i → g.contains (COutPoint.serialize ⟨hash, i⟩) = some true) ∧
      ((∃ txin ∈ tx.vin, f.contains txin.prevout.serialize = some true) → b = true) := by
  rw [isRelevantAndUpdate]
  cases hfull : f.isFull with
  | true =>
      refine ⟨true, f, rfl, h, .refl f, fun i _ ↦ ?_, fun _ ↦ rfl⟩
      exact (contains_iff h).mpr (Or.inl hfull)
  | false =>
      cases hempty : f.isEmpty with
      | true =>
          refine ⟨false, f, rfl, h, .refl f, fun i hadds ↦ ?_, ?_⟩
          · exact absurd hadds (not_addsOutput_of_isEmpty h hfull hempty)
          · rintro ⟨txin, -, hkey⟩
            rcases (contains_iff h).mp hkey with hf | ⟨he, -⟩
            · exact absurd (hfull.symm.trans hf) (by simp)
            · exact absurd (hempty.symm.trans he) (by simp)
      | false =>
          obtain ⟨c, fFound, g, hc, hrun, hcons, hgrows, hadds⟩ := scanOutputs_spec h tx hash
          obtain ⟨b, hb, hspends⟩ := scanInputs_spec hcons tx.vin
          refine ⟨fFound || b, g, ?_, hcons, hgrows, hadds, ?_⟩
          · rw [if_neg (by simp), if_neg (by simp), hc, Option.bind_eq_bind, Option.bind_some, hrun]
            simp only [Option.bind_eq_bind, Option.bind_some, hb]
            cases fFound <;> rfl
          · rintro ⟨txin, hin, hkey⟩
            rw [hspends txin hin (hgrows.contains h hcons hkey), Bool.or_true]

end CBloomFilter

/-! ## Runs of a peer -/

/-- What a call inserts into the filter. -/
def FilterCall.Adds (f : CBloomFilter) (vKey : Valtype) : FilterCall → Prop
  | filteradd vData => vKey = vData ∧ vData.length ≤ maxScriptElementSize
  | isRelevantAndUpdate tx hash =>
      ∃ i, f.AddsOutput tx hash i ∧ vKey = COutPoint.serialize ⟨hash, i⟩

section

variable {pfrom : FilterNode} {f : CBloomFilter}

theorem FilterCall.run_spec (hp : pfrom.pfilter = some f) (h : f.Consistent) (call : FilterCall) :
    ∃ pto g, call.run pfrom = some pto ∧ pto.pfilter = some g ∧ g.Consistent ∧ f.Grows g ∧
      ∀ vKey, call.Adds f vKey → g.contains vKey = some true := by
  cases call with
  | filteradd vData =>
      rw [FilterCall.run, FilterNode.filteradd, hp]
      by_cases hsize : maxScriptElementSize < vData.length
      · refine ⟨pfrom.misbehaving 100, f, if_pos hsize, hp, h, .refl f, ?_⟩
        rintro vKey ⟨-, hle⟩
        exact absurd hsize (Nat.not_lt.mpr hle)
      · obtain ⟨g, hg, hcons, hgrows, hkey⟩ := CBloomFilter.insert_spec h vData
        refine ⟨{ pfrom with pfilter := some g }, g, ?_, rfl, hcons, hgrows, ?_⟩
        · rw [if_neg hsize]
          simp [hg]
        · rintro vKey ⟨rfl, -⟩
          exact hkey
  | isRelevantAndUpdate tx hash =>
      obtain ⟨b, g, hg, hcons, hgrows, hadds, -⟩ := CBloomFilter.isRelevantAndUpdate_spec h tx hash
      refine ⟨{ pfrom with pfilter := some g }, g, ?_, rfl, hcons, hgrows, ?_⟩
      · rw [FilterCall.run, FilterNode.isRelevantAndUpdate, hp]
        simp [hg]
      · rintro vKey ⟨i, hi, rfl⟩
        exact hadds i hi

theorem FilterNode.run_spec (hp : pfrom.pfilter = some f) (h : f.Consistent)
    (calls : List FilterCall) :
    ∃ pto g, pfrom.run calls = some pto ∧ pto.pfilter = some g ∧ g.Consistent ∧ f.Grows g := by
  obtain ⟨pto, hrun, g, hpto, hcons, hgrows⟩ := Loop.foldlM_spec (f := FilterCall.run) (l := calls)
    (s := pfrom) (I := fun _ p ↦ ∃ g, p.pfilter = some g ∧ g.Consistent ∧ f.Grows g) (by
      rintro _ call p - ⟨g, hp, hcons, hgrows⟩
      obtain ⟨p', g', hstep, hp', hcons', hgrows', -⟩ := call.run_spec hp hcons
      exact ⟨p', hstep, g', hp', hcons', hgrows.trans hgrows'⟩) ⟨f, hp, h, .refl f⟩
  exact ⟨pto, g, hrun, hpto, hcons, hgrows⟩

end

/-- **No false negatives.**  After a filter within the limits was loaded, no call fails, what a call
has inserted is contained ever after, and so every transaction that spends an output that matched
is relevant. -/
theorem FilterNode.noFalseNegatives (pfrom : FilterNode) (filter : CBloomFilter)
    (hsize : filter.isWithinSizeConstraints = true) (calls : List FilterCall) :
    ∃ pto g, (pfrom.filterload filter).run calls = some pto ∧ pto.pfilter = some g ∧
      (∀ vKey, ∃ fContains, g.contains vKey = some fContains) ∧
      (∀ tx hash, ∃ fRelevant g', g.isRelevantAndUpdate tx hash = some (fRelevant, g')) ∧
      ∀ pre call post, calls = pre ++ call :: post →
        ∃ p f, (pfrom.filterload filter).run pre = some p ∧ p.pfilter = some f ∧
          (∀ vKey, call.Adds f vKey → g.contains vKey = some true) ∧
          ∀ tx hash i, call = .isRelevantAndUpdate tx hash → f.AddsOutput tx hash i →
            ∀ tx' hash', (∃ txin ∈ tx'.vin, txin.prevout = ⟨hash, i⟩) →
              ∃ g', g.isRelevantAndUpdate tx' hash' = some (true, g') := by
  have hload : (pfrom.filterload filter).pfilter = some filter.updateEmptyFull := by
    rw [filterload, if_pos hsize]
  have hcons := CBloomFilter.consistent_updateEmptyFull filter
  obtain ⟨pto, g, hrun, hpto, hg, -⟩ := run_spec hload hcons calls
  refine ⟨pto, g, hrun, hpto, ?_, ?_, ?_⟩
  · intro vKey
    obtain ⟨b, hb, -⟩ := CBloomFilter.contains_spec hg vKey
    exact ⟨b, hb⟩
  · intro tx hash
    obtain ⟨b, g', hb, -⟩ := CBloomFilter.isRelevantAndUpdate_spec hg tx hash
    exact ⟨b, g', hb⟩
  · rintro pre call post rfl
    obtain ⟨p, f, hpre, hp, hf, -⟩ := run_spec hload hcons pre
    obtain ⟨p₁, f₁, hcall, hp₁, hf₁, -, hadds⟩ := call.run_spec hp hf
    obtain ⟨p₂, f₂, hpost, hp₂, -, hgrows⟩ := run_spec hp₁ hf₁ post
    have hsame : g = f₂ := by
      rw [run, List.foldlM_append, ← run, hpre, Option.bind_eq_bind, Option.bind_some,
        List.foldlM_cons, hcall, Option.bind_eq_bind, Option.bind_some, ← run, hpost] at hrun
      obtain rfl := Option.some.inj hrun
      exact Option.some.inj (hpto.symm.trans hp₂)
    subst hsame
    have hkept (vKey : Valtype) (hkey : call.Adds f vKey) : g.contains vKey = some true :=
      hgrows.contains hf₁ hg (hadds vKey hkey)
    refine ⟨p, f, hpre, hp, hkept, ?_⟩
    rintro tx hash i rfl hout tx' hash' ⟨txin, hin, hprevout⟩
    obtain ⟨b, g', hb, -, -, -, hspends⟩ := CBloomFilter.isRelevantAndUpdate_spec hg tx' hash'
    have hspent := hkept _ ⟨i, hout, rfl⟩
    rw [← hprevout] at hspent
    obtain rfl := hspends ⟨txin, hin, hspent⟩
    exact ⟨g', hb⟩

/-- Twenty-four bits for five hash functions, with `BLOOM_UPDATE_ALL`. -/
def sampleFilter : CBloomFilter := ⟨[0, 0, 0], true, false, 5, 0, bloomUpdateAll⟩

/-- An output that pushes what the peer has added. -/
def sampleFilterTx : CTransaction := { vin := [], vout := [⟨1, [0x03, 1, 2, 3]⟩] }

theorem FilterNode.noFalseNegatives_sample :
    ∃ pto g, ((FilterNode.mk none 0 false).filterload sampleFilter).run
        [.filteradd [1, 2, 3], .isRelevantAndUpdate sampleFilterTx 5] = some pto ∧
      pto.pfilter = some g ∧ g.contains [1, 2, 3] = some true ∧
      ∃ g', g.isRelevantAndUpdate { vin := [{ prevout := ⟨5, 0⟩ }], vout := [] } 6 =
        some (true, g') := by
  obtain ⟨pto, g, hrun, hpto, -, -, hall⟩ := noFalseNegatives (FilterNode.mk none 0 false)
    sampleFilter (by decide) [.filteradd [1, 2, 3], .isRelevantAndUpdate sampleFilterTx 5]
  refine ⟨pto, g, hrun, hpto, ?_, ?_⟩
  · obtain ⟨p, f, hpre, hp, hadds, -⟩ := hall [] _ _ rfl
    exact hadds _ ⟨rfl, by decide⟩
  · obtain ⟨p, f, hpre, hp, -, hspends⟩ := hall [.filteradd [1, 2, 3]] _ _ rfl
    have hf : f = ⟨[20, 64, 17], false, false, 5, 0, bloomUpdateAll⟩ := by
      have hrun : (((FilterNode.mk none 0 false).filterload sampleFilter).run
          [.filteradd [1, 2, 3]]).bind FilterNode.pfilter =
          some ⟨[20, 64, 17], false, false, 5, 0, bloomUpdateAll⟩ := by decide
      rw [hpre, Option.bind_some, hp] at hrun
      exact Option.some.inj hrun
    refine hspends _ 5 0 rfl ⟨_, false, f, rfl, ?_, ⟨_, .here rfl, ?_, ?_⟩, ?_⟩ _ 6
      ⟨_, List.mem_singleton_self _, rfl⟩
    · rw [hf]
      decide
    · decide
    · rw [hf]
      decide
    · rw [hf]
      decide

end Fedoracoin
