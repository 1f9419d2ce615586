import Fedoracoin.Destination
import Fedoracoin.Lib.Joining

/-!
# Address groupings

`GetAddressGroupings`.  A set of addresses that the function makes with `new` is an address of a
small heap; following a pointer to a set that has been deleted is `Failure.assertion`.  Which
address `new` gives is arbitrary, as long as nothing lives there.
-/

namespace Fedoracoin

/-! ## The order of addresses -/

namespace CTxDestination

/-- The alternative of the variant, and what it holds. -/
def key : CTxDestination → Nat ×ₗ Nat
  | .noDestination => toLex (0, 0)
  | .keyID hash => toLex (1, hash.toNat)
  | .scriptID hash => toLex (2, hash.toNat)

theorem key_injective : Function.Injective key := by
  intro a b h
  cases a <;> cases b <;> simp_all [key, BitVec.toNat_inj]

instance : LinearOrder CTxDestination := LinearOrder.lift' key key_injective

end CTxDestination

/-- The order of `set<set<CTxDestination>>`. -/
def sortedSets (groupings : Finset (Finset CTxDestination)) : List (List CTxDestination) :=
  (groupings.image fun grouping ↦ grouping.sort (· ≤ ·)).sort (· ≤ ·)

theorem mem_sortedSets {groupings : Finset (Finset CTxDestination)} {l : List CTxDestination} :
    l ∈ sortedSets groupings ↔ ∃ grouping ∈ groupings, grouping.sort (· ≤ ·) = l := by
  rw [sortedSets, Finset.mem_sort, Finset.mem_image]

/-! ## The groups of a transaction -/

namespace CWallet

variable (env : AddressEnv) (mapAddressBook : Finset CTxDestination) (w : CWallet)

/-- `mapWallet[txin.prevout.hash].vout[txin.prevout.n]`, if it is there. -/
def prevOut (txin : CTxIn) : Option CTxOut :=
  (w.mapWallet.lookup txin.prevout.hash).bind fun prev ↦ prev.tx.vout[txin.prevout.n]?

/-- `IsMine` of an input. -/
def isMineIn (txin : CTxIn) : Bool :=
  (w.prevOut txin).any fun txout ↦ env.isMine txout.scriptPubKey

/-- `IsChange` of an output. -/
def isChange (txout : CTxOut) : Bool :=
  match env.extractDestination txout.scriptPubKey with
  | none => false
  | some address => env.isMineDestination address && decide (address ∉ mapAddressBook)

/-- "group all input addresses with each other": `grouping` and `any_mine`. -/
def groupInputs (vin : List CTxIn) : Finset CTxDestination × Bool :=
  vin.foldl (fun s txin ↦
    -- If this input isn't mine, ignore it
    if !w.isMineIn env txin then s
    else
      match (w.prevOut txin).bind fun txout ↦ env.extractDestination txout.scriptPubKey with
      | none => s
      | some address => (insert address s.1, true)) (∅, false)

/-- "group change with input addresses". -/
def groupChange (vout : List CTxOut) (grouping : Finset CTxDestination) : Finset CTxDestination :=
  vout.foldl (fun grouping txout ↦
    if isChange env mapAddressBook txout then
      match env.extractDestination txout.scriptPubKey with
      | none => grouping
      | some txoutAddr => insert txoutAddr grouping
    else grouping) grouping

def txGrouping (tx : CTransaction) : Finset CTxDestination :=
  let (grouping, any_mine) := w.groupInputs env tx.vin
  if any_mine then groupChange env mapAddressBook tx.vout grouping else grouping

/-- "group lone addrs by themselves". -/
def groupLone (vout : List CTxOut) (groupings : Finset (Finset CTxDestination)) :
    Finset (Finset CTxDestination) :=
  vout.foldl (fun groupings txout ↦
    if env.isMine txout.scriptPubKey then
      match env.extractDestination txout.scriptPubKey with
      | none => groupings
      | some address => insert {address} groupings
    else groupings) groupings

/-- The first loop. -/
def txGroupings : Finset (Finset CTxDestination) :=
  w.items.foldl (fun groupings walletEntry ↦
    let pcoin := walletEntry.2.tx
    let grouping := w.txGrouping env mapAddressBook pcoin
    groupLone env pcoin.vout
      (if 0 < grouping.card then insert grouping groupings else groupings)) ∅

end CWallet

/-! ## Merging -/

/-- `new`. -/
structure Allocator where
  new : Finset Nat → Nat
  new_notMem : ∀ live, new live ∉ live

/-- The sets that live, and the variables of the second loop. -/
structure MergedGroupings where
  heap : Finmap fun _ : Nat ↦ Finset CTxDestination := ∅
  uniqueGroupings : Finset Nat := ∅
  setmap : Finmap fun _ : CTxDestination ↦ Nat := ∅

namespace MergedGroupings

variable (alloc : Allocator)

/-- "make a set of all the groups hit by this new group". -/
def hits (s : MergedGroupings) (grouping : List CTxDestination) : Finset Nat :=
  (grouping.filterMap s.setmap.lookup).toFinset

/-- What is done with a hit. -/
def mergeHit (merged : Nat) (s : MergedGroupings) (hit : Nat) :
    Except Failure MergedGroupings :=
  match s.heap.lookup merged, s.heap.lookup hit with
  | some elements, some hitElements =>
      .ok { s with
        heap := (s.heap.insert merged (elements ∪ hitElements)).erase hit
        uniqueGroupings := s.uniqueGroupings.erase hit }
  | _, _ => .error .assertion

/-- An iteration of the second loop. -/
def mergeGrouping (s : MergedGroupings) (grouping : List CTxDestination) :
    Except Failure MergedGroupings := do
  let hits := s.hits grouping
  -- merge all hit groups into a new single group and delete old groups
  let merged := alloc.new s.heap.keys
  let s ← (hits.sort (· ≤ ·)).foldlM (mergeHit merged)
    { s with heap := s.heap.insert merged grouping.toFinset }
  -- update setmap
  match s.heap.lookup merged with
  | none => .error .assertion
  | some elements =>
      return { s with
        uniqueGroupings := insert merged s.uniqueGroupings
        setmap := (elements.sort (· ≤ ·)).foldl (fun setmap element ↦ setmap.insert element merged)
          s.setmap }

/-- `ret.insert(*uniqueGrouping); delete uniqueGrouping;` -/
def copyGrouping
    (r : Finset (Finset CTxDestination) × Finmap fun _ : Nat ↦ Finset CTxDestination)
    (uniqueGrouping : Nat) :
    Except Failure (Finset (Finset CTxDestination) × Finmap fun _ : Nat ↦ Finset CTxDestination) :=
  match r.2.lookup uniqueGrouping with
  | none => .error .assertion
  | some elements => .ok (insert elements r.1, r.2.erase uniqueGrouping)

/-- The last loop. -/
def collect (s : MergedGroupings) : Except Failure (Finset (Finset CTxDestination)) := do
  let (ret, _) ← (s.uniqueGroupings.sort (· ≤ ·)).foldlM copyGrouping (∅, s.heap)
  return ret

end MergedGroupings

def CWallet.getAddressGroupings (env : AddressEnv) (mapAddressBook : Finset CTxDestination)
    (alloc : Allocator) (w : CWallet) : Except Failure (Finset (Finset CTxDestination)) := do
  let s ← (sortedSets (w.txGroupings env mapAddressBook)).foldlM
    (MergedGroupings.mergeGrouping alloc) {}
  s.collect

/-! ## What belongs together -/

namespace CWallet

variable (env : AddressEnv) (mapAddressBook : Finset CTxDestination) (w : CWallet)

/-- An input spends an output of the wallet that pays the address. -/
def FundedBy (tx : CTransaction) (address : CTxDestination) : Prop :=
  ∃ txin ∈ tx.vin, ∃ txout, w.prevOut txin = some txout ∧ env.isMine txout.scriptPubKey = true ∧
    env.extractDestination txout.scriptPubKey = some address

def ChangeTo (tx : CTransaction) (address : CTxDestination) : Prop :=
  ∃ txout ∈ tx.vout, isChange env mapAddressBook txout = true ∧
    env.extractDestination txout.scriptPubKey = some address

/-- The address is one of the inputs of the transaction that are the wallet's, or takes change
from them. -/
def InGroup (tx : CTransaction) (address : CTxDestination) : Prop :=
  w.FundedBy env tx address ∨
    (∃ funding, w.FundedBy env tx funding) ∧ ChangeTo env mapAddressBook tx address

/-- An output of the wallet pays the address. -/
def Owns (address : CTxDestination) : Prop :=
  ∃ hash wtx, w.mapWallet.lookup hash = some wtx ∧ ∃ txout ∈ wtx.tx.vout,
    env.isMine txout.scriptPubKey = true ∧
      env.extractDestination txout.scriptPubKey = some address

/-- Both addresses are in the group of a transaction. -/
def SameTx (a b : CTxDestination) : Prop :=
  ∃ hash wtx, w.mapWallet.lookup hash = some wtx ∧ w.InGroup env mapAddressBook wtx.tx a ∧
    w.InGroup env mapAddressBook wtx.tx b

variable {env mapAddressBook w} {a b address : CTxDestination} {g : Finset CTxDestination}

/-- A loop that enters something in each round. -/
theorem mem_foldl_iff {α β : Type} [DecidableEq β] {f : Finset β → α → Finset β} {P : α → β → Prop}
    (h : ∀ s x y, y ∈ f s x ↔ y ∈ s ∨ P x y) {l : List α} {s : Finset β} {y : β} :
    y ∈ l.foldl f s ↔ y ∈ s ∨ ∃ x ∈ l, P x y := by
  induction l generalizing s with
  | nil => simp
  | cons x l ih =>
      rw [List.foldl_cons, ih, h, or_assoc]
      simp only [List.mem_cons, exists_eq_or_imp]

theorem groupInputs_spec (vin : List CTxIn) :
    (∀ address, address ∈ (w.groupInputs env vin).1 ↔ ∃ txin ∈ vin, ∃ txout,
      w.prevOut txin = some txout ∧ env.isMine txout.scriptPubKey = true ∧
        env.extractDestination txout.scriptPubKey = some address) ∧
    ((w.groupInputs env vin).2 = true ↔ ∃ address, address ∈ (w.groupInputs env vin).1) := by
  induction vin using List.reverseRecOn with
  | nil => exact ⟨fun address ↦ by simp [groupInputs], by simp [groupInputs]⟩
  | append_singleton vin txin ih =>
      obtain ⟨hmem, hany⟩ := ih
      rw [groupInputs, List.foldl_append, List.foldl_cons, List.foldl_nil]
      generalize hs : List.foldl _ _ vin = s
      change w.groupInputs env vin = s at hs
      rw [hs] at hmem hany
      simp only [List.mem_append, List.mem_singleton, or_and_right, exists_or, exists_eq_left,
        ← hmem]
      cases hprev : w.prevOut txin with
      | none => simpa [isMineIn, hprev] using hany
      | some txout =>
          cases hmine : env.isMine txout.scriptPubKey with
          | false => simpa [isMineIn, hprev, hmine] using hany
          | true =>
              cases haddress : env.extractDestination txout.scriptPubKey with
              | none => simpa [isMineIn, hprev, hmine, haddress] using hany
              | some address' =>
                  simp only [isMineIn, hprev, Option.any_some, hmine, Bool.not_true,
                    Bool.false_eq_true, if_false, Option.bind_some, haddress, Finset.mem_insert,
                    Option.some.injEq, exists_eq_left', true_and]
                  refine ⟨fun address ↦ ?_, iff_of_true trivial ⟨address', Or.inl rfl⟩⟩
                  rw [or_comm, eq_comm]

theorem mem_txGrouping {tx : CTransaction} :
    address ∈ w.txGrouping env mapAddressBook tx ↔ w.InGroup env mapAddressBook tx address := by
  obtain ⟨hmem, hany⟩ := w.groupInputs_spec tx.vin
  rw [InGroup, FundedBy, ← hmem, txGrouping]
  have hfunded : (∃ funding, w.FundedBy env tx funding) ↔ (w.groupInputs env tx.vin).2 = true := by
    rw [hany]
    exact exists_congr fun funding ↦ (hmem funding).symm
  rw [hfunded]
  dsimp only
  split
  case isTrue h =>
    have hchange : ∀ (s : Finset CTxDestination) (txout : CTxOut) (y : CTxDestination),
        (y ∈ if isChange env mapAddressBook txout then
          match env.extractDestination txout.scriptPubKey with
          | none => s
          | some txoutAddr => insert txoutAddr s
        else s) ↔ y ∈ s ∨ (isChange env mapAddressBook txout = true ∧
          env.extractDestination txout.scriptPubKey = some y) := by
      intro s txout y
      cases env.extractDestination txout.scriptPubKey with
      | none => simp
      | some txoutAddr =>
          split
          case isTrue hc => simp [hc, or_comm, eq_comm]
          case isFalse hc => simp [hc]
    rw [groupChange, mem_foldl_iff hchange, and_iff_right h, ChangeTo]
  case isFalse h => exact (or_iff_left fun h' ↦ h h'.1).symm

theorem mem_groupLone {vout : List CTxOut} {groupings : Finset (Finset CTxDestination)} :
    g ∈ groupLone env vout groupings ↔ g ∈ groupings ∨ ∃ txout ∈ vout,
      env.isMine txout.scriptPubKey = true ∧
        ∃ address, env.extractDestination txout.scriptPubKey = some address ∧ g = {address} := by
  have hround : ∀ (s : Finset (Finset CTxDestination)) (txout : CTxOut)
      (y : Finset CTxDestination),
      (y ∈ if env.isMine txout.scriptPubKey then
        match env.extractDestination txout.scriptPubKey with
        | none => s
        | some address => insert {address} s
      else s) ↔ y ∈ s ∨ (env.isMine txout.scriptPubKey = true ∧
        ∃ address, env.extractDestination txout.scriptPubKey = some address ∧ y = {address}) := by
    intro s txout y
    cases env.extractDestination txout.scriptPubKey with
    | none => simp
    | some address =>
        split
        case isTrue h => simp [h, or_comm]
        case isFalse h => simp [h]
  rw [groupLone, mem_foldl_iff hround]

theorem mem_txGroupings : g ∈ w.txGroupings env mapAddressBook ↔
    ∃ hash wtx, w.mapWallet.lookup hash = some wtx ∧
      (g = w.txGrouping env mapAddressBook wtx.tx ∧ g.Nonempty ∨ ∃ txout ∈ wtx.tx.vout,
        env.isMine txout.scriptPubKey = true ∧
          ∃ address, env.extractDestination txout.scriptPubKey = some address ∧ g = {address}) := by
  have hround : ∀ (s : Finset (Finset CTxDestination)) (walletEntry : Uint256 × CWalletTx)
      (y : Finset CTxDestination),
      (y ∈ groupLone env walletEntry.2.tx.vout
        (if 0 < (w.txGrouping env mapAddressBook walletEntry.2.tx).card then
          insert (w.txGrouping env mapAddressBook walletEntry.2.tx) s else s)) ↔
      y ∈ s ∨ (y = w.txGrouping env mapAddressBook walletEntry.2.tx ∧ y.Nonempty ∨
        ∃ txout ∈ walletEntry.2.tx.vout, env.isMine txout.scriptPubKey = true ∧
          ∃ address, env.extractDestination txout.scriptPubKey = some address ∧
            y = {address}) := by
    intro s walletEntry y
    rw [mem_groupLone, ← or_assoc]
    refine or_congr_left ?_
    split
    case isTrue h =>
      rw [Finset.mem_insert, or_comm]
      exact or_congr_right ⟨fun heq ↦ ⟨heq, heq ▸ Finset.card_pos.mp h⟩, fun h ↦ h.1⟩
    case isFalse h =>
      refine (or_iff_left ?_).symm
      rintro ⟨rfl, hne⟩
      exact h (Finset.card_pos.mpr hne)
  rw [txGroupings, mem_foldl_iff hround]
  simp only [Finset.notMem_empty, false_or, Prod.exists, mem_items]

end CWallet

namespace MergedGroupings

open Joining

variable {alloc : Allocator} {s s' : MergedGroupings} {R : CTxDestination → CTxDestination → Prop}
  {a b : CTxDestination} {p merged : Nat} {grouping : List CTxDestination}

/-- The sets that live are the classes of `R`, and `setmap` leads to them. -/
structure Inv (s : MergedGroupings) (R : CTxDestination → CTxDestination → Prop) : Prop where
  unique : ∀ p, p ∈ s.uniqueGroupings ↔ ∃ g, s.heap.lookup p = some g
  setmap : ∀ a p, s.setmap.lookup a = some p ↔ ∃ g, s.heap.lookup p = some g ∧ a ∈ g
  nonempty : ∀ p g, s.heap.lookup p = some g → g.Nonempty
  rel : ∀ a b, R a b ↔ ∃ p g, s.heap.lookup p = some g ∧ a ∈ g ∧ b ∈ g

theorem inv_empty : Inv {} fun _ _ ↦ False where
  unique p := by simp
  setmap a p := by simp
  nonempty p g h := absurd h (by simp)
  rel a b := by simp

theorem mem_hits : p ∈ s.hits grouping ↔ ∃ a ∈ grouping, s.setmap.lookup a = some p := by
  rw [hits, List.mem_toFinset, List.mem_filterMap]

/-- All hits are merged, and deleted. -/
theorem foldlM_mergeHit {hits : List Nat} {elements : Finset CTxDestination}
    (hnodup : hits.Nodup) (hmerged : merged ∉ hits)
    (hlive : ∀ hit ∈ hits, ∃ g, s.heap.lookup hit = some g)
    (helements : s.heap.lookup merged = some elements) :
    ∃ s' elements', hits.foldlM (mergeHit merged) s = .ok s' ∧ s'.setmap = s.setmap ∧
      (∀ p, p ∈ s'.uniqueGroupings ↔ p ∈ s.uniqueGroupings ∧ p ∉ hits) ∧
      s'.heap.lookup merged = some elements' ∧
      (∀ a, a ∈ elements' ↔
        a ∈ elements ∨ ∃ hit ∈ hits, ∃ g, s.heap.lookup hit = some g ∧ a ∈ g) ∧
      ∀ p ≠ merged, s'.heap.lookup p = if p ∈ hits then none else s.heap.lookup p := by
  induction hits generalizing s elements with
  | nil => exact ⟨s, elements, rfl, rfl, fun p ↦ by simp, helements, fun a ↦ by simp, by simp⟩
  | cons hit hits ih =>
      obtain ⟨hnot, hnodup⟩ := List.nodup_cons.mp hnodup
      rw [List.mem_cons, not_or] at hmerged
      obtain ⟨g, hg⟩ := hlive hit List.mem_cons_self
      have hlookup : ∀ p ≠ hit, p ≠ merged →
          ((s.heap.insert merged (elements ∪ g)).erase hit).lookup p = s.heap.lookup p := by
        intro p hp hm
        rw [Finmap.lookup_erase_ne hp, Finmap.lookup_insert_of_ne _ hm]
      obtain ⟨s', elements', hrun, hsetmap, hunique, hs', hmem, hrest⟩ := @ih
        { s with
          heap := (s.heap.insert merged (elements ∪ g)).erase hit
          uniqueGroupings := s.uniqueGroupings.erase hit } (elements ∪ g) hnodup hmerged.2
        (fun hit' h' ↦ by
          have hne : hit' ≠ hit := fun heq ↦ hnot (heq ▸ h')
          have hm : hit' ≠ merged := fun heq ↦ hmerged.2 (heq ▸ h')
          rw [hlookup hit' hne hm]
          exact hlive hit' (List.mem_cons_of_mem _ h'))
        (by rw [Finmap.lookup_erase_ne hmerged.1, Finmap.lookup_insert])
      refine ⟨s', elements', ?_, hsetmap, fun p ↦ ?_, hs', fun a ↦ ?_, fun p hp ↦ ?_⟩
      · rw [List.foldlM_cons, mergeHit, helements, hg]
        exact hrun
      · rw [hunique, Finset.mem_erase, List.mem_cons, not_or]
        tauto
      · rw [hmem, Finset.mem_union, or_assoc]
        refine or_congr_right ?_
        simp only [List.mem_cons, exists_eq_or_imp, hg, Option.some.injEq, exists_eq_left']
        refine or_congr_right ?_
        constructor
        · rintro ⟨hit', h', g', hg', ha⟩
          have hne : hit' ≠ hit := fun heq ↦ hnot (heq ▸ h')
          have hm : hit' ≠ merged := fun heq ↦ hmerged.2 (heq ▸ h')
          exact ⟨hit', h', g', by rwa [hlookup hit' hne hm] at hg', ha⟩
        · rintro ⟨hit', h', g', hg', ha⟩
          have hne : hit' ≠ hit := fun heq ↦ hnot (heq ▸ h')
          have hm : hit' ≠ merged := fun heq ↦ hmerged.2 (heq ▸ h')
          exact ⟨hit', h', g', by rwa [hlookup hit' hne hm], ha⟩
      · rw [hrest p hp]
        by_cases hph : p = hit
        · rw [hph, if_neg hnot, Finmap.lookup_erase, if_pos List.mem_cons_self]
        · rw [hlookup p hph hp]
          simp only [List.mem_cons, hph, false_or]

theorem lookup_foldl_insert {l : List CTxDestination}
    {setmap : Finmap fun _ : CTxDestination ↦ Nat} :
    (l.foldl (fun setmap element ↦ setmap.insert element merged) setmap).lookup a =
      if a ∈ l then some merged else setmap.lookup a := by
  induction l generalizing setmap with
  | nil => rfl
  | cons element l ih =>
      rw [List.foldl_cons, ih]
      by_cases ha : a = element
      · rw [ha, Finmap.lookup_insert, ite_self, if_pos List.mem_cons_self]
      · rw [Finmap.lookup_insert_of_ne _ ha]
        simp only [List.mem_cons, ha, false_or]

/-- A hit is a class that meets the group. -/
theorem Inv.mem_hits_iff (h : s.Inv R) :
    p ∈ s.hits grouping ↔ ∃ c ∈ grouping, ∃ g, s.heap.lookup p = some g ∧ c ∈ g := by
  rw [mem_hits]
  exact exists_congr fun c ↦ and_congr_right fun _ ↦ h.setmap c p

/-- A class meets the group if one of its elements touches it. -/
theorem Inv.touches_iff_mem_hits (h : s.Inv R) {g : Finset CTxDestination}
    (hg : s.heap.lookup p = some g) (ha : a ∈ g) :
    Touches R {a | a ∈ grouping} a ↔ p ∈ s.hits grouping := by
  rw [h.mem_hits_iff]
  constructor
  · rintro (hgroup | ⟨c, hc, hac⟩)
    · exact ⟨a, hgroup, g, hg, ha⟩
    · obtain ⟨q, g', hg', haq, hcq⟩ := (h.rel a c).mp hac
      have hpq : p = q := Option.some.inj
        (((h.setmap a p).mpr ⟨g, hg, ha⟩).symm.trans ((h.setmap a q).mpr ⟨g', hg', haq⟩))
      exact ⟨c, hc, g', hpq ▸ hg', hcq⟩
  · rintro ⟨c, hc, g', hg', hcg⟩
    rw [hg] at hg'
    obtain rfl := Option.some.inj hg'
    exact Or.inr ⟨c, hc, (h.rel a c).mpr ⟨p, g, hg, ha, hcg⟩⟩

/-- The hits are merged into a new set, of what touches the group. -/
theorem Inv.merge_hits (h : s.Inv R) (hnew : s.heap.lookup merged = none) :
    ∃ s' elements, ((s.hits grouping).sort (· ≤ ·)).foldlM (mergeHit merged)
        { s with heap := s.heap.insert merged grouping.toFinset } = .ok s' ∧
      s'.setmap = s.setmap ∧
      (∀ p, p ∈ s'.uniqueGroupings ↔ p ∈ s.uniqueGroupings ∧ p ∉ s.hits grouping) ∧
      (∀ a, a ∈ elements ↔ Touches R {a | a ∈ grouping} a) ∧
      ∀ p g, s'.heap.lookup p = some g ↔
        p = merged ∧ g = elements ∨ s.heap.lookup p = some g ∧ p ∉ s.hits grouping := by
  have hold : ∀ {p g}, s.heap.lookup p = some g → p ≠ merged := by
    rintro p g hg rfl
    rw [hnew] at hg
    exact absurd hg nofun
  have hlive : ∀ {p}, p ∈ (s.hits grouping).sort (· ≤ ·) → ∃ g, s.heap.lookup p = some g := by
    intro p hp
    obtain ⟨c, -, g, hg, -⟩ := h.mem_hits_iff.mp ((Finset.mem_sort _).mp hp)
    exact ⟨g, hg⟩
  obtain ⟨s', elements, hrun, hsetmap, hunique, hs', hmem, hrest⟩ :=
    @foldlM_mergeHit { s with heap := s.heap.insert merged grouping.toFinset } merged
      ((s.hits grouping).sort (· ≤ ·)) grouping.toFinset (Finset.sort_nodup _ _)
      (fun hin ↦ by
        obtain ⟨g, hg⟩ := hlive hin
        exact hold hg rfl)
      (fun hit hin ↦ by
        obtain ⟨g, hg⟩ := hlive hin
        exact ⟨g, by rw [Finmap.lookup_insert_of_ne _ (hold hg), hg]⟩)
      (Finmap.lookup_insert _)
  simp only [Finset.mem_sort] at hunique hmem hrest
  refine ⟨s', elements, hrun, hsetmap, hunique, fun a ↦ ?_, fun p g ↦ ?_⟩
  · rw [hmem, List.mem_toFinset]
    constructor
    · rintro (hgroup | ⟨hit, hin, g, hg, ha⟩)
      · exact Or.inl hgroup
      · obtain ⟨c, hc, g', hg', hcg⟩ := h.mem_hits_iff.mp hin
        rw [Finmap.lookup_insert_of_ne _ (hold hg')] at hg
        exact (h.touches_iff_mem_hits hg ha).mpr hin
    · rintro (hgroup | ⟨c, hc, hac⟩)
      · exact Or.inl hgroup
      · obtain ⟨p, g, hg, ha, hcg⟩ := (h.rel a c).mp hac
        exact Or.inr ⟨p, h.mem_hits_iff.mpr ⟨c, hc, g, hg, hcg⟩, g,
          by rw [Finmap.lookup_insert_of_ne _ (hold hg), hg], ha⟩
  · by_cases hp : p = merged
    · rw [hp, hs', hnew, Option.some.injEq]
      simp only [true_and, reduceCtorEq, false_and, or_false, eq_comm]
    · rw [hrest p hp, Finmap.lookup_insert_of_ne _ hp]
      simp only [hp, false_and, false_or]
      split
      case isTrue hin => simp [hin]
      case isFalse hin => simp [hin]

/-- **An iteration joins the classes that the group meets.** -/
theorem mergeGrouping_spec (alloc : Allocator) (h : s.Inv R) (hne : grouping ≠ []) :
    ∃ s', mergeGrouping alloc s grouping = .ok s' ∧ s'.Inv (join R {a | a ∈ grouping}) := by
  have hnew : s.heap.lookup (alloc.new s.heap.keys) = none := by
    rw [Finmap.lookup_eq_none, ← Finmap.mem_keys]
    exact alloc.new_notMem _
  generalize hmerged : alloc.new s.heap.keys = merged at hnew
  obtain ⟨s', elements, hrun, hsetmap, hunique, htouch, hheap⟩ :=
    h.merge_hits hnew
  have hs' : s'.heap.lookup merged = some elements := (hheap _ _).mpr (Or.inl ⟨rfl, rfl⟩)
  refine ⟨{ s' with
    uniqueGroupings := insert merged s'.uniqueGroupings
    setmap := (elements.sort (· ≤ ·)).foldl (fun setmap element ↦ setmap.insert element merged)
      s'.setmap }, ?_, ?_⟩
  · rw [mergeGrouping, hmerged, hrun]
    change (match s'.heap.lookup merged with | none => _ | some elements => _) = _
    rw [hs']
    rfl
  · constructor
    case unique =>
      intro p
      dsimp only
      rw [Finset.mem_insert, hunique]
      simp only [hheap, exists_or, exists_and_left, exists_eq, and_true, exists_and_right]
      exact or_congr_right (and_congr_left' (h.unique p))
    case setmap =>
      intro a p
      dsimp only
      rw [lookup_foldl_insert, hsetmap]
      split
      case isTrue hsorted =>
        have ha := (Finset.mem_sort _).mp hsorted
        rw [Option.some.injEq]
        constructor
        · rintro rfl
          exact ⟨elements, hs', ha⟩
        · rintro ⟨g, hg, hag⟩
          rcases (hheap p g).mp hg with ⟨hp, -⟩ | ⟨hg, hnot⟩
          · exact hp.symm
          · exact absurd ((h.touches_iff_mem_hits hg hag).mp ((htouch a).mp ha)) hnot
      case isFalse hsorted =>
        have ha := fun ha ↦ hsorted ((Finset.mem_sort _).mpr ha)
        rw [h.setmap]
        refine exists_congr fun g ↦ and_congr_left fun hag ↦ ?_
        rw [hheap]
        constructor
        · exact fun hg ↦ Or.inr ⟨hg, fun hin ↦
            ha ((htouch a).mpr ((h.touches_iff_mem_hits hg hag).mpr hin))⟩
        · rintro (⟨-, rfl⟩ | ⟨hg, -⟩)
          · exact absurd hag ha
          · exact hg
    case nonempty =>
      intro p g hg
      rcases (hheap p g).mp hg with ⟨-, rfl⟩ | ⟨hg, -⟩
      · obtain ⟨a, ha⟩ := List.exists_mem_of_ne_nil _ hne
        exact ⟨a, (htouch a).mpr (Or.inl ha)⟩
      · exact h.nonempty p g hg
    case rel =>
      intro a b
      constructor
      · rintro (hab | ⟨ha, hb⟩)
        · obtain ⟨p, g, hg, ha, hb⟩ := (h.rel a b).mp hab
          by_cases hin : p ∈ s.hits grouping
          · exact ⟨merged, elements, hs',
              (htouch a).mpr ((h.touches_iff_mem_hits hg ha).mpr hin),
              (htouch b).mpr ((h.touches_iff_mem_hits hg hb).mpr hin)⟩
          · exact ⟨p, g, (hheap p g).mpr (Or.inr ⟨hg, hin⟩), ha, hb⟩
        · exact ⟨merged, elements, hs', (htouch a).mpr ha, (htouch b).mpr hb⟩
      · rintro ⟨p, g, hg, ha, hb⟩
        rcases (hheap p g).mp hg with ⟨-, rfl⟩ | ⟨hg, -⟩
        · exact Or.inr ⟨(htouch a).mp ha, (htouch b).mp hb⟩
        · exact Or.inl ((h.rel a b).mpr ⟨p, g, hg, ha, hb⟩)

theorem inv_congr (h : s.Inv R) {R' : CTxDestination → CTxDestination → Prop}
    (hR : ∀ a b, R a b ↔ R' a b) : s.Inv R' :=
  ⟨h.unique, h.setmap, h.nonempty, fun a b ↦ (hR a b).symm.trans (h.rel a b)⟩

/-- **The second loop makes one set of the groups that a chain of groups connects.** -/
theorem foldlM_mergeGrouping (alloc : Allocator) {groupings : List (List CTxDestination)}
    {G : Set (Set CTxDestination)} (h : s.Inv (Relation.TransGen (Linked G)))
    (hne : ∀ grouping ∈ groupings, grouping ≠ []) :
    ∃ s', groupings.foldlM (mergeGrouping alloc) s = .ok s' ∧
      s'.Inv (Relation.TransGen (Linked (G ∪ {g | ∃ l ∈ groupings, g = {a | a ∈ l}}))) := by
  induction groupings generalizing s G with
  | nil =>
      refine ⟨s, rfl, ?_⟩
      simpa using h
  | cons grouping groupings ih =>
      obtain ⟨s', hrun, hs'⟩ := mergeGrouping_spec alloc h (hne grouping List.mem_cons_self)
      obtain ⟨s'', hrun', hs''⟩ := ih (inv_congr hs' fun a b ↦ transGen_linked_insert.symm)
        fun l hl ↦ hne l (List.mem_cons_of_mem _ hl)
      refine ⟨s'', ?_, ?_⟩
      · rw [List.foldlM_cons, hrun]
        exact hrun'
      · have hG : insert {a | a ∈ grouping} G ∪ {g | ∃ l ∈ groupings, g = {a | a ∈ l}} =
            G ∪ {g | ∃ l ∈ grouping :: groupings, g = {a | a ∈ l}} := by
          ext g
          simp only [Set.mem_union, Set.mem_insert_iff, Set.mem_ofPred_eq, List.mem_cons,
            exists_eq_or_imp]
          tauto
        rwa [hG] at hs''

theorem foldlM_copyGrouping {ps : List Nat} {ret : Finset (Finset CTxDestination)}
    {heap : Finmap fun _ : Nat ↦ Finset CTxDestination} (hnodup : ps.Nodup)
    (hlive : ∀ p ∈ ps, ∃ g, heap.lookup p = some g) :
    ∃ r, ps.foldlM copyGrouping (ret, heap) = .ok r ∧
      ∀ g, g ∈ r.1 ↔ g ∈ ret ∨ ∃ p ∈ ps, heap.lookup p = some g := by
  induction ps generalizing ret heap with
  | nil => exact ⟨(ret, heap), rfl, fun g ↦ by simp⟩
  | cons p ps ih =>
      obtain ⟨hnot, hnodup⟩ := List.nodup_cons.mp hnodup
      obtain ⟨elements, helements⟩ := hlive p List.mem_cons_self
      have hlookup : ∀ q ∈ ps, (heap.erase p).lookup q = heap.lookup q := fun q hq ↦
        Finmap.lookup_erase_ne fun heq ↦ hnot (heq ▸ hq)
      obtain ⟨r, hrun, hmem⟩ := @ih (insert elements ret) (heap.erase p) hnodup
        fun q hq ↦ hlookup q hq ▸ hlive q (List.mem_cons_of_mem _ hq)
      refine ⟨r, ?_, fun g ↦ ?_⟩
      · rw [List.foldlM_cons, copyGrouping, helements]
        exact hrun
      · rw [hmem, Finset.mem_insert, or_comm (a := g = elements), or_assoc]
        refine or_congr_right ?_
        simp only [List.mem_cons, exists_eq_or_imp, helements, Option.some.injEq,
          eq_comm (a := g)]
        refine or_congr_right (exists_congr fun q ↦ and_congr_right fun hq ↦ ?_)
        rw [hlookup q hq]

/-- The last loop copies every set. -/
theorem collect_spec (h : s.Inv R) :
    ∃ ret, s.collect = .ok ret ∧ ∀ g, g ∈ ret ↔ ∃ p, s.heap.lookup p = some g := by
  obtain ⟨r, hrun, hmem⟩ := @foldlM_copyGrouping (s.uniqueGroupings.sort (· ≤ ·)) ∅ s.heap
    (Finset.sort_nodup _ _) fun p hp ↦ (h.unique p).mp ((Finset.mem_sort _).mp hp)
  refine ⟨r.1, ?_, fun g ↦ ?_⟩
  · rw [collect, hrun]
    rfl
  · rw [hmem]
    simp only [Finset.notMem_empty, false_or, Finset.mem_sort]
    exact exists_congr fun p ↦ and_iff_right_of_imp fun hp ↦ (h.unique p).mpr ⟨g, hp⟩

end MergedGroupings

/-! ## The result -/

namespace CWallet

open Joining

variable (env : AddressEnv) (mapAddressBook : Finset CTxDestination) (w : CWallet)

/-- The groups that the first loop has found, as sets. -/
theorem linked_txGroupings {a b : CTxDestination} :
    Linked {g | ∃ l ∈ sortedSets (w.txGroupings env mapAddressBook), g = {a | a ∈ l}} a b ↔
      w.SameTx env mapAddressBook a b ∨ a = b ∧ w.Owns env a := by
  have hlinked : Linked {g | ∃ l ∈ sortedSets (w.txGroupings env mapAddressBook),
      g = {a | a ∈ l}} a b ↔ ∃ g ∈ w.txGroupings env mapAddressBook, a ∈ g ∧ b ∈ g := by
    constructor
    · rintro ⟨_, ⟨l, hl, rfl⟩, ha, hb⟩
      obtain ⟨g, hg, rfl⟩ := mem_sortedSets.mp hl
      exact ⟨g, hg, (Finset.mem_sort _).mp ha, (Finset.mem_sort _).mp hb⟩
    · rintro ⟨g, hg, ha, hb⟩
      exact ⟨_, ⟨_, mem_sortedSets.mpr ⟨g, hg, rfl⟩, rfl⟩, (Finset.mem_sort _).mpr ha,
        (Finset.mem_sort _).mpr hb⟩
  rw [hlinked]
  constructor
  · rintro ⟨g, hg, ha, hb⟩
    obtain ⟨hash, wtx, hwtx, ⟨rfl, -⟩ | ⟨txout, hout, hmine, address, haddress, rfl⟩⟩ :=
      mem_txGroupings.mp hg
    · exact Or.inl ⟨hash, wtx, hwtx, mem_txGrouping.mp ha, mem_txGrouping.mp hb⟩
    · obtain rfl := Finset.mem_singleton.mp ha
      obtain rfl := Finset.mem_singleton.mp hb
      exact Or.inr ⟨rfl, hash, wtx, hwtx, txout, hout, hmine, haddress⟩
  · rintro (⟨hash, wtx, hwtx, ha, hb⟩ | ⟨rfl, hash, wtx, hwtx, txout, hout, hmine, haddress⟩)
    · have ha' := mem_txGrouping.mpr ha
      exact ⟨_, mem_txGroupings.mpr ⟨hash, wtx, hwtx, Or.inl ⟨rfl, a, ha'⟩⟩, ha',
        mem_txGrouping.mpr hb⟩
    · have hlone : ({a} : Finset CTxDestination) ∈ w.txGroupings env mapAddressBook :=
        mem_txGroupings.mpr
          ⟨hash, wtx, hwtx, Or.inr ⟨txout, hout, hmine, a, haddress, rfl⟩⟩
      exact ⟨{a}, hlone, Finset.mem_singleton_self a, Finset.mem_singleton_self a⟩

/-- The addresses that the function is to return: the wallet's own, and those in the group of a
transaction. -/
def Listed (a : CTxDestination) : Prop :=
  w.Owns env a ∨ ∃ hash wtx, w.mapWallet.lookup hash = some wtx ∧
    w.InGroup env mapAddressBook wtx.tx a

/-- A chain of groups is a chain of transactions, from an address that is listed. -/
theorem transGen_linked_txGroupings {a b : CTxDestination} :
    Relation.TransGen
        (Linked {g | ∃ l ∈ sortedSets (w.txGroupings env mapAddressBook), g = {a | a ∈ l}}) a b ↔
      w.Listed env mapAddressBook a ∧ Relation.ReflTransGen (w.SameTx env mapAddressBook) a b := by
  constructor
  · intro h
    induction h with
    | single h =>
        rcases w.linked_txGroupings env mapAddressBook |>.mp h with hsame | ⟨rfl, howns⟩
        · refine ⟨?_, .single hsame⟩
          obtain ⟨hash, wtx, hwtx, ha, -⟩ := hsame
          exact Or.inr ⟨hash, wtx, hwtx, ha⟩
        · exact ⟨Or.inl howns, .refl⟩
    | tail _ h ih =>
        rcases w.linked_txGroupings env mapAddressBook |>.mp h with hsame | ⟨rfl, -⟩
        · exact ⟨ih.1, ih.2.tail hsame⟩
        · exact ih
  · rintro ⟨hlisted, hchain⟩
    -- a listed address is linked to itself
    have hself : Linked {g | ∃ l ∈ sortedSets (w.txGroupings env mapAddressBook),
        g = {a | a ∈ l}} a a := by
      rw [linked_txGroupings]
      rcases hlisted with howns | ⟨hash, wtx, hwtx, ha⟩
      · exact Or.inr ⟨rfl, howns⟩
      · exact Or.inl ⟨hash, wtx, hwtx, ha, ha⟩
    induction hchain with
    | refl => exact .single hself
    | tail _ h ih => exact ih.tail ((w.linked_txGroupings env mapAddressBook).mpr (Or.inl h))

/-- **`GetAddressGroupings` returns a partition**, of the addresses that are listed, into what
chains of transactions connect. -/
theorem getAddressGroupings_partition (alloc : Allocator) :
    ∃ ret, w.getAddressGroupings env mapAddressBook alloc = .ok ret ∧
      (∀ g ∈ ret, g.Nonempty) ∧
      (∀ g ∈ ret, ∀ g' ∈ ret, g ≠ g' → Disjoint g g') ∧
      (∀ a, (∃ g ∈ ret, a ∈ g) ↔ w.Listed env mapAddressBook a) ∧
      ∀ a b, (∃ g ∈ ret, a ∈ g ∧ b ∈ g) ↔
        w.Listed env mapAddressBook a ∧
          Relation.ReflTransGen (w.SameTx env mapAddressBook) a b := by
  have hempty :
      MergedGroupings.Inv {} (Relation.TransGen (Linked (∅ : Set (Set CTxDestination)))) :=
    MergedGroupings.inv_congr MergedGroupings.inv_empty fun a b ↦
      iff_of_false id not_linked_empty
  have hne : ∀ grouping ∈ sortedSets (w.txGroupings env mapAddressBook), grouping ≠ [] := by
    rintro _ hgrouping rfl
    obtain ⟨g, hg, hsort⟩ := mem_sortedSets.mp hgrouping
    have hg : g.Nonempty := by
      obtain ⟨hash, wtx, -, ⟨-, hg⟩ | ⟨txout, -, -, address, -, rfl⟩⟩ := mem_txGroupings.mp hg
      · exact hg
      · exact Finset.singleton_nonempty address
    obtain ⟨a, ha⟩ := hg
    have ha := (Finset.mem_sort (· ≤ ·)).mpr ha
    rw [hsort] at ha
    exact List.not_mem_nil ha
  obtain ⟨s, hrun, hs⟩ := MergedGroupings.foldlM_mergeGrouping alloc hempty hne
  rw [Set.empty_union] at hs
  obtain ⟨ret, hret, hmem⟩ := MergedGroupings.collect_spec hs
  have hsame : ∀ a b, (∃ g ∈ ret, a ∈ g ∧ b ∈ g) ↔ w.Listed env mapAddressBook a ∧
      Relation.ReflTransGen (w.SameTx env mapAddressBook) a b := by
    intro a b
    rw [← transGen_linked_txGroupings, hs.rel]
    simp only [hmem]
    tauto
  refine ⟨ret, ?_, fun g hg ↦ ?_, fun g hg g' hg' hgg' ↦ ?_, fun a ↦ ?_, hsame⟩
  · rw [getAddressGroupings, hrun]
    exact hret
  · obtain ⟨p, hp⟩ := (hmem g).mp hg
    exact hs.nonempty p g hp
  · rw [Finset.disjoint_left]
    intro a ha ha'
    obtain ⟨p, hp⟩ := (hmem g).mp hg
    obtain ⟨p', hp'⟩ := (hmem g').mp hg'
    -- `setmap` has one set for an address
    have hpp' : p = p' := Option.some.inj
      (((hs.setmap a p).mpr ⟨g, hp, ha⟩).symm.trans ((hs.setmap a p').mpr ⟨g', hp', ha'⟩))
    rw [hpp', hp'] at hp
    exact hgg' (Option.some.inj hp).symm
  · have haa := hsame a a
    rw [and_iff_left Relation.ReflTransGen.refl] at haa
    rw [← haa]
    exact exists_congr fun g ↦ and_congr_right fun _ ↦ (and_self_iff).symm

end CWallet

end Fedoracoin
