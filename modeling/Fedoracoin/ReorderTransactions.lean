import Fedoracoin.AccountingEntry
import Fedoracoin.Lib.Multimap
import Mathlib.Data.Int.Interval

/-!
# The order of the wallet's transactions

`CWalletDB::ReorderTransactions`.  It runs over what has no position yet and what has one, by time,
and moves up an item that has a position by the number of places that it has given at or below that
position.

`KeepsOrder` is what the function is for, and `keepsOrder_iff` says when that comes about.
-/

namespace Fedoracoin

/-- What is read and written of a `CWalletTx`. -/
structure OrderedTx where
  hash : Uint256
  nTimeReceived : UInt32
  nOrderPos : Int64

inductive TxPair where
  | pwtx (wtx : OrderedTx)
  | pacentry (entry : CAccountingEntry)

namespace TxPair

def nOrderPos : TxPair → Int64
  | pwtx wtx => wtx.nOrderPos
  | pacentry entry => entry.nOrderPos

/-- The key in `txByTime`. -/
def nTime : TxPair → Int
  | pwtx wtx => wtx.nTimeReceived.toNat
  | pacentry entry => entry.nTime.toInt

def isEntry : TxPair → Bool
  | pwtx _ => false
  | pacentry _ => true

end TxPair

/-- The transactions in the order of `mapWallet`, and the `acentry` records in the order of the
database, where those of the account `""` come first. -/
structure WalletOrder where
  mapWallet : List OrderedTx
  acentries : List CAccountingEntry

namespace WalletOrder

variable (w : WalletOrder)

/-- `ListAccountCreditDebit("", acentries)`, which stops at the first record of another account. -/
def listed : List CAccountingEntry := w.acentries.takeWhile (·.strAccount = [])

/-- The records that it does not come to. -/
def others : List CAccountingEntry := w.acentries.dropWhile (·.strAccount = [])

def txByTime : Multimap Int TxPair :=
  .ofList ((w.mapWallet.map TxPair.pwtx ++ w.listed.map TxPair.pacentry).map
    fun item ↦ (item.nTime, item))

/-- What the loop runs over. -/
def items : List TxPair := w.txByTime.entries.map Prod.snd

/-- All wallet transactions and accounting entries. -/
def all : List TxPair := w.mapWallet.map TxPair.pwtx ++ w.acentries.map TxPair.pacentry

end WalletOrder

/-! ## The loop -/

/-- The variables, and the items with the positions that they have got. -/
structure ReorderState where
  nOrderPosNext : Int64 := 0
  nOrderPosOffsets : List Int64 := []
  placed : List (TxPair × Int64) := []

namespace ReorderState

/-- `nOrderPosOff`. -/
def nOrderPosOff (s : ReorderState) (nOrderPos : Int64) : Nat :=
  s.nOrderPosOffsets.countP fun nOffsetStart ↦ nOffsetStart ≤ nOrderPos

/-- An iteration; `none` is `DB_LOAD_FAIL`, and `write` says which items are written. -/
def reorderOne (write : TxPair → Int64 → Bool) (s : ReorderState) (item : TxPair) :
    Option ReorderState :=
  if item.nOrderPos = -1 then
    let nOrderPos := s.nOrderPosNext
    -- Have to write accounting regardless, since we don't keep it in memory
    if item.isEntry && !write item nOrderPos then none
    else some {
      nOrderPosNext := s.nOrderPosNext + 1
      nOrderPosOffsets := s.nOrderPosOffsets ++ [nOrderPos]
      placed := s.placed ++ [(item, nOrderPos)] }
  else
    let nOrderPosOff := s.nOrderPosOff item.nOrderPos
    let nOrderPos := item.nOrderPos + Int64.ofNat nOrderPosOff
    -- Since we're changing the order, write it back
    if nOrderPosOff ≠ 0 && !write item nOrderPos then none
    else some { s with
      nOrderPosNext := if s.nOrderPosNext < nOrderPos + 1 then nOrderPos + 1 else s.nOrderPosNext
      placed := s.placed ++ [(item, nOrderPos)] }

end ReorderState

open ReorderState

/-- The items with their positions, and `nOrderPosNext`. -/
def WalletOrder.reorderTransactions (write : TxPair → Int64 → Bool) (w : WalletOrder) :
    Option (List (TxPair × Int64) × Int64) := do
  let s ← w.items.foldlM (reorderOne write) {}
  return (s.placed ++ w.others.map fun entry ↦ (.pacentry entry, entry.nOrderPos), s.nOrderPosNext)

/-! ## What it is for -/

/-- A strict order of all items that keeps the one there was, with new items by time. -/
structure StrictOrder (placed : List (TxPair × Int64)) (nOrderPosNext : Int64) : Prop where
  distinct : (placed.map Prod.snd).Nodup
  nonneg : ∀ e ∈ placed, 0 ≤ e.2
  ordered : ∀ e ∈ placed, ∀ e' ∈ placed,
    0 ≤ e.1.nOrderPos → e.1.nOrderPos < e'.1.nOrderPos → e.2 < e'.2
  unordered : ∀ e ∈ placed, ∀ e' ∈ placed,
    e.1.nOrderPos = -1 → e'.1.nOrderPos = -1 → e.1.nTime < e'.1.nTime → e.2 < e'.2
  next : ∀ e ∈ placed, e.2 < nOrderPosNext

/-- The function succeeds, and leaves a strict order. -/
def WalletOrder.KeepsOrder (write : TxPair → Int64 → Bool) (w : WalletOrder) : Prop :=
  ∃ placed nOrderPosNext, w.reorderTransactions write = some (placed, nOrderPosNext) ∧
    StrictOrder placed nOrderPosNext

/-- The loop comes to the item in the state `s`. -/
def WalletOrder.Reaches (write : TxPair → Int64 → Bool) (w : WalletOrder) (s : ReorderState)
    (item : TxPair) : Prop :=
  ∃ done rest, w.items = done ++ item :: rest ∧ done.foldlM (reorderOne write) {} = some s

/-- A place can be given to the item: no other one stands where the item goes, or is overtaken by
it, no number is out of range, and what is to be written can be. -/
def ReorderState.HasRoom (write : TxPair → Int64 → Bool) (others : List CAccountingEntry)
    (s : ReorderState) (item : TxPair) : Prop :=
  if item.nOrderPos = -1 then
    s.nOrderPosNext.toInt + 1 < 2 ^ 63 ∧
      (∀ entry ∈ others, entry.nOrderPos ≠ s.nOrderPosNext) ∧
      (item.isEntry = true → write item s.nOrderPosNext = true)
  else
    0 ≤ item.nOrderPos ∧
      item.nOrderPos.toInt + s.nOrderPosOff item.nOrderPos + 1 < 2 ^ 63 ∧
      -- no place that was given is just as far above the item as there are places up to it
      (∀ nOffsetStart ∈ s.nOrderPosOffsets,
        nOffsetStart.toInt ≠ item.nOrderPos.toInt + s.nOrderPosOff item.nOrderPos) ∧
      (∀ entry ∈ others, item.nOrderPos < entry.nOrderPos →
        item.nOrderPos.toInt + s.nOrderPosOff item.nOrderPos < entry.nOrderPos.toInt) ∧
      (s.nOrderPosOff item.nOrderPos ≠ 0 →
        write item (item.nOrderPos + Int64.ofNat (s.nOrderPosOff item.nOrderPos)) = true)

/-! ## What an iteration does -/

namespace ReorderState

variable {write : TxPair → Int64 → Bool} {others : List CAccountingEntry} {s s' : ReorderState}
  {item : TxPair} {nOrderPos : Int64}

theorem reorderOne_new (hnew : item.nOrderPos = -1) (h : reorderOne write s item = some s') :
    (item.isEntry = true → write item s.nOrderPosNext = true) ∧
    s' = { nOrderPosNext := s.nOrderPosNext + 1
           nOrderPosOffsets := s.nOrderPosOffsets ++ [s.nOrderPosNext]
           placed := s.placed ++ [(item, s.nOrderPosNext)] } := by
  rw [reorderOne, if_pos hnew] at h
  dsimp only at h
  split at h
  case isTrue => exact absurd h nofun
  case isFalse hw =>
    refine ⟨fun he ↦ ?_, (Option.some.inj h).symm⟩
    simpa [he] using hw

theorem reorderOne_old (hold : item.nOrderPos ≠ -1) (h : reorderOne write s item = some s') :
    (s.nOrderPosOff item.nOrderPos ≠ 0 →
      write item (item.nOrderPos + Int64.ofNat (s.nOrderPosOff item.nOrderPos)) = true) ∧
    s'.nOrderPosOffsets = s.nOrderPosOffsets ∧
    s'.placed =
      s.placed ++ [(item, item.nOrderPos + Int64.ofNat (s.nOrderPosOff item.nOrderPos))] := by
  rw [reorderOne, if_neg hold] at h
  dsimp only at h
  split at h
  case isTrue => exact absurd h nofun
  case isFalse hw =>
    obtain rfl := Option.some.inj h
    refine ⟨fun he ↦ ?_, rfl, rfl⟩
    simpa [he] using hw

/-- Without wrapping around. -/
theorem toInt_add_ofNat {n : Nat} (h₀ : 0 ≤ nOrderPos.toInt)
    (h : nOrderPos.toInt + n < 2 ^ 63) :
    (nOrderPos + Int64.ofNat n).toInt = nOrderPos.toInt + n := by
  rw [Int64.toInt_add, Int64.toInt_ofNat', Int64.size, Int.add_bmod_bmod]
  exact Int.bmod_eq_of_le (by omega) (by omega)

/-- A sum that comes out as a position did not wrap around. -/
theorem lt_of_nonneg_add {n : Nat} (h₀ : 0 ≤ nOrderPos.toInt) (hn : n ≤ nOrderPos.toInt + 1)
    (h : 0 ≤ (nOrderPos + Int64.ofNat n).toInt) : nOrderPos.toInt + n < 2 ^ 63 := by
  have hlt := nOrderPos.toInt_lt
  rw [Int64.toInt_add, Int64.toInt_ofNat', Int64.size, Int.add_bmod_bmod, Int.bmod_def] at h
  omega

/-- After iterations that all had room. -/
structure Inv (others : List CAccountingEntry) (s : ReorderState) : Prop where
  /-- The places that were given are the new items'. -/
  mem_offsets : ∀ nOffsetStart, nOffsetStart ∈ s.nOrderPosOffsets ↔
    ∃ e ∈ s.placed, e.1.nOrderPos = -1 ∧ e.2 = nOffsetStart
  offsets_nodup : s.nOrderPosOffsets.Nodup
  bounds : ∀ e ∈ s.placed, 0 ≤ e.2.toInt ∧ e.2.toInt < s.nOrderPosNext.toInt
  next_nonneg : 0 ≤ s.nOrderPosNext.toInt
  /-- An old item has moved by the places up to it. -/
  moved : ∀ e ∈ s.placed, e.1.nOrderPos ≠ -1 →
    0 ≤ e.1.nOrderPos ∧ e.2.toInt = e.1.nOrderPos.toInt + s.nOrderPosOff e.1.nOrderPos
  distinct : (s.placed.map Prod.snd).Nodup
  /-- New items stand in the order in which they came. -/
  inTurn : s.placed.Pairwise fun e e' ↦
    e.1.nOrderPos = -1 → e'.1.nOrderPos = -1 → e.2.toInt < e'.2.toInt
  apart : ∀ e ∈ s.placed, ∀ entry ∈ others, e.2 ≠ entry.nOrderPos ∧
    (e.1.nOrderPos ≠ -1 → e.1.nOrderPos < entry.nOrderPos → e.2 < entry.nOrderPos)
  /-- An entry that is above all old items is not passed. -/
  below : ∀ entry ∈ others, 0 ≤ entry.nOrderPos →
    (∀ e ∈ s.placed, e.1.nOrderPos < entry.nOrderPos) →
    s.nOrderPosNext.toInt ≤ entry.nOrderPos.toInt

theorem inv_empty : Inv others {} where
  mem_offsets nOffsetStart := by simp
  offsets_nodup := List.nodup_nil
  bounds e he := absurd he List.not_mem_nil
  next_nonneg := le_rfl
  moved e he := absurd he List.not_mem_nil
  distinct := List.nodup_nil
  inTurn := List.Pairwise.nil
  apart e he := absurd he List.not_mem_nil
  below entry _ h _ := by simpa using Int64.le_iff_toInt_le.mp h

/-- There are no more places up to a position than numbers. -/
theorem Inv.nOrderPosOff_le (h : s.Inv others) (h₀ : 0 ≤ nOrderPos.toInt) :
    (s.nOrderPosOff nOrderPos : Int) ≤ nOrderPos.toInt + 1 := by
  have hsub : ((s.nOrderPosOffsets.filter (· ≤ nOrderPos)).map Int64.toInt).toFinset ⊆
      Finset.Icc 0 nOrderPos.toInt := by
    intro n hn
    obtain ⟨o, ho, rfl⟩ := List.mem_map.mp (List.mem_toFinset.mp hn)
    obtain ⟨ho, hle⟩ := List.mem_filter.mp ho
    obtain ⟨e, he, -, rfl⟩ := (h.mem_offsets o).mp ho
    exact Finset.mem_Icc.mpr
      ⟨(h.bounds e he).1, Int64.le_iff_toInt_le.mp (of_decide_eq_true hle)⟩
  have hcard := Finset.card_le_card hsub
  rw [List.toFinset_card_of_nodup ((h.offsets_nodup.filter _).map fun _ _ ↦ Int64.toInt_inj.mp),
    List.length_map, ← List.countP_eq_length_filter, Int.card_Icc] at hcard
  rw [nOrderPosOff]
  omega

/-- Up to a position below all places there are none. -/
theorem Inv.nOrderPosOff_of_neg (h : s.Inv others) (hneg : nOrderPos.toInt < 0) :
    s.nOrderPosOff nOrderPos = 0 := by
  rw [nOrderPosOff, List.countP_eq_zero]
  intro o ho hle
  obtain ⟨e, he, -, rfl⟩ := (h.mem_offsets o).mp ho
  have hle := Int64.le_iff_toInt_le.mp (of_decide_eq_true hle)
  exact absurd (h.bounds e he).1 (by omega)

theorem nOrderPosOff_mono {p q : Int64} (h : p ≤ q) : s.nOrderPosOff p ≤ s.nOrderPosOff q := by
  refine List.countP_mono_left fun o _ ho ↦ decide_eq_true ?_
  exact Int64.le_trans (of_decide_eq_true ho) h

/-- An old item does not move down. -/
theorem Inv.le_place (h : s.Inv others) {e : TxPair × Int64} (he : e ∈ s.placed)
    (hold : e.1.nOrderPos ≠ -1) : e.1.nOrderPos ≤ e.2 := by
  rw [Int64.le_iff_toInt_le, (h.moved e he hold).2]
  omega

theorem Inv.place_ne_next (h : s.Inv others) {e : TxPair × Int64} (he : e ∈ s.placed) :
    e.2 ≠ s.nOrderPosNext := by
  intro heq
  have hlt := (h.bounds e he).2
  rw [heq] at hlt
  exact lt_irrefl _ hlt

/-- A place that no item has is added. -/
theorem Inv.distinct_append (h : s.Inv others) {pos : Int64} (hne : ∀ e ∈ s.placed, e.2 ≠ pos) :
    ((s.placed ++ [(item, pos)]).map Prod.snd).Nodup := by
  rw [List.map_append, List.map_singleton]
  refine h.distinct.append (List.nodup_singleton _) ?_
  rw [List.disjoint_singleton]
  intro hmem
  obtain ⟨e, he, heq⟩ := List.mem_map.mp hmem
  exact hne e he heq

/-- Of two new items the earlier one has the lower place. -/
theorem Inv.place_lt_of_time_lt (h : s.Inv others)
    (hsorted : s.placed.Pairwise fun e e' ↦ e.1.nTime ≤ e'.1.nTime)
    {e e' : TxPair × Int64} (he : e ∈ s.placed) (he' : e' ∈ s.placed) (hnew : e.1.nOrderPos = -1)
    (hnew' : e'.1.nOrderPos = -1) (htime : e.1.nTime < e'.1.nTime) : e.2 < e'.2 := by
  have hpair := hsorted.and h.inTurn
  obtain ⟨done, rest, hsplit⟩ := List.append_of_mem he'
  rw [hsplit] at hpair he
  obtain ⟨-, hrest, hdone⟩ := List.pairwise_append.mp hpair
  rcases List.mem_append.mp he with he | he
  · exact Int64.lt_iff_toInt_lt.mpr ((hdone e he e' List.mem_cons_self).2 hnew hnew')
  · rcases List.mem_cons.mp he with rfl | he
    · exact absurd htime (lt_irrefl _)
    · exact absurd htime (not_lt.mpr ((List.pairwise_cons.mp hrest).1 e he).1)

/-- **A new item that has room keeps the invariant.** -/
theorem Inv.reorder_new (h : s.Inv others) (hnew : item.nOrderPos = -1)
    (hroom : s.HasRoom write others item) :
    ∃ s', reorderOne write s item = some s' ∧ s'.Inv others := by
  rw [HasRoom, if_pos hnew] at hroom
  obtain ⟨hrange, hothers, hwrite⟩ := hroom
  have hrun : reorderOne write s item = some
      { nOrderPosNext := s.nOrderPosNext + 1
        nOrderPosOffsets := s.nOrderPosOffsets ++ [s.nOrderPosNext]
        placed := s.placed ++ [(item, s.nOrderPosNext)] } := by
    rw [reorderOne, if_pos hnew, if_neg]
    rw [Bool.and_eq_true, not_and, Bool.not_eq_true']
    exact fun he hw ↦ Bool.false_ne_true (hw.symm.trans (hwrite he))
  have hnext : (s.nOrderPosNext + 1).toInt = s.nOrderPosNext.toInt + 1 :=
    toInt_add_ofNat (n := 1) h.next_nonneg hrange
  refine ⟨_, hrun, ?_⟩
  constructor
  case mem_offsets =>
    intro o
    simp only [List.mem_append, List.mem_singleton, h.mem_offsets, or_and_right, exists_or,
      exists_eq_left, hnew, true_and, eq_comm]
  case offsets_nodup =>
    refine h.offsets_nodup.append (List.nodup_singleton _) ?_
    rw [List.disjoint_singleton]
    intro ho
    obtain ⟨e, he, -, heq⟩ := (h.mem_offsets _).mp ho
    exact h.place_ne_next he heq
  case bounds =>
    intro e he
    rcases List.mem_append.mp he with he | he
    · obtain ⟨hlo, hhi⟩ := h.bounds e he
      exact ⟨hlo, by rw [hnext]; omega⟩
    · obtain rfl := List.mem_singleton.mp he
      exact ⟨h.next_nonneg, by rw [hnext]; exact Int.lt_succ _⟩
  case next_nonneg =>
    rw [hnext]
    have := h.next_nonneg
    omega
  case moved =>
    intro e he hold
    rcases List.mem_append.mp he with he | he
    · obtain ⟨hnonneg, hmoved⟩ := h.moved e he hold
      refine ⟨hnonneg, ?_⟩
      -- the place that is given now is above all items
      have habove : ¬ s.nOrderPosNext ≤ e.1.nOrderPos := by
        rw [Int64.le_iff_toInt_le]
        have := (h.bounds e he).2
        omega
      have hoff : s.nOrderPosOff e.1.nOrderPos =
          ReorderState.nOrderPosOff { s with
            nOrderPosOffsets := s.nOrderPosOffsets ++ [s.nOrderPosNext] } e.1.nOrderPos := by
        simp [nOrderPosOff, List.countP_append, habove]
      rw [hmoved, hoff]
      rfl
    · obtain rfl := List.mem_singleton.mp he
      exact absurd hnew hold
  case distinct => exact h.distinct_append fun e he ↦ h.place_ne_next he
  case inTurn =>
    refine List.pairwise_append.mpr ⟨h.inTurn, List.pairwise_singleton _ _, ?_⟩
    intro e he e' he' _ _
    obtain rfl := List.mem_singleton.mp he'
    exact (h.bounds e he).2
  case apart =>
    intro e he entry hentry
    rcases List.mem_append.mp he with he | he
    · exact h.apart e he entry hentry
    · obtain rfl := List.mem_singleton.mp he
      exact ⟨(hothers entry hentry).symm, fun hold ↦ absurd hnew hold⟩
  case below =>
    intro entry hentry h₀ hbelow
    have hle := h.below entry hentry h₀ fun e he ↦ hbelow e (List.mem_append_left _ he)
    have hne : entry.nOrderPos.toInt ≠ s.nOrderPosNext.toInt :=
      fun heq ↦ hothers entry hentry (Int64.toInt_inj.mp heq)
    rw [hnext]
    omega

/-- The items that are there keep their distance from an old one. -/
theorem Inv.placed_ne (h : s.Inv others)
    (hoffsets : ∀ nOffsetStart ∈ s.nOrderPosOffsets,
      nOffsetStart.toInt ≠ nOrderPos.toInt + s.nOrderPosOff nOrderPos)
    (hfresh : ∀ e ∈ s.placed, 0 ≤ e.1.nOrderPos → e.1.nOrderPos ≠ nOrderPos)
    {e : TxPair × Int64} (he : e ∈ s.placed) :
    e.2.toInt ≠ nOrderPos.toInt + s.nOrderPosOff nOrderPos := by
  intro heq
  by_cases hnew : e.1.nOrderPos = -1
  · exact hoffsets e.2 ((h.mem_offsets _).mpr ⟨e, he, hnew, rfl⟩) heq
  · obtain ⟨hnonneg, hmoved⟩ := h.moved e he hnew
    rw [heq] at hmoved
    have hne := hfresh e he hnonneg
    rcases Int64.le_total e.1.nOrderPos nOrderPos with hle | hle
    · have hmono := nOrderPosOff_mono (s := s) hle
      rw [Int64.le_iff_toInt_le] at hle
      exact hne (Int64.toInt_inj.mp (by omega))
    · have hmono := nOrderPosOff_mono (s := s) hle
      rw [Int64.le_iff_toInt_le] at hle
      exact hne (Int64.toInt_inj.mp (by omega))

/-- **An old item that has room keeps the invariant.** -/
theorem Inv.reorder_old (h : s.Inv others) (hold : item.nOrderPos ≠ -1)
    (hroom : s.HasRoom write others item)
    (hfresh : ∀ e ∈ s.placed, 0 ≤ e.1.nOrderPos → e.1.nOrderPos ≠ item.nOrderPos)
    (hothers' : ∀ entry ∈ others, entry.nOrderPos ≠ item.nOrderPos) :
    ∃ s', reorderOne write s item = some s' ∧ s'.Inv others := by
  rw [HasRoom, if_neg hold] at hroom
  obtain ⟨hnonneg, hrange, hoffsets, hothers, hwrite⟩ := hroom
  have h₀ : 0 ≤ item.nOrderPos.toInt := Int64.le_iff_toInt_le.mp hnonneg
  generalize hpos : item.nOrderPos + Int64.ofNat (s.nOrderPosOff item.nOrderPos) = pos at hwrite
  have hpos' : pos.toInt = item.nOrderPos.toInt + s.nOrderPosOff item.nOrderPos := by
    rw [← hpos]
    exact toInt_add_ofNat h₀ (by omega)
  have hnext : (pos + 1).toInt = pos.toInt + 1 :=
    toInt_add_ofNat (n := 1) (by omega) (by rw [hpos']; exact hrange)
  generalize hmax : (if s.nOrderPosNext < pos + 1 then pos + 1 else s.nOrderPosNext) = next
  have hmax' : pos.toInt + 1 ≤ next.toInt ∧ s.nOrderPosNext.toInt ≤ next.toInt ∧
      (next.toInt = pos.toInt + 1 ∨ next.toInt = s.nOrderPosNext.toInt) := by
    rw [← hmax]
    split
    case isTrue hlt =>
      rw [Int64.lt_iff_toInt_lt] at hlt
      exact ⟨by omega, by omega, Or.inl hnext⟩
    case isFalse hlt =>
      rw [Int64.lt_iff_toInt_lt] at hlt
      exact ⟨by omega, le_rfl, Or.inr rfl⟩
  have hrun : reorderOne write s item =
      some { s with nOrderPosNext := next, placed := s.placed ++ [(item, pos)] } := by
    rw [reorderOne, if_neg hold]
    dsimp only
    rw [hpos, hmax, if_neg]
    rw [Bool.and_eq_true, decide_eq_true_eq, not_and, Bool.not_eq_true']
    exact fun he hw ↦ Bool.false_ne_true (hw.symm.trans (hwrite he))
  refine ⟨_, hrun, ?_⟩
  constructor
  case mem_offsets =>
    intro o
    simp only [List.mem_append, List.mem_singleton, h.mem_offsets, or_and_right, exists_or,
      exists_eq_left, hold, false_and, or_false]
  case offsets_nodup => exact h.offsets_nodup
  case bounds =>
    intro e he
    rcases List.mem_append.mp he with he | he
    · obtain ⟨hlo, hhi⟩ := h.bounds e he
      exact ⟨hlo, hhi.trans_le hmax'.2.1⟩
    · obtain rfl := List.mem_singleton.mp he
      dsimp only
      exact ⟨by omega, by omega⟩
  case next_nonneg => exact h.next_nonneg.trans hmax'.2.1
  case moved =>
    intro e he hne
    rcases List.mem_append.mp he with he | he
    · exact h.moved e he hne
    · obtain rfl := List.mem_singleton.mp he
      exact ⟨hnonneg, hpos'⟩
  case distinct =>
    exact h.distinct_append fun e he heq ↦ h.placed_ne hoffsets hfresh he (heq ▸ hpos')
  case inTurn =>
    refine List.pairwise_append.mpr ⟨h.inTurn, List.pairwise_singleton _ _, ?_⟩
    intro e he e' he' _ hnew
    obtain rfl := List.mem_singleton.mp he'
    exact absurd hnew hold
  case apart =>
    intro e he entry hentry
    rcases List.mem_append.mp he with he | he
    · exact h.apart e he entry hentry
    · obtain rfl := List.mem_singleton.mp he
      have hlt : item.nOrderPos < entry.nOrderPos → pos < entry.nOrderPos := by
        intro hlt
        rw [Int64.lt_iff_toInt_lt, hpos']
        exact hothers entry hentry hlt
      refine ⟨?_, fun _ ↦ hlt⟩
      rintro rfl
      -- an entry that is not above the item is below it
      have hne : entry.nOrderPos.toInt ≠ item.nOrderPos.toInt :=
        fun heq ↦ hothers' entry hentry (Int64.toInt_inj.mp heq)
      refine Int64.lt_irrefl (hlt ?_)
      rw [Int64.lt_iff_toInt_lt]
      omega
  case below =>
    intro entry hentry h₀' hbelow
    have hle := h.below entry hentry h₀' fun e he ↦ hbelow e (List.mem_append_left _ he)
    have hlt := hothers entry hentry
      (hbelow (item, pos) (List.mem_append_right _ (List.mem_singleton_self _)))
    dsimp only
    omega

theorem placed_initial {items : List TxPair} (h : items.foldlM (reorderOne write) s = some s') :
    s.placed <+: s'.placed := by
  induction items generalizing s with
  | nil =>
      obtain rfl := Option.some.inj h
      exact List.prefix_refl _
  | cons item items ih =>
      rw [List.foldlM_cons] at h
      obtain ⟨s₁, h₁, h⟩ := Option.bind_eq_some_iff.mp h
      refine List.IsPrefix.trans ?_ (ih h)
      by_cases hnew : item.nOrderPos = -1
      · rw [(reorderOne_new hnew h₁).2]
        exact List.prefix_append _ _
      · rw [(reorderOne_old hnew h₁).2.2]
        exact List.prefix_append _ _

/-- **In a run that ends in a strict order, every item had room.** -/
theorem Inv.hasRoom {t : ReorderState} (h : s.Inv others) (hrun : reorderOne write s item = some s')
    (hinit : s'.placed <+: t.placed)
    (hstrict : StrictOrder
      (t.placed ++ others.map fun entry ↦ (.pacentry entry, entry.nOrderPos)) t.nOrderPosNext) :
    s.HasRoom write others item := by
  have hmem : ∀ e ∈ s'.placed, e ∈ t.placed ++
      others.map fun entry ↦ (TxPair.pacentry entry, entry.nOrderPos) := fun e he ↦
    List.mem_append_left _ (hinit.subset he)
  have hentry : ∀ entry ∈ others, (TxPair.pacentry entry, entry.nOrderPos) ∈ t.placed ++
      others.map fun entry ↦ (TxPair.pacentry entry, entry.nOrderPos) := fun entry he ↦
    List.mem_append_right _ (List.mem_map.mpr ⟨entry, he, rfl⟩)
  have hdistinct := hstrict.distinct
  rw [List.map_append, List.nodup_append] at hdistinct
  have hlt := t.nOrderPosNext.toInt_lt
  rw [HasRoom]
  by_cases hnew : item.nOrderPos = -1
  · rw [if_pos hnew]
    obtain ⟨hwrite, rfl⟩ := reorderOne_new hnew hrun
    have hin := hmem (item, s.nOrderPosNext) (by simp)
    refine ⟨?_, fun entry he heq ↦ ?_, hwrite⟩
    · have := Int64.lt_iff_toInt_lt.mp (hstrict.next _ hin)
      dsimp only at this
      omega
    · have hplaced : s.nOrderPosNext ∈ t.placed.map Prod.snd :=
        List.mem_map.mpr ⟨(item, s.nOrderPosNext), hinit.subset (by simp), rfl⟩
      have hother : entry.nOrderPos ∈
          (others.map fun entry ↦ (TxPair.pacentry entry, entry.nOrderPos)).map Prod.snd :=
        List.mem_map.mpr ⟨_, List.mem_map.mpr ⟨entry, he, rfl⟩, rfl⟩
      exact hdistinct.2.2 _ hplaced _ hother heq.symm
  · rw [if_neg hnew]
    obtain ⟨hwrite, -, hplaced⟩ := reorderOne_old hnew hrun
    rw [hplaced] at hinit hmem
    have hin := hmem (item, item.nOrderPos + Int64.ofNat (s.nOrderPosOff item.nOrderPos)) (by simp)
    have hpos := Int64.le_iff_toInt_le.mp (hstrict.nonneg _ hin)
    have hnext := Int64.lt_iff_toInt_lt.mp (hstrict.next _ hin)
    rw [Int64.toInt_zero] at hpos
    dsimp only at hpos hnext
    -- a position below -1 stays where it is
    have h₀ : 0 ≤ item.nOrderPos.toInt := by
      by_contra hneg
      have hzero : Int64.ofNat 0 = 0 := rfl
      rw [h.nOrderPosOff_of_neg (not_le.mp hneg), hzero, Int64.add_zero] at hpos
      exact hneg hpos
    have hrange := lt_of_nonneg_add h₀ (h.nOrderPosOff_le h₀) hpos
    have hsum := toInt_add_ofNat h₀ hrange
    refine ⟨by rwa [Int64.le_iff_toInt_le], by omega, fun o ho heq ↦ ?_, fun entry he hlt ↦ ?_,
      hwrite⟩
    · obtain ⟨e, he, -, rfl⟩ := (h.mem_offsets o).mp ho
      have hnodup := (hinit.map Prod.snd).sublist.nodup hdistinct.1
      rw [List.map_append, List.nodup_append] at hnodup
      refine hnodup.2.2 e.2 (List.mem_map.mpr ⟨e, he, rfl⟩) _ (List.mem_singleton_self _) ?_
      exact Int64.toInt_inj.mp (heq.trans hsum.symm)
    · have := Int64.lt_iff_toInt_lt.mp
        (hstrict.ordered _ hin _ (hentry entry he) (by rwa [Int64.le_iff_toInt_le]) hlt)
      rwa [hsum] at this

end ReorderState

/-! ## The whole run -/

namespace WalletOrder

variable {write : TxPair → Int64 → Bool} {w : WalletOrder}

theorem perm_all : (w.items ++ w.others.map TxPair.pacentry).Perm w.all := by
  have hitems : w.items.Perm (w.mapWallet.map TxPair.pwtx ++ w.listed.map TxPair.pacentry) := by
    have h := (Multimap.perm_ofList ((w.mapWallet.map TxPair.pwtx ++
      w.listed.map TxPair.pacentry).map fun item ↦ (item.nTime, item))).map Prod.snd
    rwa [List.map_map, Function.comp_def, List.map_id'] at h
  have hsplit : w.acentries = w.listed ++ w.others := List.takeWhile_append_dropWhile.symm
  rw [all]
  conv_rhs => rw [hsplit, List.map_append, ← List.append_assoc]
  exact hitems.append_right _

/-- The items come by time. -/
theorem items_sorted : w.items.Pairwise fun item item' ↦ item.nTime ≤ item'.nTime := by
  rw [items, List.pairwise_map]
  refine w.txByTime.sorted.imp_of_mem fun {e e'} he he' hle ↦ ?_
  have hkey : ∀ e ∈ w.txByTime.entries, e.1 = e.2.nTime := by
    intro e he
    obtain ⟨item, -, rfl⟩ := List.mem_map.mp ((Multimap.perm_ofList _).subset he)
    rfl
  rwa [hkey e he, hkey e' he'] at hle

/-- Items that have positions have different ones. -/
theorem nOrderPos_ne {done rest : List TxPair} {item : TxPair}
    (h : ((w.all.map TxPair.nOrderPos).filter (0 ≤ ·)).Nodup)
    (hitems : w.items = done ++ item :: rest) (hpos : 0 ≤ item.nOrderPos) :
    (∀ x ∈ done, x.nOrderPos ≠ item.nOrderPos) ∧
      ∀ entry ∈ w.others, entry.nOrderPos ≠ item.nOrderPos := by
  have hperm : (item :: (done ++ rest ++ w.others.map TxPair.pacentry)).Perm w.all := by
    have hmiddle : (done ++ item :: rest).Perm (item :: (done ++ rest)) := List.perm_middle
    refine List.Perm.trans ?_ perm_all
    rw [hitems]
    exact (hmiddle.append_right _).symm
  have hnodup := (((hperm.map TxPair.nOrderPos).filter (0 ≤ ·)).nodup_iff).mpr h
  rw [List.map_cons, List.filter_cons, if_pos (decide_eq_true hpos), List.nodup_cons] at hnodup
  have hnot : ∀ x ∈ done ++ rest ++ w.others.map TxPair.pacentry,
      x.nOrderPos ≠ item.nOrderPos := by
    intro x hx heq
    refine hnodup.1 (List.mem_filter.mpr ⟨List.mem_map.mpr ⟨x, hx, heq⟩, decide_eq_true hpos⟩)
  constructor
  · exact fun x hx ↦ hnot x (List.mem_append_left _ (List.mem_append_left _ hx))
  · exact fun entry he ↦
      hnot (.pacentry entry) (List.mem_append_right _ (List.mem_map.mpr ⟨entry, he, rfl⟩))

/-- **While every item has room the loop goes on**, and keeps the invariant. -/
theorem exists_inv (hdistinct : ((w.all.map TxPair.nOrderPos).filter (0 ≤ ·)).Nodup)
    (hroom : ∀ s item, w.Reaches write s item → s.Inv w.others → s.HasRoom write w.others item)
    {done rest : List TxPair} (hitems : w.items = done ++ rest) :
    ∃ s, done.foldlM (reorderOne write) {} = some s ∧ s.Inv w.others ∧
      s.placed.map Prod.fst = done := by
  induction done using List.reverseRecOn generalizing rest with
  | nil => exact ⟨{}, rfl, inv_empty, rfl⟩
  | append_singleton done item ih =>
      rw [List.append_assoc, List.singleton_append] at hitems
      obtain ⟨s, hrun, hs, hplaced⟩ := ih hitems
      have hr := hroom s item ⟨done, rest, hitems, hrun⟩ hs
      obtain ⟨s', hrun', hs'⟩ : ∃ s', reorderOne write s item = some s' ∧ s'.Inv w.others := by
        by_cases hnew : item.nOrderPos = -1
        · exact hs.reorder_new hnew hr
        · have hpos := hr
          rw [HasRoom, if_neg hnew] at hpos
          obtain ⟨hdone, hothers⟩ := nOrderPos_ne hdistinct hitems hpos.1
          refine hs.reorder_old hnew hr (fun e he _ ↦ hdone e.1 ?_) hothers
          rw [← hplaced]
          exact List.mem_map.mpr ⟨e, he, rfl⟩
      refine ⟨s', ?_, hs', ?_⟩
      · rw [List.foldlM_append, hrun]
        change (reorderOne write s item >>= fun s ↦ List.foldlM _ s []) = _
        rw [hrun']
        rfl
      · by_cases hnew : item.nOrderPos = -1
        · rw [(reorderOne_new hnew hrun').2, List.map_append, hplaced]
          rfl
        · rw [(reorderOne_old hnew hrun').2.2, List.map_append, hplaced]
          rfl

/-- Other entries that all have positions have different ones. -/
theorem others_distinct (h : ((w.all.map TxPair.nOrderPos).filter (0 ≤ ·)).Nodup)
    (hothers : ∀ entry ∈ w.others, 0 ≤ entry.nOrderPos) :
    (w.others.map fun entry ↦ entry.nOrderPos).Nodup := by
  have hnodup := ((perm_all.map TxPair.nOrderPos).filter (0 ≤ ·)).nodup_iff.mpr h
  rw [List.map_append, List.filter_append, List.map_map] at hnodup
  have hright := (List.nodup_append.mp hnodup).2.1
  rwa [List.filter_eq_self.mpr] at hright
  intro n hn
  obtain ⟨entry, he, rfl⟩ := List.mem_map.mp hn
  exact decide_eq_true (hothers entry he)

/-- An invariant run that passes all other entries ends in a strict order. -/
theorem strictOrder_of_inv {t : ReorderState}
    (hdistinct : ((w.all.map TxPair.nOrderPos).filter (0 ≤ ·)).Nodup) (h : t.Inv w.others)
    (hplaced : t.placed.map Prod.fst = w.items)
    (hothers : ∀ entry ∈ w.others, 0 ≤ entry.nOrderPos ∧
      ∃ item ∈ w.items, entry.nOrderPos < item.nOrderPos) :
    StrictOrder (t.placed ++ w.others.map fun entry ↦ (.pacentry entry, entry.nOrderPos))
      t.nOrderPosNext := by
  have hcases : ∀ {e : TxPair × Int64}, e ∈ t.placed ++
      (w.others.map fun entry ↦ (TxPair.pacentry entry, entry.nOrderPos)) →
      e ∈ t.placed ∨ ∃ entry ∈ w.others, e = (.pacentry entry, entry.nOrderPos) := by
    intro e he
    rcases List.mem_append.mp he with he | he
    · exact Or.inl he
    · obtain ⟨entry, hentry, rfl⟩ := List.mem_map.mp he
      exact Or.inr ⟨entry, hentry, rfl⟩
  constructor
  case distinct =>
    rw [List.map_append, List.map_map]
    refine h.distinct.append ?_ ?_
    · exact others_distinct hdistinct fun entry he ↦ (hothers entry he).1
    · intro n hn hn'
      obtain ⟨e, he, rfl⟩ := List.mem_map.mp hn
      obtain ⟨entry, hentry, heq⟩ := List.mem_map.mp hn'
      exact (h.apart e he entry hentry).1 heq.symm
  case nonneg =>
    intro e he
    rcases hcases he with he | ⟨entry, hentry, rfl⟩
    · exact Int64.le_iff_toInt_le.mpr (h.bounds e he).1
    · exact (hothers entry hentry).1
  case ordered =>
    intro e he e' he' hpos hlt
    have hold : ∀ {e : TxPair × Int64}, 0 ≤ e.1.nOrderPos → e.1.nOrderPos ≠ -1 := by
      intro e hpos heq
      rw [heq] at hpos
      exact absurd hpos (by decide)
    have hpos' : 0 ≤ e'.1.nOrderPos := Int64.le_trans hpos (Int64.le_of_lt hlt)
    rcases hcases he with he | ⟨entry, hentry, rfl⟩
    · rcases hcases he' with he' | ⟨entry', hentry', rfl⟩
      · have hmono := nOrderPosOff_mono (s := t) (Int64.le_of_lt hlt)
        rw [Int64.lt_iff_toInt_lt] at hlt ⊢
        rw [(h.moved e he (hold hpos)).2, (h.moved e' he' (hold hpos')).2]
        omega
      · exact (h.apart e he entry' hentry').2 (hold hpos) hlt
    · rcases hcases he' with he' | ⟨entry', hentry', rfl⟩
      · exact Int64.lt_of_lt_of_le hlt (h.le_place he' (hold hpos'))
      · exact hlt
  case unordered =>
    intro e he e' he' hnew hnew' htime
    have hnot : ∀ entry ∈ w.others, (TxPair.pacentry entry).nOrderPos ≠ -1 := by
      intro entry hentry heq
      have := (hothers entry hentry).1
      rw [TxPair.nOrderPos] at heq
      rw [heq] at this
      exact absurd this (by decide)
    rcases hcases he with he | ⟨entry, hentry, rfl⟩
    · rcases hcases he' with he' | ⟨entry', hentry', rfl⟩
      · have hsorted := items_sorted (w := w)
        rw [← hplaced, List.pairwise_map] at hsorted
        exact h.place_lt_of_time_lt hsorted he he' hnew hnew' htime
      · exact absurd hnew' (hnot entry' hentry')
    · exact absurd hnew (hnot entry hentry)
  case next =>
    intro e he
    rcases hcases he with he | ⟨entry, hentry, rfl⟩
    · exact Int64.lt_iff_toInt_lt.mpr (h.bounds e he).2
    · obtain ⟨hpos, item, hitem, hlt⟩ := hothers entry hentry
      rw [← hplaced] at hitem
      obtain ⟨e, he, rfl⟩ := List.mem_map.mp hitem
      have hold : e.1.nOrderPos ≠ -1 := by
        intro heq
        rw [heq] at hlt
        exact absurd (Int64.lt_of_le_of_lt hpos hlt) (by decide)
      exact Int64.lt_of_lt_of_le hlt (Int64.le_trans (h.le_place he hold)
        (Int64.le_of_lt (Int64.lt_iff_toInt_lt.mpr (h.bounds e he).2)))

/-- **`ReorderTransactions` leaves a strict order exactly if every item has room** when the loop
comes to it, and the entries of other accounts have positions, below that of some item. -/
theorem keepsOrder_iff (write : TxPair → Int64 → Bool) (w : WalletOrder)
    (hdistinct : ((w.all.map TxPair.nOrderPos).filter (0 ≤ ·)).Nodup) :
    w.KeepsOrder write ↔
      (∀ s item, w.Reaches write s item → s.HasRoom write w.others item) ∧
        ∀ entry ∈ w.others, 0 ≤ entry.nOrderPos ∧
          ∃ item ∈ w.items, entry.nOrderPos < item.nOrderPos := by
  constructor
  · rintro ⟨placed, next, hrun, hstrict⟩
    rw [reorderTransactions] at hrun
    obtain ⟨t, ht, hrun⟩ := Option.bind_eq_some_iff.mp hrun
    obtain ⟨rfl, rfl⟩ := Prod.mk.inj (Option.some.inj hrun)
    have hroom : ∀ s item, w.Reaches write s item → s.Inv w.others →
        s.HasRoom write w.others item := by
      rintro s item ⟨done, rest, hitems, hs⟩ hinv
      rw [hitems, List.foldlM_append, hs] at ht
      change List.foldlM (reorderOne write) s (item :: rest) = some t at ht
      rw [List.foldlM_cons] at ht
      obtain ⟨s', hs', hrest⟩ := Option.bind_eq_some_iff.mp ht
      exact hinv.hasRoom hs' (placed_initial hrest) hstrict
    refine ⟨fun s item hreach ↦ ?_, fun entry hentry ↦ ?_⟩
    · obtain ⟨done, rest, hitems, hs⟩ := hreach
      obtain ⟨s', hs', hinv, -⟩ := exists_inv hdistinct hroom hitems
      obtain rfl := Option.some.inj (hs.symm.trans hs')
      exact hroom s item ⟨done, rest, hitems, hs⟩ hinv
    · have hin : (TxPair.pacentry entry, entry.nOrderPos) ∈ t.placed ++
          w.others.map fun entry ↦ (TxPair.pacentry entry, entry.nOrderPos) :=
        List.mem_append_right _ (List.mem_map.mpr ⟨entry, hentry, rfl⟩)
      have hpos := hstrict.nonneg _ hin
      refine ⟨hpos, ?_⟩
      by_contra hnone
      -- if no item is above the entry, the loop ends below it
      obtain ⟨t', ht', hinv, hplaced⟩ := exists_inv hdistinct hroom (List.append_nil _).symm
      obtain rfl := Option.some.inj (ht.symm.trans ht')
      refine absurd (Int64.lt_iff_toInt_lt.mp (hstrict.next _ hin)) (not_lt.mpr ?_)
      refine hinv.below entry hentry hpos fun e he ↦ ?_
      have hitem : e.1 ∈ w.items := hplaced ▸ List.mem_map.mpr ⟨e, he, rfl⟩
      have hle : e.1.nOrderPos ≤ entry.nOrderPos :=
        Int64.not_lt.mp fun hlt ↦ hnone ⟨e.1, hitem, hlt⟩
      refine Int64.lt_of_le_of_ne hle fun heq ↦ ?_
      obtain ⟨done, rest, hsplit⟩ := List.append_of_mem hitem
      exact (nOrderPos_ne hdistinct hsplit (heq ▸ hpos)).2 entry hentry heq.symm
  · rintro ⟨hroom, hothers⟩
    obtain ⟨t, ht, hinv, hplaced⟩ :=
      exists_inv hdistinct (fun s item h _ ↦ hroom s item h) (List.append_nil _).symm
    refine ⟨_, _, ?_, strictOrder_of_inv hdistinct hinv hplaced hothers⟩
    rw [reorderTransactions, ht]
    rfl

/-- One old transaction, and a new one before it. -/
def oneNew : WalletOrder where
  mapWallet := [{ hash := 1, nTimeReceived := 20, nOrderPos := 0 },
    { hash := 2, nTimeReceived := 10, nOrderPos := -1 }]
  acentries := []

theorem keepsOrder_iff_oneNew : oneNew.KeepsOrder fun _ _ ↦ true := by
  refine (keepsOrder_iff (fun _ _ ↦ true) oneNew (by decide)).mpr
    ⟨?_, fun entry hentry ↦ absurd hentry List.not_mem_nil⟩
  rintro s item ⟨done, rest, hitems, hs⟩
  rw [show oneNew.items = [.pwtx ⟨2, 10, -1⟩, .pwtx ⟨1, 20, 0⟩] from rfl] at hitems
  rcases done with _ | ⟨first, _ | ⟨second, done⟩⟩
  · obtain ⟨rfl, -⟩ := List.cons.inj hitems
    obtain rfl := Option.some.inj hs
    exact ⟨by decide, fun _ h ↦ absurd h List.not_mem_nil, fun _ ↦ rfl⟩
  · obtain ⟨rfl, htail⟩ := List.cons.inj hitems
    obtain ⟨rfl, -⟩ := List.cons.inj htail
    obtain rfl := Option.some.inj hs
    exact ⟨by decide, by decide, List.forall_mem_singleton.mpr (by decide),
      fun _ h ↦ absurd h List.not_mem_nil, fun _ ↦ rfl⟩
  · obtain ⟨-, htail⟩ := List.cons.inj hitems
    obtain ⟨-, hnil⟩ := List.cons.inj htail
    exact absurd hnil.symm (List.append_ne_nil_of_right_ne_nil done (List.cons_ne_nil item rest))
/-- Two new transactions between two old ones. -/
def twoNew : WalletOrder where
  mapWallet := [{ hash := 1, nTimeReceived := 10, nOrderPos := 0 },
    { hash := 2, nTimeReceived := 20, nOrderPos := -1 },
    { hash := 3, nTimeReceived := 30, nOrderPos := -1 },
    { hash := 4, nTimeReceived := 40, nOrderPos := 1 }]
  acentries := []

/-- The last transaction moves up by one place only, to where the one before it is. -/
theorem twoNew_collides : ((twoNew.all.map TxPair.nOrderPos).filter (0 ≤ ·)).Nodup ∧
    ¬ twoNew.KeepsOrder fun _ _ ↦ true := by
  have hrun : (twoNew.reorderTransactions fun _ _ ↦ true).map (fun r ↦ r.1.map Prod.snd) =
      some [0, 1, 2, 2] := by decide
  refine ⟨by decide, ?_⟩
  rintro ⟨placed, next, h, hstrict⟩
  rw [h, Option.map_some] at hrun
  have hnodup := hstrict.distinct
  rw [Option.some.inj hrun] at hnodup
  exact absurd hnodup (by decide)

end WalletOrder

end Fedoracoin
