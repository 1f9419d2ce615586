import Fedoracoin.MinWork
import Fedoracoin.Lib.OrderStatistic

/-!
# Median time past

`GetMedianTimePast` is the upper median of the times of a block and of the ten before it, or of
as many as there are.  A block has to be dated after the median of its parent.  Block times may
fall from one block to the next; the median never does (`AcceptedChain.getMedianTimePast_mono`),
since the window loses its oldest time at most, and what it gets is above the median.
-/

namespace Fedoracoin

open OrderStatistic

/-- A chain whose blocks passed the rule of `AcceptBlockHeader` for the timestamp. -/
inductive AcceptedChain : Ancestry → Prop
  | genesis (block : TargetIndex) : AcceptedChain [block]
  | accept {block : TargetIndex} {pindexPrev : Ancestry} (hprev : AcceptedChain pindexPrev)
      (htime : ¬ block.getBlockTime ≤ pindexPrev.getMedianTimePast) :
      AcceptedChain (block :: pindexPrev)

variable {block : TargetIndex} {p q pindexPrev pindex : Ancestry}

namespace Ancestry

/-- The times of the window of a block. -/
def medianWindow (pindex : Ancestry) : List Int :=
  (pindex.take nMedianTimeSpan).map TargetIndex.getBlockTime

theorem upperMedian_medianWindow (hne : pindex ≠ []) :
    upperMedian pindex.medianWindow = some pindex.getMedianTimePast := by
  have hwindow : pindex.medianWindow ≠ [] := by
    rw [medianWindow, Ne, List.map_eq_nil_iff, List.take_eq_nil_iff, not_or]
    exact ⟨by decide, hne⟩
  obtain ⟨x, hx⟩ := exists_upperMedian hwindow
  rw [hx, getMedianTimePast, Option.some.injEq]
  rw [upperMedian, atRank, ← List.length_insertionSort (· ≤ ·) pindex.medianWindow] at hx
  rw [List.getD_eq_getElem?_getD]
  exact (congrArg (fun t ↦ t.getD 0) hx).symm

/-- The next window has the time of the new block and all but the oldest of the old ones. -/
theorem medianWindow_cons (block : TargetIndex) (pindexPrev : Ancestry) :
    medianWindow (block :: pindexPrev) =
      block.getBlockTime :: (pindexPrev.take (nMedianTimeSpan - 1)).map TargetIndex.getBlockTime :=
  rfl

end Ancestry

namespace AcceptedChain

/-- The chain of a block on an accepted chain is accepted. -/
theorem of_suffix (h : AcceptedChain pindex) (hp : p <:+ pindex) (hne : p ≠ []) :
    AcceptedChain p := by
  induction h with
  | genesis block =>
      rcases List.suffix_cons_iff.mp hp with rfl | hp
      · exact .genesis block
      · exact absurd (List.suffix_nil.mp hp) hne
  | accept hprev htime ih =>
      rcases List.suffix_cons_iff.mp hp with rfl | hp
      · exact .accept hprev htime
      · exact ih hp

/-- Valid blocks keep a chain accepted. -/
theorem of_run {eventHorizon : Nat → Int → Int → Bool} {blocks : List TargetIndex}
    (hrun : Run (Extends eventHorizon) pindexPrev blocks pindex) (h : AcceptedChain pindexPrev) :
    AcceptedChain pindex := by
  apply hrun.invariant _ h
  rintro pindexPrev block _ hprev ⟨hvalid, rfl⟩
  exact .accept hprev (not_le.mpr hvalid.2)

/-- One block more. -/
theorem getMedianTimePast_le_cons (hne : pindexPrev ≠ [])
    (h : AcceptedChain (block :: pindexPrev)) :
    pindexPrev.getMedianTimePast ≤ Ancestry.getMedianTimePast (block :: pindexPrev) := by
  cases h with
  | genesis => exact absurd rfl hne
  | accept hprev htime =>
      have hwindow := Ancestry.upperMedian_medianWindow (List.cons_ne_nil block pindexPrev)
      rw [Ancestry.medianWindow_cons] at hwindow
      refine upperMedian_le_cons (Ancestry.upperMedian_medianWindow hne) ?_ ?_
        (not_le.mp htime).le hwindow
      · exact ((List.take_prefix_take_left (Nat.sub_le _ 1)).sublist).map _
      · rw [Ancestry.medianWindow, List.length_map, List.length_map, List.length_take,
          List.length_take, nMedianTimeSpan]
        omega

/-- Along an accepted chain the median time past never falls. -/
theorem getMedianTimePast_mono (h : AcceptedChain pindex) (hp : p <:+ pindex) (hq : q <:+ p)
    (hne : q ≠ []) : q.getMedianTimePast ≤ p.getMedianTimePast := by
  induction p with
  | nil => exact absurd (List.suffix_nil.mp hq) hne
  | cons block p ih =>
      rcases List.suffix_cons_iff.mp hq with rfl | hq
      · exact le_refl _
      · have hpne : p ≠ [] := by
          rintro rfl
          exact hne (List.suffix_nil.mp hq)
        have hprev : p <:+ pindex := (List.suffix_cons block p).trans hp
        calc q.getMedianTimePast ≤ Ancestry.getMedianTimePast p := ih hprev hq
          _ ≤ Ancestry.getMedianTimePast (block :: p) :=
            getMedianTimePast_le_cons hpne (h.of_suffix hp (List.cons_ne_nil block p))

/-- A chain on which the last block is dated before its parent. -/
theorem getMedianTimePast_mono_falling :
    let chain : Ancestry := [⟨12, 0⟩, ⟨30, 0⟩, ⟨11, 0⟩, ⟨10, 0⟩]
    AcceptedChain chain ∧
      Ancestry.getMedianTimePast [⟨11, 0⟩, ⟨10, 0⟩] ≤ Ancestry.getMedianTimePast chain := by
  intro chain
  have hchain : AcceptedChain chain :=
    .accept (.accept (.accept (.genesis _) (by decide)) (by decide)) (by decide)
  have hsuffix : [⟨11, 0⟩, ⟨10, 0⟩] <:+ chain := ⟨[⟨12, 0⟩, ⟨30, 0⟩], rfl⟩
  exact ⟨hchain, hchain.getMedianTimePast_mono (List.suffix_refl _) hsuffix
    (List.cons_ne_nil _ _)⟩

end AcceptedChain

end Fedoracoin
