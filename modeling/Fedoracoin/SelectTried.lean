import Fedoracoin.AddrManMoves
import Fedoracoin.Lib.PartialShuffle

/-!
# The choice of a tried entry

`SelectTried` draws up to four entries of a bucket with the first steps of a shuffle, and looks for
the one with the least `nLastSuccess`.  What it remembers of that entry is the place it was drawn
from, not the one it was swapped to (`selectTried_eq`).  So the position that it returns is that of
the oldest entry if that was drawn in place, and otherwise only by a tie.
-/

namespace Fedoracoin

namespace CAddrMan

open PartialShuffle

variable (rand : Nat → Nat) (am : CAddrMan) (nKBucket : TriedBucket)

/-- How many entries of a bucket are inspected. -/
def inspections : Nat := min addrmanTriedEntriesInspectOnEvict (am.vvTried nKBucket).length

/-- The place that step `i` draws from. -/
def drawPos (i : Nat) : Nat := getRandInt (rand i) ((am.vvTried nKBucket).length - i) + i

/-- The entry that step `i` draws and inspects. -/
def inspected (i : Nat) : Option Nat :=
  drawn (am.drawPos rand nKBucket) (am.vvTried nKBucket) i

/-- `mapInfo[nId].nLastSuccess`. -/
def nLastSuccess (nId : Nat) : Int := ((am.mapInfo.lookup nId).map (·.nLastSuccess)).getD 0

/-- `nLastSuccess` of the entry that step `i` inspects. -/
def inspectedSuccess (i : Nat) : Int := ((am.inspected rand nKBucket i).map am.nLastSuccess).getD 0

/-- The position that `SelectTried` returns is that of an entry that it has inspected, and no other
one of those has a lesser `nLastSuccess`. -/
def SelectsOldest : Prop :=
  ∃ am' nPos nId, selectTried rand am nKBucket = some (am', nPos) ∧
    (am'.vvTried nKBucket)[nPos]? = some nId ∧
    (∃ i < am.inspections nKBucket, am.inspected rand nKBucket i = some nId) ∧
    ∀ i < am.inspections nKBucket, am.nLastSuccess nId ≤ am.inspectedSuccess rand nKBucket i

/-- Step `i` is the first that inspects an oldest entry. -/
def FirstOldest (i : Nat) : Prop :=
  IsFirstLeast (am.inspectedSuccess rand nKBucket) (am.inspections nKBucket) i

variable {rand am nKBucket} {nId i k : Nat} {info : CAddrInfo}

theorem nLastSuccess_of_lookup (h : am.mapInfo.lookup nId = some info) :
    am.nLastSuccess nId = info.nLastSuccess := by
  rw [nLastSuccess, h]
  rfl

theorem inspectedSuccess_of_inspected (h : am.inspected rand nKBucket i = some nId) :
    am.inspectedSuccess rand nKBucket i = am.nLastSuccess nId := by
  rw [inspectedSuccess, h]
  rfl

theorem draws (rand : Nat → Nat) (am : CAddrMan) (nKBucket : TriedBucket) :
    Draws (am.drawPos rand nKBucket) (am.vvTried nKBucket) (am.inspections nKBucket) := by
  intro i hi
  have hlt : i < (am.vvTried nKBucket).length := hi.trans_le (Nat.min_le_right _ _)
  have hrand := getRandInt_lt (r := rand i) (Nat.sub_pos_of_lt hlt)
  rw [drawPos]
  omega

/-! ## The loop -/

/-- What the loop knows after `n` steps: the bucket is shuffled so far, and of the entries drawn the
first oldest is remembered, with the place that it was drawn from. -/
def Selected (rand : Nat → Nat) (am : CAddrMan) (nKBucket : TriedBucket) (n : Nat)
    (s : List Nat × Option (Nat × Nat)) : Prop :=
  s.1 = shuffle (am.drawPos rand nKBucket) (am.vvTried nKBucket) n ∧
    match s.2 with
    | none => n = 0
    | some (nOldest, nOldestPos) => ∃ k,
        IsFirstLeast (am.inspectedSuccess rand nKBucket) n k ∧
        am.inspected rand nKBucket k = some nOldest ∧ nOldestPos = am.drawPos rand nKBucket k

/-- A step swaps the entry that it draws to its place. -/
theorem selectTriedStep_eq {vTried : List Nat} {nTemp : Nat} (oldest : Option (Nat × Nat))
    (hlen : vTried.length = (am.vvTried nKBucket).length) (hi : i < vTried.length)
    (htemp : vTried[am.drawPos rand nKBucket i]? = some nTemp) :
    selectTriedStep rand am (vTried, oldest) i =
      match oldest with
      | none => some (swap vTried i (am.drawPos rand nKBucket i),
          some (nTemp, am.drawPos rand nKBucket i))
      | some (nOldest, _) =>
          (am.mapInfo.lookup nTemp).bind fun info ↦
            (am.mapInfo.lookup nOldest).bind fun infoOldest ↦
              if info.nLastSuccess < infoOldest.nLastSuccess then
                some (swap vTried i (am.drawPos rand nKBucket i),
                  some (nTemp, am.drawPos rand nKBucket i))
              else some (swap vTried i (am.drawPos rand nKBucket i), oldest) := by
  have hpos : getRandInt (rand i) (vTried.length - i) + i = am.drawPos rand nKBucket i := by
    rw [hlen, drawPos]
  have hfirst : vTried[i]? = some vTried[i] := List.getElem?_eq_getElem hi
  rw [selectTriedStep, swap_eq hfirst htemp]
  simp only [hpos, htemp, hfirst, Option.bind_eq_bind, Option.bind_some]
  cases oldest with
  | none => rfl
  | some o => rfl

theorem selectTriedStep_spec {s : List Nat × Option (Nat × Nat)}
    (hlookup : ∀ j ∈ am.vvTried nKBucket, ∃ info, am.mapInfo.lookup j = some info)
    (hi : i < am.inspections nKBucket) (hs : am.Selected rand nKBucket i s) :
    ∃ s', selectTriedStep rand am s i = some s' ∧ am.Selected rand nKBucket (i + 1) s' := by
  obtain ⟨vTried, oldest⟩ := s
  obtain ⟨hshuffle, holdest⟩ := hs
  obtain rfl : vTried = shuffle (am.drawPos rand nKBucket) (am.vvTried nKBucket) i := hshuffle
  have hlen := (shuffle_perm ((draws rand am nKBucket).mono hi.le)).length_eq
  obtain ⟨nTemp, htemp⟩ := drawn_isSome (draws rand am nKBucket) hi
  have hinspected : am.inspected rand nKBucket i = some nTemp := htemp
  obtain ⟨info, hinfo⟩ := hlookup nTemp (mem_of_drawn (draws rand am nKBucket) hi htemp)
  have hsuccess : am.inspectedSuccess rand nKBucket i = info.nLastSuccess :=
    (inspectedSuccess_of_inspected hinspected).trans (nLastSuccess_of_lookup hinfo)
  have hlt := ((draws rand am nKBucket).lt_length hi).trans_eq hlen.symm
  rw [selectTriedStep_eq oldest hlen hlt htemp]
  cases oldest with
  | none =>
      obtain rfl : i = 0 := holdest
      exact ⟨_, rfl, rfl, 0, IsFirstLeast.one, hinspected, rfl⟩
  | some o =>
      obtain ⟨k, hk, hok, hkpos⟩ := holdest
      obtain ⟨infoOldest, hinfoOldest⟩ :=
        hlookup o.1 (mem_of_drawn (draws rand am nKBucket) (hk.1.trans hi) hok)
      have hsuccess' : am.inspectedSuccess rand nKBucket k = infoOldest.nLastSuccess :=
        (inspectedSuccess_of_inspected hok).trans (nLastSuccess_of_lookup hinfoOldest)
      simp only [hinfo, hinfoOldest, Option.bind_some]
      split
      case isTrue hlt =>
          rw [← hsuccess, ← hsuccess'] at hlt
          exact ⟨_, rfl, rfl, i, hk.of_lt hlt, hinspected, rfl⟩
      case isFalse hle =>
          rw [← hsuccess, ← hsuccess'] at hle
          exact ⟨_, rfl, rfl, k, hk.of_le (not_lt.mp hle), hok, hkpos⟩

theorem selectTried_loop (rand : Nat → Nat)
    (hlookup : ∀ j ∈ am.vvTried nKBucket, ∃ info, am.mapInfo.lookup j = some info) (n : Nat)
    (hn : n ≤ am.inspections nKBucket) :
    ∃ s, (List.range n).foldlM (selectTriedStep rand am) (am.vvTried nKBucket, none) = some s ∧
      am.Selected rand nKBucket n s := by
  induction n with
  | zero => exact ⟨_, rfl, rfl, rfl⟩
  | succ n ih =>
      obtain ⟨s, hrun, hs⟩ := ih (Nat.le_of_succ_le hn)
      obtain ⟨s', hstep, hs'⟩ := selectTriedStep_spec hlookup hn hs
      refine ⟨s', ?_, hs'⟩
      rw [List.range_succ, List.foldlM_append, hrun]
      simp only [Option.bind_eq_bind, Option.bind_some, List.foldlM_cons, hstep, List.foldlM_nil,
        Option.pure_def]

/-- **`SelectTried`** returns the place that the first oldest of the inspected entries was drawn
from. -/
theorem selectTried_eq (rand : Nat → Nat)
    (hlookup : ∀ j ∈ am.vvTried nKBucket, ∃ info, am.mapInfo.lookup j = some info)
    (hne : am.vvTried nKBucket ≠ []) :
    ∃ k, am.FirstOldest rand nKBucket k ∧ selectTried rand am nKBucket =
      some (am.setTried nKBucket
        (shuffle (am.drawPos rand nKBucket) (am.vvTried nKBucket) (am.inspections nKBucket)),
        am.drawPos rand nKBucket k) := by
  obtain ⟨⟨vTried, oldest⟩, hrun, hshuffle, holdest⟩ :=
    selectTried_loop rand hlookup _ le_rfl
  have hpos : am.inspections nKBucket ≠ 0 :=
    Nat.ne_of_gt (Nat.lt_min.mpr ⟨by decide, List.length_pos_iff.mpr hne⟩)
  cases oldest with
  | none => exact absurd holdest hpos
  | some o =>
      obtain ⟨k, hk, -, hkpos⟩ := holdest
      refine ⟨k, hk, ?_⟩
      have hrun' : (List.range (min addrmanTriedEntriesInspectOnEvict
          (am.vvTried nKBucket).length)).foldlM (selectTriedStep rand am)
            (am.vvTried nKBucket, none) = some (vTried, some o) := hrun
      obtain rfl : vTried = _ := hshuffle
      rw [selectTried]
      simp only [hrun', Option.bind_eq_bind, Option.bind_some, Option.pure_def, hkpos]

/-! ## What the position holds -/

/-- **`SelectTried` and the oldest entry.**  The position that it returns is that of an oldest
inspected entry, if and only if the first of these was drawn from one of the places that the
inspected entries are swapped to, and the entry that ends up there is as old. -/
theorem selectsOldest_iff (rand : Nat → Nat) (am : CAddrMan) (nKBucket : TriedBucket)
    (hlookup : ∀ j ∈ am.vvTried nKBucket, ∃ info, am.mapInfo.lookup j = some info)
    (hnodup : (am.vvTried nKBucket).Nodup) :
    am.SelectsOldest rand nKBucket ↔ ∃ k, am.FirstOldest rand nKBucket k ∧
      am.drawPos rand nKBucket k < am.inspections nKBucket ∧
      am.inspectedSuccess rand nKBucket (am.drawPos rand nKBucket k) =
        am.inspectedSuccess rand nKBucket k := by
  have hsetTried (l : List Nat) : (am.setTried nKBucket l).vvTried nKBucket = l :=
    Function.update_self ..
  constructor
  · rintro ⟨am', nPos, nId, hselect, hnPos, ⟨i, hi, hin⟩, hleast⟩
    have hne : am.vvTried nKBucket ≠ [] := List.ne_nil_of_length_pos
      (i.zero_le.trans_lt ((draws rand am nKBucket).lt_length hi))
    obtain ⟨k, hk, heq⟩ := selectTried_eq rand hlookup hne
    obtain ⟨rfl, rfl⟩ := Prod.mk.inj (Option.some.inj (hselect.symm.trans heq))
    rw [hsetTried] at hnPos
    have hplace := eq_of_getElem?_shuffle hnodup (draws rand am nKBucket) hi hin hnPos
    refine ⟨k, hk, hplace.trans_lt hi, le_antisymm ?_ ?_⟩
    · rw [hplace, inspectedSuccess_of_inspected hin]
      exact hleast k hk.1
    · exact hk.2.1 _ (hplace.trans_lt hi)
  · rintro ⟨k, hk, hlt, heq⟩
    have hne : am.vvTried nKBucket ≠ [] := List.ne_nil_of_length_pos
      (k.zero_le.trans_lt ((draws rand am nKBucket).lt_length hk.1))
    obtain ⟨k', hk', hselect⟩ := selectTried_eq rand hlookup hne
    obtain rfl := hk'.unique hk
    obtain ⟨nId, hin⟩ := drawn_isSome (draws rand am nKBucket) hlt
    refine ⟨_, _, nId, hselect, ?_, ⟨_, hlt, hin⟩, fun i hi ↦ ?_⟩
    · rw [hsetTried, getElem?_shuffle (draws rand am nKBucket) hlt, hin]
    · rw [← inspectedSuccess_of_inspected hin, heq]
      exact hk.2.1 i hi

/-! ## A full bucket -/

/-- A full bucket of the entries 0 to 63, of which 1 is the oldest. -/
def fullBucket : CAddrMan :=
  { CAddrMan.new [0] with
    mapInfo := (List.range 64).foldl (fun mapInfo nId ↦
      mapInfo.insert nId { nLastSuccess := if nId = 1 then 1000 else 2000 }) ∅
    vvTried := fun _ ↦ List.range 64 }

theorem fullBucket_lookup :
    ∀ j ∈ fullBucket.vvTried 0, ∃ info, fullBucket.mapInfo.lookup j = some info := by
  have hall : ((fullBucket.vvTried 0).all fun j ↦ (fullBucket.mapInfo.lookup j).isSome) = true := by
    decide +kernel
  exact fun j hj ↦ Option.isSome_iff_exists.mp (List.all_eq_true.mp hall j hj)

/-- With random numbers that draw each entry in place, the choice is right. -/
theorem selectsOldest_iff_sample : fullBucket.SelectsOldest (fun _ ↦ 0) 0 := by
  apply (selectsOldest_iff (fun _ ↦ 0) fullBucket 0 fullBucket_lookup List.nodup_range).mpr
  refine ⟨1, ⟨by decide +kernel, ?_, ?_⟩, by decide +kernel, by decide +kernel⟩
  · decide +kernel
  · decide +kernel

/-- With random numbers that draw each entry from the next place, `SelectTried` returns 1, which is
where the oldest entry was; there the entry 2 is now. -/
theorem selectsOldest_fails :
    ¬ ∀ (rand : Nat → Nat) (am : CAddrMan) (nKBucket : TriedBucket),
      (∀ j ∈ am.vvTried nKBucket, ∃ info, am.mapInfo.lookup j = some info) →
      (am.vvTried nKBucket).Nodup → (am.vvTried nKBucket).length = addrmanTriedBucketSize →
      am.SelectsOldest rand nKBucket := by
  intro hall
  obtain ⟨am', nPos, nId, hselect, hnPos, -, hleast⟩ :=
    hall (fun _ ↦ 1) fullBucket 0 fullBucket_lookup List.nodup_range (by decide)
  have hvalue : (selectTried (fun _ ↦ 1) fullBucket 0).map
      (fun r ↦ (r.1.vvTried 0)[r.2]?) = some (some 2) := by decide +kernel
  rw [hselect, Option.map_some, hnPos, Option.some_inj, Option.some_inj] at hvalue
  have hoften := hleast 0 (by decide +kernel)
  rw [hvalue] at hoften
  exact absurd hoften (by decide +kernel)

end CAddrMan

end Fedoracoin
