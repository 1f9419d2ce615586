import Mathlib.Data.Finmap

/-!
# Finite maps that tabulate a list

A map `m` tabulates a list of things, each with a key and a value, if its entries are exactly
theirs.  Such a map stands for the list wherever things of one key are one:

* `Tabulates.empty`, `Tabulates.insert`, `Tabulates.insert_filter`, `Tabulates.foldl_insert`: how it
  is filled;
* `Tabulates.lookup`, `Tabulates.mem_iff`: what is found in it;
* `Tabulates.exists_map`: a walk over entries of it is a walk over members of the list;
* `Tabulates.congr`: only the members of the list count.
-/

variable {ι α β : Type*} [DecidableEq α]

/-- The entries of `m` are those of the members of `l`. -/
def Tabulates (key : ι → α) (value : ι → β) (l : List ι) (m : Finmap fun _ : α ↦ β) : Prop :=
  ∀ a b, m.lookup a = some b ↔ ∃ i ∈ l, key i = a ∧ value i = b

namespace Tabulates

variable {key : ι → α} {value : ι → β} {l l' : List ι} {m : Finmap fun _ : α ↦ β} {i : ι} {a : α}

theorem empty : Tabulates key value [] ∅ := by
  intro a b
  rw [Finmap.lookup_empty]
  simp

theorem lookup (h : Tabulates key value l m) (hi : i ∈ l) : m.lookup (key i) = some (value i) :=
  (h _ _).mpr ⟨i, hi, rfl, rfl⟩

theorem mem_iff (h : Tabulates key value l m) : a ∈ m ↔ ∃ i ∈ l, key i = a := by
  rw [← Finmap.lookup_isSome, Option.isSome_iff_exists]
  constructor
  · rintro ⟨b, hb⟩
    obtain ⟨i, hi, hkey, -⟩ := (h a b).mp hb
    exact ⟨i, hi, hkey⟩
  · rintro ⟨i, hi, rfl⟩
    exact ⟨value i, h.lookup hi⟩

theorem exists_map {es : List (α × β)} (h : Tabulates key value l m)
    (hes : ∀ e ∈ es, m.lookup e.1 = some e.2) :
    ∃ is : List ι, es = is.map (fun i ↦ (key i, value i)) ∧ ∀ i ∈ is, i ∈ l := by
  have hrange : es ∈ Set.range (List.map fun i : {i // i ∈ l} ↦ (key i, value i)) := by
    rw [Set.range_list_map]
    intro e he
    obtain ⟨i, hi, hkey, hvalue⟩ := (h e.1 e.2).mp (hes e he)
    exact ⟨⟨i, hi⟩, Prod.ext hkey hvalue⟩
  obtain ⟨is, rfl⟩ := hrange
  refine ⟨is.map Subtype.val, ?_, fun i hi ↦ ?_⟩
  · rw [List.map_map]
    rfl
  · obtain ⟨j, -, rfl⟩ := List.mem_map.mp hi
    exact j.2

theorem congr (h : Tabulates key value l m) (hl : ∀ i, i ∈ l ↔ i ∈ l') :
    Tabulates key value l' m := by
  intro a b
  rw [h a b]
  simp only [hl]

/-- An insertion takes the place of what had the key. -/
theorem insert_filter (h : Tabulates key value l m) (i : ι) :
    Tabulates key value (i :: l.filter (key · ≠ key i)) (m.insert (key i) (value i)) := by
  intro a b
  by_cases ha : a = key i
  · rw [ha, Finmap.lookup_insert]
    constructor
    · intro hb
      exact ⟨i, List.mem_cons_self, rfl, Option.some.inj hb⟩
    · rintro ⟨j, hj, hkey, rfl⟩
      obtain rfl | hj := List.mem_cons.mp hj
      · rfl
      · exact absurd hkey (of_decide_eq_true (List.mem_filter.mp hj).2)
  · rw [Finmap.lookup_insert_of_ne _ ha, h a b]
    constructor
    · rintro ⟨j, hj, rfl, hjb⟩
      exact ⟨j, List.mem_cons_of_mem i (List.mem_filter.mpr ⟨hj, decide_eq_true ha⟩), rfl, hjb⟩
    · rintro ⟨j, hj, hkey, hjb⟩
      obtain rfl | hj := List.mem_cons.mp hj
      · exact absurd hkey.symm ha
      · exact ⟨j, (List.mem_filter.mp hj).1, hkey, hjb⟩

theorem insert (h : Tabulates key value l m) (hinj : ∀ j ∈ l, key j = key i → j = i) :
    Tabulates key value (i :: l) (m.insert (key i) (value i)) := by
  refine (h.insert_filter i).congr fun j ↦ ?_
  rw [List.mem_cons, List.mem_cons, List.mem_filter, decide_eq_true_eq]
  constructor
  · exact Or.imp_right And.left
  · rintro (rfl | hj)
    · exact .inl rfl
    · by_cases hkey : key j = key i
      · exact .inl (hinj j hj hkey)
      · exact .inr ⟨hj, hkey⟩

theorem foldl_insert (h : Tabulates key value l m)
    (hinj : ∀ j ∈ l' ++ l, ∀ i ∈ l' ++ l, key j = key i → j = i) :
    Tabulates key value (l' ++ l)
      (l'.foldl (fun m i ↦ m.insert (key i) (value i)) m) := by
  induction l' generalizing l m with
  | nil => exact h
  | cons i l' ih =>
      have hmem : ∀ j, j ∈ l' ++ i :: l ↔ j ∈ i :: l' ++ l := by
        intro j
        simp only [List.mem_append, List.mem_cons]
        tauto
      have hi : Tabulates key value (i :: l) (m.insert (key i) (value i)) :=
        h.insert fun j hj ↦ hinj j (List.mem_append_right _ hj) i (by simp)
      refine (ih hi fun j hj k hk ↦ ?_).congr hmem
      exact hinj j ((hmem j).mp hj) k ((hmem k).mp hk)

end Tabulates
