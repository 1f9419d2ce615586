import Fedoracoin.Lib.Loop
import Fedoracoin.Lib.Multimap
import Fedoracoin.Validation
import Mathlib.Data.Finmap

/-!
# `limitedmap`

The map of `limitedmap.h` that is to keep the entries with the highest values, and its index
`rmap` by value.  An iterator of the map is the key it points to; following one to an entry that is
gone, or `rmap.begin()` where there is nothing, is `Failure.assertion`, as is `assert(0)`.

The promise is kept as long as every new key comes to a map with room for two
(`limitedMap_keepsPromise_iff`): the entry that makes the map as large as its limit already evicts
another one, and one that comes after that evicts nothing.
-/

namespace Fedoracoin

structure LimitedMap (K V : Type) [LinearOrder V] where
  map : Finmap fun _ : K ↦ V
  rmap : Multimap V K
  nMaxSize : Nat

/-- The calls that change a `limitedmap`. -/
inductive LimitedMapOp (K V : Type) where
  | insert (x : K × V)
  | erase (k : K)
  | update (itIn : K) (v : V)
  | maxSize (s : Nat)

namespace LimitedMap

variable {K V : Type} [DecidableEq K] [LinearOrder V]

def empty (nMaxSizeIn : Nat) : LimitedMap K V := ⟨∅, .empty, nMaxSizeIn⟩

def size (m : LimitedMap K V) : Nat := m.map.keys.card

/-- `map.erase(rmap.begin()->second); rmap.erase(rmap.begin());`. -/
def evict (m : LimitedMap K V) : Except Failure (LimitedMap K V) :=
  match m.rmap.entries with
  | [] => .error .assertion
  | e :: _ =>
      if e.2 ∈ m.map then .ok { m with map := m.map.erase e.2, rmap := m.rmap.pop }
      else .error .assertion

def insert (m : LimitedMap K V) (x : K × V) : Except Failure (LimitedMap K V) :=
  if x.1 ∈ m.map then .ok m
  else do
    let m := { m with map := m.map.insert x.1 x.2 }
    let m ← if m.nMaxSize ≠ 0 ∧ m.size = m.nMaxSize then m.evict else .ok m
    return { m with rmap := m.rmap.insert x.2 x.1 }

def erase (m : LimitedMap K V) (k : K) : Except Failure (LimitedMap K V) :=
  match m.map.lookup k with
  | none => .ok m
  | some v =>
      if (v, k) ∈ m.rmap.entries then
        .ok { m with map := m.map.erase k, rmap := m.rmap.erase (v, k) }
      else .error .assertion

def update (m : LimitedMap K V) (itIn : K) (v : V) : Except Failure (LimitedMap K V) :=
  match m.map.lookup itIn with
  | none => .ok m
  | some v' =>
      if (v', itIn) ∈ m.rmap.entries then
        .ok { m with
          map := m.map.insert itIn v
          rmap := (m.rmap.erase (v', itIn)).insert v itIn }
      else .error .assertion

/-- The loop of `max_size`. -/
def shrinkBody (s : Nat) (m : LimitedMap K V) :
    Option (Except Failure (LimitedMap K V) ⊕ LimitedMap K V) :=
  if s < m.size then
    match m.evict with
    | .error e => some (.inl (.error e))
    | .ok m => some (.inr m)
  else some (.inl (.ok m))

def maxSize (m : LimitedMap K V) (s : Nat) : Except Failure (LimitedMap K V) := do
  let m ←
    if s ≠ 0 then (Loop.run (shrinkBody s) (m.size + 1) m).getD (.error .diverges) else .ok m
  return { m with nMaxSize := s }

def apply (m : LimitedMap K V) : LimitedMapOp K V → Except Failure (LimitedMap K V)
  | .insert x => m.insert x
  | .erase k => m.erase k
  | .update itIn v => m.update itIn v
  | .maxSize s => m.maxSize s

end LimitedMap

/-! ## Sizes -/

section

variable {K V : Type} [DecidableEq K] {map : Finmap fun _ : K ↦ V} {k : K} {v : V}

theorem card_keys_insert (h : k ∉ map) : (map.insert k v).keys.card = map.keys.card + 1 := by
  have hkeys : (map.insert k v).keys = Insert.insert k map.keys := by
    ext k'
    rw [Finmap.mem_keys, Finmap.mem_insert, Finset.mem_insert, Finmap.mem_keys]
  rw [hkeys, Finset.card_insert_of_notMem (mt Finmap.mem_keys.mp h)]

theorem card_keys_erase (h : k ∈ map) : (map.erase k).keys.card + 1 = map.keys.card := by
  rw [Finmap.keys_erase]
  exact Finset.card_erase_add_one (Finmap.mem_keys.mpr h)

theorem keys_insert_of_mem (h : k ∈ map) : (map.insert k v).keys = map.keys := by
  ext k'
  rw [Finmap.mem_keys, Finmap.mem_insert, Finmap.mem_keys]
  exact or_iff_right_of_imp fun hk ↦ hk ▸ h

end

/-! ## The promise -/

section

variable {K V : Type} [DecidableEq K] [LinearOrder V]

/-- `kept` are the entries of `all` with the highest values, as many as the limit allows. -/
structure Highest (nMaxSize : Nat) (all kept : Finmap fun _ : K ↦ V) : Prop where
  sub : ∀ k v, kept.lookup k = some v → all.lookup k = some v
  card : kept.keys.card = if nMaxSize = 0 then all.keys.card else min nMaxSize all.keys.card
  le : ∀ k v k' v', all.lookup k = some v → k ∉ kept → kept.lookup k' = some v' → v ≤ v'

/-- The index holds the entries of the map, each of them once. -/
structure Indexes (map : Finmap fun _ : K ↦ V) (rmap : Multimap V K) : Prop where
  nodup : rmap.entries.Nodup
  mem_iff : ∀ k v, (v, k) ∈ rmap.entries ↔ map.lookup k = some v

/-- What a map without a limit does. -/
def LimitedMapOp.plain (map : Finmap fun _ : K ↦ V) : LimitedMapOp K V → Finmap fun _ : K ↦ V
  | .insert x => if x.1 ∈ map then map else map.insert x.1 x.2
  | .erase k => map.erase k
  | .update itIn v => if itIn ∈ map then map.insert itIn v else map
  | .maxSize _ => map

namespace LimitedMap

/-- A call returns, with an index that is right, and with the entries that have the highest
values. -/
def Keeps (m : LimitedMap K V) (op : LimitedMapOp K V) (m' : LimitedMap K V) : Prop :=
  m.apply op = .ok m' ∧ Indexes m'.map m'.rmap ∧ Highest m'.nMaxSize (op.plain m.map) m'.map

/-- Every call of a sequence keeps the promise. -/
def KeepsPromise : LimitedMap K V → List (LimitedMapOp K V) → Prop
  | _, [] => True
  | m, op :: ops => ∃ m', m.Keeps op m' ∧ m'.KeepsPromise ops

/-- A new key leaves the map below its limit. -/
def HasRoom (m : LimitedMap K V) : LimitedMapOp K V → Prop
  | .insert x => x.1 ∈ m.map ∨ m.nMaxSize = 0 ∨ m.size + 1 < m.nMaxSize
  | .erase _ | .update _ _ | .maxSize _ => True

/-- Every call of a sequence finds room. -/
def AlwaysRoom : LimitedMap K V → List (LimitedMapOp K V) → Prop
  | _, [] => True
  | m, op :: ops => m.HasRoom op ∧ ∀ m', m.apply op = .ok m' → m'.AlwaysRoom ops

end LimitedMap

/-! ## The highest entries -/

section

variable {map map' : Finmap fun _ : K ↦ V}

/-- What holds all entries holds the highest ones, if there are no more than that. -/
theorem Highest.refl {nMaxSize : Nat} (h : nMaxSize ≠ 0 → map.keys.card ≤ nMaxSize) :
    Highest nMaxSize map map where
  sub _ _ hk := hk
  card := by
    split
    case isTrue => rfl
    case isFalse hne => exact (min_eq_right (h hne)).symm
  le k v _ _ hk hnot _ := absurd (Finmap.mem_iff.mpr ⟨v, hk⟩) hnot

theorem Highest.card_le {nMaxSize : Nat} (h : Highest nMaxSize map map') (hne : nMaxSize ≠ 0) :
    map'.keys.card ≤ nMaxSize := by
  rw [h.card, if_neg hne]
  exact min_le_left _ _

end

/-! ## The index -/

section

variable {map map' : Finmap fun _ : K ↦ V} {rmap : Multimap V K} {k : K} {v : V}

theorem indexes_empty : Indexes (∅ : Finmap fun _ : K ↦ V) .empty where
  nodup := List.nodup_nil
  mem_iff k v := iff_of_false List.not_mem_nil (by rw [Finmap.lookup_empty]; exact nofun)

theorem Indexes.mem_map (h : Indexes map rmap) (he : (v, k) ∈ rmap.entries) : k ∈ map :=
  Finmap.mem_iff.mpr ⟨v, (h.mem_iff k v).mp he⟩

/-- A new entry, under whatever order it came to the map. -/
theorem Indexes.insert (h : Indexes map rmap) (hnew : k ∉ map)
    (hlookup : ∀ k', map'.lookup k' = if k' = k then some v else map.lookup k') :
    Indexes map' (rmap.insert v k) where
  nodup := Multimap.nodup_insert h.nodup fun he ↦ hnew (h.mem_map he)
  mem_iff k' v' := by
    rw [Multimap.mem_insert, hlookup, Prod.mk.injEq, h.mem_iff]
    split
    case isTrue hk =>
      subst hk
      rw [Finmap.lookup_eq_none.mpr hnew, Option.some.injEq]
      exact ⟨fun h ↦ (h.resolve_right nofun).1.symm, fun h ↦ Or.inl ⟨h.symm, rfl⟩⟩
    case isFalse hk => exact or_iff_right fun h ↦ hk h.2

theorem Indexes.erase (h : Indexes map rmap) (hk : map.lookup k = some v) :
    Indexes (map.erase k) (rmap.erase (v, k)) where
  nodup := h.nodup.erase _
  mem_iff k' v' := by
    change (v', k') ∈ rmap.entries.erase (v, k) ↔ _
    rw [h.nodup.mem_erase_iff, h.mem_iff, Ne, Prod.mk.injEq]
    by_cases hkk : k' = k
    · subst hkk
      rw [Finmap.lookup_erase, hk, Option.some.injEq]
      exact iff_of_false (fun h ↦ h.1 ⟨h.2.symm, rfl⟩) nofun
    · rw [Finmap.lookup_erase_ne hkk]
      exact and_iff_right fun h ↦ hkk h.2

/-- The first entry of the index, taken out of both. -/
theorem Indexes.pop {e : V × K} {l : List (V × K)} (h : Indexes map rmap)
    (he : rmap.entries = e :: l) : Indexes (map.erase e.2) rmap.pop := by
  have hmem : e ∈ rmap.entries := he ▸ List.mem_cons_self
  have hpop : rmap.erase e = rmap.pop := by
    ext1
    change rmap.entries.erase e = rmap.entries.tail
    rw [he, List.erase_cons_head, List.tail_cons]
  exact hpop ▸ h.erase ((h.mem_iff e.2 e.1).mp hmem)

end

namespace LimitedMap

variable {m m' : LimitedMap K V} {k : K} {v : V} {op : LimitedMapOp K V}

/-- A map that is not empty has a first entry in its index. -/
theorem exists_first (h : Indexes m.map m.rmap) (hpos : 0 < m.size) :
    ∃ e l, m.rmap.entries = e :: l := by
  obtain ⟨k, hk⟩ := Finset.card_pos.mp hpos
  obtain ⟨v, hv⟩ := Finmap.mem_iff.mp (Finmap.mem_keys.mp hk)
  exact List.exists_cons_of_ne_nil (List.ne_nil_of_mem ((h.mem_iff k v).mpr hv))

theorem evict_eq (h : Indexes m.map m.rmap) (hpos : 0 < m.size) :
    ∃ e l, m.rmap.entries = e :: l ∧
      m.evict = .ok { m with map := m.map.erase e.2, rmap := m.rmap.pop } := by
  obtain ⟨e, l, he⟩ := exists_first h hpos
  refine ⟨e, l, he, ?_⟩
  have hmem : e ∈ m.rmap.entries := he ▸ List.mem_cons_self
  rw [evict, he]
  exact if_pos (h.mem_map hmem)

/-! ## `insert` -/

theorem insert_of_mem {x : K × V} (h : x.1 ∈ m.map) : m.insert x = .ok m := if_pos h

theorem size_insert {x : K × V} (hnew : x.1 ∉ m.map) :
    ({ m with map := m.map.insert x.1 x.2 } : LimitedMap K V).size = m.size + 1 :=
  card_keys_insert hnew

/-- Nothing is evicted unless the map gets as large as its limit. -/
theorem insert_of_ne {x : K × V} (hnew : x.1 ∉ m.map)
    (hne : m.nMaxSize = 0 ∨ m.size + 1 ≠ m.nMaxSize) :
    m.insert x = .ok { m with
      map := m.map.insert x.1 x.2
      rmap := m.rmap.insert x.2 x.1 } := by
  rw [insert, if_neg hnew]
  dsimp only
  rw [size_insert hnew, if_neg fun h ↦ hne.elim h.1 fun hne ↦ hne h.2]
  rfl

/-- The map that gets as large as its limit loses the smallest of the entries it had. -/
theorem insert_of_eq {x : K × V} (h : Indexes m.map m.rmap) (hnew : x.1 ∉ m.map)
    (hfull : m.size + 1 = m.nMaxSize) (hpos : 0 < m.size) :
    ∃ e l, m.rmap.entries = e :: l ∧ m.insert x = .ok { m with
      map := (m.map.insert x.1 x.2).erase e.2
      rmap := m.rmap.pop.insert x.2 x.1 } := by
  obtain ⟨e, l, he⟩ := exists_first h hpos
  refine ⟨e, l, he, ?_⟩
  have hmem : e.2 ∈ m.map := h.mem_map (he ▸ List.mem_cons_self)
  rw [insert, if_neg hnew]
  dsimp only
  rw [size_insert hnew, if_pos ⟨hfull ▸ Nat.succ_ne_zero _, hfull⟩, evict]
  dsimp only
  rw [he]
  dsimp only
  rw [if_pos (Finmap.mem_insert.mpr (Or.inr hmem))]
  rfl

/-- With a limit of one, the first key finds nothing to evict. -/
theorem insert_first {x : K × V} (h : Indexes m.map m.rmap) (hempty : m.size = 0)
    (hone : m.nMaxSize = 1) : m.insert x = .error .assertion := by
  have hnot : ∀ k, k ∉ m.map := by
    intro k hk
    rw [← Finmap.mem_keys, Finset.card_eq_zero.mp hempty] at hk
    exact Finset.notMem_empty k hk
  have hnil : m.rmap.entries = [] := by
    apply List.eq_nil_iff_forall_not_mem.mpr
    exact fun e he ↦ hnot e.2 (h.mem_map he)
  rw [insert, if_neg (hnot x.1)]
  dsimp only
  rw [size_insert (hnot x.1), if_pos ⟨hone ▸ one_ne_zero, by omega⟩, evict]
  dsimp only
  rw [hnil]
  rfl

/-! ## `erase` and `update` -/

theorem erase_spec (h : Indexes m.map m.rmap) (k : K) :
    ∃ m', m.erase k = .ok m' ∧ Indexes m'.map m'.rmap ∧ m'.map = m.map.erase k ∧
      m'.nMaxSize = m.nMaxSize := by
  rw [erase]
  cases hk : m.map.lookup k with
  | none =>
      refine ⟨m, rfl, h, ?_, rfl⟩
      apply Finmap.ext_lookup
      intro k'
      by_cases hkk : k' = k
      · rw [hkk, Finmap.lookup_erase, hk]
      · rw [Finmap.lookup_erase_ne hkk]
  | some v => exact ⟨_, if_pos ((h.mem_iff k v).mpr hk), h.erase hk, rfl, rfl⟩

theorem update_spec (h : Indexes m.map m.rmap) (itIn : K) (v : V) :
    ∃ m', m.update itIn v = .ok m' ∧ Indexes m'.map m'.rmap ∧
      m'.map = (if itIn ∈ m.map then m.map.insert itIn v else m.map) ∧
      m'.nMaxSize = m.nMaxSize := by
  rw [update]
  cases hk : m.map.lookup itIn with
  | none => exact ⟨m, rfl, h, (if_neg (Finmap.lookup_eq_none.mp hk)).symm, rfl⟩
  | some v' =>
      refine ⟨_, if_pos ((h.mem_iff itIn v').mpr hk), ?_,
        (if_pos (Finmap.mem_iff.mpr ⟨v', hk⟩)).symm, rfl⟩
      refine (h.erase hk).insert (fun hmem ↦ (Finmap.mem_erase.mp hmem).1 rfl) fun k' ↦ ?_
      split
      case isTrue hkk => rw [hkk, Finmap.lookup_insert]
      case isFalse hkk => rw [Finmap.lookup_insert_of_ne _ hkk, Finmap.lookup_erase_ne hkk]

/-! ## `max_size` -/

/-- What the loop of `max_size` has left of `m`, down to `s` entries. -/
structure Shrunk (m : LimitedMap K V) (s : Nat) (m' : LimitedMap K V) : Prop where
  indexes : Indexes m'.map m'.rmap
  sub : ∀ k v, m'.map.lookup k = some v → m.map.lookup k = some v
  size : m'.size = m.size ∨ s ≤ m'.size ∧ m'.size ≤ m.size
  le : ∀ k v k' v', m.map.lookup k = some v → k ∉ m'.map → m'.map.lookup k' = some v' → v ≤ v'

theorem Shrunk.highest {s : Nat} (h : Shrunk m s m') (hs : s ≠ 0) (hle : m'.size ≤ s) :
    Highest s m.map m'.map where
  sub := h.sub
  card := by
    rw [if_neg hs]
    have hsize := h.size
    change m'.size = min s m.size
    omega
  le := h.le

/-- Evicting the first entry of the index. -/
theorem Shrunk.evict {s : Nat} (h : Shrunk m s m') (hlt : s < m'.size) :
    ∃ m'', m'.evict = .ok m'' ∧ Shrunk m s m'' ∧ m''.size < m'.size := by
  obtain ⟨e, l, he, hevict⟩ := evict_eq h.indexes (Nat.zero_lt_of_lt hlt)
  have hmem : e ∈ m'.rmap.entries := he ▸ List.mem_cons_self
  have hcard : (m'.map.erase e.2).keys.card + 1 = m'.size :=
    card_keys_erase (h.indexes.mem_map hmem)
  refine ⟨_, hevict, ⟨h.indexes.pop he, fun k v hk ↦ ?_, ?_, fun k v k' v' hk hnot hk' ↦ ?_⟩, ?_⟩
  · by_cases hke : k = e.2
    · rw [hke, Finmap.lookup_erase] at hk
      exact absurd hk nofun
    · rw [Finmap.lookup_erase_ne hke] at hk
      exact h.sub k v hk
  · have hsize := h.size
    right
    change s ≤ (m'.map.erase e.2).keys.card ∧ (m'.map.erase e.2).keys.card ≤ m.size
    omega
  · have hke' : k' ≠ e.2 := by
      rintro rfl
      rw [Finmap.lookup_erase] at hk'
      exact absurd hk' nofun
    rw [Finmap.lookup_erase_ne hke'] at hk'
    by_cases hke : k = e.2
    · -- what is evicted is the first entry of the index
      have hfirst := h.sub e.2 e.1 ((h.indexes.mem_iff e.2 e.1).mp hmem)
      rw [hke, hfirst, Option.some.injEq] at hk
      exact hk ▸ Multimap.key_le_of_cons he (v', k') ((h.indexes.mem_iff k' v').mpr hk')
    · exact h.le k v k' v' hk (fun hin ↦ hnot (Finmap.mem_erase.mpr ⟨hke, hin⟩)) hk'
  · change (m'.map.erase e.2).keys.card < m'.size
    omega

theorem maxSize_spec (h : Indexes m.map m.rmap) (s : Nat) :
    ∃ m', m.maxSize s = .ok m' ∧ Indexes m'.map m'.rmap ∧ m'.nMaxSize = s ∧
      Highest s m.map m'.map := by
  rw [maxSize]
  by_cases hs : s = 0
  · rw [if_neg (not_not.mpr hs)]
    exact ⟨_, rfl, h, rfl, .refl fun hne ↦ absurd hs hne⟩
  · rw [if_pos hs]
    have hbody : ∀ m', Shrunk m s m' →
        (∃ r, shrinkBody s m' = some (.inl r) ∧
          ∃ m'', r = .ok m'' ∧ Shrunk m s m'' ∧ m''.size ≤ s) ∨
        ∃ m'', shrinkBody s m' = some (.inr m'') ∧ Shrunk m s m'' ∧ m''.size < m'.size := by
      intro m' hm'
      rw [shrinkBody]
      by_cases hlt : s < m'.size
      · obtain ⟨m'', hevict, hshrunk, hless⟩ := hm'.evict hlt
        rw [if_pos hlt, hevict]
        exact Or.inr ⟨m'', rfl, hshrunk, hless⟩
      · rw [if_neg hlt]
        exact Or.inl ⟨_, rfl, m', rfl, hm', not_lt.mp hlt⟩
    have hstart : Shrunk m s m :=
      ⟨h, fun _ _ hk ↦ hk, Or.inl rfl, fun k v _ _ hk hnot _ ↦
        absurd (Finmap.mem_iff.mpr ⟨v, hk⟩) hnot⟩
    obtain ⟨r, hrun, m', rfl, hshrunk, hle⟩ := Loop.run_spec hbody hstart (Nat.lt_succ_self _)
    rw [hrun]
    exact ⟨_, rfl, hshrunk.indexes, rfl, hshrunk.highest hs hle⟩

/-! ## Every call -/

/-- A new key is what its limit allows exactly if the map stays below it. -/
theorem keeps_insert_iff (h : Indexes m.map m.rmap)
    (hsize : m.nMaxSize ≠ 0 → m.size ≤ m.nMaxSize) (x : K × V) :
    (∃ m', m.Keeps (.insert x) m') ↔ m.HasRoom (.insert x) := by
  by_cases hk : x.1 ∈ m.map
  · refine iff_of_true ⟨m, insert_of_mem hk, h, ?_⟩ (Or.inl hk)
    rw [LimitedMapOp.plain, if_pos hk]
    exact .refl hsize
  · have hplain : LimitedMapOp.plain m.map (.insert x) = m.map.insert x.1 x.2 := if_neg hk
    have hcard : (m.map.insert x.1 x.2).keys.card = m.size + 1 := card_keys_insert hk
    constructor
    · rintro ⟨m', happly, -, hhighest⟩
      by_contra hroom
      obtain ⟨-, hne, hnot⟩ : _ ∧ ¬ m.nMaxSize = 0 ∧ ¬ m.size + 1 < m.nMaxSize := by
        rwa [HasRoom, not_or, not_or] at hroom
      have hle := hsize hne
      rw [hplain] at hhighest
      by_cases hfull : m.size + 1 = m.nMaxSize
      · rcases Nat.eq_zero_or_pos m.size with hempty | hpos
        · -- nothing to evict
          rw [apply, insert_first h hempty (by omega)] at happly
          exact absurd happly nofun
        · -- one entry too many is evicted
          obtain ⟨e, l, he, hinsert⟩ := insert_of_eq h hk hfull hpos
          have hmem : e.2 ∈ m.map.insert x.1 x.2 :=
            Finmap.mem_insert.mpr (Or.inr (h.mem_map (he ▸ List.mem_cons_self)))
          rw [apply, hinsert] at happly
          obtain rfl := Except.ok.inj happly
          have hheld := hhighest.card
          rw [if_neg hne, hcard] at hheld
          have hless := card_keys_erase hmem
          dsimp only at hheld
          omega
      · -- nothing is evicted
        rw [apply, insert_of_ne hk (Or.inr hfull)] at happly
        obtain rfl := Except.ok.inj happly
        have hheld := hhighest.card_le hne
        dsimp only at hheld
        omega
    · intro hroom
      have hlimit : m.nMaxSize = 0 ∨ m.size + 1 < m.nMaxSize := hroom.resolve_left hk
      refine ⟨_, insert_of_ne hk (hlimit.imp id Nat.ne_of_lt), ?_, ?_⟩
      · refine h.insert hk fun k' ↦ ?_
        split
        case isTrue hkk => rw [hkk, Finmap.lookup_insert]
        case isFalse hkk => exact Finmap.lookup_insert_of_ne _ hkk
      · rw [hplain]
        refine .refl fun hne ↦ ?_
        rw [hcard]
        exact (hlimit.resolve_left hne).le

theorem keeps_iff (h : Indexes m.map m.rmap) (hsize : m.nMaxSize ≠ 0 → m.size ≤ m.nMaxSize)
    (op : LimitedMapOp K V) : (∃ m', m.Keeps op m') ↔ m.HasRoom op := by
  cases op with
  | insert x => exact keeps_insert_iff h hsize x
  | erase k =>
      obtain ⟨m', herase, hindexes, hmap, hmax⟩ := erase_spec h k
      refine iff_of_true ⟨m', herase, hindexes, ?_⟩ trivial
      rw [hmap, hmax]
      refine .refl fun hne ↦ le_trans ?_ (hsize hne)
      rw [LimitedMapOp.plain, Finmap.keys_erase]
      exact Finset.card_erase_le
  | update itIn v =>
      obtain ⟨m', hupdate, hindexes, hmap, hmax⟩ := update_spec h itIn v
      refine iff_of_true ⟨m', hupdate, hindexes, ?_⟩ trivial
      rw [hmap, hmax, LimitedMapOp.plain]
      refine .refl fun hne ↦ le_trans (le_of_eq ?_) (hsize hne)
      split
      case isTrue hk => exact congrArg Finset.card (keys_insert_of_mem hk)
      case isFalse => rfl
  | maxSize s =>
      obtain ⟨m', hmaxSize, hindexes, hmax, hhighest⟩ := maxSize_spec h s
      refine iff_of_true ⟨m', hmaxSize, hindexes, ?_⟩ trivial
      rw [hmax]
      exact hhighest

/-- **When a `limitedmap` keeps its promise.**  All calls return, with an index that is right and
the entries that have the highest values, no more than the limit, exactly if each key that is new
leaves the map below its limit. -/
theorem limitedMap_keepsPromise_iff (nMaxSizeIn : Nat) (ops : List (LimitedMapOp K V)) :
    (empty nMaxSizeIn : LimitedMap K V).KeepsPromise ops ↔
      (empty nMaxSizeIn : LimitedMap K V).AlwaysRoom ops := by
  have key : ∀ m : LimitedMap K V, Indexes m.map m.rmap →
      (m.nMaxSize ≠ 0 → m.size ≤ m.nMaxSize) → (m.KeepsPromise ops ↔ m.AlwaysRoom ops) := by
    induction ops with
    | nil => exact fun m _ _ ↦ Iff.rfl
    | cons op ops ih =>
        intro m hm hsize
        rw [KeepsPromise, AlwaysRoom, ← keeps_iff hm hsize]
        constructor
        · rintro ⟨m', hkeeps, hrest⟩
          refine ⟨⟨m', hkeeps⟩, fun m'' happly ↦ ?_⟩
          obtain rfl := Except.ok.inj (hkeeps.1.symm.trans happly)
          exact (ih m' hkeeps.2.1 hkeeps.2.2.card_le).mp hrest
        · rintro ⟨⟨m', hkeeps⟩, hrest⟩
          exact ⟨m', hkeeps, (ih m' hkeeps.2.1 hkeeps.2.2.card_le).mpr (hrest m' hkeeps.1)⟩
  exact key _ indexes_empty fun _ ↦ Nat.zero_le _

/-- Of two entries, with a limit of two, only the second one is kept. -/
theorem limitedMap_evictsEarly :
    ¬ (empty 2 : LimitedMap Nat Nat).KeepsPromise [.insert (1, 10), .insert (2, 20)] := by
  rintro ⟨m, ⟨hfirst, hindexes, hhighest⟩, m', hsecond, -⟩
  rw [apply, insert_of_ne Finmap.notMem_empty (by decide)] at hfirst
  obtain rfl := Except.ok.inj hfirst
  rcases (keeps_iff hindexes hhighest.card_le _).mp ⟨m', hsecond⟩ with hroom | hroom | hroom
  · exact absurd hroom (by decide)
  · cases hroom
  · exact absurd hroom (by decide)

end LimitedMap

end

end Fedoracoin
