import Fedoracoin.TxIndex
import Fedoracoin.Lib.Release

/-!
# Orphan blocks

`GetOrphanRoot`, `PruneOrphanBlocks` and `ProcessBlock` of `main.cpp`, as far as they concern the
blocks whose parents are missing.  The two maps hold pointers to the same objects, so the model
keeps the objects in a heap: an object that was deleted is not there, and whatever uses it has no
value.  `AcceptBlock`, and everything else the node does between two blocks, is a parameter.
-/

namespace Fedoracoin

/-! ## The pool -/

structure COrphanBlock where
  hashBlock : Uint256
  hashPrev : Uint256
  vchBlock : List UInt8
deriving DecidableEq

/-- The two maps, and the objects they point to. -/
structure OrphanBlocks where
  heap : Finmap fun _ : Nat ↦ COrphanBlock
  /-- The next address that was never used. -/
  nextPtr : Nat
  mapOrphanBlocks : Finmap fun _ : Uint256 ↦ Nat
  /-- A multimap: its entries in the order of their keys. -/
  mapOrphanBlocksByPrev : List (Uint256 × Nat)

namespace OrphanBlocks

def empty : OrphanBlocks := ⟨∅, 0, ∅, []⟩

/-- `mapOrphanBlocksByPrev.size()`. -/
def size (s : OrphanBlocks) : Nat := s.mapOrphanBlocksByPrev.length

/-- The loop of `GetOrphanRoot`, at an entry of `mapOrphanBlocks`. -/
def rootBody (s : OrphanBlocks) (it : Uint256 × Nat) : Option (Uint256 ⊕ (Uint256 × Nat)) :=
  match s.heap.lookup it.2 with
  | none => none
  | some orphan =>
      match s.mapOrphanBlocks.lookup orphan.hashPrev with
      | none => some (.inl it.1)
      | some ptr => some (.inr (orphan.hashPrev, ptr))

/-- `GetOrphanRoot`.  There is no value if its loop goes on after as many rounds as there are
entries. -/
def getOrphanRoot (s : OrphanBlocks) (hash : Uint256) : Option Uint256 :=
  match s.mapOrphanBlocks.lookup hash with
  | none => some hash
  | some ptr => Loop.run s.rootBody (s.size + 1) (hash, ptr)

/-- The loop of `PruneOrphanBlocks` over the blocks that depend on one another, at the entry number
`it` of `mapOrphanBlocksByPrev`. -/
def successorBody (s : OrphanBlocks) (it : Nat) : Option (Nat ⊕ Nat) :=
  match s.mapOrphanBlocksByPrev[it]? with
  | none => none
  | some (_, ptr) =>
      match s.heap.lookup ptr with
      | none => none
      | some orphan =>
          match s.mapOrphanBlocksByPrev.findIdx? (·.1 = orphan.hashBlock) with
          | none => some (.inl it)
          | some it2 => some (.inr it2)

/-- Deletes the object of an entry and takes it out of both maps. -/
def eraseOrphan (s : OrphanBlocks) (it : Nat) : Option OrphanBlocks :=
  match s.mapOrphanBlocksByPrev[it]? with
  | none => none
  | some (_, ptr) =>
      match s.heap.lookup ptr with
      | none => none
      | some orphan => some { s with
          heap := s.heap.erase ptr
          mapOrphanBlocksByPrev := s.mapOrphanBlocksByPrev.eraseIdx it
          mapOrphanBlocks := s.mapOrphanBlocks.erase orphan.hashBlock }

/-- `PruneOrphanBlocks`; `rand` is what `insecure_rand` gives, and `maxOrphanBlocks` the argument
`-maxorphanblocks`. -/
def pruneOrphanBlocks (s : OrphanBlocks) (maxOrphanBlocks : Int) (rand : Nat) :
    Option OrphanBlocks :=
  if s.size ≤ (max 0 maxOrphanBlocks).toNat then some s
  else
    let pos := rand % s.size
    match Loop.run s.successorBody (s.size + 1) pos with
    | none => none
    | some it => s.eraseOrphan it

/-- Where `insert` puts an entry: behind those whose keys are not greater. -/
def insertByPrev (l : List (Uint256 × Nat)) (entry : Uint256 × Nat) : List (Uint256 × Nat) :=
  l.takeWhile (·.1 ≤ entry.1) ++ entry :: l.dropWhile (·.1 ≤ entry.1)

/-- A new object, in both maps. -/
def addOrphan (s : OrphanBlocks) (hash : Uint256) (block : CBlock) : OrphanBlocks :=
  { heap := s.heap.insert s.nextPtr
      { hashBlock := hash, hashPrev := block.hashPrevBlock, vchBlock := block.serialize }
    nextPtr := s.nextPtr + 1
    mapOrphanBlocks := s.mapOrphanBlocks.insert hash s.nextPtr
    mapOrphanBlocksByPrev := insertByPrev s.mapOrphanBlocksByPrev (block.hashPrevBlock, s.nextPtr) }

end OrphanBlocks

/-! ## `ProcessBlock` -/

/-- What `ProcessBlock` takes from elsewhere, over the state of the rest of the node. -/
structure ProcessEnv (World : Type) where
  blockEnv : BlockEnv
  /-- The argument `-maxorphanblocks`. -/
  maxOrphanBlocks : Int
  /-- `mapBlockIndex.count(hash)`. -/
  haveIndex : World → Uint256 → Bool
  /-- The entry is there and has `BLOCK_HAVE_DATA`. -/
  haveData : World → Uint256 → Bool
  acceptBlock : World → CBlock → (dbp : Option CDiskBlockPos) → World × Bool

/-- The variables of the loops over the orphans that depend on a block. -/
structure OrphanWork (World : Type) where
  world : World
  orphans : OrphanBlocks
  /-- What is left of `vWorkQueue`. -/
  vWorkQueue : List Uint256
  /-- The blocks handed to `AcceptBlock`, with what it returned. -/
  submitted : List (CBlock × Bool) := []

/-- How `ProcessBlock` ended. -/
inductive Processed
  | alreadyHave
  | alreadyHaveOrphan
  | checkBlockFailed (e : Failure)
  /-- The block is an orphan; `hashEnd` is the hash that `PushGetBlocks` asks for, if the orphan was
  kept. -/
  | orphan (hashEnd : Option Uint256)
  | acceptBlockFailed
  | accepted (submitted : List (CBlock × Bool))

namespace ProcessEnv

variable {World : Type} (env : ProcessEnv World)

def getHash (block : CBlock) : Uint256 := env.blockEnv.getBlockHash block.toCBlockHeader

/-- The inner loop over the entries of one key; there is no value if a pointer dangles or the bytes
are not a block. -/
def submitOrphans : List Nat → OrphanWork World → Option (OrphanWork World)
  | [], r => some r
  | ptr :: mi, r =>
      match r.orphans.heap.lookup ptr with
      | none => none
      | some orphan =>
          match CBlock.unserialize orphan.vchBlock with
          | .error _ => none
          | .ok (block, _) =>
              let accept := env.acceptBlock r.world block none
              submitOrphans mi
                { world := accept.1
                  orphans := { r.orphans with
                    mapOrphanBlocks := r.orphans.mapOrphanBlocks.erase orphan.hashBlock
                    heap := r.orphans.heap.erase ptr }
                  vWorkQueue :=
                    if accept.2 then r.vWorkQueue ++ [orphan.hashBlock] else r.vWorkQueue
                  submitted := r.submitted ++ [(block, accept.2)] }

/-- The body of the loop over `vWorkQueue`. -/
def workBody (r : OrphanWork World) : Option (OrphanWork World ⊕ OrphanWork World) :=
  match r.vWorkQueue with
  | [] => some (.inl r)
  | hashPrev :: queue =>
      let range := r.orphans.mapOrphanBlocksByPrev.filter (·.1 = hashPrev)
      match env.submitOrphans (range.map Prod.snd) { r with vWorkQueue := queue } with
      | none => none
      | some r => some (.inr { r with orphans := { r.orphans with
          mapOrphanBlocksByPrev := r.orphans.mapOrphanBlocksByPrev.filter (·.1 ≠ hashPrev) } })

/-- `INT_MAX`. -/
def intMax : Int := 2147483647

/-- `ProcessBlock`; `rand` is what `insecure_rand` gives to `PruneOrphanBlocks`. -/
def processBlock (orphans : OrphanBlocks) (world : World) (pfrom : Bool) (block : CBlock)
    (dbp : Option CDiskBlockPos) (rand : Nat) : Option (OrphanBlocks × World × Processed) :=
  let hash := env.getHash block
  if env.haveIndex world hash then some (orphans, world, .alreadyHave)
  else if (orphans.mapOrphanBlocks.lookup hash).isSome then
    some (orphans, world, .alreadyHaveOrphan)
  else
    match checkBlock env.blockEnv block intMax true true with
    | .error e => some (orphans, world, .checkBlockFailed e)
    | .ok () =>
        if block.hashPrevBlock ≠ 0 ∧ env.haveData world block.hashPrevBlock = false then
          -- orphans are only kept if there is a node to ask for their parents
          if !pfrom then some (orphans, world, .orphan none)
          else do
            let orphans ← orphans.pruneOrphanBlocks env.maxOrphanBlocks rand
            let orphans := orphans.addOrphan hash block
            let hashEnd ← orphans.getOrphanRoot hash
            return (orphans, world, .orphan (some hashEnd))
        else
          let accept := env.acceptBlock world block dbp
          if !accept.2 then some (orphans, accept.1, .acceptBlockFailed)
          else do
            let r ← Loop.run env.workBody (orphans.size + 2)
              { world := accept.1, orphans := orphans, vWorkQueue := [hash] }
            return (r.orphans, r.world, .accepted r.submitted)

end ProcessEnv

/-! ## The invariant -/

/-- The blocks that arrive fit the fields of the source, and following `hashPrevBlock` from one to
the other does not lead back. -/
structure ProcessEnv.Acyclic {World : Type} (env : ProcessEnv World) (B : Set CBlock) : Prop where
  wellTyped : ∀ block ∈ B, block.WellTyped
  acyclic : ∀ hash, ¬ Relation.TransGen
    (fun a b ↦ ∃ block ∈ B, block.hashPrevBlock = a ∧ env.getHash block = b) hash hash

/-- Numbers that go up from a block to the blocks that build on it. -/
theorem ProcessEnv.Acyclic.exists_rank {World : Type} {env : ProcessEnv World} {B : Set CBlock}
    (h : env.Acyclic B) :
    ∃ rank : Uint256 → Nat, ∀ block ∈ B, rank block.hashPrevBlock < rank (env.getHash block) := by
  have hfinite : Finite Uint256 := Finite.of_injective BitVec.toFin fun a b hab ↦
    BitVec.eq_of_toFin_eq hab
  refine ⟨fun hash ↦ Set.ncard {a | Relation.TransGen
    (fun a b ↦ ∃ block ∈ B, block.hashPrevBlock = a ∧ env.getHash block = b) a hash}, ?_⟩
  intro block hblock
  have hstep : Relation.TransGen
      (fun a b ↦ ∃ block ∈ B, block.hashPrevBlock = a ∧ env.getHash block = b)
      block.hashPrevBlock (env.getHash block) := .single ⟨block, hblock, rfl, rfl⟩
  apply Set.ncard_lt_ncard _ (Set.toFinite _)
  refine (Set.ssubset_iff_of_subset ?_).mpr ⟨block.hashPrevBlock, hstep, h.acyclic _⟩
  exact fun a ha ↦ Relation.TransGen.trans ha hstep

namespace OrphanBlocks

variable {getHash : CBlock → Uint256} {B : Set CBlock} {s s' : OrphanBlocks}
  {S : Set (Nat × CBlock)} {pool : List (Nat × CBlock)} {block : CBlock} {ptr it : Nat}

/-- The object that stands for a block. -/
def orphanOf (getHash : CBlock → Uint256) (block : CBlock) : COrphanBlock :=
  { hashBlock := getHash block, hashPrev := block.hashPrevBlock, vchBlock := block.serialize }

/-- The heap and `mapOrphanBlocks` hold the blocks `S`, each at its address. -/
structure Stored (getHash : CBlock → Uint256) (B : Set CBlock) (s : OrphanBlocks)
    (S : Set (Nat × CBlock)) : Prop where
  heap_iff : ∀ ptr orphan, s.heap.lookup ptr = some orphan ↔
    ∃ block, (ptr, block) ∈ S ∧ orphan = orphanOf getHash block
  byHash_iff : ∀ hash ptr, s.mapOrphanBlocks.lookup hash = some ptr ↔
    ∃ block, (ptr, block) ∈ S ∧ getHash block = hash
  inj : ∀ x ∈ S, ∀ y ∈ S, x.1 = y.1 ∨ getHash x.2 = getHash y.2 → x = y
  block : ∀ x ∈ S, x.2 ∈ B ∧ x.2.getSerializeSize ≤ maxSize

/-- Both maps hold the blocks of `pool`, which are in the order of the multimap. -/
structure Inv (getHash : CBlock → Uint256) (B : Set CBlock) (s : OrphanBlocks)
    (pool : List (Nat × CBlock)) : Prop where
  stored : s.Stored getHash B {x | x ∈ pool}
  byPrev : s.mapOrphanBlocksByPrev = pool.map fun x ↦ (x.2.hashPrevBlock, x.1)
  nodup : pool.Nodup
  lt : ∀ x ∈ pool, x.1 < s.nextPtr

theorem inv_empty : Inv getHash B empty [] where
  stored :=
    { heap_iff := fun ptr orphan ↦ by simp [empty]
      byHash_iff := fun hash ptr ↦ by simp [empty]
      inj := nofun
      block := nofun }
  byPrev := rfl
  nodup := List.nodup_nil
  lt x hx := absurd hx List.not_mem_nil

theorem Stored.lookup_heap (h : s.Stored getHash B S) {x : Nat × CBlock} (hx : x ∈ S) :
    s.heap.lookup x.1 = some (orphanOf getHash x.2) := (h.heap_iff _ _).mpr ⟨x.2, hx, rfl⟩

theorem Stored.lookup_byHash (h : s.Stored getHash B S) {x : Nat × CBlock} (hx : x ∈ S) :
    s.mapOrphanBlocks.lookup (getHash x.2) = some x.1 := (h.byHash_iff _ _).mpr ⟨x.2, hx, rfl⟩

/-- The pool depends on which blocks it holds alone. -/
theorem Stored.congr {S' : Set (Nat × CBlock)} (h : s.Stored getHash B S)
    (hS : ∀ x, x ∈ S ↔ x ∈ S') : s.Stored getHash B S' := Set.ext hS ▸ h

/-- A deleted object that is taken out of `mapOrphanBlocks`. -/
theorem Stored.erase (h : s.Stored getHash B S) {x : Nat × CBlock} (hx : x ∈ S) :
    Stored getHash B { s with
      heap := s.heap.erase x.1, mapOrphanBlocks := s.mapOrphanBlocks.erase (getHash x.2) }
      (S \ {x}) where
  heap_iff := by
    intro ptr orphan
    dsimp only
    by_cases hptr : ptr = x.1
    · subst hptr
      rw [Finmap.lookup_erase]
      refine iff_of_false (by simp) ?_
      rintro ⟨block, ⟨hmem, hne⟩, -⟩
      exact hne (h.inj _ hmem x hx (Or.inl rfl))
    · rw [Finmap.lookup_erase_ne hptr, h.heap_iff]
      constructor
      · rintro ⟨block, hmem, ho⟩
        exact ⟨block, ⟨hmem, fun heq ↦ hptr (congrArg Prod.fst heq)⟩, ho⟩
      · rintro ⟨block, ⟨hmem, -⟩, ho⟩
        exact ⟨block, hmem, ho⟩
  byHash_iff := by
    intro hash ptr
    dsimp only
    by_cases hhash : hash = getHash x.2
    · subst hhash
      rw [Finmap.lookup_erase]
      refine iff_of_false (by simp) ?_
      rintro ⟨block, ⟨hmem, hne⟩, hkey⟩
      exact hne (h.inj _ hmem x hx (Or.inr hkey))
    · rw [Finmap.lookup_erase_ne hhash, h.byHash_iff]
      constructor
      · rintro ⟨block, hmem, hkey⟩
        refine ⟨block, ⟨hmem, fun heq ↦ hhash ?_⟩, hkey⟩
        rw [← hkey, ← congrArg Prod.snd heq]
      · rintro ⟨block, ⟨hmem, -⟩, hkey⟩
        exact ⟨block, hmem, hkey⟩
  inj y hy z hz := h.inj y hy.1 z hz.1
  block y hy := h.block y hy.1

/-- The bytes of a stored block are the block. -/
theorem Stored.unserialize {World : Type} {env : ProcessEnv World} (hB : env.Acyclic B)
    (h : s.Stored getHash B S) {x : Nat × CBlock} (hx : x ∈ S) :
    CBlock.unserialize (orphanOf getHash x.2).vchBlock = .ok (x.2, []) := by
  obtain ⟨hmem, hsize⟩ := h.block x hx
  have hread := CBlock.reads_unserialize (hB.wellTyped x.2 hmem) hsize []
  rwa [List.append_nil] at hread

theorem Inv.length (h : s.Inv getHash B pool) : s.size = pool.length := by
  rw [size, h.byPrev, List.length_map]

theorem Inv.getElem? (h : s.Inv getHash B pool) :
    s.mapOrphanBlocksByPrev[it]? = pool[it]?.map fun x ↦ (x.2.hashPrevBlock, x.1) := by
  rw [h.byPrev, List.getElem?_map]

/-! ### `GetOrphanRoot` -/

section

variable {rank : Uint256 → Nat}

/-- One step back goes down in rank. -/
theorem Inv.rootBody (h : s.Inv getHash B pool)
    (hrank : ∀ block ∈ B, rank block.hashPrevBlock < rank (getHash block)) {x : Nat × CBlock}
    (hx : x ∈ pool) :
    (∃ hash, s.rootBody (getHash x.2, x.1) = some (.inl hash)) ∨
      ∃ y ∈ pool, s.rootBody (getHash x.2, x.1) = some (.inr (getHash y.2, y.1)) ∧
        rank (getHash y.2) < rank (getHash x.2) := by
  rw [OrphanBlocks.rootBody, h.stored.lookup_heap hx]
  dsimp only
  cases hl : s.mapOrphanBlocks.lookup (orphanOf getHash x.2).hashPrev with
  | none => exact Or.inl ⟨_, rfl⟩
  | some ptr =>
      obtain ⟨block, hmem, hkey⟩ := (h.stored.byHash_iff _ _).mp hl
      refine Or.inr ⟨(ptr, block), hmem, ?_, ?_⟩
      · dsimp only
        rw [hkey]
      · dsimp only
        rw [hkey]
        exact hrank x.2 (h.stored.block x hx).1

/-- `GetOrphanRoot` returns. -/
theorem Inv.getOrphanRoot (h : s.Inv getHash B pool)
    (hrank : ∀ block ∈ B, rank block.hashPrevBlock < rank (getHash block)) (hash : Uint256) :
    ∃ root, s.getOrphanRoot hash = some root := by
  rw [OrphanBlocks.getOrphanRoot]
  cases hl : s.mapOrphanBlocks.lookup hash with
  | none => exact ⟨hash, rfl⟩
  | some ptr =>
      obtain ⟨block, hmem, rfl⟩ := (h.stored.byHash_iff _ _).mp hl
      have hrun := @Loop.run_spec _ _ s.rootBody (getHash block, ptr) (s.size + 1)
        (fun it ↦ ∃ x ∈ pool, it = (getHash x.2, x.1)) (fun _ ↦ True)
        (fun it ↦ pool.countP fun x ↦ decide (rank (getHash x.2) < rank it.1)) ?_
        ⟨_, hmem, rfl⟩ ?_
      · obtain ⟨root, hrun, -⟩ := hrun
        exact ⟨root, hrun⟩
      · rintro it ⟨x, hx, rfl⟩
        rcases h.rootBody hrank hx with ⟨hash, hbody⟩ | ⟨y, hy, hbody, hlt⟩
        · exact Or.inl ⟨hash, hbody, trivial⟩
        · refine Or.inr ⟨_, hbody, ⟨y, hy, rfl⟩, Loop.countP_lt hy ?_ ?_ ?_⟩
          · intro z hz
            exact decide_eq_true ((of_decide_eq_true hz).trans hlt)
          · exact decide_eq_true hlt
          · exact decide_eq_false (lt_irrefl _)
      · rw [h.length]
        exact Nat.lt_succ_of_le List.countP_le_length

/-! ### `PruneOrphanBlocks` -/

/-- The entry the loop goes on to is that of a block which builds on the current one. -/
theorem Inv.successorBody (h : s.Inv getHash B pool) (hit : it < pool.length) :
    (s.successorBody it = some (.inl it) ∧
        ∀ x ∈ pool, x.2.hashPrevBlock ≠ getHash pool[it].2) ∨
      ∃ it', ∃ h' : it' < pool.length, s.successorBody it = some (.inr it') ∧
        pool[it'].2.hashPrevBlock = getHash pool[it].2 := by
  have hx : pool[it] ∈ pool := List.getElem_mem hit
  rw [OrphanBlocks.successorBody, h.getElem?, List.getElem?_eq_getElem hit, Option.map_some]
  dsimp only
  rw [h.stored.lookup_heap hx]
  dsimp only
  rw [h.byPrev, List.findIdx?_map]
  cases hfind : pool.findIdx? ((fun e : Uint256 × Nat ↦
      decide (e.1 = (orphanOf getHash pool[it].2).hashBlock)) ∘
        fun x : Nat × CBlock ↦ (x.2.hashPrevBlock, x.1)) with
  | none =>
      refine Or.inl ⟨rfl, fun x hmem heq ↦ ?_⟩
      have hno := List.findIdx?_eq_none_iff.mp hfind x hmem
      exact absurd heq (of_decide_eq_false hno)
  | some it' =>
      obtain ⟨h', heq, -⟩ := List.findIdx?_eq_some_iff_getElem.mp hfind
      exact Or.inr ⟨it', h', rfl, of_decide_eq_true heq⟩

/-- The walk ends at a block nothing depends on. -/
theorem Inv.run_successorBody (h : s.Inv getHash B pool)
    (hrank : ∀ block ∈ B, rank block.hashPrevBlock < rank (getHash block))
    (hit : it < pool.length) :
    ∃ it', ∃ h' : it' < pool.length, Loop.run s.successorBody (s.size + 1) it = some it' ∧
      ∀ x ∈ pool, x.2.hashPrevBlock ≠ getHash pool[it'].2 := by
  have hrun := @Loop.run_spec _ _ s.successorBody it (s.size + 1) (fun it ↦ it < pool.length)
    (fun it ↦ ∃ h' : it < pool.length, ∀ x ∈ pool, x.2.hashPrevBlock ≠ getHash pool[it].2)
    (fun it ↦ pool.countP fun x ↦ decide (∃ y, pool[it]? = some y ∧
      rank (getHash y.2) < rank (getHash x.2))) ?_ hit ?_
  · obtain ⟨it', hrun, h', hlast⟩ := hrun
    exact ⟨it', h', hrun, hlast⟩
  · intro it hit
    rcases h.successorBody hit with ⟨hbody, hlast⟩ | ⟨it', h', hbody, hprev⟩
    · exact Or.inl ⟨it, hbody, hit, hlast⟩
    · have hx' : pool[it'] ∈ pool := List.getElem_mem h'
      have hlt : rank (getHash pool[it].2) < rank (getHash pool[it'].2) := by
        have hlt := hrank _ (h.stored.block _ hx').1
        rwa [hprev] at hlt
      refine Or.inr ⟨it', hbody, h', Loop.countP_lt hx' ?_ ?_ ?_⟩
      · intro x hx
        obtain ⟨y, hy, hylt⟩ := of_decide_eq_true hx
        rw [List.getElem?_eq_getElem h'] at hy
        obtain rfl := Option.some.inj hy
        exact decide_eq_true ⟨_, List.getElem?_eq_getElem hit, hlt.trans hylt⟩
      · exact decide_eq_true ⟨_, List.getElem?_eq_getElem hit, hlt⟩
      · apply decide_eq_false
        rintro ⟨y, hy, hylt⟩
        rw [List.getElem?_eq_getElem h'] at hy
        obtain rfl := Option.some.inj hy
        exact lt_irrefl _ hylt
  · rw [h.length]
    exact Nat.lt_succ_of_le List.countP_le_length

end

/-- Erasing the entry of a block. -/
theorem Inv.eraseOrphan (h : s.Inv getHash B pool) (hit : it < pool.length) :
    ∃ s', s.eraseOrphan it = some s' ∧ s'.Inv getHash B (pool.eraseIdx it) := by
  have hx : pool[it] ∈ pool := List.getElem_mem hit
  rw [OrphanBlocks.eraseOrphan, h.getElem?, List.getElem?_eq_getElem hit, Option.map_some]
  dsimp only
  rw [h.stored.lookup_heap hx]
  have hmem : ∀ x, x ∈ pool.eraseIdx it ↔ x ∈ pool ∧ x ≠ pool[it] := by
    intro x
    rw [← h.nodup.erase_getElem it hit, h.nodup.mem_erase_iff, and_comm]
  refine ⟨_, rfl, ?_, ?_, h.nodup.eraseIdx it, ?_⟩
  · refine Stored.congr ?_ fun x ↦ (hmem x).symm
    have hstored := h.stored.erase hx
    exact ⟨hstored.heap_iff, hstored.byHash_iff, hstored.inj, hstored.block⟩
  · change s.mapOrphanBlocksByPrev.eraseIdx it = _
    rw [h.byPrev, List.eraseIdx_map]
  · exact fun x hx ↦ h.lt x ((hmem x).mp hx).1

/-- `PruneOrphanBlocks` returns, and removes nothing or a block no other one depends on. -/
theorem Inv.pruneOrphanBlocks {rank : Uint256 → Nat} (h : s.Inv getHash B pool)
    (hrank : ∀ block ∈ B, rank block.hashPrevBlock < rank (getHash block)) (maxOrphanBlocks : Int)
    (rand : Nat) :
    (s.pruneOrphanBlocks maxOrphanBlocks rand = some s ∧
        pool.length ≤ (max 0 maxOrphanBlocks).toNat) ∨
      ∃ s' it, ∃ hit : it < pool.length,
        s.pruneOrphanBlocks maxOrphanBlocks rand = some s' ∧
        s'.Inv getHash B (pool.eraseIdx it) ∧ (max 0 maxOrphanBlocks).toNat < pool.length ∧
        ∀ x ∈ pool, x.2.hashPrevBlock ≠ getHash pool[it].2 := by
  rw [OrphanBlocks.pruneOrphanBlocks, h.length]
  split
  case isTrue hle => exact Or.inl ⟨rfl, hle⟩
  case isFalse hlt =>
    have hpos : rand % pool.length < pool.length := Nat.mod_lt _ (by omega)
    obtain ⟨it, hit, hrun, hlast⟩ := h.run_successorBody hrank hpos
    obtain ⟨s', herase, hinv⟩ := h.eraseOrphan hit
    rw [h.length] at hrun
    refine Or.inr ⟨s', it, hit, ?_, hinv, Nat.not_le.mp hlt, hlast⟩
    dsimp only
    rw [hrun]
    exact herase

/-! ### New orphans -/

/-- Where the pool has a new block. -/
def insertBlock (pool : List (Nat × CBlock)) (x : Nat × CBlock) : List (Nat × CBlock) :=
  pool.takeWhile (·.2.hashPrevBlock ≤ x.2.hashPrevBlock) ++
    x :: pool.dropWhile (·.2.hashPrevBlock ≤ x.2.hashPrevBlock)

theorem perm_insertBlock (pool : List (Nat × CBlock)) (x : Nat × CBlock) :
    (insertBlock pool x).Perm (x :: pool) := by
  have hperm := @List.perm_middle _ x (pool.takeWhile (·.2.hashPrevBlock ≤ x.2.hashPrevBlock))
    (pool.dropWhile (·.2.hashPrevBlock ≤ x.2.hashPrevBlock))
  rwa [List.takeWhile_append_dropWhile] at hperm

/-- A block whose hash is not in the pool. -/
theorem Inv.addOrphan (h : s.Inv getHash B pool)
    (hnew : s.mapOrphanBlocks.lookup (getHash block) = none) (hblock : block ∈ B)
    (hsize : block.getSerializeSize ≤ maxSize) :
    (s.addOrphan (getHash block) block).Inv getHash B (insertBlock pool (s.nextPtr, block)) := by
  have hmem : ∀ x, x ∈ insertBlock pool (s.nextPtr, block) ↔ x = (s.nextPtr, block) ∨ x ∈ pool := by
    intro x
    rw [(perm_insertBlock pool _).mem_iff, List.mem_cons]
  have hptr : ∀ x ∈ pool, x.1 ≠ s.nextPtr := fun x hx ↦ (h.lt x hx).ne
  have hhash : ∀ x ∈ pool, getHash x.2 ≠ getHash block := by
    intro x hx heq
    have hl := h.stored.lookup_byHash hx
    rw [heq, hnew] at hl
    cases hl
  refine ⟨Stored.congr ?_ fun x ↦ (hmem x).symm, ?_, ?_, ?_⟩
  · constructor
    case heap_iff =>
      intro ptr orphan
      change (s.heap.insert s.nextPtr (orphanOf getHash block)).lookup ptr = some orphan ↔ _
      by_cases hp : ptr = s.nextPtr
      · subst hp
        rw [Finmap.lookup_insert, Option.some.injEq]
        constructor
        · rintro rfl
          exact ⟨block, Or.inl rfl, rfl⟩
        · rintro ⟨b, heq | hb, ho⟩
          · rw [ho, (Prod.mk.inj heq).2]
          · exact absurd rfl (hptr _ hb)
      · rw [Finmap.lookup_insert_of_ne _ hp, h.stored.heap_iff]
        constructor
        · rintro ⟨b, hb, ho⟩
          exact ⟨b, Or.inr hb, ho⟩
        · rintro ⟨b, heq | hb, ho⟩
          · exact absurd (Prod.mk.inj heq).1 hp
          · exact ⟨b, hb, ho⟩
    case byHash_iff =>
      intro hash ptr
      change (s.mapOrphanBlocks.insert (getHash block) s.nextPtr).lookup hash = some ptr ↔ _
      by_cases hh : hash = getHash block
      · subst hh
        rw [Finmap.lookup_insert, Option.some.injEq]
        constructor
        · rintro rfl
          exact ⟨block, Or.inl rfl, rfl⟩
        · rintro ⟨b, heq | hb, hkey⟩
          · exact (Prod.mk.inj heq).1.symm
          · exact absurd hkey (hhash _ hb)
      · rw [Finmap.lookup_insert_of_ne _ hh, h.stored.byHash_iff]
        constructor
        · rintro ⟨b, hb, hkey⟩
          exact ⟨b, Or.inr hb, hkey⟩
        · rintro ⟨b, heq | hb, hkey⟩
          · rw [(Prod.mk.inj heq).2] at hkey
            exact absurd hkey.symm hh
          · exact ⟨b, hb, hkey⟩
    case inj =>
      rintro x (rfl | hx) y (rfl | hy) heq
      · rfl
      · rcases heq with heq | heq
        · exact absurd heq.symm (hptr y hy)
        · exact absurd heq.symm (hhash y hy)
      · rcases heq with heq | heq
        · exact absurd heq (hptr x hx)
        · exact absurd heq (hhash x hx)
      · exact h.stored.inj x hx y hy heq
    case block =>
      rintro x (rfl | hx)
      · exact ⟨hblock, hsize⟩
      · exact h.stored.block x hx
  · change insertByPrev s.mapOrphanBlocksByPrev (block.hashPrevBlock, s.nextPtr) = _
    rw [insertByPrev, h.byPrev, List.takeWhile_map, List.dropWhile_map, insertBlock,
      List.map_append, List.map_cons]
    rfl
  · rw [(perm_insertBlock pool _).nodup_iff, List.nodup_cons]
    exact ⟨fun hx ↦ hptr _ hx rfl, h.nodup⟩
  · intro x hx
    rcases (hmem x).mp hx with rfl | hx
    · exact Nat.lt_succ_self _
    · exact (h.lt x hx).trans (Nat.lt_succ_self _)

end OrphanBlocks

/-! ## The loops over the orphans of a block -/

namespace ProcessEnv

variable {World : Type} {env : ProcessEnv World} {B : Set CBlock} {r : OrphanWork World}
  {S : Set (Nat × CBlock)} {pool : List (Nat × CBlock)}

open OrphanBlocks

/-- `AcceptBlock` for an orphan. -/
def acceptOrphan (env : ProcessEnv World) (world : World) (block : CBlock) : World × Bool :=
  env.acceptBlock world block none

/-- Handing stored blocks to `AcceptBlock` one after the other, each of which leaves the heap and
`mapOrphanBlocks`. -/
theorem submitOrphans_spec (hB : env.Acyclic B) {mi : List (Nat × CBlock)}
    (h : r.orphans.Stored env.getHash B S) (hmem : ∀ x ∈ mi, x ∈ S) (hnodup : mi.Nodup) :
    ∃ r', env.submitOrphans (mi.map Prod.fst) r = some r' ∧
      r'.orphans.Stored env.getHash B (S \ {x | x ∈ mi}) ∧
      r'.orphans.mapOrphanBlocksByPrev = r.orphans.mapOrphanBlocksByPrev ∧
      r'.orphans.nextPtr = r.orphans.nextPtr ∧
      r'.world = (Release.tryAll env.acceptOrphan r.world (mi.map Prod.snd)).1 ∧
      r'.submitted =
        r.submitted ++ (Release.tryAll env.acceptOrphan r.world (mi.map Prod.snd)).2 ∧
      r'.vWorkQueue = r.vWorkQueue ++ Release.acceptedKeys env.getHash
        (Release.tryAll env.acceptOrphan r.world (mi.map Prod.snd)).2 := by
  induction mi generalizing r S with
  | nil =>
      refine ⟨r, rfl, h.congr fun x ↦ ?_, rfl, rfl, rfl, ?_, ?_⟩
      · simp
      · exact (List.append_nil _).symm
      · exact (List.append_nil _).symm
  | cons x mi ih =>
      have hx : x ∈ S := hmem x List.mem_cons_self
      rw [List.map_cons, submitOrphans, h.lookup_heap hx]
      dsimp only
      rw [h.unserialize hB hx]
      dsimp only
      obtain ⟨hnot, hnodup⟩ := List.nodup_cons.mp hnodup
      have hstored := h.erase hx
      have hrest : ∀ y ∈ mi, y ∈ S \ {x} := by
        intro y hy
        refine ⟨hmem y (List.mem_cons_of_mem x hy), ?_⟩
        rintro rfl
        exact hnot hy
      have hacc : env.acceptOrphan r.world x.2 = env.acceptBlock r.world x.2 none := rfl
      generalize env.acceptBlock r.world x.2 none = accept at hacc
      obtain ⟨r', hrun, hstored', hprev, hptr, hworld, hsubmitted, hqueue⟩ := ih
        (r := { world := accept.1
                orphans := { r.orphans with
                  mapOrphanBlocks := r.orphans.mapOrphanBlocks.erase (env.getHash x.2)
                  heap := r.orphans.heap.erase x.1 }
                vWorkQueue :=
                  if accept.2 then r.vWorkQueue ++ [env.getHash x.2] else r.vWorkQueue
                submitted := r.submitted ++ [(x.2, accept.2)] })
        ⟨hstored.heap_iff, hstored.byHash_iff, hstored.inj, hstored.block⟩ hrest hnodup
      refine ⟨r', hrun, hstored'.congr fun y ↦ ?_, hprev, hptr, ?_, ?_, ?_⟩
      · simp only [Set.mem_sdiff, Set.mem_singleton_iff, Set.mem_ofPred_eq, List.mem_cons, not_or,
          and_assoc]
      · rw [hworld, List.map_cons, Release.tryAll, hacc]
      · rw [hsubmitted, List.map_cons, Release.tryAll, hacc]
        dsimp only
        rw [List.append_assoc, List.singleton_append]
      · rw [hqueue, List.map_cons, Release.tryAll, hacc]
        dsimp only
        cases hok : accept.2 with
        | true => simp [Release.acceptedKeys]
        | false => simp [Release.acceptedKeys]

/-- The loops of the source and those over the pool of blocks are at the same point. -/
def Follows (env : ProcessEnv World) (B : Set CBlock) (r : OrphanWork World)
    (a : Release.State CBlock Uint256 World) : Prop :=
  ∃ pool, r.orphans.Inv env.getHash B pool ∧
    a = { world := r.world, pool := pool.map Prod.snd, queue := r.vWorkQueue, tried := r.submitted }

theorem workBody_follows (hB : env.Acyclic B) {a : Release.State CBlock Uint256 World}
    (h : env.Follows B r a) :
    (∃ r' a', env.workBody r = some (.inl r') ∧
      Release.body env.getHash (·.hashPrevBlock) env.acceptOrphan a = some (.inl a') ∧
      env.Follows B r' a') ∨
    ∃ r' a', env.workBody r = some (.inr r') ∧
      Release.body env.getHash (·.hashPrevBlock) env.acceptOrphan a = some (.inr a') ∧
      env.Follows B r' a' := by
  obtain ⟨pool, hinv, rfl⟩ := h
  cases hq : r.vWorkQueue with
  | nil =>
      refine Or.inl ⟨r, _, ?_, rfl, pool, hinv, by rw [hq]⟩
      rw [workBody, hq]
  | cons hashPrev queue =>
      have hrange : (r.orphans.mapOrphanBlocksByPrev.filter (·.1 = hashPrev)).map Prod.snd =
          (pool.filter (·.2.hashPrevBlock = hashPrev)).map Prod.fst := by
        rw [hinv.byPrev, List.filter_map, List.map_map]
        rfl
      have hsnd : (pool.map Prod.snd).filter (·.hashPrevBlock = hashPrev) =
          (pool.filter (·.2.hashPrevBlock = hashPrev)).map Prod.snd := by
        rw [List.filter_map]
        rfl
      obtain ⟨r', hrun, hstored, hprev, hptr, hworld, hsubmitted, hqueue⟩ := submitOrphans_spec
        (r := { r with vWorkQueue := queue }) hB hinv.stored
        (fun x hx ↦ (List.mem_filter.mp hx).1)
        (hinv.nodup.filter fun x ↦ decide (x.2.hashPrevBlock = hashPrev))
      dsimp only at hprev hptr hworld hsubmitted hqueue
      have hwork : env.workBody r = some (.inr { r' with orphans := { r'.orphans with
          mapOrphanBlocksByPrev :=
            r'.orphans.mapOrphanBlocksByPrev.filter (·.1 ≠ hashPrev) } }) := by
        rw [workBody, hq]
        dsimp only
        rw [hrange, hrun]
      have hstored' : r'.orphans.Stored env.getHash B
          {x | x ∈ pool.filter (·.2.hashPrevBlock ≠ hashPrev)} := by
        refine hstored.congr fun x ↦ ?_
        simp only [Set.mem_sdiff, Set.mem_ofPred_eq, List.mem_filter, decide_eq_true_eq, not_and]
        exact and_congr_right fun hx ↦ ⟨fun h ↦ h hx, fun h _ ↦ h⟩
      refine Or.inr ⟨_, _, hwork, rfl, pool.filter (·.2.hashPrevBlock ≠ hashPrev), ⟨?_, ?_, ?_, ?_⟩,
        ?_⟩
      · exact ⟨hstored'.heap_iff, hstored'.byHash_iff, hstored'.inj, hstored'.block⟩
      · change r'.orphans.mapOrphanBlocksByPrev.filter (·.1 ≠ hashPrev) = _
        rw [hprev, hinv.byPrev, List.filter_map]
        rfl
      · exact hinv.nodup.filter _
      · intro x hx
        change x.1 < r'.orphans.nextPtr
        rw [hptr]
        exact hinv.lt x (List.mem_filter.mp hx).1
      · rw [Release.release]
        dsimp only
        rw [hsnd, hworld, hsubmitted, hqueue, List.filter_map]
        rfl

/-- The loops return, the pool keeps its invariant, and the blocks were submitted as they should
be. -/
theorem run_workBody (hB : env.Acyclic B) {orphans : OrphanBlocks} (world : World) (root : Uint256)
    (h : orphans.Inv env.getHash B pool) :
    ∃ r pool', Loop.run env.workBody (orphans.size + 2)
        { world := world, orphans := orphans, vWorkQueue := [root] } = some r ∧
      r.orphans.Inv env.getHash B pool' ∧
      Release.Released env.getHash (·.hashPrevBlock) root (pool.map Prod.snd) r.submitted
        (pool'.map Prod.snd) := by
  obtain ⟨a, hrun, hreleased⟩ := Release.run_spec env.getHash (·.hashPrevBlock) env.acceptOrphan
    world (pool.map Prod.snd) root
  rw [List.length_map, ← h.length] at hrun
  have hstart : env.Follows B { world := world, orphans := orphans, vWorkQueue := [root] }
      { world := world, pool := pool.map Prod.snd, queue := [root] } := ⟨pool, h, rfl⟩
  obtain ⟨r, hrun', pool', hinv, rfl⟩ := Loop.run_simulates (R := env.Follows B)
    (Q := env.Follows B) (fun _ _ ↦ workBody_follows hB) hstart hrun
  exact ⟨r, pool', hrun', hinv, hreleased⟩

end ProcessEnv

/-! ## Runs -/

namespace OrphanBlocks

/-- The stored blocks, as they are read back. -/
def blocks (s : OrphanBlocks) : List CBlock :=
  s.mapOrphanBlocksByPrev.filterMap fun e ↦
    (s.heap.lookup e.2).bind fun orphan ↦ (CBlock.unserialize orphan.vchBlock).toOption.map Prod.fst

/-- Both maps point to the same objects, by their hashes and by those of their parents, and nothing
else is allocated. -/
structure SameObjects (s : OrphanBlocks) : Prop where
  byHash : ∀ hash ptr, s.mapOrphanBlocks.lookup hash = some ptr ↔
    ∃ orphan, s.heap.lookup ptr = some orphan ∧ orphan.hashBlock = hash
  byPrev : ∀ hashPrev ptr, (hashPrev, ptr) ∈ s.mapOrphanBlocksByPrev ↔
    ∃ orphan, s.heap.lookup ptr = some orphan ∧ orphan.hashPrev = hashPrev
  nodup : (s.mapOrphanBlocksByPrev.map Prod.snd).Nodup

variable {getHash : CBlock → Uint256} {B : Set CBlock} {s : OrphanBlocks}
  {pool : List (Nat × CBlock)}

theorem Inv.blocks {World : Type} {env : ProcessEnv World} (hB : env.Acyclic B)
    (h : s.Inv getHash B pool) : s.blocks = pool.map Prod.snd := by
  rw [OrphanBlocks.blocks, h.byPrev, List.filterMap_map, ← List.filterMap_eq_map]
  apply List.filterMap_congr
  intro x hx
  have hx : x ∈ {x | x ∈ pool} := hx
  simp only [Function.comp_apply, h.stored.lookup_heap hx, Option.bind_some,
    h.stored.unserialize hB hx, Except.toOption, Option.map_some]

theorem Inv.sameObjects (h : s.Inv getHash B pool) : s.SameObjects where
  byHash hash ptr := by
    rw [h.stored.byHash_iff]
    constructor
    · rintro ⟨block, hmem, rfl⟩
      exact ⟨_, h.stored.lookup_heap hmem, rfl⟩
    · rintro ⟨orphan, hl, rfl⟩
      obtain ⟨block, hmem, rfl⟩ := (h.stored.heap_iff _ _).mp hl
      exact ⟨block, hmem, rfl⟩
  byPrev hashPrev ptr := by
    rw [h.byPrev, List.mem_map]
    constructor
    · rintro ⟨x, hx, heq⟩
      obtain ⟨rfl, rfl⟩ := Prod.mk.inj heq
      exact ⟨_, h.stored.lookup_heap hx, rfl⟩
    · rintro ⟨orphan, hl, rfl⟩
      obtain ⟨block, hmem, rfl⟩ := (h.stored.heap_iff _ _).mp hl
      exact ⟨_, hmem, rfl⟩
  nodup := by
    rw [h.byPrev, List.map_map]
    exact h.nodup.map_on fun x hx y hy heq ↦ h.stored.inj x hx y hy (Or.inl heq)

theorem Inv.nodup_blocks (h : s.Inv getHash B pool) : (pool.map Prod.snd).Nodup :=
  h.nodup.map_on fun x hx y hy heq ↦ h.stored.inj x hx y hy (Or.inr (congrArg getHash heq))

end OrphanBlocks

inductive OrphanBlockCall (World : Type)
  | processBlock (pfrom : Bool) (block : CBlock) (dbp : Option CDiskBlockPos) (rand : Nat)
  /-- Whatever the rest of the node does between two blocks. -/
  | other (world : World)

namespace ProcessEnv

variable {World : Type} {env : ProcessEnv World} {B : Set CBlock} {orphans orphans' : OrphanBlocks}
  {pool : List (Nat × CBlock)} {world world' : World} {block : CBlock}

open OrphanBlocks

/-- One call; the blocks are from `B`. -/
def Step (env : ProcessEnv World) (B : Set CBlock) (s : OrphanBlocks × World) :
    OrphanBlockCall World → OrphanBlocks × World → Prop
  | .processBlock pfrom block dbp rand, s' =>
      block ∈ B ∧ ∃ r, env.processBlock s.1 s.2 pfrom block dbp rand = some (s'.1, s'.2, r)
  | .other world, s' => s' = (s.1, world)

theorem size_of_checkBlock {nHeight : Int} {fCheckPOW fCheckMerkleRoot : Bool}
    (h : checkBlock env.blockEnv block nHeight fCheckPOW fCheckMerkleRoot = .ok ()) :
    block.getSerializeSize ≤ maxSize := by
  simp only [checkBlock, bind_eq_ok, failIf_eq_ok, exists_const] at h
  obtain ⟨_, _, hlen, _⟩ := h
  simp only [Bool.or_eq_false_iff, decide_eq_false_iff_not, not_lt] at hlen
  exact hlen.2.trans (by decide)

/-- `ProcessBlock` returns, and keeps the invariant and the bound. -/
theorem processBlock_spec (hB : env.Acyclic B) (h : orphans.Inv env.getHash B pool)
    (hle : pool.length ≤ (max 0 env.maxOrphanBlocks).toNat + 1) (world : World) (pfrom : Bool)
    (hblock : block ∈ B) (dbp : Option CDiskBlockPos) (rand : Nat) :
    ∃ orphans' world' r pool',
      env.processBlock orphans world pfrom block dbp rand = some (orphans', world', r) ∧
      orphans'.Inv env.getHash B pool' ∧
      pool'.length ≤ (max 0 env.maxOrphanBlocks).toNat + 1 ∧
      ∀ submitted, r = .accepted submitted →
        Release.Released env.getHash (·.hashPrevBlock) (env.getHash block) (pool.map Prod.snd)
          submitted (pool'.map Prod.snd) := by
  obtain ⟨rank, hrank⟩ := hB.exists_rank
  rw [processBlock]
  dsimp only
  by_cases hindex : env.haveIndex world (env.getHash block) = true
  · rw [if_pos hindex]
    exact ⟨_, _, _, pool, rfl, h, hle, nofun⟩
  rw [if_neg hindex]
  by_cases hdup : (orphans.mapOrphanBlocks.lookup (env.getHash block)).isSome = true
  · rw [if_pos hdup]
    exact ⟨_, _, _, pool, rfl, h, hle, nofun⟩
  rw [if_neg hdup]
  cases hcheck : checkBlock env.blockEnv block intMax true true with
  | error e => exact ⟨_, _, _, pool, rfl, h, hle, nofun⟩
  | ok _ =>
      dsimp only
      by_cases hdata : block.hashPrevBlock ≠ 0 ∧ env.haveData world block.hashPrevBlock = false
      · rw [if_pos hdata]
        cases pfrom with
        | false => exact ⟨_, _, _, pool, rfl, h, hle, nofun⟩
        | true =>
            -- at most one block goes before this one comes
            have hprune : ∃ s₁ pool₁, orphans.pruneOrphanBlocks env.maxOrphanBlocks rand = some s₁ ∧
                s₁.Inv env.getHash B pool₁ ∧
                pool₁.length ≤ (max 0 env.maxOrphanBlocks).toNat ∧
                s₁.mapOrphanBlocks.lookup (env.getHash block) = none := by
              have hnew : orphans.mapOrphanBlocks.lookup (env.getHash block) = none :=
                Option.not_isSome_iff_eq_none.mp hdup
              rcases h.pruneOrphanBlocks hrank env.maxOrphanBlocks rand with
                ⟨hrun, hlen⟩ | ⟨s₁, it, hit, hrun, hinv, hlt, -⟩
              · exact ⟨orphans, pool, hrun, h, hlen, hnew⟩
              · refine ⟨s₁, _, hrun, hinv, ?_, ?_⟩
                · rw [List.length_eraseIdx_of_lt hit]
                  omega
                · rw [Option.eq_none_iff_forall_not_mem]
                  intro ptr hptr
                  obtain ⟨b, hmem, hkey⟩ := (hinv.stored.byHash_iff _ _).mp hptr
                  have hl := (h.stored.byHash_iff _ ptr).mpr
                    ⟨b, List.mem_of_mem_eraseIdx hmem, hkey⟩
                  rw [hnew] at hl
                  cases hl
            obtain ⟨s₁, pool₁, hrun, hinv, hlen, hnew⟩ := hprune
            have hadd := hinv.addOrphan hnew hblock (size_of_checkBlock hcheck)
            obtain ⟨root, hroot⟩ := hadd.getOrphanRoot hrank (env.getHash block)
            simp only [Bool.not_true, Bool.false_eq_true, if_false, hrun, Option.bind_eq_bind,
              Option.bind_some, hroot]
            refine ⟨_, _, _, _, rfl, hadd, ?_, nofun⟩
            rw [(perm_insertBlock _ _).length_eq, List.length_cons]
            exact Nat.succ_le_succ hlen
      · rw [if_neg hdata]
        generalize env.acceptBlock world block dbp = accept
        cases hok : accept.2 with
        | false => exact ⟨_, _, _, pool, rfl, h, hle, nofun⟩
        | true =>
            obtain ⟨r, pool', hrun, hinv, hreleased⟩ :=
              run_workBody hB accept.1 (env.getHash block) h
            simp only [Bool.not_true, Bool.false_eq_true, if_false, hrun, Option.bind_eq_bind,
              Option.bind_some]
            refine ⟨_, _, _, pool', rfl, hinv, ?_, ?_⟩
            · have hlen := hreleased.perm.length_eq
              simp only [List.length_append, List.length_map] at hlen
              omega
            · intro submitted hr
              obtain rfl := Processed.accepted.inj hr
              exact hreleased

theorem Step.inv {call : OrphanBlockCall World} {s s' : OrphanBlocks × World} (hB : env.Acyclic B)
    (hs : ∃ pool, s.1.Inv env.getHash B pool ∧
      pool.length ≤ (max 0 env.maxOrphanBlocks).toNat + 1)
    (h : env.Step B s call s') :
    ∃ pool, s'.1.Inv env.getHash B pool ∧
      pool.length ≤ (max 0 env.maxOrphanBlocks).toNat + 1 := by
  obtain ⟨pool, hinv, hle⟩ := hs
  cases call with
  | other world =>
      obtain rfl : s' = (s.1, world) := h
      exact ⟨pool, hinv, hle⟩
  | processBlock pfrom block dbp rand =>
      obtain ⟨hblock, r, hrun⟩ := h
      obtain ⟨orphans', world', r', pool', hrun', hinv', hle', -⟩ :=
        processBlock_spec hB hinv hle s.2 pfrom hblock dbp rand
      obtain ⟨hs', -⟩ := Prod.mk.inj (Option.some.inj (hrun.symm.trans hrun'))
      exact ⟨pool', hs' ▸ hinv', hle'⟩

end ProcessEnv

open OrphanBlocks in
/-- **The pool of orphan blocks.**  In every state that blocks lead to, both maps hold the same
objects, not more than `-maxorphanblocks` and one of them.  `PruneOrphanBlocks` returns, and takes
out nothing or one block on which no other one in the pool depends.  `ProcessBlock` returns on every
further block, and if it accepts the block, what it handed to `AcceptBlock` is what descends from
the block through accepted ones: each orphan once, after its parent, and out of the pool. -/
theorem orphanBlocks_resolved {World : Type} {env : ProcessEnv World} {B : Set CBlock}
    {world₀ world : World} {s : OrphanBlocks} {calls : List (OrphanBlockCall World)}
    (hB : env.Acyclic B) (h : Run (env.Step B) (.empty, world₀) calls (s, world)) :
    s.SameObjects ∧ s.size ≤ (max 0 env.maxOrphanBlocks).toNat + 1 ∧ s.blocks.length = s.size ∧
    (∀ maxOrphanBlocks rand, ∃ s', s.pruneOrphanBlocks maxOrphanBlocks rand = some s' ∧
      (s' = s ∨ ∃ it, ∃ hit : it < s.blocks.length, s'.blocks = s.blocks.eraseIdx it ∧
        ∀ block ∈ s.blocks, block.hashPrevBlock ≠ env.getHash s.blocks[it])) ∧
    ∀ pfrom block dbp rand, block ∈ B → ∃ s' world' r,
      env.processBlock s world pfrom block dbp rand = some (s', world', r) ∧
      ∀ submitted, r = .accepted submitted →
        Release.Released env.getHash (·.hashPrevBlock) (env.getHash block) s.blocks submitted
          s'.blocks ∧
        (submitted.map Prod.fst ++ s'.blocks).Nodup ∧
        ∀ orphan, orphan ∈ submitted.map Prod.fst ↔
          Release.Descends env.getHash (·.hashPrevBlock) (env.getHash block) s.blocks submitted
            orphan := by
  obtain ⟨pool, hinv, hle⟩ := h.invariant (I := fun s ↦ ∃ pool, s.1.Inv env.getHash B pool ∧
      pool.length ≤ (max 0 env.maxOrphanBlocks).toNat + 1)
    (fun _ _ _ ↦ ProcessEnv.Step.inv hB) ⟨[], inv_empty, Nat.zero_le _⟩
  dsimp only at hinv
  obtain ⟨rank, hrank⟩ := hB.exists_rank
  have hblocks := hinv.blocks hB
  refine ⟨hinv.sameObjects, hinv.length ▸ hle, ?_, ?_, ?_⟩
  · rw [hblocks, List.length_map, hinv.length]
  · intro maxOrphanBlocks rand
    rcases hinv.pruneOrphanBlocks hrank maxOrphanBlocks rand with
      ⟨hrun, -⟩ | ⟨s', it, hit, hrun, hinv', -, hlast⟩
    · exact ⟨s, hrun, Or.inl rfl⟩
    · refine ⟨s', hrun, Or.inr ⟨it, by rwa [hblocks, List.length_map], ?_, ?_⟩⟩
      · rw [hinv'.blocks hB, hblocks, List.eraseIdx_map]
      · simp only [hblocks, List.getElem_map, List.forall_mem_map]
        exact hlast
  · intro pfrom block dbp rand hblock
    obtain ⟨s', world', r, pool', hrun, hinv', -, hreleased⟩ :=
      ProcessEnv.processBlock_spec hB hinv hle world pfrom hblock dbp rand
    refine ⟨s', world', r, hrun, fun submitted hr ↦ ?_⟩
    have hrel := hreleased submitted hr
    rw [hblocks, hinv'.blocks hB]
    exact ⟨hrel, hrel.perm.nodup_iff.mpr hinv.nodup_blocks, fun orphan ↦ hrel.mem_iff⟩

/-- A node that accepts every block; its state is the hashes it accepted. -/
def sampleProcessEnv : ProcessEnv (List Uint256) where
  blockEnv := sampleEnv
  maxOrphanBlocks := 1
  haveIndex world hash := world.contains hash
  haveData world hash := world.contains hash
  acceptBlock world block _ := (BitVec.ofNat 256 block.nNonce :: world, true)

/-- A block with a coinbase alone. -/
def sampleOrphanBlock (hashPrev : Uint256) (nNonce : Nat) : CBlock :=
  { sampleBlock with
    hashPrevBlock := hashPrev, nNonce := nNonce, hashMerkleRoot := 1
    vtx := sampleBlock.vtx.take 1 }

/-- Blocks that build on smaller hashes. -/
theorem sampleProcessEnv_acyclic : sampleProcessEnv.Acyclic
    {block | block.WellTyped ∧ block.hashPrevBlock < sampleProcessEnv.getHash block} where
  wellTyped block h := h.1
  acyclic hash h := by
    have hlt : ∀ a b, Relation.TransGen (fun a b ↦ ∃ block ∈
        {block : CBlock | block.WellTyped ∧ block.hashPrevBlock < sampleProcessEnv.getHash block},
        block.hashPrevBlock = a ∧ sampleProcessEnv.getHash block = b) a b → a < b := by
      intro a b h
      induction h with
      | single h =>
          obtain ⟨block, hblock, rfl, rfl⟩ := h
          exact hblock.2
      | tail _ h ih =>
          obtain ⟨block, hblock, rfl, rfl⟩ := h
          exact BitVec.lt_trans ih hblock.2
    exact BitVec.lt_irrefl hash (hlt hash hash h)

theorem sampleOrphanBlock_mem (hashPrev : Uint256) (nNonce : Nat) (hle : nNonce ≤ uintMax)
    (h : hashPrev < BitVec.ofNat 256 nNonce) : sampleOrphanBlock hashPrev nNonce ∈
      {block | block.WellTyped ∧ block.hashPrevBlock < sampleProcessEnv.getHash block} := by
  have hheader := sampleBlock_wellTyped.header
  exact ⟨⟨⟨hheader.nVersion, hheader.nTime, hheader.nBits, hle⟩,
    fun tx htx ↦ sampleBlock_wellTyped.vtx tx (List.mem_of_mem_take htx)⟩, h⟩

/-- Two orphans, one on top of the other, wait for a block. -/
theorem orphanBlocks_resolved_sample :
    ∃ s, Run (sampleProcessEnv.Step
          {block | block.WellTyped ∧ block.hashPrevBlock < sampleProcessEnv.getHash block})
        (.empty, []) [.processBlock true (sampleOrphanBlock 2 3) none 0,
          .processBlock true (sampleOrphanBlock 1 2) none 0] (s, []) ∧
      s.size = 2 ∧ ∃ s' world' r,
        sampleProcessEnv.processBlock s [] false (sampleOrphanBlock 0 1) none 0 =
          some (s', world', r) ∧ world' = [3, 2, 1] := by
  have hrun : ∃ s, Run (sampleProcessEnv.Step
        {block | block.WellTyped ∧ block.hashPrevBlock < sampleProcessEnv.getHash block})
      (.empty, []) [.processBlock true (sampleOrphanBlock 2 3) none 0,
        .processBlock true (sampleOrphanBlock 1 2) none 0] (s, []) ∧ s.size = 2 ∧
      (sampleProcessEnv.processBlock s [] false (sampleOrphanBlock 0 1) none 0).map (·.2.1) =
        some [3, 2, 1] := by
    refine ⟨_, Run.cons_iff.mpr
      ⟨(_, _), ⟨sampleOrphanBlock_mem _ _ (by decide) (by decide), _, rfl⟩,
      Run.cons_iff.mpr ⟨(_, _), ⟨sampleOrphanBlock_mem _ _ (by decide) (by decide), _, rfl⟩,
        .nil _⟩⟩, ?_, ?_⟩
    · rfl
    · decide +kernel
  obtain ⟨s, hrun, hsize, hworld⟩ := hrun
  obtain ⟨-, -, -, -, hprocess⟩ := orphanBlocks_resolved sampleProcessEnv_acyclic hrun
  obtain ⟨s', world', r, hr, -⟩ := hprocess false (sampleOrphanBlock 0 1) none 0
    (sampleOrphanBlock_mem _ _ (by decide) (by decide))
  rw [hr] at hworld
  exact ⟨s, hrun, hsize, s', world', r, hr, Option.some.inj hworld⟩

end Fedoracoin
