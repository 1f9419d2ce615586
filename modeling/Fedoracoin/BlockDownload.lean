import Fedoracoin.OrphanTxs
import Fedoracoin.Lib.Positions

/-!
# Block download

The bookkeeping of `main.cpp` about the blocks that are to be downloaded and those that are in
flight: a list of each kind for every peer, and two maps from the hashes into these lists.

A `std::list` is the list of its cells, and an iterator is the identity of a cell.  Following a
null pointer, erasing through an iterator to a cell that is gone and a failed `assert` have no
value.
-/

namespace Fedoracoin

open Positions

structure QueuedBlock where
  hash : Uint256
  /-- Time of "getdata" request in microseconds. -/
  nTime : Int
  /-- Number of blocks in flight at the time of request. -/
  nQueuedBefore : Int
deriving DecidableEq

structure CNodeState where
  /-- Accumulated misbehaviour score for this peer. -/
  nMisbehavior : Int := 0
  /-- Whether this peer should be disconnected and banned. -/
  fShouldBan : Bool := false
  name : String := ""
  vBlocksInFlight : Cells QueuedBlock := []
  nBlocksInFlight : Int := 0
  vBlocksToDownload : Cells Uint256 := []
  nBlocksToDownload : Int := 0
  nLastBlockReceive : Int := 0
deriving DecidableEq

def maxBlocksInTransitPerPeer : Int := 128

structure BlockDownloads where
  mapNodeState : Finmap fun _ : NodeId ↦ CNodeState
  mapBlocksInFlight : Finmap fun _ : Uint256 ↦ NodeId × Nat
  mapBlocksToDownload : Finmap fun _ : Uint256 ↦ NodeId × Nat
  /-- The next cell that a list gets. -/
  nextCell : Nat := 0

namespace BlockDownloads

def empty : BlockDownloads :=
  { mapNodeState := ∅, mapBlocksInFlight := ∅, mapBlocksToDownload := ∅ }

/-- `State`. -/
def state (s : BlockDownloads) (pnode : NodeId) : Option CNodeState := s.mapNodeState.lookup pnode

def setState (s : BlockDownloads) (pnode : NodeId) (state : CNodeState) : BlockDownloads :=
  { s with mapNodeState := s.mapNodeState.insert pnode state }

/-- `InitializeNode`; a peer that is known keeps its state. -/
def initializeNode (s : BlockDownloads) (nodeid : NodeId) (addrName : String) : BlockDownloads :=
  s.setState nodeid { (s.state nodeid).getD {} with name := addrName }

/-- `FinalizeNode`, as far as it concerns blocks. -/
def finalizeNode (s : BlockDownloads) (nodeid : NodeId) : Option BlockDownloads := do
  let state ← s.state nodeid
  return { s with
    mapBlocksInFlight := state.vBlocksInFlight.foldl
      (fun m entry ↦ m.erase entry.2.hash) s.mapBlocksInFlight
    mapBlocksToDownload := state.vBlocksToDownload.foldl
      (fun m entry ↦ m.erase entry.2) s.mapBlocksToDownload
    mapNodeState := s.mapNodeState.erase nodeid }

/-- The first half of `MarkBlockAsReceived`. -/
def forgetToDownload (s : BlockDownloads) (hash : Uint256) : Option BlockDownloads :=
  match s.mapBlocksToDownload.lookup hash with
  | none => some s
  | some (nodeid, it) => do
      let state ← s.state nodeid
      let vBlocksToDownload ← eraseCell state.vBlocksToDownload it
      let s := s.setState nodeid { state with
        vBlocksToDownload := vBlocksToDownload
        nBlocksToDownload := state.nBlocksToDownload - 1 }
      return { s with mapBlocksToDownload := s.mapBlocksToDownload.erase hash }

/-- The second half of `MarkBlockAsReceived`. -/
def forgetInFlight (s : BlockDownloads) (hash : Uint256) (nodeFrom : NodeId) (nNow : Int) :
    Option BlockDownloads :=
  match s.mapBlocksInFlight.lookup hash with
  | none => some s
  | some (nodeid, it) => do
      let state ← s.state nodeid
      let vBlocksInFlight ← eraseCell state.vBlocksInFlight it
      let s := s.setState nodeid { state with
        vBlocksInFlight := vBlocksInFlight
        nBlocksInFlight := state.nBlocksInFlight - 1
        nLastBlockReceive := if nodeid = nodeFrom then nNow else state.nLastBlockReceive }
      return { s with mapBlocksInFlight := s.mapBlocksInFlight.erase hash }

/-- `MarkBlockAsReceived`; `nNow` is `GetTimeMicros()`. -/
def markBlockAsReceived (s : BlockDownloads) (hash : Uint256) (nodeFrom : NodeId) (nNow : Int) :
    Option BlockDownloads := do
  let s ← s.forgetToDownload hash
  s.forgetInFlight hash nodeFrom nNow

/-- `Misbehaving`. -/
def misbehaving (banscore : Int) (s : BlockDownloads) (pnode : NodeId) (howmuch : Int) :
    BlockDownloads :=
  if howmuch = 0 then s
  else
    match s.state pnode with
    | none => s
    | some state =>
        s.setState pnode { state with
          nMisbehavior := state.nMisbehavior + howmuch
          fShouldBan := state.fShouldBan || decide (banscore ≤ state.nMisbehavior + howmuch) }

/-- `AddBlockToQueue`. -/
def addBlockToQueue (banscore : Int) (s : BlockDownloads) (nodeid : NodeId) (hash : Uint256) :
    BlockDownloads × Bool :=
  if (s.mapBlocksToDownload.lookup hash).isSome || (s.mapBlocksInFlight.lookup hash).isSome then
    (s, false)
  else
    match s.state nodeid with
    | none => (s, false)
    | some state =>
        let it := s.nextCell
        let state := { state with
          vBlocksToDownload := state.vBlocksToDownload ++ [(it, hash)]
          nBlocksToDownload := state.nBlocksToDownload + 1 }
        let s := { s.setState nodeid state with nextCell := it + 1 }
        let s := if 5000 < state.nBlocksToDownload then s.misbehaving banscore nodeid 10 else s
        ({ s with mapBlocksToDownload := s.mapBlocksToDownload.insert hash (nodeid, it) }, true)

/-- `MarkBlockAsInFlight`. -/
def markBlockAsInFlight (s : BlockDownloads) (nodeid : NodeId) (hash : Uint256) (nNow : Int) :
    Option BlockDownloads := do
  let _ ← s.state nodeid
  -- Make sure it's not listed somewhere already.
  let s ← s.markBlockAsReceived hash (-1) nNow
  let state ← s.state nodeid
  let it := s.nextCell
  let s := s.setState nodeid { state with
    nLastBlockReceive := if state.nBlocksInFlight = 0 then nNow else state.nLastBlockReceive
    vBlocksInFlight := state.vBlocksInFlight ++ [(it, ⟨hash, nNow, state.nBlocksInFlight⟩)]
    nBlocksInFlight := state.nBlocksInFlight + 1 }
  return { s with
    mapBlocksInFlight := s.mapBlocksInFlight.insert hash (nodeid, it)
    nextCell := it + 1 }

/-- An iteration of the loop of `SendMessages` that asks for blocks, with the hashes asked for. -/
def getDataBody (pto : NodeId) (nNow : Nat → Int) (p : BlockDownloads × List Uint256) :
    Option ((BlockDownloads × List Uint256) ⊕ (BlockDownloads × List Uint256)) :=
  match p.1.state pto with
  | none => none
  | some state =>
      if state.nBlocksToDownload ≠ 0 ∧ state.nBlocksInFlight < maxBlocksInTransitPerPeer then
        match state.vBlocksToDownload with
        | [] => none
        | (_, hash) :: _ =>
            (p.1.markBlockAsInFlight pto hash (nNow p.2.length)).map fun s ↦
              .inr (s, p.2 ++ [hash])
      else some (.inl p)

/-- The part of `SendMessages` that asks a peer for blocks. -/
def sendGetData (s : BlockDownloads) (pto : NodeId) (fDisconnect : Bool) (nNow : Nat → Int) :
    Option (BlockDownloads × List Uint256) :=
  if fDisconnect then some (s, [])
  else do
    let state ← s.state pto
    Loop.run (getDataBody pto nNow) (state.vBlocksToDownload.length + 1) (s, [])

end BlockDownloads

/-- The calls that change the bookkeeping. -/
inductive DownloadCall where
  | initializeNode (nodeid : NodeId) (addrName : String)
  | finalizeNode (nodeid : NodeId)
  | addBlockToQueue (nodeid : NodeId) (hash : Uint256)
  | markBlockAsInFlight (nodeid : NodeId) (hash : Uint256) (nNow : Int)
  | markBlockAsReceived (hash : Uint256) (nodeFrom : NodeId) (nNow : Int)
  | sendGetData (pto : NodeId) (fDisconnect : Bool) (nNow : Nat → Int)

def DownloadCall.run (banscore : Int) (s : BlockDownloads) : DownloadCall → Option BlockDownloads
  | .initializeNode nodeid addrName => some (s.initializeNode nodeid addrName)
  | .finalizeNode nodeid => s.finalizeNode nodeid
  | .addBlockToQueue nodeid hash => some (s.addBlockToQueue banscore nodeid hash).1
  | .markBlockAsInFlight nodeid hash nNow => s.markBlockAsInFlight nodeid hash nNow
  | .markBlockAsReceived hash nodeFrom nNow => s.markBlockAsReceived hash nodeFrom nNow
  | .sendGetData pto fDisconnect nNow => (s.sendGetData pto fDisconnect nNow).map Prod.fst

/-- One call. -/
def DownloadStep (banscore : Int) (s : BlockDownloads) (call : DownloadCall)
    (s' : BlockDownloads) : Prop :=
  call.run banscore s = some s'

/-- The peer that a call takes for known. -/
def DownloadCall.peer : DownloadCall → Option NodeId
  | .finalizeNode nodeid => some nodeid
  | .markBlockAsInFlight nodeid _ _ => some nodeid
  | .sendGetData pto _ _ => some pto
  | _ => none

namespace BlockDownloads

variable {s s' : BlockDownloads} {p q nodeid nodeFrom : NodeId} {st : CNodeState} {hash : Uint256}
  {nNow : Int}

/-! ## The invariant -/

/-- The list of a peer; one that is not known has none. -/
def listToDownload (s : BlockDownloads) (p : NodeId) : Cells Uint256 :=
  (s.state p).elim [] CNodeState.vBlocksToDownload

def listInFlight (s : BlockDownloads) (p : NodeId) : Cells QueuedBlock :=
  (s.state p).elim [] CNodeState.vBlocksInFlight

structure Inv (s : BlockDownloads) : Prop where
  toDownload : Tracks s.listToDownload (fun hash ↦ hash) s.mapBlocksToDownload
  inFlight : Tracks s.listInFlight QueuedBlock.hash s.mapBlocksInFlight
  disjoint : ∀ hash, s.mapBlocksToDownload.lookup hash = none ∨
    s.mapBlocksInFlight.lookup hash = none
  nBlocksToDownload : ∀ {p st}, s.state p = some st →
    st.nBlocksToDownload = st.vBlocksToDownload.length
  nBlocksInFlight : ∀ {p st}, s.state p = some st →
    st.nBlocksInFlight = st.vBlocksInFlight.length
  toDownload_lt : ∀ p, ∀ x ∈ s.listToDownload p, x.1 < s.nextCell
  inFlight_lt : ∀ p, ∀ x ∈ s.listInFlight p, x.1 < s.nextCell

theorem inv_empty : empty.Inv where
  toDownload := tracks_empty _
  inFlight := tracks_empty _
  disjoint _ := Or.inl rfl
  nBlocksToDownload h := absurd h (by simp [empty, state])
  nBlocksInFlight h := absurd h (by simp [empty, state])
  toDownload_lt p x hx := absurd hx List.not_mem_nil
  inFlight_lt p x hx := absurd hx List.not_mem_nil

theorem state_setState (s : BlockDownloads) (p q : NodeId) (st : CNodeState) :
    (s.setState p st).state q = if q = p then some st else s.state q := by
  by_cases hq : q = p
  · rw [if_pos hq, hq]
    exact Finmap.lookup_insert _
  · rw [if_neg hq]
    exact Finmap.lookup_insert_of_ne _ hq

@[simp] theorem listToDownload_setState (s : BlockDownloads) (p : NodeId) (st : CNodeState) :
    (s.setState p st).listToDownload =
      Function.update s.listToDownload p st.vBlocksToDownload := by
  funext q
  rw [listToDownload, state_setState]
  by_cases hq : q = p
  · subst hq
    rw [if_pos rfl, Function.update_self]
    rfl
  · rw [if_neg hq, Function.update_of_ne hq]
    rfl

@[simp] theorem listInFlight_setState (s : BlockDownloads) (p : NodeId) (st : CNodeState) :
    (s.setState p st).listInFlight = Function.update s.listInFlight p st.vBlocksInFlight := by
  funext q
  rw [listInFlight, state_setState]
  by_cases hq : q = p
  · subst hq
    rw [if_pos rfl, Function.update_self]
    rfl
  · rw [if_neg hq, Function.update_of_ne hq]
    rfl

theorem listToDownload_of_state (h : s.state p = some st) :
    s.listToDownload p = st.vBlocksToDownload := by
  rw [listToDownload, h, Option.elim_some]

theorem listInFlight_of_state (h : s.state p = some st) :
    s.listInFlight p = st.vBlocksInFlight := by
  rw [listInFlight, h, Option.elim_some]

/-- Something listed belongs to a peer that is known. -/
theorem exists_state_of_toDownload {x : Nat × Uint256} (h : x ∈ s.listToDownload p) :
    ∃ st, s.state p = some st := by
  cases hst : s.state p with
  | some st => exact ⟨st, rfl⟩
  | none =>
      rw [listToDownload, hst] at h
      exact absurd h List.not_mem_nil

theorem exists_state_of_inFlight {x : Nat × QueuedBlock} (h : x ∈ s.listInFlight p) :
    ∃ st, s.state p = some st := by
  cases hst : s.state p with
  | some st => exact ⟨st, rfl⟩
  | none =>
      rw [listInFlight, hst] at h
      exact absurd h List.not_mem_nil

/-- A change of one peer, with the positions of what it lists. -/
theorem Inv.update {st' : CNodeState} {down flight : Finmap fun _ : Uint256 ↦ NodeId × Nat}
    {next : Nat} (hs : s.Inv)
    (hdown : Tracks (Function.update s.listToDownload p st'.vBlocksToDownload)
      (fun hash ↦ hash) down)
    (hflight : Tracks (Function.update s.listInFlight p st'.vBlocksInFlight)
      QueuedBlock.hash flight)
    (hdisjoint : ∀ hash, down.lookup hash = none ∨ flight.lookup hash = none)
    (hnDown : st'.nBlocksToDownload = st'.vBlocksToDownload.length)
    (hnFlight : st'.nBlocksInFlight = st'.vBlocksInFlight.length)
    (hnext : s.nextCell ≤ next) (hdownLt : ∀ x ∈ st'.vBlocksToDownload, x.1 < next)
    (hflightLt : ∀ x ∈ st'.vBlocksInFlight, x.1 < next) :
    { s.setState p st' with
      mapBlocksToDownload := down, mapBlocksInFlight := flight, nextCell := next }.Inv := by
  have hd := listToDownload_setState s p st'
  have hf := listInFlight_setState s p st'
  constructor
  case toDownload => exact hdown.congr fun q ↦ congrFun hd q
  case inFlight => exact hflight.congr fun q ↦ congrFun hf q
  case disjoint => exact hdisjoint
  case nBlocksToDownload =>
    intro q st hq
    change (s.setState p st').state q = _ at hq
    rw [state_setState] at hq
    split at hq
    case isTrue =>
      obtain rfl := Option.some.inj hq
      exact hnDown
    case isFalse => exact hs.nBlocksToDownload hq
  case nBlocksInFlight =>
    intro q st hq
    change (s.setState p st').state q = _ at hq
    rw [state_setState] at hq
    split at hq
    case isTrue =>
      obtain rfl := Option.some.inj hq
      exact hnFlight
    case isFalse => exact hs.nBlocksInFlight hq
  case toDownload_lt =>
    intro q x hx
    change x ∈ (s.setState p st').listToDownload q at hx
    rw [hd] at hx
    by_cases hq : q = p
    · rw [hq, Function.update_self] at hx
      exact hdownLt x hx
    · rw [Function.update_of_ne hq] at hx
      exact (hs.toDownload_lt q x hx).trans_le hnext
  case inFlight_lt =>
    intro q x hx
    change x ∈ (s.setState p st').listInFlight q at hx
    rw [hf] at hx
    by_cases hq : q = p
    · rw [hq, Function.update_self] at hx
      exact hflightLt x hx
    · rw [Function.update_of_ne hq] at hx
      exact (hs.inFlight_lt q x hx).trans_le hnext

/-- A change of one peer that leaves both lists as they are. -/
theorem Inv.setState_of_same {st' : CNodeState} (hs : s.Inv)
    (hdown : st'.vBlocksToDownload = s.listToDownload p)
    (hflight : st'.vBlocksInFlight = s.listInFlight p)
    (hnDown : st'.nBlocksToDownload = st'.vBlocksToDownload.length)
    (hnFlight : st'.nBlocksInFlight = st'.vBlocksInFlight.length) : (s.setState p st').Inv := by
  refine hs.update ?_ ?_ hs.disjoint hnDown hnFlight (le_refl s.nextCell) ?_ ?_
  · rw [hdown, Function.update_eq_self]
    exact hs.toDownload
  · rw [hflight, Function.update_eq_self]
    exact hs.inFlight
  · exact hdown ▸ hs.toDownload_lt p
  · exact hflight ▸ hs.inFlight_lt p

/-! ### Peers -/

theorem Inv.initializeNode (hs : s.Inv) (nodeid : NodeId) (addrName : String) :
    (s.initializeNode nodeid addrName).Inv := by
  rw [BlockDownloads.initializeNode]
  cases hst : s.state nodeid with
  | none =>
      apply hs.setState_of_same
      · rw [listToDownload, hst]; rfl
      · rw [listInFlight, hst]; rfl
      · rfl
      · rfl
  | some st =>
      apply hs.setState_of_same
      · exact (listToDownload_of_state hst).symm
      · exact (listInFlight_of_state hst).symm
      · exact (hs.nBlocksToDownload hst :)
      · exact (hs.nBlocksInFlight hst :)

theorem Inv.misbehaving (hs : s.Inv) (banscore : Int) (p : NodeId) (howmuch : Int) :
    (s.misbehaving banscore p howmuch).Inv := by
  rw [BlockDownloads.misbehaving]
  split
  case isTrue => exact hs
  case isFalse =>
    cases hst : s.state p with
    | none => exact hs
    | some st =>
        apply hs.setState_of_same
        · exact (listToDownload_of_state hst).symm
        · exact (listInFlight_of_state hst).symm
        · exact (hs.nBlocksToDownload hst :)
        · exact (hs.nBlocksInFlight hst :)

/-- `Misbehaving` neither looks at the maps nor changes them. -/
theorem misbehaving_insert (banscore : Int) (s : BlockDownloads) (p : NodeId) (howmuch : Int)
    (hash : Uint256) (pos : NodeId × Nat) :
    { s.misbehaving banscore p howmuch with
      mapBlocksToDownload :=
        (s.misbehaving banscore p howmuch).mapBlocksToDownload.insert hash pos } =
      { s with mapBlocksToDownload := s.mapBlocksToDownload.insert hash pos }.misbehaving
        banscore p howmuch := by
  rw [misbehaving, misbehaving]
  split
  case isTrue => rfl
  case isFalse =>
    change _ = match s.state p with
      | none => _
      | some state => _
    cases s.state p with
    | none => rfl
    | some st => rfl

theorem Inv.finalizeNode (hs : s.Inv) (h : s.finalizeNode nodeid = some s') : s'.Inv := by
  rw [BlockDownloads.finalizeNode] at h
  obtain ⟨st, hst, heq⟩ := Option.bind_eq_some_iff.mp h
  have heq := Option.some.inj heq
  have hdown := hs.toDownload.drop nodeid
  have hflight := hs.inFlight.drop nodeid
  rw [listToDownload_of_state hst] at hdown
  rw [listInFlight_of_state hst] at hflight
  have hstate : ∀ q, s'.state q = if q = nodeid then none else s.state q := by
    intro q
    rw [← heq]
    by_cases hq : q = nodeid
    · rw [if_pos hq, hq]
      exact Finmap.lookup_erase _ _
    · rw [if_neg hq]
      exact Finmap.lookup_erase_ne hq
  have hd : s'.listToDownload = Function.update s.listToDownload nodeid [] := by
    funext q
    rw [listToDownload, hstate]
    by_cases hq : q = nodeid
    · rw [if_pos hq, hq, Function.update_self]; rfl
    · rw [if_neg hq, Function.update_of_ne hq]; rfl
  have hf : s'.listInFlight = Function.update s.listInFlight nodeid [] := by
    funext q
    rw [listInFlight, hstate]
    by_cases hq : q = nodeid
    · rw [if_pos hq, hq, Function.update_self]; rfl
    · rw [if_neg hq, Function.update_of_ne hq]; rfl
  have hsub {q : NodeId} {st' : CNodeState} (hq : s'.state q = some st') :
      s.state q = some st' := by
    rw [hstate] at hq
    split at hq
    case isTrue => cases hq
    case isFalse => exact hq
  constructor
  case toDownload =>
    rw [hd, ← heq]
    exact hdown
  case inFlight =>
    rw [hf, ← heq]
    exact hflight
  case disjoint =>
    intro hash
    rw [← heq]
    have hdl := Tracks.lookup_foldl_erase st.vBlocksToDownload (fun x ↦ x.2)
      s.mapBlocksToDownload hash
    have hfl := Tracks.lookup_foldl_erase st.vBlocksInFlight (fun x ↦ x.2.hash)
      s.mapBlocksInFlight hash
    rcases hs.disjoint hash with h | h
    · exact Or.inl (by rw [hdl, h, ite_self])
    · exact Or.inr (by rw [hfl, h, ite_self])
  case nBlocksToDownload => exact fun hq ↦ hs.nBlocksToDownload (hsub hq)
  case nBlocksInFlight => exact fun hq ↦ hs.nBlocksInFlight (hsub hq)
  case toDownload_lt =>
    intro q x hx
    rw [hd] at hx
    rw [← heq]
    by_cases hq : q = nodeid
    · rw [hq, Function.update_self] at hx
      exact absurd hx List.not_mem_nil
    · rw [Function.update_of_ne hq] at hx
      exact hs.toDownload_lt q x hx
  case inFlight_lt =>
    intro q x hx
    rw [hf] at hx
    rw [← heq]
    by_cases hq : q = nodeid
    · rw [hq, Function.update_self] at hx
      exact absurd hx List.not_mem_nil
    · rw [Function.update_of_ne hq] at hx
      exact hs.inFlight_lt q x hx

theorem isSome_setState (hst : s.state p = some st) (st' : CNodeState) (q : NodeId) :
    ((s.setState p st').state q).isSome = (s.state q).isSome := by
  rw [state_setState]
  split
  case isTrue hq => rw [hq, hst]; rfl
  case isFalse => rfl

/-! ### `MarkBlockAsReceived` -/

/-- The first half returns, and takes the hash off the lists of what is to be downloaded. -/
theorem forgetToDownload_spec (hs : s.Inv) (hash : Uint256) :
    ∃ s', s.forgetToDownload hash = some s' ∧ s'.Inv ∧
      s'.mapBlocksToDownload.lookup hash = none ∧
      s'.mapBlocksInFlight = s.mapBlocksInFlight ∧
      (∀ p, s'.listToDownload p = (s.listToDownload p).filter (·.2 ≠ hash)) ∧
      s'.listInFlight = s.listInFlight ∧
      ∀ p, (s'.state p).isSome = (s.state p).isSome := by
  rw [forgetToDownload]
  cases hl : s.mapBlocksToDownload.lookup hash with
  | none =>
      refine ⟨s, rfl, hs, hl, rfl, fun p ↦ ?_, rfl, fun p ↦ rfl⟩
      exact (hs.toDownload.filter_eq_self fun it ↦ by rw [hl]; simp).symm
  | some pos =>
      obtain ⟨nodeid, it⟩ := pos
      obtain ⟨hash', hmem, -⟩ := (hs.toDownload.lookup_iff hash nodeid it).mp hl
      obtain ⟨st, hst⟩ := exists_state_of_toDownload hmem
      have hlist := listToDownload_of_state hst
      have hlistFlight := listInFlight_of_state hst
      have herase := hs.toDownload.eraseCell hl
      have hlen := hs.toDownload.length_filter hl
      have hnum := hs.nBlocksToDownload hst
      have htracks := hs.toDownload.erase hl
      rw [hlist] at herase hlen htracks
      dsimp only
      rw [hst]
      simp only [Option.bind_eq_bind, Option.bind_some, herase]
      refine ⟨_, rfl, hs.update htracks ?_ ?_ ?_ ?_ (le_refl _) ?_ ?_, Finmap.lookup_erase _ _, rfl,
        fun p ↦ ?_, ?_, isSome_setState hst _⟩
      · rw [← hlistFlight, Function.update_eq_self]
        exact hs.inFlight
      · intro h
        by_cases hh : h = hash
        · exact Or.inl (by rw [hh, Finmap.lookup_erase])
        · rw [Finmap.lookup_erase_ne hh]
          exact hs.disjoint h
      · dsimp only
        omega
      · exact (hs.nBlocksInFlight hst :)
      · intro x hx
        exact hs.toDownload_lt nodeid x (hlist ▸ List.mem_of_mem_filter hx)
      · exact hlistFlight ▸ hs.inFlight_lt nodeid
      · change (s.setState nodeid _).listToDownload p = _
        rw [listToDownload_setState]
        by_cases hp : p = nodeid
        · subst hp
          rw [Function.update_self, ← hlist, hs.toDownload.filter_cell hl]
        · rw [Function.update_of_ne hp, hs.toDownload.filter_eq_self]
          intro it' heq
          rw [hl] at heq
          exact hp (Prod.mk.inj (Option.some.inj heq)).1.symm
      · change (s.setState nodeid _).listInFlight = _
        rw [listInFlight_setState, ← hlistFlight, Function.update_eq_self]

/-- So does the second half with what is in flight. -/
theorem forgetInFlight_spec (hs : s.Inv) (hash : Uint256) (nodeFrom : NodeId) (nNow : Int) :
    ∃ s', s.forgetInFlight hash nodeFrom nNow = some s' ∧ s'.Inv ∧
      s'.mapBlocksInFlight.lookup hash = none ∧
      s'.mapBlocksToDownload = s.mapBlocksToDownload ∧
      s'.listToDownload = s.listToDownload ∧
      ∀ p, (s'.state p).isSome = (s.state p).isSome := by
  rw [forgetInFlight]
  cases hl : s.mapBlocksInFlight.lookup hash with
  | none => exact ⟨s, rfl, hs, hl, rfl, rfl, fun p ↦ rfl⟩
  | some pos =>
      obtain ⟨nodeid, it⟩ := pos
      obtain ⟨entry, hmem, -⟩ := (hs.inFlight.lookup_iff hash nodeid it).mp hl
      obtain ⟨st, hst⟩ := exists_state_of_inFlight hmem
      have hlist := listInFlight_of_state hst
      have hlistDown := listToDownload_of_state hst
      have herase := hs.inFlight.eraseCell hl
      have hlen := hs.inFlight.length_filter hl
      have hnum := hs.nBlocksInFlight hst
      have htracks := hs.inFlight.erase hl
      rw [hlist] at herase hlen htracks
      dsimp only
      rw [hst]
      simp only [Option.bind_eq_bind, Option.bind_some, herase]
      refine ⟨_, rfl, hs.update ?_ htracks ?_ ?_ ?_ (le_refl _) ?_ ?_, Finmap.lookup_erase _ _, rfl,
        ?_, isSome_setState hst _⟩
      · rw [← hlistDown, Function.update_eq_self]
        exact hs.toDownload
      · intro h
        by_cases hh : h = hash
        · exact Or.inr (by rw [hh, Finmap.lookup_erase])
        · rw [Finmap.lookup_erase_ne hh]
          exact hs.disjoint h
      · exact (hs.nBlocksToDownload hst :)
      · dsimp only
        omega
      · exact hlistDown ▸ hs.toDownload_lt nodeid
      · intro x hx
        exact hs.inFlight_lt nodeid x (hlist ▸ List.mem_of_mem_filter hx)
      · change (s.setState nodeid _).listToDownload = _
        rw [listToDownload_setState, ← hlistDown, Function.update_eq_self]

/-- `MarkBlockAsReceived` returns, and the hash is nowhere any more. -/
theorem markBlockAsReceived_spec (hs : s.Inv) (hash : Uint256) (nodeFrom : NodeId) (nNow : Int) :
    ∃ s', s.markBlockAsReceived hash nodeFrom nNow = some s' ∧ s'.Inv ∧
      s'.mapBlocksToDownload.lookup hash = none ∧ s'.mapBlocksInFlight.lookup hash = none ∧
      (∀ p, s'.listToDownload p = (s.listToDownload p).filter (·.2 ≠ hash)) ∧
      ∀ p, (s'.state p).isSome = (s.state p).isSome := by
  obtain ⟨s₁, h₁, hs₁, hdown, -, hlist, -, hknown⟩ := forgetToDownload_spec hs hash
  obtain ⟨s₂, h₂, hs₂, hflight, hmap, hlist₂, hknown₂⟩ :=
    forgetInFlight_spec hs₁ hash nodeFrom nNow
  refine ⟨s₂, ?_, hs₂, ?_, hflight, fun p ↦ ?_, fun p ↦ (hknown₂ p).trans (hknown p)⟩
  · rw [markBlockAsReceived, h₁]
    exact h₂
  · rw [hmap, hdown]
  · rw [hlist₂, hlist]

/-! ### `AddBlockToQueue` and `MarkBlockAsInFlight` -/

theorem Inv.addBlockToQueue (hs : s.Inv) (banscore : Int) (nodeid : NodeId) (hash : Uint256) :
    (s.addBlockToQueue banscore nodeid hash).1.Inv := by
  rw [BlockDownloads.addBlockToQueue]
  split
  case isTrue => exact hs
  case isFalse hnew =>
    rw [Bool.or_eq_true, not_or, Option.not_isSome_iff_eq_none, Option.not_isSome_iff_eq_none]
      at hnew
    cases hst : s.state nodeid with
    | none => exact hs
    | some st =>
        have hlist := listToDownload_of_state hst
        have hlistFlight := listInFlight_of_state hst
        have hnum := hs.nBlocksToDownload hst
        have hlt := hs.toDownload_lt nodeid
        have htracks := hs.toDownload.push (a := hash) (o := nodeid) (c := s.nextCell) hnew.1
          fun x hx ↦ (hlt x hx).ne
        rw [hlist] at htracks hlt
        have hinv : { s.setState nodeid { st with
              vBlocksToDownload := st.vBlocksToDownload ++ [(s.nextCell, hash)]
              nBlocksToDownload := st.nBlocksToDownload + 1 } with
            nextCell := s.nextCell + 1
            mapBlocksToDownload :=
              s.mapBlocksToDownload.insert hash (nodeid, s.nextCell) }.Inv := by
          refine hs.update htracks ?_ ?_ ?_ ?_ (Nat.le_succ _) ?_ ?_
          · rw [← hlistFlight, Function.update_eq_self]
            exact hs.inFlight
          · intro h
            by_cases hh : h = hash
            · exact Or.inr (by rw [hh]; exact hnew.2)
            · rw [Finmap.lookup_insert_of_ne _ hh]
              exact hs.disjoint h
          · rw [List.length_append, List.length_singleton, hnum]
            rfl
          · exact (hs.nBlocksInFlight hst :)
          · intro x hx
            rcases List.mem_append.mp hx with hx | hx
            · exact (hlt x hx).trans (Nat.lt_succ_self _)
            · rw [List.mem_singleton.mp hx]
              exact Nat.lt_succ_self _
          · exact fun x hx ↦ (hs.inFlight_lt nodeid x (hlistFlight ▸ hx)).trans (Nat.lt_succ_self _)
        dsimp only
        split
        case isTrue =>
          rw [misbehaving_insert]
          exact hinv.misbehaving banscore nodeid 10
        case isFalse => exact hinv

/-- `MarkBlockAsInFlight` of a peer that is known returns. -/
theorem markBlockAsInFlight_spec (hs : s.Inv) (hst : (s.state nodeid).isSome) (hash : Uint256)
    (nNow : Int) :
    ∃ s', s.markBlockAsInFlight nodeid hash nNow = some s' ∧ s'.Inv ∧
      (∀ p, s'.listToDownload p = (s.listToDownload p).filter (·.2 ≠ hash)) ∧
      ∀ p, (s'.state p).isSome = (s.state p).isSome := by
  obtain ⟨st₀, hst₀⟩ := Option.isSome_iff_exists.mp hst
  obtain ⟨s₁, h₁, hs₁, hdown, hflight, hfilter, hknown⟩ :=
    markBlockAsReceived_spec hs hash (-1) nNow
  obtain ⟨st, hst₁⟩ := Option.isSome_iff_exists.mp ((hknown nodeid).trans hst)
  have hlist := listInFlight_of_state hst₁
  have hlistDown := listToDownload_of_state hst₁
  have hnum := hs₁.nBlocksInFlight hst₁
  have hlt := hs₁.inFlight_lt nodeid
  have htracks := hs₁.inFlight.push (a := ⟨hash, nNow, st.nBlocksInFlight⟩) (o := nodeid)
    (c := s₁.nextCell) hflight fun x hx ↦ (hlt x hx).ne
  rw [hlist] at htracks hlt
  rw [markBlockAsInFlight, hst₀]
  simp only [Option.bind_eq_bind, Option.bind_some, h₁, hst₁]
  refine ⟨_, rfl, hs₁.update ?_ htracks ?_ ?_ ?_ (Nat.le_succ _) ?_ ?_, fun p ↦ ?_, fun p ↦ ?_⟩
  · rw [← hlistDown, Function.update_eq_self]
    exact hs₁.toDownload
  · intro h
    by_cases hh : h = hash
    · exact Or.inl (by rw [hh]; exact hdown)
    · rw [Finmap.lookup_insert_of_ne _ hh]
      exact hs₁.disjoint h
  · exact (hs₁.nBlocksToDownload hst₁ :)
  · rw [List.length_append, List.length_singleton, hnum]
    rfl
  · exact fun x hx ↦ (hs₁.toDownload_lt nodeid x (hlistDown ▸ hx)).trans (Nat.lt_succ_self _)
  · intro x hx
    rcases List.mem_append.mp hx with hx | hx
    · exact (hlt x hx).trans (Nat.lt_succ_self _)
    · rw [List.mem_singleton.mp hx]
      exact Nat.lt_succ_self _
  · change (s₁.setState nodeid _).listToDownload p = _
    rw [listToDownload_setState, ← hlistDown, Function.update_eq_self, hfilter]
  · exact (isSome_setState hst₁ _ p).trans (hknown p)

/-! ### `SendMessages` -/

/-- The loop of `SendMessages` returns, since each block asked for leaves the list. -/
theorem sendGetData_spec (hs : s.Inv) (hst : (s.state p).isSome) (fDisconnect : Bool)
    (nNow : Nat → Int) :
    ∃ s' vGetData, s.sendGetData p fDisconnect nNow = some (s', vGetData) ∧ s'.Inv := by
  obtain ⟨st, hst'⟩ := Option.isSome_iff_exists.mp hst
  rw [sendGetData]
  split
  case isTrue => exact ⟨s, [], rfl, hs⟩
  case isFalse =>
    have hloop := @Loop.run_spec _ _ (getDataBody p nNow) (s, [])
      (st.vBlocksToDownload.length + 1) (fun r ↦ r.1.Inv ∧ (r.1.state p).isSome)
      (fun r ↦ r.1.Inv) (fun r ↦ (r.1.listToDownload p).length) ?_
      ⟨hs, hst⟩ (by rw [listToDownload_of_state hst']; exact Nat.lt_succ_self _)
    · obtain ⟨⟨s', vGetData⟩, hrun, hinv⟩ := hloop
      rw [hst']
      exact ⟨s', vGetData, hrun, hinv⟩
    · rintro ⟨s₁, vGetData⟩ ⟨hs₁, hknown⟩
      obtain ⟨st₁, hst₁⟩ := Option.isSome_iff_exists.mp hknown
      have hlist := listToDownload_of_state hst₁
      rw [getDataBody]
      dsimp only
      rw [hst₁]
      dsimp only
      split
      case isTrue hmore =>
        have hnum := hs₁.nBlocksToDownload hst₁
        cases hv : st₁.vBlocksToDownload with
        | nil =>
            rw [hv] at hnum
            exact absurd hnum hmore.1
        | cons entry rest =>
            obtain ⟨it, hash⟩ := entry
            obtain ⟨s₂, hmark, hs₂, hfilter, hknown₂⟩ :=
              markBlockAsInFlight_spec hs₁ hknown hash (nNow vGetData.length)
            dsimp only
            rw [hmark]
            refine Or.inr ⟨_, rfl, ⟨hs₂, (hknown₂ p).trans hknown⟩, ?_⟩
            dsimp only
            rw [hfilter, hlist, hv]
            apply List.length_filter_lt_length_iff_exists.mpr
            exact ⟨(it, hash), List.mem_cons_self, by simp⟩
      case isFalse => exact Or.inl ⟨_, rfl, hs₁⟩

end BlockDownloads

/-! ## Runs -/

open BlockDownloads

/-- A call returns if the peer it is about is known, and keeps the invariant. -/
theorem DownloadCall.run_spec {s : BlockDownloads} (hs : s.Inv) (banscore : Int)
    (call : DownloadCall) (hpeer : ∀ p ∈ call.peer, (s.state p).isSome) :
    ∃ s', call.run banscore s = some s' ∧ s'.Inv := by
  cases call with
  | initializeNode nodeid addrName => exact ⟨_, rfl, hs.initializeNode nodeid addrName⟩
  | finalizeNode nodeid =>
      obtain ⟨st, hst⟩ := Option.isSome_iff_exists.mp (hpeer nodeid rfl)
      cases hfin : s.finalizeNode nodeid with
      | some s' => exact ⟨s', hfin, hs.finalizeNode hfin⟩
      | none =>
          rw [BlockDownloads.finalizeNode, hst] at hfin
          cases hfin
  | addBlockToQueue nodeid hash => exact ⟨_, rfl, hs.addBlockToQueue banscore nodeid hash⟩
  | markBlockAsInFlight nodeid hash nNow =>
      obtain ⟨s', hmark, hs', -⟩ := markBlockAsInFlight_spec hs (hpeer nodeid rfl) hash nNow
      exact ⟨s', hmark, hs'⟩
  | markBlockAsReceived hash nodeFrom nNow =>
      obtain ⟨s', hmark, hs', -⟩ := markBlockAsReceived_spec hs hash nodeFrom nNow
      exact ⟨s', hmark, hs'⟩
  | sendGetData pto fDisconnect nNow =>
      obtain ⟨s', vGetData, hsend, hs'⟩ := sendGetData_spec hs (hpeer pto rfl) fDisconnect nNow
      refine ⟨s', ?_, hs'⟩
      rw [DownloadCall.run, hsend]
      rfl

theorem DownloadStep.inv {banscore : Int} {s s' : BlockDownloads} {call : DownloadCall}
    (hs : s.Inv) (h : DownloadStep banscore s call s') : s'.Inv := by
  cases call with
  | initializeNode nodeid addrName =>
      obtain rfl := Option.some.inj h
      exact hs.initializeNode nodeid addrName
  | finalizeNode nodeid => exact hs.finalizeNode h
  | addBlockToQueue nodeid hash =>
      obtain rfl := Option.some.inj h
      exact hs.addBlockToQueue banscore nodeid hash
  | markBlockAsInFlight nodeid hash nNow =>
      obtain ⟨st, hst, -⟩ := Option.bind_eq_some_iff.mp h
      obtain ⟨s₁, hmark, hs₁, -⟩ :=
        markBlockAsInFlight_spec hs (Option.isSome_of_mem hst) hash nNow
      obtain rfl := Option.some.inj (hmark.symm.trans h)
      exact hs₁
  | markBlockAsReceived hash nodeFrom nNow =>
      obtain ⟨s₁, hmark, hs₁, -⟩ := markBlockAsReceived_spec hs hash nodeFrom nNow
      obtain rfl := Option.some.inj (hmark.symm.trans h)
      exact hs₁
  | sendGetData pto fDisconnect nNow =>
      obtain ⟨⟨s₁, vGetData⟩, hsend, rfl⟩ := Option.map_eq_some_iff.mp h
      cases hst : s.state pto with
      | some st =>
          obtain ⟨s₂, vGetData₂, hsend₂, hs₂⟩ :=
            sendGetData_spec hs (Option.isSome_of_mem hst) fDisconnect nNow
          obtain ⟨rfl, rfl⟩ := Prod.mk.inj (Option.some.inj (hsend₂.symm.trans hsend))
          exact hs₂
      | none =>
          rw [sendGetData, hst] at hsend
          split at hsend
          case isTrue =>
            obtain ⟨rfl, rfl⟩ := Prod.mk.inj (Option.some.inj hsend)
            exact hs
          case isFalse => cases hsend

/-- The hashes on both lists of a peer. -/
def CNodeState.hashes (st : CNodeState) : List Uint256 :=
  st.vBlocksToDownload.map Prod.snd ++ st.vBlocksInFlight.map (·.2.hash)

/-- What the two maps and the counters say is what the lists say. -/
structure BlockDownloads.Consistent (s : BlockDownloads) : Prop where
  /-- A hash is on at most one list of a peer, and once. -/
  nodup : ∀ {p st}, s.state p = some st → st.hashes.Nodup
  /-- No two peers have a hash on their lists. -/
  peer_unique : ∀ {p q st st' hash}, s.state p = some st → s.state q = some st' →
    hash ∈ st.hashes → hash ∈ st'.hashes → p = q
  mapBlocksToDownload : ∀ hash p it, s.mapBlocksToDownload.lookup hash = some (p, it) ↔
    ∃ st, s.state p = some st ∧ (it, hash) ∈ st.vBlocksToDownload
  mapBlocksInFlight : ∀ hash p it, s.mapBlocksInFlight.lookup hash = some (p, it) ↔
    ∃ st, s.state p = some st ∧ ∃ entry, (it, entry) ∈ st.vBlocksInFlight ∧ entry.hash = hash
  /-- An iterator points to one cell. -/
  cells : ∀ {p st}, s.state p = some st → (st.vBlocksToDownload.map Prod.fst).Nodup ∧
    (st.vBlocksInFlight.map Prod.fst).Nodup
  counters : ∀ {p st}, s.state p = some st →
    st.nBlocksToDownload = st.vBlocksToDownload.length ∧
      st.nBlocksInFlight = st.vBlocksInFlight.length

theorem BlockDownloads.Inv.consistent {s : BlockDownloads} (hs : s.Inv) : s.Consistent := by
  have hdown : ∀ {p st hash}, s.state p = some st → hash ∈ st.vBlocksToDownload.map Prod.snd →
      ∃ it, s.mapBlocksToDownload.lookup hash = some (p, it) := by
    intro p st hash hst hmem
    obtain ⟨⟨it, hash'⟩, hin, rfl⟩ := List.mem_map.mp hmem
    rw [← listToDownload_of_state hst] at hin
    exact ⟨it, (hs.toDownload.lookup_iff _ p it).mpr ⟨hash', hin, rfl⟩⟩
  have hflight : ∀ {p st hash}, s.state p = some st → hash ∈ st.vBlocksInFlight.map (·.2.hash) →
      ∃ it, s.mapBlocksInFlight.lookup hash = some (p, it) := by
    intro p st hash hst hmem
    obtain ⟨⟨it, entry⟩, hin, rfl⟩ := List.mem_map.mp hmem
    rw [← listInFlight_of_state hst] at hin
    exact ⟨it, (hs.inFlight.lookup_iff _ p it).mpr ⟨entry, hin, rfl⟩⟩
  -- a hash to be downloaded is not in flight
  have hnot : ∀ {p q st st' hash}, s.state p = some st → s.state q = some st' →
      hash ∈ st.vBlocksToDownload.map Prod.snd →
      hash ∉ st'.vBlocksInFlight.map (·.2.hash) := by
    intro p q st st' hash hst hst' hmem hmem'
    obtain ⟨it, hl⟩ := hdown hst hmem
    obtain ⟨it', hl'⟩ := hflight hst' hmem'
    rcases hs.disjoint hash with h | h
    · exact absurd (h.symm.trans hl) (by simp)
    · exact absurd (h.symm.trans hl') (by simp)
  constructor
  case nodup =>
    intro p st hst
    rw [CNodeState.hashes, List.nodup_append]
    refine ⟨listToDownload_of_state hst ▸ hs.toDownload.nodup_keys p,
      listInFlight_of_state hst ▸ hs.inFlight.nodup_keys p, ?_⟩
    rintro hash hmem _ hmem' rfl
    exact hnot hst hst hmem hmem'
  case peer_unique =>
    intro p q st st' hash hst hst' hmem hmem'
    rcases List.mem_append.mp hmem with hmem | hmem
    · rcases List.mem_append.mp hmem' with hmem' | hmem'
      · obtain ⟨it, hl⟩ := hdown hst hmem
        obtain ⟨it', hl'⟩ := hdown hst' hmem'
        exact (Prod.mk.inj (Option.some.inj (hl.symm.trans hl'))).1
      · exact absurd hmem' (hnot hst hst' hmem)
    · rcases List.mem_append.mp hmem' with hmem' | hmem'
      · exact absurd hmem (hnot hst' hst hmem')
      · obtain ⟨it, hl⟩ := hflight hst hmem
        obtain ⟨it', hl'⟩ := hflight hst' hmem'
        exact (Prod.mk.inj (Option.some.inj (hl.symm.trans hl'))).1
  case mapBlocksToDownload =>
    intro hash p it
    rw [hs.toDownload.lookup_iff]
    constructor
    · rintro ⟨hash', hmem, rfl⟩
      obtain ⟨st, hst⟩ := exists_state_of_toDownload hmem
      exact ⟨st, hst, listToDownload_of_state hst ▸ hmem⟩
    · rintro ⟨st, hst, hmem⟩
      exact ⟨hash, listToDownload_of_state hst ▸ hmem, rfl⟩
  case mapBlocksInFlight =>
    intro hash p it
    rw [hs.inFlight.lookup_iff]
    constructor
    · rintro ⟨entry, hmem, rfl⟩
      obtain ⟨st, hst⟩ := exists_state_of_inFlight hmem
      exact ⟨st, hst, entry, listInFlight_of_state hst ▸ hmem, rfl⟩
    · rintro ⟨st, hst, entry, hmem, rfl⟩
      exact ⟨entry, listInFlight_of_state hst ▸ hmem, rfl⟩
  case cells =>
    intro p st hst
    exact ⟨listToDownload_of_state hst ▸ hs.toDownload.nodup p,
      listInFlight_of_state hst ▸ hs.inFlight.nodup p⟩
  case counters => exact fun hst ↦ ⟨hs.nBlocksToDownload hst, hs.nBlocksInFlight hst⟩

/-- **The bookkeeping of block downloads.**  After every sequence of calls, for any peers and
hashes, maps, lists and counters agree, and each call about a peer that is known returns: no
iterator dangles. -/
theorem blockDownloads_consistent {banscore : Int} {s : BlockDownloads}
    {calls : List DownloadCall} (h : Run (DownloadStep banscore) .empty calls s) :
    s.Consistent ∧ ∀ call : DownloadCall, (∀ p ∈ call.peer, (s.state p).isSome) →
      ∃ s', DownloadStep banscore s call s' := by
  have hs : s.Inv := h.invariant (fun _ _ _ ↦ DownloadStep.inv) inv_empty
  refine ⟨hs.consistent, fun call hpeer ↦ ?_⟩
  obtain ⟨s', hrun, -⟩ := call.run_spec hs banscore hpeer
  exact ⟨s', hrun⟩

/-- Two peers announce a block; the second one announces another one too, and is asked for both. -/
theorem blockDownloads_consistent_sample :
    ∃ s : BlockDownloads, Run (DownloadStep 100) .empty
        [.initializeNode 1 "a", .initializeNode 2 "b", .addBlockToQueue 1 5, .addBlockToQueue 2 6,
          .markBlockAsInFlight 2 5 1000] s ∧
      s.Consistent ∧ ∃ s', DownloadStep 100 s (.finalizeNode 2) s' := by
  have hrun : ∃ s, Run (DownloadStep 100) .empty
      [.initializeNode 1 "a", .initializeNode 2 "b", .addBlockToQueue 1 5, .addBlockToQueue 2 6,
        .markBlockAsInFlight 2 5 1000] s ∧ (s.state 2).isSome :=
    ⟨_, .cons rfl (.cons rfl (.cons rfl (.cons rfl (.cons rfl (.nil _))))), rfl⟩
  obtain ⟨s, hrun, hknown⟩ := hrun
  obtain ⟨hconsistent, hreturns⟩ := blockDownloads_consistent hrun
  refine ⟨s, hrun, hconsistent, hreturns (.finalizeNode 2) ?_⟩
  intro p hp
  obtain rfl := Option.some.inj hp
  exact hknown

end Fedoracoin
