import Fedoracoin.Reconnect

/-!
# Verifying the database

`VerifyDB`, over the active chain and the view of `pcoinsTip`.  It goes down from the tip, reads
each block and its undo data, and takes the blocks off a copy of the view, as long as the caches
have room.  Then it puts them on again.

A chain whose blocks were connected one by one passes, at every level and depth and with whatever
room there is, as long as `CheckBlockHeader` accepts the headers again (`verifyDB_spec`).  It need
not: a block that once extended the tip is now held against the last checkpoint.
-/

namespace Fedoracoin

open CCoinsView

/-- What `VerifyDB` takes from elsewhere. -/
structure VerifyEnv extends BlockEnv where
  /-- `ReadBlockFromDisk` for an entry of the index. -/
  readBlockFromDisk : ConnectIndex → Except Failure CBlock
  /-- `CBlockUndo::ReadFromDisk`. -/
  readUndo : ConnectIndex → Option CBlockUndo
  /-- `GetCacheSize` of both caches is within the limit when the block is the next to take off. -/
  cachesHaveRoom : ConnectIndex → Bool
  io : UndoIO
  /-- The bound on the recursion in `GetBlockValue`. -/
  fuel : Nat

structure VerifyState where
  coins : CCoinsView
  pindexState : ConnectIndex
  pindexFailure : Option ConnectIndex := none

/-- `return error(..)` for a call that has returned false. -/
def errorUnless {α : Type} (message : String) : Except Failure α → Except Failure α
  | .error (.dos ..) => .error (.error message)
  | .error (.abort _) => .error (.error message)
  | .error (.error _) => .error (.error message)
  | r => r

@[simp] theorem errorUnless_ok {α : Type} (message : String) (a : α) :
    errorUnless message (.ok a) = .ok a := rfl

theorem eq_ok_of_errorUnless {α : Type} {message : String} {x : Except Failure α} {a : α}
    (h : errorUnless message x = .ok a) : x = .ok a := by
  unfold errorUnless at h
  split at h
  · exact absurd h nofun
  · exact absurd h nofun
  · exact absurd h nofun
  · exact h

namespace VerifyEnv

variable (env : VerifyEnv)

/-- Check level 3; `pprev` is the entry below. -/
def disconnectTip (block : CBlock) (pindex pprev : ConnectIndex) (s : VerifyState) :
    Except Failure VerifyState := do
  let (fClean, coins) ←
    errorUnless "VerifyDB() : *** irrecoverable inconsistency in block data at %d, hash=%s"
      (disconnectBlock env.toBlockEnv (env.readUndo pindex) block pindex s.coins)
  return { s with
    coins := coins
    pindexState := pprev
    pindexFailure := if fClean then s.pindexFailure else some pindex }

/-- The body of the loop. -/
def verifyBlock (nCheckLevel : Int) (pindex pprev : ConnectIndex) (s : VerifyState) :
    Except Failure VerifyState := do
  let block ←
    errorUnless "check level 0: VerifyDB() : *** ReadBlockFromDisk failed at %d, hash=%s"
      (env.readBlockFromDisk pindex)
  if 1 ≤ nCheckLevel then
    errorUnless "check level 1: VerifyDB() : *** found bad block at %d, hash=%s\n"
      (checkBlock env.toBlockEnv block pindex.nHeight true true)
  failIf (decide (2 ≤ nCheckLevel) && !pindex.undoPosIsNull && (env.readUndo pindex).isNone)
    (.error "VerifyDB() : *** found bad undo data at %d, hash=%s\n")
  if 3 ≤ nCheckLevel ∧ pindex.blockHash = s.pindexState.blockHash ∧ env.cachesHaveRoom pindex then
    env.disconnectTip block pindex pprev s
  else return s

/-- The loop over the entries from `pindex` down. -/
def verifyBlocks (nCheckLevel nLowest : Int) (s : VerifyState) :
    List ConnectIndex → Except Failure VerifyState
  | pindex :: pprev :: rest =>
      if pindex.nHeight < nLowest then .ok s
      else do
        let s ← env.verifyBlock nCheckLevel pindex pprev s
        verifyBlocks nCheckLevel nLowest s (pprev :: rest)
  | _ => .ok s

/-- Check level 4, over the entries above `pindexState`. -/
def reconnectBlocks (coins : CCoinsView) : List ConnectIndex → Except Failure CCoinsView
  | [] => .ok coins
  | pindex :: rest => do
      let block ←
        errorUnless "check level 4: VerifyDB() : *** ReadBlockFromDisk failed at %d, hash=%s"
          (env.readBlockFromDisk pindex)
      let r ← errorUnless "VerifyDB() : *** found unconnectable block at %d, hash=%s"
        (connectBlock env.toBlockEnv env.io env.fuel block pindex coins false).2
      reconnectBlocks r.view rest

/-- `chainActive.Height()-nCheckDepth`, with the depth brought into range. -/
def lowestHeight (nHeight nCheckDepth : Int) : Int :=
  let nCheckDepth := if nCheckDepth ≤ 0 then 1000000000 else nCheckDepth
  let nCheckDepth := if nHeight < nCheckDepth then nHeight else nCheckDepth
  nHeight - nCheckDepth

/-- `VerifyDB` on the active chain, the genesis block first.  It returns true where there is no
failure. -/
def verifyDB (nCheckLevel nCheckDepth : Int) (vChain : List ConnectIndex)
    (pcoinsTip : CCoinsView) : Except Failure Unit :=
  match vChain.reverse with
  | tip :: pprev :: rest => do
      let nCheckLevel := max 0 (min 4 nCheckLevel)
      let s ← env.verifyBlocks nCheckLevel (lowestHeight (vChain.length - 1) nCheckDepth)
        { coins := pcoinsTip, pindexState := tip } (tip :: pprev :: rest)
      failIf s.pindexFailure.isSome (.error
        ("VerifyDB() : *** coin database inconsistencies found (last %i blocks, " ++
          "%i good transactions before that)\n"))
      if 4 ≤ nCheckLevel then
        -- `chainActive.Next` goes through the entries above
        let _ ← env.reconnectBlocks s.coins (vChain.drop (s.pindexState.nHeight.toNat + 1))
  | _ => .ok ()

end VerifyEnv

/-! ## A chain on disk -/

/-- A block of the chain: the entry that `ConnectBlock` has left, and what was written. -/
structure DiskBlock where
  pindex : ConnectIndex
  block : CBlock
  blockundo : CBlockUndo

/-- A block was connected, at whatever time, and is on disk with its undo data. -/
structure ConnectStep (env : VerifyEnv) (view : CCoinsView) (b : DiskBlock) (view' : CCoinsView) :
    Prop where
  connected : ∃ checkBlockHeader tip io fuel pindex r,
    connectBlock (env.toBlockEnv.during checkBlockHeader tip) io fuel b.block pindex view false =
        (b.pindex, .ok r) ∧ r.blockundo = b.blockundo ∧ r.view = view'
  notGenesis : env.getBlockHash b.block.toCBlockHeader ≠ env.hashGenesisBlock
  pprev : b.pindex.pprev ≠ none
  readBlock : env.readBlockFromDisk b.pindex = .ok b.block
  readUndo : env.readUndo b.pindex = some b.blockundo

/-- The chain from `genesis` on, and the view that it leads to. -/
structure StoredChain (env : VerifyEnv) (genesis : ConnectIndex) (blocks : List DiskBlock)
    (view : CCoinsView) : Prop where
  run : Run (ConnectStep env) ⟨∅, genesis.blockHash⟩ blocks view
  heights : ∀ bs b rest, blocks = bs ++ b :: rest → b.pindex.nHeight = (bs.length + 1 : Int)
  height_genesis : genesis.nHeight = 0
  nodup : ((genesis :: blocks.map DiskBlock.pindex).map ConnectIndex.blockHash).Nodup

/-- `CheckBlockHeader` accepts the header now. -/
def HeaderAccepted (env : VerifyEnv) (b : DiskBlock) : Prop :=
  env.checkBlockHeader b.block.toCBlockHeader b.pindex.nHeight true = .ok ()

instance (env : VerifyEnv) (b : DiskBlock) : Decidable (HeaderAccepted env b) :=
  inferInstanceAs (Decidable (_ = _))

/-- The entry of the last block. -/
def lastIndex (genesis : ConnectIndex) (blocks : List DiskBlock) : ConnectIndex :=
  (blocks.getLast?.map DiskBlock.pindex).getD genesis

section

variable {env : VerifyEnv} {genesis : ConnectIndex} {blocks bs bs₁ bs₂ : List DiskBlock}
  {b : DiskBlock} {view view' coins : CCoinsView} {s : VerifyState}

/-! ## One block -/

/-- The steps of the block, and what they have left of the entry. -/
theorem ConnectStep.blockRun (h : ConnectStep env view b view') :
    ∃ checkBlockHeader tip fuel nStatus r,
      BlockRun (env.toBlockEnv.during checkBlockHeader tip) fuel b.block
        { b.pindex with nStatus := nStatus } view false b.pindex r ∧
      r.blockundo = b.blockundo ∧ r.view = view' ∧
      (checkBlock env.toBlockEnv b.block b.pindex.nHeight true true = .ok () ↔
        HeaderAccepted env b) := by
  obtain ⟨checkBlockHeader, tip, io, fuel, pindex, r, hconn, hundo, hview⟩ := h.connected
  have hgenesis : (env.toBlockEnv.during checkBlockHeader tip).getBlockHash
      b.block.toCBlockHeader ≠ (env.toBlockEnv.during checkBlockHeader tip).hashGenesisBlock :=
    h.notGenesis
  have hrun := connectBlock_run hgenesis hconn
  obtain ⟨hcheck, -⟩ := (connectBlock_eq_ok hgenesis).mp hconn
  obtain ⟨nStatus, hindex, -⟩ := hrun.index rfl
  have hback : { b.pindex with nStatus := pindex.nStatus } = pindex := by rw [hindex]
  refine ⟨checkBlockHeader, tip, fuel, pindex.nStatus, r, hback ▸ hrun, hundo, hview, ?_⟩
  rw [HeaderAccepted, hindex]
  exact checkBlock_again hcheck

theorem ConnectStep.raised (h : ConnectStep env view b view') (hheight : b.pindex.nHeight ≠ 0)
    (hview : Raised view) : Raised view' := by
  obtain ⟨_, tip, fuel, nStatus, r, hrun, -, rfl, -⟩ := h.blockRun
  exact hrun.raised hheight hview

theorem ConnectStep.disconnect (h : ConnectStep env view b view') (hheight : b.pindex.nHeight ≠ 0)
    (hview : Raised view) (hsame : SameEntries view' coins) :
    ∃ coins', disconnectBlock env.toBlockEnv (env.readUndo b.pindex) b.block b.pindex coins =
      .ok (true, coins') ∧ SameEntries view coins' := by
  obtain ⟨_, tip, fuel, nStatus, r, hrun, hundo, rfl, -⟩ := h.blockRun
  obtain ⟨coins', hdisconnect, hsame'⟩ := hrun.disconnectBlock hheight h.pprev hview hsame
  refine ⟨coins', ?_, hsame'⟩
  rw [h.readUndo, ← hundo, ← hdisconnect]
  rfl

/-- Check level 4. -/
theorem ConnectStep.reconnect (h : ConnectStep env view b view')
    (hp2sh : env.getP2SHSigOpCount = p2shSigOpCount) (hio : env.io.writeTxIndex = true)
    (hfuel : 0 < env.fuel) (hheight : b.pindex.nHeight < 1664000)
    (hheader : HeaderAccepted env b) (hagree : AgreeOn Set.univ view coins) :
    ∃ r, connectBlock env.toBlockEnv env.io env.fuel b.block b.pindex coins false =
      (b.pindex, .ok r) ∧ AgreeOn Set.univ view' r.view := by
  obtain ⟨checkBlockHeader, tip, io, fuel, pindex, r, hconn, -, rfl⟩ := h.connected
  have hgenesis : (env.toBlockEnv.during checkBlockHeader tip).getBlockHash
      b.block.toCBlockHeader ≠ (env.toBlockEnv.during checkBlockHeader tip).hashGenesisBlock :=
    h.notGenesis
  obtain ⟨nStatus, hindex, -⟩ := (connectBlock_run hgenesis hconn).index rfl
  obtain ⟨fuel', hfuel'⟩ := Nat.exists_eq_succ_of_ne_zero hfuel.ne'
  have hnHeight : b.pindex.nHeight = pindex.nHeight := by rw [hindex]
  rw [HeaderAccepted, hnHeight] at hheader
  rw [hnHeight] at hheight
  rw [hfuel']
  exact connectBlock_again hp2sh hheight h.notGenesis hheader hio hagree hconn

/-! ## Going up -/

theorem reconnectBlocks_spec (h : Run (ConnectStep env) view bs view')
    (hp2sh : env.getP2SHSigOpCount = p2shSigOpCount) (hio : env.io.writeTxIndex = true)
    (hfuel : 0 < env.fuel) (hheights : ∀ b ∈ bs, b.pindex.nHeight < 1664000)
    (hheaders : ∀ b ∈ bs, HeaderAccepted env b) (hagree : AgreeOn Set.univ view coins) :
    ∃ coins', env.reconnectBlocks coins (bs.map DiskBlock.pindex) = .ok coins' := by
  induction h generalizing coins with
  | nil => exact ⟨coins, rfl⟩
  | @cons _ _ _ b bs hstep _ ih =>
      obtain ⟨hheight, hheights⟩ := List.forall_mem_cons.mp hheights
      obtain ⟨hheader, hheaders⟩ := List.forall_mem_cons.mp hheaders
      obtain ⟨r, hconn, hagree'⟩ := hstep.reconnect hp2sh hio hfuel hheight hheader hagree
      obtain ⟨coins', hrest⟩ := ih hheights hheaders hagree'
      refine ⟨coins', ?_⟩
      rw [List.map_cons, VerifyEnv.reconnectBlocks, hstep.readBlock]
      refine bind_eq_ok.mpr ⟨_, rfl, bind_eq_ok.mpr ⟨r, ?_, hrest⟩⟩
      rw [hconn]
      rfl

/-! ## Going down -/

/-- The state of the loop when the blocks `bs₂` have been taken off. -/
structure TakenOff (env : VerifyEnv) (genesis : ConnectIndex) (view : CCoinsView)
    (s : VerifyState) (bs₁ bs₂ : List DiskBlock) : Prop where
  pindexState : s.pindexState = lastIndex genesis bs₁
  pindexFailure : s.pindexFailure = none
  headers : ∀ b ∈ bs₂, HeaderAccepted env b
  coins : ∃ v, Run (ConnectStep env) ⟨∅, genesis.blockHash⟩ bs₁ v ∧
    Run (ConnectStep env) v bs₂ view ∧ SameEntries v s.coins

@[simp] theorem lastIndex_append : lastIndex genesis (bs ++ [b]) = b.pindex := by
  rw [lastIndex, List.getLast?_concat]
  rfl

theorem reverse_entries (genesis : ConnectIndex) (bs : List DiskBlock) (b : DiskBlock) :
    (genesis :: (bs ++ [b]).map DiskBlock.pindex).reverse =
      b.pindex :: (genesis :: bs.map DiskBlock.pindex).reverse := by
  rw [List.map_append, ← List.cons_append, List.reverse_append]
  rfl

/-- The entries from the last block down. -/
theorem exists_reverse_eq (genesis : ConnectIndex) (bs : List DiskBlock) :
    ∃ rest, (genesis :: bs.map DiskBlock.pindex).reverse = lastIndex genesis bs :: rest := by
  induction bs using List.reverseRecOn with
  | nil => exact ⟨[], rfl⟩
  | append_singleton bs b =>
      exact ⟨_, (reverse_entries genesis bs b).trans (by rw [lastIndex_append])⟩

theorem Raised.empty (hash : Uint256) : Raised ⟨∅, hash⟩ := by
  intro txid _ e he
  rw [utxos, Finmap.lookup_empty] at he
  cases he

theorem raised_of_run (h : Run (ConnectStep env) view bs view')
    (hheights : ∀ b ∈ bs, b.pindex.nHeight ≠ 0) (hview : Raised view) : Raised view' := by
  induction h with
  | nil => exact hview
  | cons hstep _ ih =>
      obtain ⟨hheight, hheights⟩ := List.forall_mem_cons.mp hheights
      exact ih hheights (hstep.raised hheight hview)

/-- The last block is the only one with its hash. -/
theorem eq_of_blockHash (hnodup : ((genesis :: bs₁.map DiskBlock.pindex).map
      ConnectIndex.blockHash).Nodup) (hinit : bs ++ [b] <+: bs₁)
    (hhash : b.pindex.blockHash = (lastIndex genesis bs₁).blockHash) : bs₁ = bs ++ [b] := by
  obtain ⟨rest, rfl⟩ := hinit
  rcases rest.eq_nil_or_concat' with rfl | ⟨rest, c, rfl⟩
  · exact List.append_nil _
  · rw [← List.append_assoc, lastIndex_append] at hhash
    rw [← List.append_assoc, List.map_cons, List.nodup_cons, List.map_append, List.map_append,
      List.nodup_append] at hnodup
    have hb : b.pindex.blockHash ∈
        ((bs ++ [b] ++ rest).map DiskBlock.pindex).map ConnectIndex.blockHash :=
      List.mem_map_of_mem (List.mem_map_of_mem (by simp))
    exact absurd hhash (hnodup.2.2.2 _ hb _ List.mem_cons_self)

theorem StoredChain.height_lastIndex (h : StoredChain env genesis blocks view)
    (hinit : bs <+: blocks) : (lastIndex genesis bs).nHeight = bs.length := by
  obtain ⟨rest, rfl⟩ := hinit
  rcases bs.eq_nil_or_concat' with rfl | ⟨bs, b, rfl⟩
  · exact h.height_genesis
  · rw [lastIndex_append, List.length_append]
    exact h.heights bs b rest (List.append_assoc ..)

theorem StoredChain.height_ne_zero (h : StoredChain env genesis blocks view) (hb : b ∈ blocks) :
    b.pindex.nHeight ≠ 0 := by
  obtain ⟨bs, rest, hblocks⟩ := List.append_of_mem hb
  have := h.heights bs b rest hblocks
  omega

/-- What a block of the chain passes, and what is left when it is taken off. -/
theorem StoredChain.verifyBlock (h : StoredChain env genesis blocks view) (nCheckLevel : Int)
    (hheader : 1 ≤ nCheckLevel → HeaderAccepted env b) (hsplit : blocks = bs₁ ++ bs₂)
    (hs : TakenOff env genesis view s bs₁ bs₂) (hinit : bs ++ [b] <+: bs₁) :
    ∃ s' bs₁' bs₂', env.verifyBlock nCheckLevel b.pindex (lastIndex genesis bs) s = .ok s' ∧
      blocks = bs₁' ++ bs₂' ∧ bs <+: bs₁' ∧ TakenOff env genesis view s' bs₁' bs₂' := by
  obtain ⟨v, hrun₁, hrun₂, hsame⟩ := hs.coins
  have hb : b ∈ bs₁ := hinit.subset (by simp)
  obtain ⟨v₀, v₁, hstep⟩ := hrun₁.exists_step hb
  obtain ⟨_, tip, fuel, nStatus, r, -, -, -, hcheck⟩ := hstep.blockRun
  have hlevels : ∀ s', (if 3 ≤ nCheckLevel ∧ b.pindex.blockHash = s.pindexState.blockHash ∧
        env.cachesHaveRoom b.pindex then
      env.disconnectTip b.block b.pindex (lastIndex genesis bs) s else .ok s) = .ok s' →
      env.verifyBlock nCheckLevel b.pindex (lastIndex genesis bs) s = .ok s' := by
    intro s' hs'
    rw [VerifyEnv.verifyBlock, hstep.readBlock, hstep.readUndo, errorUnless_ok]
    refine bind_eq_ok.mpr ⟨_, rfl, ?_⟩
    dsimp only
    rw [Option.isNone_some, Bool.and_false]
    split
    case isTrue hlevel =>
      rw [hcheck.mpr (hheader hlevel), errorUnless_ok]
      exact bind_eq_ok.mpr ⟨(), rfl, bind_eq_ok.mpr ⟨(), rfl, hs'⟩⟩
    case isFalse => exact bind_eq_ok.mpr ⟨(), rfl, hs'⟩
  by_cases hoff : 3 ≤ nCheckLevel ∧ b.pindex.blockHash = s.pindexState.blockHash ∧
      env.cachesHaveRoom b.pindex
  · -- the block is the next to take off
    have hhash := hoff.2.1
    rw [hs.pindexState] at hhash
    have hall := h.nodup
    rw [hsplit, List.map_append, ← List.cons_append, List.map_append] at hall
    obtain rfl := eq_of_blockHash (List.nodup_append.mp hall).1 hinit hhash
    obtain ⟨v', hrun, hlast⟩ := Run.append_iff.mp hrun₁
    obtain ⟨v'', hstep, hnil⟩ := Run.cons_iff.mp hlast
    obtain rfl := Run.nil_iff.mp hnil
    have hheights : ∀ c ∈ bs ++ [b], c.pindex.nHeight ≠ 0 :=
      fun c hc ↦ h.height_ne_zero (hsplit ▸ List.mem_append.mpr (Or.inl hc))
    have hraised := raised_of_run hrun (fun c hc ↦ hheights c (by simp [hc])) (.empty _)
    obtain ⟨coins', hdisconnect, hsame'⟩ := hstep.disconnect (hheights b (by simp)) hraised hsame
    refine ⟨{ s with coins := coins', pindexState := lastIndex genesis bs }, bs, b :: bs₂,
      hlevels _ ?_, hsplit.trans (List.append_assoc ..), List.prefix_rfl, rfl, hs.pindexFailure,
      List.forall_mem_cons.mpr ⟨hheader (by omega), hs.headers⟩, v', hrun, .cons hstep hrun₂,
      hsame'⟩
    rw [if_pos hoff, VerifyEnv.disconnectTip, hdisconnect]
    rfl
  · exact ⟨s, bs₁, bs₂, hlevels s (if_neg hoff), hsplit, (List.prefix_append _ _).trans hinit, hs⟩

theorem StoredChain.verifyBlocks (h : StoredChain env genesis blocks view)
    (nCheckLevel nLowest : Int) (hheaders : 1 ≤ nCheckLevel → ∀ b ∈ bs,
      nLowest ≤ b.pindex.nHeight → HeaderAccepted env b) (hsplit : blocks = bs₁ ++ bs₂)
    (hs : TakenOff env genesis view s bs₁ bs₂) (hinit : bs <+: bs₁) :
    ∃ s' bs₁' bs₂', env.verifyBlocks nCheckLevel nLowest s
        (genesis :: bs.map DiskBlock.pindex).reverse = .ok s' ∧
      blocks = bs₁' ++ bs₂' ∧ TakenOff env genesis view s' bs₁' bs₂' := by
  induction bs using List.reverseRecOn generalizing s bs₁ bs₂ with
  | nil => exact ⟨s, bs₁, bs₂, rfl, hsplit, hs⟩
  | append_singleton bs b ih =>
      obtain ⟨rest, hrest⟩ := exists_reverse_eq genesis bs
      rw [reverse_entries, hrest, VerifyEnv.verifyBlocks]
      by_cases hlow : b.pindex.nHeight < nLowest
      · rw [if_pos hlow]
        exact ⟨s, bs₁, bs₂, rfl, hsplit, hs⟩
      · obtain ⟨s₁, bs₁', bs₂', hblock, hsplit', hinit', hs₁⟩ :=
          h.verifyBlock nCheckLevel (fun hlevel ↦ hheaders hlevel b (by simp) (not_lt.mp hlow))
            hsplit hs hinit
        obtain ⟨s', bs₁'', bs₂'', hblocks, hsplit'', hs'⟩ := ih
          (fun hlevel c hc ↦ hheaders hlevel c (List.mem_append_left _ hc)) hsplit' hs₁ hinit'
        rw [if_neg hlow]
        exact ⟨s', bs₁'', bs₂'', bind_eq_ok.mpr ⟨s₁, hblock, hrest ▸ hblocks⟩, hsplit'', hs'⟩

/-- From check level 1 on the loop does not get past a block whose header is refused. -/
theorem StoredChain.headers_of_verifyBlocks (h : StoredChain env genesis blocks view)
    {nCheckLevel nLowest : Int} {s' : VerifyState} (hlevel : 1 ≤ nCheckLevel)
    (hinit : bs <+: blocks) (hok : env.verifyBlocks nCheckLevel nLowest s
      (genesis :: bs.map DiskBlock.pindex).reverse = .ok s') :
    ∀ b ∈ bs, nLowest ≤ b.pindex.nHeight → HeaderAccepted env b := by
  induction bs using List.reverseRecOn generalizing s with
  | nil => exact nofun
  | append_singleton bs b ih =>
      obtain ⟨rest, hrest⟩ := exists_reverse_eq genesis bs
      rw [reverse_entries, hrest, VerifyEnv.verifyBlocks] at hok
      have hbelow : ∀ c ∈ bs ++ [b], c.pindex.nHeight ≤ b.pindex.nHeight := by
        intro c hc
        obtain ⟨tail, htail⟩ := hinit
        obtain ⟨bs₁, bs₂, hsplit⟩ := List.append_of_mem hc
        have hb := h.heights bs b tail (htail.symm.trans (List.append_assoc ..))
        have hc := h.heights bs₁ c (bs₂ ++ tail) (by rw [← htail, hsplit]; simp)
        have hlength := congrArg List.length hsplit
        simp only [List.length_append, List.length_cons, List.length_nil] at hlength
        omega
      by_cases hlow : b.pindex.nHeight < nLowest
      · exact fun c hc hle ↦ absurd (hle.trans (hbelow c hc)) (not_le.mpr hlow)
      · rw [if_neg hlow] at hok
        obtain ⟨s₁, hblock, hblocks⟩ := bind_eq_ok.mp hok
        rw [← hrest] at hblocks
        have hb : HeaderAccepted env b := by
          obtain ⟨v₀, v₁, hstep⟩ := h.run.exists_step (hinit.subset (by simp : b ∈ bs ++ [b]))
          obtain ⟨_, tip, fuel, nStatus, r, -, -, -, hcheck⟩ := hstep.blockRun
          rw [VerifyEnv.verifyBlock, hstep.readBlock] at hblock
          obtain ⟨_, hread, hblock⟩ := bind_eq_ok.mp hblock
          obtain rfl := Except.ok.inj hread
          dsimp only at hblock
          rw [if_pos hlevel] at hblock
          obtain ⟨_, hchecked, -⟩ := bind_eq_ok.mp hblock
          exact hcheck.mp (eq_ok_of_errorUnless hchecked)
        intro c hc hle
        rcases List.mem_append.mp hc with hc | hc
        · exact ih ((List.prefix_append _ _).trans hinit) hblocks c hc hle
        · exact List.mem_singleton.mp hc ▸ hb

/-- **`VerifyDB` passes exactly if the headers do.** -/
theorem verifyDB_spec (h : StoredChain env genesis blocks view) {pcoinsTip : CCoinsView}
    (hsame : SameEntries view pcoinsTip) (hp2sh : env.getP2SHSigOpCount = p2shSigOpCount)
    (hio : env.io.writeTxIndex = true) (hfuel : 0 < env.fuel) (nCheckLevel nCheckDepth : Int)
    (htail : nCheckLevel < 4 ∨ blocks.length < 1664000) :
    env.verifyDB nCheckLevel nCheckDepth (genesis :: blocks.map DiskBlock.pindex) pcoinsTip =
        .ok () ↔
      (1 ≤ nCheckLevel → ∀ b ∈ blocks,
        VerifyEnv.lowestHeight blocks.length nCheckDepth ≤ b.pindex.nHeight →
          HeaderAccepted env b) := by
  have hheight : (((genesis :: blocks.map DiskBlock.pindex).length : Int) - 1) =
      blocks.length := by
    rw [List.length_cons, List.length_map]
    omega
  rw [VerifyEnv.verifyDB, hheight]
  obtain ⟨rest, hrest⟩ := exists_reverse_eq genesis blocks
  cases rest with
  | nil =>
      have hlength := congrArg List.length hrest
      simp only [List.length_reverse, List.length_cons, List.length_map, List.length_nil] at hlength
      obtain rfl : blocks = [] := List.eq_nil_of_length_eq_zero (by omega)
      exact iff_of_true rfl nofun
  | cons pprev rest =>
      rw [hrest]
      constructor
      · intro hok hlevel
        obtain ⟨s, hdown, -⟩ := bind_eq_ok.mp hok
        rw [← hrest] at hdown
        exact h.headers_of_verifyBlocks (by omega) List.prefix_rfl hdown
      · intro hheaders
        have hstart : TakenOff env genesis view
            { coins := pcoinsTip, pindexState := lastIndex genesis blocks } blocks [] :=
          ⟨rfl, rfl, nofun, view, h.run, .nil view, hsame⟩
        obtain ⟨s, bs₁, bs₂, hdown, hsplit, hs⟩ := h.verifyBlocks (max 0 (min 4 nCheckLevel))
          (VerifyEnv.lowestHeight blocks.length nCheckDepth) (fun hlevel ↦ hheaders (by omega))
          (List.append_nil _).symm hstart List.prefix_rfl
        rw [hrest] at hdown
        refine bind_eq_ok.mpr ⟨s, hdown,
          bind_eq_ok.mpr ⟨(), failIf_eq_ok.mpr (by rw [hs.pindexFailure]; rfl), ?_⟩⟩
        obtain ⟨v, -, hrun, hagree, -⟩ := hs.coins
        by_cases hlevel : 4 ≤ max 0 (min 4 nCheckLevel)
        · have hheights : ∀ b ∈ bs₂, b.pindex.nHeight < 1664000 := by
            intro b hb
            obtain ⟨bs, rest, rfl⟩ := List.append_of_mem hb
            have hheight := h.heights (bs₁ ++ bs) b rest
              (hsplit.trans (List.append_assoc ..).symm)
            have hlength := congrArg List.length hsplit
            simp only [List.length_append, List.length_cons] at hheight hlength
            omega
          have hdrop : (genesis :: blocks.map DiskBlock.pindex).drop
              (s.pindexState.nHeight.toNat + 1) = bs₂.map DiskBlock.pindex := by
            rw [hs.pindexState, h.height_lastIndex (hsplit ▸ List.prefix_append _ _),
              Int.toNat_natCast, List.drop_succ_cons, hsplit, List.map_append,
              List.drop_left' (List.length_map _)]
          obtain ⟨coins', hup⟩ :=
            reconnectBlocks_spec hrun hp2sh hio hfuel hheights hs.headers hagree
          rw [if_pos hlevel, hdrop]
          exact bind_eq_ok.mpr ⟨coins', hup, rfl⟩
        · rw [if_neg hlevel]
          rfl

end

/-! ## An example -/

/-- The coinbase of the block at a height, which is the hash of both. -/
def storedTx (n : Nat) : CTransaction where
  vin := [⟨.null, [0, 0], uintMax⟩]
  vout := [⟨100, []⟩]
  nLockTime := n

def storedBlock (n : Nat) : CBlock where
  hashPrevBlock := BitVec.ofNat 256 (n - 1)
  hashMerkleRoot := BitVec.ofNat 256 n
  nTime := n
  nBits := 0x1e0fffff
  nNonce := n
  vtx := [storedTx n]

def storedIndex (n : Nat) (nStatus : BlockStatus) : ConnectIndex where
  blockHash := BitVec.ofNat 256 n
  pprev := if n = 0 then none else some (BitVec.ofNat 256 (n - 1))
  nHeight := n
  nStatus := nStatus

def storedDisk (n : Nat) : DiskBlock :=
  ⟨storedIndex n { valid := blockValidScripts, haveUndo := true }, storedBlock n, ⟨[]⟩⟩

/-- The header check with block 2 as the tip, and a checkpoint at the time `nTime`. -/
def storedHeaderCheck (nTime : Nat) : HeaderCheck :=
  PowEnv.checkBlockHeader
    { getPoWHash := fun _ ↦ 0
      getPoWHashS := fun _ ↦ 0
      adjustedTime := 10
      pcheckpoint := some ⟨nTime, 0x1e0fffff⟩
      hashTip := 2 }

/-- The disk has a coinbase at every height. -/
def storedEnv (nTime : Nat) : VerifyEnv :=
  { sampleEnv with
    checkBlockHeader := storedHeaderCheck nTime
    getP2SHSigOpCount := p2shSigOpCount
    readBlockFromDisk := fun pindex ↦ .ok (storedBlock pindex.nHeight.toNat)
    readUndo := fun _ ↦ some ⟨[]⟩
    cachesHaveRoom := fun _ ↦ true
    io := {}
    fuel := 1 }

/-- The view with the coinbase of the block besides. -/
def storedView (view : CCoinsView) (n : Nat) : CCoinsView :=
  (view.setCoins (BitVec.ofNat 256 n) (.ofTx (storedTx n) n)).setBestBlock (BitVec.ofNat 256 n)

theorem connectStep_stored {nTime : Nat} {view : CCoinsView} {n : Nat}
    (h : connectBlock { sampleEnv with getP2SHSigOpCount := p2shSigOpCount } {} 1 (storedBlock n)
      (storedIndex n {}) view false = ((storedDisk n).pindex, .ok ⟨storedView view n, ⟨[]⟩⟩))
    (hn : (storedDisk n).pindex.pprev ≠ none) (hgenesis : BitVec.ofNat 256 n ≠ 0) :
    ConnectStep (storedEnv nTime) view (storedDisk n) (storedView view n) where
  connected := ⟨fun _ _ _ ↦ .ok (), .initial, {}, 1, storedIndex n {}, _, h, rfl, rfl⟩
  notGenesis := hgenesis
  pprev := hn
  readBlock := rfl
  readUndo := rfl

/-- A chain with two blocks, whose headers were accepted. -/
theorem storedChain_two (nTime : Nat) : StoredChain (storedEnv nTime) (storedIndex 0 {})
    [storedDisk 1, storedDisk 2] (storedView (storedView ⟨∅, 0⟩ 1) 2) where
  run := .cons (connectStep_stored (by rfl) (by decide) (by decide))
    (.cons (connectStep_stored (by rfl) (by decide) (by decide)) (.nil _))
  heights := by
    intro bs b rest h
    match bs, h with
    | [], h => rw [← (List.cons.inj h).1]; rfl
    | [_], h => rw [← (List.cons.inj (List.cons.inj h).2).1]; rfl
    | _ :: _ :: bs, h => exact absurd (congrArg List.length h) (by simp)
  height_genesis := rfl
  nodup := by decide

theorem sameEntries_stored : SameEntries (storedView (storedView ⟨∅, 0⟩ 1) 2)
    (storedView (storedView ⟨∅, 0⟩ 1) 2) := by
  refine ⟨⟨fun _ _ ↦ rfl, rfl⟩, fun txid ↦ ?_⟩
  have htx : ∀ n, (CCoins.ofTx (storedTx n) n).Canonical :=
    fun n ↦ CCoins.canonical_ofTx
      (show ∀ txout ∈ [(⟨100, []⟩ : CTxOut)], 0 ≤ txout.nValue by decide)
  exact canonical_setCoins (htx 2) (Or.inr (canonical_setCoins (htx 1) (Or.inr .nil)))

/-- With the checkpoint at time 1 it passes.  With one at time 2 the first block is too old. -/
theorem verifyDB_two :
    (storedEnv 1).verifyDB 4 0 [storedIndex 0 {}, (storedDisk 1).pindex, (storedDisk 2).pindex]
        (storedView (storedView ⟨∅, 0⟩ 1) 2) = .ok () ∧
      (storedEnv 2).verifyDB 1 0 [storedIndex 0 {}, (storedDisk 1).pindex, (storedDisk 2).pindex]
        (storedView (storedView ⟨∅, 0⟩ 1) 2) ≠ .ok () := by
  constructor
  · refine (verifyDB_spec (storedChain_two 1) sameEntries_stored rfl rfl (by decide) 4 0
      (Or.inr (by decide))).mpr fun _ b hb _ ↦ ?_
    obtain rfl | rfl : b = storedDisk 1 ∨ b = storedDisk 2 := by simpa using hb
    · decide +kernel
    · decide +kernel
  · intro hok
    have hheaders := (verifyDB_spec (storedChain_two 2) sameEntries_stored rfl rfl (by decide) 1 0
      (Or.inr (by decide))).mp hok le_rfl (storedDisk 1) List.mem_cons_self (by decide)
    exact absurd hheaders (by decide +kernel)

end Fedoracoin
