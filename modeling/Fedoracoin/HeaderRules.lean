import Fedoracoin.MedianTime
import Fedoracoin.SyncProgress

/-!
# The rules for headers

What `AcceptBlockHeader` checks of a header whose predecessor is in the index: the target, the
time, the hardened checkpoints and the synchronized one, and the version.  The last of these
never rejects anything, since `IsSuperMajority` is switched off.

`CheckSyncCheckpoint` is called only where synchronized checkpoints are not enforced.  Of a block
that is not in the index it asks that it is built on the checkpoint (`checkSyncCheckpoint_iff`).
-/

namespace Fedoracoin

variable {Block View World : Type}

def rejectObsolete : UInt8 := 0x11

/-! ## Hardened checkpoints -/

/-- `Params().NetworkID()`. -/
inductive Network where
  | main
  | testnet
  | regtest
deriving DecidableEq

/-- `TestNet()`. -/
def Network.testNet (network : Network) : Bool := decide (network = .testnet)

namespace Checkpoints

/-- `mapCheckpoints`, `mapCheckpointsTestnet` and `mapCheckpointsRegtest`. -/
def mapCheckpoints : Network → List (Nat × Uint256)
  | .main =>
      [(0, 0x746b18d1b206b817408c355a256a144e740579b6729043d184574642077f2054),
        (10000, 0x6d3ab190ef96943c4f9e972d581ea399185d0b6fcbd603f9ee03a0883aa9ae1d),
        (20000, 0xc917ee0a1575b5aa5ca577160a13e64a483c371e026874cd4daa0ca3ab1e0789),
        (30000, 0x86e335acb647b14329b7e9ad0761e2f8c0fb8e3a85aaba698ef1b94f40784f60),
        (40000, 0x9736b6307073cf608c6d2a22379d41438f05d26a021fb40c583f7f910923c4b4),
        (50000, 0xa6e0a09fe644dcbfc8ba436e8f481f1ccfbad2cfb4505588c5e0b4eb37bb6715),
        (50796, 0xad153188e0bb6d1d0c2e4baf79c7610d5d8744cf93d2986c778382c79862fda6),
        (51000, 0xa3c6303447a12734830c47ed140b65ea06993adcdfb513510635d3f4aae69bcb)]
  | .testnet => [(546, 0x000000002a936ca763904c3c35fce2f3556c559c0214345d31b1bcebf76acb70)]
  | .regtest => [(0, 0x0f9188f13cb7b2c71f2a335e3a4fc328bf5beb436012afca590b1a11466e2206)]

/-- `Checkpoints::CheckBlock`. -/
def checkBlock (network : Network) (fEnabled : Bool) (nHeight : Nat) (hash : Uint256) : Bool :=
  if network.testNet then true
  else if !fEnabled then true
  else
    match (mapCheckpoints network).lookup nHeight with
    | none => true
    | some checkpoint => decide (hash = checkpoint)

/-- `Checkpoints::GetLastCheckpoint`. -/
def getLastCheckpoint (network : Network) (fEnabled : Bool) (tree : BlockTree) : Option Uint256 :=
  if network.testNet then none
  else if !fEnabled then none
  else ((mapCheckpoints network).reverse.map Prod.snd).find? (· ∈ tree.entries)

/-- `Checkpoints::GetLatestHardenedCheckpoint`. -/
def getLatestHardenedCheckpoint (network : Network) : Uint256 :=
  (((mapCheckpoints network).getLast?).map Prod.snd).getD 0

end Checkpoints

/-! ## The checks -/

/-- What the rules for headers take from elsewhere: the settings, and the members of a header by
its hash. -/
structure HeaderEnv where
  network : Network := .main
  /-- `Checkpoints::fEnabled`. -/
  fEnabled : Bool := true
  eventHorizon : Nat → Int → Int → Bool
  nVersion : Uint256 → Int
  index : Uint256 → TargetIndex

/-- `CBlockIndex::IsSuperMajority`. -/
def isSuperMajority (_minVersion : Int) (_pstart : Uint256) (_nRequired _nToCheck : Nat) : Bool :=
  false

namespace HeaderEnv

/-- The entries from a block down to the genesis block. -/
def ancestry (henv : HeaderEnv) (tree : BlockTree) (pindex : Uint256) : Ancestry :=
  (tree.lineage pindex).map henv.index

/-- The checks of `AcceptBlockHeader` that follow the search for the previous block. -/
def checkHeader (henv : HeaderEnv) (enforced : Bool) (s : SyncNode View World)
    (hash pindexPrev : Uint256) : Except Failure Unit := do
  let tree := s.chain.mapBlockIndex
  let nHeight := tree.nHeight pindexPrev + 1
  let block := henv.index hash
  -- check proof of work
  let uiBits ← getNextWorkRequired henv.network.testNet henv.eventHorizon block.nTime
    (henv.ancestry tree pindexPrev)
  failIf (decide (block.nBits ≠ uiBits)) (.dos 100 rejectInvalid "bad-diffbits")
  -- check timestamp against prev
  failIf (decide (block.getBlockTime ≤ (henv.ancestry tree pindexPrev).getMedianTimePast))
    (.dos 0 rejectInvalid "time-too-old")
  failIf (!Checkpoints.checkBlock henv.network henv.fEnabled nHeight hash)
    (.dos 100 rejectCheckpoint "checkpoint mismatch")
  -- checkpoint advisory mode
  if !enforced then
    let satisfied ← s.checkSyncCheckpoint hash (some pindexPrev)
    failIf (!satisfied) (.error "checkpoint AcceptBlock() : rejected by synchronized checkpoint")
  -- don't accept any forks from the main chain prior to last checkpoint
  let pcheckpoint := Checkpoints.getLastCheckpoint henv.network henv.fEnabled tree
  failIf (pcheckpoint.any fun pcheckpoint ↦ decide (nHeight < tree.nHeight pcheckpoint))
    (.dos 100)
  failIf (decide (henv.nVersion hash < 2) &&
      (!henv.network.testNet && isSuperMajority 2 pindexPrev 950 1000 ||
        henv.network.testNet && isSuperMajority 2 pindexPrev 75 100))
    (.dos 0 rejectObsolete "bad-version")

variable {henv : HeaderEnv} {enforced : Bool} {s : SyncNode View World}
  {hash pindexPrev : Uint256}

end HeaderEnv

/-! ## `CheckSyncCheckpoint` -/

namespace SyncNode

variable {s : SyncNode View World} {hash pindexPrev : Uint256}

/-- Of a new block it asks that it is built on the checkpoint. -/
theorem checkSyncCheckpoint_iff (hsync : s.hashSyncCheckpoint ∈ s.chain.mapBlockIndex.entries)
    (hnew : hash ∉ s.chain.mapBlockIndex.entries) :
    s.checkSyncCheckpoint hash (some pindexPrev) = .ok true ↔
      s.hashSyncCheckpoint ∈ s.chain.mapBlockIndex.lineage pindexPrev := by
  have hne : hash ≠ s.hashSyncCheckpoint := by
    rintro rfl
    exact hnew hsync
  have hfail : failIf (decide (s.hashSyncCheckpoint ∉ s.chain.mapBlockIndex.entries))
      .assertion = .ok () := by
    rw [failIf_eq_ok, decide_eq_false_iff_not, not_not]
    exact hsync
  rw [checkSyncCheckpoint]
  dsimp only
  rw [hfail]
  change (if _ then _ else _) = _ ↔ _
  by_cases hlt : s.chain.mapBlockIndex.nHeight s.hashSyncCheckpoint <
      s.chain.mapBlockIndex.nHeight pindexPrev + 1
  · rw [if_pos hlt]
    obtain ⟨a, ha, htrace, hheight⟩ := traceBack_eq s.chain.mapBlockIndex
      (s.chain.mapBlockIndex.nHeight s.hashSyncCheckpoint) pindexPrev
    rw [min_eq_left (Nat.lt_succ_iff.mp hlt)] at hheight
    rw [← traceBack_eq_iff (Nat.lt_succ_iff.mp hlt), htrace]
    change Except.ok _ = _ ↔ _
    simp [hheight]
  · have hhigher : s.chain.mapBlockIndex.nHeight pindexPrev <
        s.chain.mapBlockIndex.nHeight s.hashSyncCheckpoint := by omega
    have hnot : s.hashSyncCheckpoint ∉ s.chain.mapBlockIndex.lineage pindexPrev := fun h ↦
      absurd (s.chain.mapBlockIndex.forest.height_le_of_mem h) (Nat.not_le.mpr hhigher)
    rw [if_neg hlt]
    refine iff_of_false ?_ hnot
    split
    case isTrue => exact fun h ↦ absurd (of_decide_eq_true (Except.ok.inj h)) hne
    case isFalse => exact fun h ↦ absurd (of_decide_eq_true (Except.ok.inj h)) hnew

end SyncNode

end Fedoracoin
