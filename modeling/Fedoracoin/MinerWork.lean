import Fedoracoin.ProofOfWork

/-!
# Proof of work in the miner

The nonce search of `FedoracoinMiner` and the first checks of `CheckWork`, beside
`CBlockHeader::CheckProofOfWork`.  The search writes the hash to one variable and compares another,
and `CheckWork` goes by NeoScrypt whatever the network and the height.
-/

namespace Fedoracoin

/-- `getuint256`, which drops the sign and what is beyond 256 bits. -/
def CBigNum.getuint256 (bn : CBigNum) : Uint256 := BitVec.ofNat 256 bn.natAbs

/-- What the miner takes from elsewhere besides. -/
structure MinerEnv extends PowEnv where
  fNeoScrypt : Bool := false
  /-- `neoscrypt`, with its profile; profile 0 is that of `GetPoWHash`. -/
  neoscrypt : CBlockHeader → Nat → Uint256

/-- The variables of the nonce search. -/
structure NonceSearch where
  block : CBlockHeader
  nHashesDone : Nat := 0
  hash : Uint256 := 0
  /-- The default constructor makes it 0. -/
  thash : Uint256 := 0

namespace MinerEnv

/-- The profile that the search gives to NeoScrypt. -/
def profile (env : MinerEnv) : Nat := if env.fNeoScrypt then 0x0 else 0x3

/-- The nonce search, for as many nonces as are given to it: the header that is found, if one is,
and otherwise where the search stands. -/
def searchNonce (env : MinerEnv) (hashTarget : Uint256) :
    Nat → NonceSearch → CBlockHeader ⊕ NonceSearch
  | 0, s => .inr s
  | rounds + 1, s =>
      let s := { s with hash := env.neoscrypt s.block env.profile }
      if s.thash ≤ hashTarget then .inl s.block
      else
        let nNonce := (s.block.nNonce + 1) % 2 ^ 32
        let s := { s with
          block := { s.block with nNonce := nNonce }
          nHashesDone := s.nHashesDone + 1 }
        if nNonce % 256 = 0 then .inr s else searchNonce env hashTarget rounds s

/-- The search from a header on, which is over after 256 nonces. -/
def mine (env : MinerEnv) (block : CBlockHeader) : CBlockHeader ⊕ NonceSearch :=
  env.searchNonce (CBigNum.setCompact block.nBits).getuint256 256 { block := block }

end MinerEnv

namespace PowEnv

/-- Whether `CheckWork` gives the block to `ProcessBlock`. -/
def checkWork (env : PowEnv) (block : CBlockHeader) : Bool :=
  let hash := env.getPoWHash block
  let hashTarget := (CBigNum.setCompact block.nBits).getuint256
  if hashTarget < hash then false
  else if block.hashPrevBlock ≠ env.hashTip then false
  else true

/-- Whether `CheckProofOfWork` looks at the NeoScrypt hash at the height. -/
def usesNeoScrypt (env : PowEnv) (nHeight : Int) : Bool :=
  nHeight = intMax || env.network.testNet && decide (10 ≤ nHeight)

/-- Whether `CheckProofOfWork` looks at the scrypt hash at the height. -/
def usesScrypt (env : PowEnv) (nHeight : Int) : Bool :=
  nHeight = intMax || !(env.network.testNet && decide (10 ≤ nHeight))

/-- A hash that `CheckProofOfWork` looks at is at or below the target. -/
def MeetsTarget (env : PowEnv) (block : CBlockHeader) (nHeight : Int) : Prop :=
  env.usesNeoScrypt nHeight = true ∧
      ((env.getPoWHash block).toNat : Int) ≤ CBigNum.setCompact block.nBits ∨
    env.usesScrypt nHeight = true ∧
      ((env.getPoWHashS block).toNat : Int) ≤ CBigNum.setCompact block.nBits

/-- The target is in the range of the network. -/
def TargetInRange (block : CBlockHeader) : Prop :=
  0 < CBigNum.setCompact block.nBits ∧ CBigNum.setCompact block.nBits ≤ bnProofOfWorkLimit

variable {env : PowEnv} {block : CBlockHeader} {nHeight : Int}

theorem checkHashProofOfWork_iff (bnLimit : CBigNum) (hash : Uint256) (nBits : Nat) :
    checkHashProofOfWork bnLimit hash nBits = true ↔
      (0 < CBigNum.setCompact nBits ∧ CBigNum.setCompact nBits ≤ bnLimit) ∧
        (hash.toNat : Int) ≤ CBigNum.setCompact nBits := by
  rw [checkHashProofOfWork]
  split
  case isTrue hout =>
    refine iff_of_false Bool.false_ne_true fun h ↦ ?_
    rcases hout with hle | hlt
    · exact absurd h.1.1 (not_lt.mpr hle)
    · exact absurd h.1.2 (not_le.mpr hlt)
  case isFalse hin =>
    rw [not_or, not_le, not_lt] at hin
    rw [decide_eq_true_iff]
    exact (and_iff_right hin).symm

/-- The validator goes by the range and by the hashes it looks at. -/
theorem checkProofOfWork_iff : env.checkProofOfWork block nHeight = true ↔
    TargetInRange block ∧ env.MeetsTarget block nHeight := by
  have hNeo := checkHashProofOfWork_iff bnProofOfWorkLimit (env.getPoWHash block) block.nBits
  have hS := checkHashProofOfWork_iff bnProofOfWorkLimit (env.getPoWHashS block) block.nBits
  rw [checkProofOfWork, MeetsTarget, usesNeoScrypt, usesScrypt, TargetInRange]
  by_cases hmax : nHeight = intMax
  · simp only [hmax, if_true, ite_self, Bool.or_eq_true, hNeo, hS, decide_true, Bool.true_or,
      true_and]
    tauto
  · cases env.network.testNet with
    | false =>
        simp only [hmax, if_false, Bool.false_eq_true, hS, decide_false, Bool.false_or,
          Bool.false_and, Bool.not_false, false_and, false_or, true_and]
    | true =>
        by_cases hten : 10 ≤ nHeight
        · simp only [hmax, hten, if_false, if_true, hNeo, decide_false, decide_true,
            Bool.false_or, Bool.true_and, Bool.not_true, Bool.false_eq_true, false_and, or_false,
            true_and]
        · simp only [hmax, hten, if_false, if_true, hS, decide_false, Bool.false_or,
            Bool.true_and, Bool.not_false, Bool.false_eq_true, false_and, false_or, true_and]

theorem checkWork_iff : env.checkWork block = true ↔
    env.getPoWHash block ≤ (CBigNum.setCompact block.nBits).getuint256 ∧
      block.hashPrevBlock = env.hashTip := by
  rw [checkWork]
  split
  case isTrue hlt =>
    exact iff_of_false Bool.false_ne_true fun h ↦ absurd h.1 (BitVec.not_le.mpr hlt)
  case isFalse hle =>
    rw [ite_not, Bool.if_true_left, Bool.or_false, decide_eq_true_iff]
    exact (and_iff_right (BitVec.not_lt.mp hle)).symm

/-- A target in range is a 256-bit number. -/
theorem toNat_getuint256 (h : TargetInRange block) :
    ((CBigNum.setCompact block.nBits).getuint256.toNat : Int) = CBigNum.setCompact block.nBits := by
  obtain ⟨hpos, hle⟩ := h
  generalize CBigNum.setCompact block.nBits = bn at hpos hle
  have hlimit : bnProofOfWorkLimit < 2 ^ 256 := by norm_num [bnProofOfWorkLimit]
  have hlt : bn < (2 ^ 256 : Int) := lt_of_le_of_lt hle hlimit
  have habs : (bn.natAbs : Int) = bn := Int.natAbs_of_nonneg (Int.le_of_lt hpos)
  have hbound : bn.natAbs < 2 ^ 256 := by
    have hcast : (bn.natAbs : Int) < (2 ^ 256 : Nat) := by
      rw [habs]
      exact_mod_cast hlt
    exact_mod_cast hcast
  rw [CBigNum.getuint256, BitVec.toNat_ofNat, Nat.mod_eq_of_lt hbound, habs]

/-- What `CheckWork` lets through meets a target in range. -/
theorem le_target_of_checkWork (h : env.checkWork block = true) (hrange : TargetInRange block) :
    ((env.getPoWHash block).toNat : Int) ≤ CBigNum.setCompact block.nBits := by
  rw [← toNat_getuint256 hrange]
  exact_mod_cast (checkWork_iff.mp h).1

end PowEnv

/-- The search finds the header it starts from: the hash it compares is 0. -/
theorem MinerEnv.mine_eq (env : MinerEnv) (block : CBlockHeader) : env.mine block = .inl block := by
  rw [mine, searchNonce]
  exact if_pos (Nat.zero_le _)

/-- **The miner and the validator.**  What `CheckWork` gives to `ProcessBlock` passes the validator
exactly if the target is in range and a hash that the validator looks at meets it, unless
`CheckWork` turns the block down; and what the nonce search finds meets the target exactly if the
header that it starts from does. -/
theorem miner_agrees (env : MinerEnv) (block : CBlockHeader) (nHeight : Int) :
    ((env.checkWork block = true → env.checkProofOfWork block nHeight = true) ↔
      (CBigNum.setCompact block.nBits).getuint256 < env.getPoWHash block ∨
      block.hashPrevBlock ≠ env.hashTip ∨
      PowEnv.TargetInRange block ∧ (env.usesNeoScrypt nHeight = true ∨
        env.usesScrypt nHeight = true ∧
          ((env.getPoWHashS block).toNat : Int) ≤ CBigNum.setCompact block.nBits)) ∧
    ((∀ found, env.mine block = .inl found → env.MeetsTarget found nHeight) ↔
      env.MeetsTarget block nHeight) := by
  constructor
  · by_cases hwork : env.checkWork block = true
    · obtain ⟨hle, htip⟩ := PowEnv.checkWork_iff.mp hwork
      rw [PowEnv.checkProofOfWork_iff, PowEnv.MeetsTarget]
      constructor
      · intro h
        obtain ⟨hrange, hmeets⟩ := h hwork
        exact Or.inr (Or.inr ⟨hrange, hmeets.imp_left And.left⟩)
      · rintro (hlt | hne | ⟨hrange, huses⟩) -
        · exact absurd hlt (BitVec.not_lt.mpr hle)
        · exact absurd htip hne
        · exact ⟨hrange, huses.imp_left fun hneo ↦
            ⟨hneo, PowEnv.le_target_of_checkWork hwork hrange⟩⟩
    · refine iff_of_true (fun h ↦ absurd h hwork) ?_
      rw [PowEnv.checkWork_iff, not_and_or, BitVec.not_le] at hwork
      exact hwork.imp_right Or.inl
  · rw [env.mine_eq]
    constructor
    · exact fun h ↦ h block rfl
    · rintro h found heq
      obtain rfl := Sum.inl.inj heq
      exact h

/-- A network on which NeoScrypt is easy, and scrypt is not. -/
def sampleMinerEnv : MinerEnv where
  network := .main
  getPoWHash _ := 0
  getPoWHashS _ := BitVec.ofNat 256 (2 ^ 255)
  adjustedTime := 0
  pcheckpoint := none
  hashTip := 0
  neoscrypt _ _ := BitVec.ofNat 256 (2 ^ 255)

def sampleMinedHeader : CBlockHeader where
  hashPrevBlock := 0
  hashMerkleRoot := 0
  nTime := 0
  nBits := 0x1e0fffff
  nNonce := 0

/-- The search finds the header at once, `CheckWork` gives it to `ProcessBlock`, and the validator
turns it down: its hash is above the target. -/
theorem miner_disagrees :
    sampleMinerEnv.mine sampleMinedHeader = .inl sampleMinedHeader ∧
    sampleMinerEnv.checkWork sampleMinedHeader = true ∧
    sampleMinerEnv.checkProofOfWork sampleMinedHeader 100000 = false ∧
    ¬ sampleMinerEnv.MeetsTarget sampleMinedHeader 100000 := by
  refine ⟨sampleMinerEnv.mine_eq _, by decide +kernel, by decide +kernel, ?_⟩
  rw [PowEnv.MeetsTarget]
  decide +kernel

end Fedoracoin
