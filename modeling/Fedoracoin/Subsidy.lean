import Fedoracoin.Core
import Mathlib.Algebra.Order.BigOperators.Group.Finset

/-!
# The block subsidy

`GetBlockValue` and `GetChainValue` of `main.cpp`.  In its first six eras a block
pays a reward drawn by a Mersenne twister seeded with seven hexadecimal digits of
the previous block's hash.  From height 1664000 on it pays a fixed amount, limited by
what is left of `MAX_MONEY` after `GetChainValue` has added up the values of the blocks
below the current tip, which it obtains from `GetBlockValue` again.

The recursion carries a fuel argument.  `Returns` says that some fuel gives the value;
where the source recurses for ever, no fuel does.

The two results about the tail era are that the limit is never applied, whatever
`GetChainValue` returns (`tail_subsidy`), and that the recursion ends exactly when the
tip is below the tail era (`getBlockValue_agree_iff`).
-/

namespace Fedoracoin

/-! ## The seed -/

/-- `base_uint::GetHex`: the 64 digits, most significant first. -/
def Uint256.getHex (h : Uint256) : List Char :=
  (List.range 64).map fun i ↦ Nat.digitChar (h.toNat / 16 ^ (63 - i) % 16)

/-- `hextable`. -/
def hexTable (c : Char) : Int64 :=
  if '0' ≤ c ∧ c ≤ '9' then Int64.ofNat (c.toNat - '0'.toNat)
  else if 'a' ≤ c ∧ c ≤ 'f' then Int64.ofNat (c.toNat - 'a'.toNat + 10)
  else if 'A' ≤ c ∧ c ≤ 'F' then Int64.ofNat (c.toNat - 'A'.toNat + 10)
  else -1

/-- `hex2long`, with `ret` the value read so far. -/
def hex2long (ret : Int64) : List Char → Int64
  | [] => ret
  | c :: hexString => if 0 ≤ ret then hex2long (ret <<< 4 ||| hexTable c) hexString else ret

/-- `hex2long(prevHash.ToString().substr(pos, 7))`. -/
def seedOf (prevHash : Uint256) (pos : Nat) : Int64 :=
  hex2long 0 ((prevHash.getHex.drop pos).take 7)

/-- A draw of `boost::uniform_int<>(lo, hi)` from a `boost::mt19937` with the given seed. -/
abbrev UniformInt := (seed : UInt32) → (lo hi : Int32) → Int32

/-- What `uniform_int` promises: draws stay within the bounds. -/
def UniformInt.InRange (uniformInt : UniformInt) : Prop :=
  ∀ seed lo hi, lo ≤ hi → lo ≤ uniformInt seed lo hi ∧ uniformInt seed lo hi ≤ hi

def generateMTRandom (uniformInt : UniformInt) (s : Int64) (range : Int32) : Int32 :=
  uniformInt s.toUInt64.toUInt32 1 range

/-! ## The global state the tail era reads -/

/-- `pindexBest`, `nBestHeight` and the last checkpoint in the block index. -/
structure TipState where
  /-- The block hashes from `pindexBest` down to genesis; empty when it is `NULL`. -/
  chain : List Uint256
  /-- The height of `Checkpoints::GetLastCheckpoint`, unless that is `NULL`. -/
  lastCheckpoint : Option Nat
  /-- `Checkpoints::GetLastCheckpointValue`. -/
  lastCheckpointValue : UInt64

namespace TipState

def nBestHeight (s : TipState) : Int := s.chain.length - 1

/-- The state at program start: no tip, `nBestHeight = -1`. -/
def initial : TipState := ⟨[], none, 0⟩

end TipState

/-! ## The two functions -/

/-- The loop of `GetChainValue`, walking down from `current` with the counter at `i`.
It reads the hash of `current->pprev`; there is no result when that is `NULL`. -/
def chainValueLoop (blockValue : Int → Uint256 → Option UInt64) (lastCheckpoint : Int) :
    (current : List Uint256) → (i : Int) → (total : UInt64) → Option UInt64
  | _ :: hash :: rest, i, total =>
      if lastCheckpoint < i then
        (blockValue i hash).bind fun v ↦
          chainValueLoop blockValue lastCheckpoint (hash :: rest) (i - 1) (total + v)
      else some total
  | [_], i, total | [], i, total => if lastCheckpoint < i then none else some total

def getChainValue (blockValue : Int → Uint256 → Option UInt64) (s : TipState)
    (nNumBlocks : Int) : Option UInt64 :=
  let count := if nNumBlocks < s.nBestHeight then nNumBlocks else s.nBestHeight
  let (lastCheckpoint, lastCheckpointWorth) : Int × UInt64 :=
    match s.lastCheckpoint with
    | some nHeight => if nHeight < count then (nHeight, s.lastCheckpointValue) else (0, 440)
    | none => (0, 440)
  (chainValueLoop blockValue lastCheckpoint s.chain count 0).map fun total ↦
    total + lastCheckpointWorth * coin.toUInt64

/-- The pseudo-random reward of an era: `(1 + generateMTRandom(seed, range)) * unit`. -/
def drawnSubsidy (uniformInt : UniformInt) (prevHash : Uint256) (pos : Nat) (range : Int32)
    (unit : Int64) : UInt64 :=
  ((1 + generateMTRandom uniformInt (seedOf prevHash pos) range).toInt64 * unit).toUInt64

/-- The subsidy after 1664000 blocks.  `int currentMinedCoins` keeps the low 32 bits of
the mined amount, and is converted to `uint64_t` for the sum and for the difference. -/
def tailSubsidy (mined : UInt64) : UInt64 :=
  let nSubsidy := (50000 * coin).toUInt64
  let currentMinedCoins : Int32 := mined.toUInt32.toInt32
  if maxMoney < currentMinedCoins.toInt64.toUInt64 + nSubsidy then
    maxMoney - currentMinedCoins.toInt64.toUInt64
  else nSubsidy

def getBlockValue (uniformInt : UniformInt) (s : TipState) :
    (fuel : Nat) → (nHeight : Int) → (nFees : Int64) → (prevHash : Uint256) → Option UInt64
  | 0, _, _, _ => none
  | fuel + 1, nHeight, nFees, prevHash =>
      if nHeight < 52000 then
        some (drawnSubsidy uniformInt prevHash 7 999999 oldCoin + nFees.toUInt64)
      else if nHeight < 104000 then
        some (drawnSubsidy uniformInt prevHash 7 2499999 coin + nFees.toUInt64)
      else if nHeight < 208000 then
        some (drawnSubsidy uniformInt prevHash 6 1249999 coin + nFees.toUInt64)
      else if nHeight < 416000 then
        some (drawnSubsidy uniformInt prevHash 7 624999 coin + nFees.toUInt64)
      else if nHeight < 832000 then
        some (drawnSubsidy uniformInt prevHash 7 312499 coin + nFees.toUInt64)
      else if nHeight < 1664000 then
        some (drawnSubsidy uniformInt prevHash 7 156249 coin + nFees.toUInt64)
      else
        (getChainValue (fun i hash ↦ getBlockValue uniformInt s fuel i 0 hash) s
          s.nBestHeight).map fun mined ↦ tailSubsidy mined + nFees.toUInt64

/-- `GetBlockValue` returns `v`. -/
def Returns (uniformInt : UniformInt) (s : TipState) (nHeight : Int) (nFees : Int64)
    (prevHash : Uint256) (v : UInt64) : Prop :=
  ∃ fuel, getBlockValue uniformInt s fuel nHeight nFees prevHash = some v

/-! ## The subsidy by height -/

/-- What `GetBlockValue` pays at a height before fees, if it returns. -/
def subsidyAt (uniformInt : UniformInt) (nHeight : Int) (prevHash : Uint256) : UInt64 :=
  if nHeight < 52000 then drawnSubsidy uniformInt prevHash 7 999999 oldCoin
  else if nHeight < 104000 then drawnSubsidy uniformInt prevHash 7 2499999 coin
  else if nHeight < 208000 then drawnSubsidy uniformInt prevHash 6 1249999 coin
  else if nHeight < 416000 then drawnSubsidy uniformInt prevHash 7 624999 coin
  else if nHeight < 832000 then drawnSubsidy uniformInt prevHash 7 312499 coin
  else if nHeight < 1664000 then drawnSubsidy uniformInt prevHash 7 156249 coin
  else (50000 * coin).toUInt64

section

variable {uniformInt : UniformInt} {s s' : TipState} {nHeight : Int} {nFees : Int64}
  {prevHash : Uint256} {v : UInt64} {fuel : Nat}

/-- **The limit is never applied.**  A 32-bit amount of mined coins plus the subsidy is
far below the wrapped `MAX_MONEY`, and a negative one wraps around to less than the
subsidy. -/
theorem tail_subsidy (mined : UInt64) : tailSubsidy mined = (50000 * coin).toUInt64 := by
  have hl := mined.toUInt32.toInt32.le_toInt
  have hu := mined.toUInt32.toInt32.toInt_lt
  rw [tailSubsidy]
  generalize mined.toUInt32.toInt32 = c at hl hu
  have hc := toNat_toUInt64 c.toInt64
  rw [Int32.toInt_toInt64] at hc
  have hs : ((50000 * coin).toUInt64).toNat = 5000000000000 := by decide
  refine if_neg ?_
  rw [UInt64.lt_iff_toNat_lt, maxMoney_toNat, UInt64.toNat_add, hs]
  omega

theorem getBlockValue_of_lt (h : nHeight < 1664000) :
    getBlockValue uniformInt s (fuel + 1) nHeight nFees prevHash =
      some (subsidyAt uniformInt nHeight prevHash + nFees.toUInt64) := by
  rw [getBlockValue, subsidyAt]
  split_ifs <;> rfl

theorem getBlockValue_of_le (h : 1664000 ≤ nHeight) :
    getBlockValue uniformInt s (fuel + 1) nHeight nFees prevHash =
      (getChainValue (fun i hash ↦ getBlockValue uniformInt s fuel i 0 hash) s
        s.nBestHeight).map fun _ ↦ subsidyAt uniformInt nHeight prevHash + nFees.toUInt64 := by
  rw [getBlockValue, subsidyAt]
  split_ifs <;> first | omega | skip
  simp only [tail_subsidy]

/-- A value returned is the scheduled subsidy plus the fees, whatever the state. -/
theorem getBlockValue_eq (h : getBlockValue uniformInt s fuel nHeight nFees prevHash = some v) :
    v = subsidyAt uniformInt nHeight prevHash + nFees.toUInt64 := by
  cases fuel with
  | zero => exact absurd h (by simp [getBlockValue])
  | succ fuel =>
      rcases lt_or_ge nHeight 1664000 with hlt | hge
      · rw [getBlockValue_of_lt hlt, Option.some.injEq] at h
        exact h.symm
      · rw [getBlockValue_of_le hge, Option.map_eq_some_iff] at h
        obtain ⟨_, _, h⟩ := h
        exact h.symm

theorem Returns.eq (h : Returns uniformInt s nHeight nFees prevHash v) :
    v = subsidyAt uniformInt nHeight prevHash + nFees.toUInt64 :=
  h.elim fun _ ↦ getBlockValue_eq

/-! ## Termination -/

/-- Below the tail era every call in the loop returns at once, so the loop does. -/
theorem chainValueLoop_isSome {blockValue : Int → Uint256 → Option UInt64}
    {lastCheckpoint : Int} (h0 : 0 ≤ lastCheckpoint) {current : List Uint256} {i : Int}
    {total : UInt64} (hlen : i < current.length)
    (hval : ∀ j hash, j ≤ i → (blockValue j hash).isSome) :
    (chainValueLoop blockValue lastCheckpoint current i total).isSome := by
  induction current generalizing i total with
  | nil =>
      rw [List.length_nil] at hlen
      rw [chainValueLoop, if_neg (by omega)]
      rfl
  | cons top rest ih =>
      cases rest with
      | nil =>
          rw [List.length_singleton] at hlen
          rw [chainValueLoop, if_neg (by omega)]
          rfl
      | cons hash rest =>
          rw [chainValueLoop]
          split
          · obtain ⟨v, hv⟩ := Option.isSome_iff_exists.mp (hval i hash le_rfl)
            rw [hv, Option.bind_some]
            refine ih ?_ fun j hash hj ↦ hval j hash (by omega)
            simp only [List.length_cons] at hlen ⊢
            omega
          · rfl

theorem getChainValue_isSome (blockValue : Int → Uint256 → Option UInt64)
    (hval : ∀ j hash, j ≤ s.nBestHeight → (blockValue j hash).isSome) :
    (getChainValue blockValue s s.nBestHeight).isSome := by
  have hlen : s.nBestHeight < s.chain.length := by
    rw [TipState.nBestHeight]
    omega
  have key : ∀ lastCheckpoint : Int, 0 ≤ lastCheckpoint →
      (chainValueLoop blockValue lastCheckpoint s.chain s.nBestHeight 0).isSome :=
    fun _ h0 ↦ chainValueLoop_isSome h0 hlen hval
  rw [getChainValue, Option.isSome_map]
  simp only [lt_irrefl, if_false]
  split
  · split
    · exact key _ (Int.natCast_nonneg _)
    · exact key _ le_rfl
  · exact key _ le_rfl

/-- **Divergence.**  With the tip in the tail era, the first call in the loop of
`GetChainValue` is about a tail block again. -/
theorem getBlockValue_eq_none (hs : 1664000 ≤ s.nBestHeight) (h : 1664000 ≤ nHeight) :
    getBlockValue uniformInt s fuel nHeight nFees prevHash = none := by
  induction fuel generalizing nHeight nFees prevHash with
  | zero => rfl
  | succ fuel ih =>
      have key : ∀ lastCheckpoint : Int, lastCheckpoint < s.nBestHeight →
          chainValueLoop (fun i hash ↦ getBlockValue uniformInt s fuel i 0 hash)
            lastCheckpoint s.chain s.nBestHeight 0 = none := by
        intro lastCheckpoint hlt
        rcases s.chain with _ | ⟨top, _ | ⟨hash, rest⟩⟩
        · rw [chainValueLoop, if_pos hlt]
        · rw [chainValueLoop, if_pos hlt]
        · rw [chainValueLoop, if_pos hlt, ih hs, Option.bind_none]
      rw [getBlockValue_of_le h, Option.map_eq_none_iff, getChainValue, Option.map_eq_none_iff]
      simp only [lt_irrefl, if_false]
      split
      · split
        · exact key _ (by assumption)
        · exact key _ (by omega)
      · exact key _ (by omega)

/-- `GetBlockValue` returns its scheduled value exactly when the block or the tip is below
the tail era. -/
theorem returns_iff : Returns uniformInt s nHeight nFees prevHash v ↔
    (nHeight < 1664000 ∨ s.nBestHeight < 1664000) ∧
      v = subsidyAt uniformInt nHeight prevHash + nFees.toUInt64 := by
  constructor
  · intro hr
    refine ⟨?_, hr.eq⟩
    obtain ⟨fuel, h⟩ := hr
    by_contra hno
    rw [not_or, not_lt, not_lt] at hno
    rw [getBlockValue_eq_none hno.2 hno.1] at h
    cases h
  · rintro ⟨h, rfl⟩
    rcases lt_or_ge nHeight 1664000 with hlt | hge
    · exact ⟨1, getBlockValue_of_lt hlt⟩
    · have hs := h.resolve_left (not_lt.mpr hge)
      obtain ⟨c, hc⟩ := Option.isSome_iff_exists.mp (getChainValue_isSome
        (fun i hash ↦ getBlockValue uniformInt s 1 i 0 hash) fun j hash hj ↦ by
          rw [getBlockValue_of_lt (lt_of_le_of_lt hj hs)]
          rfl)
      exact ⟨2, by rw [getBlockValue_of_le hge, hc]; rfl⟩

/-- **Agreement of two nodes.**  Both compute the coinbase limit of a block, and the same
one, exactly when the block or both tips are below the tail era. -/
theorem getBlockValue_agree_iff (uniformInt : UniformInt) (s s' : TipState) (nHeight : Int)
    (nFees : Int64) (prevHash : Uint256) :
    (∃ v, Returns uniformInt s nHeight nFees prevHash v ∧
      Returns uniformInt s' nHeight nFees prevHash v) ↔
      nHeight < 1664000 ∨ (s.nBestHeight < 1664000 ∧ s'.nBestHeight < 1664000) := by
  simp only [returns_iff]
  constructor
  · rintro ⟨v, ⟨h, _⟩, h', _⟩
    omega
  · intro h
    exact ⟨_, ⟨by omega, rfl⟩, by omega, rfl⟩

/-- A node whose tip has reached the tail era cannot compute the limit of a tail block. -/
theorem getBlockValue_not_total :
    ¬ ∀ (uniformInt : UniformInt) (s s' : TipState) (nHeight : Int) (nFees : Int64)
      (prevHash : Uint256), ∃ v, Returns uniformInt s nHeight nFees prevHash v ∧
        Returns uniformInt s' nHeight nFees prevHash v := by
  intro h
  obtain ⟨v, hv, _⟩ := h (fun _ lo _ ↦ lo) ⟨List.replicate 1664001 0, none, 0⟩ .initial
    1664001 0 0
  rw [returns_iff, TipState.nBestHeight, List.length_replicate] at hv
  omega

end

/-! ## Total issuance -/

/-- One run of `GetBlockValue` without fees over the heights `0..N`, each call made in a
state of its own. -/
structure Issuance (N : Nat) where
  uniformInt : UniformInt
  inRange : uniformInt.InRange
  tip : Nat → TipState
  prevHash : Nat → Uint256
  value : Nat → UInt64
  returns : ∀ h, h ≤ N → Returns uniformInt (tip h) h 0 (prevHash h) (value h)

/-- The amount `MAX_MONEY` is declared to be, as an exact product. -/
def declaredMaxMoney : ℕ := 500000000000 * 100000000

/-- The range of the draw in the six eras. -/
def drawRange (h : Nat) : Int32 :=
  if h < 52000 then 999999
  else if h < 104000 then 2499999
  else if h < 208000 then 1249999
  else if h < 416000 then 624999
  else if h < 832000 then 312499
  else 156249

/-- The number of base units one coin of the reward counts for. -/
def rewardUnit (h : Nat) : ℕ := if h < 52000 then 500000000 else 100000000

/-- The position of the seed in the previous hash. -/
def seedPos (h : Nat) : Nat := if 104000 ≤ h ∧ h < 208000 then 6 else 7

/-- The exact reward of a height in the six eras. -/
def drawnReward (uniformInt : UniformInt) (h : Nat) (prevHash : Uint256) : ℕ :=
  (1 + (generateMTRandom uniformInt (seedOf prevHash (seedPos h)) (drawRange h)).toInt.toNat) *
    rewardUnit h

/-- The most a height can pay. -/
def highestReward (h : Nat) : ℕ := (1 + (drawRange h).toInt.toNat) * rewardUnit h

section

variable {uniformInt : UniformInt} {prevHash : Uint256} {h : Nat}

theorem draw_bounds (hr : uniformInt.InRange) (seed : Int64) {range : Int32}
    (hrange : 1 ≤ range) :
    1 ≤ (generateMTRandom uniformInt seed range).toInt ∧
      (generateMTRandom uniformInt seed range).toInt ≤ range.toInt := by
  obtain ⟨hl, hu⟩ := hr seed.toUInt64.toUInt32 1 range hrange
  rw [Int32.le_iff_toInt_le] at hl hu
  exact ⟨hl, hu⟩

/-- No step of the reward's computation overflows. -/
theorem drawnSubsidy_toNat (hr : uniformInt.InRange) {pos : Nat} {range : Int32} {unit : Int64}
    (hrange : 1 ≤ range) (hle : range.toInt ≤ 2499999) (hunit : 0 ≤ unit.toInt)
    (hunit' : unit.toInt ≤ 500000000) :
    (drawnSubsidy uniformInt prevHash pos range unit).toNat =
      (1 + (generateMTRandom uniformInt (seedOf prevHash pos) range).toInt.toNat) *
        unit.toInt.toNat := by
  obtain ⟨hl, hu⟩ := draw_bounds hr (seedOf prevHash pos) hrange
  rw [drawnSubsidy]
  generalize generateMTRandom uniformInt (seedOf prevHash pos) range = rand at hl hu ⊢
  have hsum : (1 + rand).toInt64.toInt = 1 + rand.toInt := by
    rw [Int32.toInt_toInt64, Int32.toInt_add, show (1 : Int32).toInt = 1 from rfl,
      Int.bmod_eq_of_le] <;> omega
  have hprod0 : 0 ≤ (1 + rand.toInt) * unit.toInt := mul_nonneg (by omega) hunit
  have hprod : (1 + rand.toInt) * unit.toInt ≤ 2500000 * 500000000 :=
    mul_le_mul (by omega) hunit' hunit (by norm_num)
  have hval := toNat_toUInt64 ((1 + rand).toInt64 * unit)
  rw [Int64.toInt_mul, hsum, Int.bmod_eq_of_le (by omega) (by omega)] at hval
  zify
  rw [hval, Int.toNat_of_nonneg (by omega), Int.toNat_of_nonneg hunit]
  omega

/-- In the six eras the subsidy is the exact reward. -/
theorem subsidyAt_toNat (hr : uniformInt.InRange) (hlt : h < 1664000) :
    (subsidyAt uniformInt h prevHash).toNat = drawnReward uniformInt h prevHash := by
  -- with every bound read in `Nat`, one case split serves all of the tables
  simp only [subsidyAt, drawnReward, drawRange, rewardUnit, seedPos, Nat.cast_lt_ofNat]
  split_ifs
  all_goals first
    | omega
    | (refine drawnSubsidy_toNat hr ?_ ?_ ?_ ?_ <;> decide)

/-- In the tail era it is 50000 coins. -/
theorem subsidyAt_tail (hge : 1664000 ≤ h) :
    (subsidyAt uniformInt h prevHash).toNat = 5000000000000 := by
  rw [subsidyAt]
  split_ifs <;> first | omega | rfl

theorem drawnReward_bounds (hr : uniformInt.InRange) :
    2 * rewardUnit h ≤ drawnReward uniformInt h prevHash ∧
      drawnReward uniformInt h prevHash ≤ highestReward h := by
  have hrange : 1 ≤ drawRange h := by
    rw [drawRange]
    split_ifs <;> decide
  obtain ⟨hl, hu⟩ := draw_bounds hr (seedOf prevHash (seedPos h)) hrange
  exact ⟨Nat.mul_le_mul_right _ (by omega), Nat.mul_le_mul_right _ (by omega)⟩

/-- A sum over an era in which every block pays the same. -/
theorem sum_era (f : Nat → ℕ) (start len c : Nat) (h : ∀ i, i < len → f (start + i) = c) :
    ∑ i ∈ Finset.range len, f (start + i) = len * c := by
  rw [Finset.sum_congr rfl fun i hi ↦ h i (Finset.mem_range.mp hi), Finset.sum_const,
    Finset.card_range, Nat.nsmul_eq_mul]

theorem highestReward_eq (hh : h < 208000) : highestReward h =
    if h < 52000 then 500000000000000
    else if h < 104000 then 250000000000000 else 125000000000000 := by
  rw [highestReward, drawRange, rewardUnit]
  rcases lt_or_ge h 52000 with h1 | h1
  · simp only [if_pos h1]
    rfl
  simp only [if_neg (not_lt.mpr h1)]
  rcases lt_or_ge h 104000 with h2 | h2
  · simp only [if_pos h2]
    rfl
  · simp only [if_neg (not_lt.mpr h2), if_pos hh]
    rfl

/-- The highest draws of the first 192000 blocks add up to `MAX_MONEY` as declared. -/
theorem sum_highest : ∑ h ∈ Finset.range (52000 + 52000 + 88000), highestReward h =
    declaredMaxMoney := by
  have h1 := sum_era highestReward 0 52000 500000000000000
    fun i hi ↦ by rw [highestReward_eq (by omega), if_pos (by omega)]
  have h2 := sum_era highestReward 52000 52000 250000000000000
    fun i hi ↦ by rw [highestReward_eq (by omega), if_neg (by omega), if_pos (by omega)]
  have h3 := sum_era highestReward (52000 + 52000) 88000 125000000000000
    fun i hi ↦ by rw [highestReward_eq (by omega), if_neg (by omega), if_neg (by omega)]
  simp only [zero_add] at h1
  rw [Finset.sum_range_add, Finset.sum_range_add, h1, h2, h3]
  rfl

/-- The lowest draws of the six eras. -/
theorem sum_lowest :
    ∑ h ∈ Finset.range (52000 + 1612000), 2 * rewardUnit h = 374400000000000 := by
  have h1 := sum_era (fun h ↦ 2 * rewardUnit h) 0 52000 1000000000 fun i hi ↦ by
    rw [zero_add, rewardUnit, if_pos hi]
  have h2 := sum_era (fun h ↦ 2 * rewardUnit h) 52000 1612000 200000000 fun i hi ↦ by
    rw [rewardUnit, if_neg (by omega)]
  simp only [zero_add] at h1
  rw [Finset.sum_range_add, h1, h2]

end

namespace Issuance

/-- The run in which every draw is given by `uniformInt` and no tip is ever set. -/
def ofDraws (uniformInt : UniformInt) (inRange : uniformInt.InRange) (N : Nat) : Issuance N where
  uniformInt := uniformInt
  inRange := inRange
  tip _ := .initial
  prevHash _ := 0
  value h := subsidyAt uniformInt h 0
  returns h _ := returns_iff.mpr ⟨Or.inr (by decide), (UInt64.add_zero _).symm⟩

/-- The run with the highest draws. -/
def highest (N : Nat) : Issuance N :=
  ofDraws (fun _ _ hi ↦ hi) (fun _ _ _ h ↦ ⟨h, Int32.le_refl _⟩) N

/-- The run with the lowest draws. -/
def lowest (N : Nat) : Issuance N :=
  ofDraws (fun _ lo _ ↦ lo) (fun _ _ _ h ↦ ⟨Int32.le_refl _, h⟩) N

/-- The exact sum of the values. -/
def total {N : Nat} (r : Issuance N) : ℕ :=
  ∑ h ∈ Finset.range (N + 1), (r.value h).toNat

/-- The drawn part of the total. -/
def drawn {N : Nat} (r : Issuance N) : ℕ :=
  ∑ h ∈ Finset.range (min (N + 1) 1664000), drawnReward r.uniformInt h (r.prevHash h)

variable {N : Nat} (r : Issuance N)

theorem value_eq {h : Nat} (hN : h ≤ N) :
    r.value h = subsidyAt r.uniformInt h (r.prevHash h) :=
  (r.returns h hN).eq.trans (UInt64.add_zero _)

theorem total_eq : r.total = r.drawn + (N + 1 - 1664000) * 5000000000000 := by
  have hsplit : N + 1 = min (N + 1) 1664000 + (N + 1 - 1664000) := by omega
  have hdrawn : ∑ h ∈ Finset.range (min (N + 1) 1664000), (r.value h).toNat = r.drawn := by
    refine Finset.sum_congr rfl fun h hh ↦ ?_
    rw [Finset.mem_range] at hh
    rw [r.value_eq (by omega), subsidyAt_toNat r.inRange (by omega)]
  have htail := sum_era (fun h ↦ (r.value h).toNat) (min (N + 1) 1664000)
    (N + 1 - 1664000) 5000000000000 fun i hi ↦ by
      rw [r.value_eq (by omega), subsidyAt_tail (by omega)]
  rw [total, hsplit, Finset.sum_range_add, hdrawn, htail, ← hsplit]

theorem drawn_le (hN : N < 192000) : r.drawn ≤ declaredMaxMoney := by
  rw [drawn, min_eq_left (by omega), ← sum_highest]
  refine (Finset.sum_le_sum fun h _ ↦ (drawnReward_bounds r.inRange).2).trans ?_
  exact Finset.sum_le_sum_of_subset (Finset.range_subset_range.mpr (by omega))

theorem lt_drawn_highest (hN : 192000 ≤ N) : declaredMaxMoney < (highest N).drawn := by
  have hsub : Finset.range (52000 + 52000 + 88000 + 1) ⊆ Finset.range (min (N + 1) 1664000) :=
    Finset.range_subset_range.mpr (by omega)
  have hlast : 0 < highestReward (52000 + 52000 + 88000) := by decide
  refine lt_of_lt_of_le ?_ (Finset.sum_le_sum_of_subset hsub)
  rw [Finset.sum_range_succ, ← sum_highest]
  exact Nat.lt_add_of_pos_right hlast

theorem le_drawn (hN : 1664000 ≤ N) : 374400000000000 ≤ r.drawn := by
  rw [drawn, min_eq_right (by omega), ← sum_lowest]
  exact Finset.sum_le_sum fun h _ ↦ (drawnReward_bounds r.inRange).1

theorem drawn_lowest_le : (lowest N).drawn ≤ 374400000000000 := by
  rw [← sum_lowest]
  exact Finset.sum_le_sum_of_subset (Finset.range_subset_range.mpr (by omega))

end Issuance

/-- **When issuance stays within `MAX_MONEY` as declared.**  For a run the drawn rewards and
50000 coins for each block of the tail era have to fit.  Up to height 191999 they always
do; from height 11663925 on they never do, as the tail era never ends. -/
theorem issuance_le_iff (N : Nat) :
    (∀ r : Issuance N, r.total ≤ declaredMaxMoney ↔
      r.drawn + (N + 1 - 1664000) * 5000000000000 ≤ declaredMaxMoney) ∧
    ((∀ r : Issuance N, r.total ≤ declaredMaxMoney) ↔ N < 192000) ∧
    ((∃ r : Issuance N, r.total ≤ declaredMaxMoney) ↔ N < 11663925) := by
  have hmax : declaredMaxMoney = 50000000000000000000 := rfl
  refine ⟨fun r ↦ by rw [r.total_eq], ⟨fun hall ↦ ?_, fun hN r ↦ ?_⟩, ⟨?_, fun hN ↦ ?_⟩⟩
  · by_contra hN
    have hle := hall (.highest N)
    have hlt := Issuance.lt_drawn_highest (not_lt.mp hN)
    rw [Issuance.total_eq] at hle
    omega
  · have hle := r.drawn_le hN
    rw [r.total_eq]
    omega
  · rintro ⟨r, hle⟩
    by_contra hN
    have hleast := r.le_drawn (by omega)
    rw [r.total_eq] at hle
    omega
  · refine ⟨.lowest N, ?_⟩
    have hmost := Issuance.drawn_lowest_le (N := N)
    rw [Issuance.total_eq]
    omega

/-- Ten million blocks of the tail era alone pay the declared maximum. -/
theorem issuance_not_capped :
    ¬ ∀ (N : Nat) (r : Issuance N), r.total ≤ declaredMaxMoney := by
  intro hall
  have hle := hall 11664000 (.lowest 11664000)
  rw [Issuance.total_eq] at hle
  have hmax : declaredMaxMoney = 50000000000000000000 := rfl
  omega

end Fedoracoin
