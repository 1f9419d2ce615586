import Fedoracoin.BlockSerialize
import Fedoracoin.ScriptLimits

/-!
# The height in a coinbase

`GetBlockHeight` reads the height of a block from the script of its coinbase, where the miner pushes
it first and `AcceptBlock` asks for it.  A number is pushed with as few bytes as its sign bit
allows (`length_serialize_le_iff`), and the reader takes a first byte under 4 for the length of a
push.
-/

namespace Fedoracoin

open Wire

/-! ## Writers and the reader -/

/-- `push_int64`, which is `operator<<` of an integer. -/
def CScript.pushInt64 (script : CScript) (n : Int) : CScript :=
  if n = -1 ∨ (1 ≤ n ∧ n ≤ 16) then script ++ [UInt8.ofNat (n + 0x50).toNat]
  else script.push (CScriptNum.serialize n)

/-- The script that `IncrementExtraNonce` gives the coinbase. -/
def coinbaseScript (nHeight nExtraNonce : Nat) (coinbaseFlags : CScript) : CScript :=
  (CScript.pushInt64 [] nHeight).push (CScriptNum.serialize nExtraNonce) ++ coinbaseFlags

/-- The comparison in `AcceptBlock`, which is passed if the height is there. -/
def startsWithHeight (scriptSig : CScript) (nHeight : Int) : Bool :=
  let expect := CScript.pushInt64 [] nHeight
  !(scriptSig.length < expect.length || scriptSig.take expect.length != expect)

namespace CBlock

/-- `vtx[0].vin[0].scriptSig`. -/
def coinbaseScriptSig (block : CBlock) : Option CScript := do
  let tx ← block.vtx[0]?
  let txin ← tx.vin[0]?
  return txin.scriptSig

/-- `GetBlockHeight`; there is no value where it reads what is not there. -/
def getBlockHeight (block : CBlock) : Option Int :=
  -- Prevents a crash if called on a block header alone
  if block.vtx.isEmpty then some (-1)
  else do
    let scriptsig ← block.coinbaseScriptSig
    let scount ← scriptsig[0]?
    if scount < 4 then do
      let pheight ← (List.range scount.toNat).mapM fun i ↦ scriptsig[i + 1]?
      return (BitVec.ofNat 32 (ofBytes pheight)).toInt
    else return -1

end CBlock

/-! ## The length of a number -/

namespace CScriptNum

variable {k n j : Nat} {b : UInt8}

/-- A number that is not negative is pushed without a sign, and with a zero byte more if the highest
bit is taken. -/
theorem serialize_natCast (n : Nat) :
    serialize n = absBytes 8 n ++
      (if ∃ b ∈ (absBytes 8 n).getLast?, 128 ≤ b.toNat then [0] else []) := by
  have hneg : ¬ (n : Int) < 0 := Int.not_lt.mpr (Int.natCast_nonneg n)
  rw [serialize, Int.natAbs_natCast]
  cases hlast : (absBytes 8 n).getLast? with
  | none => 
    rw [List.getLast?_eq_none_iff.mp hlast]
    simp
  | some back =>
      simp only [if_neg hneg, bne_iff_ne, and_0x80_ne_zero_iff]
      split
      case isTrue h =>
          have hex : ∃ b ∈ some back, 128 ≤ b.toNat := ⟨back, rfl, h⟩
          rw [if_pos hex]
      case isFalse h =>
          have hex : ¬ ∃ b ∈ some back, 128 ≤ b.toNat := by
            rintro ⟨b, hb, hle⟩
            obtain rfl := Option.some.inj hb
            exact h hle
          rw [if_neg hex, List.append_nil]

/-- **The length of a number.**  `j + 1` bytes are enough for the numbers whose bits and sign bit
fit in them. -/
theorem length_serialize_le_iff (hj : j + 1 < 8) :
    (serialize n).length ≤ j + 1 ↔ n < 128 * 256 ^ j := by
  rcases Nat.lt_or_ge n (2 ^ 64) with hn | hn
  · exact length_serialize_le_iff_natAbs (n := (n : Int)) hn
  · -- all eight bytes are there
    have hlen := (length_absBytes_le_iff (n := n) hj).not.mpr
      (Nat.not_lt.mpr ((Nat.pow_le_pow_right (by decide) hj.le).trans hn))
    have hpow : 128 * 256 ^ j ≤ n := by
      calc 128 * 256 ^ j ≤ 256 * 256 ^ j := Nat.mul_le_mul_right _ (by decide)
        _ = 256 ^ (j + 1) := (pow_succ' 256 j).symm
        _ ≤ 256 ^ 8 := Nat.pow_le_pow_right (by decide) hj.le
        _ ≤ n := hn
    rw [serialize_natCast, List.length_append]
    exact iff_of_false (by omega) (Nat.not_lt.mpr hpow)

theorem ofBytes_append_zero (bytes : List UInt8) : ofBytes (bytes ++ [0]) = ofBytes bytes := by
  induction bytes with
  | nil => rfl
  | cons b bytes ih => rw [List.cons_append, ofBytes, ih, ofBytes]

theorem ofBytes_serialize (hn : n < 2 ^ 64) : ofBytes (serialize n) = n := by
  rw [serialize_natCast]
  split
  case isTrue => rw [ofBytes_append_zero, ofBytes_absBytes hn]
  case isFalse => rw [List.append_nil, ofBytes_absBytes hn]

end CScriptNum

/-! ## What is pushed is read -/

section

variable {block : CBlock} {scriptSig vch rest : List UInt8} {h : Nat}

theorem mapM_range_getElem? {α : Type} (l : List α) {n : Nat} (hn : n ≤ l.length) :
    (List.range n).mapM (fun i ↦ l[i]?) = some (l.take n) := by
  induction n with
  | zero => rfl
  | succ n ih =>
      rw [List.range_succ, List.mapM_append, ih (Nat.le_of_succ_le hn),
        List.take_succ_eq_append_getElem hn]
      simp only [List.mapM_cons, List.mapM_nil, List.getElem?_eq_getElem hn, Option.bind_eq_bind,
        Option.bind_some, Option.pure_def]

/-- A short vector is pushed after its length. -/
theorem CScript.push_nil_of_short (hlen : vch.length < 76) :
    CScript.push [] vch = UInt8.ofNat vch.length :: vch := by
  have hop : vch.length < opPushdata1.toNat := hlen
  rw [CScript.push, if_pos hop]
  rfl

theorem pushInt64_nil (hh : h = 0 ∨ 16 < h) :
    CScript.pushInt64 [] h =
      UInt8.ofNat (CScriptNum.serialize h).length :: CScriptNum.serialize h := by
  have hnot : ¬ ((h : Int) = -1 ∨ (1 ≤ (h : Int) ∧ (h : Int) ≤ 16)) := by omega
  rw [CScript.pushInt64, if_neg hnot]
  exact CScript.push_nil_of_short ((length_serialize_le h).trans_lt (by decide))

theorem CBlock.getBlockHeight_of_coinbase (hscript : block.coinbaseScriptSig = some scriptSig) :
    block.getBlockHeight = (do
      let scount ← scriptSig[0]?
      if scount < 4 then do
        let pheight ← (List.range scount.toNat).mapM fun i ↦ scriptSig[i + 1]?
        return (BitVec.ofNat 32 (ofBytes pheight)).toInt
      else return -1) := by
  have hne : ¬ block.vtx.isEmpty = true := by
    intro hnil
    rw [CBlock.coinbaseScriptSig, List.isEmpty_iff.mp hnil] at hscript
    cases hscript
  rw [CBlock.getBlockHeight, if_neg hne, hscript]
  rfl

/-- A push of less than four bytes is read as a number. -/
theorem CBlock.getBlockHeight_of_short
    (hscript : block.coinbaseScriptSig = some (UInt8.ofNat vch.length :: (vch ++ rest)))
    (hlen : vch.length < 4) : block.getBlockHeight = some (ofBytes vch : Int) := by
  have hnat : (UInt8.ofNat vch.length).toNat = vch.length :=
    UInt8.toNat_ofNat_of_lt' (hlen.trans (by decide))
  have hlt : UInt8.ofNat vch.length < 4 := by
    rw [UInt8.lt_iff_toNat_lt, hnat]
    exact hlen
  have hread := mapM_range_getElem? (vch ++ rest) (n := vch.length) (by simp)
  have hsmall : ofBytes vch < 256 ^ 3 :=
    (ofBytes_lt vch).trans_le (Nat.pow_le_pow_right (by decide) (Nat.le_of_lt_succ hlen))
  rw [getBlockHeight_of_coinbase hscript]
  simp only [List.getElem?_cons_zero, Option.bind_eq_bind, Option.bind_some, if_pos hlt, hnat,
    List.getElem?_cons_succ, hread, List.take_left, Option.pure_def, Option.some_inj]
  rw [BitVec.toInt_eq_toNat_of_lt, BitVec.toNat_ofNat, Nat.mod_eq_of_lt (by omega)]
  rw [BitVec.toNat_ofNat, Nat.mod_eq_of_lt (by omega)]
  omega

/-- Of a longer push nothing is read. -/
theorem CBlock.getBlockHeight_of_long
    (hscript : block.coinbaseScriptSig = some (UInt8.ofNat vch.length :: (vch ++ rest)))
    (hlen : 4 ≤ vch.length) (hlt : vch.length < 256) : block.getBlockHeight = some (-1) := by
  have hge : ¬ UInt8.ofNat vch.length < 4 := by
    rw [UInt8.lt_iff_toNat_lt, UInt8.toNat_ofNat_of_lt' hlt]
    exact Nat.not_lt.mpr hlen
  rw [getBlockHeight_of_coinbase hscript]
  simp only [List.getElem?_cons_zero, Option.bind_eq_bind, Option.bind_some, if_neg hge,
    Option.pure_def]

/-- **The height in a coinbase.**  From a coinbase that starts with the height as the miner pushes
it, `GetBlockHeight` reads the height if it fits in three bytes with its sign, and else nothing. -/
theorem getBlockHeight_coinbase (block : CBlock) (scriptSig : CScript) (h : Nat)
    (hscript : block.coinbaseScriptSig = some scriptSig)
    (hpush : CScript.pushInt64 [] h <+: scriptSig) (hh : h = 0 ∨ 16 < h) :
    block.getBlockHeight = some (if h < 2 ^ 23 then (h : Int) else -1) := by
  obtain ⟨rest, rfl⟩ := hpush
  rw [pushInt64_nil hh, List.cons_append] at hscript
  have hbound := CScriptNum.length_serialize_le_iff (n := h) (j := 2) (by decide)
  split
  case isTrue hlt =>
      have hlen := hbound.mpr hlt
      rw [CBlock.getBlockHeight_of_short hscript (Nat.lt_succ_of_le hlen),
        CScriptNum.ofBytes_serialize (hlt.trans (by decide))]
  case isFalse hge =>
      have hlen := hbound.not.mpr hge
      exact CBlock.getBlockHeight_of_long hscript (Nat.lt_of_not_le hlen)
        ((length_serialize_le h).trans_lt (by decide))

/-- A block whose coinbase has the script that the miner makes, with an empty flag. -/
def heightBlock (nHeight : Nat) : CBlock where
  hashPrevBlock := 0
  hashMerkleRoot := 0
  nTime := 0
  nBits := 0
  nNonce := 0
  vtx := [{ vin := [⟨.null, coinbaseScript nHeight 1 [0], uintMax⟩], vout := [⟨0, []⟩],
            nLockTime := 0 }]

theorem getBlockHeight_coinbase_sample : (heightBlock 500000).getBlockHeight = some 500000 :=
  getBlockHeight_coinbase (heightBlock 500000) (coinbaseScript 500000 1 [0]) 500000 rfl
    ⟨[1, 1, 0], by decide⟩ (by decide)

/-- A height that needs four bytes is not found. -/
theorem getBlockHeight_coinbase_fails :
    ¬ ∀ (block : CBlock) (scriptSig : CScript) (h : Nat),
      block.coinbaseScriptSig = some scriptSig → CScript.pushInt64 [] h <+: scriptSig →
      block.getBlockHeight = some (h : Int) := by
  intro hall
  have hheight := hall (heightBlock 8388608) (coinbaseScript 8388608 1 [0]) 8388608 rfl
    ⟨[1, 1, 0], by decide⟩
  cases hheight

/-! ## Where the height is written -/

theorem pushInt64_prefix_coinbaseScript (nHeight nExtraNonce : Nat) (coinbaseFlags : CScript) :
    CScript.pushInt64 [] nHeight <+: coinbaseScript nHeight nExtraNonce coinbaseFlags := by
  rw [coinbaseScript, CScript.push, List.append_assoc, List.append_assoc]
  exact List.prefix_append _ _

theorem startsWithHeight_iff (scriptSig : CScript) (nHeight : Int) :
    startsWithHeight scriptSig nHeight = true ↔ CScript.pushInt64 [] nHeight <+: scriptSig := by
  rw [startsWithHeight, List.prefix_iff_eq_take]
  simp only [Bool.not_eq_true', Bool.or_eq_false_iff, decide_eq_false_iff_not, bne_eq_false_iff_eq]
  constructor
  · exact fun hand ↦ hand.2.symm
  · intro htake
    refine ⟨fun hlt ↦ ?_, htake.symm⟩
    have hlen := congrArg List.length htake
    rw [List.length_take] at hlen
    omega

end

end Fedoracoin
