import Fedoracoin.Lib.Truncation
import Fedoracoin.Validation
import Mathlib.Data.Nat.Bitwise

/-!
# Big numbers and the compact form

`CBigNum` of `bignum.h`.  A big number is an integer; division truncates.  `SetCompact` and
`GetCompact` are the 32-bit form in which a target stands in a block header: a size in bytes, a
sign, and a mantissa of 23 bits.
-/

namespace Fedoracoin

open Truncation

abbrev CBigNum := Int

namespace CBigNum

/-- `operator/`, which throws if the divisor is zero. -/
def div (a b : CBigNum) : Except Failure CBigNum :=
  if b = 0 then .error (.exception "CBigNum::operator/ : BN_div failed") else .ok (a.tdiv b)

/-- `BN_num_bytes`. -/
def numBytes (n : Nat) : Nat := if n = 0 then 0 else (n.log2 + 8) / 8

def setCompact (nCompact : Nat) : CBigNum :=
  let nSize := nCompact >>> 24
  let fNegative := nCompact &&& 0x00800000 != 0
  let nWord := nCompact &&& 0x007fffff
  let word := if nSize ≤ 3 then nWord >>> (8 * (3 - nSize)) else nWord <<< (8 * (nSize - 3))
  if fNegative then -(word : Int) else word

/-- The result is an `unsigned int`, so that a size beyond a byte is cut off. -/
def getCompact (bn : CBigNum) : Nat :=
  let nSize := numBytes bn.natAbs
  let nCompact :=
    if nSize ≤ 3 then bn.natAbs <<< (8 * (3 - nSize)) else bn.natAbs >>> (8 * (nSize - 3))
  let (nCompact, nSize) :=
    if nCompact &&& 0x00800000 != 0 then (nCompact >>> 8, nSize + 1) else (nCompact, nSize)
  (nCompact ||| (nSize <<< 24) % 2 ^ 32) ||| (if bn < 0 then 0x00800000 else 0)

/-- The bound on the mantissa. -/
def mantissaBound : Nat := 2 ^ 23

/-! ## Sizes -/

variable {n m e s : Nat}

theorem numBytes_le_iff : numBytes n ≤ s ↔ n < 256 ^ s := by
  have hpow : (256 : Nat) ^ s = 2 ^ (8 * s) := by rw [pow_mul]; norm_num
  rw [numBytes, hpow]
  split
  case isTrue h => simp [h]
  case isFalse h =>
    rw [← Nat.log2_lt h]
    omega

theorem lt_numBytes_iff : s < numBytes n ↔ 256 ^ s ≤ n := by
  rw [← Nat.not_le, numBytes_le_iff, Nat.not_lt]

/-! ## Decoding -/

/-- What a mantissa and a size stand for. -/
def ofParts (m e : Nat) : Nat := if e ≤ 3 then m >>> (8 * (3 - e)) else m <<< (8 * (e - 3))

theorem and_signBit (hm : m < 2 ^ 24) : (m &&& 0x00800000 != 0) = decide (mantissaBound ≤ m) := by
  have hbit : m &&& 2 ^ 23 = (m.testBit 23).toNat * 2 ^ 23 := Nat.and_two_pow m 23
  change (m &&& 2 ^ 23 != 0) = _
  rw [hbit, mantissaBound]
  rcases Nat.lt_or_ge m (2 ^ 23) with h | h
  · rw [Nat.testBit_lt_two_pow h, decide_eq_false (Nat.not_le.mpr h)]
    rfl
  · rw [Nat.testBit_of_two_pow_le_and_two_pow_add_one_gt h hm, decide_eq_true h]
    rfl

theorem and_mantissaMask (c : Nat) : c &&& 0x007fffff = c % 2 ^ 23 :=
  Nat.and_two_pow_sub_one_eq_mod c 23

theorem shiftRight_size (c : Nat) : c >>> 24 = c / 2 ^ 24 := Nat.shiftRight_eq_div_pow c 24

/-- The sign bit. -/
theorem and_signBit_eq_zero (c : Nat) : c &&& 0x00800000 = 0 ↔ c / 2 ^ 23 % 2 = 0 := by
  have hbit : c &&& 2 ^ 23 = (c.testBit 23).toNat * 2 ^ 23 := Nat.and_two_pow c 23
  change c &&& 2 ^ 23 = 0 ↔ _
  rw [hbit, Nat.testBit_eq_decide_div_mod_eq]
  simp

/-- A mantissa and a size, put together. -/
theorem or_size (hm : m < mantissaBound) (hs : e < 2 ^ 8) :
    m ||| (e <<< 24) % 2 ^ 32 = e * 2 ^ 24 + m := by
  rw [mantissaBound] at hm
  have hlt : e <<< 24 < 2 ^ 32 := by
    rw [Nat.shiftLeft_eq]
    omega
  rw [Nat.mod_eq_of_lt hlt, Nat.or_comm, ← Nat.shiftLeft_add_eq_or_of_lt (by omega),
    Nat.shiftLeft_eq]

/-- The fields of a number put together from a mantissa and a size. -/
theorem setCompact_ofParts (hm : m < mantissaBound) (hs : e < 2 ^ 8) :
    setCompact (m ||| (e <<< 24) % 2 ^ 32) = ofParts m e := by
  rw [or_size hm hs]
  rw [mantissaBound] at hm
  have hsize : (e * 2 ^ 24 + m) >>> 24 = e := by
    rw [shiftRight_size]
    omega
  have hsign : (e * 2 ^ 24 + m) &&& 0x00800000 = 0 := by
    rw [and_signBit_eq_zero]
    omega
  have hword : (e * 2 ^ 24 + m) &&& 0x007fffff = m := by
    rw [and_mantissaMask]
    omega
  rw [setCompact, hsize, hsign, hword]
  rfl

/-! ## Encoding -/

/-- The first three bytes. -/
def topBytes (n : Nat) : Nat :=
  if numBytes n ≤ 3 then n <<< (8 * (3 - numBytes n)) else n >>> (8 * (numBytes n - 3))

/-- The mantissa and the size that `GetCompact` finds. -/
def parts (n : Nat) : Nat × Nat :=
  if mantissaBound ≤ topBytes n then (topBytes n >>> 8, numBytes n + 1)
  else (topBytes n, numBytes n)

theorem topBytes_of_le (h : numBytes n ≤ 3) : topBytes n = n * 256 ^ (3 - numBytes n) := by
  rw [topBytes, if_pos h, Nat.shiftLeft_eq, pow_mul]
  rfl

theorem topBytes_of_lt (h : 3 < numBytes n) : topBytes n = n / 256 ^ (numBytes n - 3) := by
  rw [topBytes, if_neg (Nat.not_le.mpr h), Nat.shiftRight_eq_div_pow, pow_mul]
  rfl

theorem topBytes_lt (n : Nat) : topBytes n < 256 ^ 3 := by
  have hlt : n < 256 ^ numBytes n := numBytes_le_iff.mp (le_refl _)
  rcases Nat.lt_or_ge 3 (numBytes n) with h | h
  · rw [topBytes_of_lt h]
    apply Nat.div_lt_of_lt_mul
    rwa [← pow_add, Nat.sub_add_cancel h.le]
  · rw [topBytes_of_le h]
    calc n * 256 ^ (3 - numBytes n) < 256 ^ numBytes n * 256 ^ (3 - numBytes n) :=
          Nat.mul_lt_mul_of_pos_right hlt (Nat.pow_pos (by norm_num))
      _ = 256 ^ 3 := by rw [← pow_add, Nat.add_sub_cancel' h]

theorem getCompact_eq (bn : CBigNum) :
    getCompact bn = ((parts bn.natAbs).1 ||| ((parts bn.natAbs).2 <<< 24) % 2 ^ 32) |||
      (if bn < 0 then 0x00800000 else 0) := by
  have hsign := and_signBit (topBytes_lt bn.natAbs)
  rw [topBytes] at hsign
  simp only [getCompact, parts, hsign, decide_eq_true_eq, topBytes]
  split <;> rfl

theorem parts_fst_lt (n : Nat) : (parts n).1 < mantissaBound := by
  have hlt := topBytes_lt n
  rw [parts]
  split
  case isTrue h =>
    rw [Nat.shiftRight_eq_div_pow, mantissaBound]
    omega
  case isFalse h => exact Nat.not_le.mp h

theorem parts_snd_le (n : Nat) : (parts n).2 ≤ numBytes n + 1 := by
  rw [parts]
  split
  case isTrue => exact le_refl _
  case isFalse => exact Nat.le_succ _

theorem ofParts_of_le (h : e ≤ 3) : ofParts m e = m / 256 ^ (3 - e) := by
  rw [ofParts, if_pos h, Nat.shiftRight_eq_div_pow, pow_mul]
  rfl

theorem ofParts_of_ge (h : 3 ≤ e) : ofParts m e = m * 256 ^ (e - 3) := by
  rcases h.lt_or_eq with hlt | rfl
  · rw [ofParts, if_neg (Nat.not_le.mpr hlt), Nat.shiftLeft_eq, pow_mul]
    rfl
  · rw [ofParts_of_le (le_refl 3), Nat.sub_self, pow_zero, Nat.div_one, Nat.mul_one]

/-- All digits but the first `j` are too many if those are as large as the bound. -/
theorem fits_of_le {k : Nat} (hlt : n / 256 ^ (k + 1) < mantissaBound)
    (hle : mantissaBound ≤ n / 256 ^ k) : Fits 256 mantissaBound n (k + 1) where
  lt := hlt
  least j hj := hle.trans (Nat.div_le_div_left (Nat.pow_le_pow_right (by norm_num)
    (Nat.lt_succ_iff.mp hj)) (Nat.pow_pos (by norm_num)))

theorem shiftRight_eight (m : Nat) : m >>> 8 = m / 256 := Nat.shiftRight_eq_div_pow m 8

/-- What is left after `GetCompact` dropped the digits that do not fit. -/
theorem ofParts_parts (n : Nat) :
    RoundsDown 256 mantissaBound n (ofParts (parts n).1 (parts n).2) := by
  have hdvd : 256 ∣ mantissaBound := ⟨2 ^ 15, rfl⟩
  have hbound : mantissaBound = 8388608 := rfl
  have hlt := topBytes_lt n
  rcases Nat.lt_or_ge 3 (numBytes n) with hsize | hsize
  · have htop := topBytes_of_lt hsize
    obtain ⟨k, hk⟩ := Nat.exists_eq_add_of_lt hsize
    have hle : 256 ^ (3 + k) ≤ n := lt_numBytes_iff.mp (by omega)
    rw [hk, show 3 + k + 1 - 3 = k + 1 by omega] at htop
    rw [parts, hk]
    split
    case isTrue h =>
      have hdrop : topBytes n >>> 8 = n / 256 ^ (k + 1 + 1) := by
        rw [shiftRight_eight, htop, Nat.div_div_eq_div_mul, ← pow_succ]
      have hfits : n / 256 ^ (k + 1 + 1) < mantissaBound := by
        rw [← hdrop, shiftRight_eight]
        omega
      rw [ofParts_of_ge (by omega), show 3 + k + 1 + 1 - 3 = k + 1 + 1 by omega, hdrop]
      exact roundsDown_drop (by norm_num) hdvd (fits_of_le hfits (htop ▸ h))
    case isFalse h =>
      rw [ofParts_of_ge (by omega), show 3 + k + 1 - 3 = k + 1 by omega, htop]
      apply roundsDown_drop (by norm_num) hdvd (fits_of_le (htop ▸ Nat.not_le.mp h) _)
      rw [Nat.le_div_iff_mul_le (Nat.pow_pos (by norm_num))]
      calc mantissaBound * 256 ^ k ≤ 256 ^ 3 * 256 ^ k := Nat.mul_le_mul_right _ (by decide)
        _ ≤ n := by rwa [← pow_add]
  · have htop := topBytes_of_le hsize
    have hpos : 0 < 256 ^ (3 - numBytes n) := Nat.pow_pos (by norm_num)
    rw [parts]
    split
    case isTrue h =>
      rw [shiftRight_eight]
      rcases hsize.lt_or_eq with hshort | hthree
      · have hsmall : n < 256 ^ 2 := numBytes_le_iff.mp (Nat.lt_succ_iff.mp hshort)
        have hpow : 256 ^ (3 - numBytes n) = 256 * 256 ^ (3 - (numBytes n + 1)) := by
          rw [← pow_succ']
          congr 1
          omega
        rw [ofParts_of_le hshort, Nat.div_div_eq_div_mul, ← hpow, htop, Nat.mul_div_cancel _ hpos]
        exact Representable.roundsDown ⟨n, by omega, 0, (Nat.mul_one n).symm⟩
      · rw [hthree, Nat.sub_self, pow_zero, Nat.mul_one] at htop
        rw [ofParts_of_ge (by omega), hthree, htop]
        rw [htop] at h hlt
        have hfits : n / 256 ^ (0 + 1) < mantissaBound := by omega
        exact roundsDown_drop (by norm_num) hdvd (fits_of_le hfits (by rwa [pow_zero, Nat.div_one]))
    case isFalse h =>
      rw [ofParts_of_le hsize, htop, Nat.mul_div_cancel _ hpos]
      apply Representable.roundsDown
      refine ⟨n, ?_, 0, (Nat.mul_one n).symm⟩
      rw [htop, Nat.not_le] at h
      exact (Nat.le_mul_of_pos_right n hpos).trans_lt h

/-! ## The compact form of a number -/

/-- A number that is not negative comes back rounded down. -/
theorem setCompact_getCompact (n : Nat) (hn : numBytes n < 255) :
    ∃ v : Nat, setCompact (getCompact n) = v ∧ RoundsDown 256 mantissaBound n v := by
  refine ⟨_, ?_, ofParts_parts n⟩
  have hneg : ¬ (n : Int) < 0 := Int.not_lt.mpr (Int.natCast_nonneg n)
  rw [getCompact_eq, Int.natAbs_natCast, if_neg hneg, Nat.or_zero]
  apply setCompact_ofParts (parts_fst_lt n)
  exact (parts_snd_le n).trans_lt (by omega)

theorem setCompact_eq (nCompact : Nat) :
    setCompact nCompact =
      if nCompact &&& 0x00800000 != 0 then
        -(ofParts (nCompact &&& 0x007fffff) (nCompact >>> 24) : Int)
      else ofParts (nCompact &&& 0x007fffff) (nCompact >>> 24) := rfl

/-- A negative number does not come back as a positive one. -/
theorem setCompact_getCompact_nonpos {bn : CBigNum} (h : bn < 0) :
    setCompact (getCompact bn) ≤ 0 := by
  have hsign (a : Nat) : ((a ||| 0x00800000) &&& 0x00800000 != 0) = true := by
    have hbit : (a ||| 2 ^ 23) &&& 2 ^ 23 = ((a ||| 2 ^ 23).testBit 23).toNat * 2 ^ 23 :=
      Nat.and_two_pow _ 23
    rw [Nat.testBit_or, Nat.testBit_two_pow_self, Bool.or_true] at hbit
    exact bne_iff_ne.mpr (hbit.trans_ne (by norm_num))
  rw [getCompact_eq, if_pos h, setCompact_eq, if_pos (hsign _)]
  exact Int.neg_nonpos_of_nonneg (Int.natCast_nonneg _)

theorem representable_ofParts (hm : m < mantissaBound) :
    Representable 256 mantissaBound (ofParts m e) := by
  rcases Nat.le_total e 3 with h | h
  · rw [ofParts_of_le h]
    exact ⟨_, (Nat.div_le_self _ _).trans_lt hm, 0, (Nat.mul_one _).symm⟩
  · rw [ofParts_of_ge h]
    exact ⟨m, hm, e - 3, rfl⟩

/-- What is decoded is representable. -/
theorem representable_setCompact (nCompact : Nat) :
    Representable 256 mantissaBound (setCompact nCompact).toNat := by
  have hm : nCompact &&& 0x007fffff < mantissaBound := by
    rw [and_mantissaMask]
    exact Nat.mod_lt _ (by norm_num)
  rw [setCompact_eq]
  split
  · rw [Int.toNat_of_nonpos (Int.neg_nonpos_of_nonneg (Int.natCast_nonneg _))]
    exact ⟨0, by decide, 0, rfl⟩
  · rw [Int.toNat_natCast]
    exact representable_ofParts hm

end CBigNum

end Fedoracoin
