import Fedoracoin.BigNum

/-!
# Targets in compact form

Which compact values `GetCompact` produces, and what a target loses when it is written in that
form.  A number and its compact form are related by `n * 256 ^ 3 = t * 256 ^ s`, where `t` are
three bytes of which the first is not zero; both sizes and first bytes are read off from that.
-/

namespace Fedoracoin

open Truncation

namespace CBigNum

variable {n m e s t c : Nat}

/-- The compact values that stand for themselves: the sign bit is clear, the mantissa cannot be
written with a smaller size, and with a size below three its last bytes, which are not read, are
zero. -/
structure IsCanonicalCompact (nCompact : Nat) : Prop where
  sign : nCompact &&& 0x00800000 = 0
  normalised : 0x008000 ≤ nCompact &&& 0x007fffff
  whole : 256 ^ (3 - nCompact >>> 24) ∣ nCompact &&& 0x007fffff
  size : nCompact >>> 24 ≠ 0

/-! ## Sizes and first bytes -/

theorem pow_256_pos (k : Nat) : 0 < 256 ^ k := Nat.pow_pos (by norm_num)

/-- The size and the first three bytes are determined by the value. -/
theorem numBytes_eq (hle : 256 ^ 2 ≤ t) (hlt : t < 256 ^ 3) (h : n * 256 ^ 3 = t * 256 ^ s) :
    numBytes n = s := by
  have hsize : numBytes n ≤ s := by
    rw [numBytes_le_iff]
    apply Nat.lt_of_mul_lt_mul_right (a := 256 ^ 3)
    rw [h, Nat.mul_comm (256 ^ s)]
    exact Nat.mul_lt_mul_of_pos_right hlt (pow_256_pos s)
  apply hsize.antisymm
  cases s with
  | zero => exact Nat.zero_le _
  | succ s =>
    rw [Nat.succ_le_iff, lt_numBytes_iff]
    apply Nat.le_of_mul_le_mul_right _ (pow_256_pos 3)
    calc 256 ^ s * 256 ^ 3 = 256 ^ 2 * 256 ^ (s + 1) := by ring
      _ ≤ t * 256 ^ (s + 1) := Nat.mul_le_mul_right _ hle
      _ = n * 256 ^ 3 := h.symm

theorem topBytes_eq (hle : 256 ^ 2 ≤ t) (hlt : t < 256 ^ 3) (h : n * 256 ^ 3 = t * 256 ^ s) :
    topBytes n = t := by
  have hsize := numBytes_eq hle hlt h
  rcases Nat.lt_or_ge 3 s with hs | hs
  · rw [topBytes_of_lt (hsize ▸ hs), hsize]
    have hn : n = t * 256 ^ (s - 3) := by
      apply Nat.eq_of_mul_eq_mul_right (pow_256_pos 3)
      rw [h, Nat.mul_assoc, ← pow_add, Nat.sub_add_cancel hs.le]
    rw [hn, Nat.mul_div_cancel _ (pow_256_pos _)]
  · rw [topBytes_of_le (hsize ▸ hs), hsize]
    apply Nat.eq_of_mul_eq_mul_right (pow_256_pos s)
    rw [Nat.mul_assoc, ← pow_add, Nat.sub_add_cancel hs, h]

/-- The first byte of a positive number is not zero. -/
theorem le_topBytes (hn : 0 < n) : 256 ^ 2 ≤ topBytes n := by
  obtain ⟨s, hs⟩ : ∃ s, numBytes n = s + 1 :=
    Nat.exists_eq_succ_of_ne_zero (Nat.pos_iff_ne_zero.mp (lt_numBytes_iff.mpr hn))
  have hle : 256 ^ s ≤ n := lt_numBytes_iff.mp (hs ▸ s.lt_succ_self)
  rcases Nat.lt_or_ge 3 (numBytes n) with h | h
  · rw [topBytes_of_lt h, Nat.le_div_iff_mul_le (pow_256_pos _), ← pow_add]
    rwa [show 2 + (numBytes n - 3) = s by omega]
  · rw [topBytes_of_le h]
    calc 256 ^ 2 = 256 ^ s * 256 ^ (3 - numBytes n) := by rw [← pow_add]; congr 1; omega
      _ ≤ n * 256 ^ (3 - numBytes n) := Nat.mul_le_mul_right _ hle

theorem dvd_topBytes (n : Nat) : 256 ^ (3 - numBytes n) ∣ topBytes n := by
  rcases Nat.lt_or_ge 3 (numBytes n) with h | h
  · rw [Nat.sub_eq_zero_of_le h.le, pow_zero]
    exact one_dvd _
  · rw [topBytes_of_le h]
    exact Nat.dvd_mul_left _ _

/-! ## What `GetCompact` produces -/

/-- The mantissa is normalised. -/
theorem le_parts_fst (hn : 0 < n) : 0x008000 ≤ (parts n).1 := by
  have hle := le_topBytes hn
  rw [parts]
  split
  case isTrue h =>
    rw [mantissaBound] at h
    rw [shiftRight_eight]
    omega
  case isFalse => omega

/-- No byte that is not zero is in a place that is not read. -/
theorem dvd_parts_fst (n : Nat) : 256 ^ (3 - (parts n).2) ∣ (parts n).1 := by
  have hdvd := dvd_topBytes n
  rw [parts]
  split
  case isTrue h =>
    rw [shiftRight_eight]
    rcases Nat.lt_or_ge (numBytes n) 3 with hs | hs
    · rw [show 3 - numBytes n = 3 - (numBytes n + 1) + 1 by omega, pow_succ'] at hdvd
      exact Nat.dvd_div_of_mul_dvd hdvd
    · rw [Nat.sub_eq_zero_of_le (by omega), pow_zero]
      exact one_dvd _
  case isFalse => exact hdvd

theorem parts_snd_ne_zero (hn : 0 < n) : (parts n).2 ≠ 0 := by
  have hpos : 0 < numBytes n := lt_numBytes_iff.mpr hn
  rw [parts]
  split
  · exact Nat.succ_ne_zero _
  · exact Nat.pos_iff_ne_zero.mp hpos

/-- A normalised mantissa and its size are what `GetCompact` finds again. -/
theorem parts_eq (hle : 0x008000 ≤ m) (hlt : m < mantissaBound) (he : e ≠ 0)
    (h : n * 256 ^ 3 = m * 256 ^ e) : parts n = (m, e) := by
  rw [mantissaBound] at hlt
  rcases Nat.lt_or_ge m (256 ^ 2) with hm | hm
  · -- the first byte is zero, so the number is one byte shorter and its sign bit gets in the way
    obtain ⟨s, rfl⟩ := Nat.exists_eq_succ_of_ne_zero he
    have h' : n * 256 ^ 3 = m * 256 * 256 ^ s := by rw [h, pow_succ']; ring
    rw [parts, numBytes_eq (by omega) (by omega) h', topBytes_eq (by omega) (by omega) h']
    rw [if_pos (by rw [mantissaBound]; omega), shiftRight_eight, Nat.mul_div_cancel _ (by norm_num)]
  · rw [parts, numBytes_eq hm (by omega) h, topBytes_eq hm (by omega) h]
    rw [if_neg (by rw [mantissaBound]; omega)]

/-- What is decoded, if no byte of the mantissa is lost. -/
theorem ofParts_mul (h : 256 ^ (3 - e) ∣ m) : ofParts m e * 256 ^ 3 = m * 256 ^ e := by
  rcases Nat.le_total e 3 with he | he
  · rw [ofParts_of_le he]
    calc m / 256 ^ (3 - e) * 256 ^ 3 = m / 256 ^ (3 - e) * 256 ^ (3 - e) * 256 ^ e := by
          rw [Nat.mul_assoc, ← pow_add, Nat.sub_add_cancel he]
      _ = m * 256 ^ e := by rw [Nat.div_mul_cancel h]
  · rw [ofParts_of_ge he, Nat.mul_assoc, ← pow_add, Nat.sub_add_cancel he]

/-! ## The two directions -/

theorem getCompact_natCast (n : Nat) :
    getCompact n = (parts n).1 ||| ((parts n).2 <<< 24) % 2 ^ 32 := by
  have hneg : ¬ (n : Int) < 0 := Int.not_lt.mpr (Int.natCast_nonneg n)
  rw [getCompact_eq, Int.natAbs_natCast, if_neg hneg, Nat.or_zero]

/-- The sign bit of a number that is not negative is clear, however large it is. -/
theorem getCompact_and_signBit (n : Nat) : getCompact n &&& 0x00800000 = 0 := by
  have hlt := parts_fst_lt n
  have hsize : ((parts n).2 <<< 24) % 2 ^ 32 = (parts n).2 % 2 ^ 8 * 2 ^ 24 := by
    rw [Nat.shiftLeft_eq]
    omega
  rw [mantissaBound] at hlt
  rw [getCompact_natCast, hsize, Nat.or_comm, ← Nat.shiftLeft_eq,
    ← Nat.shiftLeft_add_eq_or_of_lt (by omega), Nat.shiftLeft_eq, and_signBit_eq_zero]
  omega

/-- A value whose sign bit is clear is its mantissa and its size. -/
theorem or_fields (hc : c < 2 ^ 32) (hsign : c &&& 0x00800000 = 0) :
    (c &&& 0x007fffff) ||| ((c >>> 24) <<< 24) % 2 ^ 32 = c := by
  rw [and_signBit_eq_zero] at hsign
  have hm : c &&& 0x007fffff < mantissaBound := by
    rw [and_mantissaMask]
    exact Nat.mod_lt _ (by norm_num)
  rw [or_size hm (by rw [shiftRight_size]; omega), and_mantissaMask, shiftRight_size]
  omega

/-- What is decoded is so small that its size is a byte. -/
theorem parts_snd_lt (hn : n < mantissaBound * 256 ^ 252) : (parts n).2 < 2 ^ 8 := by
  have hsize : numBytes n ≤ 255 := by
    rw [numBytes_le_iff]
    calc n < mantissaBound * 256 ^ 252 := hn
      _ ≤ 256 ^ 3 * 256 ^ 252 := Nat.mul_le_mul_right _ (by decide)
      _ = 256 ^ 255 := by rw [← pow_add]
  rcases hsize.lt_or_eq with h | h
  · exact (parts_snd_le n).trans_lt (by omega)
  · have htop : topBytes n < mantissaBound := by
      rw [topBytes_of_lt (by omega), h]
      exact Nat.div_lt_of_lt_mul (by rwa [Nat.mul_comm] at hn)
    rw [parts, if_neg (Nat.not_le.mpr htop), h]
    norm_num

theorem ofParts_lt (hm : m < mantissaBound) (he : e < 2 ^ 8) :
    ofParts m e < mantissaBound * 256 ^ 252 := by
  rcases Nat.le_total e 3 with h | h
  · rw [ofParts_of_le h]
    exact ((Nat.div_le_self _ _).trans_lt hm).trans_le (Nat.le_mul_of_pos_right _ (pow_256_pos _))
  · rw [ofParts_of_ge h]
    calc m * 256 ^ (e - 3) < mantissaBound * 256 ^ (e - 3) :=
          Nat.mul_lt_mul_of_pos_right hm (pow_256_pos _)
      _ ≤ mantissaBound * 256 ^ 252 :=
          Nat.mul_le_mul_left _ (Nat.pow_le_pow_right (by norm_num) (by omega))

/-- A value whose sign bit is clear comes back from its number if and only if it is zero or
canonical. -/
theorem getCompact_setCompact_iff (hc : c < 2 ^ 32) (hsign : c &&& 0x00800000 = 0) :
    getCompact (setCompact c) = c ↔ c = 0 ∨ IsCanonicalCompact c := by
  have hm : c &&& 0x007fffff < mantissaBound := by
    rw [and_mantissaMask]
    exact Nat.mod_lt _ (by norm_num)
  have he : c >>> 24 < 2 ^ 8 := by
    rw [shiftRight_size]
    omega
  have hset : setCompact c = ofParts (c &&& 0x007fffff) (c >>> 24) := by
    rw [setCompact_eq, hsign]
    rfl
  rw [hset, getCompact_natCast]
  constructor
  · intro hback
    rcases Nat.eq_zero_or_pos (ofParts (c &&& 0x007fffff) (c >>> 24)) with hzero | hpos
    · rw [hzero] at hback
      exact .inl (hback.symm.trans (by decide))
    · have hsize := parts_snd_lt (ofParts_lt hm he)
      have hmantissa := parts_fst_lt (ofParts (c &&& 0x007fffff) (c >>> 24))
      have hle := le_parts_fst hpos
      have hdvd := dvd_parts_fst (ofParts (c &&& 0x007fffff) (c >>> 24))
      have hne := parts_snd_ne_zero hpos
      generalize parts (ofParts (c &&& 0x007fffff) (c >>> 24)) = p at *
      rw [or_size hmantissa hsize] at hback
      rw [mantissaBound] at hmantissa
      have hfst : c &&& 0x007fffff = p.1 := by
        rw [and_mantissaMask]
        omega
      have hsnd : c >>> 24 = p.2 := by
        rw [shiftRight_size]
        omega
      exact .inr ⟨hsign, hfst ▸ hle, by rwa [hfst, hsnd], hsnd ▸ hne⟩
  · rintro (rfl | hcanon)
    · decide
    · rw [parts_eq hcanon.normalised hm hcanon.size (ofParts_mul hcanon.whole)]
      exact or_fields hc hsign

theorem numBytes_lt_of_target (hn : n < 2 ^ 256) : numBytes n < 255 :=
  (numBytes_le_iff.mpr (hn.trans_eq (by norm_num : 2 ^ 256 = 256 ^ 32))).trans_lt (by norm_num)

/-- A target in compact form: what it loses, in which direction, and which compact values it is
lossless for. -/
theorem getCompact_roundsDown :
    (∀ x < 2 ^ 256, ∃ v : Nat, setCompact (getCompact (x : Nat)) = v ∧ v ≤ x ∧
      (0 < x → (x - v) * 2 ^ 15 < x) ∧ setCompact (getCompact v) = v) ∧
    (∀ x < 2 ^ 256, ∀ y < 2 ^ 256, x ≤ y →
      setCompact (getCompact (x : Nat)) ≤ setCompact (getCompact (y : Nat))) ∧
    (∀ c < 2 ^ 32, c &&& 0x00800000 = 0 →
      (getCompact (setCompact c) = c ↔ c = 0 ∨ IsCanonicalCompact c)) ∧
    ∀ n : Nat, getCompact n &&& 0x00800000 = 0 := by
  refine ⟨fun x hx ↦ ?_, fun x hx y hy hxy ↦ ?_, fun c hc ↦ getCompact_setCompact_iff hc,
    getCompact_and_signBit⟩
  · obtain ⟨v, hv, hround⟩ := setCompact_getCompact x (numBytes_lt_of_target hx)
    refine ⟨v, hv, hround.le, hround.sub_mul_lt (by norm_num) rfl (by norm_num), ?_⟩
    obtain ⟨w, hw, hagain⟩ :=
      setCompact_getCompact v (numBytes_lt_of_target (hround.le.trans_lt hx))
    rw [hw, hagain.unique hround.representable.roundsDown]
  · obtain ⟨v, hv, hround⟩ := setCompact_getCompact x (numBytes_lt_of_target hx)
    obtain ⟨w, hw, hround'⟩ := setCompact_getCompact y (numBytes_lt_of_target hy)
    rw [hv, hw]
    exact Int.ofNat_le.mpr (hround.mono hround' hxy)

/-- The target zero loses nothing, but nothing is not less than a part of zero.  And a byte of the
mantissa that the size does not reach is lost. -/
theorem getCompact_zero_not_lt :
    (¬ ∀ x : Nat, x < 2 ^ 256 →
      ((x : Int) - setCompact (getCompact (x : Nat))) * 2 ^ 15 < x) ∧
      getCompact (setCompact 0x01123456) = 0x01120000 := by
  refine ⟨fun h ↦ ?_, by decide⟩
  have hzero : setCompact (getCompact (0 : Nat)) = 0 := by decide
  have hlt := h 0 (by norm_num)
  rw [hzero] at hlt
  cases hlt

end CBigNum

end Fedoracoin
