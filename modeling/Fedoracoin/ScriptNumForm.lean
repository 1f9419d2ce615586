import Fedoracoin.ScriptNum
import Fedoracoin.VarInt

/-!
# The form of a number in a script

A number that is not zero is a sign and a magnitude, little-endian, with the sign in the highest bit
of the last byte.  Many byte strings stand for one number, and `serialize` writes the shortest of
them (`isShortestForm_serialize`): the magnitude has a bit above those that one byte less could
hold.
-/

namespace Fedoracoin

open Wire

/-! ## Sign and magnitude -/

section

variable {s t : Valtype} {b c : UInt8} {n : Int}

/-- The magnitude of a number whose last byte is `b`. -/
def magnitude (s : Valtype) (b : UInt8) : Nat := ofBytes s + 256 ^ s.length * (b.toNat % 128)

theorem signedOfBytes_concat (s : Valtype) (b : UInt8) :
    signedOfBytes (s ++ [b]) = if 128 ≤ b.toNat then -(magnitude s b : Int) else magnitude s b := by
  have hpow : 2 ^ (8 * (s ++ [b]).length - 1) = 256 ^ s.length * 128 := by
    rw [List.length_append, List.length_singleton, show 8 * (s.length + 1) - 1 = 8 * s.length + 7 by
      omega, pow_add, pow_mul]
    norm_num
  have hlt := ofBytes_lt s
  rw [signedOfBytes, List.getLast?_concat]
  simp only [bne_iff_ne, and_0x80_ne_zero_iff]
  split
  case isTrue h =>
    rw [hpow, Nat.mod_mul, ofBytes_concat, Nat.add_mul_mod_self_left, Nat.mod_eq_of_lt hlt,
      Nat.add_mul_div_left _ _ (Nat.pow_pos (by decide)), Nat.div_eq_of_lt hlt, Nat.zero_add]
    rfl
  case isFalse h =>
    rw [magnitude, Nat.mod_eq_of_lt (Nat.lt_of_not_le h), ofBytes_concat]

theorem signedOfBytes_of_magnitude (hmag : magnitude s b = n.natAbs)
    (hsign : 128 ≤ b.toNat ↔ n < 0) : signedOfBytes (s ++ [b]) = n := by
  rw [signedOfBytes_concat, hmag]
  split
  case isTrue h => rw [Int.ofNat_natAbs_of_nonpos (hsign.mp h).le, neg_neg]
  case isFalse h => exact Int.natAbs_of_nonneg (Int.not_lt.mp (mt hsign.mpr h))

theorem natAbs_signedOfBytes_concat (s : Valtype) (b : UInt8) :
    (signedOfBytes (s ++ [b])).natAbs = magnitude s b := by
  rw [signedOfBytes_concat]
  split
  case isTrue => rw [Int.natAbs_neg, Int.natAbs_natCast]
  case isFalse => rw [Int.natAbs_natCast]

theorem magnitude_lt (s : Valtype) (b : UInt8) : magnitude s b < 128 * 256 ^ s.length := by
  have hlt := ofBytes_lt s
  have hmod : b.toNat % 128 ≤ 127 := by omega
  have hle : 256 ^ s.length * (b.toNat % 128) ≤ 256 ^ s.length * 127 := Nat.mul_le_mul_left _ hmod
  rw [magnitude]
  omega

/-- The bits and the sign of a number fit in its bytes. -/
theorem natAbs_signedOfBytes_lt {j : Nat} (h : s.length ≤ j + 1) :
    (signedOfBytes s).natAbs < 128 * 256 ^ j := by
  have hpos : 0 < 256 ^ j := Nat.pow_pos (by decide)
  rcases List.eq_nil_or_concat s with rfl | ⟨t, b, rfl⟩
  · change 0 < 128 * 256 ^ j
    omega
  · rw [List.concat_eq_append] at h ⊢
    rw [List.length_append, List.length_singleton] at h
    rw [natAbs_signedOfBytes_concat]
    exact (magnitude_lt t b).trans_le
      (Nat.mul_le_mul_left _ (Nat.pow_le_pow_right (by decide) (Nat.le_of_succ_le_succ h)))

theorem magnitude_inj (hlen : s.length = t.length) (h : magnitude s b = magnitude t c) :
    s = t ∧ b.toNat % 128 = c.toNat % 128 := by
  have hs := ofBytes_lt s
  have ht := ofBytes_lt t
  rw [magnitude, magnitude, hlen] at h
  rw [hlen] at hs
  have hlow : ofBytes s = ofBytes t := by
    have := congrArg (· % 256 ^ t.length) h
    simpa [Nat.add_mul_mod_self_left, Nat.mod_eq_of_lt hs, Nat.mod_eq_of_lt ht] using this
  refine ⟨?_, ?_⟩
  · rw [← toBytes_ofBytes s, ← toBytes_ofBytes t, hlen, hlow]
  · rw [hlow, Nat.add_left_cancel_iff] at h
    exact Nat.eq_of_mul_eq_mul_left (Nat.pow_pos (by decide)) h

/-- Two byte strings of the same length stand for one number only if it is zero. -/
theorem eq_of_signedOfBytes (hlen : s.length = t.length) (hne : signedOfBytes s ≠ 0)
    (h : signedOfBytes s = signedOfBytes t) : s = t := by
  rcases List.eq_nil_or_concat' s with rfl | ⟨s, b, rfl⟩
  · exact absurd rfl hne
  rcases List.eq_nil_or_concat' t with rfl | ⟨t, c, rfl⟩
  · exact absurd hlen (by simp)
  have habs := congrArg Int.natAbs h
  rw [natAbs_signedOfBytes_concat, natAbs_signedOfBytes_concat] at habs
  obtain ⟨rfl, hmod⟩ := magnitude_inj (by simpa using hlen) habs
  -- the magnitude is not zero, so that the signs agree too
  have hpos : magnitude s b ≠ 0 := by
    rwa [← natAbs_signedOfBytes_concat, Int.natAbs_ne_zero]
  rw [signedOfBytes_concat, signedOfBytes_concat, habs] at h
  rw [habs] at hpos
  have hb := b.toNat_lt
  have hc := c.toNat_lt
  have hbc : b.toNat = c.toNat := by
    split at h
    case isTrue hb128 =>
      split at h
      case isTrue => omega
      case isFalse => omega
    case isFalse hb128 =>
      split at h
      case isTrue => omega
      case isFalse => omega
  rw [UInt8.toNat_inj.mp hbc]

/-- No other byte string of this length or less stands for the number. -/
def IsShortestForm (s : Valtype) (n : Int) : Prop :=
  signedOfBytes s = n ∧ ∀ t, signedOfBytes t = n → t = s ∨ s.length < t.length

theorem isShortestForm_nil : IsShortestForm [] 0 := by
  refine ⟨rfl, fun t _ ↦ ?_⟩
  rcases t.eq_nil_or_concat' with rfl | ⟨t, c, rfl⟩
  · exact Or.inl rfl
  · exact Or.inr (by simp)

/-- A magnitude that does not fit in one byte less. -/
theorem isShortestForm_concat (h : signedOfBytes (s ++ [b]) = n)
    (hlow : 128 * 256 ^ s.length ≤ 256 * n.natAbs) : IsShortestForm (s ++ [b]) n := by
  refine ⟨h, fun t ht ↦ ?_⟩
  have hpos : 0 < 256 ^ s.length := Nat.pow_pos (by decide)
  have hne : n ≠ 0 := by
    rintro rfl
    rw [Int.natAbs_zero] at hlow
    omega
  rcases Nat.lt_trichotomy t.length (s.length + 1) with hlt | heq | hgt
  · exfalso
    cases hs : s.length with
    | zero =>
        rw [hs, Nat.zero_add, Nat.lt_one_iff, List.length_eq_zero_iff] at hlt
        rw [hlt] at ht
        exact hne ht.symm
    | succ j =>
        have hbound := natAbs_signedOfBytes_lt (s := t) (j := j) (by omega)
        rw [ht] at hbound
        rw [hs, pow_succ] at hlow
        omega
  · left
    exact eq_of_signedOfBytes (by simpa using heq) (ht ▸ hne) (ht.trans h.symm)
  · right
    simpa using hgt

end

/-! ## The bytes of a magnitude -/

namespace CScriptNum

variable {k n j : Nat} {b : UInt8}

theorem absBytes_zero (k : Nat) : absBytes k 0 = [] := by
  cases k with
  | zero => rfl
  | succ k => rw [absBytes, if_pos rfl]

theorem absBytes_succ (h : n ≠ 0) :
    absBytes (k + 1) n = UInt8.ofNat n :: absBytes k (n / 256) := by
  rw [absBytes, if_neg h]

theorem length_absBytes_le (k absvalue : Nat) : (absBytes k absvalue).length ≤ k := by
  induction k generalizing absvalue with
  | zero => exact le_refl 0
  | succ k ih =>
      rw [absBytes]
      split
      case isTrue => exact Nat.zero_le _
      case isFalse => exact Nat.succ_le_succ (ih _)

/-- `j` bytes are enough for the numbers below `256 ^ j`. -/
theorem length_absBytes_le_iff (hj : j < k) : (absBytes k n).length ≤ j ↔ n < 256 ^ j := by
  induction k generalizing n j with
  | zero => exact absurd hj j.not_lt_zero
  | succ k ih =>
      by_cases hn : n = 0
      · rw [hn, absBytes_zero, List.length_nil]
        exact iff_of_true (Nat.zero_le _) (Nat.pow_pos (by decide))
      · rw [absBytes_succ hn, List.length_cons]
        cases j with
        | zero => exact iff_of_false (by omega) (by omega)
        | succ j =>
            rw [Nat.add_le_add_iff_right, ih (Nat.lt_of_succ_lt_succ hj),
              Nat.div_lt_iff_lt_mul (by decide), pow_succ]

theorem ofBytes_absBytes (hn : n < 256 ^ k) : ofBytes (absBytes k n) = n := by
  induction k generalizing n with
  | zero => exact (Nat.lt_one_iff.mp hn).symm
  | succ k ih =>
      by_cases hzero : n = 0
      · rw [hzero, absBytes_zero, ofBytes]
      · have hdiv : n / 256 < 256 ^ k := by
          rwa [Nat.div_lt_iff_lt_mul (by decide), ← pow_succ]
        rw [absBytes_succ hzero, ofBytes, ih hdiv, UInt8.toNat_ofNat']
        omega

theorem length_absBytes_pos (hn : n < 256 ^ k) (hpos : n ≠ 0) : 0 < (absBytes k n).length := by
  cases k with
  | zero => exact absurd (Nat.lt_one_iff.mp hn) hpos
  | succ k =>
      rw [absBytes_succ hpos]
      exact Nat.succ_pos _

/-- The highest byte. -/
theorem getLast?_absBytes (hn : n < 256 ^ k) (hb : (absBytes k n).getLast? = some b) :
    b.toNat = n / 256 ^ ((absBytes k n).length - 1) := by
  induction k generalizing n with
  | zero => exact absurd hb (by simp [absBytes])
  | succ k ih =>
      by_cases hzero : n = 0
      · rw [hzero, absBytes_zero] at hb
        cases hb
      · have hdiv : n / 256 < 256 ^ k := by
          rwa [Nat.div_lt_iff_lt_mul (by decide), ← pow_succ]
        rw [absBytes_succ hzero] at hb ⊢
        by_cases hone : n / 256 = 0
        · rw [hone, absBytes_zero, List.getLast?_singleton, Option.some_inj] at hb
          rw [hone, absBytes_zero, ← hb, UInt8.toNat_ofNat', List.length_singleton, Nat.sub_self,
            pow_zero, Nat.div_one]
          omega
        · have hpos := length_absBytes_pos hdiv hone
          have hne : absBytes k (n / 256) ≠ [] := List.ne_nil_of_length_pos hpos
          rw [List.getLast?_cons, List.getLast?_eq_some_getLast hne, Option.getD_some] at hb
          have hlast := ih hdiv ((List.getLast?_eq_some_getLast hne).trans hb)
          rw [hlast, List.length_cons, Nat.add_sub_cancel, Nat.div_div_eq_div_mul, ← pow_succ',
            Nat.sub_add_cancel hpos]

/-! ## What is written -/

/-- The bytes of a magnitude that is not zero, the last told apart. -/
theorem absBytes_eq_concat (hn : n < 256 ^ k) (hne : n ≠ 0) :
    ∃ s b, absBytes k n = s ++ [b] ∧ ofBytes s + 256 ^ s.length * b.toNat = n ∧ 0 < b.toNat := by
  have hpos := length_absBytes_pos hn hne
  obtain ⟨s, b, hsb⟩ := (absBytes k n).eq_nil_or_concat'.resolve_left
    (List.ne_nil_of_length_pos hpos)
  have hvalue := ofBytes_absBytes hn
  rw [hsb, ofBytes_concat] at hvalue
  refine ⟨s, b, hsb, hvalue, ?_⟩
  have hlast := getLast?_absBytes hn (b := b) (by rw [hsb, List.getLast?_concat])
  have hlen : (absBytes k n).length = s.length + 1 := by rw [hsb, List.length_append]; rfl
  have hk := length_absBytes_le k n
  have hlt : ¬ n < 256 ^ s.length := by
    rw [← length_absBytes_le_iff (k := k) (by omega), hlen]
    exact Nat.not_succ_le_self _
  rw [hlast, hlen, Nat.add_sub_cancel]
  exact Nat.div_pos (Nat.le_of_not_lt hlt) (Nat.pow_pos (by decide))

theorem toNat_or_0x80 (h : b.toNat < 128) : (b ||| 0x80).toNat = b.toNat + 128 := by
  have hor := Nat.two_pow_add_eq_or_of_lt (i := 7) h 1
  rw [UInt8.toNat_or, Nat.or_comm]
  simpa [Nat.add_comm] using hor.symm

/-- A number is written as a sign and a magnitude, with no byte to spare. -/
theorem serialize_eq_concat {n : Int} (hn : n.natAbs < 2 ^ 64) (hne : n ≠ 0) :
    ∃ s b, serialize n = s ++ [b] ∧ signedOfBytes (s ++ [b]) = n ∧
      128 * 256 ^ s.length ≤ 256 * n.natAbs := by
  obtain ⟨s, b, hbytes, hvalue, hpos⟩ :=
    absBytes_eq_concat (k := 8) hn (Int.natAbs_ne_zero.mpr hne)
  have hb := b.toNat_lt
  have hlow : 256 ^ s.length * b.toNat ≤ n.natAbs := by omega
  rw [serialize, hbytes, List.getLast?_concat]
  simp only [bne_iff_ne, and_0x80_ne_zero_iff]
  split
  case isTrue h =>
    -- the highest bit is taken, and the sign goes into a byte of its own
    refine ⟨s ++ [b], _, rfl, signedOfBytes_of_magnitude ?_ ?_, ?_⟩
    · have hzero : (if n < 0 then 0x80 else 0 : UInt8).toNat % 128 = 0 := by
        split
        case isTrue => rfl
        case isFalse => rfl
      rw [magnitude, hzero, Nat.mul_zero, Nat.add_zero, ofBytes_concat, hvalue]
    · split
      case isTrue hneg => exact iff_of_true (le_refl 128) hneg
      case isFalse hneg => exact iff_of_false (by decide) hneg
    · have hle := Nat.mul_le_mul_left (256 ^ s.length) h
      rw [List.length_append, List.length_singleton, pow_succ]
      omega
  case isFalse h =>
    have hb128 : b.toNat < 128 := Nat.lt_of_not_le h
    have hle := Nat.mul_le_mul_left (256 ^ s.length) hpos
    split
    case isTrue hneg =>
      rw [List.dropLast_concat]
      refine ⟨s, _, rfl, signedOfBytes_of_magnitude ?_ ?_, by omega⟩
      · rw [magnitude, toNat_or_0x80 hb128, Nat.add_mod_right, Nat.mod_eq_of_lt hb128, hvalue]
      · rw [toNat_or_0x80 hb128]
        exact iff_of_true (Nat.le_add_left _ _) hneg
    case isFalse hneg =>
      refine ⟨s, b, rfl, signedOfBytes_of_magnitude ?_ (iff_of_false h hneg), by omega⟩
      rw [magnitude, Nat.mod_eq_of_lt hb128, hvalue]

theorem serialize_zero : serialize 0 = [] := rfl

theorem isShortestForm_serialize {n : Int} (hn : n.natAbs < 2 ^ 64) :
    IsShortestForm (serialize n) n := by
  by_cases hne : n = 0
  · rw [hne, serialize_zero]
    exact isShortestForm_nil
  · obtain ⟨s, b, hsb, hvalue, hlow⟩ := serialize_eq_concat hn hne
    rw [hsb]
    exact isShortestForm_concat hvalue hlow

/-- **The length of a number.**  `j + 1` bytes are enough for the numbers whose bits and sign fit in
them. -/
theorem length_serialize_le_iff_natAbs {n : Int} (hn : n.natAbs < 2 ^ 64) :
    (serialize n).length ≤ j + 1 ↔ n.natAbs < 128 * 256 ^ j := by
  constructor
  · intro h
    have hlt := natAbs_signedOfBytes_lt h
    rwa [(isShortestForm_serialize hn).1] at hlt
  · intro h
    by_cases hne : n = 0
    · rw [hne, serialize_zero]
      exact Nat.zero_le _
    · obtain ⟨s, b, hsb, -, hlow⟩ := serialize_eq_concat hn hne
      have hpow : 128 * 256 ^ s.length < 128 * 256 ^ (j + 1) := by
        rw [pow_succ 256 j]
        omega
      rw [hsb, List.length_append, List.length_singleton, Nat.add_le_add_iff_right]
      exact Nat.lt_succ_iff.mp ((Nat.pow_lt_pow_iff_right (by decide)).mp
        (Nat.lt_of_mul_lt_mul_left hpow))

end CScriptNum

end Fedoracoin
