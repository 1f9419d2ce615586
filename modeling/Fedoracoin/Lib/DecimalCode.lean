import Mathlib.Data.Int.ModEq
import Mathlib.Tactic.IntervalCases
import Mathlib.Tactic.LinearCombination
import Mathlib.Tactic.Linarith
import Mathlib.Tactic.Ring

/-!
# A decimal floating code for naturals

A natural number is written as a mantissa and an exponent of ten, the exponent
being at most nine; the pair is then packed into one natural.  With an exponent
below nine the last digit of the mantissa is not zero, so it needs nine values
only, and the packing uses base ten for the exponent and base nine for that
digit.

Over unbounded naturals the code loses nothing: `decode_encode`.  Kept in 64 bits,
it loses every number below `2 ^ 63` whose code does not fit: `decode_wrapped_ne`.
-/

namespace DecimalCode

/-- Divide out at most `k` factors of ten, returning the mantissa and their number. -/
def strip : ℕ → ℕ → ℕ × ℕ
  | 0, n => (n, 0)
  | k + 1, n => if n % 10 = 0 then ((strip k (n / 10)).1, (strip k (n / 10)).2 + 1) else (n, 0)

theorem strip_mul (k n : ℕ) : (strip k n).1 * 10 ^ (strip k n).2 = n := by
  induction k generalizing n with
  | zero => simp [strip]
  | succ k ih =>
      rw [strip]
      split
      · have := ih (n / 10)
        rw [pow_succ, ← mul_assoc, this]
        omega
      · simp

theorem strip_exponent_le (k n : ℕ) : (strip k n).2 ≤ k := by
  induction k generalizing n with
  | zero => simp [strip]
  | succ k ih =>
      rw [strip]
      split
      · exact Nat.succ_le_succ (ih _)
      · exact Nat.zero_le _

/-- Stopping early means that the last digit of the mantissa is not zero. -/
theorem strip_mantissa {k n : ℕ} (h : (strip k n).2 < k) : (strip k n).1 % 10 ≠ 0 := by
  induction k generalizing n with
  | zero => exact absurd h (Nat.not_lt_zero _)
  | succ k ih =>
      rw [strip] at h ⊢
      split at h
      · rename_i h0
        rw [if_pos h0]
        exact ih (Nat.lt_of_succ_lt_succ h)
      · rename_i h0
        rwa [if_neg h0]

theorem strip_of_ne {k n : ℕ} (h : n % 10 ≠ 0) : strip k n = (n, 0) := by
  cases k with
  | zero => rfl
  | succ k => rw [strip, if_neg h]

def encode (n : ℕ) : ℕ :=
  if n = 0 then 0
  else if (strip 9 n).2 < 9 then
    1 + ((strip 9 n).1 / 10 * 9 + (strip 9 n).1 % 10 - 1) * 10 + (strip 9 n).2
  else 1 + ((strip 9 n).1 - 1) * 10 + 9

/-- The mantissa and the exponent packed into a positive code. -/
def mantissa (x : ℕ) : ℕ :=
  if (x - 1) % 10 < 9 then (x - 1) / 10 / 9 * 10 + ((x - 1) / 10 % 9 + 1) else (x - 1) / 10 + 1

def decode (x : ℕ) : ℕ :=
  if x = 0 then 0 else mantissa x * 10 ^ ((x - 1) % 10)

/-- **The code is lossless** on unbounded naturals. -/
theorem decode_encode (n : ℕ) : decode (encode n) = n := by
  by_cases hn : n = 0
  · simp [hn, encode, decode]
  have hmul := strip_mul 9 n
  have hle := strip_exponent_le 9 n
  rw [encode, if_neg hn]
  split
  · rename_i he
    have hd := strip_mantissa he
    set m := (strip 9 n).1
    set e := (strip 9 n).2
    have hx : 1 + (m / 10 * 9 + m % 10 - 1) * 10 + e - 1 =
        (m / 10 * 9 + m % 10 - 1) * 10 + e := by omega
    have hexp : ((m / 10 * 9 + m % 10 - 1) * 10 + e) % 10 = e := by omega
    have hdiv : ((m / 10 * 9 + m % 10 - 1) * 10 + e) / 10 = m / 10 * 9 + m % 10 - 1 := by omega
    have hm : mantissa (1 + (m / 10 * 9 + m % 10 - 1) * 10 + e) = m := by
      rw [mantissa, hx, hexp, if_pos he, hdiv]
      omega
    rw [decode, if_neg (by omega), hm, hx, hexp, hmul]
  · rename_i he
    have he9 : (strip 9 n).2 = 9 := by omega
    rw [he9] at hmul
    set m := (strip 9 n).1
    have hm0 : m ≠ 0 := by
      rintro h0
      rw [h0] at hmul
      omega
    have hx : 1 + (m - 1) * 10 + 9 - 1 = (m - 1) * 10 + 9 := by omega
    have hexp : ((m - 1) * 10 + 9) % 10 = 9 := by omega
    have hdiv : ((m - 1) * 10 + 9) / 10 = m - 1 := by omega
    have hm : mantissa (1 + (m - 1) * 10 + 9) = m := by
      rw [mantissa, hx, hexp, if_neg (by omega), hdiv]
      omega
    rw [decode, if_neg (by omega), hm, hx, hexp, hmul]

/-- The code of a number that is not a multiple of ten. -/
theorem encode_of_ne {n : ℕ} (h : n % 10 ≠ 0) :
    encode n = 1 + (n / 10 * 9 + n % 10 - 1) * 10 := by
  have hn : n ≠ 0 := by omega
  rw [encode, if_neg hn, strip_of_ne h]
  rfl

/-- A multiple of ten has a code no larger than itself. -/
theorem encode_le_of_mod_eq_zero {n : ℕ} (h : n % 10 = 0) : encode n ≤ n := by
  by_cases hn : n = 0
  · simp [hn, encode]
  have hmul := strip_mul 9 n
  have hle := strip_exponent_le 9 n
  have hpos : 0 < (strip 9 n).2 := by
    rw [strip, if_pos h]
    exact Nat.succ_pos _
  rw [encode, if_neg hn]
  set m := (strip 9 n).1
  obtain ⟨e, he⟩ : ∃ e, (strip 9 n).2 = e + 1 := ⟨_, (Nat.succ_pred_eq_of_pos hpos).symm⟩
  rw [he] at hmul hle ⊢
  have hm0 : 0 < m := Nat.pos_of_ne_zero fun h0 ↦ hn (by rw [← hmul, h0, zero_mul])
  have hbig : m * 10 * (e + 1) ≤ n := by
    calc m * 10 * (e + 1) ≤ m * 10 * 10 ^ e :=
          Nat.mul_le_mul_left _ (Nat.succ_le_of_lt (Nat.lt_pow_self (by norm_num)))
      _ = n := by rw [← hmul, pow_succ]; ring
  have hlin : m * 10 + 10 * e ≤ m * 10 * (e + 1) := by nlinarith
  split <;> omega

/-! ## Codes that do not fit into 64 bits

Only the code of a number that is not a multiple of ten can outgrow 64 bits.  What is left
of it modulo `2 ^ 64` is the code of another number, which is read back modulo `2 ^ 64`
again; the two never meet. -/

/-- The remainder `r` of a code after `k` wraps: nine times its mantissa is nine times
the number, up to the wraps and a small correction. -/
theorem nine_mul_mantissa {n k r : ℕ} (h : n % 10 ≠ 0) (hr0 : r ≠ 0)
    (hr : encode n = 2 ^ 64 * k + r) (he : (r - 1) % 10 < 9) :
    ∃ δ : ℤ, -16 ≤ δ ∧ δ ≤ 8 ∧ 9 * (mantissa r : ℤ) = 9 * n + δ - 2 ^ 64 * k := by
  rw [encode_of_ne h] at hr
  rw [mantissa, if_pos he]
  refine ⟨n % 10 - 1 - ((r - 1) / 10 % 9 : ℕ) - ((r - 1) % 10 : ℕ), ?_, ?_, ?_⟩ <;> omega

/-- If scaling the mantissa `m` gives `n` back, then `n` solves a congruence in which
only the correction `δ` is left. -/
theorem modEq_of_scaled_eq {n m k e : ℕ} {δ : ℤ}
    (hm : 9 * (m : ℤ) = 9 * n + δ - 2 ^ 64 * k) (heq : m * 10 ^ e % 2 ^ 64 = n) :
    9 * (10 ^ e - 1) * (n : ℤ) ≡ -δ * 10 ^ e [ZMOD 2 ^ 64] := by
  have hread : (n : ℤ) ≡ m * 10 ^ e [ZMOD 2 ^ 64] := by
    conv_lhs => rw [← heq]
    push_cast
    exact Int.mod_modEq _ _
  have hdiff : -δ * 10 ^ e - 9 * (10 ^ e - 1) * (n : ℤ) =
      -(9 * (m * 10 ^ e - n) + 2 ^ 64 * (k * 10 ^ e)) := by
    linear_combination 10 ^ e * hm
  rw [Int.modEq_iff_dvd, hdiff, Int.dvd_neg]
  exact Int.dvd_add (hread.dvd.mul_left 9) (dvd_mul_right _ _)

/-- Solving a congruence modulo `2 ^ 64` with an inverse `u` of its coefficient. -/
theorem eq_of_modEq {a u b n : ℤ} (hu : u * a ≡ 1 [ZMOD 2 ^ 64]) (h : a * n ≡ b [ZMOD 2 ^ 64])
    (h0 : 0 ≤ n) (hn : n < 2 ^ 64) : n = u * b % 2 ^ 64 := by
  have hmul : n ≡ u * b [ZMOD 2 ^ 64] :=
    calc n = 1 * n := (one_mul n).symm
      _ ≡ u * a * n [ZMOD 2 ^ 64] := hu.symm.mul_right n
      _ = u * (a * n) := mul_assoc u a n
      _ ≡ u * b [ZMOD 2 ^ 64] := h.mul_left u
  rw [← hmul.eq, Int.emod_eq_of_lt h0 hn]

/-- **No number below `2 ^ 63` survives a code that does not fit.** -/
theorem decode_wrapped_ne {n : ℕ} (hn : n < 2 ^ 63) (h : n % 10 ≠ 0) (hov : 2 ^ 64 ≤ encode n) :
    decode (encode n % 2 ^ 64) % 2 ^ 64 ≠ n := by
  have henc := encode_of_ne h
  set r := encode n % 2 ^ 64 with hrdef
  obtain ⟨k, hk, hk1, hk4⟩ : ∃ k, encode n = 2 ^ 64 * k + r ∧ 1 ≤ k ∧ k ≤ 4 :=
    ⟨encode n / 2 ^ 64, by omega, by omega, by omega⟩
  have hr0 : r ≠ 0 := by omega
  have hmod : (r - 1) % 10 = 4 * k % 10 := by omega
  obtain ⟨δ, hδl, hδu, hm⟩ := nine_mul_mantissa h hr0 hk (by omega)
  have hlow : 2 ^ 64 * k ≤ 9 * n := by omega
  have hupp : 9 * n < 2 ^ 64 * (k + 1) + 100 := by omega
  rw [decode, if_neg hr0, hmod]
  intro heq
  have hcongr := modEq_of_scaled_eq hm heq
  have hn0 : (0 : ℤ) ≤ n := Int.natCast_nonneg n
  have hn64 : (n : ℤ) < 2 ^ 64 := by omega
  clear hk henc hov hmod hr0 heq hrdef
  clear_value r
  generalize mantissa r = m at hm
  -- one inverse for each number of wraps; nine divides what is left of `hm`, which leaves
  -- at most three corrections, and for each of them the solution `n` is out of range
  interval_cases k
  · have := eq_of_modEq (u := 15842828238033401399) (by decide) hcongr hn0 hn64
    obtain rfl | rfl | rfl : δ = -11 ∨ δ = -2 ∨ δ = 7 := by omega
    all_goals norm_num at this; omega
  · have := eq_of_modEq (u := 16430456183658535111) (by decide) hcongr hn0 hn64
    obtain rfl | rfl | rfl : δ = -13 ∨ δ = -4 ∨ δ = 5 := by omega
    all_goals norm_num at this; omega
  · have := eq_of_modEq (u := 13705661702352102323) (by decide) hcongr hn0 hn64
    obtain rfl | rfl | rfl : δ = -15 ∨ δ = -6 ∨ δ = 3 := by omega
    all_goals norm_num at this; omega
  · have := eq_of_modEq (u := 12483635422780629383) (by decide) hcongr hn0 hn64
    obtain rfl | rfl : δ = -8 ∨ δ = 1 := by omega
    all_goals norm_num at this; omega

end DecimalCode
