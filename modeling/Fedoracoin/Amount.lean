import Fedoracoin.Core
import Fedoracoin.Lib.DecimalCode

/-!
# Amount compression

`CTxOutCompressor::CompressAmount` and `DecompressAmount` of `core.cpp`: the code
an output's value is stored under in the coin database and in undo data.  Both
compute in `uint64_t`.

On unbounded naturals this is the lossless code of `Lib/DecimalCode.lean`, and the
machine functions compute that code modulo `2 ^ 64` (`compressAmount_toNat`,
`decompressAmount_toNat`).  An amount therefore survives whenever its exact code
fits into 64 bits.  Amounts that are not a multiple of ten outgrow it at about
`2 ^ 64 / 9`, well inside what `MoneyRange` admits; none of those survives by
accident (`decompress_compress_ne`).
-/

namespace Fedoracoin

namespace CTxOutCompressor

/-- The loop `while (((n % 10) == 0) && e < 9)`, with `left` the number of iterations
that `e < 9` still allows. -/
def stripZeros : Nat → UInt64 → Nat → UInt64 × Nat
  | 0, n, e => (n, e)
  | left + 1, n, e => if n % 10 = 0 then stripZeros left (n / 10) (e + 1) else (n, e)

def compressAmount (n : UInt64) : UInt64 :=
  if n = 0 then 0
  else
    let (n, e) := stripZeros 9 n 0
    if e < 9 then
      let d := n % 10
      let n := n / 10
      1 + (n * 9 + d - 1) * 10 + UInt64.ofNat e
    else 1 + (n - 1) * 10 + 9

/-- The loop `while (e) { n *= 10; e--; }`. -/
def scaleByTen : Nat → UInt64 → UInt64
  | 0, n => n
  | e + 1, n => scaleByTen e (n * 10)

def decompressAmount (x : UInt64) : UInt64 :=
  if x = 0 then 0
  else
    let x := x - 1
    let e := (x % 10).toNat
    let x := x / 10
    let n :=
      if e < 9 then
        let d := x % 9 + 1
        let x := x / 9
        x * 10 + d
      else x + 1
    scaleByTen e n

/-! ## The machine functions compute the exact code modulo `2 ^ 64` -/

theorem stripZeros_eq (left : Nat) (n : UInt64) (e : Nat) :
    (stripZeros left n e).1.toNat = (DecimalCode.strip left n.toNat).1 ∧
      (stripZeros left n e).2 = e + (DecimalCode.strip left n.toNat).2 := by
  induction left generalizing n e with
  | zero => exact ⟨rfl, rfl⟩
  | succ left ih =>
      have hzero : n % 10 = 0 ↔ n.toNat % 10 = 0 := by
        rw [← UInt64.toNat_inj, UInt64.toNat_mod]
        rfl
      have hdiv : (n / 10).toNat = n.toNat / 10 := by
        rw [UInt64.toNat_div]
        rfl
      rw [stripZeros, DecimalCode.strip]
      by_cases h : n % 10 = 0
      · rw [if_pos h, if_pos (hzero.mp h)]
        obtain ⟨h1, h2⟩ := ih (n / 10) (e + 1)
        rw [hdiv] at h1 h2
        exact ⟨h1, by rw [h2]; omega⟩
      · rw [if_neg h, if_neg (mt hzero.mpr h)]
        exact ⟨rfl, rfl⟩

theorem compressAmount_toNat (n : UInt64) :
    (compressAmount n).toNat = DecimalCode.encode n.toNat % 2 ^ 64 := by
  by_cases hn : n = 0
  · subst hn
    rfl
  have hn' : n.toNat ≠ 0 := fun h ↦ hn (UInt64.toNat_inj.mp h)
  obtain ⟨hm, he⟩ := stripZeros_eq 9 n 0
  have hmul := DecimalCode.strip_mul 9 n.toNat
  have hle := DecimalCode.strip_exponent_le 9 n.toNat
  have hd := DecimalCode.strip_mantissa (k := 9) (n := n.toNat)
  rw [compressAmount, if_neg hn, DecimalCode.encode, if_neg hn']
  simp only [zero_add] at he
  simp only [he]
  set m := (DecimalCode.strip 9 n.toNat).1
  set e := (DecimalCode.strip 9 n.toNat).2
  set w := (stripZeros 9 n 0).1
  have hw := w.toNat_lt
  split
  · rename_i hlt
    have := hd hlt
    simp only [UInt64.toNat_add, UInt64.toNat_sub, UInt64.toNat_mul, UInt64.toNat_div,
      UInt64.toNat_mod, UInt64.toNat_ofNat', UInt64.toNat_ofNat, Nat.reducePow, Nat.reduceMod, hm]
    omega
  · have hm0 : m ≠ 0 := fun h0 ↦ hn' (by rw [← hmul, h0, zero_mul])
    simp only [UInt64.toNat_add, UInt64.toNat_sub, UInt64.toNat_mul, UInt64.toNat_ofNat,
      Nat.reducePow, Nat.reduceMod, hm]
    omega

theorem scaleByTen_toNat (e : Nat) (n : UInt64) :
    (scaleByTen e n).toNat = n.toNat * 10 ^ e % 2 ^ 64 := by
  induction e generalizing n with
  | zero =>
      rw [scaleByTen, pow_zero, mul_one]
      exact (Nat.mod_eq_of_lt n.toNat_lt).symm
  | succ e ih =>
      rw [scaleByTen, ih, UInt64.toNat_mul, Nat.mod_mul_mod, pow_succ' 10 e, ← mul_assoc]
      rfl

theorem decompressAmount_toNat (x : UInt64) :
    (decompressAmount x).toNat = DecimalCode.decode x.toNat % 2 ^ 64 := by
  by_cases hx : x = 0
  · subst hx
    rfl
  have hx' : x.toNat ≠ 0 := fun h ↦ hx (UInt64.toNat_inj.mp h)
  have hlt := x.toNat_lt
  have hpred : (x - 1).toNat = x.toNat - 1 := by
    simp only [UInt64.toNat_sub, UInt64.toNat_ofNat, Nat.reducePow, Nat.reduceMod]
    omega
  have hexp : ((x - 1) % 10).toNat = (x.toNat - 1) % 10 := by
    rw [UInt64.toNat_mod, hpred]
    rfl
  rw [decompressAmount, if_neg hx, DecimalCode.decode, if_neg hx', scaleByTen_toNat, hexp,
    DecimalCode.mantissa]
  congr 2
  split
  · simp only [UInt64.toNat_add, UInt64.toNat_mul, UInt64.toNat_div, UInt64.toNat_mod, hpred,
      UInt64.toNat_ofNat, Nat.reducePow, Nat.reduceMod]
    omega
  · simp only [UInt64.toNat_add, UInt64.toNat_div, hpred, UInt64.toNat_ofNat, Nat.reducePow,
      Nat.reduceMod]
    omega

/-- An amount whose exact code fits into 64 bits is read back unchanged. -/
theorem decompress_compress_of_lt {n : UInt64} (h : DecimalCode.encode n.toNat < 2 ^ 64) :
    decompressAmount (compressAmount n) = n := by
  rw [← UInt64.toNat_inj, decompressAmount_toNat, compressAmount_toNat, Nat.mod_eq_of_lt h,
    DecimalCode.decode_encode]
  exact Nat.mod_eq_of_lt n.toNat_lt

/-- An admitted amount whose exact code does not fit is read back as something else. -/
theorem decompress_compress_ne {n : UInt64} (hn : n.toNat < 2 ^ 63) (hmod : n.toNat % 10 ≠ 0)
    (h : 2 ^ 64 ≤ DecimalCode.encode n.toNat) : decompressAmount (compressAmount n) ≠ n := by
  rw [Ne, ← UInt64.toNat_inj, decompressAmount_toNat, compressAmount_toNat]
  exact DecimalCode.decode_wrapped_ne hn hmod h

/-- The code of an amount below `2 ^ 63` fits exactly up to a bound, or when the amount is
a multiple of ten. -/
theorem encode_lt_iff {n : ℕ} (hn : n < 2 ^ 63) :
    DecimalCode.encode n < 2 ^ 64 ↔ n % 10 = 0 ∨ n ≤ 2049638230412172402 := by
  by_cases h : n % 10 = 0
  · have := DecimalCode.encode_le_of_mod_eq_zero h
    exact ⟨fun _ ↦ .inl h, fun _ ↦ by omega⟩
  · rw [DecimalCode.encode_of_ne h]
    omega

/-- **Which amounts survive compression.**  Among the outputs `MoneyRange` admits, exactly
the multiples of ten and the amounts up to 2049638230412172402. -/
theorem decompress_compress_iff (nValue : Int64) (h : moneyRange nValue = true) :
    decompressAmount (compressAmount nValue.toUInt64) = nValue.toUInt64 ↔
      nValue.toInt % 10 = 0 ∨ nValue.toInt ≤ 2049638230412172402 := by
  have hval := toNat_toUInt64_of_nonneg (moneyRange_iff.mp h)
  have hlt : nValue.toUInt64.toNat < 2 ^ 63 := by
    have := nValue.toInt_lt
    omega
  have hfit := encode_lt_iff hlt
  constructor
  · intro hread
    by_contra hno
    have hov : ¬ DecimalCode.encode nValue.toUInt64.toNat < 2 ^ 64 := by
      rw [hfit]
      omega
    exact decompress_compress_ne hlt (by omega) (by omega) hread
  · intro hcond
    exact decompress_compress_of_lt (hfit.mpr (by omega))

theorem decompress_compress_iff_coin :
    moneyRange coin = true ∧
      decompressAmount (compressAmount coin.toUInt64) = coin.toUInt64 :=
  ⟨by decide, (decompress_compress_iff coin (by decide)).mpr (.inl (by decide))⟩

/-- The largest admitted amount is read back as another one. -/
theorem decompress_compress_max :
    ¬ ∀ nValue : Int64, moneyRange nValue = true →
      decompressAmount (compressAmount nValue.toUInt64) = nValue.toUInt64 := by
  intro h
  exact absurd (h 9223372036854775807 (by decide)) (by decide)

end CTxOutCompressor

end Fedoracoin
