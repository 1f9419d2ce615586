import Fedoracoin.Base58

/-!
# Amounts as text

`FormatMoney` and `ParseMoney`.  A string is the list of its bytes.  In `ParseMoney` no number is
out of the range of its type: what is read of the units is below `COIN`, and ten digits of whole
coins are below `2^63` units.
-/

namespace Fedoracoin

open Radix

/-! ## Formatting -/

/-- The digits of a number, the most significant one first. -/
def decimal (n : Nat) : List Nat := if n < 10 then [n] else decimal (n / 10) ++ [n % 10]
termination_by n

def digitChar (d : Nat) : UInt8 := UInt8.ofNat (0x30 + d)

def isdigit (c : UInt8) : Bool := decide (0x30 ≤ c ∧ c ≤ 0x39)

/-- `%d`, filled up with zeros to `width` characters. -/
def formatInt (width : Nat) (x : Int) : List UInt8 :=
  let sign := if x < 0 then [0x2d] else []
  let digits := (decimal x.natAbs).map digitChar
  sign ++ List.replicate (width - (sign.length + digits.length)) 0x30 ++ digits

/-- "Right-trim excess zeros before the decimal point", of a string from its end. -/
def trimZeros : List UInt8 → List UInt8
  | a :: b :: c :: str =>
      if a = 0x30 ∧ isdigit c = true then trimZeros (b :: c :: str) else a :: b :: c :: str
  | str => str

def formatMoney (n : Int64) (fPlus : Bool) : List UInt8 :=
  let n_abs := if 0 < n then n else -n
  let quotient := n_abs / coin
  let remainder := n_abs % coin
  let str := formatInt 0 quotient.toInt ++ 0x2e :: formatInt 8 remainder.toInt
  let str := (trimZeros str.reverse).reverse
  if n < 0 then 0x2d :: str
  else if fPlus && decide (0 < n) then 0x2b :: str
  else str

/-! ## Parsing -/

/-- The digits behind the point, while `nMult` is positive: `nUnits`, and what is left. -/
def parseUnits : (nMult nUnits : Int) → List UInt8 → Int × List UInt8
  | _, nUnits, [] => (nUnits, [])
  | nMult, nUnits, c :: p =>
      if isdigit c = true ∧ 0 < nMult then
        parseUnits (nMult / 10) (nUnits + nMult * (c.toNat - 0x30)) p
      else (nUnits, c :: p)

/-- The first loop: `strWhole`, `nUnits` and what is left; `none` is `return false`. -/
def parseNumber : (strWhole : List UInt8) → List UInt8 → Option (List UInt8 × Int × List UInt8)
  | strWhole, [] => some (strWhole, 0, [])
  | strWhole, c :: p =>
      if c = 0x2e then
        let (nUnits, p) := parseUnits (cent.toInt * 10) 0 p
        some (strWhole, nUnits, p)
      else if isspace c then some (strWhole, 0, c :: p)
      else if !isdigit c then none
      else parseNumber (strWhole ++ [c]) p

/-- `atoi64`, of digits. -/
def atoi64 (str : List UInt8) : Int := str.foldl (fun n c ↦ n * 10 + (c.toNat - 0x30)) 0

def parseMoney (pszIn : List UInt8) : Option Int64 := do
  let (strWhole, nUnits, p) ← parseNumber [] (pszIn.dropWhile isspace)
  if p.any (!isspace ·) then none
  if 10 < strWhole.length then none
  if nUnits < 0 ∨ coin.toInt < nUnits then none
  let nWhole := atoi64 strWhole
  return Int64.ofInt (nWhole * coin.toInt + nUnits)

section

variable {n k : Nat} {ds es fs : List Nat} {c : UInt8} {str : List UInt8}

/-! ## Digits -/

theorem decimal_spec (n : Nat) : (∀ d ∈ decimal n, d < 10) ∧ value 10 (decimal n) = n := by
  induction n using Nat.strongRecOn with
  | ind n ih =>
      rw [decimal]
      split
      case isTrue h =>
        refine ⟨List.forall_mem_singleton.mpr h, ?_⟩
        rw [← List.nil_append [n], value_concat, value_nil, Nat.zero_mul, Nat.zero_add]
      case isFalse h =>
        obtain ⟨hlt, hvalue⟩ := ih (n / 10) (by omega)
        rw [List.forall_mem_append, List.forall_mem_singleton, value_concat, hvalue]
        exact ⟨⟨hlt, Nat.mod_lt _ (by norm_num)⟩, Nat.div_add_mod' n 10⟩

theorem length_decimal_le (h : n < 10 ^ (k + 1)) : (decimal n).length ≤ k + 1 := by
  induction k generalizing n with
  | zero =>
      rw [decimal, if_pos (by omega)]
      exact le_refl _
  | succ k ih =>
      rw [decimal]
      split
      case isTrue => exact Nat.le_add_left 1 _
      case isFalse =>
        rw [List.length_append, List.length_singleton]
        exact Nat.succ_le_succ (ih (Nat.div_lt_of_lt_mul (by rwa [← pow_succ'])))

/-- Ten digits are enough for what is below `10^10`, and for nothing else. -/
theorem length_decimal_le_iff : (decimal n).length ≤ k + 1 ↔ n < 10 ^ (k + 1) := by
  refine ⟨fun h ↦ ?_, length_decimal_le⟩
  obtain ⟨hlt, hvalue⟩ := decimal_spec n
  calc n = value 10 (decimal n) := hvalue.symm
    _ < 10 ^ (decimal n).length := value_lt (by norm_num) hlt
    _ ≤ 10 ^ (k + 1) := Nat.pow_le_pow_right (by norm_num) h

theorem digitChar_spec {d : Nat} (hd : d < 10) :
    isdigit (digitChar d) = true ∧ isspace (digitChar d) = false ∧ digitChar d ≠ 0x2e ∧
      ((digitChar d).toNat : Int) - 0x30 = d ∧ (digitChar d = 0x30 ↔ d = 0) := by
  revert d
  decide

/-! ## What is formatted -/

theorem formatInt_zero (x : Nat) : formatInt 0 x = (decimal x).map digitChar := by
  have hneg : ¬ (x : Int) < 0 := Int.not_lt.mpr (Int.natCast_nonneg x)
  rw [formatInt, if_neg hneg, Nat.zero_sub, Int.natAbs_natCast]
  rfl

/-- Eight digits. -/
theorem exists_formatInt_eight {x : Nat} (hx : x < 10 ^ 8) :
    ∃ fs, formatInt 8 x = fs.map digitChar ∧ fs.length = 8 ∧ (∀ d ∈ fs, d < 10) ∧
      value 10 fs = x := by
  have hneg : ¬ (x : Int) < 0 := Int.not_lt.mpr (Int.natCast_nonneg x)
  obtain ⟨hlt, hvalue⟩ := decimal_spec x
  have hlength := length_decimal_le hx
  refine ⟨List.replicate (8 - (decimal x).length) 0 ++ decimal x, ?_, ?_, ?_, ?_⟩
  · rw [formatInt, if_neg hneg, Int.natAbs_natCast, List.length_map, List.length_nil, Nat.zero_add,
      List.nil_append, List.map_append, List.map_replicate]
    rfl
  · rw [List.length_append, List.length_replicate]
    omega
  · exact List.forall_mem_append.mpr
      ⟨fun d hd ↦ List.eq_of_mem_replicate hd ▸ (by norm_num), hlt⟩
  · rw [value_append, value_replicate_zero, Nat.zero_mul, Nat.zero_add, hvalue]

/-- Only zeros are trimmed, and nothing before the point. -/
theorem trimZeros_eq (str : List UInt8) (hds : ∀ d ∈ ds, d < 10) (hlength : 2 ≤ ds.length) :
    ∃ k es, ds = List.replicate k 0 ++ es ∧
      trimZeros (ds.map digitChar ++ 0x2e :: str) = es.map digitChar ++ 0x2e :: str := by
  induction ds with
  | nil => cases hlength
  | cons a ds ih =>
      rw [List.forall_mem_cons] at hds
      match ds, hds, hlength, ih with
      | [b], hds, _, _ =>
          refine ⟨0, [a, b], rfl, ?_⟩
          change trimZeros (digitChar a :: digitChar b :: 0x2e :: str) = _
          rw [trimZeros, if_neg fun h ↦ absurd h.2 (by decide)]
          rfl
      | b :: c :: ds, hds, _, ih =>
          have hc : c < 10 := hds.2 c (by simp)
          obtain ⟨-, -, -, -, hzero⟩ := digitChar_spec hds.1
          change ∃ k es, _ ∧ trimZeros (digitChar a :: digitChar b :: digitChar c ::
            (ds.map digitChar ++ 0x2e :: str)) = _
          rw [trimZeros]
          split
          case isTrue h =>
            obtain rfl := hzero.mp h.1
            obtain ⟨k, es, hsplit, htrim⟩ := ih hds.2 (Nat.le_add_left 2 _)
            exact ⟨k + 1, es, by rw [hsplit, List.replicate_succ, List.cons_append], htrim⟩
          case isFalse => exact ⟨0, a :: b :: c :: ds, rfl, rfl⟩

/-- The whole coins, a point, and what is left of eight digits without zeros at their end. -/
theorem formatMoney_eq {v : Int64} (hv : 0 ≤ v) :
    ∃ fs k, formatMoney v false =
        (decimal (v.toInt.toNat / 10 ^ 8)).map digitChar ++ 0x2e :: fs.map digitChar ∧
      fs.length + k = 8 ∧ (∀ d ∈ fs, d < 10) ∧
      value 10 fs * 10 ^ k = v.toInt.toNat % 10 ^ 8 := by
  obtain ⟨n, hn⟩ := Int.eq_ofNat_of_zero_le (RunningSum.nonneg_iff.mp hv)
  have hcoin : coin.toInt = 10 ^ 8 := by decide
  have habs : (if 0 < v then v else -v) = v := by
    split
    case isTrue => rfl
    case isFalse h =>
      obtain rfl : v = 0 := Int64.le_antisymm (Int64.not_lt.mp h) hv
      rfl
  have hquotient : (v / coin).toInt = (n / 10 ^ 8 : Nat) := by
    rw [Int64.toInt_div_of_ne_right _ _ (by decide), hcoin, hn]
    rfl
  have hremainder : (v % coin).toInt = (n % 10 ^ 8 : Nat) := by
    rw [Int64.toInt_mod, hcoin, hn]
    rfl
  obtain ⟨fs, hfs, hlength, hlt, hvalue⟩ :=
    exists_formatInt_eight (Nat.mod_lt n (by norm_num : 0 < 10 ^ 8))
  obtain ⟨k, es, hsplit, htrim⟩ := trimZeros_eq ((decimal (n / 10 ^ 8)).map digitChar).reverse
    (fun d hd ↦ hlt d (List.mem_reverse.mp hd)) (by rw [List.length_reverse, hlength]; norm_num)
  have hfs' : fs = es.reverse ++ List.replicate k 0 := by
    rw [← List.reverse_inj, hsplit, List.reverse_append, List.reverse_reverse,
      List.reverse_replicate]
  refine ⟨es.reverse, k, ?_, ?_, ?_, ?_⟩
  · rw [formatMoney, habs, hquotient, hremainder, formatInt_zero, hfs, if_neg (Int64.not_lt.mpr hv)]
    rw [List.reverse_append, List.reverse_cons, ← List.map_reverse, List.append_assoc,
      List.singleton_append, htrim, List.reverse_append, List.reverse_cons, List.reverse_reverse,
      List.append_assoc, List.singleton_append, List.map_reverse, Bool.false_and,
      if_neg Bool.false_ne_true, hn, Int.toNat_natCast]
  · rw [← hlength, hfs', List.length_append, List.length_replicate]
  · intro d hd
    exact hlt d (hfs' ▸ List.mem_append_left _ hd)
  · rw [hn, Int.toNat_natCast, ← hvalue, hfs', value_append, value_replicate_zero,
      List.length_replicate, Nat.add_zero]

/-! ## What is parsed -/

/-- The multiplier with `k` digits to go. -/
def unitMultiplier : (k : Nat) → Int
  | 0 => 0
  | k + 1 => 10 ^ k

theorem parseUnits_digits (nUnits : Int) (hfs : ∀ d ∈ fs, d < 10) (hlength : fs.length ≤ k) :
    parseUnits (unitMultiplier k) nUnits (fs.map digitChar) =
      (nUnits + (value 10 fs * 10 ^ (k - fs.length) : Nat), []) := by
  induction fs generalizing k nUnits with
  | nil =>
      rw [List.map_nil, parseUnits, value_nil, Nat.zero_mul, Int.natCast_zero, Int.add_zero]
  | cons d fs ih =>
      obtain ⟨k, rfl⟩ : ∃ j, k = j + 1 := ⟨k - 1, by rw [List.length_cons] at hlength; omega⟩
      rw [List.forall_mem_cons] at hfs
      rw [List.length_cons] at hlength
      obtain ⟨hdigit, -, -, hval, -⟩ := digitChar_spec hfs.1
      have hpos : (0 : Int) < unitMultiplier (k + 1) := Int.pow_pos (by norm_num)
      have hdiv : unitMultiplier (k + 1) / 10 = unitMultiplier k := by
        cases k with
        | zero => rfl
        | succ k => exact Int.ediv_eq_of_eq_mul_left (by norm_num) (pow_succ 10 k)
      rw [List.map_cons, parseUnits, if_pos ⟨hdigit, hpos⟩, hdiv, hval,
        ih _ hfs.2 (Nat.le_of_succ_le_succ hlength), value_cons, List.length_cons,
        Nat.add_sub_add_right]
      have hpow : 10 ^ k = 10 ^ fs.length * 10 ^ (k - fs.length) := by
        rw [← pow_add, Nat.add_sub_cancel' (Nat.le_of_succ_le_succ hlength)]
      congr 1
      rw [Int.add_assoc, unitMultiplier]
      congr 1
      have hpow' : (10 : Int) ^ k = ((10 ^ fs.length * 10 ^ (k - fs.length) : Nat) : Int) := by
        rw [← hpow]
        rfl
      rw [hpow']
      push_cast
      ring

theorem parseNumber_digits (acc p : List UInt8) (hds : ∀ d ∈ ds, d < 10) :
    parseNumber acc (ds.map digitChar ++ 0x2e :: p) =
      some (acc ++ ds.map digitChar, parseUnits (cent.toInt * 10) 0 p) := by
  induction ds generalizing acc with
  | nil =>
      rw [List.map_nil, List.nil_append, List.append_nil, parseNumber, if_pos rfl]
  | cons d ds ih =>
      rw [List.forall_mem_cons] at hds
      obtain ⟨hdigit, hspace, hpoint, -, -⟩ := digitChar_spec hds.1
      rw [List.map_cons, List.cons_append, parseNumber, if_neg hpoint, hspace,
        if_neg Bool.false_ne_true, hdigit, Bool.not_true, if_neg Bool.false_ne_true, ih _ hds.2,
        List.append_assoc, List.singleton_append]

theorem atoi64_digits (hds : ∀ d ∈ ds, d < 10) : atoi64 (ds.map digitChar) = value 10 ds := by
  induction ds using List.reverseRecOn with
  | nil => rfl
  | append_singleton ds d ih =>
      rw [List.forall_mem_append, List.forall_mem_singleton] at hds
      obtain ⟨-, -, -, hval, -⟩ := digitChar_spec hds.2
      rw [atoi64] at ih ⊢
      rw [List.map_append, List.foldl_append, ih hds.1, value_concat, List.map_singleton,
        List.foldl_cons, List.foldl_nil, hval]
      push_cast
      rfl

/-- Digits, a point and at most eight digits. -/
theorem parseMoney_digits (hds : ∀ d ∈ ds, d < 10) (hfs : ∀ d ∈ fs, d < 10)
    (hlength : fs.length + k = 8) (hunits : value 10 fs * 10 ^ k < 10 ^ 8) (hne : ds ≠ []) :
    parseMoney (ds.map digitChar ++ 0x2e :: fs.map digitChar) =
      if 10 < ds.length then none
      else some (Int64.ofInt (value 10 ds * 10 ^ 8 + value 10 fs * 10 ^ k : Nat)) := by
  have hfirst : (ds.map digitChar ++ 0x2e :: fs.map digitChar).dropWhile isspace =
      ds.map digitChar ++ 0x2e :: fs.map digitChar := by
    refine dropWhile_eq_self fun c hc ↦ ?_
    cases ds with
    | nil => exact absurd rfl hne
    | cons d ds =>
        obtain rfl := Option.some.inj hc
        exact (digitChar_spec (hds d List.mem_cons_self)).2.1
  have hunit : parseUnits (cent.toInt * 10) 0 (fs.map digitChar) =
      (((value 10 fs * 10 ^ k : Nat) : Int), []) := by
    have h := parseUnits_digits (k := 8) 0 hfs (by omega)
    rw [Int.zero_add, show 8 - fs.length = k by omega] at h
    exact h
  have hcoin : coin.toInt = 10 ^ 8 := by decide
  have hrange : ¬(((value 10 fs * 10 ^ k : Nat) : Int) < 0 ∨
      coin.toInt < ((value 10 fs * 10 ^ k : Nat) : Int)) := by
    rw [hcoin]
    omega
  rw [parseMoney, hfirst, parseNumber_digits [] _ hds, hunit, Option.bind_eq_bind, Option.bind_some]
  dsimp only
  rw [List.any_nil, if_neg Bool.false_ne_true, List.nil_append, List.length_map]
  by_cases hlong : 10 < ds.length
  · rw [if_pos hlong, if_pos hlong]
    rfl
  · rw [if_neg hlong, if_neg hlong, if_neg hrange, atoi64_digits hds, hcoin]
    push_cast
    rfl

/-! ## Round trip -/

/-- Eleven digits of whole coins are refused. -/
theorem parseMoney_formatMoney {n : Int64} (hn : 0 ≤ n) :
    parseMoney (formatMoney n false) = if n.toInt < 10 ^ 18 then some n else none := by
  have hnonneg := RunningSum.nonneg_iff.mp hn
  obtain ⟨fs, k, hformat, hlength, hfs, hvalue⟩ := formatMoney_eq hn
  obtain ⟨hds, hwhole⟩ := decimal_spec (n.toInt.toNat / 10 ^ 8)
  have hne : decimal (n.toInt.toNat / 10 ^ 8) ≠ [] := by
    intro hnil
    rw [decimal] at hnil
    split at hnil
    case isTrue => cases hnil
    case isFalse => exact absurd hnil (List.append_ne_nil_of_right_ne_nil _ (List.cons_ne_nil _ _))
  have hunits : value 10 fs * 10 ^ k < 10 ^ 8 := hvalue ▸ Nat.mod_lt _ (by norm_num)
  have hsum : n.toInt.toNat / 10 ^ 8 * 10 ^ 8 + n.toInt.toNat % 10 ^ 8 = n.toInt.toNat :=
    Nat.div_add_mod' _ _
  have hten : ¬ 10 < (decimal (n.toInt.toNat / 10 ^ 8)).length ↔ n.toInt < 10 ^ 18 := by
    rw [Nat.not_lt, length_decimal_le_iff (k := 9), Nat.div_lt_iff_lt_mul (by norm_num)]
    omega
  rw [hformat, parseMoney_digits hds hfs hlength hunits hne, hwhole, hvalue, hsum,
    Int.toNat_of_nonneg hnonneg, Int64.ofInt_toInt]
  split
  case isTrue hlong => rw [if_neg fun h ↦ hten.mpr h hlong]
  case isFalse hlong => rw [if_pos (hten.mp hlong)]

/-- **An amount of fewer than ten billion coins comes back**, and no other one. -/
theorem parseMoney_formatMoney_iff {n : Int64} (h : moneyRange n = true) :
    parseMoney (formatMoney n false) = some n ↔ n.toInt < 10 ^ 18 := by
  rw [parseMoney_formatMoney (moneyRange_iff.mp h)]
  split
  case isTrue hlt => exact iff_of_true rfl hlt
  case isFalse hle => exact iff_of_false (fun h ↦ by cases h) hle

theorem parseMoney_formatMoney_iff_largest :
    parseMoney (formatMoney 999999999999999999 false) = some 999999999999999999 :=
  (parseMoney_formatMoney_iff (by decide)).mpr (by decide)

/-- Ten billion coins. -/
theorem parseMoney_formatMoney_none :
    moneyRange 1000000000000000000 = true ∧
      parseMoney (formatMoney 1000000000000000000 false) = none :=
  ⟨by decide, (parseMoney_formatMoney (by decide)).trans (if_neg (by decide))⟩

end

end Fedoracoin
