import Fedoracoin.BaseUint
import Fedoracoin.ParseHex

/-!
# Hexadecimal numbers

`GetHex` and `SetHex` go over the bytes of `pn` in memory, where the limbs are little-endian.
-/

namespace Fedoracoin

open Radix

namespace BaseUint

variable {width : Nat}

/-- The bytes of `pn`. -/
def bytes (a : BaseUint width) : List UInt8 := a.pn.flatMap fun p ↦ Wire.toBytes 4 p.toNat

/-- `pn` with given bytes. -/
def limbs : (width : Nat) → List UInt8 → List (BitVec 32)
  | 0, _ => []
  | width + 1, s => BitVec.ofNat 32 (Wire.ofBytes (s.take 4)) :: limbs width (s.drop 4)

theorem length_limbs (width : Nat) (s : List UInt8) : (limbs width s).length = width := by
  induction width generalizing s with
  | zero => rfl
  | succ width ih => rw [limbs, List.length_cons, ih]

/-- A digit of `%x`. -/
def hexChar (d : Nat) : UInt8 :=
  if d < 10 then '0'.toUInt8 + UInt8.ofNat d else 'a'.toUInt8 + UInt8.ofNat (d - 10)

/-- `sprintf` with `"%02x"`. -/
def hexPair (b : UInt8) : List UInt8 := [hexChar (b.toNat / 16), hexChar (b.toNat % 16)]

def getHex (a : BaseUint width) : List UInt8 := a.bytes.reverse.flatMap hexPair

/-- "hex string to uint": the digits from the last one, and the bytes of `pn` that are left. -/
def fillBytes : (size : Nat) → (psz : List UInt8) → List UInt8
  | 0, _ => []
  | size + 1, [] => List.replicate (size + 1) 0
  | size + 1, [c] => UInt8.ofNat (hexDigit c).toNat :: List.replicate size 0
  | size + 1, c :: d :: psz =>
      (UInt8.ofNat (hexDigit c).toNat ||| UInt8.ofNat ((hexDigit d).toNat <<< 4)) ::
        fillBytes size psz

/-- "skip 0x". -/
def skip0x : List UInt8 → List UInt8
  | c :: d :: psz => if c = '0'.toUInt8 ∧ tolower d = 'x'.toUInt8 then psz else c :: d :: psz
  | psz => psz

/-- `SetHex` of a string up to its NUL. -/
def setHex (width : Nat) (psz : List UInt8) : BaseUint width where
  pn := limbs width (fillBytes (width * 4)
    ((skip0x (psz.dropWhile isspace)).takeWhile (hexDigit · ≠ -1)).reverse)
  length_pn := length_limbs _ _

/-- `SetHex` of a `std::string`. -/
def setHexString (width : Nat) (str : List UInt8) : BaseUint width := setHex width (cStr str)

/-! ## Bytes of numbers -/

theorem ofBytes_bytes (pn : List (BitVec 32)) :
    Wire.ofBytes (pn.flatMap fun p ↦ Wire.toBytes 4 p.toNat) = Limbs.value pn := by
  induction pn with
  | nil => rfl
  | cons p pn ih =>
      rw [List.flatMap_cons, Wire.ofBytes_append, Wire.ofBytes_toBytes p.isLt, ih,
        Wire.length_toBytes, Limbs.value]
      rfl

theorem value_limbs {s : List UInt8} (h : s.length = width * 4) :
    Limbs.value (limbs width s) = Wire.ofBytes s := by
  induction width generalizing s with
  | zero =>
      rw [List.eq_nil_of_length_eq_zero (h.trans (Nat.zero_mul 4))]
      rfl
  | succ width ih =>
      have htake : (s.take 4).length = 4 := by
        rw [List.length_take]
        omega
      have hdrop : (s.drop 4).length = width * 4 := by
        rw [List.length_drop]
        omega
      have hlt : Wire.ofBytes (s.take 4) < 256 ^ 4 := by
        have hlt := Wire.ofBytes_lt (s.take 4)
        rwa [htake] at hlt
      have happend := Wire.ofBytes_append (s.take 4) (s.drop 4)
      rw [List.take_append_drop, htake] at happend
      rw [limbs, Limbs.value, ih hdrop, BitVec.toNat_ofNat, happend]
      change _ % 256 ^ 4 + _ = _
      rw [Nat.mod_eq_of_lt hlt]
      rfl

/-! ## Digits -/

/-- The number that digits stand for, the most significant first. -/
def hexValue (digits : List UInt8) : Nat := value 16 (digits.map fun c ↦ (hexDigit c).toNat)

theorem hexDigit_hexChar : ∀ d < 16, hexDigit (hexChar d) = d := by decide +kernel

theorem hexDigit_hexPair {b c : UInt8} (hc : c ∈ hexPair b) : hexDigit c ≠ -1 := by
  have hb := b.toNat_lt
  rw [hexPair, List.mem_pair] at hc
  rcases hc with rfl | rfl
  all_goals
    rw [hexDigit_hexChar _ (by omega)]
    omega

theorem toNat_nibbles : ∀ x < 16, ∀ y < 16,
    (UInt8.ofNat x ||| UInt8.ofNat (y <<< 4)).toNat = x + 16 * y := by decide +kernel

theorem length_fillBytes (size : Nat) (psz : List UInt8) : (fillBytes size psz).length = size := by
  fun_induction fillBytes size psz with
  | case1 => rfl
  | case2 size => exact List.length_replicate
  | case3 size c => rw [List.length_cons, List.length_replicate]
  | case4 size c d psz ih => rw [List.length_cons, ih]

theorem ofBytes_replicate_zero (n : Nat) : Wire.ofBytes (List.replicate n 0) = 0 := by
  induction n with
  | zero => rfl
  | succ n ih =>
      rw [List.replicate_succ, Wire.ofBytes, ih]
      rfl

/-- Two digits a byte, and none behind the last byte. -/
theorem ofBytes_fillBytes (size : Nat) {psz : List UInt8} (h : ∀ c ∈ psz, hexDigit c ≠ -1) :
    Wire.ofBytes (fillBytes size psz) =
      Nat.ofDigits 16 (psz.map fun c ↦ (hexDigit c).toNat) % 256 ^ size := by
  fun_induction fillBytes size psz with
  | case1 => rw [pow_zero, Nat.mod_one, Wire.ofBytes]
  | case2 size => rw [ofBytes_replicate_zero, List.map_nil, Nat.ofDigits_nil, Nat.zero_mod]
  | case3 size c =>
      have hc := hexDigit_lt (h c List.mem_cons_self)
      have hpos := Nat.one_le_pow size 256 (by decide)
      rw [Wire.ofBytes, ofBytes_replicate_zero, List.map_cons, List.map_nil, Nat.ofDigits_singleton,
        UInt8.toNat_ofNat', Nat.mod_eq_of_lt (by omega), pow_succ, Nat.mod_eq_of_lt (by omega),
        Nat.mul_zero, Nat.add_zero]
  | case4 size c d psz ih =>
      rw [List.forall_mem_cons, List.forall_mem_cons] at h
      obtain ⟨hc, hd, hpsz⟩ := h
      have hbyte := toNat_nibbles _ (hexDigit_lt hc) _ (hexDigit_lt hd)
      have hc := hexDigit_lt hc
      have hd := hexDigit_lt hd
      have hsplit (n : Nat) : (hexDigit c).toNat + 16 * ((hexDigit d).toNat + 16 * n) =
          (hexDigit c).toNat + 16 * (hexDigit d).toNat + 256 * n := by omega
      have hlt : (hexDigit c).toNat + 16 * (hexDigit d).toNat < 256 := by omega
      rw [Wire.ofBytes, ih hpsz, hbyte, List.map_cons, List.map_cons, Nat.ofDigits_cons,
        Nat.ofDigits_cons, hsplit, pow_succ', Nat.mod_mul, Nat.add_mul_mod_self_left,
        Nat.mod_eq_of_lt hlt, Nat.add_mul_div_left _ _ (by decide), Nat.div_eq_of_lt hlt,
        Nat.zero_add]

/-- `SetHex` reads the digits modulo the size of the number. -/
theorem toNat_setHex (width : Nat) (psz : List UInt8) :
    (setHex width psz).toNat =
      hexValue ((skip0x (psz.dropWhile isspace)).takeWhile (hexDigit · ≠ -1)) %
        2 ^ (32 * width) := by
  have hdigits (l : List UInt8) :
      ∀ c ∈ (l.takeWhile (hexDigit · ≠ -1)).reverse, hexDigit c ≠ -1 := by
    intro c hc
    have hmem := List.mem_takeWhile_imp (List.mem_reverse.mp hc)
    exact of_decide_eq_true hmem
  have hsize : 256 ^ (width * 4) = 2 ^ (32 * width) := by
    rw [Nat.mul_comm, pow_mul, pow_mul]
    rfl
  rw [toNat, setHex, value_limbs (length_fillBytes _ _), ofBytes_fillBytes _ (hdigits _), hsize,
    List.map_reverse]
  rfl

theorem hexValue_getHex (a : BaseUint width) : hexValue a.getHex = a.toNat := by
  have hpairs (s : List UInt8) : Nat.ofDigits 16
      ((s.reverse.flatMap hexPair).map fun c ↦ (hexDigit c).toNat).reverse = Wire.ofBytes s := by
    induction s with
    | nil => rfl
    | cons b s ih =>
        have hb := b.toNat_lt
        have hpair : (hexPair b).map (fun c ↦ (hexDigit c).toNat) =
            [b.toNat / 16, b.toNat % 16] := by
          rw [hexPair, List.map_cons, List.map_singleton, hexDigit_hexChar _ (by omega),
            hexDigit_hexChar _ (by omega)]
          rfl
        rw [List.reverse_cons, List.flatMap_append, List.flatMap_singleton, List.map_append, hpair,
          List.reverse_append, Nat.ofDigits_append, ih, Wire.ofBytes]
        change Nat.ofDigits 16 [b.toNat % 16, b.toNat / 16] + 256 * _ = _
        rw [Nat.ofDigits_cons, Nat.ofDigits_singleton]
        omega
  rw [toNat, ← ofBytes_bytes]
  exact hpairs a.bytes

theorem tolower_ne_x (c : UInt8) : hexDigit c ≠ -1 → tolower c ≠ 'x'.toUInt8 :=
  Wire.forall_entry (p := fun c x ↦ x ≠ -1 → tolower c ≠ 'x'.toUInt8) pUtilHexdigit
    (by decide +kernel) (by decide +kernel) (-1) c

/-- Hexadecimal digits are no white space, and none is an `x`. -/
theorem skip_of_digits {psz : List UInt8} (h : ∀ c ∈ psz, hexDigit c ≠ -1) :
    (skip0x (psz.dropWhile isspace)).takeWhile (hexDigit · ≠ -1) = psz := by
  have hspace : psz.dropWhile isspace = psz := by
    cases psz with
    | nil => rfl
    | cons c psz =>
        rw [List.dropWhile_cons, isspace_of_hexDigit (h c List.mem_cons_self),
          if_neg Bool.false_ne_true]
  have hskip : skip0x psz = psz := by
    match psz, h with
    | [], _ => rfl
    | [c], _ => rfl
    | c :: d :: psz, h =>
        have hd := tolower_ne_x d (h d (List.mem_cons_of_mem c List.mem_cons_self))
        rw [skip0x, if_neg fun hand ↦ hd hand.2]
  rw [hspace, hskip, List.takeWhile_eq_self_iff]
  exact fun c hc ↦ decide_eq_true (h c hc)

theorem setHexString_getHex (a : BaseUint width) : setHexString width a.getHex = a := by
  have hdigits : ∀ c ∈ a.getHex, hexDigit c ≠ -1 := by
    intro c hc
    obtain ⟨b, -, hb⟩ := List.mem_flatMap.mp hc
    exact hexDigit_hexPair hb
  have hcStr : cStr a.getHex = a.getHex := cStr_eq_self fun hnul ↦ hdigits 0 hnul rfl
  have hvalue := toNat_setHex width a.getHex
  rw [skip_of_digits hdigits, hexValue_getHex, Nat.mod_eq_of_lt (toNat_lt a), toNat_inj] at hvalue
  rw [setHexString, hcStr]
  exact BaseUint.ext hvalue

/-! ## The operators -/

/-- Arithmetic is that of the numbers modulo `2 ^ (32 * width)`, the orders are theirs, and
`SetHex` reads what `GetHex` writes. -/
theorem operators_exact (hwidth : 2 ≤ width) (a b : BaseUint width) (b64 : BitVec 64)
    (shift : BitVec 32) :
    (add a b).toNat = (a.toNat + b.toNat) % 2 ^ (32 * width) ∧
      (addAssign64 a b64).toNat = (a.toNat + b64.toNat) % 2 ^ (32 * width) ∧
      (sub a b).toNat = (a.toNat + (2 ^ (32 * width) - b.toNat)) % 2 ^ (32 * width) ∧
      (subAssign64 a b64).toNat =
        (a.toNat + (2 ^ (32 * width) - b64.toNat)) % 2 ^ (32 * width) ∧
      (neg a).toNat = (2 ^ (32 * width) - a.toNat) % 2 ^ (32 * width) ∧
      (preInc a).toNat = (a.toNat + 1) % 2 ^ (32 * width) ∧
      (postInc a).1.toNat = a.toNat ∧
      (postInc a).2.toNat = (a.toNat + 1) % 2 ^ (32 * width) ∧
      (preDec a).toNat = (a.toNat + (2 ^ (32 * width) - 1)) % 2 ^ (32 * width) ∧
      (postDec a).1.toNat = a.toNat ∧
      (postDec a).2.toNat = (a.toNat + (2 ^ (32 * width) - 1)) % 2 ^ (32 * width) ∧
      (shl a shift).toNat = a.toNat * 2 ^ shift.toNat % 2 ^ (32 * width) ∧
      (shr a shift).toNat = a.toNat / 2 ^ shift.toNat ∧
      (compl a).toNat = 2 ^ (32 * width) - 1 - a.toNat ∧
      (xor a b).toNat = a.toNat ^^^ b.toNat ∧
      (xorAssign64 a b64).toNat = a.toNat ^^^ b64.toNat ∧
      (and a b).toNat = a.toNat &&& b.toNat ∧
      (or a b).toNat = a.toNat ||| b.toNat ∧
      (orAssign64 a b64).toNat = a.toNat ||| b64.toNat ∧
      (isZero a = true ↔ a.toNat = 0) ∧
      (lt a b = true ↔ a.toNat < b.toNat) ∧
      (le a b = true ↔ a.toNat ≤ b.toNat) ∧
      (gt a b = true ↔ a.toNat > b.toNat) ∧
      (ge a b = true ↔ a.toNat ≥ b.toNat) ∧
      (eq a b = true ↔ a.toNat = b.toNat) ∧
      (ne a b = true ↔ a.toNat ≠ b.toNat) ∧
      (eqUInt64 a b64 = true ↔ a.toNat = b64.toNat) ∧
      (neUInt64 a b64 = true ↔ a.toNat ≠ b64.toNat) ∧
      setHexString width a.getHex = a := by
  have hpos : 0 < width := Nat.zero_lt_of_lt hwidth
  have h64 := toNat_ofUInt64 hwidth b64
  have hadd64 : (addAssign64 a b64).toNat = (a.toNat + b64.toNat) % 2 ^ (32 * width) := by
    rw [addAssign64, toNat_addAssign, h64]
  have hsub64 : (subAssign64 a b64).toNat =
      (a.toNat + (2 ^ (32 * width) - b64.toNat)) % 2 ^ (32 * width) := by
    have hsub := toNat_subAssign hpos a (ofUInt64 width b64)
    rwa [h64] at hsub
  have hne : ne a b = true ↔ a.toNat ≠ b.toNat := by
    rw [ne, Ne, ← eq_iff, Bool.not_eq_true', Bool.not_eq_true]
  have hne64 : neUInt64 a b64 = true ↔ a.toNat ≠ b64.toNat := by
    rw [neUInt64, Ne, ← eqUInt64_iff hwidth, Bool.not_eq_true', Bool.not_eq_true]
  exact ⟨toNat_addAssign a b, hadd64, toNat_subAssign hpos a b, hsub64, toNat_neg hpos a,
    toNat_preInc hpos a, rfl, toNat_preInc hpos a, toNat_preDec hpos a, rfl, toNat_preDec hpos a,
    toNat_shlAssign a shift, toNat_shrAssign a shift, toNat_compl a, toNat_xorAssign a b,
    toNat_xorAssign64 hwidth a b64, toNat_andAssign a b, toNat_orAssign a b,
    toNat_orAssign64 hwidth a b64, isZero_iff a, lt_iff a b, le_iff a b, gt_iff a b, ge_iff a b,
    eq_iff a b, hne, eqUInt64_iff hwidth a b64, hne64,
    setHexString_getHex a⟩

/-- A carry over two limbs of a `uint160`. -/
theorem operators_exact_carry :
    2 ≤ 5 ∧ (add (ofUInt64 5 0xffffffffffffffff) (ofUInt64 5 1)).toNat =
      (0xffffffffffffffff + 1) % 2 ^ 160 :=
  ⟨by decide, (operators_exact (by decide) (ofUInt64 5 0xffffffffffffffff) (ofUInt64 5 1) 0 0).1⟩

end BaseUint

end Fedoracoin
