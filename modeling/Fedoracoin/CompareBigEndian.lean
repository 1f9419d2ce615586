import Fedoracoin.Lib.Radix
import Fedoracoin.Signature

/-!
# The numbers in a signature

`CompareBigEndian` with its pointers, and `CKey::CheckSignatureElement`.  A byte that is read behind
the end of its string is `none`.  The three loops never read one (`compareBigEndianAt_eq`), and what
they find is the order of the numbers that the strings stand for
(`compareBigEndian_eq_sign`).
-/

namespace Fedoracoin

/-- The number that bytes stand for, the most significant one first. -/
def bigEndian (s : List UInt8) : Nat := Radix.value 256 (s.map UInt8.toNat)

/-! ## The code -/

/-- One of the first two loops, at the longer string: `ret` is returned at a byte that is not zero,
and else the pointer and the length are left as they are where the loop ends. -/
def skipLonger (ret : Int) (s : List UInt8) (c : Nat) :
    (clen otherlen : Nat) → Option (Int ⊕ Nat × Nat)
  | 0, _ => some (.inr (c, 0))
  | clen + 1, otherlen =>
      if otherlen < clen + 1 then do
        let b ← s[c]?
        if b ≠ 0 then return .inl ret
        else skipLonger ret s (c + 1) clen otherlen
      else return .inr (c, clen + 1)

/-- The last loop. -/
def compareBytesAt (s1 s2 : List UInt8) (c1 c2 : Nat) : (c1len : Nat) → Option Int
  | 0 => some 0
  | c1len + 1 => do
      let b1 ← s1[c1]?
      let b2 ← s2[c2]?
      if b2 < b1 then return 1
      else if b1 < b2 then return -1
      else compareBytesAt s1 s2 (c1 + 1) (c2 + 1) c1len

/-- `CompareBigEndian`, of pointers to the beginning of two strings. -/
def compareBigEndianAt (s1 : List UInt8) (c1len : Nat) (s2 : List UInt8) (c2len : Nat) :
    Option Int := do
  match ← skipLonger 1 s1 0 c1len c2len with
  | .inl ret => return ret
  | .inr (c1, c1len) =>
      match ← skipLonger (-1) s2 0 c2len c1len with
      | .inl ret => return ret
      | .inr (c2, _) => compareBytesAt s1 s2 c1 c2 c1len

/-- The order of secp256k1, less one. -/
def vchMaxModOrder : List UInt8 :=
  [0xff, 0xff, 0xff, 0xff, 0xff, 0xff, 0xff, 0xff, 0xff, 0xff, 0xff, 0xff, 0xff, 0xff, 0xff, 0xfe,
    0xba, 0xae, 0xdc, 0xe6, 0xaf, 0x48, 0xa0, 0x3b, 0xbf, 0xd2, 0x5e, 0x8c, 0xd0, 0x36, 0x41, 0x40]

def vchZero : List UInt8 := []

/-- `CKey::CheckSignatureElement`.  The length becomes a `size_t`. -/
def CKey.checkSignatureElement (vch : List UInt8) (len : Int32) (half : Bool) : Option Bool := do
  let size := (BitVec.ofInt 64 len.toInt).toNat
  if 0 < (← compareBigEndianAt vch size vchZero 0) then
    let c ← compareBigEndianAt vch size (if half then vchMaxModHalfOrder else vchMaxModOrder) 32
    return decide (c ≤ 0)
  else return false

/-! ## The reads -/

variable {s s1 s2 : List UInt8}

theorem skipLonger_eq (ret : Int) (otherlen : Nat) {c clen : Nat} (h : c + clen = s.length) :
    skipLonger ret s c clen otherlen =
      some (if ((s.drop c).take (clen - otherlen)).any (· ≠ 0) then .inl ret
        else .inr (c + (clen - otherlen), clen - (clen - otherlen))) := by
  induction clen generalizing c with
  | zero => simp [skipLonger]
  | succ clen ih =>
      rw [skipLonger]
      by_cases hlen : otherlen < clen + 1
      · have hc : c < s.length := by omega
        rw [if_pos hlen, List.getElem?_eq_getElem hc, List.drop_eq_getElem_cons hc,
          Nat.succ_sub (Nat.le_of_lt_succ hlen), List.take_succ_cons, List.any_cons]
        by_cases hb : s[c] = 0
        · have hnext := ih (c := c + 1) (by omega)
          have hpos : c + 1 + (clen - otherlen) = c + (clen - otherlen).succ := by omega
          have hleft : clen - (clen - otherlen) = clen + 1 - (clen - otherlen).succ := by omega
          rw [hpos, hleft] at hnext
          simpa [hb] using hnext
        · simp [hb]
      · have hzero : clen + 1 - otherlen = 0 := by omega
        rw [if_neg hlen, hzero]
        rfl

theorem compareBytesAt_eq {c1 c2 n : Nat} (h1 : c1 + n = s1.length) (h2 : c2 + n = s2.length) :
    compareBytesAt s1 s2 c1 c2 n = some (compareBytes (s1.drop c1) (s2.drop c2)) := by
  induction n generalizing c1 c2 with
  | zero =>
      rw [List.drop_eq_nil_of_le (by omega)]
      rfl
  | succ n ih =>
      have hc1 : c1 < s1.length := by omega
      have hc2 : c2 < s2.length := by omega
      have hnext := @ih (c1 + 1) (c2 + 1) (by omega) (by omega)
      rw [compareBytesAt, List.getElem?_eq_getElem hc1, List.getElem?_eq_getElem hc2,
        List.drop_eq_getElem_cons hc1, List.drop_eq_getElem_cons hc2, compareBytes]
      simp only [Option.bind_eq_bind, Option.bind_some, hnext]
      split
      case isTrue => rfl
      case isFalse =>
        split
        case isTrue => rfl
        case isFalse => rfl

/-- Only bytes of the two strings are read. -/
theorem compareBigEndianAt_eq (s1 s2 : List UInt8) :
    compareBigEndianAt s1 s1.length s2 s2.length = some (compareBigEndian s1 s2) := by
  rw [compareBigEndianAt, compareBigEndian,
    skipLonger_eq 1 s2.length (c := 0) (Nat.zero_add s1.length), List.drop_zero]
  by_cases h1 : (s1.take (s1.length - s2.length)).any (· ≠ 0)
  · simp only [h1, if_true]
    rfl
  · have hleft : s2.length - (s1.length - (s1.length - s2.length)) = s2.length - s1.length := by
      omega
    simp only [h1, Option.bind_eq_bind, Option.bind_some, Nat.zero_add, Bool.false_eq_true,
      if_false]
    rw [skipLonger_eq (-1) _ (c := 0) (Nat.zero_add s2.length), List.drop_zero, hleft]
    by_cases h2 : (s2.take (s2.length - s1.length)).any (· ≠ 0)
    · simp only [h2, if_true]
      rfl
    · simp only [h2, Option.bind_some, Nat.zero_add, Bool.false_eq_true, if_false]
      exact compareBytesAt_eq (by omega) (by omega)

/-! ## The order of numbers -/

theorem bigEndian_cons (b : UInt8) (s : List UInt8) :
    bigEndian (b :: s) = b.toNat * 256 ^ s.length + bigEndian s := by
  rw [bigEndian, List.map_cons, Radix.value_cons, List.length_map]
  rfl

theorem toNat_lt_of_mem_map {d : Nat} (hd : d ∈ s.map UInt8.toNat) : d < 256 := by
  obtain ⟨b, -, rfl⟩ := List.mem_map.mp hd
  exact b.toNat_lt

theorem bigEndian_cons_lt {b1 b2 : UInt8} (hlen : s1.length = s2.length) (h : b1 < b2) :
    bigEndian (b1 :: s1) < bigEndian (b2 :: s2) :=
  Radix.value_cons_lt (by decide) (fun _ ↦ toNat_lt_of_mem_map) (by simpa using hlen) h

theorem any_ne_zero_iff (s : List UInt8) : s.any (· ≠ 0) = true ↔ bigEndian s ≠ 0 := by
  have hzero (b : UInt8) : b.toNat = 0 ↔ b = 0 := UInt8.toNat_inj (b := 0)
  rw [Ne, bigEndian, Radix.value_eq_zero_iff (by decide), List.any_eq_true, List.forall_mem_map]
  simp [hzero]

/-- Zeros at the beginning do not count. -/
theorem bigEndian_drop {k : Nat} (h : ¬ (s.take k).any (· ≠ 0) = true) :
    bigEndian (s.drop k) = bigEndian s := by
  rw [any_ne_zero_iff, not_not] at h
  have happend : bigEndian (s.take k ++ s.drop k) = bigEndian (s.take k) * 256 ^ (s.drop k).length +
      bigEndian (s.drop k) := by
    rw [bigEndian, List.map_append, Radix.value_append, List.length_map]
    rfl
  rw [← congrArg bigEndian (List.take_append_drop k s), happend, h, Nat.zero_mul, Nat.zero_add]

/-- A byte that is not zero, among those that the other string does not have. -/
theorem bigEndian_lt_of_any (h : (s2.take (s2.length - s1.length)).any (· ≠ 0) = true) :
    bigEndian s1 < bigEndian s2 := by
  rw [any_ne_zero_iff] at h
  have hlen : s1.length < s2.length := by
    by_contra hle
    rw [Nat.sub_eq_zero_of_le (Nat.le_of_not_lt hle)] at h
    exact h rfl
  have hrest : s1.length ≤ (s2.drop (s2.length - s1.length)).length := by
    rw [List.length_drop]
    omega
  have hlt : bigEndian s1 < Radix.value 256 ((s2.take (s2.length - s1.length)).map UInt8.toNat ++
      (s2.drop (s2.length - s1.length)).map UInt8.toNat) :=
    Radix.value_lt_value_append (by decide) h (fun _ ↦ toNat_lt_of_mem_map)
      (by simpa using hrest)
  rwa [← List.map_append, List.take_append_drop] at hlt

theorem compareBytes_eq_sign (hlen : s1.length = s2.length) :
    compareBytes s1 s2 = ((bigEndian s1 : Int) - bigEndian s2).sign := by
  induction s1 generalizing s2 with
  | nil =>
      obtain rfl := List.eq_nil_of_length_eq_zero hlen.symm
      rfl
  | cons b1 s1 ih =>
      cases s2 with
      | nil => exact absurd hlen (Nat.succ_ne_zero _)
      | cons b2 s2 =>
          have htail := Nat.succ.inj hlen
          rw [compareBytes]
          split
          case isTrue h =>
            have hlt := bigEndian_cons_lt htail.symm h
            rw [Int.sign_eq_one_of_pos (by omega)]
          case isFalse h1 =>
            split
            case isTrue h =>
              have hlt := bigEndian_cons_lt htail h
              rw [Int.sign_eq_neg_one_of_neg (by omega)]
            case isFalse h2 =>
              have heq : b1 = b2 := UInt8.le_antisymm (UInt8.not_lt.mp h1) (UInt8.not_lt.mp h2)
              rw [ih htail, heq, bigEndian_cons, bigEndian_cons, htail]
              congr 1
              omega

theorem compareBigEndian_eq_sign (s1 s2 : List UInt8) :
    compareBigEndian s1 s2 = ((bigEndian s1 : Int) - bigEndian s2).sign := by
  rw [compareBigEndian]
  by_cases h1 : (s1.take (s1.length - s2.length)).any (· ≠ 0)
  · have hlt := bigEndian_lt_of_any h1
    rw [if_pos h1, Int.sign_eq_one_of_pos (by omega)]
  · rw [if_neg h1]
    by_cases h2 : (s2.take (s2.length - s1.length)).any (· ≠ 0)
    · have hlt := bigEndian_lt_of_any h2
      rw [if_pos h2, Int.sign_eq_neg_one_of_neg (by omega)]
    · rw [if_neg h2, compareBytes_eq_sign (by rw [List.length_drop, List.length_drop]; omega),
        bigEndian_drop h1, bigEndian_drop h2]

/-! ## The numbers of a signature -/

/-- The order of the generator of secp256k1. -/
def secp256k1Order : Nat := 0xfffffffffffffffffffffffffffffffebaaedce6af48a03bbfd25e8cd0364141

theorem bigEndian_vchMaxModOrder : bigEndian vchMaxModOrder = secp256k1Order - 1 := by decide

theorem bigEndian_vchMaxModHalfOrder : bigEndian vchMaxModHalfOrder = secp256k1Order / 2 := by
  decide

theorem bigEndian_nil : bigEndian [] = 0 := rfl

theorem size_of_len {len : Int32} {n : Nat} (hlen : len.toInt = n) :
    (BitVec.ofInt 64 len.toInt).toNat = n := by
  have hlt := len.toInt_lt
  rw [hlen, BitVec.ofInt_natCast, BitVec.toNat_ofNat]
  omega

theorem CKey.checkSignatureElement_eq {vch : List UInt8} {len : Int32} (half : Bool)
    (hlen : len.toInt = vch.length) :
    CKey.checkSignatureElement vch len half =
      some (decide (0 < compareBigEndian vch vchZero) && decide
        (compareBigEndian vch (if half then vchMaxModHalfOrder else vchMaxModOrder) ≤ 0)) := by
  have h32 : (if half then vchMaxModHalfOrder else vchMaxModOrder).length = 32 := by
    cases half with
    | false => rfl
    | true => rfl
  have hzero := compareBigEndianAt_eq vch vchZero
  have hmax := compareBigEndianAt_eq vch (if half then vchMaxModHalfOrder else vchMaxModOrder)
  rw [h32] at hmax
  rw [CKey.checkSignatureElement, size_of_len hlen, hmax]
  simp only [show vchZero.length = 0 from rfl] at hzero
  rw [hzero, Option.bind_eq_bind, Option.bind_some]
  split
  case isTrue h => simp [h]
  case isFalse h => simp [h]

/-- **Comparison of numbers.**  The sign of the difference, with no read outside of the strings;
and a number in a signature is in its range. -/
theorem compareBigEndian_checkSignatureElement (s1 s2 vch : List UInt8) (len : Int32) (half : Bool)
    (hlen : len.toInt = vch.length) :
    compareBigEndianAt s1 s1.length s2 s2.length =
        some ((bigEndian s1 : Int) - bigEndian s2).sign ∧
      CKey.checkSignatureElement vch len half = some (decide (1 ≤ bigEndian vch ∧
        bigEndian vch ≤ if half then secp256k1Order / 2 else secp256k1Order - 1)) := by
  refine ⟨by rw [compareBigEndianAt_eq, compareBigEndian_eq_sign], ?_⟩
  have hmax : bigEndian (if half then vchMaxModHalfOrder else vchMaxModOrder) =
      if half then secp256k1Order / 2 else secp256k1Order - 1 := by
    rw [apply_ite bigEndian, bigEndian_vchMaxModHalfOrder, bigEndian_vchMaxModOrder]
  have hlow : 0 < compareBigEndian vch vchZero ↔ 1 ≤ bigEndian vch := by
    rw [compareBigEndian_eq_sign, Int.sign_pos_iff, vchZero, bigEndian_nil]
    omega
  have hhigh {max : List UInt8} :
      compareBigEndian vch max ≤ 0 ↔ bigEndian vch ≤ bigEndian max := by
    rw [compareBigEndian_eq_sign, Int.sign_nonpos_iff]
    omega
  rw [← hmax, CKey.checkSignatureElement_eq half hlen, Bool.decide_and, decide_eq_decide.mpr hlow,
    decide_eq_decide.mpr hhigh]

/-- A string with a zero before it, the number one, and a number of one byte. -/
theorem compareBigEndian_checkSignatureElement_one :
    compareBigEndianAt [0, 1] 2 [1] 1 = some ((bigEndian [0, 1] : Int) - bigEndian [1]).sign ∧
      CKey.checkSignatureElement [1] 1 true = some (decide (1 ≤ bigEndian [1] ∧
        bigEndian [1] ≤ secp256k1Order / 2)) :=
  compareBigEndian_checkSignatureElement [0, 1] [1] [1] 1 true rfl

end Fedoracoin
