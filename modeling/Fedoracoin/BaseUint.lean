import Fedoracoin.Lib.Limbs
import Mathlib.Data.List.Induction

/-!
# Arithmetic of `base_uint`

A number of `32 * width` bits in limbs of 32 bits, the least significant first, with the loops of
`uint256.h` over the limbs.  Each operation computes that of the natural numbers modulo
`2 ^ (32 * width)`.
-/

namespace Fedoracoin

/-- `base_uint<BITS>`, where `width` is `BITS / 32`. -/
@[ext]
structure BaseUint (width : Nat) where
  pn : List (BitVec 32)
  length_pn : pn.length = width

namespace BaseUint

variable {width : Nat}

/-- The number. -/
def toNat (a : BaseUint width) : Nat := Limbs.value a.pn

/-! ## Operators -/

/-- `operator!`. -/
def isZero (a : BaseUint width) : Bool := a.pn.all (· = 0)

def compl (a : BaseUint width) : BaseUint width where
  pn := a.pn.map (~~~ ·)
  length_pn := by rw [List.length_map, a.length_pn]

/-- The loops of `operator^=`, `operator&=` and `operator|=`. -/
def zipAssign (f : BitVec 32 → BitVec 32 → BitVec 32) (a b : BaseUint width) : BaseUint width where
  pn := List.zipWith f a.pn b.pn
  length_pn := by rw [List.length_zipWith, a.length_pn, b.length_pn, Nat.min_self]

def xorAssign (a b : BaseUint width) : BaseUint width := zipAssign (· ^^^ ·) a b

def andAssign (a b : BaseUint width) : BaseUint width := zipAssign (· &&& ·) a b

def orAssign (a b : BaseUint width) : BaseUint width := zipAssign (· ||| ·) a b

/-- `operator=` of an `uint64_t`. -/
def ofUInt64 (width : Nat) (b : BitVec 64) : BaseUint width where
  pn := ((List.replicate width 0).set 0 (b.setWidth 32)).set 1 ((b >>> 32).setWidth 32)
  length_pn := by rw [List.length_set, List.length_set, List.length_replicate]

/-- The loops of `operator^=` and `operator|=` of an `uint64_t`, which are none. -/
def modifyLow (f : BitVec 32 → BitVec 32 → BitVec 32) (a : BaseUint width) (b : BitVec 64) :
    BaseUint width where
  pn := (a.pn.modify 0 (f · (b.setWidth 32))).modify 1 (f · ((b >>> 32).setWidth 32))
  length_pn := by rw [List.length_modify, List.length_modify, a.length_pn]

def xorAssign64 (a : BaseUint width) (b : BitVec 64) : BaseUint width := modifyLow (· ^^^ ·) a b

def orAssign64 (a : BaseUint width) (b : BitVec 64) : BaseUint width := modifyLow (· ||| ·) a b

/-- `pn[i] |= x`. -/
def orAt (pn : List (BitVec 32)) (i : Nat) (x : BitVec 32) : List (BitVec 32) :=
  pn.modify i (· ||| x)

theorem length_orAt (pn : List (BitVec 32)) (i : Nat) (x : BitVec 32) :
    (orAt pn i x).length = pn.length := List.length_modify _ _ _

def shlBody (a : List (BitVec 32)) (width k shift : Nat) (pn : List (BitVec 32)) (i : Nat) :
    List (BitVec 32) :=
  let pn := if i + k + 1 < width ∧ shift ≠ 0 then
    orAt pn (i + k + 1) (a.getD i 0 >>> (32 - shift)) else pn
  if i + k < width then orAt pn (i + k) (a.getD i 0 <<< shift) else pn

def shrBody (a : List (BitVec 32)) (k shift : Nat) (pn : List (BitVec 32)) (i : Nat) :
    List (BitVec 32) :=
  let pn := if k + 1 ≤ i ∧ shift ≠ 0 then
    orAt pn (i - k - 1) (a.getD i 0 <<< (32 - shift)) else pn
  if k ≤ i then orAt pn (i - k) (a.getD i 0 >>> shift) else pn

theorem length_foldl {body : List (BitVec 32) → Nat → List (BitVec 32)}
    (hbody : ∀ pn i, (body pn i).length = pn.length) (l : List Nat) (pn : List (BitVec 32)) :
    (l.foldl body pn).length = pn.length := by
  induction l generalizing pn with
  | nil => rfl
  | cons i l ih => rw [List.foldl_cons, ih, hbody]

theorem length_shlBody (a : List (BitVec 32)) (width k shift : Nat) (pn : List (BitVec 32))
    (i : Nat) : (shlBody a width k shift pn i).length = pn.length := by
  rw [shlBody]
  grind [length_orAt]

theorem length_shrBody (a : List (BitVec 32)) (k shift : Nat) (pn : List (BitVec 32)) (i : Nat) :
    (shrBody a k shift pn i).length = pn.length := by
  rw [shrBody]
  grind [length_orAt]

def shlAssign (a : BaseUint width) (shift : BitVec 32) : BaseUint width where
  pn := (List.range width).foldl (shlBody a.pn width (shift.toNat / 32) (shift.toNat % 32))
    (List.replicate width 0)
  length_pn := by rw [length_foldl (length_shlBody _ _ _ _), List.length_replicate]

def shrAssign (a : BaseUint width) (shift : BitVec 32) : BaseUint width where
  pn := (List.range width).foldl (shrBody a.pn (shift.toNat / 32) (shift.toNat % 32))
    (List.replicate width 0)
  length_pn := by rw [length_foldl (length_shrBody _ _ _), List.length_replicate]

/-- The loop of `operator+=`. -/
def addLimbs : (carry : BitVec 64) → (pn bpn : List (BitVec 32)) → List (BitVec 32)
  | carry, p :: pn, q :: bpn =>
      let n := carry + p.setWidth 64 + q.setWidth 64
      (n &&& 0xffffffff).setWidth 32 :: addLimbs (n >>> 32) pn bpn
  | _, _, _ => []

theorem length_addLimbs {pn bpn : List (BitVec 32)} (h : pn.length = bpn.length)
    (carry : BitVec 64) : (addLimbs carry pn bpn).length = pn.length := by
  induction pn generalizing bpn carry with
  | nil => rfl
  | cons p pn ih =>
      cases bpn with
      | nil => exact absurd h (Nat.succ_ne_zero _)
      | cons q bpn => rw [addLimbs, List.length_cons, ih (Nat.succ.inj h), List.length_cons]

def addAssign (a b : BaseUint width) : BaseUint width where
  pn := addLimbs 0 a.pn b.pn
  length_pn := by rw [length_addLimbs (a.length_pn.trans b.length_pn.symm), a.length_pn]

/-- `while (++pn[i] == 0 && i < WIDTH-1) i++`. -/
def incLimbs : List (BitVec 32) → List (BitVec 32)
  | [] => []
  | [p] => [p + 1]
  | p :: pn => if p + 1 = 0 then (p + 1) :: incLimbs pn else (p + 1) :: pn

/-- `while (--pn[i] == (uint32_t)-1 && i < WIDTH-1) i++`. -/
def decLimbs : List (BitVec 32) → List (BitVec 32)
  | [] => []
  | [p] => [p - 1]
  | p :: pn => if p - 1 = BitVec.allOnes 32 then (p - 1) :: decLimbs pn else (p - 1) :: pn

theorem length_incLimbs (pn : List (BitVec 32)) : (incLimbs pn).length = pn.length := by
  fun_induction incLimbs pn with
  | case3 p pn hpn hp ih => rw [List.length_cons, ih, List.length_cons]
  | _ => rfl

theorem length_decLimbs (pn : List (BitVec 32)) : (decLimbs pn).length = pn.length := by
  fun_induction decLimbs pn with
  | case3 p pn hpn hp ih => rw [List.length_cons, ih, List.length_cons]
  | _ => rfl

/-- `operator++()`. -/
def preInc (a : BaseUint width) : BaseUint width where
  pn := incLimbs a.pn
  length_pn := by rw [length_incLimbs, a.length_pn]

/-- `operator++(int)`: the value returned and the new one. -/
def postInc (a : BaseUint width) : BaseUint width × BaseUint width := (a, preInc a)

/-- `operator--()`. -/
def preDec (a : BaseUint width) : BaseUint width where
  pn := decLimbs a.pn
  length_pn := by rw [length_decLimbs, a.length_pn]

/-- `operator--(int)`. -/
def postDec (a : BaseUint width) : BaseUint width × BaseUint width := (a, preDec a)

/-- `operator-()`. -/
def neg (a : BaseUint width) : BaseUint width := (postInc (compl a)).2

def subAssign (a b : BaseUint width) : BaseUint width := addAssign a (neg b)

def addAssign64 (a : BaseUint width) (b64 : BitVec 64) : BaseUint width :=
  addAssign a (ofUInt64 width b64)

def subAssign64 (a : BaseUint width) (b64 : BitVec 64) : BaseUint width :=
  addAssign a (neg (ofUInt64 width b64))

/-! The operators of `uint160` and `uint256` that return a copy. -/

def xor (a b : BaseUint width) : BaseUint width := xorAssign a b

def and (a b : BaseUint width) : BaseUint width := andAssign a b

def or (a b : BaseUint width) : BaseUint width := orAssign a b

def add (a b : BaseUint width) : BaseUint width := addAssign a b

def sub (a b : BaseUint width) : BaseUint width := subAssign a b

def shl (a : BaseUint width) (shift : BitVec 32) : BaseUint width := shlAssign a shift

def shr (a : BaseUint width) (shift : BitVec 32) : BaseUint width := shrAssign a shift

/-- The loops of the four orders, from the most significant limb: true at the first limb with
`first`, false at the first with `second`. -/
def compareLoop (first second : BitVec 32 → BitVec 32 → Bool) (atEnd : Bool) :
    List (BitVec 32) → List (BitVec 32) → Bool
  | p :: pn, q :: bpn =>
      if first p q then true
      else if second p q then false
      else compareLoop first second atEnd pn bpn
  | _, _ => atEnd

def lt (a b : BaseUint width) : Bool :=
  compareLoop (fun p q ↦ p < q) (fun p q ↦ p > q) false a.pn.reverse b.pn.reverse

def le (a b : BaseUint width) : Bool :=
  compareLoop (fun p q ↦ p < q) (fun p q ↦ p > q) true a.pn.reverse b.pn.reverse

def gt (a b : BaseUint width) : Bool :=
  compareLoop (fun p q ↦ p > q) (fun p q ↦ p < q) false a.pn.reverse b.pn.reverse

def ge (a b : BaseUint width) : Bool :=
  compareLoop (fun p q ↦ p > q) (fun p q ↦ p < q) true a.pn.reverse b.pn.reverse

def eq (a b : BaseUint width) : Bool := (a.pn.zip b.pn).all fun (p, q) ↦ p = q

def eqUInt64 (a : BaseUint width) (b : BitVec 64) : Bool :=
  if a.pn.getD 0 0 ≠ b.setWidth 32 then false
  else if a.pn.getD 1 0 ≠ (b >>> 32).setWidth 32 then false
  else (a.pn.drop 2).all (· = 0)

def ne (a b : BaseUint width) : Bool := !eq a b

def neUInt64 (a : BaseUint width) (b : BitVec 64) : Bool := !eqUInt64 a b

/-! ## Numbers -/

theorem toNat_lt (a : BaseUint width) : a.toNat < 2 ^ (32 * width) := by
  have hlt := Limbs.value_lt a.pn
  rwa [a.length_pn] at hlt

theorem length_eq (a b : BaseUint width) : a.pn.length = b.pn.length :=
  a.length_pn.trans b.length_pn.symm

theorem toNat_inj {a b : BaseUint width} : a.toNat = b.toNat ↔ a.pn = b.pn :=
  ⟨Limbs.value_inj (length_eq a b), congrArg Limbs.value⟩

theorem toNat_compl (a : BaseUint width) : (compl a).toNat = 2 ^ (32 * width) - 1 - a.toNat := by
  rw [toNat, compl, Limbs.value_not, a.length_pn, toNat]

theorem toNat_xorAssign (a b : BaseUint width) : (xorAssign a b).toNat = a.toNat ^^^ b.toNat :=
  Limbs.value_zipWith (by decide) (length_eq a b) (fun _ _ _ ↦ BitVec.getLsbD_xor)
    Nat.testBit_xor Nat.xor_lt_two_pow

theorem toNat_andAssign (a b : BaseUint width) : (andAssign a b).toNat = a.toNat &&& b.toNat :=
  Limbs.value_zipWith (by decide) (length_eq a b) (fun _ _ _ ↦ BitVec.getLsbD_and)
    Nat.testBit_and fun {m _ _} _ hn ↦ Nat.and_lt_two_pow m hn

theorem toNat_orAssign (a b : BaseUint width) : (orAssign a b).toNat = a.toNat ||| b.toNat :=
  Limbs.value_zipWith (by decide) (length_eq a b) (fun _ _ _ ↦ BitVec.getLsbD_or)
    Nat.testBit_or Nat.or_lt_two_pow

/-! ## Sums -/

theorem toNat_low (n : BitVec 64) : ((n &&& 0xffffffff).setWidth 32).toNat = n.toNat % 2 ^ 32 := by
  have hmask : (n &&& 0xffffffff).toNat = n.toNat % 2 ^ 32 := by
    rw [BitVec.toNat_and]
    exact Nat.and_two_pow_sub_one_eq_mod n.toNat 32
  rw [BitVec.toNat_setWidth, hmask, Nat.mod_mod]

/-- The carry is a bit, so no sum of a column overflows. -/
theorem value_addLimbs {pn bpn : List (BitVec 32)} {carry : BitVec 64}
    (hlen : pn.length = bpn.length) (hcarry : carry.toNat ≤ 1) :
    Limbs.value (addLimbs carry pn bpn) =
      (Limbs.value pn + Limbs.value bpn + carry.toNat) % 2 ^ (32 * pn.length) := by
  induction pn generalizing bpn carry with
  | nil => exact (Nat.mod_one _).symm
  | cons p pn ih =>
      cases bpn with
      | nil => exact absurd hlen (Nat.succ_ne_zero _)
      | cons q bpn =>
          have hp := p.isLt
          have hq := q.isLt
          have hn : (carry + p.setWidth 64 + q.setWidth 64).toNat =
              carry.toNat + p.toNat + q.toNat := by
            rw [BitVec.toNat_add, BitVec.toNat_add, BitVec.toNat_setWidth, BitVec.toNat_setWidth]
            omega
          have hshift : ((carry + p.setWidth 64 + q.setWidth 64) >>> 32).toNat =
              (carry.toNat + p.toNat + q.toNat) / 2 ^ 32 := by
            rw [BitVec.toNat_ushiftRight, hn, Nat.shiftRight_eq_div_pow]
          have hlimb : ((carry + p.setWidth 64 + q.setWidth 64 &&& 0xffffffff).setWidth 32).toNat +
              2 ^ 32 * ((carry + p.setWidth 64 + q.setWidth 64) >>> 32).toNat =
              p.toNat + q.toNat + carry.toNat := by
            rw [toNat_low, hshift, hn]
            omega
          rw [addLimbs, List.length_cons]
          apply Limbs.value_cons_add hlimb
          apply ih (Nat.succ.inj hlen)
          rw [hshift]
          omega

theorem toNat_addAssign (a b : BaseUint width) :
    (addAssign a b).toNat = (a.toNat + b.toNat) % 2 ^ (32 * width) := by
  have hcarry : (0 : BitVec 64).toNat ≤ 1 := Nat.zero_le 1
  have hvalue := value_addLimbs (length_eq a b) hcarry
  rwa [a.length_pn] at hvalue

theorem value_incLimbs {pn : List (BitVec 32)} (hpn : pn ≠ []) :
    Limbs.value (incLimbs pn) = (Limbs.value pn + 1) % 2 ^ (32 * pn.length) := by
  fun_induction incLimbs pn with
  | case1 => exact absurd rfl hpn
  | case2 p =>
      by_cases hp : p + 1 = 0
      · exact Limbs.value_succ_of_eq_zero hp (Nat.mod_one _).symm
      · exact Limbs.value_succ_of_ne_zero hp []
  | case3 p pn hne hp ih => exact Limbs.value_succ_of_eq_zero hp (ih hne)
  | case4 p pn hne hp => exact Limbs.value_succ_of_ne_zero hp pn

theorem value_decLimbs {pn : List (BitVec 32)} (hpn : pn ≠ []) :
    Limbs.value (decLimbs pn) =
      (Limbs.value pn + (2 ^ (32 * pn.length) - 1)) % 2 ^ (32 * pn.length) := by
  fun_induction decLimbs pn with
  | case1 => exact absurd rfl hpn
  | case2 p =>
      by_cases hp : p - 1 = BitVec.allOnes 32
      · exact Limbs.value_pred_of_eq_allOnes (by decide) hp (Nat.mod_one _).symm
      · exact Limbs.value_pred_of_ne_allOnes (by decide) hp []
  | case3 p pn hne hp ih => exact Limbs.value_pred_of_eq_allOnes (by decide) hp (ih hne)
  | case4 p pn hne hp => exact Limbs.value_pred_of_ne_allOnes (by decide) hp pn

theorem pn_ne_nil (hwidth : 0 < width) (a : BaseUint width) : a.pn ≠ [] :=
  List.ne_nil_of_length_pos (a.length_pn.symm ▸ hwidth)

theorem toNat_preInc (hwidth : 0 < width) (a : BaseUint width) :
    (preInc a).toNat = (a.toNat + 1) % 2 ^ (32 * width) := by
  have hvalue := value_incLimbs (pn_ne_nil hwidth a)
  rwa [a.length_pn] at hvalue

theorem toNat_preDec (hwidth : 0 < width) (a : BaseUint width) :
    (preDec a).toNat = (a.toNat + (2 ^ (32 * width) - 1)) % 2 ^ (32 * width) := by
  have hvalue := value_decLimbs (pn_ne_nil hwidth a)
  rwa [a.length_pn] at hvalue

theorem toNat_neg (hwidth : 0 < width) (a : BaseUint width) :
    (neg a).toNat = (2 ^ (32 * width) - a.toNat) % 2 ^ (32 * width) := by
  have hlt := toNat_lt a
  have hsum : 2 ^ (32 * width) - 1 - a.toNat + 1 = 2 ^ (32 * width) - a.toNat := by omega
  rw [neg, postInc, toNat_preInc hwidth, toNat_compl, hsum]

theorem toNat_subAssign (hwidth : 0 < width) (a b : BaseUint width) :
    (subAssign a b).toNat = (a.toNat + (2 ^ (32 * width) - b.toNat)) % 2 ^ (32 * width) := by
  rw [subAssign, toNat_addAssign, toNat_neg hwidth, Nat.add_mod_mod]

/-! ## Numbers of 64 bits -/

theorem exists_low (hwidth : 2 ≤ width) (a : BaseUint width) :
    ∃ p q rest, a.pn = p :: q :: rest ∧ rest.length + 2 = width := by
  obtain ⟨n, rfl⟩ := Nat.exists_eq_add_of_le' hwidth
  obtain ⟨pn, hpn⟩ := a
  match pn, hpn with
  | p :: q :: rest, hpn => exact ⟨p, q, rest, rfl, hpn⟩

theorem pn_ofUInt64 (hwidth : 2 ≤ width) (b : BitVec 64) : (ofUInt64 width b).pn =
    b.setWidth 32 :: (b >>> 32).setWidth 32 :: List.replicate (width - 2) 0 := by
  obtain ⟨n, rfl⟩ := Nat.exists_eq_add_of_le' hwidth
  rfl

theorem toNat_ofUInt64 (hwidth : 2 ≤ width) (b : BitVec 64) :
    (ofUInt64 width b).toNat = b.toNat := by
  have hb := b.isLt
  have hlow : (b.setWidth 32).toNat = b.toNat % 2 ^ 32 := BitVec.toNat_setWidth 32 b
  have hhigh : ((b >>> 32).setWidth 32).toNat = b.toNat / 2 ^ 32 := by
    rw [BitVec.toNat_setWidth, BitVec.toNat_ushiftRight, Nat.shiftRight_eq_div_pow]
    omega
  rw [toNat, pn_ofUInt64 hwidth, Limbs.value, Limbs.value, Limbs.value_replicate_zero, hlow, hhigh]
  omega

/-- The low limbs take the bits, as the others would take those of zero. -/
theorem modifyLow_eq_zipAssign {f : BitVec 32 → BitVec 32 → BitVec 32} (hf : ∀ x, f x 0 = x)
    (hwidth : 2 ≤ width) (a : BaseUint width) (b : BitVec 64) :
    modifyLow f a b = zipAssign f a (ofUInt64 width b) := by
  obtain ⟨p, q, rest, hpn, hlen⟩ := exists_low hwidth a
  have hrest : List.zipWith f rest (List.replicate (width - 2) 0) = rest := by
    apply List.ext_getElem
    · rw [List.length_zipWith, List.length_replicate]
      omega
    · intro i _ _
      rw [List.getElem_zipWith, List.getElem_replicate, hf]
  apply BaseUint.ext
  change (a.pn.modify 0 (f · _)).modify 1 (f · _) = List.zipWith f a.pn (ofUInt64 width b).pn
  rw [hpn, pn_ofUInt64 hwidth, List.zipWith_cons_cons, List.zipWith_cons_cons, hrest]
  rfl

theorem toNat_xorAssign64 (hwidth : 2 ≤ width) (a : BaseUint width) (b : BitVec 64) :
    (xorAssign64 a b).toNat = a.toNat ^^^ b.toNat := by
  rw [xorAssign64, modifyLow_eq_zipAssign (fun _ ↦ BitVec.xor_zero) hwidth]
  exact (toNat_xorAssign a _).trans (congrArg _ (toNat_ofUInt64 hwidth b))

theorem toNat_orAssign64 (hwidth : 2 ≤ width) (a : BaseUint width) (b : BitVec 64) :
    (orAssign64 a b).toNat = a.toNat ||| b.toNat := by
  rw [orAssign64, modifyLow_eq_zipAssign (fun _ ↦ BitVec.or_zero) hwidth]
  exact (toNat_orAssign a _).trans (congrArg _ (toNat_ofUInt64 hwidth b))

/-! ## Order -/

theorem compareLoop_comm (first second : BitVec 32 → BitVec 32 → Bool) (atEnd : Bool)
    (pn bpn : List (BitVec 32)) :
    compareLoop first second atEnd pn bpn =
      compareLoop (fun p q ↦ first q p) (fun p q ↦ second q p) atEnd bpn pn := by
  induction pn generalizing bpn with
  | nil => cases bpn <;> rfl
  | cons p pn ih =>
      cases bpn with
      | nil => rfl
      | cons q bpn => rw [compareLoop, compareLoop, ih]

theorem compareLoop_iff {xs ys : List (BitVec 32)} (atEnd : Bool) (hlen : xs.length = ys.length) :
    compareLoop (fun p q ↦ p < q) (fun p q ↦ p > q) atEnd xs.reverse ys.reverse = true ↔
      Limbs.value xs < Limbs.value ys ∨ atEnd = true ∧ Limbs.value xs = Limbs.value ys := by
  induction xs using List.reverseRecOn generalizing ys with
  | nil =>
      rw [List.eq_nil_of_length_eq_zero hlen.symm]
      cases atEnd <;> simp [compareLoop]
  | append_singleton xs x ih =>
      induction ys using List.reverseRecOn with
      | nil => exact absurd hlen (by simp)
      | append_singleton ys y =>
          have hlen : xs.length = ys.length := by simpa using hlen
          rw [List.reverse_concat, List.reverse_concat, compareLoop]
          have hcases : x < y ∨ x = y ∨ y < x := by
            rw [← BitVec.toNat_inj]
            exact Nat.lt_trichotomy x.toNat y.toNat
          rcases hcases with h | h | h
          · have hlt := Limbs.value_concat_lt hlen h
            simp [h, hlt]
          · have hxs : Limbs.value (xs ++ [x]) = Limbs.value xs + 2 ^ (32 * ys.length) *
                Limbs.value [y] := by rw [Limbs.value_append, hlen, h]
            rw [hxs, Limbs.value_append, Nat.add_lt_add_iff_right, Nat.add_right_cancel_iff,
              ← ih hlen, h]
            simp
          · have hlt := Limbs.value_concat_lt hlen.symm h
            have hnot : ¬ x < y := BitVec.not_lt.mpr (BitVec.le_of_lt h)
            rw [decide_eq_false hnot, decide_eq_true h, if_neg Bool.false_ne_true, if_pos rfl]
            exact iff_of_false Bool.false_ne_true fun hor ↦
              hor.elim hlt.not_gt fun hand ↦ hlt.ne' hand.2

theorem lt_iff (a b : BaseUint width) : lt a b = true ↔ a.toNat < b.toNat := by
  rw [lt, compareLoop_iff false (length_eq a b), toNat, toNat]
  simp

theorem le_iff (a b : BaseUint width) : le a b = true ↔ a.toNat ≤ b.toNat := by
  rw [le, compareLoop_iff true (length_eq a b), le_iff_lt_or_eq, toNat, toNat]
  simp

theorem gt_iff (a b : BaseUint width) : gt a b = true ↔ a.toNat > b.toNat := by
  rw [gt, compareLoop_comm]
  exact lt_iff b a

theorem ge_iff (a b : BaseUint width) : ge a b = true ↔ a.toNat ≥ b.toNat := by
  rw [ge, compareLoop_comm]
  exact le_iff b a

theorem eq_iff (a b : BaseUint width) : eq a b = true ↔ a.toNat = b.toNat := by
  have hall (xs ys : List (BitVec 32)) (hlen : xs.length = ys.length) :
      ((xs.zip ys).all fun (p, q) ↦ p = q) = true ↔ xs = ys := by
    induction xs generalizing ys with
    | nil => simp [List.eq_nil_of_length_eq_zero hlen.symm]
    | cons x xs ih =>
        cases ys with
        | nil => exact absurd hlen (Nat.succ_ne_zero _)
        | cons y ys =>
            rw [List.zip_cons_cons, List.all_cons, Bool.and_eq_true, ih ys (Nat.succ.inj hlen),
              decide_eq_true_iff, List.cons.injEq]
  rw [toNat_inj]
  exact hall _ _ (length_eq a b)

/-- The limbs are those that `operator=` gives. -/
theorem eqUInt64_iff (hwidth : 2 ≤ width) (a : BaseUint width) (b : BitVec 64) :
    eqUInt64 a b = true ↔ a.toNat = b.toNat := by
  obtain ⟨p, q, rest, hpn, hlen⟩ := exists_low hwidth a
  have hall : rest.all (· = 0) = true ↔ rest = List.replicate (width - 2) 0 := by
    have hlen' : rest.length = width - 2 := by omega
    rw [List.all_eq_true, List.eq_replicate_iff]
    simp [hlen']
  rw [← toNat_ofUInt64 hwidth, toNat_inj, pn_ofUInt64 hwidth, eqUInt64, hpn, List.cons.injEq,
    List.cons.injEq, ← hall]
  simp

theorem isZero_iff (a : BaseUint width) : isZero a = true ↔ a.toNat = 0 := by
  rw [isZero, toNat]
  induction a.pn with
  | nil => simp [Limbs.value]
  | cons p pn ih =>
      rw [List.all_cons, Bool.and_eq_true, ih, Limbs.value, Nat.add_eq_zero_iff,
        Nat.mul_eq_zero, decide_eq_true_iff, ← BitVec.toNat_inj]
      simp

/-! ## Shifts -/

/-- An assignment to a limb under a condition. -/
theorem getD_orAt {c : Prop} [Decidable c] {pn : List (BitVec 32)} {j : Nat} (hj : j < pn.length)
    (i : Nat) (x : BitVec 32) :
    (if c then orAt pn i x else pn).getD j 0 = pn.getD j 0 ||| if i = j ∧ c then x else 0 := by
  by_cases hc : c
  · rw [if_pos hc, List.getD_eq_getElem _ _ (by rwa [length_orAt]), List.getD_eq_getElem _ _ hj]
    simp only [orAt, List.getElem_modify, hc, and_true]
    split
    case isTrue => rfl
    case isFalse => exact BitVec.or_zero.symm
  · rw [if_neg hc, if_neg fun h ↦ hc h.2]
    exact BitVec.or_zero.symm

theorem length_orAt_if {c : Prop} [Decidable c] (pn : List (BitVec 32)) (i : Nat) (x : BitVec 32) :
    (if c then orAt pn i x else pn).length = pn.length := by
  split
  case isTrue => exact length_orAt pn i x
  case isFalse => rfl

/-- Bits that are set in round `p`. -/
theorem or_of_round {P : Prop} [Decidable P] (p n : Nat) (x : BitVec 32) :
    ((if p < n ∧ P then x else 0) ||| if n = p ∧ P then x else 0) =
      if p < n + 1 ∧ P then x else 0 := by
  rcases Nat.lt_trichotomy p n with h | h | h
  · simp [h, h.ne', Nat.lt_succ_of_lt h]
  · simp [h]
  · simp [h.ne, Nat.not_lt_of_lt h, Nat.not_lt.mpr h]

/-- The limb `j` of a loop in which the rounds `p` and `q` alone set bits of it. -/
theorem getD_foldl {body : List (BitVec 32) → Nat → List (BitVec 32)} {P Q : Prop} [Decidable P]
    [Decidable Q] {p q j : Nat} {x y : BitVec 32}
    (hlen : ∀ pn i, (body pn i).length = pn.length)
    (hbody : ∀ pn i, pn.length = width → (body pn i).getD j 0 =
      pn.getD j 0 ||| ((if i = p ∧ P then x else 0) ||| if i = q ∧ Q then y else 0))
    (hj : j < width) (n : Nat) :
    ((List.range n).foldl body (List.replicate width 0)).getD j 0 =
      (if p < n ∧ P then x else 0) ||| if q < n ∧ Q then y else 0 := by
  induction n with
  | zero =>
      rw [List.range_zero, List.foldl_nil, List.getD_replicate 0 hj,
        if_neg fun h ↦ Nat.not_lt_zero _ h.1, if_neg fun h ↦ Nat.not_lt_zero _ h.1]
      exact BitVec.or_zero.symm
  | succ n ih =>
      have hlength : ((List.range n).foldl body (List.replicate width 0)).length = width := by
        rw [length_foldl hlen, List.length_replicate]
      rw [List.range_succ, List.foldl_append, List.foldl_cons, List.foldl_nil, hbody _ _ hlength,
        ih, ← or_of_round p n x, ← or_of_round q n y]
      ac_rfl

theorem getD_shlBody (a : List (BitVec 32)) {k s j : Nat} {pn : List (BitVec 32)} (i : Nat)
    (hpn : pn.length = width) (hj : j < width) : (shlBody a width k s pn i).getD j 0 =
      pn.getD j 0 ||| ((if i = j - k ∧ k ≤ j then a.getD (j - k) 0 <<< s else 0) |||
        if i = j - (k + 1) ∧ k + 1 ≤ j ∧ s ≠ 0 then a.getD (j - (k + 1)) 0 >>> (32 - s)
        else 0) := by
  subst hpn
  have hlow : (if i + k = j ∧ i + k < pn.length then a.getD i 0 <<< s else 0) =
      if i = j - k ∧ k ≤ j then a.getD (j - k) 0 <<< s else 0 := by
    by_cases h : i + k = j
    · subst h
      simp [hj]
    · rw [if_neg fun hand ↦ h hand.1, if_neg fun hand ↦ h (by omega)]
  have hhigh : (if i + k + 1 = j ∧ i + k + 1 < pn.length ∧ s ≠ 0 then a.getD i 0 >>> (32 - s)
      else 0) = if i = j - (k + 1) ∧ k + 1 ≤ j ∧ s ≠ 0 then a.getD (j - (k + 1)) 0 >>> (32 - s)
      else 0 := by
    by_cases h : i + (k + 1) = j
    · subst h
      have hlt : i + k + 1 < pn.length := hj
      simp [hlt, ← Nat.add_assoc]
    · rw [if_neg fun hand ↦ h hand.1, if_neg fun hand ↦ h (by omega)]
  rw [shlBody, getD_orAt (by rwa [length_orAt_if]), getD_orAt hj, hlow, hhigh]
  ac_rfl

theorem getD_shrBody (a : List (BitVec 32)) {k s j : Nat} {pn : List (BitVec 32)} (i : Nat)
    (hj : j < pn.length) : (shrBody a k s pn i).getD j 0 =
      pn.getD j 0 ||| ((if i = j + (k + 1) ∧ s ≠ 0 then a.getD (j + (k + 1)) 0 <<< (32 - s) else 0)
        ||| if i = j + k ∧ True then a.getD (j + k) 0 >>> s else 0) := by
  have hlow : (if i - k - 1 = j ∧ k + 1 ≤ i ∧ s ≠ 0 then a.getD i 0 <<< (32 - s) else 0) =
      if i = j + (k + 1) ∧ s ≠ 0 then a.getD (j + (k + 1)) 0 <<< (32 - s) else 0 := by
    by_cases h : i = j + (k + 1)
    · subst h
      have hsub : j + (k + 1) - k - 1 = j := by omega
      simp [hsub]
    · rw [if_neg fun hand ↦ h (by omega), if_neg fun hand ↦ h hand.1]
  have hhigh : (if i - k = j ∧ k ≤ i then a.getD i 0 >>> s else 0) =
      if i = j + k ∧ True then a.getD (j + k) 0 >>> s else 0 := by
    by_cases h : i = j + k
    · subst h
      simp
    · rw [if_neg fun hand ↦ h (by omega), if_neg fun hand ↦ h hand.1]
  rw [shrBody, getD_orAt (by rwa [length_orAt_if]), getD_orAt hj, hlow, hhigh]
  ac_rfl

theorem toNat_shlAssign (a : BaseUint width) (shift : BitVec 32) :
    (shlAssign a shift).toNat = a.toNat * 2 ^ shift.toNat % 2 ^ (32 * width) := by
  have hvalue : (shlAssign a shift).toNat =
      a.toNat * 2 ^ (32 * (shift.toNat / 32) + shift.toNat % 32) % 2 ^ (32 * a.pn.length) := by
    apply Limbs.value_shiftLeft (Nat.mod_lt _ (by decide)) (length_eq _ _)
    intro j hj
    have hlt : j < width := a.length_pn ▸ hj
    rw [shlAssign, getD_foldl (length_shlBody _ _ _ _)
      (fun pn i hpn ↦ getD_shlBody a.pn i hpn hlt) hlt]
    simp only [(Nat.sub_le j _).trans_lt hlt, true_and]
  rwa [Nat.div_add_mod, a.length_pn] at hvalue

/-- Limbs behind the last are zero. -/
theorem ite_lt_width {P : Prop} [Decidable P] {f : BitVec 32 → BitVec 32} (hf : f 0 = 0)
    (a : BaseUint width) (i : Nat) :
    (if i < width ∧ P then f (a.pn.getD i 0) else 0) = if P then f (a.pn.getD i 0) else 0 := by
  by_cases hi : i < width
  · simp only [hi, true_and]
  · have hzero : a.pn.getD i 0 = 0 := List.getD_eq_default _ _ (by rw [a.length_pn]; omega)
    rw [if_neg fun h ↦ hi h.1, hzero, hf, ite_self]

theorem toNat_shrAssign (a : BaseUint width) (shift : BitVec 32) :
    (shrAssign a shift).toNat = a.toNat / 2 ^ shift.toNat := by
  have hvalue : (shrAssign a shift).toNat =
      a.toNat / 2 ^ (32 * (shift.toNat / 32) + shift.toNat % 32) := by
    apply Limbs.value_shiftRight (Nat.mod_lt _ (by decide)) (length_eq _ _)
    intro j hj
    have hlt : j < width := a.length_pn ▸ hj
    rw [shrAssign, getD_foldl (length_shrBody _ _ _)
      (fun pn i hpn ↦ getD_shrBody a.pn i (hpn.symm ▸ hlt)) hlt,
      ite_lt_width (f := fun x ↦ x <<< (32 - shift.toNat % 32)) (BitVec.zero_shiftLeft _),
      ite_lt_width (f := fun x ↦ x >>> (shift.toNat % 32)) BitVec.zero_ushiftRight, if_pos trivial]
  rwa [Nat.div_add_mod] at hvalue

end BaseUint

end Fedoracoin
