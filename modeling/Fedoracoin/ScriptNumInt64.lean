import Fedoracoin.Interpreter
import Fedoracoin.ScriptNumForm

/-!
# Numbers of scripts in an `int64_t`

`CScriptNum` as it is written, on 64 bits that `BitVec.toInt` reads.  Signed arithmetic that
overflows is undefined, and an outcome of its own, as are the assertions.  None of them is reached
from operands of four bytes, and what is computed is what `CScriptNum` says of the integers
(`binary_eq`, `unary_eq`).
-/

namespace Fedoracoin

open Wire

/-- The ends of an operation that gives no result. -/
inductive NumFault where
  /-- The script fails, by `return false` or by an exception. -/
  | fails
  /-- Undefined behaviour: an overflow, or `back` of an empty vector. -/
  | undefined
  | assertion

/-- The value of signed arithmetic. -/
def int64 (n : Int) : Except NumFault (BitVec 64) :=
  if -2 ^ 63 ≤ n ∧ n < 2 ^ 63 then .ok (BitVec.ofInt 64 n) else .error .undefined

namespace ScriptNum64

def add (a b : BitVec 64) : Except NumFault (BitVec 64) := int64 (a.toInt + b.toInt)

def sub (a b : BitVec 64) : Except NumFault (BitVec 64) := int64 (a.toInt - b.toInt)

def neg (a : BitVec 64) : Except NumFault (BitVec 64) := int64 (-a.toInt)

/-- `operator+=`. -/
def addAssign (a b : BitVec 64) : Except NumFault (BitVec 64) :=
  if b.toInt = 0 ∨ (0 < b.toInt ∧ a.toInt ≤ 2 ^ 63 - 1 - b.toInt) ∨
      (b.toInt < 0 ∧ -2 ^ 63 - b.toInt ≤ a.toInt) then add a b
  else .error .assertion

/-- `operator-=`. -/
def subAssign (a b : BitVec 64) : Except NumFault (BitVec 64) :=
  if b.toInt = 0 ∨ (0 < b.toInt ∧ -2 ^ 63 + b.toInt ≤ a.toInt) ∨
      (b.toInt < 0 ∧ a.toInt ≤ 2 ^ 63 - 1 + b.toInt) then sub a b
  else .error .assertion

/-- `while (absvalue)`. -/
def pushBytes (absvalue : BitVec 64) : Valtype :=
  if absvalue = 0 then []
  else UInt8.ofBitVec ((absvalue &&& 0xff).setWidth 8) :: pushBytes (absvalue >>> 8)
termination_by absvalue.toNat
decreasing_by
  have hpos : absvalue.toNat ≠ 0 := fun h ↦ ‹¬ absvalue = 0› (BitVec.eq_of_toNat_eq h)
  rw [BitVec.toNat_ushiftRight, Nat.shiftRight_eq_div_pow]
  omega

/-- `neg ? -value : value`. -/
def absValue (value : BitVec 64) : Except NumFault (BitVec 64) :=
  if value.toInt < 0 then neg value else .ok value

/-- The rest of `serialize`, where the sign bit goes into the last byte or one of its own. -/
def withSign (isNeg : Bool) (result : Valtype) : Except NumFault Valtype :=
  match result.getLast? with
  | none => .error .undefined
  | some back =>
      if back &&& 0x80 ≠ 0 then .ok (result ++ [if isNeg then 0x80 else 0])
      else if isNeg then .ok (result.dropLast ++ [back ||| 0x80])
      else .ok result

def serialize (value : BitVec 64) : Except NumFault Valtype :=
  if value = 0 then .ok []
  else do
    let absvalue ← absValue value
    withSign (decide (value.toInt < 0)) (pushBytes absvalue)

/-- `result |= static_cast<int64_t>(vch[i]) << 8*i`, from `i` on. -/
def orBytes (result : BitVec 64) (i : Nat) : Valtype → BitVec 64
  | [] => result
  | b :: vch => orBytes (result ||| b.toBitVec.setWidth 64 <<< (8 * i)) (i + 1) vch

/-- `~(0x80 << (8 * (vch.size() - 1)))`, of type `int`, which is widened. -/
def signMask (size : Nat) : BitVec 64 :=
  (~~~ ((0x80 : BitVec 32) <<< (8 * (size - 1)))).signExtend 64

def setVch (vch : Valtype) : Except NumFault (BitVec 64) :=
  match vch.getLast? with
  | none => .ok 0
  | some back =>
      let result := orBytes 0 0 vch
      if back &&& 0x80 ≠ 0 then neg (result &&& signMask vch.length) else .ok result

/-- The constructor, which throws. -/
def ofVch (vch : Valtype) : Except NumFault (BitVec 64) :=
  if CScriptNum.nMaxNumSize < vch.length then .error .fails else setVch vch

/-! ## The opcodes -/

/-- `OP_1ADD` and `OP_1SUB`, by what they do with the number. -/
def unary (f : BitVec 64 → Except NumFault (BitVec 64)) : Stack → Except NumFault Stack
  | x :: stack => do
      let bn ← ofVch x
      let vch ← f bn >>= serialize
      return vch :: stack
  | [] => .error .fails

/-- `OP_ADD` and `OP_SUB`. -/
def binary (f : BitVec 64 → BitVec 64 → Except NumFault (BitVec 64)) :
    Stack → Except NumFault Stack
  | x2 :: x1 :: stack => do
      let bn1 ← ofVch x1
      let bn2 ← ofVch x2
      let vch ← f bn1 bn2 >>= serialize
      return vch :: stack
  | _ => .error .fails

def bnOne : BitVec 64 := 1

/-! ## Arithmetic -/

variable {a b : BitVec 64} {n : Int}

/-- An operation that has the value that the integers have. -/
def Computes (r : Except NumFault (BitVec 64)) (n : Int) : Prop :=
  ∃ a, r = .ok a ∧ a.toInt = n

theorem computes_int64 (h : -2 ^ 63 ≤ n ∧ n < 2 ^ 63) : Computes (int64 n) n := by
  refine ⟨BitVec.ofInt 64 n, if_pos h, ?_⟩
  exact BitVec.toInt_ofInt_eq_self (by decide) h.1 h.2

/-- An operand of four bytes. -/
def IsOperand (a : BitVec 64) : Prop := a.toInt.natAbs < 2 ^ 31

theorem isOperand_bnOne : IsOperand bnOne := by
  change (1 : Int).natAbs < 2 ^ 31
  decide

theorem computes_add (ha : IsOperand a) (hb : IsOperand b) :
    Computes (add a b) (a.toInt + b.toInt) := by
  rw [IsOperand] at ha hb
  exact computes_int64 (by omega)

theorem computes_sub (ha : IsOperand a) (hb : IsOperand b) :
    Computes (sub a b) (a.toInt - b.toInt) := by
  rw [IsOperand] at ha hb
  exact computes_int64 (by omega)

theorem addAssign_eq (ha : IsOperand a) (hb : IsOperand b) : addAssign a b = add a b := by
  rw [IsOperand] at ha hb
  exact if_pos (by omega)

theorem subAssign_eq (ha : IsOperand a) (hb : IsOperand b) : subAssign a b = sub a b := by
  rw [IsOperand] at ha hb
  exact if_pos (by omega)

/-! ## What is written -/

theorem pushBytes_eq {k : Nat} {absvalue : BitVec 64} (h : absvalue.toNat < 256 ^ k) :
    pushBytes absvalue = CScriptNum.absBytes k absvalue.toNat := by
  induction k generalizing absvalue with
  | zero =>
      have hzero : absvalue = 0 := BitVec.eq_of_toNat_eq (Nat.lt_one_iff.mp h)
      rw [pushBytes, if_pos hzero]
      rfl
  | succ k ih =>
      by_cases hzero : absvalue = 0
      · rw [pushBytes, if_pos hzero, hzero]
        exact (CScriptNum.absBytes_zero _).symm
      · have hne : absvalue.toNat ≠ 0 := fun h ↦ hzero (BitVec.eq_of_toNat_eq h)
        have hshift : (absvalue >>> 8).toNat = absvalue.toNat / 256 := by
          rw [BitVec.toNat_ushiftRight, Nat.shiftRight_eq_div_pow]
        have hbyte : UInt8.ofBitVec ((absvalue &&& 0xff).setWidth 8) =
            UInt8.ofNat absvalue.toNat := by
          apply UInt8.toNat_inj.mp
          have hmod := Nat.and_two_pow_sub_one_eq_mod absvalue.toNat 8
          rw [UInt8.toNat_ofBitVec, BitVec.toNat_setWidth, BitVec.toNat_and, UInt8.toNat_ofNat']
          change (absvalue.toNat &&& 2 ^ 8 - 1) % 2 ^ 8 = _
          rw [hmod, Nat.mod_mod]
        have hdiv : absvalue.toNat / 256 < 256 ^ k := by
          rwa [Nat.div_lt_iff_lt_mul (by decide), ← pow_succ]
        rw [pushBytes, if_neg hzero, CScriptNum.absBytes_succ hne, hbyte, ih (hshift ▸ hdiv),
          hshift]

/-- The magnitude does not overflow. -/
theorem absValue_eq (ha : a ≠ BitVec.intMin 64) :
    ∃ absvalue, absValue a = .ok absvalue ∧ absvalue.toNat = a.toInt.natAbs := by
  have hlow := BitVec.le_toInt a
  have hhigh := BitVec.toInt_lt (x := a)
  have hmin : a.toInt ≠ -2 ^ 63 := fun h ↦ ha (BitVec.eq_of_toInt_eq h)
  rw [absValue]
  split
  case isTrue hneg =>
    refine ⟨BitVec.ofInt 64 (-a.toInt), ?_, ?_⟩
    · rw [neg, int64, if_pos (by omega)]
    · rw [BitVec.toNat_ofInt]
      omega
  case isFalse hneg =>
    refine ⟨a, rfl, ?_⟩
    have hcond := BitVec.toInt_eq_toNat_cond a
    have hlt := a.isLt
    split at hcond
    case isTrue => omega
    case isFalse => omega

theorem serialize_eq (ha : a ≠ BitVec.intMin 64) :
    serialize a = .ok (CScriptNum.serialize a.toInt) := by
  by_cases hzero : a = 0
  · rw [hzero]
    rfl
  · obtain ⟨absvalue, habs, hnat⟩ := absValue_eq ha
    have hlt : a.toInt.natAbs < 256 ^ 8 := hnat ▸ absvalue.isLt
    have hne : a.toInt.natAbs ≠ 0 := by
      rw [Int.natAbs_ne_zero]
      exact fun h ↦ hzero (BitVec.eq_of_toInt_eq h)
    obtain ⟨s, back, hbytes, -, -⟩ := CScriptNum.absBytes_eq_concat hlt hne
    have hpush : pushBytes absvalue = s ++ [back] := by
      rw [pushBytes_eq (k := 8) absvalue.isLt, hnat, hbytes]
    rw [serialize, if_neg hzero, habs, CScriptNum.serialize, hbytes]
    change withSign _ (pushBytes absvalue) = _
    rw [hpush, withSign]
    simp only [List.getLast?_concat, bne_iff_ne, decide_eq_true_eq, ← apply_ite Except.ok]

/-! ## What is read -/

/-- The bytes do not overlap. -/
theorem toNat_orBytes {result : BitVec 64} {i : Nat} {vch : Valtype}
    (hresult : result.toNat < 256 ^ i) (hi : i + vch.length ≤ 8) :
    (orBytes result i vch).toNat = result.toNat + 256 ^ i * ofBytes vch := by
  induction vch generalizing result i with
  | nil => rw [orBytes, ofBytes, Nat.mul_zero, Nat.add_zero]
  | cons b vch ih =>
      rw [List.length_cons] at hi
      have hpow : (256 : Nat) ^ i = 2 ^ (8 * i) := by norm_num [pow_mul]
      have hsucc : (256 : Nat) ^ (i + 1) = 256 ^ i * 256 := pow_succ 256 i
      have hbyte : 256 ^ i * b.toNat ≤ 256 ^ i * 255 :=
        Nat.mul_le_mul_left _ (Nat.le_of_lt_succ b.toNat_lt)
      have hle : (256 : Nat) ^ (i + 1) ≤ 2 ^ 64 :=
        (Nat.pow_le_pow_right (by decide) (by omega : i + 1 ≤ 8)).trans (by decide)
      have hshift : (b.toBitVec.setWidth 64 <<< (8 * i)).toNat = 256 ^ i * b.toNat := by
        rw [BitVec.toNat_shiftLeft, BitVec.toNat_setWidth, Nat.shiftLeft_eq, ← hpow,
          UInt8.toNat_toBitVec, Nat.mod_eq_of_lt (a := b.toNat) (by have := b.toNat_lt; omega),
          Nat.mul_comm, Nat.mod_eq_of_lt (by omega)]
      have hor : (result ||| b.toBitVec.setWidth 64 <<< (8 * i)).toNat =
          result.toNat + 256 ^ i * b.toNat := by
        rw [BitVec.toNat_or, hshift, Nat.or_comm, hpow,
          ← Nat.two_pow_add_eq_or_of_lt (hpow ▸ hresult), Nat.add_comm]
      rw [orBytes, ih (by omega) (by omega), hor, ofBytes, hsucc]
      ring

/-- The mask takes the sign bit away, for the lengths that are read. -/
theorem toNat_and_signMask {x : BitVec 64} {size : Nat} (h0 : size ≠ 0) (h4 : size ≤ 4)
    (hx : x.toNat < 2 ^ (8 * size)) :
    (x &&& signMask size).toNat = x.toNat % 2 ^ (8 * size - 1) := by
  have hbits : (2 ^ (8 * size) - 1) &&& (signMask size).toNat = 2 ^ (8 * size - 1) - 1 := by
    interval_cases size <;> decide
  calc (x &&& signMask size).toNat
      = x.toNat % 2 ^ (8 * size) &&& (signMask size).toNat := by
        rw [BitVec.toNat_and, Nat.mod_eq_of_lt hx]
    _ = x.toNat &&& ((2 ^ (8 * size) - 1) &&& (signMask size).toNat) := by
        rw [← Nat.and_two_pow_sub_one_eq_mod, Nat.and_assoc]
    _ = x.toNat % 2 ^ (8 * size - 1) := by
        rw [hbits, Nat.and_two_pow_sub_one_eq_mod]

theorem toNat_orBytes_zero {vch : Valtype} (h : vch.length ≤ 4) :
    (orBytes 0 0 vch).toNat = ofBytes vch := by
  have hbytes := @toNat_orBytes 0 0 vch Nat.zero_lt_one (by omega)
  simpa using hbytes

theorem setVch_eq {vch : Valtype} (h : vch.length ≤ 4) :
    Computes (setVch vch) (signedOfBytes vch) := by
  have hbytes := toNat_orBytes_zero h
  have hlt := ofBytes_lt vch
  have hlt32 : ofBytes vch < 2 ^ 32 := hlt.trans_le (Nat.pow_le_pow_right (by decide) h)
  cases hback : vch.getLast? with
  | none =>
      rw [List.getLast?_eq_none_iff] at hback
      rw [hback]
      exact ⟨0, rfl, rfl⟩
  | some back =>
      have hne : vch.length ≠ 0 := by
        intro hzero
        rw [List.length_eq_zero_iff.mp hzero] at hback
        cases hback
      rw [setVch, signedOfBytes, hback]
      simp only [bne_iff_ne]
      split
      case isTrue =>
        have hmask := toNat_and_signMask (x := orBytes 0 0 vch) hne h (by
          rw [hbytes, pow_mul]
          exact hlt)
        have hle := Nat.mod_le (ofBytes vch) (2 ^ (8 * vch.length - 1))
        rw [hbytes] at hmask
        have hint : (orBytes 0 0 vch &&& signMask vch.length).toInt =
            (ofBytes vch % 2 ^ (8 * vch.length - 1) : Nat) := by
          rw [BitVec.toInt_eq_toNat_of_lt (by omega), hmask]
        rw [neg, hint]
        apply computes_int64
        omega
      case isFalse =>
        exact ⟨_, rfl, by rw [BitVec.toInt_eq_toNat_of_lt (by omega), hbytes]⟩

/-- A vector of at most four bytes is read. -/
theorem ofVch_of_length_le {vch : Valtype} (h : vch.length ≤ 4) :
    ∃ a, ofVch vch = .ok a ∧ a.toInt = signedOfBytes vch ∧ IsOperand a := by
  obtain ⟨a, ha, hvalue⟩ := setVch_eq h
  refine ⟨a, ?_, hvalue, ?_⟩
  · exact (if_neg (Nat.not_lt.mpr h)).trans ha
  · rw [IsOperand, hvalue]
    exact natAbs_signedOfBytes_lt (j := 3) h

/-- What is written is read again, as long as it is an operand. -/
theorem ofVch_serialize (a : BitVec 64) :
    ofVch (CScriptNum.serialize a.toInt) =
      if a.toInt.natAbs < 2 ^ 31 then .ok a else .error .fails := by
  have hlow := BitVec.le_toInt a
  have hhigh := BitVec.toInt_lt (x := a)
  have hlt : a.toInt.natAbs < 2 ^ 64 := by omega
  have hlen := CScriptNum.length_serialize_le_iff_natAbs (j := 3) hlt
  split
  case isTrue h =>
    obtain ⟨c, hc, hvalue, -⟩ := ofVch_of_length_le (hlen.mpr h)
    rw [(CScriptNum.isShortestForm_serialize hlt).1] at hvalue
    rw [hc, BitVec.eq_of_toInt_eq hvalue]
  case isFalse h => exact if_pos (Nat.lt_of_not_le (mt hlen.mp h))

/-! ## The opcodes -/

variable {vch vch1 vch2 : Valtype} {stack : Stack}

theorem serialize_of_computes {r : Except NumFault (BitVec 64)} (hr : Computes r n)
    (hn : n.natAbs < 2 ^ 63) : (r >>= serialize) = .ok (CScriptNum.serialize n) := by
  obtain ⟨a, rfl, rfl⟩ := hr
  apply serialize_eq
  rintro rfl
  exact absurd hn (by decide)

/-- The result that the operations on integers have. -/
def ofStack : Option Stack → Except NumFault Stack
  | some stack => .ok stack
  | none => .error .fails

/-- An operation that does not overflow for operands is the one of the integers. -/
theorem unary_eq {f : BitVec 64 → Except NumFault (BitVec 64)} {g : Int → Int}
    (hf : ∀ a, IsOperand a → Computes (f a) (g a.toInt) ∧ (g a.toInt).natAbs < 2 ^ 63)
    (stack : Stack) : unary f stack = ofStack (Stack.unary g stack) := by
  match stack with
  | [] => rfl
  | x :: stack =>
    rw [unary, Stack.unary, CScriptNum.ofVch]
    by_cases hx : CScriptNum.nMaxNumSize < x.length
    · rw [if_pos hx, ofVch, if_pos hx]
      rfl
    · obtain ⟨a, ha, hvalue, hop⟩ := ofVch_of_length_le (Nat.le_of_not_lt hx)
      obtain ⟨hcomputes, hbound⟩ := hf a hop
      have hser := serialize_of_computes hcomputes hbound
      rw [hvalue] at hser
      rw [if_neg hx, ha]
      change (f a >>= serialize) >>= (fun vch ↦ pure (vch :: stack)) = _
      rw [hser]
      rfl

theorem binary_eq {f : BitVec 64 → BitVec 64 → Except NumFault (BitVec 64)} {g : Int → Int → Int}
    (hf : ∀ a b, IsOperand a → IsOperand b → Computes (f a b) (g a.toInt b.toInt) ∧
      (g a.toInt b.toInt).natAbs < 2 ^ 63) (stack : Stack) :
    binary f stack = ofStack (Stack.binary g stack) := by
  match stack with
  | [] => rfl
  | [x] => rfl
  | x2 :: x1 :: stack =>
    rw [binary, Stack.binary, CScriptNum.ofVch, CScriptNum.ofVch]
    by_cases h1 : CScriptNum.nMaxNumSize < x1.length
    · rw [if_pos h1, ofVch, if_pos h1]
      rfl
    · obtain ⟨a, ha, hvalue1, hop1⟩ := ofVch_of_length_le (Nat.le_of_not_lt h1)
      rw [if_neg h1, ha]
      by_cases h2 : CScriptNum.nMaxNumSize < x2.length
      · rw [if_pos h2, ofVch, if_pos h2]
        rfl
      · obtain ⟨b, hb, hvalue2, hop2⟩ := ofVch_of_length_le (Nat.le_of_not_lt h2)
        obtain ⟨hcomputes, hbound⟩ := hf a b hop1 hop2
        have hser := serialize_of_computes hcomputes hbound
        rw [hvalue1, hvalue2] at hser
        rw [if_neg h2, hb]
        change (f a b >>= serialize) >>= (fun vch ↦ pure (vch :: stack)) = _
        rw [hser]
        rfl

theorem unary_add1_eq (stack : Stack) :
    unary (addAssign · bnOne) stack = ofStack (Stack.unary (fun bn ↦ bn + 1) stack) := by
  apply unary_eq
  intro a ha
  have hcomputes := computes_add ha isOperand_bnOne
  rw [addAssign_eq ha isOperand_bnOne]
  rw [IsOperand] at ha
  exact ⟨hcomputes, by omega⟩

theorem unary_sub1_eq (stack : Stack) :
    unary (subAssign · bnOne) stack = ofStack (Stack.unary (fun bn ↦ bn - 1) stack) := by
  apply unary_eq
  intro a ha
  have hcomputes := computes_sub ha isOperand_bnOne
  rw [subAssign_eq ha isOperand_bnOne]
  rw [IsOperand] at ha
  exact ⟨hcomputes, by omega⟩

theorem binary_add_eq (stack : Stack) :
    binary add stack = ofStack (Stack.binary (fun bn1 bn2 ↦ bn1 + bn2) stack) := by
  apply binary_eq
  intro a b ha hb
  have hcomputes := computes_add ha hb
  rw [IsOperand] at ha hb
  exact ⟨hcomputes, by omega⟩

theorem binary_sub_eq (stack : Stack) :
    binary sub stack = ofStack (Stack.binary (fun bn1 bn2 ↦ bn1 - bn2) stack) := by
  apply binary_eq
  intro a b ha hb
  have hcomputes := computes_sub ha hb
  rw [IsOperand] at ha hb
  exact ⟨hcomputes, by omega⟩

/-- A number is pushed, in at most five bytes. -/
def PushesNumber (r : Except NumFault Stack) (stack : Stack) (n : Int) : Prop :=
  ∃ s, r = .ok (s :: stack) ∧ IsShortestForm s n ∧ s.length ≤ 5

theorem pushesNumber_serialize (hn : n.natAbs < 2 ^ 32) (stack : Stack) :
    PushesNumber (.ok (CScriptNum.serialize n :: stack)) stack n := by
  have hlt : n.natAbs < 2 ^ 64 := hn.trans (by decide)
  have hlen := CScriptNum.length_serialize_le_iff_natAbs (j := 4) hlt
  exact ⟨_, rfl, CScriptNum.isShortestForm_serialize hlt, hlen.mpr (by omega)⟩

theorem int_ofVch_of_length_le (h : vch.length ≤ 4) :
    CScriptNum.ofVch vch = some (signedOfBytes vch) :=
  if_neg (Nat.not_lt.mpr h)

theorem stack_unary_of_length_le {g : Int → Int} (h : vch.length ≤ 4) (stack : Stack) :
    Stack.unary g (vch :: stack) =
      some (CScriptNum.serialize (g (signedOfBytes vch)) :: stack) := by
  rw [Stack.unary, int_ofVch_of_length_le h]
  rfl

theorem stack_binary_of_length_le {g : Int → Int → Int} (h1 : vch1.length ≤ 4)
    (h2 : vch2.length ≤ 4) (stack : Stack) :
    Stack.binary g (vch2 :: vch1 :: stack) =
      some (CScriptNum.serialize (g (signedOfBytes vch1) (signedOfBytes vch2)) :: stack) := by
  rw [Stack.binary, int_ofVch_of_length_le h1, int_ofVch_of_length_le h2]
  rfl

/-- **Numbers of scripts.**  What is written is the shortest form and is read again exactly if it is
an operand; and the sums and differences of what is read do not overflow. -/
theorem scriptNum_encoding (v : BitVec 64) (vch1 vch2 : Valtype) (stack : Stack)
    (hv : v ≠ BitVec.intMin 64) (h1 : vch1.length ≤ 4) (h2 : vch2.length ≤ 4) :
    (∃ s, serialize v = .ok s ∧ IsShortestForm s v.toInt ∧ (v = 0 → s = []) ∧
      ofVch s = if v.toInt.natAbs < 2 ^ 31 then .ok v else .error .fails) ∧
    ∃ bn1 bn2, ofVch vch1 = .ok bn1 ∧ bn1.toInt = signedOfBytes vch1 ∧ bn1.toInt.natAbs < 2 ^ 31 ∧
      ofVch vch2 = .ok bn2 ∧ bn2.toInt = signedOfBytes vch2 ∧ bn2.toInt.natAbs < 2 ^ 31 ∧
      PushesNumber (binary add (vch2 :: vch1 :: stack)) stack (bn1.toInt + bn2.toInt) ∧
      PushesNumber (binary sub (vch2 :: vch1 :: stack)) stack (bn1.toInt - bn2.toInt) ∧
      PushesNumber (unary (addAssign · bnOne) (vch1 :: stack)) stack (bn1.toInt + 1) ∧
      PushesNumber (unary (subAssign · bnOne) (vch1 :: stack)) stack (bn1.toInt - 1) := by
  constructor
  · have hlow := BitVec.le_toInt v
    have hhigh := BitVec.toInt_lt (x := v)
    refine ⟨_, serialize_eq hv, CScriptNum.isShortestForm_serialize (by omega), ?_,
      ofVch_serialize v⟩
    rintro rfl
    rfl
  · obtain ⟨bn1, hread1, hvalue1, hop1⟩ := ofVch_of_length_le h1
    obtain ⟨bn2, hread2, hvalue2, hop2⟩ := ofVch_of_length_le h2
    refine ⟨bn1, bn2, hread1, hvalue1, hop1, hread2, hvalue2, hop2, ?_, ?_, ?_, ?_⟩
    all_goals rw [IsOperand] at hop1 hop2
    · rw [binary_add_eq, stack_binary_of_length_le h1 h2, ← hvalue1, ← hvalue2]
      exact pushesNumber_serialize (by omega) stack
    · rw [binary_sub_eq, stack_binary_of_length_le h1 h2, ← hvalue1, ← hvalue2]
      exact pushesNumber_serialize (by omega) stack
    · rw [unary_add1_eq, stack_unary_of_length_le h1, ← hvalue1]
      exact pushesNumber_serialize (by omega) stack
    · rw [unary_sub1_eq, stack_unary_of_length_le h1, ← hvalue1]
      exact pushesNumber_serialize (by omega) stack

/-- The largest operand, taken from the smallest. -/
theorem scriptNum_encoding_extremes :
    (∃ s, serialize (BitVec.ofInt 64 (-256)) = .ok s ∧ IsShortestForm s (-256) ∧
      (BitVec.ofInt 64 (-256) = 0 → s = []) ∧ ofVch s = .ok (BitVec.ofInt 64 (-256))) ∧
    ∃ bn1 bn2, ofVch [0xff, 0xff, 0xff, 0xff] = .ok bn1 ∧
      bn1.toInt = signedOfBytes [0xff, 0xff, 0xff, 0xff] ∧ bn1.toInt.natAbs < 2 ^ 31 ∧
      ofVch [0xff, 0xff, 0xff, 0x7f] = .ok bn2 ∧
      bn2.toInt = signedOfBytes [0xff, 0xff, 0xff, 0x7f] ∧ bn2.toInt.natAbs < 2 ^ 31 ∧
      PushesNumber (binary add [[0xff, 0xff, 0xff, 0x7f], [0xff, 0xff, 0xff, 0xff]]) []
        (bn1.toInt + bn2.toInt) ∧
      PushesNumber (binary sub [[0xff, 0xff, 0xff, 0x7f], [0xff, 0xff, 0xff, 0xff]]) []
        (bn1.toInt - bn2.toInt) ∧
      PushesNumber (unary (addAssign · bnOne) [[0xff, 0xff, 0xff, 0xff]]) [] (bn1.toInt + 1) ∧
      PushesNumber (unary (subAssign · bnOne) [[0xff, 0xff, 0xff, 0xff]]) [] (bn1.toInt - 1) :=
  scriptNum_encoding (BitVec.ofInt 64 (-256)) [0xff, 0xff, 0xff, 0xff] [0xff, 0xff, 0xff, 0x7f] []
    (by decide) (by decide) (by decide)

end ScriptNum64

end Fedoracoin
