import Fedoracoin.Lib.BijectiveBase
import Fedoracoin.Serialize

/-!
# Numbers of variable length

The two codes of `serialize.h` for numbers of variable length.  A compact size is a byte, or a byte
that says how many bytes follow.  A `VARINT` is a number in base 128, a byte for each digit, where
one is subtracted from all digits but the last: a numeral in bijective base 128, with one more digit
behind it.

A `VARINT` is read into a type of `w` bits without a check that it fits.
-/

namespace Fedoracoin

open Wire BijectiveBase Finset

/-! ## Compact sizes -/

/-- Nothing larger than `MAX_SIZE` is read. -/
theorem readCompactSize_of_lt {n : Nat} (hlt : maxSize < n) (hn : n < 2 ^ 64) (t : List UInt8) :
    readCompactSize (writeCompactSize n ++ t) = .error "ReadCompactSize() : size too large" := by
  have hmax : maxSize = 33554432 := rfl
  have hsized {chSize : Nat} {s : List UInt8} (hch : chSize < 256)
      (hs : Reads (readSized chSize) s n) :
      readCompactSize (toBytes 1 chSize ++ s ++ t) =
        .error "ReadCompactSize() : size too large" := by
    rw [List.append_assoc, readCompactSize, bind_of_ok (reads_readUInt (by omega) (s ++ t)),
      bind_of_ok (hs t), if_pos hlt]
    rfl
  rw [writeCompactSize, if_neg (by omega), if_neg (by omega)]
  split_ifs with huint
  · rw [uintMax] at huint
    apply hsized (by norm_num)
    rw [readSized, if_neg (by norm_num), if_neg (by norm_num), if_pos rfl]
    exact reads_readLongSize (by omega) (by omega)
  · rw [uintMax] at huint
    apply hsized (by norm_num)
    rw [readSized, if_neg (by norm_num), if_neg (by norm_num), if_neg (by norm_num)]
    exact reads_readLongSize (by omega) (by omega)

/-- **Compact sizes are a bijection on their image.** -/
theorem compactSize_bijective :
    (∀ n ≤ maxSize, readCompactSize (writeCompactSize n) = .ok (n, []) ∧
      (writeCompactSize n).length = getSizeOfCompactSize n) ∧
    (∀ s n t, readCompactSize s = .ok (n, t) → s = writeCompactSize n ++ t ∧ n ≤ maxSize) ∧
    ∀ n, maxSize < n → n < 2 ^ 64 → ∀ t,
      readCompactSize (writeCompactSize n ++ t) =
        .error "ReadCompactSize() : size too large" := by
  refine ⟨fun n hn ↦ ⟨?_, length_writeCompactSize n⟩, fun s n t h ↦ readCompactSize_ok h,
    fun n hlt hn t ↦ readCompactSize_of_lt hlt hn t⟩
  have h := reads_readCompactSize hn []
  rwa [List.append_nil] at h

theorem compactSize_bijective_300 :
    readCompactSize (writeCompactSize 300) = .ok (300, []) ∧
      readCompactSize (writeCompactSize (maxSize + 1)) =
        .error "ReadCompactSize() : size too large" := by
  have h := compactSize_bijective.2.2 (maxSize + 1) (Nat.lt_succ_self maxSize) (by decide) []
  rw [List.append_nil] at h
  exact ⟨(compactSize_bijective.1 300 (by decide)).1, h⟩

/-! ## `VARINT` -/

/-- What the loop of `WriteVarInt` leaves in `tmp` from `len` on. -/
def varIntTmp (n len : Nat) : List UInt8 :=
  let chData := UInt8.ofNat ((n &&& 0x7F) ||| (if len = 0 then 0x00 else 0x80))
  if n ≤ 0x7F then [chData] else chData :: varIntTmp ((n >>> 7) - 1) (len + 1)
termination_by n
decreasing_by
  rw [Nat.shiftRight_eq_div_pow]
  omega

/-- `WriteVarInt`, which writes `tmp` from its end.  The result does not depend on the type. -/
def writeVarInt (n : Nat) : List UInt8 := (varIntTmp n 0).reverse

def getSizeOfVarInt (n : Nat) : Nat :=
  if n ≤ 0x7F then 1 else getSizeOfVarInt ((n >>> 7) - 1) + 1
termination_by n
decreasing_by
  rw [Nat.shiftRight_eq_div_pow]
  omega

/-- The loop of `ReadVarInt`, in a type of `w` bits. -/
def readVarIntLoop (w : Nat) : (n : Nat) → (s : List UInt8) → Except String (Nat × List UInt8)
  | _, [] => .error "CDataStream::read() : end of data"
  | n, chData :: s =>
      let n := (n <<< 7 ||| (chData &&& 0x7F).toNat) % 2 ^ w
      if chData &&& 0x80 ≠ 0 then readVarIntLoop w ((n + 1) % 2 ^ w) s else .ok (n, s)

/-- `ReadVarInt` for an unsigned type of `w` bits. -/
def readVarInt (w : Nat) : StreamReader Nat := readVarIntLoop w 0

/-- The number that the comment gives for the bytes `a[]`:
`(a[len-1] & 0x7F) + sum(i=1..len-1, 128^i*((a[len-i-1] & 0x7F)+1))`. -/
def varIntNumber (a : List UInt8) : Nat :=
  (a.getD (a.length - 1) 0 &&& 0x7F).toNat +
    ∑ i ∈ Ico 1 a.length, 128 ^ i * ((a.getD (a.length - i - 1) 0 &&& 0x7F).toNat + 1)

section

variable {w n m len : Nat} {a s t : List UInt8} {c last : UInt8}

/-! ### Digits -/

/-- The lower seven bits. -/
def varIntDigit (c : UInt8) : Nat := (c &&& 0x7F).toNat

theorem varIntDigit_eq (c : UInt8) : varIntDigit c = c.toNat % 128 := by
  rw [varIntDigit, UInt8.toNat_and]
  exact Nat.and_two_pow_sub_one_eq_mod c.toNat 7

theorem varIntDigit_lt (c : UInt8) : varIntDigit c < 128 := by
  rw [varIntDigit_eq]
  exact Nat.mod_lt _ (by norm_num)

/-- "The high bit in each byte signifies whether another digit follows." -/
theorem and_0x80_ne_zero_iff (c : UInt8) : c &&& 0x80 ≠ 0 ↔ 128 ≤ c.toNat := by
  have hbit : (c &&& 0x80).toNat = (c.toNat.testBit 7).toNat * 2 ^ 7 := by
    rw [UInt8.toNat_and]
    exact Nat.and_two_pow c.toNat 7
  have hlt : c.toNat < 2 ^ (7 + 1) := c.toNat_lt
  rw [Ne, ← UInt8.toNat_inj, hbit]
  rcases Nat.lt_or_ge c.toNat (2 ^ 7) with h | h
  · rw [Nat.testBit_lt_two_pow h]
    exact iff_of_false (fun hne ↦ hne rfl) (Nat.not_le.mpr h)
  · rw [Nat.testBit_of_two_pow_le_and_two_pow_add_one_gt h hlt]
    exact iff_of_true (by decide) h

theorem shiftLeft_or_varIntDigit (n : Nat) (c : UInt8) :
    n <<< 7 ||| (c &&& 0x7F).toNat = n * 128 + varIntDigit c := by
  have hlt : varIntDigit c < 2 ^ 7 := varIntDigit_lt c
  rw [← varIntDigit, ← Nat.shiftLeft_add_eq_or_of_lt hlt, Nat.shiftLeft_eq]

/-- Bytes of which all but the last one say that another one follows. -/
def IsVarInt (a : List UInt8) : Prop :=
  ∃ init last, a = init ++ [last] ∧ (∀ c ∈ init, 128 ≤ c.toNat) ∧ last.toNat < 128

theorem varIntNumber_concat (hlast : last.toNat < 128) :
    varIntNumber (a ++ [last]) = value 128 (a.map varIntDigit) * 128 + last.toNat := by
  rw [varIntNumber, value_eq_sum, List.length_append, List.length_singleton, List.length_map,
    sum_Ico_eq_sum_range, Nat.add_sub_cancel, Nat.add_comm, sum_mul]
  congr 1
  · apply sum_congr rfl
    intro i hi
    have hlt : a.length - i - 1 < a.length := by
      have := mem_range.mp hi
      omega
    rw [show a.length + 1 - (1 + i) - 1 = a.length - i - 1 by omega, List.getD_append _ _ _ _ hlt,
      List.getD_eq_getElem _ _ hlt, List.getD_eq_getElem _ _ (by rwa [List.length_map]),
      List.getElem_map, ← varIntDigit, Nat.add_comm 1 i, pow_succ, Nat.mul_right_comm]
  · rw [List.getD_eq_getElem?_getD, List.getElem?_concat_length, Option.getD_some, ← varIntDigit,
      varIntDigit_eq, Nat.mod_eq_of_lt hlast]

/-- A digit and the bit above it are the byte. -/
theorem eq_of_varIntDigit {c c' : UInt8} (hc : 128 ≤ c.toNat) (hc' : 128 ≤ c'.toNat)
    (h : varIntDigit c = varIntDigit c') : c = c' := by
  have hlt := c.toNat_lt
  have hlt' := c'.toNat_lt
  rw [varIntDigit_eq, varIntDigit_eq] at h
  exact UInt8.toNat_inj.mp (by omega)

theorem eq_of_map_varIntDigit {init init' : List UInt8} (h : ∀ c ∈ init, 128 ≤ c.toNat)
    (h' : ∀ c ∈ init', 128 ≤ c.toNat) (heq : init.map varIntDigit = init'.map varIntDigit) :
    init = init' := by
  induction init generalizing init' with
  | nil => exact (List.map_eq_nil_iff.mp heq.symm).symm
  | cons c init ih =>
      cases init' with
      | nil => cases heq
      | cons c' init' =>
          rw [List.map_cons, List.map_cons, List.cons.injEq] at heq
          rw [List.forall_mem_cons] at h h'
          rw [eq_of_varIntDigit h.1 h'.1 heq.1, ih h.2 h'.2 heq.2]

theorem forall_mem_map_varIntDigit (init : List UInt8) :
    ∀ d ∈ init.map varIntDigit, d < 128 :=
  List.forall_mem_map.mpr fun c _ ↦ varIntDigit_lt c

/-- "Every integer has exactly one encoding." -/
theorem IsVarInt.eq_of_varIntNumber {a' : List UInt8} (h : IsVarInt a) (h' : IsVarInt a')
    (heq : varIntNumber a = varIntNumber a') : a = a' := by
  obtain ⟨init, last, rfl, hinit, hlast⟩ := h
  obtain ⟨init', last', rfl, hinit', hlast'⟩ := h'
  rw [varIntNumber_concat hlast, varIntNumber_concat hlast'] at heq
  have hvalue : value 128 (init.map varIntDigit) = value 128 (init'.map varIntDigit) := by omega
  have hlasteq : last = last' := UInt8.toNat_inj.mp (by omega)
  have hmap := value_inj (forall_mem_map_varIntDigit init) (forall_mem_map_varIntDigit init') hvalue
  rw [hlasteq, eq_of_map_varIntDigit hinit hinit' hmap]

/-! ### Reading -/

/-- The loop along the bytes of one number. -/
theorem readVarIntLoop_append {init : List UInt8} (hinit : ∀ c ∈ init, 128 ≤ c.toNat)
    (hlast : last.toNat < 128) (ds : List Nat) :
    readVarIntLoop w (value 128 ds % 2 ^ w) (init ++ last :: t) =
      .ok ((value 128 (ds ++ init.map varIntDigit) * 128 + last.toNat) % 2 ^ w, t) := by
  induction init generalizing ds with
  | nil =>
      have hbit : ¬ last &&& 0x80 ≠ 0 := by
        rw [and_0x80_ne_zero_iff]
        exact Nat.not_le.mpr hlast
      rw [List.nil_append, readVarIntLoop]
      rw [if_neg hbit, shiftLeft_or_varIntDigit, varIntDigit_eq, Nat.mod_eq_of_lt hlast,
        List.map_nil, List.append_nil, Nat.add_mod, Nat.mod_mul_mod, ← Nat.add_mod]
  | cons c init ih =>
      rw [List.forall_mem_cons] at hinit
      have hvalue : ((value 128 ds % 2 ^ w * 128 + varIntDigit c) % 2 ^ w + 1) % 2 ^ w =
          value 128 (ds ++ [varIntDigit c]) % 2 ^ w := by
        rw [value_concat, ← Nat.add_assoc, Nat.mod_add_mod, Nat.add_assoc, Nat.add_mod,
          Nat.mod_mul_mod, ← Nat.add_mod, Nat.add_assoc]
      rw [List.cons_append, readVarIntLoop]
      rw [if_pos ((and_0x80_ne_zero_iff c).mpr hinit.1), shiftLeft_or_varIntDigit, hvalue,
        ih hinit.2, List.map_cons, List.append_assoc, List.singleton_append]

/-- What is read is the number of the bytes, as far as the type holds it. -/
theorem reads_readVarInt (ha : IsVarInt a) (hn : n = varIntNumber a % 2 ^ w) :
    Reads (readVarInt w) a n := by
  obtain ⟨init, last, rfl, hinit, hlast⟩ := ha
  intro t
  have h := readVarIntLoop_append (w := w) (t := t) hinit hlast []
  rw [value_nil, Nat.zero_mod, List.nil_append] at h
  rw [hn, varIntNumber_concat hlast, readVarInt, List.append_assoc, List.singleton_append, h]

/-- Reading ends with the first byte that says so. -/
theorem readVarIntLoop_ok (h : readVarIntLoop w m s = .ok (n, t)) :
    ∃ a, IsVarInt a ∧ s = a ++ t := by
  induction s generalizing m with
  | nil => cases h
  | cons c s ih =>
      rw [readVarIntLoop] at h
      split at h
      case isTrue hbit =>
        obtain ⟨_, ⟨init, last, rfl, hinit, hlast⟩, rfl⟩ := ih h
        exact ⟨_, ⟨c :: init, last, rfl,
          List.forall_mem_cons.mpr ⟨(and_0x80_ne_zero_iff c).mp hbit, hinit⟩, hlast⟩, rfl⟩
      case isFalse hbit =>
        obtain ⟨rfl, rfl⟩ := Prod.mk.inj (Except.ok.inj h)
        rw [and_0x80_ne_zero_iff] at hbit
        exact ⟨[c], ⟨[], c, rfl, nofun, Nat.not_le.mp hbit⟩, rfl⟩

/-- What is accepted, and the number that is made of it. -/
theorem readVarInt_ok (h : readVarInt w s = .ok (n, t)) :
    ∃ a, IsVarInt a ∧ s = a ++ t ∧ n = varIntNumber a % 2 ^ w := by
  obtain ⟨a, ha, rfl⟩ := readVarIntLoop_ok h
  have hreads := reads_readVarInt (w := w) ha rfl t
  rw [h] at hreads
  exact ⟨a, ha, rfl, (Prod.mk.inj (Except.ok.inj hreads)).1⟩

/-! ### Writing -/

theorem varIntTmp_eq (n len : Nat) :
    varIntTmp n len = UInt8.ofNat (n % 128 + if len = 0 then 0 else 128) ::
      if n ≤ 127 then [] else varIntTmp (n / 128 - 1) (len + 1) := by
  have hmod : n &&& 0x7F = n % 128 := Nat.and_two_pow_sub_one_eq_mod n 7
  have hlt : n % 128 < 2 ^ 7 := Nat.mod_lt n (by norm_num)
  have hor : (n &&& 0x7F) ||| (if len = 0 then 0x00 else 0x80) =
      n % 128 + if len = 0 then 0 else 128 := by
    rw [hmod]
    split
    · rw [Nat.or_zero, Nat.add_zero]
    · rw [Nat.or_comm, Nat.add_comm]
      exact (Nat.two_pow_add_eq_or_of_lt hlt 1).symm
  rw [varIntTmp, hor, Nat.shiftRight_eq_div_pow]
  split <;> rfl

theorem writeVarInt_of_lt (h : n < 128) : writeVarInt n = [UInt8.ofNat n] := by
  rw [writeVarInt, varIntTmp_eq, if_pos rfl, if_pos (by omega), Nat.add_zero, Nat.mod_eq_of_lt h]
  rfl

/-- All digits but the last one. -/
theorem varIntTmp_succ (n len : Nat) :
    (∀ c ∈ varIntTmp n (len + 1), 128 ≤ c.toNat) ∧
      value 128 ((varIntTmp n (len + 1)).reverse.map varIntDigit) = n + 1 := by
  induction n using Nat.strongRecOn generalizing len with
  | ind n ih =>
      have hbyte : (UInt8.ofNat (n % 128 + 128)).toNat = n % 128 + 128 :=
        UInt8.toNat_ofNat_of_lt' (show _ < 256 by omega)
      have hdigit : varIntDigit (UInt8.ofNat (n % 128 + 128)) = n % 128 := by
        rw [varIntDigit_eq, hbyte]
        omega
      rw [varIntTmp_eq, if_neg (Nat.succ_ne_zero len), List.forall_mem_cons, hbyte,
        List.reverse_cons, List.map_append, List.map_singleton, value_concat, hdigit]
      refine ⟨⟨Nat.le_add_left _ _, ?_⟩, ?_⟩
      · split
        case isTrue => exact nofun
        case isFalse h => exact (ih _ (by omega) (len + 1)).1
      · split
        case isTrue h =>
          rw [List.reverse_nil, List.map_nil, value_nil]
          omega
        case isFalse h =>
          rw [(ih _ (by omega) (len + 1)).2]
          omega

/-- The bytes that are written are those of the number. -/
theorem isVarInt_writeVarInt (n : Nat) :
    IsVarInt (writeVarInt n) ∧ varIntNumber (writeVarInt n) = n := by
  have hbyte : (UInt8.ofNat (n % 128)).toNat = n % 128 :=
    UInt8.toNat_ofNat_of_lt' (show _ < 256 by omega)
  have hlast : (UInt8.ofNat (n % 128)).toNat < 128 := by
    rw [hbyte]
    omega
  rw [writeVarInt, varIntTmp_eq, if_pos rfl, Nat.add_zero, List.reverse_cons]
  refine ⟨⟨_, _, rfl, fun c hc ↦ ?_, hlast⟩, ?_⟩
  · rw [List.mem_reverse] at hc
    split at hc
    case isTrue => exact absurd hc List.not_mem_nil
    case isFalse => exact (varIntTmp_succ _ 0).1 c hc
  · rw [varIntNumber_concat hlast, hbyte]
    split
    case isTrue h =>
      rw [List.reverse_nil, List.map_nil, value_nil]
      omega
    case isFalse h =>
      rw [(varIntTmp_succ _ 0).2]
      omega

theorem length_varIntTmp (n len : Nat) : (varIntTmp n len).length = getSizeOfVarInt n := by
  induction n using Nat.strongRecOn generalizing len with
  | ind n ih =>
      rw [varIntTmp_eq, getSizeOfVarInt, List.length_cons, Nat.shiftRight_eq_div_pow]
      split
      case isTrue => rfl
      case isFalse h =>
        rw [ih _ (by omega)]

@[simp] theorem length_writeVarInt (n : Nat) : (writeVarInt n).length = getSizeOfVarInt n := by
  rw [writeVarInt, List.length_reverse, length_varIntTmp]

theorem getSizeOfVarInt_le {k : Nat} (hn : n < 128 ^ (k + 1)) : getSizeOfVarInt n ≤ k + 1 := by
  induction k generalizing n with
  | zero =>
      rw [getSizeOfVarInt, if_pos (by omega)]
  | succ k ih =>
      rw [getSizeOfVarInt, Nat.shiftRight_eq_div_pow]
      split
      case isTrue => exact Nat.le_add_left 1 _
      case isFalse =>
        apply Nat.succ_le_succ
        apply ih
        have hdiv : n / 128 < 128 ^ (k + 1) := Nat.div_lt_of_lt_mul (by rwa [← pow_succ'])
        exact (Nat.sub_le _ _).trans_lt hdiv

/-- The bytes fit in `tmp[(sizeof(n)*8+6)/7]`. -/
theorem length_writeVarInt_le (hw : 0 < w) (hn : n < 2 ^ w) :
    (writeVarInt n).length ≤ (w + 6) / 7 := by
  obtain ⟨k, hk⟩ : ∃ k, (w + 6) / 7 = k + 1 := ⟨(w + 6) / 7 - 1, by omega⟩
  rw [length_writeVarInt, hk]
  apply getSizeOfVarInt_le
  calc n < 2 ^ w := hn
    _ ≤ 2 ^ (7 * (k + 1)) := Nat.pow_le_pow_right (by norm_num) (by omega)
    _ = (2 ^ 7) ^ (k + 1) := pow_mul 2 7 (k + 1)
    _ = 128 ^ (k + 1) := rfl

theorem reads_writeVarInt (hn : n < 2 ^ w) : Reads (readVarInt w) (writeVarInt n) n := by
  obtain ⟨hvarInt, hnumber⟩ := isVarInt_writeVarInt n
  apply reads_readVarInt hvarInt
  rw [hnumber, Nat.mod_eq_of_lt hn]

/-- Bytes that are accepted are what is written for their number. -/
theorem writeVarInt_eq_iff (ha : IsVarInt a) : writeVarInt n = a ↔ n = varIntNumber a := by
  obtain ⟨hvarInt, hnumber⟩ := isVarInt_writeVarInt n
  constructor
  · rintro rfl
    exact hnumber.symm
  · exact fun h ↦ hvarInt.eq_of_varIntNumber ha (hnumber.trans h)

/-! ### One encoding for each number -/

/-- **What is read is written back, if its number fits in the type.** -/
theorem varInt_canonical_iff (w : Nat) :
    (∀ b n, readVarInt w b = .ok (n, []) → (writeVarInt n = b ↔ varIntNumber b < 2 ^ w)) ∧
      ∀ n < 2 ^ w, readVarInt w (writeVarInt n) = .ok (n, []) ∧
        (writeVarInt n).length = getSizeOfVarInt n := by
  refine ⟨fun b n h ↦ ?_, fun n hn ↦ ⟨?_, length_writeVarInt n⟩⟩
  · obtain ⟨a, ha, rfl, rfl⟩ := readVarInt_ok h
    rw [List.append_nil, writeVarInt_eq_iff ha]
    exact ⟨fun heq ↦ heq ▸ Nat.mod_lt _ (Nat.two_pow_pos w), Nat.mod_eq_of_lt⟩
  · have h := reads_writeVarInt hn []
    rwa [List.append_nil] at h

theorem varInt_canonical_iff_300 :
    writeVarInt 300 = [0x81, 0x2C] ∧ readVarInt 64 (writeVarInt 300) = .ok (300, []) :=
  ⟨((varInt_canonical_iff 64).1 [0x81, 0x2C] 300 (by rfl)).mpr (by decide),
    ((varInt_canonical_iff 64).2 300 (by norm_num)).1⟩

/-- The bytes that the comment gives for `2^32`, read as an `unsigned int`. -/
theorem varInt_overlong :
    readVarInt 32 [0x8E, 0xFE, 0xFE, 0xFF, 0x00] = .ok (0, []) ∧
      writeVarInt 0 ≠ [0x8E, 0xFE, 0xFE, 0xFF, 0x00] := by
  refine ⟨by rfl, fun h ↦ ?_⟩
  rw [writeVarInt, varIntTmp_eq, if_pos (Nat.zero_le _)] at h
  exact absurd (congrArg List.length h) (by decide)

end

end Fedoracoin
