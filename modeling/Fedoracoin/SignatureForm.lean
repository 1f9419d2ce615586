import Fedoracoin.Signature

/-!
# The form of a signature

The language of the two checks of an encoding, `IsCanonicalSignature` and
`IsValidSignatureEncoding`: the bytes `0x30 len 0x02 lenR R 0x02 lenS S hashtype`, where the lengths
are right and `R` and `S` are numbers as DER writes them.  Both checks look bytes up by positions
that depend on bytes of the string; no position is outside of it.
-/

namespace Fedoracoin

/-- A number that is not negative, with no byte more than it needs. -/
structure IsDerInteger (I : List UInt8) : Prop where
  ne_nil : I ≠ []
  nonneg : ∀ first, I[0]? = some first → first &&& 0x80 = 0
  minimal : ∀ second, I[0]? = some 0x00 → I[1]? = some second → second &&& 0x80 ≠ 0

/-- "0x30 [total-length] 0x02 [R-length] [R] 0x02 [S-length] [S] [sighash]" -/
structure IsDerSignature (vchSig : Valtype) (R S : List UInt8) (nHashType : UInt8) : Prop where
  size : 9 ≤ vchSig.length ∧ vchSig.length ≤ 73
  bytes : ∃ len lenR lenS : UInt8, len.toNat = vchSig.length - 3 ∧ lenR.toNat = R.length ∧
    lenS.toNat = S.length ∧
    vchSig = 0x30 :: len :: 0x02 :: lenR :: (R ++ 0x02 :: lenS :: (S ++ [nHashType]))
  integerR : IsDerInteger R
  integerS : IsDerInteger S

/-- One of `SIGHASH_ALL`, `SIGHASH_NONE` and `SIGHASH_SINGLE`, but for `SIGHASH_ANYONECANPAY`. -/
def IsHashType (nHashType : UInt8) : Prop :=
  1 ≤ nHashType &&& ~~~0x80 ∧ nHashType &&& ~~~0x80 ≤ 3

section

variable {vchSig R S : Valtype} {start nLen flags : Nat} {b nHashType : UInt8}

/-! ## One number -/

theorem getElem?_slice {l : List UInt8} (start nLen i : Nat) :
    ((l.drop start).take nLen)[i]? = if i < nLen then l[start + i]? else none := by
  rw [List.getElem?_take, List.getElem?_drop]

/-- The check of a number reads nothing outside of the string. -/
theorem isCanonicalInteger_spec (vchSig : Valtype) (start nLen : Nat) (hstart : 2 ≤ start)
    (hle : start + nLen ≤ vchSig.length) :
    ∃ fOk, isCanonicalInteger vchSig start nLen = some fOk ∧
      (fOk = true ↔ vchSig[start - 2]? = some 0x02 ∧
        IsDerInteger ((vchSig.drop start).take nLen)) := by
  have htype : start - 2 < vchSig.length := by omega
  rw [isCanonicalInteger, List.getElem?_eq_getElem htype, Option.bind_eq_bind, Option.bind_some,
    Option.some.injEq]
  split
  case isTrue hne => exact ⟨false, rfl, iff_of_false Bool.false_ne_true fun h ↦ hne h.1⟩
  case isFalse heq =>
    split
    case isTrue hzero =>
      refine ⟨false, rfl, iff_of_false Bool.false_ne_true fun h ↦ h.2.ne_nil ?_⟩
      rw [hzero, List.take_zero]
    case isFalse hpos =>
      have hfirst : start < vchSig.length := by omega
      have hzero : ((vchSig.drop start).take nLen)[0]? = some vchSig[start] := by
        rw [getElem?_slice, if_pos (Nat.pos_of_ne_zero hpos), Nat.add_zero,
          List.getElem?_eq_getElem hfirst]
      have hnil : (vchSig.drop start).take nLen ≠ [] := by
        intro hnil
        rw [hnil] at hzero
        cases hzero
      rw [List.getElem?_eq_getElem hfirst, Option.bind_some]
      split
      case isTrue hneg =>
        exact ⟨false, rfl, iff_of_false Bool.false_ne_true fun h ↦ hneg (h.2.nonneg _ hzero)⟩
      case isFalse hnonneg =>
        have hnonneg' : ∀ first, ((vchSig.drop start).take nLen)[0]? = some first →
            first &&& 0x80 = 0 := by
          intro first h
          rw [hzero] at h
          obtain rfl := Option.some.inj h
          exact not_not.mp hnonneg
        split
        case isTrue hpad =>
          have hsecond : start + 1 < vchSig.length := by omega
          have hone : ((vchSig.drop start).take nLen)[1]? = some vchSig[start + 1] := by
            rw [getElem?_slice, if_pos hpad.1, List.getElem?_eq_getElem hsecond]
          rw [List.getElem?_eq_getElem hsecond, Option.bind_some]
          refine ⟨_, rfl, ?_⟩
          rw [decide_eq_true_eq]
          refine ⟨fun h ↦ ⟨not_not.mp heq, hnil, hnonneg', fun second _ hs ↦ ?_⟩,
            fun h ↦ h.2.minimal _ (hpad.2 ▸ hzero) hone⟩
          rw [hone] at hs
          obtain rfl := Option.some.inj hs
          exact h
        case isFalse hpad =>
          refine ⟨true, rfl,
            iff_of_true rfl ⟨not_not.mp heq, hnil, hnonneg', fun second h0 h1 ↦ ?_⟩⟩
          rw [hzero] at h0
          rw [getElem?_slice] at h1
          split at h1
          case isTrue hlong => exact absurd ⟨hlong, Option.some.inj h0⟩ hpad
          case isFalse => cases h1

/-! ## The whole encoding -/

/-- Where the bytes of the form stand. -/
theorem IsDerSignature.layout (h : IsDerSignature vchSig R S nHashType) :
    ∃ len lenR lenS : UInt8, vchSig[0]? = some 0x30 ∧ vchSig[1]? = some len ∧
      len.toNat = vchSig.length - 3 ∧ vchSig[2]? = some 0x02 ∧ vchSig[3]? = some lenR ∧
      (vchSig.drop 4).take lenR.toNat = R ∧ vchSig[4 + lenR.toNat]? = some 0x02 ∧
      vchSig[5 + lenR.toNat]? = some lenS ∧
      (vchSig.drop (6 + lenR.toNat)).take lenS.toNat = S ∧
      lenR.toNat + lenS.toNat + 7 = vchSig.length ∧
      vchSig[vchSig.length - 1]? = some nHashType := by
  obtain ⟨len, lenR, lenS, hlen, hR, hS, hbytes⟩ := h.bytes
  have hlength : lenR.toNat + lenS.toNat + 7 = vchSig.length := by
    rw [hbytes]
    simp only [List.length_cons, List.length_append, List.length_nil, hR, hS]
    omega
  have hdrop4 : vchSig.drop 4 = R ++ 0x02 :: lenS :: (S ++ [nHashType]) := by
    rw [hbytes]
    rfl
  have hdropR : vchSig.drop (4 + lenR.toNat) = 0x02 :: lenS :: (S ++ [nHashType]) := by
    rw [← List.drop_drop, hdrop4, hR, List.drop_left]
  have hdropS : vchSig.drop (6 + lenR.toNat) = S ++ [nHashType] := by
    rw [show 6 + lenR.toNat = (4 + lenR.toNat) + 2 by omega, ← List.drop_drop, hdropR]
    rfl
  have hlast : vchSig.drop (vchSig.length - 1) = [nHashType] := by
    rw [← hlength, show lenR.toNat + lenS.toNat + 7 - 1 = 6 + lenR.toNat + lenS.toNat by omega,
      ← List.drop_drop, hdropS, hS, List.drop_left]
  have hget {i : Nat} {b : UInt8} {rest : List UInt8} (hdrop : vchSig.drop i = b :: rest) :
      vchSig[i]? = some b := by
    rw [← Nat.add_zero i, ← List.getElem?_drop, hdrop]
    rfl
  have hdrop5 : vchSig.drop (5 + lenR.toNat) = lenS :: (S ++ [nHashType]) := by
    rw [show 5 + lenR.toNat = (4 + lenR.toNat) + 1 by omega, ← List.drop_drop, hdropR]
    rfl
  exact ⟨len, lenR, lenS, by rw [hbytes]; rfl, by rw [hbytes]; rfl, hlen, by rw [hbytes]; rfl,
    by rw [hbytes]; rfl, by rw [hdrop4, hR, List.take_left], hget hdropR, hget hdrop5,
    by rw [hdropS, hS, List.take_left], hlength, hget hlast⟩

/-- The last byte is any. -/
theorem isDerSignature_of_layout {len lenR lenS : UInt8}
    (hsize : 9 ≤ vchSig.length ∧ vchSig.length ≤ 73) (h0 : vchSig[0]? = some 0x30)
    (h1 : vchSig[1]? = some len) (hlen : len.toNat = vchSig.length - 3)
    (h2 : vchSig[2]? = some 0x02) (h3 : vchSig[3]? = some lenR)
    (hR : IsDerInteger ((vchSig.drop 4).take lenR.toNat))
    (h4 : vchSig[4 + lenR.toNat]? = some 0x02) (h5 : vchSig[5 + lenR.toNat]? = some lenS)
    (hS : IsDerInteger ((vchSig.drop (6 + lenR.toNat)).take lenS.toNat))
    (hlength : lenR.toNat + lenS.toNat + 7 = vchSig.length)
    (hback : vchSig[vchSig.length - 1]? = some nHashType) :
    IsDerSignature vchSig ((vchSig.drop 4).take lenR.toNat)
      ((vchSig.drop (6 + lenR.toNat)).take lenS.toNat) nHashType := by
  have hdrop {i : Nat} {b : UInt8} (h : vchSig[i]? = some b) :
      vchSig.drop i = b :: vchSig.drop (i + 1) := by
    obtain ⟨hlt, rfl⟩ := List.getElem?_eq_some_iff.mp h
    exact List.drop_eq_getElem_cons hlt
  have htake (i k : Nat) : vchSig.drop i = (vchSig.drop i).take k ++ vchSig.drop (i + k) := by
    rw [← List.drop_drop, List.take_append_drop]
  refine ⟨hsize, ⟨len, lenR, lenS, hlen, ?_, ?_, ?_⟩, hR, hS⟩
  · rw [List.length_take, List.length_drop]
    omega
  · rw [List.length_take, List.length_drop]
    omega
  · have hhead : vchSig = 0x30 :: len :: 0x02 :: lenR :: vchSig.drop 4 := by
      conv_lhs => rw [← vchSig.drop_zero, hdrop h0, hdrop h1, hdrop h2, hdrop h3]
    have hafterR : vchSig.drop (4 + lenR.toNat) = 0x02 :: lenS :: vchSig.drop (6 + lenR.toNat) := by
      rw [hdrop h4, show 4 + lenR.toNat + 1 = 5 + lenR.toNat by omega, hdrop h5,
        show 5 + lenR.toNat + 1 = 6 + lenR.toNat by omega]
    have hend : vchSig.drop (6 + lenR.toNat + lenS.toNat) = [nHashType] := by
      rw [show 6 + lenR.toNat + lenS.toNat = vchSig.length - 1 by omega, hdrop hback,
        List.drop_eq_nil_of_le (by omega)]
    conv_lhs => rw [hhead, htake 4 lenR.toNat, hafterR, htake (6 + lenR.toNat) lenS.toNat, hend]

/-! ## `IsValidSignatureEncoding` -/

/-- Every byte that is looked up is there. -/
theorem isValidSignatureEncoding_total (vchSig : Valtype) :
    ∃ fOk, isValidSignatureEncoding vchSig = some fOk := by
  rw [isValidSignatureEncoding]
  split
  case isTrue => exact ⟨false, rfl⟩
  case isFalse hshort =>
    have h0 : 0 < vchSig.length := by omega
    have h1 : 1 < vchSig.length := by omega
    have h3 : 3 < vchSig.length := by omega
    split
    case isTrue => exact ⟨false, rfl⟩
    case isFalse hlong =>
      simp only [List.getElem?_eq_getElem h0, List.getElem?_eq_getElem h1,
        List.getElem?_eq_getElem h3, Option.bind_eq_bind, Option.bind_some]
      split
      case isTrue => exact ⟨false, rfl⟩
      case isFalse =>
        split
        case isTrue => exact ⟨false, rfl⟩
        case isFalse =>
          split
          case isTrue => exact ⟨false, rfl⟩
          case isFalse hR =>
            simp only [List.getElem?_eq_getElem (Nat.not_le.mp hR), Option.bind_some]
            split
            case isTrue => exact ⟨false, rfl⟩
            case isFalse hsum =>
              obtain ⟨fR, hfR, -⟩ :=
                isCanonicalInteger_spec vchSig 4 vchSig[3].toNat (by norm_num) (by omega)
              obtain ⟨fS, hfS, -⟩ :=
                isCanonicalInteger_spec vchSig (vchSig[3].toNat + 6)
                  vchSig[5 + vchSig[3].toNat].toNat (by omega) (by omega)
              rw [hfR, hfS, Option.bind_some]
              split
              · exact ⟨false, rfl⟩
              · exact ⟨fS, rfl⟩

theorem isCanonicalInteger_of_isDerInteger {I : List UInt8} (hstart : 2 ≤ start)
    (hle : start + nLen ≤ vchSig.length) (htype : vchSig[start - 2]? = some 0x02)
    (hslice : (vchSig.drop start).take nLen = I) (hI : IsDerInteger I) :
    isCanonicalInteger vchSig start nLen = some true := by
  obtain ⟨fOk, hfOk, hiff⟩ := isCanonicalInteger_spec vchSig start nLen hstart hle
  rw [hfOk, hiff.mpr ⟨htype, hslice ▸ hI⟩]

theorem isValidSignatureEncoding_of_isDerSignature (h : IsDerSignature vchSig R S nHashType) :
    isValidSignatureEncoding vchSig = some true := by
  obtain ⟨len, lenR, lenS, h0, h1, hlen, h2, h3, hR, h4, h5, hS, hlength, -⟩ := h.layout
  have hfR : isCanonicalInteger vchSig 4 lenR.toNat = some true :=
    isCanonicalInteger_of_isDerInteger (by norm_num) (by omega) h2 hR h.integerR
  have hfS : isCanonicalInteger vchSig (lenR.toNat + 6) lenS.toNat = some true :=
    isCanonicalInteger_of_isDerInteger (by omega) (by omega)
      (by rwa [show lenR.toNat + 6 - 2 = 4 + lenR.toNat by omega])
      (by rwa [Nat.add_comm lenR.toNat 6]) h.integerS
  rw [isValidSignatureEncoding, if_neg (Nat.not_lt.mpr h.size.1), if_neg (Nat.not_lt.mpr h.size.2),
    h0, h1, h3]
  simp only [Option.bind_eq_bind, Option.bind_some, ne_eq, not_true_eq_false, if_false, hlen]
  rw [if_neg (by omega), h5]
  simp only [Option.bind_some]
  rw [if_neg (by omega), hfR, Option.bind_some, hfS]
  rfl

theorem isDerSignature_of_isValidSignatureEncoding
    (h : isValidSignatureEncoding vchSig = some true)
    (hback : vchSig[vchSig.length - 1]? = some nHashType) :
    ∃ R S, IsDerSignature vchSig R S nHashType := by
  rw [isValidSignatureEncoding] at h
  split at h
  case isTrue => cases h
  case isFalse hshort =>
    split at h
    case isTrue => cases h
    case isFalse hlong =>
      obtain ⟨type, h0, h⟩ := Option.bind_eq_some_iff.mp h
      split at h
      case isTrue => cases h
      case isFalse hcompound =>
        obtain ⟨len, h1, h⟩ := Option.bind_eq_some_iff.mp h
        split at h
        case isTrue => cases h
        case isFalse hlen =>
          obtain ⟨lenR, h3, h⟩ := Option.bind_eq_some_iff.mp h
          dsimp only at h
          split at h
          case isTrue => cases h
          case isFalse hR =>
            obtain ⟨lenS, h5, h⟩ := Option.bind_eq_some_iff.mp h
            split at h
            case isTrue => cases h
            case isFalse hsum =>
              obtain ⟨fR, hfR, h⟩ := Option.bind_eq_some_iff.mp h
              split at h
              case isTrue => cases h
              case isFalse hfalse =>
                obtain ⟨fR', hfR', hiffR⟩ :=
                  isCanonicalInteger_spec vchSig 4 lenR.toNat (by norm_num) (by omega)
                obtain ⟨fS', hfS', hiffS⟩ :=
                  isCanonicalInteger_spec vchSig (lenR.toNat + 6) lenS.toNat (by omega) (by omega)
                obtain rfl := Option.some.inj (hfR.symm.trans hfR')
                obtain rfl := Option.some.inj (h.symm.trans hfS')
                obtain ⟨h2, hintR⟩ := hiffR.mp (by simpa using hfalse)
                obtain ⟨h4, hintS⟩ := hiffS.mp rfl
                rw [not_not.mp hcompound] at h0
                rw [show lenR.toNat + 6 - 2 = 4 + lenR.toNat by omega] at h4
                rw [Nat.add_comm lenR.toNat 6] at hintS
                exact ⟨_, _, isDerSignature_of_layout
                  ⟨Nat.not_lt.mp hshort, Nat.not_lt.mp hlong⟩ h0 h1 (not_not.mp hlen) h2 h3 hintR
                  h4 h5 hintS (not_not.mp hsum) hback⟩

/-! ## `IsCanonicalSignature` -/

/-- The check that only `SCRIPT_VERIFY_LOW_S` asks for. -/
def isLowS (vchSig : Valtype) (flags : Nat) : Bool :=
  let nLenR := (vchSig.getD 3 0).toNat
  let nLenS := (vchSig.getD (5 + nLenR) 0).toNat
  decide (flags &&& scriptVerifyLowS = 0) ||
    checkSignatureElement ((vchSig.drop (6 + nLenR)).take nLenS)

/-- "This largely overlaps with IsCanonicalSignature above, but lacks hashtype constraints." -/
theorem isCanonicalSignature_eq (hstrict : flags &&& scriptVerifyStrictenc ≠ 0)
    (hshort : 9 ≤ vchSig.length) (hback : vchSig[vchSig.length - 1]? = some nHashType) :
    isCanonicalSignature vchSig flags =
      if nHashType &&& ~~~0x80 < 1 ∨ 3 < nHashType &&& ~~~0x80 then some false
      else (isValidSignatureEncoding vchSig).map fun fOk ↦ fOk && isLowS vchSig flags := by
  have h0 : 0 < vchSig.length := by omega
  have h1 : 1 < vchSig.length := by omega
  have h3 : 3 < vchSig.length := by omega
  rw [isCanonicalSignature, isValidSignatureEncoding, isLowS, if_neg hstrict,
    if_neg (Nat.not_lt.mpr hshort), if_neg (Nat.not_lt.mpr hshort)]
  by_cases hlong : 73 < vchSig.length
  · rw [if_pos hlong, if_pos hlong]
    split <;> rfl
  rw [if_neg hlong, if_neg hlong, hback]
  by_cases htype : nHashType &&& ~~~0x80 < 1 ∨ 3 < nHashType &&& ~~~0x80
  · rw [if_pos htype]
    simp only [Option.bind_eq_bind, Option.bind_some, if_pos htype]
    rfl
  rw [if_neg htype]
  simp only [Option.bind_eq_bind, Option.bind_some, if_neg htype, List.getElem?_eq_getElem h0,
    List.getElem?_eq_getElem h1, List.getElem?_eq_getElem h3, List.getD_eq_getElem _ _ h3]
  by_cases hcompound : vchSig[0] ≠ 0x30
  · rw [if_pos hcompound, if_pos hcompound]
    rfl
  rw [if_neg hcompound, if_neg hcompound]
  by_cases hlen : vchSig[1].toNat ≠ vchSig.length - 3
  · rw [if_pos hlen, if_pos hlen]
    rfl
  rw [if_neg hlen, if_neg hlen]
  by_cases hR : vchSig.length ≤ 5 + vchSig[3].toNat
  · rw [if_pos hR, if_pos hR]
    rfl
  rw [if_neg hR, if_neg hR]
  simp only [List.getElem?_eq_getElem (Nat.not_le.mp hR), Option.bind_some,
    List.getD_eq_getElem _ _ (Nat.not_le.mp hR)]
  by_cases hsum : vchSig[3].toNat + vchSig[5 + vchSig[3].toNat].toNat + 7 ≠ vchSig.length
  · rw [if_pos hsum, if_pos hsum]
    rfl
  rw [if_neg hsum, if_neg hsum, Nat.add_comm _ 6]
  cases isCanonicalInteger vchSig 4 vchSig[3].toNat with
  | none => rfl
  | some fR =>
      rw [Option.bind_some, Option.bind_some]
      cases fR with
      | false => rfl
      | true =>
          simp only [Bool.not_true, Bool.false_eq_true, if_false]
          cases isCanonicalInteger vchSig (6 + vchSig[3].toNat)
            vchSig[5 + vchSig[3].toNat].toNat with
          | none => rfl
          | some fS =>
              cases fS with
              | false => rfl
              | true =>
                  simp only [Option.bind_some, Bool.not_true, Bool.false_eq_true, if_false,
                    Option.map_some, Bool.true_and]
                  split
                  case isTrue hlow => rw [decide_eq_true hlow]; rfl
                  case isFalse hlow => rw [decide_eq_false hlow]; rfl

/-- A string that is too short is not looked into. -/
theorem isCanonicalSignature_of_lt (hstrict : flags &&& scriptVerifyStrictenc ≠ 0)
    (hshort : vchSig.length < 9) : isCanonicalSignature vchSig flags = some false := by
  rw [isCanonicalSignature, if_neg hstrict, if_pos hshort]
  rfl

theorem isCanonicalSignature_of_not_strict (hstrict : flags &&& scriptVerifyStrictenc = 0) :
    isCanonicalSignature vchSig flags = some true := by
  rw [isCanonicalSignature, if_pos hstrict]
  rfl

theorem exists_back (hshort : 9 ≤ vchSig.length) :
    ∃ back, vchSig[vchSig.length - 1]? = some back :=
  ⟨_, List.getElem?_eq_getElem (by omega)⟩

/-- Every byte that is looked up is there. -/
theorem isCanonicalSignature_total (vchSig : Valtype) (flags : Nat) :
    ∃ fOk, isCanonicalSignature vchSig flags = some fOk := by
  by_cases hstrict : flags &&& scriptVerifyStrictenc = 0
  · exact ⟨true, isCanonicalSignature_of_not_strict hstrict⟩
  rcases Nat.lt_or_ge vchSig.length 9 with hshort | hshort
  · exact ⟨false, isCanonicalSignature_of_lt hstrict hshort⟩
  obtain ⟨back, hback⟩ := exists_back hshort
  obtain ⟨fOk, hfOk⟩ := isValidSignatureEncoding_total vchSig
  rw [isCanonicalSignature_eq hstrict hshort hback, hfOk]
  split
  · exact ⟨false, rfl⟩
  · exact ⟨_, rfl⟩

theorem not_isHashType_iff : ¬IsHashType b ↔ b &&& ~~~0x80 < 1 ∨ 3 < b &&& ~~~0x80 := by
  rw [IsHashType, not_and_or, UInt8.not_le, UInt8.not_le]

/-- Without the check of `S` the type of the hash is all that is added. -/
theorem isCanonicalSignature_iff_encoding (hstrict : flags &&& scriptVerifyStrictenc ≠ 0)
    (hlow : flags &&& scriptVerifyLowS = 0) :
    isCanonicalSignature vchSig flags = some true ↔
      isValidSignatureEncoding vchSig = some true ∧
        ∃ back, vchSig.getLast? = some back ∧ IsHashType back := by
  rcases Nat.lt_or_ge vchSig.length 9 with hshort | hshort
  · rw [isCanonicalSignature_of_lt hstrict hshort, isValidSignatureEncoding, if_pos hshort]
    exact iff_of_false (fun h ↦ by cases h) fun h ↦ by cases h.1
  obtain ⟨back, hback⟩ := exists_back hshort
  have hlowS : isLowS vchSig flags = true := by
    rw [isLowS, decide_eq_true hlow]
    rfl
  rw [isCanonicalSignature_eq hstrict hshort hback, hlowS, List.getLast?_eq_getElem?, hback]
  simp only [Option.some.injEq, exists_eq_left', Bool.and_true, Option.map_id']
  split
  case isTrue htype =>
    exact iff_of_false (fun h ↦ by cases h) fun h ↦ not_isHashType_iff.mpr htype h.2
  case isFalse htype =>
    exact (and_iff_left (not_not.mp (mt not_isHashType_iff.mp htype))).symm

/-- **The accepted signatures.**  Nothing outside of the string is read, whatever the flags are. -/
theorem isCanonicalSignature_iff (vchSig : Valtype) (flags : Nat) :
    isCanonicalSignature vchSig flags ≠ none ∧ isValidSignatureEncoding vchSig ≠ none ∧
    (flags &&& scriptVerifyStrictenc = 0 → isCanonicalSignature vchSig flags = some true) ∧
    (flags &&& scriptVerifyStrictenc ≠ 0 → flags &&& scriptVerifyLowS = 0 →
      (isCanonicalSignature vchSig flags = some true ↔
        ∃ R S nHashType, IsDerSignature vchSig R S nHashType ∧ IsHashType nHashType) ∧
      (isCanonicalSignature vchSig flags = some true ↔
        isValidSignatureEncoding vchSig = some true ∧
          ∃ nHashType, vchSig.getLast? = some nHashType ∧ IsHashType nHashType)) := by
  obtain ⟨fOk, hfOk⟩ := isCanonicalSignature_total vchSig flags
  obtain ⟨fOk', hfOk'⟩ := isValidSignatureEncoding_total vchSig
  refine ⟨hfOk ▸ Option.some_ne_none fOk, hfOk' ▸ Option.some_ne_none fOk',
    isCanonicalSignature_of_not_strict, fun hstrict hlow ↦
      ⟨?_, isCanonicalSignature_iff_encoding hstrict hlow⟩⟩
  rw [isCanonicalSignature_iff_encoding hstrict hlow]
  constructor
  · rintro ⟨hvalid, back, hback, htype⟩
    rw [List.getLast?_eq_getElem?] at hback
    obtain ⟨R, S, hder⟩ := isDerSignature_of_isValidSignatureEncoding hvalid hback
    exact ⟨R, S, back, hder, htype⟩
  · rintro ⟨R, S, nHashType, hder, htype⟩
    obtain ⟨-, -, -, -, -, -, -, -, -, -, -, -, -, hback⟩ := hder.layout
    exact ⟨isValidSignatureEncoding_of_isDerSignature hder, nHashType,
      List.getLast?_eq_getElem?.trans hback, htype⟩

theorem isCanonicalSignature_iff_one :
    isCanonicalSignature [0x30, 6, 2, 1, 1, 2, 1, 1, 1] scriptVerifyStrictenc = some true := by
  have hone : IsDerInteger [1] :=
    ⟨List.cons_ne_nil _ _, fun first h ↦ Option.some.inj h ▸ rfl, fun second h ↦ by cases h⟩
  have hder : IsDerSignature [0x30, 6, 2, 1, 1, 2, 1, 1, 1] [1] [1] 1 :=
    ⟨by decide, ⟨6, 1, 1, rfl, rfl, rfl, rfl⟩, hone, hone⟩
  exact ((isCanonicalSignature_iff _ _).2.2.2 (by decide) (by decide)).1.mpr
    ⟨[1], [1], 1, hder, by rw [IsHashType]; decide⟩

/-- Without `SCRIPT_VERIFY_STRICTENC` there is no check. -/
theorem isCanonicalSignature_empty :
    isCanonicalSignature [] 0 = some true ∧
      ¬∃ R S nHashType, IsDerSignature [] R S nHashType ∧ IsHashType nHashType := by
  refine ⟨rfl, ?_⟩
  rintro ⟨R, S, nHashType, h, -⟩
  exact absurd h.size.1 (by decide)

end

end Fedoracoin
