import Fedoracoin.Base58
import Fedoracoin.Lib.Wire

/-!
# Hexadecimal text

`HexDigit` and `ParseHex`.  A string is the list of its characters, and what is behind its end is
the terminating NUL, which is no digit and no white space.  `ParseHex` ends at the first character
that does not fit, with the bytes it has.
-/

namespace Fedoracoin

def pUtilHexdigit : List Int :=
  [
    -1, -1, -1, -1, -1, -1, -1, -1, -1, -1, -1, -1, -1, -1, -1, -1,
    -1, -1, -1, -1, -1, -1, -1, -1, -1, -1, -1, -1, -1, -1, -1, -1,
    -1, -1, -1, -1, -1, -1, -1, -1, -1, -1, -1, -1, -1, -1, -1, -1,
    0, 1, 2, 3, 4, 5, 6, 7, 8, 9, -1, -1, -1, -1, -1, -1,
    -1, 0xa, 0xb, 0xc, 0xd, 0xe, 0xf, -1, -1, -1, -1, -1, -1, -1, -1, -1,
    -1, -1, -1, -1, -1, -1, -1, -1, -1, -1, -1, -1, -1, -1, -1, -1,
    -1, 0xa, 0xb, 0xc, 0xd, 0xe, 0xf, -1, -1, -1, -1, -1, -1, -1, -1, -1,
    -1, -1, -1, -1, -1, -1, -1, -1, -1, -1, -1, -1, -1, -1, -1, -1,
    -1, -1, -1, -1, -1, -1, -1, -1, -1, -1, -1, -1, -1, -1, -1, -1,
    -1, -1, -1, -1, -1, -1, -1, -1, -1, -1, -1, -1, -1, -1, -1, -1,
    -1, -1, -1, -1, -1, -1, -1, -1, -1, -1, -1, -1, -1, -1, -1, -1,
    -1, -1, -1, -1, -1, -1, -1, -1, -1, -1, -1, -1, -1, -1, -1, -1,
    -1, -1, -1, -1, -1, -1, -1, -1, -1, -1, -1, -1, -1, -1, -1, -1,
    -1, -1, -1, -1, -1, -1, -1, -1, -1, -1, -1, -1, -1, -1, -1, -1,
    -1, -1, -1, -1, -1, -1, -1, -1, -1, -1, -1, -1, -1, -1, -1, -1,
    -1, -1, -1, -1, -1, -1, -1, -1, -1, -1, -1, -1, -1, -1, -1, -1
  ]

def hexDigit (c : UInt8) : Int := pUtilHexdigit.getD c.toNat (-1)

def parseHex : (psz : List UInt8) → List UInt8
  | [] => []
  | c :: psz =>
      if isspace c then parseHex psz
      else if hexDigit c = -1 then []
      else
        match psz with
        | [] => []
        | d :: psz =>
            if hexDigit d = -1 then []
            else
              (UInt8.ofNat ((hexDigit c).toNat <<< 4) ||| UInt8.ofNat (hexDigit d).toNat) ::
                parseHex psz

/-! ## Digits -/

theorem hexDigit_cases (c : UInt8) :
    hexDigit c = -1 ∨ ((hexDigit c).toNat < 16 ∧ isspace c = false) :=
  Wire.forall_entry (p := fun c x ↦ x = -1 ∨ (x.toNat < 16 ∧ isspace c = false)) pUtilHexdigit
    (by decide +kernel) (by decide +kernel) (-1) c

theorem hexDigit_lt {c : UInt8} (h : hexDigit c ≠ -1) : (hexDigit c).toNat < 16 :=
  ((hexDigit_cases c).resolve_left h).1

theorem isspace_of_hexDigit {c : UInt8} (h : hexDigit c ≠ -1) : isspace c = false :=
  ((hexDigit_cases c).resolve_left h).2

/-- Two digits make a byte. -/
theorem or_of_digits (x : Nat) {y : Nat} (hy : y < 16) :
    UInt8.ofNat (x <<< 4) ||| UInt8.ofNat y = UInt8.ofNat (x * 16 + y) := by
  have hor := Nat.shiftLeft_add_eq_or_of_lt (i := 4) hy x
  rw [← UInt8.ofNat_or, ← hor, Nat.shiftLeft_eq]

/-! ## Text of bytes -/

/-- Two digits for each byte, and white space between the bytes. -/
inductive IsHexText : List UInt8 → List UInt8 → Prop where
  | nil : IsHexText [] []
  | space {c : UInt8} {s bytes : List UInt8} (hc : isspace c = true) (hs : IsHexText s bytes) :
      IsHexText (c :: s) bytes
  | byte {c d : UInt8} {s bytes : List UInt8} (hc : hexDigit c ≠ -1) (hd : hexDigit d ≠ -1)
      (hs : IsHexText s bytes) :
      IsHexText (c :: d :: s)
        (UInt8.ofNat ((hexDigit c).toNat * 16 + (hexDigit d).toNat) :: bytes)

theorem parseHex_space {c : UInt8} (hc : isspace c = true) (psz : List UInt8) :
    parseHex (c :: psz) = parseHex psz := by
  cases psz with
  | nil => simp [parseHex, hc]
  | cons d psz => rw [parseHex, if_pos hc]

theorem parseHex_byte {c d : UInt8} (hc : hexDigit c ≠ -1) (hd : hexDigit d ≠ -1)
    (psz : List UInt8) :
    parseHex (c :: d :: psz) =
      UInt8.ofNat ((hexDigit c).toNat * 16 + (hexDigit d).toNat) :: parseHex psz := by
  rw [parseHex, isspace_of_hexDigit hc, if_neg Bool.false_ne_true, if_neg hc, if_neg hd,
    or_of_digits _ (hexDigit_lt hd)]

theorem parseHex_of_isHexText {s bytes : List UInt8} (h : IsHexText s bytes) :
    parseHex s = bytes := by
  induction h with
  | nil => rfl
  | space hc _ ih => rw [parseHex_space hc, ih]
  | byte hc hd _ ih => rw [parseHex_byte hc hd, ih]

/-- No character of the text is anything but a digit or white space. -/
theorem IsHexText.mem {s bytes : List UInt8} (h : IsHexText s bytes) :
    ∀ c ∈ s, isspace c = true ∨ hexDigit c ≠ -1 := by
  induction h with
  | nil => exact nofun
  | space hc _ ih => exact List.forall_mem_cons.mpr ⟨Or.inl hc, ih⟩
  | byte hc hd _ ih =>
      exact List.forall_mem_cons.mpr ⟨Or.inr hc, List.forall_mem_cons.mpr ⟨Or.inr hd, ih⟩⟩

end Fedoracoin
