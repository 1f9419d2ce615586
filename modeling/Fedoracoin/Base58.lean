import Fedoracoin.Lib.Radix
import Fedoracoin.Validation
import Mathlib.Data.List.GetD

/-!
# Base 58

`EncodeBase58` and `DecodeBase58`.  A string is the list of its bytes, up to the terminating NUL.
Both functions change the base of a number in a buffer, whose length is an estimate, and assert that
no carry is left; each leading zero of the bytes is a leading `1` of the string.
-/

namespace Fedoracoin

open Radix

/-! ## The functions -/

/-- "All alphanumeric characters except for "0", "I", "O", and "l"". -/
def pszBase58 : List UInt8 :=
  [
    '1', '2', '3', '4', '5', '6', '7', '8', '9', 'A', 'B', 'C', 'D', 'E', 'F', 'G', 'H', 'J', 'K',
    'L', 'M', 'N', 'P', 'Q', 'R', 'S', 'T', 'U', 'V', 'W', 'X', 'Y', 'Z', 'a', 'b', 'c', 'd', 'e',
    'f', 'g', 'h', 'i', 'j', 'k', 'm', 'n', 'o', 'p', 'q', 'r', 's', 't', 'u', 'v', 'w', 'x', 'y',
    'z'
  ].map Char.toUInt8

/-- `isspace`, in the C locale. -/
def isspace (c : UInt8) : Bool := decide (c = 0x20 ∨ 0x09 ≤ c ∧ c ≤ 0x0d)

/-- `tolower`, in the C locale. -/
def tolower (c : UInt8) : UInt8 := if 'A'.toUInt8 ≤ c ∧ c ≤ 'Z'.toUInt8 then c + 0x20 else c

/-- "Process the characters": `b256`, and what is left of the string; `none` is `return false`. -/
def decodeChars : (b256 : List Nat) → (psz : List UInt8) →
    Except Failure (Option (List Nat × List UInt8))
  | b256, [] => .ok (some (b256, []))
  | b256, c :: psz =>
      if isspace c then .ok (some (b256, c :: psz))
      else
        match pszBase58.findIdx? (· = c) with
        | none => .ok none
        | some ch =>
            match convertDigit 256 58 b256 ch with
            | none => .error .assertion
            | some b256 => decodeChars b256 psz

/-- `DecodeBase58`: the bytes, or `none` for `false`. -/
def decodeBase58 (psz : List UInt8) : Except Failure (Option (List UInt8)) := do
  let psz := psz.dropWhile isspace
  let zeroes := (psz.takeWhile (· = 0x31)).length
  let psz := psz.dropWhile (· = 0x31)
  match ← decodeChars (List.replicate (psz.length * 733 / 1000 + 1) 0) psz with
  | none => return none
  | some (b256, psz) =>
      if psz.dropWhile isspace ≠ [] then return none
      else return some (List.replicate zeroes 0 ++ (b256.dropWhile (· = 0)).map UInt8.ofNat)

def encodeBase58 (vch : List UInt8) : Except Failure (List UInt8) :=
  let zeroes := (vch.takeWhile (· = 0)).length
  let vch := vch.dropWhile (· = 0)
  match convert 58 256 (vch.length * 138 / 100 + 1) (vch.map UInt8.toNat) with
  | none => .error .assertion
  | some b58 =>
      .ok (List.replicate zeroes 0x31 ++ (b58.dropWhile (· = 0)).map fun d ↦ pszBase58.getD d 0)

/-- `str.c_str()`. -/
def cStr (str : List UInt8) : List UInt8 := str.takeWhile (· ≠ 0)

theorem cStr_eq_self {s : List UInt8} (h : 0 ∉ s) : cStr s = s := by
  rw [cStr, List.takeWhile_eq_self_iff]
  rintro c hc
  refine decide_eq_true ?_
  rintro rfl
  exact h hc

/-- A string without the whitespace around it. -/
def strip (s : List UInt8) : List UInt8 := (s.dropWhile isspace).rdropWhile isspace

/-! ## The alphabet -/

/-- The character of a digit. -/
def base58Char (d : Nat) : UInt8 := pszBase58.getD d 0

theorem base58Char_eq {d : Nat} (hd : d < pszBase58.length) : base58Char d = pszBase58[d] :=
  List.getD_eq_getElem _ _ hd

/-- The characters stand in the order of their codes. -/
theorem base58Char_lt {e d : Nat} (he : e < d) (hd : d < 58) : base58Char e < base58Char d := by
  have hsorted : pszBase58.Pairwise (· < ·) := List.isChain_iff_pairwise.mp (by decide +kernel)
  have hlength : pszBase58.length = 58 := rfl
  rw [base58Char_eq (by omega), base58Char_eq (by omega)]
  exact List.pairwise_iff_getElem.mp hsorted e d _ _ he

/-- Characters are different, and none is whitespace or NUL; the first one is `1`. -/
theorem base58Char_spec {d : Nat} (hd : d < 58) :
    pszBase58.findIdx? (· = base58Char d) = some d ∧ isspace (base58Char d) = false ∧
      base58Char d ≠ 0 ∧ (base58Char d = 0x31 ↔ d = 0) := by
  have hchars : ∀ c ∈ pszBase58, isspace c = false ∧ c ≠ 0 := by decide +kernel
  have hlength : d < pszBase58.length := hd
  obtain ⟨hspace, hnul⟩ := hchars (base58Char d)
    (base58Char_eq hlength ▸ List.getElem_mem hlength)
  refine ⟨List.findIdx?_eq_some_iff_getElem.mpr ⟨hlength, ?_, fun e he ↦ ?_⟩, hspace, hnul,
    fun heq ↦ ?_, ?_⟩
  · exact decide_eq_true (base58Char_eq hlength).symm
  · rw [← base58Char_eq (he.trans hlength), decide_eq_true_eq]
    exact UInt8.ne_of_lt (base58Char_lt he hd)
  · by_contra hne
    exact absurd heq.symm (UInt8.ne_of_lt (base58Char_lt (Nat.pos_of_ne_zero hne) hd))
  · rintro rfl
    rfl

theorem base58Char_of_findIdx {c : UInt8} {d : Nat} (h : pszBase58.findIdx? (· = c) = some d) :
    d < 58 ∧ base58Char d = c := by
  obtain ⟨hlt, heq, -⟩ := List.findIdx?_eq_some_iff_getElem.mp h
  refine ⟨hlt, ?_⟩
  rw [base58Char, List.getD_eq_getElem _ _ hlt]
  exact of_decide_eq_true heq

section

variable {es ds b256 : List Nat} {size z : Nat} {s w rest trail lead : List UInt8} {c : UInt8}

/-! ## Strings -/

theorem dropWhile_eq_self {α : Type} {p : α → Bool} {l : List α}
    (h : ∀ a, l.head? = some a → p a = false) : l.dropWhile p = l := by
  cases l with
  | nil => rfl
  | cons a l => exact List.dropWhile_cons_of_neg (Bool.not_eq_true _ ▸ h a rfl)

/-- What is dropped, and what is left. -/
theorem dropWhile_append_eq {α : Type} {p : α → Bool} {l l' : List α} (h : ∀ a ∈ l, p a = true)
    (h' : ∀ a, l'.head? = some a → p a = false) : (l ++ l').dropWhile p = l' := by
  rw [List.dropWhile_append_of_pos h, dropWhile_eq_self h']

theorem takeWhile_append_eq {α : Type} {p : α → Bool} {l l' : List α} (h : ∀ a ∈ l, p a = true)
    (h' : ∀ a, l'.head? = some a → p a = false) : (l ++ l').takeWhile p = l := by
  rw [List.takeWhile_append_of_pos h]
  cases l' with
  | nil => rw [List.takeWhile_nil, List.append_nil]
  | cons a l' => rw [List.takeWhile_cons_of_neg (Bool.not_eq_true _ ▸ h' a rfl), List.append_nil]

/-- Leading elements that are all the same. -/
theorem exists_replicate {α : Type} [DecidableEq α] (a : α) (l : List α) :
    ∃ z l', l = List.replicate z a ++ l' ∧ l'.head? ≠ some a := by
  induction l with
  | nil => exact ⟨0, [], rfl, Option.some_ne_none a ∘ Eq.symm⟩
  | cons b l ih =>
      obtain ⟨z, l', rfl, hl'⟩ := ih
      rcases eq_or_ne b a with rfl | hne
      · exact ⟨z + 1, l', rfl, hl'⟩
      · refine ⟨0, b :: (List.replicate z a ++ l'), rfl, fun h ↦ hne (Option.some.inj h)⟩

theorem strip_eq (hlead : ∀ c ∈ lead, isspace c = true) (htrail : ∀ c ∈ trail, isspace c = true)
    (hs : ∀ c ∈ s, isspace c = false) : strip (lead ++ (s ++ trail)) = s := by
  have hfirst : (lead ++ (s ++ trail)).dropWhile isspace = (s ++ trail).dropWhile isspace :=
    List.dropWhile_append_of_pos hlead
  rw [strip, hfirst]
  cases s with
  | nil =>
      rw [List.nil_append, List.dropWhile_eq_nil_iff.mpr htrail]
      rfl
  | cons c s =>
      rw [dropWhile_eq_self fun b hb ↦ Option.some.inj hb ▸ hs c List.mem_cons_self,
        List.rdropWhile, List.reverse_append]
      rw [dropWhile_append_eq (fun b hb ↦ htrail b (List.mem_reverse.mp hb)), List.reverse_reverse]
      intro b hb
      exact hs b (List.mem_reverse.mp (List.mem_of_mem_head? hb))

/-! ## Decoding -/

/-- The digits at the start of a string. -/
theorem exists_base58Char (psz : List UInt8) :
    ∃ (es : List Nat) (rest : List UInt8), psz = es.map base58Char ++ rest ∧
      (∀ e ∈ es, e < 58) ∧
      ∀ c, rest.head? = some c → isspace c = true ∨ pszBase58.findIdx? (· = c) = none := by
  induction psz with
  | nil => exact ⟨[], [], rfl, by simp, by simp⟩
  | cons c psz ih =>
      cases hfind : pszBase58.findIdx? (· = c) with
      | none => exact ⟨[], c :: psz, rfl, by simp, fun b hb ↦ .inr (Option.some.inj hb ▸ hfind)⟩
      | some e =>
          obtain ⟨es, rest, rfl, hes, hrest⟩ := ih
          obtain ⟨he, rfl⟩ := base58Char_of_findIdx hfind
          exact ⟨e :: es, rest, rfl, List.forall_mem_cons.mpr ⟨he, hes⟩, hrest⟩

/-- The loop along digits. -/
theorem decodeChars_append (h : Holds 256 size (value 58 ds) b256) (hds : ∀ d ∈ ds, d < 58)
    (hes : ∀ e ∈ es, e < 58) (hsize : 58 ^ (ds.length + es.length) ≤ 256 ^ size) :
    ∃ b256', Holds 256 size (value 58 (ds ++ es)) b256' ∧
      decodeChars b256 (es.map base58Char ++ rest) = decodeChars b256' rest := by
  induction es generalizing ds b256 with
  | nil => exact ⟨b256, by rwa [List.append_nil], rfl⟩
  | cons e es ih =>
      rw [List.forall_mem_cons] at hes
      obtain ⟨hfind, hspace, -, -⟩ := base58Char_spec hes.1
      have hds' : ∀ d ∈ ds ++ [e], d < 58 :=
        List.forall_mem_append.mpr ⟨hds, List.forall_mem_singleton.mpr hes.1⟩
      have hlength : (ds ++ [e]).length = ds.length + 1 := by
        rw [List.length_append, List.length_singleton]
      have hfits : value 58 ds * 58 + e < 256 ^ size := by
        have hlt := value_lt (by norm_num) hds'
        rw [value_concat, hlength] at hlt
        rw [List.length_cons] at hsize
        exact hlt.trans_le ((Nat.pow_le_pow_right (by norm_num) (by omega)).trans hsize)
      obtain ⟨b256', hdigit, hholds⟩ := h.convertDigit (by norm_num) hfits
      rw [← value_concat] at hholds
      obtain ⟨b256'', hholds', hrest⟩ := ih hholds hds' hes.2
        (by rwa [hlength, Nat.add_assoc, Nat.add_comm 1, ← List.length_cons])
      refine ⟨b256'', by rwa [List.append_assoc] at hholds', ?_⟩
      rw [List.map_cons, List.cons_append, decodeChars, hspace, if_neg Bool.false_ne_true, hfind]
      dsimp only
      rw [hdigit]
      exact hrest

/-- The buffers are long enough: "log(58) / log(256), rounded up", and the other way round. -/
theorem size_b256 (n : Nat) : 58 ^ n ≤ 256 ^ (n * 733 / 1000 + 1) :=
  pow_le_pow_of_ratio (by norm_num) (by norm_num) (by decide +kernel) n

theorem size_b58 (n : Nat) : 256 ^ n ≤ 58 ^ (n * 138 / 100 + 1) :=
  pow_le_pow_of_ratio (by norm_num) (by norm_num) (by decide +kernel) n

theorem map_toNat_ofNat (h : ∀ d ∈ ds, d < 256) : (ds.map UInt8.ofNat).map UInt8.toNat = ds := by
  rw [List.map_map]
  exact (List.map_congr_left fun d hd ↦ UInt8.toNat_ofNat_of_lt' (h d hd)).trans (List.map_id ds)

/-- Where the loop stops: at the end, at whitespace, or at a character that is no digit. -/
def StopsAt (rest : List UInt8) : Prop :=
  ∀ c, rest.head? = some c → isspace c = true ∨ pszBase58.findIdx? (· = c) = none

theorem decodeChars_digits (rest : List UInt8) (hes : ∀ e ∈ es, e < 58) {n : Nat}
    (hn : es.length ≤ n) :
    ∃ b256, Holds 256 (n * 733 / 1000 + 1) (value 58 es) b256 ∧
      decodeChars (List.replicate (n * 733 / 1000 + 1) 0) (es.map base58Char ++ rest) =
        decodeChars b256 rest := by
  have hempty : Holds 256 (n * 733 / 1000 + 1) (value 58 []) (List.replicate _ 0) :=
    ⟨List.length_replicate, fun d hd ↦ List.eq_of_mem_replicate hd ▸ (by norm_num),
      value_replicate_zero 256 _⟩
  have hsize : 58 ^ (0 + es.length) ≤ 256 ^ (n * 733 / 1000 + 1) := by
    rw [Nat.zero_add]
    exact (Nat.pow_le_pow_right (by norm_num) hn).trans (size_b256 n)
  obtain ⟨b256, hholds, hchars⟩ :=
    decodeChars_append hempty (nofun) hes hsize
  exact ⟨b256, hholds, hchars⟩

theorem decodeChars_of_isspace (h : isspace c = true) :
    decodeChars b256 (c :: rest) = .ok (some (b256, c :: rest)) := by
  rw [decodeChars, if_pos h]

theorem decodeChars_of_none (h : isspace c = false) (hnone : pszBase58.findIdx? (· = c) = none) :
    decodeChars b256 (c :: rest) = .ok none := by
  rw [decodeChars, h, if_neg Bool.false_ne_true, hnone]

/-- A string cut at its parts. -/
theorem decodeBase58_append (z : Nat) (hlead : ∀ c ∈ lead, isspace c = true)
    (hfirst : ∀ c, (List.replicate z 0x31 ++ (es.map base58Char ++ rest)).head? = some c →
      isspace c = false)
    (hes : IsNumeral 58 es) (hrest : StopsAt rest) :
    ∃ w : List UInt8, IsNumeral 256 (w.map UInt8.toNat) ∧
      value 256 (w.map UInt8.toNat) = value 58 es ∧
      decodeBase58 (lead ++ (List.replicate z 0x31 ++ (es.map base58Char ++ rest))) =
        .ok (if rest.all isspace then some (List.replicate z 0 ++ w) else none) := by
  have hone : ∀ c, (es.map base58Char ++ rest).head? = some c → decide (c = 0x31) = false := by
    intro c hc
    refine decide_eq_false ?_
    rintro rfl
    cases es with
    | nil =>
        obtain h | h := hrest 0x31 hc
        · cases h
        · cases h
    | cons e es =>
        obtain ⟨-, -, -, hzero⟩ := base58Char_spec (hes.lt e List.mem_cons_self)
        exact hes.head_ne_zero e rfl (hzero.mp (Option.some.inj hc))
  have hmem : ∀ c ∈ List.replicate z (0x31 : UInt8), decide (c = 0x31) = true :=
    fun c hc ↦ decide_eq_true (List.eq_of_mem_replicate hc)
  obtain ⟨b256, hholds, hchars⟩ := decodeChars_digits rest hes.lt
    (n := (es.map base58Char ++ rest).length) (by
      rw [List.length_append, List.length_map]
      exact Nat.le_add_right _ _)
  have hnumeral := isNumeral_dropWhile hholds.lt
  have htoNat : ((b256.dropWhile (· = 0)).map UInt8.ofNat).map UInt8.toNat =
      b256.dropWhile (· = 0) := map_toNat_ofNat hnumeral.lt
  refine ⟨(b256.dropWhile (· = 0)).map UInt8.ofNat, htoNat.symm ▸ hnumeral, ?_, ?_⟩
  · rw [htoNat, value_dropWhile_zero, hholds.value]
  · rw [decodeBase58, dropWhile_append_eq hlead hfirst, takeWhile_append_eq hmem hone,
      dropWhile_append_eq hmem hone, List.length_replicate, hchars]
    cases rest with
    | nil => rfl
    | cons c rest =>
        cases hspace : isspace c with
        | true =>
            rw [decodeChars_of_isspace hspace]
            by_cases hall : (c :: rest).all isspace = true
            · rw [if_pos hall]
              change (if (c :: rest).dropWhile isspace ≠ [] then _ else _) = _
              rw [if_neg (not_not.mpr (List.dropWhile_eq_nil_iff.mpr (List.all_eq_true.mp hall)))]
              rfl
            · rw [if_neg hall]
              change (if (c :: rest).dropWhile isspace ≠ [] then _ else _) = _
              rw [if_pos fun h ↦ hall (List.all_eq_true.mpr (List.dropWhile_eq_nil_iff.mp h))]
              rfl
        | false =>
            have hnone := (hrest c rfl).resolve_left (hspace ▸ Bool.false_ne_true)
            rw [decodeChars_of_none hspace hnone, List.all_cons, hspace, Bool.false_and,
              if_neg Bool.false_ne_true]
            rfl

/-! ## Encoding -/

/-- Bytes cut behind their leading zeros. -/
theorem encodeBase58_append (z : Nat) (hw : IsNumeral 256 (w.map UInt8.toNat)) :
    ∃ es, IsNumeral 58 es ∧ value 58 es = value 256 (w.map UInt8.toNat) ∧
      encodeBase58 (List.replicate z 0 ++ w) =
        .ok (List.replicate z 0x31 ++ es.map base58Char) := by
  have hmem : ∀ c ∈ List.replicate z (0 : UInt8), decide (c = 0) = true :=
    fun c hc ↦ decide_eq_true (List.eq_of_mem_replicate hc)
  have hzero : ∀ c, w.head? = some c → decide (c = 0) = false := by
    intro c hc
    refine decide_eq_false ?_
    rintro rfl
    exact hw.head_ne_zero 0 (by rw [List.head?_map, hc]; rfl) rfl
  have hsize := size_b58 (w.map UInt8.toNat).length
  obtain ⟨b58, hconvert, hholds⟩ := convert_holds (by norm_num) (by norm_num) hw.lt hsize
  rw [List.length_map] at hconvert
  refine ⟨b58.dropWhile (· = 0), isNumeral_dropWhile hholds.lt, ?_, ?_⟩
  · rw [value_dropWhile_zero, hholds.value]
  · rw [encodeBase58, takeWhile_append_eq hmem hzero, dropWhile_append_eq hmem hzero,
      List.length_replicate, hconvert]
    rfl

theorem isNumeral_of_head (h : w.head? ≠ some 0) : IsNumeral 256 (w.map UInt8.toNat) where
  lt := List.forall_mem_map.mpr fun c _ ↦ c.toNat_lt
  head_ne_zero d hd := by
    rw [List.head?_map, Option.map_eq_some_iff] at hd
    obtain ⟨c, hc, rfl⟩ := hd
    intro hzero
    exact h (hc.trans (congrArg some (UInt8.toNat_inj.mp hzero)))

theorem eq_of_value_toNat {w' : List UInt8} (hw : IsNumeral 256 (w.map UInt8.toNat))
    (hw' : IsNumeral 256 (w'.map UInt8.toNat))
    (h : value 256 (w.map UInt8.toNat) = value 256 (w'.map UInt8.toNat)) : w = w' :=
  List.map_injective_iff.mpr (fun _ _ ↦ UInt8.toNat_inj.mp)
    (hw.eq_of_value (by norm_num) hw' h)

theorem isspace_digits (hes : ∀ e ∈ es, e < 58) :
    ∀ c ∈ List.replicate z 0x31 ++ es.map base58Char, isspace c = false := by
  rw [List.forall_mem_append, List.forall_mem_map]
  exact ⟨fun c hc ↦ List.eq_of_mem_replicate hc ▸ (by decide),
    fun e he ↦ (base58Char_spec (hes e he)).2.1⟩

/-! ## Round trips -/

theorem decodeBase58_encodeBase58 (v : List UInt8) :
    ∃ s, encodeBase58 v = .ok s ∧ decodeBase58 s = .ok (some v) := by
  obtain ⟨z, w, rfl, hw⟩ := exists_replicate (0 : UInt8) v
  have hnumeral := isNumeral_of_head hw
  obtain ⟨es, hes, hvalue, hencode⟩ := encodeBase58_append z hnumeral
  have hspace := isspace_digits (z := z) hes.lt
  have hlead : ∀ c ∈ ([] : List UInt8), isspace c = true := nofun
  have hstops : StopsAt [] := fun c hc ↦ by cases hc
  have hfirst : ∀ c, (List.replicate z 0x31 ++ (es.map base58Char ++ [])).head? = some c →
      isspace c = false := by
    intro c hc
    rw [List.append_nil] at hc
    exact hspace c (List.mem_of_mem_head? hc)
  obtain ⟨w', hnumeral', hvalue', hdecode⟩ := decodeBase58_append z hlead hfirst hes hstops
  obtain rfl := eq_of_value_toNat hnumeral' hnumeral (hvalue'.trans hvalue)
  rw [List.nil_append, List.append_nil, List.all_nil, if_pos rfl] at hdecode
  exact ⟨_, hencode, hdecode⟩

/-- Every string is cut at its parts. -/
theorem exists_parts (psz : List UInt8) :
    ∃ (lead : List UInt8) (z : Nat) (es : List Nat) (rest : List UInt8),
      psz = lead ++ (List.replicate z 0x31 ++ (es.map base58Char ++ rest)) ∧
      (∀ c ∈ lead, isspace c = true) ∧
      (∀ c, (List.replicate z 0x31 ++ (es.map base58Char ++ rest)).head? = some c →
        isspace c = false) ∧
      IsNumeral 58 es ∧ StopsAt rest := by
  obtain ⟨z, psz', hones, hhead⟩ := exists_replicate (0x31 : UInt8) (psz.dropWhile isspace)
  obtain ⟨es, rest, rfl, hes, hrest⟩ := exists_base58Char psz'
  refine ⟨psz.takeWhile isspace, z, es, rest, ?_, fun c hc ↦ List.mem_takeWhile_imp hc, ?_,
    ⟨hes, ?_⟩, hrest⟩
  · rw [← hones, List.takeWhile_append_dropWhile]
  · intro c hc
    rw [← hones] at hc
    have h := List.head?_dropWhile_not isspace psz
    rw [hc] at h
    simpa using h
  · rintro e he rfl
    cases es with
    | nil => cases he
    | cons e es =>
        obtain rfl := Option.some.inj he
        exact hhead rfl

/-- What is decoded is encoded as the string without its space. -/
theorem encodeBase58_decodeBase58 (psz : List UInt8) :
    ∃ r, decodeBase58 psz = .ok r ∧ ∀ v, r = some v → encodeBase58 v = .ok (strip psz) := by
  obtain ⟨lead, z, es, rest, rfl, hlead, hfirst, hes, hstops⟩ := exists_parts psz
  obtain ⟨w, hnumeral, hvalue, hdecode⟩ := decodeBase58_append z hlead hfirst hes hstops
  refine ⟨_, hdecode, fun v hv ↦ ?_⟩
  split at hv
  case isFalse => cases hv
  case isTrue hrest =>
    obtain rfl := Option.some.inj hv
    obtain ⟨es', hes', hvalue', hencode⟩ := encodeBase58_append z hnumeral
    obtain rfl := hes'.eq_of_value (by norm_num) hes (hvalue'.trans hvalue)
    rw [hencode, ← List.append_assoc (List.replicate z _),
      strip_eq hlead (List.all_eq_true.mp hrest) (isspace_digits hes.lt)]

/-- **Base 58 loses nothing**, and no carry is left. -/
theorem base58_roundTrip :
    (∀ v, ∃ s, encodeBase58 v = .ok s ∧ decodeBase58 s = .ok (some v)) ∧
      ∀ psz, ∃ r, decodeBase58 psz = .ok r ∧
        ∀ v, r = some v → encodeBase58 v = .ok (strip psz) :=
  ⟨decodeBase58_encodeBase58, encodeBase58_decodeBase58⟩

end

end Fedoracoin
