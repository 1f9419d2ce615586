import Fedoracoin.Base58
import Fedoracoin.Base64
import Fedoracoin.Lib.Regroup
import Fedoracoin.Lib.Wire

/-!
# Round trips of base 64 and base 32

Both codes bring bytes into digits of 6 or 5 bits and back (`Regrouped`), write each digit as a
character, and fill up with `=`.  A `PaddedCode` is what they have in common.  Its decoder accepts a
text exactly if it is the encoding of the bytes that it returns, up to the case of letters, with any
text behind it that begins outside of the alphabet (`PaddedCode.decode_valid_iff`).
-/

namespace Fedoracoin

open Regroup

/-! ## What is read of a text -/

/-- The digits up to the first character that is in no alphabet. -/
def ReadsDigits (table : UInt8 → Option Nat) (p : List UInt8) (ds : List Nat) (rest : List UInt8) :
    Prop :=
  ∃ cs, p = cs ++ rest ∧ cs.map table = ds.map some ∧ ∀ c ∈ rest.head?, table c = none

variable {table : UInt8 → Option Nat} {p rest s : List UInt8} {ds : List Nat}

theorem exists_readsDigits (table : UInt8 → Option Nat) (p : List UInt8) :
    ∃ ds rest, ReadsDigits table p ds rest := by
  induction p with
  | nil => exact ⟨[], [], [], rfl, rfl, fun c hc ↦ nomatch hc⟩
  | cons c p ih =>
      cases hc : table c with
      | none =>
          refine ⟨[], c :: p, [], rfl, rfl, fun c' hc' ↦ ?_⟩
          obtain rfl := Option.some.inj hc'
          exact hc
      | some d =>
          obtain ⟨ds, rest, cs, rfl, hcs, hrest⟩ := ih
          exact ⟨d :: ds, rest, c :: cs, rfl, by rw [List.map_cons, hc, hcs, List.map_cons], hrest⟩

theorem decodeLoop_eq (step : DecodeState → Nat → DecodeState) (h : ReadsDigits table p ds rest)
    (st : DecodeState) : decodeLoop table step st p = (ds.foldl step st, rest) := by
  obtain ⟨cs, rfl, hcs, hrest⟩ := h
  induction cs generalizing ds st with
  | nil =>
      obtain rfl := List.map_eq_nil_iff.mp hcs.symm
      cases rest with
      | nil => rfl
      | cons c rest =>
          rw [List.nil_append, decodeLoop, hrest c rfl]
          rfl
  | cons c cs ih =>
      cases ds with
      | nil => exact absurd hcs (List.cons_ne_nil _ _)
      | cons d ds =>
          obtain ⟨hc, hcs⟩ := List.cons.inj hcs
          rw [List.cons_append, decodeLoop, hc, List.foldl_cons]
          exact ih (step st d) hcs

/-- The padding, and what follows it. -/
theorem requirePadding_iff {n : Nat} : requirePadding table n p = true ↔
    ∃ rest, p = List.replicate n '='.toUInt8 ++ rest ∧ ∀ c ∈ rest.head?, table c = none := by
  induction n generalizing p with
  | zero =>
      cases p with
      | nil => exact iff_of_true rfl ⟨[], rfl, fun c hc ↦ nomatch hc⟩
      | cons c p => simp [requirePadding]
  | succ n ih =>
      cases p with
      | nil => simp [requirePadding, List.replicate_succ]
      | cons c p =>
          rw [requirePadding, Bool.and_eq_true, decide_eq_true_eq, ih, List.replicate_succ]
          constructor
          · rintro ⟨rfl, rest, rfl, hrest⟩
            exact ⟨rest, rfl, hrest⟩
          · rintro ⟨rest, hp, hrest⟩
            obtain ⟨rfl, rfl⟩ := List.cons.inj hp
            exact ⟨rfl, rest, rfl, hrest⟩

/-! ## Codes with padding -/

/-- A code of bytes by digits of `width` bits.  `fold` brings letters to the case in which they are
written. -/
structure PaddedCode where
  width : Nat
  table : UInt8 → Option Nat
  chr : Nat → UInt8
  fold : UInt8 → UInt8
  /-- How many `=` follow if this number of bits is filled up. -/
  padding : Nat → Nat
  encode : List UInt8 → List UInt8
  decode : List UInt8 → List UInt8 × Bool
  width_le : width ≤ 8
  table_eq_some_iff : ∀ c d, table c = some d ↔ d < 2 ^ width ∧ fold c = chr d
  fold_chr : ∀ d < 2 ^ width, fold (chr d) = chr d
  fold_eq_pad_iff : ∀ c, fold c = '='.toUInt8 ↔ c = '='.toUInt8
  table_pad : table '='.toUInt8 = none
  encodes : ∀ bytes, ∃ ds n, encode bytes = ds.map chr ++ List.replicate (padding n) '='.toUInt8 ∧
    Regrouped width 8 ds (bytes.map UInt8.toNat) n 0 ∧ n < width
  decodes : ∀ {p ds rest}, ReadsDigits table p ds rest →
    ∃ n acc, Regrouped width 8 ds ((decode p).1.map UInt8.toNat) n acc ∧ n < 8 ∧
      ((decode p).2 = false ↔ n < width ∧ acc = 0 ∧ requirePadding table (padding n) rest = true)

namespace PaddedCode

variable {C : PaddedCode} {bytes cs : List UInt8} {n : Nat}

/-- What is written for digits is read as these digits. -/
theorem map_table_eq_iff (hds : ∀ d ∈ ds, d < 2 ^ C.width) :
    cs.map C.table = ds.map some ↔ cs.map C.fold = ds.map C.chr := by
  induction cs generalizing ds with
  | nil =>
      cases ds with
      | nil => exact iff_of_true rfl rfl
      | cons d ds => exact iff_of_false (List.cons_ne_nil _ _).symm (List.cons_ne_nil _ _).symm
  | cons c cs ih =>
      cases ds with
      | nil => exact iff_of_false (List.cons_ne_nil _ _) (List.cons_ne_nil _ _)
      | cons d ds =>
          obtain ⟨hd, hds⟩ := List.forall_mem_cons.mp hds
          rw [List.map_cons, List.map_cons, List.map_cons, List.map_cons, List.cons_eq_cons,
            List.cons_eq_cons, ih hds, C.table_eq_some_iff, and_iff_right hd]

theorem map_fold_eq_replicate_iff : s.map C.fold = List.replicate n '='.toUInt8 ↔
    s = List.replicate n '='.toUInt8 := by
  rw [List.eq_replicate_iff, List.eq_replicate_iff, List.length_map, List.forall_mem_map]
  simp only [C.fold_eq_pad_iff]

theorem head?_padding (hrest : ∀ c ∈ rest.head?, C.table c = none) :
    ∀ c ∈ (List.replicate n '='.toUInt8 ++ rest).head?, C.table c = none := by
  cases n with
  | zero => exact hrest
  | succ n =>
      intro c hc
      obtain rfl := Option.some.inj hc
      exact C.table_pad

/-- The text that stands for bytes is read, whatever follows outside of the alphabet. -/
theorem decode_append (hs : s.map C.fold = C.encode bytes)
    (hrest : ∀ c ∈ rest.head?, C.table c = none) : C.decode (s ++ rest) = (bytes, false) := by
  obtain ⟨ds, n, hencode, hregroup, hn⟩ := C.encodes bytes
  rw [hencode, List.map_eq_append_iff] at hs
  obtain ⟨cs, eqs, rfl, hcs, heqs⟩ := hs
  obtain rfl := map_fold_eq_replicate_iff.mp heqs
  have hreads : ReadsDigits C.table (cs ++ List.replicate (C.padding n) '='.toUInt8 ++ rest) ds
      (List.replicate (C.padding n) '='.toUInt8 ++ rest) :=
    ⟨cs, List.append_assoc _ _ _, (map_table_eq_iff hregroup.lt_in).mpr hcs, head?_padding hrest⟩
  obtain ⟨n', acc, hregroup', hn', hvalid⟩ := C.decodes hreads
  obtain ⟨hbytes, rfl, rfl⟩ := hregroup.unique hregroup' (hn.trans_le C.width_le) hn'
  have hflag := hvalid.mpr ⟨hn, rfl, requirePadding_iff.mpr ⟨rest, rfl, hrest⟩⟩
  have hinj := List.map_injective_iff.mpr fun (a b : UInt8) h ↦ UInt8.toNat_inj.mp h
  exact Prod.ext (hinj hbytes).symm hflag

theorem map_fold_encode (C : PaddedCode) (bytes : List UInt8) :
    (C.encode bytes).map C.fold = C.encode bytes := by
  obtain ⟨ds, n, hencode, hregroup, -⟩ := C.encodes bytes
  rw [hencode, List.map_append, map_fold_eq_replicate_iff.mpr rfl, List.map_map]
  congr 1
  exact List.map_congr_left fun d hd ↦ C.fold_chr d (hregroup.lt_in d hd)

theorem decode_encode (C : PaddedCode) (bytes : List UInt8) :
    C.decode (C.encode bytes) = (bytes, false) := by
  have h := @decode_append [] _ C bytes (C.map_fold_encode bytes) fun c hc ↦ nomatch hc
  rwa [List.append_nil] at h

/-- **What the decoder accepts.** -/
theorem decode_valid_iff (C : PaddedCode) (p : List UInt8) : (C.decode p).2 = false ↔
    ∃ s rest, p = s ++ rest ∧ s.map C.fold = C.encode (C.decode p).1 ∧
      ∀ c ∈ rest.head?, C.table c = none := by
  constructor
  · intro h
    obtain ⟨ds, rest, hreads⟩ := exists_readsDigits C.table p
    obtain ⟨n, acc, hregroup, hn, hvalid⟩ := C.decodes hreads
    obtain ⟨hwidth, rfl, hpad⟩ := hvalid.mp h
    obtain ⟨rest, rfl, hrest⟩ := requirePadding_iff.mp hpad
    obtain ⟨cs, rfl, hcs, -⟩ := hreads
    obtain ⟨ds', n', hencode, hregroup', hn'⟩ := C.encodes (C.decode _).1
    obtain ⟨rfl, rfl⟩ := hregroup.unique_in hregroup' hwidth hn'
    refine ⟨cs ++ List.replicate (C.padding n) '='.toUInt8, rest, (List.append_assoc _ _ _).symm,
      ?_, hrest⟩
    rw [hencode, List.map_append, (map_table_eq_iff hregroup.lt_in).mp hcs,
      map_fold_eq_replicate_iff.mpr rfl]
  · rintro ⟨s, rest, hp, hs, hrest⟩
    rw [hp, decode_append (hp ▸ hs) hrest]

end PaddedCode

/-! ## Loops over the modes -/

/-- The bits that wait in each mode of an encoder or decoder. -/
abbrev ModeBits := List Nat

/-- What an encoder has written; the bits that wait stand where they are written. -/
def Encoding (width : Nat) (chr : Nat → UInt8) (modes : ModeBits) (bytes : List Nat)
    (s : EncodeState) : Prop :=
  ∃ ds n acc, s.strRet = ds.map chr ∧ Regrouped 8 width bytes ds n acc ∧ modes[s.mode]? = some n ∧
    (s.mode ≠ 0 → s.left = acc <<< (width - n))

/-- What a decoder has read. -/
def Decoding (width : Nat) (modes : ModeBits) (ds : List Nat) (s : DecodeState) : Prop :=
  ∃ n acc, Regrouped width 8 ds (s.vchRet.map UInt8.toNat) n acc ∧ modes[s.mode]? = some n ∧
    (s.mode ≠ 0 → s.left = acc)

section Loops

variable {width : Nat} {chr : Nat → UInt8} {modes : ModeBits} {bytes : List Nat}

theorem Encoding.foldl {step : EncodeState → Nat → EncodeState}
    (hstep : ∀ bytes s x, x < 2 ^ 8 → Encoding width chr modes bytes s →
      Encoding width chr modes (bytes ++ [x]) (step s x))
    (pch : List UInt8) {s : EncodeState} (hs : Encoding width chr modes bytes s) :
    Encoding width chr modes (bytes ++ pch.map UInt8.toNat)
      (pch.foldl (fun s b ↦ step s b.toNat) s) := by
  induction pch generalizing bytes s with
  | nil => rwa [List.map_nil, List.append_nil]
  | cons b pch ih =>
      have hnext := ih (hstep bytes s b.toNat b.toNat_lt hs)
      rwa [List.append_assoc] at hnext

theorem Decoding.foldl {step : DecodeState → Nat → DecodeState}
    (hstep : ∀ ds s x, x < 2 ^ width → Decoding width modes ds s →
      Decoding width modes (ds ++ [x]) (step s x))
    {ds' : List Nat} (hds' : ∀ d ∈ ds', d < 2 ^ width) {s : DecodeState}
    (hs : Decoding width modes ds s) :
    Decoding width modes (ds ++ ds') (ds'.foldl step s) := by
  induction ds' generalizing ds s with
  | nil => rwa [List.append_nil]
  | cons d ds' ih =>
      obtain ⟨hd, hds'⟩ := List.forall_mem_cons.mp hds'
      have hnext := ih hds' (hstep ds s d hd hs)
      rwa [List.append_assoc] at hnext

/-- A byte that comes out is pushed. -/
theorem push_byte {vchRet : List UInt8} {y n acc : Nat}
    (h : Regrouped width 8 ds (vchRet.map UInt8.toNat ++ [y]) n acc) :
    Regrouped width 8 ds ((vchRet ++ [UInt8.ofNat y]).map UInt8.toNat) n acc := by
  have hy : y < 2 ^ 8 := h.lt_out y (List.mem_append_right _ List.mem_cons_self)
  rwa [List.map_append, List.map_singleton, UInt8.toNat_ofNat_of_lt' hy]

theorem encoding_nil (width : Nat) (chr : Nat → UInt8) (modes : ModeBits) :
    Encoding width chr (0 :: modes) [] {} :=
  ⟨[], 0, 0, rfl, Regrouped.nil 8 width, rfl, fun h ↦ absurd rfl h⟩

theorem decoding_nil (width : Nat) (modes : ModeBits) : Decoding width (0 :: modes) [] {} :=
  ⟨0, 0, Regrouped.nil width 8, rfl, fun h ↦ absurd rfl h⟩

/-! One step from a mode in which bits wait. -/

theorem Encoding.push {s : EncodeState} {x n m mode left : Nat}
    (h : Encoding width chr modes bytes s) (hx : x < 2 ^ 8) (hmode : s.mode ≠ 0)
    (hn : modes[s.mode]? = some n) (hm : m ≤ 8) (hsum : n + 8 = m + width)
    (hnext : modes[mode]? = some m)
    (hleft : mode ≠ 0 → left = (x &&& (2 ^ m - 1)) <<< (width - m)) :
    Encoding width chr modes (bytes ++ [x])
      ⟨mode, left, s.strRet ++ [chr (s.left ||| x >>> m)]⟩ := by
  obtain ⟨ds, n', acc, hstr, hregroup, hn', hacc⟩ := h
  obtain rfl := Option.some.inj (hn.symm.trans hn')
  have hshift : 8 - m = width - n := by omega
  have hstep := hregroup.step hx hm hsum
  rw [hshift, ← hacc hmode] at hstep
  refine ⟨_, _, _, ?_, hstep, hnext, hleft⟩
  rw [hstr, List.map_append, List.map_singleton]

theorem Encoding.push_two {s : EncodeState} {x n m mode left : Nat}
    (h : Encoding width chr modes bytes s) (hx : x < 2 ^ 8) (hmode : s.mode ≠ 0)
    (hn : modes[s.mode]? = some n) (hm : m + width ≤ 8) (hsum : n + 8 = m + width + width)
    (hnext : modes[mode]? = some m)
    (hleft : mode ≠ 0 → left = (x &&& (2 ^ m - 1)) <<< (width - m)) :
    Encoding width chr modes (bytes ++ [x])
      ⟨mode, left, s.strRet ++ [chr (s.left ||| x >>> (m + width))] ++
        [chr (x >>> m &&& (2 ^ width - 1))]⟩ := by
  obtain ⟨ds, n', acc, hstr, hregroup, hn', hacc⟩ := h
  obtain rfl := Option.some.inj (hn.symm.trans hn')
  have hshift : 8 - (m + width) = width - n := by omega
  have hstep := hregroup.step_two hx hm hsum
  rw [hshift, ← hacc hmode] at hstep
  refine ⟨_, _, _, ?_, hstep, hnext, hleft⟩
  rw [hstr, List.map_append, List.map_append, List.map_singleton, List.map_singleton]

theorem Decoding.push {s : DecodeState} {x n m mode left : Nat} (h : Decoding width modes ds s)
    (hx : x < 2 ^ width) (hmode : s.mode ≠ 0) (hn : modes[s.mode]? = some n) (hm : m ≤ width)
    (hsum : n + width = m + 8) (hnext : modes[mode]? = some m)
    (hleft : mode ≠ 0 → left = x &&& (2 ^ m - 1)) :
    Decoding width modes (ds ++ [x])
      ⟨mode, left, s.vchRet ++ [UInt8.ofNat (s.left <<< (width - m) ||| x >>> m)]⟩ := by
  obtain ⟨n', acc, hregroup, hn', hacc⟩ := h
  obtain rfl := Option.some.inj (hn.symm.trans hn')
  obtain rfl := hacc hmode
  exact ⟨_, _, push_byte (hregroup.step hx hm hsum), hnext, hleft⟩

theorem Decoding.wait {s : DecodeState} {x n mode : Nat} (h : Decoding width modes ds s)
    (hx : x < 2 ^ width) (hmode : s.mode ≠ 0) (hn : modes[s.mode]? = some n)
    (hnext : modes[mode]? = some (n + width)) :
    Decoding width modes (ds ++ [x]) ⟨mode, s.left <<< width ||| x, s.vchRet⟩ := by
  obtain ⟨n', acc, hregroup, hn', hacc⟩ := h
  obtain rfl := Option.some.inj (hn.symm.trans hn')
  obtain rfl := hacc hmode
  exact ⟨_, _, hregroup.feed_or hx, hnext, fun _ ↦ rfl⟩

/-- No bit waits at the end. -/
theorem Encoding.whole {st : EncodeState} (h : Encoding width chr (0 :: modes) bytes st)
    (hmode : st.mode = 0) :
    ∃ ds, st.strRet = ds.map chr ∧ Regrouped width 8 ds bytes 0 0 := by
  obtain ⟨ds, n, acc, hstr, hregroup, hn, -⟩ := h
  rw [hmode] at hn
  obtain rfl := Option.some.inj hn
  exact ⟨ds, hstr, hregroup.symm⟩

/-- The last bits are filled up. -/
theorem Encoding.flush {st : EncodeState} {n : Nat} (h : Encoding width chr modes bytes st)
    (hmode : st.mode ≠ 0) (hn : modes[st.mode]? = some n) (hle : n ≤ width) :
    ∃ ds, st.strRet ++ [chr st.left] = ds.map chr ∧ Regrouped width 8 ds bytes (width - n) 0 := by
  obtain ⟨ds, n', acc, hstr, hregroup, hn', hleft⟩ := h
  obtain rfl := Option.some.inj (hn.symm.trans hn')
  refine ⟨_, ?_, hregroup.flush hle⟩
  rw [hstr, hleft hmode, List.map_append]
  rfl

end Loops

/-! ## Base 64 -/

theorem encode64Step_spec {bytes : List Nat} {s : EncodeState} {x : Nat} (hx : x < 2 ^ 8)
    (h : Encoding 6 char64 [0, 2, 4] bytes s) :
    Encoding 6 char64 [0, 2, 4] (bytes ++ [x]) (encode64Step s x) := by
  obtain ⟨mode, left, strRet⟩ := s
  match mode with
  | 0 =>
      obtain ⟨ds, n, acc, rfl, hregroup, hmode, -⟩ := h
      obtain rfl := Option.some.inj hmode
      obtain rfl := hregroup.acc_eq_zero
      have hnext := hregroup.step (m := 2) hx (by decide) rfl
      rw [Nat.zero_shiftLeft, Nat.zero_or] at hnext
      refine ⟨_, _, _, ?_, hnext, rfl, fun _ ↦ rfl⟩
      rw [List.map_append]
      rfl
  | 1 => exact h.push (m := 4) hx Nat.one_ne_zero rfl (by decide) rfl rfl fun _ ↦ rfl
  | 2 =>
      exact h.push_two (m := 0) hx (Nat.succ_ne_zero _) rfl (by decide) rfl rfl
        fun h ↦ absurd rfl h
  | mode + 3 =>
      obtain ⟨ds, n, acc, -, -, hmode, -⟩ := h
      cases hmode

theorem decode64Step_spec {s : DecodeState} {x : Nat} (hx : x < 2 ^ 6)
    (h : Decoding 6 [0, 6, 4, 2] ds s) :
    Decoding 6 [0, 6, 4, 2] (ds ++ [x]) (decode64Step s x) := by
  obtain ⟨mode, left, vchRet⟩ := s
  match mode with
  | 0 =>
      obtain ⟨n, acc, hregroup, hmode, -⟩ := h
      obtain rfl := Option.some.inj hmode
      obtain rfl := hregroup.acc_eq_zero
      have hnext := hregroup.feed_or hx
      rw [Nat.zero_shiftLeft, Nat.zero_or] at hnext
      exact ⟨_, _, hnext, rfl, fun _ ↦ rfl⟩
  | 1 => exact h.push (m := 4) hx Nat.one_ne_zero rfl (by decide) rfl rfl fun _ ↦ rfl
  | 2 => exact h.push (m := 2) hx (Nat.succ_ne_zero _) rfl (by decide) rfl rfl fun _ ↦ rfl
  | 3 =>
      exact h.push (m := 0) hx (Nat.succ_ne_zero _) rfl (by decide) rfl rfl
        fun h ↦ absurd rfl h
  | mode + 4 =>
      obtain ⟨n, acc, -, hmode, -⟩ := h
      cases hmode

/-- How many `=` stand for the bits of the last digit that are filled up. -/
def padding64 (n : Nat) : Nat := [0, 0, 1, 0, 2].getD n 0

theorem encodes64 (bytes : List UInt8) : ∃ ds n,
    encodeBase64 bytes = ds.map char64 ++ List.replicate (padding64 n) '='.toUInt8 ∧
      Regrouped 6 8 ds (bytes.map UInt8.toNat) n 0 ∧ n < 6 := by
  have h := (encoding_nil 6 char64 [2, 4]).foldl (fun _ _ _ hx h ↦ encode64Step_spec hx h) bytes
  rw [List.nil_append] at h
  rw [encodeBase64]
  generalize bytes.foldl (fun s b ↦ encode64Step s b.toNat) {} = st at h
  match hmode : st.mode with
  | 0 =>
      obtain ⟨ds, hds, hregroup⟩ := h.whole hmode
      exact ⟨ds, 0, by simp [hds, padding64], hregroup, by decide⟩
  | 1 =>
      obtain ⟨ds, hds, hregroup⟩ := h.flush (n := 2) (by simp [hmode]) (by simp [hmode]) (by decide)
      exact ⟨ds, 4, by simp [← hds, padding64, List.replicate], hregroup, by decide⟩
  | 2 =>
      obtain ⟨ds, hds, hregroup⟩ := h.flush (n := 4) (by simp [hmode]) (by simp [hmode]) (by decide)
      exact ⟨ds, 2, by simp [← hds, padding64], hregroup, by decide⟩
  | mode + 3 =>
      obtain ⟨ds, n, acc, -, -, hn, -⟩ := h
      exact absurd hn (by simp [hmode])

theorem ReadsDigits.lt {k : Nat} (htable : ∀ c d, table c = some d → d < k)
    (h : ReadsDigits table p ds rest) : ∀ d ∈ ds, d < k := by
  obtain ⟨cs, -, hcs, -⟩ := h
  intro d hd
  have hmem : some d ∈ cs.map table := hcs ▸ List.mem_map_of_mem hd
  obtain ⟨c, -, hc⟩ := List.mem_map.mp hmem
  exact htable c d hc

theorem ReadsDigits.requirePadding_zero (h : ReadsDigits table p ds rest) :
    requirePadding table 0 rest = true := by
  obtain ⟨-, -, -, hrest⟩ := h
  exact requirePadding_iff.mpr ⟨rest, rfl, hrest⟩

/-- A property of the characters that a table has values for. -/
theorem forall_lookup {p : UInt8 → Nat → Prop} (table : List Int) (hlength : table.length = 256)
    (h : ∀ e ∈ table.zipIdx, e.1 ≠ -1 → p (UInt8.ofNat e.2) e.1.toNat) (c : UInt8) :
    ∀ d ∈ lookup table c, p c d := by
  intro d hd
  have hentry := Wire.forall_entry (p := fun c x ↦ x ≠ -1 → p c x.toNat) table hlength h (-1) c
  rw [lookup, Option.mem_def, Option.ite_none_left_eq_some] at hd
  obtain ⟨hdec, hd⟩ := hd
  rw [← Option.some.inj hd]
  exact hentry hdec

theorem pbase64_eq : pbase64 = [
    'A', 'B', 'C', 'D', 'E', 'F', 'G', 'H', 'I', 'J', 'K', 'L', 'M', 'N', 'O', 'P', 'Q', 'R', 'S',
    'T', 'U', 'V', 'W', 'X', 'Y', 'Z', 'a', 'b', 'c', 'd', 'e', 'f', 'g', 'h', 'i', 'j', 'k', 'l',
    'm', 'n', 'o', 'p', 'q', 'r', 's', 't', 'u', 'v', 'w', 'x', 'y', 'z', '0', '1', '2', '3', '4',
    '5', '6', '7', '8', '9', '+', '/'].map Char.toUInt8 :=
  congrArg (List.map Char.toUInt8) String.toList_ofList

theorem lookup64_char64 : ∀ d < 2 ^ 6, lookup decode64Table (char64 d) = some d := by
  simp only [char64, pbase64_eq]
  decide +kernel

theorem char64_lookup64 (c : UInt8) :
    ∀ d ∈ lookup decode64Table c, d < 2 ^ 6 ∧ char64 d = c := by
  refine forall_lookup (p := fun c d ↦ d < 2 ^ 6 ∧ char64 d = c) decode64Table ?_ ?_ c
  · decide +kernel
  · simp only [char64, pbase64_eq]
    decide +kernel

/-- The table is the inverse of the alphabet. -/
theorem lookup64_eq_some_iff (c : UInt8) (d : Nat) :
    lookup decode64Table c = some d ↔ d < 2 ^ 6 ∧ c = char64 d := by
  constructor
  · intro h
    obtain ⟨hd, hc⟩ := char64_lookup64 c d h
    exact ⟨hd, hc.symm⟩
  · rintro ⟨hd, rfl⟩
    exact lookup64_char64 d hd

theorem decodes64 (h : ReadsDigits (lookup decode64Table) p ds rest) : ∃ n acc,
    Regrouped 6 8 ds ((decodeBase64 p).1.map UInt8.toNat) n acc ∧ n < 8 ∧
      ((decodeBase64 p).2 = false ↔ n < 6 ∧ acc = 0 ∧
        requirePadding (lookup decode64Table) (padding64 n) rest = true) := by
  have hread := (decoding_nil 6 [6, 4, 2]).foldl (fun _ _ _ hx h ↦ decode64Step_spec hx h)
    (h.lt fun c d hc ↦ ((lookup64_eq_some_iff c d).mp hc).1)
  rw [List.nil_append] at hread
  have hzero := h.requirePadding_zero
  rw [decodeBase64, decodeLoop_eq decode64Step h]
  generalize ds.foldl decode64Step {} = st at hread
  obtain ⟨n, acc, hregroup, hn, hleft⟩ := hread
  refine ⟨n, acc, hregroup, ?_⟩
  change n < 8 ∧ (invalid64 st rest = false ↔ _)
  rw [invalid64]
  match hmode : st.mode with
  | 0 =>
      obtain rfl : 0 = n := by simpa [hmode] using hn
      simp [hregroup.acc_eq_zero, padding64, hzero]
  | 1 =>
      obtain rfl : 6 = n := by simpa [hmode] using hn
      simp
  | 2 =>
      obtain rfl : 4 = n := by simpa [hmode] using hn
      simp [hleft (by simp [hmode]), padding64]
  | 3 =>
      obtain rfl : 2 = n := by simpa [hmode] using hn
      simp [hleft (by simp [hmode]), padding64]
  | mode + 4 => simp [hmode] at hn

def base64Code : PaddedCode where
  width := 6
  table := lookup decode64Table
  chr := char64
  fold := id
  padding := padding64
  encode := encodeBase64
  decode := decodeBase64
  width_le := by decide
  table_eq_some_iff := lookup64_eq_some_iff
  fold_chr _ _ := rfl
  fold_eq_pad_iff _ := Iff.rfl
  table_pad := by decide
  encodes := encodes64
  decodes := decodes64

/-! ## Base 32 -/

theorem encode32Step_spec {bytes : List Nat} {s : EncodeState} {x : Nat} (hx : x < 2 ^ 8)
    (h : Encoding 5 char32 [0, 3, 1, 4, 2] bytes s) :
    Encoding 5 char32 [0, 3, 1, 4, 2] (bytes ++ [x]) (encode32Step s x) := by
  obtain ⟨mode, left, strRet⟩ := s
  match mode with
  | 0 =>
      obtain ⟨ds, n, acc, rfl, hregroup, hmode, -⟩ := h
      obtain rfl := Option.some.inj hmode
      obtain rfl := hregroup.acc_eq_zero
      have hnext := hregroup.step (m := 3) hx (by decide) rfl
      rw [Nat.zero_shiftLeft, Nat.zero_or] at hnext
      refine ⟨_, _, _, ?_, hnext, rfl, fun _ ↦ rfl⟩
      rw [List.map_append]
      rfl
  | 1 => exact h.push_two (m := 1) hx Nat.one_ne_zero rfl (by decide) rfl rfl fun _ ↦ rfl
  | 2 => exact h.push (m := 4) hx (Nat.succ_ne_zero _) rfl (by decide) rfl rfl fun _ ↦ rfl
  | 3 => exact h.push_two (m := 2) hx (Nat.succ_ne_zero _) rfl (by decide) rfl rfl fun _ ↦ rfl
  | 4 =>
      exact h.push_two (m := 0) hx (Nat.succ_ne_zero _) rfl (by decide) rfl rfl
        fun h ↦ absurd rfl h
  | mode + 5 =>
      obtain ⟨ds, n, acc, -, -, hmode, -⟩ := h
      cases hmode

theorem decode32Step_spec {s : DecodeState} {x : Nat} (hx : x < 2 ^ 5)
    (h : Decoding 5 [0, 5, 2, 7, 4, 1, 6, 3] ds s) :
    Decoding 5 [0, 5, 2, 7, 4, 1, 6, 3] (ds ++ [x]) (decode32Step s x) := by
  obtain ⟨mode, left, vchRet⟩ := s
  match mode with
  | 0 =>
      obtain ⟨n, acc, hregroup, hmode, -⟩ := h
      obtain rfl := Option.some.inj hmode
      obtain rfl := hregroup.acc_eq_zero
      have hnext := hregroup.feed_or hx
      rw [Nat.zero_shiftLeft, Nat.zero_or] at hnext
      exact ⟨_, _, hnext, rfl, fun _ ↦ rfl⟩
  | 1 => exact h.push (m := 2) hx Nat.one_ne_zero rfl (by decide) rfl rfl fun _ ↦ rfl
  | 2 => exact h.wait hx (Nat.succ_ne_zero _) rfl rfl
  | 3 => exact h.push (m := 4) hx (Nat.succ_ne_zero _) rfl (by decide) rfl rfl fun _ ↦ rfl
  | 4 => exact h.push (m := 1) hx (Nat.succ_ne_zero _) rfl (by decide) rfl rfl fun _ ↦ rfl
  | 5 => exact h.wait hx (Nat.succ_ne_zero _) rfl rfl
  | 6 => exact h.push (m := 3) hx (Nat.succ_ne_zero _) rfl (by decide) rfl rfl fun _ ↦ rfl
  | 7 =>
      exact h.push (m := 0) hx (Nat.succ_ne_zero _) rfl (by decide) rfl rfl
        fun h ↦ absurd rfl h
  | mode + 8 =>
      obtain ⟨n, acc, -, hmode, -⟩ := h
      cases hmode

def padding32 (n : Nat) : Nat := [0, 3, 6, 1, 4].getD n 0

theorem encodes32 (bytes : List UInt8) : ∃ ds n,
    encodeBase32 bytes = ds.map char32 ++ List.replicate (padding32 n) '='.toUInt8 ∧
      Regrouped 5 8 ds (bytes.map UInt8.toNat) n 0 ∧ n < 5 := by
  have h := (encoding_nil 5 char32 [3, 1, 4, 2]).foldl (fun _ _ _ hx h ↦ encode32Step_spec hx h)
    bytes
  rw [List.nil_append] at h
  rw [encodeBase32]
  generalize bytes.foldl (fun s b ↦ encode32Step s b.toNat) {} = st at h
  match hmode : st.mode with
  | 0 =>
      obtain ⟨ds, hds, hregroup⟩ := h.whole hmode
      exact ⟨ds, 0, by simp [hds, padding32], hregroup, by decide⟩
  | 1 =>
      obtain ⟨ds, hds, hregroup⟩ := h.flush (n := 3) (by simp [hmode]) (by simp [hmode]) (by decide)
      exact ⟨ds, 2, by simp [← hds, padding32, nPadding], hregroup, by decide⟩
  | 2 =>
      obtain ⟨ds, hds, hregroup⟩ := h.flush (n := 1) (by simp [hmode]) (by simp [hmode]) (by decide)
      exact ⟨ds, 4, by simp [← hds, padding32, nPadding], hregroup, by decide⟩
  | 3 =>
      obtain ⟨ds, hds, hregroup⟩ := h.flush (n := 4) (by simp [hmode]) (by simp [hmode]) (by decide)
      exact ⟨ds, 1, by simp [← hds, padding32, nPadding], hregroup, by decide⟩
  | 4 =>
      obtain ⟨ds, hds, hregroup⟩ := h.flush (n := 2) (by simp [hmode]) (by simp [hmode]) (by decide)
      exact ⟨ds, 3, by simp [← hds, padding32, nPadding], hregroup, by decide⟩
  | mode + 5 =>
      obtain ⟨ds, n, acc, -, -, hn, -⟩ := h
      exact absurd hn (by simp [hmode])

theorem pbase32_eq : pbase32 = [
    'a', 'b', 'c', 'd', 'e', 'f', 'g', 'h', 'i', 'j', 'k', 'l', 'm', 'n', 'o', 'p', 'q', 'r', 's',
    't', 'u', 'v', 'w', 'x', 'y', 'z', '2', '3', '4', '5', '6', '7'].map Char.toUInt8 :=
  congrArg (List.map Char.toUInt8) String.toList_ofList

theorem lookup32_char32 : ∀ d < 2 ^ 5, lookup decode32Table (char32 d) = some d := by
  simp only [char32, pbase32_eq]
  decide +kernel

theorem char32_lookup32 (c : UInt8) :
    ∀ d ∈ lookup decode32Table c, d < 2 ^ 5 ∧ char32 d = tolower c := by
  refine forall_lookup (p := fun c d ↦ d < 2 ^ 5 ∧ char32 d = tolower c) decode32Table ?_ ?_ c
  · decide +kernel
  · simp only [char32, pbase32_eq]
    decide +kernel

/-- The table knows both cases. -/
theorem lookup32_tolower (c : UInt8) :
    lookup decode32Table (tolower c) = lookup decode32Table c := by
  have hcapital : ∀ c : UInt8, 'A'.toUInt8 ≤ c ∧ c ≤ 'Z'.toUInt8 →
      lookup decode32Table (c + 0x20) = lookup decode32Table c :=
    Wire.forall_byte (by decide +kernel)
  rw [tolower]
  split
  case isTrue hc => exact hcapital c hc
  case isFalse => rfl

theorem lookup32_eq_some_iff (c : UInt8) (d : Nat) :
    lookup decode32Table c = some d ↔ d < 2 ^ 5 ∧ tolower c = char32 d := by
  constructor
  · intro h
    obtain ⟨hd, hc⟩ := char32_lookup32 c d h
    exact ⟨hd, hc.symm⟩
  · rintro ⟨hd, hc⟩
    rw [← lookup32_tolower, hc, lookup32_char32 d hd]

theorem tolower_eq_pad_iff : ∀ c, tolower c = '='.toUInt8 ↔ c = '='.toUInt8 :=
  Wire.forall_byte (by decide +kernel)

theorem decodes32 (h : ReadsDigits (lookup decode32Table) p ds rest) : ∃ n acc,
    Regrouped 5 8 ds ((decodeBase32 p).1.map UInt8.toNat) n acc ∧ n < 8 ∧
      ((decodeBase32 p).2 = false ↔ n < 5 ∧ acc = 0 ∧
        requirePadding (lookup decode32Table) (padding32 n) rest = true) := by
  have hread := (decoding_nil 5 [5, 2, 7, 4, 1, 6, 3]).foldl
    (fun _ _ _ hx h ↦ decode32Step_spec hx h)
    (h.lt fun c d hc ↦ ((lookup32_eq_some_iff c d).mp hc).1)
  rw [List.nil_append] at hread
  have hzero := h.requirePadding_zero
  rw [decodeBase32, decodeLoop_eq decode32Step h]
  generalize ds.foldl decode32Step {} = st at hread
  obtain ⟨n, acc, hregroup, hn, hleft⟩ := hread
  refine ⟨n, acc, hregroup, ?_⟩
  change n < 8 ∧ (invalid32 st rest = false ↔ _)
  rw [invalid32]
  match hmode : st.mode with
  | 0 =>
      obtain rfl : 0 = n := by simpa [hmode] using hn
      simp [hregroup.acc_eq_zero, padding32, hzero]
  | 1 =>
      obtain rfl : 5 = n := by simpa [hmode] using hn
      simp
  | 2 =>
      obtain rfl : 2 = n := by simpa [hmode] using hn
      simp [hleft (by simp [hmode]), padding32]
  | 3 =>
      obtain rfl : 7 = n := by simpa [hmode] using hn
      simp
  | 4 =>
      obtain rfl : 4 = n := by simpa [hmode] using hn
      simp [hleft (by simp [hmode]), padding32]
  | 5 =>
      obtain rfl : 1 = n := by simpa [hmode] using hn
      simp [hleft (by simp [hmode]), padding32]
  | 6 =>
      obtain rfl : 6 = n := by simpa [hmode] using hn
      simp
  | 7 =>
      obtain rfl : 3 = n := by simpa [hmode] using hn
      simp [hleft (by simp [hmode]), padding32]
  | mode + 8 => simp [hmode] at hn

def base32Code : PaddedCode where
  width := 5
  table := lookup decode32Table
  chr := char32
  fold := tolower
  padding := padding32
  encode := encodeBase32
  decode := decodeBase32
  width_le := by decide
  table_eq_some_iff := lookup32_eq_some_iff
  fold_chr := by decide
  fold_eq_pad_iff := tolower_eq_pad_iff
  table_pad := by decide
  encodes := encodes32
  decodes := decodes32

/-! ## The two codes -/

/-- **Base 64 and base 32.**  What is encoded is decoded, and the flag is clear exactly for the
encoding of what is returned, in either case of letters for base 32, with anything behind it that
does not begin with a character of the alphabet. -/
theorem base64_base32 (bytes p : List UInt8) :
    decodeBase64 (encodeBase64 bytes) = (bytes, false) ∧
    decodeBase32 (encodeBase32 bytes) = (bytes, false) ∧
    ((decodeBase64 p).2 = false ↔ ∃ rest, p = encodeBase64 (decodeBase64 p).1 ++ rest ∧
      ∀ c ∈ rest.head?, lookup decode64Table c = none) ∧
    ((decodeBase32 p).2 = false ↔ ∃ s rest, p = s ++ rest ∧
      s.map tolower = encodeBase32 (decodeBase32 p).1 ∧
      ∀ c ∈ rest.head?, lookup decode32Table c = none) := by
  refine ⟨base64Code.decode_encode bytes, base32Code.decode_encode bytes, ?_,
    base32Code.decode_valid_iff p⟩
  refine (base64Code.decode_valid_iff p).trans ⟨?_, ?_⟩
  · rintro ⟨s, rest, hp, hs, hrest⟩
    have hid : s.map base64Code.fold = s := List.map_id s
    exact ⟨rest, hp.trans (congrArg (· ++ rest) (hid.symm.trans hs)), hrest⟩
  · rintro ⟨rest, hp, hrest⟩
    exact ⟨_, rest, hp, List.map_id _, hrest⟩

/-- Text behind the end, and capital letters. -/
theorem base64_base32_flag :
    (¬ ∀ p, (decodeBase64 p).2 = false → p = encodeBase64 (decodeBase64 p).1) ∧
    ¬ ∀ p, (decodeBase32 p).2 = false → p = encodeBase32 (decodeBase32 p).1 := by
  constructor
  · intro h
    have htext := h ("AAAA!".toList.map Char.toUInt8) (by decide +kernel)
    exact absurd htext (by decide +kernel)
  · intro h
    have htext := h ("AE======".toList.map Char.toUInt8) (by decide +kernel)
    exact absurd htext (by decide +kernel)

end Fedoracoin
