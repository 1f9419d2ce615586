import Fedoracoin.ParseHex

/-!
# Salvage of a wallet

`CDBEnv::Salvage` reads the pairs of a database from a dump in lines: "header lines...",
"HEADER=END", hexadecimal keys and values "... repeated", and "DATA=END".  The loop over the pairs
looks for "DATA_END", which no dump has, so the end of the data is read as a key.  What it appends
is the pairs of the dump exactly if the text ends, without a newline, behind a value or behind
"HEADER=END", or ends in the header (`salvage_exact_iff`); this is so for no complete dump.
-/

namespace Fedoracoin

/-! ## The functions -/

def newline : UInt8 := '\n'.toUInt8

/-- A `stringstream`, with what is left to be read.  Its `failbit` is only set with its `eofbit`. -/
structure StringStream where
  rest : List UInt8
  eof : Bool := false

/-- `getline`: the string and the stream.  At the end of the stream the string stays as it is. -/
def getline (s : StringStream) (str : List UInt8) : List UInt8 × StringStream :=
  if s.eof then (str, s)
  else
    match s.rest.dropWhile (· ≠ newline) with
    | [] => (s.rest, { rest := [], eof := true })
    | _ :: rest => (s.rest.takeWhile (· ≠ newline), { rest })

/-- The characters that are left, and the end. -/
def StringStream.left (s : StringStream) : Nat := s.rest.length + if s.eof then 0 else 1

theorem getline_of_eof {s : StringStream} (str : List UInt8) (heof : s.eof = true) :
    getline s str = (str, s) := by
  rw [getline, if_pos heof]

theorem left_getline_lt {s : StringStream} (str : List UInt8) (heof : s.eof = false) :
    (getline s str).2.left < s.left := by
  have hleft : s.left = s.rest.length + 1 := by
    rw [StringStream.left, heof, if_neg Bool.false_ne_true]
  have hle := (List.dropWhile_suffix (· ≠ newline) (l := s.rest)).length_le
  rw [getline, heof, if_neg Bool.false_ne_true, hleft]
  split
  case h_1 => exact Nat.succ_pos _
  case h_2 c rest hrest =>
    rw [hrest, List.length_cons] at hle
    exact Nat.succ_le_succ hle

theorem left_getline_le (s : StringStream) (str : List UInt8) :
    (getline s str).2.left ≤ s.left := by
  cases heof : s.eof with
  | true => rw [getline_of_eof str heof]
  | false => exact (left_getline_lt str heof).le

def headerEnd : List UInt8 :=
  ['H', 'E', 'A', 'D', 'E', 'R', '=', 'E', 'N', 'D'].map Char.toUInt8

def dataEnd : List UInt8 := ['D', 'A', 'T', 'A', '=', 'E', 'N', 'D'].map Char.toUInt8

/-- "Skip past header". -/
def skipHeader (strDump : StringStream) (strLine : List UInt8) : StringStream :=
  if strDump.eof = false ∧ strLine ≠ headerEnd then
    skipHeader (getline strDump strLine).2 (getline strDump strLine).1
  else strDump
termination_by strDump.left
decreasing_by
  rename_i h
  exact left_getline_lt strLine h.1

abbrev KeyValPair := List UInt8 × List UInt8

/-- `ParseHex` of a `std::string`. -/
def parseHexString (str : List UInt8) : List UInt8 := parseHex (cStr str)

/-- `"DATA_END"`. -/
def dataUnderscoreEnd : List UInt8 := ['D', 'A', 'T', 'A', '_', 'E', 'N', 'D'].map Char.toUInt8

def readPairs (strDump : StringStream) (keyHex valueHex : List UInt8)
    (vResult : List KeyValPair) : List KeyValPair :=
  if strDump.eof = false ∧ keyHex ≠ dataEnd then
    let line := getline strDump keyHex
    if line.1 ≠ dataUnderscoreEnd then
      let next := getline line.2 valueHex
      readPairs next.2 line.1 next.1 (vResult ++ [(parseHexString line.1, parseHexString next.1)])
    else readPairs line.2 line.1 valueHex vResult
  else vResult
termination_by strDump.left
decreasing_by
  · rename_i h _
    exact (left_getline_le _ _).trans_lt (left_getline_lt keyHex h.1)
  · rename_i h _
    exact left_getline_lt keyHex h.1

/-- What `Db::verify` returns: 0, `DB_VERIFY_BAD` or another error. -/
inductive VerifyResult where
  | ok
  | verifyBad
  | failed
deriving DecidableEq

/-- `CDBEnv::Salvage`: what it returns, and `vResult`.  `verify` is `Db::verify` with the flag
`DB_SALVAGE`, and with `DB_AGGRESSIVE` if `fAggressive` is set; it writes to `strDump`. -/
def salvage (mapFileUseCount : List (List UInt8 × Int))
    (verify : List UInt8 → Bool → VerifyResult × List UInt8) (strFile : List UInt8)
    (fAggressive : Bool) (vResult : List KeyValPair) : Except Failure (Bool × List KeyValPair) :=
  if (mapFileUseCount.lookup strFile).isSome then .error .assertion
  else
    let (result, strDump) := verify strFile fAggressive
    if result = .verifyBad ∧ fAggressive = false then .ok (false, vResult)
    else if result ≠ .ok ∧ result ≠ .verifyBad then .ok (false, vResult)
    else .ok (decide (result = .ok), readPairs (skipHeader { rest := strDump } []) [] [] vResult)

/-! ## Dumps -/

/-- Lines, and whether there is a newline behind the last one. -/
def linesText (terminated : Bool) : List (List UInt8) → List UInt8
  | [] => []
  | [line] => if terminated then line ++ [newline] else line
  | line :: lines => line ++ newline :: linesText terminated lines

structure DumpPair where
  keyLine : List UInt8
  valueLine : List UInt8
  key : List UInt8
  value : List UInt8
  key_text : newline ∉ keyLine ∧ IsHexText keyLine key
  value_text : newline ∉ valueLine ∧ IsHexText valueLine value

structure Dump where
  header : List (List UInt8)
  pairs : List DumpPair
  header_text : ∀ line ∈ header, newline ∉ line ∧ line ≠ headerEnd

/-- "hexadecimal key, hexadecimal value, ... repeated", and "DATA=END". -/
def dataLines (pairs : List DumpPair) : List (List UInt8) :=
  (pairs.flatMap fun p ↦ [p.keyLine, p.valueLine]) ++ [dataEnd]

def Dump.lines (d : Dump) : List (List UInt8) := d.header ++ headerEnd :: dataLines d.pairs

def Dump.decoded (d : Dump) : List KeyValPair := d.pairs.map fun p ↦ (p.key, p.value)

theorem IsHexText.not_mem {s bytes : List UInt8} (h : IsHexText s bytes) {c : UInt8}
    (hspace : isspace c = false) (hdigit : hexDigit c = -1) : c ∉ s := by
  intro hc
  rcases h.mem c hc with hc | hc
  · exact Bool.false_ne_true (hspace.symm.trans hc)
  · exact hc hdigit

theorem IsHexText.ne_dataEnd {s bytes : List UInt8} (h : IsHexText s bytes) :
    s ≠ dataEnd ∧ s ≠ dataUnderscoreEnd := by
  have hT : 'T'.toUInt8 ∉ s := h.not_mem (by decide) (by decide)
  constructor
  · rintro rfl
    exact hT (by decide)
  · rintro rfl
    exact hT (by decide)

theorem parseHexString_of_isHexText {s bytes : List UInt8} (h : IsHexText s bytes) :
    parseHexString s = bytes := by
  have hnul : 0 ∉ s := h.not_mem (by decide) (by decide)
  rw [parseHexString, cStr_eq_self hnul, parseHex_of_isHexText h]

/-! ## Lines of a text -/

/-- The stream behind a line that `lines` follow. -/
def behind (terminated : Bool) (lines : List (List UInt8)) : StringStream where
  rest := linesText terminated lines
  eof := lines.isEmpty && !terminated

theorem getline_linesText {line : List UInt8} (hline : newline ∉ line) (terminated : Bool)
    (lines : List (List UInt8)) (str : List UInt8) :
    getline { rest := linesText terminated (line :: lines) } str =
      (line, behind terminated lines) := by
  have hne : ∀ c ∈ line, decide (c ≠ newline) = true := by
    intro c hc
    have hne : c ≠ newline := fun heq ↦ hline (heq ▸ hc)
    exact decide_eq_true hne
  have hnewline (rest : List UInt8) :
      getline { rest := line ++ newline :: rest } str = (line, { rest }) := by
    have hdrop : (line ++ newline :: rest).dropWhile (· ≠ newline) = newline :: rest := by
      rw [List.dropWhile_append_of_pos hne, List.dropWhile_cons_of_neg (by decide)]
    have htake : (line ++ newline :: rest).takeWhile (· ≠ newline) = line := by
      rw [List.takeWhile_append_of_pos hne, List.takeWhile_cons_of_neg (by decide),
        List.append_nil]
    rw [getline, if_neg Bool.false_ne_true]
    simp only [hdrop, htake]
  have hlast : getline { rest := line } str = (line, { rest := [], eof := true }) := by
    have hdrop : line.dropWhile (· ≠ newline) = [] := List.dropWhile_eq_nil_iff.mpr hne
    rw [getline, if_neg Bool.false_ne_true]
    simp only [hdrop]
  match terminated, lines with
  | true, [] => exact hnewline []
  | false, [] => exact hlast
  | true, next :: lines => exact hnewline _
  | false, next :: lines => exact hnewline _

/-! ## The loops -/

theorem skipHeader_of_eof {strDump : StringStream} (heof : strDump.eof = true)
    (strLine : List UInt8) : skipHeader strDump strLine = strDump := by
  rw [skipHeader, if_neg fun h ↦ Bool.false_ne_true (h.1.symm.trans heof)]

theorem skipHeader_headerEnd (strDump : StringStream) : skipHeader strDump headerEnd = strDump := by
  rw [skipHeader, if_neg fun h ↦ h.2 rfl]

theorem skipHeader_cons {line strLine : List UInt8} (hline : newline ∉ line)
    (hne : strLine ≠ headerEnd) (terminated : Bool) (lines : List (List UInt8)) :
    skipHeader { rest := linesText terminated (line :: lines) } strLine =
      skipHeader (behind terminated lines) line := by
  rw [skipHeader, if_pos ⟨rfl, hne⟩, getline_linesText hline]

theorem behind_append_cons (terminated : Bool) (front : List (List UInt8)) (line : List UInt8)
    (lines : List (List UInt8)) : behind terminated (front ++ line :: lines) =
      { rest := linesText terminated (front ++ line :: lines) } := by
  cases front <;> rfl

theorem behind_cons (terminated : Bool) (line : List UInt8) (lines : List (List UInt8)) :
    behind terminated (line :: lines) = { rest := linesText terminated (line :: lines) } := rfl

/-- A text that ends in the header. -/
theorem eof_skipHeader {header : List (List UInt8)} {strLine : List UInt8} (terminated : Bool)
    (hheader : ∀ line ∈ header, newline ∉ line ∧ line ≠ headerEnd) (hne : strLine ≠ headerEnd) :
    (skipHeader { rest := linesText terminated header } strLine).eof = true := by
  induction header generalizing strLine with
  | nil =>
      have hget : getline { rest := linesText terminated [] } strLine =
          ([], { rest := [], eof := true }) := rfl
      rw [skipHeader, if_pos ⟨rfl, hne⟩, hget, skipHeader_of_eof rfl]
  | cons line header ih =>
      obtain ⟨hline, hheader⟩ := List.forall_mem_cons.mp hheader
      rw [skipHeader_cons hline.1 hne]
      cases heof : (behind terminated header).eof with
      | true => rwa [skipHeader_of_eof heof]
      | false =>
          have hbehind : behind terminated header = { rest := linesText terminated header } :=
            congrArg (StringStream.mk _) heof
          rw [hbehind]
          exact ih hheader hline.2

theorem skipHeader_lines {header : List (List UInt8)} {strLine : List UInt8} (terminated : Bool)
    (hheader : ∀ line ∈ header, newline ∉ line ∧ line ≠ headerEnd) (hne : strLine ≠ headerEnd)
    (lines : List (List UInt8)) :
    skipHeader { rest := linesText terminated (header ++ headerEnd :: lines) } strLine =
      behind terminated lines := by
  induction header generalizing strLine with
  | nil =>
      rw [List.nil_append, skipHeader_cons (by decide) hne, skipHeader_headerEnd]
  | cons line header ih =>
      obtain ⟨hline, hheader⟩ := List.forall_mem_cons.mp hheader
      rw [List.cons_append, skipHeader_cons hline.1 hne, behind_append_cons]
      exact ih hheader hline.2

theorem readPairs_of_eof {strDump : StringStream} (heof : strDump.eof = true)
    (keyHex valueHex : List UInt8) (vResult : List KeyValPair) :
    readPairs strDump keyHex valueHex vResult = vResult := by
  rw [readPairs, if_neg fun h ↦ Bool.false_ne_true (h.1.symm.trans heof)]

theorem readPairs_cons {line keyHex : List UInt8} (hline : newline ∉ line)
    (hkey : keyHex ≠ dataEnd) (hne : line ≠ dataUnderscoreEnd) (terminated : Bool)
    (lines : List (List UInt8)) (valueHex : List UInt8) (vResult : List KeyValPair) :
    readPairs { rest := linesText terminated (line :: lines) } keyHex valueHex vResult =
      readPairs (getline (behind terminated lines) valueHex).2 line
        (getline (behind terminated lines) valueHex).1
        (vResult ++ [(parseHexString line,
          parseHexString (getline (behind terminated lines) valueHex).1)]) := by
  rw [readPairs, if_pos ⟨rfl, hkey⟩]
  simp only [getline_linesText hline]
  rw [if_pos hne]

theorem getline_behind_nil (terminated : Bool) (str : List UInt8) :
    (getline (behind terminated []) str).1 = (if terminated then [] else str) ∧
      (getline (behind terminated []) str).2.eof = true := by
  cases terminated <;> exact ⟨rfl, rfl⟩

/-- The last line of a text is taken for a key, with an empty value or the one before. -/
theorem readPairs_last {line keyHex : List UInt8} (hline : newline ∉ line)
    (hkey : keyHex ≠ dataEnd) (hne : line ≠ dataUnderscoreEnd) (terminated : Bool)
    (valueHex : List UInt8) (vResult : List KeyValPair) :
    readPairs { rest := linesText terminated [line] } keyHex valueHex vResult =
      vResult ++ [(parseHexString line, if terminated then [] else parseHexString valueHex)] := by
  obtain ⟨hvalue, heof⟩ := getline_behind_nil terminated valueHex
  rw [readPairs_cons hline hkey hne, readPairs_of_eof heof, hvalue]
  cases terminated <;> rfl

/-- A key that its value follows. -/
theorem readPairs_pair (p : DumpPair) {keyHex : List UInt8} (hkey : keyHex ≠ dataEnd)
    (terminated : Bool) (lines : List (List UInt8)) (valueHex : List UInt8)
    (vResult : List KeyValPair) :
    readPairs { rest := linesText terminated (p.keyLine :: p.valueLine :: lines) } keyHex valueHex
        vResult =
      readPairs (behind terminated lines) p.keyLine p.valueLine
        (vResult ++ [(p.key, p.value)]) := by
  rw [readPairs_cons p.key_text.1 hkey p.key_text.2.ne_dataEnd.2, behind_cons,
    getline_linesText p.value_text.1, parseHexString_of_isHexText p.key_text.2,
    parseHexString_of_isHexText p.value_text.2]

theorem length_dataLines (pairs : List DumpPair) :
    (dataLines pairs).length = 2 * pairs.length + 1 := by
  induction pairs with
  | nil => rfl
  | cons p pairs ih =>
      change (dataLines pairs).length + 2 = _
      rw [ih, List.length_cons]
      omega

theorem Dump.length_lines (d : Dump) :
    d.lines.length = d.header.length + 1 + (2 * d.pairs.length + 1) := by
  rw [Dump.lines, List.length_append, List.length_cons, length_dataLines]
  omega

/-- What is appended behind the pairs of a text with `m` lines behind "HEADER=END": a key without
its value, "DATA=END" as a key, or an empty key where a newline ends the text.  The value is the
one before, unless an empty line was read for it. -/
def strays (terminated : Bool) : (value : List UInt8) → List DumpPair → (m : Nat) → List KeyValPair
  | value, _, 0 => if terminated then [([], value)] else []
  | value, [], _ + 1 => [([0xda], if terminated then [] else value)]
  | value, p :: _, 1 => [(p.key, if terminated then [] else value)]
  | _, p :: pairs, m + 2 => strays terminated p.value pairs m

theorem strays_eq_nil_iff {terminated : Bool} {value : List UInt8} {pairs : List DumpPair} {m : Nat}
    (hm : m ≤ 2 * pairs.length + 1) :
    strays terminated value pairs m = [] ↔ terminated = false ∧ m % 2 = 0 := by
  fun_induction strays terminated value pairs m with
  | case1 pairs value hterm => simp [hterm]
  | case2 pairs value hterm => simp [hterm]
  | case3 value m =>
      have hzero : m = 0 := by simpa using hm
      subst hzero
      simp
  | case4 => simp
  | case5 value p pairs m ih =>
      have hm' : m ≤ 2 * pairs.length + 1 := by
        rw [List.length_cons] at hm
        omega
      rw [ih hm', ← Nat.add_mod_right m 2]

/-- What is read behind the header when `m` of the lines that follow it are there: the pairs of
which both lines are, and the strays. -/
theorem readPairs_take {pairs : List DumpPair} {m : Nat} (hm : m ≤ 2 * pairs.length + 1)
    {keyHex : List UInt8} (hkey : keyHex ≠ dataEnd) (terminated : Bool) (valueHex : List UInt8)
    (vResult : List KeyValPair) :
    readPairs (behind terminated ((dataLines pairs).take m)) keyHex valueHex vResult =
      vResult ++ (pairs.map fun p ↦ (p.key, p.value)).take (m / 2) ++
        strays terminated (parseHexString valueHex) pairs m := by
  induction m using Nat.twoStepInduction generalizing pairs keyHex valueHex vResult with
  | zero =>
      rw [Nat.zero_div, List.take_zero, List.take_zero, List.append_nil, strays]
      cases terminated with
      | false =>
          rw [readPairs_of_eof rfl, if_neg Bool.false_ne_true, List.append_nil]
      | true =>
          -- an empty line that nothing follows
          exact readPairs_last (List.not_mem_nil : newline ∉ []) hkey (by decide) false valueHex
            vResult
  | one =>
      rw [Nat.div_eq_of_lt (by decide), List.take_zero, List.append_nil]
      cases pairs with
      | nil => exact readPairs_last (by decide) hkey (by decide) terminated valueHex vResult
      | cons p pairs =>
          have hlast := readPairs_last p.key_text.1 hkey p.key_text.2.ne_dataEnd.2 terminated
            valueHex vResult
          rwa [parseHexString_of_isHexText p.key_text.2] at hlast
  | more m ih _ =>
      cases pairs with
      | nil => exact absurd hm (by simp)
      | cons p pairs =>
          have hm' : m ≤ 2 * pairs.length + 1 := by
            rw [List.length_cons] at hm
            omega
          have htake : (dataLines (p :: pairs)).take (m + 2) =
              p.keyLine :: p.valueLine :: (dataLines pairs).take m := rfl
          rw [htake, behind_cons, readPairs_pair p hkey, ih hm' p.key_text.2.ne_dataEnd.1,
            parseHexString_of_isHexText p.value_text.2, Nat.add_div_right m (by decide),
            List.map_cons, List.take_succ_cons, List.append_assoc vResult]
          rfl

/-! ## Salvage -/

theorem salvage_of_accepted {mapFileUseCount : List (List UInt8 × Int)}
    {verify : List UInt8 → Bool → VerifyResult × List UInt8} {strFile strDump : List UInt8}
    {fAggressive : Bool} {result : VerifyResult} (hfree : mapFileUseCount.lookup strFile = none)
    (hverify : verify strFile fAggressive = (result, strDump))
    (hread : result = .ok ∨ result = .verifyBad ∧ fAggressive = true)
    (vResult : List KeyValPair) :
    salvage mapFileUseCount verify strFile fAggressive vResult =
      .ok (decide (result = .ok), readPairs (skipHeader { rest := strDump } []) [] [] vResult) := by
  rw [salvage, hfree, hverify]
  rcases hread with rfl | ⟨rfl, rfl⟩ <;> rfl

/-- The pairs of a text of the first `k` lines: both lines are there. -/
def Dump.completePairs (d : Dump) (k : Nat) : List KeyValPair :=
  d.decoded.take ((k - (d.header.length + 1)) / 2)

/-- Nothing is appended from a text that ends in the header. -/
theorem read_header {d : Dump} {k : Nat} (hk : k ≤ d.header.length) (terminated : Bool)
    (vResult : List KeyValPair) :
    readPairs (skipHeader { rest := linesText terminated (d.lines.take k) } []) [] [] vResult =
      vResult := by
  have htake : d.lines.take k = d.header.take k := List.take_append_of_le_length hk
  have hheader : ∀ line ∈ d.header.take k, newline ∉ line ∧ line ≠ headerEnd :=
    fun line hline ↦ d.header_text line (List.mem_of_mem_take hline)
  rw [htake, readPairs_of_eof (eof_skipHeader terminated hheader (by decide))]

/-- What is appended from a text that has `m` lines behind "HEADER=END". -/
theorem read_data {d : Dump} {m : Nat} (hm : m ≤ 2 * d.pairs.length + 1) (terminated : Bool)
    (vResult : List KeyValPair) :
    readPairs (skipHeader
        { rest := linesText terminated (d.lines.take (d.header.length + 1 + m)) } []) [] []
        vResult =
      vResult ++ d.completePairs (d.header.length + 1 + m) ++ strays terminated [] d.pairs m := by
  have htake : d.lines.take (d.header.length + 1 + m) =
      d.header ++ headerEnd :: (dataLines d.pairs).take m := by
    rw [Dump.lines, List.take_append, Nat.add_assoc, List.take_of_length_le (by omega),
      Nat.add_sub_cancel_left, Nat.add_comm 1, List.take_succ_cons]
  have hkey : ([] : List UInt8) ≠ dataEnd := by decide
  rw [htake, skipHeader_lines terminated d.header_text (by decide), readPairs_take hm hkey,
    Dump.completePairs, Nat.add_sub_cancel_left]
  rfl

theorem completePairs_lines (d : Dump) : d.completePairs d.lines.length = d.decoded := by
  rw [Dump.completePairs, Dump.length_lines, Nat.add_sub_cancel_left, Dump.decoded,
    List.take_of_length_le]
  rw [List.length_map]
  omega

/-- `Salvage` appends the pairs of the text, and no other, exactly if the text ends in the header,
or ends, without a newline, behind "HEADER=END" or a value.  A complete dump does not. -/
theorem salvage_exact_iff {mapFileUseCount : List (List UInt8 × Int)}
    {verify : List UInt8 → Bool → VerifyResult × List UInt8} {strFile : List UInt8}
    {fAggressive terminated : Bool} {result : VerifyResult} {d : Dump} {k : Nat}
    (hfree : mapFileUseCount.lookup strFile = none)
    (hverify : verify strFile fAggressive = (result, linesText terminated (d.lines.take k)))
    (hread : result = .ok ∨ result = .verifyBad ∧ fAggressive = true) (hk : k ≤ d.lines.length)
    (vResult : List KeyValPair) :
    (salvage mapFileUseCount verify strFile fAggressive vResult =
        .ok (decide (result = .ok), vResult ++ d.completePairs k) ↔
      (d.header.length < k → terminated = false ∧ (k - (d.header.length + 1)) % 2 = 0)) ∧
    (k = d.lines.length → salvage mapFileUseCount verify strFile fAggressive vResult ≠
      .ok (decide (result = .ok), vResult ++ d.decoded)) := by
  rw [salvage_of_accepted hfree hverify hread]
  simp only [Except.ok.injEq, Prod.mk.injEq, true_and, ne_eq]
  rcases Nat.lt_or_ge d.header.length k with hlt | hle
  · obtain ⟨m, rfl⟩ := Nat.exists_eq_add_of_le hlt
    have hm : m ≤ 2 * d.pairs.length + 1 := by
      rw [Dump.length_lines] at hk
      omega
    have hstrays : strays terminated [] d.pairs m = [] ↔ _ := strays_eq_nil_iff hm
    rw [read_data hm, Nat.add_sub_cancel_left, imp_iff_right hlt, ← hstrays]
    refine ⟨List.append_right_eq_self, ?_⟩
    intro hlines happend
    rw [hlines, completePairs_lines, List.append_right_eq_self, hstrays] at happend
    rw [Dump.length_lines] at hlines
    omega
  · have hzero : k - (d.header.length + 1) = 0 := by omega
    rw [read_header hle, Dump.completePairs, hzero]
    constructor
    · exact iff_of_true (List.append_nil _).symm fun hlt ↦ absurd hlt (Nat.not_lt.mpr hle)
    · intro hlines
      rw [Dump.length_lines] at hlines
      omega

def oneKeyDump : Dump where
  header := []
  pairs := [{
    keyLine := [' ', '6', 'b'].map Char.toUInt8
    valueLine := [' ', '7', '6'].map Char.toUInt8
    key := [0x6b]
    value := [0x76]
    key_text := ⟨by decide, .space (by decide) (.byte (by decide) (by decide) .nil)⟩
    value_text := ⟨by decide, .space (by decide) (.byte (by decide) (by decide) .nil)⟩ }]
  header_text := nofun

/-- A text that is cut behind the value. -/
theorem salvage_exact_of_cut :
    salvage [] (fun _ _ ↦ (.ok, linesText false (oneKeyDump.lines.take 3))) [] false [] =
      .ok (true, [([0x6b], [0x76])]) :=
  (salvage_exact_iff (d := oneKeyDump) (k := 3) rfl rfl (Or.inl rfl) (by decide) []).1.mpr
    fun _ ↦ ⟨rfl, rfl⟩

/-- From the whole dump, "DATA=END" is appended as a key. -/
theorem salvage_reads_dataEnd :
    salvage [] (fun _ _ ↦ (.ok, linesText true oneKeyDump.lines)) [] false [] =
        .ok (true, [([0x6b], [0x76]), ([0xda], [])]) ∧
      oneKeyDump.decoded = [([0x6b], [0x76])] := by
  decide +kernel

end Fedoracoin
