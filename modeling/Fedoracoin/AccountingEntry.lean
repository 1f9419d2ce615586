import Fedoracoin.Alert
import Fedoracoin.MoneyFormat

/-!
# Accounting entries

`CAccountingEntry` and its format.  The map, the position and the extra bytes go into the file
behind the comment, after a zero byte; `WriteOrderPos` puts the position into the map for that.
A string is the list of its bytes.
-/

namespace Fedoracoin

open Wire Radix

/-! ## Numbers as text -/

/-- `i64tostr`. -/
def i64tostr (n : Int64) : List UInt8 := formatInt 0 n.toInt

/-- `strtoll` of a `c_str()`, in base 10. -/
def strtoll (str : List UInt8) : Int :=
  let p := (str.takeWhile (· ≠ 0)).dropWhile isspace
  let fNegative := p.head? = some 0x2d
  let p := if p.head? = some 0x2d ∨ p.head? = some 0x2b then p.tail else p
  let n := atoi64 (p.takeWhile isdigit)
  max (-2 ^ 63) (min (2 ^ 63 - 1) (if fNegative then -n else n))

section

variable {ds : List Nat} {sign : List UInt8}

theorem digits_spec (hds : ∀ d ∈ ds, d < 10) (c : UInt8) (hc : c ∈ ds.map digitChar) :
    isdigit c = true ∧ isspace c = false ∧ c ≠ 0 ∧ c ≠ 0x2d ∧ c ≠ 0x2b := by
  obtain ⟨d, hd, rfl⟩ := List.mem_map.mp hc
  have hlt := hds d hd
  generalize d = d at hlt
  revert d
  decide

theorem strtoll_digits (hds : ∀ d ∈ ds, d < 10) (hne : ds ≠ []) :
    strtoll (ds.map digitChar) = min (2 ^ 63 - 1) (value 10 ds : Int) ∧
      strtoll (0x2d :: ds.map digitChar) = max (-2 ^ 63) (-(value 10 ds : Int)) := by
  have hspec := digits_spec hds
  have hnul : (ds.map digitChar).takeWhile (· ≠ 0) = ds.map digitChar :=
    List.takeWhile_eq_self_iff.mpr fun c hc ↦ decide_eq_true (hspec c hc).2.2.1
  have hdigits : (ds.map digitChar).takeWhile isdigit = ds.map digitChar :=
    List.takeWhile_eq_self_iff.mpr fun c hc ↦ (hspec c hc).1
  have hatoi := atoi64_digits hds
  have hnonneg : (0 : Int) ≤ value 10 ds := Int.natCast_nonneg _
  constructor
  · obtain ⟨c, cs, hcs⟩ : ∃ c cs, ds.map digitChar = c :: cs :=
      List.exists_cons_of_ne_nil fun h ↦ hne (List.map_eq_nil_iff.mp h)
    obtain ⟨-, hspace, -, hminus, hplus⟩ := hspec c (hcs ▸ List.mem_cons_self)
    have hfirst : (ds.map digitChar).dropWhile isspace = ds.map digitChar := by
      rw [hcs, List.dropWhile_cons_of_neg (by rw [hspace]; exact Bool.false_ne_true)]
    have hhead : (ds.map digitChar).head? = some c := by rw [hcs, List.head?_cons]
    rw [strtoll, hnul, hfirst, hhead]
    simp only [Option.some.injEq, hminus, hplus, or_self, if_false, hdigits, hatoi]
    omega
  · have hspace : isspace 0x2d = false := by decide
    rw [strtoll, List.takeWhile_cons_of_pos (by decide), hnul,
      List.dropWhile_cons_of_neg (by rw [hspace]; exact Bool.false_ne_true)]
    simp only [List.head?_cons, true_or, if_true, List.tail_cons, hdigits, hatoi]
    omega

theorem decimal_ne_nil (n : Nat) : decimal n ≠ [] := by
  rw [decimal]
  split
  case isTrue => exact List.cons_ne_nil _ _
  case isFalse => exact List.append_ne_nil_of_right_ne_nil _ (List.cons_ne_nil _ _)

/-- A position is read as it was written. -/
theorem strtoll_i64tostr (n : Int64) : strtoll (i64tostr n) = n.toInt := by
  have hlo := n.le_toInt
  have hhi := n.toInt_lt
  obtain ⟨hlt, hvalue⟩ := decimal_spec n.toInt.natAbs
  obtain ⟨hpos, hneg⟩ := strtoll_digits hlt (decimal_ne_nil _)
  rw [hvalue] at hpos hneg
  rw [i64tostr, formatInt]
  split
  case isTrue h =>
    have hlength : 0 - ([(0x2d : UInt8)].length +
        ((decimal n.toInt.natAbs).map digitChar).length) = 0 := Nat.zero_sub _
    rw [hlength, List.replicate_zero, List.append_nil, List.singleton_append, hneg]
    omega
  case isFalse h =>
    rw [Nat.zero_sub, List.replicate_zero, List.nil_append, List.nil_append, hpos]
    omega

end

/-! ## Maps of strings -/

/-- The order of `std::string`. -/
def StringLE (s t : List UInt8) : Prop := s.map UInt8.toNat ≤ t.map UInt8.toNat

instance : DecidableRel StringLE :=
  fun s t ↦ inferInstanceAs (Decidable (s.map UInt8.toNat ≤ t.map UInt8.toNat))

instance : IsTrans (List UInt8) StringLE := ⟨fun _ _ _ h h' ↦ le_trans h h'⟩

instance : Std.Total StringLE := ⟨fun s t ↦ le_total (s.map UInt8.toNat) (t.map UInt8.toNat)⟩

instance : Std.Antisymm StringLE :=
  ⟨fun _ _ h h' ↦ List.map_injective_iff.mpr (fun _ _ ↦ UInt8.toNat_inj.mp) (le_antisymm h h')⟩

/-- `map<string, string>`. -/
abbrev MapValue := Finmap fun _ : List UInt8 ↦ List UInt8

namespace MapValue

def items (m : MapValue) : List (List UInt8 × List UInt8) :=
  (m.keys.sort StringLE).filterMap fun k ↦ (m.lookup k).map fun v ↦ (k, v)

/-- `m.insert(item)`, which keeps what is there. -/
def insertNew (m : MapValue) (item : List UInt8 × List UInt8) : MapValue :=
  if (m.lookup item.1).isSome then m else m.insert item.1 item.2

end MapValue

def serializeString (str : List UInt8) : List UInt8 := serializeVector serializeByte str

/-- `LimitedString<limit>`, when it is read. -/
def unserializeLimitedString (limit : Nat) : StreamReader (List UInt8) := do
  let size ← readCompactSize
  if limit < size then throw "String length limit exceeded"
  readData size

def serializePair (item : List UInt8 × List UInt8) : List UInt8 :=
  serializeString item.1 ++ serializeString item.2

def unserializePair : StreamReader (List UInt8 × List UInt8) := do
  let first ← unserializeString
  let second ← unserializeString
  return (first, second)

namespace MapValue

def serialize (m : MapValue) : List UInt8 := serializeVector serializePair m.items

def unserialize : StreamReader MapValue := do
  let items ← unserializeVector unserializePair
  return items.foldl insertNew ∅

end MapValue

section

variable {str : List UInt8} {limit : Nat} {m : MapValue} {k v : List UInt8}

theorem serializeString_eq (str : List UInt8) :
    serializeString str = writeCompactSize str.length ++ str := by
  rw [serializeString, serializeVector, flatMap_serializeByte]

theorem reads_unserializeString (h : str.length ≤ maxSize) :
    Reads unserializeString (serializeString str) str :=
  reads_unserializeVector h fun b _ ↦ reads_unserializeByte b

theorem reads_unserializeLimitedString (h : str.length ≤ limit) (hmax : str.length ≤ maxSize) :
    Reads (unserializeLimitedString limit) (serializeString str) str := by
  rw [serializeString_eq]
  apply (reads_readCompactSize hmax).bind
  rw [if_neg (Nat.not_lt.mpr h)]
  exact reads_take rfl

/-- What is longer is refused. -/
theorem unserializeLimitedString_of_lt (h : limit < str.length) (hmax : str.length ≤ maxSize)
    (rest : List UInt8) : unserializeLimitedString limit (serializeString str ++ rest) =
      .error "String length limit exceeded" := by
  rw [serializeString_eq, List.append_assoc, unserializeLimitedString,
    bind_of_ok (reads_readCompactSize hmax _), if_pos h]
  rfl

theorem length_le_serializeString (str : List UInt8) :
    str.length ≤ (serializeString str).length := by
  rw [serializeString_eq, List.length_append]
  exact Nat.le_add_left _ _

/-- A vector has at most as many elements as bytes, and an element at most as many bytes as it. -/
theorem le_length_serializeVector {α : Type} {serialize : α → List UInt8} {l : List α}
    (hpos : ∀ a, 0 < (serialize a).length) :
    l.length ≤ (serializeVector serialize l).length ∧
      ∀ a ∈ l, (serialize a).length ≤ (serializeVector serialize l).length := by
  rw [length_serializeVector]
  constructor
  · have hle := List.card_nsmul_le_sum (l.map fun a ↦ (serialize a).length) 1 fun n hn ↦ by
      obtain ⟨a, -, rfl⟩ := List.mem_map.mp hn
      exact hpos a
    rw [List.length_map, nsmul_one, Nat.cast_id] at hle
    exact hle.trans (Nat.le_add_left _ _)
  · intro a ha
    have hmem := List.mem_map_of_mem (f := fun a ↦ (serialize a).length) ha
    exact (List.le_sum_of_mem hmem).trans (Nat.le_add_left _ _)

theorem reads_unserializePair {item : List UInt8 × List UInt8}
    (h : (serializePair item).length ≤ maxSize) :
    Reads unserializePair (serializePair item) item := by
  rw [serializePair, List.length_append] at h
  have hfirst := length_le_serializeString item.1
  have hsecond := length_le_serializeString item.2
  have hle : item.1.length ≤ maxSize := by omega
  have hle' : item.2.length ≤ maxSize := by omega
  apply (reads_unserializeString hle).bind
  exact (reads_unserializeString hle').map fun second ↦ (item.1, second)

namespace MapValue

theorem mem_items : (k, v) ∈ m.items ↔ m.lookup k = some v := by
  rw [items, List.mem_filterMap]
  constructor
  · rintro ⟨k', -, h⟩
    obtain ⟨v', hl, heq⟩ := Option.map_eq_some_iff.mp h
    obtain ⟨rfl, rfl⟩ := Prod.mk.inj heq
    exact hl
  · intro h
    refine ⟨k, ?_, by rw [h, Option.map_some]⟩
    rw [Finset.mem_sort, Finmap.mem_keys]
    exact Finmap.mem_iff.mpr ⟨v, h⟩

theorem lookup_insertNew {item : List UInt8 × List UInt8} :
    (m.insertNew item).lookup k = some v ↔
      m.lookup k = some v ∨ m.lookup k = none ∧ item = (k, v) := by
  rw [insertNew]
  by_cases hk : k = item.1
  · subst hk
    split
    case isTrue h =>
      obtain ⟨v', hv'⟩ := Option.isSome_iff_exists.mp h
      rw [hv']
      simp
    case isFalse h =>
      have hnone : m.lookup item.1 = none := Option.not_isSome_iff_eq_none.mp h
      rw [Finmap.lookup_insert, hnone]
      simp [Prod.ext_iff]
  · have hne : item ≠ (k, v) := fun h ↦ hk (congrArg Prod.fst h).symm
    split
    case isTrue h => simp [hne]
    case isFalse h =>
      rw [Finmap.lookup_insert_of_ne _ hk]
      simp [hne]

/-- Items that agree on their keys are all inserted. -/
theorem lookup_foldl_insertNew {items : List (List UInt8 × List UInt8)}
    (h : ∀ k v v', (k, v) ∈ items → (k, v') ∈ items ∨ m.lookup k = some v' → v = v') :
    (items.foldl insertNew m).lookup k = some v ↔ m.lookup k = some v ∨ (k, v) ∈ items := by
  induction items generalizing m with
  | nil => simp
  | cons item items ih =>
      rw [List.foldl_cons, ih]
      · rw [lookup_insertNew, or_assoc, List.mem_cons, eq_comm (a := (k, v))]
        by_cases hnone : m.lookup k = none
        · simp [hnone]
        · obtain ⟨v', hv'⟩ := Option.ne_none_iff_exists'.mp hnone
          simp only [hv', reduceCtorEq, false_and, false_or, Option.some.injEq]
          refine or_congr_right' fun hne ↦ ?_
          rw [or_iff_right]
          rintro rfl
          exact hne (h k v v' List.mem_cons_self (Or.inr hv')).symm
      · intro k v v' hv hv'
        rcases hv' with hv' | hv'
        · exact h k v v' (List.mem_cons_of_mem _ hv) (Or.inl (List.mem_cons_of_mem _ hv'))
        · rcases lookup_insertNew.mp hv' with hv' | ⟨-, rfl⟩
          · exact h k v v' (List.mem_cons_of_mem _ hv) (Or.inr hv')
          · exact h k v v' (List.mem_cons_of_mem _ hv) (Or.inl List.mem_cons_self)

theorem foldl_insertNew_items (m : MapValue) : m.items.foldl insertNew ∅ = m := by
  refine Finmap.ext_lookup fun k ↦ Option.ext fun v ↦ ?_
  rw [lookup_foldl_insertNew, mem_items]
  · simp
  · intro k v v' hv hv'
    rw [mem_items] at hv
    rcases hv' with hv' | hv'
    · rw [mem_items] at hv'
      exact Option.some.inj (hv.symm.trans hv')
    · exact absurd hv' nofun

/-- **A map is read as it was written.** -/
theorem reads_unserialize (h : m.serialize.length ≤ maxSize) :
    Reads unserialize m.serialize m := by
  have hpos : ∀ item, 0 < (serializePair item).length := by
    intro item
    rw [serializePair, serializeString_eq, List.length_append, List.length_append,
      length_writeCompactSize, getSizeOfCompactSize]
    split_ifs <;> omega
  obtain ⟨hlength, hitem⟩ := le_length_serializeVector (l := m.items) hpos
  have hvector : Reads (unserializeVector unserializePair) m.serialize m.items :=
    reads_unserializeVector (hlength.trans h) fun item hi ↦
      reads_unserializePair ((hitem item hi).trans h)
  have hmap := hvector.map fun items ↦ items.foldl insertNew ∅
  rwa [foldl_insertNew_items] at hmap

end MapValue

end

/-! ## Entries -/

structure CAccountingEntry where
  strAccount : List UInt8 := []
  nCreditDebit : Int64 := 0
  nTime : Int64 := 0
  strOtherAccount : List UInt8 := []
  strComment : List UInt8 := []
  mapValue : MapValue := ∅
  nOrderPos : Int64 := -1
  nEntryNo : UInt64 := 0
  ssExtra : List UInt8 := []

/-- The key `"n"` of a map. -/
def keyN : List UInt8 := [0x6e]

def readOrderPos (mapValue : MapValue) : Int64 :=
  match mapValue.lookup keyN with
  | none => -1
  | some str => Int64.ofInt (strtoll str)

def writeOrderPos (nOrderPos : Int64) (mapValue : MapValue) : MapValue :=
  if nOrderPos = -1 then mapValue else mapValue.insert keyN (i64tostr nOrderPos)

namespace CAccountingEntry

/-- "if (!fRead)": the entry with everything in its comment. -/
def encode (me : CAccountingEntry) : CAccountingEntry :=
  let me := { me with mapValue := writeOrderPos me.nOrderPos me.mapValue }
  if me.mapValue = ∅ ∧ me.ssExtra = [] then me
  else { me with strComment := me.strComment ++ 0 :: (me.mapValue.serialize ++ me.ssExtra) }

/-- `me.strComment.erase(nSepPos)`, and `me.mapValue.erase("n")`. -/
def eraseEncoded (me : CAccountingEntry) : CAccountingEntry :=
  { me with
    strComment := me.strComment.takeWhile (· ≠ 0)
    mapValue := me.mapValue.erase keyN }

/-- What is written, and what becomes of the entry.  The version is written unless the type has
`SER_GETHASH`. -/
def serialize (fGetHash : Bool) (nVersion : Int) (entry : CAccountingEntry) :
    List UInt8 × CAccountingEntry :=
  let me := entry.encode
  ((if fGetHash then [] else serializeInt nVersion) ++ serializeInt64 me.nCreditDebit.toInt ++
      serializeInt64 me.nTime.toInt ++ serializeString me.strOtherAccount ++
      serializeString me.strComment,
    me.eraseEncoded)

/-- What is behind the zero byte, if there is one: the map and the extra bytes. -/
def unserializeExtra (entry : CAccountingEntry) (strComment : List UInt8) :
    Except String CAccountingEntry :=
  match strComment.dropWhile (· ≠ 0) with
  | [] => .ok { entry with mapValue := ∅ }
  | _ :: ss => do
      let (mapValue, ss) ← MapValue.unserialize ss
      return { entry with mapValue := mapValue, ssExtra := ss }

/-- The fields that were read, and the rest of "if (fRead)". -/
def finishRead (nCreditDebit nTime : Int) (strOtherAccount strComment : List UInt8)
    (me : CAccountingEntry) : CAccountingEntry :=
  eraseEncoded { me with
    nCreditDebit := Int64.ofInt nCreditDebit
    nTime := Int64.ofInt nTime
    strOtherAccount := strOtherAccount
    strComment := strComment
    nOrderPos := readOrderPos me.mapValue }

/-- "if (!(nType & SER_GETHASH)) READWRITE(nVersion);" -/
def unserializeVersion (fGetHash : Bool) (nVersion : Int) : StreamReader Int :=
  if fGetHash then pure nVersion else unserializeInt

/-- An entry is read into the fields of `entry`. -/
def unserialize (fGetHash : Bool) (nVersion : Int) (entry : CAccountingEntry) :
    StreamReader CAccountingEntry := do
  let _nVersion ← unserializeVersion fGetHash nVersion
  let nCreditDebit ← unserializeInt64
  let nTime ← unserializeInt64
  let strOtherAccount ← unserializeLimitedString 65536
  let strComment ← unserializeLimitedString 65536
  let me ← unserializeExtra entry strComment
  return finishRead nCreditDebit nTime strOtherAccount strComment me

variable {fGetHash : Bool} {nVersion : Int} {entry target : CAccountingEntry}

/-- The separator is the first zero byte. -/
theorem takeWhile_comment (hcomment : 0 ∉ entry.strComment) (s : List UInt8) :
    (entry.strComment ++ 0 :: s).takeWhile (· ≠ 0) = entry.strComment ∧
      (entry.strComment ++ 0 :: s).dropWhile (· ≠ 0) = 0 :: s ∧
      entry.strComment.takeWhile (· ≠ 0) = entry.strComment ∧
      entry.strComment.dropWhile (· ≠ 0) = [] := by
  have hne : ∀ c ∈ entry.strComment, decide (c ≠ 0) = true := by
    rintro c hc
    refine decide_eq_true ?_
    rintro rfl
    exact hcomment hc
  refine ⟨?_, ?_, List.takeWhile_eq_self_iff.mpr hne, List.dropWhile_eq_nil_iff.mpr hne⟩
  · rw [List.takeWhile_append_of_pos hne, List.takeWhile_cons_of_neg (by decide), List.append_nil]
  · rw [List.dropWhile_append_of_pos hne, List.dropWhile_cons_of_neg (by decide)]

/-- `WriteOrderPos` is undone, and `ReadOrderPos` reads what it wrote. -/
theorem orderPos_spec {mapValue : MapValue} (nOrderPos : Int64)
    (hn : mapValue.lookup keyN = none) :
    (writeOrderPos nOrderPos mapValue).erase keyN = mapValue ∧
      readOrderPos (writeOrderPos nOrderPos mapValue) = nOrderPos := by
  have herase : mapValue.erase keyN = mapValue := by
    refine Finmap.ext_lookup fun k ↦ ?_
    by_cases hk : k = keyN
    · rw [hk, Finmap.lookup_erase, hn]
    · exact Finmap.lookup_erase_ne hk
  rw [writeOrderPos]
  split
  case isTrue h =>
    refine ⟨herase, ?_⟩
    rw [readOrderPos, hn, h]
  case isFalse h =>
    constructor
    · refine Finmap.ext_lookup fun k ↦ ?_
      by_cases hk : k = keyN
      · rw [hk, Finmap.lookup_erase, hn]
      · rw [Finmap.lookup_erase_ne hk, Finmap.lookup_insert_of_ne _ hk]
    · rw [readOrderPos, Finmap.lookup_insert]
      dsimp only
      rw [strtoll_i64tostr, Int64.ofInt_toInt]

/-- **Writing leaves the entry as it was.** -/
theorem serialize_snd (hcomment : 0 ∉ entry.strComment) (hn : entry.mapValue.lookup keyN = none) :
    (entry.serialize fGetHash nVersion).2 = entry := by
  obtain ⟨hmap, -⟩ := orderPos_spec entry.nOrderPos hn
  rw [serialize, eraseEncoded, encode]
  dsimp only
  split
  case isTrue => rw [hmap, (takeWhile_comment hcomment []).2.2.1]
  case isFalse => rw [hmap, (takeWhile_comment hcomment _).1]

/-- What is behind the comment is read back. -/
theorem unserializeExtra_encode (hcomment : 0 ∉ entry.strComment)
    (hlength : entry.encode.strComment.length ≤ 65536) (htarget : target.ssExtra = []) :
    unserializeExtra target entry.encode.strComment =
      .ok { target with
        mapValue := writeOrderPos entry.nOrderPos entry.mapValue
        ssExtra := entry.ssExtra } := by
  rw [encode] at hlength ⊢
  dsimp only at hlength ⊢
  split at hlength
  case isTrue h =>
    rw [if_pos h, unserializeExtra, (takeWhile_comment hcomment []).2.2.2]
    dsimp only
    rw [h.1, h.2, ← htarget]
  case isFalse h =>
    dsimp only at hlength
    rw [List.length_append, List.length_cons, List.length_append] at hlength
    rw [if_neg h, unserializeExtra, (takeWhile_comment hcomment _).2.1]
    dsimp only
    rw [MapValue.reads_unserialize (by rw [maxSize]; omega)]
    rfl

theorem reads_nVersion (fGetHash : Bool) (nVersion : Int) :
    ∃ n, Reads (unserializeVersion fGetHash nVersion)
      (if fGetHash then [] else serializeInt nVersion) n := by
  cases fGetHash with
  | true => exact ⟨nVersion, reads_pure nVersion⟩
  | false =>
      have hlt : (BitVec.ofInt 32 nVersion).toNat < 256 ^ 4 := (BitVec.ofInt 32 nVersion).isLt
      exact ⟨_, (reads_readUInt hlt).map fun n ↦ (BitVec.ofNat 32 n).toInt⟩

theorem reads_unserializeInt64' (n : Int64) :
    Reads unserializeInt64 (serializeInt64 n.toInt) n.toInt :=
  reads_unserializeInt64 ⟨n.le_toInt, n.toInt_lt⟩

/-- **An entry is read as it was written**, if its other account is not too long. -/
theorem serialize_roundTrip (fGetHash : Bool) (nVersion : Int) (entry target : CAccountingEntry)
    (hcomment : 0 ∉ entry.strComment) (hn : entry.mapValue.lookup keyN = none)
    (hlength : entry.encode.strComment.length ≤ 65536)
    (hother : entry.strOtherAccount.length ≤ 65536) (htarget : target.ssExtra = []) :
    (entry.serialize fGetHash nVersion).2 = entry ∧
      Reads (unserialize fGetHash nVersion target) (entry.serialize fGetHash nVersion).1
        { entry with strAccount := target.strAccount, nEntryNo := target.nEntryNo } := by
  refine ⟨serialize_snd hcomment hn, ?_⟩
  obtain ⟨n, hversion⟩ := reads_nVersion fGetHash nVersion
  obtain ⟨hmap, hpos⟩ := orderPos_spec entry.nOrderPos hn
  have hencode : entry.encode.nCreditDebit = entry.nCreditDebit ∧
      entry.encode.nTime = entry.nTime ∧
      entry.encode.strOtherAccount = entry.strOtherAccount ∧
      entry.encode.strComment.takeWhile (· ≠ 0) = entry.strComment := by
    rw [encode]
    dsimp only
    split
    case isTrue => exact ⟨rfl, rfl, rfl, (takeWhile_comment hcomment []).2.2.1⟩
    case isFalse => exact ⟨rfl, rfl, rfl, (takeWhile_comment hcomment _).1⟩
  obtain ⟨hcredit, htime, hacc, htake⟩ := hencode
  have hextra : Reads
      (liftM (unserializeExtra target entry.encode.strComment) : StreamReader CAccountingEntry) []
      { target with
        mapValue := writeOrderPos entry.nOrderPos entry.mapValue
        ssExtra := entry.ssExtra } := by
    intro rest
    rw [unserializeExtra_encode hcomment hlength htarget]
    rfl
  rw [serialize]
  dsimp only
  rw [hcredit, htime, hacc, List.append_assoc, List.append_assoc, List.append_assoc]
  apply hversion.bind
  apply (reads_unserializeInt64' entry.nCreditDebit).bind
  apply (reads_unserializeInt64' entry.nTime).bind
  apply (reads_unserializeLimitedString hother (by rw [maxSize]; omega)).bind
  rw [← List.append_nil (serializeString entry.encode.strComment)]
  apply (reads_unserializeLimitedString hlength (by rw [maxSize]; omega)).bind
  have hfinish : finishRead entry.nCreditDebit.toInt entry.nTime.toInt entry.strOtherAccount
      entry.encode.strComment
        { target with
          mapValue := writeOrderPos entry.nOrderPos entry.mapValue
          ssExtra := entry.ssExtra } =
      { entry with strAccount := target.strAccount, nEntryNo := target.nEntryNo } := by
    rw [finishRead, eraseEncoded]
    dsimp only
    rw [htake, hmap, hpos, Int64.ofInt_toInt, Int64.ofInt_toInt]
  rw [← hfinish]
  exact hextra.map _

/-- Extra bytes alone, with no map and no position. -/
theorem serialize_roundTrip_extra :
    (serialize false 60000 { strComment := [0x61], ssExtra := [1] }).2 =
        { strComment := [0x61], ssExtra := [1] } ∧
      Reads (unserialize false 60000 {})
        (serialize false 60000 { strComment := [0x61], ssExtra := [1] }).1
        { strComment := [0x61], ssExtra := [1] } :=
  serialize_roundTrip false 60000 { strComment := [0x61], ssExtra := [1] } {} (by decide) rfl
    (by simp [encode, writeOrderPos, MapValue.serialize, MapValue.items, serializeVector,
      getSizeOfCompactSize]) (by decide) rfl

/-- The writer does not look at the length of the other account, and the reader refuses it. -/
theorem unserialize_of_long (fGetHash : Bool) (nVersion : Int) (entry target : CAccountingEntry)
    (hlong : 65536 < entry.strOtherAccount.length)
    (hmax : entry.strOtherAccount.length ≤ maxSize) :
    unserialize fGetHash nVersion target (entry.serialize fGetHash nVersion).1 =
      .error "String length limit exceeded" := by
  obtain ⟨n, hversion⟩ := reads_nVersion fGetHash nVersion
  have hencode : entry.encode.strOtherAccount = entry.strOtherAccount := by
    rw [encode]
    dsimp only
    split <;> rfl
  rw [serialize]
  dsimp only
  rw [hencode, List.append_assoc, List.append_assoc, List.append_assoc, unserialize,
    bind_of_ok (hversion _), bind_of_ok (reads_unserializeInt64' _ _),
    bind_of_ok (reads_unserializeInt64' _ _)]
  change (unserializeLimitedString 65536 _ >>= fun p ↦ _) = _
  rw [unserializeLimitedString_of_lt hlong hmax]
  rfl

/-- An other account of 65537 bytes is written, and cannot be read. -/
theorem serialize_roundTrip_fails :
    ∃ entry : CAccountingEntry, 0 ∉ entry.strComment ∧ entry.mapValue.lookup keyN = none ∧
      entry.encode.strComment.length ≤ 65536 ∧
      unserialize false 0 {} (entry.serialize false 0).1 =
        .error "String length limit exceeded" := by
  refine ⟨{ strOtherAccount := List.replicate 65537 0x61 }, List.not_mem_nil, rfl, ?_,
    unserialize_of_long _ _ _ _ ?_ ?_⟩
  · exact Nat.zero_le _
  · rw [List.length_replicate]
    norm_num
  · rw [List.length_replicate, maxSize]
    norm_num

end CAccountingEntry

end Fedoracoin
