import Fedoracoin.PartialMerkle
import Mathlib.Data.Nat.Log

/-!
# Extracting what was built

`Pruned` says which bits and hashes stand for a node of a partial merkle tree.
`TraverseAndBuild` appends such bits and hashes (`traverseAndBuild_eq`), and
`TraverseAndExtract` takes them off again and gets the hash of the node and the matched
transactions below it (`Pruned.extract`).
-/

namespace Fedoracoin

open Merkle Wire

variable {hash : Uint256 → Uint256 → Uint256} {vTxid : List Uint256} {vMatch : List Bool}
  {n height pos : Nat}

/-! ## Widths and heights -/

theorem calcTreeWidth_eq (hn : n ≤ 2 ^ 31) (hh : height ≤ 31) :
    calcTreeWidth n height = (n + 2 ^ height - 1) / 2 ^ height := by
  have hpos := Nat.two_pow_pos height
  have hpow : 2 ^ height ≤ 2 ^ 31 := Nat.pow_le_pow_right (by norm_num) hh
  rw [calcTreeWidth, Nat.mod_eq_of_lt (by omega)]

theorem length_row_eq (hash : Uint256 → Uint256 → Uint256) (hn : vTxid.length ≤ 2 ^ 31)
    (hh : height ≤ 31) :
    (row hash vTxid height).length = calcTreeWidth vTxid.length height := by
  rw [length_row, calcTreeWidth_eq hn hh]

theorem calcTreeWidth_succ (hn : n ≤ 2 ^ 31) (hh : height + 1 ≤ 31) :
    calcTreeWidth n (height + 1) = (calcTreeWidth n height + 1) / 2 := by
  have hlen : (List.replicate n (0 : Uint256)).length = n := List.length_replicate
  rw [← hlen] at hn ⊢
  rw [← length_row_eq (fun a _ ↦ a) hn hh, row_succ, length_level,
    length_row_eq _ hn (Nat.le_of_succ_le hh)]

theorem calcTreeWidth_zero (hn : n ≤ 2 ^ 31) : calcTreeWidth n 0 = n := by
  rw [calcTreeWidth_eq hn (by norm_num), pow_zero, Nat.div_one, Nat.add_sub_cancel]

theorem lt_calcTreeWidth (hn : n ≤ 2 ^ 31) (hh : height ≤ 31) :
    pos < calcTreeWidth n height ↔ pos * 2 ^ height < n := by
  have hpos := Nat.two_pow_pos height
  rw [calcTreeWidth_eq hn hh, ← Nat.succ_le_iff, Nat.le_div_iff_mul_le hpos, Nat.succ_mul]
  omega

theorem one_lt_calcTreeWidth_iff (hn : n ≤ 2 ^ 31) (hh : height ≤ 31) :
    1 < calcTreeWidth n height ↔ height < Nat.clog 2 n := by
  rw [lt_calcTreeWidth hn hh, one_mul, Nat.lt_clog_iff_pow_lt one_lt_two]

/-- The loop stops at the height of the tree. -/
theorem calcHeight_eq (hn : n ≤ 2 ^ 31) {fuel : Nat} (hle : height ≤ Nat.clog 2 n)
    (hfuel : Nat.clog 2 n ≤ height + fuel) : calcHeight n fuel height = Nat.clog 2 n := by
  have hclog : Nat.clog 2 n ≤ 31 := (Nat.clog_le_iff_le_pow one_lt_two).mpr hn
  induction fuel generalizing height with
  | zero => exact le_antisymm hle hfuel
  | succ fuel ih =>
      have hiff := one_lt_calcTreeWidth_iff hn (hle.trans hclog)
      rw [calcHeight]
      rcases hle.lt_or_eq with hlt | heq
      · rw [if_pos (hiff.mpr hlt)]
        exact ih hlt (by omega)
      · rw [if_neg fun h ↦ (hiff.mp h).ne heq]
        exact heq

theorem treeHeight_eq (hn : n ≤ 2 ^ 31) : treeHeight n = Nat.clog 2 n := by
  have hclog : Nat.clog 2 n ≤ 31 := (Nat.clog_le_iff_le_pow one_lt_two).mpr hn
  exact calcHeight_eq hn (Nat.zero_le _) (by omega)

theorem treeHeight_le (hn : n ≤ 2 ^ 31) : treeHeight n ≤ 31 := by
  rw [treeHeight_eq hn]
  exact (Nat.clog_le_iff_le_pow one_lt_two).mpr hn

theorem one_lt_calcTreeWidth (hn : n ≤ 2 ^ 31) (hlt : height < treeHeight n) :
    1 < calcTreeWidth n height := by
  rw [one_lt_calcTreeWidth_iff hn (hlt.le.trans (treeHeight_le hn)), ← treeHeight_eq hn]
  exact hlt

/-- There is one node at the top. -/
theorem calcTreeWidth_treeHeight (hpos : 0 < n) (hn : n ≤ 2 ^ 31) :
    calcTreeWidth n (treeHeight n) = 1 := by
  have h0 : 0 < calcTreeWidth n (treeHeight n) := by
    rw [lt_calcTreeWidth hn (treeHeight_le hn), zero_mul]
    exact hpos
  have h1 : ¬ 1 < calcTreeWidth n (treeHeight n) := by
    rw [one_lt_calcTreeWidth_iff hn (treeHeight_le hn), treeHeight_eq hn]
    exact lt_irrefl _
  omega

/-! ## Hashes -/

/-- The recursive hash of a node is the node of the row. -/
theorem getElem?_row (hlen : vTxid.length = n) (hn : n ≤ 2 ^ 31) (hh : height ≤ 31)
    (hpos : pos < calcTreeWidth n height) :
    (row hash vTxid height)[pos]? = some (calcHash hash n vTxid height pos) := by
  subst hlen
  induction height generalizing pos with
  | zero =>
      rw [calcTreeWidth_zero hn] at hpos
      rw [row_zero, calcHash, List.getD_eq_getElem?_getD, List.getElem?_eq_getElem hpos,
        Option.getD_some]
  | succ height ih =>
      have hh' := Nat.le_of_succ_le hh
      rw [calcTreeWidth_succ hn hh] at hpos
      have hleft : pos * 2 < calcTreeWidth vTxid.length height := by omega
      rw [getElem?_row_succ, Nat.mul_comm 2 pos, ih hh' hleft, Option.map_some, calcHash]
      split
      case isTrue hright => rw [ih hh' hright, Option.getD_some]
      case isFalse hright =>
          rw [List.getElem?_eq_none (by rw [length_row_eq _ hn hh']; omega), Option.getD_none]

theorem calcHash_root (hlen : vTxid.length = n) (hpos : 0 < n) (hn : n ≤ 2 ^ 31) :
    calcHash hash n vTxid (treeHeight n) 0 = merkleRoot hash vTxid := by
  have hne : vTxid ≠ [] := List.ne_nil_of_length_pos (by omega)
  have hroot : (tree hash vTxid.length vTxid).getLast? = _ := getLast?_merkleTree hne
  subst hlen
  rw [getLast?_tree_row (h := treeHeight vTxid.length) (le_refl _), getElem?_row rfl hn
    (treeHeight_le hn) (by rw [calcTreeWidth_treeHeight hpos hn]; exact one_pos)] at hroot
  · exact Option.some.inj hroot
  · intro k hk
    rw [length_row_eq _ hn (hk.le.trans (treeHeight_le hn))]
    exact one_lt_calcTreeWidth hn hk
  · rw [length_row_eq _ hn (treeHeight_le hn), calcTreeWidth_treeHeight hpos hn]

/-! ## Matches -/

/-- The matched transactions among `len` of them from `lo` on. -/
def matchedIn (vTxid : List Uint256) (vMatch : List Bool) (lo len : Nat) : List Uint256 :=
  ((((vTxid.zip vMatch).drop lo).take len).filter (·.2)).map (·.1)

/-- The transactions that the mask selects. -/
def matched (vTxid : List Uint256) (vMatch : List Bool) : List Uint256 :=
  ((vTxid.zip vMatch).filter (·.2)).map (·.1)

theorem matchedIn_add (lo a b : Nat) :
    matchedIn vTxid vMatch lo (a + b) =
      matchedIn vTxid vMatch lo a ++ matchedIn vTxid vMatch (lo + a) b := by
  rw [matchedIn, List.take_add, List.filter_append, List.map_append, List.drop_drop]
  rfl

theorem matchedIn_of_le {lo : Nat} (h : vTxid.length ≤ lo) (len : Nat) :
    matchedIn vTxid vMatch lo len = [] := by
  rw [matchedIn, List.drop_eq_nil_of_le]
  · rw [List.take_nil, List.filter_nil, List.map_nil]
  · rw [List.length_zip]
    exact (min_le_left _ _).trans h

theorem matchedIn_all {len : Nat} (h : vTxid.length ≤ len) :
    matchedIn vTxid vMatch 0 len = matched vTxid vMatch := by
  rw [matchedIn, List.drop_zero, List.take_of_length_le, matched]
  rw [List.length_zip]
  exact (min_le_left _ _).trans h

open CPartialMerkleTree in
/-- Nothing is matched below a node whose flag is not set. -/
theorem matchedIn_of_parentOfMatch (hlen : vTxid.length = n)
    (h : parentOfMatch n vMatch height pos = false) :
    matchedIn vTxid vMatch (pos * 2 ^ height) (2 ^ height) = [] := by
  rw [matchedIn, List.map_eq_nil_iff, List.filter_eq_nil_iff]
  intro p hp hmatch
  obtain ⟨i, hi⟩ := List.mem_iff_getElem?.mp hp
  rw [List.getElem?_take, List.getElem?_drop] at hi
  split at hi
  case isFalse => cases hi
  case isTrue hlt =>
    obtain ⟨htx, hm⟩ := List.getElem?_zip_eq_some.mp hi
    rw [parentOfMatch, List.any_eq_false] at h
    apply h (pos * 2 ^ height + i) (List.mem_range'_1.mpr (by omega))
    rw [List.getD_eq_getElem?_getD, hm, Option.getD_some, hmatch, Bool.and_true, decide_eq_true_eq,
      ← hlen]
    exact (List.getElem?_eq_some_iff.mp htx).1

theorem matchedIn_leaf (hlen : vTxid.length = n) (hmask : vMatch.length = n) (hpos : pos < n) :
    matchedIn vTxid vMatch pos 1 =
      if vMatch.getD pos false then [calcHash hash n vTxid 0 pos] else [] := by
  have htx : (vTxid.zip vMatch)[pos]? = some (vTxid.getD pos 0, vMatch.getD pos false) := by
    rw [List.getElem?_zip_eq_some]
    constructor
    · rw [List.getElem?_eq_getElem (by omega), List.getD_eq_getElem _ _ (by omega)]
    · rw [List.getElem?_eq_getElem (by omega)]
      exact congrArg some (List.getD_eq_getElem _ _ (by omega)).symm
  obtain ⟨hlt, heq⟩ := List.getElem?_eq_some_iff.mp htx
  rw [matchedIn, List.drop_eq_getElem_cons hlt, List.take_succ_cons, List.take_zero, heq, calcHash]
  cases vMatch.getD pos false <;> rfl

namespace CPartialMerkleTree

theorem parentOfMatch_leaf (hpos : pos < n) :
    parentOfMatch n vMatch 0 pos = vMatch.getD pos false := by
  rw [parentOfMatch, pow_zero, mul_one, List.range'_one, List.any_cons, List.any_nil,
    Bool.or_false, decide_eq_true hpos, Bool.true_and]

/-! ## What stands for a node -/

/-- The bits and hashes that `TraverseAndBuild` stores for a node. -/
inductive Pruned (hash : Uint256 → Uint256 → Uint256) (vTxid : List Uint256)
    (vMatch : List Bool) : (height pos : Nat) → List Bool → List Uint256 → Prop
  | leaf (pos : Nat) : Pruned hash vTxid vMatch 0 pos [parentOfMatch vTxid.length vMatch 0 pos]
      [calcHash hash vTxid.length vTxid 0 pos]
  | prune {height pos : Nat}
      (hmatch : parentOfMatch vTxid.length vMatch (height + 1) pos = false) :
      Pruned hash vTxid vMatch (height + 1) pos [false]
        [calcHash hash vTxid.length vTxid (height + 1) pos]
  | one {height pos : Nat} {bits : List Bool} {hashes : List Uint256}
      (hmatch : parentOfMatch vTxid.length vMatch (height + 1) pos = true)
      (hright : ¬ pos * 2 + 1 < calcTreeWidth vTxid.length height)
      (left : Pruned hash vTxid vMatch height (pos * 2) bits hashes) :
      Pruned hash vTxid vMatch (height + 1) pos (true :: bits) hashes
  | two {height pos : Nat} {bits bits' : List Bool} {hashes hashes' : List Uint256}
      (hmatch : parentOfMatch vTxid.length vMatch (height + 1) pos = true)
      (hright : pos * 2 + 1 < calcTreeWidth vTxid.length height)
      (left : Pruned hash vTxid vMatch height (pos * 2) bits hashes)
      (right : Pruned hash vTxid vMatch height (pos * 2 + 1) bits' hashes') :
      Pruned hash vTxid vMatch (height + 1) pos (true :: (bits ++ bits')) (hashes ++ hashes')

/-- `TraverseAndBuild` appends what stands for the node. -/
theorem traverseAndBuild_eq (height pos : Nat) (pmt : CPartialMerkleTree)
    (hn : pmt.nTransactions = vTxid.length) :
    ∃ bits hashes, Pruned hash vTxid vMatch height pos bits hashes ∧
      pmt.traverseAndBuild hash vTxid vMatch height pos =
        { pmt with vBits := pmt.vBits ++ bits, vHash := pmt.vHash ++ hashes } := by
  obtain ⟨nTransactions, vBits, vHash, fBad⟩ := pmt
  obtain rfl : nTransactions = vTxid.length := hn
  induction height generalizing pos vBits vHash with
  | zero => exact ⟨_, _, .leaf pos, rfl⟩
  | succ height ih =>
      rw [traverseAndBuild]
      cases hmatch : parentOfMatch vTxid.length vMatch (height + 1) pos with
      | false => exact ⟨_, _, .prune hmatch, rfl⟩
      | true =>
          obtain ⟨bits, hashes, hleft, heq⟩ := ih (pos * 2) (vBits ++ [true]) vHash
          simp only [Bool.not_true, Bool.false_eq_true, if_false, heq]
          split
          case isFalse hright =>
            refine ⟨_, _, .one hmatch hright hleft, ?_⟩
            rw [List.append_assoc, List.singleton_append]
          case isTrue hright =>
            obtain ⟨bits', hashes', hright', heq'⟩ :=
              ih (pos * 2 + 1) (vBits ++ [true] ++ bits) (vHash ++ hashes)
            refine ⟨_, _, .two hmatch hright hleft hright', ?_⟩
            rw [heq']
            simp only [List.append_assoc, List.cons_append, List.nil_append]

section

variable {bits : List Bool} {hashes : List Uint256}

theorem Pruned.hashes_pos (h : Pruned hash vTxid vMatch height pos bits hashes) :
    0 < hashes.length := by
  induction h with
  | leaf pos => exact one_pos
  | prune hmatch => exact one_pos
  | one hmatch hright left ih => exact ih
  | two hmatch hright left right ihl ihr =>
      rw [List.length_append]
      exact Nat.add_pos_left ihl _

/-- A hash has a bit, and there are at most so many bits for a hash as the tree is high. -/
theorem Pruned.length_bits (h : Pruned hash vTxid vMatch height pos bits hashes) :
    hashes.length ≤ bits.length ∧ bits.length ≤ hashes.length * (height + 1) := by
  induction h with
  | leaf pos => exact ⟨le_refl _, le_refl _⟩
  | prune hmatch => exact ⟨le_refl _, Nat.le_mul_of_pos_right _ (Nat.succ_pos _)⟩
  | @one height pos bits hashes hmatch hright left ih =>
      have hpos := left.hashes_pos
      constructor
      · exact ih.1.trans (Nat.le_succ _)
      · rw [List.length_cons, Nat.mul_succ]
        omega
  | @two height pos bits bits' hashes hashes' hmatch hright left right ihl ihr =>
      have hpos := left.hashes_pos
      rw [List.length_cons, List.length_append, List.length_append]
      constructor
      · omega
      · rw [Nat.mul_succ, Nat.add_mul]
        omega

/-- There are no more hashes than transactions below the node. -/
theorem Pruned.length_hashes (h : Pruned hash vTxid vMatch height pos bits hashes)
    (hn : vTxid.length ≤ 2 ^ 31) (hh : height ≤ 31)
    (hpos : pos < calcTreeWidth vTxid.length height) :
    hashes.length ≤ min (vTxid.length - pos * 2 ^ height) (2 ^ height) := by
  rw [lt_calcTreeWidth hn hh] at hpos
  induction h with
  | leaf pos =>
      rw [List.length_singleton, pow_zero]
      omega
  | @prune height pos hmatch =>
      have hpow := Nat.two_pow_pos (height + 1)
      rw [List.length_singleton]
      omega
  | @one height pos bits hashes hmatch hright left ih =>
      rw [pow_succ', ← Nat.mul_assoc] at hpos ⊢
      have h := ih (Nat.le_of_succ_le hh) hpos
      omega
  | @two height pos bits bits' hashes hashes' hmatch hright left right ihl ihr =>
      have hh' := Nat.le_of_succ_le hh
      rw [lt_calcTreeWidth hn hh'] at hright
      rw [pow_succ', ← Nat.mul_assoc] at hpos ⊢
      have hl := ihl hh' hpos
      have hr := ihr hh' hright
      rw [Nat.succ_mul] at hr hright
      rw [List.length_append]
      omega

/-- The state after the bits and hashes of a node. -/
def Extraction.advance (s : Extraction) (bits : List Bool) (hashes txids : List Uint256) :
    Extraction :=
  { s with
    nBitsUsed := s.nBitsUsed + bits.length
    nHashUsed := s.nHashUsed + hashes.length
    vMatch := s.vMatch ++ txids }

@[simp] theorem Extraction.advance_advance (s : Extraction) (bits bits' : List Bool)
    (hashes hashes' txids txids' : List Uint256) :
    (s.advance bits hashes txids).advance bits' hashes' txids' =
      s.advance (bits ++ bits') (hashes ++ hashes') (txids ++ txids') := by
  simp only [advance, List.length_append, List.append_assoc, Nat.add_assoc]

theorem Extraction.advance_bit (s : Extraction) (f : Bool) :
    s.advance [f] [] [] = { s with nBitsUsed := s.nBitsUsed + 1 } := by
  rw [advance, List.append_nil]
  rfl

theorem drop_advance {α : Type} {l l₁ l₂ : List α} {i : Nat} (h : l.drop i = l₁ ++ l₂) :
    l.drop (i + l₁.length) = l₂ := by
  rw [← List.drop_drop, h, List.drop_left]

theorem getElem?_of_drop {α : Type} {l l' : List α} {i : Nat} {a : α} (h : l.drop i = a :: l') :
    l[i]? = some a := by
  have hget : (l.drop i)[0]? = l[i + 0]? := List.getElem?_drop
  rw [h] at hget
  exact hget.symm

/-! ### One step of the extraction -/

section

variable {pmt : CPartialMerkleTree} {s s' : Extraction} {bits' : List Bool}
  {hashes' : List Uint256} {left right : Uint256}

theorem useHash_eq {x : Uint256} (h : pmt.vHash.drop s.nHashUsed = x :: hashes')
    (fMatched : Bool) :
    pmt.useHash fMatched s = (x, s.advance [] [x] (if fMatched then [x] else [])) := by
  rw [useHash, getElem?_of_drop h]
  cases fMatched <;> simp [Extraction.advance]

theorem extract_leaf {f : Bool} (h : pmt.vBits.drop s.nBitsUsed = f :: bits') :
    pmt.traverseAndExtract hash 0 pos s = pmt.useHash f (s.advance [f] [] []) := by
  rw [traverseAndExtract, getElem?_of_drop h, Extraction.advance_bit]

theorem extract_prune (h : pmt.vBits.drop s.nBitsUsed = false :: bits') :
    pmt.traverseAndExtract hash (height + 1) pos s =
      pmt.useHash false (s.advance [false] [] []) := by
  rw [traverseAndExtract, getElem?_of_drop h, Extraction.advance_bit]
  rfl

theorem extract_one (h : pmt.vBits.drop s.nBitsUsed = true :: bits')
    (hright : ¬ pos * 2 + 1 < calcTreeWidth pmt.nTransactions height)
    (hl : pmt.traverseAndExtract hash height (pos * 2) (s.advance [true] [] []) = (left, s')) :
    pmt.traverseAndExtract hash (height + 1) pos s = (hash left left, s') := by
  rw [Extraction.advance_bit] at hl
  rw [traverseAndExtract, getElem?_of_drop h]
  simp only [Bool.not_true, Bool.false_eq_true, if_false, hl, if_neg hright]

theorem extract_two {s'' : Extraction} (h : pmt.vBits.drop s.nBitsUsed = true :: bits')
    (hright : pos * 2 + 1 < calcTreeWidth pmt.nTransactions height)
    (hl : pmt.traverseAndExtract hash height (pos * 2) (s.advance [true] [] []) = (left, s'))
    (hr : pmt.traverseAndExtract hash height (pos * 2 + 1) s' = (right, s'')) :
    pmt.traverseAndExtract hash (height + 1) pos s = (hash left right, s'') := by
  rw [Extraction.advance_bit] at hl
  rw [traverseAndExtract, getElem?_of_drop h]
  simp only [Bool.not_true, Bool.false_eq_true, if_false, hl, if_pos hright, hr]

end

/-- `TraverseAndExtract` takes off what stands for a node. -/
theorem Pruned.extract (h : Pruned hash vTxid vMatch height pos bits hashes)
    (hmask : vMatch.length = vTxid.length) (hn : vTxid.length ≤ 2 ^ 31) (hh : height ≤ 31)
    (hpos : pos < calcTreeWidth vTxid.length height) (pmt : CPartialMerkleTree)
    (htx : pmt.nTransactions = vTxid.length) (s : Extraction) {bits' : List Bool}
    {hashes' : List Uint256} (hbits : pmt.vBits.drop s.nBitsUsed = bits ++ bits')
    (hhashes : pmt.vHash.drop s.nHashUsed = hashes ++ hashes') :
    pmt.traverseAndExtract hash height pos s =
      (calcHash hash vTxid.length vTxid height pos,
        s.advance bits hashes (matchedIn vTxid vMatch (pos * 2 ^ height) (2 ^ height))) := by
  induction h generalizing s bits' hashes' with
  | leaf pos =>
      rw [calcTreeWidth_zero hn] at hpos
      rw [extract_leaf hbits, useHash_eq (s := s.advance [_] [] []) hhashes,
        Extraction.advance_advance, pow_zero, mul_one, matchedIn_leaf rfl hmask hpos,
        parentOfMatch_leaf hpos]
      rfl
  | @prune height pos hmatch =>
      rw [extract_prune hbits, useHash_eq (s := s.advance [_] [] []) hhashes,
        Extraction.advance_advance, matchedIn_of_parentOfMatch rfl hmatch]
      rfl
  | @one height pos bits hashes hmatch hright left ih =>
      have hh' := Nat.le_of_succ_le hh
      rw [lt_calcTreeWidth hn hh, pow_succ', ← Nat.mul_assoc, ← lt_calcTreeWidth hn hh'] at hpos
      rw [lt_calcTreeWidth hn hh', Nat.not_lt, Nat.succ_mul] at hright
      have hl := ih hh' hpos (s.advance [true] [] []) (drop_advance hbits) hhashes
      have hwidth : ¬ pos * 2 + 1 < calcTreeWidth vTxid.length height := by
        rw [lt_calcTreeWidth hn hh', Nat.succ_mul]
        exact Nat.not_lt.mpr hright
      rw [extract_one hbits (htx ▸ hwidth) hl, calcHash, Extraction.advance_advance, pow_succ',
        ← Nat.mul_assoc, Nat.two_mul, matchedIn_add, matchedIn_of_le hright, List.append_nil]
      simp only [if_neg hwidth]
      rfl
  | @two height pos bits bits' hashes hashes' hmatch hright left right ihl ihr =>
      have hh' := Nat.le_of_succ_le hh
      rw [lt_calcTreeWidth hn hh, pow_succ', ← Nat.mul_assoc, ← lt_calcTreeWidth hn hh'] at hpos
      rw [List.cons_append, List.append_assoc] at hbits
      rw [List.append_assoc] at hhashes
      have hbits' : pmt.vBits.drop (s.nBitsUsed + [true].length) = _ := drop_advance hbits
      have hl := ihl hh' hpos (s.advance [true] [] []) hbits' hhashes
      have hr := ihr hh' hright
        ((s.advance [true] [] []).advance bits hashes
          (matchedIn vTxid vMatch (pos * 2 * 2 ^ height) (2 ^ height)))
        (drop_advance hbits') (drop_advance hhashes)
      rw [extract_two hbits (htx ▸ hright) hl hr, calcHash, Extraction.advance_advance,
        Extraction.advance_advance, pow_succ', ← Nat.mul_assoc, Nat.two_mul, matchedIn_add]
      simp only [if_pos hright, Nat.succ_mul]
      rfl

end

/-! ## The round trip -/

/-- What the constructor makes for a block that may be on the network. -/
theorem ofMatch_eq (hash : Uint256 → Uint256 → Uint256) (vMatch : List Bool)
    (hn : vTxid.length ≤ 2 ^ 31) :
    ∃ bits hashes, Pruned hash vTxid vMatch (treeHeight vTxid.length) 0 bits hashes ∧
      ofMatch hash vTxid vMatch =
        { nTransactions := vTxid.length, vBits := bits, vHash := hashes, fBad := false } := by
  have hmod : vTxid.length % 2 ^ 32 = vTxid.length := Nat.mod_eq_of_lt (by omega)
  rw [ofMatch, hmod]
  exact traverseAndBuild_eq _ _ { nTransactions := vTxid.length, fBad := false } rfl

/-- A tree comes back from the wire with its bits filled up to whole bytes. -/
theorem reads_unserialize {pmt : CPartialMerkleTree} (hn : pmt.nTransactions < 2 ^ 32)
    (hhash : pmt.vHash.length ≤ maxSize) (hbits : (pmt.vBits.length + 7) / 8 ≤ maxSize) :
    Reads unserialize pmt.serialize
      { pmt with
        vBits := pmt.vBits ++
          List.replicate ((pmt.vBits.length + 7) / 8 * 8 - pmt.vBits.length) false
        fBad := false } := by
  rw [serialize, List.append_assoc, ← unpackBits_packBits]
  apply (reads_readUInt (by omega)).bind
  apply (reads_unserializeVector hhash fun a _ ↦ reads_unserializeUint256 a).bind
  apply (reads_unserializeVector _ fun b _ ↦ reads_unserializeByte b).map
    fun vBytes ↦ CPartialMerkleTree.mk pmt.nTransactions (unpackBits vBytes) pmt.vHash false
  rwa [length_packBits]

/-- All the tests of `ExtractMatches` passed. -/
theorem extractMatches_eq {pmt : CPartialMerkleTree} {hashMerkleRoot : Uint256} {s : Extraction}
    (h0 : pmt.nTransactions ≠ 0) (hmax : pmt.nTransactions ≤ maxBlockSize / 60)
    (hhashes : pmt.vHash.length ≤ pmt.nTransactions)
    (hbits : pmt.vHash.length ≤ pmt.vBits.length)
    (htraverse : pmt.traverseAndExtract hash (treeHeight pmt.nTransactions) 0
      { fBad := pmt.fBad } = (hashMerkleRoot, s))
    (hbad : s.fBad = false) (hused : (s.nBitsUsed + 7) / 8 = (pmt.vBits.length + 7) / 8)
    (hused' : s.nHashUsed = pmt.vHash.length) :
    pmt.extractMatches hash = (hashMerkleRoot, s) := by
  rw [extractMatches, if_neg h0, if_neg (Nat.not_lt.mpr hmax), if_neg (Nat.not_lt.mpr hhashes),
    if_neg (Nat.not_lt.mpr hbits)]
  simp only [htraverse, hbad, Bool.false_eq_true, if_false, if_neg (not_not.mpr hused),
    if_neg (not_not.mpr hused')]

/-- Building a partial merkle tree for a mask, sending it and extracting its matches gives the
root of the block and the transactions that the mask selects, with nothing left over. -/
theorem extractMatches_ofMatch (hash : Uint256 → Uint256 → Uint256) (vTxid : List Uint256)
    (vMatch : List Bool) (hmask : vMatch.length = vTxid.length) (hpos : 1 ≤ vTxid.length)
    (hmax : vTxid.length ≤ maxBlockSize / 60) :
    ∃ pmt, (∀ rest, unserialize ((ofMatch hash vTxid vMatch).serialize ++ rest) =
        .ok (pmt, rest)) ∧
      (pmt.extractMatches hash).1 = merkleRoot hash vTxid ∧
      (pmt.extractMatches hash).2.vMatch = matched vTxid vMatch ∧
      (pmt.extractMatches hash).2.fBad = false ∧
      (pmt.extractMatches hash).2.nHashUsed = pmt.vHash.length ∧
      (pmt.extractMatches hash).2.nBitsUsed = (ofMatch hash vTxid vMatch).vBits.length ∧
      ((pmt.extractMatches hash).2.nBitsUsed + 7) / 8 = (pmt.vBits.length + 7) / 8 := by
  have hn' : vTxid.length ≤ 16666 := hmax
  have hn : vTxid.length ≤ 2 ^ 31 := by omega
  have hheight := treeHeight_le hn
  have hwidth := calcTreeWidth_treeHeight hpos hn
  obtain ⟨bits, hashes, hpruned, hbuilt⟩ := ofMatch_eq hash vMatch hn
  have hhashes : hashes.length ≤ vTxid.length := by
    have h := hpruned.length_hashes hn hheight (by omega)
    omega
  obtain ⟨hle, hbits⟩ := hpruned.length_bits
  have hbits' : bits.length ≤ 16666 * 32 :=
    hbits.trans (Nat.mul_le_mul (hhashes.trans hn') (Nat.succ_le_succ hheight))
  have hmaxSize : maxSize = 33554432 := rfl
  let padding := List.replicate ((bits.length + 7) / 8 * 8 - bits.length) false
  let pmt : CPartialMerkleTree := ⟨vTxid.length, bits ++ padding, hashes, false⟩
  have hextract := hpruned.extract hmask hn hheight (by omega) pmt rfl { fBad := false } rfl
    (List.append_nil hashes).symm
  have hpadding : (bits.length + 7) / 8 = ((bits ++ padding).length + 7) / 8 := by
    rw [List.length_append, List.length_replicate]
    omega
  have hused : (0 + bits.length + 7) / 8 = ((bits ++ padding).length + 7) / 8 := by
    rw [Nat.zero_add, hpadding]
  have hall : matchedIn vTxid vMatch (0 * 2 ^ treeHeight vTxid.length)
      (2 ^ treeHeight vTxid.length) = matched vTxid vMatch := by
    rw [Nat.zero_mul]
    apply matchedIn_all
    rw [treeHeight_eq hn]
    exact Nat.le_pow_clog one_lt_two _
  have hok : pmt.extractMatches hash = (merkleRoot hash vTxid,
      (Extraction.mk 0 0 [] false).advance bits hashes (matched vTxid vMatch)) := by
    apply extractMatches_eq (Nat.one_le_iff_ne_zero.mp hpos) hmax hhashes _ _ rfl hused
      (Nat.zero_add _)
    · exact hle.trans (by rw [List.length_append]; exact Nat.le_add_right _ _)
    · rw [hextract, hall, calcHash_root rfl hpos hn]
  rw [hbuilt]
  refine ⟨pmt, ?_, ?_⟩
  · apply reads_unserialize
    · exact hn.trans_lt (by norm_num)
    · exact hhashes.trans (by omega)
    · change (bits.length + 7) / 8 ≤ maxSize
      omega
  · rw [hok]
    exact ⟨rfl, List.nil_append _, rfl, Nat.zero_add _, Nat.zero_add _, hused⟩

/-- Three transactions, of which the first and the last are matched. -/
theorem extractMatches_ofMatch_sample :
    ∃ pmt, unserialize ((ofMatch sampleHash [1, 2, 3] [true, false, true]).serialize ++ []) =
        .ok (pmt, []) ∧
      (pmt.extractMatches sampleHash).1 = 1233 ∧
      (pmt.extractMatches sampleHash).2.vMatch = [1, 3] := by
  obtain ⟨pmt, hwire, hroot, hmatch, _⟩ := extractMatches_ofMatch sampleHash [1, 2, 3]
    [true, false, true] rfl (by decide) (by decide)
  exact ⟨pmt, hwire [], hroot.trans (by decide), hmatch⟩

end CPartialMerkleTree

end Fedoracoin
