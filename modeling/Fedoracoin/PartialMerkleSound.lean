import Fedoracoin.PartialMerkleTrip

/-!
# What an extracted match is worth

A partial merkle tree from a peer is checked against the root of a block.  If the root is right,
every hash that `TraverseAndExtract` returns is that of a node of the block
(`traverseAndExtract_marked`), so what it collects are transactions of the block.  Which ones,
and how often, is decided by the flags and the two numbers of transactions alone
(`markedLeaves`): where the claimed tree has a right child and the block repeats the left one,
the traversal goes through the left one again.
-/

namespace Fedoracoin

open Merkle

variable {hash : Uint256 → Uint256 → Uint256} {txids : List Uint256}

/-! ## Lists of positions -/

theorem map_idxOf_self {l : List Uint256} (hl : l.Nodup) :
    l.map (l.idxOf ·) = List.range l.length := by
  apply List.ext_getElem (by simp)
  intro i hi _
  rw [List.getElem_map, List.getElem_range, hl.idxOf_getElem]

/-- The elements at some positions are in the order of the list if the positions are. -/
theorem map_getD_sublist_iff {l : List Uint256} (hl : l.Nodup) {is : List Nat} {d : Uint256}
    (his : ∀ i ∈ is, i < l.length) : (is.map (l.getD · d)).Sublist l ↔ is.Pairwise (· < ·) := by
  constructor
  · intro h
    have hback : (is.map (l.getD · d)).map (l.idxOf ·) = is := by
      rw [List.map_map]
      conv_rhs => rw [← List.map_id is]
      apply List.map_congr_left
      intro i hi
      change l.idxOf (l.getD i d) = i
      rw [List.getD_eq_getElem _ _ (his i hi), hl.idxOf_getElem]
    have hsub := h.map (l.idxOf ·)
    rw [hback, map_idxOf_self hl] at hsub
    exact List.pairwise_lt_range.sublist hsub
  · intro h
    have hrange : (List.range l.length).map (l.getD · d) = l := by
      apply List.ext_getElem (by simp)
      intro i _ hi
      rw [List.getElem_map, List.getElem_range, List.getD_eq_getElem _ _ hi]
    have hsub : is.Sublist (List.range l.length) := by
      apply List.sublist_of_subperm_of_sortedLE
      · have hnodup : is.Nodup := h.imp Nat.ne_of_lt
        exact List.subperm_of_subset hnodup fun i hi ↦ List.mem_range.mpr (his i hi)
      · exact h.sortedLT.sortedLE
      · exact List.pairwise_lt_range.sortedLT.sortedLE
    have hmap := hsub.map (l.getD · d)
    rwa [hrange] at hmap

namespace CPartialMerkleTree

/-! ## Which transactions of the block are collected -/

/-- The positions in a block of `n` transactions that the flags mark below node `pos`, where
the traversal meets node `q` of the block, and the number of bits used then. -/
def markedLeaves (pmt : CPartialMerkleTree) (n : Nat) :
    (height pos q nBitsUsed : Nat) → List Nat × Nat
  | 0, _, q, nBitsUsed =>
      match pmt.vBits[nBitsUsed]? with
      | none => ([], nBitsUsed)
      | some fParentOfMatch => (if fParentOfMatch then [q] else [], nBitsUsed + 1)
  | height + 1, pos, q, nBitsUsed =>
      match pmt.vBits[nBitsUsed]? with
      | none => ([], nBitsUsed)
      | some false => ([], nBitsUsed + 1)
      | some true =>
          let (left, nBitsUsed) :=
            pmt.markedLeaves n height (pos * 2) (q * 2) (nBitsUsed + 1)
          if pos * 2 + 1 < calcTreeWidth pmt.nTransactions height then
            -- without a right child the block hashes the left one twice
            let q' := if q * 2 + 1 < calcTreeWidth n height then q * 2 + 1 else q * 2
            let (right, nBitsUsed) := pmt.markedLeaves n height (pos * 2 + 1) q' nBitsUsed
            (left ++ right, nBitsUsed)
          else (left, nBitsUsed)

/-- The positions in a block of `n` transactions that the flags mark. -/
def marked (pmt : CPartialMerkleTree) (n : Nat) : List Nat :=
  (pmt.markedLeaves n (treeHeight pmt.nTransactions) 0 0 0).1

variable {pmt : CPartialMerkleTree} {s s' : Extraction} {height pos q n used : Nat}
  {v : Uint256}

/-- Using a hash without failure. -/
theorem useHash_inv {f : Bool} (h : pmt.useHash f s = (v, s')) (hbad : s'.fBad = false) :
    s.fBad = false ∧ s'.nBitsUsed = s.nBitsUsed ∧
      s'.vMatch = s.vMatch ++ if f then [v] else [] := by
  rw [useHash] at h
  split at h
  · obtain ⟨_, rfl⟩ := Prod.mk.inj h
    cases hbad
  · obtain ⟨rfl, rfl⟩ := Prod.mk.inj h
    refine ⟨hbad, rfl, ?_⟩
    cases f
    · exact (List.append_nil _).symm
    · rfl

/-- A traversal without failure. -/
inductive Extracts (hash : Uint256 → Uint256 → Uint256) (pmt : CPartialMerkleTree) :
    (height pos : Nat) → Extraction → Uint256 → Extraction → Prop
  | leaf {pos : Nat} {s s' : Extraction} {f : Bool} {v : Uint256}
      (hbit : pmt.vBits[s.nBitsUsed]? = some f) (hbits : s'.nBitsUsed = s.nBitsUsed + 1)
      (hmatch : s'.vMatch = s.vMatch ++ if f then [v] else []) : Extracts hash pmt 0 pos s v s'
  | prune {height pos : Nat} {s s' : Extraction} {v : Uint256}
      (hbit : pmt.vBits[s.nBitsUsed]? = some false) (hbits : s'.nBitsUsed = s.nBitsUsed + 1)
      (hmatch : s'.vMatch = s.vMatch) : Extracts hash pmt (height + 1) pos s v s'
  | one {height pos : Nat} {s s' : Extraction} {v : Uint256}
      (hbit : pmt.vBits[s.nBitsUsed]? = some true)
      (hright : ¬ pos * 2 + 1 < calcTreeWidth pmt.nTransactions height)
      (left : Extracts hash pmt height (pos * 2)
        { s with nBitsUsed := s.nBitsUsed + 1 } v s') :
      Extracts hash pmt (height + 1) pos s (hash v v) s'
  | two {height pos : Nat} {s s₁ s' : Extraction} {v w : Uint256}
      (hbit : pmt.vBits[s.nBitsUsed]? = some true)
      (hright : pos * 2 + 1 < calcTreeWidth pmt.nTransactions height)
      (left : Extracts hash pmt height (pos * 2)
        { s with nBitsUsed := s.nBitsUsed + 1 } v s₁)
      (right : Extracts hash pmt height (pos * 2 + 1) s₁ w s') :
      Extracts hash pmt (height + 1) pos s (hash v w) s'

theorem extracts_of_traverseAndExtract
    (h : pmt.traverseAndExtract hash height pos s = (v, s')) (hbad : s'.fBad = false) :
    s.fBad = false ∧ Extracts hash pmt height pos s v s' := by
  induction height generalizing pos s v s' with
  | zero =>
      rw [traverseAndExtract] at h
      cases hbit : pmt.vBits[s.nBitsUsed]? with
      | none =>
          rw [hbit] at h
          obtain ⟨_, rfl⟩ := Prod.mk.inj h
          cases hbad
      | some f =>
          rw [hbit] at h
          obtain ⟨hs, hbits, hmatch⟩ := useHash_inv h hbad
          exact ⟨hs, .leaf hbit hbits hmatch⟩
  | succ height ih =>
      rw [traverseAndExtract] at h
      cases hbit : pmt.vBits[s.nBitsUsed]? with
      | none =>
          rw [hbit] at h
          obtain ⟨_, rfl⟩ := Prod.mk.inj h
          cases hbad
      | some f =>
          rw [hbit] at h
          cases f with
          | false =>
              obtain ⟨hs, hbits, hmatch⟩ := useHash_inv h hbad
              exact ⟨hs, .prune hbit hbits (hmatch.trans (List.append_nil _))⟩
          | true =>
              rcases hl : pmt.traverseAndExtract hash height (pos * 2)
                { s with nBitsUsed := s.nBitsUsed + 1 } with ⟨left, s₁⟩
              simp only [Bool.not_true, Bool.false_eq_true, if_false, hl] at h
              by_cases hright : pos * 2 + 1 < calcTreeWidth pmt.nTransactions height
              · rcases hr : pmt.traverseAndExtract hash height (pos * 2 + 1) s₁ with ⟨right, s₂⟩
                rw [if_pos hright, hr] at h
                obtain ⟨rfl, rfl⟩ := Prod.mk.inj h
                obtain ⟨hs₁, hright'⟩ := ih hr hbad
                obtain ⟨hs, hleft⟩ := ih hl hs₁
                exact ⟨hs, .two hbit hright hleft hright'⟩
              · rw [if_neg hright] at h
                obtain ⟨rfl, rfl⟩ := Prod.mk.inj h
                obtain ⟨hs, hleft⟩ := ih hl hbad
                exact ⟨hs, .one hbit hright hleft⟩

/-- The hashes below a node of the block. -/
theorem getElem?_children {w : Uint256} (hlen : txids.length = n) (hn : n ≤ 2 ^ 31)
    (hbind : Binding hash (merkleInputs hash txids)) (hh : height + 1 ≤ treeHeight n)
    (hq : (row hash txids (height + 1))[q]? = some (hash v w)) :
    (row hash txids height)[q * 2]? = some v ∧
      (row hash txids height)[
        if q * 2 + 1 < calcTreeWidth n height then q * 2 + 1 else q * 2]? = some w := by
  subst hlen
  have hheight := treeHeight_le hn
  have hwidth := length_row_eq hash hn (show height ≤ 31 by omega)
  have hinputs : pairs (row hash txids height) ⊆ merkleInputs hash txids := by
    apply pairs_row_subset (le_refl _)
    intro k hk
    rw [length_row_eq _ hn (by omega)]
    exact one_lt_calcTreeWidth hn (by omega)
  rw [getElem?_row_succ, Option.map_eq_some_iff, Nat.mul_comm] at hq
  obtain ⟨a, ha, heq⟩ := hq
  have hmem : (a, (row hash txids height)[q * 2 + 1]?.getD a) ∈ pairs (row hash txids height) := by
    apply List.mem_of_getElem? (i := q)
    rw [getElem?_pairs, Nat.mul_comm, ha, Option.map_some]
  obtain ⟨rfl, rfl⟩ := Prod.mk.inj (hbind _ (hinputs hmem) v w heq.symm)
  refine ⟨ha, ?_⟩
  split
  case isTrue hright =>
    rw [← hwidth] at hright
    rw [List.getElem?_eq_getElem hright, Option.getD_some]
  case isFalse hright =>
    rw [← hwidth, Nat.not_lt] at hright
    rw [ha, List.getElem?_eq_none hright, Option.getD_none]

/-- If the traversal gets the hash of a node of the block, it collects what is marked below. -/
theorem Extracts.marked (h : Extracts hash pmt height pos s v s') (hlen : txids.length = n)
    (hn : n ≤ 2 ^ 31) (hbind : Binding hash (merkleInputs hash txids))
    (hh : height ≤ treeHeight n) (hq : (row hash txids height)[q]? = some v) :
    s'.nBitsUsed = (pmt.markedLeaves n height pos q s.nBitsUsed).2 ∧
      s'.vMatch = s.vMatch ++
        (pmt.markedLeaves n height pos q s.nBitsUsed).1.map (txids.getD · 0) ∧
      ∀ i ∈ (pmt.markedLeaves n height pos q s.nBitsUsed).1, i < n := by
  induction h generalizing q with
  | @leaf pos s s' f v hbit hbits hmatch =>
      rw [row_zero] at hq
      obtain ⟨hlt, hget⟩ := List.getElem?_eq_some_iff.mp hq
      rw [markedLeaves, hbit]
      refine ⟨hbits, ?_, ?_⟩
      · rw [hmatch]
        cases f with
        | false => rfl
        | true => simp [hq]
      · cases f with
        | false => simp
        | true => simpa using hlen ▸ hlt
  | @prune height pos s s' v hbit hbits hmatch =>
      rw [markedLeaves, hbit]
      refine ⟨hbits, ?_, ?_⟩
      · rw [hmatch]
        exact (List.append_nil _).symm
      · simp
  | @one height pos s s' v hbit hright left ih =>
      obtain ⟨hleft, _⟩ := getElem?_children hlen hn hbind hh hq
      rw [markedLeaves, hbit]
      simp only [if_neg hright]
      exact ih (Nat.le_of_succ_le hh) hleft
  | @two height pos s s₁ s' v w hbit hright left right ihl ihr =>
      obtain ⟨hleft, hright'⟩ := getElem?_children hlen hn hbind hh hq
      obtain ⟨hused₁, hmatch₁, hlt₁⟩ := ihl (Nat.le_of_succ_le hh) hleft
      obtain ⟨hused, hmatch, hlt⟩ := ihr (Nat.le_of_succ_le hh) hright'
      rw [hused₁] at hused hmatch hlt
      rw [markedLeaves, hbit]
      simp only [if_pos hright]
      refine ⟨hused, ?_, ?_⟩
      · rw [hmatch, hmatch₁, List.map_append, List.append_assoc]
      · intro i hi
        rcases List.mem_append.mp hi with hi | hi
        · exact hlt₁ i hi
        · exact hlt i hi

/-! ## No more transactions than the block has -/

/-- With no more transactions than the block has, the traversal meets the nodes of the block at
their own positions, and marks transactions in order. -/
theorem markedLeaves_pairwise (hle : pmt.nTransactions ≤ n) (hn : n ≤ 2 ^ 31) (pos used : Nat)
    (hh : height ≤ 31) :
    (pmt.markedLeaves n height pos pos used).1.Pairwise (· < ·) ∧
      ∀ i ∈ (pmt.markedLeaves n height pos pos used).1,
        pos * 2 ^ height ≤ i ∧ i < (pos + 1) * 2 ^ height := by
  induction height generalizing pos used with
  | zero =>
      rw [markedLeaves]
      cases pmt.vBits[used]? with
      | none => simp
      | some f => cases f <;> simp
  | succ height ih =>
      rw [markedLeaves]
      rcases pmt.vBits[used]? with _ | _ | _
      · simp
      · simp
      · have hh' := Nat.le_of_succ_le hh
        have hlo : pos * 2 ^ (height + 1) = pos * 2 * 2 ^ height := by ring
        have hmid : pos * 2 * 2 ^ height ≤ (pos * 2 + 1) * 2 ^ height :=
          Nat.mul_le_mul_right _ (Nat.le_succ _)
        have hmid' : (pos * 2 + 1) * 2 ^ height ≤ (pos * 2 + 1 + 1) * 2 ^ height :=
          Nat.mul_le_mul_right _ (Nat.le_succ _)
        have hhi : (pos + 1) * 2 ^ (height + 1) = (pos * 2 + 1 + 1) * 2 ^ height := by ring
        obtain ⟨hsorted, hin⟩ := ih (pos * 2) (used + 1) hh'
        by_cases hright : pos * 2 + 1 < calcTreeWidth pmt.nTransactions height
        · have hright' : pos * 2 + 1 < calcTreeWidth n height := by
            rw [lt_calcTreeWidth hn hh']
            rw [lt_calcTreeWidth (hle.trans hn) hh'] at hright
            exact hright.trans_le hle
          obtain ⟨hsorted', hin'⟩ := ih (pos * 2 + 1)
            (pmt.markedLeaves n height (pos * 2) (pos * 2) (used + 1)).2 hh'
          simp only [if_pos hright, if_pos hright', hlo, hhi]
          refine ⟨List.pairwise_append.mpr ⟨hsorted, hsorted', ?_⟩, ?_⟩
          · intro i hi j hj
            exact (hin i hi).2.trans_le (hin' j hj).1
          · intro i hi
            rcases List.mem_append.mp hi with hi | hi
            · exact ⟨(hin i hi).1, (hin i hi).2.trans_le hmid'⟩
            · exact ⟨hmid.trans (hin' i hi).1, (hin' i hi).2⟩
        · simp only [if_neg hright]
          refine ⟨hsorted, fun i hi ↦ ?_⟩
          rw [hlo, hhi]
          exact ⟨(hin i hi).1, (hin i hi).2.trans_le hmid'⟩

/-! ## Soundness -/

/-- `ExtractMatches` that returns something else than zero. -/
theorem extractMatches_inv {root : Uint256} (h : pmt.extractMatches hash = (root, s'))
    (hne : root ≠ 0) : pmt.nTransactions ≤ maxBlockSize / 60 ∧
      Extracts hash pmt (treeHeight pmt.nTransactions) 0 { fBad := pmt.fBad } root s' := by
  rcases htraverse : pmt.traverseAndExtract hash (treeHeight pmt.nTransactions) 0
    { fBad := pmt.fBad } with ⟨root', s₁⟩
  simp only [extractMatches, htraverse] at h
  split_ifs at h with h₁ h₂ h₃ h₄ hbad h₅ h₆
  case neg =>
    obtain ⟨rfl, rfl⟩ := Prod.mk.inj h
    have hbad' : s₁.fBad = false := Bool.eq_false_iff.mpr hbad
    exact ⟨Nat.not_lt.mp h₂, (extracts_of_traverseAndExtract htraverse hbad').2⟩
  all_goals exact absurd (Prod.mk.inj h).1.symm hne

/-- A tree whose `ExtractMatches` returns the merkle root of a block, which is not the zero that
stands for failure, and that has as many levels as the block, yields distinct transactions of the
block in their order if and only if the positions it marks are increasing; and so it is if it
claims no more transactions than the block has. -/
theorem extractMatches_sublist_iff (hash : Uint256 → Uint256 → Uint256) (txids : List Uint256)
    (pmt : CPartialMerkleTree) (hbind : Binding hash (merkleInputs hash txids))
    (hnodup : txids.Nodup) (hne : merkleRoot hash txids ≠ 0)
    (hheight : treeHeight pmt.nTransactions = Nat.clog 2 txids.length)
    (hroot : (pmt.extractMatches hash).1 = merkleRoot hash txids) :
    ((pmt.extractMatches hash).2.vMatch.Sublist txids ↔
      (pmt.marked txids.length).Pairwise (· < ·)) ∧
    (pmt.nTransactions ≤ txids.length → (pmt.marked txids.length).Pairwise (· < ·)) := by
  obtain ⟨hmax, hextract⟩ := extractMatches_inv (Prod.ext hroot rfl) hne
  have hmax' : pmt.nTransactions ≤ 16666 := hmax
  have hn' : pmt.nTransactions ≤ 2 ^ 31 := by omega
  have hn : txids.length ≤ 2 ^ 31 := by
    rw [← Nat.clog_le_iff_le_pow one_lt_two, ← hheight]
    exact treeHeight_le hn'
  rw [← treeHeight_eq hn] at hheight
  have hlen : 0 < txids.length := by
    apply List.length_pos_of_ne_nil
    rintro rfl
    exact hne rfl
  have hrow : (row hash txids (treeHeight pmt.nTransactions))[0]? =
      some (merkleRoot hash txids) := by
    rw [hheight, ← calcHash_root rfl hlen hn]
    apply getElem?_row rfl hn (treeHeight_le hn)
    rw [calcTreeWidth_treeHeight hlen hn]
    exact one_pos
  obtain ⟨_, hmatch, hlt⟩ := hextract.marked rfl hn hbind hheight.le hrow
  rw [List.nil_append] at hmatch
  constructor
  · rw [hmatch]
    exact map_getD_sublist_iff hnodup hlt
  · intro hle
    exact (markedLeaves_pairwise hle hn 0 0 (treeHeight_le hn')).1

theorem sampleHash_binding : Binding sampleHash (merkleInputs sampleHash [1, 2, 3]) :=
  sampleHash_binds (by decide)

/-- The first and the last of three transactions. -/
theorem extractMatches_sublist_iff_sample :
    (extractMatches sampleHash ⟨3, [true, true, true, false, true, true, false, false],
      [1, 2, 3], false⟩).2.vMatch.Sublist [1, 2, 3] := by
  obtain ⟨hiff, hle⟩ := extractMatches_sublist_iff sampleHash [1, 2, 3]
    ⟨3, [true, true, true, false, true, true, false, false], [1, 2, 3], false⟩
    sampleHash_binding (by decide) (by decide) (by decide) (by decide)
  exact hiff.mpr (hle (le_refl 3))

/-- Four transactions are claimed for a block of three, and the third is marked both where it is
and where the block repeats it. -/
def repeatedLeaf : CPartialMerkleTree where
  nTransactions := 4
  vBits := [true, false, true, true, true, false, false, false]
  vHash := [12, 3, 3]
  fBad := false

theorem extractMatches_repeated :
    ¬ ∀ (hash : Uint256 → Uint256 → Uint256) (txids : List Uint256) (pmt : CPartialMerkleTree),
      Binding hash (merkleInputs hash txids) →
      (∀ p ∈ merkleInputs hash txids, hash p.1 p.2 ∉ txids) → txids.Nodup →
      treeHeight pmt.nTransactions = Nat.clog 2 txids.length →
      (pmt.extractMatches hash).1 = merkleRoot hash txids →
      (pmt.extractMatches hash).2.vMatch.Sublist txids := by
  intro hall
  have h := hall sampleHash [1, 2, 3] repeatedLeaf sampleHash_binding
    (notMem_of_all (by decide)) (by decide) (by decide) (by decide)
  exact absurd h (by decide)

end CPartialMerkleTree

end Fedoracoin
