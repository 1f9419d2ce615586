import Fedoracoin.Undo
import Fedoracoin.Lib.Merkle

/-!
# The merkle root of a block

`BuildMerkleTree` makes the tree of `Fedoracoin.Lib.Merkle`.  `CheckBlock` tests that the
transaction ids are distinct before it compares the root with that in the header, so a header
goes with one list of transactions.
-/

namespace Fedoracoin

open Merkle

variable {hash : Uint256 → Uint256 → Uint256} {env : BlockEnv} {txids txids' : List Uint256}

theorem merkleLevel_eq (hash : Uint256 → Uint256 → Uint256) (l : List Uint256) :
    merkleLevel hash l = level hash l := by
  induction l using pairs.induct with
  | case1 => rfl
  | case2 a => rfl
  | case3 a b l ih =>
      rw [merkleLevel, ih]
      rfl

theorem merkleTree_eq (hash : Uint256 → Uint256 → Uint256) (n : Nat) (l : List Uint256) :
    merkleTree hash n l = tree hash n l := by
  induction n generalizing l with
  | zero => rw [tree, hashed, List.map_nil, List.append_nil, merkleTree]
  | succ n ih =>
      rw [merkleTree]
      split
      case isTrue h => rw [ih, tree_succ h, merkleLevel_eq]
      case isFalse h => rw [tree_of_le (Nat.not_lt.mp h)]

/-- What `BuildMerkleTree` returns for a list of transaction ids. -/
def merkleRoot (hash : Uint256 → Uint256 → Uint256) (txids : List Uint256) : Uint256 :=
  (merkleTree hash txids.length txids).getLast?.getD 0

/-- The inputs that `BuildMerkleTree` hashes. -/
def merkleInputs (hash : Uint256 → Uint256 → Uint256) (txids : List Uint256) :
    List (Uint256 × Uint256) :=
  hashed hash txids.length txids

theorem getLast?_merkleTree (hne : txids ≠ []) :
    (tree hash txids.length txids).getLast? = some (merkleRoot hash txids) := by
  have hne' : tree hash txids.length txids ≠ [] := by
    intro h
    exact hne (List.append_eq_nil_iff.mp h).1
  rw [merkleRoot, merkleTree_eq, List.getLast?_eq_some_getLast hne', Option.getD_some]

/-- The distinctness of the leaves is needed. -/
example (a b c : Uint256) : merkleRoot hash [a, b, c] = merkleRoot hash [a, b, c, c] := rfl

/-- What `CheckBlock` says of the transaction ids. -/
theorem of_checkBlock {block : CBlock} {nHeight : Int} {fCheckPOW : Bool}
    (h : checkBlock env block nHeight fCheckPOW true = .ok ()) :
    block.vtx.map env.getTxHash ≠ [] ∧ (block.vtx.map env.getTxHash).Nodup ∧
      block.hashMerkleRoot = merkleRoot env.hash (block.vtx.map env.getTxHash) := by
  obtain ⟨⟨tx, vtx, hvtx, _⟩, _, hnodup⟩ := checkBlock_shape h
  have hne : block.vtx.map env.getTxHash ≠ [] := by simp [hvtx]
  simp only [checkBlock, bind_eq_ok, failIf_eq_ok, exists_const] at h
  obtain ⟨_, _, _, _, _, _, _, _, _, hroot⟩ := h
  rw [Bool.true_and, bne_eq_false_iff_eq, buildMerkleTree, merkleTree_eq,
    ← List.length_map (f := env.getTxHash), getLast?_merkleTree hne] at hroot
  exact ⟨hne, hnodup, (Option.some.inj hroot).symm⟩

theorem eq_of_map_eq {α β : Type*} {f : α → β} {l l' : List α}
    (hinj : Set.InjOn f {a | a ∈ l ++ l'}) (h : l.map f = l'.map f) : l = l' := by
  induction l generalizing l' with
  | nil => exact (List.map_eq_nil_iff.mp h.symm).symm
  | cons a l ih =>
      cases l' with
      | nil => cases h
      | cons a' l' =>
          obtain ⟨hhead, htail⟩ := List.cons.inj h
          rw [hinj (by simp) (by simp) hhead, ih (hinj.mono ?_) htail]
          intro b hb
          rcases List.mem_append.mp hb with hb | hb
          · exact List.mem_append_left _ (List.mem_cons_of_mem _ hb)
          · exact List.mem_append_right _ (List.mem_cons_of_mem _ hb)

/-- Distinct transaction ids with the same root are the same, as long as no two of the pairs
hashed for them collide and no inner node is one of them; and then `CheckBlock` accepts one
list of transactions for a header. -/
theorem merkleRoot_binds (env : BlockEnv) (txids txids' : List Uint256)
    (hbind : Binding env.hash (merkleInputs env.hash txids ++ merkleInputs env.hash txids'))
    (hinner : ∀ p ∈ merkleInputs env.hash txids ++ merkleInputs env.hash txids',
      env.hash p.1 p.2 ∉ txids ++ txids') :
    (txids ≠ [] → txids' ≠ [] → txids.Nodup → txids'.Nodup →
      merkleRoot env.hash txids = merkleRoot env.hash txids' → txids = txids') ∧
    ∀ (block block' : CBlock) (nHeight nHeight' : Int) (fCheckPOW fCheckPOW' : Bool),
      block.toCBlockHeader = block'.toCBlockHeader →
      block.vtx.map env.getTxHash = txids → block'.vtx.map env.getTxHash = txids' →
      checkBlock env block nHeight fCheckPOW true = .ok () →
      checkBlock env block' nHeight' fCheckPOW' true = .ok () →
      txids = txids' ∧
        (Set.InjOn env.getTxHash {tx | tx ∈ block.vtx ++ block'.vtx} → block.vtx = block'.vtx) := by
  have hroots : txids ≠ [] → txids' ≠ [] → txids.Nodup → txids'.Nodup →
      merkleRoot env.hash txids = merkleRoot env.hash txids' → txids = txids' := by
    intro hne hne' hl hl' hroot
    apply eq_of_root_eq (le_refl _) (le_refl _) hne hne' hl hl'
      (hbind.mono (List.subset_append_left _ _)) (hbind.mono (List.subset_append_right _ _))
    · rintro ⟨_, ha, p, hp, rfl⟩
      exact hinner p (List.mem_append_right _ hp) (List.mem_append_left _ ha)
    · rintro ⟨_, ha, p, hp, rfl⟩
      exact hinner p (List.mem_append_left _ hp) (List.mem_append_right _ ha)
    · rw [getLast?_merkleTree hne, getLast?_merkleTree hne', hroot]
  refine ⟨hroots, ?_⟩
  rintro block block' nHeight nHeight' fCheckPOW fCheckPOW' hheader rfl rfl hok hok'
  obtain ⟨hne, hl, hroot⟩ := of_checkBlock hok
  obtain ⟨hne', hl', hroot'⟩ := of_checkBlock hok'
  have heq := hroots hne hne' hl hl' (by rw [← hroot, ← hroot', hheader])
  exact ⟨heq, fun hinj ↦ eq_of_map_eq hinj heq⟩

/-- A hash for the trees over 1, 2, 3 and over 1, 2, 4. -/
def sampleHash (a b : Uint256) : Uint256 :=
  if (a, b) = (1, 2) then 12
  else if (a, b) = (3, 3) then 33
  else if (a, b) = (4, 4) then 44
  else if (a, b) = (12, 33) then 1233
  else if (a, b) = (12, 44) then 1244
  else 0

theorem sampleHash_eq_zero {a b : Uint256}
    (h : (a, b) ∉ [((1, 2) : Uint256 × Uint256), (3, 3), (4, 4), (12, 33), (12, 44)]) :
    sampleHash a b = 0 := by
  simp only [List.mem_cons, List.not_mem_nil, or_false, not_or] at h
  obtain ⟨h₁, h₂, h₃, h₄, h₅⟩ := h
  rw [sampleHash, if_neg h₁, if_neg h₂, if_neg h₃, if_neg h₄, if_neg h₅]

/-- A test for `sampleHash` to bind some pairs. -/
theorem sampleHash_binds {ps : List (Uint256 × Uint256)}
    (h : (ps.all fun p ↦ sampleHash p.1 p.2 != 0 &&
      [(1, 2), (3, 3), (4, 4), (12, 33), (12, 44)].all fun q ↦
        sampleHash q.1 q.2 != sampleHash p.1 p.2 || q == p) = true) :
    Binding sampleHash ps := by
  refine .of_const (fun _ _ ↦ sampleHash_eq_zero) fun p hp ↦ ?_
  have hp' := List.all_eq_true.mp h p hp
  rw [Bool.and_eq_true, bne_iff_ne, List.all_eq_true] at hp'
  refine ⟨hp'.1, fun q hq heq ↦ ?_⟩
  have hq' := hp'.2 q hq
  rw [Bool.or_eq_true, bne_iff_ne, beq_iff_eq] at hq'
  exact hq'.resolve_left (not_not.mpr heq)

/-- A test for no inner node to be a transaction id. -/
theorem notMem_of_all {hash : Uint256 → Uint256 → Uint256} {ps : List (Uint256 × Uint256)}
    {txids : List Uint256} (h : (ps.all fun p ↦ !txids.contains (hash p.1 p.2)) = true) :
    ∀ p ∈ ps, hash p.1 p.2 ∉ txids := by
  intro p hp hmem
  have hp' := List.all_eq_true.mp h p hp
  rw [List.contains_iff_mem.mpr hmem] at hp'
  cases hp'

theorem merkleRoot_binds_sample :
    merkleRoot sampleHash [1, 2, 3] ≠ merkleRoot sampleHash [1, 2, 4] := by
  intro hroot
  have heq := (merkleRoot_binds { sampleEnv with hash := sampleHash } [1, 2, 3] [1, 2, 4]
    (sampleHash_binds (by decide)) (notMem_of_all (by decide))).1
    (by simp) (by simp) (by decide) (by decide) hroot
  cases heq

end Fedoracoin
