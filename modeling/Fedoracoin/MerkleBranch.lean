import Fedoracoin.Lib.MerkleBranch
import Fedoracoin.MerkleRoot
import Fedoracoin.WalletTx

/-!
# Merkle branches

`BuildMerkleTree` appends the levels of its tree to one vector and finds a level by its offset
`j`.  It makes the tree of `Fedoracoin.Lib.Merkle` (`buildMerkleTreeLoop_eq`), `GetMerkleBranch`
takes the branch of `Fedoracoin.Lib.MerkleBranch` from it (`getMerkleBranchLoop_eq`), and
`CheckMerkleBranch` climbs that.  So the branch that the wallet keeps with a transaction leads to
the root in the header.
-/

namespace Fedoracoin

open Merkle

variable {hash : Uint256 → Uint256 → Uint256} {env : BlockEnv} {block : CBlock}
variable {l pre : List Uint256} {n i : Nat}

/-! ## The tree in a vector -/

/-- The inner loop of `BuildMerkleTree`, with `i = 2 * k`, over the `nSize` nodes from `j` on. -/
def pushMerkleLevel (hash : Uint256 → Uint256 → Uint256) (j nSize : Nat)
    (vMerkleTree : List Uint256) : List Uint256 :=
  (List.range ((nSize + 1) / 2)).foldl (fun vMerkleTree k ↦
    let i := 2 * k
    let i2 := min (i + 1) (nSize - 1)
    vMerkleTree ++ [hash (vMerkleTree.getD (j + i) 0) (vMerkleTree.getD (j + i2) 0)]) vMerkleTree

/-- The outer loop, for at most `n` levels. -/
def buildMerkleTreeLoop (hash : Uint256 → Uint256 → Uint256) :
    (n j nSize : Nat) → List Uint256 → List Uint256
  | 0, _, _, vMerkleTree => vMerkleTree
  | n + 1, j, nSize, vMerkleTree =>
      if 1 < nSize then
        buildMerkleTreeLoop hash n (j + nSize) ((nSize + 1) / 2)
          (pushMerkleLevel hash j nSize vMerkleTree)
      else vMerkleTree

theorem getD_append_append (post : List Uint256) (hi : i < l.length) :
    (pre ++ l ++ post).getD (pre.length + i) 0 = l[i] := by
  rw [List.getD_eq_getElem?_getD, List.append_assoc,
    List.getElem?_append_right (Nat.le_add_right _ _), Nat.add_sub_cancel_left,
    List.getElem?_append_left hi, List.getElem?_eq_getElem hi, Option.getD_some]

/-- A pass appends the level above. -/
theorem pushMerkleLevel_eq (hash : Uint256 → Uint256 → Uint256) (pre l : List Uint256) :
    pushMerkleLevel hash pre.length l.length (pre ++ l) = pre ++ l ++ level hash l := by
  have hprefix (m : Nat) (hm : m ≤ (level hash l).length) :
      (List.range m).foldl (fun vMerkleTree k ↦ vMerkleTree ++
          [hash (vMerkleTree.getD (pre.length + 2 * k) 0)
            (vMerkleTree.getD (pre.length + min (2 * k + 1) (l.length - 1)) 0)]) (pre ++ l) =
        pre ++ l ++ (level hash l).take m := by
    induction m with
    | zero => rw [List.range_zero, List.foldl_nil, List.take_zero, List.append_nil]
    | succ m ih =>
        have hlt : m < (level hash l).length := hm
        have hnode := getElem?_level hash l m
        rw [length_level] at hlt
        have hi : 2 * m < l.length := by omega
        have hi2 : min (2 * m + 1) (l.length - 1) < l.length := by omega
        rw [List.getElem?_eq_getElem hm, List.getElem?_eq_getElem hi, Option.map_some,
          Option.some_inj] at hnode
        rw [List.range_succ, List.foldl_append, ih (Nat.le_of_succ_le hm), List.foldl_cons,
          List.foldl_nil, getD_append_append _ hi, getD_append_append _ hi2,
          List.take_succ_eq_append_getElem hm, ← List.append_assoc, hnode]
        rcases Nat.lt_or_ge (2 * m + 1) l.length with hnext | hnext
        · simp only [Nat.min_eq_left (Nat.le_sub_one_of_lt hnext), List.getElem?_eq_getElem hnext,
            Option.getD_some]
        · have hlast : min (2 * m + 1) (l.length - 1) = 2 * m := by omega
          simp only [hlast, List.getElem?_eq_none hnext, Option.getD_none]
  have hall := hprefix (level hash l).length le_rfl
  rw [List.take_length, length_level] at hall
  exact hall

/-- **`BuildMerkleTree`.**  The levels found by their offsets are those of the tree. -/
theorem buildMerkleTreeLoop_eq (hash : Uint256 → Uint256 → Uint256) (n : Nat)
    (pre l : List Uint256) :
    buildMerkleTreeLoop hash n pre.length l.length (pre ++ l) = pre ++ tree hash n l := by
  induction n generalizing pre l with
  | zero => rw [buildMerkleTreeLoop, ← merkleTree_eq, merkleTree]
  | succ n ih =>
      rw [buildMerkleTreeLoop]
      split
      case isTrue h =>
          rw [pushMerkleLevel_eq, ← List.length_append, ← length_level hash l, ih, tree_succ h,
            List.append_assoc]
      case isFalse h => rw [tree_of_le (Nat.not_lt.mp h)]

/-- `BuildMerkleTree` with its loops leaves the tree of `buildMerkleTree`. -/
theorem buildMerkleTree_eq_loop (env : BlockEnv) (block : CBlock) :
    buildMerkleTree env block = buildMerkleTreeLoop env.hash block.vtx.length 0 block.vtx.length
      (block.vtx.map env.getTxHash) := by
  have h := buildMerkleTreeLoop_eq env.hash block.vtx.length [] (block.vtx.map env.getTxHash)
  rw [List.length_map, List.length_nil, List.nil_append, List.nil_append] at h
  rw [h, buildMerkleTree, merkleTree_eq]

/-! ## Branches -/

namespace CMerkleTx

/-- `GetMerkleBranch` takes a node from each level of the tree, from the offset `pre.length`. -/
theorem getMerkleBranchLoop_eq (hash : Uint256 → Uint256 → Uint256) (pre : List Uint256)
    (hn : l.length ≤ n) (hi : i < l.length) :
    getMerkleBranchLoop (pre ++ tree hash n l) n i pre.length l.length = branch hash n l i := by
  induction n generalizing pre l i with
  | zero => rfl
  | succ n ih =>
      rw [getMerkleBranchLoop]
      split
      case isTrue h =>
          obtain ⟨b, hb, -⟩ := exists_sibling hash (List.getElem?_eq_getElem hi)
          have hnode : (pre ++ tree hash (n + 1) l).getD
              (pre.length + min (i ^^^ 1) (l.length - 1)) 0 = b := by
            obtain ⟨hlt, hget⟩ := List.getElem?_eq_some_iff.mp hb
            rw [tree_succ h, ← List.append_assoc, getD_append_append _ hlt, hget]
          have hhalf : i / 2 < (level hash l).length := by
            rw [length_level]
            omega
          have hrest := ih (pre ++ l) (length_level_le hn h) hhalf
          rw [List.append_assoc, ← tree_succ h, List.length_append, length_level] at hrest
          rw [hnode, branch_succ h hb, Nat.shiftRight_one, hrest]
      case isFalse h => rw [branch_of_le (Nat.not_lt.mp h)]

theorem getMerkleBranch_eq (hi : i < block.vtx.length) :
    getMerkleBranch env block i =
      branch env.hash block.vtx.length (block.vtx.map env.getTxHash) i := by
  have hlen : (block.vtx.map env.getTxHash).length = block.vtx.length := List.length_map _
  have h := getMerkleBranchLoop_eq env.hash [] hlen.le (hi.trans_eq hlen.symm)
  rw [hlen, List.length_nil, List.nil_append] at h
  rw [getMerkleBranch, buildMerkleTree, merkleTree_eq, h]

/-- `CheckMerkleBranch` climbs the branch. -/
theorem foldMerkleBranch_eq (env : BlockEnv) (txid : Uint256) (vMerkleBranch : List Uint256)
    (i : Nat) :
    foldMerkleBranch env txid vMerkleBranch i = climb env.hash txid vMerkleBranch i := by
  induction vMerkleBranch generalizing txid i with
  | nil => rfl
  | cons otherside vMerkleBranch ih => rw [foldMerkleBranch, ih, climb, Nat.shiftRight_one]

theorem checkMerkleBranch_getMerkleBranch (env : BlockEnv) (hi : i < block.vtx.length) :
    checkMerkleBranch env (env.getTxHash block.vtx[i]) (getMerkleBranch env block i) i =
      merkleRoot env.hash (block.vtx.map env.getTxHash) := by
  have hne : block.vtx.map env.getTxHash ≠ [] := by
    intro hnil
    rw [List.map_eq_nil_iff.mp hnil] at hi
    exact Nat.not_lt_zero i hi
  have hleaf : (block.vtx.map env.getTxHash)[i]? = some (env.getTxHash block.vtx[i]) := by
    rw [List.getElem?_map, List.getElem?_eq_getElem hi, Option.map_some]
  have hlen : (block.vtx.map env.getTxHash).length ≤ block.vtx.length := (List.length_map _).le
  have hroot : (tree env.hash block.vtx.length (block.vtx.map env.getTxHash)).getLast? =
      some (climb env.hash _ (branch env.hash block.vtx.length _ i) i) :=
    climb_branch hlen hleaf
  rw [← List.length_map env.getTxHash, getLast?_merkleTree hne, List.length_map,
    Option.some_inj] at hroot
  rw [checkMerkleBranch, if_neg (by omega), Int.toNat_natCast, getMerkleBranch_eq hi,
    foldMerkleBranch_eq, hroot]

/-- **A branch verifies.**  For every transaction of a block it leads to the root that
`BuildMerkleTree` returns.  The tree is its levels up to the first of one node, and the branch has
a node for each but the leaves. -/
theorem merkleBranch_verifies (env : BlockEnv) (block : CBlock) (i : Nat)
    (hi : i < block.vtx.length) :
    let vMerkleTree := buildMerkleTreeLoop env.hash block.vtx.length 0 block.vtx.length
      (block.vtx.map env.getTxHash)
    let vMerkleBranch := getMerkleBranch env block i
    checkMerkleBranch env (env.getTxHash block.vtx[i]) vMerkleBranch i =
        vMerkleTree.getLast?.getD 0 ∧
      vMerkleTree = (List.range (vMerkleBranch.length + 1)).flatMap
        (row env.hash (block.vtx.map env.getTxHash)) ∧
      ∀ k, (row env.hash (block.vtx.map env.getTxHash) k).length = 1 ↔
        vMerkleBranch.length ≤ k := by
  have hlen : (block.vtx.map env.getTxHash).length = block.vtx.length := List.length_map _
  have hne : block.vtx.map env.getTxHash ≠ [] := by
    intro hnil
    rw [← hlen, hnil] at hi
    exact Nat.not_lt_zero i hi
  have hlevels : (getMerkleBranch env block i).length = Nat.clog 2 block.vtx.length := by
    rw [getMerkleBranch_eq hi, length_branch hlen.le (hi.trans_eq hlen.symm), hlen]
  intro vMerkleTree vMerkleBranch
  have htree : vMerkleTree = tree env.hash block.vtx.length (block.vtx.map env.getTxHash) := by
    rw [← merkleTree_eq]
    exact (buildMerkleTree_eq_loop env block).symm
  refine ⟨?_, ?_, fun k ↦ ?_⟩
  · rw [checkMerkleBranch_getMerkleBranch env hi, merkleRoot, merkleTree_eq, hlen, htree]
  · rw [htree, tree_eq_rows hlen.le, hlen, hlevels]
  · rw [length_row_eq_one env.hash hne, hlen, hlevels]

theorem merkleBranch_verifies_sample :
    checkMerkleBranch { sampleEnv with hash := sampleHash } 3
      (getMerkleBranch { sampleEnv with hash := sampleHash } sampleBlock 2) 2 = 1233 :=
  (merkleBranch_verifies { sampleEnv with hash := sampleHash } sampleBlock 2 (by decide)).1.trans
    (by decide)

end CMerkleTx

end Fedoracoin
