import SwippCore.CheckBlock
import SwippCore.Lib.MerkleTree

/-!
# Merkle branches

The tree of a block lies in one vector, level after level, and a branch is read from it
by index. Every branch leads from its transaction to the root that `BuildMerkleTree`
returns. Two blocks of one root have the same transactions, since a block repeats none.
-/

set_option autoImplicit false

namespace SwippCore.MerkleBranch
open Checks MerkleTree

variable (env : Env)

/-- One pass over the level of a size that starts at a position; none where a read goes past
the end of the vector. -/
def pushLevel (j nSize : ℕ) (vMerkleTree : List Uint256) : Option (List Uint256) :=
  (List.range ((nSize+1)/2)).foldlM (fun tree k => do
    let left ← tree[j+2*k]?
    let right ← tree[j+min (2*k+1) (nSize-1)]?
    some (tree++[env.hashPair left right])) vMerkleTree

def pushLevels : ℕ → ℕ → ℕ → List Uint256 → Option (List Uint256)
  | 0, _, _, _ => none
  | steps+1, j, nSize, tree =>
    if 1 < nSize then do
      let tree ← pushLevel env j nSize tree
      pushLevels steps (j+nSize) ((nSize+1)/2) tree
    else some tree

/-- The vector that `BuildMerkleTree` leaves; it returns the last node, or zero. -/
def vMerkleTree (vtx : List CTransaction) : Option (List Uint256) :=
  pushLevels env (vtx.length+1) 0 vtx.length (vtx.map env.hashTx)

def back (tree : List Uint256) : Uint256 := tree.getLast?.getD 0

def branchFrom (tree : List Uint256) : ℕ → ℕ → ℕ → ℕ → Option (List Uint256)
  | 0, _, _, _ => none
  | steps+1, nIndex, j, nSize =>
    if 1 < nSize then do
      let side ← tree[j+min (nIndex ^^^ 1) (nSize-1)]?
      let sides ← branchFrom tree steps (nIndex/2) (j+nSize) ((nSize+1)/2)
      some (side::sides)
    else some []

/-- `GetMerkleBranch`, with the vector as an earlier call left it. -/
def getMerkleBranch (kept : List Uint256) (vtx : List CTransaction) (nIndex : ℕ) :
    Option (List Uint256) :=
  (if kept.isEmpty then vMerkleTree env vtx else some kept).bind
    (fun tree => branchFrom tree (vtx.length+1) nIndex 0 vtx.length)

def hashUp : Uint256 → List Uint256 → ℤ → Uint256
  | hash, [], _ => hash
  | hash, otherside::sides, nIndex =>
    hashUp (if nIndex % 2 = 1 then env.hashPair otherside hash else env.hashPair hash otherside)
      sides (nIndex/2)

def checkMerkleBranch (hash : Uint256) (vMerkleBranch : List Uint256) (nIndex : ℤ) : Uint256 :=
  if nIndex = -1 then 0 else hashUp env hash vMerkleBranch nIndex

/-- The block gets past the tests of `CheckBlock` on its transactions' hashes. -/
structure Passes (b : CBlock) : Prop where
  nonempty : b.vtx ≠ []
  unique : (b.vtx.map env.hashTx).Nodup
  merkle : b.hashMerkleRoot = buildMerkleTree env b

def HashesInjective (b b' : CBlock) : Prop :=
  InjectiveOn env.hashPair (hashed env.hashPair (b.vtx.map env.hashTx)++
    hashed env.hashPair (b'.vtx.map env.hashTx))

def LeavesApart (b b' : CBlock) : Prop :=
  ∀ h ∈ b.vtx.map env.hashTx++b'.vtx.map env.hashTx,
    h ∉ inner env.hashPair (b.vtx.map env.hashTx)++inner env.hashPair (b'.vtx.map env.hashTx)

section Vector
variable (before row : List Uint256)

theorem row_read (later : List Uint256) {i : ℕ} (hi : i < row.length) :
    (before++row++later)[before.length+i]? = row[i]? := by
  rw [List.append_assoc, List.getElem?_append_right (Nat.le_add_right _ _),
    Nat.add_sub_cancel_left, List.getElem?_append_left hi]

theorem push_level : pushLevel env before.length row.length (before++row) =
    some (before++row++level env.hashPair row) := by
  have hpasses : ∀ m, m ≤ (row.length+1)/2 →
      (List.range m).foldlM (fun tree k => do
        let left ← tree[before.length+2*k]?
        let right ← tree[before.length+min (2*k+1) (row.length-1)]?
        some (tree++[env.hashPair left right])) (before++row) =
      some (before++row++(level env.hashPair row).take m) := by
    intro m hm
    induction m with
    | zero => simp
    | succ m ih =>
      have hleft : 2*m < row.length := by omega
      have hright : min (2*m+1) (row.length-1) < row.length := by omega
      have hl := List.getElem?_eq_getElem hleft
      have hr := List.getElem?_eq_getElem hright
      rw [List.range_succ, List.foldlM_append, ih (by omega)]
      simp only [List.foldlM_cons, List.foldlM_nil, Option.bind_eq_bind, Option.bind_some,
        Option.pure_def, row_read before row _ hleft, row_read before row _ hright, hl, hr]
      rw [List.take_add_one, level_get env.hashPair row m _ _ hl hr]
      simp
  rw [pushLevel, hpasses _ (le_refl _), List.take_of_length_le]
  rw [level_length]

theorem push_levels (steps : ℕ) (h : row.length < steps) :
    pushLevels env steps before.length row.length (before++row) =
      some (before++row++inner env.hashPair row) := by
  induction steps generalizing before row with
  | zero => omega
  | succ steps ih =>
    rw [pushLevels]
    split_ifs with hsize
    · rw [push_level]
      have hlarge : ¬ row.length ≤ 1 := by omega
      have hup := ih (before++row) (level env.hashPair row) (by rw [level_length]; omega)
      rw [level_length, List.length_append] at hup
      rw [Option.bind_eq_bind, Option.bind_some, hup, inner_large env.hashPair hlarge]
      simp only [List.append_assoc]
    · rw [inner_small env.hashPair (by omega), List.append_nil]

theorem branch_from (steps i : ℕ) (h : row.length < steps) (hi : i < row.length) :
    branchFrom (before++row++inner env.hashPair row) steps i before.length row.length =
      some (branch env.hashPair row i) := by
  induction steps generalizing before row i with
  | zero => omega
  | succ steps ih =>
    rw [branchFrom, branch]
    by_cases hlarge : row.length ≤ 1
    · rw [if_neg (by omega), if_pos hlarge]
    · have hside : min (i ^^^ 1) (row.length-1) < row.length := by omega
      have hup := ih (before++row) (level env.hashPair row) (i/2) (by rw [level_length]; omega)
        (by rw [level_length]; omega)
      rw [level_length, List.length_append, List.append_assoc (before++row),
        ← inner_large env.hashPair hlarge] at hup
      rw [if_pos (by omega), if_neg hlarge, row_read before row _ hside,
        List.getElem?_eq_getElem hside]
      simp only [Option.bind_eq_bind, Option.bind_some, hup]
      rfl

end Vector

section Root

theorem merkle_level (row : List Uint256) : merkleLevel env row = level env.hashPair row := by
  induction row using pairUp.induct with
  | case1 => rfl
  | case2 a => rfl
  | case3 a b row ih =>
    rw [merkleLevel, ih]
    rfl

theorem merkle_root {steps : ℕ} {row : List Uint256} (h : row.length ≤ steps+1) :
    merkleRootOf env steps row = (root env.hashPair row).getD 0 := by
  induction steps generalizing row with
  | zero =>
    rw [root_small env.hashPair h]
    match row, h with
    | [], _ => rfl
    | [a], _ => rfl
  | succ steps ih =>
    match row, h with
    | [], _ =>
      rw [root_small env.hashPair (by simp)]
      rfl
    | [a], _ =>
      rw [root_small env.hashPair (by simp)]
      rfl
    | a::b::row, h =>
      rw [merkleRootOf, merkle_level, root_large env.hashPair (by simp)]
      · apply ih
        rw [level_length]
        simp only [List.length_cons] at h ⊢
        omega
      all_goals simp

theorem hash_up (h : Uint256) (i : ℕ) (sides : List Uint256) :
    hashUp env h sides i = climb env.hashPair h i sides := by
  induction sides generalizing h i with
  | nil => rfl
  | cons side sides ih =>
    rw [hashUp, climb, show ((i : ℤ)/2) = ((i/2 : ℕ) : ℤ) by omega, ih]
    congr 1
    have hodd : (i : ℤ) % 2 = 1 ↔ i % 2 = 1 := by omega
    simp only [hodd]

variable (b b' : CBlock)

theorem tree_built : vMerkleTree env b.vtx =
    some (b.vtx.map env.hashTx++inner env.hashPair (b.vtx.map env.hashTx)) := by
  have h := push_levels env [] (b.vtx.map env.hashTx) (b.vtx.length+1) (by simp)
  rwa [List.length_map] at h

theorem tree_back : back (b.vtx.map env.hashTx++inner env.hashPair (b.vtx.map env.hashTx)) =
    buildMerkleTree env b := by
  rw [buildMerkleTree, merkle_root env (by simp)]
  rfl

theorem branch_found {kept : List Uint256} {i : ℕ} (hi : i < b.vtx.length)
    (hkept : kept = [] ∨ vMerkleTree env b.vtx = some kept) :
    getMerkleBranch env kept b.vtx i = some (branch env.hashPair (b.vtx.map env.hashTx) i) := by
  have hread : (if kept.isEmpty then vMerkleTree env b.vtx else some kept) =
      vMerkleTree env b.vtx := by
    rcases hkept with rfl | hkept
    · rfl
    · rw [hkept, ite_self]
  have h := branch_from env [] (b.vtx.map env.hashTx) (b.vtx.length+1) i (by simp) (by simpa using hi)
  rw [List.length_map] at h
  rw [getMerkleBranch, hread, tree_built]
  exact h

theorem branch_checks {i : ℕ} {tx : CTransaction} (htx : b.vtx[i]? = some tx) :
    checkMerkleBranch env (env.hashTx tx) (branch env.hashPair (b.vtx.map env.hashTx) i) i =
      buildMerkleTree env b := by
  have hleaf : (b.vtx.map env.hashTx)[i]? = some (env.hashTx tx) := by
    rw [List.getElem?_map, htx]
    rfl
  rw [checkMerkleBranch, if_neg (by omega), hash_up, buildMerkleTree, merkle_root env (by simp),
    climb_branch env.hashPair hleaf]
  rfl

theorem check_block_passes {best : Best} {amb : Ambient} {pfrom : Option ℤ}
    {fCheckPOW fCheckSig : Bool}
    (h : checkBlock env best amb b pfrom fCheckPOW true fCheckSig = .ok ()) : Passes env b := by
  simp only [checkBlock, then_ok, require_ok] at h
  obtain ⟨_,hsize,_,_,_,_,_,_,_,hunique,_,hmerkle⟩ := h
  constructor
  · rintro hnil
    simp [hnil] at hsize
  · exact of_decide_eq_true hunique
  · simpa using hmerkle

theorem roots_differ (h : Passes env b) (h' : Passes env b') (hinj : HashesInjective env b b')
    (hapart : LeavesApart env b b') (hroot : b.hashMerkleRoot = b'.hashMerkleRoot) :
    b.vtx.map env.hashTx = b'.vtx.map env.hashTx := by
  have hroots : ∀ c : CBlock, Passes env c →
      root env.hashPair (c.vtx.map env.hashTx) = some c.hashMerkleRoot := by
    intro c hc
    rw [hc.merkle, buildMerkleTree, merkle_root env (by simp)]
    obtain ⟨tx,vtx,hvtx⟩ := List.exists_cons_of_ne_nil hc.nonempty
    have hget : (c.vtx.map env.hashTx)[0]? = some (env.hashTx tx) := by simp [hvtx]
    rw [climb_branch env.hashPair hget]
    rfl
  apply root_inj env.hashPair (by simpa using h.nonempty) (by simpa using h'.nonempty) h.unique
    h'.unique hinj
  · exact fun x hx hin => hapart x (List.mem_append_left _ hx) (List.mem_append_right _ hin)
  · exact fun x hx hin => hapart x (List.mem_append_right _ hx) (List.mem_append_left _ hin)
  · rw [hroots b h, hroots b' h', hroot]

end Root

/-- Every branch leads from its transaction to the root of the block, all reads lying within
the vector, and blocks that get past the tests on their transactions' hashes with one root
have the same hashes. -/
theorem branches_lead_to_root :
    (∀ (b : CBlock) (i : ℕ) (tx : CTransaction), b.vtx[i]? = some tx →
      ∃ tree sides, vMerkleTree env b.vtx = some tree ∧ back tree = buildMerkleTree env b ∧
        (∀ kept, kept = [] ∨ vMerkleTree env b.vtx = some kept →
          getMerkleBranch env kept b.vtx i = some sides) ∧
        checkMerkleBranch env (env.hashTx tx) sides i = back tree) ∧
    (∀ best amb b pfrom fCheckPOW fCheckSig,
      checkBlock env best amb b pfrom fCheckPOW true fCheckSig = .ok () → Passes env b) ∧
    ∀ b b' : CBlock, Passes env b → Passes env b' → HashesInjective env b b' →
      LeavesApart env b b' → b.hashMerkleRoot = b'.hashMerkleRoot →
        b.vtx.map env.hashTx = b'.vtx.map env.hashTx := by
  refine ⟨?_,?_,roots_differ env⟩
  · intro b i tx htx
    obtain ⟨hi,_⟩ := List.getElem?_eq_some_iff.mp htx
    refine ⟨_,branch env.hashPair (b.vtx.map env.hashTx) i,tree_built env b,tree_back env b,?_,?_⟩
    · intro kept hkept
      exact branch_found env b hi hkept
    · rw [tree_back]
      exact branch_checks env b htx
  · intro best amb b pfrom fCheckPOW fCheckSig h
    exact check_block_passes env b h

section Sample

def samplePayment (n : ℕ) : CTransaction := ⟨1,n,[⟨⟨9,n⟩,[],0⟩],[⟨coin,[1]⟩],0⟩

def sampleBlock (nNonce : ℕ) : CBlock :=
  ⟨1,0,11,10,0x1e7fffff,nNonce,
    [⟨1,4,[⟨.null,[1,1],0⟩],[⟨coin,[1]⟩],0⟩,samplePayment 1,samplePayment 3],[]⟩

theorem sample_passes (nNonce : ℕ) : Passes sampleEnv (sampleBlock nNonce) :=
  ⟨by simp [sampleBlock],by simp [sampleBlock, samplePayment, sampleEnv],rfl⟩

theorem sample_hashed (nNonce : ℕ) :
    hashed sampleEnv.hashPair ((sampleBlock nNonce).vtx.map sampleEnv.hashTx) =
      [(4,1),(3,3),(5,6)] := by
  simp [hashed, level, pairUp, sampleBlock, samplePayment, sampleEnv]

theorem branches_lead_to_root_sample :
    (∃ tree sides, vMerkleTree sampleEnv (sampleBlock 0).vtx = some tree ∧
      back tree = buildMerkleTree sampleEnv (sampleBlock 0) ∧
      (∀ kept, kept = [] ∨ vMerkleTree sampleEnv (sampleBlock 0).vtx = some kept →
        getMerkleBranch sampleEnv kept (sampleBlock 0).vtx 2 = some sides) ∧
      checkMerkleBranch sampleEnv (sampleEnv.hashTx (samplePayment 3)) sides 2 = back tree) ∧
    Passes sampleEnv (sampleBlock 0) ∧
    (sampleBlock 0).vtx.map sampleEnv.hashTx = (sampleBlock 1).vtx.map sampleEnv.hashTx := by
  obtain ⟨hbranch,hcheck,hsame⟩ := branches_lead_to_root sampleEnv
  refine ⟨hbranch (sampleBlock 0) 2 (samplePayment 3) rfl,?_,?_⟩
  · exact hcheck ⟨none,0⟩ ⟨10,10,∅,fun _ => none,none,0⟩ (sampleBlock 0) none true true
      (by decide +kernel)
  · apply hsame (sampleBlock 0) (sampleBlock 1) (sample_passes 0) (sample_passes 1)
    · rw [HashesInjective, sample_hashed, sample_hashed]
      simp [InjectiveOn, sampleEnv]
    · rw [LeavesApart, MerkleTree.inner, MerkleTree.inner, sample_hashed, sample_hashed]
      simp [sampleBlock, samplePayment, sampleEnv]
    · rfl

end Sample

end SwippCore.MerkleBranch
