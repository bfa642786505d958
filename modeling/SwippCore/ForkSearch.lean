import SwippCore.ChainRuns

/-!
# The fork that a reorganisation finds

In a tree of block index entries with one first block, two blocks have a highest
common ancestor. The two walks of `Reorganize` meet there, and its lists are the two
ways between the fork and the blocks.
-/

set_option autoImplicit false

namespace SwippCore.ForkSearch
open Ancestry ChainTree ChainOps ChainRollback ChainMoves ChainRuns

structure BlockTree (m : BlockMap) (genesis : Uint256) : Prop where
  tree : Tree m
  entry : (m genesis).isSome = true
  zero : m.heightOf genesis = 0
  root : ∀ h, (m h).isSome = true → m.parentOf h = none → h = genesis

structure Fork (m : BlockMap) (a b pfork : Uint256) : Prop where
  left : pfork ∈ m.pathOf a
  right : pfork ∈ m.pathOf b
  lowest : ∀ x ∈ m.pathOf a, x ∈ m.pathOf b → x ∈ m.pathOf pfork

section Tree
variable {m : BlockMap} {genesis : Uint256} (ht : BlockTree m genesis)
include ht

theorem genesis_mem {h : Uint256} (hh : (m h).isSome = true) : genesis ∈ m.pathOf h := by
  have g := tree_graded ht.tree
  induction h using up_induction g with
  | root h hroot =>
    rw [← ht.root h hh hroot]
    exact self_mem g h
  | up h p hp ih =>
    obtain ⟨i,hi,hip⟩ := (parent_of_some m h p).mp hp
    obtain ⟨j,hj,-⟩ := ht.tree.step h i p hi hip
    have hpath : m.pathOf h = h::m.pathOf p := path_some g hp
    rw [hpath]
    exact List.mem_cons_of_mem h (ih (by rw [hj]; rfl))

/-- The walks end at the fork, with no null parent on the way, and the lists lead from the
best block down to it and from it up to the new one. -/
theorem reorganize_branches (st : ChainState) (hst : st.mapBlockIndex = m) (tip hNew : Uint256)
    (htip : (m tip).isSome = true) (hnew : (m hNew).isSome = true) :
    ∃ pfork vDisconnect vConnect,
      fork m.parentOf m.heightOf (Failure.error 0 "Reorganize() : plonger->pprev is null")
        (Failure.error 0 "Reorganize() : pfork->pprev is null")
        ((m.heightOf tip).toNat+1) tip hNew = .ok pfork ∧ Fork m tip hNew pfork ∧
      branches st tip hNew = .ok (vDisconnect,vConnect) ∧
      m.pathOf tip = vDisconnect++m.pathOf pfork ∧
      m.pathOf hNew = vConnect.reverse++m.pathOf pfork := by
  have g := tree_graded ht.tree
  obtain ⟨pfork,hfork⟩ := fork_total g (Failure.error 0 "Reorganize() : plonger->pprev is null")
    (Failure.error 0 "Reorganize() : pfork->pprev is null") tip hNew
    (Nat.lt_succ_self _) (genesis_mem ht htip) (genesis_mem ht hnew)
  obtain ⟨hleft,hright,hlow⟩ := fork_spec g tip hNew hfork
  obtain ⟨xs,hxs⟩ := segment_total g tip (Nat.le_refl _) hleft
  obtain ⟨ys,hys⟩ := segment_total g hNew (Nat.le_refl _) hright
  refine ⟨pfork,xs,ys.reverse,hfork,⟨hleft,hright,hlow⟩,?_,?_,?_⟩
  · subst hst
    simp only [branches, hfork, hxs, hys]
  · exact (segment_spec g tip xs hxs).1
  · rw [List.reverse_reverse]
    exact (segment_spec g hNew ys hys).1

end Tree

section Runs
variable (env : Env) (G : Guards)

theorem same_block_tree {m m' : BlockMap} (h : SameTree m m') {genesis : Uint256}
    (ht : BlockTree m genesis) : BlockTree m' genesis := by
  refine ⟨same_tree_tree h ht.tree,by rw [same_entry h]; exact ht.entry,
    by rw [same_tree_height h]; exact ht.zero,?_⟩
  intro k hk hroot
  rw [same_tree_parent h] at hroot
  rw [same_entry h] at hk
  exact ht.root k hk hroot

theorem first_block_tree (b : CBlock) (nFile nBlockPos : ℕ) (hashProof : Uint256) (x : ℕ × Bool) :
    BlockTree (filed env b nFile nBlockPos hashProof x (fun _ => none)) (env.hashBlock b) := by
  refine ⟨first_tree env b nFile nBlockPos hashProof x,by rw [filed, Function.update_self]; rfl,
    by rw [BlockMap.heightOf, filed, Function.update_self]; rfl,?_⟩
  intro k hk _
  rw [filed, Function.update_apply] at hk
  split_ifs at hk with he
  · exact he
  · cases hk

theorem filed_block_tree {b : CBlock} (nFile nBlockPos : ℕ) (hashProof : Uint256) (x : ℕ × Bool)
    {m : BlockMap} {genesis : Uint256} (ht : BlockTree m genesis)
    (hnew : m (env.hashBlock b) = none) (hprev : (m b.hashPrevBlock).isSome = true) :
    BlockTree (filed env b nFile nBlockPos hashProof x m) genesis := by
  have hne : genesis ≠ env.hashBlock b := by
    intro he
    have hentry := ht.entry
    rw [he, hnew] at hentry
    cases hentry
  have hold := @filed_other env b nFile nBlockPos hashProof x m genesis hne
  refine ⟨filed_tree env ht.tree hnew hprev,
    by rw [hold]; exact ht.entry,by rw [BlockMap.heightOf, hold]; exact ht.zero,?_⟩
  intro k hk hroot
  by_cases he : k = env.hashBlock b
  · rw [he, filed_parent env hprev] at hroot
    cases hroot
  · rw [BlockMap.parentOf, filed_other env k he] at hroot
    rw [filed_other env k he] at hk
    exact ht.root k hk hroot

def Treed (st : ChainState) (_ : Uint256) : Prop :=
  ∃ genesis, st.pindexGenesisBlock = some genesis ∧ BlockTree st.mapBlockIndex genesis

theorem treed_same {st st' : ChainState} (tip tip' : Uint256)
    (hm : SameTree st.mapBlockIndex st'.mapBlockIndex)
    (hg : st'.pindexGenesisBlock = st.pindexGenesisBlock) (h : Treed st tip) : Treed st' tip' := by
  obtain ⟨genesis,hgen,ht⟩ := h
  exact ⟨genesis,by rw [hg, hgen],same_block_tree hm ht⟩

theorem treed_move (a c : ChainState × Uint256) (hs : Standing a.1 a.2) (ht : Treed a.1 a.2)
    (h : Move env G a c) : Treed c.1 c.2 := by
  cases h with
  | undone h =>
    exact treed_same _ _ (retotalled_same _ _ _ h.entries) h.globals.genesis ht
  | attach hp hb hg ha =>
    obtain ⟨hsame,hglob⟩ := attached_same env _ _ _ _ hs.best ha
    exact treed_same _ _ hsame hglob.genesis ht
  | switch h =>
    obtain ⟨hsame,hglob⟩ := switched_same env _ G hs.best h
    exact treed_same _ _ hsame hglob.genesis ht
  | crown h =>
    obtain ⟨i,hi,rfl⟩ := new_best_ok h
    exact ht
  | @file w st st' tip b nFile nBlockPos hashProof r hprev hg h =>
    rcases index_block_cases env _ h with ⟨rfl,_⟩ | ⟨hnew,modifier,rfl,_⟩
    · exact ht
    · obtain ⟨genesis,hgen,htree⟩ := ht
      exact ⟨genesis,hgen,filed_block_tree env _ _ _ modifier htree hnew hprev⟩
  | @offer w st st' tip fLimitFree tx r hg h =>
    have hpool := accept_step_pooled env w fLimitFree tx st
    rw [h] at hpool
    exact treed_same _ _ (by rw [hpool.entries]; exact same_tree_refl _) hpool.globals.genesis ht

theorem started_treed (st : ChainState) (g : Uint256) (h : Started env G st g) : Treed st g := by
  obtain ⟨b,nFile,nBlockPos,hashProof,modifier,rfl,_,hmap,_⟩ := h.entry
  refine ⟨env.hashBlock b,h.genesis,?_⟩
  rw [hmap]
  exact first_block_tree env b nFile nBlockPos hashProof modifier

theorem run_treed {st : ChainState} (h : Reachable env (Meets env G) st) :
    ∃ tip, Crowned st tip ∧ Treed st tip :=
  run_invariant env G Treed (started_treed env G) (treed_move env G) h

end Runs

section Samples

def fileMined (b : CBlock) (m : BlockMap) : BlockMap := filed sampleEnv b 1 b.nNonce 0 (0,false) m

def twoBranches : BlockMap := fileMined (mined 4 3 10) (fileMined (mined 3 1 10)
  (fileMined (mined 2 1 10) (fileMined (mined 1 0 0) fun _ => none)))

theorem two_branches_tree : BlockTree twoBranches 1 := by
  apply filed_block_tree
  · apply filed_block_tree
    · apply filed_block_tree
      · exact first_block_tree sampleEnv (mined 1 0 0) 1 1 0 (0,false)
      · decide +kernel
      · decide +kernel
    · decide +kernel
    · decide +kernel
  · decide +kernel
  · decide +kernel

/-- From the shorter branch to the longer one. -/
theorem branches_of_two : ∃ pfork vDisconnect vConnect,
    fork twoBranches.parentOf twoBranches.heightOf
      (Failure.error 0 "Reorganize() : plonger->pprev is null")
      (Failure.error 0 "Reorganize() : pfork->pprev is null")
      ((twoBranches.heightOf 2).toNat+1) 2 4 = .ok pfork ∧ Fork twoBranches 2 4 pfork ∧
    branches { ChainState.empty with mapBlockIndex := twoBranches } 2 4 =
      .ok (vDisconnect,vConnect) ∧
    twoBranches.pathOf 2 = vDisconnect++twoBranches.pathOf pfork ∧
    twoBranches.pathOf 4 = vConnect.reverse++twoBranches.pathOf pfork :=
  reorganize_branches two_branches_tree { ChainState.empty with mapBlockIndex := twoBranches } rfl
    2 4 (by decide +kernel) (by decide +kernel)

example : branches { ChainState.empty with mapBlockIndex := twoBranches } 2 4 =
    .ok ([2],[3,4]) := by decide +kernel

end Samples

end SwippCore.ForkSearch
