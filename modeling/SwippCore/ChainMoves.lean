import SwippCore.ChainOps
import SwippCore.PoolAcceptance

/-!
# Moves of the best chain

A move that fails leaves everything as it was, and one that goes through leaves the new tip.
-/

set_option autoImplicit false

namespace SwippCore.ChainRollback
open Attempt Ancestry ChainTree ChainOps

variable (env : Env) (w : World)

structure Pooled (st st' : ChainState) : Prop where
  entries : st'.mapBlockIndex = st.mapBlockIndex
  globals : SameGlobals st st'
  invalid : st'.nBestInvalidTrust = st.nBestInvalidTrust
  txdb : st'.txdb = st.txdb
  syncs : st.syncs <+: st'.syncs

theorem pooled_refl (st : ChainState) : Pooled st st :=
  ⟨rfl,same_globals_refl st,rfl,rfl,List.prefix_rfl⟩

theorem pooled_trans (a b c : ChainState) (h : Pooled a b) (h' : Pooled b c) : Pooled a c :=
  ⟨h'.entries.trans h.entries,same_globals_trans h.globals h'.globals,
    h'.invalid.trans h.invalid,h'.txdb.trans h.txdb,h.syncs.trans h'.syncs⟩

theorem accept_step_pooled (fLimitFree : Bool) (tx : CTransaction) (st : ChainState) :
    Pooled st (acceptStep env w fLimitFree tx st).1 := by
  unfold acceptStep
  split
  · exact ⟨rfl,⟨rfl,rfl,rfl,rfl,rfl⟩,rfl,rfl,List.prefix_append _ _⟩
  · exact pooled_refl st
  · exact pooled_refl st

variable (tx : CTransaction)

theorem remove_step_pooled (st : ChainState) : Pooled st (removeStep env tx st).1 := by
  unfold removeStep
  split
  · exact pooled_refl st
  · exact ⟨rfl,⟨rfl,rfl,rfl,rfl,rfl⟩,rfl,rfl,List.prefix_rfl⟩

theorem delete_step_pooled (st : ChainState) : Pooled st (deleteStep env tx st).1 := by
  apply and_then_fst Pooled pooled_trans st _ _ (remove_step_pooled env tx st)
  intro t
  split
  · exact pooled_refl t
  · exact ⟨rfl,⟨rfl,rfl,rfl,rfl,rfl⟩,rfl,rfl,List.prefix_rfl⟩

def relinked (vDisconnect vConnect : List Uint256) (st : ChainState) : ChainState :=
  { st with mapBlockIndex := (st.mapBlockIndex.unlinkAll vDisconnect).linkAll vConnect }

theorem adopt_branch_pooled (xs ys : List Uint256) (res del : List CTransaction)
    (st : ChainState) : Pooled (relinked xs ys st) (adoptBranch env w xs ys res del st).1 := by
  apply and_then_fst Pooled pooled_trans
  · exact for_all_fst Pooled pooled_refl pooled_trans _
      (fun tx _ => accept_step_pooled env w false tx) _
  · exact for_all_fst Pooled pooled_refl pooled_trans _
      (fun tx _ => delete_step_pooled env tx)

def linked (h : Uint256) (st : ChainState) : ChainState :=
  { st with mapBlockIndex := st.mapBlockIndex.setParentPnext h (some h) }

theorem adopt_block_pooled (h : Uint256) (b : CBlock) (st : ChainState) :
    Pooled (linked h st) (adoptBlock env h b st).1 :=
  for_all_fst Pooled pooled_refl pooled_trans _ (fun tx _ => remove_step_pooled env tx) _

theorem accept_step_error (fLimitFree : Bool) (tx : CTransaction) (st st' : ChainState)
    (f : Failure) (h : acceptStep env w fLimitFree tx st = (st',.error f)) : f = .crash := by
  unfold acceptStep at h
  have hq := PoolAcceptance.accept_no_throw env st.best
    ((st.pindexBest.map st.ancestorsOf).getD []) (w.disk (env.hashTx tx)) st.txdb.committed
    fLimitFree tx st.mempool
  cases ha : acceptToMemoryPool env st.best ((st.pindexBest.map st.ancestorsOf).getD [])
      (w.disk (env.hashTx tx)) st.txdb.committed fLimitFree tx st.mempool with
  | ok pool =>
    rw [ha] at h
    cases h
  | error g =>
    cases g with
    | error n text =>
      rw [ha] at h
      cases h
    | throw text => exact absurd ha (hq text)
    | crash =>
      rw [ha] at h
      exact (Except.error.inj (Prod.mk.inj h).2).symm

theorem remove_step_error (st st' : ChainState) (f : Failure)
    (h : removeStep env tx st = (st',.error f)) : f = .crash := by
  unfold removeStep at h
  split at h
  · exact (Except.error.inj (Prod.mk.inj h).2).symm
  · cases h

theorem delete_step_error (st st' : ChainState) (f : Failure)
    (h : deleteStep env tx st = (st',.error f)) : f = .crash := by
  rcases (and_then_error _ _ _ _).mp h with h | ⟨t,_,h⟩
  · exact remove_step_error env tx st st' f h
  · split at h
    · exact (Except.error.inj (Prod.mk.inj h).2).symm
    · cases h

theorem adopt_branch_error {xs ys : List Uint256} {res del : List CTransaction}
    {st st' : ChainState} {f : Failure} (h : adoptBranch env w xs ys res del st = (st',.error f)) :
    f = .crash := by
  rcases (and_then_error _ _ _ _).mp h with h | ⟨t,_,h⟩
  · exact for_all_error (· = Failure.crash)
      (fun tx _ s t e => accept_step_error env w false tx s t e) _ _ h
  · exact for_all_error (· = Failure.crash)
      (fun tx _ s t e => delete_step_error env tx s t e) _ _ h

theorem adopt_block_error {h : Uint256} {b : CBlock} {st st' : ChainState} {f : Failure}
    (hf : adoptBlock env h b st = (st',.error f)) : f = .crash :=
  for_all_error (· = Failure.crash)
    (fun tx _ s t e => remove_step_error env tx s t e) _ _ hf

structure SameRecords (s s' : Store) : Prop where
  tx : s'.tx = s.tx
  blockIndex : s'.blockIndex = s.blockIndex
  hashBestChain : s'.hashBestChain = s.hashBestChain
  addr : s'.addr = s.addr

/-- What a call that failed leaves of a state; the totals of entries in the given
set may have changed. -/
structure Undone (T : Uint256 → Prop) (st st' : ChainState) : Prop where
  entries : Retotalled T st.mapBlockIndex st'.mapBlockIndex
  globals : SameGlobals st st'
  mempool : st'.mempool = st.mempool
  committed : SameRecords st.txdb.committed st'.txdb.committed
  syncs : st.syncs <+: st'.syncs

section Undone
variable {T : Uint256 → Prop}

variable (st : ChainState)

theorem undone_refl : Undone T st st :=
  ⟨retotalled_refl T _,same_globals_refl st,rfl,⟨rfl,rfl,rfl,rfl⟩,List.prefix_rfl⟩

theorem undone_trans (a b c : ChainState) (h : Undone T a b) (h' : Undone T b c) :
    Undone T a c :=
  ⟨retotalled_trans h.entries h'.entries,same_globals_trans h.globals h'.globals,
    h'.mempool.trans h.mempool,
    ⟨h'.committed.tx.trans h.committed.tx,h'.committed.blockIndex.trans h.committed.blockIndex,
      h'.committed.hashBestChain.trans h.committed.hashBestChain,
      h'.committed.addr.trans h.committed.addr⟩,h.syncs.trans h'.syncs⟩

theorem worked_undone {st st' : ChainState} (h : Worked T st st') : Undone T st st' :=
  ⟨h.entries,h.globals,h.mempool,by rw [h.committed]; exact ⟨rfl,rfl,rfl,rfl⟩,h.syncs⟩

theorem begin_undone : Undone T st st.begin :=
  ⟨retotalled_refl T _,⟨rfl,rfl,rfl,rfl,rfl⟩,rfl,⟨rfl,rfl,rfl,rfl⟩,List.prefix_rfl⟩

theorem abort_undone : Undone T st st.abort :=
  ⟨retotalled_refl T _,⟨rfl,rfl,rfl,rfl,rfl⟩,rfl,⟨rfl,rfl,rfl,rfl⟩,List.prefix_rfl⟩

theorem commit_undone (h : Uint256) {st : ChainState} (hr : Ready st) :
    Undone T st ((st.writeHashBestChain h).commit false) := by
  obtain ⟨hc,_⟩ := Batched.committed_modify (Store.writeHashBestChain h) hr.batch
  refine ⟨retotalled_refl T _,⟨rfl,rfl,rfl,rfl,rfl⟩,rfl,?_,List.prefix_rfl⟩
  have he : ((st.writeHashBestChain h).commit false).txdb.committed = st.txdb.committed := hc
  rw [he]
  exact ⟨rfl,rfl,rfl,rfl⟩

theorem invalid_chain_found_undone (h : Uint256) (st : ChainState) :
    Undone T st (invalidChainFound h st).1 := by
  unfold invalidChainFound
  cases st.mapBlockIndex h with
  | none => exact undone_refl st
  | some i =>
    dsimp only
    have hrec : Undone T st (if st.nBestInvalidTrust < i.nChainTrust then
        { st with
          nBestInvalidTrust := i.nChainTrust
          txdb := { st.txdb with
            committed := st.txdb.committed.writeBestInvalidTrust i.nChainTrust } }
        else st) := by
      split_ifs
      · exact ⟨retotalled_refl T _,⟨rfl,rfl,rfl,rfl,rfl⟩,rfl,⟨rfl,rfl,rfl,rfl⟩,List.prefix_rfl⟩
      · exact undone_refl st
    revert hrec
    generalize (if st.nBestInvalidTrust < i.nChainTrust then
        { st with
          nBestInvalidTrust := i.nChainTrust
          txdb := { st.txdb with
            committed := st.txdb.committed.writeBestInvalidTrust i.nChainTrust } }
        else st) = st1
    intro hrec
    split
    · split_ifs
      · exact hrec
      · exact hrec
    · exact hrec

theorem set_best_chain_inner_error (h : Uint256) (b : CBlock) (st st' : ChainState) (f : Failure)
    (hr : Ready st) (hT : T h) (hf : setBestChainInner env w h b st = (st',.error f)) :
    f = .crash ∨ Undone T st st' := by
  have hwork := connect_step_worked env w T h b st hT hr
  unfold setBestChainInner at hf
  rcases hc : connectStep env w h b st with ⟨st1,g | _⟩
  · rw [hc] at hf hwork
    have hund := worked_undone hwork
    cases g with
    | error n text =>
      right
      have hinv := undone_trans st1 _ _ (abort_undone st1)
        (invalid_chain_found_undone (T := T) h st1.abort)
      rcases (and_then_error _ _ _ _).mp hf with hi | ⟨t,hi,hf⟩
      · rw [hi] at hinv
        exact undone_trans _ _ _ hund hinv
      · rw [hi] at hinv
        simp only [fail, Prod.mk.injEq] at hf
        rw [← hf.1]
        exact undone_trans _ _ _ hund hinv
    | throw text =>
      simp only [fail, Prod.mk.injEq] at hf
      exact Or.inr (hf.1 ▸ hund)
    | crash =>
      simp only [fail, Prod.mk.injEq, Except.error.injEq] at hf
      exact Or.inl hf.2.symm
  · rw [hc] at hf hwork
    have hund := worked_undone hwork
    simp only at hf
    split_ifs at hf with hok
    · exact Or.inl (adopt_block_error env hf)
    · right
      simp only [fail, Prod.mk.injEq] at hf
      rw [← hf.1]
      rw [Bool.not_eq_true] at hok
      rw [hok]
      exact undone_trans _ _ _ hund (commit_undone h hwork.ready)

theorem switch_branches_error {hNew : Uint256} {xs ys : List Uint256} {st st' : ChainState}
    {f : Failure} (hr : Ready st) (hT : ∀ h ∈ ys, T h)
    (hf : switchBranches env w hNew xs ys st = (st',.error f)) : f = .crash ∨ Undone T st st' := by
  have hdown := disconnect_all_worked env w T xs (st,[]) hr
  unfold switchBranches at hf
  rcases hd : forAll (disconnectOne env w) xs (st,[]) with ⟨⟨st1,res⟩,g | _⟩
  · rw [hd] at hf hdown
    simp only [fail, Prod.mk.injEq] at hf
    exact Or.inr (hf.1 ▸ worked_undone hdown)
  · rw [hd] at hf hdown
    have hup := connect_all_worked env w T ys (st1,[]) hT hdown.ready
    simp only at hf
    rcases hc : forAll (connectOne env w) ys (st1,[]) with ⟨⟨st2,del⟩,g | _⟩
    · rw [hc] at hf hup
      simp only [fail, Prod.mk.injEq] at hf
      right
      rw [← hf.1]
      exact undone_trans _ _ _ (worked_undone hdown) (worked_undone hup)
    · rw [hc] at hf hup
      have hund := undone_trans _ _ _ (worked_undone hdown) (worked_undone hup)
      simp only at hf
      split_ifs at hf with hok
      · exact Or.inl (adopt_branch_error env w hf)
      · right
        simp only [fail, Prod.mk.injEq] at hf
        rw [← hf.1]
        rw [Bool.not_eq_true] at hok
        rw [hok]
        exact undone_trans _ _ _ hund (commit_undone hNew hup.ready)

end Undone

theorem branches_ok {st : ChainState} {tip hNew : Uint256} {xs ys : List Uint256}
    (ht : Tree st.mapBlockIndex) (h : branches st tip hNew = .ok (xs,ys)) :
    ∃ pfork, Ascends st.mapBlockIndex.parentOf pfork xs.reverse tip ∧
      Ascends st.mapBlockIndex.parentOf pfork ys hNew ∧
      ∀ y ∈ ys, y ∉ st.mapBlockIndex.pathOf tip := by
  have g := tree_graded ht
  simp only [branches] at h
  cases hf : fork st.mapBlockIndex.parentOf st.mapBlockIndex.heightOf
      (Failure.error 0 "Reorganize() : plonger->pprev is null")
      (Failure.error 0 "Reorganize() : pfork->pprev is null")
      ((st.mapBlockIndex.heightOf tip).toNat+1) tip hNew with
  | error e => simp [hf] at h
  | ok pfork =>
    simp only [hf] at h
    cases hx : segment st.mapBlockIndex.parentOf pfork (st.mapBlockIndex.heightOf tip).toNat tip with
    | none => simp [hx] at h
    | some vs =>
      cases hy : segment st.mapBlockIndex.parentOf pfork (st.mapBlockIndex.heightOf hNew).toNat
          hNew with
      | none => simp [hx, hy] at h
      | some us =>
        simp only [hx, hy, Except.ok.injEq, Prod.mk.injEq] at h
        obtain ⟨rfl,rfl⟩ := h
        refine ⟨pfork,segment_ascends _ _ _ hx,segment_ascends _ _ _ hy,?_⟩
        intro y hmem
        exact segments_apart g hf hy (List.mem_reverse.mp hmem)

theorem reorganize_error (tip hNew : Uint256) (st st' : ChainState) (f : Failure)
    (ht : Tree st.mapBlockIndex) (hbest : st.pindexBest = some tip) (hr : Ready st)
    (hf : reorganize env w hNew st = (st',.error f)) :
    f = .crash ∨ Undone (fun h => h ∉ st.mapBlockIndex.pathOf tip) st st' := by
  simp only [reorganize, hbest] at hf
  cases hb : branches st tip hNew with
  | error g =>
    simp only [hb, fail, Prod.mk.injEq] at hf
    exact Or.inr (hf.1 ▸ undone_refl st)
  | ok r =>
    obtain ⟨xs,ys⟩ := r
    simp only [hb] at hf
    obtain ⟨_,_,_,hapart⟩ := branches_ok ht hb
    exact switch_branches_error env w hr hapart hf

end SwippCore.ChainRollback

namespace SwippCore.ChainMoves
open Attempt Ancestry ChainTree ChainOps ChainRollback

/-- What is asked of the blocks that are read and connected on the way, of the
blocks that are filed, and of the transactions that are offered. -/
structure Guards where
  attach : World → Uint256 → CBlock → ChainState → Prop
  disconnect : World → Uint256 → CBlock → ChainState → Prop
  connect : World → Uint256 → CBlock → ChainState → Prop
  file : CBlock → ℕ → ℕ → ChainState → Prop
  offer : CTransaction → Prop

def Guards.none : Guards :=
  ⟨fun _ _ _ _ => True,fun _ _ _ _ => True,fun _ _ _ _ => True,fun _ _ _ _ => True,fun _ => True⟩

variable (env : Env) (w : World) (G : Guards)

def Reads (P : World → Uint256 → CBlock → ChainState → Prop) (h : Uint256)
    (x : ChainState × List CTransaction) : Prop :=
  ∀ i b, x.1.mapBlockIndex h = some i → readFromDisk env x.1.best (w.disk h) i = some b →
    P w h b x.1

inductive Switched (tip hNew : Uint256) (st st' : ChainState) : Prop
  | mk (pfork : Uint256) (xs ys : List Uint256) (st1 st2 : ChainState)
      (vResurrect vDelete : List CTransaction)
      (down : Ascends st.mapBlockIndex.parentOf pfork xs.reverse tip)
      (up : Ascends st.mapBlockIndex.parentOf pfork ys hNew)
      (apart : ∀ y ∈ ys, y ∉ st.mapBlockIndex.pathOf tip)
      (disconnected : forAll (disconnectOne env w) xs (st.begin,[]) = ((st1,vResurrect),.ok ()))
      (connected : forAll (connectOne env w) ys (st1,[]) = ((st2,vDelete),.ok ()))
      (adopted : adoptBranch env w xs ys vResurrect vDelete
        ((st2.writeHashBestChain hNew).commit true) = (st',.ok ()))
      (readDown : Along (Reads env w G.disconnect) (disconnectOne env w) xs (st.begin,[]))
      (readUp : Along (Reads env w G.connect) (connectOne env w) ys (st1,[]))

inductive Attached (h : Uint256) (b : CBlock) (st st' : ChainState) : Prop
  | mk (st1 : ChainState) (connected : connectStep env w h b st.begin = (st1,.ok ()))
      (adopted : adoptBlock env h b ((st1.writeHashBestChain h).commit true) = (st',.ok ()))

inductive Move : ChainState × Uint256 → ChainState × Uint256 → Prop
  | undone {st st' : ChainState} {tip : Uint256}
      (h : Undone (fun k => k ∉ st.mapBlockIndex.pathOf tip) st st') : Move (st,tip) (st',tip)
  | attach {w : World} {st st' : ChainState} {p h : Uint256} {b : CBlock}
      (hp : st.mapBlockIndex.parentOf h = some p) (hb : env.hashBlock b = h)
      (hg : G.attach w h b st.begin) (ha : Attached env w h b st st') : Move (st,p) (st',h)
  | switch {w : World} {st st' : ChainState} {tip hNew : Uint256}
      (hs : Switched env w G tip hNew st st') : Move (st,tip) (st',hNew)
  | crown {st st' : ChainState} {tip : Uint256} (h : newBest tip st = (st',.ok ())) :
      Move (st,tip) (st',tip)
  | file {w : World} {st st' : ChainState} {tip : Uint256} {b : CBlock} {nFile nBlockPos : ℕ}
      {hashProof : Uint256} {r : Except Failure Unit}
      (hprev : (st.mapBlockIndex b.hashPrevBlock).isSome) (hg : G.file b nFile nBlockPos st)
      (h : indexBlock env w b nFile nBlockPos hashProof st = (st',r)) : Move (st,tip) (st',tip)
  | offer {w : World} {st st' : ChainState} {tip : Uint256} {fLimitFree : Bool}
      {tx : CTransaction} {r : Except Failure Unit} (hg : G.offer tx)
      (h : acceptStep env w fLimitFree tx st = (st',r)) : Move (st,tip) (st',tip)

abbrev Moves := Relation.ReflTransGen (Move env G)

structure Standing (st : ChainState) (tip : Uint256) : Prop where
  tree : Tree st.mapBlockIndex
  entry : (st.mapBlockIndex tip).isSome
  genesis : st.pindexGenesisBlock.isSome
  best : st.pindexBest.isSome

def PostponedConnect : List Uint256 → ChainState → Prop
  | [], _ => True
  | h::hs, st => ∃ i b st1, st.mapBlockIndex h = some i ∧
      readFromDisk env st.best (w.disk h) i = some b ∧ G.attach w h b st.begin ∧
      connectStep env w h b st.begin = (st1,.ok ()) ∧ w.commitOk h ∧
      ∀ st2, adoptBlock env h b ((st1.writeHashBestChain h).commit true) = (st2,.ok ()) →
        PostponedConnect hs st2

def SwitchMeets (hNew : Uint256) (st : ChainState) : Prop :=
  ∀ tip xs ys, st.pindexBest = some tip → branches st tip hNew = .ok (xs,ys) →
    Along (Reads env w G.disconnect) (disconnectOne env w) xs (st,[]) ∧
      ∀ y, forAll (disconnectOne env w) xs (st,[]) = (y,.ok ()) →
        Along (Reads env w G.connect) (connectOne env w) ys (y.1,[])

/-- The guards on a call of `SetBestChain`, once the first block is there. -/
def CallMeets (b : CBlock) (st : ChainState) : Prop :=
  st.pindexGenesisBlock.isSome →
  if b.hashPrevBlock = st.hashBestChain then G.attach w (env.hashBlock b) b st.begin
  else ∀ tip, st.best.pindexBest = some tip →
    let r := postpone st.mapBlockIndex tip.nChainTrust
      (st.mapBlockIndex.heightOf (env.hashBlock b)).toNat (env.hashBlock b) []
    SwitchMeets env w G r.2 st.begin ∧
      ∀ st1, reorganize env w r.2 st.begin = (st1,.ok ()) → PostponedConnect env w G r.1 st1

structure Entered (m : BlockMap) (b : CBlock) : Prop where
  entry : (m (env.hashBlock b)).isSome
  parent : (m b.hashPrevBlock).isSome → m.parentOf (env.hashBlock b) = some b.hashPrevBlock

variable {st : ChainState}

theorem begin_ready (h : st.pindexBest.isSome) : Ready st.begin := ⟨h,rfl⟩

variable {st' : ChainState} {tip : Uint256}

theorem reorganize_ok {hNew : Uint256} (ht : Tree st.mapBlockIndex)
    (hbest : st.pindexBest = some tip) (hg : SwitchMeets env w G hNew st.begin)
    (h : reorganize env w hNew st.begin = (st',.ok ())) : Switched env w G tip hNew st st' := by
  have hbest' : st.begin.pindexBest = some tip := hbest
  simp only [reorganize, hbest'] at h
  cases hb : branches st.begin tip hNew with
  | error f => simp [hb, fail] at h
  | ok r =>
    obtain ⟨xs,ys⟩ := r
    simp only [hb] at h
    obtain ⟨pfork,hdown,hup,hapart⟩ := branches_ok ht hb
    obtain ⟨hgd,hgc⟩ := hg tip xs ys hbest' hb
    unfold switchBranches at h
    rcases hd : forAll (disconnectOne env w) xs (st.begin,[]) with ⟨⟨st1,res⟩,f | _⟩
    · simp [hd, fail] at h
    · simp only [hd] at h
      rcases hc : forAll (connectOne env w) ys (st1,[]) with ⟨⟨st2,del⟩,f | _⟩
      · simp [hc, fail] at h
      · simp only [hc] at h
        split_ifs at h with hok
        · rw [hok] at h
          exact ⟨pfork,xs,ys,st1,st2,res,del,hdown,hup,hapart,hd,hc,h,hgd,hgc _ hd⟩
        · simp [fail] at h

theorem set_best_chain_inner_ok {h : Uint256} {b : CBlock}
    (hok : setBestChainInner env w h b st.begin = (st',.ok ())) : Attached env w h b st st' := by
  unfold setBestChainInner at hok
  rcases hc : connectStep env w h b st.begin with ⟨st1,f | _⟩
  · rw [hc] at hok
    cases f with
    | error n text =>
      obtain ⟨_,_,hfail⟩ := (and_then_ok _ _ _).mp hok
      simp [fail] at hfail
    | throw text => simp [fail] at hok
    | crash => simp [fail] at hok
  · simp only [hc] at hok
    split_ifs at hok with hcom
    · rw [hcom] at hok
      exact ⟨st1,hc,hok⟩
    · simp [fail] at hok

/-- The entries of a tree stay at their places along work, links and pool operations. -/
theorem adopt_block_same (h : Uint256) (b : CBlock) (st : ChainState) :
    SameTree st.mapBlockIndex (adoptBlock env h b st).1.mapBlockIndex := by
  rw [(adopt_block_pooled env h b st).entries]
  exact relinked_same (set_parent_relinked st.mapBlockIndex h (some h))

theorem adopt_branch_same (xs ys : List Uint256) (res del : List CTransaction)
    (st : ChainState) :
    SameTree st.mapBlockIndex (adoptBranch env w xs ys res del st).1.mapBlockIndex := by
  rw [(adopt_branch_pooled env w xs ys res del st).entries]
  obtain ⟨f,hf⟩ := switched_relinked xs ys st.mapBlockIndex
  exact relinked_same hf

theorem begin_then (h : SameGlobals st.begin st') : SameGlobals st st' :=
  ⟨h.genesis,h.best,h.hash,h.height,h.trust⟩

theorem committed_then {h : Uint256} {m : BlockMap}
    (hg : SameGlobals { (st.writeHashBestChain h).commit true with mapBlockIndex := m } st') :
    SameGlobals st st' := ⟨hg.genesis,hg.best,hg.hash,hg.height,hg.trust⟩

theorem adopted_block {h : Uint256} {b : CBlock} {st1 : ChainState}
    (had : adoptBlock env h b ((st1.writeHashBestChain h).commit true) = (st',.ok ())) :
    Pooled (linked h ((st1.writeHashBestChain h).commit true)) st' ∧
      st'.txdb.committed = st1.txdb.view.writeHashBestChain h := by
  have hpool := adopt_block_pooled env h b ((st1.writeHashBestChain h).commit true)
  rw [had] at hpool
  refine ⟨hpool,?_⟩
  rw [hpool.txdb]
  simp [linked, ChainState.commit, ChainState.writeHashBestChain]

/-- What is left of a branch that was adopted: its batch, and the links along it. -/
theorem adopted_branch {hNew : Uint256} {xs ys : List Uint256} {res del : List CTransaction}
    {st2 : ChainState}
    (had : adoptBranch env w xs ys res del ((st2.writeHashBestChain hNew).commit true) =
      (st',.ok ())) :
    Pooled (relinked xs ys ((st2.writeHashBestChain hNew).commit true)) st' ∧
      st'.txdb.committed = st2.txdb.view.writeHashBestChain hNew := by
  have hpool := adopt_branch_pooled env w xs ys res del ((st2.writeHashBestChain hNew).commit true)
  rw [had] at hpool
  refine ⟨hpool,?_⟩
  rw [hpool.txdb]
  simp [relinked, ChainState.commit, ChainState.writeHashBestChain]

theorem attached_same (h : Uint256) (b : CBlock) (st' : ChainState) (hbest : st.pindexBest.isSome)
    (ha : Attached env w h b st st') :
    SameTree st.mapBlockIndex st'.mapBlockIndex ∧ SameGlobals st st' := by
  obtain ⟨st1,hc,had⟩ := ha
  have hwork := connect_step_worked env w (fun _ => True) h b st.begin trivial (begin_ready hbest)
  have hsame := adopt_block_same env h b ((st1.writeHashBestChain h).commit true)
  have hpool := adopt_block_pooled env h b ((st1.writeHashBestChain h).commit true)
  rw [hc] at hwork
  rw [had] at hsame hpool
  refine ⟨same_tree_trans (retotalled_same _ _ _ hwork.entries) hsame,?_⟩
  exact same_globals_trans (begin_then hwork.globals)
    (committed_then hpool.globals)

theorem switched_same {hNew : Uint256} (hbest : st.pindexBest.isSome)
    (hs : Switched env w G tip hNew st st') :
    SameTree st.mapBlockIndex st'.mapBlockIndex ∧ SameGlobals st st' := by
  obtain ⟨pfork,xs,ys,st1,st2,res,del,_,_,_,hd,hc,had,_,_⟩ := hs
  have hdown := disconnect_all_worked env w (fun _ => True) xs (st.begin,[]) (begin_ready hbest)
  rw [hd] at hdown
  have hup := connect_all_worked env w (fun _ => True) ys (st1,[]) (fun _ _ => trivial) hdown.ready
  rw [hc] at hup
  have hsame := adopt_branch_same env w xs ys res del ((st2.writeHashBestChain hNew).commit true)
  have hpool := adopt_branch_pooled env w xs ys res del ((st2.writeHashBestChain hNew).commit true)
  rw [had] at hsame hpool
  refine ⟨same_tree_trans (same_tree_trans (retotalled_same _ _ _ hdown.entries)
    (retotalled_same _ _ _ hup.entries)) hsame,?_⟩
  have hwork := same_globals_trans hdown.globals hup.globals
  exact same_globals_trans (begin_then hwork)
    (committed_then hpool.globals)

theorem same_entry {m m' : BlockMap} (h : SameTree m m') (k : Uint256) :
    (m' k).isSome = (m k).isSome := by
  have hk := congrArg Option.isSome (h k)
  simpa using hk

theorem ascends_entry {m : BlockMap} (ht : Tree m) (p n : Uint256) {xs : List Uint256}
    (h : Ascends m.parentOf p xs n) : (m p).isSome ↔ (m n).isSome := by
  induction xs generalizing p with
  | nil => rw [show p = n from h]
  | cons x xs ih =>
    obtain ⟨i,hi,hp⟩ := (parent_of_some m x p).mp h.1
    obtain ⟨j,hj,_⟩ := ht.step x i p hi hp
    rw [← ih x h.2, hi, hj]
    simp

def entered (h : Uint256) (i : CBlockIndex) (ok : Bool) (st : ChainState) : ChainState :=
  { st.setEntry h i with
    txdb := (st.txdb.begin.modify (Store.writeBlockIndex h (.ofIndex i))).commit ok }

theorem index_block_cases {b : CBlock} {nFile nBlockPos : ℕ} {hashProof : Uint256}
    {r : Except Failure Unit} (h : indexBlock env w b nFile nBlockPos hashProof st = (st',r)) :
    (st' = st ∧ r ≠ .ok ()) ∨
      st.mapBlockIndex (env.hashBlock b) = none ∧ ∃ modifier,
        st' = entered (env.hashBlock b) (newEntry env b nFile nBlockPos hashProof modifier
          st.mapBlockIndex) w.indexCommitOk st ∧ (r = .ok () → w.indexCommitOk = true) := by
  unfold indexBlock at h
  cases hm : st.mapBlockIndex (env.hashBlock b) with
  | some i =>
    simp only [hm, fail, Prod.mk.injEq] at h
    exact Or.inl ⟨h.1.symm,by rw [← h.2]; simp⟩
  | none =>
    cases hw : w.nextStakeModifier with
    | none =>
      simp only [hm, hw, fail, Prod.mk.injEq] at h
      exact Or.inl ⟨h.1.symm,by rw [← h.2]; simp⟩
    | some modifier =>
      simp only [hm, hw] at h
      refine Or.inr ⟨rfl,modifier,?_⟩
      split_ifs at h with hc
      · simp only [done, Prod.mk.injEq] at h
        exact ⟨h.1.symm,fun _ => hc⟩
      · simp only [fail, Prod.mk.injEq] at h
        exact ⟨h.1.symm,by rw [← h.2]; simp⟩

section Filed
variable (b : CBlock) (nFile nBlockPos : ℕ) (hashProof : Uint256) (modifier : ℕ × Bool) (m : BlockMap)

def filed : BlockMap := Function.update m (env.hashBlock b)
  (some (newEntry env b nFile nBlockPos hashProof modifier m))

variable {b nFile nBlockPos hashProof modifier m}

theorem filed_other (k : Uint256) (h : k ≠ env.hashBlock b) :
    filed env b nFile nBlockPos hashProof modifier m k = m k := by simp [filed, h]

theorem filed_parent (hprev : (m b.hashPrevBlock).isSome) : (filed env b nFile nBlockPos hashProof modifier m).parentOf
    (env.hashBlock b) = some b.hashPrevBlock := by
  obtain ⟨p,hp⟩ := Option.isSome_iff_exists.mp hprev
  simp [BlockMap.parentOf, filed, newEntry, hp]

variable (ht : Tree m) (hnew : m (env.hashBlock b) = none)
include ht hnew

theorem old_path_ne {tip : Uint256} (htip : (m tip).isSome) (c : Uint256) (hc : c ∈ m.pathOf tip) :
    c ≠ env.hashBlock b := by
  have g := tree_graded ht
  intro he
  rcases (mem_path_child g tip c).mp hc with rfl | ⟨d,_,hd⟩
  · rw [he, hnew] at htip
    cases htip
  · obtain ⟨i,hi,hp⟩ := (parent_of_some _ _ _).mp hd
    obtain ⟨j,hj,_⟩ := ht.step d i c hi hp
    rw [he, hnew] at hj
    cases hj

theorem filed_old_parent {tip : Uint256} (htip : (m tip).isSome) (c : Uint256)
    (hc : c ∈ m.pathOf tip) :
    (filed env b nFile nBlockPos hashProof modifier m).parentOf c = m.parentOf c := by
  rw [BlockMap.parentOf, BlockMap.parentOf, filed_other env c
    (old_path_ne env ht hnew htip c hc)]

variable (hprev : (m b.hashPrevBlock).isSome)
include hprev

theorem filed_tree : Tree (filed env b nFile nBlockPos hashProof modifier m) := by
  obtain ⟨p,hp⟩ := Option.isSome_iff_exists.mp hprev
  have hne : b.hashPrevBlock ≠ env.hashBlock b := by
    intro he
    rw [he, hnew] at hp
    cases hp
  have hself : filed env b nFile nBlockPos hashProof modifier m (env.hashBlock b) =
      some (newEntry env b nFile nBlockPos hashProof modifier m) := by simp [filed]
  refine ⟨?_,?_,?_⟩
  · intro h i hi
    by_cases hh : h = env.hashBlock b
    · rw [hh, hself, Option.some_inj] at hi
      rw [← hi, hh]
      rfl
    · rw [filed_other env h hh] at hi
      exact ht.keyed h i hi
  · intro h i hi
    by_cases hh : h = env.hashBlock b
    · rw [hh, hself, Option.some_inj] at hi
      have hn := ht.nonneg _ p hp
      rw [← hi]
      simp only [newEntry, hp, Option.map_some, Option.getD_some]
      omega
    · rw [filed_other env h hh] at hi
      exact ht.nonneg h i hi
  · intro h i q hi hq
    by_cases hh : h = env.hashBlock b
    · rw [hh, hself, Option.some_inj] at hi
      rw [← hi] at hq ⊢
      simp only [newEntry, hp, Option.map_some, Option.some_inj, Option.getD_some] at hq ⊢
      rw [← hq]
      exact ⟨p,by rw [filed_other env _ hne, hp],rfl⟩
    · rw [filed_other env h hh] at hi
      obtain ⟨j,hj,hheight⟩ := ht.step h i q hi hq
      have hqn : q ≠ env.hashBlock b := by
        intro he
        rw [he, hnew] at hj
        cases hj
      exact ⟨j,by rw [filed_other env q hqn, hj],hheight⟩

theorem filed_path {k : Uint256} (hk : (m k).isSome) :
    (filed env b nFile nBlockPos hashProof modifier m).pathOf k = m.pathOf k := by
  have g := tree_graded ht
  have ht' : Tree (filed env b nFile nBlockPos hashProof modifier m) :=
    filed_tree env ht hnew hprev
  have g' := tree_graded ht'
  induction k using up_induction g with
  | root k hp =>
    have hkn : k ≠ env.hashBlock b := fun he => by simp [he, hnew] at hk
    have hp' : (filed env b nFile nBlockPos hashProof modifier m).parentOf k = none := by
      rw [BlockMap.parentOf, filed_other env k hkn]
      exact hp
    rw [BlockMap.pathOf, BlockMap.pathOf, path_none _ _ hp', path_none _ _ hp]
  | up k p hp ih =>
    have hkn : k ≠ env.hashBlock b := fun he => by simp [he, hnew] at hk
    have hp' : (filed env b nFile nBlockPos hashProof modifier m).parentOf k = some p := by
      rw [BlockMap.parentOf, filed_other env k hkn]
      exact hp
    obtain ⟨i,hi,hpp⟩ := (parent_of_some m k p).mp hp
    obtain ⟨j,hj,_⟩ := ht.step k i p hi hpp
    have hrest := ih (by simp [hj])
    rw [BlockMap.pathOf, BlockMap.pathOf] at hrest ⊢
    rw [path_some g' hp', path_some g hp, hrest]

end Filed

theorem new_best_ok (h : newBest tip st = (st',.ok ())) :
    ∃ i, st.mapBlockIndex tip = some i ∧ st' = { st with
      hashBestChain := tip
      pindexBest := some tip
      nBestHeight := i.nHeight
      nBestChainTrust := i.nChainTrust
      mempool := { st.mempool with
        nTransactionsUpdated := st.mempool.nTransactionsUpdated+1 } } := by
  unfold newBest at h
  cases hi : st.mapBlockIndex tip with
  | none => simp [hi, fail] at h
  | some i =>
    simp only [hi, done, Prod.mk.injEq, and_true] at h
    exact ⟨i,rfl,h.symm⟩

theorem standing_same {tip' : Uint256} (hsame : SameTree st.mapBlockIndex st'.mapBlockIndex)
    (hg : SameGlobals st st') (hs : Standing st tip) (htip : (st.mapBlockIndex tip').isSome) :
    Standing st' tip' :=
  ⟨same_tree_tree hsame hs.tree,by rw [same_entry hsame]; exact htip,
    by rw [hg.genesis]; exact hs.genesis,by rw [hg.best]; exact hs.best⟩

theorem standing_move (a c : ChainState × Uint256) (h : Move env G a c)
    (hs : Standing a.1 a.2) : Standing c.1 c.2 := by
  cases h with
  | undone h => exact standing_same (retotalled_same _ _ _ h.entries) h.globals hs hs.entry
  | attach hp hb hg ha =>
    obtain ⟨hsame,hglob⟩ := attached_same env _ _ _ _ hs.best ha
    obtain ⟨i,hi,_⟩ := (parent_of_some _ _ _).mp hp
    exact standing_same hsame hglob hs (by rw [hi]; rfl)
  | switch h =>
    obtain ⟨hsame,hglob⟩ := switched_same env _ G hs.best h
    apply standing_same hsame hglob hs
    obtain ⟨pfork,xs,ys,_,_,_,_,hdown,hup,_,_,_,_,_,_⟩ := h
    rw [← ascends_entry hs.tree _ _ hup, ascends_entry hs.tree _ _ hdown]
    exact hs.entry
  | crown h =>
    obtain ⟨i,hi,rfl⟩ := new_best_ok h
    exact ⟨hs.tree,hs.entry,hs.genesis,rfl⟩
  | @file w st st' tip b nFile nBlockPos hashProof r hprev hg h =>
    rcases index_block_cases env _ h with ⟨rfl,_⟩ | ⟨hnew,modifier,rfl,_⟩
    · exact hs
    · refine ⟨filed_tree env hs.tree hnew hprev,?_,hs.genesis,hs.best⟩
      have hne : tip ≠ env.hashBlock b := by
        intro he
        have hentry := hs.entry
        rw [he, hnew] at hentry
        cases hentry
      exact (congrArg Option.isSome (filed_other env tip hne)).trans hs.entry
  | @offer w st st' tip fLimitFree tx r hg h =>
    have hpool := accept_step_pooled env w fLimitFree tx st
    rw [h] at hpool
    exact standing_same (by rw [hpool.entries]; exact same_tree_refl _) hpool.globals
      hs hs.entry

theorem standing_moves {a c : ChainState × Uint256} (h : Moves env G a c) (hs : Standing a.1 a.2) :
    Standing c.1 c.2 := by
  induction h with
  | refl => exact hs
  | tail _ hm ih => exact standing_move env G _ _ hm ih

end SwippCore.ChainMoves
