import SwippCore.ChainMoves

/-!
# Runs of the block chain

How the best chain reads in an index, and what holds behind any run of new blocks.
-/

set_option autoImplicit false

namespace SwippCore.ChainCursor
open Attempt Ancestry ChainTree ChainOps ChainRollback ChainMoves

variable (env : Env) (w : World) (m : BlockMap)

structure Working (st : ChainState) : Prop where
  ready : Ready st
  tree : Tree st.mapBlockIndex
  same : SameTree m st.mapBlockIndex

theorem working_step (T : Uint256 → Prop) (st st' : ChainState) (h : Working m st)
    (hw : Works T st st') : Working m st' := by
  have hwork := hw h.ready
  have hsame := retotalled_same _ _ _ hwork.entries
  exact ⟨hwork.ready,same_tree_tree hsame h.tree,same_tree_trans h.same hsame⟩

variable {st : ChainState}

theorem begin_working {tip : Uint256} (h : Standing st tip) : Working st.mapBlockIndex st.begin :=
  ⟨begin_ready h.best,h.tree,same_tree_refl _⟩

structure Site (h p : Uint256) (b : CBlock) (i : CBlockIndex) (st : ChainState) : Prop where
  working : Working m st
  entry : st.mapBlockIndex h = some i
  parent : i.pprev = some p
  hash : env.hashBlock b = h

structure Round (P : World → Uint256 → CBlock → ChainState → Prop) (h p : Uint256) (b : CBlock)
    (i : CBlockIndex) (st : ChainState) : Prop where
  site : Site env m h p b i st
  read : readFromDisk env st.best (w.disk h) i = some b
  meets : P w h b st

theorem round_of_read {P : World → Uint256 → CBlock → ChainState → Prop} {h p : Uint256}
    {b : CBlock} {i : CBlockIndex} {x : ChainState × List CTransaction} (hw : Working m x.1)
    (hi : x.1.mapBlockIndex h = some i) (hp : m.parentOf h = some p)
    (hread : readFromDisk env x.1.best (w.disk h) i = some b) (hg : Reads env w P h x) :
    Round env w m P h p b i x.1 := by
  refine ⟨⟨hw,hi,?_,?_⟩,hread,hg i b hi hread⟩
  · rw [← same_tree_parent hw.same] at hp
    obtain ⟨j,hj,hpp⟩ := (parent_of_some _ _ _).mp hp
    rw [hi, Option.some_inj] at hj
    rw [hj, hpp]
  · rw [read_hash env hread, hw.tree.keyed h i hi]

section
variable {h p : Uint256} {b : CBlock} {i : CBlockIndex} (hs : Site env m h p b i st)
include h b i hs

theorem site_parent :
    m.parentOf h = some p := by
  rw [← same_tree_parent hs.working.same]
  exact (parent_of_some _ _ _).mpr ⟨i,hs.entry,hs.parent⟩

theorem site_parent_entry :
    ∃ j, st.mapBlockIndex p = some j ∧ st.parentEntry i = some j ∧ j.hashBlock = p := by
  obtain ⟨j,hj,_⟩ := hs.working.tree.step h i p hs.entry hs.parent
  exact ⟨j,hj,by simp [ChainState.parentEntry, hs.parent, hj],hs.working.tree.keyed p j hj⟩

end

theorem attach_site {h p : Uint256} {b : CBlock} {tip : Uint256} (hs : Standing st tip)
    (hp : st.mapBlockIndex.parentOf h = some p) (hb : env.hashBlock b = h) :
    ∃ i, Site env st.mapBlockIndex h p b i st.begin := by
  obtain ⟨i,hi,hpp⟩ := (parent_of_some _ _ _).mp hp
  exact ⟨i,begin_working hs,hi,hpp,hb⟩

section Rules
variable {P : World → Uint256 → CBlock → ChainState → Prop}
  (J : ChainState × List CTransaction → Uint256 → Prop)

theorem down_rule
    (hJ : ∀ h p b i st st1 txs, Round env w m P h p b i st →
      disconnectStep env h b st = (st1,.ok ()) → J (st,txs) h →
      J (st1,resurrected env i b++txs) p)
    {pfork : Uint256} (tip : Uint256) {xs : List Uint256} (x : ChainState × List CTransaction) {y : ChainState × List CTransaction}
    (hw : Working m x.1) (hpath : Ascends m.parentOf pfork xs.reverse tip)
    (hg : Along (Reads env w P) (disconnectOne env w) xs x)
    (h : forAll (disconnectOne env w) xs x = (y,.ok ())) (hx : J x tip) :
    J y pfork ∧ Working m y.1 := by
  induction xs generalizing x tip with
  | nil =>
    simp only [forAll, done, Prod.mk.injEq, and_true] at h
    rw [← h, show pfork = tip from hpath]
    exact ⟨hx,hw⟩
  | cons k ks ih =>
    rw [List.reverse_cons] at hpath
    obtain ⟨rfl,p,hp,hpath⟩ := ascends_last _ _ hpath
    obtain ⟨z,hz,h⟩ := (and_then_ok _ _ _).mp h
    obtain ⟨i,b,hi,hread,hstep,hres⟩ := disconnect_one_ok env w hz
    have hround := round_of_read env w m hw hi hp hread hg.1
    have hwork := disconnect_one_worked env w (fun _ => False) k x
    rw [hz] at hwork
    have hnext := hJ k p b i x.1 z.1 x.2 hround hstep hx
    rw [← hres] at hnext
    exact ih p z (working_step m _ _ _ hw hwork) hpath (hg.2 z hz) h hnext

theorem up_rule
    (hJ : ∀ h p b i st st1 txs, Round env w m P h p b i st →
      connectStep env w h b st = (st1,.ok ()) → J (st,txs) p → J (st1,txs++b.vtx) h)
    (pfork : Uint256) {hNew : Uint256} {ys : List Uint256} (x : ChainState × List CTransaction) {y : ChainState × List CTransaction}
    (hw : Working m x.1) (hpath : Ascends m.parentOf pfork ys hNew)
    (hg : Along (Reads env w P) (connectOne env w) ys x)
    (h : forAll (connectOne env w) ys x = (y,.ok ())) (hx : J x pfork) :
    J y hNew ∧ Working m y.1 := by
  induction ys generalizing x pfork with
  | nil =>
    simp only [forAll, done, Prod.mk.injEq, and_true] at h
    rw [← h, ← show pfork = hNew from hpath]
    exact ⟨hx,hw⟩
  | cons k ks ih =>
    obtain ⟨z,hz,h⟩ := (and_then_ok _ _ _).mp h
    obtain ⟨i,b,hi,hread,hstep,hdel⟩ := connect_one_ok env w hz
    have hround := round_of_read env w m hw hi hpath.1 hread hg.1
    have hwork := connect_one_worked env w (fun _ => True) k x trivial
    rw [hz] at hwork
    have hnext := hJ k pfork b i x.1 z.1 x.2 hround hstep hx
    rw [← hdel] at hnext
    exact ih k z (working_step m _ _ _ hw hwork) hpath.2 (hg.2 z hz) h hnext

end Rules

end SwippCore.ChainCursor

namespace SwippCore.ChainRuns
open Attempt Ancestry ChainTree ChainOps ChainRollback ChainMoves

variable (env : Env) (G : Guards)

section Call
variable (w : World)

theorem postpone_ascends {m : BlockMap} (ht : Tree m) {trust : Uint256} {k : ℕ} (h q : Uint256)
    (hs hs' : List Uint256) {mid : Uint256} (hup : Ascends m.parentOf h hs q)
    (hp : postpone m trust k h hs = (hs',mid)) : Ascends m.parentOf mid hs' q := by
  induction k generalizing h hs with
  | zero =>
    rw [postpone, Prod.mk.injEq] at hp
    rw [← hp.1, ← hp.2]
    exact hup
  | succ k ih =>
    rw [postpone] at hp
    cases hb : (m.parentOf h).bind m with
    | none =>
      simp only [hb, Prod.mk.injEq] at hp
      rw [← hp.1, ← hp.2]
      exact hup
    | some p =>
      simp only [hb] at hp
      obtain ⟨j,hj,hm⟩ := Option.bind_eq_some_iff.mp hb
      split_ifs at hp with htrust
      · exact ih p.hashBlock (h::hs) ⟨by rw [ht.keyed j p hm]; exact hj,hup⟩ hp
      · rw [Prod.mk.injEq] at hp
        rw [← hp.1, ← hp.2]
        exact hup

theorem set_best_chain_inner_eq {h : Uint256} {b : CBlock} {st st1 : ChainState}
    (hc : connectStep env w h b st = (st1,.ok ())) (hok : w.commitOk h) :
    setBestChainInner env w h b st =
      adoptBlock env h b ((st1.writeHashBestChain h).commit true) := by
  simp only [setBestChainInner, hc, hok, if_true]

theorem connect_postponed_ok {hs : List Uint256} (st st' : ChainState) (p q : Uint256)
    (hst : Standing st p) (hup : Ascends st.mapBlockIndex.parentOf p hs q)
    (hg : PostponedConnect env w G hs st) (h : connectPostponed env w hs st = (st',.ok ())) :
    Moves env G (st,p) (st',q) := by
  induction hs generalizing st p with
  | nil =>
    simp only [connectPostponed, done, Prod.mk.injEq, and_true] at h
    rw [h, show p = q from hup]
  | cons k ks ih =>
    obtain ⟨i,b,st1,hi,hread,hga,hc,hcom,hrest⟩ := hg
    have hb : env.hashBlock b = k := by
      rw [read_hash env hread, hst.tree.keyed k i hi]
    simp only [connectPostponed, hi, hread, set_best_chain_inner_eq env w hc hcom] at h
    rcases ha : adoptBlock env k b ((st1.writeHashBestChain k).commit true) with ⟨st2,f | _⟩
    · have hf := adopt_block_error env ha
      subst hf
      simp [ha, fail] at h
    · simp only [ha] at h
      have hmove : Move env G (st,p) (st2,k) := .attach hup.1 hb hga ⟨st1,hc,ha⟩
      have hst2 := standing_move env G _ _ hmove hst
      have hsame := (attached_same env w k b st2 hst.best ⟨st1,hc,ha⟩).1
      have hup2 : Ascends st2.mapBlockIndex.parentOf k ks q := by
        rw [same_tree_parent hsame]
        exact hup.2
      exact .head hmove (ih st2 k hst2 hup2 (hrest st2 ha) h)

theorem connect_postponed_error {hs : List Uint256} (st st' : ChainState) {f : Failure}
    (hg : PostponedConnect env w G hs st) (h : connectPostponed env w hs st = (st',.error f)) :
    f = .crash := by
  induction hs generalizing st with
  | nil => cases h
  | cons k ks ih =>
    obtain ⟨i,b,st1,hi,hread,_,hc,hcom,hrest⟩ := hg
    simp only [connectPostponed, hi, hread, set_best_chain_inner_eq env w hc hcom] at h
    rcases ha : adoptBlock env k b ((st1.writeHashBestChain k).commit true) with ⟨st2,g | _⟩
    · have hf := adopt_block_error env ha
      subst hf
      simp only [ha, fail, Prod.mk.injEq, Except.error.injEq] at h
      exact h.2.symm
    · simp only [ha] at h
      exact ih st2 (hrest st2 ha) h

structure Crowned (st : ChainState) (tip : Uint256) : Prop where
  standing : Standing st tip
  best : st.pindexBest = some tip
  hash : st.hashBestChain = tip
  height : st.mapBlockIndex.heightOf tip = st.nBestHeight
  trust : (st.mapBlockIndex tip).map CBlockIndex.nChainTrust = some st.nBestChainTrust

variable (b : CBlock) (st st' : ChainState) {tip : Uint256}

theorem crowned_entry (hc : Crowned st tip) :
    ∃ i, st.mapBlockIndex tip = some i ∧ st.best.pindexBest = some i := by
  obtain ⟨i,hi⟩ := Option.isSome_iff_exists.mp hc.standing.entry
  exact ⟨i,hi,by simp [ChainState.best, hc.best, hi]⟩

theorem route_known (hc : Crowned st tip) :
    bestRoute env w b st.begin =
      if b.hashPrevBlock = st.hashBestChain then
        match setBestChainInner env w (env.hashBlock b) b st.begin with
        | (st,.error f) => fail st (reported "SetBestChain() : SetBestChainInner failed" f)
        | (st,.ok _) => done st
      else switchBest env w (env.hashBlock b) st.begin := by
  have hgen : st.begin.pindexGenesisBlock.isNone = false := by
    have h := hc.standing.genesis
    cases hg : st.pindexGenesisBlock with
    | none => simp [hg] at h
    | some g => simp [ChainState.begin, hg]
  simp only [bestRoute, hgen, Bool.false_and, Bool.false_eq_true, if_false]
  rfl

theorem best_route_ok (hc : Crowned st tip) (hb : Entered env st.mapBlockIndex b)
    (hg : CallMeets env w G b st) (h : bestRoute env w b st.begin = (st',.ok ())) :
    Moves env G (st,tip) (st',env.hashBlock b) := by
  rw [route_known env w b st hc] at h
  have hg := hg hc.standing.genesis
  split_ifs at h hg with hprev
  · rcases hi : setBestChainInner env w (env.hashBlock b) b st.begin with ⟨st1,f | _⟩
    · simp [hi, fail] at h
    · simp only [hi, done, Prod.mk.injEq, and_true] at h
      subst h
      have hp : st.mapBlockIndex.parentOf (env.hashBlock b) = some tip := by
        rw [hc.hash] at hprev
        rw [hb.parent (by rw [hprev]; exact hc.standing.entry), hprev]
      exact .single (.attach hp rfl hg (set_best_chain_inner_ok env w hi))
  · obtain ⟨i,hi,hbest⟩ := crowned_entry st hc
    obtain ⟨hsw,hpost⟩ := hg i hbest
    simp only [switchBest, show st.begin.best.pindexBest = some i from hbest] at h
    rcases hr : postpone st.mapBlockIndex i.nChainTrust
      (st.mapBlockIndex.heightOf (env.hashBlock b)).toNat (env.hashBlock b) [] with ⟨ks,mid⟩
    rw [hr] at hsw hpost
    have hr' : postpone st.begin.mapBlockIndex i.nChainTrust
      (st.begin.mapBlockIndex.heightOf (env.hashBlock b)).toNat (env.hashBlock b) [] = (ks,mid) := hr
    simp only [hr'] at h
    rcases hre : reorganize env w mid st.begin with ⟨st1,f | _⟩
    · cases f with
      | error n text =>
        rw [hre] at h
        obtain ⟨_,_,hfail⟩ := (and_then_ok _ _ _).mp h
        simp [fail] at hfail
      | throw text => simp [hre, fail] at h
      | crash => simp [hre, fail] at h
    · simp only [hre] at h
      have hswitch := reorganize_ok env w G hc.standing.tree hc.best hsw hre
      have hmove : Move env G (st,tip) (st1,mid) := .switch hswitch
      have hst1 := standing_move env G _ _ hmove hc.standing
      have hup := postpone_ascends hc.standing.tree _
        (env.hashBlock b) [] ks rfl hr
      have hsame := (switched_same env w G hc.standing.best hswitch).1
      rw [← same_tree_parent hsame] at hup
      exact .head hmove (connect_postponed_ok env G w st1 st' mid _ hst1 hup (hpost st1 hre) h)

def PostponedQuiet (f : Failure) : Prop :=
  ∀ i ks mid st1, st.best.pindexBest = some i →
    postpone st.mapBlockIndex i.nChainTrust (st.mapBlockIndex.heightOf (env.hashBlock b)).toNat
      (env.hashBlock b) [] = (ks,mid) →
    reorganize env w mid st.begin = (st1,.ok ()) →
    connectPostponed env w ks st1 = (st',.error f) → f = .crash

theorem best_route_error {f : Failure} (hc : Crowned st tip) (hb : Entered env st.mapBlockIndex b)
    (hpost : b.hashPrevBlock ≠ st.hashBestChain → PostponedQuiet env w b st st' f)
    (h : bestRoute env w b st.begin = (st',.error f)) :
    f = .crash ∨ Undone (fun k => k ∉ st.mapBlockIndex.pathOf tip) st st' := by
  have hready := begin_ready hc.standing.best
  rw [route_known env w b st hc] at h
  split_ifs at h with hprev
  · have hnot : env.hashBlock b ∉ st.mapBlockIndex.pathOf tip := by
      intro hmem
      have g := tree_graded hc.standing.tree
      have hp : st.mapBlockIndex.parentOf (env.hashBlock b) = some tip := by
        rw [hc.hash] at hprev
        rw [hb.parent (by rw [hprev]; exact hc.standing.entry), hprev]
      have hle := (height_le g hmem).1
      have hstep := g.step _ _ hp
      omega
    rcases hi : setBestChainInner env w (env.hashBlock b) b st.begin with ⟨st1,e | _⟩
    · simp only [hi, fail, Prod.mk.injEq, Except.error.injEq] at h
      rw [← h.1, ← h.2]
      rcases set_best_chain_inner_error env w
          (T := fun k => k ∉ st.mapBlockIndex.pathOf tip) _ b st.begin st1 e hready hnot hi with he | hu
      · exact Or.inl (by rw [he]; rfl)
      · exact Or.inr (undone_trans _ _ _ (begin_undone st) hu)
    · simp [hi, done] at h
  · obtain ⟨i,hi,hbest⟩ := crowned_entry st hc
    simp only [switchBest, show st.begin.best.pindexBest = some i from hbest] at h
    rcases hr : postpone st.mapBlockIndex i.nChainTrust
      (st.mapBlockIndex.heightOf (env.hashBlock b)).toNat (env.hashBlock b) [] with ⟨ks,mid⟩
    have hr' : postpone st.begin.mapBlockIndex i.nChainTrust
      (st.begin.mapBlockIndex.heightOf (env.hashBlock b)).toNat (env.hashBlock b) [] = (ks,mid) := hr
    simp only [hr'] at h
    rcases hre : reorganize env w mid st.begin with ⟨st1,e | _⟩
    · have hu := reorganize_error env w tip mid st.begin st1 e hc.standing.tree hc.best hready hre
      rw [hre] at h
      rcases hu with rfl | hu
      · simp only [fail, Prod.mk.injEq, Except.error.injEq] at h
        exact Or.inl h.2.symm
      · have hund := undone_trans _ _ _ (begin_undone st) hu
        cases e with
        | error n text =>
          right
          have hinv := undone_trans st1 _ _ (abort_undone (T := fun k =>
            k ∉ st.mapBlockIndex.pathOf tip) st1)
            (invalid_chain_found_undone (env.hashBlock b) st1.abort)
          rcases (and_then_error _ _ _ _).mp h with h | ⟨t,ht,h⟩
          · rw [h] at hinv
            exact undone_trans _ _ _ hund hinv
          · rw [ht] at hinv
            simp only [fail, Prod.mk.injEq] at h
            rw [← h.1]
            exact undone_trans _ _ _ hund hinv
        | throw text =>
          simp only [fail, Prod.mk.injEq] at h
          exact Or.inr (h.1 ▸ hund)
        | crash =>
          simp only [fail, Prod.mk.injEq, Except.error.injEq] at h
          exact Or.inl h.2.symm
    · simp only [hre] at h
      exact Or.inl (hpost hprev i ks mid st1 hbest hr hre h)

theorem call_quiet (f : Failure) (hgen : st.pindexGenesisBlock.isSome)
    (hg : CallMeets env w G b st) :
    b.hashPrevBlock ≠ st.hashBestChain → PostponedQuiet env w b st st' f := by
  intro hprev i ks mid st1 hbest hr hre h
  have hg := hg hgen
  rw [if_neg hprev] at hg
  obtain ⟨_,hpost⟩ := hg i hbest
  rw [hr] at hpost
  exact connect_postponed_error env G w st1 st' (hpost st1 hre) h

theorem connect_postponed_false (ks : List Uint256) (st st' : ChainState) (n : ℕ) (msg : String) :
    connectPostponed env w ks st ≠ (st',.error (.error n msg)) := by
  induction ks generalizing st with
  | nil => simp [connectPostponed, done]
  | cons k ks ih =>
    rw [connectPostponed]
    split
    · simp [fail]
    · split
      · simp [done]
      · split
        · exact ih _
        · simp [done]
        · rename_i hne _
          simp only [fail, ne_eq, Prod.mk.injEq, Except.error.injEq, not_and]
          exact fun _ he => hne _ _ he

theorem same_tree_trust {m m' : BlockMap} (h : SameTree m m') (k : Uint256) :
    (m' k).map CBlockIndex.nChainTrust = (m k).map CBlockIndex.nChainTrust := by
  have hk := h k
  cases hm : m k with
  | none =>
    cases hm' : m' k with
    | none => rfl
    | some i' => simp [hm, hm'] at hk
  | some i =>
    cases hm' : m' k with
    | none => simp [hm, hm'] at hk
    | some i' =>
      simp only [hm, hm', Option.map_some, Option.some_inj] at hk ⊢
      exact core_trust hk

theorem crowned_same (hsame : SameTree st.mapBlockIndex st'.mapBlockIndex)
    (hg : SameGlobals st st') (hc : Crowned st tip) : Crowned st' tip :=
  ⟨standing_same hsame hg hc.standing hc.standing.entry,by rw [hg.best, hc.best],
    by rw [hg.hash, hc.hash],by rw [same_tree_height hsame, hg.height, hc.height],
    by rw [same_tree_trust hsame, hg.trust, hc.trust]⟩

theorem new_best_crowned (hs : Standing st tip) (h : newBest tip st = (st',.ok ())) :
    Crowned st' tip := by
  obtain ⟨i,hi,rfl⟩ := new_best_ok h
  exact ⟨⟨hs.tree,hs.entry,hs.genesis,rfl⟩,rfl,rfl,height_of_some _ hi,by simp [hi]⟩

theorem set_best_chain_ok (hc : Crowned st tip) (hb : Entered env st.mapBlockIndex b)
    (hg : CallMeets env w G b st) (h : setBestChain env w b st = (st',.ok ())) :
    Moves env G (st,tip) (st',env.hashBlock b) ∧ Crowned st' (env.hashBlock b) := by
  unfold setBestChain at h
  rcases hr : bestRoute env w b st.begin with ⟨st1,f | _⟩
  · simp [hr, fail] at h
  · simp only [hr] at h
    have hmoves := best_route_ok env G w b st st1 hc hb hg hr
    have hst := standing_moves env G hmoves hc.standing
    exact ⟨hmoves.tail (.crown h),new_best_crowned st1 st' hst h⟩

theorem set_best_chain_error {f : Failure} (hc : Crowned st tip)
    (hb : Entered env st.mapBlockIndex b)
    (hpost : b.hashPrevBlock ≠ st.hashBestChain → ∀ st1, PostponedQuiet env w b st st1 f)
    (h : setBestChain env w b st = (st',.error f)) :
    f = .crash ∨ Undone (fun k => k ∉ st.mapBlockIndex.pathOf tip) st st' := by
  unfold setBestChain at h
  rcases hr : bestRoute env w b st.begin with ⟨st1,g | _⟩
  · simp only [hr, fail, Prod.mk.injEq, Except.error.injEq] at h
    obtain ⟨rfl,rfl⟩ := h
    rcases best_route_error env w b st st1 hc hb (fun hp => hpost hp st1) hr with he | hu
    · exact Or.inl he
    · exact Or.inr (undone_trans _ _ _ hu (abort_undone st1))
  · simp only [hr, newBest] at h
    split at h
    · simp only [fail, Prod.mk.injEq, Except.error.injEq] at h
      exact Or.inl h.2.symm
    · simp [done] at h

end Call

inductive Action where
  | add (w : World) (b : CBlock) (nFile nBlockPos : ℕ) (hashProof : Uint256)
  | set (w : World) (b : CBlock)
  | accept (w : World) (fLimitFree : Bool) (tx : CTransaction)

def act : Action → ChainState → Result ChainState Failure
  | .add w b nFile nBlockPos hashProof => addToBlockIndex env w b nFile nBlockPos hashProof
  | .set w b => setBestChain env w b
  | .accept w fLimitFree tx => acceptStep env w fLimitFree tx

/-- What the callers see to: `AcceptBlock` only adds blocks whose parent has an
entry, and `SetBestChain` is called for a block with its own entry. -/
def Called : Action → ChainState → Prop
  | .add _ b _ _ _, st => (st.mapBlockIndex b.hashPrevBlock).isSome
  | .set _ b, st => Entered env st.mapBlockIndex b
  | .accept _ _ _, _ => True

def Meets : Action → ChainState → Prop
  | .add w b nFile nBlockPos hashProof, st => G.file b nFile nBlockPos st ∧
      ∀ st1 i, indexBlock env w b nFile nBlockPos hashProof st = (st1,.ok ()) →
        st1.mapBlockIndex (env.hashBlock b) = some i → st1.nBestChainTrust < i.nChainTrust →
        CallMeets env w G b st1
  | .set w b, st => CallMeets env w G b st
  | .accept _ _ tx, _ => G.offer tx

variable (cond : Action → ChainState → Prop)

/-- The states between the calls of a run whose calls meet a condition. The first
block was added to an empty node and became the best one. -/
inductive Reachable : ChainState → Prop
  | start {w : World} {b : CBlock} {nFile nBlockPos : ℕ} {hashProof : Uint256} {st : ChainState}
      (first : env.hashBlock b = env.hashGenesisBlock)
      (hcond : cond (.add w b nFile nBlockPos hashProof) .empty)
      (added : addToBlockIndex env w b nFile nBlockPos hashProof .empty = (st,.ok ()))
      (best : st.pindexBest.isSome) : Reachable st
  | step {st st' : ChainState} {a : Action} {r : Except Failure Unit} (hr : Reachable st)
      (hcall : Called env a st) (hcond : cond a st) (h : act env a st = (st',r))
      (hlive : r ≠ .error .crash) : Reachable st'

structure Started (st : ChainState) (g : Uint256) : Prop where
  entry : ∃ b nFile nBlockPos hashProof modifier, env.hashBlock b = g ∧
    G.file b nFile nBlockPos .empty ∧
    st.mapBlockIndex = filed env b nFile nBlockPos hashProof modifier (fun _ => none) ∧
    st.txdb.committed = (Store.empty.writeBlockIndex g
      (.ofIndex (newEntry env b nFile nBlockPos hashProof modifier
        (fun _ => none)))).writeHashBestChain g
  genesis : st.pindexGenesisBlock = some g
  crowned : Crowned st g
  mempool : st.mempool.mapTx = ∅ ∧ st.mempool.mapNextTx = ∅
  syncs : st.syncs = []

variable {b : CBlock} {st : ChainState}

theorem route_first {w : World} {st' : ChainState} (hg : st.pindexGenesisBlock = none)
    (hb : env.hashBlock b = env.hashGenesisBlock) (h : bestRoute env w b st.begin = (st',.ok ())) :
    st' = { (st.begin.writeHashBestChain (env.hashBlock b)).commit true with
      pindexGenesisBlock := some (env.hashBlock b) } := by
  have hfirst : (st.begin.pindexGenesisBlock.isNone && env.hashBlock b == env.hashGenesisBlock) =
      true := by simp [ChainState.begin, hg, hb]
  simp only [bestRoute, hfirst, if_true] at h
  split_ifs at h with hc
  · simp only [done, Prod.mk.injEq, and_true] at h
    rw [← h, hc]
  · simp [fail] at h

theorem first_tree (b : CBlock) (nFile nBlockPos : ℕ) (hashProof : Uint256) (m : ℕ × Bool) :
    Tree (filed env b nFile nBlockPos hashProof m (fun _ => none)) := by
  have hi : ∀ h i, filed env b nFile nBlockPos hashProof m (fun _ => none) h = some i →
      h = env.hashBlock b ∧ i = newEntry env b nFile nBlockPos hashProof m (fun _ => none) := by
    intro h i hi
    rw [filed, Function.update_apply] at hi
    split_ifs at hi with hh
    exact ⟨hh,(Option.some_inj.mp hi).symm⟩
  refine ⟨?_,?_,?_⟩
  · intro h i h1
    rw [(hi h i h1).1, (hi h i h1).2]
    rfl
  · intro h i h1
    rw [(hi h i h1).2]
    exact Int.le_refl 0
  · intro h i p h1 hp
    rw [(hi h i h1).2] at hp
    simp [newEntry] at hp

theorem first_path (b : CBlock) (nFile nBlockPos : ℕ) (hashProof : Uint256) (modifier : ℕ × Bool) :
    let m := filed env b nFile nBlockPos hashProof modifier (fun _ => none)
    m.pathOf (env.hashBlock b) = [env.hashBlock b] ∧ ∀ h, m.parentOf h = none := by
  have hpar : ∀ h, (filed env b nFile nBlockPos hashProof modifier (fun _ => none)).parentOf h =
      none := by
    intro h
    rw [BlockMap.parentOf, filed, Function.update_apply]
    split_ifs <;> rfl
  exact ⟨path_none _ _ (hpar _),
    hpar⟩

section
variable {w : World} {nFile nBlockPos : ℕ} {hashProof : Uint256}

theorem start_started
    (hfirst : env.hashBlock b = env.hashGenesisBlock) (hfiled : G.file b nFile nBlockPos .empty)
    (hadd : addToBlockIndex env w b nFile nBlockPos hashProof .empty = (st,.ok ()))
    (hbest : st.pindexBest.isSome) : Started env G st (env.hashBlock b) := by
  obtain ⟨st1,h1,hadd⟩ := (and_then_ok _ _ _).mp hadd
  rcases index_block_cases env w h1 with
    ⟨_,hne⟩ | ⟨_,m,hst1,hcom⟩
  · exact absurd rfl hne
  have hmap : st1.mapBlockIndex = filed env b nFile nBlockPos hashProof m (fun _ => none) := by
    rw [hst1]
    rfl
  have hself : st1.mapBlockIndex (env.hashBlock b) =
      some (newEntry env b nFile nBlockPos hashProof m (fun _ => none)) := by
    rw [hmap]
    simp [filed]
  simp only [hself] at hadd
  split_ifs at hadd with htrust
  · unfold setBestChain at hadd
    rcases hr : bestRoute env w b st1.begin with ⟨st2,f | _⟩
    · simp [hr, fail] at hadd
    · simp only [hr] at hadd
      have hst2 := route_first env (by rw [hst1]; rfl) hfirst hr
      have hm2 : st2.mapBlockIndex = filed env b nFile nBlockPos hashProof m (fun _ => none) := by
        rw [hst2]
        exact hmap
      obtain ⟨i,hi,hst⟩ := new_best_ok hadd
      have hmst : st.mapBlockIndex = filed env b nFile nBlockPos hashProof m (fun _ => none) := by
        rw [hst]
        exact hm2
      refine ⟨⟨b,nFile,nBlockPos,hashProof,m,rfl,hfiled,hmst,?_⟩,?_,⟨⟨?_,?_,?_,hbest⟩,?_,?_,?_,?_⟩,?_,?_⟩
      · rw [hst, hst2, hst1, hcom rfl]
        rfl
      · rw [hst, hst2]
      · rw [hmst]
        exact first_tree env b nFile nBlockPos hashProof m
      · rw [hmst]
        simp [filed]
      · rw [hst, hst2]
        rfl
      · rw [hst]
      · rw [hst]
      · rw [hst]
        exact height_of_some _ hi
      · rw [hst]
        simp [hi]
      · rw [hst, hst2, hst1]
        exact ⟨rfl,rfl⟩
      · rw [hst, hst2, hst1]
        rfl
  · simp only [done, Prod.mk.injEq, and_true] at hadd
    rw [← hadd, hst1] at hbest
    simp [entered, ChainState.setEntry, ChainState.empty] at hbest

theorem file_crowned {st' : ChainState}
    {tip : Uint256} {r : Except Failure Unit} (hc : Crowned st tip)
    (hprev : (st.mapBlockIndex b.hashPrevBlock).isSome) (hfile : G.file b nFile nBlockPos st)
    (h : indexBlock env w b nFile nBlockPos hashProof st = (st',r)) : Crowned st' tip := by
  have hst := standing_move env G (st,tip) (st',tip) (.file hprev hfile h) hc.standing
  rcases index_block_cases env w h with
    ⟨rfl,_⟩ | ⟨hnew,m,rfl,_⟩
  · exact hc
  · have hne : tip ≠ env.hashBlock b := by
      intro he
      have hentry := hc.standing.entry
      rw [he, hnew] at hentry
      cases hentry
    have htip := @filed_other env b nFile nBlockPos hashProof m st.mapBlockIndex tip hne
    refine ⟨hst,hc.best,hc.hash,?_,?_⟩
    · exact (congrArg (fun i => (Option.map CBlockIndex.nHeight i).getD 0) htip).trans hc.height
    · exact (congrArg (Option.map CBlockIndex.nChainTrust) htip).trans hc.trust

end

theorem entered_entered (nFile nBlockPos : ℕ) (hashProof : Uint256) (m : ℕ × Bool) (ok : Bool)
    (hprev : (st.mapBlockIndex b.hashPrevBlock).isSome) :
    Entered env (entered (env.hashBlock b)
      (newEntry env b nFile nBlockPos hashProof m st.mapBlockIndex) ok st).mapBlockIndex b :=
  ⟨by simp [entered, ChainState.setEntry],fun _ =>
    filed_parent env hprev⟩

theorem act_moves {a : Action} {st' : ChainState} {tip : Uint256} {r : Except Failure Unit}
    (hc : Crowned st tip) (hcall : Called env a st) (hg : Meets env G a st)
    (h : act env a st = (st',r)) (hlive : r ≠ .error .crash) :
    ∃ tip', Moves env G (st,tip) (st',tip') ∧ Crowned st' tip' := by
  have hset : ∀ w b st1, Crowned st1 tip → Entered env st1.mapBlockIndex b →
      CallMeets env w G b st1 → setBestChain env w b st1 = (st',r) →
      ∃ tip', Moves env G (st1,tip) (st',tip') ∧ Crowned st' tip' := by
    intro w b st1 hc1 hb hm hs
    cases r with
    | ok u => exact ⟨_,set_best_chain_ok env G w b st1 st' hc1 hb hm hs⟩
    | error f =>
      rcases set_best_chain_error env w b st1 st' hc1 hb
        (fun hp st2 => call_quiet env G w b st1 st2 f hc1.standing.genesis hm hp) hs with rfl | hu
      · exact absurd rfl hlive
      · exact ⟨tip,.single (.undone hu),crowned_same st1 st'
          (retotalled_same _ _ _ hu.entries) hu.globals hc1⟩
  cases a with
  | set w b => exact hset w b st hc hcall hg h
  | accept w fLimitFree tx =>
    have hpool := accept_step_pooled env w fLimitFree tx st
    rw [show acceptStep env w fLimitFree tx st = (st',r) from h] at hpool
    exact ⟨tip,.single (.offer hg h),crowned_same st st'
      (by rw [hpool.entries]; exact same_tree_refl _) hpool.globals hc⟩
  | add w b nFile nBlockPos hashProof =>
    obtain ⟨hfile,hmeets⟩ := hg
    simp only [act, addToBlockIndex] at h
    rcases hi : indexBlock env w b nFile nBlockPos hashProof st with ⟨st1,r1⟩
    have hmove : Move env G (st,tip) (st1,tip) := .file hcall hfile hi
    have hc1 := file_crowned env G hc hcall hfile hi
    cases r1 with
    | error f =>
      rw [hi] at h
      simp only [andThen, Prod.mk.injEq] at h
      exact ⟨tip,h.1 ▸ .single hmove,h.1 ▸ hc1⟩
    | ok u =>
      rw [hi] at h
      simp only [andThen] at h
      rcases index_block_cases env w hi with
        ⟨_,hne⟩ | ⟨hnew,m,hst1,_⟩
      · exact absurd rfl hne
      have hb : Entered env st1.mapBlockIndex b := by
        rw [hst1]
        exact entered_entered env nFile nBlockPos hashProof m _ hcall
      obtain ⟨i,hself⟩ := Option.isSome_iff_exists.mp hb.entry
      simp only [hself] at h
      split_ifs at h with htrust
      · obtain ⟨tip',hmoves,hcrown⟩ := hset w b st1 hc1 hb (hmeets st1 i hi hself htrust) h
        exact ⟨tip',.head hmove hmoves,hcrown⟩
      · simp only [done, Prod.mk.injEq] at h
        exact ⟨tip,h.1 ▸ .single hmove,h.1 ▸ hc1⟩

/-- Every state of a run has a crowned tip, reached by moves from the first block. -/
theorem reachable_moves (h : Reachable env (Meets env G) st) :
    ∃ st0 g tip, Started env G st0 g ∧ Moves env G (st0,g) (st,tip) ∧ Crowned st tip := by
  induction h with
  | start hfirst hg hadd hbest =>
    have hs := start_started env G hfirst hg.1 hadd hbest
    exact ⟨_,_,_,hs,.refl,hs.crowned⟩
  | step _ hcall hg h hlive ih =>
    obtain ⟨st0,g,tip,hs,hmoves,hc⟩ := ih
    obtain ⟨tip',hmoves',hc'⟩ := act_moves env G hc hcall hg h hlive
    exact ⟨st0,g,tip',hs,hmoves.trans hmoves',hc'⟩

theorem run_invariant (I : ChainState → Uint256 → Prop)
    (hstart : ∀ st g, Started env G st g → I st g)
    (hmove : ∀ a c, Standing a.1 a.2 → I a.1 a.2 → Move env G a c → I c.1 c.2)
    (h : Reachable env (Meets env G) st) : ∃ tip, Crowned st tip ∧ I st tip := by
  obtain ⟨st0,g,tip,hs,hmoves,hc⟩ := reachable_moves env G h
  refine ⟨tip,hc,?_⟩
  have hall : ∀ c, Moves env G (st0,g) c → Standing c.1 c.2 ∧ I c.1 c.2 := by
    intro c hm
    induction hm with
    | refl => exact ⟨hs.crowned.standing,hstart st0 g hs⟩
    | tail _ hm ih => exact ⟨standing_move env G _ _ hm ih.1,hmove _ _ ih.1 ih.2 hm⟩
  exact (hall (st,tip) hmoves).2

theorem empty_meets (w : World) {nFile nBlockPos : ℕ} (hashProof : Uint256)
    (hf : G.file b nFile nBlockPos .empty) :
    Meets env G (.add w b nFile nBlockPos hashProof) .empty := by
  refine ⟨hf,?_⟩
  intro st1 i h1 _ _ hgen
  rcases index_block_cases env w h1 with
    ⟨_,hne⟩ | ⟨_,_,rfl,_⟩
  · exact absurd rfl hne
  · simp [entered, ChainState.setEntry, ChainState.empty] at hgen

section Play

def called : Action → ChainState → Bool
  | .add _ b _ _ _, st => (st.mapBlockIndex b.hashPrevBlock).isSome
  | .set _ _, _ => false
  | .accept _ _ _, _ => true

def live (r : Except Failure Unit) : Bool := !(r matches .error .crash)

def play (a : Action) (st : ChainState) : Option ChainState :=
  let x := act env a st
  if called a st && live x.2 then some x.1 else none

def playAll (test : Action → ChainState → Bool) : List Action → ChainState → Option ChainState
  | [], st => some st
  | a::as, st => if test a st then (play env a st).bind (playAll test as) else none

variable {st : ChainState}

theorem called_ok {a : Action} (h : called a st = true) : Called env a st := by
  cases a with
  | add w b nFile nBlockPos hashProof => exact h
  | set w b => cases h
  | accept w fLimitFree tx => trivial

theorem play_reachable {a : Action} {st' : ChainState} (hr : Reachable env cond st) (hc : cond a st)
    (h : play env a st = some st') : Reachable env cond st' := by
  rw [play, Option.ite_none_right_eq_some, Bool.and_eq_true, Option.some_inj] at h
  obtain ⟨⟨hcalled,hlive⟩,rfl⟩ := h
  have hact : act env a st = ((act env a st).1,(act env a st).2) := rfl
  refine .step hr (called_ok env hcalled) hc hact ?_
  intro he
  rw [he] at hlive
  cases hlive

/-- A run of the given calls that pass a test which the condition follows from for them. -/
theorem play_calls_reachable {test : Action → ChainState → Bool} {as : List Action}
    (htest : ∀ a ∈ as, ∀ st, test a st = true → cond a st) (st st' : ChainState)
    (hr : Reachable env cond st) (h : playAll env test as st = some st') :
    Reachable env cond st' := by
  induction as generalizing st with
  | nil => exact Option.some_inj.mp h ▸ hr
  | cons a as ih =>
    rw [playAll, Option.ite_none_right_eq_some] at h
    obtain ⟨ht,h⟩ := h
    obtain ⟨st1,h1,h⟩ := Option.bind_eq_some_iff.mp h
    exact ih (fun b hb => htest b (List.mem_cons_of_mem a hb)) st1
      (play_reachable env _ hr (htest a List.mem_cons_self st ht) h1) h

theorem play_all_reachable {test : Action → ChainState → Bool}
    (htest : ∀ a st, test a st = true → cond a st) {as : List Action} {st' : ChainState}
    (hr : Reachable env cond st) (h : playAll env test as st = some st') : Reachable env cond st' :=
  play_calls_reachable env cond (fun a _ => htest a) st st' hr h

def postponesNone : Action → ChainState → Bool
  | .add w b nFile nBlockPos hashProof, st =>
    let st1 := (indexBlock env w b nFile nBlockPos hashProof st).1
    b.hashPrevBlock == st1.hashBestChain || match st1.best.pindexBest with
      | none => true
      | some tip => (postpone st1.mapBlockIndex tip.nChainTrust
          (st1.mapBlockIndex.heightOf (env.hashBlock b)).toNat (env.hashBlock b) []).1.isEmpty
  | .set _ _, _ => false
  | .accept _ _ _, _ => true

theorem along_all {A S ε : Type} (P : A → S → Prop) (hP : ∀ a s, P a s) (f : A → S → Result S ε)
    (as : List A) (s : S) : Along P f as s := by
  induction as generalizing s with
  | nil => trivial
  | cons a as ih => exact ⟨hP a s,fun t _ => ih t⟩

/-- A call that postpones no block meets the guards that hold of its block and of every
block that it may read. -/
theorem postpones_none_guards {w : World} {b : CBlock} {nFile nBlockPos : ℕ} {hashProof : Uint256}
    (hattach : ∀ st, G.attach w (env.hashBlock b) b st)
    (hdisconnect : ∀ h x, Reads env w G.disconnect h x)
    (hconnect : ∀ h x, Reads env w G.connect h x) (hfile : G.file b nFile nBlockPos st)
    (h : postponesNone env (.add w b nFile nBlockPos hashProof) st = true) :
    Meets env G (.add w b nFile nBlockPos hashProof) st := by
  refine ⟨hfile,?_⟩
  intro st1 i hi _ _ _
  simp only [postponesNone, hi, Bool.or_eq_true, beq_iff_eq] at h
  split_ifs with hprev
  · exact hattach st1.begin
  · intro tip htip
    have hlist := h.resolve_left hprev
    rw [htip, List.isEmpty_iff] at hlist
    refine ⟨?_,?_⟩
    · intro t xs ys _ _
      exact ⟨along_all _ hdisconnect _ _ _,fun y _ => along_all _ hconnect _ _ _⟩
    · intro st2 _
      rw [hlist]
      trivial

theorem postpones_none_meets (a : Action) (st : ChainState)
    (h : postponesNone env a st = true) : Meets env .none a st := by
  cases a with
  | set w b => cases h
  | accept w fLimitFree tx => trivial
  | add w b nFile nBlockPos hashProof =>
    exact postpones_none_guards env .none (fun _ => trivial)
      (fun _ _ _ _ _ _ => trivial) (fun _ _ _ _ _ _ => trivial) trivial h

end Play

section Sample

def mined (nNonce nPrev : ℕ) (nCoins : ℤ) : CBlock :=
  ⟨1,BitVec.ofNat 256 nPrev,BitVec.ofNat 256 (10+nNonce),10+nNonce,0x1e7fffff,nNonce,
    [⟨1,10+nNonce,[⟨.null,[1,1],0⟩],[⟨nCoins*coin,[1]⟩],0⟩],[]⟩

def readable (blocks : List CBlock) : World where
  disk _ := ⟨fun _ => none,fun _ n => blocks.find? (fun b => b.nNonce == n),fun _ _ => none⟩
  ambient _ := ⟨1000,0,∅,fun _ => none,none,0⟩
  commitOk _ := true
  indexCommitOk := true
  nextStakeModifier := some (0,false)

def addMined (blocks : List CBlock) (b : CBlock) : Action := .add (readable blocks) b 1 b.nNonce 0

def firstState : ChainState :=
  (addToBlockIndex sampleEnv (readable []) (mined 1 0 0) 1 1 0 .empty).1

theorem first_reachable (cond : Action → ChainState → Prop)
    (hc : cond (addMined [] (mined 1 0 0)) .empty) : Reachable sampleEnv cond firstState := by
  have hok : (addToBlockIndex sampleEnv (readable []) (mined 1 0 0) 1 1 0 .empty).2 = .ok () := by
    decide +kernel
  refine .start (w := readable []) (b := mined 1 0 0) ?_ hc ?_ ?_
  · rfl
  · exact Prod.ext rfl hok
  · decide +kernel

end Sample

end SwippCore.ChainRuns
