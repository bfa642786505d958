import SwippCore.BestChain

/-!
# What a failed SetBestChain leaves behind

A call that returns false because a block was refused drops its batch, and the index,
the globals and the pool are as they were. The wallets have been told of every block
that was disconnected or connected before the failure, and are told nothing more. A
disconnected block is on the main chain and a connected one is not, so that no two of
these notifications cancel out.
-/

set_option autoImplicit false

namespace SwippCore.FailedSwitch
open Attempt Ancestry ChainTree ChainOps ChainRollback ChainMoves
open ChainCursor ChainRuns BestChain

variable (env : Env) (w : World)

/-- Every transaction of a block was announced as often as connected as it was
announced as disconnected. -/
def NetsOut (ns : List Sync) : Prop :=
  ∀ tx block, ns.count ⟨tx,block,true⟩ = ns.count ⟨tx,block,false⟩

structure Unchanged (st st' : ChainState) (tip : Uint256) : Prop where
  committed : SameRecords st.txdb.committed st'.txdb.committed
  best : st'.pindexBest = st.pindexBest
  links : ∀ h, (st'.mapBlockIndex h).map CBlockIndex.pnext =
    (st.mapBlockIndex h).map CBlockIndex.pnext
  mempool : st'.mempool = st.mempool
  totals : ∀ h ∈ st.mapBlockIndex.pathOf tip,
    (st'.mapBlockIndex h).map (fun i => (i.nMint,i.nMoneySupply)) =
      (st.mapBlockIndex h).map (fun i => (i.nMint,i.nMoneySupply))
  wallets : ∃ ns, st'.syncs = st.syncs++ns ∧ NetsOut ns

def Sided (m : BlockMap) (tip : Uint256) (n : Sync) : Prop :=
  ∃ b, n.block = some b ∧ (n.fConnect = true ↔ env.hashBlock b ∉ m.pathOf tip)

theorem nets_out_iff {m : BlockMap} {tip : Uint256} {ns : List Sync}
    (h : ∀ n ∈ ns, Sided env m tip n) : NetsOut ns ↔ ns = [] := by
  constructor
  · intro hnet
    by_contra hne
    obtain ⟨n,hn⟩ := List.exists_mem_of_ne_nil ns hne
    have hside : ∀ tx block, ¬((⟨tx,block,true⟩ : Sync) ∈ ns ∧ (⟨tx,block,false⟩ : Sync) ∈ ns) := by
      rintro tx block ⟨ht,hf⟩
      obtain ⟨b,hb,htrue⟩ := h _ ht
      obtain ⟨b',hb',hfalse⟩ := h _ hf
      dsimp only at hb hb' htrue hfalse
      rw [hb, Option.some_inj] at hb'
      rw [← hb'] at hfalse
      exact Bool.false_ne_true (hfalse.mpr (htrue.mp rfl))
    have hboth : (⟨n.tx,n.block,true⟩ : Sync) ∈ ns ↔ (⟨n.tx,n.block,false⟩ : Sync) ∈ ns := by
      rw [← List.count_pos_iff, ← List.count_pos_iff, hnet n.tx n.block]
    obtain ⟨tx,block,flag⟩ := n
    cases flag with
    | true => exact hside tx block ⟨hn,hboth.mp hn⟩
    | false => exact hside tx block ⟨hboth.mpr hn,hn⟩
  · rintro rfl tx block
    rfl

section Steps

theorem set_best_if_none_syncs (h : Uint256) (ctx : ConnectContext) (b : CBlock)
    (st : ChainState) : (setBestIfNone env w h ctx b st).syncs = st.syncs := by
  unfold setBestIfNone
  dsimp only
  split <;> rfl

variable {h : Uint256} {b : CBlock}

section
variable {st st' : ChainState}

theorem connect_step_syncs (hc : connectStep env w h b st = (st',.ok ())) :
    st'.syncs = st.syncs++b.vtx.map (fun tx => ⟨tx,some b,true⟩) ∧ b.vtx ≠ [] := by
  unfold connectStep at hc
  cases hi : st.mapBlockIndex h with
  | none => simp [hi, fail] at hc
  | some i =>
    simp only [hi] at hc
    cases hchecks : connectChecks env (connectContext w st h i) (w.ambient h) st.txdb.view b with
    | error f => simp [hchecks, fail] at hc
    | ok t =>
      simp only [hchecks] at hc
      cases hw : connectWrites env (connectContext w st h i) (st.parentEntry i) b
          (recordTotals (st.parentEntry i) t i) t st.txdb.view with
      | error f => simp [hw, fail] at hc
      | ok s =>
        simp only [hw, done, Prod.mk.injEq, and_true] at hc
        obtain ⟨tx,rest,hv,_⟩ := (connect_shaped env hchecks).coinBase
        refine ⟨?_,by rw [hv]; simp⟩
        rw [← hc]
        simp only [ChainState.syncAll, ChainState.setEntry, set_best_if_none_syncs]

theorem connect_step_refused_syncs {f : Failure}
    (hc : connectStep env w h b st = (st',.error f)) : st'.syncs = st.syncs := by
  unfold connectStep at hc
  cases hi : st.mapBlockIndex h with
  | none =>
    simp only [hi, fail, Prod.mk.injEq] at hc
    rw [← hc.1]
  | some i =>
    simp only [hi] at hc
    cases hchecks : connectChecks env (connectContext w st h i) (w.ambient h) st.txdb.view b with
    | error g =>
      simp only [hchecks, fail, Prod.mk.injEq] at hc
      rw [← hc.1, set_best_if_none_syncs]
    | ok t =>
      simp only [hchecks] at hc
      cases hw : connectWrites env (connectContext w st h i) (st.parentEntry i) b
          (recordTotals (st.parentEntry i) t i) t st.txdb.view with
      | error g =>
        simp only [hw, fail, Prod.mk.injEq] at hc
        rw [← hc.1]
        simp only [ChainState.setEntry, set_best_if_none_syncs]
      | ok s => simp [hw, done] at hc

theorem disconnect_step_syncs
    (hd : disconnectStep env h b st = (st',.ok ())) :
    st'.syncs = st.syncs++b.vtx.map (fun tx => ⟨tx,some b,false⟩) := by
  obtain ⟨i,s,_,_,rfl⟩ := (disconnect_step_ok env h b st st').mp hd
  rfl

theorem disconnect_step_refused_syncs {f : Failure}
    (hd : disconnectStep env h b st = (st',.error f)) : st'.syncs = st.syncs := by
  unfold disconnectStep at hd
  cases hi : st.mapBlockIndex h with
  | none =>
    simp only [hi, fail, Prod.mk.injEq] at hd
    rw [← hd.1]
  | some i =>
    simp only [hi] at hd
    cases hb : disconnectBlock env (st.parentEntry i) b st.txdb.view with
    | error g =>
      simp only [hb, fail, Prod.mk.injEq] at hd
      rw [← hd.1]
    | ok s => simp [hb, done] at hd

end

theorem invalid_chain_found_syncs (h : Uint256) (st : ChainState) :
    (invalidChainFound h st).1.syncs = st.syncs := by
  unfold invalidChainFound
  split
  · rfl
  · dsimp only
    split <;> split_ifs <;> rfl

end Steps

section Rounds
variable (m : BlockMap)

def Tells (fConnect : Bool) (h : Uint256) (n : Sync) : Prop :=
  n.fConnect = fConnect ∧ ∃ b, n.block = some b ∧ env.hashBlock b = h

theorem announced_tells {fConnect : Bool} {b : CBlock} {h : Uint256} (hb : env.hashBlock b = h) :
    ∀ n ∈ b.vtx.map (fun tx => (⟨tx,some b,fConnect⟩ : Sync)), Tells env fConnect h n := by
  intro n hn
  obtain ⟨tx,_,rfl⟩ := List.mem_map.mp hn
  exact ⟨rfl,b,rfl,hb⟩

section
variable (h : Uint256) {x : ChainState × List CTransaction} (hw : Working m x.1)
include hw

theorem disconnect_one_syncs : ∃ ns, (disconnectOne env w h x).1.1.syncs = x.1.syncs++ns ∧
      (∀ n ∈ ns, Tells env false h n) ∧ ((disconnectOne env w h x).2 ≠ .ok () → ns = []) := by
  rcases hd : disconnectOne env w h x with ⟨y,f | _⟩
  · refine ⟨[],?_,by simp,fun _ => rfl⟩
    unfold disconnectOne at hd
    rw [List.append_nil]
    split at hd
    · rw [← (Prod.mk.inj hd).1]
    · split at hd
      · rw [← (Prod.mk.inj hd).1]
      · split at hd
        · rename_i st g hstep
          rw [← (Prod.mk.inj hd).1]
          exact disconnect_step_refused_syncs env hstep
        · cases hd
  · obtain ⟨i,b,hi,hread,hstep,_⟩ := disconnect_one_ok env w hd
    refine ⟨_,disconnect_step_syncs env hstep,announced_tells env ?_,by simp⟩
    rw [read_hash env hread, hw.tree.keyed h i hi]

theorem connect_one_syncs :
    ∃ ns, (connectOne env w h x).1.1.syncs = x.1.syncs++ns ∧
      (∀ n ∈ ns, Tells env true h n) ∧ ((connectOne env w h x).2 ≠ .ok () → ns = []) := by
  rcases hd : connectOne env w h x with ⟨y,f | _⟩
  · refine ⟨[],?_,by simp,fun _ => rfl⟩
    unfold connectOne at hd
    rw [List.append_nil]
    split at hd
    · rw [← (Prod.mk.inj hd).1]
    · split at hd
      · rw [← (Prod.mk.inj hd).1]
      · split at hd
        · rename_i st g hstep
          rw [← (Prod.mk.inj hd).1]
          exact connect_step_refused_syncs env w hstep
        · cases hd
  · obtain ⟨i,b,hi,hread,hstep,_⟩ := connect_one_ok env w hd
    refine ⟨_,(connect_step_syncs env w hstep).1,announced_tells env ?_,by simp⟩
    rw [read_hash env hread, hw.tree.keyed h i hi]

end

def SilentDown (xs : List Uint256) (x : ChainState × List CTransaction) : Prop :=
  Along (fun h x => ∀ y, disconnectOne env w h x = (y,.ok ()) →
    Reads env w (fun _ _ b _ => b.vtx = []) h x) (disconnectOne env w) xs x

def SilentUp (ys : List Uint256) (x : ChainState × List CTransaction) : Prop :=
  ∀ h ∈ ys.head?, ∀ z, connectOne env w h x ≠ (z,.ok ())

theorem down_syncs (xs : List Uint256) (x : ChainState × List CTransaction) (hw : Working m x.1) :
    ∃ ns, (forAll (disconnectOne env w) xs x).1.1.syncs = x.1.syncs++ns ∧
      (∀ n ∈ ns, ∃ h ∈ xs, Tells env false h n) ∧ (ns = [] ↔ SilentDown env w xs x) := by
  obtain ⟨ns,hns,htell,hsilent⟩ := for_all_appends (fun x => Working m x.1)
    (fun x : ChainState × List CTransaction => x.1.syncs) (Tells env false) (disconnectOne env w) xs
    (fun h _ x hx => working_step m _ _ _ hx (disconnect_one_worked env w (fun _ => True) h x))
    (fun h _ x hx => disconnect_one_syncs env w m h hx) x hw
  refine ⟨ns,hns,htell,hsilent.trans (along_congr _ _ ?_ _ xs x)⟩
  intro h x
  refine forall_congr' fun y => imp_congr_right fun hy => ?_
  obtain ⟨i,b,hi,hread,hstep,_⟩ := disconnect_one_ok env w hy
  rw [disconnect_step_syncs env hstep, List.append_right_eq_self, List.map_eq_nil_iff]
  constructor
  · intro hv i' b' hi' hread'
    rw [hi, Option.some_inj] at hi'
    subst hi'
    rw [hread, Option.some_inj] at hread'
    rw [← hread']
    exact hv
  · exact fun hr => hr i b hi hread

theorem up_syncs (ys : List Uint256) (x : ChainState × List CTransaction) (hw : Working m x.1) :
    ∃ ns, (forAll (connectOne env w) ys x).1.1.syncs = x.1.syncs++ns ∧
      (∀ n ∈ ns, ∃ h ∈ ys, Tells env true h n) ∧ (ns = [] ↔ SilentUp env w ys x) := by
  obtain ⟨ns,hns,htell,hsilent⟩ := for_all_appends (fun x => Working m x.1)
    (fun x : ChainState × List CTransaction => x.1.syncs) (Tells env true) (connectOne env w) ys
    (fun h _ x hx => working_step m _ _ _ hx (connect_one_worked env w (fun _ => True) h x trivial))
    (fun h _ x hx => connect_one_syncs env w m h hx) x hw
  refine ⟨ns,hns,htell,hsilent.trans ?_⟩
  have hloud : ∀ h x y, connectOne env w h x = (y,.ok ()) → y.1.syncs ≠ x.1.syncs := by
    intro h x y hy
    obtain ⟨i,b,_,_,hstep,_⟩ := connect_one_ok env w hy
    obtain ⟨hs,hv⟩ := connect_step_syncs env w hstep
    rw [hs, ne_eq, List.append_right_eq_self, List.map_eq_nil_iff]
    exact hv
  cases ys with
  | nil => exact iff_of_true trivial (fun h hh => by cases hh)
  | cons y ys =>
    constructor
    · intro h k hk z hz
      obtain rfl : y = k := Option.some_inj.mp hk
      exact hloud y x z hz (h.1 z hz)
    · intro h
      have hno := h y rfl
      exact ⟨fun z hz => absurd hz (hno z),fun z hz => absurd hz (hno z)⟩

end Rounds

section Call

def SilentSwitch (xs ys : List Uint256) (st : ChainState) : Prop :=
  SilentDown env w xs (st,[]) ∧
    ∀ y, forAll (disconnectOne env w) xs (st,[]) = (y,.ok ()) → SilentUp env w ys (y.1,[])

variable {msg : String}

theorem switch_branches_syncs {m : BlockMap} {tip hNew : Uint256} {xs ys : List Uint256}
    {st st' : ChainState} {n : ℕ} (hw : Working m st) (hxs : ∀ x ∈ xs, x ∈ m.pathOf tip)
    (hys : ∀ y ∈ ys, y ∉ m.pathOf tip)
    (hf : switchBranches env w hNew xs ys st = (st',.error (.error n msg))) :
    ∃ ns, st'.syncs = st.syncs++ns ∧ (∀ n ∈ ns, Sided env m tip n) ∧
      (ns = [] ↔ SilentSwitch env w xs ys st) := by
  have hdown : ∀ n h, h ∈ xs → Tells env false h n → Sided env m tip n := by
    rintro n h hh ⟨hflag,b,hb,rfl⟩
    exact ⟨b,hb,by simp [hflag, hxs _ hh]⟩
  have hup : ∀ n h, h ∈ ys → Tells env true h n → Sided env m tip n := by
    rintro n h hh ⟨hflag,b,hb,rfl⟩
    exact ⟨b,hb,by simp [hflag, hys _ hh]⟩
  obtain ⟨ns,hns,htell,hsilent⟩ := down_syncs env w m xs (st,[]) hw
  have hwork := disconnect_all_worked env w (fun _ => True) xs (st,[])
  unfold switchBranches at hf
  rcases hd : forAll (disconnectOne env w) xs (st,[]) with ⟨⟨st1,res⟩,g | _⟩
  · rw [hd] at hf hns
    simp only [fail, Prod.mk.injEq] at hf
    refine ⟨ns,by rw [← hf.1]; exact hns,fun n hn => ?_,?_⟩
    · obtain ⟨h,hh,ht⟩ := htell n hn
      exact hdown n h hh ht
    · rw [hsilent, SilentSwitch, hd]
      simp
  · rw [hd] at hf hns hwork
    have hw1 : Working m st1 := working_step m _ _ _ hw hwork
    obtain ⟨ns',hns',htell',hsilent'⟩ := up_syncs env w m ys (st1,[]) hw1
    have hall : ∀ n ∈ ns++ns', Sided env m tip n := by
      intro n hn
      rcases List.mem_append.mp hn with hn | hn
      · obtain ⟨h,hh,ht⟩ := htell n hn
        exact hdown n h hh ht
      · obtain ⟨h,hh,ht⟩ := htell' n hn
        exact hup n h hh ht
    have hempty : ns++ns' = [] ↔ SilentSwitch env w xs ys st := by
      rw [List.append_eq_nil_iff, hsilent, hsilent', SilentSwitch, hd]
      simp
    simp only at hf
    rcases hc : forAll (connectOne env w) ys (st1,[]) with ⟨⟨st2,del⟩,g | _⟩
    · rw [hc] at hf hns'
      simp only [fail, Prod.mk.injEq] at hf
      refine ⟨ns++ns',?_,hall,hempty⟩
      rw [← hf.1, show st2.syncs = _ from hns', show st1.syncs = _ from hns, List.append_assoc]
    · rw [hc] at hf hns'
      simp only at hf
      split_ifs at hf with hok
      · cases adopt_branch_error env w hf
      · simp only [fail, Prod.mk.injEq] at hf
        refine ⟨ns++ns',?_,hall,hempty⟩
        rw [← hf.1]
        change st2.syncs = _
        rw [show st2.syncs = _ from hns', show st1.syncs = _ from hns, List.append_assoc]

variable (b : CBlock) (st st' : ChainState) (tip : Uint256)

/-- The failure comes before a block with transactions was disconnected and before any
block was connected. -/
def QuietFailure : Prop :=
  if b.hashPrevBlock = st.hashBestChain then
    ∀ st1, connectStep env w (env.hashBlock b) b st.begin ≠ (st1,.ok ())
  else ∀ i xs ys, st.mapBlockIndex tip = some i →
    branches st.begin tip (postpone st.mapBlockIndex i.nChainTrust
      (st.mapBlockIndex.heightOf (env.hashBlock b)).toNat (env.hashBlock b) []).2 = .ok (xs,ys) →
    SilentSwitch env w xs ys st.begin

theorem extension_syncs (hoff : env.hashBlock b ∉ st.mapBlockIndex.pathOf tip) {n : ℕ}
    (hf : setBestChainInner env w (env.hashBlock b) b st.begin = (st',.error (.error n msg))) :
    ∃ ns, st'.syncs = st.syncs++ns ∧ (∀ n ∈ ns, Sided env st.mapBlockIndex tip n) ∧
      (ns = [] ↔ ∀ st1, connectStep env w (env.hashBlock b) b st.begin ≠ (st1,.ok ())) := by
  unfold setBestChainInner at hf
  rcases hstep : connectStep env w (env.hashBlock b) b st.begin with ⟨st1,g | _⟩
  · -- the block is refused, and the wallets are told nothing
    refine ⟨[],?_,by simp,by simp⟩
    have hs := connect_step_refused_syncs env w hstep
    rw [List.append_nil]
    rw [hstep] at hf
    cases g with
    | error k text =>
      have hi := invalid_chain_found_syncs (env.hashBlock b) st1.abort
      rcases (and_then_error _ _ _ _).mp hf with hf | ⟨t,ht,hf⟩
      · rw [hf] at hi
        exact hi.trans hs
      · rw [ht] at hi
        rw [← (Prod.mk.inj hf).1]
        exact hi.trans hs
    | throw text => simp [fail] at hf
    | crash => simp [fail] at hf
  · -- the block is connected, and the commit fails
    obtain ⟨hs,hv⟩ := connect_step_syncs env w hstep
    refine ⟨b.vtx.map (fun tx => ⟨tx,some b,true⟩),?_,?_,?_⟩
    · rw [hstep] at hf
      simp only at hf
      split_ifs at hf with hok
      · cases adopt_block_error env hf
      · rw [← (Prod.mk.inj hf).1]
        exact hs
    · intro n hn
      obtain ⟨hflag,b',hb,hh⟩ := announced_tells env rfl n hn
      exact ⟨b',hb,by simp [hflag, hh, hoff]⟩
    · rw [List.map_eq_nil_iff]
      exact iff_of_false hv (fun h => h st1 rfl)

theorem set_best_chain_syncs (hc : Crowned st tip) (hb : Entered env st.mapBlockIndex b) {n : ℕ}
    (hf : setBestChain env w b st = (st',.error (.error n msg))) :
    ∃ ns, st'.syncs = st.syncs++ns ∧ (∀ n ∈ ns, Sided env st.mapBlockIndex tip n) ∧
      (ns = [] ↔ QuietFailure env w b st tip) := by
  have g := tree_graded hc.standing.tree
  unfold setBestChain at hf
  rcases hr : bestRoute env w b st.begin with ⟨st1,e | _⟩
  · simp only [hr, fail, Prod.mk.injEq, Except.error.injEq] at hf
    obtain ⟨rfl,rfl⟩ := hf
    change ∃ ns, st1.syncs = _ ∧ _
    rw [route_known env w b st hc] at hr
    unfold QuietFailure
    split_ifs at hr ⊢ with hprev
    · have hoff : env.hashBlock b ∉ st.mapBlockIndex.pathOf tip := by
        intro hmem
        have hp : st.mapBlockIndex.parentOf (env.hashBlock b) = some tip := by
          rw [hc.hash] at hprev
          rw [hb.parent (by rw [hprev]; exact hc.standing.entry), hprev]
        have hle := (height_le g hmem).1
        have hstep := g.step _ _ hp
        omega
      rcases hi : setBestChainInner env w (env.hashBlock b) b st.begin with ⟨st2,f | _⟩
      · simp only [hi, fail, Prod.mk.injEq, Except.error.injEq] at hr
        obtain ⟨rfl,hmsg⟩ := hr
        cases f with
        | error k text => exact extension_syncs env w b st st2 tip hoff hi
        | throw text => cases hmsg
        | crash => cases hmsg
      · simp [hi, done] at hr
    · obtain ⟨i,hi,hbest⟩ := crowned_entry st hc
      simp only [switchBest, show st.begin.best.pindexBest = some i from hbest] at hr
      rcases hp : postpone st.mapBlockIndex i.nChainTrust
        (st.mapBlockIndex.heightOf (env.hashBlock b)).toNat (env.hashBlock b) [] with ⟨ks,mid⟩
      have hp' : postpone st.begin.mapBlockIndex i.nChainTrust
        (st.begin.mapBlockIndex.heightOf (env.hashBlock b)).toNat (env.hashBlock b) [] =
          (ks,mid) := hp
      simp only [hp'] at hr
      rcases hre : reorganize env w mid st.begin with ⟨st2,f | _⟩
      · -- `Reorganize` fails, and what follows is quiet
        cases f with
        | throw text => simp [hre, fail] at hr
        | crash => simp [hre, fail] at hr
        | error k text =>
          have hsame : st1.syncs = st2.syncs := by
            rw [hre] at hr
            have hinv := invalid_chain_found_syncs (env.hashBlock b) st2.abort
            rcases (and_then_error _ _ _ _).mp hr with hr | ⟨t,ht,hr⟩
            · rw [hr] at hinv
              exact hinv
            · rw [ht] at hinv
              rw [← (Prod.mk.inj hr).1]
              exact hinv
          rw [hsame]
          simp only [reorganize, show st.begin.pindexBest = some tip from hc.best] at hre
          cases hbr : branches st.begin tip mid with
          | error e =>
            simp only [hbr, fail, Prod.mk.injEq] at hre
            refine ⟨[],by rw [← hre.1, List.append_nil]; rfl,by simp,?_⟩
            refine iff_of_true rfl ?_
            intro j xs ys hj hbranch
            rw [hi, Option.some_inj] at hj
            rw [← hj, hp, hbr] at hbranch
            cases hbranch
          | ok r =>
            obtain ⟨xs,ys⟩ := r
            simp only [hbr] at hre
            obtain ⟨pfork,hdown,_,hapart⟩ :=
              branches_ok hc.standing.tree hbr
            have hpath : st.mapBlockIndex.pathOf tip = xs++st.mapBlockIndex.pathOf pfork := by
              have h := ascends_path g _ hdown
              rwa [List.reverse_reverse] at h
            obtain ⟨ns,hns,hside,hsilent⟩ := switch_branches_syncs env w
               (begin_working hc.standing)
              (fun x hx => by rw [hpath]; exact List.mem_append_left _ hx) hapart hre
            refine ⟨ns,hns,hside,hsilent.trans ?_⟩
            constructor
            · intro h j xs' ys' hj hbranch
              rw [hi, Option.some_inj] at hj
              rw [← hj, hp, hbr] at hbranch
              cases hbranch
              exact h
            · exact fun h => h i xs ys hi (by rw [hp]; exact hbr)
      · simp only [hre] at hr
        exact absurd hr (connect_postponed_false env w ks st2 st1 n msg)
  · simp only [hr, newBest] at hf
    split at hf
    · cases (Prod.mk.inj hf).2
    · cases (Prod.mk.inj hf).2

/-- After a call that returns false everything that can be observed is as it was exactly
where the failure comes before the wallets were told of a block. -/
theorem failed_unchanged_iff (hc : Crowned st tip) (hb : Entered env st.mapBlockIndex b)
    (n : ℕ) (msg : String) (hf : setBestChain env w b st = (st',.error (.error n msg))) :
    Unchanged st st' tip ↔ QuietFailure env w b st tip := by
  obtain ⟨ns,hns,hside,hquiet⟩ := set_best_chain_syncs env w b st st' tip hc hb hf
  have hund := set_best_chain_error env w b st st' hc hb
    (fun _ st1 i ks mid st2 _ _ _ h => absurd h (connect_postponed_false env w ks st2 st1 n msg)) hf
  have hund := hund.resolve_left (by simp)
  have hlinks : ∀ h, (st'.mapBlockIndex h).map CBlockIndex.pnext =
      (st.mapBlockIndex h).map CBlockIndex.pnext := by
    intro h
    obtain ⟨mint,supply,he,_⟩ := hund.entries h
    rw [he, Option.map_map]
    rfl
  have htotals : ∀ h ∈ st.mapBlockIndex.pathOf tip, st'.mapBlockIndex h = st.mapBlockIndex h := by
    intro h hh
    obtain ⟨_,_,_,hon⟩ := hund.entries h
    exact hon (not_not_intro hh)
  rw [← hquiet, ← nets_out_iff env hside]
  constructor
  · intro h
    obtain ⟨ms,hms,hnet⟩ := h.wallets
    rw [hns, List.append_cancel_left_eq] at hms
    exact hms ▸ hnet
  · intro hnet
    exact ⟨hund.committed,hund.globals.best,hlinks,hund.mempool,
      fun h hh => by rw [htotals h hh],ns,hns,hnet⟩

end Call

section Sample

theorem unread_silent {w : World} (hno : ∀ h n p, (w.disk h).readBlock n p = none)
    (xs ys : List Uint256) (st : ChainState) : SilentSwitch env w xs ys st := by
  have hread : ∀ (best : Best) h i, readFromDisk env best (w.disk h) i = none := by
    intro best h i
    rw [readFromDisk, hno, Option.bind_none]
  have hdown : ∀ h x y, disconnectOne env w h x ≠ (y,.ok ()) := by
    intro h x y hy
    obtain ⟨i,b,_,hr,_⟩ := disconnect_one_ok env w hy
    rw [hread] at hr
    cases hr
  have hup : ∀ h x y, connectOne env w h x ≠ (y,.ok ()) := by
    intro h x y hy
    obtain ⟨i,b,_,hr,_⟩ := connect_one_ok env w hy
    rw [hread] at hr
    cases hr
  exact ⟨along_all _ (fun h x y hy => absurd hy (hdown h x y)) _ _ _,fun y _ h _ z => hup h _ z⟩

def besideCalls : List Action := [addMined [] (mined 2 1 10),addMined [] (mined 3 1 10)]

theorem beside_filed (b : CBlock) (hb : b.hashPrevBlock = 3) (test : ChainState → Bool)
    (hrun : (playAll sampleEnv (postponesNone sampleEnv) besideCalls firstState).any (fun st =>
      let x := indexBlock sampleEnv (readable []) b 1 4 0 st
      (st.mapBlockIndex 3).isSome && st.pindexBest == some 2 && decide (x.2 = .ok ()) &&
        test x.1) = true) :
    ∃ st, Crowned st 2 ∧ Entered sampleEnv st.mapBlockIndex b ∧ test st = true := by
  obtain ⟨st0,hst0,hfacts⟩ := (Option.any_eq_true _ _).mp hrun
  have hr := play_all_reachable sampleEnv (Meets sampleEnv .none)
    (postpones_none_meets sampleEnv)
    (first_reachable _ (empty_meets sampleEnv .none _ _ trivial)) hst0
  rcases hindex : indexBlock sampleEnv (readable []) b 1 4 0 st0 with ⟨st,r⟩
  simp only [hindex, Bool.and_eq_true, decide_eq_true_eq, beq_iff_eq] at hfacts
  obtain ⟨⟨⟨hprev,hbest⟩,rfl⟩,htest⟩ := hfacts
  obtain ⟨_,_,tip,_,_,hc⟩ := reachable_moves sampleEnv .none hr
  obtain rfl : tip = 2 := Option.some_inj.mp (hc.best.symm.trans hbest)
  refine ⟨st,file_crowned sampleEnv .none hc (by rw [hb]; exact hprev) trivial
    hindex,?_,htest⟩
  rcases index_block_cases sampleEnv _ hindex with ⟨_,hne⟩ | ⟨_,m,rfl,_⟩
  · exact absurd rfl hne
  · exact entered_entered sampleEnv 1 4 0 m _ (by rw [hb]; exact hprev)

def besideBlocks : List CBlock := [mined 2 1 10,mined 3 1 10,mined 4 3 4000000]

end Sample

/-- The last block of the other branch pays too much. Before it is refused, the wallets
are told that the best block was disconnected and that the block beside it was connected. -/
theorem refused_branch_told : ¬ ∀ (env : Env) (w : World) (b : CBlock) (st st' : ChainState)
    (tip : Uint256) (n : ℕ) (msg : String), Crowned st tip → Entered env st.mapBlockIndex b →
      setBestChain env w b st = (st',.error (.error n msg)) → Unchanged st st' tip := by
  let told : Sync := ⟨⟨1,12,[⟨.null,[1,1],0⟩],[⟨10*coin,[1]⟩],0⟩,some (mined 2 1 10),false⟩
  intro hclaim
  obtain ⟨st,hc,hb,htest⟩ := beside_filed (mined 4 3 4000000) rfl (fun st =>
    let x := setBestChain sampleEnv (readable besideBlocks) (mined 4 3 4000000) st
    decide (x.2 = .error (.error 0 "SetBestChain() : Reorganize failed")) &&
      x.1.syncs.count told == st.syncs.count told+1 &&
      x.1.syncs.count { told with fConnect := true } ==
        st.syncs.count { told with fConnect := true }) (by decide +kernel)
  rcases hset : setBestChain sampleEnv (readable besideBlocks) (mined 4 3 4000000) st with ⟨st',r⟩
  simp only [hset, Bool.and_eq_true, decide_eq_true_eq, beq_iff_eq] at htest
  obtain ⟨⟨rfl,hfalse⟩,htrue⟩ := htest
  obtain ⟨ns,hns,hnet⟩ := (hclaim sampleEnv _ _ st st' 2 _ _ hc hb hset).wallets
  have hcount : ns.count { told with fConnect := true } = ns.count told := hnet told.tx told.block
  rw [hns, List.count_append] at hfalse htrue
  omega

/-- Where the best block cannot be read the call fails and leaves no trace. -/
theorem unread_branch_unchanged : ∃ st st', Crowned st 2 ∧
    setBestChain sampleEnv (readable []) (mined 4 3 10) st =
      (st',.error (.error 0 "SetBestChain() : Reorganize failed")) ∧ Unchanged st st' 2 := by
  obtain ⟨st,hc,hb,htest⟩ := beside_filed (mined 4 3 10) rfl (fun st =>
    decide ((setBestChain sampleEnv (readable []) (mined 4 3 10) st).2 =
      .error (.error 0 "SetBestChain() : Reorganize failed"))) (by decide +kernel)
  rcases hset : setBestChain sampleEnv (readable []) (mined 4 3 10) st with ⟨st',r⟩
  simp only [hset, decide_eq_true_eq] at htest
  subst htest
  refine ⟨st,st',hc,hset,?_⟩
  refine (failed_unchanged_iff sampleEnv (readable []) (mined 4 3 10) st st' 2 hc hb 0 _ hset).mpr ?_
  have hprev : (mined 4 3 10).hashPrevBlock ≠ st.hashBestChain := by
    rw [hc.hash]
    decide
  rw [QuietFailure, if_neg hprev]
  exact fun _ xs ys _ _ => unread_silent sampleEnv (fun _ _ _ => rfl) xs ys _

end SwippCore.FailedSwitch
