import SwippCore.ChainRuns
import SwippCore.BlockValues
import Mathlib.Data.List.Find

/-!
# The best chain that the globals describe

The record of every block of the main chain points to the next one, which only a
connection of that block writes. In every state of a run in which the postponed
blocks of each call are all connected, the globals, the links in memory and the
database name one chain, each block of which was connected.
-/

set_option autoImplicit false

namespace SwippCore.BestChain
open FinMap Checks Ancestry ChainTree ChainOps ChainRollback ChainMoves
open ChainCursor ChainRuns

variable (env : Env)

section Records

theorem write_addrs_records (hash : Uint256) (as : List Uint160) (s : Store) :
    (writeAddrs hash as s).blockIndex = s.blockIndex := by
  induction as generalizing s with
  | nil => rfl
  | cons a as ih =>
    rw [writeAddrs, ih, Store.writeAddrIndex]
    split
    · rfl
    · split_ifs <;> rfl

theorem write_addr_indexes_records {ctx : ConnectContext} {txs : List CTransaction} (s s' : Store)
    (h : writeAddrIndexes env ctx txs s = .ok s') : s'.blockIndex = s.blockIndex := by
  induction txs generalizing s with
  | nil =>
    rw [writeAddrIndexes, Except.ok.injEq] at h
    rw [h]
  | cons tx txs ih =>
    obtain ⟨s1,h1,h⟩ := (bind_ok _ _ _).mp h
    obtain ⟨_,_,h1⟩ := (bind_ok _ _ _).mp h1
    rw [Except.ok.injEq] at h1
    rw [ih s1 h, ← h1, write_addrs_records]

theorem connect_writes_records {ctx : ConnectContext} {p : CBlockIndex} {b : CBlock}
    {i : CBlockIndex} {t : Totals} {s s' : Store} (hreal : ctx.fJustCheck = false)
    (h : connectWrites env ctx (some p) b i t s = .ok s') :
    s'.blockIndex = Function.update (Function.update s.blockIndex i.hashBlock
      (some (.ofIndex i))) p.hashBlock (some { CDiskBlockIndex.ofIndex p with
        hashNext := i.hashBlock }) := by
  simp only [connectWrites, hreal, Bool.false_eq_true, if_false] at h
  obtain ⟨s1,h1,h⟩ := (bind_ok _ _ _).mp h
  rw [Except.ok.injEq] at h
  rw [← h]
  simp only [linkOnDisk, Store.writeBlockIndex]
  rw [write_addr_indexes_records env _ _ h1, ConnectEffect.write_queued_frame]
  rfl

theorem disconnect_block_records {p : CBlockIndex} {b : CBlock} {s s' : Store}
    (h : disconnectBlock env (some p) b s = .ok s') :
    s'.blockIndex = Function.update s.blockIndex p.hashBlock
      (some { CDiskBlockIndex.ofIndex p with hashNext := 0 }) := by
  obtain ⟨s1,h1,h⟩ := (bind_ok _ _ _).mp h
  rw [Except.ok.injEq] at h
  rw [← h]
  simp only [linkOnDisk, Store.writeBlockIndex]
  rw [congrArg Store.blockIndex (ConnectEffect.disconnect_txs_frame env s s1 h1)]

end Records

/-- The block was connected after its parent: the record of the parent points to it,
and its transactions were announced as connected. -/
structure Joined (s : Store) (syncs : List Sync) (c p : Uint256) : Prop where
  record : ∃ r, s.blockIndex p = some r ∧ r.hashNext = c
  announced : ∃ n ∈ syncs, n.fConnect = true ∧ ∃ b, n.block = some b ∧ env.hashBlock b = c

def AllJoined (m : BlockMap) (s : Store) (syncs : List Sync) (tip : Uint256) : Prop :=
  ∀ c ∈ m.pathOf tip, ∀ p, m.parentOf c = some p → Joined env s syncs c p

section Cursor
variable (w : World) (m : BlockMap)

theorem joined_mono (s s' : Store) (syncs syncs' : List Sync) (c p : Uint256)
    (hrec : s'.blockIndex p = s.blockIndex p) (hpre : syncs <+: syncs')
    (h : Joined env s syncs c p) : Joined env s' syncs' c p := by
  obtain ⟨n,hn,hc⟩ := h.announced
  exact ⟨by rw [hrec]; exact h.record,n,hpre.subset hn,hc⟩

theorem connect_shaped {ctx : ConnectContext} {amb : Ambient} {s : Store} {b : CBlock} {t : Totals}
    (h : connectChecks env ctx amb s b = .ok t) : RewardSchedule.Shaped b := by
  obtain ⟨_,_,hcheck⟩ := (RewardSchedule.connect_checks_ok env ctx amb s b t).mp h
  exact RewardSchedule.check_block_shaped env amb hcheck

section
variable {h p : Uint256} {b : CBlock} {i : CBlockIndex} {st st1 : ChainState}
  (hs : Site env m h p b i st)
include i hs

theorem connect_joined (hc : connectStep env w h b st = (st1,.ok ()))
    (hj : AllJoined env m st.txdb.view st.syncs p) : AllJoined env m st1.txdb.view st1.syncs h := by
  have g := tree_graded (same_tree_tree (same_tree_symm hs.working.same) hs.working.tree)
  obtain ⟨i',t,s,hi',hchecks,hwrites,rfl⟩ :=
    (connect_step_ok env w h b st1 hs.working.ready).mp hc
  rw [hs.entry, Option.some_inj] at hi'
  subst hi'
  obtain ⟨j,hjm,hpe,hjp⟩ := site_parent_entry env m hs
  rw [hpe] at hwrites
  have hrec := connect_writes_records env rfl hwrites
  have hih : (recordTotals (some j) t i).hashBlock = h := hs.working.tree.keyed h i hs.entry
  rw [hih, hjp] at hrec
  have hview : (connected h b i t s st).txdb.view = s := by
    simp [connected, ChainState.syncAll]
  have hpath := mem_path_iff g h
  intro c hcm q hq
  rw [hview]
  rcases (hpath c).mp hcm with rfl | ⟨p',hp',hcp⟩
  · have hqp : q = p := by
      rw [site_parent env m hs, Option.some_inj] at hq
      exact hq.symm
    subst hqp
    refine ⟨⟨_,by rw [hrec, Function.update_self],rfl⟩,?_⟩
    obtain ⟨tx,rest,hv,_⟩ := (connect_shaped env hchecks).coinBase
    refine ⟨⟨tx,some b,true⟩,?_,rfl,b,rfl,hs.hash⟩
    simp [connected, ChainState.syncAll, hv]
  · rw [site_parent env m hs, Option.some_inj] at hp'
    subst hp'
    have hlt := parent_height_lt g hcp hq
    have hstep := g.step h p (site_parent env m hs)
    have hqp : q ≠ p := fun he => by rw [he] at hlt; omega
    have hqh : q ≠ h := fun he => by rw [he] at hlt; omega
    apply joined_mono env st.txdb.view s st.syncs _ c q _ _ (hj c hcp q hq)
    · rw [hrec, Function.update_of_ne hqp, Function.update_of_ne hqh]
    · exact List.prefix_append _ _

theorem disconnect_joined (hc : disconnectStep env h b st = (st1,.ok ()))
    (hj : AllJoined env m st.txdb.view st.syncs h) : AllJoined env m st1.txdb.view st1.syncs p := by
  have g := tree_graded (same_tree_tree (same_tree_symm hs.working.same) hs.working.tree)
  obtain ⟨i',s,hi',hdis,rfl⟩ := (disconnect_step_ok env h b st st1).mp hc
  rw [hs.entry, Option.some_inj] at hi'
  subst hi'
  obtain ⟨j,hjm,hpe,hjp⟩ := site_parent_entry env m hs
  rw [hpe] at hdis
  have hrec := disconnect_block_records env hdis
  rw [hjp] at hrec
  have hview : (disconnected b s st).txdb.view = s := by
    simp [disconnected, ChainState.syncAll]
  intro c hcm q hq
  have hlt := parent_height_lt g hcm hq
  have hqp : q ≠ p := fun he => by rw [he] at hlt; omega
  have hch : c ∈ m.pathOf h :=
    (mem_path_iff g h c).mpr (Or.inr ⟨p,site_parent env m hs,hcm⟩)
  rw [hview]
  apply joined_mono env st.txdb.view s st.syncs _ c q _ _ (hj c hch q hq)
  · rw [hrec, Function.update_of_ne hqp]
  · exact List.prefix_append _ _

end

end Cursor

section Next
variable (m : BlockMap)

def nextOn (tip h : Uint256) : Option Uint256 :=
  (m.pathOf tip).find? (fun c => m.parentOf c == some h)

variable (ht : Tree m)
include ht

theorem next_on_child {h p : Uint256} (k : Uint256) (hp : m.parentOf h = some p) :
    nextOn m h k = if k = p then some h else nextOn m p k := by
  have hpath : m.pathOf h = h::m.pathOf p := path_some (tree_graded ht) hp
  rw [nextOn, hpath, List.find?_cons, hp]
  by_cases hk : k = p
  · simp [hk]
  · have hpk : (some p == some k) = false := by simp [Ne.symm hk]
    rw [hpk, if_neg hk]
    rfl

theorem next_on_mem {tip k c : Uint256} (h : nextOn m tip k = some c) :
    c ∈ m.pathOf tip ∧ k ∈ m.pathOf tip ∧ m.parentOf c = some k := by
  have hc := List.mem_of_find?_eq_some h
  have hp : m.parentOf c = some k := by simpa using List.find?_some h
  exact ⟨hc,parent_mem (tree_graded ht) hc hp,hp⟩

theorem next_on_iff {tip k c : Uint256} :
    nextOn m tip k = some c ↔ c ∈ m.pathOf tip ∧ m.parentOf c = some k := by
  have g := tree_graded ht
  constructor
  · intro h
    obtain ⟨hc,_,hp⟩ := next_on_mem m ht h
    exact ⟨hc,hp⟩
  · rintro ⟨hc,hp⟩
    cases hn : nextOn m tip k with
    | none => exact absurd (by simpa using hp) (List.find?_eq_none.mp hn c hc)
    | some d =>
      obtain ⟨hd,_,hdp⟩ := next_on_mem m ht hn
      have hch := g.step c k hp
      have hdh := g.step d k hdp
      rw [path_same_level g hd hc (by omega)]

theorem next_on_off {tip k : Uint256} (hk : k ∉ m.pathOf tip) : nextOn m tip k = none := by
  cases hn : nextOn m tip k with
  | none => rfl
  | some c => exact absurd (next_on_mem m ht hn).2.1 hk

theorem next_on_tip (tip : Uint256) : nextOn m tip tip = none := by
  cases hn : nextOn m tip tip with
  | none => rfl
  | some c =>
    obtain ⟨hc,_,hp⟩ := next_on_mem m ht hn
    have hlt := parent_height_lt (tree_graded ht) hc hp
    omega

end Next

variable {m : BlockMap}

theorem next_on_same {m' : BlockMap} (h : SameTree m m') : nextOn m' = nextOn m := by
  funext tip k
  rw [nextOn, nextOn, same_tree_path h, same_tree_parent h]

def Linked (m : BlockMap) (tip : Uint256) : Prop :=
  ∀ h i, m h = some i → i.pnext = nextOn m tip h

variable {tip : Uint256}

theorem linked_retotalled {T : Uint256 → Prop} {m' : BlockMap} (h : Retotalled T m m')
    (hl : Linked m tip) : Linked m' tip := by
  intro k i' hi'
  obtain ⟨mint,supply,hk,_⟩ := h k
  rw [hi'] at hk
  obtain ⟨i,hi,rfl⟩ := Option.map_eq_some_iff.mp hk.symm
  rw [next_on_same (retotalled_same T m m' h)]
  exact hl k i hi

theorem unlink_linked (ht : Tree m) {h p : Uint256} (hp : m.parentOf h = some p) (hl : Linked m h) :
    Linked (m.setParentPnext h none) p := by
  have hre := set_parent_relinked m h none
  intro k i' hi'
  rw [hre k] at hi'
  obtain ⟨i,hi,rfl⟩ := Option.map_eq_some_iff.mp hi'
  rw [next_on_same (relinked_same hre), hp]
  dsimp only
  by_cases hk : k = p
  · simp [hk, next_on_tip m ht p]
  · have hpk : some p ≠ some k := by simp [Ne.symm hk]
    rw [if_neg hpk, hl k i hi, next_on_child m ht k hp, if_neg hk]

theorem link_linked (ht : Tree m) (h p : Uint256) (hp : m.parentOf h = some p) (hl : Linked m p) :
    Linked (m.setParentPnext h (some h)) h := by
  have hre := set_parent_relinked m h (some h)
  intro k i' hi'
  rw [hre k] at hi'
  obtain ⟨i,hi,rfl⟩ := Option.map_eq_some_iff.mp hi'
  rw [next_on_same (relinked_same hre), hp, next_on_child m ht k hp]
  dsimp only
  by_cases hk : k = p
  · simp [hk]
  · have hpk : some p ≠ some k := by simp [Ne.symm hk]
    rw [if_neg hpk, if_neg hk, hl k i hi]

theorem unlink_all_linked {xs : List Uint256} (m : BlockMap) (ht : Tree m) (pfork tip : Uint256)
    (hdown : Ascends m.parentOf pfork xs.reverse tip) (hl : Linked m tip) :
    Linked (m.unlinkAll xs) pfork := by
  induction xs generalizing m tip with
  | nil =>
    rw [show pfork = tip from hdown]
    exact hl
  | cons x xs ih =>
    rw [List.reverse_cons] at hdown
    obtain ⟨rfl,p,hp,hdown⟩ := ascends_last _ _ hdown
    have hsame := relinked_same (set_parent_relinked m x none)
    apply ih _ (same_tree_tree hsame ht) p
    · rw [same_tree_parent hsame]
      exact hdown
    · exact unlink_linked ht hp hl

theorem link_all_linked (ys : List Uint256) (m : BlockMap) (ht : Tree m) (pfork hNew : Uint256)
    (hup : Ascends m.parentOf pfork ys hNew) (hl : Linked m pfork) :
    Linked (m.linkAll ys) hNew := by
  induction ys generalizing m pfork with
  | nil =>
    rw [← show pfork = hNew from hup]
    exact hl
  | cons y ys ih =>
    have hsame := relinked_same (set_parent_relinked m y (some y))
    apply ih _ (same_tree_tree hsame ht) y
    · rw [same_tree_parent hsame]
      exact hup.2
    · exact link_linked ht y pfork hup.1 hl

theorem adopt_links (ht : Tree m) (pfork tip hNew : Uint256) (xs ys : List Uint256)
    (hdown : Ascends m.parentOf pfork xs.reverse tip) (hup : Ascends m.parentOf pfork ys hNew)
    (hl : Linked m tip) : Linked ((m.unlinkAll xs).linkAll ys) hNew := by
  obtain ⟨f,hf⟩ := unlink_all_relinked xs m
  have hsame := relinked_same hf
  apply link_all_linked ys _ (same_tree_tree hsame ht) pfork hNew
  · rw [same_tree_parent hsame]
    exact hup
  · exact unlink_all_linked m ht pfork tip hdown hl

section Filed
variable {b : CBlock} (nFile nBlockPos : ℕ) (hashProof : Uint256) (modifier : ℕ × Bool)
  (ht : Tree m) (htip : (m tip).isSome) (hnew : m (env.hashBlock b) = none)
  (hprev : (m b.hashPrevBlock).isSome)
include ht htip hnew hprev

theorem filed_next :
    nextOn (filed env b nFile nBlockPos hashProof modifier m) tip = nextOn m tip := by
  funext k
  rw [nextOn, nextOn, filed_path env ht hnew hprev htip]
  apply List.find?_congr
  intro c hc
  rw [filed_old_parent env ht hnew htip c hc]

theorem filed_linked (hl : Linked m tip) :
    Linked (filed env b nFile nBlockPos hashProof modifier m) tip := by
  intro k i hi
  rw [filed_next env nFile nBlockPos hashProof modifier ht htip hnew hprev]
  by_cases hk : k = env.hashBlock b
  · rw [hk, filed, Function.update_self, Option.some_inj] at hi
    rw [next_on_off m ht, ← hi]
    · rfl
    · exact fun hmem => old_path_ne env ht hnew htip k hmem hk
  · rw [filed_other env k hk] at hi
    exact hl k i hi

end Filed

def Rooted (genesis : Option Uint256) (m : BlockMap) (tip : Uint256) : Prop :=
  ∀ h ∈ m.pathOf tip, m.parentOf h = none → genesis = some h

structure Described (st : ChainState) (tip : Uint256) : Prop where
  hash : st.txdb.committed.hashBestChain = some tip
  links : Linked st.mapBlockIndex tip
  root : Rooted st.pindexGenesisBlock st.mapBlockIndex tip
  joined : AllJoined env st.mapBlockIndex st.txdb.committed st.syncs tip

theorem all_joined_same {m m' : BlockMap} (hm : SameTree m m') (s : Store) (syncs : List Sync)
    (tip : Uint256) : AllJoined env m' s syncs tip ↔ AllJoined env m s syncs tip := by
  unfold AllJoined
  rw [same_tree_path hm, same_tree_parent hm]

theorem rooted_same (genesis : Option Uint256) {m m' : BlockMap} (hm : SameTree m m')
    (tip : Uint256) : Rooted genesis m' tip ↔ Rooted genesis m tip := by
  unfold Rooted
  rw [same_tree_path hm, same_tree_parent hm]

section Moves
variable (G : Guards)

variable {m : BlockMap}

theorem attach_root {genesis : Option Uint256} (ht : Tree m) {p h : Uint256}
    (hp : m.parentOf h = some p) (hr : Rooted genesis m p) : Rooted genesis m h := by
  have g := tree_graded ht
  intro k hk hroot
  rcases (mem_path_iff g h k).mp hk with rfl | ⟨q,hq,hkq⟩
  · rw [hroot] at hp
    cases hp
  · rw [hp, Option.some_inj] at hq
    exact hr k (hq ▸ hkq) hroot

variable {tip : Uint256}

theorem switch_root {genesis : Option Uint256} (ht : Tree m) {pfork hNew : Uint256}
    {xs ys : List Uint256} (hdown : Ascends m.parentOf pfork xs.reverse tip)
    (hup : Ascends m.parentOf pfork ys hNew) (hr : Rooted genesis m tip) :
    Rooted genesis m hNew := by
  have g := tree_graded ht
  intro k hk hroot
  rw [show m.pathOf hNew = _ from ascends_path g _ hup] at hk
  rcases List.mem_append.mp hk with hk | hk
  · obtain ⟨q,hq⟩ := ascends_parent _ _ _ hup (List.mem_reverse.mp hk)
    rw [hroot] at hq
    cases hq
  · apply hr k _ hroot
    rw [show m.pathOf tip = _ from ascends_path g _ hdown]
    exact List.mem_append_right _ hk

variable {st : ChainState}

theorem attach_described {w : World} {p h : Uint256} {b : CBlock} {st' : ChainState}
    (hs : Standing st p) (hp : st.mapBlockIndex.parentOf h = some p) (hb : env.hashBlock b = h)
    (hd : Described env st p) (ha : Attached env w h b st st') : Described env st' h := by
  obtain ⟨hsame,hglob⟩ := attached_same env w h b st' hs.best ha
  obtain ⟨st1,hc,had⟩ := ha
  obtain ⟨i,hsite⟩ := attach_site env hs hp hb
  have hwork := connect_step_worked env w (fun _ => True) h b st.begin trivial
    (begin_ready hs.best)
  have hjoin := connect_joined env w _ hsite hc hd.joined
  rw [hc] at hwork
  obtain ⟨hpool,hcom⟩ := adopted_block env had
  have hsame1 := retotalled_same _ _ _ hwork.entries
  refine ⟨by rw [hcom]; rfl,?_,?_,?_⟩
  · rw [hpool.entries]
    apply link_linked (same_tree_tree hsame1 hs.tree) h p
    · rw [same_tree_parent hsame1]
      exact hp
    · exact linked_retotalled hwork.entries hd.links
  · rw [hglob.genesis, rooted_same _ hsame]
    exact attach_root hs.tree hp hd.root
  · rw [all_joined_same env hsame, hcom]
    intro c hc q hq
    exact joined_mono env st1.txdb.view _ st1.syncs _ c q rfl hpool.syncs (hjoin c hc q hq)

theorem switch_described {w : World} {hNew : Uint256} {st' : ChainState} (hs : Standing st tip)
    (hd : Described env st tip) (hsw : Switched env w G tip hNew st st') :
    Described env st' hNew := by
  obtain ⟨hsame,hglob⟩ := switched_same env w G hs.best hsw
  obtain ⟨pfork,xs,ys,st1,st2,res,del,hdown,hup,_,hdis,hcon,had,hgd,hgc⟩ := hsw
  have hw0 := begin_working hs
  obtain ⟨hj1,hw1⟩ := down_rule env w st.mapBlockIndex
    (fun x c => AllJoined env st.mapBlockIndex x.1.txdb.view x.1.syncs c)
    (fun h p b i a a1 _ hr hstep hj => disconnect_joined env _ hr.site hstep hj)
    tip (st.begin,[]) hw0 hdown hgd hdis hd.joined
  obtain ⟨hj2,hw2⟩ := up_rule env w st.mapBlockIndex
    (fun x c => AllJoined env st.mapBlockIndex x.1.txdb.view x.1.syncs c)
    (fun h p b i a a1 _ hr hstep hj => connect_joined env w _ hr.site hstep hj)
    pfork (st1,[]) hw1 hup hgc hcon hj1
  have hwork1 := disconnect_all_worked env w (fun _ => True) xs (st.begin,[]) hw0.ready
  rw [hdis] at hwork1
  have hwork2 := connect_all_worked env w (fun _ => True) ys (st1,[]) (fun _ _ => trivial) hw1.ready
  rw [hcon] at hwork2
  obtain ⟨hpool,hcom⟩ := adopted_branch env w had
  refine ⟨by rw [hcom]; rfl,?_,?_,?_⟩
  · have hpar := same_tree_parent hw2.same
    rw [hpool.entries]
    apply adopt_links hw2.tree pfork tip hNew xs ys
    · rw [hpar]
      exact hdown
    · rw [hpar]
      exact hup
    · exact linked_retotalled hwork2.entries
        (linked_retotalled hwork1.entries hd.links)
  · rw [hglob.genesis, rooted_same _ hsame]
    exact switch_root hs.tree hdown hup hd.root
  · rw [all_joined_same env hsame, hcom]
    intro c hc q hq
    exact joined_mono env st2.txdb.view _ st2.syncs _ c q rfl hpool.syncs (hj2 c hc q hq)

theorem undone_described {T : Uint256 → Prop} {st' : ChainState} (hd : Described env st tip)
    (h : Undone T st st') : Described env st' tip := by
  have hsame := retotalled_same _ _ _ h.entries
  refine ⟨by rw [h.committed.hashBestChain, hd.hash],linked_retotalled h.entries hd.links,
    ?_,?_⟩
  · rw [h.globals.genesis, rooted_same _ hsame]
    exact hd.root
  · rw [all_joined_same env hsame]
    intro c hc q hq
    exact joined_mono env _ _ _ _ c q (by rw [h.committed.blockIndex]) h.syncs (hd.joined c hc q hq)

theorem filed_described {b : CBlock} (nFile nBlockPos : ℕ) (hashProof : Uint256)
    (modifier : ℕ × Bool) (ok : Bool) (hs : Standing st tip)
    (hnew : st.mapBlockIndex (env.hashBlock b) = none)
    (hprev : (st.mapBlockIndex b.hashPrevBlock).isSome) (hd : Described env st tip) :
    Described env (entered (env.hashBlock b)
      (newEntry env b nFile nBlockPos hashProof modifier st.mapBlockIndex) ok st) tip := by
  let m' := filed env b nFile nBlockPos hashProof modifier st.mapBlockIndex
  have hmap : (entered (env.hashBlock b) (newEntry env b nFile nBlockPos hashProof modifier
      st.mapBlockIndex) ok st).mapBlockIndex = m' := rfl
  have g := tree_graded hs.tree
  have hpath : m'.pathOf tip = st.mapBlockIndex.pathOf tip :=
    filed_path env hs.tree hnew hprev hs.entry
  have hin := old_path_ne env hs.tree hnew hs.entry
  have hpar : ∀ c ∈ st.mapBlockIndex.pathOf tip, m'.parentOf c = st.mapBlockIndex.parentOf c :=
    filed_old_parent env hs.tree hnew hs.entry
  refine ⟨?_,?_,?_,?_⟩
  · cases ok
    · exact hd.hash
    · exact hd.hash
  · exact filed_linked env nFile nBlockPos hashProof modifier hs.tree hs.entry hnew hprev hd.links
  · intro k hk hroot
    rw [hmap, hpath] at hk
    rw [hmap, hpar k hk] at hroot
    exact hd.root k hk hroot
  · intro c hc q hq
    rw [hmap, hpath] at hc
    rw [hmap, hpar c hc] at hq
    have hqn := hin q (parent_mem g hc hq)
    apply joined_mono env st.txdb.committed _ st.syncs _ c q _ List.prefix_rfl (hd.joined c hc q hq)
    cases ok
    · rfl
    · exact Function.update_of_ne hqn _ _

theorem described_move (a c : ChainState × Uint256) (hs : Standing a.1 a.2)
    (hd : Described env a.1 a.2) (h : Move env G a c) : Described env c.1 c.2 := by
  cases h with
  | undone h => exact undone_described env hd h
  | attach hp hb _ ha => exact attach_described env hs hp hb hd ha
  | switch h => exact switch_described env G hs hd h
  | crown h =>
    obtain ⟨i,hi,rfl⟩ := new_best_ok h
    exact ⟨hd.hash,hd.links,hd.root,hd.joined⟩
  | @file w st st' tip b nFile nBlockPos hashProof r hprev _ h =>
    rcases index_block_cases env w h with
      ⟨rfl,_⟩ | ⟨hnew,modifier,rfl,_⟩
    · exact hd
    · exact filed_described env nFile nBlockPos hashProof modifier _ hs hnew hprev hd
  | @offer w st st' tip fLimitFree tx r _ h =>
    have hpool := accept_step_pooled env w fLimitFree tx st
    rw [h] at hpool
    refine ⟨by rw [hpool.txdb]; exact hd.hash,?_,?_,?_⟩
    · rw [hpool.entries]
      exact hd.links
    · rw [hpool.entries, hpool.globals.genesis]
      exact hd.root
    · rw [hpool.entries, hpool.txdb]
      intro c hc q hq
      exact joined_mono env _ _ _ _ c q rfl hpool.syncs (hd.joined c hc q hq)

theorem started_described (st : ChainState) (g : Uint256) (h : Started env G st g) :
    Described env st g := by
  obtain ⟨b,nFile,nBlockPos,hashProof,modifier,rfl,_,hmap,hcom⟩ := h.entry
  obtain ⟨hpath,hpar⟩ := first_path env b nFile nBlockPos hashProof modifier
  refine ⟨by rw [hcom]; rfl,?_,?_,?_⟩
  · intro k i hi
    rw [hmap] at hi ⊢
    rw [filed, Function.update_apply] at hi
    split_ifs at hi
    rw [← Option.some_inj.mp hi]
    simp [newEntry, nextOn, hpath, hpar]
  · intro k hk _
    rw [hmap, hpath, List.mem_singleton] at hk
    rw [hk, h.genesis]
  · intro c _ p hp
    rw [hmap, hpar] at hp
    cases hp

end Moves

/-- The four globals, the database and the links in memory name one chain of
connected blocks, from the best block with its entry down to the first block. -/
structure DescribesChain (st : ChainState) (tip : Uint256) (i : CBlockIndex) : Prop where
  best : st.pindexBest = some tip
  entry : st.mapBlockIndex tip = some i
  stored : st.txdb.committed.hashBestChain = some i.hashBlock
  hash : st.hashBestChain = i.hashBlock
  height : st.nBestHeight = i.nHeight
  trust : st.nBestChainTrust = i.nChainTrust
  path : ∀ h, ((∃ j, st.mapBlockIndex h = some j ∧ j.pnext ≠ none) ∨ st.pindexBest = some h) ↔
    h ∈ st.mapBlockIndex.pathOf tip
  first : ∀ h ∈ st.mapBlockIndex.pathOf tip, st.mapBlockIndex.parentOf h = none →
    st.pindexGenesisBlock = some h
  joined : ∀ c ∈ st.mapBlockIndex.pathOf tip, ∀ p, st.mapBlockIndex.parentOf c = some p →
    Joined env st.txdb.committed st.syncs c p

theorem described_chain {st : ChainState} {tip : Uint256} (hc : Crowned st tip)
    (hd : Described env st tip) : ∃ i, DescribesChain env st tip i := by
  have hcs := hc.standing.tree
  have g := tree_graded hcs
  obtain ⟨i,hi⟩ := Option.isSome_iff_exists.mp hc.standing.entry
  have hih := hc.standing.tree.keyed tip i hi
  refine ⟨i,hc.best,hi,by rw [hih]; exact hd.hash,by rw [hih]; exact hc.hash,?_,?_,?_,hd.root,
    hd.joined⟩
  · rw [← hc.height, height_of_some _ hi]
  · have ht := hc.trust
    rw [hi, Option.map_some, Option.some_inj] at ht
    exact ht.symm
  · intro h
    rw [hc.best, Option.some_inj, show h ∈ st.mapBlockIndex.pathOf tip ↔ _ from mem_path_child g tip h]
    constructor
    · rintro (⟨j,hj,hn⟩ | rfl)
      · obtain ⟨c,hc⟩ := Option.ne_none_iff_exists'.mp hn
        rw [hd.links h j hj, next_on_iff _ hcs] at hc
        exact Or.inr ⟨c,hc⟩
      · exact Or.inl rfl
    · rintro (rfl | ⟨c,hcm,hp⟩)
      · exact Or.inr rfl
      · obtain ⟨k,hk,hkp⟩ := (parent_of_some _ _ _).mp hp
        obtain ⟨j,hj,_⟩ := hc.standing.tree.step c k h hk hkp
        refine Or.inl ⟨j,hj,Option.ne_none_iff_exists'.mpr ⟨c,?_⟩⟩
        rw [hd.links h j hj, next_on_iff _ hcs]
        exact ⟨hcm,hp⟩

/-- In every run in which the postponed blocks of each call are connected, the
globals describe the connected chain after every call. -/
theorem run_describes_chain (st : ChainState) (h : Reachable env (Meets env .none) st) :
    ∃ tip i, DescribesChain env st tip i := by
  obtain ⟨tip,hc,hd⟩ := run_invariant env .none (Described env) (started_described env .none)
    (described_move env .none) h
  exact ⟨tip,described_chain env hc hd⟩

section Sample

def branchCalls : List Action :=
  [addMined [] (mined 2 1 10),addMined [] (mined 3 1 10),addMined [] (mined 4 3 10)]

def overpaid : CBlock := mined 5 4 4000000

def rereadable : List CBlock := [mined 2 1 10,mined 3 1 10,mined 4 3 10,overpaid]

end Sample

/-- The longer branch cannot be read at first. When the overpaid block comes, the
node reorganises to the block below it, `ConnectBlock` refuses the overpaid block,
and `SetBestChain` returns true with that block as the best one. -/
theorem refused_block_is_best : ∃ st st',
    Reachable sampleEnv (fun _ _ => True) st ∧
      act sampleEnv (addMined rereadable overpaid) st = (st',.ok ()) ∧
      Reachable sampleEnv (fun _ _ => True) st' ∧
      ¬∃ tip i, DescribesChain sampleEnv st' tip i := by
  have hrun : (playAll sampleEnv (fun _ _ => true) branchCalls firstState).any (fun st =>
      let x := act sampleEnv (addMined rereadable overpaid) st
      called (addMined rereadable overpaid) st && decide (x.2 = .ok ()) &&
        x.1.pindexBest == some 5 && x.1.txdb.committed.hashBestChain == some 4 &&
        (x.1.mapBlockIndex 5).map CBlockIndex.hashBlock == some 5) = true := by
    decide +kernel
  obtain ⟨st,hst,hlast⟩ := (Option.any_eq_true _ _).mp hrun
  have hr := play_all_reachable sampleEnv (fun _ _ => True) (fun _ _ _ => trivial)
    (first_reachable _ trivial) hst
  rcases hact : act sampleEnv (addMined rereadable overpaid) st with ⟨st',r⟩
  simp only [hact, Bool.and_eq_true, decide_eq_true_eq, beq_iff_eq] at hlast
  obtain ⟨⟨⟨⟨hcalled,rfl⟩,hbest⟩,hstored⟩,hkey⟩ := hlast
  refine ⟨st,st',hr,hact,.step hr (called_ok _ hcalled) trivial hact (by simp),?_⟩
  rintro ⟨tip,i,hd⟩
  have htip := hd.best
  rw [hbest, Option.some_inj] at htip
  rw [htip, hd.entry, Option.map_some, Option.some_inj] at hkey
  have hs := hd.stored
  rw [hstored, Option.some_inj] at hs
  rw [← hs, ← htip] at hkey
  exact absurd hkey (by decide)

/-- The node switches to a branch that can be read, and the globals describe it. -/
theorem read_branch_described : ∃ st, Reachable sampleEnv (Meets sampleEnv .none) st ∧
    st.pindexBest = some 4 ∧ ∃ tip i, DescribesChain sampleEnv st tip i := by
  have hrun : (playAll sampleEnv (postponesNone sampleEnv)
      [addMined [] (mined 2 1 10),addMined [] (mined 3 1 10),addMined rereadable (mined 4 3 10)]
      firstState).any (fun st => st.pindexBest == some 4) = true := by decide +kernel
  obtain ⟨st,hst,hbest⟩ := (Option.any_eq_true _ _).mp hrun
  have hr := play_all_reachable sampleEnv (Meets sampleEnv .none)
    (postpones_none_meets sampleEnv)
    (first_reachable _ (empty_meets sampleEnv .none _ _ trivial)) hst
  exact ⟨st,hr,by simpa using hbest,run_describes_chain sampleEnv st hr⟩

end SwippCore.BestChain
