import SwippCore.BestChain
import SwippCore.LoadBlockIndex

/-!
# What the records say of the index entries

A record has the fields of its entry but for the money totals, which it shares on
the main chain. Its next block is the one on the main chain. The links in memory
are only changed after a commit, so between the two a record is ahead of its entry.
-/

set_option autoImplicit false

namespace SwippCore.IndexRecords
open Attempt Ancestry ChainTree ChainOps ChainRollback ChainMoves
open ChainCursor ChainRuns BestChain

variable {env : Env}

variable {m : BlockMap} {tip : Uint256}

def recordCore (r : CDiskBlockIndex) : CDiskBlockIndex :=
  { r with hashNext := 0, nMint := 0, nMoneySupply := 0 }

structure Recorded (m : BlockMap) (tip h : Uint256) (r : CDiskBlockIndex) (i : CBlockIndex) :
    Prop where
  fixed : recordCore r = .ofIndex (core i)
  next : r.hashNext = (nextOn m tip h).getD 0
  totals : h ∈ m.pathOf tip → r.nMint = i.nMint ∧ r.nMoneySupply = i.nMoneySupply

def Records (m m' : BlockMap) (s : Store) (tip : Uint256) : Prop :=
  ∀ h r, s.blockIndex h = some r → ∃ i, m' h = some i ∧ Recorded m tip h r i

theorem records_same {m0 m' : BlockMap} (hsame : SameTree m m0) (s : Store) (tip : Uint256)
    (h : Records m m' s tip) : Records m0 m' s tip := by
  intro k r hr
  obtain ⟨i,hi,hc⟩ := h k r hr
  exact ⟨i,hi,hc.fixed,by rw [next_on_same hsame]; exact hc.next,
    fun hk => hc.totals (by rw [← same_tree_path hsame]; exact hk)⟩

theorem records_relinked {f : Uint256 → Option Uint256 → Option Uint256} {m1 m2 : BlockMap}
    (hf : Relinked f m1 m2) {s : Store} (h : Records m m1 s tip) : Records m m2 s tip := by
  intro k r hr
  obtain ⟨i,hi,hc⟩ := h k r hr
  have hk := hf k
  rw [hi, Option.map_some] at hk
  exact ⟨_,hk,hc.fixed,hc.next,hc.totals⟩

theorem records_retotalled {m1 m2 : BlockMap} {s : Store}
    (ht : Retotalled (fun k => k ∉ m.pathOf tip) m1 m2) (h : Records m m1 s tip) :
    Records m m2 s tip := by
  intro k r hr
  obtain ⟨i,hi,hc⟩ := h k r hr
  obtain ⟨mint,supply,hk,hon⟩ := ht k
  rw [hi, Option.map_some] at hk
  refine ⟨_,hk,hc.fixed,hc.next,?_⟩
  intro hmem
  rw [hon (not_not_intro hmem), hi, Option.some_inj] at hk
  rw [← hk]
  exact hc.totals hmem

section Cursor
variable (w : World) (m : BlockMap)

def Loose (ys : List Uint256) (m' : BlockMap) : Prop :=
  ∀ y ∈ ys, ∀ i, m' y = some i → i.pnext = none

theorem connect_loose {h : Uint256} {b : CBlock} {st st1 : ChainState} (hr : Ready st)
    (hc : connectStep env w h b st = (st1,.ok ())) {ys : List Uint256}
    (hl : Loose ys st.mapBlockIndex) : Loose ys st1.mapBlockIndex := by
  obtain ⟨i,t,s,hi,_,_,rfl⟩ := (connect_step_ok env w h b st1 hr).mp hc
  intro y hy j hj
  simp only [connected, ChainState.syncAll, ChainState.setEntry, Function.update_apply] at hj
  split_ifs at hj with hyh
  · rw [← Option.some_inj.mp hj]
    exact hl y hy i (hyh ▸ hi)
  · exact hl y hy j hj

section
variable {h p : Uint256} {b : CBlock} {i : CBlockIndex} {st st1 : ChainState}
  (hs : Site env m h p b i st)
include i hs

theorem connect_records (hloose : i.pnext = none)
    (hc : connectStep env w h b st = (st1,.ok ()))
    (hr : Records m st.mapBlockIndex st.txdb.view p) :
    Records m st1.mapBlockIndex st1.txdb.view h := by
  have htree := same_tree_tree (same_tree_symm hs.working.same) hs.working.tree
  have g := tree_graded htree
  obtain ⟨i',t,s,hi',_,hwrites,rfl⟩ := (connect_step_ok env w h b st1 hs.working.ready).mp hc
  rw [hs.entry, Option.some_inj] at hi'
  subst hi'
  obtain ⟨j,hjm,hpe,hjp⟩ := site_parent_entry env m hs
  have hpar := site_parent env m hs
  rw [hpe] at hwrites
  have hrec := connect_writes_records env rfl hwrites
  have hih : (recordTotals (some j) t i).hashBlock = h := hs.working.tree.keyed h i hs.entry
  rw [hih, hjp] at hrec
  have hph : p ≠ h := fun he => by have hstep := g.step h p hpar; rw [he] at hstep; omega
  have hview : (connected h b i t s st).txdb.view = s := by
    simp [connected, ChainState.syncAll]
  have hmap : (connected h b i t s st).mapBlockIndex =
      Function.update st.mapBlockIndex h (some (recordTotals (st.parentEntry i) t i)) := rfl
  intro k r hk
  rw [hview, hrec, Function.update_apply] at hk
  rw [hmap]
  split_ifs at hk with hkp
  · -- the record of the parent, which now points to the block
    subst hkp
    obtain rfl := Option.some_inj.mp hk
    exact ⟨j,by rw [Function.update_of_ne hph, hjm],rfl,
      by rw [next_on_child m htree k hpar, if_pos rfl]; rfl,fun _ => ⟨rfl,rfl⟩⟩
  · rw [Function.update_apply] at hk
    split_ifs at hk with hkh
    · -- the record of the block itself
      subst hkh
      obtain rfl := Option.some_inj.mp hk
      refine ⟨_,Function.update_self _ _ _,by rw [hpe]; rfl,?_,fun _ => by rw [hpe]; exact ⟨rfl,rfl⟩⟩
      rw [next_on_tip m htree k]
      simp [CDiskBlockIndex.ofIndex, recordTotals, hloose]
    · obtain ⟨i0,hi0,hc0⟩ := hr k r hk
      refine ⟨i0,by rw [Function.update_of_ne hkh, hi0],hc0.fixed,?_,?_⟩
      · rw [next_on_child m htree k hpar, if_neg hkp]
        exact hc0.next
      · intro hmem
        rcases (mem_path_iff g h k).mp hmem with rfl | ⟨q,hq,hkq⟩
        · exact absurd rfl hkh
        · rw [hpar, Option.some_inj] at hq
          exact hc0.totals (hq ▸ hkq)

theorem disconnect_records (hc : disconnectStep env h b st = (st1,.ok ()))
    (hr : Records m st.mapBlockIndex st.txdb.view h) :
    Records m st1.mapBlockIndex st1.txdb.view p := by
  have htree := same_tree_tree (same_tree_symm hs.working.same) hs.working.tree
  have g := tree_graded htree
  obtain ⟨i',s,hi',hdis,rfl⟩ := (disconnect_step_ok env h b st st1).mp hc
  rw [hs.entry, Option.some_inj] at hi'
  subst hi'
  obtain ⟨j,hjm,hpe,hjp⟩ := site_parent_entry env m hs
  have hpar := site_parent env m hs
  rw [hpe] at hdis
  have hrec := disconnect_block_records env hdis
  rw [hjp] at hrec
  have hview : (disconnected b s st).txdb.view = s := by
    simp [disconnected, ChainState.syncAll]
  intro k r hk
  rw [hview, hrec, Function.update_apply] at hk
  split_ifs at hk with hkp
  · subst hkp
    obtain rfl := Option.some_inj.mp hk
    exact ⟨j,hjm,rfl,by rw [next_on_tip m htree k]; rfl,fun _ => ⟨rfl,rfl⟩⟩
  · obtain ⟨i0,hi0,hc0⟩ := hr k r hk
    refine ⟨i0,hi0,hc0.fixed,?_,?_⟩
    · have hnext := hc0.next
      rwa [next_on_child m htree k hpar, if_neg hkp] at hnext
    · intro hmem
      exact hc0.totals ((mem_path_iff g h k).mpr (Or.inr ⟨p,hpar,hmem⟩))

end

end Cursor

def Written (st : ChainState) (tip : Uint256) : Prop :=
  Records st.mapBlockIndex st.mapBlockIndex st.txdb.committed tip

section Moves
variable (G : Guards)

variable {tip : Uint256}

theorem linked_off {m : BlockMap} (ht : Tree m) {h : Uint256} {i : CBlockIndex} (hi : m h = some i)
    (hoff : h ∉ m.pathOf tip) (hl : Linked m tip) : i.pnext = none := by
  rw [hl h i hi, next_on_off m ht hoff]

variable {st : ChainState}

theorem attach_written {w : World} {p h : Uint256} {b : CBlock} {st' : ChainState}
    (hs : Standing st p) (hp : st.mapBlockIndex.parentOf h = some p) (hb : env.hashBlock b = h)
    (hl : Linked st.mapBlockIndex p) (hw : Written st p) (ha : Attached env w h b st st') : Written st' h := by
  have hsame := (attached_same env w h b st' hs.best ha).1
  obtain ⟨st1,hc,had⟩ := ha
  obtain ⟨i,hsite⟩ := attach_site env hs hp hb
  have g := tree_graded hs.tree
  have hoff : h ∉ st.mapBlockIndex.pathOf p := by
    intro hmem
    have hle := (height_le g hmem).1
    have hstep := g.step h p hp
    omega
  have hrec := connect_records w _ hsite
    (linked_off hs.tree hsite.entry hoff hl) hc hw
  obtain ⟨hpool,hcom⟩ := adopted_block env had
  apply records_same hsame
  rw [hcom, hpool.entries]
  exact records_relinked (set_parent_relinked st1.mapBlockIndex h (some h)) hrec

def Among (P : World → Uint256 → CBlock → ChainState → Prop) (ys : List Uint256) :
    World → Uint256 → CBlock → ChainState → Prop :=
  fun w h b st => P w h b st ∧ h ∈ ys

theorem along_among {w : World} {P : World → Uint256 → CBlock → ChainState → Prop}
    (all ys : List Uint256) (hys : ∀ y ∈ ys, y ∈ all) (x : ChainState × List CTransaction)
    (h : Along (Reads env w P) (connectOne env w) ys x) :
    Along (Reads env w (Among P all)) (connectOne env w) ys x := by
  induction ys generalizing x with
  | nil => trivial
  | cons y ys ih =>
    exact ⟨fun i b hi hread => ⟨h.1 i b hi hread,hys y List.mem_cons_self⟩,
      fun z hz => ih (fun k hk => hys k (List.mem_cons_of_mem y hk)) z (h.2 z hz)⟩

theorem switch_written {w : World} {hNew : Uint256} {st' : ChainState} (hs : Standing st tip)
    (hl : Linked st.mapBlockIndex tip) (hw : Written st tip)
    (hsw : Switched env w G tip hNew st st') : Written st' hNew := by
  have hsame := (switched_same env w G hs.best hsw).1
  obtain ⟨pfork,xs,ys,st1,st2,res,del,hdown,hup,hapart,hdis,hcon,had,hgd,hgc⟩ := hsw
  have hw0 := begin_working hs
  obtain ⟨hr1,hw1⟩ := down_rule env w st.mapBlockIndex
    (fun x c => Records st.mapBlockIndex x.1.mapBlockIndex x.1.txdb.view c)
    (fun h p b i a a1 _ hr hstep hj => disconnect_records _ hr.site hstep hj)
    tip (st.begin,[]) hw0 hdown hgd hdis hw
  have hwork1 := disconnect_all_worked env w (fun _ => True) xs (st.begin,[]) hw0.ready
  rw [hdis] at hwork1
  have hloose : Loose ys st1.mapBlockIndex := by
    intro y hy i hi
    apply linked_off hw1.tree hi _ (linked_retotalled hwork1.entries hl)
    rw [same_tree_path hw1.same]
    exact hapart y hy
  obtain ⟨⟨hr2,_⟩,hw2⟩ := up_rule env w st.mapBlockIndex
    (fun x c => Records st.mapBlockIndex x.1.mapBlockIndex x.1.txdb.view c ∧
      Loose ys x.1.mapBlockIndex)
    (fun h p b i a a1 _ hr hstep hj =>
      ⟨connect_records w _ hr.site (hj.2 h hr.meets.2 i hr.site.entry) hstep hj.1,
        connect_loose w hr.site.working.ready hstep hj.2⟩)
    pfork (st1,[]) hw1 hup
    (along_among ys ys (fun _ hy => hy) _ hgc) hcon ⟨hr1,hloose⟩
  obtain ⟨hpool,hcom⟩ := adopted_branch env w had
  obtain ⟨f,hf⟩ := switched_relinked xs ys st2.mapBlockIndex
  apply records_same hsame
  rw [hcom, hpool.entries]
  exact records_relinked hf hr2

theorem undone_written {st' : ChainState}
    (h : Undone (fun k => k ∉ st.mapBlockIndex.pathOf tip) st st') (hw : Written st tip) :
    Written st' tip := by
  apply records_same (retotalled_same _ _ _ h.entries)
  intro k r hr
  rw [h.committed.blockIndex] at hr
  exact records_retotalled h.entries hw k r hr

theorem filed_written {b : CBlock} (nFile nBlockPos : ℕ) (hashProof : Uint256) (modifier : ℕ × Bool)
    (ok : Bool) (hs : Standing st tip) (hnew : st.mapBlockIndex (env.hashBlock b) = none)
    (hprev : (st.mapBlockIndex b.hashPrevBlock).isSome) (hw : Written st tip) :
    Written (entered (env.hashBlock b)
      (newEntry env b nFile nBlockPos hashProof modifier st.mapBlockIndex) ok st) tip := by
  let m' := filed env b nFile nBlockPos hashProof modifier st.mapBlockIndex
  have hpath : m'.pathOf tip = st.mapBlockIndex.pathOf tip :=
    filed_path env hs.tree hnew hprev hs.entry
  have hother : ∀ k, k ≠ env.hashBlock b → m' k = st.mapBlockIndex k :=
    filed_other env
  have hself : m' (env.hashBlock b) =
      some (newEntry env b nFile nBlockPos hashProof modifier st.mapBlockIndex) := by
    simp [m', filed]
  have hnext : nextOn m' tip = nextOn st.mapBlockIndex tip :=
    filed_next env nFile nBlockPos hashProof modifier hs.tree hs.entry hnew hprev
  have hoff : env.hashBlock b ∉ st.mapBlockIndex.pathOf tip := fun hmem =>
    old_path_ne env hs.tree hnew hs.entry _ hmem rfl
  have hnone : nextOn m' tip (env.hashBlock b) = none := by
    rw [hnext, next_on_off _ hs.tree hoff]
  have hold : ∀ k r, st.txdb.committed.blockIndex k = some r →
      ∃ i, m' k = some i ∧ Recorded m' tip k r i := by
    intro k r hr
    obtain ⟨i,hi,hc⟩ := hw k r hr
    have hk : k ≠ env.hashBlock b := by
      rintro rfl
      rw [hnew] at hi
      cases hi
    exact ⟨i,by rw [hother k hk, hi],hc.fixed,by rw [hnext]; exact hc.next,
      fun hmem => hc.totals (by rw [← hpath]; exact hmem)⟩
  intro k r hr
  cases ok with
  | false => exact hold k r hr
  | true =>
    change Function.update st.txdb.committed.blockIndex (env.hashBlock b) _ k = some r at hr
    rw [Function.update_apply] at hr
    split_ifs at hr with hk
    · obtain rfl := Option.some_inj.mp hr
      rw [hk]
      refine ⟨_,hself,rfl,?_,fun _ => ⟨rfl,rfl⟩⟩
      change _ = (nextOn m' tip (env.hashBlock b)).getD 0
      rw [hnone]
      rfl
    · exact hold k r hr

theorem written_move {a c : ChainState × Uint256} (hs : Standing a.1 a.2)
    (hl : Linked a.1.mapBlockIndex a.2) (hw : Written a.1 a.2) (h : Move env G a c) : Written c.1 c.2 := by
  cases h with
  | undone h => exact undone_written h hw
  | attach hp hb _ ha => exact attach_written hs hp hb hl hw ha
  | switch h => exact switch_written G hs hl hw h
  | crown h =>
    obtain ⟨i,hi,rfl⟩ := new_best_ok h
    exact hw
  | @file w st st' tip b nFile nBlockPos hashProof r hprev _ h =>
    rcases index_block_cases env w h with
      ⟨rfl,_⟩ | ⟨hnew,modifier,rfl,_⟩
    · exact hw
    · exact filed_written nFile nBlockPos hashProof modifier _ hs hnew hprev hw
  | @offer w st st' tip fLimitFree tx r _ h =>
    have hpool := accept_step_pooled env w fLimitFree tx st
    rw [h] at hpool
    change Records _ _ _ _
    rw [hpool.entries, hpool.txdb]
    exact hw

theorem started_written {g : Uint256} (h : Started env G st g) : Written st g := by
  obtain ⟨b,nFile,nBlockPos,hashProof,modifier,rfl,_,hmap,hcom⟩ := h.entry
  have ht := first_tree env b nFile nBlockPos hashProof modifier
  have hnone : nextOn st.mapBlockIndex (env.hashBlock b) (env.hashBlock b) = none := by
    rw [hmap, next_on_tip _ ht]
  have hself : st.mapBlockIndex (env.hashBlock b) =
      some (newEntry env b nFile nBlockPos hashProof modifier (fun _ => none)) := by
    rw [hmap]
    simp [filed]
  intro k r hr
  rw [hcom] at hr
  change Function.update Store.empty.blockIndex (env.hashBlock b) _ k = some r at hr
  rw [Function.update_apply] at hr
  split_ifs at hr with hk
  · obtain rfl := Option.some_inj.mp hr
    rw [hk]
    exact ⟨_,hself,rfl,by rw [hnone]; rfl,fun _ => ⟨rfl,rfl⟩⟩
  · cases hr

theorem tree_move (Q : BlockMap → Prop) (hsame : ∀ m m', SameTree m m' → Q m → Q m')
    (hfile : ∀ b nFile nBlockPos hashProof modifier (st : ChainState),
      ChainTree.Tree st.mapBlockIndex →
      st.mapBlockIndex (env.hashBlock b) = none → (st.mapBlockIndex b.hashPrevBlock).isSome →
      G.file b nFile nBlockPos st → Q st.mapBlockIndex →
      Q (filed env b nFile nBlockPos hashProof modifier st.mapBlockIndex))
    {a c : ChainState × Uint256} (hs : Standing a.1 a.2) (hq : Q a.1.mapBlockIndex)
    (h : Move env G a c) : Q c.1.mapBlockIndex := by
  cases h with
  | undone h => exact hsame _ _ (retotalled_same _ _ _ h.entries) hq
  | attach hp hb _ ha => exact hsame _ _ (attached_same env _ _ _ _ hs.best ha).1 hq
  | switch h => exact hsame _ _ (switched_same env _ G hs.best h).1 hq
  | crown h =>
    obtain ⟨i,hi,rfl⟩ := new_best_ok h
    exact hq
  | @file w st st' tip b nFile nBlockPos hashProof r hprev hg h =>
    rcases index_block_cases env w h with
      ⟨rfl,_⟩ | ⟨hnew,modifier,rfl,_⟩
    · exact hq
    · exact hfile b nFile nBlockPos hashProof modifier st hs.tree hnew hprev hg hq
  | @offer w st st' tip fLimitFree tx r _ h =>
    have hpool := accept_step_pooled env w fLimitFree tx st
    rw [h] at hpool
    rw [show st'.mapBlockIndex = st.mapBlockIndex from hpool.entries]
    exact hq

end Moves

end SwippCore.IndexRecords
