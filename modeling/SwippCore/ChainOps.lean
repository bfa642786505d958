import SwippCore.ChainState

/-!
# Operations on the chain

The tree of block entries, and what each operation of `Reorganize` does to it.
-/

set_option autoImplicit false

namespace SwippCore.ChainTree
open Ancestry

structure Tree (m : BlockMap) : Prop where
  keyed : ∀ h i, m h = some i → i.hashBlock = h
  nonneg : ∀ h i, m h = some i → 0 ≤ i.nHeight
  step : ∀ h i p, m h = some i → i.pprev = some p → ∃ j, m p = some j ∧ i.nHeight = j.nHeight+1

theorem parent_of_some (m : BlockMap) (h p : Uint256) :
    m.parentOf h = some p ↔ ∃ i, m h = some i ∧ i.pprev = some p := by
  rw [BlockMap.parentOf, Option.bind_eq_some_iff]

variable {i : CBlockIndex}

theorem height_of_some (m : BlockMap) {h : Uint256} (hi : m h = some i) :
    m.heightOf h = i.nHeight := by simp [BlockMap.heightOf, hi]

variable {m : BlockMap}

theorem tree_graded (ht : Tree m) : Graded m.parentOf m.heightOf where
  nonneg := by
    intro h
    cases hi : m h with
    | none => simp [BlockMap.heightOf, hi]
    | some i =>
      rw [height_of_some m hi]
      exact ht.nonneg h i hi
  step := by
    intro h p hp
    obtain ⟨i,hi,hp⟩ := (parent_of_some m h p).mp hp
    obtain ⟨j,hj,hh⟩ := ht.step h i p hi hp
    rw [height_of_some m hi, height_of_some m hj, hh]

def core (i : CBlockIndex) : CBlockIndex :=
  { i with pnext := none, nMint := 0, nMoneySupply := 0 }

def SameTree (m m' : BlockMap) : Prop := ∀ h, (m' h).map core = (m h).map core

theorem same_tree_refl (m : BlockMap) : SameTree m m := fun _ => rfl

variable {m' : BlockMap}

theorem same_tree_trans {m'' : BlockMap} (h : SameTree m m') (h' : SameTree m' m'') :
    SameTree m m'' := fun k => (h' k).trans (h k)

theorem same_tree_entry (h : SameTree m m') {k : Uint256} {i' : CBlockIndex} (hi : m' k = some i') :
    ∃ i, m k = some i ∧ core i' = core i := by
  have hk := h k
  rw [hi] at hk
  cases hm : m k with
  | none => simp [hm] at hk
  | some i => exact ⟨i,rfl,by simpa [hm] using hk⟩

theorem same_tree_symm (h : SameTree m m') : SameTree m' m :=
  fun k => (h k).symm

variable {j : CBlockIndex}

section
variable (h : core i = core j)
include h

theorem core_pprev : i.pprev = j.pprev := by
  injection h

theorem core_height : i.nHeight = j.nHeight := by
  injection h

theorem core_trust : i.nChainTrust = j.nChainTrust := by
  injection h

theorem core_hash : i.hashBlock = j.hashBlock := by
  injection h

theorem core_place : i.nFile = j.nFile ∧ i.nBlockPos = j.nBlockPos := by
  injection h
  constructor <;> assumption

end

theorem same_tree_parent (h : SameTree m m') : m'.parentOf = m.parentOf := by
  funext k
  have hk := h k
  unfold BlockMap.parentOf
  cases hm : m k <;> cases hm' : m' k <;> simp only [hm, hm', Option.map_none, Option.map_some,
    Option.some_inj, reduceCtorEq] at hk
  · rfl
  · exact core_pprev hk

theorem same_tree_height (h : SameTree m m') : m'.heightOf = m.heightOf := by
  funext k
  have hk := h k
  unfold BlockMap.heightOf
  cases hm : m k <;> cases hm' : m' k <;> simp only [hm, hm', Option.map_none, Option.map_some,
    Option.some_inj, reduceCtorEq] at hk
  · rfl
  · exact core_height hk

theorem same_tree_path (h : SameTree m m') : m'.pathOf = m.pathOf := by
  unfold BlockMap.pathOf
  rw [same_tree_parent h, same_tree_height h]

theorem same_tree_tree (h : SameTree m m') (ht : Tree m) : Tree m' where
  keyed := by
    intro k i' hi'
    obtain ⟨i,hi,hc⟩ := same_tree_entry h hi'
    rw [core_hash hc, ht.keyed k i hi]
  nonneg := by
    intro k i' hi'
    obtain ⟨i,hi,hc⟩ := same_tree_entry h hi'
    rw [core_height hc]
    exact ht.nonneg k i hi
  step := by
    intro k i' p hi' hp
    obtain ⟨i,hi,hc⟩ := same_tree_entry h hi'
    rw [core_pprev hc] at hp
    obtain ⟨j,hj,hh⟩ := ht.step k i p hi hp
    obtain ⟨j',hj',hc'⟩ := same_tree_entry (same_tree_symm h) hj
    exact ⟨j',hj',by rw [core_height hc, hh, core_height hc']⟩

theorem set_pnext_entry (m : BlockMap) (p : Uint256) (v : Option Uint256) (h : Uint256) :
    m.setPnext p v h = (m h).map (fun i => { i with pnext := if h = p then v else i.pnext }) := by
  unfold BlockMap.setPnext
  cases hp : m p with
  | none =>
    by_cases hh : h = p
    · simp [hh, hp]
    · simp [hh]
  | some i =>
    simp only [Function.update_apply]
    by_cases hh : h = p
    · simp [hh, hp]
    · simp [hh]

def Relinked (f : Uint256 → Option Uint256 → Option Uint256) (m m' : BlockMap) : Prop :=
  ∀ h, m' h = (m h).map (fun i => { i with pnext := f h i.pnext })

theorem relinked_same {f : Uint256 → Option Uint256 → Option Uint256} (h : Relinked f m m') :
    SameTree m m' := by
  intro k
  rw [h k]
  cases m k <;> rfl

theorem set_parent_relinked (m : BlockMap) (c : Uint256) (v : Option Uint256) :
    Relinked (fun h x => if m.parentOf c = some h then v else x) m (m.setParentPnext c v) := by
  intro h
  unfold BlockMap.setParentPnext
  cases hp : m.parentOf c with
  | none => simp
  | some p =>
    simp only [set_pnext_entry, Option.some_inj]
    by_cases hh : h = p
    · simp [hh]
    · have hp : p ≠ h := fun he => hh he.symm
      simp [hh, hp]

theorem relinked_trans {f f' : Uint256 → Option Uint256 → Option Uint256} {m1 m2 m3 : BlockMap}
    (h : Relinked f m1 m2) (h' : Relinked f' m2 m3) : Relinked (fun k x => f' k (f k x)) m1 m3 := by
  intro k
  rw [h' k, h k, Option.map_map]
  rfl

theorem unlink_all_relinked (cs : List Uint256) (m : BlockMap) :
    ∃ f, Relinked f m (m.unlinkAll cs) := by
  induction cs generalizing m with
  | nil => exact ⟨fun _ x => x,fun h => by simp [BlockMap.unlinkAll]⟩
  | cons c cs ih =>
    obtain ⟨f,hf⟩ := ih (m.setParentPnext c none)
    exact ⟨_,relinked_trans (set_parent_relinked m c none) hf⟩

theorem link_all_relinked (cs : List Uint256) (m : BlockMap) :
    ∃ f, Relinked f m (m.linkAll cs) := by
  induction cs generalizing m with
  | nil => exact ⟨fun _ x => x,fun h => by simp [BlockMap.linkAll]⟩
  | cons c cs ih =>
    obtain ⟨f,hf⟩ := ih (m.setParentPnext c (some c))
    exact ⟨_,relinked_trans (set_parent_relinked m c (some c)) hf⟩

theorem switched_relinked (xs ys : List Uint256) (m : BlockMap) :
    ∃ f, Relinked f m ((m.unlinkAll xs).linkAll ys) := by
  obtain ⟨f,hf⟩ := unlink_all_relinked xs m
  obtain ⟨f',hf'⟩ := link_all_relinked ys (m.unlinkAll xs)
  exact ⟨_,relinked_trans hf hf'⟩

end SwippCore.ChainTree

namespace SwippCore.ChainOps
open Attempt ChainTree

variable (env : Env) (w : World)

structure Ready (st : ChainState) : Prop where
  best : st.pindexBest.isSome
  batch : st.txdb.pending.isSome

def Retotalled (T : Uint256 → Prop) (m m' : BlockMap) : Prop :=
  ∀ h, ∃ mint supply : CBlockIndex → ℤ,
    m' h = (m h).map (fun i => { i with nMint := mint i, nMoneySupply := supply i }) ∧
    (¬T h → m' h = m h)

variable (T : Uint256 → Prop)

theorem retotalled_refl (m : BlockMap) : Retotalled T m m :=
  fun h => ⟨CBlockIndex.nMint,CBlockIndex.nMoneySupply,by simp,fun _ => rfl⟩

theorem retotalled_trans {T : Uint256 → Prop} {m m' m'' : BlockMap} (h : Retotalled T m m')
    (h' : Retotalled T m' m'') : Retotalled T m m'' := by
  intro k
  obtain ⟨a,b,h1,hn⟩ := h k
  obtain ⟨c,d,h2,hn'⟩ := h' k
  refine ⟨fun i => c { i with nMint := a i, nMoneySupply := b i },
    fun i => d { i with nMint := a i, nMoneySupply := b i },?_,fun hk => (hn' hk).trans (hn hk)⟩
  rw [h2, h1, Option.map_map]
  rfl

theorem retotalled_same (m m' : BlockMap) (h : Retotalled T m m') : SameTree m m' := by
  intro k
  obtain ⟨a,b,h1,_⟩ := h k
  rw [h1]
  cases m k <;> rfl

theorem set_entry_retotalled (m : BlockMap) (h : Uint256) {i : CBlockIndex} (hi : m h = some i)
    (mint supply : ℤ) (T : Uint256 → Prop) (hT : T h) :
    Retotalled T m (Function.update m h (some { i with nMint := mint, nMoneySupply := supply })) := by
  intro k
  by_cases hk : k = h
  · subst hk
    exact ⟨fun _ => mint,fun _ => supply,by simp [hi],fun hn => absurd hT hn⟩
  · exact ⟨CBlockIndex.nMint,CBlockIndex.nMoneySupply,by simp [hk],fun _ => by simp [hk]⟩

structure SameGlobals (st st' : ChainState) : Prop where
  genesis : st'.pindexGenesisBlock = st.pindexGenesisBlock
  best : st'.pindexBest = st.pindexBest
  hash : st'.hashBestChain = st.hashBestChain
  height : st'.nBestHeight = st.nBestHeight
  trust : st'.nBestChainTrust = st.nBestChainTrust

theorem same_globals_refl (st : ChainState) : SameGlobals st st := ⟨rfl,rfl,rfl,rfl,rfl⟩

theorem same_globals_trans {a b c : ChainState} (h : SameGlobals a b) (h' : SameGlobals b c) :
    SameGlobals a c :=
  ⟨h'.genesis.trans h.genesis,h'.best.trans h.best,h'.hash.trans h.hash,
    h'.height.trans h.height,h'.trust.trans h.trust⟩

structure Worked (T : Uint256 → Prop) (st st' : ChainState) : Prop where
  ready : Ready st'
  entries : Retotalled T st.mapBlockIndex st'.mapBlockIndex
  globals : SameGlobals st st'
  invalid : st'.nBestInvalidTrust = st.nBestInvalidTrust
  mempool : st'.mempool = st.mempool
  committed : st'.txdb.committed = st.txdb.committed
  syncs : st.syncs <+: st'.syncs

def Works (T : Uint256 → Prop) (st st' : ChainState) : Prop := Ready st → Worked T st st'

theorem works_refl (st : ChainState) : Works T st st := fun hr =>
  ⟨hr,retotalled_refl T _,same_globals_refl st,rfl,rfl,rfl,List.prefix_rfl⟩

theorem works_trans (a b c : ChainState) (h : Works T a b) (h' : Works T b c) : Works T a c := by
  intro hr
  have h1 := h hr
  have h2 := h' h1.ready
  exact ⟨h2.ready,retotalled_trans h1.entries h2.entries,
    same_globals_trans h1.globals h2.globals,h2.invalid.trans h1.invalid,
    h2.mempool.trans h1.mempool,h2.committed.trans h1.committed,h1.syncs.trans h2.syncs⟩

def connected (h : Uint256) (b : CBlock) (i : CBlockIndex) (t : Totals) (s : Store)
    (st : ChainState) : ChainState :=
  { st.setEntry h (recordTotals (st.parentEntry i) t i) with
    txdb := st.txdb.modify (fun _ => s) }.syncAll b true

def disconnected (b : CBlock) (s : Store) (st : ChainState) : ChainState :=
  { st with txdb := st.txdb.modify (fun _ => s) }.syncAll b false

variable {st : ChainState}

theorem set_best_if_none (h : Uint256) (ctx : ConnectContext) (b : CBlock) (hr : Ready st) :
    setBestIfNone env w h ctx b st = st := by
  obtain ⟨tip,ht⟩ := Option.isSome_iff_exists.mp hr.best
  simp [setBestIfNone, ht]

theorem connected_worked {h : Uint256} (b : CBlock) {i : CBlockIndex} (t : Totals) (s : Store)
    (hi : st.mapBlockIndex h = some i) (hT : T h) : Works T st (connected h b i t s st) := by
  intro hr
  obtain ⟨hc,hp⟩ := Batched.committed_modify (fun _ => s) hr.batch
  exact ⟨⟨hr.best,hp⟩,set_entry_retotalled _ h hi _ _ T hT,⟨rfl,rfl,rfl,rfl,rfl⟩,rfl,rfl,hc,
    List.prefix_append _ _⟩

section
variable (h : Uint256) (b : CBlock)

theorem connect_step_ok (st' : ChainState) (hr : Ready st) :
    connectStep env w h b st = (st',.ok ()) ↔ ∃ i t s, st.mapBlockIndex h = some i ∧
      connectChecks env (connectContext w st h i) (w.ambient h) st.txdb.view b = .ok t ∧
      connectWrites env (connectContext w st h i) (st.parentEntry i) b
        (recordTotals (st.parentEntry i) t i) t st.txdb.view = .ok s ∧
      st' = connected h b i t s st := by
  unfold connectStep
  cases hi : st.mapBlockIndex h with
  | none => simp [fail]
  | some i =>
    simp only [set_best_if_none env w h _ b hr]
    constructor
    · intro hstep
      cases hc : connectChecks env (connectContext w st h i) (w.ambient h) st.txdb.view b with
      | error f => simp [hc, fail] at hstep
      | ok t =>
        cases hw : connectWrites env (connectContext w st h i) (st.parentEntry i) b
            (recordTotals (st.parentEntry i) t i) t st.txdb.view with
        | error f => simp [hc, hw, fail] at hstep
        | ok s =>
          simp only [hc, hw, done, Prod.mk.injEq, and_true] at hstep
          exact ⟨i,t,s,rfl,hc,hw,hstep.symm⟩
    · rintro ⟨i',t,s,hi',hc,hw,rfl⟩
      obtain rfl := Option.some_inj.mp hi'
      simp only [hc, hw]
      rfl

theorem connect_step_worked (st : ChainState) (hT : T h) :
    Works T st (connectStep env w h b st).1 := by
  intro hr
  unfold connectStep
  cases hi : st.mapBlockIndex h with
  | none => exact works_refl T st hr
  | some i =>
    simp only [set_best_if_none env w h _ b hr]
    cases connectChecks env (connectContext w st h i) (w.ambient h) st.txdb.view b with
    | error f => exact works_refl T st hr
    | ok t =>
      cases hw : connectWrites env (connectContext w st h i) (st.parentEntry i) b
          (recordTotals (st.parentEntry i) t i) t st.txdb.view with
      | error f =>
        simp only [hw, fail]
        exact ⟨⟨hr.best,hr.batch⟩,set_entry_retotalled _ h hi _ _ T hT,⟨rfl,rfl,rfl,rfl,rfl⟩,
          rfl,rfl,rfl,List.prefix_rfl⟩
      | ok s =>
        simp only [hw, done]
        exact connected_worked T b t s hi hT hr

theorem disconnect_step_ok (st st' : ChainState) :
    disconnectStep env h b st = (st',.ok ()) ↔ ∃ i s, st.mapBlockIndex h = some i ∧
      disconnectBlock env (st.parentEntry i) b st.txdb.view = .ok s ∧
      st' = disconnected b s st := by
  unfold disconnectStep
  cases hi : st.mapBlockIndex h with
  | none => simp [fail]
  | some i =>
    constructor
    · intro hstep
      cases hc : disconnectBlock env (st.parentEntry i) b st.txdb.view with
      | error f => simp [hc, fail] at hstep
      | ok s =>
        simp only [hc, done, Prod.mk.injEq, and_true] at hstep
        exact ⟨i,s,rfl,hc,hstep.symm⟩
    · rintro ⟨i',s,hi',hc,rfl⟩
      obtain rfl := Option.some_inj.mp hi'
      simp only [hc]
      rfl

end

theorem disconnected_worked (b : CBlock) (s : Store) (st : ChainState) :
    Works T st (disconnected b s st) := by
  intro hr
  obtain ⟨hc,hp⟩ := Batched.committed_modify (fun _ => s) hr.batch
  exact ⟨⟨hr.best,hp⟩,retotalled_refl T _,⟨rfl,rfl,rfl,rfl,rfl⟩,rfl,rfl,hc,
    List.prefix_append _ _⟩

theorem disconnect_step_worked (h : Uint256) (b : CBlock) (st : ChainState) :
    Works T st (disconnectStep env h b st).1 := by
  unfold disconnectStep
  cases st.mapBlockIndex h with
  | none => exact works_refl T st
  | some i =>
    dsimp only
    cases disconnectBlock env (st.parentEntry i) b st.txdb.view with
    | error f => exact works_refl T st
    | ok s => exact disconnected_worked T b s st

theorem read_hash {best : Best} {disk : Disk} {i : CBlockIndex} {b : CBlock}
    (h : readFromDisk env best disk i = some b) : env.hashBlock b = i.hashBlock := by
  unfold readFromDisk at h
  obtain ⟨b',_,h⟩ := Option.bind_eq_some_iff.mp h
  split_ifs at h with hp hh
  rw [← Option.some_inj.mp h, hh]

section Rounds
variable (T : Uint256 → Prop)

theorem disconnect_one_related (R : ChainState → ChainState → Prop) (h : Uint256)
    (x : ChainState × List CTransaction) (hrefl : R x.1 x.1)
    (hstep : ∀ b, R x.1 (disconnectStep env h b x.1).1) : R x.1 (disconnectOne env w h x).1.1 := by
  unfold disconnectOne
  cases x.1.mapBlockIndex h with
  | none => exact hrefl
  | some i =>
    dsimp only
    cases readFromDisk env x.1.best (w.disk h) i with
    | none => exact hrefl
    | some b =>
      have hb := hstep b
      dsimp only
      rcases hd : disconnectStep env h b x.1 with ⟨st,_ | _⟩ <;> rw [hd] at hb <;> exact hb

theorem connect_one_related (R : ChainState → ChainState → Prop) (h : Uint256)
    (x : ChainState × List CTransaction) (hrefl : R x.1 x.1)
    (hstep : ∀ b, R x.1 (connectStep env w h b x.1).1) : R x.1 (connectOne env w h x).1.1 := by
  unfold connectOne
  cases x.1.mapBlockIndex h with
  | none => exact hrefl
  | some i =>
    dsimp only
    cases readFromDisk env x.1.best (w.disk h) i with
    | none => exact hrefl
    | some b =>
      have hb := hstep b
      dsimp only
      rcases hd : connectStep env w h b x.1 with ⟨st,_ | _⟩ <;> rw [hd] at hb <;> exact hb

theorem disconnect_one_worked (h : Uint256) (x : ChainState × List CTransaction) :
    Works T x.1 (disconnectOne env w h x).1.1 :=
  disconnect_one_related env w (Works T) h x (works_refl T x.1)
    fun b => disconnect_step_worked env T h b x.1

theorem connect_one_worked (h : Uint256) (x : ChainState × List CTransaction) (hT : T h) :
    Works T x.1 (connectOne env w h x).1.1 :=
  connect_one_related env w (Works T) h x (works_refl T x.1)
    fun b => connect_step_worked env w T h b x.1 hT

section
variable (hs : List Uint256) (x : ChainState × List CTransaction)

theorem disconnect_all_worked :
    Works T x.1 (forAll (disconnectOne env w) hs x).1.1 :=
  for_all_fst (fun a b => Works T a.1 b.1) (fun a => works_refl T a.1)
    (fun a b c => works_trans T a.1 b.1 c.1) (disconnectOne env w)
    (fun h _ x => disconnect_one_worked env w T h x) x

theorem connect_all_worked
    (hT : ∀ h ∈ hs, T h) : Works T x.1 (forAll (connectOne env w) hs x).1.1 :=
  for_all_fst (fun a b => Works T a.1 b.1) (fun a => works_refl T a.1)
    (fun a b c => works_trans T a.1 b.1 c.1) (connectOne env w)
    (fun h hh x => connect_one_worked env w T h x (hT h hh)) x

end

end Rounds

section
variable {h : Uint256} {x y : ChainState × List CTransaction}

theorem disconnect_one_ok
    (hok : disconnectOne env w h x = (y,.ok ())) : ∃ i b, x.1.mapBlockIndex h = some i ∧
      readFromDisk env x.1.best (w.disk h) i = some b ∧
      disconnectStep env h b x.1 = (y.1,.ok ()) ∧ y.2 = resurrected env i b++x.2 := by
  unfold disconnectOne at hok
  cases hi : x.1.mapBlockIndex h with
  | none => simp [hi, fail] at hok
  | some i =>
    simp only [hi] at hok
    cases hread : readFromDisk env x.1.best (w.disk h) i with
    | none => simp [hread, fail] at hok
    | some b =>
      simp only [hread] at hok
      rcases hd : disconnectStep env h b x.1 with ⟨st,_ | _⟩
      · simp [hd, fail] at hok
      · simp only [hd, done, Prod.mk.injEq, and_true] at hok
        exact ⟨i,b,rfl,hread,by rw [← hok]; exact hd,by rw [← hok]⟩

theorem connect_one_ok
    (hok : connectOne env w h x = (y,.ok ())) : ∃ i b, x.1.mapBlockIndex h = some i ∧
      readFromDisk env x.1.best (w.disk h) i = some b ∧
      connectStep env w h b x.1 = (y.1,.ok ()) ∧ y.2 = x.2++b.vtx := by
  unfold connectOne at hok
  cases hi : x.1.mapBlockIndex h with
  | none => simp [hi, fail] at hok
  | some i =>
    simp only [hi] at hok
    cases hread : readFromDisk env x.1.best (w.disk h) i with
    | none => simp [hread, fail] at hok
    | some b =>
      simp only [hread] at hok
      rcases hd : connectStep env w h b x.1 with ⟨st,_ | _⟩
      · simp [hd, fail] at hok
      · simp only [hd, done, Prod.mk.injEq, and_true] at hok
        exact ⟨i,b,rfl,hread,by rw [← hok]; exact hd,by rw [← hok]⟩

end

end SwippCore.ChainOps
