import SwippCore.BestChain
import SwippCore.ForkSearch

/-!
# Blocks by height

The links to the next block, and the cached search by height that follows them.
-/

set_option autoImplicit false

namespace SwippCore.NextLinks
open Attempt Ancestry ChainTree ChainOps ChainRollback ChainMoves
open ChainRuns BestChain

structure Chained (m : BlockMap) (tip : Uint256) : Prop where
  tree : Tree m
  entry : (m tip).isSome = true
  next : ∀ h i c, m h = some i → (i.pnext = some c ↔ c ∈ m.pathOf tip ∧ m.parentOf c = some h)

/-- In a run in which the postponed blocks of each call are connected, the chain of the best
block can be followed in both directions after every call. -/
theorem run_chained {env : Env} {st : ChainState} (h : Reachable env (Meets env .none) st) :
    ∃ tip, Crowned st tip ∧ Described env st tip ∧ Chained st.mapBlockIndex tip := by
  obtain ⟨tip,hc,hd⟩ := run_invariant env .none (Described env) (started_described env .none)
    (described_move env .none) h
  refine ⟨tip,hc,hd,hc.standing.tree,hc.standing.entry,?_⟩
  intro k i c hi
  rw [hd.links k i hi]
  exact next_on_iff _ hc.standing.tree

end SwippCore.NextLinks

/-! ## Finding a block by its height -/

namespace SwippCore.HeightCache
open Attempt Ancestry ChainTree ChainOps ChainRollback ChainMoves ChainRuns
open BestChain NextLinks ForkSearch

/-- The chain and the static `pblockindexFBBHLast`. -/
structure Finder where
  chain : ChainState
  pblockindexFBBHLast : Option Uint256

def nextOf (m : BlockMap) (h : Uint256) : Option Uint256 := (m h).bind CBlockIndex.pnext

def forward (m : BlockMap) (nHeight : ℤ) : ℕ → Uint256 → Option Uint256
  | 0, h => if m.heightOf h < nHeight then none else some h
  | k+1, h => if m.heightOf h < nHeight then (nextOf m h).bind (forward m nHeight k) else some h

def startBlock (nHeight : ℤ) (s : Finder) : Option Uint256 :=
  let m := s.chain.mapBlockIndex
  (if nHeight < s.chain.nBestHeight.tdiv 2 then s.chain.pindexGenesisBlock
    else s.chain.pindexBest).map fun pblockindex =>
      match s.pblockindexFBBHLast with
      | none => pblockindex
      | some last =>
        if |nHeight-m.heightOf last| < |nHeight-m.heightOf pblockindex| then last else pblockindex

/-- `FindBlockByHeight`; the fuel bounds the steps of each loop. -/
def findBlockByHeight (fuel : ℕ) (nHeight : ℤ) (s : Finder) : Option (Uint256 × Finder) :=
  let m := s.chain.mapBlockIndex
  (startBlock nHeight s).bind fun pblockindex =>
    (climb m.parentOf m.heightOf nHeight fuel pblockindex).bind fun pblockindex =>
      (forward m nHeight fuel pblockindex).map fun pblockindex =>
        (pblockindex,{ s with pblockindexFBBHLast := some pblockindex })

section Search
variable {m : BlockMap} {tip : Uint256} (hc : Chained m tip)
include hc

theorem next_of_iff (h c : Uint256) :
    nextOf m h = some c ↔ c ∈ m.pathOf tip ∧ m.parentOf c = some h := by
  unfold nextOf
  constructor
  · intro hn
    obtain ⟨i,hi,hin⟩ := Option.bind_eq_some_iff.mp hn
    exact (hc.next h i c hi).mp hin
  · rintro ⟨hmem,hp⟩
    obtain ⟨j,hj,hjp⟩ := (parent_of_some m c h).mp hp
    obtain ⟨i,hi,-⟩ := hc.tree.step c j h hj hjp
    exact Option.bind_eq_some_iff.mpr ⟨i,hi,(hc.next h i c hi).mpr ⟨hmem,hp⟩⟩

theorem forward_level {nHeight : ℤ} (htip : nHeight ≤ m.heightOf tip) (k : ℕ) (h : Uint256)
    (hmem : h ∈ m.pathOf tip) (hle : m.heightOf h ≤ nHeight)
    (hk : (nHeight-m.heightOf h).toNat ≤ k) :
    ∃ c, forward m nHeight k h = some c ∧ c ∈ m.pathOf tip ∧ m.heightOf c = nHeight := by
  have g := tree_graded hc.tree
  induction k generalizing h with
  | zero => exact ⟨h,by rw [forward, if_neg (by omega)],hmem,by omega⟩
  | succ k ih =>
    rw [forward]
    split_ifs with hlt
    · rcases (mem_path_child g tip h).mp hmem with rfl | ⟨c,hcm,hp⟩
      · omega
      · have hs := g.step c h hp
        rw [(next_of_iff hc h c).mpr ⟨hcm,hp⟩]
        exact ih c hcm (by omega) (by omega)
    · exact ⟨h,rfl,hmem,by omega⟩

theorem forward_mem {nHeight : ℤ} {k : ℕ} (h c : Uint256) (hmem : h ∈ m.pathOf tip)
    (hf : forward m nHeight k h = some c) : c ∈ m.pathOf tip := by
  induction k generalizing h with
  | zero =>
    rw [forward] at hf
    split_ifs at hf
    exact Option.some.inj hf ▸ hmem
  | succ k ih =>
    rw [forward] at hf
    split_ifs at hf
    · obtain ⟨d,hd,hf⟩ := Option.bind_eq_some_iff.mp hf
      exact ih d ((next_of_iff hc h d).mp hd).1 hf
    · exact Option.some.inj hf ▸ hmem

end Search

theorem search_level {m : BlockMap} {tip first start : Uint256} (hc : Chained m tip)
    (hfirst : first ∈ m.pathOf tip) (hzero : m.heightOf first = 0) (hstart : start ∈ m.pathOf tip)
    {nHeight : ℤ} (hpos : 0 ≤ nHeight) (htip : nHeight ≤ m.heightOf tip) (fuel : ℕ)
    (hfuel : (m.heightOf tip).toNat ≤ fuel) :
    ∃ c, (climb m.parentOf m.heightOf nHeight fuel start).bind (forward m nHeight fuel) = some c ∧
      c ∈ m.pathOf tip ∧ m.heightOf c = nHeight := by
  have g := tree_graded hc.tree
  have hle := (height_le g hstart).1
  have hbelow : first ∈ m.pathOf start :=
    path_below g hfirst hstart (by rw [hzero]; exact g.nonneg start)
  obtain ⟨d,hd,hdl⟩ := climb_level g nHeight fuel start (by omega) hbelow (by omega)
  obtain ⟨hdmem,hdle,-⟩ := climb_spec g start hd
  have hdtip := path_trans g hstart hdmem
  obtain ⟨c,hcf,hcm,hch⟩ := forward_level hc htip fuel d hdtip hdle
    (by have := g.nonneg d; omega)
  exact ⟨c,by rw [hd]; exact hcf,hcm,hch⟩

def Finds (st : ChainState) (last : Option Uint256) : Prop :=
  ∀ nHeight, 0 ≤ nHeight → nHeight ≤ st.nBestHeight → ∃ tip b, st.pindexBest = some tip ∧
    b ∈ st.mapBlockIndex.pathOf tip ∧ st.mapBlockIndex.heightOf b = nHeight ∧
    ∀ fuel, st.nBestHeight.toNat ≤ fuel →
      findBlockByHeight fuel nHeight ⟨st,last⟩ = some (b,⟨st,some b⟩)

structure Kept (env : Env) (st : ChainState) (tip : Uint256) (last : Option Uint256) : Prop where
  crowned : Crowned st tip
  described : Described env st tip
  chained : Chained st.mapBlockIndex tip
  treed : Treed st tip
  last : ∀ h, last = some h → h ∈ st.mapBlockIndex.pathOf tip

section Kept
variable {env : Env} {st : ChainState} {tip : Uint256} {last : Option Uint256}
variable (hk : Kept env st tip last)
include hk

theorem kept_first : ∃ first, st.pindexGenesisBlock = some first ∧
    first ∈ st.mapBlockIndex.pathOf tip ∧ st.mapBlockIndex.heightOf first = 0 := by
  obtain ⟨first,hfirst,hroot⟩ := path_root (tree_graded hk.crowned.standing.tree) tip
  have hgen := hk.described.root first hfirst hroot
  obtain ⟨genesis,hgenesis,ht⟩ := hk.treed
  rw [hgen] at hgenesis
  obtain rfl := Option.some.inj hgenesis
  exact ⟨first,hgen,hfirst,ht.zero⟩

theorem start_mem (nHeight : ℤ) : ∃ start, startBlock nHeight ⟨st,last⟩ = some start ∧
    start ∈ st.mapBlockIndex.pathOf tip := by
  have hpick : ∃ p, (if nHeight < st.nBestHeight.tdiv 2 then st.pindexGenesisBlock
      else st.pindexBest) = some p ∧ p ∈ st.mapBlockIndex.pathOf tip := by
    split_ifs
    · obtain ⟨first,hgen,hfirst,-⟩ := kept_first hk
      exact ⟨first,hgen,hfirst⟩
    · exact ⟨tip,hk.crowned.best,self_mem (tree_graded hk.crowned.standing.tree) tip⟩
  obtain ⟨p,hp,hmem⟩ := hpick
  unfold startBlock
  simp only [hp, Option.map_some]
  cases hlast : last with
  | none => exact ⟨p,rfl,hmem⟩
  | some h =>
    dsimp only
    split_ifs
    · exact ⟨h,rfl,hk.last h hlast⟩
    · exact ⟨p,rfl,hmem⟩

theorem kept_finds : Finds st last := by
  have g := tree_graded hk.crowned.standing.tree
  intro nHeight hpos hle
  obtain ⟨first,-,hfirst,hzero⟩ := kept_first hk
  obtain ⟨start,hs,hmem⟩ := start_mem hk nHeight
  have hsearch := search_level hk.chained hfirst hzero hmem
    hpos (by rw [hk.crowned.height]; exact hle)
  obtain ⟨b,-,hbm,hbh⟩ := hsearch _ (Nat.le_refl _)
  refine ⟨tip,b,hk.crowned.best,hbm,hbh,?_⟩
  intro fuel hfuel
  obtain ⟨c,hcf,hcm,hch⟩ := hsearch fuel (by rw [hk.crowned.height]; exact hfuel)
  rw [path_same_level g hbm hcm (by rw [hbh, hch])]
  unfold findBlockByHeight
  rw [hs, Option.bind_some]
  obtain ⟨d,hd1,hd2⟩ := Option.bind_eq_some_iff.mp hcf
  simp only [hd1, Option.bind_some, hd2, Option.map_some]

theorem found_mem {fuel : ℕ} {nHeight : ℤ} {b : Uint256} {s : Finder}
    (h : findBlockByHeight fuel nHeight ⟨st,last⟩ = some (b,s)) :
    s.pblockindexFBBHLast = some b ∧ b ∈ st.mapBlockIndex.pathOf tip := by
  have g := tree_graded hk.crowned.standing.tree
  obtain ⟨start,hs,hmem⟩ := start_mem hk nHeight
  unfold findBlockByHeight at h
  rw [hs, Option.bind_some] at h
  obtain ⟨c,hc,h⟩ := Option.bind_eq_some_iff.mp h
  obtain ⟨d,hd,h⟩ := Option.map_eq_some_iff.mp h
  obtain ⟨rfl,rfl⟩ := Prod.mk.inj h
  have hcm := path_trans g hmem (climb_spec g start hc).1
  exact ⟨rfl,forward_mem hk.chained c d hcm hd⟩

end Kept

section Runs
variable (env : Env)

/-- The static after `SetBestChain`: it is dropped where a block becomes the best one. -/
def keptBySet (w : World) (b : CBlock) (st : ChainState) (last : Option Uint256) : Option Uint256 :=
  match setBestChain env w b st with
  | (_,.ok _) => none
  | (_,.error _) => last

def kept (a : Action) (st : ChainState) (last : Option Uint256) : Option Uint256 :=
  match a with
  | .set w b => keptBySet env w b st last
  | .accept _ _ _ => last
  | .add w b nFile nBlockPos hashProof =>
    match indexBlock env w b nFile nBlockPos hashProof st with
    | (_,.error _) => last
    | (st1,.ok _) =>
      match st1.mapBlockIndex (env.hashBlock b) with
      | none => last
      | some i => if st1.nBestChainTrust < i.nChainTrust then keptBySet env w b st1 last else last

variable (cond : Action → ChainState → Prop)

inductive Reached : ChainState → Option Uint256 → Prop
  | start {st : ChainState} {w : World} {b : CBlock} {nFile nBlockPos : ℕ} {hashProof : Uint256}
      (first : env.hashBlock b = env.hashGenesisBlock)
      (hcond : cond (.add w b nFile nBlockPos hashProof) .empty)
      (added : addToBlockIndex env w b nFile nBlockPos hashProof .empty = (st,.ok ()))
      (best : st.pindexBest.isSome) : Reached st none
  | step {st st' : ChainState} {last : Option Uint256} {a : Action} {r : Except Failure Unit}
      (hr : Reached st last) (hcall : Called env a st) (hcond : cond a st)
      (h : act env a st = (st',r)) (hlive : r ≠ .error .crash) : Reached st' (kept env a st last)
  | find {st : ChainState} {last : Option Uint256} {fuel : ℕ} {nHeight : ℤ} {b : Uint256}
      {s : Finder} (hr : Reached st last) (hlow : 0 ≤ nHeight) (hhigh : nHeight ≤ st.nBestHeight)
      (h : findBlockByHeight fuel nHeight ⟨st,last⟩ = some (b,s)) :
      Reached st s.pblockindexFBBHLast

theorem kept_none (a : Action) (st : ChainState) : kept env a st none = none := by
  have hset : ∀ w b st, keptBySet env w b st none = none := by
    intro w b st
    unfold keptBySet
    split <;> rfl
  cases a with
  | set w b => exact hset w b st
  | accept w fLimitFree tx => rfl
  | add w b nFile nBlockPos hashProof =>
    simp only [kept]
    split
    · rfl
    · split
      · rfl
      · split_ifs
        · exact hset _ _ _
        · rfl

variable {st : ChainState}

theorem reachable_reached (h : Reachable env cond st) : Reached env cond st none := by
  induction h with
  | start first hcond added best => exact .start first hcond added best
  | @step st st' a r hr hcall hcond h hlive ih =>
    have hstep := Reached.step ih hcall hcond h hlive
    rwa [kept_none env a st] at hstep

variable {last : Option Uint256}

theorem reached_reachable (h : Reached env cond st last) : Reachable env cond st := by
  induction h with
  | start first hcond added best => exact .start first hcond added best
  | step _ hcall hcond h hlive ih => exact .step ih hcall hcond h hlive
  | find _ _ _ _ ih => exact ih

def OnChain (st : ChainState) (last : Option Uint256) : Prop :=
  ∀ h, last = some h → ∃ tip, st.pindexBest = some tip ∧ h ∈ st.mapBlockIndex.pathOf tip

theorem on_chain_none (st : ChainState) : OnChain st none := fun h hn => by cases hn

theorem on_chain_same {st' : ChainState} (hm : SameTree st.mapBlockIndex st'.mapBlockIndex)
    (hb : st'.pindexBest = st.pindexBest) (h : OnChain st last) : OnChain st' last := by
  intro k hk
  obtain ⟨tip,htip,hmem⟩ := h k hk
  exact ⟨tip,by rw [hb, htip],by rw [same_tree_path hm]; exact hmem⟩

variable (G : Guards)

variable {tip : Uint256} {r : Except Failure Unit}

theorem set_kept {w : World} {b : CBlock} {st' : ChainState} (hc : Crowned st tip)
    (hb : Entered env st.mapBlockIndex b) (hm : CallMeets env w G b st)
    (h : setBestChain env w b st = (st',r)) (hlive : r ≠ .error .crash) (hon : OnChain st last) :
    OnChain st' (keptBySet env w b st last) := by
  unfold keptBySet
  rw [h]
  cases r with
  | ok u => exact on_chain_none st'
  | error f =>
    rcases set_best_chain_error env w b st st' hc hb
      (fun hp st2 => call_quiet env G w b st st2 f hc.standing.genesis hm hp) h with rfl | hu
    · exact absurd rfl hlive
    · exact on_chain_same (retotalled_same _ _ _ hu.entries) hu.globals.best hon

theorem filed_on_chain {w : World} {b : CBlock} {nFile nBlockPos : ℕ} {hashProof : Uint256}
    {st1 : ChainState} (hc : Crowned st tip) (hprev : (st.mapBlockIndex b.hashPrevBlock).isSome)
    (h : indexBlock env w b nFile nBlockPos hashProof st = (st1,r)) (hon : OnChain st last) :
    OnChain st1 last := by
  rcases index_block_cases env w h with
    ⟨rfl,_⟩ | ⟨hnew,x,rfl,_⟩
  · exact hon
  · intro k hk
    obtain ⟨t,ht,hmem⟩ := hon k hk
    refine ⟨t,ht,?_⟩
    have hentry : (st.mapBlockIndex t).isSome = true := by
      rw [hc.best] at ht
      rw [← Option.some.inj ht]
      exact hc.standing.entry
    have hpath := @filed_path env b nFile nBlockPos hashProof x _ hc.standing.tree hnew hprev t hentry
    exact hpath.symm ▸ hmem

theorem act_kept {a : Action} {st' : ChainState} (hc : Crowned st tip) (hcall : Called env a st)
    (hg : Meets env G a st) (h : act env a st = (st',r)) (hlive : r ≠ .error .crash)
    (hon : OnChain st last) : OnChain st' (kept env a st last) := by
  cases a with
  | set w b => exact set_kept env G hc hcall hg h hlive hon
  | accept w fLimitFree tx =>
    have hpool := accept_step_pooled env w fLimitFree tx st
    rw [show acceptStep env w fLimitFree tx st = (st',r) from h] at hpool
    exact on_chain_same (by rw [hpool.entries]; exact same_tree_refl _)
      hpool.globals.best hon
  | add w b nFile nBlockPos hashProof =>
    obtain ⟨hfile,hmeets⟩ := hg
    simp only [act, addToBlockIndex] at h
    rcases hi : indexBlock env w b nFile nBlockPos hashProof st with ⟨st1,r1⟩
    have hc1 := file_crowned env G hc hcall hfile hi
    have hon1 := filed_on_chain env hc hcall hi hon
    rw [hi] at h
    cases r1 with
    | error f =>
      simp only [andThen, Prod.mk.injEq] at h
      simp only [kept, hi]
      exact h.1 ▸ hon1
    | ok u =>
      simp only [andThen] at h
      rcases index_block_cases env w hi with
        ⟨_,hne⟩ | ⟨hnew,x,hst1,_⟩
      · exact absurd rfl hne
      have hb : Entered env st1.mapBlockIndex b := by
        rw [hst1]
        exact entered_entered env nFile nBlockPos hashProof x _ hcall
      obtain ⟨i,hself⟩ := Option.isSome_iff_exists.mp hb.entry
      simp only [hself] at h
      simp only [kept, hi, hself]
      split_ifs at h ⊢ with htrust
      · exact set_kept env G hc1 hb (hmeets st1 i hi hself htrust) h hlive
          hon1
      · simp only [done, Prod.mk.injEq] at h
        exact h.1 ▸ hon1

theorem kept_of_on_chain (hreach : Reachable env (Meets env .none) st) (hon : OnChain st last) :
    ∃ tip, Kept env st tip last := by
  obtain ⟨tip,hc,hd,hchain⟩ := run_chained hreach
  obtain ⟨_,_,htree⟩ := run_treed env .none hreach
  refine ⟨tip,hc,hd,hchain,htree,?_⟩
  intro k hk
  obtain ⟨t,ht,hmem⟩ := hon k hk
  rw [hc.best] at ht
  rw [Option.some.inj ht]
  exact hmem

theorem reached_on_chain (h : Reached env (Meets env .none) st last) : OnChain st last := by
  induction h with
  | start => exact on_chain_none _
  | @step st st' last a r hr hcall hcond h hlive ih =>
    obtain ⟨tip,hk⟩ := kept_of_on_chain env (reached_reachable env _ hr) ih
    exact act_kept env .none hk.crowned hcall hcond h hlive ih
  | @find st last fuel nHeight b s hr hlow hhigh h ih =>
    obtain ⟨tip,hk⟩ := kept_of_on_chain env (reached_reachable env _ hr) ih
    obtain ⟨hs,hmem⟩ := found_mem hk h
    intro k hkeep
    rw [hs] at hkeep
    rw [← Option.some.inj hkeep]
    exact ⟨tip,hk.crowned.best,hmem⟩

/-- In every run in which the postponed blocks of each call are connected, every height of
the main chain is found after every call and every search. -/
theorem reached_finds (st : ChainState) (last : Option Uint256)
    (h : Reached env (Meets env .none) st last) : Finds st last := by
  obtain ⟨tip,hk⟩ := kept_of_on_chain env (reached_reachable env _ h)
    (reached_on_chain env h)
  exact kept_finds hk

end Runs

section Samples

/-- A search in the middle of a run that switches to a longer branch. -/
theorem found_after_switch : ∃ st last, Reached sampleEnv (Meets sampleEnv .none) st last ∧
    last = some 3 ∧ Finds st last := by
  let calls := [addMined [] (mined 2 1 10),addMined [] (mined 3 1 10),
    addMined rereadable (mined 4 3 10)]
  have hrun : (playAll sampleEnv (postponesNone sampleEnv) calls firstState).any (fun st =>
      decide (1 ≤ st.nBestHeight) && ((findBlockByHeight 2 1 ⟨st,none⟩).map fun r =>
        r.2.pblockindexFBBHLast) == some (some 3)) = true := by decide +kernel
  obtain ⟨st,hst,hlast⟩ := (Option.any_eq_true _ _).mp hrun
  have hr := play_all_reachable sampleEnv (Meets sampleEnv .none)
    (postpones_none_meets sampleEnv)
    (first_reachable _ (empty_meets sampleEnv .none _ _ trivial)) hst
  rw [Bool.and_eq_true, decide_eq_true_eq, beq_iff_eq, Option.map_eq_some_iff] at hlast
  obtain ⟨hheight,⟨b,s⟩,hfind,hkept⟩ := hlast
  have hreached := Reached.find (reachable_reached sampleEnv _ hr) (by decide) hheight hfind
  exact ⟨st,_,hreached,hkept,reached_finds sampleEnv st _ hreached⟩

def longBranch : List CBlock :=
  [mined 2 1 10,mined 3 1 10,mined 4 3 10,mined 5 4 4000000,mined 6 5 10,mined 7 6 10]

def longCalls : List Action :=
  (longBranch.take 5).map (addMined [])++[addMined longBranch (mined 7 6 10)]

/-- The node switches to block 4 only, and makes block 7 the best one. After a search for
height 2 the one for height 3 starts at block 4, from where no link leads on. -/
theorem refused_branch_not_found : ¬ ∀ (env : Env) (st : ChainState) (last : Option Uint256),
    Reached env (fun _ _ => True) st last → Finds st last := by
  intro h
  have hrun : (playAll sampleEnv (fun _ _ => true) longCalls firstState).any (fun st =>
      decide (st.nBestHeight = 5) && ((findBlockByHeight 5 2 ⟨st,none⟩).map fun r =>
        r.2.pblockindexFBBHLast) == some (some 4) &&
        ((findBlockByHeight 5 3 ⟨st,some 4⟩).map Prod.fst).isNone) = true := by decide +kernel
  obtain ⟨st,hst,hlast⟩ := (Option.any_eq_true _ _).mp hrun
  have hr := play_all_reachable sampleEnv (fun _ _ => True) (fun _ _ _ => trivial)
    (first_reachable _ trivial) hst
  rw [Bool.and_eq_true, Bool.and_eq_true, decide_eq_true_eq, beq_iff_eq, Option.map_eq_some_iff,
    Option.isNone_iff_eq_none] at hlast
  obtain ⟨⟨hheight,⟨b,s⟩,hfind,hkept⟩,hnone⟩ := hlast
  have hreached := Reached.find (reachable_reached sampleEnv _ hr) (by decide)
    (by rw [hheight]; decide) hfind
  rw [show s.pblockindexFBBHLast = some 4 from hkept] at hreached
  obtain ⟨_,c,_,_,_,hfound⟩ := h sampleEnv st (some 4) hreached 3 (by decide)
    (by rw [hheight]; decide)
  rw [hfound 5 (by rw [hheight]; decide)] at hnone
  cases hnone

end Samples

end SwippCore.HeightCache
