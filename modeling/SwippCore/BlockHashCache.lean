import SwippCore.ChainRuns

/-!
# Hashes of earlier blocks

The best entry, and the remembered hashes of blocks below it.
-/

set_option autoImplicit false

namespace SwippCore.BestEntry
open Attempt Ancestry ChainTree ChainOps ChainRollback ChainMoves ChainRuns

variable (env : Env) (w : World)

structure Keeps (st st' : ChainState) : Prop where
  tree : SameTree st.mapBlockIndex st'.mapBlockIndex
  best : ∀ h, st'.pindexBest = some h → st.pindexBest = some h ∨ (st.mapBlockIndex h).isSome
  led : st.pindexBest.isSome → st'.pindexBest.isSome

theorem keeps_refl (st : ChainState) : Keeps st st := ⟨same_tree_refl _,fun _ h => Or.inl h,id⟩

theorem keeps_trans (a b c : ChainState) (h : Keeps a b) (h' : Keeps b c) : Keeps a c := by
  refine ⟨same_tree_trans h.tree h'.tree,?_,fun hs => h'.led (h.led hs)⟩
  intro k hk
  rcases h'.best k hk with hb | he
  · exact h.best k hb
  · rw [same_entry h.tree k] at he
    exact Or.inr he

variable {st st' : ChainState}

theorem keeps_same (hm : st'.mapBlockIndex = st.mapBlockIndex)
    (hb : st'.pindexBest = st.pindexBest) : Keeps st st' := by
  exact ⟨by rw [hm]; exact same_tree_refl _,fun h hh => Or.inl (hb ▸ hh),fun h => by rwa [hb]⟩

theorem pooled_keeps (h : Pooled st st') : Keeps st st' :=
  keeps_same h.entries h.globals.best

section Steps
variable (h : Uint256) (b : CBlock) (st : ChainState)

theorem set_best_keeps (ctx : ConnectContext) (hi : (st.mapBlockIndex h).isSome) :
    Keeps st (setBestIfNone env w h ctx b st) := by
  unfold setBestIfNone
  dsimp only
  split
  · refine ⟨same_tree_refl _,fun k hk => ?_,fun _ => rfl⟩
    cases hk
    exact Or.inr hi
  · exact keeps_refl st

theorem set_entry_keeps {i : CBlockIndex} (hi : st.mapBlockIndex h = some i) (mint supply : ℤ) :
    Keeps st (st.setEntry h { i with nMint := mint, nMoneySupply := supply }) :=
  ⟨retotalled_same (fun _ => True) _ _
    (set_entry_retotalled st.mapBlockIndex h hi mint supply _ trivial),fun _ hk => Or.inl hk,id⟩

theorem connect_step_keeps : Keeps st (connectStep env w h b st).1 := by
  unfold connectStep
  cases hi : st.mapBlockIndex h with
  | none => exact keeps_refl st
  | some i =>
    dsimp only
    have hset := set_best_keeps env w h b st (connectContext w st h i) (by rw [hi]; rfl)
    cases connectChecks env (connectContext w st h i) (w.ambient h) st.txdb.view b with
    | error f => exact hset
    | ok t =>
      have hsame : (setBestIfNone env w h (connectContext w st h i) b st).mapBlockIndex h =
          some i := by
        unfold setBestIfNone
        dsimp only
        split <;> exact hi
      have hentry := set_entry_keeps h _ hsame (nMint t)
        ((((st.parentEntry i).map CBlockIndex.nMoneySupply).getD 0)+nSupplyAdded t)
      have hall := keeps_trans _ _ _ hset hentry
      dsimp only
      split
      · exact hall
      · exact keeps_trans _ _ _ hall (keeps_same rfl rfl)

theorem disconnect_step_keeps : Keeps st (disconnectStep env h b st).1 := by
  unfold disconnectStep
  split
  · exact keeps_refl st
  · split
    · exact keeps_refl st
    · exact keeps_same rfl rfl

theorem invalid_chain_found_keeps : Keeps st (invalidChainFound h st).1 := by
  unfold invalidChainFound
  split
  · exact keeps_refl st
  · dsimp only
    split_ifs <;> split
    all_goals first
      | split_ifs <;> exact keeps_same rfl rfl
      | exact keeps_same rfl rfl

theorem adopt_block_keeps : Keeps st (adoptBlock env h b st).1 := by
  have hp := adopt_block_pooled env h b st
  exact ⟨adopt_block_same env h b st,fun k hk => Or.inl (by rwa [hp.globals.best] at hk),
    fun hs => by rwa [hp.globals.best]⟩

theorem set_best_chain_inner_keeps : Keeps st (setBestChainInner env w h b st).1 := by
  have hstep := connect_step_keeps env w h b st
  unfold setBestChainInner
  rcases hc : connectStep env w h b st with ⟨st1,f | _⟩
  · rw [hc] at hstep
    cases f with
    | error n text =>
      refine keeps_trans _ _ _ hstep ?_
      exact and_then_fst Keeps keeps_trans _ _ _
        (keeps_trans _ st1.abort _ (keeps_same rfl rfl) (invalid_chain_found_keeps h _))
        (fun t => keeps_refl t)
    | throw text => exact hstep
    | crash => exact hstep
  · rw [hc] at hstep
    have hcom : Keeps st ((st1.writeHashBestChain h).commit (w.commitOk h)) :=
      keeps_trans _ _ _ hstep (keeps_same rfl rfl)
    dsimp only
    split_ifs
    · exact keeps_trans _ _ _ hcom (adopt_block_keeps env h b _)
    · exact hcom

end Steps

section Switch

theorem disconnect_one_keeps (h : Uint256) (x : ChainState × List CTransaction) :
    Keeps x.1 (disconnectOne env w h x).1.1 :=
  disconnect_one_related env w Keeps h x (keeps_refl x.1)
    fun b => disconnect_step_keeps env h b x.1

theorem connect_one_keeps (h : Uint256) (x : ChainState × List CTransaction) :
    Keeps x.1 (connectOne env w h x).1.1 :=
  connect_one_related env w Keeps h x (keeps_refl x.1)
    fun b => connect_step_keeps env w h b x.1

theorem rounds_keep (f : Uint256 → ChainState × List CTransaction →
      Result (ChainState × List CTransaction) Failure)
    (hf : ∀ h x, Keeps x.1 (f h x).1.1) (hs : List Uint256) (x : ChainState × List CTransaction) :
    Keeps x.1 (forAll f hs x).1.1 :=
  for_all_fst (fun a b => Keeps a.1 b.1) (fun a => keeps_refl a.1)
    (fun a b c => keeps_trans a.1 b.1 c.1) f (fun h _ x => hf h x) x

theorem adopt_branch_keeps (xs ys : List Uint256) (res del : List CTransaction) (st : ChainState) :
    Keeps st (adoptBranch env w xs ys res del st).1 := by
  have hp := adopt_branch_pooled env w xs ys res del st
  exact ⟨adopt_branch_same env w xs ys res del st,
    fun k hk => Or.inl (by rwa [hp.globals.best] at hk),fun hs => by rwa [hp.globals.best]⟩

theorem switch_branches_keeps (hNew : Uint256) (xs ys : List Uint256) (st : ChainState) :
    Keeps st (switchBranches env w hNew xs ys st).1 := by
  have hdown := rounds_keep _ (disconnect_one_keeps env w) xs (st,[])
  unfold switchBranches
  rcases hd : forAll (disconnectOne env w) xs (st,[]) with ⟨⟨st1,res⟩,f | _⟩
  · rw [hd] at hdown
    exact hdown
  · rw [hd] at hdown
    have hup := rounds_keep _ (connect_one_keeps env w) ys (st1,[])
    dsimp only
    rcases hc : forAll (connectOne env w) ys (st1,[]) with ⟨⟨st2,del⟩,f | _⟩
    · rw [hc] at hup
      exact keeps_trans _ _ _ hdown hup
    · rw [hc] at hup
      have hcom : Keeps st ((st2.writeHashBestChain hNew).commit (w.commitOk hNew)) :=
        keeps_trans _ _ _ (keeps_trans _ _ _ hdown hup) (keeps_same rfl rfl)
      dsimp only
      split_ifs
      · exact keeps_trans _ _ _ hcom (adopt_branch_keeps env w xs ys res del _)
      · exact hcom

theorem reorganize_keeps (hNew : Uint256) (st : ChainState) :
    Keeps st (reorganize env w hNew st).1 := by
  unfold reorganize
  split
  · exact keeps_refl st
  · split
    · exact keeps_refl st
    · exact switch_branches_keeps env w hNew _ _ st

theorem connect_postponed_keeps (hs : List Uint256) (st : ChainState) :
    Keeps st (connectPostponed env w hs st).1 := by
  induction hs generalizing st with
  | nil => exact keeps_refl st
  | cons h hs ih =>
    rw [connectPostponed]
    split
    · exact keeps_refl st
    · split
      · exact keeps_refl st
      · next b _ =>
        have hinner := keeps_trans st st.begin _ (keeps_same rfl rfl)
          (set_best_chain_inner_keeps env w h b st.begin)
        rcases hi : setBestChainInner env w h b st.begin with ⟨st1,f | _⟩
        · rw [hi] at hinner
          cases f <;> exact hinner
        · rw [hi] at hinner
          exact keeps_trans _ _ _ hinner (ih st1)

theorem switch_best_keeps (hash : Uint256) (st : ChainState) :
    Keeps st (switchBest env w hash st).1 := by
  unfold switchBest
  cases st.best.pindexBest with
  | none => exact keeps_refl st
  | some tip =>
    dsimp only
    rcases postpone st.mapBlockIndex tip.nChainTrust (st.mapBlockIndex.heightOf hash).toNat hash []
      with ⟨hs,hNew⟩
    have hswitch := reorganize_keeps env w hNew st
    dsimp only
    rcases hr : reorganize env w hNew st with ⟨st1,f | _⟩
    · rw [hr] at hswitch
      cases f with
      | error n text =>
        refine keeps_trans _ _ _ hswitch ?_
        exact and_then_fst Keeps keeps_trans _ _ _
          (keeps_trans _ st1.abort _ (keeps_same rfl rfl) (invalid_chain_found_keeps hash _))
          (fun t => keeps_refl t)
      | throw text => exact hswitch
      | crash => exact hswitch
    · rw [hr] at hswitch
      exact keeps_trans _ _ _ hswitch (connect_postponed_keeps env w hs st1)

theorem best_route_keeps (b : CBlock) (st : ChainState) : Keeps st (bestRoute env w b st).1 := by
  unfold bestRoute
  dsimp only
  split_ifs
  · exact keeps_same rfl rfl
  · exact keeps_same rfl rfl
  · have hinner := set_best_chain_inner_keeps env w (env.hashBlock b) b st
    rcases hi : setBestChainInner env w (env.hashBlock b) b st with ⟨st1,f | _⟩ <;>
      rw [hi] at hinner <;> exact hinner
  · exact switch_best_keeps env w (env.hashBlock b) st

theorem new_best_keeps (hash : Uint256) (st : ChainState) : Keeps st (newBest hash st).1 := by
  unfold newBest
  cases hi : st.mapBlockIndex hash with
  | none => exact keeps_refl st
  | some i =>
    refine ⟨same_tree_refl _,fun k hk => ?_,fun _ => rfl⟩
    cases hk
    exact Or.inr (by rw [hi]; rfl)

theorem set_best_chain_keeps (b : CBlock) (st : ChainState) :
    Keeps st (setBestChain env w b st).1 := by
  have hroute := keeps_trans st st.begin _ (keeps_same rfl rfl) (best_route_keeps env w b st.begin)
  unfold setBestChain
  rcases hr : bestRoute env w b st.begin with ⟨st1,f | _⟩
  · rw [hr] at hroute
    exact keeps_trans _ _ _ hroute (keeps_same rfl rfl)
  · rw [hr] at hroute
    exact keeps_trans _ _ _ hroute (new_best_keeps _ st1)

end Switch

structure Rooted (st : ChainState) : Prop where
  tree : Tree st.mapBlockIndex
  entry : ∀ best, st.pindexBest = some best → (st.mapBlockIndex best).isSome

theorem keeps_rooted (h : Keeps st st') (hr : Rooted st) : Rooted st' := by
  refine ⟨same_tree_tree h.tree hr.tree,?_⟩
  intro best hb
  rw [same_entry h.tree best]
  rcases h.best best hb with hb | he
  · exact hr.entry best hb
  · exact he

structure Led (st : ChainState) : Prop where
  rooted : Rooted st
  best : st.pindexBest.isSome

theorem keeps_led (h : Keeps st st') (hl : Led st) : Led st' :=
  ⟨keeps_rooted h hl.rooted,h.led hl.best⟩

theorem index_block_led {b : CBlock} {nFile nBlockPos : ℕ} {hashProof : Uint256}
    {r : Except Failure Unit} (hl : Led st) (hprev : (st.mapBlockIndex b.hashPrevBlock).isSome)
    (h : indexBlock env w b nFile nBlockPos hashProof st = (st',r)) : Led st' := by
  rcases index_block_cases env w h with
    ⟨rfl,_⟩ | ⟨hnew,m,rfl,_⟩
  · exact hl
  · refine ⟨⟨filed_tree env hl.rooted.tree hnew
      hprev,?_⟩,hl.best⟩
    intro best hb
    change (filed env b nFile nBlockPos hashProof m st.mapBlockIndex best).isSome
    by_cases hh : best = env.hashBlock b
    · simp [filed, hh]
    · rw [filed_other env best hh]
      exact hl.rooted.entry best hb

theorem act_led {a : Action} (hl : Led st) (hcall : Called env a st) : Led (act env a st).1 := by
  cases a with
  | set w b => exact keeps_led (set_best_chain_keeps env w b st) hl
  | accept w fLimitFree tx =>
    exact keeps_led (pooled_keeps (accept_step_pooled env w fLimitFree tx st)) hl
  | add w b nFile nBlockPos hashProof =>
    simp only [act, addToBlockIndex]
    rcases hi : indexBlock env w b nFile nBlockPos hashProof st with ⟨st1,f | _⟩
    · exact index_block_led env w hl hcall hi
    · have hl1 := index_block_led env w hl hcall hi
      dsimp only [andThen]
      split
      · exact hl1
      · split_ifs
        · exact keeps_led (set_best_chain_keeps env w b st1) hl1
        · exact hl1

theorem start_led {b : CBlock} {nFile nBlockPos : ℕ} {hashProof : Uint256}
    (hfirst : env.hashBlock b = env.hashGenesisBlock)
    (hadd : addToBlockIndex env w b nFile nBlockPos hashProof .empty = (st,.ok ()))
    (hbest : st.pindexBest.isSome) : Led st := by
  have hc := (start_started env .none hfirst trivial hadd hbest).crowned
  refine ⟨⟨hc.standing.tree,?_⟩,hbest⟩
  intro best hb
  rw [hc.best] at hb
  cases hb
  exact hc.standing.entry

end SwippCore.BestEntry

/-!
## Block hashes by height

`GetBlockHash` of masternode.cpp and its table `mapCacheBlockHashes`. The
argument is a height plus one; zero stands for the height of the best block,
and a negative number for the best block itself. The table is read before the
chain, under the argument, and nothing ever removes an entry from it.
-/

namespace SwippCore.BlockHashCache
open FinMap Ancestry ChainTree BestEntry

abbrev Cache := Dict ℤ Uint256

/-- The loop of `GetBlockHash`, over the best block and its ancestors. -/
def readBack (nBlocksAgo : ℤ) : ℤ → List CBlockIndex → Option Uint256
  | _, [] => none
  | n, i::is =>
    if i.nHeight ≤ 0 then none
    else if nBlocksAgo ≤ n then some i.hashBlock
    else readBack nBlocksAgo (n+1) is

/-- The part of `GetBlockHash` after the table: what is found from the best block back. -/
def searchBack (tip : CBlockIndex) (ancestors : List CBlockIndex) (nBlockHeight : ℤ) :
    Option Uint256 :=
  if tip.nHeight = 0 ∨ tip.nHeight+1 < nBlockHeight then none
  else readBack (if 0 < nBlockHeight then tip.nHeight+1-nBlockHeight else 0) 0 ancestors

/-- `GetBlockHash`, with the table after the call. -/
def getBlockHash (st : ChainState) (nBlockHeight : ℤ) (cache : Cache) : Option Uint256 × Cache :=
  match st.pindexBest with
  | none => (none,cache)
  | some best =>
    match st.mapBlockIndex best with
    | none => (none,cache)
    | some tip =>
      let nBlockHeight := if nBlockHeight = 0 then tip.nHeight else nBlockHeight
      match cache.lookup nBlockHeight with
      | some hash => (some hash,cache)
      | none =>
        match searchBack tip (st.ancestorsOf best) nBlockHeight with
        | none => (none,cache)
        | some hash => (some hash,cache.insert nBlockHeight hash)

section Chain
variable (st : ChainState)

def mainChain : List Uint256 := (st.pindexBest.map st.mapBlockIndex.pathOf).getD []

def tipHeight : ℤ := (st.pindexBest.map st.mapBlockIndex.heightOf).getD 0

def blockAt (k : ℤ) : Option Uint256 :=
  (mainChain st).find? (fun h => st.mapBlockIndex.heightOf h == k)

def heightMeant (nBlockHeight : ℤ) : ℤ :=
  if 0 < nBlockHeight then nBlockHeight-1 else tipHeight st+nBlockHeight-1

def keyOf (nBlockHeight : ℤ) : ℤ := if nBlockHeight = 0 then tipHeight st else nBlockHeight

/-- What an entry is filled with: the first block is never found, and below it there
is the best block. -/
def standsFor (key : ℤ) : Option Uint256 :=
  if 0 < key then if 1 < key then blockAt st (key-1) else none
  else if 0 < tipHeight st then blockAt st (tipHeight st) else none

end Chain

structure Query where
  st : ChainState
  nBlockHeight : ℤ

def Query.key (q : Query) : ℤ := keyOf q.st q.nBlockHeight

def Query.compute (q : Query) : Option Uint256 := standsFor q.st q.key

section Walk
variable (m : BlockMap)

variable {h : Uint256}

theorem path_of_some (ht : Tree m) {p : Uint256} (hp : m.parentOf h = some p) :
    m.pathOf h = h::m.pathOf p := path_some (tree_graded ht) hp

theorem path_of_none (hp : m.parentOf h = none) :
    m.pathOf h = [h] := path_none _ _ hp

theorem find_above (ht : Tree m) {k : ℤ} (hk : m.heightOf h < k) :
    (m.pathOf h).find? (fun x => m.heightOf x == k) = none := by
  rw [List.find?_eq_none]
  intro x hx he
  have hle := (height_le (tree_graded ht) hx).1
  rw [beq_iff_eq] at he
  omega

/-- The loop finds the block of the path that is the given number of blocks back, unless
that is the first one. -/
theorem read_back_eq (ht : Tree m) (i : CBlockIndex) (hi : m h = some i)
    (ago n : ℤ) (hn : n ≤ ago) :
    readBack ago n ((m.pathOf h).filterMap m) =
      if 0 < m.heightOf h-(ago-n) then
        (m.pathOf h).find? (fun x => m.heightOf x == m.heightOf h-(ago-n))
      else none := by
  induction h using up_induction (tree_graded ht) generalizing i n with
  | root h hp =>
    have hh := height_of_some m hi
    rw [path_of_none m hp, List.filterMap_cons, hi, List.filterMap_nil, readBack]
    by_cases hz : i.nHeight ≤ 0
    · rw [if_pos hz, if_neg (by omega)]
    · rw [if_neg hz]
      by_cases ha : ago ≤ n
      · have he : ago = n := Int.le_antisymm ha hn
        rw [if_pos ha, if_pos (by omega)]
        simp [he, ht.keyed h i hi]
      · rw [if_neg ha, readBack]
        have hne : m.heightOf h ≠ m.heightOf h-(ago-n) := by omega
        simp [hne]
  | up h p hp ih =>
    have hh := height_of_some m hi
    obtain ⟨i',hi',hpp⟩ := (parent_of_some m h p).mp hp
    rw [hi] at hi'
    cases hi'
    obtain ⟨j,hj,hstep⟩ := ht.step h i p hi hpp
    have hjp := height_of_some m hj
    have hjn := ht.nonneg p j hj
    rw [path_of_some m ht hp, List.filterMap_cons, hi, readBack, if_neg (by omega)]
    by_cases ha : ago ≤ n
    · have he : ago = n := Int.le_antisymm ha hn
      rw [if_pos ha, if_pos (by omega)]
      simp [he, ht.keyed h i hi]
    · have hk : m.heightOf h-(ago-n) = m.heightOf p-(ago-(n+1)) := by omega
      have hne : (m.heightOf h == m.heightOf p-(ago-(n+1))) = false := by
        rw [beq_eq_false_iff_ne]
        omega
      rw [if_neg ha, ih j hj (n+1) (by omega), hk, List.find?_cons, hne]

end Walk

section Tip
variable (st : ChainState) (best : Uint256) (tip : CBlockIndex)

theorem tip_height (hb : st.pindexBest = some best) (ht : st.mapBlockIndex best = some tip) :
    tipHeight st = tip.nHeight := by
  rw [tipHeight, hb, Option.map_some, Option.getD_some, height_of_some _ ht]

theorem search_back_eq (hr : Rooted st) (hb : st.pindexBest = some best)
    (ht : st.mapBlockIndex best = some tip) (key : ℤ) :
    searchBack tip (st.ancestorsOf best) key = standsFor st key := by
  have hth := tip_height st best tip hb ht
  have hpos := hr.tree.nonneg best tip ht
  have hh := height_of_some _ ht
  have hat : ∀ k, blockAt st k =
      (st.mapBlockIndex.pathOf best).find? (fun h => st.mapBlockIndex.heightOf h == k) := by
    intro k
    rw [blockAt, mainChain, hb]
    rfl
  unfold searchBack standsFor
  rw [hth, hat, hat]
  by_cases h0 : tip.nHeight = 0
  · rw [if_pos (Or.inl h0)]
    by_cases hk : 1 < key
    · rw [if_pos (by omega), if_pos hk, find_above _ hr.tree (by omega)]
    · simp [h0, hk]
  · by_cases ha : tip.nHeight+1 < key
    · rw [if_pos (Or.inr ha), if_pos (by omega), if_pos (by omega),
        find_above _ hr.tree (by omega)]
    · have hago : (0 : ℤ) ≤ if 0 < key then tip.nHeight+1-key else 0 := by split_ifs <;> omega
      rw [if_neg (by omega), ChainState.ancestorsOf,
        read_back_eq st.mapBlockIndex hr.tree tip ht _ 0 hago, hh]
      by_cases hk : 0 < key
      · have he : tip.nHeight-(tip.nHeight+1-key-0) = key-1 := by omega
        simp only [if_pos hk, he]
        by_cases h1 : 1 < key
        · rw [if_pos (by omega), if_pos h1]
        · rw [if_neg (by omega), if_neg h1]
      · simp only [if_neg hk]
        rw [if_pos (by omega), if_pos (by omega)]
        simp

end Tip

theorem get_block_hash_memo {st : ChainState} {best : Uint256} {tip : CBlockIndex}
    (hb : st.pindexBest = some best) (ht : st.mapBlockIndex best = some tip) (nBlockHeight : ℤ)
    (cache : Cache) :
    getBlockHash st nBlockHeight cache = Memo.ask (fun h : ℤ => if h = 0 then tip.nHeight else h)
      (fun h => searchBack tip (st.ancestorsOf best) (if h = 0 then tip.nHeight else h))
      nBlockHeight cache := by
  simp only [getBlockHash, hb, ht, Memo.ask]
  generalize (if nBlockHeight = 0 then tip.nHeight else nBlockHeight) = key
  cases cache.lookup key with
  | some hash => rfl
  | none => cases searchBack tip (st.ancestorsOf best) key <;> rfl

theorem get_block_hash_stable (st : ChainState) (nBlockHeight other : ℤ) (cache : Cache) :
    (getBlockHash st nBlockHeight (getBlockHash st other cache).2).1 =
      (getBlockHash st nBlockHeight cache).1 := by
  cases hb : st.pindexBest with
  | none => simp only [getBlockHash, hb]
  | some best =>
    cases ht : st.mapBlockIndex best with
    | none => simp only [getBlockHash, hb, ht]
    | some tip =>
      rw [get_block_hash_memo hb ht, get_block_hash_memo hb ht,
        get_block_hash_memo hb ht]
      refine Memo.answer_stable _ _ [other] nBlockHeight cache (fun r _ hk => ?_)
      exact congrArg (searchBack tip (st.ancestorsOf best)) hk

theorem get_block_hash_eq {st : ChainState} (hr : Rooted st) (nBlockHeight : ℤ) (cache : Cache)
    (hbest : st.pindexBest.isSome) :
    getBlockHash st nBlockHeight cache = Memo.ask Query.key Query.compute ⟨st,nBlockHeight⟩ cache := by
  obtain ⟨best,hb⟩ := Option.isSome_iff_exists.mp hbest
  obtain ⟨tip,ht⟩ := Option.isSome_iff_exists.mp (hr.entry best hb)
  have hkey : (if nBlockHeight = 0 then tip.nHeight else nBlockHeight) =
      Query.key ⟨st,nBlockHeight⟩ := by
    rw [Query.key, keyOf, tip_height st best tip hb ht]
  rw [get_block_hash_memo hb ht]
  refine Memo.ask_congr _ _ Query.key Query.compute cache hkey ?_
  exact (congrArg _ hkey).trans (search_back_eq st best tip hr hb ht _)

end SwippCore.BlockHashCache
