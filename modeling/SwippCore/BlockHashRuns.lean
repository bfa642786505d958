import SwippCore.MasternodePayments

/-!
# Cached block hashes along a run

Questions to `GetBlockHash` between calls that add blocks and switch the best
chain. The answer is the block that the argument stood for when its entry was
filled. It is right exactly as long as that block is still the one meant.
-/

set_option autoImplicit false

namespace SwippCore.BlockHashRuns
open ChainTree ChainRuns BestEntry BlockHashCache Masternode
open MasternodeScores Histories

variable (env : Env)

/-- The questions of a run so far, and the chain that it has come to. A call may meet
anything and end in any way that leaves the process alive. -/
inductive Run : List Query → ChainState → Prop
  | start {w : World} {b : CBlock} {nFile nBlockPos : ℕ} {hashProof : Uint256} {st : ChainState}
      (first : env.hashBlock b = env.hashGenesisBlock)
      (added : addToBlockIndex env w b nFile nBlockPos hashProof .empty = (st,.ok ()))
      (best : st.pindexBest.isSome) : Run [] st
  | step {qs : List Query} {st st' : ChainState} {a : Action} {r : Except Failure Unit}
      (hr : Run qs st) (hcall : Called env a st) (h : act env a st = (st',r))
      (hlive : r ≠ .error .crash) : Run qs st'
  | ask {qs : List Query} {st : ChainState} (hr : Run qs st) (nBlockHeight : ℤ) :
      Run (qs++[⟨st,nBlockHeight⟩]) st

def cached : List Query → Cache → Cache
  | [], cache => cache
  | q::qs, cache => cached qs (getBlockHash q.st q.nBlockHeight cache).2

def Right (qs : List Query) (q : Query) : Prop :=
  ∀ hash, (getBlockHash q.st q.nBlockHeight (cached qs ∅)).1 = some hash →
    blockAt q.st (heightMeant q.st q.nBlockHeight) = some hash

/-- The block that first answered for this entry is still the one meant; where none
has answered yet, the argument is not negative. -/
def Current (qs : List Query) (q : Query) : Prop :=
  match Memo.firstAnswer Query.key Query.compute q.key qs with
  | some hash => blockAt q.st (heightMeant q.st q.nBlockHeight) = some hash
  | none => 0 ≤ q.nBlockHeight ∨ tipHeight q.st = 0

structure SameChain (st st' : ChainState) : Prop where
  height : tipHeight st = tipHeight st'
  blocks : ∀ k, blockAt st k = blockAt st' k

section Table
variable (qs : List Query) (hqs : ∀ q ∈ qs, Led q.st)
include hqs

theorem cached_eq (cache : Cache) :
    cached qs cache = Memo.askAll Query.key Query.compute qs cache := by
  induction qs generalizing cache with
  | nil => rfl
  | cons q qs ih =>
    have hq := hqs q List.mem_cons_self
    rw [cached, Memo.askAll, get_block_hash_eq hq.rooted q.nBlockHeight cache hq.best]
    exact ih (fun r hr => hqs r (List.mem_cons_of_mem q hr)) _

theorem answer_eq {q : Query} (hq : Led q.st) :
    (getBlockHash q.st q.nBlockHeight (cached qs ∅)).1 =
      (Memo.firstAnswer Query.key Query.compute q.key qs).or q.compute := by
  rw [get_block_hash_eq hq.rooted q.nBlockHeight _ hq.best, cached_eq qs hqs]
  exact Memo.answer_after Query.key Query.compute qs q ∅

end Table

section Meant
variable (st : ChainState)

theorem block_at_height {k : ℤ} {h : Uint256} (hk : blockAt st k = some h) :
    st.mapBlockIndex.heightOf h = k := by
  have := List.find?_some hk
  simpa using this

variable (hl : Led st)
include hl

theorem tip_found : ∃ best, st.pindexBest = some best ∧ 0 ≤ tipHeight st ∧
    st.mapBlockIndex.heightOf best = tipHeight st ∧ blockAt st (tipHeight st) = some best := by
  obtain ⟨best,hb⟩ := Option.isSome_iff_exists.mp hl.best
  have g := tree_graded hl.rooted.tree
  have hth : tipHeight st = st.mapBlockIndex.heightOf best := by simp [tipHeight, hb]
  refine ⟨best,hb,?_,hth.symm,?_⟩
  · rw [hth]
    exact g.nonneg best
  · rw [blockAt, mainChain, hb, Option.map_some, Option.getD_some, hth, BlockMap.pathOf]
    cases hp : st.mapBlockIndex.parentOf best with
    | none => simp [Ancestry.path_none _ _ hp]
    | some p => simp [Ancestry.path_some g hp]

theorem fresh_right (nBlockHeight : ℤ) :
    (∀ hash, standsFor st (keyOf st nBlockHeight) = some hash →
      blockAt st (heightMeant st nBlockHeight) = some hash) ↔
      0 ≤ nBlockHeight ∨ tipHeight st = 0 := by
  obtain ⟨best,_,hpos,hbest,htip⟩ := tip_found st hl
  by_cases h0 : nBlockHeight = 0
  · have hkey : keyOf st nBlockHeight = tipHeight st := if_pos h0
    have hmeant : heightMeant st nBlockHeight = tipHeight st-1 := by
      rw [heightMeant, if_neg (by omega), h0, Int.add_zero]
    rw [hkey, hmeant, standsFor]
    refine ⟨fun _ => Or.inl (by omega),fun _ hash hs => ?_⟩
    split_ifs at hs
    exact hs
  · have hkey : keyOf st nBlockHeight = nBlockHeight := if_neg h0
    rw [hkey]
    by_cases hneg : nBlockHeight < 0
    · have hmeant : heightMeant st nBlockHeight = tipHeight st+nBlockHeight-1 := if_neg (by omega)
      have hstands : standsFor st nBlockHeight =
          if 0 < tipHeight st then blockAt st (tipHeight st) else none := if_neg (by omega)
      rw [hmeant, hstands]
      constructor
      · intro h
        by_contra hn
        rw [if_pos (by omega)] at h
        have hh := block_at_height st (h best htip)
        omega
      · intro h hash hs
        rw [if_neg (by omega)] at hs
        cases hs
    · have hmeant : heightMeant st nBlockHeight = nBlockHeight-1 := if_pos (by omega)
      rw [hmeant, standsFor, if_pos (by omega)]
      refine ⟨fun _ => Or.inl (by omega),fun _ hash hs => ?_⟩
      split_ifs at hs
      exact hs

theorem stands_for_zero (hz : tipHeight st = 0) {nBlockHeight : ℤ} {hash : Uint256}
    (h : blockAt st (heightMeant st nBlockHeight) = some hash) : nBlockHeight = 1 := by
  obtain ⟨best,hb,_,hbest,_⟩ := tip_found st hl
  have hh := block_at_height st h
  have hle : st.mapBlockIndex.heightOf hash ≤ tipHeight st := by
    have hmem := List.mem_of_find?_eq_some h
    rw [mainChain, hb] at hmem
    rw [← hbest]
    exact (Ancestry.height_le (tree_graded hl.rooted.tree) hmem).1
  have hge := (tree_graded hl.rooted.tree).nonneg hash
  unfold heightMeant at hh
  split_ifs at hh <;> omega

end Meant

variable {qs : List Query}

theorem right_iff_current (hqs : ∀ q ∈ qs, Led q.st) {q : Query} (hq : Led q.st) :
    Right qs q ↔ Current qs q := by
  unfold Right Current
  rw [answer_eq qs hqs hq]
  cases Memo.firstAnswer Query.key Query.compute q.key qs with
  | some hash => simp
  | none => exact fresh_right q.st hq q.nBlockHeight

theorem first_answer_one (qs : List Query) :
    Memo.firstAnswer Query.key Query.compute 1 qs = none := by
  by_contra hne
  obtain ⟨hash,hf⟩ := Option.ne_none_iff_exists'.mp hne
  obtain ⟨q,_,hk,hc⟩ := Memo.first_answer_of _ _ hf
  rw [Query.compute, hk, standsFor, if_pos (by omega), if_neg (by omega)] at hc
  cases hc

def served (st : ChainState) (nBlockHeight : ℤ) : Option Uint256 :=
  if 0 ≤ nBlockHeight ∨ tipHeight st = 0 then standsFor st (keyOf st nBlockHeight)
  else blockAt st (heightMeant st nBlockHeight)

variable {st : ChainState}

theorem current_meant (hl : Led st) {nBlockHeight : ℤ} {hash : Uint256}
    (hn : 0 ≤ nBlockHeight ∨ tipHeight st = 0) (hone : keyOf st nBlockHeight ≠ 1)
    (h : blockAt st (heightMeant st nBlockHeight) = some hash) :
    standsFor st (keyOf st nBlockHeight) = some hash := by
  obtain ⟨_,_,hpos,_,_⟩ := tip_found st hl
  by_cases hz : tipHeight st = 0
  · have h1 := stands_for_zero st hl hz h
    exact absurd (by rw [keyOf, h1, if_neg (by omega)]) hone
  · have hge := hn.resolve_right hz
    by_cases h0 : nBlockHeight = 0
    · have hkey : keyOf st nBlockHeight = tipHeight st := if_pos h0
      rw [heightMeant, if_neg (by omega), h0, Int.add_zero] at h
      rw [hkey] at hone ⊢
      rw [standsFor, if_pos (by omega), if_pos (by omega)]
      exact h
    · have hkey : keyOf st nBlockHeight = nBlockHeight := if_neg h0
      rw [heightMeant, if_pos (by omega)] at h
      rw [hkey] at hone ⊢
      rw [standsFor, if_pos (by omega), if_pos (by omega)]
      exact h

theorem current_answer (hqs : ∀ q ∈ qs, Led q.st) {q : Query} (hq : Led q.st) (hc : Current qs q) :
    (getBlockHash q.st q.nBlockHeight (cached qs ∅)).1 = served q.st q.nBlockHeight := by
  rw [answer_eq qs hqs hq, served]
  unfold Current at hc
  cases hf : Memo.firstAnswer Query.key Query.compute q.key qs with
  | none =>
    rw [hf] at hc
    rw [if_pos hc]
    rfl
  | some hash =>
    rw [hf] at hc
    rw [Option.some_or]
    split_ifs with hn
    · refine (current_meant hq hn (fun hone => ?_) hc).symm
      rw [show q.key = 1 from hone, first_answer_one] at hf
      cases hf
    · exact hc.symm

theorem served_same {st' : ChainState} (h : SameChain st st') (nBlockHeight : ℤ) :
    served st nBlockHeight = served st' nBlockHeight := by
  have hb : blockAt st = blockAt st' := funext h.blocks
  unfold served standsFor keyOf heightMeant
  rw [hb, h.height]

section Scores
variable (sc : Scoring) (st : ChainState) (nBlockHeight : ℤ)

def scoresOver (hash : Option Uint256) : ℕ → List CMasterNode → List (ℕ × ℕ × CTxIn)
  | _, [] => []
  | i, mn::mns =>
    if eligible sc nBlockHeight mn then
      ((scoreWith sc mn.vin hash).toNat % 2^32,i,mn.vin)::scoresOver hash (i+1) mns
    else scoresOver hash (i+1) mns

theorem scores_from_eq (i : ℕ) (mns : List CMasterNode) (cache : Cache) :
    (scoresFrom sc st nBlockHeight i mns cache).1 =
      scoresOver sc nBlockHeight (getBlockHash st (int32 nBlockHeight) cache).1 i mns := by
  induction mns generalizing i cache with
  | nil => rfl
  | cons mn mns ih =>
    rw [scoresFrom, scoresOver]
    split_ifs
    · simp only [calculateScore, ih, get_block_hash_stable]
    · exact ih (i+1) cache

end Scores

structure SameScores (sc : Scoring) (vecMasternodes : List CMasterNode) (nBlockHeight : ℤ)
    (st st' : ChainState) (cache cache' : Cache) : Prop where
  score : ∀ vin, (calculateScore sc st vin nBlockHeight cache).1 =
    (calculateScore sc st' vin nBlockHeight cache').1
  rank : ∀ vin, getMasternodeRank sc st vecMasternodes nBlockHeight cache vin =
    getMasternodeRank sc st' vecMasternodes nBlockHeight cache' vin
  byRank : ∀ findRank, getMasternodeByRank sc st vecMasternodes nBlockHeight cache findRank =
    getMasternodeByRank sc st' vecMasternodes nBlockHeight cache' findRank
  current : getCurrentMasterNode sc st vecMasternodes nBlockHeight cache =
    getCurrentMasterNode sc st' vecMasternodes nBlockHeight cache'

theorem same_scores (sc : Scoring) (vecMasternodes : List CMasterNode) {nBlockHeight : ℤ}
    {st' : ChainState} {cache cache' : Cache}
    (h : (getBlockHash st (int32 nBlockHeight) cache).1 =
      (getBlockHash st' (int32 nBlockHeight) cache').1) :
    SameScores sc vecMasternodes nBlockHeight st st' cache cache' := by
  have hs : scores sc st vecMasternodes nBlockHeight cache =
      scores sc st' vecMasternodes nBlockHeight cache' := by
    rw [scores, scores, scores_from_eq sc st nBlockHeight, scores_from_eq sc st' nBlockHeight, h]
  refine ⟨fun vin => ?_,fun vin => ?_,fun findRank => ?_,?_⟩
  · simp only [calculateScore, h]
  · rw [getMasternodeRank, getMasternodeRank, hs]
  · rw [getMasternodeByRank, getMasternodeByRank, hs]
  · rw [getCurrentMasterNode, getCurrentMasterNode, hs]

theorem run_led (hr : Run env qs st) : (∀ q ∈ qs, Led q.st) ∧ Led st := by
  induction hr with
  | start first added best =>
    exact ⟨by simp,start_led env _ first added best⟩
  | step _ hcall h _ ih =>
    refine ⟨ih.1,?_⟩
    have hl := act_led env ih.2 hcall
    rw [h] at hl
    exact hl
  | ask _ nBlockHeight ih =>
    refine ⟨fun q hq => ?_,ih.2⟩
    rcases List.mem_append.mp hq with hq | hq
    · exact ih.1 q hq
    · rw [List.mem_singleton.mp hq]
      exact ih.2

/-- In a run every answer of `GetBlockHash` is right exactly when every question meets the
condition; and two nodes with the same main chain, both of whose questions meet it,
compute the same scores and ranks. -/
theorem answers_right_iff :
    (∀ qs st, Run env qs st → (Each Right qs ↔ Each Current qs)) ∧
    ∀ (sc : Scoring) (vecMasternodes : List CMasterNode) (nBlockHeight : ℤ)
      (qs qs' : List Query) (st st' : ChainState), Run env qs st → Run env qs' st' →
      SameChain st st' → Current qs ⟨st,int32 nBlockHeight⟩ → Current qs' ⟨st',int32 nBlockHeight⟩ →
      SameScores sc vecMasternodes nBlockHeight st st' (cached qs ∅) (cached qs' ∅) := by
  constructor
  · intro qs st hr
    have hled := (run_led env hr).1
    have hiff : ∀ pre q, pre++[q] <+: qs → (Right pre q ↔ Current pre q) := by
      intro pre q hpre
      refine right_iff_current (fun r hr => hled r (hpre.subset ?_)) (hled q (hpre.subset ?_))
      · exact List.mem_append_left _ hr
      · simp
    exact ⟨fun h pre q hpre => (hiff pre q hpre).mp (h pre q hpre),
      fun h pre q hpre => (hiff pre q hpre).mpr (h pre q hpre)⟩
  · intro sc vecMasternodes nBlockHeight qs qs' st st' hr hr' hsame hc hc'
    obtain ⟨hqs,hl⟩ := run_led env hr
    obtain ⟨hqs',hl'⟩ := run_led env hr'
    refine same_scores sc vecMasternodes ?_
    rw [current_answer hqs hl hc,
      current_answer hqs' hl' hc', served_same hsame]

section Replay

inductive Event where
  | call (a : Action)
  | ask (nBlockHeight : ℤ)

def replayed : Event → List Query × ChainState → Option (List Query × ChainState)
  | .call a, x => (play env a x.2).map (fun st => (x.1,st))
  | .ask nBlockHeight, x => some (x.1++[⟨x.2,nBlockHeight⟩],x.2)

def replay : List Event → List Query × ChainState → Option (List Query × ChainState)
  | [], x => some x
  | e::es, x => (replayed env e x).bind (replay es)

theorem replayed_run {e : Event} {x y : List Query × ChainState} (hr : Run env x.1 x.2)
    (h : replayed env e x = some y) : Run env y.1 y.2 := by
  cases e with
  | ask nBlockHeight =>
    cases h
    exact .ask hr nBlockHeight
  | call a =>
    obtain ⟨st,hp,rfl⟩ := Option.map_eq_some_iff.mp h
    rw [play, Option.ite_none_right_eq_some, Bool.and_eq_true, Option.some_inj] at hp
    obtain ⟨⟨hcalled,hlive⟩,rfl⟩ := hp
    refine .step (r := (act env a x.2).2) hr (called_ok env hcalled) rfl (fun he => ?_)
    rw [he] at hlive
    cases hlive

theorem replay_run {es : List Event} (x y : List Query × ChainState) (hr : Run env x.1 x.2)
    (h : replay env es x = some y) : Run env y.1 y.2 := by
  induction es generalizing x with
  | nil => exact Option.some_inj.mp h ▸ hr
  | cons e es ih =>
    obtain ⟨z,hz,h⟩ := Option.bind_eq_some_iff.mp h
    exact ih z (replayed_run env hr hz) h

theorem first_run : Run sampleEnv [] firstState := by
  have hok : (addToBlockIndex sampleEnv (readable []) (mined 1 0 0) 1 1 0 .empty).2 = .ok () := by
    decide +kernel
  refine .start (w := readable []) (b := mined 1 0 0) rfl (Prod.ext rfl hok) ?_
  decide +kernel

def forkEvents : List Event :=
  let call b := Event.call (addMined [mined 1 0 0,mined 2 1 5,mined 3 1 5,mined 4 3 5] b)
  [call (mined 2 1 5),.ask 2,call (mined 3 1 5),call (mined 4 3 5)]

end Replay

/-- After a reorganisation the hash of the block that was disconnected is still served. -/
theorem reorganised_hash_is_stale : ¬ ∀ env qs st, Run env qs st → Each Right qs := by
  intro h
  have hrun : (replay sampleEnv forkEvents ([],firstState)).any (fun x =>
      (getBlockHash x.2 2 (cached x.1 ∅)).1 == some 2 && blockAt x.2 1 == some 3) = true := by
    decide +kernel
  obtain ⟨⟨qs,st⟩,hx,hlast⟩ := (Option.any_eq_true _ _).mp hrun
  have hr := replay_run sampleEnv _ _ first_run hx
  have hright := h sampleEnv (qs++[⟨st,2⟩]) st (.ask hr 2) qs ⟨st,2⟩ (List.prefix_refl _)
  rw [Bool.and_eq_true, beq_iff_eq, beq_iff_eq] at hlast
  have hthree := hright 2 hlast.1
  rw [show heightMeant st 2 = 1 from rfl, hlast.2] at hthree
  exact absurd hthree (by decide)

end SwippCore.BlockHashRuns
