import SwippCore.BlockHashRuns
import SwippCore.Lib.Ranking

/-!
# The three rankings of the masternodes

`GetMasternodeRank` and `GetMasternodeByRank` sort the scores, each with its own
comparator, and `GetCurrentMasterNode` keeps the highest one of a pass. All three
compare the low 32 bits. Where these differ and are not zero, the rankings are one.
-/

set_option autoImplicit false

namespace SwippCore.MasternodeRanks
open Masternode MasternodeScores BlockHashCache BlockHashRuns Ranking

/-- `std::sort` over the reversed list, which compares the scores alone. -/
structure Sorts (sort : List (ℕ × ℕ × CTxIn) → List (ℕ × ℕ × CTxIn)) : Prop where
  perm : ∀ ss, (sort ss).Perm ss
  descending : ∀ ss, Descending Prod.fst (sort ss)

section Moments
variable (amb : Ambience) (st : ChainState)

def PartlyChecked (mns mns' : List CMasterNode) : Prop :=
  List.Forall₂ (fun mn mn' => mn' = mn ∨ mn' = mn.check amb) mns mns'

def askedFor : List ℤ → Cache → Cache
  | [], cache => cache
  | h::hs, cache => askedFor hs (getBlockHash st h cache).2

structure Later (mns mns' : List CMasterNode) (cache cache' : Cache) : Prop where
  entries : PartlyChecked amb mns mns'
  asked : ∃ hs, cache' = askedFor st hs cache

theorem check_again (mn : CMasterNode) : (mn.check amb).check amb = mn.check amb := by
  unfold CMasterNode.check CMasterNode.updatedWithin
  split_ifs <;> simp_all

theorem asked_for_stable (hs : List ℤ) (cache : Cache) (nBlockHeight : ℤ) :
    (getBlockHash st nBlockHeight (askedFor st hs cache)).1 =
      (getBlockHash st nBlockHeight cache).1 := by
  induction hs generalizing cache with
  | nil => rfl
  | cons h hs ih => rw [askedFor, ih, get_block_hash_stable]

end Moments

section Scores
variable (sc : Scoring) (nBlockHeight : ℤ)

def scored (hash : Option Uint256) (x : CMasterNode × ℕ) : ℕ × ℕ × CTxIn :=
  ((scoreWith sc x.1.vin hash).toNat % 2^32,x.2,x.1.vin)

theorem scores_over_eq (hash : Option Uint256) (i : ℕ) (mns : List CMasterNode) :
    scoresOver sc nBlockHeight hash i mns =
      ((mns.zipIdx i).filter (fun x => eligible sc nBlockHeight x.1)).map (scored sc hash) := by
  induction mns generalizing i with
  | nil => rfl
  | cons mn mns ih =>
    rw [scoresOver, List.zipIdx_cons]
    by_cases he : eligible sc nBlockHeight mn
    · rw [if_pos he, ih, List.filter_cons_of_pos (by exact he)]
      rfl
    · rw [if_neg he, ih, List.filter_cons_of_neg (by exact he)]

@[simp] theorem check_version (mn : CMasterNode) :
    (mn.check sc.amb).protocolVersion = mn.protocolVersion := by
  unfold CMasterNode.check
  split_ifs <;> rfl

theorem eligible_check (mn : CMasterNode) :
    eligible sc nBlockHeight (mn.check sc.amb) = eligible sc nBlockHeight mn := by
  simp only [eligible, check_version, check_again]

variable {mns : List CMasterNode}

theorem scores_over_checked (hash : Option Uint256) (i : ℕ) {mns' : List CMasterNode}
    (h : PartlyChecked sc.amb mns mns') :
    scoresOver sc nBlockHeight hash i mns' = scoresOver sc nBlockHeight hash i mns := by
  induction h generalizing i with
  | nil => rfl
  | cons hmn _ ih =>
    rcases hmn with rfl | rfl
    · simp only [scoresOver, ih]
    · simp only [scoresOver, ih, eligible_check, CMasterNode.check_vin]

variable (st : ChainState)

theorem scores_eq (mns : List CMasterNode) (cache : Cache) :
    scores sc st mns nBlockHeight cache =
      ((mns.zipIdx).filter (fun x => eligible sc nBlockHeight x.1)).map
        (scored sc (getBlockHash st (int32 nBlockHeight) cache).1) := by
  rw [scores, scores_from_eq sc st nBlockHeight, scores_over_eq]

theorem scores_vin (mns : List CMasterNode) (cache : Cache) {β : Type} (f : CTxIn → β) :
    (scores sc st mns nBlockHeight cache).map (fun s => f s.2.2) =
      (mns.filter (eligible sc nBlockHeight)).map (fun mn => f mn.vin) := by
  have hmns : mns = (mns.zipIdx).map Prod.fst := (List.zipIdx_map_fst 0 mns).symm
  rw [scores_eq, List.map_map]
  conv_rhs => rw [hmns, List.filter_map, List.map_map]
  rfl

theorem scores_later {mns' : List CMasterNode} {cache cache' : Cache}
    (h : Later sc.amb st mns mns' cache cache') :
    scores sc st mns' nBlockHeight cache' = scores sc st mns nBlockHeight cache := by
  obtain ⟨hs,rfl⟩ := h.asked
  rw [scores, scores, scores_from_eq sc st nBlockHeight, scores_from_eq sc st nBlockHeight,
    asked_for_stable, scores_over_checked sc nBlockHeight _ 0 h.entries]

structure Distinct (mns : List CMasterNode) (cache : Cache) : Prop where
  apart : Apart Prod.fst (scores sc st mns nBlockHeight cache)
  nonzero : ∀ s ∈ scores sc st mns nBlockHeight cache, s.1 ≠ 0

theorem vin_apart {cache : Cache} (h : Distinct sc nBlockHeight st mns cache) {s t : ℕ × ℕ × CTxIn}
    (hs : s ∈ scores sc st mns nBlockHeight cache) (ht : t ∈ scores sc st mns nBlockHeight cache)
    (hv : s.2.2 = t.2.2) : s = t := by
  apply apart_same Prod.fst h.apart hs ht
  rw [scores_eq] at hs ht
  obtain ⟨x,_,rfl⟩ := List.mem_map.mp hs
  obtain ⟨y,_,rfl⟩ := List.mem_map.mp ht
  have hv : x.1.vin = y.1.vin := hv
  simp only [scored, hv]

end Scores

section Ranks
variable (sc : Scoring) (st : ChainState) (nBlockHeight : ℤ) (mns : List CMasterNode)
  (cache : Cache)

def ranking : List (ℕ × ℕ × CTxIn) := sc.sortScores (scores sc st mns nBlockHeight cache)

theorem best_score_highest (ss : List (ℕ × ℕ × CTxIn)) (score : ℕ)
    (found : Option (ℕ × ℕ × CTxIn)) :
    bestScore ss score ((found.map (fun s => (s.2.1 : ℤ))).getD (-1)) =
      ((highest Prod.fst ss score found).map (fun s => (s.2.1 : ℤ))).getD (-1) := by
  induction ss generalizing score found with
  | nil => rfl
  | cons s ss ih =>
    rw [bestScore, highest]
    split_ifs
    · exact ih s.1 (some s)
    · exact ih score found

theorem by_rank_place (k : ℕ) :
    getMasternodeByRank sc st mns nBlockHeight cache (k+1) =
      (((ranking sc st nBlockHeight mns cache)[k]?).map (fun s => (s.2.1 : ℤ))).getD (-1) := by
  rw [getMasternodeByRank, if_neg (by omega), Int.add_sub_cancel, Int.toNat_natCast]
  unfold ranking
  cases (sc.sortScores (scores sc st mns nBlockHeight cache))[k]? <;> rfl

variable (hsort : Sorts sc.sortScores) (hd : Distinct sc nBlockHeight st mns cache)
include hsort hd

theorem rank_place {k : ℕ} {s : ℕ × ℕ × CTxIn}
    (hk : (ranking sc st nBlockHeight mns cache)[k]? = some s) :
    getMasternodeRank sc st mns nBlockHeight cache s.2.2 = k+1 := by
  have hperm := hsort.perm (scores sc st mns nBlockHeight cache)
  have hfind : (ranking sc st nBlockHeight mns cache).findIdx? (fun t => t.2.2 == s.2.2) =
      some k := by
    apply find_place _ hk
    · intro t ht
      rw [beq_iff_eq]
      constructor
      · exact vin_apart sc nBlockHeight st hd (hperm.subset ht)
          (hperm.subset (List.mem_of_getElem? hk))
      · rintro rfl
        rfl
    · exact hperm.symm.nodup (apart_nodup Prod.fst hd.apart)
  rw [ranking] at hfind
  rw [getMasternodeRank, hfind]

theorem current_first :
    getCurrentMasterNode sc st mns nBlockHeight cache =
      getMasternodeByRank sc st mns nBlockHeight cache 1 := by
  have hhead := highest_head Prod.fst
    (hsort.perm _).symm hd.apart (hsort.descending _)
    (fun s hs => Nat.pos_of_ne_zero (hd.nonzero s hs))
  have hbest := best_score_highest (scores sc st mns nBlockHeight cache) 0 none
  rw [hhead, List.head?_eq_getElem?] at hbest
  exact hbest.trans (by_rank_place sc st nBlockHeight mns cache 0).symm

/-- The ranks of those that take part, in the order of the list, are 1 to n in some order. -/
theorem ranks_dense :
    ((mns.filter (eligible sc nBlockHeight)).map
      (fun mn => getMasternodeRank sc st mns nBlockHeight cache mn.vin)).Perm
    ((List.range (mns.filter (eligible sc nBlockHeight)).length).map (fun k : ℕ => (k:ℤ)+1)) := by
  have hperm := hsort.perm (scores sc st mns nBlockHeight cache)
  have hplaces : (ranking sc st nBlockHeight mns cache).map
      (fun s => getMasternodeRank sc st mns nBlockHeight cache s.2.2) =
      (List.range (ranking sc st nBlockHeight mns cache).length).map (fun k : ℕ => (k:ℤ)+1) := by
    apply List.ext_getElem
    · simp
    · intro k hk _
      rw [List.length_map] at hk
      rw [List.getElem_map, List.getElem_map, List.getElem_range]
      exact rank_place sc st nBlockHeight mns cache hsort hd (List.getElem?_eq_getElem hk)
  have hlength : (ranking sc st nBlockHeight mns cache).length =
      (mns.filter (eligible sc nBlockHeight)).length := by
    have hvin := congrArg List.length (scores_vin sc nBlockHeight st mns cache id)
    rw [List.length_map, List.length_map] at hvin
    exact hperm.length_eq.trans hvin
  rw [← hlength, ← hplaces, ← scores_vin sc nBlockHeight st mns cache
    (getMasternodeRank sc st mns nBlockHeight cache)]
  exact (hperm.map _).symm

end Ranks

section Agreement
variable (sc : Scoring) (sort' : List (ℕ × ℕ × CTxIn) → List (ℕ × ℕ × CTxIn)) (st : ChainState)
  (nBlockHeight : ℤ) (mns mns₁ mns₂ : List CMasterNode) (cache cache₁ cache₂ : Cache)

/-- The rankings agree, where `GetMasternodeByRank` has a sort of its own and is called
at another moment than the other two. -/
structure Agree : Prop where
  inverse : ∀ (i : ℕ) mn, mns[i]? = some mn → eligible sc nBlockHeight mn = true →
    getMasternodeByRank { sc with sortScores := sort' } st mns₂ nBlockHeight cache₂
      (getMasternodeRank sc st mns₁ nBlockHeight cache₁ mn.vin) = i
  dense : ((mns.filter (eligible sc nBlockHeight)).map
      (fun mn => getMasternodeRank sc st mns₁ nBlockHeight cache₁ mn.vin)).Perm
    ((List.range (mns.filter (eligible sc nBlockHeight)).length).map (fun k : ℕ => (k:ℤ)+1))
  current : getCurrentMasterNode sc st mns₁ nBlockHeight cache₁ =
    getMasternodeByRank { sc with sortScores := sort' } st mns₂ nBlockHeight cache₂ 1

theorem scores_any_sort :
    scores { sc with sortScores := sort' } st mns nBlockHeight cache =
      scores sc st mns nBlockHeight cache := by
  rw [scores_eq, scores_eq]
  rfl

theorem ranking_unique (hsort : Sorts sc.sortScores) (hsort' : Sorts sort')
    (hd : Distinct sc nBlockHeight st mns cache) :
    ranking { sc with sortScores := sort' } st nBlockHeight mns cache =
      ranking sc st nBlockHeight mns cache := by
  have hperm := hsort.perm (scores sc st mns nBlockHeight cache)
  rw [ranking, ranking, scores_any_sort]
  apply descending_unique Prod.fst
  · exact (hsort'.perm _).trans hperm.symm
  · exact apart_perm Prod.fst (hsort'.perm _).symm hd.apart
  · exact hsort'.descending _
  · exact hsort.descending _

/-- Where the low 32 bits of the scores differ and none is zero, the three rankings agree,
at whatever moments of a run on one chain they are asked. -/
theorem ranks_agree (hsort : Sorts sc.sortScores) (hsort' : Sorts sort')
    (hd : Distinct sc nBlockHeight st mns cache)
    (h₁ : Later sc.amb st mns mns₁ cache cache₁) (h₂ : Later sc.amb st mns mns₂ cache cache₂) :
    Agree sc sort' st nBlockHeight mns mns₁ mns₂ cache₁ cache₂ := by
  have hs₁ := scores_later sc nBlockHeight st h₁
  have hs₂ := scores_later sc nBlockHeight st h₂
  have hrank : ∀ vin, getMasternodeRank sc st mns₁ nBlockHeight cache₁ vin =
      getMasternodeRank sc st mns nBlockHeight cache vin := by
    intro vin
    rw [getMasternodeRank, getMasternodeRank, hs₁]
  have hcurrent : getCurrentMasterNode sc st mns₁ nBlockHeight cache₁ =
      getCurrentMasterNode sc st mns nBlockHeight cache := by
    rw [getCurrentMasterNode, getCurrentMasterNode, hs₁]
  have hby : ∀ k : ℕ, getMasternodeByRank { sc with sortScores := sort' } st mns₂ nBlockHeight
      cache₂ (k+1) = getMasternodeByRank sc st mns nBlockHeight cache (k+1) := by
    intro k
    rw [by_rank_place, by_rank_place, ranking, scores_any_sort, hs₂,
      ← scores_any_sort sc sort' st nBlockHeight mns cache]
    change ((ranking { sc with sortScores := sort' } st nBlockHeight mns cache)[k]?.map _).getD _ = _
    rw [ranking_unique sc sort' st nBlockHeight mns cache hsort hsort' hd]
  constructor
  · intro i mn hi he
    have hmem : scored sc (getBlockHash st (int32 nBlockHeight) cache).1 (mn,i) ∈
        ranking sc st nBlockHeight mns cache := by
      apply (hsort.perm _).symm.subset
      rw [scores_eq]
      apply List.mem_map_of_mem
      exact List.mem_filter.mpr ⟨List.mk_mem_zipIdx_iff_getElem?.mpr hi,he⟩
    obtain ⟨k,hk⟩ := List.mem_iff_getElem?.mp hmem
    have hplace := rank_place sc st nBlockHeight mns cache hsort hd hk
    rw [hrank, show mn.vin = (scored sc _ (mn,i)).2.2 from rfl, hplace, hby, by_rank_place, hk]
    rfl
  · simp only [hrank]
    exact ranks_dense sc st nBlockHeight mns cache hsort hd
  · rw [hcurrent, current_first sc st nBlockHeight mns cache hsort hd]
    exact (hby 0).symm

end Agreement

section Samples

def secondState : ChainState :=
  (ChainRuns.act sampleEnv (ChainRuns.addMined [ChainRuns.mined 1 0 0,ChainRuns.mined 2 1 5]
    (ChainRuns.mined 2 1 5)) ChainRuns.firstState).1

def sampleScoring : Scoring where
  amb := ⟨1000,[],fun _ => true⟩
  hashOne _ := 0
  hashRange _ aux := aux
  sortScores ss := ss.mergeSort (fun a b => decide (b.1 ≤ a.1))

def masternode (hash : ℕ) (version : ℤ) : CMasterNode :=
  ⟨⟨[],0⟩,⟨⟨BitVec.ofNat 256 hash,0⟩,[],0⟩,1000,[],[],[],0,0,1,version,0⟩

theorem sample_sorts : Sorts sampleScoring.sortScores := by
  constructor
  · intro ss
    exact List.mergeSort_perm ss _
  · intro ss
    have h := @List.pairwise_mergeSort _ (fun a b : ℕ × ℕ × CTxIn => decide (b.1 ≤ a.1))
      (by simp only [decide_eq_true_eq]; omega)
      (by simp only [Bool.or_eq_true, decide_eq_true_eq]; omega) ss
    exact h.imp (fun hab => of_decide_eq_true hab)

theorem ranks_agree_sample :
    Agree sampleScoring sampleScoring.sortScores secondState 2
      [masternode 5 69110,masternode 9 69110,masternode 7 69210]
      [masternode 5 69110,masternode 9 69110,masternode 7 69210]
      [masternode 5 69110,masternode 9 69110,masternode 7 69210] ∅ ∅ := by
  apply ranks_agree sampleScoring sampleScoring.sortScores secondState 2 _ _ _ ∅ ∅ ∅
    sample_sorts sample_sorts
  · have hs : scores sampleScoring secondState
        [masternode 5 69110,masternode 9 69110,masternode 7 69210] 2 ∅ =
        [(5,0,(masternode 5 0).vin),(9,1,(masternode 9 0).vin)] := by decide +kernel
    constructor <;> rw [hs] <;> simp [Apart]
  · exact ⟨List.forall₂_same.mpr (fun _ _ => Or.inl rfl),[],rfl⟩
  · exact ⟨List.forall₂_same.mpr (fun _ _ => Or.inl rfl),[],rfl⟩

/-- Scores that differ in their high bits alone are not enough, and one that is enabled
with the version of other heights has no rank. -/
theorem whole_scores_disagree :
    let mns := [masternode (2^32) 69110,masternode 1 69210]
    (∀ mn ∈ mns, (mn.check sampleScoring.amb).isEnabled = true ∧
      (calculateScore sampleScoring secondState mn.vin 2 ∅).1 ≠ 0) ∧
    (mns.map (fun mn => (calculateScore sampleScoring secondState mn.vin 2 ∅).1)).Nodup ∧
    getCurrentMasterNode sampleScoring secondState mns 2 ∅ = -1 ∧
    getMasternodeByRank sampleScoring secondState mns 2 ∅ 1 = 0 ∧
    getMasternodeByRank sampleScoring secondState mns 2 ∅
      (getMasternodeRank sampleScoring secondState mns 2 ∅ (masternode 1 69210).vin) = -1 := by
  intro mns
  have hs : scores sampleScoring secondState mns 2 ∅ = [(0,0,(masternode (2^32) 0).vin)] := by
    decide +kernel
  have hsort : sampleScoring.sortScores [(0,0,(masternode (2^32) 0).vin)] =
      [(0,0,(masternode (2^32) 0).vin)] := List.mergeSort_singleton _
  refine ⟨by decide +kernel,by decide +kernel,?_,?_,?_⟩
  · rw [getCurrentMasterNode, hs]
    decide
  · rw [getMasternodeByRank, hs, hsort]
    decide
  · rw [getMasternodeRank, getMasternodeByRank, hs, hsort]
    decide

end Samples

end SwippCore.MasternodeRanks
