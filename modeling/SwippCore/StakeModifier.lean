import SwippCore.ForkSearch
import SwippCore.LoadBlockIndex
import SwippCore.Lib.Rounds

/-!
# The next stake modifier

The modifier is made of one bit of each of up to 64 blocks, chosen in rounds among the
ancestors of a block back to the start of an interval. The blocks are looked up in the
block index by their hashes.
-/

set_option autoImplicit false

namespace SwippCore.StakeModifier
open Ancestry ChainTree ForkSearch LoadBlockIndex Rounds

def nModifierInterval : ℤ := 10*60
def modifierIntervalRatio : ℤ := 3

def generatedStakeModifier (i : CBlockIndex) : Bool := i.nFlags &&& 4 != 0

def getStakeEntropyBit (i : CBlockIndex) : ℕ := (i.nFlags &&& 2) >>> 1

/-- The entries from a block on, by `pprev`. -/
def chainOf (m : BlockMap) (pindex : Uint256) : List CBlockIndex := (m.pathOf pindex).filterMap m

def getLastStakeModifier : List CBlockIndex → Option (ℕ × ℤ)
  | [] => none
  | [i] => if generatedStakeModifier i then some (i.nStakeModifier,i.nTime) else none
  | i::j::is =>
    if generatedStakeModifier i then some (i.nStakeModifier,i.nTime) else getLastStakeModifier (j::is)

def getStakeModifierSelectionIntervalSection (nSection : ℕ) : ℤ :=
  nModifierInterval*63/(63+(63-nSection)*(modifierIntervalRatio-1))

def getStakeModifierSelectionInterval : ℤ :=
  ((List.range 64).map getStakeModifierSelectionIntervalSection).sum

def before (a b : ℤ × Uint256) : Prop := a.1 < b.1 ∨ a.1 = b.1 ∧ a.2 ≤ b.2

instance (a b : ℤ × Uint256) : Decidable (before a b) := inferInstanceAs (Decidable (_ ∨ _ ∧ _))

def nSelectionIntervalStart (pindexPrev : CBlockIndex) : ℤ :=
  pindexPrev.nTime/nModifierInterval*nModifierInterval-getStakeModifierSelectionInterval

def gathered (start : ℤ) (chain : List CBlockIndex) : List CBlockIndex :=
  chain.takeWhile fun i => start ≤ i.nTime

def stamp (i : CBlockIndex) : ℤ × Uint256 := (i.nTime,i.hashBlock)

def vSortedByTimestamp (start : ℤ) (chain : List CBlockIndex) : List (ℤ × Uint256) :=
  ((gathered start chain).map stamp).reverse.insertionSort before

section Code
variable (hash : Uint256 → ℕ → Uint256)

def hashSelection (nStakeModifierPrev : ℕ) (pindex : CBlockIndex) : Uint256 :=
  let hashSelection := hash pindex.hashProof nStakeModifierPrev
  if isProofOfStake pindex.nFlags then hashSelection >>> 32 else hashSelection

/-- `SelectBlockFromCandidates`, with the block selected so far and its hash. -/
def selectBlockFromCandidates (m : BlockMap) (mapSelectedBlocks : List CBlockIndex)
    (nSelectionIntervalStop : ℤ) (nStakeModifierPrev : ℕ) :
    List (ℤ × Uint256) → Option (CBlockIndex × Uint256) → Option (Option (CBlockIndex × Uint256))
  | [], selected => some selected
  | item::items, selected =>
    match m item.2 with
    | none => none
    | some pindex =>
      if selected.isSome && decide (nSelectionIntervalStop < (pindex.nTime : ℤ)) then some selected
      else if pindex.hashBlock ∈ mapSelectedBlocks.map CBlockIndex.hashBlock then
        selectBlockFromCandidates m mapSelectedBlocks nSelectionIntervalStop nStakeModifierPrev
          items selected
      else
        let hashSelection := hashSelection hash nStakeModifierPrev pindex
        match selected with
        | some best =>
          if hashSelection < best.2 then
            selectBlockFromCandidates m mapSelectedBlocks nSelectionIntervalStop nStakeModifierPrev
              items (some (pindex,hashSelection))
          else
            selectBlockFromCandidates m mapSelectedBlocks nSelectionIntervalStop nStakeModifierPrev
              items selected
        | none =>
          selectBlockFromCandidates m mapSelectedBlocks nSelectionIntervalStop nStakeModifierPrev
            items (some (pindex,hashSelection))

/-- The rounds of `ComputeNextStakeModifier`: the blocks selected and the bits written. -/
def selectBlocks (m : BlockMap) (items : List (ℤ × Uint256)) (nStakeModifier : ℕ) :
    ℕ → ℕ → ℤ → List CBlockIndex → ℕ → Option (List CBlockIndex × ℕ)
  | 0, _, _, mapSelectedBlocks, nStakeModifierNew => some (mapSelectedBlocks,nStakeModifierNew)
  | k+1, nRound, nSelectionIntervalStop, mapSelectedBlocks, nStakeModifierNew =>
    let stop := nSelectionIntervalStop+getStakeModifierSelectionIntervalSection nRound
    match selectBlockFromCandidates hash m mapSelectedBlocks stop nStakeModifier items none with
    | some (some (pindex,_)) =>
      selectBlocks m items nStakeModifier k (nRound+1) stop (mapSelectedBlocks++[pindex])
        (nStakeModifierNew ||| getStakeEntropyBit pindex <<< nRound)
    | _ => none

/-- `ComputeNextStakeModifier`: the modifier, and whether it has been generated. -/
def computeNextStakeModifier (m : BlockMap) : Option Uint256 → Option (ℕ × Bool)
  | none => some (0,true)
  | some h =>
    match m h, getLastStakeModifier (chainOf m h) with
    | some pindexPrev, some (nStakeModifier,nModifierTime) =>
      if (pindexPrev.nTime : ℤ)/nModifierInterval ≤ nModifierTime/nModifierInterval then
        some (nStakeModifier,false)
      else
        let start := nSelectionIntervalStart pindexPrev
        let items := vSortedByTimestamp start (chainOf m h)
        (selectBlocks hash m items nStakeModifier (min 64 items.length) 0 start [] 0).map
          fun r => (r.2,true)
    | _, _ => none

end Code

structure ModifierTree (m : BlockMap) (genesis : Uint256) : Prop where
  blocks : BlockTree m genesis
  generated : ∀ i, m genesis = some i → generatedStakeModifier i = true

section Chains
variable {m : BlockMap} {genesis : Uint256} (ht : ModifierTree m genesis)
include ht

variable {h : Uint256} {i : CBlockIndex}

omit ht in
theorem chain_first (hi : m h = some i) (hroot : m.parentOf h = none) : chainOf m h = [i] := by
  rw [chainOf, BlockMap.pathOf, path_none _ _ hroot, List.filterMap_cons_some hi]
  rfl

theorem chain_up {p : Uint256} (hi : m h = some i) (hp : m.parentOf h = some p) :
    chainOf m h = i::chainOf m p := by
  rw [chainOf, BlockMap.pathOf, path_some (tree_graded ht.blocks.tree) hp,
    List.filterMap_cons_some hi]
  rfl

theorem parent_entry {p : Uint256} (hp : m.parentOf h = some p) : ∃ j, m p = some j := by
  obtain ⟨i,hi,hip⟩ := (parent_of_some m h p).mp hp
  obtain ⟨j,hj,-⟩ := ht.blocks.tree.step h i p hi hip
  exact ⟨j,hj⟩

theorem chain_head (hi : m h = some i) : ∃ is, chainOf m h = i::is := by
  cases hp : m.parentOf h with
  | none => exact ⟨[],chain_first hi hp⟩
  | some p => exact ⟨_,chain_up ht hi hp⟩

theorem chain_looked_up : ∀ x ∈ chainOf m h, m x.hashBlock = some x := by
  intro x hx
  obtain ⟨k,-,hk⟩ := List.mem_filterMap.mp hx
  rw [ht.blocks.tree.keyed k x hk]
  exact hk

theorem chain_hashes (i : CBlockIndex) (hi : m h = some i) :
    (chainOf m h).map CBlockIndex.hashBlock = m.pathOf h := by
  have g := tree_graded ht.blocks.tree
  induction h using up_induction g generalizing i with
  | root h hroot =>
    rw [chain_first hi hroot, BlockMap.pathOf, path_none _ _ hroot, List.map_singleton,
      ht.blocks.tree.keyed h i hi]
  | up h p hp ih =>
    obtain ⟨j,hj⟩ := parent_entry ht hp
    rw [chain_up ht hi hp, List.map_cons, ih j hj, ht.blocks.tree.keyed h i hi,
      BlockMap.pathOf, BlockMap.pathOf, path_some g hp]

theorem chain_nodup (hi : m h = some i) : ((chainOf m h).map CBlockIndex.hashBlock).Nodup := by
  rw [chain_hashes ht i hi]
  exact path_nodup (tree_graded ht.blocks.tree) h

/-- The chain leads to a block with a generated modifier, and the first one is found. -/
theorem last_generated (i : CBlockIndex) (hi : m h = some i) :
    ∃ newer last older, chainOf m h = newer++last::older ∧
      (∀ x ∈ newer, generatedStakeModifier x = false) ∧ generatedStakeModifier last = true ∧
      getLastStakeModifier (chainOf m h) = some (last.nStakeModifier,(last.nTime : ℤ)) := by
  have g := tree_graded ht.blocks.tree
  induction h using up_induction g generalizing i with
  | root h hroot =>
    have hgen : generatedStakeModifier i = true := by
      apply ht.generated
      rw [← ht.blocks.root h (by rw [hi]; rfl) hroot]
      exact hi
    rw [chain_first hi hroot]
    exact ⟨[],i,[],rfl,by simp,hgen,by simp [getLastStakeModifier, hgen]⟩
  | up h p hp ih =>
    obtain ⟨j,hj⟩ := parent_entry ht hp
    rw [chain_up ht hi hp]
    by_cases hgen : generatedStakeModifier i = true
    · obtain ⟨is,his⟩ := chain_head ht hj
      rw [his]
      exact ⟨[],i,_,rfl,by simp,hgen,by simp [getLastStakeModifier, hgen]⟩
    · rw [Bool.not_eq_true] at hgen
      obtain ⟨newer,last,older,heq,hnewer,hlast,hfound⟩ := ih j hj
      refine ⟨i::newer,last,older,by rw [heq]; rfl,?_,hlast,?_⟩
      · intro x hx
        rcases List.mem_cons.mp hx with rfl | hx
        · exact hgen
        · exact hnewer x hx
      · rw [← hfound]
        obtain ⟨is,his⟩ := chain_head ht hj
        simp [his, getLastStakeModifier, hgen]

end Chains

section Rounds
variable (hash : Uint256 → ℕ → Uint256)

def candidates (start : ℤ) (chain : List CBlockIndex) : List CBlockIndex :=
  (gathered start chain).reverse.insertionSort fun a b => before (stamp a) (stamp b)

theorem before_total (a b : ℤ × Uint256) : before a b ∨ before b a := by
  rcases Int.lt_trichotomy a.1 b.1 with h | h | h
  · exact Or.inl (Or.inl h)
  · rcases BitVec.le_total a.2 b.2 with h' | h'
    · exact Or.inl (Or.inr ⟨h,h'⟩)
    · exact Or.inr (Or.inr ⟨h.symm,h'⟩)
  · exact Or.inr (Or.inl h)

theorem before_trans (a b c : ℤ × Uint256) (hab : before a b) (hbc : before b c) : before a c := by
  rcases hab with h | ⟨h,h'⟩
  · rcases hbc with k | ⟨k,-⟩
    · exact Or.inl (Int.lt_trans h k)
    · exact Or.inl (k ▸ h)
  · rcases hbc with k | ⟨k,k'⟩
    · exact Or.inl (h ▸ k)
    · exact Or.inr ⟨h.trans k,BitVec.le_trans h' k'⟩

theorem before_time {a b : CBlockIndex} (h : before (stamp a) (stamp b)) : a.nTime ≤ b.nTime := by
  have hle : (a.nTime : ℤ) ≤ b.nTime := by
    rcases h with h | ⟨h,-⟩
    · exact Int.le_of_lt h
    · exact Int.le_of_eq h
  omega

variable (start : ℤ)

section
variable (chain : List CBlockIndex)

theorem candidates_sorted :
    (candidates start chain).Pairwise fun a b => before (stamp a) (stamp b) := by
  have : Std.Total fun a b : CBlockIndex => before (stamp a) (stamp b) :=
    ⟨fun a b => before_total (stamp a) (stamp b)⟩
  have : IsTrans CBlockIndex fun a b => before (stamp a) (stamp b) :=
    ⟨fun a b c => before_trans (stamp a) (stamp b) (stamp c)⟩
  exact List.pairwise_insertionSort _ _

theorem candidates_stamps :
    vSortedByTimestamp start chain = (candidates start chain).map stamp := by
  rw [candidates, List.map_insertionSort _ before stamp _ fun a _ b _ => Iff.rfl, List.map_reverse]
  rfl

theorem candidates_perm :
    (candidates start chain).Perm (gathered start chain) :=
  (List.perm_insertionSort _ _).trans (List.reverse_perm _)

end

def lateAt (nSelectionIntervalStop : ℤ) (x : CBlockIndex) : Bool :=
  decide (nSelectionIntervalStop < (x.nTime : ℤ))

def stopAt (start : ℤ) (nRound : ℕ) : ℤ :=
  start+((List.range (nRound+1)).map getStakeModifierSelectionIntervalSection).sum

def rank (nStakeModifier : ℕ) (x : CBlockIndex) : ℕ := (hashSelection hash nStakeModifier x).toNat

def hashed (nStakeModifier : ℕ) (x : CBlockIndex) : CBlockIndex × Uint256 :=
  (x,hashSelection hash nStakeModifier x)

theorem select_pick (m : BlockMap) (taken : List CBlockIndex) (stop : ℤ) (nStakeModifier : ℕ)
    {l : List CBlockIndex} (hl : ∀ x ∈ l, m x.hashBlock = some x) (best : Option CBlockIndex) :
    selectBlockFromCandidates hash m taken stop nStakeModifier (l.map stamp)
        (best.map (hashed hash nStakeModifier)) =
      some ((pick (lateAt stop) (fun x => decide (x.hashBlock ∈ taken.map CBlockIndex.hashBlock))
        (rank hash nStakeModifier) l best).map (hashed hash nStakeModifier)) := by
  induction l generalizing best with
  | nil => rfl
  | cons x l ih =>
    have hrest := ih fun y hy => hl y (List.mem_cons_of_mem x hy)
    have hx : m (stamp x).2 = some x := hl x List.mem_cons_self
    have hnext := hrest (some x)
    rw [Option.map_some] at hnext
    unfold pick
    rw [List.map_cons, selectBlockFromCandidates, hx]
    simp only [Option.isSome_map, lateAt, decide_eq_true_eq]
    split_ifs
    · rfl
    · exact hrest best
    · cases best with
      | none => exact hnext
      | some b =>
        by_cases hless : hashSelection hash nStakeModifier x < hashSelection hash nStakeModifier b
        · have hrank : rank hash nStakeModifier x < rank hash nStakeModifier b := BitVec.lt_def.mp hless
          simp only [Option.map_some, hashed, if_pos hless, if_pos hrank]
          exact hnext
        · have hrank : ¬rank hash nStakeModifier x < rank hash nStakeModifier b :=
            fun h => hless (BitVec.lt_def.mpr h)
          simp only [Option.map_some, hashed, if_neg hless, if_neg hrank]
          exact hrest (some b)

def bitsFrom (nRound nStakeModifierNew : ℕ) : List CBlockIndex → ℕ
  | [] => nStakeModifierNew
  | x::xs => bitsFrom (nRound+1) (nStakeModifierNew ||| getStakeEntropyBit x <<< nRound) xs

def lateIn (start : ℤ) (nRound : ℕ) : CBlockIndex → Bool := lateAt (stopAt start nRound)

theorem stop_next (r : ℕ) :
    start+((List.range r).map getStakeModifierSelectionIntervalSection).sum+
      getStakeModifierSelectionIntervalSection r = stopAt start r := by
  rw [stopAt, List.range_succ, List.map_append, List.sum_append, List.map_singleton,
    List.sum_singleton]
  omega

/-- The code's rounds are those over the entries, with the bits of what they take. -/
theorem blocks_of_rounds (m : BlockMap) {nStakeModifier : ℕ} {start : ℤ} {l : List CBlockIndex}
    (hl : ∀ x ∈ l, m x.hashBlock = some x) (k r new : ℕ) (taken sel : List CBlockIndex)
    (htaken : ∀ x ∈ taken, x ∈ l)
    (h : rounds (lateIn start) (rank hash nStakeModifier) l k r taken = some (taken++sel)) :
    selectBlocks hash m (l.map stamp) nStakeModifier k r
        (start+((List.range r).map getStakeModifierSelectionIntervalSection).sum) taken new =
      some (taken++sel,bitsFrom r new sel) := by
  induction k generalizing r new taken sel with
  | zero =>
    have hsel : sel = [] := by simpa [rounds] using h
    simp [hsel, selectBlocks, bitsFrom]
  | succ k ih =>
    obtain ⟨x,hx,hrest⟩ := Option.bind_eq_some_iff.mp h
    obtain ⟨sel',hsel,-⟩ := rounds_extend (lateIn start) (rank hash nStakeModifier) l k (r+1) _ _ hrest
    have hcons : sel = x::sel' := by simpa using hsel
    subst hcons
    have hskip : pick (lateIn start r)
        (fun y => decide (y.hashBlock ∈ taken.map CBlockIndex.hashBlock)) (rank hash nStakeModifier) l none =
          some x := by
      rw [← hx]
      apply pick_congr
      intro y hy
      congr 1
      apply propext
      constructor
      · intro hmem
        obtain ⟨z,hz,hhash⟩ := List.mem_map.mp hmem
        have hsame := hl z (htaken z hz)
        rw [hhash, hl y hy] at hsame
        rw [Option.some.inj hsame]
        exact hz
      · intro hmem
        exact List.mem_map.mpr ⟨y,hmem,rfl⟩
    have hselect := select_pick hash m taken (stopAt start r) nStakeModifier hl none
    rw [show pick (lateAt (stopAt start r)) _ _ l none = some x from hskip] at hselect
    have htaken' : ∀ y ∈ taken++[x], y ∈ l := by
      intro y hy
      rcases List.mem_append.mp hy with hy | hy
      · exact htaken y hy
      · rw [List.mem_singleton.mp hy]
        exact (pick_mem none hx).resolve_right (by simp)
    have hnext := ih (r+1) (new ||| getStakeEntropyBit x <<< r) (taken++[x]) sel' htaken'
      (by simpa using hrest)
    rw [Option.map_none, Option.map_some] at hselect
    rw [selectBlocks, stop_next, hselect]
    change selectBlocks hash m (l.map stamp) nStakeModifier k (r+1) (stopAt start r) (taken++[x])
      (new ||| getStakeEntropyBit x <<< r) = _
    rw [bitsFrom, List.append_cons taken x sel']
    exact hnext

structure Chosen (nStakeModifier : ℕ) (cands : List CBlockIndex) (stop : ℤ) (taken : List CBlockIndex)
    (x : CBlockIndex) : Prop where
  mem : x ∈ cands
  fresh : x ∉ taken
  least : ∀ y ∈ cands, y ∉ taken → (y.nTime : ℤ) ≤ stop →
    (x.nTime : ℤ) ≤ stop ∧ hashSelection hash nStakeModifier x ≤ hashSelection hash nStakeModifier y
  first : stop < (x.nTime : ℤ) → ∀ y ∈ cands, y ∉ taken → x.nTime ≤ y.nTime

theorem chosen_of_picked {nStakeModifier : ℕ} {start : ℤ} {chain : List CBlockIndex} {r : ℕ}
    {taken : List CBlockIndex} {x : CBlockIndex}
    (h : Picked (fun a b => before (stamp a) (stamp b)) (lateIn start r) (fun y => decide (y ∈ taken))
      (rank hash nStakeModifier) (candidates start chain) x) :
    Chosen hash nStakeModifier (gathered start chain) (stopAt start r) taken x := by
  have hmem : ∀ y, y ∈ gathered start chain → y ∈ candidates start chain := fun y hy =>
    (candidates_perm start chain).mem_iff.mpr hy
  refine ⟨(candidates_perm start chain).mem_iff.mp h.mem,of_decide_eq_false h.fresh,?_,?_⟩
  · intro y hy hout hearly
    obtain ⟨hx,hrank⟩ := h.least y (hmem y hy) (decide_eq_false hout) (decide_eq_false (by omega))
    have hstop := of_decide_eq_false hx
    exact ⟨by omega,BitVec.le_def.mpr hrank⟩
  · intro hlate y hy hout
    exact before_time (h.first (decide_eq_true hlate) y (hmem y hy) (decide_eq_false hout))

theorem rounds_chosen (nStakeModifier : ℕ) (start : ℤ) {chain : List CBlockIndex}
    (hnodup : (chain.map CBlockIndex.hashBlock).Nodup) :
    ∃ sel, rounds (lateIn start) (rank hash nStakeModifier) (candidates start chain)
        (min 64 (gathered start chain).length) 0 [] = some sel ∧
      sel.length = min 64 (gathered start chain).length ∧ sel.Nodup ∧
      ∀ r x, sel[r]? = some x → Chosen hash nStakeModifier (gathered start chain) (stopAt start r)
        (sel.take r) x := by
  have hperm := candidates_perm start chain
  have hdistinct : (gathered start chain).Nodup :=
    (List.takeWhile_sublist _).nodup (List.Nodup.of_map _ hnodup)
  have hlate : ∀ r x y, before (stamp x) (stamp y) → lateIn start r x = true → lateIn start r y = true := by
    intro r x y hxy hx
    have hle := before_time hxy
    have hstop := of_decide_eq_true hx
    exact decide_eq_true (by omega)
  obtain ⟨sel,hsel,hlen,hall,-,hpicks⟩ := rounds_spec (lateIn start) (rank hash nStakeModifier)
    (candidates start chain) (fun x => (before_total (stamp x) (stamp x)).elim id id) hlate
    (hperm.nodup_iff.mpr hdistinct) (candidates_sorted start chain)
    (min 64 (gathered start chain).length) 0 [] List.nodup_nil (by simp)
    (by rw [hperm.length_eq, List.length_nil]; omega)
  refine ⟨sel,hsel,hlen,hall,?_⟩
  intro r x hx
  have hpick := hpicks r x hx
  rw [Nat.zero_add, List.nil_append] at hpick
  exact chosen_of_picked hash hpick

def fromChain : List CBlockIndex → Option (ℕ × Bool)
  | [] => none
  | i::is =>
    (getLastStakeModifier (i::is)).bind fun last =>
      if (i.nTime : ℤ)/nModifierInterval ≤ last.2/nModifierInterval then some (last.1,false)
      else
        (rounds (lateIn (nSelectionIntervalStart i)) (rank hash last.1)
          (candidates (nSelectionIntervalStart i) (i::is))
          (min 64 (gathered (nSelectionIntervalStart i) (i::is)).length) 0 []).map
            fun sel => (bitsFrom 0 0 sel,true)

section Tree
variable {m : BlockMap} {genesis : Uint256} (ht : ModifierTree m genesis)
include ht

theorem selected_blocks {h : Uint256} {nStakeModifier : ℕ} {start : ℤ} {k : ℕ} {sel : List CBlockIndex}
    (hsel : rounds (lateIn start) (rank hash nStakeModifier) (candidates start (chainOf m h)) k 0 [] =
      some sel) :
    selectBlocks hash m (vSortedByTimestamp start (chainOf m h)) nStakeModifier k 0 start [] 0 =
      some (sel,bitsFrom 0 0 sel) := by
  have hlooked : ∀ x ∈ candidates start (chainOf m h), m x.hashBlock = some x := by
    intro x hx
    have hgathered := (candidates_perm start (chainOf m h)).mem_iff.mp hx
    exact chain_looked_up ht x ((List.takeWhile_sublist _).subset hgathered)
  have hblocks := blocks_of_rounds hash m hlooked
    k 0 0 [] sel (by simp) hsel
  rw [candidates_stamps]
  simpa using hblocks

theorem compute_from_chain {h : Uint256} {i : CBlockIndex} (hi : m h = some i) :
    computeNextStakeModifier hash m (some h) = fromChain hash (chainOf m h) := by
  obtain ⟨is,his⟩ := chain_head ht hi
  obtain ⟨newer,last,older,-,-,-,hlast⟩ := last_generated ht i hi
  rw [computeNextStakeModifier, hi, hlast]
  dsimp only
  obtain ⟨sel,hsel,-⟩ := rounds_chosen hash last.nStakeModifier (nSelectionIntervalStart i)
    (chain_nodup ht hi)
  have hlen : (vSortedByTimestamp (nSelectionIntervalStart i) (chainOf m h)).length =
      (gathered (nSelectionIntervalStart i) (chainOf m h)).length := by
    rw [candidates_stamps, List.length_map, (candidates_perm _ _).length_eq]
  rw [hlen, selected_blocks hash ht hsel]
  rw [his] at hlast hsel ⊢
  simp only [fromChain, hlast, Option.bind_some, hsel, Option.map_some]

end Tree

end Rounds

section Core
variable (hash : Uint256 → ℕ → Uint256) (m : BlockMap)

def coreMap : BlockMap := fun h => (m h).map core

theorem core_map_same : SameTree m (coreMap m) := by
  intro h
  rw [coreMap, Option.map_map]
  rfl

theorem core_chain (h : Uint256) : chainOf (coreMap m) h = (chainOf m h).map core := by
  rw [chainOf, chainOf, same_tree_path (core_map_same m), List.map_filterMap]
  rfl

theorem core_last (chain : List CBlockIndex) :
    getLastStakeModifier (chain.map core) = getLastStakeModifier chain := by
  induction chain with
  | nil => rfl
  | cons i is ih =>
    cases is with
    | nil => rfl
    | cons j is =>
      rw [List.map_cons] at ih ⊢
      rw [List.map_cons, getLastStakeModifier, ih]
      rfl

theorem core_stamps (start : ℤ) (chain : List CBlockIndex) :
    vSortedByTimestamp start (chain.map core) = vSortedByTimestamp start chain := by
  rw [vSortedByTimestamp, vSortedByTimestamp, gathered, gathered, List.takeWhile_map, List.map_map]
  rfl

theorem core_hashes (taken : List CBlockIndex) :
    (taken.map core).map CBlockIndex.hashBlock = taken.map CBlockIndex.hashBlock := by
  rw [List.map_map]
  rfl

theorem select_core (taken : List CBlockIndex) (stop : ℤ) (nStakeModifier : ℕ)
    (items : List (ℤ × Uint256)) (best : Option (CBlockIndex × Uint256)) :
    selectBlockFromCandidates hash (coreMap m) (taken.map core) stop nStakeModifier items
        (best.map fun b => (core b.1,b.2)) =
      (selectBlockFromCandidates hash m taken stop nStakeModifier items best).map
        (Option.map fun b => (core b.1,b.2)) := by
  induction items generalizing best with
  | nil => rfl
  | cons item items ih =>
    unfold selectBlockFromCandidates
    rw [core_hashes, coreMap]
    cases hm : m item.2 with
    | none => rfl
    | some x =>
      have hnext := ih (some (x,hashSelection hash nStakeModifier x))
      rw [Option.map_some] at hnext
      have hkeep := ih best
      simp only [Option.map_some, Option.isSome_map]
      change (if (best.isSome && decide (stop < (x.nTime : ℤ))) = true then _
        else if x.hashBlock ∈ taken.map CBlockIndex.hashBlock then _ else _) = _
      split_ifs
      · rfl
      · exact hkeep
      · cases best with
        | none => exact hnext
        | some b =>
          change (if hashSelection hash nStakeModifier x < b.2 then _ else _) =
            Option.map _ (if hashSelection hash nStakeModifier x < b.2 then _ else _)
          by_cases hless : hashSelection hash nStakeModifier x < b.2
          · rw [if_pos hless, if_pos hless]
            exact hnext
          · rw [if_neg hless, if_neg hless]
            exact hkeep

theorem blocks_core (items : List (ℤ × Uint256)) (nStakeModifier : ℕ) (k r : ℕ) (stop : ℤ)
    (taken : List CBlockIndex) (new : ℕ) :
    selectBlocks hash (coreMap m) items nStakeModifier k r stop (taken.map core) new =
      (selectBlocks hash m items nStakeModifier k r stop taken new).map fun s => (s.1.map core,s.2) := by
  induction k generalizing r stop taken new with
  | zero => rfl
  | succ k ih =>
    have hselect := select_core hash m taken
      (stop+getStakeModifierSelectionIntervalSection r) nStakeModifier items none
    rw [Option.map_none] at hselect
    rw [selectBlocks, selectBlocks, hselect]
    cases selectBlockFromCandidates hash m taken (stop+getStakeModifierSelectionIntervalSection r)
        nStakeModifier items none with
    | none => rfl
    | some best =>
      cases best with
      | none => rfl
      | some b =>
        have hnext := ih (r+1) (stop+getStakeModifierSelectionIntervalSection r) (taken++[b.1])
          (new ||| getStakeEntropyBit b.1 <<< r)
        rw [List.map_append, List.map_singleton] at hnext
        exact hnext

theorem compute_core (h : Uint256) :
    computeNextStakeModifier hash (coreMap m) (some h) = computeNextStakeModifier hash m (some h) := by
  rw [computeNextStakeModifier, computeNextStakeModifier, core_chain, core_last, coreMap]
  cases m h with
  | none => rfl
  | some i =>
    cases getLastStakeModifier (chainOf m h) with
    | none => rfl
    | some last =>
      have hstart : nSelectionIntervalStart (core i) = nSelectionIntervalStart i := rfl
      have hblocks := blocks_core hash m (vSortedByTimestamp (nSelectionIntervalStart i) (chainOf m h))
        last.1 (min 64 (vSortedByTimestamp (nSelectionIntervalStart i) (chainOf m h)).length) 0
        (nSelectionIntervalStart i) [] 0
      simp only [Option.map_some, hstart, core_stamps]
      rw [List.map_nil] at hblocks
      change (if (i.nTime : ℤ)/nModifierInterval ≤ last.2/nModifierInterval then _ else _) = _
      split_ifs
      · rfl
      · rw [hblocks, Option.map_map]
        rfl

end Core

section Trees

variable {genesis : Uint256}

theorem core_tree {m : BlockMap} (ht : ModifierTree m genesis) :
    ModifierTree (coreMap m) genesis := by
  refine ⟨same_block_tree (core_map_same m) ht.blocks,?_⟩
  intro i hi
  obtain ⟨j,hj,rfl⟩ := Option.map_eq_some_iff.mp hi
  exact ht.generated j hj

theorem same_chain_same_modifier (hash : Uint256 → ℕ → Uint256) {m m' : BlockMap}
    {genesis' h h' : Uint256} (ht : ModifierTree m genesis) (ht' : ModifierTree m' genesis')
    (hentry : (m h).isSome = true) (hentry' : (m' h').isSome = true)
    (hchain : (chainOf m h).map core = (chainOf m' h').map core) :
    computeNextStakeModifier hash m (some h) = computeNextStakeModifier hash m' (some h') := by
  obtain ⟨i,hi⟩ := Option.isSome_iff_exists.mp hentry
  obtain ⟨i',hi'⟩ := Option.isSome_iff_exists.mp hentry'
  rw [← compute_core hash m, ← compute_core hash m',
    compute_from_chain hash (core_tree ht) (by rw [coreMap, hi]; rfl),
    compute_from_chain hash (core_tree ht') (by rw [coreMap, hi']; rfl),
    core_chain, core_chain, hchain]

variable (env : Env) (hash : Uint256 → ℕ → Uint256)

theorem first_generates (b : CBlock) (nFile nBlockPos : ℕ) (hashProof : Uint256) {x : ℕ × Bool}
    (hx : computeNextStakeModifier hash (fun _ => none) none = some x) :
    ModifierTree (ChainMoves.filed env b nFile nBlockPos hashProof x fun _ => none) (env.hashBlock b) := by
  obtain rfl := Option.some.inj hx
  refine ⟨first_block_tree env b nFile nBlockPos hashProof (0,true),?_⟩
  intro i hi
  rw [ChainMoves.filed, Function.update_self] at hi
  obtain rfl := Option.some.inj hi
  have hbits : ∀ a < 2, ∀ c < 2, ((a+2*c+4) &&& 4 != 0) = true := by decide
  apply hbits
  · split_ifs <;> decide
  · exact Nat.mod_lt _ (by decide)

theorem filed_generates {b : CBlock} (nFile nBlockPos : ℕ) (hashProof : Uint256) (x : ℕ × Bool)
    {m : BlockMap} (ht : ModifierTree m genesis) (hnew : m (env.hashBlock b) = none)
    (hprev : (m b.hashPrevBlock).isSome = true) :
    ModifierTree (ChainMoves.filed env b nFile nBlockPos hashProof x m) genesis := by
  refine ⟨filed_block_tree env nFile nBlockPos hashProof x ht.blocks hnew hprev,?_⟩
  intro i hi
  have hne : genesis ≠ env.hashBlock b := by
    intro he
    have hentry := ht.blocks.entry
    rw [he, hnew] at hentry
    cases hentry
  rw [ChainMoves.filed_other env genesis hne] at hi
  exact ht.generated i hi

end Trees

section Claim

theorem gathered_all (start : ℤ) (chain : List CBlockIndex)
    (h : chain.Pairwise fun x y => start ≤ (y.nTime : ℤ) → start ≤ (x.nTime : ℤ)) :
    gathered start chain = chain.filter fun x => decide (start ≤ (x.nTime : ℤ)) := by
  induction chain with
  | nil => rfl
  | cons x xs ih =>
    obtain ⟨hhead,htail⟩ := List.pairwise_cons.mp h
    by_cases hx : start ≤ (x.nTime : ℤ)
    · rw [gathered, List.takeWhile_cons_of_pos (by simpa using hx),
        List.filter_cons_of_pos (by simpa using hx), ← ih htail]
      rfl
    · rw [gathered, List.takeWhile_cons_of_neg (by simpa using hx), eq_comm, List.filter_eq_nil_iff]
      intro y hy
      rcases List.mem_cons.mp hy with rfl | hy
      · simpa using hx
      · intro hin
        exact hx (hhead y hy (of_decide_eq_true hin))

theorem gathered_bounds {m : BlockMap} {h : Uint256} {start : ℤ} {x : CBlockIndex}
    (hx : x ∈ gathered start (chainOf m h)) : x ∈ chainOf m h ∧ start ≤ (x.nTime : ℤ) := by
  have hin := List.mem_takeWhile_imp hx
  exact ⟨(List.takeWhile_sublist _).subset hx,by simpa using hin⟩

/-- The last modifier is taken again, or a new one is made of bits of as many blocks as there
are candidates, at most 64, one chosen in each round; the chain alone decides. -/
theorem modifier_selected (hash : Uint256 → ℕ → Uint256) (m : BlockMap) (genesis h : Uint256)
    (pindexPrev : CBlockIndex) (ht : ModifierTree m genesis) (hentry : m h = some pindexPrev) :
    (∃ newer last older, chainOf m h = newer++last::older ∧
      (∀ x ∈ newer, generatedStakeModifier x = false) ∧ generatedStakeModifier last = true ∧
      ((pindexPrev.nTime : ℤ)/nModifierInterval ≤ (last.nTime : ℤ)/nModifierInterval →
        computeNextStakeModifier hash m (some h) = some (last.nStakeModifier,false)) ∧
      ((last.nTime : ℤ)/nModifierInterval < (pindexPrev.nTime : ℤ)/nModifierInterval →
        ∃ sel, computeNextStakeModifier hash m (some h) = some (bitsFrom 0 0 sel,true) ∧
          selectBlocks hash m
            (vSortedByTimestamp (nSelectionIntervalStart pindexPrev) (chainOf m h)) last.nStakeModifier
            (min 64 (gathered (nSelectionIntervalStart pindexPrev) (chainOf m h)).length) 0
            (nSelectionIntervalStart pindexPrev) [] 0 = some (sel,bitsFrom 0 0 sel) ∧
          sel.length = min 64 (gathered (nSelectionIntervalStart pindexPrev) (chainOf m h)).length ∧
          sel.Nodup ∧
          ∀ r x, sel[r]? = some x → Chosen hash last.nStakeModifier
            (gathered (nSelectionIntervalStart pindexPrev) (chainOf m h))
            (stopAt (nSelectionIntervalStart pindexPrev) r) (sel.take r) x)) ∧
    (∀ start, (∀ x ∈ gathered start (chainOf m h), x ∈ chainOf m h ∧ start ≤ (x.nTime : ℤ)) ∧
      ((chainOf m h).Pairwise (fun x y => start ≤ (y.nTime : ℤ) → start ≤ (x.nTime : ℤ)) →
        gathered start (chainOf m h) =
          (chainOf m h).filter fun x => decide (start ≤ (x.nTime : ℤ)))) ∧
    (∀ m' genesis' h', ModifierTree m' genesis' → (m' h').isSome = true →
      (chainOf m h).map core = (chainOf m' h').map core →
      computeNextStakeModifier hash m' (some h') = computeNextStakeModifier hash m (some h)) := by
  refine ⟨?_,?_,?_⟩
  · obtain ⟨newer,last,older,heq,hnewer,hlast,hfound⟩ := last_generated ht pindexPrev hentry
    refine ⟨newer,last,older,heq,hnewer,hlast,?_,?_⟩
    · intro hsame
      rw [computeNextStakeModifier, hentry, hfound]
      exact if_pos hsame
    · intro hlater
      obtain ⟨sel,hsel,hlen,hnodup,hchosen⟩ := rounds_chosen hash last.nStakeModifier
        (nSelectionIntervalStart pindexPrev) (chain_nodup ht hentry)
      have hblocks := selected_blocks hash ht
         hsel
      have hitems : (vSortedByTimestamp (nSelectionIntervalStart pindexPrev) (chainOf m h)).length =
          (gathered (nSelectionIntervalStart pindexPrev) (chainOf m h)).length := by
        rw [candidates_stamps, List.length_map, (candidates_perm _ _).length_eq]
      refine ⟨sel,?_,hblocks,hlen,hnodup,hchosen⟩
      rw [computeNextStakeModifier, hentry, hfound]
      dsimp only
      rw [if_neg (by omega), hitems, hblocks]
      rfl
  · intro start
    exact ⟨fun x hx => gathered_bounds hx,gathered_all start (chainOf m h)⟩
  · intro m' genesis' h' ht' hentry' hchain
    exact (same_chain_same_modifier hash ht ht' (by rw [hentry]; rfl)
      hentry' hchain).symm

def sumHash (hashProof : Uint256) (nStakeModifier : ℕ) : Uint256 :=
  hashProof+BitVec.ofNat 256 nStakeModifier

def grow (b : CBlock) (m : BlockMap) : BlockMap :=
  ChainMoves.filed sampleEnv b 1 b.nNonce (BitVec.ofNat 256 b.nNonce)
    ((computeNextStakeModifier sumHash m (some b.hashPrevBlock)).getD (0,false)) m

def minedAt (nNonce nPrev nTime : ℕ) : CBlock := { ChainRuns.mined nNonce nPrev 0 with nTime := nTime }

def firstBlock : BlockMap :=
  ChainMoves.filed sampleEnv (minedAt 1 0 0) 1 1 0 (0,true) fun _ => none

def outOfOrder : BlockMap :=
  grow (minedAt 4 3 60000) (grow (minedAt 3 2 38860) (grow (minedAt 2 1 38870) firstBlock))

theorem out_of_order_tree : ModifierTree outOfOrder 1 := by
  apply filed_generates
  · apply filed_generates
    · apply filed_generates
      · exact first_generates sampleEnv sumHash (minedAt 1 0 0) 1 1 0 rfl
      · decide +kernel
      · decide +kernel
    · decide +kernel
    · decide +kernel
  · decide +kernel
  · decide +kernel

theorem last_entry : (outOfOrder 4).isSome = true := by decide +kernel

/-- A block beside the chain changes nothing for the chain. -/
theorem side_block_apart :
    computeNextStakeModifier sumHash (grow (minedAt 5 3 39000) outOfOrder) (some 4) =
      computeNextStakeModifier sumHash outOfOrder (some 4) :=
  (modifier_selected sumHash outOfOrder 1 4 _ out_of_order_tree
    (Option.some_get last_entry).symm).2.2 _ 1 4
      (filed_generates sampleEnv 1 5 5 _ out_of_order_tree
        (by decide +kernel) (by decide +kernel))
      (by decide +kernel) (by decide +kernel)

/-- One block is selected, though two ancestors have their times in the interval. -/
theorem early_block_hides :
    ¬∀ (m : BlockMap) (genesis h : Uint256) (pindexPrev : CBlockIndex) (nStakeModifier : ℕ)
      (nModifierTime : ℤ), ModifierTree m genesis → m h = some pindexPrev →
      getLastStakeModifier (chainOf m h) = some (nStakeModifier,nModifierTime) →
      nModifierTime/nModifierInterval < (pindexPrev.nTime : ℤ)/nModifierInterval →
      ∃ sel new, selectBlocks sumHash m
          (vSortedByTimestamp (nSelectionIntervalStart pindexPrev) (chainOf m h)) nStakeModifier
          (min 64 (vSortedByTimestamp (nSelectionIntervalStart pindexPrev) (chainOf m h)).length) 0
          (nSelectionIntervalStart pindexPrev) [] 0 = some (sel,new) ∧
        sel.length = min 64 ((chainOf m h).filter fun x =>
          decide (nSelectionIntervalStart pindexPrev ≤ (x.nTime : ℤ))).length := by
  intro hall
  obtain ⟨sel,new,hsel,hlen⟩ := hall outOfOrder 1 4 ((outOfOrder 4).get last_entry) 0 38860
    out_of_order_tree (Option.some_get last_entry).symm (by decide +kernel) (by decide +kernel)
  have hone : (selectBlocks sumHash outOfOrder
      (vSortedByTimestamp (nSelectionIntervalStart ((outOfOrder 4).get last_entry)) (chainOf outOfOrder 4)) 0
      (min 64 (vSortedByTimestamp (nSelectionIntervalStart ((outOfOrder 4).get last_entry))
        (chainOf outOfOrder 4)).length) 0 (nSelectionIntervalStart ((outOfOrder 4).get last_entry)) [] 0).map
      (fun s => s.1.length) = some 1 := by decide +kernel
  rw [hsel] at hone
  obtain hone := Option.some.inj hone
  have htwo : ((chainOf outOfOrder 4).filter fun x =>
      decide (nSelectionIntervalStart ((outOfOrder 4).get last_entry) ≤ (x.nTime : ℤ))).length = 2 := by
    decide +kernel
  rw [htwo] at hlen
  dsimp only at hone
  omega

end Claim

end SwippCore.StakeModifier
