import SwippCore.Primitives
import SwippCore.Lib.Descent

/-!
# Orphan blocks

Blocks without a parent wait for it, and are taken up when it arrives.
-/

set_option autoImplicit false

/-! ## Orphan blocks -/

namespace SwippCore.OrphanBlocks
open FinMap Follow

abbrev Stake := COutPoint × ℕ

def getProofOfStake (b : CBlock) : Stake :=
  match b.isProofOfStake, b.vtx with
  | true, _::tx::_ => (((tx.vin.head?).map CTxIn.prevout).getD .null,tx.nTime)
  | _, _ => (.null,0)

structure COrphanBlock where
  hashBlock : Uint256
  hashPrev : Uint256
  stake : Stake
  vchBlock : CBlock
  deriving DecidableEq, Repr

structure Orphans where
  mapOrphanBlocks : Dict Uint256 COrphanBlock
  mapOrphanBlocksByPrev : List (Uint256 × COrphanBlock)
  setStakeSeenOrphan : Finset Stake
  nOrphanBlocksSize : ℕ

def Orphans.empty : Orphans := ⟨∅,[],∅,0⟩

variable (env : Env)

/-- `insert` of an ordered multimap: behind the entries whose key is not greater. -/
def insertByPrev (e : Uint256 × COrphanBlock) :
    List (Uint256 × COrphanBlock) → List (Uint256 × COrphanBlock)
  | [] => [e]
  | x::xs => if x.1 ≤ e.1 then x::insertByPrev e xs else e::x::xs

/-- `mapOrphanBlocksByPrev.count` -/
def hasChild (hash : Uint256) (o : Orphans) : Bool :=
  o.mapOrphanBlocksByPrev.any (fun e => e.1 == hash)

def successor (o : Orphans) (it : Uint256 × COrphanBlock) : Option (Uint256 × COrphanBlock) :=
  o.mapOrphanBlocksByPrev.find? (fun e => e.1 == it.2.hashBlock)

def predecessor (o : Orphans) (x : COrphanBlock) : Option COrphanBlock :=
  o.mapOrphanBlocks.lookup x.hashPrev

def steps (o : Orphans) : ℕ := o.mapOrphanBlocksByPrev.length+1

/-- A walk that does not end is `none`. -/
def getOrphanRoot (hash : Uint256) (o : Orphans) : Option Uint256 :=
  match o.mapOrphanBlocks.lookup hash with
  | none => some hash
  | some x => (follow (predecessor o) (steps o) x).map COrphanBlock.hashBlock

def wantedByOrphan (x : COrphanBlock) (o : Orphans) : Option Uint256 :=
  (follow (predecessor o) (steps o) x).map COrphanBlock.hashPrev

def removeOrphan (it : Uint256 × COrphanBlock) (o : Orphans) : Orphans where
  mapOrphanBlocks := o.mapOrphanBlocks.erase it.2.hashBlock
  mapOrphanBlocksByPrev := o.mapOrphanBlocksByPrev.erase it
  setStakeSeenOrphan := o.setStakeSeenOrphan.erase it.2.stake
  nOrphanBlocksSize := o.nOrphanBlocksSize-env.blockSize it.2.vchBlock

/-- One round of pruning, with what `insecure_rand` draws. A division by zero is `none`. -/
def pruneOne (rand : ℕ) (o : Orphans) : Option Orphans :=
  (o.mapOrphanBlocksByPrev[rand % o.mapOrphanBlocksByPrev.length]?).bind (fun it =>
    (follow (successor o) (steps o) it).map (fun it => removeOrphan env it o))

def pruneRounds (nMaxOrphanBlocksSize : ℕ) : ℕ → (ℕ → ℕ) → Orphans → Option Orphans
  | 0, _, _ => none
  | k+1, rand, o =>
    if nMaxOrphanBlocksSize < o.nOrphanBlocksSize then
      (pruneOne env (rand 0) o).bind (pruneRounds nMaxOrphanBlocksSize k (fun n => rand (n+1)))
    else some o

def pruneOrphanBlocks (nMaxOrphanBlocksSize : ℕ) (rand : ℕ → ℕ) (o : Orphans) : Option Orphans :=
  pruneRounds env nMaxOrphanBlocksSize (steps o) rand o

def newOrphan (b : CBlock) : COrphanBlock :=
  ⟨env.hashBlock b,b.hashPrevBlock,getProofOfStake b,b⟩

def storeOrphan (b : CBlock) (o : Orphans) : Orphans where
  mapOrphanBlocks := insertNew o.mapOrphanBlocks (env.hashBlock b) (newOrphan env b)
  mapOrphanBlocksByPrev := insertByPrev (b.hashPrevBlock,newOrphan env b) o.mapOrphanBlocksByPrev
  setStakeSeenOrphan :=
    if b.isProofOfStake then insert (getProofOfStake b) o.setStakeSeenOrphan
    else o.setStakeSeenOrphan
  nOrphanBlocksSize := o.nOrphanBlocksSize+env.blockSize b

inductive Verdict where
  | accepted
  | refused
  | thrown
  deriving DecidableEq, Repr

/-- What a call asks of the rest of the node, whose state is `C`. -/
structure World (C : Type) where
  /-- `mapBlockIndex.count` -/
  known : C → Uint256 → Bool
  /-- `setStakeSeen.count` -/
  stakeSeen : C → Stake → Bool
  hashBestChain : C → Uint256
  checkpointTime : C → ℤ
  checkBlock : C → CBlock → Bool
  acceptBlock : C → CBlock → C × Verdict
  fReindex : Bool
  fImporting : Bool
  fInitialDownload : Bool
  nMaxOrphanBlocksSize : ℕ
  insecureRand : ℕ → ℕ

structure State (C : Type) where
  chain : C
  orphans : Orphans

inductive Outcome where
  | done (accepted : Bool)
  | orphan (hashEnd : Uint256) (wanted : Option Uint256)
  | thrown
  deriving DecidableEq, Repr

variable {C : Type} (w : World C)

def dropOrphan (x : COrphanBlock) (o : Orphans) : Orphans :=
  { o with
    mapOrphanBlocks := o.mapOrphanBlocks.erase x.hashBlock
    setStakeSeenOrphan := o.setStakeSeenOrphan.erase (getProofOfStake x.vchBlock)
    nOrphanBlocksSize := o.nOrphanBlocksSize-env.blockSize x.vchBlock }

/-- The loop over the orphans of one parent; false when `AcceptBlock` throws. -/
def acceptOrphans : List COrphanBlock → List Uint256 → State C → State C × List Uint256 × Bool
  | [], vWorkQueue, st => (st,vWorkQueue,true)
  | x::xs, vWorkQueue, st =>
    match w.acceptBlock st.chain x.vchBlock with
    | (chain,.thrown) => (⟨chain,st.orphans⟩,vWorkQueue,false)
    | (chain,.accepted) =>
      acceptOrphans xs (vWorkQueue++[x.hashBlock]) ⟨chain,dropOrphan env x st.orphans⟩
    | (chain,.refused) => acceptOrphans xs vWorkQueue ⟨chain,dropOrphan env x st.orphans⟩

def eraseParent (hashPrev : Uint256) (o : Orphans) : Orphans :=
  { o with mapOrphanBlocksByPrev := o.mapOrphanBlocksByPrev.filter (fun e => !(e.1 == hashPrev)) }

def childrenOf (hashPrev : Uint256) (o : Orphans) : List COrphanBlock :=
  (o.mapOrphanBlocksByPrev.filter (fun e => e.1 == hashPrev)).map Prod.snd

/-- The loop over the work queue; `none` when the rounds do not suffice. -/
def resolveOrphans : ℕ → List Uint256 → State C → Option (State C × Outcome)
  | _, [], st => some (st,.done true)
  | 0, _::_, _ => none
  | k+1, hashPrev::vWorkQueue, st =>
    match acceptOrphans env w (childrenOf hashPrev st.orphans) vWorkQueue st with
    | (st,_,false) => some (st,.thrown)
    | (st,vWorkQueue,true) =>
      resolveOrphans k vWorkQueue ⟨st.chain,eraseParent hashPrev st.orphans⟩

/-- `ProcessBlock` on a block without a parent, from some node. -/
def processOrphan (b : CBlock) (st : State C) : Option (State C × Outcome) :=
  if b.isProofOfStake && decide (getProofOfStake b ∈ st.orphans.setStakeSeenOrphan) &&
      !hasChild (env.hashBlock b) st.orphans then some (st,.done false)
  else do
    let o ← pruneOrphanBlocks env w.nMaxOrphanBlocksSize w.insecureRand st.orphans
    let o := storeOrphan env b o
    let hashEnd ← getOrphanRoot (env.hashBlock b) o
    if w.fInitialDownload then some (⟨st.chain,o⟩,.orphan hashEnd none)
    else
      let wanted ← wantedByOrphan (newOrphan env b) o
      some (⟨st.chain,o⟩,.orphan hashEnd (some wanted))

/-- `ProcessBlock`; a call that does not end is `none`. -/
def processBlock (pfrom : Bool) (b : CBlock) (st : State C) : Option (State C × Outcome) :=
  let hash := env.hashBlock b
  if w.known st.chain hash then some (st,.done false)
  else if (st.orphans.mapOrphanBlocks.lookup hash).isSome then some (st,.done false)
  else if !w.fReindex && !w.fImporting && b.isProofOfStake &&
      w.stakeSeen st.chain (getProofOfStake b) && !hasChild hash st.orphans then
    some (st,.done false)
  else if b.hashPrevBlock ≠ w.hashBestChain st.chain ∧ b.nTime < w.checkpointTime st.chain then
    some (st,.done false)
  else if !w.checkBlock st.chain b then some (st,.done false)
  else if !w.known st.chain b.hashPrevBlock then
    if pfrom then processOrphan env w b st else some (st,.done true)
  else
    match w.acceptBlock st.chain b with
    | (chain,.accepted) =>
      resolveOrphans env w (steps st.orphans) [hash] ⟨chain,st.orphans⟩
    | (chain,.refused) => some (⟨chain,st.orphans⟩,.done false)
    | (chain,.thrown) => some (⟨chain,st.orphans⟩,.thrown)

end SwippCore.OrphanBlocks

/-! ## The orphan maps over a run of ProcessBlock -/

namespace SwippCore.OrphanRuns
open FinMap Follow OrphanBlocks

variable (env : Env)

def stored (o : Orphans) : List COrphanBlock := o.mapOrphanBlocksByPrev.map Prod.snd

def size (x : COrphanBlock) : ℕ := env.blockSize x.vchBlock

structure Describes (xs : List COrphanBlock) (o : Orphans) : Prop where
  made : ∀ x ∈ xs, x = newOrphan env x.vchBlock
  distinct : (xs.map COrphanBlock.hashBlock).Nodup
  found : ∀ h x, o.mapOrphanBlocks.lookup h = some x ↔ x ∈ xs ∧ x.hashBlock = h
  total : o.nOrphanBlocksSize = (xs.map (size env)).sum

structure Staked (xs : List COrphanBlock) (o : Orphans) : Prop where
  exact : ∀ s, s ∈ o.setStakeSeenOrphan ↔ ∃ x ∈ xs, x.vchBlock.isProofOfStake ∧ x.stake = s
  apart : (xs.filter (fun x => x.vchBlock.isProofOfStake)).Pairwise (fun x y => x.stake ≠ y.stake)

variable {xs : List COrphanBlock} {o : Orphans}

theorem describes_perm {ys : List COrphanBlock} (hp : xs.Perm ys) (h : Describes env xs o) :
    Describes env ys o := by
  refine ⟨fun x hx => h.made x (hp.mem_iff.mpr hx),(hp.map _).nodup_iff.mp h.distinct,?_,?_⟩
  · intro k x
    rw [h.found, hp.mem_iff]
  · rw [h.total, (hp.map _).sum_eq]

theorem staked_perm {ys : List COrphanBlock} (hp : xs.Perm ys) (h : Staked xs o) : Staked ys o := by
  refine ⟨?_,?_⟩
  · intro s
    rw [h.exact]
    constructor
    · rintro ⟨x,hx,hs⟩
      exact ⟨x,hp.mem_iff.mp hx,hs⟩
    · rintro ⟨x,hx,hs⟩
      exact ⟨x,hp.mem_iff.mpr hx,hs⟩
  · exact ((hp.filter _).pairwise_iff (fun hne => Ne.symm hne)).mp h.apart

variable {b : CBlock}

theorem stake_ne_null (h : b.isProofOfStake = true) : getProofOfStake b ≠ (.null,0) := by
  unfold getProofOfStake
  rw [h]
  unfold CBlock.isProofOfStake at h
  match hv : b.vtx with
  | [] => simp [hv] at h
  | [_] => simp [hv] at h
  | _::tx::_ =>
    simp only [hv] at h
    unfold CTransaction.isCoinStake at h
    split at h
    · rename_i i _ o _ _ hi _
      simp only [Bool.and_eq_true, Bool.not_eq_true'] at h
      intro he
      simp only [hi, List.head?_cons, Option.map_some, Option.getD_some, Prod.mk.injEq] at he
      rw [he.1] at h
      exact absurd h.1 (by decide)
    · cases h

theorem stake_of_work (h : b.isProofOfStake = false) : getProofOfStake b = (.null,0) := by
  unfold getProofOfStake
  rw [h]

structure Leaves (x : COrphanBlock) (o o' : Orphans) : Prop where
  erased : o'.mapOrphanBlocks = o.mapOrphanBlocks.erase x.hashBlock
  size : o'.nOrphanBlocksSize = o.nOrphanBlocksSize-size env x
  stake : o'.setStakeSeenOrphan = o.setStakeSeenOrphan.erase x.stake

theorem describes_leave {x : COrphanBlock} {o' : Orphans} (hl : Leaves env x o o')
    (h : Describes env (x::xs) o) : Describes env xs o' := by
  have hd := h.distinct
  rw [List.map_cons, List.nodup_cons] at hd
  refine ⟨fun y hy => h.made y (List.mem_cons_of_mem x hy),hd.2,?_,?_⟩
  · intro k y
    rw [hl.erased, lookup_erase_if]
    split_ifs with hk
    · constructor
      · intro hn
        cases hn
      · rintro ⟨hy,hyk⟩
        exact absurd (List.mem_map.mpr ⟨y,hy,hyk.trans hk⟩) hd.1
    · rw [h.found, List.mem_cons]
      constructor
      · rintro ⟨rfl | hy,hyk⟩
        · exact absurd hyk.symm hk
        · exact ⟨hy,hyk⟩
      · rintro ⟨hy,hyk⟩
        exact ⟨Or.inr hy,hyk⟩
  · rw [hl.size, h.total, List.map_cons, List.sum_cons]
    omega

theorem staked_leave {x : COrphanBlock} {o' : Orphans} (hl : Leaves env x o o')
    (hmade : ∀ y ∈ x::xs, y = newOrphan env y.vchBlock) (h : Staked (x::xs) o) : Staked xs o' := by
  have hstake : ∀ y ∈ x::xs, y.stake = getProofOfStake y.vchBlock := by
    intro y hy
    rw [hmade y hy]
    rfl
  have hap := h.apart
  rw [List.filter_cons] at hap
  refine ⟨?_,?_⟩
  · intro s
    rw [hl.stake, Finset.mem_erase, h.exact]
    constructor
    · rintro ⟨hne,y,hy,hpos,hys⟩
      rcases List.mem_cons.mp hy with rfl | hy
      · exact absurd hys.symm hne
      · exact ⟨y,hy,hpos,hys⟩
    · rintro ⟨y,hy,hpos,hys⟩
      refine ⟨?_,y,List.mem_cons_of_mem x hy,hpos,hys⟩
      intro he
      have hyx : y.stake = x.stake := hys.trans he
      cases hx : x.vchBlock.isProofOfStake with
      | true =>
        rw [if_pos hx, List.pairwise_cons] at hap
        exact hap.1 y (List.mem_filter.mpr ⟨hy,hpos⟩) hyx.symm
      | false =>
        -- a proof-of-work orphan is filed with the null stake, which no stake is
        rw [hstake y (List.mem_cons_of_mem x hy), hstake x List.mem_cons_self,
          stake_of_work hx] at hyx
        exact stake_ne_null hpos hyx
  · split_ifs at hap
    · exact (List.pairwise_cons.mp hap).2
    · exact hap

theorem insert_by_prev_perm (e : Uint256 × COrphanBlock) (es : List (Uint256 × COrphanBlock)) :
    (insertByPrev e es).Perm (e::es) := by
  induction es with
  | nil => exact .refl _
  | cons x xs ih =>
    rw [insertByPrev]
    split_ifs
    · exact (ih.cons x).trans (.swap e x xs)
    · exact .refl _

theorem stored_insert (b : CBlock) (o : Orphans) :
    (stored (storeOrphan env b o)).Perm (newOrphan env b::stored o) :=
  (insert_by_prev_perm _ _).map Prod.snd

theorem describes_store (hnew : o.mapOrphanBlocks.lookup (env.hashBlock b) = none)
    (h : Describes env xs o) : Describes env (newOrphan env b::xs) (storeOrphan env b o) := by
  refine ⟨?_,?_,?_,?_⟩
  · intro x hx
    rcases List.mem_cons.mp hx with rfl | hx
    · rfl
    · exact h.made x hx
  · rw [List.map_cons, List.nodup_cons]
    refine ⟨?_,h.distinct⟩
    intro hin
    obtain ⟨x,hx,hxh⟩ := List.mem_map.mp hin
    have hfound := (h.found _ x).mpr ⟨hx,hxh⟩
    rw [show (newOrphan env b).hashBlock = env.hashBlock b from rfl, hnew] at hfound
    cases hfound
  · intro k x
    simp only [storeOrphan, lookup_insert_new, hnew, and_true]
    split_ifs with hk
    · rw [Option.some_inj]
      constructor
      · rintro rfl
        exact ⟨List.mem_cons_self,hk.symm⟩
      · rintro ⟨hx,hxk⟩
        rcases List.mem_cons.mp hx with rfl | hx
        · rfl
        · have hfound := (h.found k x).mpr ⟨hx,hxk⟩
          rw [hk, hnew] at hfound
          cases hfound
    · rw [h.found, List.mem_cons]
      constructor
      · rintro ⟨hx,hxk⟩
        exact ⟨Or.inr hx,hxk⟩
      · rintro ⟨rfl | hx,hxk⟩
        · exact absurd hxk.symm hk
        · exact ⟨hx,hxk⟩
  · rw [List.map_cons, List.sum_cons, ← h.total]
    exact Nat.add_comm _ _

theorem staked_store (hnew : b.isProofOfStake = true → getProofOfStake b ∉ o.setStakeSeenOrphan)
    (h : Staked xs o) : Staked (newOrphan env b::xs) (storeOrphan env b o) := by
  refine ⟨?_,?_⟩
  · intro s
    unfold storeOrphan
    dsimp only
    split_ifs with hb
    · rw [Finset.mem_insert, h.exact]
      constructor
      · rintro (rfl | ⟨x,hx,hs⟩)
        · exact ⟨_,List.mem_cons_self,hb,rfl⟩
        · exact ⟨x,List.mem_cons_of_mem _ hx,hs⟩
      · rintro ⟨x,hx,hpos,hs⟩
        rcases List.mem_cons.mp hx with rfl | hx
        · exact Or.inl hs.symm
        · exact Or.inr ⟨x,hx,hpos,hs⟩
    · rw [h.exact]
      constructor
      · rintro ⟨x,hx,hs⟩
        exact ⟨x,List.mem_cons_of_mem _ hx,hs⟩
      · rintro ⟨x,hx,hpos,hs⟩
        rcases List.mem_cons.mp hx with rfl | hx
        · exact absurd hpos hb
        · exact ⟨x,hx,hpos,hs⟩
  · rw [List.filter_cons]
    split_ifs with hb
    · rw [List.pairwise_cons]
      refine ⟨?_,h.apart⟩
      intro y hy he
      obtain ⟨hy,hpos⟩ := List.mem_filter.mp hy
      exact hnew hb ((h.exact _).mpr ⟨y,hy,hpos,he.symm⟩)
    · exact h.apart

structure Indexed (o : Orphans) : Prop where
  describes : Describes env (stored o) o
  keyed : ∀ e ∈ o.mapOrphanBlocksByPrev, e.1 = e.2.hashPrev

def Ranked (rank : Uint256 → ℤ) (o : Orphans) : Prop :=
  ∀ x ∈ stored o, rank x.hashPrev < rank x.hashBlock

section Prune

def Pruned (o o' : Orphans) : Prop :=
  ∃ it ∈ o.mapOrphanBlocksByPrev, (∀ x ∈ stored o, x.hashPrev ≠ it.2.hashBlock) ∧
    o' = removeOrphan env it o

abbrev PrunedAll := Relation.ReflTransGen (Pruned env)

variable (o o' : Orphans)

theorem stored_remove {it : Uint256 × COrphanBlock} (hit : it ∈ o.mapOrphanBlocksByPrev) :
    (stored o).Perm (it.2::stored (removeOrphan env it o)) :=
  (List.perm_cons_erase hit).map Prod.snd

theorem remove_leaves (it : Uint256 × COrphanBlock) :
    Leaves env it.2 o (removeOrphan env it o) := ⟨rfl,rfl,rfl⟩

theorem pruned_indexed (h : Pruned env o o') (hi : Indexed env o) : Indexed env o' := by
  obtain ⟨it,hit,_,rfl⟩ := h
  refine ⟨?_,fun e he => hi.keyed e (List.mem_of_mem_erase he)⟩
  exact describes_leave env (remove_leaves env o it)
    (describes_perm env (stored_remove env o hit) hi.describes)

theorem pruned_stored (h : Pruned env o o') : ∀ x ∈ stored o', x ∈ stored o := by
  obtain ⟨it,hit,_,rfl⟩ := h
  intro x hx
  exact (stored_remove env o hit).mem_iff.mpr (List.mem_cons_of_mem _ hx)

theorem pruned_staked (h : Pruned env o o') (hi : Indexed env o) (hs : Staked (stored o) o) :
    Staked (stored o') o' ∧ o'.setStakeSeenOrphan ⊆ o.setStakeSeenOrphan := by
  obtain ⟨it,hit,_,rfl⟩ := h
  have hperm := stored_remove env o hit
  exact ⟨staked_leave env (remove_leaves env o it)
    (describes_perm env hperm hi.describes).made (staked_perm hperm hs),
    Finset.erase_subset _ _⟩

theorem pruned_all_kept (h : PrunedAll env o o') (hi : Indexed env o) :
    Indexed env o' ∧ (∀ x ∈ stored o', x ∈ stored o) ∧ (Staked (stored o) o →
      Staked (stored o') o' ∧ o'.setStakeSeenOrphan ⊆ o.setStakeSeenOrphan) := by
  induction h with
  | refl => exact ⟨hi,fun _ hx => hx,fun hs => ⟨hs,Finset.Subset.refl _⟩⟩
  | tail _ hp ih =>
    obtain ⟨hi1,hsub1,hs1⟩ := ih
    refine ⟨pruned_indexed env _ _ hp hi1,?_,?_⟩
    · intro x hx
      exact hsub1 x (pruned_stored env _ _ hp x hx)
    · intro hs
      obtain ⟨hst,hset⟩ := hs1 hs
      obtain ⟨hst',hset'⟩ := pruned_staked env _ _ hp hi1 hst
      exact ⟨hst',hset'.trans hset⟩

variable (rank : Uint256 → ℤ)

theorem branch_end (hi : Indexed env o) (hr : Ranked rank o) {it : Uint256 × COrphanBlock}
    (hit : it ∈ o.mapOrphanBlocksByPrev) :
    ∃ e ∈ o.mapOrphanBlocksByPrev, follow (successor o) (steps o) it = some e ∧
      ∀ x ∈ stored o, x.hashPrev ≠ e.2.hashBlock := by
  have hmem : ∀ a b, successor o a = some b → b ∈ o.mapOrphanBlocksByPrev :=
    fun a b hab => List.mem_of_find?_eq_some hab
  have hnext : ∀ a b, successor o a = some b → b ∈ o.mapOrphanBlocksByPrev ∧
      rank a.2.hashBlock < rank b.2.hashBlock := by
    intro a b hab
    have hb := hmem a b hab
    have hk := List.find?_some hab
    simp only [beq_iff_eq] at hk
    rw [← hk, hi.keyed b hb]
    exact ⟨hb,hr b.2 (List.mem_map_of_mem hb)⟩
  obtain ⟨e,he⟩ := follow_total (successor o) (fun e => rank e.2.hashBlock) _ hnext it
  refine ⟨e,follow_mem (successor o) hmem hit he,he,?_⟩
  intro x hx hxe
  obtain ⟨c,hc,rfl⟩ := List.mem_map.mp hx
  have hnone := List.find?_eq_none.mp (follow_end (successor o) it e he).1 c hc
  rw [hi.keyed c hc] at hnone
  exact hnone (by simp [hxe])

theorem prune_one_ok (hi : Indexed env o) (hr : Ranked rank o)
    (hne : o.mapOrphanBlocksByPrev ≠ []) (rand : ℕ) :
    ∃ o', pruneOne env rand o = some o' ∧ Pruned env o o' ∧
      o'.mapOrphanBlocksByPrev.length+1 = o.mapOrphanBlocksByPrev.length := by
  have hlen := List.length_pos_of_ne_nil hne
  have hlt := Nat.mod_lt rand hlen
  obtain ⟨e,he,hf,hleaf⟩ := branch_end env o rank hi hr (List.getElem_mem hlt)
  refine ⟨removeOrphan env e o,?_,⟨e,he,hleaf,rfl⟩,?_⟩
  · rw [pruneOne, List.getElem?_eq_getElem hlt, Option.bind_some, hf, Option.map_some]
  · rw [removeOrphan, List.length_erase_of_mem he]
    omega

theorem prune_rounds_ok (nMax k : ℕ) (rand : ℕ → ℕ) (hi : Indexed env o) (hr : Ranked rank o)
    (hk : o.mapOrphanBlocksByPrev.length < k) :
    ∃ o', pruneRounds env nMax k rand o = some o' ∧ PrunedAll env o o' ∧
      o'.nOrphanBlocksSize ≤ nMax := by
  induction k generalizing o rand with
  | zero => omega
  | succ k ih =>
    rw [pruneRounds]
    split_ifs with hmax
    · have hne : o.mapOrphanBlocksByPrev ≠ [] := by
        intro hnil
        have htotal := hi.describes.total
        rw [stored, hnil] at htotal
        simp only [List.map_nil, List.sum_nil] at htotal
        omega
      obtain ⟨o1,h1,hp,hlen⟩ := prune_one_ok env o rank hi hr hne (rand 0)
      have hr1 : Ranked rank o1 := fun x hx => hr x (pruned_stored env o o1 hp x hx)
      obtain ⟨o2,h2,hps,hsize⟩ := ih o1 (fun n => rand (n+1)) (pruned_indexed env o o1 hp hi) hr1
        (by omega)
      exact ⟨o2,by rw [h1, Option.bind_some, h2],.head hp hps,hsize⟩
    · exact ⟨o,rfl,.refl,by omega⟩

theorem prune_ok (nMax : ℕ) (rand : ℕ → ℕ) (hi : Indexed env o) (hr : Ranked rank o) :
    ∃ o', pruneOrphanBlocks env nMax rand o = some o' ∧ PrunedAll env o o' ∧
      o'.nOrphanBlocksSize ≤ nMax :=
  prune_rounds_ok env o rank nMax _ rand hi hr (Nat.lt_succ_self _)

theorem branch_start (hi : Indexed env o) (hr : Ranked rank o) (x : COrphanBlock) :
    ∃ y, follow (predecessor o) (steps o) x = some y := by
  have hnext : ∀ a b, predecessor o a = some b → b ∈ stored o ∧
      -rank a.hashPrev < -rank b.hashPrev := by
    intro a b hab
    obtain ⟨hb,hk⟩ := (hi.describes.found _ _).mp hab
    have hlt := hr b hb
    rw [hk] at hlt
    exact ⟨hb,by omega⟩
  have h := follow_total (predecessor o) (fun a => -rank a.hashPrev) (stored o) hnext x
  rwa [stored, List.length_map] at h

end Prune

section Resolve
variable {C : Type} (w : OrphanBlocks.World C)

/-- No exception comes from the orphans of one parent, one after the other. -/
def Calm : List COrphanBlock → C → Prop
  | [], _ => True
  | x::xs, chain =>
    (w.acceptBlock chain x.vchBlock).2 ≠ .thrown ∧ Calm xs (w.acceptBlock chain x.vchBlock).1

/-- None comes from those that the work queue leads to. -/
def Quiet : ℕ → List Uint256 → State C → Prop
  | _, [], _ => True
  | 0, _::_, _ => True
  | k+1, hashPrev::vWorkQueue, st =>
    let xs := childrenOf hashPrev st.orphans
    let r := acceptOrphans env w xs vWorkQueue st
    Calm w xs st.chain ∧ Quiet k r.2.1 ⟨r.1.chain,eraseParent hashPrev r.1.orphans⟩

theorem drop_leaves {x : COrphanBlock} (o : Orphans) (h : x = newOrphan env x.vchBlock) :
    Leaves env x o (dropOrphan env x o) := by
  refine ⟨rfl,rfl,?_⟩
  rw [show x.stake = getProofOfStake x.vchBlock by rw [h]; rfl]
  rfl

theorem accept_orphans_ok {xs ys : List COrphanBlock} (q : List Uint256) (st : State C)
    (hq : Calm w xs st.chain) (hd : Describes env (xs++ys) st.orphans) :
    ∃ st' q', acceptOrphans env w xs q st = (st',q',true) ∧ Describes env ys st'.orphans ∧
      st'.orphans.mapOrphanBlocksByPrev = st.orphans.mapOrphanBlocksByPrev ∧
      q'.length ≤ q.length+xs.length ∧
      (Staked (xs++ys) st.orphans → Staked ys st'.orphans) := by
  induction xs generalizing q st with
  | nil => exact ⟨st,q,rfl,hd,rfl,Nat.le_refl _,fun hs => hs⟩
  | cons x xs ih =>
    have hleave := drop_leaves env st.orphans (hd.made x List.mem_cons_self)
    have hd1 := describes_leave env hleave hd
    obtain ⟨hthis,hrest⟩ := hq
    have hstep : ∀ q1 chain, Calm w xs chain → q1.length ≤ q.length+1 →
        ∃ st' q', acceptOrphans env w xs q1 ⟨chain,dropOrphan env x st.orphans⟩ = (st',q',true) ∧
          Describes env ys st'.orphans ∧
          st'.orphans.mapOrphanBlocksByPrev = st.orphans.mapOrphanBlocksByPrev ∧
          q'.length ≤ q.length+(x::xs).length ∧
          (Staked (x::xs++ys) st.orphans → Staked ys st'.orphans) := by
      intro q1 chain hcalm hlen
      obtain ⟨st',q',heq,hdes,hby,hl,hst⟩ := ih q1 ⟨chain,dropOrphan env x st.orphans⟩ hcalm hd1
      refine ⟨st',q',heq,hdes,hby,?_,?_⟩
      · rw [List.length_cons]
        omega
      · intro hs
        exact hst (staked_leave env hleave hd.made hs)
    rw [acceptOrphans]
    rcases hv : w.acceptBlock st.chain x.vchBlock with ⟨chain,_ | _ | _⟩
    · rw [hv] at hrest
      exact hstep _ chain hrest (by simp)
    · rw [hv] at hrest
      exact hstep _ chain hrest (by simp)
    · rw [hv] at hthis
      exact absurd rfl hthis

theorem stored_split (h : Uint256) (o : Orphans) :
    (childrenOf h o++stored (eraseParent h o)).Perm (stored o) := by
  rw [childrenOf, stored, eraseParent, ← List.map_append]
  exact (List.filter_append_perm _ _).map Prod.snd

theorem resolve_ok {k : ℕ} (q : List Uint256) (st : State C)
    (hk : q.length+st.orphans.mapOrphanBlocksByPrev.length ≤ k) (hi : Indexed env st.orphans)
    (hq : Quiet env w k q st) :
    ∃ st', resolveOrphans env w k q st = some (st',.done true) ∧ Indexed env st'.orphans ∧
      (∀ x ∈ stored st'.orphans, x ∈ stored st.orphans) ∧
      (Staked (stored st.orphans) st.orphans → Staked (stored st'.orphans) st'.orphans) := by
  induction k generalizing q st with
  | zero =>
    cases q with
    | nil => exact ⟨st,rfl,hi,fun _ hx => hx,fun hs => hs⟩
    | cons h q => simp at hk
  | succ k ih =>
    cases q with
    | nil => exact ⟨st,rfl,hi,fun _ hx => hx,fun hs => hs⟩
    | cons h q =>
      have hsplit := stored_split h st.orphans
      obtain ⟨hcalm,hrest⟩ := hq
      obtain ⟨st1,q1,heq,hdes,hby,hl,hst⟩ := accept_orphans_ok env w
        q st hcalm (describes_perm env hsplit.symm hi.describes)
      rw [heq] at hrest
      have hstored : stored (eraseParent h st1.orphans) = stored (eraseParent h st.orphans) := by
        simp only [stored, eraseParent, hby]
      have hsub : ∀ x ∈ stored (eraseParent h st1.orphans), x ∈ stored st.orphans := by
        intro x hx
        rw [hstored] at hx
        exact hsplit.mem_iff.mp (List.mem_append_right _ hx)
      have hi1 : Indexed env (eraseParent h st1.orphans) := by
        refine ⟨?_,?_⟩
        · rw [hstored]
          exact ⟨hdes.made,hdes.distinct,hdes.found,hdes.total⟩
        · intro e he
          apply hi.keyed
          rw [← hby]
          exact List.mem_of_mem_filter he
      have hlen := hsplit.length_eq
      rw [List.length_append, ← hstored] at hlen
      have hs1 : (stored (eraseParent h st1.orphans)).length =
        (eraseParent h st1.orphans).mapOrphanBlocksByPrev.length := List.length_map _
      have hs0 : (stored st.orphans).length = st.orphans.mapOrphanBlocksByPrev.length :=
        List.length_map _
      obtain ⟨st2,heq2,hi2,hsub2,hst2⟩ := ih q1 ⟨st1.chain,eraseParent h st1.orphans⟩
        (by rw [List.length_cons] at hk; dsimp only; omega) hi1 hrest
      refine ⟨st2,?_,hi2,fun x hx => hsub x (hsub2 x hx),?_⟩
      · simp only [resolveOrphans, heq, heq2]
      · intro hs
        apply hst2
        have hs' := hst (staked_perm hsplit.symm hs)
        rw [hstored]
        exact ⟨hs'.exact,hs'.apart⟩

end Resolve

variable {C : Type}

/-- A call of `ProcessBlock`, on a block of some node or on one's own. -/
structure Call (C : Type) where
  w : OrphanBlocks.World C
  pfrom : Bool
  b : CBlock

def ReachesOrphans (c : Call C) (st : State C) : Prop :=
  c.w.known st.chain (env.hashBlock c.b) = false ∧
    st.orphans.mapOrphanBlocks.lookup (env.hashBlock c.b) = none ∧
    c.w.checkBlock st.chain c.b = true ∧ c.w.known st.chain c.b.hashPrevBlock = false ∧
    c.pfrom = true

/-- The call does not store an orphan whose stake a stored one has, and no exception
comes from the orphans that it resolves. -/
structure Fair (c : Call C) (st : State C) : Prop where
  single : ReachesOrphans env c st → c.b.isProofOfStake = true →
    hasChild (env.hashBlock c.b) st.orphans = true →
    getProofOfStake c.b ∉ st.orphans.setStakeSeenOrphan
  quiet : c.w.known st.chain c.b.hashPrevBlock = true →
    ∀ chain, c.w.acceptBlock st.chain c.b = (chain,.accepted) →
      Quiet env c.w (steps st.orphans) [env.hashBlock c.b] ⟨chain,st.orphans⟩

section Process
variable (rank : Uint256 → ℤ) (c : Call C) (st : State C)
  (hi : Indexed env st.orphans) (hr : Ranked rank st.orphans)
  (hb : rank c.b.hashPrevBlock < rank (env.hashBlock c.b))

include hi hr hb

theorem process_orphan_ok
    (hnew : st.orphans.mapOrphanBlocks.lookup (env.hashBlock c.b) = none) :
    ∃ st' out, processOrphan env c.w c.b st = some (st',out) ∧ Indexed env st'.orphans ∧
      Ranked rank st'.orphans ∧ ((c.b.isProofOfStake = true →
        hasChild (env.hashBlock c.b) st.orphans = true →
        getProofOfStake c.b ∉ st.orphans.setStakeSeenOrphan) →
      Staked (stored st.orphans) st.orphans → Staked (stored st'.orphans) st'.orphans) := by
  unfold processOrphan
  split
  · exact ⟨st,_,rfl,hi,hr,fun _ hs => hs⟩
  · rename_i htaken
    obtain ⟨o,ho,hp,_⟩ := prune_ok env st.orphans rank c.w.nMaxOrphanBlocksSize c.w.insecureRand hi hr
    obtain ⟨hi1,hsub,hs1⟩ := pruned_all_kept env _ _ hp hi
    have hnew1 : o.mapOrphanBlocks.lookup (env.hashBlock c.b) = none := by
      cases hl : o.mapOrphanBlocks.lookup (env.hashBlock c.b) with
      | none => rfl
      | some x =>
        obtain ⟨hx,hxh⟩ := (hi1.describes.found _ x).mp hl
        rw [(hi.describes.found _ x).mpr ⟨hsub x hx,hxh⟩] at hnew
        cases hnew
    have hins := stored_insert env c.b o
    have hi2 : Indexed env (storeOrphan env c.b o) := by
      refine ⟨describes_perm env hins.symm
        (describes_store env hnew1 hi1.describes),?_⟩
      intro e he
      rcases List.mem_cons.mp ((insert_by_prev_perm _ _).mem_iff.mp he) with rfl | he
      · rfl
      · exact hi1.keyed e he
    have hr2 : Ranked rank (storeOrphan env c.b o) := by
      intro x hx
      rcases List.mem_cons.mp (hins.mem_iff.mp hx) with rfl | hx
      · exact hb
      · exact hr x (hsub x hx)
    have hs2 : (c.b.isProofOfStake = true → hasChild (env.hashBlock c.b) st.orphans = true →
        getProofOfStake c.b ∉ st.orphans.setStakeSeenOrphan) →
        Staked (stored st.orphans) st.orphans →
        Staked (stored (storeOrphan env c.b o)) (storeOrphan env c.b o) := by
      intro hsingle hs
      obtain ⟨hs',hset⟩ := hs1 hs
      refine staked_perm hins.symm (staked_store env ?_ hs')
      intro hpos hin
      have hin0 := hset hin
      cases hc : hasChild (env.hashBlock c.b) st.orphans with
      | true => exact hsingle hpos hc hin0
      | false => exact htaken (by simp [hpos, hin0, hc])
    obtain ⟨x,hx⟩ := branch_start env _ rank hi2 hr2 (newOrphan env c.b)
    have hfound := (hi2.describes.found (env.hashBlock c.b) (newOrphan env c.b)).mpr
      ⟨hins.mem_iff.mpr List.mem_cons_self,rfl⟩
    simp only [ho, getOrphanRoot, wantedByOrphan, hfound, hx, Option.bind_eq_bind,
      Option.bind_some, Option.map_some]
    split_ifs
    · exact ⟨_,_,rfl,hi2,hr2,hs2⟩
    · exact ⟨_,_,rfl,hi2,hr2,hs2⟩

theorem process_block_ok (hf : Fair env c st) :
    ∃ st' out, processBlock env c.w c.pfrom c.b st = some (st',out) ∧ Indexed env st'.orphans ∧
      Ranked rank st'.orphans ∧
      (Staked (stored st.orphans) st.orphans → Staked (stored st'.orphans) st'.orphans) := by
  have hsame : ∀ chain (out : Outcome), ∃ st' out',
      some ((⟨chain,st.orphans⟩ : State C),out) = some (st',out') ∧ Indexed env st'.orphans ∧
      Ranked rank st'.orphans ∧
      (Staked (stored st.orphans) st.orphans → Staked (stored st'.orphans) st'.orphans) :=
    fun chain out => ⟨_,out,rfl,hi,hr,fun hs => hs⟩
  unfold processBlock
  dsimp only
  split_ifs with h1 h2 h3 h4 h5 h6 h7
  · exact hsame st.chain _
  · exact hsame st.chain _
  · exact hsame st.chain _
  · exact hsame st.chain _
  · exact hsame st.chain _
  · have hnew : st.orphans.mapOrphanBlocks.lookup (env.hashBlock c.b) = none := by
      simpa using h2
    obtain ⟨st',out,heq,hi',hr',hs'⟩ := process_orphan_ok env rank c st hi hr hb hnew
    refine ⟨st',out,heq,hi',hr',hs' ?_⟩
    intro hpos hchild
    exact hf.single ⟨by simpa using h1,hnew,by simpa using h5,by simpa using h6,h7⟩ hpos hchild
  · exact hsame st.chain _
  · rcases hv : c.w.acceptBlock st.chain c.b with ⟨chain,_ | _ | _⟩
    · obtain ⟨st',heq,hi',hsub,hs'⟩ := resolve_ok env c.w [env.hashBlock c.b]
        ⟨chain,st.orphans⟩ (by simp [steps, Nat.add_comm]) hi (hf.quiet (by simpa using h6) chain hv)
      exact ⟨st',_,heq,hi',fun x hx => hr x (hsub x hx),hs'⟩
    · exact hsame chain _
    · exact hsame chain _

end Process

/-- A run of `ProcessBlock`. -/
def run : List (Call C) → State C → Option (State C)
  | [], st => some st
  | c::cs, st => (processBlock env c.w c.pfrom c.b st).bind (fun r => run cs r.1)

def FairRun : List (Call C) → State C → Prop
  | [], _ => True
  | c::cs, st => Fair env c st ∧
      ∀ r, processBlock env c.w c.pfrom c.b st = some r → FairRun cs r.1

structure WellKept (o : Orphans) : Prop where
  same : ∀ x, x ∈ stored o ↔ o.mapOrphanBlocks.lookup x.hashBlock = some x
  byHash : ∀ h x, o.mapOrphanBlocks.lookup h = some x → x.hashBlock = h
  byPrev : ∀ e ∈ o.mapOrphanBlocksByPrev, e.1 = e.2.hashPrev
  once : (stored o).Nodup
  total : o.nOrphanBlocksSize = ((stored o).map (size env)).sum
  stakes : ∀ s, s ∈ o.setStakeSeenOrphan ↔
    ∃ x ∈ stored o, x.vchBlock.isProofOfStake ∧ x.stake = s
  prunes : ∀ nMax rand, ∃ o', pruneOrphanBlocks env nMax rand o = some o' ∧
    PrunedAll env o o' ∧ o'.nOrphanBlocksSize ≤ nMax

theorem well_kept {rank : Uint256 → ℤ} (hi : Indexed env o) (hr : Ranked rank o)
    (hs : Staked (stored o) o) : WellKept env o := by
  refine ⟨?_,?_,hi.keyed,List.Nodup.of_map _ hi.describes.distinct,hi.describes.total,hs.exact,?_⟩
  · intro x
    rw [hi.describes.found]
    exact ⟨fun hx => ⟨hx,rfl⟩,And.left⟩
  · intro h x hx
    exact ((hi.describes.found h x).mp hx).2
  · intro nMax rand
    exact prune_ok env o rank nMax rand hi hr

theorem run_kept (rank : Uint256 → ℤ) {cs : List (Call C)} (st : State C)
    (hrank : ∀ c ∈ cs, rank c.b.hashPrevBlock < rank (env.hashBlock c.b)) (hf : FairRun env cs st)
    (hi : Indexed env st.orphans) (hr : Ranked rank st.orphans)
    (hs : Staked (stored st.orphans) st.orphans) :
    ∃ st', run env cs st = some st' ∧ WellKept env st'.orphans := by
  induction cs generalizing st with
  | nil => exact ⟨st,rfl,well_kept env hi hr hs⟩
  | cons c cs ih =>
    obtain ⟨st1,out,heq,hi1,hr1,hs1⟩ := process_block_ok env rank c st hi hr
      (hrank c List.mem_cons_self) hf.1
    obtain ⟨st2,heq2,hk⟩ := ih st1 (fun d hd => hrank d (List.mem_cons_of_mem c hd))
      (hf.2 _ heq) hi1 hr1 (hs1 hs)
    exact ⟨st2,by rw [run, heq, Option.bind_some, heq2],hk⟩

theorem empty_indexed : Indexed env .empty :=
  ⟨⟨by simp [stored, Orphans.empty],by simp [stored, Orphans.empty],
    by simp [stored, Orphans.empty],rfl⟩,by simp [Orphans.empty]⟩

theorem empty_staked : Staked (stored .empty) .empty :=
  ⟨by simp [stored, Orphans.empty],by simp [stored, Orphans.empty]⟩

/-- Every run of fair calls ends, and keeps the orphan maps. -/
theorem orphans_well_kept (rank : Uint256 → ℤ) (chain : C) (cs : List (Call C))
    (hrank : ∀ c ∈ cs, rank c.b.hashPrevBlock < rank (env.hashBlock c.b))
    (hf : FairRun env cs ⟨chain,.empty⟩) :
    ∃ st, run env cs ⟨chain,.empty⟩ = some st ∧ WellKept env st.orphans :=
  run_kept env rank _ hrank hf (empty_indexed env) (by intro x hx; cases hx) empty_staked

section Sample

def openWorld : OrphanBlocks.World (List Uint256) where
  known chain h := decide (h ∈ chain)
  stakeSeen _ _ := false
  hashBestChain _ := 0
  checkpointTime _ := 0
  checkBlock _ _ := true
  acceptBlock chain b := (sampleEnv.hashBlock b::chain,.accepted)
  fReindex := false
  fImporting := false
  fInitialDownload := false
  nMaxOrphanBlocksSize := 5000
  insecureRand n := n

def coinStake : CTransaction :=
  ⟨1,5,[⟨⟨7,0⟩,[],0⟩],[⟨0,[]⟩,⟨3*coin,[1]⟩],0⟩

def sampleBlock (nNonce : ℕ) (hashPrevBlock : Uint256) (vtx : List CTransaction) : CBlock :=
  ⟨1,hashPrevBlock,0,0,0,nNonce,vtx,[]⟩

def staked (nNonce : ℕ) (hashPrevBlock : Uint256) : CBlock :=
  sampleBlock nNonce hashPrevBlock [coinStake,coinStake]

def arrives (b : CBlock) : Call (List Uint256) := ⟨openWorld,true,b⟩

/-- Two orphans with one stake, of which the second already has a child; then the
parent of the first. -/
def twins : List (Call (List Uint256)) :=
  [arrives (staked 11 10),arrives (sampleBlock 22 21 []),arrives (staked 21 20),
    arrives (sampleBlock 10 5 [])]

/-- The second twin is still stored, and its stake is not. -/
theorem twin_loses_stake : ¬∀ st, run sampleEnv twins ⟨[5],.empty⟩ = some st →
    WellKept sampleEnv st.orphans := by
  intro h
  have hrun : (run sampleEnv twins ⟨[5],.empty⟩).map (fun st =>
      (decide (newOrphan sampleEnv (staked 21 20) ∈ stored st.orphans),
        decide (getProofOfStake (staked 21 20) ∈ st.orphans.setStakeSeenOrphan))) =
      some (true,false) := by decide +kernel
  obtain ⟨st,hst,hfacts⟩ := Option.map_eq_some_iff.mp hrun
  simp only [Prod.mk.injEq, decide_eq_true_eq, decide_eq_false_iff_not] at hfacts
  exact hfacts.2 (((h st hst).stakes _).mpr ⟨_,hfacts.1,by decide,rfl⟩)

theorem open_calm (xs : List COrphanBlock) (chain : List Uint256) : Calm openWorld xs chain := by
  induction xs generalizing chain with
  | nil => trivial
  | cons x xs ih => exact ⟨nofun,ih _⟩

theorem open_quiet (k : ℕ) (q : List Uint256) (st : State (List Uint256)) :
    Quiet sampleEnv openWorld k q st := by
  induction k generalizing q st with
  | zero => cases q <;> trivial
  | succ k ih =>
    cases q with
    | nil => trivial
    | cons h q => exact ⟨open_calm _ _,ih _ _⟩

/-- A stake arrives before its parent. -/
theorem parent_follows : ∃ st, run sampleEnv [arrives (staked 11 10),
    arrives (sampleBlock 10 5 [])] ⟨[5],.empty⟩ = some st ∧ WellKept sampleEnv st.orphans := by
  refine orphans_well_kept sampleEnv (fun h => h.toNat) [5] _ (by decide) ⟨?_,?_⟩
  · exact ⟨fun _ _ hc => (by cases hc),fun _ _ _ => open_quiet _ _ _⟩
  · intro r _
    exact ⟨⟨fun _ hpos => (by cases hpos),fun _ _ _ => open_quiet _ _ _⟩,fun _ _ => trivial⟩

end Sample

end SwippCore.OrphanRuns
