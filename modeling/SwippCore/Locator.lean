import SwippCore.HeightCache
import SwippCore.Lib.Raising

/-!
# The block locator

A locator has the hashes of a block and of some of its ancestors, the steps between
them doubling, with the first block at the end. Another node looks for the first of
them that is on its main chain, and retraces the steps to find how far back it was.
-/

set_option autoImplicit false

namespace SwippCore.Locator
open Ancestry ChainTree ChainMoves ChainRuns BestChain NextLinks ForkSearch Backoff

section Code

/-- The steps back of `Set`, which end at a null parent. -/
def stepBack (m : BlockMap) : ℕ → Option Uint256 → Option Uint256
  | _, none => none
  | 0, some h => some h
  | n+1, some h => stepBack m n (m.parentOf h)

/-- The loop of `Set` with the step and the size of `vHave`. -/
def collect (m : BlockMap) : ℕ → Option Uint256 → ℕ → ℕ → List Uint256
  | 0, _, _, _ => []
  | _+1, none, _, _ => []
  | k+1, some h, nStep, nSize =>
    h::collect m k (stepBack m nStep (some h)) (if 10 < nSize+1 then nStep*2 else nStep) (nSize+1)

/-- `CBlockLocator::Set`; the fuel bounds the number of hashes. -/
def set (fuel : ℕ) (m : BlockMap) (hashGenesisBlock : Uint256) (pindex : Option Uint256) :
    List Uint256 := collect m fuel pindex 1 0++[hashGenesisBlock]

def isInMainChain (st : ChainState) (h : Uint256) : Bool :=
  match st.mapBlockIndex h with
  | none => false
  | some i => i.pnext.isSome || st.pindexBest == some h

def getBlockIndex (st : ChainState) : List Uint256 → Option Uint256
  | [] => st.pindexGenesisBlock
  | h::hs => if isInMainChain st h then some h else getBlockIndex st hs

def getHeight (st : ChainState) (vHave : List Uint256) : ℤ :=
  match getBlockIndex st vHave with
  | none => 0
  | some h => st.mapBlockIndex.heightOf h

/-- The loop of `GetDistanceBack`. -/
def retrace (st : ChainState) : List Uint256 → ℕ → ℕ → ℕ
  | [], nDistance, _ => nDistance
  | h::hs, nDistance, nStep =>
    if isInMainChain st h then nDistance
    else retrace st hs (nDistance+nStep) (if 10 < nDistance+nStep then nStep*2 else nStep)

def getDistanceBack (st : ChainState) (vHave : List Uint256) : ℕ := retrace st vHave 0 1

end Code

section Sender
variable {m : BlockMap} {genesis : Uint256} (hm : BlockTree m genesis) (T : Uint256)
include hm

theorem step_back_get (t d : ℕ) : stepBack m t ((m.pathOf T)[d]?) = (m.pathOf T)[d+t]? := by
  induction t generalizing d with
  | zero => cases (m.pathOf T)[d]? <;> rfl
  | succ t ih =>
    cases hx : (m.pathOf T)[d]? with
    | none =>
      have hlen := List.getElem?_eq_none_iff.mp hx
      rw [stepBack, List.getElem?_eq_none (by omega)]
    | some x =>
      have hp : m.parentOf x = (m.pathOf T)[d+1]? := path_next (tree_graded hm.tree) d hx
      rw [stepBack, hp, ih (d+1), show d+1+t = d+(t+1) by omega]

theorem collect_get (k n j : ℕ) (hk : (m.pathOf T).length ≤ depth n+k) :
    (collect m k ((m.pathOf T)[depth n]?) (stepSize n) n)[j]? = (m.pathOf T)[depth (n+j)]? := by
  have hle : depth n ≤ depth (n+j) := by
    rcases Nat.eq_zero_or_pos j with rfl | hj
    · exact Nat.le_refl _
    · exact Nat.le_of_lt (depth_strict n (n+j) (by omega))
  induction k generalizing n j with
  | zero =>
    have hnone : (m.pathOf T)[depth (n+j)]? = none := List.getElem?_eq_none (by omega)
    rw [collect, hnone]
    rfl
  | succ k ih =>
    cases hx : (m.pathOf T)[depth n]? with
    | none =>
      have hlen := List.getElem?_eq_none_iff.mp hx
      have hnone : (m.pathOf T)[depth (n+j)]? = none := List.getElem?_eq_none (by omega)
      rw [collect, hnone]
      rfl
    | some x =>
      rw [collect, ← step_size_next, ← hx, step_back_get hm T]
      cases j with
      | zero => exact hx.symm
      | succ j =>
        have hlt := depth_lt n
        have hnext := ih (n+1) j (by omega) (by
          rcases Nat.eq_zero_or_pos j with rfl | hj
          · exact Nat.le_refl _
          · exact Nat.le_of_lt (depth_strict (n+1) (n+1+j) (by omega)))
        rw [show n+(j+1) = n+1+j by omega, ← hnext]
        rfl

theorem path_entry (hT : (m T).isSome = true) {x : Uint256} (hx : x ∈ m.pathOf T) :
    (m x).isSome = true := by
  have g := tree_graded hm.tree
  rcases (mem_path_child g T x).mp hx with rfl | ⟨c,_,hc⟩
  · exact hT
  · obtain ⟨i,hi,hp⟩ := (parent_of_some m c x).mp hc
    obtain ⟨j,hj,-⟩ := hm.tree.step c i x hi hp
    rw [hj]
    rfl

theorem path_length (hT : (m T).isSome = true) :
    (m.pathOf T).length = (m.heightOf T).toNat+1 ∧
      (m.pathOf T)[(m.heightOf T).toNat]? = some genesis := by
  have g := tree_graded hm.tree
  obtain ⟨i,hi⟩ := List.mem_iff_getElem?.mp (genesis_mem hm hT)
  have hlevel := path_level g i hi
  rw [hm.zero] at hlevel
  have hieq : i = (m.heightOf T).toNat := by omega
  have hroot : m.parentOf genesis = none := by
    cases hp : m.parentOf genesis with
    | none => rfl
    | some p =>
      have hs := g.step genesis p hp
      rw [hm.zero] at hs
      have := g.nonneg p
      omega
  have hnext := path_next g i hi
  rw [hroot] at hnext
  have hle := List.getElem?_eq_none_iff.mp hnext.symm
  have hlt := (List.getElem?_eq_some_iff.mp hi).1
  rw [← hieq]
  exact ⟨Nat.le_antisymm hle hlt,hi⟩

end Sender

section Receiver
variable {st : ChainState}

/-- The first hash of the main chain is the one that counts, and the retraced distance is
the one of its step. -/
theorem first_main {xs : List Uint256} (n j : ℕ) {h : Uint256} (hj : xs[j]? = some h)
    (hmain : isInMainChain st h = true)
    (hbefore : ∀ i < j, ∀ x, xs[i]? = some x → isInMainChain st x = false) :
    getBlockIndex st xs = some h ∧ retrace st xs (depth n) (stepSize n) = depth (n+j) := by
  induction xs generalizing n j with
  | nil => cases hj
  | cons x xs ih =>
    rw [getBlockIndex, retrace]
    cases j with
    | zero =>
      obtain rfl := Option.some.inj hj
      rw [if_pos hmain, if_pos hmain]
      exact ⟨rfl,rfl⟩
    | succ j =>
      have hx := hbefore 0 (Nat.succ_pos j) x rfl
      have hstep : (if 10 < depth n+stepSize n then stepSize n*2 else stepSize n) =
          stepSize (n+1) := by
        have hten : 10 < depth n+stepSize n ↔ 10 < n+1 := depth_past_ten (n+1)
        rw [step_size_next]
        simp only [hten]
      obtain ⟨hb,hd⟩ := ih (n+1) j hj fun i hi y hy => hbefore (i+1) (by omega) y hy
      rw [hx, hstep, show n+(j+1) = n+1+j by omega]
      exact ⟨hb,hd⟩

end Receiver

structure Node (st : ChainState) (genesis tip : Uint256) : Prop where
  blocks : BlockTree st.mapBlockIndex genesis
  first : st.pindexGenesisBlock = some genesis
  best : st.pindexBest = some tip
  entry : (st.mapBlockIndex tip).isSome = true
  main : ∀ h, isInMainChain st h = true ↔ h ∈ st.mapBlockIndex.pathOf tip

def SameParents (m m' : BlockMap) : Prop :=
  ∀ h i j, m h = some i → m' h = some j → i.pprev = j.pprev

structure ForkPoint (m : BlockMap) (T : Uint256) (st : ChainState) (tip f : Uint256) : Prop where
  ancestor : f ∈ m.pathOf T
  main : f ∈ st.mapBlockIndex.pathOf tip
  highest : ∀ x ∈ m.pathOf T, x ∈ st.mapBlockIndex.pathOf tip → m.heightOf x ≤ m.heightOf f

section Shared
variable (m : BlockMap) {genesis : Uint256} (st : ChainState) (tip : Uint256)
variable (hn : Node st genesis tip) (hsame : SameParents m st.mapBlockIndex)
include hn hsame

section
variable {x p : Uint256} (hmain : x ∈ st.mapBlockIndex.pathOf tip) (hp : m.parentOf x = some p)
include x hmain hp

theorem shared_parent : st.mapBlockIndex.parentOf x = some p := by
  obtain ⟨i,hi,hip⟩ := (parent_of_some m x p).mp hp
  obtain ⟨j,hj⟩ := Option.isSome_iff_exists.mp (path_entry hn.blocks tip hn.entry hmain)
  rw [parent_of_some]
  exact ⟨j,hj,by rw [← hsame x i j hi hj, hip]⟩

theorem shared_parent_mem : p ∈ st.mapBlockIndex.pathOf tip :=
  parent_mem (tree_graded hn.blocks.tree) hmain
    (shared_parent m st tip hn hsame hmain hp)

end

theorem shared_height (hm : BlockTree m genesis) {x : Uint256} (hx : (m x).isSome = true)
    (hmain : x ∈ st.mapBlockIndex.pathOf tip) : st.mapBlockIndex.heightOf x = m.heightOf x := by
  have g := tree_graded hm.tree
  induction x using up_induction g with
  | root x hroot =>
    rw [hm.root x hx hroot, hm.zero, hn.blocks.zero]
  | up x p hp ih =>
    obtain ⟨i,hi,hip⟩ := (parent_of_some m x p).mp hp
    obtain ⟨j,hj,-⟩ := hm.tree.step x i p hi hip
    have hpar := shared_parent m st tip hn hsame hmain hp
    rw [(tree_graded hn.blocks.tree).step x p hpar, g.step x p hp,
      ih (by rw [hj]; rfl) (shared_parent_mem m st tip hn hsame hmain hp)]

end Shared

section Search
variable {m : BlockMap} {genesis T : Uint256} {st : ChainState} {tip f : Uint256}
variable (hm : BlockTree m genesis) (hT : (m T).isSome = true) (hn : Node st genesis tip)
variable (hsame : SameParents m st.mapBlockIndex)

include hm hT hn in
theorem exists_fork_point : ∃ f, ForkPoint m T st tip f := by
  classical
  have g := tree_graded hm.tree
  have hex : ∃ (d : ℕ) (x : Uint256), (m.pathOf T)[d]? = some x ∧ x ∈ st.mapBlockIndex.pathOf tip := by
    obtain ⟨i,hi⟩ := List.mem_iff_getElem?.mp (genesis_mem hm hT)
    exact ⟨i,genesis,hi,genesis_mem hn.blocks hn.entry⟩
  obtain ⟨f,hf,hmain⟩ := Nat.find_spec hex
  refine ⟨f,List.mem_of_getElem? hf,hmain,?_⟩
  intro x hx hxm
  obtain ⟨j,hj⟩ := List.mem_iff_getElem?.mp hx
  have hle := Nat.find_min' hex ⟨x,hj,hxm⟩
  rw [path_level g j hj, path_level g _ hf]
  omega

variable (hf : ForkPoint m T st tip f)
include hm hT hn hsame hf

omit hT in
/-- The ancestors at and below the fork point, and no others, are on the main chain. -/
theorem main_from_fork {d : ℕ} (x : Uint256) (hx : (m.pathOf T)[d]? = some x) :
    isInMainChain st x = true ↔ (m.heightOf T-m.heightOf f).toNat ≤ d := by
  have g := tree_graded hm.tree
  have hxl := path_level g d hx
  rw [hn.main]
  constructor
  · intro hmem
    have hle := hf.highest x (List.mem_of_getElem? hx) hmem
    omega
  · intro hle
    obtain ⟨i,hi⟩ := List.mem_iff_getElem?.mp hf.ancestor
    have hfl := path_level g i hi
    obtain ⟨t,rfl⟩ := Nat.exists_eq_add_of_le (show i ≤ d by omega)
    clear hxl hle
    -- from the fork point down, parent by parent
    induction t generalizing x with
    | zero =>
      rw [Nat.add_zero, hi] at hx
      exact Option.some.inj hx ▸ hf.main
    | succ t ih =>
      have hlt := (List.getElem?_eq_some_iff.mp hx).1
      have hy : (m.pathOf T)[i+t]? = some (m.pathOf T)[i+t] := List.getElem?_eq_getElem (by omega)
      have hp : m.parentOf (m.pathOf T)[i+t] = some x := (path_next g (i+t) hy).trans hx
      exact shared_parent_mem m st tip hn hsame (ih _ hy) hp

/-- What the locator of the block finds on the node: the ancestor that the first step from
the fork point on leads to, or the first block where that step leads past it. -/
theorem locator_found {fuel : ℕ} (hfuel : (m.heightOf T).toNat < fuel) :
    ∃ n b, (m.heightOf T-m.heightOf f).toNat ≤ depth n ∧
      (∀ k < n, depth k < (m.heightOf T-m.heightOf f).toNat) ∧
      getBlockIndex st (set fuel m genesis (some T)) = some b ∧
      getDistanceBack st (set fuel m genesis (some T)) = depth n ∧
      b ∈ m.pathOf T ∧ b ∈ st.mapBlockIndex.pathOf tip ∧
      m.heightOf b = m.heightOf T-min (depth n) (m.heightOf T).toNat := by
  have g := tree_graded hm.tree
  obtain ⟨hlen,hlast⟩ := path_length hm T hT
  have hfork := (height_le g hf.ancestor).1
  have hfpos := g.nonneg f
  obtain ⟨n,hn1,hn2⟩ := first_reaching (m.heightOf T-m.heightOf f).toNat
  have hself : (m.pathOf T)[0]? = some T := path_self g T
  have hget : ∀ j, (collect m fuel (some T) 1 0)[j]? = (m.pathOf T)[depth j]? := by
    intro j
    have h := collect_get hm T fuel 0 j (by rw [hlen]; change _ ≤ 0+fuel; omega)
    rw [show depth 0 = 0 from rfl, hself, Nat.zero_add] at h
    exact h
  -- the hash at the place of the step, or the first block behind all of them
  have hplace : ∃ b, (set fuel m genesis (some T))[n]? = some b ∧
      (m.pathOf T)[min (depth n) (m.heightOf T).toNat]? = some b := by
    rcases Nat.lt_or_ge (m.heightOf T).toNat (depth n) with hlt | hle
    · have hnone : (collect m fuel (some T) 1 0)[n]? = none := by
        rw [hget n]
        exact List.getElem?_eq_none (by omega)
      have hlenc : (collect m fuel (some T) 1 0).length = n := by
        apply Nat.le_antisymm (List.getElem?_eq_none_iff.mp hnone)
        by_contra hshort
        have hprev := hn2 (collect m fuel (some T) 1 0).length (by omega)
        have hat := hget (collect m fuel (some T) 1 0).length
        rw [List.getElem?_eq_none (Nat.le_refl _)] at hat
        have := List.getElem?_eq_none_iff.mp hat.symm
        omega
      refine ⟨genesis,?_,?_⟩
      · rw [set, List.getElem?_append_right (by omega), hlenc, Nat.sub_self]
        rfl
      · rw [Nat.min_eq_right (by omega)]
        exact hlast
    · have hb : (m.pathOf T)[depth n]? = some (m.pathOf T)[depth n] :=
        List.getElem?_eq_getElem (by omega)
      have hc := (hget n).trans hb
      refine ⟨(m.pathOf T)[depth n],?_,?_⟩
      · rw [set, List.getElem?_append_left (List.getElem?_eq_some_iff.mp hc).1]
        exact hc
      · rw [Nat.min_eq_left hle]
        exact hb
  obtain ⟨b,hbn,hbp⟩ := hplace
  have hmain := (main_from_fork hm hn hsame hf b hbp).mpr (by omega)
  have hbefore : ∀ i < n, ∀ x, (set fuel m genesis (some T))[i]? = some x →
      isInMainChain st x = false := by
    intro i hi x hx
    have hdi := hn2 i hi
    have hin : (m.pathOf T)[depth i]? = some (m.pathOf T)[depth i] :=
      List.getElem?_eq_getElem (by omega)
    have hc := (hget i).trans hin
    rw [set, List.getElem?_append_left (List.getElem?_eq_some_iff.mp hc).1, hget i] at hx
    have hiff := main_from_fork hm hn hsame hf x hx
    cases hcase : isInMainChain st x with
    | false => rfl
    | true =>
      have := hiff.mp hcase
      omega
  obtain ⟨hblock,hdist⟩ := first_main 0 n hbn hmain hbefore
  rw [Nat.zero_add] at hdist
  exact ⟨n,b,hn1,hn2,hblock,hdist,List.mem_of_getElem? hbp,(hn.main b).mp hmain,
    path_level g _ hbp⟩

end Search

/-- The block that is looked up, on the main chain and not far below the fork point. -/
structure Located (vHave : List Uint256) (m : BlockMap) (T : Uint256) (st : ChainState)
    (tip f b : Uint256) : Prop where
  block : getBlockIndex st vHave = some b
  main : b ∈ st.mapBlockIndex.pathOf tip
  ancestor : b ∈ m.pathOf T
  height : getHeight st vHave = m.heightOf b
  near : m.heightOf T-m.heightOf b ≤ 2*(m.heightOf T-m.heightOf f)
  short : vHave.length ≤ Nat.log 2 ((m.heightOf T).toNat+1)+12

def Retraced (vHave : List Uint256) (m : BlockMap) (T : Uint256) (st : ChainState)
    (tip f : Uint256) : Prop :=
  ∃ b, Located vHave m T st tip f b ∧ (getDistanceBack st vHave : ℤ) = m.heightOf T-m.heightOf b

section Bounds
variable {m : BlockMap} {genesis T : Uint256}
variable (hm : BlockTree m genesis) (hT : (m T).isSome = true)
include hm hT

theorem set_length {fuel : ℕ} (hfuel : (m.heightOf T).toNat < fuel) :
    (set fuel m genesis (some T)).length ≤ Nat.log 2 ((m.heightOf T).toNat+1)+12 := by
  have g := tree_graded hm.tree
  obtain ⟨hlen,-⟩ := path_length hm T hT
  rw [set, List.length_append, List.length_singleton]
  generalize hc : collect m fuel (some T) 1 0 = c
  cases hl : c.length with
  | zero => omega
  | succ n =>
    have hself : (m.pathOf T)[0]? = some T := path_self g T
    have hget := collect_get hm T fuel 0 n (by rw [hlen]; change _ ≤ 0+fuel; omega)
    rw [show depth 0 = 0 from rfl, hself, Nat.zero_add] at hget
    change (collect m fuel (some T) 1 0)[n]? = _ at hget
    rw [hc, List.getElem?_eq_getElem (by omega)] at hget
    have hlt := (List.getElem?_eq_some_iff.mp hget.symm).1
    have hn := steps_within n (m.heightOf T).toNat (by omega)
    omega

/-- For every block, every node and every fuel from its height on: the locator finds an
ancestor on the main chain not far below the fork point, and the retraced distance is that
of the ancestor exactly when a step leads to the fork point or below it, and not past the
first block. -/
theorem locator_iff (st : ChainState) (tip : Uint256) (hn : Node st genesis tip)
    (hsame : SameParents m st.mapBlockIndex) (fuel : ℕ) (hfuel : (m.heightOf T).toNat < fuel) :
    ∃ f, ForkPoint m T st tip f ∧
      (∃ b, Located (set fuel m genesis (some T)) m T st tip f b) ∧
      (Retraced (set fuel m genesis (some T)) m T st tip f ↔
        ∃ n, m.heightOf T-m.heightOf f ≤ depth n ∧ depth n ≤ m.heightOf T) := by
  have g := tree_graded hm.tree
  obtain ⟨f,hf⟩ := exists_fork_point hm hT hn
  have hfork := (height_le g hf.ancestor).1
  have hfpos := g.nonneg f
  obtain ⟨n,b,hn1,hn2,hblock,hdist,hbT,hbmain,hbl⟩ := locator_found hm hT hn hsame hf hfuel
  have hlocated : Located (set fuel m genesis (some T)) m T st tip f b := by
    refine ⟨hblock,hbmain,hbT,?_,?_,set_length hm hT hfuel⟩
    · rw [getHeight, hblock]
      exact shared_height m st tip hn hsame hm (path_entry hm T hT hbT) hbmain
    · cases n with
      | zero =>
        rw [show depth 0 = 0 from rfl] at hbl
        omega
      | succ i =>
        have hover := depth_overshoot (hn2 i (Nat.lt_succ_self i))
        omega
  refine ⟨f,hf,⟨b,hlocated⟩,?_⟩
  constructor
  · rintro ⟨c,hc,hexact⟩
    have hcb := hc.block
    rw [hblock] at hcb
    obtain rfl := Option.some.inj hcb
    exact ⟨n,by omega,by omega⟩
  · rintro ⟨k,hk1,hk2⟩
    have hle : depth n ≤ (m.heightOf T).toNat := by
      have hnk : n ≤ k := by
        by_contra hlt
        have := hn2 k (by omega)
        omega
      rcases Nat.lt_or_eq_of_le hnk with hlt | rfl
      · have := depth_strict n k hlt
        omega
      · omega
    exact ⟨b,hlocated,by omega⟩

end Bounds

/-- In a run in which the postponed blocks of each call are connected, the links mark the main
chain. -/
theorem run_node {env : Env} {st : ChainState} (h : Reachable env (Meets env .none) st) :
    ∃ genesis tip, Node st genesis tip := by
  obtain ⟨tip,hc,_,hchain⟩ := run_chained h
  obtain ⟨_,_,genesis,hgen,ht⟩ := run_treed env .none h
  have g := tree_graded hchain.tree
  refine ⟨genesis,tip,ht,hgen,hc.best,hchain.entry,?_⟩
  intro k
  rw [show k ∈ st.mapBlockIndex.pathOf tip ↔ _ from mem_path_child g tip k, isInMainChain, hc.best]
  cases hk : st.mapBlockIndex k with
  | none =>
    constructor
    · intro hfalse
      cases hfalse
    · rintro (rfl | ⟨c,_,hp⟩)
      · have hentry := hchain.entry
        rw [hk] at hentry
        cases hentry
      · obtain ⟨i,hi,hip⟩ := (parent_of_some _ c k).mp hp
        obtain ⟨j,hj,-⟩ := hchain.tree.step c i k hi hip
        rw [hk] at hj
        cases hj
  | some i =>
    dsimp only
    rw [Bool.or_eq_true, beq_iff_eq, Option.some_inj, Option.isSome_iff_exists]
    constructor
    · rintro (⟨c,hc⟩ | rfl)
      · exact Or.inr ⟨c,(hchain.next k i c hk).mp hc⟩
      · exact Or.inl rfl
    · rintro (rfl | ⟨c,hc⟩)
      · exact Or.inr rfl
      · exact Or.inl ⟨c,(hchain.next k i c hk).mpr hc⟩

section Samples

/-- A locator of a block beside the main chain, on its own node. -/
theorem side_block_retraced : ∃ st tip f, ForkPoint st.mapBlockIndex 2 st tip f ∧
    Retraced (set 2 st.mapBlockIndex 1 (some 2)) st.mapBlockIndex 2 st tip f := by
  have hrun : (playAll sampleEnv (postponesNone sampleEnv)
      [addMined [] (mined 2 1 10),addMined [] (mined 3 1 10),addMined rereadable (mined 4 3 10)]
      firstState).any (fun st => (st.mapBlockIndex 2).isSome &&
        decide (st.mapBlockIndex.heightOf 2 = 1) && st.pindexGenesisBlock == some 1) = true := by
    decide +kernel
  obtain ⟨st,hst,hlast⟩ := (Option.any_eq_true _ _).mp hrun
  rw [Bool.and_eq_true, Bool.and_eq_true, decide_eq_true_eq, beq_iff_eq] at hlast
  obtain ⟨⟨hentry,hheight⟩,hgen⟩ := hlast
  have hr := play_all_reachable sampleEnv (Meets sampleEnv .none)
    (postpones_none_meets sampleEnv)
    (first_reachable _ (empty_meets sampleEnv .none _ _ trivial)) hst
  obtain ⟨genesis,tip,hn⟩ := run_node hr
  have hg := hn.first
  rw [hgen] at hg
  obtain rfl := Option.some.inj hg
  obtain ⟨f,hf,-,hiff⟩ := locator_iff hn.blocks hentry st tip hn
    (fun h i j hi hj => by rw [hi] at hj; rw [Option.some.inj hj]) 2 (by rw [hheight]; decide)
  have hle := (height_le (tree_graded hn.blocks.tree) hf.ancestor).1
  have hpos := (tree_graded hn.blocks.tree).nonneg f
  exact ⟨st,tip,f,hf,hiff.mpr ⟨1,by rw [hheight, depth_small (by decide)]; omega,
    by rw [hheight, depth_small (by decide)]; decide⟩⟩

def longChain : ℕ → BlockMap
  | 0 => fileMined (mined 1 0 0) fun _ => none
  | n+1 => fileMined (mined (n+2) (n+1) 10) (longChain n)

theorem long_chain_tree {n : ℕ} (hn : n ≤ 12) : BlockTree (longChain n) 1 := by
  induction n with
  | zero => exact first_block_tree sampleEnv (mined 1 0 0) 1 1 0 (0,false)
  | succ n ih =>
    have hnew : ∀ n < 12, longChain n (sampleEnv.hashBlock (mined (n+2) (n+1) 10)) = none := by
      decide +kernel
    have hprev : ∀ n < 12, (longChain n (mined (n+2) (n+1) 10).hashPrevBlock).isSome = true := by
      decide +kernel
    exact filed_block_tree sampleEnv 1 (n+2) 0 (0,false)
      (ih (by omega)) (hnew n (by omega)) (hprev n (by omega))

def firstNode : ChainState :=
  { ChainState.empty with
    mapBlockIndex := longChain 0
    pindexGenesisBlock := some 1
    pindexBest := some 1 }

theorem first_node : Node firstNode 1 1 := by
  refine ⟨long_chain_tree (by decide),rfl,rfl,by decide +kernel,?_⟩
  intro h
  have hpath : firstNode.mapBlockIndex.pathOf 1 = [1] :=
    (first_path sampleEnv (mined 1 0 0) 1 1 0 (0,false)).1
  rw [hpath, List.mem_singleton]
  unfold isInMainChain
  change (match filed sampleEnv (mined 1 0 0) 1 1 0 (0,false) (fun _ => none) h with
    | none => false
    | some i => i.pnext.isSome || some 1 == some h) = true ↔ h = 1
  rw [filed, Function.update_apply]
  split_ifs with he
  · constructor
    · exact fun _ => he
    · intro hh
      rw [hh]
      rfl
  · constructor
    · intro hfalse
      cases hfalse
    · exact fun hh => absurd hh he

/-- From the block at height 12 the steps lead to heights 1 and then past the first block. -/
theorem first_block_overshot : ¬ ∀ (m : BlockMap) (genesis T : Uint256), BlockTree m genesis →
    (m T).isSome = true → ∀ (st : ChainState) (tip : Uint256), Node st genesis tip →
    SameParents m st.mapBlockIndex → ∀ fuel, (m.heightOf T).toNat < fuel →
    ∃ f, ForkPoint m T st tip f ∧ Retraced (set fuel m genesis (some T)) m T st tip f := by
  intro h
  have hheight : (longChain 12).heightOf 13 = 12 := by decide +kernel
  have hsame : SameParents (longChain 12) firstNode.mapBlockIndex := by
    intro k i j hi hj
    have hk : k = 1 := by
      by_contra hne
      rw [show firstNode.mapBlockIndex k = none from
        @filed_other sampleEnv (mined 1 0 0) 1 1 0 (0,false) (fun _ => none) k hne] at hj
      cases hj
    subst hk
    have hboth : ((longChain 12) 1).map CBlockIndex.pprev =
        (firstNode.mapBlockIndex 1).map CBlockIndex.pprev := by decide +kernel
    rw [hi, hj] at hboth
    exact Option.some.inj hboth
  obtain ⟨f,_,b,hlocated,hexact⟩ := h (longChain 12) 1 13 (long_chain_tree (by decide))
    (by decide +kernel) firstNode 1 first_node hsame 13 (by rw [hheight]; decide)
  have hblock : getBlockIndex firstNode (set 13 (longChain 12) 1 (some 13)) = some 1 := by
    decide +kernel
  have hdist : getDistanceBack firstNode (set 13 (longChain 12) 1 (some 13)) = 13 := by
    decide +kernel
  have hzero : (longChain 12).heightOf 1 = 0 := by decide +kernel
  have hb := hlocated.block
  rw [hblock] at hb
  rw [← Option.some.inj hb, hdist, hheight, hzero] at hexact
  omega

end Samples

end SwippCore.Locator
