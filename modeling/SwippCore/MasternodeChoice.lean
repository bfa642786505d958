import SwippCore.DarkSendQueue
import SwippCore.Lib.Stretches

/-!
# The choice of a masternode to mix with

`DoAutomaticDenominating` goes through the shuffled list of masternodes, up to ten of
them, until one is there to be asked. The scan for those that were used before moves on
within itself only: what it stops at is tested without being compared with all of the
used ones, and nothing compares the position with the length of the list.
-/

set_option autoImplicit false

namespace SwippCore.MasternodeChoice
open Masternode DarkSendPool Stretches

structure View extends toPool : DarkSendPool.View where
  vecMasternodesUsed : List CTxIn
  /-- the result of `std::random_shuffle` -/
  order : MasternodeList.Shuffle
  /-- the addresses of the peers -/
  vNodes : List CService
  isLocalAddr : CService → Bool
  /-- `ConnectSocket`, at each position of the list -/
  connectSocket : ℕ → Bool
  /-- there is a collateral transaction, or one can be made -/
  hasCollateral : Bool

inductive Choice where
  | asked (mn : CMasterNode)
  | noMasternodes
  | noCollateral
  | noneCompatible
  /-- an element past the end of the list is read -/
  | outOfBounds
  /-- the steps did not suffice -/
  | unfinished
  deriving DecidableEq, Repr

variable (V : View)

def shuffled : List CMasterNode := V.order.order V.vecMasternodes

def shuffledPool : DarkSendPool.View where
  __ := V.toPool
  vecMasternodes := shuffled V

/-- The scan over the used masternodes: the position that it leaves, none where it reads
past the end of the list. -/
def skipUsed (mns : List CMasterNode) : List CTxIn → ℕ → Option ℕ
  | [], i => some i
  | usedVin::used, i =>
    match mns[i]? with
    | none => none
    | some mn => if mn.vin = usedVin then skipUsed mns used (i+1) else skipUsed mns used i

/-- `ConnectNode`: the peers afterwards, none where there is no connection. -/
def connectNode (i : ℕ) (addr : CService) (vNodes : List CService) : Option (List CService) :=
  if V.isLocalAddr addr then none
  else if addr ∈ vNodes then some vNodes
  else if V.connectSocket i then some (vNodes++[addr])
  else none

def chooseFrom : ℕ → ℕ → List CService → Choice
  | 0, _, _ => .unfinished
  | steps+1, i, vNodes =>
    if 10 ≤ i then .noneCompatible
    else
      match skipUsed (shuffled V) V.vecMasternodesUsed i with
      | none => .outOfBounds
      | some i =>
        match (shuffled V)[i]? with
        | none => .outOfBounds
        | some mn =>
          if !isVersionCompatible mn.protocolVersion (BlockHashCache.tipHeight V.chain) then
            chooseFrom steps (i+1) vNodes
          else if tooRecent (shuffledPool V) mn then chooseFrom steps (i+1) vNodes
          else
            match connectNode V i mn.addr vNodes with
            | none => chooseFrom steps (i+1) vNodes
            | some vNodes =>
              if vNodes.any (fun pnode => pnode.ip == mn.addr.ip) then
                if V.hasCollateral then .asked mn else .noCollateral
              else chooseFrom steps i vNodes

/-- The part of `DoAutomaticDenominating` that looks for a masternode by itself. -/
def chooseMasternode (steps : ℕ) : Choice :=
  if V.vecMasternodes.isEmpty then .noMasternodes
  else chooseFrom V steps 0 V.vNodes

def Answers (i : ℕ) (mn : CMasterNode) : Prop :=
  isVersionCompatible mn.protocolVersion (BlockHashCache.tipHeight V.chain) = true ∧
    tooRecent (shuffledPool V) mn = false ∧ (connectNode V i mn.addr V.vNodes).isSome = true

/-- The choice is over after some number of steps, reads nothing past the end of the list and
asks no masternode that was used. -/
def Sound : Prop :=
  ∃ steps, ∀ more, chooseMasternode V (steps+more) ≠ .unfinished ∧
    chooseMasternode V (steps+more) ≠ .outOfBounds ∧
    ∀ mn, chooseMasternode V (steps+more) = .asked mn → mn.vin ∉ V.vecMasternodesUsed

/-- The longest stretch of masternodes whose inputs come in this order among the used ones. -/
abbrev UsedStretch (stretch rest : List CMasterNode) : Prop :=
  Stretch CMasterNode.vin V.vecMasternodesUsed stretch rest

/-- These are passed over from the front of the list: time and again the longest stretch of
used ones, and one after it that cannot be asked, and all that within ten. -/
inductive PassedOver : List CMasterNode → Prop
  | nil : PassedOver []
  | more (passed stretch rest : List CMasterNode) (mn : CMasterNode) (h : PassedOver passed)
      (hten : passed.length < 10) (hlist : shuffled V = passed++(stretch++mn::rest))
      (hused : UsedStretch V stretch (mn::rest))
      (hmn : ¬ Answers V (passed++stretch).length mn) : PassedOver (passed++stretch++[mn])

/-- Wherever the search comes to within ten, the list goes on after the longest stretch of
used masternodes, and with one that cannot be asked or was not used. -/
def Clear : Prop :=
  ∀ passed stretch rest, PassedOver V passed → passed.length < 10 →
    shuffled V = passed++(stretch++rest) → UsedStretch V stretch rest →
    ∃ mn mns, rest = mn::mns ∧ (Answers V (passed++stretch).length mn → V.hasCollateral = true →
      mn.vin ∉ V.vecMasternodesUsed)

section Scan
variable (mns : List CMasterNode)

/-- The scan passes the longest stretch of used masternodes, as far as the list goes. -/
theorem skip_used_spec (used : List CTxIn) (i : ℕ) (hi : i ≤ mns.length) :
    ∃ stretch rest, mns.drop i = stretch++rest ∧ Stretch CMasterNode.vin used stretch rest ∧
      (rest ≠ [] → skipUsed mns used i = some (i+stretch.length)) ∧
      (rest = [] → ∀ j, skipUsed mns used i = some j → mns[j]? = none) := by
  induction used generalizing i with
  | nil =>
    refine ⟨[],mns.drop i,rfl,stretch_nil _,fun _ => rfl,?_⟩
    intro hrest j hj
    rw [← Option.some.inj hj]
    exact List.getElem?_eq_none (List.drop_eq_nil_iff.mp hrest)
  | cons u used ih =>
    by_cases hlt : i < mns.length
    · have hget : mns[i]? = some mns[i] := List.getElem?_eq_getElem hlt
      have hdrop : mns.drop i = mns[i]::mns.drop (i+1) := List.drop_eq_getElem_cons hlt
      by_cases hu : mns[i].vin = u
      · obtain ⟨stretch,rest,heq,hs,hsome,hend⟩ := ih (i+1) hlt
        refine ⟨mns[i]::stretch,rest,by rw [hdrop, heq, List.cons_append],hu ▸ stretch_cons hs,?_,?_⟩
        · intro hrest
          simp only [skipUsed, hget, hu, if_true]
          rw [hsome hrest, List.length_cons]
          congr 1
          omega
        · intro hrest j hj
          simp only [skipUsed, hget, hu, if_true] at hj
          exact hend hrest j hj
      · obtain ⟨stretch,rest,heq,hs,hsome,hend⟩ := ih i hi
        refine ⟨stretch,rest,heq,stretch_skip hs ?_,?_,?_⟩
        · intro a as ha
          rw [← heq, hdrop] at ha
          rw [← (List.cons.inj ha).1]
          exact hu
        · intro hrest
          simp only [skipUsed, hget, hu, if_false]
          exact hsome hrest
        · intro hrest j hj
          simp only [skipUsed, hget, hu, if_false] at hj
          exact hend hrest j hj
    · have hdrop : mns.drop i = [] := List.drop_eq_nil_iff.mpr (by omega)
      refine ⟨[],[],hdrop,⟨List.nil_sublist _,by simp⟩,by simp,?_⟩
      intro _ j hj
      simp only [skipUsed, List.getElem?_eq_none (by omega : mns.length ≤ i)] at hj
      cases hj

end Scan

section Search
variable (passed : List CMasterNode) {stretch rest : List CMasterNode} (mn : CMasterNode) (steps : ℕ)

theorem passed_prefix (h : PassedOver V passed) : ∃ rest, shuffled V = passed++rest := by
  cases h with
  | nil => exact ⟨shuffled V,rfl⟩
  | more passed stretch rest mn _ _ hlist _ _ => exact ⟨rest,by simp [hlist]⟩

theorem stretch_found (h : PassedOver V passed) :
    ∃ stretch rest, shuffled V = passed++(stretch++rest) ∧ UsedStretch V stretch rest := by
  obtain ⟨tail,htail⟩ := passed_prefix V passed h
  obtain ⟨stretch,rest,heq,hs,_⟩ := skip_used_spec (shuffled V) V.vecMasternodesUsed passed.length
    (by simp [htail])
  refine ⟨stretch,rest,?_,hs⟩
  rw [← heq, htail, List.drop_left]

theorem skip_used_stretch (hlist : shuffled V = passed++(stretch++rest))
    (hused : UsedStretch V stretch rest) :
    (rest ≠ [] → skipUsed (shuffled V) V.vecMasternodesUsed passed.length =
      some (passed++stretch).length) ∧
    (rest = [] → ∀ j, skipUsed (shuffled V) V.vecMasternodesUsed passed.length = some j →
      (shuffled V)[j]? = none) := by
  obtain ⟨s,r,heq,hs,hsome,hend⟩ := skip_used_spec (shuffled V) V.vecMasternodesUsed passed.length
    (by simp [hlist])
  rw [hlist, List.drop_left] at heq
  obtain ⟨rfl,rfl⟩ := stretch_unique hused hs heq
  rw [List.length_append]
  exact ⟨hsome,hend⟩

theorem list_found (hlist : shuffled V = passed++(stretch++mn::rest)) :
    (shuffled V)[(passed++stretch).length]? = some mn := by
  rw [hlist, ← List.append_assoc, List.getElem?_append_right (le_refl _)]
  simp

theorem search_ended (hlist : shuffled V = passed++(stretch++[])) (hten : passed.length < 10)
    (hused : UsedStretch V stretch []) :
    chooseFrom V (steps+1) passed.length V.vNodes = .outOfBounds := by
  have hend := (skip_used_stretch V passed hlist hused).2 rfl
  rw [chooseFrom, if_neg (by omega)]
  cases hs : skipUsed (shuffled V) V.vecMasternodesUsed passed.length with
  | none => rfl
  | some j =>
    dsimp only
    rw [hend j hs]

theorem connected (i : ℕ) (addr : CService) (vNodes vNodes' : List CService)
    (h : connectNode V i addr vNodes = some vNodes') :
    vNodes'.any (fun pnode => pnode.ip == addr.ip) = true := by
  rw [List.any_eq_true]
  refine ⟨addr,?_,by simp⟩
  unfold connectNode at h
  split_ifs at h with _ hin
  · rwa [← Option.some.inj h]
  · rw [← Option.some.inj h]
    simp

section
variable (hlist : shuffled V = passed++(stretch++mn::rest)) (hten : passed.length < 10)
  (hused : UsedStretch V stretch (mn::rest))
include hlist hten hused

theorem search_passes
    (hmn : ¬ Answers V (passed++stretch).length mn) :
    chooseFrom V (steps+1) passed.length V.vNodes =
      chooseFrom V steps (passed++stretch++[mn]).length V.vNodes := by
  have hsome := (skip_used_stretch V passed hlist hused).1 (by simp)
  rw [chooseFrom, if_neg (by omega), hsome]
  dsimp only
  rw [list_found V passed mn hlist,
    show (passed++stretch++[mn]).length = (passed++stretch).length+1 from List.length_append]
  dsimp only
  cases hc : connectNode V (passed++stretch).length mn.addr V.vNodes with
  | none => simp only [ite_self]
  | some vNodes =>
    split_ifs with hv hr
    · rfl
    · rfl
    all_goals exact absurd ⟨by simpa using hv,by simpa using hr,by rw [hc]; rfl⟩ hmn

theorem search_asks
    (hmn : Answers V (passed++stretch).length mn) :
    chooseFrom V (steps+1) passed.length V.vNodes =
      if V.hasCollateral then .asked mn else .noCollateral := by
  have hsome := (skip_used_stretch V passed hlist hused).1 (by simp)
  obtain ⟨hv,hr,hc⟩ := hmn
  obtain ⟨vNodes,hc⟩ := Option.isSome_iff_exists.mp hc
  rw [chooseFrom, if_neg (by omega), hsome]
  dsimp only
  rw [list_found V passed mn hlist]
  simp only [hv, hr, hc, connected V _ _ _ _ hc, Bool.not_true, Bool.false_eq_true, if_true,
    if_false]

end

theorem passed_reached (h : PassedOver V passed) :
    ∃ k, ∀ steps, chooseFrom V (k+steps) 0 V.vNodes = chooseFrom V steps passed.length V.vNodes := by
  induction h with
  | nil => exact ⟨0,fun steps => by rw [Nat.zero_add]; rfl⟩
  | more passed stretch rest mn h hten hlist hused hmn ih =>
    obtain ⟨k,hk⟩ := ih
    refine ⟨k+1,fun steps => ?_⟩
    rw [Nat.add_assoc, Nat.add_comm 1, hk, search_passes V passed mn steps hlist hten
      hused hmn]

def Allowed (c : Choice) : Prop :=
  c ≠ .unfinished ∧ c ≠ .outOfBounds ∧ ∀ mn, c = .asked mn → mn.vin ∉ V.vecMasternodesUsed

theorem clear_allowed (hclear : Clear V) (h : PassedOver V passed)
    (hsteps : 10 ≤ passed.length+steps) :
    Allowed V (chooseFrom V (steps+1) passed.length V.vNodes) := by
  induction steps generalizing passed with
  | zero =>
    rw [chooseFrom, if_pos (by omega)]
    exact ⟨by simp,by simp,by simp⟩
  | succ steps ih =>
    by_cases hten : passed.length < 10
    · obtain ⟨stretch,rest,hlist,hused⟩ := stretch_found V passed h
      obtain ⟨mn,mns,rfl,hnew⟩ := hclear passed stretch rest h hten hlist hused
      by_cases hmn : Answers V (passed++stretch).length mn
      · rw [search_asks V passed mn _ hlist hten hused hmn]
        split_ifs with hc
        · refine ⟨by simp,by simp,?_⟩
          intro a ha
          rw [← Choice.asked.inj ha]
          exact hnew hmn hc
        · exact ⟨by simp,by simp,by simp⟩
      · rw [search_passes V passed mn _ hlist hten hused hmn]
        apply ih
        · exact .more passed stretch mns mn h hten hlist hused hmn
        · simp only [List.length_append, List.length_singleton]
          omega
    · rw [chooseFrom, if_pos (by omega)]
      exact ⟨by simp,by simp,by simp⟩

theorem allowed_clear (k : ℕ) (hsound : ∀ more, Allowed V (chooseFrom V (k+more) 0 V.vNodes)) :
    Clear V := by
  intro passed stretch rest h hten hlist hused
  obtain ⟨l,hl⟩ := passed_reached V passed h
  have hall : Allowed V (chooseFrom V (k+1) passed.length V.vNodes) := by
    have := hsound (l+1)
    rwa [show k+(l+1) = l+(k+1) by omega, hl] at this
  cases rest with
  | nil =>
    rw [search_ended V passed k hlist hten hused] at hall
    exact absurd rfl hall.2.1
  | cons mn mns =>
    refine ⟨mn,mns,rfl,?_⟩
    intro hmn hc
    rw [search_asks V passed mn k hlist hten hused hmn, if_pos hc] at hall
    exact hall.2.2 mn rfl

end Search

/-- The choice ends, stays within the list and asks no masternode that was used exactly where
the list is clear for it. -/
theorem choice_sound_iff : Sound V ↔ V.vecMasternodes = [] ∨ Clear V := by
  by_cases hempty : V.vecMasternodes = []
  · refine iff_of_true ⟨0,fun more => ?_⟩ (Or.inl hempty)
    simp [chooseMasternode, hempty]
  · have hchoose : ∀ steps, chooseMasternode V steps = chooseFrom V steps 0 V.vNodes := by
      intro steps
      rw [chooseMasternode, if_neg (by simpa using hempty)]
    constructor
    · rintro ⟨k,hk⟩
      right
      apply allowed_clear V k
      intro more
      rw [← hchoose]
      exact hk more
    · intro h
      refine ⟨11,fun more => ?_⟩
      rw [hchoose, show 11+more = (10+more)+1 by omega]
      exact clear_allowed V [] (10+more) (h.resolve_left hempty) .nil (by simp)

section Sample

def sampleView : View where
  __ := DarkSendSession.sampleView
  vecMasternodesUsed := [⟨⟨7,0⟩,[],uintMax⟩]
  order := ⟨id,fun mns => List.Perm.refl mns⟩
  vNodes := []
  isLocalAddr _ := false
  connectSocket _ := true
  hasCollateral := true

/-- The scan goes past the only masternode and past the end of the list. -/
theorem used_masternode_overruns : ¬ ∀ V : View, Sound V := by
  intro h
  obtain ⟨steps,hsteps⟩ := h sampleView
  exact (hsteps 1).2.1 rfl

end Sample

end SwippCore.MasternodeChoice
