import SwippCore.DenominationRuns
import SwippCore.LockedCoins

/-!
# Denominations of a session

The inputs and outputs that are prepared for a session, and runs of preparations.
-/

set_option autoImplicit false

namespace SwippCore.PrepareDenominate
open AvailableCoins CoinSelection Denominations PaymentRuns
open DarkSendPool (PoolStatus OutShuffle darkSendDenominations getDenominations darksendPoolMax)

section Model

structure Session where
  fLocked : Bool
  state : PoolStatus
  nMyTransactions : ℕ
  sessionDenom : ℤ
  minRounds : ℤ
  maxRounds : ℤ
  fMasterNode : Bool

/-- A result of `std::random_shuffle`. -/
structure Shuffle (α : Type) where
  order : List α → List α
  perm : ∀ xs, (order xs).Perm xs

/-- What chance decides, and the scripts of the keys that are reserved; none where a reservation
throws or its assertion fails. -/
structure Chance where
  coins : Shuffle COutput
  rand : COutPoint → ℕ × ℕ
  first : Shuffle ℤ
  second : Shuffle ℤ
  out : OutShuffle
  keys : ℕ → Option CScript

structure Result where
  strError : String
  setLockedCoins : Finset COutPoint
  /-- the inputs, the outputs and the amount that are given to the pool -/
  submitted : Option (List COutPoint × List CTxOut × ℤ)

variable (H : Holdings) (s : Session) (ch : Chance)

def request : DenominateRequest :=
  ⟨s.sessionDenom,coin/10,s.minRounds,s.maxRounds,s.fMasterNode,H.builder.rounds,ch.rand⟩

def vDenoms : List ℤ :=
  let vDenoms := ch.first.order (darkSendDenominations.flatMap fun d => [d,d])++
    (List.replicate 501 darkSendDenominations).flatten
  vDenoms.take (darkSendDenominations.length+1)++
    ch.second.order (vDenoms.drop (darkSendDenominations.length+1))

def fAccepted (v : ℤ) : Bool := anyBits.any fun x => s.sessionDenom.testBit x.1 && v == x.2

/-- The loop over the denominations. Each entry of the list is used once at most, since the count
of outputs starts again with it. -/
def makeOutputs : List ℤ → ℤ → List CTxOut → Option (List CTxOut × ℤ)
  | [], nValueLeft, vOut => some (vOut,nValueLeft)
  | v::vs, nValueLeft, vOut =>
    if !fAccepted s v then makeOutputs vs nValueLeft vOut
    else if 0 ≤ nValueLeft-v then
      (ch.keys vOut.length).bind fun scriptChange =>
        if nValueLeft-v = 0 then some (vOut++[⟨v,scriptChange⟩],nValueLeft-v)
        else makeOutputs vs (nValueLeft-v) (vOut++[⟨v,scriptChange⟩])
    else if nValueLeft = 0 then some (vOut,nValueLeft)
    else makeOutputs vs nValueLeft vOut

def mirrorInputs (n : ℕ) : List COutput → ℤ → List CTxOut → Option (List CTxOut × ℤ)
  | [], nValueLeft, vOut => some (vOut,nValueLeft)
  | out::outs, nValueLeft, vOut =>
    (ch.keys (n+vOut.length)).bind fun scriptChange =>
      if nValueLeft-value out = 0 then some (vOut++[⟨value out,scriptChange⟩],nValueLeft-value out)
      else mirrorInputs n outs (nValueLeft-value out) (vOut++[⟨value out,scriptChange⟩])

def getTotalValue (vin : List COutPoint) : ℤ := (vin.map H.inputValue).sum

def denominate (vCoins2 : List COutput) (nValueIn : ℤ) : Option Result :=
  let vCoins := vCoins2.map (prevout H.builder.env)
  let nTotalValue := getTotalValue H vCoins
  let locked := H.builder.V.setLockedCoins.toFinset ∪ vCoins.toFinset
  (makeOutputs s ch (vDenoms ch).reverse nTotalValue []).bind fun x =>
    (if 40 < x.1.length ∨ getDenominations x.1 ≠ s.sessionDenom ∨ x.2 ≠ 0 then
      mirrorInputs ch x.1.length vCoins2 nTotalValue [] else some x).map fun x =>
        if getDenominations x.1 ≠ s.sessionDenom then
          ⟨"Error: can't make current denominated outputs",locked,none⟩
        else if x.2 ≠ 0 then
          ⟨"Error: change left-over in pool. Must use denominations only",locked,none⟩
        else ⟨"",locked,some (vCoins,ch.out.order x.1,nValueIn)⟩

/-- `PrepareDarksendDenominate`; none where a reservation of a key throws, or fails its assertion. -/
def prepareDarksendDenominate : Option Result :=
  let unlocked := H.builder.V.setLockedCoins.toFinset
  if s.fLocked then
    some ⟨"Error: Wallet locked, unable to create transaction!",unlocked,none⟩
  else if s.state ≠ .error ∧ s.state ≠ .success ∧ 0 < s.nMyTransactions then
    some ⟨"Error: You already have pending entries in the Darksend pool",unlocked,none⟩
  else if 0 ≤ s.minRounds then
    let r := selectByDenominations (request H s ch) H.builder.V H.builder.env darksendPoolMax
      (ch.coins.order (H.offered none))
    if r.1 then denominate H s ch r.2.setCoinsRet r.2.nValueRet
    else some ⟨"Insufficient funds",unlocked,none⟩
  else denominate H s ch [] 0

end Model

end SwippCore.PrepareDenominate

namespace SwippCore.DenominateOutputs
open AvailableCoins CoinSelection Denominations DenominationRuns PaymentRuns PrepareDenominate
open SelectCoins (total_nil total_cons total_append total_perm total_nonneg)
open DarkSendPool (darkSendDenominations getDenominations)

section Masks

theorem sum_bits (f : ℕ × ℤ → Bool) {x : ℕ × ℤ} (hx : x ∈ anyBits) :
    ((anyBits.map fun y => if f y then 2^y.1 else 0).sum).testBit x.1 = f x := by
  have key : ∀ b0 b1 b2 b3 b4 b5 b6 : Bool, ∀ i : Fin 7,
      (([(b0,0),(b1,1),(b2,2),(b3,3),(b4,4),(b5,5),(b6,6)].map fun y : Bool × ℕ =>
        if y.1 then 2^y.2 else 0).sum).testBit i = [b0,b1,b2,b3,b4,b5,b6][i] := by decide
  have hlist : anyBits = [(0,100000*coin+100000000),(1,10000*coin+10000000),(2,1000*coin+1000000),
    (3,100*coin+100000),(4,10*coin+10000),(5,1*coin+1000),(6,10000000+100)] := rfl
  rw [hlist] at hx ⊢
  have h := key (f (0,100000*coin+100000000)) (f (1,10000*coin+10000000)) (f (2,1000*coin+1000000))
    (f (3,100*coin+100000)) (f (4,10*coin+10000)) (f (5,1*coin+1000)) (f (6,10000000+100))
  simp only [List.mem_cons, List.not_mem_nil, or_false] at hx
  rcases hx with rfl | rfl | rfl | rfl | rfl | rfl | rfl
  · exact h 0
  · exact h 1
  · exact h 2
  · exact h 3
  · exact h 4
  · exact h 5
  · exact h 6

variable {vout : List CTxOut}

theorem denominations_bit (hall : ∀ out ∈ vout, out.nValue ∈ darkSendDenominations) {x : ℕ × ℤ}
    (hx : x ∈ anyBits) :
    (getDenominations vout).testBit x.1 = vout.any fun out => out.nValue == x.2 := by
  have hall' : vout.all (fun out => decide (out.nValue ∈ darkSendDenominations)) = true := by
    rw [List.all_eq_true]
    exact fun out hout => decide_eq_true (hall out hout)
  have hzip : darkSendDenominations.zipIdx = anyBits.map fun x => (x.2,x.1) := by decide
  unfold getDenominations
  rw [if_pos hall', hzip, List.map_map]
  exact sum_bits (fun x => vout.any fun out => out.nValue == x.2) hx

theorem denominations_zero {out : CTxOut} (hout : out ∈ vout)
    (h : out.nValue ∉ darkSendDenominations) : getDenominations vout = 0 := by
  unfold getDenominations
  rw [if_neg]
  intro hall
  exact h (of_decide_eq_true (List.all_eq_true.mp hall out hout))

theorem denominations_perm {vout' : List CTxOut}
    (h : (vout.map CTxOut.nValue).Perm (vout'.map CTxOut.nValue)) :
    getDenominations vout = getDenominations vout' := by
  have hall : ∀ p : ℤ → Bool, (vout.all fun out => p out.nValue) = vout'.all fun out => p out.nValue := by
    intro p
    have heq := h.all_eq (f := p)
    rw [List.all_map, List.all_map] at heq
    exact heq
  have hany : ∀ p : ℤ → Bool, (vout.any fun out => p out.nValue) = vout'.any fun out => p out.nValue := by
    intro p
    have heq := h.any_eq (f := p)
    rw [List.any_map, List.any_map] at heq
    exact heq
  unfold getDenominations
  rw [hall fun v => decide (v ∈ darkSendDenominations)]
  congr 3
  funext d
  rw [hany fun v => v == d.1]

end Masks

section Outputs
variable (s : Session) (ch : Chance)

theorem make_outputs_total {vs : List ℤ} (nValueLeft : ℤ) (vOut : List CTxOut) {x : List CTxOut × ℤ}
    (h : makeOutputs s ch vs nValueLeft vOut = some x) :
    (x.1.map CTxOut.nValue).sum+x.2 = (vOut.map CTxOut.nValue).sum+nValueLeft := by
  induction vs generalizing nValueLeft vOut with
  | nil =>
    cases h
    rfl
  | cons v vs ih =>
    have hnext : ∀ scriptChange, ((vOut++[(⟨v,scriptChange⟩ : CTxOut)]).map CTxOut.nValue).sum+(nValueLeft-v) =
        (vOut.map CTxOut.nValue).sum+nValueLeft := by
      intro scriptChange
      rw [List.map_append, List.sum_append, List.map_singleton, List.sum_singleton]
      change (vOut.map CTxOut.nValue).sum+v+(nValueLeft-v) = _
      omega
    unfold makeOutputs at h
    split at h
    · exact ih _ _ h
    · split at h
      · obtain ⟨scriptChange,_,h⟩ := Option.bind_eq_some_iff.mp h
        split at h
        · cases h
          exact hnext scriptChange
        · rw [ih _ _ h]
          exact hnext scriptChange
      · split at h
        · cases h
          rfl
        · exact ih _ _ h

theorem make_outputs_some (hkeys : ∀ n, ch.keys n ≠ none) (vs : List ℤ) (nValueLeft : ℤ) (vOut : List CTxOut) :
    ∃ x, makeOutputs s ch vs nValueLeft vOut = some x := by
  induction vs generalizing nValueLeft vOut with
  | nil => exact ⟨_,rfl⟩
  | cons v vs ih =>
    unfold makeOutputs
    split
    · exact ih _ _
    · split
      · obtain ⟨scriptChange,hkey⟩ := Option.ne_none_iff_exists'.mp (hkeys vOut.length)
        rw [hkey, Option.bind_some]
        split
        · exact ⟨_,rfl⟩
        · exact ih _ _
      · split
        · exact ⟨_,rfl⟩
        · exact ih _ _

/-- The outputs of the second way have the values of the inputs, and nothing is left. -/
theorem mirror_inputs_values {n : ℕ} {cs : List COutput} (hpos : ∀ c ∈ cs, 0 < value c)
    (vOut : List CTxOut) {x : List CTxOut × ℤ} (h : mirrorInputs ch n cs (total cs) vOut = some x) :
    x.1.map CTxOut.nValue = vOut.map CTxOut.nValue++cs.map value ∧ x.2 = 0 := by
  induction cs generalizing vOut with
  | nil =>
    cases h
    exact ⟨(List.append_nil _).symm,rfl⟩
  | cons c cs ih =>
    have hrest : ∀ x ∈ cs, 0 < value x := fun x hx => hpos x (List.mem_cons_of_mem c hx)
    unfold mirrorInputs at h
    obtain ⟨scriptChange,_,h⟩ := Option.bind_eq_some_iff.mp h
    rw [total_cons, add_sub_cancel_left] at h
    split at h
    · rename_i hzero
      cases h
      have hnil : cs = [] := by
        cases cs with
        | nil => rfl
        | cons d ds =>
          have hd := hrest d List.mem_cons_self
          have hds := total_nonneg ds fun x hx => le_of_lt (hrest x (List.mem_cons_of_mem d hx))
          rw [total_cons] at hzero
          omega
      subst hnil
      refine ⟨?_,rfl⟩
      rw [List.map_append]
      rfl
    · obtain ⟨hvalues,hzero⟩ := ih hrest _ h
      refine ⟨?_,hzero⟩
      rw [hvalues, List.map_append, List.append_assoc]
      rfl

theorem mirror_inputs_some (hkeys : ∀ n, ch.keys n ≠ none) (n : ℕ) (cs : List COutput) (nValueLeft : ℤ)
    (vOut : List CTxOut) : ∃ x, mirrorInputs ch n cs nValueLeft vOut = some x := by
  induction cs generalizing nValueLeft vOut with
  | nil => exact ⟨_,rfl⟩
  | cons c cs ih =>
    unfold mirrorInputs
    obtain ⟨scriptChange,hkey⟩ := Option.ne_none_iff_exists'.mp (hkeys (n+vOut.length))
    rw [hkey, Option.bind_some]
    split
    · exact ⟨_,rfl⟩
    · exact ih _ _

end Outputs

section Smallest
variable (s : Session) (ch : Chance) (v : ℤ)

theorem nothing_fits (hleast : ∀ u, fAccepted s u = true → v ≤ u) (vs : List ℤ) (nValueLeft : ℤ)
    (hless : nValueLeft < v) (vOut : List CTxOut) :
    makeOutputs s ch vs nValueLeft vOut = some (vOut,nValueLeft) := by
  induction vs with
  | nil => rfl
  | cons u vs ih =>
    unfold makeOutputs
    cases haccept : fAccepted s u with
    | false => exact ih
    | true =>
      have hle := hleast u haccept
      rw [Bool.not_true, if_neg Bool.false_ne_true, if_neg (by omega)]
      split
      · rfl
      · exact ih

theorem make_outputs_length {vs : List ℤ} (nValueLeft : ℤ) (vOut : List CTxOut)
    {x : List CTxOut × ℤ} (h : makeOutputs s ch vs nValueLeft vOut = some x) :
    vOut.length ≤ x.1.length := by
  induction vs generalizing nValueLeft vOut with
  | nil =>
    cases h
    exact le_refl _
  | cons u vs ih =>
    have hnext : ∀ scriptChange, vOut.length ≤ (vOut++[(⟨u,scriptChange⟩ : CTxOut)]).length := by
      intro scriptChange
      rw [List.length_append]
      exact Nat.le_add_right _ _
    unfold makeOutputs at h
    split at h
    · exact ih _ _ h
    · split at h
      · obtain ⟨scriptChange,_,h⟩ := Option.bind_eq_some_iff.mp h
        split at h
        · cases h
          exact hnext scriptChange
        · exact le_trans (hnext scriptChange) (ih _ _ h)
      · split at h
        · cases h
          exact le_refl _
        · exact ih _ _ h

theorem smallest_first (haccept : fAccepted s v = true) (hleast : ∀ u, fAccepted s u = true → v ≤ u)
    {k : ℕ} {vs : List ℤ} (nValueLeft : ℤ) (vOut : List CTxOut) {x : List CTxOut × ℤ}
    (h : makeOutputs s ch (List.replicate k v++vs) nValueLeft vOut = some x)
    (hvalues : ∀ out ∈ vOut, out.nValue = v) :
    vOut.length+k ≤ x.1.length ∨ ∀ out ∈ x.1, out.nValue = v := by
  induction k generalizing nValueLeft vOut with
  | zero => exact Or.inl (make_outputs_length s ch nValueLeft vOut h)
  | succ k ih =>
    rw [List.replicate_succ, List.cons_append] at h
    unfold makeOutputs at h
    rw [haccept, Bool.not_true, if_neg Bool.false_ne_true] at h
    split at h
    · obtain ⟨scriptChange,_,h⟩ := Option.bind_eq_some_iff.mp h
      have hmore : ∀ out ∈ vOut++[(⟨v,scriptChange⟩ : CTxOut)], out.nValue = v := by
        intro out hout
        rcases List.mem_append.mp hout with hout | hout
        · exact hvalues out hout
        · rw [List.mem_singleton.mp hout]
      split at h
      · cases h
        exact Or.inr hmore
      · rcases ih _ _ h hmore with hmany | hall
        · rw [List.length_append, List.length_singleton] at hmany
          exact Or.inl (by omega)
        · exact Or.inr hall
    · right
      split at h
      · cases h
        exact hvalues
      · rw [nothing_fits s ch v hleast _ nValueLeft (by omega)] at h
        cases h
        exact hvalues

end Smallest

end SwippCore.DenominateOutputs

namespace SwippCore.PrepareDenominateRuns
open AvailableCoins CoinSelection Denominations DenominationRuns PaymentRuns PrepareDenominate
  DenominateOutputs
open SelectCoins (total_nil total_cons total_append total_perm total_nonneg)
open DarkSendPool (OutShuffle darkSendDenominations getDenominations darksendPoolMax)

section Statement
variable (H : Holdings) (s : Session)

def asked : DenominateRequest :=
  ⟨s.sessionDenom,coin/10,s.minRounds,s.maxRounds,s.fMasterNode,H.builder.rounds,fun _ => (0,0)⟩

/-- A session that goes to the pool is balanced and has its denominations; any other leaves a
message and the locks as they were. -/
def Balanced (r : Result) : Prop :=
  (∃ vin vout nValueIn, r.submitted = some (vin,vout,nValueIn) ∧
    getTotalValue H vin = (vout.map CTxOut.nValue).sum ∧ getDenominations vout = s.sessionDenom) ∨
  (r.submitted = none ∧ r.strError ≠ "" ∧ r.setLockedCoins = H.builder.V.setLockedCoins.toFinset)

def Pending : Prop := s.state ≠ .error ∧ s.state ≠ .success ∧ 0 < s.nMyTransactions

/-- The selection can find coins: each denomination of the mask is there, and has its bit in the
first table as well. -/
def Selectable : Prop :=
  (∃ v, wanted (asked H s) v = true) ∧ (∀ v, wanted (asked H s) v = true → wantedFirst (asked H s) v = true) ∧
    ∀ v, wanted (asked H s) v = true → ∃ c ∈ H.offered none, value c = v ∧
      inRounds (asked H s) H.builder.env c = true

def Mixed : Prop :=
  ∃ c ∈ H.offered none, wantedFirst (asked H s) (value c) = true ∧
    inRounds (asked H s) H.builder.env c = true ∧ wanted (asked H s) (value c) = false

def Spared : Prop :=
  s.fLocked = true ∨ Pending s ∨ s.minRounds < 0 ∨ ¬ Selectable H s ∨
    ((0 ≤ s.sessionDenom ∧ s.sessionDenom < 128) ∧ ¬ Mixed H s)

end Statement

section Coins
variable (H : Holdings) (s : Session)

theorem holdings_keyed : WalletMarks.Keyed H.builder.env H.builder.mapWallet := by
  intro k tx htx hne
  obtain ⟨w,hw,rfl⟩ := Option.map_eq_some_iff.mp htx
  exact H.keyed k w hw hne

theorem offered_value {c : COutput} (hc : c ∈ H.offered none) :
    H.inputValue (prevout H.builder.env c) = value c := by
  obtain ⟨out,hlook,hout,_⟩ := mem_offered H none hc
  unfold Holdings.inputValue Holdings.spentOutput prevout CoinSelection.value
  rw [hlook, Option.bind_some]

theorem total_of_coins {cs : List COutput} (h : ∀ c ∈ cs, c ∈ H.offered none) :
    getTotalValue H (cs.map (prevout H.builder.env)) = total cs := by
  unfold getTotalValue total
  rw [List.map_map]
  congr 1
  apply List.map_congr_left
  intro c hc
  exact offered_value H (h c hc)

end Coins

section Denominating
variable (H : Holdings) (s : Session) (ch : Chance)

inductive Ending (cs : List COutput) (nValueIn : ℤ) : Result → Prop where
  | tried (vOut : List CTxOut) (hmake : makeOutputs s ch (vDenoms ch).reverse (total cs) [] = some (vOut,0))
    (hlength : vOut.length ≤ 40) (hmask : getDenominations vOut = s.sessionDenom) (locks : Finset COutPoint) :
    Ending cs nValueIn ⟨"",locks,some (cs.map (prevout H.builder.env),ch.out.order vOut,nValueIn)⟩
  | mirrored (vOut : List CTxOut) (hvalues : vOut.map CTxOut.nValue = cs.map value)
    (hmask : getDenominations vOut = s.sessionDenom) (locks : Finset COutPoint) :
    Ending cs nValueIn ⟨"",locks,some (cs.map (prevout H.builder.env),ch.out.order vOut,nValueIn)⟩
  | refused (vOut : List CTxOut) (hvalues : vOut.map CTxOut.nValue = cs.map value)
    (hmask : getDenominations vOut ≠ s.sessionDenom) :
    Ending cs nValueIn ⟨"Error: can't make current denominated outputs",
      H.builder.V.setLockedCoins.toFinset ∪ (cs.map (prevout H.builder.env)).toFinset,none⟩

variable {cs : List COutput}

theorem denominate_cases {nValueIn : ℤ} (hin : ∀ c ∈ cs, c ∈ H.offered none)
    (hpos : ∀ c ∈ cs, 0 < value c) {r : Result} (h : denominate H s ch cs nValueIn = some r) :
    Ending H s ch cs nValueIn r := by
  unfold denominate at h
  dsimp only at h
  rw [total_of_coins H hin] at h
  obtain ⟨⟨vOut,nValueLeft⟩,hmake,h⟩ := Option.bind_eq_some_iff.mp h
  obtain ⟨⟨vOut',nValueLeft'⟩,hagain,rfl⟩ := Option.map_eq_some_iff.mp h
  split at hagain
  · obtain ⟨hvalues,hzero⟩ := mirror_inputs_values ch hpos [] hagain
    dsimp only at hvalues hzero ⊢
    subst hzero
    split
    · rename_i hmask
      exact .refused vOut' hvalues hmask
    · rename_i hmask
      rw [if_neg (fun h => h rfl)]
      exact .mirrored vOut' hvalues (not_not.mp hmask) _
  · rename_i hfine
    cases hagain
    rw [not_or, not_or, not_not, not_not, not_lt] at hfine
    obtain ⟨hlength,hmask,rfl⟩ := hfine
    rw [if_neg (not_not.mpr hmask), if_neg (fun h => h rfl)]
    exact .tried vOut hmake hlength hmask _

theorem denominate_some (hkeys : ∀ n, ch.keys n ≠ none) (cs : List COutput) (nValueIn : ℤ) :
    ∃ r, denominate H s ch cs nValueIn = some r := by
  unfold denominate
  dsimp only
  obtain ⟨x,hx⟩ := make_outputs_some s ch hkeys (vDenoms ch).reverse
    (getTotalValue H (cs.map (prevout H.builder.env))) []
  rw [hx, Option.bind_some]
  split
  · obtain ⟨y,hy⟩ := mirror_inputs_some ch hkeys x.1.length cs
      (getTotalValue H (cs.map (prevout H.builder.env))) []
    rw [hy]
    exact ⟨_,rfl⟩
  · exact ⟨_,rfl⟩

/-- A session that goes to the pool is balanced, in whichever order its outputs are. -/
theorem submitted_balanced (nValueIn : ℤ) (hin : ∀ c ∈ cs, c ∈ H.offered none) {vOut : List CTxOut}
    (hsum : (vOut.map CTxOut.nValue).sum = total cs)
    (hmask : getDenominations vOut = s.sessionDenom) (locks : Finset COutPoint) :
    Balanced H s ⟨"",locks,some (cs.map (prevout H.builder.env),ch.out.order vOut,nValueIn)⟩ := by
  have hperm : ((ch.out.order vOut).map CTxOut.nValue).Perm (vOut.map CTxOut.nValue) :=
    (ch.out.perm vOut).map CTxOut.nValue
  refine Or.inl ⟨_,_,_,rfl,?_,?_⟩
  · rw [total_of_coins H hin, hperm.sum_eq, hsum]
  · rw [denominations_perm hperm]
    exact hmask

theorem ending_balanced {nValueIn : ℤ} (hin : ∀ c ∈ cs, c ∈ H.offered none) {r : Result}
    (h : Ending H s ch cs nValueIn r)
    (hfine : cs = [] ∨ ∀ vOut : List CTxOut, vOut.map CTxOut.nValue = cs.map value →
      getDenominations vOut = s.sessionDenom) : Balanced H s r := by
  cases h with
  | tried vOut hmake hlength hmask locks =>
    have hsum := make_outputs_total s ch _ _ hmake
    rw [List.map_nil, List.sum_nil, zero_add, add_zero] at hsum
    exact submitted_balanced H s ch nValueIn hin hsum hmask locks
  | mirrored vOut hvalues hmask locks =>
    exact submitted_balanced H s ch nValueIn hin (congrArg List.sum hvalues) hmask locks
  | refused vOut hvalues hmask =>
    rcases hfine with rfl | hfine
    · have hmessage : "Error: can't make current denominated outputs" ≠ "" := by decide
      refine Or.inr ⟨rfl,hmessage,?_⟩
      rw [List.map_nil, List.toFinset_nil, Finset.union_empty]
    · exact absurd (hfine vOut hvalues) hmask

end Denominating

section Selection
variable (H : Holdings) (s : Session) (ch : Chance)

def chosen : Bool × Denominated :=
  selectByDenominations (request H s ch) H.builder.V H.builder.env darksendPoolMax (ch.coins.order (H.offered none))

def Fitting (c : COutput) : Prop :=
  (wanted (asked H s) (value c) = true ∨ wantedFirst (asked H s) (value c) = true) ∧
    inRounds (asked H s) H.builder.env c = true

theorem fitting_pos (c : COutput) (h : Fitting H s c) : 0 < value c := by
  rcases h.1 with hw | hw
  · exact denominated_pos _ (wanted_denominated (asked H s) hw)
  · exact denominated_pos _ (first_denominated (asked H s) hw)

theorem admits_fitting (vCoins : List COutput) :
    Admits (request H s ch) H.builder.V H.builder.env (Fitting H s) darksendPoolMax vCoins where
  accepted d out _ _ hpass haccept := by
    refine ⟨?_,passes_rounds (request H s ch) H.builder.V H.builder.env hpass⟩
    unfold accepts at haccept
    split at haccept
    · exact Or.inl haccept
    · exact Or.inr haccept
  pos c h := fitting_pos H s c h

structure Chosen : Prop where
  among : ∀ c ∈ (chosen H s ch).2.setCoinsRet, c ∈ H.offered none
  fitting : ∀ c ∈ (chosen H s ch).2.setCoinsRet, Fitting H s c
  ne : (chosen H s ch).2.setCoinsRet ≠ []
  all : ∀ v, wanted (asked H s) v = true → ∃ c ∈ (chosen H s ch).2.setCoinsRet, value c = v
  first : ∀ v, wanted (asked H s) v = true → wantedFirst (asked H s) v = true

theorem chosen_ok (h : (chosen H s ch).1 = true) : Chosen H s ch := by
  have hin : ∀ c ∈ ch.coins.order (H.offered none), c ∈ H.offered none :=
    fun c hc => (ch.coins.perm _).subset hc
  have hadmits := admits_fitting H s ch (H.offered none)
  obtain ⟨hinv,hiff⟩ := select_inv (request H s ch) H.builder.V H.builder.env darksendPoolMax
     (by decide) hadmits hin
  have hdone : done (request H s ch) (chosen H s ch).2 := hiff.mp h
  have hserves : Serves (request H s ch) (chosen H s ch).2.setCoinsRet :=
    (done_iff (request H s ch) (Fitting H s) darksendPoolMax hinv).mp hdone
  refine ⟨fun c hc => hin c (hinv.among.subset hc),hinv.sound,?_,hserves.1,?_⟩
  · intro hnil
    have hmin : coin/10 ≤ total (chosen H s ch).2.setCoinsRet := hserves.2
    rw [hnil, total_nil] at hmin
    exact absurd hmin (by decide)
  · intro v hv
    by_contra hfirst
    obtain ⟨c,hc,heq⟩ := hserves.1 v hv
    exact missed_stays (request H s ch) H.builder.V H.builder.env (Fitting H s) darksendPoolMax
      hadmits hv (eq_false_of_ne_true hfirst) _ [] _
      (inv_start (request H s ch) (Fitting H s) darksendPoolMax (by decide)) hin (fun x hx => by cases hx)
      c hc heq

theorem some_wanted {c : COutput} (h : Fitting H s c) : ∃ v, wanted (asked H s) v = true := by
  rcases h.1 with hw | hw
  · exact ⟨_,hw⟩
  · obtain ⟨x,hx,hset,_⟩ := (wanted_first_iff (asked H s) _).mp hw
    obtain ⟨y,hy,heq⟩ := missing_bits_any x hx
    rw [← heq] at hset
    exact ⟨y.2,(wanted_iff (asked H s) y.2).mpr ⟨y,hy,hset,rfl⟩⟩

theorem chosen_selectable (h : (chosen H s ch).1 = true) : Selectable H s := by
  have hc := chosen_ok H s ch h
  obtain ⟨c,hmem⟩ := List.exists_mem_of_ne_nil _ hc.ne
  refine ⟨some_wanted H s (hc.fitting c hmem),hc.first,?_⟩
  intro v hv
  obtain ⟨x,hx,heq⟩ := hc.all v hv
  exact ⟨x,hc.among x hx,heq,(hc.fitting x hx).2⟩

theorem chosen_mask (h : (chosen H s ch).1 = true)
    (hmask : 0 ≤ s.sessionDenom ∧ s.sessionDenom < 128) (hmixed : ¬ Mixed H s)
    (vOut : List CTxOut) (hvalues : vOut.map CTxOut.nValue = (chosen H s ch).2.setCoinsRet.map value) :
    getDenominations vOut = s.sessionDenom := by
  have hc := chosen_ok H s ch h
  have hgood : ∀ c ∈ (chosen H s ch).2.setCoinsRet, good (asked H s) H.builder.env c = true := by
    intro c hmem
    have hfit := hc.fitting c hmem
    unfold good
    rw [hfit.2, Bool.and_true]
    rcases hfit.1 with hw | hw
    · exact hw
    · by_contra hnot
      exact hmixed ⟨c,hc.among c hmem,hw,hfit.2,eq_false_of_ne_true hnot⟩
  have hserves : Serves (asked H s) (chosen H s ch).2.setCoinsRet := by
    refine ⟨hc.all,?_⟩
    obtain ⟨v,hv⟩ := (chosen_selectable H s ch h).1
    obtain ⟨x,hx,heq⟩ := hc.all v hv
    have hsmall : ∀ v ∈ darkSendDenominations, coin/10 ≤ v := by decide
    have hv' := hsmall v (wanted_denominated (asked H s) hv)
    have hle := SelectCoins.value_le_total (fun c hmem => le_of_lt (good_pos _ _ (hgood c hmem))) hx
    change coin/10 ≤ _
    omega
  change _ = (asked H s).nDenom
  rw [← serves_mask (asked H s) hgood hserves hmask]
  apply congrArg Nat.cast
  apply denominations_perm
  rw [hvalues, List.map_map]
  exact List.Perm.refl _

theorem spared_balanced (hspared : Spared H s) {r : Result}
    (h : PrepareDenominate.prepareDarksendDenominate H s ch = some r) : Balanced H s r := by
  unfold PrepareDenominate.prepareDarksendDenominate at h
  dsimp only at h
  have hmessages : "Error: Wallet locked, unable to create transaction!" ≠ "" ∧
      "Error: You already have pending entries in the Darksend pool" ≠ "" ∧ "Insufficient funds" ≠ "" := by
    decide
  split at h
  · cases h
    exact Or.inr ⟨rfl,hmessages.1,rfl⟩
  · rename_i hunlocked
    split at h
    · cases h
      exact Or.inr ⟨rfl,hmessages.2.1,rfl⟩
    · rename_i hready
      split at h
      · rename_i hrounds
        split at h
        · rename_i hfound
          have hchosen : (chosen H s ch).1 = true := hfound
          have hc := chosen_ok H s ch hchosen
          have hend := denominate_cases H s ch hc.among (fun c hmem => fitting_pos H s c (hc.fitting c hmem)) h
          apply ending_balanced H s ch hc.among hend
          right
          rcases hspared with hlocked | hpending | hneg | hnot | ⟨hmask,hmixed⟩
          · exact absurd hlocked hunlocked
          · exact absurd hpending hready
          · omega
          · exact absurd (chosen_selectable H s ch hchosen) hnot
          · exact chosen_mask H s ch hchosen hmask hmixed
        · cases h
          exact Or.inr ⟨rfl,hmessages.2.2,rfl⟩
      · have hend := denominate_cases H s ch (fun c hc => by cases hc) (fun c hc => by cases hc) h
        exact ending_balanced H s ch (fun c hc => by cases hc) hend (Or.inl rfl)

end Selection

section Leading
variable (q : DenominateRequest) (V : CoinView) (env : Env) (p : COutput → Prop) (nValueMax : ℤ)

theorem first_step (nCoins : ℕ) {c : COutput} (outs seen : List COutput) {d : Denominated}
    (h : Inv q p nValueMax seen d) (hmax : d.nValueMax = nValueMax) (hmissing : allFound d = false)
    (hfirst : wantedFirst q (value c) = true) (hrounds : inRounds q env c = true) (hp : p c)
    (hfit : total (d.setCoinsRet++[c]) ≤ nValueMax) :
    ∃ d', Inv q p nValueMax (seen++[c]) d' ∧ d'.nValueMax = nValueMax ∧
      d'.setCoinsRet = d.setCoinsRet++[c] ∧
      takeDenominations V env q nCoins (c::outs) d = takeDenominations V env q nCoins outs d' := by
  have hpass : passes q V env c = true := by
    rw [denominated_passes q V env (first_denominated q hfirst)]
    exact hrounds
  have haccept : accepts q d (value c) = true := by
    unfold accepts
    rw [hmissing, if_neg Bool.false_ne_true]
    exact hfirst
  rw [total_append, total_cons, total_nil, add_zero, ← h.sum] at hfit
  have hcase := turn_cases q V env nCoins c d
  rw [take_cons]
  generalize turn q V env nCoins c d = t at hcase
  cases hcase with
  | stops hall hmin =>
    rw [hmissing] at hall
    cases hall
  | keeps n hn hskip =>
    exfalso
    rcases hskip with hfull | hnot | hnot
    · omega
    · rw [hpass] at hnot
      cases hnot
    · rw [haccept] at hnot
      cases hnot
  | takes n hn hfits _ _ =>
    refine ⟨take d c n,inv_take q p nValueMax h hp hfits (hn h.five),?_,rfl,rfl⟩
    rcases (hn h.five).reason with hsame | ⟨hall,_⟩
    · exact hsame.trans hmax
    · rw [hmissing] at hall
      cases hall

theorem first_steps {v : ℤ} (hv : wanted q v = true) (nCoins : ℕ) (cs outs seen : List COutput)
    (d : Denominated) (h : Inv q p nValueMax seen d) (hmax : d.nValueMax = nValueMax)
    (hcs : ∀ c ∈ cs, wantedFirst q (value c) = true ∧ inRounds q env c = true ∧ p c ∧ value c ≠ v)
    (hpos : ∀ c, p c → 0 < value c) (hmiss : ∀ c ∈ d.setCoinsRet, value c ≠ v)
    (hfit : total (d.setCoinsRet++cs) ≤ nValueMax) :
    ∃ d', Inv q p nValueMax (seen++cs) d' ∧ d'.nValueMax = nValueMax ∧
      d'.setCoinsRet = d.setCoinsRet++cs ∧
      takeDenominations V env q nCoins (cs++outs) d = takeDenominations V env q nCoins outs d' := by
  induction cs generalizing seen d with
  | nil => exact ⟨d,inv_more q p nValueMax [] h,hmax,(List.append_nil _).symm,rfl⟩
  | cons c cs ih =>
    obtain ⟨hfirst,hrounds,hp,hne⟩ := hcs c List.mem_cons_self
    have hrest := fun x hx => hcs x (List.mem_cons_of_mem c hx)
    have hmissing : allFound d = false := by
      apply eq_false_of_ne_true
      intro hall
      obtain ⟨x,hx,heq⟩ := (all_found_iff q p nValueMax h).mp hall v hv
      exact hmiss x hx heq
    rw [List.append_cons] at hfit
    have hless := total_nonneg cs fun x hx => le_of_lt (hpos x (hrest x hx).2.2.1)
    rw [total_append] at hfit
    obtain ⟨d₁,h₁,hmax₁,hset₁,htake₁⟩ := first_step q V env p nValueMax nCoins (cs++outs) seen h hmax
      hmissing hfirst hrounds hp (by omega)
    obtain ⟨d₂,h₂,hmax₂,hset₂,htake₂⟩ := ih (seen++[c]) d₁ h₁ hmax₁ hrest (by
      rw [hset₁]
      intro x hx
      rcases List.mem_append.mp hx with hx | hx
      · exact hmiss x hx
      · obtain rfl := List.mem_singleton.mp hx
        exact hne) (by
      rw [hset₁, total_append]
      exact hfit)
    refine ⟨d₂,?_,hmax₂,?_,?_⟩
    · rw [List.append_cons]
      exact h₂
    · rw [hset₂, hset₁, ← List.append_cons]
    · rw [List.cons_append, htake₁, htake₂]

theorem stays_done (hrand : q.rand = fun _ => (0,0)) (nCoins : ℕ) (outs : List COutput)
    {d : Denominated} (hdone : done q d) (hne : d.setCoinsRet ≠ []) :
    (takeDenominations V env q nCoins outs d).2 = d := by
  induction outs with
  | nil => rfl
  | cons out outs ih =>
    have hturn : turn q V env nCoins out d = some d ∨ turn q V env nCoins out d = none := by
      unfold turn
      rw [hdone.1, hrand]
      split
      · exact Or.inl rfl
      · right
        have hlength : 0%nCoins < d.setCoinsRet.length := by
          rw [Nat.zero_mod]
          exact List.length_pos_iff.mpr hne
        dsimp only
        rw [if_pos rfl, decide_eq_true hdone.2, decide_eq_true hlength]
        rfl
    rw [take_cons]
    rcases hturn with hturn | hturn
    · rw [hturn]
      exact ih
    · rw [hturn]
      rfl

end Leading

end SwippCore.PrepareDenominateRuns
