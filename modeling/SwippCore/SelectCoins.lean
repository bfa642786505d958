import SwippCore.CoinSelection
import SwippCore.Lib.Knapsack

/-!
# Selection of coins

`SelectCoinsMinConf` with its turns, the best subset, and the sums that are selected.
-/

set_option autoImplicit false

namespace SwippCore.SelectCoins
open AvailableCoins CoinSelection Masks

section Subsets

structure Best where
  vfBest : List Bool
  nBest : ℤ

/-- One round of `ApproximateBestSubset`. -/
structure Round where
  vfIncluded : List Bool
  nTotal : ℤ
  fReachedTarget : Bool
  best : Best

variable (vValue : List ℤ) (nTargetValue : ℤ)

def Round.include (i : ℕ) (r : Round) : Round :=
  let nTotal := r.nTotal+vValue.getD i 0
  let vfIncluded := r.vfIncluded.set i true
  if nTargetValue ≤ nTotal then {
    vfIncluded := vfIncluded.set i false
    nTotal := nTotal-vValue.getD i 0
    fReachedTarget := true
    best := if nTotal < r.best.nBest then ⟨vfIncluded,nTotal⟩ else r.best }
  else { r with vfIncluded := vfIncluded, nTotal := nTotal }

def firstPass (bit : ℕ → Bool) : List ℕ → Round → Round
  | [], r => r
  | i::is, r => firstPass bit is (if bit i then r.include vValue nTargetValue i else r)

def secondPass : List ℕ → Round → Round
  | [], r => r
  | i::is, r =>
    secondPass is (if !r.vfIncluded.getD i false then r.include vValue nTargetValue i else r)

def oneRound (bit : ℕ → Bool) (best : Best) : Best :=
  let r := firstPass vValue nTargetValue bit (List.range vValue.length)
    ⟨List.replicate vValue.length false,0,false,best⟩
  if r.fReachedTarget then r.best
  else (secondPass vValue nTargetValue (List.range vValue.length) r).best

/-- The rounds of `ApproximateBestSubset` with the bits of `insecure_rand` in each. -/
def rounds : List (ℕ → Bool) → Best → Best
  | [], best => best
  | bit::bits, best =>
    if best.nBest = nTargetValue then best else rounds bits (oneRound vValue nTargetValue bit best)

def approximateBestSubset (nTotalLower : ℤ) (iterations : List (ℕ → Bool)) : Best :=
  rounds vValue nTargetValue iterations ⟨List.replicate vValue.length true,nTotalLower⟩

end Subsets

section Chosen

abbrev CoinId := CWalletTx × ℕ

def key (c : COutput) : CoinId := (c.tx,c.i)

def amount (x : CoinId) : ℤ := ((x.1.tx.vout[x.2]?).map CTxOut.nValue).getD 0

structure Chosen where
  setCoinsRet : Finset CoinId
  nValueRet : ℤ

def Chosen.empty : Chosen := ⟨∅,0⟩

def Chosen.insert (c : COutput) (ch : Chosen) : Chosen :=
  ⟨Insert.insert (key c) ch.setCoinsRet,ch.nValueRet+value c⟩

def Chosen.insertAll : List COutput → Chosen → Chosen
  | [], ch => ch
  | c::cs, ch => Chosen.insertAll cs (ch.insert c)

end Chosen

section Choosing

structure Chance where
  /-- `random_shuffle` -/
  shuffle : List COutput → List COutput
  shuffle_perm : ∀ cs, (shuffle cs).Perm cs
  /-- `sort` with the largest value first -/
  sort : List COutput → List COutput
  sort_perm : ∀ cs, (sort cs).Perm cs
  sorted : ∀ cs, (sort cs).Pairwise fun a b => value b ≤ value a
  first : List (ℕ → Bool)
  second : List (ℕ → Bool)

structure Request where
  nTargetValue : ℤ
  nSpendTime : ℕ
  nConfMine : ℤ
  nConfTheirs : ℤ

/-- `sort` by `less_then_denom`; the order inside the two parts is that of the shuffling. -/
def denomsDown (vCoins : List COutput) : List COutput :=
  (vCoins.filter fun c => !isDenominatedAmount (value c))++
    vCoins.filter fun c => isDenominatedAmount (value c)

def int64Max : ℤ := 9223372036854775807

variable (fromMe : CWalletTx → Bool) (q : Request)

def tries (tryDenom : ℕ) (c : COutput) : Bool :=
  eligible fromMe q.nSpendTime q.nConfMine q.nConfTheirs c &&
    !(tryDenom == 0 && isDenominatedAmount (value c))

/-- What the loop over the coins finds: a coin of the value asked for, or the small coins with
their sum and the smallest of the large ones. -/
inductive Found where
  | exact (coin : COutput)
  | split (vValue : List COutput) (nTotalLower : ℤ) (coinLowestLarger : Option COutput)

def find (tryDenom : ℕ) : List COutput → List COutput → ℤ → Option COutput → Found
  | [], vValue, nTotalLower, coinLowestLarger => .split vValue nTotalLower coinLowestLarger
  | c::vCoins, vValue, nTotalLower, coinLowestLarger =>
    if !tries fromMe q tryDenom c then find tryDenom vCoins vValue nTotalLower coinLowestLarger
    else if value c = q.nTargetValue then .exact c
    else if value c < q.nTargetValue+cent then
      find tryDenom vCoins (vValue++[c]) (nTotalLower+value c) coinLowestLarger
    else if value c < (coinLowestLarger.map value).getD int64Max then
      find tryDenom vCoins vValue nTotalLower (some c)
    else find tryDenom vCoins vValue nTotalLower coinLowestLarger

variable (d : Chance)

def bestSubset (vValue : List COutput) (nTotalLower : ℤ) : Best :=
  let best := approximateBestSubset (vValue.map value) q.nTargetValue nTotalLower d.first
  if best.nBest ≠ q.nTargetValue ∧ q.nTargetValue+cent ≤ nTotalLower then
    approximateBestSubset (vValue.map value) (q.nTargetValue+cent) nTotalLower d.second
  else best

def largerOrSubset (vValue : List COutput) (nTotalLower : ℤ) (coinLowestLarger : Option COutput) :
    Chosen :=
  let vValue := d.sort vValue
  let best := bestSubset q d vValue nTotalLower
  match coinLowestLarger with
  | none => Chosen.empty.insertAll (pick best.vfBest vValue)
  | some c =>
    if (best.nBest ≠ q.nTargetValue ∧ best.nBest < q.nTargetValue+cent) ∨ value c ≤ best.nBest then
      Chosen.empty.insert c
    else Chosen.empty.insertAll (pick best.vfBest vValue)

/-- The body of the loop over `tryDenom`. All its paths return. -/
def turn (tryDenom : ℕ) (vCoins : List COutput) : Bool × Chosen :=
  match find fromMe q tryDenom vCoins [] 0 none with
  | .exact c => (true,Chosen.empty.insert c)
  | .split vValue nTotalLower coinLowestLarger =>
    if nTotalLower = q.nTargetValue then (true,Chosen.empty.insertAll vValue)
    else if nTotalLower < q.nTargetValue then
      match coinLowestLarger with
      | none => (false,Chosen.empty)
      | some c => (true,Chosen.empty.insert c)
    else (true,largerOrSubset q d vValue nTotalLower coinLowestLarger)

/-- `SelectCoinsMinConf`: the loop does not come to its second turn. -/
def selectCoinsMinConf (vCoins : List COutput) : Bool × Chosen :=
  turn fromMe q d 0 (denomsDown (d.shuffle vCoins))

end Choosing

end SwippCore.SelectCoins

namespace SwippCore.SelectCoins
open Masks

variable (vValue : List ℤ) (nTargetValue : ℤ)

structure Best.Reaches (b : Best) : Prop where
  length : b.vfBest.length = vValue.length
  sum : b.nBest = weigh b.vfBest vValue
  reach : nTargetValue ≤ b.nBest

structure Round.Ok (r : Round) : Prop where
  length : r.vfIncluded.length = vValue.length
  sum : r.nTotal = weigh r.vfIncluded vValue
  best : r.best.Reaches vValue nTargetValue

theorem include_ok {i : ℕ} {r : Round} (h : r.Ok vValue nTargetValue)
    (hi : r.vfIncluded[i]? = some false) :
    (r.include vValue nTargetValue i).Ok vValue nTargetValue := by
  have hlt : i < vValue.length := by
    rw [← h.length]
    exact (List.getElem?_eq_some_iff.mp hi).1
  have hget : vValue[i]? = some (vValue.getD i 0) := by
    rw [List.getD_eq_getElem?_getD, List.getElem?_eq_getElem hlt, Option.getD_some]
  have hlength : (r.vfIncluded.set i true).length = vValue.length := by
    rw [List.length_set, h.length]
  have hsum : r.nTotal+vValue.getD i 0 = weigh (r.vfIncluded.set i true) vValue := by
    rw [weigh_set vValue i hi hget, ← h.sum]
  unfold Round.include
  dsimp only
  split
  · rename_i hreach
    refine ⟨?_,?_,?_⟩
    · change ((r.vfIncluded.set i true).set i false).length = _
      rw [List.length_set, hlength]
    · change r.nTotal+vValue.getD i 0-vValue.getD i 0 = weigh ((r.vfIncluded.set i true).set i false) vValue
      rw [set_back hi, add_sub_cancel_right, h.sum]
    · change Best.Reaches vValue nTargetValue (if _ then _ else _)
      split
      · exact ⟨hlength,hsum,hreach⟩
      · exact h.best
  · exact ⟨hlength,hsum,h.best⟩

theorem include_other {i j : ℕ} (r : Round) (hij : i ≠ j) :
    (r.include vValue nTargetValue i).vfIncluded[j]? = r.vfIncluded[j]? := by
  unfold Round.include
  dsimp only
  split
  · change ((r.vfIncluded.set i true).set i false)[j]? = _
    rw [List.getElem?_set_ne hij, List.getElem?_set_ne hij]
  · change (r.vfIncluded.set i true)[j]? = _
    rw [List.getElem?_set_ne hij]

theorem first_pass_ok (bit : ℕ → Bool) {is : List ℕ} (r : Round) (h : r.Ok vValue nTargetValue)
    (hd : is.Nodup) (hfree : ∀ i ∈ is, r.vfIncluded[i]? = some false) :
    (firstPass vValue nTargetValue bit is r).Ok vValue nTargetValue := by
  induction is generalizing r with
  | nil => exact h
  | cons i is ih =>
    obtain ⟨hi,hd⟩ := List.nodup_cons.mp hd
    have hfirst := hfree i List.mem_cons_self
    unfold firstPass
    split
    · apply ih _ (include_ok vValue nTargetValue h hfirst) hd
      intro j hj
      have hij : i ≠ j := by
        intro heq
        rw [heq] at hi
        exact hi hj
      rw [include_other vValue nTargetValue r hij]
      exact hfree j (List.mem_cons_of_mem i hj)
    · exact ih r h hd fun j hj => hfree j (List.mem_cons_of_mem i hj)

theorem second_pass_ok {is : List ℕ} (r : Round) (h : r.Ok vValue nTargetValue)
    (hin : ∀ i ∈ is, i < vValue.length) :
    (secondPass vValue nTargetValue is r).Ok vValue nTargetValue := by
  induction is generalizing r with
  | nil => exact h
  | cons i is ih =>
    have hrest : ∀ j ∈ is, j < vValue.length := fun j hj => hin j (List.mem_cons_of_mem i hj)
    unfold secondPass
    split
    · rename_i hfree
      have hlt : i < r.vfIncluded.length := by
        rw [h.length]
        exact hin i List.mem_cons_self
      rw [List.getD_eq_getElem?_getD, List.getElem?_eq_getElem hlt, Option.getD_some,
        Bool.not_eq_true'] at hfree
      have hi : r.vfIncluded[i]? = some false := by
        rw [List.getElem?_eq_getElem hlt, hfree]
      exact ih _ (include_ok vValue nTargetValue h hi) hrest
    · exact ih r h hrest

theorem one_round_reaches (bit : ℕ → Bool) {best : Best} (h : best.Reaches vValue nTargetValue) :
    (oneRound vValue nTargetValue bit best).Reaches vValue nTargetValue := by
  have hstart : Round.Ok vValue nTargetValue ⟨List.replicate vValue.length false,0,false,best⟩ :=
    ⟨List.length_replicate,(weigh_none vValue _).symm,h⟩
  have hfirst := first_pass_ok vValue nTargetValue bit _ hstart
    List.nodup_range (by
      intro i hi
      rw [List.getElem?_replicate, if_pos (List.mem_range.mp hi)])
  unfold oneRound
  dsimp only
  split
  · exact hfirst.best
  · exact (second_pass_ok vValue nTargetValue _ hfirst fun i hi => List.mem_range.mp hi).best

theorem rounds_reach (bits : List (ℕ → Bool)) (best : Best) (h : best.Reaches vValue nTargetValue) :
    (rounds vValue nTargetValue bits best).Reaches vValue nTargetValue := by
  induction bits generalizing best with
  | nil => exact h
  | cons bit bits ih =>
    unfold rounds
    split
    · exact h
    · exact ih _ (one_round_reaches vValue nTargetValue bit h)

theorem approximate_reaches {nTotalLower : ℤ} (iterations : List (ℕ → Bool))
    (hsum : nTotalLower = vValue.sum) (hreach : nTargetValue ≤ nTotalLower) :
    (approximateBestSubset vValue nTargetValue nTotalLower iterations).Reaches vValue nTargetValue := by
  apply rounds_reach
  refine ⟨List.length_replicate,?_,hreach⟩
  rw [weigh_all, hsum]

end SwippCore.SelectCoins

namespace SwippCore.SelectCoins
open AvailableCoins CoinSelection Masks

section Sums

structure Coins where
  coins : List COutput
  distinct : (coins.map key).Nodup
  range : ∀ c ∈ coins, 0 ≤ value c ∧ value c ≤ maxMoney

structure Pays (cs : List COutput) (nTargetValue : ℤ) (ch : Chosen) : Prop where
  subset : ch.setCoinsRet ⊆ (cs.map key).toFinset
  sum : ch.nValueRet = ∑ x ∈ ch.setCoinsRet, amount x
  reach : nTargetValue ≤ ch.nValueRet

theorem total_nil : total [] = 0 := rfl

theorem total_cons (c : COutput) (cs : List COutput) : total (c::cs) = value c+total cs := by
  unfold total
  rw [List.map_cons, List.sum_cons]

theorem total_append (cs ds : List COutput) : total (cs++ds) = total cs+total ds := by
  unfold total
  rw [List.map_append, List.sum_append]

theorem total_perm (cs ds : List COutput) (h : cs.Perm ds) : total cs = total ds :=
  (h.map value).sum_eq

theorem total_nonneg (cs : List COutput) (h : ∀ c ∈ cs, 0 ≤ value c) : 0 ≤ total cs := by
  induction cs with
  | nil => exact le_refl 0
  | cons c cs ih =>
    have hc := h c List.mem_cons_self
    have hcs := ih fun x hx => h x (List.mem_cons_of_mem c hx)
    rw [total_cons]
    omega

theorem total_filter (p : COutput → Bool) (cs : List COutput) :
    total cs = total (cs.filter p)+total (cs.filter fun c => !p c) := by
  rw [← total_append, total_perm _ _ (List.filter_append_perm p cs)]

variable {cs : List COutput}

theorem value_le_total (h : ∀ c ∈ cs, 0 ≤ value c) {c : COutput} (hc : c ∈ cs) :
    value c ≤ total cs := by
  induction cs with
  | nil => cases hc
  | cons d cs ih =>
    have hd := h d List.mem_cons_self
    have hnonneg := total_nonneg cs fun x hx => h x (List.mem_cons_of_mem d hx)
    rw [total_cons]
    rcases List.mem_cons.mp hc with rfl | hc
    · omega
    · have hle := ih (fun x hx => h x (List.mem_cons_of_mem d hx)) hc
      omega

theorem insert_all_eq (cs : List COutput) (ch : Chosen) :
    (ch.insertAll cs).setCoinsRet = ch.setCoinsRet ∪ (cs.map key).toFinset ∧
      (ch.insertAll cs).nValueRet = ch.nValueRet+total cs := by
  induction cs generalizing ch with
  | nil =>
    constructor
    · exact (Finset.union_empty _).symm
    · exact (add_zero _).symm
  | cons c cs ih =>
    obtain ⟨hset,hvalue⟩ := ih (ch.insert c)
    unfold Chosen.insertAll
    rw [hset, hvalue, total_cons, List.map_cons, List.toFinset_cons]
    constructor
    · change insert (key c) ch.setCoinsRet ∪ _ = _
      rw [Finset.insert_union, Finset.union_insert]
    · change ch.nValueRet+value c+_ = _
      rw [add_assoc]

theorem keys_subperm {picked : List COutput} (h : picked.Subperm cs) :
    (picked.map key).Subperm (cs.map key) := by
  obtain ⟨l,hperm,hsub⟩ := h
  exact ⟨l.map key,hperm.map key,hsub.map key⟩

theorem pays_of_sublist {picked : List COutput} {nTargetValue : ℤ} (hd : (cs.map key).Nodup)
    (hsub : picked.Subperm cs) (hreach : nTargetValue ≤ total picked) :
    Pays cs nTargetValue (Chosen.empty.insertAll picked) := by
  obtain ⟨hset,hvalue⟩ := insert_all_eq picked Chosen.empty
  have hset' : (Chosen.empty.insertAll picked).setCoinsRet = (picked.map key).toFinset :=
    hset.trans (Finset.empty_union _)
  have hvalue' : (Chosen.empty.insertAll picked).nValueRet = total picked := hvalue.trans (zero_add _)
  obtain ⟨l,hperm,hin⟩ := keys_subperm hsub
  have hpicked : (picked.map key).Nodup := hperm.nodup_iff.mp (hd.sublist hin)
  refine ⟨?_,?_,?_⟩
  · rw [hset']
    intro x hx
    exact List.mem_toFinset.mpr ((keys_subperm hsub).subset (List.mem_toFinset.mp hx))
  · rw [hset', hvalue', List.sum_toFinset amount hpicked, List.map_map]
    rfl
  · rw [hvalue']
    exact hreach

theorem pays_of_one (nTargetValue : ℤ) {c : COutput} (hd : (cs.map key).Nodup) (hc : c ∈ cs)
    (hreach : nTargetValue ≤ value c) : Pays cs nTargetValue (Chosen.empty.insert c) := by
  apply pays_of_sublist hd (List.singleton_subperm_iff.mpr hc)
  rw [total_cons, total_nil, add_zero]
  exact hreach

end Sums

section Finding
variable (fromMe : CWalletTx → Bool) (q : Request) (tryDenom : ℕ)

theorem find_exact (vCoins vValue : List COutput) (nTotalLower : ℤ) (lowest : Option COutput)
    {c : COutput} (h : find fromMe q tryDenom vCoins vValue nTotalLower lowest = .exact c) :
    c ∈ vCoins.filter (tries fromMe q tryDenom) ∧ value c = q.nTargetValue := by
  induction vCoins generalizing vValue nTotalLower lowest with
  | nil => cases h
  | cons x vCoins ih =>
    unfold find at h
    cases htry : tries fromMe q tryDenom x with
    | false =>
      rw [htry, Bool.not_false, if_pos rfl] at h
      rw [List.filter_cons_of_neg (by rw [htry]; exact Bool.false_ne_true)]
      exact ih _ _ _ h
    | true =>
      rw [htry, Bool.not_true, if_neg Bool.false_ne_true] at h
      rw [List.filter_cons_of_pos htry]
      split at h
      · rename_i heq
        cases h
        exact ⟨List.mem_cons_self,heq⟩
      · have hrest : ∀ v n l, find fromMe q tryDenom vCoins v n l = .exact c →
            c ∈ x::vCoins.filter (tries fromMe q tryDenom) ∧ value c = q.nTargetValue := by
          intro v n l hfind
          obtain ⟨hmem,heq⟩ := ih v n l hfind
          exact ⟨List.mem_cons_of_mem x hmem,heq⟩
        split at h
        · exact hrest _ _ _ h
        · split at h
          · exact hrest _ _ _ h
          · exact hrest _ _ _ h

structure Splits (cs vValue : List COutput) (nTotalLower : ℤ) (lowest : Option COutput) : Prop where
  small : vValue = cs.filter fun c => value c < q.nTargetValue+cent
  sum : nTotalLower = total vValue
  large : ∀ c ∈ lowest, c ∈ cs ∧ q.nTargetValue+cent ≤ value c
  all_small : lowest = none → ∀ c ∈ cs, value c < q.nTargetValue+cent

theorem splits_small {cs vValue : List COutput} {nTotalLower : ℤ} {lowest : Option COutput}
    {c : COutput} (h : Splits q cs vValue nTotalLower lowest) (hc : value c < q.nTargetValue+cent) :
    Splits q (cs++[c]) (vValue++[c]) (nTotalLower+value c) lowest where
  small := by
    have hone : [c].filter (fun c => value c < q.nTargetValue+cent) = [c] :=
      List.filter_cons_of_pos (decide_eq_true hc)
    rw [List.filter_append, ← h.small, hone]
  sum := by
    rw [total_append, h.sum, total_cons, total_nil, add_zero]
  large x hx := by
    obtain ⟨hmem,hle⟩ := h.large x hx
    exact ⟨List.mem_append_left [c] hmem,hle⟩
  all_small hnone x hx := by
    rcases List.mem_append.mp hx with hx | hx
    · exact h.all_small hnone x hx
    · rw [List.mem_singleton.mp hx]
      exact hc

theorem splits_large {cs vValue : List COutput} {nTotalLower : ℤ} {lowest lowest' : Option COutput}
    {c : COutput} (h : Splits q cs vValue nTotalLower lowest) (hc : q.nTargetValue+cent ≤ value c)
    (hl : lowest' = some c ∨ lowest' = lowest ∧ lowest ≠ none) :
    Splits q (cs++[c]) vValue nTotalLower lowest' where
  small := by
    rw [List.filter_append, ← h.small, List.filter_cons_of_neg, List.filter_nil, List.append_nil]
    rw [decide_eq_true_eq]
    omega
  sum := h.sum
  large x hx := by
    rcases hl with rfl | ⟨rfl,_⟩
    · obtain rfl := Option.some.inj hx
      exact ⟨List.mem_append_right cs List.mem_cons_self,hc⟩
    · obtain ⟨hmem,hle⟩ := h.large x hx
      exact ⟨List.mem_append_left [c] hmem,hle⟩
  all_small hnone x hx := by
    rcases hl with rfl | ⟨rfl,hne⟩
    · cases hnone
    · exact absurd hnone hne

theorem find_split (vCoins seen vValue vValue' : List COutput) (nTotalLower : ℤ) {nTotalLower' : ℤ}
    (lowest lowest' : Option COutput) (hrange : ∀ c ∈ vCoins, value c < int64Max)
    (hs : Splits q seen vValue nTotalLower lowest)
    (h : find fromMe q tryDenom vCoins vValue nTotalLower lowest = .split vValue' nTotalLower' lowest') :
    Splits q (seen++vCoins.filter (tries fromMe q tryDenom)) vValue' nTotalLower' lowest' := by
  induction vCoins generalizing seen vValue nTotalLower lowest with
  | nil =>
    cases h
    rw [List.filter_nil, List.append_nil]
    exact hs
  | cons x vCoins ih =>
    have hx := hrange x List.mem_cons_self
    have hrest : ∀ c ∈ vCoins, value c < int64Max := fun c hc => hrange c (List.mem_cons_of_mem x hc)
    unfold find at h
    cases htry : tries fromMe q tryDenom x with
    | false =>
      rw [htry, Bool.not_false, if_pos rfl] at h
      rw [List.filter_cons_of_neg (by rw [htry]; exact Bool.false_ne_true)]
      exact ih _ _ _ _ hrest hs h
    | true =>
      rw [htry, Bool.not_true, if_neg Bool.false_ne_true] at h
      rw [List.filter_cons_of_pos htry, List.append_cons]
      split at h
      · cases h
      · split at h
        · rename_i hsmall
          exact ih _ _ _ _ hrest (splits_small q hs hsmall) h
        · rename_i hlarge
          rw [not_lt] at hlarge
          split at h
          · exact ih _ _ _ _ hrest (splits_large q hs hlarge
              (Or.inl rfl)) h
          · rename_i hnot
            apply ih _ _ _ _ hrest (splits_large q hs hlarge
              (Or.inr ⟨rfl,?_⟩)) h
            rintro rfl
            exact hnot hx

end Finding

end SwippCore.SelectCoins

namespace SwippCore.SelectCoins
open AvailableCoins CoinSelection Masks

section Turns
variable (fromMe : CWalletTx → Bool) (q : Request) (d : Chance)

/-- The small coins reach the target and the next coin is larger: either choice does. -/
theorem larger_or_subset_pays {cs vValue : List COutput} {nTotalLower : ℤ} {lowest : Option COutput}
    (hd : (cs.map key).Nodup) (hs : Splits q cs vValue nTotalLower lowest)
    (hreach : q.nTargetValue ≤ nTotalLower) :
    Pays cs q.nTargetValue (largerOrSubset q d vValue nTotalLower lowest) := by
  have hperm := d.sort_perm vValue
  have hsum : nTotalLower = ((d.sort vValue).map value).sum := by
    rw [hs.sum]
    exact (total_perm _ _ hperm).symm
  have hbest : (bestSubset q d (d.sort vValue) nTotalLower).Reaches ((d.sort vValue).map value)
      q.nTargetValue := by
    unfold bestSubset
    dsimp only
    split
    · rename_i hmore
      have hfirst := approximate_reaches _ (q.nTargetValue+cent) d.second hsum hmore.2
      refine ⟨hfirst.length,hfirst.sum,?_⟩
      have hcent : (0 : ℤ) ≤ cent := by decide
      have hle := hfirst.reach
      omega
    · exact approximate_reaches _ q.nTargetValue d.first hsum hreach
  have hsubset : Pays cs q.nTargetValue (Chosen.empty.insertAll
      (pick (bestSubset q d (d.sort vValue) nTotalLower).vfBest (d.sort vValue))) := by
    apply pays_of_sublist hd
    · have hsub : vValue.Sublist cs := by
        rw [hs.small]
        exact List.filter_sublist
      exact (pick_sublist _ _).subperm.trans (hperm.subperm.trans hsub.subperm)
    · have hle := hbest.reach
      rw [hbest.sum] at hle
      unfold weigh at hle
      rw [pick_map] at hle
      exact hle
  unfold largerOrSubset
  dsimp only
  cases lowest with
  | none => exact hsubset
  | some c =>
    dsimp only
    split
    · obtain ⟨hmem,hlarge⟩ := hs.large c rfl
      have hcent : (0 : ℤ) ≤ cent := by decide
      exact pays_of_one q.nTargetValue hd hmem (by omega)
    · exact hsubset

def outcome (vValue : List COutput) (nTotalLower : ℤ) (lowest : Option COutput) : Bool × Chosen :=
  if nTotalLower = q.nTargetValue then (true,Chosen.empty.insertAll vValue)
  else if nTotalLower < q.nTargetValue then
    match lowest with
    | none => (false,Chosen.empty)
    | some c => (true,Chosen.empty.insert c)
  else (true,largerOrSubset q d vValue nTotalLower lowest)

theorem outcome_pays {cs vValue : List COutput} {nTotalLower : ℤ} {lowest : Option COutput}
    (hd : (cs.map key).Nodup) (hnonneg : ∀ c ∈ cs, 0 ≤ value c)
    (hs : Splits q cs vValue nTotalLower lowest) :
    ((outcome q d vValue nTotalLower lowest).1 = true ↔ q.nTargetValue ≤ total cs) ∧
      ((outcome q d vValue nTotalLower lowest).1 = true →
        Pays cs q.nTargetValue (outcome q d vValue nTotalLower lowest).2) := by
  have hsub : vValue.Sublist cs := by
    rw [hs.small]
    exact List.filter_sublist
  have hle : nTotalLower ≤ total cs := by
    have hparts := total_filter (fun c => value c < q.nTargetValue+cent) cs
    have hrest := total_nonneg (cs.filter fun c => !decide (value c < q.nTargetValue+cent))
      fun c hc => hnonneg c (List.mem_filter.mp hc).1
    rw [← hs.small, ← hs.sum] at hparts
    omega
  unfold outcome
  by_cases hexact : nTotalLower = q.nTargetValue
  · rw [if_pos hexact]
    have hpays := pays_of_sublist hd hsub.subperm (by rw [← hs.sum, hexact])
    exact ⟨⟨fun _ => by omega,fun _ => rfl⟩,fun _ => hpays⟩
  · rw [if_neg hexact]
    by_cases hless : nTotalLower < q.nTargetValue
    · rw [if_pos hless]
      cases lowest with
      | none =>
        have hall : vValue = cs := by
          rw [hs.small, List.filter_eq_self]
          intro c hc
          exact decide_eq_true (hs.all_small rfl c hc)
        have htotal : total cs = nTotalLower := by rw [hs.sum, hall]
        exact ⟨⟨fun h => Bool.noConfusion h,fun h => by omega⟩,fun h => Bool.noConfusion h⟩
      | some c =>
        obtain ⟨hmem,hlarge⟩ := hs.large c rfl
        have hcent : (0 : ℤ) ≤ cent := by decide
        have hvalue := value_le_total hnonneg hmem
        have hpays := pays_of_one q.nTargetValue hd hmem (by omega)
        exact ⟨⟨fun _ => by omega,fun _ => rfl⟩,fun _ => hpays⟩
    · rw [if_neg hless]
      have hpays := larger_or_subset_pays q d hd hs (by omega)
      exact ⟨⟨fun _ => by omega,fun _ => rfl⟩,fun _ => hpays⟩

theorem turn_pays (tryDenom : ℕ) {vCoins : List COutput} (hd : (vCoins.map key).Nodup)
    (hrange : ∀ c ∈ vCoins, 0 ≤ value c ∧ value c ≤ maxMoney) :
    ((turn fromMe q d tryDenom vCoins).1 = true ↔
      q.nTargetValue ≤ total (vCoins.filter (tries fromMe q tryDenom))) ∧
    ((turn fromMe q d tryDenom vCoins).1 = true →
      Pays (vCoins.filter (tries fromMe q tryDenom)) q.nTargetValue (turn fromMe q d tryDenom vCoins).2) := by
  have hdistinct : ((vCoins.filter (tries fromMe q tryDenom)).map key).Nodup :=
    hd.sublist (List.filter_sublist.map key)
  have hnonneg : ∀ c ∈ vCoins.filter (tries fromMe q tryDenom), 0 ≤ value c :=
    fun c hc => (hrange c (List.mem_filter.mp hc).1).1
  cases hfind : find fromMe q tryDenom vCoins [] 0 none with
  | exact c =>
    obtain ⟨hmem,heq⟩ := find_exact fromMe q tryDenom vCoins [] 0 none hfind
    have hvalue := value_le_total hnonneg hmem
    have hpays := pays_of_one q.nTargetValue hdistinct hmem (le_of_eq heq.symm)
    have hturn : turn fromMe q d tryDenom vCoins = (true,Chosen.empty.insert c) := by
      unfold turn
      rw [hfind]
    rw [hturn]
    exact ⟨⟨fun _ => by omega,fun _ => rfl⟩,fun _ => hpays⟩
  | split vValue nTotalLower lowest =>
    have hmax : ∀ c ∈ vCoins, value c < int64Max := by
      intro c hc
      have hle := (hrange c hc).2
      have hmoney : maxMoney < int64Max := by decide
      omega
    have hstart : Splits q [] [] 0 none :=
      ⟨rfl,rfl,(fun c hc => by cases hc),fun _ c hc => by cases hc⟩
    have hs := find_split fromMe q tryDenom vCoins [] [] vValue 0 none lowest hmax hstart hfind
    rw [List.nil_append] at hs
    have hturn : turn fromMe q d tryDenom vCoins = outcome q d vValue nTotalLower lowest := by
      unfold turn
      rw [hfind]
      rfl
    rw [hturn]
    exact outcome_pays q d hdistinct hnonneg hs

end Turns

section Claims
variable (fromMe : CWalletTx → Bool) (q : Request) (d : Chance)

variable (vCoins : List COutput)

theorem denoms_down_perm : (denomsDown vCoins).Perm vCoins := by
  have hperm := List.filter_append_perm (fun c => isDenominatedAmount (value c)) vCoins
  exact List.perm_append_comm.trans hperm

def eligibleCoins (vCoins : List COutput) : List COutput :=
  vCoins.filter (eligible fromMe q.nSpendTime q.nConfMine q.nConfTheirs)

def plainCoins (vCoins : List COutput) : List COutput :=
  (eligibleCoins fromMe q vCoins).filter fun c => !isDenominatedAmount (value c)

theorem tries_first : vCoins.filter (tries fromMe q 0) = plainCoins fromMe q vCoins := by
  unfold plainCoins eligibleCoins
  rw [List.filter_filter]
  congr 1
  ext c
  unfold tries
  rw [beq_self_eq_true, Bool.true_and, Bool.and_comm]

/-- What the selection should do: it finds coins when the eligible coins reach the target, some
of them with their sum, and takes denominated ones only when the others do not suffice. -/
structure Selects (vCoins : List COutput) (r : Bool × Chosen) : Prop where
  complete : r.1 = true ↔ q.nTargetValue ≤ total (eligibleCoins fromMe q vCoins)
  sound : r.1 = true → Pays (eligibleCoins fromMe q vCoins) q.nTargetValue r.2
  mixed : r.1 = true → (∃ x ∈ r.2.setCoinsRet, isDenominatedAmount (amount x) = true) →
    total (plainCoins fromMe q vCoins) < q.nTargetValue

theorem select_plain (cs : Coins) :
    ((selectCoinsMinConf fromMe q d cs.coins).1 = true ↔
      q.nTargetValue ≤ total (plainCoins fromMe q cs.coins)) ∧
    ((selectCoinsMinConf fromMe q d cs.coins).1 = true →
      Pays (plainCoins fromMe q cs.coins) q.nTargetValue (selectCoinsMinConf fromMe q d cs.coins).2) := by
  have hperm : (denomsDown (d.shuffle cs.coins)).Perm cs.coins :=
    (denoms_down_perm _).trans (d.shuffle_perm _)
  have hd : ((denomsDown (d.shuffle cs.coins)).map key).Nodup :=
    (hperm.map key).nodup_iff.mpr cs.distinct
  obtain ⟨hiff,hpays⟩ := turn_pays fromMe q d 0 hd
    fun c hc => cs.range c (hperm.mem_iff.mp hc)
  have hplain := hperm.filter (tries fromMe q 0)
  rw [tries_first fromMe q cs.coins] at hplain
  constructor
  · rw [← total_perm _ _ hplain]
    exact hiff
  · intro h
    have hp := hpays h
    refine ⟨?_,hp.sum,hp.reach⟩
    intro x hx
    exact List.mem_toFinset.mpr ((hplain.map key).subset (List.mem_toFinset.mp (hp.subset hx)))

theorem plain_sublist :
    (plainCoins fromMe q vCoins).Sublist (eligibleCoins fromMe q vCoins) := List.filter_sublist

theorem plain_le_eligible (cs : Coins) :
    total (plainCoins fromMe q cs.coins) ≤ total (eligibleCoins fromMe q cs.coins) := by
  have hparts := total_filter (fun c => !isDenominatedAmount (value c)) (eligibleCoins fromMe q cs.coins)
  have hrest := total_nonneg ((eligibleCoins fromMe q cs.coins).filter
    fun c => !!isDenominatedAmount (value c)) (by
      intro c hc
      exact (cs.range c (List.mem_filter.mp (List.mem_filter.mp hc).1).1).1)
  unfold plainCoins
  omega

/-- The selection is right exactly where denominated coins are not needed. -/
theorem select_min_conf_iff (cs : Coins) :
    Selects fromMe q cs.coins (selectCoinsMinConf fromMe q d cs.coins) ↔
      ¬(total (plainCoins fromMe q cs.coins) < q.nTargetValue ∧
        q.nTargetValue ≤ total (eligibleCoins fromMe q cs.coins)) := by
  obtain ⟨hiff,hpays⟩ := select_plain fromMe q d cs
  have hle := plain_le_eligible fromMe q cs
  constructor
  · intro h ⟨hless,hreach⟩
    have hplain := hiff.mp (h.complete.mpr hreach)
    omega
  · intro hnot
    refine ⟨?_,?_,?_⟩
    · constructor
      · intro h
        have hplain := hiff.mp h
        omega
      · intro hreach
        rw [hiff]
        omega
    · intro h
      have hp := hpays h
      refine ⟨?_,hp.sum,hp.reach⟩
      intro x hx
      have hx' := List.mem_toFinset.mp (hp.subset hx)
      exact List.mem_toFinset.mpr (((plain_sublist fromMe q cs.coins).map key).subset hx')
    · intro h ⟨x,hx,hdenom⟩
      obtain ⟨c,hc,rfl⟩ := List.mem_map.mp (List.mem_toFinset.mp ((hpays h).subset hx))
      have hplain := (List.mem_filter.mp hc).2
      rw [show amount (key c) = value c from rfl] at hdenom
      rw [hdenom] at hplain
      cases hplain

def largerFirst (a b : COutput) : Bool := value b ≤ value a

theorem larger_first_sorted (cs : List COutput) :
    (cs.mergeSort largerFirst).Pairwise fun a b => value b ≤ value a := by
  have h : (cs.mergeSort largerFirst).Pairwise fun a b => largerFirst a b = true := by
    apply List.pairwise_mergeSort
    · intro a b c hab hbc
      exact decide_eq_true (le_trans (of_decide_eq_true hbc) (of_decide_eq_true hab))
    · intro a b
      unfold largerFirst
      rw [Bool.or_eq_true, decide_eq_true_eq, decide_eq_true_eq]
      exact le_total _ _
  exact h.imp fun hab => of_decide_eq_true hab

def Chance.still : Chance where
  shuffle cs := cs
  shuffle_perm cs := List.Perm.refl cs
  sort cs := cs.mergeSort largerFirst
  sort_perm cs := List.mergeSort_perm cs _
  sorted cs := larger_first_sorted cs
  first := List.replicate 1000 fun _ => false
  second := List.replicate 1000 fun _ => false

def mixedCoin : Coins where
  coins := [⟨.ofTx ⟨1,0,[],[⟨10*coin+10000,[]⟩],0⟩ 5,0,200,true⟩]
  distinct := by decide
  range := by decide

/-- A payment of 5 does not find it. -/
theorem denominated_coin_missed : ¬ Selects (fun _ => true) ⟨5*coin,100,1,10⟩ mixedCoin.coins
    (selectCoinsMinConf (fun _ => true) ⟨5*coin,100,1,10⟩ Chance.still mixedCoin.coins) := by
  intro h
  obtain ⟨hiff,_⟩ := select_plain (fun _ => true) ⟨5*coin,100,1,10⟩ Chance.still mixedCoin
  have hplain := hiff.mp (h.complete.mpr (by decide))
  exact absurd hplain (by decide)

end Claims

end SwippCore.SelectCoins
