import Mathlib.Algebra.Order.BigOperators.Group.Finset
import SwippCore.CoinAgePicks

/-!
# The choice by coin age

No choice costs less, and the choice covers the target.
-/

set_option autoImplicit false

namespace SwippCore.CoinAge
open AvailableCoins CoinSelection SelectCoins Knapsack Masks

section Entries
variable (now : Clock)

structure Entered (es : List Entry) : Prop where
  distinct : (es.map Entry.coin).Nodup
  value : ∀ e ∈ es, e.nValue = amount e.coin
  cost : ∀ e ∈ es, e.nCost = coinWeightCost now e.coin
  nonneg : ∀ e ∈ es, 0 ≤ e.nValue

def cost (s : Finset CoinId) : ℕ := ∑ x ∈ s, coinWeightCost now x

def totalCost (es : List Entry) : ℕ := (es.map Entry.nCost).sum

theorem entered_subperm (es fs : List Entry) (h : Entered now es) (hsub : fs.Subperm es) :
    Entered now fs := by
  obtain ⟨l,hperm,hin⟩ := hsub
  have hmem : ∀ e ∈ fs, e ∈ es := fun e he => hin.subset (hperm.mem_iff.mpr he)
  refine ⟨?_,fun e he => h.value e (hmem e he),fun e he => h.cost e (hmem e he),
    fun e he => h.nonneg e (hmem e he)⟩
  exact (hperm.map Entry.coin).nodup_iff.mp (h.distinct.sublist (hin.map Entry.coin))

theorem sum_coins (es : List Entry) (h : Entered now es) :
    ∑ x ∈ (es.map Entry.coin).toFinset, amount x = totalValue es ∧
      cost now (es.map Entry.coin).toFinset = totalCost es := by
  constructor
  · rw [List.sum_toFinset amount h.distinct, List.map_map]
    unfold totalValue
    congr 1
    exact List.map_congr_left fun e he => (h.value e he).symm
  · unfold cost
    rw [List.sum_toFinset (coinWeightCost now) h.distinct, List.map_map]
    unfold totalCost
    congr 1
    exact List.map_congr_left fun e he => (h.cost e he).symm

variable {es : List Entry}

theorem add_entries_pays {cs : List COutput} {vValue : List Entry} {nTargetValue : ℤ}
    (h : Entered now vValue) (hfrom : ∀ e ∈ vValue, e.coin ∈ cs.map key) (hsub : es.Subperm vValue)
    (hreach : nTargetValue ≤ totalValue es) :
    Pays cs nTargetValue (addEntries Chosen.empty es) := by
  have hset : (addEntries Chosen.empty es).setCoinsRet = (es.map Entry.coin).toFinset :=
    Finset.empty_union _
  have hvalue : (addEntries Chosen.empty es).nValueRet = totalValue es := zero_add _
  have hes := entered_subperm now vValue es h hsub
  refine ⟨?_,?_,?_⟩
  · rw [hset]
    intro x hx
    obtain ⟨e,he,rfl⟩ := List.mem_map.mp (List.mem_toFinset.mp hx)
    exact List.mem_toFinset.mpr (hfrom e (hsub.subset he))
  · rw [hset, hvalue, (sum_coins now es hes).1]
  · rw [hvalue]
    exact hreach

def within (s : Finset CoinId) (es : List Entry) : List Entry := es.filter fun e => decide (e.coin ∈ s)

theorem within_coins (s : Finset CoinId) (es : List Entry) (hs : s ⊆ (es.map Entry.coin).toFinset) :
    ((within s es).map Entry.coin).toFinset = s := by
  ext x
  rw [List.mem_toFinset, List.mem_map]
  constructor
  · rintro ⟨e,he,rfl⟩
    exact of_decide_eq_true (List.mem_filter.mp he).2
  · intro hx
    obtain ⟨e,he,rfl⟩ := List.mem_map.mp (List.mem_toFinset.mp (hs hx))
    exact ⟨e,List.mem_filter.mpr ⟨he,decide_eq_true hx⟩,rfl⟩

theorem sum_within {s : Finset CoinId} (h : Entered now es)
    (hs : s ⊆ (es.map Entry.coin).toFinset) :
    ∑ x ∈ s, amount x = totalValue (within s es) ∧ cost now s = totalCost (within s es) := by
  have hsum := sum_coins now (within s es) (entered_subperm now es _ h List.filter_sublist.subperm)
  rw [within_coins s es hs] at hsum
  exact hsum

variable (bs : List Bool)

theorem total_value_weigh (es : List Entry) :
    weigh bs (es.map Entry.nValue) = totalValue (pick bs es) := by
  unfold weigh totalValue
  rw [pick_map]

theorem total_cost_weigh (es : List Entry) :
    weigh bs (es.map Entry.nCost) = totalCost (pick bs es) := by
  unfold weigh totalCost
  rw [pick_map]

theorem split_totals (es : List Entry) (h : bs.length = es.length) :
    totalValue (pick bs es)+totalValue (pick (bs.map not) es) = totalValue es ∧
      totalCost (pick bs es)+totalCost (pick (bs.map not) es) = totalCost es := by
  have hvalue := weigh_not bs (es.map Entry.nValue) (by rw [List.length_map, h])
  have hcost := weigh_not bs (es.map Entry.nCost) (by rw [List.length_map, h])
  rw [total_value_weigh, total_value_weigh] at hvalue
  rw [total_cost_weigh, total_cost_weigh] at hcost
  exact ⟨hvalue,hcost⟩

theorem total_cost_perm {xs ys : List Entry} (h : xs.Perm ys) : totalCost xs = totalCost ys :=
  (h.map Entry.nCost).sum_eq

theorem cost_zero (h : Entered now es) {e : Entry} (he : e ∈ es) (hzero : e.nValue = 0) :
    e.nCost = 0 := by
  rw [h.cost e he]
  unfold coinWeightCost
  rw [← h.value e he, hzero, zero_mul]
  rfl

theorem total_cost_zero (h : Entered now es) (hzero : totalValue es ≤ 0) : totalCost es = 0 := by
  induction es with
  | nil => rfl
  | cons e es ih =>
    have hes := entered_subperm now (e::es) es h (List.sublist_cons_self e es).subperm
    have he := h.nonneg e List.mem_cons_self
    have hrest := total_value_nonneg hes.nonneg
    have hcons : totalValue (e::es) = e.nValue+totalValue es := List.sum_cons
    have hcost : totalCost (e::es) = e.nCost+totalCost es := List.sum_cons
    rw [hcost, ih hes (by omega), cost_zero now h List.mem_cons_self (by omega)]

end Entries

section Divisor
variable (q : Request)

theorem fold_dvd (es : List Entry) (g : ℤ) :
    (es.foldl (fun g e => (Int.gcd e.nValue g : ℤ)) g ∣ g) ∧
      ∀ e ∈ es, es.foldl (fun g e => (Int.gcd e.nValue g : ℤ)) g ∣ e.nValue := by
  induction es generalizing g with
  | nil => exact ⟨dvd_refl g,fun e he => by cases he⟩
  | cons x es ih =>
    obtain ⟨hg,hes⟩ := ih (Int.gcd x.nValue g)
    refine ⟨hg.trans (Int.gcd_dvd_right _ _),?_⟩
    intro e he
    rcases List.mem_cons.mp he with rfl | he
    · exact hg.trans (Int.gcd_dvd_left _ _)
    · exact hes e he

theorem common_divisor_dvd (vValue : List Entry) : commonDivisor q vValue ∣ q.nTargetValue ∧
    ∀ e ∈ vValue, commonDivisor q vValue ∣ e.nValue := by
  refine ⟨Int.gcd_dvd_left _ _,?_⟩
  intro e he
  exact (Int.gcd_dvd_right _ _).trans ((fold_dvd vValue 0).2 e he)

/-- The divisor is zero only where the target and all values are. -/
theorem common_divisor_pos (vValue : List Entry)
    (h : 0 < q.nTargetValue ∨ ∃ e ∈ vValue, 0 < e.nValue) : 0 < commonDivisor q vValue := by
  obtain ⟨htarget,hvalues⟩ := common_divisor_dvd q vValue
  apply lt_of_le_of_ne (Int.natCast_nonneg _)
  intro hzero
  have hzero : commonDivisor q vValue = 0 := hzero.symm
  rw [hzero] at htarget hvalues
  rcases h with h | ⟨e,he,h⟩
  · exact h.ne' (zero_dvd_iff.mp htarget)
  · exact h.ne' (zero_dvd_iff.mp (hvalues e he))

end Divisor

section Unscaled
variable (now : Clock) (q : Request)

/-- The columns are the values over `denom`, and the costs. -/
def scaled (denom : ℤ) (e : Entry) : ℕ × ℕ := ((e.nValue.tdiv denom).toNat,e.nCost)

variable {vValue : List Entry}

theorem weighed_unscaled (denom : ℤ) {i : ℕ} (hi : i ≤ vValue.length) :
    weighed ⟨denom,vValue.length,⟨vValue,[],vValue.length⟩⟩ 0 i =
      (vValue.take i).reverse.map (scaled denom) := by
  induction i with
  | zero => rfl
  | succ i ih =>
    obtain ⟨e,he⟩ : ∃ e, vValue[i]? = some e := ⟨_,List.getElem?_eq_getElem hi⟩
    have hcolumn : column ⟨denom,vValue.length,⟨vValue,[],vValue.length⟩⟩ 0 i = scaled denom e := by
      unfold column
      dsimp only
      rw [Nat.zero_add, he]
      rfl
    rw [List.take_add_one, he, List.reverse_append]
    change column _ 0 i::weighed _ 0 i = scaled denom e::(vValue.take i).reverse.map (scaled denom)
    rw [hcolumn, ih (by omega)]

def droppedEntries (denom : ℤ) (vValue : List Entry) (j : ℕ) : List Bool :=
  dropped wrap (vValue.reverse.map (scaled denom)) j

theorem kept_unscaled (denom : ℤ) (vValue : List Entry) (j : ℕ) :
    (kept ⟨denom,vValue.length,⟨vValue,[],vValue.length⟩⟩ (singles vValue) 0 vValue.length j).flatten =
      pick ((droppedEntries denom vValue j).map not) vValue.reverse := by
  have hall : ((singles vValue).drop 0).take vValue.length = singles vValue := by
    rw [List.drop_zero]
    apply List.take_of_length_le
    unfold singles
    rw [List.length_map]
  unfold kept
  rw [weighed_unscaled denom (le_refl _), List.take_length, hall]
  unfold singles
  rw [← List.map_reverse, pick_map]
  exact singles_flatten _

theorem weigh_scaled {denom : ℤ} {es : List Entry} (hdenom : 0 < denom) (bs : List Bool)
    (hdvd : ∀ e ∈ es, denom ∣ e.nValue) (hnonneg : ∀ e ∈ es, 0 ≤ e.nValue) :
    denom*(weigh bs ((es.map (scaled denom)).map Prod.fst) : ℕ) = totalValue (pick bs es) := by
  unfold weigh
  rw [List.map_map, pick_map]
  have hfrom : ∀ e ∈ pick bs es, denom ∣ e.nValue ∧ 0 ≤ e.nValue := by
    intro e he
    have hmem := (pick_sublist bs es).subset he
    exact ⟨hdvd e hmem,hnonneg e hmem⟩
  generalize pick bs es = fs at hfrom ⊢
  induction fs with
  | nil => exact mul_zero denom
  | cons e fs ih =>
    obtain ⟨⟨k,hk⟩,he⟩ := hfrom e List.mem_cons_self
    have hrest := ih fun x hx => hfrom x (List.mem_cons_of_mem e hx)
    have hcons : totalValue (e::fs) = e.nValue+totalValue fs := List.sum_cons
    have hk' : 0 ≤ k := by
      rw [hk] at he
      exact nonneg_of_mul_nonneg_right he hdenom
    have hone : ((scaled denom e).1 : ℤ) = k := by
      unfold scaled
      dsimp only
      rw [hk, Int.mul_tdiv_cancel_left k hdenom.ne', Int.toNat_of_nonneg hk']
    rw [List.map_cons, List.sum_cons, hcons, Nat.cast_add, mul_add, hrest, hk]
    congr 2

theorem snd_scaled (denom : ℤ) (es : List Entry) :
    (es.map (scaled denom)).map Prod.snd = es.map Entry.nCost := by
  rw [List.map_map]
  rfl

def CostsFit (vValue : List Entry) : Prop :=
  ∀ bs : List Bool, totalValue (pick bs vValue.reverse) ≤ totalValue vValue-q.nTargetValue →
    totalCost (pick bs vValue.reverse) < 2^64

structure Least (vValue : List Entry) (r : Option Chosen) : Prop where
  reaches : Reaches vValue q.nTargetValue r
  least : CostsFit q vValue → ∀ ch ∈ r, ∀ s ⊆ (vValue.map Entry.coin).toFinset,
    q.nTargetValue ≤ ∑ x ∈ s, amount x → cost now ch.setCoinsRet ≤ cost now s

theorem cost_added {es : List Entry} (h : Entered now vValue) (hsub : es.Subperm vValue) :
    cost now (addEntries Chosen.empty es).setCoinsRet = totalCost es := by
  have hset : (addEntries Chosen.empty es).setCoinsRet = (es.map Entry.coin).toFinset :=
    Finset.empty_union _
  rw [hset]
  exact (sum_coins now es (entered_subperm now vValue es h hsub)).2

theorem complement_within (h : Entered now vValue) {s : Finset CoinId}
    (hs : s ⊆ (vValue.map Entry.coin).toFinset) :
    totalValue (pick (vValue.reverse.map fun e => !decide (e.coin ∈ s)) vValue.reverse)+
        ∑ x ∈ s, amount x = totalValue vValue ∧
      totalCost (pick (vValue.reverse.map fun e => !decide (e.coin ∈ s)) vValue.reverse)+cost now s =
        totalCost vValue := by
  have hperm := List.reverse_perm vValue
  have hreverse := entered_subperm now vValue vValue.reverse h hperm.subperm
  have hs' : s ⊆ (vValue.reverse.map Entry.coin).toFinset := by
    intro x hx
    exact List.mem_toFinset.mpr ((hperm.map Entry.coin).mem_iff.mpr (List.mem_toFinset.mp (hs hx)))
  obtain ⟨hvalue,hcost⟩ := sum_within now hreverse hs'
  have hsplit := split_totals (vValue.reverse.map fun e => decide (e.coin ∈ s)) vValue.reverse
    (List.length_map _)
  have hnot : (vValue.reverse.map fun e => decide (e.coin ∈ s)).map not =
      vValue.reverse.map fun e => !decide (e.coin ∈ s) := by
    rw [List.map_map]
    rfl
  rw [hnot, pick_filter] at hsplit
  have hwithin : vValue.reverse.filter (fun e => decide (e.coin ∈ s)) = within s vValue.reverse := rfl
  rw [hwithin, ← hvalue, ← hcost, total_value_perm hperm, total_cost_perm hperm] at hsplit
  omega

abbrev unscaledPlan (denom : ℤ) (vValue : List Entry) : Plan :=
  ⟨denom,vValue.length,⟨vValue,[],vValue.length⟩⟩

theorem singles_nonneg (h : Entered now vValue) : ∀ g ∈ singles vValue, 0 ≤ totalValue g := by
  intro g hg
  obtain ⟨e,he,rfl⟩ := List.mem_map.mp hg
  rw [total_value_one]
  exact h.nonneg e he

variable {denom : ℤ} (hpos : 0 < denom) (hdvd : ∀ e ∈ vValue, denom ∣ e.nValue)
include hpos hdvd

section
variable (h : Entered now vValue)
include h

/-- What is picked weighs its value over the divisor. -/
theorem picked_weight (bs : List Bool) :
    denom*((weigh bs ((vValue.reverse.map (scaled denom)).map Prod.fst) : ℕ) : ℤ) =
      totalValue (pick bs vValue.reverse) := by
  have hperm := List.reverse_perm vValue
  exact weigh_scaled hpos bs (fun e he => hdvd e (hperm.mem_iff.mp he))
    fun e he => h.nonneg e (hperm.mem_iff.mp he)

theorem unscaled_weights :
    denom*weights (unscaledPlan denom vValue) (singles vValue) = totalValue vValue := by
  have hsingles : (singles vValue).length = vValue.length := List.length_map _
  have hfst := weighed_weights (unscaledPlan denom vValue) 0 (layout_unscaled denom vValue)
    vValue.length (by omega)
  have htake : ((singles vValue).drop 0).take vValue.length = singles vValue := by
    rw [List.drop_zero]
    exact List.take_of_length_le (le_of_eq hsingles)
  rw [weighed_unscaled denom (le_refl _), List.take_length, htake] at hfst
  have hscaled := picked_weight now hpos hdvd h (List.replicate vValue.reverse.length true)
  have hlength : vValue.reverse.length = ((vValue.reverse.map (scaled denom)).map Prod.fst).length := by
    rw [List.length_map, List.length_map]
  rw [pick_all, hlength, weigh_all, hfst, weights_nat, weights_perm _ (List.reverse_perm _),
    total_value_perm (List.reverse_perm vValue)] at hscaled
  · exact hscaled
  · exact hpos
  · intro g hg
    exact singles_nonneg now h g (List.mem_reverse.mp hg)

/-- The table has a column for each multiple of the divisor that may be dropped. -/
theorem unscaled_run (htarget : denom ∣ q.nTargetValue)
    (hall : q.nTargetValue < totalValue vValue) : ∃ j : ℕ,
    solve (unscaledPlan denom vValue) q.nTargetValue 0 ((totalValue vValue).tdiv denom) Chosen.empty =
      some (addEntries Chosen.empty
        (pick ((droppedEntries denom vValue j).map not) vValue.reverse)) ∧
    denom*(j : ℤ) = totalValue vValue-q.nTargetValue ∧
    q.nTargetValue ≤ totalValue (pick ((droppedEntries denom vValue j).map not) vValue.reverse) := by
  obtain ⟨t,ht⟩ := htarget
  have hsingles : (singles vValue).length = vValue.length := List.length_map _
  have hweights := unscaled_weights now hpos hdvd h
  have htotal : (totalValue vValue).tdiv denom =
      weights (unscaledPlan denom vValue) (singles vValue) := by
    rw [← hweights, Int.mul_tdiv_cancel_left _ hpos.ne']
  have hneed : (q.nTargetValue-Chosen.empty.nValueRet).tdiv denom = t := by
    change (q.nTargetValue-0).tdiv denom = t
    rw [sub_zero, ht, Int.mul_tdiv_cancel_left t hpos.ne']
  have hexact : (q.nTargetValue-Chosen.empty.nValueRet).tmod denom = 0 := by
    change (q.nTargetValue-0).tmod denom = 0
    rw [sub_zero, ht, Int.mul_tmod_right]
  have hfits : t < weights (unscaledPlan denom vValue) (singles vValue) := by
    have hlt : denom*t < denom*weights (unscaledPlan denom vValue) (singles vValue) := by
      rw [hweights, ← ht]
      exact hall
    exact lt_of_mul_lt_mul_left hlt hpos.le
  obtain ⟨j,hrun,hj,hreach⟩ := solve_kept (unscaledPlan denom vValue) q.nTargetValue
    Chosen.empty (layout_unscaled denom vValue) hpos (Nat.zero_le _) (le_of_eq hsingles)
    (singles_nonneg now h) (by rw [hneed, List.drop_zero]; exact hfits)
  rw [List.drop_zero] at hrun hj
  rw [hsingles, Nat.sub_zero, kept_unscaled] at hrun hreach
  rw [hneed, hexact, if_neg (not_not.mpr rfl), sub_zero] at hj
  refine ⟨j,by rw [htotal]; exact hrun,?_,?_⟩
  · rw [hj, mul_sub, hweights, ← ht]
  · change _ ≤ 0+_ at hreach
    rw [zero_add] at hreach
    exact hreach

theorem scaled_free (x : ℕ × ℕ)
    (hx : x ∈ vValue.reverse.map (scaled denom)) (hzero : x.1 = 0) : x.2 = 0 := by
  obtain ⟨e,he,rfl⟩ := List.mem_map.mp hx
  have he' := (List.reverse_perm vValue).mem_iff.mp he
  apply cost_zero now h he'
  obtain ⟨k,hk⟩ := hdvd e he'
  have hnn := h.nonneg e he'
  change (e.nValue.tdiv denom).toNat = 0 at hzero
  rw [hk, Int.mul_tdiv_cancel_left k hpos.ne'] at hzero
  have hk' : 0 ≤ k := by
    rw [hk] at hnn
    exact nonneg_of_mul_nonneg_right hnn hpos
  have hkzero : k = 0 := by omega
  rw [hk, hkzero, mul_zero]

/-- What the table drops is the best that may be dropped, so that what is left costs no more than
any other choice that reaches the target. -/
theorem dropped_least {j : ℕ}
    (hbound : denom*(j : ℤ) = totalValue vValue-q.nTargetValue) (hfit : CostsFit q vValue)
    {s : Finset CoinId} (hs : s ⊆ (vValue.map Entry.coin).toFinset)
    (hsum : q.nTargetValue ≤ ∑ x ∈ s, amount x) :
    totalCost (pick ((droppedEntries denom vValue j).map not) vValue.reverse) ≤ cost now s := by
  -- what may be dropped in the table is what may be dropped in value
  have hmay : ∀ bs : List Bool, weigh bs ((vValue.reverse.map (scaled denom)).map Prod.fst) ≤ j ↔
      totalValue (pick bs vValue.reverse) ≤ totalValue vValue-q.nTargetValue := by
    intro bs
    rw [← picked_weight now hpos hdvd h bs, ← hbound]
    constructor
    · intro hle
      exact mul_le_mul_of_nonneg_left (by exact_mod_cast hle) hpos.le
    · intro hle
      exact_mod_cast le_of_mul_le_mul_left hle hpos
  have hcosts : ∀ bs : List Bool, weigh bs ((vValue.reverse.map (scaled denom)).map Prod.snd) =
      totalCost (pick bs vValue.reverse) := by
    intro bs
    rw [snd_scaled, total_cost_weigh]
  have hwrapped := best_wrapped (2^64) (vValue.reverse.map (scaled denom)) j (by
    intro bs hbs
    rw [hcosts]
    exact hfit bs ((hmay bs).mp hbs))
  have hdropped : droppedEntries denom vValue j = dropped (·+·) (vValue.reverse.map (scaled denom)) j :=
    hwrapped.2
  have hbest := dropped_cost j (scaled_free now hpos hdvd h)
  obtain ⟨hvalue,hcost⟩ := complement_within now h hs
  have hge := best_ge j
    (vValue.reverse.map fun e => !decide (e.coin ∈ s)) ((hmay _).mpr (by omega))
  rw [hcosts] at hge hbest
  rw [← hbest, ← hdropped] at hge
  have hsplit := (split_totals (droppedEntries denom vValue j) vValue.reverse (by
    unfold droppedEntries
    rw [dropped_length, List.length_map])).2
  rw [total_cost_perm (List.reverse_perm vValue)] at hsplit
  omega

end

omit hpos hdvd

/-- Without cutting, the complement of what is chosen is the best that may be dropped. -/
theorem unscaled_least (h : Entered now vValue) (hpos : 0 < commonDivisor q vValue)
    (hall : q.nTargetValue < totalValue vValue) (hdenom : denomOf q vValue = commonDivisor q vValue) :
    Least now q vValue (unscaled q vValue) := by
  obtain ⟨htarget,hdvd⟩ := common_divisor_dvd q vValue
  obtain ⟨j,hrun,hbound,hreach⟩ := unscaled_run now q hpos hdvd h htarget hall
  have hsub : (pick ((droppedEntries (commonDivisor q vValue) vValue j).map not)
      vValue.reverse).Subperm vValue :=
    (pick_sublist _ _).subperm.trans (List.reverse_perm vValue).subperm
  unfold unscaled
  dsimp only
  rw [hdenom, hrun]
  refine ⟨⟨_,rfl,hsub,hreach⟩,?_⟩
  intro hfit ch hch s hs hsum
  obtain rfl := Option.some.inj hch
  rw [cost_added now h hsub]
  exact dropped_least now q hpos hdvd h hbound hfit hs hsum

theorem choose_all_eq (es : List Entry) (ch : Chosen) : chooseAll es ch = addEntries ch es := by
  induction es generalizing ch with
  | nil => exact (add_nil ch).symm
  | cons e es ih =>
    unfold chooseAll
    rw [← add_one, ih, add_add]
    rfl

theorem choose_all_least (h : Entered now vValue) (hall : totalValue vValue = q.nTargetValue) :
    Least now q vValue (some (chooseAll vValue Chosen.empty)) := by
  rw [choose_all_eq]
  refine ⟨⟨vValue,rfl,List.Subperm.refl _,le_of_eq hall.symm⟩,?_⟩
  intro _ ch hch s hs hsum
  obtain rfl := Option.some.inj hch
  rw [cost_added now h (List.Subperm.refl _)]
  obtain ⟨hvalue,hcost⟩ := complement_within now h hs
  have hsub : (pick (vValue.reverse.map fun e => !decide (e.coin ∈ s)) vValue.reverse).Subperm vValue :=
    (pick_sublist _ _).subperm.trans (List.reverse_perm vValue).subperm
  have hzero := total_cost_zero now (entered_subperm now vValue _ h hsub) (by omega)
  omega

end Unscaled

end SwippCore.CoinAge

namespace SwippCore.CoinAge
open AvailableCoins CoinSelection SelectCoins Masks

section Splitting
variable (now : Clock) (fromMe : CWalletTx → Bool) (q : Request)

theorem split_eligible (cs : List COutput) (vValue : List Entry) (nTotalLower : ℤ) (lowest : Option Entry) :
    splitByAge now fromMe q cs vValue nTotalLower lowest =
      splitByAge now fromMe q (eligibleCoins fromMe q cs) vValue nTotalLower lowest := by
  induction cs generalizing vValue nTotalLower lowest with
  | nil => rfl
  | cons c cs ih =>
    cases hel : eligible fromMe q.nSpendTime q.nConfMine q.nConfTheirs c with
    | false =>
      have hcons : eligibleCoins fromMe q (c::cs) = eligibleCoins fromMe q cs :=
        List.filter_cons_of_neg (by rw [hel]; exact Bool.false_ne_true)
      rw [hcons, ← ih]
      conv => lhs; unfold splitByAge
      rw [hel, Bool.not_false, if_pos rfl]
    | true =>
      have hcons : eligibleCoins fromMe q (c::cs) = c::eligibleCoins fromMe q cs :=
        List.filter_cons_of_pos hel
      rw [hcons]
      unfold splitByAge
      rw [ih, ih, ih]

def smallCoins (vCoins : List COutput) : List COutput :=
  (eligibleCoins fromMe q vCoins).filter fun c => value c < q.nTargetValue+cent

def smallEntries (vCoins : List COutput) : List Entry := (smallCoins fromMe q vCoins).map (entry now)

def LargerIn (cs : List COutput) (e : Entry) : Prop :=
  ∃ c ∈ cs, e = entry now c ∧ q.nTargetValue+cent ≤ value c ∧
    (coinWeightCost now (key c) : ℤ) < int64Max

theorem larger_in_cons (c : COutput) (cs : List COutput) (e : Entry) (h : LargerIn now q cs e) :
    LargerIn now q (c::cs) e := by
  obtain ⟨x,hx,hrest⟩ := h
  exact ⟨x,List.mem_cons_of_mem c hx,hrest⟩

theorem not_larger_cons (c : COutput) {cs : List COutput}
    (hc : ¬(q.nTargetValue+cent ≤ value c ∧ (coinWeightCost now (key c) : ℤ) < int64Max))
    (h : ∀ e, ¬ LargerIn now q cs e) : ∀ e, ¬ LargerIn now q (c::cs) e := by
  rintro e ⟨x,hx,heq,hlarge,hcost⟩
  rcases List.mem_cons.mp hx with rfl | hx
  · exact hc ⟨hlarge,hcost⟩
  · exact h e ⟨x,hx,heq,hlarge,hcost⟩

structure SplitsByAge (cs : List COutput) (vValue : List Entry) (nTotalLower : ℤ) (lowest : Option Entry)
    (x : List Entry × ℤ × Option Entry) : Prop where
  entries : x.1 = vValue++(cs.filter fun c => value c < q.nTargetValue+cent).map (entry now)
  sum : x.2.1 = nTotalLower+total (cs.filter fun c => value c < q.nTargetValue+cent)
  larger : ∀ e ∈ x.2.2, e ∈ lowest ∨ LargerIn now q cs e
  no_larger : x.2.2 = none → lowest = none ∧ ∀ e, ¬ LargerIn now q cs e

theorem splits_by_age (cs : List COutput) (vValue : List Entry) (nTotalLower : ℤ) (lowest : Option Entry)
    (hel : ∀ c ∈ cs, eligible fromMe q.nSpendTime q.nConfMine q.nConfTheirs c = true)
    (hl : ∀ e ∈ lowest, (e.nCost : ℤ) < int64Max) :
    SplitsByAge now q cs vValue nTotalLower lowest
      (splitByAge now fromMe q cs vValue nTotalLower lowest) := by
  induction cs generalizing vValue nTotalLower lowest with
  | nil =>
    refine ⟨(List.append_nil _).symm,(add_zero _).symm,fun e he => Or.inl he,fun hnone => ⟨hnone,?_⟩⟩
    rintro e ⟨c,hc,_⟩
    cases hc
  | cons c cs ih =>
    have hrest : ∀ x ∈ cs, eligible fromMe q.nSpendTime q.nConfMine q.nConfTheirs x = true :=
      fun x hx => hel x (List.mem_cons_of_mem c hx)
    unfold splitByAge
    rw [hel c List.mem_cons_self, Bool.not_true, if_neg Bool.false_ne_true]
    by_cases hsmall : value c < q.nTargetValue+cent
    · rw [if_pos hsmall]
      have hcons : (c::cs).filter (fun c => value c < q.nTargetValue+cent) =
          c::cs.filter fun c => value c < q.nTargetValue+cent :=
        List.filter_cons_of_pos (decide_eq_true hsmall)
      have h := ih (vValue++[entry now c]) (nTotalLower+value c) lowest hrest hl
      refine ⟨?_,?_,?_,?_⟩
      · rw [h.entries, hcons, List.append_assoc]
        rfl
      · rw [h.sum, hcons, total_cons, add_assoc]
      · intro e he
        exact (h.larger e he).imp_right (larger_in_cons now q c cs e)
      · intro hnone
        obtain ⟨hlow,hno⟩ := h.no_larger hnone
        exact ⟨hlow,not_larger_cons now q c (fun hc => not_le.mpr hsmall hc.1) hno⟩
    · rw [if_neg hsmall]
      have hcons : (c::cs).filter (fun c => value c < q.nTargetValue+cent) =
          cs.filter fun c => value c < q.nTargetValue+cent :=
        List.filter_cons_of_neg (by rw [decide_eq_true_eq]; exact hsmall)
      split
      · rename_i hcost
        have hmax : (coinWeightCost now (key c) : ℤ) < int64Max := by
          cases lowest with
          | none => exact hcost
          | some e => exact lt_trans hcost (hl e rfl)
        have h := ih vValue nTotalLower (some (entry now c)) hrest (by
          intro e he
          obtain rfl := Option.some.inj he
          exact hmax)
        refine ⟨by rw [h.entries, hcons],by rw [h.sum, hcons],?_,?_⟩
        · intro e he
          rcases h.larger e he with hfirst | hlater
          · obtain rfl := Option.some.inj hfirst
            exact Or.inr ⟨c,List.mem_cons_self,rfl,not_lt.mp hsmall,hmax⟩
          · exact Or.inr (larger_in_cons now q c cs e hlater)
        · intro hnone
          cases (h.no_larger hnone).1
      · rename_i hcost
        have h := ih vValue nTotalLower lowest hrest hl
        refine ⟨by rw [h.entries, hcons],by rw [h.sum, hcons],?_,?_⟩
        · intro e he
          exact (h.larger e he).imp_right (larger_in_cons now q c cs e)
        · intro hnone
          obtain ⟨rfl,hno⟩ := h.no_larger hnone
          exact ⟨rfl,not_larger_cons now q c (fun hc => hcost hc.2) hno⟩

end Splitting

section Choice
variable (now : Clock) (fromMe : CWalletTx → Bool) (q : Request) (order : AgeOrder now)

theorem common_divisor_perm {xs ys : List Entry} (h : xs.Perm ys) :
    commonDivisor q xs = commonDivisor q ys := by
  unfold commonDivisor
  rw [h.foldl_eq' fun x _ y _ z => by rw [Int.gcd_left_comm]]

theorem denom_perm {xs ys : List Entry} (h : xs.Perm ys) : denomOf q xs = denomOf q ys := by
  unfold denomOf
  rw [common_divisor_perm q h, total_value_perm h, h.length_eq]

theorem total_entries (cs : List COutput) : totalValue (cs.map (entry now)) = total cs := by
  unfold totalValue total
  rw [List.map_map]
  rfl

theorem entries_coins (cs : List COutput) : (cs.map (entry now)).map Entry.coin = cs.map key := by
  rw [List.map_map]
  rfl

theorem entered_coins {cs : List COutput} (hd : (cs.map key).Nodup)
    (hnonneg : ∀ c ∈ cs, 0 ≤ value c) :
    Entered now (cs.map (entry now)) where
  distinct := by
    rw [entries_coins]
    exact hd
  value e he := by
    obtain ⟨c,_,rfl⟩ := List.mem_map.mp he
    rfl
  cost e he := by
    obtain ⟨c,_,rfl⟩ := List.mem_map.mp he
    rfl
  nonneg e he := by
    obtain ⟨c,hc,rfl⟩ := List.mem_map.mp he
    exact hnonneg c hc

variable {vValue : List Entry}

theorem choose_by_age_least (h : Entered now vValue)
    (hnear : 0 < q.nTargetValue ∨ ∃ e ∈ vValue, 0 < e.nValue)
    (hall : q.nTargetValue ≤ totalValue vValue) :
    Reaches vValue q.nTargetValue (chooseByAge q vValue) ∧
      (denomOf q vValue = commonDivisor q vValue → Least now q vValue (chooseByAge q vValue)) := by
  have hne : vValue.isEmpty = false := by
    rw [List.isEmpty_eq_false_iff]
    rintro rfl
    rcases hnear with htarget | ⟨e,he,_⟩
    · exact absurd hall (not_le.mpr htarget)
    · cases he
  have hpos := common_divisor_pos q vValue hnear
  unfold chooseByAge
  rw [hne, if_neg Bool.false_ne_true]
  by_cases hexact : totalValue vValue = q.nTargetValue
  · rw [if_pos hexact]
    have hleast := choose_all_least now q h hexact
    exact ⟨hleast.reaches,fun _ => hleast⟩
  · rw [if_neg hexact]
    by_cases hdenom : denomOf q vValue = commonDivisor q vValue
    · rw [if_neg (not_not.mpr hdenom)]
      have hleast := unscaled_least now q h hpos (lt_of_le_of_ne hall (Ne.symm hexact)) hdenom
      exact ⟨hleast.reaches,fun _ => hleast⟩
    · rw [if_pos hdenom]
      exact ⟨approximated_reaches q hpos h.nonneg hall,fun heq => absurd heq hdenom⟩

structure ByAge (vCoins : List COutput) (r : Option (Bool × Chosen)) : Prop where
  in_range : r.isSome = true
  sound : ∀ x ∈ r, x.1 = true → Pays (eligibleCoins fromMe q vCoins) q.nTargetValue x.2
  complete : ∀ x ∈ r, q.nTargetValue ≤ total (eligibleCoins fromMe q vCoins) → x.1 = true
  least : ∀ x ∈ r, q.nTargetValue ≤ total (smallCoins fromMe q vCoins) →
    denomOf q (smallEntries now fromMe q vCoins) = commonDivisor q (smallEntries now fromMe q vCoins) →
    ∀ s ⊆ ((smallCoins fromMe q vCoins).map key).toFinset, q.nTargetValue ≤ ∑ c ∈ s, amount c →
      cost now x.2.setCoinsRet ≤ cost now s

/-- The target is reached by small coins, or not at all, or a larger coin costs less than the
value that stands for no coin. -/
def LargerSeen (vCoins : List COutput) : Prop :=
  q.nTargetValue ≤ total (smallCoins fromMe q vCoins) ∨
    total (eligibleCoins fromMe q vCoins) < q.nTargetValue ∨
    ∃ e, LargerIn now q (eligibleCoins fromMe q vCoins) e

def CostsInWord (vCoins : List COutput) : Prop :=
  q.nTargetValue ≤ total (smallCoins fromMe q vCoins) →
    denomOf q (smallEntries now fromMe q vCoins) = commonDivisor q (smallEntries now fromMe q vCoins) →
    ∀ s ⊆ ((smallCoins fromMe q vCoins).map key).toFinset,
      ∑ c ∈ s, amount c ≤ total (smallCoins fromMe q vCoins)-q.nTargetValue → cost now s < 2^64

theorem split_sorted (cs : Coins) : ∃ vValue lowest,
    splitByAge now fromMe q (order.sort cs.coins) [] 0 none =
      (vValue,total (smallCoins fromMe q cs.coins),lowest) ∧
    vValue.Perm (smallEntries now fromMe q cs.coins) ∧
    (∀ e ∈ lowest, LargerIn now q (eligibleCoins fromMe q cs.coins) e) ∧
    (lowest = none → ∀ e, ¬ LargerIn now q (eligibleCoins fromMe q cs.coins) e) := by
  have hperm : (eligibleCoins fromMe q (order.sort cs.coins)).Perm (eligibleCoins fromMe q cs.coins) :=
    (order.perm cs.coins).filter _
  have hsmall := hperm.filter fun c => decide (value c < q.nTargetValue+cent)
  have h := splits_by_age now fromMe q (eligibleCoins fromMe q (order.sort cs.coins)) [] 0 none
    (fun c hc => (List.mem_filter.mp hc).2) (fun e he => by cases he)
  rw [← split_eligible now fromMe q (order.sort cs.coins)] at h
  have hlarger : ∀ e, LargerIn now q (eligibleCoins fromMe q (order.sort cs.coins)) e ↔
      LargerIn now q (eligibleCoins fromMe q cs.coins) e := by
    intro e
    unfold LargerIn
    constructor
    · rintro ⟨c,hc,hrest⟩
      exact ⟨c,hperm.mem_iff.mp hc,hrest⟩
    · rintro ⟨c,hc,hrest⟩
      exact ⟨c,hperm.mem_iff.mpr hc,hrest⟩
  generalize splitByAge now fromMe q (order.sort cs.coins) [] 0 none = x at h
  have hsum : x.2.1 = total (smallCoins fromMe q cs.coins) := by
    rw [h.sum, zero_add]
    exact total_perm _ _ hsmall
  refine ⟨x.1,x.2.2,?_,?_,?_,?_⟩
  · rw [← hsum]
  · rw [h.entries, List.nil_append]
    exact hsmall.map (entry now)
  · intro e he
    rcases h.larger e he with hnone | hin
    · cases hnone
    · exact (hlarger e).mp hin
  · intro hnone e he
    exact (h.no_larger hnone).2 e ((hlarger e).mpr he)

theorem costs_fit {cs : Coins} (hv : Entered now vValue)
    (hperm : vValue.Perm (smallEntries now fromMe q cs.coins))
    (hreach : q.nTargetValue ≤ total (smallCoins fromMe q cs.coins))
    (hdenom : denomOf q vValue = commonDivisor q vValue) (h : CostsInWord now fromMe q cs.coins) :
    CostsFit q vValue := by
  intro bs hbs
  have hsub : (pick bs vValue.reverse).Subperm vValue :=
    (pick_sublist bs vValue.reverse).subperm.trans (List.reverse_perm vValue).subperm
  obtain ⟨hvalue,hcost⟩ := sum_coins now _ (entered_subperm now vValue _ hv hsub)
  rw [denom_perm q hperm, common_divisor_perm q hperm] at hdenom
  have htotal : totalValue vValue = total (smallCoins fromMe q cs.coins) := by
    rw [total_value_perm hperm]
    exact total_entries now _
  rw [← hcost]
  apply h hreach hdenom
  · intro x hx
    obtain ⟨e,he,rfl⟩ := List.mem_map.mp (List.mem_toFinset.mp hx)
    obtain ⟨c,hc,rfl⟩ := List.mem_map.mp (hperm.mem_iff.mp (hsub.subset he))
    exact List.mem_toFinset.mpr (List.mem_map.mpr ⟨c,hc,rfl⟩)
  · rw [hvalue, ← htotal]
    exact hbs

section
variable {cs : Coins} (hperm : vValue.Perm (smallEntries now fromMe q cs.coins))
include cs hperm

theorem sorted_entered :
    Entered now vValue := by
  have hdel : ((eligibleCoins fromMe q cs.coins).map key).Nodup :=
    cs.distinct.sublist (List.filter_sublist.map key)
  have hsmall : Entered now (smallEntries now fromMe q cs.coins) :=
    entered_coins now (hdel.sublist (List.filter_sublist.map key))
      fun c hc => (cs.range c (List.mem_filter.mp (List.mem_filter.mp hc).1).1).1
  exact entered_subperm now _ vValue hsmall hperm.subperm

theorem sorted_total :
    totalValue vValue = total (smallCoins fromMe q cs.coins) := by
  rw [total_value_perm hperm]
  exact total_entries now _

end

def Near (cs : List COutput) : Prop := ∃ c ∈ smallCoins fromMe q cs, 0 < value c

theorem near_entries {cs : List COutput} (hperm : vValue.Perm (smallEntries now fromMe q cs))
    (h : 0 < q.nTargetValue ∨ Near fromMe q cs) :
    0 < q.nTargetValue ∨ ∃ e ∈ vValue, 0 < e.nValue := by
  rcases h with h | ⟨c,hc,hpos⟩
  · exact Or.inl h
  · exact Or.inr ⟨entry now c,hperm.mem_iff.mpr (List.mem_map.mpr ⟨c,hc,rfl⟩),hpos⟩

/-- Where a target of zero or less has no coin near it, the first entry of an empty list is read. -/
theorem by_age_missing (cs : Coins) (htarget : q.nTargetValue ≤ 0)
    (hnone : smallCoins fromMe q cs.coins = []) :
    selectCoinsMinConfByCoinAge now fromMe q order cs.coins = none := by
  obtain ⟨vValue,lowest,hsplit,hperm,_,_⟩ := split_sorted now fromMe q order cs
  unfold smallEntries at hperm
  rw [hnone] at hsplit hperm
  obtain rfl := hperm.eq_nil
  unfold selectCoinsMinConfByCoinAge
  dsimp only
  rw [hsplit]
  dsimp only
  rw [total_nil, if_neg (not_lt.mpr htarget)]
  rfl

theorem by_age_pays (cs : Coins) (hnear : 0 < q.nTargetValue ∨ Near fromMe q cs.coins) :
    ∃ x, selectCoinsMinConfByCoinAge now fromMe q order cs.coins = some x ∧
      (q.nTargetValue ≤ 0 → x.1 = true) ∧
      (x.1 = true → Pays (eligibleCoins fromMe q cs.coins) q.nTargetValue x.2) := by
  obtain ⟨vValue,lowest,hsplit,hperm,hlarger,_⟩ := split_sorted now fromMe q order cs
  have hv := sorted_entered now fromMe q hperm
  have htotal := sorted_total now fromMe q hperm
  unfold selectCoinsMinConfByCoinAge
  dsimp only
  rw [hsplit]
  dsimp only
  by_cases hless : total (smallCoins fromMe q cs.coins) < q.nTargetValue
  · rw [if_pos hless]
    cases lowest with
    | none =>
      have hsmall : 0 ≤ total (smallCoins fromMe q cs.coins) :=
        total_nonneg _ fun c hc => (cs.range c (List.mem_filter.mp (List.mem_filter.mp hc).1).1).1
      exact ⟨_,rfl,fun h => absurd hless (not_lt.mpr (h.trans hsmall)),fun h => Bool.noConfusion h⟩
    | some e =>
      obtain ⟨c,hc,rfl,hlarge,_⟩ := hlarger e rfl
      have hcent : (0 : ℤ) ≤ cent := by decide
      have hdel : ((eligibleCoins fromMe q cs.coins).map key).Nodup :=
        cs.distinct.sublist (List.filter_sublist.map key)
      have hpays := pays_of_one q.nTargetValue hdel hc (by omega)
      have hone : Chosen.empty.insert c = ⟨{key c},value c⟩ := by
        unfold Chosen.insert Chosen.empty
        rw [zero_add, Finset.insert_empty]
      rw [hone] at hpays
      exact ⟨_,rfl,fun _ => rfl,fun _ => hpays⟩
  · rw [if_neg hless]
    obtain ⟨⟨es,heq,hsub,hes⟩,_⟩ :=
      choose_by_age_least now q hv (near_entries now fromMe q hperm hnear) (by omega)
    rw [heq]
    refine ⟨_,rfl,fun _ => rfl,fun _ => ?_⟩
    apply add_entries_pays now hv _ hsub hes
    intro e he
    obtain ⟨c,hc,rfl⟩ := List.mem_map.mp (hperm.mem_iff.mp he)
    exact List.mem_map.mpr ⟨c,(List.mem_filter.mp hc).1,rfl⟩

/-- The selection by age does what it should where larger coins are seen and the costs stay in
their words, and only where larger coins are seen. -/
theorem select_by_age (cs : Coins) (htarget : 0 < q.nTargetValue) :
    (LargerSeen now fromMe q cs.coins ∧ CostsInWord now fromMe q cs.coins →
      ByAge now fromMe q cs.coins (selectCoinsMinConfByCoinAge now fromMe q order cs.coins)) ∧
    (ByAge now fromMe q cs.coins (selectCoinsMinConfByCoinAge now fromMe q order cs.coins) →
      LargerSeen now fromMe q cs.coins) := by
  obtain ⟨r,hr,_,hsound⟩ := by_age_pays now fromMe q order cs (Or.inl htarget)
  have hpays : ∀ x, some r = some x → x.1 = true →
      Pays (eligibleCoins fromMe q cs.coins) q.nTargetValue x.2 := by
    rintro x hx
    obtain rfl := Option.some.inj hx
    exact hsound
  obtain ⟨vValue,lowest,hsplit,hperm,hlarger,hno⟩ := split_sorted now fromMe q order cs
  have hv := sorted_entered now fromMe q hperm
  have htotal := sorted_total now fromMe q hperm
  rw [hr]
  unfold selectCoinsMinConfByCoinAge at hr
  dsimp only at hr
  rw [hsplit] at hr
  dsimp only at hr
  by_cases hless : total (smallCoins fromMe q cs.coins) < q.nTargetValue
  · rw [if_pos hless] at hr
    cases lowest with
    | none =>
      obtain rfl := Option.some.inj hr
      constructor
      · rintro ⟨hreach | hfew | ⟨e,he⟩,_⟩
        · omega
        · refine ⟨rfl,hpays,?_,?_⟩
          · intro x _ hreach
            omega
          · intro x _ hreach
            omega
        · exact absurd he (hno rfl e)
      · intro h
        by_cases hfew : total (eligibleCoins fromMe q cs.coins) < q.nTargetValue
        · exact Or.inr (Or.inl hfew)
        · cases h.complete (false,Chosen.empty) rfl (not_lt.mp hfew)
    | some e =>
      obtain rfl := Option.some.inj hr
      refine ⟨fun _ => ⟨rfl,hpays,?_,?_⟩,fun _ => Or.inr (Or.inr ⟨_,hlarger _ rfl⟩)⟩
      · intro x hx _
        obtain rfl := Option.some.inj hx
        rfl
      · intro x _ hreach
        omega
  · rw [if_neg hless] at hr
    have hreach : q.nTargetValue ≤ total (smallCoins fromMe q cs.coins) := not_lt.mp hless
    obtain ⟨_,hleast⟩ := choose_by_age_least now q hv (Or.inl htarget) (by omega)
    obtain ⟨ch,heq,rfl⟩ := Option.map_eq_some_iff.mp hr
    refine ⟨?_,fun _ => Or.inl hreach⟩
    rintro ⟨_,hfit⟩
    refine ⟨rfl,hpays,?_,?_⟩
    · intro x hx _
      obtain rfl := Option.some.inj hx
      rfl
    · intro x hx _ hdenom s hs hsum
      obtain rfl := Option.some.inj hx
      rw [← denom_perm q hperm, ← common_divisor_perm q hperm] at hdenom
      have hcosts := costs_fit now fromMe q hv hperm hreach hdenom hfit
      apply (hleast hdenom).least hcosts _ heq s _ hsum
      intro x hx
      obtain ⟨c,hc,rfl⟩ := List.mem_map.mp (List.mem_toFinset.mp (hs hx))
      exact List.mem_toFinset.mpr (List.mem_map.mpr
        ⟨entry now c,hperm.mem_iff.mpr (List.mem_map.mpr ⟨c,hc,rfl⟩),rfl⟩)

def cheaperFirst (a b : COutput) : Bool := coinWeightCost now (key a) ≤ coinWeightCost now (key b)

def AgeOrder.merge : AgeOrder now where
  sort cs := cs.mergeSort (cheaperFirst now)
  perm cs := List.mergeSort_perm cs _
  sorted cs := by
    have h : (cs.mergeSort (cheaperFirst now)).Pairwise fun a b => cheaperFirst now a b = true := by
      apply List.pairwise_mergeSort
      · intro a b c hab hbc
        exact decide_eq_true (le_trans (of_decide_eq_true hab) (of_decide_eq_true hbc))
      · intro a b
        unfold cheaperFirst
        rw [Bool.or_eq_true, decide_eq_true_eq, decide_eq_true_eq]
        exact le_total _ _
    exact h.imp fun hab => of_decide_eq_true hab

def threeCoins : Coins where
  coins := [⟨.ofTx ⟨1,1500000000,[],[⟨3*coin,[]⟩],0⟩ 5,0,200,true⟩,
    ⟨.ofTx ⟨1,1580000000,[],[⟨4*coin,[]⟩],0⟩ 5,0,200,true⟩,
    ⟨.ofTx ⟨1,1590000000,[],[⟨5*coin,[]⟩],0⟩ 5,0,200,true⟩]
  distinct := by decide
  range := by decide

def sevenPaid : Request := ⟨7*coin,4000000000,1,10⟩

/-- Two of three small coins reach the target, and the divisor of the amounts is not replaced. -/
theorem three_coins_chosen : ByAge (fun _ => 1600000000) (fun _ => true) sevenPaid threeCoins.coins
      (selectCoinsMinConfByCoinAge (fun _ => 1600000000) (fun _ => true) sevenPaid
        (AgeOrder.merge fun _ => 1600000000) threeCoins.coins) ∧
    sevenPaid.nTargetValue < total (smallCoins (fun _ => true) sevenPaid threeCoins.coins) ∧
    denomOf sevenPaid (smallEntries (fun _ => 1600000000) (fun _ => true) sevenPaid threeCoins.coins) =
      commonDivisor sevenPaid
        (smallEntries (fun _ => 1600000000) (fun _ => true) sevenPaid threeCoins.coins) := by
  refine ⟨?_,by decide,by decide +kernel⟩
  apply (select_by_age (fun _ => 1600000000) (fun _ => true) sevenPaid
    (AgeOrder.merge fun _ => 1600000000) threeCoins (by decide)).1
  constructor
  · exact Or.inl (by decide)
  · intro _ _ s hs _
    have hall : cost (fun _ => 1600000000)
        ((smallCoins (fun _ => true) sevenPaid threeCoins.coins).map key).toFinset < 2^64 := by
      decide +kernel
    exact lt_of_le_of_lt (Finset.sum_le_sum_of_subset hs) hall

def fivePaid : Request := ⟨5*coin,4000000000,1,10⟩

def oldCoin : Coins where
  coins := [⟨.ofTx ⟨1,1500000000,[],[⟨maxMoney,[]⟩],0⟩ 5,0,200,true⟩]
  distinct := by decide
  range := by decide

theorem old_coin_missed : ¬ ByAge (fun _ => 7500000000) (fun _ => true) fivePaid oldCoin.coins
    (selectCoinsMinConfByCoinAge (fun _ => 7500000000) (fun _ => true) fivePaid
      (AgeOrder.merge fun _ => 7500000000) oldCoin.coins) := by
  intro h
  have hsort : (AgeOrder.merge fun _ => 7500000000).sort oldCoin.coins = oldCoin.coins :=
    List.mergeSort_singleton _
  have hnone : selectCoinsMinConfByCoinAge (fun _ => 7500000000) (fun _ => true) fivePaid
      (AgeOrder.merge fun _ => 7500000000) oldCoin.coins = some (false,Chosen.empty) := by
    unfold selectCoinsMinConfByCoinAge
    rw [hsort]
    rfl
  have htrue := h.complete (false,Chosen.empty) hnone (by decide)
  cases htrue

end Choice

end SwippCore.CoinAge
