import SwippCore.CoinAge

/-!
# Picks by coin age

The matrix of `GetCoinAgePicks`, that it always finds enough, and what is picked from it.
-/

set_option autoImplicit false

namespace SwippCore.CoinAge
open SelectCoins Knapsack Masks

section Adding

def addEntries (ch : Chosen) (es : List Entry) : Chosen :=
  ⟨ch.setCoinsRet ∪ (es.map Entry.coin).toFinset,ch.nValueRet+totalValue es⟩

theorem add_nil (ch : Chosen) : addEntries ch [] = ch := by
  unfold addEntries
  rw [List.map_nil, List.toFinset_nil, Finset.union_empty]
  change Chosen.mk ch.setCoinsRet (ch.nValueRet+0) = ch
  rw [add_zero]

theorem add_add (ch : Chosen) (xs ys : List Entry) :
    addEntries (addEntries ch xs) ys = addEntries ch (xs++ys) := by
  unfold addEntries
  dsimp only
  rw [List.map_append, List.toFinset_append, Finset.union_assoc, total_value_append, add_assoc]

theorem add_one (ch : Chosen) (e : Entry) :
    addEntries ch [e] = ⟨insert e.coin ch.setCoinsRet,ch.nValueRet+e.nValue⟩ := by
  unfold addEntries
  rw [total_value_one, List.map_singleton, List.toFinset_cons, List.toFinset_nil, Finset.union_insert,
    Finset.union_empty]

end Adding

section Rows
variable (P : Plan) (nBeginCoinValues size2 : ℕ)

def wrap (a b : ℕ) : ℕ := (a+b)%2^64

def column (i : ℕ) : ℕ × ℕ :=
  match P.bundles.vValue[nBeginCoinValues+i]? with
  | none => (0,0)
  | some e => ((e.nValue.tdiv P.denom).toNat,e.nCost)

def weighed : ℕ → List (ℕ × ℕ)
  | 0 => []
  | i+1 => column P nBeginCoinValues i::weighed i

def backRows : ℕ → List (List ℕ)
  | 0 => []
  | i+1 => (List.range size2).map (back wrap (column P nBeginCoinValues i) (weighed P nBeginCoinValues i))::
      backRows i

theorem back_rows_length (i : ℕ) : (backRows P nBeginCoinValues size2 i).length = i := by
  induction i with
  | zero => rfl
  | succ i ih => exact congrArg (·+1) ih

theorem range_map_get (f : ℕ → ℕ) (j : ℕ) (hj : j < size2) : ((List.range size2).map f)[j]? = some (f j) := by
  rw [List.getElem?_map, List.getElem?_range hj]
  rfl

theorem cell_eq (x : ℕ × ℕ) (xs : List (ℕ × ℕ)) {j : ℕ} (hj : j < size2) :
    cell x.1 x.2 ((List.range size2).map (best wrap xs)) j =
      some (best wrap (x::xs) j,back wrap x xs j) := by
  unfold cell
  by_cases hx : x.1 ≤ j
  · rw [if_pos hx, range_map_get size2 _ (j-x.1) (by omega), range_map_get size2 _ j hj]
    dsimp only
    by_cases hstep : wrap (best wrap xs (j-x.1)) x.2 ≤ best wrap xs j
    · have hnot : ¬(x.1 ≤ j ∧ best wrap xs j < wrap (best wrap xs (j-x.1)) x.2) :=
        fun h => absurd h.2 (not_lt.mpr hstep)
      have hbest : best wrap (x::xs) j = best wrap xs j := if_neg hnot
      have hback : back wrap x xs j = j := if_neg hnot
      rw [hbest, hback]
      exact if_pos hstep
    · have hyes : x.1 ≤ j ∧ best wrap xs j < wrap (best wrap xs (j-x.1)) x.2 := ⟨hx,not_le.mp hstep⟩
      have hbest : best wrap (x::xs) j = wrap (best wrap xs (j-x.1)) x.2 := if_pos hyes
      have hback : back wrap x xs j = j-x.1 := if_pos hyes
      rw [hbest, hback]
      exact if_neg hstep
  · have hnot : ¬(x.1 ≤ j ∧ best wrap xs j < wrap (best wrap xs (j-x.1)) x.2) := fun h => hx h.1
    have hbest : best wrap (x::xs) j = best wrap xs j := if_neg hnot
    have hback : back wrap x xs j = j := if_neg hnot
    rw [if_neg hx, range_map_get size2 _ j hj, hbest, hback]
    rfl

theorem cells_eq (x : ℕ × ℕ) (xs : List (ℕ × ℕ)) (js : List ℕ) (hjs : ∀ j ∈ js, j < size2) :
    cells x.1 x.2 ((List.range size2).map (best wrap xs)) js =
      some (js.map fun j => (best wrap (x::xs) j,back wrap x xs j)) := by
  induction js with
  | nil => rfl
  | cons j js ih =>
    unfold cells
    rw [cell_eq size2 x xs (hjs j List.mem_cons_self), Option.bind_some,
      ih fun k hk => hjs k (List.mem_cons_of_mem j hk)]
    rfl

theorem matrix_eq (i : ℕ) (hlen : nBeginCoinValues+i ≤ P.bundles.vValue.length) :
    matrix P nBeginCoinValues size2 i = some ((List.range size2).map
      (best wrap (weighed P nBeginCoinValues i)),backRows P nBeginCoinValues size2 i) := by
  induction i with
  | zero =>
    unfold matrix
    have hzero : (List.range size2).map (best wrap (weighed P nBeginCoinValues 0)) =
        List.replicate size2 0 := by
      apply List.eq_replicate_iff.mpr
      constructor
      · rw [List.length_map, List.length_range]
      · intro b hb
        obtain ⟨j,_,rfl⟩ := List.mem_map.mp hb
        rfl
    rw [hzero]
    rfl
  | succ i ih =>
    have hlt : nBeginCoinValues+i < P.bundles.vValue.length := by omega
    obtain ⟨e,he⟩ : ∃ e, P.bundles.vValue[nBeginCoinValues+i]? = some e :=
      ⟨_,List.getElem?_eq_getElem hlt⟩
    have hcolumn : column P nBeginCoinValues i = ((e.nValue.tdiv P.denom).toNat,e.nCost) := by
      unfold column
      rw [he]
    have hcells := cells_eq size2 (column P nBeginCoinValues i) (weighed P nBeginCoinValues i)
      (List.range size2) fun j hj => List.mem_range.mp hj
    rw [hcolumn] at hcells
    unfold matrix
    rw [ih (by omega), Option.bind_some, he, Option.bind_some, hcells, Option.map_some,
      List.map_map, List.map_map, ← hcolumn]
    rfl

end Rows

section Trace
variable (P : Plan) (items : List (List Entry)) (left : List Entry) (nBeginCoinValues size2 : ℕ)

def kept (i j : ℕ) : List (List Entry) :=
  pick ((dropped wrap (weighed P nBeginCoinValues i) j).map not) ((items.drop nBeginCoinValues).take i).reverse

theorem trace_back_eq (h : Layout P items left) (i j : ℕ) (ch : Chosen) (hj : j < size2)
    (hi : nBeginCoinValues+i ≤ items.length) :
    traceBack P nBeginCoinValues (backRows P nBeginCoinValues size2 i) j ch =
      some (addEntries ch (kept P items nBeginCoinValues i j).flatten) := by
  induction i generalizing j ch with
  | zero => exact congrArg some (add_nil ch).symm
  | succ i ih =>
    have hlt : nBeginCoinValues+i < items.length := by omega
    obtain ⟨g,hg⟩ : ∃ g, items[nBeginCoinValues+i]? = some g := ⟨_,List.getElem?_eq_getElem hlt⟩
    have hback := back_le wrap (column P nBeginCoinValues i) (weighed P nBeginCoinValues i) j
    have hreverse : ((items.drop nBeginCoinValues).take (i+1)).reverse =
        g::((items.drop nBeginCoinValues).take i).reverse := by
      rw [List.take_add_one, List.getElem?_drop, hg, List.reverse_append]
      rfl
    have hnext := fun ch => ih (back wrap (column P nBeginCoinValues i) (weighed P nBeginCoinValues i) j)
      ch (by omega) (by omega)
    unfold backRows traceBack
    rw [if_neg (not_lt.mpr (Int.natCast_nonneg j)), Int.toNat_natCast, range_map_get size2 _ j hj]
    dsimp only
    rw [back_rows_length]
    have hkept : kept P items nBeginCoinValues (i+1) j =
        pick ((!decide (back wrap (column P nBeginCoinValues i) (weighed P nBeginCoinValues i) j ≠ j))::
          (dropped wrap (weighed P nBeginCoinValues i)
            (back wrap (column P nBeginCoinValues i) (weighed P nBeginCoinValues i) j)).map not)
          (g::((items.drop nBeginCoinValues).take i).reverse) := by
      unfold kept
      rw [hreverse]
      rfl
    by_cases hsame : back wrap (column P nBeginCoinValues i) (weighed P nBeginCoinValues i) j = j
    · have hcolumn : (j : ℤ) = (back wrap (column P nBeginCoinValues i)
          (weighed P nBeginCoinValues i) j : ℕ) := by rw [hsame]
      rw [if_pos hcolumn, h.take _ g hg ch, Option.bind_some]
      have hadd := hnext (addEntries ch g)
      rw [add_add] at hadd
      rw [hkept, decide_eq_false (not_not.mpr hsame)]
      exact hadd
    · have hcolumn : ¬(j : ℤ) = (back wrap (column P nBeginCoinValues i)
          (weighed P nBeginCoinValues i) j : ℕ) := fun heq => hsame (Int.natCast_inj.mp heq).symm
      rw [if_neg hcolumn, Option.bind_some, hkept, decide_eq_true hsame]
      exact hnext ch

end Trace

end SwippCore.CoinAge

namespace SwippCore.CoinAge
open SelectCoins Knapsack Masks

section Weights
variable (P : Plan)

/-- How often `denom` goes into the item. -/
def weight (g : List Entry) : ℤ := (totalValue g).tdiv P.denom

def weights (items : List (List Entry)) : ℤ := (items.map (weight P)).sum

theorem weights_cons (g : List Entry) (items : List (List Entry)) :
    weights P (g::items) = weight P g+weights P items := by
  unfold weights
  rw [List.map_cons, List.sum_cons]

theorem weight_nonneg {g : List Entry} (hdenom : 0 < P.denom) (hg : 0 ≤ totalValue g) :
    0 ≤ weight P g :=
  Int.tdiv_nonneg hg hdenom.le

theorem weights_le (items : List (List Entry)) (hdenom : 0 < P.denom)
    (h : ∀ g ∈ items, 0 ≤ totalValue g) : P.denom*weights P items ≤ totalValue items.flatten := by
  induction items with
  | nil =>
    change P.denom*0 ≤ 0
    rw [mul_zero]
  | cons g items ih =>
    have hg := h g List.mem_cons_self
    have hrest := ih fun x hx => h x (List.mem_cons_of_mem g hx)
    have hone : P.denom*weight P g ≤ totalValue g := by
      unfold weight
      rw [Int.tdiv_eq_ediv_of_nonneg hg]
      exact Int.mul_ediv_self_le hdenom.ne'
    rw [weights_cons, List.flatten_cons, total_value_append, mul_add]
    omega

variable {items : List (List Entry)}

theorem weighed_weights {left : List Entry} (nBeginCoinValues : ℕ) (h : Layout P items left) (i : ℕ)
    (hi : nBeginCoinValues+i ≤ items.length) :
    (weighed P nBeginCoinValues i).map Prod.fst =
      ((items.drop nBeginCoinValues).take i).reverse.map fun g => (weight P g).toNat := by
  induction i with
  | zero => rfl
  | succ i ih =>
    have hlt : nBeginCoinValues+i < items.length := by omega
    obtain ⟨g,hg⟩ : ∃ g, items[nBeginCoinValues+i]? = some g := ⟨_,List.getElem?_eq_getElem hlt⟩
    obtain ⟨e,he,hvalue⟩ := h.entries _ g hg
    have hcolumn : (column P nBeginCoinValues i).1 = (weight P g).toNat := by
      unfold column weight
      rw [he, ← hvalue]
    rw [List.take_add_one, List.getElem?_drop, hg, List.reverse_append]
    change (column P nBeginCoinValues i).1::(weighed P nBeginCoinValues i).map Prod.fst =
      (weight P g).toNat::(((items.drop nBeginCoinValues).take i).reverse.map fun g => (weight P g).toNat)
    rw [hcolumn, ih (by omega)]

theorem weights_nat (hdenom : 0 < P.denom) (h : ∀ g ∈ items, 0 ≤ totalValue g) :
    (((items.map fun g => (weight P g).toNat).sum : ℕ) : ℤ) = weights P items := by
  induction items with
  | nil => rfl
  | cons g items ih =>
    have hg := weight_nonneg P hdenom (h g List.mem_cons_self)
    have hrest := ih fun x hx => h x (List.mem_cons_of_mem g hx)
    rw [weights_cons, List.map_cons, List.sum_cons, Nat.cast_add, Int.toNat_of_nonneg hg, hrest]

theorem weights_perm {xs ys : List (List Entry)} (h : xs.Perm ys) : weights P xs = weights P ys :=
  (h.map (weight P)).sum_eq

theorem kept_weight {left : List Entry} {nBeginCoinValues : ℕ} (j : ℕ) (h : Layout P items left)
    (hdenom : 0 < P.denom) (hle : nBeginCoinValues ≤ items.length)
    (hnonneg : ∀ g ∈ items, 0 ≤ totalValue g) :
    weights P (items.drop nBeginCoinValues)-j ≤
      weights P (kept P items nBeginCoinValues (items.length-nBeginCoinValues) j) := by
  generalize hn : items.length-nBeginCoinValues = n
  have hall : (items.drop nBeginCoinValues).take n = items.drop nBeginCoinValues := by
    apply List.take_of_length_le
    rw [List.length_drop, hn]
  have hfst := weighed_weights P nBeginCoinValues h n (by omega)
  rw [hall] at hfst
  have hdrop := dropped_weight wrap (weighed P nBeginCoinValues n) j
  have hsplit := weigh_not (dropped wrap (weighed P nBeginCoinValues n) j)
    ((weighed P nBeginCoinValues n).map Prod.fst) (by rw [dropped_length, List.length_map])
  have hsum : ((((weighed P nBeginCoinValues n).map Prod.fst).sum : ℕ) : ℤ) =
      weights P (items.drop nBeginCoinValues) := by
    rw [hfst, weights_nat P hdenom, weights_perm P (List.reverse_perm _)]
    intro g hg
    exact hnonneg g (List.mem_of_mem_drop (List.mem_reverse.mp hg))
  have hkept : ((weigh ((dropped wrap (weighed P nBeginCoinValues n) j).map not)
      ((weighed P nBeginCoinValues n).map Prod.fst) : ℕ) : ℤ) = weights P (kept P items nBeginCoinValues n j) := by
    unfold weigh kept
    rw [hfst, pick_map, hall, weights_nat P hdenom]
    intro g hg
    have hmem := (pick_sublist _ _).subset hg
    exact hnonneg g (List.mem_of_mem_drop (List.mem_reverse.mp hmem))
  omega

end Weights

section Solving
variable (P : Plan) (nTargetValue : ℤ)

theorem solve_kept {items : List (List Entry)} {left : List Entry} {nBeginCoinValues : ℕ}
    (ch : Chosen) (h : Layout P items left) (hdenom : 0 < P.denom)
    (hle : nBeginCoinValues ≤ items.length) (hlen : items.length ≤ P.bundles.vValue.length)
    (hnonneg : ∀ g ∈ items, 0 ≤ totalValue g)
    (hfits : (nTargetValue-ch.nValueRet).tdiv P.denom < weights P (items.drop nBeginCoinValues)) :
    ∃ j, solve P nTargetValue nBeginCoinValues (weights P (items.drop nBeginCoinValues)) ch =
        some (addEntries ch (kept P items nBeginCoinValues (items.length-nBeginCoinValues) j).flatten) ∧
      (j : ℤ) = weights P (items.drop nBeginCoinValues)-(nTargetValue-ch.nValueRet).tdiv P.denom-
        (if (nTargetValue-ch.nValueRet).tmod P.denom ≠ 0 then 1 else 0) ∧
      nTargetValue ≤ ch.nValueRet+
        totalValue (kept P items nBeginCoinValues (items.length-nBeginCoinValues) j).flatten := by
  generalize hneed : nTargetValue-ch.nValueRet = need at hfits
  generalize hW : weights P (items.drop nBeginCoinValues) = W at hfits
  have hdiv := Int.mul_tdiv_add_tmod need P.denom
  have hmodlt : need.tmod P.denom < P.denom := Int.tmod_lt_of_pos _ hdenom
  obtain ⟨j,hj⟩ : ∃ j : ℕ, (j : ℤ) = W-need.tdiv P.denom-(if need.tmod P.denom ≠ 0 then 1 else 0) := by
    refine ⟨(W-need.tdiv P.denom-(if need.tmod P.denom ≠ 0 then 1 else 0)).toNat,Int.toNat_of_nonneg ?_⟩
    split <;> omega
  have hsize : W-need.tdiv P.denom+(if need.tmod P.denom ≠ 0 then 0 else 1) = ((j+1 : ℕ) : ℤ) := by
    push_cast
    rw [hj]
    split <;> omega
  have hweight := kept_weight P j h hdenom hle hnonneg
  generalize hk : kept P items nBeginCoinValues (items.length-nBeginCoinValues) j = ks at hweight
  have hvalue := weights_le P ks hdenom (by
    intro g hg
    rw [← hk] at hg
    have hmem := List.mem_of_mem_take (List.mem_reverse.mp ((pick_sublist _ _).subset hg))
    exact hnonneg g (List.mem_of_mem_drop hmem))
  have hreach : need ≤ totalValue ks.flatten := by
    have hceil : need ≤ P.denom*(W-j) := by
      rw [hj]
      split
      · have hmul : P.denom*(W-(W-need.tdiv P.denom-1)) = P.denom*need.tdiv P.denom+P.denom := by ring
        omega
      · have hmul : P.denom*(W-(W-need.tdiv P.denom-0)) = P.denom*need.tdiv P.denom := by ring
        omega
    have hmono : P.denom*(W-j) ≤ P.denom*weights P ks := by
      apply mul_le_mul_of_nonneg_left _ hdenom.le
      rw [← hW]
      exact hweight
    omega
  refine ⟨j,?_,hj,by rw [hk]; omega⟩
  have hmatrix := matrix_eq P nBeginCoinValues (j+1) (items.length-nBeginCoinValues) (by omega)
  have htrace := trace_back_eq P items left nBeginCoinValues (j+1) h (items.length-nBeginCoinValues) j ch
    (Nat.lt_succ_self j) (by omega)
  unfold solve
  dsimp only
  rw [hneed, hsize, if_neg (not_lt.mpr (Int.natCast_nonneg _)), Int.toNat_natCast, h.count, hmatrix,
    Option.bind_some]
  dsimp only
  have hlast : (((j+1 : ℕ) : ℤ)-1) = j := by
    push_cast
    omega
  rw [hlast, htrace, Option.bind_some, hk, if_neg]
  change ¬ch.nValueRet+totalValue ks.flatten < nTargetValue
  omega

theorem add_small_eq (es : List Entry) (ch : Chosen) :
    ∃ k, addSmall nTargetValue es ch = addEntries ch (es.take k) ∧
      (nTargetValue ≤ ch.nValueRet+totalValue es → nTargetValue ≤ ch.nValueRet+totalValue (es.take k)) := by
  induction es generalizing ch with
  | nil => exact ⟨0,(add_nil ch).symm,fun h => h⟩
  | cons e es ih =>
    unfold addSmall
    by_cases hless : ch.nValueRet < nTargetValue
    · rw [if_pos hless, ← add_one]
      obtain ⟨k,heq,hreach⟩ := ih (addEntries ch [e])
      refine ⟨k+1,?_,?_⟩
      · rw [heq, add_add]
        rfl
      · intro h
        have hcons : ∀ l : List Entry, totalValue (e::l) = e.nValue+totalValue l := fun l => List.sum_cons
        have hadd : (addEntries ch [e]).nValueRet = ch.nValueRet+e.nValue := by rw [add_one]
        rw [hcons] at h
        rw [List.take_succ_cons, hcons]
        have hnext := hreach (by rw [hadd]; omega)
        rw [hadd] at hnext
        omega
    · rw [if_neg hless]
      refine ⟨0,(add_nil ch).symm,fun _ => ?_⟩
      change nTargetValue ≤ ch.nValueRet+0
      omega

theorem solve_left {items : List (List Entry)} {left : List Entry} {ch : Chosen}
    (h : Layout P items left) (hmissing : 0 < nTargetValue-ch.nValueRet)
    (hless : nTargetValue-ch.nValueRet < P.denom)
    (hreach : nTargetValue-ch.nValueRet ≤ totalValue left) :
    ∃ k, solve P nTargetValue items.length 0 ch = some (addEntries ch (left.take k)) ∧
      nTargetValue ≤ ch.nValueRet+totalValue (left.take k) := by
  have hdiv : (nTargetValue-ch.nValueRet).tdiv P.denom = 0 :=
    Int.tdiv_eq_zero_of_lt hmissing.le hless
  have hmod : (nTargetValue-ch.nValueRet).tmod P.denom = nTargetValue-ch.nValueRet :=
    Int.tmod_eq_of_lt hmissing.le hless
  obtain ⟨k,heq,hk⟩ := add_small_eq nTargetValue left ch
  refine ⟨k,?_,hk (by omega)⟩
  have hne : nTargetValue-ch.nValueRet ≠ 0 := hmissing.ne'
  unfold solve
  dsimp only
  rw [hdiv, hmod, if_pos hne, h.count, Nat.sub_self]
  have hzero : ((0 : ℤ)-0+0) = 0 := rfl
  rw [hzero, if_neg (lt_irrefl 0)]
  unfold matrix
  rw [Option.bind_some]
  unfold traceBack
  rw [Option.bind_some, if_pos (by omega)]
  cases hlast : P.bundles.vZeroValueBundles.getLast? with
  | none =>
    rw [h.none_left hlast] at hreach
    change _ ≤ 0 at hreach
    omega
  | some it =>
    obtain ⟨hit,hdrop⟩ := h.last it hlast
    dsimp only
    rw [if_neg (not_lt.mpr hit), hdrop, heq]

end Solving

end SwippCore.CoinAge

namespace SwippCore.CoinAge
open SelectCoins Knapsack Masks

section Prepicking
variable (P : Plan) (nTargetValue : ℤ)

theorem prepick_eq {items : List (List Entry)} {left : List Entry} (n nBeginCoinValues : ℕ)
    (h : Layout P items left) (hn : nBeginCoinValues+n = items.length) :
    ∃ m, nBeginCoinValues ≤ m ∧ m ≤ items.length ∧
      prepick P nTargetValue n nBeginCoinValues (weights P (items.drop nBeginCoinValues))
          (addEntries Chosen.empty (items.take nBeginCoinValues).flatten) =
        some (m,weights P (items.drop m),addEntries Chosen.empty (items.take m).flatten) ∧
      (m = items.length ∨ (nTargetValue-(addEntries Chosen.empty (items.take m).flatten).nValueRet).tdiv
        P.denom < weights P (items.drop m)) := by
  induction n generalizing nBeginCoinValues with
  | zero => exact ⟨nBeginCoinValues,le_refl _,by omega,rfl,Or.inl hn⟩
  | succ n ih =>
    unfold prepick
    by_cases hmore : weights P (items.drop nBeginCoinValues) ≤ (nTargetValue-
        (addEntries Chosen.empty (items.take nBeginCoinValues).flatten).nValueRet).tdiv P.denom
    · have hlt : nBeginCoinValues < items.length := by omega
      obtain ⟨g,hg⟩ : ∃ g, items[nBeginCoinValues]? = some g := ⟨_,List.getElem?_eq_getElem hlt⟩
      obtain ⟨e,he,hvalue⟩ := h.entries _ g hg
      have hdrop : weights P (items.drop nBeginCoinValues) =
          weight P g+weights P (items.drop (nBeginCoinValues+1)) := by
        rw [List.drop_eq_getElem_cons hlt, weights_cons]
        rw [List.getElem?_eq_getElem hlt] at hg
        rw [Option.some.inj hg]
      have hrest : weights P (items.drop nBeginCoinValues)-e.nValue.tdiv P.denom =
          weights P (items.drop (nBeginCoinValues+1)) := by
        rw [hdrop, hvalue]
        unfold weight
        omega
      have hadd : addEntries (addEntries Chosen.empty (items.take nBeginCoinValues).flatten) g =
          addEntries Chosen.empty (items.take (nBeginCoinValues+1)).flatten := by
        rw [add_add, List.take_add_one, hg, List.flatten_append]
        change _ = addEntries Chosen.empty (_++([g] : List (List Entry)).flatten)
        rw [List.flatten_singleton]
      have htake : takeItem P nBeginCoinValues
          (addEntries Chosen.empty (items.take nBeginCoinValues).flatten) =
          some (addEntries Chosen.empty (items.take (nBeginCoinValues+1)).flatten) := by
        rw [h.take _ g hg, ← hadd]
        rfl
      obtain ⟨m,hle,hm,hrun,hend⟩ := ih (nBeginCoinValues+1) (by omega)
      rw [if_pos hmore, he, htake]
      dsimp only
      rw [hrest]
      exact ⟨m,by omega,hm,hrun,hend⟩
    · rw [if_neg hmore]
      exact ⟨nBeginCoinValues,le_refl _,by omega,rfl,Or.inr (not_le.mp hmore)⟩

end Prepicking

section Chosen

def Reaches (vValue : List Entry) (nTargetValue : ℤ) (r : Option Chosen) : Prop :=
  ∃ es, r = some (addEntries Chosen.empty es) ∧ es.Subperm vValue ∧ nTargetValue ≤ totalValue es

theorem kept_subperm (P : Plan) (items : List (List Entry)) (nBeginCoinValues i j : ℕ) :
    (kept P items nBeginCoinValues i j).flatten.Subperm (items.drop nBeginCoinValues).flatten := by
  have hpick := (pick_sublist ((dropped wrap (weighed P nBeginCoinValues i) j).map not)
    ((items.drop nBeginCoinValues).take i).reverse).flatten
  have hreverse := (List.reverse_perm ((items.drop nBeginCoinValues).take i)).flatten
  have htake := (List.take_sublist i (items.drop nBeginCoinValues)).flatten
  exact hpick.subperm.trans (hreverse.subperm.trans htake.subperm)

theorem total_value_nonneg {es : List Entry} (h : ∀ e ∈ es, 0 ≤ e.nValue) : 0 ≤ totalValue es := by
  induction es with
  | nil => exact le_refl 0
  | cons e es ih =>
    have he := h e List.mem_cons_self
    have hes := ih fun x hx => h x (List.mem_cons_of_mem e hx)
    have hcons : totalValue (e::es) = e.nValue+totalValue es := List.sum_cons
    omega

theorem total_value_perm {xs ys : List Entry} (h : xs.Perm ys) : totalValue xs = totalValue ys :=
  (h.map Entry.nValue).sum_eq

variable {items : List (List Entry)} {left : List Entry}

theorem solve_after {P : Plan} {nTargetValue : ℤ} {m : ℕ}
    (h : Layout P items left) (hdenom : 0 < P.denom) (hm : m ≤ items.length)
    (hlen : items.length ≤ P.bundles.vValue.length) (hnonneg : ∀ g ∈ items, 0 ≤ totalValue g)
    (hleft : totalValue left < P.denom) (hall : nTargetValue ≤ totalValue (items.flatten++left))
    (hend : (m = items.length ∧
        (addEntries Chosen.empty (items.take m).flatten).nValueRet < nTargetValue) ∨
      (nTargetValue-(addEntries Chosen.empty (items.take m).flatten).nValueRet).tdiv P.denom <
        weights P (items.drop m)) :
    Reaches (items.flatten++left) nTargetValue (solve P nTargetValue m (weights P (items.drop m))
      (addEntries Chosen.empty (items.take m).flatten)) := by
  have hvalue : (addEntries Chosen.empty (items.take m).flatten).nValueRet =
      totalValue (items.take m).flatten := zero_add _
  have hparts : (items.take m).flatten++(items.drop m).flatten = items.flatten := by
    rw [← List.flatten_append, List.take_append_drop]
  by_cases hfits : (nTargetValue-(addEntries Chosen.empty (items.take m).flatten).nValueRet).tdiv
      P.denom < weights P (items.drop m)
  · obtain ⟨j,hrun,_,hreach⟩ := solve_kept P nTargetValue _ h hdenom hm hlen hnonneg hfits
    rw [add_add] at hrun
    refine ⟨_,hrun,?_,?_⟩
    · have hkept := kept_subperm P items m (items.length-m) j
      have hboth := (List.Subperm.refl (items.take m).flatten).append hkept
      rw [hparts] at hboth
      exact hboth.trans (List.sublist_append_left _ left).subperm
    · rw [hvalue] at hreach
      rw [total_value_append]
      exact hreach
  · obtain ⟨hlast,hmissing⟩ := hend.resolve_right hfits
    have htake : items.take m = items := by rw [hlast, List.take_length]
    have hdrop : weights P (items.drop m) = 0 := by
      rw [hlast, List.drop_length]
      rfl
    rw [htake] at hmissing hvalue ⊢
    rw [hdrop, hlast]
    rw [total_value_append] at hall
    have hneed : nTargetValue-(addEntries Chosen.empty items.flatten).nValueRet ≤ totalValue left := by
      rw [hvalue]
      omega
    obtain ⟨k,hrun,hreach⟩ := solve_left P nTargetValue
      h (by omega) (by omega) hneed
    rw [add_add] at hrun
    refine ⟨_,hrun,?_,?_⟩
    · exact (List.Subperm.refl items.flatten).append (List.take_sublist k left).subperm
    · rw [hvalue] at hreach
      rw [total_value_append]
      exact hreach

variable (q : Request)

theorem denom_pos {vValue : List Entry} (hgcd : 0 < commonDivisor q vValue) :
    0 < denomOf q vValue := by
  unfold denomOf
  dsimp only
  split <;> omega

theorem weights_entries {P : Plan} (h : Layout P items left) :
    ((P.bundles.vValue.take P.bundles.nTotalCoinValues).map
      fun e => e.nValue.tdiv P.denom).sum = weights P items := by
  have hcount := h.count
  have hentries : (P.bundles.vValue.take P.bundles.nTotalCoinValues).map (fun e => e.nValue.tdiv P.denom) =
      items.map (weight P) := by
    apply List.ext_getElem?
    intro i
    by_cases hi : i < items.length
    · obtain ⟨g,hg⟩ : ∃ g, items[i]? = some g := ⟨_,List.getElem?_eq_getElem hi⟩
      obtain ⟨e,he,hvalue⟩ := h.entries i g hg
      rw [List.getElem?_map, List.getElem?_map, List.getElem?_take_of_lt (by omega), he, hg]
      change some (e.nValue.tdiv P.denom) = some ((totalValue g).tdiv P.denom)
      rw [hvalue]
    · rw [List.getElem?_eq_none, List.getElem?_eq_none]
      · rw [List.length_map]
        omega
      · rw [List.length_map, List.length_take]
        omega
  rw [hentries]
  rfl

theorem pick_and_solve_reaches {P : Plan} (h : Layout P items left) (hdenom : 0 < P.denom)
    (hlen : items.length ≤ P.bundles.vValue.length) (hnonneg : ∀ g ∈ items, 0 ≤ totalValue g)
    (hleft : totalValue left < P.denom)
    (hall : q.nTargetValue ≤ totalValue (items.flatten++left)) :
    Reaches (items.flatten++left) q.nTargetValue (pickAndSolve q P) := by
  have hstart : addEntries Chosen.empty (items.take 0).flatten = Chosen.empty := add_nil _
  unfold pickAndSolve
  dsimp only
  rw [weights_entries h]
  by_cases hmore : weights P items ≤ q.nTargetValue.tdiv P.denom
  · rw [if_pos hmore]
    obtain ⟨m,_,hm,hpre,hend⟩ := prepick_eq P q.nTargetValue P.bundles.nTotalCoinValues 0 h
      (by rw [h.count, Nat.zero_add])
    rw [hstart, List.drop_zero] at hpre
    rw [hpre, Option.bind_some]
    dsimp only
    by_cases hdone : q.nTargetValue ≤ (addEntries Chosen.empty (items.take m).flatten).nValueRet
    · rw [if_pos hdone]
      have hvalue : (addEntries Chosen.empty (items.take m).flatten).nValueRet =
          totalValue (items.take m).flatten := zero_add _
      rw [hvalue] at hdone
      exact ⟨_,rfl,(List.take_sublist m items).flatten.subperm.trans
        (List.sublist_append_left _ left).subperm,hdone⟩
    · rw [if_neg hdone]
      exact solve_after h hdenom hm hlen hnonneg hleft hall
        (hend.imp_left fun hlast => ⟨hlast,not_le.mp hdone⟩)
  · rw [if_neg hmore]
    have hfits : (q.nTargetValue-(addEntries Chosen.empty (items.take 0).flatten).nValueRet).tdiv P.denom <
        weights P (items.drop 0) := by
      rw [hstart, List.drop_zero]
      change (q.nTargetValue-0).tdiv P.denom < _
      rw [sub_zero]
      exact not_le.mp hmore
    have hafter := solve_after h hdenom (Nat.zero_le _) hlen hnonneg hleft hall (Or.inr hfits)
    rw [hstart, List.drop_zero] at hafter
    exact hafter

theorem approximated_reaches {vValue : List Entry} (hgcd : 0 < commonDivisor q vValue)
    (hnonneg : ∀ e ∈ vValue, 0 ≤ e.nValue) (hall : q.nTargetValue ≤ totalValue vValue) :
    Reaches vValue q.nTargetValue (approximated q vValue) := by
  have hdenom := denom_pos q hgcd
  unfold approximated
  dsimp only
  generalize denomOf q vValue = denom at hdenom
  have hperm : ((vValue.filter fun e => denom ≤ e.nValue)++
      vValue.filter fun e => !decide (denom ≤ e.nValue)).Perm vValue :=
    List.filter_append_perm (fun e => decide (denom ≤ e.nValue)) vValue
  have hbegin : (vValue.filter fun e => denom ≤ e.nValue).length ≤
      ((vValue.filter fun e => denom ≤ e.nValue)++
        vValue.filter fun e => !decide (denom ≤ e.nValue)).length := by
    rw [List.length_append]
    exact Nat.le_add_right _ _
  generalize (vValue.filter fun e => denom ≤ e.nValue)++
    vValue.filter (fun e => !decide (denom ≤ e.nValue)) = parted at hperm hbegin
  generalize (vValue.filter fun e => denom ≤ e.nValue).length = nBeginBundles at hbegin
  obtain ⟨groups,left,b,hrun,hb⟩ := bundle_ok denom parted nBeginBundles [] [] 0 _
    hdenom (bundled_start denom parted nBeginBundles hdenom)
  rw [List.length_drop] at hrun
  have hrun' : bundle denom (parted.length-nBeginBundles) nBeginBundles 0 0
      ⟨parted,[nBeginBundles],nBeginBundles⟩ = some b := hrun
  have hlayout := layout_bundled denom parted nBeginBundles hbegin hb
  have hsplit := hb.split
  rw [List.append_nil] at hsplit
  have hflat : (singles (parted.take nBeginBundles)++groups).flatten++left = parted := by
    rw [List.flatten_append, singles_flatten, List.append_assoc, ← hsplit, List.take_append_drop]
  have hlen : b.nTotalCoinValues ≤ b.vValue.length := by
    have hgroups := Segments.length_le_flatten groups fun g hg => (hb.filled g hg).1
    have hdrop := congrArg List.length hsplit
    rw [List.length_drop, List.length_append] at hdrop
    have hlength := hb.length
    have hcount := hb.count
    omega
  have hmem : ∀ g ∈ singles (parted.take nBeginBundles)++groups, 0 ≤ totalValue g := by
    intro g hg
    apply total_value_nonneg
    intro e he
    have hin : e ∈ parted := by
      rw [← hflat]
      exact List.mem_append_left left (List.mem_flatten.mpr ⟨g,hg,he⟩)
    exact hnonneg e (hperm.mem_iff.mp hin)
  have hcount : b.nTotalCoinValues = (singles (parted.take nBeginBundles)++groups).length := hlayout.count
  have hsum : q.nTargetValue ≤ totalValue
      ((singles (parted.take nBeginBundles)++groups).flatten++left) := by
    rw [hflat, total_value_perm hperm]
    exact hall
  obtain ⟨es,heq,hsub,hes⟩ := pick_and_solve_reaches q hlayout hdenom
    (le_of_eq_of_le hcount.symm hlen) hmem hb.small hsum
  rw [hflat] at hsub
  rw [hrun', Option.bind_some, if_neg (not_lt.mpr hlen)]
  exact ⟨es,heq,hsub.trans hperm.subperm,hes⟩

end Chosen

end SwippCore.CoinAge
