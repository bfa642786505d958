import SwippCore.SelectCoins

/-!
# Selection by coin age

The plan of the cheapest coins, and the bundles that it chooses from.
-/

set_option autoImplicit false

namespace SwippCore.CoinAge
open AvailableCoins CoinSelection SelectCoins

section Coins

/-- An entry of `vValue`. -/
structure Entry where
  nValue : ℤ
  nCost : ℕ
  coin : CoinId
  deriving DecidableEq

/-- What `GetTime` says when the coin is weighed. -/
abbrev Clock := CoinId → ℤ

/-- `CoinWeightCost`; `getuint64` has the low bits of the magnitude. -/
def coinWeightCost (now : Clock) (x : CoinId) : ℕ :=
  ((amount x*(now x-x.1.tx.nTime)).tdiv (24*60*60)).natAbs%2^64

/-- `sort` by the costs. -/
structure AgeOrder (now : Clock) where
  sort : List COutput → List COutput
  perm : ∀ cs, (sort cs).Perm cs
  sorted : ∀ cs, (sort cs).Pairwise fun a b => coinWeightCost now (key a) ≤ coinWeightCost now (key b)

variable (now : Clock) (fromMe : CWalletTx → Bool) (q : Request)

def entry (c : COutput) : Entry := ⟨value c,coinWeightCost now (key c),key c⟩

def splitByAge : List COutput → List Entry → ℤ → Option Entry → List Entry × ℤ × Option Entry
  | [], vValue, nTotalLower, coinLowestLarger => (vValue,nTotalLower,coinLowestLarger)
  | c::cs, vValue, nTotalLower, coinLowestLarger =>
    if !eligible fromMe q.nSpendTime q.nConfMine q.nConfTheirs c then
      splitByAge cs vValue nTotalLower coinLowestLarger
    else if value c < q.nTargetValue+cent then
      splitByAge cs (vValue++[entry now c]) (nTotalLower+value c) coinLowestLarger
    else if ((entry now c).nCost : ℤ) < (coinLowestLarger.map fun e => (e.nCost : ℤ)).getD int64Max then
      splitByAge cs vValue nTotalLower (some (entry now c))
    else splitByAge cs vValue nTotalLower coinLowestLarger

end Coins

section Bundling

structure Bundles where
  vValue : List Entry
  vZeroValueBundles : List ℕ
  nTotalCoinValues : ℕ

/-- The loop over the coins that count nothing: a bundle that reaches `denom` takes the place of
an entry that was read. -/
def bundle (denom : ℤ) : ℕ → ℕ → ℤ → ℕ → Bundles → Option Bundles
  | 0, _, _, _, b => some b
  | n+1, itZeroValue, pValue, pCost, b =>
    match b.vValue[itZeroValue]? with
    | none => none
    | some e =>
      let pValue := pValue+e.nValue
      let pCost := (pCost+e.nCost)%2^64
      if denom ≤ pValue then
        match b.vValue[b.nTotalCoinValues]? with
        | none => none
        | some x => bundle denom n (itZeroValue+1) 0 0 {
            vValue := b.vValue.set b.nTotalCoinValues ⟨pValue,pCost,x.coin⟩
            vZeroValueBundles := b.vZeroValueBundles++[itZeroValue+1]
            nTotalCoinValues := b.nTotalCoinValues+1 }
      else bundle denom n (itZeroValue+1) pValue pCost b

end Bundling

section Picking

structure Plan where
  denom : ℤ
  nBeginBundles : ℕ
  bundles : Bundles

variable (P : Plan)

def insertRange : ℕ → ℕ → Finset CoinId → Option (Finset CoinId)
  | 0, _, setCoinsRet => some setCoinsRet
  | n+1, it, setCoinsRet =>
    match P.bundles.vValue[it]? with
    | none => none
    | some e => insertRange n (it+1) (insert e.coin setCoinsRet)

def takeItem (i : ℕ) (ch : Chosen) : Option Chosen :=
  match P.bundles.vValue[i]? with
  | none => none
  | some e =>
    if P.nBeginBundles ≤ i then
      match P.bundles.vZeroValueBundles[i-P.nBeginBundles]?,
        P.bundles.vZeroValueBundles[i-P.nBeginBundles+1]? with
      | some a, some b =>
        if b < a then none
        else (insertRange P (b-a) a ch.setCoinsRet).map fun s => ⟨s,ch.nValueRet+e.nValue⟩
      | _, _ => none
    else some ⟨insert e.coin ch.setCoinsRet,ch.nValueRet+e.nValue⟩

variable (nTargetValue : ℤ)

def prepick : ℕ → ℕ → ℤ → Chosen → Option (ℕ × ℤ × Chosen)
  | 0, nBeginCoinValues, nTotalValue, ch => some (nBeginCoinValues,nTotalValue,ch)
  | n+1, nBeginCoinValues, nTotalValue, ch =>
    if nTotalValue ≤ (nTargetValue-ch.nValueRet).tdiv P.denom then
      match P.bundles.vValue[nBeginCoinValues]?, takeItem P nBeginCoinValues ch with
      | some e, some ch => prepick n (nBeginCoinValues+1) (nTotalValue-e.nValue.tdiv P.denom) ch
      | _, _ => none
    else some (nBeginCoinValues,nTotalValue,ch)

end Picking

section Matrix
variable (P : Plan)

/-- `M(i, j)` and `B(i, j)` from the row before. -/
def cell (nWeight nValue : ℕ) (prev : List ℕ) (j : ℕ) : Option (ℕ × ℕ) :=
  if nWeight ≤ j then
    match prev[j-nWeight]?, prev[j]? with
    | some a, some b =>
      let nStep := (a+nValue)%2^64
      if nStep ≤ b then some (b,j) else some (nStep,j-nWeight)
    | _, _ => none
  else prev[j]?.map fun b => (b,j)

def cells (nWeight nValue : ℕ) (prev : List ℕ) : List ℕ → Option (List (ℕ × ℕ))
  | [] => some []
  | j::js => (cell nWeight nValue prev j).bind fun x => (cells nWeight nValue prev js).map (x::·)

/-- The last row of `M`, and the rows of `B` with the last one first. -/
def matrix (nBeginCoinValues size2 : ℕ) : ℕ → Option (List ℕ × List (List ℕ))
  | 0 => some (List.replicate size2 0,[])
  | i+1 =>
    (matrix nBeginCoinValues size2 i).bind fun m =>
      P.bundles.vValue[nBeginCoinValues+i]?.bind fun e =>
        (cells (e.nValue.tdiv P.denom).toNat e.nCost m.1 (List.range size2)).map fun row =>
          (row.map Prod.fst,row.map Prod.snd::m.2)

def traceBack (nBeginCoinValues : ℕ) : List (List ℕ) → ℤ → Chosen → Option Chosen
  | [], _, ch => some ch
  | row::B, nPrev, ch =>
    if nPrev < 0 then none
    else
      match row[nPrev.toNat]? with
      | none => none
      | some b =>
        (if nPrev = b then takeItem P (nBeginCoinValues+B.length) ch else some ch).bind fun ch =>
          traceBack nBeginCoinValues B b ch

def addSmall (nTargetValue : ℤ) : List Entry → Chosen → Chosen
  | [], ch => ch
  | e::es, ch =>
    if ch.nValueRet < nTargetValue then
      addSmall nTargetValue es ⟨insert e.coin ch.setCoinsRet,ch.nValueRet+e.nValue⟩
    else ch

def solve (nTargetValue : ℤ) (nBeginCoinValues : ℕ) (nTotalValue : ℤ) (ch : Chosen) : Option Chosen :=
  let nAppend : ℤ := if (nTargetValue-ch.nValueRet).tmod P.denom ≠ 0 then 0 else 1
  let size2 := nTotalValue-(nTargetValue-ch.nValueRet).tdiv P.denom+nAppend
  if size2 < 0 then none
  else
    (matrix P nBeginCoinValues size2.toNat (P.bundles.nTotalCoinValues-nBeginCoinValues)).bind fun m =>
      (traceBack P nBeginCoinValues m.2 (size2-1) ch).bind fun ch =>
        if ch.nValueRet < nTargetValue then
          match P.bundles.vZeroValueBundles.getLast? with
          | none => some ch
          | some it =>
            if P.bundles.vValue.length < it then none
            else some (addSmall nTargetValue (P.bundles.vValue.drop it) ch)
        else some ch

end Matrix

section Selection
variable (now : Clock) (fromMe : CWalletTx → Bool) (q : Request)

def totalValue (vValue : List Entry) : ℤ := (vValue.map Entry.nValue).sum

def commonDivisor (vValue : List Entry) : ℤ :=
  Int.gcd q.nTargetValue (vValue.foldl (fun g e => (Int.gcd e.nValue g : ℤ)) 0)

/-- `denom`; the product is computed in 64 bits. -/
def denomOf (vValue : List Entry) : ℤ :=
  let approx := (Int.bmod (vValue.length*(totalValue vValue-q.nTargetValue)) (2^64)).tdiv 25
  if commonDivisor q vValue < approx then approx else commonDivisor q vValue

def pickAndSolve (P : Plan) : Option Chosen :=
  let nTotalValue :=
    ((P.bundles.vValue.take P.bundles.nTotalCoinValues).map fun e => e.nValue.tdiv P.denom).sum
  if nTotalValue ≤ q.nTargetValue.tdiv P.denom then
    (prepick P q.nTargetValue P.bundles.nTotalCoinValues 0 nTotalValue Chosen.empty).bind fun x =>
      if q.nTargetValue ≤ x.2.2.nValueRet then some x.2.2
      else solve P q.nTargetValue x.1 x.2.1 x.2.2
  else solve P q.nTargetValue 0 nTotalValue Chosen.empty

/-- The values are cut by `denom`. -/
def approximated (vValue : List Entry) : Option Chosen :=
  let denom := denomOf q vValue
  -- `stable_partition`
  let large := vValue.filter fun e => denom ≤ e.nValue
  let vValue := large++vValue.filter fun e => !decide (denom ≤ e.nValue)
  let nBeginBundles := large.length
  (bundle denom (vValue.length-nBeginBundles) nBeginBundles 0 0
    ⟨vValue,[nBeginBundles],nBeginBundles⟩).bind fun b =>
    if b.vValue.length < b.nTotalCoinValues then none else pickAndSolve q ⟨denom,nBeginBundles,b⟩

/-- The values are multiples of `denom`. -/
def unscaled (vValue : List Entry) : Option Chosen :=
  let denom := denomOf q vValue
  solve ⟨denom,vValue.length,⟨vValue,[],vValue.length⟩⟩ q.nTargetValue 0
    ((totalValue vValue).tdiv denom) Chosen.empty

def chooseAll : List Entry → Chosen → Chosen
  | [], ch => ch
  | e::es, ch => chooseAll es ⟨insert e.coin ch.setCoinsRet,ch.nValueRet+e.nValue⟩

def chooseByAge (vValue : List Entry) : Option Chosen :=
  if vValue.isEmpty then none
  else if totalValue vValue = q.nTargetValue then some (chooseAll vValue Chosen.empty)
  else if denomOf q vValue ≠ commonDivisor q vValue then approximated q vValue
  else unscaled q vValue

/-- `SelectCoinsMinConfByCoinAge`; none where an index is out of range. -/
def selectCoinsMinConfByCoinAge (order : AgeOrder now) (vCoins : List COutput) : Option (Bool × Chosen) :=
  let x := splitByAge now fromMe q (order.sort vCoins) [] 0 none
  if x.2.1 < q.nTargetValue then
    match x.2.2 with
    | none => some (false,Chosen.empty)
    | some e => some (true,⟨{e.coin},e.nValue⟩)
  else (chooseByAge q x.1).map fun ch => (true,ch)

end Selection

end SwippCore.CoinAge

namespace SwippCore.CoinAge
open SelectCoins Segments

section Items

structure Layout (P : Plan) (items : List (List Entry)) (left : List Entry) : Prop where
  count : P.bundles.nTotalCoinValues = items.length
  entries : ∀ (i : ℕ) (g : List Entry), items[i]? = some g → ∃ e : Entry, P.bundles.vValue[i]? = some e ∧ e.nValue = totalValue g
  take : ∀ (i : ℕ) (g : List Entry), items[i]? = some g → ∀ ch, takeItem P i ch =
    some ⟨ch.setCoinsRet ∪ (g.map Entry.coin).toFinset,ch.nValueRet+totalValue g⟩
  last : ∀ it, P.bundles.vZeroValueBundles.getLast? = some it →
    it ≤ P.bundles.vValue.length ∧ P.bundles.vValue.drop it = left
  none_left : P.bundles.vZeroValueBundles.getLast? = none → left = []

theorem total_value_append (xs ys : List Entry) :
    totalValue (xs++ys) = totalValue xs+totalValue ys := by
  unfold totalValue
  rw [List.map_append, List.sum_append]

theorem total_value_one (e : Entry) : totalValue [e] = e.nValue := by
  unfold totalValue
  rw [List.map_singleton, List.sum_singleton]

theorem insert_range_eq (P : Plan) (n it : ℕ) (s : Finset CoinId)
    (h : it+n ≤ P.bundles.vValue.length) : insertRange P n it s =
      some (s ∪ (((P.bundles.vValue.drop it).take n).map Entry.coin).toFinset) := by
  induction n generalizing it s with
  | zero =>
    unfold insertRange
    rw [List.take_zero, List.map_nil, List.toFinset_nil, Finset.union_empty]
  | succ n ih =>
    have hlt : it < P.bundles.vValue.length := by omega
    unfold insertRange
    rw [List.getElem?_eq_getElem hlt]
    dsimp only
    rw [ih (it+1) _ (by omega), List.drop_eq_getElem_cons hlt, List.take_succ_cons, List.map_cons,
      List.toFinset_cons, Finset.insert_union, Finset.union_insert]

end Items

section Loop
variable (denom : ℤ) (vValue : List Entry) (nBeginBundles : ℕ)

structure Bundled (groups : List (List Entry)) (opened rest : List Entry) (b : Bundles) : Prop where
  split : vValue.drop nBeginBundles = groups.flatten++(opened++rest)
  filled : ∀ g ∈ groups, g ≠ [] ∧ denom ≤ totalValue g
  small : totalValue opened < denom
  count : b.nTotalCoinValues = nBeginBundles+groups.length
  starts : b.vZeroValueBundles = starts nBeginBundles groups
  length : b.vValue.length = vValue.length
  coins : b.vValue.map Entry.coin = vValue.map Entry.coin
  before : ∀ p, p < nBeginBundles → b.vValue[p]? = vValue[p]?
  behind : ∀ p, nBeginBundles+groups.length ≤ p → b.vValue[p]? = vValue[p]?
  entries : ∀ (k : ℕ) (g : List Entry), groups[k]? = some g →
    ∃ e : Entry, b.vValue[nBeginBundles+k]? = some e ∧ e.nValue = totalValue g

theorem bundled_start (hdenom : 0 < denom) : Bundled denom vValue nBeginBundles [] []
    (vValue.drop nBeginBundles) ⟨vValue,[nBeginBundles],nBeginBundles⟩ where
  split := rfl
  filled g hg := by cases hg
  small := hdenom
  count := rfl
  starts := rfl
  length := rfl
  coins := rfl
  before p _ := rfl
  behind p _ := rfl
  entries k g hg := by cases hg

section
variable {groups : List (List Entry)} {opened rest : List Entry} {b : Bundles}

theorem bundled_open
    {e : Entry} (h : Bundled denom vValue nBeginBundles groups opened (e::rest) b)
    (hsmall : totalValue opened+e.nValue < denom) :
    Bundled denom vValue nBeginBundles groups (opened++[e]) rest b where
  split := by
    rw [h.split, List.append_assoc]
    rfl
  filled := h.filled
  small := by
    rw [total_value_append, total_value_one]
    exact hsmall
  count := h.count
  starts := h.starts
  length := h.length
  coins := h.coins
  before := h.before
  behind := h.behind
  entries := h.entries

theorem bundled_close
    {e x : Entry} (pCost : ℕ) (h : Bundled denom vValue nBeginBundles groups opened (e::rest) b)
    (hdenom : 0 < denom) (hreach : denom ≤ totalValue opened+e.nValue)
    (hx : b.vValue[b.nTotalCoinValues]? = some x) :
    Bundled denom vValue nBeginBundles (groups++[opened++[e]]) [] rest {
      vValue := b.vValue.set b.nTotalCoinValues ⟨totalValue opened+e.nValue,pCost,x.coin⟩
      vZeroValueBundles := b.vZeroValueBundles++
        [nBeginBundles+groups.flatten.length+(opened++[e]).length]
      nTotalCoinValues := b.nTotalCoinValues+1 } := by
  have hcount := h.count
  refine ⟨?_,?_,hdenom,?_,?_,?_,?_,?_,?_,?_⟩
  · rw [h.split, List.flatten_append, List.flatten_singleton]
    simp only [List.append_assoc, List.cons_append, List.nil_append]
  · intro g hg
    rcases List.mem_append.mp hg with hg | hg
    · exact h.filled g hg
    · rw [List.mem_singleton.mp hg, total_value_append, total_value_one]
      exact ⟨List.append_ne_nil_of_right_ne_nil opened (List.cons_ne_nil e []),hreach⟩
  · change b.nTotalCoinValues+1 = _
    rw [hcount, List.length_append]
    rfl
  · rw [starts_concat, h.starts]
  · rw [List.length_set, h.length]
  · rw [List.map_set, h.coins]
    have hget : (vValue.map Entry.coin)[b.nTotalCoinValues]? = some x.coin := by
      rw [← h.coins, List.getElem?_map, hx]
      rfl
    obtain ⟨hlt,hget⟩ := List.getElem?_eq_some_iff.mp hget
    change (vValue.map Entry.coin).set b.nTotalCoinValues x.coin = _
    rw [← hget, List.set_getElem_self]
  · intro p hp
    rw [List.getElem?_set_ne (by omega)]
    exact h.before p hp
  · intro p hp
    rw [List.length_append, List.length_singleton] at hp
    rw [List.getElem?_set_ne (by omega)]
    exact h.behind p (by omega)
  · intro k g hg
    by_cases hk : k < groups.length
    · rw [List.getElem?_append_left hk] at hg
      rw [List.getElem?_set_ne (by omega)]
      exact h.entries k g hg
    · have hlast : k = groups.length := by
        have hlt := (List.getElem?_eq_some_iff.mp hg).1
        rw [List.length_append, List.length_singleton] at hlt
        omega
      rw [hlast, List.getElem?_concat_length] at hg
      obtain rfl := Option.some.inj hg
      refine ⟨⟨totalValue opened+e.nValue,pCost,x.coin⟩,?_,?_⟩
      · rw [hlast, ← hcount, List.getElem?_set_self (List.getElem?_eq_some_iff.mp hx).1]
      · rw [total_value_append, total_value_one]

end

theorem bundle_ok (groups : List (List Entry)) (opened : List Entry) {rest : List Entry} (pCost : ℕ) (b : Bundles)
    (hdenom : 0 < denom) (h : Bundled denom vValue nBeginBundles groups opened rest b) :
    ∃ groups' left b', bundle denom rest.length
      (nBeginBundles+groups.flatten.length+opened.length) (totalValue opened) pCost b = some b' ∧
      Bundled denom vValue nBeginBundles groups' left [] b' := by
  induction rest generalizing groups opened pCost b with
  | nil => exact ⟨groups,opened,b,rfl,h⟩
  | cons e rest ih =>
    have hgroups := length_le_flatten groups fun g hg => (h.filled g hg).1
    have hget : b.vValue[nBeginBundles+groups.flatten.length+opened.length]? = some e := by
      have hdrop : (vValue.drop nBeginBundles)[groups.flatten.length+opened.length]? = some e := by
        rw [h.split, ← List.append_assoc, ← List.length_append, List.getElem?_append_right (le_refl _),
          Nat.sub_self]
        rfl
      rw [h.behind _ (by omega), ← hdrop, List.getElem?_drop, Nat.add_assoc]
    have hlength : nBeginBundles+groups.flatten.length+opened.length < b.vValue.length :=
      (List.getElem?_eq_some_iff.mp hget).1
    rw [List.length_cons]
    unfold bundle
    rw [hget]
    dsimp only
    by_cases hreach : denom ≤ totalValue opened+e.nValue
    · have hcount := h.count
      obtain ⟨x,hx⟩ : ∃ x, b.vValue[b.nTotalCoinValues]? = some x :=
        ⟨_,List.getElem?_eq_getElem (by omega)⟩
      rw [if_pos hreach, hx]
      dsimp only
      have hclose := bundled_close denom vValue nBeginBundles
        ((pCost+e.nCost)%2^64) h hdenom hreach hx
      obtain ⟨groups',left,b',hrun,hb'⟩ := ih (groups++[opened++[e]]) [] 0 _ hclose
      have hpos : nBeginBundles+(groups++[opened++[e]]).flatten.length+([] : List Entry).length =
          nBeginBundles+groups.flatten.length+opened.length+1 := by
        simp only [List.flatten_append, List.flatten_singleton, List.length_append, List.length_singleton,
          List.length_nil]
        omega
      have hlast : nBeginBundles+groups.flatten.length+(opened++[e]).length =
          nBeginBundles+groups.flatten.length+opened.length+1 := by
        rw [List.length_append, List.length_singleton, Nat.add_assoc _ opened.length]
      rw [hpos, hlast] at hrun
      exact ⟨groups',left,b',hrun,hb'⟩
    · rw [if_neg hreach]
      have hopen := bundled_open denom vValue nBeginBundles h (not_le.mp hreach)
      obtain ⟨groups',left,b',hrun,hb'⟩ := ih groups (opened++[e]) ((pCost+e.nCost)%2^64) b hopen
      rw [total_value_append, total_value_one, List.length_append, List.length_singleton,
        ← Nat.add_assoc] at hrun
      exact ⟨groups',left,b',hrun,hb'⟩

end Loop

section Layouts

def singles (es : List Entry) : List (List Entry) := es.map fun e => [e]

theorem singles_flatten (es : List Entry) : (singles es).flatten = es := by
  induction es with
  | nil => rfl
  | cons e es ih => exact congrArg (e::·) ih

theorem take_single {P : Plan} {i : ℕ} {e : Entry} (ch : Chosen) (hi : i < P.nBeginBundles)
    (he : P.bundles.vValue[i]? = some e) : takeItem P i ch =
      some ⟨ch.setCoinsRet ∪ (([e] : List Entry).map Entry.coin).toFinset,ch.nValueRet+totalValue [e]⟩ := by
  unfold takeItem
  rw [he]
  dsimp only
  rw [if_neg (Nat.not_le.mpr hi), total_value_one, List.map_singleton, List.toFinset_cons,
    List.toFinset_nil, Finset.union_insert, Finset.union_empty]

theorem layout_unscaled (denom : ℤ) (vValue : List Entry) :
    Layout ⟨denom,vValue.length,⟨vValue,[],vValue.length⟩⟩ (singles vValue) [] where
  count := (List.length_map _).symm
  entries i g hg := by
    unfold singles at hg
    rw [List.getElem?_map] at hg
    obtain ⟨e,he,rfl⟩ := Option.map_eq_some_iff.mp hg
    exact ⟨e,he,(total_value_one e).symm⟩
  take i g hg ch := by
    unfold singles at hg
    rw [List.getElem?_map] at hg
    obtain ⟨e,he,rfl⟩ := Option.map_eq_some_iff.mp hg
    exact take_single ch (List.getElem?_eq_some_iff.mp he).1 he
  last it hit := by cases hit
  none_left _ := rfl

variable (denom : ℤ) (vValue : List Entry) (nBeginBundles : ℕ)

section
variable {groups : List (List Entry)} {left : List Entry} {b : Bundles}

theorem take_bundle
    (h : Bundled denom vValue nBeginBundles groups left [] b) {k : ℕ} {g : List Entry}
    (hg : groups[k]? = some g) (ch : Chosen) (hle : nBeginBundles ≤ vValue.length) :
    takeItem ⟨denom,nBeginBundles,b⟩ (nBeginBundles+k) ch =
      some ⟨ch.setCoinsRet ∪ (g.map Entry.coin).toFinset,ch.nValueRet+totalValue g⟩ := by
  obtain ⟨e,he,hvalue⟩ := h.entries k g hg
  have hk := (List.getElem?_eq_some_iff.mp hg).1
  have ha := starts_get nBeginBundles k hk.le
  have hb := starts_get nBeginBundles (k+1) hk
  have htake : (groups.take (k+1)).flatten.length = (groups.take k).flatten.length+g.length := by
    rw [List.take_add_one, hg, List.flatten_append, List.length_append]
    change _+([g] : List (List Entry)).flatten.length = _
    rw [List.flatten_singleton]
  have hsplit := h.split
  rw [List.append_nil] at hsplit
  have hcoins : (((b.vValue.drop (nBeginBundles+(groups.take k).flatten.length)).take g.length).map
      Entry.coin) = g.map Entry.coin := by
    rw [List.map_take, List.map_drop, h.coins, ← List.map_drop, ← List.map_take, ← List.drop_drop, hsplit,
      segment groups left k g hg]
  have hsum : groups.flatten.length = (groups.take (k+1)).flatten.length+(groups.drop (k+1)).flatten.length := by
    rw [← List.length_append, ← List.flatten_append, List.take_append_drop]
  have hdrop := congrArg List.length hsplit
  rw [List.length_drop, List.length_append] at hdrop
  have hlength := h.length
  unfold takeItem
  dsimp only
  rw [he]
  dsimp only
  rw [if_pos (Nat.le_add_right _ _), Nat.add_sub_cancel_left, h.starts, ha, hb]
  dsimp only
  have hdiff : nBeginBundles+(groups.take (k+1)).flatten.length-
      (nBeginBundles+(groups.take k).flatten.length) = g.length := by omega
  have hrange := insert_range_eq ⟨denom,nBeginBundles,b⟩ g.length
    (nBeginBundles+(groups.take k).flatten.length) ch.setCoinsRet (by
      change _ ≤ b.vValue.length
      omega)
  rw [if_neg (by omega), hdiff, hrange, Option.map_some, hcoins, hvalue]

theorem layout_bundled
    (hle : nBeginBundles ≤ vValue.length) (h : Bundled denom vValue nBeginBundles groups left [] b) :
    Layout ⟨denom,nBeginBundles,b⟩ (singles (vValue.take nBeginBundles)++groups) left := by
  have hsingles : (singles (vValue.take nBeginBundles)).length = nBeginBundles := by
    unfold singles
    rw [List.length_map, List.length_take, Nat.min_eq_left hle]
  have hfirst : ∀ (i : ℕ) (g : List Entry), i < nBeginBundles →
      (singles (vValue.take nBeginBundles)++groups)[i]? = some g →
      ∃ e : Entry, b.vValue[i]? = some e ∧ g = [e] := by
    intro i g hi hg
    rw [List.getElem?_append_left (by omega)] at hg
    unfold singles at hg
    rw [List.getElem?_map, List.getElem?_take_of_lt hi] at hg
    obtain ⟨e,he,rfl⟩ := Option.map_eq_some_iff.mp hg
    exact ⟨e,(h.before i hi).trans he,rfl⟩
  have hsecond : ∀ (i : ℕ) (g : List Entry), nBeginBundles ≤ i →
      (singles (vValue.take nBeginBundles)++groups)[i]? = some g → groups[i-nBeginBundles]? = some g := by
    intro i g hi hg
    rw [List.getElem?_append_right (by omega), hsingles] at hg
    exact hg
  refine ⟨?_,?_,?_,?_,?_⟩
  · change b.nTotalCoinValues = _
    rw [h.count, List.length_append, hsingles]
  · intro i g hg
    by_cases hi : i < nBeginBundles
    · obtain ⟨e,he,rfl⟩ := hfirst i g hi hg
      exact ⟨e,he,(total_value_one e).symm⟩
    · obtain ⟨e,he,hvalue⟩ := h.entries _ g (hsecond i g (Nat.not_lt.mp hi) hg)
      rw [Nat.add_sub_cancel' (Nat.not_lt.mp hi)] at he
      exact ⟨e,he,hvalue⟩
  · intro i g hg ch
    by_cases hi : i < nBeginBundles
    · obtain ⟨e,he,rfl⟩ := hfirst i g hi hg
      exact take_single ch hi he
    · have htake := take_bundle denom vValue nBeginBundles h
        (hsecond i g (Nat.not_lt.mp hi) hg) ch hle
      rw [Nat.add_sub_cancel' (Nat.not_lt.mp hi)] at htake
      exact htake
  · intro it hit
    change b.vZeroValueBundles.getLast? = some it at hit
    rw [h.starts, starts_last] at hit
    obtain rfl := Option.some.inj hit
    have hsplit := h.split
    rw [List.append_nil] at hsplit
    have hgroups := length_le_flatten groups fun g hg => (h.filled g hg).1
    have hdrop := congrArg List.length hsplit
    rw [List.length_drop, List.length_append] at hdrop
    have hlength := h.length
    refine ⟨?_,?_⟩
    · change _ ≤ b.vValue.length
      omega
    · change b.vValue.drop _ = left
      have hsame : b.vValue.drop (nBeginBundles+groups.flatten.length) =
          vValue.drop (nBeginBundles+groups.flatten.length) := by
        apply List.ext_getElem?
        intro p
        rw [List.getElem?_drop, List.getElem?_drop]
        exact h.behind _ (by omega)
      rw [hsame, ← List.drop_drop, hsplit, List.drop_left]
  · intro hnone
    change b.vZeroValueBundles.getLast? = none at hnone
    rw [h.starts, starts_last] at hnone
    cases hnone

end

end Layouts

end SwippCore.CoinAge
