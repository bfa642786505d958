import SwippCore.CreateTransaction

/-!
# Where the inputs of a payment come from

By value or by age, and whatever its random orders and its draws are, `CreateTransaction` spends
outputs that `AvailableCoins` offers.
-/

set_option autoImplicit false

namespace SwippCore.CoinOrigin
open FinMap AvailableCoins SelectCoins CreateTransaction Masks
open KeyPool (PoolWallet)

section Sets
variable {cs : List COutput}

def Within (cs : List COutput) (s : Finset CoinId) : Prop := ∀ x ∈ s, ∃ c ∈ cs, key c = x

theorem within_empty : Within cs ∅ := fun _ hx => absurd hx (Finset.notMem_empty _)

theorem within_insert {s : Finset CoinId} {x : CoinId} (hx : ∃ c ∈ cs, key c = x)
    (h : Within cs s) : Within cs (insert x s) := by
  intro y hy
  rcases Finset.mem_insert.mp hy with rfl | hy
  · exact hx
  · exact h y hy

theorem within_all {ds : List COutput} {ch : Chosen} (hds : ∀ c ∈ ds, c ∈ cs)
    (h : Within cs ch.setCoinsRet) : Within cs (ch.insertAll ds).setCoinsRet := by
  rw [(insert_all_eq ds ch).1]
  intro x hx
  rcases Finset.mem_union.mp hx with hx | hx
  · exact h x hx
  · obtain ⟨c,hc,rfl⟩ := List.mem_map.mp (List.mem_toFinset.mp hx)
    exact ⟨c,hds c hc,rfl⟩

end Sets

section Values
variable {cs : List COutput} (fromMe : CWalletTx → Bool) (q : Request) (d : Chance)

def FoundIn (cs : List COutput) : Found → Prop
  | .exact c => c ∈ cs
  | .split vValue _ lowest => (∀ c ∈ vValue, c ∈ cs) ∧ ∀ c, lowest = some c → c ∈ cs

theorem find_within (tryDenom : ℕ) {vCoins vValue : List COutput} (nTotalLower : ℤ)
    {lowest : Option COutput} (hcs : ∀ c ∈ vCoins, c ∈ cs) (hv : ∀ c ∈ vValue, c ∈ cs)
    (hl : ∀ c, lowest = some c → c ∈ cs) :
    FoundIn cs (find fromMe q tryDenom vCoins vValue nTotalLower lowest) := by
  induction vCoins generalizing vValue nTotalLower lowest with
  | nil => exact ⟨hv,hl⟩
  | cons c vCoins ih =>
    have hc := hcs c List.mem_cons_self
    have hrest := fun x hx => hcs x (List.mem_cons_of_mem c hx)
    unfold SelectCoins.find
    split
    · exact ih _ hrest hv hl
    · split
      · exact hc
      · split
        · apply ih _ hrest _ hl
          intro x hx
          rcases List.mem_append.mp hx with hx | hx
          · exact hv x hx
          · rw [List.mem_singleton.mp hx]
            exact hc
        · split
          · apply ih _ hrest hv
            intro x hx
            rw [← Option.some.inj hx]
            exact hc
          · exact ih _ hrest hv hl

theorem larger_or_subset_within {vValue : List COutput} (nTotalLower : ℤ)
    {lowest : Option COutput} (hv : ∀ c ∈ vValue, c ∈ cs) (hl : ∀ c, lowest = some c → c ∈ cs) :
    Within cs (largerOrSubset q d vValue nTotalLower lowest).setCoinsRet := by
  have hpick : ∀ bs, Within cs (Chosen.empty.insertAll (pick bs (d.sort vValue))).setCoinsRet := by
    intro bs
    apply within_all _ within_empty
    intro c hc
    exact hv c ((d.sort_perm vValue).mem_iff.mp ((pick_sublist _ _).subset hc))
  unfold largerOrSubset
  dsimp only
  cases lowest with
  | none => exact hpick _
  | some c =>
    dsimp only
    split
    · exact within_insert ⟨c,hl c rfl,rfl⟩ within_empty
    · exact hpick _

theorem turn_within (tryDenom : ℕ) {vCoins : List COutput} (hcs : ∀ c ∈ vCoins, c ∈ cs) :
    Within cs (turn fromMe q d tryDenom vCoins).2.setCoinsRet := by
  have hfound := @find_within cs fromMe q tryDenom vCoins [] 0 none hcs
    (fun c hc => absurd hc List.not_mem_nil) nofun
  unfold turn
  cases hfind : find fromMe q tryDenom vCoins [] 0 none with
  | exact c =>
    rw [hfind] at hfound
    exact within_insert ⟨c,hfound,rfl⟩ within_empty
  | split vValue nTotalLower lowest =>
    rw [hfind] at hfound
    obtain ⟨hv,hl⟩ := hfound
    dsimp only
    split
    · exact within_all hv within_empty
    · split
      · cases lowest with
        | none => exact within_empty
        | some c => exact within_insert ⟨c,hl c rfl,rfl⟩ within_empty
      · exact larger_or_subset_within q d nTotalLower hv hl

theorem by_value_within (cs : List COutput) :
    Within cs (SelectCoins.selectCoinsMinConf fromMe q d cs).2.setCoinsRet := by
  apply turn_within
  intro c hc
  exact (d.shuffle_perm cs).mem_iff.mp ((denoms_down_perm _).mem_iff.mp hc)

end Values

section Ages
open CoinAge
variable {cs : List COutput}

def EntriesIn (cs : List COutput) (es : List Entry) : Prop := ∀ e ∈ es, ∃ c ∈ cs, key c = e.coin

theorem nothing_within : Within cs Chosen.empty.setCoinsRet := within_empty

theorem split_within (now : Clock) (fromMe : CWalletTx → Bool) (q : Request)
    {vCoins : List COutput} {vValue : List Entry} (nTotalLower : ℤ) {lowest : Option Entry}
    (hcs : ∀ c ∈ vCoins, c ∈ cs) (hv : EntriesIn cs vValue)
    (hl : ∀ e, lowest = some e → ∃ c ∈ cs, key c = e.coin) :
    EntriesIn cs (splitByAge now fromMe q vCoins vValue nTotalLower lowest).1 ∧
      ∀ e, (splitByAge now fromMe q vCoins vValue nTotalLower lowest).2.2 = some e →
        ∃ c ∈ cs, key c = e.coin := by
  induction vCoins generalizing vValue nTotalLower lowest with
  | nil => exact ⟨hv,hl⟩
  | cons c vCoins ih =>
    have hc : ∃ x ∈ cs, key x = (entry now c).coin := ⟨c,hcs c List.mem_cons_self,rfl⟩
    have hrest := fun x hx => hcs x (List.mem_cons_of_mem c hx)
    unfold splitByAge
    split
    · exact ih _ hrest hv hl
    · split
      · apply ih _ hrest _ hl
        intro e he
        rcases List.mem_append.mp he with he | he
        · exact hv e he
        · rw [List.mem_singleton.mp he]
          exact hc
      · split
        · apply ih _ hrest hv
          intro e he
          rw [← Option.some.inj he]
          exact hc
        · exact ih _ hrest hv hl

/-- A bundle has the coin of the entry that it replaces. -/
theorem bundle_within (denom : ℤ) (n itZeroValue : ℕ) (pValue : ℤ) (pCost : ℕ) {b b' : Bundles}
    (hb : EntriesIn cs b.vValue) (h : bundle denom n itZeroValue pValue pCost b = some b') :
    EntriesIn cs b'.vValue := by
  induction n generalizing itZeroValue pValue pCost b with
  | zero =>
    cases h
    exact hb
  | succ n ih =>
    unfold bundle at h
    split at h
    · cases h
    · dsimp only at h
      split at h
      · split at h
        · cases h
        · rename_i x hx
          apply ih _ _ _ _ h
          intro e he
          rcases List.mem_or_eq_of_mem_set he with he | rfl
          · exact hb e he
          · exact hb x (List.mem_of_getElem? hx)
      · exact ih _ _ _ hb h

section Plans
variable {P : Plan} (hP : EntriesIn cs P.bundles.vValue)
include hP

theorem insert_range_within (n it : ℕ) {s s' : Finset CoinId} (hs : Within cs s)
    (h : insertRange P n it s = some s') : Within cs s' := by
  induction n generalizing it s with
  | zero =>
    cases h
    exact hs
  | succ n ih =>
    unfold insertRange at h
    split at h
    · cases h
    · rename_i e he
      exact ih _ (within_insert (hP e (List.mem_of_getElem? he)) hs) h

theorem take_item_within {i : ℕ} {ch ch' : Chosen} (hs : Within cs ch.setCoinsRet)
    (h : takeItem P i ch = some ch') : Within cs ch'.setCoinsRet := by
  unfold takeItem at h
  split at h
  · cases h
  · rename_i e he
    split at h
    · split at h
      · split at h
        · cases h
        · obtain ⟨s,hrange,rfl⟩ := Option.map_eq_some_iff.mp h
          exact insert_range_within hP _ _ hs hrange
      · cases h
    · cases h
      exact within_insert (hP e (List.mem_of_getElem? he)) hs

theorem prepick_within (nTargetValue : ℤ) (n nBegin : ℕ) (nTotalValue : ℤ) {ch : Chosen}
    {x : ℕ × ℤ × Chosen} (hs : Within cs ch.setCoinsRet)
    (h : prepick P nTargetValue n nBegin nTotalValue ch = some x) : Within cs x.2.2.setCoinsRet := by
  induction n generalizing nBegin nTotalValue ch with
  | zero =>
    cases h
    exact hs
  | succ n ih =>
    unfold prepick at h
    split at h
    · split at h
      · rename_i htake
        exact ih _ _ (take_item_within hP hs htake) h
      · cases h
    · cases h
      exact hs

theorem trace_back_within {nBegin : ℕ} {B : List (List ℕ)} (nPrev : ℤ) {ch ch' : Chosen}
    (hs : Within cs ch.setCoinsRet) (h : traceBack P nBegin B nPrev ch = some ch') :
    Within cs ch'.setCoinsRet := by
  induction B generalizing nPrev ch with
  | nil =>
    cases h
    exact hs
  | cons row B ih =>
    unfold traceBack at h
    split at h
    · cases h
    · split at h
      · cases h
      · obtain ⟨ch1,hone,hrest⟩ := Option.bind_eq_some_iff.mp h
        refine ih _ ?_ hrest
        split at hone
        · exact take_item_within hP hs hone
        · cases hone
          exact hs

omit hP in
theorem add_small_within (nTargetValue : ℤ) {es : List Entry} {ch : Chosen} (hes : EntriesIn cs es)
    (hs : Within cs ch.setCoinsRet) : Within cs (addSmall nTargetValue es ch).setCoinsRet := by
  induction es generalizing ch with
  | nil => exact hs
  | cons e es ih =>
    unfold addSmall
    split
    · exact ih (fun x hx => hes x (List.mem_cons_of_mem e hx))
        (within_insert (hes e List.mem_cons_self) hs)
    · exact hs

theorem solve_within {nTargetValue : ℤ} {nBegin : ℕ} {nTotalValue : ℤ} {ch ch' : Chosen}
    (hs : Within cs ch.setCoinsRet) (h : solve P nTargetValue nBegin nTotalValue ch = some ch') :
    Within cs ch'.setCoinsRet := by
  unfold solve at h
  dsimp only at h
  generalize nTotalValue-(nTargetValue-ch.nValueRet).tdiv P.denom+
    (if (nTargetValue-ch.nValueRet).tmod P.denom ≠ 0 then (0 : ℤ) else 1) = size2 at h
  split at h
  · cases h
  · obtain ⟨m,_,h⟩ := Option.bind_eq_some_iff.mp h
    obtain ⟨ch1,hback,h⟩ := Option.bind_eq_some_iff.mp h
    have hs1 := trace_back_within hP _ hs hback
    split at h
    · split at h
      · cases h
        exact hs1
      · split at h
        · cases h
        · cases h
          exact add_small_within _ (fun e he => hP e (List.mem_of_mem_drop he)) hs1
    · cases h
      exact hs1

theorem pick_and_solve_within {q : Request} {ch : Chosen} (h : pickAndSolve q P = some ch) :
    Within cs ch.setCoinsRet := by
  unfold pickAndSolve at h
  dsimp only at h
  split at h
  · obtain ⟨x,hpick,h⟩ := Option.bind_eq_some_iff.mp h
    have hs := prepick_within hP _ _ _ _ nothing_within hpick
    split at h
    · cases h
      exact hs
    · exact solve_within hP hs h
  · exact solve_within hP nothing_within h

end Plans

theorem choose_all_within {es : List Entry} {ch : Chosen} (hes : EntriesIn cs es)
    (hs : Within cs ch.setCoinsRet) : Within cs (chooseAll es ch).setCoinsRet := by
  induction es generalizing ch with
  | nil => exact hs
  | cons e es ih =>
    exact ih (fun x hx => hes x (List.mem_cons_of_mem e hx))
      (within_insert (hes e List.mem_cons_self) hs)

theorem choose_by_age_within {q : Request} {es : List Entry} {ch : Chosen} (hes : EntriesIn cs es)
    (h : chooseByAge q es = some ch) : Within cs ch.setCoinsRet := by
  unfold chooseByAge at h
  split at h
  · cases h
  · split at h
    · cases h
      exact choose_all_within hes within_empty
    · split at h
      · obtain ⟨b,hbundle,h⟩ := Option.bind_eq_some_iff.mp h
        split at h
        · cases h
        · refine pick_and_solve_within (bundle_within _ _ _ _ _ ?_ hbundle) h
          intro e he
          rcases List.mem_append.mp he with he | he
          · exact hes e (List.mem_filter.mp he).1
          · exact hes e (List.mem_filter.mp he).1
      · exact solve_within hes nothing_within h

theorem by_age_within {now : Clock} {fromMe : CWalletTx → Bool} {q : Request}
    {order : AgeOrder now} {x : Bool × Chosen}
    (h : CoinAge.selectCoinsMinConfByCoinAge now fromMe q order cs = some x) :
    Within cs x.2.setCoinsRet := by
  obtain ⟨hv,hl⟩ := @split_within cs now fromMe q (order.sort cs) [] 0 none
    (fun c hc => (order.perm cs).mem_iff.mp hc)
    (fun e he => absurd he List.not_mem_nil) nofun
  unfold CoinAge.selectCoinsMinConfByCoinAge at h
  dsimp only at h
  split at h
  · split at h
    · cases h
      exact within_empty
    · rename_i e he
      cases h
      exact within_insert (hl e he) within_empty
  · obtain ⟨ch,hch,rfl⟩ := Option.map_eq_some_iff.mp h
    exact choose_by_age_within hv hch

end Ages

section Payments
variable (B : Builder)

theorem select_function_within {d : Draws} {q : Request} {cs : List COutput} {x : Bool × Chosen}
    (h : selectFunction B d q cs = some x) : Within cs x.2.setCoinsRet := by
  unfold selectFunction at h
  split at h
  · exact by_age_within h
  · cases h
    exact by_value_within B.fromMe q d.chance cs

theorem select_coins_within {p : Pass} {nTargetValue : ℤ} {nSpendTime : ℕ}
    {coinControl : Option CCoinControl} {x : Bool × Chosen}
    (h : CreateTransaction.selectCoins B p nTargetValue nSpendTime coinControl .allCoins false =
      some x) :
    Within (availableCoins B.V B.K true (selectedCoins coinControl) .allCoins false B.mapWallet)
      x.2.setCoinsRet := by
  unfold CreateTransaction.selectCoins at h
  dsimp only at h
  rw [if_neg (by decide)] at h
  split at h
  · cases h
    exact within_all (fun c hc => (List.mem_filter.mp hc).1) within_empty
  · obtain ⟨y,hy,h⟩ := Option.bind_eq_some_iff.mp h
    split at h
    · cases h
      exact select_function_within B hy
    · obtain ⟨z,hz,h⟩ := Option.bind_eq_some_iff.mp h
      split at h
      · cases h
        exact select_function_within B hz
      · exact select_function_within B h

/-- Every input of a transaction that is made is an output that was offered. -/
theorem created_offered {nTurns : ℕ} {c : Call} {passes : ℕ → Pass} {s s' : PoolWallet}
    {tx : CTransaction} {nFeeRet : ℤ}
    (h : CreateTransaction.createTransaction B nTurns c passes s = some (.created tx nFeeRet,s'))
    {o : COutPoint} (ho : o ∈ tx.prevouts) :
    ∃ x ∈ availableCoins B.V B.K true (selectedCoins c.coinControl) .allCoins false B.mapWallet,
      prevout B.env x = o := by
  unfold CreateTransaction.createTransaction at h
  split at h
  · cases h
  · rename_i nValue _
    split at h
    · cases h
    · obtain ⟨i,v,t,hturn⟩ := Raising.loop_last _ _ _ _ _ _ h
      have hcase := PaymentRuns.pass_cases B c nValue (passes i) v t
      rw [hturn] at hcase
      cases hcase with
      | created ch vout _ _ hsel hfill hsign hfee =>
        rw [(PaymentRuns.sign_all_kept _ _ _ hsign).2] at ho
        unfold CTransaction.prevouts at ho
        rw [List.map_map] at ho
        obtain ⟨x,hx,rfl⟩ := List.mem_map.mp ho
        obtain ⟨y,hy,rfl⟩ := select_coins_within B hsel x (((passes i).order.mem _ x).mp hx)
        exact ⟨y,hy,rfl⟩

end Payments

end SwippCore.CoinOrigin
