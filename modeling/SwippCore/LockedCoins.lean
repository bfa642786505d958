import SwippCore.CoinOrigin

/-!
# Locked coins

Payments, denominating and collaterals take their inputs from an enumeration that
leaves out locked coins. Staking enumerates without that check, so that a locked coin
is spared there only if it can neither be a kernel nor be added to one.
-/

set_option autoImplicit false

namespace SwippCore.LockedCoins
open FinMap AvailableCoins WalletMarks CoinStake CoinSelection
open DarkSendPool (darkSendDenominations)

section Selections
variable (V : CoinView) (K : Keys) {m : MapWallet} {c : COutput} {cs : List COutput}

variable (env : Env) (q : DenominateRequest)

theorem take_denominations_from {vCoins : List COutput} {nCoins : ℕ} {outs : List COutput}
    (houts : ∀ c ∈ outs, c ∈ vCoins) (d : Denominated) (hd : ∀ c ∈ d.setCoinsRet, c ∈ vCoins) :
    ∀ c ∈ (takeDenominations V env q nCoins outs d).2.setCoinsRet, c ∈ vCoins := by
  induction outs generalizing d with
  | nil => exact hd
  | cons out outs ih =>
    have hrest := fun x hx => houts x (List.mem_cons_of_mem out hx)
    have htaken : ∀ c ∈ d.setCoinsRet++[out], c ∈ vCoins := by
      intro c hc
      rcases List.mem_append.mp hc with hc | hc
      · exact hd c hc
      · rw [List.mem_singleton.mp hc]
        exact houts out List.mem_cons_self
    unfold takeDenominations
    dsimp only
    split
    · exact ih hrest d hd
    · split
      · exact ih hrest d hd
      · split
        · exact ih hrest d hd
        · split
          · exact ih hrest d hd
          · split
            · split
              · exact hd
              · split
                · exact ih hrest _ htaken
                · exact ih hrest _ hd
            · split
              · exact ih hrest _ htaken
              · exact ih hrest d hd

theorem select_denominations_from {order : List ℕ} {nValueMax : ℤ}
    (h : selectCoinsByDenominations V K env q order nValueMax m = some cs) (hc : c ∈ cs) :
    c ∈ availableCoins V K true [] .allCoins false m := by
  unfold selectCoinsByDenominations at h
  dsimp only at h
  split at h
  · cases h
    exact take_denominations_from V env q (fun c hc => mem_selected hc) _
      (fun c hc => by cases hc) c hc
  · cases h

theorem offered_unlocked (hm : Keyed env m) (coinControl : List COutPoint) (c : COutput)
    (hc : c ∈ availableCoins V K true coinControl .allCoins false m) :
    prevout env c ∉ V.setLockedCoins := by
  unfold availableCoins outputsOf at hc
  obtain ⟨x,hx,hc⟩ := List.mem_flatMap.mp hc
  obtain ⟨hx,_⟩ := List.mem_filter.mp hx
  obtain ⟨y,hy,rfl⟩ := List.mem_map.mp hc
  obtain ⟨hy,ho⟩ := List.mem_filter.mp hy
  have hlook := (mem_in_order _ m x.1 x.2).mp hx
  have hout : x.2.tx.vout[y.2]? = some y.1 := List.mem_zipIdx_iff_getElem?.mp hy
  have hkey : env.hashTx x.2.tx = x.1 := by
    apply hm x.1 x.2.tx (by rw [hlook]; rfl)
    intro hnil
    rw [hnil] at hout
    cases hout
  simp only [offersOutput, Bool.and_eq_true, Bool.not_eq_true', List.contains_eq_mem,
    decide_eq_false_iff_not] at ho
  unfold prevout
  rw [hkey]
  exact ho.1.1.2

end Selections

section Candidates
variable (V : CoinView) (K : Keys) (env : Env) (nMinimumInputValue : ℤ) (W : StakeWallet)

def kernelCoin (c : StakeCoin) : Bool :=
  c.nValue != 0 && (scriptPubKeyOut W c.scriptPubKey).isSome

def joins (nTime : ℕ) (k c : StakeCoin) : Bool :=
  (scriptPubKeyOut W k.scriptPubKey).any fun script =>
    sameKey ⟨k,0,script⟩ c && k.nValue < getStakeCombineThreshold &&
      c.nValue < getStakeCombineThreshold && env.nStakeMinAge ≤ getWeight env c.nTime nTime

def StakingSpares (m : MapWallet) : Prop :=
  ∀ nSpendTime, ∀ c ∈ stakeCoins V K env nMinimumInputValue nSpendTime m,
    c.prevout ∈ V.setLockedCoins → kernelCoin W c = false ∧
      ∀ k ∈ stakeCoins V K env nMinimumInputValue nSpendTime m, kernelCoin W k = true →
        ∀ age < 60, joins env W (timeBefore nSpendTime age) k c = false

/-- What varies between the calls of `CreateCoinStake` on one wallet. -/
structure StakeCall where
  order : SetOrder
  nBalance : ℤ
  nReserveBalance : ℤ
  checkKernel : ℕ → ℕ → COutPoint → Bool
  disk : Disk
  store : Store
  nBits : ℕ
  nSearchInterval : ℤ
  nFees : ℤ
  txNew : CTransaction

def StakeCall.wallet (q : StakeCall) (m : MapWallet) : StakeWallet :=
  stakingWallet V K env nMinimumInputValue { W with
    nBalance := q.nBalance
    nReserveBalance := q.nReserveBalance
    checkKernel := q.checkKernel } q.order m

structure Spared (tip : CBlockIndex) (m : MapWallet) : Prop where
  transaction : ∀ B : CreateTransaction.Builder, B.env = env → B.V = V → B.K = K → B.mapWallet = m →
    ∀ nTurns c passes s tx nFeeRet s',
      CreateTransaction.createTransaction B nTurns c passes s = some (.created tx nFeeRet,s') →
        ∀ o ∈ tx.prevouts, o ∉ V.setLockedCoins
  denominate : ∀ q order fOutputs vin,
    prepareDarksendDenominate V K env q order fOutputs m = some vin → ∀ o ∈ vin, o ∉ V.setLockedCoins
  collateral : ∀ fSigned vin, createCollateralTransaction V K env m fSigned = some vin →
    ∀ o ∈ vin, o ∉ V.setLockedCoins
  /-- the inputs that `CreateCoinStake` takes -/
  stake : ∀ (q : StakeCall) st, chooseStake env (q.wallet V K env nMinimumInputValue W m) q.disk
      q.store tip q.nBits q.nSearchInterval q.nFees q.txNew = some st →
    ∀ c ∈ st.vwtxPrev, c.prevout ∉ V.setLockedCoins
  /-- and those of the transaction that it signs -/
  signed : ∀ (q : StakeCall) (P : PaymentView) tx,
    createCoinStake env (q.wallet V K env nMinimumInputValue W m) q.disk q.store tip P q.nBits
      q.nSearchInterval q.nFees q.txNew = some tx → ∀ o ∈ tx.prevouts, o ∉ V.setLockedCoins

end Candidates

section Taken
variable (V : CoinView) (K : Keys) (env : Env) (nMinimumInputValue : ℤ) (W : StakeWallet)

theorem take_for_staking_from {nTargetValue : ℤ} {cs : List StakeCoin} (nValueRet : ℤ)
    {c : StakeCoin} (h : c ∈ takeForStaking nTargetValue cs nValueRet) : c ∈ cs := by
  induction cs generalizing nValueRet with
  | nil => cases h
  | cons x cs ih =>
    unfold takeForStaking at h
    split at h
    · cases h
    · split at h
      · rw [List.mem_singleton.mp h]
        exact List.mem_cons_self
      · split at h
        · rcases List.mem_cons.mp h with rfl | h
          · exact List.mem_cons_self
          · exact List.mem_cons_of_mem x (ih _ h)
        · exact List.mem_cons_of_mem x (ih _ h)

theorem find_kernel_some {nBits nTime : ℕ} {nSearchInterval : ℤ} {cs : List StakeCoin} {k : Kernel}
    (h : findKernel W nBits nTime nSearchInterval cs = some k) :
    k.coin ∈ cs ∧ k.age < 60 ∧ scriptPubKeyOut W k.coin.scriptPubKey = some k.scriptOut := by
  induction cs with
  | nil => cases h
  | cons c cs ih =>
    have hrest : findKernel W nBits nTime nSearchInterval cs = some k →
        k.coin ∈ c::cs ∧ k.age < 60 ∧ scriptPubKeyOut W k.coin.scriptPubKey = some k.scriptOut := by
      intro h
      obtain ⟨hmem,hage⟩ := ih h
      exact ⟨List.mem_cons_of_mem c hmem,hage⟩
    unfold findKernel at h
    split at h
    · exact hrest h
    · rename_i n hn
      split at h
      · exact hrest h
      · rename_i script hscript
        cases h
        refine ⟨List.mem_cons_self,?_,hscript⟩
        have hlt := List.mem_range.mp (List.mem_of_find?_eq_some hn)
        dsimp only
        omega

theorem combine_joins {k : Kernel}
    (hscript : scriptPubKeyOut W k.coin.scriptPubKey = some k.scriptOut) (nTime : ℕ)
    (cs prevs : List StakeCoin) (nCredit : ℤ) (hcredit : k.coin.nValue ≤ nCredit) (c : StakeCoin)
    (hc : c ∈ (combine env W k nTime cs prevs nCredit).1) :
    c ∈ prevs ∨ (c ∈ cs ∧ joins env W nTime k.coin c = true) := by
  induction cs generalizing prevs nCredit with
  | nil => exact Or.inl hc
  | cons x cs ih =>
    have hskip : c ∈ prevs ∨ (c ∈ cs ∧ joins env W nTime k.coin c = true) →
        c ∈ prevs ∨ (c ∈ x::cs ∧ joins env W nTime k.coin c = true) :=
      fun h => h.imp id fun h => ⟨List.mem_cons_of_mem x h.1,h.2⟩
    unfold combine at hc
    split at hc
    · rename_i hsame
      split at hc
      · exact Or.inl hc
      · split at hc
        · exact Or.inl hc
        · rename_i hlow
          split at hc
          · exact Or.inl hc
          · split at hc
            · exact hskip (ih prevs nCredit hcredit hc)
            · rename_i hyoung
              rw [not_or] at hyoung
              have hx := x.nonneg
              rcases ih (prevs++[x]) (nCredit+x.nValue) (by omega) hc with hmem | hmem
              · rcases List.mem_append.mp hmem with hmem | hmem
                · exact Or.inl hmem
                · right
                  rw [List.mem_singleton.mp hmem]
                  refine ⟨List.mem_cons_self,?_⟩
                  have hsame' : sameKey ⟨k.coin,0,k.scriptOut⟩ x = true := hsame
                  unfold joins
                  rw [hscript, Option.any_some, hsame']
                  simp only [Bool.true_and, Bool.and_eq_true, decide_eq_true_eq]
                  omega
              · exact hskip (Or.inr hmem)
    · exact hskip (ih prevs nCredit hcredit hc)

theorem choose_stake_coins {q : StakeCall} {tip : CBlockIndex} {m : MapWallet} {st : Stake}
    (h : chooseStake env (q.wallet V K env nMinimumInputValue W m) q.disk q.store tip q.nBits
      q.nSearchInterval q.nFees q.txNew = some st) :
    ∃ k ∈ stakeCoins V K env nMinimumInputValue q.txNew.nTime m, kernelCoin W k = true ∧
      ∃ age < 60, ∀ c ∈ st.vwtxPrev, c = k ∨
        (c ∈ stakeCoins V K env nMinimumInputValue q.txNew.nTime m ∧
          joins env W (timeBefore q.txNew.nTime age) k c = true) := by
  unfold chooseStake at h
  simp only [Option.bind_eq_bind, Option.bind_eq_some_iff] at h
  obtain ⟨⟨k,prevs,nCredit⟩,hcoins,nCoinAge,_,h⟩ := h
  have hprevs : st.vwtxPrev = prevs := by
    split at h
    · cases h
    · cases h
      rfl
  unfold chooseCoins at hcoins
  split at hcoins
  · cases hcoins
  · simp only [Option.bind_eq_bind, Option.bind_eq_some_iff] at hcoins
    obtain ⟨setCoins,hset,k',hk,hcoins⟩ := hcoins
    have hsub : ∀ c ∈ setCoins, c ∈ stakeCoins V K env nMinimumInputValue q.txNew.nTime m := by
      intro c hc
      rw [← Option.some.inj hset] at hc
      exact take_for_staking_from _ ((q.order.perm _).mem_iff.mp hc)
    split at hcoins
    · cases hcoins
    · rename_i hvalue
      rw [not_or] at hvalue
      obtain ⟨rfl,hchosen⟩ := Prod.mk.inj (Option.some_inj.mp hcoins)
      obtain ⟨hmem,hage,hscript⟩ := find_kernel_some _ hk
      have hscript' : scriptPubKeyOut W k'.coin.scriptPubKey = some k'.scriptOut := hscript
      refine ⟨k'.coin,hsub _ hmem,?_,k'.age,hage,?_⟩
      · unfold kernelCoin
        rw [hscript', Option.isSome_some, Bool.and_true, bne_iff_ne]
        exact hvalue.1
      · intro c hc
        rw [hprevs] at hc
        split at hchosen
        · have hcomb := combine_joins env (q.wallet V K env nMinimumInputValue W m) hscript
            (timeBefore q.txNew.nTime k'.age) setCoins [k'.coin] k'.coin.nValue (le_refl _) c
            (by rw [hchosen]; exact hc)
          rcases hcomb with hcomb | ⟨hcomb,hj⟩
          · exact Or.inl (List.mem_singleton.mp hcomb)
          · exact Or.inr ⟨hsub c hcomb,hj⟩
        · obtain ⟨rfl,_⟩ := Prod.mk.inj hchosen
          exact Or.inl (List.mem_singleton.mp hc)

end Taken

section Made
variable (V : CoinView) (K : Keys) (env : Env) (nMinimumInputValue : ℤ) (W : StakeWallet)

theorem exists_order {cs p : List StakeCoin} (hp : p.Nodup) (hsub : p ⊆ cs) :
    ∃ (o : SetOrder) (rest : List StakeCoin), o.order cs = p++rest := by
  classical
  obtain ⟨l,hl,hsublist⟩ := List.subperm_of_subset hp hsub
  obtain ⟨rest,hrest⟩ := hsublist.exists_perm_append
  have hperm : cs.Perm (p++rest) := hrest.trans (hl.append_right rest)
  refine ⟨⟨fun x => if x = cs then p++rest else x,?_⟩,rest,if_pos rfl⟩
  intro x
  split
  · rename_i hx
    rw [hx]
    exact hperm.symm
  · exact List.Perm.refl x

theorem take_all (nTargetValue : ℤ) (cs : List StakeCoin) (nValueRet : ℤ) (h0 : 0 ≤ nValueRet)
    (h : nValueRet+(cs.map StakeCoin.nValue).sum < nTargetValue) :
    takeForStaking nTargetValue cs nValueRet = cs := by
  induction cs generalizing nValueRet with
  | nil => rfl
  | cons c cs ih =>
    have hc := c.nonneg
    have hcs := coins_nonneg cs
    rw [List.map_cons, List.sum_cons] at h
    have hcent : (0 : ℤ) < cent := by decide
    unfold takeForStaking
    rw [if_neg (by omega), if_neg (by omega), if_pos (by omega),
      ih (nValueRet+c.nValue) (by omega) (by omega)]

theorem time_before_inj {nTime n k : ℕ} (hn : n < 60) (hk : k < 60)
    (h : timeBefore nTime n = timeBefore nTime k) : n = k := by
  unfold timeBefore at h
  omega

theorem coin_age_missing (disk : Disk) (tx : CTransaction) (bnCentSecond : ℤ)
    (os : List COutPoint) : coinAgeFrom env disk Store.empty tx bnCentSecond os = some bnCentSecond := by
  induction os with
  | nil => rfl
  | cons o os ih => exact ih

theorem coin_age_zero (disk : Disk) (tx : CTransaction) :
    getCoinAge env disk Store.empty tx = some 0 := by
  unfold getCoinAge
  split
  · rfl
  · rw [coin_age_missing]
    rfl

theorem subsidy_pos (nHeight : ℤ) : 0 < proofOfStakeSubsidy nHeight := by
  unfold proofOfStakeSubsidy
  split_ifs <;> decide

theorem value_le_sum {cs : List StakeCoin} {c : StakeCoin} (h : c ∈ cs) :
    c.nValue ≤ (cs.map StakeCoin.nValue).sum := by
  induction cs with
  | nil => cases h
  | cons x cs ih =>
    have hx := x.nonneg
    have hcs := coins_nonneg cs
    rw [List.map_cons, List.sum_cons]
    rcases List.mem_cons.mp h with rfl | h
    · omega
    · have hc := ih h
      omega

/-- A call on a chain without the inputs of the stake, at which one coin is the kernel, at one
time, and the balance is above all coins. -/
def callFor (o : SetOrder) (cs : List StakeCoin) (k : StakeCoin) (age nTime : ℕ) :
    StakeCall where
  order := o
  nBalance := (cs.map StakeCoin.nValue).sum+1
  nReserveBalance := 0
  checkKernel := fun _ t x => t == timeBefore nTime age && x == k.prevout
  disk := ⟨fun _ => none,fun _ _ => none,fun _ _ => none⟩
  store := Store.empty
  nBits := 0
  nSearchInterval := 60
  nFees := 0
  txNew := ⟨1,nTime,[],[],0⟩

theorem kernel_found (W : StakeWallet) (k : StakeCoin) (age nTime : ℕ) (hage : age < 60)
    (hkernel : W.checkKernel = fun _ t x => t == timeBefore nTime age && x == k.prevout)
    (script : CScript) (hscript : scriptPubKeyOut W k.scriptPubKey = some script)
    (rest : List StakeCoin) : findKernel W 0 nTime 60 (k::rest) = some ⟨k,age,script⟩ := by
  have hfind : kernelAge W 0 nTime 60 k = some age := by
    unfold kernelAge
    rw [List.find?_range_eq_some]
    refine ⟨by simp [hkernel],List.mem_range.mpr hage,?_⟩
    intro n hlt
    have hne : timeBefore nTime n ≠ timeBefore nTime age := by
      intro heq
      have hn := time_before_inj (by omega) hage heq
      omega
    simp [hkernel, hne]
  unfold findKernel
  rw [hfind]
  dsimp only
  rw [hscript]

theorem stake_made (tip : CBlockIndex) (m : MapWallet) (o : SetOrder) (k : StakeCoin) (age nTime : ℕ)
    (hage : age < 60) (hk : kernelCoin W k = true) (rest : List StakeCoin)
    (horder : o.order (stakeCoins V K env nMinimumInputValue nTime m) = k::rest) :
    let q := callFor o (stakeCoins V K env nMinimumInputValue nTime m) k age nTime
    ∃ st script, scriptPubKeyOut W k.scriptPubKey = some script ∧
      chooseStake env (q.wallet V K env nMinimumInputValue W m) q.disk q.store tip q.nBits
        q.nSearchInterval q.nFees q.txNew = some st ∧
      st.vwtxPrev = (if (stakeOutputs ⟨k,age,script⟩).length = 2 then
        combine env (q.wallet V K env nMinimumInputValue W m) ⟨k,age,script⟩ (timeBefore nTime age)
          (k::rest) [k] k.nValue else ([k],k.nValue)).1 := by
  intro q
  have hsum := coins_nonneg (stakeCoins V K env nMinimumInputValue nTime m)
  have hkmem : k ∈ stakeCoins V K env nMinimumInputValue nTime m :=
    (o.perm _).mem_iff.mp (horder ▸ List.mem_cons_self)
  have hle := value_le_sum hkmem
  unfold kernelCoin at hk
  rw [Bool.and_eq_true, bne_iff_ne] at hk
  obtain ⟨script,hscript⟩ := Option.isSome_iff_exists.mp hk.2
  have hset : (q.wallet V K env nMinimumInputValue W m).selectCoinsForStaking
      (q.nBalance-q.nReserveBalance) nTime = some (k::rest) := by
    change some (o.order (takeForStaking _ _ 0)) = _
    rw [take_all _ _ 0 (le_refl 0) (by dsimp only [q, callFor]; omega), horder]
  have hfind := kernel_found (q.wallet V K env nMinimumInputValue W m) k age nTime hage rfl script
    hscript rest
  have hcoins : chooseCoins env (q.wallet V K env nMinimumInputValue W m) q.nBits
      q.nSearchInterval q.txNew = some (⟨k,age,script⟩,
        if (stakeOutputs ⟨k,age,script⟩).length = 2 then
          combine env (q.wallet V K env nMinimumInputValue W m) ⟨k,age,script⟩ (timeBefore nTime age)
            (k::rest) [k] k.nValue else ([k],k.nValue)) := by
    have hbalance : ¬(q.wallet V K env nMinimumInputValue W m).nBalance ≤
        (q.wallet V K env nMinimumInputValue W m).nReserveBalance := by
      change ¬((stakeCoins V K env nMinimumInputValue nTime m).map StakeCoin.nValue).sum+1 ≤ 0
      omega
    have hvalue : ¬(k.nValue = 0 ∨ (q.wallet V K env nMinimumInputValue W m).nBalance-
        (q.wallet V K env nMinimumInputValue W m).nReserveBalance < k.nValue) := by
      change ¬(k.nValue = 0 ∨
        ((stakeCoins V K env nMinimumInputValue nTime m).map StakeCoin.nValue).sum+1-0 < k.nValue)
      have hne := hk.1
      omega
    unfold chooseCoins
    rw [if_neg hbalance]
    simp only [Option.bind_eq_bind, Option.bind_eq_some_iff]
    exact ⟨k::rest,hset,⟨k,age,script⟩,hfind,by rw [if_neg hvalue]; rfl⟩
  have hreward : ¬getProofOfStakeReward tip (tip.nHeight+1) (0 : BitVec 64).toInt q.nFees ≤ 0 := by
    have hpos := subsidy_pos tip.nHeight
    change ¬proofOfStakeSubsidy tip.nHeight+0 ≤ 0
    omega
  cases hp : (if (stakeOutputs ⟨k,age,script⟩).length = 2 then
      combine env (q.wallet V K env nMinimumInputValue W m) ⟨k,age,script⟩ (timeBefore nTime age)
        (k::rest) [k] k.nValue else ([k],k.nValue)) with
  | mk prevs nCredit =>
    rw [hp] at hcoins
    let nReward := getProofOfStakeReward tip (tip.nHeight+1) (0 : BitVec 64).toInt q.nFees
    refine ⟨⟨⟨k,age,script⟩,prevs,nCredit+nReward,nReward⟩,script,hscript,?_,by rw [hp]⟩
    unfold chooseStake
    simp only [Option.bind_eq_bind, Option.bind_eq_some_iff]
    exact ⟨_,hcoins,0,coin_age_zero env q.disk _,if_neg hreward⟩

theorem joins_small {nTime : ℕ} {k c : StakeCoin} (h : joins env W nTime k c = true) :
    k.nValue < getStakeCombineThreshold ∧ c.nValue < getStakeCombineThreshold := by
  unfold joins at h
  obtain ⟨script,_,h⟩ := (Option.any_eq_true _ _).mp h
  simp only [Bool.and_eq_true, decide_eq_true_eq] at h
  exact ⟨h.1.1.2,h.1.2⟩

theorem joined_taken {W' : StakeWallet} {k c : StakeCoin} (age nTime : ℕ) {script : CScript}
    (hscript : scriptPubKeyOut W k.scriptPubKey = some script) (rest : List StakeCoin)
    (hj : joins env W nTime k c = true) (hbal : k.nValue+c.nValue ≤ W'.nBalance-W'.nReserveBalance) :
    c ∈ (combine env W' ⟨k,age,script⟩ nTime (k::c::rest) [k] k.nValue).1 := by
  unfold joins at hj
  rw [hscript, Option.any_some] at hj
  simp only [Bool.and_eq_true, decide_eq_true_eq] at hj
  obtain ⟨⟨⟨hsame,hk⟩,hc⟩,hage⟩ := hj
  have hsame' : sameKey ⟨k,age,script⟩ c = true := hsame
  have hself : sameKey ⟨k,age,script⟩ k = false := by
    unfold sameKey
    rw [bne_self_eq_false, Bool.and_false]
  have hcombine : combine env W' ⟨k,age,script⟩ nTime (k::c::rest) [k] k.nValue =
      combine env W' ⟨k,age,script⟩ nTime rest ([k]++[c]) (k.nValue+c.nValue) := by
    rw [combine, if_neg (by rw [hself]; exact Bool.false_ne_true), combine, if_pos hsame',
      if_neg (by rw [List.length_singleton]; omega), if_neg (by omega), if_neg (by omega),
      if_neg (by omega)]
  obtain ⟨added,hadded,_⟩ := combine_adds env W' ⟨k,age,script⟩ nTime rest ([k]++[c])
    (k.nValue+c.nValue)
  rw [hcombine, hadded]
  exact List.mem_append_left added (List.mem_append_right [k] (List.mem_singleton.mpr rfl))

end Made

section Exact
variable (V : CoinView) (K : Keys) (env : Env) (nMinimumInputValue : ℤ) (W : StakeWallet)

theorem two_values {cs : List StakeCoin} {k c : StakeCoin} (hne : k ≠ c) (hk : k ∈ cs) (hc : c ∈ cs) :
    k.nValue+c.nValue ≤ (cs.map StakeCoin.nValue).sum := by
  obtain ⟨l,r,rfl⟩ := List.append_of_mem hk
  have hc' : c ∈ l++r := by
    rcases List.mem_append.mp hc with hc | hc
    · exact List.mem_append_left r hc
    · rcases List.mem_cons.mp hc with hc | hc
      · exact absurd hc.symm hne
      · exact List.mem_append_right l hc
  have hle := value_le_sum hc'
  rw [List.map_append, List.sum_append] at hle ⊢
  rw [List.map_cons, List.sum_cons]
  omega

theorem staking_spares {tip : CBlockIndex} {m : MapWallet}
    (h : ∀ (q : StakeCall) st, chooseStake env (q.wallet V K env nMinimumInputValue W m) q.disk
        q.store tip q.nBits q.nSearchInterval q.nFees q.txNew = some st →
      ∀ c ∈ st.vwtxPrev, c.prevout ∉ V.setLockedCoins) :
    StakingSpares V K env nMinimumInputValue W m := by
  intro nTime c hc hlocked
  have hspared : kernelCoin W c = false := by
    cases hk : kernelCoin W c with
    | false => rfl
    | true =>
      obtain ⟨o,rest,horder⟩ := exists_order (List.nodup_singleton c)
        (List.cons_subset.mpr ⟨hc,List.nil_subset _⟩)
      obtain ⟨st,script,_,hst,hprevs⟩ := stake_made V K env nMinimumInputValue W tip m o c 0 nTime
        (by omega) hk rest horder
      refine absurd hlocked (h _ st hst c ?_)
      rw [hprevs]
      split
      · obtain ⟨added,hadded,_⟩ := combine_adds env _ ⟨c,0,script⟩ (timeBefore nTime 0) (c::rest) [c]
          c.nValue
        rw [hadded]
        exact List.mem_cons_self
      · exact List.mem_cons_self
  refine ⟨hspared,?_⟩
  intro k hk hkernel age hage
  cases hj : joins env W (timeBefore nTime age) k c with
  | false => rfl
  | true =>
    have hne : k ≠ c := by
      intro heq
      rw [← heq, hkernel] at hspared
      cases hspared
    have hnodup : [k,c].Nodup :=
      List.nodup_cons.mpr ⟨fun hmem => hne (List.mem_singleton.mp hmem),List.nodup_singleton c⟩
    obtain ⟨o,rest,horder⟩ := exists_order hnodup
      (List.cons_subset.mpr ⟨hk,List.cons_subset.mpr ⟨hc,List.nil_subset _⟩⟩)
    obtain ⟨st,script,hscript,hst,hprevs⟩ := stake_made V K env nMinimumInputValue W tip m o k age nTime
      hage hkernel (c::rest) horder
    refine absurd hlocked (h _ st hst c ?_)
    have hsmall : (stakeOutputs ⟨k,age,script⟩).length = 2 := by
      have hk' := (joins_small env W hj).1
      unfold stakeOutputs
      rw [if_neg (by unfold getStakeCombineThreshold at hk'; dsimp only; omega)]
      rfl
    rw [hprevs, if_pos hsmall]
    apply joined_taken env W age _ hscript rest hj
    have hsum := two_values hne hk hc
    change k.nValue+c.nValue ≤
      ((stakeCoins V K env nMinimumInputValue nTime m).map StakeCoin.nValue).sum+1-0
    omega

theorem stake_unlocked {q : StakeCall} {tip : CBlockIndex} {m : MapWallet} {st : Stake}
    (h : StakingSpares V K env nMinimumInputValue W m)
    (hst : chooseStake env (q.wallet V K env nMinimumInputValue W m) q.disk q.store tip q.nBits
      q.nSearchInterval q.nFees q.txNew = some st) :
    ∀ c ∈ st.vwtxPrev, c.prevout ∉ V.setLockedCoins := by
  intro c hc hlocked
  obtain ⟨k,hk,hkernel,age,hage,htaken⟩ := choose_stake_coins V K env nMinimumInputValue W hst
  rcases htaken c hc with rfl | ⟨hmem,hj⟩
  · have hno := (h _ c hk hlocked).1
    rw [hkernel] at hno
    cases hno
  · have hno := (h _ c hmem hlocked).2 k hk hkernel age hage
    rw [hj] at hno
    cases hno

/-- The wallet's own transactions spare its locked coins exactly where no coin that staking
enumerates is locked and can be a kernel or join one. -/
theorem locked_coins_spared (tip : CBlockIndex) (m : MapWallet) (hm : Keyed env m) :
    Spared V K env nMinimumInputValue W tip m ↔ StakingSpares V K env nMinimumInputValue W m := by
  constructor
  · exact fun h => staking_spares V K env nMinimumInputValue W h.stake
  · intro h
    have hoffered := offered_unlocked V K env hm
    constructor
    · intro B henv hV hK hmap nTurns c passes s tx nFeeRet s' hmade o ho
      subst henv hV hK hmap
      obtain ⟨x,hx,rfl⟩ := CoinOrigin.created_offered B hmade ho
      exact hoffered _ x hx
    · intro q order fOutputs vin hvin o ho
      unfold prepareDarksendDenominate at hvin
      obtain ⟨cs,hcs,hvin⟩ := Option.bind_eq_some_iff.mp hvin
      split at hvin
      · obtain rfl := Option.some.inj hvin
        obtain ⟨c,hc,rfl⟩ := List.mem_map.mp ho
        split at hcs
        · exact hoffered [] c (select_denominations_from V K env q hcs hc)
        · rw [← Option.some.inj hcs] at hc
          cases hc
      · cases hvin
    · intro fSigned vin hvin o ho
      unfold createCollateralTransaction at hvin
      split at hvin
      · cases hvin
      · rename_i c hc
        split at hvin
        · rw [← Option.some.inj hvin] at ho
          rw [List.mem_singleton.mp ho]
          exact hoffered [] c (List.mem_of_find?_eq_some hc)
        · cases hvin
    · exact fun q st hst => stake_unlocked V K env nMinimumInputValue W h hst
    · intro q P tx htx o ho
      obtain ⟨st,hst,hclose⟩ := Option.bind_eq_some_iff.mp htx
      rw [(close_stake_some env _ tip _ hclose).2] at ho
      obtain ⟨c,hc,rfl⟩ := List.mem_map.mp ho
      exact stake_unlocked V K env nMinimumInputValue W h hst c hc

end Exact

section Samples

def sampleScript : CScript := CScript.push (2::List.replicate 32 7)++[0xac]

def sampleCollateral : CWalletTx :=
  .ofTx ⟨1,1,[⟨⟨9,0⟩,[],0⟩],[⟨20000*coin,sampleScript⟩],0⟩ 5

def sampleMap : MapWallet := (∅ : MapWallet).insert 1 sampleCollateral
def sampleKeys : Keys := ⟨fun s => s == sampleScript,fun _ => false⟩

def sampleView : CoinView := ⟨200000,fun _ => true,fun _ => true,fun _ => 0,fun _ => 100,[⟨1,0⟩]⟩

def sampleWallet : StakeWallet where
  nBalance := 0
  nReserveBalance := 0
  selectCoinsForStaking _ _ := none
  checkKernel _ _ _ := false
  getKey _ := some (2::List.replicate 32 7)
  hash160 vch := vch
  signSignature _ _ _ := some [1]

def sampleTip : CBlockIndex :=
  ⟨1,none,none,0,0,1,200000,0,0,0,0,.null,0,0,0,0,1550000000,0,0⟩

theorem sample_keyed : Keyed sampleEnv sampleMap := by
  intro k tx htx _
  unfold sampleMap at htx
  rw [lookup_insert_if] at htx
  split at htx
  · rename_i hk
    rw [← Option.some.inj htx, hk]
    rfl
  · cases htx

def sampleOrder : SetOrder := ⟨id,fun cs => List.Perm.refl cs⟩

def sampleCall : StakeCall where
  order := sampleOrder
  nBalance := 30000*coin
  nReserveBalance := 0
  checkKernel _ _ _ := true
  disk := ⟨fun _ => none,fun _ _ => none,fun _ _ => none⟩
  store := Store.empty
  nBits := 0
  nSearchInterval := 1
  nFees := 0
  txNew := ⟨1,1550000000,[],[],0⟩

def redeemedScript : CScript := [0xa9]++CScript.push (List.replicate 20 9)++[0x87]

/-- The locked collateral pays to a script hash, and another coin beside it to a key. -/
def lockedTx : CWalletTx := .ofTx ⟨1,1,[⟨⟨9,0⟩,[],0⟩],[⟨20000*coin,redeemedScript⟩],0⟩ 5
def freeTx : CWalletTx := .ofTx ⟨1,2,[⟨⟨9,1⟩,[],0⟩],[⟨5*coin,sampleScript⟩],0⟩ 5

def pairMap : MapWallet := ((∅ : MapWallet).insert 2 freeTx).insert 1 lockedTx
def pairKeys : Keys := ⟨fun s => s == sampleScript || s == redeemedScript,fun _ => false⟩

theorem pair_lookup {k : Uint256} {w : CWalletTx} (h : pairMap.lookup k = some w) :
    (k = 1 ∧ w = lockedTx) ∨ (k = 2 ∧ w = freeTx) := by
  unfold pairMap at h
  rw [lookup_insert_if, lookup_insert_if] at h
  split at h
  · rename_i hk
    exact Or.inl ⟨hk,(Option.some.inj h).symm⟩
  · split at h
    · rename_i hk
      exact Or.inr ⟨hk,(Option.some.inj h).symm⟩
    · cases h

theorem pair_keyed : Keyed sampleEnv pairMap := by
  intro k tx htx _
  obtain ⟨w,hw,rfl⟩ := Option.map_eq_some_iff.mp htx
  rcases pair_lookup hw with ⟨rfl,rfl⟩ | ⟨rfl,rfl⟩
  · rfl
  · rfl

theorem pair_coins {nSpendTime : ℕ} {c : StakeCoin}
    (hc : c ∈ stakeCoins sampleView pairKeys sampleEnv 0 nSpendTime pairMap) :
    (c.hash = 1 ∧ c.scriptPubKey = redeemedScript) ∨ (c.hash = 2 ∧ c.scriptPubKey = sampleScript) := by
  obtain ⟨x,hx,hcoin⟩ := List.mem_filterMap.mp hc
  obtain ⟨y,hy,hx⟩ := List.mem_flatMap.mp hx
  have hlook := (mem_in_order _ pairMap y.1 y.2).mp (List.mem_filter.mp hy).1
  obtain ⟨z,_,rfl⟩ := List.mem_map.mp hx
  obtain ⟨out,hout,hcoin⟩ := Option.bind_eq_some_iff.mp hcoin
  split at hcoin
  · cases hcoin
    dsimp only at hout ⊢
    have hmem := List.mem_of_getElem? hout
    rcases pair_lookup hlook with ⟨_,hw⟩ | ⟨_,hw⟩
    · rw [hw] at hmem ⊢
      rw [List.mem_singleton.mp hmem]
      exact Or.inl ⟨rfl,rfl⟩
    · rw [hw] at hmem ⊢
      rw [List.mem_singleton.mp hmem]
      exact Or.inr ⟨rfl,rfl⟩
  · cases hcoin

/-- The locked coin is enumerated and is no kernel, the coin beside it is staked. -/
theorem locked_collateral_spared :
    Spared sampleView pairKeys sampleEnv 0 sampleWallet sampleTip pairMap ∧
    (stakeCoins sampleView pairKeys sampleEnv 0 1550000000 pairMap).map StakeCoin.prevout =
      [⟨1,0⟩,⟨2,0⟩] ∧
    ((chooseStake sampleEnv (sampleCall.wallet sampleView pairKeys sampleEnv 0 sampleWallet pairMap)
      sampleCall.disk sampleCall.store sampleTip sampleCall.nBits sampleCall.nSearchInterval
      sampleCall.nFees sampleCall.txNew).map fun st => st.vwtxPrev.map StakeCoin.prevout) =
        some [⟨2,0⟩] := by
  refine ⟨?_,by decide +kernel,by decide +kernel⟩
  apply (locked_coins_spared sampleView pairKeys sampleEnv 0 sampleWallet sampleTip pairMap
    pair_keyed).mpr
  have hnone : scriptPubKeyOut sampleWallet redeemedScript = none := by decide +kernel
  have hsome : scriptPubKeyOut sampleWallet sampleScript = some sampleScript := by decide +kernel
  intro nSpendTime c hc hlocked
  have hhash : c.hash = 1 := congrArg COutPoint.hash (List.mem_singleton.mp hlocked)
  have hscript : c.scriptPubKey = redeemedScript := by
    rcases pair_coins hc with ⟨_,hscript⟩ | ⟨htwo,_⟩
    · exact hscript
    · rw [hhash] at htwo
      exact absurd htwo (by decide)
  constructor
  · unfold kernelCoin
    rw [hscript, hnone]
    exact Bool.and_false _
  · intro k hk hkernel age _
    have hkscript : k.scriptPubKey = sampleScript := by
      rcases pair_coins hk with ⟨_,hkscript⟩ | ⟨_,hkscript⟩
      · unfold kernelCoin at hkernel
        rw [hkscript, hnone] at hkernel
        exact absurd hkernel (by rw [Option.isSome_none, Bool.and_false]; decide)
      · exact hkscript
    have hne : (redeemedScript == sampleScript) = false := by decide
    unfold joins
    rw [hkscript, hsome, Option.any_some]
    unfold sameKey
    dsimp only
    rw [hscript, hkscript, hne]
    rfl

/-- The locked collateral of a wallet is staked. -/
theorem collateral_staked : ¬ ∀ (V : CoinView) (K : Keys) (env : Env) (nMinimumInputValue : ℤ)
    (W : StakeWallet) (tip : CBlockIndex) (m : MapWallet), Keyed env m →
    Spared V K env nMinimumInputValue W tip m := by
  intro h
  have hspared := (h sampleView sampleKeys sampleEnv 0 sampleWallet sampleTip sampleMap sample_keyed).stake
    sampleCall
  have hstaked : ((chooseStake sampleEnv
      (sampleCall.wallet sampleView sampleKeys sampleEnv 0 sampleWallet sampleMap) sampleCall.disk
      sampleCall.store sampleTip sampleCall.nBits sampleCall.nSearchInterval sampleCall.nFees
      sampleCall.txNew).map fun st => st.vwtxPrev.map StakeCoin.prevout) = some [⟨1,0⟩] := by
    decide +kernel
  obtain ⟨st,hst,hprevs⟩ := Option.map_eq_some_iff.mp hstaked
  have hmem : (⟨1,0⟩ : COutPoint) ∈ st.vwtxPrev.map StakeCoin.prevout := by
    rw [hprevs]
    exact List.mem_singleton.mpr rfl
  obtain ⟨c,hc,hout⟩ := List.mem_map.mp hmem
  refine hspared st hst c hc ?_
  rw [hout]
  exact List.mem_singleton.mpr rfl

end Samples

end SwippCore.LockedCoins
