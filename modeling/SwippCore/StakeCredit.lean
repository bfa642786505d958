import SwippCore.LockedCoins

/-!
# What a coin stake pays

A coin stake pays back its inputs and the reward, whether it is split and whether it pays a
masternode. The call of the reward function passes the coin age where the fees are taken.
-/

set_option autoImplicit false

namespace SwippCore.StakeCredit
open FinMap AvailableCoins CoinSelection CoinStake LockedCoins OwnBlock WalletMarks

structure Staker where
  env : Env
  V : CoinView
  K : Keys
  nMinimumInputValue : ℤ
  W : StakeWallet
  mapWallet : MapWallet
  keyed : Keyed env mapWallet

section Statement
variable (S : Staker) (q : StakeCall) (P : PaymentView) (tip : CBlockIndex)

/-- The wallet at a call, where `nBalance` is what `GetBalance` says. -/
def Staker.wallet : StakeWallet := q.wallet S.V S.K S.env S.nMinimumInputValue S.W S.mapWallet

def Staker.createCoinStake : Option CTransaction :=
  SwippCore.createCoinStake S.env (S.wallet q) q.disk q.store tip P q.nBits q.nSearchInterval q.nFees q.txNew

def Staker.spentOutput (o : COutPoint) : Option CTxOut :=
  (S.mapWallet.lookup o.hash).bind fun w => w.tx.vout[o.n]?

def Staker.inputValue (o : COutPoint) : ℤ := ((S.spentOutput o).map CTxOut.nValue).getD 0

structure Pays (reward : ℤ → ℤ) (tx : CTransaction) : Prop where
  distinct : tx.prevouts.Nodup
  known : ∀ o ∈ tx.prevouts, (S.spentOutput o).isSome = true
  total : ∃ nCoinAge : BitVec 64, getCoinAge S.env q.disk q.store tx = some nCoinAge ∧
    (tx.vout.map CTxOut.nValue).sum = (tx.prevouts.map S.inputValue).sum+reward nCoinAge.toInt
  nonneg : ∀ out ∈ tx.vout, 0 ≤ out.nValue
  reserve : q.nReserveBalance ≤ q.nBalance-(tx.prevouts.map S.inputValue).sum

def AgeIsFees : Prop :=
  ∀ k coins nCredit, chooseCoins S.env (S.wallet q) q.nBits q.nSearchInterval q.txNew = some (k,coins,nCredit) →
    ∀ nCoinAge, getCoinAge S.env q.disk q.store (unsignedStake q.txNew k coins) = some nCoinAge →
      nCoinAge.toInt = q.nFees

end Statement

section Coins
variable (S : Staker)

theorem mem_for_staking {nSpendTime : ℕ} {c : COutput}
    (hc : c ∈ availableCoinsForStaking S.V S.K S.env S.nMinimumInputValue nSpendTime S.mapWallet) :
    ∃ out, S.mapWallet.lookup (S.env.hashTx c.tx.tx) = some c.tx ∧ c.tx.tx.vout[c.i]? = some out := by
  obtain ⟨x,hx,hc⟩ := List.mem_flatMap.mp hc
  obtain ⟨hx,_⟩ := List.mem_filter.mp hx
  obtain ⟨y,hy,rfl⟩ := List.mem_map.mp hc
  obtain ⟨hy,_⟩ := List.mem_filter.mp hy
  have hlook := (mem_in_order _ S.mapWallet x.1 x.2).mp hx
  have hout : x.2.tx.vout[y.2]? = some y.1 := List.mem_zipIdx_iff_getElem?.mp hy
  refine ⟨y.1,?_,hout⟩
  rw [S.keyed x.1 x.2.tx (by rw [hlook]; rfl) (by intro hnil; rw [hnil] at hout; cases hout)]
  exact hlook

theorem for_staking_distinct (nSpendTime : ℕ) :
    ((availableCoinsForStaking S.V S.K S.env S.nMinimumInputValue nSpendTime S.mapWallet).map
      (prevout S.env)).Nodup := by
  unfold availableCoinsForStaking
  rw [List.map_flatMap, List.nodup_flatMap]
  constructor
  · intro x _
    rw [List.map_map]
    have hidx : (x.2.tx.vout.zipIdx.map fun y => (⟨S.env.hashTx x.2.tx,y.2⟩ : COutPoint)).Nodup := by
      have hmap : (x.2.tx.vout.zipIdx.map fun y => (⟨S.env.hashTx x.2.tx,y.2⟩ : COutPoint)) =
          (x.2.tx.vout.zipIdx.map Prod.snd).map fun i => ⟨S.env.hashTx x.2.tx,i⟩ := by
        rw [List.map_map]
        rfl
      rw [hmap, List.zipIdx_map_snd]
      apply List.Nodup.map
      · intro i j h
        exact (COutPoint.mk.inj h).2
      · exact List.nodup_range'
    exact hidx.sublist (List.filter_sublist.map _)
  · have hkeys : ((inOrder (fun a b => a ≤ b) S.mapWallet).map Sigma.fst).Nodup :=
      ((in_order_perm _ S.mapWallet).map Sigma.fst).nodup_iff.mpr S.mapWallet.nodupKeys
    have hhash : ∀ x ∈ inOrder (fun a b => a ≤ b) S.mapWallet, x.2.tx.vout ≠ [] → S.env.hashTx x.2.tx = x.1 := by
      intro x hx hne
      exact S.keyed x.1 x.2.tx (by rw [(mem_in_order _ S.mapWallet x.1 x.2).mp hx]; rfl) hne
    apply ((List.pairwise_map.mp hkeys).filter _).imp_of_mem
    intro x y hx hy hne o hox hoy
    have hfrom : ∀ z ∈ inOrder (fun a b => a ≤ b) S.mapWallet, ∀ (p : CTxOut × ℕ → Bool) (nDepth : ℤ),
        o ∈ ((z.2.tx.vout.zipIdx.filter p).map fun y => (⟨z.2,y.2,nDepth,true⟩ : COutput)).map (prevout S.env) →
          o.hash = z.1 := by
      intro z hz p nDepth ho
      obtain ⟨c,hc,rfl⟩ := List.mem_map.mp ho
      obtain ⟨u,hu,rfl⟩ := List.mem_map.mp hc
      have hout := List.mem_zipIdx_iff_getElem?.mp (List.mem_filter.mp hu).1
      apply hhash z hz
      intro hnil
      rw [hnil] at hout
      cases hout
    exact hne ((hfrom x (List.mem_filter.mp hx).1 _ _ hox).symm.trans (hfrom y (List.mem_filter.mp hy).1 _ _ hoy))

theorem stake_coin_some {c : COutput} {x : StakeCoin} (h : stakeCoin S.env c = some x) :
    x.prevout = prevout S.env c ∧ ∃ out, c.tx.tx.vout[c.i]? = some out ∧ out.nValue = x.nValue := by
  unfold stakeCoin at h
  obtain ⟨out,hout,h⟩ := Option.bind_eq_some_iff.mp h
  split at h
  · cases h
    exact ⟨rfl,out,hout,rfl⟩
  · cases h

theorem stake_coins_distinct (nSpendTime : ℕ) :
    ((stakeCoins S.V S.K S.env S.nMinimumInputValue nSpendTime S.mapWallet).map StakeCoin.prevout).Nodup := by
  have hpairs := List.pairwise_map.mp (for_staking_distinct S nSpendTime)
  unfold stakeCoins List.Nodup
  rw [List.pairwise_map, List.pairwise_filterMap]
  apply hpairs.imp
  intro c d hne x hx y hy
  rw [(stake_coin_some S hx).1, (stake_coin_some S hy).1]
  exact hne

theorem stake_coin_output {nSpendTime : ℕ} {x : StakeCoin}
    (hx : x ∈ stakeCoins S.V S.K S.env S.nMinimumInputValue nSpendTime S.mapWallet) :
    (S.spentOutput x.prevout).isSome = true ∧ S.inputValue x.prevout = x.nValue := by
  obtain ⟨c,hc,hx⟩ := List.mem_filterMap.mp hx
  obtain ⟨out,hlook,hout⟩ := mem_for_staking S hc
  obtain ⟨hprev,out',hout',hvalue⟩ := stake_coin_some S hx
  rw [hout] at hout'
  cases hout'
  have hspent : S.spentOutput x.prevout = some out := by
    rw [hprev]
    unfold Staker.spentOutput prevout
    dsimp only
    rw [hlook, Option.bind_some, hout]
  unfold Staker.inputValue
  rw [hspent]
  exact ⟨rfl,hvalue⟩

end Coins

section Choice
variable (S : Staker) (q : StakeCall)

theorem take_for_staking_sublist (nTargetValue : ℤ) (cs : List StakeCoin) (nValueRet : ℤ) :
    (takeForStaking nTargetValue cs nValueRet).Sublist cs := by
  induction cs generalizing nValueRet with
  | nil => exact List.Sublist.refl []
  | cons c cs ih =>
    unfold takeForStaking
    split
    · exact List.nil_sublist _
    · split
      · exact (List.nil_sublist cs).cons_cons c
      · split
        · exact (ih _).cons_cons c
        · exact (ih _).cons c

/-- What the loop may add: other coins of the set, from other transactions than the kernel, and
never more than a limit. -/
def Adds (k : Kernel) (nLimit : ℤ) (prevs cs : List StakeCoin) (r : List StakeCoin × ℤ) : Prop :=
  (∃ added, r.1 = prevs++added ∧ added.Sublist cs ∧ ∀ c ∈ added, c.hash ≠ k.coin.hash) ∧ r.2 ≤ nLimit

variable {nCredit : ℤ}

theorem adds_nothing (k : Kernel) {nLimit : ℤ} (prevs cs : List StakeCoin) (h : nCredit ≤ nLimit) :
    Adds k nLimit prevs cs (prevs,nCredit) :=
  ⟨⟨[],(List.append_nil prevs).symm,List.nil_sublist cs,fun c hc => (by cases hc)⟩,h⟩

theorem combine_adds_within (env : Env) {W : StakeWallet} (k : Kernel) (nTime : ℕ)
    (cs prevs : List StakeCoin) (nCredit : ℤ) (hcredit : nCredit ≤ W.nBalance-W.nReserveBalance) :
    Adds k (W.nBalance-W.nReserveBalance) prevs cs (combine env W k nTime cs prevs nCredit) := by
  induction cs generalizing prevs nCredit with
  | nil => exact adds_nothing k prevs [] hcredit
  | cons c cs ih =>
    have hstop := adds_nothing k prevs (c::cs) hcredit
    have hskip : Adds k (W.nBalance-W.nReserveBalance) prevs (c::cs)
        (combine env W k nTime cs prevs nCredit) := by
      obtain ⟨⟨added,hprevs,hsub,hhash⟩,hle⟩ := ih prevs nCredit hcredit
      exact ⟨⟨added,hprevs,hsub.cons c,hhash⟩,hle⟩
    unfold combine
    split
    · rename_i hsame
      split
      · exact hstop
      · split
        · exact hstop
        · split
          · exact hstop
          · rename_i hfits
            split
            · exact hskip
            · obtain ⟨⟨added,hprevs,hsub,hhash⟩,hle⟩ := ih (prevs++[c]) (nCredit+c.nValue) (not_lt.mp hfits)
              refine ⟨⟨c::added,?_,hsub.cons_cons c,?_⟩,hle⟩
              · rw [hprevs, List.append_assoc]
                rfl
              · intro x hx
                rcases List.mem_cons.mp hx with rfl | hx
                · unfold sameKey at hsame
                  rw [Bool.and_eq_true, bne_iff_ne] at hsame
                  exact hsame.2
                · exact hhash x hx
    · exact hskip

structure Staked (coins : List StakeCoin) (nCredit : ℤ) : Prop where
  distinct : (coins.map StakeCoin.prevout).Nodup
  among : ∀ c ∈ coins, c ∈ stakeCoins S.V S.K S.env S.nMinimumInputValue q.txNew.nTime S.mapWallet
  sum : nCredit = (coins.map StakeCoin.nValue).sum
  reserve : nCredit ≤ q.nBalance-q.nReserveBalance

theorem choose_coins_staked {k : Kernel} {coins : List StakeCoin}
    (h : chooseCoins S.env (S.wallet q) q.nBits q.nSearchInterval q.txNew = some (k,coins,nCredit)) :
    Staked S q coins nCredit := by
  obtain ⟨_,_,hsum⟩ := choose_coins_some S.env (S.wallet q) q.nBits q.txNew h
  unfold chooseCoins at h
  split at h
  · cases h
  · simp only [Option.bind_eq_bind, Option.bind_eq_some_iff] at h
    obtain ⟨setCoins,hset,k',hk,h⟩ := h
    split at h
    · cases h
    · rename_i hfits
      rw [not_or, not_lt] at hfits
      obtain ⟨rfl,hchosen⟩ := Prod.mk.inj (Option.some_inj.mp h)
      have hset' := Option.some.inj hset
      have hperm : setCoins.Perm (takeForStaking ((S.wallet q).nBalance-(S.wallet q).nReserveBalance)
          (stakeCoins S.V S.K S.env S.nMinimumInputValue q.txNew.nTime S.mapWallet) 0) := by
        rw [← hset']
        exact q.order.perm _
      have hmem : ∀ c ∈ setCoins, c ∈ stakeCoins S.V S.K S.env S.nMinimumInputValue q.txNew.nTime S.mapWallet :=
        fun c hc => (take_for_staking_sublist _ _ _).subset (hperm.subset hc)
      have hnodup : (setCoins.map StakeCoin.prevout).Nodup := by
        rw [(hperm.map StakeCoin.prevout).nodup_iff]
        exact (stake_coins_distinct S q.txNew.nTime).sublist ((take_for_staking_sublist _ _ _).map _)
      have hkernel := (find_kernel_some _ hk).1
      split at hchosen
      · obtain ⟨⟨added,hprevs,hsub,hhash⟩,hle⟩ := combine_adds_within S.env k'
          (timeBefore q.txNew.nTime k'.age) setCoins [k'.coin] k'.coin.nValue hfits.2
        rw [hchosen] at hprevs hle
        change coins = _ at hprevs
        subst hprevs
        refine ⟨?_,?_,hsum,hle⟩
        · rw [List.singleton_append, List.map_cons, List.nodup_cons]
          refine ⟨?_,hnodup.sublist (hsub.map _)⟩
          intro hbad
          obtain ⟨c,hc,heq⟩ := List.mem_map.mp hbad
          exact hhash c hc (congrArg COutPoint.hash heq)
        · intro c hc
          rcases List.mem_append.mp hc with hc | hc
          · rw [List.mem_singleton.mp hc]
            exact hmem _ hkernel
          · exact hmem c (hsub.subset hc)
      · obtain ⟨rfl,rfl⟩ := Prod.mk.inj hchosen
        refine ⟨?_,?_,hsum,hfits.2⟩
        · exact List.nodup_singleton _
        · intro c hc
          rw [List.mem_singleton.mp hc]
          exact hmem _ hkernel

theorem staked_value {coins : List StakeCoin} (h : Staked S q coins nCredit) :
    ((coins.map StakeCoin.prevout).map S.inputValue).sum = nCredit := by
  rw [h.sum, List.map_map]
  congr 1
  apply List.map_congr_left
  intro c hc
  exact (stake_coin_output S (h.among c hc)).2

end Choice

section Age
variable (env : Env) (disk : Disk) (s : Store)

theorem coin_age_from_congr {tx tx' : CTransaction} (htime : tx.nTime = tx'.nTime)
    (os : List COutPoint) (bnCentSecond : ℤ) :
    coinAgeFrom env disk s tx bnCentSecond os = coinAgeFrom env disk s tx' bnCentSecond os := by
  induction os generalizing bnCentSecond with
  | nil => rfl
  | cons o os ih =>
    unfold coinAgeFrom
    rw [htime]
    simp only [ih]

theorem coin_age_congr {tx tx' : CTransaction} (htime : tx.nTime = tx'.nTime)
    (hprev : tx.prevouts = tx'.prevouts) (hbase : tx.isCoinBase = tx'.isCoinBase) :
    getCoinAge env disk s tx = getCoinAge env disk s tx' := by
  unfold getCoinAge
  rw [hbase, hprev, coin_age_from_congr env disk s htime]

theorem kernel_not_base {tx : CTransaction} {c : StakeCoin} {os : List COutPoint}
    (hprev : tx.prevouts = c.prevout::os) : tx.isCoinBase = false := by
  have hindex := c.indexed
  obtain ⟨i,is,hvin,hi,_⟩ := List.map_eq_cons_iff.mp hprev
  have hnull : i.prevout.isNull = false := by
    rw [hi, StakeCoin.prevout, COutPoint.isNull, Bool.and_eq_false_iff]
    exact .inr (beq_eq_false_iff_ne.mpr (by dsimp only; omega))
  unfold CTransaction.isCoinBase
  rw [hvin]
  cases is with
  | nil =>
    dsimp only
    rw [hnull]
    rfl
  | cons j js => rfl

end Age

section Claims
variable (S : Staker) (q : StakeCall) (P : PaymentView) (tip : CBlockIndex)

theorem coin_stake_made {tx : CTransaction} (h : S.createCoinStake q P tip = some tx) :
    ∃ k coins nCredit nCoinAge,
      chooseCoins S.env (S.wallet q) q.nBits q.nSearchInterval q.txNew = some (k,coins,nCredit) ∧
      getCoinAge S.env q.disk q.store (unsignedStake q.txNew k coins) = some nCoinAge ∧
      getCoinAge S.env q.disk q.store tx = some nCoinAge ∧
      tx.prevouts = coins.map StakeCoin.prevout ∧
      (∀ out ∈ tx.vout, 0 ≤ out.nValue) ∧
      (tx.vout.map CTxOut.nValue).sum =
        nCredit+getProofOfStakeReward tip (tip.nHeight+1) nCoinAge.toInt q.nFees := by
  obtain ⟨st,hst,hclose⟩ := Option.bind_eq_some_iff.mp h
  have hchosen := hst
  unfold chooseStake at hchosen
  simp only [Option.bind_eq_bind, Option.bind_eq_some_iff] at hchosen
  obtain ⟨⟨k,coins,nCredit⟩,hcoins,nCoinAge,hage,hchosen⟩ := hchosen
  obtain ⟨⟨added,hadded⟩,hreward,hcredit⟩ := choose_stake_some _ _ _ _ _ _ _ _ hst
  obtain ⟨hout,hprev⟩ := close_stake_some _ _ _ _ hclose
  have htime : tx.nTime = (unsignedStake q.txNew k coins).nTime := by
    unfold closeStake at hclose
    simp only [Option.bind_eq_bind, Option.bind_eq_some_iff] at hclose
    obtain ⟨signed,hsigned,hclose⟩ := hclose
    split at hclose
    · cases hclose
    · cases hclose
      rw [(sign_inputs_keep _ _ _ hsigned).2.1]
      split at hchosen
      · cases hchosen
      · cases hchosen
        rfl
  split at hchosen
  · cases hchosen
  · cases hchosen
    dsimp only at *
    have hnonneg := coins_nonneg coins
    have hle : getProofOfStakeReward tip (tip.nHeight+1) nCoinAge.toInt q.nFees ≤
        nCredit+getProofOfStakeReward tip (tip.nHeight+1) nCoinAge.toInt q.nFees := by
      rw [hcredit]
      exact le_add_of_nonneg_left hnonneg
    obtain ⟨hpos,htotal⟩ := stake_outputs_total ⟨k,coins,nCredit+_,_⟩ (P.masternodePayee (tip.nHeight+1))
      (le_of_lt hreward) hle
    refine ⟨k,coins,nCredit,nCoinAge,hcoins,hage,?_,hprev,?_,?_⟩
    · rw [← hage]
      have hprev' : tx.prevouts = (unsignedStake q.txNew k coins).prevouts := by
        rw [hprev]
        unfold unsignedStake CTransaction.prevouts
        rw [List.map_map]
        rfl
      apply coin_age_congr _ _ _ htime hprev'
      rw [hadded, List.map_cons] at hprev
      rw [kernel_not_base hprev, kernel_not_base (hprev'.symm.trans hprev)]
    · rw [hout]
      exact hpos
    · rw [hout]
      exact htotal

/-- All holds with the arguments of the reward as they are passed. With the coin age and the fees
in their places it holds when they are the same. -/
theorem coin_stake_pays_iff (tx : CTransaction) (h : S.createCoinStake q P tip = some tx) :
    Pays S q (fun nCoinAge => getProofOfStakeReward tip (tip.nHeight+1) nCoinAge q.nFees) tx ∧
    (Pays S q (fun nCoinAge => getProofOfStakeReward tip nCoinAge q.nFees (tip.nHeight+1)) tx ↔
      AgeIsFees S q) := by
  obtain ⟨k,coins,nCredit,nCoinAge,hcoins,hage,hage',hprev,hnonneg,htotal⟩ := coin_stake_made S q P tip h
  have hstaked := choose_coins_staked S q hcoins
  have hvalue := staked_value S q hstaked
  have hpassed : Pays S q (fun nCoinAge => getProofOfStakeReward tip (tip.nHeight+1) nCoinAge q.nFees) tx := by
    refine ⟨?_,?_,⟨nCoinAge,hage',?_⟩,hnonneg,?_⟩
    · rw [hprev]
      exact hstaked.distinct
    · intro o ho
      rw [hprev] at ho
      obtain ⟨c,hc,rfl⟩ := List.mem_map.mp ho
      exact (stake_coin_output S (hstaked.among c hc)).1
    · rw [hprev, hvalue]
      exact htotal
    · rw [hprev, hvalue]
      have hle := hstaked.reserve
      omega
  refine ⟨hpassed,?_⟩
  have hsame : ∀ a : BitVec 64, a.toInt = q.nFees ↔
      getProofOfStakeReward tip (tip.nHeight+1) a.toInt q.nFees =
        getProofOfStakeReward tip a.toInt q.nFees (tip.nHeight+1) := by
    intro a
    unfold getProofOfStakeReward
    omega
  constructor
  · rintro ⟨_,_,⟨a,ha,hpaid⟩,_,_⟩ k' coins' nCredit' hcoins' a' ha'
    rw [hcoins] at hcoins'
    cases hcoins'
    rw [hage] at ha'
    cases ha'
    rw [hage'] at ha
    cases ha
    apply (hsame nCoinAge).mpr
    rw [hprev, hvalue, htotal] at hpaid
    exact add_left_cancel hpaid
  · intro hfees
    refine ⟨hpassed.distinct,hpassed.known,⟨nCoinAge,hage',?_⟩,hpassed.nonneg,hpassed.reserve⟩
    rw [hprev, hvalue, htotal, (hsame nCoinAge).mp (hfees k coins nCredit hcoins nCoinAge hage)]

def sampleTx : CWalletTx :=
  .ofTx ⟨1,1500000000,[⟨⟨9,0⟩,[],0⟩],[⟨50*coin,sampleScript⟩],0⟩ 5

theorem sample_map_keyed : Keyed sampleEnv ((∅ : MapWallet).insert 1500000000 sampleTx) := by
  intro k tx htx _
  rw [lookup_insert_if] at htx
  split at htx
  · rename_i hk
    rw [← Option.some.inj htx, hk]
    rfl
  · cases htx

def sampleStaker : Staker where
  env := sampleEnv
  V := ⟨200000,fun _ => true,fun _ => true,fun _ => 0,fun _ => 100,[]⟩
  K := sampleKeys
  nMinimumInputValue := 0
  W := LockedCoins.sampleWallet
  mapWallet := (∅ : MapWallet).insert 1500000000 sampleTx
  keyed := sample_map_keyed

def stakeFor (nFees : ℤ) : StakeCall where
  order := sampleOrder
  nBalance := 100*coin
  nReserveBalance := 20*coin
  checkKernel _ _ _ := true
  disk := ⟨fun _ => some sampleTx.tx,fun _ _ => none,fun _ _ => some 1500000000⟩
  store := { Store.empty with tx := fun _ => some ⟨.onDisk 1 1 1,[.null]⟩ }
  nBits := 0
  nSearchInterval := 1
  nFees := nFees
  txNew := ⟨1,1500864000,[],[],0⟩

/-- With the coin age as fees all is well. -/
theorem same_fees_paid : ∃ tx, sampleStaker.createCoinStake (stakeFor 500) OwnBlock.sampleView
      LockedCoins.sampleTip = some tx ∧
    Pays sampleStaker (stakeFor 500) (fun nCoinAge =>
      getProofOfStakeReward LockedCoins.sampleTip nCoinAge 500 (LockedCoins.sampleTip.nHeight+1)) tx := by
  have hmade : (sampleStaker.createCoinStake (stakeFor 500) OwnBlock.sampleView LockedCoins.sampleTip).isSome =
      true := by
    decide +kernel
  obtain ⟨tx,htx⟩ := Option.isSome_iff_exists.mp hmade
  refine ⟨tx,htx,(coin_stake_pays_iff sampleStaker (stakeFor 500) OwnBlock.sampleView
    LockedCoins.sampleTip tx htx).2.mpr ?_⟩
  have hage : ((chooseCoins sampleEnv (sampleStaker.wallet (stakeFor 500)) 0 1 (stakeFor 500).txNew).bind fun x =>
      (getCoinAge sampleEnv (stakeFor 500).disk (stakeFor 500).store
        (unsignedStake (stakeFor 500).txNew x.1 x.2.1)).map BitVec.toInt) = some 500 := by
    decide +kernel
  intro k coins nCredit hcoins nCoinAge hnCoinAge
  have hcoins' : chooseCoins sampleEnv (sampleStaker.wallet (stakeFor 500)) 0 1 (stakeFor 500).txNew =
      some (k,coins,nCredit) := hcoins
  have hnCoinAge' : getCoinAge sampleEnv (stakeFor 500).disk (stakeFor 500).store
      (unsignedStake (stakeFor 500).txNew k coins) = some nCoinAge := hnCoinAge
  rw [hcoins', Option.bind_some] at hage
  dsimp only at hage
  rw [hnCoinAge'] at hage
  exact Option.some.inj hage

/-- The fees are not paid out, but the coin age. -/
theorem fees_unpaid : ∃ tx, sampleStaker.createCoinStake (stakeFor 10000) OwnBlock.sampleView
      LockedCoins.sampleTip = some tx ∧
    ¬ Pays sampleStaker (stakeFor 10000) (fun nCoinAge =>
      getProofOfStakeReward LockedCoins.sampleTip nCoinAge 10000 (LockedCoins.sampleTip.nHeight+1)) tx := by
  have hmade : (sampleStaker.createCoinStake (stakeFor 10000) OwnBlock.sampleView LockedCoins.sampleTip).map
      (fun tx => ((tx.vout.map CTxOut.nValue).sum,(tx.prevouts.map sampleStaker.inputValue).sum)) =
      some (52*coin+500,50*coin) := by
    decide +kernel
  obtain ⟨tx,htx,hvalues⟩ := Option.map_eq_some_iff.mp hmade
  obtain ⟨hout,hin⟩ := Prod.mk.inj hvalues
  refine ⟨tx,htx,?_⟩
  rintro ⟨_,_,⟨nCoinAge,_,htotal⟩,_,_⟩
  unfold getProofOfStakeReward at htotal
  rw [hout, hin] at htotal
  exact absurd htotal (by decide)

end Claims

end SwippCore.StakeCredit
