import SwippCore.MasternodePayments
import SwippCore.Standard
import SwippCore.BlockValues

/-!
# Staking

The wallet looks for a kernel among its coins, adds small coins of the same key,
sets the amounts of the outputs and signs. The search of the kernel, the
selection of the coins and the keys are taken from the rest of the node.
-/

set_option autoImplicit false

namespace SwippCore
open Checks Masternode MasternodeScores BlockHashCache

/-- An output of a wallet transaction. The amounts of checked transactions are not negative,
and an index is below the size of a vector. -/
structure StakeCoin where
  hash : Uint256
  n : ℕ
  nTime : ℕ
  nValue : ℤ
  scriptPubKey : CScript
  nonneg : 0 ≤ nValue
  indexed : n < uintMax

def StakeCoin.prevout (coin : StakeCoin) : COutPoint := ⟨coin.hash,coin.n⟩

def StakeCoin.input (coin : StakeCoin) : CTxIn := ⟨coin.prevout,[],uintMax⟩

/-- What `CreateCoinStake` reads from the wallet. -/
structure StakeWallet where
  nBalance : ℤ
  nReserveBalance : ℤ
  selectCoinsForStaking : ℤ → ℕ → Option (List StakeCoin)
  checkKernel : ℕ → ℕ → COutPoint → Bool
  /-- the public key of the key with an id -/
  getKey : Valtype → Option Valtype
  hash160 : Valtype → Valtype
  /-- the signature script that `SignSignature` writes for an input -/
  signSignature : StakeCoin → CTransaction → ℕ → Option CScript

structure PaymentView where
  /-- `masternodePayments.GetBlockPayee` -/
  blockPayee : ℤ → Option CScript
  scoring : Scoring
  chain : ChainState
  vecMasternodes : List CMasterNode
  mapCacheBlockHashes : Cache
  keyId : List UInt8 → Uint160

def PaymentView.masternodePayee (P : PaymentView) (nHeight : ℤ) : Option CScript :=
  match P.blockPayee nHeight with
  | some payee => some payee
  | none =>
    let winningNode :=
      getCurrentMasterNode P.scoring P.chain P.vecMasternodes nHeight P.mapCacheBlockHashes
    if 0 ≤ winningNode then
      (P.vecMasternodes[winningNode.toNat]?).map fun mn => scriptForKey (P.keyId mn.pubkey)
    else none

def getStakeCombineThreshold : ℤ := 100*coin

variable (env : Env)

def getWeight (nIntervalBeginning nIntervalEnd : ℤ) : ℤ :=
  nIntervalEnd-nIntervalBeginning-env.nStakeMinAge

namespace CoinStake
variable (W : StakeWallet)

/-- `txNew.nTime - n`, an unsigned subtraction. -/
def timeBefore (nTime n : ℕ) : ℕ := (nTime+2^32-n)%2^32

def kernelAge (nBits nTime : ℕ) (nSearchInterval : ℤ) (coin : StakeCoin) : Option ℕ :=
  (List.range (min nSearchInterval 60).toNat).find? fun n =>
    W.checkKernel nBits (timeBefore nTime n) coin.prevout

def scriptPubKeyOut (scriptPubKeyKernel : CScript) : Option CScript :=
  match Standard.solver scriptPubKeyKernel with
  | some (.pubKeyHash,id::_) =>
    (W.getKey id).map fun pubKey => CScript.push pubKey++CScript.ofOps [.opCheckSig]
  | some (.pubKey,vchPubKey::_) =>
    (W.getKey (W.hash160 vchPubKey)).bind fun pubKey =>
      if pubKey ≠ vchPubKey then none else some scriptPubKeyKernel
  | _ => none

structure Kernel where
  coin : StakeCoin
  age : ℕ
  scriptOut : CScript

def findKernel (nBits nTime : ℕ) (nSearchInterval : ℤ) : List StakeCoin → Option Kernel
  | [] => none
  | coin::setCoins =>
    match kernelAge W nBits nTime nSearchInterval coin with
    | none => findKernel nBits nTime nSearchInterval setCoins
    | some n =>
      match scriptPubKeyOut W coin.scriptPubKey with
      | none => findKernel nBits nTime nSearchInterval setCoins
      | some script => some ⟨coin,n,script⟩

def sameKey (k : Kernel) (coin : StakeCoin) : Bool :=
  (coin.scriptPubKey == k.coin.scriptPubKey || coin.scriptPubKey == k.scriptOut) &&
    coin.hash != k.coin.hash

/-- The loop that adds more inputs. The coins that are taken are `vwtxPrev`, and `nCredit`
is what they are worth. -/
def combine (k : Kernel) (nTime : ℕ) : List StakeCoin → List StakeCoin → ℤ → List StakeCoin × ℤ
  | [], vwtxPrev, nCredit => (vwtxPrev,nCredit)
  | coin::setCoins, vwtxPrev, nCredit =>
    if sameKey k coin then
      if 100 ≤ vwtxPrev.length then (vwtxPrev,nCredit)
      else if getStakeCombineThreshold ≤ nCredit then (vwtxPrev,nCredit)
      else if W.nBalance-W.nReserveBalance < nCredit+coin.nValue then (vwtxPrev,nCredit)
      else if getStakeCombineThreshold ≤ coin.nValue ∨
          getWeight env coin.nTime nTime < env.nStakeMinAge then
        combine k nTime setCoins vwtxPrev nCredit
      else combine k nTime setCoins (vwtxPrev++[coin]) (nCredit+coin.nValue)
    else combine k nTime setCoins vwtxPrev nCredit

def firstHalf (blockValue : ℤ) : ℤ := (blockValue.tdiv 2).tdiv cent*cent

def setAmounts (vout : List CTxOut) (payee : Option CScript) (nCredit nReward : ℤ) : List CTxOut :=
  let masternodePayment := getMasternodePayment nReward
  match payee, vout with
  | none, [mark,o1,o2] =>
    [mark,{ o1 with nValue := firstHalf nCredit },{ o2 with nValue := nCredit-firstHalf nCredit }]
  | some payee, [mark,o1,o2] =>
    let blockValue := nCredit-masternodePayment
    [mark,{ o1 with nValue := firstHalf blockValue },
      { o2 with nValue := blockValue-firstHalf blockValue },⟨masternodePayment,payee⟩]
  | none, [mark,o1] => [mark,{ o1 with nValue := nCredit }]
  | some payee, [mark,o1] =>
    [mark,{ o1 with nValue := nCredit-masternodePayment },⟨masternodePayment,payee⟩]
  | none, vout => vout
  | some payee, vout => vout++[⟨0,payee⟩]

def signInputs : List StakeCoin → ℕ → CTransaction → Option CTransaction
  | [], _, txNew => some txNew
  | coin::vwtxPrev, nIn, txNew =>
    match W.signSignature coin txNew nIn with
    | none => none
    | some scriptSig => signInputs vwtxPrev (nIn+1)
        { txNew with vin := txNew.vin.modify nIn fun i => { i with scriptSig := scriptSig } }

structure Stake where
  kernel : Kernel
  vwtxPrev : List StakeCoin
  nCredit : ℤ
  nReward : ℤ

variable (disk : Disk) (s : Store) (tip : CBlockIndex)

def stakeOutputs (k : Kernel) : List CTxOut :=
  [⟨0,[]⟩,⟨0,k.scriptOut⟩]++if 100*coin < k.coin.nValue then [⟨0,k.scriptOut⟩] else []

/-- The kernel and the coins that are added to it; the sum of the coins is in `nCredit`. -/
def chooseCoins (nBits : ℕ) (nSearchInterval : ℤ) (txNew : CTransaction) :
    Option (Kernel × List StakeCoin × ℤ) :=
  if W.nBalance ≤ W.nReserveBalance then none
  else do
    let setCoins ← W.selectCoinsForStaking (W.nBalance-W.nReserveBalance) txNew.nTime
    let k ← findKernel W nBits txNew.nTime nSearchInterval setCoins
    if k.coin.nValue = 0 ∨ W.nBalance-W.nReserveBalance < k.coin.nValue then none
    else some (k,if (stakeOutputs k).length = 2 then
      combine env W k (timeBefore txNew.nTime k.age) setCoins [k.coin] k.coin.nValue
      else ([k.coin],k.coin.nValue))

def unsignedStake (txNew : CTransaction) (k : Kernel) (vwtxPrev : List StakeCoin) : CTransaction :=
  { txNew with
    nTime := timeBefore txNew.nTime k.age
    vin := vwtxPrev.map StakeCoin.input
    vout := stakeOutputs k }

/-- `CreateCoinStake` up to the reward. The call passes the height, the coin age and the fees
where the function takes coin age, fees and height. -/
def chooseStake (nBits : ℕ) (nSearchInterval nFees : ℤ) (txNew : CTransaction) : Option Stake := do
  let (k,vwtxPrev,nCredit) ← chooseCoins env W nBits nSearchInterval txNew
  let nCoinAge ← getCoinAge env disk s (unsignedStake txNew k vwtxPrev)
  let nReward := getProofOfStakeReward tip (tip.nHeight+1) nCoinAge.toInt nFees
  if nReward ≤ 0 then none else some ⟨k,vwtxPrev,nCredit+nReward,nReward⟩

/-- The signatures and the size limit that close `CreateCoinStake`. -/
def closeStake (P : PaymentView) (txNew : CTransaction) (st : Stake) : Option CTransaction := do
  let unsigned := unsignedStake txNew st.kernel st.vwtxPrev
  let txNew ← signInputs W st.vwtxPrev 0 { unsigned with
    vout := setAmounts unsigned.vout (P.masternodePayee (tip.nHeight+1)) st.nCredit st.nReward }
  if maxBlockSizeGen/5 ≤ env.txSize txNew then none else some txNew

end CoinStake

def createCoinStake (W : StakeWallet) (disk : Disk) (s : Store) (tip : CBlockIndex)
    (P : PaymentView) (nBits : ℕ) (nSearchInterval nFees : ℤ) (txNew : CTransaction) :
    Option CTransaction :=
  (CoinStake.chooseStake env W disk s tip nBits nSearchInterval nFees txNew).bind
    (CoinStake.closeStake env W tip P txNew)

namespace CoinStake

theorem sign_inputs_keep {W : StakeWallet} {coins : List StakeCoin} (nIn : ℕ)
    (tx tx' : CTransaction) (h : signInputs W coins nIn tx = some tx') :
    tx'.vout = tx.vout ∧ tx'.nTime = tx.nTime ∧ tx'.prevouts = tx.prevouts := by
  induction coins generalizing nIn tx with
  | nil =>
    obtain rfl := Option.some_inj.mp h
    exact ⟨rfl,rfl,rfl⟩
  | cons coin coins ih =>
    rw [signInputs] at h
    split at h
    · cases h
    · next scriptSig _ =>
      obtain ⟨hout,htime,hprev⟩ := ih _ _ h
      refine ⟨hout,htime,hprev.trans ?_⟩
      apply List.ext_getElem?
      intro n
      simp only [CTransaction.prevouts, List.getElem?_map, List.getElem?_modify]
      cases tx.vin[n]? with
      | none => rfl
      | some i =>
        by_cases hn : nIn = n
        · simp [hn]
        · simp [hn]

/-- The coins that are added come after the kernel and make the credit no smaller. -/
theorem combine_adds (W : StakeWallet) (k : Kernel) (nTime : ℕ) (coins prevs : List StakeCoin)
    (nCredit : ℤ) : ∃ added, (combine env W k nTime coins prevs nCredit).1 = prevs++added ∧
      (combine env W k nTime coins prevs nCredit).2 =
        nCredit+(added.map StakeCoin.nValue).sum := by
  induction coins generalizing prevs nCredit with
  | nil => exact ⟨[],by simp [combine],by simp [combine]⟩
  | cons coin coins ih =>
    rw [combine]
    split_ifs
    · exact ⟨[],by simp,by simp⟩
    · exact ⟨[],by simp,by simp⟩
    · exact ⟨[],by simp,by simp⟩
    · exact ih prevs nCredit
    · obtain ⟨added,hprevs,hcredit⟩ := ih (prevs++[coin]) (nCredit+coin.nValue)
      refine ⟨coin::added,by simp [hprevs],?_⟩
      rw [hcredit, List.map_cons, List.sum_cons]
      omega
    · exact ih prevs nCredit

theorem coins_nonneg (coins : List StakeCoin) : 0 ≤ (coins.map StakeCoin.nValue).sum := by
  induction coins with
  | nil => exact Int.le_refl 0
  | cons coin coins ih =>
    have hcoin := coin.nonneg
    rw [List.map_cons, List.sum_cons]
    omega

section Chosen
variable (W : StakeWallet) (disk : Disk) (s : Store) (tip : CBlockIndex)
  (nBits : ℕ) {nSearchInterval : ℤ} (nFees : ℤ) (txNew : CTransaction)

theorem choose_coins_some {k : Kernel} {prevs : List StakeCoin} {nCredit : ℤ}
    (h : chooseCoins env W nBits nSearchInterval txNew = some (k,prevs,nCredit)) :
    ∃ added, prevs = k.coin::added ∧ nCredit = (prevs.map StakeCoin.nValue).sum := by
  unfold chooseCoins at h
  split at h
  · cases h
  · simp only [Option.bind_eq_bind, Option.bind_eq_some_iff] at h
    obtain ⟨setCoins,_,k',_,h⟩ := h
    split at h
    · cases h
    · obtain ⟨rfl,hchosen⟩ := Prod.mk.inj (Option.some_inj.mp h)
      split at hchosen
      · obtain ⟨added,hprevs,hcredit⟩ := combine_adds env W k' (timeBefore txNew.nTime k'.age) setCoins
          [k'.coin] k'.coin.nValue
        rw [hchosen] at hprevs hcredit
        refine ⟨added,hprevs,?_⟩
        change nCredit = _ at hcredit
        change prevs = _ at hprevs
        rw [hcredit, hprevs]
        simp
      · obtain ⟨rfl,rfl⟩ := Prod.mk.inj hchosen
        exact ⟨[],rfl,by simp⟩

/-- The reward is positive, and the credit is what the coins are worth and the reward. -/
theorem choose_stake_some {st : Stake}
    (h : chooseStake env W disk s tip nBits nSearchInterval nFees txNew = some st) :
    (∃ added, st.vwtxPrev = st.kernel.coin::added) ∧ 0 < st.nReward ∧
      st.nCredit = (st.vwtxPrev.map StakeCoin.nValue).sum+st.nReward := by
  unfold chooseStake at h
  simp only [Option.bind_eq_bind, Option.bind_eq_some_iff] at h
  obtain ⟨⟨k,prevs,nCredit⟩,hcoins,nCoinAge,_,h⟩ := h
  obtain ⟨added,hprevs,hcredit⟩ := choose_coins_some env W nBits txNew hcoins
  split at h
  · cases h
  · obtain rfl := Option.some_inj.mp h
    refine ⟨⟨added,hprevs⟩,?_,?_⟩
    · dsimp only
      omega
    · rw [← hcredit]

theorem close_stake_some {P : PaymentView} {st : Stake} {tx : CTransaction}
    (h : closeStake env W tip P txNew st = some tx) :
    tx.vout = setAmounts (stakeOutputs st.kernel) (P.masternodePayee (tip.nHeight+1)) st.nCredit
        st.nReward ∧ tx.prevouts = st.vwtxPrev.map StakeCoin.prevout := by
  unfold closeStake at h
  simp only [Option.bind_eq_bind, Option.bind_eq_some_iff] at h
  obtain ⟨signed,hsigned,h⟩ := h
  split at h
  · cases h
  · obtain rfl := Option.some_inj.mp h
    obtain ⟨hout,_,hprev⟩ := sign_inputs_keep _ _ _ hsigned
    refine ⟨hout,hprev.trans ?_⟩
    simp [CTransaction.prevouts, unsignedStake, StakeCoin.input, Function.comp_def]

end Chosen

def stakeAmounts (k : Kernel) (blockValue : ℤ) : List ℤ :=
  if 100*coin < k.coin.nValue then [firstHalf blockValue,blockValue-firstHalf blockValue]
  else [blockValue]

theorem set_amounts_eq (k : Kernel) (payee : Option CScript) (nCredit nReward : ℤ) :
    setAmounts (stakeOutputs k) payee nCredit nReward =
      match payee with
      | none => ⟨0,[]⟩::(stakeAmounts k nCredit).map fun v => ⟨v,k.scriptOut⟩
      | some script => ⟨0,[]⟩::((stakeAmounts k (nCredit-getMasternodePayment nReward)).map fun v =>
          ⟨v,k.scriptOut⟩)++[⟨getMasternodePayment nReward,script⟩] := by
  unfold stakeOutputs stakeAmounts
  by_cases hsplit : 100*coin < k.coin.nValue
  · rw [if_pos hsplit, if_pos hsplit, if_pos hsplit]
    cases payee <;> rfl
  · rw [if_neg hsplit, if_neg hsplit, if_neg hsplit]
    cases payee <;> rfl

theorem stake_amounts_sum (k : Kernel) (v : ℤ) : (stakeAmounts k v).sum = v := by
  unfold stakeAmounts
  split
  · simp
  · simp

theorem stake_amounts_nonneg (k : Kernel) (v : ℤ) (hv : 0 ≤ v) : ∀ a ∈ stakeAmounts k v, 0 ≤ a := by
  have hhalf : 0 ≤ firstHalf v ∧ firstHalf v ≤ v := by
    unfold firstHalf cent
    rw [Int.tdiv_eq_ediv_of_nonneg hv, Int.tdiv_eq_ediv_of_nonneg (by omega)]
    omega
  unfold stakeAmounts
  split
  · simp only [List.mem_cons, List.not_mem_nil, or_false, forall_eq_or_imp, forall_eq]
    omega
  · simpa using hv

end CoinStake

end SwippCore

namespace SwippCore
open Checks Masternode

/-- What `CreateNewBlock` reads, with the transactions that it selected from the pool. -/
structure BlockTemplate where
  tip : CBlockIndex
  /-- the id of the key that was reserved, if there was one -/
  reservedKey : Option Uint160
  /-- height and flags, for a proof-of-stake block -/
  heightScript : CScript
  adjustedTime : ℕ
  nTime : ℕ
  nBits : ℕ
  selected : List CTransaction
  nFees : ℤ
  noStakes : ∀ tx ∈ selected, tx.isCoinStake = false
  height : 0 ≤ tip.nHeight ∧ tip.nHeight < 2^31

variable (env : Env)

def payWork (vout : List CTxOut) (payee : Option CScript) : List CTxOut :=
  match payee, vout with
  | some payee, [o] =>
    let masternodePayment := getMasternodePayment o.nValue
    [{ o with nValue := o.nValue-masternodePayment },⟨masternodePayment,payee⟩]
  | some payee, vout => vout++[⟨0,payee⟩]
  | none, vout => vout

/-- The coin base of a proof-of-work block. The call of the reward function passes the height
where it takes the fees. -/
def workCoinBase (P : PaymentView) (T : BlockTemplate) (id : Uint160) : CTransaction :=
  let nHeight := T.tip.nHeight+1
  let vout := [⟨getProofOfWorkReward T.tip nHeight T.nFees,scriptForKey id⟩]
  ⟨1,T.adjustedTime,[⟨.null,[],uintMax⟩],
    if 140000 ≤ nHeight then payWork vout (P.masternodePayee nHeight) else vout,0⟩

def stakeCoinBase (T : BlockTemplate) : CTransaction :=
  ⟨1,T.adjustedTime,[⟨.null,T.heightScript,uintMax⟩],[⟨0,[]⟩],0⟩

/-- `CreateNewBlock`, after the selection of transactions. -/
def createNewBlock (P : PaymentView) (T : BlockTemplate) (fProofOfStake : Bool) : Option CBlock :=
  let block (coinBase : CTransaction) : CBlock :=
    ⟨7,T.tip.hashBlock,0,T.nTime,T.nBits,0,coinBase::T.selected,[]⟩
  if fProofOfStake then some (block (stakeCoinBase T))
  else T.reservedKey.map fun id => block (workCoinBase P T id)

def insertStake (b : CBlock) (txCoinStake : CTransaction) : CBlock :=
  let vtx := (b.vtx.modify 0 fun tx => { tx with nTime := txCoinStake.nTime }).filter fun tx =>
    tx.nTime ≤ txCoinStake.nTime
  let b := { b with nTime := txCoinStake.nTime, vtx := vtx.insertIdx 1 txCoinStake }
  { b with hashMerkleRoot := buildMerkleTree env b }

/-- `CBlock::SignBlock` on a new block; `sign` is the signature of the kernel's key. -/
def signBlock (W : StakeWallet) (disk : Disk) (s : Store) (P : PaymentView) (T : BlockTemplate)
    (pastTimeLimit : ℤ) (nSearchInterval : ℤ) (txNew : CTransaction)
    (sign : CBlock → Option (List UInt8)) : Option CBlock := do
  let b ← createNewBlock P T true
  let txCoinStake ← createCoinStake env W disk s T.tip P T.nBits nSearchInterval T.nFees txNew
  if (txCoinStake.nTime : ℤ) < pastTimeLimit+1 then none
  else (sign (insertStake env b txCoinStake)).map fun vchBlockSig =>
    { insertStake env b txCoinStake with vchBlockSig := vchBlockSig }

namespace OwnBlock
open CoinStake

def total (os : List CTxOut) : ℤ := (os.map CTxOut.nValue).sum

theorem total_nonneg (os : List CTxOut) (hos : ∀ o ∈ os, 0 ≤ o.nValue) : 0 ≤ total os := by
  induction os with
  | nil => exact Int.le_refl 0
  | cons o os ih =>
    have ho := hos o List.mem_cons_self
    have hrest := ih fun o ho => hos o (List.mem_cons_of_mem _ ho)
    change 0 ≤ o.nValue+total os
    omega

theorem value_out_total {os : List CTxOut} (hos : ∀ o ∈ os, 0 ≤ o.nValue) (v : ℤ)
    (hv : moneyRange v = true) : valueOutFrom v os =
      if moneyRange (v+total os) then .ok (v+total os)
      else .error (.throw "CTransaction::GetValueOut() : value out of range") := by
  induction os generalizing v with
  | nil =>
    rw [show v+total [] = v from Int.add_zero v, if_pos hv]
    rfl
  | cons o os ih =>
    have ho := hos o List.mem_cons_self
    have hrest := fun o ho => hos o (List.mem_cons_of_mem _ ho)
    have hnonneg := total_nonneg os hrest
    have hsum : v+total (o::os) = v+o.nValue+total os := by
      change v+(o.nValue+total os) = v+o.nValue+total os
      omega
    rw [valueOutFrom, hsum]
    simp only [moneyRange, Bool.and_eq_true, decide_eq_true_eq] at hv
    split
    · next hrange => exact ih hrest _ (Bool.and_eq_true _ _ ▸ hrange).2
    · next hrange =>
      rw [if_neg]
      intro hall
      apply hrange
      simp only [moneyRange, Bool.and_eq_true, decide_eq_true_eq] at hall ⊢
      omega

variable {tx : CTransaction}

theorem get_value_out (hos : ∀ o ∈ tx.vout, 0 ≤ o.nValue) :
    tx.getValueOut = if moneyRange (total tx.vout) then .ok (total tx.vout)
      else .error (.throw "CTransaction::GetValueOut() : value out of range") := by
  have h := value_out_total hos 0 (by decide)
  rwa [Int.zero_add] at h

variable (best : Best) (amb : Ambient) (P : PaymentView) (T : BlockTemplate)

theorem check_payment_iff {tip : CBlockIndex} (hbest : best.pindexBest = some tip) {b : CBlock}
    (hprev : b.hashPrevBlock = tip.hashBlock)
    (htx : b.vtx[if b.isProofOfStake then 1 else 0]? = some tx)
    (hos : ∀ o ∈ tx.vout, 0 ≤ o.nValue) :
    checkMasternodePayment env best amb b = .ok () ↔
      b.nTime ≤ startMasternodePayments ∨ b.isProofOfStake = false ∧ tip.nHeight+1 < 140000 ∨
        moneyRange (total tx.vout) = true ∧ (isInitialBlockDownload env best amb = true ∨
          foundPayment (amb.blockPayee (tip.nHeight+1)) (getMasternodePayment (total tx.vout))
            tx.vout = true) := by
  unfold checkMasternodePayment
  rw [hbest]
  dsimp only
  rw [hprev, beq_self_eq_true, Bool.and_true]
  by_cases htime : startMasternodePayments < b.nTime
  · have hnot : ¬b.nTime ≤ startMasternodePayments := by omega
    by_cases hkind : (b.isProofOfStake || decide (140000 ≤ tip.nHeight+1)) = true
    · have hlate : ¬(b.isProofOfStake = false ∧ tip.nHeight+1 < 140000) := by
        rintro ⟨hpos,hheight⟩
        rw [hpos, Bool.false_or, decide_eq_true_eq] at hkind
        omega
      rw [if_pos (by simp [htime, hkind]), htx]
      dsimp only
      rw [get_value_out hos]
      simp only [hnot, hlate, false_or]
      split
      · next hrange => simp [hrange, require_ok, bind_ok]
      · next hrange => simp [hrange, bind_ok]
    · rw [if_neg (by simp [hkind])]
      simp only [Bool.or_eq_true, not_or, Bool.not_eq_true, decide_eq_true_eq] at hkind
      simp only [true_iff]
      exact .inr (.inl ⟨hkind.1,by omega⟩)
  · rw [if_neg (by simp [htime])]
    simp only [true_iff]
    exact .inl (by omega)

/-- A payee is found when no payee is named, or when it is empty, or when it gets the amount. -/
theorem found_payment_iff (payee : Option CScript) (amount : ℤ) (vout : List CTxOut) :
    foundPayment payee amount vout = true ↔
      ∀ script, payee = some script → script ≠ [] → ⟨amount,script⟩ ∈ vout := by
  cases payee with
  | none => simp [foundPayment]
  | some script =>
    simp only [foundPayment, Bool.or_eq_true, List.isEmpty_iff, List.any_eq_true, Bool.and_eq_true,
      beq_iff_eq, Option.some.injEq, forall_eq']
    constructor
    · rintro (rfl | ⟨o,ho,rfl,rfl⟩) hne
      · exact absurd rfl hne
      · exact ho
    · intro h
      by_cases hne : script = []
      · exact .inl hne
      · exact .inr ⟨_,h hne,rfl,rfl⟩

theorem subsidy_range (nHeight : ℤ) :
    0 ≤ proofOfWorkSubsidy nHeight ∧ proofOfWorkSubsidy nHeight ≤ 3000000*coin := by
  unfold proofOfWorkSubsidy coin
  split_ifs <;> omega

theorem payment_range {v : ℤ} (hv : 0 ≤ v) : 0 ≤ getMasternodePayment v ∧ getMasternodePayment v ≤ v := by
  unfold getMasternodePayment
  omega

theorem masternode_payee_named {nHeight : ℤ} {script : CScript}
    (h : P.blockPayee nHeight = some script) : P.masternodePayee nHeight = some script := by
  rw [PaymentView.masternodePayee, h]

/-- The outputs of the coin base add up to the reward, and the named payee gets its part. -/
theorem pay_work_outputs {reward : ℤ} (s : CScript) (payee : Option CScript) (hreward : 0 ≤ reward) :
    (∀ o ∈ payWork [⟨reward,s⟩] payee, 0 ≤ o.nValue) ∧ total (payWork [⟨reward,s⟩] payee) = reward ∧
      ∀ script, payee = some script → ⟨getMasternodePayment reward,script⟩ ∈ payWork [⟨reward,s⟩] payee := by
  have hpay := payment_range hreward
  cases payee with
  | none => simpa [payWork, total] using hreward
  | some script =>
    simp only [payWork, total, List.mem_cons, List.not_mem_nil, or_false, forall_eq_or_imp, forall_eq,
      List.map_cons, List.map_nil, List.sum_cons, List.sum_nil, Option.some.injEq, forall_eq', or_true,
      and_true]
    omega

theorem work_block_paid {b : CBlock} (h : createNewBlock P T false = some b)
    (hbest : best.pindexBest = some T.tip) :
    checkMasternodePayment env best { amb with blockPayee := P.blockPayee } b = .ok () := by
  rw [createNewBlock, if_neg Bool.false_ne_true] at h
  obtain ⟨id,_,rfl⟩ := Option.map_eq_some_iff.mp h
  have hkind : CBlock.isProofOfStake ⟨7,T.tip.hashBlock,0,T.nTime,T.nBits,0,
      workCoinBase P T id::T.selected,[]⟩ = false := by
    unfold CBlock.isProofOfStake
    dsimp only
    split
    · next tx _ heq =>
      rw [List.cons.injEq] at heq
      exact T.noStakes tx (by rw [heq.2]; exact List.mem_cons_self)
    · rfl
  have hsubsidy := subsidy_range T.tip.nHeight
  have hheight := T.height
  have hreward : getProofOfWorkReward T.tip (T.tip.nHeight+1) T.nFees =
      proofOfWorkSubsidy T.tip.nHeight+(T.tip.nHeight+1) := rfl
  generalize hr : getProofOfWorkReward T.tip (T.tip.nHeight+1) T.nFees = reward at hreward
  have hrange : 0 ≤ reward ∧ moneyRange reward = true := by
    simp only [moneyRange, Bool.and_eq_true, decide_eq_true_eq]
    unfold coin at hsubsidy ⊢
    omega
  by_cases hlate : 140000 ≤ T.tip.nHeight+1
  · have hout : (workCoinBase P T id).vout =
        payWork [⟨reward,scriptForKey id⟩] (P.masternodePayee (T.tip.nHeight+1)) := by
      simp only [workCoinBase, hr, if_pos hlate]
    obtain ⟨hos,hsum,hpaid⟩ := pay_work_outputs (scriptForKey id)
      (P.masternodePayee (T.tip.nHeight+1)) hrange.1
    rw [← hout] at hos hsum hpaid
    refine (check_payment_iff env best _ hbest rfl
      (by rw [hkind]; rfl) hos).mpr (.inr (.inr ?_))
    rw [hsum]
    refine ⟨hrange.2,.inr ?_⟩
    rw [found_payment_iff]
    intro script hscript _
    exact hpaid script (masternode_payee_named P hscript)
  · have hout : (workCoinBase P T id).vout = [⟨reward,scriptForKey id⟩] := by
      simp only [workCoinBase, hr, if_neg hlate]
    refine (check_payment_iff env best _ hbest rfl
      (by rw [hkind]; rfl) ?_).mpr (.inr (.inl ⟨hkind,by omega⟩))
    rw [hout]
    simpa using hrange.1

/-- The coin stake pays what is looked for: it would do so for nobody to be named, for a stake so
small that both parts are the same, and for a payee who stakes himself and happens to get back
the amount. -/
def PaymentMeets (tip : CBlockIndex) (st : Stake) : Prop :=
  ∀ payee, P.blockPayee (tip.nHeight+1) = some payee → payee ≠ [] →
    getMasternodePayment st.nCredit = getMasternodePayment st.nReward ∨
      payee = st.kernel.scriptOut ∧ getMasternodePayment st.nCredit ∈
        stakeAmounts st.kernel (st.nCredit-getMasternodePayment st.nReward)

theorem stake_amounts_total (k : Kernel) (amounts : List ℤ) :
    total (amounts.map fun v => ⟨v,k.scriptOut⟩) = amounts.sum := by
  simp [total, Function.comp_def]

theorem total_append (as bs : List CTxOut) : total (as++bs) = total as+total bs := by
  simp [total]

theorem stake_outputs_total (st : Stake) (payee : Option CScript) (hreward : 0 ≤ st.nReward)
    (hcredit : st.nReward ≤ st.nCredit) :
    (∀ o ∈ setAmounts (stakeOutputs st.kernel) payee st.nCredit st.nReward, 0 ≤ o.nValue) ∧
      total (setAmounts (stakeOutputs st.kernel) payee st.nCredit st.nReward) = st.nCredit := by
  have hpay := payment_range hreward
  have hnonneg := fun v hv => stake_amounts_nonneg st.kernel v hv
  rw [set_amounts_eq]
  cases payee with
  | none =>
    constructor
    · intro o ho
      rcases List.mem_cons.mp ho with rfl | ho
      · exact Int.le_refl 0
      · obtain ⟨a,ha,rfl⟩ := List.mem_map.mp ho
        exact hnonneg _ (by omega) a ha
    · change 0+total _ = _
      rw [stake_amounts_total, stake_amounts_sum, Int.zero_add]
  | some script =>
    constructor
    · intro o ho
      simp only [List.cons_append, List.mem_cons, List.mem_append, List.not_mem_nil, or_false] at ho
      rcases ho with rfl | ho | rfl
      · exact Int.le_refl 0
      · obtain ⟨a,ha,rfl⟩ := List.mem_map.mp ho
        exact hnonneg _ (by omega) a ha
      · exact hpay.1
    · change 0+total (_++_) = _
      rw [total_append, stake_amounts_total, stake_amounts_sum]
      change 0+(st.nCredit-_+(getMasternodePayment st.nReward+0)) = _
      omega

theorem stake_payment_iff (tip : CBlockIndex) (st : Stake) :
    foundPayment (P.blockPayee (tip.nHeight+1)) (getMasternodePayment st.nCredit)
        (setAmounts (stakeOutputs st.kernel) (P.masternodePayee (tip.nHeight+1)) st.nCredit
          st.nReward) = true ↔ PaymentMeets P tip st := by
  rw [found_payment_iff]
  refine forall_congr' fun script => forall_congr' fun hscript => forall_congr' fun hne => ?_
  rw [masternode_payee_named P hscript, set_amounts_eq]
  simp only [List.cons_append, List.mem_cons, List.mem_append, List.mem_map, CTxOut.mk.injEq,
    List.not_mem_nil, or_false, hne, and_false, false_or, and_true]
  constructor
  · rintro (⟨v,hv,rfl,rfl⟩ | heq)
    · exact .inr ⟨rfl,hv⟩
    · exact .inl heq
  · rintro (heq | ⟨rfl,hv⟩)
    · exact .inr heq
    · exact .inl ⟨_,hv,rfl,rfl⟩

theorem insert_stake_vtx (b : CBlock) (coinBase tx : CTransaction) (rest : List CTransaction)
    (hb : b.vtx = coinBase::rest) : (insertStake env b tx).vtx =
      { coinBase with nTime := tx.nTime }::tx::rest.filter fun t => t.nTime ≤ tx.nTime := by
  change List.insertIdx ((b.vtx.modify 0 _).filter _) 1 tx = _
  rw [hb, List.modify_zero_cons, List.filter_cons_of_pos (by simp)]
  rfl

theorem coin_stake_marked {coin : StakeCoin} {prevs : List COutPoint}
    {o : CTxOut} {os : List CTxOut} (hprev : tx.prevouts = coin.prevout::prevs)
    (hout : tx.vout = ⟨0,[]⟩::o::os) : tx.isCoinStake = true := by
  obtain ⟨i,is,hvin,hi,_⟩ := List.map_eq_cons_iff.mp hprev
  have hindex := coin.indexed
  have hnull : coin.prevout.isNull = false := by
    rw [StakeCoin.prevout, COutPoint.isNull, Bool.and_eq_false_iff]
    exact .inr (beq_eq_false_iff_ne.mpr (by dsimp only; omega))
  rw [CTransaction.isCoinStake, hvin, hout]
  dsimp only
  rw [hi, hnull]
  rfl

theorem set_amounts_shape (k : Kernel) (payee : Option CScript) (nCredit nReward : ℤ) :
    ∃ o os, setAmounts (stakeOutputs k) payee nCredit nReward = ⟨0,[]⟩::o::os := by
  rw [set_amounts_eq]
  unfold stakeAmounts
  split <;> split <;> exact ⟨_,_,rfl⟩

/-- The coin stake of this node passes the payment test exactly when the payment meets it. -/
theorem stake_block_paid_iff {W : StakeWallet} {disk : Disk} {s : Store} {pastTimeLimit : ℤ}
    {nSearchInterval : ℤ} {txNew : CTransaction} {sign : CBlock → Option (List UInt8)} {b : CBlock}
    (h : signBlock env W disk s P T pastTimeLimit nSearchInterval txNew sign = some b)
    (hbest : best.pindexBest = some T.tip) :
    ∃ st, chooseStake env W disk s T.tip T.nBits nSearchInterval T.nFees txNew = some st ∧
      (checkMasternodePayment env best { amb with blockPayee := P.blockPayee } b = .ok () ↔
        b.nTime ≤ startMasternodePayments ∨ moneyRange st.nCredit = true ∧
          (isInitialBlockDownload env best { amb with blockPayee := P.blockPayee } = true ∨
            PaymentMeets P T.tip st)) := by
  unfold signBlock at h
  simp only [Option.bind_eq_bind, Option.bind_eq_some_iff] at h
  obtain ⟨b0,hb0,tx,htx,h⟩ := h
  split at h
  · cases h
  · obtain ⟨vchBlockSig,_,rfl⟩ := Option.map_eq_some_iff.mp h
    obtain ⟨st,hst,hclose⟩ := Option.bind_eq_some_iff.mp htx
    obtain ⟨⟨added,hcoins⟩,hpos,hcredit⟩ :=
      choose_stake_some env W disk s T.tip T.nBits T.nFees txNew hst
    obtain ⟨hout,hprev⟩ := close_stake_some env W T.tip txNew hclose
    have hsum := coins_nonneg st.vwtxPrev
    obtain ⟨hos,htotal⟩ := stake_outputs_total st (P.masternodePayee (T.tip.nHeight+1)) hpos.le
      (by omega)
    rw [← hout] at hos htotal
    obtain ⟨o,os,hshape⟩ := set_amounts_shape st.kernel (P.masternodePayee (T.tip.nHeight+1))
      st.nCredit st.nReward
    have hstake : tx.isCoinStake = true :=
      coin_stake_marked (by rw [hprev, hcoins]; rfl) (hout.trans hshape)
    rw [createNewBlock, if_pos rfl] at hb0
    obtain rfl := Option.some_inj.mp hb0
    have hvtx := insert_stake_vtx env
      ⟨7,T.tip.hashBlock,0,T.nTime,T.nBits,0,stakeCoinBase T::T.selected,[]⟩ (stakeCoinBase T) tx
      T.selected rfl
    generalize hblock : insertStake env _ tx = b at hvtx ⊢
    have hkind : CBlock.isProofOfStake { b with vchBlockSig := vchBlockSig } = true := by
      rw [CBlock.isProofOfStake, hvtx]
      exact hstake
    refine ⟨st,hst,(check_payment_iff env best _ hbest ?_ ?_ hos).trans ?_⟩
    · rw [← hblock]
      rfl
    · rw [hkind, if_pos rfl, hvtx]
      rfl
    · rw [htotal, hkind, hout, stake_payment_iff]
      simp

/-- A coin base of this node always passes the payment test in the state it was made in. A coin
stake passes it exactly when what it pays out of its reward is what is looked for. -/
theorem own_block_paid_iff (nBestHeight : ℤ) :
    (∀ b, createNewBlock P T false = some b → checkMasternodePayment env ⟨some T.tip,nBestHeight⟩
      { amb with blockPayee := P.blockPayee } b = .ok ()) ∧
    ∀ (W : StakeWallet) (disk : Disk) (s : Store) (pastTimeLimit nSearchInterval : ℤ)
      (txNew : CTransaction) (sign : CBlock → Option (List UInt8)) (b : CBlock),
      signBlock env W disk s P T pastTimeLimit nSearchInterval txNew sign = some b →
      ∃ st, chooseStake env W disk s T.tip T.nBits nSearchInterval T.nFees txNew = some st ∧
        (checkMasternodePayment env ⟨some T.tip,nBestHeight⟩
            { amb with blockPayee := P.blockPayee } b = .ok () ↔
          b.nTime ≤ startMasternodePayments ∨ moneyRange st.nCredit = true ∧
            (isInitialBlockDownload env ⟨some T.tip,nBestHeight⟩
                { amb with blockPayee := P.blockPayee } = true ∨ PaymentMeets P T.tip st)) :=
  ⟨fun _ h => work_block_paid env _ amb P T h rfl,
    fun _ _ _ _ _ _ _ _ h =>
      stake_block_paid_iff env _ amb P T h rfl⟩

def samplePubKey : List UInt8 := 2::List.replicate 32 7

def sampleCoin : StakeCoin where
  hash := 5
  n := 0
  nTime := 1500000000
  nValue := 10*coin
  scriptPubKey := CScript.push samplePubKey++[0xac]
  nonneg := by decide
  indexed := by decide

def sampleWallet : StakeWallet where
  nBalance := 10*coin
  nReserveBalance := 0
  selectCoinsForStaking _ _ := some [sampleCoin]
  checkKernel _ _ _ := true
  getKey _ := some samplePubKey
  hash160 vch := vch
  signSignature _ _ _ := some [1]

def sampleTip : CBlockIndex :=
  ⟨1,none,none,0,0,1,200000,0,0,0,0,.null,0,0,0,0,1550000000,0,0⟩

def sampleTemplate : BlockTemplate where
  tip := sampleTip
  reservedKey := some 9
  heightScript := [1,1]
  adjustedTime := 1550000060
  nTime := 1550000060
  nBits := 0
  selected := []
  nFees := 0
  noStakes tx htx := absurd htx List.not_mem_nil
  height := by decide

def sampleView : PaymentView where
  blockPayee _ := some [0x51]
  scoring := ⟨⟨0,[],fun _ => true⟩,id,fun a _ => a,id⟩
  chain := .empty
  vecMasternodes := []
  mapCacheBlockHashes := ∅
  keyId _ := 0

def sampleAmbient : Ambient := ⟨1550000060,1550000060,∅,fun _ => some [0x51],none,0⟩

def emptyDisk : Disk := ⟨fun _ => none,fun _ _ => none,fun _ _ => none⟩

def sampleStake : Option CBlock :=
  signBlock sampleEnv sampleWallet emptyDisk .empty sampleView sampleTemplate 1550000000 1
    ⟨1,1550000060,[],[],0⟩ fun _ => some [1]

/-- A block with ten coins staked and a payee named is refused by the node that made it. -/
theorem stake_block_refused : (sampleStake.map fun b =>
      checkMasternodePayment sampleEnv ⟨some sampleTip,200000⟩
        { sampleAmbient with blockPayee := sampleView.blockPayee } b) =
    some (.error (.error 100 "CheckBlock() : Couldn't find masternode payment or payee")) := by
  decide +kernel

/-- The coin base of the sample passes. -/
theorem work_block_passes : ∃ b, createNewBlock sampleView sampleTemplate false = some b ∧
    checkMasternodePayment sampleEnv ⟨some sampleTip,200000⟩
      { sampleAmbient with blockPayee := sampleView.blockPayee } b = .ok () :=
  ⟨_,rfl,(own_block_paid_iff sampleEnv sampleAmbient sampleView sampleTemplate 200000).1 _ rfl⟩

end OwnBlock

end SwippCore
