import SwippCore.Wallet
import SwippCore.DarkSendPool
import SwippCore.CoinStake
import Mathlib.Data.Int.Bitwise

/-!
# Coins that may be spent

The outputs that are offered, and the selections over them.
-/

set_option autoImplicit false

namespace SwippCore.AvailableCoins
open FinMap Masternode
open DarkSendPool (darkSendDenominations)

def darksendFee : ℤ := 200000

inductive AvailableCoinsType where
  | allCoins | onlyDenominated | onlyNondenominated | onlyNondenominatedNotmn
  deriving DecidableEq, Repr

structure COutput where
  tx : CWalletTx
  i : ℕ
  nDepth : ℤ
  fSpendable : Bool
  deriving DecidableEq, Repr

structure CoinView where
  nHeight : ℤ
  isFinalTx : CTransaction → Bool
  isTrusted : CWalletTx → Bool
  blocksToMaturity : CWalletTx → ℤ
  depthInMainChain : CWalletTx → ℤ
  setLockedCoins : List COutPoint

def isDenominatedAmount (nInputAmount : ℤ) : Bool := nInputAmount ∈ darkSendDenominations

def isCollateralAmount (nHeight nInputAmount : ℤ) : Bool :=
  let coll := getMasternodeCollateralForBlock nHeight
  [5,4,3,2,1].any fun k => nInputAmount == coll*k+darksendFee

variable (V : CoinView)

def hasType (coinType : AvailableCoinsType) (nValue : ℤ) : Bool :=
  match coinType with
  | .allCoins => true
  | .onlyDenominated => isDenominatedAmount nValue
  | .onlyNondenominated => !isCollateralAmount V.nHeight nValue && !isDenominatedAmount nValue
  | .onlyNondenominatedNotmn =>
    !isCollateralAmount V.nHeight nValue && !isDenominatedAmount nValue &&
      nValue != getMasternodeCollateralForBlock V.nHeight

def offersTx (fOnlyConfirmed useIX : Bool) (pcoin : CWalletTx) : Bool :=
  V.isFinalTx pcoin.tx && !(fOnlyConfirmed && !V.isTrusted pcoin) &&
    !(pcoin.tx.isCoinBase && 0 < V.blocksToMaturity pcoin) &&
    !(pcoin.tx.isCoinStake && 0 < V.blocksToMaturity pcoin) &&
    0 < V.depthInMainChain pcoin && !(useIX && V.depthInMainChain pcoin < 6)

variable (K : Keys)

def offersOutput (coinControl : List COutPoint) (coinType : AvailableCoinsType)
    (hash : Uint256) (pcoin : CWalletTx) (i : ℕ) (out : CTxOut) : Bool :=
  hasType V coinType out.nValue && !pcoin.isSpent i && K.mine out.scriptPubKey &&
    !V.setLockedCoins.contains ⟨hash,i⟩ && 0 < out.nValue &&
    (coinControl.isEmpty || coinControl.contains ⟨hash,i⟩)

def outputsOf (coinControl : List COutPoint) (coinType : AvailableCoinsType) (hash : Uint256)
    (pcoin : CWalletTx) : List COutput :=
  (pcoin.tx.vout.zipIdx.filter fun x => offersOutput V K coinControl coinType hash pcoin x.2 x.1).map
    fun x => ⟨pcoin,x.2,V.depthInMainChain pcoin,K.mine x.1.scriptPubKey⟩

def availableCoins (fOnlyConfirmed : Bool) (coinControl : List COutPoint)
    (coinType : AvailableCoinsType) (useIX : Bool) (m : MapWallet) : List COutput :=
  ((inOrder (fun a b => a ≤ b) m).filter fun x => offersTx V fOnlyConfirmed useIX x.2).flatMap fun x =>
    outputsOf V K coinControl coinType x.1 x.2

/-- The coins at the positions that a random order gives. -/
def selected (picks : List ℕ) (vCoins : List COutput) : List COutput :=
  picks.filterMap fun i => vCoins[i]?

/-- The input that `CreateTransaction` makes of a coin. -/
def prevout (env : Env) (c : COutput) : COutPoint := ⟨env.hashTx c.tx.tx,c.i⟩

theorem mem_available_coins {fOnlyConfirmed : Bool} {coinControl : List COutPoint}
    {coinType : AvailableCoinsType} {useIX : Bool} {m : MapWallet} {c : COutput}
    (hc : c ∈ availableCoins V K fOnlyConfirmed coinControl coinType useIX m) :
    ∃ k out, m.lookup k = some c.tx ∧ c.tx.tx.vout[c.i]? = some out ∧
      K.mine out.scriptPubKey = true ∧ c.tx.isSpent c.i = false := by
  unfold availableCoins at hc
  obtain ⟨x,hx,hc⟩ := List.mem_flatMap.mp hc
  obtain ⟨hx,_⟩ := List.mem_filter.mp hx
  obtain ⟨y,hy,rfl⟩ := List.mem_map.mp hc
  obtain ⟨hy,ho⟩ := List.mem_filter.mp hy
  have hlook := (mem_in_order _ m x.1 x.2).mp hx
  have hout : x.2.tx.vout[y.2]? = some y.1 := List.mem_zipIdx_iff_getElem?.mp hy
  simp only [offersOutput, Bool.and_eq_true, Bool.not_eq_true'] at ho
  exact ⟨x.1,y.1,hlook,hout,ho.1.1.1.2,ho.1.1.1.1.2⟩

theorem mem_selected {picks : List ℕ} {vCoins : List COutput} {c : COutput}
    (hc : c ∈ selected picks vCoins) : c ∈ vCoins := by
  obtain ⟨i,_,hi⟩ := List.mem_filterMap.mp hc
  exact List.mem_of_getElem? hi

end SwippCore.AvailableCoins

namespace SwippCore.CoinSelection
open FinMap AvailableCoins Masternode
open DarkSendPool (darkSendDenominations darksendPoolMax)

def value (c : COutput) : ℤ := ((c.tx.tx.vout[c.i]?).map CTxOut.nValue).getD 0

def total (cs : List COutput) : ℤ := (cs.map value).sum

section Select

def eligible (fromMe : CWalletTx → Bool) (nSpendTime : ℕ) (nConfMine nConfTheirs : ℤ)
    (c : COutput) : Bool :=
  (if fromMe c.tx then nConfMine else nConfTheirs) ≤ c.nDepth && c.tx.tx.nTime ≤ nSpendTime

end Select

section Builders
variable (V : CoinView) (K : Keys)

def sendValue : List ℤ → ℤ → Option ℤ
  | [], nValue => if nValue < 0 then none else some nValue
  | v::vs, nValue => if nValue < 0 then none else sendValue vs (nValue+v)

variable (env : Env)

/-- `CreateCollateralTransaction`: the inputs of a collateral that was signed. -/
def createCollateralTransaction (m : MapWallet) (fSigned : Bool) : Option (List COutPoint) :=
  match (availableCoins V K true [] .allCoins false m).find?
      fun c => isCollateralAmount V.nHeight (value c) with
  | none => none
  | some c => if fSigned then some [prevout env c] else none

/-- The amounts with the bits of `nDenom`: what counts while some denomination is missing, and
what is taken after that. -/
def missingBits : List (ℕ × ℤ) := [0,1,1,1,1,2,3].zip darkSendDenominations
def anyBits : List (ℕ × ℤ) := [0,1,2,3,4,5,6].zip darkSendDenominations

/-- What `SelectCoinsByDenominations` keeps in its loop. -/
structure Denominated where
  found : List ℤ
  nValueRet : ℤ
  nValueMax : ℤ
  setCoinsRet : List COutput

/-- What the selection is asked for, and what it reads. `rand` has the draws of each coin. -/
structure DenominateRequest where
  nDenom : ℤ
  nValueMin : ℤ
  nDarksendRoundsMin : ℤ
  nDarksendRoundsMax : ℤ
  fMasterNode : Bool
  rounds : COutPoint → ℤ
  rand : COutPoint → ℕ × ℕ

variable (q : DenominateRequest)

/-- The loop of `SelectCoinsByDenominations`; true where it returns early. -/
def takeDenominations (nCoins : ℕ) : List COutput → Denominated → Bool × Denominated
  | [], d => (false,d)
  | out::outs, d =>
    let v := value out
    if v < coin ∧ v ≠ coin/10+100 then takeDenominations nCoins outs d
    else if q.fMasterNode ∧ v = getMasternodeCollateralForBlock V.nHeight then
      takeDenominations nCoins outs d
    else if d.nValueMax < d.nValueRet+v then takeDenominations nCoins outs d
    else
      let vin := prevout env out
      if q.nDarksendRoundsMax ≤ q.rounds vin ∨ q.rounds vin < q.nDarksendRoundsMin then
        takeDenominations nCoins outs d
      else
        let taken := { d with
          found := v::d.found
          nValueRet := d.nValueRet+v
          setCoinsRet := d.setCoinsRet++[out] }
        if darkSendDenominations.all fun x => d.found.contains x then
          let fEnough := decide (q.nValueMin ≤ d.nValueRet)
          let nValueMax := if fEnough then d.nValueMax-(q.rand vin).1%(d.nValueMax/5) else d.nValueMax
          if fEnough && (q.rand vin).2%nCoins < d.setCoinsRet.length then (true,d)
          else if anyBits.any fun x => q.nDenom.testBit x.1 && v == x.2 then
            takeDenominations nCoins outs { taken with nValueMax := nValueMax }
          else takeDenominations nCoins outs { d with nValueMax := nValueMax }
        else if missingBits.any fun x => q.nDenom.testBit x.1 && v == x.2 then
          takeDenominations nCoins outs taken
        else takeDenominations nCoins outs d

/-- `SelectCoinsByDenominations`; a denomination whose bit is off counts as found. -/
def selectCoinsByDenominations (order : List ℕ) (nValueMax : ℤ) (m : MapWallet) :
    Option (List COutput) :=
  let vCoins := selected order (availableCoins V K true [] .allCoins false m)
  let off := (anyBits.filter fun x => !q.nDenom.testBit x.1).map Prod.snd
  let r := takeDenominations V env q vCoins.length vCoins ⟨off,0,nValueMax,[]⟩
  if r.1 || (q.nValueMin ≤ r.2.nValueRet && darkSendDenominations.all fun x => r.2.found.contains x)
  then some r.2.setCoinsRet else none

/-- `PrepareDarksendDenominate`: the inputs that go to the pool. Locked wallets and pending
entries end it before, and `fOutputs` says whether the outputs come out in the denominations
of the session. -/
def prepareDarksendDenominate (order : List ℕ) (fOutputs : Bool) (m : MapWallet) :
    Option (List COutPoint) :=
  let vCoins :=
    if 0 ≤ q.nDarksendRoundsMin then selectCoinsByDenominations V K env q order darksendPoolMax m
    else some []
  vCoins.bind fun vCoins => if fOutputs then some (vCoins.map (prevout env)) else none

end Builders

section Staking
variable (V : CoinView) (K : Keys) (env : Env) (nMinimumInputValue : ℤ)

/-- `AvailableCoinsForStaking`; the sum of the times is an `unsigned int`. -/
def availableCoinsForStaking (nSpendTime : ℕ) (m : MapWallet) : List COutput :=
  ((inOrder (fun a b => a ≤ b) m).filter fun x =>
    (x.2.tx.nTime+env.nStakeMinAge)%2^32 ≤ nSpendTime && V.blocksToMaturity x.2 ≤ 0 &&
      1 ≤ V.depthInMainChain x.2).flatMap fun x =>
    (x.2.tx.vout.zipIdx.filter fun y => !x.2.isSpent y.2 && K.mine y.1.scriptPubKey &&
      nMinimumInputValue ≤ y.1.nValue).map fun y => ⟨x.2,y.2,V.depthInMainChain x.2,true⟩

/-- The coin as `CreateCoinStake` sees it. -/
def stakeCoin (c : COutput) : Option StakeCoin :=
  (c.tx.tx.vout[c.i]?).bind fun out =>
    if h : 0 ≤ out.nValue ∧ c.i < uintMax then
      some ⟨env.hashTx c.tx.tx,c.i,c.tx.tx.nTime,out.nValue,out.scriptPubKey,h.1,h.2⟩
    else none

def stakeCoins (nSpendTime : ℕ) (m : MapWallet) : List StakeCoin :=
  (availableCoinsForStaking V K env nMinimumInputValue nSpendTime m).filterMap (stakeCoin env)

/-- The loop of `SelectCoinsForStaking`. -/
def takeForStaking (nTargetValue : ℤ) : List StakeCoin → ℤ → List StakeCoin
  | [], _ => []
  | c::cs, nValueRet =>
    if nTargetValue ≤ nValueRet then []
    else if nTargetValue ≤ c.nValue then [c]
    else if c.nValue < nTargetValue+cent then c::takeForStaking nTargetValue cs (nValueRet+c.nValue)
    else takeForStaking nTargetValue cs nValueRet

/-- The order of a `std::set` of pointers. -/
structure SetOrder where
  order : List StakeCoin → List StakeCoin
  perm : ∀ cs, (order cs).Perm cs

/-- The wallet that `CreateCoinStake` reads, with its own selection of coins. -/
def stakingWallet (W : StakeWallet) (o : SetOrder) (m : MapWallet) : StakeWallet :=
  { W with
    selectCoinsForStaking := fun nTargetValue nSpendTime =>
      some (o.order (takeForStaking nTargetValue (stakeCoins V K env nMinimumInputValue nSpendTime m) 0)) }

end Staking

end SwippCore.CoinSelection
