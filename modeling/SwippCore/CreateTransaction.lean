import SwippCore.Lib.Raising
import SwippCore.Serialize
import SwippCore.CoinAgeChoice
import SwippCore.KeyPoolRuns

/-!
# Payments

`CreateTransaction` with its passes, and runs of payments with their reserved keys.
-/

set_option autoImplicit false

namespace SwippCore.CreateTransaction
open FinMap AvailableCoins CoinSelection SelectCoins CoinAge
open KeyPool (PoolWallet)
open DarkSendPool (darkSendDenominations)

section Wallet

structure CCoinControl where
  /-- the script of `destChange`; none for `CNoDestination` -/
  destChange : Option CScript
  setSelected : List COutPoint

structure Builder where
  env : Env
  V : CoinView
  K : Keys
  mapWallet : MapWallet
  fromMe : CWalletTx → Bool
  fMinimizeCoinAge : Bool
  nTransactionFee : ℤ
  nDarksendRounds : ℤ
  rounds : COutPoint → ℤ
  setup : KeyPool.Setup
  /-- the script that pays to a key of the pool -/
  keyScript : ℕ → CScript

structure PointerOrder where
  order : Finset CoinId → List CoinId
  nodup : ∀ s, (order s).Nodup
  mem : ∀ s x, x ∈ order s ↔ x ∈ s

structure Draws where
  chance : Chance
  now : Clock
  order : AgeOrder now

structure Pass where
  first : Draws
  second : Draws
  third : Draws
  io : KeyPool.Io
  nRand : ℕ
  order : PointerOrder
  /-- `SignSignature` for an input; none where it fails -/
  signature : CWalletTx → CTransaction → ℕ → Option CScript

variable (B : Builder)

def selectFunction (d : Draws) (q : Request) (vCoins : List COutput) : Option (Bool × Chosen) :=
  if B.fMinimizeCoinAge then CoinAge.selectCoinsMinConfByCoinAge d.now B.fromMe q d.order vCoins
  else some (SelectCoins.selectCoinsMinConf B.fromMe q d.chance vCoins)

def denominatedCoins (nTargetValue v : ℤ) : List COutput → ℕ → Chosen → Chosen
  | [], _, ch => ch
  | out::outs, added, ch =>
    if value out = v ∧ ch.nValueRet+value out < nTargetValue+coin/10+100 ∧ added ≤ 100 then
      if B.rounds (prevout B.env out) < B.nDarksendRounds then denominatedCoins nTargetValue v outs added ch
      else denominatedCoins nTargetValue v outs (added+1) (ch.insert out)
    else denominatedCoins nTargetValue v outs added ch

def onlyDenominated (nTargetValue : ℤ) (vCoins : List COutput) : List ℤ → Chosen → Chosen
  | [], ch => ch
  | v::vs, ch => onlyDenominated nTargetValue vCoins vs (denominatedCoins B nTargetValue v vCoins 0 ch)

def selectedCoins (coinControl : Option CCoinControl) : List COutPoint :=
  (coinControl.map CCoinControl.setSelected).getD []

/-- `SelectCoins`; none where an index is out of range. The coins are those of `AvailableCoins`
with its defaults, whatever type of coins is asked for. -/
def selectCoins (p : Pass) (nTargetValue : ℤ) (nSpendTime : ℕ) (coinControl : Option CCoinControl)
    (coinType : AvailableCoinsType) (_useIX : Bool) : Option (Bool × Chosen) :=
  let vCoins := availableCoins B.V B.K true (selectedCoins coinControl) .allCoins false B.mapWallet
  if coinType = .onlyDenominated then
    let ch := onlyDenominated B nTargetValue vCoins darkSendDenominations Chosen.empty
    some (decide (nTargetValue ≤ ch.nValueRet),ch)
  else if !(selectedCoins coinControl).isEmpty then
    let ch := Chosen.empty.insertAll (vCoins.filter COutput.fSpendable)
    some (decide (nTargetValue ≤ ch.nValueRet),ch)
  else
    (selectFunction B p.first ⟨nTargetValue,nSpendTime,1,10⟩ vCoins).bind fun x =>
      if x.1 then some x
      else (selectFunction B p.second ⟨nTargetValue,nSpendTime,1,1⟩ vCoins).bind fun x =>
        if x.1 then some x else selectFunction B p.third ⟨nTargetValue,nSpendTime,0,1⟩ vCoins

end Wallet

section Change
variable (B : Builder)

/-- `GetReservedKey` with the key; none where it throws, or where an assertion fails. -/
def getReservedKey (r : ℕ) (io : KeyPool.Io) (s : PoolWallet) : Option (ℕ × PoolWallet) :=
  let k := s.reservation r
  if k.nIndex ≠ -1 then k.vchPubKey.map fun key => (key,KeyPool.handOut (some key) s)
  else
    let x := KeyPool.reserveKeyFromKeyPool B.setup io s
    if x.fThrown then none
    else if x.nIndex ≠ -1 then x.vchPubKey.map fun key =>
      (key,KeyPool.handOut (some key) (x.wallet.reserve r ⟨x.nIndex,some key⟩))
    else B.setup.vchDefaultKey.map fun key =>
      (key,KeyPool.handOut (some key) (x.wallet.reserve r ⟨-1,some key⟩))

def backUp (vout : List CTxOut) : ℕ → ℕ
  | 0 => 0
  | p+1 => if ((vout[p+1]?).map CTxOut.nValue).getD 0 ≠ 0 then p+1 else backUp vout p

def insertChange (nRand : ℕ) (change : CTxOut) (vout : List CTxOut) : List CTxOut :=
  let position := backUp vout (nRand%vout.length)
  vout.take position++change::vout.drop position

def changeScript (r : ℕ) (io : KeyPool.Io) (coinControl : Option CCoinControl) (s : PoolWallet) :
    Option (CScript × PoolWallet) :=
  match coinControl.bind CCoinControl.destChange with
  | some script => some (script,s)
  | none => (getReservedKey B r io s).map fun x => (B.keyScript x.1,x.2)

def fillOutputs (r : ℕ) (p : Pass) (coinControl : Option CCoinControl) (nChange : ℤ)
    (vecSend : List CTxOut) (s : PoolWallet) : Option (List CTxOut × PoolWallet) :=
  if 0 < nChange then
    (changeScript B r p.io coinControl s).map fun x => (insertChange p.nRand ⟨nChange,x.1⟩ vecSend,x.2)
  else some (vecSend,KeyPool.returnKey r s)

end Change

section Loop
variable (B : Builder)

def signAll (signature : CWalletTx → CTransaction → ℕ → Option CScript) :
    List CoinId → ℕ → CTransaction → Option CTransaction
  | [], _, tx => some tx
  | x::xs, nIn, tx =>
    (signature x.1 tx nIn).bind fun scriptSig =>
      signAll signature xs (nIn+1) { tx with vin := tx.vin.modify nIn fun i => { i with scriptSig := scriptSig } }

inductive Outcome where
  | created (tx : CTransaction) (nFeeRet : ℤ)
  | refused (strFailReason : String)
  /-- `GetReservedKey` throws, or its assertion fails -/
  | noKey
  /-- the selection by age leaves an array -/
  | outOfRange

/-- `strFailReason` -/
def failReason (coinType : AvailableCoinsType) (useIX : Bool) : String :=
  (match coinType with
  | .allCoins => "Insufficient funds."
  | .onlyNondenominated =>
    "Unable to locate enough Darksend non-denominated funds for this transaction."
  | .onlyNondenominatedNotmn =>
    "Unable to locate enough Darksend non-denominated funds for this transaction that are not equal 1000 Swipp."
  | .onlyDenominated =>
    "Unable to locate enough Darksend denominated funds for this transaction." ++
    "Darksend uses exact denominated amounts to send funds, you might simply need to anonymize some more coins.")++
  if useIX then "InstantX requires inputs with at least 6 confirmations, you might need to wait a few minutes and try again."
  else ""

def feeOf (k : ℕ) : ℤ := max (B.nTransactionFee*(1+k)) (getMinFee 1 .send (1000*k))

structure Call where
  vecSend : List CTxOut
  wtxNew : CTransaction
  coinControl : Option CCoinControl
  coinType : AvailableCoinsType
  useIX : Bool
  /-- the number of the reservation -/
  reservekey : ℕ

def pass (c : Call) (nValue : ℤ) (p : Pass) (nFeeRet : ℤ) (s : PoolWallet) :
    Raising.Turn PoolWallet (Outcome × PoolWallet) :=
  match selectCoins B p (nValue+nFeeRet) c.wtxNew.nTime c.coinControl .allCoins false with
  | none => .ends (.outOfRange,s)
  | some (false,_) => .ends (.refused (failReason c.coinType c.useIX),s)
  | some (true,ch) =>
    match fillOutputs B c.reservekey p c.coinControl (ch.nValueRet-nValue-nFeeRet) c.vecSend s with
    | none => .ends (.noKey,s)
    | some (vout,s) =>
      let setCoins := p.order.order ch.setCoinsRet
      let vin := setCoins.map fun x => (⟨⟨B.env.hashTx x.1.tx,x.2⟩,[],uintMax⟩ : CTxIn)
      match signAll p.signature setCoins 0 { c.wtxNew with vin := vin, vout := vout } with
      | none => .ends (.refused "",s)
      | some tx =>
        let nBytes := tx.serialize.length
        if maxBlockSizeGen/5 ≤ nBytes then .ends (.refused "",s)
        else
          let nPayFee := B.nTransactionFee*(1+(nBytes/1000 : ℕ))
          let nMinFee := getMinFee 1 .send nBytes
          if nFeeRet < max nPayFee nMinFee then .raises (nBytes/1000) s
          else .ends (.created tx nFeeRet,s)

/-- `CreateTransaction` in so many turns. A turn that goes on sets the fee to that of its size. -/
def createTransaction (nTurns : ℕ) (c : Call) (passes : ℕ → Pass) (s : PoolWallet) :
    Option (Outcome × PoolWallet) :=
  match CoinSelection.sendValue (c.vecSend.map CTxOut.nValue) 0 with
  | none => some (.refused "",s)
  | some nValue =>
    if c.vecSend.isEmpty then some (.refused "",s)
    else Raising.loop (feeOf B) (fun i v s => pass B c nValue (passes i) v s) nTurns 0 B.nTransactionFee s

end Loop

end SwippCore.CreateTransaction

namespace SwippCore.PaymentRuns
open FinMap AvailableCoins CoinSelection SelectCoins CreateTransaction
open KeyPool (PoolWallet)
open KeyPoolRuns (reservation_reserve)

section Pool
variable (B : Builder)

structure Owned (s : PoolWallet) : Prop where
  reserved : ∀ r key, (s.reservation r).vchPubKey = some key → key < s.nGenerated
  default : ∀ key, B.setup.vchDefaultKey = some key → key < s.nGenerated

theorem owned_reserve {s : PoolWallet} (hs : Owned B s) (r : ℕ) (x : KeyPool.CReserveKey)
    (hx : ∀ key, x.vchPubKey = some key → key < s.nGenerated) : Owned B (s.reserve r x) where
  reserved r' key hkey := by
    rw [reservation_reserve] at hkey
    split at hkey
    · exact hx key hkey
    · exact hs.reserved r' key hkey
  default := hs.default

theorem owned_more (s s' : PoolWallet) (hs : Owned B s) (hr : s'.reserved = s.reserved)
    (hn : s.nGenerated ≤ s'.nGenerated) : Owned B s' where
  reserved r key hkey := by
    unfold PoolWallet.reservation at hkey
    rw [hr] at hkey
    exact lt_of_lt_of_le (hs.reserved r key hkey) hn
  default key hkey := lt_of_lt_of_le (hs.default key hkey) hn

theorem top_up_grows (io : KeyPool.Io) (n : ℕ) (s : PoolWallet) :
    (KeyPool.topUpLoop io n s).2.reserved = s.reserved ∧
      s.nGenerated ≤ (KeyPool.topUpLoop io n s).2.nGenerated := by
  induction n generalizing s with
  | zero => exact ⟨rfl,le_refl _⟩
  | succ n ih =>
    unfold KeyPool.topUpLoop
    split
    · obtain ⟨hr,hn⟩ := ih (KeyPool.writeKey (KeyPool.nEnd s) s)
      exact ⟨hr,le_trans (Nat.le_succ _) hn⟩
    · exact ⟨rfl,Nat.le_succ _⟩

theorem reserve_grows (S : KeyPool.Setup) (io : KeyPool.Io) (s : PoolWallet) :
    (KeyPool.reserveKeyFromKeyPool S io s).wallet.reserved = s.reserved ∧
    s.nGenerated ≤ (KeyPool.reserveKeyFromKeyPool S io s).wallet.nGenerated ∧
    ∀ key, (KeyPool.reserveKeyFromKeyPool S io s).vchPubKey = some key →
      key < (KeyPool.reserveKeyFromKeyPool S io s).wallet.nGenerated := by
  have htop : (KeyPool.topUpKeyPool S 0 io s).2.reserved = s.reserved ∧
      s.nGenerated ≤ (KeyPool.topUpKeyPool S 0 io s).2.nGenerated := by
    unfold KeyPool.topUpKeyPool
    split
    · exact ⟨rfl,le_refl _⟩
    · exact top_up_grows io _ s
  unfold KeyPool.reserveKeyFromKeyPool
  dsimp only
  split
  · exact ⟨htop.1,htop.2,fun key h => by cases h⟩
  · split
    · exact ⟨htop.1,htop.2,fun key h => by cases h⟩
    · split
      · exact ⟨htop.1,htop.2,fun key h => by cases h⟩
      · split
        · rename_i hread
          refine ⟨htop.1,htop.2,?_⟩
          intro key h
          obtain rfl := Option.some.inj h
          exact of_decide_eq_true (Bool.and_eq_true _ _ ▸ hread).2
        · exact ⟨htop.1,htop.2,fun key h => by cases h⟩

theorem reserved_key_owned {r : ℕ} {io : KeyPool.Io} {s s' : PoolWallet} {key : ℕ} (hs : Owned B s)
    (h : getReservedKey B r io s = some (key,s')) : key < s'.nGenerated ∧ Owned B s' := by
  obtain ⟨hres,hn,hread⟩ := reserve_grows B.setup io s
  have hmore := owned_more B s _ hs hres hn
  unfold getReservedKey at h
  dsimp only at h
  split at h
  · obtain ⟨k,hk,heq⟩ := Option.map_eq_some_iff.mp h
    cases heq
    exact ⟨hs.reserved r key hk,owned_more B s _ hs rfl (le_refl _)⟩
  · split at h
    · cases h
    · split at h
      · obtain ⟨k,hk,heq⟩ := Option.map_eq_some_iff.mp h
        cases heq
        refine ⟨hread key hk,owned_more B _ _ (owned_reserve B hmore r _ ?_) rfl (le_refl _)⟩
        intro k' hk'
        obtain rfl := Option.some.inj hk'
        exact hread key hk
      · obtain ⟨k,hk,heq⟩ := Option.map_eq_some_iff.mp h
        cases heq
        refine ⟨hmore.default key hk,owned_more B _ _ (owned_reserve B hmore r _ ?_) rfl (le_refl _)⟩
        intro k' hk'
        obtain rfl := Option.some.inj hk'
        exact hmore.default key hk

theorem owned_return (r : ℕ) {s : PoolWallet} (hs : Owned B s) :
    Owned B (KeyPool.returnKey r s) := by
  unfold KeyPool.returnKey
  dsimp only
  split
  · have hmore := owned_more B s { s with setKeyPool := s.setKeyPool.insert (s.reservation r).nIndex } hs
      rfl (le_refl _)
    exact owned_reserve B hmore r ⟨-1,none⟩ fun key h => by cases h
  · exact owned_reserve B hs r ⟨-1,none⟩ fun key h => by cases h

end Pool

section Outputs
variable (B : Builder)

def PaysOwn (coinControl : Option CCoinControl) (s : PoolWallet) (script : CScript) : Prop :=
  coinControl.bind CCoinControl.destChange = some script ∨
    coinControl.bind CCoinControl.destChange = none ∧ ∃ key < s.nGenerated, script = B.keyScript key

def Completes (coinControl : Option CCoinControl) (s : PoolWallet) (nChange : ℤ) (vecSend vout : List CTxOut) :
    Prop :=
  ∃ before change after, vecSend = before++after ∧ vout = before++change++after ∧ change.length ≤ 1 ∧
    (change.map CTxOut.nValue).sum = nChange ∧
    ∀ out ∈ change, 0 < out.nValue ∧ PaysOwn B coinControl s out.scriptPubKey

theorem change_script_owned {r : ℕ} {io : KeyPool.Io} {coinControl : Option CCoinControl}
    {s s' : PoolWallet} {script : CScript} (hs : Owned B s)
    (h : changeScript B r io coinControl s = some (script,s')) :
    Owned B s' ∧ PaysOwn B coinControl s' script := by
  unfold changeScript at h
  cases hdest : coinControl.bind CCoinControl.destChange with
  | some dest =>
    rw [hdest] at h
    cases h
    exact ⟨hs,Or.inl hdest⟩
  | none =>
    rw [hdest] at h
    obtain ⟨⟨key,t⟩,hkey,heq⟩ := Option.map_eq_some_iff.mp h
    cases heq
    obtain ⟨hlt,hown⟩ := reserved_key_owned B hs hkey
    exact ⟨hown,Or.inr ⟨hdest,key,hlt,rfl⟩⟩

theorem fill_outputs_complete {r : ℕ} {p : Pass} {coinControl : Option CCoinControl} {nChange : ℤ}
    {vecSend vout : List CTxOut} {s s' : PoolWallet} (hs : Owned B s)
    (h : fillOutputs B r p coinControl nChange vecSend s = some (vout,s')) :
    Owned B s' ∧ (0 ≤ nChange → Completes B coinControl s' nChange vecSend vout) := by
  unfold fillOutputs at h
  split at h
  · rename_i hpos
    obtain ⟨⟨script,t⟩,hscript,heq⟩ := Option.map_eq_some_iff.mp h
    cases heq
    obtain ⟨hown,hpays⟩ := change_script_owned B hs hscript
    refine ⟨hown,fun _ => ⟨vecSend.take (backUp vecSend (p.nRand%vecSend.length)),[⟨nChange,script⟩],
      vecSend.drop (backUp vecSend (p.nRand%vecSend.length)),(List.take_append_drop _ _).symm,?_,le_refl _,?_,?_⟩⟩
    · rw [List.append_assoc]
      rfl
    · rw [List.map_singleton, List.sum_singleton]
    · intro out hout
      obtain rfl := List.mem_singleton.mp hout
      exact ⟨hpos,hpays⟩
  · rename_i hnot
    cases h
    refine ⟨owned_return B r hs,fun hnonneg => ⟨vecSend,[],[],(List.append_nil _).symm,?_,Nat.zero_le _,?_,?_⟩⟩
    · rw [List.append_nil, List.append_nil]
    · rw [List.map_nil, List.sum_nil]
      omega
    · intro out hout
      cases hout

end Outputs

section Fee
variable (B : Builder)

variable (nBytes : ℕ)

theorem min_fee_send :
    getMinFee 1 .send nBytes =
      if moneyRange ((1+(nBytes/1000 : ℕ))*minTxFee) then (1+(nBytes/1000 : ℕ))*minTxFee else maxMoney := rfl

theorem min_fee_positive : 0 < getMinFee 1 .send nBytes := by
  have hbase : (0 : ℤ) < minTxFee := by decide
  rw [min_fee_send]
  split
  · exact mul_pos (by omega) hbase
  · decide

theorem fee_of_size :
    max (B.nTransactionFee*(1+(nBytes/1000 : ℕ))) (getMinFee 1 .send nBytes) = feeOf B (nBytes/1000) := by
  have hdiv : 1000*(nBytes/1000)/1000 = nBytes/1000 := Nat.mul_div_cancel_left _ (by decide)
  unfold feeOf
  rw [min_fee_send, min_fee_send, hdiv]

end Fee

section Coins

/-- A wallet whose entries are under their hashes, with amounts in the money range and keys of
its own. -/
structure Holdings where
  builder : Builder
  pool : PoolWallet
  keyed : ∀ k w, builder.mapWallet.lookup k = some w → w.tx.vout ≠ [] → builder.env.hashTx w.tx = k
  inRange : ∀ k w, builder.mapWallet.lookup k = some w → ∀ out ∈ w.tx.vout, out.nValue ≤ maxMoney
  owned : Owned builder pool

variable (H : Holdings)

def Holdings.offered (coinControl : Option CCoinControl) : List COutput :=
  availableCoins H.builder.V H.builder.K true (selectedCoins coinControl) .allCoins false H.builder.mapWallet

theorem mem_outputs_of {V : CoinView} {K : Keys} {coinControl : List COutPoint}
    {coinType : AvailableCoinsType} {hash : Uint256} {w : CWalletTx} {c : COutput}
    (hc : c ∈ outputsOf V K coinControl coinType hash w) :
    c.tx = w ∧ ∃ out, w.tx.vout[c.i]? = some out ∧ 0 < out.nValue := by
  obtain ⟨x,hx,rfl⟩ := List.mem_map.mp hc
  obtain ⟨hx,hoffer⟩ := List.mem_filter.mp hx
  refine ⟨rfl,x.1,List.mem_zipIdx_iff_getElem?.mp hx,?_⟩
  simp only [offersOutput, Bool.and_eq_true, decide_eq_true_eq] at hoffer
  exact hoffer.1.2

theorem outputs_of_distinct (V : CoinView) (K : Keys) (coinControl : List COutPoint)
    (coinType : AvailableCoinsType) (hash : Uint256) (w : CWalletTx) :
    ((outputsOf V K coinControl coinType hash w).map key).Nodup := by
  have hidx : (w.tx.vout.zipIdx.map fun x => (w,x.2)).Nodup := by
    have hmap : (w.tx.vout.zipIdx.map fun x => (w,x.2)) =
        (w.tx.vout.zipIdx.map Prod.snd).map fun i => (w,i) := by
      rw [List.map_map]
      rfl
    rw [hmap, List.zipIdx_map_snd]
    apply List.Nodup.map
    · intro i j h
      exact (Prod.mk.inj h).2
    · exact List.nodup_range'
  unfold outputsOf
  rw [List.map_map]
  exact hidx.sublist (List.filter_sublist.map _)

variable (coinControl : Option CCoinControl)

theorem offered_distinct : ((H.offered coinControl).map key).Nodup := by
  unfold Holdings.offered availableCoins
  rw [List.map_flatMap, List.nodup_flatMap]
  constructor
  · intro x _
    exact outputs_of_distinct _ _ _ _ x.1 x.2
  · have hkeys : ((inOrder (fun a b => a ≤ b) H.builder.mapWallet).map Sigma.fst).Nodup :=
      ((in_order_perm _ H.builder.mapWallet).map Sigma.fst).nodup_iff.mpr H.builder.mapWallet.nodupKeys
    have hpairs := List.pairwise_map.mp hkeys
    apply (hpairs.filter _).imp_of_mem
    intro x y hx hy hne z hzx hzy
    obtain ⟨c,hc,rfl⟩ := List.mem_map.mp hzx
    obtain ⟨d,hd,heq⟩ := List.mem_map.mp hzy
    obtain ⟨htx,out,hout,_⟩ := mem_outputs_of hc
    obtain ⟨htx',_⟩ := mem_outputs_of hd
    have hw : y.2 = x.2 := by
      rw [← htx, ← htx']
      exact congrArg Prod.fst heq
    have hvout : x.2.tx.vout ≠ [] := by
      intro hnil
      rw [hnil] at hout
      cases hout
    have hlx := (mem_in_order _ H.builder.mapWallet x.1 x.2).mp (List.mem_filter.mp hx).1
    have hly := (mem_in_order _ H.builder.mapWallet y.1 y.2).mp (List.mem_filter.mp hy).1
    rw [hw] at hly
    exact hne ((H.keyed _ _ hlx hvout).symm.trans (H.keyed _ _ hly hvout))

theorem mem_offered {c : COutput} (hc : c ∈ H.offered coinControl) :
    ∃ out, H.builder.mapWallet.lookup (H.builder.env.hashTx c.tx.tx) = some c.tx ∧
      c.tx.tx.vout[c.i]? = some out ∧ 0 < out.nValue ∧ out.nValue ≤ maxMoney := by
  obtain ⟨x,hx,hc⟩ := List.mem_flatMap.mp hc
  obtain ⟨htx,out,hout,hpos⟩ := mem_outputs_of hc
  have hlook := (mem_in_order _ H.builder.mapWallet x.1 x.2).mp (List.mem_filter.mp hx).1
  rw [← htx] at hlook hout
  have hvout : c.tx.tx.vout ≠ [] := by
    intro hnil
    rw [hnil] at hout
    cases hout
  rw [H.keyed _ _ hlook hvout]
  exact ⟨out,hlook,hout,hpos,H.inRange _ _ hlook out (List.mem_of_getElem? hout)⟩

def Holdings.coins (coinControl : Option CCoinControl) : Coins where
  coins := H.offered coinControl
  distinct := offered_distinct H coinControl
  range c hc := by
    obtain ⟨out,_,hout,hpos,hmax⟩ := mem_offered H coinControl hc
    unfold CoinSelection.value
    rw [hout]
    exact ⟨le_of_lt hpos,hmax⟩

theorem offered_pos (c : COutput) (hc : c ∈ H.offered coinControl) : 0 < value c := by
  obtain ⟨out,_,hout,hpos,_⟩ := mem_offered H coinControl hc
  unfold CoinSelection.value
  rw [hout]
  exact hpos

/-- The selection by age has nothing to reach, and no coin of its first list is near that. -/
def Strays (nTargetValue : ℤ) (nSpendTime : ℕ) (coinControl : Option CCoinControl) : Prop :=
  H.builder.fMinimizeCoinAge = true ∧ selectedCoins coinControl = [] ∧ nTargetValue ≤ 0 ∧
    CoinAge.smallCoins H.builder.fromMe ⟨nTargetValue,nSpendTime,1,10⟩ (H.offered coinControl) = []

theorem offered_near {q : Request}
    (h : CoinAge.smallCoins H.builder.fromMe q (H.offered coinControl) ≠ []) :
    CoinAge.Near H.builder.fromMe q (H.offered coinControl) := by
  obtain ⟨c,hc⟩ := List.exists_mem_of_ne_nil _ h
  exact ⟨c,hc,offered_pos H coinControl c (List.mem_filter.mp (List.mem_filter.mp hc).1).1⟩

theorem pays_of_subset {cs ds : List COutput} {nTargetValue : ℤ} {ch : Chosen} (hsub : cs ⊆ ds)
    (h : Pays cs nTargetValue ch) : Pays ds nTargetValue ch := by
  refine ⟨?_,h.sum,h.reach⟩
  intro x hx
  obtain ⟨c,hc,rfl⟩ := List.mem_map.mp (List.mem_toFinset.mp (h.subset hx))
  exact List.mem_toFinset.mpr (List.mem_map.mpr ⟨c,hsub hc,rfl⟩)

theorem select_function_pays (d : Draws) (q : Request)
    (hnear : H.builder.fMinimizeCoinAge = true → 0 < q.nTargetValue ∨
      CoinAge.Near H.builder.fromMe q (H.offered coinControl)) :
    ∃ x, selectFunction H.builder d q (H.offered coinControl) = some x ∧
      (H.builder.fMinimizeCoinAge = true → q.nTargetValue ≤ 0 → x.1 = true) ∧
      (x.1 = true → Pays (H.offered coinControl) q.nTargetValue x.2) := by
  unfold selectFunction
  split
  · rename_i hage
    obtain ⟨x,hx,hnothing,hpays⟩ :=
      CoinAge.by_age_pays d.now H.builder.fromMe q d.order (H.coins coinControl) (hnear hage)
    refine ⟨x,hx,fun _ => hnothing,fun h => pays_of_subset ?_ (hpays h)⟩
    exact List.filter_subset_self _
  · rename_i hplain
    obtain ⟨_,hpays⟩ := select_plain H.builder.fromMe q d.chance (H.coins coinControl)
    refine ⟨_,rfl,fun hage => absurd hage hplain,fun h => pays_of_subset ?_ (hpays h)⟩
    exact List.Subset.trans (List.filter_subset_self _) (List.filter_subset_self _)

theorem select_coins_strays (p : Pass) {nTargetValue : ℤ} {nSpendTime : ℕ}
    {coinControl : Option CCoinControl} (h : Strays H nTargetValue nSpendTime coinControl) :
    CreateTransaction.selectCoins H.builder p nTargetValue nSpendTime coinControl .allCoins false =
      none := by
  obtain ⟨hage,hcontrol,htarget,hnone⟩ := h
  have hfirst : selectFunction H.builder p.first ⟨nTargetValue,nSpendTime,1,10⟩
      (H.offered coinControl) = none := by
    unfold selectFunction
    rw [if_pos hage]
    exact CoinAge.by_age_missing p.first.now H.builder.fromMe _ p.first.order (H.coins coinControl)
      htarget hnone
  unfold CreateTransaction.selectCoins
  dsimp only
  rw [if_neg (by decide), hcontrol, if_neg (by decide), ← hcontrol]
  change (selectFunction H.builder p.first ⟨nTargetValue,nSpendTime,1,10⟩
    (H.offered coinControl)).bind _ = none
  rw [hfirst, Option.bind_none]

theorem select_coins_pays (p : Pass) (nTargetValue : ℤ) (nSpendTime : ℕ)
    (coinControl : Option CCoinControl) (hnear : ¬ Strays H nTargetValue nSpendTime coinControl) :
    ∃ x, CreateTransaction.selectCoins H.builder p nTargetValue nSpendTime coinControl .allCoins false = some x ∧
      (x.1 = true → Pays (H.offered coinControl) nTargetValue x.2) := by
  unfold CreateTransaction.selectCoins
  dsimp only
  rw [if_neg (by decide)]
  split
  · refine ⟨_,rfl,fun h => ?_⟩
    have hsub : ((H.offered coinControl).filter COutput.fSpendable).Subperm (H.offered coinControl) :=
      List.filter_sublist.subperm
    have hreach := of_decide_eq_true h
    rw [(insert_all_eq _ Chosen.empty).2] at hreach
    apply pays_of_sublist (offered_distinct H coinControl) hsub
    rw [show Chosen.empty.nValueRet = 0 from rfl, zero_add] at hreach
    exact hreach
  · rename_i hcontrol
    have hempty : selectedCoins coinControl = [] := by
      simpa only [Bool.not_eq_true', Bool.not_eq_false, List.isEmpty_iff] using hcontrol
    obtain ⟨x,hx,hnothing,hpays⟩ :=
      select_function_pays H coinControl p.first ⟨nTargetValue,nSpendTime,1,10⟩ (by
        intro hage
        rcases lt_or_ge 0 nTargetValue with htarget | htarget
        · exact Or.inl htarget
        · exact Or.inr (offered_near H coinControl fun hnone => hnear ⟨hage,hempty,htarget,hnone⟩))
    change ∃ r, (selectFunction H.builder p.first ⟨nTargetValue,nSpendTime,1,10⟩
      (H.offered coinControl)).bind _ = some r ∧ _
    rw [hx, Option.bind_some]
    split
    · exact ⟨x,rfl,hpays⟩
    · rename_i hfailed
      have htarget : H.builder.fMinimizeCoinAge = true → 0 < nTargetValue :=
        fun hage => not_le.mp fun hle => hfailed (hnothing hage hle)
      obtain ⟨y,hy,_,hpays'⟩ := select_function_pays H coinControl p.second
        ⟨nTargetValue,nSpendTime,1,1⟩ fun hage => Or.inl (htarget hage)
      obtain ⟨z,hz,_,hpays''⟩ := select_function_pays H coinControl p.third
        ⟨nTargetValue,nSpendTime,0,1⟩ fun hage => Or.inl (htarget hage)
      change ∃ r, (selectFunction H.builder p.second ⟨nTargetValue,nSpendTime,1,1⟩
        (H.offered coinControl)).bind _ = some r ∧ _
      rw [hy, Option.bind_some]
      split
      · exact ⟨y,rfl,hpays'⟩
      · exact ⟨z,hz,hpays''⟩

end Coins

section Inputs

theorem modify_prevouts (vin : List CTxIn) (nIn : ℕ) (scriptSig : CScript) :
    (vin.modify nIn fun i => { i with scriptSig := scriptSig }).map CTxIn.prevout =
      vin.map CTxIn.prevout := by
  induction vin generalizing nIn with
  | nil => rw [List.modify_nil]
  | cons i vin ih =>
    cases nIn with
    | zero => rfl
    | succ nIn => rw [List.modify_succ_cons, List.map_cons, List.map_cons, ih]

theorem sign_all_kept {signature : CWalletTx → CTransaction → ℕ → Option CScript} {xs : List CoinId}
    (nIn : ℕ) (tx tx' : CTransaction) (h : signAll signature xs nIn tx = some tx') :
    tx'.vout = tx.vout ∧ tx'.prevouts = tx.prevouts := by
  induction xs generalizing nIn tx with
  | nil =>
    cases h
    exact ⟨rfl,rfl⟩
  | cons x xs ih =>
    obtain ⟨scriptSig,_,h⟩ := Option.bind_eq_some_iff.mp h
    obtain ⟨hout,hin⟩ := ih _ _ h
    exact ⟨hout,hin.trans (modify_prevouts tx.vin nIn scriptSig)⟩

variable (H : Holdings)

def outPoint (x : CoinId) : COutPoint := ⟨H.builder.env.hashTx x.1.tx,x.2⟩

def Holdings.spentOutput (o : COutPoint) : Option CTxOut :=
  (H.builder.mapWallet.lookup o.hash).bind fun w => w.tx.vout[o.n]?

def Holdings.inputValue (o : COutPoint) : ℤ := ((H.spentOutput o).map CTxOut.nValue).getD 0

theorem mem_keys {coinControl : Option CCoinControl} {x : CoinId}
    (hx : x ∈ ((H.offered coinControl).map key).toFinset) :
    ∃ out, H.builder.mapWallet.lookup (H.builder.env.hashTx x.1.tx) = some x.1 ∧
      x.1.tx.vout[x.2]? = some out := by
  obtain ⟨c,hc,rfl⟩ := List.mem_map.mp (List.mem_toFinset.mp hx)
  obtain ⟨out,hlook,hout,_⟩ := mem_offered H coinControl hc
  exact ⟨out,hlook,hout⟩

/-- The inputs are coins of the wallet, each once, with the value that the selection counted. -/
theorem spent_coins {coinControl : Option CCoinControl} (order : PointerOrder) {s : Finset CoinId}
    (hs : s ⊆ ((H.offered coinControl).map key).toFinset) :
    ((order.order s).map (outPoint H)).Nodup ∧
      (∀ o ∈ (order.order s).map (outPoint H), (H.spentOutput o).isSome = true) ∧
      (((order.order s).map (outPoint H)).map H.inputValue).sum = ∑ x ∈ s, amount x := by
  have hmem : ∀ x ∈ order.order s, ∃ out,
      H.builder.mapWallet.lookup (H.builder.env.hashTx x.1.tx) = some x.1 ∧ x.1.tx.vout[x.2]? = some out :=
    fun x hx => mem_keys H (hs ((order.mem s x).mp hx))
  have hvalue : ∀ x ∈ order.order s, H.inputValue (outPoint H x) = amount x := by
    intro x hx
    obtain ⟨out,hlook,hout⟩ := hmem x hx
    unfold Holdings.inputValue Holdings.spentOutput outPoint amount
    rw [hlook, Option.bind_some]
  refine ⟨?_,?_,?_⟩
  · apply List.Nodup.map_on _ (order.nodup s)
    intro x hx y hy heq
    obtain ⟨_,hlook,_⟩ := hmem x hx
    obtain ⟨_,hlook',_⟩ := hmem y hy
    have hhash : H.builder.env.hashTx x.1.tx = H.builder.env.hashTx y.1.tx := congrArg COutPoint.hash heq
    rw [hhash, hlook'] at hlook
    exact Prod.ext (Option.some.inj hlook).symm (congrArg COutPoint.n heq)
  · intro o ho
    obtain ⟨x,hx,rfl⟩ := List.mem_map.mp ho
    obtain ⟨out,hlook,hout⟩ := hmem x hx
    unfold Holdings.spentOutput outPoint
    rw [hlook, Option.bind_some, hout]
    rfl
  · have hset : (order.order s).toFinset = s := by
      ext x
      rw [List.mem_toFinset, order.mem]
    have hmap : ((order.order s).map (outPoint H)).map H.inputValue = (order.order s).map amount := by
      rw [List.map_map]
      exact List.map_congr_left hvalue
    rw [hmap, ← List.sum_toFinset amount (order.nodup s), hset]

end Inputs

section Passes
variable (B : Builder) (c : Call)

inductive PassCase (nValue : ℤ) (p : Pass) (nFeeRet : ℤ) (s : PoolWallet) :
    Raising.Turn PoolWallet (Outcome × PoolWallet) → Prop where
  | outOfRange (hsel : CreateTransaction.selectCoins B p (nValue+nFeeRet) c.wtxNew.nTime
      c.coinControl .allCoins false = none) : PassCase nValue p nFeeRet s (.ends (.outOfRange,s))
  | refused (strFailReason : String) (s' : PoolWallet) :
    PassCase nValue p nFeeRet s (.ends (.refused strFailReason,s'))
  | noKey : PassCase nValue p nFeeRet s (.ends (.noKey,s))
  | raises (nChange : ℤ) (vout : List CTxOut) (s' : PoolWallet) (k : ℕ)
    (hfill : fillOutputs B c.reservekey p c.coinControl nChange c.vecSend s = some (vout,s'))
    (hk : k < 600) (hless : nFeeRet < feeOf B k) : PassCase nValue p nFeeRet s (.raises k s')
  | created (ch : Chosen) (vout : List CTxOut) (s' : PoolWallet) (tx : CTransaction)
    (hsel : CreateTransaction.selectCoins B p (nValue+nFeeRet) c.wtxNew.nTime
      c.coinControl .allCoins false = some (true,ch))
    (hfill : fillOutputs B c.reservekey p c.coinControl (ch.nValueRet-nValue-nFeeRet)
      c.vecSend s = some (vout,s'))
    (hsign : signAll p.signature (p.order.order ch.setCoinsRet) 0 { c.wtxNew with
      vin := (p.order.order ch.setCoinsRet).map fun x => ⟨⟨B.env.hashTx x.1.tx,x.2⟩,[],uintMax⟩
      vout := vout } = some tx)
    (hfee : feeOf B (tx.serialize.length/1000) ≤ nFeeRet) :
    PassCase nValue p nFeeRet s (.ends (.created tx nFeeRet,s'))

theorem pass_cases (nValue : ℤ) (p : Pass) (nFeeRet : ℤ) (s : PoolWallet) :
    PassCase B c nValue p nFeeRet s (pass B c nValue p nFeeRet s) := by
  unfold CreateTransaction.pass
  split
  · rename_i hsel
    exact .outOfRange hsel
  · exact .refused _ s
  · rename_i ch hsel
    split
    · exact .noKey
    · rename_i vout s' hfill
      dsimp only
      split
      · exact .refused _ s'
      · rename_i tx hsign
        split
        · exact .refused _ s'
        · rename_i hsize
          rw [fee_of_size]
          have hmax : maxBlockSizeGen/5 = 600000 := rfl
          split
          · rename_i hless
            exact .raises _ vout s' _ hfill (by omega) hless
          · rename_i henough
            exact .created ch vout s' tx hsel hfill hsign (not_lt.mp henough)

end Passes

section Runs
variable (H : Holdings) (c : Call)

structure Paid (tx : CTransaction) (nFeeRet : ℤ) (s : PoolWallet) : Prop where
  distinct : tx.prevouts.Nodup
  known : ∀ o ∈ tx.prevouts, (H.spentOutput o).isSome = true
  outputs : ∃ nChange, Completes H.builder c.coinControl s nChange c.vecSend tx.vout
  balance : (tx.prevouts.map H.inputValue).sum-(tx.vout.map CTxOut.nValue).sum = nFeeRet
  fee : max (H.builder.nTransactionFee*(1+(tx.serialize.length/1000 : ℕ)))
    (getMinFee 1 .send tx.serialize.length) ≤ nFeeRet

variable {s : PoolWallet}

theorem completes_total {coinControl : Option CCoinControl} {nChange : ℤ}
    {vecSend vout : List CTxOut} (h : Completes H.builder coinControl s nChange vecSend vout) :
    (vout.map CTxOut.nValue).sum = (vecSend.map CTxOut.nValue).sum+nChange := by
  obtain ⟨before,change,after,rfl,rfl,_,hchange,_⟩ := h
  rw [List.map_append, List.map_append, List.map_append, List.sum_append, List.sum_append,
    List.sum_append, hchange]
  omega

theorem fee_positive (k : ℕ) : 0 < feeOf H.builder k :=
  lt_of_lt_of_le (min_fee_positive _) (le_max_right _ _)

variable {nFeeRet nValue : ℤ} {p : Pass}

theorem signed_paid (hsum : (c.vecSend.map CTxOut.nValue).sum = nValue)
    {ch : Chosen} (hpays : Pays (H.offered c.coinControl) (nValue+nFeeRet) ch)
    {vout : List CTxOut}
    (hout : Completes H.builder c.coinControl s (ch.nValueRet-nValue-nFeeRet) c.vecSend vout)
    {tx : CTransaction}
    (hsign : signAll p.signature (p.order.order ch.setCoinsRet) 0 { c.wtxNew with
      vin := (p.order.order ch.setCoinsRet).map fun x => ⟨⟨H.builder.env.hashTx x.1.tx,x.2⟩,[],uintMax⟩
      vout := vout } = some tx)
    (hfee : feeOf H.builder (tx.serialize.length/1000) ≤ nFeeRet) : Paid H c tx nFeeRet s := by
  obtain ⟨hvout,hvin⟩ := sign_all_kept _ _ _ hsign
  have hprevouts : tx.prevouts = (p.order.order ch.setCoinsRet).map (outPoint H) := by
    rw [hvin]
    unfold CTransaction.prevouts
    rw [List.map_map]
    rfl
  obtain ⟨hdistinct,hknown,hvalue⟩ := spent_coins H p.order hpays.subset
  have htotal := completes_total H hout
  rw [← hprevouts] at hdistinct hknown hvalue
  refine ⟨hdistinct,hknown,⟨_,by rw [hvout]; exact hout⟩,?_,?_⟩
  · rw [hvalue, ← hpays.sum, hvout, htotal, hsum]
    omega
  · rw [fee_of_size]
    exact hfee

theorem raises_owned {s' : PoolWallet} {k : ℕ} (hs : Owned H.builder s)
    (h : pass H.builder c nValue p nFeeRet s = .raises k s') :
    k < 600 ∧ nFeeRet < feeOf H.builder k ∧ Owned H.builder s' := by
  have hcase := pass_cases H.builder c nValue p nFeeRet s
  rw [h] at hcase
  cases hcase with
  | raises nChange vout _ _ hfill hk hless =>
    exact ⟨hk,hless,(fill_outputs_complete H.builder hs hfill).1⟩

theorem selected_pays (hnonneg : 0 ≤ nValue) {ch : Chosen} {k : ℕ}
    (hsel : CreateTransaction.selectCoins H.builder p (nValue+nFeeRet) c.wtxNew.nTime
      c.coinControl .allCoins false = some (true,ch)) (hfee : feeOf H.builder k ≤ nFeeRet) :
    Pays (H.offered c.coinControl) (nValue+nFeeRet) ch := by
  have hpos := fee_positive H k
  obtain ⟨x,hx,hpays⟩ := select_coins_pays H p (nValue+nFeeRet) c.wtxNew.nTime c.coinControl
    fun hstrays => absurd hstrays.2.2.1 (by omega)
  rw [hsel] at hx
  obtain rfl := Option.some.inj hx
  exact hpays rfl

theorem created_paid {fee : ℤ} (hsum : (c.vecSend.map CTxOut.nValue).sum = nValue)
    (hnonneg : 0 ≤ nValue) {s' : PoolWallet} {tx : CTransaction} (hs : Owned H.builder s)
    (h : pass H.builder c nValue p nFeeRet s = .ends (.created tx fee,s')) :
    Paid H c tx fee s' := by
  have hcase := pass_cases H.builder c nValue p nFeeRet s
  rw [h] at hcase
  cases hcase with
  | created ch vout _ _ hsel hfill hsign hfee =>
    obtain ⟨_,hcompletes⟩ := fill_outputs_complete H.builder hs hfill
    have hpays := selected_pays H c hnonneg hsel hfee
    have hreach := hpays.reach
    exact signed_paid H c hsum hpays (hcompletes (by omega)) hsign hfee

theorem pass_in_range (hnear : ¬ Strays H (nValue+nFeeRet) c.wtxNew.nTime c.coinControl)
    (p : Pass) (s s' : PoolWallet) :
    pass H.builder c nValue p nFeeRet s ≠ .ends (.outOfRange,s') := by
  intro h
  have hcase := pass_cases H.builder c nValue p nFeeRet s
  rw [h] at hcase
  cases hcase with
  | outOfRange hsel =>
    obtain ⟨x,hx,_⟩ := select_coins_pays H p (nValue+nFeeRet) c.wtxNew.nTime c.coinControl hnear
    rw [hsel] at hx
    cases hx

theorem send_value_sum {vs : List ℤ} (nValue total : ℤ) (h : sendValue vs nValue = some total) :
    total = nValue+vs.sum ∧ 0 ≤ total := by
  induction vs generalizing nValue with
  | nil =>
    unfold sendValue at h
    split at h
    · cases h
    · cases h
      rw [List.sum_nil]
      omega
  | cons v vs ih =>
    unfold sendValue at h
    split at h
    · cases h
    · obtain ⟨heq,hnonneg⟩ := ih (nValue+v) h
      rw [List.sum_cons]
      omega

/-- The call comes to its first selection, and this one strays. -/
def CallStrays : Prop :=
  c.vecSend ≠ [] ∧ (sendValue (c.vecSend.map CTxOut.nValue) 0).isSome = true ∧
    Strays H ((c.vecSend.map CTxOut.nValue).sum+H.builder.nTransactionFee) c.wtxNew.nTime c.coinControl

structure LastTurn (passes : ℕ → Pass) (o : Outcome × PoolWallet) : Prop where
  range : ¬ CallStrays H c → o.1 ≠ .outOfRange
  made : ∀ tx nFeeRet, o.1 = .created tx nFeeRet → ∃ i s, Owned H.builder s ∧
    0 ≤ (c.vecSend.map CTxOut.nValue).sum ∧
    pass H.builder c (c.vecSend.map CTxOut.nValue).sum (passes i) nFeeRet s = .ends (.created tx nFeeRet,o.2)

theorem ends_in_turn (passes : ℕ → Pass) : ∃ o : Outcome × PoolWallet, LastTurn H c passes o ∧
    ∀ nTurns, 600 < nTurns →
      CreateTransaction.createTransaction H.builder nTurns c passes H.pool = some o := by
  unfold CreateTransaction.createTransaction
  cases hsend : sendValue (c.vecSend.map CTxOut.nValue) 0 with
  | none => exact ⟨_,⟨fun _ h => (by cases h),fun tx fee h => (by cases h)⟩,fun nTurns _ => rfl⟩
  | some nValue =>
    dsimp only
    split
    · exact ⟨_,⟨fun _ h => (by cases h),fun tx fee h => (by cases h)⟩,fun nTurns _ => rfl⟩
    · rename_i hsome
      obtain ⟨rfl,hnonneg⟩ := send_value_sum 0 nValue hsend
      rw [zero_add] at hnonneg ⊢
      obtain ⟨o,hlast,hloop⟩ := Raising.loop_ends (feeOf H.builder) 600
        (fun i v s => pass H.builder c (c.vecSend.map CTxOut.nValue).sum (passes i) v s)
        -- a later fee is that of a size, so only the first target may be zero
        (fun v s => (v = H.builder.nTransactionFee ∨ 0 < v) ∧ Owned H.builder s)
        (LastTurn H c passes)
        (by
          rintro i v s k s' ⟨_,hs⟩ hrun
          obtain ⟨hk,hlt,hown⟩ := raises_owned H c hs hrun
          exact ⟨hk,hlt,Or.inr (fee_positive H k),hown⟩)
        (by
          rintro i v s ⟨r,s'⟩ ⟨hv,hs⟩ hrun
          constructor
          · rintro hnear rfl
            refine pass_in_range H c (fun hstrays => ?_) (passes i) s s' hrun
            rcases hv with rfl | hpos
            · exact hnear ⟨fun hnil => hsome (by rw [hnil]; rfl),by rw [hsend]; rfl,hstrays⟩
            · exact absurd hstrays.2.2.1 (by omega)
          · rintro tx fee rfl
            have hcase := pass_cases H.builder c (c.vecSend.map CTxOut.nValue).sum (passes i) v s
            rw [hrun] at hcase
            cases hcase
            exact ⟨i,s,hs,hnonneg,hrun⟩)
        0 H.builder.nTransactionFee H.pool ⟨Or.inl rfl,H.owned⟩
      refine ⟨o,hlast,?_⟩
      intro nTurns hmany
      exact hloop nTurns (lt_of_le_of_lt (Raising.above_card_le _ _ _) hmany)

theorem strays_at_once (passes : ℕ → Pass) (h : CallStrays H c) (m : ℕ) :
    CreateTransaction.createTransaction H.builder (m+1) c passes H.pool =
      some (.outOfRange,H.pool) := by
  obtain ⟨hne,hsome,hstrays⟩ := h
  obtain ⟨nValue,hsend⟩ := Option.isSome_iff_exists.mp hsome
  obtain ⟨rfl,_⟩ := send_value_sum 0 nValue hsend
  unfold CreateTransaction.createTransaction
  rw [hsend, zero_add]
  dsimp only
  rw [if_neg (fun hempty => hne (List.isEmpty_iff.mp hempty))]
  unfold Raising.loop CreateTransaction.pass
  rw [select_coins_strays H (passes 0) hstrays]

/-- `CreateTransaction` ends; it stays within its arrays and what it makes pays, exactly where its
first selection does not stray. -/
theorem create_transaction_pays (passes : ℕ → Pass) : ∃ o : Outcome × PoolWallet,
    (∀ nTurns, 600 < nTurns →
      CreateTransaction.createTransaction H.builder nTurns c passes H.pool = some o) ∧
    ((o.1 ≠ .outOfRange ∧ ∀ tx nFeeRet, o.1 = .created tx nFeeRet → Paid H c tx nFeeRet o.2) ↔
      ¬ CallStrays H c) := by
  obtain ⟨o,hlast,hends⟩ := ends_in_turn H c passes
  refine ⟨o,hends,?_,fun hnear => ⟨hlast.range hnear,?_⟩⟩
  · rintro ⟨hrange,_⟩ hstrays
    have hend := hends 601 (by decide)
    rw [strays_at_once H c passes hstrays] at hend
    obtain rfl := Option.some.inj hend
    exact hrange rfl
  · intro tx nFeeRet hmade
    obtain ⟨i,s,hs,hnonneg,hpass⟩ := hlast.made tx nFeeRet hmade
    exact created_paid H c rfl hnonneg hs hpass

end Runs

section Samples

noncomputable def PointerOrder.listed : PointerOrder where
  order := Finset.toList
  nodup := Finset.nodup_toList
  mem _ _ := Finset.mem_toList

theorem order_singleton (order : PointerOrder) (x : CoinId) : order.order {x} = [x] := by
  apply List.perm_singleton.mp
  rw [List.perm_ext_iff_of_nodup (order.nodup _) (List.nodup_singleton x)]
  intro y
  rw [order.mem, Finset.mem_singleton, List.mem_singleton]

def stillDraws : Draws := ⟨.still,fun _ => 0,.merge _⟩

noncomputable def stillPass : Pass where
  first := stillDraws
  second := stillDraws
  third := stillDraws
  io := ⟨fun _ => .written,fun _ => true,true,true⟩
  nRand := 0
  order := PointerOrder.listed
  signature _ _ _ := some []

def shallowTx : CWalletTx := .ofTx ⟨1,5,[],[⟨20000*coin+darksendFee,[]⟩],0⟩ 9

def shallowBuilder : Builder where
  env := sampleEnv
  V := ⟨200,fun _ => true,fun _ => true,fun _ => 0,fun _ => 1,[]⟩
  K := ⟨fun _ => true,fun _ => false⟩
  mapWallet := (∅ : MapWallet).insert 5 shallowTx
  fromMe _ := false
  fMinimizeCoinAge := false
  nTransactionFee := 10000
  nDarksendRounds := 2
  rounds _ := 0
  setup := ⟨0,none⟩
  keyScript _ := []

theorem shallow_lookup {k : Uint256} {w : CWalletTx} (h : shallowBuilder.mapWallet.lookup k = some w) :
    k = 5 ∧ w = shallowTx := by
  change ((∅ : MapWallet).insert 5 shallowTx).lookup k = some w at h
  rw [lookup_insert_if] at h
  split at h
  · rename_i hk
    exact ⟨hk,(Option.some.inj h).symm⟩
  · cases h

def shallowHoldings : Holdings where
  builder := shallowBuilder
  pool := .start
  keyed k w h _ := by
    obtain ⟨rfl,rfl⟩ := shallow_lookup h
    rfl
  inRange k w h out hout := by
    obtain ⟨_,rfl⟩ := shallow_lookup h
    obtain rfl := List.mem_singleton.mp hout
    decide
  owned := ⟨fun r key h => (by cases h),fun key h => (by cases h)⟩

/-- The wallet pays no fee, and chooses by age. -/
def idleHoldings : Holdings :=
  { shallowHoldings with
    builder := { shallowBuilder with fMinimizeCoinAge := true, nTransactionFee := 0 }
    owned := ⟨shallowHoldings.owned.reserved,shallowHoldings.owned.default⟩ }

def zeroCall : Call where
  vecSend := [⟨0,[]⟩]
  wtxNew := ⟨1,100,[],[],0⟩
  coinControl := none
  coinType := .allCoins
  useIX := false
  reservekey := 0

/-- One amount that was rounded to zero, and a coin that is larger than a cent. -/
theorem nothing_to_reach : ¬ ∀ (H : Holdings) (c : Call) (passes : ℕ → Pass),
    ∃ o : Outcome × PoolWallet, (∀ nTurns, 600 < nTurns →
      CreateTransaction.createTransaction H.builder nTurns c passes H.pool = some o) ∧
    o.1 ≠ .outOfRange ∧ ∀ tx nFeeRet, o.1 = .created tx nFeeRet → Paid H c tx nFeeRet o.2 := by
  intro h
  obtain ⟨o,hends,hrange,_⟩ := h idleHoldings zeroCall fun _ => stillPass
  have hstrays : CallStrays idleHoldings zeroCall :=
    ⟨List.cons_ne_nil _ _,rfl,rfl,rfl,by decide,by decide⟩
  have hend := hends 601 (by decide)
  rw [strays_at_once idleHoldings zeroCall _ hstrays] at hend
  obtain rfl := Option.some.inj hend
  exact hrange rfl

end Samples

end SwippCore.PaymentRuns
