import SwippCore.CreateTransaction

/-!
# What the caller asks of the coins

`CreateTransaction` is told which coins it may spend, and whether they must be deep enough for
InstantX, but it does not tell `SelectCoins`. So the inputs are as asked where all coins of the
wallet are, and what is asked for only changes the message of a failure.
-/

set_option autoImplicit false

namespace SwippCore.AskedCoins
open FinMap AvailableCoins CoinSelection SelectCoins CreateTransaction PaymentRuns
open Masternode (getMasternodeCollateralForBlock)
open KeyPool (PoolWallet)

section Asked
variable (B : Builder) (coinType : AvailableCoinsType) (useIX : Bool)

def ofType (o : COutPoint) (nValue : ℤ) : Bool :=
  match coinType with
  | .allCoins => true
  | .onlyDenominated => isDenominatedAmount nValue && B.nDarksendRounds ≤ B.rounds o
  | .onlyNondenominated => !isDenominatedAmount nValue && !isCollateralAmount B.V.nHeight nValue
  | .onlyNondenominatedNotmn =>
    !isDenominatedAmount nValue && !isCollateralAmount B.V.nHeight nValue &&
      nValue != getMasternodeCollateralForBlock B.V.nHeight

def meets (o : COutPoint) : Bool :=
  match B.mapWallet.lookup o.hash with
  | none => false
  | some w =>
    match w.tx.vout[o.n]? with
    | none => false
    | some out => ofType B coinType o out.nValue && !(useIX && B.V.depthInMainChain w < 6)

end Asked

section Calls
variable (H : Holdings) (c : Call)

def OfferMeets : Prop :=
  ∀ x ∈ H.offered c.coinControl, meets H.builder c.coinType c.useIX (prevout H.builder.env x) = true

def AsAsked (o : Outcome) : Prop :=
  ∀ tx nFeeRet, o = .created tx nFeeRet → ∀ i ∈ tx.prevouts, meets H.builder c.coinType c.useIX i = true

def Ends (passes : ℕ → Pass) (o : Outcome × PoolWallet) : Prop :=
  ∀ nTurns, 600 < nTurns →
    CreateTransaction.createTransaction H.builder nTurns c passes H.pool = some o

theorem unrestricted_meets (htype : c.coinType = .allCoins) (hix : c.useIX = false) : OfferMeets H c := by
  intro x hx
  obtain ⟨out,hlook,hout,_⟩ := mem_offered H c.coinControl hx
  unfold meets prevout
  rw [hlook, htype, hix]
  dsimp only
  rw [hout]
  rfl

variable {passes : ℕ → Pass} {o : Outcome × PoolWallet}

theorem ends_unique {o' : Outcome × PoolWallet} (h : Ends H c passes o) (h' : Ends H c passes o') :
    o = o' :=
  Option.some.inj ((h 601 (by omega)).symm.trans (h' 601 (by omega)))

theorem created_inputs (hends : Ends H c passes o) {tx : CTransaction} {nFeeRet : ℤ}
    (hmade : o.1 = .created tx nFeeRet) :
    ∃ p nTargetValue ch, CreateTransaction.selectCoins H.builder p nTargetValue c.wtxNew.nTime c.coinControl
        .allCoins false = some (true,ch) ∧ Pays (H.offered c.coinControl) nTargetValue ch ∧
      ∀ i, i ∈ tx.prevouts ↔ ∃ x ∈ ch.setCoinsRet, outPoint H x = i := by
  obtain ⟨o',hlast,hends'⟩ := ends_in_turn H c passes
  obtain rfl := ends_unique H c hends hends'
  obtain ⟨i,s,_,hnonneg,hpass⟩ := hlast.made tx nFeeRet hmade
  have hcase := pass_cases H.builder c (c.vecSend.map CTxOut.nValue).sum (passes i) nFeeRet s
  rw [hpass] at hcase
  cases hcase with
  | created ch vout _ _ hsel hfill hsign hfee =>
    refine ⟨passes i,_,ch,hsel,selected_pays H c hnonneg hsel hfee,?_⟩
    obtain ⟨_,hvin⟩ := sign_all_kept _ _ _ hsign
    intro j
    rw [hvin]
    unfold CTransaction.prevouts
    rw [List.map_map, List.mem_map]
    constructor
    · rintro ⟨x,hx,rfl⟩
      exact ⟨x,((passes i).order.mem _ x).mp hx,rfl⟩
    · rintro ⟨x,hx,rfl⟩
      exact ⟨x,((passes i).order.mem _ x).mpr hx,rfl⟩

theorem offer_meets_asked (hends : Ends H c passes o) (h : OfferMeets H c) : AsAsked H c o.1 := by
  intro tx nFeeRet hmade i hi
  obtain ⟨p,nTargetValue,ch,_,hpays,hin⟩ := created_inputs H c hends hmade
  obtain ⟨x,hx,rfl⟩ := (hin i).mp hi
  obtain ⟨y,hy,rfl⟩ := List.mem_map.mp (List.mem_toFinset.mp (hpays.subset hx))
  exact h y hy

theorem offered_spendable (coinControl : Option CCoinControl) :
    (H.offered coinControl).filter COutput.fSpendable = H.offered coinControl := by
  rw [List.filter_eq_self]
  intro x hx
  obtain ⟨y,_,hx⟩ := List.mem_flatMap.mp hx
  obtain ⟨z,hz,rfl⟩ := List.mem_map.mp hx
  have hoffer := (List.mem_filter.mp hz).2
  simp only [offersOutput, Bool.and_eq_true] at hoffer
  exact hoffer.1.1.1.2

theorem control_takes_all {p : Pass} {nTargetValue : ℤ} {nSpendTime : ℕ} {coinControl : Option CCoinControl}
    (hcontrol : selectedCoins coinControl ≠ []) {ch : Chosen}
    (h : CreateTransaction.selectCoins H.builder p nTargetValue nSpendTime coinControl .allCoins false =
      some (true,ch)) : ch.setCoinsRet = ((H.offered coinControl).map key).toFinset := by
  unfold CreateTransaction.selectCoins at h
  dsimp only at h
  rw [if_neg (by decide), if_pos (by rw [Bool.not_eq_true', List.isEmpty_eq_false_iff]; exact hcontrol)] at h
  have hch := congrArg Prod.snd (Option.some.inj h)
  change Chosen.empty.insertAll ((H.offered coinControl).filter COutput.fSpendable) = ch at hch
  rw [← hch, offered_spendable, (insert_all_eq _ Chosen.empty).1]
  exact Finset.empty_union _

theorem control_asked_meets (hends : Ends H c passes o)
    (hcontrol : selectedCoins c.coinControl ≠ []) {tx : CTransaction} {nFeeRet : ℤ}
    (hmade : o.1 = .created tx nFeeRet) (h : AsAsked H c o.1) : OfferMeets H c := by
  obtain ⟨p,nTargetValue,ch,hsel,_,hin⟩ := created_inputs H c hends hmade
  have hall := control_takes_all H hcontrol hsel
  intro x hx
  apply h tx nFeeRet hmade
  apply (hin _).mpr
  refine ⟨key x,?_,rfl⟩
  rw [hall]
  exact List.mem_toFinset.mpr (List.mem_map.mpr ⟨x,hx,rfl⟩)

end Calls

section Samples

def fiveCall (coinType : AvailableCoinsType) (useIX : Bool) : Call where
  vecSend := [⟨5*coin,[]⟩]
  wtxNew := ⟨1,100,[],[],0⟩
  coinControl := some ⟨some [],[]⟩
  coinType := coinType
  useIX := useIX
  reservekey := 0

def fiveTx : CTransaction :=
  ⟨1,100,[⟨⟨5,0⟩,[],uintMax⟩],[⟨20000*coin+darksendFee-5*coin-10000,[]⟩,⟨5*coin,[]⟩],0⟩

variable (coinType : AvailableCoinsType)

theorem five_selected (useIX : Bool) :
    CreateTransaction.selectCoins shallowBuilder stillPass (5*coin+10000) (fiveCall coinType useIX).wtxNew.nTime
      (fiveCall coinType useIX).coinControl .allCoins false =
        some (true,⟨{(shallowTx,0)},20000*coin+darksendFee⟩) := rfl

theorem five_filled (useIX : Bool) :
    fillOutputs shallowBuilder (fiveCall coinType useIX).reservekey stillPass
      (fiveCall coinType useIX).coinControl (20000*coin+darksendFee-5*coin-10000)
      (fiveCall coinType useIX).vecSend .start = some (fiveTx.vout,.start) := rfl

theorem five_signed (useIX : Bool) :
    signAll stillPass.signature [(shallowTx,0)] 0 { (fiveCall coinType useIX).wtxNew with
      vin := [(shallowTx,0)].map fun x => ⟨⟨shallowBuilder.env.hashTx x.1.tx,x.2⟩,[],uintMax⟩
      vout := fiveTx.vout } = some fiveTx := rfl

theorem five_size : fiveTx.serialize.length = 73 := by decide

theorem five_pass (useIX : Bool) :
    pass shallowBuilder (fiveCall coinType useIX) (5*coin) stillPass 10000 .start =
      .ends (.created fiveTx 10000,.start) := by
  unfold CreateTransaction.pass
  rw [five_selected]
  dsimp only
  rw [five_filled, order_singleton]
  dsimp only
  rw [five_signed]
  dsimp only
  rw [five_size]
  rfl

theorem five_ends (useIX : Bool) :
    Ends shallowHoldings (fiveCall coinType useIX) (fun _ => stillPass) (.created fiveTx 10000,.start) := by
  intro nTurns hmany
  cases nTurns with
  | zero => exact absurd hmany (Nat.not_lt_zero _)
  | succ m =>
    have hsend : sendValue ((fiveCall coinType useIX).vecSend.map CTxOut.nValue) 0 = some (5*coin) := rfl
    unfold CreateTransaction.createTransaction
    rw [hsend]
    dsimp only
    rw [if_neg (by exact Bool.false_ne_true)]
    unfold Raising.loop
    rw [show pass shallowHoldings.builder (fiveCall coinType useIX) (5*coin) stillPass
      shallowHoldings.builder.nTransactionFee shallowHoldings.pool = .ends (.created fiveTx 10000,.start)
      from five_pass coinType useIX]

theorem five_not_asked {coinType : AvailableCoinsType} {useIX : Bool}
    (h : AsAsked shallowHoldings (fiveCall coinType useIX) (.created fiveTx 10000)) :
    coinType = .allCoins ∧ useIX = false := by
  have hin := h fiveTx 10000 rfl ⟨5,0⟩ List.mem_cons_self
  cases coinType <;> cases useIX <;> first | exact ⟨rfl,rfl⟩ | exact absurd hin (by decide)

end Samples

section Claims

/-- The inputs are as asked when all coins that are offered are, with coin control only then, and
for all wallets only when nothing is asked. -/
theorem inputs_as_asked (coinType : AvailableCoinsType) (useIX : Bool) :
    (∀ (H : Holdings) (c : Call) (passes : ℕ → Pass) (o : Outcome × PoolWallet), c.coinType = coinType →
      c.useIX = useIX → Ends H c passes o →
      (OfferMeets H c → AsAsked H c o.1) ∧
      (selectedCoins c.coinControl ≠ [] → (∃ tx nFeeRet, o.1 = .created tx nFeeRet) →
        (AsAsked H c o.1 ↔ OfferMeets H c))) ∧
    ((∀ (H : Holdings) (c : Call) (passes : ℕ → Pass) (o : Outcome × PoolWallet), c.coinType = coinType →
      c.useIX = useIX → Ends H c passes o → AsAsked H c o.1) ↔ coinType = .allCoins ∧ useIX = false) := by
  constructor
  · intro H c passes o _ _ hends
    refine ⟨offer_meets_asked H c hends,?_⟩
    rintro hcontrol ⟨tx,nFeeRet,hmade⟩
    exact ⟨control_asked_meets H c hends hcontrol hmade,offer_meets_asked H c hends⟩
  · constructor
    · intro h
      exact five_not_asked
        (h shallowHoldings (fiveCall coinType useIX) (fun _ => stillPass) _ rfl rfl (five_ends coinType useIX))
    · rintro ⟨rfl,rfl⟩ H c passes o htype hix hends
      exact offer_meets_asked H c hends (unrestricted_meets H c htype hix)

/-- For InstantX a coin of one block is spent. -/
theorem shallow_coin_spent : Ends shallowHoldings (fiveCall .allCoins true) (fun _ => stillPass)
    (.created fiveTx 10000,.start) ∧
      ¬ AsAsked shallowHoldings (fiveCall .allCoins true) (.created fiveTx 10000) := by
  refine ⟨five_ends .allCoins true,?_⟩
  intro h
  cases (five_not_asked h).2

end Claims

end SwippCore.AskedCoins
