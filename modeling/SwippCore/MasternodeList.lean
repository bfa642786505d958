import SwippCore.MasternodePayments

/-!
# The list of masternodes

How an entry gets into the list, and the evidence that every entry of it rests on.
-/

set_option autoImplicit false

namespace SwippCore.MasternodeList
open FinMap Histories BlockHashCache Masternode MasternodePayments

structure Dsee where
  vin : CTxIn
  addr : CService
  vchSig : List UInt8
  sigTime : ℤ
  pubkey : CPubKey
  pubkey2 : CPubKey
  count : ℤ
  lastUpdated : ℤ
  protocolVersion : ℤ

structure Dseep where
  vin : CTxIn
  vchSig : List UInt8
  sigTime : ℤ
  stop : Bool

structure View extends Node where
  fLiteMode : Bool
  fInitialDownload : Bool
  fImporting : Bool
  adjustedTime : ℤ
  time : ℤ
  /-- `darkSendPool.collateralPubKey` -/
  collateralPubKey : CScript
  disk : Disk
  /-- the hash of the header at a position -/
  blockHashAt : ℕ → ℕ → Option Uint256
  /-- `CService::ToString` -/
  addrString : CService → String
  /-- `IsRFC1918` or `IsLocal` -/
  isLocal : CService → Bool
  /-- `darkSendSigner.VerifyMessage` -/
  verifyByKey : CPubKey → List UInt8 → List UInt8 → Bool
  /-- `CMasternodePayments::enabled`, and `Sign` -/
  enabled : Bool
  signWinner : CMasternodePaymentWinner → Option (List UInt8)

structure State where
  vecMasternodes : List CMasterNode
  askedForMasternodeListEntry : Dict COutPoint ℤ
  payments : MasternodePayments.State

inductive Reply where
  | ignored
  | misbehaving (score : ℕ)
  | relayedEntry
  | relayedPing
  | relayedWinner (hash : Uint256)
  | askedEntry (vin : CTxIn)
  deriving DecidableEq, Repr

variable (env : Env) (keyId : CPubKey → Uint160)

section Chain
variable (V : View)

/-- `GetTransaction`, with a null hash for a transaction of the pool. -/
def getTransaction (hash : Uint256) : Option (CTransaction × Uint256) :=
  match V.chain.mempool.lookup hash with
  | some tx => some (tx,0)
  | none =>
    match V.chain.txdb.committed.tx hash with
    | none => none
    | some txindex =>
      match V.disk.readTx txindex.pos with
      | none => none
      | some tx =>
        if tx.vout.isEmpty then none
        else
          match txindex.pos with
          | .null => some (tx,0)
          | .onDisk nFile nBlockPos _ => some (tx,(V.blockHashAt nFile nBlockPos).getD 0)

def getInputAge (vin : CTxIn) : ℤ :=
  match getTransaction V vin.prevout.hash with
  | none => 0
  | some (_,hashBlock) =>
    match V.chain.mapBlockIndex hashBlock with
    | none => 0
    | some i => tipHeight V.chain-i.nHeight

def collateral (pubkey : CPubKey) : CTxOut :=
  ⟨getMasternodeCollateralForBlock (tipHeight V.chain),scriptForKey (keyId pubkey)⟩

/-- `IsVinAssociatedWithPubkey`, which looks at every output of the transaction. -/
def isVinAssociatedWithPubkey (vin : CTxIn) (pubkey : CPubKey) : Bool :=
  match getTransaction V vin.prevout.hash with
  | none => false
  | some (txVin,_) => txVin.vout.any (fun out =>
      out.nValue == (collateral keyId V pubkey).nValue &&
        out.scriptPubKey == (collateral keyId V pubkey).scriptPubKey)

def acceptable (tx : CTransaction) : Bool :=
  (acceptableInputs env ((V.chain.pindexBest.map V.chain.ancestorsOf).getD []) V.disk
    V.chain.txdb.committed false tx V.chain.mempool).isOk

def ambience : Ambience := ⟨V.adjustedTime,V.collateralPubKey,acceptable env V⟩

end Chain

def onEntry {β : Type} (o : COutPoint) (f : CMasterNode → CMasterNode × β) :
    List CMasterNode → Option (List CMasterNode × β)
  | [] => none
  | mn::mns =>
    if mn.vin.prevout = o then some ((f mn).1::mns,(f mn).2)
    else (onEntry o f mns).map (fun r => (mn::r.1,r.2))

section Dsee
variable (V : View) (m : Dsee)

def bytes (s : String) : List UInt8 := s.toUTF8.toList

def Dsee.strMessage : List UInt8 :=
  bytes (V.addrString m.addr ++ toString m.sigTime)++m.pubkey++m.pubkey2++
    bytes (toString m.protocolVersion)

def refresh (mn : CMasterNode) : CMasterNode × Reply :=
  if m.count = -1 ∧ mn.pubkey = m.pubkey ∧
      !mn.updatedWithin (ambience env V) masternodeMinDseeSeconds then
    let mn := mn.updateLastSeen (ambience env V) 0
    if mn.now < m.sigTime then
      ({ mn with
          pubkey2 := m.pubkey2
          now := m.sigTime
          sig := m.vchSig
          protocolVersion := m.protocolVersion
          addr := m.addr },.relayedEntry)
    else (mn,.ignored)
  else (mn,.ignored)

def Dsee.entry : CMasterNode :=
  CMasterNode.updateLastSeen (ambience env V) m.lastUpdated
    { addr := m.addr
      vin := m.vin
      lastTimeSeen := 0
      pubkey := m.pubkey
      pubkey2 := m.pubkey2
      sig := m.vchSig
      now := m.sigTime
      lastDseep := 0
      enabled := 1
      protocolVersion := m.protocolVersion
      nLastDsq := 0 }

def dseeRefused (nVersion : ℤ) : Option Reply :=
  if V.fLiteMode || V.fInitialDownload then some .ignored
  else if m.sigTime > V.adjustedTime+60*60 then some .ignored
  else if V.chain.pindexBest.isNone then some .ignored
  else if !isVersionCompatible nVersion (tipHeight V.chain) then some .ignored
  else if (scriptForKey (keyId m.pubkey)).length ≠ 25 then some (.misbehaving 100)
  else if (scriptForKey (keyId m.pubkey2)).length ≠ 25 then some (.misbehaving 100)
  else if !V.verifyByKey m.pubkey m.vchSig (m.strMessage V) then some (.misbehaving 100)
  else none

def newEntryRefused : Option Reply :=
  if !isVinAssociatedWithPubkey keyId V m.vin m.pubkey then some (.misbehaving 100)
  else if !acceptable env V (probe V.adjustedTime V.collateralPubKey m.vin) then some .ignored
  else if getInputAge V m.vin < masternodeMinConfirmations then some (.misbehaving 20)
  else none

/-- `ProcessMessageMasternode` on a "dsee" message. -/
def dsee (nVersion : ℤ) (st : State) : State × Reply :=
  match dseeRefused keyId V m nVersion with
  | some r => (st,r)
  | none =>
    match onEntry m.vin.prevout (refresh env V m) st.vecMasternodes with
    | some (mns,r) => ({ st with vecMasternodes := mns },r)
    | none =>
      match newEntryRefused env keyId V m with
      | some r => (st,r)
      | none => ({ st with vecMasternodes := st.vecMasternodes++[m.entry env V] },
          if m.count = -1 && !V.isLocal m.addr then .relayedEntry else .ignored)

end Dsee

section Dseep
variable (V : View) (m : Dseep)

def ping (mn : CMasterNode) : CMasterNode × Reply :=
  if mn.lastDseep < m.sigTime then
    let strMessage := bytes (V.addrString mn.addr ++ toString m.sigTime ++ if m.stop then "1" else "0")
    if !V.verifyByKey mn.pubkey2 m.vchSig strMessage then (mn,.ignored)
    else
      let mn := { mn with lastDseep := m.sigTime }
      if !mn.updatedWithin (ambience env V) masternodeMinDseepSeconds then
        let mn := mn.updateLastSeen (ambience env V) 0
        (if m.stop then mn.disable.check (ambience env V) else mn,.relayedPing)
      else (mn,.ignored)
  else (mn,.ignored)

/-- `ProcessMessageMasternode` on a "dseep" message. -/
def dseep (st : State) : State × Reply :=
  if V.fLiteMode || V.fInitialDownload then (st,.ignored)
  else if m.sigTime > V.adjustedTime+60*60 then (st,.ignored)
  else if m.sigTime ≤ V.adjustedTime-60*60 then (st,.ignored)
  else
    match onEntry m.vin.prevout (ping env V m) st.vecMasternodes with
    | some (mns,r) => ({ st with vecMasternodes := mns },r)
    | none =>
      if (st.askedForMasternodeListEntry.lookup m.vin.prevout).any (fun t => V.time < t) then
        (st,.ignored)
      else ({ st with askedForMasternodeListEntry :=
          st.askedForMasternodeListEntry.insert m.vin.prevout (V.time+60*60*24) },.askedEntry m.vin)

end Dseep

section Block
variable (V : View)

/-- A result of `std::random_shuffle`. -/
structure Shuffle where
  order : List CMasterNode → List CMasterNode
  perm : ∀ mns, (order mns).Perm mns

/-- The search of `ProcessBlock` for an enabled masternode that was not paid lately. -/
def findWinner (vecLastPayments : List CTxIn) :
    List CMasterNode → List CMasterNode × Option CMasterNode
  | [] => ([],none)
  | mn::mns =>
    if mn.vin ∈ vecLastPayments then
      let r := findWinner vecLastPayments mns
      (mn::r.1,r.2)
    else if (mn.check (ambience env V)).isEnabled then
      (mn.check (ambience env V)::mns,some (mn.check (ambience env V)))
    else
      let r := findWinner vecLastPayments mns
      (mn.check (ambience env V)::r.1,r.2)

def winnerOf (nBlockHeight : ℤ) (mn : CMasterNode) : CMasternodePaymentWinner :=
  ⟨nBlockHeight,mn.vin,scriptForKey (keyId mn.pubkey),[],0⟩

/-- `CMasternodePayments::ProcessBlock` -/
def processWinner (shuffle : Shuffle) (nBlockHeight : ℤ) (st : State) : State × Reply :=
  if !V.enabled then (st,.ignored)
  else
    let vecLastPayments := (st.payments.vWinning.reverse.take (st.vecMasternodes.length+1)).map
      CMasternodePaymentWinner.vin
    let r := findWinner env V vecLastPayments (shuffle.order st.vecMasternodes)
    let winner := (r.2.map (winnerOf keyId nBlockHeight)).getD ⟨0,⟨.null,[],uintMax⟩,[],[],0⟩
    let winner := if winner.nBlockHeight = 0 then
      (r.1.head?.map (winnerOf keyId nBlockHeight)).getD winner else winner
    let st := { st with vecMasternodes := r.1 }
    match V.signWinner winner with
    | none => (st,.ignored)
    | some vchSig =>
      let winner := { winner with vchSig := vchSig }
      match addWinningMasternode V.toNode winner st.payments with
      | (payments,true) => ({ st with payments := payments },.relayedWinner (winner.getHash V.toNode))
      | (payments,false) => ({ st with payments := payments },.ignored)

/-- The part of `ProcessBlock` that comes after the block is accepted. -/
def processBlock (shuffle : Shuffle) (st : State) : State × Reply :=
  if !V.fInitialDownload && !V.fImporting && env.totalBlocksEstimate < tipHeight V.chain then
    processWinner env keyId V shuffle (tipHeight V.chain+10) st
  else (st,.ignored)

/-- `CleanPaymentList`, which drops one winner at most. -/
def cleanPaymentList (size : ℕ) (vWinning : List CMasternodePaymentWinner) :
    List CMasternodePaymentWinner :=
  if V.chain.pindexBest.isNone then vWinning
  else vWinning.eraseP (fun w => decide (max (size*2) 1000 < tipHeight V.chain-w.nBlockHeight))

/-- The pass of `ThreadCheckDarkSendPool` over the list. -/
def removalPass (st : State) : State :=
  let mns := (st.vecMasternodes.map (CMasterNode.check (ambience env V))).filter
    (fun mn => !(mn.enabled == 4 || mn.enabled == 3))
  { st with
    vecMasternodes := mns
    payments := { st.payments with
      vWinning := cleanPaymentList V mns.length st.payments.vWinning } }

end Block

inductive Message where
  | dsee (nVersion : ℤ) (m : Dsee)
  | dseep (m : Dseep)
  | mnw (winner : CMasternodePaymentWinner)
  | block (shuffle : Shuffle)
  /-- `Check` on some of the entries, as the ranks do -/
  | check (looked : CMasterNode → Bool)
  | removal

structure Event where
  view : View
  message : Message

def handle (e : Event) (st : State) : State :=
  match e.message with
  | .dsee nVersion m => (dsee env keyId e.view m nVersion st).1
  | .dseep m => (dseep env e.view m st).1
  | .mnw winner => { st with payments := (processMnw e.view.toNode winner st.payments).1 }
  | .block shuffle => (processBlock env keyId e.view shuffle st).1
  | .check looked =>
    let look mn := if looked mn then mn.check (ambience env e.view) else mn
    { st with vecMasternodes := st.vecMasternodes.map look }
  | .removal => removalPass env e.view st

def start : State := ⟨[],∅,⟨∅,[],∅⟩⟩

def run (es : List Event) : State := deliver (handle env keyId) es start

end SwippCore.MasternodeList

namespace SwippCore.MasternodeEvidence
open FinMap Checks Histories Origins Masternode MasternodeList

abbrev Claim := COutPoint × CPubKey

def claim (mn : CMasterNode) : Claim := (mn.vin.prevout,mn.pubkey)

def claims (st : State) : List Claim := st.vecMasternodes.map claim

def Distinct (st : State) : Prop := ((claims st).map Prod.fst).Nodup

variable (env : Env) (keyId : CPubKey → Uint160)

def Backed (e : Event) (c : Claim) : Prop :=
  Unspent e.view.disk e.view.chain.txdb.committed e.view.chain.mempool c.1
    (collateral keyId e.view c.2)

def Sound (es : List Event) (st : State) : Prop :=
  Distinct st ∧ Sourced (handle env keyId) start (fun st c => c ∈ claims st) (Backed keyId) es st

def Admitted (e : Event) (st : State) (m : Dsee) : Prop :=
  ∃ nVersion, e.message = .dsee nVersion m ∧ dseeRefused keyId e.view m nVersion = none ∧
    (∀ mn ∈ st.vecMasternodes, mn.vin.prevout ≠ m.vin.prevout) ∧
    newEntryRefused env keyId e.view m = none

/-- A message that is added names by its own output number the output that the tests
found in the transaction. -/
def NamesCollateral (es : List Event) (e : Event) : Prop :=
  ∀ m, Admitted env keyId e (run env keyId es) m →
    outputAt e.view.disk e.view.chain.txdb.committed e.view.chain.mempool m.vin.prevout =
      some (collateral keyId e.view m.pubkey)

section Entries
variable {β : Type} (o : COutPoint) (f : CMasterNode → CMasterNode × β)

theorem on_entry_none (mns : List CMasterNode) :
    onEntry o f mns = none ↔ ∀ mn ∈ mns, mn.vin.prevout ≠ o := by
  induction mns with
  | nil => simp [onEntry]
  | cons mn mns ih =>
    rw [onEntry]
    split_ifs with h
    · simp [h]
    · simp [h, ih]

theorem on_entry_claims (hf : ∀ mn, claim (f mn).1 = claim mn) (mns mns' : List CMasterNode) {b : β}
    (h : onEntry o f mns = some (mns',b)) : mns'.map claim = mns.map claim := by
  induction mns generalizing mns' with
  | nil => cases h
  | cons mn mns ih =>
    rw [onEntry] at h
    split_ifs at h
    · obtain ⟨rfl,_⟩ := Prod.mk.inj (Option.some_inj.mp h)
      rw [List.map_cons, List.map_cons, hf]
    · obtain ⟨⟨ns,c⟩,hr,he⟩ := Option.map_eq_some_iff.mp h
      obtain ⟨rfl,rfl⟩ := Prod.mk.inj he
      rw [List.map_cons, List.map_cons, ih ns hr]

variable (V : View)

theorem check_claim (amb : Ambience) (mn : CMasterNode) : claim (mn.check amb) = claim mn := by
  simp [claim]

theorem refresh_claim (m : Dsee) (mn : CMasterNode) : claim (refresh env V m mn).1 = claim mn := by
  unfold refresh
  dsimp only
  split_ifs <;> rfl

theorem ping_claim (m : Dseep) (mn : CMasterNode) : claim (ping env V m mn).1 = claim mn := by
  unfold ping
  dsimp only
  split_ifs
  all_goals first
    | rfl
    | exact check_claim _ _

theorem find_winner_claims (vins : List CTxIn) (mns : List CMasterNode) :
    (findWinner env V vins mns).1.map claim = mns.map claim := by
  induction mns with
  | nil => rfl
  | cons mn mns ih =>
    rw [findWinner]
    split_ifs <;> simp [ih, check_claim]

end Entries

section Step
variable (V : View) (st : State)

theorem dseep_claims (m : Dseep) : claims (dseep env V m st).1 = claims st := by
  unfold dseep
  cases h : onEntry m.vin.prevout (ping env V m) st.vecMasternodes with
  | none =>
    dsimp only
    split_ifs <;> rfl
  | some r =>
    have hr := on_entry_claims _ _ (ping_claim env V m) _ r.1 h
    dsimp only
    split_ifs
    · rfl
    · rfl
    · rfl
    · exact hr

theorem process_winner_claims (shuffle : Shuffle) (n : ℤ) :
    (claims (processWinner env keyId V shuffle n st).1).Perm (claims st) := by
  have hp : ∀ vins, ((findWinner env V vins (shuffle.order st.vecMasternodes)).1.map claim).Perm
      (claims st) := by
    intro vins
    rw [find_winner_claims]
    exact (shuffle.perm _).map claim
  unfold processWinner
  split_ifs
  · exact List.Perm.refl _
  · dsimp only
    split
    · exact hp _
    · split
      · exact hp _
      · exact hp _

theorem removal_claims : (claims (removalPass env V st)).Sublist (claims st) := by
  have hs := (List.filter_sublist (l := st.vecMasternodes.map (CMasterNode.check (ambience env V)))
    (p := fun mn => !(mn.enabled == 4 || mn.enabled == 3))).map claim
  have hall : st.vecMasternodes.map (claim ∘ CMasterNode.check (ambience env V)) = claims st :=
    List.map_congr_left (fun mn _ => check_claim _ mn)
  rw [List.map_map, hall] at hs
  exact hs

theorem dsee_claims (m : Dsee) (nVersion : ℤ) :
    (dseeRefused keyId V m nVersion = none ∧
        (∀ mn ∈ st.vecMasternodes, mn.vin.prevout ≠ m.vin.prevout) ∧
        newEntryRefused env keyId V m = none ∧
        claims (dsee env keyId V m nVersion st).1 = claims st++[(m.vin.prevout,m.pubkey)]) ∨
      (¬ (dseeRefused keyId V m nVersion = none ∧
        (∀ mn ∈ st.vecMasternodes, mn.vin.prevout ≠ m.vin.prevout) ∧
        newEntryRefused env keyId V m = none) ∧
        claims (dsee env keyId V m nVersion st).1 = claims st) := by
  unfold dsee
  cases hd : dseeRefused keyId V m nVersion with
  | some r => exact Or.inr ⟨by simp,rfl⟩
  | none =>
    cases he : onEntry m.vin.prevout (refresh env V m) st.vecMasternodes with
    | some r =>
      refine Or.inr ⟨fun h => ?_,on_entry_claims _ _ (refresh_claim env V m) _ r.1 he⟩
      rw [(on_entry_none _ _ _).mpr h.2.1] at he
      cases he
    | none =>
      have hno := (on_entry_none _ _ _).mp he
      cases hn : newEntryRefused env keyId V m with
      | some r => exact Or.inr ⟨by simp,rfl⟩
      | none =>
        refine Or.inl ⟨rfl,hno,rfl,?_⟩
        simp [claims, claim, Dsee.entry, CMasterNode.updateLastSeen]

end Step

theorem handle_claims (e : Event) (st : State) :
    (∃ m, Admitted env keyId e st m ∧
      claims (handle env keyId e st) = claims st++[(m.vin.prevout,m.pubkey)]) ∨
    (∀ m, ¬ Admitted env keyId e st m) ∧ (claims (handle env keyId e st)).Subperm (claims st) := by
  obtain ⟨V,message⟩ := e
  cases message with
  | dsee nVersion m =>
    rcases dsee_claims env keyId V st m nVersion with ⟨h1,h2,h3,h4⟩ | ⟨hn,heq⟩
    · exact Or.inl ⟨m,⟨nVersion,rfl,h1,h2,h3⟩,h4⟩
    · refine Or.inr ⟨?_,(List.Perm.of_eq heq).subperm⟩
      rintro m' ⟨nVersion',hm,h1,h2,h3⟩
      cases hm
      exact hn ⟨h1,h2,h3⟩
  | dseep m =>
    refine Or.inr ⟨?_,(List.Perm.of_eq (dseep_claims env V st m)).subperm⟩
    rintro m' ⟨_,hm,_⟩
    cases hm
  | mnw winner =>
    refine Or.inr ⟨?_,List.Subperm.refl _⟩
    rintro m' ⟨_,hm,_⟩
    cases hm
  | block shuffle =>
    refine Or.inr ⟨?_,?_⟩
    · rintro m' ⟨_,hm,_⟩
      cases hm
    · change (claims (processBlock env keyId V shuffle st).1).Subperm _
      unfold processBlock
      split_ifs
      · exact (process_winner_claims env keyId V st shuffle _).subperm
      · exact List.Subperm.refl _
  | check looked =>
    refine Or.inr ⟨?_,(List.Perm.of_eq ?_).subperm⟩
    · rintro m' ⟨_,hm,_⟩
      cases hm
    · change (st.vecMasternodes.map _).map claim = _
      rw [List.map_map]
      refine List.map_congr_left (fun mn _ => ?_)
      change claim (if looked mn then mn.check (ambience env V) else mn) = _
      split_ifs
      · exact check_claim _ mn
      · rfl
  | removal =>
    refine Or.inr ⟨?_,(removal_claims env V st).subperm⟩
    rintro m' ⟨_,hm,_⟩
    cases hm

theorem handle_distinct (e : Event) (st : State) (h : Distinct st) :
    Distinct (handle env keyId e st) := by
  rcases handle_claims env keyId e st with ⟨m,⟨_,_,_,hno,_⟩,heq⟩ | ⟨_,hsub⟩
  · rw [Distinct, heq, List.map_append, List.nodup_append]
    refine ⟨h,by simp,fun a ha b hb hab => ?_⟩
    rw [List.map_singleton, List.mem_singleton] at hb
    rw [claims, List.map_map] at ha
    obtain ⟨mn,hmn,rfl⟩ := List.mem_map.mp ha
    exact hno mn hmn (hab.trans hb)
  · obtain ⟨l,hp,hs⟩ := hsub
    exact (hp.map Prod.fst).nodup_iff.mp ((hs.map Prod.fst).nodup h)

theorem admitted_unspent {e : Event} {st : State} {m : Dsee} (h : Admitted env keyId e st m) :
    ∃ out, Unspent e.view.disk e.view.chain.txdb.committed e.view.chain.mempool m.vin.prevout out := by
  obtain ⟨_,_,_,_,hn⟩ := h
  unfold newEntryRefused at hn
  split_ifs at hn with _ hacc _
  rw [Bool.not_eq_true, Bool.not_eq_false'] at hacc
  obtain ⟨u,hu⟩ := of_is_ok _ hacc
  exact acceptable_unspent env hu (by simp [probe, CTransaction.prevouts])

theorem brings_iff (es : List Event) (e : Event) :
    Brings (handle env keyId) start (fun st c => c ∈ claims st) (Backed keyId) es e ↔
      NamesCollateral env keyId es e := by
  rcases handle_claims env keyId e (run env keyId es) with ⟨m,hm,heq⟩ | ⟨hno,hsub⟩
  · have hnew : (m.vin.prevout,m.pubkey) ∉ claims (run env keyId es) := by
      intro hin
      obtain ⟨mn,hmn,hc⟩ := List.mem_map.mp hin
      obtain ⟨_,_,_,hne,_⟩ := hm
      exact hne mn hmn (Prod.mk.inj hc).1
    constructor
    · intro hb m' hm'
      have hmm : m' = m := by
        obtain ⟨_,h,_⟩ := hm
        obtain ⟨_,h',_⟩ := hm'
        rw [h] at h'
        cases h'
        rfl
      rw [hmm]
      refine (hb (m.vin.prevout,m.pubkey) hnew ?_).found
      change _ ∈ claims (handle env keyId e (run env keyId es))
      rw [heq]
      exact List.mem_append_right _ (List.mem_singleton.mpr rfl)
    · intro hc c hold hin
      change c ∈ claims (handle env keyId e (run env keyId es)) at hin
      rw [heq, List.mem_append, List.mem_singleton] at hin
      obtain rfl := hin.resolve_left hold
      obtain ⟨out,hout⟩ := admitted_unspent env keyId hm
      exact ⟨hc m hm,hout.inIndex,hout.inPool⟩
  · exact ⟨fun _ m hm => absurd hm (hno m),fun _ c hold hin => absurd (hsub.subset hin) hold⟩

/-- In a run the entries stay distinct, and each is backed by the output that it names,
exactly when every message that is added names a collateral output of its key. -/
theorem entries_sound_iff (es : List Event) :
    Throughout (handle env keyId) (Sound env keyId) es start ↔
      Each (NamesCollateral env keyId) es := by
  have hdist : ∀ pre, Distinct (deliver (handle env keyId) pre start) := fun pre =>
    deliver_invariant _ Distinct (fun e st => handle_distinct env keyId e st) pre start
      (by simp [Distinct, claims, start])
  have hsourced : Throughout (handle env keyId)
      (Sourced (handle env keyId) start (fun st c => c ∈ claims st) (Backed keyId)) es start ↔
        Each (Brings (handle env keyId) start (fun st c => c ∈ claims st) (Backed keyId)) es :=
    sourced_iff (Backed keyId) (fun c hc => by simp [claims, start] at hc) es
  have hthrough : Throughout (handle env keyId) (Sound env keyId) es start ↔
      Throughout (handle env keyId)
        (Sourced (handle env keyId) start (fun st c => c ∈ claims st) (Backed keyId)) es start :=
    ⟨fun h pre hpre => (h pre hpre).2,fun h pre hpre => ⟨hdist pre,h pre hpre⟩⟩
  rw [hthrough, hsourced]
  exact ⟨fun h pre e hpre => (brings_iff env keyId pre e).mp (h pre e hpre),
    fun h pre e hpre => (brings_iff env keyId pre e).mpr (h pre e hpre)⟩

section Sample

def sampleEntry (h : Uint256) : CBlockIndex :=
  ⟨h,if h = 1 then none else some (h-1),none,1,0,0,h.toNat-1,0,0,0,0,.null,0,0,1,0,10,0x1e7fffff,0⟩

def sampleChain : ChainState where
  __ := ChainState.empty
  mapBlockIndex h := if 1 ≤ h ∧ h ≤ 11 then some (sampleEntry h) else none
  pindexBest := some 11
  txdb :=
    let tx h := if h = 9 then some (CTxIndex.fresh (.onDisk 1 1 80) 2) else none
    ⟨{ Store.empty with tx := tx },none⟩

def samplePrevious : CTransaction :=
  ⟨1,9,[⟨⟨8,0⟩,[],0⟩],[⟨20000*coin,scriptForKey 0⟩,⟨5000*coin,[1]⟩],0⟩

def sampleView : View where
  chain := sampleChain
  hashHeight _ := 0
  hashOne h := h
  vinString _ := ""
  scriptString _ := ""
  verifyMessage _ _ _ := true
  fLiteMode := false
  fInitialDownload := false
  fImporting := false
  adjustedTime := 1000
  time := 1000
  collateralPubKey := [1]
  disk := ⟨fun _ => some samplePrevious,fun _ _ => none,fun _ _ => none⟩
  blockHashAt _ _ := some 1
  addrString _ := ""
  isLocal _ := false
  verifyByKey _ _ _ := true
  enabled := false
  signWinner _ := none

def sampleDsee (n : ℕ) : Dsee := ⟨⟨⟨9,n⟩,[],uintMax⟩,⟨[],0⟩,[],1000,[2],[3],-1,1000,69110⟩

/-- A masternode is added that stands on the other output of the transaction. -/
theorem sibling_output_qualifies : ¬ ∀ (env : Env) (keyId : CPubKey → Uint160) (es : List Event),
    Throughout (handle env keyId) (Sound env keyId) es start := by
  intro h
  have hs := throughout_last _
    (h sampleEnv (fun _ => 0) [⟨sampleView,.dsee 69110 (sampleDsee 1)⟩])
  have hin : (⟨9,1⟩,[2]) ∈ claims (deliver (handle sampleEnv (fun _ => 0))
      [⟨sampleView,.dsee 69110 (sampleDsee 1)⟩] start) := by decide +kernel
  obtain ⟨pre,e,post,he,_,hb⟩ := hs.2 _ hin
  have hev : e = ⟨sampleView,.dsee 69110 (sampleDsee 1)⟩ := by
    have hmem : e ∈ [⟨sampleView,.dsee 69110 (sampleDsee 1)⟩] := he ▸ by simp
    exact List.mem_singleton.mp hmem
  have hf := hb.found
  rw [hev] at hf
  revert hf
  decide +kernel

end Sample
end SwippCore.MasternodeEvidence
