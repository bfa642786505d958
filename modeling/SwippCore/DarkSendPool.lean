import SwippCore.MasternodeList

/-!
# The mixing pool

`CDarkSendPool` with the handlers that a masternode runs: joining a session,
adding an entry, signing, the passes of `Check` and of the timer. The pool of a
client differs in its entries only, so `SignFinalTransaction` is here as well.
Expired queue announcements, charged fees and the lock of the wallet do not
come back into the pool and are left out.
-/

set_option autoImplicit false

namespace SwippCore.DarkSendPool
open BlockHashCache Masternode

structure CDarkSendEntryVin where
  isSigSet : Bool
  vin : CTxIn
  prevPubKey : CScript
  deriving DecidableEq, Repr

structure CDarkSendEntry where
  sev : List CDarkSendEntryVin
  amount : ℤ
  collateral : CTransaction
  vout : List CTxOut
  addedTime : ℤ
  deriving DecidableEq, Repr

inductive PoolStatus where
  | queue
  | acceptingEntries
  | finalizeTransaction
  | signing
  | transmission
  | error
  | success
  deriving DecidableEq, Repr

structure CDarkSendPool where
  myEntries : List CDarkSendEntry
  entries : List CDarkSendEntry
  finalTransaction : CTransaction
  lastTimeChanged : ℤ
  state : PoolStatus
  sessionID : ℤ
  sessionDenom : ℤ
  sessionUsers : ℤ
  vecSessionCollateral : List CTransaction

def poolMaxTransactions : ℤ := 3
def darksendQueueTimeout : ℤ := 120
def darksendSigningTimeout : ℤ := 30
def darksendPoolMax : ℤ := 999999999000000

def darkSendDenominations : List ℤ :=
  [100000*coin+100000000,10000*coin+10000000,1000*coin+1000000,100*coin+100000,10*coin+10000,
    1*coin+1000,10000000+100]

/-- A result of `std::random_shuffle`. -/
structure OutShuffle where
  order : List CTxOut → List CTxOut
  perm : ∀ vout, (order vout).Perm vout

structure View extends MasternodeList.View where
  timeMillis : ℤ
  /-- the draw for the next session id -/
  rand : ℕ
  shuffle : OutShuffle
  vecMasternodes : List CMasterNode
  /-- `activeMasternode.vin` -/
  activeVin : CTxIn
  nDsqCount : ℤ
  isNormalPaymentScript : CScript → Bool
  /-- `VerifyScript` on a script with its script to spend, for an input of a transaction -/
  verifyScript : CScript → CScript → ℕ → CTransaction → ℕ → Bool
  /-- `SignSignature`: the script that it leaves in the input -/
  signSignature : CScript → CTransaction → ℕ → CScript
  /-- the key of the masternode can be set, signs and verifies -/
  keyWorks : Bool

inductive Output where
  | dssu (sessionID : ℤ) (state : PoolStatus) (entriesCount : ℕ) (accepted : ℤ) (error : String)
  | queue (nDenom : ℤ) (ready : Bool)
  | finalTransaction (tx : CTransaction)
  /-- `AddScriptSig` returned, with the final transaction as it left it -/
  | scriptSig (vin : CTxIn) (tx : CTransaction) (added : Bool)
  /-- the transaction was assembled, and taken into the pool or not -/
  | assembled (tx : CTransaction) (accepted : Bool)
  | completed (error : Bool) (message : String)
  deriving DecidableEq, Repr

def masternodeAccepted : ℤ := 1
def masternodeRejected : ℤ := 0
def masternodeReset : ℤ := -1

variable (env : Env) (V : View)

section Basics
variable (p : CDarkSendPool)

def status (accepted : ℤ) (error : String) : Output :=
  .dssu p.sessionID p.state p.entries.length accepted error

/-- `SetNull` on a masternode. -/
def setNull (clearEverything : Bool) : CDarkSendPool where
  myEntries := if clearEverything then [] else p.myEntries
  entries := []
  finalTransaction := { p.finalTransaction with vin := [], vout := [] }
  lastTimeChanged := V.timeMillis
  state := .acceptingEntries
  sessionID := if clearEverything then 1+(V.rand % 999999 : ℕ) else p.sessionID
  sessionDenom := 0
  sessionUsers := 0
  vecSessionCollateral := []

/-- `UpdateState` on a masternode, which is never in error nor done. -/
def updateState (newState : PoolStatus) : CDarkSendPool :=
  if newState = .error ∨ newState = .success then p
  else if p.state ≠ newState then { p with lastTimeChanged := V.timeMillis, state := newState }
  else p

def isSessionReady : Bool := poolMaxTransactions ≤ p.sessionUsers

def getDenominations (vout : List CTxOut) : ℕ :=
  if vout.all (fun out => out.nValue ∈ darkSendDenominations) then
    ((darkSendDenominations.zipIdx).map (fun d =>
      if vout.any (fun out => out.nValue == d.1) then 2^d.2 else 0)).sum
  else 0

def isCompatibleWithEntries (vout : List CTxOut) : Bool :=
  p.entries.all (fun v => getDenominations vout == getDenominations v.vout)

def signaturesComplete : Bool := p.entries.all (fun v => v.sev.all CDarkSendEntryVin.isSigSet)

def valueIn (i : CTxIn) : Option ℤ :=
  (MasternodeList.getTransaction V.toView i.prevout.hash).map (fun r =>
    ((r.1.vout[i.prevout.n]?).map CTxOut.nValue).getD 0)

def isCollateralValid (txCollateral : CTransaction) : Bool :=
  let nValueOut := (txCollateral.vout.map CTxOut.nValue).sum
  let nValueIn := (txCollateral.vin.map (fun i => (valueIn V i).getD 0)).sum
  if txCollateral.vout.isEmpty || txCollateral.nLockTime != 0 then false
  else if !txCollateral.vout.all (fun o => V.isNormalPaymentScript o.scriptPubKey) then false
  else if txCollateral.vin.any (fun i => (valueIn V i).isNone) then false
  else if nValueIn-nValueOut < getMasternodeCollateralForBlock (tipHeight V.chain) then false
  else MasternodeList.acceptable env V.toView txCollateral

end Basics

section Sign
variable (tx : CTransaction)

def lastIndexOf (vin : CTxIn) (vins : List CTxIn) : Option ℕ :=
  ((vins.zipIdx).filter (fun x => x.1 == vin)).getLast?.map Prod.snd

def setScriptSig (n : ℕ) (scriptSig : CScript) : CTransaction :=
  { tx with vin := tx.vin.modify n (fun i => { i with scriptSig := scriptSig }) }

def matched (e : CDarkSendEntry) : List CTxOut :=
  tx.vout.flatMap (fun out => e.vout.filter (fun o => out == o))

def entryPaid (e : CDarkSendEntry) : Bool :=
  e.vout.length ≤ (matched tx e).length &&
    ((matched tx e).map CTxOut.nValue).sum == (e.vout.map CTxOut.nValue).sum

end Sign

/-- What `SignFinalTransaction` has done: the transaction, the positions signed so far
and the inputs to be sent. -/
structure Signing where
  tx : CTransaction
  signed : List ℕ
  sigs : List CTxIn

def signInputs (e : CDarkSendEntry) : List CDarkSendEntryVin → Signing → Signing × Bool
  | [], r => (r,true)
  | s::ss, r =>
    match lastIndexOf s.vin r.tx.vin with
    | none => signInputs e ss r
    | some mine =>
      if !entryPaid r.tx e then (r,false)
      else
        let tx := setScriptSig r.tx mine (V.signSignature s.prevPubKey r.tx mine)
        signInputs e ss ⟨tx,r.signed++[mine],r.sigs++(tx.vin[mine]?).toList⟩

def signEntries : List CDarkSendEntry → Signing → Signing × Bool
  | [], r => (r,true)
  | e::es, r =>
    match signInputs V e e.sev r with
    | (r,false) => (r,false)
    | (r,true) => signEntries es r

/-- `SignFinalTransaction`: the pool, the positions that were signed, and the inputs sent
to the masternode, where there is one. -/
def signFinalTransaction (finalTransactionNew : CTransaction) (node : Bool) (p : CDarkSendPool) :
    CDarkSendPool × List ℕ × List CTxIn :=
  if !p.finalTransaction.vin.isEmpty then (p,[],[])
  else
    match signEntries V p.myEntries ⟨finalTransactionNew,[],[]⟩ with
    | (r,true) => ({ p with finalTransaction := r.tx },r.signed,if node then r.sigs else [])
    | (r,false) => ({ p with finalTransaction := r.tx },r.signed,[])

section Check
variable (p : CDarkSendPool)

def mergedTransaction : CTransaction where
  nVersion := 1
  nTime := (V.adjustedTime % 2^32).toNat
  vin := p.entries.flatMap (fun e => e.sev.map CDarkSendEntryVin.vin)
  vout := V.shuffle.order (p.entries.flatMap CDarkSendEntry.vout)
  nLockTime := 0

def acceptsTransaction (tx : CTransaction) : Bool :=
  (acceptToMemoryPool env V.chain.best ((V.chain.pindexBest.map V.chain.ancestorsOf).getD []) V.disk
    V.chain.txdb.committed true tx V.chain.mempool).isOk

def checkFull : CDarkSendPool :=
  if p.state = .acceptingEntries ∧ poolMaxTransactions ≤ p.entries.length then
    updateState V p .finalizeTransaction
  else p

def checkFinalize : CDarkSendPool × List Output :=
  if p.state = .finalizeTransaction ∧ p.finalTransaction.vin = [] ∧ p.finalTransaction.vout = [] then
    let p := updateState V p .signing
    let txNew := mergedTransaction V p
    ((signFinalTransaction V txNew false p).1,[.finalTransaction txNew])
  else (p,[])

/-- The part of `Check` that assembles the transaction; it returns early where the flag
is false. -/
def checkSigned : CDarkSendPool × List Output × Bool :=
  if p.state = .signing ∧ signaturesComplete p then
    let p := updateState V p .transmission
    let txNew := p.finalTransaction
    if !acceptsTransaction env V txNew then
      (updateState V (setNull V p false) .acceptingEntries,[.assembled txNew false,
        .completed true "Transaction not valid, please try again"],false)
    else if !V.keyWorks then (p,[.assembled txNew true],false)
    else (p,[.assembled txNew true,.completed false "Transaction created successfully."],true)
  else (p,[],true)

def checkDone : CDarkSendPool × List Output :=
  if p.state = .transmission then
    let p := setNull V p true
    (p,[status p masternodeReset ""])
  else if (p.state = .error ∨ p.state = .success) ∧ 10000 ≤ V.timeMillis-p.lastTimeChanged then
    let p := setNull V p true
    (p,[status p masternodeReset ""])
  else (p,[])

def check : CDarkSendPool × List Output :=
  let (p,o1) := checkFinalize V (checkFull V p)
  match checkSigned env V p with
  | (p,o2,false) => (p,o1++o2)
  | (p,o2,true) =>
    let (p,o3) := checkDone V p
    (p,o1++o2++o3)

end Check

section Timeout
variable (p : CDarkSendPool)

def isExpired (e : CDarkSendEntry) : Bool := darksendQueueTimeout < V.time-e.addedTime

def dropExpired : CDarkSendPool :=
  if p.entries.any (isExpired V) then
    let p := { p with entries := p.entries.eraseP (isExpired V) }
    if p.entries = [] ∧ p.myEntries = [] then setNull V p true else p
  else p

def queueTimedOut : Bool := darksendQueueTimeout*1000 ≤ V.timeMillis-p.lastTimeChanged

def endSession : CDarkSendPool :=
  updateState V { p with
    lastTimeChanged := V.timeMillis
    sessionUsers := 0
    sessionDenom := 0
    vecSessionCollateral := [] } .acceptingEntries

def queueReady : CDarkSendPool :=
  if p.state = .queue ∧ p.sessionUsers = poolMaxTransactions then updateState V p .acceptingEntries
  else p

def sessionTimeout : CDarkSendPool :=
  if p.state = .acceptingEntries ∨ p.state = .queue then
    let p := dropExpired V p
    if queueTimedOut V p then endSession V p else p
  else if queueTimedOut V p then updateState V (setNull V p false) .error
  else p

def signingTimeout : CDarkSendPool :=
  if p.state = .signing ∧ darksendSigningTimeout*1000 ≤ V.timeMillis-p.lastTimeChanged then
    updateState V (setNull V p false) .error
  else p

/-- `CheckTimeout` on a masternode. -/
def checkTimeout : CDarkSendPool := signingTimeout V (sessionTimeout V (queueReady V p))

end Timeout

section Join
variable (p : CDarkSendPool)

def openSession (nDenom : ℤ) (txCollateral : CTransaction) : CDarkSendPool :=
  let p := updateState V { p with
    sessionDenom := nDenom
    sessionUsers := 1
    lastTimeChanged := V.timeMillis
    entries := [] } .queue
  { p with vecSessionCollateral := p.vecSessionCollateral++[txCollateral] }

def joinSession (txCollateral : CTransaction) : CDarkSendPool :=
  { p with
    sessionUsers := p.sessionUsers+1
    lastTimeChanged := V.timeMillis
    vecSessionCollateral := p.vecSessionCollateral++[txCollateral] }

def joinRefused (nDenom : ℤ) : Option String :=
  if poolMaxTransactions ≤ p.sessionUsers then some "Masternode queue is full."
  else if p.state ≠ .acceptingEntries ∧ p.state ≠ .queue then some "Incompatible mode."
  else if nDenom ≠ p.sessionDenom then some "No matching denominations found for mixing."
  else none

/-- `IsCompatibleWithSession`: the reason where it returns false. -/
def isCompatibleWithSession (nDenom : ℤ) (txCollateral : CTransaction) :
    CDarkSendPool × List Output × Option String :=
  if !isCollateralValid env V txCollateral then (p,[],some "Collateral not valid.")
  else
    let p := if p.sessionUsers < 0 then { p with sessionUsers := 0 } else p
    if p.sessionUsers = 0 then (openSession V p nDenom txCollateral,[.queue nDenom false],none)
    else
      match joinRefused p nDenom with
      | some error => (p,[],some error)
      | none => (joinSession V p txCollateral,[],none)

def tooRecent (mn : CMasterNode) : Bool :=
  mn.nLastDsq != 0 &&
    V.nDsqCount < mn.nLastDsq+((countMasternodesAboveProtocol V.vecMasternodes
      (getBlockVersion (tipHeight V.chain)) / 5 : ℕ) : ℤ)

/-- `ProcessMessageDarksend` on a "dsa" message. -/
def dsa (nVersion nDenom : ℤ) (txCollateral : CTransaction) : CDarkSendPool × List Output :=
  if !isVersionCompatible nVersion (tipHeight V.chain) then
    (p,[status p masternodeRejected "Incompatible version."])
  else
    match (getMasternodeByVin V.vecMasternodes V.activeVin).bind (fun mn => V.vecMasternodes[mn]?) with
    | none => (p,[status p masternodeRejected "Not in the masternode list."])
    | some mn =>
      if p.sessionUsers = 0 ∧ tooRecent V mn = true then
        (p,[status p masternodeRejected "Last Darksend was too recent."])
      else
        match isCompatibleWithSession env V p nDenom txCollateral with
        | (p,o,some error) => (p,o++[status p masternodeRejected error])
        | (p,o,none) => (p,o++[status p masternodeAccepted ""])

end Join

structure Dsi where
  vin : List CTxIn
  nAmount : ℤ
  txCollateral : CTransaction
  vout : List CTxOut

section Entry
variable (m : Dsi) (p : CDarkSendPool)

def Dsi.transaction : CTransaction := ⟨1,(V.adjustedTime % 2^32).toNat,m.vin,m.vout,0⟩

def outputsRefused : List CTxOut → Option String
  | [] => none
  | o::os =>
    if o.scriptPubKey.length ≠ 25 then some "Non-standard public key detected."
    else if !V.isNormalPaymentScript o.scriptPubKey then some "Invalid script detected."
    else outputsRefused os

/-- The tests in front of `AddEntry`. The source compares the fee with a hundredth of the
value in floating point; below the maximum that is exact. -/
def dsiRefused (nVersion : ℤ) : Option String :=
  let nValueIn := (m.vin.map (fun i => (valueIn V i).getD 0)).sum
  let nValueOut := (m.vout.map CTxOut.nValue).sum
  if !isVersionCompatible nVersion (tipHeight V.chain) then some "Incompatible version."
  else if !isSessionReady p then some "Session not complete!"
  else if !isCompatibleWithEntries p m.vout then some "Not compatible with existing transactions."
  else
    match outputsRefused V m.vout with
    | some error => some error
    | none =>
      if darksendPoolMax < nValueIn then some "Value more than Darksend pool maximum allows."
      else if m.vin.any (fun i => (valueIn V i).isNone) then
        some "Missing input transaction information."
      else if nValueIn < 100*(nValueIn-nValueOut) then some "Transaction fees are too high."
      else if !MasternodeList.acceptable env V.toView (m.transaction V) then
        some "Transaction not valid."
      else none

/-- The tests of `AddEntry`. -/
def entryRefused : Option String :=
  if m.vin.any (fun i => i.prevout.isNull || m.nAmount < 0) then some "Input is not valid."
  else if !isCollateralValid env V m.txCollateral then some "Collateral is not valid."
  else if poolMaxTransactions ≤ p.entries.length then some "Entries are full."
  else if m.vin.any (fun i => p.entries.any (fun v => v.sev.any (fun s => s.vin == i))) then
    some "Already have that input."
  else if p.state ≠ .acceptingEntries then some "Wrong state."
  else none

def Dsi.entry : CDarkSendEntry where
  sev := m.vin.map (fun i => ⟨false,i,[]⟩)
  amount := m.nAmount
  collateral := m.txCollateral
  vout := m.vout
  addedTime := V.time

/-- `AddEntry`: a refusal takes back one user of the session. -/
def addEntry : CDarkSendPool × Option String :=
  match entryRefused env V m p with
  | some error => ({ p with sessionUsers := p.sessionUsers-1 },some error)
  | none => ({ p with entries := p.entries++[m.entry V] },none)

/-- `ProcessMessageDarksend` on a "dsi" message. -/
def dsi (nVersion : ℤ) : CDarkSendPool × List Output :=
  match dsiRefused env V m p nVersion with
  | some error => (p,[status p masternodeRejected error])
  | none =>
    match addEntry env V m p with
    | (p,some error) => (p,[status p masternodeRejected error])
    | (p,none) =>
      let r := check env V p
      (r.1,status p masternodeAccepted ""::r.2++[status r.1 masternodeReset ""])

end Entry

section Script
variable (newVin : CTxIn)

/-- The inputs of the entries in order, as `SignatureValid` collects them. -/
def allInputs (p : CDarkSendPool) : List CDarkSendEntryVin :=
  p.entries.flatMap CDarkSendEntry.sev

/-- `SignatureValid`. The script is looked at only where an input of an entry equals the
new one, its script included; and the position asked for is one past the last. -/
def signatureValid (p : CDarkSendPool) : Bool :=
  let sevs := allInputs p
  match lastIndexOf newVin (sevs.map CDarkSendEntryVin.vin) with
  | none => true
  | some n =>
    let txNew : CTransaction := ⟨1,(V.adjustedTime % 2^32).toNat,sevs.map CDarkSendEntryVin.vin,
      p.entries.flatMap CDarkSendEntry.vout,0⟩
    V.verifyScript newVin.scriptSig ((sevs[n]?.map CDarkSendEntryVin.prevPubKey).getD []) 3
      (setScriptSig txNew n newVin.scriptSig) sevs.length

def sameInput (i : CTxIn) : Bool := newVin.prevout == i.prevout && i.nSequence == newVin.nSequence

/-- The loop of `AddSig`; none where no input is set by it. -/
def addSig : List CDarkSendEntryVin → Option (List CDarkSendEntryVin)
  | [] => none
  | s::ss =>
    if sameInput newVin s.vin then
      if s.isSigSet then none
      else some (⟨true,{ s.vin with scriptSig := newVin.scriptSig },[]⟩::ss)
    else (addSig ss).map (s::·)

def addSigs : List CDarkSendEntry → Option (List CDarkSendEntry)
  | [] => none
  | e::es =>
    match addSig newVin e.sev with
    | some sev => some ({ e with sev := sev }::es)
    | none => (addSigs es).map (e::·)

def storeScript (tx : CTransaction) : CTransaction :=
  { tx with vin := tx.vin.map (fun i =>
      if sameInput newVin i then { i with scriptSig := newVin.scriptSig } else i) }

def alreadyExists (p : CDarkSendPool) : Bool :=
  p.entries.any (fun v => v.sev.any (fun s => s.vin.scriptSig == newVin.scriptSig))

def addScriptSig (p : CDarkSendPool) : CDarkSendPool × Bool :=
  if alreadyExists newVin p then (p,false)
  else if !signatureValid V newVin p then (p,false)
  else if p.state = .signing then
    let p := { p with finalTransaction := storeScript newVin p.finalTransaction }
    match addSigs newVin p.entries with
    | some entries => ({ p with entries := entries },true)
    | none => (p,false)
  else (p,false)

end Script

def addScriptSigs : List CTxIn → CDarkSendPool → CDarkSendPool × List Output × Bool
  | [], p => (p,[],false)
  | item::sigs, p =>
    let (p,added) := addScriptSig V item p
    let (q,o,success) := addScriptSigs sigs p
    (q,.scriptSig item p.finalTransaction added::o,added || success)

/-- `ProcessMessageDarksend` on a "dss" message. -/
def dss (nVersion : ℤ) (sigs : List CTxIn) (p : CDarkSendPool) : CDarkSendPool × List Output :=
  if !isVersionCompatible nVersion (tipHeight V.chain) then (p,[])
  else
    match addScriptSigs V sigs p with
    | (p,o,false) => (p,o)
    | (p,o,true) =>
      let r := check env V p
      (r.1,o++r.2++[status r.1 masternodeReset ""])

inductive Message where
  | dsa (nVersion nDenom : ℤ) (txCollateral : CTransaction)
  | dsi (nVersion : ℤ) (m : Dsi)
  | dss (nVersion : ℤ) (sigs : List CTxIn)
  | check
  | timeout

structure Event where
  view : View
  message : Message

def handle (e : Event) (p : CDarkSendPool) : CDarkSendPool × List Output :=
  match e.message with
  | .dsa nVersion nDenom txCollateral => dsa env e.view p nVersion nDenom txCollateral
  | .dsi nVersion m => dsi env e.view m p nVersion
  | .dss nVersion sigs => dss env e.view nVersion sigs p
  | .check => check env e.view p
  | .timeout => (checkTimeout e.view p,[])

def start (timeMillis sessionID : ℤ) : CDarkSendPool where
  myEntries := []
  entries := []
  finalTransaction := ⟨1,0,[],[],0⟩
  lastTimeChanged := timeMillis
  state := .acceptingEntries
  sessionID := sessionID
  sessionDenom := 0
  sessionUsers := 0
  vecSessionCollateral := []

def step (e : Event) (p : CDarkSendPool) : CDarkSendPool := (handle env e p).1

end SwippCore.DarkSendPool
