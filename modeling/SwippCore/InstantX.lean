import SwippCore.Primitives
import Mathlib.Data.BitVec

/-!
# Locked transactions

The message handlers of instantx.cpp over the maps that they share. What the handlers read from
elsewhere (the clock, the masternode list and its ranks, the outcome of `AcceptToMemoryPool`,
the transactions and block heights known to the node) is an argument of each call, since all of
it changes between calls.
-/

set_option autoImplicit false

namespace SwippCore.InstantX
open FinMap

structure CConsensusVote where
  vinMasternode : CTxIn
  txHash : Uint256
  nBlockHeight : ℤ
  vchMasterNodeSignature : List UInt8
  deriving DecidableEq, Repr

structure CTransactionLock where
  nBlockHeight : ℤ
  txHash : Uint256
  vecConsensusVotes : List CConsensusVote
  nExpiration : ℤ
  nTimeout : ℤ
  deriving DecidableEq, Repr

inductive CInv where
  | txLockRequest (hash : Uint256)
  | txLockVote (hash : Uint256)
  deriving DecidableEq, Repr

structure View where
  time : ℤ
  adjustedTime : ℤ
  fLiteMode : Bool
  /-- `IsSporkActive(SPORK_MASTERNODE_PAYMENTS_ENFORCEMENT)` -/
  sporkActive : Bool
  /-- `GetSporkValue(SPORK_MAX_INSTANTX_VALUE)` -/
  maxInstantXValue : ℤ
  isNormalPaymentScript : CScript → Bool
  /-- `GetTransaction`: the transaction and the hash of its block -/
  getTransaction : Uint256 → Option (CTransaction × Uint256)
  /-- the height filed in `mapBlockIndex` -/
  blockHeight : Uint256 → Option ℤ
  nBestHeight : ℤ
  /-- `GetMasternodeRank` -/
  masternodeRank : CTxIn → ℤ → ℤ
  /-- the masternodes with the key that signs their votes -/
  vecMasternodes : List (CTxIn × List UInt8)
  /-- `darkSendSigner.VerifyMessage` -/
  verifyMessage : List UInt8 → List UInt8 → String → Bool
  fMasterNode : Bool
  activeMasternodeVin : CTxIn
  /-- `Sign` with the key of this node -/
  signMessage : String → Option (List UInt8)
  acceptToMemoryPool : CTransaction → Bool

structure State where
  mapTxLockReq : Dict Uint256 CTransaction
  mapTxLockReqRejected : Dict Uint256 CTransaction
  mapTxLockVote : Dict Uint256 CConsensusVote
  mapTxLocks : Dict Uint256 CTransactionLock
  mapLockedInputs : Dict COutPoint Uint256
  mapUnknownVotes : Dict Uint256 ℤ
  /-- the inventory pushed to the peers so far -/
  vInv : List CInv

def State.empty : State := ⟨∅,∅,∅,∅,∅,∅,[]⟩

def CConsensusVote.getHash (v : CConsensusVote) : Uint256 :=
  v.vinMasternode.prevout.hash+BitVec.ofNat 256 v.vinMasternode.prevout.n+v.txHash

def strMessage (txHash : Uint256) (nBlockHeight : ℤ) : String :=
  txHash.toHex ++ toString nBlockHeight

/-- `GetMasternodeByVin`, with the key found there. -/
def getMasternodeByVin (A : View) (vin : CTxIn) : Option (List UInt8) :=
  (A.vecMasternodes.find? (fun mn => mn.1 == vin)).map Prod.snd

def CConsensusVote.signatureValid (A : View) (v : CConsensusVote) : Bool :=
  match getMasternodeByVin A v.vinMasternode with
  | none => false
  | some pubkey2 =>
    A.verifyMessage pubkey2 v.vchMasterNodeSignature (strMessage v.txHash v.nBlockHeight)

def CTransactionLock.addSignature (l : CTransactionLock) (cv : CConsensusVote) :
    CTransactionLock :=
  { l with vecConsensusVotes := l.vecConsensusVotes++[cv] }

def CTransactionLock.countedVotes (l : CTransactionLock) : List CConsensusVote :=
  l.vecConsensusVotes.filter (fun v => v.nBlockHeight == l.nBlockHeight)

def CTransactionLock.countSignatures (l : CTransactionLock) : ℤ :=
  if l.nBlockHeight = 0 then -1 else l.countedVotes.length

def setExpiration (time : ℤ) (h : Uint256) (locks : Dict Uint256 CTransactionLock) :
    Dict Uint256 CTransactionLock :=
  match locks.lookup h with
  | none => locks
  | some l => locks.insert h { l with nExpiration := time }

/-- `CheckForConflictingLocks` on the hash and the outpoints of the transaction:
the answer, and the locks with the two conflicting ones expired. -/
def checkForConflictingLocks (time : ℤ) (hash : Uint256) (locked : Dict COutPoint Uint256) :
    List COutPoint → Dict Uint256 CTransactionLock → Bool × Dict Uint256 CTransactionLock
  | [], locks => (false,locks)
  | o::os, locks =>
    match locked.lookup o with
    | none => checkForConflictingLocks time hash locked os locks
    | some h =>
      if h ≠ hash then (true,setExpiration time h (setExpiration time hash locks))
      else checkForConflictingLocks time hash locked os locks

def lockInputs (hash : Uint256) : List COutPoint → Dict COutPoint Uint256 →
    Dict COutPoint Uint256
  | [], locked => locked
  | o::os, locked => lockInputs hash os (insertNew locked o hash)

def nullTransaction (A : View) : CTransaction := ⟨1,A.adjustedTime.toNat,[],[],0⟩

variable (hashTx : CTransaction → Uint256)

def valueIn (A : View) (i : CTxIn) : Option ℤ :=
  (A.getTransaction i.prevout.hash).map (fun r => ((r.1.vout[i.prevout.n]?).map CTxOut.nValue).getD 0)

def isIXTXValid (A : View) (txCollateral : CTransaction) : Bool :=
  let nValueOut := (txCollateral.vout.map CTxOut.nValue).sum
  let nValueIn := (txCollateral.vin.map (fun i => (valueIn A i).getD 0)).sum
  let missingTx := txCollateral.vin.any (fun i => (valueIn A i).isNone)
  if txCollateral.vout.length < 1 || txCollateral.nLockTime != 0 then false
  else if nValueOut > A.maxInstantXValue*coin then false
  else if missingTx then true
  else !(nValueIn-nValueOut < cent)

def getInputAge (A : View) (i : CTxIn) : ℤ :=
  match A.getTransaction i.prevout.hash with
  | none => 0
  | some (_,hashBlock) =>
    match A.blockHeight hashBlock with
    | none => 0
    | some nHeight => A.nBestHeight-nHeight

/-- The age loop of `CreateNewLock`: the last age looked at, or none if one is below six. -/
def inputAges (A : View) : ℤ → List CTxIn → Option ℤ
  | nTxAge, [] => some nTxAge
  | _, i::is => if getInputAge A i < 6 then none else inputAges A (getInputAge A i) is

/-- `CreateNewLock`: the height of the lock, zero when an input is too new. -/
def createNewLock (A : View) (tx : CTransaction) (s : State) : ℤ × State :=
  match inputAges A 0 tx.vin.reverse with
  | none => (0,s)
  | some nTxAge =>
    let nBlockHeight := A.nBestHeight-nTxAge+4
    match s.mapTxLocks.lookup (hashTx tx) with
    | none =>
      let newLock := ⟨nBlockHeight,hashTx tx,[],A.time+60*60,A.time+60*5⟩
      (nBlockHeight,{ s with mapTxLocks := s.mapTxLocks.insert (hashTx tx) newLock })
    | some l =>
      (nBlockHeight,{ s with
        mapTxLocks := s.mapTxLocks.insert (hashTx tx) { l with nBlockHeight := nBlockHeight } })

def ownVote (A : View) (hash : Uint256) (nBlockHeight : ℤ) : Option CConsensusVote :=
  let n := A.masternodeRank A.activeMasternodeVin nBlockHeight
  if !A.fMasterNode || n == -1 || instantxSignaturesTotal < n then none
  else
    match A.signMessage (strMessage hash nBlockHeight) with
    | none => none
    | some sig =>
      let ctx : CConsensusVote := ⟨A.activeMasternodeVin,hash,nBlockHeight,sig⟩
      if ctx.signatureValid A then some ctx else none

def doConsensusVote (A : View) (tx : CTransaction) (nBlockHeight : ℤ) (s : State) : State :=
  match ownVote A (hashTx tx) nBlockHeight with
  | none => s
  | some ctx => { s with
      mapTxLockVote := s.mapTxLockVote.insert ctx.getHash ctx
      vInv := s.vInv++[.txLockVote ctx.getHash] }

def lockFor (A : View) (hash : Uint256) (s : State) : CTransactionLock :=
  match s.mapTxLocks.lookup hash with
  | some l => l
  | none => ⟨0,hash,[],A.time+60*60,A.time+60*5⟩

/-- A vote brought its lock to the required number of signatures. The request is
read with `operator[]`, which creates an empty one if it has not arrived. -/
def completeLock (A : View) (hash : Uint256) (s : State) : State :=
  let (tx,req) := getDefault s.mapTxLockReq hash (nullTransaction A)
  let (conflict,locks) := checkForConflictingLocks A.time (hashTx tx) s.mapLockedInputs
    tx.prevouts s.mapTxLocks
  let s := { s with mapTxLockReq := req, mapTxLocks := locks }
  if conflict then s
  else { s with mapLockedInputs := lockInputs hash tx.prevouts s.mapLockedInputs }

/-- The tests of `ProcessConsensusVote`: rank and signature. -/
def voteAccepted (A : View) (ctx : CConsensusVote) : Bool :=
  let n := A.masternodeRank ctx.vinMasternode ctx.nBlockHeight
  n != -1 && n ≤ instantxSignaturesTotal && ctx.signatureValid A

def processConsensusVote (A : View) (ctx : CConsensusVote) (s : State) : Bool × State :=
  if voteAccepted A ctx then
    let l := (lockFor A ctx.txHash s).addSignature ctx
    let s := { s with mapTxLocks := s.mapTxLocks.insert ctx.txHash l }
    if instantxSignaturesRequired ≤ l.countSignatures then (true,completeLock hashTx A ctx.txHash s)
    else (true,s)
  else (false,s)

/-- `GetAverageVoteTime`, over a map that is never empty where it is called. -/
def getAverageVoteTime (m : Dict Uint256 ℤ) : ℤ :=
  ((m.entries.map Sigma.snd).sum).tdiv m.entries.length

/-- The relay of an accepted vote, held back when its masternode votes too often
for transactions that are not known here. -/
def relayVote (A : View) (ctx : CConsensusVote) (s : State) : State :=
  let key := ctx.vinMasternode.prevout.hash
  let relay (s : State) : State := { s with vInv := s.vInv++[.txLockVote ctx.getHash] }
  if ctx.txHash ∈ s.mapTxLockReq ∨ ctx.txHash ∈ s.mapTxLockReqRejected then relay s
  else
    let (due,unknown) := getDefault s.mapUnknownVotes key (A.time+60*10)
    if due > A.time && due-getAverageVoteTime unknown > 60*10 then
      { s with mapUnknownVotes := unknown }
    else relay { s with mapUnknownVotes := unknown.insert key (A.time+60*10) }

/-- The `txlreq` branch after its first tests, when the pool took the transaction. -/
def acceptRequest (A : View) (tx : CTransaction) (nBlockHeight : ℤ) (s : State) : State :=
  let s := { s with vInv := s.vInv++[.txLockRequest (hashTx tx)] }
  let s := doConsensusVote hashTx A tx nBlockHeight s
  { s with mapTxLockReq := insertNew s.mapTxLockReq (hashTx tx) tx }

/-- The `txlreq` branch after its first tests, when the pool refused the transaction. -/
def rejectRequest (A : View) (tx : CTransaction) (s : State) : State :=
  let s := { s with
    mapTxLockReqRejected := insertNew s.mapTxLockReqRejected (hashTx tx) tx
    mapLockedInputs := lockInputs (hashTx tx) tx.prevouts s.mapLockedInputs }
  match s.mapTxLocks.lookup (hashTx tx) with
  | none => s
  | some l =>
    if instantxSignaturesRequired ≤ l.countSignatures then
      let (conflict,locks) := checkForConflictingLocks A.time (hashTx tx) s.mapLockedInputs
        tx.prevouts s.mapTxLocks
      let s := { s with mapTxLocks := locks }
      if conflict then s
      else { s with mapTxLockReq := insertNew s.mapTxLockReq (hashTx tx) tx }
    else s

/-- The tests in front of a `txlreq`. -/
def requestDropped (A : View) (tx : CTransaction) (s : State) : Bool :=
  A.fLiteMode || !A.sporkActive || hashTx tx ∈ s.mapTxLockReq ||
    hashTx tx ∈ s.mapTxLockReqRejected || !isIXTXValid A tx ||
    !tx.vout.all (fun o => A.isNormalPaymentScript o.scriptPubKey)

def txlreq (A : View) (tx : CTransaction) (s : State) : State :=
  if requestDropped hashTx A tx s then s
  else
    let (nBlockHeight,s) := createNewLock hashTx A tx s
    if A.acceptToMemoryPool tx then acceptRequest hashTx A tx nBlockHeight s
    else rejectRequest hashTx A tx s

def txlvote (A : View) (ctx : CConsensusVote) (s : State) : State :=
  if A.fLiteMode || !A.sporkActive || ctx.getHash ∈ s.mapTxLockVote then s
  else
    let s := { s with mapTxLockVote := s.mapTxLockVote.insert ctx.getHash ctx }
    let (processed,s) := processConsensusVote hashTx A ctx s
    if processed then relayVote A ctx s else s

/-- One round of the loop in `CleanTransactionLocksList`. -/
def cleanLock (time : ℤ) (h : Uint256) (s : State) : State :=
  match s.mapTxLocks.lookup h with
  | none => s
  | some l =>
    if l.nExpiration < time then
      let s := match s.mapTxLockReq.lookup l.txHash with
        | none => s
        | some tx => { s with
            mapLockedInputs := eraseAll s.mapLockedInputs tx.prevouts
            mapTxLockReq := s.mapTxLockReq.erase l.txHash
            mapTxLockReqRejected := s.mapTxLockReqRejected.erase l.txHash
            mapTxLockVote := eraseAll s.mapTxLockVote
              (l.vecConsensusVotes.map CConsensusVote.getHash) }
      { s with mapTxLocks := s.mapTxLocks.erase h }
    else s

def cleanLocks (time : ℤ) : List Uint256 → State → State
  | [], s => s
  | h::hs, s => cleanLocks time hs (cleanLock time h s)

/-- `CleanTransactionLocksList`, in the order of the hashes. -/
def cleanTransactionLocksList (A : View) (s : State) : State :=
  cleanLocks A.time (s.mapTxLocks.keys.mergeSort (fun a b => a ≤ b)) s

inductive Step where
  | txlreq (A : View) (tx : CTransaction)
  | txlvote (A : View) (ctx : CConsensusVote)
  | clean (A : View)

def step (s : State) : Step → State
  | .txlreq A tx => txlreq hashTx A tx s
  | .txlvote A ctx => txlvote hashTx A ctx s
  | .clean A => cleanTransactionLocksList A s

def run : List Step → State
  | [] => State.empty
  | e::es => step hashTx (run es) e

/-- A view for evaluation: inputs ten blocks deep, masternodes ranked by their
outpoint, and a pool that takes everything. -/
def sampleView : View where
  time := 1000
  adjustedTime := 1000
  fLiteMode := false
  sporkActive := true
  maxInstantXValue := 1000
  isNormalPaymentScript _ := true
  getTransaction h := some (⟨1,1,[],[⟨2*cent,[]⟩],0⟩,h)
  blockHeight _ := some 10
  nBestHeight := 20
  masternodeRank vin _ := vin.prevout.n+1
  vecMasternodes := (List.range 40).map (fun n => (⟨⟨7,n⟩,[],0⟩,[]))
  verifyMessage _ sig _ := sig.isEmpty
  fMasterNode := false
  activeMasternodeVin := ⟨⟨7,0⟩,[],0⟩
  signMessage _ := none
  acceptToMemoryPool _ := true

def sampleRequest : CTransaction := ⟨1,5,[⟨⟨9,0⟩,[],0⟩],[⟨cent,[]⟩],0⟩

def sampleVote (n : ℕ) : CConsensusVote := ⟨⟨⟨7,n⟩,[],0⟩,5,14,[]⟩

end SwippCore.InstantX

namespace SwippCore.InstantX
open FinMap

theorem lookup_lock_inputs (hash : Uint256) (os : List COutPoint)
    (locked : Dict COutPoint Uint256) (o : COutPoint) (h : Uint256) :
    (lockInputs hash os locked).lookup o = some h ↔
      locked.lookup o = some h ∨ locked.lookup o = none ∧ o ∈ os ∧ h = hash := by
  induction os generalizing locked with
  | nil => simp [lockInputs]
  | cons x xs ih =>
    rw [lockInputs, ih, lookup_insert_new]
    by_cases hox : o = x
    · subst hox
      cases locked.lookup o <;> simp [eq_comm]
    · simp [hox]

def CTransactionLock.held (l : CTransactionLock) : ℤ × Uint256 × List CConsensusVote :=
  (l.nBlockHeight,l.txHash,l.vecConsensusVotes)

def SameLocks (a b : Dict Uint256 CTransactionLock) : Prop :=
  ∀ h, (a.lookup h).map CTransactionLock.held = (b.lookup h).map CTransactionLock.held

variable {l : CTransactionLock}

theorem same_locks_some {a b : Dict Uint256 CTransactionLock} (hs : SameLocks a b) {h : Uint256}
    (hl : a.lookup h = some l) : ∃ m, b.lookup h = some m ∧ m.held = l.held := by
  have := hs h
  rw [hl, Option.map_some] at this
  obtain ⟨m,hm,he⟩ := Option.map_eq_some_iff.mp this.symm
  exact ⟨m,hm,he⟩

theorem held_count {m : CTransactionLock} (h : m.held = l.held) :
    m.countSignatures = l.countSignatures := by
  simp only [CTransactionLock.held, Prod.mk.injEq] at h
  simp only [CTransactionLock.countSignatures, CTransactionLock.countedVotes, h.1, h.2.2]

theorem same_locks_set_expiration (time : ℤ) (h : Uint256) (locks : Dict Uint256 CTransactionLock) :
    SameLocks (setExpiration time h locks) locks := by
  intro k
  unfold setExpiration
  cases hl : locks.lookup h with
  | none => rfl
  | some l =>
    simp only [lookup_insert_if]
    split_ifs with hk
    · rw [hk, hl]
      rfl
    · rfl

theorem same_locks_trans {a b c : Dict Uint256 CTransactionLock} (h : SameLocks a b)
    (k : SameLocks b c) : SameLocks a c :=
  fun x => (h x).trans (k x)

section
variable (time : ℤ) (hash : Uint256) (locked : Dict COutPoint Uint256) (os : List COutPoint)
  (locks : Dict Uint256 CTransactionLock)

theorem conflict_same_locks :
    SameLocks (checkForConflictingLocks time hash locked os locks).2 locks := by
  induction os with
  | nil => exact fun _ => rfl
  | cons o os ih =>
    unfold checkForConflictingLocks
    split
    · exact ih
    · split_ifs
      · exact same_locks_trans (same_locks_set_expiration time _ _)
          (same_locks_set_expiration time _ _)
      · exact ih

theorem conflict_false_iff :
    (checkForConflictingLocks time hash locked os locks).1 = false ↔
      ∀ o ∈ os, ∀ h, locked.lookup o = some h → h = hash := by
  induction os with
  | nil => simp [checkForConflictingLocks]
  | cons o os ih =>
    unfold checkForConflictingLocks
    cases hl : locked.lookup o with
    | none => simpa [hl] using ih
    | some h =>
      by_cases hh : h = hash
      · simpa [hl, hh] using ih
      · simp [hl, hh]

end

theorem conflict_false_locks {time : ℤ} {hash : Uint256} {locked : Dict COutPoint Uint256}
    {os : List COutPoint} {locks : Dict Uint256 CTransactionLock}
    (h : (checkForConflictingLocks time hash locked os locks).1 = false) :
    (checkForConflictingLocks time hash locked os locks).2 = locks := by
  induction os with
  | nil => rfl
  | cons o os ih =>
    unfold checkForConflictingLocks at h ⊢
    split at h
    · exact ih h
    · split_ifs at h ⊢
      exact ih h

theorem count_add_signature (l : CTransactionLock) (v : CConsensusVote) :
    l.countSignatures ≤ (l.addSignature v).countSignatures := by
  simp only [CTransactionLock.countSignatures, CTransactionLock.countedVotes,
    CTransactionLock.addSignature, List.filter_append, List.length_append]
  split_ifs <;> omega

variable (hashTx : CTransaction → Uint256) (A : View) {s : State}

theorem lock_for_lookup {h : Uint256} (hl : s.mapTxLocks.lookup h = some l) :
    lockFor A h s = l := by
  simp [lockFor, hl]

theorem lock_for_none {h : Uint256} (hl : s.mapTxLocks.lookup h = none) :
    (lockFor A h s).vecConsensusVotes = [] := by
  simp [lockFor, hl]

theorem lock_for_file_vote (h : Uint256) (s : State) (m : Dict Uint256 CConsensusVote) :
    lockFor A h { s with mapTxLockVote := m } = lockFor A h s := rfl

theorem create_new_lock_cases (tx : CTransaction) (s : State) :
    (createNewLock hashTx A tx s).2 = s ∨
    ∃ l, (createNewLock hashTx A tx s).2 =
        { s with mapTxLocks := s.mapTxLocks.insert (hashTx tx) l } ∧
      (s.mapTxLocks.lookup (hashTx tx) = none ∧ l.txHash = hashTx tx ∧ l.vecConsensusVotes = [] ∨
        ∃ m, s.mapTxLocks.lookup (hashTx tx) = some m ∧ l.txHash = m.txHash ∧
          l.vecConsensusVotes = m.vecConsensusVotes) := by
  unfold createNewLock
  split
  · exact Or.inl rfl
  · rename_i nTxAge _
    split
    · rename_i hl
      exact Or.inr ⟨_,rfl,Or.inl ⟨hl,rfl,rfl⟩⟩
    · rename_i m hl
      exact Or.inr ⟨_,rfl,Or.inr ⟨m,hl,rfl,rfl⟩⟩

theorem relay_vote_eq (v : CConsensusVote) (s : State) :
    ∃ unknown inv, relayVote A v s = { s with mapUnknownVotes := unknown, vInv := inv } := by
  unfold relayVote
  simp only
  split_ifs <;> exact ⟨_,_,rfl⟩

/-- The state in which a fresh vote for `v.txHash` has joined its lock. -/
def fileVote (A : View) (v : CConsensusVote) (s : State) : State :=
  { s with
    mapTxLockVote := s.mapTxLockVote.insert v.getHash v
    mapTxLocks := s.mapTxLocks.insert v.txHash ((lockFor A v.txHash s).addSignature v) }

def Handling (A : View) : Prop := A.fLiteMode = false ∧ A.sporkActive = true

variable {hashTx}

theorem txlvote_ignored {A : View} (hA : ¬Handling A) (v : CConsensusVote) (s : State) :
    txlvote hashTx A v s = s := by
  unfold txlvote
  rw [if_pos]
  unfold Handling at hA
  cases h : A.fLiteMode <;> cases h' : A.sporkActive <;> simp_all

variable {v : CConsensusVote}

theorem txlvote_seen {A : View} (h : v.getHash ∈ s.mapTxLockVote) : txlvote hashTx A v s = s := by
  simp [txlvote, h]

theorem txlvote_refused {A : View} (hA : Handling A) (h : v.getHash ∉ s.mapTxLockVote)
    (hv : voteAccepted A v = false) :
    txlvote hashTx A v s = { s with mapTxLockVote := s.mapTxLockVote.insert v.getHash v } := by
  simp [txlvote, h, hA.1, hA.2, processConsensusVote, hv]

variable (hashTx)

theorem txlvote_counted {A : View} (hA : Handling A) (h : v.getHash ∉ s.mapTxLockVote)
    (hv : voteAccepted A v = true) :
    ∃ unknown inv, txlvote hashTx A v s = { (if instantxSignaturesRequired ≤
        ((lockFor A v.txHash s).addSignature v).countSignatures
      then completeLock hashTx A v.txHash (fileVote A v s) else fileVote A v s) with
      mapUnknownVotes := unknown, vInv := inv } := by
  by_cases hc : instantxSignaturesRequired ≤
      ((lockFor A v.txHash s).addSignature v).countSignatures
  · simp only [txlvote, h, hA.1, hA.2, processConsensusVote, hv, lock_for_file_vote, hc, if_true]
    exact relay_vote_eq A v _
  · simp only [txlvote, h, hA.1, hA.2, processConsensusVote, hv, lock_for_file_vote, hc, if_true,
      if_false]
    exact relay_vote_eq A v _

theorem complete_lock_votes (h : Uint256) (s : State) :
    (completeLock hashTx A h s).mapTxLockVote = s.mapTxLockVote := by
  unfold completeLock
  simp only
  split_ifs <;> rfl

theorem complete_lock_locks (h : Uint256) (s : State) :
    SameLocks (completeLock hashTx A h s).mapTxLocks s.mapTxLocks := by
  unfold completeLock
  simp only
  split_ifs <;> exact conflict_same_locks _ _ _ _ _

end SwippCore.InstantX
