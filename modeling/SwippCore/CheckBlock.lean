import SwippCore.Primitives
import SwippCore.Lib.Checks

/-!
# CheckTransaction and CheckBlock

The checks that need no transaction index. Two of them still read the best
chain: the masternode payment, which is enforced only on a block whose parent
is the tip, and the test whether the node is catching up. The two statics of
that test are touched by every caller of it, so their values are an input.
-/

set_option autoImplicit false

namespace SwippCore
open FinMap Checks

structure Best where
  pindexBest : Option CBlockIndex
  nBestHeight : ℤ

structure Ambient where
  adjustedTime : ℤ
  time : ℤ
  mapLockedInputs : Dict COutPoint Uint256
  /-- `masternodePayments.GetBlockPayee` -/
  blockPayee : ℤ → Option CScript
  pindexLastBest : Option Uint256
  nLastUpdate : ℤ

variable (env : Env)

def legacySigOpCount (tx : CTransaction) : ℕ :=
  (tx.vin.map (fun i => env.scriptSigOps i.scriptSig)).sum +
    (tx.vout.map (fun o => env.scriptSigOps o.scriptPubKey)).sum

/-- `CTransaction::GetValueOut`; the running total is range checked as well. -/
def valueOutFrom : ℤ → List CTxOut → Except Failure ℤ
  | nValueOut, [] => .ok nValueOut
  | nValueOut, o::os =>
    if moneyRange o.nValue && moneyRange (nValueOut+o.nValue) then
      valueOutFrom (nValueOut+o.nValue) os
    else .error (.throw "CTransaction::GetValueOut() : value out of range")

def CTransaction.getValueOut (tx : CTransaction) : Except Failure ℤ := valueOutFrom 0 tx.vout

def checkOutputs (tx : CTransaction) : ℤ → List CTxOut → Except Failure Unit
  | _, [] => .ok ()
  | nValueOut, o::os => do
    require (!(o.isEmpty && !tx.isCoinBase && !tx.isCoinStake))
      (.error 100 "CTransaction::CheckTransaction() : txout empty for user transaction")
    require (0 ≤ o.nValue)
      (.error 100 "CTransaction::CheckTransaction() : txout.nValue negative")
    require (o.nValue ≤ 5000000*coin)
      (.error 100 "CTransaction::CheckTransaction() : txout.nValue too high")
    require (moneyRange (nValueOut+o.nValue))
      (.error 100 "CTransaction::CheckTransaction() : txout total out of range")
    checkOutputs tx (nValueOut+o.nValue) os

def checkTransaction (tx : CTransaction) : Except Failure Unit := do
  require (!tx.vin.isEmpty) (.error 10 "CTransaction::CheckTransaction() : vin empty")
  require (!tx.vout.isEmpty) (.error 10 "CTransaction::CheckTransaction() : vout empty")
  require (env.txSize tx ≤ maxBlockSize)
    (.error 100 "CTransaction::CheckTransaction() : size limits failed")
  checkOutputs tx 0 tx.vout
  -- a duplicate input is refused without a message and without a score
  require (tx.prevouts.Nodup) (.error 0 "")
  if tx.isCoinBase then
    forEach (fun i : CTxIn => require (2 ≤ i.scriptSig.length && i.scriptSig.length ≤ 100)
      (.error 100 "CTransaction::CheckTransaction() : coinbase script size is invalid"))
      (tx.vin.take 1)
  else
    forEach (fun i : CTxIn => require (!i.prevout.isNull)
      (.error 10 "CTransaction::CheckTransaction() : prevout is null")) tx.vin

/-- `CBigNum::SetCompact`: three bytes of magnitude under a sign bit, and a size in bytes. -/
def setCompact (nCompact : ℕ) : ℤ :=
  let nSize := nCompact/2^24
  let word := nCompact % 2^24
  let magnitude := word % 2^23
  let value : ℕ := if nSize ≤ 3 then magnitude/256^(3-nSize) else magnitude*256^(nSize-3)
  if 2^23 ≤ word then -value else value

def checkProofOfWork (best : Best) (hash : Uint256) (nBits : ℕ) : Bool :=
  let bnTarget := setCompact nBits
  if bnTarget ≤ 0 || env.proofOfWorkLimit < bnTarget then false
  else if bnTarget < hash.toNat then env.testNet && best.pindexBest.isNone
  else true

def isInitialBlockDownload (best : Best) (amb : Ambient) : Bool :=
  match best.pindexBest with
  | none => true
  | some tip =>
    if best.nBestHeight < env.totalBlocksEstimate then true
    else
      let nLastUpdate :=
        if some tip.hashBlock ≠ amb.pindexLastBest then amb.time else amb.nLastUpdate
      amb.time-nLastUpdate < 15 && (tip.nTime : ℤ) < amb.time-8*60*60

/-- `blockValue * 0.4`, truncated; the arguments are never negative. -/
def getMasternodePayment (blockValue : ℤ) : ℤ := 2*blockValue/5

def futureDriftV2 (nTime : ℤ) : ℤ := nTime+10*60

def merkleLevel (env : Env) : List Uint256 → List Uint256
  | [] => []
  | [a] => [env.hashPair a a]
  | a::b::rest => env.hashPair a b::merkleLevel env rest

def merkleRootOf : ℕ → List Uint256 → Uint256
  | _, [] => 0
  | _, [h] => h
  | 0, h::_ => h
  | fuel+1, row => merkleRootOf fuel (merkleLevel env row)

def buildMerkleTree (b : CBlock) : Uint256 :=
  merkleRootOf env b.vtx.length (b.vtx.map env.hashTx)

def lockConflict (locked : Dict COutPoint Uint256) (tx : CTransaction) : Bool :=
  !tx.isCoinBase && tx.prevouts.any (fun o =>
    match locked.lookup o with
    | none => false
    | some h => h != env.hashTx tx)

def lockRefusal : Failure :=
  .error 0 "CheckBlock() : found conflicting transaction with transaction lock"

def checkLocks (locked : Dict COutPoint Uint256) (b : CBlock) : Except Failure Unit :=
  forEach (fun tx => require (!lockConflict env locked tx) lockRefusal) b.vtx

def foundPayment (payee : Option CScript) (amount : ℤ) (vout : List CTxOut) : Bool :=
  match payee with
  | none => true
  | some script => script.isEmpty ||
    vout.any (fun o => o.nValue == amount && o.scriptPubKey == script)

def checkMasternodePayment (best : Best) (amb : Ambient) (b : CBlock) : Except Failure Unit :=
  match best.pindexBest with
  | none => .ok ()
  | some pindex =>
    if startMasternodePayments < b.nTime && (b.isProofOfStake || 140000 ≤ pindex.nHeight+1) &&
        pindex.hashBlock == b.hashPrevBlock then
      match b.vtx[if b.isProofOfStake then 1 else 0]? with
      | none => .error .crash
      | some tx => do
        let blockValue ← tx.getValueOut
        let found := foundPayment (amb.blockPayee (pindex.nHeight+1))
          (getMasternodePayment blockValue) tx.vout
        require (isInitialBlockDownload env best amb || found)
          (.error 100 "CheckBlock() : Couldn't find masternode payment or payee")
    else .ok ()

def checkPeer (best : Best) (pfrom : Option ℤ) : Except Failure Unit :=
  match pfrom, best.pindexBest with
  | some nVersion, some pindex =>
    require (!((93000 ≤ pindex.nHeight+1 && pindex.nHeight+1 < 140000 && nVersion < 69200) ||
        (140000 ≤ pindex.nHeight+1 && nVersion < minPeerProtoVersion)))
      (.error 100 "isVersionCompatible() : failed to pass")
  | _, _ => .ok ()

def checkStructure (b : CBlock) : Except Failure Unit := do
  require ((b.vtx.take 1).any CTransaction.isCoinBase)
    (.error 100 "CheckBlock() : first tx is not coinbase")
  require (!(b.vtx.drop 1).any CTransaction.isCoinBase)
    (.error 100 "CheckBlock() : more than one coinbase")
  if b.isProofOfStake then do
    require ((b.vtx.take 1).all (fun tx => tx.vout.length == 1 && tx.vout.all CTxOut.isEmpty))
      (.error 100 "CheckBlock() : coinbase output not empty for proof-of-stake block")
    require (((b.vtx.drop 1).take 1).all CTransaction.isCoinStake)
      (.error 100 "CheckBlock() : second tx is not coinstake")
    require (!(b.vtx.drop 2).any CTransaction.isCoinStake)
      (.error 100 "CheckBlock() : more than one coinstake")
  else .ok ()

/-- A refusal of `CheckTransaction` keeps its score and gets the block's message. -/
def withBlockMessage : Except Failure Unit → Except Failure Unit
  | .error (.error nDoS _) => .error (.error nDoS "CheckBlock() : CheckTransaction failed")
  | r => r

def checkTransactions (b : CBlock) : Except Failure Unit :=
  forEach (fun tx => do
    withBlockMessage (checkTransaction env tx)
    require (tx.nTime ≤ b.nTime)
      (.error 50 "CheckBlock() : block timestamp earlier than transaction timestamp")) b.vtx

/-- `CBlock::CheckBlock`; `pfrom` is the protocol version of the sending peer. -/
def checkBlock (best : Best) (amb : Ambient) (b : CBlock) (pfrom : Option ℤ) (fCheckPOW : Bool)
    (fCheckMerkleRoot : Bool) (fCheckSig : Bool) : Except Failure Unit := do
  checkPeer best pfrom
  require (!(b.vtx.isEmpty || maxBlockSize < b.vtx.length || maxBlockSize < env.blockSize b))
    (.error 100 "CheckBlock() : size limits failed")
  require (!(fCheckPOW && b.isProofOfWork && !checkProofOfWork env best (env.hashPoW b) b.nBits))
    (.error 50 "CheckBlock() : proof of work failed")
  require ((b.nTime : ℤ) ≤ futureDriftV2 amb.adjustedTime)
    (.error 0 "CheckBlock() : block timestamp too far in the future")
  checkStructure b
  require (!(fCheckSig && !env.checkBlockSignature b))
    (.error 100 "CheckBlock() : bad proof-of-stake block signature")
  checkLocks env amb.mapLockedInputs b
  checkMasternodePayment env best amb b
  checkTransactions env b
  require ((b.vtx.map env.hashTx).Nodup) (.error 100 "CheckBlock() : duplicate transaction")
  require ((b.vtx.map (legacySigOpCount env)).sum ≤ maxBlockSigOps)
    (.error 100 "CheckBlock() : out-of-bounds SigOpCount")
  require (!(fCheckMerkleRoot && b.hashMerkleRoot != buildMerkleTree env b))
    (.error 100 "CheckBlock() : hashMerkleRoot mismatch")

theorem value_out_error (v : ℤ) {os : List CTxOut} {e : Failure}
    (h : valueOutFrom v os = .error e) :
    e = .throw "CTransaction::GetValueOut() : value out of range" := by
  induction os generalizing v with
  | nil => simp [valueOutFrom] at h
  | cons o os ih =>
    rw [valueOutFrom] at h
    split_ifs at h with hm
    · exact ih _ h
    · exact (Except.error.inj h).symm

theorem value_out_of_checked (v : ℤ) {tx : CTransaction} {os : List CTxOut}
    (h : checkOutputs tx v os = .ok ()) : ∃ w, valueOutFrom v os = .ok w := by
  induction os generalizing v with
  | nil => exact ⟨v,rfl⟩
  | cons o os ih =>
    simp only [checkOutputs, then_ok, require_ok, decide_eq_true_eq] at h
    obtain ⟨_,hlo,hhi,hr,h⟩ := h
    obtain ⟨w,hw⟩ := ih _ h
    have hm : moneyRange o.nValue = true := by simp [moneyRange, hlo, hhi]
    exact ⟨w,by rw [valueOutFrom, hm, hr]; exact hw⟩

theorem get_value_out_of_checked {tx : CTransaction} (h : checkTransaction env tx = .ok ()) :
    ∃ w, tx.getValueOut = .ok w := by
  simp only [checkTransaction, then_ok] at h
  exact value_out_of_checked 0 h.2.2.2.1

theorem check_peer_ne (best : Best) (pfrom : Option ℤ) :
    checkPeer best pfrom ≠ .error lockRefusal := by
  unfold checkPeer
  split
  · simp [lockRefusal]
  · simp

theorem check_structure_ne (b : CBlock) : checkStructure b ≠ .error lockRefusal := by
  intro h
  rw [checkStructure] at h
  split_ifs at h <;> simp [then_error, lockRefusal] at h

theorem check_masternode_payment_ne (best : Best) (amb : Ambient) (b : CBlock) :
    checkMasternodePayment env best amb b ≠ .error lockRefusal := by
  intro h
  unfold checkMasternodePayment at h
  split at h
  · simp at h
  · split at h
    · split at h
      · simp [lockRefusal] at h
      · rw [bind_error] at h
        rcases h with h | ⟨v,_,h⟩
        · simpa [lockRefusal] using value_out_error _ h
        · simp [lockRefusal] at h
    · simp at h

theorem check_transactions_ne (b : CBlock) :
    checkTransactions env b ≠ .error lockRefusal := by
  intro h
  obtain ⟨tx,_,h⟩ := for_each_error h
  rw [then_error] at h
  rcases h with h | ⟨_,h⟩
  · unfold withBlockMessage at h
    split at h
    · simp [lockRefusal] at h
    · rename_i hne
      exact hne 0 _ h
  · simp [lockRefusal] at h

/-- The refusal for a lock conflict comes from an input locked under another hash. -/
theorem check_block_lock_conflict {best : Best} {amb : Ambient} {b : CBlock} {pfrom : Option ℤ}
    {fCheckPOW fCheckMerkleRoot fCheckSig : Bool}
    (h : checkBlock env best amb b pfrom fCheckPOW fCheckMerkleRoot fCheckSig =
      .error lockRefusal) :
    ∃ tx ∈ b.vtx, ∃ o ∈ tx.prevouts, ∃ k, amb.mapLockedInputs.lookup o = some k ∧
      k ≠ env.hashTx tx := by
  have hc : checkLocks env amb.mapLockedInputs b = .error lockRefusal := by
    simp only [checkBlock, then_error, check_peer_ne, check_structure_ne,
      check_masternode_payment_ne, check_transactions_ne, require_error, false_or] at h
    simp [lockRefusal] at h
    exact h.2.2.2.2.2.2
  obtain ⟨tx,htx,hr⟩ := for_each_error hc
  rw [require_error] at hr
  have hl : lockConflict env amb.mapLockedInputs tx = true := by simpa using hr.1
  simp only [lockConflict, Bool.and_eq_true, List.any_eq_true] at hl
  obtain ⟨o,ho,hk⟩ := hl.2
  refine ⟨tx,htx,o,ho,?_⟩
  cases hm : amb.mapLockedInputs.lookup o with
  | none => simp [hm] at hk
  | some k => exact ⟨k,rfl,by simpa [hm] using hk⟩

end SwippCore
