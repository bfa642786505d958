import SwippCore.ConnectBlock
import SwippCore.AcceptToMemoryPool
import SwippCore.Lib.Ancestry
import SwippCore.Lib.Memo

/-!
# Switching the best chain

The globals of main.cpp and the functions that add blocks and move the best
chain. A pointer into `mapBlockIndex` is a block hash. `syncs` is the sequence
of notifications that the wallets have received. What a call meets on the way,
such as the block files, the clock and whether a commit succeeds, is its world.
-/

set_option autoImplicit false

namespace SwippCore
open Attempt

/-- A call of `SyncWithWallets`. -/
structure Sync where
  tx : CTransaction
  block : Option CBlock
  fConnect : Bool
  deriving DecidableEq, Repr

abbrev BlockMap := Uint256 → Option CBlockIndex

structure ChainState where
  mapBlockIndex : BlockMap
  pindexGenesisBlock : Option Uint256
  pindexBest : Option Uint256
  hashBestChain : Uint256
  nBestHeight : ℤ
  nBestChainTrust : Uint256
  nBestInvalidTrust : Uint256
  txdb : Batched Store
  mempool : CTxMemPool
  syncs : List Sync

structure World where
  disk : Uint256 → Disk
  ambient : Uint256 → Ambient
  /-- whether the batch that makes the block the best one is written -/
  commitOk : Uint256 → Bool
  /-- whether the batch with a new index record is written -/
  indexCommitOk : Bool
  /-- `ComputeNextStakeModifier`, where it succeeds -/
  nextStakeModifier : Option (ℕ × Bool)

namespace BlockMap

def parentOf (m : BlockMap) (h : Uint256) : Option Uint256 := (m h).bind CBlockIndex.pprev

def heightOf (m : BlockMap) (h : Uint256) : ℤ := ((m h).map CBlockIndex.nHeight).getD 0

def pathOf (m : BlockMap) (h : Uint256) : List Uint256 :=
  Ancestry.path m.parentOf m.heightOf h

def setPnext (m : BlockMap) (h : Uint256) (pnext : Option Uint256) : BlockMap :=
  match m h with
  | none => m
  | some i => Function.update m h (some { i with pnext := pnext })

/-- `pindex->pprev->pnext`, where there is a parent. -/
def setParentPnext (m : BlockMap) (h : Uint256) (pnext : Option Uint256) : BlockMap :=
  match m.parentOf h with
  | none => m
  | some p => m.setPnext p pnext

def unlinkAll : List Uint256 → BlockMap → BlockMap
  | [], m => m
  | h::hs, m => unlinkAll hs (m.setParentPnext h none)

def linkAll : List Uint256 → BlockMap → BlockMap
  | [], m => m
  | h::hs, m => linkAll hs (m.setParentPnext h (some h))

end BlockMap

namespace ChainState

def empty : ChainState where
  mapBlockIndex _ := none
  pindexGenesisBlock := none
  pindexBest := none
  hashBestChain := 0
  nBestHeight := -1
  nBestChainTrust := 0
  nBestInvalidTrust := 0
  txdb := ⟨.empty,none⟩
  mempool := .empty
  syncs := []

def best (st : ChainState) : Best := ⟨st.pindexBest.bind st.mapBlockIndex,st.nBestHeight⟩

def ancestorsOf (st : ChainState) (h : Uint256) : List CBlockIndex :=
  (st.mapBlockIndex.pathOf h).filterMap st.mapBlockIndex

def parentEntry (st : ChainState) (i : CBlockIndex) : Option CBlockIndex :=
  i.pprev.bind st.mapBlockIndex

def begin (st : ChainState) : ChainState := { st with txdb := st.txdb.begin }

def abort (st : ChainState) : ChainState := { st with txdb := st.txdb.abort }

def commit (ok : Bool) (st : ChainState) : ChainState := { st with txdb := st.txdb.commit ok }

def writeHashBestChain (hash : Uint256) (st : ChainState) : ChainState :=
  { st with txdb := st.txdb.modify (Store.writeHashBestChain hash) }

def setEntry (h : Uint256) (i : CBlockIndex) (st : ChainState) : ChainState :=
  { st with mapBlockIndex := Function.update st.mapBlockIndex h (some i) }

/-- The notifications that end `ConnectBlock` and `DisconnectBlock`. -/
def syncAll (b : CBlock) (fConnect : Bool) (st : ChainState) : ChainState :=
  { st with syncs := st.syncs++b.vtx.map (fun tx => ⟨tx,some b,fConnect⟩) }

end ChainState

variable (env : Env) (w : World)

/-- `CBlock::ReadFromDisk` for an index entry. -/
def readFromDisk (best : Best) (disk : Disk) (i : CBlockIndex) : Option CBlock :=
  (disk.readBlock i.nFile i.nBlockPos).bind (fun b =>
    if b.isProofOfWork && !checkProofOfWork env best (env.hashPoW b) b.nBits then none
    else if env.hashBlock b = i.hashBlock then some b else none)

def connectContext (st : ChainState) (h : Uint256) (i : CBlockIndex) : ConnectContext where
  best := st.best
  disk := w.disk h
  pool := st.mempool.lookup
  pindex := i
  ancestors := st.ancestorsOf h
  fJustCheck := false

def setBestIfNone (h : Uint256) (ctx : ConnectContext) (b : CBlock) (st : ChainState) : ChainState :=
  let checked := checkBlock env ctx.best (w.ambient h) b none true true false
  let looped := connectTxs env ctx st.txdb.view b.vtx
    (noTotals (firstTxPos ctx.pindex.nBlockPos b false))
  match st.pindexBest, checked, looped with
  | none, .ok _, .ok _ => { st with pindexBest := some h }
  | _, _, _ => st

/-- `ConnectBlock` on the chain state. -/
def connectStep (h : Uint256) (b : CBlock) (st : ChainState) : Result ChainState Failure :=
  match st.mapBlockIndex h with
  | none => fail st .crash
  | some i =>
    let ctx := connectContext w st h i
    let st1 := setBestIfNone env w h ctx b st
    match connectChecks env ctx (w.ambient h) st.txdb.view b with
    | .error f => fail st1 f
    | .ok t =>
      let i' := recordTotals (st.parentEntry i) t i
      let st2 := st1.setEntry h i'
      match connectWrites env ctx (st.parentEntry i) b i' t st.txdb.view with
      | .error f => fail st2 f
      | .ok s => done ({ st2 with txdb := st2.txdb.modify (fun _ => s) }.syncAll b true)

/-- `DisconnectBlock` on the chain state. -/
def disconnectStep (h : Uint256) (b : CBlock) (st : ChainState) : Result ChainState Failure :=
  match st.mapBlockIndex h with
  | none => fail st .crash
  | some i =>
    match disconnectBlock env (st.parentEntry i) b st.txdb.view with
    | .error f => fail st f
    | .ok s => done ({ st with txdb := st.txdb.modify (fun _ => s) }.syncAll b false)

def invalidChainFound (h : Uint256) (st : ChainState) : Result ChainState Failure :=
  match st.mapBlockIndex h with
  | none => fail st .crash
  | some i =>
    let st := if st.nBestInvalidTrust < i.nChainTrust then
        { st with
          nBestInvalidTrust := i.nChainTrust
          txdb := { st.txdb with
            committed := st.txdb.committed.writeBestInvalidTrust i.nChainTrust } }
      else st
    match i.pprev, st.best.pindexBest with
    | some _, some tip => if tip.nHeight ≠ 0 ∧ tip.pprev.isNone then fail st .crash else done st
    | _, _ => fail st .crash

/-- `return error(..)` in place of what a callee returned; exceptions go through. -/
def reported (msg : String) : Failure → Failure
  | .error _ _ => .error 0 msg
  | f => f

def resurrected (i : CBlockIndex) (b : CBlock) : List CTransaction :=
  if env.totalBlocksEstimate < i.nHeight then
    b.vtx.filter (fun tx => !(tx.isCoinBase || tx.isCoinStake))
  else []

/-- One round of the disconnecting loop of `Reorganize`. -/
def disconnectOne (h : Uint256) (x : ChainState × List CTransaction) :
    Result (ChainState × List CTransaction) Failure :=
  match x.1.mapBlockIndex h with
  | none => fail x .crash
  | some i =>
    match readFromDisk env x.1.best (w.disk h) i with
    | none => fail x (.error 0 "Reorganize() : ReadFromDisk for disconnect failed")
    | some b =>
      match disconnectStep env h b x.1 with
      | (st,.error f) => fail (st,x.2) (reported "Reorganize() : DisconnectBlock %s failed" f)
      | (st,.ok _) => done (st,resurrected env i b++x.2)

/-- One round of the connecting loop of `Reorganize`. -/
def connectOne (h : Uint256) (x : ChainState × List CTransaction) :
    Result (ChainState × List CTransaction) Failure :=
  match x.1.mapBlockIndex h with
  | none => fail x .crash
  | some i =>
    match readFromDisk env x.1.best (w.disk h) i with
    | none => fail x (.error 0 "Reorganize() : ReadFromDisk for connect failed")
    | some b =>
      match connectStep env w h b x.1 with
      | (st,.error f) => fail (st,x.2) (reported "Reorganize() : ConnectBlock %s failed" f)
      | (st,.ok _) => done (st,x.2++b.vtx)

/-- `AcceptToMemoryPool` on the chain state; a refusal changes nothing. -/
def acceptStep (fLimitFree : Bool) (tx : CTransaction) (st : ChainState) :
    Result ChainState Failure :=
  match acceptToMemoryPool env st.best ((st.pindexBest.map st.ancestorsOf).getD [])
      (w.disk (env.hashTx tx)) st.txdb.committed fLimitFree tx st.mempool with
  | .ok pool => done { st with mempool := pool, syncs := st.syncs++[⟨tx,none,true⟩] }
  | .error (.error _ _) => done st
  | .error f => fail st f

/-- `mempool.remove(tx)` -/
def removeStep (tx : CTransaction) (st : ChainState) : Result ChainState Failure :=
  match st.mempool.remove env.hashTx tx false with
  | none => fail st .crash
  | some pool => done { st with mempool := pool }

/-- `mempool.remove(tx)` and `mempool.removeConflicts(tx)` -/
def deleteStep (tx : CTransaction) (st : ChainState) : Result ChainState Failure :=
  andThen (removeStep env tx st) (fun st =>
    match st.mempool.removeConflicts env.hashTx tx with
    | none => fail st .crash
    | some pool => done { st with mempool := pool })

/-- The two branches of a reorganisation: what is disconnected, from the tip down,
and what is connected, from the fork up. -/
def branches (st : ChainState) (tip hNew : Uint256) : Except Failure (List Uint256 × List Uint256) :=
  let m := st.mapBlockIndex
  match Ancestry.fork m.parentOf m.heightOf
      (.error 0 "Reorganize() : plonger->pprev is null")
      (.error 0 "Reorganize() : pfork->pprev is null") ((m.heightOf tip).toNat+1) tip hNew with
  | .error f => .error f
  | .ok pfork =>
    match Ancestry.segment m.parentOf pfork (m.heightOf tip).toNat tip,
        Ancestry.segment m.parentOf pfork (m.heightOf hNew).toNat hNew with
    | some vDisconnect, some vConnect => .ok (vDisconnect,vConnect.reverse)
    | _, _ => .error .crash

/-- What `Reorganize` does after its commit: the links in memory, and the pool. -/
def adoptBranch (vDisconnect vConnect : List Uint256) (vResurrect vDelete : List CTransaction)
    (st : ChainState) : Result ChainState Failure :=
  let st := { st with
    mapBlockIndex := (st.mapBlockIndex.unlinkAll vDisconnect).linkAll vConnect }
  andThen (forAll (acceptStep env w false) vResurrect st) (forAll (deleteStep env) vDelete)

/-- The loops of `Reorganize` and its commit. -/
def switchBranches (hNew : Uint256) (vDisconnect vConnect : List Uint256) (st : ChainState) :
    Result ChainState Failure :=
  match forAll (disconnectOne env w) vDisconnect (st,[]) with
  | ((st,_),.error f) => fail st f
  | ((st,vResurrect),.ok _) =>
    match forAll (connectOne env w) vConnect (st,[]) with
    | ((st,_),.error f) => fail st f
    | ((st,vDelete),.ok _) =>
      let st := (st.writeHashBestChain hNew).commit (w.commitOk hNew)
      if w.commitOk hNew then adoptBranch env w vDisconnect vConnect vResurrect vDelete st
      else fail st (.error 0 "Reorganize() : TxnCommit failed")

def reorganize (hNew : Uint256) (st : ChainState) : Result ChainState Failure :=
  match st.pindexBest with
  | none => fail st .crash
  | some tip =>
    match branches st tip hNew with
    | .error f => fail st f
    | .ok (vDisconnect,vConnect) => switchBranches env w hNew vDisconnect vConnect st

def adoptBlock (h : Uint256) (b : CBlock) (st : ChainState) : Result ChainState Failure :=
  forAll (removeStep env) b.vtx
    { st with mapBlockIndex := st.mapBlockIndex.setParentPnext h (some h) }

def setBestChainInner (h : Uint256) (b : CBlock) (st : ChainState) : Result ChainState Failure :=
  match connectStep env w h b st with
  | (st,.error (.error _ _)) =>
    andThen (invalidChainFound h st.abort) (fun st => fail st (.error 0 ""))
  | (st,.error f) => fail st f
  | (st,.ok _) =>
    let st := (st.writeHashBestChain h).commit (w.commitOk h)
    if w.commitOk h then adoptBlock env h b st
    else fail st (.error 0 "SetBestChain() : TxnCommit failed")

/-- The blocks whose parent has more trust than the best block are postponed; the
walk ends with the block to reorganise to. The last one found is connected first. -/
def postpone (m : BlockMap) (trust : Uint256) : ℕ → Uint256 → List Uint256 → List Uint256 × Uint256
  | 0, h, hs => (hs,h)
  | k+1, h, hs =>
    match (m.parentOf h).bind m with
    | none => (hs,h)
    | some p => if trust < p.nChainTrust then postpone m trust k p.hashBlock (h::hs) else (hs,h)

def connectPostponed : List Uint256 → ChainState → Result ChainState Failure
  | [], st => done st
  | h::hs, st =>
    match st.mapBlockIndex h with
    | none => fail st .crash
    | some i =>
      match readFromDisk env st.best (w.disk h) i with
      | none => done st
      | some b =>
        match setBestChainInner env w h b st.begin with
        | (st,.ok _) => connectPostponed hs st
        | (st,.error (.error _ _)) => done st
        | (st,.error f) => fail st f

def newBest (hash : Uint256) (st : ChainState) : Result ChainState Failure :=
  match st.mapBlockIndex hash with
  | none => fail st .crash
  | some i => done { st with
      hashBestChain := hash
      pindexBest := some hash
      nBestHeight := i.nHeight
      nBestChainTrust := i.nChainTrust
      mempool := { st.mempool with nTransactionsUpdated := st.mempool.nTransactionsUpdated+1 } }

/-- The route over `Reorganize`. -/
def switchBest (hash : Uint256) (st : ChainState) : Result ChainState Failure :=
  match st.best.pindexBest with
  | none => fail st .crash
  | some tip =>
    let m := st.mapBlockIndex
    let (vpindexSecondary,pindexIntermediate) :=
      postpone m tip.nChainTrust (m.heightOf hash).toNat hash []
    match reorganize env w pindexIntermediate st with
    | (st,.error (.error _ _)) => andThen (invalidChainFound hash st.abort)
        (fun st => fail st (.error 0 "SetBestChain() : Reorganize failed"))
    | (st,.error f) => fail st f
    | (st,.ok _) => connectPostponed env w vpindexSecondary st

/-- The three routes of `SetBestChain`. -/
def bestRoute (b : CBlock) (st : ChainState) : Result ChainState Failure :=
  let hash := env.hashBlock b
  if st.pindexGenesisBlock.isNone && hash == env.hashGenesisBlock then
    let st := (st.writeHashBestChain hash).commit (w.commitOk hash)
    if w.commitOk hash then done { st with pindexGenesisBlock := some hash }
    else fail st (.error 0 "SetBestChain() : TxnCommit failed")
  else if b.hashPrevBlock = st.hashBestChain then
    match setBestChainInner env w hash b st with
    | (st,.error f) => fail st (reported "SetBestChain() : SetBestChainInner failed" f)
    | (st,.ok _) => done st
  else switchBest env w hash st

/-- `CBlock::SetBestChain`. An exception drops the batch with the database object. -/
def setBestChain (b : CBlock) (st : ChainState) : Result ChainState Failure :=
  match bestRoute env w b st.begin with
  | (st,.error f) => fail st.abort f
  | (st,.ok _) => newBest (env.hashBlock b) st

def getBlockTrust (nBits : ℕ) : Uint256 :=
  let bnTarget := setCompact nBits
  if bnTarget ≤ 0 then 0 else BitVec.ofNat 256 (2^256/(bnTarget.toNat+1))

/-- The index entry that `AddToBlockIndex` makes. -/
def newEntry (b : CBlock) (nFile nBlockPos : ℕ) (hashProof : Uint256) (modifier : ℕ × Bool)
    (m : BlockMap) : CBlockIndex :=
  let hash := env.hashBlock b
  let pprev := m b.hashPrevBlock
  let stake := if b.isProofOfStake then b.vtx[1]? else none
  { hashBlock := hash
    pprev := pprev.map (fun _ => b.hashPrevBlock)
    pnext := none
    nFile := nFile
    nBlockPos := nBlockPos
    nChainTrust := (pprev.map CBlockIndex.nChainTrust).getD 0+getBlockTrust b.nBits
    nHeight := (pprev.map (fun p => p.nHeight+1)).getD 0
    nMint := 0
    nMoneySupply := 0
    nFlags := (if b.isProofOfStake then blockProofOfStake else 0)+2*(hash.toNat % 2)+
      (if modifier.2 then 4 else 0)
    nStakeModifier := modifier.1
    prevoutStake := ((stake.bind (fun tx => tx.vin.head?)).map CTxIn.prevout).getD .null
    nStakeTime := (stake.map CTransaction.nTime).getD 0
    hashProof := hashProof
    nVersion := b.nVersion
    hashMerkleRoot := b.hashMerkleRoot
    nTime := b.nTime
    nBits := b.nBits
    nNonce := b.nNonce }

/-- The part of `AddToBlockIndex` that makes the index entry and its record. -/
def indexBlock (b : CBlock) (nFile nBlockPos : ℕ) (hashProof : Uint256) (st : ChainState) :
    Result ChainState Failure :=
  let hash := env.hashBlock b
  match st.mapBlockIndex hash, w.nextStakeModifier with
  | some _, _ => fail st (.error 0 "AddToBlockIndex() : %s already exists")
  | none, none => fail st (.error 0 "AddToBlockIndex() : ComputeNextStakeModifier() failed")
  | none, some modifier =>
    let i := newEntry env b nFile nBlockPos hashProof modifier st.mapBlockIndex
    let st := st.setEntry hash i
    let st := { st with
      txdb := (st.txdb.begin.modify (Store.writeBlockIndex hash (.ofIndex i))).commit w.indexCommitOk }
    if w.indexCommitOk then done st else fail st (.error 0 "")

def addToBlockIndex (b : CBlock) (nFile nBlockPos : ℕ) (hashProof : Uint256) (st : ChainState) :
    Result ChainState Failure :=
  andThen (indexBlock env w b nFile nBlockPos hashProof st) (fun st =>
    match st.mapBlockIndex (env.hashBlock b) with
    | none => fail st .crash
    | some i => if st.nBestChainTrust < i.nChainTrust then setBestChain env w b st else done st)

end SwippCore
