import SwippCore.Inputs
import SwippCore.Script

/-!
# ConnectBlock and DisconnectBlock

A block is connected in two phases. The first checks the block and computes
totals and queued index entries without writing anything. The second records
the totals in the block index and writes the batch. Both are pure functions of
the store that they read; the chain state is put around them elsewhere.
-/

set_option autoImplicit false

namespace SwippCore
open Checks

/-- The height table of `GetProofOfWorkReward`. -/
def proofOfWorkSubsidy (nHeight : ℤ) : ℤ :=
  if nHeight = 1 then 3000000*coin
  else if nHeight < 93000 then 48*coin
  else if nHeight < 120000 then 24*coin
  else if nHeight < 180000 then 12*coin
  else if nHeight < 300000 then 6*coin
  else if nHeight < 500000 then 3*coin
  else if nHeight < 800000 then 2*coin
  else if nHeight < 1200000 then 3*coin/2
  else if nHeight < 2000000 then 1*coin
  else coin/2

/-- `GetProofOfWorkReward`; the table is read at the height of the best block. -/
def getProofOfWorkReward (tip : CBlockIndex) (nFees : ℤ) (_nHeight : ℤ) : ℤ :=
  proofOfWorkSubsidy tip.nHeight+nFees

/-- The height table of `GetProofOfStakeReward`. -/
def proofOfStakeSubsidy (nHeight : ℤ) : ℤ :=
  if nHeight < 93000 then 5*coin
  else if nHeight < 200000 then 3*coin
  else if nHeight < 400000 then 2*coin
  else if nHeight < 800000 then 3*coin/2
  else if nHeight < 1200000 then 1*coin
  else if nHeight < 2000000 then coin/2
  else coin/10

/-- `GetProofOfStakeReward`; the table is read at the height of the best block. -/
def getProofOfStakeReward (tip : CBlockIndex) (_nCoinAge : ℤ) (nFees : ℤ) (_nHeight : ℤ) : ℤ :=
  proofOfStakeSubsidy tip.nHeight+nFees

structure Totals where
  mapQueuedChanges : TxIndexMap
  nTxPos : ℕ
  nFees : ℤ
  nValueIn : ℤ
  nValueOut : ℤ
  nStakeReward : ℤ
  nSigOps : ℕ

/-- `GetSizeOfCompactSize` -/
def compactSize (n : ℕ) : ℕ :=
  if n < 253 then 1 else if n ≤ 0xffff then 3 else if n ≤ 0xffffffff then 5 else 9

variable (env : Env)

def firstTxPos (nBlockPos : ℕ) (b : CBlock) (fJustCheck : Bool) : ℕ :=
  if fJustCheck then 1 else nBlockPos+80+compactSize b.vtx.length

/-- Everything that the transaction loop of `ConnectBlock` reads. -/
structure ConnectContext where
  best : Best
  disk : Disk
  pool : Uint256 → Option CTransaction
  /-- the block index entry, and the entries from it back to the first block -/
  pindex : CBlockIndex
  ancestors : List CBlockIndex
  fJustCheck : Bool

def connectSpend (ctx : ConnectContext) (s : Store) (posThisTx : CDiskTxPos) (tx : CTransaction)
    (t : Totals) : Except Failure Totals := do
  let mapInputs ← fetchInputs ctx.disk ctx.pool s.tx t.mapQueuedChanges true tx
  let nSigOps := t.nSigOps+p2shSigOpCount env mapInputs tx
  require (nSigOps ≤ maxBlockSigOps) (.error 100 "ConnectBlock() : too many sigops")
  let nTxValueIn ← tx.getValueIn mapInputs
  let nTxValueOut ← tx.getValueOut
  let mapQueuedChanges ← connectInputs env ctx.best mapInputs t.mapQueuedChanges posThisTx
    ctx.ancestors true scriptVerifyNoCache tx
  .ok { t with
    mapQueuedChanges := mapQueuedChanges
    nSigOps := nSigOps
    nValueIn := t.nValueIn+nTxValueIn
    nValueOut := t.nValueOut+nTxValueOut
    nFees := if tx.isCoinStake then t.nFees else t.nFees+(nTxValueIn-nTxValueOut)
    nStakeReward := if tx.isCoinStake then nTxValueOut-nTxValueIn else t.nStakeReward }

def connectSpendOrMint (ctx : ConnectContext) (s : Store) (posThisTx : CDiskTxPos)
    (tx : CTransaction) (t : Totals) : Except Failure Totals :=
  if tx.isCoinBase then tx.getValueOut.map (fun v => { t with nValueOut := t.nValueOut+v })
  else connectSpend env ctx s posThisTx tx t

def overwrites (s : Store) (hash : Uint256) : Bool :=
  match s.tx hash with
  | none => false
  | some i => i.vSpent.any CDiskTxPos.isNull

def connectTx (ctx : ConnectContext) (s : Store) (tx : CTransaction) (t : Totals) :
    Except Failure Totals := do
  require (!overwrites s (env.hashTx tx))
    (.error 100 "ConnectBlock() : tried to overwrite transaction")
  let nSigOps := t.nSigOps+legacySigOpCount env tx
  require (nSigOps ≤ maxBlockSigOps) (.error 100 "ConnectBlock() : too many sigops")
  let posThisTx := CDiskTxPos.ofFile ctx.pindex.nFile ctx.pindex.nBlockPos t.nTxPos
  let t ← connectSpendOrMint env ctx s posThisTx tx { t with
    nSigOps := nSigOps
    nTxPos := if ctx.fJustCheck then t.nTxPos else t.nTxPos+env.txSize tx }
  .ok { t with mapQueuedChanges :=
    t.mapQueuedChanges.insert (env.hashTx tx) (.fresh posThisTx tx.vout.length) }

def connectTxs (ctx : ConnectContext) (s : Store) : List CTransaction → Totals →
    Except Failure Totals
  | [], t => .ok t
  | tx::txs, t => connectTx env ctx s tx t >>= connectTxs ctx s txs

def noTotals (nTxPos : ℕ) : Totals := ⟨∅,nTxPos,0,0,0,0,0⟩

/-- The best block as the reward functions find it: `ConnectBlock` sets the global
when it is not set yet. -/
def rewardTip (ctx : ConnectContext) : CBlockIndex := ctx.best.pindexBest.getD ctx.pindex

/-- The reward of a proof-of-work block. The call passes the height of the block
where the function takes the fees. -/
def checkWorkReward (ctx : ConnectContext) (b : CBlock) (t : Totals) : Except Failure Unit :=
  match b.vtx with
  | [] => .error .crash
  | tx::_ => do
    let nReward := getProofOfWorkReward (rewardTip ctx) ctx.pindex.nHeight t.nFees
    let nValueOut ← tx.getValueOut
    require (nValueOut ≤ nReward)
      (.error 50 "ConnectBlock() : coinbase reward exceeded (actual=%d vs calculated=%d)")

/-- The reward of a proof-of-stake block. The call passes the height of the block,
the coin age and the fees where the function takes coin age, fees and height. -/
def checkStakeReward (ctx : ConnectContext) (s : Store) (b : CBlock) (t : Totals) :
    Except Failure Unit :=
  match b.vtx with
  | _::tx::_ =>
    match getCoinAge env ctx.disk s tx with
    | none => .error (.error 0 "ConnectBlock() : %s unable to get coin age for coinstake")
    | some nCoinAge => require (t.nStakeReward ≤
        getProofOfStakeReward (rewardTip ctx) ctx.pindex.nHeight nCoinAge.toInt t.nFees)
        (.error 100 "ConnectBlock() : coinstake pays too much(actual=%d vs calculated=%d)")
  | _ => .error .crash

def checkReward (ctx : ConnectContext) (s : Store) (b : CBlock) (t : Totals) :
    Except Failure Unit :=
  if b.isProofOfStake then checkStakeReward env ctx s b t else checkWorkReward ctx b t

/-- The first phase of `ConnectBlock`. -/
def connectChecks (ctx : ConnectContext) (amb : Ambient) (s : Store) (b : CBlock) :
    Except Failure Totals := do
  checkBlock env ctx.best amb b none (!ctx.fJustCheck) (!ctx.fJustCheck) false
  let t ← connectTxs env ctx s b.vtx
    (noTotals (firstTxPos ctx.pindex.nBlockPos b ctx.fJustCheck))
  checkReward env ctx s b t
  .ok t

def nMint (t : Totals) : ℤ := t.nValueOut-t.nValueIn+t.nFees

def nSupplyAdded (t : Totals) : ℤ := t.nValueOut-t.nValueIn

def writeQueued : List (Sigma (fun _ : Uint256 => CTxIndex)) → Store → Store
  | [], s => s
  | e::es, s => writeQueued es (s.updateTxIndex e.1 e.2)

def writeAddrs (hash : Uint256) : List Uint160 → Store → Store
  | [], s => s
  | a::as, s => writeAddrs hash as (s.writeAddrIndex a hash)

/-- `addrid` of a push in `BuildAddrIndex`: its own bytes, or the hash of more than twenty. -/
def addrId (data : List UInt8) : Uint160 :=
  if data.length ≤ 20 then BitVec.ofNat 160 (SignMagnitude.value data) else env.hash160 data

/-- `BuildAddrIndex`, which does not ask whether `GetOp` succeeded. -/
def buildAddrIndex (script : CScript) : List Uint160 :=
  let pushes := (Fetch.items CScript.getOpAnyway script).filter fun i =>
    i.1.1.code ≤ 0x4e && 8 ≤ i.1.2.length
  if pushes.isEmpty then [env.hash160 script] else pushes.map fun i => addrId env i.1.2

/-- The address index entries of one transaction: those of all outputs of the
transactions it spends from, then its own. -/
def writeAddrIndexOf (ctx : ConnectContext) (tx : CTransaction) (s : Store) :
    Except Failure Store := do
  let mapInputs ← fetchInputs ctx.disk ctx.pool s.tx ∅ true tx
  let prevOuts := (mapInputs.entries.map (fun e => e.2.2.vout)).flatten
  .ok (writeAddrs (env.hashTx tx)
    (((prevOuts++tx.vout).map (fun o => buildAddrIndex env o.scriptPubKey)).flatten) s)

def writeAddrIndexes (ctx : ConnectContext) : List CTransaction → Store → Except Failure Store
  | [], s => .ok s
  | tx::txs, s => writeAddrIndexOf env ctx tx s >>= writeAddrIndexes ctx txs

def linkOnDisk (pprev : Option CBlockIndex) (hashNext : Uint256) (s : Store) : Store :=
  match pprev with
  | none => s
  | some p => s.writeBlockIndex p.hashBlock { CDiskBlockIndex.ofIndex p with hashNext := hashNext }

/-- The second phase of `ConnectBlock`, on the index entry with its totals recorded. -/
def connectWrites (ctx : ConnectContext) (pprev : Option CBlockIndex) (b : CBlock)
    (pindex : CBlockIndex) (t : Totals) (s : Store) : Except Failure Store := do
  let s := s.writeBlockIndex pindex.hashBlock (.ofIndex pindex)
  if ctx.fJustCheck then .ok s
  else do
    let s ← writeAddrIndexes env ctx b.vtx (writeQueued t.mapQueuedChanges.entries s)
    .ok (linkOnDisk pprev pindex.hashBlock s)

/-- `pindex->nMint` and `pindex->nMoneySupply`. -/
def recordTotals (pprev : Option CBlockIndex) (t : Totals) (i : CBlockIndex) : CBlockIndex :=
  { i with
    nMint := nMint t
    nMoneySupply := (pprev.map CBlockIndex.nMoneySupply).getD 0+nSupplyAdded t }

/-- `CBlock::ConnectBlock` as a function of the store. -/
def connectBlock (ctx : ConnectContext) (amb : Ambient) (pprev : Option CBlockIndex) (b : CBlock)
    (s : Store) : Except Failure Store := do
  let t ← connectChecks env ctx amb s b
  connectWrites env ctx pprev b (recordTotals pprev t ctx.pindex) t s

def disconnectTxs : List CTransaction → Store → Except Failure Store
  | [], s => .ok s
  | tx::txs, s => disconnectInputs env tx s >>= disconnectTxs txs

/-- `CBlock::DisconnectBlock` as a function of the store: the transactions in
reverse order, then the record of the parent. -/
def disconnectBlock (pprev : Option CBlockIndex) (b : CBlock) (s : Store) : Except Failure Store := do
  let s ← disconnectTxs env b.vtx.reverse s
  .ok (linkOnDisk pprev 0 s)

end SwippCore
