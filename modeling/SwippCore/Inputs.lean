import SwippCore.CheckBlock

/-!
# Reading and checking inputs

The transaction index, the inputs that are fetched from it, and their checks.
-/

set_option autoImplicit false

namespace SwippCore

inductive CDiskTxPos where
  | null
  | onDisk (nFile nBlockPos nTxPos : ℕ)
  deriving DecidableEq, Repr

namespace CDiskTxPos

def ofFile (nFile nBlockPos nTxPos : ℕ) : CDiskTxPos :=
  if nFile = uintMax then .null else .onDisk nFile nBlockPos nTxPos

def isNull (p : CDiskTxPos) : Bool := p == .null

/-- `CDiskTxPos(1,1,1)` refers to the memory pool. -/
def memPool : CDiskTxPos := .onDisk 1 1 1

def inBlock (nFile nBlockPos : ℕ) : CDiskTxPos → Bool
  | .null => nFile == uintMax && nBlockPos == 0
  | .onDisk f b _ => f == nFile && b == nBlockPos

end CDiskTxPos

structure CTxIndex where
  pos : CDiskTxPos
  vSpent : List CDiskTxPos
  deriving DecidableEq, Repr

def CTxIndex.fresh (pos : CDiskTxPos) (nOutputs : ℕ) : CTxIndex :=
  ⟨pos,List.replicate nOutputs .null⟩

@[ext]
structure Store where
  tx : Uint256 → Option CTxIndex
  blockIndex : Uint256 → Option CDiskBlockIndex
  hashBestChain : Option Uint256
  bestInvalidTrust : Option Uint256
  addr : Uint160 → Option (List Uint256)

namespace Store

def empty : Store := ⟨fun _ => none,fun _ => none,none,none,fun _ => none⟩

def updateTxIndex (hash : Uint256) (i : CTxIndex) (s : Store) : Store :=
  { s with tx := Function.update s.tx hash (some i) }

def eraseTxIndex (hash : Uint256) (s : Store) : Store :=
  { s with tx := Function.update s.tx hash none }

def writeBlockIndex (hash : Uint256) (i : CDiskBlockIndex) (s : Store) : Store :=
  { s with blockIndex := Function.update s.blockIndex hash (some i) }

def writeHashBestChain (hash : Uint256) (s : Store) : Store :=
  { s with hashBestChain := some hash }

def writeBestInvalidTrust (trust : Uint256) (s : Store) : Store :=
  { s with bestInvalidTrust := some trust }

def writeAddrIndex (addrHash : Uint160) (txHash : Uint256) (s : Store) : Store :=
  match s.addr addrHash with
  | none => { s with addr := Function.update s.addr addrHash (some [txHash]) }
  | some hs =>
    if txHash ∈ hs then s
    else { s with addr := Function.update s.addr addrHash (some (hs++[txHash])) }

def containsTx (hash : Uint256) (s : Store) : Bool := (s.tx hash).isSome

@[simp] theorem write_block_index_tx (hash : Uint256) (i : CDiskBlockIndex) (s : Store) :
    (s.writeBlockIndex hash i).tx = s.tx := rfl

@[simp] theorem write_addr_index_tx (a : Uint160) (h : Uint256) (s : Store) :
    (s.writeAddrIndex a h).tx = s.tx := by
  unfold writeAddrIndex
  split
  · rfl
  · split_ifs <;> rfl

theorem tx_update (hash : Uint256) (i : CTxIndex) (s : Store) (k : Uint256) :
    (s.updateTxIndex hash i).tx k = if k = hash then some i else s.tx k := by
  simp [updateTxIndex, Function.update_apply]

end Store
end SwippCore

/-!
## Fetching, connecting and disconnecting inputs

The part of transaction.cpp that works on the transaction index. The calls made by the miner
(`fMiner`) are left out.
-/

namespace SwippCore
open FinMap Checks

structure Disk where
  readTx : CDiskTxPos → Option CTransaction
  readBlock : ℕ → ℕ → Option CBlock
  /-- the time field of the header at a position -/
  readBlockTime : ℕ → ℕ → Option ℕ

abbrev MapPrevTx := Dict Uint256 (CTxIndex × CTransaction)
abbrev TxIndexMap := Dict Uint256 CTxIndex

def scriptVerifyNoCache : ℕ := 1
def standardScriptVerifyFlags : ℕ := 2+16+128
def mandatoryScriptVerifyFlags : ℕ := 0
def standardNotMandatoryVerifyFlags : ℕ := 2+16+128

section Fetch
variable (disk : Disk) (pool : Uint256 → Option CTransaction) (readTxIndex : Uint256 → Option CTxIndex)

def readPrev (hash : Uint256) (txindex : CTxIndex) : Except Failure (CTxIndex × CTransaction) :=
  if txindex.pos = .memPool then
    match pool hash with
    | none => .error (.error 0 "FetchInputs() : %s mempool Tx prev not found %s")
    | some txPrev => .ok (txindex,txPrev)
  else
    match disk.readTx txindex.pos with
    | none => .error (.error 0 "FetchInputs() : %s ReadFromDisk prev tx %s failed")
    | some txPrev => .ok (txindex,txPrev)

/-- One round of the first loop of `FetchInputs`: the entry for a previous transaction. -/
def fetchPrev (mapTestPool : TxIndexMap) (fBlock : Bool) (hash : Uint256) :
    Except Failure (CTxIndex × CTransaction) :=
  match (if fBlock then mapTestPool.lookup hash else none).or (readTxIndex hash) with
  | some txindex => readPrev disk pool hash txindex
  | none =>
    if fBlock then .error (.error 0 "FetchInputs() : %s prev tx %s index entry not found")
    else
      match pool hash with
      | none => .error (.error 0 "FetchInputs() : %s mempool Tx prev not found %s")
      | some txPrev => .ok (.fresh .null txPrev.vout.length,txPrev)

def fetchPrevs (mapTestPool : TxIndexMap) (fBlock : Bool) :
    List COutPoint → MapPrevTx → Except Failure MapPrevTx
  | [], inputs => .ok inputs
  | o::os, inputs =>
    if o.hash ∈ inputs then fetchPrevs mapTestPool fBlock os inputs
    else do
      let p ← fetchPrev disk pool readTxIndex mapTestPool fBlock o.hash
      fetchPrevs mapTestPool fBlock os (inputs.insert o.hash p)

/-- The range test that closes `FetchInputs`. -/
def outputExists (inputs : MapPrevTx) (o : COutPoint) : Bool :=
  match inputs.lookup o.hash with
  | none => false
  | some p => o.n < p.2.vout.length && o.n < p.1.vSpent.length

def fetchInputs (mapTestPool : TxIndexMap) (fBlock : Bool) (tx : CTransaction) :
    Except Failure MapPrevTx :=
  if tx.isCoinBase then .ok ∅
  else do
    let inputs ← fetchPrevs disk pool readTxIndex mapTestPool fBlock tx.prevouts ∅
    forEach (fun o => require (outputExists inputs o)
      (.error 100 "FetchInputs() : %s prevout.n out of range %d %u %u prev tx %s")) tx.prevouts
    .ok inputs

end Fetch

def getOutputFor (inputs : MapPrevTx) (o : COutPoint) : Option CTxOut :=
  (inputs.lookup o.hash).bind (fun p => p.2.vout[o.n]?)

/-- `CTransaction::GetValueIn`; an output that is not there raises an exception. -/
def valueInOf (inputs : MapPrevTx) : List COutPoint → Except Failure ℤ
  | [] => .ok 0
  | o::os =>
    match getOutputFor inputs o with
    | none => .error (.throw "CTransaction::GetOutputFor() : prevout not found")
    | some out => (valueInOf inputs os).map (out.nValue+·)

def CTransaction.getValueIn (inputs : MapPrevTx) (tx : CTransaction) : Except Failure ℤ :=
  if tx.isCoinBase then .ok 0 else valueInOf inputs tx.prevouts

variable (env : Env)

/-- `GetP2SHSigOpCount`, on inputs whose previous outputs are there. -/
def p2shSigOpCount (inputs : MapPrevTx) (tx : CTransaction) : ℕ :=
  if tx.isCoinBase then 0
  else (tx.vin.map (fun i => match getOutputFor inputs i.prevout with
    | none => 0
    | some out => env.p2shSigOps out.scriptPubKey i.scriptSig)).sum

inductive GetMinFeeMode where
  | block
  | relay
  | send
  deriving DecidableEq

/-- `MIN_RELAY_TX_FEE` and `MIN_TX_FEE` are the same amount. -/
def baseFee : GetMinFeeMode → ℤ
  | .block => minTxFee
  | .relay => minTxFee
  | .send => minTxFee

def maxMoney : ℤ := 1400000*coin

def getMinFee (nBlockSize : ℕ) (mode : GetMinFeeMode) (nBytes : ℕ) : ℤ :=
  let nNewBlockSize := nBlockSize+nBytes
  let nMinFee := (1+(nBytes/1000 : ℕ))*baseFee mode
  if nBlockSize ≠ 1 ∧ maxBlockSizeGen ≤ nNewBlockSize then maxMoney
  else
    let nMinFee := if nBlockSize ≠ 1 ∧ maxBlockSizeGen/2 ≤ nNewBlockSize then
      nMinFee*(maxBlockSizeGen/(maxBlockSizeGen-nNewBlockSize) : ℕ) else nMinFee
    if moneyRange nMinFee then nMinFee else maxMoney

def withinMaturity (pos : CDiskTxPos) (nHeight : ℤ) : List CBlockIndex → Bool
  | [] => false
  | i::is =>
    if nHeight-i.nHeight < env.nCoinbaseMaturity then
      pos.inBlock i.nFile i.nBlockPos || withinMaturity pos nHeight is
    else false

/-- The first loop of `ConnectInputs`: the checks that need no script. The ancestors
start with the block that the transaction is in. -/
def checkPrevs (inputs : MapPrevTx) (tx : CTransaction) (ancestors : List CBlockIndex) :
    ℤ → List COutPoint → Except Failure ℤ
  | nValueIn, [] => .ok nValueIn
  | nValueIn, o::os =>
    match inputs.lookup o.hash with
    | none => .error .crash
    | some (txindex,txPrev) =>
      match txPrev.vout[o.n]? with
      | none => .error (.error 100 "ConnectInputs() : %s prevout.n out of range %d %u %u prev tx %s")
      | some out => do
        require (o.n < txindex.vSpent.length)
          (.error 100 "ConnectInputs() : %s prevout.n out of range %d %u %u prev tx %s")
        require (!((txPrev.isCoinBase || txPrev.isCoinStake) &&
            withinMaturity env txindex.pos ((ancestors.head?.map CBlockIndex.nHeight).getD 0) ancestors))
          (.error 0 "ConnectInputs() : tried to spend %s at depth %d")
        require (txPrev.nTime ≤ tx.nTime)
          (.error 100 "ConnectInputs() : transaction timestamp earlier than input transaction")
        require (moneyRange out.nValue && moneyRange (nValueIn+out.nValue))
          (.error 100 "ConnectInputs() : txin values out of range")
        checkPrevs inputs tx ancestors (nValueIn+out.nValue) os

def checkSignature (txPrev tx : CTransaction) (i flags : ℕ) : Except Failure Unit :=
  if env.verifySignature txPrev tx i flags then .ok ()
  else if flags &&& standardNotMandatoryVerifyFlags ≠ 0 ∧
      env.verifySignature txPrev tx i (flags &&& (2^32-1-standardNotMandatoryVerifyFlags)) then
    .error (.error 0 "ConnectInputs() : %s non-mandatory VerifySignature failed")
  else .error (.error 100 "ConnectInputs() : %s VerifySignature failed")

def checkScript (skipScripts : Bool) (txPrev tx : CTransaction) (i flags : ℕ) :
    Except Failure Unit :=
  if skipScripts then .ok () else checkSignature env txPrev tx i flags

/-- The second loop of `ConnectInputs`, over the inputs still to be spent: each
previous output must be unspent, and is marked as spent by this transaction. -/
def spendPrevs (tx : CTransaction) (posThisTx : CDiskTxPos) (fBlock : Bool) (flags : ℕ)
    (skipScripts : Bool) : ℕ → List COutPoint → MapPrevTx → TxIndexMap → Except Failure TxIndexMap
  | _, [], _, mapTestPool => .ok mapTestPool
  | i, o::os, inputs, mapTestPool =>
    match inputs.lookup o.hash with
    | none => .error .crash
    | some (txindex,txPrev) => do
      require (((txindex.vSpent[o.n]?).map CDiskTxPos.isNull).getD false)
        (.error 0 "ConnectInputs() : %s prev tx already used at %s")
      checkScript env skipScripts txPrev tx i flags
      let txindex := { txindex with vSpent := txindex.vSpent.set o.n posThisTx }
      spendPrevs tx posThisTx fBlock flags skipScripts (i+1) os
        (inputs.insert o.hash (txindex,txPrev))
        (if fBlock then mapTestPool.insert o.hash txindex else mapTestPool)

/-- The fee rules that close `ConnectInputs`. -/
def checkFees (tx : CTransaction) (nValueIn : ℤ) : Except Failure Unit :=
  if tx.isCoinStake then .ok ()
  else do
    let nValueOut ← tx.getValueOut
    require (nValueOut ≤ nValueIn) (.error 100 "ConnectInputs() : %s value in < value out")
    require (0 ≤ nValueIn-nValueOut) (.error 100 "ConnectInputs() : %s nTxFee < 0")
    require (getMinFee 1 .block 0 ≤ nValueIn-nValueOut)
      (.error 100 "ConnectInputs() : %s not paying required fee=%s, paid=%s")
    require (moneyRange (nValueIn-nValueOut)) (.error 100 "ConnectInputs() : nFees out of range")

/-- `CTransaction::ConnectInputs`, with the index entries that it queues. -/
def connectInputs (best : Best) (inputs : MapPrevTx) (mapTestPool : TxIndexMap)
    (posThisTx : CDiskTxPos) (ancestors : List CBlockIndex) (fBlock : Bool) (flags : ℕ)
    (tx : CTransaction) : Except Failure TxIndexMap :=
  if tx.isCoinBase then .ok mapTestPool
  else do
    let nValueIn ← checkPrevs env inputs tx ancestors 0 tx.prevouts
    let mapTestPool ← spendPrevs env tx posThisTx fBlock flags
      (fBlock && best.nBestHeight < env.totalBlocksEstimate) 0 tx.prevouts inputs mapTestPool
    checkFees tx nValueIn
    .ok mapTestPool

/-- The input loop of `DisconnectInputs`. -/
def unspendPrevs : List COutPoint → Store → Except Failure Store
  | [], s => .ok s
  | o::os, s =>
    match s.tx o.hash with
    | none => .error (.error 0 "DisconnectInputs() : ReadTxIndex failed")
    | some txindex =>
      if o.n < txindex.vSpent.length then
        unspendPrevs os (s.updateTxIndex o.hash
          { txindex with vSpent := txindex.vSpent.set o.n .null })
      else .error (.error 0 "DisconnectInputs() : prevout.n out of range")

def disconnectInputs (tx : CTransaction) (s : Store) : Except Failure Store := do
  let s ← if tx.isCoinBase then .ok s else unspendPrevs tx.prevouts s
  .ok (s.eraseTxIndex (env.hashTx tx))

/-- The loop of `GetCoinAge`, in units of cent seconds. -/
def coinAgeFrom (disk : Disk) (s : Store) (tx : CTransaction) : ℤ → List COutPoint → Option ℤ
  | bnCentSecond, [] => some bnCentSecond
  | bnCentSecond, o::os =>
    match (s.tx o.hash).bind (fun i => (disk.readTx i.pos).map (i,·)) with
    | none => coinAgeFrom disk s tx bnCentSecond os
    | some (txindex,txPrev) =>
      match txPrev.vout[o.n]? with
      | none => coinAgeFrom disk s tx bnCentSecond os
      | some out =>
        if tx.nTime < txPrev.nTime then none
        else
          let time := match txindex.pos with
            | .null => none
            | .onDisk nFile nBlockPos _ => disk.readBlockTime nFile nBlockPos
          match time with
          | none => none
          | some nTime =>
            if (tx.nTime : ℤ) < nTime+env.nStakeMinAge then coinAgeFrom disk s tx bnCentSecond os
            else coinAgeFrom disk s tx
              (bnCentSecond+(out.nValue*(tx.nTime-txPrev.nTime)).tdiv cent) os

/-- `GetCoinAge` in coin days, cut to 64 bits; none where it returns false. -/
def getCoinAge (disk : Disk) (s : Store) (tx : CTransaction) : Option (BitVec 64) :=
  if tx.isCoinBase then some 0
  else (coinAgeFrom env disk s tx 0 tx.prevouts).map (fun bnCentSecond =>
    BitVec.ofNat 64 (((bnCentSecond*cent).tdiv coin).tdiv (24*60*60)).natAbs)

end SwippCore
