import SwippCore.Inputs
import Mathlib.Data.List.Range

/-!
# The memory pool

What the pool holds, and how a transaction gets into it.
-/

set_option autoImplicit false

/-!
## The memory pool

The container of txmempool.cpp. A `CInPoint` holds a pointer to an entry of
`mapTx`; here it holds the key of that entry, and following a pointer whose
entry is gone has no result. `remove` recurses along the spend index, so it is
given fuel; one unit more than the size of the pool is always enough.
-/

namespace SwippCore
open FinMap

structure CInPoint where
  ptx : Uint256
  n : ℕ
  deriving DecidableEq, Repr

structure CTxMemPool where
  mapTx : Dict Uint256 CTransaction
  mapNextTx : Dict COutPoint CInPoint
  nTransactionsUpdated : ℕ

namespace CTxMemPool

def empty : CTxMemPool := ⟨∅,∅,0⟩

def size (p : CTxMemPool) : ℕ := p.mapTx.keys.length

def exists? (p : CTxMemPool) (hash : Uint256) : Bool := (p.mapTx.lookup hash).isSome

def lookup (p : CTxMemPool) (hash : Uint256) : Option CTransaction := p.mapTx.lookup hash

def indexInputs (hash : Uint256) : ℕ → List CTxIn → Dict COutPoint CInPoint →
    Dict COutPoint CInPoint
  | _, [], m => m
  | i, x::xs, m => indexInputs hash (i+1) xs (m.insert x.prevout ⟨hash,i⟩)

def addUnchecked (hash : Uint256) (tx : CTransaction) (p : CTxMemPool) : CTxMemPool where
  mapTx := p.mapTx.insert hash tx
  mapNextTx := indexInputs hash 0 tx.vin p.mapNextTx
  nTransactionsUpdated := p.nTransactionsUpdated+1

def clear (p : CTxMemPool) : CTxMemPool := ⟨∅,∅,p.nTransactionsUpdated+1⟩

/-- The tail of `remove`: the entry and its inputs leave both maps. -/
def drop (hash : Uint256) (tx : CTransaction) (p : CTxMemPool) : CTxMemPool where
  mapTx := p.mapTx.erase hash
  mapNextTx := eraseAll p.mapNextTx tx.prevouts
  nTransactionsUpdated := p.nTransactionsUpdated+1

/-- The output loop of `remove`, over the outputs still to be visited. -/
def removeSpenders (rm : CTransaction → CTxMemPool → Option CTxMemPool) (hash : Uint256) :
    List ℕ → CTxMemPool → Option CTxMemPool
  | [], p => some p
  | i::is, p =>
    match p.mapNextTx.lookup ⟨hash,i⟩ with
    | none => removeSpenders rm hash is p
    | some it =>
      match p.mapTx.lookup it.ptx with
      | none => none
      | some child => (rm child p).bind (removeSpenders rm hash is)

variable (hashTx : CTransaction → Uint256)

def removeFuel : ℕ → CTransaction → Bool → CTxMemPool → Option CTxMemPool
  | 0, _, _, _ => none
  | fuel+1, tx, fRecursive, p =>
    let hash := hashTx tx
    if hash ∈ p.mapTx then
      let q := if fRecursive then
          removeSpenders (fun t => removeFuel fuel t true) hash (List.range tx.vout.length) p
        else some p
      q.map (drop hash tx)
    else some p

def remove (tx : CTransaction) (fRecursive : Bool) (p : CTxMemPool) : Option CTxMemPool :=
  removeFuel hashTx (p.size+1) tx fRecursive p

/-- The input loop of `removeConflicts`, over the inputs still to be visited. -/
def removeConflictsAt (tx : CTransaction) : List COutPoint → CTxMemPool → Option CTxMemPool
  | [], p => some p
  | o::os, p =>
    match p.mapNextTx.lookup o with
    | none => removeConflictsAt tx os p
    | some it =>
      match p.mapTx.lookup it.ptx with
      | none => none
      | some txConflict =>
        if txConflict ≠ tx then
          (remove hashTx txConflict true p).bind (removeConflictsAt tx os)
        else removeConflictsAt tx os p

def removeConflicts (tx : CTransaction) (p : CTxMemPool) : Option CTxMemPool :=
  removeConflictsAt hashTx tx tx.prevouts p

end CTxMemPool
end SwippCore

/-!
## AcceptToMemoryPool

The checks on a loose transaction, against the pool and against what the database has committed.
The rate limit on free transactions is never reached, because a fee below the relay fee has been
refused before it; it is left out.
-/

namespace SwippCore
open Checks

variable (env : Env)

def prevOutputs (inputs : MapPrevTx) (tx : CTransaction) : List CTxOut :=
  tx.prevouts.filterMap (getOutputFor inputs)

def checkPoolFees (fLimitFree : Bool) (nFees : ℤ) (nSize : ℕ) : Except Failure Unit :=
  require (!((fLimitFree && nFees < getMinFee 1000 .relay nSize) || (!fLimitFree && nFees < minTxFee)))
    (.error 0 "AcceptToMemoryPool : not enough fees %s, %d < %d")

/-- The part that reads the database: fetched inputs, fees, and the inputs connected
as if in a block after the best one, under two sets of script flags. -/
def checkPoolInputs (best : Best) (ancestors : List CBlockIndex) (disk : Disk) (s : Store)
    (fLimitFree : Bool) (tx : CTransaction) (pool : CTxMemPool) : Except Failure Unit := do
  require (!s.containsTx (env.hashTx tx)) (.error 0 "")
  let mapInputs ← fetchInputs disk pool.lookup s.tx ∅ false tx
  require (env.testNet || env.areInputsStandard tx (prevOutputs mapInputs tx))
    (.error 0 "AcceptToMemoryPool : nonstandard transaction input")
  require (legacySigOpCount env tx+p2shSigOpCount env mapInputs tx ≤ maxTxSigOps)
    (.error 0 "AcceptToMemoryPool : too many sigops %s, %d > %d")
  let nValueIn ← tx.getValueIn mapInputs
  let nValueOut ← tx.getValueOut
  checkPoolFees fLimitFree (nValueIn-nValueOut) (env.txSize tx)
  let _ ← connectInputs env best mapInputs ∅ .memPool ancestors false standardScriptVerifyFlags tx
  let _ ← connectInputs env best mapInputs ∅ .memPool ancestors false mandatoryScriptVerifyFlags tx
  .ok ()

/-- `AcceptToMemoryPool`: the pool with the transaction in it. -/
def acceptToMemoryPool (best : Best) (ancestors : List CBlockIndex) (disk : Disk) (s : Store)
    (fLimitFree : Bool) (tx : CTransaction) (pool : CTxMemPool) : Except Failure CTxMemPool := do
  checkTransaction env tx
  require (!tx.isCoinBase) (.error 100 "AcceptToMemoryPool : coinbase as individual tx")
  require (!tx.isCoinStake) (.error 100 "AcceptToMemoryPool : coinstake as individual tx")
  require (env.testNet || env.isStandardTx tx)
    (.error 0 "AcceptToMemoryPool : nonstandard transaction: %s")
  require (!pool.exists? (env.hashTx tx)) (.error 0 "")
  forEach (fun o => require ((pool.mapNextTx.lookup o).isNone) (.error 0 "")) tx.prevouts
  checkPoolInputs env best ancestors disk s fLimitFree tx pool
  .ok (pool.addUnchecked (env.hashTx tx) tx)

end SwippCore
