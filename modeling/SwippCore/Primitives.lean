import SwippCore.Lib.FinMap
import Mathlib.Algebra.Order.Ring.Int

/-!
# Primitives

Numbers and transactions of the source, and the parameters of the chain.
-/

set_option autoImplicit false

/-!
## Transactions, blocks and amounts

The records of core.h, transaction.h and main.h with the fields that the modelled functions
read. An amount is an integer: the source keeps it in a signed 64-bit word, whose overflow is
undefined there and never reached below the money range checks.
-/

namespace SwippCore

abbrev Uint256 := BitVec 256
abbrev Uint160 := BitVec 160
abbrev CScript := List UInt8

instance : LawfulBEq Uint256 := inferInstance

def coin : ℤ := 100000000
def cent : ℤ := 1000000

/-- The bound of `MoneyRange` is written out in the source; it is not `MAX_MONEY`. -/
def moneyRange (nValue : ℤ) : Bool := 0 ≤ nValue && nValue ≤ 5000000*coin

/-- The conversion to `int`. -/
def int32 (v : ℤ) : ℤ := (BitVec.ofInt 32 v).toInt

/-- `(unsigned int) -1`. -/
def uintMax : ℕ := 0xffffffff

structure COutPoint where
  hash : Uint256
  n : ℕ
  deriving DecidableEq, Repr

def COutPoint.null : COutPoint := ⟨0,uintMax⟩

def COutPoint.isNull (o : COutPoint) : Bool := o.hash == 0 && o.n == uintMax

structure CTxIn where
  prevout : COutPoint
  scriptSig : CScript
  nSequence : ℕ
  deriving DecidableEq, Repr

structure CTxOut where
  nValue : ℤ
  scriptPubKey : CScript
  deriving DecidableEq, Repr

def CTxOut.isEmpty (o : CTxOut) : Bool := o.nValue == 0 && o.scriptPubKey.isEmpty

structure CTransaction where
  nVersion : ℤ
  nTime : ℕ
  vin : List CTxIn
  vout : List CTxOut
  nLockTime : ℕ
  deriving DecidableEq, Repr

namespace CTransaction

def prevouts (tx : CTransaction) : List COutPoint := tx.vin.map CTxIn.prevout

def isCoinBase (tx : CTransaction) : Bool :=
  match tx.vin with
  | [i] => i.prevout.isNull && !tx.vout.isEmpty
  | _ => false

def isCoinStake (tx : CTransaction) : Bool :=
  match tx.vin, tx.vout with
  | i::_, o::_::_ => !i.prevout.isNull && o.isEmpty
  | _, _ => false

end CTransaction

structure CBlock where
  nVersion : ℤ
  hashPrevBlock : Uint256
  hashMerkleRoot : Uint256
  nTime : ℕ
  nBits : ℕ
  nNonce : ℕ
  vtx : List CTransaction
  vchBlockSig : List UInt8
  deriving DecidableEq, Repr

def CBlock.isProofOfStake (b : CBlock) : Bool :=
  match b.vtx with
  | _::tx::_ => tx.isCoinStake
  | _ => false

def CBlock.isProofOfWork (b : CBlock) : Bool := !b.isProofOfStake

/-- How a call can end without returning true: `return DoS(n, error(..))` and
`return error(..)` (score zero), a C++ exception, and a null pointer read. -/
inductive Failure where
  | error (nDoS : ℕ) (msg : String)
  | throw (msg : String)
  | crash
  deriving DecidableEq, Repr

end SwippCore

/-!
## Chain parameters and block index records

`Env` collects what the chain logic takes from elsewhere: serialization sizes
and the hashes over them, the script interpreter, the stake kernel, and the
constants of the network that is run. Nothing is assumed about these functions.
-/

namespace SwippCore

structure Env where
  /-- `CTransaction::GetHash` -/
  hashTx : CTransaction → Uint256
  /-- `CBlock::GetHash`, over the header fields -/
  hashBlock : CBlock → Uint256
  /-- `CBlock::GetPoWHash` -/
  hashPoW : CBlock → Uint256
  /-- the double hash of two concatenated hashes -/
  hashPair : Uint256 → Uint256 → Uint256
  txSize : CTransaction → ℕ
  blockSize : CBlock → ℕ
  /-- `CScript::GetSigOpCount(false)` -/
  scriptSigOps : CScript → ℕ
  /-- the operations counted by `GetP2SHSigOpCount` for one input -/
  p2shSigOps : CScript → CScript → ℕ
  /-- `VerifySignature(txPrev, tx, i, flags, 0)` -/
  verifySignature : CTransaction → CTransaction → ℕ → ℕ → Bool
  checkBlockSignature : CBlock → Bool
  /-- `Hash160` -/
  hash160 : List UInt8 → Uint160
  /-- `IsStandardTx`, and `AreInputsStandard` on the outputs that are spent -/
  isStandardTx : CTransaction → Bool
  areInputsStandard : CTransaction → List CTxOut → Bool
  hashGenesisBlock : Uint256
  proofOfWorkLimit : ℤ
  testNet : Bool
  /-- `Checkpoints::GetTotalBlocksEstimate` -/
  totalBlocksEstimate : ℤ
  nCoinbaseMaturity : ℤ
  nStakeMinAge : ℤ

def maxBlockSize : ℕ := 6000000
def maxBlockSizeGen : ℕ := maxBlockSize/2
def maxBlockSigOps : ℕ := maxBlockSize/50
def maxTxSigOps : ℕ := maxBlockSigOps/5
def minTxFee : ℤ := 10000
def minPeerProtoVersion : ℤ := 69210
def startMasternodePayments : ℕ := 1432907775
def instantxSignaturesRequired : ℤ := 20
def instantxSignaturesTotal : ℤ := 30

/-- `nFlags` bit of a proof-of-stake block. -/
def blockProofOfStake : ℕ := 1

/-- An entry of `mapBlockIndex`. A pointer to another entry is its block hash. -/
structure CBlockIndex where
  hashBlock : Uint256
  pprev : Option Uint256
  pnext : Option Uint256
  nFile : ℕ
  nBlockPos : ℕ
  nChainTrust : Uint256
  nHeight : ℤ
  nMint : ℤ
  nMoneySupply : ℤ
  nFlags : ℕ
  nStakeModifier : ℕ
  prevoutStake : COutPoint
  nStakeTime : ℕ
  hashProof : Uint256
  nVersion : ℤ
  hashMerkleRoot : Uint256
  nTime : ℕ
  nBits : ℕ
  nNonce : ℕ
  deriving DecidableEq, Repr

/-- A block index record as it is written to disk: the pointers become hashes
and the chain trust is left out. -/
structure CDiskBlockIndex where
  hashNext : Uint256
  nFile : ℕ
  nBlockPos : ℕ
  nHeight : ℤ
  nMint : ℤ
  nMoneySupply : ℤ
  nFlags : ℕ
  nStakeModifier : ℕ
  prevoutStake : COutPoint
  nStakeTime : ℕ
  hashProof : Uint256
  nVersion : ℤ
  hashPrev : Uint256
  hashMerkleRoot : Uint256
  nTime : ℕ
  nBits : ℕ
  nNonce : ℕ
  deriving DecidableEq, Repr

def CDiskBlockIndex.ofIndex (i : CBlockIndex) : CDiskBlockIndex where
  hashNext := i.pnext.getD 0
  nFile := i.nFile
  nBlockPos := i.nBlockPos
  nHeight := i.nHeight
  nMint := i.nMint
  nMoneySupply := i.nMoneySupply
  nFlags := i.nFlags
  nStakeModifier := i.nStakeModifier
  prevoutStake := i.prevoutStake
  nStakeTime := i.nStakeTime
  hashProof := i.hashProof
  nVersion := i.nVersion
  hashPrev := i.pprev.getD 0
  hashMerkleRoot := i.hashMerkleRoot
  nTime := i.nTime
  nBits := i.nBits
  nNonce := i.nNonce

/-- An environment for evaluation: a hash is a time stamp, every script runs and
every size is small. -/
def sampleEnv : Env where
  hashTx tx := BitVec.ofNat 256 tx.nTime
  hashBlock b := BitVec.ofNat 256 b.nNonce
  hashPoW _ := 0
  hashPair a b := a+b
  txSize _ := 100
  blockSize _ := 1000
  scriptSigOps _ := 0
  p2shSigOps _ _ := 0
  verifySignature _ _ _ _ := true
  checkBlockSignature _ := true
  hash160 vch := BitVec.ofNat 160 (vch.headD 0).toNat
  isStandardTx _ := true
  areInputsStandard _ _ := true
  hashGenesisBlock := 1
  proofOfWorkLimit := 2^240
  testNet := false
  totalBlocksEstimate := 0
  nCoinbaseMaturity := 10
  nStakeMinAge := 0

end SwippCore
