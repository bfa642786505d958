import SwippCore.BlockHashCache
import SwippCore.Lib.Histories

/-!
# Masternodes and their payments

The entries of masternodes, the scores of a block, and the payments that follow from votes.
-/

set_option autoImplicit false

namespace SwippCore.Masternode

abbrev CPubKey := List UInt8

structure CService where
  ip : List UInt8
  port : ℕ
  deriving DecidableEq, Repr

structure CMasterNode where
  addr : CService
  vin : CTxIn
  lastTimeSeen : ℤ
  pubkey : CPubKey
  pubkey2 : CPubKey
  sig : List UInt8
  /-- the time of the last "dsee" message -/
  now : ℤ
  lastDseep : ℤ
  enabled : ℤ
  protocolVersion : ℤ
  nLastDsq : ℤ
  deriving DecidableEq, Repr

/-- `isVersionCompatible`; the three tables of versions are the same. -/
def isVersionCompatible (version nHeight : ℤ) : Bool :=
  if version = 69110 then 0 ≤ nHeight && nHeight ≤ 93000-1
  else if version = 69200 then 93000 ≤ nHeight && nHeight ≤ 140000-1
  else if version = 69210 then 140000 ≤ nHeight && nHeight ≤ (maxBlockSize : ℤ)
  else false

def getBlockVersion (nHeight : ℤ) : ℤ :=
  if isVersionCompatible 69200 nHeight then 69200
  else if isVersionCompatible 69210 nHeight then 69210
  else 69110

def defaultMasternodeCollateral : ℤ := 30000*coin

def getMasternodeCollateralForBlock (nHeight : ℤ) : ℤ :=
  if isVersionCompatible 69200 nHeight || isVersionCompatible 69210 nHeight then
    defaultMasternodeCollateral
  else 20000*coin

def masternodeExpirationSeconds : ℤ := 43265*60
def masternodeRemovalSeconds : ℤ := 43270*60
def masternodeMinDseepSeconds : ℤ := 30*60
def masternodeMinDseeSeconds : ℤ := 5*60
def masternodeMinConfirmations : ℤ := 7

def keyBytes (id : Uint160) : List UInt8 :=
  (List.range 20).map (fun i => UInt8.ofNat ((id >>> (8*i)).toNat % 256))

/-- `GetScriptForDestination` of a key: DUP HASH160 <id> EQUALVERIFY CHECKSIG. -/
def scriptForKey (id : Uint160) : CScript := [0x76,0xa9,20]++keyBytes id++[0x88,0xac]

def probe (adjustedTime : ℤ) (collateralPubKey : CScript) (vin : CTxIn) : CTransaction where
  nVersion := 1
  nTime := (adjustedTime % 2^32).toNat
  vin := [vin]
  vout := [⟨2999*coin,collateralPubKey⟩]
  nLockTime := 0

structure Ambience where
  adjustedTime : ℤ
  /-- `darkSendPool.collateralPubKey` -/
  collateralPubKey : CScript
  /-- `AcceptableInputs` -/
  acceptableInputs : CTransaction → Bool

variable (amb : Ambience)

namespace CMasterNode

def updatedWithin (seconds : ℤ) (mn : CMasterNode) : Bool :=
  amb.adjustedTime-mn.lastTimeSeen < seconds

/-- `UpdateLastSeen`, where zero stands for the clock. -/
def updateLastSeen (override : ℤ) (mn : CMasterNode) : CMasterNode :=
  { mn with lastTimeSeen := if override = 0 then amb.adjustedTime else override }

def disable (mn : CMasterNode) : CMasterNode := { mn with lastTimeSeen := 0 }

def isEnabled (mn : CMasterNode) : Bool := mn.enabled == 1

/-- `Check`; what was found spent stays so. -/
def check (mn : CMasterNode) : CMasterNode :=
  if mn.enabled = 3 then mn
  else if !mn.updatedWithin amb masternodeRemovalSeconds then { mn with enabled := 4 }
  else if !mn.updatedWithin amb masternodeExpirationSeconds then { mn with enabled := 2 }
  else if !amb.acceptableInputs (probe amb.adjustedTime amb.collateralPubKey mn.vin) then
    { mn with enabled := 3 }
  else { mn with enabled := 1 }

@[simp] theorem check_vin (mn : CMasterNode) : (mn.check amb).vin = mn.vin := by
  unfold check
  split_ifs <;> rfl

@[simp] theorem check_pubkey (mn : CMasterNode) : (mn.check amb).pubkey = mn.pubkey := by
  unfold check
  split_ifs <;> rfl

end CMasterNode

def getMasternodeByVin (vecMasternodes : List CMasterNode) (vin : CTxIn) : Option ℕ :=
  vecMasternodes.findIdx? (fun mn => mn.vin == vin)

def countMasternodesAboveProtocol (vecMasternodes : List CMasterNode) (protocolVersion : ℤ) : ℕ :=
  (vecMasternodes.filter (fun mn => protocolVersion ≤ mn.protocolVersion)).length

end SwippCore.Masternode

/-! ## Masternode scores and ranks -/

namespace SwippCore.MasternodeScores
open Masternode BlockHashCache

structure Scoring where
  amb : Ambience
  /-- the double hash of a block hash -/
  hashOne : Uint256 → Uint256
  /-- the double hash of the memory from `hash` to `aux` -/
  hashRange : Uint256 → Uint256 → Uint256
  /-- `std::sort` by descending score; the order of equal scores is left open -/
  sortScores : List (ℕ × ℕ × CTxIn) → List (ℕ × ℕ × CTxIn)

variable (sc : Scoring)

def distance (a b : Uint256) : Uint256 := if b < a then a-b else b-a

def scoreWith (vin : CTxIn) : Option Uint256 → Uint256
  | none => 0
  | some hash =>
    distance (sc.hashRange hash (vin.prevout.hash+BitVec.ofNat 256 vin.prevout.n)) (sc.hashOne hash)

/-- `CMasterNode::CalculateScore`; the height is cut to an `int` on the way. -/
def calculateScore (st : ChainState) (vin : CTxIn) (nBlockHeight : ℤ) (cache : Cache) :
    Uint256 × Cache :=
  let r := getBlockHash st (int32 nBlockHeight) cache
  (scoreWith sc vin r.1,r.2)

def eligible (nBlockHeight : ℤ) (mn : CMasterNode) : Bool :=
  isVersionCompatible mn.protocolVersion (int32 nBlockHeight) && (mn.check sc.amb).isEnabled

def scoresFrom (st : ChainState) (nBlockHeight : ℤ) : ℕ → List CMasterNode → Cache →
    List (ℕ × ℕ × CTxIn) × Cache
  | _, [], cache => ([],cache)
  | i, mn::mns, cache =>
    if eligible sc nBlockHeight mn then
      let s := calculateScore sc st mn.vin nBlockHeight cache
      let r := scoresFrom st nBlockHeight (i+1) mns s.2
      ((s.1.toNat % 2^32,i,mn.vin)::r.1,r.2)
    else scoresFrom st nBlockHeight (i+1) mns cache

section Ranks
variable (st : ChainState) (vecMasternodes : List CMasterNode) (nBlockHeight : ℤ) (cache : Cache)

def scores : List (ℕ × ℕ × CTxIn) := (scoresFrom sc st nBlockHeight 0 vecMasternodes cache).1

def getMasternodeRank (vin : CTxIn) : ℤ :=
  match (sc.sortScores (scores sc st vecMasternodes nBlockHeight cache)).findIdx?
      (fun s => s.2.2 == vin) with
  | some k => k+1
  | none => -1

def getMasternodeByRank (findRank : ℤ) : ℤ :=
  if findRank < 1 then -1
  else
    match (sc.sortScores (scores sc st vecMasternodes nBlockHeight cache))[(findRank-1).toNat]? with
    | some s => s.2.1
    | none => -1

/-- The loop of `GetCurrentMasterNode`: the first of the highest scores above zero. -/
def bestScore : List (ℕ × ℕ × CTxIn) → ℕ → ℤ → ℤ
  | [], _, winner => winner
  | s::ss, score, winner =>
    if score < s.1 then bestScore ss s.1 s.2.1 else bestScore ss score winner

def getCurrentMasterNode : ℤ := bestScore (scores sc st vecMasternodes nBlockHeight cache) 0 (-1)

end Ranks
end SwippCore.MasternodeScores

/-! ## Masternode payments -/

namespace SwippCore.MasternodePayments
open FinMap Histories BlockHashCache MasternodeScores

structure CMasternodePaymentWinner where
  nBlockHeight : ℤ
  vin : CTxIn
  payee : CScript
  vchSig : List UInt8
  score : ℕ
  deriving DecidableEq, Repr

structure Node where
  chain : ChainState
  /-- the double hash of the four bytes of a height -/
  hashHeight : ℤ → Uint256
  /-- the double hash of a hash -/
  hashOne : Uint256 → Uint256
  /-- `CTxIn::ToString` and `CScript::ToString` -/
  vinString : CTxIn → String
  scriptString : CScript → String
  /-- `darkSendSigner.VerifyMessage`, on a public key in hexadecimal -/
  verifyMessage : String → List UInt8 → String → Bool

structure State where
  mapSeenMasternodeVotes : Dict Uint256 CMasternodePaymentWinner
  vWinning : List CMasternodePaymentWinner
  mapCacheBlockHashes : Cache

def strMainPubKey : String :=
  "04834fbd30d792fdd63bc1218ae453516f72a389213a7a49922444a587e2" ++
  "56769d84cc1d56009e06e41c249a95e98fef266849b0870a0b15d4e6f6a632d1486e4d"

variable (node : Node)

namespace CMasternodePaymentWinner

def getHash (winner : CMasternodePaymentWinner) : Uint256 :=
  distance winner.vin.prevout.hash (node.hashHeight winner.nBlockHeight)

end CMasternodePaymentWinner

def checkSignature (winner : CMasternodePaymentWinner) : Bool :=
  node.verifyMessage strMainPubKey winner.vchSig
    (node.vinString winner.vin ++ toString winner.nBlockHeight ++ node.scriptString winner.payee)

/-- `CMasternodePayments::CalculateScore`, the low 64 bits of the distance. -/
def calculateScore (blockHash : Uint256) (vin : CTxIn) : ℕ :=
  (distance (node.hashOne vin.prevout.hash) (node.hashOne blockHash)).toNat % 2^64

/-- The loop of `AddWinningMasternode`: the list, whether the height was found in it,
and whether an entry was beaten. -/
def beat (winnerIn : CMasternodePaymentWinner) :
    List CMasternodePaymentWinner → List CMasternodePaymentWinner × Bool × Bool
  | [] => ([],false,false)
  | winner::ws =>
    if winner.nBlockHeight = winnerIn.nBlockHeight then
      if winner.score < winnerIn.score then
        ({ winner with
            score := winnerIn.score
            vin := winnerIn.vin
            payee := winnerIn.payee
            vchSig := winnerIn.vchSig }::ws,true,true)
      else
        let r := beat winnerIn ws
        (winner::r.1,true,r.2.2)
    else
      let r := beat winnerIn ws
      (winner::r.1,r.2)

/-- `AddWinningMasternode`, with what it returns. -/
def addWinningMasternode (winnerIn : CMasternodePaymentWinner) (st : State) : State × Bool :=
  let r := getBlockHash node.chain (winnerIn.nBlockHeight-576) st.mapCacheBlockHashes
  let st := { st with mapCacheBlockHashes := r.2 }
  match r.1 with
  | none => (st,false)
  | some blockHash =>
    let winnerIn := { winnerIn with score := calculateScore node blockHash winnerIn.vin }
    match beat winnerIn st.vWinning with
    | (ws,_,true) => ({ st with vWinning := ws },true)
    | (_,true,false) => (st,false)
    | (_,false,false) =>
      ({ st with
          vWinning := st.vWinning++[winnerIn]
          mapSeenMasternodeVotes :=
            insertNew st.mapSeenMasternodeVotes (winnerIn.getHash node) winnerIn },true)

def inRange (winner : CMasternodePaymentWinner) : Bool :=
  tipHeight node.chain-10 ≤ winner.nBlockHeight && winner.nBlockHeight ≤ tipHeight node.chain+20

inductive Reply where
  | ignored
  | misbehaving (score : ℕ)
  | relayed (hash : Uint256)
  deriving DecidableEq, Repr

/-- `ProcessMessageMasternode` on a "mnw" message. -/
def processMnw (winner : CMasternodePaymentWinner) (st : State) : State × Reply :=
  let hash := winner.getHash node
  if node.chain.pindexBest.isNone then (st,.ignored)
  else if hash ∈ st.mapSeenMasternodeVotes then (st,.ignored)
  else if !inRange node winner then (st,.ignored)
  else if winner.vin.nSequence ≠ uintMax then (st,.misbehaving 100)
  else if !checkSignature node winner then (st,.misbehaving 100)
  else
    let st := { st with
      mapSeenMasternodeVotes := insertNew st.mapSeenMasternodeVotes hash winner }
    match addWinningMasternode node winner st with
    | (st,true) => (st,.relayed hash)
    | (st,false) => (st,.ignored)

def receive (ms : List CMasternodePaymentWinner) (st : State) : State :=
  deliver (fun m s => (processMnw node m s).1) ms st

end SwippCore.MasternodePayments
