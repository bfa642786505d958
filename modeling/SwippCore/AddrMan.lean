import SwippCore.Lib.Buckets
import SwippCore.Serialize
import Mathlib.Data.Finset.Sort

/-!
# The address manager

Addresses of nodes have an id. The functions of addrman.cpp are translated with the numbers that
they draw and the times that they read as arguments; none stands for an assertion that fails and
for an entry that `operator[]` would have to make.
-/

set_option autoImplicit false

namespace SwippCore.AddrMan
open FinMap PrefixCode

def triedBucketCount : ℕ := 64
def triedBucketSize : ℕ := 64
def newBucketCount : ℕ := 256
def newBucketSize : ℕ := 64
def triedBucketsPerGroup : ℕ := 4
def newBucketsPerSourceGroup : ℕ := 32
def newBucketsPerAddress : ℤ := 4
def triedEntriesInspectOnEvict : ℕ := 4
def horizonDays : ℤ := 30
def retries : ℤ := 3
def maxFailures : ℤ := 10
def minFailDays : ℤ := 7
def getAddrMaxPct : ℕ := 23
def getAddrMax : ℕ := 2500

abbrev CNetAddr := BitVec 128

structure CService where
  ip : CNetAddr
  port : BitVec 16
  deriving DecidableEq, Repr

structure CAddress extends CService where
  nServices : BitVec 64
  nTime : BitVec 32
  nLastTry : BitVec 64
  deriving DecidableEq, Repr

structure CAddrInfo extends CAddress where
  source : CNetAddr
  nLastSuccess : BitVec 64
  nAttempts : BitVec 32
  nRefCount : ℤ
  fInTried : Bool
  nRandomPos : ℤ
  deriving DecidableEq, Repr

structure AddrHash where
  isRoutable : CNetAddr → Bool
  getGroup : CNetAddr → List UInt8
  /-- `Hash(..).Get64()` of a stream -/
  hash : List UInt8 → ℕ

/-- The constructor `CAddrInfo(addrIn,addrSource)`. -/
def CAddrInfo.ofAddress (addrIn : CAddress) (addrSource : CNetAddr) : CAddrInfo :=
  { addrIn with
    nLastTry := 0
    source := addrSource
    nLastSuccess := 0
    nAttempts := 0
    nRefCount := 0
    fInTried := false
    nRandomPos := -1 }

def bytes (v : List UInt8) : List UInt8 := vector writeCompactSize (fun b => [b]) v

def CService.getKey (a : CService) : List UInt8 :=
  (word 16 a.ip.toNat).reverse++[UInt8.ofNat (a.port.toNat/0x100),UInt8.ofNat a.port.toNat]

section Buckets
variable (H : AddrHash) (nKey : List UInt8)

def getTriedBucket (a : CService) : Fin triedBucketCount :=
  let hash1 := H.hash (bytes nKey++bytes a.getKey)
  let hash2 := H.hash (bytes nKey++bytes (H.getGroup a.ip)++word 8 (hash1%triedBucketsPerGroup))
  ⟨hash2%triedBucketCount,Nat.mod_lt _ (by decide)⟩

def getNewBucket (a src : CNetAddr) : Fin newBucketCount :=
  let hash1 := H.hash (bytes nKey++bytes (H.getGroup a)++bytes (H.getGroup src))
  let hash2 := H.hash (bytes nKey++bytes (H.getGroup src)++word 8 (hash1%newBucketsPerSourceGroup))
  ⟨hash2%newBucketCount,Nat.mod_lt _ (by decide)⟩

end Buckets

def CAddrInfo.isTerrible (info : CAddrInfo) (nNow : ℤ) : Bool :=
  if info.nLastTry ≠ 0 ∧ nNow-60 ≤ info.nLastTry.toInt then false
  else if nNow+10*60 < info.nTime.toNat then true
  else if info.nTime = 0 ∨ horizonDays*24*60*60 < nNow-info.nTime.toNat then true
  else if info.nLastSuccess = 0 ∧ retries ≤ info.nAttempts.toInt then true
  else minFailDays*24*60*60 < nNow-info.nLastSuccess.toInt ∧ maxFailures ≤ info.nAttempts.toInt

structure CAddrMan where
  nKey : List UInt8
  nIdCount : ℕ
  mapInfo : Dict ℕ CAddrInfo
  mapAddr : Dict CNetAddr ℕ
  vRandom : List ℕ
  nTried : ℤ
  vvTried : Fin triedBucketCount → List ℕ
  nNew : ℤ
  vvNew : Fin newBucketCount → Finset ℕ

def CAddrMan.new (nKey : List UInt8) : CAddrMan := ⟨nKey,0,∅,∅,[],0,fun _ => [],0,fun _ => ∅⟩

structure Chance where
  rand : ℕ → ℕ
  adjustedTime : ℕ → ℤ

/-- `GetRandInt`, the draw with an index. -/
def getRandInt (rand : ℕ → ℕ) (i nMax : ℕ) : ℕ := if nMax = 0 then 0 else rand i%nMax

/-- An `unsigned int` for a signed number. -/
def unsigned (n : ℤ) : ℕ := (n%2^32).toNat

def modify (m : Dict ℕ CAddrInfo) (nId : ℕ) (f : CAddrInfo → CAddrInfo) : Dict ℕ CAddrInfo :=
  match m.lookup nId with
  | none => m
  | some info => m.insert nId (f info)

def CAddrMan.setInfo (s : CAddrMan) (nId : ℕ) (f : CAddrInfo → CAddrInfo) : CAddrMan :=
  { s with mapInfo := modify s.mapInfo nId f }

def find (s : CAddrMan) (addr : CNetAddr) : Option (ℕ × CAddrInfo) :=
  match s.mapAddr.lookup addr with
  | none => none
  | some nId => (s.mapInfo.lookup nId).map fun info => (nId,info)

/-- `Create`, the state and the id. -/
def create (s : CAddrMan) (addr : CAddress) (addrSource : CNetAddr) : CAddrMan × ℕ :=
  let nId := s.nIdCount
  ({ s with
      nIdCount := nId+1
      mapInfo := s.mapInfo.insert nId
        { CAddrInfo.ofAddress addr addrSource with nRandomPos := s.vRandom.length }
      mapAddr := s.mapAddr.insert addr.ip nId
      vRandom := s.vRandom++[nId] },nId)

def swapRandom (nRndPos1 nRndPos2 : ℕ) (s : CAddrMan) : Option CAddrMan :=
  if nRndPos1 = nRndPos2 then some s
  else
    match s.vRandom[nRndPos1]?, s.vRandom[nRndPos2]? with
    | some nId1, some nId2 =>
      if (s.mapInfo.lookup nId1).isSome && (s.mapInfo.lookup nId2).isSome then
        some { s with
          mapInfo := modify (modify s.mapInfo nId1 fun x => { x with nRandomPos := nRndPos2 }) nId2
            fun x => { x with nRandomPos := nRndPos1 }
          vRandom := (s.vRandom.set nRndPos1 nId2).set nRndPos2 nId1 }
      else none
    | _, _ => none

section Shrink

def firstTerrible (m : Dict ℕ CAddrInfo) (clock : ℕ → ℤ) : ℕ → List ℕ → Option (Option ℕ)
  | _, [] => some none
  | i, n::ns =>
    match m.lookup n with
    | none => none
    | some info => if info.isTerrible (clock i) then some (some n) else firstTerrible m clock (i+1) ns

def oldest (m : Dict ℕ CAddrInfo) (drawn : List ℕ) : ℕ → Option ℕ → List ℕ → Option (Option ℕ)
  | _, nOldest, [] => some nOldest
  | nI, nOldest, n::ns =>
    if nI ∈ drawn then
      match nOldest with
      | none => oldest m drawn (nI+1) (some n) ns
      | some old =>
        match m.lookup n, m.lookup old with
        | some x, some y =>
          oldest m drawn (nI+1) (if x.nTime.toNat < y.nTime.toNat then some n else some old) ns
        | _, _ => none
    else oldest m drawn (nI+1) nOldest ns

/-- `--nRefCount`, and the end of an entry that has lost its last reference. -/
def dropReference (nId : ℕ) (s : CAddrMan) : Option CAddrMan :=
  match s.mapInfo.lookup nId with
  | none => none
  | some info =>
    let s := s.setInfo nId fun x => { x with nRefCount := x.nRefCount-1 }
    if info.nRefCount-1 = 0 then
      (swapRandom (unsigned info.nRandomPos) (unsigned ((s.vRandom.length : ℤ)-1)) s).map fun s =>
        { s with
          vRandom := s.vRandom.dropLast
          mapAddr := s.mapAddr.erase info.ip
          mapInfo := s.mapInfo.erase nId
          nNew := s.nNew-1 }
    else some s

def eraseNew (nUBucket : Fin newBucketCount) (nId : ℕ) (s : CAddrMan) : CAddrMan :=
  { s with vvNew := Function.update s.vvNew nUBucket ((s.vvNew nUBucket).erase nId) }

def insertNew (nUBucket : Fin newBucketCount) (nId : ℕ) (s : CAddrMan) : CAddrMan :=
  { s with vvNew := Function.update s.vvNew nUBucket (insert nId (s.vvNew nUBucket)) }

/-- `ShrinkNew`; its first assertion is in the type of the bucket. -/
def shrinkNew (nUBucket : Fin newBucketCount) (c : Chance) (s : CAddrMan) : Option CAddrMan :=
  let vNew := (s.vvNew nUBucket).sort
  match firstTerrible s.mapInfo c.adjustedTime 0 vNew with
  | none => none
  | some (some n) => (dropReference n s).map (eraseNew nUBucket n)
  | some none =>
    let drawn := (List.range 4).map fun i => getRandInt c.rand i vNew.length
    match oldest s.mapInfo drawn 0 none vNew with
    | some (some n) => (dropReference n s).map (eraseNew nUBucket n)
    | _ => none

end Shrink

section Tried

/-- The loop of `SelectTried` with the oldest entry and its position so far. -/
def inspectTried (m : Dict ℕ CAddrInfo) (rand : ℕ → ℕ) :
    ℕ → ℕ → List ℕ → Option (ℕ × ℕ) → Option (List ℕ × Option (ℕ × ℕ))
  | 0, _, vTried, best => some (vTried,best)
  | k+1, i, vTried, best =>
    if i < vTried.length then
      let nPos := getRandInt rand i (vTried.length-i)+i
      match vTried[nPos]?, vTried[i]? with
      | some nTemp, some x =>
        let vTried := (vTried.set nPos x).set i nTemp
        match best with
        | none => inspectTried m rand k (i+1) vTried (some (nTemp,nPos))
        | some (nOldest,nOldestPos) =>
          match m.lookup nTemp, m.lookup nOldest with
          | some a, some b =>
            inspectTried m rand k (i+1) vTried
              (some (if a.nLastSuccess.toInt < b.nLastSuccess.toInt then (nTemp,nPos)
                else (nOldest,nOldestPos)))
          | _, _ => none
      | _, _ => none
    else some (vTried,best)

/-- `SelectTried`: the bucket after its shuffle, and the position to replace. -/
def selectTried (m : Dict ℕ CAddrInfo) (rand : ℕ → ℕ) (vTried : List ℕ) : Option (List ℕ × ℕ) :=
  (inspectTried m rand triedEntriesInspectOnEvict 0 vTried none).bind fun r =>
    r.2.map fun best => (r.1,best.2)

variable (H : AddrHash)

def refs (vvNew : Fin newBucketCount → Finset ℕ) (nId : ℕ) : ℕ :=
  Buckets.holders vvNew nId

/-- `MakeTried`, where the entry is no longer in a new bucket. -/
def placeTried (nId : ℕ) (info : CAddrInfo) (nOrigin : Fin newBucketCount) (rand : ℕ → ℕ)
    (s : CAddrMan) : Option CAddrMan :=
  let nKBucket := getTriedBucket H s.nKey info.toCService
  let vTried := s.vvTried nKBucket
  if vTried.length < triedBucketSize then
    some { s.setInfo nId fun x => { x with fInTried := true } with
      vvTried := Function.update s.vvTried nKBucket (vTried++[nId])
      nTried := s.nTried+1 }
  else
    (selectTried s.mapInfo rand vTried).bind fun r =>
      match r.1[r.2]? with
      | none => none
      | some nOld =>
        match s.mapInfo.lookup nOld with
        | none => none
        | some infoOld =>
          let nUBucket := getNewBucket H s.nKey infoOld.ip infoOld.source
          let s := s.setInfo nOld fun x => { x with fInTried := false, nRefCount := 1 }
          let s := insertNew (if (s.vvNew nUBucket).card < newBucketSize then nUBucket else nOrigin) nOld s
          some { s.setInfo nId fun x => { x with fInTried := true } with
            vvTried := Function.update s.vvTried nKBucket (r.1.set r.2 nId)
            nNew := s.nNew+1 }

def makeTried (nId : ℕ) (nOrigin : Fin newBucketCount) (rand : ℕ → ℕ) (s : CAddrMan) :
    Option CAddrMan :=
  match s.mapInfo.lookup nId with
  | none => none
  | some info =>
    if nId ∉ s.vvNew nOrigin then none
    else
      let nRefCount := info.nRefCount-refs s.vvNew nId
      let s := { s.setInfo nId fun x => { x with nRefCount := nRefCount } with
        vvNew := fun b => (s.vvNew b).erase nId
        nNew := s.nNew-1 }
      if nRefCount ≠ 0 then none else placeTried H nId info nOrigin rand s

end Tried

section Calls
variable (H : AddrHash)

/-- The bucket at which `Good_` looks in its n-th step. -/
def bucketFrom (nRnd n : ℕ) : Fin newBucketCount := ⟨(n+nRnd)%newBucketCount,Nat.mod_lt _ (by decide)⟩

def good_ (addr : CService) (nTime : BitVec 64) (rand : ℕ → ℕ) (s : CAddrMan) : Option CAddrMan :=
  match find s addr.ip with
  | none => some s
  | some (nId,info) =>
    if info.toCService ≠ addr then some s
    else
      let s := s.setInfo nId fun x => { x with
        nLastSuccess := nTime
        nLastTry := nTime
        nTime := nTime.setWidth 32
        nAttempts := 0 }
      if info.fInTried then some s
      else
        let nRnd := getRandInt rand 0 newBucketCount
        match ((List.range newBucketCount).map (bucketFrom nRnd)).find? fun b => nId ∈ s.vvNew b with
        | none => some s
        | some nUBucket => makeTried H nId nUBucket (fun i => rand (i+1)) s

/-- What `Add_` writes to an entry that exists. -/
def refresh (addr : CAddress) (nTimePenalty now : ℤ) (x : CAddrInfo) : CAddrInfo :=
  let nUpdateInterval : ℤ := if now-addr.nTime.toNat < 24*60*60 then 60*60 else 24*60*60
  let nTime := if addr.nTime ≠ 0 ∧
      (x.nTime = 0 ∨ (x.nTime.toNat : ℤ) < addr.nTime.toNat-nUpdateInterval-nTimePenalty)
    then BitVec.ofInt 32 (max 0 (addr.nTime.toNat-nTimePenalty)) else x.nTime
  { x with nTime := nTime, nServices := x.nServices ||| addr.nServices }

/-- `Add_` goes on to add a reference to the entry. -/
def addsReference (addr : CAddress) (rand : ℕ → ℕ) (x : CAddrInfo) : Bool :=
  if addr.nTime = 0 ∨ (x.nTime ≠ 0 ∧ addr.nTime.toNat ≤ x.nTime.toNat) then false
  else if x.fInTried then false
  else if x.nRefCount = newBucketsPerAddress then false
  else
    let nFactor := 2^x.nRefCount.toNat
    !(1 < nFactor && getRandInt rand 0 nFactor != 0)

/-- The end of `Add_`: the entry goes to the bucket of its source. -/
def addReference (nId : ℕ) (addr source : CNetAddr) (c : Chance) (s : CAddrMan) : Option CAddrMan :=
  let nUBucket := getNewBucket H s.nKey addr source
  if nId ∈ s.vvNew nUBucket then some s
  else
    let s := s.setInfo nId fun x => { x with nRefCount := x.nRefCount+1 }
    (if (s.vvNew nUBucket).card = newBucketSize then
      shrinkNew nUBucket ⟨fun i => c.rand (i+1),fun i => c.adjustedTime (i+1)⟩ s else some s).map
        (insertNew nUBucket nId)

def add_ (addr : CAddress) (source : CNetAddr) (nTimePenalty : ℤ) (c : Chance) (s : CAddrMan) :
    Option (Bool × CAddrMan) :=
  if !H.isRoutable addr.ip then some (false,s)
  else
    match find s addr.ip with
    | some (nId,info) =>
      let now := c.adjustedTime 0
      let s := s.setInfo nId (refresh addr nTimePenalty now)
      if addsReference addr c.rand (refresh addr nTimePenalty now info) then
        (addReference H nId info.ip source c s).map fun s => (false,s)
      else some (false,s)
    | none =>
      let (s,nId) := create s addr source
      let s := s.setInfo nId fun x => { x with
        nTime := BitVec.ofInt 32 (max 0 ((x.nTime.toNat : ℤ)-nTimePenalty)) }
      (addReference H nId addr.ip source c { s with nNew := s.nNew+1 }).map fun s => (true,s)

/-- `Add` on several addresses. -/
def addAll (source : CNetAddr) (nTimePenalty : ℤ) : List (CAddress × Chance) → CAddrMan → Option CAddrMan
  | [], s => some s
  | (addr,c)::vAddr, s =>
    (add_ H addr source nTimePenalty c s).bind fun r => addAll source nTimePenalty vAddr r.2

def attempt_ (addr : CService) (nTime : BitVec 64) (s : CAddrMan) : CAddrMan :=
  match find s addr.ip with
  | none => s
  | some (nId,info) =>
    if info.toCService ≠ addr then s
    else s.setInfo nId fun x => { x with nLastTry := nTime, nAttempts := x.nAttempts+1 }

def connected_ (addr : CService) (nTime : BitVec 64) (s : CAddrMan) : CAddrMan :=
  match find s addr.ip with
  | none => s
  | some (nId,info) =>
    if info.toCService ≠ addr then s
    else if 20*60 < nTime.toInt-info.nTime.toNat then
      s.setInfo nId fun x => { x with nTime := nTime.setWidth 32 }
    else s

/-- The loop of `GetAddr_` from an index on. -/
def gather (c : Chance) (nNodes : ℕ) : ℕ → ℕ → List CAddress → CAddrMan →
    Option (List CAddress × CAddrMan)
  | 0, _, vAddr, s => some (vAddr,s)
  | k+1, n, vAddr, s =>
    if nNodes ≤ vAddr.length then some (vAddr,s)
    else
      (swapRandom n (getRandInt c.rand n (s.vRandom.length-n)+n) s).bind fun s =>
        match s.vRandom[n]? with
        | none => none
        | some nId =>
          match s.mapInfo.lookup nId with
          | none => none
          | some ai =>
            gather c nNodes k (n+1)
              (if ai.isTerrible (c.adjustedTime n) then vAddr else vAddr++[ai.toCAddress]) s

def getAddr_ (c : Chance) (s : CAddrMan) : Option (List CAddress × CAddrMan) :=
  gather c (min (getAddrMaxPct*s.vRandom.length/100) getAddrMax) s.vRandom.length 0 [] s

/-- One turn of the loops of `Select_`: the draws of the bucket and of the entry, and whether
the chance of the entry was enough. -/
structure Turn where
  bucket : ℕ
  pos : ℕ
  fEnough : Bool

def look (m : Dict ℕ CAddrInfo) (bucket : ℕ → List ℕ) : List Turn → Option (Option CAddress)
  | [] => some none
  | t::ts =>
    let ids := bucket t.bucket
    if ids.isEmpty then look m bucket ts
    else
      match (ids[t.pos%ids.length]?).bind m.lookup with
      | none => none
      | some info => if t.fEnough then some (some info.toCAddress) else look m bucket ts

/-- `Select_`; `fTried` is the outcome of the draw between tried and new entries. -/
def select_ (fTried : Bool) (ts : List Turn) (s : CAddrMan) : Option (Option CAddress) :=
  if s.vRandom.isEmpty then some none
  else if fTried then
    look s.mapInfo (fun r => s.vvTried ⟨r%triedBucketCount,Nat.mod_lt _ (by decide)⟩) ts
  else look s.mapInfo (fun r => (s.vvNew ⟨r%newBucketCount,Nat.mod_lt _ (by decide)⟩).sort) ts

inductive Call where
  | add (vAddr : List (CAddress × Chance)) (source : CNetAddr) (nTimePenalty : ℤ)
  | good (addr : CService) (nTime : BitVec 64) (rand : ℕ → ℕ)
  | attempt (addr : CService) (nTime : BitVec 64)
  | connected (addr : CService) (nTime : BitVec 64)
  | getAddr (c : Chance)
  | select (fTried : Bool) (ts : List Turn)

def step : Call → CAddrMan → Option CAddrMan
  | .add vAddr source nTimePenalty, s => addAll H source nTimePenalty vAddr s
  | .good addr nTime rand, s => good_ H addr nTime rand s
  | .attempt addr nTime, s => some (attempt_ addr nTime s)
  | .connected addr nTime, s => some (connected_ addr nTime s)
  | .getAddr c, s => (getAddr_ c s).map Prod.snd
  | .select fTried ts, s => (select_ fTried ts s).map fun _ => s

def run : List Call → CAddrMan → Option CAddrMan
  | [], s => some s
  | call::calls, s => (step H call s).bind (run calls)

end Calls

end SwippCore.AddrMan

namespace SwippCore.AddrMan
open Buckets

structure Core where
  addr : CService
  fInTried : Bool
  nRefCount : ℤ

theorem one_reference : (1 : ℤ) ≤ 1 ∧ (1 : ℤ) ≤ newBucketsPerAddress := by decide

structure Bucketed (H : AddrHash) (nKey : List UInt8) (pending : Option ℕ) (e : ℕ → Option Core)
    (vvTried : Fin triedBucketCount → List ℕ) (vvNew : Fin newBucketCount → Finset ℕ)
    (nTried nNew size : ℤ) : Prop where
  tried : ∀ b n, n ∈ vvTried b ↔
    ∃ x, e n = some x ∧ x.fInTried = true ∧ b = getTriedBucket H nKey x.addr
  triedNodup : ∀ b, (vvTried b).Nodup
  triedSize : ∀ b, (vvTried b).length ≤ triedBucketSize
  refs : ∀ n x, e n = some x →
    x.nRefCount = refs vvNew n+if pending = some n then 1 else 0
  kind : ∀ n x, e n = some x → (x.fInTried = true ∧ x.nRefCount = 0) ∨
    (x.fInTried = false ∧ 1 ≤ x.nRefCount ∧ x.nRefCount ≤ newBucketsPerAddress)
  members : ∀ b n, n ∈ vvNew b → (e n).isSome = true
  newSize : ∀ b, (vvNew b).card ≤ newBucketSize
  triedCount : nTried = ((∑ b, (vvTried b).length : ℕ) : ℤ)
  allCount : nTried+nNew = size

namespace Bucketed
variable (H : AddrHash) (nKey : List UInt8) (pending : Option ℕ) (e : ℕ → Option Core)
  (vvTried : Fin triedBucketCount → List ℕ) (vvNew : Fin newBucketCount → Finset ℕ)
  (nTried nNew size : ℤ)

section
variable (h : Bucketed H nKey pending e vvTried vvNew nTried nNew size)
include h

theorem not_new {n : ℕ}
    (hn : e n = none) (b : Fin newBucketCount) : n ∉ vvNew b := by
  intro hmem
  have hsome := h.members b n hmem
  rw [hn] at hsome
  cases hsome

theorem not_tried {n : ℕ}
    (hn : ∀ x, e n = some x → x.fInTried = false) (b : Fin triedBucketCount) : n ∉ vvTried b := by
  intro hmem
  obtain ⟨x,hx,ht,_⟩ := (h.tried b n).mp hmem
  rw [hn x hx] at ht
  cases ht

theorem tried_update {n : ℕ}
    {y : Option Core} (hn : ∀ x, e n = some x → x.fInTried = false)
    (hy : ∀ x, y = some x → x.fInTried = false) (b : Fin triedBucketCount) (k : ℕ) :
    k ∈ vvTried b ↔ ∃ x, Function.update e n y k = some x ∧ x.fInTried = true ∧
      b = getTriedBucket H nKey x.addr := by
  rw [Function.update_apply]
  split
  · rename_i hk
    rw [hk]
    constructor
    · exact fun hmem => absurd hmem (not_tried H nKey pending e vvTried vvNew nTried nNew size h hn b)
    · rintro ⟨x,hx,ht,_⟩
      rw [hy x hx] at ht
      cases ht
  · exact h.tried b k

theorem kind_update (n : ℕ) {y : Core}
    (hy : (y.fInTried = true ∧ y.nRefCount = 0) ∨
      (y.fInTried = false ∧ 1 ≤ y.nRefCount ∧ y.nRefCount ≤ newBucketsPerAddress)) (k : ℕ) (x : Core)
    (hx : Function.update e n (some y) k = some x) : (x.fInTried = true ∧ x.nRefCount = 0) ∨
      (x.fInTried = false ∧ 1 ≤ x.nRefCount ∧ x.nRefCount ≤ newBucketsPerAddress) := by
  rw [Function.update_apply] at hx
  split at hx
  · cases hx
    exact hy
  · exact h.kind k x hx

theorem members_update (n : ℕ)
    (y : Core) (b : Fin newBucketCount) (k : ℕ) (hk : k ∈ vvNew b) :
    (Function.update e n (some y) k).isSome = true := by
  rw [Function.update_apply]
  split
  · rfl
  · exact h.members b k hk

end

theorem add (h : Bucketed H nKey none e vvTried vvNew nTried nNew size) (n : ℕ) (hn : e n = none)
    (a : CService) : Bucketed H nKey (some n) (Function.update e n (some ⟨a,false,1⟩)) vvTried vvNew
      nTried (nNew+1) (size+1) where
  tried := tried_update H nKey none e vvTried vvNew nTried nNew size h
    (fun x hx => by rw [hn] at hx; cases hx) (fun x hx => by cases hx; rfl)
  triedNodup := h.triedNodup
  triedSize := h.triedSize
  refs k x hx := by
    rw [Function.update_apply] at hx
    split at hx
    · rename_i hk
      cases hx
      have hzero : AddrMan.refs vvNew k = 0 := (holders_eq_zero vvNew k).mpr fun b => by
        rw [hk]
        exact not_new H nKey none e vvTried vvNew nTried nNew size h hn b
      rw [hzero, hk, if_pos rfl]
      rfl
    · rename_i hk
      rw [if_neg fun heq => hk (Option.some.inj heq).symm]
      exact h.refs k x hx
  kind := kind_update H nKey none e vvTried vvNew nTried nNew size h n (Or.inr ⟨rfl,one_reference⟩)
  members := members_update H nKey none e vvTried vvNew nTried nNew size h n _
  newSize := h.newSize
  triedCount := h.triedCount
  allCount := by
    have hall := h.allCount
    omega

theorem expect (h : Bucketed H nKey none e vvTried vvNew nTried nNew size) {n : ℕ} {x : Core}
    (hn : e n = some x) (hnew : x.fInTried = false) (hfew : x.nRefCount < newBucketsPerAddress) :
    Bucketed H nKey (some n) (Function.update e n (some ⟨x.addr,false,x.nRefCount+1⟩)) vvTried vvNew
      nTried nNew size where
  tried := tried_update H nKey none e vvTried vvNew nTried nNew size h
    (fun y hy => by rw [hn] at hy; cases hy; exact hnew) (fun y hy => by cases hy; rfl)
  triedNodup := h.triedNodup
  triedSize := h.triedSize
  refs k y hy := by
    rw [Function.update_apply] at hy
    split at hy
    · rename_i hk
      cases hy
      have hrefs := h.refs n x hn
      rw [if_neg (by simp)] at hrefs
      rw [hk, if_pos rfl]
      dsimp only
      omega
    · rename_i hk
      rw [if_neg fun heq => hk (Option.some.inj heq).symm]
      exact h.refs k y hy
  kind := kind_update H nKey none e vvTried vvNew nTried nNew size h n (by
    rcases h.kind n x hn with ⟨ht,_⟩ | ⟨_,hlow,_⟩
    · rw [hnew] at ht
      cases ht
    · exact Or.inr ⟨rfl,by dsimp only; omega,by dsimp only; omega⟩)
  members := members_update H nKey none e vvTried vvNew nTried nNew size h n _
  newSize := h.newSize
  triedCount := h.triedCount
  allCount := h.allCount

theorem put (n : ℕ) (h : Bucketed H nKey (some n) e vvTried vvNew nTried nNew size)
    (hn : (e n).isSome = true) (b : Fin newBucketCount) (hb : n ∉ vvNew b)
    (hroom : (vvNew b).card < newBucketSize) :
    Bucketed H nKey none e vvTried (Function.update vvNew b (insert n (vvNew b))) nTried nNew size where
  tried := h.tried
  triedNodup := h.triedNodup
  triedSize := h.triedSize
  refs k x hx := by
    have hrefs := h.refs k x hx
    rw [if_neg (by simp)]
    by_cases hk : k = n
    · rw [hk, if_pos rfl] at hrefs
      have hput : AddrMan.refs (Function.update vvNew b (insert n (vvNew b))) n = AddrMan.refs vvNew n+1 :=
        holders_insert vvNew hb
      rw [hk, hput]
      omega
    · rw [if_neg fun heq => hk (Option.some.inj heq).symm] at hrefs
      have hput : AddrMan.refs (Function.update vvNew b (insert n (vvNew b))) k = AddrMan.refs vvNew k :=
        holders_insert_ne vvNew b hk
      rw [hput]
      exact hrefs
  kind := h.kind
  members c k hk := by
    rw [Function.update_apply] at hk
    split at hk
    · rcases Finset.mem_insert.mp hk with rfl | hk
      · exact hn
      · exact h.members b k hk
    · exact h.members c k hk
  newSize c := by
    rw [Function.update_apply]
    split
    · rw [Finset.card_insert_of_notMem hb]
      omega
    · exact h.newSize c
  triedCount := h.triedCount
  allCount := h.allCount

section
variable (h : Bucketed H nKey pending e vvTried vvNew nTried nNew size)
include h

theorem forget {n : ℕ} {x : Core}
    (hn : e n = some x) (hp : pending ≠ some n) {b : Fin newBucketCount} (hb : n ∈ vvNew b)
    (hmore : x.nRefCount-1 ≠ 0) :
    Bucketed H nKey pending (Function.update e n (some ⟨x.addr,x.fInTried,x.nRefCount-1⟩)) vvTried
      (Function.update vvNew b ((vvNew b).erase n)) nTried nNew size := by
  have hrefs := h.refs n x hn
  rw [if_neg hp] at hrefs
  have hpos : 0 < AddrMan.refs vvNew n := holders_pos vvNew hb
  have hnew : x.fInTried = false := by
    rcases h.kind n x hn with ⟨_,hzero⟩ | ⟨hnew,_⟩
    · omega
    · exact hnew
  exact {
    tried := tried_update H nKey pending e vvTried vvNew nTried nNew size h
      (fun y hy => by rw [hn] at hy; cases hy; exact hnew) (fun y hy => by cases hy; exact hnew)
    triedNodup := h.triedNodup
    triedSize := h.triedSize
    refs := by
      intro k y hy
      rw [Function.update_apply] at hy
      split at hy
      · rename_i hk
        cases hy
        have herase : AddrMan.refs (Function.update vvNew b ((vvNew b).erase n)) n+1 = AddrMan.refs vvNew n :=
          holders_erase vvNew hb
        rw [hk, if_neg hp]
        dsimp only
        omega
      · rename_i hk
        have herase : AddrMan.refs (Function.update vvNew b ((vvNew b).erase n)) k = AddrMan.refs vvNew k :=
          holders_erase_ne vvNew b hk
        rw [herase]
        exact h.refs k y hy
    kind := kind_update H nKey pending e vvTried vvNew nTried nNew size h n (by
      rcases h.kind n x hn with ⟨ht,_⟩ | ⟨_,hlow,hhigh⟩
      · rw [hnew] at ht
        cases ht
      · exact Or.inr ⟨hnew,by dsimp only; omega,by dsimp only; omega⟩)
    members := by
      intro c k hk
      apply members_update H nKey pending e vvTried vvNew nTried nNew size h n _ c k
      rw [Function.update_apply] at hk
      split at hk
      · rename_i hc
        rw [hc]
        exact (Finset.mem_erase.mp hk).2
      · exact hk
    newSize := by
      intro c
      rw [Function.update_apply]
      split
      · exact le_trans Finset.card_erase_le (h.newSize b)
      · exact h.newSize c
    triedCount := h.triedCount
    allCount := h.allCount }

theorem remove (n : ℕ) (x : Core)
    (hn : e n = some x) (hnew : x.fInTried = false) :
    Bucketed H nKey pending (Function.update e n none) vvTried (fun b => (vvNew b).erase n) nTried
      (nNew-1) (size-1) where
  tried := tried_update H nKey pending e vvTried vvNew nTried nNew size h
    (fun y hy => by rw [hn] at hy; cases hy; exact hnew) (fun y hy => by cases hy)
  triedNodup := h.triedNodup
  triedSize := h.triedSize
  refs k y hy := by
    rw [Function.update_apply] at hy
    split at hy
    · cases hy
    · rename_i hk
      have herase : AddrMan.refs (fun b => (vvNew b).erase n) k = AddrMan.refs vvNew k :=
        holders_erase_all_ne vvNew hk
      rw [herase]
      exact h.refs k y hy
  kind k y hy := by
    rw [Function.update_apply] at hy
    split at hy
    · cases hy
    · exact h.kind k y hy
  members b k hk := by
    obtain ⟨hne,hk⟩ := Finset.mem_erase.mp hk
    rw [Function.update_of_ne hne]
    exact h.members b k hk
  newSize b := le_trans Finset.card_erase_le (h.newSize b)
  triedCount := h.triedCount
  allCount := by
    have hall := h.allCount
    omega

theorem erase_last {n : ℕ} {x : Core}
    (hn : e n = some x) (hp : pending ≠ some n) {b : Fin newBucketCount} (hb : n ∈ vvNew b)
    (hlast : x.nRefCount-1 = 0) :
    (fun c => (vvNew c).erase n) = Function.update vvNew b ((vvNew b).erase n) := by
  have hrefs := h.refs n x hn
  rw [if_neg hp] at hrefs
  have herase : AddrMan.refs (Function.update vvNew b ((vvNew b).erase n)) n+1 = AddrMan.refs vvNew n :=
    holders_erase vvNew hb
  have hzero := (holders_eq_zero (Function.update vvNew b ((vvNew b).erase n)) n).mp
    (show AddrMan.refs _ n = 0 by omega)
  funext c
  rw [Function.update_apply]
  split
  · rename_i hc
    rw [hc]
  · rename_i hc
    have hnot := hzero c
    rw [Function.update_of_ne hc] at hnot
    exact Finset.erase_eq_of_notMem hnot

end

section
variable (h : Bucketed H nKey none e vvTried vvNew nTried nNew size) {n : ℕ} {x : Core}
  (hn : e n = some x) (ht : x.fInTried = true)
include h x hn ht

theorem not_referred : AddrMan.refs vvNew n = 0 := by
  have hrefs := h.refs n x hn
  rw [if_neg (by simp)] at hrefs
  rcases h.kind n x hn with ⟨_,hz⟩ | ⟨hf,_⟩
  · omega
  · rw [ht] at hf
    cases hf

/-- A tried entry leaves its bucket; the new bucket that it is counted for comes next. -/
theorem leave (l : List ℕ)
    (hl : (vvTried (getTriedBucket H nKey x.addr)).Perm (n::l)) :
    Bucketed H nKey (some n) (Function.update e n (some ⟨x.addr,false,1⟩))
      (Function.update vvTried (getTriedBucket H nKey x.addr) l) vvNew (nTried-1) (nNew+1) size := by
  have hnodup := List.nodup_cons.mp (hl.nodup_iff.mp (h.triedNodup _))
  have hlen := hl.length_eq
  rw [List.length_cons] at hlen
  exact {
    tried := by
      intro c k
      rw [Function.update_apply, Function.update_apply]
      by_cases hk : k = n
      · rw [if_pos hk]
        constructor
        · intro hmem
          split at hmem
          · exact absurd (hk ▸ hmem) hnodup.1
          · rename_i hc
            obtain ⟨y,hy,_,hcy⟩ := (h.tried c k).mp hmem
            rw [hk, hn] at hy
            cases hy
            exact absurd hcy hc
        · rintro ⟨y,hy,hty,_⟩
          cases hy
          cases hty
      · rw [if_neg hk, ← h.tried c k]
        split
        · rename_i hc
          rw [hc, hl.mem_iff, List.mem_cons]
          exact ⟨Or.inr,fun hmem => hmem.resolve_left hk⟩
        · exact Iff.rfl
    triedNodup := by
      intro c
      rw [Function.update_apply]
      split
      · exact hnodup.2
      · exact h.triedNodup c
    triedSize := by
      intro c
      rw [Function.update_apply]
      split
      · have hsize := h.triedSize (getTriedBucket H nKey x.addr)
        omega
      · exact h.triedSize c
    refs := by
      intro k y hy
      rw [Function.update_apply] at hy
      split at hy
      · rename_i hk
        cases hy
        rw [hk, not_referred H nKey e vvTried vvNew nTried nNew size h hn ht, if_pos rfl]
        rfl
      · rename_i hk
        rw [if_neg fun heq => hk (Option.some.inj heq).symm]
        exact h.refs k y hy
    kind := kind_update H nKey none e vvTried vvNew nTried nNew size h n
      (Or.inr ⟨rfl,one_reference⟩)
    members := members_update H nKey none e vvTried vvNew nTried nNew size h n _
    newSize := h.newSize
    triedCount := by
      have hcount := h.triedCount
      have hsum := length_update vvTried (getTriedBucket H nKey x.addr) l
      omega
    allCount := by
      have hall := h.allCount
      omega }

theorem demote (l : List ℕ)
    (hl : (vvTried (getTriedBucket H nKey x.addr)).Perm (n::l)) {b : Fin newBucketCount}
    (hroom : (vvNew b).card < newBucketSize) :
    Bucketed H nKey none (Function.update e n (some ⟨x.addr,false,1⟩))
      (Function.update vvTried (getTriedBucket H nKey x.addr) l)
      (Function.update vvNew b (insert n (vvNew b))) (nTried-1) (nNew+1) size := by
  have hnone := (holders_eq_zero vvNew n).mp
    (not_referred H nKey e vvTried vvNew nTried nNew size h hn ht)
  apply put H nKey _ _ _ _ _ _ n (leave H nKey e vvTried vvNew nTried nNew size h hn ht l hl) _ b
    (hnone b) hroom
  rw [Function.update_self]
  rfl

end

theorem promote (h : Bucketed H nKey none e vvTried vvNew nTried nNew size) {n : ℕ}
    (hn : e n = none) (a : CService) (l : List ℕ)
    (hl : l.Perm (n::vvTried (getTriedBucket H nKey a))) (hroom : l.length ≤ triedBucketSize) :
    Bucketed H nKey none (Function.update e n (some ⟨a,true,0⟩))
      (Function.update vvTried (getTriedBucket H nKey a) l) vvNew (nTried+1) nNew (size+1) where
  tried c k := by
    rw [Function.update_apply, Function.update_apply]
    by_cases hk : k = n
    · rw [if_pos hk]
      constructor
      · intro hmem
        split at hmem
        · rename_i hc
          exact ⟨_,rfl,rfl,hc⟩
        · obtain ⟨y,hy,_⟩ := (h.tried c k).mp hmem
          rw [hk, hn] at hy
          cases hy
      · rintro ⟨y,hy,_,hc⟩
        cases hy
        rw [if_pos hc, hl.mem_iff, hk]
        exact List.mem_cons_self
    · rw [if_neg hk, ← h.tried c k]
      split
      · rename_i hc
        rw [hc, hl.mem_iff, List.mem_cons]
        exact ⟨fun hmem => hmem.resolve_left hk,Or.inr⟩
      · exact Iff.rfl
  triedNodup c := by
    rw [Function.update_apply]
    split
    · rw [hl.nodup_iff, List.nodup_cons]
      refine ⟨?_,h.triedNodup _⟩
      exact not_tried H nKey none e vvTried vvNew nTried nNew size h
        (fun x hx => by rw [hn] at hx; cases hx) _
    · exact h.triedNodup c
  triedSize c := by
    rw [Function.update_apply]
    split
    · exact hroom
    · exact h.triedSize c
  refs k y hy := by
    rw [Function.update_apply] at hy
    split at hy
    · rename_i hk
      cases hy
      have hzero : AddrMan.refs vvNew k = 0 := (holders_eq_zero vvNew k).mpr fun b => by
        rw [hk]
        exact not_new H nKey none e vvTried vvNew nTried nNew size h hn b
      rw [hzero]
      rfl
    · exact h.refs k y hy
  kind := kind_update H nKey none e vvTried vvNew nTried nNew size h n (Or.inl ⟨rfl,rfl⟩)
  members := members_update H nKey none e vvTried vvNew nTried nNew size h n _
  newSize := h.newSize
  triedCount := by
    have hcount := h.triedCount
    have hsum := length_update vvTried (getTriedBucket H nKey a) l
    have hlen := hl.length_eq
    rw [List.length_cons] at hlen
    omega
  allCount := by
    have hall := h.allCount
    omega

end Bucketed

end SwippCore.AddrMan
