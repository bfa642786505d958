import SwippCore.Lib.FinMap
import SwippCore.Lib.Sorted

/-!
# The key pool

Unused keys wait in the database under ascending indices. A reservation takes the
lowest index out of the set in memory, and keeps or returns it later. New keys are
written behind the largest index that is in the set at that time.
-/

set_option autoImplicit false

namespace SwippCore.KeyPool
open FinMap

inductive Outcome where
  | written
  | refused
  | thrown
  deriving DecidableEq

structure Io where
  fWritten : ℤ → Outcome
  fErased : ℤ → Bool
  fRead : Bool
  fGenerated : Bool

structure CReserveKey where
  nIndex : ℤ
  vchPubKey : Option ℕ
  deriving DecidableEq

/-- Keys are known by the order in which they were generated. `kept` has those that were kept,
`again` those that were handed out after that. -/
structure PoolWallet where
  fLocked : Bool
  setKeyPool : SortedSet ℤ
  pool : Dict ℤ ℕ
  nGenerated : ℕ
  reserved : Dict ℕ CReserveKey
  kept : List ℕ
  again : List ℕ

def PoolWallet.start : PoolWallet := ⟨false,.empty,∅,0,∅,[],[]⟩

/-- The setting `-keypool`, and the default key of the wallet. -/
structure Setup where
  keypool : ℤ
  vchDefaultKey : Option ℕ

section Pool
variable (S : Setup)

def PoolWallet.reservation (s : PoolWallet) (r : ℕ) : CReserveKey :=
  (s.reserved.lookup r).getD ⟨-1,none⟩

def PoolWallet.reserve (s : PoolWallet) (r : ℕ) (x : CReserveKey) : PoolWallet :=
  { s with reserved := s.reserved.insert r x }

def handOut (key : Option ℕ) (s : PoolWallet) : PoolWallet :=
  { s with again := key.toList.filter (· ∈ s.kept)++s.again }

def nEnd (s : PoolWallet) : ℤ :=
  match s.setKeyPool.last with
  | none => 1
  | some n => n+1

def writeKey (nIndex : ℤ) (s : PoolWallet) : PoolWallet :=
  { s with
    nGenerated := s.nGenerated+1
    pool := s.pool.insert nIndex s.nGenerated
    setKeyPool := s.setKeyPool.insert nIndex }

def nKeys : ℕ := (max S.keypool 0).toNat

/-- `nTargetSize`, an `unsigned int`. -/
def nTargetSize (nSize : UInt32) : UInt32 := if 0 < nSize then nSize else UInt32.ofNat (nKeys S)

/-- How often the loop of `TopUpKeyPool` runs. -/
def missing (nSize : UInt32) (s : PoolWallet) : ℕ :=
  (nTargetSize S nSize+1).toNat-s.setKeyPool.items.length

/-- The loop of `TopUpKeyPool`; false where it throws. -/
def topUpLoop (io : Io) : ℕ → PoolWallet → Bool × PoolWallet
  | 0, s => (true,s)
  | n+1, s =>
    if io.fWritten (nEnd s) = .written then topUpLoop io n (writeKey (nEnd s) s)
    else (false,{ s with nGenerated := s.nGenerated+1 })

def topUpKeyPool (nSize : UInt32) (io : Io) (s : PoolWallet) : Bool × PoolWallet :=
  if s.fLocked then (true,s) else topUpLoop io (missing S nSize s) s

/-- The loop of `NewKeyPool`, which does not look at the result of the write. -/
def newKeyPoolLoop (io : Io) : List ℕ → PoolWallet → PoolWallet
  | [], s => s
  | i::is, s =>
    match io.fWritten (i+1) with
    | .written => newKeyPoolLoop io is (writeKey (i+1) s)
    | .refused => newKeyPoolLoop io is { s with
        nGenerated := s.nGenerated+1
        setKeyPool := s.setKeyPool.insert (i+1) }
    | .thrown => { s with nGenerated := s.nGenerated+1 }

def clearPool (io : Io) (s : PoolWallet) : PoolWallet :=
  { s with
    pool := eraseAll s.pool (s.setKeyPool.items.filter io.fErased)
    setKeyPool := .empty }

def newKeyPool (io : Io) (s : PoolWallet) : PoolWallet :=
  if s.fLocked then clearPool io s
  else newKeyPoolLoop io (List.range (nKeys S)) (clearPool io s)

/-- What `ReserveKeyFromKeyPool` gives; the index is set also where it throws. -/
structure Reserved where
  fThrown : Bool
  nIndex : ℤ
  vchPubKey : Option ℕ
  wallet : PoolWallet

def reserveKeyFromKeyPool (io : Io) (s : PoolWallet) : Reserved :=
  let r := topUpKeyPool S 0 io s
  if !r.1 then ⟨true,-1,none,r.2⟩
  else
    match r.2.setKeyPool.first with
    | none => ⟨false,-1,none,r.2⟩
    | some nIndex =>
      let s := { r.2 with setKeyPool := r.2.setKeyPool.rest }
      match s.pool.lookup nIndex with
      | none => ⟨true,nIndex,none,s⟩
      | some key =>
        if io.fRead && key < s.nGenerated then ⟨false,nIndex,some key,s⟩
        else ⟨true,nIndex,none,s⟩

/-- `KeepKey` of the wallet. -/
def erasePool (nIndex : ℤ) (io : Io) (s : PoolWallet) : PoolWallet :=
  if io.fErased nIndex then { s with pool := s.pool.erase nIndex } else s

def keep (key : Option ℕ) (s : PoolWallet) : PoolWallet := { s with kept := key.toList++s.kept }

def getKeyFromPool (io : Io) (s : PoolWallet) : PoolWallet :=
  let x := reserveKeyFromKeyPool S io s
  if x.fThrown then x.wallet
  else if x.nIndex = -1 then
    if x.wallet.fLocked || !io.fGenerated then x.wallet
    else
      let key := x.wallet.nGenerated
      keep (some key) (handOut (some key) { x.wallet with nGenerated := key+1 })
  else keep x.vchPubKey (handOut x.vchPubKey (erasePool x.nIndex io x.wallet))

/-- `GetReservedKey` of a reservation; none where its assertion fails. -/
def getReservedKey (r : ℕ) (io : Io) (s : PoolWallet) : Option PoolWallet :=
  let k := s.reservation r
  if k.nIndex ≠ -1 then k.vchPubKey.map fun key => handOut (some key) s
  else
    let x := reserveKeyFromKeyPool S io s
    if x.fThrown then some (x.wallet.reserve r ⟨x.nIndex,k.vchPubKey⟩)
    else if x.nIndex ≠ -1 then
      x.vchPubKey.map fun key => handOut (some key) (x.wallet.reserve r ⟨x.nIndex,some key⟩)
    else
      match S.vchDefaultKey with
      | none => some x.wallet
      | some key => some (handOut (some key) (x.wallet.reserve r ⟨-1,some key⟩))

/-- `KeepKey` of a reservation. -/
def keepKey (r : ℕ) (io : Io) (s : PoolWallet) : PoolWallet :=
  let k := s.reservation r
  let s := if k.nIndex ≠ -1 then erasePool k.nIndex io s else s
  (keep k.vchPubKey s).reserve r ⟨-1,none⟩

/-- `ReturnKey` of a reservation, also its destructor. -/
def returnKey (r : ℕ) (s : PoolWallet) : PoolWallet :=
  let k := s.reservation r
  let s := if k.nIndex ≠ -1 then { s with setKeyPool := s.setKeyPool.insert k.nIndex } else s
  s.reserve r ⟨-1,none⟩

inductive Event where
  | getReservedKey (r : ℕ) (io : Io)
  | keepKey (r : ℕ) (io : Io)
  | returnKey (r : ℕ)
  | getKeyFromPool (io : Io)
  | topUpKeyPool (nSize : UInt32) (io : Io)
  | newKeyPool (io : Io)
  | lock
  | unlock

def stepPool (e : Event) (s : PoolWallet) : Option PoolWallet :=
  match e with
  | .getReservedKey r io => getReservedKey S r io s
  | .keepKey r io => some (keepKey r io s)
  | .returnKey r => some (returnKey r s)
  | .getKeyFromPool io => some (getKeyFromPool S io s)
  | .topUpKeyPool nSize io => some (topUpKeyPool S nSize io s).2
  | .newKeyPool io => some (newKeyPool S io s)
  | .lock => some { s with fLocked := true }
  | .unlock => some { s with fLocked := false }

def step (e : Event) (s : Option PoolWallet) : Option PoolWallet := s.bind (stepPool S e)

/-- Every index has its record, live reservations have different keys, and no key was handed
out after it was kept. -/
structure Sound (s : PoolWallet) : Prop where
  record : ∀ i ∈ s.setKeyPool, (s.pool.lookup i).isSome
  single : ∀ r r' key, (s.reservation r).vchPubKey = some key →
    (s.reservation r').vchPubKey = some key → r = r'
  fresh : s.again = []

end Pool

section Condition
variable (S : Setup)

def free (s : PoolWallet) (i : ℤ) : Bool := s.reserved.entries.all fun x => x.2.nIndex != i

/-- The indices under which `TopUpKeyPool` writes are free. -/
def toppedFree (nSize : UInt32) (s : PoolWallet) : Bool :=
  s.fLocked || (List.range (missing S nSize s)).all fun j => free s (nEnd s+j)

/-- The indices from 1 on under which `NewKeyPool` writes are free, and its writes succeed. -/
def renewedFree (io : Io) (s : PoolWallet) : Bool :=
  s.fLocked || (List.range (nKeys S)).all fun i =>
    free s (i+1) && decide (io.fWritten (i+1) ≠ .refused)

def drained (s : PoolWallet) : Bool :=
  s.setKeyPool.first.isNone && (s.fLocked || missing S 0 s == 0)

def stepOk (s : PoolWallet) : Event → Bool
  | .getReservedKey r _ => (s.reservation r).nIndex != -1 ||
      (toppedFree S 0 s && (S.vchDefaultKey.isNone || !drained S s))
  | .getKeyFromPool _ => toppedFree S 0 s
  | .topUpKeyPool nSize _ => toppedFree S nSize s
  | .newKeyPool io => renewedFree S io s
  | .keepKey _ _ => true
  | .returnKey _ => true
  | .lock => true
  | .unlock => true

end Condition

end SwippCore.KeyPool
