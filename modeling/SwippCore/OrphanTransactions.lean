import SwippCore.Primitives
import SwippCore.Lib.ReverseIndex

/-!
# Orphan transactions

Transactions whose inputs are missing wait in a map by hash, and a second map holds
the waiting hashes under every hash that an input names. The second map is at all times
the reverse of the first, however often a transaction names one parent, and the pool
shrinks to any limit by orphans that are drawn.
-/

set_option autoImplicit false

namespace SwippCore.OrphanTransactions
open ReverseIndex

/-- Hashes are compared as numbers. -/
scoped instance hashOrder : LinearOrder Uint256 :=
  LinearOrder.lift' BitVec.toNat fun _ _ h => BitVec.eq_of_toNat_eq h

structure OrphanPool where
  mapOrphanTransactions : SortedMap Uint256 CTransaction
  mapOrphanTransactionsByPrev : SortedMap Uint256 (SortedSet Uint256)

def parents (tx : CTransaction) : List Uint256 := tx.vin.map (fun txin => txin.prevout.hash)

variable (env : Env)

def addOrphanTx (tx : CTransaction) (pool : OrphanPool) : OrphanPool × Bool :=
  let hash := env.hashTx tx
  if pool.mapOrphanTransactions.contains hash then (pool,false)
  else if 5000 < env.txSize tx then (pool,false)
  else (⟨pool.mapOrphanTransactions.insert hash tx,
    put hash (parents tx) pool.mapOrphanTransactionsByPrev⟩,true)

def eraseOrphanTx (hash : Uint256) (pool : OrphanPool) : OrphanPool :=
  match pool.mapOrphanTransactions.find hash with
  | none => pool
  | some tx => ⟨pool.mapOrphanTransactions.erase hash,
      drop hash (parents tx) pool.mapOrphanTransactionsByPrev⟩

/-- `lower_bound` of a drawn hash, or the first orphan; none where there is no orphan. -/
def evicted (randomhash : Uint256) (pool : OrphanPool) : Option Uint256 :=
  ((pool.mapOrphanTransactions.entries.find? (fun e => randomhash ≤ e.1)).or
    pool.mapOrphanTransactions.entries.head?).map Prod.fst

def OrphanPool.size (pool : OrphanPool) : ℕ := pool.mapOrphanTransactions.entries.length

/-- `LimitOrphanTxSize` within a number of steps, with the hashes that are drawn and the
number of orphans evicted so far; none where the steps do not suffice. -/
def limitOrphanTxSize (nMaxOrphans : ℕ) : ℕ → (ℕ → Uint256) → ℕ → OrphanPool →
    Option (OrphanPool × ℕ)
  | 0, _, _, _ => none
  | steps+1, randomhash, nEvicted, pool =>
    if nMaxOrphans < pool.size then
      match evicted (randomhash nEvicted) pool with
      | none => none
      | some hash =>
        limitOrphanTxSize nMaxOrphans steps randomhash (nEvicted+1) (eraseOrphanTx hash pool)
    else some (pool,nEvicted)

inductive Call where
  | add (tx : CTransaction)
  | erase (hash : Uint256)
  /-- a limit, within the steps that the size of the pool leaves -/
  | limit (nMaxOrphans : ℕ) (randomhash : ℕ → Uint256)

def call (pool : OrphanPool) : Call → Option OrphanPool
  | .add tx => some (addOrphanTx env tx pool).1
  | .erase hash => some (eraseOrphanTx hash pool)
  | .limit nMaxOrphans randomhash =>
    (limitOrphanTxSize nMaxOrphans (pool.size+1) randomhash 0 pool).map Prod.fst

def start : OrphanPool := ⟨SortedMap.empty,SortedMap.empty⟩

structure Consistent (pool : OrphanPool) : Prop where
  stored : ∀ h tx, pool.mapOrphanTransactions.find h = some tx → env.hashTx tx = h
  linked : ∀ p h, Has pool.mapOrphanTransactionsByPrev p h ↔
    ∃ tx, pool.mapOrphanTransactions.find h = some tx ∧ ∃ txin ∈ tx.vin, txin.prevout.hash = p
  tight : Tight pool.mapOrphanTransactionsByPrev

theorem mem_parents (tx : CTransaction) (p : Uint256) :
    p ∈ parents tx ↔ ∃ txin ∈ tx.vin, txin.prevout.hash = p := List.mem_map

section Steps
variable (pool : OrphanPool) (hp : Consistent env pool)

include hp

theorem add_consistent (tx : CTransaction) : Consistent env (addOrphanTx env tx pool).1 := by
  unfold addOrphanTx
  dsimp only
  split_ifs with hc hsize
  · exact hp
  · exact hp
  · have hnew : pool.mapOrphanTransactions.find (env.hashTx tx) = none := by
      rw [SortedMap.contains, Option.not_isSome_iff_eq_none] at hc
      exact hc
    constructor
    · intro h tx' htx
      rw [SortedMap.find_insert] at htx
      split_ifs at htx with hh
      · rw [← Option.some.inj htx, hh]
      · exact hp.stored h tx' htx
    · intro p h
      rw [has_put, hp.linked, SortedMap.find_insert, mem_parents]
      by_cases hh : h = env.hashTx tx
      · rw [if_pos hh, hh, hnew]
        simp
      · rw [if_neg hh]
        simp [hh]
    · exact tight_put _ _ _ hp.tight

theorem erase_consistent (hash : Uint256) : Consistent env (eraseOrphanTx hash pool) := by
  unfold eraseOrphanTx
  cases hf : pool.mapOrphanTransactions.find hash with
  | none => exact hp
  | some tx =>
    constructor
    · intro h tx' htx
      rw [SortedMap.find_erase] at htx
      split_ifs at htx
      exact hp.stored h tx' htx
    · intro p h
      rw [has_drop, hp.linked, SortedMap.find_erase, mem_parents]
      by_cases hh : h = hash
      · rw [if_pos hh, hh, hf]
        simp
      · rw [if_neg hh]
        simp [hh]
    · exact tight_drop _ _ _ hp.tight

end Steps

section Limit
variable (pool : OrphanPool) (randomhash : ℕ → Uint256)

theorem erase_size {hash : Uint256} {tx : CTransaction}
    (h : pool.mapOrphanTransactions.find hash = some tx) :
    (eraseOrphanTx hash pool).size+1 = pool.size := by
  rw [eraseOrphanTx, h]
  exact SortedMap.length_erase h

theorem evicted_found (r : Uint256) (h : 0 < pool.size) :
    ∃ hash tx, evicted r pool = some hash ∧ pool.mapOrphanTransactions.find hash = some tx := by
  have hdrawn : ∃ e ∈ pool.mapOrphanTransactions.entries,
      (pool.mapOrphanTransactions.entries.find? (fun e => r ≤ e.1)).or
        pool.mapOrphanTransactions.entries.head? = some e := by
    cases hf : pool.mapOrphanTransactions.entries.find? (fun e => r ≤ e.1) with
    | some e => exact ⟨e,List.mem_of_find?_eq_some hf,rfl⟩
    | none =>
      obtain ⟨e,es,hes⟩ := List.exists_cons_of_length_pos h
      exact ⟨e,by simp [hes],by simp [hes]⟩
  obtain ⟨e,he,hor⟩ := hdrawn
  refine ⟨e.1,e.2,by rw [evicted, hor]; rfl,?_⟩
  exact (SortedMap.mem_entries _ _ _).mp he

/-- With more steps than orphans the limit is reached, by no more evictions than it takes. -/
theorem limit_reached (hp : Consistent env pool) (nMaxOrphans : ℕ) {steps : ℕ} (nEvicted : ℕ)
    (h : pool.size < steps) :
    ∃ pool', limitOrphanTxSize nMaxOrphans steps randomhash nEvicted pool =
        some (pool',nEvicted+(pool.size-nMaxOrphans)) ∧
      Consistent env pool' ∧ pool'.size = min pool.size nMaxOrphans := by
  induction steps generalizing pool nEvicted with
  | zero => omega
  | succ steps ih =>
    rw [limitOrphanTxSize]
    split_ifs with hsize
    · obtain ⟨hash,tx,hdrawn,hfind⟩ := evicted_found pool (randomhash nEvicted) (by omega)
      have hless := erase_size pool hfind
      obtain ⟨pool',heq,hp',hsize'⟩ := ih (eraseOrphanTx hash pool)
        (erase_consistent env pool hp hash) (nEvicted+1) (by omega)
      refine ⟨pool',?_,hp',by omega⟩
      rw [hdrawn]
      dsimp only
      rw [heq]
      congr 2
      omega
    · refine ⟨pool,?_,hp,by omega⟩
      congr 2
      omega

end Limit

theorem call_consistent {pool : OrphanPool} (hp : Consistent env pool) (c : Call) :
    ∃ pool', call env pool c = some pool' ∧ Consistent env pool' := by
  cases c with
  | add tx => exact ⟨_,rfl,add_consistent env pool hp tx⟩
  | erase hash => exact ⟨_,rfl,erase_consistent env pool hp hash⟩
  | limit nMaxOrphans randomhash =>
    obtain ⟨pool',heq,hp',_⟩ := limit_reached env pool randomhash hp nMaxOrphans 0
      (Nat.lt_succ_self _)
    refine ⟨pool',?_,hp'⟩
    rw [call, heq]
    rfl

theorem start_consistent : Consistent env start where
  stored h tx htx := by
    rw [start, SortedMap.find_empty] at htx
    cases htx
  linked p h := by simp [Has, start]
  tight k s hs := by
    rw [start, SortedMap.find_empty] at hs
    cases hs

theorem calls_consistent (calls : List Call) (pool : OrphanPool) (hp : Consistent env pool) :
    ∃ pool', calls.foldlM (call env) pool = some pool' ∧ Consistent env pool' := by
  induction calls generalizing pool with
  | nil => exact ⟨pool,rfl,hp⟩
  | cons c calls ih =>
    obtain ⟨pool',heq,hp'⟩ := call_consistent env hp c
    obtain ⟨last,hlast,hend⟩ := ih pool' hp'
    refine ⟨last,?_,hend⟩
    rw [List.foldlM_cons, heq]
    exact hlast

/-- After any calls the maps are the reverse of each other with no empty set, and whatever is
drawn, a limit then comes to an end with so many orphans at most. -/
theorem orphan_maps_consistent (calls : List Call) :
    ∃ pool, calls.foldlM (call env) start = some pool ∧ Consistent env pool ∧
      ∀ nMaxOrphans randomhash steps, pool.size < steps →
        ∃ pool', limitOrphanTxSize nMaxOrphans steps randomhash 0 pool =
          some (pool',pool.size-nMaxOrphans) ∧ pool'.size ≤ nMaxOrphans := by
  obtain ⟨pool,hrun,hp⟩ := calls_consistent env calls start (start_consistent env)
  refine ⟨pool,hrun,hp,?_⟩
  intro nMaxOrphans randomhash steps hsteps
  obtain ⟨pool',heq,_,hsize⟩ := limit_reached env pool randomhash hp nMaxOrphans 0 hsteps
  refine ⟨pool',?_,by omega⟩
  rw [heq, Nat.zero_add]

section Sample

def sampleOrphan (n : ℕ) : CTransaction := ⟨1,n,[⟨⟨9,0⟩,[],0⟩,⟨⟨9,1⟩,[],0⟩],[],0⟩

theorem orphan_maps_consistent_sample :
    ∃ pool, [Call.add (sampleOrphan 1),.add (sampleOrphan 2),.erase 1].foldlM (call sampleEnv) start =
        some pool ∧ Consistent sampleEnv pool ∧
      ∃ pool', limitOrphanTxSize 0 (pool.size+1) (fun _ => 7) 0 pool = some (pool',pool.size-0) ∧
        pool'.size ≤ 0 := by
  obtain ⟨pool,hrun,hp,hlimit⟩ := orphan_maps_consistent sampleEnv
    [.add (sampleOrphan 1),.add (sampleOrphan 2),.erase 1]
  exact ⟨pool,hrun,hp,hlimit 0 (fun _ => 7) (pool.size+1) (Nat.lt_succ_self _)⟩

end Sample

end SwippCore.OrphanTransactions
