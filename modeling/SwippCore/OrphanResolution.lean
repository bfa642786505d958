import SwippCore.OrphanTransactions
import SwippCore.PoolAcceptance
import SwippCore.Lib.WorkQueue

/-!
# Orphans that find their parents

A transaction that is taken into the pool has every orphan tried that names it, and each
orphan that is taken then does the same in its turn. When the queue is done, no orphan
that names one of the transactions taken in the call could be taken, and each that was
promoted came after its parents and is gone from both maps.
-/

set_option autoImplicit false

namespace SwippCore.OrphanResolution
open FinMap Checks IndexEffect ReverseIndex OrphanTransactions WorkQueue PoolAcceptance

/-- What `AcceptToMemoryPool` reads besides the pool. -/
structure Surroundings where
  best : Best
  ancestors : List CBlockIndex
  disk : Disk
  store : Store

structure State where
  mempool : CTxMemPool
  orphans : OrphanPool

def maxOrphanTransactions : ℕ := maxBlockSize/100

variable (env : Env) (c : Surroundings)

section Accept
variable (tx : CTransaction) (pool : CTxMemPool)

def accept : Except Failure CTxMemPool :=
  acceptToMemoryPool env c.best c.ancestors c.disk c.store true tx pool

/-- The tests of `AcceptToMemoryPool` in front of `FetchInputs`. -/
def acceptTests : Except Failure Unit := do
  checkTransaction env tx
  require (!tx.isCoinBase) (.error 100 "AcceptToMemoryPool : coinbase as individual tx")
  require (!tx.isCoinStake) (.error 100 "AcceptToMemoryPool : coinstake as individual tx")
  require (env.testNet || env.isStandardTx tx)
    (.error 0 "AcceptToMemoryPool : nonstandard transaction: %s")
  require (!pool.exists? (env.hashTx tx)) (.error 0 "")
  forEach (fun o => require ((pool.mapNextTx.lookup o).isNone) (.error 0 "")) tx.prevouts
  require (!c.store.containsTx (env.hashTx tx)) (.error 0 "")

/-- `*pfMissingInputs`: it is `FetchInputs` that fails, and not for an output out of range. -/
def missingInputs : Bool :=
  (acceptTests env c tx pool).isOk &&
    !(fetchPrevs c.disk pool.lookup c.store.tx ∅ false tx.prevouts ∅).isOk

end Accept

section Resolve
variable (orphans : OrphanPool)

def orphanTx (hash : Uint256) : CTransaction :=
  (orphans.mapOrphanTransactions.find hash).getD ⟨1,0,[],[],0⟩

def byPrev (hash : Uint256) : List Uint256 :=
  match orphans.mapOrphanTransactionsByPrev.find hash with
  | none => []
  | some s => s.items

def tryOrphan (hash : Uint256) (pool : CTxMemPool) : Attempt CTxMemPool :=
  match accept env c (orphanTx orphans hash) pool with
  | .ok pool => .done pool
  | .error _ => if missingInputs env c (orphanTx orphans hash) pool then .blocked else .refused

/-- The loop over `vWorkQueue`, with `vEraseQueue`, from the transaction that was accepted. -/
def resolveOrphans (steps : ℕ) (hash : Uint256) (pool : CTxMemPool) :
    Option (Queue Uint256 CTxMemPool) :=
  resolve (tryOrphan env c orphans) (byPrev orphans) steps 0 ⟨[hash],[hash],pool⟩

end Resolve

def eraseOrphans (hashes : List Uint256) (orphans : OrphanPool) : OrphanPool :=
  hashes.foldl (fun orphans hash => eraseOrphanTx hash orphans) orphans

/-- `ProcessMessage` on a "tx" message, its loops within a number of steps. -/
def processTx (steps : ℕ) (randomhash : ℕ → Uint256) (tx : CTransaction) (st : State) :
    Option State :=
  match accept env c tx st.mempool with
  | .ok pool => (resolveOrphans env c st.orphans steps (env.hashTx tx) pool).map
      (fun q => ⟨q.state,eraseOrphans q.finished st.orphans⟩)
  | .error _ =>
    if missingInputs env c tx st.mempool then
      (limitOrphanTxSize maxOrphanTransactions steps randomhash 0
        (addOrphanTx env tx st.orphans).1).map (fun r => ⟨st.mempool,r.1⟩)
    else some st

def Lacks (pool : CTxMemPool) (hash : Uint256) : Prop :=
  ¬ (fetchPrev c.disk pool.lookup c.store.tx ∅ false hash).isOk = true

def InPool (pool : CTxMemPool) (hash : Uint256) : Prop := (pool.mapTx.lookup hash).isSome = true

section Fetch
variable (disk : Disk) (lookup : Uint256 → Option CTransaction) (e : TxIndex)

theorem fetch_prevs_is_ok (os : List COutPoint) (inputs : MapPrevTx) :
    (fetchPrevs disk lookup e ∅ false os inputs).isOk = true ↔
      ∀ o ∈ os, o.hash ∈ inputs ∨ (fetchPrev disk lookup e ∅ false o.hash).isOk = true := by
  induction os generalizing inputs with
  | nil => simp [fetchPrevs, Except.isOk, Except.toBool]
  | cons o os ih =>
    rw [fetchPrevs, List.forall_mem_cons]
    split_ifs with hin
    · rw [ih]
      simp [hin]
    · cases hf : fetchPrev disk lookup e ∅ false o.hash with
      | error err =>
        simp [hin, Except.isOk, Except.toBool, bind, Except.bind]
      | ok p =>
        change (fetchPrevs disk lookup e ∅ false os (inputs.insert o.hash p)).isOk = true ↔ _
        rw [ih]
        constructor
        · intro h
          refine ⟨Or.inr rfl,fun a ha => ?_⟩
          rcases h a ha with hm | hok
          · rw [mem_iff_lookup] at hm
            obtain ⟨v,hv⟩ := hm
            rw [lookup_insert_if] at hv
            split_ifs at hv with hk
            · rw [hk, hf]
              exact Or.inr rfl
            · exact Or.inl ((mem_iff_lookup inputs a.hash).mpr ⟨v,hv⟩)
          · exact Or.inr hok
        · intro h a ha
          rcases h.2 a ha with hm | hok
          · left
            obtain ⟨v,hv⟩ := (mem_iff_lookup inputs a.hash).mp hm
            rw [mem_iff_lookup, lookup_insert_if]
            split_ifs
            · exact ⟨p,rfl⟩
            · exact ⟨v,hv⟩
          · exact Or.inr hok

/-- Only what the pool has under a hash decides whether its transaction can be had. -/
theorem fetch_prev_congr (lookup' : Uint256 → Option CTransaction) {hash : Uint256}
    (h : lookup' hash = lookup hash) :
    fetchPrev disk lookup' e ∅ false hash = fetchPrev disk lookup e ∅ false hash := by
  unfold fetchPrev readPrev
  rw [h]

end Fetch

section Pool
variable (tx : CTransaction) {pool pool' : CTxMemPool}

theorem parents_prevouts (k : Uint256) : k ∈ parents tx ↔ ∃ o ∈ tx.prevouts, o.hash = k := by
  simp [parents, CTransaction.prevouts]

theorem accepted_fetched (h : accept env c tx pool = .ok pool') (k : Uint256)
    (hk : k ∈ parents tx) : ¬ Lacks c pool k := by
  have hcb := (accept_ok env h).1.notCoinBase
  simp only [accept, acceptToMemoryPool, then_ok, checkPoolInputs] at h
  obtain ⟨_,_,_,_,_,_,⟨_,h⟩,_⟩ := h
  obtain ⟨inputs,hf,_⟩ := (bind_ok _ _ _).mp h
  rw [fetchInputs, hcb, if_neg (by simp)] at hf
  obtain ⟨found,hfound,_⟩ := (bind_ok _ _ _).mp hf
  obtain ⟨o,ho,rfl⟩ := (parents_prevouts tx k).mp hk
  have hok := (fetch_prevs_is_ok c.disk pool.lookup c.store.tx tx.prevouts ∅).mp
    (by rw [hfound]; rfl) o ho
  rw [Lacks, not_not]
  exact hok.resolve_left (by simp)

theorem missing_lacks (h : missingInputs env c tx pool = true) : ∃ k ∈ parents tx, Lacks c pool k := by
  rw [missingInputs, Bool.and_eq_true, Bool.not_eq_true', ← Bool.not_eq_true,
    fetch_prevs_is_ok] at h
  by_contra hall
  apply h.2
  intro o ho
  right
  by_contra hno
  exact hall ⟨o.hash,(parents_prevouts tx _).mpr ⟨o,ho,rfl⟩,hno⟩

theorem accepted_lookup (h : accept env c tx pool = .ok pool') (k : Uint256) :
    pool'.mapTx.lookup k = if k = env.hashTx tx then some tx else pool.mapTx.lookup k := by
  rw [(accept_ok env h).2, CTxMemPool.addUnchecked, lookup_insert_if]

theorem accepted_lacks (h : accept env c tx pool = .ok pool') {k : Uint256}
    (hk : k ≠ env.hashTx tx) : Lacks c pool' k ↔ Lacks c pool k := by
  have hsame : pool'.lookup k = pool.lookup k := by
    have := accepted_lookup env c tx h k
    rwa [if_neg hk] at this
  rw [Lacks, Lacks, fetch_prev_congr c.disk pool.lookup c.store.tx pool'.lookup hsame]

end Pool

section Orphans
variable (orphans : OrphanPool)

def waiting : List Uint256 := orphans.mapOrphanTransactions.entries.map Prod.fst

theorem waiting_iff (h : Uint256) :
    h ∈ waiting orphans ↔ ∃ tx, orphans.mapOrphanTransactions.find h = some tx := by
  rw [waiting, List.mem_map]
  constructor
  · rintro ⟨⟨k,tx⟩,he,rfl⟩
    exact ⟨tx,(SortedMap.mem_entries _ _ _).mp he⟩
  · rintro ⟨tx,htx⟩
    exact ⟨(h,tx),(SortedMap.mem_entries _ _ _).mpr htx,rfl⟩

theorem by_prev_iff (p h : Uint256) :
    h ∈ byPrev orphans p ↔ Has orphans.mapOrphanTransactionsByPrev p h := by
  unfold byPrev Has
  cases orphans.mapOrphanTransactionsByPrev.find p with
  | none => simp
  | some s =>
    constructor
    · intro hin
      exact ⟨s,rfl,hin⟩
    · rintro ⟨t,ht,hin⟩
      rw [← Option.some.inj ht] at hin
      exact hin

theorem orphan_tx_found {h : Uint256} {tx : CTransaction}
    (htx : orphans.mapOrphanTransactions.find h = some tx) : orphanTx orphans h = tx := by
  rw [orphanTx, htx]
  rfl

theorem orphan_rules (hp : Consistent env orphans) :
    Rules (tryOrphan env c orphans) (byPrev orphans) (fun h => parents (orphanTx orphans h))
      (waiting orphans) InPool (Lacks c) := by
  have hhash : ∀ h ∈ waiting orphans, env.hashTx (orphanTx orphans h) = h := by
    intro h hh
    obtain ⟨tx,htx⟩ := (waiting_iff orphans h).mp hh
    rw [orphan_tx_found orphans htx]
    exact hp.stored h tx htx
  have hdone : ∀ h pool pool', tryOrphan env c orphans h pool = .done pool' →
      accept env c (orphanTx orphans h) pool = .ok pool' := by
    intro h pool pool' hd
    rw [tryOrphan] at hd
    split at hd
    · rename_i r hr
      rw [hr, Attempt.done.inj hd]
    · split_ifs at hd
  constructor
  · intro h _ pool hb
    rw [tryOrphan] at hb
    split at hb
    · cases hb
    · split_ifs at hb with hm
      exact missing_lacks env c _ hm
  · intro h _ pool pool' hd
    exact accepted_fetched env c _ (hdone h pool pool' hd)
  · intro h hh pool pool' hd
    have hnew := (accept_ok env (hdone h pool pool' hd)).1.new
    rw [hhash h hh] at hnew
    simp [InPool, hnew]
  · intro h hh pool pool' hd k
    rw [InPool, accepted_lookup env c _ (hdone h pool pool' hd), hhash h hh]
    split_ifs with hk
    · simp [hk]
    · simp [InPool, hk]
  · intro h hh pool pool' hd k hk
    exact accepted_lacks env c _ (hdone h pool pool' hd) (by rwa [hhash h hh])
  · intro k h
    rw [by_prev_iff, hp.linked, waiting_iff]
    constructor
    · rintro ⟨tx,htx,hin⟩
      refine ⟨⟨tx,htx⟩,?_⟩
      rw [orphan_tx_found orphans htx]
      exact (mem_parents tx k).mpr hin
    · rintro ⟨⟨tx,htx⟩,hin⟩
      rw [orphan_tx_found orphans htx] at hin
      exact ⟨tx,htx,(mem_parents tx k).mp hin⟩

theorem erase_orphans (hashes : List Uint256) (hp : Consistent env orphans) :
    Consistent env (eraseOrphans hashes orphans) ∧
      ∀ h, (eraseOrphans hashes orphans).mapOrphanTransactions.find h =
        if h ∈ hashes then none else orphans.mapOrphanTransactions.find h := by
  induction hashes generalizing orphans with
  | nil => exact ⟨hp,fun h => by simp [eraseOrphans]⟩
  | cons k hashes ih =>
    obtain ⟨hc,hfind⟩ := ih (eraseOrphanTx k orphans) (erase_consistent env orphans hp k)
    refine ⟨hc,fun h => ?_⟩
    have hone : (eraseOrphanTx k orphans).mapOrphanTransactions.find h =
        if h = k then none else orphans.mapOrphanTransactions.find h := by
      unfold eraseOrphanTx
      cases hk : orphans.mapOrphanTransactions.find k with
      | none =>
        split_ifs with hh
        · rw [hh, hk]
        · rfl
      | some tx => rw [SortedMap.find_erase]
    rw [show eraseOrphans (k::hashes) orphans = eraseOrphans hashes (eraseOrphanTx k orphans) from rfl,
      hfind, hone]
    by_cases hin : h ∈ hashes
    · simp [hin]
    · simp [hin]

end Orphans

structure Resolved (tx : CTransaction) (before after : State) (taken : List Uint256) : Prop where
  front : ∃ promoted, taken = env.hashTx tx::promoted ∧ promoted.Nodup
  pool : ∀ h, InPool after.mempool h ↔ InPool before.mempool h ∨ h ∈ taken
  /-- an orphan that waits and names one that was taken is not acceptable -/
  complete : ∀ h orphan, after.orphans.mapOrphanTransactions.find h = some orphan →
    (∃ p ∈ parents orphan, p ∈ taken) → (accept env c orphan after.mempool).isOk = false
  /-- a promoted orphan comes after its parents, those of the call and those from before it -/
  ordered : ∀ earlier h later, taken = earlier++h::later → earlier ≠ [] →
    ∃ orphan, before.orphans.mapOrphanTransactions.find h = some orphan ∧
      ∀ p ∈ parents orphan, p ∈ earlier ∨ ¬ Lacks c before.mempool p
  erased : ∀ h ∈ taken, after.orphans.mapOrphanTransactions.find h = none ∧
    ∀ p, ¬ Has after.orphans.mapOrphanTransactionsByPrev p h
  consistent : Consistent env after.orphans

/-- After a transaction that is accepted the loop comes to an end, and leaves no orphan behind
that could be taken with what the call brought. -/
theorem orphans_resolved (tx : CTransaction) (before : State) (randomhash : ℕ → Uint256)
    (hp : Consistent env before.orphans) (h : (accept env c tx before.mempool).isOk = true) :
    ∃ after taken, Resolved env c tx before after taken ∧
      ∀ steps, before.orphans.size+1 < steps →
        processTx env c steps randomhash tx before = some after := by
  obtain ⟨pool,hpool⟩ := of_is_ok _ h
  have hr := orphan_rules env c before.orphans hp
  obtain ⟨q,new,hends,hgrown,hclosed⟩ := resolve_closed hr ⟨[env.hashTx tx],[env.hashTx tx],pool⟩
  obtain ⟨hcons,hfind⟩ := erase_orphans env before.orphans q.finished hp
  have hwork : q.work = env.hashTx tx::new := hgrown.work
  have hfinished : ∀ k ∈ q.work, k ∈ q.finished := by
    intro k hk
    rw [hwork] at hk
    rcases List.mem_cons.mp hk with rfl | hk
    · exact hgrown.kept List.mem_cons_self
    · exact hgrown.finished hk
  refine ⟨⟨q.state,eraseOrphans q.finished before.orphans⟩,q.work,?_,?_⟩
  · constructor
    · exact ⟨new,hwork,hgrown.distinct⟩
    · intro k
      rw [hgrown.has_iff, hwork, List.mem_cons, InPool, accepted_lookup env c tx hpool]
      split_ifs with hk
      · simp [hk]
      · simp [InPool, hk]
    · intro k orphan horphan hparent
      rw [hfind] at horphan
      split_ifs at horphan with hno
      have horphanTx := orphan_tx_found before.orphans horphan
      obtain ⟨p,hpar,hlack⟩ := hclosed k ((waiting_iff _ k).mpr ⟨orphan,horphan⟩) hno
        (by rwa [horphanTx])
      rw [horphanTx] at hpar
      by_contra hacc
      rw [Bool.not_eq_false] at hacc
      obtain ⟨pool',hpool'⟩ := of_is_ok _ hacc
      exact accepted_fetched env c orphan hpool' p hpar hlack
    · intro earlier k later hsplit hne
      cases earlier with
      | nil => exact absurd rfl hne
      | cons a earlier =>
        rw [hwork] at hsplit
        obtain ⟨rfl,hnew⟩ := List.cons.inj hsplit
        have hk : k ∈ new := by simp [hnew]
        obtain ⟨orphan,horphan⟩ := (waiting_iff _ k).mp (hgrown.inside hk)
        have horphanTx := orphan_tx_found before.orphans horphan
        refine ⟨orphan,horphan,?_⟩
        intro p hpar
        by_cases hfront : p = env.hashTx tx
        · exact Or.inl (hfront ▸ List.mem_cons_self)
        · rcases hgrown.ordered earlier k later hnew p (by rwa [horphanTx]) with hin | hno
          · exact Or.inl (List.mem_cons_of_mem _ hin)
          · exact Or.inr fun hl => hno ((accepted_lacks env c tx hpool hfront).mpr hl)
    · intro k hk
      have hnone : (eraseOrphans q.finished before.orphans).mapOrphanTransactions.find k = none := by
        rw [hfind, if_pos (hfinished k hk)]
      refine ⟨hnone,fun p hhas => ?_⟩
      obtain ⟨orphan,horphan,_⟩ := (hcons.linked p k).mp hhas
      rw [hnone] at horphan
      cases horphan
    · exact hcons
  · intro steps hsteps
    have hlen : (waiting before.orphans).length = before.orphans.size := List.length_map _
    have hend := hends steps (by rw [hlen]; simpa [Nat.add_comm] using hsteps)
    rw [processTx, hpool]
    dsimp only
    rw [resolveOrphans, hend]
    rfl

section Sample

def sampleSurroundings : Surroundings where
  best := ⟨none,0⟩
  ancestors := []
  disk := ⟨fun _ => some ⟨1,1,[⟨⟨8,0⟩,[],0⟩],[⟨10*coin,[1]⟩],0⟩,fun _ _ => none,fun _ _ => none⟩
  store := Store.empty.updateTxIndex 9 (.fresh (.onDisk 2 0 0) 1)

def sampleParent : CTransaction := ⟨1,2,[⟨⟨9,0⟩,[],0⟩],[⟨9*coin,[1]⟩],0⟩
def sampleChild : CTransaction := ⟨1,3,[⟨⟨2,0⟩,[],0⟩],[⟨8*coin,[1]⟩],0⟩

def sampleState : State := ⟨CTxMemPool.empty,(addOrphanTx sampleEnv sampleChild start).1⟩

theorem orphans_resolved_sample :
    ∃ after taken, Resolved sampleEnv sampleSurroundings sampleParent sampleState after taken ∧
      ∀ steps, sampleState.orphans.size+1 < steps →
        processTx sampleEnv sampleSurroundings steps (fun _ => 0) sampleParent sampleState =
          some after :=
  orphans_resolved sampleEnv sampleSurroundings sampleParent sampleState (fun _ => 0)
    (add_consistent sampleEnv start (start_consistent sampleEnv) sampleChild) (by decide +kernel)

/-- The child is promoted with it. -/
example : (resolveOrphans sampleEnv sampleSurroundings sampleState.orphans 4 2
    (CTxMemPool.empty.addUnchecked 2 sampleParent)).map Queue.work = some [2,3] := by
  decide +kernel

end Sample

end SwippCore.OrphanResolution
