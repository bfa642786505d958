import SwippCore.ConnectBlock

/-!
# What blocks do to the index

The effect of a block on the transaction index, its connection, and its disconnection as the
inverse.
-/

set_option autoImplicit false

namespace SwippCore.IndexEffect
open Undo

abbrev TxIndex := Uint256 → Option CTxIndex

def spent (tx : CTransaction) : List COutPoint := if tx.isCoinBase then [] else tx.prevouts

def slot (e : TxIndex) (o : COutPoint) : Option CDiskTxPos :=
  (e o.hash).bind (fun i => i.vSpent[o.n]?)

def markEntry (hash : Uint256) (v : CDiskTxPos) (os : List COutPoint) (i : CTxIndex) : CTxIndex :=
  { i with vSpent := i.vSpent.mapIdx (fun n p => if ⟨hash,n⟩ ∈ os then v else p) }

def mark (v : CDiskTxPos) (os : List COutPoint) (e : TxIndex) : TxIndex :=
  fun k => (e k).map (markEntry k v os)

variable (v : CDiskTxPos)

theorem slot_mark (os : List COutPoint) (e : TxIndex) (o : COutPoint) :
    slot (mark v os e) o = (slot e o).map (fun p => if o ∈ os then v else p) := by
  unfold slot mark
  cases e o.hash with
  | none => rfl
  | some i => simp [markEntry, List.getElem?_mapIdx]

variable {os : List COutPoint}

theorem mark_entry_other {k : Uint256} (i : CTxIndex) (h : ∀ n, ⟨k,n⟩ ∉ os) :
    markEntry k v os i = i := by
  have hv : i.vSpent.mapIdx (fun n p => if (⟨k,n⟩ : COutPoint) ∈ os then v else p) = i.vSpent := by
    apply List.ext_getElem?
    intro n
    cases hn : i.vSpent[n]? <;> simp [h n,hn]
  rw [markEntry, hv]

theorem mark_other (e : TxIndex) {k : Uint256} (h : ∀ n, ⟨k,n⟩ ∉ os) : mark v os e k = e k := by
  cases he : e k with
  | none => simp [mark, he]
  | some i => simp [mark, he, mark_entry_other v i h]

theorem mark_nil (e : TxIndex) : mark v [] e = e := by
  funext k
  exact mark_other v e (by simp)

theorem mark_none (os : List COutPoint) (e : TxIndex) (k : Uint256) :
    mark v os e k = none ↔ e k = none := by simp [mark]

theorem mark_entry_mark_entry (k : Uint256) (v : CDiskTxPos) (os : List COutPoint)
    (w : CDiskTxPos) (ps : List COutPoint) (i : CTxIndex) :
    markEntry k v os (markEntry k w ps i) =
      { i with vSpent := i.vSpent.mapIdx (fun n p =>
        if ⟨k,n⟩ ∈ os then v else if ⟨k,n⟩ ∈ ps then w else p) } := by
  simp only [markEntry, List.mapIdx_mapIdx]
  rfl

theorem mark_cons (o : COutPoint) (os : List COutPoint) (e : TxIndex) :
    mark v (o::os) e = mark v os (mark v [o] e) := by
  funext k
  cases h : e k with
  | none => simp [mark, h]
  | some i =>
    simp only [mark, h, Option.map_some, mark_entry_mark_entry, Option.some_inj]
    simp only [markEntry, List.mem_cons, List.not_mem_nil, or_false]
    congr 2
    funext n p
    split_ifs <;> simp_all

theorem mark_singleton {o : COutPoint} (e : TxIndex) {i : CTxIndex} (h : e o.hash = some i) :
    mark v [o] e = Function.update e o.hash (some { i with vSpent := i.vSpent.set o.n v }) := by
  funext k
  rw [Function.update_apply]
  split_ifs with hk
  · subst hk
    simp only [mark, h, Option.map_some, markEntry, List.mem_singleton, Option.some_inj]
    congr 1
    apply List.ext_getElem?
    intro n
    rw [List.getElem?_mapIdx, List.getElem?_set]
    by_cases hn : o.n = n
    · subst hn
      cases hv : i.vSpent[o.n]? with
      | none => simp [List.getElem?_eq_none_iff.mp hv]
      | some p => simp [(List.getElem?_eq_some_iff.mp hv).1]
    · cases hv : i.vSpent[n]? with
      | none => simp [hn]
      | some p =>
        have ho : (⟨o.hash,n⟩ : COutPoint) ≠ o := fun he => hn (by rw [← he])
        simp [hn,ho]
  · apply mark_other
    intro n hn
    rw [List.mem_singleton] at hn
    exact hk (by rw [← hn])

theorem mark_null_mark {e : TxIndex} (h : ∀ o ∈ os, slot e o = some .null) :
    mark .null os (mark v os e) = e := by
  funext k
  cases he : e k with
  | none => simp [mark, he]
  | some i =>
    simp only [mark, he, Option.map_some, mark_entry_mark_entry, Option.some_inj]
    have hv : i.vSpent.mapIdx (fun n p =>
        if (⟨k,n⟩ : COutPoint) ∈ os then .null else if (⟨k,n⟩ : COutPoint) ∈ os then v else p) =
        i.vSpent := by
      apply List.ext_getElem?
      intro n
      rw [List.getElem?_mapIdx]
      by_cases ho : (⟨k,n⟩ : COutPoint) ∈ os
      · have hs := h _ ho
        simp only [slot, he, Option.bind_some] at hs
        simp [ho,hs]
      · cases i.vSpent[n]? <;> simp [ho]
    rw [hv]

variable (env : Env)

abbrev Placed := CDiskTxPos × CTransaction

def connectEffect (a : Placed) (e : TxIndex) : TxIndex :=
  Function.update (mark a.1 (spent a.2) e) (env.hashTx a.2)
    (some (.fresh a.1 a.2.vout.length))

structure Connectable (a : Placed) (e : TxIndex) : Prop where
  new : e (env.hashTx a.2) = none
  free : ∀ o ∈ spent a.2, slot e o = some .null

theorem unspend_prevs_ok (s : Store) (h : ∀ o ∈ os, (slot s.tx o).isSome) :
    unspendPrevs os s = .ok { s with tx := mark .null os s.tx } := by
  induction os generalizing s with
  | nil => rw [unspendPrevs, mark_nil]
  | cons o os ih =>
    have ho := h o List.mem_cons_self
    cases he : s.tx o.hash with
    | none => simp [slot, he] at ho
    | some i =>
      have hn : o.n < i.vSpent.length := by simpa [slot, he] using ho
      have hm := mark_singleton .null s.tx he
      have hs : (s.updateTxIndex o.hash { i with vSpent := i.vSpent.set o.n .null }) =
          { s with tx := mark .null [o] s.tx } := by rw [hm]; rfl
      simp only [unspendPrevs, he, hn, if_true]
      have hrest : ∀ p ∈ os, (slot (mark .null [o] s.tx) p).isSome := by
        intro p hp
        rw [slot_mark, Option.isSome_map]
        exact h p (List.mem_cons_of_mem o hp)
      rw [hs, ih { s with tx := mark .null [o] s.tx } hrest, ← mark_cons]

theorem disconnect_inputs_spent (tx : CTransaction) (s : Store) :
    disconnectInputs env tx s =
      (unspendPrevs (spent tx) s).map (Store.eraseTxIndex (env.hashTx tx)) := by
  unfold disconnectInputs spent
  by_cases hc : tx.isCoinBase
  · simp [hc, unspendPrevs, bind, Except.bind, Except.map]
  · simp only [hc, Bool.false_eq_true, if_false]
    cases unspendPrevs tx.prevouts s <;> rfl

theorem disconnect_inputs_effect {a : Placed} {e : TxIndex} {s : Store} (h : Connectable env a e)
    (hs : s.tx = connectEffect env a e) : disconnectInputs env a.2 s = .ok { s with tx := e } := by
  have hne : ∀ o ∈ spent a.2, o.hash ≠ env.hashTx a.2 := by
    intro o ho hk
    have hf := h.free o ho
    simp [slot, hk, h.new] at hf
  have hslot : ∀ o ∈ spent a.2, (slot s.tx o).isSome := by
    intro o ho
    have hf := h.free o ho
    have he : slot s.tx o = slot (mark a.1 (spent a.2) e) o := by
      rw [hs, slot, connectEffect, Function.update_of_ne (hne o ho)]
      rfl
    rw [he, slot_mark, hf]
    rfl
  have hu := unspend_prevs_ok _ hslot
  have hx : (Function.update (mark .null (spent a.2) s.tx) (env.hashTx a.2) none) = e := by
    funext k
    rw [Function.update_apply]
    split_ifs with hk
    · rw [hk, h.new]
    · have hm := congrFun (mark_null_mark a.1 h.free) k
      rw [← hm]
      simp only [mark, hs, connectEffect, Function.update_of_ne hk]
  rw [disconnect_inputs_spent, hu]
  simp only [Store.eraseTxIndex, Except.map, hx]

end SwippCore.IndexEffect

namespace SwippCore.ConnectEffect
open FinMap Checks Undo IndexEffect

section Frame

theorem write_queued_frame (es : List (Sigma (fun _ : Uint256 => CTxIndex))) (s : Store) :
    writeQueued es s = { s with tx := (writeQueued es s).tx } := by
  induction es generalizing s with
  | nil => rfl
  | cons e es ih => exact ih _

theorem unspend_prevs_frame {os : List COutPoint} (s s' : Store) (h : unspendPrevs os s = .ok s') :
    s' = { s with tx := s'.tx } := by
  induction os generalizing s with
  | nil =>
    rw [unspendPrevs, Except.ok.injEq] at h
    rw [h]
  | cons o os ih =>
    rw [unspendPrevs] at h
    cases he : s.tx o.hash with
    | none => simp [he] at h
    | some i =>
      simp only [he] at h
      split_ifs at h
      exact (ih _ h).trans rfl

theorem disconnect_txs_frame (env : Env) {txs : List CTransaction} (s s' : Store)
    (h : disconnectTxs env txs s = .ok s') : s' = { s with tx := s'.tx } := by
  induction txs generalizing s with
  | nil =>
    rw [disconnectTxs, Except.ok.injEq] at h
    rw [h]
  | cons tx txs ih =>
    obtain ⟨s1,h1,h⟩ := (bind_ok _ _ _).mp h
    rw [disconnect_inputs_spent] at h1
    cases hu : unspendPrevs (spent tx) s with
    | error f => simp [hu, Except.map] at h1
    | ok s2 =>
      simp only [hu, Except.map, Except.ok.injEq] at h1
      have hrest := ih s1 h
      rw [← h1, unspend_prevs_frame s s2 hu] at hrest
      exact hrest

end Frame

def queued (q : TxIndexMap) (e : TxIndex) : TxIndex := fun k => (q.lookup k).or (e k)

theorem queued_empty (e : TxIndex) : queued ∅ e = e := by
  funext k
  simp [queued]

theorem queued_insert (q : TxIndexMap) (e : TxIndex) (k : Uint256) (i : CTxIndex) :
    queued (q.insert k i) e = Function.update (queued q e) k (some i) := by
  funext j
  rw [Function.update_apply, queued, lookup_insert_if]
  split_ifs <;> rfl

def Faithful (inputs : MapPrevTx) (e : TxIndex) : Prop :=
  ∀ k p, inputs.lookup k = some p → e k = some p.1

theorem faithful_insert {inputs : MapPrevTx} {e : TxIndex} (k : Uint256) (i : CTxIndex)
    (tx : CTransaction) (h : Faithful inputs e) :
    Faithful (inputs.insert k (i,tx)) (Function.update e k (some i)) := by
  intro j p hp
  rw [lookup_insert_if] at hp
  rw [Function.update_apply]
  split_ifs at hp ⊢ with hj
  · rw [← Option.some_inj.mp hp]
  · exact h j p hp

section Fetch
variable (disk : Disk) (pool : Uint256 → Option CTransaction) (e : TxIndex)

theorem read_prev_ok {hash : Uint256} {i : CTxIndex} {p : CTxIndex × CTransaction}
    (h : readPrev disk pool hash i = .ok p) : p.1 = i := by
  unfold readPrev at h
  split_ifs at h
  · cases hp : pool hash with
    | none => simp [hp] at h
    | some tx => simp only [hp, Except.ok.injEq] at h; rw [← h]
  · cases hd : disk.readTx i.pos with
    | none => simp [hd] at h
    | some tx => simp only [hd, Except.ok.injEq] at h; rw [← h]

theorem fetch_prev_queued (q : TxIndexMap) (hash : Uint256) :
    fetchPrev disk pool e q true hash = match queued q e hash with
      | some i => readPrev disk pool hash i
      | none => .error (.error 0 "FetchInputs() : %s prev tx %s index entry not found") := rfl

variable {q : TxIndexMap}

theorem fetch_prev_ok {hash : Uint256} {p : CTxIndex × CTransaction}
    (h : fetchPrev disk pool e q true hash = .ok p) : queued q e hash = some p.1 := by
  rw [fetch_prev_queued] at h
  cases hq : queued q e hash with
  | none => simp [hq] at h
  | some i =>
    rw [hq] at h
    rw [read_prev_ok disk pool h]

theorem fetch_prevs_ok {os : List COutPoint} (inputs inputs' : MapPrevTx)
    (hin : Faithful inputs (queued q e))
    (h : fetchPrevs disk pool e q true os inputs = .ok inputs') :
    Faithful inputs' (queued q e) := by
  induction os generalizing inputs with
  | nil =>
    rw [fetchPrevs, Except.ok.injEq] at h
    rwa [← h]
  | cons o os ih =>
    rw [fetchPrevs] at h
    split_ifs at h
    · exact ih inputs hin h
    · obtain ⟨p,hp,h⟩ := (bind_ok _ _ _).mp h
      have hf := faithful_insert o.hash p.1 p.2 hin
      have hu : Function.update (queued q e) o.hash (some p.1) = queued q e := by
        rw [← fetch_prev_ok disk pool e hp, Function.update_eq_self]
      rw [hu] at hf
      exact ih _ hf h

theorem fetch_inputs_ok {tx : CTransaction} {inputs : MapPrevTx}
    (h : fetchInputs disk pool e q true tx = .ok inputs) : Faithful inputs (queued q e) := by
  unfold fetchInputs at h
  split_ifs at h with hc
  · rw [Except.ok.injEq] at h
    rw [← h]
    intro k p hp
    simp at hp
  · obtain ⟨i,hi,h⟩ := (bind_ok _ _ _).mp h
    obtain ⟨_,h⟩ := (then_ok _ _ _).mp h
    rw [Except.ok.injEq] at h
    subst h
    exact fetch_prevs_ok disk pool e ∅ i (by intro k p hp; simp at hp) hi

end Fetch

variable (env : Env)

theorem spend_prevs_ok {tx : CTransaction} {pos : CDiskTxPos} {flags : ℕ} {skipScripts : Bool}
    (n : ℕ) {os : List COutPoint} (inputs : MapPrevTx) (q q' : TxIndexMap) {e : TxIndex}
    (hin : Faithful inputs (queued q e))
    (h : spendPrevs env tx pos true flags skipScripts n os inputs q = .ok q') :
    queued q' e = mark pos os (queued q e) ∧
      ∀ o ∈ os, slot (queued q e) o = some .null := by
  induction os generalizing n inputs q with
  | nil =>
    rw [spendPrevs, Except.ok.injEq] at h
    subst h
    exact ⟨(mark_nil pos _).symm,by simp⟩
  | cons o os ih =>
    rw [spendPrevs] at h
    cases hl : inputs.lookup o.hash with
    | none => simp [hl] at h
    | some p =>
      obtain ⟨i,txPrev⟩ := p
      have hi : queued q e o.hash = some i := hin _ _ hl
      simp only [hl, if_true] at h
      obtain ⟨hnull,h⟩ := (then_ok _ _ _).mp h
      obtain ⟨_,h⟩ := (then_ok _ _ _).mp h
      have hfree : slot (queued q e) o = some .null := by
        rw [require_ok] at hnull
        rw [slot, hi, Option.bind_some]
        cases hv : i.vSpent[o.n]? with
        | none => simp [hv] at hnull
        | some p => simpa [hv, CDiskTxPos.isNull] using hnull
      have hmark := mark_singleton pos (queued q e) hi
      have hq := queued_insert q e o.hash { i with vSpent := i.vSpent.set o.n pos }
      rw [← hmark] at hq
      have hf := faithful_insert o.hash
        { i with vSpent := i.vSpent.set o.n pos } txPrev hin
      rw [← queued_insert] at hf
      obtain ⟨heff,hrest⟩ := ih _ _ _ hf h
      refine ⟨by rw [heff, hq, ← mark_cons],?_⟩
      intro p hp
      by_cases hpo : p = o
      · rw [hpo, hfree]
      · rcases List.mem_cons.mp hp with hp | hp
        · exact absurd hp hpo
        · have hs := hrest p hp
          rw [hq, slot_mark] at hs
          simpa [hpo] using hs

theorem connect_inputs_ok {best : Best} {inputs : MapPrevTx} {q q' : TxIndexMap} {pos : CDiskTxPos}
    {ancestors : List CBlockIndex} {flags : ℕ} {tx : CTransaction} {e : TxIndex}
    (hin : Faithful inputs (queued q e))
    (h : connectInputs env best inputs q pos ancestors true flags tx = .ok q') :
    queued q' e = mark pos (spent tx) (queued q e) ∧
      ∀ o ∈ spent tx, slot (queued q e) o = some .null := by
  unfold connectInputs at h
  unfold spent
  split_ifs at h ⊢ with hc
  · rw [Except.ok.injEq] at h
    subst h
    exact ⟨(mark_nil pos _).symm,by simp⟩
  · obtain ⟨_,_,h⟩ := (bind_ok _ _ _).mp h
    obtain ⟨q1,hq1,h⟩ := (bind_ok _ _ _).mp h
    obtain ⟨_,h⟩ := (then_ok _ _ _).mp h
    rw [Except.ok.injEq] at h
    subst h
    exact spend_prevs_ok env 0 inputs q q1 hin hq1

section Block
variable (ctx : ConnectContext) (s : Store)

def posOf (nTxPos : ℕ) : CDiskTxPos :=
  .ofFile ctx.pindex.nFile ctx.pindex.nBlockPos nTxPos

def nextTxPos (nTxPos : ℕ) (tx : CTransaction) : ℕ :=
  if ctx.fJustCheck then nTxPos else nTxPos+env.txSize tx

def placed : ℕ → List CTransaction → List Placed
  | _, [] => []
  | nTxPos, tx::txs => (posOf ctx nTxPos,tx)::placed (nextTxPos env ctx nTxPos tx) txs

theorem placed_snd (n : ℕ) (txs : List CTransaction) :
    (placed env ctx n txs).map Prod.snd = txs := by
  induction txs generalizing n with
  | nil => rfl
  | cons tx txs ih => simp [placed, ih]

theorem connect_spend_ok (pos : CDiskTxPos) (tx : CTransaction) (t t' : Totals) :
    connectSpend env ctx s pos tx t = .ok t' ↔ ∃ inputs nValueIn nValueOut q,
      fetchInputs ctx.disk ctx.pool s.tx t.mapQueuedChanges true tx = .ok inputs ∧
      t.nSigOps+p2shSigOpCount env inputs tx ≤ maxBlockSigOps ∧
      tx.getValueIn inputs = .ok nValueIn ∧ tx.getValueOut = .ok nValueOut ∧
      connectInputs env ctx.best inputs t.mapQueuedChanges pos ctx.ancestors true
        scriptVerifyNoCache tx = .ok q ∧
      t' = { t with
        mapQueuedChanges := q
        nSigOps := t.nSigOps+p2shSigOpCount env inputs tx
        nValueIn := t.nValueIn+nValueIn
        nValueOut := t.nValueOut+nValueOut
        nFees := if tx.isCoinStake then t.nFees else t.nFees+(nValueIn-nValueOut)
        nStakeReward := if tx.isCoinStake then nValueOut-nValueIn else t.nStakeReward } := by
  simp only [connectSpend, bind_ok, require_ok, decide_eq_true_eq, Except.ok.injEq]
  constructor
  · rintro ⟨inputs,hf,_,hs,nIn,hi,nOut,ho,q,hq,rfl⟩
    exact ⟨inputs,nIn,nOut,q,hf,hs,hi,ho,hq,rfl⟩
  · rintro ⟨inputs,nIn,nOut,q,hf,hs,hi,ho,hq,rfl⟩
    exact ⟨inputs,hf,(),hs,nIn,hi,nOut,ho,q,hq,rfl⟩

def counted (tx : CTransaction) (t : Totals) : Totals :=
  { t with
    nSigOps := t.nSigOps+legacySigOpCount env tx
    nTxPos := nextTxPos env ctx t.nTxPos tx }

theorem connect_tx_ok (tx : CTransaction) (t t' : Totals) :
    connectTx env ctx s tx t = .ok t' ↔ overwrites s (env.hashTx tx) = false ∧
      t.nSigOps+legacySigOpCount env tx ≤ maxBlockSigOps ∧
      ∃ t1, connectSpendOrMint env ctx s (posOf ctx t.nTxPos) tx (counted env ctx tx t) = .ok t1 ∧
        t' = { t1 with
          mapQueuedChanges := t1.mapQueuedChanges.insert (env.hashTx tx)
            (.fresh (posOf ctx t.nTxPos) tx.vout.length) } := by
  simp only [connectTx, then_ok, require_ok, decide_eq_true_eq, Bool.not_eq_true']
  rw [bind_ok]
  simp only [Except.ok.injEq]
  constructor
  · rintro ⟨ho,hs,t1,h1,rfl⟩
    exact ⟨ho,hs,t1,h1,rfl⟩
  · rintro ⟨ho,hs,t1,h1,rfl⟩
    exact ⟨ho,hs,t1,h1,rfl⟩

theorem connect_spend_or_mint_effect {pos : CDiskTxPos} {tx : CTransaction} {t t' : Totals}
    (h : connectSpendOrMint env ctx s pos tx t = .ok t') :
    queued t'.mapQueuedChanges s.tx = mark pos (spent tx) (queued t.mapQueuedChanges s.tx) ∧
      (∀ o ∈ spent tx, slot (queued t.mapQueuedChanges s.tx) o = some .null) ∧
      t'.nTxPos = t.nTxPos := by
  unfold connectSpendOrMint at h
  split_ifs at h with hc
  · cases hv : tx.getValueOut with
    | error f => simp [hv, Except.map] at h
    | ok v =>
      simp only [hv, Except.map, Except.ok.injEq] at h
      subst h
      simp [spent, hc, mark_nil]
  · obtain ⟨inputs,nIn,nOut,q,hf,_,_,_,hq,rfl⟩ := (connect_spend_ok env ctx s pos tx t t').mp h
    have hin := fetch_inputs_ok _ _ _ hf
    have hconn := connect_inputs_ok env hin hq
    exact ⟨hconn.1,hconn.2,rfl⟩

theorem connect_tx_effect {tx : CTransaction} {t t' : Totals}
    (h : connectTx env ctx s tx t = .ok t') :
    queued t'.mapQueuedChanges s.tx =
        connectEffect env (posOf ctx t.nTxPos,tx) (queued t.mapQueuedChanges s.tx) ∧
      (∀ o ∈ spent tx, slot (queued t.mapQueuedChanges s.tx) o = some .null) ∧
      t'.nTxPos = nextTxPos env ctx t.nTxPos tx := by
  obtain ⟨_,_,t1,h1,rfl⟩ := (connect_tx_ok env ctx s tx t t').mp h
  obtain ⟨hq,hs,hn⟩ := connect_spend_or_mint_effect env ctx s h1
  refine ⟨?_,hs,hn⟩
  rw [queued_insert, hq]
  rfl

def AllFree : List Placed → TxIndex → Prop :=
  AllowedAll (connectEffect env) (fun a e => ∀ o ∈ spent a.2, slot e o = some .null)

theorem connect_txs_effect {txs : List CTransaction} (t t' : Totals)
    (h : connectTxs env ctx s txs t = .ok t') :
    queued t'.mapQueuedChanges s.tx =
        doAll (connectEffect env) (placed env ctx t.nTxPos txs) (queued t.mapQueuedChanges s.tx) ∧
      AllFree env (placed env ctx t.nTxPos txs) (queued t.mapQueuedChanges s.tx) := by
  induction txs generalizing t with
  | nil =>
    rw [connectTxs, Except.ok.injEq] at h
    subst h
    exact ⟨rfl,trivial⟩
  | cons tx txs ih =>
    obtain ⟨t1,h1,h⟩ := (bind_ok _ _ _).mp h
    obtain ⟨hq,hs,hn⟩ := connect_tx_effect env ctx s h1
    obtain ⟨hq',hs'⟩ := ih t1 h
    rw [hq, hn] at hq' hs'
    exact ⟨hq',⟨hs,hs'⟩⟩

end Block

theorem write_queued_tx {es : List (Sigma (fun _ : Uint256 => CTxIndex))} (hk : es.NodupKeys)
    (s : Store) (k : Uint256) : (writeQueued es s).tx k = (es.dlookup k).or (s.tx k) := by
  induction es generalizing s with
  | nil => rfl
  | cons e es ih =>
    obtain ⟨j,i⟩ := e
    rw [List.nodupKeys_cons] at hk
    rw [writeQueued, ih hk.2, Store.tx_update]
    by_cases hj : k = j
    · subst hj
      rw [List.dlookup_eq_none.mpr hk.1, List.dlookup_cons_eq]
      simp
    · rw [List.dlookup_cons_ne _ _ hj, if_neg hj]

theorem write_queue (q : TxIndexMap) (s : Store) :
    (writeQueued q.entries s).tx = queued q s.tx := by
  funext k
  exact write_queued_tx q.nodupKeys s k

theorem write_addrs_tx (hash : Uint256) (as : List Uint160) (s : Store) :
    (writeAddrs hash as s).tx = s.tx := by
  induction as generalizing s with
  | nil => rfl
  | cons a as ih => rw [writeAddrs, ih, Store.write_addr_index_tx]

theorem write_addr_indexes_tx {ctx : ConnectContext} {txs : List CTransaction} (s s' : Store)
    (h : writeAddrIndexes env ctx txs s = .ok s') : s'.tx = s.tx := by
  induction txs generalizing s with
  | nil =>
    rw [writeAddrIndexes, Except.ok.injEq] at h
    rw [h]
  | cons tx txs ih =>
    obtain ⟨s1,h1,h⟩ := (bind_ok _ _ _).mp h
    obtain ⟨_,_,h1⟩ := (bind_ok _ _ _).mp h1
    rw [Except.ok.injEq] at h1
    rw [ih s1 h, ← h1, write_addrs_tx]

theorem link_on_disk_tx (pprev : Option CBlockIndex) (hashNext : Uint256) (s : Store) :
    (linkOnDisk pprev hashNext s).tx = s.tx := by cases pprev <;> rfl

theorem connect_block_effect {ctx : ConnectContext} {amb : Ambient} {pprev : Option CBlockIndex}
    {b : CBlock} {s s' : Store} (hreal : ctx.fJustCheck = false)
    (h : connectBlock env ctx amb pprev b s = .ok s') :
    let txs := placed env ctx (firstTxPos ctx.pindex.nBlockPos b false) b.vtx
    s'.tx = doAll (connectEffect env) txs s.tx ∧ AllFree env txs s.tx ∧
      (b.vtx.map env.hashTx).Nodup := by
  obtain ⟨t,ht,hw⟩ := (bind_ok _ _ _).mp h
  rw [connectChecks] at ht
  obtain ⟨hcheck,ht⟩ := (then_ok _ _ _).mp ht
  obtain ⟨t1,htxs,ht⟩ := (bind_ok _ _ _).mp ht
  obtain ⟨_,ht⟩ := (then_ok _ _ _).mp ht
  rw [Except.ok.injEq] at ht
  subst ht
  obtain ⟨hq,hfree⟩ := connect_txs_effect env ctx s _ t1 htxs
  simp only [noTotals, queued_empty, hreal] at hq hfree
  refine ⟨?_,hfree,?_⟩
  · rw [← hq]
    simp only [connectWrites, hreal, Bool.false_eq_true, if_false] at hw
    obtain ⟨s1,h1,hw⟩ := (bind_ok _ _ _).mp hw
    rw [Except.ok.injEq] at hw
    rw [← hw, link_on_disk_tx, write_addr_indexes_tx env _ s1 h1, write_queue,
      Store.write_block_index_tx]
  · simp only [checkBlock, then_ok, require_ok, decide_eq_true_eq] at hcheck
    exact hcheck.2.2.2.2.2.2.2.2.2.1

end SwippCore.ConnectEffect

namespace SwippCore.IndexInverse
open Checks Undo IndexEffect ConnectEffect

variable (env : Env)

theorem connect_effect_none {a : Placed} (e : TxIndex) {k : Uint256} (hk : k ≠ env.hashTx a.2) :
    connectEffect env a e k = none ↔ e k = none := by
  rw [connectEffect, Function.update_of_ne hk, mark_none]

/-- Distinct transactions that are new to the index at first stay new to it until
their turn comes. -/
theorem all_connectable {as : List Placed} (e : TxIndex)
    (hd : (as.map (fun a => env.hashTx a.2)).Nodup) (hnew : ∀ a ∈ as, e (env.hashTx a.2) = none)
    (hfree : AllFree env as e) : AllowedAll (connectEffect env) (Connectable env) as e := by
  induction as generalizing e with
  | nil => trivial
  | cons a as ih =>
    rw [List.map_cons, List.nodup_cons] at hd
    refine ⟨⟨hnew a List.mem_cons_self,hfree.1⟩,ih _ hd.2 ?_ hfree.2⟩
    intro c hc
    have hne : env.hashTx c.2 ≠ env.hashTx a.2 := by
      intro heq
      exact hd.1 (heq ▸ List.mem_map_of_mem hc)
    rw [connect_effect_none env e hne]
    exact hnew c (List.mem_cons_of_mem a hc)

def storeEffect (a : Placed) (s : Store) : Store := { s with tx := connectEffect env a s.tx }

variable (as : List Placed)

theorem do_all_store (s : Store) :
    doAll (storeEffect env) as s = { s with tx := doAll (connectEffect env) as s.tx } := by
  induction as generalizing s with
  | nil => rfl
  | cons a as ih => rw [doAll, ih]; rfl

theorem allowed_all_store (s : Store) :
    AllowedAll (storeEffect env) (fun a s => Connectable env a s.tx) as s ↔
      AllowedAll (connectEffect env) (Connectable env) as s.tx := by
  induction as generalizing s with
  | nil => rfl
  | cons a as ih => exact and_congr Iff.rfl (ih (storeEffect env a s))

theorem disconnect_txs_undo (s : Store) :
    disconnectTxs env (as.map Prod.snd) s = undoAll (fun a => disconnectInputs env a.2) as s := by
  induction as generalizing s with
  | nil => rfl
  | cons a as ih =>
    rw [List.map_cons, disconnectTxs, undoAll]
    cases disconnectInputs env a.2 s with
    | error f => rfl
    | ok t => exact ih t

theorem disconnect_txs_effect {as : List Placed} {e : TxIndex} {s : Store}
    (h : AllowedAll (connectEffect env) (Connectable env) as e)
    (hs : s.tx = doAll (connectEffect env) as e) :
    disconnectTxs env (as.map Prod.snd).reverse s = .ok { s with tx := e } := by
  have hundo := undo_all_do_all (fun a => disconnectInputs env a.2)
    (fun a s ha => disconnect_inputs_effect env ha rfl)
    { s with tx := e } ((allowed_all_store env as _).mpr h)
  rw [do_all_store] at hundo
  rw [← List.map_reverse, disconnect_txs_undo, ← hundo]
  congr 1
  rw [← hs]

/-- A block that was connected is disconnected without an error, and leaves every
entry of the transaction index as it was. -/
theorem disconnect_restores_index (ctx : ConnectContext) (amb : Ambient)
    (pprev : Option CBlockIndex) (b : CBlock) (s s' : Store) (hreal : ctx.fJustCheck = false)
    (h : connectBlock env ctx amb pprev b s = .ok s')
    (hnew : ∀ tx ∈ b.vtx, s.tx (env.hashTx tx) = none) :
    ∃ s'', disconnectBlock env pprev b s' = .ok s'' ∧ ∀ txid, s''.tx txid = s.tx txid := by
  obtain ⟨htx,hfree,hd⟩ := connect_block_effect env hreal h
  have hsnd := placed_snd env ctx (firstTxPos ctx.pindex.nBlockPos b false) b.vtx
  have hall : AllowedAll (connectEffect env) (Connectable env)
      (placed env ctx (firstTxPos ctx.pindex.nBlockPos b false) b.vtx) s.tx := by
    apply all_connectable env _ _ _ hfree
    · rw [← hsnd, List.map_map] at hd
      exact hd
    · intro a ha
      apply hnew
      rw [← hsnd]
      exact List.mem_map_of_mem ha
  have hdis := disconnect_txs_effect env hall htx
  rw [hsnd] at hdis
  refine ⟨linkOnDisk pprev 0 { s' with tx := s.tx },?_,?_⟩
  · rw [disconnectBlock, hdis]
    rfl
  · intro txid
    rw [link_on_disk_tx]

section Sample

def sampleIndex : CBlockIndex :=
  ⟨5,some 4,none,2,1000,0,101,0,0,0,0,.null,0,0,1,0,10,0x1e7fffff,0⟩

def sampleOut (nCoins : ℤ) : CTxOut := ⟨nCoins*coin,[1]⟩

def sampleIn (hash : Uint256) (n : ℕ) : CTxIn := ⟨⟨hash,n⟩,[],0⟩

def sampleCoinBase : CTransaction := ⟨1,4,[⟨.null,[1,1],0⟩],[sampleOut 48],0⟩

def sampleFund : CTransaction := ⟨1,1,[sampleIn 9 0],[sampleOut 10,sampleOut 10],0⟩

def sampleJoin : CTransaction :=
  ⟨1,2,[sampleIn 1 0,sampleIn 1 1],[sampleOut 9,sampleOut 9],0⟩

def sampleNext : CTransaction := ⟨1,3,[sampleIn 2 1],[sampleOut 8],0⟩

def sampleBlock : CBlock :=
  ⟨1,4,12,10,0x1e7fffff,0,[sampleCoinBase,sampleJoin,sampleNext],[]⟩

def sampleDisk : Disk where
  readTx p :=
    if p = .onDisk 2 0 0 then some sampleFund
    else if p = .onDisk 2 1000 1181 then some sampleJoin else none
  readBlock _ _ := none
  readBlockTime _ _ := none

def sampleContext : ConnectContext where
  best := ⟨some { sampleIndex with hashBlock := 4, nHeight := 100 },100⟩
  disk := sampleDisk
  pool _ := none
  pindex := sampleIndex
  ancestors := [sampleIndex]
  fJustCheck := false

def sampleAmbient : Ambient := ⟨0,0,∅,fun _ => none,none,0⟩

def sampleStore : Store :=
  Store.empty.updateTxIndex 1 (.fresh (.onDisk 2 0 0) 2)

end Sample

/-- A block with a join and a chain of two transactions is connected and taken back. -/
theorem join_and_chain_restored :
    ∃ s', connectBlock sampleEnv sampleContext sampleAmbient none sampleBlock sampleStore = .ok s' ∧
      ∃ s'', disconnectBlock sampleEnv none sampleBlock s' = .ok s'' ∧
        ∀ txid, s''.tx txid = sampleStore.tx txid := by
  obtain ⟨s',h⟩ := of_is_ok (connectBlock sampleEnv sampleContext sampleAmbient none sampleBlock
    sampleStore) (by decide +kernel)
  exact ⟨s',h,disconnect_restores_index sampleEnv sampleContext sampleAmbient none
    sampleBlock sampleStore s' rfl h (by decide)⟩

end SwippCore.IndexInverse
