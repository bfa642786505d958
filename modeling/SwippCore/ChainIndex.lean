import SwippCore.BlockValues

/-!
# The index of a chain

Connecting reads the same through the queue as through the database, so the index of a chain
is determined by its blocks.
-/

set_option autoImplicit false

namespace SwippCore.SameView
open FinMap Undo IndexEffect ConnectEffect TwoRuns

variable (env : Env) (ctx ctx' : ConnectContext)

def tipHeight (anc : List CBlockIndex) : ℤ := (anc.head?.map CBlockIndex.nHeight).getD 0

structure SameEntry (i i' : CTxIndex) : Prop where
  onDisk : i.pos ≠ .memPool ∧ i'.pos ≠ .memPool
  read : ctx.disk.readTx i.pos = ctx'.disk.readTx i'.pos
  free : i.vSpent.map CDiskTxPos.isNull = i'.vSpent.map CDiskTxPos.isNull
  depth : withinMaturity env i.pos (tipHeight ctx.ancestors) ctx.ancestors =
    withinMaturity env i'.pos (tipHeight ctx'.ancestors) ctx'.ancestors

def SameIndex (e e' : TxIndex) : Prop := ∀ k, Option.Rel (SameEntry env ctx ctx') (e k) (e' k)

def SameFetched (p p' : CTxIndex × CTransaction) : Prop :=
  SameEntry env ctx ctx' p.1 p'.1 ∧ p.2 = p'.2

def SameInputs (inputs inputs' : MapPrevTx) : Prop :=
  ∀ k, Option.Rel (SameFetched env ctx ctx') (inputs.lookup k) (inputs'.lookup k)

section
variable {i i' : CTxIndex} (h : SameEntry env ctx ctx' i i')
include i' h

theorem same_entry_length :
    i.vSpent.length = i'.vSpent.length := by
  have hl := congrArg List.length h.free
  simpa using hl

theorem same_entry_slot (n : ℕ) :
    (i.vSpent[n]?).map CDiskTxPos.isNull = (i'.vSpent[n]?).map CDiskTxPos.isNull := by
  have hn := congrArg (fun l => l[n]?) h.free
  simpa using hn

/-- Marking a slot on both sides, with positions that are both null or both not. -/
theorem same_entry_set (n : ℕ)
    {v v' : CDiskTxPos} (hv : v.isNull = v'.isNull) :
    SameEntry env ctx ctx' { i with vSpent := i.vSpent.set n v }
      { i' with vSpent := i'.vSpent.set n v' } := by
  refine ⟨h.onDisk,h.read,?_,h.depth⟩
  rw [List.map_set, List.map_set, h.free, hv]

end

theorem same_inputs_insert {inputs inputs' : MapPrevTx} (k : Uint256)
    {p p' : CTxIndex × CTransaction} (h : SameInputs env ctx ctx' inputs inputs')
    (hp : SameFetched env ctx ctx' p p') :
    SameInputs env ctx ctx' (inputs.insert k p) (inputs'.insert k p') := by
  intro j
  rw [lookup_insert_if, lookup_insert_if]
  split_ifs
  · exact .some hp
  · exact h j

theorem same_index_update {e e' : TxIndex} (k : Uint256) {i i' : CTxIndex}
    (h : SameIndex env ctx ctx' e e') (hi : SameEntry env ctx ctx' i i') :
    SameIndex env ctx ctx' (Function.update e k (some i)) (Function.update e' k (some i')) := by
  intro j
  rw [Function.update_apply, Function.update_apply]
  split_ifs
  · exact .some hi
  · exact h j

section Fetch
variable (e e' : TxIndex) (q q' : TxIndexMap)

theorem fetch_prev_agree (h : SameIndex env ctx ctx' (queued q e) (queued q' e')) (k : Uint256) :
    Agree (SameFetched env ctx ctx') (fetchPrev ctx.disk ctx.pool e q true k)
      (fetchPrev ctx'.disk ctx'.pool e' q' true k) := by
  rw [fetch_prev_queued, fetch_prev_queued]
  rcases rel_cases (h k) with ⟨hi,hi'⟩ | ⟨i,i',hi,hi',hs⟩
  · rw [hi, hi']
    trivial
  · rw [hi, hi']
    simp only [readPrev, hs.onDisk.1, hs.onDisk.2, if_false, hs.read]
    cases ctx'.disk.readTx i'.pos with
    | none => trivial
    | some tx => exact ⟨hs,rfl⟩

theorem fetch_prevs_agree (h : SameIndex env ctx ctx' (queued q e) (queued q' e'))
    (os : List COutPoint) (inputs inputs' : MapPrevTx)
    (hin : SameInputs env ctx ctx' inputs inputs') :
    Agree (SameInputs env ctx ctx') (fetchPrevs ctx.disk ctx.pool e q true os inputs)
      (fetchPrevs ctx'.disk ctx'.pool e' q' true os inputs') := by
  induction os generalizing inputs inputs' with
  | nil => exact hin
  | cons o os ih =>
    have hmem : o.hash ∈ inputs ↔ o.hash ∈ inputs' := by
      rw [mem_iff_lookup, mem_iff_lookup]
      rcases rel_cases (hin o.hash) with ⟨hl,hl'⟩ | ⟨p,p',hl,hl',_⟩ <;> simp [hl,hl']
    rw [fetchPrevs, fetchPrevs]
    by_cases hm : o.hash ∈ inputs
    · rw [if_pos hm, if_pos (hmem.mp hm)]
      exact ih inputs inputs' hin
    · rw [if_neg hm, if_neg (fun h => hm (hmem.mpr h))]
      apply agree_bind (fetch_prev_agree env ctx ctx' e e' q q' h o.hash)
      intro p p' hp
      exact ih _ _ (same_inputs_insert env ctx ctx' o.hash hin hp)

theorem output_exists_same {inputs inputs' : MapPrevTx}
    (hin : SameInputs env ctx ctx' inputs inputs') (o : COutPoint) :
    outputExists inputs o = outputExists inputs' o := by
  unfold outputExists
  rcases rel_cases (hin o.hash) with ⟨hl,hl'⟩ | ⟨p,p',hl,hl',hs⟩
  · simp only [hl, hl']
  · simp only [hl, hl', hs.2, same_entry_length env ctx ctx' hs.1]

theorem fetch_inputs_agree (h : SameIndex env ctx ctx' (queued q e) (queued q' e'))
    (tx : CTransaction) :
    Agree (SameInputs env ctx ctx') (fetchInputs ctx.disk ctx.pool e q true tx)
      (fetchInputs ctx'.disk ctx'.pool e' q' true tx) := by
  have hempty : SameInputs env ctx ctx' ∅ ∅ := by
    intro k
    simp
  unfold fetchInputs
  split_ifs
  · exact hempty
  · apply agree_bind (fetch_prevs_agree env ctx ctx' e e' q q' h tx.prevouts ∅ ∅ hempty)
    intro inputs inputs' hin
    apply agree_bind (R := fun _ _ => True)
    · apply agree_for_each
      intro o _
      exact agree_require (output_exists_same env ctx ctx' hin o)
    · intro _ _ _
      exact hin

end Fetch

section Inputs
variable (inputs : MapPrevTx) {inputs' : MapPrevTx}

section
variable (hin : SameInputs env ctx ctx' inputs inputs')
include hin

theorem output_for_same (o : COutPoint) :
    getOutputFor inputs o = getOutputFor inputs' o := by
  unfold getOutputFor
  rcases rel_cases (hin o.hash) with ⟨hl,hl'⟩ | ⟨p,p',hl,hl',hs⟩
  · rw [hl, hl']
  · simp only [hl, hl', Option.bind_some, hs.2]

theorem value_in_same (tx : CTransaction) :
    tx.getValueIn inputs = tx.getValueIn inputs' := by
  have hos : ∀ os, valueInOf inputs os = valueInOf inputs' os := by
    intro os
    induction os with
    | nil => rfl
    | cons o os ih => rw [valueInOf, valueInOf, ih, output_for_same env ctx ctx' _ hin o]
  rw [CTransaction.getValueIn, CTransaction.getValueIn, hos]

theorem p2sh_same (tx : CTransaction) :
    p2shSigOpCount env inputs tx = p2shSigOpCount env inputs' tx := by
  have hg : getOutputFor inputs = getOutputFor inputs' :=
    funext (output_for_same env ctx ctx' inputs hin)
  rw [p2shSigOpCount, p2shSigOpCount, hg]

theorem check_prevs_agree (tx : CTransaction)
    (v : ℤ) (os : List COutPoint) :
    Agree Eq (checkPrevs env inputs tx ctx.ancestors v os)
      (checkPrevs env inputs' tx ctx'.ancestors v os) := by
  induction os generalizing v with
  | nil => rfl
  | cons o os ih =>
    rw [checkPrevs, checkPrevs]
    rcases rel_cases (hin o.hash) with ⟨hl,hl'⟩ | ⟨⟨i,txPrev⟩,⟨i',txPrev'⟩,hl,hl',hi,htx⟩
    · rw [hl, hl']
      trivial
    · simp only at htx hi
      subst htx
      have hdepth := hi.depth
      unfold tipHeight at hdepth
      simp only [hl, hl', same_entry_length env ctx ctx' hi, hdepth]
      cases txPrev.vout[o.n]? with
      | none => trivial
      | some out =>
        apply agree_bind (agree_require rfl)
        intro _ _ _
        apply agree_bind (agree_require rfl)
        intro _ _ _
        apply agree_bind (agree_require rfl)
        intro _ _ _
        apply agree_bind (agree_require rfl)
        intro _ _ _
        exact ih _

end

end Inputs

theorem spend_prevs_agree (tx : CTransaction) {pos pos' : CDiskTxPos}
    (hpos : pos.isNull = pos'.isNull) (flags : ℕ) (skip : Bool) (n : ℕ) (os : List COutPoint)
    {inputs inputs' : MapPrevTx} {q q' : TxIndexMap} {e e' : TxIndex}
    (hin : SameInputs env ctx ctx' inputs inputs')
    (h : SameIndex env ctx ctx' (queued q e) (queued q' e')) :
    Agree (fun r r' => SameIndex env ctx ctx' (queued r e) (queued r' e'))
      (spendPrevs env tx pos true flags skip n os inputs q)
      (spendPrevs env tx pos' true flags skip n os inputs' q') := by
  induction os generalizing n inputs inputs' q q' with
  | nil => exact h
  | cons o os ih =>
    rw [spendPrevs, spendPrevs]
    rcases rel_cases (hin o.hash) with ⟨hl,hl'⟩ | ⟨⟨i,txPrev⟩,⟨i',txPrev'⟩,hl,hl',hi,htx⟩
    · rw [hl, hl']
      trivial
    · simp only at htx hi
      subst htx
      simp only [hl, hl', same_entry_slot env ctx ctx' hi, if_true]
      apply agree_bind (agree_require rfl)
      intro _ _ _
      apply agree_bind (agree_eq _)
      intro _ _ _
      have hset := same_entry_set env ctx ctx' hi o.n hpos
      apply ih
      · exact same_inputs_insert env ctx ctx' o.hash hin ⟨hset,rfl⟩
      · rw [queued_insert, queued_insert]
        exact same_index_update env ctx ctx' o.hash h hset

def SameSkip : Prop := ctx.best.nBestHeight < env.totalBlocksEstimate ↔
  ctx'.best.nBestHeight < env.totalBlocksEstimate

theorem connect_inputs_agree (hskip : SameSkip env ctx ctx') (tx : CTransaction)
    {pos pos' : CDiskTxPos} (hpos : pos.isNull = pos'.isNull) (flags : ℕ)
    {inputs inputs' : MapPrevTx} {q q' : TxIndexMap} {e e' : TxIndex}
    (hin : SameInputs env ctx ctx' inputs inputs')
    (h : SameIndex env ctx ctx' (queued q e) (queued q' e')) :
    Agree (fun r r' => SameIndex env ctx ctx' (queued r e) (queued r' e'))
      (connectInputs env ctx.best inputs q pos ctx.ancestors true flags tx)
      (connectInputs env ctx'.best inputs' q' pos' ctx'.ancestors true flags tx) := by
  unfold connectInputs
  split_ifs
  · exact h
  · apply agree_bind (check_prevs_agree env ctx ctx' inputs hin tx 0 tx.prevouts)
    intro v v' hv
    subst hv
    have hb : decide (ctx.best.nBestHeight < env.totalBlocksEstimate) =
        decide (ctx'.best.nBestHeight < env.totalBlocksEstimate) := decide_eq_decide.mpr hskip
    rw [hb]
    apply agree_bind (spend_prevs_agree env ctx ctx' tx hpos flags _ 0 tx.prevouts
       hin h)
    intro r r' hr
    apply agree_bind (agree_eq _)
    intro _ _ _
    exact hr

structure SameTotals (e e' : TxIndex) (t t' : Totals) : Prop where
  queue : SameIndex env ctx ctx' (queued t.mapQueuedChanges e) (queued t'.mapQueuedChanges e')
  nSigOps : t.nSigOps = t'.nSigOps

structure SamePlace (a a' : Placed) : Prop where
  tx : a.2 = a'.2
  notNull : a.1.isNull = a'.1.isNull
  onDisk : a.1 ≠ .memPool ∧ a'.1 ≠ .memPool
  read : ctx.disk.readTx a.1 = ctx'.disk.readTx a'.1
  depth : withinMaturity env a.1 (tipHeight ctx.ancestors) ctx.ancestors =
    withinMaturity env a'.1 (tipHeight ctx'.ancestors) ctx'.ancestors

theorem same_place_fresh {a a' : Placed} (h : SamePlace env ctx ctx' a a') :
    SameEntry env ctx ctx' (.fresh a.1 a.2.vout.length) (.fresh a'.1 a'.2.vout.length) := by
  refine ⟨h.onDisk,h.read,?_,h.depth⟩
  rw [h.tx]
  rfl

section Txs
variable (s s' : Store)

section
variable (hskip : SameSkip env ctx ctx') {pos pos' : CDiskTxPos} (hpos : pos.isNull = pos'.isNull)
  (tx : CTransaction) {t t' : Totals} (ht : SameTotals env ctx ctx' s.tx s'.tx t t')
include hskip hpos ht

theorem connect_spend_agree :
    Agree (SameTotals env ctx ctx' s.tx s'.tx) (connectSpend env ctx s pos tx t)
      (connectSpend env ctx' s' pos' tx t') := by
  rw [connectSpend, connectSpend]
  apply agree_bind (fetch_inputs_agree env ctx ctx' s.tx s'.tx _ _ ht.queue tx)
  intro inputs inputs' hin
  simp only [ht.nSigOps, p2sh_same env ctx ctx' inputs hin tx,
    value_in_same env ctx ctx' inputs hin tx]
  apply agree_bind (agree_require rfl)
  intro _ _ _
  apply agree_bind (agree_eq _)
  intro nIn _ _
  apply agree_bind (agree_eq _)
  intro nOut _ _
  apply agree_bind (connect_inputs_agree env ctx ctx' hskip tx hpos scriptVerifyNoCache
     hin ht.queue)
  intro q q' hq
  exact ⟨hq,rfl⟩

theorem connect_spend_or_mint_agree :
    Agree (SameTotals env ctx ctx' s.tx s'.tx) (connectSpendOrMint env ctx s pos tx t)
      (connectSpendOrMint env ctx' s' pos' tx t') := by
  unfold connectSpendOrMint
  split_ifs
  · cases tx.getValueOut with
    | error f => trivial
    | ok v => exact ⟨ht.queue,ht.nSigOps⟩
  · exact connect_spend_agree env ctx ctx' s s' hskip hpos tx ht

end

theorem overwrites_same (hs : SameIndex env ctx ctx' s.tx s'.tx) (k : Uint256) : overwrites s k = overwrites s' k := by
  unfold overwrites
  rcases rel_cases (hs k) with ⟨he,he'⟩ | ⟨i,i',he,he',hi⟩
  · rw [he, he']
  · rw [he, he']
    have hany := congrArg (fun l => l.any id) hi.free
    simpa [List.any_map] using hany

theorem connect_tx_agree (hs : SameIndex env ctx ctx' s.tx s'.tx) (hskip : SameSkip env ctx ctx')
    {tx : CTransaction} {t t' : Totals}
    (hp : SamePlace env ctx ctx' (posOf ctx t.nTxPos,tx) (posOf ctx' t'.nTxPos,tx))
    (ht : SameTotals env ctx ctx' s.tx s'.tx t t') :
    Agree (SameTotals env ctx ctx' s.tx s'.tx) (connectTx env ctx s tx t)
      (connectTx env ctx' s' tx t') := by
  rw [connectTx, connectTx]
  simp only [overwrites_same env ctx ctx' s s' hs (env.hashTx tx), ht.nSigOps]
  apply agree_bind (agree_require rfl)
  intro _ _ _
  apply agree_bind (agree_require rfl)
  intro _ _ _
  refine agree_bind (connect_spend_or_mint_agree env ctx ctx' s s' hskip hp.notNull tx
    ?_) ?_
  · exact ⟨ht.queue,rfl⟩
  intro t1 t1' ht1
  refine ⟨?_,ht1.nSigOps⟩
  rw [queued_insert, queued_insert]
  exact same_index_update env ctx ctx' _ ht1.queue (same_place_fresh env ctx ctx' hp)

def SamePlaces (n n' : ℕ) (txs : List CTransaction) : Prop :=
  List.Forall₂ (SamePlace env ctx ctx') (placed env ctx n txs) (placed env ctx' n' txs)

theorem connect_txs_agree (hs : SameIndex env ctx ctx' s.tx s'.tx)
    (hskip : SameSkip env ctx ctx') (txs : List CTransaction) (t t' : Totals)
    (hp : SamePlaces env ctx ctx' t.nTxPos t'.nTxPos txs)
    (ht : SameTotals env ctx ctx' s.tx s'.tx t t') :
    Agree (SameTotals env ctx ctx' s.tx s'.tx) (connectTxs env ctx s txs t)
      (connectTxs env ctx' s' txs t') := by
  induction txs generalizing t t' with
  | nil => exact ht
  | cons tx txs ih =>
    obtain ⟨hhead,htail⟩ := List.forall₂_cons.mp hp
    have hx := connect_tx_agree env ctx ctx' s s' hs hskip hhead ht
    rw [connectTxs, connectTxs]
    cases h1 : connectTx env ctx s tx t with
    | error f =>
      cases h1' : connectTx env ctx' s' tx t' with
      | error f' => trivial
      | ok u => rw [h1, h1'] at hx; exact hx.elim
    | ok t1 =>
      cases h1' : connectTx env ctx' s' tx t' with
      | error f' => rw [h1, h1'] at hx; exact hx.elim
      | ok t1' =>
        rw [h1, h1'] at hx
        apply ih t1 t1' _ hx
        have hn := (connect_tx_effect env ctx s h1).2.2
        have hn' := (connect_tx_effect env ctx' s' h1').2.2
        rw [hn, hn']
        exact htail

end Txs

theorem write_addr_indexes_agree (txs : List CTransaction) (s s' : Store)
    (hs : SameIndex env ctx ctx' s.tx s'.tx) :
    Agree (fun _ _ => True) (writeAddrIndexes env ctx txs s) (writeAddrIndexes env ctx' txs s') := by
  induction txs generalizing s s' with
  | nil => trivial
  | cons tx txs ih =>
    rw [writeAddrIndexes, writeAddrIndexes]
    apply agree_bind (R := fun r r' => SameIndex env ctx ctx' r.tx r'.tx)
    · rw [writeAddrIndexOf, writeAddrIndexOf]
      have hq : SameIndex env ctx ctx' (queued ∅ s.tx) (queued ∅ s'.tx) := by
        rw [queued_empty, queued_empty]
        exact hs
      apply agree_bind (fetch_inputs_agree env ctx ctx' s.tx s'.tx ∅ ∅ hq tx)
      intro inputs inputs' _
      change SameIndex env ctx ctx' (writeAddrs _ _ s).tx (writeAddrs _ _ s').tx
      rw [write_addrs_tx, write_addrs_tx]
      exact hs
    · intro r r' hr
      exact ih r r' hr

end SwippCore.SameView

namespace SwippCore.ChainIndex
open Undo IndexEffect ConnectEffect SameView

abbrev Indexed := CBlockIndex × CBlock

variable (env : Env)

def placedFrom (i : CBlockIndex) : ℕ → List CTransaction → List Placed
  | _, [] => []
  | n, tx::txs => (.ofFile i.nFile i.nBlockPos n,tx)::placedFrom i (n+env.txSize tx) txs

def placedIn (p : Indexed) : List Placed :=
  placedFrom env p.1 (firstTxPos p.1.nBlockPos p.2 false) p.2.vtx

def blockEffect (p : Indexed) : TxIndex → TxIndex := doAll (connectEffect env) (placedIn env p)

def emptyIndex : TxIndex := fun _ => none

def chainIndex (P : List Indexed) : TxIndex := doAll (blockEffect env) P emptyIndex

variable {ctx : ConnectContext}

theorem placed_eq (hreal : ctx.fJustCheck = false) (n : ℕ) (txs : List CTransaction) :
    placed env ctx n txs = placedFrom env ctx.pindex n txs := by
  induction txs generalizing n with
  | nil => rfl
  | cons tx txs ih =>
    have hn : nextTxPos env ctx n tx = n+env.txSize tx := by simp [nextTxPos, hreal]
    rw [placed, placedFrom, ih, hn]
    rfl

theorem placed_in_eq (ctx : ConnectContext) (hreal : ctx.fJustCheck = false) (b : CBlock) :
    placed env ctx (firstTxPos ctx.pindex.nBlockPos b ctx.fJustCheck) b.vtx =
      placedIn env (ctx.pindex,b) := by
  rw [placed_eq env hreal, hreal]
  rfl

theorem placed_from_pos {i : CBlockIndex} (hi : i.nFile ≠ uintMax) (n : ℕ) {txs : List CTransaction}
    {a : Placed} (ha : a ∈ placedFrom env i n txs) :
    ∃ m, n ≤ m ∧ a.1 = .onDisk i.nFile i.nBlockPos m := by
  induction txs generalizing n with
  | nil => simp [placedFrom] at ha
  | cons tx txs ih =>
    rcases List.mem_cons.mp ha with rfl | ha
    · exact ⟨n,Nat.le_refl n,by simp [CDiskTxPos.ofFile, hi]⟩
    · obtain ⟨m,hm,hp⟩ := ih _ ha
      exact ⟨m,by omega,hp⟩

theorem placed_in_pos {p : Indexed} (hp : p.1.nFile ≠ uintMax) {a : Placed}
    (ha : a ∈ placedIn env p) : ∃ m, 1 < m ∧ a.1 = .onDisk p.1.nFile p.1.nBlockPos m := by
  obtain ⟨m,hm,hpos⟩ := placed_from_pos env hp _ ha
  refine ⟨m,?_,hpos⟩
  simp only [firstTxPos, Bool.false_eq_true, if_false] at hm
  omega

section Two
variable (ctx ctx' : ConnectContext)

theorem same_entry_mark {i i' : CTxIndex} (h : SameEntry env ctx ctx' i i') (k : Uint256)
    {v v' : CDiskTxPos} (hv : v.isNull = v'.isNull) (os : List COutPoint) :
    SameEntry env ctx ctx' (markEntry k v os i) (markEntry k v' os i') := by
  refine ⟨h.onDisk,h.read,?_,h.depth⟩
  apply List.ext_getElem?
  intro n
  have hn := same_entry_slot env ctx ctx' h n
  simp only [markEntry, List.getElem?_map, List.getElem?_mapIdx]
  split_ifs
  · cases hi : i.vSpent[n]? <;> cases hi' : i'.vSpent[n]? <;> simp [hi, hi'] at hn ⊢
    exact hv
  · simpa using hn

theorem connect_effect_same {a a' : Placed} (ha : SamePlace env ctx ctx' a a') {e e' : TxIndex}
    (h : SameIndex env ctx ctx' e e') :
    SameIndex env ctx ctx' (connectEffect env a e) (connectEffect env a' e') := by
  rw [connectEffect, connectEffect, ← ha.tx]
  apply same_index_update
  · intro k
    rcases TwoRuns.rel_cases (h k) with ⟨he,he'⟩ | ⟨i,i',he,he',hi⟩
    · rw [mark, mark, he, he']
      exact .none
    · rw [mark, mark, he, he']
      exact .some (same_entry_mark env ctx ctx' hi k ha.notNull _)
  · have hf := same_place_fresh env ctx ctx' ha
    rw [← ha.tx] at hf
    exact hf

theorem do_all_same {as as' : List Placed} (ha : List.Forall₂ (SamePlace env ctx ctx') as as')
    (e e' : TxIndex) (h : SameIndex env ctx ctx' e e') :
    SameIndex env ctx ctx' (doAll (connectEffect env) as e) (doAll (connectEffect env) as' e') := by
  induction ha generalizing e e' with
  | nil => exact h
  | cons hp _ ih => exact ih _ _ (connect_effect_same env ctx ctx' hp h)

theorem chain_same (P P' : List Indexed)
    (hP : List.Forall₂ (fun p p' =>
      List.Forall₂ (SamePlace env ctx ctx') (placedIn env p) (placedIn env p')) P P')
    (e e' : TxIndex) (h : SameIndex env ctx ctx' e e') :
    SameIndex env ctx ctx' (doAll (blockEffect env) P e) (doAll (blockEffect env) P' e') := by
  induction hP generalizing e e' with
  | nil => exact h
  | cons hp _ ih => exact ih _ _ (do_all_same env ctx ctx' hp e e' h)

end Two

/-- The walk of the maturity test finds a block at depth `m` exactly where that is
less than the maturity. -/
theorem within_maturity_at (pos : CDiskTxPos) {nHeight : ℤ} (d : ℕ) {anc : List CBlockIndex}
    (hh : ∀ (n : ℕ) (i : CBlockIndex), anc[n]? = some i → nHeight-i.nHeight = (d : ℤ)+n) (m : ℕ)
    (hm : ∀ (n : ℕ) (i : CBlockIndex), anc[n]? = some i →
      (pos.inBlock i.nFile i.nBlockPos = true ↔ n = m))
    (hlen : m < anc.length) :
    withinMaturity env pos nHeight anc = decide ((d : ℤ)+m < env.nCoinbaseMaturity) := by
  induction anc generalizing d m with
  | nil => simp at hlen
  | cons i is ih =>
    have h0 := hh 0 i rfl
    have hm0 := hm 0 i rfl
    rw [withinMaturity, h0]
    cases m with
    | zero =>
      rw [hm0.mpr rfl]
      simp
    | succ m =>
      have hno : pos.inBlock i.nFile i.nBlockPos = false := by
        cases hb : pos.inBlock i.nFile i.nBlockPos with
        | false => rfl
        | true => exact absurd (hm0.mp hb) (by omega)
      have hrest := ih (d+1)
        (fun n j hj => by have := hh (n+1) j (by simpa using hj); push_cast at this ⊢; omega) m
        (fun n j hj => by rw [hm (n+1) j (by simpa using hj)]; omega)
        (by simpa using hlen)
      rw [hno, Bool.false_or, hrest]
      split_ifs with hd
      · apply decide_eq_decide.mpr
        push_cast
        omega
      · symm
        apply decide_eq_false
        push_cast at hd ⊢
        omega

/-- The index of a node reflects exactly the chain below a block, and the block
files hold that chain and the block. The chain is given from the parent of the
block down to the first block, whose transactions are not in the index. -/
structure Reflects (ctx : ConnectContext) (s : Store) (b : CBlock) (P : List Indexed) : Prop where
  index : s.tx = chainIndex env P.reverse.tail
  ancestors : ctx.ancestors = ((ctx.pindex,b)::P).map Prod.fst
  heights : ∀ (n : ℕ) p, ((ctx.pindex,b)::P)[n]? = some p →
    ctx.pindex.nHeight-p.1.nHeight = n
  filed : ∀ p ∈ (ctx.pindex,b)::P, p.1.nFile ≠ uintMax ∧
    ∀ a ∈ placedIn env p, ctx.disk.readTx a.1 = some a.2
  apart : (((ctx.pindex,b)::P).map (fun p => (p.1.nFile,p.1.nBlockPos))).Nodup

theorem reflects_depth {s : Store} {b : CBlock} {P : List Indexed} (h : Reflects env ctx s b P)
    {m : ℕ} {p : Indexed} (hp : ((ctx.pindex,b)::P)[m]? = some p) {a : Placed}
    (ha : a ∈ placedIn env p) :
    withinMaturity env a.1 (tipHeight ctx.ancestors) ctx.ancestors =
      decide ((m : ℤ) < env.nCoinbaseMaturity) := by
  have hmem := List.mem_of_getElem? hp
  obtain ⟨k,_,hpos⟩ := placed_in_pos env (h.filed p hmem).1 ha
  have htip : tipHeight ctx.ancestors = ctx.pindex.nHeight := by rw [h.ancestors]; rfl
  rw [htip, h.ancestors, within_maturity_at env a.1 0 _ m]
  · simp
  · intro n i hi
    rw [List.getElem?_map, Option.map_eq_some_iff] at hi
    obtain ⟨r,hr,hi⟩ := hi
    obtain ⟨hlen,hre⟩ := List.getElem?_eq_some_iff.mp hr
    obtain ⟨hlen',hpe⟩ := List.getElem?_eq_some_iff.mp hp
    rw [← hi, hpos]
    simp only [CDiskTxPos.inBlock, Bool.and_eq_true, beq_iff_eq]
    constructor
    · intro heq
      have hn := List.nodup_iff_injective_getElem.mp h.apart
      have hfin : (⟨n,by simpa using hlen⟩ : Fin (((ctx.pindex,b)::P).map
          (fun p => (p.1.nFile,p.1.nBlockPos))).length) = ⟨m,by simpa using hlen'⟩ := by
        apply hn
        simp only [List.getElem_map, hre, hpe]
        rw [← heq.1, ← heq.2]
      exact Fin.mk.inj hfin
    · intro heq
      subst heq
      rw [hre] at hpe
      rw [hpe]
      exact ⟨rfl,rfl⟩
  · have := (List.getElem?_eq_some_iff.mp hp).1
    simpa using this
  · intro n i hi
    rw [List.getElem?_map, Option.map_eq_some_iff] at hi
    obtain ⟨r,hr,hi⟩ := hi
    rw [← hi, h.heights n r hr]
    simp

theorem reflects_place (ctx ctx' : ConnectContext) (s s' : Store) (b : CBlock)
    (P P' : List Indexed) (h : Reflects env ctx s b P) (h' : Reflects env ctx' s' b P')
    (m : ℕ) (p p' : Indexed) (hp : ((ctx.pindex,b)::P)[m]? = some p)
    (hp' : ((ctx'.pindex,b)::P')[m]? = some p') (hb : p.2 = p'.2) :
    List.Forall₂ (SamePlace env ctx ctx') (placedIn env p) (placedIn env p') := by
  have hf := h.filed p (List.mem_of_getElem? hp)
  have hf' := h'.filed p' (List.mem_of_getElem? hp')
  have hsnd : ∀ i n txs, (placedFrom env i n txs).map Prod.snd = txs := by
    intro i n txs
    induction txs generalizing n with
    | nil => rfl
    | cons tx txs ih => simp [placedFrom, ih]
  rw [List.forall₂_iff_get]
  have hlen : (placedIn env p).length = (placedIn env p').length := by
    have h1 := congrArg List.length (hsnd p.1 (firstTxPos p.1.nBlockPos p.2 false) p.2.vtx)
    have h2 := congrArg List.length (hsnd p'.1 (firstTxPos p'.1.nBlockPos p'.2 false) p'.2.vtx)
    rw [List.length_map] at h1 h2
    rw [placedIn, placedIn, h1, h2, hb]
  refine ⟨hlen,?_⟩
  intro j hj hj'
  have ha : (placedIn env p).get ⟨j,hj⟩ ∈ placedIn env p := List.get_mem _ _
  have ha' : (placedIn env p').get ⟨j,hj'⟩ ∈ placedIn env p' := List.get_mem _ _
  have htx : ((placedIn env p).get ⟨j,hj⟩).2 = ((placedIn env p').get ⟨j,hj'⟩).2 := by
    have h1 := congrArg (fun l => l[j]?) (hsnd p.1 (firstTxPos p.1.nBlockPos p.2 false) p.2.vtx)
    have h2 := congrArg (fun l => l[j]?)
      (hsnd p'.1 (firstTxPos p'.1.nBlockPos p'.2 false) p'.2.vtx)
    simp only [List.getElem?_map] at h1 h2
    change (placedIn env p)[j]?.map Prod.snd = _ at h1
    change (placedIn env p')[j]?.map Prod.snd = _ at h2
    rw [hb, ← h2, List.getElem?_eq_getElem hj, List.getElem?_eq_getElem hj'] at h1
    simpa using h1
  obtain ⟨k,hk,hpos⟩ := placed_in_pos env hf.1 ha
  obtain ⟨k',hk',hpos'⟩ := placed_in_pos env hf'.1 ha'
  refine ⟨htx,?_,⟨?_,?_⟩,?_,?_⟩
  · rw [hpos, hpos']
    rfl
  · rw [hpos]
    intro hmem
    injection hmem with _ _ h3
    omega
  · rw [hpos']
    intro hmem
    injection hmem with _ _ h3
    omega
  · rw [hf.2 _ ha, hf'.2 _ ha', htx]
  · rw [reflects_depth env h hp ha, reflects_depth env h' hp' ha']

theorem reflects_same_index {ctx' : ConnectContext} {s s' : Store} {b : CBlock}
    {P P' : List Indexed} (h : Reflects env ctx s b P) (h' : Reflects env ctx' s' b P')
    (hP : P.map Prod.snd = P'.map Prod.snd) : SameIndex env ctx ctx' s.tx s'.tx := by
  have hlen : P.length = P'.length := by
    have hl := congrArg List.length hP
    simpa using hl
  have hall : List.Forall₂ (fun p p' =>
      List.Forall₂ (SamePlace env ctx ctx') (placedIn env p) (placedIn env p')) P P' := by
    rw [List.forall₂_iff_get]
    refine ⟨hlen,?_⟩
    intro j hj hj'
    apply reflects_place env ctx ctx' s s' b P P' h h' (j+1)
    · simp
    · simp
    · have hb := congrArg (fun l => l[j]?) hP
      simp only [List.getElem?_map, List.getElem?_eq_getElem hj, List.getElem?_eq_getElem hj',
        Option.map_some, Option.some.injEq] at hb
      exact hb
  rw [h.index, h'.index]
  apply chain_same
  · have hrev := List.rel_reverse hall
    revert hrev
    generalize P.reverse = Q
    generalize P'.reverse = Q'
    intro hrev
    cases hrev with
    | nil => exact .nil
    | cons _ ht => exact ht
  · intro k
    exact .none

end SwippCore.ChainIndex
