import SwippCore.AddressIndex

/-!
# The pool beside the main chain

A transaction of the pool conflicts with the main chain where it is itself in the
index, or spends what a block has spent. A reorganisation takes the conflicts of the
blocks that it connects out of the pool; a block that extends the chain takes out
only its own transactions.
-/

set_option autoImplicit false

namespace SwippCore.PoolRemoval
open FinMap

variable (env : Env)

structure Kept (p : CTxMemPool) : Prop where
  own : ∀ k t, p.mapTx.lookup k = some t → env.hashTx t = k
  points : ∀ k t, p.mapTx.lookup k = some t → ∀ o ∈ t.prevouts, ∃ n,
    p.mapNextTx.lookup o = some ⟨k,n⟩

def Within (q p : CTxMemPool) : Prop := ∀ k t, q.mapTx.lookup k = some t → p.mapTx.lookup k = some t

def Sole (u : CTransaction) (p : CTxMemPool) : Prop :=
  ∀ k t, p.mapTx.lookup k = some t → ∀ o ∈ t.prevouts, o ∈ u.prevouts → t = u

theorem within_refl (p : CTxMemPool) : Within p p := fun _ _ h => h

variable {p : CTxMemPool}

theorem within_trans {r q : CTxMemPool} (h : Within r q) (h' : Within q p) : Within r p :=
  fun k t hk => h' k t (h k t hk)

theorem within_none {q : CTxMemPool} (h : Within q p) {k : Uint256} (hk : p.mapTx.lookup k = none) :
    q.mapTx.lookup k = none := by
  cases hq : q.mapTx.lookup k with
  | none => rfl
  | some t => exact absurd ((h k t hq).symm.trans hk) (by simp)

variable {u : CTransaction}

theorem sole_within {q : CTxMemPool} (h : Within q p) (hp : Sole u p) :
    Sole u q := fun k t hk => hp k t (h k t hk)

theorem sole_of_lookup (hp : Kept env p) {k : Uint256} (hu : p.mapTx.lookup k = some u) :
    Sole u p := by
  intro j t ht o ho hou
  obtain ⟨n,hn⟩ := hp.points j t ht o ho
  obtain ⟨m,hm⟩ := hp.points k u hu o hou
  have hjk : j = k := congrArg CInPoint.ptx (Option.some.inj (hn.symm.trans hm))
  rw [hjk, hu] at ht
  exact (Option.some.inj ht).symm

theorem within_drop (u : CTransaction) (p : CTxMemPool) :
    Within (p.drop (env.hashTx u) u) p := by
  intro k t hk
  change (p.mapTx.erase (env.hashTx u)).lookup k = some t at hk
  rw [lookup_erase_if] at hk
  split at hk
  · cases hk
  · exact hk

theorem dropped (u : CTransaction) (p : CTxMemPool) :
    (p.drop (env.hashTx u) u).mapTx.lookup (env.hashTx u) = none := by
  change (p.mapTx.erase (env.hashTx u)).lookup _ = none
  rw [lookup_erase_if, if_pos rfl]

theorem kept_drop (hp : Kept env p) (hu : Sole u p) : Kept env (p.drop (env.hashTx u) u) := by
  have hin := within_drop env u p
  refine ⟨fun k t hk => hp.own k t (hin k t hk),?_⟩
  intro k t hk o ho
  have hout : o ∉ u.prevouts := by
    intro hou
    obtain rfl := hu k t (hin k t hk) o ho hou
    rw [← hp.own k t (hin k t hk), dropped] at hk
    cases hk
  obtain ⟨n,hn⟩ := hp.points k t (hin k t hk) o ho
  refine ⟨n,?_⟩
  change (eraseAll p.mapNextTx u.prevouts).lookup o = _
  rw [lookup_erase_all, if_neg hout, hn]

def Removes (u : CTransaction) (p q : CTxMemPool) : Prop :=
  Kept env q ∧ Within q p ∧ q.mapTx.lookup (env.hashTx u) = none

theorem remove_spenders_kept {rm : CTransaction → CTxMemPool → Option CTxMemPool}
    (hrm : ∀ u p q, Kept env p → Sole u p → rm u p = some q → Removes env u p q) {hash : Uint256}
    {is : List ℕ} (p q : CTxMemPool) (hp : Kept env p)
    (h : CTxMemPool.removeSpenders rm hash is p = some q) : Kept env q ∧ Within q p := by
  induction is generalizing p with
  | nil =>
    obtain rfl := Option.some.inj h
    exact ⟨hp,within_refl p⟩
  | cons i is ih =>
    rw [CTxMemPool.removeSpenders] at h
    cases hit : p.mapNextTx.lookup ⟨hash,i⟩ with
    | none =>
      rw [hit] at h
      exact ih p hp h
    | some it =>
      rw [hit] at h
      dsimp only at h
      cases hchild : p.mapTx.lookup it.ptx with
      | none =>
        rw [hchild] at h
        cases h
      | some child =>
        rw [hchild] at h
        obtain ⟨r,hr,h⟩ := Option.bind_eq_some_iff.mp h
        obtain ⟨hkept,hin,_⟩ := hrm child p r hp (sole_of_lookup env hp hchild) hr
        obtain ⟨hq,hin'⟩ := ih r hkept h
        exact ⟨hq,within_trans hin' hin⟩

theorem remove_fuel_kept {fuel : ℕ} (u : CTransaction) (fRecursive : Bool) (p q : CTxMemPool)
    (hp : Kept env p) (hu : Sole u p)
    (h : CTxMemPool.removeFuel env.hashTx fuel u fRecursive p = some q) : Removes env u p q := by
  induction fuel generalizing u fRecursive p q with
  | zero => cases h
  | succ fuel ih =>
    rw [CTxMemPool.removeFuel] at h
    split at h
    · obtain ⟨r,hr,rfl⟩ := Option.map_eq_some_iff.mp h
      have hrest : Kept env r ∧ Within r p := by
        cases fRecursive with
        | false =>
          obtain rfl := Option.some.inj hr
          exact ⟨hp,within_refl p⟩
        | true =>
          exact remove_spenders_kept env (fun v p' q' hp' hv => ih v true p' q' hp' hv) p r hp hr
      exact ⟨kept_drop env hrest.1 (sole_within hrest.2 hu),
        within_trans (within_drop env u r) hrest.2,dropped env u r⟩
    · next habsent =>
      obtain rfl := Option.some.inj h
      exact ⟨hp,within_refl p,AList.lookup_eq_none.mpr habsent⟩

theorem remove_kept {q : CTxMemPool} (hp : Kept env p)
    (hown : ∀ t, p.mapTx.lookup (env.hashTx u) = some t → t = u)
    (h : p.remove env.hashTx u false = some q) : Removes env u p q := by
  cases hu : p.mapTx.lookup (env.hashTx u) with
  | some t =>
    obtain rfl := hown t hu
    exact remove_fuel_kept env t false p q hp (sole_of_lookup env hp hu) h
  | none =>
    rw [CTxMemPool.remove, CTxMemPool.removeFuel, if_neg (AList.lookup_eq_none.mp hu)] at h
    obtain rfl := Option.some.inj h
    exact ⟨hp,within_refl p,hu⟩

/-- `removeConflicts(tx)` for a transaction that is no longer in the pool: nothing is left
that spends its inputs. -/
theorem remove_conflicts_kept {os : List COutPoint} (p q : CTxMemPool) (hp : Kept env p)
    (hu : p.mapTx.lookup (env.hashTx u) = none)
    (h : CTxMemPool.removeConflictsAt env.hashTx u os p = some q) :
    Kept env q ∧ Within q p ∧ ∀ o ∈ os, ∀ k t, q.mapTx.lookup k = some t → o ∉ t.prevouts := by
  induction os generalizing p with
  | nil =>
    obtain rfl := Option.some.inj h
    exact ⟨hp,within_refl p,by simp⟩
  | cons o os ih =>
    rw [CTxMemPool.removeConflictsAt] at h
    cases hit : p.mapNextTx.lookup o with
    | none =>
      rw [hit] at h
      obtain ⟨hq,hin,hos⟩ := ih p hp hu h
      refine ⟨hq,hin,?_⟩
      intro o' ho' k t hk hspent
      rcases List.mem_cons.mp ho' with rfl | ho'
      · obtain ⟨n,hn⟩ := hp.points k t (hin k t hk) o' hspent
        cases hit.symm.trans hn
      · exact hos o' ho' k t hk hspent
    | some it =>
      rw [hit] at h
      dsimp only at h
      cases hx : p.mapTx.lookup it.ptx with
      | none =>
        rw [hx] at h
        cases h
      | some x =>
        have hown := hp.own it.ptx x hx
        rw [hx] at h
        dsimp only at h
        split at h
        · obtain ⟨r,hr,h⟩ := Option.bind_eq_some_iff.mp h
          obtain ⟨hkept,hin,hgone⟩ := remove_fuel_kept env x true p r hp
            (sole_of_lookup env hp hx) hr
          obtain ⟨hq,hin',hos⟩ := ih r hkept (within_none hin hu) h
          refine ⟨hq,within_trans hin' hin,?_⟩
          intro o' ho' k t hk hspent
          rcases List.mem_cons.mp ho' with rfl | ho'
          · have hr' := hin' k t hk
            obtain ⟨n,hn⟩ := hp.points k t (hin k t hr') o' hspent
            have hkey : it.ptx = k := congrArg CInPoint.ptx (Option.some.inj (hit.symm.trans hn))
            rw [hown, hkey, hr'] at hgone
            cases hgone
          · exact hos o' ho' k t hk hspent
        · next hsame =>
          obtain rfl : x = u := not_not.mp hsame
          rw [hown, hx] at hu
          cases hu

end SwippCore.PoolRemoval

namespace SwippCore.PoolConflicts
open FinMap Checks Attempt Undo IndexEffect ConnectEffect IndexInverse ChainTree
open ChainOps ChainRollback ChainMoves ChainCursor ChainRuns AddressIndex PoolAcceptance PoolRemoval

variable (env : Env) (content : Uint256 → CBlock)

inductive Built : List Uint256 → TxIndex → Prop
  | first : Built [] (fun _ => none)
  | block {h : Uint256} {hs : List Uint256} {e : TxIndex} {txs : List Placed} (below : Built hs e)
      (brings : txs.map Prod.snd = (content h).vtx) (placed : ∀ a ∈ txs, a.1 ≠ .null)
      (connectable : AllowedAll (connectEffect env) (Connectable env) txs e) :
      Built (h::hs) (doAll (connectEffect env) txs e)

def OnChain (hs : List Uint256) (c : CTransaction) : Prop := ∃ h ∈ hs, c ∈ (content h).vtx

def Marked (e : TxIndex) (c : CTransaction) : Prop :=
  (e (env.hashTx c)).isSome ∧ ∀ o ∈ spent c, ∃ v, slot e o = some v ∧ v ≠ .null

variable {e : TxIndex}

theorem slot_indexed {o : COutPoint} {v : CDiskTxPos} (h : slot e o = some v) :
    e o.hash ≠ none := by
  intro hnone
  rw [slot, hnone] at h
  cases h

theorem slot_connected {a : Placed} (e : TxIndex) {o : COutPoint} (h : o.hash ≠ env.hashTx a.2) :
    slot (connectEffect env a e) o = (slot e o).map (fun v => if o ∈ spent a.2 then a.1 else v) := by
  rw [← slot_mark, slot, slot, connectEffect, Function.update_of_ne h]

theorem marked_stays {a : Placed} {c : CTransaction} (ha : Connectable env a e) (hpos : a.1 ≠ .null)
    (hc : Marked env e c) : Marked env (connectEffect env a e) c := by
  obtain ⟨hin,hslots⟩ := hc
  constructor
  · by_cases hk : env.hashTx c = env.hashTx a.2
    · rw [connectEffect, hk, Function.update_self]
      rfl
    · rw [← Option.ne_none_iff_isSome] at hin ⊢
      exact fun hnone => hin ((connect_effect_none env e hk).mp hnone)
  · intro o ho
    obtain ⟨v,hv,hne⟩ := hslots o ho
    have hother : o.hash ≠ env.hashTx a.2 := fun hk => slot_indexed hv (hk ▸ ha.new)
    rw [slot_connected env e hother, hv]
    by_cases hs : o ∈ spent a.2
    · exact ⟨a.1,by simp [hs],hpos⟩
    · exact ⟨v,by simp [hs],hne⟩

theorem marked_self (a : Placed) (e : TxIndex) (ha : Connectable env a e) (hpos : a.1 ≠ .null) :
    Marked env (connectEffect env a e) a.2 := by
  constructor
  · rw [connectEffect, Function.update_self]
    rfl
  · intro o ho
    have hfree := ha.free o ho
    have hother : o.hash ≠ env.hashTx a.2 := fun hk => slot_indexed hfree (hk ▸ ha.new)
    exact ⟨a.1,by rw [slot_connected env e hother, hfree]; simp [ho],hpos⟩

theorem marked_all_stays (txs : List Placed) (e : TxIndex) (c : CTransaction)
    (h : AllowedAll (connectEffect env) (Connectable env) txs e) (hpos : ∀ a ∈ txs, a.1 ≠ .null)
    (hc : Marked env e c) : Marked env (doAll (connectEffect env) txs e) c := by
  induction txs generalizing e with
  | nil => exact hc
  | cons a txs ih =>
    exact ih _ h.2 (fun b hb => hpos b (List.mem_cons_of_mem a hb))
      (marked_stays env h.1 (hpos a List.mem_cons_self) hc)

theorem marked_all {txs : List Placed} (e : TxIndex)
    (h : AllowedAll (connectEffect env) (Connectable env) txs e) (hpos : ∀ a ∈ txs, a.1 ≠ .null)
    {a : Placed} (ha : a ∈ txs) : Marked env (doAll (connectEffect env) txs e) a.2 := by
  induction txs generalizing e with
  | nil => cases ha
  | cons b txs ih =>
    have hrest : ∀ c ∈ txs, c.1 ≠ .null := fun c hc => hpos c (List.mem_cons_of_mem b hc)
    rcases List.mem_cons.mp ha with rfl | ha
    · exact marked_all_stays env txs _ _ h.2 hrest
        (marked_self env a e h.1 (hpos a List.mem_cons_self))
    · exact ih _ h.2 hrest ha

variable {hs : List Uint256}

theorem built_marked (h : Built env content hs e) {c : CTransaction} (hc : OnChain content hs c) :
    Marked env e c := by
  induction h with
  | first =>
    obtain ⟨k,hk,_⟩ := hc
    cases hk
  | @block k ks e txs _ hbrings hpos hall ih =>
    obtain ⟨j,hj,hc⟩ := hc
    rcases List.mem_cons.mp hj with rfl | hj
    · rw [← hbrings] at hc
      obtain ⟨a,ha,rfl⟩ := List.mem_map.mp hc
      exact marked_all env e hall hpos ha
    · exact marked_all_stays env txs e c hall hpos (ih ⟨j,hj,hc⟩)

theorem indexed_after {txs : List Placed} (e : TxIndex) {k : Uint256}
    (h : doAll (connectEffect env) txs e k ≠ none) :
    e k ≠ none ∨ ∃ a ∈ txs, env.hashTx a.2 = k := by
  induction txs generalizing e with
  | nil => exact Or.inl h
  | cons a txs ih =>
    rcases ih _ h with h | ⟨b,hb,hk⟩
    · by_cases hk : k = env.hashTx a.2
      · exact Or.inr ⟨a,List.mem_cons_self,hk.symm⟩
      · exact Or.inl fun hnone => h ((connect_effect_none env e hk).mpr hnone)
    · exact Or.inr ⟨b,List.mem_cons_of_mem a hb,hk⟩

theorem built_indexed (h : Built env content hs e) {k : Uint256} (hk : e k ≠ none) :
    ∃ c, OnChain content hs c ∧ env.hashTx c = k := by
  induction h with
  | first => exact absurd rfl hk
  | @block j js e txs _ hbrings _ _ ih =>
    rcases indexed_after env e hk with hk | ⟨a,ha,hk⟩
    · obtain ⟨c,⟨i,hi,hc⟩,hck⟩ := ih hk
      exact ⟨c,⟨i,List.mem_cons_of_mem j hi,hc⟩,hck⟩
    · refine ⟨a.2,⟨j,List.mem_cons_self,?_⟩,hk⟩
      rw [← hbrings]
      exact List.mem_map_of_mem ha

def Apart (t c : CTransaction) : Prop :=
  env.hashTx c ≠ env.hashTx t ∧ ∀ o ∈ t.prevouts, o ∉ spent c

theorem apart_of_unspent (h : Built env content hs e) {t : CTransaction}
    (hnew : e (env.hashTx t) = none)
    (hfree : ∀ o ∈ t.prevouts, e o.hash = none ∨ slot e o = some .null) (c : CTransaction)
    (hc : OnChain content hs c) : Apart env t c := by
  obtain ⟨hin,hslots⟩ := built_marked env content h hc
  constructor
  · intro hk
    rw [hk, hnew] at hin
    cases hin
  · intro o ho hspent
    obtain ⟨v,hv,hne⟩ := hslots o hspent
    rcases hfree o ho with hnone | hnull
    · exact slot_indexed hv hnone
    · exact hne (Option.some.inj (hv.symm.trans hnull))

theorem placed_pos {ctx : ConnectContext} (hfile : ctx.pindex.nFile ≠ uintMax) (n : ℕ)
    {txs : List CTransaction} : ∀ a ∈ placed env ctx n txs, a.1 ≠ .null := by
  induction txs generalizing n with
  | nil => exact fun a ha => nomatch ha
  | cons tx txs ih =>
    intro a ha
    rcases List.mem_cons.mp ha with rfl | ha
    · simp [posOf, CDiskTxPos.ofFile, hfile]
    · exact ih _ a ha

section Steps
variable (w : World) (hs : List Uint256) (h : Uint256) (b : CBlock) (st st1 : ChainState)

/-- The block is the one of its hash, and its transactions are new to the index. In the pool
there is under their hashes nothing else than them. -/
structure Fresh (st : ChainState) : Prop where
  block : content (env.hashBlock b) = b
  new : ∀ c ∈ b.vtx, st.txdb.view.tx (env.hashTx c) = none
  own : ∀ c ∈ b.vtx, ∀ t, st.mempool.mapTx.lookup (env.hashTx c) = some t → t = c

def Filed (m : BlockMap) : Prop := ∀ k i, m k = some i → i.nFile ≠ uintMax

theorem connect_step_built (hr : Ready st) (hfiled : Filed st.mapBlockIndex)
    (hb : env.hashBlock b = h) (hf : Fresh env content b st)
    (hbuilt : Built env content hs st.txdb.view.tx)
    (hstep : connectStep env w h b st = (st1,.ok ())) :
    Built env content (h::hs) st1.txdb.view.tx := by
  obtain ⟨i,t,s,hi,hc,hw,rfl⟩ := (connect_step_ok env w h b st1 hr).mp hstep
  have hview : (connected h b i t s st).txdb.view = s := by
    simp [connected, ChainState.syncAll]
  have hblock : connectBlock env (connectContext w st h i) (w.ambient h) (st.parentEntry i) b
      st.txdb.view = .ok s := (bind_ok _ _ _).mpr ⟨t,hc,hw⟩
  obtain ⟨htx,hfree,hnodup⟩ := connect_block_effect env rfl hblock
  have hsnd := placed_snd env (connectContext w st h i)
    (firstTxPos (connectContext w st h i).pindex.nBlockPos b false) b.vtx
  rw [hview, htx]
  refine .block hbuilt ?_ (placed_pos env (hfiled h i hi) _) ?_
  · rw [hsnd, ← hb, hf.block]
  · apply all_connectable env _ _ _ hfree
    · rw [← hsnd, List.map_map] at hnodup
      exact hnodup
    · intro a ha
      apply hf.new
      rw [← hsnd]
      exact List.mem_map_of_mem ha

theorem disconnect_step_built (hb : content h = b)
    (hbuilt : Built env content (h::hs) st.txdb.view.tx)
    (hstep : disconnectStep env h b st = (st1,.ok ())) :
    Built env content hs st1.txdb.view.tx := by
  obtain ⟨i,s,_,hd,rfl⟩ := (disconnect_step_ok env h b st st1).mp hstep
  have hview : (disconnected b s st).txdb.view = s := by
    simp [disconnected, ChainState.syncAll]
  rw [hview]
  generalize he : st.txdb.view.tx = e at hbuilt
  cases hbuilt with
  | @block _ _ e0 txs hbelow hbrings _ hall =>
    have hback := disconnect_txs_effect env hall he
    rw [hbrings, hb] at hback
    rw [disconnectBlock, hback] at hd
    obtain rfl := Except.ok.inj hd
    rw [link_on_disk_tx]
    exact hbelow

end Steps

section Pool
variable (w : World) (st st1 : ChainState)

theorem index_inputs_points (hash : Uint256) (i : ℕ) (xs : List CTxIn) (m : Dict COutPoint CInPoint)
    (o : COutPoint) :
    (o ∈ xs.map CTxIn.prevout →
      ∃ n, (CTxMemPool.indexInputs hash i xs m).lookup o = some ⟨hash,n⟩) ∧
    (o ∉ xs.map CTxIn.prevout → (CTxMemPool.indexInputs hash i xs m).lookup o = m.lookup o) := by
  induction xs generalizing i m with
  | nil => exact ⟨fun ho => by simp at ho,fun _ => rfl⟩
  | cons x xs ih =>
    obtain ⟨hin,hout⟩ := ih (i+1) (m.insert x.prevout ⟨hash,i⟩)
    rw [CTxMemPool.indexInputs, List.map_cons]
    constructor
    · intro ho
      by_cases hlater : o ∈ xs.map CTxIn.prevout
      · exact hin hlater
      · have hx : o = x.prevout := (List.mem_cons.mp ho).resolve_right hlater
        refine ⟨i,?_⟩
        rw [hout hlater, hx, AList.lookup_insert]
    · intro ho
      rw [List.mem_cons, not_or] at ho
      rw [hout ho.2, lookup_insert_if, if_neg ho.1]

theorem kept_add {s : Store} {tx : CTransaction} {p : CTxMemPool} (hp : Kept env p)
    (ha : Accepted env s tx p) : Kept env (p.addUnchecked (env.hashTx tx) tx) := by
  have hlookup : ∀ k t, (p.addUnchecked (env.hashTx tx) tx).mapTx.lookup k = some t →
      (k = env.hashTx tx ∧ t = tx) ∨ (k ≠ env.hashTx tx ∧ p.mapTx.lookup k = some t) := by
    intro k t hk
    change (p.mapTx.insert (env.hashTx tx) tx).lookup k = some t at hk
    rw [lookup_insert_if] at hk
    split at hk
    · next hself => exact Or.inl ⟨hself,(Option.some.inj hk).symm⟩
    · next hother => exact Or.inr ⟨hother,hk⟩
  constructor
  · intro k t hk
    rcases hlookup k t hk with ⟨rfl,rfl⟩ | ⟨_,hk⟩
    · rfl
    · exact hp.own k t hk
  · intro k t hk o ho
    obtain ⟨hin,hout⟩ := index_inputs_points (env.hashTx tx) 0 tx.vin p.mapNextTx o
    rcases hlookup k t hk with ⟨rfl,rfl⟩ | ⟨_,hk⟩
    · exact hin ho
    · obtain ⟨n,hn⟩ := hp.points k t hk o ho
      have hfree : o ∉ tx.prevouts := fun hmem => by
        rw [ha.free o hmem] at hn
        cases hn
      exact ⟨n,(hout hfree).trans hn⟩

def Grown (hs : List Uint256) (p q : CTxMemPool) : Prop :=
  ∀ k t, q.mapTx.lookup k = some t →
    p.mapTx.lookup k = some t ∨ ∀ c, OnChain content hs c → Apart env t c

theorem accept_step_grown {hs : List Uint256} {fLimitFree : Bool} {tx : CTransaction}
    {r : Except Failure Unit} (hbuilt : Built env content hs st.txdb.committed.tx)
    (hp : Kept env st.mempool) (h : acceptStep env w fLimitFree tx st = (st1,r)) :
    Kept env st1.mempool ∧ Grown env content hs st.mempool st1.mempool := by
  have hsame : Kept env st.mempool ∧ Grown env content hs st.mempool st.mempool :=
    ⟨hp,fun _ _ hk => Or.inl hk⟩
  unfold acceptStep at h
  split at h
  · next pool hok =>
    obtain ⟨ha,rfl⟩ := accept_ok env hok
    obtain ⟨rfl,_⟩ := Prod.mk.inj h
    refine ⟨kept_add env hp ha,?_⟩
    intro k t hk
    change (st.mempool.mapTx.insert (env.hashTx tx) tx).lookup k = some t at hk
    rw [lookup_insert_if] at hk
    split at hk
    · obtain rfl := Option.some.inj hk
      exact Or.inr (apart_of_unspent env content hbuilt ha.notIndexed ha.unspent)
    · exact Or.inl hk
  · obtain ⟨rfl,_⟩ := Prod.mk.inj h
    exact hsame
  · obtain ⟨rfl,_⟩ := Prod.mk.inj h
    exact hsame

variable {txs : List CTransaction}

theorem accept_all_grown {hs : List Uint256} (hbuilt : Built env content hs st.txdb.committed.tx)
    (hp : Kept env st.mempool) (h : forAll (acceptStep env w false) txs st = (st1,.ok ())) :
    Kept env st1.mempool ∧ Grown env content hs st.mempool st1.mempool := by
  have hall := for_all_ok (fun s => s.txdb = st.txdb ∧ Kept env s.mempool ∧
      Grown env content hs st.mempool s.mempool) ?_ st
    ⟨rfl,hp,fun _ _ hk => Or.inl hk⟩ h
  · exact hall.2
  · rintro tx _ s s' ⟨hdb,hkept,hgrown⟩ hstep
    have hpooled := accept_step_pooled env w false tx s
    rw [hstep] at hpooled
    obtain ⟨hkept',hgrown'⟩ := accept_step_grown env content w s s'
      (by rw [hdb]; exact hbuilt) hkept hstep
    refine ⟨hpooled.txdb.trans hdb,hkept',?_⟩
    intro k t hk
    rcases hgrown' k t hk with hk | hapart
    · exact hgrown k t hk
    · exact Or.inr hapart

theorem remove_all_kept (hp : Kept env st.mempool)
    (hown : ∀ c ∈ txs, ∀ t, st.mempool.mapTx.lookup (env.hashTx c) = some t → t = c)
    (h : forAll (removeStep env) txs st = (st1,.ok ())) :
    Kept env st1.mempool ∧ Within st1.mempool st.mempool ∧
      ∀ c ∈ txs, st1.mempool.mapTx.lookup (env.hashTx c) = none := by
  induction txs generalizing st with
  | nil =>
    obtain ⟨rfl,_⟩ := Prod.mk.inj h
    exact ⟨hp,within_refl _,by simp⟩
  | cons c txs ih =>
    obtain ⟨s,hc,h⟩ := (and_then_ok _ _ _).mp h
    unfold removeStep at hc
    split at hc
    · cases (Prod.mk.inj hc).2
    · next pool hpool =>
      obtain ⟨rfl,_⟩ := Prod.mk.inj hc
      obtain ⟨hkept,hin,hgone⟩ := remove_kept env hp (hown c List.mem_cons_self) hpool
      obtain ⟨hq,hin',hrest⟩ := ih _ hkept
        (fun d hd t ht => hown d (List.mem_cons_of_mem c hd) t (hin _ t ht)) h
      refine ⟨hq,within_trans hin' hin,?_⟩
      intro d hd
      rcases List.mem_cons.mp hd with rfl | hd
      · exact within_none hin' hgone
      · exact hrest d hd

theorem delete_step_kept {c : CTransaction} (hp : Kept env st.mempool)
    (hown : ∀ t, st.mempool.mapTx.lookup (env.hashTx c) = some t → t = c)
    (h : deleteStep env c st = (st1,.ok ())) :
    Kept env st1.mempool ∧ Within st1.mempool st.mempool ∧
      ∀ k t, st1.mempool.mapTx.lookup k = some t → Apart env t c := by
  obtain ⟨s,hc,h⟩ := (and_then_ok _ _ _).mp h
  unfold removeStep at hc
  split at hc
  · cases (Prod.mk.inj hc).2
  · next pool hpool =>
    obtain ⟨rfl,_⟩ := Prod.mk.inj hc
    obtain ⟨hkept,hin,hgone⟩ := remove_kept env hp hown hpool
    split at h
    · cases (Prod.mk.inj h).2
    · next q hq =>
      obtain ⟨rfl,_⟩ := Prod.mk.inj h
      obtain ⟨hkept',hin',hfree⟩ := remove_conflicts_kept env pool q hkept hgone hq
      refine ⟨hkept',within_trans hin' hin,?_⟩
      intro k t hk
      constructor
      · intro hhash
        have hnone := within_none hin' hgone
        rw [hhash, hkept'.own k t hk] at hnone
        cases hk.symm.trans hnone
      · intro o ho hspent
        refine hfree o ?_ k t hk ho
        unfold spent at hspent
        split at hspent
        · cases hspent
        · exact hspent

theorem delete_all_kept (hp : Kept env st.mempool)
    (hown : ∀ c ∈ txs, ∀ t, st.mempool.mapTx.lookup (env.hashTx c) = some t → t = c)
    (h : forAll (deleteStep env) txs st = (st1,.ok ())) :
    Kept env st1.mempool ∧ Within st1.mempool st.mempool ∧
      ∀ c ∈ txs, ∀ k t, st1.mempool.mapTx.lookup k = some t → Apart env t c := by
  induction txs generalizing st with
  | nil =>
    obtain ⟨rfl,_⟩ := Prod.mk.inj h
    exact ⟨hp,within_refl _,by simp⟩
  | cons c txs ih =>
    obtain ⟨s,hc,h⟩ := (and_then_ok _ _ _).mp h
    obtain ⟨hkept,hin,hapart⟩ := delete_step_kept env st s hp (hown c List.mem_cons_self) hc
    obtain ⟨hq,hin',hrest⟩ := ih s hkept
      (fun d hd t ht => hown d (List.mem_cons_of_mem c hd) t (hin _ t ht)) h
    refine ⟨hq,within_trans hin' hin,?_⟩
    intro d hd k t hk
    rcases List.mem_cons.mp hd with rfl | hd
    · exact hapart k t (hin' k t hk)
    · exact hrest d hd k t hk

end Pool

def Clear (b : CBlock) (st : ChainState) : Prop :=
  ∀ k t, st.mempool.mapTx.lookup k = some t → (∀ c ∈ b.vtx, env.hashTx c ≠ k) →
    ∀ c ∈ b.vtx, ∀ o ∈ t.prevouts, o ∉ spent c

def bringing : Guards where
  attach _ _ b st := Fresh env content b st
  disconnect _ _ b _ := content (env.hashBlock b) = b
  connect _ _ b st := Fresh env content b st
  file _ nFile _ _ := nFile ≠ uintMax
  offer _ := True

def clearing : Guards :=
  { bringing env content with attach _ _ b st := Fresh env content b st ∧ Clear env b st }

structure Settled (c : ChainState × Uint256) : Prop where
  built : Built env content (mainChain c) c.1.txdb.committed.tx
  kept : Kept env c.1.mempool
  apart : ∀ k t, c.1.mempool.mapTx.lookup k = some t →
    ∀ x, OnChain content (mainChain c) x → Apart env t x
  filed : Filed c.1.mapBlockIndex

theorem filed_same {m m' : BlockMap} (h : SameTree m m') (hm : Filed m) : Filed m' := by
  intro k i' hi'
  obtain ⟨i,hi,hcore⟩ := same_tree_entry h hi'
  rw [(core_place hcore).1]
  exact hm k i hi

theorem on_chain_next (h : Uint256) (hs : List Uint256) (c : CTransaction) :
    OnChain content (h::hs) c ↔ c ∈ (content h).vtx ∨ OnChain content hs c := by
  simp [OnChain]

section Moves
variable (w : World) (st st' : ChainState) (tip : Uint256)

theorem attach_settled {h : Uint256} {b : CBlock} (hst : Standing st tip)
    (hs : Settled env content (st,tip)) (hp : st.mapBlockIndex.parentOf h = some tip)
    (hb : env.hashBlock b = h) (hfresh : Fresh env content b st.begin)
    (hclear : Clear env b st.begin) (ha : Attached env w h b st st') :
    Settled env content (st',h) := by
  obtain ⟨hsame,_⟩ := attached_same env w h b st' hst.best ha
  obtain ⟨st1,hc,had⟩ := ha
  have hbuilt := connect_step_built env content w _ h b st.begin st1 (begin_ready hst.best)
    hs.filed hb hfresh hs.built hc
  have hwork := connect_step_worked env w (fun _ => True) h b st.begin trivial
    (begin_ready hst.best)
  rw [hc] at hwork
  have hpool : st1.mempool = st.mempool := hwork.mempool
  obtain ⟨hpooled,hcom⟩ := adopted_block env had
  have hchain : mainChain (st',h) = h::chainOf st.mapBlockIndex tip := by
    rw [mainChain, chain_same _ _ hsame, chain_next _ hst.tree hp]
  have hkept1 : Kept env st1.mempool := hpool ▸ hs.kept
  have hown1 : ∀ c ∈ b.vtx, ∀ t, st1.mempool.mapTx.lookup (env.hashTx c) = some t → t = c :=
    hpool ▸ hfresh.own
  obtain ⟨hkept,hin,hgone⟩ := remove_all_kept env
    (linked h ((st1.writeHashBestChain h).commit true)) st' hkept1 hown1 had
  refine ⟨?_,hkept,?_,filed_same hsame hs.filed⟩
  · rw [hchain, hcom]
    exact hbuilt
  · intro k t hk x hx
    have hold : st.mempool.mapTx.lookup k = some t := by
      rw [← hpool]
      exact hin k t hk
    rw [hchain, on_chain_next, ← hb, hfresh.block] at hx
    rcases hx with hx | hx
    · have hne : ∀ c ∈ b.vtx, env.hashTx c ≠ k := by
        intro c hc hck
        have hnone := hgone c hc
        rw [hck, hk] at hnone
        cases hnone
      refine ⟨?_,hclear k t hold hne x hx⟩
      rw [hs.kept.own k t hold]
      exact hne x hx
    · exact hs.apart k t hold x hx

/-- A reorganisation takes out whatever conflicts with the blocks that it connects. -/
theorem switch_settled {hNew : Uint256} (hst : Standing st tip) (hs : Settled env content (st,tip))
    (hsw : Switched env w (clearing env content) tip hNew st st') :
    Settled env content (st',hNew) := by
  obtain ⟨hsame,_⟩ := switched_same env w _ hst.best hsw
  obtain ⟨pfork,xs,ys,st1,st2,res,del,hdown,hup,_,hdis,hcon,had,hgd,hgc⟩ := hsw
  have hw0 := begin_working hst
  obtain ⟨⟨hbuilt1,hpool1⟩,hw1⟩ := down_rule env w st.mapBlockIndex
    (fun x p => Built env content (chainOf st.mapBlockIndex p) x.1.txdb.view.tx ∧
      x.1.mempool = st.mempool)
    (by
      rintro h p b i a a1 _ hr hstep ⟨hbuilt,hpool⟩
      have hwork := disconnect_step_worked env (fun _ => True) h b a hr.site.working.ready
      rw [hstep] at hwork
      rw [chain_next _ hst.tree (site_parent env _ hr.site)] at hbuilt
      have hb : content h = b := by
        rw [← hr.site.hash]
        exact hr.meets
      exact ⟨disconnect_step_built env content _ h b a a1 hb hbuilt hstep,hwork.mempool.trans hpool⟩)
    tip (st.begin,[]) hw0 hdown hgd hdis ⟨hs.built,rfl⟩
  obtain ⟨⟨hbuilt2,hpool2,hparts,hdel,hown⟩,_⟩ := up_rule env w st.mapBlockIndex

    (fun x p => Built env content (chainOf st.mapBlockIndex p) x.1.txdb.view.tx ∧
      x.1.mempool = st.mempool ∧
      (∀ c, OnChain content (chainOf st.mapBlockIndex p) c →
        OnChain content (chainOf st.mapBlockIndex pfork) c ∨ c ∈ x.2) ∧
      (∀ c ∈ x.2, OnChain content (chainOf st.mapBlockIndex p) c) ∧
      ∀ c ∈ x.2, ∀ t, st.mempool.mapTx.lookup (env.hashTx c) = some t → t = c)
    (by
      rintro h p b i a a1 txs hr hstep ⟨hbuilt,hpool,hparts,hdel,hown⟩
      have hwork := connect_step_worked env w (fun _ => True) h b a trivial hr.site.working.ready
      rw [hstep] at hwork
      have hfresh : Fresh env content b a := hr.meets
      have hb : content h = b := by
        rw [← hr.site.hash]
        exact hfresh.block
      rw [chain_next _ hst.tree (site_parent env _ hr.site)]
      refine ⟨connect_step_built env content w _ h b a a1 hr.site.working.ready
        (filed_same hr.site.working.same hs.filed) hr.site.hash hfresh hbuilt hstep,
        hwork.mempool.trans hpool,?_,?_,?_⟩
      · intro c hc
        rw [on_chain_next, hb] at hc
        rw [List.mem_append]
        have := hparts c
        tauto
      · intro c hc
        rw [on_chain_next, hb]
        rw [List.mem_append] at hc
        have := hdel c
        tauto
      · intro c hc
        rcases List.mem_append.mp hc with hc | hc
        · exact hown c hc
        · rw [← hpool]
          exact hfresh.own c hc)
    pfork (st1,[]) hw1 hup hgc hcon
    ⟨hbuilt1,hpool1,fun c hc => Or.inl hc,fun c hc => by simp at hc,fun c hc => by simp at hc⟩
  obtain ⟨hpooled,hcom⟩ := adopted_branch env w had
  have hchain : mainChain (st',hNew) = chainOf st.mapBlockIndex hNew := by
    rw [mainChain, chain_same _ _ hsame]
  obtain ⟨mid,hacc,hrem⟩ := (and_then_ok _ _ _).mp had
  have hstart : Built env content (chainOf st.mapBlockIndex hNew)
      (relinked xs ys ((st2.writeHashBestChain hNew).commit true)).txdb.committed.tx := by
    have hview : (relinked xs ys ((st2.writeHashBestChain hNew).commit true)).txdb.committed =
        st2.txdb.view.writeHashBestChain hNew := by
      simp [relinked, ChainState.commit, ChainState.writeHashBestChain]
    rw [hview]
    exact hbuilt2
  have hkept2 : Kept env st2.mempool := hpool2 ▸ hs.kept
  obtain ⟨hkept,hgrown⟩ := accept_all_grown env content w _ mid hstart hkept2 hacc
  have hgrown : Grown env content (chainOf st.mapBlockIndex hNew) st.mempool mid.mempool := by
    rw [← hpool2]
    exact hgrown
  obtain ⟨hkept',hin,hapart⟩ := delete_all_kept env mid st' hkept (by
    intro c hc t ht
    rcases hgrown _ t ht with hold | hnew
    · exact hown c hc t hold
    · exact absurd (hkept.own _ t ht).symm (hnew c (hdel c hc)).1) hrem
  refine ⟨?_,hkept',?_,filed_same hsame hs.filed⟩
  · rw [hchain, hcom]
    exact hbuilt2
  · intro k t hk x hx
    rw [hchain] at hx
    rcases hgrown k t (hin k t hk) with hold | hnew
    · rcases hparts x hx with ⟨j,hj,hx⟩ | hx
      · exact hs.apart k t hold x ⟨j,chain_below _ hst.tree hdown j hj,hx⟩
      · exact hapart x hx k t hk
    · exact hnew x hx

end Moves

theorem settled_same {a c : ChainState × Uint256} (h : Settled env content a)
    (hchain : mainChain c = mainChain a) (htx : c.1.txdb.committed.tx = a.1.txdb.committed.tx)
    (hpool : c.1.mempool.mapTx = a.1.mempool.mapTx ∧ c.1.mempool.mapNextTx = a.1.mempool.mapNextTx)
    (hfiled : Filed c.1.mapBlockIndex) : Settled env content c := by
  refine ⟨?_,⟨?_,?_⟩,?_,hfiled⟩
  · rw [hchain, htx]
    exact h.built
  · rw [hpool.1]
    exact h.kept.own
  · rw [hpool.1, hpool.2]
    exact h.kept.points
  · rw [hpool.1, hchain]
    exact h.apart

theorem settled_move {a c : ChainState × Uint256} (hst : Standing a.1 a.2)
    (hs : Settled env content a) (h : Move env (clearing env content) a c) :
    Settled env content c := by
  cases h with
  | undone h =>
    have hsame := retotalled_same _ _ _ h.entries
    refine settled_same env content hs (chain_same _ _ hsame _) h.committed.tx ?_
      (filed_same hsame hs.filed)
    rw [h.mempool]
    exact ⟨rfl,rfl⟩
  | attach hp hb hg ha =>
    exact attach_settled env content _ _ _ _ hst hs hp hb hg.1 hg.2 ha
  | switch h => exact switch_settled env content _ _ _ _ hst hs h
  | crown h =>
    obtain ⟨i,hi,rfl⟩ := new_best_ok h
    exact settled_same env content hs rfl rfl ⟨rfl,rfl⟩ hs.filed
  | @file w st st' tip b nFile nBlockPos hashProof r hprev hg h =>
    rcases index_block_cases env w h with
      ⟨rfl,_⟩ | ⟨hnew,modifier,rfl,_⟩
    · exact hs
    · refine settled_same env content hs ?_ ?_ ⟨rfl,rfl⟩ ?_
      · exact chain_filed env _ nFile nBlockPos hashProof modifier hst.tree hnew hprev hst.entry
      · cases w.indexCommitOk <;> rfl
      · intro k i hi
        change filed env b nFile nBlockPos hashProof modifier st.mapBlockIndex k = some i at hi
        by_cases hk : k = env.hashBlock b
        · rw [filed, hk, Function.update_self] at hi
          obtain rfl := Option.some.inj hi
          exact hg
        · rw [filed_other env k hk] at hi
          exact hs.filed k i hi
  | @offer w st st' tip fLimitFree tx r _ h =>
    have hpooled := accept_step_pooled env w fLimitFree tx st
    rw [h] at hpooled
    obtain ⟨hkept,hgrown⟩ := accept_step_grown env content w st st' hs.built
      hs.kept h
    have hchain : mainChain (st',tip) = mainChain (st,tip) := by
      rw [mainChain, mainChain, hpooled.entries]
    refine ⟨?_,hkept,?_,?_⟩
    · rw [hchain, hpooled.txdb]
      exact hs.built
    · intro k t hk
      rw [hchain]
      rcases hgrown k t hk with hold | hnew
      · exact hs.apart k t hold
      · exact hnew
    · rw [hpooled.entries]
      exact hs.filed

theorem started_settled {st : ChainState} {g : Uint256}
    (h : Started env (clearing env content) st g) : Settled env content (st,g) := by
  obtain ⟨b,nFile,nBlockPos,hashProof,modifier,rfl,hfile,hmap,hcom⟩ := h.entry
  obtain ⟨hpath,hpar⟩ := first_path env b nFile nBlockPos hashProof modifier
  have hchain : mainChain (st,env.hashBlock b) = [] := by
    rw [mainChain, chainOf, hmap, List.filter_eq_nil_iff]
    intro k _
    rw [hpar k]
    simp
  have hempty : ∀ k t, st.mempool.mapTx.lookup k ≠ some t := by
    intro k t hk
    rw [h.mempool.1] at hk
    cases hk
  refine ⟨?_,⟨fun k t hk => absurd hk (hempty k t),fun k t hk => absurd hk (hempty k t)⟩,
    fun k t hk => absurd hk (hempty k t),?_⟩
  · rw [hchain, hcom]
    exact .first
  · intro k i hi
    rw [hmap, filed, Function.update_apply] at hi
    split at hi
    · obtain rfl := Option.some.inj hi
      exact hfile
    · cases hi

/-- No transaction of the pool is in the index, and none spends what another transaction of
the main chain spends. -/
def NoConflicts (st : ChainState) : Prop :=
  ∀ k t, st.mempool.mapTx.lookup k = some t → st.txdb.committed.tx (env.hashTx t) = none ∧
    ∀ tip, st.pindexBest = some tip → ∀ h ∈ chainOf st.mapBlockIndex tip, ∀ c ∈ (content h).vtx,
      c ≠ t → ∀ o ∈ t.prevouts, o ∉ spent c

/-- Where every block that extends the chain meets no conflict in the pool, there is never
one. -/
theorem run_without_conflicts (st : ChainState)
    (h : Reachable env (Meets env (clearing env content)) st) : NoConflicts env content st := by
  obtain ⟨tip,hc,hs⟩ := run_invariant env (clearing env content)
    (fun st tip => Settled env content (st,tip))
    (fun st g h => started_settled env content h)
    (fun a c hst hs hm => settled_move env content hst hs hm) h
  intro k t hk
  constructor
  · by_contra hin
    obtain ⟨c,hon,hck⟩ := built_indexed env content hs.built hin
    exact (hs.apart k t hk c hon).1 hck
  · intro tip' htip h hh c hcb _
    obtain rfl := Option.some.inj (hc.best.symm.trans htip)
    exact (hs.apart k t hk c ⟨h,hh,hcb⟩).2

section Sample

variable {st : ChainState}

theorem extension_reachable {G : Guards} {w : World} {b : CBlock} {nFile nBlockPos : ℕ}
    (hr : Reachable env (Meets env G) st) (hfile : G.file b nFile nBlockPos st)
    (hcalled : (st.mapBlockIndex b.hashPrevBlock).isSome)
    (hprev : b.hashPrevBlock = (indexBlock env w b nFile nBlockPos 0 st).1.hashBestChain)
    (hattach : G.attach w (env.hashBlock b) b (indexBlock env w b nFile nBlockPos 0 st).1.begin)
    (hlive : live (addToBlockIndex env w b nFile nBlockPos 0 st).2 = true) :
    Reachable env (Meets env G) (addToBlockIndex env w b nFile nBlockPos 0 st).1 := by
  refine .step (a := .add w b nFile nBlockPos 0) hr hcalled ⟨hfile,?_⟩ rfl ?_
  · intro st1 i h1 _ _ _
    rw [h1] at hprev hattach
    rw [if_pos hprev]
    exact hattach
  · intro hcrash
    have hend : (addToBlockIndex env w b nFile nBlockPos 0 st).2 = .error .crash := hcrash
    rw [hend] at hlive
    cases hlive

theorem offer_reachable {G : Guards} {w : World} {fLimitFree : Bool} {tx : CTransaction}
    (hr : Reachable env (Meets env G) st) (hoffer : G.offer tx)
    (hlive : live (acceptStep env w fLimitFree tx st).2 = true) :
    Reachable env (Meets env G) (acceptStep env w fLimitFree tx st).1 := by
  refine .step (a := .accept w fLimitFree tx) hr trivial hoffer rfl ?_
  intro hcrash
  have hend : (acceptStep env w fLimitFree tx st).2 = .error .crash := hcrash
  rw [hend] at hlive
  cases hlive

def ripeEnv : Env := { sampleEnv with nCoinbaseMaturity := 0 }

def paidBlock : CBlock := mined 2 1 10

def pays (nTime n : ℕ) (fee : ℤ) : CTransaction :=
  ⟨1,nTime,[⟨⟨BitVec.ofNat 256 n,0⟩,[],0⟩],[⟨10*coin-fee*minTxFee,[1]⟩],0⟩

def nextBlock (nNonce : ℕ) (tx : CTransaction) : CBlock :=
  ⟨1,2,BitVec.ofNat 256 (10+nNonce+tx.nTime),10+nNonce,0x1e7fffff,nNonce,
    [⟨1,10+nNonce,[⟨.null,[1,1],0⟩],[⟨10*coin,[1]⟩],0⟩,tx],[]⟩

def ripeWorld : World :=
  { readable [] with disk := fun _ =>
      ⟨fun pos => if pos = .onDisk 1 2 83 then paidBlock.vtx[0]? else none,fun _ _ => none,fun _ _ => none⟩ }

def ripeContent (nNonce : ℕ) (tx : CTransaction) (h : Uint256) : CBlock :=
  if h = 1 then mined 1 0 0 else if h = 2 then paidBlock else nextBlock nNonce tx

def ripeStart : ChainState := (addToBlockIndex ripeEnv (readable []) (mined 1 0 0) 1 1 0 .empty).1

def ripePaid : ChainState := (addToBlockIndex ripeEnv ripeWorld paidBlock 1 2 0 ripeStart).1

def offered (tx : CTransaction) (st : ChainState) : ChainState :=
  (acceptStep ripeEnv ripeWorld false tx st).1

def extended (nNonce : ℕ) (tx : CTransaction) (st : ChainState) : ChainState :=
  (addToBlockIndex ripeEnv ripeWorld (nextBlock nNonce tx) 1 nNonce 0 st).1

def bringsNew (nNonce : ℕ) (tx : CTransaction) (b : CBlock) (st : ChainState) : Bool :=
  ripeContent nNonce tx (ripeEnv.hashBlock b) == b &&
  b.vtx.all (fun c => (st.txdb.view.tx (ripeEnv.hashTx c)).isNone &&
    (st.mempool.mapTx.lookup (ripeEnv.hashTx c)).all (fun t => t == c))

theorem brings_new_fresh {nNonce : ℕ} {tx : CTransaction} {b : CBlock}
    (h : bringsNew nNonce tx b st = true) : Fresh ripeEnv (ripeContent nNonce tx) b st := by
  simp only [bringsNew, Bool.and_eq_true, beq_iff_eq, List.all_eq_true, Option.isNone_iff_eq_none,
    Option.all_eq_true] at h
  exact ⟨h.1,fun c hc => (h.2 c hc).1,fun c hc => (h.2 c hc).2⟩

def meetsNone (b : CBlock) (st : ChainState) : Bool :=
  st.mempool.mapTx.entries.all (fun e => b.vtx.any (fun c => ripeEnv.hashTx c == e.1) ||
    b.vtx.all (fun c => e.2.prevouts.all (fun o => !(spent c).contains o)))

theorem meets_none_clear {b : CBlock} (h : meetsNone b st = true) : Clear ripeEnv b st := by
  intro k t hk hout c hc o ho hspent
  rcases Bool.or_eq_true_iff.mp (List.all_eq_true.mp h ⟨k,t⟩ ((mem_entries _ k t).mpr hk)) with
    hin | hfree
  · obtain ⟨d,hd,hdk⟩ := List.any_eq_true.mp hin
    exact hout d hd (beq_iff_eq.mp hdk)
  · have hnot := List.all_eq_true.mp (List.all_eq_true.mp hfree c hc) o ho
    rw [List.contains_iff_mem.mpr hspent] at hnot
    cases hnot

def ripeFiled (b : CBlock) (nBlockPos : ℕ) (st : ChainState) : ChainState :=
  (indexBlock ripeEnv ripeWorld b 1 nBlockPos 0 st).1.begin

def conflictsAt (h : Uint256) (rival : CTransaction) (st : ChainState) : Bool :=
  st.mempool.mapTx.lookup (ripeEnv.hashTx rival) == some rival && st.pindexBest == some h &&
  (chainOf st.mapBlockIndex h).contains h

section Guarded
variable (nNonce : ℕ) (tx : CTransaction) (G : Guards) (hfile : ∀ b n st, G.file b 1 n st)

include hfile

theorem paid_reachable (hattach : G.attach ripeWorld 2 paidBlock (ripeFiled paidBlock 2 ripeStart)) :
    Reachable ripeEnv (Meets ripeEnv G) ripePaid := by
  have hfacts : (addToBlockIndex ripeEnv (readable []) (mined 1 0 0) 1 1 0 .empty).2 = .ok () ∧
      ripeStart.pindexBest.isSome ∧ (ripeStart.mapBlockIndex paidBlock.hashPrevBlock).isSome ∧
      paidBlock.hashPrevBlock = (ripeFiled paidBlock 2 ripeStart).hashBestChain ∧
      live (addToBlockIndex ripeEnv ripeWorld paidBlock 1 2 0 ripeStart).2 = true := by
    decide +kernel
  obtain ⟨hok,hbest,hcalled,hprev,hlive⟩ := hfacts
  have hstart : Reachable ripeEnv (Meets ripeEnv G) ripeStart :=
    .start (w := readable []) (b := mined 1 0 0) rfl
      (empty_meets ripeEnv G _ _ (hfile _ _ _)) (Prod.ext rfl hok) hbest
  exact extension_reachable ripeEnv hstart (hfile _ _ _) hcalled
    hprev hattach hlive

end Guarded

/-- A block that extends the chain leaves in the pool what spends the same output as one of
its transactions. -/
theorem extension_leaves_conflict : ¬ ∀ (env : Env) (content : Uint256 → CBlock) (st : ChainState),
    Reachable env (Meets env (bringing env content)) st → NoConflicts env content st := by
  have hfacts : bringsNew 5 (pays 13 12 1) paidBlock (ripeFiled paidBlock 2 ripeStart) = true ∧
      live (acceptStep ripeEnv ripeWorld false (pays 14 12 1) ripePaid).2 = true ∧
      bringsNew 5 (pays 13 12 1) (nextBlock 5 (pays 13 12 1))
        (ripeFiled (nextBlock 5 (pays 13 12 1)) 5 (offered (pays 14 12 1) ripePaid)) = true ∧
      ((offered (pays 14 12 1) ripePaid).mapBlockIndex 2).isSome ∧
      2 = (ripeFiled (nextBlock 5 (pays 13 12 1)) 5 (offered (pays 14 12 1) ripePaid)).hashBestChain ∧
      live (addToBlockIndex ripeEnv ripeWorld (nextBlock 5 (pays 13 12 1)) 1 5 0
        (offered (pays 14 12 1) ripePaid)).2 = true ∧
      conflictsAt 5 (pays 14 12 1)
        (extended 5 (pays 13 12 1) (offered (pays 14 12 1) ripePaid)) = true := by decide +kernel
  obtain ⟨hpaid,haccepted,hnew,hcalled,hprev,hlive,hconflict⟩ := hfacts
  intro h
  let G := bringing ripeEnv (ripeContent 5 (pays 13 12 1))
  have hfile : ∀ b n st, G.file b 1 n st := fun _ _ _ => (by decide : 1 ≠ uintMax)
  have hoffered : Reachable ripeEnv (Meets ripeEnv G) (offered (pays 14 12 1) ripePaid) :=
    offer_reachable ripeEnv
      (paid_reachable G hfile (brings_new_fresh hpaid)) trivial haccepted
  have hextended := extension_reachable ripeEnv hoffered
    (hfile _ _ _) hcalled hprev (brings_new_fresh hnew) hlive
  simp only [conflictsAt, Bool.and_eq_true, beq_iff_eq, List.contains_iff_mem] at hconflict
  obtain ⟨⟨hpool,hbest⟩,hin⟩ := hconflict
  have hapart := (h _ _ _ hextended _ _ hpool).2 _ hbest _ hin (pays 13 12 1) (by decide) (by decide)
  exact hapart ⟨12,0⟩ (by decide) (by decide)

/-- After a block with a transaction of the pool its child is left there, without a conflict. -/
theorem child_left_without_conflict : NoConflicts ripeEnv (ripeContent 5 (pays 14 12 1))
    (extended 5 (pays 14 12 1) (offered (pays 16 14 2) (offered (pays 14 12 1) ripePaid))) := by
  have hfacts : bringsNew 5 (pays 14 12 1) paidBlock (ripeFiled paidBlock 2 ripeStart) = true ∧
      meetsNone paidBlock (ripeFiled paidBlock 2 ripeStart) = true ∧
      live (acceptStep ripeEnv ripeWorld false (pays 14 12 1) ripePaid).2 = true ∧
      live (acceptStep ripeEnv ripeWorld false (pays 16 14 2) (offered (pays 14 12 1) ripePaid)).2 =
        true ∧
      bringsNew 5 (pays 14 12 1) (nextBlock 5 (pays 14 12 1)) (ripeFiled (nextBlock 5 (pays 14 12 1)) 5
        (offered (pays 16 14 2) (offered (pays 14 12 1) ripePaid))) = true ∧
      meetsNone (nextBlock 5 (pays 14 12 1)) (ripeFiled (nextBlock 5 (pays 14 12 1)) 5
        (offered (pays 16 14 2) (offered (pays 14 12 1) ripePaid))) = true ∧
      ((offered (pays 16 14 2) (offered (pays 14 12 1) ripePaid)).mapBlockIndex 2).isSome ∧
      2 = (ripeFiled (nextBlock 5 (pays 14 12 1)) 5
        (offered (pays 16 14 2) (offered (pays 14 12 1) ripePaid))).hashBestChain ∧
      live (addToBlockIndex ripeEnv ripeWorld (nextBlock 5 (pays 14 12 1)) 1 5 0
        (offered (pays 16 14 2) (offered (pays 14 12 1) ripePaid))).2 = true := by decide +kernel
  obtain ⟨hpaid,hempty,haccepted,hchild,hnew,hmeets,hcalled,hprev,hlive⟩ := hfacts
  let G := clearing ripeEnv (ripeContent 5 (pays 14 12 1))
  have hfile : ∀ b n st, G.file b 1 n st := fun _ _ _ => (by decide : 1 ≠ uintMax)
  have hoffered : Reachable ripeEnv (Meets ripeEnv G) (offered (pays 14 12 1) ripePaid) :=
    offer_reachable ripeEnv (paid_reachable G hfile
      ⟨brings_new_fresh hpaid,meets_none_clear hempty⟩) trivial haccepted
  have hboth : Reachable ripeEnv (Meets ripeEnv G)
      (offered (pays 16 14 2) (offered (pays 14 12 1) ripePaid)) :=
    offer_reachable ripeEnv hoffered trivial hchild
  exact run_without_conflicts ripeEnv (ripeContent 5 (pays 14 12 1)) _
    (extension_reachable ripeEnv hboth (hfile _ _ _)
      hcalled hprev ⟨brings_new_fresh hnew,meets_none_clear hmeets⟩ hlive)

example : ((extended 5 (pays 14 12 1) (offered (pays 16 14 2)
    (offered (pays 14 12 1) ripePaid))).mempool.mapTx.lookup 16).isSome := by decide +kernel

end Sample

end SwippCore.PoolConflicts
