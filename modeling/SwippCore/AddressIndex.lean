import SwippCore.ChainRuns

/-!
# The address index

Connecting a block lists its transactions under addresses: those of its outputs
and those of all outputs of the transactions that it spends from. Nothing ever
takes a transaction off a list. So what is listed is decided by every block that
was on the main chain at some time, and not by the main chain as it is.
-/

set_option autoImplicit false

namespace SwippCore.AddressIndex
open FinMap Checks Ancestry IndexEffect ConnectEffect ChainTree ChainOps
open ChainRollback ChainMoves ChainCursor ChainRuns

variable (env : Env)

def readAddrIndex (s : Store) (a : Uint160) : List Uint256 := (s.addr a).getD []

section Concerns
variable (txOf : Uint256 → CTransaction) (tx : CTransaction) (a : Uint160)

def PaysOwn : Prop := ∃ out ∈ tx.vout, a ∈ buildAddrIndex env out.scriptPubKey

def Concerns : Prop := PaysOwn env tx a ∨
  ∃ o ∈ spent tx, ∃ out, (txOf o.hash).vout[o.n]? = some out ∧ a ∈ buildAddrIndex env out.scriptPubKey

/-- An output of the transaction pays the address, or any of a transaction that it spends
from does. -/
def Touches : Prop := PaysOwn env tx a ∨
  ∃ o ∈ spent tx, ∃ out ∈ (txOf o.hash).vout, a ∈ buildAddrIndex env out.scriptPubKey

theorem concerns_touches (h : Concerns env txOf tx a) : Touches env txOf tx a := by
  rcases h with h | ⟨o,ho,out,hout,ha⟩
  · exact Or.inl h
  · exact Or.inr ⟨o,ho,out,List.mem_of_getElem? hout,ha⟩

end Concerns

section Writes

theorem read_write (s : Store) (a b : Uint160) (hash x : Uint256) :
    x ∈ readAddrIndex (s.writeAddrIndex a hash) b ↔
      x ∈ readAddrIndex s b ∨ x = hash ∧ b = a := by
  unfold readAddrIndex Store.writeAddrIndex
  cases hs : s.addr a with
  | none =>
    by_cases hb : b = a
    · simp [hb, hs]
    · simp [hb]
  | some hashes =>
    by_cases hin : hash ∈ hashes
    · simp only [hin, if_true]
      constructor
      · exact Or.inl
      · rintro (h | ⟨rfl,rfl⟩)
        · exact h
        · rw [hs]
          exact hin
    · by_cases hb : b = a
      · simp [hin, hb, hs]
      · simp [hin, hb]

theorem write_nodup {s : Store} (a : Uint160) (hash : Uint256) (h : ∀ b, (readAddrIndex s b).Nodup)
    (b : Uint160) : (readAddrIndex (s.writeAddrIndex a hash) b).Nodup := by
  have hb := h b
  unfold readAddrIndex Store.writeAddrIndex at *
  cases hs : s.addr a with
  | none =>
    by_cases hba : b = a
    · simp [hba]
    · simpa [hba] using hb
  | some hashes =>
    by_cases hin : hash ∈ hashes
    · simpa [hin] using hb
    · by_cases hba : b = a
      · rw [hba, hs] at hb
        simp only [hin, if_false, hba, Function.update_self, Option.getD_some]
        exact hb.append (List.nodup_singleton _) (by simpa using hin)
      · simpa [hin, hba] using hb

theorem write_addrs_read (hash : Uint256) (as : List Uint160) (s : Store) (b : Uint160)
    (x : Uint256) : x ∈ readAddrIndex (writeAddrs hash as s) b ↔
      x ∈ readAddrIndex s b ∨ x = hash ∧ b ∈ as := by
  induction as generalizing s with
  | nil => simp [writeAddrs]
  | cons a as ih =>
    rw [writeAddrs, ih, read_write, List.mem_cons]
    tauto

theorem write_addrs_nodup (hash : Uint256) (as : List Uint160) (s : Store)
    (h : ∀ b, (readAddrIndex s b).Nodup) (b : Uint160) :
    (readAddrIndex (writeAddrs hash as s) b).Nodup := by
  induction as generalizing s with
  | nil => exact h b
  | cons a as ih => exact ih _ (write_nodup a hash h)

theorem link_on_disk_addr (pprev : Option CBlockIndex) (hashNext : Uint256) (s : Store) :
    (linkOnDisk pprev hashNext s).addr = s.addr := by cases pprev <;> rfl

end Writes

section Fetched
variable (disk : Disk) (pool : Uint256 → Option CTransaction) (e : Uint256 → Option CTxIndex)

structure FetchedFor (os : List COutPoint) (inputs : MapPrevTx) : Prop where
  sound : ∀ k p, inputs.lookup k = some p → (∃ o ∈ os, o.hash = k) ∧
    fetchPrev disk pool e ∅ true k = .ok p
  complete : ∀ o ∈ os, o.hash ∈ inputs

theorem fetch_prevs_for {os : List COutPoint} (before : List COutPoint) (inputs inputs' : MapPrevTx)
    (hin : FetchedFor disk pool e before inputs)
    (h : fetchPrevs disk pool e ∅ true os inputs = .ok inputs') :
    FetchedFor disk pool e (before++os) inputs' := by
  induction os generalizing before inputs with
  | nil =>
    rw [fetchPrevs, Except.ok.injEq] at h
    rwa [List.append_nil, ← h]
  | cons o os ih =>
    rw [fetchPrevs] at h
    rw [show before++o::os = (before++[o])++os by simp]
    split_ifs at h with hmem
    · refine ih (before++[o]) inputs ⟨fun k p hp => ?_,fun o' ho' => ?_⟩ h
      · obtain ⟨⟨o',ho',hk⟩,hf⟩ := hin.sound k p hp
        exact ⟨⟨o',List.mem_append_left _ ho',hk⟩,hf⟩
      · rcases List.mem_append.mp ho' with ho' | ho'
        · exact hin.complete o' ho'
        · obtain rfl := List.mem_singleton.mp ho'
          exact hmem
    · obtain ⟨q,hq,h⟩ := (bind_ok _ _ _).mp h
      refine ih (before++[o]) _ ⟨fun k p hp => ?_,fun o' ho' => ?_⟩ h
      · rw [lookup_insert_if] at hp
        split_ifs at hp with hk
        · rw [hk, ← Option.some_inj.mp hp]
          exact ⟨⟨o,by simp,rfl⟩,hq⟩
        · obtain ⟨⟨o',ho',hk'⟩,hf⟩ := hin.sound k p hp
          exact ⟨⟨o',List.mem_append_left _ ho',hk'⟩,hf⟩
      · rw [AList.mem_insert]
        rcases List.mem_append.mp ho' with ho' | ho'
        · exact Or.inr (hin.complete o' ho')
        · obtain rfl := List.mem_singleton.mp ho'
          exact Or.inl rfl

theorem fetch_inputs_for {tx : CTransaction} {inputs : MapPrevTx}
    (h : fetchInputs disk pool e ∅ true tx = .ok inputs) :
    FetchedFor disk pool e (spent tx) inputs := by
  have hempty : FetchedFor disk pool e [] ∅ :=
    ⟨fun k p hp => by simp at hp,fun o ho => by cases ho⟩
  unfold fetchInputs at h
  unfold spent
  split_ifs at h ⊢
  · cases h
    exact hempty
  · obtain ⟨inputs',hf,h⟩ := (bind_ok _ _ _).mp h
    obtain ⟨_,h⟩ := (then_ok _ _ _).mp h
    cases h
    exact fetch_prevs_for disk pool e [] ∅ _ hempty hf

end Fetched
section Block
variable (content : Uint256 → CBlock) (txOf : Uint256 → CTransaction)

structure Table (E : Uint256 → Prop) (s : Store) : Prop where
  nodup : ∀ a, (readAddrIndex s a).Nodup
  listed : ∀ a x, x ∈ readAddrIndex s a ↔
    ∃ h, E h ∧ ∃ tx ∈ (content h).vtx, env.hashTx tx = x ∧ Touches env txOf tx a

variable {E : Uint256 → Prop} {s : Store}

theorem table_same {s' : Store} (h : Table env content txOf E s) (hs : s'.addr = s.addr) :
    Table env content txOf E s' := by
  have hread : readAddrIndex s' = readAddrIndex s := by
    funext a
    rw [readAddrIndex, readAddrIndex, hs]
  exact ⟨by rw [hread]; exact h.nodup,by rw [hread]; exact h.listed⟩

theorem table_congr {E' : Uint256 → Prop} (h : Table env content txOf E s) (hE : ∀ k, E k ↔ E' k) :
    Table env content txOf E' s := by
  refine ⟨h.nodup,fun a x => ?_⟩
  rw [h.listed]
  exact exists_congr (fun k => and_congr_left (fun _ => hE k))

variable (ctx : ConnectContext)

def PrevsRead (e : Uint256 → Option CTxIndex) (tx : CTransaction) : Prop :=
  ∀ o ∈ spent tx, ∀ p, fetchPrev ctx.disk ctx.pool e ∅ true o.hash = .ok p → p.2 = txOf o.hash

theorem write_addr_index_of_read {tx : CTransaction} {s' : Store} (hr : PrevsRead txOf ctx s.tx tx)
    (h : writeAddrIndexOf env ctx tx s = .ok s') :
    (∀ a x, x ∈ readAddrIndex s' a ↔
        x ∈ readAddrIndex s a ∨ x = env.hashTx tx ∧ Touches env txOf tx a) ∧
      ((∀ a, (readAddrIndex s a).Nodup) → ∀ a, (readAddrIndex s' a).Nodup) ∧ s'.tx = s.tx := by
  obtain ⟨inputs,hf,h⟩ := (bind_ok _ _ _).mp h
  rw [Except.ok.injEq] at h
  have hfor := fetch_inputs_for ctx.disk ctx.pool s.tx hf
  have hprev : ∀ out, out ∈ (inputs.entries.map (fun e => e.2.2.vout)).flatten ↔
      ∃ o ∈ spent tx, out ∈ (txOf o.hash).vout := by
    intro out
    rw [List.mem_flatten]
    constructor
    · rintro ⟨outs,houts,hout⟩
      obtain ⟨⟨k,p⟩,he,rfl⟩ := List.mem_map.mp houts
      obtain ⟨⟨o,ho,rfl⟩,hfetch⟩ := hfor.sound k p (AList.mem_lookup_iff.mpr he)
      exact ⟨o,ho,by rw [← hr o ho p hfetch]; exact hout⟩
    · rintro ⟨o,ho,hout⟩
      obtain ⟨p,hp⟩ := (mem_iff_lookup _ _).mp (hfor.complete o ho)
      refine ⟨p.2.vout,List.mem_map.mpr ⟨⟨o.hash,p⟩,AList.mem_lookup_iff.mp hp,rfl⟩,?_⟩
      rw [hr o ho p (hfor.sound _ _ hp).2]
      exact hout
  rw [← h]
  refine ⟨fun a x => ?_,write_addrs_nodup _ _ s,write_addrs_tx _ _ s⟩
  rw [write_addrs_read]
  refine or_congr_right (and_congr_right (fun _ => ?_))
  rw [List.mem_flatten, Touches, PaysOwn]
  constructor
  · rintro ⟨as,has,ha⟩
    obtain ⟨out,hout,rfl⟩ := List.mem_map.mp has
    rcases List.mem_append.mp hout with hout | hout
    · obtain ⟨o,ho,hout⟩ := (hprev out).mp hout
      exact Or.inr ⟨o,ho,out,hout,ha⟩
    · exact Or.inl ⟨out,hout,ha⟩
  · rintro (⟨out,hout,ha⟩ | ⟨o,ho,out,hout,ha⟩)
    · exact ⟨_,List.mem_map.mpr ⟨out,List.mem_append_right _ hout,rfl⟩,ha⟩
    · exact ⟨_,List.mem_map.mpr ⟨out,List.mem_append_left _ ((hprev out).mpr ⟨o,ho,hout⟩),rfl⟩,ha⟩

theorem write_addr_indexes_read {txs : List CTransaction} (s s' : Store)
    (hr : ∀ tx ∈ txs, PrevsRead txOf ctx s.tx tx) (h : writeAddrIndexes env ctx txs s = .ok s') :
    (∀ a x, x ∈ readAddrIndex s' a ↔ x ∈ readAddrIndex s a ∨
        ∃ tx ∈ txs, env.hashTx tx = x ∧ Touches env txOf tx a) ∧
      ((∀ a, (readAddrIndex s a).Nodup) → ∀ a, (readAddrIndex s' a).Nodup) := by
  induction txs generalizing s with
  | nil =>
    rw [writeAddrIndexes, Except.ok.injEq] at h
    rw [← h]
    exact ⟨fun a x => by simp,fun hn => hn⟩
  | cons tx txs ih =>
    obtain ⟨s1,h1,h⟩ := (bind_ok _ _ _).mp h
    obtain ⟨hread,hnodup,htx⟩ := write_addr_index_of_read env txOf ctx (hr tx (by simp)) h1
    obtain ⟨hread',hnodup'⟩ := ih s1 (fun t ht => htx ▸ hr t (by simp [ht])) h
    refine ⟨fun a x => ?_,fun hn => hnodup' (hnodup hn)⟩
    rw [hread', hread]
    simp only [List.mem_cons, exists_eq_or_imp]
    rw [or_assoc, eq_comm]

theorem connect_writes_table {pprev : Option CBlockIndex} {b : CBlock} {i : CBlockIndex}
    {t : Totals} {s' : Store} {h : Uint256} (hb : content h = b) (hreal : ctx.fJustCheck = false)
    (hr : ∀ tx ∈ b.vtx, PrevsRead txOf ctx (queued t.mapQueuedChanges s.tx) tx)
    (hw : connectWrites env ctx pprev b i t s = .ok s') (ht : Table env content txOf E s) :
    Table env content txOf (fun k => E k ∨ k = h) s' := by
  simp only [connectWrites, hreal, Bool.false_eq_true, if_false] at hw
  obtain ⟨s1,h1,hw⟩ := (bind_ok _ _ _).mp hw
  rw [Except.ok.injEq] at hw
  have hstart : Table env content txOf E
      (writeQueued t.mapQueuedChanges.entries (s.writeBlockIndex i.hashBlock (.ofIndex i))) :=
    table_same env content txOf ht (by rw [write_queued_frame]; rfl)
  obtain ⟨hread,hnodup⟩ := write_addr_indexes_read env txOf ctx _ s1
    (fun tx htx => by
      rw [write_queue, Store.write_block_index_tx]
      exact hr tx htx) h1
  have hs1 : Table env content txOf (fun k => E k ∨ k = h) s1 := by
    refine ⟨hnodup hstart.nodup,fun a x => ?_⟩
    rw [hread, hstart.listed]
    constructor
    · rintro (⟨k,hk,hx⟩ | hx)
      · exact ⟨k,Or.inl hk,hx⟩
      · exact ⟨h,Or.inr rfl,by rw [hb]; exact hx⟩
    · rintro ⟨k,hk | rfl,hx⟩
      · exact Or.inl ⟨k,hk,hx⟩
      · rw [hb] at hx
        exact Or.inr hx
  rw [← hw]
  exact table_same env content txOf hs1 (link_on_disk_addr _ _ s1)

theorem disconnect_block_addr {pprev : Option CBlockIndex} {b : CBlock} {s' : Store}
    (h : disconnectBlock env pprev b s = .ok s') : s'.addr = s.addr := by
  obtain ⟨s1,h1,h⟩ := (bind_ok _ _ _).mp h
  rw [Except.ok.injEq] at h
  rw [← h, link_on_disk_addr, disconnect_txs_frame env s s1 h1]

end Block

section Trail
variable (G : Guards)

inductive Trail : List (ChainState × Uint256) → ChainState × Uint256 → Prop
  | start {st : ChainState} {g : Uint256} (h : Started env G st g) : Trail [] (st,g)
  | step {hist : List (ChainState × Uint256)} {a c : ChainState × Uint256} (h : Trail hist a)
      (hm : Move env G a c) : Trail (a::hist) c

theorem trail_standing {hist : List (ChainState × Uint256)} {c : ChainState × Uint256}
    (h : Trail env G hist c) : Standing c.1 c.2 := by
  induction h with
  | start h => exact h.crowned.standing
  | step _ hm ih => exact standing_move env G _ _ hm ih

theorem moves_trail {hist : List (ChainState × Uint256)} {a c : ChainState × Uint256}
    (h : Trail env G hist a) (hm : Moves env G a c) : ∃ hist', Trail env G hist' c := by
  induction hm with
  | refl => exact ⟨hist,h⟩
  | tail _ hm ih =>
    obtain ⟨hist',h'⟩ := ih
    exact ⟨_,.step h' hm⟩

theorem reachable_trail {st : ChainState} (h : Reachable env (Meets env G) st) :
    ∃ hist tip, Crowned st tip ∧ Trail env G hist (st,tip) := by
  obtain ⟨st0,g,tip,hs,hmoves,hc⟩ := reachable_moves env G h
  obtain ⟨hist,ht⟩ := moves_trail env G (.start hs) hmoves
  exact ⟨hist,tip,hc,ht⟩

end Trail

def chainOf (m : BlockMap) (tip : Uint256) : List Uint256 :=
  (m.pathOf tip).filter (fun h => (m.parentOf h).isSome)

def mainChain (c : ChainState × Uint256) : List Uint256 := chainOf c.1.mapBlockIndex c.2

def Ever (hist : List (ChainState × Uint256)) (c : ChainState × Uint256) (h : Uint256) : Prop :=
  ∃ d ∈ c::hist, h ∈ mainChain d

section Chain
variable (m : BlockMap)

theorem chain_same (m' : BlockMap) (h : SameTree m m') (tip : Uint256) :
    chainOf m' tip = chainOf m tip := by
  rw [chainOf, chainOf, same_tree_path h, same_tree_parent h]

theorem chain_next (ht : Tree m) {h p : Uint256} (hp : m.parentOf h = some p) :
    chainOf m h = h::chainOf m p := by
  have hpath : m.pathOf h = h::m.pathOf p := path_some (tree_graded ht) hp
  rw [chainOf, hpath, List.filter_cons, if_pos (by simp [hp])]
  rfl

theorem chain_child (ht : Tree m) (h p k : Uint256) (hp : m.parentOf h = some p) :
    k ∈ chainOf m h ↔ k = h ∨ k ∈ chainOf m p := by
  rw [chain_next m ht hp, List.mem_cons]

theorem chain_below (ht : Tree m) {p tip : Uint256} {xs : List Uint256}
    (h : Ascends m.parentOf p xs tip) (k : Uint256) (hk : k ∈ chainOf m p) :
    k ∈ chainOf m tip := by
  rw [chainOf, List.mem_filter] at hk ⊢
  refine ⟨?_,hk.2⟩
  rw [show m.pathOf tip = _ from ascends_path (tree_graded ht) p h]
  exact List.mem_append_right _ hk.1

theorem chain_filed {b : CBlock} (nFile nBlockPos : ℕ) (hashProof : Uint256) (modifier : ℕ × Bool)
    (ht : Tree m) (hnew : m (env.hashBlock b) = none) (hprev : (m b.hashPrevBlock).isSome)
    {tip : Uint256} (htip : (m tip).isSome) :
    chainOf (filed env b nFile nBlockPos hashProof modifier m) tip = chainOf m tip := by
  have hpar := @filed_old_parent env b nFile nBlockPos hashProof modifier m ht hnew tip htip
  rw [chainOf, chainOf, filed_path env ht hnew hprev htip]
  exact List.filter_congr (fun k hk => congrArg Option.isSome (hpar k hk))

end Chain

section Run
variable (content : Uint256 → CBlock) (txOf : Uint256 → CTransaction)

/-- The block is the one of its hash, and the transactions that it spends from are read
as those of theirs. -/
structure Coherent (w : World) (h : Uint256) (b : CBlock) (st : ChainState) : Prop where
  block : content (env.hashBlock b) = b
  prevs : ∀ i t, st.mapBlockIndex h = some i →
    connectChecks env (connectContext w st h i) (w.ambient h) st.txdb.view b = .ok t →
    ∀ tx ∈ b.vtx, PrevsRead txOf (connectContext w st h i)
      (queued t.mapQueuedChanges st.txdb.view.tx) tx

def coherent : Guards where
  attach := Coherent env content txOf
  disconnect _ _ _ _ := True
  connect := Coherent env content txOf
  file _ _ _ _ := True
  offer _ := True

section Steps
variable (w : World) (E : Uint256 → Prop) (m : BlockMap)

theorem connect_step_table {h p : Uint256} {b : CBlock} {i : CBlockIndex} {st st1 : ChainState}
    (hs : Site env m h p b i st) (hg : Coherent env content txOf w h b st)
    (hstep : connectStep env w h b st = (st1,.ok ())) (ht : Table env content txOf E st.txdb.view) :
    Table env content txOf (fun k => E k ∨ k = h) st1.txdb.view := by
  obtain ⟨j,t,s,hj,hc,hw,rfl⟩ := (connect_step_ok env w h b st1 hs.working.ready).mp hstep
  have hb : content h = b := by
    rw [← hs.hash]
    exact hg.block
  have hview : (connected h b j t s st).txdb.view = s := by
    simp [connected, ChainState.syncAll]
  rw [hview]
  exact connect_writes_table env content txOf (connectContext w st h j) hb rfl
    (hg.prevs j t hj hc) hw ht

theorem disconnect_step_table {h : Uint256} {b : CBlock} {st st1 : ChainState}
    (hstep : disconnectStep env h b st = (st1,.ok ()))
    (ht : Table env content txOf E st.txdb.view) : Table env content txOf E st1.txdb.view := by
  obtain ⟨i,s,_,hd,rfl⟩ := (disconnect_step_ok env h b st st1).mp hstep
  have hview : (disconnected b s st).txdb.view = s := by
    simp [disconnected, ChainState.syncAll]
  rw [hview]
  exact table_same env content txOf ht (disconnect_block_addr env hd)

variable (st st' : ChainState) (tip : Uint256)
variable (ht : Table env content txOf E st.txdb.committed)
  (hE : ∀ k ∈ chainOf st.mapBlockIndex tip, E k)
include ht hE

theorem attach_table {h : Uint256} {b : CBlock} (hs : Standing st tip)
    (hp : st.mapBlockIndex.parentOf h = some tip) (hb : env.hashBlock b = h)
    (hg : Coherent env content txOf w h b st.begin) (ha : Attached env w h b st st') :
    Table env content txOf (fun k => E k ∨ k ∈ chainOf st'.mapBlockIndex h) st'.txdb.committed := by
  obtain ⟨hsame,_⟩ := attached_same env w h b st' hs.best ha
  obtain ⟨st1,hc,had⟩ := ha
  obtain ⟨i,hsite⟩ := attach_site env hs hp hb
  have h1 := connect_step_table env content txOf w E _ hsite hg hc ht
  obtain ⟨hpool,hcom⟩ := adopted_block env had
  rw [hcom, chain_same _ _ hsame]
  refine table_congr env content txOf (table_same env content txOf h1 rfl) (fun k => ?_)
  rw [chain_child _ hs.tree h tip k hp]
  have := hE k
  tauto

theorem switch_table {hNew : Uint256} (hs : Standing st tip)
    (hsw : Switched env w (coherent env content txOf) tip hNew st st') :
    Table env content txOf (fun k => E k ∨ k ∈ chainOf st'.mapBlockIndex hNew)
      st'.txdb.committed := by
  obtain ⟨hsame,_⟩ := switched_same env w _ hs.best hsw
  obtain ⟨pfork,xs,ys,st1,st2,res,del,hdown,hup,_,hdis,hcon,had,hgd,hgc⟩ := hsw
  have hw0 := begin_working hs
  obtain ⟨hj1,hw1⟩ := down_rule env w st.mapBlockIndex
    (fun x _ => Table env content txOf E x.1.txdb.view)
    (fun h p b i a a1 _ _ hstep hj => disconnect_step_table env content txOf E hstep hj)
    tip (st.begin,[]) hw0 hdown hgd hdis ht
  have hfork : Table env content txOf (fun k => E k ∨ k ∈ chainOf st.mapBlockIndex pfork)
      st1.txdb.view := by
    refine table_congr env content txOf hj1 (fun k => ?_)
    have := hE k
    have := chain_below _ hs.tree hdown k
    tauto
  obtain ⟨hj2,_⟩ := up_rule env w st.mapBlockIndex
    (fun x c => Table env content txOf (fun k => E k ∨ k ∈ chainOf st.mapBlockIndex c) x.1.txdb.view)
    (fun h p b i a a1 _ hr hstep hj => by
      have h1 := connect_step_table env content txOf w _ _ hr.site hr.meets hstep hj
      refine table_congr env content txOf h1 (fun k => ?_)
      rw [chain_child _ hs.tree h p k (site_parent env _ hr.site)]
      tauto)
    pfork (st1,[]) hw1 hup hgc hcon hfork
  obtain ⟨hpool,hcom⟩ := adopted_branch env w had
  rw [hcom, chain_same _ _ hsame]
  exact table_same env content txOf hj2 rfl

end Steps

/-- A move lists what the blocks of its main chain touch, and keeps what is listed. -/
theorem table_move {a c : ChainState × Uint256} {E : Uint256 → Prop} (hs : Standing a.1 a.2)
    (ht : Table env content txOf E a.1.txdb.committed) (hE : ∀ k ∈ mainChain a, E k)
    (h : Move env (coherent env content txOf) a c) :
    Table env content txOf (fun k => E k ∨ k ∈ mainChain c) c.1.txdb.committed := by
  have hsame : ∀ c : ChainState × Uint256, c.1.txdb.committed.addr = a.1.txdb.committed.addr →
      mainChain c = mainChain a →
      Table env content txOf (fun k => E k ∨ k ∈ mainChain c) c.1.txdb.committed := by
    intro c hc hchain
    refine table_congr env content txOf (table_same env content txOf ht hc) (fun k => ?_)
    rw [hchain]
    have := hE k
    tauto
  cases h with
  | undone h =>
    exact hsame _ h.committed.addr (chain_same _ _ (retotalled_same _ _ _ h.entries) _)
  | attach hp hb hg ha => exact attach_table env content txOf _ E _ _ _ ht hE hs hp hb hg ha
  | switch h => exact switch_table env content txOf _ E _ _ _ ht hE hs h
  | crown h =>
    obtain ⟨i,hi,rfl⟩ := new_best_ok h
    exact hsame _ rfl rfl
  | @file w st st' tip b nFile nBlockPos hashProof r hprev _ h =>
    rcases index_block_cases env w h with
      ⟨rfl,_⟩ | ⟨hnew,modifier,rfl,_⟩
    · exact hsame _ rfl rfl
    · refine hsame _ ?_ ?_
      · cases w.indexCommitOk <;> rfl
      · exact chain_filed env _ nFile nBlockPos hashProof modifier hs.tree hnew hprev hs.entry
  | @offer w st st' tip fLimitFree tx r _ h =>
    have hpool := accept_step_pooled env w fLimitFree tx st
    rw [h] at hpool
    refine hsame (st',tip) (by rw [hpool.txdb]) ?_
    rw [mainChain, mainChain, hpool.entries]

theorem started_table {st : ChainState} {g : Uint256}
    (h : Started env (coherent env content txOf) st g) :
    Table env content txOf (Ever [] (st,g)) st.txdb.committed := by
  obtain ⟨b,nFile,nBlockPos,hashProof,modifier,rfl,_,hmap,hcom⟩ := h.entry
  obtain ⟨hpath,hpar⟩ := first_path env b nFile nBlockPos hashProof modifier
  have hnone : ∀ k, ¬ Ever [] (st,env.hashBlock b) k := by
    rintro k ⟨d,hd,hk⟩
    obtain rfl := List.mem_singleton.mp hd
    rw [mainChain, chainOf, List.mem_filter, hmap, hpar k] at hk
    exact absurd hk.2 (by simp)
  have hread : ∀ a, readAddrIndex st.txdb.committed a = [] := by
    intro a
    rw [hcom]
    rfl
  refine ⟨fun a => by rw [hread]; exact List.nodup_nil,fun a x => ?_⟩
  rw [hread]
  constructor
  · intro hx
    cases hx
  · rintro ⟨k,hk,_⟩
    exact absurd hk (hnone k)

/-- In every run the lists hold what is touched by the blocks that were ever on the main
chain. -/
theorem trail_table {hist : List (ChainState × Uint256)} {c : ChainState × Uint256}
    (h : Trail env (coherent env content txOf) hist c) :
    Table env content txOf (Ever hist c) c.1.txdb.committed := by
  induction h with
  | start h => exact started_table env content txOf h
  | @step hist a c h hm ih =>
    have hs := trail_standing env _ h
    have hmove := table_move env content txOf hs ih
      (fun k hk => ⟨a,by simp,hk⟩) hm
    refine table_congr env content txOf hmove (fun k => ?_)
    simp only [Ever, List.mem_cons, exists_eq_or_imp]
    exact or_comm

def Rightly (c : ChainState × Uint256) (a : Uint160) (x : Uint256) : Prop :=
  ∃ h ∈ mainChain c, ∃ tx ∈ (content h).vtx, env.hashTx tx = x ∧ Concerns env txOf tx a

/-- Under every address the transactions of the main chain that concern it are listed, each
once, and no others. -/
def Exact (c : ChainState × Uint256) : Prop :=
  ∀ a, (readAddrIndex c.1.txdb.committed a).Nodup ∧
    ∀ x, x ∈ readAddrIndex c.1.txdb.committed a ↔ Rightly env content txOf c a x

/-- In every run the lists are exact exactly when whatever was touched by a block that was
ever on the main chain concerns a transaction of the main chain with that hash. -/
theorem exact_iff (hist : List (ChainState × Uint256)) (c : ChainState × Uint256)
    (h : Trail env (coherent env content txOf) hist c) :
    Exact env content txOf c ↔ ∀ k, Ever hist c k → ∀ tx ∈ (content k).vtx, ∀ a,
      Touches env txOf tx a → Rightly env content txOf c a (env.hashTx tx) := by
  have ht := trail_table env content txOf h
  constructor
  · intro he k hk tx htx a ha
    exact ((he a).2 _).mp ((ht.listed a _).mpr ⟨k,hk,tx,htx,rfl,ha⟩)
  · intro hall a
    refine ⟨ht.nodup a,fun x => ?_⟩
    rw [ht.listed]
    constructor
    · rintro ⟨k,hk,tx,htx,rfl,ha⟩
      exact hall k hk tx htx a ha
    · rintro ⟨k,hk,tx,htx,hx,ha⟩
      exact ⟨k,⟨c,by simp,hk⟩,tx,htx,hx,concerns_touches env txOf tx a ha⟩

end Run

section Sample

def sampleBlocks : List CBlock := [mined 2 1 10,mined 3 1 10,mined 4 3 10]

def sampleContent (h : Uint256) : CBlock :=
  ((mined 1 0 0::sampleBlocks).find? (fun b => sampleEnv.hashBlock b == h)).getD (mined 1 0 0)

def sampleTx (_ : Uint256) : CTransaction := ⟨1,0,[],[],0⟩

theorem sample_coherent {b : CBlock} (hb : b ∈ sampleBlocks) (w : World) (h : Uint256)
    (st : ChainState) : Coherent sampleEnv sampleContent sampleTx w h b st := by
  have hall : ∀ b ∈ sampleBlocks, sampleContent (sampleEnv.hashBlock b) = b ∧
      ∀ tx ∈ b.vtx, spent tx = [] := by decide +kernel
  obtain ⟨hblock,hspent⟩ := hall b hb
  refine ⟨hblock,fun i t _ _ tx htx o ho => ?_⟩
  rw [hspent tx htx] at ho
  cases ho

theorem sample_reads_coherent (h : Uint256) (x : ChainState × List CTransaction) :
    Reads sampleEnv (readable sampleBlocks) (Coherent sampleEnv sampleContent sampleTx) h x := by
  intro i b _ hread
  obtain ⟨b',hfound,hread⟩ := Option.bind_eq_some_iff.mp hread
  split_ifs at hread
  cases hread
  have hin : b ∈ sampleBlocks := List.mem_of_find?_eq_some
    (show sampleBlocks.find? (fun b => b.nNonce == i.nBlockPos) = some b from hfound)
  exact sample_coherent hin _ h x.1

theorem branches_reachable {st : ChainState} (h : playAll sampleEnv (postponesNone sampleEnv)
      (sampleBlocks.map (addMined sampleBlocks)) firstState = some st) :
    Reachable sampleEnv (Meets sampleEnv (coherent sampleEnv sampleContent sampleTx)) st := by
  refine play_calls_reachable sampleEnv _ (fun a ha st ht => ?_) _ st
    (first_reachable _ (empty_meets sampleEnv _ _ _ trivial)) h
  obtain ⟨b,hb,rfl⟩ := List.mem_map.mp ha
  exact postpones_none_guards sampleEnv (coherent sampleEnv sampleContent sampleTx)
    (fun st => sample_coherent hb _ _ st) (fun _ _ _ _ _ _ => trivial) sample_reads_coherent
    trivial ht

/-- The coin base of a block that was disconnected stays listed. -/
theorem stale_hash_listed : ¬ ∀ (env : Env) (content : Uint256 → CBlock)
    (txOf : Uint256 → CTransaction) (hist : List (ChainState × Uint256))
    (c : ChainState × Uint256), Trail env (coherent env content txOf) hist c →
      Exact env content txOf c := by
  have hrun : (playAll sampleEnv (postponesNone sampleEnv) (sampleBlocks.map (addMined sampleBlocks))
      firstState).any (fun st => st.pindexBest == some 4 &&
        (readAddrIndex st.txdb.committed 1).contains 12 &&
        (chainOf st.mapBlockIndex 4).all (fun k => (sampleContent k).vtx.all (fun tx =>
          sampleEnv.hashTx tx != 12))) = true := by decide +kernel
  intro h
  obtain ⟨st,hst,hfacts⟩ := (Option.any_eq_true _ _).mp hrun
  simp only [Bool.and_eq_true, beq_iff_eq, List.contains_iff_mem, List.all_eq_true] at hfacts
  obtain ⟨⟨hbest,hlisted⟩,hnone⟩ := hfacts
  obtain ⟨hist,tip,hc,ht⟩ := reachable_trail sampleEnv _ (branches_reachable hst)
  obtain rfl : tip = 4 := Option.some_inj.mp (hc.best.symm.trans hbest)
  obtain ⟨k,hk,tx,htx,hx,_⟩ :=
    ((h sampleEnv sampleContent sampleTx hist (st,4) ht 1).2 12).mp hlisted
  have hne := hnone k hk tx htx
  rw [hx] at hne
  exact absurd hne (by decide)

def filedState : ChainState :=
  (indexBlock sampleEnv (readable sampleBlocks) (mined 2 1 10) 1 2 0 firstState).1

def joinedState : ChainState :=
  (connectStep sampleEnv (readable sampleBlocks) 2 (mined 2 1 10) filedState.begin).1

def attachedState : ChainState :=
  (adoptBlock sampleEnv 2 (mined 2 1 10) ((joinedState.writeHashBestChain 2).commit true)).1

theorem attached_trail : Trail sampleEnv (coherent sampleEnv sampleContent sampleTx)
    [(filedState,1),(firstState,1)] (attachedState,2) := by
  have hadd : addToBlockIndex sampleEnv (readable []) (mined 1 0 0) 1 1 0 .empty =
      (firstState,.ok ()) := Prod.ext rfl (by decide +kernel)
  have hstart : Started sampleEnv (coherent sampleEnv sampleContent sampleTx) firstState 1 :=
    start_started sampleEnv _ rfl trivial hadd (by decide +kernel)
  have hindex : indexBlock sampleEnv (readable sampleBlocks) (mined 2 1 10) 1 2 0 firstState =
      (filedState,.ok ()) := Prod.ext rfl (by decide +kernel)
  have hfile : Move sampleEnv (coherent sampleEnv sampleContent sampleTx) (firstState,1)
      (filedState,1) := .file (by decide +kernel) trivial hindex
  have hconnect : connectStep sampleEnv (readable sampleBlocks) 2 (mined 2 1 10) filedState.begin =
      (joinedState,.ok ()) := Prod.ext rfl (by decide +kernel)
  have hadopt : adoptBlock sampleEnv 2 (mined 2 1 10)
      ((joinedState.writeHashBestChain 2).commit true) = (attachedState,.ok ()) :=
    Prod.ext rfl (by decide +kernel)
  exact .step (.step (.start hstart) hfile) (.attach (by decide +kernel) rfl
    (sample_coherent (by simp [sampleBlocks]) _ _ _) ⟨joinedState,hconnect,hadopt⟩)

/-- After one block was attached the lists are exact. -/
theorem attached_exact : Exact sampleEnv sampleContent sampleTx (attachedState,2) := by
  refine (exact_iff sampleEnv sampleContent sampleTx _ _ attached_trail).mpr ?_
  have hchains : mainChain (attachedState,2) = [2] ∧ mainChain (filedState,1) = [] ∧
      mainChain (firstState,1) = [] := by decide +kernel
  rintro k ⟨d,hd,hk⟩ tx htx a ha
  simp only [List.mem_cons, List.not_mem_nil, or_false] at hd
  rcases hd with rfl | rfl | rfl
  · rw [hchains.1, List.mem_singleton] at hk
    have hspent : ∀ tx ∈ (sampleContent 2).vtx, spent tx = [] := by decide +kernel
    rw [hk] at htx
    refine ⟨2,by rw [hchains.1]; simp,tx,htx,rfl,Or.inl ?_⟩
    rcases ha with ha | ⟨o,ho,_⟩
    · exact ha
    · rw [hspent tx htx] at ho
      cases ho
  · rw [hchains.2.1] at hk
    cases hk
  · rw [hchains.2.2] at hk
    cases hk

end Sample
end SwippCore.AddressIndex
