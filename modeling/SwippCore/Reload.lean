import SwippCore.IndexRecords

/-!
# The index after a restart

In a run in which the postponed blocks of each call are all connected, every record
has what the scan needs to make its entry again: its own hash, its parent, its next
block and its totals. Where every entry has its record, the block index that is
loaded is the one in memory, with the same best block.
-/

set_option autoImplicit false

namespace SwippCore.Reload
open Checks Attempt Ancestry ChainTree ChainOps ChainRollback ChainMoves
open ChainRuns BestChain LoadBlockIndex IndexRecords

variable (env : Env) (l : Startup)

def HeaderHash : Prop := ∀ b, env.hashBlock (header b) = env.hashBlock b

/-- The blocks that are filed have a hash that is not null, and the first block has a
null parent. -/
def loadable : Guards :=
  { Guards.none with
    file := fun b _ _ st => env.hashBlock b ≠ 0 ∧
      (st.mapBlockIndex b.hashPrevBlock = none → b.hashPrevBlock = 0) }

structure Born (m : BlockMap) (h : Uint256) (i : CBlockIndex) : Prop where
  hash : env.hashBlock (diskHeader (.ofIndex i)) = h
  nonzero : h ≠ 0
  trust : i.nChainTrust = ((i.pprev.bind m).map CBlockIndex.nChainTrust).getD 0+
    getBlockTrust i.nBits
  stake : isProofOfStake i.nFlags = false → i.prevoutStake = .null ∧ i.nStakeTime = 0

def AllBorn (m : BlockMap) : Prop := ∀ h i, m h = some i → Born env m h i

theorem core_born {m m' : BlockMap} {h : Uint256} {i i' : CBlockIndex} (hm : SameTree m m')
    (hc : core i' = core i) (hb : Born env m h i) : Born env m' h i' := by
  have hfields := hc
  simp only [core, CBlockIndex.mk.injEq] at hfields
  obtain ⟨_,hpprev,_,_,_,htrust,_,_,_,hflags,_,hprevout,htime,_,hversion,hmerkle,hbtime,hbits,
    hnonce⟩ := hfields
  refine ⟨?_,hb.nonzero,?_,?_⟩
  · rw [← hb.hash]
    simp only [diskHeader, CDiskBlockIndex.ofIndex, hpprev, hversion, hmerkle, hbtime, hbits, hnonce]
  · rw [htrust, hb.trust, hpprev, hbits, Option.map_bind, Option.map_bind]
    congr 2
    refine congrArg _ (funext (fun q => ?_))
    exact (same_tree_trust hm q).symm
  · rw [hflags, hprevout, htime]
    exact hb.stake

theorem same_tree_born (m m' : BlockMap) (hm : SameTree m m') (hb : AllBorn env m) :
    AllBorn env m' := by
  intro h i' hi'
  obtain ⟨i,hi,hc⟩ := same_tree_entry hm hi'
  exact core_born env hm hc (hb h i hi)

theorem stake_flag (stake : Bool) (k : ℕ) (generated : Bool) :
    isProofOfStake ((if stake then blockProofOfStake else 0)+2*(k % 2)+
      (if generated then 4 else 0)) = stake := by
  rcases Nat.mod_two_eq_zero_or_one k with h | h <;> rw [h] <;> cases stake <;>
    cases generated <;> rfl

section
variable (hh : HeaderHash env) {b : CBlock} (nFile nBlockPos : ℕ) (hashProof : Uint256)
  (modifier : ℕ × Bool)
include hh

theorem new_born (m m' : BlockMap) (h0 : env.hashBlock b ≠ 0)
    (hnone : m b.hashPrevBlock = none → b.hashPrevBlock = 0)
    (hparent : (m b.hashPrevBlock).isSome → m' b.hashPrevBlock = m b.hashPrevBlock) :
    Born env m' (env.hashBlock b) (newEntry env b nFile nBlockPos hashProof modifier m) := by
  refine ⟨?_,h0,?_,?_⟩
  · rw [← hh b]
    have hprev : ((m b.hashPrevBlock).map (fun _ => b.hashPrevBlock)).getD 0 = b.hashPrevBlock := by
      cases hp : m b.hashPrevBlock with
      | none => exact (hnone hp).symm
      | some p => rfl
    simp only [diskHeader, CDiskBlockIndex.ofIndex, newEntry, header, hprev]
  · cases hp : m b.hashPrevBlock with
    | none => simp [newEntry, hp]
    | some p => simp [newEntry, hp, hparent (by rw [hp]; rfl)]
  · intro hflag
    have hs : b.isProofOfStake = false := by
      rw [← stake_flag b.isProofOfStake (env.hashBlock b).toNat modifier.2]
      exact hflag
    simp [newEntry, hs]

theorem filed_born {m : BlockMap} (ht : Tree m) (hnew : m (env.hashBlock b) = none)
    (hprev : (m b.hashPrevBlock).isSome) (h0 : env.hashBlock b ≠ 0) (hb : AllBorn env m) :
    AllBorn env (filed env b nFile nBlockPos hashProof modifier m) := by
  have hother := @filed_other env b nFile nBlockPos hashProof modifier m
  have hold : ∀ q, (m q).isSome →
      filed env b nFile nBlockPos hashProof modifier m q = m q := by
    intro q hq
    apply hother
    rintro rfl
    rw [hnew] at hq
    cases hq
  intro h i hi
  by_cases hk : h = env.hashBlock b
  · have hself : i = newEntry env b nFile nBlockPos hashProof modifier m := by
      rw [hk] at hi
      simpa [filed] using hi.symm
    rw [hself, hk]
    refine new_born env hh nFile nBlockPos hashProof modifier m _ h0 ?_ (hold _)
    intro hn
    rw [hn] at hprev
    cases hprev
  · rw [hother h hk] at hi
    have hbi := hb h i hi
    refine ⟨hbi.hash,hbi.nonzero,?_,hbi.stake⟩
    rw [hbi.trust]
    cases hp : i.pprev with
    | none => rfl
    | some p =>
      obtain ⟨j,hj,_⟩ := ht.step h i p hi hp
      rw [Option.bind_some, Option.bind_some, hold p (by rw [hj]; rfl)]

end

structure Kept (st : ChainState) (tip : Uint256) : Prop where
  stored : Described env st tip
  written : Written st tip
  born : AllBorn env st.mapBlockIndex
  finite : {h | (st.mapBlockIndex h).isSome}.Finite

section Run
variable (G : Guards) (hload : ∀ b nFile nBlockPos st, G.file b nFile nBlockPos st →
  (loadable env).file b nFile nBlockPos st)
include hload

theorem kept_move (hh : HeaderHash env) (a c : ChainState × Uint256) (hs : Standing a.1 a.2)
    (hk : Kept env a.1 a.2) (h : Move env G a c) : Kept env c.1 c.2 := by
  refine ⟨described_move env G a c hs hk.stored h,written_move G hs hk.stored.links hk.written h,?_,?_⟩
  · refine tree_move G (AllBorn env) (same_tree_born env) ?_ hs hk.born h
    intro b nFile nBlockPos hashProof modifier st ht hnew hprev hg hb
    exact filed_born env hh nFile nBlockPos hashProof modifier ht hnew hprev
      (hload b nFile nBlockPos st hg).1 hb
  · refine tree_move G (fun m => {h | (m h).isSome}.Finite) ?_ ?_ hs hk.finite h
    · intro m m' hm hfin
      exact hfin.subset (fun k hk => by rw [Set.mem_ofPred_eq, ← same_entry hm]; exact hk)
    · intro b nFile nBlockPos hashProof modifier st _ _ _ _ hfin
      apply (hfin.insert (env.hashBlock b)).subset
      intro k hk
      by_cases hkb : k = env.hashBlock b
      · exact Set.mem_insert_iff.mpr (Or.inl hkb)
      · rw [Set.mem_ofPred_eq, filed_other env k hkb] at hk
        exact Set.mem_insert_of_mem _ hk

theorem started_kept (hh : HeaderHash env) (st : ChainState) (g : Uint256)
    (h : Started env G st g) : Kept env st g := by
  have hw := started_written G h
  have hd := started_described env G st g h
  obtain ⟨b,nFile,nBlockPos,hashProof,modifier,rfl,hg,hmap,_⟩ := h.entry
  have hfile := hload b nFile nBlockPos .empty hg
  have hself : ∀ k i, st.mapBlockIndex k = some i → k = env.hashBlock b ∧
      i = newEntry env b nFile nBlockPos hashProof modifier (fun _ => none) := by
    intro k i hi
    rw [hmap, filed, Function.update_apply] at hi
    split_ifs at hi with hk
    exact ⟨hk,(Option.some_inj.mp hi).symm⟩
  refine ⟨hd,hw,?_,?_⟩
  · intro k i hi
    obtain ⟨rfl,rfl⟩ := hself k i hi
    exact new_born env hh nFile nBlockPos hashProof modifier _ _ hfile.1 hfile.2 (by simp)
  · apply (Set.finite_singleton (env.hashBlock b)).subset
    intro k hk
    obtain ⟨i,hi⟩ := Option.isSome_iff_exists.mp hk
    exact (hself k i hi).1

end Run

section Restart
variable (st : ChainState) (tip : Uint256)

def Saved : Prop := ∀ h, (st.mapBlockIndex h).isSome → (st.txdb.committed.blockIndex h).isSome

structure Scan (es : List (Uint256 × CDiskBlockIndex)) (s : Store) : Prop where
  exact : ∀ h r, (h,r) ∈ es ↔ s.blockIndex h = some r
  distinct : (es.map Prod.fst).Nodup

def scanOf (s : Store) (hs : List Uint256) : List (Uint256 × CDiskBlockIndex) :=
  hs.filterMap (fun h => (s.blockIndex h).map (fun r => (h,r)))

theorem scan_of_scan (s : Store) (hs : List Uint256) (hnodup : hs.Nodup)
    (hall : ∀ h, (s.blockIndex h).isSome → h ∈ hs) : Scan (scanOf s hs) s := by
  refine ⟨?_,?_⟩
  · intro h r
    simp only [scanOf, List.mem_filterMap, Option.map_eq_some_iff, Prod.mk.injEq]
    exact ⟨fun ⟨a,_,t,ht,ha,htr⟩ => by rw [← ha, ← htr]; exact ht,
      fun hr => ⟨h,hall h (by rw [hr]; rfl),r,hr,rfl,rfl⟩⟩
  · have hsub : ∀ ks : List Uint256, ((scanOf s ks).map Prod.fst).Sublist ks := by
      intro ks
      induction ks with
      | nil => exact List.Sublist.refl []
      | cons k ks ih =>
        rw [scanOf, List.filterMap_cons]
        cases s.blockIndex k with
        | none => exact ih.cons k
        | some r => exact ih.cons_cons k
    exact (hsub hs).nodup hnodup

theorem exists_scan (hk : Kept env st tip) : ∃ es, Scan es st.txdb.committed := by
  refine ⟨_,scan_of_scan st.txdb.committed hk.finite.toFinset.toList (Finset.nodup_toList _) ?_⟩
  intro h hh
  obtain ⟨r,hr⟩ := Option.isSome_iff_exists.mp hh
  obtain ⟨i,hi,_⟩ := hk.written h r hr
  simp [hi]

theorem link_pointer {o : Option Uint256} (h : o ≠ some 0) : link (o.getD 0) = o := by
  cases o with
  | none => rfl
  | some k =>
    have hk : k ≠ 0 := fun he => h (by rw [he])
    rw [Option.getD_some, link, if_neg hk]

variable {h : Uint256}

theorem entry_of_record {m : BlockMap} {r : CDiskBlockIndex} {i : CBlockIndex}
    (hkey : i.hashBlock = h) (hrec : Recorded m tip h r i) (hlink : i.pnext = nextOn m tip h)
    (hprev : i.pprev ≠ some 0) (hnext : i.pnext ≠ some 0)
    (hstake : isProofOfStake i.nFlags = false → i.prevoutStake = .null ∧ i.nStakeTime = 0) :
    entryOf (h,r) = { i with
      nChainTrust := 0, nMint := r.nMint, nMoneySupply := r.nMoneySupply } := by
  have hfields := hrec.fixed
  simp only [recordCore, CDiskBlockIndex.ofIndex, core, CDiskBlockIndex.mk.injEq] at hfields
  obtain ⟨_,hfile,hpos,hheight,_,_,hflags,hmod,hprevout,htime,hproof,hversion,hhash,hmerkle,hbtime,
    hbits,hnonce⟩ := hfields
  have hp : link r.hashPrev = i.pprev := by rw [hhash, link_pointer hprev]
  have hn : link r.hashNext = i.pnext := by rw [hrec.next, ← hlink, link_pointer hnext]
  obtain ⟨hrprev,hrnext⟩ := reread_links r
  have hread : reread r = { r with prevoutStake := i.prevoutStake, nStakeTime := i.nStakeTime } := by
    unfold reread
    split_ifs with hs
    · rw [← hprevout, ← htime]
    · rw [hflags, Bool.not_eq_true] at hs
      rw [(hstake hs).1, (hstake hs).2]
  unfold entryOf
  rw [hrprev, hrnext, hp, hn, hread]
  simp only [load, fresh, hfile, hpos, hheight, hflags, hmod, hproof, hversion, hmerkle, hbtime,
    hbits, hnonce, ← hkey]

theorem entry_scanned (hsave : Saved st) {es : List (Uint256 × CDiskBlockIndex)}
    (hscan : Scan es st.txdb.committed) (hh : (st.mapBlockIndex h).isSome) :
    h ∈ es.map Prod.fst := by
  obtain ⟨r,hr⟩ := Option.isSome_iff_exists.mp (hsave h hh)
  exact List.mem_map_of_mem ((hscan.exact h r).mpr hr)

variable (hs : Standing st tip) (hk : Kept env st tip)
include hs hk

theorem links_nonzero {i : CBlockIndex} (hi : st.mapBlockIndex h = some i) :
    i.pprev ≠ some 0 ∧ i.pnext ≠ some 0 := by
  refine ⟨?_,?_⟩
  · intro hp
    obtain ⟨j,hj,_⟩ := hs.tree.step h i 0 hi hp
    exact (hk.born 0 j hj).nonzero rfl
  · intro hn
    rw [hk.stored.links h i hi] at hn
    obtain ⟨_,_,hp⟩ := next_on_mem _ hs.tree hn
    obtain ⟨j,hj,_⟩ := (parent_of_some _ _ _).mp hp
    exact (hk.born 0 j hj).nonzero rfl

/-- The record of an entry makes the entry again, but for its trust, and on the main
chain with its totals. -/
theorem record_entry {r : CDiskBlockIndex} (hr : st.txdb.committed.blockIndex h = some r) :
    ∃ i, st.mapBlockIndex h = some i ∧
      entryOf (h,r) = { i with
        nChainTrust := 0, nMint := r.nMint, nMoneySupply := r.nMoneySupply } ∧
      (h ∈ st.mapBlockIndex.pathOf tip → r.nMint = i.nMint ∧ r.nMoneySupply = i.nMoneySupply) := by
  obtain ⟨i,hi,hrec⟩ := hk.written h r hr
  obtain ⟨hprev,hnext⟩ := links_nonzero env st tip hs hk hi
  exact ⟨i,hi,entry_of_record tip (hs.tree.keyed h i hi) hrec
    (hk.stored.links h i hi) hprev hnext (hk.born h i hi).stake,hrec.totals⟩

variable (hsave : Saved st) (es : List (Uint256 × CDiskBlockIndex))
  (hscan : Scan es st.txdb.committed)
include hsave hscan

theorem records_well_keyed : WellKeyed env l es := by
  have hrec : ∀ e ∈ es, ∃ i, st.mapBlockIndex e.1 = some i ∧
      Recorded st.mapBlockIndex tip e.1 e.2 i := fun e he =>
    hk.written e.1 e.2 ((hscan.exact e.1 e.2).mp he)
  refine ⟨?_,?_,hscan.distinct,?_,?_⟩
  · intro e he
    obtain ⟨i,hi,hc⟩ := hrec e he
    have hhead : diskHeader e.2 = diskHeader (.ofIndex i) :=
      (congrArg diskHeader hc.fixed : diskHeader (recordCore e.2) = _)
    unfold getBlockHash
    split_ifs
    · rfl
    · rw [hhead]
      exact (hk.born e.1 i hi).hash
  · intro e he
    obtain ⟨i,hi,_⟩ := hrec e he
    exact (hk.born e.1 i hi).nonzero
  · intro e he h0
    obtain ⟨i,hi,hc⟩ := hrec e he
    have hp : e.2.hashPrev = i.pprev.getD 0 := congrArg CDiskBlockIndex.hashPrev hc.fixed
    cases hpp : i.pprev with
    | none => exact absurd (by rw [hp, hpp]; rfl) h0
    | some p =>
      obtain ⟨j,hj,_⟩ := hs.tree.step e.1 i p hi hpp
      rw [hp, hpp, Option.getD_some]
      exact entry_scanned st hsave hscan (by rw [hj]; rfl)
  · intro e he h0
    obtain ⟨i,hi,hc⟩ := hrec e he
    cases hn : nextOn st.mapBlockIndex tip e.1 with
    | none => exact absurd (by rw [hc.next, hn]; rfl) h0
    | some c =>
      obtain ⟨_,_,hp⟩ := next_on_mem _ hs.tree hn
      obtain ⟨j,hj,_⟩ := (parent_of_some _ _ _).mp hp
      rw [hc.next, hn, Option.getD_some]
      exact entry_scanned st hsave hscan (by rw [hj]; rfl)

def trustOf (m : BlockMap) (h : Uint256) : Uint256 :=
  ((m h).map CBlockIndex.nChainTrust).getD 0

theorem loaded_entries : ∃ x, loadRecords env l es ⟨∅,none,∅⟩ = .ok x ∧
    (∀ h, ∃ mint supply,
      (calcTrust (sortedByHeight l x.mapBlockIndex) x.mapBlockIndex).lookup h =
        (st.mapBlockIndex h).map (fun i => { i with nMint := mint, nMoneySupply := supply }) ∧
      (h ∈ st.mapBlockIndex.pathOf tip → ∀ i, st.mapBlockIndex h = some i →
        mint = i.nMint ∧ supply = i.nMoneySupply)) ∧
    ∀ h i, st.mapBlockIndex h = some i → isProofOfStake i.nFlags →
      (i.prevoutStake,i.nStakeTime) ∈ x.setStakeSeen := by
  obtain ⟨x,hx,hentries,hstakes⟩ := scan_ok env l
    (records_well_keyed env l st tip hs hk hsave es hscan)
  have hmade : ∀ h i, x.mapBlockIndex.lookup h = some i → ∃ r j, (h,r) ∈ es ∧
      st.mapBlockIndex h = some j ∧ i = { j with
        nChainTrust := 0, nMint := r.nMint, nMoneySupply := r.nMoneySupply } ∧
      (h ∈ st.mapBlockIndex.pathOf tip → r.nMint = j.nMint ∧ r.nMoneySupply = j.nMoneySupply) := by
    intro h i hi
    obtain ⟨r,hr,rfl⟩ := (hentries h i).mp hi
    obtain ⟨j,hj,he,ht⟩ := record_entry env st tip hs hk ((hscan.exact h r).mp hr)
    exact ⟨r,j,hr,hj,he,ht⟩
  have hsome : ∀ h, (st.mapBlockIndex h).isSome → ∃ i, x.mapBlockIndex.lookup h = some i := by
    intro h hh
    obtain ⟨r,hr⟩ := Option.isSome_iff_exists.mp (hsave h hh)
    exact ⟨_,(hentries h _).mpr ⟨r,(hscan.exact h r).mpr hr,rfl⟩⟩
  have hadds : Adds (trustOf st.mapBlockIndex) x.mapBlockIndex.lookup := by
    intro h i hi
    obtain ⟨r,j,_,hj,rfl,_⟩ := hmade h i hi
    refine ⟨?_,?_⟩
    · intro p hp
      obtain ⟨k,hk',_⟩ := hs.tree.step h j p hj hp
      exact Option.isSome_iff_exists.mpr (hsome p (by rw [hk']; rfl))
    · rw [trustOf, hj, Option.map_some, Option.getD_some, (hk.born h j hj).trust]
      congr 1
      cases hp : j.pprev with
      | none => rfl
      | some p => rfl
  have hup : ∀ h i p j, x.mapBlockIndex.lookup h = some i → i.pprev = some p →
      x.mapBlockIndex.lookup p = some j → i.nHeight = j.nHeight+1 := by
    intro h i p j hi hp hj
    obtain ⟨_,i0,_,hi0,rfl,_⟩ := hmade h i hi
    obtain ⟨_,j0,_,hj0,rfl,_⟩ := hmade p j hj
    obtain ⟨k,hk',hheight⟩ := hs.tree.step h i0 p hi0 hp
    rw [hj0, Option.some_inj] at hk'
    rw [hk']
    exact hheight
  have hfinal := sorted_trust l (trustOf st.mapBlockIndex) hadds hup
  refine ⟨x,hx,?_,?_⟩
  · intro h
    cases hm : st.mapBlockIndex h with
    | none =>
      refine ⟨0,0,?_,fun _ i hi => by cases hi⟩
      rw [hfinal h]
      cases hi : x.mapBlockIndex.lookup h with
      | none => rfl
      | some i =>
        obtain ⟨_,j,_,hj,_,_⟩ := hmade h i hi
        rw [hm] at hj
        cases hj
    | some j0 =>
      obtain ⟨i,hi⟩ := hsome h (by rw [hm]; rfl)
      obtain ⟨r,j,_,hj,he,ht⟩ := hmade h i hi
      rw [hm, Option.some_inj] at hj
      subst hj
      refine ⟨r.nMint,r.nMoneySupply,?_,?_⟩
      · rw [hfinal h, hi, he]
        simp [trustOf, hm]
      · intro hpath i' hi'
        rw [← Option.some_inj.mp hi']
        exact ht hpath
  · intro h i hi hstake
    obtain ⟨r,hr⟩ := Option.isSome_iff_exists.mp (hsave h (by rw [hi]; rfl))
    obtain ⟨j,hj,he,_⟩ := record_entry env st tip hs hk hr
    rw [hi, Option.some_inj] at hj
    subst hj
    have hflags : (reread r).nFlags = i.nFlags := congrArg CBlockIndex.nFlags he
    have hprevout : (reread r).prevoutStake = i.prevoutStake := congrArg CBlockIndex.prevoutStake he
    have htime : (reread r).nStakeTime = i.nStakeTime := congrArg CBlockIndex.nStakeTime he
    have hin := hstakes (h,r) ((hscan.exact h r).mpr hr) (by rw [hflags]; exact hstake)
    rwa [hprevout, htime] at hin

end Restart
section Verify
variable (st : ChainState) (tip : Uint256)

def placesOf (m : BlockMap) (hs : List Uint256) : List (ℕ × ℕ) :=
  (hs.filterMap m).map (fun i => (i.nFile,i.nBlockPos))

/-- Every block of the main chain that is deep enough to be looked at, and has a parent,
can be read and passes the checks of the level. -/
def Verified : Prop :=
  ∀ hs h rest i, st.mapBlockIndex.pathOf tip = hs++h::rest → st.mapBlockIndex h = some i →
    i.pprev ≠ none → st.nBestHeight-nCheckDepth l st.nBestHeight ≤ i.nHeight →
    ∃ b, readFromDisk env st.best (l.world.disk h) i = some b ∧
      (0 < l.nCheckLevel → checkBlock env st.best (l.world.ambient h) b none true true
        (6 < l.nCheckLevel) = .ok ()) ∧
      (1 < l.nCheckLevel → ∀ tx ∈ b.vtx, badTx env l st.txdb.committed (l.world.disk h)
        (placesOf st.mapBlockIndex (hs++[h])).reverse i tx = false)

theorem verify_blocks_ok (hv : Verified env l st tip)
    (hin : ∀ h ∈ st.mapBlockIndex.pathOf tip, (st.mapBlockIndex h).isSome)
    (hs rest : List Uint256) (hsplit : st.mapBlockIndex.pathOf tip = hs++rest) :
    verifyBlocks env l st rest (placesOf st.mapBlockIndex hs).reverse none = .ok none := by
  induction rest generalizing hs with
  | nil => rfl
  | cons h rest ih =>
    obtain ⟨i,hi⟩ := Option.isSome_iff_exists.mp (hin h (by rw [hsplit]; simp))
    simp only [verifyBlocks, hi]
    cases hp : i.pprev with
    | none => rfl
    | some p =>
      dsimp only
      split_ifs with hdeep
      · rfl
      · obtain ⟨b,hread,hcheck,hbad⟩ := hv hs h rest i hsplit hi (by rw [hp]; simp) (by omega)
        have hplaces : (placesOf st.mapBlockIndex (hs++[h])).reverse =
            (i.nFile,i.nBlockPos)::(placesOf st.mapBlockIndex hs).reverse := by
          simp [placesOf, hi]
        have hdeeper : (1 < l.nCheckLevel && b.vtx.any (badTx env l st.txdb.committed
            (l.world.disk h) ((i.nFile,i.nBlockPos)::(placesOf st.mapBlockIndex hs).reverse) i)) =
            false := by
          by_cases hl : 1 < l.nCheckLevel
          · rw [← hplaces]
            simp only [hl, decide_true, Bool.true_and, List.any_eq_false]
            exact fun tx htx => by rw [hbad hl tx htx]; simp
          · simp [hl]
        have hgood : badBlock env l st.txdb.committed (l.world.disk h) st (l.world.ambient h)
            ((i.nFile,i.nBlockPos)::(placesOf st.mapBlockIndex hs).reverse) i b = .ok false := by
          simp only [badBlock, hdeeper]
          split_ifs with h0
          · rw [hcheck h0]
          · rfl
        have hrest := ih (hs++[h]) (by rw [hsplit, List.append_assoc]; rfl)
        rw [hplaces] at hrest
        simp only [hread, hgood]
        exact hrest

end Verify

def untotalled (i : CBlockIndex) : CBlockIndex := { i with nMint := 0, nMoneySupply := 0 }

/-- The index in memory is loaded: the same entries, on the main chain with the same
totals, the same best block, and every stake is seen. -/
structure SameIndex (st : ChainState) (tip : Uint256) (n : Node) : Prop where
  entries : ∀ h, (n.chain.mapBlockIndex h).map untotalled = (st.mapBlockIndex h).map untotalled
  mainChain : ∀ h ∈ st.mapBlockIndex.pathOf tip, n.chain.mapBlockIndex h = st.mapBlockIndex h
  best : st.pindexBest = some tip ∧ n.chain.pindexBest = some tip
  hash : n.chain.hashBestChain = st.hashBestChain
  height : n.chain.nBestHeight = st.nBestHeight
  trust : n.chain.nBestChainTrust = st.nBestChainTrust
  stakes : ∀ h i, st.mapBlockIndex h = some i → isProofOfStake i.nFlags →
    (i.prevoutStake,i.nStakeTime) ∈ n.setStakeSeen

theorem rebuild_same {st : ChainState} {tip : Uint256} (hc : Crowned st tip) (hk : Kept env st tip)
    (hsave : Saved st) (hscan : Scan l.records st.txdb.committed) :
    ∃ n, rebuild env l st.txdb.committed = .ok n ∧ SameIndex st tip n ∧
      n.chain.txdb.committed = st.txdb.committed := by
  obtain ⟨x,hx,hentries,hstakes⟩ := loaded_entries env l st tip hc.standing hk hsave l.records hscan
  have hmain : ∀ h ∈ st.mapBlockIndex.pathOf tip,
      (calcTrust (sortedByHeight l x.mapBlockIndex) x.mapBlockIndex).lookup h =
        st.mapBlockIndex h := by
    intro h hh
    obtain ⟨mint,supply,he,ht⟩ := hentries h
    rw [he]
    cases hi : st.mapBlockIndex h with
    | none => rfl
    | some i =>
      obtain ⟨rfl,rfl⟩ := ht hh i hi
      rfl
  obtain ⟨i,hi⟩ := Option.isSome_iff_exists.mp hc.standing.entry
  have htip := hmain tip (self_mem (tree_graded hc.standing.tree) tip)
  let loaded := loadedState st.txdb.committed { x with
    mapBlockIndex := calcTrust (sortedByHeight l x.mapBlockIndex) x.mapBlockIndex }
  have hbest : loaded.mapBlockIndex tip = some i := htip.trans hi
  let n : Node := ⟨{ loaded with
    hashBestChain := tip
    pindexBest := some tip
    nBestHeight := i.nHeight
    nBestChainTrust := i.nChainTrust
    nBestInvalidTrust := st.txdb.committed.bestInvalidTrust.getD 0 },x.setStakeSeen⟩
  have hread : readBest st.txdb.committed loaded = .ok n.chain := by
    simp only [readBest, hk.stored.hash, hbest]
    rfl
  have hn : rebuild env l st.txdb.committed = .ok n := by
    simp only [rebuild, hx, bind, Except.bind]
    rw [show readBest _ _ = _ from hread]
  refine ⟨n,hn,⟨?_,hmain,⟨hc.best,rfl⟩,hc.hash.symm,?_,?_,hstakes⟩,rfl⟩
  · intro h
    obtain ⟨mint,supply,he,_⟩ := hentries h
    change ((calcTrust (sortedByHeight l x.mapBlockIndex) x.mapBlockIndex).lookup h).map _ = _
    rw [he, Option.map_map]
    rfl
  · rw [← hc.height]
    exact (height_of_some _ hi).symm
  · have ht := hc.trust
    rw [hi, Option.map_some, Option.some_inj] at ht
    exact ht

theorem verified_same {st : ChainState} {tip : Uint256} {n : Node} (ht : Tree st.mapBlockIndex)
    (hn : SameIndex st tip n) (hcom : n.chain.txdb.committed = st.txdb.committed)
    (hv : Verified env l st tip) :
    Verified env l n.chain tip ∧
      n.chain.mapBlockIndex.pathOf tip = st.mapBlockIndex.pathOf tip := by
  have hsame : SameTree st.mapBlockIndex n.chain.mapBlockIndex := by
    intro h
    have he := congrArg (Option.map core) (hn.entries h)
    rwa [Option.map_map, Option.map_map] at he
  have hpath : n.chain.mapBlockIndex.pathOf tip = st.mapBlockIndex.pathOf tip := by
    rw [same_tree_path hsame]
  have htip := hn.mainChain tip (self_mem (tree_graded ht) tip)
  have hbest : n.chain.best = st.best := by
    simp only [ChainState.best, hn.best.1, hn.best.2, Option.bind_some, htip, hn.height]
  refine ⟨?_,hpath⟩
  intro hs h rest i hsplit hi hp hdeep
  rw [hpath] at hsplit
  rw [hn.height] at hdeep
  rw [hn.mainChain h (by rw [hsplit]; simp)] at hi
  have hplaces : placesOf n.chain.mapBlockIndex (hs++[h]) =
      placesOf st.mapBlockIndex (hs++[h]) := by
    unfold placesOf
    congr 1
    apply List.filterMap_congr
    intro k hk
    apply hn.mainChain
    rw [hsplit]
    rcases List.mem_append.mp hk with hk | hk
    · exact List.mem_append_left _ hk
    · rw [List.mem_singleton.mp hk]
      simp
  obtain ⟨b,hread,hcheck,hbad⟩ := hv hs h rest i hsplit hi hp hdeep
  rw [hbest, hplaces, hcom]
  exact ⟨b,hread,hcheck,hbad⟩

/-- In every run in which the postponed blocks are connected and every entry has its
record, the index is the same after a restart. The last blocks of the main chain are
verified after that; where they are good, nothing more happens. -/
theorem reload_same_index (hh : HeaderHash env) (st : ChainState)
    (h : Reachable env (Meets env (loadable env)) st) (hsave : Saved st)
    (hscan : Scan l.records st.txdb.committed) :
    ∃ tip n, rebuild env l st.txdb.committed = .ok n ∧ SameIndex st tip n ∧
      (Verified env l st tip → loadBlockIndex env l st.txdb.committed = .ok n) := by
  obtain ⟨tip,hc,hk⟩ := run_invariant env (loadable env) (Kept env)
    (started_kept env _ (fun _ _ _ _ hg => hg) hh) (kept_move env _ (fun _ _ _ _ hg => hg) hh) h
  obtain ⟨n,hn,hsame,hcom⟩ := rebuild_same env l hc hk hsave hscan
  refine ⟨tip,n,hn,hsame,?_⟩
  intro hv
  obtain ⟨hv',hpath⟩ := verified_same env l hc.standing.tree hsame hcom hv
  have hin : ∀ h ∈ n.chain.mapBlockIndex.pathOf tip, (n.chain.mapBlockIndex h).isSome := by
    intro h hmem
    rw [hpath] at hmem
    rw [hsame.mainChain h hmem]
    rcases (mem_path_child (tree_graded hc.standing.tree) tip h).mp hmem with rfl | ⟨c,_,hp⟩
    · exact hc.standing.entry
    · obtain ⟨i,hi,hpp⟩ := (parent_of_some _ _ _).mp hp
      obtain ⟨j,hj,_⟩ := hc.standing.tree.step c i h hi hpp
      rw [hj]
      rfl
  have hgood := verify_blocks_ok env l n.chain tip hv' hin [] _ rfl
  simp only [loadBlockIndex, hn, bind, Except.bind, hsame.best.2]
  rw [show verifyBlocks env l n.chain (n.chain.mapBlockIndex.pathOf tip) [] none = .ok none from
    hgood]
  rfl

section Within

def within (hs : List Uint256) : Guards :=
  { Guards.none with
    file := fun b nFile nBlockPos st => env.hashBlock b ∈ hs ∧
      (loadable env).file b nFile nBlockPos st }

variable (hs : List Uint256)

theorem within_move {a c : ChainState × Uint256} (hst : Standing a.1 a.2)
    (hin : ∀ k, (a.1.mapBlockIndex k).isSome → k ∈ hs) (h : Move env (within env hs) a c) :
    ∀ k, (c.1.mapBlockIndex k).isSome → k ∈ hs := by
  refine tree_move (within env hs) (fun m => ∀ k, (m k).isSome → k ∈ hs) ?_ ?_ hst hin h
  · intro m m' hm hall k hk
    exact hall k (by rw [← same_entry hm]; exact hk)
  · intro b nFile nBlockPos hashProof modifier st _ _ _ hg hall k hk
    by_cases hkb : k = env.hashBlock b
    · rw [hkb]
      exact hg.1
    · rw [filed_other env k hkb] at hk
      exact hall k hk

theorem started_within {st : ChainState} {g : Uint256} (h : Started env (within env hs) st g) :
    ∀ k, (st.mapBlockIndex k).isSome → k ∈ hs := by
  obtain ⟨b,nFile,nBlockPos,hashProof,modifier,rfl,hg,hmap,_⟩ := h.entry
  intro k hk
  rw [hmap, filed, Function.update_apply] at hk
  split_ifs at hk with hkb
  · rw [hkb]
    exact hg.1
  · cases hk

section
variable (F : CBlock → ℕ → ℕ → ChainState → Prop) {w : World}
include F

theorem connect_postponed_moves
    {ks : List Uint256} (st st' : ChainState) (p q : Uint256) (hst : Standing st p)
    (hup : Ascends st.mapBlockIndex.parentOf p ks q)
    (h : connectPostponed env w ks st = (st',.ok ())) :
    ∃ tip, Moves env { Guards.none with file := F } (st,p) (st',tip) := by
  induction ks generalizing st p with
  | nil =>
    simp only [connectPostponed, done, Prod.mk.injEq, and_true] at h
    rw [h]
    exact ⟨p,.refl⟩
  | cons k ks ih =>
    obtain ⟨i,hi,hip⟩ := (parent_of_some _ _ _).mp hup.1
    simp only [connectPostponed, hi] at h
    cases hread : readFromDisk env st.best (w.disk k) i with
    | none =>
      simp only [hread, done, Prod.mk.injEq, and_true] at h
      rw [h]
      exact ⟨p,.refl⟩
    | some b =>
      have hb : env.hashBlock b = k := by
        rw [read_hash env hread, hst.tree.keyed k i hi]
      simp only [hread] at h
      rcases hin : setBestChainInner env w k b st.begin with ⟨st1,f | _⟩
      · -- the refused block is off the path of the tip, and the loop ends
        have g := tree_graded hst.tree
        have hoff : k ∉ st.mapBlockIndex.pathOf p := by
          intro hmem
          have hle := (height_le g hmem).1
          have hstep := g.step k p hup.1
          omega
        have hund := set_best_chain_inner_error env w (T := fun j => j ∉ st.mapBlockIndex.pathOf p)
          k b st.begin st1 f (begin_ready hst.best) hoff hin
        cases f with
        | error n text =>
          rw [hin] at h
          simp only [done, Prod.mk.injEq, and_true] at h
          subst h
          exact ⟨p,.single (.undone (undone_trans _ _ _ (begin_undone st)
            (hund.resolve_left (by simp))))⟩
        | throw text => simp [hin, fail] at h
        | crash => simp [hin, fail] at h
      · simp only [hin] at h
        have ha := set_best_chain_inner_ok env w hin
        have hmove : Move env { Guards.none with file := F } (st,p) (st1,k) :=
          .attach hup.1 hb trivial ha
        have hst1 := standing_move env _ _ _ hmove hst
        have hsame := (attached_same env w k b st1 hst.best ha).1
        have hup1 : Ascends st1.mapBlockIndex.parentOf k ks q := by
          rw [same_tree_parent hsame]
          exact hup.2
        obtain ⟨tip,hmoves⟩ := ih st1 k hst1 hup1 h
        exact ⟨tip,.head hmove hmoves⟩

/-- Whatever becomes of the postponed blocks, a call that switches moves the tip and
crowns its own block. -/
theorem switch_call_moves {b : CBlock}
    {st st' : ChainState} {tip : Uint256} (hc : Crowned st tip)
    (hprev : b.hashPrevBlock ≠ st.hashBestChain) (h : setBestChain env w b st = (st',.ok ())) :
    ∃ st1 tip', Moves env { Guards.none with file := F } (st,tip) (st1,tip') ∧
      newBest (env.hashBlock b) st1 = (st',.ok ()) := by
  unfold setBestChain at h
  rcases hr : bestRoute env w b st.begin with ⟨st1,f | _⟩
  · simp [hr, fail] at h
  simp only [hr] at h
  rw [route_known env w b st hc, if_neg hprev] at hr
  obtain ⟨i,hi,hbest⟩ := crowned_entry st hc
  simp only [switchBest, show st.begin.best.pindexBest = some i from hbest] at hr
  rcases hp : postpone st.mapBlockIndex i.nChainTrust
    (st.mapBlockIndex.heightOf (env.hashBlock b)).toNat (env.hashBlock b) [] with ⟨ks,mid⟩
  have hp' : postpone st.begin.mapBlockIndex i.nChainTrust
    (st.begin.mapBlockIndex.heightOf (env.hashBlock b)).toNat (env.hashBlock b) [] = (ks,mid) := hp
  simp only [hp'] at hr
  rcases hre : reorganize env w mid st.begin with ⟨st2,f | _⟩
  · cases f with
    | error n text =>
      rw [hre] at hr
      obtain ⟨_,_,hfail⟩ := (and_then_ok _ _ _).mp hr
      simp [fail] at hfail
    | throw text => simp [hre, fail] at hr
    | crash => simp [hre, fail] at hr
  · simp only [hre] at hr
    have hmeets : SwitchMeets env w { Guards.none with file := F } mid st.begin :=
      fun _ _ _ _ _ => ⟨along_all _ (fun _ _ _ _ _ _ => trivial) _ _ _,
        fun _ _ => along_all _ (fun _ _ _ _ _ _ => trivial) _ _ _⟩
    have hswitch := reorganize_ok env w _ hc.standing.tree hc.best hmeets hre
    have hmove : Move env { Guards.none with file := F } (st,tip) (st2,mid) := .switch hswitch
    have hst2 := standing_move env _ _ _ hmove hc.standing
    have hup := postpone_ascends hc.standing.tree _
      (env.hashBlock b) [] ks rfl hp
    have hsame := (switched_same env w _ hc.standing.best hswitch).1
    rw [← same_tree_parent hsame] at hup
    obtain ⟨tip',hmoves⟩ := connect_postponed_moves env F st2 st1 mid _ hst2 hup hr
    exact ⟨st1,tip',.head hmove hmoves,h⟩

end

end Within

theorem rebuild_best {s : Store} {n : Node} {hash : Uint256} (hs : s.hashBestChain = some hash)
    (h : rebuild env l s = .ok n) : n.chain.pindexBest = some hash := by
  obtain ⟨x,_,h⟩ := (bind_ok _ _ _).mp h
  obtain ⟨st,hst,h⟩ := (bind_ok _ _ _).mp h
  rw [Except.ok.injEq] at h
  rw [← h]
  simp only [readBest, hs] at hst
  split at hst
  · cases hst
  · rw [Except.ok.injEq] at hst
    rw [← hst]

def FilesWell : Action → ChainState → Prop
  | .add _ b nFile nBlockPos _, st => (loadable env).file b nFile nBlockPos st
  | _, _ => True

section Sample

def startup (w : World) (records : List (Uint256 × CDiskBlockIndex)) : Startup where
  world := w
  records := records
  address h := h.toNat
  fUseFastIndex := true
  adjustedTime := 1000
  nCheckLevel := 1
  nCheckBlocks := 500

def sampleHashes : List Uint256 := [1,2,3,4,5]

def orderly (a : Action) (st : ChainState) : Bool := postponesNone sampleEnv a st && called a st

theorem sample_header : HeaderHash sampleEnv := fun _ => rfl

variable {st : ChainState}

theorem mined_filed {nNonce nPrev : ℕ} (nCoins : ℤ) (nFile nBlockPos : ℕ)
    (hn : BitVec.ofNat 256 nNonce ∈ sampleHashes)
    (hprev : (st.mapBlockIndex (BitVec.ofNat 256 nPrev)).isSome ∨ BitVec.ofNat 256 nPrev = 0) :
    (within sampleEnv sampleHashes).file (mined nNonce nPrev nCoins) nFile nBlockPos st := by
  have hnull : (0 : Uint256) ∉ sampleHashes := by decide
  have h0 : BitVec.ofNat 256 nNonce ≠ 0 := fun he => hnull (he ▸ hn)
  refine ⟨hn,h0,?_⟩
  intro hnone
  rcases hprev with hprev | hprev
  · rw [show st.mapBlockIndex (BitVec.ofNat 256 nPrev) = none from hnone] at hprev
    cases hprev
  · exact hprev

theorem mined_reachable (cond : Action → ChainState → Prop) {as : List Action}
    (hall : ∀ a ∈ as, ∃ w n nPrev nCoins pos, BitVec.ofNat 256 n ∈ sampleHashes ∧
      a = .add w (mined n nPrev nCoins) 1 pos 0)
    (hcond : ∀ w b nFile nBlockPos hashProof st,
      (within sampleEnv sampleHashes).file b nFile nBlockPos st →
      postponesNone sampleEnv (.add w b nFile nBlockPos hashProof) st = true →
      cond (.add w b nFile nBlockPos hashProof) st)
    (hfirst : cond (addMined [] (mined 1 0 0)) .empty)
    (h : playAll sampleEnv orderly as firstState = some st) : Reachable sampleEnv cond st := by
  refine play_calls_reachable sampleEnv cond ?_ _ st (first_reachable cond hfirst) h
  intro a ha st ht
  obtain ⟨w,n,nPrev,nCoins,pos,hn,rfl⟩ := hall a ha
  rw [orderly, Bool.and_eq_true] at ht
  exact hcond w _ 1 pos 0 st (mined_filed nCoins 1 pos hn (Or.inl ht.2)) ht.1

theorem within_meets (w : World) (b : CBlock) (nFile nBlockPos : ℕ) (hashProof : Uint256)
    (st : ChainState) (hfile : (within sampleEnv sampleHashes).file b nFile nBlockPos st)
    (h : postponesNone sampleEnv (.add w b nFile nBlockPos hashProof) st = true) :
    Meets sampleEnv (within sampleEnv sampleHashes) (.add w b nFile nBlockPos hashProof) st :=
  postpones_none_guards sampleEnv _ (fun _ => trivial)
    (fun _ _ _ _ _ _ => trivial) (fun _ _ _ _ _ _ => trivial) hfile h

def KeptWithin (st : ChainState) (tip : Uint256) : Prop :=
  Kept sampleEnv st tip ∧ ∀ k, (st.mapBlockIndex k).isSome → k ∈ sampleHashes

theorem kept_within_move (a c : ChainState × Uint256) (hs : Standing a.1 a.2)
    (hk : KeptWithin a.1 a.2) (h : Move sampleEnv (within sampleEnv sampleHashes) a c) :
    KeptWithin c.1 c.2 :=
  ⟨kept_move sampleEnv (within sampleEnv sampleHashes) (fun _ _ _ _ hg => hg.2) sample_header a c hs hk.1 h,
    within_move sampleEnv sampleHashes hs hk.2 h⟩

theorem kept_within_moves {a c : ChainState × Uint256} (hs : Standing a.1 a.2)
    (hk : KeptWithin a.1 a.2) (h : Moves sampleEnv (within sampleEnv sampleHashes) a c) :
    KeptWithin c.1 c.2 := by
  induction h with
  | refl => exact hk
  | tail hm hstep ih => exact kept_within_move _ _ (standing_moves sampleEnv _ hm hs) ih hstep

theorem mined_kept {as : List Action}
    (hall : ∀ a ∈ as, ∃ w n nPrev nCoins pos, BitVec.ofNat 256 n ∈ sampleHashes ∧
      a = .add w (mined n nPrev nCoins) 1 pos 0)
    (h : playAll sampleEnv orderly as firstState = some st) :
    ∃ tip, Crowned st tip ∧ KeptWithin st tip := by
  refine run_invariant sampleEnv (within sampleEnv sampleHashes) KeptWithin ?_ kept_within_move
    (mined_reachable _ hall within_meets ?_ h)
  · exact fun st g hst => ⟨started_kept sampleEnv (within sampleEnv sampleHashes)
      (fun _ _ _ _ hg => hg.2) sample_header st g hst,
      started_within sampleEnv sampleHashes hst⟩
  · exact empty_meets sampleEnv _ _ _
      (mined_filed 0 1 1 (by decide) (Or.inr rfl))

theorem saved_within (hin : ∀ k, (st.mapBlockIndex k).isSome → k ∈ sampleHashes)
    (hall : sampleHashes.all (fun k => !(st.mapBlockIndex k).isSome ||
      (st.txdb.committed.blockIndex k).isSome) = true) : Saved st := by
  intro k hk
  have h := List.all_eq_true.mp hall k (hin k hk)
  rw [hk] at h
  simpa using h

end Sample

/-- The node of the refused block is restarted, and its best block is another one. -/
theorem restart_moves_best : ¬ ∀ (env : Env) (l : Startup) (st : ChainState), HeaderHash env →
    Reachable env (FilesWell env) st → Saved st → Scan l.records st.txdb.committed →
    ∃ tip n, rebuild env l st.txdb.committed = .ok n ∧ SameIndex st tip n := by
  have hmined : ∀ a ∈ branchCalls, ∃ w n nPrev nCoins pos, BitVec.ofNat 256 n ∈ sampleHashes ∧
      a = .add w (mined n nPrev nCoins) 1 pos 0 := by
    simp only [branchCalls, addMined, List.forall_mem_cons, List.not_mem_nil, false_imp_iff,
      implies_true, and_true]
    exact ⟨⟨_,2,1,10,_,by decide,rfl⟩,⟨_,3,1,10,_,by decide,rfl⟩,⟨_,4,3,10,_,by decide,rfl⟩⟩
  have hrun : (playAll sampleEnv orderly branchCalls firstState).any (fun st =>
      let x := act sampleEnv (addMined rereadable overpaid) st
      called (addMined rereadable overpaid) st && decide (x.2 = .ok ()) &&
        st.pindexBest == some 2 && st.hashBestChain == 2 && x.1.pindexBest == some 5 &&
        x.1.txdb.committed.hashBestChain == some 4 &&
        sampleHashes.all (fun k => !(x.1.mapBlockIndex k).isSome ||
          (x.1.txdb.committed.blockIndex k).isSome)) = true := by decide +kernel
  intro hclaim
  obtain ⟨st0,hst0,hfacts⟩ := (Option.any_eq_true _ _).mp hrun
  rcases hact : act sampleEnv (addMined rereadable overpaid) st0 with ⟨st,r⟩
  simp only [hact, Bool.and_eq_true, decide_eq_true_eq, beq_iff_eq] at hfacts
  obtain ⟨⟨⟨⟨⟨⟨hcalled,rfl⟩,hbest0⟩,hhash0⟩,hbest⟩,hstored⟩,hrecords⟩ := hfacts
  obtain ⟨tip0,hc0,hk0⟩ := mined_kept hmined hst0
  have hfile : ∀ s : ChainState, called (addMined rereadable overpaid) s = true →
      (within sampleEnv sampleHashes).file overpaid 1 5 s :=
    fun s hs => mined_filed 4000000 1 5 (by decide) (Or.inl hs)
  -- the overpaid block is filed, and the call goes on to `SetBestChain`
  obtain ⟨st1,hindex,hrest⟩ := (and_then_ok _ _ _).mp hact
  have hmove1 : Move sampleEnv (within sampleEnv sampleHashes) (st0,tip0) (st1,tip0) :=
    .file hcalled (hfile st0 hcalled) hindex
  have hc1 := file_crowned sampleEnv (within sampleEnv sampleHashes) hc0
    hcalled (hfile st0 hcalled) hindex
  have hsame1 : st1.pindexBest = st0.pindexBest ∧ st1.hashBestChain = st0.hashBestChain := by
    rcases index_block_cases sampleEnv _ hindex with ⟨rfl,_⟩ | ⟨_,_,rfl,_⟩ <;>
      exact ⟨rfl,rfl⟩
  have hset : setBestChain sampleEnv (readable rereadable) overpaid st1 = (st,.ok ()) := by
    cases hi : st1.mapBlockIndex (sampleEnv.hashBlock overpaid) with
    | none => simp [hi, fail] at hrest
    | some i =>
      simp only [hi] at hrest
      split_ifs at hrest with htrust
      · exact hrest
      · simp only [done, Prod.mk.injEq, and_true] at hrest
        rw [hrest, hbest, hbest0] at hsame1
        exact absurd hsame1.1 (by decide)
  obtain ⟨st2,tip2,hmoves,hnew⟩ := switch_call_moves sampleEnv
    (within sampleEnv sampleHashes).file hc1
    (by rw [hsame1.2, hhash0]; decide) hset
  have hk2 := kept_within_moves hc1.standing
    (kept_within_move (st0,tip0) (st1,tip0) hc0.standing hk0 hmove1) hmoves
  obtain ⟨i,_,hst⟩ := new_best_ok hnew
  have hmap : st.mapBlockIndex = st2.mapBlockIndex := by rw [hst]
  have hdb : st.txdb = st2.txdb := by rw [hst]
  obtain ⟨es,hscan⟩ := exists_scan sampleEnv st2 tip2 hk2.1
  have hreach : Reachable sampleEnv (FilesWell sampleEnv) st := by
    refine .step (mined_reachable (FilesWell sampleEnv) hmined
      (fun _ _ _ _ _ _ hg _ => hg.2) ?_ hst0) (called_ok _ hcalled)
      (hfile st0 hcalled).2 hact (by simp)
    exact (mined_filed 0 1 1 (by decide) (Or.inr rfl)).2
  obtain ⟨tip,n,hn,hsame⟩ := hclaim sampleEnv (startup (readable rereadable) es) st sample_header
    hreach (saved_within (by rw [hmap]; exact hk2.2) hrecords) (by rw [hdb]; exact hscan)
  have hloaded := rebuild_best sampleEnv _ hstored hn
  rw [hsame.best.2, ← hsame.best.1, hbest] at hloaded
  exact absurd hloaded (by decide)

/-- The node that has switched to a branch is restarted. -/
theorem switched_restart : ∃ st l, st.pindexBest = some 4 ∧ ∃ tip n,
    rebuild sampleEnv l st.txdb.committed = .ok n ∧ SameIndex st tip n ∧
      (Verified sampleEnv l st tip → loadBlockIndex sampleEnv l st.txdb.committed = .ok n) := by
  let calls := [addMined [] (mined 2 1 10),addMined [] (mined 3 1 10),
    addMined rereadable (mined 4 3 10)]
  have hmined : ∀ a ∈ calls, ∃ w n nPrev nCoins pos, BitVec.ofNat 256 n ∈ sampleHashes ∧
      a = .add w (mined n nPrev nCoins) 1 pos 0 := by
    simp only [calls, addMined, List.forall_mem_cons, List.not_mem_nil, false_imp_iff,
      implies_true, and_true]
    exact ⟨⟨_,2,1,10,_,by decide,rfl⟩,⟨_,3,1,10,_,by decide,rfl⟩,⟨_,4,3,10,_,by decide,rfl⟩⟩
  have hrun : (playAll sampleEnv orderly calls firstState).any (fun st =>
      st.pindexBest == some 4 && sampleHashes.all (fun k => !(st.mapBlockIndex k).isSome ||
        (st.txdb.committed.blockIndex k).isSome)) = true := by decide +kernel
  obtain ⟨st,hst,hfacts⟩ := (Option.any_eq_true _ _).mp hrun
  simp only [Bool.and_eq_true, beq_iff_eq] at hfacts
  obtain ⟨tip,hc,hk⟩ := mined_kept hmined hst
  obtain ⟨es,hscan⟩ := exists_scan sampleEnv st tip hk.1
  have hreach := mined_reachable (Meets sampleEnv (loadable sampleEnv)) hmined
    (fun w b nFile nBlockPos hashProof st hg ht => postpones_none_guards sampleEnv _
       (fun _ => trivial) (fun _ _ _ _ _ _ => trivial)
      (fun _ _ _ _ _ _ => trivial) hg.2 ht)
    (empty_meets sampleEnv _ _ _ (mined_filed 0 1 1 (by decide) (Or.inr rfl)).2)
    hst
  exact ⟨st,startup (readable rereadable) es,hfacts.1,
    reload_same_index sampleEnv _ sample_header st hreach (saved_within hk.2 hfacts.2) hscan⟩

end SwippCore.Reload
