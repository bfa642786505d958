import SwippCore.ChainState

/-!
# Loading the block index

`LoadBlockIndex` scans the block index records into `mapBlockIndex`, where a hash
that is met before its record gets an empty entry. It computes the chain trust in
order of height, reads which block is the best one, and checks the last blocks of
the main chain. After a bad block it moves the best chain back below it.
-/

set_option autoImplicit false

namespace SwippCore.LoadBlockIndex
open FinMap

abbrev Entries := Dict Uint256 CBlockIndex

structure Startup where
  world : World
  /-- the records of the block index in the order of the scan, each with the hash
  that `WriteBlockIndex` stored it under and in it -/
  records : List (Uint256 × CDiskBlockIndex)
  /-- where an entry is allocated -/
  address : Uint256 → ℕ
  fUseFastIndex : Bool
  adjustedTime : ℤ
  nCheckLevel : ℤ
  nCheckBlocks : ℤ

/-- The fields that `CBlock::GetHash` reads. -/
def header (b : CBlock) : CBlock := { b with vtx := [], vchBlockSig := [] }

def isProofOfStake (nFlags : ℕ) : Bool := nFlags &&& blockProofOfStake != 0

def reread (r : CDiskBlockIndex) : CDiskBlockIndex :=
  if isProofOfStake r.nFlags then r else { r with prevoutStake := .null, nStakeTime := 0 }

def diskHeader (r : CDiskBlockIndex) : CBlock where
  nVersion := r.nVersion
  hashPrevBlock := r.hashPrev
  hashMerkleRoot := r.hashMerkleRoot
  nTime := r.nTime
  nBits := r.nBits
  nNonce := r.nNonce
  vtx := []
  vchBlockSig := []

/-- `CBlockIndex()` at its place in the map. -/
def fresh (hash : Uint256) : CBlockIndex where
  hashBlock := hash
  pprev := none
  pnext := none
  nFile := 0
  nBlockPos := 0
  nChainTrust := 0
  nHeight := 0
  nMint := 0
  nMoneySupply := 0
  nFlags := 0
  nStakeModifier := 0
  prevoutStake := .null
  nStakeTime := 0
  hashProof := 0
  nVersion := 0
  hashMerkleRoot := 0
  nTime := 0
  nBits := 0
  nNonce := 0

def load (pprev pnext : Option Uint256) (r : CDiskBlockIndex) (i : CBlockIndex) : CBlockIndex :=
  { i with
    pprev := pprev
    pnext := pnext
    nFile := r.nFile
    nBlockPos := r.nBlockPos
    nHeight := r.nHeight
    nMint := r.nMint
    nMoneySupply := r.nMoneySupply
    nFlags := r.nFlags
    nStakeModifier := r.nStakeModifier
    prevoutStake := r.prevoutStake
    nStakeTime := r.nStakeTime
    hashProof := r.hashProof
    nVersion := r.nVersion
    hashMerkleRoot := r.hashMerkleRoot
    nTime := r.nTime
    nBits := r.nBits
    nNonce := r.nNonce }

def checkIndex (_ : CBlockIndex) : Bool := true

def insertBlockIndex (hash : Uint256) (m : Entries) : Option Uint256 × Entries :=
  if hash = 0 then (none,m) else (some hash,insertNew m hash (fresh hash))

structure Scanned where
  mapBlockIndex : Entries
  pindexGenesisBlock : Option Uint256
  setStakeSeen : Finset (COutPoint × ℕ)

/-- What `LoadBlockIndex` leaves. -/
structure Node where
  chain : ChainState
  setStakeSeen : Finset (COutPoint × ℕ)

variable (env : Env) (l : Startup)

def getBlockHash (e : Uint256 × CDiskBlockIndex) : Uint256 :=
  if l.fUseFastIndex && e.2.nTime < l.adjustedTime-24*60*60 && e.1 != 0 then e.1
  else env.hashBlock (diskHeader e.2)

def loadRecord (e : Uint256 × CDiskBlockIndex) (x : Scanned) : Except Failure Scanned :=
  let blockHash := getBlockHash env l e
  let r := reread e.2
  let (pindexNew,m) := insertBlockIndex blockHash x.mapBlockIndex
  match pindexNew with
  | none => .error .crash
  | some h =>
    let (pprev,m) := insertBlockIndex r.hashPrev m
    let (pnext,m) := insertBlockIndex r.hashNext m
    let i := load pprev pnext r ((m.lookup h).getD (fresh h))
    if checkIndex i then .ok {
      mapBlockIndex := m.insert h i
      pindexGenesisBlock :=
        if x.pindexGenesisBlock.isNone && blockHash == env.hashGenesisBlock then some h
        else x.pindexGenesisBlock
      setStakeSeen :=
        if isProofOfStake i.nFlags then insert (i.prevoutStake,i.nStakeTime) x.setStakeSeen
        else x.setStakeSeen }
    else .error (.error 0 "LoadBlockIndex() : CheckIndex failed at %d")

def loadRecords : List (Uint256 × CDiskBlockIndex) → Scanned → Except Failure Scanned
  | [], x => .ok x
  | e::es, x => loadRecord env l e x >>= loadRecords es

/-- The order of `pair<int,CBlockIndex*>`. -/
def before (a b : ℤ × Uint256) : Bool :=
  a.1 < b.1 || (a.1 == b.1 && l.address a.2 ≤ l.address b.2)

def sortedByHeight (m : Entries) : List Uint256 :=
  ((m.entries.map (fun e => (e.2.nHeight,e.1))).mergeSort (before l)).map Prod.snd

def setTrust (h : Uint256) (m : Entries) : Entries :=
  match m.lookup h with
  | none => m
  | some i => m.insert h { i with
      nChainTrust := ((i.pprev.bind m.lookup).map CBlockIndex.nChainTrust).getD 0+
        getBlockTrust i.nBits }

def calcTrust : List Uint256 → Entries → Entries
  | [], m => m
  | h::hs, m => calcTrust hs (setTrust h m)

def loadedState (s : Store) (x : Scanned) : ChainState :=
  { ChainState.empty with
    mapBlockIndex := x.mapBlockIndex.lookup
    pindexGenesisBlock := x.pindexGenesisBlock
    txdb := ⟨s,none⟩ }

def readBest (s : Store) (st : ChainState) : Except Failure ChainState :=
  match s.hashBestChain with
  | none =>
    if st.pindexGenesisBlock.isNone then .ok st
    else .error (.error 0 "CTxDB::LoadBlockIndex() : hashBestChain not loaded")
  | some hash =>
    match st.mapBlockIndex hash with
    | none =>
      .error (.error 0 "CTxDB::LoadBlockIndex() : hashBestChain not found in the block index")
    | some i => .ok { st with
        hashBestChain := hash
        pindexBest := some hash
        nBestHeight := i.nHeight
        nBestChainTrust := i.nChainTrust
        nBestInvalidTrust := s.bestInvalidTrust.getD 0 }

section Verify
variable (s : Store) (disk : Disk)

def mislocated (hashTx : Uint256) (txindex : CTxIndex) : Bool :=
  match disk.readTx txindex.pos with
  | none => true
  | some txFound => env.hashTx txFound != hashTx

/-- Level 4 for one output: it is spent within the blocks that were looked at; level 6:
by a transaction that is valid and spends it. -/
def badSpend (mapBlockPos : List (ℕ × ℕ)) (hashTx : Uint256) (nOutput : ℕ) :
    CDiskTxPos → Bool
  | .null => false
  | .onDisk nFile nBlockPos nTxPos =>
    !(mapBlockPos.contains (nFile,nBlockPos)) || (5 < l.nCheckLevel &&
      match disk.readTx (.onDisk nFile nBlockPos nTxPos) with
      | none => true
      | some txSpend => !(checkTransaction env txSpend).isOk ||
          !(txSpend.prevouts.contains ⟨hashTx,nOutput⟩))

def unmarked (o : COutPoint) : Bool :=
  match s.tx o.hash with
  | none => false
  | some txindex => (txindex.vSpent[o.n]?.map CDiskTxPos.isNull).getD true

def badTx (mapBlockPos : List (ℕ × ℕ)) (i : CBlockIndex) (tx : CTransaction) : Bool :=
  let hashTx := env.hashTx tx
  (match s.tx hashTx with
    | none => false
    | some txindex =>
      ((2 < l.nCheckLevel || !(txindex.pos.inBlock i.nFile i.nBlockPos)) &&
        mislocated env disk hashTx txindex) ||
      (3 < l.nCheckLevel && txindex.vSpent.zipIdx.any (fun p =>
        badSpend env l disk mapBlockPos hashTx p.2 p.1))) ||
  (4 < l.nCheckLevel && tx.prevouts.any (unmarked s))

/-- The verdict on a block that was read, unless `CheckBlock` does not return. -/
def badBlock (st : ChainState) (amb : Ambient) (mapBlockPos : List (ℕ × ℕ)) (i : CBlockIndex)
    (b : CBlock) : Except Failure Bool :=
  let deeper := 1 < l.nCheckLevel && b.vtx.any (badTx env l s disk mapBlockPos i)
  if 0 < l.nCheckLevel then
    match checkBlock env st.best amb b none true true (6 < l.nCheckLevel) with
    | .ok _ => .ok deeper
    | .error (.error _ _) => .ok true
    | .error f => .error f
  else .ok deeper

end Verify

def nCheckDepth (nBestHeight : ℤ) : ℤ :=
  min (if l.nCheckBlocks = 0 then 1000000000 else l.nCheckBlocks) nBestHeight

def verifyBlocks (st : ChainState) :
    List Uint256 → List (ℕ × ℕ) → Option Uint256 → Except Failure (Option Uint256)
  | [], _, pindexFork => .ok pindexFork
  | h::hs, mapBlockPos, pindexFork =>
    match st.mapBlockIndex h with
    | none => .error .crash
    | some i =>
      match i.pprev with
      | none => .ok pindexFork
      | some p =>
        if i.nHeight < st.nBestHeight-nCheckDepth l st.nBestHeight then .ok pindexFork
        else match readFromDisk env st.best (l.world.disk h) i with
          | none => .error (.error 0 "LoadBlockIndex() : block.ReadFromDisk failed")
          | some b => do
            let seen := (i.nFile,i.nBlockPos)::mapBlockPos
            let bad ← badBlock env l st.txdb.committed (l.world.disk h) st (l.world.ambient h) seen i b
            verifyBlocks st hs seen (if bad then some p else pindexFork)

def moveBack (st : ChainState) : Option Uint256 → Except Failure ChainState
  | none => .ok st
  | some pindexFork =>
    match st.mapBlockIndex pindexFork with
    | none => .error .crash
    | some i =>
      match readFromDisk env st.best (l.world.disk pindexFork) i with
      | none => .error (.error 0 "LoadBlockIndex() : block.ReadFromDisk failed")
      | some b =>
        match setBestChain env l.world b st with
        | (st,.ok _) => .ok st
        | (st,.error (.error _ _)) => .ok st
        | (_,.error f) => .error f

def rebuild (s : Store) : Except Failure Node := do
  let x ← loadRecords env l l.records ⟨∅,none,∅⟩
  let m := calcTrust (sortedByHeight l x.mapBlockIndex) x.mapBlockIndex
  let st ← readBest s (loadedState s { x with mapBlockIndex := m })
  .ok ⟨st,x.setStakeSeen⟩

/-- `CTxDB::LoadBlockIndex` on an empty `mapBlockIndex`. -/
def loadBlockIndex (s : Store) : Except Failure Node := do
  let n ← rebuild env l s
  match n.chain.pindexBest with
  | none => .ok n
  | some tip =>
    let pindexFork ← verifyBlocks env l n.chain (n.chain.mapBlockIndex.pathOf tip) [] none
    let st ← moveBack env l n.chain pindexFork
    .ok { n with chain := st }

section Scan

def link (hash : Uint256) : Option Uint256 := if hash = 0 then none else some hash

def entryOf (e : Uint256 × CDiskBlockIndex) : CBlockIndex :=
  load (link (reread e.2).hashPrev) (link (reread e.2).hashNext) (reread e.2) (fresh e.1)

theorem insert_pointer (hash : Uint256) (m : Entries) : (insertBlockIndex hash m).1 = link hash := by
  unfold insertBlockIndex link
  split_ifs <;> rfl

theorem insert_lookup (hash : Uint256) (m : Entries) (h : Uint256) :
    (insertBlockIndex hash m).2.lookup h =
      if h = hash ∧ hash ≠ 0 ∧ m.lookup hash = none then some (fresh hash) else m.lookup h := by
  unfold insertBlockIndex
  by_cases h0 : hash = 0
  · simp [h0]
  · rw [if_neg h0, lookup_insert_new]
    simp only [ne_eq, h0, not_false_eq_true, true_and]

theorem insert_cases {hash : Uint256} {m : Entries} {h : Uint256} {i : CBlockIndex}
    (hi : (insertBlockIndex hash m).2.lookup h = some i) :
    m.lookup h = some i ∨ h = hash ∧ hash ≠ 0 ∧ i = fresh hash := by
  rw [insert_lookup] at hi
  split_ifs at hi with hc
  · exact Or.inr ⟨hc.1,hc.2.1,(Option.some_inj.mp hi).symm⟩
  · exact Or.inl hi

theorem insert_keeps (hash : Uint256) {m : Entries} {h : Uint256} {i : CBlockIndex}
    (hi : m.lookup h = some i) : (insertBlockIndex hash m).2.lookup h = some i := by
  rw [insert_lookup, if_neg, hi]
  rintro ⟨rfl,_,hn⟩
  rw [hi] at hn
  cases hn

structure Loaded (e : Uint256 × CDiskBlockIndex) (j : CBlockIndex) (x x' : Scanned) : Prop where
  self : x'.mapBlockIndex.lookup e.1 =
    some (load (link (reread e.2).hashPrev) (link (reread e.2).hashNext) (reread e.2) j)
  kept : ∀ h i, h ≠ e.1 → x.mapBlockIndex.lookup h = some i → x'.mapBlockIndex.lookup h = some i
  cases : ∀ h i, h ≠ e.1 → x'.mapBlockIndex.lookup h = some i →
    x.mapBlockIndex.lookup h = some i ∨
      (h = (reread e.2).hashPrev ∨ h = (reread e.2).hashNext) ∧ h ≠ 0 ∧ i = fresh h
  stake : isProofOfStake (reread e.2).nFlags →
    ((reread e.2).prevoutStake,(reread e.2).nStakeTime) ∈ x'.setStakeSeen
  seen : x.setStakeSeen ⊆ x'.setStakeSeen

theorem load_record_ok {e : Uint256 × CDiskBlockIndex} (x : Scanned)
    (hkey : getBlockHash env l e = e.1) (hnull : e.1 ≠ 0) :
    ∃ x', loadRecord env l e x = .ok x' ∧
      Loaded e ((x.mapBlockIndex.lookup e.1).getD (fresh e.1)) x x' := by
  let m1 := (insertBlockIndex e.1 x.mapBlockIndex).2
  let m2 := (insertBlockIndex (reread e.2).hashPrev m1).2
  let m3 := (insertBlockIndex (reread e.2).hashNext m2).2
  have hself : m3.lookup e.1 = some ((x.mapBlockIndex.lookup e.1).getD (fresh e.1)) := by
    apply insert_keeps
    apply insert_keeps
    rw [insert_lookup]
    cases hx : x.mapBlockIndex.lookup e.1 with
    | none => rw [if_pos ⟨rfl,hnull,rfl⟩, Option.getD_none]
    | some i => rw [if_neg (by simp), Option.getD_some]
  have hptr : (insertBlockIndex e.1 x.mapBlockIndex).1 = some e.1 := by
    rw [insert_pointer, link, if_neg hnull]
  refine ⟨_,by
    simp only [loadRecord, hkey, hptr, insert_pointer, checkIndex, if_true]
    rfl,?_,?_,?_,?_,?_⟩
  · rw [lookup_insert_if, if_pos rfl, hself, Option.getD_some]
  · intro h i hne hi
    rw [lookup_insert_if, if_neg hne]
    exact insert_keeps _ (insert_keeps _ (insert_keeps _ hi))
  · intro h i hne hi
    rw [lookup_insert_if, if_neg hne] at hi
    rcases insert_cases hi with hi | ⟨rfl,h0,rfl⟩
    · rcases insert_cases hi with hi | ⟨rfl,h0,rfl⟩
      · rcases insert_cases hi with hi | ⟨he,_,_⟩
        · exact Or.inl hi
        · exact absurd he hne
      · exact Or.inr ⟨Or.inl rfl,h0,rfl⟩
    · exact Or.inr ⟨Or.inr rfl,h0,rfl⟩
  · intro hs
    simp only [load, hs, if_true]
    exact Finset.mem_insert_self _ _
  · intro p hp
    dsimp only
    split_ifs
    · exact Finset.mem_insert_of_mem hp
    · exact hp

structure WellKeyed (es : List (Uint256 × CDiskBlockIndex)) : Prop where
  hash : ∀ e ∈ es, getBlockHash env l e = e.1
  nonzero : ∀ e ∈ es, e.1 ≠ 0
  distinct : (es.map Prod.fst).Nodup
  prev : ∀ e ∈ es, e.2.hashPrev ≠ 0 → e.2.hashPrev ∈ es.map Prod.fst
  next : ∀ e ∈ es, e.2.hashNext ≠ 0 → e.2.hashNext ∈ es.map Prod.fst

/-- The scan in the middle: some records are loaded, and every other entry is empty
and waits for its record. -/
structure Midway (all done : List (Uint256 × CDiskBlockIndex)) (x : Scanned) : Prop where
  loaded : ∀ e ∈ done, x.mapBlockIndex.lookup e.1 = some (entryOf e)
  waiting : ∀ h i, x.mapBlockIndex.lookup h = some i → h ∉ done.map Prod.fst →
    i = fresh h ∧ h ∈ all.map Prod.fst
  stakes : ∀ e ∈ done, isProofOfStake (reread e.2).nFlags →
    ((reread e.2).prevoutStake,(reread e.2).nStakeTime) ∈ x.setStakeSeen

theorem reread_links (r : CDiskBlockIndex) :
    (reread r).hashPrev = r.hashPrev ∧ (reread r).hashNext = r.hashNext := by
  unfold reread
  split_ifs <;> exact ⟨rfl,rfl⟩

theorem load_records_ok (all done es : List (Uint256 × CDiskBlockIndex)) (x : Scanned)
    (hk : WellKeyed env l all) (hall : all = done++es) (hx : Midway all done x) :
    ∃ x', loadRecords env l es x = .ok x' ∧ Midway all all x' := by
  induction es generalizing done x with
  | nil =>
    rw [List.append_nil] at hall
    exact ⟨x,rfl,hall ▸ hall.symm ▸ hx⟩
  | cons e es ih =>
    have hmem : e ∈ all := by rw [hall]; simp
    have hnew : e.1 ∉ done.map Prod.fst := by
      have hd := hk.distinct
      rw [hall, List.map_append, List.map_cons] at hd
      intro hin
      exact (List.nodup_append.mp hd).2.2 _ hin _ List.mem_cons_self rfl
    obtain ⟨x1,h1,hl⟩ := load_record_ok env l x (hk.hash e hmem) (hk.nonzero e hmem)
    have hempty : (x.mapBlockIndex.lookup e.1).getD (fresh e.1) = fresh e.1 := by
      cases hi : x.mapBlockIndex.lookup e.1 with
      | none => rfl
      | some i => exact (hx.waiting e.1 i hi hnew).1
    rw [hempty] at hl
    have hmid : Midway all (done++[e]) x1 := by
      refine ⟨?_,?_,?_⟩
      · intro d hd
        rcases List.mem_append.mp hd with hd | hd
        · have hne : d.1 ≠ e.1 := fun he => hnew (he ▸ List.mem_map_of_mem hd)
          exact hl.kept d.1 _ hne (hx.loaded d hd)
        · rw [List.mem_singleton.mp hd]
          exact hl.self
      · intro h i hi hno
        rw [List.map_append, List.mem_append, not_or] at hno
        have hne : h ≠ e.1 := fun he => hno.2 (by simp [he])
        obtain ⟨hprev,hnext⟩ := reread_links e.2
        rcases hl.cases h i hne hi with hi | ⟨rfl | rfl,h0,rfl⟩
        · exact hx.waiting h i hi hno.1
        · exact ⟨rfl,hprev ▸ hk.prev e hmem (hprev ▸ h0)⟩
        · exact ⟨rfl,hnext ▸ hk.next e hmem (hnext ▸ h0)⟩
      · intro d hd hs
        rcases List.mem_append.mp hd with hd | hd
        · exact hl.seen (hx.stakes d hd hs)
        · rw [List.mem_singleton.mp hd] at hs ⊢
          exact hl.stake hs
    obtain ⟨x2,h2,hmid2⟩ := ih (done++[e]) x1 (by rw [hall, List.append_assoc]; rfl) hmid
    exact ⟨x2,by rw [loadRecords, h1]; exact h2,hmid2⟩

theorem scan_ok {es : List (Uint256 × CDiskBlockIndex)} (hk : WellKeyed env l es) :
    ∃ x, loadRecords env l es ⟨∅,none,∅⟩ = .ok x ∧
      (∀ h i, x.mapBlockIndex.lookup h = some i ↔ ∃ r, (h,r) ∈ es ∧ i = entryOf (h,r)) ∧
      ∀ e ∈ es, isProofOfStake (reread e.2).nFlags →
        ((reread e.2).prevoutStake,(reread e.2).nStakeTime) ∈ x.setStakeSeen := by
  obtain ⟨x,hx,hm⟩ := load_records_ok env l es [] es ⟨∅,none,∅⟩ hk rfl
    ⟨by simp,by simp,by simp⟩
  refine ⟨x,hx,?_,hm.stakes⟩
  intro h i
  constructor
  · intro hi
    by_cases hin : h ∈ es.map Prod.fst
    · obtain ⟨e,he,rfl⟩ := List.mem_map.mp hin
      rw [hm.loaded e he, Option.some_inj] at hi
      exact ⟨e.2,he,hi.symm⟩
    · exact absurd (hm.waiting h i hi hin).2 hin
  · rintro ⟨r,hr,rfl⟩
    exact hm.loaded (h,r) hr

end Scan

section Trust
variable (T : Uint256 → Uint256)

def Trusted (m0 : BlockMap) (hs : List Uint256) (m : Entries) : Prop :=
  ∀ k, m.lookup k = (m0 k).map (fun i =>
    { i with nChainTrust := if k ∈ hs then i.nChainTrust else T k })

def Adds (m0 : BlockMap) : Prop :=
  ∀ h i, m0 h = some i → (∀ p, i.pprev = some p → (m0 p).isSome) ∧
    T h = (i.pprev.map T).getD 0+getBlockTrust i.nBits

theorem set_trust_lookup (h : Uint256) (m : Entries) (k : Uint256) :
    (setTrust h m).lookup k = if k = h then (m.lookup h).map (fun i => { i with
      nChainTrust := ((i.pprev.bind m.lookup).map CBlockIndex.nChainTrust).getD 0+
        getBlockTrust i.nBits }) else m.lookup k := by
  unfold setTrust
  cases hm : m.lookup h with
  | none =>
    by_cases hk : k = h
    · rw [if_pos hk, hk, hm]
      rfl
    · rw [if_neg hk]
  | some i => simp [lookup_insert_if]

theorem set_trust_trusted {m0 : BlockMap} {h : Uint256} {hs : List Uint256} {m : Entries}
    (ha : Adds T m0) (hnew : h ∉ hs) (hpar : ∀ i p, m0 h = some i → i.pprev = some p → p ∉ h::hs)
    (ht : Trusted T m0 (h::hs) m) : Trusted T m0 hs (setTrust h m) := by
  intro k
  rw [set_trust_lookup]
  by_cases hk : k = h
  · subst hk
    rw [if_pos rfl, ht k]
    cases hi : m0 k with
    | none => rfl
    | some i =>
      obtain ⟨hsome,hT⟩ := ha k i hi
      simp only [Option.map_some, hnew, if_false, Option.some_inj]
      rw [hT]
      cases hp : i.pprev with
      | none => rfl
      | some p =>
        obtain ⟨j,hj⟩ := Option.isSome_iff_exists.mp (hsome p hp)
        have hlook : m.lookup p = some { j with nChainTrust := T p } := by
          rw [ht p, hj, Option.map_some, if_neg (hpar i p hi hp)]
        simp [hlook]
  · rw [if_neg hk, ht k]
    simp [hk]

variable (m : Entries)

theorem calc_trust_trusted {m0 : BlockMap} {hs : List Uint256} (ha : Adds T m0) (hnodup : hs.Nodup)
    (hord : hs.Pairwise (fun a b => ∀ i, m0 a = some i → i.pprev ≠ some b))
    (hself : ∀ a i, m0 a = some i → i.pprev ≠ some a) (ht : Trusted T m0 hs m) :
    Trusted T m0 [] (calcTrust hs m) := by
  induction hs generalizing m with
  | nil => exact ht
  | cons h hs ih =>
    obtain ⟨hnew,hnodup⟩ := List.nodup_cons.mp hnodup
    obtain ⟨hfirst,hord⟩ := List.pairwise_cons.mp hord
    refine ih _ hnodup hord (set_trust_trusted T ha hnew ?_ ht)
    intro i p hi hp hin
    rcases List.mem_cons.mp hin with rfl | hin
    · exact hself p i hi hp
    · exact hfirst p hin i hi hp

theorem before_total (a b : ℤ × Uint256) : (before l a b || before l b a) = true := by
  simp only [before, Bool.or_eq_true, Bool.and_eq_true, decide_eq_true_eq, beq_iff_eq]
  omega

theorem before_trans (a b c : ℤ × Uint256) (hab : before l a b = true)
    (hbc : before l b c = true) : before l a c = true := by
  simp only [before, Bool.or_eq_true, Bool.and_eq_true, decide_eq_true_eq, beq_iff_eq] at *
  omega

theorem mem_sorted (h : Uint256) : h ∈ sortedByHeight l m ↔ (m.lookup h).isSome := by
  rw [AList.lookup_isSome, AList.mem_keys]
  simp [sortedByHeight, AList.keys, List.keys]

theorem sorted_nodup : (sortedByHeight l m).Nodup := by
  have hperm := (List.mergeSort_perm (m.entries.map (fun e => (e.2.nHeight,e.1)))
    (before l)).map Prod.snd
  rw [sortedByHeight, hperm.nodup_iff, List.map_map]
  exact m.nodupKeys

theorem sorted_heights :
    (sortedByHeight l m).Pairwise (fun a b => ∀ i j, m.lookup a = some i → m.lookup b = some j →
      i.nHeight ≤ j.nHeight) := by
  have hsort := List.pairwise_mergeSort (before_trans l) (before_total l)
    (m.entries.map (fun e => (e.2.nHeight,e.1)))
  rw [sortedByHeight, List.pairwise_map]
  refine hsort.imp_of_mem ?_
  intro a b ha hb hab i j hi hj
  have hheight : ∀ c ∈ (m.entries.map (fun e => (e.2.nHeight,e.1))).mergeSort (before l),
      ∀ k, m.lookup c.2 = some k → k.nHeight = c.1 := by
    intro c hc k hk
    rw [List.mem_mergeSort, List.mem_map] at hc
    obtain ⟨e,he,rfl⟩ := hc
    have hl : m.lookup e.1 = some e.2 := AList.mem_lookup_iff.mpr he
    rw [hl, Option.some_inj] at hk
    rw [hk]
  rw [hheight a ha i hi, hheight b hb j hj]
  simp only [before, Bool.or_eq_true, Bool.and_eq_true, decide_eq_true_eq, beq_iff_eq] at hab
  omega

theorem sorted_trust {m : Entries} (ha : Adds T m.lookup)
    (hup : ∀ h i p j, m.lookup h = some i → i.pprev = some p → m.lookup p = some j →
      i.nHeight = j.nHeight+1) (k : Uint256) :
    (calcTrust (sortedByHeight l m) m).lookup k =
      (m.lookup k).map (fun i => { i with nChainTrust := T k }) := by
  have hall : Trusted T m.lookup (sortedByHeight l m) m := by
    intro h
    cases hi : m.lookup h with
    | none => simp [hi]
    | some i => simp [hi, (mem_sorted l m h).mpr (by rw [hi]; rfl)]
  have hord : (sortedByHeight l m).Pairwise (fun a b => ∀ i, m.lookup a = some i →
      i.pprev ≠ some b) := by
    refine (sorted_heights l m).imp ?_
    intro a b hab i hi hp
    obtain ⟨j,hj⟩ := Option.isSome_iff_exists.mp ((ha a i hi).1 b hp)
    have hle := hab i j hi hj
    have hstep := hup a i b j hi hp hj
    omega
  have hself : ∀ a i, m.lookup a = some i → i.pprev ≠ some a := by
    intro a i hi hp
    have hstep := hup a i a i hi hp hi
    omega
  have h := calc_trust_trusted T m ha (sorted_nodup l m) hord hself hall k
  simpa using h

end Trust

end SwippCore.LoadBlockIndex
