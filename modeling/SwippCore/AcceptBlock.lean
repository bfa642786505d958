import SwippCore.Reload
import SwippCore.BigNum
import SwippCore.BlockHashCache

/-!
# AcceptBlock

A block that is accepted fits the chain of its parent and the hardened checkpoints. The index
keeps that through all calls that come later, whatever they do to the best chain.
-/

set_option autoImplicit false

namespace SwippCore.AcceptBlock
open Checks Attempt Ancestry ChainTree ChainOps ChainRollback ChainMoves LoadBlockIndex
open TargetRequired BestEntry

def mapCheckpoints : List (ℤ × Uint256) :=
  [(0,0xe94755b352f86725342f816a148ba490e07df1d7ae3a135fc0632ae4a83f8e81),
   (100,0x64300e993d53071ecb44a86464d920f2e867f9cb3343a5fa1dd6dbfd),
   (86900,0xb92c39195ccbadafb2d1481ddce36bf02c638190444e31bbb2d5c195d8e9ad1f),
   (129900,0x16510b773f104a7570e6182aee8d3ca043259b9b322b63f17a12),
   (200000,0x37ce274603723ee73def283ab67a485cffeed9d7e4f46340bf74),
   (215000,0x73b140f1bcc473e7682d0dd3e76f838968b61bb277f95173e7d2),
   (250000,0x2b5d8f396e133908c3fcaa46b8e462ea24f220e585ea2677cb41f),
   (300000,0x496468e6e9d554d92f07321a683e29ef4f2b3b10826af931674f165af4fd9846),
   (350000,0xd9b8b964eeb8d1931495de2e2488f07a7d4fba50f9fdbefe8e7c23eba11a25d1),
   (400000,0xb1a87f4e91903d4e5adff4498d97be8fc4fe7b59506fc913bdb585df07b22acb),
   (412500,0x6cd1fc6577888a54952b4bb4a033ddcbb54d7d2d436e534d27308),
   (431000,0xd2d511716a25436269c2e1076b877ca64530643558487f1a29bc0),
   (500000,0x5eda1277caafc429ff9c6f6a5add63773bf4e57fb3487d5b7629c),
   (540000,0x1117d47acea84bc2c54136dbb7b088946d3256acfc1e5593fd5cd0),
   (600001,0xa3ad6ee8590980fe3e63e5ea94f5acb2e942fbca1baefb1ab0155),
   (650001,0xf764b0ec96fd91263ee971c01c7916ec6757264f05e831f01c05d),
   (800001,0x707da3369e86fd2be5baf196ef5dcce5bf3eba5e2015dd4f6f886),
   (950011,0x6d53dbb48a1bbed7caebd7bd2b552ae1d38638b8895bfb125685f978d37f4d21),
   (1000555,0xe0c4062dae8f3acd831291ec0952bd0915fd3da9a20bf00b78d4765e5f9a7d82),
   (1150021,0x19113353a8b6ce530985e833da0e5dd516b0ece7aa8f6a54364ce97484286573),
   (1255051,0x12ce3ff85e30da375047fe842e49721c78c5e828f027ee60ba69d82350d0595)]

section Code
variable (env : Env)

def checkHardened (nHeight : ℤ) (hash : Uint256) : Bool :=
  match (if env.testNet then [] else mapCheckpoints).lookup nHeight with
  | none => true
  | some checkpoint => hash == checkpoint

def CTxIn.isFinal (txin : CTxIn) : Bool := txin.nSequence == uintMax

def locktimeThreshold : ℕ := 500000000

/-- `IsFinalTx`, where zero stands for the best height and the adjusted time. -/
def isFinalTx (nBestHeight nAdjustedTime : ℤ) (tx : CTransaction) (nBlockHeight nBlockTime : ℤ) :
    Bool :=
  let nBlockHeight := if nBlockHeight = 0 then nBestHeight else nBlockHeight
  let nBlockTime := if nBlockTime = 0 then nAdjustedTime else nBlockTime
  tx.nLockTime == 0 ||
    decide ((tx.nLockTime : ℤ) < if tx.nLockTime < locktimeThreshold then nBlockHeight else nBlockTime) ||
    tx.vin.all CTxIn.isFinal

def checkCoinStakeTimestamp (nHeight : ℤ) (nTimeBlock nTimeTx : ℕ) : Bool :=
  nTimeBlock == nTimeTx && (!isProtocolV2 env nHeight || nTimeTx &&& 15 == 0)

/-- `CScript() << n` -/
def pushInt64 (n : ℤ) : CScript :=
  if n = -1 ∨ 1 ≤ n ∧ n ≤ 16 then [UInt8.ofNat (n+0x50).toNat] else CScript.push (BigNum.getvch n)

/-- What a call takes from elsewhere: the clock, `CheckProofOfStake` with the proof where it
succeeds, the free space and the place where the block is written. -/
structure Site where
  w : World
  nAdjustedTime : ℤ
  checkProofOfStake : Option Uint256
  checkDiskSpace : Bool
  writeToDisk : Option (ℕ × ℕ)

def checkVersion (nHeight nVersion : ℤ) : Except Failure Unit :=
  if isProtocolV2 env nHeight then
    require (7 ≤ nVersion) (.error 100 "AcceptBlock() : reject too old nVersion = %d")
  else require (nVersion ≤ 6) (.error 100 "AcceptBlock() : reject too new nVersion = %d")

/-- The checks on the block above `pindexPrev`, the last of the chain. -/
def acceptChecks (site : Site) (nBestHeight : ℤ) (b : CBlock) (pindexPrev : CBlockIndex)
    (chain : List CBlockIndex) : Except Failure Uint256 := do
  let nHeight := pindexPrev.nHeight+1
  checkVersion env nHeight b.nVersion
  let coinbase ← b.vtx.head?.elim (.error .crash) .ok
  require (b.nTime ≤ futureDrift coinbase.nTime)
    (.error 50 "AcceptBlock() : coinbase timestamp is too early")
  require (!b.isProofOfStake ||
      ((b.vtx[1]?).map fun tx => checkCoinStakeTimestamp env nHeight b.nTime tx.nTime).getD false)
    (.error 50 "AcceptBlock() : coinstake timestamp violation nTimeBlock=%d nTimeTx=%u")
  require (getNextTargetRequired env chain b.isProofOfStake == some b.nBits)
    (.error 100 "AcceptBlock() : incorrect %s")
  require (decide (getPastTimeLimit env chain < b.nTime) &&
      decide ((pindexPrev.nTime : ℤ) ≤ futureDrift b.nTime))
    (.error 0 "AcceptBlock() : block's timestamp is too early")
  require (b.vtx.all fun tx => isFinalTx nBestHeight site.nAdjustedTime tx nHeight b.nTime)
    (.error 10 "AcceptBlock() : contains a non-final transaction")
  require (checkHardened env nHeight (env.hashBlock b))
    (.error 100 "AcceptBlock() : rejected by hardened checkpoint lock-in at %d")
  let hashProof ← if b.isProofOfStake then
      site.checkProofOfStake.elim
        (.error (.error 0 "AcceptBlock() : check proof-of-stake failed for block %s")) .ok
    else .ok (env.hashPoW b)
  let txin ← coinbase.vin.head?.elim (.error .crash) .ok
  require ((pushInt64 nHeight).isPrefixOf txin.scriptSig)
    (.error 100 "AcceptBlock() : block height mismatch in coinbase")
  pure hashProof

/-- `CBlock::AcceptBlock` without the relay of the block. -/
def acceptBlock (site : Site) (b : CBlock) (st : ChainState) : Result ChainState Failure :=
  if 7 < b.nVersion then fail st (.error 100 "AcceptBlock() : reject unknown block version %d")
  else if (st.mapBlockIndex (env.hashBlock b)).isSome then
    fail st (.error 0 "AcceptBlock() : block already in mapBlockIndex")
  else
    match st.mapBlockIndex b.hashPrevBlock with
    | none => fail st (.error 10 "AcceptBlock() : prev block not found")
    | some pindexPrev =>
      match acceptChecks env site st.nBestHeight b pindexPrev (st.ancestorsOf b.hashPrevBlock) with
      | .error f => fail st f
      | .ok hashProof =>
        if !site.checkDiskSpace then fail st (.error 0 "AcceptBlock() : out of disk space")
        else
          match site.writeToDisk with
          | none => fail st (.error 0 "AcceptBlock() : WriteToDisk failed")
          | some (nFile,nBlockPos) =>
            match addToBlockIndex env site.w b nFile nBlockPos hashProof st with
            | (st,.error f) => fail st (reported "AcceptBlock() : AddToBlockIndex failed" f)
            | (st,.ok _) => done st

end Code

section Lawful
variable (env : Env)

/-- What `AcceptBlock` sees to for a block above the given chain. -/
structure Passed (chain : List CBlockIndex) (i : CBlockIndex) : Prop where
  admits : ∃ j is, chain = j::is ∧ Admits env i j is
  hardened : checkHardened env i.nHeight i.hashBlock = true
  version : i.nVersion ≤ 7 ∧ checkVersion env i.nHeight i.nVersion = .ok ()

def chainOf (m : BlockMap) (h : Uint256) : List CBlockIndex := (m.pathOf h).filterMap m

section
variable (f : Bool) (chain : List CBlockIndex)

theorem last_block_core :
    getLastBlockIndex f (chain.map core) = (getLastBlockIndex f chain).map core := by
  induction chain with
  | nil => rfl
  | cons i is ih =>
    cases is with
    | nil => rfl
    | cons j is =>
      simp only [List.map_cons, getLastBlockIndex] at ih ⊢
      rw [apply_ite (List.map core), ih]
      rfl

theorem last_two_core :
    lastTwo f (chain.map core) = (lastTwo f chain).map (Prod.map core core) := by
  unfold lastTwo
  rw [last_block_core]
  rcases getLastBlockIndex f chain with _ | ⟨i,_ | ⟨j,is⟩⟩
  · rfl
  · rfl
  · have h := last_block_core f (j::is)
    simp only [List.map_cons] at h ⊢
    rw [h]
    rcases getLastBlockIndex f (j::is) with _ | ⟨k,_ | ⟨l,ks⟩⟩ <;> rfl

theorem next_target_core :
    getNextTargetRequired env (chain.map core) f = getNextTargetRequired env chain f := by
  cases chain with
  | nil => cases f <;> rfl
  | cons i is =>
    have h := last_two_core f (i::is)
    rw [List.map_cons] at h ⊢
    simp only [getNextTargetRequired, h]
    cases lastTwo f (i::is) <;> rfl

end

theorem past_limit_core (chain : List CBlockIndex) :
    getPastTimeLimit env (chain.map core) = getPastTimeLimit env chain := by
  cases chain with
  | nil => rfl
  | cons i is =>
    have h : ((i::is).map core).take nMedianTimeSpan = ((i::is).take nMedianTimeSpan).map core :=
      (List.map_take ..).symm
    simp only [List.map_cons] at h ⊢
    simp only [getPastTimeLimit, getMedianTimePast, h, List.map_map]
    rfl

theorem admits_core (i j : CBlockIndex) (is : List CBlockIndex) :
    Admits env (core i) (core j) (is.map core) ↔ Admits env i j is := by
  have ht := next_target_core env (isProofOfStake i.nFlags) (j::is)
  have hp := past_limit_core env (j::is)
  rw [List.map_cons] at ht hp
  unfold Admits
  rw [← ht, ← hp]
  rfl

theorem passed_core {chain chain' : List CBlockIndex} {i i' : CBlockIndex}
    (hchain : chain'.map core = chain.map core) (hi : core i' = core i)
    (h : Passed env chain i) : Passed env chain' i' := by
  obtain ⟨⟨j,is,rfl,hadmits⟩,hhard,hversion⟩ := h
  obtain ⟨j',is',rfl,hj,his⟩ := List.map_eq_cons_iff.mp hchain
  refine ⟨⟨j',is',rfl,?_⟩,?_,?_⟩
  · rw [← admits_core, hi, hj, his, admits_core]
    exact hadmits
  · rw [core_height hi, core_hash hi]
    exact hhard
  · have hv : (core i').nVersion = (core i).nVersion := congrArg _ hi
    rw [core_height hi, show i'.nVersion = i.nVersion from hv]
    exact hversion

structure Lawful (m : BlockMap) : Prop where
  tree : Tree m
  root : ∀ h i, m h = some i → i.pprev = none → i.nHeight = 0
  passed : ∀ h i p, m h = some i → i.pprev = some p → Passed env (chainOf m p) i

theorem same_chain_core {m m' : BlockMap} (h : SameTree m m') (p : Uint256) :
    (chainOf m' p).map core = (chainOf m p).map core := by
  unfold chainOf
  rw [List.map_filterMap, List.map_filterMap, same_tree_path h]
  exact List.filterMap_congr (fun k _ => h k)

theorem lawful_same {m m' : BlockMap} (h : SameTree m m') (hm : Lawful env m) : Lawful env m' := by
  refine ⟨same_tree_tree h hm.tree,?_,?_⟩
  · intro k i' hi' hroot
    obtain ⟨i,hi,hc⟩ := same_tree_entry h hi'
    rw [core_height hc]
    exact hm.root k i hi ((core_pprev hc).symm.trans hroot)
  · intro k i' p hi' hp
    obtain ⟨i,hi,hc⟩ := same_tree_entry h hi'
    exact passed_core env (same_chain_core h p) hc
      (hm.passed k i p hi ((core_pprev hc).symm.trans hp))

theorem chain_cons {m : BlockMap} (ht : Tree m) {h : Uint256} {i : CBlockIndex} (hi : m h = some i) :
    chainOf m h = i::(i.pprev.map (chainOf m)).getD [] := by
  have hparent : m.parentOf h = i.pprev := by simp [BlockMap.parentOf, hi]
  unfold chainOf BlockMap.pathOf
  cases hp : i.pprev with
  | none =>
    rw [hp] at hparent
    simp [path_none _ _ hparent, hi]
  | some p =>
    rw [hp] at hparent
    simp [path_some (tree_graded ht) hparent, hi]

section Filed
variable {m : BlockMap} (hm : Lawful env m) {b : CBlock} (hnew : m (env.hashBlock b) = none)
  (nFile nBlockPos : ℕ) (hashProof : Uint256) (modifier : ℕ × Bool)
include hm hnew

theorem filed_chain (hprev : (m b.hashPrevBlock).isSome) {k : Uint256} (hk : (m k).isSome) :
    chainOf (filed env b nFile nBlockPos hashProof modifier m) k = chainOf m k := by
  unfold chainOf
  rw [filed_path env hm.tree hnew hprev hk]
  refine List.filterMap_congr ?_
  intro c hc
  exact filed_other env c
    (old_path_ne env hm.tree hnew hk c hc)

theorem filed_lawful {pindexPrev : CBlockIndex} (hprev : m b.hashPrevBlock = some pindexPrev)
    (hpass : Passed env (chainOf m b.hashPrevBlock)
      (newEntry env b nFile nBlockPos hashProof modifier m)) :
    Lawful env (filed env b nFile nBlockPos hashProof modifier m) := by
  have hsome : (m b.hashPrevBlock).isSome := by simp [hprev]
  have hself : filed env b nFile nBlockPos hashProof modifier m (env.hashBlock b) =
      some (newEntry env b nFile nBlockPos hashProof modifier m) := by simp [filed]
  have hother := @filed_other env b nFile nBlockPos hashProof modifier m
  refine ⟨filed_tree env hm.tree hnew hsome,?_,?_⟩
  · intro h i hi hroot
    by_cases hh : h = env.hashBlock b
    · rw [hh, hself, Option.some_inj] at hi
      rw [← hi] at hroot
      simp [newEntry, hprev] at hroot
    · exact hm.root h i (hother h hh ▸ hi) hroot
  · intro h i p hi hp
    by_cases hh : h = env.hashBlock b
    · rw [hh, hself, Option.some_inj] at hi
      rw [← hi] at hp ⊢
      simp only [newEntry, hprev, Option.map_some, Option.some_inj] at hp
      rw [← hp, filed_chain env hm hnew nFile nBlockPos hashProof modifier hsome hsome]
      exact hpass
    · rw [hother h hh] at hi
      obtain ⟨j,hj,_⟩ := hm.tree.step h i p hi hp
      rw [filed_chain env hm hnew nFile nBlockPos hashProof modifier hsome (by simp [hj])]
      exact hm.passed h i p hi hp

end Filed

theorem root_lawful (b : CBlock) (nFile nBlockPos : ℕ) (hashProof : Uint256) (modifier : ℕ × Bool) :
    Lawful env (filed env b nFile nBlockPos hashProof modifier fun _ => none) := by
  have hentry : ∀ h i, filed env b nFile nBlockPos hashProof modifier (fun _ => none) h = some i →
      h = env.hashBlock b ∧ i = newEntry env b nFile nBlockPos hashProof modifier fun _ => none := by
    intro h i hi
    unfold filed at hi
    rw [Function.update_apply] at hi
    split_ifs at hi with hh
    exact ⟨hh,(Option.some_inj.mp hi).symm⟩
  refine ⟨⟨?_,?_,?_⟩,?_,?_⟩ <;> intro h i
  · intro hi
    obtain ⟨rfl,rfl⟩ := hentry h i hi
    rfl
  · intro hi
    obtain ⟨rfl,rfl⟩ := hentry h i hi
    exact le_refl _
  · intro p hi hp
    obtain ⟨rfl,rfl⟩ := hentry h i hi
    cases hp
  · intro hi _
    obtain ⟨rfl,rfl⟩ := hentry h i hi
    rfl
  · intro p hi hp
    obtain ⟨rfl,rfl⟩ := hentry h i hi
    cases hp

theorem checks_passed {site : Site} {nBestHeight : ℤ} {b : CBlock} {pindexPrev : CBlockIndex}
    {m : BlockMap} {hashProof : Uint256} (ht : Tree m) (hprev : m b.hashPrevBlock = some pindexPrev)
    (hversion : b.nVersion ≤ 7)
    (h : acceptChecks env site nBestHeight b pindexPrev (chainOf m b.hashPrevBlock) = .ok hashProof)
    (nFile nBlockPos : ℕ) (modifier : ℕ × Bool) : Passed env (chainOf m b.hashPrevBlock)
      (newEntry env b nFile nBlockPos hashProof modifier m) := by
  have hheight : (newEntry env b nFile nBlockPos hashProof modifier m).nHeight =
      pindexPrev.nHeight+1 := by simp [newEntry, hprev]
  have hflag : isProofOfStake (newEntry env b nFile nBlockPos hashProof modifier m).nFlags =
      b.isProofOfStake := Reload.stake_flag _ _ _
  rw [chain_cons ht hprev] at h ⊢
  simp only [acceptChecks, then_ok] at h
  obtain ⟨hv,h⟩ := h
  obtain ⟨coinbase,_,h⟩ := (bind_ok _ _ _).mp h
  simp only [then_ok, require_ok, Bool.and_eq_true, decide_eq_true_eq, beq_iff_eq] at h
  obtain ⟨-,-,htarget,⟨hpast,hfuture⟩,-,hhard,-⟩ := h
  refine ⟨⟨pindexPrev,_,rfl,hheight,hflag ▸ htarget,hpast,hfuture⟩,?_,hversion,?_⟩
  · rw [hheight]
    exact hhard
  · rw [hheight]
    exact hv

theorem add_lawful (w : World) (b : CBlock) (nFile nBlockPos : ℕ) (hashProof : Uint256)
    {st : ChainState} (hm : Lawful env st.mapBlockIndex)
    (hfiled : st.mapBlockIndex (env.hashBlock b) = none → ∀ modifier,
      Lawful env (filed env b nFile nBlockPos hashProof modifier st.mapBlockIndex)) :
    Lawful env (addToBlockIndex env w b nFile nBlockPos hashProof st).1.mapBlockIndex := by
  rcases hi : indexBlock env w b nFile nBlockPos hashProof st with ⟨st1,r⟩
  have hst1 : Lawful env st1.mapBlockIndex := by
    rcases index_block_cases env w hi with ⟨rfl,_⟩ | ⟨hnew,modifier,rfl,_⟩
    · exact hm
    · exact hfiled hnew modifier
  refine lawful_same env ?_ hst1
  unfold addToBlockIndex
  rw [hi]
  cases r with
  | error f => exact same_tree_refl _
  | ok u =>
    dsimp only [andThen]
    split
    · exact same_tree_refl _
    · split_ifs
      · exact (set_best_chain_keeps env w b st1).tree
      · exact same_tree_refl _

theorem accept_block_lawful (site : Site) (b : CBlock) (st : ChainState)
    (hm : Lawful env st.mapBlockIndex) :
    Lawful env (acceptBlock env site b st).1.mapBlockIndex := by
  unfold acceptBlock
  split
  · exact hm
  rename_i hversion
  split
  · exact hm
  split
  · exact hm
  rename_i pindexPrev hprev
  split
  · exact hm
  rename_i hashProof hchecks
  split
  · exact hm
  split
  · exact hm
  rename_i nFile nBlockPos _
  have hadd := add_lawful env site.w b nFile nBlockPos hashProof hm
    (fun hnew modifier => filed_lawful env hm hnew nFile nBlockPos hashProof modifier hprev
      (checks_passed env hm.tree hprev (not_lt.mp hversion) hchecks nFile nBlockPos modifier))
  split <;> rename_i heq <;> rw [heq] at hadd <;> exact hadd

inductive Action where
  | accept (site : Site) (b : CBlock)
  | set (w : World) (b : CBlock)
  | offer (w : World) (fLimitFree : Bool) (tx : CTransaction)

def act (st : ChainState) : Action → ChainState
  | .accept site b => (acceptBlock env site b st).1
  | .set w b => (setBestChain env w b st).1
  | .offer w fLimitFree tx => (acceptStep env w fLimitFree tx st).1

def run (w : World) (b : CBlock) (nFile nBlockPos : ℕ) (hashProof : Uint256) (as : List Action) :
    ChainState :=
  as.foldl (act env) (addToBlockIndex env w b nFile nBlockPos hashProof .empty).1

theorem run_lawful (w : World) (b : CBlock) (nFile nBlockPos : ℕ) (hashProof : Uint256)
    (as : List Action) : Lawful env (run env w b nFile nBlockPos hashProof as).mapBlockIndex := by
  have hempty : Lawful env ChainState.empty.mapBlockIndex := by
    refine ⟨⟨?_,?_,?_⟩,?_,?_⟩ <;> simp [ChainState.empty]
  have hstart := add_lawful env w b nFile nBlockPos hashProof hempty
    (fun _ => root_lawful env b nFile nBlockPos hashProof)
  unfold run
  generalize (addToBlockIndex env w b nFile nBlockPos hashProof .empty).1 = st at hstart ⊢
  induction as generalizing st with
  | nil => exact hstart
  | cons a as ih =>
    refine ih _ ?_
    cases a with
    | accept site b => exact accept_block_lawful env site b st hstart
    | set w b => exact lawful_same env (set_best_chain_keeps env w b st).tree hstart
    | offer w fLimitFree tx =>
      exact lawful_same env (pooled_keeps (accept_step_pooled env w fLimitFree tx st)).tree
        hstart

structure LawfulChain (chain : List CBlockIndex) : Prop where
  accepted : Accepted env chain
  hardened : ∀ i ∈ chain, i.pprev.isSome → checkHardened env i.nHeight i.hashBlock = true
  version : ∀ i ∈ chain, i.pprev.isSome →
    i.nVersion ≤ 7 ∧ checkVersion env i.nHeight i.nVersion = .ok ()

theorem lawful_chain {m : BlockMap} (hm : Lawful env m) (h : Uint256) :
    LawfulChain env (chainOf m h) := by
  have g := tree_graded hm.tree
  have hroot : ∀ k, m.parentOf k = none → LawfulChain env (chainOf m k) := by
    intro k hp
    cases hk : m k with
    | none =>
      have hnil : chainOf m k = [] := by simp [chainOf, BlockMap.pathOf, path_none _ _ hp, hk]
      rw [hnil]
      exact ⟨trivial,by simp,by simp⟩
    | some i =>
      have hpprev : i.pprev = none := by simpa [BlockMap.parentOf, hk] using hp
      rw [chain_cons hm.tree hk, hpprev]
      exact ⟨hm.root k i hk hpprev,by simp [hpprev],by simp [hpprev]⟩
  induction h using up_induction g with
  | root k hp => exact hroot k hp
  | up k p hp ih =>
    obtain ⟨i,hi,hpprev⟩ := (parent_of_some m k p).mp hp
    obtain ⟨⟨j,is,hchain,hadmits⟩,hhard,hversion⟩ := hm.passed k i p hi hpprev
    rw [chain_cons hm.tree hi, hpprev]
    dsimp only [Option.map_some, Option.getD_some]
    refine ⟨?_,List.forall_mem_cons.mpr ⟨fun _ => hhard,ih.hardened⟩,
      List.forall_mem_cons.mpr ⟨fun _ => hversion,ih.version⟩⟩
    rw [hchain] at ih ⊢
    exact ⟨hadmits,ih.accepted⟩

/-- Whatever blocks arrive, and whatever becomes of the best chain, every chain in the index
has passed the hardened checkpoints, and meets the rules on versions, targets and times. -/
theorem run_chains_lawful (w : World) (b : CBlock) (nFile nBlockPos : ℕ) (hashProof : Uint256)
    (as : List Action) (tip : Uint256) :
    LawfulChain env ((run env w b nFile nBlockPos hashProof as).ancestorsOf tip) :=
  lawful_chain env (run_lawful env w b nFile nBlockPos hashProof as) tip

end Lawful

end SwippCore.AcceptBlock
