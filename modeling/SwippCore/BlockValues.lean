import SwippCore.ConnectEffect

/-!
# Values and rewards of blocks

The values that a block moves, and the reward that it may claim for them.
-/

set_option autoImplicit false

namespace SwippCore.BlockValues
open FinMap Checks IndexEffect ConnectEffect

def outTotal (tx : CTransaction) : ℤ := (tx.vout.map CTxOut.nValue).sum

section Read
variable (disk : Disk) (pool : Uint256 → Option CTransaction)

def prevTx (e : TxIndex) (hash : Uint256) : Option CTransaction :=
  (e hash).bind (fun i => ((readPrev disk pool hash i).toOption).map Prod.snd)

def prevOut (e : TxIndex) (o : COutPoint) : Option CTxOut :=
  (prevTx disk pool e o.hash).bind (fun tx => tx.vout[o.n]?)

def inTotal (e : TxIndex) (tx : CTransaction) : ℤ :=
  ((spent tx).map (fun o => ((prevOut disk pool e o).map CTxOut.nValue).getD 0)).sum

end Read

structure Flow where
  tx : CTransaction
  valueIn : ℤ
  valueOut : ℤ

def flows (env : Env) (disk : Disk) (pool : Uint256 → Option CTransaction) :
    List Placed → TxIndex → List Flow
  | [], _ => []
  | a::as, e => ⟨a.2,inTotal disk pool e a.2,outTotal a.2⟩::
      flows env disk pool as (connectEffect env a e)

def valueIn (fs : List Flow) : ℤ := (fs.map Flow.valueIn).sum

def valueOut (fs : List Flow) : ℤ := (fs.map Flow.valueOut).sum

def fees (fs : List Flow) : ℤ := (fs.map (fun f => f.valueIn-f.valueOut)).sum

def lastStake : ℤ → List Flow → ℤ
  | r, [] => r
  | r, f::fs => lastStake (if f.tx.isCoinStake then f.valueOut-f.valueIn else r) fs

theorem last_stake_none (r : ℤ) {fs : List Flow} (h : ∀ f ∈ fs, f.tx.isCoinStake = false) :
    lastStake r fs = r := by
  induction fs generalizing r with
  | nil => rfl
  | cons f fs ih =>
    rw [lastStake, h f List.mem_cons_self]
    exact ih r (fun g hg => h g (List.mem_cons_of_mem f hg))

theorem value_out_from_ok (v w : ℤ) {os : List CTxOut} (h : valueOutFrom v os = .ok w) :
    w = v+(os.map CTxOut.nValue).sum := by
  induction os generalizing v with
  | nil =>
    rw [valueOutFrom, Except.ok.injEq] at h
    simp [h]
  | cons o os ih =>
    rw [valueOutFrom] at h
    split_ifs at h
    rw [ih _ h, List.map_cons, List.sum_cons]
    omega

variable {tx : CTransaction}

theorem value_out_ok {w : ℤ} (h : tx.getValueOut = .ok w) : w = outTotal tx := by
  rw [value_out_from_ok 0 w h, outTotal]
  omega

section Fetch
variable (disk : Disk) (pool : Uint256 → Option CTransaction) (e : TxIndex)

def Fetched (inputs : MapPrevTx) (e : TxIndex) : Prop :=
  ∀ k p, inputs.lookup k = some p → prevTx disk pool e k = some p.2

theorem fetch_prev_tx {q : TxIndexMap} {hash : Uint256} {p : CTxIndex × CTransaction}
    (h : fetchPrev disk pool e q true hash = .ok p) :
    prevTx disk pool (queued q e) hash = some p.2 := by
  have hq := fetch_prev_ok disk pool e h
  rw [fetch_prev_queued] at h
  simp only [hq] at h
  rw [prevTx, hq, Option.bind_some, h]
  rfl

theorem fetch_prevs_fetched (q : TxIndexMap) (os : List COutPoint) (inputs inputs' : MapPrevTx)
    (hin : Fetched disk pool inputs (queued q e))
    (h : fetchPrevs disk pool e q true os inputs = .ok inputs') :
    Fetched disk pool inputs' (queued q e) := by
  induction os generalizing inputs with
  | nil =>
    rw [fetchPrevs, Except.ok.injEq] at h
    rwa [← h]
  | cons o os ih =>
    rw [fetchPrevs] at h
    split_ifs at h
    · exact ih inputs hin h
    · obtain ⟨p,hp,h⟩ := (bind_ok _ _ _).mp h
      apply ih (inputs.insert o.hash p) _ h
      intro k r hr
      rw [lookup_insert_if] at hr
      split_ifs at hr with hk
      · rw [hk, ← Option.some_inj.mp hr]
        exact fetch_prev_tx disk pool e hp
      · exact hin k r hr

theorem fetch_inputs_fetched (q : TxIndexMap) (tx : CTransaction) (inputs : MapPrevTx)
    (h : fetchInputs disk pool e q true tx = .ok inputs) :
    Fetched disk pool inputs (queued q e) := by
  unfold fetchInputs at h
  split_ifs at h with hc
  · rw [Except.ok.injEq] at h
    rw [← h]
    intro k p hp
    simp at hp
  · obtain ⟨i,hi,h⟩ := (bind_ok _ _ _).mp h
    obtain ⟨_,h⟩ := (then_ok _ _ _).mp h
    rw [Except.ok.injEq] at h
    subst h
    exact fetch_prevs_fetched disk pool e q _ ∅ i (by intro k p hp; simp at hp) hi

theorem value_in_of_ok {inputs : MapPrevTx} {os : List COutPoint} (v : ℤ)
    (hin : Fetched disk pool inputs e) (h : valueInOf inputs os = .ok v) :
    v = (os.map (fun o => ((prevOut disk pool e o).map CTxOut.nValue).getD 0)).sum := by
  induction os generalizing v with
  | nil =>
    rw [valueInOf, Except.ok.injEq] at h
    simp [h]
  | cons o os ih =>
    rw [valueInOf] at h
    cases ho : getOutputFor inputs o with
    | none => simp [ho] at h
    | some out =>
      cases hr : valueInOf inputs os with
      | error f => simp [ho, hr, Except.map] at h
      | ok w =>
        simp only [ho, hr, Except.map, Except.ok.injEq] at h
        have hout : prevOut disk pool e o = some out := by
          rw [getOutputFor] at ho
          obtain ⟨p,hp,hn⟩ := Option.bind_eq_some_iff.mp ho
          rw [prevOut, hin _ _ hp]
          exact hn
        rw [← h, List.map_cons, List.sum_cons, ← ih w hr, hout]
        rfl

theorem value_in_ok {inputs : MapPrevTx} {tx : CTransaction} {v : ℤ}
    (hin : Fetched disk pool inputs e) (h : tx.getValueIn inputs = .ok v) :
    v = inTotal disk pool e tx := by
  unfold CTransaction.getValueIn at h
  unfold inTotal spent
  split_ifs at h ⊢ with hc
  · rw [Except.ok.injEq] at h
    simp [h]
  · exact value_in_of_ok disk pool e v hin h

end Fetch

variable (env : Env) (ctx : ConnectContext) (s : Store)

theorem coin_base_not_stake (h : tx.isCoinBase) : tx.isCoinStake = false := by
  unfold CTransaction.isCoinBase at h
  unfold CTransaction.isCoinStake
  split at h
  · rename_i i hi
    rw [Bool.and_eq_true] at h
    split
    · rename_i j js o p os hj hv
      rw [hi, List.cons.injEq] at hj
      rw [← hj.1, h.1]
      rfl
    · rfl
  · simp at h

structure Summed (t t' : Totals) (fs : List Flow) : Prop where
  nValueIn : t'.nValueIn = t.nValueIn+valueIn fs
  nValueOut : t'.nValueOut = t.nValueOut+valueOut fs
  nFees : t'.nFees = t.nFees+
    fees (fs.filter (fun f => !f.tx.isCoinBase && !f.tx.isCoinStake))
  nStakeReward : t'.nStakeReward = lastStake t.nStakeReward fs

theorem connect_tx_summed {t t' : Totals} (h : connectTx env ctx s tx t = .ok t') :
    Summed t t' [⟨tx,inTotal ctx.disk ctx.pool (queued t.mapQueuedChanges s.tx) tx,outTotal tx⟩] := by
  obtain ⟨_,_,t1,h1,rfl⟩ := (connect_tx_ok env ctx s tx t t').mp h
  unfold connectSpendOrMint at h1
  split_ifs at h1 with hc
  · cases hv : tx.getValueOut with
    | error f => simp [hv, Except.map] at h1
    | ok v =>
      simp only [hv, Except.map, Except.ok.injEq] at h1
      subst h1
      have hst := coin_base_not_stake hc
      refine ⟨?_,?_,?_,?_⟩
      · simp [valueIn, inTotal, spent, hc, counted]
      · simp [valueOut, counted, value_out_ok hv]
      · simp [fees, hc, counted]
      · simp [lastStake, hst, counted]
  · obtain ⟨inputs,nIn,nOut,q,hf,_,hi,ho,_,rfl⟩ :=
      (connect_spend_ok env ctx s _ tx _ t1).mp h1
    have hin := value_in_ok ctx.disk ctx.pool _
      (fetch_inputs_fetched _ _ _ _ _ _ hf) hi
    have hout := value_out_ok ho
    subst hin hout
    refine ⟨?_,?_,?_,?_⟩
    · simp [valueIn, counted]
    · simp [valueOut, counted]
    · cases hst : tx.isCoinStake <;> simp [fees, hc, hst, counted]
    · cases hst : tx.isCoinStake <;> simp [lastStake, hst, counted]

theorem last_stake_append (r : ℤ) (fs gs : List Flow) :
    lastStake r (fs++gs) = lastStake (lastStake r fs) gs := by
  induction fs generalizing r with
  | nil => rfl
  | cons f fs ih => exact ih _

theorem summed_append {t t1 t' : Totals} {fs gs : List Flow} (h : Summed t t1 fs)
    (h' : Summed t1 t' gs) : Summed t t' (fs++gs) := by
  refine ⟨?_,?_,?_,?_⟩
  · rw [h'.nValueIn, h.nValueIn, valueIn, valueIn, valueIn, List.map_append, List.sum_append]
    omega
  · rw [h'.nValueOut, h.nValueOut, valueOut, valueOut, valueOut, List.map_append, List.sum_append]
    omega
  · rw [h'.nFees, h.nFees, List.filter_append, fees, fees, fees, List.map_append, List.sum_append]
    omega
  · rw [h'.nStakeReward, h.nStakeReward, last_stake_append]

theorem connect_txs_summed {txs : List CTransaction} (t t' : Totals)
    (h : connectTxs env ctx s txs t = .ok t') :
    Summed t t' (flows env ctx.disk ctx.pool (placed env ctx t.nTxPos txs)
      (queued t.mapQueuedChanges s.tx)) := by
  induction txs generalizing t with
  | nil =>
    rw [connectTxs, Except.ok.injEq] at h
    subst h
    constructor <;> simp [flows, valueIn, valueOut, fees, lastStake, placed]
  | cons tx txs ih =>
    obtain ⟨t1,h1,h⟩ := (bind_ok _ _ _).mp h
    obtain ⟨hq,_,hn⟩ := connect_tx_effect env ctx s h1
    have hrest := ih t1 h
    rw [hq, hn] at hrest
    exact summed_append (connect_tx_summed env ctx s h1) hrest

theorem flows_tx (disk : Disk) (pool : Uint256 → Option CTransaction) (as : List Placed)
    (e : TxIndex) : (flows env disk pool as e).map Flow.tx = as.map Prod.snd := by
  induction as generalizing e with
  | nil => rfl
  | cons a as ih => simp [flows, ih]

section
variable {disk : Disk} {pool : Uint256 → Option CTransaction} {as : List Placed} (e : TxIndex)
  {f : Flow} (hf : f ∈ flows env disk pool as e)
include disk pool as e hf

theorem flows_value_out : f.valueOut = outTotal f.tx := by
  induction as generalizing e with
  | nil => simp [flows] at hf
  | cons a as ih =>
    rcases List.mem_cons.mp hf with rfl | hf
    · rfl
    · exact ih _ hf

theorem flows_coin_base (hc : f.tx.isCoinBase) :
    f.valueIn = 0 := by
  induction as generalizing e with
  | nil => simp [flows] at hf
  | cons a as ih =>
    rcases List.mem_cons.mp hf with rfl | hf
    · simp [inTotal, spent, show a.2.isCoinBase = true from hc]
    · exact ih _ hf

end

end SwippCore.BlockValues

/-!
## The reward of a block against its schedule

The schedule allows a block the subsidy of its height table and the fees of its
other transactions. `ConnectBlock` passes its arguments to the reward functions
in another order, so that in place of the fees it adds the height of the block
to a proof-of-work subsidy and the coin age to a proof-of-stake one.
-/

namespace SwippCore.RewardSchedule
open Checks ConnectEffect BlockValues

def subsidy (b : CBlock) (nHeight : ℤ) : ℤ :=
  if b.isProofOfStake then proofOfStakeSubsidy nHeight else proofOfWorkSubsidy nHeight

/-- The reward that a block pays: the outputs of its coin base, or what its coin
stake puts out beyond its inputs. -/
def reward (b : CBlock) (fs : List Flow) : ℤ :=
  if b.isProofOfStake then valueOut ((fs.drop 1).take 1)-valueIn ((fs.drop 1).take 1)
  else valueOut (fs.take 1)

variable (env : Env) (ctx : ConnectContext) (amb : Ambient) (pprev : Option CBlockIndex)

/-- What `ConnectBlock` passes where the reward functions take the fees. -/
def passedAsFees (s : Store) (b : CBlock) : Option ℤ :=
  if b.isProofOfStake then (getCoinAge env ctx.disk s (b.vtx.getD 1 ⟨0,0,[],[],0⟩)).map BitVec.toInt
  else some ctx.pindex.nHeight

def firstPos (b : CBlock) : ℕ := firstTxPos ctx.pindex.nBlockPos b ctx.fJustCheck

def blockFlows (s : Store) (b : CBlock) : List Flow :=
  flows env ctx.disk ctx.pool (placed env ctx (firstPos ctx b) b.vtx) s.tx

def PassesOthers (s : Store) (b : CBlock) : Prop :=
  checkBlock env ctx.best amb b none (!ctx.fJustCheck) (!ctx.fJustCheck) false = .ok () ∧
    ∃ t, connectTxs env ctx s b.vtx (noTotals (firstPos ctx b)) = .ok t ∧
      ∃ s', connectWrites env ctx pprev b (recordTotals pprev t ctx.pindex) t s = .ok s'

def RewardAllowed (s : Store) (b : CBlock) : Prop :=
  ∃ added, passedAsFees env ctx s b = some added ∧
    reward b (blockFlows env ctx s b) ≤ subsidy b (rewardTip ctx).nHeight+added

/-- The shape that `CheckBlock` gives a block. -/
structure Shaped (b : CBlock) : Prop where
  coinBase : ∃ tx rest, b.vtx = tx::rest ∧ tx.isCoinBase ∧ ∀ r ∈ rest, r.isCoinBase = false
  stake : b.isProofOfStake → ∃ tx stake rest, b.vtx = tx::stake::rest ∧ outTotal tx = 0 ∧
    stake.isCoinStake ∧ ∀ r ∈ rest, r.isCoinStake = false

variable {b : CBlock}

theorem check_structure_ok (h : checkStructure b = .ok ()) : Shaped b := by
  rw [checkStructure] at h
  obtain ⟨hcb,h⟩ := (then_ok _ _ _).mp h
  obtain ⟨hone,h⟩ := (then_ok _ _ _).mp h
  rw [require_ok] at hcb hone
  cases hv : b.vtx with
  | nil => simp [hv] at hcb
  | cons tx rest =>
    rw [hv] at hcb hone
    refine ⟨⟨tx,rest,hv,by simpa using hcb,by simpa using hone⟩,?_⟩
    intro hs
    rw [if_pos hs] at h
    obtain ⟨hempty,h⟩ := (then_ok _ _ _).mp h
    obtain ⟨hsecond,h⟩ := (then_ok _ _ _).mp h
    rw [require_ok] at hempty hsecond h
    cases hr : rest with
    | nil => simp [CBlock.isProofOfStake, hv, hr] at hs
    | cons stake rest' =>
      refine ⟨tx,stake,rest',hv.trans (by rw [hr]),?_,?_,?_⟩
      · simp only [hv, List.take_succ_cons, List.take_zero, List.all_cons, List.all_nil,
          Bool.and_true, Bool.and_eq_true, beq_iff_eq, List.all_eq_true] at hempty
        obtain ⟨hlen,hall⟩ := hempty
        obtain ⟨o,ho⟩ := List.length_eq_one_iff.mp hlen
        have he := hall o (by simp [ho])
        simp only [CTxOut.isEmpty, Bool.and_eq_true, beq_iff_eq] at he
        simp [outTotal, ho, he.1]
      · simpa [hv, hr] using hsecond
      · simpa [hv, hr] using h

theorem check_block_shaped {best : Best} {pfrom : Option ℤ} {fPOW fMerkle fSig : Bool}
    (h : checkBlock env best amb b pfrom fPOW fMerkle fSig = .ok ()) : Shaped b := by
  simp only [checkBlock, then_ok] at h
  exact check_structure_ok h.2.2.2.2.1

variable (s : Store)

theorem block_flows_tx (b : CBlock) : (blockFlows env ctx s b).map Flow.tx = b.vtx := by
  rw [blockFlows, flows_tx, placed_snd]

theorem block_flows_cons (hb : Shaped b) :
    ∃ f fs, blockFlows env ctx s b = f::fs ∧ f.valueIn = 0 ∧ f.tx.isCoinBase ∧
      f.valueOut = outTotal f.tx ∧ b.vtx.head? = some f.tx ∧
      ∀ g ∈ fs, g.tx.isCoinBase = false := by
  obtain ⟨tx,rest,hv,hc,hrest⟩ := hb.coinBase
  have htx := block_flows_tx env ctx s b
  cases hf : blockFlows env ctx s b with
  | nil => simp [hf, hv] at htx
  | cons f fs =>
    rw [hf, List.map_cons, hv, List.cons.injEq] at htx
    have hmem : f ∈ blockFlows env ctx s b := by rw [hf]; exact List.mem_cons_self
    have hcb : f.tx.isCoinBase := by rw [htx.1]; exact hc
    refine ⟨f,fs,rfl,flows_coin_base env _ hmem hcb,hcb,
      flows_value_out env _ hmem,by rw [hv, htx.1]; rfl,?_⟩
    intro g hg
    exact hrest _ (htx.2 ▸ List.mem_map_of_mem hg)

section
variable {s : Store} {t : Totals}
  (h : connectTxs env ctx s b.vtx (noTotals (firstPos ctx b)) = .ok t)
include h

theorem block_summed :
    Summed (noTotals (firstPos ctx b)) t (blockFlows env ctx s b) := by
  have hsum := connect_txs_summed env ctx s _ t h
  simp only [noTotals, queued_empty] at hsum
  exact hsum

end

theorem check_block_value_out {best : Best} {pfrom : Option ℤ} {fPOW fMerkle fSig : Bool}
    (h : checkBlock env best amb b pfrom fPOW fMerkle fSig = .ok ()) (tx : CTransaction)
    (htx : tx ∈ b.vtx) : tx.getValueOut = .ok (outTotal tx) := by
  simp only [checkBlock, then_ok] at h
  have hall := (for_each_ok _ _).mp h.2.2.2.2.2.2.2.2.1 tx htx
  obtain ⟨hc,_⟩ := (then_ok _ _ _).mp hall
  have hc' : checkTransaction env tx = .ok () := by
    cases hx : checkTransaction env tx with
    | ok u => rfl
    | error f => cases f <;> simp [withBlockMessage, hx] at hc
  obtain ⟨w,hout⟩ := get_value_out_of_checked env hc'
  rw [hout, value_out_ok hout]

theorem check_reward_ok {s : Store} {t : Totals}
    (hcheck : checkBlock env ctx.best amb b none (!ctx.fJustCheck) (!ctx.fJustCheck) false = .ok ())
    (h : connectTxs env ctx s b.vtx (noTotals (firstPos ctx b)) = .ok t) :
    checkReward env ctx s b t = .ok () ↔ RewardAllowed env ctx s b := by
  have hb := check_block_shaped env amb hcheck
  have hsum := block_summed env ctx h
  obtain ⟨f,fs,hf,_,hcb,hout,hhead,_⟩ := block_flows_cons env ctx s hb
  have htx := block_flows_tx env ctx s b
  rw [checkReward, RewardAllowed, reward, subsidy, passedAsFees]
  by_cases hs : b.isProofOfStake
  · simp only [if_pos hs]
    obtain ⟨tx,stake,rest,hv,h0,hst,hrest⟩ := hb.stake hs
    rw [hf, List.map_cons, hv, List.cons.injEq] at htx
    cases fs with
    | nil => simp at htx
    | cons g gs =>
      rw [List.map_cons, List.cons.injEq] at htx
      have hgs : ∀ r ∈ gs, r.tx.isCoinStake = false :=
        fun r hr => hrest _ (htx.2.2 ▸ List.mem_map_of_mem hr)
      have hr : t.nStakeReward = g.valueOut-g.valueIn := by
        have hl := hsum.nStakeReward
        rw [hf] at hl
        simp only [lastStake, coin_base_not_stake hcb, htx.2.1, hst, if_true] at hl
        rw [hl, last_stake_none _ hgs]
      simp only [checkStakeReward, hv, hf, List.getD_cons_succ, List.getD_cons_zero,
        List.drop_succ_cons, List.drop_zero, List.take_succ_cons, List.take_zero, valueOut, valueIn,
        List.map_cons, List.map_nil, List.sum_cons, List.sum_nil, Int.add_zero, getProofOfStakeReward]
      cases hage : getCoinAge env ctx.disk s stake with
      | none => simp
      | some age => simp [hr]
  · simp only [if_neg hs]
    obtain ⟨tx,rest,hv,_,_⟩ := hb.coinBase
    have hft : f.tx = tx := by
      rw [hv] at hhead
      exact (Option.some_inj.mp hhead).symm
    have hvo := check_block_value_out env amb hcheck tx (by rw [hv]; simp)
    simp only [checkWorkReward, hv, hvo, hf, List.take_succ_cons, List.take_zero, valueOut,
      List.map_cons, List.map_nil, List.sum_cons, List.sum_nil, Int.add_zero, getProofOfWorkReward,
      hout, hft]
    simp only [bind, Except.bind, require_ok, Option.some.injEq, exists_eq_left']
    exact decide_eq_true_iff

theorem connect_checks_ok (b : CBlock) (t : Totals) :
    connectChecks env ctx amb s b = .ok t ↔
      connectTxs env ctx s b.vtx (noTotals (firstPos ctx b)) = .ok t ∧
      checkReward env ctx s b t = .ok () ∧
      checkBlock env ctx.best amb b none (!ctx.fJustCheck) (!ctx.fJustCheck) false = .ok () := by
  simp only [connectChecks, bind_ok, Except.ok.injEq, firstPos]
  constructor
  · rintro ⟨_,hcheck,t1,htxs,_,hr,rfl⟩
    exact ⟨htxs,hr,hcheck⟩
  · rintro ⟨htxs,hr,hcheck⟩
    exact ⟨(),hcheck,t,htxs,(),hr,rfl⟩

theorem connect_block_ok_iff (b : CBlock) :
    (∃ s', connectBlock env ctx amb pprev b s = .ok s') ↔
      PassesOthers env ctx amb pprev s b ∧ RewardAllowed env ctx s b := by
  constructor
  · rintro ⟨s',h⟩
    obtain ⟨t,ht,hw⟩ := (bind_ok _ _ _).mp h
    obtain ⟨htxs,hr,hcheck⟩ := (connect_checks_ok env ctx amb s b t).mp ht
    exact ⟨⟨hcheck,t,htxs,s',hw⟩,(check_reward_ok env ctx amb hcheck htxs).mp hr⟩
  · rintro ⟨⟨hcheck,t,htxs,s',hw⟩,hr⟩
    have hrew := (check_reward_ok env ctx amb hcheck htxs).mpr hr
    refine ⟨s',?_⟩
    rw [connectBlock, bind_ok]
    exact ⟨t,(connect_checks_ok env ctx amb s b t).mpr ⟨htxs,hrew,hcheck⟩,hw⟩

variable {nHeight : ℤ}

end SwippCore.RewardSchedule
