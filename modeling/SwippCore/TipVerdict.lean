import SwippCore.ChainIndex

/-!
# What the best block decides about another block

`ConnectBlock` and what it calls read the globals of the best block in three
places: the masternode payment is tested on a child of the best block only, the
signatures are skipped while the best height is below the last checkpoint, and
the reward is tested against the row of the height table for the best block.
Everything else depends on the block and on the chain below it alone.
-/

set_option autoImplicit false

namespace SwippCore.TipVerdict
open FinMap Checks Undo IndexEffect ConnectEffect BlockValues RewardSchedule
open TwoRuns SameView ChainIndex

variable (env : Env)

def TxVerifies (ctx : ConnectContext) (tx : CTransaction) (e : TxIndex) : Prop :=
  ∀ (n : ℕ) o txPrev, (spent tx)[n]? = some o → prevTx ctx.disk ctx.pool e o.hash = some txPrev →
    env.verifySignature txPrev tx n scriptVerifyNoCache = true

def ScriptsVerify (ctx : ConnectContext) (s : Store) (b : CBlock) : Prop :=
  AllowedAll (connectEffect env) (fun a e => TxVerifies env ctx a.2 e)
    (placed env ctx (firstPos ctx b) b.vtx) s.tx

def Skips (ctx : ConnectContext) : Prop := ctx.best.nBestHeight < env.totalBlocksEstimate

structure TipTests (ctx : ConnectContext) (amb : Ambient) (s : Store) (b : CBlock) : Prop where
  payment : checkMasternodePayment env ctx.best amb b = .ok ()
  scripts : Skips env ctx ∨ ScriptsVerify env ctx s b
  reward : RewardAllowed env ctx s b

def farTip (b : CBlock) : Best where
  pindexBest := some ⟨b.hashPrevBlock+1,none,none,0,0,0,0,0,0,0,0,.null,0,0,0,0,0,0,0⟩
  nBestHeight := env.totalBlocksEstimate-1

def awayFromTip (ctx : ConnectContext) (b : CBlock) : ConnectContext :=
  { ctx with best := farTip env b }

def PassesAway (ctx : ConnectContext) (amb : Ambient) (pprev : Option CBlockIndex) (s : Store)
    (b : CBlock) : Prop := PassesOthers env (awayFromTip env ctx b) amb pprev s b

structure SameAmbient (amb amb' : Ambient) : Prop where
  adjustedTime : amb.adjustedTime = amb'.adjustedTime
  time : amb.time = amb'.time
  mapLockedInputs : amb.mapLockedInputs = amb'.mapLockedInputs
  blockPayee : amb.blockPayee = amb'.blockPayee

theorem check_pow_some (best best' : Best) (h : best.pindexBest.isSome)
    (h' : best'.pindexBest.isSome) (hash : Uint256) (nBits : ℕ) :
    checkProofOfWork env best hash nBits = checkProofOfWork env best' hash nBits := by
  rw [Option.isSome_iff_exists] at h h'
  obtain ⟨i,hi⟩ := h
  obtain ⟨j,hj⟩ := h'
  simp [checkProofOfWork, hi, hj]

theorem payment_away (b : CBlock) (amb : Ambient) :
    checkMasternodePayment env (farTip env b) amb b = .ok () := by
  simp [checkMasternodePayment, farTip]

theorem check_block_split {best : Best} {amb amb' : Ambient} (b : CBlock) (fPOW fMerkle fSig : Bool)
    (hbest : best.pindexBest.isSome) (ha : SameAmbient amb amb') :
    checkBlock env best amb b none fPOW fMerkle fSig = .ok () ↔
      checkBlock env (farTip env b) amb' b none fPOW fMerkle fSig = .ok () ∧
        checkMasternodePayment env best amb b = .ok () := by
  have hpow := check_pow_some env best (farTip env b) hbest rfl
  have hfar := payment_away env b amb'
  have hpeer : ∀ x, checkPeer x none = .ok () := by
    intro x
    simp [checkPeer]
  simp only [checkBlock, then_ok, hpow, hfar, hpeer, ha.adjustedTime, ha.mapLockedInputs,
    true_and]
  constructor
  · rintro ⟨h1,h2,h3,h4,h5,h6,h7,h8⟩
    exact ⟨⟨h1,h2,h3,h4,h5,h6,h8⟩,h7⟩
  · rintro ⟨⟨h1,h2,h3,h4,h5,h6,h8⟩,h7⟩
    exact ⟨h1,h2,h3,h4,h5,h6,h7,h8⟩

section Scripts
variable (ctx : ConnectContext)

theorem check_signature_ok (txPrev tx : CTransaction) (i flags : ℕ) :
    checkSignature env txPrev tx i flags = .ok () ↔ env.verifySignature txPrev tx i flags = true := by
  unfold checkSignature
  split_ifs with h h' <;> simp [h]

theorem spend_prevs_scripts (tx : CTransaction) (pos : CDiskTxPos) (flags : ℕ) (n : ℕ)
    (os : List COutPoint) (inputs : MapPrevTx) (q q' : TxIndexMap)
    (T : Uint256 → Option CTransaction)
    (hin : ∀ k p, inputs.lookup k = some p → T k = some p.2) :
    spendPrevs env tx pos true flags false n os inputs q = .ok q' ↔
      spendPrevs env tx pos true flags true n os inputs q = .ok q' ∧
        ∀ (m : ℕ) o txPrev, os[m]? = some o → T o.hash = some txPrev →
          env.verifySignature txPrev tx (n+m) flags = true := by
  induction os generalizing n inputs q with
  | nil => simp [spendPrevs]
  | cons o os ih =>
    rw [spendPrevs, spendPrevs]
    cases hl : inputs.lookup o.hash with
    | none => simp
    | some p =>
      obtain ⟨i,txPrev⟩ := p
      have hT : T o.hash = some txPrev := hin _ _ hl
      have hin' : ∀ k p, (inputs.insert o.hash
          ({ i with vSpent := i.vSpent.set o.n pos },txPrev)).lookup k = some p →
          T k = some p.2 := by
        intro k p hp
        rw [lookup_insert_if] at hp
        split_ifs at hp with hk
        · rw [hk, hT, ← Option.some_inj.mp hp]
        · exact hin k p hp
      have hstep := fun q => ih (n+1) _ q hin'
      simp only [then_ok, require_ok, checkScript, Bool.false_eq_true, if_false, if_true,
        check_signature_ok, hstep, true_and]
      constructor
      · rintro ⟨hfree,hv,hrest,hall⟩
        refine ⟨⟨hfree,hrest⟩,?_⟩
        intro m o' txPrev' hm ho'
        cases m with
        | zero =>
          obtain rfl := Option.some_inj.mp hm
          rw [hT] at ho'
          obtain rfl := Option.some_inj.mp ho'
          exact hv
        | succ m =>
          have hx := hall m o' txPrev' hm ho'
          rwa [show n+1+m = n+(m+1) by omega] at hx
      · rintro ⟨⟨hfree,hrest⟩,hall⟩
        refine ⟨hfree,hall 0 o txPrev rfl hT,hrest,?_⟩
        intro m o' txPrev' hm ho'
        have hx := hall (m+1) o' txPrev' hm ho'
        rwa [show n+(m+1) = n+1+m by omega] at hx

variable (b : CBlock)

theorem connect_inputs_scripts (tx : CTransaction) (pos : CDiskTxPos) {inputs : MapPrevTx}
    (q q' : TxIndexMap) {e : TxIndex} (hin : BlockValues.Fetched ctx.disk ctx.pool inputs e) :
    connectInputs env ctx.best inputs q pos ctx.ancestors true scriptVerifyNoCache tx = .ok q' ↔
      connectInputs env (farTip env b) inputs q pos ctx.ancestors true
        scriptVerifyNoCache tx = .ok q' ∧ (Skips env ctx ∨ TxVerifies env ctx tx e) := by
  have hfar : (farTip env b).nBestHeight < env.totalBlocksEstimate := by
    rw [farTip]
    exact Int.sub_one_lt_of_le (Int.le_refl _)
  unfold connectInputs TxVerifies spent Skips
  by_cases hc : tx.isCoinBase
  · simp [hc]
  · by_cases hskip : ctx.best.nBestHeight < env.totalBlocksEstimate
    · simp [hc, hskip, hfar]
    · simp only [hc, Bool.false_eq_true, if_false, bind_ok, hskip, hfar, decide_true, decide_false,
        Bool.and_true, Bool.and_false, false_or]
      have hs := fun q1 => spend_prevs_scripts env tx pos scriptVerifyNoCache 0 tx.prevouts
        inputs q q1 (prevTx ctx.disk ctx.pool e) hin
      simp only [hs, Nat.zero_add]
      constructor
      · rintro ⟨v,hv,q1,⟨h1,hall⟩,h2⟩
        exact ⟨⟨v,hv,q1,h1,h2⟩,hall⟩
      · rintro ⟨⟨v,hv,q1,h1,h2⟩,hall⟩
        exact ⟨v,hv,q1,⟨h1,hall⟩,h2⟩

section
variable (s : Store) (pos : CDiskTxPos) (tx : CTransaction) (t t' : Totals)

theorem connect_spend_scripts :
    connectSpend env ctx s pos tx t = .ok t' ↔
      connectSpend env (awayFromTip env ctx b) s pos tx t = .ok t' ∧
        (Skips env ctx ∨ TxVerifies env ctx tx (queued t.mapQueuedChanges s.tx)) := by
  rw [connect_spend_ok, connect_spend_ok]
  constructor
  · rintro ⟨inputs,nIn,nOut,q,hf,hsig,hi,ho,hq,rfl⟩
    have hin := fetch_inputs_fetched _ _ _ _ _ _ hf
    have hx := (connect_inputs_scripts env ctx b tx pos _ q hin).mp hq
    exact ⟨⟨inputs,nIn,nOut,q,hf,hsig,hi,ho,hx.1,rfl⟩,hx.2⟩
  · rintro ⟨⟨inputs,nIn,nOut,q,hf,hsig,hi,ho,hq,rfl⟩,hv⟩
    have hin := fetch_inputs_fetched _ _ _ _ _ _ hf
    have hx := (connect_inputs_scripts env ctx b tx pos _ q hin).mpr ⟨hq,hv⟩
    exact ⟨inputs,nIn,nOut,q,hf,hsig,hi,ho,hx,rfl⟩

theorem connect_spend_or_mint_scripts :
    connectSpendOrMint env ctx s pos tx t = .ok t' ↔
      connectSpendOrMint env (awayFromTip env ctx b) s pos tx t = .ok t' ∧
        (Skips env ctx ∨ TxVerifies env ctx tx (queued t.mapQueuedChanges s.tx)) := by
  unfold connectSpendOrMint
  by_cases hc : tx.isCoinBase
  · simp [hc, TxVerifies, spent]
  · simp only [hc, Bool.false_eq_true, if_false]
    exact connect_spend_scripts env ctx b s pos tx t t'

end

theorem connect_tx_scripts (s : Store) (tx : CTransaction) (t t' : Totals) :
    connectTx env ctx s tx t = .ok t' ↔ connectTx env (awayFromTip env ctx b) s tx t = .ok t' ∧
      (Skips env ctx ∨ TxVerifies env ctx tx (queued t.mapQueuedChanges s.tx)) := by
  have hmint := connect_spend_or_mint_scripts env ctx b s
  rw [connect_tx_ok, connect_tx_ok]
  constructor
  · rintro ⟨ho,hsig,t1,h1,rfl⟩
    have hx := (hmint _ _ _ _).mp h1
    exact ⟨⟨ho,hsig,t1,hx.1,rfl⟩,hx.2⟩
  · rintro ⟨⟨ho,hsig,t1,h1,rfl⟩,hv⟩
    exact ⟨ho,hsig,t1,(hmint _ _ _ _).mpr ⟨h1,hv⟩,rfl⟩

/-- Looking at the signatures of the transactions only adds the test of the signatures. -/
theorem connect_txs_scripts (s : Store) (txs : List CTransaction) (t t' : Totals) :
    connectTxs env ctx s txs t = .ok t' ↔ connectTxs env (awayFromTip env ctx b) s txs t = .ok t' ∧
      (Skips env ctx ∨ AllowedAll (connectEffect env) (fun a e => TxVerifies env ctx a.2 e)
        (placed env ctx t.nTxPos txs) (queued t.mapQueuedChanges s.tx)) := by
  induction txs generalizing t with
  | nil => simp [connectTxs, placed, AllowedAll]
  | cons tx txs ih =>
    rw [connectTxs, connectTxs, bind_ok, bind_ok]
    constructor
    · rintro ⟨t1,h1,h⟩
      obtain ⟨hq,_,hn⟩ := connect_tx_effect env ctx s h1
      obtain ⟨h1,hv⟩ := (connect_tx_scripts env ctx b s tx t t1).mp h1
      obtain ⟨h,hrest⟩ := (ih t1).mp h
      rw [hq, hn] at hrest
      refine ⟨⟨t1,h1,h⟩,?_⟩
      rcases hv with hskip | hv
      · exact Or.inl hskip
      · exact hrest.imp id (fun hr => ⟨hv,hr⟩)
    · rintro ⟨⟨t1,h1,h⟩,hall⟩
      have hv := hall.imp id And.left
      have h1' := (connect_tx_scripts env ctx b s tx t t1).mpr ⟨h1,hv⟩
      obtain ⟨hq,_,hn⟩ := connect_tx_effect env ctx s h1'
      have hrest := hall.imp id And.right
      change Skips env ctx ∨ AllowedAll _ _ (placed env ctx (nextTxPos env ctx t.nTxPos tx) txs)
        (connectEffect env (posOf ctx t.nTxPos,tx) (queued t.mapQueuedChanges s.tx)) at hrest
      rw [← hq, ← hn] at hrest
      exact ⟨t1,h1',(ih t1).mpr ⟨h,hrest⟩⟩

end Scripts

section Verdict
variable (ctx ctx' : ConnectContext) (amb amb' : Ambient) (pprev pprev' : Option CBlockIndex)
  (s s' : Store) (b : CBlock)

theorem write_addr_indexes_away (txs : List CTransaction) :
    writeAddrIndexes env (awayFromTip env ctx b) txs s = writeAddrIndexes env ctx txs s := by
  induction txs generalizing s with
  | nil => rfl
  | cons tx txs ih =>
    rw [writeAddrIndexes, writeAddrIndexes]
    exact congrArg (writeAddrIndexOf env ctx tx s >>= ·) (funext ih)

theorem connect_writes_away (i : CBlockIndex) (t : Totals) :
    connectWrites env (awayFromTip env ctx b) pprev b i t s = connectWrites env ctx pprev b i t s := by
  rw [connectWrites, connectWrites, write_addr_indexes_away]
  rfl

theorem reflects_away {P : List Indexed} (h : Reflects env ctx s b P) :
    Reflects env (awayFromTip env ctx b) s b P :=
  ⟨h.index,h.ancestors,h.heights,h.filed,h.apart⟩

/-- The verdict on a block is that of the tests that read the best block and of
those that do not. -/
theorem passes_split (hbest : ctx.best.pindexBest.isSome) (ha : SameAmbient amb amb') :
    PassesOthers env ctx amb pprev s b ∧ RewardAllowed env ctx s b ↔
      PassesAway env ctx amb' pprev s b ∧ TipTests env ctx amb s b := by
  have hcheck := check_block_split env b (!ctx.fJustCheck) (!ctx.fJustCheck)
    false hbest ha
  have htxs := fun t => connect_txs_scripts env ctx b s b.vtx (noTotals (firstPos ctx b)) t
  have hqueue : queued (noTotals (firstPos ctx b)).mapQueuedChanges s.tx = s.tx :=
    queued_empty s.tx
  simp only [hqueue] at htxs
  unfold PassesAway PassesOthers
  simp only [connect_writes_away]
  constructor
  · rintro ⟨⟨hc,t,ht,hw⟩,hr⟩
    obtain ⟨hc,hpay⟩ := hcheck.mp hc
    obtain ⟨ht,hs⟩ := (htxs t).mp ht
    exact ⟨⟨hc,t,ht,hw⟩,⟨hpay,hs,hr⟩⟩
  · rintro ⟨⟨hc,t,ht,hw⟩,⟨hpay,hs,hr⟩⟩
    exact ⟨⟨hcheck.mpr ⟨hc,hpay⟩,t,(htxs t).mpr ⟨ht,hs⟩,hw⟩,hr⟩

theorem connect_writes_agree (hreal : ctx.fJustCheck = false) (hreal' : ctx'.fJustCheck = false)
    {t t' : Totals} (ht : SameTotals env ctx ctx' s.tx s'.tx t t') (i i' : CBlockIndex) :
    (∃ r, connectWrites env ctx pprev b i t s = .ok r) ↔
      ∃ r, connectWrites env ctx' pprev' b i' t' s' = .ok r := by
  apply agree_succeed (R := fun _ _ => True)
  rw [connectWrites, connectWrites]
  simp only [hreal, hreal', Bool.false_eq_true, if_false]
  refine agree_bind (write_addr_indexes_agree env ctx ctx' b.vtx _ _ ?_) ?_
  · rw [write_queue, write_queue]
    exact ht.queue
  · intro _ _ _
    trivial

/-- Two nodes that reflect one chain agree on the tests that read no best block. -/
theorem passes_away_same (hreal : ctx.fJustCheck = false) (hreal' : ctx'.fJustCheck = false)
    {P P' : List Indexed} (h : Reflects env ctx s b P) (h' : Reflects env ctx' s' b P')
    (hP : P.map Prod.snd = P'.map Prod.snd) :
    PassesAway env ctx amb pprev s b ↔ PassesAway env ctx' amb pprev' s' b := by
  have haway := reflects_away env ctx s b h
  have haway' := reflects_away env ctx' s' b h'
  have hsame := reflects_same_index env haway haway' hP
  have hplace := reflects_place env _ _ s s' b P P' haway haway' 0 _ _ rfl rfl rfl
  rw [← placed_in_eq env (awayFromTip env ctx b) hreal,
    ← placed_in_eq env (awayFromTip env ctx' b) hreal'] at hplace
  have htxs : Agree (SameTotals env (awayFromTip env ctx b) (awayFromTip env ctx' b) s.tx s'.tx)
      (connectTxs env (awayFromTip env ctx b) s b.vtx (noTotals (firstPos ctx b)))
      (connectTxs env (awayFromTip env ctx' b) s' b.vtx (noTotals (firstPos ctx' b))) := by
    apply connect_txs_agree env (awayFromTip env ctx b) (awayFromTip env ctx' b) s s'
    · exact hsame
    · exact Iff.rfl
    · exact hplace
    · refine ⟨?_,rfl⟩
      simp only [noTotals, queued_empty]
      exact hsame
  unfold PassesAway PassesOthers
  have hb : (awayFromTip env ctx b).best = (awayFromTip env ctx' b).best := rfl
  have hj : (awayFromTip env ctx b).fJustCheck = (awayFromTip env ctx' b).fJustCheck :=
    hreal.trans hreal'.symm
  rw [hb, hj]
  apply and_congr Iff.rfl
  apply agree_exists htxs
  intro t t' ht
  exact connect_writes_agree env (awayFromTip env ctx b) (awayFromTip env ctx' b) pprev pprev' s s' b
    hreal hreal' ht _ _

/-- Two nodes that reflect one chain give a block the same verdict exactly where the
block fails a test that reads no best block, or the tests that do read it come out
alike. -/
theorem verdicts_agree_iff (hreal : ctx.fJustCheck = false) (hreal' : ctx'.fJustCheck = false)
    (hbest : ctx.best.pindexBest.isSome) (hbest' : ctx'.best.pindexBest.isSome)
    (ha : SameAmbient amb amb') (P P' : List Indexed) (h : Reflects env ctx s b P)
    (h' : Reflects env ctx' s' b P') (hP : P.map Prod.snd = P'.map Prod.snd) :
    ((∃ r, connectBlock env ctx amb pprev b s = .ok r) ↔
        ∃ r, connectBlock env ctx' amb' pprev' b s' = .ok r) ↔
      (PassesAway env ctx amb pprev s b →
        (TipTests env ctx amb s b ↔ TipTests env ctx' amb' s' b)) := by
  have hrefl : SameAmbient amb amb := ⟨rfl,rfl,rfl,rfl⟩
  have hsymm : SameAmbient amb' amb :=
    ⟨ha.adjustedTime.symm,ha.time.symm,ha.mapLockedInputs.symm,ha.blockPayee.symm⟩
  rw [connect_block_ok_iff, connect_block_ok_iff,
    passes_split env ctx amb amb pprev s b hbest hrefl,
    passes_split env ctx' amb' amb pprev' s' b hbest' hsymm,
    ← passes_away_same env ctx ctx' amb pprev pprev' s s' b hreal hreal' h h' hP]
  by_cases hp : PassesAway env ctx amb pprev s b <;> simp [hp]

end Verdict

section Sample

def firstIndex : CBlockIndex :=
  ⟨1,none,none,1,8,0,0,0,0,0,0,.null,0,0,1,0,1,0x1e7fffff,1⟩

def childIndex : CBlockIndex :=
  ⟨2,some 1,none,1,500,0,1,0,0,0,0,.null,0,0,1,0,2,0x1e7fffff,2⟩

def otherChildIndex : CBlockIndex :=
  ⟨3,some 1,none,1,900,0,1,0,0,0,0,.null,0,0,1,0,2,0x1e7fffff,3⟩

def firstBlock : CBlock :=
  ⟨1,0,11,1,0x1e7fffff,1,[⟨1,11,[⟨.null,[0,0],0⟩],[⟨0,[]⟩],0⟩],[]⟩

def hundredBlock : CBlock :=
  ⟨1,1,12,20,0x1e7fffff,2,[⟨1,12,[⟨.null,[1,1],0⟩],[⟨100*coin,[1]⟩],0⟩],[]⟩

def pairDisk : Disk where
  readTx p :=
    if p = .onDisk 1 8 89 then firstBlock.vtx.head?
    else if p = .onDisk 1 500 581 then hundredBlock.vtx.head? else none
  readBlock _ _ := none
  readBlockTime _ _ := none

def contextWithTip (tip : CBlockIndex) : ConnectContext where
  best := ⟨some tip,tip.nHeight⟩
  disk := pairDisk
  pool _ := none
  pindex := childIndex
  ancestors := [childIndex,firstIndex]
  fJustCheck := false

def quietAmbient : Ambient := ⟨0,0,∅,fun _ => none,none,0⟩

theorem pair_reflects (tip : CBlockIndex) :
    Reflects sampleEnv (contextWithTip tip) Store.empty hundredBlock [(firstIndex,firstBlock)] where
  index := rfl
  ancestors := rfl
  heights n p hp := by
    match n with
    | 0 => obtain rfl := Option.some_inj.mp hp; rfl
    | 1 => obtain rfl := Option.some_inj.mp hp; rfl
    | n+2 => cases hp
  filed p hp := by
    rcases List.mem_cons.mp hp with rfl | hp
    · exact ⟨by simp [contextWithTip, childIndex, uintMax],by simp [placedIn, placedFrom, hundredBlock, firstTxPos, compactSize,
        CDiskTxPos.ofFile, uintMax, contextWithTip, childIndex, pairDisk]⟩
    · rw [List.mem_singleton] at hp
      subst hp
      exact ⟨by decide,by simp [placedIn, placedFrom, firstBlock, firstTxPos, compactSize,
        CDiskTxPos.ofFile, uintMax, contextWithTip, firstIndex, pairDisk]⟩
  apart := by simp [contextWithTip, childIndex, firstIndex]

end Sample

/-- The block is refused as a child of the best block, and accepted while its sibling
is the best block, on the same index. -/
theorem sibling_tip_changes_verdict :
    (∃ r, connectBlock sampleEnv (contextWithTip otherChildIndex) quietAmbient (some firstIndex)
        hundredBlock Store.empty = .ok r) ∧
      (¬∃ r, connectBlock sampleEnv (contextWithTip firstIndex) quietAmbient (some firstIndex)
        hundredBlock Store.empty = .ok r) ∧
      Reflects sampleEnv (contextWithTip otherChildIndex) Store.empty hundredBlock
        [(firstIndex,firstBlock)] ∧
      Reflects sampleEnv (contextWithTip firstIndex) Store.empty hundredBlock
        [(firstIndex,firstBlock)] := by
  refine ⟨?_,?_,pair_reflects _,pair_reflects _⟩
  · exact of_is_ok _ (by decide +kernel)
  · have hno : (connectBlock sampleEnv (contextWithTip firstIndex) quietAmbient
        (some firstIndex) hundredBlock Store.empty).isOk = false := by decide +kernel
    rintro ⟨r,h⟩
    simp [h, Except.isOk, Except.toBool] at hno

theorem sibling_tip_tests_differ :
    ((∃ r, connectBlock sampleEnv (contextWithTip otherChildIndex) quietAmbient (some firstIndex)
          hundredBlock Store.empty = .ok r) ↔
        ∃ r, connectBlock sampleEnv (contextWithTip firstIndex) quietAmbient (some firstIndex)
          hundredBlock Store.empty = .ok r) ↔
      (PassesAway sampleEnv (contextWithTip otherChildIndex) quietAmbient (some firstIndex)
          Store.empty hundredBlock →
        (TipTests sampleEnv (contextWithTip otherChildIndex) quietAmbient Store.empty hundredBlock ↔
          TipTests sampleEnv (contextWithTip firstIndex) quietAmbient Store.empty hundredBlock)) :=
  verdicts_agree_iff sampleEnv (contextWithTip otherChildIndex) (contextWithTip firstIndex)
    quietAmbient quietAmbient (some firstIndex) (some firstIndex) Store.empty Store.empty hundredBlock
    rfl rfl rfl rfl ⟨rfl,rfl,rfl,rfl⟩ [(firstIndex,firstBlock)] [(firstIndex,firstBlock)]
    (pair_reflects _) (pair_reflects _) rfl

end SwippCore.TipVerdict
