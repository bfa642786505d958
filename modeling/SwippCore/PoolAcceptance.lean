import SwippCore.AcceptToMemoryPool
import SwippCore.ConnectEffect

/-!
# What the pool accepts

Accepted transactions have inputs that are there, and a question to the pool says the same
without an entry. Signatures of the mixing pool rest on both.
-/

set_option autoImplicit false

namespace SwippCore.PoolAcceptance
open FinMap Checks IndexEffect

section NoThrow
variable {α β : Type}

def NoThrow (x : Except Failure α) : Prop := ∀ msg, x ≠ .error (.throw msg)

theorem no_throw_ok (a : α) : NoThrow (.ok a : Except Failure α) := by
  intro msg h
  cases h

theorem no_throw_error (n : ℕ) (text : String) :
    NoThrow (.error (.error n text) : Except Failure α) := by
  intro msg h
  cases h

theorem no_throw_crash : NoThrow (.error .crash : Except Failure α) := by
  intro msg h
  cases h

theorem no_throw_bind {x : Except Failure α} (f : α → Except Failure β) (hx : NoThrow x)
    (hf : ∀ a, x = .ok a → NoThrow (f a)) : NoThrow (x >>= f) := by
  intro msg h
  rcases (bind_error _ _ _).mp h with h | ⟨a,ha,h⟩
  · exact hx msg h
  · exact hf a ha msg h

theorem no_throw_require (c : Bool) (n : ℕ) (text : String) :
    NoThrow (require c (.error n text : Failure)) := by
  intro msg h
  rw [require_error] at h
  exact absurd h.2 (by simp)

theorem no_throw_for_each (f : α → Except Failure Unit) {xs : List α}
    (hf : ∀ x ∈ xs, NoThrow (f x)) : NoThrow (forEach f xs) := by
  intro msg h
  obtain ⟨x,hx,h⟩ := for_each_error h
  exact hf x hx msg h

end NoThrow

variable (env : Env)

variable (tx : CTransaction)

theorem check_outputs_no_throw (v : ℤ) (os : List CTxOut) : NoThrow (checkOutputs tx v os) := by
  induction os generalizing v with
  | nil => exact no_throw_ok ()
  | cons o os ih =>
    rw [checkOutputs]
    apply no_throw_bind _ (no_throw_require _ _ _)
    intro _ _
    apply no_throw_bind _ (no_throw_require _ _ _)
    intro _ _
    apply no_throw_bind _ (no_throw_require _ _ _)
    intro _ _
    apply no_throw_bind _ (no_throw_require _ _ _)
    intro _ _
    exact ih _

theorem check_transaction_no_throw : NoThrow (checkTransaction env tx) := by
  unfold checkTransaction
  apply no_throw_bind _ (no_throw_require _ _ _)
  intro _ _
  apply no_throw_bind _ (no_throw_require _ _ _)
  intro _ _
  apply no_throw_bind _ (no_throw_require _ _ _)
  intro _ _
  apply no_throw_bind _ (check_outputs_no_throw tx 0 tx.vout)
  intro _ _
  apply no_throw_bind _ (no_throw_require _ _ _)
  intro _ _
  split_ifs
  · exact no_throw_for_each _ (fun _ _ => no_throw_require _ _ _)
  · exact no_throw_for_each _ (fun _ _ => no_throw_require _ _ _)

section Fetch
variable (disk : Disk) (pool : Uint256 → Option CTransaction) (e : TxIndex)

theorem read_prev_no_throw (hash : Uint256) (i : CTxIndex) :
    NoThrow (readPrev disk pool hash i) := by
  unfold readPrev
  split_ifs
  · cases pool hash with
    | none => exact no_throw_error _ _
    | some tx => exact no_throw_ok _
  · cases disk.readTx i.pos with
    | none => exact no_throw_error _ _
    | some tx => exact no_throw_ok _

variable (q : TxIndexMap)

theorem fetch_prev_no_throw (fBlock : Bool) (hash : Uint256) :
    NoThrow (fetchPrev disk pool e q fBlock hash) := by
  unfold fetchPrev
  split
  · exact read_prev_no_throw disk pool hash _
  · split_ifs
    · exact no_throw_error _ _
    · cases pool hash with
      | none => exact no_throw_error _ _
      | some tx => exact no_throw_ok _

theorem fetch_prevs_no_throw (fBlock : Bool) (os : List COutPoint) (inputs : MapPrevTx) :
    NoThrow (fetchPrevs disk pool e q fBlock os inputs) := by
  induction os generalizing inputs with
  | nil => exact no_throw_ok inputs
  | cons o os ih =>
    rw [fetchPrevs]
    split_ifs
    · exact ih inputs
    · exact no_throw_bind _ (fetch_prev_no_throw disk pool e q fBlock o.hash) (fun p _ => ih _)

theorem fetch_inputs_no_throw (fBlock : Bool) (tx : CTransaction) :
    NoThrow (fetchInputs disk pool e q fBlock tx) := by
  unfold fetchInputs
  split_ifs
  · exact no_throw_ok _
  · apply no_throw_bind _ (fetch_prevs_no_throw disk pool e q fBlock tx.prevouts ∅)
    intro inputs _
    apply no_throw_bind _ (no_throw_for_each _ (fun _ _ => no_throw_require _ _ _))
    exact fun _ _ => no_throw_ok inputs

theorem fetch_inputs_outputs {q : TxIndexMap} {fBlock : Bool} {tx : CTransaction}
    {inputs : MapPrevTx} (hc : tx.isCoinBase = false)
    (h : fetchInputs disk pool e q fBlock tx = .ok inputs) (o : COutPoint) (ho : o ∈ tx.prevouts) :
    ∃ out, getOutputFor inputs o = some out := by
  simp only [fetchInputs, hc, Bool.false_eq_true, if_false] at h
  obtain ⟨i,_,h⟩ := (bind_ok _ _ _).mp h
  obtain ⟨hall,h⟩ := (then_ok _ _ _).mp h
  rw [Except.ok.injEq] at h
  subst h
  have hex := (for_each_ok _ _).mp hall o ho
  rw [require_ok, outputExists] at hex
  cases hl : i.lookup o.hash with
  | none => simp [hl] at hex
  | some p =>
    simp only [hl, Bool.and_eq_true, decide_eq_true_eq] at hex
    exact ⟨p.2.vout[o.n],by simp [getOutputFor, hl, hex.1]⟩

theorem value_in_no_throw {inputs : MapPrevTx} {os : List COutPoint}
    (h : ∀ o ∈ os, ∃ out, getOutputFor inputs o = some out) : NoThrow (valueInOf inputs os) := by
  induction os with
  | nil => exact no_throw_ok 0
  | cons o os ih =>
    obtain ⟨out,ho⟩ := h o List.mem_cons_self
    have hrest := ih (fun p hp => h p (List.mem_cons_of_mem o hp))
    intro msg hm
    rw [valueInOf, ho] at hm
    cases hv : valueInOf inputs os with
    | error f =>
      simp only [hv, Except.map, Except.error.injEq] at hm
      exact hrest msg (by rw [hv, hm])
    | ok v => simp [hv, Except.map] at hm

end Fetch

theorem check_prevs_no_throw (inputs : MapPrevTx) (tx : CTransaction) (anc : List CBlockIndex)
    (v : ℤ) (os : List COutPoint) : NoThrow (checkPrevs env inputs tx anc v os) := by
  induction os generalizing v with
  | nil => exact no_throw_ok v
  | cons o os ih =>
    rw [checkPrevs]
    cases inputs.lookup o.hash with
    | none => exact no_throw_crash
    | some p =>
      dsimp only
      cases p.2.vout[o.n]? with
      | none => exact no_throw_error _ _
      | some out =>
        apply no_throw_bind _ (no_throw_require _ _ _)
        intro _ _
        apply no_throw_bind _ (no_throw_require _ _ _)
        intro _ _
        apply no_throw_bind _ (no_throw_require _ _ _)
        intro _ _
        apply no_throw_bind _ (no_throw_require _ _ _)
        exact fun _ _ => ih _

theorem check_script_no_throw (skip : Bool) (txPrev tx : CTransaction) (i flags : ℕ) :
    NoThrow (checkScript env skip txPrev tx i flags) := by
  unfold checkScript checkSignature
  split_ifs
  · exact no_throw_ok ()
  · exact no_throw_ok ()
  · exact no_throw_error _ _
  · exact no_throw_error _ _

theorem spend_prevs_no_throw (pos : CDiskTxPos) (fBlock : Bool) (flags : ℕ) (skip : Bool) (n : ℕ)
    (os : List COutPoint) (inputs : MapPrevTx) (q : TxIndexMap) :
    NoThrow (spendPrevs env tx pos fBlock flags skip n os inputs q) := by
  induction os generalizing n inputs q with
  | nil => exact no_throw_ok q
  | cons o os ih =>
    rw [spendPrevs]
    cases inputs.lookup o.hash with
    | none => exact no_throw_crash
    | some p =>
      apply no_throw_bind _ (no_throw_require _ _ _)
      intro _ _
      apply no_throw_bind _ (check_script_no_throw env skip _ tx n flags)
      exact fun _ _ => ih _ _ _

theorem check_fees_no_throw {tx : CTransaction} (v w : ℤ) (hv : tx.getValueOut = .ok w) :
    NoThrow (checkFees tx v) := by
  unfold checkFees
  split_ifs
  · exact no_throw_ok ()
  · rw [hv]
    apply no_throw_bind _ (no_throw_ok w)
    intro _ _
    apply no_throw_bind _ (no_throw_require _ _ _)
    intro _ _
    apply no_throw_bind _ (no_throw_require _ _ _)
    intro _ _
    apply no_throw_bind _ (no_throw_require _ _ _)
    intro _ _
    exact no_throw_require _ _ _

theorem connect_inputs_no_throw (best : Best) (inputs : MapPrevTx) (q : TxIndexMap)
    (pos : CDiskTxPos) (anc : List CBlockIndex) (fBlock : Bool) (flags : ℕ) {tx : CTransaction}
    {w : ℤ} (hv : tx.getValueOut = .ok w) :
    NoThrow (connectInputs env best inputs q pos anc fBlock flags tx) := by
  unfold connectInputs
  split_ifs
  · exact no_throw_ok q
  · apply no_throw_bind _ (check_prevs_no_throw env inputs tx anc 0 tx.prevouts)
    intro v _
    apply no_throw_bind _ (spend_prevs_no_throw env tx pos fBlock flags _ 0 _ inputs q)
    intro q' _
    apply no_throw_bind _ (check_fees_no_throw v w hv)
    exact fun _ _ => no_throw_ok q'

section Accept
variable (best : Best) (ancestors : List CBlockIndex) (disk : Disk) (s : Store)
  (fLimitFree : Bool) (tx : CTransaction) (pool : CTxMemPool)

theorem accept_no_throw :
    NoThrow (acceptToMemoryPool env best ancestors disk s fLimitFree tx pool) := by
  unfold acceptToMemoryPool
  apply no_throw_bind _ (check_transaction_no_throw env tx)
  intro _ hcheck
  obtain ⟨w,hw⟩ := get_value_out_of_checked env hcheck
  apply no_throw_bind _ (no_throw_require _ _ _)
  intro _ hcb
  have hc : tx.isCoinBase = false := by simpa using hcb
  apply no_throw_bind _ (no_throw_require _ _ _)
  intro _ _
  apply no_throw_bind _ (no_throw_require _ _ _)
  intro _ _
  apply no_throw_bind _ (no_throw_require _ _ _)
  intro _ _
  apply no_throw_bind _ (no_throw_for_each _ (fun _ _ => no_throw_require _ _ _))
  intro _ _
  apply no_throw_bind _ _ (fun _ _ => no_throw_ok _)
  unfold checkPoolInputs
  apply no_throw_bind _ (no_throw_require _ _ _)
  intro _ _
  apply no_throw_bind _ (fetch_inputs_no_throw _ _ _ _ _ _)
  intro inputs hf
  apply no_throw_bind _ (no_throw_require _ _ _)
  intro _ _
  apply no_throw_bind _ (no_throw_require _ _ _)
  intro _ _
  have hin := value_in_no_throw
    (fetch_inputs_outputs _ _ _ hc hf)
  apply no_throw_bind _ (by
    rw [CTransaction.getValueIn, hc]
    exact hin)
  intro nValueIn _
  rw [hw]
  apply no_throw_bind _ (no_throw_ok w)
  intro nValueOut _
  apply no_throw_bind _ (no_throw_require _ _ _)
  intro _ _
  apply no_throw_bind _ (connect_inputs_no_throw env _ _ _ _ _ _ _ hw)
  intro _ _
  apply no_throw_bind _ (connect_inputs_no_throw env _ _ _ _ _ _ _ hw)
  exact fun _ _ => no_throw_ok ()

end Accept

section Unspent
variable (disk : Disk) (lookup : Uint256 → Option CTransaction) (e : TxIndex)

/-- A slot that looks free in the fetched entries is free in the index, where the
index has the entry at all. -/
def Reliable (inputs : MapPrevTx) : Prop :=
  ∀ k p, inputs.lookup k = some p → e k = none ∨ ∃ i, e k = some i ∧
    ∀ n : ℕ, p.1.vSpent[n]? = some .null → i.vSpent[n]? = some .null

theorem reliable_insert {inputs : MapPrevTx} (k : Uint256) (p : CTxIndex × CTransaction)
    (h : Reliable e inputs) (hp : e k = none ∨ ∃ i, e k = some i ∧
      ∀ n : ℕ, p.1.vSpent[n]? = some .null → i.vSpent[n]? = some .null) :
    Reliable e (inputs.insert k p) := by
  intro j q hq
  rw [lookup_insert_if] at hq
  split_ifs at hq with hj
  · rw [hj, ← Option.some_inj.mp hq]
    exact hp
  · exact h j q hq

theorem fetch_prevs_reliable {os : List COutPoint} (inputs inputs' : MapPrevTx)
    (hin : Reliable e inputs) (h : fetchPrevs disk lookup e ∅ false os inputs = .ok inputs') :
    Reliable e inputs' := by
  induction os generalizing inputs with
  | nil =>
    rw [fetchPrevs, Except.ok.injEq] at h
    rwa [← h]
  | cons o os ih =>
    rw [fetchPrevs] at h
    split_ifs at h
    · exact ih inputs hin h
    · obtain ⟨p,hp,h⟩ := (bind_ok _ _ _).mp h
      apply ih (inputs.insert o.hash p) _ h
      apply reliable_insert e o.hash p hin
      cases hi : e o.hash with
      | none => exact Or.inl rfl
      | some i =>
        simp only [fetchPrev, hi, Bool.false_eq_true, if_false, Option.none_or] at hp
        exact Or.inr ⟨i,rfl,fun n hn => by
          rwa [ConnectEffect.read_prev_ok disk lookup hp] at hn⟩

theorem fetch_inputs_reliable {tx : CTransaction} {inputs : MapPrevTx}
    (h : fetchInputs disk lookup e ∅ false tx = .ok inputs) : Reliable e inputs := by
  unfold fetchInputs at h
  split_ifs at h
  · rw [Except.ok.injEq] at h
    rw [← h]
    intro k p hp
    simp at hp
  · obtain ⟨i,hi,h⟩ := (bind_ok _ _ _).mp h
    obtain ⟨_,h⟩ := (then_ok _ _ _).mp h
    rw [Except.ok.injEq] at h
    subst h
    exact fetch_prevs_reliable disk lookup e ∅ i (by intro k p hp; simp at hp) hi

/-- Outside a block the slots are taken in the fetched entries only, by a place that
is not null. -/
theorem spend_prevs_unspent {tx : CTransaction} {pos : CDiskTxPos} (hpos : pos ≠ .null)
    {fBlock : Bool} {flags : ℕ} {skip : Bool} (n : ℕ) {os : List COutPoint} (inputs : MapPrevTx)
    (q q' : TxIndexMap) (hin : Reliable e inputs)
    (h : spendPrevs env tx pos fBlock flags skip n os inputs q = .ok q') :
    ∀ o ∈ os, e o.hash = none ∨ slot e o = some .null := by
  induction os generalizing n inputs q with
  | nil => simp
  | cons o os ih =>
    rw [spendPrevs] at h
    cases hl : inputs.lookup o.hash with
    | none => simp [hl] at h
    | some p =>
      obtain ⟨i,txPrev⟩ := p
      simp only [hl] at h
      obtain ⟨hnull,h⟩ := (then_ok _ _ _).mp h
      obtain ⟨_,h⟩ := (then_ok _ _ _).mp h
      have hp := hin _ _ hl
      intro a ha
      rcases List.mem_cons.mp ha with rfl | ha
      · rcases hp with he | ⟨j,he,hj⟩
        · exact Or.inl he
        · right
          rw [require_ok] at hnull
          cases hv : i.vSpent[a.n]? with
          | none => simp [hv] at hnull
          | some v =>
            have hvn : v = .null := by simpa [hv, CDiskTxPos.isNull] using hnull
            rw [slot, he]
            exact hj a.n (by rw [hv, hvn])
      · apply ih _ _ _ _ h a ha
        apply reliable_insert e o.hash _ hin
        rcases hp with he | ⟨j,he,hj⟩
        · exact Or.inl he
        · refine Or.inr ⟨j,he,?_⟩
          intro m hm
          apply hj m
          rw [List.getElem?_set] at hm
          split_ifs at hm with h1 h2
          · exact absurd (Option.some_inj.mp hm) hpos
          · exact hm

end Unspent

/-- What `AcceptToMemoryPool` has found out about a transaction that it takes. -/
structure Accepted (s : Store) (tx : CTransaction) (pool : CTxMemPool) : Prop where
  checked : checkTransaction env tx = .ok ()
  notCoinBase : tx.isCoinBase = false
  new : pool.mapTx.lookup (env.hashTx tx) = none
  free : ∀ o ∈ tx.prevouts, pool.mapNextTx.lookup o = none
  notIndexed : s.tx (env.hashTx tx) = none
  unspent : ∀ o ∈ tx.prevouts, s.tx o.hash = none ∨ slot s.tx o = some .null

theorem accept_ok {best : Best} {ancestors : List CBlockIndex} {disk : Disk} {s : Store}
    {fLimitFree : Bool} {tx : CTransaction} {pool pool' : CTxMemPool}
    (h : acceptToMemoryPool env best ancestors disk s fLimitFree tx pool = .ok pool') :
    Accepted env s tx pool ∧ pool' = pool.addUnchecked (env.hashTx tx) tx := by
  simp only [acceptToMemoryPool, then_ok, require_ok, Bool.not_eq_true', Except.ok.injEq] at h
  obtain ⟨hcheck,hcb,_,_,hnew,hfree,hin,hpool⟩ := h
  have hfree' := (for_each_ok _ _).mp hfree
  simp only [checkPoolInputs, then_ok, require_ok, Bool.not_eq_true'] at hin
  obtain ⟨hnot,hin⟩ := hin
  obtain ⟨inputs,hf,hin⟩ := (bind_ok _ _ _).mp hin
  obtain ⟨_,hin⟩ := (then_ok _ _ _).mp hin
  obtain ⟨_,hin⟩ := (then_ok _ _ _).mp hin
  obtain ⟨_,_,hin⟩ := (bind_ok _ _ _).mp hin
  obtain ⟨_,_,hin⟩ := (bind_ok _ _ _).mp hin
  obtain ⟨_,hin⟩ := (then_ok _ _ _).mp hin
  obtain ⟨_,hc,_⟩ := (bind_ok _ _ _).mp hin
  have hrel := fetch_inputs_reliable disk pool.lookup s.tx hf
  refine ⟨⟨hcheck,hcb,?_,?_,?_,?_⟩,hpool.symm⟩
  · simpa [CTxMemPool.exists?] using hnew
  · intro o ho
    have := hfree' o ho
    simpa using this
  · simpa [Store.containsTx] using hnot
  · simp only [connectInputs, hcb, Bool.false_eq_true, if_false] at hc
    obtain ⟨_,_,hc⟩ := (bind_ok _ _ _).mp hc
    obtain ⟨_,hsp,_⟩ := (bind_ok _ _ _).mp hc
    exact spend_prevs_unspent env s.tx (by simp [CDiskTxPos.memPool]) 0
      inputs ∅ _ hrel hsp

end SwippCore.PoolAcceptance

namespace SwippCore
open FinMap Checks IndexEffect PoolAcceptance

variable (env : Env)

/-- `ConnectInputs` as for a block, without its signatures. -/
def connectUnsigned (inputs : MapPrevTx) (ancestors : List CBlockIndex) (tx : CTransaction) :
    Except Failure Unit :=
  if tx.isCoinBase then .ok ()
  else do
    let nValueIn ← checkPrevs env inputs tx ancestors 0 tx.prevouts
    let _ ← spendPrevs env tx .memPool true standardScriptVerifyFlags true 0 tx.prevouts inputs ∅
    checkFees tx nValueIn

def checkAcceptableFees (fLimitFree : Bool) (nFees : ℤ) (nSize : ℕ) : Except Failure Unit :=
  require (!((fLimitFree && nFees < getMinFee 1000 .relay nSize) || (!fLimitFree && nFees < minTxFee)))
    (.error 0 "AcceptableInputs : not enough fees %s, %d < %d")

/-- `AcceptableInputs`. The rate limit is never reached, as in `AcceptToMemoryPool`. -/
def acceptableInputs (ancestors : List CBlockIndex) (disk : Disk) (s : Store)
    (fLimitFree : Bool) (tx : CTransaction) (pool : CTxMemPool) : Except Failure Unit := do
  checkTransaction env tx
  require (!tx.isCoinBase) (.error 100 "AcceptableInputs : coinbase as individual tx")
  require (!tx.isCoinStake) (.error 100 "AcceptableInputs : coinstake as individual tx")
  require (!pool.exists? (env.hashTx tx)) (.error 0 "")
  forEach (fun o => require ((pool.mapNextTx.lookup o).isNone) (.error 0 "")) tx.prevouts
  require (!s.containsTx (env.hashTx tx)) (.error 0 "")
  let mapInputs ← fetchInputs disk pool.lookup s.tx ∅ false tx
  require (legacySigOpCount env tx+p2shSigOpCount env mapInputs tx ≤ maxTxSigOps)
    (.error 0 "AcceptableInputs : too many sigops %s, %d > %d")
  let nValueIn ← tx.getValueIn mapInputs
  let nValueOut ← tx.getValueOut
  checkAcceptableFees fLimitFree (nValueIn-nValueOut) (env.txSize tx)
  connectUnsigned env mapInputs ancestors tx

section Found
variable (disk : Disk) (s : Store) (pool : CTxMemPool)

/-- The output that an outpoint names, as `FetchInputs` finds it: in the transaction that
the index points at, or else in the one in the pool. -/
def outputAt (o : COutPoint) : Option CTxOut :=
  (fetchPrev disk pool.lookup s.tx ∅ false o.hash).toOption.bind (fun p => p.2.vout[o.n]?)

structure Unspent (o : COutPoint) (out : CTxOut) : Prop where
  found : outputAt disk s pool o = some out
  inIndex : s.tx o.hash = none ∨ slot s.tx o = some .null
  inPool : pool.mapNextTx.lookup o = none

def Fetched (inputs : MapPrevTx) : Prop :=
  ∀ hash p, inputs.lookup hash = some p → fetchPrev disk pool.lookup s.tx ∅ false hash = .ok p

theorem fetch_prevs_fetched (os : List COutPoint) (inputs inputs' : MapPrevTx)
    (hin : Fetched disk s pool inputs)
    (h : fetchPrevs disk pool.lookup s.tx ∅ false os inputs = .ok inputs') :
    Fetched disk s pool inputs' := by
  induction os generalizing inputs with
  | nil =>
    rw [fetchPrevs, Except.ok.injEq] at h
    rwa [← h]
  | cons o os ih =>
    rw [fetchPrevs] at h
    split_ifs at h
    · exact ih inputs hin h
    · obtain ⟨p,hp,h⟩ := (bind_ok _ _ _).mp h
      refine ih _ (fun hash q hq => ?_) h
      rw [lookup_insert_if] at hq
      split_ifs at hq with hk
      · rw [hk, ← Option.some_inj.mp hq]
        exact hp
      · exact hin hash q hq

theorem fetch_inputs_output {tx : CTransaction} {inputs : MapPrevTx} (hc : tx.isCoinBase = false)
    (h : fetchInputs disk pool.lookup s.tx ∅ false tx = .ok inputs) {o : COutPoint}
    (ho : o ∈ tx.prevouts) : ∃ out, outputAt disk s pool o = some out := by
  obtain ⟨out,hout⟩ := fetch_inputs_outputs disk pool.lookup s.tx hc h o ho
  simp only [fetchInputs, hc, Bool.false_eq_true, if_false] at h
  obtain ⟨i,hi,h⟩ := (bind_ok _ _ _).mp h
  obtain ⟨_,h⟩ := (then_ok _ _ _).mp h
  rw [Except.ok.injEq] at h
  subst h
  have hf := fetch_prevs_fetched disk s pool tx.prevouts ∅ i (by intro k p hp; simp at hp) hi
  obtain ⟨p,hp,hv⟩ := Option.bind_eq_some_iff.mp hout
  exact ⟨out,by rw [outputAt, hf _ p hp]; exact hv⟩

end Found

theorem acceptable_unspent {ancestors : List CBlockIndex} {disk : Disk} {s : Store}
    {fLimitFree : Bool} {tx : CTransaction} {pool : CTxMemPool}
    (h : acceptableInputs env ancestors disk s fLimitFree tx pool = .ok ()) {o : COutPoint}
    (ho : o ∈ tx.prevouts) : ∃ out, Unspent disk s pool o out := by
  simp only [acceptableInputs, then_ok, require_ok, Bool.not_eq_true'] at h
  obtain ⟨_,hcb,_,_,hfree,_,h⟩ := h
  obtain ⟨inputs,hf,h⟩ := (bind_ok _ _ _).mp h
  obtain ⟨_,h⟩ := (then_ok _ _ _).mp h
  obtain ⟨_,_,h⟩ := (bind_ok _ _ _).mp h
  obtain ⟨_,_,h⟩ := (bind_ok _ _ _).mp h
  obtain ⟨_,h⟩ := (then_ok _ _ _).mp h
  simp only [connectUnsigned, hcb, Bool.false_eq_true, if_false] at h
  obtain ⟨_,_,h⟩ := (bind_ok _ _ _).mp h
  obtain ⟨_,hsp,_⟩ := (bind_ok _ _ _).mp h
  obtain ⟨out,hout⟩ := fetch_inputs_output disk s pool hcb hf ho
  have hrel := fetch_inputs_reliable disk pool.lookup s.tx hf
  refine ⟨out,hout,?_,?_⟩
  · exact spend_prevs_unspent env s.tx (by simp [CDiskTxPos.memPool]) 0
      inputs ∅ _ hrel hsp o ho
  · have := (for_each_ok _ _).mp hfree o ho
    simpa using this

end SwippCore

namespace SwippCore.PoolSignatures
open FinMap Checks

variable (env : Env)

def withoutScripts : Env := { env with verifySignature := fun _ _ _ _ => true }

section Inputs
variable (tx : CTransaction) (flags : ℕ)

def Signed (inputs : MapPrevTx) (n : ℕ) (os : List COutPoint) : Prop :=
  ∀ (m : ℕ) o p, os[m]? = some o → inputs.lookup o.hash = some p →
    env.verifySignature p.2 tx (n+m) flags = true

theorem signed_spent {inputs : MapPrevTx} {n : ℕ} {o : COutPoint} {os : List COutPoint}
    (i i' : CTxIndex) {txPrev : CTransaction} (hl : inputs.lookup o.hash = some (i,txPrev))
    (h : Signed env tx flags inputs n (o::os)) :
    Signed env tx flags (inputs.insert o.hash (i',txPrev)) (n+1) os := by
  intro m o' p hm hp
  have hnext := fun q => h (m+1) o' q hm
  rw [show n+(m+1) = n+1+m by omega] at hnext
  rw [lookup_insert_if] at hp
  split_ifs at hp with hk
  · rw [← Option.some_inj.mp hp]
    exact hnext (i,txPrev) (hk ▸ hl)
  · exact hnext p hp

theorem spend_prevs_signed (pos : CDiskTxPos) (fBlock : Bool) (n : ℕ) {os : List COutPoint}
    (inputs : MapPrevTx) (q : TxIndexMap) (h : Signed env tx flags inputs n os) :
    spendPrevs env tx pos fBlock flags false n os inputs q =
      spendPrevs (withoutScripts env) tx pos fBlock flags false n os inputs q := by
  induction os generalizing n inputs q with
  | nil => rfl
  | cons o os ih =>
    rw [spendPrevs, spendPrevs]
    cases hl : inputs.lookup o.hash with
    | none => rfl
    | some p =>
      obtain ⟨i,txPrev⟩ := p
      have hgood : env.verifySignature txPrev tx n flags = true := h 0 o (i,txPrev) rfl hl
      dsimp only
      rw [ih (n+1) _ _ (signed_spent env tx flags i _ hl h)]
      have hscript : checkScript env false txPrev tx n flags =
          checkScript (withoutScripts env) false txPrev tx n flags := by
        simp only [checkScript, checkSignature, withoutScripts, Bool.false_eq_true, if_false]
        rw [if_pos hgood, if_pos trivial]
      rw [hscript]

theorem within_maturity_same (pos : CDiskTxPos) (nHeight : ℤ) (is : List CBlockIndex) :
    withinMaturity (withoutScripts env) pos nHeight is = withinMaturity env pos nHeight is := by
  induction is with
  | nil => rfl
  | cons i is ih =>
    rw [withinMaturity, withinMaturity, ih]
    rfl

theorem check_prevs_same (inputs : MapPrevTx) (ancestors : List CBlockIndex) (nValueIn : ℤ)
    (os : List COutPoint) : checkPrevs (withoutScripts env) inputs tx ancestors nValueIn os =
      checkPrevs env inputs tx ancestors nValueIn os := by
  induction os generalizing nValueIn with
  | nil => rfl
  | cons o os ih =>
    rw [checkPrevs, checkPrevs]
    simp only [ih, within_maturity_same]

theorem connect_inputs_signed (best : Best) {inputs : MapPrevTx} (ancestors : List CBlockIndex)
    (h : Signed env tx flags inputs 0 tx.prevouts) :
    connectInputs env best inputs ∅ .memPool ancestors false flags tx =
      connectInputs (withoutScripts env) best inputs ∅ .memPool ancestors false flags tx := by
  unfold connectInputs
  rw [check_prevs_same]
  simp only [Bool.false_and, spend_prevs_signed env tx flags _ _ _ _ _ h]

end Inputs

section Pool
variable (best : Best) (ancestors : List CBlockIndex) (disk : Disk) (s : Store) (fLimitFree : Bool)
  (tx : CTransaction) (pool : CTxMemPool)

/-- Every signature is good for the previous transaction that would be fetched, under both
sets of flags. -/
def SignedForPool : Prop := ∀ (n : ℕ) o p, tx.prevouts[n]? = some o →
  fetchPrev disk pool.lookup s.tx ∅ false o.hash = .ok p →
    env.verifySignature p.2 tx n standardScriptVerifyFlags = true ∧
      env.verifySignature p.2 tx n mandatoryScriptVerifyFlags = true

theorem fetch_inputs_fetched (inputs : MapPrevTx)
    (h : fetchInputs disk pool.lookup s.tx ∅ false tx = .ok inputs) :
    Fetched disk s pool inputs := by
  unfold fetchInputs at h
  split_ifs at h
  · cases h
    intro hash p hp
    simp at hp
  · obtain ⟨inputs',hf,h⟩ := (bind_ok _ _ _).mp h
    obtain ⟨_,h⟩ := (then_ok _ _ _).mp h
    cases h
    exact fetch_prevs_fetched disk s pool tx.prevouts ∅ _ (fun hash p hp => by simp at hp) hf

theorem check_pool_inputs_signed (h : SignedForPool env disk s tx pool)
    (hok : checkPoolInputs (withoutScripts env) best ancestors disk s fLimitFree tx pool = .ok ()) :
    checkPoolInputs env best ancestors disk s fLimitFree tx pool = .ok () := by
  unfold checkPoolInputs at hok ⊢
  rw [then_ok] at hok ⊢
  refine ⟨hok.1,?_⟩
  obtain ⟨inputs,hf,hrest⟩ := (bind_ok _ _ _).mp hok.2
  rw [bind_ok]
  refine ⟨inputs,hf,?_⟩
  have hfetched := fetch_inputs_fetched disk s tx pool inputs hf
  have hstd : Signed env tx standardScriptVerifyFlags inputs 0 tx.prevouts := by
    intro m o p hm hp
    rw [Nat.zero_add]
    exact (h m o p hm (hfetched _ _ hp)).1
  have hman : Signed env tx mandatoryScriptVerifyFlags inputs 0 tx.prevouts := by
    intro m o p hm hp
    rw [Nat.zero_add]
    exact (h m o p hm (hfetched _ _ hp)).2
  rw [connect_inputs_signed env tx _ best ancestors hstd,
    connect_inputs_signed env tx _ best ancestors hman]
  exact hrest

theorem accept_signed (h : SignedForPool env disk s tx pool)
    (hok : (acceptToMemoryPool (withoutScripts env) best ancestors disk s fLimitFree tx
      pool).isOk = true) :
    (acceptToMemoryPool env best ancestors disk s fLimitFree tx pool).isOk = true := by
  obtain ⟨pool',hok⟩ := of_is_ok _ hok
  suffices hs : acceptToMemoryPool env best ancestors disk s fLimitFree tx pool = .ok pool' by
    rw [hs]
    rfl
  unfold acceptToMemoryPool at hok ⊢
  simp only [then_ok] at hok ⊢
  obtain ⟨h1,h2,h3,h4,h5,h6,h7,h8⟩ := hok
  exact ⟨h1,h2,h3,h4,h5,h6,
    check_pool_inputs_signed env best ancestors disk s fLimitFree tx pool h h7,h8⟩

end Pool
end SwippCore.PoolSignatures
