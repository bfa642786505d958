import SwippCore.SigOpBounds
import SwippCore.TipVerdict

/-!
# Signature checks of inputs and blocks

Running the script that a push-only signature script carries checks no more
signatures than are counted for it, and so does a whole input with the counts of
its two scripts. The limits of `ConnectBlock` and of the memory pool count the
scripts of the transaction itself, not those of the outputs it spends.
-/

set_option autoImplicit false

namespace SwippCore
open Attempt EvalState Opcodetype

namespace SigOpLimits
open SigOpBounds FinMap Checks Undo IndexEffect ConnectEffect BlockValues TipVerdict

section Pushes
variable (H : Hashes) (checkSig : Valtype → Valtype → CScript → Bool) (flags : ℕ)

def Pushed (i : (Opcodetype × Valtype) × CScript) (vch : Valtype) : Prop :=
  vch = i.1.2 ∨ CScript.getSigOpCount true vch = 0

theorem number_counts_nothing (k : Fin 16) :
    CScript.getSigOpCount true [UInt8.ofNat (k+1)] = 0 := by
  revert k
  decide

theorem between_pushes {op : Opcodetype} (hlow : ¬op.code ≤ 0x4e) (hhigh : op.code ≤ 0x60) :
    op = op1Negate ∨ op = opReserved ∨ ∃ k, op = opN k := by
  cases op with
  | op1Negate => exact .inl rfl
  | opReserved => exact .inr (.inl rfl)
  | opN k => exact .inr (.inr ⟨k,rfl⟩)
  | pushBytes n => simp only [code] at hlow; omega
  | opNopN k => simp only [code] at hhigh; omega
  | unassigned k => simp only [code] at hhigh; omega
  | _ => first | exact absurd hhigh (by decide) | exact absurd (by decide) hlow

def PushesOnly {ε : Type} (body : (Opcodetype × Valtype) × CScript → EvalState → Result EvalState ε) :
    Prop :=
  ∀ i st st', i.1.1.code ≤ 0x60 → st.vfExec = [] → body i st = (st',.ok ()) →
    st'.vfExec = [] ∧ ∃ vch, st'.stack = vch::st.stack ∧ Pushed i vch

theorem big_num_pushes : PushesOnly (BigNumScript.step H checkSig flags) := by
  intro i st st' hcode hv h
  have hrun := big_num_step_ok H checkSig flags h
  have hexec : ∀ n, { st with nOpCount := n }.fExec = true := by
    intro n
    rw [fExec, hv]
    rfl
  unfold BigNumScript.execute at hrun
  rw [hexec] at hrun
  split at hrun
  · rw [leave, done, Prod.mk.injEq] at hrun
    rw [← hrun.1]
    exact ⟨hv,_,rfl,.inl rfl⟩
  · next hlarge =>
    rw [Bool.true_or, if_pos rfl] at hrun
    rcases between_pushes (by simpa using hlarge) hcode with hop | hop | ⟨k,hop⟩
    · rw [hop] at hrun
      have hst := (Prod.mk.inj hrun).1
      rw [← hst]
      exact ⟨hv,_,rfl,.inr (by decide)⟩
    · rw [hop] at hrun
      cases (Prod.mk.inj hrun).2
    · rw [hop, big_num_push] at hrun
      rw [← (Prod.mk.inj hrun).1]
      exact ⟨hv,_,rfl,.inr (number_counts_nothing k)⟩

theorem checked_pushes : PushesOnly (CheckedScript.step H checkSig flags) := by
  intro i st st' hcode hv h
  have hrun := checked_step_ok H checkSig flags h
  have hexec : ∀ n, { st with nOpCount := n }.fExec = true := by
    intro n
    rw [fExec, hv]
    rfl
  unfold CheckedScript.execute at hrun
  rw [hexec] at hrun
  split at hrun
  · split at hrun
    · cases (Prod.mk.inj hrun).2
    · rw [leave, done, Prod.mk.injEq] at hrun
      rw [← hrun.1]
      exact ⟨hv,_,rfl,.inl rfl⟩
  · next hlarge =>
    rw [Bool.true_or, if_pos rfl] at hrun
    rcases between_pushes (by simpa using hlarge) hcode with hop | hop | ⟨k,hop⟩
    · rw [hop] at hrun
      have hst := (Prod.mk.inj hrun).1
      rw [← hst]
      exact ⟨hv,_,rfl,.inr (by decide)⟩
    · rw [hop] at hrun
      cases (Prod.mk.inj hrun).2
    · rw [hop, checked_push] at hrun
      rw [← (Prod.mk.inj hrun).1]
      exact ⟨hv,_,rfl,.inr (number_counts_nothing k)⟩

variable {ε : Type}

section
variable {body : (Opcodetype × Valtype) × CScript → EvalState → Result EvalState ε}
  (hbody : PushesOnly body)
include hbody

theorem pushes_top {is : List ((Opcodetype × Valtype) × CScript)}
    (hpush : ∀ i ∈ is, i.1.1.code ≤ 0x60) {st st' : EvalState} (hv : st.vfExec = [])
    (h : forAll body is st = (st',.ok ())) :
    (is = [] ∧ st' = st) ∨ ∃ i vch s, is.getLast? = some i ∧ st'.stack = vch::s ∧ Pushed i vch := by
  rcases List.eq_nil_or_concat is with rfl | ⟨init,i,rfl⟩
  · exact .inl ⟨rfl,((Prod.mk.inj h).1).symm⟩
  · rw [List.concat_eq_append] at h hpush ⊢
    rw [for_all_append, and_then_ok] at h
    obtain ⟨mid,hinit,hlast⟩ := h
    have hmid : mid.vfExec = [] :=
      for_all_ok (fun st => st.vfExec = []) (fun j hj s s' hs hss =>
        (hbody j s s' (hpush j (List.mem_append_left _ hj)) hs hss).1) st hv hinit
    obtain ⟨last,hstep,hdone⟩ := (and_then_ok _ _ _).mp hlast
    obtain ⟨_,vch,hstack,hvch⟩ := hbody i mid last
      (hpush i (List.mem_append_right _ List.mem_cons_self)) hmid hstep
    rw [(Prod.mk.inj hdone).1] at hstack
    exact .inr ⟨i,vch,mid.stack,List.getLast?_concat,hstack,hvch⟩

/-- A redeem script on the stack has no more operations than are counted for it. -/
theorem redeem_counted {bad : ε} {scriptPubKey scriptSig : CScript}
    (hp2sh : scriptPubKey.isPayToScriptHash = true) (hpush : scriptSig.isPushOnly = true)
    {st' : EvalState}
    (h : Fetch.loop CScript.getOp body bad scriptSig (start [] scriptSig) = (st',.ok ()))
    {redeem : Valtype} {s : List Valtype} (hredeem : st'.stack = redeem::s) :
    CScript.getSigOpCount true redeem ≤ scriptPubKey.getP2SHSigOpCount scriptSig := by
  unfold Fetch.loop at h
  obtain ⟨st,hrun,hdone⟩ := (and_then_ok _ _ _).mp h
  have hst : st = st' := by
    split at hdone
    · exact (Prod.mk.inj hdone).1
    · cases (Prod.mk.inj hdone).2
  subst hst
  have hall : ∀ i ∈ scriptSig.ops, i.1.1.code ≤ 0x60 := by
    rw [CScript.isPushOnly, Bool.and_eq_true, List.all_eq_true] at hpush
    exact fun i hi => of_decide_eq_true (hpush.1 i hi)
  have hcount : scriptPubKey.getP2SHSigOpCount scriptSig =
      CScript.getSigOpCount true ((scriptSig.ops.getLast?.map fun i => i.1.2).getD []) := by
    simp [CScript.getP2SHSigOpCount, hp2sh, hpush]
  rcases pushes_top hbody hall rfl hrun with ⟨_,hst⟩ | ⟨i,vch,s',hlast,hs,hi⟩
  · rw [hst] at hredeem
    cases hredeem
  · rw [hs] at hredeem
    rw [← (List.cons.inj hredeem).1, hcount, hlast]
    rcases hi with hi | hi
    · rw [hi]
      exact Nat.le_refl _
    · rw [hi]
      exact Nat.zero_le _

end

theorem closed_ok {r : Result EvalState ε} {e : ε} {st : EvalState}
    (h : (andThen r fun st => if st.vfExec.isEmpty then done st else fail st e) = (st,.ok ())) :
    r = (st,.ok ()) := by
  obtain ⟨st',hr,hst⟩ := (and_then_ok _ _ _).mp h
  split at hst
  · rw [hr]
    exact hst
  · cases (Prod.mk.inj hst).2

theorem succeeded_run {S : Type} {r : Result S ε} (h : succeeded r = true) : r = (r.1,.ok ()) := by
  obtain ⟨s,_ | _⟩ := r
  · cases h
  · rfl

variable (scriptSig : CScript) {scriptPubKey : CScript} (hp2sh : scriptPubKey.isPayToScriptHash = true)
  (hpush : scriptSig.isPushOnly = true)
include hp2sh hpush

theorem big_num_redeem_counted : BigNumScript.redeemChecks H checkSig flags scriptSig scriptPubKey ≤
    scriptPubKey.getP2SHSigOpCount scriptSig := by
  unfold BigNumScript.redeemChecks
  dsimp only
  split
  · next hran =>
    simp only [Bool.and_eq_true] at hran
    have hrun := succeeded_run hran.1.1.1
    generalize (BigNumScript.evalScript H checkSig flags [] scriptSig).1 = st at hrun ⊢
    unfold BigNumScript.evalScript at hrun
    split at hrun
    · cases (Prod.mk.inj hrun).2
    · have hloop := closed_ok hrun
      unfold BigNumScript.evalRedeem
      split
      · exact Nat.zero_le _
      · next redeem s hs =>
        exact (big_num_eval_count H checkSig flags s redeem).trans
          (redeem_counted (big_num_pushes H checkSig flags) hp2sh hpush
            hloop hs)
  · exact Nat.zero_le _

theorem checked_redeem_counted :
    CheckedScript.redeemChecks H checkSig flags scriptSig scriptPubKey ≤
      scriptPubKey.getP2SHSigOpCount scriptSig := by
  unfold CheckedScript.redeemChecks
  dsimp only
  split
  · next hran =>
    simp only [Bool.and_eq_true] at hran
    have hrun := succeeded_run hran.1.1.1.1
    generalize (CheckedScript.evalScript H checkSig flags [] scriptSig).1 = st at hrun ⊢
    unfold CheckedScript.evalScript at hrun
    split at hrun
    · cases (Prod.mk.inj hrun).2
    · have hloop := closed_ok hrun
      unfold CheckedScript.evalRedeem
      split
      · exact Nat.zero_le _
      · next redeem s hs =>
        exact (checked_eval_count H checkSig flags s redeem).trans
          (redeem_counted (checked_pushes H checkSig flags)
            hp2sh hpush hloop hs)
  · exact Nat.zero_le _

end Pushes

section Inputs
variable (H : Hashes) (checkSig : CTransaction → ℕ → ℕ → Valtype → Valtype → CScript → Bool)

/-- `VerifySignature`; `checkSig tx nIn flags` is `CheckSig` for an input. -/
def verifySignature (hashTx : CTransaction → Uint256) (txFrom txTo : CTransaction) (nIn flags : ℕ) :
    Bool :=
  match txTo.vin[nIn]? with
  | none => false
  | some txin =>
    match txFrom.vout[txin.prevout.n]? with
    | none => false
    | some txout =>
      if txin.prevout.hash ≠ hashTx txFrom then false
      else BigNumScript.verifyScript H (checkSig txTo nIn flags) flags txin.scriptSig
        txout.scriptPubKey

/-- The operations that `GetP2SHSigOpCount` counts for one input. -/
def p2shSigOps (scriptPubKey scriptSig : CScript) : ℕ :=
  if scriptPubKey.isPayToScriptHash then scriptPubKey.getP2SHSigOpCount scriptSig else 0

def withScripts (env : Env) : Env :=
  { env with
    scriptSigOps := CScript.getSigOpCount false
    p2shSigOps := p2shSigOps
    verifySignature := verifySignature H checkSig env.hashTx }

theorem input_checks_counted (scriptSig scriptPubKey : CScript) (flags : ℕ)
    (check : Valtype → Valtype → CScript → Bool) :
    BigNumScript.verifyChecks H check flags scriptSig scriptPubKey ≤
      scriptSig.getSigOpCount false+p2shSigOps scriptPubKey scriptSig+
        scriptPubKey.getSigOpCount true := by
  have hsig := (big_num_eval_count H check flags [] scriptSig).trans (count_accurate scriptSig)
  have hkey := big_num_eval_count H check flags
    (BigNumScript.evalScript H check flags [] scriptSig).1.stack scriptPubKey
  have hredeem : BigNumScript.redeemChecks H check flags scriptSig scriptPubKey ≤
      p2shSigOps scriptPubKey scriptSig := by
    unfold p2shSigOps
    split
    · next hp2sh =>
      by_cases hpush : scriptSig.isPushOnly = true
      · exact big_num_redeem_counted H check flags scriptSig hp2sh hpush
      · simp [BigNumScript.redeemChecks, hpush]
    · next hp2sh => simp [BigNumScript.redeemChecks, hp2sh]
  unfold BigNumScript.verifyChecks
  dsimp only
  split <;> omega

def sumInputs (f : ℕ → CTxIn → CTxOut → ℕ) (mapInputs : MapPrevTx) (tx : CTransaction) : ℕ :=
  (tx.vin.zipIdx.map fun i =>
    match getOutputFor mapInputs i.1.prevout with
    | none => 0
    | some out => f i.2 i.1 out).sum

theorem sum_inputs_mono (f g : ℕ → CTxIn → CTxOut → ℕ) (hfg : ∀ n i out, f n i out ≤ g n i out)
    (mapInputs : MapPrevTx) (tx : CTransaction) :
    sumInputs f mapInputs tx ≤ sumInputs g mapInputs tx := by
  unfold sumInputs
  induction tx.vin.zipIdx with
  | nil => exact Nat.le_refl 0
  | cons i is ih =>
    simp only [List.map_cons, List.sum_cons]
    apply Nat.add_le_add _ ih
    split
    · exact Nat.le_refl 0
    · exact hfg _ _ _

def txChecks (flags : ℕ) (mapInputs : MapPrevTx) (tx : CTransaction) : ℕ :=
  sumInputs (fun n i out => BigNumScript.verifyChecks H (checkSig tx n flags) flags i.scriptSig
    out.scriptPubKey) mapInputs tx

def spentSigOps (mapInputs : MapPrevTx) (tx : CTransaction) : ℕ :=
  sumInputs (fun _ _ out => out.scriptPubKey.getSigOpCount true) mapInputs tx

theorem tx_checks_counted (env : Env) (flags : ℕ) (mapInputs : MapPrevTx) {tx : CTransaction}
    (hc : tx.isCoinBase = false) :
    txChecks H checkSig flags mapInputs tx ≤ legacySigOpCount (withScripts H checkSig env) tx+
      p2shSigOpCount (withScripts H checkSig env) mapInputs tx+spentSigOps mapInputs tx := by
  have hsum : ∀ (is : List CTxIn) (n : ℕ),
      ((is.zipIdx n).map fun i =>
        match getOutputFor mapInputs i.1.prevout with
        | none => 0
        | some out => BigNumScript.verifyChecks H (checkSig tx i.2 flags) flags i.1.scriptSig
            out.scriptPubKey).sum ≤
      (is.map fun i => i.scriptSig.getSigOpCount false).sum+
        (is.map fun i =>
          match getOutputFor mapInputs i.prevout with
          | none => 0
          | some out => p2shSigOps out.scriptPubKey i.scriptSig).sum+
        ((is.zipIdx n).map fun i =>
          match getOutputFor mapInputs i.1.prevout with
          | none => 0
          | some out => out.scriptPubKey.getSigOpCount true).sum := by
    intro is
    induction is with
    | nil => exact fun _ => Nat.le_refl _
    | cons i is ih =>
      intro n
      have hrest := ih (n+1)
      simp only [List.zipIdx_cons, List.map_cons, List.sum_cons]
      cases getOutputFor mapInputs i.prevout with
      | none => dsimp only; omega
      | some out =>
        have hin := input_checks_counted H i.scriptSig out.scriptPubKey flags (checkSig tx n flags)
        dsimp only
        omega
  refine (hsum tx.vin 0).trans ?_
  unfold spentSigOps sumInputs legacySigOpCount p2shSigOpCount
  rw [hc, if_neg Bool.false_ne_true]
  exact Nat.add_le_add_right (Nat.add_le_add_right (Nat.le_add_right _ _) _) _

end Inputs

section Blocks
variable (env : Env) (ctx : ConnectContext) (s : Store)

/-- What a transaction adds once `ConnectBlock` connects its inputs. -/
def whenConnected (f : MapPrevTx → CTransaction → ℕ) (tx : CTransaction) (t : Totals) : ℕ :=
  if tx.isCoinBase || overwrites s (env.hashTx tx) then 0
  else
    match fetchInputs ctx.disk ctx.pool s.tx t.mapQueuedChanges true tx with
    | .error _ => 0
    | .ok mapInputs =>
      if t.nSigOps+legacySigOpCount env tx+p2shSigOpCount env mapInputs tx ≤ maxBlockSigOps then
        f mapInputs tx
      else 0

def sumConnected (f : MapPrevTx → CTransaction → ℕ) : List CTransaction → Totals → ℕ
  | [], _ => 0
  | tx::txs, t =>
    whenConnected env ctx s f tx t+
      match connectTx env ctx s tx t with
      | .error _ => 0
      | .ok t' => sumConnected f txs t'

variable (f g : MapPrevTx → CTransaction → ℕ)

theorem when_connected_counted {tx : CTransaction}
    {t : Totals} (ht : t.nSigOps ≤ maxBlockSigOps)
    (hfg : ∀ mapInputs, tx.isCoinBase = false → f mapInputs tx ≤
      legacySigOpCount env tx+p2shSigOpCount env mapInputs tx+g mapInputs tx) :
    t.nSigOps+whenConnected env ctx s f tx t ≤ maxBlockSigOps+whenConnected env ctx s g tx t := by
  generalize hm : maxBlockSigOps = m at ht ⊢
  unfold whenConnected
  rw [hm]
  split
  · exact Nat.add_le_add_right ht _
  · next hc =>
    simp only [Bool.or_eq_true, not_or, Bool.not_eq_true] at hc
    split
    · exact Nat.add_le_add_right ht _
    · next mapInputs _ =>
      have hf := hfg mapInputs hc.1
      split
      · omega
      · exact Nat.add_le_add_right ht _

theorem connected_counted {tx : CTransaction}
    {t t' : Totals} (h : connectTx env ctx s tx t = .ok t')
    (hfg : ∀ mapInputs, tx.isCoinBase = false → f mapInputs tx ≤
      legacySigOpCount env tx+p2shSigOpCount env mapInputs tx+g mapInputs tx) :
    t'.nSigOps ≤ maxBlockSigOps ∧
      t.nSigOps+whenConnected env ctx s f tx t ≤ t'.nSigOps+whenConnected env ctx s g tx t := by
  obtain ⟨hover,hlegacy,t1,h1,rfl⟩ := (connect_tx_ok env ctx s tx t t').mp h
  unfold connectSpendOrMint at h1
  unfold whenConnected
  by_cases hc : tx.isCoinBase = true
  · rw [if_pos hc] at h1
    cases hv : tx.getValueOut with
    | error e =>
      rw [hv] at h1
      cases h1
    | ok v =>
      rw [hv] at h1
      obtain rfl := Except.ok.inj h1
      simp only [hc, Bool.true_or, if_true]
      exact ⟨hlegacy,by simp [counted]⟩
  · rw [if_neg hc] at h1
    obtain ⟨inputs,_,_,_,hf,hsig,_,_,_,rfl⟩ := (connect_spend_ok env ctx s _ tx _ t1).mp h1
    have hf' : fetchInputs ctx.disk ctx.pool s.tx t.mapQueuedChanges true tx = .ok inputs := hf
    have hsig' : t.nSigOps+legacySigOpCount env tx+p2shSigOpCount env inputs tx ≤ maxBlockSigOps :=
      hsig
    rw [Bool.not_eq_true] at hc
    simp only [hc, hover, Bool.or_self, Bool.false_eq_true, if_false, hf', if_pos hsig']
    have hsum := hfg inputs hc
    refine ⟨hsig',?_⟩
    change t.nSigOps+f inputs tx ≤ t.nSigOps+legacySigOpCount env tx+
      p2shSigOpCount env inputs tx+g inputs tx
    omega

theorem sum_connected_counted
    (hfg : ∀ mapInputs (tx : CTransaction), tx.isCoinBase = false → f mapInputs tx ≤
      legacySigOpCount env tx+p2shSigOpCount env mapInputs tx+g mapInputs tx)
    (txs : List CTransaction) (t : Totals) (ht : t.nSigOps ≤ maxBlockSigOps) :
    t.nSigOps+sumConnected env ctx s f txs t ≤ maxBlockSigOps+sumConnected env ctx s g txs t := by
  induction txs generalizing t with
  | nil => exact Nat.add_le_add_right ht 0
  | cons tx txs ih =>
    rw [sumConnected, sumConnected]
    cases h : connectTx env ctx s tx t with
    | error e => exact when_connected_counted env ctx s f g ht fun m hc => hfg m tx hc
    | ok t' =>
      obtain ⟨ht',hstep⟩ := connected_counted env ctx s f g h fun m hc => hfg m tx hc
      have hrest := ih t' ht'
      generalize maxBlockSigOps = m at hrest ⊢
      dsimp only
      omega

theorem sum_connected_mono (hfg : ∀ m tx, f m tx ≤ g m tx) (txs : List CTransaction) (t : Totals) :
    sumConnected env ctx s f txs t ≤ sumConnected env ctx s g txs t := by
  induction txs generalizing t with
  | nil => exact Nat.le_refl 0
  | cons tx txs ih =>
    rw [sumConnected, sumConnected]
    apply Nat.add_le_add
    · unfold whenConnected
      split
      · exact Nat.le_refl 0
      · split
        · exact Nat.le_refl 0
        · split
          · exact hfg _ _
          · exact Nat.le_refl 0
    · split
      · exact Nat.le_refl 0
      · exact ih _

/-- The sum does not depend on whether the scripts of an accepted block were looked at. -/
theorem sum_connected_away (b : CBlock) {txs : List CTransaction} (t t' : Totals)
    (h : connectTxs env ctx s txs t = .ok t') :
    sumConnected env (awayFromTip env ctx b) s f txs t = sumConnected env ctx s f txs t := by
  induction txs generalizing t with
  | nil => rfl
  | cons tx txs ih =>
    rw [connectTxs, bind_ok] at h
    obtain ⟨t1,h1,h⟩ := h
    rw [sumConnected, sumConnected, h1, ((connect_tx_scripts env ctx b s tx t t1).mp h1).1]
    exact congrArg (whenConnected env ctx s f tx t+·) (ih t1 h)

end Blocks

/-- The counts bound the checks of a script and of a pushed script in both interpreters.
For a block, and for a transaction that enters the pool, they do so up to the operations
in the scripts of the outputs that are spent. -/
theorem checks_counted (H : Hashes) :
    (∀ (check : Valtype → Valtype → CScript → Bool) (flags : ℕ) (stack : List Valtype)
      (script : CScript),
      (BigNumScript.evalScript H check flags stack script).1.nCheckSig ≤
        script.getSigOpCount true ∧
      (CheckedScript.evalScript H check flags stack script).1.nCheckSig ≤
        script.getSigOpCount true ∧
      script.getSigOpCount true ≤ script.getSigOpCount false) ∧
    (∀ (check : Valtype → Valtype → CScript → Bool) (flags : ℕ) (scriptSig scriptPubKey : CScript),
      scriptPubKey.isPayToScriptHash = true → scriptSig.isPushOnly = true →
      BigNumScript.redeemChecks H check flags scriptSig scriptPubKey ≤
        scriptPubKey.getP2SHSigOpCount scriptSig ∧
      CheckedScript.redeemChecks H check flags scriptSig scriptPubKey ≤
        scriptPubKey.getP2SHSigOpCount scriptSig) ∧
    (∀ (checkSig : CTransaction → ℕ → ℕ → Valtype → Valtype → CScript → Bool) (env : Env)
      (ctx : ConnectContext) (s : Store) (txs : List CTransaction) (nTxPos : ℕ),
      sumConnected (withScripts H checkSig env) ctx s (txChecks H checkSig scriptVerifyNoCache) txs
        (noTotals nTxPos) ≤
      maxBlockSigOps+sumConnected (withScripts H checkSig env) ctx s spentSigOps txs
        (noTotals nTxPos)) ∧
    (∀ (checkSig : CTransaction → ℕ → ℕ → Valtype → Valtype → CScript → Bool) (env : Env)
      (flags : ℕ) (mapInputs : MapPrevTx) (tx : CTransaction), tx.isCoinBase = false →
      legacySigOpCount (withScripts H checkSig env) tx+
        p2shSigOpCount (withScripts H checkSig env) mapInputs tx ≤ maxTxSigOps →
      txChecks H checkSig flags mapInputs tx ≤ maxTxSigOps+spentSigOps mapInputs tx) := by
  refine ⟨fun check flags stack script => ?_,fun check flags scriptSig scriptPubKey hp2sh hpush => ?_,
    fun checkSig env ctx s txs nTxPos => ?_,fun checkSig env flags mapInputs tx hc hle => ?_⟩
  · exact ⟨big_num_eval_count H check flags stack script,
      checked_eval_count H check flags stack script,count_accurate script⟩
  · exact ⟨big_num_redeem_counted H check flags scriptSig hp2sh hpush,
      checked_redeem_counted H check flags scriptSig hp2sh hpush⟩
  · have hsum := sum_connected_counted (withScripts H checkSig env) ctx s
      (txChecks H checkSig scriptVerifyNoCache) spentSigOps
      (fun m tx hc => tx_checks_counted H checkSig env scriptVerifyNoCache m hc) txs
      (noTotals nTxPos) (Nat.zero_le _)
    have hzero : (noTotals nTxPos).nSigOps = 0 := rfl
    rwa [hzero, Nat.zero_add] at hsum
  · exact (tx_checks_counted H checkSig env flags mapInputs hc).trans
      (Nat.add_le_add_right hle _)

/-- A script hash whose redeem script is one `CHECKSIG`. -/
theorem redeem_counted_once :
    CScript.isPayToScriptHash (0xa9::0x14::List.replicate 20 7++[0x87]) = true ∧
    CScript.getP2SHSigOpCount (0xa9::0x14::List.replicate 20 7++[0x87]) [0x01,0xac] = 1 ∧
    BigNumScript.redeemChecks sampleHashes (fun _ _ _ => true) scriptVerifyNoCache [0x01,0xac]
      (0xa9::0x14::List.replicate 20 7++[0x87]) ≤
      CScript.getP2SHSigOpCount (0xa9::0x14::List.replicate 20 7++[0x87]) [0x01,0xac] := by
  have hp2sh : CScript.isPayToScriptHash (0xa9::0x14::List.replicate 20 7++[0x87]) = true := by
    decide
  exact ⟨hp2sh,by decide,((checks_counted sampleHashes).2.1 (fun _ _ _ => true)
    scriptVerifyNoCache [0x01,0xac] _ hp2sh (by decide)).1⟩

section Busy

def sampleSig : Valtype := [0x30,0x06,0x02,0x01,0x01,0x02,0x01,0x01,0x01]

def sampleKey (b : UInt8) : Valtype := 0x02::List.replicate 32 b

def oneOfTwenty : CScript :=
  0x00::CScript.push sampleSig++[0x51]++CScript.push (sampleKey 1)++
    (List.replicate 4 (CScript.push (sampleKey 2))).flatten++[0x6f,0x6f,0x6f,0x6f,0x6f,0x01,0x14,0xae]

def busyScript : CScript := (List.replicate 7 oneOfTwenty).flatten

def onlyFirst (_ : CTransaction) (_ _ : ℕ) (_ vchPubKey : Valtype) (_ : CScript) : Bool :=
  vchPubKey == sampleKey 1

def busyEnv : Env := withScripts sampleHashes onlyFirst sampleEnv

def txFrom (k : ℕ) : CTransaction :=
  ⟨1,100+k,[⟨⟨77,k⟩,[],uintMax⟩],List.replicate 30 ⟨1000000,busyScript⟩,0⟩

def busyTx (k : ℕ) : CTransaction :=
  ⟨1,200+k,(List.range 30).map fun n => ⟨⟨BitVec.ofNat 256 (100+k),n⟩,[],uintMax⟩,
    [⟨30*1000000-10000,[]⟩],0⟩

def busyBlock : CBlock :=
  ⟨1,1,6961,300,0x1d00ffff,2,⟨1,300,[⟨.null,[1,1],uintMax⟩],[⟨0,[]⟩],0⟩::(List.range 29).map busyTx,[]⟩

def busyStore : Store where
  tx h :=
    if 100 ≤ h.toNat ∧ h.toNat < 129 then
      some (.fresh (.onDisk (if h.toNat < 115 then 1 else 2) 0 h.toNat) 30)
    else none
  blockIndex _ := none
  hashBestChain := some 1
  bestInvalidTrust := none
  addr _ := none

def parentIndex : CBlockIndex := ⟨1,none,none,0,0,1,100,0,0,0,0,.null,0,0,0,0,0,0,0⟩
def busyIndex : CBlockIndex := ⟨2,some 1,none,0,500,2,101,0,0,0,0,.null,0,0,0,0,0,0,0⟩

def readFrom : CDiskTxPos → Option CTransaction
  | .onDisk 1 0 n => some (txFrom (n-100))
  | .onDisk 2 0 n => some (txFrom (n-100))
  | _ => none

def busyContext : ConnectContext where
  best := ⟨some parentIndex,100⟩
  disk := ⟨readFrom,fun _ _ => none,fun _ _ => none⟩
  pool _ := none
  pindex := busyIndex
  ancestors := [busyIndex,parentIndex]
  fJustCheck := false

def busyAmbient : Ambient where
  adjustedTime := 1000
  time := 1000
  mapLockedInputs := ∅
  blockPayee _ := none
  pindexLastBest := none
  nLastUpdate := 0

theorem busy_script_runs :
    BigNumScript.verifyScript sampleHashes (onlyFirst (txFrom 0) 0 0) scriptVerifyNoCache []
      busyScript = true ∧
    BigNumScript.verifyChecks sampleHashes (onlyFirst (txFrom 0) 0 0) scriptVerifyNoCache []
      busyScript = 140 := by
  constructor
  · decide +kernel
  · decide +kernel

def LeadsToBusy (e : TxIndex) : Prop :=
  ∀ h i tx, e h = some i → readFrom i.pos = some tx →
    busyEnv.hashTx tx = h ∧ tx.vout = List.replicate 30 ⟨1000000,busyScript⟩

theorem read_from_busy {f n : ℕ} {tx : CTransaction} (h : readFrom (.onDisk f 0 n) = some tx) :
    tx = txFrom (n-100) := by
  unfold readFrom at h
  split at h
  · next heq =>
    obtain ⟨_,_,rfl⟩ := CDiskTxPos.onDisk.inj heq
    exact (Option.some_inj.mp h).symm
  · next heq =>
    obtain ⟨_,_,rfl⟩ := CDiskTxPos.onDisk.inj heq
    exact (Option.some_inj.mp h).symm
  · cases h

theorem busy_store_leads : LeadsToBusy busyStore.tx := by
  intro h i tx hi htx
  unfold busyStore at hi
  dsimp only at hi
  split at hi
  · next hrange =>
    obtain rfl := Option.some_inj.mp hi
    obtain rfl := read_from_busy htx
    refine ⟨?_,rfl⟩
    change BitVec.ofNat 256 (100+(h.toNat-100)) = h
    rw [show 100+(h.toNat-100) = h.toNat by omega, BitVec.ofNat_toNat, BitVec.setWidth_eq]
  · cases hi

theorem connect_leads {a : Placed} {e : TxIndex} (ha : readFrom a.1 = none) (he : LeadsToBusy e) :
    LeadsToBusy (connectEffect busyEnv a e) := by
  intro h i tx hi htx
  unfold connectEffect at hi
  by_cases hh : h = busyEnv.hashTx a.2
  · rw [hh, Function.update_self] at hi
    obtain rfl := Option.some_inj.mp hi
    cases ha.symm.trans htx
  · rw [Function.update_of_ne hh, mark] at hi
    cases hj : e h with
    | none =>
      rw [hj] at hi
      cases hi
    | some j =>
      rw [hj] at hi
      obtain rfl := Option.some_inj.mp hi
      exact he h j tx hj htx

theorem busy_prev {e : TxIndex} (he : LeadsToBusy e) {h : Uint256} {txPrev : CTransaction}
    (hprev : prevTx busyContext.disk busyContext.pool e h = some txPrev) :
    busyEnv.hashTx txPrev = h ∧ txPrev.vout = List.replicate 30 ⟨1000000,busyScript⟩ := by
  unfold prevTx at hprev
  obtain ⟨i,hi,hread⟩ := Option.bind_eq_some_iff.mp hprev
  unfold readPrev at hread
  split at hread
  · cases hread
  · split at hread
    · cases hread
    · next tx htx =>
      obtain rfl := Option.some_inj.mp hread
      exact he h i tx hi htx

theorem busy_tx_verifies (k : ℕ) {e : TxIndex} (he : LeadsToBusy e) :
    TxVerifies busyEnv busyContext (busyTx k) e := by
  intro n o txPrev ho hprev
  have hin : (busyTx k).vin[n]?.map CTxIn.prevout = some o := by
    rw [← List.getElem?_map]
    exact ho
  obtain ⟨txin,hvin,rfl⟩ := Option.map_eq_some_iff.mp hin
  obtain ⟨m,hm,rfl⟩ : ∃ m < 30, txin = ⟨⟨BitVec.ofNat 256 (100+k),m⟩,[],uintMax⟩ := by
    have hget := List.mem_of_getElem? hvin
    obtain ⟨m,hm,rfl⟩ := List.mem_map.mp hget
    exact ⟨m,List.mem_range.mp hm,rfl⟩
  obtain ⟨hhash,hvout⟩ := busy_prev he hprev
  change verifySignature sampleHashes onlyFirst busyEnv.hashTx txPrev (busyTx k) n
    scriptVerifyNoCache = true
  have hout : txPrev.vout[m]? = some ⟨1000000,busyScript⟩ := by
    rw [hvout, List.getElem?_replicate, if_pos hm]
  unfold verifySignature
  simp only [hvin, hout, hhash, ne_eq, not_true_eq_false, if_false]
  exact busy_script_runs.1

theorem busy_placed_verify (n : ℕ) (txs : List CTransaction)
    (htxs : ∀ tx ∈ txs, tx.isCoinBase = true ∨ ∃ k, tx = busyTx k) (e : TxIndex)
    (he : LeadsToBusy e) :
    AllowedAll (connectEffect busyEnv) (fun a e => TxVerifies busyEnv busyContext a.2 e)
      (placed busyEnv busyContext n txs) e := by
  induction txs generalizing n e with
  | nil => trivial
  | cons tx txs ih =>
    refine ⟨?_,ih _ (fun tx' h => htxs tx' (List.mem_cons_of_mem _ h)) _ (connect_leads rfl he)⟩
    rcases htxs tx List.mem_cons_self with hc | ⟨k,rfl⟩
    · intro m o txPrev ho
      simp [spent, hc] at ho
    · exact busy_tx_verifies k he

def whenBusy (_ : ℕ) (i : CTxIn) (out : CTxOut) : ℕ :=
  if i.scriptSig = [] ∧ out.scriptPubKey = busyScript then 140 else 0

theorem busy_checks (mapInputs : MapPrevTx) (tx : CTransaction) : sumInputs whenBusy mapInputs tx ≤
    txChecks sampleHashes onlyFirst scriptVerifyNoCache mapInputs tx := by
  apply sum_inputs_mono
  intro n i out
  unfold whenBusy
  split
  · next h =>
    rw [h.1, h.2]
    exact busy_script_runs.2.ge
  · exact Nat.zero_le _

theorem busy_block_connects :
    checkBlock busyEnv busyContext.best busyAmbient busyBlock none true true false = .ok () ∧
    (connectTxs busyEnv (awayFromTip busyEnv busyContext busyBlock) busyStore busyBlock.vtx
      (noTotals 581) >>= checkReward busyEnv busyContext busyStore busyBlock).isOk = true ∧
    maxBlockSigOps < sumConnected busyEnv (awayFromTip busyEnv busyContext busyBlock) busyStore
      (sumInputs whenBusy) busyBlock.vtx (noTotals 581) := by
  refine ⟨?_,?_,?_⟩
  · decide +kernel
  · decide +kernel
  · decide +kernel

/-- A block that `ConnectBlock` accepts whose scripts check more signatures than the limit. -/
theorem block_outruns_limit :
    (∃ t, connectChecks busyEnv busyContext busyAmbient busyStore busyBlock = .ok t) ∧
      maxBlockSigOps < sumConnected busyEnv busyContext busyStore
        (txChecks sampleHashes onlyFirst scriptVerifyNoCache) busyBlock.vtx (noTotals 581) := by
  obtain ⟨hchecked,hok,hsum⟩ := busy_block_connects
  have haway : ∃ t, connectTxs busyEnv (awayFromTip busyEnv busyContext busyBlock) busyStore
      busyBlock.vtx (noTotals 581) = .ok t ∧
      checkReward busyEnv busyContext busyStore busyBlock t = .ok () := by
    cases h : connectTxs busyEnv (awayFromTip busyEnv busyContext busyBlock) busyStore
      busyBlock.vtx (noTotals 581) with
    | error e =>
      rw [h] at hok
      cases hok
    | ok t =>
      rw [h] at hok
      change (checkReward busyEnv busyContext busyStore busyBlock t).isOk = true at hok
      refine ⟨t,rfl,?_⟩
      cases hr : checkReward busyEnv busyContext busyStore busyBlock t with
      | error e =>
        rw [hr] at hok
        cases hok
      | ok u => rfl
  obtain ⟨t,ht,hreward⟩ := haway
  have hscripts : AllowedAll (connectEffect busyEnv)
      (fun a e => TxVerifies busyEnv busyContext a.2 e)
      (placed busyEnv busyContext 581 busyBlock.vtx) (queued (noTotals 581).mapQueuedChanges
        busyStore.tx) := by
    refine busy_placed_verify 581 busyBlock.vtx ?_ _ ?_
    · intro tx htx
      rcases List.mem_cons.mp htx with rfl | hmem
      · exact .inl rfl
      · obtain ⟨k,_,rfl⟩ := List.mem_map.mp hmem
        exact .inr ⟨k,rfl⟩
    · rw [show queued (noTotals 581).mapQueuedChanges busyStore.tx = busyStore.tx from
        queued_empty _]
      exact busy_store_leads
  have hconn := (connect_txs_scripts busyEnv busyContext busyBlock busyStore busyBlock.vtx
    (noTotals 581) t).mpr ⟨ht,.inr hscripts⟩
  refine ⟨⟨t,?_⟩,?_⟩
  · unfold connectChecks
    rw [then_ok]
    refine ⟨hchecked,?_⟩
    rw [bind_ok]
    refine ⟨t,hconn,?_⟩
    rw [then_ok]
    exact ⟨hreward,rfl⟩
  · refine hsum.trans_le ?_
    rw [sum_connected_away busyEnv busyContext busyStore _ busyBlock _ t hconn]
    exact sum_connected_mono _ _ _ _ _ busy_checks _ _

end Busy

end SigOpLimits

end SwippCore
