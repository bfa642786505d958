import SwippCore.VerifyScript

/-!
# The signature counts bound the signature checks

Scanning a script counts at least as many signature operations as running it
makes. The scan looks one opcode back: where the key count was pushed by that
opcode the interpreter finds just this number on its stack, and elsewhere the
scan counts the most keys there can be. The same holds of a pushed script, and so
of a whole input.
-/

set_option autoImplicit false

namespace SwippCore
open Attempt EvalState Opcodetype

namespace SigOpBounds

def Idle {ε : Type} (st : EvalState) (r : Result EvalState ε) : Prop :=
  r.1.nCheckSig = st.nCheckSig

section Idle
variable {ε α : Type} {st : EvalState} {e : ε}

theorem idle_take1 {k : Valtype → List Valtype → Result EvalState ε}
    (h : ∀ x1 s, Idle st (k x1 s)) : Idle st (st.take1 e k) := by
  unfold take1
  split
  · exact h _ _
  · rfl

theorem idle_take2 {k : Valtype → Valtype → List Valtype → Result EvalState ε}
    (h : ∀ x1 x2 s, Idle st (k x1 x2 s)) : Idle st (st.take2 e k) := by
  unfold take2
  split
  · exact h _ _ _
  · rfl

theorem idle_take3 {k : Valtype → Valtype → Valtype → List Valtype → Result EvalState ε}
    (h : ∀ x1 x2 x3 s, Idle st (k x1 x2 x3 s)) : Idle st (st.take3 e k) := by
  unfold take3
  split
  · exact h _ _ _ _
  · rfl

theorem idle_take4 {k : Valtype → Valtype → Valtype → Valtype → List Valtype → Result EvalState ε}
    (h : ∀ x1 x2 x3 x4 s, Idle st (k x1 x2 x3 x4 s)) : Idle st (st.take4 e k) := by
  unfold take4
  split
  · exact h _ _ _ _ _
  · rfl

theorem idle_take6 {k : Valtype → Valtype → Valtype → Valtype → Valtype → Valtype → List Valtype →
      Result EvalState ε}
    (h : ∀ x1 x2 x3 x4 x5 x6 s, Idle st (k x1 x2 x3 x4 x5 x6 s)) : Idle st (st.take6 e k) := by
  unfold take6
  split
  · exact h _ _ _ _ _ _ _
  · rfl

theorem idle_number {read : α → Option ℤ} {x : α} {k : ℤ → Result EvalState ε}
    (h : ∀ n, Idle st (k n)) : Idle st (number read e st x k) := by
  unfold number
  split
  · rfl
  · exact h _

theorem idle_verdict {fVerify fSuccess : Bool} {s : List Valtype} :
    Idle st (verdict e fVerify fSuccess st s) := by
  unfold verdict
  split
  · rfl
  · split <;> rfl

theorem idle_pick {fRoll : Bool} {s : List Valtype} {n : ℤ} : Idle st (pick e fRoll st s n) := by
  unfold pick
  split
  · rfl
  · split <;> rfl

theorem idle_ite {c : Prop} [Decidable c] {a b : Result EvalState ε} (ha : Idle st a)
    (hb : Idle st b) : Idle st (if c then a else b) := by
  split
  · exact ha
  · exact hb

end Idle

section Switch
variable (H : Hashes) (checkSig : Valtype → Valtype → CScript → Bool) (flags : ℕ)
  (opcode : Opcodetype) (hop : opcode.checksSignatures = false) (pc : CScript) (st : EvalState)
include hop

theorem exec_idle : Idle st (BigNumScript.execOp H checkSig flags opcode pc st) ∧
    Idle st (CheckedScript.execOp H checkSig flags opcode pc st) := by
  unfold BigNumScript.execOp CheckedScript.execOp
  cases opcode with
  | opCheckSig | opCheckSigVerify | opCheckMultiSig | opCheckMultiSigVerify => cases hop
  | opIf | opNotIf => constructor <;> exact idle_ite (idle_take1 fun _ _ => rfl) rfl
  | opElse | opEndIf => constructor <;> dsimp only <;> split <;> rfl
  | opFromAltStack => constructor <;> dsimp only <;> split <;> rfl
  | opNopN k => constructor <;> exact idle_ite rfl rfl
  | opVerify => constructor <;> exact idle_take1 fun _ _ => idle_ite rfl rfl
  | opToAltStack | opIfDup | opDrop | opDup | opSize | opRipemd160 | opSha1 | opSha256
  | opHash160 | opHash256 => constructor <;> exact idle_take1 fun _ _ => rfl
  | op2Drop | op2Dup | opNip | opOver | opSwap | opTuck =>
    constructor <;> exact idle_take2 fun _ _ _ => rfl
  | op3Dup | opRot => constructor <;> exact idle_take3 fun _ _ _ _ => rfl
  | op2Over | op2Swap => constructor <;> exact idle_take4 fun _ _ _ _ _ => rfl
  | op2Rot => constructor <;> exact idle_take6 fun _ _ _ _ _ _ _ => rfl
  | opPick | opRoll =>
    constructor <;> exact idle_take2 fun _ _ _ => idle_number fun _ => idle_pick
  | opEqual | opEqualVerify => constructor <;> exact idle_take2 fun _ _ _ => idle_verdict
  | op1Add | op1Sub | opNegate | opAbs | opNot | op0NotEqual =>
    constructor <;> exact idle_take1 fun _ _ => idle_number fun _ => rfl
  | opAdd | opSub | opBoolAnd | opBoolOr | opNumEqual | opNumNotEqual | opLessThan
  | opGreaterThan | opLessThanOrEqual | opGreaterThanOrEqual | opMin | opMax =>
    constructor <;> exact idle_take2 fun _ _ _ => idle_number fun _ =>
      idle_number fun _ => rfl
  | opNumEqualVerify =>
    constructor <;> exact idle_take2 fun _ _ _ => idle_number fun _ =>
      idle_number fun _ => idle_ite rfl rfl
  | opWithin =>
    constructor <;> exact idle_take3 fun _ _ _ _ => idle_number fun _ =>
      idle_number fun _ => idle_number fun _ => idle_verdict
  | _ => exact ⟨rfl,rfl⟩

end Switch

section Signatures
variable {ε : Type} (err : ScriptError → ε)

theorem match_sigs_count (accept : Valtype → Valtype → Except ε (Bool × Bool))
    (keys sigs : List Valtype) : (matchSigs accept keys sigs).2 ≤ keys.length := by
  induction keys generalizing sigs with
  | nil => cases sigs <;> exact Nat.le_refl 0
  | cons key keys ih =>
    cases sigs with
    | nil => exact Nat.zero_le _
    | cons sig sigs =>
      rw [matchSigs, List.length_cons]
      split
      · exact Nat.zero_le _
      · next fOk asked _ =>
        have hasked := Bool.toNat_le asked
        have hrest := ih (if fOk then sigs else sig::sigs)
        generalize (if fOk then sigs else sig::sigs) = left at hrest ⊢
        dsimp only
        split
        · exact Nat.le_trans hasked (Nat.le_add_left 1 _)
        · dsimp only
          omega

section
variable (accept : CScript → Valtype → Valtype → Except ε (Bool × Bool))

theorem check_sig_count
    (fVerify : Bool) (st : EvalState) :
    (checkSigOp err accept fVerify st).1.nCheckSig ≤ st.nCheckSig+1 := by
  unfold checkSigOp take2
  split
  · dsimp only
    split
    · exact Nat.le_succ _
    · next fSuccess asked _ =>
      have hverdict := @idle_verdict _ { st with nCheckSig := st.nCheckSig+asked.toNat }
        (err .checkSigVerify) fVerify fSuccess
      rw [hverdict]
      exact Nat.add_le_add_left (Bool.toNat_le asked) _
  · exact Nat.le_succ _

theorem check_sigs_count
    (flags : ℕ) (fVerify : Bool) (st : EvalState) (keys s : List Valtype) (n : ℕ) :
    (checkSigs err accept flags fVerify st keys s n).1.nCheckSig ≤ st.nCheckSig+keys.length := by
  unfold checkSigs
  split
  · exact Nat.le_add_right _ _
  · dsimp only
    have hmatch := match_sigs_count (accept ((s.take n).foldl (fun code vchSig =>
      (code.findAndDelete (CScript.push vchSig)).1) st.codehash)) keys (s.take n)
    split
    · exact Nat.add_le_add_left hmatch _
    · unfold dropDummy
      split
      · exact Nat.add_le_add_left hmatch _
      · split
        · exact Nat.add_le_add_left hmatch _
        · rw [idle_verdict]
          exact Nat.add_le_add_left hmatch _

end

theorem check_multi_sig_count (read : Valtype → Option ℤ)
    (accept : CScript → Valtype → Valtype → Except ε (Bool × Bool)) (flags : ℕ) (fVerify : Bool)
    {st : EvalState} {b : ℕ}
    (hb : ∀ vch ∈ st.stack.head?, ∀ n, read vch = some n → n ≤ 20 → n.toNat ≤ b) :
    (checkMultiSigOp err read accept flags fVerify st).1.nCheckSig ≤ st.nCheckSig+b := by
  have hsame : st.nCheckSig ≤ st.nCheckSig+b := Nat.le_add_right _ _
  unfold checkMultiSigOp take1
  split
  · next vchKeys s hs =>
    unfold number
    dsimp only
    split
    · exact hsame
    · next nKeysCount hkeys =>
      split
      · exact hsame
      · next hrange =>
        have hle : nKeysCount ≤ 20 := by
          simp only [Bool.or_eq_true, decide_eq_true_eq] at hrange
          omega
        have hkb := hb vchKeys (by rw [hs]; rfl) nKeysCount hkeys hle
        split
        · exact hsame
        · split
          · exact hsame
          · split
            · exact hsame
            · split
              · exact hsame
              · refine Nat.le_trans (check_sigs_count err accept flags fVerify _ _ _ _)
                  (Nat.add_le_add_left (Nat.le_trans ?_ hkb) _)
                rw [List.length_take]
                exact Nat.min_le_left _ _
  · exact hsame

end Signatures

def Remembers (lastOpcode : Opcodetype) (st : EvalState) : Prop :=
  ∀ k, lastOpcode = opN k → st.fExec = true → st.stack.head? = some [UInt8.ofNat (k+1)]

/-- What the count allows for `OP_CHECKMULTISIG` behind an opcode. -/
def multiSigOps (lastOpcode : Opcodetype) : ℕ := CScript.sigOps true lastOpcode opCheckMultiSig

theorem multi_sig_ops_n (k : Fin 16) : multiSigOps (opN k) = k+1 := by
  revert k
  decide

theorem multi_sig_ops_other (op : Opcodetype) (h : ∀ k, op ≠ opN k) : multiSigOps op = 20 := by
  have hrange : ¬(0x51 ≤ op.code ∧ op.code ≤ 0x60) := by
    cases op with
    | opN k => exact absurd rfl (h k)
    | pushBytes n => simp only [code]; omega
    | opNopN k => simp only [code]; omega
    | unassigned k => simp only [code]; omega
    | _ => decide
  simp [multiSigOps, CScript.sigOps, hrange]

theorem multi_sig_allows (read : Valtype → Option ℤ)
    (hread : ∀ k : Fin 16, read [UInt8.ofNat (k+1)] = some ((k : ℤ)+1)) {lastOpcode : Opcodetype}
    {st : EvalState} (hexec : st.fExec = true) (hlast : Remembers lastOpcode st) (vch : Valtype)
    (hvch : vch ∈ st.stack.head?) (n : ℤ) (hn : read vch = some n) (hle : n ≤ 20) :
    n.toNat ≤ multiSigOps lastOpcode := by
  by_cases hopn : ∃ k, lastOpcode = opN k
  · obtain ⟨k,rfl⟩ := hopn
    rw [hlast k rfl hexec, Option.mem_def, Option.some_inj] at hvch
    rw [← hvch, hread k, Option.some_inj] at hn
    rw [multi_sig_ops_n]
    omega
  · rw [multi_sig_ops_other lastOpcode fun k hk => hopn ⟨k,hk⟩]
    omega

theorem big_num_read (k : Fin 16) :
    BigNumScript.castToInt [UInt8.ofNat (k+1)] = some ((k : ℤ)+1) := by
  revert k
  decide

theorem checked_read (flags : ℕ) (k : Fin 16) :
    CheckedScript.scriptInt flags [UInt8.ofNat (k+1)] = some ((k : ℤ)+1) := by
  rw [CheckedScript.scriptInt, CheckedScript.scriptNum]
  cases CheckedScript.fRequireMinimal flags
  · revert k
    decide
  · revert k
    decide

section Step
variable (H : Hashes) (checkSig : Valtype → Valtype → CScript → Bool) (flags : ℕ)

variable {st : EvalState}

section
variable {lastOpcode opcode : Opcodetype} (pc : CScript)
  (hexec : st.fExec = true ∨ opcode.checksSignatures = false) (hlast : Remembers lastOpcode st)
include hexec hlast

theorem big_num_count :
    (BigNumScript.execOp H checkSig flags opcode pc st).1.nCheckSig ≤
      st.nCheckSig+CScript.sigOps true lastOpcode opcode := by
  cases hop : opcode.checksSignatures with
  | false => exact (exec_idle H checkSig flags opcode hop pc st).1.le.trans (Nat.le_add_right _ _)
  | true =>
    have hexec : st.fExec = true := hexec.resolve_right (by simp [hop])
    have hmulti := multi_sig_allows _ big_num_read hexec hlast
    cases opcode with
    | opCheckSig | opCheckSigVerify => exact check_sig_count _ _ _ st
    | opCheckMultiSig | opCheckMultiSigVerify => exact check_multi_sig_count _ _ _ _ _ hmulti
    | _ => cases hop

theorem checked_count :
    (CheckedScript.execOp H checkSig flags opcode pc st).1.nCheckSig ≤
      st.nCheckSig+CScript.sigOps true lastOpcode opcode := by
  cases hop : opcode.checksSignatures with
  | false => exact (exec_idle H checkSig flags opcode hop pc st).2.le.trans (Nat.le_add_right _ _)
  | true =>
    have hexec : st.fExec = true := hexec.resolve_right (by simp [hop])
    have hmulti := multi_sig_allows _ (checked_read flags) hexec hlast
    cases opcode with
    | opCheckSig | opCheckSigVerify => exact check_sig_count _ _ _ st
    | opCheckMultiSig | opCheckMultiSigVerify => exact check_multi_sig_count _ _ _ _ _ hmulti
    | _ => cases hop

end

theorem branch_checks_nothing (opcode : Opcodetype) (h : 0x63 ≤ opcode.code ∧ opcode.code ≤ 0x68) :
    opcode.checksSignatures = false := by
  cases opcode with
  | opCheckSig | opCheckSigVerify | opCheckMultiSig | opCheckMultiSigVerify =>
    exact absurd h (by decide)
  | _ => rfl

theorem sized_count {ε : Type} (r : Result EvalState ε) (e : ε) :
    (andThen r fun st => if 1000 < st.stack.length+st.altstack.length then fail st e
      else done st).1 = r.1 := by
  rcases r with ⟨st,_ | _⟩
  · rfl
  · dsimp only [andThen]
    split <;> rfl

section
variable (lastOpcode : Opcodetype) (i : (Opcodetype × Valtype) × CScript) (st : EvalState)
  (hlast : Remembers lastOpcode st)
include hlast

theorem big_num_step_count :
    (BigNumScript.step H checkSig flags i st).1.nCheckSig ≤
      st.nCheckSig+CScript.sigOps true lastOpcode i.1.1 := by
  have hsame : st.nCheckSig ≤ st.nCheckSig+CScript.sigOps true lastOpcode i.1.1 :=
    Nat.le_add_right _ _
  unfold BigNumScript.step
  split
  · exact hsame
  · dsimp only
    split
    · exact hsame
    · split
      · exact hsame
      · rw [sized_count]
        unfold BigNumScript.execute
        split
        · exact hsame
        · split
          · next hrun =>
            simp only [Bool.or_eq_true, Bool.and_eq_true, decide_eq_true_eq] at hrun
            exact big_num_count H checkSig flags i.2
              (hrun.imp_right (branch_checks_nothing i.1.1)) hlast
          · exact hsame

theorem checked_step_count :
    (CheckedScript.step H checkSig flags i st).1.nCheckSig ≤
      st.nCheckSig+CScript.sigOps true lastOpcode i.1.1 := by
  have hsame : st.nCheckSig ≤ st.nCheckSig+CScript.sigOps true lastOpcode i.1.1 :=
    Nat.le_add_right _ _
  unfold CheckedScript.step
  split
  · exact hsame
  · dsimp only
    split
    · exact hsame
    · split
      · exact hsame
      · rw [sized_count]
        unfold CheckedScript.execute
        split
        · split
          · exact hsame
          · exact hsame
        · split
          · next hrun =>
            simp only [Bool.or_eq_true, Bool.and_eq_true, decide_eq_true_eq] at hrun
            exact checked_count H checkSig flags i.2
              (hrun.imp_right (branch_checks_nothing i.1.1)) hlast
          · exact hsame

end

theorem sized_ok {ε : Type} {r : Result EvalState ε} {e : ε} {st' : EvalState}
    (h : (andThen r fun st => if 1000 < st.stack.length+st.altstack.length then fail st e
      else done st) = (st',.ok ())) : r = (st',.ok ()) := by
  obtain ⟨st,hr,hst⟩ := (and_then_ok _ _ _).mp h
  split at hst
  · cases hst
  · rw [hr]
    exact hst

variable (k : Fin 16)

theorem big_num_small : CBigNum.getvch (((opN k).code : ℤ)-0x50) = [UInt8.ofNat (k+1)] := by
  revert k
  decide

theorem checked_small :
    CScriptNum.serialize (int64 (((opN k).code : ℤ)-0x50)) = [UInt8.ofNat (k+1)] := by
  revert k
  decide

theorem small_code : ¬(opN k).code ≤ 0x4e ∧ ¬0x63 ≤ (opN k).code := by
  simp only [code]
  omega

theorem small_branch (fExec : Bool) :
    (fExec || (decide (0x63 ≤ (opN k).code) && decide ((opN k).code ≤ 0x68))) = fExec := by
  simp [small_code k]

theorem big_num_push (pc : CScript) (st : EvalState) :
    BigNumScript.execOp H checkSig flags (opN k) pc st =
      (st.withStack ([UInt8.ofNat (k+1)]::st.stack),.ok ()) := by
  rw [← big_num_small k]
  rfl

theorem big_num_step_ok {i : (Opcodetype × Valtype) × CScript} {st' : EvalState}
    (h : BigNumScript.step H checkSig flags i st = (st',.ok ())) :
    BigNumScript.execute H checkSig flags i.1.1 i.1.2 i.2
      { st with nOpCount := st.nOpCount+(decide (0x60 < i.1.1.code)).toNat } = (st',.ok ()) := by
  unfold BigNumScript.step at h
  split at h
  · cases h
  · dsimp only at h
    split at h
    · cases h
    · split at h
      · cases h
      · exact sized_ok h

theorem big_num_step_remembers (i : (Opcodetype × Valtype) × CScript) (st st' : EvalState)
    (h : BigNumScript.step H checkSig flags i st = (st',.ok ())) : Remembers i.1.1 st' := by
  intro k hk hexec
  have hrun := big_num_step_ok H checkSig flags h
  rw [hk, BigNumScript.execute, if_neg (by simp [small_code k]), small_branch] at hrun
  split at hrun
  · rw [big_num_push, Prod.mk.injEq] at hrun
    rw [← hrun.1]
    rfl
  · next hnot =>
    simp only [done, Prod.mk.injEq, and_true] at hrun
    rw [← hrun] at hexec
    exact absurd hexec hnot

theorem checked_push (pc : CScript) (st : EvalState) :
    CheckedScript.execOp H checkSig flags (opN k) pc st =
      (st.withStack ([UInt8.ofNat (k+1)]::st.stack),.ok ()) := by
  rw [← checked_small k]
  rfl

theorem checked_step_ok {i : (Opcodetype × Valtype) × CScript} {st' : EvalState}
    (h : CheckedScript.step H checkSig flags i st = (st',.ok ())) :
    CheckedScript.execute H checkSig flags i.1.1 i.1.2 i.2
      { st with nOpCount := st.nOpCount+(decide (0x60 < i.1.1.code)).toNat } = (st',.ok ()) := by
  unfold CheckedScript.step at h
  split at h
  · cases h
  · dsimp only at h
    split at h
    · cases h
    · split at h
      · cases h
      · exact sized_ok h

theorem checked_step_remembers (i : (Opcodetype × Valtype) × CScript) (st st' : EvalState)
    (h : CheckedScript.step H checkSig flags i st = (st',.ok ())) : Remembers i.1.1 st' := by
  intro k hk hexec
  have hrun := checked_step_ok H checkSig flags h
  rw [hk, CheckedScript.execute, if_neg (by simp [small_code k]), small_branch] at hrun
  split at hrun
  · rw [checked_push, Prod.mk.injEq] at hrun
    rw [← hrun.1]
    rfl
  · next hnot =>
    simp only [done, Prod.mk.injEq, and_true] at hrun
    rw [← hrun] at hexec
    exact absurd hexec hnot

end Step

section Run
variable {ε : Type} (body : (Opcodetype × Valtype) × CScript → EvalState → Result EvalState ε)
  (hcount : ∀ lastOpcode i st, Remembers lastOpcode st →
    (body i st).1.nCheckSig ≤ st.nCheckSig+CScript.sigOps true lastOpcode i.1.1)
  (hnext : ∀ i st st', body i st = (st',.ok ()) → Remembers i.1.1 st')
include hcount hnext

theorem run_count (is : List ((Opcodetype × Valtype) × CScript)) (lastOpcode : Opcodetype)
    (st : EvalState) (hlast : Remembers lastOpcode st) :
    (forAll body is st).1.nCheckSig ≤
      st.nCheckSig+CScript.countSigOps true lastOpcode (is.map fun i => i.1.1) := by
  induction is generalizing lastOpcode st with
  | nil => exact Nat.le_refl _
  | cons i is ih =>
    have hstep := hcount lastOpcode i st hlast
    rw [forAll, List.map_cons, CScript.countSigOps]
    rcases hbody : body i st with ⟨st',_ | _⟩
    · rw [hbody] at hstep
      exact hstep.trans (by omega)
    · rw [hbody] at hstep
      have hrest := ih i.1.1 st' (hnext i st st' hbody)
      dsimp only at hstep
      exact hrest.trans (by omega)

/-- A script that is read to its end or not checks no more signatures than its count. -/
theorem loop_count (bad : ε) (script : CScript) (stack : List Valtype) :
    (Fetch.loop CScript.getOp body bad script (start stack script)).1.nCheckSig ≤
      script.getSigOpCount true := by
  have hrun := run_count body hcount hnext script.ops invalidOpcode (start stack script)
    (by intro k hk; cases hk)
  have hstart : (start stack script).nCheckSig = 0 := rfl
  rw [hstart, Nat.zero_add] at hrun
  rw [CScript.ops] at hrun
  unfold Fetch.loop
  rcases hr : forAll body (Fetch.items CScript.getOp script) (start stack script) with ⟨st,_ | _⟩
  · rw [hr] at hrun
    exact hrun
  · rw [hr] at hrun
    dsimp only [andThen]
    split
    · exact hrun
    · exact hrun

end Run

section Scripts
variable (H : Hashes) (checkSig : Valtype → Valtype → CScript → Bool) (flags : ℕ)

theorem closed_count {ε : Type} (r : Result EvalState ε) (e : ε) :
    (andThen r fun st => if st.vfExec.isEmpty then done st else fail st e).1 = r.1 := by
  rcases r with ⟨st,_ | _⟩
  · rfl
  · dsimp only [andThen]
    split <;> rfl

theorem big_num_eval_count (stack : List Valtype) (script : CScript) :
    (BigNumScript.evalScript H checkSig flags stack script).1.nCheckSig ≤
      script.getSigOpCount true := by
  unfold BigNumScript.evalScript
  split
  · exact Nat.zero_le _
  · rw [closed_count]
    exact loop_count _ (big_num_step_count H checkSig flags)
      (big_num_step_remembers H checkSig flags) () script stack

theorem checked_eval_count (stack : List Valtype) (script : CScript) :
    (CheckedScript.evalScript H checkSig flags stack script).1.nCheckSig ≤
      script.getSigOpCount true := by
  unfold CheckedScript.evalScript
  split
  · exact Nat.zero_le _
  · rw [closed_count]
    exact loop_count _ (checked_step_count H checkSig flags)
      (checked_step_remembers H checkSig flags) .badOpcode script stack

end Scripts

theorem sig_ops_accurate (lastOpcode opcode : Opcodetype) :
    CScript.sigOps true lastOpcode opcode ≤ CScript.sigOps false lastOpcode opcode := by
  unfold CScript.sigOps
  split
  · exact Nat.le_refl _
  · split
    · split
      · have hn : lastOpcode.decodeOpN ≤ 20 := by
          cases lastOpcode with
          | opN k =>
            rw [decodeOpN]
            omega
          | _ => exact Nat.zero_le _
        simpa using hn
      · exact Nat.le_refl _
    · exact Nat.le_refl _

theorem count_accurate (script : CScript) :
    script.getSigOpCount true ≤ script.getSigOpCount false := by
  have hcount : ∀ (ops : List Opcodetype) (lastOpcode : Opcodetype),
      CScript.countSigOps true lastOpcode ops ≤ CScript.countSigOps false lastOpcode ops := by
    intro ops
    induction ops with
    | nil => exact fun _ => Nat.le_refl _
    | cons op ops ih => exact fun last => Nat.add_le_add (sig_ops_accurate last op) (ih op)
  exact hcount _ _

end SigOpBounds

end SwippCore
