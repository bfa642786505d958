import SwippCore.Inputs
import SwippCore.EvalScript

/-!
# Verification of scripts

The verifiers on top of the two evaluators, and where they agree.
-/

set_option autoImplicit false

namespace SwippCore
open Attempt

def succeeded {S ε : Type} (r : Result S ε) : Bool :=
  match r.2 with
  | .ok _ => true
  | .error _ => false

def leavesTrue {ε : Type} (r : Result EvalState ε) : Bool :=
  succeeded r &&
    match r.1.stack with
    | [] => false
    | vch::_ => castToBool vch

namespace BigNumScript
variable (H : Hashes) (checkSig : Valtype → Valtype → CScript → Bool) (flags : ℕ)

/-- The script that `scriptSig` pushed last, on the values below it. `HASH160` has failed
already when there is none. -/
def evalRedeem (stackCopy : List Valtype) : Result EvalState Unit :=
  match stackCopy with
  | [] => fail (EvalState.start [] []) ()
  | pubKeySerialized::stack => evalScript H checkSig flags stack pubKeySerialized

/-- `VerifyScript` with a transaction -/
def verifyScript (scriptSig scriptPubKey : CScript) : Bool :=
  let sigRun := evalScript H checkSig flags [] scriptSig
  if !succeeded sigRun then false
  else if !leavesTrue (evalScript H checkSig flags sigRun.1.stack scriptPubKey) then false
  else if scriptPubKey.isPayToScriptHash then
    if !scriptSig.isPushOnly then false
    else leavesTrue (evalRedeem H checkSig flags sigRun.1.stack)
  else true

/-- How often `VerifyScript` calls `CheckSig` in the pushed script. -/
def redeemChecks (scriptSig scriptPubKey : CScript) : ℕ :=
  let sigRun := evalScript H checkSig flags [] scriptSig
  if succeeded sigRun && leavesTrue (evalScript H checkSig flags sigRun.1.stack scriptPubKey)
      && scriptPubKey.isPayToScriptHash && scriptSig.isPushOnly then
    (evalRedeem H checkSig flags sigRun.1.stack).1.nCheckSig
  else 0

/-- How often `VerifyScript` calls `CheckSig`. -/
def verifyChecks (scriptSig scriptPubKey : CScript) : ℕ :=
  let sigRun := evalScript H checkSig flags [] scriptSig
  sigRun.1.nCheckSig+
    (if succeeded sigRun then
      (evalScript H checkSig flags sigRun.1.stack scriptPubKey).1.nCheckSig
    else 0)+redeemChecks H checkSig flags scriptSig scriptPubKey

end BigNumScript

namespace CheckedScript
variable (H : Hashes) (checkSig : Valtype → Valtype → CScript → Bool) (flags : ℕ)

def requireTrue (r : Result EvalState ScriptError) : Except ScriptError Unit :=
  match r with
  | (_,.error serror) => .error serror
  | (st,.ok _) =>
    match st.stack with
    | [] => .error .evalFalse
    | vch::_ => if castToBool vch then .ok () else .error .evalFalse

/-- The script that `scriptSig` pushed last; the source asserts that there is one. -/
def evalRedeem (stackCopy : List Valtype) : Result EvalState ScriptError :=
  match stackCopy with
  | [] => fail (EvalState.start [] []) .unknownError
  | pubKeySerialized::stack => evalScript H checkSig flags stack pubKeySerialized

/-- `VerifyScript` with a signature checker -/
def verifyScript (scriptSig scriptPubKey : CScript) : Except ScriptError Unit :=
  if hasFlag flags verifySigPushOnly && !scriptSig.isPushOnly then .error .sigPushOnly
  else
    match evalScript H checkSig flags [] scriptSig with
    | (_,.error serror) => .error serror
    | (st,.ok _) =>
      match requireTrue (evalScript H checkSig flags st.stack scriptPubKey) with
      | .error serror => .error serror
      | .ok _ =>
        if hasFlag flags verifyP2SH && scriptPubKey.isPayToScriptHash then
          if !scriptSig.isPushOnly then .error .sigPushOnly
          else requireTrue (evalRedeem H checkSig flags st.stack)
        else .ok ()

/-- Whether `VerifyScript` returns true. -/
def accepts (scriptSig scriptPubKey : CScript) : Bool :=
  match verifyScript H checkSig flags scriptSig scriptPubKey with
  | .ok _ => true
  | .error _ => false

/-- How often `VerifyScript` asks the checker in the pushed script. -/
def redeemChecks (scriptSig scriptPubKey : CScript) : ℕ :=
  let sigRun := evalScript H checkSig flags [] scriptSig
  if succeeded sigRun && leavesTrue (evalScript H checkSig flags sigRun.1.stack scriptPubKey)
      && hasFlag flags verifyP2SH && scriptPubKey.isPayToScriptHash && scriptSig.isPushOnly then
    (evalRedeem H checkSig flags sigRun.1.stack).1.nCheckSig
  else 0

theorem require_true_cases (r : Result EvalState ScriptError) :
    (requireTrue r = .ok () ∧ leavesTrue r = true) ∨
      (∃ serror, requireTrue r = .error serror) ∧ leavesTrue r = false := by
  obtain ⟨st,serror | u⟩ := r
  · exact .inr ⟨⟨serror,rfl⟩,rfl⟩
  · unfold requireTrue leavesTrue
    cases hs : st.stack with
    | nil => exact .inr ⟨⟨.evalFalse,by simp [hs]⟩,by simp⟩
    | cons vch s =>
      by_cases hv : castToBool vch = true
      · exact .inl ⟨by simp [hs, hv],by simp [hv, succeeded]⟩
      · exact .inr ⟨⟨.evalFalse,by simp [hs, hv]⟩,by simp [hv]⟩

theorem accepts_eq (scriptSig scriptPubKey : CScript) :
    accepts H checkSig flags scriptSig scriptPubKey =
      (!(hasFlag flags verifySigPushOnly && !scriptSig.isPushOnly) &&
        (succeeded (evalScript H checkSig flags [] scriptSig) &&
          (leavesTrue (evalScript H checkSig flags
              (evalScript H checkSig flags [] scriptSig).1.stack scriptPubKey) &&
            (!(hasFlag flags verifyP2SH && scriptPubKey.isPayToScriptHash) ||
              scriptSig.isPushOnly &&
                leavesTrue (evalRedeem H checkSig flags
                  (evalScript H checkSig flags [] scriptSig).1.stack))))) := by
  rw [accepts, verifyScript]
  cases hasFlag flags verifySigPushOnly && !scriptSig.isPushOnly with
  | true => rfl
  | false =>
    rw [if_neg (by decide), Bool.not_false, Bool.true_and]
    rcases evalScript H checkSig flags [] scriptSig with ⟨st,serror | u⟩
    · rfl
    · dsimp only
      rcases require_true_cases (evalScript H checkSig flags st.stack scriptPubKey) with
        ⟨hok,hleaves⟩ | ⟨⟨serror,herr⟩,hleaves⟩
      · rw [hok, hleaves, Bool.true_and]
        cases hasFlag flags verifyP2SH && scriptPubKey.isPayToScriptHash with
        | false => rfl
        | true =>
          cases scriptSig.isPushOnly with
          | false => rfl
          | true =>
            rcases require_true_cases (evalRedeem H checkSig flags st.stack) with
              ⟨hok',hleaves'⟩ | ⟨⟨serror,herr⟩,hleaves'⟩
            · simp [hok', hleaves', succeeded]
            · simp [herr, hleaves', succeeded]
      · simp [herr, hleaves]

end CheckedScript

end SwippCore

namespace SwippCore.ScriptAgreement
open Attempt EvalState Opcodetype Fetch

abbrev unnamed : ScriptError → Unit := fun _ => ()

section Numbers
variable (flags : ℕ) (hflags : hasFlag flags verifyMinimalData = false)
include hflags

theorem script_num_eq : CheckedScript.scriptNum flags = castToBigNum := by
  funext vch
  rw [CheckedScript.scriptNum, CheckedScript.fRequireMinimal, hflags, cast_to_big_num_eq]

theorem script_int_eq : CheckedScript.scriptInt flags = BigNumScript.castToInt := by
  funext vch
  rw [CheckedScript.scriptInt, BigNumScript.castToInt, script_num_eq flags hflags]
  cases h : castToBigNum vch with
  | none => rfl
  | some n =>
    rw [cast_to_big_num_eq] at h
    simp only [Option.map_some, getint_eq (CScriptNum.of_vch_bounds h)]

end Numbers

theorem operand_bounds {vch : Valtype} {n : ℤ} (h : castToBigNum vch = some n) :
    -0x80000000 < n ∧ n < 0x80000000 := by
  rw [cast_to_big_num_eq] at h
  exact CScriptNum.of_vch_bounds h

theorem unary_eq (opcode : Opcodetype) {n : ℤ} (h : -0x80000000 < n ∧ n < 0x80000000) :
    CheckedScript.unary opcode n = BigNumScript.unary opcode n := by
  have hadd := int64_small (n+1) (by omega)
  have hsub := int64_small (n-1) (by omega)
  have hneg := int64_small (-n) (by omega)
  unfold CheckedScript.unary BigNumScript.unary
  cases opcode <;> simp only [hadd, hsub, hneg] <;> rfl

theorem binary_eq (opcode : Opcodetype) {n m : ℤ} (hn : -0x80000000 < n ∧ n < 0x80000000)
    (hm : -0x80000000 < m ∧ m < 0x80000000) :
    CheckedScript.binary opcode n m = BigNumScript.binary opcode n m := by
  have hadd := int64_small (n+m) (by omega)
  have hsub := int64_small (n-m) (by omega)
  unfold CheckedScript.binary BigNumScript.binary
  cases opcode <;> simp only [hadd, hsub] <;> rfl

section Steps
variable (H : Hashes) (checkSig checkSig' : Valtype → Valtype → CScript → Bool) (flags : ℕ)

theorem branch_agrees (fNot : Bool) (st : EvalState) :
    relabel unnamed (CheckedScript.branch fNot st) = BigNumScript.branch fNot st := by
  unfold CheckedScript.branch BigNumScript.branch
  split
  · rw [relabel_take1]
    rfl
  · rfl

theorem unary_agrees (opcode : Opcodetype) (st : EvalState) (x : Valtype) (s : List Valtype) :
    (number castToBigNum () st x fun bn =>
      st.leave (CScriptNum.serialize (CheckedScript.unary opcode bn)::s)) =
    number castToBigNum () st x fun bn =>
      st.leave (CScriptNum.serialize (BigNumScript.unary opcode bn)::s) :=
  number_congr () st castToBigNum x _ _ fun bn hbn => by
    rw [unary_eq opcode (operand_bounds hbn)]

theorem binary_agrees (opcode : Opcodetype) (st : EvalState) (x1 x2 : Valtype)
    (k : ℤ → Result EvalState Unit) :
    (number castToBigNum () st x1 fun bn1 =>
      number castToBigNum () st x2 fun bn2 => k (CheckedScript.binary opcode bn1 bn2)) =
    number castToBigNum () st x1 fun bn1 =>
      number castToBigNum () st x2 fun bn2 => k (BigNumScript.binary opcode bn1 bn2) :=
  number_congr () st castToBigNum x1 _ _ fun bn1 hbn1 =>
    number_congr () st castToBigNum x2 _ _ fun bn2 hbn2 => by
      rw [binary_eq opcode (operand_bounds hbn1) (operand_bounds hbn2)]

variable {opcode : Opcodetype}

theorem small_push (h : opcode.code ≤ 0x60) :
    int64 ((opcode.code : ℤ)-0x50) = (opcode.code : ℤ)-0x50 := int64_small _ (by omega)

variable (hflags : hasFlag flags verifyMinimalData = false)
include hflags

theorem exec_op_agrees (hop : opcode.checksSignatures = false) (pc : CScript) (st : EvalState) :
    relabel unnamed (CheckedScript.execOp H checkSig flags opcode pc st) =
      BigNumScript.execOp H checkSig' flags opcode pc st := by
  have hnum := script_num_eq flags hflags
  have hint := script_int_eq flags hflags
  unfold CheckedScript.execOp BigNumScript.execOp
  cases opcode with
  | opCheckSig | opCheckSigVerify | opCheckMultiSig | opCheckMultiSigVerify => cases hop
  | opIf | opNotIf => exact branch_agrees _ st
  | opElse | opEndIf => dsimp only; cases st.vfExec <;> rfl
  | opFromAltStack => dsimp only; cases st.altstack <;> rfl
  | op1Negate => rw [relabel_leave, small_push (by decide), getvch_eq_serialize]
  | opN k =>
    have hk : (opN k).code ≤ 0x60 := by rw [code]; omega
    rw [relabel_leave, small_push hk, getvch_eq_serialize]
  | opNopN k => simp only [relabel_ite, relabel_fail, relabel_done]
  | op1Add | op1Sub | opNegate | opAbs | opNot | op0NotEqual =>
    simp only [relabel_take1, relabel_number, relabel_leave, hnum, unary_agrees,
      getvch_eq_serialize]
  | opAdd | opSub | opBoolAnd | opBoolOr | opNumEqual | opNumNotEqual | opLessThan
  | opGreaterThan | opLessThanOrEqual | opGreaterThanOrEqual | opMin | opMax =>
    simp only [relabel_take2, relabel_number, relabel_leave, hnum, getvch_eq_serialize]
    refine congrArg (st.take2 ()) (funext fun x1 => funext fun x2 => funext fun s => ?_)
    exact binary_agrees _ st x1 x2 fun n => st.leave (CScriptNum.serialize n::s)
  | opNumEqualVerify =>
    simp only [relabel_take2, relabel_number, relabel_ite, relabel_leave, relabel_fail, hnum,
      getvch_eq_serialize]
    refine congrArg (st.take2 ()) (funext fun x1 => funext fun x2 => funext fun s => ?_)
    exact binary_agrees _ st x1 x2 fun n =>
      if castToBool (CScriptNum.serialize n) then st.leave s
      else fail (st.withStack (CScriptNum.serialize n::s)) ()
  | _ =>
    simp only [relabel_take1, relabel_take2, relabel_take3, relabel_take4, relabel_take6,
      relabel_number, relabel_pick, relabel_verdict, relabel_leave, relabel_done, relabel_fail,
      relabel_ite, hnum, hint, getvch_eq_serialize] <;> rfl

theorem execute_agrees (hop : opcode.checksSignatures = false) (vchPushValue : Valtype)
    (pc : CScript) (st : EvalState) :
    relabel unnamed (CheckedScript.execute H checkSig flags opcode vchPushValue pc st) =
      BigNumScript.execute H checkSig' flags opcode vchPushValue pc st := by
  unfold CheckedScript.execute BigNumScript.execute
  simp only [CheckedScript.fRequireMinimal, hflags, Bool.false_and, Bool.false_eq_true, if_false,
    relabel_ite, relabel_leave, relabel_done,
    exec_op_agrees H checkSig checkSig' flags hflags hop]

theorem step_agrees {i : (Opcodetype × Valtype) × CScript} (hop : i.1.1.checksSignatures = false)
    (st : EvalState) :
    relabel unnamed (CheckedScript.step H checkSig flags i st) =
      BigNumScript.step H checkSig' flags i st := by
  unfold CheckedScript.step BigNumScript.step
  simp only [relabel_ite, relabel_fail, relabel_and_then, relabel_done,
    execute_agrees H checkSig checkSig' flags hflags hop]
  rfl

theorem eval_script_agrees (stack : List Valtype) (script : CScript)
    (hops : ∀ i ∈ script.ops, i.1.1.checksSignatures = false) :
    relabel unnamed (CheckedScript.evalScript H checkSig flags stack script) =
      BigNumScript.evalScript H checkSig' flags stack script := by
  have hloop := relabel_loop CScript.getOp unnamed (CheckedScript.step H checkSig flags)
    (BigNumScript.step H checkSig' flags) .badOpcode
    (fun i hi => step_agrees H checkSig checkSig' flags hflags (hops i hi))
  rw [CheckedScript.evalScript, BigNumScript.evalScript, relabel_ite, relabel_fail,
    relabel_and_then, hloop]
  simp only [relabel_ite, relabel_done, relabel_fail]

end Steps

theorem succeeded_relabel {S ε δ : Type} (f : ε → δ) (r : Result S ε) :
    succeeded (relabel f r) = succeeded r := by
  rcases r with ⟨s,_ | _⟩ <;> rfl

theorem relabel_fst {S ε δ : Type} (f : ε → δ) (r : Result S ε) : (relabel f r).1 = r.1 := by
  rcases r with ⟨s,_ | _⟩ <;> rfl

theorem leaves_true_relabel {ε δ : Type} (f : ε → δ) (r : Result EvalState ε) :
    leavesTrue (relabel f r) = leavesTrue r := by
  rw [leavesTrue, leavesTrue, succeeded_relabel, relabel_fst]

def ChecksNothing (script : CScript) : Prop := ∀ i ∈ script.ops, i.1.1.checksSignatures = false

instance (script : CScript) : Decidable (ChecksNothing script) :=
  inferInstanceAs (Decidable (∀ i ∈ script.ops, i.1.1.checksSignatures = false))

/-- The interpreters agree on every script without signature checks: on the verdict, and
on the stack. Where the flags ask for no other rule about which scripts are run and how
they are written, `VerifyScript` then agrees too. -/
theorem interpreters_agree (H : Hashes) (checkSig checkSig' : Valtype → Valtype → CScript → Bool)
    (flags : ℕ) (hflags : hasFlag flags verifyMinimalData = false) :
    (∀ (stack : List Valtype) (script : CScript), ChecksNothing script →
      succeeded (CheckedScript.evalScript H checkSig flags stack script) =
        succeeded (BigNumScript.evalScript H checkSig' flags stack script) ∧
      (succeeded (BigNumScript.evalScript H checkSig' flags stack script) = true →
        (CheckedScript.evalScript H checkSig flags stack script).1.stack =
          (BigNumScript.evalScript H checkSig' flags stack script).1.stack)) ∧
    (∀ scriptSig scriptPubKey : CScript, ChecksNothing scriptSig → ChecksNothing scriptPubKey →
      (∀ redeem ∈ (BigNumScript.evalScript H checkSig' flags [] scriptSig).1.stack.head?,
        ChecksNothing redeem) →
      (hasFlag flags verifyP2SH = true ∨ scriptPubKey.isPayToScriptHash = false) →
      (hasFlag flags verifySigPushOnly = false ∨ scriptSig.isPushOnly = true) →
      CheckedScript.accepts H checkSig flags scriptSig scriptPubKey =
        BigNumScript.verifyScript H checkSig' flags scriptSig scriptPubKey) := by
  have hagree := eval_script_agrees H checkSig checkSig' flags hflags
  refine ⟨fun stack script hops => ?_,fun scriptSig scriptPubKey hsig hkey hredeem hp2sh hpush => ?_⟩
  · rw [← hagree stack script hops, succeeded_relabel, relabel_fst]
    exact ⟨rfl,fun _ => rfl⟩
  · rw [CheckedScript.accepts_eq, BigNumScript.verifyScript]
    have hrun := hagree [] scriptSig hsig
    have hstack := congrArg Prod.fst hrun
    rw [relabel_fst] at hstack
    rw [← hstack] at hredeem
    have hkeyRun := hagree (CheckedScript.evalScript H checkSig flags [] scriptSig).1.stack
      scriptPubKey hkey
    have hredeemRun : leavesTrue (CheckedScript.evalRedeem H checkSig flags
        (CheckedScript.evalScript H checkSig flags [] scriptSig).1.stack) =
      leavesTrue (BigNumScript.evalRedeem H checkSig' flags
        (CheckedScript.evalScript H checkSig flags [] scriptSig).1.stack) := by
      revert hredeem
      rcases (CheckedScript.evalScript H checkSig flags [] scriptSig).1.stack with _ | ⟨redeem,s⟩
      · exact fun _ => rfl
      · intro hredeem
        rw [BigNumScript.evalRedeem, ← hagree s redeem (hredeem redeem rfl), leaves_true_relabel]
        rfl
    rw [hredeemRun, ← hrun, succeeded_relabel, relabel_fst, ← hkeyRun, leaves_true_relabel]
    have hnopush : (hasFlag flags verifySigPushOnly && !scriptSig.isPushOnly) = false := by
      rcases hpush with h | h <;> simp [h]
    have hwhich : (hasFlag flags verifyP2SH && scriptPubKey.isPayToScriptHash) =
        scriptPubKey.isPayToScriptHash := by
      rcases hp2sh with h | h <;> simp [h]
    rw [hnopush, hwhich]
    cases succeeded (CheckedScript.evalScript H checkSig flags [] scriptSig) <;>
      cases leavesTrue (CheckedScript.evalScript H checkSig flags
        (CheckedScript.evalScript H checkSig flags [] scriptSig).1.stack scriptPubKey) <;>
      cases scriptPubKey.isPayToScriptHash <;> cases scriptSig.isPushOnly <;> rfl

/-- `1 IF 5 ELSE 6 ENDIF` over the standard flags. -/
theorem branch_agreed :
    succeeded (CheckedScript.evalScript sampleHashes (fun _ _ _ => true)
        standardScriptVerifyFlags [[7]] [0x51,0x63,0x55,0x67,0x56,0x68]) =
      succeeded (BigNumScript.evalScript sampleHashes (fun _ _ _ => false)
        standardScriptVerifyFlags [[7]] [0x51,0x63,0x55,0x67,0x56,0x68]) ∧
    (CheckedScript.evalScript sampleHashes (fun _ _ _ => true)
        standardScriptVerifyFlags [[7]] [0x51,0x63,0x55,0x67,0x56,0x68]).1.stack = [[5],[7]] := by
  obtain ⟨hverdict,hstack⟩ := (interpreters_agree sampleHashes (fun _ _ _ => true)
    (fun _ _ _ => false) standardScriptVerifyFlags (by decide)).1 [[7]]
    [0x51,0x63,0x55,0x67,0x56,0x68] (by decide +kernel)
  exact ⟨hverdict,(hstack (by decide +kernel)).trans (by decide +kernel)⟩

end SwippCore.ScriptAgreement
