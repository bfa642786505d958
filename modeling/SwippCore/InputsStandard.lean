import SwippCore.SigOpLimits
import SwippCore.Standard

/-!
# Standard inputs

`AreInputsStandard` looks at the inputs one after the other. A redeem script of
no known type ends the loop: with few enough signature operations the answer is
yes, and the inputs after it are not looked at.
-/

set_option autoImplicit false

namespace FirstVerdict
variable {α : Type} (f : α → Option Bool)

def firstVerdict : List α → Bool
  | [] => true
  | x::xs =>
    match f x with
    | some verdict => verdict
    | none => firstVerdict xs

def Accepted (xs : List α) : Prop := ∀ x ∈ xs, f x ≠ some false

theorem first_verdict_accepted {xs : List α} (h : Accepted f xs) : firstVerdict f xs = true := by
  induction xs with
  | nil => rfl
  | cons x xs ih =>
    rw [firstVerdict]
    cases hx : f x with
    | none => exact ih (fun y hy => h y (by simp [hy]))
    | some verdict =>
      cases verdict with
      | true => rfl
      | false => exact absurd hx (h x (by simp))

theorem first_verdict_unhurried {xs : List α} (h : ∀ x ∈ xs, f x ≠ some true)
    (ht : firstVerdict f xs = true) : Accepted f xs := by
  induction xs with
  | nil => simp [Accepted]
  | cons x xs ih =>
    rw [firstVerdict] at ht
    cases hx : f x with
    | none =>
      rw [hx] at ht
      intro y hy
      rcases List.mem_cons.mp hy with rfl | hy
      · simp [hx]
      · exact ih (fun z hz => h z (by simp [hz])) ht y hy
    | some verdict =>
      rw [hx] at ht
      exact absurd (hx.trans (congrArg some ht)) (h x (by simp))

/-- In every order the answer is that of all the passes, exactly where none of them is
against it or none returns yes. -/
theorem any_order_iff (xs : List α) :
    (∀ ys : List α, ys.Perm xs → (firstVerdict f ys = true ↔ Accepted f xs)) ↔
      Accepted f xs ∨ ∀ x ∈ xs, f x ≠ some true := by
  constructor
  · intro h
    by_cases hx : ∃ x ∈ xs, f x = some true
    · obtain ⟨x,hmem,hx⟩ := hx
      obtain ⟨a,b,rfl⟩ := List.append_of_mem hmem
      have hfront := h (x::(a++b)) List.perm_middle.symm
      rw [firstVerdict, hx] at hfront
      exact Or.inl (hfront.mp rfl)
    · exact Or.inr (fun x hmem he => hx ⟨x,hmem,he⟩)
  · intro h ys hp
    have hsame : Accepted f ys ↔ Accepted f xs :=
      ⟨fun ha x hx => ha x (hp.symm.subset hx),fun ha x hx => ha x (hp.subset hx)⟩
    rcases h with h | h
    · exact ⟨fun _ => h,fun _ => first_verdict_accepted f (hsame.mpr h)⟩
    · constructor
      · intro ht
        exact hsame.mp (first_verdict_unhurried f (fun x hx => h x (hp.subset hx)) ht)
      · intro ha
        exact first_verdict_accepted f (hsame.mpr ha)

end FirstVerdict

namespace SwippCore.InputsStandard
open Standard Attempt Opcodetype FirstVerdict

def maxP2SHSigOps : ℕ := 15

def scriptSigArgsExpected : TxnOutType → List Valtype → ℤ
  | .nonStandard, _ => -1
  | .nullData, _ => -1
  | .pubKey, _ => 1
  | .pubKeyHash, _ => 2
  | .multiSig, (m::_)::_ => m.toNat+1
  | .multiSig, _ => -1
  | .scriptHash, _ => 1

@[simp] theorem args_script_hash (vSolutions : List Valtype) :
    scriptSigArgsExpected .scriptHash vSolutions = 1 := rfl

variable (H : Hashes) (checkSig : CTransaction → ℕ → ℕ → Valtype → Valtype → CScript → Bool)

section Inputs
variable (prevs : COutPoint → CTxOut) (tx : CTransaction)

/-- The stack that the script of an input leaves, unless it fails; `SCRIPT_VERIFY_NONE` is 0. -/
def sigStack (x : CTxIn × ℕ) : Option (List Valtype) :=
  let run := BigNumScript.evalScript H (checkSig tx x.2 0) 0 [] x.1.scriptSig
  if succeeded run then some run.1.stack else none

def examineRedeem (nArgsExpected : ℤ) (subscript : CScript) (size : ℕ) : Option Bool :=
  match solver subscript with
  | some (whichType2,vSolutions2) =>
    let tmpExpected := scriptSigArgsExpected whichType2 vSolutions2
    if tmpExpected < 0 then some false
    else if (size:ℤ) ≠ nArgsExpected+tmpExpected then some false
    else none
  -- returns for the whole transaction
  | none => some (CScript.getSigOpCount true subscript ≤ maxP2SHSigOps)

def examineInput (x : CTxIn × ℕ) : Option Bool :=
  match solver (prevs x.1.prevout).scriptPubKey with
  | none => some false
  | some (whichType,vSolutions) =>
    let nArgsExpected := scriptSigArgsExpected whichType vSolutions
    if nArgsExpected < 0 then some false
    else
      match sigStack H checkSig tx x with
      | none => some false
      | some stack =>
        if whichType = .scriptHash then
          match stack with
          | [] => some false
          | subscript::_ => examineRedeem nArgsExpected subscript stack.length
        else if (stack.length:ℤ) ≠ nArgsExpected then some false
        else none

/-- `AreInputsStandard`, on inputs in some order; the source takes that of `vin`. -/
def inputsStandard (is : List (CTxIn × ℕ)) : Bool :=
  tx.isCoinBase || firstVerdict (examineInput H checkSig prevs tx) is

def areInputsStandard : Bool := inputsStandard H checkSig prevs tx tx.vin.zipIdx

/-- A redeem script of a known type with its arguments on the stack, or any other script
with few enough signature operations. -/
def RedeemStandard (subscript : CScript) (size : ℕ) : Prop :=
  match solver subscript with
  | some (whichType,vSolutions) => 0 ≤ scriptSigArgsExpected whichType vSolutions ∧
    (size:ℤ) = 1+scriptSigArgsExpected whichType vSolutions
  | none => CScript.getSigOpCount true subscript ≤ maxP2SHSigOps

def StandardInput (x : CTxIn × ℕ) : Prop :=
  ∃ whichType vSolutions stack,
    solver (prevs x.1.prevout).scriptPubKey = some (whichType,vSolutions) ∧
    0 ≤ scriptSigArgsExpected whichType vSolutions ∧ sigStack H checkSig tx x = some stack ∧
    if whichType = .scriptHash then
      ∃ subscript rest, stack = subscript::rest ∧ RedeemStandard subscript stack.length
    else (stack.length:ℤ) = scriptSigArgsExpected whichType vSolutions

def UnknownRedeem (x : CTxIn × ℕ) : Prop :=
  ∃ vSolutions subscript rest,
    solver (prevs x.1.prevout).scriptPubKey = some (.scriptHash,vSolutions) ∧
    sigStack H checkSig tx x = some (subscript::rest) ∧ solver subscript = none ∧
    CScript.getSigOpCount true subscript ≤ maxP2SHSigOps

theorem redeem_yes_iff (nArgsExpected : ℤ) (subscript : CScript) (size : ℕ) :
    examineRedeem nArgsExpected subscript size = some true ↔
      solver subscript = none ∧ CScript.getSigOpCount true subscript ≤ maxP2SHSigOps := by
  unfold examineRedeem
  cases solver subscript with
  | none => simp
  | some s =>
    dsimp only
    split_ifs <;> simp

theorem redeem_not_no_iff (subscript : CScript) (size : ℕ) :
    examineRedeem 1 subscript size ≠ some false ↔ RedeemStandard subscript size := by
  unfold examineRedeem RedeemStandard
  cases solver subscript with
  | none => simp
  | some s =>
    dsimp only
    split_ifs with hneg hsize
    · simp [not_le.mpr hneg]
    · simp [hsize]
    · simp [not_lt.mp hneg, not_not.mp hsize]

theorem examine_yes_iff (x : CTxIn × ℕ) :
    examineInput H checkSig prevs tx x = some true ↔ UnknownRedeem H checkSig prevs tx x := by
  unfold examineInput UnknownRedeem
  cases solver (prevs x.1.prevout).scriptPubKey with
  | none => simp
  | some s =>
    obtain ⟨whichType,vSolutions⟩ := s
    by_cases ht : whichType = .scriptHash
    · subst ht
      cases sigStack H checkSig tx x with
      | none => simp
      | some stack =>
        cases stack with
        | nil => simp
        | cons subscript rest => simp [redeem_yes_iff]
    · cases sigStack H checkSig tx x with
      | none => simp
      | some stack =>
        simp only [if_neg ht]
        split_ifs <;> simp [ht]

theorem examine_not_no_iff (x : CTxIn × ℕ) :
    examineInput H checkSig prevs tx x ≠ some false ↔ StandardInput H checkSig prevs tx x := by
  unfold examineInput StandardInput
  cases solver (prevs x.1.prevout).scriptPubKey with
  | none => simp
  | some s =>
    obtain ⟨whichType,vSolutions⟩ := s
    cases sigStack H checkSig tx x with
    | none => simp
    | some stack =>
      by_cases ht : whichType = .scriptHash
      · subst ht
        cases stack with
        | nil => simp
        | cons subscript rest => simp [redeem_not_no_iff]
      · by_cases hneg : scriptSigArgsExpected whichType vSolutions < 0
        · simp [hneg]
        · simp [hneg, not_lt.mp hneg, ht]

end Inputs

section Pushes
variable (prevs : COutPoint → CTxOut)

theorem push_step (check check' : Valtype → Valtype → CScript → Bool) (flags : ℕ)
    (i : (Opcodetype × Valtype) × CScript) (hi : i.1.1.code ≤ 0x60) (st : EvalState) :
    BigNumScript.step H check flags i st = BigNumScript.step H check' flags i st := by
  have hexec : ∀ st, BigNumScript.execute H check flags i.1.1 i.1.2 i.2 st =
      BigNumScript.execute H check' flags i.1.1 i.1.2 i.2 st := by
    intro st
    unfold BigNumScript.execute
    by_cases hlow : i.1.1.code ≤ 0x4e
    · have hno : ¬ (0x63 ≤ i.1.1.code) := by omega
      cases st.fExec <;> simp [hlow, hno]
    · rcases SigOpLimits.between_pushes hlow hi with h | h | ⟨k,h⟩ <;> rw [h] <;> rfl
  unfold BigNumScript.step
  simp only [hexec]

section
variable (tx tx' : CTransaction) {i : CTxIn} (k k' : ℕ) (hpush : i.scriptSig.isPushOnly = true)
include hpush

theorem push_only_stack :
    sigStack H checkSig tx' (i,k') = sigStack H checkSig tx (i,k) := by
  have hrun : BigNumScript.evalScript H (checkSig tx' k' 0) 0 [] i.scriptSig =
      BigNumScript.evalScript H (checkSig tx k 0) 0 [] i.scriptSig := by
    rw [CScript.isPushOnly, Bool.and_eq_true, List.all_eq_true] at hpush
    have hall := for_all_agree (BigNumScript.step H (checkSig tx' k' 0) 0)
      (BigNumScript.step H (checkSig tx k 0) 0) (Fetch.items CScript.getOp i.scriptSig)
      (fun j hj => push_step H _ _ 0 j (of_decide_eq_true (hpush.1 j hj)))
    unfold BigNumScript.evalScript Fetch.loop
    simp only [hall]
  unfold sigStack
  rw [hrun]

theorem push_only_examined :
    examineInput H checkSig prevs tx' (i,k') = examineInput H checkSig prevs tx (i,k) := by
  unfold examineInput
  rw [push_only_stack H checkSig tx tx' k k' hpush]

end

theorem coin_base_perm {tx : CTransaction} {vin' : List CTxIn} (hp : vin'.Perm tx.vin) :
    CTransaction.isCoinBase { tx with vin := vin' } = tx.isCoinBase := by
  unfold CTransaction.isCoinBase
  cases hv : tx.vin with
  | nil =>
    rw [hv] at hp
    simp [hp.eq_nil]
  | cons i is =>
    cases is with
    | nil =>
      rw [hv] at hp
      simp [List.perm_singleton.mp hp]
    | cons j js =>
      rw [hv] at hp
      obtain ⟨a,b,as,hab⟩ : ∃ a b as, vin' = a::b::as := by
        match vin', hp.length_eq with
        | a::b::as, _ => exact ⟨a,b,as,rfl⟩
      simp [hab]

theorem first_verdict_agree {α β : Type} (f : α → Option Bool) (g : β → Option Bool)
    (as : List α) (bs : List β) (h : List.Forall₂ (fun a b => f a = g b) as bs) :
    firstVerdict f as = firstVerdict g bs := by
  induction h with
  | nil => rfl
  | cons hab _ ih => rw [firstVerdict, firstVerdict, hab, ih]

/-- With scripts that only push, as `IsStandardTx` demands, another order of the inputs is
another order of the passes. -/
theorem reordered_push_only (tx : CTransaction) (vin' : List CTxIn) (hp : vin'.Perm tx.vin)
    (hpush : ∀ i ∈ tx.vin, i.scriptSig.isPushOnly = true) :
    ∃ is, is.Perm tx.vin.zipIdx ∧ areInputsStandard H checkSig prevs { tx with vin := vin' } =
      inputsStandard H checkSig prevs tx is := by
  have hzip : List.Forall₂ (fun i (x : CTxIn × ℕ) => i = x.1) tx.vin tx.vin.zipIdx := by
    rw [List.forall₂_iff_get]
    simp
  obtain ⟨is,his,hperm⟩ := List.perm_comp_forall₂ hp hzip
  refine ⟨is,hperm,?_⟩
  rw [areInputsStandard, inputsStandard, inputsStandard, coin_base_perm hp]
  congr 1
  apply first_verdict_agree
  rw [List.forall₂_iff_get] at his ⊢
  obtain ⟨hlen,his⟩ := his
  refine ⟨by simpa using hlen,fun k hk hk' => ?_⟩
  have hsame := his k (by simpa using hk) hk'
  have hmem := hperm.subset (List.get_mem is ⟨k,hk'⟩)
  generalize is.get ⟨k,hk'⟩ = x at hsame hmem ⊢
  obtain ⟨i,n⟩ := x
  have hi : i ∈ tx.vin := List.fst_mem_of_mem_zipIdx hmem
  have hget : vin'.zipIdx.get ⟨k,hk⟩ = (i,k) := by simpa using hsame
  rw [hget]
  exact push_only_examined H checkSig prevs tx _ n k (hpush i hi)

end Pushes

section Verdict
variable (prevs : COutPoint → CTxOut) (tx : CTransaction)

/-- In whatever order the inputs are looked at, the answer is yes exactly when each of them
is standard on its own; a coinbase does not use them. -/
def InAnyOrder : Prop :=
  ∀ is, is.Perm tx.vin.zipIdx → (inputsStandard H checkSig prevs tx is = true ↔
    tx.isCoinBase = true ∨ ∀ x ∈ tx.vin.zipIdx, StandardInput H checkSig prevs tx x)

theorem in_any_order_coin_base (h : tx.isCoinBase = true) : InAnyOrder H checkSig prevs tx := by
  intro is _
  simp [inputsStandard, h]

/-- The answer is that of the inputs, one by one, exactly where it is yes for each, or where
none of them ends the loop with an unknown redeem script. -/
theorem inputs_standard_iff :
    (InAnyOrder H checkSig prevs tx ↔ tx.isCoinBase = true ∨
      (∀ x ∈ tx.vin.zipIdx, StandardInput H checkSig prevs tx x) ∨
      ∀ x ∈ tx.vin.zipIdx, ¬ UnknownRedeem H checkSig prevs tx x) ∧
    ∀ vin' : List CTxIn, vin'.Perm tx.vin → (∀ i ∈ tx.vin, i.scriptSig.isPushOnly = true) →
      ∃ is, is.Perm tx.vin.zipIdx ∧ areInputsStandard H checkSig prevs { tx with vin := vin' } =
        inputsStandard H checkSig prevs tx is := by
  refine ⟨?_,reordered_push_only H checkSig prevs tx⟩
  by_cases hc : tx.isCoinBase = true
  · simp [hc, in_any_order_coin_base H checkSig prevs tx hc]
  · have hiff := any_order_iff (examineInput H checkSig prevs tx) tx.vin.zipIdx
    unfold Accepted at hiff
    simp only [examine_not_no_iff, ne_eq, examine_yes_iff] at hiff
    simpa [InAnyOrder, inputsStandard, hc] using hiff

end Verdict

section Samples

def sampleHashes : Hashes := ⟨fun _ => [],fun _ => [],fun _ => []⟩

/-- An input whose script pushes `OP_NOP` as the redeem script, and one without a script. -/
def nopInput : CTxIn := ⟨⟨1,0⟩,[0x01,0x61],0⟩
def bareInput : CTxIn := ⟨⟨2,0⟩,[],0⟩

def samplePrevs (o : COutPoint) : CTxOut :=
  if o.hash = 1 then ⟨coin,[0xa9,0x14]++List.replicate 20 7++[0x87]⟩ else ⟨coin,[0x61]⟩

/-- After the unknown redeem script of the first input the second one is not looked at. -/
theorem later_input_unexamined :
    areInputsStandard sampleHashes (fun _ _ _ _ _ _ => false) samplePrevs
      ⟨1,5,[nopInput,bareInput],[],0⟩ = true ∧
    areInputsStandard sampleHashes (fun _ _ _ _ _ _ => false) samplePrevs
      ⟨1,5,[bareInput,nopInput],[],0⟩ = false ∧
    ¬ InAnyOrder sampleHashes (fun _ _ _ _ _ _ => false) samplePrevs
      ⟨1,5,[nopInput,bareInput],[],0⟩ := by
  have hyes : areInputsStandard sampleHashes (fun _ _ _ _ _ _ => false) samplePrevs
      ⟨1,5,[nopInput,bareInput],[],0⟩ = true := by decide +kernel
  refine ⟨hyes,by decide +kernel,fun h => ?_⟩
  rcases (h _ (.refl _)).mp hyes with hc | hall
  · exact absurd hc (by decide)
  · obtain ⟨whichType,vSolutions,stack,hsolver,-⟩ := hall (bareInput,1) (by simp)
    rw [show solver (samplePrevs bareInput.prevout).scriptPubKey = none by decide] at hsolver
    cases hsolver

end Samples

end SwippCore.InputsStandard
