import SwippCore.Script

/-!
# Evaluation of scripts

The state of the stack machine and the two evaluators that run on it.
-/

set_option autoImplicit false

/-!
## What an interpreter run works on

The local variables of `EvalScript` and the ways to take values off the stack, shared by the two
interpreters. A list stands for a vector with its last element first, so that the head of
`stack` is `stacktop(-1)`.
-/

namespace SwippCore
open Attempt

abbrev Valtype := List UInt8

def maxScriptElementSize : ℕ := 520

inductive ScriptError where
  | unknownError | evalFalse | opReturn
  | scriptSize | pushSize | opCount | stackSize | sigCount | pubkeyCount
  | verify | equalVerify | checkMultiSigVerify | checkSigVerify | numEqualVerify
  | badOpcode | disabledOpcode | invalidStackOperation | invalidAltstackOperation
  | unbalancedConditional
  | sigHashtype | sigDer | minimalData | sigPushOnly | sigHighS | sigNullDummy | pubkeyType
  | discourageUpgradableNops
  deriving DecidableEq, Repr

/-- The local variables of `EvalScript`: `codehash` is the script from `pbegincodehash` on.
`nCheckSig` counts the calls of `CheckSig`; the source does not keep it. -/
structure EvalState where
  stack : List Valtype
  altstack : List Valtype
  vfExec : List Bool
  nOpCount : ℕ
  codehash : CScript
  nCheckSig : ℕ
  deriving DecidableEq, Repr

structure Hashes where
  ripemd160 : Valtype → Valtype
  sha1 : Valtype → Valtype
  sha256 : Valtype → Valtype

namespace Hashes
variable (H : Hashes)

def hash160 (vch : Valtype) : Valtype := H.ripemd160 (H.sha256 vch)

def hash (vch : Valtype) : Valtype := H.sha256 (H.sha256 vch)

end Hashes

def sampleHashes : Hashes where
  ripemd160 vch := vch
  sha1 vch := vch
  sha256 vch := vch

def vchFalse : Valtype := []
def vchTrue : Valtype := [1]

def castToBool : Valtype → Bool
  | [] => false
  | [b] => b != 0 && b != 0x80
  | b::c::bs => b != 0 || castToBool (c::bs)

namespace EvalState
variable {ε : Type}

def start (stack : List Valtype) (script : CScript) : EvalState := ⟨stack,[],[],0,script,0⟩

def fExec (st : EvalState) : Bool := st.vfExec.all id

def withStack (st : EvalState) (s : List Valtype) : EvalState := { st with stack := s }

def leave (st : EvalState) (s : List Valtype) : Result EvalState ε := done (st.withStack s)

def take1 (e : ε) (st : EvalState) (f : Valtype → List Valtype → Result EvalState ε) :
    Result EvalState ε :=
  match st.stack with
  | x1::s => f x1 s
  | _ => fail st e

def take2 (e : ε) (st : EvalState) (f : Valtype → Valtype → List Valtype → Result EvalState ε) :
    Result EvalState ε :=
  match st.stack with
  | x2::x1::s => f x1 x2 s
  | _ => fail st e

def take3 (e : ε) (st : EvalState)
    (f : Valtype → Valtype → Valtype → List Valtype → Result EvalState ε) : Result EvalState ε :=
  match st.stack with
  | x3::x2::x1::s => f x1 x2 x3 s
  | _ => fail st e

def take4 (e : ε) (st : EvalState)
    (f : Valtype → Valtype → Valtype → Valtype → List Valtype → Result EvalState ε) :
    Result EvalState ε :=
  match st.stack with
  | x4::x3::x2::x1::s => f x1 x2 x3 x4 s
  | _ => fail st e

def take6 (e : ε) (st : EvalState)
    (f : Valtype → Valtype → Valtype → Valtype → Valtype → Valtype → List Valtype →
      Result EvalState ε) : Result EvalState ε :=
  match st.stack with
  | x6::x5::x4::x3::x2::x1::s => f x1 x2 x3 x4 x5 x6 s
  | _ => fail st e

def number {α : Type} (read : α → Option ℤ) (e : ε) (st : EvalState) (x : α)
    (f : ℤ → Result EvalState ε) : Result EvalState ε :=
  match read x with
  | none => fail st e
  | some n => f n

/-- Push a verdict, which the `VERIFY` form of an opcode takes off again or fails on. -/
def verdict (e : ε) (fVerify fSuccess : Bool) (st : EvalState) (s : List Valtype) :
    Result EvalState ε :=
  if !fVerify then st.leave ((if fSuccess then vchTrue else vchFalse)::s)
  else if fSuccess then st.leave s
  else fail (st.withStack (vchFalse::s)) e

/-- `OP_PICK` and `OP_ROLL` behind their number. The stack size is compared as an `int`. -/
def pick (e : ε) (fRoll : Bool) (st : EvalState) (s : List Valtype) (n : ℤ) : Result EvalState ε :=
  if n < 0 || int32 s.length ≤ n then fail (st.withStack s) e
  else
    match s[n.toNat]? with
    | none => fail (st.withStack s) e
    | some vch => st.leave (vch::if fRoll then s.eraseIdx n.toNat else s)

section Signatures
variable (err : ScriptError → ε)

/-- The loop of `OP_CHECKMULTISIG`, over the keys and the signatures from the top of the
stack down: its outcome, and how often `CheckSig` was called. What `accept` answers for a
signature and a key is whether the signature is good, and whether `CheckSig` was asked. -/
def matchSigs (accept : Valtype → Valtype → Except ε (Bool × Bool)) :
    List Valtype → List Valtype → Except ε Bool × ℕ
  | _, [] => (.ok true,0)
  | [], _::_ => (.ok false,0)
  | vchPubKey::keys, vchSig::sigs =>
    match accept vchSig vchPubKey with
    | .error e => (.error e,0)
    | .ok (fOk,asked) =>
      let sigs := if fOk then sigs else vchSig::sigs
      if keys.length < sigs.length then (.ok false,asked.toNat)
      else ((matchSigs accept keys sigs).1,asked.toNat+(matchSigs accept keys sigs).2)

/-- `OP_CHECKSIG` and `OP_CHECKSIGVERIFY`; `accept` gets the script code first. -/
def checkSigOp (accept : CScript → Valtype → Valtype → Except ε (Bool × Bool)) (fVerify : Bool)
    (st : EvalState) : Result EvalState ε :=
  st.take2 (err .invalidStackOperation) fun vchSig vchPubKey s =>
    let scriptCode := (st.codehash.findAndDelete (CScript.push vchSig)).1
    match accept scriptCode vchSig vchPubKey with
    | .error e => fail st e
    | .ok (fSuccess,asked) =>
      verdict (err .checkSigVerify) fVerify fSuccess
        { st with nCheckSig := st.nCheckSig+asked.toNat } s

/-- The end of `OP_CHECKMULTISIG`: one more value is taken off than was looked at. -/
def dropDummy (flags : ℕ) (fVerify fSuccess : Bool) (st : EvalState) (s : List Valtype) :
    Result EvalState ε :=
  match s with
  | [] => fail (st.withStack s) (err .invalidStackOperation)
  | dummy::rest =>
    if hasFlag flags verifyNullDummy && !dummy.isEmpty then
      fail (st.withStack s) (err .sigNullDummy)
    else verdict (err .checkMultiSigVerify) fVerify fSuccess st rest

def checkSigs (accept : CScript → Valtype → Valtype → Except ε (Bool × Bool)) (flags : ℕ)
    (fVerify : Bool) (st : EvalState) (keys s : List Valtype) (nSigsCount : ℕ) :
    Result EvalState ε :=
  if s.length < nSigsCount+1 then fail st (err .invalidStackOperation)
  else
    let sigs := s.take nSigsCount
    let scriptCode :=
      sigs.foldl (fun code vchSig => (code.findAndDelete (CScript.push vchSig)).1) st.codehash
    let r := matchSigs (accept scriptCode) keys sigs
    let st := { st with nCheckSig := st.nCheckSig+r.2 }
    match r.1 with
    | .error e => fail st e
    | .ok fSuccess => dropDummy err flags fVerify fSuccess st (s.drop nSigsCount)

/-- `OP_CHECKMULTISIG` and `OP_CHECKMULTISIGVERIFY`; `read` reads a number as an `int`. -/
def checkMultiSigOp (read : Valtype → Option ℤ)
    (accept : CScript → Valtype → Valtype → Except ε (Bool × Bool)) (flags : ℕ) (fVerify : Bool)
    (st : EvalState) : Result EvalState ε :=
  st.take1 (err .invalidStackOperation) fun vchKeys s =>
    number read (err .unknownError) st vchKeys fun nKeysCount =>
      if nKeysCount < 0 || 20 < nKeysCount then fail st (err .pubkeyCount)
      else
        let st := { st with nOpCount := st.nOpCount+nKeysCount.toNat }
        if 201 < st.nOpCount then fail st (err .opCount)
        else
          match s.drop nKeysCount.toNat with
          | [] => fail st (err .invalidStackOperation)
          | vchSigs::rest =>
            number read (err .unknownError) st vchSigs fun nSigsCount =>
              if nSigsCount < 0 || nKeysCount < nSigsCount then fail st (err .sigCount)
              else
                checkSigs err accept flags fVerify st (s.take nKeysCount.toNat) rest
                  nSigsCount.toNat

end Signatures

section Relabel
open Fetch
variable {δ α : Type} (f : ε → δ) (e : ε) (st : EvalState)

@[simp] theorem relabel_leave (s : List Valtype) :
    relabel f (st.leave s) = st.leave s := rfl

@[simp] theorem relabel_take1 (k : Valtype → List Valtype → Result EvalState ε) :
    relabel f (st.take1 e k) = st.take1 (f e) fun x1 s => relabel f (k x1 s) := by
  unfold take1
  split <;> rfl

@[simp] theorem relabel_take2 (k : Valtype → Valtype → List Valtype → Result EvalState ε) :
    relabel f (st.take2 e k) = st.take2 (f e) fun x1 x2 s => relabel f (k x1 x2 s) := by
  unfold take2
  split <;> rfl

@[simp] theorem relabel_take3
    (k : Valtype → Valtype → Valtype → List Valtype → Result EvalState ε) :
    relabel f (st.take3 e k) = st.take3 (f e) fun x1 x2 x3 s => relabel f (k x1 x2 x3 s) := by
  unfold take3
  split <;> rfl

@[simp] theorem relabel_take4
    (k : Valtype → Valtype → Valtype → Valtype → List Valtype → Result EvalState ε) :
    relabel f (st.take4 e k) =
      st.take4 (f e) fun x1 x2 x3 x4 s => relabel f (k x1 x2 x3 x4 s) := by
  unfold take4
  split <;> rfl

@[simp] theorem relabel_take6
    (k : Valtype → Valtype → Valtype → Valtype → Valtype → Valtype → List Valtype →
      Result EvalState ε) :
    relabel f (st.take6 e k) =
      st.take6 (f e) fun x1 x2 x3 x4 x5 x6 s => relabel f (k x1 x2 x3 x4 x5 x6 s) := by
  unfold take6
  split <;> rfl

@[simp] theorem relabel_verdict (fVerify fSuccess : Bool) (s : List Valtype) :
    relabel f (verdict e fVerify fSuccess st s) = verdict (f e) fVerify fSuccess st s := by
  unfold verdict
  split
  · rfl
  · split <;> rfl

@[simp] theorem relabel_pick (fRoll : Bool) (s : List Valtype) (n : ℤ) :
    relabel f (pick e fRoll st s n) = pick (f e) fRoll st s n := by
  unfold pick
  split
  · rfl
  · split <;> rfl

@[simp] theorem relabel_number (read : α → Option ℤ) (x : α) (k : ℤ → Result EvalState ε) :
    relabel f (number read e st x k) = number read (f e) st x fun n => relabel f (k n) := by
  unfold number
  split <;> rfl

theorem number_congr (read : α → Option ℤ) (x : α) (k k' : ℤ → Result EvalState ε)
    (h : ∀ n, read x = some n → k n = k' n) : number read e st x k = number read e st x k' := by
  unfold number
  split
  · rfl
  · next n hn => exact h n hn

end Relabel

end EvalState

example : castToBool [0,0x80] = false := by decide

end SwippCore

/-!
## The older script interpreter

`EvalScript` with `CBigNum` numbers, which blocks and the memory pool are checked with.
`CheckSig` for the input that is checked is a parameter, as are the hash functions.
-/

namespace SwippCore
open Attempt EvalState Opcodetype

namespace BigNumScript

/-- Every failure is `return false`. -/
def err (_ : ScriptError) : Unit := ()

def isDisabled : Opcodetype → Bool
  | opCat | opSubstr | opLeft | opRight | opInvert | opAnd | opOr | opXor
  | op2Mul | op2Div | opMul | opDiv | opMod | opLShift | opRShift => true
  | _ => false

def castToInt (vch : Valtype) : Option ℤ := (castToBigNum vch).map CBigNum.getint

def unary : Opcodetype → ℤ → ℤ
  | op1Add, bn => bn+1
  | op1Sub, bn => bn-1
  | opNegate, bn => -bn
  | opAbs, bn => if bn < 0 then -bn else bn
  | opNot, bn => CBigNum.ofBool (bn == 0)
  | op0NotEqual, bn => CBigNum.ofBool (bn != 0)
  | _, bn => bn

def binary : Opcodetype → ℤ → ℤ → ℤ
  | opAdd, bn1, bn2 => bn1+bn2
  | opSub, bn1, bn2 => bn1-bn2
  | opBoolAnd, bn1, bn2 => CBigNum.ofBool (bn1 != 0 && bn2 != 0)
  | opBoolOr, bn1, bn2 => CBigNum.ofBool (bn1 != 0 || bn2 != 0)
  | opNumEqual, bn1, bn2 => CBigNum.ofBool (bn1 == bn2)
  | opNumEqualVerify, bn1, bn2 => CBigNum.ofBool (bn1 == bn2)
  | opNumNotEqual, bn1, bn2 => CBigNum.ofBool (bn1 != bn2)
  | opLessThan, bn1, bn2 => CBigNum.ofBool (bn1 < bn2)
  | opGreaterThan, bn1, bn2 => CBigNum.ofBool (bn1 > bn2)
  | opLessThanOrEqual, bn1, bn2 => CBigNum.ofBool (bn1 ≤ bn2)
  | opGreaterThanOrEqual, bn1, bn2 => CBigNum.ofBool (bn1 ≥ bn2)
  | opMin, bn1, bn2 => if bn1 < bn2 then bn1 else bn2
  | opMax, bn1, bn2 => if bn1 > bn2 then bn1 else bn2
  | _, _, _ => 0

section Interpreter
variable (H : Hashes) (checkSig : Valtype → Valtype → CScript → Bool) (flags : ℕ)

def hashOf : Opcodetype → Valtype → Valtype
  | opRipemd160, vch => H.ripemd160 vch
  | opSha1, vch => H.sha1 vch
  | opSha256, vch => H.sha256 vch
  | opHash160, vch => H.hash160 vch
  | _, vch => H.hash vch

/-- One signature against one key. Both forms are checked whatever the flags; under
`STRICTENC` a bad form fails the script. -/
def accept (scriptCode : CScript) (vchSig vchPubKey : Valtype) : Except Unit (Bool × Bool) :=
  let fEncoded := checkSignatureEncoding vchSig && checkPubKeyEncoding vchPubKey
  if hasFlag flags verifyStrictEnc && !fEncoded then .error ()
  else .ok (fEncoded && checkSig vchSig vchPubKey scriptCode,fEncoded)

/-- `OP_IF` and `OP_NOTIF` -/
def branch (fNot : Bool) (st : EvalState) : Result EvalState Unit :=
  if st.fExec then
    st.take1 () fun vch s =>
      let fValue := if fNot then !castToBool vch else castToBool vch
      done { st with stack := s, vfExec := fValue::st.vfExec }
  else done { st with vfExec := false::st.vfExec }

/-- The `switch` on the opcode. The disabled opcodes never reach it. -/
def execOp (opcode : Opcodetype) (pc : CScript) (st : EvalState) : Result EvalState Unit :=
  match opcode with
  | op1Negate | opN _ => st.leave (CBigNum.getvch ((opcode.code : ℤ)-0x50)::st.stack)
  | opNop => done st
  | opNopN _ =>
    if hasFlag flags verifyDiscourageUpgradableNops then fail st () else done st
  | opIf => branch false st
  | opNotIf => branch true st
  | opElse =>
    match st.vfExec with
    | [] => fail st ()
    | b::bs => done { st with vfExec := (!b)::bs }
  | opEndIf =>
    match st.vfExec with
    | [] => fail st ()
    | _::bs => done { st with vfExec := bs }
  | opVerify =>
    st.take1 () fun vch s => if castToBool vch then st.leave s else fail st ()
  | opReturn => fail st ()
  | opToAltStack =>
    st.take1 () fun vch s => done { st with stack := s, altstack := vch::st.altstack }
  | opFromAltStack =>
    match st.altstack with
    | [] => fail st ()
    | vch::alt => done { st with stack := vch::st.stack, altstack := alt }
  | op2Drop => st.take2 () fun _ _ s => st.leave s
  | op2Dup => st.take2 () fun x1 x2 s => st.leave (x2::x1::x2::x1::s)
  | op3Dup => st.take3 () fun x1 x2 x3 s => st.leave (x3::x2::x1::x3::x2::x1::s)
  | op2Over => st.take4 () fun x1 x2 x3 x4 s => st.leave (x2::x1::x4::x3::x2::x1::s)
  | op2Rot => st.take6 () fun x1 x2 x3 x4 x5 x6 s => st.leave (x2::x1::x6::x5::x4::x3::s)
  | op2Swap => st.take4 () fun x1 x2 x3 x4 s => st.leave (x2::x1::x4::x3::s)
  | opIfDup => st.take1 () fun vch s => st.leave (if castToBool vch then vch::vch::s else vch::s)
  | opDepth => st.leave (CBigNum.getvch st.stack.length::st.stack)
  | opDrop => st.take1 () fun _ s => st.leave s
  | opDup => st.take1 () fun vch s => st.leave (vch::vch::s)
  | opNip => st.take2 () fun _ x2 s => st.leave (x2::s)
  | opOver => st.take2 () fun x1 x2 s => st.leave (x1::x2::x1::s)
  | opPick => st.take2 () fun x1 x2 s => number castToInt () st x2 (pick () false st (x1::s))
  | opRoll => st.take2 () fun x1 x2 s => number castToInt () st x2 (pick () true st (x1::s))
  | opRot => st.take3 () fun x1 x2 x3 s => st.leave (x1::x3::x2::s)
  | opSwap => st.take2 () fun x1 x2 s => st.leave (x1::x2::s)
  | opTuck => st.take2 () fun x1 x2 s => st.leave (x2::x1::x2::s)
  | opSize => st.take1 () fun vch s => st.leave (CBigNum.getvch vch.length::vch::s)
  | opEqual => st.take2 () fun x1 x2 s => verdict () false (x1 == x2) st s
  | opEqualVerify => st.take2 () fun x1 x2 s => verdict () true (x1 == x2) st s
  | op1Add | op1Sub | opNegate | opAbs | opNot | op0NotEqual =>
    st.take1 () fun x s =>
      number castToBigNum () st x fun bn => st.leave (CBigNum.getvch (unary opcode bn)::s)
  | opAdd | opSub | opBoolAnd | opBoolOr | opNumEqual | opNumNotEqual | opLessThan | opGreaterThan
  | opLessThanOrEqual | opGreaterThanOrEqual | opMin | opMax =>
    st.take2 () fun x1 x2 s =>
      number castToBigNum () st x1 fun bn1 =>
        number castToBigNum () st x2 fun bn2 =>
          st.leave (CBigNum.getvch (binary opcode bn1 bn2)::s)
  | opNumEqualVerify =>
    st.take2 () fun x1 x2 s =>
      number castToBigNum () st x1 fun bn1 =>
        number castToBigNum () st x2 fun bn2 =>
          let vch := CBigNum.getvch (binary opcode bn1 bn2)
          if castToBool vch then st.leave s else fail (st.withStack (vch::s)) ()
  | opWithin =>
    st.take3 () fun x1 x2 x3 s =>
      number castToBigNum () st x1 fun bn1 =>
        number castToBigNum () st x2 fun bn2 =>
          number castToBigNum () st x3 fun bn3 =>
            verdict () false (bn2 ≤ bn1 && bn1 < bn3) st s
  | opRipemd160 | opSha1 | opSha256 | opHash160 | opHash256 =>
    st.take1 () fun vch s => st.leave (hashOf H opcode vch::s)
  | opCodeSeparator => done { st with codehash := pc }
  | opCheckSig => checkSigOp err (accept checkSig flags) false st
  | opCheckSigVerify => checkSigOp err (accept checkSig flags) true st
  | opCheckMultiSig => checkMultiSigOp err castToInt (accept checkSig flags) flags false st
  | opCheckMultiSigVerify => checkMultiSigOp err castToInt (accept checkSig flags) flags true st
  | _ => fail st ()

def execute (opcode : Opcodetype) (vchPushValue : Valtype) (pc : CScript) (st : EvalState) :
    Result EvalState Unit :=
  if st.fExec && opcode.code ≤ 0x4e then st.leave (vchPushValue::st.stack)
  else if st.fExec || (0x63 ≤ opcode.code && opcode.code ≤ 0x68) then
    execOp H checkSig flags opcode pc st
  else done st

def step (i : (Opcodetype × Valtype) × CScript) (st : EvalState) : Result EvalState Unit :=
  if maxScriptElementSize < i.1.2.length then fail st ()
  else
    let st := { st with nOpCount := st.nOpCount+(decide (0x60 < i.1.1.code)).toNat }
    if 0x60 < i.1.1.code && 201 < st.nOpCount then fail st ()
    else if isDisabled i.1.1 then fail st ()
    else
      andThen (execute H checkSig flags i.1.1 i.1.2 i.2 st) fun st =>
        if 1000 < st.stack.length+st.altstack.length then fail st () else done st

/-- The variables when `EvalScript` returns, and whether it returns true. -/
def evalScript (stack : List Valtype) (script : CScript) : Result EvalState Unit :=
  if 10000 < script.length then fail (start stack script) ()
  else
    andThen (Fetch.loop CScript.getOp (step H checkSig flags) () script (start stack script))
      fun st => if st.vfExec.isEmpty then done st else fail st ()

end Interpreter

end BigNumScript

end SwippCore

namespace SwippCore
open Attempt EvalState Opcodetype

namespace CheckedScript

def isDisabled : Opcodetype → Bool
  | opCat | opSubstr | opLeft | opRight | opInvert | opAnd | opOr | opXor
  | op2Mul | op2Div | opMul | opDiv | opMod | opLShift | opRShift => true
  | _ => false

def checkMinimalPush (data : Valtype) (opcode : Opcodetype) : Bool :=
  match data with
  | [] => opcode.code == 0x00
  | [b] =>
    if 1 ≤ b.toNat && b.toNat ≤ 16 then opcode.code == 0x51+(b.toNat-1)
    else if b == 0x81 then opcode.code == 0x4f
    else opcode.code == 1
  | _ =>
    if data.length ≤ 75 then opcode.code == data.length
    else if data.length ≤ 255 then opcode.code == 0x4c
    else if data.length ≤ 65535 then opcode.code == 0x4d
    else true

/-- `CheckSignatureEncoding`, with the error it sets -/
def checkSignatureEncoding (flags : ℕ) (vchSig : Valtype) : Option ScriptError :=
  if hasFlag flags (verifyDerSig ||| verifyLowS ||| verifyStrictEnc)
      && !isDERSignature vchSig true then some .sigDer
  else if hasFlag flags verifyLowS && !isLowDERSignature vchSig then
    if isDERSignature vchSig true then some .sigHighS else some .sigDer
  else if hasFlag flags verifyStrictEnc && !isDefinedHashtypeSignature vchSig then
    some .sigHashtype
  else none

/-- `CheckPubKeyEncoding`, with the error it sets -/
def checkPubKeyEncoding (flags : ℕ) (vchPubKey : Valtype) : Option ScriptError :=
  if hasFlag flags verifyStrictEnc && !isCompressedOrUncompressedPubKey vchPubKey then
    some .pubkeyType
  else none

def ofBool (b : Bool) : ℤ := if b then 1 else 0

def unary : Opcodetype → ℤ → ℤ
  | op1Add, bn => int64 (bn+1)
  | op1Sub, bn => int64 (bn-1)
  | opNegate, bn => int64 (-bn)
  | opAbs, bn => if bn < 0 then int64 (-bn) else bn
  | opNot, bn => ofBool (bn == 0)
  | op0NotEqual, bn => ofBool (bn != 0)
  | _, bn => bn

def binary : Opcodetype → ℤ → ℤ → ℤ
  | opAdd, bn1, bn2 => int64 (bn1+bn2)
  | opSub, bn1, bn2 => int64 (bn1-bn2)
  | opBoolAnd, bn1, bn2 => ofBool (bn1 != 0 && bn2 != 0)
  | opBoolOr, bn1, bn2 => ofBool (bn1 != 0 || bn2 != 0)
  | opNumEqual, bn1, bn2 => ofBool (bn1 == bn2)
  | opNumEqualVerify, bn1, bn2 => ofBool (bn1 == bn2)
  | opNumNotEqual, bn1, bn2 => ofBool (bn1 != bn2)
  | opLessThan, bn1, bn2 => ofBool (bn1 < bn2)
  | opGreaterThan, bn1, bn2 => ofBool (bn1 > bn2)
  | opLessThanOrEqual, bn1, bn2 => ofBool (bn1 ≤ bn2)
  | opGreaterThanOrEqual, bn1, bn2 => ofBool (bn1 ≥ bn2)
  | opMin, bn1, bn2 => if bn1 < bn2 then bn1 else bn2
  | opMax, bn1, bn2 => if bn1 > bn2 then bn1 else bn2
  | _, _, _ => 0

section Interpreter
variable (H : Hashes) (checkSig : Valtype → Valtype → CScript → Bool) (flags : ℕ)

def fRequireMinimal : Bool := hasFlag flags verifyMinimalData

/-- The constructor of `CScriptNum` on an operand. -/
def scriptNum (vch : Valtype) : Option ℤ := CScriptNum.ofVch vch (fRequireMinimal flags)

def scriptInt (vch : Valtype) : Option ℤ := (scriptNum flags vch).map CScriptNum.getint

def hashOf : Opcodetype → Valtype → Valtype
  | opRipemd160, vch => H.ripemd160 vch
  | opSha1, vch => H.sha1 vch
  | opSha256, vch => H.sha256 vch
  | opHash160, vch => H.hash160 vch
  | _, vch => H.hash vch

def accept (scriptCode : CScript) (vchSig vchPubKey : Valtype) :
    Except ScriptError (Bool × Bool) :=
  match checkSignatureEncoding flags vchSig with
  | some serror => .error serror
  | none =>
    match checkPubKeyEncoding flags vchPubKey with
    | some serror => .error serror
    | none => .ok (checkSig vchSig vchPubKey scriptCode,true)

/-- `OP_IF` and `OP_NOTIF` -/
def branch (fNot : Bool) (st : EvalState) : Result EvalState ScriptError :=
  if st.fExec then
    st.take1 .unbalancedConditional fun vch s =>
      let fValue := if fNot then !castToBool vch else castToBool vch
      done { st with stack := s, vfExec := fValue::st.vfExec }
  else done { st with vfExec := false::st.vfExec }

/-- The `switch` on the opcode. The hash opcodes return false without an error of their
own on an empty stack. -/
def execOp (opcode : Opcodetype) (pc : CScript) (st : EvalState) : Result EvalState ScriptError :=
  match opcode with
  | op1Negate | opN _ => st.leave (CScriptNum.serialize (int64 ((opcode.code : ℤ)-0x50))::st.stack)
  | opNop => done st
  | opNopN _ =>
    if hasFlag flags verifyDiscourageUpgradableNops then fail st .discourageUpgradableNops
    else done st
  | opIf => branch false st
  | opNotIf => branch true st
  | opElse =>
    match st.vfExec with
    | [] => fail st .unbalancedConditional
    | b::bs => done { st with vfExec := (!b)::bs }
  | opEndIf =>
    match st.vfExec with
    | [] => fail st .unbalancedConditional
    | _::bs => done { st with vfExec := bs }
  | opVerify =>
    st.take1 .invalidStackOperation fun vch s =>
      if castToBool vch then st.leave s else fail st .verify
  | opReturn => fail st .opReturn
  | opToAltStack =>
    st.take1 .invalidStackOperation fun vch s =>
      done { st with stack := s, altstack := vch::st.altstack }
  | opFromAltStack =>
    match st.altstack with
    | [] => fail st .invalidAltstackOperation
    | vch::alt => done { st with stack := vch::st.stack, altstack := alt }
  | op2Drop => st.take2 .invalidStackOperation fun _ _ s => st.leave s
  | op2Dup => st.take2 .invalidStackOperation fun x1 x2 s => st.leave (x2::x1::x2::x1::s)
  | op3Dup =>
    st.take3 .invalidStackOperation fun x1 x2 x3 s => st.leave (x3::x2::x1::x3::x2::x1::s)
  | op2Over =>
    st.take4 .invalidStackOperation fun x1 x2 x3 x4 s => st.leave (x2::x1::x4::x3::x2::x1::s)
  | op2Rot =>
    st.take6 .invalidStackOperation fun x1 x2 x3 x4 x5 x6 s =>
      st.leave (x2::x1::x6::x5::x4::x3::s)
  | op2Swap => st.take4 .invalidStackOperation fun x1 x2 x3 x4 s => st.leave (x2::x1::x4::x3::s)
  | opIfDup =>
    st.take1 .invalidStackOperation fun vch s =>
      st.leave (if castToBool vch then vch::vch::s else vch::s)
  | opDepth => st.leave (CScriptNum.serialize st.stack.length::st.stack)
  | opDrop => st.take1 .invalidStackOperation fun _ s => st.leave s
  | opDup => st.take1 .invalidStackOperation fun vch s => st.leave (vch::vch::s)
  | opNip => st.take2 .invalidStackOperation fun _ x2 s => st.leave (x2::s)
  | opOver => st.take2 .invalidStackOperation fun x1 x2 s => st.leave (x1::x2::x1::s)
  | opPick =>
    st.take2 .invalidStackOperation fun x1 x2 s =>
      number (scriptInt flags) .unknownError st x2 (pick .invalidStackOperation false st (x1::s))
  | opRoll =>
    st.take2 .invalidStackOperation fun x1 x2 s =>
      number (scriptInt flags) .unknownError st x2 (pick .invalidStackOperation true st (x1::s))
  | opRot => st.take3 .invalidStackOperation fun x1 x2 x3 s => st.leave (x1::x3::x2::s)
  | opSwap => st.take2 .invalidStackOperation fun x1 x2 s => st.leave (x1::x2::s)
  | opTuck => st.take2 .invalidStackOperation fun x1 x2 s => st.leave (x2::x1::x2::s)
  | opSize =>
    st.take1 .invalidStackOperation fun vch s =>
      st.leave (CScriptNum.serialize vch.length::vch::s)
  | opEqual => st.take2 .invalidStackOperation fun x1 x2 s => verdict .equalVerify false (x1 == x2) st s
  | opEqualVerify =>
    st.take2 .invalidStackOperation fun x1 x2 s => verdict .equalVerify true (x1 == x2) st s
  | op1Add | op1Sub | opNegate | opAbs | opNot | op0NotEqual =>
    st.take1 .invalidStackOperation fun x s =>
      number (scriptNum flags) .unknownError st x fun bn =>
        st.leave (CScriptNum.serialize (unary opcode bn)::s)
  | opAdd | opSub | opBoolAnd | opBoolOr | opNumEqual | opNumNotEqual | opLessThan | opGreaterThan
  | opLessThanOrEqual | opGreaterThanOrEqual | opMin | opMax =>
    st.take2 .invalidStackOperation fun x1 x2 s =>
      number (scriptNum flags) .unknownError st x1 fun bn1 =>
        number (scriptNum flags) .unknownError st x2 fun bn2 =>
          st.leave (CScriptNum.serialize (binary opcode bn1 bn2)::s)
  | opNumEqualVerify =>
    st.take2 .invalidStackOperation fun x1 x2 s =>
      number (scriptNum flags) .unknownError st x1 fun bn1 =>
        number (scriptNum flags) .unknownError st x2 fun bn2 =>
          let vch := CScriptNum.serialize (binary opcode bn1 bn2)
          if castToBool vch then st.leave s else fail (st.withStack (vch::s)) .numEqualVerify
  | opWithin =>
    st.take3 .invalidStackOperation fun x1 x2 x3 s =>
      number (scriptNum flags) .unknownError st x1 fun bn1 =>
        number (scriptNum flags) .unknownError st x2 fun bn2 =>
          number (scriptNum flags) .unknownError st x3 fun bn3 =>
            verdict .unknownError false (bn2 ≤ bn1 && bn1 < bn3) st s
  | opRipemd160 | opSha1 | opSha256 | opHash160 | opHash256 =>
    st.take1 .unknownError fun vch s => st.leave (hashOf H opcode vch::s)
  | opCodeSeparator => done { st with codehash := pc }
  | opCheckSig => checkSigOp id (accept checkSig flags) false st
  | opCheckSigVerify => checkSigOp id (accept checkSig flags) true st
  | opCheckMultiSig => checkMultiSigOp id (scriptInt flags) (accept checkSig flags) flags false st
  | opCheckMultiSigVerify =>
    checkMultiSigOp id (scriptInt flags) (accept checkSig flags) flags true st
  | _ => fail st .badOpcode

def execute (opcode : Opcodetype) (vchPushValue : Valtype) (pc : CScript) (st : EvalState) :
    Result EvalState ScriptError :=
  if st.fExec && opcode.code ≤ 0x4e then
    if fRequireMinimal flags && !checkMinimalPush vchPushValue opcode then fail st .minimalData
    else st.leave (vchPushValue::st.stack)
  else if st.fExec || (0x63 ≤ opcode.code && opcode.code ≤ 0x68) then
    execOp H checkSig flags opcode pc st
  else done st

def step (i : (Opcodetype × Valtype) × CScript) (st : EvalState) : Result EvalState ScriptError :=
  if maxScriptElementSize < i.1.2.length then fail st .pushSize
  else
    let st := { st with nOpCount := st.nOpCount+(decide (0x60 < i.1.1.code)).toNat }
    if 0x60 < i.1.1.code && 201 < st.nOpCount then fail st .opCount
    else if isDisabled i.1.1 then fail st .disabledOpcode
    else
      andThen (execute H checkSig flags i.1.1 i.1.2 i.2 st) fun st =>
        if 1000 < st.stack.length+st.altstack.length then fail st .stackSize else done st

/-- The variables when `EvalScript` returns, and its error unless it returns true. -/
def evalScript (stack : List Valtype) (script : CScript) : Result EvalState ScriptError :=
  if 10000 < script.length then fail (start stack script) .scriptSize
  else
    andThen (Fetch.loop CScript.getOp (step H checkSig flags) .badOpcode script
      (start stack script)) fun st =>
        if st.vfExec.isEmpty then done st else fail st .unbalancedConditional

end Interpreter

end CheckedScript

end SwippCore
