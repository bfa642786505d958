import SwippCore.EvalScript

/-!
# Standard scripts

The templates of `Solver` in script.cpp. A template is read in step with a
script; a few opcodes of the template stand for operands, which are collected.
-/

set_option autoImplicit false

namespace SwippCore
open Opcodetype

inductive TxnOutType where
  | nonStandard | pubKey | pubKeyHash | scriptHash | multiSig | nullData
  deriving DecidableEq, Repr

namespace Standard

def opSmallData : Opcodetype := unassigned ⟨0xf9-0xba,by decide⟩
def opSmallInteger : Opcodetype := unassigned ⟨0xfa-0xba,by decide⟩
def opPubKeys : Opcodetype := unassigned ⟨0xfb-0xba,by decide⟩
def opPubKeyHash : Opcodetype := unassigned ⟨0xfd-0xba,by decide⟩
def opPubKey : Opcodetype := unassigned ⟨0xfe-0xba,by decide⟩

def maxOpReturnRelay : ℕ := 40

def mTemplates : List (TxnOutType × List Opcodetype) :=
  [(.pubKey,[opPubKey,opCheckSig]),
    (.pubKeyHash,[opDup,opHash160,opPubKeyHash,opEqualVerify,opCheckSig]),
    (.multiSig,[opSmallInteger,opPubKeys,opSmallInteger,opCheckMultiSig]),
    (.nullData,[opReturn,opSmallData]),
    (.nullData,[opReturn])]

def pubKeySized (vch : Valtype) : Bool := 33 ≤ vch.length && vch.length ≤ 120

/-- The loop under `OP_PUBKEYS`: the keys, and the instruction after them. -/
def takePubKeys : ℕ → (Opcodetype × Valtype) × CScript →
    List Valtype × ((Opcodetype × Valtype) × CScript)
  | 0, i => ([],i)
  | k+1, i =>
    if pubKeySized i.1.2 then
      match i.2.getOp with
      | none => ([i.1.2],((invalidOpcode,[]),i.2))
      | some j => (i.1.2::(takePubKeys k j).1,(takePubKeys k j).2)
    else ([],i)

def matchOp (opcode2 : Opcodetype) (i : Opcodetype × Valtype) : Option (List Valtype) :=
  if opcode2 = opPubKey then if pubKeySized i.2 then some [i.2] else none
  else if opcode2 = opPubKeyHash then if i.2.length = 20 then some [i.2] else none
  else if opcode2 = opSmallInteger then
    if i.1 = pushBytes 0 ∨ (0x51 ≤ i.1.code ∧ i.1.code ≤ 0x60) then
      some [[UInt8.ofNat i.1.decodeOpN]]
    else none
  else if opcode2 = opSmallData then if maxOpReturnRelay < i.2.length then none else some []
  else if i.1 ≠ opcode2 ∨ i.2 ≠ [] then none
  else some []

def matchTemplate : List Opcodetype → CScript → Option (List Valtype)
  | [], pc1 => if pc1.isEmpty then some [] else none
  | opcode2::pc2, pc1 =>
    match pc1.getOp with
    | none => none
    | some i =>
      if opcode2 = opPubKeys then
        match pc2 with
        | [] => none
        | opcode2::pc2 => do
          let keys := takePubKeys (i.2.length+1) i
          let vch ← matchOp opcode2 keys.2.1
          let rest ← matchTemplate pc2 keys.2.2
          some (keys.1++vch++rest)
      else do
        let vch ← matchOp opcode2 i.1
        let rest ← matchTemplate pc2 i.2
        some (vch++rest)

/-- The additional checks for `TX_MULTISIG`. -/
def multiSigCounts (vSolutions : List Valtype) : Bool :=
  let m := ((vSolutions.head?.bind List.head?).getD 0).toNat
  let n := ((vSolutions.getLast?.bind List.head?).getD 0).toNat
  1 ≤ m && 1 ≤ n && m ≤ n && vSolutions.length-2 == n

def scanTemplates (scriptPubKey : CScript) :
    List (TxnOutType × List Opcodetype) → Option (TxnOutType × List Valtype)
  | [] => none
  | (typeRet,script2)::rest =>
    match matchTemplate script2 scriptPubKey with
    | none => scanTemplates scriptPubKey rest
    | some vSolutions =>
      if typeRet = .multiSig ∧ !multiSigCounts vSolutions then none
      else some (typeRet,vSolutions)

/-- `Solver` for a script alone: its type, and the public keys or hashes in it. -/
def solver (scriptPubKey : CScript) : Option (TxnOutType × List Valtype) :=
  if scriptPubKey.isPayToScriptHash then some (.scriptHash,[(scriptPubKey.drop 2).take 20])
  else scanTemplates scriptPubKey mTemplates

example : solver ([0x76,0xa9,0x14]++List.replicate 20 7++[0x88,0xac]) =
    some (.pubKeyHash,[List.replicate 20 7]) := by decide

example : solver ([0x51,0x21]++List.replicate 33 2++[0x21]++List.replicate 33 3++[0x52,0xae]) =
    some (.multiSig,[[1],List.replicate 33 2,List.replicate 33 3,[2]]) := by decide

end Standard

end SwippCore
