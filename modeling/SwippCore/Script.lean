import SwippCore.Primitives
import SwippCore.Lib.Checks
import SwippCore.Lib.Numerals

/-!
# Scripts

Operations, numbers and signature encodings of the script language.
-/

set_option autoImplicit false

/-! ## Scripts and their instructions -/

namespace SwippCore

/-- An opcode is one byte. `OP_0` pushes no bytes; `opN k` is `OP_1` to `OP_16` and
`opNopN k` is `OP_NOP1` to `OP_NOP10`, both counted from zero; the bytes from 0xba on are not
assigned. -/
inductive Opcodetype where
  | pushBytes (n : Fin 0x4c)
  | opPushData1 | opPushData2 | opPushData4
  | op1Negate | opReserved
  | opN (k : Fin 16)
  | opNop | opVer | opIf | opNotIf | opVerIf | opVerNotIf | opElse | opEndIf | opVerify | opReturn
  | opToAltStack | opFromAltStack | op2Drop | op2Dup | op3Dup | op2Over | op2Rot | op2Swap
  | opIfDup | opDepth | opDrop | opDup | opNip | opOver | opPick | opRoll | opRot | opSwap | opTuck
  | opCat | opSubstr | opLeft | opRight | opSize
  | opInvert | opAnd | opOr | opXor | opEqual | opEqualVerify | opReserved1 | opReserved2
  | op1Add | op1Sub | op2Mul | op2Div | opNegate | opAbs | opNot | op0NotEqual
  | opAdd | opSub | opMul | opDiv | opMod | opLShift | opRShift
  | opBoolAnd | opBoolOr | opNumEqual | opNumEqualVerify | opNumNotEqual
  | opLessThan | opGreaterThan | opLessThanOrEqual | opGreaterThanOrEqual | opMin | opMax | opWithin
  | opRipemd160 | opSha1 | opSha256 | opHash160 | opHash256 | opCodeSeparator
  | opCheckSig | opCheckSigVerify | opCheckMultiSig | opCheckMultiSigVerify
  | opNopN (k : Fin 10)
  | unassigned (k : Fin 0x46)
  deriving DecidableEq, Repr

namespace Opcodetype

def code : Opcodetype → ℕ
  | pushBytes n => n
  | opPushData1 => 0x4c | opPushData2 => 0x4d | opPushData4 => 0x4e
  | op1Negate => 0x4f | opReserved => 0x50
  | opN k => 0x51+k
  | opNop => 0x61 | opVer => 0x62 | opIf => 0x63 | opNotIf => 0x64 | opVerIf => 0x65
  | opVerNotIf => 0x66 | opElse => 0x67 | opEndIf => 0x68 | opVerify => 0x69 | opReturn => 0x6a
  | opToAltStack => 0x6b | opFromAltStack => 0x6c | op2Drop => 0x6d | op2Dup => 0x6e
  | op3Dup => 0x6f | op2Over => 0x70 | op2Rot => 0x71 | op2Swap => 0x72 | opIfDup => 0x73
  | opDepth => 0x74 | opDrop => 0x75 | opDup => 0x76 | opNip => 0x77 | opOver => 0x78
  | opPick => 0x79 | opRoll => 0x7a | opRot => 0x7b | opSwap => 0x7c | opTuck => 0x7d
  | opCat => 0x7e | opSubstr => 0x7f | opLeft => 0x80 | opRight => 0x81 | opSize => 0x82
  | opInvert => 0x83 | opAnd => 0x84 | opOr => 0x85 | opXor => 0x86 | opEqual => 0x87
  | opEqualVerify => 0x88 | opReserved1 => 0x89 | opReserved2 => 0x8a
  | op1Add => 0x8b | op1Sub => 0x8c | op2Mul => 0x8d | op2Div => 0x8e | opNegate => 0x8f
  | opAbs => 0x90 | opNot => 0x91 | op0NotEqual => 0x92
  | opAdd => 0x93 | opSub => 0x94 | opMul => 0x95 | opDiv => 0x96 | opMod => 0x97
  | opLShift => 0x98 | opRShift => 0x99 | opBoolAnd => 0x9a | opBoolOr => 0x9b
  | opNumEqual => 0x9c | opNumEqualVerify => 0x9d | opNumNotEqual => 0x9e | opLessThan => 0x9f
  | opGreaterThan => 0xa0 | opLessThanOrEqual => 0xa1 | opGreaterThanOrEqual => 0xa2
  | opMin => 0xa3 | opMax => 0xa4 | opWithin => 0xa5
  | opRipemd160 => 0xa6 | opSha1 => 0xa7 | opSha256 => 0xa8 | opHash160 => 0xa9 | opHash256 => 0xaa
  | opCodeSeparator => 0xab | opCheckSig => 0xac | opCheckSigVerify => 0xad
  | opCheckMultiSig => 0xae | opCheckMultiSigVerify => 0xaf
  | opNopN k => 0xb0+k
  | unassigned k => 0xba+k

/-- The opcodes from `OP_NOP` to `OP_CHECKMULTISIGVERIFY`, in the order of their codes. -/
def named : List Opcodetype :=
  [opNop, opVer, opIf, opNotIf, opVerIf, opVerNotIf, opElse, opEndIf, opVerify, opReturn,
    opToAltStack, opFromAltStack, op2Drop, op2Dup, op3Dup, op2Over, op2Rot, op2Swap, opIfDup,
    opDepth, opDrop, opDup, opNip, opOver, opPick, opRoll, opRot, opSwap, opTuck,
    opCat, opSubstr, opLeft, opRight, opSize,
    opInvert, opAnd, opOr, opXor, opEqual, opEqualVerify, opReserved1, opReserved2,
    op1Add, op1Sub, op2Mul, op2Div, opNegate, opAbs, opNot, op0NotEqual,
    opAdd, opSub, opMul, opDiv, opMod, opLShift, opRShift, opBoolAnd, opBoolOr,
    opNumEqual, opNumEqualVerify, opNumNotEqual, opLessThan, opGreaterThan, opLessThanOrEqual,
    opGreaterThanOrEqual, opMin, opMax, opWithin,
    opRipemd160, opSha1, opSha256, opHash160, opHash256, opCodeSeparator,
    opCheckSig, opCheckSigVerify, opCheckMultiSig, opCheckMultiSigVerify]

def ofByte (b : UInt8) : Opcodetype :=
  if h : b.toNat < 0x4c then pushBytes ⟨b.toNat,h⟩
  else if b = 0x4c then opPushData1
  else if b = 0x4d then opPushData2
  else if b = 0x4e then opPushData4
  else if b = 0x4f then op1Negate
  else if b = 0x50 then opReserved
  else if h : b.toNat < 0x61 then opN ⟨b.toNat-0x51,by omega⟩
  else if b.toNat < 0xb0 then named.getD (b.toNat-0x61) opNop
  else if h : b.toNat < 0xba then opNopN ⟨b.toNat-0xb0,by omega⟩
  else unassigned ⟨b.toNat-0xba,by have hb := b.toNat_lt; omega⟩

def byte (op : Opcodetype) : UInt8 := UInt8.ofNat op.code

/-- `OP_INVALIDOPCODE` -/
def invalidOpcode : Opcodetype := unassigned 0x45

def decodeOpN : Opcodetype → ℕ
  | opN k => k+1
  | _ => 0

def checksSignatures : Opcodetype → Bool
  | opCheckSig | opCheckSigVerify | opCheckMultiSig | opCheckMultiSigVerify => true
  | _ => false

end Opcodetype

namespace CScript
open Opcodetype Fetch

def sizeBytes (opcode : UInt8) : ℕ :=
  if opcode = 0x4c then 1 else if opcode = 0x4d then 2 else 4

def operandSize (opcode : UInt8) (pc : CScript) : Option (ℕ × CScript) :=
  if opcode < 0x4c then some (opcode.toNat,pc)
  else if pc.length < sizeBytes opcode then none
  else some (SignMagnitude.value (pc.take (sizeBytes opcode)),pc.drop (sizeBytes opcode))

/-- `GetOp2`: the opcode, what it pushes, and the script behind it. The bytes left are
compared as an `unsigned int`, which holds the length of any script that is received. -/
def getOp : CScript → Option ((Opcodetype × List UInt8) × CScript)
  | [] => none
  | opcode::pc =>
    if opcode ≤ 0x4e then
      match operandSize opcode pc with
      | none => none
      | some (nSize,pc) =>
        if pc.length < nSize then none
        else some ((ofByte opcode,pc.take nSize),pc.drop nSize)
    else some ((ofByte opcode,[]),pc)

theorem operand_size_length {opcode : UInt8} {pc pc' : CScript} {n : ℕ}
    (h : operandSize opcode pc = some (n,pc')) : pc'.length ≤ pc.length := by
  rw [operandSize] at h
  split at h
  · simp only [Option.some.injEq, Prod.mk.injEq] at h
    rw [h.2]
  · split at h
    · cases h
    · simp only [Option.some.injEq, Prod.mk.injEq] at h
      rw [← h.2, List.length_drop]
      exact Nat.sub_le _ _

theorem get_op_shorter {s : CScript} {i : Opcodetype × List UInt8} {r : CScript}
    (h : getOp s = some (i,r)) : r.length < s.length := by
  cases s with
  | nil => cases h
  | cons opcode pc =>
    rw [getOp] at h
    rw [List.length_cons]
    split at h
    · split at h
      · cases h
      · next nSize pc' hsize =>
        have hle := operand_size_length hsize
        split at h
        · cases h
        · simp only [Option.some.injEq, Prod.mk.injEq] at h
          rw [← h.2, List.length_drop]
          omega
    · simp only [Option.some.injEq, Prod.mk.injEq] at h
      rw [← h.2]
      exact Nat.lt_succ_self _

/-- A pass of a loop that does not ask whether `GetOp` returned true: where it did not, it
left `OP_INVALIDOPCODE`, no data, and the iterator behind the bytes that it had read. -/
def getOpAnyway : CScript → Option ((Opcodetype × List UInt8) × CScript)
  | [] => none
  | opcode::pc =>
    some ((getOp (opcode::pc)).getD
      ((invalidOpcode,[]),((operandSize opcode pc).map Prod.snd).getD pc))

theorem get_op_anyway_shorter (s : CScript) (i : Opcodetype × List UInt8) (r : CScript)
    (h : getOpAnyway s = some (i,r)) : r.length < s.length := by
  cases s with
  | nil => cases h
  | cons opcode pc =>
    have h := Option.some.inj h
    cases hop : getOp (opcode::pc) with
    | some p =>
      rw [hop, Option.getD_some] at h
      exact get_op_shorter (hop.trans (congrArg some h))
    | none =>
      rw [hop, Option.getD_none, Prod.mk.injEq] at h
      rw [← h.2, List.length_cons, Nat.lt_succ_iff]
      cases hsize : operandSize opcode pc with
      | none => exact Nat.le_refl _
      | some p => exact operand_size_length hsize

/-- Such a loop reads the script to its end. -/
theorem get_op_anyway_remains (s : CScript) : remains getOpAnyway s = [] :=
  remains_nil getOpAnyway get_op_anyway_shorter (fun _ _ => ⟨_,rfl⟩) s

/-- The instructions that the loop `while (pc < end && GetOp(pc, ..))` meets. -/
def ops (s : CScript) : List ((Opcodetype × List UInt8) × CScript) := items getOp s

/-- `operator<<` on bytes -/
def push (b : List UInt8) : CScript :=
  let size (n : ℕ) : List UInt8 := (List.range n).map fun i => UInt8.ofNat (b.length/256^i)
  if b.length < 0x4c then UInt8.ofNat b.length::b
  else if b.length ≤ 0xff then 0x4c::size 1++b
  else if b.length ≤ 0xffff then 0x4d::size 2++b
  else 0x4e::size 4++b

def ofOps (opcodes : List Opcodetype) : CScript := opcodes.map byte

def isPushOnly (s : CScript) : Bool :=
  (ops s).all (fun i => i.1.1.code ≤ 0x60) && (remains getOp s).isEmpty

def isPayToScriptHash (s : CScript) : Bool :=
  s.length == 23 && s.getD 0 0 == 0xa9 && s.getD 1 0 == 0x14 && s.getD 22 0 == 0x87

/-- One pass of the loop of `FindAndDelete` removes an occurrence at `pc` or steps over an
instruction. -/
def findAndDeleteFrom (b : CScript) : ℕ → CScript → CScript × ℕ
  | 0, pc => (pc,0)
  | k+1, pc =>
    if b.isPrefixOf pc then
      ((findAndDeleteFrom b k (pc.drop b.length)).1,
        (findAndDeleteFrom b k (pc.drop b.length)).2+1)
    else
      match getOp pc with
      | none => (pc,0)
      | some (_,rest) =>
        (pc.take (pc.length-rest.length)++(findAndDeleteFrom b k rest).1,
          (findAndDeleteFrom b k rest).2)

def findAndDelete (s b : CScript) : CScript × ℕ :=
  if b.isEmpty then (s,0) else findAndDeleteFrom b (s.length+1) s

def sigOps (fAccurate : Bool) (lastOpcode opcode : Opcodetype) : ℕ :=
  if opcode = opCheckSig ∨ opcode = opCheckSigVerify then 1
  else if opcode = opCheckMultiSig ∨ opcode = opCheckMultiSigVerify then
    if fAccurate && 0x51 ≤ lastOpcode.code && lastOpcode.code ≤ 0x60 then lastOpcode.decodeOpN
    else 20
  else 0

def countSigOps (fAccurate : Bool) : Opcodetype → List Opcodetype → ℕ
  | _, [] => 0
  | lastOpcode, opcode::rest =>
    sigOps fAccurate lastOpcode opcode+countSigOps fAccurate opcode rest

/-- `GetSigOpCount(bool)`; the count stops where the script cannot be read any further. -/
def getSigOpCount (fAccurate : Bool) (s : CScript) : ℕ :=
  countSigOps fAccurate invalidOpcode ((ops s).map fun i => i.1.1)

/-- `GetSigOpCount(const CScript&)`: the operations of the script that the last push of
`scriptSig` carries. -/
def getP2SHSigOpCount (s scriptSig : CScript) : ℕ :=
  if !isPayToScriptHash s then getSigOpCount true s
  else if !isPushOnly scriptSig then 0
  else getSigOpCount true (((ops scriptSig).getLast?.map fun i => i.1.2).getD [])

example : ops [0x02,0xaa,0xbb,0x76,0x05,0x01] =
    [((pushBytes 2,[0xaa,0xbb]),[0x76,0x05,0x01]), ((opDup,[]),[0x05,0x01])] := by decide

end CScript

end SwippCore

/-! ## The two number types of scripts -/

namespace SwippCore

/-- The conversion to `int64_t`. -/
def int64 (v : ℤ) : ℤ := (BitVec.ofInt 64 v).toInt

def intMax : ℤ := 0x7fffffff
def intMin : ℤ := -0x80000000

namespace CBigNum
open SignMagnitude

/-- `BN_mpi2bn` on the bytes behind the length. -/
def ofMpi : List UInt8 → ℤ
  | [] => 0
  | b::bs => ofSplit (128 ≤ b.toNat,b.toNat%128*256^bs.length+value bs.reverse)

def markSign (neg : Bool) : List UInt8 → List UInt8
  | [] => []
  | b::bs => (if neg then b ||| 0x80 else b)::bs

/-- `BN_bn2mpi`, without the length. -/
def toMpi (n : ℤ) : List UInt8 :=
  match (bytes n.natAbs).reverse with
  | [] => []
  | b::bs => markSign (n < 0) (if 128 ≤ b.toNat then 0::b::bs else b::bs)

def setvch (vch : List UInt8) : ℤ := ofMpi vch.reverse

def getvch (bn : ℤ) : List UInt8 := (toMpi bn).reverse

def getint (bn : ℤ) : ℤ :=
  let n : ℤ := if bn.natAbs < 2^64 then bn.natAbs else 2^64-1
  if 0 ≤ bn then if intMax < n then intMax else n
  else if intMax < n then intMin else -n

def ofBool (b : Bool) : ℤ := if b then 1 else 0

theorem setvch_eq (vch : List UInt8) : setvch vch = decode vch := by
  rcases List.eq_nil_or_concat vch with rfl | ⟨bs,b,rfl⟩
  · rfl
  · rw [List.concat_eq_append, setvch, decode, split_snoc, List.reverse_concat, ofMpi,
      List.length_reverse, List.reverse_reverse]
    congr 2
    ring

theorem getvch_eq (bn : ℤ) : getvch bn = encode bn := by
  rw [getvch, encode, toMpi]
  rcases List.eq_nil_or_concat (bytes bn.natAbs) with hnil | ⟨bs,b,hbs⟩
  · rw [hnil]
    rfl
  · rw [hbs, List.concat_eq_append, close_snoc, List.reverse_concat]
    dsimp only
    split
    · cases decide (bn < 0) <;> simp [markSign]
    · cases decide (bn < 0) <;> simp [markSign]

end CBigNum

def castToBigNum (vch : List UInt8) : Option ℤ :=
  if 4 < vch.length then none
  else some (CBigNum.setvch (CBigNum.getvch (CBigNum.setvch vch)))

namespace CScriptNum
open SignMagnitude

def setVch (vch : List UInt8) : ℤ :=
  match vch.getLast? with
  | none => 0
  | some back =>
    if 128 ≤ back.toNat then -((value vch : ℤ)-128*256^(vch.length-1)) else value vch

def serialize (n : ℤ) : List UInt8 :=
  match (bytes n.natAbs).getLast? with
  | none => []
  | some back =>
    if 128 ≤ back.toNat then bytes n.natAbs++[if n < 0 then 0x80 else 0]
    else if n < 0 then (bytes n.natAbs).dropLast++[back ||| 0x80]
    else bytes n.natAbs

def isMinimal (vch : List UInt8) : Bool :=
  match vch.reverse with
  | [] => true
  | back::rest =>
    back.toNat%128 != 0 ||
      match rest with
      | [] => false
      | b::_ => 128 ≤ b.toNat

def ofVch (vch : List UInt8) (fRequireMinimal : Bool) : Option ℤ :=
  if 4 < vch.length then none
  else if fRequireMinimal && !isMinimal vch then none
  else some (setVch vch)

def getint (n : ℤ) : ℤ :=
  if intMax < n then intMax else if n < intMin then intMin else n

theorem set_vch_eq (vch : List UInt8) : setVch vch = decode vch := by
  rcases List.eq_nil_or_concat vch with rfl | ⟨bs,b,rfl⟩
  · rfl
  · have hlen : (bs++[b]).length-1 = bs.length := by simp
    have hb : b.toNat < 256 := b.toNat_lt
    have hone : value [b] = b.toNat := by simp [value]
    rw [List.concat_eq_append, setVch, decode, split_snoc, List.getLast?_concat, hlen,
      value_append, hone, ofSplit]
    dsimp only
    by_cases hsign : 128 ≤ b.toNat
    · have hmod : b.toNat = 128+b.toNat%128 := by omega
      simp only [hsign, decide_true, if_true, neg_inj]
      rw [hmod]
      push_cast [Nat.add_mod_left, Nat.mod_mod]
      ring
    · have hmod : b.toNat%128 = b.toNat := Nat.mod_eq_of_lt (by omega)
      simp [hsign, hmod]

theorem serialize_eq (n : ℤ) : serialize n = encode n := by
  rw [serialize, encode]
  rcases List.eq_nil_or_concat (bytes n.natAbs) with hnil | ⟨bs,b,hbs⟩
  · rw [hnil]
    rfl
  · rw [hbs, List.concat_eq_append, close_snoc, List.getLast?_concat, List.dropLast_concat]
    dsimp only
    split
    · by_cases hn : n < 0 <;> simp [hn]
    · by_cases hn : n < 0 <;> simp [hn]

theorem of_vch_bounds {vch : List UInt8} {fRequireMinimal : Bool} {n : ℤ}
    (h : ofVch vch fRequireMinimal = some n) : -0x80000000 < n ∧ n < 0x80000000 := by
  rw [ofVch] at h
  split at h
  · cases h
  · next hlen =>
    split at h
    · cases h
    · rw [Option.some_inj, set_vch_eq] at h
      have hb := decode_bounds vch 3 (by omega)
      rw [h] at hb
      constructor <;> linarith [hb.1, hb.2]

end CScriptNum

theorem int64_small (n : ℤ) (h : -0x200000000 < n ∧ n < 0x200000000) : int64 n = n := by
  rw [int64, BitVec.toInt_ofInt, Int.bmod_eq_of_le_mul_two] <;> omega

theorem cast_to_big_num_eq (vch : List UInt8) : castToBigNum vch = CScriptNum.ofVch vch false := by
  rw [castToBigNum, CScriptNum.ofVch, CBigNum.setvch_eq, CBigNum.getvch_eq, CBigNum.setvch_eq,
    SignMagnitude.decode_encode, CScriptNum.set_vch_eq]
  rfl

theorem getvch_eq_serialize (n : ℤ) : CBigNum.getvch n = CScriptNum.serialize n := by
  rw [CBigNum.getvch_eq, CScriptNum.serialize_eq]

theorem getint_eq {n : ℤ} (h : -0x80000000 < n ∧ n < 0x80000000) :
    CBigNum.getint n = CScriptNum.getint n := by
  have habs : n.natAbs < 2^64 := by omega
  simp only [CBigNum.getint, CScriptNum.getint, if_pos habs, intMax, intMin]
  split_ifs <;> omega

end SwippCore

/-! ## How signatures and public keys have to be written -/

namespace SwippCore

def sigHashAll : ℕ := 1
def sigHashNone : ℕ := 2
def sigHashSingle : ℕ := 3
def sigHashAnyoneCanPay : ℕ := 0x80

def verifyP2SH : ℕ := 1
def verifyStrictEnc : ℕ := 2
def verifyDerSig : ℕ := 4
def verifyLowS : ℕ := 8
def verifyNullDummy : ℕ := 16
def verifySigPushOnly : ℕ := 32
def verifyMinimalData : ℕ := 64
def verifyDiscourageUpgradableNops : ℕ := 128

/-- `flags & flag` -/
def hasFlag (flags flag : ℕ) : Bool := flags &&& flag != 0

def isCompressedOrUncompressedPubKey (vchPubKey : List UInt8) : Bool :=
  if vchPubKey.length < 33 then false
  else if vchPubKey.getD 0 0 = 0x04 then vchPubKey.length == 65
  else if vchPubKey.getD 0 0 = 0x02 || vchPubKey.getD 0 0 = 0x03 then vchPubKey.length == 33
  else false

/-- An integer of a DER signature at `i`, `n` bytes long: not negative, and without a
leading zero that the sign does not ask for. -/
def isDERInteger (vchSig : List UInt8) (i n : ℕ) : Bool :=
  let at' (k : ℕ) := vchSig.getD k 0
  if at' (i-2) ≠ 0x02 then false
  else if n = 0 then false
  else if at' i &&& 0x80 ≠ 0 then false
  else if 1 < n && at' i == 0x00 && at' (i+1) &&& 0x80 == 0 then false
  else true

def isDERSignature (vchSig : List UInt8) (haveHashType : Bool) : Bool :=
  let at' (k : ℕ) := (vchSig.getD k 0).toNat
  let size := vchSig.length
  if size < 9 then false
  else if 73 < size then false
  else if at' 0 ≠ 0x30 then false
  else if at' 1 ≠ size-(if haveHashType then 3 else 2) then false
  else
    let nLenR := at' 3
    if size ≤ 5+nLenR then false
    else
      let nLenS := at' (5+nLenR)
      if nLenR+nLenS+(if haveHashType then 7 else 6) ≠ size then false
      else isDERInteger vchSig 4 nLenR && isDERInteger vchSig (6+nLenR) nLenS

def checkSignatureElement (vch : List UInt8) (half : Bool) : Bool :=
  let n := SignMagnitude.value vch.reverse
  0 < n && n ≤ if half then
    0x7FFFFFFFFFFFFFFFFFFFFFFFFFFFFFFF5D576E7357A4501DDFE92F46681B20A0
  else 0xFFFFFFFFFFFFFFFFFFFFFFFFFFFFFFFEBAAEDCE6AF48A03BBFD25E8CD0364140

def isLowDERSignature (vchSig : List UInt8) : Bool :=
  if !isDERSignature vchSig true then false
  else
    let nLenR := (vchSig.getD 3 0).toNat
    let nLenS := (vchSig.getD (5+nLenR) 0).toNat
    checkSignatureElement ((vchSig.drop (6+nLenR)).take nLenS) true

def isDefinedHashtypeSignature (vchSig : List UInt8) : Bool :=
  match vchSig.getLast? with
  | none => false
  | some b =>
    let nHashType := (b &&& ~~~0x80).toNat
    sigHashAll ≤ nHashType && nHashType ≤ sigHashSingle

/-- `CheckSignatureEncoding` of the older interpreter -/
def checkSignatureEncoding (vchSig : List UInt8) : Bool :=
  if !isLowDERSignature vchSig then false
  else if !isDefinedHashtypeSignature vchSig then false
  else true

/-- `CheckPubKeyEncoding` of the older interpreter -/
def checkPubKeyEncoding (vchPubKey : List UInt8) : Bool :=
  isCompressedOrUncompressedPubKey vchPubKey

end SwippCore
