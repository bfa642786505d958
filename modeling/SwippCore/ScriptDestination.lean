import SwippCore.MasternodePayments
import SwippCore.WalletKeys

/-!
# Scripts of pushes and destinations

What is pushed is read back, and the script of a destination gives the destination back.
-/

set_option autoImplicit false

namespace SwippCore.ScriptDestination
open Opcodetype Standard PrefixCode SignMagnitude Masternode

section Pushes

theorem value_size {n w : ℕ} (h : n < 256^w) :
    value ((List.range w).map fun i => UInt8.ofNat (n/256^i)) = n := by
  have hword : ∀ w n : ℕ, ((List.range w).map fun i => UInt8.ofNat (n/256^i)) = word w n := by
    intro w
    induction w with
    | zero =>
      intro n
      rfl
    | succ w ih =>
      intro n
      rw [List.range_succ_eq_map, List.map_cons, List.map_map, word, ← ih (n/256)]
      congr 1
      · rw [pow_zero, Nat.div_one]
      · apply List.map_congr_left
        intro i _
        change UInt8.ofNat (n/256^(i+1)) = UInt8.ofNat (n/256/256^i)
        rw [Nat.div_div_eq_div_mul, pow_succ, Nat.mul_comm]
  rw [hword, value_word w n h]

theorem get_op_sized {c : UInt8} (size b rest : List UInt8) (hc : ¬c < 0x4c) (hle : c ≤ 0x4e)
    (hsize : size.length = CScript.sizeBytes c) (hvalue : value size = b.length) :
    CScript.getOp (c::(size++(b++rest))) = some ((ofByte c,b),rest) := by
  have hlen : ¬(size++(b++rest)).length < CScript.sizeBytes c := by
    rw [List.length_append, hsize]
    omega
  have hop : CScript.operandSize c (size++(b++rest)) = some (b.length,b++rest) := by
    rw [CScript.operandSize, if_neg hc, if_neg hlen, ← hsize, List.take_left, List.drop_left, hvalue]
  rw [CScript.getOp, if_pos hle, hop]
  dsimp only
  rw [if_neg (by rw [List.length_append]; omega), List.take_left, List.drop_left]

theorem get_op_direct (b rest : List UInt8) (h : b.length < 0x4c) :
    CScript.getOp (UInt8.ofNat b.length::(b++rest)) = some ((ofByte (UInt8.ofNat b.length),b),rest) := by
  have hto : (UInt8.ofNat b.length).toNat = b.length := UInt8.toNat_ofNat_of_lt' (Nat.lt_of_lt_of_le h (by decide))
  have hlt : UInt8.ofNat b.length < 0x4c := by
    rw [UInt8.lt_iff_toNat_lt, hto]
    exact h
  have hle : UInt8.ofNat b.length ≤ 0x4e := by
    rw [UInt8.le_iff_toNat_le, hto]
    change b.length ≤ 78
    omega
  rw [CScript.getOp, if_pos hle, CScript.operandSize, if_pos hlt, hto]
  dsimp only
  rw [if_neg (by rw [List.length_append]; omega), List.take_left, List.drop_left]

theorem get_op_push (b rest : List UInt8) (h : b.length < 2^32) :
    ∃ op, CScript.getOp (CScript.push b++rest) = some ((op,b),rest) := by
  unfold CScript.push
  dsimp only
  split_ifs with h1 h2 h3
  · exact ⟨_,get_op_direct b rest h1⟩
  · simp only [List.cons_append, List.append_assoc]
    exact ⟨_,get_op_sized _ b rest (by decide) (by decide) (by simp [CScript.sizeBytes])
      (value_size (by omega))⟩
  · simp only [List.cons_append, List.append_assoc]
    exact ⟨_,get_op_sized _ b rest (by decide) (by decide) (by simp [CScript.sizeBytes])
      (value_size (by omega))⟩
  · simp only [List.cons_append, List.append_assoc]
    exact ⟨_,get_op_sized _ b rest (by decide) (by decide) (by simp [CScript.sizeBytes])
      (value_size (by omega))⟩

theorem get_op_plain {c : UInt8} (rest : CScript) (h : ¬c ≤ 0x4e) :
    CScript.getOp (c::rest) = some ((ofByte c,[]),rest) := by
  rw [CScript.getOp, if_neg h]

end Pushes

section Destinations

inductive CTxDestination where
  | none
  | keyID (id : Uint160)
  | scriptID (id : Uint160)
  deriving DecidableEq

def setDestination : CTxDestination → CScript
  | .none => []
  | .keyID id => scriptForKey id
  | .scriptID id => [0xa9,20]++keyBytes id++[0x87]

variable (id : Uint160)

theorem key_bytes_length : (keyBytes id).length = 20 := by
  rw [keyBytes, List.length_map, List.length_range]

theorem key_bytes_value : value (keyBytes id) = id.toNat := by
  have hsize : keyBytes id = (List.range 20).map fun i => UInt8.ofNat (id.toNat/256^i) := by
    rw [keyBytes]
    apply List.map_congr_left
    intro i _
    apply UInt8.toNat_inj.mp
    rw [BitVec.toNat_ushiftRight, Nat.shiftRight_eq_div_pow, pow_mul]
    simp
  rw [hsize, value_size]
  exact id.isLt

theorem script_for_key_cons :
    scriptForKey id = 0x76::0xa9::20::(keyBytes id++[0x88,0xac]) := rfl

theorem get_op_id (rest : CScript) :
    CScript.getOp (20::(keyBytes id++rest)) = some ((pushBytes 20,keyBytes id),rest) := by
  have h := get_op_direct (keyBytes id) rest (by rw [key_bytes_length]; decide)
  rw [key_bytes_length] at h
  exact h

theorem script_for_key_length : (scriptForKey id).length = 25 := by
  rw [script_for_key_cons]
  simp [key_bytes_length]

theorem solver_script_for_key : solver (scriptForKey id) = some (.pubKeyHash,[keyBytes id]) := by
  have hnot : CScript.isPayToScriptHash (scriptForKey id) = false := by
    rw [CScript.isPayToScriptHash, script_for_key_length]
    rfl
  have hdup : CScript.getOp (scriptForKey id) =
      some ((opDup,[]),0xa9::20::(keyBytes id++[0x88,0xac])) :=
    get_op_plain _ (by decide)
  have hhash : CScript.getOp (0xa9::20::(keyBytes id++[0x88,0xac])) =
      some ((opHash160,[]),20::(keyBytes id++[0x88,0xac])) := get_op_plain _ (by decide)
  have hpubkey : matchTemplate [opPubKey,opCheckSig] (scriptForKey id) = none := by
    rw [matchTemplate, hdup]
    rfl
  have hmatch : matchTemplate [opDup,opHash160,opPubKeyHash,opEqualVerify,opCheckSig]
      (scriptForKey id) = some [keyBytes id] := by
    have hid : matchOp opPubKeyHash (pushBytes 20,keyBytes id) = some [keyBytes id] := by
      rw [matchOp, if_neg (by decide), if_pos rfl, if_pos (key_bytes_length id)]
    rw [matchTemplate, hdup]
    dsimp only
    rw [if_neg (by decide), matchTemplate, hhash]
    dsimp only
    rw [if_neg (by decide), matchTemplate, get_op_id]
    dsimp only
    rw [if_neg (by decide), hid]
    rfl
  rw [solver, hnot, if_neg (by decide), mTemplates, scanTemplates, hpubkey]
  dsimp only
  rw [scanTemplates, hmatch]
  rfl

theorem solver_return (rest : CScript) : ∀ x vs, solver (0x6a::rest) = some (x,vs) → x = .nullData := by
  have hget : CScript.getOp (0x6a::rest) = some ((opReturn,[]),rest) := get_op_plain rest (by decide)
  have hnot : CScript.isPayToScriptHash (0x6a::rest) = false := by
    rw [CScript.isPayToScriptHash]
    simp
  have h1 : matchTemplate [opPubKey,opCheckSig] (0x6a::rest) = none := by
    rw [matchTemplate, hget]
    rfl
  have h2 : matchTemplate [opDup,opHash160,opPubKeyHash,opEqualVerify,opCheckSig] (0x6a::rest) = none := by
    rw [matchTemplate, hget]
    rfl
  have h3 : matchTemplate [opSmallInteger,opPubKeys,opSmallInteger,opCheckMultiSig] (0x6a::rest) =
      none := by
    rw [matchTemplate, hget]
    rfl
  intro x vs h
  rw [solver, hnot, if_neg (by decide), mTemplates, scanTemplates, h1] at h
  dsimp only at h
  rw [scanTemplates, h2] at h
  dsimp only at h
  rw [scanTemplates, h3] at h
  dsimp only at h
  rw [scanTemplates] at h
  split at h
  · rw [scanTemplates] at h
    split at h
    · cases h
    · rw [if_neg fun hm => TxnOutType.noConfusion hm.1] at h
      cases h
      rfl
  · rw [if_neg fun hm => TxnOutType.noConfusion hm.1] at h
    cases h
    rfl

variable (E : Key.KeyEnv)

theorem key_destination_key : WalletKeys.keyDestination E (scriptForKey id) = some id := by
  rw [WalletKeys.keyDestination, solver_script_for_key]
  dsimp only
  rw [key_bytes_value, BitVec.ofNat_toNat, BitVec.setWidth_eq]

theorem key_destination_return (rest : CScript) : WalletKeys.keyDestination E (0x6a::rest) = none := by
  have hret := solver_return rest
  rw [WalletKeys.keyDestination]
  cases hs : solver (0x6a::rest) with
  | none => rfl
  | some x =>
    obtain ⟨t,vs⟩ := x
    obtain rfl := hret t vs hs
    rfl

theorem destination_plain {dest : CTxDestination} {op : Opcodetype} {vch : Valtype} {pc : CScript}
    (h : CScript.getOp (setDestination dest) = some ((op,vch),pc)) : op ≠ opReturn := by
  cases dest with
  | none => cases h
  | keyID id =>
    rw [setDestination, script_for_key_cons, get_op_plain _ (by decide)] at h
    cases h
    decide
  | scriptID id =>
    rw [setDestination, List.cons_append, List.cons_append, get_op_plain _ (by decide)] at h
    cases h
    decide

end Destinations

end SwippCore.ScriptDestination
