import SwippCore.Primitives
import SwippCore.Lib.PrefixCode

/-!
# Bytes of the wire

The writers of serialize.h for transactions, and the readers beside them.
-/

set_option autoImplicit false

namespace SwippCore
open PrefixCode

def writeCompactSize (nSize : ℕ) : List UInt8 :=
  if nSize < 253 then word 1 nSize
  else if nSize ≤ 0xffff then word 1 253++word 2 nSize
  else if nSize ≤ 0xffffffff then word 1 254++word 4 nSize
  else word 1 255++word 8 nSize

def COutPoint.serialize (o : COutPoint) : List UInt8 := word 32 o.hash.toNat++word 4 o.n

def CScript.serialize (s : CScript) : List UInt8 := vector writeCompactSize (fun b => [b]) s

def CTxIn.serialize (i : CTxIn) : List UInt8 :=
  i.prevout.serialize++(CScript.serialize i.scriptSig++word 4 i.nSequence)

def CTxOut.serialize (o : CTxOut) : List UInt8 :=
  signedWord 8 o.nValue++CScript.serialize o.scriptPubKey

def CTransaction.serialize (tx : CTransaction) : List UInt8 :=
  signedWord 4 tx.nVersion++(word 4 tx.nTime++(vector writeCompactSize CTxIn.serialize tx.vin++
    (vector writeCompactSize CTxOut.serialize tx.vout++word 4 tx.nLockTime)))

def COutPoint.Fits (o : COutPoint) : Prop := o.hash.toNat < 256^32 ∧ o.n < 256^4

def CScript.Fits (s : CScript) : Prop := s.length < 2^64 ∧ ∀ b ∈ s, True

def CTxIn.Fits (i : CTxIn) : Prop :=
  i.prevout.Fits ∧ CScript.Fits i.scriptSig ∧ i.nSequence < 256^4

def CTxOut.Fits (o : CTxOut) : Prop := FitsSigned 8 o.nValue ∧ CScript.Fits o.scriptPubKey

def CTransaction.Fits (tx : CTransaction) : Prop :=
  FitsSigned 4 tx.nVersion ∧ tx.nTime < 256^4 ∧ (tx.vin.length < 2^64 ∧ ∀ i ∈ tx.vin, i.Fits) ∧
    (tx.vout.length < 2^64 ∧ ∀ o ∈ tx.vout, o.Fits) ∧ tx.nLockTime < 256^4

namespace Serialize

def mark (n : ℕ) : ℕ :=
  if n < 253 then n else if n ≤ 0xffff then 253 else if n ≤ 0xffffffff then 254 else 255

def following (m : ℕ) : ℕ :=
  if m < 253 then 0 else if m = 253 then 2 else if m = 254 then 4 else 8

theorem compact_size_eq (n : ℕ) : writeCompactSize n = word 1 (mark n)++word (following (mark n)) n := by
  unfold writeCompactSize mark
  split
  · next h => rw [following, if_pos h, word, List.append_nil]
  · split
    · rfl
    · split <;> rfl

theorem mark_lt (n : ℕ) : mark n < 256^1 := by
  unfold mark
  split_ifs <;> omega

/-- The bytes after the mark hold the number; where there are none the mark is the number. -/
theorem following_holds {n : ℕ} (hn : n < 2^64) :
    if following (mark n) = 0 then mark n = n else n < 256^following (mark n) := by
  by_cases h1 : n < 253
  · have hmark : mark n = n := if_pos h1
    rw [hmark, following, if_pos h1, if_pos rfl]
  · unfold mark
    rw [if_neg h1]
    by_cases h2 : n ≤ 0xffff
    · rw [if_pos h2]
      exact Nat.lt_succ_of_le h2
    · rw [if_neg h2]
      by_cases h3 : n ≤ 0xffffffff
      · rw [if_pos h3]
        exact Nat.lt_succ_of_le h3
      · rw [if_neg h3]
        exact hn

theorem compact_size_delimited : Delimited writeCompactSize (· < 2^64) := by
  intro m n r s hm hn h
  rw [compact_size_eq, compact_size_eq, List.append_assoc, List.append_assoc] at h
  obtain ⟨hmark,h⟩ := word_delimited 1 _ _ _ _ (mark_lt m) (mark_lt n) h
  have hm := following_holds hm
  have hn := following_holds hn
  rw [hmark] at hm h
  split at hn
  · next hzero =>
    rw [if_pos hzero] at hm
    rw [hzero] at h
    exact ⟨hm.symm.trans hn,h⟩
  · next hpos =>
    rw [if_neg hpos] at hm
    exact word_delimited _ _ _ _ _ hm hn h

theorem script_delimited : Delimited CScript.serialize CScript.Fits :=
  vector_delimited compact_size_delimited
    (delimited_of_length _ _ (fun _ _ => rfl) (fun _ _ _ _ h => (List.cons.inj h).1))

theorem out_point_delimited : Delimited COutPoint.serialize COutPoint.Fits :=
  delimited_comp (fun o : COutPoint => (o.hash.toNat,o.n))
    (fun a b h => by
      obtain ⟨hhash,hn⟩ := Prod.mk.inj h
      cases a
      cases b
      rw [BitVec.toNat_inj] at hhash
      exact congrArg₂ COutPoint.mk hhash hn)
     (delimited_pair (word_delimited 32) (word_delimited 4))

theorem tx_in_delimited : Delimited CTxIn.serialize CTxIn.Fits :=
  delimited_comp (fun i : CTxIn => (i.prevout,i.scriptSig,i.nSequence))
    (fun a b h => by
      cases a
      cases b
      simp only [Prod.mk.injEq] at h
      rw [CTxIn.mk.injEq]
      exact h)
     (delimited_pair out_point_delimited
      (delimited_pair script_delimited (word_delimited 4)))

theorem tx_out_delimited : Delimited CTxOut.serialize CTxOut.Fits :=
  delimited_comp (fun o : CTxOut => (o.nValue,o.scriptPubKey))
    (fun a b h => by
      cases a
      cases b
      simp only [Prod.mk.injEq] at h
      rw [CTxOut.mk.injEq]
      exact h)
     (delimited_pair (signed_word_delimited 8) script_delimited)

/-- Two transactions with the same bytes are the same, and the same bytes follow them. -/
theorem transaction_delimited : Delimited CTransaction.serialize CTransaction.Fits :=
  delimited_comp (fun tx : CTransaction => (tx.nVersion,tx.nTime,tx.vin,tx.vout,tx.nLockTime))
    (fun a b h => by
      cases a
      cases b
      simp only [Prod.mk.injEq] at h
      rw [CTransaction.mk.injEq]
      exact h)
     (delimited_pair (signed_word_delimited 4)
      (delimited_pair (word_delimited 4)
        (delimited_pair (vector_delimited compact_size_delimited tx_in_delimited)
          (delimited_pair (vector_delimited compact_size_delimited tx_out_delimited)
            (word_delimited 4)))))

end Serialize

end SwippCore

namespace SwippCore.Unserialize
open PrefixCode Readers

def maxSize : ℕ := 0x02000000

def getSizeOfCompactSize (nSize : ℕ) : BitVec 32 :=
  if nSize < 253 then 1
  else if nSize ≤ 0xffff then 1+2
  else if nSize ≤ 0xffffffff then 1+4
  else 1+8

def readCompactSize : Reader ℕ := do
  let chSize ← readWord 1
  let nSizeRet ←
    if chSize < 253 then pure chSize
    else if chSize = 253 then do
      let xSize ← readWord 2
      if xSize < 253 then failure else pure xSize
    else if chSize = 254 then do
      let xSize ← readWord 4
      if xSize < 0x10000 then failure else pure xSize
    else do
      let xSize ← readWord 8
      if xSize < 0x100000000 then failure else pure xSize
  if maxSize < nSizeRet then failure else pure nSizeRet

section Sizes

theorem size_of_compact_size (n : ℕ) :
    getSizeOfCompactSize n = BitVec.ofNat 32 (writeCompactSize n).length := by
  unfold getSizeOfCompactSize writeCompactSize
  split_ifs <;> simp only [List.length_append, word_length] <;> rfl

theorem read_compact_size (n : ℕ) (hn : n < 2^64) (rest : List UInt8) :
    readCompactSize (writeCompactSize n++rest) = if n ≤ maxSize then some (n,rest) else none := by
  have hend : (fun nSizeRet : ℕ => (if maxSize < nSizeRet then failure else pure nSizeRet : Reader ℕ)) n
      rest = if n ≤ maxSize then some (n,rest) else none := by
    dsimp only
    by_cases hle : n ≤ maxSize
    · rw [if_neg (by omega), if_pos hle]
      rfl
    · rw [if_pos (by omega), if_neg hle]
      rfl
  rw [← hend]
  unfold readCompactSize writeCompactSize
  by_cases h1 : n < 253
  · rw [if_pos h1, bind_read _ _ (read_word 1 _ _ (by omega)), if_pos h1, pure_bind]
  · rw [if_neg h1]
    by_cases h2 : n ≤ 0xffff
    · rw [if_pos h2, List.append_assoc, bind_read _ _ (read_word 1 _ _ (by omega)),
        if_neg (by omega), if_pos rfl,
        bind_read _ _ (read_word 2 _ _ (by omega)), if_neg (by omega), pure_bind]
    · rw [if_neg h2]
      by_cases h3 : n ≤ 0xffffffff
      · rw [if_pos h3, List.append_assoc,
          bind_read _ _ (read_word 1 _ _ (by omega)), if_neg (by omega), if_neg (by omega),
          if_pos rfl, bind_read _ _ (read_word 4 _ _ (by omega)),
          if_neg (by omega), pure_bind]
      · rw [if_neg h3, List.append_assoc,
          bind_read _ _ (read_word 1 _ _ (by omega)), if_neg (by omega), if_neg (by omega),
          if_neg (by omega), bind_read _ _ (read_word 8 _ _ (by omega)),
          if_neg (by omega), pure_bind]

end Sizes

def compactSize : Codec ℕ where
  size := getSizeOfCompactSize
  write := writeCompactSize
  read := readCompactSize
  Fits n := n ≤ maxSize
  size_write := size_of_compact_size
  read_write n hn r := by
    rw [read_compact_size n (by unfold maxSize at hn; omega), if_pos hn]

section Values

/-- Bytes after their number: a `std::string`, a script or a vector of chars. -/
def chars : Codec (List UInt8) := Codec.byte.vector compactSize

def uint256 : Codec Uint256 :=
  Codec.record BitVec.toNat (BitVec.ofNat 256) (fun a => by simp) (Codec.number 32)

def outPoint : Codec COutPoint :=
  Codec.record (fun o => (o.hash,o.n)) (fun x => ⟨x.1,x.2⟩) (fun _ => rfl) (uint256.pair (Codec.number 4))

def txIn : Codec CTxIn :=
  Codec.record (fun i => (i.prevout,i.scriptSig,i.nSequence)) (fun x => ⟨x.1,x.2.1,x.2.2⟩) (fun _ => rfl)
    (outPoint.pair (chars.pair (Codec.number 4)))

def txOut : Codec CTxOut :=
  Codec.record (fun o => (o.nValue,o.scriptPubKey)) (fun x => ⟨x.1,x.2⟩) (fun _ => rfl)
    ((Codec.signed 8).pair chars)

def transaction : Codec CTransaction :=
  Codec.record (fun tx => (tx.nVersion,tx.nTime,tx.vin,tx.vout,tx.nLockTime))
    (fun x => ⟨x.1,x.2.1,x.2.2.1,x.2.2.2.1,x.2.2.2.2⟩) (fun _ => rfl)
    ((Codec.signed 4).pair ((Codec.number 4).pair ((txIn.vector compactSize).pair
      ((txOut.vector compactSize).pair (Codec.number 4)))))

end Values

inductive SerAction where
  | getSerializeSize
  | serialize
  | unserialize
  deriving DecidableEq, Repr

structure SerStream where
  nSerSize : BitVec 32
  bytes : List UInt8

section Actions
variable {α : Type} (c : Codec α)

/-- `SerReadWrite`; none where reading throws. -/
def serReadWrite (ser_action : SerAction) (obj : α) (s : SerStream) : Option (α × SerStream) :=
  match ser_action with
  | .getSerializeSize => some (obj,{ s with nSerSize := s.nSerSize+c.size obj })
  | .serialize => some (obj,{ s with bytes := s.bytes++c.write obj })
  | .unserialize => (c.read s.bytes).map fun x => (x.1,{ s with bytes := x.2 })

theorem ser_read {obj : α} (old : α) (n : BitVec 32) (r : List UInt8) (h : c.Fits obj) :
    serReadWrite c .unserialize old ⟨n,c.write obj++r⟩ = some (obj,⟨n,r⟩) := by
  rw [serReadWrite, c.read_write obj h r]
  rfl

theorem ser_pair {β : Type} (d : Codec β) (ser_action : SerAction) (x : α × β) (s : SerStream) :
    serReadWrite (c.pair d) ser_action x s =
      (serReadWrite c ser_action x.1 s).bind fun y =>
        (serReadWrite d ser_action x.2 y.2).map fun z => ((y.1,z.1),z.2) := by
  cases ser_action with
  | getSerializeSize =>
    show some (x,SerStream.mk _ _) = some ((x.1,x.2),SerStream.mk _ _)
    rw [Codec.pair, ← BitVec.add_assoc]
  | serialize =>
    show some (x,SerStream.mk _ _) = some ((x.1,x.2),SerStream.mk _ _)
    rw [Codec.pair, ← List.append_assoc]
  | unserialize =>
    simp only [serReadWrite, Codec.pair]
    cases c.read s.bytes with
    | none => rfl
    | some y =>
      simp only [Option.bind_some, Option.map_some, Option.map_map]
      rfl

end Actions

end SwippCore.Unserialize
