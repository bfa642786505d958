import SwippCore.Lib.PrefixCode

/-!
# LZ4 blocks

A block is a list of sequences, each with literals and a match of at least four bytes, and some
literals at the end. Its bytes are hardly more than what it stands for.
-/

set_option autoImplicit false

namespace Lz4Block

def extend (n : ℕ) : List UInt8 :=
  if n < 15 then [] else List.replicate ((n-15)/255) 255++[UInt8.ofNat ((n-15)%255)]

def token (literals extra : ℕ) : UInt8 := UInt8.ofNat (16*min literals 15+min extra 15)

structure Sequence where
  literals : List UInt8
  offset : ℕ
  extra : ℕ

def Sequence.bytes (s : Sequence) : List UInt8 :=
  token s.literals.length s.extra::(extend s.literals.length++s.literals++
    PrefixCode.word 2 s.offset++extend s.extra)

def copy (offset : ℕ) : ℕ → List UInt8 → List UInt8
  | 0, out => out
  | n+1, out => copy offset n (out++[out.getD (out.length-offset) 0])

def Sequence.play (s : Sequence) (out : List UInt8) : Option (List UInt8) :=
  if 0 < s.offset ∧ s.offset ≤ (out++s.literals).length then
    some (copy s.offset (s.extra+4) (out++s.literals))
  else none

def play : List Sequence → List UInt8 → List UInt8 → Option (List UInt8)
  | [], last, out => some (out++last)
  | s::ss, last, out => (s.play out).bind (play ss last)

structure Block where
  sequences : List Sequence
  last : List UInt8

def Block.bytes (b : Block) : List UInt8 :=
  b.sequences.flatMap Sequence.bytes++(token b.last.length 0::(extend b.last.length++b.last))

def Block.plain (b : Block) : Option (List UInt8) := play b.sequences b.last []

theorem length_extend (n : ℕ) : (extend n).length = (n+240)/255 := by
  unfold extend
  split
  · rw [List.length_nil]
    omega
  · rw [List.length_append, List.length_replicate, List.length_singleton]
    omega

theorem length_bytes (s : Sequence) :
    s.bytes.length = 3+(s.literals.length+240)/255+s.literals.length+(s.extra+240)/255 := by
  unfold Sequence.bytes
  rw [List.length_cons, List.length_append, List.length_append, List.length_append, length_extend,
    length_extend, PrefixCode.word_length]
  omega

theorem length_copy (offset n : ℕ) (out : List UInt8) : (copy offset n out).length = out.length+n := by
  induction n generalizing out with
  | zero => rfl
  | succ n ih =>
    rw [copy, ih, List.length_append, List.length_singleton]
    omega

theorem length_play {s : Sequence} {out made : List UInt8} (h : s.play out = some made) :
    made.length = out.length+s.literals.length+(s.extra+4) := by
  unfold Sequence.play at h
  split at h
  · cases h
    rw [length_copy, List.length_append]
  · cases h

theorem sequences_bound {ss : List Sequence} (last out made : List UInt8)
    (h : play ss last out = some made) :
    ∃ n, made.length = out.length+n ∧
      (ss.flatMap Sequence.bytes).length+(last.length+240)/255+last.length ≤ n+(n+240)/255 := by
  induction ss generalizing out with
  | nil =>
    cases h
    refine ⟨last.length,List.length_append,?_⟩
    rw [List.flatMap_nil, List.length_nil]
    omega
  | cons s ss ih =>
    obtain ⟨next,hnext,h⟩ := Option.bind_eq_some_iff.mp h
    obtain ⟨n,hlength,hbound⟩ := ih next h
    have hstep := length_play hnext
    refine ⟨s.literals.length+(s.extra+4)+n,by omega,?_⟩
    rw [List.flatMap_cons, List.length_append, length_bytes]
    omega

theorem bytes_bound {b : Block} {m : List UInt8} (h : b.plain = some m) :
    b.bytes.length ≤ m.length+(m.length+240)/255+1 := by
  obtain ⟨n,hlength,hbound⟩ := sequences_bound b.last [] m h
  rw [List.length_nil, Nat.zero_add] at hlength
  unfold Block.bytes
  rw [List.length_append, List.length_cons, List.length_append, length_extend, hlength]
  omega

theorem literal_plain (m : List UInt8) : Block.plain ⟨[],m⟩ = some m := rfl

end Lz4Block
