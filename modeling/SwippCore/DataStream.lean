import SwippCore.Lib.PrefixCode

/-!
# The stream over a vector

`CDataStream` with its read position against the bytes that are left.
-/

set_option autoImplicit false

namespace SwippCore.DataStream
open Readers

structure CDataStream where
  vch : List UInt8
  nReadPos : ℕ

/-- The calls, with iterators counted from `begin()`: `fill` is `insert` of copies of a byte, and
`put` a `memcpy` to an element. -/
inductive Op where
  | write (b : List UInt8)
  | read (nSize : ℕ)
  | insert (it : ℕ) (b : List UInt8)
  | fill (it n : ℕ) (x : UInt8)
  | put (pos : ℕ) (b : List UInt8)
  | resize (n : ℕ) (c : UInt8)
  | clear
  | getAndClear

inductive Reply where
  | done
  | bytes (b : List UInt8)
  | failure

section Vector
variable (s : CDataStream)

/-- `memcpy` from the read position; none where it leaves the vector. -/
def copy (nSize : ℕ) : Option (List UInt8) :=
  if s.nReadPos+nSize ≤ s.vch.length then some ((s.vch.drop s.nReadPos).take nSize) else none

def read (nSize : ℕ) : Option (CDataStream × Reply) :=
  let nReadPosNext := (s.nReadPos+nSize)%2^32
  if s.vch.length ≤ nReadPosNext then
    if s.vch.length < nReadPosNext then some (s,.failure)
    else (copy s nSize).map (fun b => (⟨[],0⟩,.bytes b))
  else (copy s nSize).map (fun b => (⟨s.vch,nReadPosNext⟩,.bytes b))

/-- `memcpy` to a position of the vector. -/
def overwrite (pos : ℕ) (b : List UInt8) : Option (List UInt8) :=
  if pos+b.length ≤ s.vch.length then some (s.vch.take pos++b++s.vch.drop (pos+b.length)) else none

def insertAt (it : ℕ) (b : List UInt8) : List UInt8 :=
  s.vch.take (s.nReadPos+it)++b++s.vch.drop (s.nReadPos+it)

/-- `insert`; bytes that were read make room for what comes in front. -/
def insert (it : ℕ) (b : List UInt8) : Option CDataStream :=
  if it = 0 ∧ b.length%2^32 ≤ s.nReadPos then
    let nReadPos := s.nReadPos-b.length%2^32
    (overwrite s nReadPos b).map (⟨·,nReadPos⟩)
  else some ⟨insertAt s it b,s.nReadPos⟩

end Vector

def step (s : CDataStream) : Op → Option (CDataStream × Reply)
  | .write b => some (⟨s.vch++b,s.nReadPos⟩,.done)
  | .read nSize => read s nSize
  | .insert it b => (insert s it b).map (·,.done)
  | .fill it n x => some (⟨insertAt s it (List.replicate n x),s.nReadPos⟩,.done)
  | .put pos b => (overwrite s (s.nReadPos+pos) b).map (⟨·,s.nReadPos⟩,.done)
  | .resize n c => some (⟨s.vch.take (n+s.nReadPos)++
      List.replicate (n+s.nReadPos-s.vch.length) c,s.nReadPos⟩,.done)
  | .clear => some (⟨[],0⟩,.done)
  | .getAndClear => some (⟨[],0⟩,.bytes (s.vch.drop s.nReadPos))

/-- The calls on the bytes themselves; none where a place is invalid or a read too long for any
stream. -/
def plainStep (rest : List UInt8) : Op → Option (List UInt8 × Reply)
  | .write b => some (rest++b,.done)
  | .read n => if 2^31 ≤ n then none else some <| match readBlock n rest with
      | some (b,rest) => (rest,.bytes b)
      | none => (rest,.failure)
  | .insert it b => if rest.length < it then none
      else some (rest.take it++b++rest.drop it,.done)
  | .fill it n x => if rest.length < it then none
      else some (rest.take it++List.replicate n x++rest.drop it,.done)
  | .put pos b => if rest.length < pos+b.length then none
      else some (rest.take pos++b++rest.drop (pos+b.length),.done)
  | .resize n c => some (rest.take n++List.replicate (n-rest.length) c,.done)
  | .clear => some ([],.done)
  | .getAndClear => some ([],.bytes rest)

def run {σ : Type} (step : σ → Op → Option (σ × Reply)) : List Op → σ → Option (σ × List Reply)
  | [], s => some (s,[])
  | op::ops, s => (step s op).bind (fun r => (run step ops r.1).map (fun t => (t.1,r.2::t.2)))

/-- The bytes that a call may add to the vector. -/
def added : Op → ℕ
  | .write b => b.length
  | .insert _ b => b.length
  | .fill _ n _ => n
  | .resize n _ => n
  | _ => 0

/-- A stream that has these bytes left, behind some that were read. -/
def stream (gone rest : List UInt8) : CDataStream := ⟨gone++rest,gone.length⟩

theorem step_shows (gone : List UInt8) {rest rest' : List UInt8} {op : Op} {r : Reply}
    (h : plainStep rest op = some (rest',r)) (hsize : gone.length+rest.length+added op < 2^31) :
    ∃ gone', step (stream gone rest) op = some (stream gone' rest',r) ∧
      gone'.length+rest'.length ≤ gone.length+rest.length+added op := by
  have hlen : (stream gone rest).vch.length = gone.length+rest.length := List.length_append
  have hpos : (stream gone rest).nReadPos = gone.length := rfl
  have htake : ∀ i, (gone++rest).take (gone.length+i) = gone++rest.take i :=
    fun i => List.take_length_add_append ..
  cases op with
  | write b =>
    cases h
    exact ⟨gone,by simp [step, stream],by simp [added, Nat.add_assoc]⟩
  | read n =>
    simp only [plainStep] at h
    split_ifs at h with hn
    have hnext : (gone.length+n)%2^32 = gone.length+n := Nat.mod_eq_of_lt (by omega)
    by_cases hr : n ≤ rest.length
    · rw [readBlock, if_pos hr] at h
      cases h
      have hcopy : copy (stream gone rest) n = some (rest.take n) := by simp [copy, stream, hr]
      rw [step, read, hcopy, hlen, hpos, hnext]
      by_cases hend : n = rest.length
      · refine ⟨[],?_,by simp [hend]⟩
        rw [if_pos (by omega), if_neg (by omega), hend, List.drop_length]
        rfl
      · refine ⟨gone++rest.take n,?_,by simp; omega⟩
        rw [if_neg (by omega)]
        simp [stream, hr]
    · rw [readBlock, if_neg hr] at h
      cases h
      refine ⟨gone,?_,Nat.le_add_right _ _⟩
      rw [step, read, hlen, hpos, hnext, if_pos (by omega), if_pos (by omega)]
  | insert it b =>
    simp only [plainStep] at h
    split_ifs at h with hit
    cases h
    change _+b.length < 2^31 at hsize
    rw [step, insert, hpos, Nat.mod_eq_of_lt (by omega)]
    by_cases hroom : it = 0 ∧ b.length ≤ gone.length
    · obtain ⟨rfl,hb⟩ := hroom
      refine ⟨gone.take (gone.length-b.length),?_,?_⟩
      · rw [if_pos ⟨rfl,hb⟩]
        simp [overwrite, stream, Nat.sub_add_cancel hb, List.take_append_of_le_length]
      · simp [added]; omega
    · refine ⟨gone,?_,by simp [added]; omega⟩
      rw [if_neg hroom]
      simp [insertAt, stream, htake]
  | fill it n x =>
    simp only [plainStep] at h
    split_ifs at h with hit
    cases h
    exact ⟨gone,by simp [step, stream, insertAt, htake],by simp [added]; omega⟩
  | put pos b =>
    simp only [plainStep] at h
    split_ifs at h with hput
    cases h
    refine ⟨gone,?_,by simp; omega⟩
    rw [step, overwrite, hlen, hpos, if_pos (by omega)]
    simp [stream, htake, Nat.add_assoc]
  | resize n c =>
    cases h
    refine ⟨gone,?_,by simp [added]; omega⟩
    simp [step, stream, Nat.add_comm n, htake]
    omega
  | clear =>
    cases h
    exact ⟨[],rfl,Nat.zero_le _⟩
  | getAndClear =>
    cases h
    exact ⟨[],by simp [step, stream],Nat.zero_le _⟩

theorem run_shows {ops : List Op} (gone : List UInt8) {rest rest' : List UInt8} {rs : List Reply}
    (h : run plainStep ops rest = some (rest',rs))
    (hsize : gone.length+rest.length+(ops.map added).sum < 2^31) :
    ∃ gone', run step ops (stream gone rest) = some (stream gone' rest',rs) := by
  induction ops generalizing gone rest rs with
  | nil =>
    cases h
    exact ⟨gone,rfl⟩
  | cons op ops ih =>
    rw [List.map_cons, List.sum_cons] at hsize
    obtain ⟨⟨rest1,r⟩,hstep,hrun⟩ := Option.bind_eq_some_iff.mp h
    obtain ⟨t,htail,hrs⟩ := Option.map_eq_some_iff.mp hrun
    cases hrs
    obtain ⟨gone1,h1,hl⟩ := step_shows gone hstep (by omega)
    obtain ⟨gone2,h2⟩ := ih gone1 htail (by simp only; omega)
    exact ⟨gone2,by rw [run, h1, Option.bind_some, h2]; rfl⟩

/-- Whatever was read or put in front, the calls return what they return on the bytes that are
left, where a read is that of the readers, and none of them leaves the vector. -/
theorem stream_run {ops : List Op} {rest : List UInt8} {rs : List Reply}
    (h : run plainStep ops [] = some (rest,rs)) (hsize : (ops.map added).sum < 2^31) :
    ∃ s, run step ops ⟨[],0⟩ = some (s,rs) ∧ s.vch.drop s.nReadPos = rest := by
  obtain ⟨gone,hrun⟩ := run_shows [] h (by simpa using hsize)
  exact ⟨_,hrun,List.drop_left⟩

theorem stream_run_front :
    ∃ s, run step [.write [1,2,3], .read 2, .insert 0 [9], .read 3, .put 1 [4], .getAndClear] ⟨[],0⟩ =
        some (s,[.done,.bytes [1,2],.done,.failure,.done,.bytes [9,4]]) ∧
      s.vch.drop s.nReadPos = [] :=
  stream_run rfl (by decide)

/-- The sum in `read` has 32 bits. -/
example : read ⟨[1,2],1⟩ (2^32) = none := rfl

end SwippCore.DataStream
