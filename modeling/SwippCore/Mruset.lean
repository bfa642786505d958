import Mathlib.Data.List.Nodup
import SwippCore.Lib.Recent

/-!
# The most recent elements

The container of mruset.h over elements that its set tells apart by a key. The set and
the queue are changed in different branches, and the bound may change at any time. The
queue is the window that the bound leaves on the log of all elements inserted as new.
-/

set_option autoImplicit false

namespace SwippCore

/-- The comparison of `std::set` takes elements with one key for the same. -/
structure Mruset (T : Type) where
  set : List T
  queue : List T
  nMaxSize : ℕ

namespace Mruset
open Recent

variable {T K : Type} [DecidableEq K] (key : T → K)

def start (nMaxSizeIn : ℕ) : Mruset T := ⟨[],[],nMaxSizeIn⟩

/-- `set.count` -/
def count (k : K) (set : List T) : ℕ := set.countP fun y => key y = k

/-- `set.erase` -/
def erase (k : K) (set : List T) : List T := set.filter fun y => key y ≠ k

/-- `set.erase(queue.front())` and `queue.pop_front()`; an empty queue has no front. -/
def popFront (m : Mruset T) : Mruset T :=
  match m.queue with
  | [] => m
  | x::queue => { m with set := erase key (key x) m.set, queue := queue }

def insert (x : T) (m : Mruset T) : Mruset T × Bool :=
  if count key (key x) m.set ≠ 0 then (m,false)
  else
    let m := { m with set := x::m.set }
    let m := if m.nMaxSize ≠ 0 ∧ m.queue.length = m.nMaxSize then popFront key m else m
    ({ m with queue := m.queue++[x] },true)

/-- `while (queue.size() > s)` -/
def shrink (s : ℕ) : List T → List T → List T × List T
  | set, [] => (set,[])
  | set, x::queue =>
    if s < queue.length+1 then shrink s (erase key (key x) set) queue else (set,x::queue)

def maxSize (s : ℕ) (m : Mruset T) : Mruset T :=
  if s ≠ 0 then ⟨(shrink key s m.set m.queue).1,(shrink key s m.set m.queue).2,s⟩
  else { m with nMaxSize := s }

def clear (m : Mruset T) : Mruset T := { m with set := [], queue := [] }

inductive Call (T : Type) where
  | insert (x : T)
  | maxSize (s : ℕ)
  | clear

def step : Call T → Mruset T → Mruset T
  | .insert x, m => (insert key x m).1
  | .maxSize s, m => maxSize key s m
  | .clear, m => clear m

def run : List (Call T) → Mruset T → Mruset T
  | [], m => m
  | c::cs, m => run cs (step key c m)

def follow : Call T → ℕ × Window T → ℕ × Window T
  | .insert x, (bound,w) =>
    (bound,if key x ∈ w.present.map key then w else push bound x w)
  | .maxSize s, (_,w) => (s,cut s w)
  | .clear, (bound,_) => (bound,empty)

def recent : List (Call T) → ℕ × Window T → ℕ × Window T
  | [], w => w
  | c::cs, w => recent cs (follow key c w)

structure Shows (m : Mruset T) (w : ℕ × Window T) : Prop where
  bound : m.nMaxSize = w.1
  queue : m.queue = w.2.present
  set : m.set.Perm m.queue
  nodup : (m.queue.map key).Nodup
  held : w.1 ≠ 0 → w.2.kept ≤ w.1

variable {key}

theorem count_iff (k : K) (set : List T) : count key k set ≠ 0 ↔ k ∈ set.map key := by
  simp [count]

theorem erase_perm {x : T} {set queue : List T} (hs : set.Perm (x::queue))
    (hn : ((x::queue).map key).Nodup) : (erase key (key x) set).Perm queue := by
  have hx : key x ∉ queue.map key := (List.nodup_cons.mp hn).1
  have hkeep : queue.filter (fun y => key y ≠ key x) = queue := by
    rw [List.filter_eq_self]
    intro y hy
    have hne : key y ≠ key x := fun he => hx (he ▸ List.mem_map_of_mem hy)
    simp [hne]
  have hfilter := hs.filter fun y => decide (key y ≠ key x)
  rw [List.filter_cons_of_neg (by simp), hkeep] at hfilter
  exact hfilter

theorem shrink_spec (s : ℕ) (set queue : List T) (hs : set.Perm queue)
    (hn : (queue.map key).Nodup) : (shrink key s set queue).2 = queue.drop (queue.length-s) ∧
      (shrink key s set queue).1.Perm (shrink key s set queue).2 := by
  induction queue generalizing set with
  | nil => exact ⟨by simp [shrink],hs⟩
  | cons x queue ih =>
    by_cases hlong : s < queue.length+1
    · have hrest := ih (erase key (key x) set) (erase_perm hs hn) (List.nodup_cons.mp hn).2
      have hdrop : (x::queue).length-s = queue.length-s+1 := by
        rw [List.length_cons]
        omega
      rw [shrink, if_pos hlong, hdrop, List.drop_succ_cons]
      exact hrest
    · have hdrop : (x::queue).length-s = 0 := by
        rw [List.length_cons]
        omega
      rw [shrink, if_neg hlong, hdrop]
      exact ⟨rfl,hs⟩

variable {m : Mruset T} {w : ℕ × Window T}

theorem shows_insert (x : T) (h : Shows key m w) :
    Shows key (insert key x m).1 (follow key (.insert x) w) := by
  obtain ⟨bound,w⟩ := w
  obtain ⟨hbound,hqueue,hset,hnodup,hheld⟩ := h
  dsimp only at hbound hqueue hheld
  have hcount : count key (key x) m.set ≠ 0 ↔ key x ∈ w.present.map key := by
    rw [count_iff, (hset.map key).mem_iff, hqueue]
  by_cases hx : key x ∈ w.present.map key
  · rw [insert, if_pos (hcount.mpr hx), follow, if_pos hx]
    exact ⟨hbound,hqueue,hset,hnodup,hheld⟩
  have hlen : m.queue.length = w.kept := by rw [hqueue, present_length]
  have hfresh : ((m.queue++[x]).map key).Nodup := by
    rw [List.map_append, List.nodup_append]
    refine ⟨hnodup,List.nodup_singleton _,?_⟩
    intro a ha b hb hab
    rw [hab, List.mem_singleton.mp hb, hqueue] at ha
    exact hx ha
  have hpush := present_push w bound x
  rw [insert, if_neg (fun hc => hx (hcount.mp hc)), follow, if_neg hx]
  by_cases hfull : m.nMaxSize ≠ 0 ∧ m.queue.length = m.nMaxSize
  · have hb0 : bound ≠ 0 := hbound ▸ hfull.1
    have hkept : bounded bound (w.kept+1) = w.kept := by
      rw [bounded, if_neg hb0]
      omega
    rw [hkept, Nat.add_sub_cancel_left] at hpush
    simp only [if_pos hfull]
    cases hq : m.queue with
    | nil =>
      rw [hq] at hfull
      exact absurd hfull.2.symm hfull.1
    | cons y queue =>
      simp only [popFront]
      rw [hq] at hset hnodup hfresh
      rw [← hqueue, hq] at hpush
      have hne : key x ≠ key y := by
        intro he
        apply hx
        rw [← hqueue, hq, he]
        exact List.mem_map_of_mem List.mem_cons_self
      have hout : erase key (key y) (x::m.set) = x::erase key (key y) m.set := by
        rw [erase, List.filter_cons_of_pos (by simp [hne])]
        rfl
      refine ⟨hbound,?_,?_,(List.nodup_cons.mp hfresh).2,?_⟩
      · rw [hpush]
        rfl
      · rw [hout]
        exact ((erase_perm hset hnodup).cons x).trans (List.perm_append_singleton x queue).symm
      · intro hb
        exact bounded_within _ hb
  · have hkept : bounded bound (w.kept+1) = w.kept+1 := by
      unfold bounded
      split_ifs with hb0
      · rfl
      · have hle := hheld hb0
        have hne : w.kept ≠ bound := fun he => hfull ⟨hbound ▸ hb0,by omega⟩
        omega
    rw [hkept, Nat.sub_self, List.drop_zero, ← hqueue] at hpush
    simp only [if_neg hfull]
    refine ⟨hbound,hpush.symm,?_,hfresh,?_⟩
    · exact (hset.cons x).trans (List.perm_append_singleton x m.queue).symm
    · intro hb
      exact bounded_within _ hb

theorem shows_max_size (s : ℕ) (h : Shows key m w) :
    Shows key (maxSize key s m) (follow key (.maxSize s) w) := by
  obtain ⟨bound,w⟩ := w
  obtain ⟨hbound,hqueue,hset,hnodup,hheld⟩ := h
  dsimp only at hbound hqueue hheld
  have hlen : m.queue.length = w.kept := by rw [hqueue, present_length]
  have hcut := present_cut w s
  by_cases hs : s = 0
  · have hkept : bounded s w.kept = w.kept := if_pos hs
    rw [hkept, Nat.sub_self, List.drop_zero, ← hqueue] at hcut
    rw [maxSize, if_neg (not_not.mpr hs), follow]
    exact ⟨rfl,hcut.symm,hset,hnodup,fun h0 => absurd hs h0⟩
  · obtain ⟨hdrop,hperm⟩ := shrink_spec s m.set m.queue hset hnodup
    have hkept : w.kept-bounded s w.kept = m.queue.length-s := by
      rw [bounded, if_neg hs]
      omega
    rw [hkept, ← hqueue] at hcut
    rw [maxSize, if_pos hs, follow]
    refine ⟨rfl,hdrop.trans hcut.symm,hperm,?_,fun hb => bounded_within _ hb⟩
    dsimp only
    rw [hdrop, List.map_drop]
    exact hnodup.sublist (List.drop_sublist _ _)

theorem shows_step (c : Call T) (h : Shows key m w) : Shows key (step key c m) (follow key c w) := by
  cases c with
  | insert x => exact shows_insert x h
  | maxSize s => exact shows_max_size s h
  | clear => exact ⟨h.bound,rfl,List.Perm.refl _,List.nodup_nil,fun _ => Nat.zero_le _⟩

theorem shows_run (cs : List (Call T)) (h : Shows key m w) :
    Shows key (run key cs m) (recent key cs w) := by
  induction cs generalizing m w with
  | nil => exact h
  | cons c cs ih => exact ih (shows_step c h)

omit [DecidableEq K] in
theorem shows_start (nMaxSizeIn : ℕ) : Shows key (start nMaxSizeIn) (nMaxSizeIn,empty) :=
  ⟨rfl,rfl,List.Perm.refl _,List.nodup_nil,fun _ => Nat.zero_le _⟩

theorem insert_present (x : T) (h : Shows key m w) : key x ∈ (insert key x m).1.set.map key := by
  have hafter := shows_insert x h
  by_cases hx : count key (key x) m.set ≠ 0
  · rw [insert, if_pos hx]
    exact (count_iff _ _).mp hx
  · rw [(hafter.set.map key).mem_iff, insert, if_neg hx]
    simp

theorem insert_reports (x : T) (m : Mruset T) :
    (insert key x m).2 = true ↔ key x ∉ m.set.map key := by
  rw [← count_iff, insert]
  split_ifs with hx <;> simp [hx]

/-- What holds after any calls on a set with the bound `nMaxSizeIn`. -/
structure MostRecent (key : T → K) (nMaxSizeIn : ℕ) (cs : List (Call T)) (m : Mruset T) : Prop where
  same : ∀ x, x ∈ m.set ↔ x ∈ m.queue
  nodup : (m.queue.map key).Nodup ∧ (m.set.map key).Nodup
  bounded : m.nMaxSize ≠ 0 → m.queue.length ≤ m.nMaxSize
  latest : m.queue = (recent key cs (nMaxSizeIn,empty)).2.present
  reports : ∀ x, (insert key x m).2 = true ↔ key x ∉ m.set.map key
  present : ∀ x, key x ∈ (insert key x m).1.set.map key

theorem most_recent (key : T → K) (nMaxSizeIn : ℕ) (cs : List (Call T)) :
    MostRecent key nMaxSizeIn cs (run key cs (start nMaxSizeIn)) := by
  have hstart : Shows key (start nMaxSizeIn) (nMaxSizeIn,empty) := shows_start nMaxSizeIn
  have h := shows_run cs hstart
  refine ⟨fun x => h.set.mem_iff,⟨h.nodup,(h.set.map key).nodup_iff.mpr h.nodup⟩,?_,h.queue,
    fun x => insert_reports x _,fun x => insert_present x h⟩
  intro hb
  rw [h.queue, present_length, h.bound]
  exact h.held (h.bound ▸ hb)

example : (run id [.insert 1,.insert 2,.insert 1,.insert 3,.maxSize 0,.insert 1] (start 2)).queue =
    [2,3,1] := by decide

end Mruset

end SwippCore
