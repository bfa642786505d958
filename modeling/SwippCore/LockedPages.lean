import Mathlib.Algebra.Order.Ring.Int
import SwippCore.Lib.Histories

/-!
# Locked pages

The page manager of allocators.h, which keeps secrets out of swap. The locks of the system do
not stack, so the manager counts for each page how often it was locked.
-/

set_option autoImplicit false

namespace SwippCore.LockedPages
open Histories

structure Manager where
  histogram : ℕ → Option ℕ
  locked : ℕ → Bool

def lockPage (m : Manager) (page : ℕ) : Manager :=
  match m.histogram page with
  | none => ⟨Function.update m.histogram page (some 1),Function.update m.locked page true⟩
  | some n => { m with histogram := Function.update m.histogram page (some (n+1)) }

/-- The body of the loop of `UnlockRange`; none where the assertion fails. -/
def unlockPage (m : Manager) (page : ℕ) : Option Manager :=
  match m.histogram page with
  | none => none
  | some n => some (
    if n-1 = 0 then ⟨Function.update m.histogram page none,Function.update m.locked page false⟩
    else { m with histogram := Function.update m.histogram page (some (n-1)) })

/-- The memory of an object. It leaves a page free at the end of what a `size_t` addresses;
there the loops would come back to page zero. -/
structure Range (pageSize : ℕ) where
  p : ℕ
  size : ℕ
  inside : p+size+pageSize ≤ 2^64

section Code
variable {pageSize : ℕ}

/-- The pages that both loops go through. -/
def pages (r : Range pageSize) : List ℕ :=
  let startPage := r.p/pageSize*pageSize
  let endPage := (r.p+r.size-1)/pageSize*pageSize
  if r.size = 0 then [] else List.range' startPage ((endPage-startPage)/pageSize+1) pageSize

inductive Call (pageSize : ℕ) where
  | lockRange (r : Range pageSize)
  | unlockRange (r : Range pageSize)

def step (m : Manager) : Call pageSize → Option Manager
  | .lockRange r => some ((pages r).foldl lockPage m)
  | .unlockRange r => (pages r).foldlM unlockPage m

def run (cs : List (Call pageSize)) : Option Manager :=
  cs.foldlM step ⟨fun _ => none,fun _ => false⟩

/-- How many calls that lock, and how many that unlock, touch a page. -/
def touches (page : ℕ) (cs : List (Call pageSize)) : ℕ × ℕ :=
  (cs.countP (fun | .lockRange r => page ∈ pages r | _ => false),
    cs.countP (fun | .unlockRange r => page ∈ pages r | _ => false))

/-- `page += page_size` does not leave `size_t`. -/
theorem page_inside {r : Range pageSize} {page : ℕ} (h : page ∈ pages r) :
    page+pageSize < 2^64 := by
  have hinside := r.inside
  unfold pages at h
  split_ifs at h with h0
  · cases h
  · obtain ⟨i,hi,rfl⟩ := List.mem_range'.mp h
    have hend := Nat.div_mul_le_self (r.p+r.size-1) pageSize
    have hlast := Nat.div_mul_le_self
      ((r.p+r.size-1)/pageSize*pageSize-r.p/pageSize*pageSize) pageSize
    have hi := Nat.mul_le_mul_left pageSize (Nat.le_of_lt_succ hi)
    have hstart : r.p/pageSize*pageSize ≤ (r.p+r.size-1)/pageSize*pageSize :=
      Nat.mul_le_mul_right _ (Nat.div_le_div_right (by omega))
    rw [Nat.mul_comm _ pageSize] at hlast
    omega

end Code

structure Shows (m : Manager) (f : ℕ → ℕ) : Prop where
  histogram : ∀ q, m.histogram q = if f q = 0 then none else some (f q)
  locked : ∀ q, m.locked q = decide (f q ≠ 0)

section Loops
variable {m : Manager} {f : ℕ → ℕ}

theorem lock_page_shows (hm : Shows m f) (page : ℕ) :
    Shows (lockPage m page) (Function.update f page (f page+1)) := by
  have hpage := hm.histogram page
  unfold lockPage
  by_cases h0 : f page = 0
  · rw [if_pos h0] at hpage
    rw [hpage, h0]
    refine ⟨?_,?_⟩ <;> intro q <;> by_cases hq : q = page <;>
      simp [hq, hm.histogram q, hm.locked q]
  · rw [if_neg h0] at hpage
    have hlocked := hm.locked page
    rw [hpage]
    refine ⟨?_,?_⟩ <;> intro q <;> by_cases hq : q = page <;>
      simp [hq, hm.histogram q, hm.locked q, hlocked, h0]

theorem unlock_page_none (hm : Shows m f) {page : ℕ} (h0 : f page = 0) :
    unlockPage m page = none := by
  rw [unlockPage, hm.histogram page, if_pos h0]

theorem unlock_page_shows (hm : Shows m f) {page : ℕ} (h0 : f page ≠ 0) :
    ∃ m', unlockPage m page = some m' ∧ Shows m' (Function.update f page (f page-1)) := by
  have hlocked := hm.locked page
  refine ⟨_,by rw [unlockPage, hm.histogram page, if_neg h0],?_⟩
  split_ifs with h1 <;> refine ⟨?_,?_⟩ <;> intro q <;> by_cases hq : q = page <;>
    simp [hq, hm.histogram q, hm.locked q, hlocked, h0, h1]

section
variable {ps : List ℕ} (hps : ps.Nodup) (hm : Shows m f)
include hps hm

theorem lock_pages_shows :
    Shows (ps.foldl lockPage m) (fun q => f q+if q ∈ ps then 1 else 0) := by
  induction ps generalizing m f with
  | nil => simpa using hm
  | cons p ps ih =>
    obtain ⟨hp,hps⟩ := List.nodup_cons.mp hps
    have h := ih hps (lock_page_shows hm p)
    have hf : ∀ q, Function.update f p (f p+1) q+(if q ∈ ps then 1 else 0) =
        f q+if q ∈ p::ps then 1 else 0 := by
      intro q
      by_cases hq : q = p <;> simp [hq, hp]
    simp only [hf] at h
    exact h

theorem unlock_pages_none {q : ℕ} (hq : q ∈ ps)
    (h0 : f q = 0) : ps.foldlM unlockPage m = none := by
  induction ps generalizing m f with
  | nil => cases hq
  | cons p ps ih =>
    obtain ⟨hp,hps⟩ := List.nodup_cons.mp hps
    rw [List.foldlM_cons]
    by_cases hp0 : f p = 0
    · rw [unlock_page_none hm hp0]
      rfl
    · obtain ⟨m',hm',hs⟩ := unlock_page_shows hm hp0
      have hqp : q ≠ p := fun h => hp0 (h ▸ h0)
      rw [hm']
      exact ih hps hs (List.mem_of_ne_of_mem hqp hq) (by simp [hqp, h0])

theorem unlock_pages_shows
    (h0 : ∀ q ∈ ps, f q ≠ 0) : ∃ m', ps.foldlM unlockPage m = some m' ∧
      Shows m' (fun q => f q-if q ∈ ps then 1 else 0) := by
  induction ps generalizing m f with
  | nil => exact ⟨m,rfl,by simpa using hm⟩
  | cons p ps ih =>
    obtain ⟨hp,hps⟩ := List.nodup_cons.mp hps
    obtain ⟨m1,hm1,hs⟩ := unlock_page_shows hm (h0 p List.mem_cons_self)
    obtain ⟨m',hm',h⟩ := ih hps hs (by
      intro q hq
      have hqp : q ≠ p := fun h => hp (h ▸ hq)
      rw [Function.update_of_ne hqp]
      exact h0 q (List.mem_cons_of_mem p hq))
    have hf : ∀ q, Function.update f p (f p-1) q-(if q ∈ ps then 1 else 0) =
        f q-if q ∈ p::ps then 1 else 0 := by
      intro q
      by_cases hq : q = p <;> simp [hq, hp]
    simp only [hf] at h
    exact ⟨m',by rw [List.foldlM_cons, hm1]; exact hm',h⟩

end

end Loops

section Runs
variable {pageSize : ℕ}

theorem pages_nodup (r : Range pageSize) : (pages r).Nodup := by
  rw [pages]
  split_ifs
  · exact List.nodup_nil
  · rcases Nat.eq_zero_or_pos pageSize with rfl | hpos
    · simp
    · exact List.nodup_range' _ hpos

/-- A call unlocks no page that is not locked when it comes. -/
def Matched (before : List (Call pageSize)) : Call pageSize → Prop
  | .lockRange _ => True
  | .unlockRange r => ∀ page ∈ pages r, (touches page before).2 < (touches page before).1

def held (cs : List (Call pageSize)) (page : ℕ) : ℕ :=
  (touches page cs).1-(touches page cs).2

theorem step_shows {cs : List (Call pageSize)} {c : Call pageSize} {m : Manager}
    (hm : Shows m (held cs))
    (hle : ∀ q, (touches q cs).2 ≤ (touches q cs).1)
    (hc : Matched cs c) : ∃ m', step m c = some m' ∧
      Shows m' (held (cs++[c])) ∧
      ∀ q, (touches q (cs++[c])).2 ≤ (touches q (cs++[c])).1 := by
  cases c with
  | lockRange r =>
    refine ⟨_,rfl,?_,?_⟩
    · convert lock_pages_shows (pages_nodup r) hm using 1
      funext q
      have hq := hle q
      by_cases hp : q ∈ pages r <;> simp [held, touches, hp] at hq ⊢
      omega
    · intro q
      have hq := hle q
      by_cases hp : q ∈ pages r <;> simp [touches, hp] at hq ⊢ <;> omega
  | unlockRange r =>
    obtain ⟨m',hm',h⟩ := unlock_pages_shows (pages_nodup r) hm
      (fun q hq => Nat.sub_ne_zero_of_lt (hc q hq))
    refine ⟨m',hm',?_,?_⟩
    · convert h using 1
      funext q
      by_cases hp : q ∈ pages r <;> simp [held, touches, hp]
      omega
    · intro q
      have hq := hle q
      by_cases hp : q ∈ pages r
      · have hlt := hc q hp
        simp [touches, hp] at hlt ⊢
        omega
      · simpa [touches, hp] using hq

theorem run_shows (cs : List (Call pageSize)) :
    (∃ m, run cs = some m ∧ Shows m (held cs) ∧ Each Matched cs ∧
      ∀ q, (touches q cs).2 ≤ (touches q cs).1) ∨
    run cs = none ∧ ¬Each Matched cs := by
  induction cs using List.reverseRecOn with
  | nil =>
    refine Or.inl ⟨_,rfl,⟨fun _ => rfl,fun _ => rfl⟩,?_,fun _ => Nat.le_refl _⟩
    intro pre c h
    simp at h
  | append_singleton cs c ih =>
    rw [each_concat, run, List.foldlM_append]
    rcases ih with ⟨m,hm,hs,heach,hle⟩ | ⟨hm,hno⟩
    · rw [run] at hm
      rw [hm]
      by_cases hc : Matched cs c
      · obtain ⟨m',hm',hs',hle'⟩ := step_shows hs hle hc
        exact Or.inl ⟨m',by simpa using hm',hs',⟨heach,hc⟩,hle'⟩
      · refine Or.inr ⟨?_,fun h => hc h.2⟩
        cases c with
        | lockRange r => exact absurd trivial hc
        | unlockRange r =>
          simp only [Matched, not_forall, Nat.not_lt] at hc
          obtain ⟨page,hpage,h0⟩ := hc
          have hnone := unlock_pages_none (pages_nodup r) hs hpage
            (Nat.sub_eq_zero_of_le h0)
          simpa [step] using hnone
    · rw [run] at hm
      rw [hm]
      exact Or.inr ⟨rfl,fun h => hno h.1⟩

/-- No assertion fails if and only if no call unlocks a page that is not locked; and then the
locked pages are those that more calls have locked than unlocked. -/
theorem locked_pages (cs : List (Call pageSize)) :
    ((run cs).isSome ↔ Each Matched cs) ∧
    ∀ m ∈ run cs, ∀ page, m.locked page ↔
      (touches page cs).2 < (touches page cs).1 := by
  rcases run_shows cs with ⟨m,hm,hs,heach,-⟩ | ⟨hm,hno⟩
  · refine ⟨by simp [hm, heach],?_⟩
    intro m' hm' page
    obtain rfl := Option.some_inj.mp (hm.symm.trans hm')
    rw [hs.locked, held, decide_eq_true_iff, ← Nat.pos_iff_ne_zero, Nat.sub_pos_iff_lt]
  · exact ⟨by simp [hm, hno],by simp [hm]⟩

end Runs

end SwippCore.LockedPages
