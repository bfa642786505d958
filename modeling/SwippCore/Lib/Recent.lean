import Mathlib.Data.List.Basic

/-!
# Windows on a log

A log grows at its end, and a window shows the most recent part of it. A bound cuts the
window down; zero stands for no bound. What has left the window does not come back.
-/

set_option autoImplicit false

namespace Recent
variable {α : Type}

def bounded (bound k : ℕ) : ℕ := if bound = 0 then k else min k bound

structure Window (α : Type) where
  log : List α
  kept : ℕ
  within : kept ≤ log.length

def Window.present (w : Window α) : List α := w.log.drop (w.log.length-w.kept)

theorem bounded_le (bound k : ℕ) : bounded bound k ≤ k := by
  unfold bounded
  split_ifs <;> omega

theorem bounded_within {bound : ℕ} (k : ℕ) (h : bound ≠ 0) : bounded bound k ≤ bound := by
  simp only [bounded, if_neg h]
  exact Nat.min_le_right k bound

def empty : Window α := ⟨[],0,Nat.le_refl 0⟩

def push (bound : ℕ) (x : α) (w : Window α) : Window α where
  log := w.log++[x]
  kept := bounded bound (w.kept+1)
  within := by
    have hb := bounded_le bound (w.kept+1)
    have hw := w.within
    simp only [List.length_append, List.length_singleton]
    omega

def cut (bound : ℕ) (w : Window α) : Window α where
  log := w.log
  kept := bounded bound w.kept
  within := Nat.le_trans (bounded_le bound w.kept) w.within

variable (w : Window α)

theorem present_length : w.present.length = w.kept := by
  have hw := w.within
  simp only [Window.present, List.length_drop]
  omega

theorem present_cut (bound : ℕ) :
    (cut bound w).present = w.present.drop (w.kept-bounded bound w.kept) := by
  have hb := bounded_le bound w.kept
  have hw := w.within
  simp only [Window.present, cut, List.drop_drop]
  congr 1
  omega

theorem present_push (bound : ℕ) (x : α) : (push bound x w).present =
    (w.present++[x]).drop (w.kept+1-bounded bound (w.kept+1)) := by
  have hb := bounded_le bound (w.kept+1)
  have hw := w.within
  have hlog : w.present++[x] = (w.log++[x]).drop (w.log.length-w.kept) := by
    rw [List.drop_append_of_le_length (by omega)]
    rfl
  rw [hlog, List.drop_drop]
  simp only [Window.present, push, List.length_append, List.length_singleton]
  congr 1
  omega

end Recent
