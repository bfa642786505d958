import Mathlib.Data.List.Count
import Mathlib.Data.List.Sort

/-!
# Medians

A median has at most half of the values below it and at most half above it. Among an
odd number of values there is one, the middle of their order, and comparing it with a
bound asks on which side of the bound the majority lies.
-/

set_option autoImplicit false

namespace Median
variable {α : Type} [LinearOrder α]

def below (b : α) (xs : List α) : ℕ := xs.countP (· < b)
def above (b : α) (xs : List α) : ℕ := xs.countP (b < ·)

structure IsMedian (m : α) (xs : List α) : Prop where
  mem : m ∈ xs
  low : 2*below m xs ≤ xs.length
  high : 2*above m xs ≤ xs.length

theorem below_mono {a b : α} (xs : List α) (h : a ≤ b) : below a xs ≤ below b xs := by
  apply List.countP_mono_left
  intro x _ hx
  simp only [decide_eq_true_eq] at hx ⊢
  exact lt_of_lt_of_le hx h

theorem above_anti {a b : α} (xs : List α) (h : a ≤ b) : above b xs ≤ above a xs := by
  apply List.countP_mono_left
  intro x _ hx
  simp only [decide_eq_true_eq] at hx ⊢
  exact lt_of_le_of_lt h hx

theorem length_le (a b : α) (xs : List α) (h : a < b) : xs.length ≤ below b xs+above a xs := by
  induction xs with
  | nil => simp
  | cons x xs ih =>
    simp only [below, above] at ih
    simp only [below, above, List.countP_cons, List.length_cons, decide_eq_true_eq]
    rcases lt_or_ge x b with hx | hx
    · rw [if_pos hx]
      omega
    · have hax : a < x := lt_of_lt_of_le h hx
      rw [if_pos hax]
      omega

variable {xs : List α}

theorem median_lt_iff (m b : α) (h : IsMedian m xs) (ho : xs.length%2 = 1) :
    m < b ↔ xs.length < 2*below b xs := by
  have hhigh := h.high
  have hlow := h.low
  constructor
  · intro hmb
    have hl := length_le m b xs hmb
    omega
  · intro hb
    by_contra hmb
    have hl := below_mono xs (not_lt.mp hmb)
    omega

theorem lt_median_iff (m b : α) (h : IsMedian m xs) (ho : xs.length%2 = 1) :
    b < m ↔ xs.length < 2*above b xs := by
  have hhigh := h.high
  have hlow := h.low
  constructor
  · intro hmb
    have hl := length_le b m xs hmb
    omega
  · intro hb
    by_contra hmb
    have hl := above_anti xs (not_lt.mp hmb)
    omega

theorem below_sorted (h : xs.Pairwise (· ≤ ·)) (i : ℕ) (hi : i < xs.length) :
    below xs[i] xs ≤ i := by
  induction xs generalizing i with
  | nil => exact absurd hi (Nat.not_lt_zero i)
  | cons x xs ih =>
    have hx := List.pairwise_cons.mp h
    simp only [below] at ih
    simp only [below, List.countP_cons, decide_eq_true_eq]
    cases i with
    | zero =>
      have hz : xs.countP (· < x) = 0 := by
        rw [List.countP_eq_zero]
        intro y hy
        simp only [decide_eq_true_eq]
        exact not_lt.mpr (hx.1 y hy)
      simp [hz]
    | succ i =>
      have hs := ih hx.2 i (Nat.lt_of_succ_lt_succ hi)
      simp only [List.getElem_cons_succ]
      split <;> omega

theorem above_sorted (h : xs.Pairwise (· ≤ ·)) (i : ℕ) (hi : i < xs.length) :
    above xs[i] xs+i < xs.length := by
  induction xs generalizing i with
  | nil => exact absurd hi (Nat.not_lt_zero i)
  | cons x xs ih =>
    have hx := List.pairwise_cons.mp h
    simp only [above] at ih
    simp only [above, List.countP_cons, decide_eq_true_eq, List.length_cons]
    cases i with
    | zero =>
      have hle : xs.countP (fun y => decide (x < y)) ≤ xs.length := List.countP_le_length
      simp only [List.getElem_cons_zero, lt_self_iff_false, if_false]
      omega
    | succ i =>
      have hi' : i < xs.length := Nat.lt_of_succ_lt_succ hi
      have hs := ih hx.2 i hi'
      have hle : x ≤ xs[i] := hx.1 _ (List.getElem_mem hi')
      simp only [List.getElem_cons_succ, if_neg (not_lt.mpr hle)]
      omega

theorem median_perm {m : α} {ys : List α} (h : xs.Perm ys) (hm : IsMedian m xs) :
    IsMedian m ys := by
  refine ⟨h.mem_iff.mp hm.mem,?_,?_⟩
  · rw [below, ← h.countP_eq, ← h.length_eq]
    exact hm.low
  · rw [above, ← h.countP_eq, ← h.length_eq]
    exact hm.high

theorem middle_median {ys : List α} (hp : xs.Perm ys) (hs : xs.Pairwise (· ≤ ·))
    (ho : xs.length%2 = 1) (hi : xs.length/2 < xs.length) : IsMedian xs[xs.length/2] ys := by
  apply median_perm hp
  have hb := below_sorted hs (xs.length/2) hi
  have ha := above_sorted hs (xs.length/2) hi
  exact ⟨List.getElem_mem hi,by omega,by omega⟩

end Median
