import Mathlib.Data.Finset.Card
import Mathlib.Algebra.Order.Ring.Int
import Mathlib.Data.Nat.Log
import Mathlib.Tactic.Ring

/-!
# Values that grow

A value that is raised until it is enough, and steps that double.
-/

set_option autoImplicit false

/-! ## Raising a value -/

namespace Raising

variable (f : ℕ → ℤ) (n : ℕ)

def above (v : ℤ) : Finset ℕ := (Finset.range n).filter fun k => v < f k

theorem above_card_le (v : ℤ) : (above f n v).card ≤ n := by
  have h := Finset.card_filter_le (Finset.range n) fun k => v < f k
  rw [Finset.card_range] at h
  exact h

theorem above_raised {v : ℤ} {k : ℕ} (hk : k < n) (h : v < f k) :
    (above f n (f k)).card < (above f n v).card := by
  apply Finset.card_lt_card
  rw [Finset.ssubset_iff_of_subset]
  · refine ⟨k,Finset.mem_filter.mpr ⟨Finset.mem_range.mpr hk,h⟩,?_⟩
    intro hmem
    exact lt_irrefl _ (Finset.mem_filter.mp hmem).2
  · intro i hi
    obtain ⟨hr,hi⟩ := Finset.mem_filter.mp hi
    exact Finset.mem_filter.mpr ⟨hr,lt_trans h hi⟩

inductive Turn (σ ρ : Type*) where
  | ends (r : ρ)
  | raises (k : ℕ) (s : σ)

def loop {σ ρ : Type*} (turn : ℕ → ℤ → σ → Turn σ ρ) : ℕ → ℕ → ℤ → σ → Option ρ
  | 0, _, _, _ => none
  | m+1, i, v, s =>
    match turn i v s with
    | .ends r => some r
    | .raises k s => loop turn m (i+1) (f k) s

variable {σ ρ : Type*} (turn : ℕ → ℤ → σ → Turn σ ρ)

/-- The loop ends when each turn that goes on raises the value, and more turns do not matter.
What the turns keep holds until the end. -/
theorem loop_ends (P : ℤ → σ → Prop) (Q : ρ → Prop)
    (hraise : ∀ i v s k s', P v s → turn i v s = .raises k s' → k < n ∧ v < f k ∧ P (f k) s')
    (hend : ∀ i v s r, P v s → turn i v s = .ends r → Q r) (i : ℕ) (v : ℤ) (s : σ) (hs : P v s) :
    ∃ r, Q r ∧ ∀ m, (above f n v).card < m → loop f turn m i v s = some r := by
  generalize hc : (above f n v).card = c
  induction c using Nat.strong_induction_on generalizing i v s with
  | _ c ih =>
    cases hrun : turn i v s with
    | ends r =>
      refine ⟨r,hend i v s r hs hrun,?_⟩
      intro m hm
      cases m with
      | zero => exact absurd hm (Nat.not_lt_zero _)
      | succ m =>
        unfold loop
        rw [hrun]
    | raises k s' =>
      obtain ⟨hk,hlt,hs'⟩ := hraise i v s k s' hs hrun
      have hless := above_raised f n hk hlt
      obtain ⟨r,hq,hr⟩ := ih _ (by omega) (i+1) (f k) s' hs' rfl
      refine ⟨r,hq,?_⟩
      intro m hm
      cases m with
      | zero => exact absurd hm (Nat.not_lt_zero _)
      | succ m =>
        unfold loop
        rw [hrun]
        exact hr m (by omega)

theorem loop_last (m i : ℕ) (v : ℤ) (s : σ) {r : ρ} (h : loop f turn m i v s = some r) :
    ∃ j w t, turn j w t = .ends r := by
  induction m generalizing i v s with
  | zero => cases h
  | succ m ih =>
    unfold loop at h
    split at h
    · rename_i r' hturn
      cases h
      exact ⟨i,v,s,hturn⟩
    · exact ih _ _ _ h

end Raising

/-! ## Steps that double -/

namespace Backoff

def stepSize (n : ℕ) : ℕ := 2^(n-10)

def depth : ℕ → ℕ
  | 0 => 0
  | n+1 => depth n+stepSize n

variable (n : ℕ)

theorem step_size_next : stepSize (n+1) = if 10 < n+1 then stepSize n*2 else stepSize n := by
  unfold stepSize
  split_ifs with h
  · rw [show n+1-10 = n-10+1 by omega, pow_succ]
  · rw [show n+1-10 = 0 by omega, show n-10 = 0 by omega]

theorem depth_small {n : ℕ} (h : n ≤ 10) : depth n = n := by
  induction n with
  | zero => rfl
  | succ n ih =>
    rw [depth, ih (by omega), stepSize, show n-10 = 0 by omega, pow_zero]

theorem depth_large (i : ℕ) : depth (10+i) = 9+2^i := by
  induction i with
  | zero => exact depth_small (Nat.le_refl 10)
  | succ i ih =>
    rw [← Nat.add_assoc, depth, ih, stepSize, show 10+i-10 = i by omega, pow_succ]
    ring

theorem depth_lt : depth n < depth (n+1) := by
  have h : 0 < stepSize n := Nat.two_pow_pos _
  rw [depth]
  omega

theorem depth_strict (a b : ℕ) (h : a < b) : depth a < depth b :=
  strictMono_nat_of_lt_succ depth_lt h

theorem depth_ge : n ≤ depth n := by
  induction n with
  | zero => exact Nat.zero_le _
  | succ n ih => exact Nat.lt_of_le_of_lt ih (depth_lt n)

theorem depth_past_ten : 10 < depth n ↔ 10 < n := by
  constructor
  · intro h
    by_contra hn
    rw [depth_small (by omega)] at h
    exact hn h
  · intro h
    exact Nat.lt_of_lt_of_le h (depth_ge n)

theorem depth_overshoot {n d : ℕ} (h : depth n < d) : depth (n+1) ≤ 2*d := by
  rcases Nat.lt_or_ge n 10 with hn | hn
  · rw [depth_small (by omega)] at h
    rw [depth_small (by omega)]
    omega
  · obtain ⟨i,rfl⟩ := Nat.exists_eq_add_of_le hn
    rw [depth_large i] at h
    rw [Nat.add_assoc, depth_large (i+1), pow_succ]
    omega

theorem steps_within (h : ℕ) (hn : depth n ≤ h) : n ≤ Nat.log 2 (h+1)+10 := by
  rcases Nat.lt_or_ge n 10 with hlt | hge
  · omega
  · obtain ⟨i,rfl⟩ := Nat.exists_eq_add_of_le hge
    rw [depth_large i] at hn
    have hi : i ≤ Nat.log 2 (h+1) := Nat.le_log_of_pow_le (by decide) (by omega)
    omega

theorem first_reaching (d : ℕ) : ∃ n, d ≤ depth n ∧ ∀ k < n, depth k < d := by
  classical
  have hex : ∃ n, d ≤ depth n := ⟨d,depth_ge d⟩
  refine ⟨Nat.find hex,Nat.find_spec hex,?_⟩
  intro k hk
  exact Nat.lt_of_not_le (Nat.find_min hex hk)

end Backoff
