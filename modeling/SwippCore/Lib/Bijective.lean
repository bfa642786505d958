import Mathlib.Data.List.Induction
import Mathlib.Tactic.Ring
import Mathlib.Tactic.Linarith

/-!
# Numerals without redundancy

In base `b` every digit but the last stands for one more than it is. So every word of
digits is the numeral of one number, and every number has one numeral.
-/

set_option autoImplicit false

namespace Bijective
variable (b : ℕ)

def high : List ℕ → ℕ
  | [] => 0
  | d::ds => (d+1)*b^ds.length+high ds

def value : List ℕ → ℕ
  | [] => 0
  | [d] => d
  | d::e::ds => (d+1)*b^(ds.length+1)+value (e::ds)

theorem high_snoc (ds : List ℕ) (d : ℕ) : high b (ds++[d]) = high b ds*b+(d+1) := by
  induction ds with
  | nil => simp [high]
  | cons e ds ih =>
    rw [List.cons_append, high, high, ih, List.length_append, List.length_singleton, pow_succ]
    ring

theorem value_snoc (ds : List ℕ) (d : ℕ) : value b (ds++[d]) = high b ds*b+d := by
  induction ds with
  | nil => simp [value, high]
  | cons e ds ih =>
    have hcons : value b (e::(ds++[d])) = (e+1)*b^(ds.length+1)+value b (ds++[d]) := by
      cases ds with
      | nil => rfl
      | cons f ds => simp [value]
    rw [List.cons_append, hcons, ih, high, pow_succ]
    ring

theorem high_pos {ds : List ℕ} [NeZero b] (h : ds ≠ []) : 0 < high b ds := by
  cases ds with
  | nil => exact absurd rfl h
  | cons d ds =>
    have hpow : 0 < b^ds.length := Nat.pow_pos (Nat.pos_of_ne_zero (NeZero.ne b))
    rw [high]
    have hmul : 0 < (d+1)*b^ds.length := Nat.mul_pos (Nat.succ_pos d) hpow
    omega

def low [NeZero b] (n : ℕ) : List ℕ := if n < b then [n] else n%b::low (n/b-1)
termination_by n
decreasing_by
  have hb := NeZero.ne b
  have hdiv := Nat.div_le_self n b
  omega

variable [NeZero b]

theorem low_small {n : ℕ} (h : n < b) : low b n = [n] := by rw [low, if_pos h]

theorem low_large {n : ℕ} (h : ¬n < b) : low b n = n%b::low b (n/b-1) := by rw [low, if_neg h]

theorem low_bounded (n : ℕ) : ∀ d ∈ low b n, d < b := by
  induction n using low.induct b with
  | case1 n h => simpa [low_small b h] using h
  | case2 n h ih =>
    rw [low_large b h]
    exact List.forall_mem_cons.mpr ⟨Nat.mod_lt n (Nat.pos_of_ne_zero (NeZero.ne b)),ih⟩

theorem div_pos_of_not_lt {n : ℕ} (h : ¬n < b) : 0 < n/b :=
  Nat.div_pos (Nat.le_of_not_lt h) (Nat.pos_of_ne_zero (NeZero.ne b))

theorem high_low (n : ℕ) : high b (low b n).reverse = n+1 := by
  induction n using low.induct b with
  | case1 n h => simp [low_small b h, high]
  | case2 n h ih =>
    have hpos := div_pos_of_not_lt b h
    have hsplit := Nat.div_add_mod n b
    rw [low_large b h, List.reverse_cons, high_snoc, ih, Nat.sub_add_cancel hpos]
    linarith [Nat.mul_comm b (n/b)]

theorem value_low (n : ℕ) : value b (low b n).reverse = n := by
  by_cases h : n < b
  · simp [low_small b h, value]
  · have hpos := div_pos_of_not_lt b h
    have hsplit := Nat.div_add_mod n b
    rw [low_large b h, List.reverse_cons, value_snoc, high_low, Nat.sub_add_cancel hpos]
    linarith [Nat.mul_comm b (n/b)]

variable {b}

theorem low_step {m d : ℕ} (hm : 0 < m) (hd : d < b) : low b (m*b+d) = d::low b (m-1) := by
  have hb := Nat.pos_of_ne_zero (NeZero.ne b)
  have hlarge : ¬m*b+d < b := by
    have hmul := Nat.le_mul_of_pos_left b hm
    omega
  have hmod : (m*b+d)%b = d := by rw [Nat.mul_comm, Nat.mul_add_mod, Nat.mod_eq_of_lt hd]
  have hdiv : (m*b+d)/b = m := by
    rw [Nat.mul_comm, Nat.mul_add_div hb, Nat.div_eq_of_lt hd, Nat.add_zero]
  rw [low_large b hlarge, hmod, hdiv]

theorem low_high {ds : List ℕ} (h : ds ≠ []) (hds : ∀ d ∈ ds, d < b) :
    low b (high b ds-1) = ds.reverse := by
  induction ds using List.reverseRecOn with
  | nil => exact absurd rfl h
  | append_singleton ds d ih =>
    have hd := hds d (by simp)
    rw [high_snoc, List.reverse_append, List.reverse_singleton, List.singleton_append]
    by_cases hnil : ds = []
    · subst hnil
      simpa [high] using low_small b hd
    · have hrest := ih hnil (fun e he => hds e (by simp [he]))
      rw [show high b ds*b+(d+1)-1 = high b ds*b+d by omega, low_step (high_pos b hnil) hd, hrest]

theorem low_value {ds : List ℕ} (h : ds ≠ []) (hds : ∀ d ∈ ds, d < b) :
    low b (value b ds) = ds.reverse := by
  obtain ⟨init,d,rfl⟩ := List.eq_nil_or_concat ds |>.resolve_left h
  rw [List.concat_eq_append] at hds ⊢
  have hd := hds d (by simp)
  rw [value_snoc, List.reverse_append, List.reverse_singleton, List.singleton_append]
  by_cases hnil : init = []
  · subst hnil
    simpa [high] using low_small b hd
  · rw [low_step (high_pos b hnil) hd, low_high hnil fun e he => hds e (by simp [he])]

theorem low_length (k n : ℕ) (h : n < b^(k+1)) : (low b n).length ≤ k+1 := by
  induction k generalizing n with
  | zero =>
    rw [Nat.zero_add, pow_one] at h
    simp [low_small b h]
  | succ k ih =>
    by_cases hn : n < b
    · simp [low_small b hn]
    · have hpos := div_pos_of_not_lt b hn
      have hlt : n/b < b^(k+1) := by
        rw [Nat.div_lt_iff_lt_mul (Nat.pos_of_ne_zero (NeZero.ne b))]
        rwa [pow_succ] at h
      have hrest := ih (n/b-1) (by omega)
      rw [low_large b hn, List.length_cons]
      omega

example : value 128 [0x0e,0x7e,0x7e,0x7f,0x00] = 2^32 := by decide

end Bijective
