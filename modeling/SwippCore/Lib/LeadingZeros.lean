import Mathlib.Data.Nat.Digits.Lemmas
import Mathlib.Data.List.TakeWhile

/-!
# Zeros in front of a number

Digits with the high one first are the zeros in front and the number behind them, in every
base. A text in one base and a text in another belong together where both are the same.
-/

set_option autoImplicit false

namespace LeadingZeros

def parts (b : ℕ) (xs : List ℕ) : ℕ × ℕ :=
  ((xs.takeWhile (· == 0)).length,Nat.ofDigits b xs.reverse)

def digits (b : ℕ) (p : ℕ × ℕ) : List ℕ := List.replicate p.1 0++(Nat.digits b p.2).reverse

theorem take_zeros (xs : List ℕ) :
    xs.takeWhile (· == 0) = List.replicate (xs.takeWhile (· == 0)).length 0 := by
  rw [List.eq_replicate_iff]
  refine ⟨rfl,?_⟩
  intro x hx
  exact beq_iff_eq.mp (List.mem_takeWhile_imp (p := (· == 0)) hx)

variable {b : ℕ}

theorem digits_lt (hb : 1 < b) (p : ℕ × ℕ) (x : ℕ) (hx : x ∈ digits b p) : x < b := by
  rw [digits, List.mem_append] at hx
  rcases hx with hx | hx
  · rw [List.eq_of_mem_replicate hx]
    omega
  · exact Nat.digits_lt_base hb (List.mem_reverse.mp hx)

theorem parts_digits (p : ℕ × ℕ) : parts b (digits b p) = p := by
  have hhead : (Nat.digits b p.2).reverse.takeWhile (· == 0) = [] := by
    cases hrev : (Nat.digits b p.2).reverse with
    | nil => rfl
    | cons x xs =>
      have hdigits : Nat.digits b p.2 = xs.reverse++[x] := by
        rw [← List.reverse_reverse (Nat.digits b p.2), hrev, List.reverse_cons]
      have hne : p.2 ≠ 0 := by
        intro hz
        rw [hz, Nat.digits_zero] at hrev
        cases hrev
      have hlast := Nat.getLast_digit_ne_zero b hne
      simp only [hdigits, List.getLast_append_singleton] at hlast
      exact List.takeWhile_cons_of_neg (by simpa using hlast)
  have hzeros : (digits b p).takeWhile (· == 0) = List.replicate p.1 0 := by
    rw [digits, List.takeWhile_append_of_pos, hhead, List.append_nil]
    intro x hx
    simpa using List.eq_of_mem_replicate hx
  have hnumber : Nat.ofDigits b (digits b p).reverse = p.2 := by
    rw [digits, List.reverse_append, List.reverse_reverse, List.reverse_replicate,
      Nat.ofDigits_append_replicate_zero, Nat.ofDigits_digits]
  rw [parts, hzeros, hnumber, List.length_replicate]

theorem digits_parts (hb : 1 < b) {xs : List ℕ} (h : ∀ x ∈ xs, x < b) :
    digits b (parts b xs) = xs := by
  have hsplit := List.takeWhile_append_dropWhile (p := (· == 0)) (l := xs)
  have hfirst := List.head?_dropWhile_not (· == 0) xs
  rw [take_zeros xs] at hsplit
  rw [digits, parts]
  generalize (xs.takeWhile (· == 0)).length = z at hsplit ⊢
  generalize xs.dropWhile (· == 0) = rest at hsplit hfirst
  subst hsplit
  have hrest : ∀ x ∈ rest.reverse, x < b := fun x hx =>
    h x (List.mem_append_right _ (List.mem_reverse.mp hx))
  have hlast : ∀ hne : rest.reverse ≠ [], rest.reverse.getLast hne ≠ 0 := by
    intro hne
    cases rest with
    | nil => exact absurd rfl hne
    | cons x rest => simpa using hfirst
  simp only
  rw [List.reverse_append, List.reverse_replicate, Nat.ofDigits_append_replicate_zero,
    Nat.digits_ofDigits b hb _ hrest hlast, List.reverse_reverse]

end LeadingZeros
