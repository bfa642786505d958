import Mathlib.Data.List.Basic

/-!
# Blocks of a stream

A function on blocks of one size is folded over a sequence, and what is short of a block is
left over. A sequence that comes in pieces is folded like its concatenation, when each piece
goes behind what was left over before it.
-/

set_option autoImplicit false

namespace BlockStream
variable {S A : Type} (B : ℕ) (f : S → List A → S)

/-- The first `k` blocks. -/
def absorb : ℕ → S → List A → S
  | 0, s, _ => s
  | k+1, s, as => absorb k (f s (as.take B)) (as.drop B)

def folded (s : S) (as : List A) : S := absorb B f (as.length/B) s as

def rest (as : List A) : List A := as.drop (B*(as.length/B))

theorem absorb_add (j k : ℕ) (s : S) (as : List A) :
    absorb B f (j+k) s as = absorb B f k (absorb B f j s as) (as.drop (B*j)) := by
  induction j generalizing s as with
  | zero => rw [Nat.zero_add, Nat.mul_zero, List.drop_zero, absorb]
  | succ j ih => rw [Nat.succ_add, absorb, ih, absorb, List.drop_drop, Nat.mul_succ, Nat.add_comm B]

theorem absorb_left (k : ℕ) (s : S) (as bs : List A) (h : B*k ≤ as.length) :
    absorb B f k s (as++bs) = absorb B f k s as := by
  induction k generalizing s as with
  | zero => rfl
  | succ k ih =>
    rw [Nat.mul_succ] at h
    rw [absorb, absorb, List.take_append_of_le_length (by omega), List.drop_append_of_le_length (by omega),
      ih _ _ (by rw [List.length_drop]; omega)]

variable {B}

theorem rest_length (as : List A) : (rest B as).length = as.length%B := by
  have hdiv := Nat.div_add_mod as.length B
  rw [rest, List.length_drop]
  omega

theorem rest_of_dvd {as : List A} (h : B ∣ as.length) : rest B as = [] := by
  rw [rest, Nat.mul_div_cancel' h, List.drop_length]

/-- The blocks of two pieces: those of the first one, and those behind what it leaves over. -/
theorem folded_append (hB : 0 < B) (s : S) (as bs : List A) :
    folded B f s (as++bs) = folded B f (folded B f s as) (rest B as++bs) ∧
      rest B (as++bs) = rest B (rest B as++bs) := by
  have hle : B*(as.length/B) ≤ as.length := Nat.mul_div_le _ _
  have hblocks : (as++bs).length/B = as.length/B+(rest B as++bs).length/B := by
    have hdiv := Nat.div_add_mod as.length B
    have hsplit : as.length+bs.length = as.length%B+bs.length+B*(as.length/B) := by omega
    rw [List.length_append, List.length_append, rest_length, hsplit,
      Nat.add_mul_div_left _ _ hB, Nat.add_comm]
  have hdrop : (as++bs).drop (B*(as.length/B)) = rest B as++bs :=
    List.drop_append_of_le_length hle
  constructor
  · rw [folded, hblocks, absorb_add, hdrop, absorb_left B f _ s as bs hle]
    rfl
  · rw [rest, hblocks, Nat.mul_add, ← List.drop_drop, hdrop]
    rfl

theorem folded_short (s : S) (as : List A) (h : as.length < B) :
    folded B f s as = s ∧ rest B as = as := by
  rw [folded, rest, Nat.div_eq_of_lt h, Nat.mul_zero]
  exact ⟨rfl,rfl⟩

theorem folded_block (hB : 0 < B) (s : S) (as : List A) (h : B ≤ as.length) :
    folded B f s as = folded B f (f s (as.take B)) (as.drop B) ∧
      rest B as = rest B (as.drop B) := by
  have hblocks : as.length/B = (as.drop B).length/B+1 := by
    rw [List.length_drop, ← Nat.add_div_right _ hB, Nat.sub_add_cancel h]
  rw [folded, rest, hblocks, absorb, rest, Nat.mul_succ, Nat.add_comm _ B, ← List.drop_drop]
  exact ⟨rfl,rfl⟩

end BlockStream
