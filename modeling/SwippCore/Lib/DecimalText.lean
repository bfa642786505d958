import Mathlib.Tactic.Ring
import Mathlib.Tactic.Positivity

/-!
# Decimal numerals side by side

The text of a number, and what a text says that is two of them without a separator.
Of two such readings of one text either both are the same, or the one has digits
at the end of its first number that the other has in front of its second.
-/

set_option autoImplicit false

namespace DecimalText

def digits (n : ℕ) : List Char := Nat.toDigits 10 n

def text (z : ℤ) : List Char := if 0 ≤ z then digits z.toNat else '-'::digits (-z).toNat

theorem text_to_string (z : ℤ) : (toString z).toList = text z := by
  rw [Int.toString_eq_repr, Int.repr_eq_if, text]
  split_ifs
  · exact Nat.toList_repr
  · rw [String.toList_append, Nat.toList_repr]
    rfl

section Natural

theorem digits_injective {m n : ℕ} (h : digits m = digits n) : m = n := by
  have := congrArg (fun l => Nat.ofDigitChars 10 l 0) h
  simpa [digits] using this

theorem digits_ne_nil (n : ℕ) : digits n ≠ [] := Nat.toDigits_ne_nil

theorem digits_digit (n : ℕ) (c : Char) (hc : c ∈ digits n) : c.isDigit = true :=
  Nat.isDigit_of_mem_toDigits (by decide) (by decide) hc

theorem digits_append {n : ℕ} (d : ℕ) (hn : 0 < n) :
    digits n++digits d = digits (n*10^(digits d).length+d) := by
  induction d using Nat.strong_induction_on with
  | _ d ih =>
    by_cases hd : d < 10
    · have hone : digits d = [d.digitChar] := Nat.toDigits_of_lt_base hd
      have happ := Nat.toDigits_append_toDigits (b := 10) (by decide) hn hd
      rw [hone, List.length_singleton, pow_one, Nat.mul_comm n 10, ← hone]
      exact happ
    · have hlast : digits d = digits (d/10)++[(d%10).digitChar] :=
        Nat.toDigits_of_base_le (by decide) (by omega)
      have ih := ih (d/10) (by omega)
      have hpow : n*10^((digits (d/10)).length+1) = 10*(n*10^(digits (d/10)).length) := by
        rw [pow_succ]
        ring
      rw [hlast, ← List.append_assoc, ih, List.length_append, List.length_singleton, hpow]
      have hd10 : d%10 < 10 := Nat.mod_lt _ (by decide)
      have happ := Nat.toDigits_append_toDigits (b := 10)
        (n := n*10^(digits (d/10)).length+d/10) (by decide) (by positivity) hd10
      rw [Nat.toDigits_of_lt_base hd10] at happ
      rw [digits, happ, digits]
      congr 1
      omega

/-- What stands in front of other digits in the text of a number is the text of one above zero. -/
theorem digits_prefix (n : ℕ) {a b : List Char} (ha : a ≠ []) (hb : b ≠ []) (h : digits n = a++b) :
    ∃ m, 0 < m ∧ a = digits m := by
  induction b using List.reverseRecOn generalizing n with
  | nil => exact absurd rfl hb
  | append_singleton b c ih =>
    have hlen : 2 ≤ (digits n).length := by
      have := List.length_pos_of_ne_nil ha
      simp [h]
      omega
    have hten : 10 ≤ n := by
      by_contra hn
      have hone : digits n = [n.digitChar] := Nat.toDigits_of_lt_base (by omega)
      simp [hone] at hlen
    have hlast : digits n = digits (n/10)++[(n%10).digitChar] :=
      Nat.toDigits_of_base_le (by decide) hten
    rw [hlast, ← List.append_assoc] at h
    have hinit := (List.append_inj' h rfl).1
    by_cases hb : b = []
    · subst hb
      exact ⟨n/10,by omega,by simpa using hinit.symm⟩
    · exact ih (n/10) hb hinit

end Natural

section Signed

variable (z : ℤ)

theorem text_nonneg (h : 0 ≤ z) : text z = digits z.toNat := if_pos h

theorem text_neg (h : z < 0) : text z = '-'::digits (-z).toNat := if_neg (by omega)

theorem digits_not_minus (n : ℕ) (a : List Char) : digits n ≠ '-'::a := by
  intro h
  have := digits_digit n '-' (by simp [h])
  exact absurd this (by decide)

theorem text_ne_nil : text z ≠ [] := by
  unfold text
  split_ifs
  · exact digits_ne_nil _
  · simp

theorem text_injective {y z : ℤ} (h : text y = text z) : y = z := by
  by_cases hy : 0 ≤ y
  · by_cases hz : 0 ≤ z
    · rw [text_nonneg y hy, text_nonneg z hz] at h
      have := digits_injective h
      omega
    · rw [text_nonneg y hy, text_neg z (by omega)] at h
      exact absurd h (digits_not_minus _ _)
  · by_cases hz : 0 ≤ z
    · rw [text_neg y (by omega), text_nonneg z hz] at h
      exact absurd h.symm (digits_not_minus _ _)
    · rw [text_neg y (by omega), text_neg z (by omega)] at h
      have := digits_injective (List.cons.inj h).2
      omega

def width (n : ℕ) : ℕ := (digits n).length

/-- The digits of `d` stand at the end of `y'` behind those of `y`, and in front of `z'` in `z`. -/
structure Moved (y z y' z' : ℤ) (d : ℕ) : Prop where
  digits : 0 < d
  nonzero : y ≠ 0
  nonneg : 0 ≤ z'
  sign : y'.sign = y.sign
  longer : y'.natAbs = y.natAbs*10^width d+d
  shorter : z = d*10^width z'.toNat+z'

theorem moved_nat {m n : ℕ} {d : ℕ} (h : digits n = digits m++digits d) :
    0 < m ∧ n = m*10^width d+d := by
  have hm : 0 < m := by
    obtain ⟨k,hk,he⟩ := digits_prefix n (digits_ne_nil m) (digits_ne_nil d) h
    rw [digits_injective he]
    exact hk
  rw [digits_append d hm] at h
  exact ⟨hm,digits_injective h⟩

theorem text_longer {y y' : ℤ} {d : ℕ} (hd : 0 < d) (h : text y' = text y++digits d) :
    y ≠ 0 ∧ y'.sign = y.sign ∧ y'.natAbs = y.natAbs*10^width d+d := by
  by_cases hy : 0 ≤ y
  · by_cases hy' : 0 ≤ y'
    · rw [text_nonneg y hy, text_nonneg y' hy'] at h
      obtain ⟨hpos,hn⟩ := moved_nat h
      refine ⟨by omega,?_,?_⟩
      · rw [Int.sign_eq_one_of_pos (by omega), Int.sign_eq_one_of_pos (by omega)]
      · rwa [← Int.natAbs_of_nonneg hy, ← Int.natAbs_of_nonneg hy', Int.toNat_natCast,
          Int.toNat_natCast] at hn
    · obtain ⟨c,cs,hcs⟩ := List.exists_cons_of_ne_nil (digits_ne_nil y.toNat)
      rw [text_nonneg y hy, text_neg y' (by omega), hcs, List.cons_append] at h
      rw [← (List.cons.inj h).1] at hcs
      exact absurd hcs (digits_not_minus _ _)
  · by_cases hy' : 0 ≤ y'
    · rw [text_neg y (by omega), text_nonneg y' hy', List.cons_append] at h
      exact absurd h (digits_not_minus _ _)
    · rw [text_neg y (by omega), text_neg y' (by omega), List.cons_append] at h
      obtain ⟨hpos,hn⟩ := moved_nat (List.cons.inj h).2
      refine ⟨by omega,?_,?_⟩
      · rw [Int.sign_eq_neg_one_of_neg (by omega), Int.sign_eq_neg_one_of_neg (by omega)]
      · rwa [show (-y').toNat = y'.natAbs by omega, show (-y).toNat = y.natAbs by omega] at hn

theorem text_of_sign : text z = (if z.sign = -1 then ['-'] else [])++digits z.natAbs := by
  by_cases hz : 0 ≤ z
  · rw [text_nonneg z hz, if_neg, List.nil_append, show z.toNat = z.natAbs by omega]
    rw [Int.sign_eq_neg_one_iff_neg]
    omega
  · rw [text_neg z (by omega), if_pos (Int.sign_eq_neg_one_of_neg (by omega)),
      show (-z).toNat = z.natAbs by omega]
    rfl

theorem moved_same_text {y z y' z' : ℤ} {d : ℕ} (h : Moved y z y' z' d) :
    text y++text z = text y'++text z' ∧ y ≠ y' := by
  have hz : z = ((d*10^width z'.toNat+z'.toNat : ℕ):ℤ) := by
    push_cast
    rw [Int.toNat_of_nonneg h.nonneg]
    exact h.shorter
  have hy : digits (y.natAbs*10^width d+d) = digits y.natAbs++digits d :=
    (digits_append d (by have := h.nonzero; omega)).symm
  have hzd : digits (d*10^width z'.toNat+z'.toNat) = digits d++digits z'.toNat :=
    (digits_append z'.toNat h.digits).symm
  constructor
  · rw [text_of_sign y', h.sign, h.longer, hy, text_of_sign y, text_nonneg z' h.nonneg,
      text_nonneg z (by omega), hz, Int.toNat_natCast, hzd]
    simp only [List.append_assoc]
  · rintro rfl
    have hle : y.natAbs ≤ y.natAbs*10^width d := Nat.le_mul_of_pos_right _ (by positivity)
    have := h.longer
    have := h.digits
    omega

theorem moved_of_longer {y z y' z' : ℤ} {a : List Char} (hy : text y' = text y++a)
    (hz : text z = a++text z') : y = y' ∧ z = z' ∨ ∃ d, Moved y z y' z' d := by
  by_cases ha : a = []
  · subst ha
    left
    exact ⟨(text_injective (by simpa using hy)).symm,text_injective (by simpa using hz)⟩
  · right
    -- what moves is behind the first sign or digit of a number, so it has no sign
    have hdigit : ∀ c ∈ a, c.isDigit = true := by
      intro c hc
      by_cases hy' : 0 ≤ y'
      · rw [text_nonneg y' hy'] at hy
        exact digits_digit _ c (hy ▸ List.mem_append_right _ hc)
      · rw [text_neg y' (by omega)] at hy
        obtain ⟨b,bs,hb⟩ := List.exists_cons_of_ne_nil (text_ne_nil y)
        rw [hb, List.cons_append] at hy
        exact digits_digit _ c ((List.cons.inj hy).2 ▸ List.mem_append_right _ hc)
    have hzpos : 0 ≤ z := by
      by_contra hn
      obtain ⟨c,cs,hcs⟩ := List.exists_cons_of_ne_nil ha
      rw [text_neg z (by omega), hcs] at hz
      have hc := hdigit c (by simp [hcs])
      rw [← (List.cons.inj hz).1] at hc
      exact absurd hc (by decide)
    rw [text_nonneg z hzpos] at hz
    have hz' : 0 ≤ z' := by
      by_contra hn
      rw [text_neg z' (by omega)] at hz
      have := digits_digit z.toNat '-' (by simp [hz])
      exact absurd this (by decide)
    rw [text_nonneg z' hz'] at hz
    obtain ⟨d,hd,rfl⟩ := digits_prefix _ ha (digits_ne_nil _) hz
    have hshort : z.toNat = d*10^width z'.toNat+z'.toNat := by
      rw [digits_append z'.toNat hd] at hz
      exact digits_injective hz
    have hzint : z = d*10^width z'.toNat+z' := by
      have hcast := congrArg (Nat.cast : ℕ → ℤ) hshort
      push_cast at hcast
      rwa [Int.toNat_of_nonneg hzpos, Int.toNat_of_nonneg hz'] at hcast
    obtain ⟨hne,hsign,habs⟩ := text_longer hd hy
    exact ⟨d,hd,hne,hz',hsign,habs,hzint⟩

/-- Two readings of one text are the same unless digits have moved, one way or the other. -/
theorem readings_same_iff (y z y' z' : ℤ) :
    (text y++text z = text y'++text z' → y = y' ∧ z = z') ↔
      ¬ ∃ d, Moved y z y' z' d ∨ Moved y' z' y z d := by
  constructor
  · rintro h ⟨d,hm | hm⟩
    · obtain ⟨hsame,hne⟩ := moved_same_text hm
      exact hne (h hsame).1
    · obtain ⟨hsame,hne⟩ := moved_same_text hm
      exact hne (h hsame.symm).1.symm
  · intro h hsame
    rcases List.append_eq_append_iff.mp hsame with ⟨a,hy,hz⟩ | ⟨a,hy,hz⟩
    · rcases moved_of_longer hy hz with heq | ⟨d,hd⟩
      · exact heq
      · exact absurd ⟨d,Or.inl hd⟩ h
    · rcases moved_of_longer hy hz with heq | ⟨d,hd⟩
      · exact ⟨heq.1.symm,heq.2.symm⟩
      · exact absurd ⟨d,Or.inr hd⟩ h

end Signed

end DecimalText
