import Mathlib.Data.Set.Card

/-!
# Chains of links

Descendants under a shrinking relation, and pointers that are followed to their end.
-/

set_option autoImplicit false

/-! ## Descendants under a shrinking relation -/

namespace Descent
open Relation

variable {α : Type*}

def below (r : α → α → Prop) (a : α) : Set α := {b | ReflTransGen r a b}

def Closed (r : α → α → Prop) (s : Set α) : Prop := ∀ a b, a ∈ s → r a b → b ∈ s

def outside (r : α → α → Prop) (s : Set α) : α → α → Prop := fun a b => r a b ∧ a ∉ s ∧ b ∉ s

def Acyclic (r : α → α → Prop) : Prop := ∀ a, ¬ TransGen r a a

theorem below_self (r : α → α → Prop) (a : α) : a ∈ below r a := ReflTransGen.refl

theorem below_closed (r : α → α → Prop) (a : α) : Closed r (below r a) :=
  fun _ _ hb hbc => ReflTransGen.tail hb hbc

variable {r : α → α → Prop}

theorem below_step {a c : α} (h : r a c) : below r c ⊆ below r a :=
  fun _ hb => ReflTransGen.head h hb

theorem mem_below_iff (r : α → α → Prop) (a b : α) :
    b ∈ below r a ↔ b = a ∨ ∃ c, r a c ∧ b ∈ below r c := by
  constructor
  · intro h
    rcases ReflTransGen.cases_head h with h | ⟨c,hac,hcb⟩
    · exact Or.inl h.symm
    · exact Or.inr ⟨c,hac,hcb⟩
  · rintro (rfl | ⟨c,hac,hcb⟩)
    · exact below_self r b
    · exact below_step hac hcb

theorem closed_below {s : Set α} (hs : Closed r s) {a b : α} (ha : a ∈ s) (hb : b ∈ below r a) :
    b ∈ s := by
  induction hb with
  | refl => exact ha
  | tail _ hcd ih => exact hs _ _ ih hcd

theorem acyclic_mono {q : α → α → Prop} (h : ∀ a b, q a b → r a b) (hr : Acyclic r) : Acyclic q :=
  fun a ha => hr a (TransGen.mono h _ _ ha)

theorem acyclic_of_rank (f : α → ℕ) (h : ∀ a b, r a b → f a < f b) : Acyclic r := by
  have hlt : ∀ a b, TransGen r a b → f a < f b := by
    intro a b hab
    induction hab with
    | single hab => exact h _ _ hab
    | tail _ hbc ih => exact lt_trans ih (h _ _ hbc)
  exact fun a ha => lt_irrefl _ (hlt a a ha)

theorem acyclic_below (hr : Acyclic r) {a c : α} (h : r a c) : a ∉ below r c :=
  fun hb => hr a (TransGen.head' h hb)

/-- Cutting out a closed set leaves the descendants of an outside vertex that
are themselves outside. -/
theorem below_outside {s : Set α} (hs : Closed r s) (a : α) :
    below (outside r s) a \ s = below r a \ s := by
  ext b
  constructor
  · rintro ⟨hb,hbs⟩
    exact ⟨ReflTransGen.mono (fun _ _ h => h.1) _ _ hb,hbs⟩
  · rintro ⟨hb,hbs⟩
    refine ⟨?_,hbs⟩
    induction hb with
    | refl => exact below_self _ a
    | @tail c d _ hcd ih =>
      have hcs : c ∉ s := fun hc => hbs (hs c d hc hcd)
      exact (ih hcs).tail ⟨hcd,hcs,hbs⟩

theorem below_union_outside {s : Set α} (hs : Closed r s) (a : α) :
    below (outside r s) a ∪ s = below r a ∪ s := by
  rw [← Set.sdiff_union_self, below_outside hs, Set.sdiff_union_self]

theorem below_outside_le (r : α → α → Prop) (s : Set α) (a : α) :
    below (outside r s) a ⊆ below r a :=
  fun _ hb => ReflTransGen.mono (fun _ _ h => h.1) _ _ hb

theorem ncard_below_lt (hr : Acyclic r) {a c : α} (h : r a c) (hf : (below r a).Finite) :
    (below r c).ncard < (below r a).ncard := by
  refine Set.ncard_lt_ncard ⟨below_step h,fun hsub => ?_⟩ hf
  exact acyclic_below hr h (hsub (below_self r a))

end Descent

/-! ## Following a pointer to its end -/

namespace Follow

variable {α : Type} (next : α → Option α)

/-- Follow the pointer until there is none; `none` when the steps do not suffice. -/
def follow : ℕ → α → Option α
  | 0, _ => none
  | k+1, a =>
    match next a with
    | none => some a
    | some b => follow k b

theorem follow_end {k : ℕ} (a b : α) (h : follow next k a = some b) :
    next b = none ∧ Relation.ReflTransGen (fun x y => next x = some y) a b := by
  induction k generalizing a with
  | zero => cases h
  | succ k ih =>
    rw [follow] at h
    cases hn : next a with
    | none =>
      rw [hn, Option.some_inj] at h
      rw [← h]
      exact ⟨hn,.refl⟩
    | some c =>
      rw [hn] at h
      obtain ⟨hb,hr⟩ := ih c h
      exact ⟨hb,.head hn hr⟩

section Rank
variable (rank : α → ℤ) (xs : List α)
  (hnext : ∀ a b, next a = some b → b ∈ xs ∧ rank a < rank b)
include hnext

theorem above_lt {a b : α} (h : next a = some b) :
    xs.countP (fun x => rank b < rank x) < xs.countP (fun x => rank a < rank x) := by
  obtain ⟨hb,hlt⟩ := hnext a b h
  clear hnext h
  induction xs with
  | nil => cases hb
  | cons x xs ih =>
    have hle : xs.countP (fun x => rank b < rank x) ≤ xs.countP (fun x => rank a < rank x) := by
      apply List.countP_mono_left
      intro y _ hy
      simp only [decide_eq_true_eq] at hy ⊢
      omega
    rw [List.countP_cons, List.countP_cons]
    rcases List.mem_cons.mp hb with rfl | hb
    · have hself : ¬rank b < rank b := by omega
      simp only [hself, hlt, decide_false, decide_true, Bool.false_eq_true, if_false, if_true]
      omega
    · have hrest := ih hb
      have hx : (if decide (rank b < rank x) = true then 1 else 0) ≤
          if decide (rank a < rank x) = true then 1 else 0 := by
        simp only [decide_eq_true_eq]
        split_ifs <;> omega
      omega

theorem follow_enough {k : ℕ} (a : α) (hk : xs.countP (fun x => rank a < rank x) < k) :
    ∃ b, follow next k a = some b := by
  induction k generalizing a with
  | zero => omega
  | succ k ih =>
    rw [follow]
    cases hn : next a with
    | none => exact ⟨a,rfl⟩
    | some b =>
      have hlt := above_lt next rank xs hnext hn
      exact ih b (by omega)

theorem follow_total (a : α) : ∃ b, follow next (xs.length+1) a = some b :=
  follow_enough next rank xs hnext a (Nat.lt_succ_of_le List.countP_le_length)

end Rank

theorem follow_mem {xs : List α} (hnext : ∀ a b, next a = some b → b ∈ xs) {k : ℕ} {a b : α}
    (ha : a ∈ xs) (h : follow next k a = some b) : b ∈ xs := by
  obtain ⟨_,hr⟩ := follow_end next a b h
  induction hr with
  | refl => exact ha
  | tail _ hs _ => exact hnext _ _ hs

end Follow
