import Mathlib.Data.Set.Basic
import Mathlib.Data.List.Basic

/-!
# Things that cancel each other

A thing that arrives removes those that it cancels and comes in, unless one that is left
cancels it or has its key already. For a finite set of things the outcome does not depend on
the order of the arrivals exactly when each thing either is cancelled by no other, and then is
the only one of its key, or is cancelled by such a thing.
-/

set_option autoImplicit false

namespace Cancelling

variable {A K : Type} (key : A → K) (R : A → A → Prop)

def left (a : A) (M : Set A) : Set A := {x | x ∈ M ∧ ¬ R a x}

def Refused (a : A) (M : Set A) : Prop := ∃ y ∈ left R a M, R y a

def arrive (a : A) (M : Set A) : Set A :=
  {x | x ∈ left R a M ∨ (x = a ∧ ¬ Refused R a M ∧ ∀ y ∈ left R a M, key y ≠ key a)}

def arriveAll : List A → Set A → Set A
  | [], M => M
  | a::as, M => arriveAll as (arrive key R a M)

theorem arrive_all_concat (as : List A) (a : A) (M : Set A) :
    arriveAll key R (as++[a]) M = arrive key R a (arriveAll key R as M) := by
  induction as generalizing M with
  | nil => rfl
  | cons b bs ih => exact ih _

def Congruent (S : Set A) : Prop :=
  ∀ a ∈ S, ∀ b ∈ S, key a = key b → (∀ x, R a x ↔ R b x) ∧ ∀ x, R x a ↔ R x b

structure Peaceful (M : Set A) : Prop where
  one : ∀ x ∈ M, ∀ y ∈ M, key x = key y → x = y
  calm : ∀ x ∈ M, ∀ y ∈ M, key x ≠ key y → ¬ R x y

theorem peaceful_empty : Peaceful key R (∅ : Set A) where
  one _ hx := hx.elim
  calm _ hx := hx.elim

variable {M : Set A}

theorem peaceful_arrive (a : A) (h : Peaceful key R M) : Peaceful key R (arrive key R a M) := by
  constructor
  · rintro x (hx | ⟨rfl,_,hx⟩) y (hy | ⟨rfl,_,hy⟩) hkey
    · exact h.one x hx.1 y hy.1 hkey
    · exact absurd hkey (hy x hx)
    · exact absurd hkey.symm (hx y hy)
    · rfl
  · rintro x (hx | ⟨rfl,hx,_⟩) y (hy | ⟨rfl,hy,_⟩) hkey
    · exact h.calm x hx.1 y hy.1 hkey
    · intro hxy
      exact hy ⟨x,hx,hxy⟩
    · exact hy.2
    · exact absurd rfl hkey

theorem peaceful_all (as : List A) (M : Set A) (h : Peaceful key R M) :
    Peaceful key R (arriveAll key R as M) := by
  induction as generalizing M with
  | nil => exact h
  | cons a as ih => exact ih _ (peaceful_arrive key R a h)

variable {a : A}

theorem arrive_subset {S : Set A} (ha : a ∈ S) (h : M ⊆ S) : arrive key R a M ⊆ S := by
  rintro x (hx | ⟨rfl,_⟩)
  · exact h hx.1
  · exact ha

variable {as : List A}

theorem arrive_all_subset {S : Set A} (M : Set A) (has : ∀ a ∈ as, a ∈ S) (h : M ⊆ S) :
    arriveAll key R as M ⊆ S := by
  induction as generalizing M with
  | nil => exact h
  | cons a as ih =>
    exact ih _ (fun b hb => has b (List.mem_cons_of_mem a hb))
      (arrive_subset key R (has a List.mem_cons_self) h)

variable (S : Set A)

def Free (a : A) : Prop := a ∈ S ∧ ∀ b ∈ S, key b ≠ key a → ¬ R b a

def Decided : Prop := ∀ a ∈ S, (Free key R S a ∧ ∀ b ∈ S, key b = key a → b = a) ∨
  ∃ u, Free key R S u ∧ key u ≠ key a ∧ R u a

theorem free_arrive {u : A} (hM : M ⊆ S) (hu : Free key R S u)
    (halone : ∀ b ∈ S, key b = key u → b = u) (ha : a ∈ S) (h : u ∈ M ∨ a = u) :
    u ∈ arrive key R a M := by
  have hne : ∀ y ∈ S, y ≠ u → key y ≠ key u := fun y hy hyu hkey => hyu (halone y hy hkey)
  by_cases hau : a = u
  · subst hau
    by_cases hstays : a ∈ left R a M
    · exact Or.inl hstays
    · refine Or.inr ⟨rfl,?_,?_⟩
      · rintro ⟨y,hy,hya⟩
        by_cases hya' : y = a
        · exact hstays (hya' ▸ hy)
        · exact hu.2 y (hM hy.1) (hne y (hM hy.1) hya') hya
      · intro y hy hkey
        exact hstays (halone y (hM hy.1) hkey ▸ hy)
  · exact Or.inl ⟨h.resolve_right hau,hu.2 a ha (hne a ha hau)⟩

theorem free_stays {u : A} (M : Set A) (hM : M ⊆ S) (has : ∀ a ∈ as, a ∈ S) (hu : Free key R S u)
    (halone : ∀ b ∈ S, key b = key u → b = u) (h : u ∈ M ∨ u ∈ as) : u ∈ arriveAll key R as M := by
  induction as generalizing M with
  | nil => exact h.resolve_right List.not_mem_nil
  | cons a as ih =>
    have ha := has a List.mem_cons_self
    apply ih _ (arrive_subset key R ha hM) fun b hb => has b (List.mem_cons_of_mem a hb)
    rcases h with h | h
    · exact Or.inl (free_arrive key R S hM hu halone ha (Or.inl h))
    · rcases List.mem_cons.mp h with rfl | h
      · exact Or.inl (free_arrive key R S hM hu halone ha (Or.inr rfl))
      · exact Or.inr h

structure Covers (as : List A) : Prop where
  within : ∀ a ∈ as, a ∈ S
  all : ∀ a ∈ S, a ∈ as

theorem covers_concat (h : Covers S as) (ha : a ∈ S) : Covers S (as++[a]) where
  within b hb := by
    rcases List.mem_append.mp hb with hb | hb
    · exact h.within b hb
    · rw [List.mem_singleton.mp hb]
      exact ha
  all b hb := List.mem_append_left _ (h.all b hb)

theorem covers_cons (h : Covers S as) (ha : a ∈ S) : Covers S (a::as) where
  within b hb := by
    rcases List.mem_cons.mp hb with rfl | hb
    · exact ha
    · exact h.within b hb
  all b hb := List.mem_cons_of_mem a (h.all b hb)

theorem decided_outcome (hD : Decided key R S) (has : Covers S as) :
    arriveAll key R as ∅ = {a | Free key R S a} := by
  have hsub := arrive_all_subset key R ∅ has.within (Set.empty_subset S)
  have hpeace := peaceful_all key R as ∅ (peaceful_empty key R)
  have halone : ∀ u, Free key R S u → ∀ b ∈ S, key b = key u → b = u := by
    intro u hu
    rcases hD u hu.1 with ⟨_,halone⟩ | ⟨w,hw,hkey,hwu⟩
    · exact halone
    · exact absurd hwu (hu.2 w hw.1 hkey)
  have hstays : ∀ u, Free key R S u → u ∈ arriveAll key R as ∅ := fun u hu =>
    free_stays key R S ∅ (Set.empty_subset S) has.within hu (halone u hu) (Or.inr (has.all u hu.1))
  apply Set.Subset.antisymm
  · intro a ha
    rcases hD a (hsub ha) with ⟨hfree,_⟩ | ⟨u,hu,hkey,hua⟩
    · exact hfree
    · exact absurd hua (hpeace.calm u (hstays u hu) a ha hkey)
  · exact fun u hu => hstays u hu

theorem decided_of_same (hR : Congruent key R S) (has : Covers S as)
    (hsame : ∀ bs, Covers S bs → arriveAll key R bs ∅ = arriveAll key R as ∅) :
    Decided key R S := by
  have hsub := arrive_all_subset key R ∅ has.within (Set.empty_subset S)
  have hpeace := peaceful_all key R as ∅ (peaceful_empty key R)
  have hagain : ∀ c ∈ S, arrive key R c (arriveAll key R as ∅) = arriveAll key R as ∅ := by
    intro c hc
    rw [← arrive_all_concat]
    exact hsame _ (covers_concat S has hc)
  -- what is left is free: one that cancels it could come again
  have hfree : ∀ y ∈ arriveAll key R as ∅, Free key R S y := by
    intro y hy
    refine ⟨hsub hy,fun c hc hkey hcy => ?_⟩
    have hy' : y ∈ arrive key R c (arriveAll key R as ∅) := by
      rw [hagain c hc]
      exact hy
    rcases hy' with hleft | ⟨rfl,_⟩
    · exact hleft.2 hcy
    · exact hkey rfl
  intro a ha
  by_cases hin : ∃ x ∈ arriveAll key R as ∅, key x = key a
  · obtain ⟨x,hx,hxa⟩ := hin
    have hcong := hR x (hsub hx) a ha hxa
    have hfa : Free key R S a := ⟨ha,fun b hb hkey hba =>
      (hfree x hx).2 b hb (hxa ▸ hkey) ((hcong.2 b).mpr hba)⟩
    refine Or.inl ⟨hfa,fun b hb hkey => ?_⟩
    -- both of one key would be left
    have hboth : ∀ c ∈ S, key c = key a → c ∈ arriveAll key R as ∅ := by
      intro c hc hca
      have hcong' := hR c hc a ha hca
      by_cases hself : R c c
      · rw [← hagain c hc]
        refine Or.inr ⟨rfl,?_,?_⟩
        · rintro ⟨y,hy,hyc⟩
          by_cases hkeyc : key y = key c
          · exact hy.2 ((((hR y (hsub hy.1) c hc hkeyc).2 c).mpr hself))
          · exact hfa.2 y (hsub hy.1) (hca ▸ hkeyc) ((hcong'.2 y).mp hyc)
        · intro y hy hkeyc
          exact hy.2 ((((hR y (hsub hy.1) c hc hkeyc).2 c).mpr hself))
      · have hfirst : c ∈ arrive key R c (∅ : Set A) :=
          Or.inr ⟨rfl,fun ⟨y,hy,_⟩ => hy.1,fun y hy => hy.1.elim⟩
        have hkeep : ∀ (bs : List A) (M : Set A), M ⊆ S → (∀ b ∈ bs, b ∈ S) → c ∈ M →
            c ∈ arriveAll key R bs M := by
          intro bs
          induction bs with
          | nil => exact fun _ _ _ hM => hM
          | cons d ds ih =>
            intro M hM hds hcM
            have hd := hds d List.mem_cons_self
            apply ih _ (arrive_subset key R hd hM) fun e he => hds e (List.mem_cons_of_mem d he)
            refine Or.inl ⟨hcM,fun hdc => ?_⟩
            by_cases hkeyd : key d = key c
            · exact hself (((hR d hd c hc hkeyd).1 c).mp hdc)
            · exact hfa.2 d hd (hca ▸ hkeyd) ((hcong'.2 d).mp hdc)
        rw [← hsame (c::as) (covers_cons S has hc)]
        exact hkeep as _ (arrive_subset key R hc (Set.empty_subset S)) has.within hfirst
    exact hpeace.one b (hboth b hb hkey) a (hboth a ha rfl) hkey
  · by_cases hcancelled : ∃ y ∈ arriveAll key R as ∅, R y a
    · obtain ⟨y,hy,hya⟩ := hcancelled
      exact Or.inr ⟨y,hfree y hy,fun hkey => hin ⟨y,hy,hkey⟩,hya⟩
    · -- nothing keeps it out
      exfalso
      have hcomes : a ∈ arrive key R a (arriveAll key R as ∅) :=
        Or.inr ⟨rfl,fun ⟨y,hy,hya⟩ => hcancelled ⟨y,hy.1,hya⟩,fun y hy hkey => hin ⟨y,hy.1,hkey⟩⟩
      rw [hagain a ha] at hcomes
      exact hin ⟨a,hcomes,rfl⟩

/-- Of three things in a row, the first cancelling the second and that one the third, the outer
ones cancel each other, or the second cancels the first. -/
def Closed : Prop := ∀ a ∈ S, ∀ b ∈ S, ∀ c ∈ S, key a ≠ key b → key a ≠ key c → key b ≠ key c →
  R c a → R a b → R a c ∨ R c b ∨ R b c

theorem refused_left (hR : Congruent key R S) (hC : Closed key R S) (ha : a ∈ S) (hM : M ⊆ S)
    (hpeace : Peaceful key R M) (hr : Refused R a M) : left R a M = M := by
  obtain ⟨c,hc,hca⟩ := hr
  apply Set.Subset.antisymm
  · exact fun x hx => hx.1
  · intro b hb
    refine ⟨hb,fun hab => ?_⟩
    have hac : key a ≠ key c := fun hkey => hc.2 (((hR a ha c (hM hc.1) hkey).1 c).mpr
      (((hR a ha c (hM hc.1) hkey).2 c).mp hca))
    have hbc : key b ≠ key c := fun hkey => hc.2 (((hR b (hM hb) c (hM hc.1) hkey).2 a).mp hab)
    have hab' : key a ≠ key b := by
      intro hkey
      exact hpeace.calm c hc.1 b hb (Ne.symm hbc) (((hR a ha b (hM hb) hkey).2 c).mp hca)
    rcases hC a ha b (hM hb) c (hM hc.1) hab' hac hbc hca hab with h | h | h
    · exact hc.2 h
    · exact hpeace.calm c hc.1 b hb (Ne.symm hbc) h
    · exact hpeace.calm b hb c hc.1 hbc h

theorem closed_of_left (h : ∀ as a, (∀ x ∈ as, x ∈ S) → a ∈ S → Refused R a (arriveAll key R as ∅) →
    left R a (arriveAll key R as ∅) = arriveAll key R as ∅) : Closed key R S := by
  intro a ha b hb c hc _ hac hbc hca hab
  by_contra hnone
  rw [not_or, not_or] at hnone
  obtain ⟨hnac,hncb,hnbc⟩ := hnone
  have hB : arrive key R b (∅ : Set A) = {b} := by
    ext x
    constructor
    · rintro (hx | ⟨rfl,_⟩)
      · exact hx.1.elim
      · rfl
    · rintro rfl
      exact Or.inr ⟨rfl,fun ⟨y,hy,_⟩ => hy.1,fun y hy => hy.1.elim⟩
  have hbIn : b ∈ arriveAll key R [b,c] ∅ := by
    change b ∈ arrive key R c (arrive key R b ∅)
    rw [hB]
    exact Or.inl ⟨rfl,hncb⟩
  have hcIn : c ∈ arriveAll key R [b,c] ∅ := by
    change c ∈ arrive key R c (arrive key R b ∅)
    rw [hB]
    refine Or.inr ⟨rfl,?_,?_⟩
    · rintro ⟨y,⟨rfl,_⟩,hy⟩
      exact hnbc hy
    · rintro y ⟨rfl,_⟩
      exact hbc
  have hall : ∀ x ∈ [b,c], x ∈ S := by
    intro x hx
    rcases List.mem_cons.mp hx with rfl | hx
    · exact hb
    · rw [List.mem_singleton.mp hx]
      exact hc
  have hleft := h [b,c] a hall ha ⟨c,⟨hcIn,hnac⟩,hca⟩
  rw [← hleft] at hbIn
  exact hbIn.2 hab

end Cancelling
