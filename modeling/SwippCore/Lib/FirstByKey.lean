import Mathlib.Data.List.Perm.Basic
import Mathlib.Data.List.Flatten
import Mathlib.Order.Lattice

/-!
# First and best

The first message of each key, and the best one so far.
-/

set_option autoImplicit false

/-! ## The first message of each key -/

namespace FirstByKey

variable {α β κ : Type} (key : α → κ)

def Uniform (f : α → List β) (seen : κ → Bool) (xs : List α) : Prop :=
  ∀ x ∈ xs, ∀ y ∈ xs, seen (key x) = false → key x = key y → (f x).Perm (f y)

variable {key}

variable {f : α → List β} {seen : κ → Bool} {xs : List α}

theorem uniform_tail {more : κ → Bool} {x : α} (h : Uniform key f seen (x::xs))
    (hmore : ∀ k, more k = false → seen k = false) : Uniform key f more xs :=
  fun y hy z hz hs hk =>
    h y (List.mem_cons_of_mem x hy) z (List.mem_cons_of_mem x hz) (hmore _ hs) hk

variable [DecidableEq κ] (key)

def firsts : (κ → Bool) → List α → List α
  | _, [] => []
  | seen, x::xs =>
    if seen (key x) then firsts seen xs
    else x::firsts (fun k => k == key x || seen k) xs

variable {key}

theorem firsts_subset {x : α} (h : x ∈ firsts key seen xs) : x ∈ xs := by
  induction xs generalizing seen with
  | nil => simp [firsts] at h
  | cons y ys ih =>
    rw [firsts] at h
    split_ifs at h
    · exact List.mem_cons_of_mem y (ih h)
    · rcases List.mem_cons.mp h with rfl | h
      · exact List.mem_cons_self
      · exact List.mem_cons_of_mem y (ih h)

theorem firsts_fresh {x : α} (h : x ∈ firsts key seen xs) : seen (key x) = false := by
  induction xs generalizing seen with
  | nil => simp [firsts] at h
  | cons y ys ih =>
    rw [firsts] at h
    split_ifs at h with hy
    · exact ih h
    · rcases List.mem_cons.mp h with rfl | h
      · simpa using hy
      · exact (Bool.or_eq_false_iff.mp (ih h)).2

theorem firsts_covers {x : α} (hx : x ∈ xs) (hs : seen (key x) = false) :
    ∃ y ∈ firsts key seen xs, key y = key x := by
  induction xs generalizing seen with
  | nil => simp at hx
  | cons y ys ih =>
    rw [firsts]
    split_ifs with hy
    · rcases List.mem_cons.mp hx with rfl | hx
      · rw [hs] at hy
        exact absurd hy (by simp)
      · exact ih hx hs
    · by_cases hk : key x = key y
      · exact ⟨y,List.mem_cons_self,hk.symm⟩
      · rcases List.mem_cons.mp hx with rfl | hx
        · exact absurd rfl hk
        · have hs' : (key x == key y || seen (key x)) = false := by simp [hk, hs]
          obtain ⟨z,hz,hzk⟩ := @ih (fun k => k == key y || seen k) hx hs'
          exact ⟨z,List.mem_cons_of_mem y hz,hzk⟩

theorem firsts_perm {ys : List α} (h : xs.Perm ys) (hu : Uniform key f seen xs) :
    ((firsts key seen xs).flatMap f).Perm ((firsts key seen ys).flatMap f) := by
  induction h generalizing seen with
  | nil => exact List.Perm.refl _
  | cons x _ ih =>
    rw [firsts, firsts]
    split_ifs
    · exact ih (uniform_tail hu (fun _ h => h))
    · simp only [List.flatMap_cons]
      exact (ih (uniform_tail hu (fun k h => (Bool.or_eq_false_iff.mp h).2))).append_left _
  | swap x y l =>
    simp only [firsts]
    by_cases hk : key x = key y
    · -- of two messages with one key the first is kept
      by_cases hx : seen (key x)
      · simp [hk ▸ hx, hx]
      · have hp := hu y (by simp) x (by simp) (by simpa [hk] using hx) hk.symm
        simp only [← hk, hx, Bool.false_eq_true, if_false, beq_self_eq_true, Bool.true_or,
          if_true, List.flatMap_cons]
        exact hp.append_right _
    · have hk' : key y ≠ key x := fun h => hk h.symm
      have hseen : (fun k => k == key x || (k == key y || seen k)) =
          fun k => k == key y || (k == key x || seen k) := by
        funext k
        rw [Bool.or_left_comm]
      by_cases hx : seen (key x) <;> by_cases hy : seen (key y) <;>
        simp [hx, hy, hk, hk', hseen]
      rw [← List.append_assoc, ← List.append_assoc]
      exact List.perm_append_comm.append_right _
  | trans h1 _ ih1 ih2 =>
    refine (ih1 hu).trans (ih2 ?_)
    exact fun x hx y hy => hu x (h1.mem_iff.mpr hx) y (h1.mem_iff.mpr hy)

/-- Two messages of one new key, put in front in either order, show what each contributes. -/
theorem uniform_of_orders
    (h : ∀ ys zs, ys.Perm xs → zs.Perm xs →
      ((firsts key seen ys).flatMap f).Perm ((firsts key seen zs).flatMap f)) :
    Uniform key f seen xs := by
  classical
  intro x hx y hy hs hk
  by_cases hxy : x = y
  · rw [hxy]
  have hy' : y ∈ xs.erase x := (List.mem_erase_of_ne (fun h => hxy h.symm)).mpr hy
  have p1 : (x::y::(xs.erase x).erase y).Perm xs :=
    ((List.perm_cons_erase hy').cons x).symm.trans (List.perm_cons_erase hx).symm
  have p2 : (y::x::(xs.erase x).erase y).Perm xs := (List.Perm.swap x y _).trans p1
  have hp := h _ _ p1 p2
  simp only [firsts, hs, ← hk, Bool.false_eq_true, if_false, beq_self_eq_true, Bool.true_or,
    if_true, List.flatMap_cons] at hp
  exact (List.perm_append_right_iff _).mp hp

theorem orders_iff_uniform (f : α → List β) (seen : κ → Bool) (xs : List α) :
    (∀ ys zs, ys.Perm xs → zs.Perm xs →
      ((firsts key seen ys).flatMap f).Perm ((firsts key seen zs).flatMap f)) ↔
    Uniform key f seen xs := by
  refine ⟨uniform_of_orders,fun hu ys zs hy hz => ?_⟩
  exact (firsts_perm hy.symm hu).symm.trans (firsts_perm hz.symm hu)

end FirstByKey

/-! ## The best so far -/

namespace Leader

variable {M S : Type} [LinearOrder S] (score : M → S)

def lead : Option M → M → M
  | none, m => m
  | some a, m => if score a < score m then m else a

def leader : Option M → List M → Option M
  | a, [] => a
  | a, m::ms => leader (some (lead score a m)) ms

variable (a : Option M)

theorem lead_eq (m : M) : lead score a m = m ∨ a = some (lead score a m) := by
  cases a with
  | none => exact Or.inl rfl
  | some a =>
    by_cases h : score a < score m
    · exact Or.inl (if_pos h)
    · exact Or.inr (by rw [lead, if_neg h])

theorem le_lead (m : M) :
    score m ≤ score (lead score a m) ∧ ∀ b, a = some b → score b ≤ score (lead score a m) := by
  cases a with
  | none => exact ⟨le_rfl,fun b hb => by cases hb⟩
  | some a =>
    rw [lead]
    split_ifs with h
    · refine ⟨le_rfl,fun b hb => ?_⟩
      cases hb
      exact le_of_lt h
    · refine ⟨not_lt.mp h,fun b hb => ?_⟩
      cases hb
      exact le_rfl

variable {ms : List M}

theorem leader_mem {b : M} (h : leader score a ms = some b) : a = some b ∨ b ∈ ms := by
  induction ms generalizing a with
  | nil => exact Or.inl h
  | cons m ms ih =>
    rcases ih _ h with hb | hb
    · rw [← Option.some_inj.mp hb]
      rcases lead_eq score a m with hm | ha
      · exact Or.inr (by rw [hm]; exact List.mem_cons_self)
      · exact Or.inl ha
    · exact Or.inr (List.mem_cons_of_mem m hb)

theorem leader_max {b : M} (h : leader score a ms = some b) :
    (∀ m ∈ ms, score m ≤ score b) ∧ ∀ c, a = some c → score c ≤ score b := by
  induction ms generalizing a with
  | nil =>
    refine ⟨by simp,fun c hc => ?_⟩
    rw [show a = some b from h] at hc
    cases hc
    exact le_rfl
  | cons m ms ih =>
    obtain ⟨hall,hlead⟩ := ih _ h
    have hl := hlead _ rfl
    obtain ⟨hm,ha⟩ := le_lead score a m
    refine ⟨fun x hx => ?_,fun c hc => le_trans (ha c hc) hl⟩
    rcases List.mem_cons.mp hx with rfl | hx
    · exact le_trans hm hl
    · exact hall x hx

theorem leader_some (a : M) (ms : List M) : ∃ b, leader score (some a) ms = some b := by
  induction ms generalizing a with
  | nil => exact ⟨a,rfl⟩
  | cons m ms ih => exact ih _

theorem leader_none (h : leader score none ms = none) : ms = [] := by
  cases ms with
  | nil => rfl
  | cons m ms =>
    obtain ⟨b,hb⟩ := leader_some score m ms
    rw [leader, lead, hb] at h
    cases h

theorem leader_first {a : M} (h : ∀ m ∈ ms, score m ≤ score a) :
    leader score (some a) ms = some a := by
  induction ms with
  | nil => rfl
  | cons m ms ih =>
    have hm := h m List.mem_cons_self
    rw [leader, lead, if_neg (not_lt.mpr hm)]
    exact ih (fun x hx => h x (List.mem_cons_of_mem m hx))

theorem leader_map {N : Type} (f : N → M) (a : Option N) (ms : List N) :
    leader score (a.map f) (ms.map f) = (leader (fun n => score (f n)) a ms).map f := by
  induction ms generalizing a with
  | nil => rfl
  | cons m ms ih =>
    rw [List.map_cons, leader, leader, ← ih]
    congr 1
    cases a with
    | none => rfl
    | some a =>
      simp only [Option.map_some, lead]
      split_ifs <;> rfl

end Leader
