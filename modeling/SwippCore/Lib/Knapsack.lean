import Mathlib.Algebra.BigOperators.Group.List.Basic
import Mathlib.Algebra.Order.Ring.Int

/-!
# Subsets of lists

Masks over lists, their segments, and the best sum that can be dropped.
-/

set_option autoImplicit false

/-! ## Masks over lists -/

namespace Masks

variable {α M : Type*}

def pick : List Bool → List α → List α
  | true::bs, x::xs => x::pick bs xs
  | false::bs, _::xs => pick bs xs
  | _, _ => []

theorem pick_sublist (bs : List Bool) (xs : List α) : (pick bs xs).Sublist xs := by
  induction bs generalizing xs with
  | nil => exact List.nil_sublist xs
  | cons b bs ih =>
    cases xs with
    | nil => cases b <;> exact List.nil_sublist []
    | cons x xs =>
      cases b with
      | true => exact (ih xs).cons_cons x
      | false => exact (ih xs).cons x

theorem pick_all (xs : List α) : pick (List.replicate xs.length true) xs = xs := by
  induction xs with
  | nil => rfl
  | cons x xs ih =>
    change x::pick (List.replicate xs.length true) xs = x::xs
    rw [ih]

theorem pick_none (xs : List α) (n : ℕ) : pick (List.replicate n false) xs = [] := by
  induction n generalizing xs with
  | zero => rfl
  | succ n ih =>
    cases xs with
    | nil => rfl
    | cons x xs => exact ih xs

theorem pick_map {β : Type*} (f : α → β) (bs : List Bool) (xs : List α) :
    pick bs (xs.map f) = (pick bs xs).map f := by
  induction bs generalizing xs with
  | nil => rfl
  | cons b bs ih =>
    cases xs with
    | nil => cases b <;> rfl
    | cons x xs =>
      cases b with
      | true =>
        change f x::pick bs (xs.map f) = f x::(pick bs xs).map f
        rw [ih]
      | false => exact ih xs

theorem pick_filter (p : α → Bool) (xs : List α) : pick (xs.map p) xs = xs.filter p := by
  induction xs with
  | nil => rfl
  | cons x xs ih =>
    cases hp : p x with
    | true =>
      rw [List.filter_cons_of_pos hp, List.map_cons, hp]
      exact congrArg (x::·) ih
    | false =>
      rw [List.filter_cons_of_neg (by rw [hp]; exact Bool.false_ne_true), List.map_cons, hp]
      exact ih

def weigh [AddCommMonoid M] (bs : List Bool) (ws : List M) : M := (pick bs ws).sum

theorem weigh_none [AddCommMonoid M] (ws : List M) (n : ℕ) : weigh (List.replicate n false) ws = 0 := by
  unfold weigh
  rw [pick_none, List.sum_nil]

theorem weigh_all [AddCommMonoid M] (ws : List M) : weigh (List.replicate ws.length true) ws = ws.sum := by
  unfold weigh
  rw [pick_all]

theorem weigh_set [AddCommMonoid M] {bs : List Bool} (ws : List M) (i : ℕ) {w : M}
    (hb : bs[i]? = some false) (hw : ws[i]? = some w) :
    weigh (bs.set i true) ws = weigh bs ws+w := by
  unfold weigh
  induction bs generalizing ws i with
  | nil => cases hb
  | cons b bs ih =>
    cases ws with
    | nil => cases hw
    | cons v ws =>
      cases i with
      | zero =>
        obtain rfl : b = false := Option.some.inj hb
        obtain rfl : v = w := Option.some.inj hw
        change (v::pick bs ws).sum = (pick bs ws).sum+v
        rw [List.sum_cons, add_comm]
      | succ i =>
        have hstep := ih ws i hb hw
        cases b with
        | true =>
          change (v::pick (bs.set i true) ws).sum = (v::pick bs ws).sum+w
          rw [List.sum_cons, List.sum_cons, hstep, add_assoc]
        | false => exact hstep

theorem set_back {bs : List Bool} {i : ℕ} (hb : bs[i]? = some false) :
    (bs.set i true).set i false = bs := by
  rw [List.set_set]
  apply List.ext_getElem?
  intro j
  rw [List.getElem?_set]
  split
  · rename_i hij
    obtain rfl := hij
    rw [hb, if_pos (List.getElem?_eq_some_iff.mp hb).1]
  · rfl

theorem weigh_not [AddCommMonoid M] (bs : List Bool) (ws : List M) (h : bs.length = ws.length) :
    weigh bs ws+weigh (bs.map not) ws = ws.sum := by
  unfold weigh
  induction bs generalizing ws with
  | nil =>
    obtain rfl := List.eq_nil_of_length_eq_zero h.symm
    exact add_zero 0
  | cons b bs ih =>
    cases ws with
    | nil => cases h
    | cons w ws =>
      have hrest := ih ws (Nat.succ.inj h)
      cases b with
      | true =>
        change (w::pick bs ws).sum+(pick (bs.map not) ws).sum = _
        rw [List.sum_cons, List.sum_cons, add_assoc, hrest]
      | false =>
        change (pick bs ws).sum+(w::pick (bs.map not) ws).sum = _
        rw [List.sum_cons, List.sum_cons, add_left_comm, hrest]

end Masks

/-! ## Segments of a list -/

namespace Segments

variable {α : Type*}

def starts : ℕ → List (List α) → List ℕ
  | s, [] => [s]
  | s, g::gs => s::starts (s+g.length) gs

theorem starts_concat (s : ℕ) (gs : List (List α)) (g : List α) :
    starts s (gs++[g]) = starts s gs++[s+gs.flatten.length+g.length] := by
  induction gs generalizing s with
  | nil => rfl
  | cons h gs ih =>
    change s::starts (s+h.length) (gs++[g]) = _
    rw [ih, List.flatten_cons, List.length_append, ← Nat.add_assoc s]
    rfl

theorem starts_get (s k : ℕ) {gs : List (List α)} (hk : k ≤ gs.length) :
    (starts s gs)[k]? = some (s+(gs.take k).flatten.length) := by
  induction gs generalizing s k with
  | nil =>
    obtain rfl := Nat.le_zero.mp hk
    rfl
  | cons g gs ih =>
    cases k with
    | zero => rfl
    | succ k =>
      have hrest := ih (s+g.length) k (Nat.le_of_succ_le_succ hk)
      change (starts (s+g.length) gs)[k]? = _
      rw [hrest, List.take_succ_cons, List.flatten_cons, List.length_append, Nat.add_assoc]

theorem starts_last (s : ℕ) (gs : List (List α)) :
    (starts s gs).getLast? = some (s+gs.flatten.length) := by
  induction gs generalizing s with
  | nil => rfl
  | cons g gs ih =>
    have hrest := ih (s+g.length)
    change (s::starts (s+g.length) gs).getLast? = _
    rw [List.getLast?_cons, hrest, List.flatten_cons, List.length_append, Nat.add_assoc]
    rfl

theorem segment (gs : List (List α)) (rest : List α) (k : ℕ) (g : List α) (hg : gs[k]? = some g) :
    ((gs.flatten++rest).drop (gs.take k).flatten.length).take g.length = g := by
  induction gs generalizing k with
  | nil => cases hg
  | cons h gs ih =>
    cases k with
    | zero =>
      obtain rfl := Option.some.inj hg
      change ((h++gs.flatten++rest).drop 0).take h.length = h
      rw [List.drop_zero, List.append_assoc, List.take_left]
    | succ k =>
      have hrest := ih k hg
      rw [List.take_succ_cons, List.flatten_cons, List.flatten_cons, List.length_append,
        List.append_assoc, ← List.drop_drop, List.drop_left]
      exact hrest

theorem length_le_flatten (gs : List (List α)) (h : ∀ g ∈ gs, g ≠ []) : gs.length ≤ gs.flatten.length := by
  induction gs with
  | nil => exact Nat.le_refl 0
  | cons g gs ih =>
    have hg := List.length_pos_iff.mpr (h g List.mem_cons_self)
    have hrest := ih fun x hx => h x (List.mem_cons_of_mem g hx)
    rw [List.flatten_cons, List.length_append, List.length_cons]
    omega

end Segments

/-! ## What to drop -/

namespace Knapsack
open Masks

section Table
variable (add : ℕ → ℕ → ℕ)

def best : List (ℕ × ℕ) → ℕ → ℕ
  | [], _ => 0
  | x::xs, j =>
    if x.1 ≤ j ∧ best xs j < add (best xs (j-x.1)) x.2 then add (best xs (j-x.1)) x.2 else best xs j

def back (x : ℕ × ℕ) (xs : List (ℕ × ℕ)) (j : ℕ) : ℕ :=
  if x.1 ≤ j ∧ best add xs j < add (best add xs (j-x.1)) x.2 then j-x.1 else j

def dropped : List (ℕ × ℕ) → ℕ → List Bool
  | [], _ => []
  | x::xs, j => decide (back add x xs j ≠ j)::dropped xs (back add x xs j)

theorem dropped_cons (x : ℕ × ℕ) (xs : List (ℕ × ℕ)) (j : ℕ) : dropped add (x::xs) j =
    decide (back add x xs j ≠ j)::dropped add xs (back add x xs j) := rfl

theorem dropped_length (xs : List (ℕ × ℕ)) (j : ℕ) : (dropped add xs j).length = xs.length := by
  induction xs generalizing j with
  | nil => rfl
  | cons x xs ih => exact congrArg (·+1) (ih _)

theorem back_le (x : ℕ × ℕ) (xs : List (ℕ × ℕ)) (j : ℕ) : back add x xs j ≤ j := by
  unfold back
  split
  · exact Nat.sub_le _ _
  · exact le_refl j

theorem dropped_weight (xs : List (ℕ × ℕ)) (j : ℕ) :
    weigh (dropped add xs j) (xs.map Prod.fst) ≤ j := by
  induction xs generalizing j with
  | nil => exact Nat.zero_le j
  | cons x xs ih =>
    have hrest := ih (back add x xs j)
    by_cases hback : back add x xs j = j
    · have hkeep : dropped add (x::xs) j = false::dropped add xs (back add x xs j) := by
        rw [dropped_cons, decide_eq_false (not_not.mpr hback)]
      rw [hkeep]
      exact hrest.trans (back_le add x xs j)
    · have hdrop : dropped add (x::xs) j = true::dropped add xs (back add x xs j) := by
        rw [dropped_cons, decide_eq_true hback]
      have hx : x.1 ≤ j ∧ back add x xs j = j-x.1 := by
        unfold back at hback ⊢
        split
        · rename_i h
          exact ⟨h.1,rfl⟩
        · rename_i h
          rw [if_neg h] at hback
          exact absurd rfl hback
      have hsum : weigh (dropped add (x::xs) j) ((x::xs).map Prod.fst) =
          x.1+weigh (dropped add xs (back add x xs j)) (xs.map Prod.fst) := by
        rw [hdrop]
        exact List.sum_cons
      rw [hsum]
      omega

end Table

section Exact

theorem best_ge {xs : List (ℕ × ℕ)} (j : ℕ) (bs : List Bool) (h : weigh bs (xs.map Prod.fst) ≤ j) :
    weigh bs (xs.map Prod.snd) ≤ best (·+·) xs j := by
  induction xs generalizing j bs with
  | nil =>
    have hnil : weigh bs (([] : List (ℕ × ℕ)).map Prod.snd) = 0 := by
      cases bs with
      | nil => rfl
      | cons b bs => cases b <;> rfl
    rw [hnil]
    exact Nat.zero_le _
  | cons x xs ih =>
    cases bs with
    | nil => exact Nat.zero_le _
    | cons b bs =>
      cases b with
      | false =>
        have hrest := ih j bs h
        change weigh bs (xs.map Prod.snd) ≤ _
        unfold best
        split
        · omega
        · exact hrest
      | true =>
        have hfst : weigh (true::bs) ((x::xs).map Prod.fst) = x.1+weigh bs (xs.map Prod.fst) :=
          List.sum_cons
        have hsnd : weigh (true::bs) ((x::xs).map Prod.snd) = x.2+weigh bs (xs.map Prod.snd) :=
          List.sum_cons
        have hrest := ih (j-x.1) bs (by omega)
        rw [hsnd]
        unfold best
        split
        · omega
        · rename_i hnot
          have hx : x.1 ≤ j := by omega
          have hle : best (·+·) xs (j-x.1)+x.2 ≤ best (·+·) xs j :=
            not_lt.mp fun hlt => hnot ⟨hx,hlt⟩
          omega

theorem best_attained (xs : List (ℕ × ℕ)) (j : ℕ) : ∃ bs, weigh bs (xs.map Prod.fst) ≤ j ∧
    weigh bs (xs.map Prod.snd) = best (·+·) xs j := by
  induction xs generalizing j with
  | nil => exact ⟨[],Nat.zero_le j,rfl⟩
  | cons x xs ih =>
    unfold best
    split
    · rename_i h
      obtain ⟨bs,hw,hc⟩ := ih (j-x.1)
      have hfst : weigh (true::bs) ((x::xs).map Prod.fst) = x.1+weigh bs (xs.map Prod.fst) :=
        List.sum_cons
      have hsnd : weigh (true::bs) ((x::xs).map Prod.snd) = x.2+weigh bs (xs.map Prod.snd) :=
        List.sum_cons
      refine ⟨true::bs,?_,?_⟩
      · rw [hfst]
        omega
      · rw [hsnd, hc, add_comm]
    · obtain ⟨bs,hw,hc⟩ := ih j
      exact ⟨false::bs,hw,hc⟩

theorem dropped_cost {xs : List (ℕ × ℕ)} (j : ℕ) (hz : ∀ x ∈ xs, x.1 = 0 → x.2 = 0) :
    weigh (dropped (·+·) xs j) (xs.map Prod.snd) = best (·+·) xs j := by
  induction xs generalizing j with
  | nil => rfl
  | cons x xs ih =>
    have hrest := ih (back (·+·) x xs j) fun y hy => hz y (List.mem_cons_of_mem x hy)
    unfold dropped best
    by_cases hstep : x.1 ≤ j ∧ best (·+·) xs j < best (·+·) xs (j-x.1)+x.2
    · have hback : back (·+·) x xs j = j-x.1 := if_pos hstep
      have hne : back (·+·) x xs j ≠ j := by
        intro heq
        have hzero : x.1 = 0 := by omega
        have hcost := hz x List.mem_cons_self hzero
        rw [hzero, hcost, Nat.sub_zero, Nat.add_zero] at hstep
        exact lt_irrefl _ hstep.2
      rw [if_pos hstep, decide_eq_true hne]
      change (x.2::pick _ (xs.map Prod.snd)).sum = _
      rw [List.sum_cons, add_comm]
      have hrest' : (pick (dropped (·+·) xs (back (·+·) x xs j)) (xs.map Prod.snd)).sum =
          best (·+·) xs (back (·+·) x xs j) := hrest
      rw [hrest', hback]
    · have hback : back (·+·) x xs j = j := if_neg hstep
      rw [if_neg hstep, decide_eq_false (not_not.mpr hback)]
      change (pick _ (xs.map Prod.snd)).sum = _
      have hrest' : (pick (dropped (·+·) xs (back (·+·) x xs j)) (xs.map Prod.snd)).sum =
          best (·+·) xs (back (·+·) x xs j) := hrest
      rw [hrest', hback]

/-- An addition that wraps does not matter where nothing that may be dropped costs so much. -/
theorem best_wrapped (n : ℕ) (xs : List (ℕ × ℕ)) (j : ℕ)
    (h : ∀ bs, weigh bs (xs.map Prod.fst) ≤ j → weigh bs (xs.map Prod.snd) < n) :
    best (fun a b => (a+b)%n) xs j = best (·+·) xs j ∧
      dropped (fun a b => (a+b)%n) xs j = dropped (·+·) xs j := by
  induction xs generalizing j with
  | nil => exact ⟨rfl,rfl⟩
  | cons x xs ih =>
    have hkeep := ih j fun bs hbs => h (false::bs) hbs
    have hbest : best (fun a b => (a+b)%n) (x::xs) j = best (·+·) (x::xs) j ∧
        back (fun a b => (a+b)%n) x xs j = back (·+·) x xs j := by
      unfold best back
      rw [hkeep.1]
      by_cases hx : x.1 ≤ j
      · have hstep := ih (j-x.1) (by
          intro bs hbs
          have hfst : weigh (true::bs) ((x::xs).map Prod.fst) = x.1+weigh bs (xs.map Prod.fst) :=
            List.sum_cons
          have hsnd : weigh (true::bs) ((x::xs).map Prod.snd) = x.2+weigh bs (xs.map Prod.snd) :=
            List.sum_cons
          have hlt := h (true::bs) (by omega)
          omega)
        obtain ⟨bs,hw,hc⟩ := best_attained xs (j-x.1)
        have hlt : best (·+·) xs (j-x.1)+x.2 < n := by
          have hfst : weigh (true::bs) ((x::xs).map Prod.fst) = x.1+weigh bs (xs.map Prod.fst) :=
            List.sum_cons
          have hsnd : weigh (true::bs) ((x::xs).map Prod.snd) = x.2+weigh bs (xs.map Prod.snd) :=
            List.sum_cons
          have hall := h (true::bs) (by omega)
          omega
        beta_reduce
        rw [hstep.1, Nat.mod_eq_of_lt hlt]
        exact ⟨rfl,rfl⟩
      · rw [if_neg fun hc => hx hc.1, if_neg fun hc => hx hc.1, if_neg fun hc => hx hc.1,
          if_neg fun hc => hx hc.1]
        exact ⟨rfl,rfl⟩
    refine ⟨hbest.1,?_⟩
    have hrest := ih (back (·+·) x xs j) (by
      intro bs hbs
      exact h (false::bs) (hbs.trans (back_le _ x xs j)))
    unfold dropped
    rw [hbest.2, hrest.2]

end Exact

end Knapsack
