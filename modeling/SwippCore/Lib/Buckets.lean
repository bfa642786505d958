import SwippCore.Lib.FinMap
import Mathlib.Algebra.BigOperators.Pi
import Mathlib.Data.Fintype.Card
import Mathlib.Algebra.Order.Ring.Int

/-!
# Tables

Buckets, tables that are inverse to each other, and lists that are struck off.
-/

set_option autoImplicit false

/-! ## Buckets -/

namespace Buckets

section Holders
variable {I A : Type} [Fintype I] [DecidableEq A]

def holders (vv : I → Finset A) (a : A) : ℕ := (Finset.univ.filter fun b => a ∈ vv b).card

variable (vv : I → Finset A)

variable {a : A}

theorem holders_pos {b : I} (h : a ∈ vv b) : 0 < holders vv a :=
  Finset.card_pos.mpr ⟨b,Finset.mem_filter.mpr ⟨Finset.mem_univ b,h⟩⟩

theorem holders_eq_zero (a : A) : holders vv a = 0 ↔ ∀ b, a ∉ vv b := by
  unfold holders
  rw [Finset.card_eq_zero, Finset.filter_eq_empty_iff]
  exact ⟨fun h b => h (Finset.mem_univ b),fun h b _ => h b⟩

theorem holders_congr (ww : I → Finset A) (a : A) (h : ∀ b, a ∈ vv b ↔ a ∈ ww b) :
    holders vv a = holders ww a := by
  unfold holders
  congr 1
  exact Finset.filter_congr fun b _ => h b

theorem holders_erase_all_ne {x : A} (hne : x ≠ a) :
    holders (fun b => (vv b).erase a) x = holders vv x :=
  holders_congr _ _ x fun b => by rw [Finset.mem_erase]; exact ⟨fun h => h.2,fun h => ⟨hne,h⟩⟩

variable [DecidableEq I]

theorem holders_erase {b : I} (h : a ∈ vv b) :
    holders (Function.update vv b ((vv b).erase a)) a+1 = holders vv a := by
  have hset : (Finset.univ.filter fun c => a ∈ vv c) =
      insert b (Finset.univ.filter fun c => a ∈ Function.update vv b ((vv b).erase a) c) := by
    ext c
    simp only [Finset.mem_insert, Finset.mem_filter, Finset.mem_univ, true_and, Function.update_apply]
    by_cases hc : c = b
    · simp [hc, h]
    · simp [hc]
  unfold holders
  rw [hset, Finset.card_insert_of_notMem]
  simp

theorem holders_erase_ne (b : I) {x : A} (hne : x ≠ a) :
    holders (Function.update vv b ((vv b).erase a)) x = holders vv x := by
  apply holders_congr
  intro c
  rw [Function.update_apply]
  split
  · rename_i hc
    rw [hc, Finset.mem_erase]
    exact ⟨fun h => h.2,fun h => ⟨hne,h⟩⟩
  · exact Iff.rfl

theorem holders_insert {b : I} (h : a ∉ vv b) :
    holders (Function.update vv b (insert a (vv b))) a = holders vv a+1 := by
  have hback := holders_erase (Function.update vv b (insert a (vv b)))
    (by rw [Function.update_self]; exact Finset.mem_insert_self a _)
  rw [Function.update_idem, Function.update_self, Finset.erase_insert h, Function.update_eq_self] at hback
  exact hback.symm

theorem holders_insert_ne (b : I) {x : A} (hne : x ≠ a) :
    holders (Function.update vv b (insert a (vv b))) x = holders vv x := by
  apply holders_congr
  intro c
  rw [Function.update_apply]
  split
  · rename_i hc
    rw [hc, Finset.mem_insert]
    exact ⟨fun h => h.resolve_left hne,Or.inr⟩
  · exact Iff.rfl

end Holders

theorem length_update {I A : Type} [Fintype I] [DecidableEq I] (ll : I → List A) (b : I) (l : List A) :
    ∑ c, (Function.update ll b l c).length+(ll b).length = ∑ c, (ll c).length+l.length := by
  have hfun : (fun c => (Function.update ll b l c).length) =
      Function.update (fun c => (ll c).length) b l.length := by
    funext c
    simp only [Function.update_apply]
    split <;> rfl
  have hnew := Finset.sum_update_of_mem (Finset.mem_univ b) (fun c => (ll c).length) l.length
  have hold := Finset.sum_update_of_mem (Finset.mem_univ b) (fun c => (ll c).length) (ll b).length
  rw [Function.update_eq_self] at hold
  rw [hfun, hnew, hold]
  omega

end Buckets

/-! ## Tables that are inverse to each other -/

namespace TwoWay

section Tables
variable {A B : Type}

def Inverse (f : A → Option B) (g : B → Option A) : Prop := ∀ a b, f a = some b ↔ g b = some a

variable (f : A → Option B) (g : B → Option A)

theorem injective (h : Inverse f g) (a a' : A) (b : B) (ha : f a = some b) (ha' : f a' = some b) :
    a = a' :=
  Option.some.inj (((h a b).mp ha).symm.trans ((h a' b).mp ha'))

variable [DecidableEq A] [DecidableEq B]

theorem inverse_add (h : Inverse f g) {a : A} {b : B} (ha : f a = none) (hb : g b = none) :
    Inverse (Function.update f a (some b)) (Function.update g b (some a)) := by
  intro x y
  simp only [Function.update_apply]
  by_cases hx : x = a
  · by_cases hy : y = b
    · simp [hx, hy]
    · have hne : g y ≠ some a := by
        intro hg
        rw [(h a y).mpr hg] at ha
        cases ha
      simp [hx, hy, Ne.symm hy, hne]
  · by_cases hy : y = b
    · have hne : f x ≠ some b := by
        intro hf
        rw [(h x b).mp hf] at hb
        cases hb
      simp [hx, hy, Ne.symm hx, hne]
    · simp [hx, hy, h x y]

theorem inverse_remove (h : Inverse f g) {a : A} {b : B} (ha : f a = some b) :
    Inverse (Function.update f a none) (Function.update g b none) := by
  intro x y
  simp only [Function.update_apply]
  by_cases hx : x = a
  · by_cases hy : y = b
    · simp [hx, hy]
    · have hne : g y ≠ some a := by
        intro hg
        exact hy (Option.some.inj (((h a y).mpr hg).symm.trans ha))
      simp [hx, hy, hne]
  · by_cases hy : y = b
    · have hne : f x ≠ some b := fun hf => hx (injective f g h x a b hf ha)
      simp [hx, hy, hne]
    · simp [hx, hy, h x y]

theorem inverse_swap (h : Inverse f g) {a a' : A} {b b' : B} (hne : a ≠ a') (ha : f a = some b)
    (ha' : f a' = some b') :
    Inverse (Function.update (Function.update f a (some b')) a' (some b))
      (Function.update (Function.update g b (some a')) b' (some a)) := by
  have hbb : b ≠ b' := fun heq => hne (injective f g h a a' b ha (heq ▸ ha'))
  have hfirst := inverse_remove f g h ha
  have hsecond := inverse_remove _ _ hfirst
    (by rw [Function.update_of_ne (Ne.symm hne)]; exact ha')
  have hthird := inverse_add _ _ hsecond
    (by rw [Function.update_of_ne hne, Function.update_self]) (Function.update_self ..)
  have hfourth := inverse_add _ _ hthird
    (by rw [Function.update_of_ne (Ne.symm hne), Function.update_self])
    (by rw [Function.update_of_ne hbb, Function.update_of_ne hbb, Function.update_self])
  have hf : Function.update (Function.update (Function.update (Function.update f a none) a' none) a
      (some b')) a' (some b) = Function.update (Function.update f a (some b')) a' (some b) := by
    funext x
    simp only [Function.update_apply]
    split_ifs <;> rfl
  have hg : Function.update (Function.update (Function.update (Function.update g b none) b' none) b'
      (some a)) b (some a') = Function.update (Function.update g b (some a')) b' (some a) := by
    funext y
    simp only [Function.update_apply]
    by_cases hy : y = b
    · rw [if_pos hy, if_neg (fun h => hbb (hy.symm.trans h)), if_pos hy]
    · rw [if_neg hy, if_neg hy]
      split_ifs <;> rfl
  rw [hf, hg] at hfourth
  exact hfourth

end Tables

section Lists
variable {A : Type}

def place (xs : List A) (i : ℤ) : Option A := if i < 0 then none else xs[i.toNat]?

theorem place_natCast (xs : List A) (n : ℕ) : place xs n = xs[n]? := by
  unfold place
  rw [if_neg (by omega), Int.toNat_natCast]

theorem place_some {xs : List A} {i : ℤ} {a : A} (h : place xs i = some a) :
    0 ≤ i ∧ i < xs.length ∧ xs[i.toNat]? = some a := by
  unfold place at h
  split at h
  · cases h
  · have hlt := (List.getElem?_eq_some_iff.mp h).1
    exact ⟨by omega,by omega,h⟩

theorem place_push (xs : List A) (a : A) :
    place (xs++[a]) = Function.update (place xs) xs.length (some a) := by
  funext i
  rw [Function.update_apply]
  unfold place
  split
  · rw [if_neg (by omega)]
  · split
    · rename_i hi
      rw [hi, Int.toNat_natCast, List.getElem?_concat_length]
    · by_cases hlt : i.toNat < xs.length
      · rw [List.getElem?_append_left hlt]
      · rw [List.getElem?_eq_none (by rw [List.length_append, List.length_singleton]; omega),
          List.getElem?_eq_none (by omega)]

theorem place_drop_last (xs : List A) :
    place xs.dropLast = Function.update (place xs) ((xs.length : ℤ)-1) none := by
  funext i
  rw [Function.update_apply]
  unfold place
  split
  · split <;> rfl
  · rw [List.getElem?_dropLast]
    split
    · rw [if_neg (by omega)]
    · split
      · rfl
      · rw [List.getElem?_eq_none (by omega)]

theorem place_set {xs : List A} {n : ℕ} (a : A) (hn : n < xs.length) :
    place (xs.set n a) = Function.update (place xs) n (some a) := by
  funext i
  rw [Function.update_apply]
  unfold place
  split
  · rw [if_neg (by omega)]
  · rw [List.getElem?_set]
    by_cases hi : n = i.toNat
    · rw [if_pos hi, if_pos hn, if_pos (by omega)]
    · rw [if_neg hi, if_neg (by omega)]

section
variable {xs : List A} {pos : A → Option ℤ} (h : Inverse (place xs) pos)
include pos h

theorem nodup_of_inverse :
    xs.Nodup := by
  rw [List.nodup_iff_injective_get]
  intro i j hij
  have hi : place xs (i : ℕ) = some (xs.get i) := by
    rw [place_natCast]
    exact List.getElem?_eq_getElem i.isLt
  have hj : place xs (j : ℕ) = some (xs.get i) := by
    rw [place_natCast, hij]
    exact List.getElem?_eq_getElem j.isLt
  have heq := injective _ _ h _ _ _ hi hj
  exact Fin.ext (by omega)

theorem mem_of_inverse (a : A) :
    a ∈ xs ↔ (pos a).isSome = true := by
  rw [Option.isSome_iff_exists, List.mem_iff_getElem?]
  constructor
  · rintro ⟨n,hn⟩
    exact ⟨n,(h n a).mp ((place_natCast xs n).trans hn)⟩
  · rintro ⟨i,hi⟩
    exact ⟨i.toNat,(place_some ((h i a).mpr hi)).2.2⟩

end

end Lists

end TwoWay

/-! ## Striking off a list -/

namespace Tally
open FinMap
variable {K : Type} [DecidableEq K]

def strike : List K → Finset K → Option (Finset K)
  | [], set => some set
  | k::ks, set => if k ∈ set then strike ks (set.erase k) else none

theorem strike_all (ks : List K) (set : Finset K) :
    strike ks set = some ∅ ↔ ks.Nodup ∧ ks.toFinset = set := by
  induction ks generalizing set with
  | nil =>
    unfold strike
    rw [Option.some.injEq, List.toFinset_nil, eq_comm]
    exact ⟨fun h => ⟨List.nodup_nil,h⟩,fun h => h.2⟩
  | cons k ks ih =>
    unfold strike
    rw [List.nodup_cons, List.toFinset_cons]
    split
    · rename_i hk
      rw [ih]
      constructor
      · rintro ⟨hnodup,heq⟩
        have hout : k ∉ ks := by
          intro hmem
          have herased : k ∈ set.erase k := heq ▸ List.mem_toFinset.mpr hmem
          exact Finset.notMem_erase k set herased
        exact ⟨⟨hout,hnodup⟩,by rw [heq, Finset.insert_erase hk]⟩
      · rintro ⟨⟨hout,hnodup⟩,heq⟩
        refine ⟨hnodup,?_⟩
        rw [← heq, Finset.erase_insert fun hmem => hout (List.mem_toFinset.mp hmem)]
    · rename_i hk
      constructor
      · intro h
        cases h
      · rintro ⟨_,heq⟩
        exact absurd (heq ▸ Finset.mem_insert_self k _) hk

def spend : List K → Dict K ℤ → Option (Dict K ℤ)
  | [], m => some m
  | k::ks, m =>
    match m.lookup k with
    | none => none
    | some c => spend ks (if c-1 = 0 then m.erase k else m.insert k (c-1))

theorem spend_all (ks : List K) (m : Dict K ℤ) (hpos : ∀ k c, m.lookup k = some c → 0 < c) :
    (∃ rest, spend ks m = some rest ∧ ∀ k, rest.lookup k = none) ↔
      ∀ k, (ks.count k : ℤ) = (m.lookup k).getD 0 := by
  induction ks generalizing m with
  | nil =>
    constructor
    · rintro ⟨rest,hrest,hnone⟩ k
      rw [← Option.some.inj hrest] at hnone
      rw [hnone k]
      rfl
    · intro h
      refine ⟨m,rfl,?_⟩
      intro k
      cases hk : m.lookup k with
      | none => rfl
      | some c =>
        have hc := hpos k c hk
        have hzero := h k
        rw [hk] at hzero
        change (0 : ℤ) = c at hzero
        omega
  | cons k ks ih =>
    unfold spend
    cases hk : m.lookup k with
    | none =>
      constructor
      · rintro ⟨rest,hrest,_⟩
        cases hrest
      · intro h
        have hcount := h k
        rw [hk, List.count_cons_self] at hcount
        change ((ks.count k+1 : ℕ) : ℤ) = 0 at hcount
        omega
    | some c =>
      have hc := hpos k c hk
      have hlook : ∀ j, ((if c-1 = 0 then m.erase k else m.insert k (c-1)).lookup j).getD 0 =
          if j = k then c-1 else (m.lookup j).getD 0 := by
        intro j
        split
        · rename_i hlast
          rw [lookup_erase_if]
          split
          · exact hlast.symm
          · rfl
        · rw [lookup_insert_if]
          split <;> rfl
      have hpos' : ∀ j d, (if c-1 = 0 then m.erase k else m.insert k (c-1)).lookup j = some d → 0 < d := by
        intro j d hd
        split at hd
        · rw [lookup_erase_if] at hd
          split at hd
          · cases hd
          · exact hpos j d hd
        · rw [lookup_insert_if] at hd
          split at hd
          · rw [← Option.some.inj hd]
            omega
          · exact hpos j d hd
      dsimp only
      rw [ih _ hpos']
      apply forall_congr'
      intro j
      rw [hlook j]
      by_cases hj : j = k
      · rw [if_pos hj, hj, hk, List.count_cons_self]
        change (ks.count k : ℤ) = c-1 ↔ ((ks.count k+1 : ℕ) : ℤ) = c
        omega
      · rw [if_neg hj, List.count_cons_of_ne (Ne.symm hj)]

end Tally
