import Mathlib.Data.List.Sort
import Mathlib.Data.List.Perm.Basic
import Mathlib.Data.List.Pairwise

/-!
# Ranks under distinct keys

Where no two members share a key, every sort by descending key gives the same
list, a member stands in it at the place of its rank, and one pass for the
highest key ends at its head.
-/

set_option autoImplicit false

namespace Ranking
variable {α : Type} (key : α → ℕ)

def Descending (as : List α) : Prop := as.Pairwise (fun a b => key b ≤ key a)

def Apart (as : List α) : Prop := as.Pairwise (fun a b => key a ≠ key b)

variable {as : List α}

theorem apart_perm {bs : List α} (hp : as.Perm bs) (h : Apart key as) : Apart key bs :=
  hp.pairwise h (fun hab => hab.symm)

theorem apart_nodup (h : Apart key as) : as.Nodup :=
  h.imp (fun hab heq => hab (congrArg key heq))

theorem apart_same (h : Apart key as) {a b : α} (ha : a ∈ as) (hb : b ∈ as) (hk : key a = key b) :
    a = b := by
  by_contra hab
  have : Std.Symm (fun a b => key a ≠ key b) := ⟨fun _ _ h => h.symm⟩
  exact h.forall ha hb hab hk

theorem descending_unique (as bs : List α) (hp : as.Perm bs) (hd : Apart key as)
    (ha : Descending key as) (hb : Descending key bs) : as = bs := by
  refine hp.eq_of_pairwise (fun a b hma hmb hab hba => ?_) ha hb
  exact apart_same key hd hma (hp.symm.subset hmb) (Nat.le_antisymm hba hab)

theorem find_place (hn : as.Nodup) {k : ℕ} {a : α} (hk : as[k]? = some a) (p : α → Bool)
    (hp : ∀ b ∈ as, p b = true ↔ b = a) : as.findIdx? p = some k := by
  obtain ⟨hlt,hget⟩ := List.getElem?_eq_some_iff.mp hk
  rw [List.findIdx?_eq_some_iff_getElem]
  refine ⟨hlt,?_,fun j hj hpj => ?_⟩
  · exact (hp _ (List.getElem_mem hlt)).mpr hget
  · have hsame := (hp _ (List.getElem_mem _)).mp hpj
    have := (List.Nodup.getElem_inj_iff hn).mp (hsame.trans hget.symm)
    omega

def highest : List α → ℕ → Option α → Option α
  | [], _, found => found
  | a::as, above, found => if above < key a then highest as (key a) (some a) else highest as above found

theorem highest_kept (as : List α) {above : ℕ} (found : Option α) (h : ∀ a ∈ as, key a ≤ above) :
    highest key as above found = found := by
  induction as with
  | nil => rfl
  | cons a as ih =>
    have ha := h a (by simp)
    rw [highest, if_neg (by omega)]
    exact ih (fun b hb => h b (by simp [hb]))

theorem highest_eq {m : α} (hm : m ∈ as) (h : ∀ a ∈ as, key a ≤ key m) (hd : Apart key as)
    (above : ℕ) (found : Option α) (hab : above < key m) : highest key as above found = some m := by
  induction as generalizing above found with
  | nil => simp at hm
  | cons a as ih =>
    have htail := List.pairwise_cons.mp hd
    by_cases heq : m = a
    · subst heq
      rw [highest, if_pos hab]
      exact highest_kept key as _ (fun b hb => h b (by simp [hb]))
    · have hmas : m ∈ as := by simpa [heq] using hm
      have hlt : key a < key m := by
        have hle := h a (by simp)
        have hne := htail.1 m hmas
        omega
      have ih := ih hmas (fun b hb => h b (by simp [hb])) htail.2
      rw [highest]
      split_ifs
      · exact ih _ _ hlt
      · exact ih _ _ hab

theorem highest_head {bs : List α} (hp : as.Perm bs) (hd : Apart key as) (hb : Descending key bs)
    (hpos : ∀ a ∈ as, 0 < key a) : highest key as 0 none = bs.head? := by
  cases bs with
  | nil =>
    rw [hp.eq_nil]
    rfl
  | cons m bs =>
    have hm : m ∈ as := hp.symm.subset (by simp)
    refine highest_eq key hm (fun a ha => ?_) hd 0 none (hpos m hm)
    rcases List.mem_cons.mp (hp.subset ha) with rfl | hab
    · exact Nat.le_refl _
    · exact (List.pairwise_cons.mp hb).1 a hab

end Ranking
