import SwippCore.Lib.Sorted

/-!
# Reverse indexes

An item belongs to some keys, and the index holds the items of every key. An item is put
under its keys one by one and dropped from them one by one, where a key may come twice.
A key whose last item goes is dropped itself.
-/

set_option autoImplicit false

namespace ReverseIndex

variable {K I : Type} [LinearOrder K] [LinearOrder I]

def Has (m : SortedMap K (SortedSet I)) (k : K) (i : I) : Prop := ∃ s, m.find k = some s ∧ i ∈ s

def Tight (m : SortedMap K (SortedSet I)) : Prop := ∀ k s, m.find k = some s → ∃ i, i ∈ s

def putOne (i : I) (m : SortedMap K (SortedSet I)) (k : K) : SortedMap K (SortedSet I) :=
  m.insert k (((m.find k).getD SortedSet.empty).insert i)

def dropOne (i : I) (m : SortedMap K (SortedSet I)) (k : K) : SortedMap K (SortedSet I) :=
  match m.find k with
  | none => m
  | some s => if (s.erase i).isEmpty then m.erase k else m.insert k (s.erase i)

def put (i : I) (ks : List K) (m : SortedMap K (SortedSet I)) : SortedMap K (SortedSet I) :=
  ks.foldl (putOne i) m

def drop (i : I) (ks : List K) (m : SortedMap K (SortedSet I)) : SortedMap K (SortedSet I) :=
  ks.foldl (dropOne i) m

section One
variable (i : I) (m : SortedMap K (SortedSet I)) (k : K)

theorem has_put_one (l : K) (j : I) : Has (putOne i m k) l j ↔ Has m l j ∨ j = i ∧ l = k := by
  unfold Has putOne
  by_cases hl : l = k
  · rw [SortedMap.find_insert, if_pos hl, hl]
    cases m.find k with
    | none => simp [SortedSet.mem_insert, SortedSet.not_mem_empty]
    | some s => simp [SortedSet.mem_insert, or_comm]
  · rw [SortedMap.find_insert, if_neg hl]
    simp [hl]

theorem tight_put_one (h : Tight m) : Tight (putOne i m k) := by
  intro l s hs
  rw [putOne, SortedMap.find_insert] at hs
  split_ifs at hs
  · rw [← Option.some.inj hs]
    exact ⟨i,(SortedSet.mem_insert _ _ _).mpr (Or.inl rfl)⟩
  · exact h l s hs

theorem has_drop_one (l : K) (j : I) :
    Has (dropOne i m k) l j ↔ Has m l j ∧ ¬ (j = i ∧ l = k) := by
  unfold Has dropOne
  cases hk : m.find k with
  | none =>
    by_cases hl : l = k
    · simp [hl, hk]
    · simp [hl]
  | some s =>
    by_cases he : (s.erase i).isEmpty = true
    · have hnone := (SortedSet.is_empty_iff _).mp he
      simp only [he, if_true, SortedMap.find_erase]
      by_cases hl : l = k
      · rw [if_pos hl, hl, hk]
        constructor
        · rintro ⟨_,hn,_⟩
          cases hn
        · rintro ⟨⟨t,ht,hj⟩,hne⟩
          rw [← Option.some.inj ht] at hj
          exact absurd ((SortedSet.mem_erase _ _ _).mpr ⟨hj,fun hji => hne ⟨hji,rfl⟩⟩) (hnone j)
      · simp [hl]
    · simp only [he, if_false, SortedMap.find_insert, Bool.false_eq_true]
      by_cases hl : l = k
      · rw [if_pos hl, hl, hk]
        simp [SortedSet.mem_erase]
      · simp [hl]

theorem tight_drop_one (h : Tight m) : Tight (dropOne i m k) := by
  unfold dropOne
  cases hk : m.find k with
  | none => exact h
  | some s =>
    dsimp only
    split_ifs with he
    · intro l t ht
      rw [SortedMap.find_erase] at ht
      split_ifs at ht
      exact h l t ht
    · intro l t ht
      rw [SortedMap.find_insert] at ht
      split_ifs at ht
      · rw [← Option.some.inj ht]
        by_contra hno
        exact he ((SortedSet.is_empty_iff _).mpr (not_exists.mp hno))
      · exact h l t ht

end One

variable (i : I) (ks : List K) (m : SortedMap K (SortedSet I))

theorem has_put (l : K) (j : I) : Has (put i ks m) l j ↔ Has m l j ∨ j = i ∧ l ∈ ks := by
  induction ks generalizing m with
  | nil => simp [put]
  | cons k ks ih =>
    rw [put, List.foldl_cons, ← put, ih, has_put_one, List.mem_cons]
    tauto

theorem tight_put (h : Tight m) : Tight (put i ks m) := by
  induction ks generalizing m with
  | nil => exact h
  | cons k ks ih => exact ih _ (tight_put_one i m k h)

theorem has_drop (l : K) (j : I) : Has (drop i ks m) l j ↔ Has m l j ∧ ¬ (j = i ∧ l ∈ ks) := by
  induction ks generalizing m with
  | nil => simp [drop]
  | cons k ks ih =>
    rw [drop, List.foldl_cons, ← drop, ih, has_drop_one, List.mem_cons]
    tauto

theorem tight_drop (h : Tight m) : Tight (drop i ks m) := by
  induction ks generalizing m with
  | nil => exact h
  | cons k ks ih => exact ih _ (tight_drop_one i m k h)

end ReverseIndex
