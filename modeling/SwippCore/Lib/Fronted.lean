import SwippCore.Lib.FinMap

/-!
# Maps with few entries

Maps with one entry, and entries behind one that counts.
-/

set_option autoImplicit false

/-! ## Maps with one entry -/

namespace FinMap
variable {K V : Type} [DecidableEq K]

def Sole (m : Dict K V) (k : K) (v : V) : Prop := m.entries = [⟨k,v⟩]

theorem sole_empty (k : K) (v : V) : Sole ((∅ : Dict K V).insert k v) k v := rfl

variable {m : Dict K V}

theorem sole_insert {k : K} (v w : V) (h : Sole m k v) : Sole (m.insert k w) k w := by
  unfold Sole at h ⊢
  have herase : List.kerase k [(⟨k,v⟩ : Sigma fun _ : K => V)] = [] := List.kerase_cons_eq rfl
  rw [AList.entries_insert, h, herase]

theorem in_order_sole (le : K → K → Bool) {k : K} {v : V} (h : Sole m k v) :
    inOrder le m = [⟨k,v⟩] := by
  unfold inOrder
  rw [h]
  rfl

theorem lookup_sole {k : K} {v : V} (h : Sole m k v) : m.lookup k = some v :=
  (mem_entries m k v).mp (by rw [h]; exact List.mem_singleton.mpr rfl)

theorem sole_self {k : K} {v : V} (h : Sole m k v) : m.insert k v = m :=
  AList.ext ((sole_insert v v h).trans h.symm)

end FinMap

/-! ## Entries behind one that counts -/

namespace FinMap
variable {K V : Type} [DecidableEq K]

def Fronted (m : Dict K V) (num : K → ℕ) (has : V → Prop) : Prop :=
  ∀ k v, m.lookup k = some v → ¬ has v → ∃ j w, m.lookup j = some w ∧ has w ∧ num j < num k

variable (m : Dict K V) (num : K → ℕ) (has : V → Prop)

theorem fronted_insert (h : Fronted m num has) (k : K) {v : V} (hv : has v) :
    Fronted (m.insert k v) num has := by
  intro i u hi hu
  rw [lookup_insert_if] at hi
  by_cases hik : i = k
  · rw [if_pos hik] at hi
    exact absurd (Option.some.inj hi ▸ hv) hu
  · rw [if_neg hik] at hi
    obtain ⟨j,w,hj,hw,hlt⟩ := h i u hi hu
    by_cases hjk : j = k
    · exact ⟨k,v,AList.lookup_insert m,hv,hjk ▸ hlt⟩
    · exact ⟨j,w,by rw [lookup_insert_if, if_neg hjk]; exact hj,hw,hlt⟩

theorem fronted_insert_behind (h : Fronted m num has) {k : K} (v : V) (hk : m.lookup k = none)
    (hfront : ∃ j w, m.lookup j = some w ∧ has w ∧ num j < num k) :
    Fronted (m.insert k v) num has := by
  have hkept : ∀ j w, m.lookup j = some w → (m.insert k v).lookup j = some w := by
    intro j w hj
    rw [lookup_insert_if, if_neg, hj]
    intro hjk
    rw [hjk, hk] at hj
    cases hj
  intro i u hi hu
  rw [lookup_insert_if] at hi
  by_cases hik : i = k
  · obtain ⟨j,w,hj,hw,hlt⟩ := hfront
    exact ⟨j,w,hkept j w hj,hw,hik ▸ hlt⟩
  · rw [if_neg hik] at hi
    obtain ⟨j,w,hj,hw,hlt⟩ := h i u hi hu
    exact ⟨j,w,hkept j w hj,hw,hlt⟩

theorem first_fronted (le : K → K → Bool) (hle : Ordered le)
    (hnum : ∀ a b, le a b = true → num a ≤ num b) (h : Fronted m num has) (k : K) (v : V)
    (hf : first le m = some ⟨k,v⟩) : has v := by
  obtain ⟨hlook,hleast⟩ := first_some le m hle k v hf
  by_contra hv
  obtain ⟨j,w,hj,_,hlt⟩ := h k v hlook hv
  have hle := hnum k j (hleast j w hj)
  omega

section Reading
variable {A B : Type} (key : A → K) (val : A → V)

def insertAll : List A → Dict K V → Dict K V
  | [], m => m
  | x::xs, m => insertAll xs (m.insert (key x) (val x))

theorem insert_all_cases {xs : List A} (m : Dict K V) {k : K} {v : V}
    (h : (insertAll key val xs m).lookup k = some v) :
    (∃ x ∈ xs, v = val x ∧ k = key x) ∨ m.lookup k = some v := by
  induction xs generalizing m with
  | nil => exact Or.inr h
  | cons x xs ih =>
    rcases ih _ h with ⟨y,hy,hv⟩ | hm
    · exact Or.inl ⟨y,List.mem_cons_of_mem x hy,hv⟩
    · rw [lookup_insert_if] at hm
      split at hm
      · rename_i hk
        exact Or.inl ⟨x,List.mem_cons_self,(Option.some.inj hm).symm,hk⟩
      · exact Or.inr hm

theorem insert_all_some {xs : List A} {m : Dict K V} {k : K}
    (h : (m.lookup k).isSome = true ∨ ∃ x ∈ xs, key x = k) :
    ((insertAll key val xs m).lookup k).isSome = true := by
  induction xs generalizing m with
  | nil =>
    rcases h with h | ⟨x,hx,_⟩
    · exact h
    · cases hx
  | cons x xs ih =>
    apply ih
    rw [lookup_insert_if]
    by_cases hk : k = key x
    · rw [if_pos hk]
      exact Or.inl rfl
    · rw [if_neg hk]
      rcases h with h | ⟨y,hy,hyk⟩
      · exact Or.inl h
      · rcases List.mem_cons.mp hy with rfl | hy
        · exact absurd hyk.symm hk
        · exact Or.inr ⟨y,hy,hyk⟩

end Reading

section Records
variable {A B : Type} [DecidableEq A] (le : A → A → Bool) (d : Dict A B) (key : A → K) (val : A → B → V)

def readAll : Dict K V := insertAll (fun x => key x.1) (fun x => val x.1 x.2) (inOrder le d) ∅

theorem read_all_cases {k : K} {v : V} (h : (readAll le d key val).lookup k = some v) :
    ∃ a b, d.lookup a = some b ∧ v = val a b ∧ k = key a := by
  rcases insert_all_cases _ _ _ h with ⟨x,hx,hv,hk⟩ | hempty
  · exact ⟨x.1,x.2,(mem_in_order _ _ _ _).mp hx,hv,hk⟩
  · cases hempty

theorem read_all_some {a : A} {b : B} (h : d.lookup a = some b) :
    ∃ v, (readAll le d key val).lookup (key a) = some v :=
  Option.isSome_iff_exists.mp
    (insert_all_some _ _ (Or.inr ⟨⟨a,b⟩,(mem_in_order _ _ _ _).mpr h,rfl⟩))

variable (hasB : B → Prop)

section
variable (hval : ∀ a b, has (val a b) ↔ hasB b) (h : Fronted d (fun a => num (key a)) hasB)
include hval h

theorem read_all_has {n : ℕ} (a : A) (b : B) (hn : num (key a) = n)
    (ha : d.lookup a = some b) :
    ∃ k v, (readAll le d key val).lookup k = some v ∧ has v ∧ num k ≤ n := by
  induction n using Nat.strong_induction_on generalizing a b with
  | _ n ih =>
    obtain ⟨v,hv⟩ := read_all_some le d key val ha
    by_cases hhas : has v
    · exact ⟨key a,v,hv,hhas,le_of_eq hn⟩
    · -- another record of this key came last, so one with a smaller key counts
      obtain ⟨a',b',ha',rfl,hkey⟩ := read_all_cases le d key val hv
      obtain ⟨c,e,hc,_,hlt⟩ := h a' b' ha' fun hb => hhas ((hval a' b').mpr hb)
      dsimp only at hlt
      rw [← hkey, hn] at hlt
      obtain ⟨k,w,hk,hw,hle⟩ := ih _ hlt c e rfl hc
      exact ⟨k,w,hk,hw,by omega⟩

theorem fronted_read_all : Fronted (readAll le d key val) num has := by
  intro k v hv hhas
  obtain ⟨a,b,ha,rfl,hkey⟩ := read_all_cases le d key val hv
  obtain ⟨c,e,hc,_,hlt⟩ := h a b ha fun hb => hhas ((hval a b).mpr hb)
  obtain ⟨j,w,hj,hw,hle⟩ := read_all_has num has le d key val hasB hval h c e rfl hc
  dsimp only at hlt
  exact ⟨j,w,hj,hw,by rw [hkey]; omega⟩

end

end Records

end FinMap
