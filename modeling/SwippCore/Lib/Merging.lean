import Mathlib.Data.Finset.Union

/-!
# Merging of overlapping groups

Groups are taken one by one. A new one is merged with all groups that it hits, which
are found by a map from an element to the place of its group. The groups that are left
are disjoint, and two elements are in one group when a chain of given groups leads
from one to the other.
-/

set_option autoImplicit false

namespace Merging

variable {D : Type} [DecidableEq D]

structure Heap (D : Type) where
  unique : List (ℕ × Finset D)
  setmap : D → Option ℕ
  next : ℕ

def Heap.start : Heap D := ⟨[],fun _ => none,0⟩

def hits (h : Heap D) (grouping : Finset D) (p : ℕ) : Prop := ∃ a ∈ grouping, h.setmap a = some p

instance (h : Heap D) (grouping : Finset D) (p : ℕ) : Decidable (hits h grouping p) :=
  inferInstanceAs (Decidable (∃ a ∈ grouping, h.setmap a = some p))

def gather : List (ℕ × Finset D) → Finset D → Finset D
  | [], grouping => grouping
  | x::xs, grouping => gather xs (grouping ∪ x.2)

def merge (h : Heap D) (grouping : Finset D) : Heap D :=
  let merged := gather (h.unique.filter fun x => hits h grouping x.1) grouping
  { unique := h.unique.filter (fun x => ¬hits h grouping x.1)++[(h.next,merged)]
    setmap := fun a => if a ∈ merged then some h.next else h.setmap a
    next := h.next+1 }

def mergeAll : List (Finset D) → Heap D → Heap D
  | [], h => h
  | g::gs, h => mergeAll gs (merge h g)

def Together (l : List (Finset D)) (a b : D) : Prop := ∃ g ∈ l, a ∈ g ∧ b ∈ g

def Joined (h : Heap D) (a b : D) : Prop := ∃ x ∈ h.unique, a ∈ x.2 ∧ b ∈ x.2

structure Merged (l : List (Finset D)) (h : Heap D) : Prop where
  fresh : ∀ x ∈ h.unique, x.1 < h.next
  mapped : ∀ x ∈ h.unique, ∀ a ∈ x.2, h.setmap a = some x.1
  places : ∀ x ∈ h.unique, ∀ y ∈ h.unique, x.1 = y.1 → x = y
  held : ∀ a p, h.setmap a = some p → ∃ s, (p,s) ∈ h.unique ∧ a ∈ s
  sound : ∀ a b, Joined h a b → Relation.TransGen (Together l) a b
  complete : ∀ a b, Together l a b → Joined h a b
  within : ∀ x ∈ h.unique, ∃ g ∈ l, g ⊆ x.2
  empty : ∅ ∈ l → ∃ x ∈ h.unique, x.2 = ∅

section Gather

theorem mem_gather (xs : List (ℕ × Finset D)) (grouping : Finset D) (a : D) :
    a ∈ gather xs grouping ↔ a ∈ grouping ∨ ∃ x ∈ xs, a ∈ x.2 := by
  induction xs generalizing grouping with
  | nil => simp [gather]
  | cons x xs ih =>
    rw [gather, ih, Finset.mem_union, List.exists_mem_cons_iff, or_assoc]

end Gather

section Step
variable {l : List (Finset D)} {h : Heap D} (hm : Merged l h)
include hm

variable {x : ℕ × Finset D}

omit [DecidableEq D] in
theorem one_place {y : ℕ × Finset D} (hx : x ∈ h.unique) (hy : y ∈ h.unique) {a : D} (hax : a ∈ x.2)
    (hay : a ∈ y.2) : x = y := by
  exact hm.places x hx y hy
    (Option.some.inj ((hm.mapped x hx a hax).symm.trans (hm.mapped y hy a hay)))

omit [DecidableEq D] in
theorem joined_trans {a b c : D} (hab : Joined h a b) (hbc : Joined h b c) : Joined h a c := by
  obtain ⟨x,hx,hax,hbx⟩ := hab
  obtain ⟨y,hy,hby,hcy⟩ := hbc
  obtain rfl := one_place hm hx hy hbx hby
  exact ⟨x,hx,hax,hcy⟩

omit [DecidableEq D] in
theorem joined_iff (a b : D) : Joined h a b ↔ Relation.TransGen (Together l) a b := by
  constructor
  · exact hm.sound a b
  · intro hchain
    induction hchain with
    | single hab => exact hm.complete _ _ hab
    | tail _ hbc ih => exact joined_trans hm ih (hm.complete _ _ hbc)

omit [DecidableEq D] in
theorem hit_meets {g : Finset D} (hx : x ∈ h.unique) (hhit : hits h g x.1) : ∃ c ∈ g, c ∈ x.2 := by
  obtain ⟨c,hc,hmap⟩ := hhit
  obtain ⟨s,hs,hcs⟩ := hm.held c x.1 hmap
  have hsame := hm.places x hx _ hs rfl
  exact ⟨c,hc,by rw [hsame]; exact hcs⟩

variable (g : Finset D)

omit hm in
theorem mem_merged (a : D) :
    a ∈ gather (h.unique.filter fun x => hits h g x.1) g ↔
      a ∈ g ∨ ∃ x ∈ h.unique, hits h g x.1 ∧ a ∈ x.2 := by
  rw [mem_gather]
  simp only [List.mem_filter, decide_eq_true_eq, and_assoc]

theorem not_hit_apart {g : Finset D} (hx : x ∈ h.unique) (hhit : ¬hits h g x.1) {a : D}
    (ha : a ∈ x.2) : a ∉ gather (h.unique.filter fun x => hits h g x.1) g := by
  rw [mem_merged]
  rintro (hag | ⟨y,hy,hyhit,hay⟩)
  · exact hhit ⟨a,hag,hm.mapped x hx a ha⟩
  · rw [one_place hm hy hx hay ha] at hyhit
    exact hhit hyhit

omit [DecidableEq D] hm in
theorem chain_mono {a b : D} (hab : Relation.TransGen (Together l) a b) :
    Relation.TransGen (Together (l++[g])) a b := by
  induction hab with
  | single hab =>
    obtain ⟨s,hs,hin⟩ := hab
    exact .single ⟨s,List.mem_append_left _ hs,hin⟩
  | tail _ hbc ih =>
    obtain ⟨s,hs,hin⟩ := hbc
    exact ih.tail ⟨s,List.mem_append_left _ hs,hin⟩

theorem merged_chain {g : Finset D} {a : D}
    (ha : a ∈ gather (h.unique.filter fun x => hits h g x.1) g) :
    ∃ c ∈ g, Relation.TransGen (Together (l++[g])) a c ∧ Relation.TransGen (Together (l++[g])) c a := by
  rcases (mem_merged g a).mp ha with hag | ⟨x,hx,hhit,hax⟩
  · have hself : Together (l++[g]) a a := ⟨g,by simp,hag,hag⟩
    exact ⟨a,hag,.single hself,.single hself⟩
  · obtain ⟨c,hc,hcx⟩ := hit_meets hm hx hhit
    exact ⟨c,hc,chain_mono g (hm.sound a c ⟨x,hx,hax,hcx⟩),
      chain_mono g (hm.sound c a ⟨x,hx,hcx,hax⟩)⟩

omit hm in
theorem mem_merge (x : ℕ × Finset D) : x ∈ (merge h g).unique ↔
    x ∈ h.unique ∧ ¬hits h g x.1 ∨ x = (h.next,gather (h.unique.filter fun x => hits h g x.1) g) := by
  simp [merge, List.mem_append, List.mem_filter]

theorem merge_merged : Merged (l++[g]) (merge h g) where
  fresh := by
    intro x hx
    rcases (mem_merge g x).mp hx with ⟨hx,-⟩ | rfl
    · exact Nat.lt_succ_of_lt (hm.fresh x hx)
    · exact Nat.lt_succ_self _
  mapped := by
    intro x hx a ha
    rcases (mem_merge g x).mp hx with ⟨hx,hhit⟩ | rfl
    · exact (if_neg (not_hit_apart hm hx hhit ha)).trans (hm.mapped x hx a ha)
    · exact if_pos ha
  places := by
    intro x hx y hy hsame
    rcases (mem_merge g x).mp hx with ⟨hx,-⟩ | rfl
    · rcases (mem_merge g y).mp hy with ⟨hy,-⟩ | rfl
      · exact hm.places x hx y hy hsame
      · exact absurd hsame (Nat.ne_of_lt (hm.fresh x hx))
    · rcases (mem_merge g y).mp hy with ⟨hy,-⟩ | rfl
      · exact absurd hsame.symm (Nat.ne_of_lt (hm.fresh y hy))
      · rfl
  held := by
    intro a p hmap
    by_cases ha : a ∈ gather (h.unique.filter fun x => hits h g x.1) g
    · obtain rfl := Option.some.inj ((if_pos ha).symm.trans hmap)
      exact ⟨_,(mem_merge g _).mpr (Or.inr rfl),ha⟩
    · obtain ⟨s,hs,has⟩ := hm.held a p ((if_neg ha).symm.trans hmap)
      refine ⟨s,(mem_merge g _).mpr (Or.inl ⟨hs,?_⟩),has⟩
      intro hhit
      exact ha ((mem_merged g a).mpr (Or.inr ⟨_,hs,hhit,has⟩))
  sound := by
    rintro a b ⟨x,hx,ha,hb⟩
    rcases (mem_merge g x).mp hx with ⟨hx,-⟩ | rfl
    · exact chain_mono g (hm.sound a b ⟨x,hx,ha,hb⟩)
    · obtain ⟨c,hc,hac,-⟩ := merged_chain hm ha
      obtain ⟨d,hd,-,hdb⟩ := merged_chain hm hb
      exact (hac.tail ⟨g,by simp,hc,hd⟩).trans hdb
  complete := by
    rintro a b ⟨s,hs,ha,hb⟩
    rcases List.mem_append.mp hs with hs | hs
    · obtain ⟨x,hx,hax,hbx⟩ := hm.complete a b ⟨s,hs,ha,hb⟩
      by_cases hhit : hits h g x.1
      · exact ⟨_,(mem_merge g _).mpr (Or.inr rfl),(mem_merged g a).mpr (Or.inr ⟨x,hx,hhit,hax⟩),
          (mem_merged g b).mpr (Or.inr ⟨x,hx,hhit,hbx⟩)⟩
      · exact ⟨x,(mem_merge g x).mpr (Or.inl ⟨hx,hhit⟩),hax,hbx⟩
    · obtain rfl := List.mem_singleton.mp hs
      exact ⟨_,(mem_merge s _).mpr (Or.inr rfl),(mem_merged s a).mpr (Or.inl ha),
        (mem_merged s b).mpr (Or.inl hb)⟩
  within := by
    intro x hx
    rcases (mem_merge g x).mp hx with ⟨hx,-⟩ | rfl
    · obtain ⟨s,hs,hsub⟩ := hm.within x hx
      exact ⟨s,List.mem_append_left _ hs,hsub⟩
    · exact ⟨g,by simp,fun a ha => (mem_merged g a).mpr (Or.inl ha)⟩
  empty := by
    intro hempty
    rcases List.mem_append.mp hempty with hempty | hempty
    · obtain ⟨x,hx,hnone⟩ := hm.empty hempty
      refine ⟨x,(mem_merge g x).mpr (Or.inl ⟨hx,?_⟩),hnone⟩
      intro hhit
      obtain ⟨c,-,hc⟩ := hit_meets hm hx hhit
      rw [hnone] at hc
      exact absurd hc (Finset.notMem_empty c)
    · obtain rfl := List.mem_singleton.mp hempty
      refine ⟨_,(mem_merge ∅ _).mpr (Or.inr rfl),?_⟩
      rw [Finset.eq_empty_iff_forall_notMem]
      intro a ha
      rcases (mem_merged ∅ a).mp ha with ha | ⟨x,-,⟨c,hc,-⟩,-⟩
      · exact absurd ha (Finset.notMem_empty a)
      · exact absurd hc (Finset.notMem_empty c)

end Step

omit [DecidableEq D] in
theorem start_merged : Merged [] (Heap.start : Heap D) where
  fresh _ hx := absurd hx List.not_mem_nil
  mapped _ hx := absurd hx List.not_mem_nil
  places _ hx := absurd hx List.not_mem_nil
  held _ _ hmap := by cases hmap
  sound := by
    rintro a b ⟨x,hx,-⟩
    exact absurd hx List.not_mem_nil
  complete := by
    rintro a b ⟨x,hx,-⟩
    exact absurd hx List.not_mem_nil
  within _ hx := absurd hx List.not_mem_nil
  empty hempty := absurd hempty List.not_mem_nil

theorem merge_all_merged (gs l : List (Finset D)) (h : Heap D) (hm : Merged l h) :
    Merged (l++gs) (mergeAll gs h) := by
  induction gs generalizing l h with
  | nil =>
    rw [List.append_nil]
    exact hm
  | cons g gs ih =>
    have hnext := ih (l++[g]) (merge h g) (merge_merged hm g)
    rw [List.append_assoc] at hnext
    exact hnext

def groups (gs : List (Finset D)) : Finset (Finset D) :=
  ((mergeAll gs Heap.start).unique.map Prod.snd).toFinset

section Groups
variable (gs : List (Finset D))

theorem mem_groups (s : Finset D) :
    s ∈ groups gs ↔ ∃ x ∈ (mergeAll gs Heap.start).unique, x.2 = s := by
  rw [groups, List.mem_toFinset, List.mem_map]

theorem groups_nonempty : (∀ s ∈ groups gs, s.Nonempty) ↔ ∅ ∉ gs := by
  have hm := merge_all_merged gs [] Heap.start start_merged
  rw [List.nil_append] at hm
  constructor
  · intro hall hempty
    obtain ⟨x,hx,hnone⟩ := hm.empty hempty
    exact Finset.not_nonempty_empty (hnone ▸ hall x.2 ((mem_groups gs x.2).mpr ⟨x,hx,rfl⟩))
  · intro hno s hs
    obtain ⟨x,hx,rfl⟩ := (mem_groups gs s).mp hs
    obtain ⟨g,hg,hsub⟩ := hm.within x hx
    have hne : g ≠ ∅ := by
      rintro rfl
      exact hno hg
    exact (Finset.nonempty_iff_ne_empty.mpr hne).mono hsub

theorem groups_disjoint {s t : Finset D} (hs : s ∈ groups gs) (ht : t ∈ groups gs) (a : D)
    (has : a ∈ s) (hat : a ∈ t) : s = t := by
  have hm := merge_all_merged gs [] Heap.start start_merged
  obtain ⟨x,hx,rfl⟩ := (mem_groups gs s).mp hs
  obtain ⟨y,hy,rfl⟩ := (mem_groups gs t).mp ht
  rw [one_place hm hx hy has hat]

theorem groups_chain (a b : D) :
    (∃ s ∈ groups gs, a ∈ s ∧ b ∈ s) ↔ Relation.TransGen (Together gs) a b := by
  have hm := merge_all_merged gs [] Heap.start start_merged
  rw [List.nil_append] at hm
  rw [← joined_iff hm a b]
  constructor
  · rintro ⟨s,hs,hab⟩
    obtain ⟨x,hx,rfl⟩ := (mem_groups gs s).mp hs
    exact ⟨x,hx,hab⟩
  · rintro ⟨x,hx,hab⟩
    exact ⟨x.2,(mem_groups gs x.2).mpr ⟨x,hx,rfl⟩,hab⟩

end Groups

end Merging
