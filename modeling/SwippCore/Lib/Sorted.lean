import Mathlib.Order.Lattice
import Mathlib.Data.List.Basic

/-!
# Sorted sets and maps

Sets and maps as lists in ascending order.
-/

set_option autoImplicit false

/-! ## Sets in ascending order -/

namespace SortedSet

section Insertion
variable {α : Type} [LinearOrder α]

def insertSorted (a : α) : List α → List α
  | [] => [a]
  | b::bs => if a < b then a::b::bs else if b < a then b::insertSorted a bs else b::bs

theorem mem_insert_sorted (a c : α) (bs : List α) :
    c ∈ insertSorted a bs ↔ c = a ∨ c ∈ bs := by
  induction bs with
  | nil => simp [insertSorted]
  | cons b bs ih =>
    unfold insertSorted
    split
    · exact List.mem_cons
    · split
      · rw [List.mem_cons, ih, List.mem_cons]
        exact or_left_comm
      · rename_i hab hba
        have heq : a = b := le_antisymm (not_lt.mp hba) (not_lt.mp hab)
        rw [heq, List.mem_cons]
        exact (or_self_left).symm

theorem insert_sorted_ordered (a : α) {bs : List α} (h : bs.Pairwise (· < ·)) :
    (insertSorted a bs).Pairwise (· < ·) := by
  induction bs with
  | nil => exact List.pairwise_singleton _ a
  | cons b bs ih =>
    have hb := List.pairwise_cons.mp h
    unfold insertSorted
    split
    · rename_i hab
      refine List.pairwise_cons.mpr ⟨?_,h⟩
      intro c hc
      rcases List.mem_cons.mp hc with rfl | hc
      · exact hab
      · exact lt_trans hab (hb.1 c hc)
    · split
      · rename_i hba
        refine List.pairwise_cons.mpr ⟨?_,ih hb.2⟩
        intro c hc
        rcases (mem_insert_sorted a c bs).mp hc with rfl | hc
        · exact hba
        · exact hb.1 c hc
      · exact h

end Insertion

end SortedSet

structure SortedSet (α : Type) [LinearOrder α] where
  items : List α
  ordered : items.Pairwise (· < ·)

namespace SortedSet
variable {α : Type} [LinearOrder α]

def empty : SortedSet α := ⟨[],List.Pairwise.nil⟩

instance : Membership α (SortedSet α) := ⟨fun s a => a ∈ s.items⟩

instance (a : α) (s : SortedSet α) : Decidable (a ∈ s) := inferInstanceAs (Decidable (a ∈ s.items))

def insert (a : α) (s : SortedSet α) : SortedSet α :=
  ⟨insertSorted a s.items,insert_sorted_ordered a s.ordered⟩

def first (s : SortedSet α) : Option α := s.items.head?
def last (s : SortedSet α) : Option α := s.items.getLast?

def rest (s : SortedSet α) : SortedSet α := ⟨s.items.tail,s.ordered.tail⟩

def erase (a : α) (s : SortedSet α) : SortedSet α :=
  ⟨s.items.filter fun c => c ≠ a,s.ordered.sublist List.filter_sublist⟩

def isEmpty (s : SortedSet α) : Bool := s.items.isEmpty

theorem not_mem_empty (a : α) : a ∉ (empty : SortedSet α) := List.not_mem_nil

theorem mem_erase (a c : α) (s : SortedSet α) : c ∈ s.erase a ↔ c ∈ s ∧ c ≠ a := by
  show c ∈ s.items.filter (fun c => c ≠ a) ↔ c ∈ s.items ∧ c ≠ a
  rw [List.mem_filter, decide_eq_true_iff]

theorem is_empty_iff (s : SortedSet α) : s.isEmpty = true ↔ ∀ a, a ∉ s := by
  rw [isEmpty, List.isEmpty_iff, List.eq_nil_iff_forall_not_mem]
  exact Iff.rfl

theorem mem_insert (a c : α) (s : SortedSet α) : c ∈ s.insert a ↔ c = a ∨ c ∈ s :=
  mem_insert_sorted a c s.items

theorem first_none (s : SortedSet α) (h : s.first = none) (a : α) : a ∉ s := by
  intro ha
  have hnil := List.head?_eq_none_iff.mp h
  change a ∈ s.items at ha
  rw [hnil] at ha
  cases ha

variable {s : SortedSet α}

theorem first_mem {a : α} (h : s.first = some a) : a ∈ s :=
  List.mem_of_head? h

theorem mem_of_rest (s : SortedSet α) (a : α) (h : a ∈ s.rest) : a ∈ s := List.mem_of_mem_tail h

theorem first_not_rest {a : α} (h : s.first = some a) : a ∉ s.rest := by
  intro ha
  obtain ⟨items,hord⟩ := s
  cases items with
  | nil => cases h
  | cons b bs =>
    cases h
    exact lt_irrefl a ((List.pairwise_cons.mp hord).1 a ha)

theorem last_none (h : s.last = none) (a : α) : a ∉ s := by
  intro ha
  have hnil := List.getLast?_eq_none_iff.mp h
  change a ∈ s.items at ha
  rw [hnil] at ha
  cases ha

theorem last_mem {a : α} (h : s.last = some a) : a ∈ s :=
  List.mem_of_getLast? h

theorem le_last {m : α} (h : s.last = some m) {b : α} (hb : b ∈ s) : b ≤ m := by
  obtain ⟨items,hord⟩ := s
  have hne : items ≠ [] := List.ne_nil_of_mem hb
  have hlast : items.getLast hne = m :=
    Option.some.inj ((List.getLast?_eq_some_getLast hne).symm.trans h)
  change b ∈ items at hb
  rw [← List.dropLast_append_getLast hne, hlast] at hb hord
  rcases List.mem_append.mp hb with hb | hb
  · exact le_of_lt ((List.pairwise_append.mp hord).2.2 b hb m List.mem_cons_self)
  · exact le_of_eq (List.mem_singleton.mp hb)

theorem last_insert {a : α} (h : ∀ b ∈ s, b < a) : (s.insert a).last = some a := by
  cases hl : (s.insert a).last with
  | none => exact absurd ((mem_insert a a s).mpr (Or.inl rfl)) (last_none hl a)
  | some m =>
    have hle := le_last hl ((mem_insert a a s).mpr (Or.inl rfl))
    rcases (mem_insert a m s).mp (last_mem hl) with rfl | hm
    · rfl
    · exact absurd (h m hm) (not_lt.mpr hle)

end SortedSet

/-! ## Maps in the order of their keys -/

namespace SortedMap

section Entries
variable {κ ν : Type} [LinearOrder κ]

def insertEntry (k : κ) (v : ν) : List (κ × ν) → List (κ × ν)
  | [] => [(k,v)]
  | e::es =>
    if k < e.1 then (k,v)::e::es else if e.1 < k then e::insertEntry k v es else (k,v)::es

theorem mem_insert_entry {k : κ} {v : ν} {x : κ × ν} {es : List (κ × ν)}
    (h : x ∈ insertEntry k v es) : x = (k,v) ∨ x ∈ es := by
  induction es with
  | nil => exact Or.inl (List.mem_singleton.mp h)
  | cons e es ih =>
    unfold insertEntry at h
    split at h
    · exact List.mem_cons.mp h
    · split at h
      · rcases List.mem_cons.mp h with rfl | hx
        · exact Or.inr List.mem_cons_self
        · exact (ih hx).imp id (List.mem_cons_of_mem e)
      · exact (List.mem_cons.mp h).imp id (List.mem_cons_of_mem e)

theorem insert_entry_ordered (k : κ) (v : ν) {es : List (κ × ν)}
    (h : es.Pairwise fun a b => a.1 < b.1) : (insertEntry k v es).Pairwise fun a b => a.1 < b.1 := by
  induction es with
  | nil => exact List.pairwise_singleton _ _
  | cons e es ih =>
    obtain ⟨he,hes⟩ := List.pairwise_cons.mp h
    unfold insertEntry
    split
    · next hk =>
      apply List.pairwise_cons.mpr ⟨_,h⟩
      intro x hx
      rcases List.mem_cons.mp hx with rfl | hx
      · exact hk
      · exact lt_trans hk (he x hx)
    · split
      · next hk =>
        apply List.pairwise_cons.mpr ⟨_,ih hes⟩
        intro x hx
        rcases mem_insert_entry hx with rfl | hx
        · exact hk
        · exact he x hx
      · next hle hge =>
        have hkey : k = e.1 := le_antisymm (not_lt.mp hge) (not_lt.mp hle)
        apply List.pairwise_cons.mpr ⟨_,hes⟩
        intro x hx
        rw [hkey]
        exact he x hx

theorem lookup_cons_if (e : κ × ν) (es : List (κ × ν)) (j : κ) :
    (e::es).lookup j = if j = e.1 then some e.2 else es.lookup j := by
  rw [List.lookup_cons]
  by_cases hj : j = e.1
  · rw [if_pos hj, beq_iff_eq.mpr hj]
  · rw [if_neg hj, beq_eq_false_iff_ne.mpr hj]

theorem lookup_insert_entry (k : κ) (v : ν) (es : List (κ × ν)) (j : κ) :
    (insertEntry k v es).lookup j = if j = k then some v else es.lookup j := by
  induction es with
  | nil => exact lookup_cons_if (k,v) [] j
  | cons e es ih =>
    unfold insertEntry
    split
    · exact lookup_cons_if (k,v) (e::es) j
    · split
      · next hk =>
        rw [lookup_cons_if, lookup_cons_if, ih]
        by_cases hj : j = k
        · rw [if_pos hj, if_pos hj, if_neg (by rw [hj]; exact ne_of_gt hk)]
        · rw [if_neg hj, if_neg hj]
      · next hle hge =>
        have hkey : k = e.1 := le_antisymm (not_lt.mp hge) (not_lt.mp hle)
        rw [lookup_cons_if, lookup_cons_if, ← hkey]
        by_cases hj : j = k
        · rw [if_pos hj, if_pos hj]
        · rw [if_neg hj, if_neg hj, if_neg hj]

end Entries

end SortedMap

structure SortedMap (κ ν : Type) [LinearOrder κ] where
  entries : List (κ × ν)
  ordered : entries.Pairwise fun a b => a.1 < b.1
  deriving DecidableEq

namespace SortedMap
variable {κ ν : Type} [LinearOrder κ]

def empty : SortedMap κ ν := ⟨[],List.Pairwise.nil⟩

def find (m : SortedMap κ ν) (k : κ) : Option ν := m.entries.lookup k

def contains (m : SortedMap κ ν) (k : κ) : Bool := (m.find k).isSome

def insert (k : κ) (v : ν) (m : SortedMap κ ν) : SortedMap κ ν :=
  ⟨insertEntry k v m.entries,insert_entry_ordered k v m.ordered⟩

def offer (m : SortedMap κ ν) (e : κ × ν) : SortedMap κ ν :=
  if m.contains e.1 then m else m.insert e.1 e.2

def erase (k : κ) (m : SortedMap κ ν) : SortedMap κ ν :=
  ⟨m.entries.filter fun e => e.1 ≠ k,m.ordered.sublist List.filter_sublist⟩

@[simp] theorem find_empty (k : κ) : (empty : SortedMap κ ν).find k = none := rfl

@[simp] theorem find_insert (k : κ) (v : ν) (m : SortedMap κ ν) (j : κ) [Decidable (j = k)] :
    (m.insert k v).find j = if j = k then some v else m.find j := by
  show (insertEntry k v m.entries).lookup j = if j = k then some v else m.entries.lookup j
  rw [lookup_insert_entry]
  split_ifs <;> rfl

@[simp] theorem find_erase (k : κ) (m : SortedMap κ ν) (j : κ) [Decidable (j = k)] :
    (m.erase k).find j = if j = k then none else m.find j := by
  show (m.entries.filter fun e => e.1 ≠ k).lookup j = if j = k then none else m.entries.lookup j
  induction m.entries with
  | nil =>
    by_cases hj : j = k
    · rw [if_pos hj]
      rfl
    · rw [if_neg hj]
      rfl
  | cons e es ih =>
    by_cases he : e.1 = k
    · rw [List.filter_cons_of_neg (by simp [he]), ih, lookup_cons_if]
      by_cases hj : j = k
      · rw [if_pos hj, if_pos hj]
      · rw [if_neg hj, if_neg hj, if_neg (by rw [he]; exact hj)]
    · rw [List.filter_cons_of_pos (by simp [he]), lookup_cons_if, lookup_cons_if, ih]
      by_cases hj : j = k
      · rw [if_pos hj, if_pos hj, if_neg (by rw [hj]; exact fun h => he h.symm)]
      · rw [if_neg hj, if_neg hj]

variable (m : SortedMap κ ν)

theorem find_erase_others {ks : List κ} {j : κ} (h : j ∉ ks) :
    (ks.foldl (fun m k => m.erase k) m).find j = m.find j := by
  induction ks generalizing m with
  | nil => rfl
  | cons k ks ih =>
    rw [List.mem_cons, not_or] at h
    rw [List.foldl_cons, ih _ h.2, find_erase, if_neg h.1]

theorem find_erase_all {ks : List κ} {j : κ} (h : j ∈ ks) :
    (ks.foldl (fun m k => m.erase k) m).find j = none := by
  induction ks generalizing m with
  | nil => cases h
  | cons k ks ih =>
    rw [List.foldl_cons]
    by_cases hj : j ∈ ks
    · exact ih _ hj
    · rw [find_erase_others _ hj, find_erase, if_pos]
      exact (List.mem_cons.mp h).resolve_right hj

theorem find_offer (e : κ × ν) (j : κ) :
    (m.offer e).find j = (m.find j).or (if j = e.1 then some e.2 else none) := by
  unfold offer contains
  by_cases hj : j = e.1
  · rw [if_pos hj, hj]
    cases hfind : m.find e.1 with
    | none => simp
    | some v => simp [hfind]
  · rw [if_neg hj, Option.or_none]
    split
    · rfl
    · rw [find_insert, if_neg hj]

theorem mem_entries (k : κ) (v : ν) : (k,v) ∈ m.entries ↔ m.find k = some v := by
  obtain ⟨es,hord⟩ := m
  show (k,v) ∈ es ↔ es.lookup k = some v
  induction es with
  | nil => simp
  | cons e es ih =>
    obtain ⟨he,hes⟩ := List.pairwise_cons.mp hord
    rw [List.mem_cons, ih hes, lookup_cons_if]
    by_cases hk : k = e.1
    · have hnone : es.lookup k ≠ some v := by
        intro h
        have hlt := he (k,v) ((ih hes).mpr h)
        exact absurd hk (ne_of_gt hlt)
      rw [if_pos hk]
      constructor
      · rintro (rfl | h)
        · rfl
        · exact absurd h hnone
      · intro h
        left
        exact Prod.ext hk (Option.some.inj h).symm
    · rw [if_neg hk]
      constructor
      · rintro (rfl | h)
        · exact absurd rfl hk
        · exact h
      · exact Or.inr

theorem ext_find (m' : SortedMap κ ν) (h : ∀ k, m.find k = m'.find k) : m = m' := by
  have hnodup : ∀ a : SortedMap κ ν, a.entries.Nodup :=
    fun a => a.ordered.imp fun hlt heq => absurd hlt (by rw [heq]; exact lt_irrefl _)
  have hperm : m.entries.Perm m'.entries := by
    rw [List.perm_ext_iff_of_nodup (hnodup m) (hnodup m')]
    intro e
    rw [mem_entries m e.1 e.2, mem_entries m' e.1 e.2, h e.1]
  have hentries := hperm.eq_of_pairwise
    (fun a b _ _ hab hba => absurd (lt_trans hab hba) (lt_irrefl _)) m.ordered m'.ordered
  cases m
  cases m'
  dsimp only at hentries
  subst hentries
  rfl

theorem offer_entries : m.entries.foldl offer empty = m := by
  have hfind : ∀ (es : List (κ × ν)) (m' : SortedMap κ ν) (k : κ),
      (es.foldl offer m').find k = (m'.find k).or (es.lookup k) := by
    intro es
    induction es with
    | nil =>
      intro m' k
      exact (Option.or_none).symm
    | cons e es ih =>
      intro m' k
      rw [List.foldl_cons, ih, find_offer, lookup_cons_if, Option.or_assoc]
      congr 1
      by_cases hk : k = e.1
      · rw [if_pos hk, if_pos hk]
        rfl
      · rw [if_neg hk, if_neg hk]
        rfl
  apply ext_find
  intro k
  rw [hfind, find_empty]
  rfl

theorem erase_insert (k : κ) (v : ν) (m : SortedMap κ ν) (h : m.find k = none) :
    (m.insert k v).erase k = m := by
  apply ext_find
  intro j
  rw [find_erase, find_insert]
  by_cases hj : j = k
  · rw [if_pos hj, hj, h]
  · rw [if_neg hj, if_neg hj]

theorem length_erase {k : κ} {v : ν} {m : SortedMap κ ν} (h : m.find k = some v) :
    (m.erase k).entries.length+1 = m.entries.length := by
  obtain ⟨es,hord⟩ := m
  change es.lookup k = some v at h
  change (es.filter fun e => e.1 ≠ k).length+1 = es.length
  induction es with
  | nil => cases h
  | cons e es ih =>
    obtain ⟨hfirst,hrest⟩ := List.pairwise_cons.mp hord
    rw [lookup_cons_if] at h
    by_cases hk : k = e.1
    · have hothers : es.filter (fun e => e.1 ≠ k) = es := by
        rw [List.filter_eq_self]
        intro x hx
        rw [decide_eq_true_iff, hk]
        exact fun he => lt_irrefl _ (he ▸ hfirst x hx)
      rw [List.filter_cons_of_neg (by simp [hk]), hothers, List.length_cons]
    · rw [if_neg hk] at h
      rw [List.filter_cons_of_pos (by simpa using fun he => hk he.symm), List.length_cons,
        ih hrest h, List.length_cons]

theorem erase_absent {k : κ} {m : SortedMap κ ν} (h : m.find k = none) : m.erase k = m := by
  apply ext_find
  intro j
  rw [find_erase]
  by_cases hj : j = k
  · rw [if_pos hj, hj, h]
  · rw [if_neg hj]

end SortedMap
