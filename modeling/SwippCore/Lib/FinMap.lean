import Mathlib.Data.List.AList
import Mathlib.Data.List.Sort

/-!
# Finite maps

An ordered standard map is a finite list of entries with distinct keys. The
carrier is the association list of Mathlib; the two lemmas below turn every
lookup after an update into a case split on the key.
-/

set_option autoImplicit false

namespace FinMap

abbrev Dict (K V : Type) [DecidableEq K] := AList (fun _ : K => V)

variable {K V : Type} [DecidableEq K]

variable (m : Dict K V)

theorem lookup_insert_if (k j : K) (v : V) :
    (m.insert k v).lookup j = if j = k then some v else m.lookup j := by
  by_cases h : j = k
  · subst h
    rw [AList.lookup_insert, if_pos rfl]
  · rw [AList.lookup_insert_ne h, if_neg h]

theorem lookup_erase_if (k j : K) : (m.erase k).lookup j = if j = k then none else m.lookup j := by
  by_cases h : j = k
  · subst h
    rw [AList.lookup_erase, if_pos rfl]
  · rw [AList.lookup_erase_ne h, if_neg h]

theorem mem_iff_lookup (k : K) : k ∈ m ↔ ∃ v, m.lookup k = some v := by
  rw [← AList.lookup_isSome, Option.isSome_iff_exists]

theorem mem_entries (k : K) (v : V) :
    (⟨k,v⟩ : Sigma fun _ : K => V) ∈ m.entries ↔ m.lookup k = some v :=
  AList.mem_lookup_iff.symm

theorem find_entry (k : K) :
    (m.entries.find? fun x => x.1 = k) = (m.lookup k).map fun v => ⟨k,v⟩ := by
  cases hf : m.entries.find? (fun x => x.1 = k) with
  | none =>
    rw [List.find?_eq_none] at hf
    cases hk : m.lookup k with
    | none => rfl
    | some v => exact absurd (decide_eq_true rfl) (hf ⟨k,v⟩ ((mem_entries m k v).mpr hk))
  | some x =>
    have hkey : x.1 = k := by simpa using List.find?_some hf
    have hlook := (mem_entries m x.1 x.2).mp (List.mem_of_find?_eq_some hf)
    subst hkey
    rw [hlook]
    rfl

/-- `insert` of the standard library: an existing entry is kept. -/
def insertNew (m : Dict K V) (k : K) (v : V) : Dict K V :=
  if k ∈ m then m else m.insert k v

theorem lookup_insert_new (k j : K) (v : V) :
    (insertNew m k v).lookup j =
      if j = k ∧ m.lookup k = none then some v else m.lookup j := by
  unfold insertNew
  split_ifs with hm hj hj
  · exact absurd hm (AList.lookup_eq_none.mp hj.2)
  · rfl
  · rw [lookup_insert_if, if_pos hj.1]
  · have hn : m.lookup k = none := AList.lookup_eq_none.mpr hm
    rw [lookup_insert_if, if_neg (fun h => hj ⟨h,hn⟩)]

/-- `operator[]` of the standard library: a missing entry is created with the
default value. -/
def getDefault (m : Dict K V) (k : K) (d : V) : V × Dict K V :=
  match m.lookup k with
  | some v => (v,m)
  | none => (d,m.insert k d)

def eraseAll (m : Dict K V) : List K → Dict K V
  | [] => m
  | k::ks => eraseAll (m.erase k) ks

theorem lookup_erase_all (ks : List K) (j : K) :
    (eraseAll m ks).lookup j = if j ∈ ks then none else m.lookup j := by
  induction ks generalizing m with
  | nil => simp [eraseAll]
  | cons k ks ih =>
    rw [eraseAll, ih, lookup_erase_if]
    by_cases hj : j ∈ ks <;> by_cases hk : j = k <;> simp [hj,hk]

def mapValues {W : Type} (f : V → W) (m : Dict K V) : Dict K W :=
  ⟨m.entries.map (Sigma.map id fun _ => f),m.nodupKeys.map₂ fun _ => f⟩

theorem lookup_map_values {W : Type} (f : V → W) (m : Dict K V) (k : K) :
    (mapValues f m).lookup k = (m.lookup k).map f :=
  List.dlookup_map₂ k

theorem keys_map_values {W : Type} (f : V → W) (m : Dict K V) : (mapValues f m).keys = m.keys :=
  List.map₂_keys (fun _ => f) m.entries

def inOrder (le : K → K → Bool) (m : Dict K V) : List (Sigma fun _ : K => V) :=
  m.entries.insertionSort fun a b => le a.1 b.1 = true

theorem mem_in_order (le : K → K → Bool) (m : Dict K V) (k : K) (v : V) :
    ⟨k,v⟩ ∈ inOrder le m ↔ m.lookup k = some v := by
  rw [inOrder, List.mem_insertionSort]
  exact AList.mem_lookup_iff.symm

structure Ordered (le : K → K → Bool) : Prop where
  trans : ∀ a b c, le a b = true → le b c = true → le a c = true
  total : ∀ a b, (le a b || le b a) = true
  antisymm : ∀ a b, le a b = true → le b a = true → a = b

theorem sorted_in_order {le : K → K → Bool} (h : Ordered le) :
    (inOrder le m).Pairwise (fun a b => le a.1 b.1 = true) := by
  have htrans : IsTrans (Sigma fun _ : K => V) (fun a b => le a.1 b.1 = true) :=
    ⟨fun a b c => h.trans a.1 b.1 c.1⟩
  have htotal : Std.Total (fun a b : Sigma fun _ : K => V => le a.1 b.1 = true) :=
    ⟨fun a b => by simpa using h.total a.1 b.1⟩
  exact List.pairwise_insertionSort _ _

theorem in_order_perm (le : K → K → Bool) (m : Dict K V) : (inOrder le m).Perm m.entries :=
  List.perm_insertionSort _ _

theorem in_order_keys {le : K → K → Bool} (h : Ordered le) {m m' : Dict K V}
    (hk : ∀ k, (m.lookup k).isSome = (m'.lookup k).isSome) :
    (inOrder le m).map Sigma.fst = (inOrder le m').map Sigma.fst := by
  have hnodup : ∀ x : Dict K V, ((inOrder le x).map Sigma.fst).Nodup := fun x =>
    ((in_order_perm le x).map Sigma.fst).nodup_iff.mpr x.nodupKeys
  have hsorted : ∀ x : Dict K V, ((inOrder le x).map Sigma.fst).Pairwise (fun a b => le a b = true) :=
    fun x => List.pairwise_map.mpr (sorted_in_order x h)
  have hmem : ∀ (x : Dict K V) k, k ∈ (inOrder le x).map Sigma.fst ↔ (x.lookup k).isSome = true := by
    intro x k
    rw [Option.isSome_iff_exists, List.mem_map]
    constructor
    · rintro ⟨y,hy,rfl⟩
      exact ⟨y.2,(mem_in_order le x y.1 y.2).mp hy⟩
    · rintro ⟨v,hv⟩
      exact ⟨⟨k,v⟩,(mem_in_order le x k v).mpr hv,rfl⟩
  have hperm : ((inOrder le m).map Sigma.fst).Perm ((inOrder le m').map Sigma.fst) :=
    (List.perm_ext_iff_of_nodup (hnodup m) (hnodup m')).mpr fun k => by rw [hmem, hmem, hk]
  exact hperm.eq_of_pairwise (fun a b _ _ => h.antisymm a b) (hsorted m) (hsorted m')

/-- `*begin()` -/
def first (le : K → K → Bool) (m : Dict K V) : Option (Sigma fun _ : K => V) :=
  (inOrder le m).head?

section First
variable (le : K → K → Bool) (m : Dict K V)

theorem first_none (hf : first le m = none) (k : K) : m.lookup k = none := by
  have hnil : inOrder le m = [] := List.head?_eq_none_iff.mp hf
  cases hk : m.lookup k with
  | none => rfl
  | some v =>
    have hmem := (mem_in_order le m k v).mpr hk
    rw [hnil] at hmem
    cases hmem

theorem first_some (h : Ordered le) (k : K) (v : V) (hf : first le m = some ⟨k,v⟩) :
    m.lookup k = some v ∧ ∀ j w, m.lookup j = some w → le k j = true := by
  obtain ⟨rest,hrest⟩ : ∃ rest, inOrder le m = ⟨k,v⟩::rest := by
    unfold first at hf
    cases hl : inOrder le m with
    | nil => simp [hl] at hf
    | cons x rest =>
      rw [hl] at hf
      exact ⟨rest,by rw [Option.some.inj hf]⟩
  have hsorted := sorted_in_order m h
  rw [hrest, List.pairwise_cons] at hsorted
  refine ⟨(mem_in_order le m k v).mp (by rw [hrest]; exact List.mem_cons_self),?_⟩
  intro j w hj
  have hmem := (mem_in_order le m j w).mpr hj
  rw [hrest] at hmem
  rcases List.mem_cons.mp hmem with heq | hmem
  · have hjk : j = k := congrArg Sigma.fst heq
    have htot := h.total k k
    rw [Bool.or_self] at htot
    rw [hjk]
    exact htot
  · exact hsorted.1 _ hmem

theorem first_insert (h : Ordered le) {k j : K} {v w : V}
    (hf : first le (m.insert k v) = some ⟨j,w⟩) :
    (j = k ∧ w = v) ∨ (j ≠ k ∧ first le m = some ⟨j,w⟩) := by
  obtain ⟨hlook,hleast⟩ := first_some le _ h j w hf
  rw [lookup_insert_if] at hlook
  by_cases hjk : j = k
  · rw [if_pos hjk] at hlook
    exact Or.inl ⟨hjk,(Option.some.inj hlook).symm⟩
  · rw [if_neg hjk] at hlook
    refine Or.inr ⟨hjk,?_⟩
    cases hm : first le m with
    | none => exact absurd ((first_none le m hm j).symm.trans hlook) (by simp)
    | some x =>
      obtain ⟨i,u⟩ := x
      obtain ⟨hi,hileast⟩ := first_some le m h i u hm
      have hij := hileast j w hlook
      have hji : le j i = true := by
        by_cases hik : i = k
        · exact hleast i v (by rw [lookup_insert_if, if_pos hik])
        · exact hleast i u (by rw [lookup_insert_if, if_neg hik]; exact hi)
      have heq := h.antisymm i j hij hji
      subst heq
      rw [hlook] at hi
      rw [Option.some.inj hi]

theorem first_insert_behind (h : Ordered le) {k : K} (v : V) {x : Sigma fun _ : K => V}
    (hf : first le m = some x) (hlt : le k x.1 = false) : first le (m.insert k v) = some x := by
  cases hfi : first le (m.insert k v) with
  | none => exact absurd ((first_none le _ hfi k).symm.trans (AList.lookup_insert m)) (by simp)
  | some y =>
    obtain ⟨j,w⟩ := y
    rcases first_insert le m h hfi with ⟨rfl,_⟩ | ⟨_,hm⟩
    · obtain ⟨hx,_⟩ := first_some le m h x.1 x.2 hf
      obtain ⟨_,hleast⟩ := first_some le _ h j w hfi
      have hne : x.1 ≠ j := by
        intro heq
        have hrefl := h.total j j
        rw [heq] at hlt
        simp [hlt] at hrefl
      have hle := hleast x.1 x.2 (by rw [lookup_insert_if, if_neg hne]; exact hx)
      rw [hlt] at hle
      cases hle
    · rw [← hm, hf]

end First

end FinMap
