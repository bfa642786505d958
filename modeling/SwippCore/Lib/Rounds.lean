import Mathlib.Data.Int.Notation
import Mathlib.Data.List.Nodup
import Mathlib.Data.List.Perm.Subperm

/-!
# Choices

Elements that are drawn to the front of a list, and choices in rounds.
-/

set_option autoImplicit false

/-! ## Drawing elements to the front of a list -/

namespace Drawing

variable {α : Type} (pos : ℕ → ℕ) (rank : α → ℤ)

def exchange (i j : ℕ) (xs : List α) : List α :=
  match xs[j]?, xs[i]? with
  | some y, some x => (xs.set j x).set i y
  | _, _ => xs

def shuffled : ℕ → ℕ → List α → List α
  | 0, _, xs => xs
  | k+1, i, xs => shuffled k (i+1) (exchange i (pos i) xs)

def drawn : ℕ → ℕ → List α → List α
  | 0, _, _ => []
  | k+1, i, xs => xs[pos i]?.toList++drawn k (i+1) (exchange i (pos i) xs)

def keep : ℕ → Option (α × ℕ) → List α → Option (α × ℕ)
  | _, best, [] => best
  | i, none, x::xs => keep (i+1) (some (x,pos i)) xs
  | i, some b, x::xs => keep (i+1) (some (if rank x < rank b.1 then (x,pos i) else b)) xs

def FirstLeast (xs : List α) (b : ℕ) (x : α) : Prop :=
  xs[b]? = some x ∧ (∀ y ∈ xs, rank x ≤ rank y) ∧
    ∀ c < b, ∀ y, xs[c]? = some y → rank x < rank y

theorem exchange_perm (i j : ℕ) (xs : List α) : (exchange i j xs).Perm xs := by
  unfold exchange
  split
  · rename_i y x hj hi
    obtain ⟨hjl,rfl⟩ := List.getElem?_eq_some_iff.mp hj
    obtain ⟨hil,rfl⟩ := List.getElem?_eq_some_iff.mp hi
    exact List.set_set_perm hjl hil
  · exact List.Perm.refl xs

theorem exchange_length (i j : ℕ) (xs : List α) : (exchange i j xs).length = xs.length :=
  (exchange_perm i j xs).length_eq

theorem exchange_front (i j : ℕ) {xs : List α} (hi : i < xs.length) (hj : j < xs.length) :
    (exchange i j xs)[i]? = xs[j]? := by
  unfold exchange
  rw [List.getElem?_eq_getElem hi, List.getElem?_eq_getElem hj]
  simp [hi]

theorem exchange_below {i j p : ℕ} (xs : List α) (hi : p < i) (hj : p < j) :
    (exchange i j xs)[p]? = xs[p]? := by
  unfold exchange
  split
  · rw [List.getElem?_set_ne (by omega), List.getElem?_set_ne (by omega)]
  · rfl

theorem shuffled_perm (k i : ℕ) (xs : List α) : (shuffled pos k i xs).Perm xs := by
  induction k generalizing i xs with
  | zero => exact List.Perm.refl xs
  | succ k ih => exact (ih (i+1) _).trans (exchange_perm i (pos i) xs)

section Places
variable {pos} (hpos : ∀ i, i ≤ pos i)
include hpos

theorem shuffled_below (k i p : ℕ) (xs : List α) (hp : p < i) :
    (shuffled pos k i xs)[p]? = xs[p]? := by
  induction k generalizing i xs with
  | zero => rfl
  | succ k ih =>
    rw [shuffled, ih (i+1) _ (by omega)]
    exact exchange_below xs hp (Nat.lt_of_lt_of_le hp (hpos i))

theorem drawn_front {k : ℕ} (i : ℕ) (xs : List α) (hlen : ∀ j, i ≤ j → j < i+k → pos j < xs.length) :
    ∀ j < k, (shuffled pos k i xs)[i+j]? = (drawn pos k i xs)[j]? := by
  induction k generalizing i xs with
  | zero => exact fun j hj => absurd hj (Nat.not_lt_zero j)
  | succ k ih =>
    intro j hj
    have hlt := hlen i (Nat.le_refl i) (by omega)
    have hi := hpos i
    have hsome : xs[pos i]?.toList = [xs[pos i]] := by rw [List.getElem?_eq_getElem hlt]; rfl
    rw [shuffled, drawn, hsome]
    cases j with
    | zero =>
      change (shuffled pos k (i+1) (exchange i (pos i) xs))[i]? = some xs[pos i]
      rw [shuffled_below hpos k (i+1) i _ (Nat.lt_succ_self i),
        exchange_front i (pos i) (by omega) hlt, List.getElem?_eq_getElem hlt]
    | succ j =>
      have hnext := ih (i+1) (exchange i (pos i) xs)
        (fun j hj hjk => by rw [exchange_length]; exact hlen j (by omega) (by omega)) j (by omega)
      rw [show i+(j+1) = i+1+j by omega, hnext]
      rfl

end Places

theorem drawn_length (k i : ℕ) (xs : List α) (hlen : ∀ j, i ≤ j → j < i+k → pos j < xs.length) :
    (drawn pos k i xs).length = k := by
  induction k generalizing i xs with
  | zero => rfl
  | succ k ih =>
    have hlt := hlen i (Nat.le_refl i) (by omega)
    rw [drawn, List.length_append, ih (i+1) _ (fun j hj hjk => by
      rw [exchange_length]; exact hlen j (by omega) (by omega)), List.getElem?_eq_getElem hlt]
    simp [Nat.add_comm]

section Unique
variable {rank}

variable {xs : List α}

theorem first_least_unique {b c : ℕ} {x y : α} (h : FirstLeast rank xs b x)
    (h' : FirstLeast rank xs c y) : b = c ∧ x = y := by
  have hle := h.2.1 y (List.mem_of_getElem? h'.1)
  have hge := h'.2.1 x (List.mem_of_getElem? h.1)
  have hbc : b = c := by
    by_contra hne
    rcases Nat.lt_or_gt_of_ne hne with hlt | hlt
    · have := h'.2.2 b hlt x h.1
      omega
    · have := h.2.2 c hlt y h'.1
      omega
  subst hbc
  exact ⟨rfl,Option.some.inj (h.1.symm.trans h'.1)⟩

theorem first_least_cons {x y : α} {b : ℕ} (h : FirstLeast rank xs b y) (hlt : rank y < rank x) :
    FirstLeast rank (x::xs) (b+1) y := by
  refine ⟨h.1,?_,?_⟩
  · intro z hz
    rcases List.mem_cons.mp hz with rfl | hz
    · exact Int.le_of_lt hlt
    · exact h.2.1 z hz
  · intro c hc z hz
    cases c with
    | zero => exact Option.some.inj hz ▸ hlt
    | succ c => exact h.2.2 c (by omega) z hz

theorem first_least_head {x : α} (h : ∀ y ∈ xs, rank x ≤ rank y) : FirstLeast rank (x::xs) 0 x := by
  refine ⟨rfl,?_,fun c hc => absurd hc (Nat.not_lt_zero c)⟩
  intro y hy
  rcases List.mem_cons.mp hy with rfl | hy
  · exact Int.le_refl _
  · exact h y hy

end Unique

/-- Behind an element that is already kept: it stays, or the first least one replaces it. -/
theorem keep_some (xs : List α) (i : ℕ) (o : α × ℕ) :
    (keep pos rank i (some o) xs = some o ∧ ∀ y ∈ xs, rank o.1 ≤ rank y) ∨
    ∃ b x, FirstLeast rank xs b x ∧ rank x < rank o.1 ∧
      keep pos rank i (some o) xs = some (x,pos (i+b)) := by
  induction xs generalizing i o with
  | nil => exact Or.inl ⟨rfl,by simp⟩
  | cons x xs ih =>
    rw [keep]
    split_ifs with hlt
    · right
      rcases ih (i+1) (x,pos i) with ⟨hk,hall⟩ | ⟨b,y,hb,hy,hk⟩
      · exact ⟨0,x,first_least_head hall,hlt,hk⟩
      · refine ⟨b+1,y,first_least_cons hb hy,Int.lt_trans hy hlt,?_⟩
        rw [hk, show i+1+b = i+(b+1) by omega]
    · rcases ih (i+1) o with ⟨hk,hall⟩ | ⟨b,y,hb,hy,hk⟩
      · left
        refine ⟨hk,?_⟩
        intro y hy
        rcases List.mem_cons.mp hy with rfl | hy
        · omega
        · exact hall y hy
      · right
        refine ⟨b+1,y,first_least_cons hb (by omega),hy,?_⟩
        rw [hk, show i+1+b = i+(b+1) by omega]

theorem keep_none {xs : List α} (hne : xs ≠ []) :
    ∃ b x, FirstLeast rank xs b x ∧ keep pos rank 0 none xs = some (x,pos b) := by
  cases xs with
  | nil => exact absurd rfl hne
  | cons x xs =>
    rw [keep]
    rcases keep_some pos rank xs 1 (x,pos 0) with ⟨hk,hall⟩ | ⟨b,y,hb,hy,hk⟩
    · exact ⟨0,x,first_least_head hall,hk⟩
    · refine ⟨b+1,y,first_least_cons hb hy,?_⟩
      rw [hk, show 1+b = b+1 by omega]

end Drawing

/-! ## Choices in rounds -/

namespace Rounds

variable {α : Type}

def pick (late skip : α → Bool) (rank : α → ℕ) : List α → Option α → Option α
  | [], best => best
  | x::xs, best =>
    if best.isSome && late x then best
    else if skip x then pick late skip rank xs best
    else
      match best with
      | some b => if rank x < rank b then pick late skip rank xs (some x) else pick late skip rank xs best
      | none => pick late skip rank xs (some x)

structure Picked (le : α → α → Prop) (late skip : α → Bool) (rank : α → ℕ) (l : List α) (x : α) : Prop where
  mem : x ∈ l
  fresh : skip x = false
  least : ∀ y ∈ l, skip y = false → late y = false → late x = false ∧ rank x ≤ rank y
  first : late x = true → ∀ y ∈ l, skip y = false → le x y

section Pick
variable {le : α → α → Prop} {late skip : α → Bool} {rank : α → ℕ}

theorem pick_mem {l : List α} (best : Option α) {x : α} (h : pick late skip rank l best = some x) :
    x ∈ l ∨ best = some x := by
  induction l generalizing best with
  | nil => exact Or.inr h
  | cons z l ih =>
    have hrest : ∀ b, pick late skip rank l b = some x → x ∈ z::l ∨ b = some x := fun b hb =>
      (ih b hb).imp_left (List.mem_cons_of_mem z)
    have hself : pick late skip rank l (some z) = some x → x ∈ z::l := by
      intro hz
      rcases hrest (some z) hz with hmem | heq
      · exact hmem
      · rw [Option.some.inj heq]
        exact List.mem_cons_self
    unfold pick at h
    split_ifs at h
    · exact Or.inr h
    · exact hrest best h
    · cases best with
      | none => exact Or.inl (hself h)
      | some b =>
        dsimp only at h
        split_ifs at h
        · exact Or.inl (hself h)
        · exact hrest (some b) h

theorem pick_congr (skip' : α → Bool) (l : List α) (h : ∀ x ∈ l, skip x = skip' x) (best : Option α) :
    pick late skip rank l best = pick late skip' rank l best := by
  induction l generalizing best with
  | nil => rfl
  | cons x l ih =>
    have hrest := ih fun y hy => h y (List.mem_cons_of_mem x hy)
    simp only [pick, h x List.mem_cons_self, hrest]

variable (skip rank)
variable (hrefl : ∀ x, le x x) (hlate : ∀ x y, le x y → late x = true → late y = true)
include hlate

theorem pick_from {l : List α} (hl : l.Pairwise le) (b : α) (hb : late b = false) :
    ∃ x, pick late skip rank l (some b) = some x ∧ (x = b ∨ x ∈ l ∧ skip x = false) ∧
      late x = false ∧ rank x ≤ rank b ∧
      ∀ y ∈ l, skip y = false → late y = false → rank x ≤ rank y := by
  induction l generalizing b with
  | nil => exact ⟨b,rfl,Or.inl rfl,hb,Nat.le_refl _,fun y hy => absurd hy List.not_mem_nil⟩
  | cons z l ih =>
    obtain ⟨hhead,htail⟩ := List.pairwise_cons.mp hl
    by_cases hz : late z = true
    · refine ⟨b,by simp [pick, hz],Or.inl rfl,hb,Nat.le_refl _,?_⟩
      intro y hy _ hearly
      have hlater : late y = true := by
        rcases List.mem_cons.mp hy with rfl | hy
        · exact hz
        · exact hlate z y (hhead y hy) hz
      rw [hlater] at hearly
      cases hearly
    · rw [Bool.not_eq_true] at hz
      by_cases hskip : skip z = true
      · obtain ⟨x,hx,hmem,hearly,hle,hleast⟩ := ih htail b hb
        refine ⟨x,by simp [pick, hz, hskip, hx],hmem.imp id fun h => ⟨List.mem_cons_of_mem z h.1,h.2⟩,
          hearly,hle,?_⟩
        intro y hy hfresh hy'
        rcases List.mem_cons.mp hy with rfl | hy
        · rw [hskip] at hfresh
          cases hfresh
        · exact hleast y hy hfresh hy'
      · rw [Bool.not_eq_true] at hskip
        by_cases hrank : rank z < rank b
        · obtain ⟨x,hx,hmem,hearly,hle,hleast⟩ := ih htail z hz
          refine ⟨x,by simp [pick, hz, hskip, hrank, hx],?_,hearly,by omega,?_⟩
          · rcases hmem with rfl | hmem
            · exact Or.inr ⟨List.mem_cons_self,hskip⟩
            · exact Or.inr ⟨List.mem_cons_of_mem z hmem.1,hmem.2⟩
          · intro y hy hfresh hy'
            rcases List.mem_cons.mp hy with rfl | hy
            · exact hle
            · exact hleast y hy hfresh hy'
        · obtain ⟨x,hx,hmem,hearly,hle,hleast⟩ := ih htail b hb
          refine ⟨x,by simp [pick, hz, hskip, hrank, hx],hmem.imp id fun h => ⟨List.mem_cons_of_mem z h.1,h.2⟩,
            hearly,hle,?_⟩
          intro y hy hfresh hy'
          rcases List.mem_cons.mp hy with rfl | hy
          · omega
          · exact hleast y hy hfresh hy'

theorem pick_late {l : List α} {b : α} (hl : ∀ y ∈ l, le b y) (hb : late b = true) :
    pick late skip rank l (some b) = some b := by
  cases l with
  | nil => rfl
  | cons z l =>
    have hz := hlate b z (hl z List.mem_cons_self) hb
    simp [pick, hz]

include hrefl

theorem picked (l : List α) (hl : l.Pairwise le) (hleft : ∃ y ∈ l, skip y = false) :
    ∃ x, pick late skip rank l none = some x ∧ Picked le late skip rank l x := by
  induction l with
  | nil =>
    obtain ⟨y,hy,-⟩ := hleft
    cases hy
  | cons z l ih =>
    obtain ⟨hhead,htail⟩ := List.pairwise_cons.mp hl
    by_cases hskip : skip z = true
    · have hleft' : ∃ y ∈ l, skip y = false := by
        obtain ⟨y,hy,hfresh⟩ := hleft
        rcases List.mem_cons.mp hy with rfl | hy
        · rw [hskip] at hfresh
          cases hfresh
        · exact ⟨y,hy,hfresh⟩
      obtain ⟨x,hx,hmem,hfresh,hleast,hfirst⟩ := ih htail hleft'
      have hnot : ∀ y, skip y = false → y ∈ z::l → y ∈ l := by
        intro y hy hmem
        rcases List.mem_cons.mp hmem with rfl | hmem
        · rw [hskip] at hy
          cases hy
        · exact hmem
      exact ⟨x,by simp [pick, hskip, hx],List.mem_cons_of_mem z hmem,hfresh,
        fun y hy h => hleast y (hnot y h hy) h,fun h y hy h' => hfirst h y (hnot y h' hy) h'⟩
    · rw [Bool.not_eq_true] at hskip
      by_cases hz : late z = true
      · -- all of the rest is late
        have hall : ∀ y ∈ z::l, late y = true := by
          intro y hy
          rcases List.mem_cons.mp hy with rfl | hy
          · exact hz
          · exact hlate z y (hhead y hy) hz
        refine ⟨z,by simp [pick, hskip, pick_late skip rank hlate hhead hz],List.mem_cons_self,hskip,?_,?_⟩
        · intro y hy _ hearly
          rw [hall y hy] at hearly
          cases hearly
        · intro _ y hy _
          rcases List.mem_cons.mp hy with rfl | hy
          · exact hrefl y
          · exact hhead y hy
      · rw [Bool.not_eq_true] at hz
        obtain ⟨x,hx,hmem,hearly,hle,hleast⟩ := pick_from skip rank hlate htail z hz
        refine ⟨x,by simp [pick, hskip, hx],?_,?_,?_,?_⟩
        · rcases hmem with rfl | hmem
          · exact List.mem_cons_self
          · exact List.mem_cons_of_mem z hmem.1
        · rcases hmem with rfl | hmem
          · exact hskip
          · exact hmem.2
        · intro y hy hfresh hy'
          rcases List.mem_cons.mp hy with rfl | hy
          · exact ⟨hearly,hle⟩
          · exact ⟨hearly,hleast y hy hfresh hy'⟩
        · intro hlate'
          rw [hearly] at hlate'
          cases hlate'

end Pick

section Rounds
variable [DecidableEq α] (late : ℕ → α → Bool) (rank : α → ℕ) (l : List α)

def rounds : ℕ → ℕ → List α → Option (List α)
  | 0, _, taken => some taken
  | k+1, r, taken =>
    (pick (late r) (fun x => decide (x ∈ taken)) rank l none).bind fun x => rounds k (r+1) (taken++[x])

theorem one_left (hl : l.Nodup) (taken : List α)
    (hlen : taken.length < l.length) : ∃ y ∈ l, decide (y ∈ taken) = false := by
  by_contra hnone
  have hall : ∀ y ∈ l, y ∈ taken := by
    intro y hy
    by_contra hout
    exact hnone ⟨y,hy,decide_eq_false hout⟩
  have hle := (List.subperm_of_subset hl hall).length_le
  omega

theorem rounds_extend (k r : ℕ) (taken s : List α) (h : rounds late rank l k r taken = some s) :
    ∃ sel, s = taken++sel ∧ sel.length = k := by
  induction k generalizing r taken with
  | zero =>
    obtain rfl := Option.some.inj h
    exact ⟨[],(List.append_nil _).symm,rfl⟩
  | succ k ih =>
    obtain ⟨x,-,hrest⟩ := Option.bind_eq_some_iff.mp h
    obtain ⟨sel,rfl,hlen⟩ := ih (r+1) (taken++[x]) hrest
    exact ⟨x::sel,by simp,by rw [List.length_cons, hlen]⟩

variable {le : α → α → Prop} (hrefl : ∀ x, le x x)
variable (hlate : ∀ r x y, le x y → late r x = true → late r y = true)
include hrefl hlate

theorem rounds_spec (hl : l.Nodup) (hsorted : l.Pairwise le) (k r : ℕ) (taken : List α)
    (hnodup : taken.Nodup) (hsub : ∀ x ∈ taken, x ∈ l) (hlen : taken.length+k ≤ l.length) :
    ∃ sel, rounds late rank l k r taken = some (taken++sel) ∧ sel.length = k ∧
      (taken++sel).Nodup ∧ (∀ x ∈ sel, x ∈ l) ∧
      ∀ j x, sel[j]? = some x →
        Picked le (late (r+j)) (fun y => decide (y ∈ taken++sel.take j)) rank l x := by
  induction k generalizing r taken with
  | zero =>
    refine ⟨[],by simp [rounds],rfl,by simpa using hnodup,by simp,?_⟩
    intro j x hx
    simp at hx
  | succ k ih =>
    have hleft := one_left l hl taken (by omega)
    obtain ⟨x,hx,hpicked⟩ := picked _ rank hrefl (hlate r) l hsorted hleft
    have hfresh : x ∉ taken := of_decide_eq_false hpicked.fresh
    have hnodup' : (taken++[x]).Nodup := by
      rw [List.nodup_append]
      refine ⟨hnodup,List.nodup_singleton x,?_⟩
      rintro a ha b hb rfl
      rw [List.mem_singleton.mp hb] at ha
      exact hfresh ha
    have hsub' : ∀ y ∈ taken++[x], y ∈ l := by
      intro y hy
      rcases List.mem_append.mp hy with hy | hy
      · exact hsub y hy
      · rw [List.mem_singleton.mp hy]
        exact hpicked.mem
    obtain ⟨sel,hsel,hlength,hall,hmem,hpicks⟩ := ih (r+1) (taken++[x]) hnodup' hsub'
      (by rw [List.length_append, List.length_singleton]; omega)
    have happend : taken++[x]++sel = taken++x::sel := by simp
    rw [happend] at hsel hall
    refine ⟨x::sel,by rw [rounds, hx]; exact hsel,by rw [List.length_cons, hlength],hall,?_,?_⟩
    · intro y hy
      rcases List.mem_cons.mp hy with rfl | hy
      · exact hpicked.mem
      · exact hmem y hy
    · intro j y hy
      cases j with
      | zero =>
        obtain rfl := Option.some.inj hy
        simpa using hpicked
      | succ j =>
        have hpick := hpicks j y hy
        simpa [Nat.add_assoc, Nat.add_comm 1 j] using hpick

end Rounds

end Rounds
