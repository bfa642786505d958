import Mathlib.Data.List.Basic
import Mathlib.Data.Int.Order.Basic

/-!
# New places among placed ones

A history holds its newest position first. A missing position takes the first place
behind everything before it, and a placed one moves by the number of earlier new
places that are not above it. Placed positions keep their order, and the only clash
is between a placed position that moves and a new place above it.
-/

set_option autoImplicit false

namespace Interleaving

def missing : ℤ := -1

def passed (places : List ℤ) (p : ℤ) : ℕ := places.countP (· ≤ p)

def lay : List ℤ → List ℤ × ℤ
  | [] => ([],0)
  | p::h =>
    if p = missing then ((lay h).2::(lay h).1,(lay h).2+1)
    else ((lay h).1,max (lay h).2 (p+passed (lay h).1 p+1))

def places (h : List ℤ) : List ℤ := (lay h).1
def behind (h : List ℤ) : ℤ := (lay h).2

def spot (h : List ℤ) (p : ℤ) : ℤ := if p = missing then behind h else p+passed (places h) p

def spots : List ℤ → List (ℤ × ℤ)
  | [] => []
  | p::h => (p,spot h p)::spots h

def Clear : List ℤ → Prop
  | [] => True
  | p::h => (p ≠ missing → spot h p ∉ places h) ∧ Clear h

instance decidableClear : (h : List ℤ) → Decidable (Clear h)
  | [] => inferInstanceAs (Decidable True)
  | p::h =>
    have := decidableClear h
    inferInstanceAs (Decidable ((p ≠ missing → spot h p ∉ places h) ∧ Clear h))

def Placed (h : List ℤ) : Prop :=
  (∀ p ∈ h, p = missing ∨ 0 ≤ p) ∧ (h.filter (· ≠ missing)).Nodup

variable (h : List ℤ)

@[simp] theorem lay_eq : lay h = (places h,behind h) := rfl

@[simp] theorem places_nil : places [] = [] := rfl

@[simp] theorem behind_nil : behind [] = 0 := rfl

@[simp] theorem places_missing : places (missing::h) = behind h::places h := by
  rw [places, lay, if_pos rfl]
  rfl

@[simp] theorem behind_missing : behind (missing::h) = behind h+1 := by
  rw [behind, lay, if_pos rfl]
  rfl

@[simp] theorem spot_missing : spot h missing = behind h := if_pos rfl

section Steps
variable (h : List ℤ) (p : ℤ) (hp : p ≠ missing)
include hp

theorem places_placed : places (p::h) = places h := by
  rw [places, lay, if_neg hp]
  rfl

theorem behind_placed : behind (p::h) = max (behind h) (spot h p+1) := by
  rw [behind, lay, if_neg hp, spot, if_neg hp]
  rfl

theorem spot_placed : spot h p = p+passed (places h) p := if_neg hp

theorem le_spot : p ≤ spot h p := by
  rw [spot_placed h p hp]
  omega

end Steps

section Counting

variable (l : List ℤ)

theorem passed_mono (p q : ℤ) (hpq : p ≤ q) : passed l p ≤ passed l q := by
  unfold passed
  apply List.countP_mono_left
  intro o ho hle
  simp only [decide_eq_true_eq] at hle ⊢
  exact Int.le_trans hle hpq

theorem passed_le (p : ℤ) : passed l p ≤ l.length := List.countP_le_length

theorem passed_cons (o p : ℤ) : passed (o::l) p = passed l p+(if o ≤ p then 1 else 0) := by
  by_cases ho : o ≤ p <;> simp [passed, ho]

end Counting

theorem behind_step (p : ℤ) : behind h ≤ behind (p::h) ∧ spot h p < behind (p::h) := by
  by_cases hp : p = missing
  · rw [hp, behind_missing, spot_missing]
    omega
  · rw [behind_placed h p hp]
    omega

theorem spot_lt_behind : ∀ x ∈ spots h, x.2 < behind h := by
  induction h with
  | nil =>
    intro x hx
    cases hx
  | cons p h ih =>
    intro x hx
    obtain ⟨hstep,hspot⟩ := behind_step h p
    rcases List.mem_cons.mp hx with rfl | hx
    · exact hspot
    · exact Int.lt_of_lt_of_le (ih x hx) hstep

theorem behind_nonneg : 0 ≤ behind h := by
  induction h with
  | nil => exact Int.le_refl 0
  | cons p h ih => exact Int.le_trans ih (behind_step h p).1

theorem mem_places (o : ℤ) : o ∈ places h ↔ (missing,o) ∈ spots h := by
  induction h with
  | nil => simp [spots]
  | cons p h ih =>
    by_cases hp : p = missing
    · subst hp
      simp [spots, ih]
    · rw [places_placed h p hp, ih, spots, List.mem_cons, Prod.mk.injEq]
      constructor
      · exact Or.inr
      · rintro (⟨rfl,-⟩ | hmem)
        · exact absurd rfl hp
        · exact hmem

theorem spots_nonneg {h : List ℤ} (hnonneg : ∀ p ∈ h, p = missing ∨ 0 ≤ p) :
    ∀ x ∈ spots h, 0 ≤ x.2 := by
  induction h with
  | nil =>
    intro x hx
    cases hx
  | cons p h ih =>
    rintro x hx
    rcases List.mem_cons.mp hx with rfl | hx
    · by_cases hp : p = missing
      · rw [hp]
        exact behind_nonneg h
      · have hle := le_spot h p hp
        have hpos := (hnonneg p List.mem_cons_self).resolve_left hp
        exact Int.le_trans hpos hle
    · exact ih (fun q hq => hnonneg q (List.mem_cons_of_mem p hq)) x hx

section Order

variable (h : List ℤ)

theorem spot_le : ∀ x ∈ spots h, x.1 ≠ missing →
    x.1 ≤ x.2 ∧ x.2 ≤ x.1+passed (places h) x.1 := by
  induction h with
  | nil =>
    intro x hx
    cases hx
  | cons p h ih =>
    intro x hx hplaced
    have hmono : passed (places h) x.1 ≤ passed (places (p::h)) x.1 := by
      by_cases hp : p = missing
      · rw [hp, places_missing, passed_cons]
        omega
      · exact Nat.le_of_eq (by rw [places_placed h p hp])
    rcases List.mem_cons.mp hx with rfl | hx
    · have hspot := spot_placed h p hplaced
      have hle := le_spot h p hplaced
      change p ≤ spot h p ∧ spot h p ≤ p+passed (places (p::h)) p
      change passed (places h) p ≤ passed (places (p::h)) p at hmono
      constructor <;> omega
    · obtain ⟨hlow,hhigh⟩ := ih x hx hplaced
      constructor <;> omega

theorem below_stays (p : ℤ) : ∀ x ∈ spots h, x.1 ≠ missing → p < x.1 →
    p+passed (places h) p < x.2 := by
  induction h with
  | nil =>
    intro x hx
    cases hx
  | cons q h ih =>
    intro x hx hplaced hlt
    rcases List.mem_cons.mp hx with rfl | hx
    · have hmono := passed_mono (places h) p q (Int.le_of_lt hlt)
      have hspot := spot_placed h q hplaced
      rw [places_placed h q hplaced]
      omega
    · have hrec := ih x hx hplaced hlt
      by_cases hq : q = missing
      · -- the new place is behind the item, and so above the position
        have hbehind := spot_lt_behind h x hx
        have hle := (spot_le h x hx hplaced).1
        rw [hq, places_missing, passed_cons, if_neg (by omega)]
        omega
      · rw [places_placed h q hq]
        exact hrec

theorem order_kept (hdiff : (h.filter (· ≠ missing)).Nodup) :
    ∀ x ∈ spots h, ∀ y ∈ spots h, x.1 ≠ missing → y.1 ≠ missing →
      x.1 < y.1 → x.2 < y.2 := by
  induction h with
  | nil =>
    intro x hx
    cases hx
  | cons p h ih =>
    have htail : (h.filter (· ≠ missing)).Nodup := by
      by_cases hp : p = missing
      · simpa [hp] using hdiff
      · rw [List.filter_cons_of_pos (by simpa using hp)] at hdiff
        exact (List.nodup_cons.mp hdiff).2
    intro x hx y hy hplaced hplaced' hlt
    rcases List.mem_cons.mp hx with rfl | hx
    · rcases List.mem_cons.mp hy with rfl | hy
      · exact absurd hlt (Int.lt_irrefl _)
      · have hbelow := below_stays h p y hy hplaced' hlt
        have hspot := spot_placed h p hplaced
        show spot h p < y.2
        omega
    · rcases List.mem_cons.mp hy with rfl | hy
      · have hhigh := (spot_le h x hx hplaced).2
        have hmono := passed_mono (places h) x.1 p (Int.le_of_lt hlt)
        have hspot := spot_placed h p hplaced'
        show x.2 < spot h p
        change x.1 < p at hlt
        omega
      · exact ih htail x hx y hy hplaced hplaced' hlt

end Order

theorem filter_tail {p : ℤ} {h : List ℤ} (hdiff : ((p::h).filter (· ≠ missing)).Nodup) :
    (h.filter (· ≠ missing)).Nodup ∧ (p ≠ missing → p ∉ h) := by
  by_cases hp : p = missing
  · rw [List.filter_cons_of_neg (by simpa using hp)] at hdiff
    exact ⟨hdiff,fun hne => absurd hp hne⟩
  · rw [List.filter_cons_of_pos (by simpa using hp), List.nodup_cons] at hdiff
    exact ⟨hdiff.2,fun hne hmem => hdiff.1 (List.mem_filter.mpr ⟨hmem,by simpa using hne⟩)⟩

theorem spots_fst : (spots h).map Prod.fst = h := by
  induction h with
  | nil => rfl
  | cons p h ih => rw [spots, List.map_cons, ih]

theorem fst_mem {h : List ℤ} {x : ℤ × ℤ} (hx : x ∈ spots h) : x.1 ∈ h := by
  rw [← spots_fst h]
  exact List.mem_map.mpr ⟨x,hx,rfl⟩

theorem spot_clash {h : List ℤ} {p : ℤ} (hdiff : ((p::h).filter (· ≠ missing)).Nodup) :
    spot h p ∈ (spots h).map Prod.snd ↔ p ≠ missing ∧ spot h p ∈ places h := by
  constructor
  · intro hmem
    obtain ⟨x,hx,hclash⟩ := List.mem_map.mp hmem
    by_cases hp : p = missing
    · have hlt := spot_lt_behind h x hx
      rw [hp, spot_missing] at hclash
      omega
    · refine ⟨hp,?_⟩
      by_cases hplaced : x.1 = missing
      · rw [mem_places, ← hclash, ← hplaced]
        exact hx
      · have hne : x.1 ≠ p := by
          intro heq
          exact (filter_tail hdiff).2 hp (heq ▸ fst_mem hx)
        have hhead : (p,spot h p) ∈ spots (p::h) := List.mem_cons_self
        have htail : x ∈ spots (p::h) := List.mem_cons_of_mem _ hx
        rcases Int.lt_or_gt_of_ne hne with hlt | hgt
        · have horder := order_kept (p::h) hdiff x htail _ hhead hplaced hp hlt
          exact absurd hclash (Int.ne_of_lt horder)
        · have horder := order_kept (p::h) hdiff _ hhead x htail hp hplaced hgt
          exact absurd hclash (Int.ne_of_gt horder)
  · rintro ⟨-,hmem⟩
    exact List.mem_map.mpr ⟨_,(mem_places h _).mp hmem,rfl⟩

/-- The positions differ afterwards when none that was placed has landed on a new place. -/
theorem nodup_iff (hdiff : (h.filter (· ≠ missing)).Nodup) :
    ((spots h).map Prod.snd).Nodup ↔ Clear h := by
  induction h with
  | nil => exact iff_of_true List.nodup_nil True.intro
  | cons p h ih =>
    rw [spots, List.map_cons, List.nodup_cons, spot_clash hdiff, ih (filter_tail hdiff).1,
      Clear, not_and]

section Apart

def highest : List ℤ → ℤ
  | [] => missing
  | p::h => max p (highest h)

def count (h : List ℤ) : ℕ := h.countP (· = missing)

/-- Every placed position is below all that was placed before a missing one, or behind that
by more than the missing ones before it. -/
def Apart : List ℤ → Prop
  | [] => True
  | p::h => (p ≠ missing → ∀ b a, h = b++missing::a → p ≤ highest a ∨ highest a+count a < p) ∧ Apart h

theorem highest_le (b a : List ℤ) : highest a ≤ highest (b++a) := by
  induction b with
  | nil => exact Int.le_refl _
  | cons p b ih => exact Int.le_trans ih (Int.le_max_right p _)

theorem highest_mem (h : List ℤ) : highest h = missing ∨ highest h ∈ h := by
  induction h with
  | nil => exact Or.inl rfl
  | cons p h ih =>
    change max p (highest h) = missing ∨ max p (highest h) ∈ p::h
    rcases Int.le_total p (highest h) with hle | hle
    · rw [Int.max_eq_right hle]
      exact ih.imp id (List.mem_cons_of_mem p)
    · rw [Int.max_eq_left hle]
      exact Or.inr List.mem_cons_self

variable {h : List ℤ}

theorem missing_le_highest (hnonneg : ∀ p ∈ h, p = missing ∨ 0 ≤ p) : missing ≤ highest h := by
  rcases highest_mem h with heq | hmem
  · exact Int.le_of_eq heq.symm
  · rcases hnonneg _ hmem with heq | hpos
    · exact Int.le_of_eq heq.symm
    · exact Int.le_trans (by decide) hpos

theorem places_length (h : List ℤ) : (places h).length = count h := by
  induction h with
  | nil => rfl
  | cons p h ih =>
    by_cases hp : p = missing
    · rw [hp, places_missing, List.length_cons, ih]
      simp [count]
    · rw [places_placed h p hp, ih, count, count, List.countP_cons_of_neg (by simpa using hp)]

theorem place_behind {o : ℤ} (ho : o ∈ places h) : ∃ b a, h = b++missing::a ∧ o = behind a := by
  induction h with
  | nil => cases ho
  | cons p h ih =>
    by_cases hp : p = missing
    · subst hp
      rw [places_missing] at ho
      rcases List.mem_cons.mp ho with rfl | ho
      · exact ⟨[],h,rfl,rfl⟩
      · obtain ⟨b,a,rfl,hbehind⟩ := ih ho
        exact ⟨missing::b,a,rfl,hbehind⟩
    · rw [places_placed h p hp] at ho
      obtain ⟨b,a,rfl,hbehind⟩ := ih ho
      exact ⟨p::b,a,rfl,hbehind⟩

theorem spots_suffix (b a : List ℤ) : ∀ x ∈ spots a, x ∈ spots (b++a) := by
  induction b with
  | nil => exact fun x hx => hx
  | cons p b ih => exact fun x hx => List.mem_cons_of_mem _ (ih x hx)

/-- Where the placed positions keep apart, the places are behind all that was placed by the
number of missing ones. -/
theorem behind_apart_suffix (hnonneg : ∀ p ∈ h, p = missing ∨ 0 ≤ p) (hapart : Apart h) :
    ∀ b a, h = b++a → behind a = highest a+1+count a := by
  induction h with
  | nil =>
    intro b a heq
    obtain ⟨rfl,rfl⟩ := List.append_eq_nil_iff.mp heq.symm
    rfl
  | cons p h ih =>
    have hnonneg' : ∀ q ∈ h, q = missing ∨ 0 ≤ q := fun q hq => hnonneg q (List.mem_cons_of_mem p hq)
    have hsuffix := ih hnonneg' hapart.2
    intro b a heq
    cases b with
    | cons q b => exact hsuffix b a (List.cons.inj heq).2
    | nil =>
      obtain rfl : p::h = a := heq
      have hrec := hsuffix [] h rfl
      have hlow := missing_le_highest hnonneg'
      by_cases hp : p = missing
      · have hmax : highest (p::h) = highest h := by
          rw [hp]
          exact Int.max_eq_right hlow
        have hcount : count (p::h) = count h+1 := by simp [count, hp]
        rw [hmax, hcount, hp, behind_missing, hrec]
        omega
      · have hcount : count (p::h) = count h := by simp [count, hp]
        have hspot := spot_placed h p hp
        have hpassed := passed_le (places h) p
        rw [places_length] at hpassed
        rw [hcount, behind_placed h p hp, hrec, hspot]
        change _ = max p (highest h)+1+count h
        rcases Int.lt_or_le (highest h) p with hgt | hle
        · -- every missing one is below, so that all of them are passed
          have hall : passed (places h) p = (places h).length := by
            rw [passed, List.countP_eq_length]
            intro o ho
            obtain ⟨b,a,heq,hbehind⟩ := place_behind ho
            have hsplit : h = (b++[missing])++a := by simp [heq]
            have ha := hsuffix _ a hsplit
            have hmono := highest_le (b++[missing]) a
            rw [← hsplit] at hmono
            rw [decide_eq_true_eq]
            rcases hapart.1 hp b a heq with hbelow | habove <;> omega
          rw [hall, places_length, Int.max_eq_left (Int.le_of_lt hgt)]
          omega
        · rw [Int.max_eq_right hle]
          omega

theorem apart_clear (hplaced : Placed h) (hapart : Apart h) : Clear h := by
  induction h with
  | nil => exact True.intro
  | cons p h ih =>
    obtain ⟨hnonneg,hdiff⟩ := hplaced
    have hnonneg' : ∀ q ∈ h, q = missing ∨ 0 ≤ q := fun q hq => hnonneg q (List.mem_cons_of_mem p hq)
    obtain ⟨hdiff',hfresh⟩ := filter_tail hdiff
    refine ⟨?_,ih ⟨hnonneg',hdiff'⟩ hapart.2⟩
    intro hp hclash
    obtain ⟨b,a,heq,hbehind⟩ := place_behind hclash
    have hsuffix : h = (b++[missing])++a := by simp [heq]
    have hspot := spot_placed h p hp
    rcases hapart.1 hp b a heq with hbelow | habove
    · -- an item above the position was placed before the new place
      have hpos := (hnonneg p List.mem_cons_self).resolve_left hp
      have hne : highest a ≠ missing := by
        intro hmissing
        rw [hmissing, missing] at hbelow
        omega
      have hmem := (highest_mem a).resolve_left hne
      have hmem' : highest a ∈ h := by
        rw [heq]
        simp [hmem]
      have hlt : p < highest a := by
        rcases Int.lt_or_eq_of_le hbelow with hlt | hsame
        · exact hlt
        · exact absurd (hsame ▸ hmem') (hfresh hp)
      rw [← spots_fst a] at hmem
      obtain ⟨x,hx,hfst⟩ := List.mem_map.mp hmem
      rw [spots_fst] at hfst
      have hbefore := spot_lt_behind a x hx
      have hstays := below_stays h p x (hsuffix ▸ spots_suffix _ a x hx) (hfst ▸ hne) (hfst ▸ hlt)
      omega
    · have hbehind' := behind_apart_suffix hnonneg' hapart.2 _ a hsuffix
      have hcounted : 0 < passed (places h) p := by
        rw [passed, List.countP_pos_iff]
        exact ⟨_,hclash,by rw [decide_eq_true_eq]; omega⟩
      omega

end Apart

section Aside

structure Aside (h : List ℤ) (f : ℤ) : Prop where
  placed : f ≠ missing
  free : f ∉ places h
  within : f < behind h
  ahead : ∀ x ∈ spots h, x.1 ≠ missing → x.1 < f → x.2 < f

structure Fits (h : List ℤ) (f : ℤ) : Prop where
  nonneg : 0 ≤ f
  differs : f ∉ (spots h).map Prod.snd
  within : f < behind h
  below : ∀ x ∈ spots h, x.1 ≠ missing → x.1 < f → x.2 < f
  above : ∀ x ∈ spots h, x.1 ≠ missing → f < x.1 → f < x.2

theorem fits_iff {h : List ℤ} {f : ℤ} (hf : f = missing ∨ 0 ≤ f) (hdiffers : f ≠ missing → f ∉ h) :
    Fits h f ↔ Aside h f := by
  constructor
  · intro hfits
    have hplaced : f ≠ missing := by
      rintro rfl
      exact absurd hfits.nonneg (by decide)
    refine ⟨hplaced,?_,hfits.within,hfits.below⟩
    intro ho
    exact hfits.differs (List.mem_map.mpr ⟨_,(mem_places h f).mp ho,rfl⟩)
  · intro haside
    have habove : ∀ x ∈ spots h, x.1 ≠ missing → f < x.1 → f < x.2 := fun x hx hplaced hlt =>
      Int.lt_of_lt_of_le hlt (spot_le h x hx hplaced).1
    refine ⟨hf.resolve_left haside.placed,?_,haside.within,haside.ahead,habove⟩
    intro hmem
    obtain ⟨x,hx,rfl⟩ := List.mem_map.mp hmem
    by_cases hplaced : x.1 = missing
    · apply haside.free
      rw [mem_places, ← hplaced]
      exact hx
    · rcases Int.lt_trichotomy x.1 x.2 with hlt | heq | hgt
      · exact absurd (haside.ahead x hx hplaced hlt) (Int.lt_irrefl _)
      · exact hdiffers haside.placed (heq ▸ fst_mem hx)
      · exact absurd (habove x hx hplaced hgt) (Int.lt_irrefl _)

end Aside

end Interleaving
