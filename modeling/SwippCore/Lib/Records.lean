import Mathlib.Data.List.Basic
import Mathlib.Algebra.Order.Ring.Int

/-!
# Records and buffers

Files of records, and reading inside a buffer.
-/

set_option autoImplicit false

/-! ## Files of records -/

namespace Records

section
variable {β : Type} (H : ℕ) (size : List β → ℕ)

structure Record where
  header : List β
  payload : List β
  sized : header.length = H
  fits : payload.length = size header

variable {H size}

def Record.bytes (r : Record H size) : List β := r.header++r.payload

variable (r : Record H size)

theorem Record.length_bytes : r.bytes.length = H+size r.header := by
  rw [Record.bytes, List.length_append, r.sized, r.fits]

theorem Record.ext (s : Record H size) (hh : r.header = s.header) (hp : r.payload = s.payload) :
    r = s := by
  cases r
  cases s
  simp only at hh hp
  subst hh hp
  rfl

def concat : List (Record H size) → List β
  | [] => []
  | r::rs => r.bytes++concat rs

variable (rs : List (Record H size))

theorem concat_append (ss : List (Record H size)) : concat (rs++ss) = concat rs++concat ss := by
  induction rs with
  | nil => rfl
  | cons r rs ih => rw [List.cons_append, concat, ih, concat, List.append_assoc]

theorem concat_snoc (r : Record H size) : concat (rs++[r]) = concat rs++r.bytes := by
  rw [concat_append, concat, concat, List.append_nil]

/-- The records with the places at which they start, the first one at `ofs`. -/
def places (ofs : ℕ) : List (Record H size) → List (ℕ × Record H size)
  | [] => []
  | r::rs => (ofs,r)::places (ofs+r.bytes.length) rs

theorem places_append (ss : List (Record H size)) (ofs : ℕ) :
    places ofs (rs++ss) = places ofs rs++places (ofs+(concat rs).length) ss := by
  induction rs generalizing ofs with
  | nil => rfl
  | cons r rs ih =>
    rw [List.cons_append, places, ih, places, List.cons_append, concat, List.length_append,
      Nat.add_assoc]

theorem places_snoc (r : Record H size) (ofs : ℕ) :
    places ofs (rs++[r]) = places ofs rs++[(ofs+(concat rs).length,r)] :=
  places_append rs [r] ofs

theorem places_split {rs : List (Record H size)} (ofs : ℕ) {p : ℕ} {r : Record H size}
    (h : (p,r) ∈ places ofs rs) :
    ∃ before after, rs = before++r::after ∧ p = ofs+(concat before).length := by
  induction rs generalizing ofs with
  | nil => cases h
  | cons s rs ih =>
    rcases List.mem_cons.mp h with h | h
    · obtain ⟨rfl,rfl⟩ := Prod.mk.inj h
      exact ⟨[],rs,rfl,rfl⟩
    · obtain ⟨before,after,hrs,hp⟩ := ih _ h
      refine ⟨s::before,after,by rw [hrs]; rfl,?_⟩
      rw [hp, concat, List.length_append, Nat.add_assoc]

theorem bytes_inj {r s : Record H size} {t u : List β} (h : r.bytes++t = s.bytes++u) :
    r = s ∧ t = u := by
  unfold Record.bytes at h
  rw [List.append_assoc, List.append_assoc] at h
  obtain ⟨hh,h⟩ := List.append_inj h (r.sized.trans s.sized.symm)
  obtain ⟨hp,ht⟩ := List.append_inj h (by rw [r.fits, s.fits, hh])
  exact ⟨Record.ext r s hh hp,ht⟩

theorem take_header (t : List β) : (r.bytes++t).take H = r.header := by
  rw [Record.bytes, List.append_assoc]
  exact List.take_left' r.sized

theorem drop_header (t : List β) : (r.bytes++t).drop H = r.payload++t := by
  rw [Record.bytes, List.append_assoc]
  exact List.drop_left' r.sized

variable (H size)

def readAt (file : List β) (ofs : ℕ) : Option (List β) :=
  let header := (file.drop ofs).take H
  if header.length ≠ H then none
  else
    let payload := (file.drop (ofs+H)).take (size header)
    if payload.length ≠ size header then none else some (header++payload)

variable {H size}

theorem read_record (before after : List β) (r : Record H size) :
    readAt H size (before++(r.bytes++after)) before.length = some r.bytes := by
  have hheader : ((before++(r.bytes++after)).drop before.length).take H = r.header := by
    rw [List.drop_left, take_header]
  have hpayload : ((before++(r.bytes++after)).drop (before.length+H)).take (size r.header) =
      r.payload := by
    rw [← List.drop_drop, List.drop_left, drop_header]
    exact List.take_left' r.fits
  unfold readAt
  dsimp only
  rw [hheader, if_neg (not_not.mpr r.sized), hpayload, if_neg (not_not.mpr r.fits)]
  rfl

theorem read_place {rs : List (Record H size)} (after : List β) {p : ℕ} {r : Record H size}
    (h : (p,r) ∈ places 0 rs) : readAt H size (concat rs++after) p = some r.bytes := by
  obtain ⟨before,later,rfl,rfl⟩ := places_split 0 h
  rw [concat_append, concat, List.append_assoc, List.append_assoc, Nat.zero_add]
  exact read_record (concat before) (concat later++after) r

end

end Records

/-! ## Reading inside a buffer -/

namespace Guarded

variable {ε α β S : Type}

def Safe (x : Except ε α) : Prop := ∃ a, x = .ok a

@[simp] theorem safe_ok (a : α) : Safe (.ok a : Except ε α) := ⟨a,rfl⟩

@[simp] theorem not_safe_error (e : ε) : ¬ Safe (.error e : Except ε α) := by
  rintro ⟨a,h⟩
  cases h

theorem safe_map (x : Except ε α) (f : α → β) : Safe (x.map f) ↔ Safe x := by
  cases x with
  | error e => simp [Except.map]
  | ok a => simp [Except.map]

section Read
variable (bad : ε) (data : List β)

def read (ofs len : ℕ) : Except ε (List β) :=
  if ofs+len ≤ data.length then .ok ((data.drop ofs).take len) else .error bad

theorem read_ok {ofs len : ℕ} (h : ofs+len ≤ data.length) :
    read bad data ofs len = .ok ((data.drop ofs).take len) := if_pos h

theorem read_bad {ofs len : ℕ} (h : ¬ ofs+len ≤ data.length) :
    read bad data ofs len = .error bad := if_neg h

theorem safe_read_bind (ofs len : ℕ) (f : List β → Except ε α) :
    Safe ((read bad data ofs len).bind f) ↔
      ofs+len ≤ data.length ∧ Safe (f ((data.drop ofs).take len)) := by
  by_cases h : ofs+len ≤ data.length
  · rw [read_ok bad data h]
    simp [Except.bind, h]
  · rw [read_bad bad data h]
    simp [Except.bind, h]

/-- One item after the other, `w` apart. -/
def loop (w : ℕ) (body : List β → S → S) : ℕ → ℕ → S → Except ε S
  | 0, _, s => .ok s
  | k+1, ofs, s => (read bad data ofs w).bind fun b => loop w body k (ofs+w) (body b s)

theorem safe_loop (w : ℕ) (body : List β → S → S) (k ofs : ℕ) (s : S)
    (hofs : ofs ≤ data.length) :
    Safe (loop bad data w body k ofs s) ↔ ofs+w*k ≤ data.length := by
  induction k generalizing ofs s with
  | zero =>
    rw [Nat.mul_zero, Nat.add_zero]
    exact ⟨fun _ => hofs,fun _ => safe_ok s⟩
  | succ k ih =>
    unfold loop
    rw [safe_read_bind, Nat.mul_succ]
    constructor
    · rintro ⟨hread,hrest⟩
      have hrest := (ih (ofs+w) _ hread).mp hrest
      omega
    · intro h
      have hread : ofs+w ≤ data.length := by omega
      exact ⟨hread,(ih (ofs+w) _ hread).mpr (by omega)⟩

end Read

end Guarded
