import Mathlib.Data.List.Basic
import Mathlib.Data.Option.Defs

/-!
# Routines that may fail

Sequences of checks and attempts, two runs of a routine side by side, and loops and undoing.
-/

set_option autoImplicit false

/-! ## Sequences of checks -/

namespace Checks

variable {ε α β : Type}

def require (c : Bool) (e : ε) : Except ε Unit := if c then .ok () else .error e

@[simp] theorem require_ok (c : Bool) (e : ε) (u : Unit) :
    require c e = .ok u ↔ c = true := by
  cases c <;> simp [require]

@[simp] theorem require_error (c : Bool) (e f : ε) :
    require c e = .error f ↔ c = false ∧ e = f := by
  cases c <;> simp [require]

variable (x : Except ε α)

theorem bind_ok (f : α → Except ε β) (b : β) : x >>= f = .ok b ↔ ∃ a, x = .ok a ∧ f a = .ok b := by
  cases x <;> simp [bind, Except.bind]

theorem bind_error (f : α → Except ε β) (e : ε) :
    x >>= f = .error e ↔ x = .error e ∨ ∃ a, x = .ok a ∧ f a = .error e := by
  cases x <;> simp [bind, Except.bind]

theorem then_ok (x : Except ε Unit) (f : Unit → Except ε β) (b : β) :
    x >>= f = .ok b ↔ x = .ok () ∧ f () = .ok b := by
  rw [bind_ok]
  exact ⟨fun ⟨_,h,k⟩ => ⟨h,k⟩,fun ⟨h,k⟩ => ⟨(),h,k⟩⟩

theorem then_error (x : Except ε Unit) (f : Unit → Except ε β) (e : ε) :
    x >>= f = .error e ↔ x = .error e ∨ x = .ok () ∧ f () = .error e := by
  rw [bind_error]
  exact or_congr Iff.rfl ⟨fun ⟨_,h,k⟩ => ⟨h,k⟩,fun ⟨h,k⟩ => ⟨(),h,k⟩⟩

theorem of_is_ok (h : x.isOk = true) : ∃ a, x = .ok a := by
  cases x with
  | error e => cases h
  | ok a => exact ⟨a,rfl⟩

def forEach (f : α → Except ε Unit) : List α → Except ε Unit
  | [] => .ok ()
  | x::xs => f x >>= fun _ => forEach f xs

theorem for_each_ok (f : α → Except ε Unit) (xs : List α) :
    forEach f xs = .ok () ↔ ∀ x ∈ xs, f x = .ok () := by
  induction xs with
  | nil => simp [forEach]
  | cons x xs ih => simp [forEach, then_ok, ih]

theorem for_each_error {f : α → Except ε Unit} {xs : List α} {e : ε} (h : forEach f xs = .error e) :
    ∃ x ∈ xs, f x = .error e := by
  induction xs with
  | nil => simp [forEach] at h
  | cons x xs ih =>
    rw [forEach, then_error] at h
    rcases h with h | ⟨_,h⟩
    · exact ⟨x,List.mem_cons_self,h⟩
    · obtain ⟨y,hy,hf⟩ := ih h
      exact ⟨y,List.mem_cons_of_mem x hy,hf⟩

end Checks

/-! ## Steps that may fail half way -/

namespace Attempt

variable {S A ε : Type}

abbrev Result (S ε : Type) := S × Except ε Unit

def done (s : S) : Result S ε := (s,.ok ())

def fail (s : S) (e : ε) : Result S ε := (s,.error e)

def andThen (r : Result S ε) (f : S → Result S ε) : Result S ε :=
  match r with
  | (s,.ok _) => f s
  | (s,.error e) => (s,.error e)

def forAll (f : A → S → Result S ε) : List A → S → Result S ε
  | [], s => done s
  | a::as, s => andThen (f a s) (forAll f as)

def Along (P : A → S → Prop) (f : A → S → Result S ε) : List A → S → Prop
  | [], _ => True
  | a::as, s => P a s ∧ ∀ t, f a s = (t,.ok ()) → Along P f as t

theorem and_then_ok (r : Result S ε) (f : S → Result S ε) (s' : S) :
    andThen r f = (s',.ok ()) ↔ ∃ s, r = (s,.ok ()) ∧ f s = (s',.ok ()) := by
  obtain ⟨s,x⟩ := r
  cases x with
  | error e => simp [andThen]
  | ok u => simp [andThen]

theorem and_then_error (r : Result S ε) (f : S → Result S ε) (s' : S) (e : ε) :
    andThen r f = (s',.error e) ↔
      r = (s',.error e) ∨ ∃ s, r = (s,.ok ()) ∧ f s = (s',.error e) := by
  obtain ⟨s,x⟩ := r
  cases x with
  | error e => simp [andThen]
  | ok u => simp [andThen]

theorem and_then_fst (R : S → S → Prop) (htrans : ∀ a b c, R a b → R b c → R a c) (s : S)
    (r : Result S ε) (f : S → Result S ε) (hr : R s r.1) (hf : ∀ t, R t (f t).1) :
    R s (andThen r f).1 := by
  obtain ⟨t,x⟩ := r
  cases x with
  | error e => exact hr
  | ok u => exact htrans _ _ _ hr (hf t)

theorem for_all_fst (R : S → S → Prop) (hrefl : ∀ a, R a a)
    (htrans : ∀ a b c, R a b → R b c → R a c) (f : A → S → Result S ε) {as : List A}
    (hf : ∀ a ∈ as, ∀ s, R s (f a s).1) (s : S) : R s (forAll f as s).1 := by
  induction as generalizing s with
  | nil => exact hrefl s
  | cons a as ih =>
    rw [forAll]
    apply and_then_fst R htrans s _ _ (hf a List.mem_cons_self s)
    exact fun t => ih (fun b hb => hf b (List.mem_cons_of_mem a hb)) t

theorem for_all_ok (I : S → Prop) {f : A → S → Result S ε} {as : List A}
    (hf : ∀ a ∈ as, ∀ s s', I s → f a s = (s',.ok ()) → I s') (s : S) {s' : S} (hs : I s)
    (h : forAll f as s = (s',.ok ())) : I s' := by
  induction as generalizing s with
  | nil =>
    rw [forAll, done, Prod.mk.injEq] at h
    exact h.1 ▸ hs
  | cons a as ih =>
    obtain ⟨t,ht,h⟩ := (and_then_ok _ _ _).mp h
    exact ih (fun b hb => hf b (List.mem_cons_of_mem a hb)) t
      (hf a List.mem_cons_self s t hs ht) h

theorem for_all_error (P : ε → Prop) {f : A → S → Result S ε} {as : List A}
    (hf : ∀ a ∈ as, ∀ s t e, f a s = (t,.error e) → P e) (s t : S) {e : ε}
    (h : forAll f as s = (t,.error e)) : P e := by
  induction as generalizing s with
  | nil => cases h
  | cons a as ih =>
    rcases (and_then_error _ _ _ _).mp h with h | ⟨r,_,h⟩
    · exact hf a List.mem_cons_self s t e h
    · exact ih (fun b hb => hf b (List.mem_cons_of_mem a hb)) r h

theorem for_all_append (f : A → S → Result S ε) (as bs : List A) (s : S) :
    forAll f (as++bs) s = andThen (forAll f as s) (forAll f bs) := by
  induction as generalizing s with
  | nil => rfl
  | cons a as ih =>
    rw [List.cons_append, forAll, forAll]
    rcases f a s with ⟨t,_ | _⟩
    · rfl
    · exact ih t

theorem along_congr (P Q : A → S → Prop) (hPQ : ∀ a s, P a s ↔ Q a s) (f : A → S → Result S ε)
    (as : List A) (s : S) : Along P f as s ↔ Along Q f as s := by
  induction as generalizing s with
  | nil => exact Iff.rfl
  | cons a as ih => exact and_congr (hPQ a s) (forall_congr' fun t => imp_congr_right fun _ => ih t)

theorem for_all_agree (f g : A → S → Result S ε) (as : List A) (h : ∀ a ∈ as, ∀ s, f a s = g a s)
    (s : S) : forAll f as s = forAll g as s := by
  induction as generalizing s with
  | nil => rfl
  | cons a as ih =>
    have ih : forAll f as = forAll g as := funext (ih (fun b hb => h b (by simp [hb])))
    rw [forAll, forAll, h a (by simp), ih]

/-- What a sequence adds to a log comes from its steps. It adds nothing exactly when
every step that succeeds adds nothing. -/
theorem for_all_appends {N : Type} (I : S → Prop) (log : S → List N) (Q : A → N → Prop)
    (f : A → S → Result S ε) (as : List A) (hI : ∀ a ∈ as, ∀ s, I s → I (f a s).1)
    (hf : ∀ a ∈ as, ∀ s, I s → ∃ ns, log (f a s).1 = log s++ns ∧ (∀ n ∈ ns, Q a n) ∧
      ((f a s).2 ≠ .ok () → ns = [])) (s : S) (hs : I s) :
    ∃ ns, log (forAll f as s).1 = log s++ns ∧ (∀ n ∈ ns, ∃ a ∈ as, Q a n) ∧
      (ns = [] ↔ Along (fun a s => ∀ t, f a s = (t,.ok ()) → log t = log s) f as s) := by
  induction as generalizing s with
  | nil => exact ⟨[],by simp [forAll, done],by simp,by simp [Along]⟩
  | cons a as ih =>
    obtain ⟨ns,hns,hQ,herr⟩ := hf a List.mem_cons_self s hs
    have hIa := hI a List.mem_cons_self s hs
    rw [forAll]
    rcases hfa : f a s with ⟨t,e | u⟩
    · rw [hfa] at hns herr
      refine ⟨ns,hns,fun n hn => ⟨a,List.mem_cons_self,hQ n hn⟩,?_⟩
      exact iff_of_true (herr (by simp)) ⟨fun t' ht => by simp [hfa] at ht,
        fun t' ht => by simp [hfa] at ht⟩
    · rw [hfa] at hns hIa
      obtain ⟨rest,hrest,hQrest,hsilent⟩ := ih (fun b hb => hI b (List.mem_cons_of_mem a hb))
        (fun b hb => hf b (List.mem_cons_of_mem a hb)) t hIa
      refine ⟨ns++rest,?_,?_,?_⟩
      · rw [andThen, hrest, hns, List.append_assoc]
      · intro n hn
        rcases List.mem_append.mp hn with hn | hn
        · exact ⟨a,List.mem_cons_self,hQ n hn⟩
        · obtain ⟨b,hb,hq⟩ := hQrest n hn
          exact ⟨b,List.mem_cons_of_mem a hb,hq⟩
      · rw [List.append_eq_nil_iff, hsilent, Along]
        have hfirst : (∀ t', f a s = (t',.ok ()) → log t' = log s) ↔ ns = [] := by
          simp [hfa, hns]
        have hlater : (∀ t', f a s = (t',.ok ()) → Along (fun a s => ∀ t, f a s = (t,.ok ()) →
            log t = log s) f as t') ↔ Along (fun a s => ∀ t, f a s = (t,.ok ()) →
            log t = log s) f as t := by
          simp [hfa]
        rw [hfirst, hlater]

end Attempt

/-! ## Two runs of a routine with failures -/

namespace TwoRuns
open Checks

variable {ε α β γ δ : Type}

def Agree (R : α → β → Prop) : Except ε α → Except ε β → Prop
  | .ok a, .ok b => R a b
  | .error _, .error _ => True
  | _, _ => False

variable {R : α → β → Prop} {x : Except ε α} {y : Except ε β}

theorem agree_bind {S : γ → δ → Prop} {f : α → Except ε γ} {g : β → Except ε δ} (h : Agree R x y)
    (hfg : ∀ a b, R a b → Agree S (f a) (g b)) : Agree S (x >>= f) (y >>= g) := by
  cases x with
  | error e =>
    cases y with
    | error e' => trivial
    | ok b => exact h.elim
  | ok a =>
    cases y with
    | error e => exact h.elim
    | ok b => exact hfg a b h

theorem agree_require {c d : Bool} {e f : ε} (h : c = d) :
    Agree (fun _ _ => True) (require c e) (require d f) := by
  subst h
  cases c <;> trivial

theorem agree_eq (x : Except ε α) : Agree Eq x x := by
  cases x <;> simp [Agree]

theorem agree_succeed (h : Agree R x y) : (∃ a, x = .ok a) ↔ ∃ b, y = .ok b := by
  cases x <;> cases y <;> simp_all [Agree]

theorem agree_exists (h : Agree R x y) {p : α → Prop} {q : β → Prop}
    (hpq : ∀ a b, R a b → (p a ↔ q b)) : (∃ a, x = .ok a ∧ p a) ↔ ∃ b, y = .ok b ∧ q b := by
  cases x with
  | error e =>
    cases y with
    | error f => simp
    | ok b => exact h.elim
  | ok a =>
    cases y with
    | error f => exact h.elim
    | ok b => simpa using hpq a b h

theorem agree_for_each {f g : α → Except ε Unit} (xs : List α)
    (h : ∀ x ∈ xs, Agree (fun _ _ => True) (f x) (g x)) :
    Agree (fun _ _ => True) (forEach f xs) (forEach g xs) := by
  induction xs with
  | nil => trivial
  | cons x xs ih =>
    apply agree_bind (h x List.mem_cons_self)
    intro _ _ _
    exact ih (fun y hy => h y (List.mem_cons_of_mem x hy))

theorem rel_cases {x : Option α} {y : Option β} (h : Option.Rel R x y) :
    x = none ∧ y = none ∨ ∃ a b, x = some a ∧ y = some b ∧ R a b := by
  cases h with
  | some h => exact Or.inr ⟨_,_,rfl,rfl,h⟩
  | none => exact Or.inl ⟨rfl,rfl⟩

end TwoRuns

/-! ## Undoing a sequence of operations -/

namespace Undo

variable {ε A S : Type}

def doAll (act : A → S → S) : List A → S → S
  | [], s => s
  | a::as, s => doAll act as (act a s)

def AllowedAll (act : A → S → S) (Allowed : A → S → Prop) : List A → S → Prop
  | [], _ => True
  | a::as, s => Allowed a s ∧ AllowedAll act Allowed as (act a s)

def undoAll (back : A → S → Except ε S) : List A → S → Except ε S
  | [], s => .ok s
  | a::as, s => back a s >>= undoAll back as

theorem undo_all_append (back : A → S → Except ε S) (as bs : List A) (s : S) :
    undoAll back (as++bs) s = undoAll back as s >>= undoAll back bs := by
  induction as generalizing s with
  | nil => rfl
  | cons a as ih =>
    simp only [List.cons_append, undoAll]
    cases back a s with
    | error e => rfl
    | ok t => exact ih t

theorem undo_all_do_all {act : A → S → S} (back : A → S → Except ε S) {Allowed : A → S → Prop}
    (hback : ∀ a s, Allowed a s → back a (act a s) = .ok s) {as : List A} (s : S)
    (h : AllowedAll act Allowed as s) : undoAll back as.reverse (doAll act as s) = .ok s := by
  induction as generalizing s with
  | nil => rfl
  | cons a as ih =>
    rw [List.reverse_cons, undo_all_append, doAll, ih (act a s) h.2]
    have hb := hback a s h.1
    simp [bind, Except.bind, undoAll, hb]

end Undo

/-! ## Loops over what is fetched -/

namespace Fetch
open Attempt

variable {β I S ε δ : Type} (fetch : List β → Option (I × List β))

def scan : ℕ → List β → List (I × List β) × List β
  | 0, s => ([],s)
  | k+1, s =>
    match fetch s with
    | none => ([],s)
    | some (i,r) => ((i,r)::(scan k r).1,(scan k r).2)

def items (s : List β) : List (I × List β) := (scan fetch s.length s).1

def remains (s : List β) : List β := (scan fetch s.length s).2

/-- `while (more) { if (!fetch) return bad; body }` -/
def loop (body : I × List β → S → Result S ε) (bad : ε) (s : List β) (st : S) : Result S ε :=
  andThen (forAll body (items fetch s) st) fun st =>
    if (remains fetch s).isEmpty then done st else fail st bad

/-- A loop whose every pass takes something off, and that fails at the end only, gets
there. -/
theorem remains_nil (hshorter : ∀ s i r, fetch s = some (i,r) → r.length < s.length)
    (hmore : ∀ b s, ∃ p, fetch (b::s) = some p) (s : List β) : remains fetch s = [] := by
  suffices h : ∀ k (s : List β), s.length ≤ k → (scan fetch k s).2 = [] from
    h s.length s (Nat.le_refl _)
  intro k
  induction k with
  | zero => exact fun s hs => List.eq_nil_of_length_eq_zero (Nat.le_zero.mp hs)
  | succ k ih =>
    intro s hs
    cases s with
    | nil =>
      cases hf : fetch [] with
      | none => rw [scan, hf]
      | some p => exact absurd (hshorter [] p.1 p.2 hf) (Nat.not_lt_zero _)
    | cons b s =>
      obtain ⟨p,hp⟩ := hmore b s
      have hlt := hshorter _ p.1 p.2 hp
      rw [scan, hp]
      exact ih p.2 (by omega)

def relabel (f : ε → δ) : Result S ε → Result S δ
  | (s,.ok u) => (s,.ok u)
  | (s,.error e) => (s,.error (f e))

section Relabel
variable (f : ε → δ)

@[simp] theorem relabel_done (s : S) : relabel f (done s) = done s := rfl

@[simp] theorem relabel_fail (s : S) (e : ε) : relabel f (fail s e) = fail s (f e) := rfl

theorem relabel_ite (c : Prop) [Decidable c] (a b : Result S ε) :
    relabel f (if c then a else b) = if c then relabel f a else relabel f b := by
  split <;> rfl

theorem relabel_and_then (r : Result S ε) (g : S → Result S ε) :
    relabel f (andThen r g) = andThen (relabel f r) fun s => relabel f (g s) := by
  rcases r with ⟨s,_ | _⟩ <;> rfl

theorem relabel_for_all {A : Type} (body : A → S → Result S ε) (body' : A → S → Result S δ)
    {as : List A} (h : ∀ a ∈ as, ∀ s, relabel f (body a s) = body' a s) (s : S) :
    relabel f (forAll body as s) = forAll body' as s := by
  induction as generalizing s with
  | nil => rfl
  | cons a as ih =>
    rw [forAll, forAll, relabel_and_then, h a List.mem_cons_self s]
    congr 1
    funext t
    exact ih (fun b hb => h b (List.mem_cons_of_mem a hb)) t

theorem relabel_loop (body : I × List β → S → Result S ε) (body' : I × List β → S → Result S δ)
    (bad : ε) {s : List β} (h : ∀ i ∈ items fetch s, ∀ st, relabel f (body i st) = body' i st)
    (st : S) : relabel f (loop fetch body bad s st) = loop fetch body' (f bad) s st := by
  rw [loop, loop, relabel_and_then, relabel_for_all f body body' h]
  congr 1
  funext t
  split <;> rfl

end Relabel

end Fetch
