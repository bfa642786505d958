import SwippCore.Lib.FinMap

/-!
# Stores and tables

A store with one pending batch, and memo tables that are never emptied.
-/

set_option autoImplicit false

/-! ## A store with one pending batch -/

@[ext]
structure Batched (S : Type) where
  committed : S
  pending : Option S

namespace Batched
variable {S : Type}

def view (db : Batched S) : S := db.pending.getD db.committed

def begin (db : Batched S) : Batched S := ⟨db.committed,some db.committed⟩

def modify (f : S → S) (db : Batched S) : Batched S :=
  match db.pending with
  | some p => ⟨db.committed,some (f p)⟩
  | none => ⟨f db.committed,none⟩

def abort (db : Batched S) : Batched S := ⟨db.committed,none⟩

def commit (ok : Bool) (db : Batched S) : Batched S :=
  if ok then ⟨db.view,none⟩ else db.abort

variable (db : Batched S)

@[simp] theorem view_begin : db.begin.view = db.committed := rfl

@[simp] theorem committed_begin : db.begin.committed = db.committed := rfl

@[simp] theorem view_modify (f : S → S) (db : Batched S) : (db.modify f).view = f db.view := by
  cases h : db.pending <;> simp [modify, view, h]

theorem committed_modify (f : S → S) {db : Batched S} (h : db.pending.isSome) :
    (db.modify f).committed = db.committed ∧ (db.modify f).pending.isSome := by
  cases hp : db.pending with
  | none => simp [hp] at h
  | some p => simp [modify, hp]

@[simp] theorem committed_abort : db.abort.committed = db.committed := rfl

@[simp] theorem pending_abort : db.abort.pending = none := rfl

@[simp] theorem pending_commit (ok : Bool) (db : Batched S) : (db.commit ok).pending = none := by
  cases ok <;> rfl

@[simp] theorem committed_commit_true : (db.commit true).committed = db.view := rfl

@[simp] theorem committed_commit_false :
    (db.commit false).committed = db.committed := rfl

end Batched

/-! ## Memo tables that are never emptied -/

namespace Memo
open FinMap

variable {Q K V : Type} [DecidableEq K] (key : Q → K) (compute : Q → Option V)

def ask (q : Q) (t : Dict K V) : Option V × Dict K V :=
  match t.lookup (key q) with
  | some v => (some v,t)
  | none =>
    match compute q with
    | none => (none,t)
    | some v => (some v,t.insert (key q) v)

def askAll : List Q → Dict K V → Dict K V
  | [], t => t
  | q::qs, t => askAll qs (ask key compute q t).2

def firstAnswer (k : K) : List Q → Option V
  | [] => none
  | q::qs => (if key q = k then compute q else none).or (firstAnswer k qs)

theorem ask_answer (q : Q) (t : Dict K V) :
    (ask key compute q t).1 = (t.lookup (key q)).or (compute q) := by
  unfold ask
  cases t.lookup (key q) with
  | some v => rfl
  | none => cases compute q <;> rfl

theorem ask_congr {P : Type} (key' : P → K) (compute' : P → Option V) {q : Q} {p : P} (t : Dict K V)
    (hk : key q = key' p) (hc : compute q = compute' p) :
    ask key compute q t = ask key' compute' p t := by
  unfold ask
  rw [hk, hc]

theorem lookup_ask (q : Q) (t : Dict K V) (k : K) :
    (ask key compute q t).2.lookup k =
      (t.lookup k).or (if key q = k then compute q else none) := by
  unfold ask
  cases ht : t.lookup (key q) with
  | some v =>
    by_cases hk : key q = k
    · rw [← hk, ht]
      rfl
    · simp [hk]
  | none =>
    cases compute q with
    | none => simp
    | some v =>
      simp only [lookup_insert_if]
      by_cases hk : k = key q
      · subst hk
        simp [ht]
      · simp [hk, Ne.symm hk]

theorem lookup_ask_all (qs : List Q) (t : Dict K V) (k : K) :
    (askAll key compute qs t).lookup k = (t.lookup k).or (firstAnswer key compute k qs) := by
  induction qs generalizing t with
  | nil => simp [askAll, firstAnswer]
  | cons q qs ih => rw [askAll, ih, lookup_ask, Option.or_assoc, firstAnswer]

theorem answer_after (qs : List Q) (q : Q) (t : Dict K V) :
    (ask key compute q (askAll key compute qs t)).1 =
      ((t.lookup (key q)).or (firstAnswer key compute (key q) qs)).or (compute q) := by
  rw [ask_answer, lookup_ask_all]

theorem first_answer_of {k : K} {qs : List Q} {v : V} (h : firstAnswer key compute k qs = some v) :
    ∃ q ∈ qs, key q = k ∧ compute q = some v := by
  induction qs with
  | nil => simp [firstAnswer] at h
  | cons q qs ih =>
    rw [firstAnswer] at h
    split_ifs at h with hk
    · cases hc : compute q with
      | some u =>
        rw [hc] at h
        exact ⟨q,List.mem_cons_self,hk,by rw [hc]; exact h⟩
      | none =>
        rw [hc] at h
        obtain ⟨r,hr,h⟩ := ih h
        exact ⟨r,List.mem_cons_of_mem q hr,h⟩
    · obtain ⟨r,hr,h⟩ := ih h
      exact ⟨r,List.mem_cons_of_mem q hr,h⟩

theorem answer_stable (qs : List Q) (q : Q) (t : Dict K V)
    (h : ∀ r ∈ qs, key r = key q → compute r = compute q) :
    (ask key compute q (askAll key compute qs t)).1 = (ask key compute q t).1 := by
  rw [answer_after, ask_answer]
  cases ht : t.lookup (key q) with
  | some v => rfl
  | none =>
    cases hf : firstAnswer key compute (key q) qs with
    | none => rfl
    | some v =>
      obtain ⟨r,hr,hk,hc⟩ := first_answer_of key compute hf
      rw [← h r hr hk, hc]
      rfl

end Memo
