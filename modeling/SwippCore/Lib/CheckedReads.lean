import SwippCore.Lib.Checks

/-!
# Reads inside a buffer

A routine that reads a buffer by position and refuses what it does not like. A read behind
the end is a fault of its own, so that a routine without it never leaves the buffer.
-/

set_option autoImplicit false

namespace CheckedReads

variable {ε α β γ : Type}

inductive Fault (ε : Type) where
  | outside
  | refused (e : ε)
deriving DecidableEq

abbrev Run (ε α : Type) := Except (Fault ε) α

def readAt (v : List β) (i : ℕ) : Run ε β :=
  match v[i]? with
  | some b => .ok b
  | none => .error .outside

def refuse (c : Prop) [Decidable c] (e : ε) : Run ε Unit :=
  if c then .error (.refused e) else .ok ()

def Inside (m : Run ε α) : Prop := m ≠ .error .outside

theorem inside_ok (a : α) : Inside (.ok a : Run ε α) := by
  intro h
  cases h

theorem inside_refused (e : ε) : Inside (.error (.refused e) : Run ε α) := by
  intro h
  cases h

section Refusal

variable {c : Prop} [Decidable c] {e : ε}

theorem inside_refuse : Inside (refuse c e) := by
  unfold refuse
  split_ifs
  · exact inside_refused e
  · exact inside_ok ()

theorem inside_refuse_bind {f : Unit → Run ε α} (hf : ¬c → Inside (f ())) :
    Inside (refuse c e >>= f) := by
  unfold refuse
  split_ifs with h
  · exact inside_refused e
  · exact hf h

theorem refuse_ok (u : Unit) : (refuse c e : Run ε Unit) = .ok u ↔ ¬c := by
  unfold refuse
  split_ifs with h <;> simp [h]

theorem refuse_bind_ok {f : Unit → Run ε α} {a : α} :
    refuse c e >>= f = .ok a ↔ ¬c ∧ f () = .ok a := by
  rw [Checks.then_ok, refuse_ok]

end Refusal

theorem inside_bind {m : Run ε α} {f : α → Run ε β} (hm : Inside m) (hf : ∀ a, Inside (f a)) :
    Inside (m >>= f) := by
  cases m with
  | error x =>
    cases x with
    | outside => exact absurd rfl hm
    | refused e => exact inside_refused e
  | ok a => exact hf a

theorem read_bind {v : List β} {i : ℕ} (h : i < v.length) (d : β) (f : β → Run ε γ) :
    readAt v i >>= f = f (v.getD i d) := by
  rw [readAt, List.getD_eq_getElem?_getD, List.getElem?_eq_getElem h]
  rfl

end CheckedReads
