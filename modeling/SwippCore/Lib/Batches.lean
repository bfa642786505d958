import Mathlib.Data.List.Basic

/-!
# Batches

Entries are gathered one after the other, and the batch is pushed when it has reached
its limit; what is left at the end makes a last, smaller one. Pushed together, the
batches are the entries in their order.
-/

set_option autoImplicit false

structure Batches (α : Type) where
  pushed : List (List α)
  pending : List α

namespace Batches
variable {α : Type}

def empty : Batches α := ⟨[],[]⟩

def add (limit : ℕ) (x : α) (b : Batches α) : Batches α :=
  if limit ≤ (b.pending++[x]).length then ⟨b.pushed++[b.pending++[x]],[]⟩
  else ⟨b.pushed,b.pending++[x]⟩

def close (b : Batches α) : List (List α) :=
  if b.pending = [] then b.pushed else b.pushed++[b.pending]

def entries (b : Batches α) : List α := b.pushed.flatten++b.pending

theorem entries_empty : (empty : Batches α).entries = [] := rfl

theorem entries_add (limit : ℕ) (x : α) (b : Batches α) :
    (b.add limit x).entries = b.entries++[x] := by
  rw [add]
  split <;> simp [entries]

theorem close_flatten (b : Batches α) : b.close.flatten = b.entries := by
  rw [close]
  split
  · rename_i h
    simp [entries, h]
  · simp [entries]

structure Bounded (limit : ℕ) (b : Batches α) : Prop where
  pushed : ∀ v ∈ b.pushed, 0 < v.length ∧ v.length ≤ limit
  pending : b.pending.length < limit

theorem bounded_empty {limit : ℕ} (h : 0 < limit) : Bounded limit (empty : Batches α) :=
  ⟨fun _ hv => absurd hv List.not_mem_nil,h⟩

theorem bounded_add {limit : ℕ} (x : α) {b : Batches α} (h : Bounded limit b) :
    Bounded limit (b.add limit x) := by
  have hp := h.pending
  have hl : (b.pending++[x]).length = b.pending.length+1 := by simp
  rw [add]
  split
  · refine ⟨?_,by simp only [List.length_nil]; omega⟩
    intro v hv
    rcases List.mem_append.mp hv with hv | hv
    · exact h.pushed v hv
    · rw [List.mem_singleton.mp hv]
      omega
  · refine ⟨h.pushed,?_⟩
    show (b.pending++[x]).length < limit
    omega

theorem bounded_close {limit : ℕ} {b : Batches α} (h : Bounded limit b) {v : List α}
    (hv : v ∈ b.close) : 0 < v.length ∧ v.length ≤ limit := by
  rw [close] at hv
  split at hv
  · exact h.pushed v hv
  · rename_i hne
    rcases List.mem_append.mp hv with hv | hv
    · exact h.pushed v hv
    · rw [List.mem_singleton.mp hv]
      exact ⟨List.length_pos_iff.mpr hne,Nat.le_of_lt h.pending⟩

end Batches
