import Mathlib.Data.List.Sublists

/-!
# Stretches

How much of a list goes by, entry by entry, while another list is read once. Whoever
compares the entry at hand with every word, and moves on where they are equal, passes
the longest stretch whose keys come in the words in this order.
-/

set_option autoImplicit false

namespace Stretches

variable {A B : Type} (key : A → B)

structure Stretch (words : List B) (stretch rest : List A) : Prop where
  comes : (stretch.map key).Sublist words
  longest : ∀ a as, rest = a::as → ¬ ((stretch++[a]).map key).Sublist words

variable {key}

theorem stretch_nil (xs : List A) : Stretch key [] [] xs := by
  constructor
  · exact List.Sublist.refl []
  · intro a as _ h
    simp at h

variable {words : List B}

theorem stretch_skip {w : B} {stretch rest : List A} (h : Stretch key words stretch rest)
    (hw : ∀ a as, stretch++rest = a::as → key a ≠ w) : Stretch key (w::words) stretch rest := by
  constructor
  · exact h.comes.cons w
  · intro a as hrest hs
    apply h.longest a as hrest
    cases stretch with
    | nil =>
      rcases List.sublist_cons_iff.mp hs with hs | ⟨r,hr,_⟩
      · exact hs
      · exact absurd (List.cons.inj hr).1 (hw a as hrest)
    | cons b bs =>
      rcases List.sublist_cons_iff.mp hs with hs | ⟨r,hr,_⟩
      · exact hs
      · exact absurd (List.cons.inj hr).1 (hw b _ rfl)

theorem stretch_cons {a : A} {stretch rest : List A} (h : Stretch key words stretch rest) :
    Stretch key (key a::words) (a::stretch) rest := by
  constructor
  · exact h.comes.cons_cons (key a)
  · intro b bs hrest hs
    exact h.longest b bs hrest (List.cons_sublist_cons.mp hs)

theorem stretch_unique {s t u v : List A} (hs : Stretch key words s t) (hu : Stretch key words u v)
    (h : s++t = u++v) : s = u ∧ t = v := by
  have hle : ∀ {s t u v : List A}, Stretch key words s t → Stretch key words u v → s++t = u++v →
      u.length ≤ s.length := by
    intro s t u v hs hu h
    by_contra hlt
    obtain ⟨w,rfl⟩ := List.prefix_of_prefix_length_le (List.prefix_append s t)
      (h ▸ List.prefix_append u v) (by omega)
    cases w with
    | nil => simp at hlt
    | cons a as =>
      have ht : t = a::(as++v) := by simpa using h
      apply hs.longest a _ ht
      refine List.Sublist.trans ?_ hu.comes
      rw [show s++a::as = (s++[a])++as by simp]
      exact ((List.prefix_append (s++[a]) as).map key).sublist
  have hlen : s.length = u.length := Nat.le_antisymm (hle hu hs h.symm) (hle hs hu h)
  exact List.append_inj h hlen

end Stretches
