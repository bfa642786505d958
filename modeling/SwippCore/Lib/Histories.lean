import Mathlib.Data.List.Infix

/-!
# Histories

Runs that are judged against what they were given, or step by step.
-/

set_option autoImplicit false

/-! ## Runs that are judged against what they were given -/

namespace Histories

variable {S M : Type} (step : M → S → S)

def deliver : List M → S → S
  | [], s => s
  | m::ms, s => deliver ms (step m s)

theorem deliver_append (ms ns : List M) (s : S) :
    deliver step (ms++ns) s = deliver step ns (deliver step ms s) := by
  induction ms generalizing s with
  | nil => rfl
  | cons m ms ih => exact ih (step m s)

theorem deliver_concat (ms : List M) (m : M) (s : S) :
    deliver step (ms++[m]) s = step m (deliver step ms s) :=
  deliver_append step ms [m] s

def Throughout (P : List M → S → Prop) (ms : List M) (s : S) : Prop :=
  ∀ pre, pre <+: ms → P pre (deliver step pre s)

def Each (C : List M → M → Prop) (ms : List M) : Prop :=
  ∀ pre m, pre++[m] <+: ms → C pre m

theorem prefix_concat (pre ms : List M) (m : M) :
    pre <+: ms++[m] ↔ pre <+: ms ∨ pre = ms++[m] := by
  rw [List.prefix_concat_iff, or_comm]

theorem throughout_concat (P : List M → S → Prop) (ms : List M) (m : M) (s : S) :
    Throughout step P (ms++[m]) s ↔
      Throughout step P ms s ∧ P (ms++[m]) (deliver step (ms++[m]) s) := by
  constructor
  · intro h
    refine ⟨fun pre hpre => h pre (hpre.trans (List.prefix_append ms [m])),?_⟩
    exact h _ (List.prefix_refl _)
  · intro h pre hpre
    rcases (prefix_concat pre ms m).mp hpre with hpre | rfl
    · exact h.1 pre hpre
    · exact h.2

theorem each_concat (C : List M → M → Prop) (ms : List M) (m : M) :
    Each C (ms++[m]) ↔ Each C ms ∧ C ms m := by
  constructor
  · intro h
    refine ⟨fun pre x hpre => h pre x (hpre.trans (List.prefix_append ms [m])),?_⟩
    exact h ms m (List.prefix_refl _)
  · intro h pre x hpre
    rcases (prefix_concat (pre++[x]) ms m).mp hpre with hpre | heq
    · exact h.1 pre x hpre
    · obtain ⟨rfl,hx⟩ := List.append_inj' heq rfl
      cases hx
      exact h.2

theorem throughout_last {P : List M → S → Prop} {ms : List M} {s : S} (h : Throughout step P ms s) :
    P ms (deliver step ms s) := h ms (List.prefix_refl ms)

theorem throughout_iff {P : List M → S → Prop} (C : List M → M → Prop) {s : S} (hnil : P [] s)
    (hstep : ∀ ms m, Throughout step P ms s → (P (ms++[m]) (step m (deliver step ms s)) ↔ C ms m))
    (ms : List M) : Throughout step P ms s ↔ Each C ms := by
  induction ms using List.reverseRecOn with
  | nil =>
    constructor
    · intro _ pre m hpre
      exact absurd (List.prefix_nil.mp hpre) (by simp)
    · intro _ pre hpre
      rw [List.prefix_nil.mp hpre]
      exact hnil
  | append_singleton ms m ih =>
    rw [throughout_concat, each_concat, ih, deliver_concat]
    exact and_congr_right (fun h => hstep ms m (ih.mpr h))

def Along (ok : S → M → Prop) : List M → S → Prop
  | [], _ => True
  | m::ms, s => ok s m ∧ Along ok ms (step m s)

def decideAlong (ok : S → M → Prop) [∀ s m, Decidable (ok s m)] :
    ∀ ms s, Decidable (Along step ok ms s)
  | [], _ => .isTrue trivial
  | m::ms, s =>
    have := decideAlong ok ms (step m s)
    inferInstanceAs (Decidable (ok s m ∧ Along step ok ms (step m s)))

instance (ok : S → M → Prop) [∀ s m, Decidable (ok s m)] (ms : List M) (s : S) :
    Decidable (Along step ok ms s) := decideAlong step ok ms s

variable (I : S → Prop)

/-- An invariant that a step keeps under a condition on the message and the state holds
throughout a delivery whose messages all meet it. -/
theorem throughout_of_along {ok : S → M → Prop} (hstep : ∀ m s, I s → ok s m → I (step m s))
    {ms : List M} (s : S) (hs : I s) (h : Along step ok ms s) :
    Throughout step (fun _ t => I t) ms s := by
  induction ms generalizing s with
  | nil =>
    intro pre hpre
    rw [List.prefix_nil.mp hpre]
    exact hs
  | cons m ms ih =>
    have hrest := ih (step m s) (hstep m s hs h.1) h.2
    intro pre hpre
    cases pre with
    | nil => exact hs
    | cons a pre =>
      obtain ⟨rfl,htail⟩ := List.cons_prefix_cons.mp hpre
      exact hrest pre htail

/-- Under an invariant of the step two conditions that come to the same in every state come to
the same all along. -/
theorem along_congr (ok ok' : S → M → Prop) (hstep : ∀ m s, I s → I (step m s))
    (h : ∀ m s, I s → (ok s m ↔ ok' s m)) (ms : List M) (s : S) (hs : I s) :
    Along step ok ms s ↔ Along step ok' ms s := by
  induction ms generalizing s with
  | nil => exact Iff.rfl
  | cons m ms ih => exact and_congr (h m s hs) (ih (step m s) (hstep m s hs))

theorem deliver_invariant (hstep : ∀ m s, I s → I (step m s)) (ms : List M) (s : S) (h : I s) :
    I (deliver step ms s) := by
  induction ms generalizing s with
  | nil => exact h
  | cons m ms ih => exact ih (step m s) (hstep m s h)

end Histories

/-! ## Where the members of a state come from -/

namespace Origins
open Histories

variable {S M K : Type} (step : M → S → S) (start : S) (has : S → K → Prop)

structure Since (pre : List M) (m : M) (post : List M) (k : K) : Prop where
  absent : ¬ has (deliver step pre start) k
  stays : ∀ q, q <+: post → has (deliver step (pre++m::q) start) k

def Sourced (good : M → K → Prop) (ms : List M) (s : S) : Prop :=
  ∀ k, has s k → ∃ pre m post, ms = pre++m::post ∧ Since step start has pre m post k ∧ good m k

def Brings (good : M → K → Prop) (pre : List M) (m : M) : Prop :=
  ∀ k, ¬ has (deliver step pre start) k → has (step m (deliver step pre start)) k → good m k

variable {step start has}

theorem since_concat {pre post : List M} {m c : M} {k : K} (h : Since step start has pre m post k)
    (hc : has (deliver step (pre++m::(post++[c])) start) k) :
    Since step start has pre m (post++[c]) k := by
  refine ⟨h.absent,fun q hq => ?_⟩
  rcases (prefix_concat q post c).mp hq with hq | rfl
  · exact h.stays q hq
  · exact hc

theorem since_last {pre ms post : List M} {m c : M} {k : K} (h : Since step start has pre m post k)
    (he : ms++[c] = pre++m::post) (hnew : ¬ has (deliver step ms start) k) :
    pre = ms ∧ m = c := by
  rcases List.eq_nil_or_concat post with rfl | ⟨init,d,rfl⟩
  · obtain ⟨hp,hm⟩ := List.append_inj' he rfl
    exact ⟨hp.symm,(List.singleton_inj.mp hm).symm⟩
  · have hcut : ms = pre++m::init := by
      rw [List.concat_eq_append, ← List.cons_append, ← List.append_assoc] at he
      exact (List.append_inj' he rfl).1
    rw [List.concat_eq_append] at h
    exact absurd (hcut ▸ h.stays init (List.prefix_append init [d])) hnew

theorem sourced_step {good : M → K → Prop} {ms : List M} (m : M)
    (h : Sourced step start has good ms (deliver step ms start)) :
    Sourced step start has good (ms++[m]) (step m (deliver step ms start)) ↔
      Brings step start has good ms m := by
  constructor
  · intro hs k hnew hk
    obtain ⟨pre,c,post,he,hsince,hgood⟩ := hs k hk
    rw [← (since_last hsince he hnew).2]
    exact hgood
  · intro hb k hk
    by_cases hold : has (deliver step ms start) k
    · obtain ⟨pre,c,post,rfl,hsince,hgood⟩ := h k hold
      refine ⟨pre,c,post++[m],by simp,since_concat hsince ?_,hgood⟩
      rw [show pre++c::(post++[m]) = (pre++c::post)++[m] by simp, deliver_concat]
      exact hk
    · refine ⟨ms,m,[],rfl,⟨hold,fun q hq => ?_⟩,hb k hold hk⟩
      rw [List.prefix_nil.mp hq, deliver_concat]
      exact hk

/-- The rule: all members are sourced throughout when each message is good for what it
brings in, and only then. -/
theorem sourced_iff (good : M → K → Prop) (h0 : ∀ k, ¬ has start k) (ms : List M) :
    Throughout step (Sourced step start has good) ms start ↔ Each (Brings step start has good) ms :=
  throughout_iff step _ (fun k hk => absurd hk (h0 k))
    (fun _ m h => sourced_step m (throughout_last _ h)) ms

end Origins

/-! ## Runs that are judged step by step -/

namespace Judged

variable {S M R : Type} (step : M → S → Option (R × S))

def AllOk (ok : M → S → Prop) : List M → S → Prop
  | [], _ => True
  | m::ms, s => ok m s ∧ ∀ r s', step m s = some (r,s') → AllOk ok ms s'

def AllGood (good : M → S → R → S → Prop) : List M → S → Prop
  | [], _ => True
  | m::ms, s => ∀ r s', step m s = some (r,s') → good m s r s' ∧ AllGood good ms s'

theorem good_of_ok {ok : M → S → Prop} (good : M → S → R → S → Prop) (I : S → Prop)
    (hstep : ∀ m s r s', I s → ok m s → step m s = some (r,s') → good m s r s' ∧ I s') {ms : List M}
    (s : S) (hs : I s) (hok : AllOk step ok ms s) : AllGood step good ms s := by
  induction ms generalizing s with
  | nil => trivial
  | cons m ms ih =>
    intro r s' hm
    obtain ⟨hgood,hs'⟩ := hstep m s r s' hs hok.1 hm
    exact ⟨hgood,ih s' hs' (hok.2 r s' hm)⟩

def run : List M → S → Option S
  | [], s => some s
  | m::ms, s => (step m s).bind fun x => run ms x.2

theorem good_reached {good : M → S → R → S → Prop} {ms : List M} {m : M} (s : S) {s₁ s₂ : S} {r : R}
    (h : AllGood step good (ms++[m]) s) (hs : run step ms s = some s₁)
    (hm : step m s₁ = some (r,s₂)) : good m s₁ r s₂ := by
  induction ms generalizing s with
  | nil =>
    cases hs
    exact (h r s₂ hm).1
  | cons x xs ih =>
    obtain ⟨y,hy,hrun⟩ := Option.bind_eq_some_iff.mp hs
    exact ih y.2 (h y.1 y.2 hy).2 hrun

theorem all_ok_cons {ok : M → S → Prop} {m : M} {ms : List M} (s s₁ : S) (r : R) (hok : ok m s)
    (hm : step m s = some (r,s₁)) (h : AllOk step ok ms s₁) : AllOk step ok (m::ms) s := by
  refine ⟨hok,?_⟩
  intro r' s' hs'
  rw [hm] at hs'
  rw [← (Prod.mk.inj (Option.some.inj hs')).2]
  exact h

end Judged
