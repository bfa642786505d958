import SwippCore.Lib.Histories

/-!
# Lock orders

The deadlock detection of sync.cpp. Each thread has the stack of its locks, and all threads
share the map of the pairs that were taken one inside the other. Each event holds the mutex
of the map, so a run is a sequence of events of any threads.
-/

set_option autoImplicit false

namespace SwippCore.LockOrder
open Histories

abbrev LockStack (Mutex Loc : Type) := List (Mutex × Loc)

/-- The globals of sync.cpp, and the calls of `potential_deadlock_detected`. -/
structure Detector (Thread Mutex Loc : Type) where
  lockorders : Mutex × Mutex → Option (LockStack Mutex Loc)
  lockstack : Thread → LockStack Mutex Loc
  reports : List ((Mutex × Mutex) × LockStack Mutex Loc × LockStack Mutex Loc)

variable {Thread Mutex Loc : Type} [DecidableEq Mutex]

/-- The loop of `push_lock` over the stack. -/
def scan (c : Mutex) (lockstack : LockStack Mutex Loc) :
    LockStack Mutex Loc → Detector Thread Mutex Loc → Detector Thread Mutex Loc
  | [], s => s
  | i::is, s =>
    if i.1 = c then s
    else if (s.lockorders (i.1,c)).isSome then scan c lockstack is s
    else
      let s := { s with lockorders := Function.update s.lockorders (i.1,c) (some lockstack) }
      match s.lockorders (c,i.1) with
      | some other => { s with reports := s.reports++[((i.1,c),other,lockstack)] }
      | none => scan c lockstack is s

def ahead (c : Mutex) : LockStack Mutex Loc → List Mutex
  | [] => []
  | i::is => if i.1 = c then [] else i.1::ahead c is

theorem ahead_snoc (c : Mutex) (l : Loc) (is : LockStack Mutex Loc) :
    ahead c (is++[(c,l)]) = ahead c is := by
  induction is with
  | nil => simp [ahead]
  | cons i is ih => rw [List.cons_append, ahead, ahead, ih]

section Scan
variable (c : Mutex) (lockstack : LockStack Mutex Loc)

def NoPair (s : Detector Thread Mutex Loc) : Prop :=
  ∀ a b, (s.lockorders (a,b)).isSome → s.lockorders (b,a) = none

theorem scan_reports (is : LockStack Mutex Loc) (s : Detector Thread Mutex Loc) :
    s.reports <+: (scan c lockstack is s).reports := by
  induction is generalizing s with
  | nil => exact List.prefix_refl _
  | cons i is ih =>
    rw [scan]
    split_ifs
    · exact List.prefix_refl _
    · exact ih s
    · dsimp only
      split
      · exact List.prefix_append _ _
      · exact ih { s with lockorders := Function.update s.lockorders (i.1,c) (some lockstack) }

theorem update_isSome (s : Detector Thread Mutex Loc) (p q : Mutex × Mutex) :
    (Function.update s.lockorders p (some lockstack) q).isSome ↔ q = p ∨ (s.lockorders q).isSome := by
  rw [Function.update_apply]
  split_ifs with h <;> simp [h]

theorem scan_recorded {is : LockStack Mutex Loc} (s : Detector Thread Mutex Loc) {p : Mutex × Mutex}
    (h : ((scan c lockstack is s).lockorders p).isSome) :
    (s.lockorders p).isSome ∨ ∃ a ∈ ahead c is, p = (a,c) := by
  induction is generalizing s with
  | nil => exact Or.inl h
  | cons i is ih =>
    rw [scan] at h
    rw [ahead]
    split_ifs at h ⊢ with hc hold
    · exact Or.inl h
    · refine (ih s h).imp_right ?_
      rintro ⟨a,ha,hp⟩
      exact ⟨a,List.mem_cons_of_mem _ ha,hp⟩
    · have hnew : (Function.update s.lockorders (i.1,c) (some lockstack) p).isSome →
          (s.lockorders p).isSome ∨ ∃ a ∈ i.1::ahead c is, p = (a,c) := by
        rw [update_isSome]
        rintro (hp | hp)
        · exact Or.inr ⟨i.1,List.mem_cons_self,hp⟩
        · exact Or.inl hp
      dsimp only at h
      split at h
      · exact hnew h
      · rcases ih _ h with hp | ⟨a,ha,hp⟩
        · exact hnew hp
        · exact Or.inr ⟨a,List.mem_cons_of_mem _ ha,hp⟩

/-- The loop ends quietly with all pairs of the stack recorded, or it meets a pair that is
there in the other order. -/
theorem scan_spec (is : LockStack Mutex Loc) (s : Detector Thread Mutex Loc) (hs : NoPair s) :
    let s' := scan c lockstack is s
    (s'.reports = s.reports ∧ NoPair s' ∧ (∀ p, (s.lockorders p).isSome → (s'.lockorders p).isSome) ∧
      ∀ a ∈ ahead c is, (s'.lockorders (a,c)).isSome) ∨
    s'.reports ≠ [] ∧ ∃ a ∈ ahead c is, (s.lockorders (c,a)).isSome := by
  induction is generalizing s with
  | nil => exact Or.inl ⟨rfl,hs,fun _ h => h,fun a ha => absurd ha List.not_mem_nil⟩
  | cons i is ih =>
    dsimp only
    rw [scan, ahead]
    split_ifs with hc hold
    · exact Or.inl ⟨rfl,hs,fun _ h => h,fun a ha => absurd ha List.not_mem_nil⟩
    · refine (ih s hs).imp ?_ ?_
      · rintro ⟨hr,hn,hmono,hall⟩
        refine ⟨hr,hn,hmono,?_⟩
        intro a ha
        rcases List.mem_cons.mp ha with rfl | ha
        · exact hmono _ hold
        · exact hall a ha
      · rintro ⟨hr,a,ha,hca⟩
        exact ⟨hr,a,List.mem_cons_of_mem _ ha,hca⟩
    · have hne : (c,i.1) ≠ (i.1,c) := fun h => hc (congrArg Prod.snd h)
      dsimp only
      rw [Function.update_of_ne hne]
      cases hother : s.lockorders (c,i.1) with
      | some other => exact Or.inr ⟨by simp,i.1,List.mem_cons_self,by rw [hother]; rfl⟩
      | none =>
        let lockorders := Function.update s.lockorders (i.1,c) (some lockstack)
        have hs1 : NoPair ({ s with lockorders := lockorders } : Detector Thread Mutex Loc) := by
          intro a b hab
          rcases (update_isSome lockstack s _ _).mp hab with hnew | hbefore
          · obtain ⟨rfl,rfl⟩ := Prod.mk.inj hnew
            exact (Function.update_of_ne hne _ _).trans hother
          · have hba : (b,a) ≠ (i.1,c) := by
              intro h
              obtain ⟨rfl,rfl⟩ := Prod.mk.inj h
              rw [hother] at hbefore
              cases hbefore
            exact (Function.update_of_ne hba _ _).trans (hs a b hbefore)
        refine (ih _ hs1).imp ?_ ?_
        · rintro ⟨hr,hn,hmono,hall⟩
          refine ⟨hr,hn,fun p hp => hmono p ((update_isSome lockstack s _ _).mpr (Or.inr hp)),?_⟩
          intro a ha
          rcases List.mem_cons.mp ha with rfl | ha
          · exact hmono _ ((update_isSome lockstack s _ _).mpr (Or.inl rfl))
          · exact hall a ha
        · rintro ⟨hr,a,ha,hca⟩
          refine ⟨hr,a,List.mem_cons_of_mem _ ha,?_⟩
          rcases (update_isSome lockstack s _ _).mp hca with h | h
          · exact absurd (congrArg Prod.fst h).symm hc
          · exact h

end Scan

section Runs
variable [DecidableEq Thread]

inductive Event (Thread Mutex Loc : Type) where
  | push (t : Thread) (c : Mutex) (locklocation : Loc) (fTry : Bool)
  | pop (t : Thread)

/-- `push_lock` and `pop_lock` -/
def step (s : Detector Thread Mutex Loc) : Event Thread Mutex Loc → Detector Thread Mutex Loc
  | .push t c locklocation fTry =>
    let lockstack := s.lockstack t++[(c,locklocation)]
    let s := { s with lockstack := Function.update s.lockstack t lockstack }
    if fTry then s else scan c lockstack lockstack s
  | .pop t => { s with lockstack := Function.update s.lockstack t (s.lockstack t).dropLast }

def run (es : List (Event Thread Mutex Loc)) : Detector Thread Mutex Loc :=
  es.foldl step ⟨fun _ => none,fun _ => [],[]⟩

def Taken (es : List (Event Thread Mutex Loc)) (a c : Mutex) : Prop :=
  ∃ before t l, before++[.push t c l false] <+: es ∧ a ∈ ahead c ((run before).lockstack t)

section
variable (es : List (Event Thread Mutex Loc)) (e : Event Thread Mutex Loc)

theorem run_snoc :
    run (es++[e]) = step (run es) e := by
  rw [run, List.foldl_append]
  rfl

theorem taken_snoc (a c : Mutex) :
    Taken (es++[e]) a c ↔ Taken es a c ∨
      ∃ t l, e = .push t c l false ∧ a ∈ ahead c ((run es).lockstack t) := by
  constructor
  · rintro ⟨before,t,l,hes,ha⟩
    rcases (prefix_concat _ es e).mp hes with hes | heq
    · exact Or.inl ⟨before,t,l,hes,ha⟩
    · obtain ⟨rfl,he⟩ := List.append_inj' heq rfl
      exact Or.inr ⟨t,l,(List.head_eq_of_cons_eq he).symm,ha⟩
  · rintro (⟨before,t,l,hes,ha⟩ | ⟨t,l,rfl,ha⟩)
    · exact ⟨before,t,l,hes.trans (List.prefix_append es [e]),ha⟩
    · exact ⟨es,t,l,List.prefix_refl _,ha⟩

end

/-- What the detector knows: only pairs that were taken are recorded. If nothing was reported
they are all recorded, and none in both orders; a report is right. -/
structure Knows (es : List (Event Thread Mutex Loc)) (s : Detector Thread Mutex Loc) : Prop where
  recorded : ∀ a c, (s.lockorders (a,c)).isSome → Taken es a c
  quiet : s.reports = [] → NoPair s ∧ ∀ a c, Taken es a c → (s.lockorders (a,c)).isSome
  right : s.reports ≠ [] → ∃ a c, Taken es a c ∧ Taken es c a

theorem knows_quiet_step {es : List (Event Thread Mutex Loc)} {s s' : Detector Thread Mutex Loc}
    {e : Event Thread Mutex Loc} (hk : Knows es s) (hrec : s'.lockorders = s.lockorders)
    (hrep : s'.reports = s.reports) (htaken : ∀ a c, Taken (es++[e]) a c ↔ Taken es a c) :
    Knows (es++[e]) s' := by
  have hs' : s' = ⟨s.lockorders,s'.lockstack,s.reports⟩ := by rw [← hrec, ← hrep]
  rw [hs']
  constructor
  · intro a c h
    exact (htaken a c).mpr (hk.recorded a c h)
  · intro h
    obtain ⟨hno,hall⟩ := hk.quiet h
    exact ⟨hno,fun a c ha => hall a c ((htaken a c).mp ha)⟩
  · intro h
    obtain ⟨a,c,hac,hca⟩ := hk.right h
    exact ⟨a,c,(htaken a c).mpr hac,(htaken c a).mpr hca⟩

theorem knows_push {es : List (Event Thread Mutex Loc)} (hk : Knows es (run es)) (t : Thread)
    (c : Mutex) (l : Loc) : Knows (es++[.push t c l false]) (run (es++[.push t c l false])) := by
  have htaken : ∀ a b, Taken (es++[.push t c l false]) a b ↔
      Taken es a b ∨ b = c ∧ a ∈ ahead c ((run es).lockstack t) := by
    intro a b
    rw [taken_snoc]
    refine or_congr_right ⟨?_,?_⟩
    · rintro ⟨t',l',he,ha⟩
      cases he
      exact ⟨rfl,ha⟩
    · rintro ⟨rfl,ha⟩
      exact ⟨t,l,rfl,ha⟩
  rw [run_snoc]
  generalize run es = s at hk htaken ⊢
  let lockstack := s.lockstack t++[(c,l)]
  let s0 := { s with lockstack := Function.update s.lockstack t lockstack }
  change Knows _ (scan c lockstack lockstack s0)
  have hahead : ahead c lockstack = ahead c (s.lockstack t) := ahead_snoc c l (s.lockstack t)
  have hmade : ∀ {a}, a ∈ ahead c lockstack → Taken (es++[.push t c l false]) a c := by
    intro a ha
    rw [hahead] at ha
    exact (htaken a c).mpr (Or.inr ⟨rfl,ha⟩)
  have hold : ∀ {a b}, Taken es a b → Taken (es++[.push t c l false]) a b :=
    fun h => (htaken _ _).mpr (Or.inl h)
  refine ⟨?_,?_,?_⟩
  · intro a b h
    rcases scan_recorded c lockstack s0 h with h | ⟨a',ha,hp⟩
    · exact hold (hk.recorded a b h)
    · obtain ⟨rfl,rfl⟩ := Prod.mk.inj hp
      exact hmade ha
  · intro h
    have hs : s.reports = [] := List.prefix_nil.mp (h ▸ scan_reports c lockstack lockstack s0)
    obtain ⟨hno,hall⟩ := hk.quiet hs
    rcases scan_spec c lockstack lockstack s0 hno with ⟨-,hno',hmono,hnew⟩ | ⟨hr,-⟩
    · refine ⟨hno',?_⟩
      intro a b hab
      rcases (htaken a b).mp hab with hab | ⟨rfl,ha⟩
      · exact hmono _ (hall a b hab)
      · exact hnew a (hahead ▸ ha)
    · exact absurd h hr
  · intro h
    by_cases hs : s.reports = []
    · rcases scan_spec c lockstack lockstack s0 (hk.quiet hs).1 with
        ⟨hr,-⟩ | ⟨-,a,ha,hca⟩
      · exact absurd (hr.trans hs) h
      · exact ⟨a,c,hmade ha,hold (hk.recorded c a hca)⟩
    · obtain ⟨a,b,hab,hba⟩ := hk.right hs
      exact ⟨a,b,hold hab,hold hba⟩

theorem knows_run (es : List (Event Thread Mutex Loc)) : Knows es (run es) := by
  induction es using List.reverseRecOn with
  | nil =>
    refine ⟨fun _ _ h => absurd h Bool.false_ne_true,fun _ => ⟨fun _ _ _ => rfl,?_⟩,
      fun h => absurd rfl h⟩
    rintro a c ⟨before,t,l,hes,-⟩
    exact absurd hes (by simp)
  | append_singleton es e ih =>
    have hquiet : (∀ t c l, e ≠ .push t c l false) → ∀ a c, Taken (es++[e]) a c ↔ Taken es a c := by
      intro he a c
      rw [taken_snoc]
      exact or_iff_left (fun ⟨t,l,heq,_⟩ => he t c l heq)
    cases e with
    | push t c l fTry =>
      cases fTry with
      | false => exact knows_push ih t c l
      | true =>
        rw [run_snoc]
        exact knows_quiet_step ih rfl rfl (hquiet (by simp))
    | pop t =>
      rw [run_snoc]
      exact knows_quiet_step ih rfl rfl (hquiet (by simp))

/-- The detector complains if and only if two mutexes were ever waited for in both orders,
whatever threads did so and whatever was in between. -/
theorem detects_inversions (es : List (Event Thread Mutex Loc)) :
    (run es).reports ≠ [] ↔ ∃ a c, Taken es a c ∧ Taken es c a := by
  have hk := knows_run es
  constructor
  · exact hk.right
  · rintro ⟨a,c,hac,hca⟩ h
    obtain ⟨hno,hall⟩ := hk.quiet h
    have := hall c a hca
    rw [hno a c (hall a c hac)] at this
    cases this

end Runs

end SwippCore.LockOrder
