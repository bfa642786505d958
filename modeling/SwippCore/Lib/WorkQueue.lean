import Mathlib.Data.List.Nodup
import Mathlib.Data.List.Infix
import Mathlib.Data.List.Perm.Subperm

/-!
# Work queues

Jobs wait for keys that are lacking. A key from the queue has every job that waits for
it tried: the job is done, and is a key of its own then, which goes to the end of the
queue, or it is refused for good, or it still lacks a key. No job is done twice, so the
queue comes to an end; by then no job that waits for a key of the queue lacks nothing,
and every job has come after the keys that it needs.
-/

set_option autoImplicit false

namespace WorkQueue

variable {K S : Type}

inductive Attempt (S : Type) where
  | done (s : S)
  | refused
  | blocked

structure Queue (K S : Type) where
  work : List K
  finished : List K
  state : S

variable (attempt : K → S → Attempt S) (dependents needs : K → List K)

def tryJob (q : Queue K S) (j : K) : Queue K S :=
  match attempt j q.state with
  | .done s => ⟨q.work++[j],q.finished++[j],s⟩
  | .refused => { q with finished := q.finished++[j] }
  | .blocked => q

def visit (q : Queue K S) (k : K) : Queue K S := (dependents k).foldl (tryJob attempt) q

def resolve : ℕ → ℕ → Queue K S → Option (Queue K S)
  | 0, _, _ => none
  | steps+1, i, q =>
    match q.work[i]? with
    | none => some q
    | some k => resolve steps (i+1) (visit attempt dependents q k)

structure Rules (jobs : List K) (has lacks : S → K → Prop) : Prop where
  blocked : ∀ j ∈ jobs, ∀ s, attempt j s = .blocked → ∃ k ∈ needs j, lacks s k
  ready : ∀ j ∈ jobs, ∀ s s', attempt j s = .done s' → ∀ k ∈ needs j, ¬ lacks s k
  fresh : ∀ j ∈ jobs, ∀ s s', attempt j s = .done s' → ¬ has s j
  has_done : ∀ j ∈ jobs, ∀ s s', attempt j s = .done s' → ∀ k, has s' k ↔ has s k ∨ k = j
  lacks_done : ∀ j ∈ jobs, ∀ s s', attempt j s = .done s' → ∀ k, k ≠ j →
    (lacks s' k ↔ lacks s k)
  waits : ∀ k, ∀ j, j ∈ dependents k ↔ j ∈ jobs ∧ k ∈ needs j

structure Grown (jobs : List K) (has lacks : S → K → Prop) (q : Queue K S) (new : List K)
    (q' : Queue K S) : Prop where
  work : q'.work = q.work++new
  kept : q.finished ⊆ q'.finished
  finished : new ⊆ q'.finished
  others : ∀ j ∈ q'.finished, j ∈ q.finished ∨ j ∈ jobs
  inside : new ⊆ jobs
  distinct : new.Nodup
  fresh : ∀ k ∈ new, ¬ has q.state k
  has_iff : ∀ k, has q'.state k ↔ has q.state k ∨ k ∈ new
  lacks_iff : ∀ k, k ∉ new → (lacks q'.state k ↔ lacks q.state k)
  ordered : ∀ before j after, new = before++j::after → ∀ k ∈ needs j,
    k ∈ before ∨ ¬ lacks q.state k

variable {attempt dependents needs}
variable {jobs : List K} {has lacks : S → K → Prop}

theorem grown_refl (q : Queue K S) : Grown needs jobs has lacks q [] q where
  work := (List.append_nil _).symm
  kept := List.Subset.refl _
  finished := List.nil_subset _
  others j hj := Or.inl hj
  inside := List.nil_subset _
  distinct := List.nodup_nil
  fresh k hk := by cases hk
  has_iff k := by simp
  lacks_iff k _ := Iff.rfl
  ordered before j after h := by simp at h

variable {q : Queue K S}

theorem grown_trans {p r : Queue K S} {new later : List K} (h : Grown needs jobs has lacks p new q)
    (h' : Grown needs jobs has lacks q later r) :
    Grown needs jobs has lacks p (new++later) r where
  work := by rw [h'.work, h.work, List.append_assoc]
  kept := List.Subset.trans h.kept h'.kept
  finished := List.append_subset.mpr ⟨List.Subset.trans h.finished h'.kept,h'.finished⟩
  others j hj := by
    rcases h'.others j hj with hj | hj
    · exact h.others j hj
    · exact Or.inr hj
  inside := List.append_subset.mpr ⟨h.inside,h'.inside⟩
  distinct := by
    refine List.nodup_append.mpr ⟨h.distinct,h'.distinct,fun a ha b hb hab => ?_⟩
    exact h'.fresh b hb ((h.has_iff b).mpr (Or.inr (hab ▸ ha)))
  fresh k hk := by
    rcases List.mem_append.mp hk with hk | hk
    · exact h.fresh k hk
    · intro hp
      exact h'.fresh k hk ((h.has_iff k).mpr (Or.inl hp))
  has_iff k := by rw [h'.has_iff, h.has_iff, List.mem_append, or_assoc]
  lacks_iff k hk := by
    rw [List.mem_append, not_or] at hk
    rw [h'.lacks_iff k hk.2, h.lacks_iff k hk.1]
  ordered before j after heq k hk := by
    rcases List.append_eq_append_iff.mp heq with ⟨mid,hb,ha⟩ | ⟨mid,hn,ha⟩
    · -- the job is done in the later part
      rcases h'.ordered mid j after ha k hk with hin | hno
      · left
        rw [hb]
        exact List.mem_append_right _ hin
      · by_cases hnew : k ∈ new
        · left
          rw [hb]
          exact List.mem_append_left _ hnew
        · exact Or.inr fun hl => hno ((h.lacks_iff k hnew).mpr hl)
    · cases mid with
      | nil =>
        rw [List.nil_append] at ha
        rw [List.append_nil] at hn
        rcases h'.ordered [] j after (by rw [← ha]; rfl) k hk with hin | hno
        · cases hin
        · by_cases hnew : k ∈ new
          · exact Or.inl (hn ▸ hnew)
          · exact Or.inr fun hl => hno ((h.lacks_iff k hnew).mpr hl)
      | cons c mid =>
        obtain ⟨rfl,_⟩ := List.cons.inj ha
        exact h.ordered before j mid hn k hk

variable (hr : Rules attempt dependents needs jobs has lacks)
include hr

theorem try_grown (q : Queue K S) {j : K} (hj : j ∈ jobs) :
    ∃ new, Grown needs jobs has lacks q new (tryJob attempt q j) := by
  cases h : attempt j q.state with
  | blocked =>
    rw [tryJob, h]
    exact ⟨[],grown_refl q⟩
  | refused =>
    rw [tryJob, h]
    refine ⟨[],{ grown_refl q with kept := ?_, finished := ?_, others := ?_ }⟩
    · exact List.subset_append_left _ _
    · exact List.nil_subset _
    · intro k hk
      rcases List.mem_append.mp hk with hk | hk
      · exact Or.inl hk
      · exact Or.inr (List.mem_singleton.mp hk ▸ hj)
  | done s =>
    rw [tryJob, h]
    refine ⟨[j],?_⟩
    constructor
    · rfl
    · exact List.subset_append_left _ _
    · exact List.subset_append_right _ _
    · intro k hk
      rcases List.mem_append.mp hk with hk | hk
      · exact Or.inl hk
      · exact Or.inr (List.mem_singleton.mp hk ▸ hj)
    · exact List.cons_subset.mpr ⟨hj,List.nil_subset _⟩
    · exact List.nodup_singleton j
    · intro k hk
      rw [List.mem_singleton.mp hk]
      exact hr.fresh j hj _ s h
    · intro k
      rw [List.mem_singleton]
      exact hr.has_done j hj _ s h k
    · intro k hk
      exact hr.lacks_done j hj _ s h k (fun hkj => hk (List.mem_singleton.mpr hkj))
    · intro before i after heq k hk
      cases before with
      | nil =>
        obtain ⟨rfl,_⟩ := List.cons.inj heq
        exact Or.inr (hr.ready j hj _ s h k hk)
      | cons b before =>
        have hlen := congrArg List.length heq
        simp at hlen

omit hr in
theorem try_finishes {j : K} (h : attempt j q.state ≠ .blocked) :
    j ∈ (tryJob attempt q j).finished := by
  unfold tryJob
  cases hj : attempt j q.state with
  | blocked => exact absurd hj h
  | refused => exact List.mem_append_right _ List.mem_cons_self
  | done s => exact List.mem_append_right _ List.mem_cons_self

/-- Every job of a list is finished by the end, or was found blocked on the way. -/
theorem tries_grown {js : List K} (hjs : js ⊆ jobs) (q : Queue K S) :
    ∃ new, Grown needs jobs has lacks q new (js.foldl (tryJob attempt) q) ∧
      ∀ j ∈ js, j ∉ (js.foldl (tryJob attempt) q).finished →
        ∃ mid pre post, Grown needs jobs has lacks q pre mid ∧
          Grown needs jobs has lacks mid post (js.foldl (tryJob attempt) q) ∧
          attempt j mid.state = .blocked := by
  induction js generalizing q with
  | nil => exact ⟨[],grown_refl q,fun j hj => absurd hj List.not_mem_nil⟩
  | cons i js ih =>
    have hi : i ∈ jobs := hjs List.mem_cons_self
    obtain ⟨pre,hpre⟩ := try_grown hr q hi
    obtain ⟨new,hnew,htried⟩ := ih (fun j hj => hjs (List.mem_cons_of_mem i hj)) (tryJob attempt q i)
    refine ⟨pre++new,grown_trans hpre hnew,?_⟩
    intro j hj hno
    rcases List.mem_cons.mp hj with rfl | hj
    · by_cases h : attempt j q.state = .blocked
      · rw [List.foldl_cons] at hno ⊢
        rw [show tryJob attempt q j = q by rw [tryJob, h]] at hnew ⊢
        exact ⟨q,[],new,grown_refl q,hnew,h⟩
      · exact absurd (hnew.kept (try_finishes h)) hno
    · obtain ⟨mid,a,b,ha,hb,h⟩ := htried j hj hno
      exact ⟨mid,pre++a,b,grown_trans hpre ha,hb,h⟩

omit hr in
/-- What a job lacks is still lacking later on, or has come to the end of the queue. -/
theorem lacks_later {q' : Queue K S} {new : List K} (h : Grown needs jobs has lacks q new q')
    {i : ℕ} (hi : i ≤ q.work.length) {j k : K} (hk : k ∈ needs j) (hl : lacks q.state k) :
    (∃ k ∈ needs j, lacks q'.state k) ∨ ∃ k ∈ needs j, k ∈ q'.work.drop i := by
  by_cases hnew : k ∈ new
  · refine Or.inr ⟨k,hk,?_⟩
    rw [h.work, List.drop_append_of_le_length hi]
    exact List.mem_append_right _ hnew
  · exact Or.inl ⟨k,hk,(h.lacks_iff k hnew).mpr hl⟩

omit hr in
/-- Every job that waits for a key up to a position is finished, or lacks a key, or waits for
one from that position on. -/
def Pending (needs : K → List K) (jobs : List K) (lacks : S → K → Prop) (i : ℕ)
    (q : Queue K S) : Prop :=
  ∀ j ∈ jobs, j ∉ q.finished → (∃ k ∈ needs j, k ∈ q.work.take i) →
    (∃ k ∈ needs j, lacks q.state k) ∨ ∃ k ∈ needs j, k ∈ q.work.drop i

theorem visit_pending {i : ℕ} {k : K} (hk : q.work[i]? = some k)
    (h : Pending needs jobs lacks i q) :
    ∃ new, Grown needs jobs has lacks q new (visit attempt dependents q k) ∧
      Pending needs jobs lacks (i+1) (visit attempt dependents q k) := by
  obtain ⟨hlt,_⟩ := List.getElem?_eq_some_iff.mp hk
  obtain ⟨new,hnew,htried⟩ := tries_grown hr
    (fun j hj => ((hr.waits k j).mp hj).1) q
  refine ⟨new,hnew,?_⟩
  intro j hj hno hwaits
  by_cases hjk : k ∈ needs j
  · obtain ⟨mid,pre,post,hpre,hpost,hblocked⟩ := htried j ((hr.waits k j).mpr ⟨hj,hjk⟩) hno
    obtain ⟨l,hl,hlack⟩ := hr.blocked j hj _ hblocked
    refine lacks_later hpost ?_ hl hlack
    rw [hpre.work, List.length_append]
    omega
  · have hsplit : (visit attempt dependents q k).work.take (i+1) = q.work.take i++[k] := by
      rw [visit, hnew.work, List.take_append_of_le_length hlt, List.take_add_one, hk]
      rfl
    have hbefore : ∃ l ∈ needs j, l ∈ q.work.take i := by
      obtain ⟨l,hl,hin⟩ := hwaits
      rw [hsplit] at hin
      rcases List.mem_append.mp hin with hin | hin
      · exact ⟨l,hl,hin⟩
      · exact absurd (List.mem_singleton.mp hin ▸ hl) hjk
    rcases h j hj (fun hin => hno (hnew.kept hin)) hbefore with ⟨l,hl,hlack⟩ | ⟨l,hl,hin⟩
    · exact lacks_later hnew hlt hl hlack
    · right
      refine ⟨l,hl,?_⟩
      rw [List.drop_eq_getElem_cons hlt] at hin
      rcases List.mem_cons.mp hin with rfl | hin
      · rw [List.getElem?_eq_getElem hlt] at hk
        exact absurd (Option.some.inj hk ▸ hl) hjk
      · rw [visit, hnew.work, List.drop_append_of_le_length hlt]
        exact List.mem_append_left _ hin

theorem resolve_ends (q₀ q : Queue K S) (new : List K) (steps i : ℕ)
    (h₀ : Grown needs jobs has lacks q₀ new q) (h : Pending needs jobs lacks i q)
    (hi : i ≤ q.work.length) (hsteps : q₀.work.length+jobs.length < steps+i) :
    ∃ q' later, resolve attempt dependents steps i q = some q' ∧
      Grown needs jobs has lacks q later q' ∧
      Pending needs jobs lacks q'.work.length q' := by
  have hbound : ∀ (r : Queue K S) (l : List K), Grown needs jobs has lacks q₀ l r →
      r.work.length ≤ q₀.work.length+jobs.length := by
    intro r l hl
    rw [hl.work, List.length_append]
    have hcard := (hl.distinct.subperm hl.inside).length_le
    omega
  induction steps generalizing i q new with
  | zero =>
    have := hbound q new h₀
    omega
  | succ steps ih =>
    rw [resolve]
    cases hk : q.work[i]? with
    | none =>
      have hend : i = q.work.length := by
        have := List.getElem?_eq_none_iff.mp hk
        omega
      exact ⟨q,[],rfl,grown_refl q,hend ▸ h⟩
    | some k =>
      obtain ⟨hlt,_⟩ := List.getElem?_eq_some_iff.mp hk
      obtain ⟨more,hmore,hpend⟩ := visit_pending hr hk h
      have hlen : i+1 ≤ (visit attempt dependents q k).work.length := by
        rw [hmore.work, List.length_append]
        omega
      obtain ⟨q',later,heq,hlater,hq'⟩ := ih (visit attempt dependents q k) (new++more) (i+1)
        (grown_trans h₀ hmore) hpend hlen (by omega)
      exact ⟨q',more++later,heq,grown_trans hmore hlater,hq'⟩

omit hr in
theorem resolve_more (steps more i : ℕ) (q q' : Queue K S)
    (h : resolve attempt dependents steps i q = some q') :
    resolve attempt dependents (steps+more) i q = some q' := by
  induction steps generalizing i q with
  | zero => cases h
  | succ steps ih =>
    rw [Nat.add_right_comm, resolve]
    rw [resolve] at h
    cases hk : q.work[i]? with
    | none =>
      rw [hk] at h
      exact h
    | some k =>
      rw [hk] at h
      exact ih (i+1) _ h

/-- From the front of a queue: the loop ends the same however many steps are left, and no job
that waits for a key of the queue then lacks nothing, unless it is finished. -/
theorem resolve_closed (q : Queue K S) :
    ∃ q' new, (∀ steps, q.work.length+jobs.length < steps →
        resolve attempt dependents steps 0 q = some q') ∧
      Grown needs jobs has lacks q new q' ∧
      ∀ j ∈ jobs, j ∉ q'.finished → (∃ k ∈ needs j, k ∈ q'.work) →
        ∃ k ∈ needs j, lacks q'.state k := by
  obtain ⟨q',new,heq,hnew,hpend⟩ := resolve_ends hr q q [] (q.work.length+jobs.length+1) 0
    (grown_refl q) (fun j _ _ ⟨_,_,hin⟩ => absurd hin (by simp)) (Nat.zero_le _) (by omega)
  refine ⟨q',new,?_,hnew,?_⟩
  · intro steps hsteps
    obtain ⟨more,rfl⟩ := Nat.exists_eq_add_of_lt hsteps
    rw [show q.work.length+jobs.length+more+1 = q.work.length+jobs.length+1+more by omega]
    exact resolve_more _ more 0 q q' heq
  · intro j hj hno hwaits
    rcases hpend j hj hno (by rwa [List.take_length]) with hlack | ⟨k,_,hin⟩
    · exact hlack
    · rw [List.drop_length] at hin
      cases hin

end WorkQueue
