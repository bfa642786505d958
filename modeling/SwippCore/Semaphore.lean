import SwippCore.Primitives

/-!
# Semaphores and grants

`CSemaphore` and `CSemaphoreGrant` of sync.h, which bound the outbound connections. A step of a
thread goes up to the end of a locked section or up to where it waits; the state of a grant, which
only one thread works with, changes with the value.
-/

set_option autoImplicit false

namespace SwippCore.Semaphore

/-- What a thread is in: `Acquire` of a grant, waiting or woken, or `post` before `notify_one`. -/
inductive Pc where
  | running
  | waiting (g : ℕ)
  | awake (g : ℕ)
  | posting
  deriving DecidableEq

def Pc.waits : Pc → Bool
  | waiting _ => true
  | _ => false

def Pc.wakes : Pc → Bool
  | awake _ => true
  | posting => true
  | _ => false

/-- `null` has no semaphore, `held` has `fHaveGrant`, and `acquiring` is inside `Acquire`. -/
inductive Grant where
  | null
  | ready
  | acquiring
  | held
  deriving DecidableEq

/-- `posts` counts the calls of `post` that come from no grant. The `int` behind `value` is
unbounded here; it never exceeds its first value plus `posts`. -/
structure State where
  value : ℤ
  threads : List Pc
  grants : List Grant
  posts : ℕ
  deriving DecidableEq

/-- `create true` makes a grant of the semaphore; `wake` is a wake-up without a notification, and
`release` also the destructor. -/
inductive Event where
  | create (sema : Bool)
  | acquire (t g : ℕ)
  | resume (t : ℕ)
  | wake (t : ℕ)
  | tryAcquire (t g : ℕ)
  | release (t g : ℕ)
  | moveTo (t g grant : ℕ)
  | post (t : ℕ)
  | notify (t : ℕ) (u : Option ℕ)

/-- The locked section of `wait`, from its start or from where it was woken. -/
def enter (t g : ℕ) (s : State) : State :=
  if s.value < 1 then
    { s with threads := s.threads.set t (.waiting g), grants := s.grants.set g .acquiring }
  else
    { s with
      value := s.value-1
      threads := s.threads.set t .running
      grants := s.grants.set g .held }

/-- The locked section of `post`. -/
def give (t : ℕ) (s : State) : State :=
  { s with value := s.value+1, threads := s.threads.set t .posting }

def wake (u : ℕ) (s : State) : Option State :=
  match s.threads[u]? with
  | some (.waiting g) => some { s with threads := s.threads.set u (.awake g) }
  | _ => none

/-- None where the thread is elsewhere, where a null pointer is followed, or where two threads use
one grant. -/
def step (s : State) : Event → Option State
  | .create sema => some { s with grants := s.grants++[if sema then .ready else .null] }
  | .acquire t g =>
    match s.threads[t]?, s.grants[g]? with
    | some .running, some .held => some s
    | some .running, some .ready => some (enter t g s)
    | _, _ => none
  | .resume t =>
    match s.threads[t]? with
    | some (.awake g) => if s.grants[g]? = some .acquiring then some (enter t g s) else none
    | _ => none
  | .wake t => wake t s
  | .tryAcquire t g =>
    match s.threads[t]?, s.grants[g]? with
    | some .running, some .held => some s
    | some .running, some .ready =>
      some (if s.value < 1 then s else { s with value := s.value-1, grants := s.grants.set g .held })
    | _, _ => none
  | .release t g =>
    match s.threads[t]?, s.grants[g]? with
    | some .running, some .held => some (give t { s with grants := s.grants.set g .ready })
    | some .running, some .ready => some s
    | some .running, some .null => some s
    | _, _ => none
  | .moveTo t g grant =>
    match s.threads[t]?, s.grants[g]?, s.grants[grant]? with
    | some .running, some x, some y =>
      if x = .acquiring ∨ y = .acquiring then none
      else
        let s' := { s with grants := (s.grants.set grant x).set g .null }
        some (if y = .held then give t s' else s')
    | _, _, _ => none
  | .post t =>
    if s.threads[t]? = some .running then some (give t { s with posts := s.posts+1 }) else none
  | .notify t u =>
    if s.threads[t]? = some .posting then
      let s' := { s with threads := s.threads.set t .running }
      match u with
      | some u => wake u s'
      | none => if s.threads.any Pc.waits then none else some s'
    else none

structure Sound (n : ℤ) (s : State) : Prop where
  total : s.value+s.grants.countP (· = .held) = n+s.posts
  least : min n 0 ≤ s.value
  woken : s.threads.countP Pc.waits = 0 ∨ s.value ≤ s.threads.countP Pc.wakes

theorem count_set {α : Type} (p : α → Bool) {l : List α} {i : ℕ} {x : α} (h : l[i]? = some x)
    (a : α) : (l.set i a).countP p+(p x).toNat = l.countP p+(p a).toNat := by
  obtain ⟨hi,rfl⟩ := List.getElem?_eq_some_iff.mp h
  have hle := List.boole_getElem_le_countP (p := p) hi
  rw [List.countP_set hi]
  grind

section Step
variable {n : ℤ} {s : State} (hs : Sound n s)
include hs

theorem enter_sound {t g : ℕ} {pc : Pc} {x : Grant} (ht : s.threads[t]? = some pc)
    (hpc : pc.waits = false) (hg : s.grants[g]? = some x) (hx : decide (x = .held) = false) :
    Sound n (enter t g s) := by
  have hacq := count_set (· = Grant.held) hg .acquiring
  have hheld := count_set (· = Grant.held) hg .held
  have hwaits : _+pc.waits.toNat = _+0 := count_set Pc.waits ht .running
  have hwakes : _+_ = _+0 := count_set Pc.wakes ht .running
  have hwake := Bool.toNat_le pc.wakes
  rw [hx] at hacq hheld
  rw [hpc] at hwaits
  obtain ⟨htotal,hleast,hwoken⟩ := hs
  unfold enter
  split_ifs with hv
  · simp at hacq
    exact ⟨by simp only; omega,hleast,Or.inr (by simp only; omega)⟩
  · simp at hheld hwaits
    refine ⟨?_,?_,?_⟩ <;> simp only <;> omega

theorem give_sound {t : ℕ} (ht : s.threads[t]? = some .running) (grants : List Grant) (posts : ℕ)
    (h : grants.countP (· = .held)+1+s.posts = s.grants.countP (· = .held)+posts) :
    Sound n (give t { s with grants := grants, posts := posts }) := by
  have hwaits : _+0 = _+0 := count_set Pc.waits ht .posting
  have hwakes : _+0 = _+1 := count_set Pc.wakes ht .posting
  obtain ⟨htotal,hleast,hwoken⟩ := hs
  refine ⟨?_,?_,?_⟩ <;> simp only [give] <;> omega

theorem wake_sound {u : ℕ} {s' : State} (h : wake u s = some s') : Sound n s' := by
  unfold wake at h
  split at h
  · rename_i g hu
    cases h
    have hwaits : _+1 = _+0 := count_set Pc.waits hu (.awake g)
    have hwakes : _+0 = _+1 := count_set Pc.wakes hu (.awake g)
    have hwoken := hs.woken
    exact ⟨hs.total,hs.least,by simp only; omega⟩
  · cases h

theorem try_wait_sound {g : ℕ} (hg : s.grants[g]? = some .ready) (hv : ¬s.value < 1) :
    Sound n { s with value := s.value-1, grants := s.grants.set g .held } := by
  have hheld : _+0 = _+1 := count_set (· = Grant.held) hg .held
  obtain ⟨htotal,hleast,hwoken⟩ := hs
  refine ⟨?_,?_,?_⟩ <;> simp only <;> omega

/-- The grant that is moved to takes the state of the other, and `post` makes up for what it
held. -/
theorem move_sound {t g grant : ℕ} {x y : Grant} (ht : s.threads[t]? = some .running)
    (hx : s.grants[g]? = some x) (hy : s.grants[grant]? = some y) :
    Sound n (if y = .held then give t { s with grants := (s.grants.set grant x).set g .null }
      else { s with grants := (s.grants.set grant x).set g .null }) := by
  have hmid : (s.grants.set grant x)[g]? = some x := by
    rw [List.getElem?_set]
    split_ifs with heq hlt
    · rfl
    · exact absurd (List.getElem?_eq_some_iff.mp hy).1 hlt
    · exact hx
  have hset := count_set (· = Grant.held) hy x
  have hnull : _+_ = _+0 := count_set (· = Grant.held) hmid .null
  split_ifs with hheld
  · rw [hheld] at hset
    exact give_sound hs ht _ s.posts (by simp at hset hnull; omega)
  · have htotal := hs.total
    exact ⟨by simp [hheld] at hset hnull ⊢; omega,hs.least,hs.woken⟩

theorem notify_none_sound {t : ℕ} (ht : s.threads[t]? = some .posting)
    (hany : s.threads.any Pc.waits = false) :
    Sound n { s with threads := s.threads.set t .running } := by
  have hwaits : _+0 = _+0 := count_set Pc.waits ht .running
  have hnone : s.threads.countP Pc.waits = 0 := by simpa [List.countP_eq_zero] using hany
  exact ⟨hs.total,hs.least,Or.inl (by simp only; omega)⟩

theorem notify_some_sound {t u g : ℕ} (ht : s.threads[t]? = some .posting)
    (hu : (s.threads.set t .running)[u]? = some (.waiting g)) :
    Sound n { s with threads := (s.threads.set t .running).set u (.awake g) } := by
  have hwaits : _+0 = _+0 := count_set Pc.waits ht .running
  have hwakes : _+1 = _+0 := count_set Pc.wakes ht .running
  have hwaits' : _+1 = _+0 := count_set Pc.waits hu (.awake g)
  have hwakes' : _+0 = _+1 := count_set Pc.wakes hu (.awake g)
  have hwoken := hs.woken
  exact ⟨hs.total,hs.least,by simp only; omega⟩

theorem step_sound {e : Event} {s' : State} (h : step s e = some s') : Sound n s' := by
  cases e with
  | create sema =>
    cases h
    refine ⟨?_,hs.least,hs.woken⟩
    have htotal := hs.total
    cases sema <;> simpa using htotal
  | acquire t g =>
    simp only [step] at h
    split at h <;> cases h
    · exact hs
    · rename_i ht hg
      exact enter_sound hs ht rfl hg rfl
  | resume t =>
    simp only [step] at h
    split at h
    · rename_i g ht
      split_ifs at h with hg
      cases h
      exact enter_sound hs ht rfl hg rfl
    · cases h
  | wake t => exact wake_sound hs h
  | tryAcquire t g =>
    simp only [step] at h
    split at h <;> cases h
    · exact hs
    · rename_i ht hg
      split_ifs with hv
      · exact hs
      · exact try_wait_sound hs hg hv
  | release t g =>
    simp only [step] at h
    split at h <;> cases h
    · rename_i ht hg
      have hheld : _+1 = _+0 := count_set (· = Grant.held) hg .ready
      exact give_sound hs ht _ s.posts (by omega)
    · exact hs
    · exact hs
  | moveTo t g grant =>
    simp only [step] at h
    split at h
    · rename_i x y ht hx hy
      by_cases hacq : x = .acquiring ∨ y = .acquiring
      · rw [if_pos hacq] at h
        cases h
      · rw [if_neg hacq] at h
        cases h
        exact move_sound hs ht hx hy
    · cases h
  | post t =>
    simp only [step] at h
    split_ifs at h with ht
    cases h
    exact give_sound hs ht s.grants _ (by omega)
  | notify t u =>
    simp only [step] at h
    split at h
    case isFalse => cases h
    rename_i ht
    cases u with
    | none =>
      dsimp only at h
      split_ifs at h with hany
      cases h
      exact notify_none_sound hs ht (Bool.eq_false_iff.mpr hany)
    | some u =>
      dsimp only [wake] at h
      split at h <;> cases h
      rename_i g hu
      exact notify_some_sound hs ht hu

end Step

theorem run_sound {n : ℤ} {es : List Event} {s0 s : State} (hs : Sound n s0)
    (h : es.foldlM step s0 = some s) : Sound n s := by
  induction es generalizing s0 with
  | nil =>
    cases h
    exact hs
  | cons e es ih =>
    rw [List.foldlM_cons] at h
    obtain ⟨s1,h1,h2⟩ := Option.bind_eq_some_iff.mp h
    exact ih (step_sound hs h1) h2

/-- However the threads interleave, no more grants are held than the semaphore gives out, and no
wake-up is lost: while a thread waits, as many are on the way as there are grants left. -/
theorem semaphore_run (n : ℤ) (k : ℕ) (es : List Event) {s : State}
    (h : es.foldlM step ⟨n,List.replicate k .running,[],0⟩ = some s) :
    s.value+s.grants.countP (· = .held) = n+s.posts ∧ min n 0 ≤ s.value ∧
      (s.threads.countP Pc.waits = 0 ∨ s.value ≤ s.threads.countP Pc.wakes) := by
  have hs := run_sound ⟨by simp,min_le_left n 0,by simp [List.countP_replicate, Pc.waits]⟩ h
  exact ⟨hs.total,hs.least,hs.woken⟩

theorem semaphore_run_two :
    ∃ s : State, s.grants = [.ready,.held] ∧ s.value+s.grants.countP (· = .held) = 1+s.posts ∧
      min 1 0 ≤ s.value ∧
      (s.threads.countP Pc.waits = 0 ∨ s.value ≤ s.threads.countP Pc.wakes) :=
  ⟨_,rfl,semaphore_run 1 2 [.create true,.create true,.acquire 0 0,.acquire 1 1,.release 0 0,
    .notify 0 (some 1),.resume 1] rfl⟩

end SwippCore.Semaphore
