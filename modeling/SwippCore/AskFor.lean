import SwippCore.Lib.FinMap
import SwippCore.Lib.Batches

/-!
# Asking for what peers announce

An announced item is asked for at a time that the node remembers for all peers: every
further request is set two minutes behind it. The requests wait in a queue for each
peer, and sending one writes the time of the sending over what is remembered.
-/

set_option autoImplicit false

namespace SwippCore.AskFor
open FinMap

section Model
variable {Peer Inv : Type} [DecidableEq Inv]

structure State (Peer Inv : Type) [DecidableEq Inv] where
  now : ℕ
  nLastTime : ℤ
  mapAlreadyAskedFor : Dict Inv ℤ
  mapAskFor : Peer → List (ℤ × Inv)

def start (now : ℕ) : State Peer Inv := ⟨now,0,∅,fun _ => []⟩

def insertRequest (r : ℤ × Inv) : List (ℤ × Inv) → List (ℤ × Inv)
  | [] => [r]
  | x::xs => if x.1 ≤ r.1 then x::insertRequest r xs else r::x::xs

def entry (inv : Inv) (s : State Peer Inv) : ℤ := (s.mapAlreadyAskedFor.lookup inv).getD 0

variable [DecidableEq Peer]

def askFor (p : Peer) (inv : Inv) (s : State Peer Inv) : State Peer Inv × ℤ :=
  let nNow : ℤ := (s.now-1)*1000000
  -- Make sure not to reuse time indexes to keep things in the same order
  let nLastTime := s.nLastTime+1
  let nNow := max nNow nLastTime
  -- Each retry is 2 minutes after the last
  let nRequestTime := max (entry inv s+2*60*1000000) nNow
  ({ s with
      nLastTime := nNow
      mapAlreadyAskedFor := s.mapAlreadyAskedFor.insert inv nRequestTime
      mapAskFor := Function.update s.mapAskFor p (insertRequest (nRequestTime,inv) (s.mapAskFor p)) },
    nRequestTime)

/-- The first request of a peer leaves its queue; `sent` tells whether it is sent. -/
def take (p : Peer) (inv : Inv) (rest : List (ℤ × Inv)) (sent : Bool) (s : State Peer Inv) :
    State Peer Inv :=
  { s with
    mapAlreadyAskedFor :=
      if sent then s.mapAlreadyAskedFor.insert inv (s.now*1000000) else s.mapAlreadyAskedFor
    mapAskFor := Function.update s.mapAskFor p rest }

def getDataLoop (alreadyHave : Inv → Bool) (p : Peer) : List (ℤ × Inv) → Batches Inv →
    State Peer Inv → State Peer Inv × Batches Inv
  | [], vGetData, s => (s,vGetData)
  | (k,inv)::rest, vGetData, s =>
    if k ≤ s.now*1000000 then
      let vGetData := if alreadyHave inv then vGetData else vGetData.add 1000 inv
      getDataLoop alreadyHave p rest vGetData (take p inv rest (!alreadyHave inv) s)
    else (s,vGetData)

def sendMessages (ready : Bool) (alreadyHave : Inv → Bool) (p : Peer) (s : State Peer Inv) :
    State Peer Inv × List (List Inv) :=
  if ready then
    let r := getDataLoop alreadyHave p (s.mapAskFor p) Batches.empty s
    (r.1,r.2.close)
  else (s,[])

inductive Event (Peer Inv : Type)
  | wait (seconds : ℕ)
  | askFor (p : Peer) (inv : Inv)
  | sendMessages (ready : Bool) (alreadyHave : Inv → Bool) (p : Peer)
  | received (inv : Inv)

def step : Event Peer Inv → State Peer Inv → State Peer Inv × List (List Inv)
  | .wait n, s => ({ s with now := s.now+n },[])
  | .askFor p inv, s => ((askFor p inv s).1,[])
  | .sendMessages ready alreadyHave p, s => sendMessages ready alreadyHave p s
  | .received inv, s => ({ s with mapAlreadyAskedFor := s.mapAlreadyAskedFor.erase inv },[])

def run (es : List (Event Peer Inv)) (s : State Peer Inv) : State Peer Inv :=
  es.foldl (fun s e => (step e s).1) s

def sent (i : Inv) : List (Event Peer Inv) → State Peer Inv → List ℕ
  | [], _ => []
  | e::es, s => ((step e s).2.flatten.filter (· = i)).map (fun _ => s.now)++sent i es (step e s).1

def given (i : Inv) : List (Event Peer Inv) → State Peer Inv → List (ℕ × ℤ)
  | [], _ => []
  | .askFor p j::es, s =>
    (if j = i then [(s.now,(askFor p j s).2)] else [])++given i es (askFor p j s).1
  | e::es, s => given i es (step e s).1

def Along (P : Event Peer Inv → State Peer Inv → Prop) :
    List (Event Peer Inv) → State Peer Inv → Prop
  | [], _ => True
  | e::es, s => P e s ∧ Along P es (step e s).1

def Prompt : Event Peer Inv → State Peer Inv → Prop
  | .wait n, s => n = 0 ∨ ∀ p, ∀ r ∈ s.mapAskFor p, (s.now+n-1)*1000000 < r.1
  | _, _ => True

def second (k : ℤ) : ℤ := (k+999999)/1000000

def due (t : ℕ) (k : ℤ) : ℤ := max t (second k)

def keys (i : Inv) (p : Peer) (s : State Peer Inv) : List ℤ :=
  ((s.mapAskFor p).filter (·.2 = i)).map (·.1)

def Meets (i : Inv) : Event Peer Inv → State Peer Inv → Prop
  | .askFor _ j, s => j = i → ∀ q, ∀ k ∈ keys i q s,
      let e := second (entry i s)
      let n := due s.now (s.nLastTime+1)
      (due s.now k ≤ e ∨ due s.now k+120 ≤ n) ∨ (e+240 ≤ due s.now k ∧ n+120 ≤ due s.now k)
  | _, _ => True

def Alive (i : Inv) (es : List (Event Peer Inv)) : Prop := ∀ e ∈ es, e ≠ .received i

def Spaced (i : Inv) (es : List (Event Peer Inv)) (s : State Peer Inv) : Prop :=
  (sent i es s).Pairwise (fun a b => a+120 ≤ b) ∧
    (given i es s).Pairwise (fun a b => a.1 = b.1 → a.2 < b.2)

end Model

section Queues
variable {Peer Inv : Type} [DecidableEq Inv]

def Apart (t : ℕ) (a b : ℤ) : Prop := due t a+120 ≤ due t b ∨ due t b+120 ≤ due t a

theorem apart_symm {t : ℕ} {a b : ℤ} (h : Apart t a b) : Apart t b a := Or.symm h

omit [DecidableEq Inv] in
theorem insert_perm (r : ℤ × Inv) (xs : List (ℤ × Inv)) : (insertRequest r xs).Perm (r::xs) := by
  induction xs with
  | nil => exact List.Perm.refl _
  | cons x xs ih =>
    rw [insertRequest]
    split
    · exact (ih.cons x).trans (List.Perm.swap r x xs)
    · exact List.Perm.refl _

theorem keys_same (i : Inv) {p : Peer} {s s' : State Peer Inv}
    (h : s'.mapAskFor p = s.mapAskFor p) : keys i p s' = keys i p s := by
  rw [keys, keys, h]

theorem keys_insert (i : Inv) {j : Inv} {k : ℤ} {p : Peer} {s s' : State Peer Inv}
    (h : s'.mapAskFor p = insertRequest (k,j) (s.mapAskFor p)) :
    (keys i p s').Perm (if j = i then k::keys i p s else keys i p s) := by
  rw [keys, keys, h]
  have hp := ((insert_perm (k,j) (s.mapAskFor p)).filter (fun r => decide (r.2 = i))).map (·.1)
  split
  · rename_i hj
    simpa [List.filter_cons, hj] using hp
  · rename_i hj
    simpa [List.filter_cons, hj] using hp

theorem keys_rest (i j : Inv) (k : ℤ) (p : Peer) (rest : List (ℤ × Inv)) (s s' : State Peer Inv)
    (h : s.mapAskFor p = (k,j)::rest) (h' : s'.mapAskFor p = rest) :
    keys i p s = if j = i then k::keys i p s' else keys i p s' := by
  rw [keys, keys, h, h']
  split
  · rename_i hj
    simp [hj]
  · rename_i hj
    simp [hj]

structure Good (i : Inv) (s : State Peer Inv) : Prop where
  inside : ∀ p, (keys i p s).Pairwise (Apart s.now)
  across : ∀ p q, p ≠ q → ∀ a ∈ keys i p s, ∀ b ∈ keys i q s, Apart s.now a b

structure Floor (i : Inv) (t : ℤ) (s : State Peer Inv) : Prop where
  entry : t*1000000 ≤ entry i s
  queued : ∀ p, ∀ k ∈ keys i p s, t+120 ≤ due s.now k

def Queued (i : Inv) (k : ℤ) (s : State Peer Inv) : Prop := ∃ p, k ∈ keys i p s

variable [DecidableEq Peer]

variable (p : Peer)

theorem entry_ask (i j : Inv) (s : State Peer Inv) :
    entry i (askFor p j s).1 = if i = j then (askFor p j s).2 else entry i s := by
  simp only [entry, askFor, lookup_insert_if]
  split <;> rfl

theorem ask_time (i : Inv) (s : State Peer Inv) :
    (askFor p i s).2 = max (entry i s+120000000) (max ((s.now-1)*1000000) (s.nLastTime+1)) := rfl

theorem queue_ask (i : Inv) (s : State Peer Inv) :
    (askFor p i s).1.mapAskFor p = insertRequest ((askFor p i s).2,i) (s.mapAskFor p) :=
  Function.update_self _ _ _

theorem queue_ask_other (q : Peer) (i : Inv) (s : State Peer Inv) (h : q ≠ p) :
    (askFor p i s).1.mapAskFor q = s.mapAskFor q := Function.update_of_ne h _ _

theorem queued_ask (i j : Inv) (k : ℤ) (s : State Peer Inv) :
    Queued i k (askFor p j s).1 ↔ (j = i ∧ k = (askFor p j s).2) ∨ Queued i k s := by
  have hp := fun a => (keys_insert i (queue_ask p j s)).mem_iff (a := a)
  constructor
  · rintro ⟨q,hq⟩
    by_cases hqp : q = p
    · subst hqp
      have hk := (hp k).mp hq
      split at hk
      · rename_i hj
        rcases List.mem_cons.mp hk with hk | hk
        · exact Or.inl ⟨hj,hk⟩
        · exact Or.inr ⟨q,hk⟩
      · exact Or.inr ⟨q,hk⟩
    · rw [keys_same i (queue_ask_other p q j s hqp)] at hq
      exact Or.inr ⟨q,hq⟩
  · rintro (⟨rfl,rfl⟩ | ⟨q,hq⟩)
    · refine ⟨p,(hp _).mpr ?_⟩
      simp
    · by_cases hqp : q = p
      · subst hqp
        refine ⟨q,(hp k).mpr ?_⟩
        split
        · exact List.mem_cons_of_mem _ hq
        · exact hq
      · refine ⟨q,?_⟩
        rw [keys_same i (queue_ask_other p q j s hqp)]
        exact hq

theorem meets_iff (i : Inv) (s : State Peer Inv) :
    Meets i (.askFor p i) s ↔ ∀ k, Queued i k s → Apart s.now (askFor p i s).2 k := by
  have hk : ∀ k, Apart s.now (askFor p i s).2 k ↔
      (due s.now k ≤ second (entry i s) ∨ due s.now k+120 ≤ due s.now (s.nLastTime+1)) ∨
        (second (entry i s)+240 ≤ due s.now k ∧ due s.now (s.nLastTime+1)+120 ≤ due s.now k) := by
    intro k
    rw [ask_time, Apart, due, due, due]
    simp only [second]
    omega
  constructor
  · rintro h k ⟨q,hq⟩
    exact (hk k).mpr (h rfl q k hq)
  · intro h _ q k hq
    exact (hk k).mp (h k ⟨q,hq⟩)

theorem good_ask {i j : Inv} {s : State Peer Inv} (hg : Good i s) (hm : Meets i (.askFor p j) s) :
    Good i (askFor p j s).1 := by
  have hperm := keys_insert i (queue_ask p j s)
  have hother := fun q hq => keys_same i (queue_ask_other p q j s hq)
  have hsym : ∀ {a b}, Apart s.now a b → Apart s.now b a := fun {a b} h => apart_symm h
  by_cases hj : j = i
  · subst hj
    have hnew := (meets_iff p j s).mp hm
    rw [if_pos rfl] at hperm
    refine ⟨?_,?_⟩
    · intro q
      by_cases hq : q = p
      · rw [hq]
        apply (hperm.pairwise_iff hsym).mpr
        exact List.pairwise_cons.mpr ⟨fun a ha => hnew a ⟨p,ha⟩,hg.inside p⟩
      · rw [hother q hq]
        exact hg.inside q
    · intro q r hqr a ha b hb
      by_cases hq : q = p
      · subst hq
        rw [hother r (Ne.symm hqr)] at hb
        rcases List.mem_cons.mp (hperm.mem_iff.mp ha) with rfl | ha
        · exact hnew b ⟨r,hb⟩
        · exact hg.across q r hqr a ha b hb
      · rw [hother q hq] at ha
        by_cases hr : r = p
        · subst hr
          rcases List.mem_cons.mp (hperm.mem_iff.mp hb) with rfl | hb
          · exact apart_symm (hnew a ⟨q,ha⟩)
          · exact hg.across q r hqr a ha b hb
        · rw [hother r hr] at hb
          exact hg.across q r hqr a ha b hb
  · rw [if_neg hj] at hperm
    have hmem : ∀ q a, a ∈ keys i q (askFor p j s).1 → a ∈ keys i q s := by
      intro q a ha
      by_cases hq : q = p
      · subst hq
        exact hperm.mem_iff.mp ha
      · rw [hother q hq] at ha
        exact ha
    refine ⟨?_,fun q r hqr a ha b hb => hg.across q r hqr a (hmem q a ha) b (hmem r b hb)⟩
    intro q
    by_cases hq : q = p
    · rw [hq]
      exact (hperm.pairwise_iff hsym).mpr (hg.inside p)
    · rw [hother q hq]
      exact hg.inside q

variable {s : State Peer Inv}

theorem floor_ask (i j : Inv) {t : ℤ} (h : Floor i t s) : Floor i t (askFor p j s).1 := by
  have he := h.entry
  have ht := ask_time p j s
  constructor
  · rw [entry_ask]
    split
    · rename_i hij
      rw [ht, ← hij]
      omega
    · exact he
  · intro q k hk
    rcases (queued_ask p i j k s).mp ⟨q,hk⟩ with ⟨rfl,rfl⟩ | ⟨r,hr⟩
    · change t+120 ≤ due s.now _
      rw [ht, due]
      simp only [second]
      omega
    · exact h.queued r k hr

variable {i : Inv} {a k : ℤ} {rest : List (ℤ × Inv)}

theorem take_queued {p : Peer} {j : Inv} {b : Bool} (h : s.mapAskFor p = (k,j)::rest)
    (hq : Queued i a (take p j rest b s)) : Queued i a s := by
  obtain ⟨q,hq⟩ := hq
  by_cases hqp : q = p
  · subst hqp
    refine ⟨q,?_⟩
    rw [keys_rest i j k q rest s (take q j rest b s) h (Function.update_self _ _ _)]
    split
    · exact List.mem_cons_of_mem _ hq
    · exact hq
  · refine ⟨q,?_⟩
    rw [keys_same i (Function.update_of_ne hqp _ _)] at hq
    exact hq

theorem take_kept (i j : Inv) (k a : ℤ) (rest : List (ℤ × Inv)) (b : Bool) (s : State Peer Inv)
    (h : s.mapAskFor p = (k,j)::rest) (hq : Queued i a s) (ha : a ≠ k) :
    Queued i a (take p j rest b s) := by
  obtain ⟨q,hq⟩ := hq
  by_cases hqp : q = p
  · subst hqp
    refine ⟨q,?_⟩
    rw [keys_rest i j k q rest s (take q j rest b s) h (Function.update_self _ _ _)] at hq
    split at hq
    · exact (List.mem_cons.mp hq).resolve_left ha
    · exact hq
  · refine ⟨q,?_⟩
    rw [keys_same i (Function.update_of_ne hqp _ _)]
    exact hq

theorem entry_take (i j : Inv) (rest : List (ℤ × Inv)) (b : Bool) (s : State Peer Inv) :
    entry i (take p j rest b s) =
      if b = true ∧ i = j then (s.now*1000000 : ℤ) else entry i s := by
  cases b with
  | false => simp [entry, take]
  | true =>
    simp only [entry, take, if_true, lookup_insert_if, true_and]
    split <;> rfl

theorem take_good {p : Peer} {j : Inv} (b : Bool)
    (h : s.mapAskFor p = (k,j)::rest) (hg : Good i s) :
    Good i (take p j rest b s) := by
  have hsub : ∀ q, (keys i q (take p j rest b s)).Sublist (keys i q s) := by
    intro q
    by_cases hqp : q = p
    · subst hqp
      rw [keys_rest i j k q rest s (take q j rest b s) h (Function.update_self _ _ _)]
      split
      · exact List.sublist_cons_self _ _
      · exact List.Sublist.refl _
    · rw [keys_same i (Function.update_of_ne hqp _ _)]
  exact ⟨fun q => (hg.inside q).sublist (hsub q),
    fun q r hqr a ha c hc => hg.across q r hqr a ((hsub q).subset ha) c ((hsub r).subset hc)⟩

theorem taken_apart {p : Peer} {b : Bool} (h : s.mapAskFor p = (k,i)::rest) (hk : k ≤ s.now*1000000)
    (hg : Good i s) {q : Peer} (ha : a ∈ keys i q (take p i rest b s)) :
    s.now+120 ≤ due s.now a := by
  have hkeys := keys_rest i i k p rest s (take p i rest b s) h (Function.update_self _ _ _)
  rw [if_pos rfl] at hkeys
  have hap : Apart s.now k a := by
    by_cases hqp : q = p
    · subst hqp
      have hin := hg.inside q
      rw [hkeys] at hin
      exact (List.pairwise_cons.mp hin).1 a ha
    · rw [keys_same i (Function.update_of_ne hqp _ _)] at ha
      apply hg.across p q (Ne.symm hqp) k _ a ha
      rw [hkeys]
      exact List.mem_cons_self
  simp only [Apart, due, second] at hap ⊢
  omega

theorem take_floor {p : Peer} {j : Inv} {t : ℤ} (b : Bool) (h : s.mapAskFor p = (k,j)::rest)
    (hk : k ≤ s.now*1000000) (hf : Floor i t s) : Floor i t (take p j rest b s) := by
  constructor
  · rw [entry_take]
    split
    · rename_i hb
      have hq := hf.queued p k (by
        rw [keys_rest i j k p rest s (take p j rest b s) h (Function.update_self _ _ _),
          if_pos hb.2.symm]
        exact List.mem_cons_self)
      simp only [due, second] at hq
      omega
    · exact hf.entry
  · intro q a ha
    obtain ⟨r,hr⟩ := take_queued h ⟨q,ha⟩
    exact hf.queued r a hr

theorem take_new_floor {p : Peer} (h : s.mapAskFor p = (k,i)::rest) (hk : k ≤ s.now*1000000)
    (hg : Good i s) : Floor i s.now (take p i rest true s) := by
  constructor
  · rw [entry_take, if_pos ⟨rfl,rfl⟩]
  · intro q a ha
    exact taken_apart h hk hg ha

theorem loop_spec (alreadyHave : Inv → Bool) (p : Peer) {xs : List (ℤ × Inv)} (b : Batches Inv)
    (s : State Peer Inv) (h : s.mapAskFor p = xs) (hg : Good i s) :
    (getDataLoop alreadyHave p xs b s).1.now = s.now ∧ Good i (getDataLoop alreadyHave p xs b s).1 ∧
      ∃ js, (getDataLoop alreadyHave p xs b s).2.entries = b.entries++js ∧ js.count i ≤ 1 ∧
        (i ∈ js → Floor i s.now (getDataLoop alreadyHave p xs b s).1) ∧
        ∀ t, Floor i t s → Floor i t (getDataLoop alreadyHave p xs b s).1 ∧ (i ∈ js → t+120 ≤ s.now) := by
  induction xs generalizing b s with
  | nil => exact ⟨rfl,hg,[],by simp [getDataLoop],by simp,by simp,fun t ht => ⟨ht,by simp⟩⟩
  | cons x xs ih =>
    obtain ⟨k,j⟩ := x
    rw [getDataLoop]
    by_cases hk : k ≤ s.now*1000000
    · rw [if_pos hk]
      have hr : (take p j xs (!alreadyHave j) s).mapAskFor p = xs := Function.update_self _ _ _
      obtain ⟨hn,hgood,js,hjs,hcount,hfloor,hall⟩ :=
        ih (if alreadyHave j then b else b.add 1000 j) _ hr (take_good _ h hg)
      have hstep : ∀ t, Floor i t s → Floor i t (take p j xs (!alreadyHave j) s) :=
        fun t ht => take_floor _ h hk ht
      cases hhave : alreadyHave j with
      | true =>
        rw [hhave] at hn hgood hjs hfloor hall hstep
        exact ⟨hn,hgood,js,hjs,hcount,hfloor,fun t ht => hall t (hstep t ht)⟩
      | false =>
        rw [hhave] at hn hgood hjs hfloor hall hstep
        refine ⟨hn,hgood,j::js,?_,?_⟩
        · simp only [Bool.false_eq_true, if_false, Batches.entries_add] at hjs ⊢
          rw [hjs, List.append_assoc]
          rfl
        by_cases hj : j = i
        · subst hj
          have hnew := take_new_floor h hk hg
          have hnot : j ∉ js := by
            intro hmem
            have hlt := (hall s.now hnew).2 hmem
            change (s.now : ℤ)+120 ≤ s.now at hlt
            omega
          refine ⟨?_,fun _ => (hall s.now hnew).1,?_⟩
          · rw [List.count_cons_self, List.count_eq_zero.mpr hnot]
          · intro t ht
            refine ⟨(hall t (hstep t ht)).1,fun _ => ?_⟩
            have hq := ht.queued p k (by
              rw [keys_rest j j k p xs s (take p j xs true s) h (Function.update_self _ _ _),
                if_pos rfl]
              exact List.mem_cons_self)
            simp only [due, second] at hq
            omega
        · have hmem : i ∈ j::js → i ∈ js :=
            fun hi => (List.mem_cons.mp hi).resolve_left (Ne.symm hj)
          refine ⟨?_,fun hi => hfloor (hmem hi),?_⟩
          · rw [List.count_cons_of_ne hj]
            exact hcount
          · intro t ht
            obtain ⟨h1,h2⟩ := hall t (hstep t ht)
            exact ⟨h1,fun hi => h2 (hmem hi)⟩
    · rw [if_neg hk]
      exact ⟨rfl,hg,[],by simp,by simp,by simp,fun t ht => ⟨ht,by simp⟩⟩

theorem loop_keeps (alreadyHave : Inv → Bool) (p : Peer) (P : State Peer Inv → Prop)
    (hP : ∀ (s : State Peer Inv) (j : Inv) (k : ℤ) (rest : List (ℤ × Inv)) (b : Bool),
      s.mapAskFor p = (k,j)::rest → k ≤ s.now*1000000 → P s → P (take p j rest b s))
    {xs : List (ℤ × Inv)} (b : Batches Inv) (s : State Peer Inv) (h : s.mapAskFor p = xs)
    (hs : P s) : P (getDataLoop alreadyHave p xs b s).1 := by
  induction xs generalizing b s with
  | nil => exact hs
  | cons x xs ih =>
    obtain ⟨k,j⟩ := x
    rw [getDataLoop]
    split
    · rename_i hk
      exact ih _ _ (Function.update_self _ _ _) (hP s j k xs _ h hk hs)
    · exact hs

structure Linked (i : Inv) (s : State Peer Inv) : Prop where
  head : s.now*1000000 < entry i s → Queued i (entry i s) s
  chain : ∀ k, Queued i k s →
    k ≤ s.nLastTime ∨ k ≤ (s.now+120)*1000000 ∨ Queued i (k-120000000) s

structure Passed (i : Inv) (a : ℤ) (s : State Peer Inv) : Prop where
  low : a ≤ entry i s ∨ s.now*1000000 ≤ entry i s
  kept : a ≤ s.now*1000000 ∨ Queued i a s

theorem linked_ask (i j : Inv) (h : Linked i s) : Linked i (askFor p j s).1 := by
  have hq := fun k => queued_ask p i j k s
  have ht := ask_time p j s
  have hlast : (askFor p j s).1.nLastTime = max (((s.now : ℤ)-1)*1000000) (s.nLastTime+1) := rfl
  constructor
  · rw [entry_ask]
    split
    · rename_i hij
      intro _
      exact (hq _).mpr (Or.inl ⟨hij.symm,rfl⟩)
    · intro he
      exact (hq _).mpr (Or.inr (h.head he))
  · intro k hk
    rw [hlast, hq]
    change _ ∨ k ≤ (s.now+120)*1000000 ∨ _
    rcases (hq k).mp hk with ⟨rfl,rfl⟩ | hk
    · by_cases he : s.now*1000000 < entry j s
      · by_cases hmax : entry j s+120000000 ≤ max (((s.now : ℤ)-1)*1000000) (s.nLastTime+1)
        · exact Or.inl (by rw [ht]; omega)
        · refine Or.inr (Or.inr (Or.inr ?_))
          rw [ht, max_eq_left (by omega)]
          simpa using h.head he
      · rw [ht]
        omega
    · rcases h.chain k hk with hk | hk | hk
      · exact Or.inl (by omega)
      · exact Or.inr (Or.inl hk)
      · exact Or.inr (Or.inr (Or.inr hk))

theorem linked_take {i j : Inv} {k : ℤ} {rest : List (ℤ × Inv)} (b : Bool) {s : State Peer Inv}
    (h : s.mapAskFor p = (k,j)::rest) (hk : k ≤ s.now*1000000) (hl : Linked i s) :
    Linked i (take p j rest b s) := by
  have hkept := fun a ha => take_kept p i j k a rest b s h ha
  constructor
  · rw [entry_take]
    split
    · intro hlt
      exact absurd hlt (lt_irrefl _)
    · intro he
      change (s.now : ℤ)*1000000 < entry i s at he
      exact hkept _ (hl.head he) (by omega)
  · intro a ha
    change a ≤ s.nLastTime ∨ a ≤ (s.now+120)*1000000 ∨ _
    rcases hl.chain a (take_queued h ha) with ha | ha | ha
    · exact Or.inl ha
    · exact Or.inr (Or.inl ha)
    · by_cases hak : a-120000000 = k
      · exact Or.inr (Or.inl (by omega))
      · exact Or.inr (Or.inr (hkept _ ha hak))

theorem passed_ask (i j : Inv) (h : Passed i a s) : Passed i a (askFor p j s).1 := by
  have ht := ask_time p j s
  constructor
  · have hlow := h.low
    rw [entry_ask]
    change _ ∨ (s.now : ℤ)*1000000 ≤ _
    split
    · rename_i hij
      rw [ht, ← hij]
      omega
    · exact hlow
  · exact h.kept.imp_right fun hq => (queued_ask p i j a s).mpr (Or.inr hq)

theorem passed_take {p : Peer} {j : Inv} (b : Bool) (h : s.mapAskFor p = (k,j)::rest)
    (hk : k ≤ s.now*1000000) (hp : Passed i a s) : Passed i a (take p j rest b s) := by
  constructor
  · have hlow := hp.low
    rw [entry_take]
    change _ ∨ (s.now : ℤ)*1000000 ≤ _
    split
    · exact Or.inr le_rfl
    · exact hlow
  · change a ≤ (s.now : ℤ)*1000000 ∨ _
    by_cases hak : a = k
    · exact Or.inl (by omega)
    · exact hp.kept.imp_right fun hq => take_kept p i j k a rest b s h hq hak

theorem passed_new (i : Inv) (s : State Peer Inv) : Passed i (askFor p i s).2 (askFor p i s).1 := by
  constructor
  · rw [entry_ask, if_pos rfl]
    exact Or.inl le_rfl
  · exact Or.inr ((queued_ask p i i _ s).mpr (Or.inl ⟨rfl,rfl⟩))

/-- Behind a sending, a new request that is apart from the queued ones is behind them all. -/
theorem ask_above_queued {p : Peer} (hl : Linked i s) (he : s.now*1000000 ≤ entry i s)
    (ha : ∀ k, Queued i k s → Apart s.now (askFor p i s).2 k) (n : ℕ) (k : ℤ)
    (hn : k < (askFor p i s).2+n) (hk : Queued i k s) : k < (askFor p i s).2 := by
  -- down the chain of requests, each two minutes before the other
  induction n generalizing k with
  | zero => simpa using hn
  | succ n ih =>
    by_contra hlt
    have ht := ask_time p i s
    have hap := ha k hk
    simp only [Apart, due, second] at hap
    rcases hl.chain k hk with hc | hc | hc
    · omega
    · omega
    · have hlow := ih (k-120000000) (by omega) hc
      have hap' := ha _ hc
      simp only [Apart, due, second] at hap'
      omega

theorem ask_above {p : Peer} (hl : Linked i s) (hp : Passed i a s) (hm : Meets i (.askFor p i) s) :
    a < (askFor p i s).2 := by
  have ht := ask_time p i s
  rcases hp.low with hlow | hlow
  · omega
  · rcases hp.kept with hk | hk
    · omega
    · have ha := (meets_iff p i s).mp hm
      exact ask_above_queued hl hlow ha (a-(askFor p i s).2+1).toNat a (by omega) hk

end Queues

section Runs
variable {Peer Inv : Type} [DecidableEq Inv] [DecidableEq Peer]

omit [DecidableEq Peer] in
theorem due_wait (n : ℕ) (s : State Peer Inv) (h : Prompt (.wait n) s) (i : Inv) (p : Peer)
    (k : ℤ) (hk : k ∈ keys i p s) : due (s.now+n) k = due s.now k := by
  obtain ⟨r,hr,rfl⟩ := List.mem_map.mp hk
  rcases h with rfl | h
  · rfl
  · have hlt := h p r (List.mem_filter.mp hr).1
    simp only [due, second]
    omega

theorem good_wait {n : ℕ} {i : Inv} {s : State Peer Inv} (h : Prompt (.wait n) s)
    (hg : Good i s) : Good i (step (.wait n) s).1 := by
  have hd := fun p k hk => due_wait n s h i p k hk
  constructor
  · intro p
    apply (hg.inside p).imp_of_mem
    intro a b ha hb hab
    change Apart (s.now+n) a b
    rw [Apart, hd p a ha, hd p b hb]
    exact hab
  · intro p q hpq a ha b hb
    change Apart (s.now+n) a b
    rw [Apart, hd p a ha, hd q b hb]
    exact hg.across p q hpq a ha b hb

variable {i : Inv}

theorem step_good {e : Event Peer Inv} {s : State Peer Inv} (hg : Good i s) (hp : Prompt e s)
    (hm : Meets i e s) : Good i (step e s).1 := by
  cases e with
  | wait n => exact good_wait hp hg
  | askFor p j => exact good_ask p hg hm
  | sendMessages ready alreadyHave p =>
    cases ready with
    | false => exact hg
    | true => exact (loop_spec alreadyHave p Batches.empty s rfl hg).2.1
  | received j => exact ⟨hg.inside,hg.across⟩

theorem step_linked (e : Event Peer Inv) {s : State Peer Inv} (hl : Linked i s) :
    Linked i (step e s).1 := by
  cases e with
  | wait n =>
    constructor
    · intro he
      apply hl.head
      have he' : ((s.now+n : ℕ) : ℤ)*1000000 < entry i s := he
      omega
    · intro k hk
      change _ ∨ k ≤ ((s.now+n : ℕ)+120)*1000000 ∨ _
      rcases hl.chain k hk with h | h | h
      · exact Or.inl h
      · exact Or.inr (Or.inl (by omega))
      · exact Or.inr (Or.inr h)
  | askFor p j => exact linked_ask p i j hl
  | sendMessages ready alreadyHave p =>
    cases ready with
    | false => exact hl
    | true =>
      exact loop_keeps alreadyHave p (Linked i)
        (fun s j k rest b h hk hs => linked_take p b h hk hs) _ s rfl hl
  | received j =>
    refine ⟨?_,hl.chain⟩
    have he : entry i (step (.received j) s).1 = if i = j then 0 else entry i s := by
      simp only [entry, step, lookup_erase_if]
      split <;> rfl
    rw [he]
    split
    · intro h
      change (s.now : ℤ)*1000000 < 0 at h
      omega
    · exact hl.head

theorem step_floor {t : ℤ} {e : Event Peer Inv} {s : State Peer Inv} (hg : Good i s)
    (hp : Prompt e s) (hr : e ≠ .received i) (hf : Floor i t s) : Floor i t (step e s).1 := by
  cases e with
  | wait n =>
    refine ⟨hf.entry,?_⟩
    intro p k hk
    change t+120 ≤ due (s.now+n) k
    rw [due_wait n s hp i p k hk]
    exact hf.queued p k hk
  | askFor p j => exact floor_ask p i j hf
  | sendMessages ready alreadyHave p =>
    cases ready with
    | false => exact hf
    | true =>
      obtain ⟨_,_,js,_,_,_,hall⟩ := loop_spec alreadyHave p Batches.empty s rfl hg
      exact (hall t hf).1
  | received j =>
    refine ⟨?_,hf.queued⟩
    have hij : i ≠ j := by
      rintro rfl
      exact hr rfl
    have he : entry i (step (.received j) s).1 = entry i s := by
      simp only [entry, step, lookup_erase_if, if_neg hij]
    rw [he]
    exact hf.entry

theorem step_sent (i : Inv) (e : Event Peer Inv) (s : State Peer Inv) (hg : Good i s) :
    (step e s).2.flatten.count i ≤ 1 ∧
      (i ∈ (step e s).2.flatten → Floor i s.now (step e s).1 ∧
        ∀ t, Floor i t s → t+120 ≤ s.now) := by
  cases e with
  | wait n => exact ⟨by simp [step],by simp [step]⟩
  | askFor p j => exact ⟨by simp [step],by simp [step]⟩
  | received j => exact ⟨by simp [step],by simp [step]⟩
  | sendMessages ready alreadyHave p =>
    cases ready with
    | false => exact ⟨by simp [step, sendMessages],by simp [step, sendMessages]⟩
    | true =>
      obtain ⟨_,_,js,hjs,hcount,hfloor,hall⟩ :=
        loop_spec alreadyHave p Batches.empty s rfl hg
      have hflat : (step (.sendMessages true alreadyHave p) s).2.flatten = js := by
        change (getDataLoop alreadyHave p (s.mapAskFor p) Batches.empty s).2.close.flatten = js
        rw [Batches.close_flatten, hjs, Batches.entries_empty, List.nil_append]
      rw [hflat]
      exact ⟨hcount,fun hi => ⟨hfloor hi,fun t ht => (hall t ht).2 hi⟩⟩

theorem mem_requests {js : List Inv} {t x : ℕ} (h : x ∈ (js.filter (· = i)).map fun _ => t) :
    i ∈ js ∧ x = t := by
  obtain ⟨j,hj,rfl⟩ := List.mem_map.mp h
  obtain ⟨hmem,hji⟩ := List.mem_filter.mp hj
  rw [decide_eq_true_eq] at hji
  rw [← hji]
  exact ⟨hmem,rfl⟩

variable (s : State Peer Inv) {es : List (Event Peer Inv)}

theorem sent_above {t : ℤ} (hg : Good i s) (hp : Along Prompt es s) (hm : Along (Meets i) es s)
    (ha : Alive i es) (hf : Floor i t s) : ∀ x ∈ sent i es s, t+120 ≤ x := by
  induction es generalizing s with
  | nil => exact fun x hx => absurd hx List.not_mem_nil
  | cons e es ih =>
    intro x hx
    rcases List.mem_append.mp hx with hx | hx
    · obtain ⟨hi,rfl⟩ := mem_requests hx
      exact ((step_sent i e s hg).2 hi).2 t hf
    · exact ih _ (step_good hg hp.1 hm.1) hp.2 hm.2
        (fun d hd => ha d (List.mem_cons_of_mem _ hd))
        (step_floor hg hp.1 (ha e List.mem_cons_self) hf) x hx

theorem sent_spaced (hg : Good i s) (hp : Along Prompt es s) (hm : Along (Meets i) es s)
    (ha : Alive i es) : (sent i es s).Pairwise (fun a b => a+120 ≤ b) := by
  induction es generalizing s with
  | nil => exact List.Pairwise.nil
  | cons e es ih =>
    have hgood := step_good hg hp.1 hm.1
    have hlive : Alive i es := fun d hd => ha d (List.mem_cons_of_mem _ hd)
    obtain ⟨hcount,hsent⟩ := step_sent i e s hg
    refine List.pairwise_append.mpr ⟨?_,ih _ hgood hp.2 hm.2 hlive,?_⟩
    · -- at most one request in one pass
      have hl : (((step e s).2.flatten.filter (· = i)).map fun _ => s.now).length ≤ 1 := by
        rw [List.length_map, ← List.countP_eq_length_filter]
        exact hcount
      match h : ((step e s).2.flatten.filter (· = i)).map (fun _ => s.now) with
      | [] => exact List.Pairwise.nil
      | [x] => exact List.pairwise_singleton _ _
      | x::y::zs =>
        rw [h] at hl
        simp at hl
    · intro x hx y hy
      obtain ⟨hi,rfl⟩ := mem_requests hx
      have habove := sent_above _ hgood hp.2 hm.2 hlive (hsent hi).1 y hy
      omega

theorem given_later (i : Inv) (es : List (Event Peer Inv)) (s : State Peer Inv) :
    ∀ x ∈ given i es s, s.now ≤ x.1 := by
  induction es generalizing s with
  | nil => exact fun x hx => absurd hx List.not_mem_nil
  | cons e es ih =>
    intro x hx
    have hnow : s.now ≤ (step e s).1.now := by
      cases e with
      | wait n => exact Nat.le_add_right _ _
      | askFor p j => exact le_rfl
      | received j => exact le_rfl
      | sendMessages ready alreadyHave p =>
        cases ready with
        | false => exact le_rfl
        | true =>
          exact loop_keeps alreadyHave p (fun r => s.now ≤ r.now)
            (fun _ _ _ _ _ _ _ h => h) _ s rfl le_rfl
    cases e with
    | askFor p j =>
      rcases List.mem_append.mp hx with hx | hx
      · split at hx
        · rw [List.mem_singleton.mp hx]
        · cases hx
      · exact le_trans hnow (ih _ x hx)
    | wait n => exact le_trans hnow (ih _ x hx)
    | received j => exact le_trans hnow (ih _ x hx)
    | sendMessages ready alreadyHave p => exact le_trans hnow (ih _ x hx)

/-- Behind a time given out in this second, all times given out in it are larger. -/
theorem given_above (i : Inv) (a : ℤ) (es : List (Event Peer Inv)) (s : State Peer Inv)
    (hl : Linked i s) (hm : Along (Meets i) es s) (ha : Alive i es) (hq : Passed i a s) :
    ∀ x ∈ given i es s, x.1 = s.now → a < x.2 := by
  induction es generalizing s with
  | nil => exact fun x hx => absurd hx List.not_mem_nil
  | cons e es ih =>
    intro x hx hnow
    have hlive : Alive i es := fun d hd => ha d (List.mem_cons_of_mem _ hd)
    have hlink := step_linked e hl
    cases e with
    | wait n =>
      by_cases hn : n = 0
      · subst hn
        exact ih s hl hm.2 hlive hq x hx hnow
      · have hlater := given_later i es _ x hx
        change s.now+n ≤ x.1 at hlater
        omega
    | askFor p j =>
      rcases List.mem_append.mp hx with hin | hin
      · split at hin
        · rename_i hj
          subst hj
          rw [List.mem_singleton.mp hin]
          exact ask_above hl hq hm.1
        · cases hin
      · exact ih _ hlink hm.2 hlive (passed_ask p i j hq) x hin hnow
    | received j =>
      have hij : i ≠ j := by
        rintro rfl
        exact ha _ List.mem_cons_self rfl
      have he : entry i (step (.received j) s).1 = entry i s := by
        simp only [entry, step, lookup_erase_if, if_neg hij]
      refine ih _ hlink hm.2 hlive ⟨?_,hq.kept⟩ x hx hnow
      rw [he]
      exact hq.low
    | sendMessages ready alreadyHave p =>
      cases ready with
      | false => exact ih s hl hm.2 hlive hq x hx hnow
      | true =>
        have hkeep := loop_keeps alreadyHave p (fun r => r.now = s.now ∧ Passed i a r)
          (fun r j k rest b h hk hr =>
            ⟨hr.1,passed_take b h hk hr.2⟩) Batches.empty s rfl ⟨rfl,hq⟩
        exact ih _ hlink hm.2 hlive hkeep.2 x hx (hnow.trans hkeep.1.symm)

theorem given_ascend (hl : Linked i s) (hm : Along (Meets i) es s) (ha : Alive i es) :
    (given i es s).Pairwise (fun a b => a.1 = b.1 → a.2 < b.2) := by
  induction es generalizing s with
  | nil => exact List.Pairwise.nil
  | cons e es ih =>
    have hlive : Alive i es := fun d hd => ha d (List.mem_cons_of_mem _ hd)
    have hrest := ih _ (step_linked e hl) hm.2 hlive
    cases e with
    | wait n => exact hrest
    | received j => exact hrest
    | sendMessages ready alreadyHave p => exact hrest
    | askFor p j =>
      refine List.pairwise_append.mpr ⟨?_,hrest,?_⟩
      · split
        · exact List.pairwise_singleton _ _
        · exact List.Pairwise.nil
      · intro x hx y hy hxy
        split at hx
        · rename_i hj
          subst hj
          rw [List.mem_singleton.mp hx] at hxy ⊢
          exact given_above j _ es _ (linked_ask p j j hl) hm.2 hlive (passed_new p j s) y hy
            hxy.symm
        · cases hx

omit [DecidableEq Peer] in
theorem good_start (i : Inv) (now : ℕ) : Good i (start now : State Peer Inv) :=
  ⟨fun _ => List.Pairwise.nil,fun _ _ _ _ ha => absurd ha List.not_mem_nil⟩

omit [DecidableEq Peer] in
theorem linked_start (i : Inv) (now : ℕ) : Linked i (start now : State Peer Inv) := by
  constructor
  · intro h
    change (now : ℤ)*1000000 < 0 at h
    omega
  · rintro k ⟨p,hk⟩
    exact absurd hk List.not_mem_nil

theorem along_append (P : Event Peer Inv → State Peer Inv → Prop)
    (es ds : List (Event Peer Inv)) (s : State Peer Inv) :
    Along P (es++ds) s ↔ Along P es s ∧ Along P ds (run es s) := by
  induction es generalizing s with
  | nil => exact ⟨fun h => ⟨trivial,h⟩,fun h => h.2⟩
  | cons e es ih =>
    rw [List.cons_append, Along, Along, ih, and_assoc]
    rfl

theorem run_invariants (hg : Good i s) (hl : Linked i s) (hp : Along Prompt es s)
    (hm : Along (Meets i) es s) : Good i (run es s) ∧ Linked i (run es s) := by
  induction es generalizing s with
  | nil => exact ⟨hg,hl⟩
  | cons e es ih =>
    exact ih _ (step_good hg hp.1 hm.1) (step_linked e hl) hp.2 hm.2

/-- Requests for an item are spaced while it is remembered, if every call meets the condition. -/
theorem requests_spaced (i : Inv) (now : ℕ) (es ds : List (Event Peer Inv))
    (hp : Along Prompt (es++ds) (start now)) (hm : Along (Meets i) (es++ds) (start now))
    (ha : Alive i ds) : Spaced i ds (run es (start now)) := by
  obtain ⟨hp1,hp2⟩ := (along_append _ es ds _).mp hp
  obtain ⟨hm1,hm2⟩ := (along_append _ es ds _).mp hm
  obtain ⟨hg,hl⟩ := run_invariants _ (good_start i now) (linked_start i now) hp1 hm1
  exact ⟨sent_spaced _ hg hp2 hm2 ha,given_ascend _ hl hm2 ha⟩

end Runs

def twoPeers : List (Event (Fin 2) Unit) :=
  [.askFor 0 (),.sendMessages true (fun _ => false) 0,.askFor 1 (),.wait 120,
    .sendMessages true (fun _ => false) 1]

theorem two_peers_spaced : Spaced () twoPeers (start 1000) := by
  apply requests_spaced () 1000 [] twoPeers
  · refine ⟨trivial,trivial,trivial,Or.inr ?_,trivial,trivial⟩
    decide
  · refine ⟨fun _ => ?_,trivial,fun _ => ?_,trivial,trivial,trivial⟩
    · decide
    · decide
  · intro e he
    simp only [twoPeers, List.mem_cons, List.not_mem_nil, or_false] at he
    rcases he with rfl | rfl | rfl | rfl | rfl <;> simp

def fourPeers : List (Event (Fin 4) Unit) :=
  [.askFor 0 (),.sendMessages true (fun _ => false) 0,.askFor 1 (),.askFor 2 (),.wait 120,
    .sendMessages true (fun _ => false) 1,.askFor 3 (),.wait 120,
    .sendMessages true (fun _ => false) 2,.sendMessages true (fun _ => false) 3]

theorem two_requests_at_once : ¬∀ (now : ℕ) (es ds : List (Event (Fin 4) Unit)),
    Along Prompt (es++ds) (start now) → Alive () ds → Spaced () ds (run es (start now)) := by
  intro h
  have hs := h 1000 [] fourPeers
    (by
      refine ⟨trivial,trivial,trivial,trivial,Or.inr ?_,trivial,trivial,Or.inr ?_,trivial,
        trivial,trivial⟩
      · decide
      · decide)
    (by
      intro e he
      simp only [fourPeers, List.mem_cons, List.not_mem_nil, or_false] at he
      rcases he with rfl | rfl | rfl | rfl | rfl | rfl | rfl | rfl | rfl | rfl <;> simp)
  have hsent : sent () fourPeers (run [] (start 1000)) = [1000,1120,1240,1240] := by decide
  have hp := hs.1
  rw [hsent] at hp
  revert hp
  decide

end SwippCore.AskFor
