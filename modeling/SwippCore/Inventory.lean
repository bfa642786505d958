import SwippCore.Lib.Batches
import SwippCore.Primitives
import Mathlib.Data.Finset.Basic

/-!
# The inventory for a peer

Items wait in a queue until a pass announces them. Those that the peer knows are left
out, transactions may be held back until a pass that trickles, and what is announced
becomes known. The set of known items is bounded and forgets the oldest ones.
-/

set_option autoImplicit false

namespace SwippCore

structure MruSet (T : Type) [DecidableEq T] where
  set : Finset T
  queue : List T
  nMaxSize : ℕ
  same : ∀ x, x ∈ set ↔ x ∈ queue
  nodup : queue.Nodup
  held : nMaxSize ≠ 0 → queue.length ≤ nMaxSize

namespace MruSet
variable {T : Type} [DecidableEq T]

omit [DecidableEq T] in
theorem mem_of_nil (x : T) : x ∈ (∅ : Finset T) ↔ x ∈ ([] : List T) := by simp

def new : MruSet T := ⟨∅,[],0,mem_of_nil,List.nodup_nil,fun _ => Nat.zero_le _⟩

def Full (m : MruSet T) : Prop := m.nMaxSize ≠ 0 ∧ m.queue.length = m.nMaxSize

instance (m : MruSet T) : Decidable (Full m) := inferInstanceAs (Decidable (_ ∧ _))

def front (m : MruSet T) : Option T := if Full m then m.queue.head? else none

variable (m : MruSet T)

theorem same_insert (x : T) (h : x ∉ m.set) (z : T) :
    z ∈ (if Full m then (insert x m.set).erase (m.queue.headD x) else insert x m.set) ↔
      z ∈ (if Full m then m.queue.tail else m.queue)++[x] := by
  have hx : x ∉ m.queue := fun hx => h ((m.same x).mpr hx)
  split
  · rename_i hf
    have hne : m.queue ≠ [] := by
      intro hnil
      have hl := hf.2
      rw [hnil, List.length_nil] at hl
      exact hf.1 hl.symm
    obtain ⟨y,ys,hq⟩ := List.exists_cons_of_ne_nil hne
    have hnd := m.nodup
    rw [hq] at hnd hx
    have hy := (List.nodup_cons.mp hnd).1
    have hxy : x ≠ y := fun he => hx (he ▸ List.mem_cons_self)
    rw [Finset.mem_erase, Finset.mem_insert, m.same, hq]
    simp only [List.headD_cons, List.tail_cons, List.mem_append, List.mem_cons,
      List.not_mem_nil, or_false]
    constructor
    · rintro ⟨hzy,rfl | rfl | hz⟩
      · exact Or.inr rfl
      · exact absurd rfl hzy
      · exact Or.inl hz
    · rintro (hz | rfl)
      · exact ⟨fun he => hy (he ▸ hz),Or.inr (Or.inr hz)⟩
      · exact ⟨hxy,Or.inl rfl⟩
  · rw [Finset.mem_insert, m.same, List.mem_append, List.mem_singleton]
    exact or_comm

theorem nodup_insert (x : T) (h : x ∉ m.set) :
    ((if Full m then m.queue.tail else m.queue)++[x]).Nodup := by
  have hx : x ∉ m.queue := fun hx => h ((m.same x).mpr hx)
  have hsub : (if Full m then m.queue.tail else m.queue).Sublist m.queue := by
    split
    · exact List.tail_sublist _
    · exact List.Sublist.refl _
  rw [List.nodup_append]
  refine ⟨m.nodup.sublist hsub,List.nodup_singleton _,?_⟩
  intro a ha b hb hab
  rw [List.mem_singleton.mp hb] at hab
  exact hx (hab ▸ hsub.subset ha)

theorem held_insert (x : T) (h : m.nMaxSize ≠ 0) :
    ((if Full m then m.queue.tail else m.queue)++[x]).length ≤ m.nMaxSize := by
  have hm := m.held h
  rw [List.length_append, List.length_singleton]
  split
  · rename_i hf
    have hl := hf.2
    rw [List.length_tail]
    omega
  · rename_i hf
    have hne : m.queue.length ≠ m.nMaxSize := fun he => hf ⟨h,he⟩
    omega

def insert (x : T) (m : MruSet T) : MruSet T × Bool :=
  if h : x ∈ m.set then (m,false)
  else
    (⟨if Full m then (Insert.insert x m.set).erase (m.queue.headD x) else Insert.insert x m.set,
      (if Full m then m.queue.tail else m.queue)++[x],m.nMaxSize,same_insert m x h,
      nodup_insert m x h,held_insert m x⟩,true)

theorem insert_known {x : T} {m : MruSet T} (h : x ∈ m.set) : m.insert x = (m,false) := dif_pos h

theorem insert_new {x : T} {m : MruSet T} (h : x ∉ m.set) : (m.insert x).2 = true := by
  rw [insert, dif_neg h]

theorem mem_insert (x z : T) (m : MruSet T) (h : x ∉ m.set) :
    z ∈ (m.insert x).1.set ↔ z = x ∨ (z ∈ m.set ∧ m.front ≠ some z) := by
  rw [(m.insert x).1.same, insert, dif_neg h, m.same, front]
  split
  · rename_i hf
    change z ∈ m.queue.tail++[x] ↔ _
    cases hq : m.queue with
    | nil =>
      have hl := hf.2
      rw [hq, List.length_nil] at hl
      exact absurd hl.symm hf.1
    | cons y ys =>
      have hnd := m.nodup
      rw [hq] at hnd
      have hy := (List.nodup_cons.mp hnd).1
      simp only [List.tail_cons, List.mem_append, List.mem_cons, List.not_mem_nil, or_false,
        List.head?_cons, ne_eq, Option.some.injEq]
      constructor
      · rintro (hz | hz)
        · exact Or.inr ⟨Or.inr hz,fun he => hy (he ▸ hz)⟩
        · exact Or.inl hz
      · rintro (hz | ⟨rfl | hz,hne⟩)
        · exact Or.inr hz
        · exact absurd rfl hne
        · exact Or.inl hz
  · simp [or_comm]

def shrink (s : ℕ) : Finset T → List T → Finset T × List T
  | set, [] => (set,[])
  | set, x::xs => if s < (x::xs).length then shrink s (set.erase x) xs else (set,x::xs)

theorem shrink_spec (s : ℕ) (set : Finset T) (queue : List T) (hs : ∀ x, x ∈ set ↔ x ∈ queue)
    (hn : queue.Nodup) : (∀ x, x ∈ (shrink s set queue).1 ↔ x ∈ (shrink s set queue).2) ∧
      (shrink s set queue).2.Nodup ∧ (shrink s set queue).2.length ≤ s := by
  induction queue generalizing set with
  | nil => exact ⟨hs,hn,Nat.zero_le _⟩
  | cons y ys ih =>
    have hy := List.nodup_cons.mp hn
    rw [shrink]
    split
    · apply ih _ _ hy.2
      intro x
      rw [Finset.mem_erase, hs, List.mem_cons]
      constructor
      · rintro ⟨hne,h⟩
        exact h.resolve_left hne
      · intro h
        exact ⟨fun he => hy.1 (he ▸ h),Or.inr h⟩
    · rename_i hle
      exact ⟨hs,hn,Nat.le_of_not_lt hle⟩

omit [DecidableEq T] in
theorem held_zero (s : ℕ) (xs : List T) (h : s = 0) : s ≠ 0 → xs.length ≤ s := fun hs => absurd h hs

def maxSize (s : ℕ) (m : MruSet T) : MruSet T :=
  if h : s = 0 then ⟨m.set,m.queue,s,m.same,m.nodup,held_zero s m.queue h⟩
  else
    ⟨(shrink s m.set m.queue).1,(shrink s m.set m.queue).2,s,
      (shrink_spec s m.set m.queue m.same m.nodup).1,
      (shrink_spec s m.set m.queue m.same m.nodup).2.1,
      fun _ => (shrink_spec s m.set m.queue m.same m.nodup).2.2⟩

end MruSet

inductive Note (T : Type)
  | known (x : T)
  | noted (x : T)
  | sent (x : T)
  | evicted (x : T)
deriving DecidableEq

namespace Note
variable {T : Type} [DecidableEq T]

def apply : Note T → Finset T → Finset T
  | known _, s => s
  | noted x, s => Insert.insert x s
  | sent x, s => Insert.insert x s
  | evicted x, s => s.erase x

def Fits : Note T → Finset T → Prop
  | known x, s => x ∈ s
  | sent x, s => x ∉ s
  | _, _ => True

def after : List (Note T) → Finset T → Finset T
  | [], s => s
  | n::ns, s => after ns (n.apply s)

def Valid : List (Note T) → Finset T → Prop
  | [], _ => True
  | n::ns, s => n.Fits s ∧ Valid ns (n.apply s)

def item : Note T → Option T
  | sent x => some x
  | _ => none

theorem after_append (ns ms : List (Note T)) (s : Finset T) :
    after (ns++ms) s = after ms (after ns s) := by
  induction ns generalizing s with
  | nil => rfl
  | cons n ns ih => exact ih _

theorem valid_append (ns ms : List (Note T)) (s : Finset T) :
    Valid (ns++ms) s ↔ Valid ns s ∧ Valid ms (after ns s) := by
  induction ns generalizing s with
  | nil => exact ⟨fun h => ⟨trivial,h⟩,fun h => h.2⟩
  | cons n ns ih => rw [List.cons_append, Valid, Valid, ih, and_assoc, after]

theorem known_after (x : T) (ns : List (Note T)) (s : Finset T) (hx : x ∈ s)
    (he : .evicted x ∉ ns) : x ∈ after ns s := by
  induction ns generalizing s with
  | nil => exact hx
  | cons n ns ih =>
    have hn : Note.evicted x ≠ n := fun h => he (h ▸ List.mem_cons_self)
    apply ih _ _ (fun h => he (List.mem_cons_of_mem _ h))
    cases n with
    | known y => exact hx
    | noted y => exact Finset.mem_insert_of_mem hx
    | sent y => exact Finset.mem_insert_of_mem hx
    | evicted y =>
      apply Finset.mem_erase.mpr ⟨_,hx⟩
      rintro rfl
      exact hn rfl

theorem evicted_between {x : T} {ns ms ls : List (Note T)} {s : Finset T}
    (h : Valid (ns++.sent x::ms++.sent x::ls) s) : .evicted x ∈ ms := by
  by_contra he
  have h1 := (valid_append _ _ _).mp h
  rw [after_append] at h1
  have hin : x ∈ after (.sent x::ms) (after ns s) :=
    known_after x ms _ (Finset.mem_insert_self x _) he
  exact h1.2.1 hin

theorem known_or_evicted {x : T} {ns : List (Note T)} {s : Finset T} (h : Valid ns s)
    (hx : .sent x ∈ ns ∨ .known x ∈ ns) : x ∈ after ns s ∨ .evicted x ∈ ns := by
  have hsplit : ∃ ms n ls, ns = ms++n::ls ∧ x ∈ n.apply (after ms s) := by
    rcases hx with hx | hx
    · obtain ⟨ms,ls,rfl⟩ := List.append_of_mem hx
      exact ⟨ms,_,ls,rfl,Finset.mem_insert_self x _⟩
    · obtain ⟨ms,ls,rfl⟩ := List.append_of_mem hx
      exact ⟨ms,_,ls,rfl,((valid_append _ _ _).mp h).2.1⟩
  obtain ⟨ms,n,ls,rfl,hin⟩ := hsplit
  by_cases he : .evicted x ∈ ls
  · exact Or.inr (List.mem_append_right _ (List.mem_cons_of_mem _ he))
  · rw [after_append]
    exact Or.inl (known_after x ls _ hin he)

end Note

namespace Inventory
open Note

structure CInv where
  type : ℤ
  hash : Uint256
deriving DecidableEq

def MSG_TX : ℤ := 1

structure CNode where
  nVersion : ℤ
  setInventoryKnown : MruSet CInv
  vInventoryToSend : List CInv

structure Effect where
  node : CNode
  inv : List (List CInv)
  notes : List (Note CInv)

def insertion (inv : CInv) (m : MruSet CInv) (note : Note CInv) : List (Note CInv) :=
  if inv ∈ m.set then [] else m.front.toList.map Note.evicted++[note]

def addInventoryKnown (inv : CInv) (n : CNode) : Effect :=
  ⟨{ n with setInventoryKnown := (n.setInventoryKnown.insert inv).1 },[],
    insertion inv n.setInventoryKnown (.noted inv)⟩

def pushInventory (inv : CInv) (n : CNode) : Effect :=
  if inv ∈ n.setInventoryKnown.set then ⟨n,[],[.known inv]⟩
  else ⟨{ n with vInventoryToSend := n.vInventoryToSend++[inv] },[],[]⟩

section Passes
variable (hash : Uint256 → ℕ) (hashSalt : Uint256)

def fTrickleWait (inv : CInv) : Bool := hash (inv.hash ^^^ hashSalt)%4 ≠ 0

structure Pass where
  setInventoryKnown : MruSet CInv
  vInv : Batches CInv
  vInvWait : List CInv
  notes : List (Note CInv)

def examine (fSendTrickle : Bool) (r : Pass) (inv : CInv) : Pass :=
  if inv ∈ r.setInventoryKnown.set then { r with notes := r.notes++[.known inv] }
  else if inv.type = MSG_TX ∧ !fSendTrickle ∧ fTrickleWait hash hashSalt inv then
    { r with vInvWait := r.vInvWait++[inv] }
  else
    let i := r.setInventoryKnown.insert inv
    if i.2 then
      { r with
        setInventoryKnown := i.1
        vInv := r.vInv.add 1000 inv
        notes := r.notes++insertion inv r.setInventoryKnown (.sent inv) }
    else { r with setInventoryKnown := i.1 }

def pass (fSendTrickle : Bool) (n : CNode) : Pass :=
  n.vInventoryToSend.foldl (examine hash hashSalt fSendTrickle)
    ⟨n.setInventoryKnown,Batches.empty,[],[]⟩

/-- The inventory part; `lockMain` tells whether the main lock was obtained. -/
def sendMessages (lockMain fSendTrickle : Bool) (n : CNode) : Effect :=
  if lockMain then
    -- Don't send anything until we get their version message
    if n.nVersion = 0 then ⟨n,[],[]⟩
    else
      let r := pass hash hashSalt fSendTrickle n
      ⟨{ n with setInventoryKnown := r.setInventoryKnown, vInventoryToSend := r.vInvWait },
        r.vInv.close,r.notes⟩
  else ⟨n,[],[]⟩

inductive Call
  | version (nVersion : ℤ)
  | pushInventory (inv : CInv)
  | addInventoryKnown (inv : CInv)
  | sendMessages (lockMain fSendTrickle : Bool)

def step : Call → CNode → Effect
  | .version v, n => ⟨{ n with nVersion := v },[],[]⟩
  | .pushInventory inv, n => pushInventory inv n
  | .addInventoryKnown inv, n => addInventoryKnown inv n
  | .sendMessages lockMain fSendTrickle, n => sendMessages hash hashSalt lockMain fSendTrickle n

def run : List Call → CNode → CNode
  | [], n => n
  | c::cs, n => run cs (step hash hashSalt c n).node

def messages : List Call → CNode → List (List CInv)
  | [], _ => []
  | c::cs, n => (step hash hashSalt c n).inv++messages cs (step hash hashSalt c n).node

def notes : List Call → CNode → List (Note CInv)
  | [], _ => []
  | c::cs, n => (step hash hashSalt c n).notes++notes cs (step hash hashSalt c n).node

def start (size : ℕ) : CNode := ⟨0,MruSet.new.maxSize size,[]⟩

theorem insertion_valid {inv : CInv} (m : MruSet CInv) {note : Note CInv}
    (hn : note = .noted inv ∨ note = .sent inv) :
    Valid (insertion inv m note) m.set ∧
      after (insertion inv m note) m.set = (m.insert inv).1.set := by
  rw [insertion]
  by_cases hk : inv ∈ m.set
  · rw [if_pos hk, MruSet.insert_known hk]
    exact ⟨trivial,rfl⟩
  · rw [if_neg hk]
    have hfits : ∀ s : Finset CInv, inv ∉ s →
        Valid [note] s ∧ after [note] s = Insert.insert inv s := by
      intro s hs
      rcases hn with rfl | rfl
      · exact ⟨⟨trivial,trivial⟩,rfl⟩
      · exact ⟨⟨hs,trivial⟩,rfl⟩
    cases hf : m.front with
    | none =>
      refine ⟨(hfits _ hk).1,?_⟩
      rw [Option.toList_none, List.map_nil, List.nil_append, (hfits _ hk).2]
      ext z
      rw [MruSet.mem_insert inv z m hk, hf, Finset.mem_insert]
      simp
    | some y =>
      have hy : inv ∉ m.set.erase y := fun h => hk (Finset.mem_of_mem_erase h)
      refine ⟨⟨trivial,(hfits _ hy).1⟩,?_⟩
      rw [Option.toList_some, List.map_singleton, List.singleton_append, after]
      rw [show (Note.evicted y).apply m.set = m.set.erase y from rfl, (hfits _ hy).2]
      ext z
      rw [MruSet.mem_insert inv z m hk, hf, Finset.mem_insert, Finset.mem_erase]
      constructor
      · rintro (h | ⟨hne,h⟩)
        · exact Or.inl h
        · exact Or.inr ⟨h,fun he => hne (Option.some.inj he).symm⟩
      · rintro (h | ⟨h,hne⟩)
        · exact Or.inl h
        · exact Or.inr ⟨fun he => hne (by rw [he]),h⟩

theorem insertion_item {inv : CInv} {m : MruSet CInv} (note : Note CInv) (h : inv ∉ m.set) :
    (insertion inv m note).filterMap item = [note].filterMap item := by
  rw [insertion, if_neg h, List.filterMap_append]
  cases m.front <;> rfl

theorem insertion_count {inv : CInv} {m : MruSet CInv} (note n : Note CInv) (h : inv ∉ m.set)
    (hn : ∀ y, n ≠ .evicted y) : (insertion inv m note).count n = [note].count n := by
  rw [insertion, if_neg h, List.count_append, Nat.add_eq_right, List.count_eq_zero]
  intro hmem
  obtain ⟨y,_,hy⟩ := List.mem_map.mp hmem
  exact hn y hy.symm

structure Passed (s : Finset CInv) (done : List CInv) (r : Pass) : Prop where
  valid : Valid r.notes s
  known : after r.notes s = r.setInventoryKnown.set
  sent : r.vInv.entries = r.notes.filterMap item
  waits : r.vInvWait.Sublist done
  counts : ∀ x, done.count x =
    r.vInvWait.count x+r.notes.count (.sent x)+r.notes.count (.known x)

variable (fSendTrickle : Bool)

theorem examine_passed {s : Finset CInv} {done : List CInv} {r : Pass} (inv : CInv)
    (h : Passed s done r) : Passed s (done++[inv]) (examine hash hashSalt fSendTrickle r inv) := by
  have hcount : ∀ x, (done++[inv]).count x = done.count x+[inv].count x :=
    fun x => List.count_append
  rw [examine]
  split
  · -- found known
    rename_i hk
    refine ⟨?_,?_,?_,h.waits.trans (List.sublist_append_left _ _),?_⟩
    · exact (valid_append _ _ _).mpr ⟨h.valid,by rw [h.known]; exact ⟨hk,trivial⟩⟩
    · rw [after_append, h.known]
      rfl
    · rw [List.filterMap_append, h.sent]
      simp [item]
    · intro x
      dsimp only
      rw [hcount, h.counts, List.count_append, List.count_append]
      have hs : [Note.known inv].count (.sent x) = 0 := by simp
      have hn : [Note.known inv].count (.known x) = [inv].count x := by
        simp [List.count_singleton]
      omega
  · rename_i hk
    split
    · -- held back
      refine ⟨h.valid,h.known,h.sent,h.waits.append (List.Sublist.refl _),?_⟩
      intro x
      have hc := h.counts x
      dsimp only
      rw [hcount, List.count_append]
      omega
    · -- sent
      obtain ⟨hv,ha⟩ := insertion_valid r.setInventoryKnown (Or.inr rfl)
      rw [← h.known] at hv ha
      dsimp only
      rw [if_pos (MruSet.insert_new hk)]
      refine ⟨(valid_append _ _ _).mpr ⟨h.valid,?_⟩,?_,?_,
        h.waits.trans (List.sublist_append_left _ _),?_⟩
      · rw [h.known] at hv ⊢
        exact hv
      · rw [after_append, h.known]
        rw [h.known] at ha
        exact ha
      · rw [Batches.entries_add, h.sent, List.filterMap_append, insertion_item _ hk]
        rfl
      · intro x
        dsimp only
        rw [hcount, h.counts, List.count_append, List.count_append,
          insertion_count _ _ hk (by simp), insertion_count _ _ hk (by simp)]
        have hs : [Note.sent inv].count (.sent x) = [inv].count x := by
          simp [List.count_singleton]
        have hn : [Note.sent inv].count (.known x) = 0 := by simp
        omega

theorem examine_bounded {r : Pass} (inv : CInv) (h : Batches.Bounded 1000 r.vInv) :
    Batches.Bounded 1000 (examine hash hashSalt fSendTrickle r inv).vInv := by
  rw [examine]
  split
  · exact h
  · split
    · exact h
    · dsimp only
      split
      · exact Batches.bounded_add inv h
      · exact h

theorem examine_waits (r : Pass) (inv : CInv) :
    (examine hash hashSalt true r inv).vInvWait = r.vInvWait := by
  rw [examine]
  split
  · rfl
  · rw [if_neg (by simp)]
    dsimp only
    split <;> rfl

theorem pass_passed (queue : List CInv) (s : Finset CInv) (done : List CInv) (r : Pass)
    (h : Passed s done r) :
    Passed s (done++queue) (queue.foldl (examine hash hashSalt fSendTrickle) r) := by
  induction queue generalizing done r with
  | nil => simpa using h
  | cons inv queue ih =>
    have hi := ih _ _ (examine_passed hash hashSalt fSendTrickle inv h)
    rw [List.append_assoc] at hi
    exact hi

theorem pass_spec (n : CNode) :
    Passed n.setInventoryKnown.set n.vInventoryToSend (pass hash hashSalt fSendTrickle n) := by
  apply pass_passed hash hashSalt fSendTrickle n.vInventoryToSend n.setInventoryKnown.set []
  exact ⟨trivial,rfl,rfl,List.Sublist.refl _,by simp⟩

theorem pass_bounded (n : CNode) :
    Batches.Bounded 1000 (pass hash hashSalt fSendTrickle n).vInv := by
  rw [pass]
  have h0 : Batches.Bounded 1000 (Batches.empty : Batches CInv) :=
    Batches.bounded_empty (by omega)
  suffices h : ∀ r : Pass, Batches.Bounded 1000 r.vInv → Batches.Bounded 1000
      (n.vInventoryToSend.foldl (examine hash hashSalt fSendTrickle) r).vInv from h _ h0
  induction n.vInventoryToSend with
  | nil => exact fun _ h => h
  | cons inv queue ih =>
    intro r h
    exact ih _ (examine_bounded hash hashSalt fSendTrickle inv h)

theorem trickle_waits (n : CNode) : (pass hash hashSalt true n).vInvWait = [] := by
  rw [pass]
  suffices h : ∀ r : Pass,
      (n.vInventoryToSend.foldl (examine hash hashSalt true) r).vInvWait = r.vInvWait from h _
  induction n.vInventoryToSend with
  | nil => exact fun _ => rfl
  | cons inv queue ih =>
    intro r
    rw [List.foldl_cons, ih, examine_waits]

theorem step_valid (c : Call) (n : CNode) :
    Valid (step hash hashSalt c n).notes n.setInventoryKnown.set ∧
      after (step hash hashSalt c n).notes n.setInventoryKnown.set =
        (step hash hashSalt c n).node.setInventoryKnown.set := by
  cases c with
  | version v => exact ⟨trivial,rfl⟩
  | pushInventory inv =>
    rw [step, pushInventory]
    split
    · rename_i hk
      exact ⟨⟨hk,trivial⟩,rfl⟩
    · exact ⟨trivial,rfl⟩
  | addInventoryKnown inv => exact insertion_valid _ (Or.inl rfl)
  | sendMessages lockMain fSendTrickle =>
    rw [step, sendMessages]
    split
    · split
      · exact ⟨trivial,rfl⟩
      · have hp := pass_spec hash hashSalt fSendTrickle n
        exact ⟨hp.valid,hp.known⟩
    · exact ⟨trivial,rfl⟩

theorem step_sent (c : Call) (n : CNode) :
    (step hash hashSalt c n).inv.flatten = (step hash hashSalt c n).notes.filterMap item := by
  cases c with
  | version v => rfl
  | pushInventory inv =>
    rw [step, pushInventory]
    split <;> rfl
  | addInventoryKnown inv =>
    change [] = (insertion inv n.setInventoryKnown (.noted inv)).filterMap item
    by_cases hk : inv ∈ n.setInventoryKnown.set
    · rw [insertion, if_pos hk]
      rfl
    · rw [insertion_item _ hk]
      rfl
  | sendMessages lockMain fSendTrickle =>
    rw [step, sendMessages]
    split
    · split
      · rfl
      · have hp := pass_spec hash hashSalt fSendTrickle n
        dsimp only
        rw [Batches.close_flatten, hp.sent]
    · rfl

variable {n : CNode}

theorem step_bounded {c : Call} {v : List CInv} (hv : v ∈ (step hash hashSalt c n).inv) :
    v.length ≤ 1000 := by
  cases c with
  | version v => cases hv
  | pushInventory inv =>
    rw [step, pushInventory] at hv
    split at hv <;> cases hv
  | addInventoryKnown inv => cases hv
  | sendMessages lockMain fSendTrickle =>
    rw [step, sendMessages] at hv
    split at hv
    · split at hv
      · cases hv
      · exact (Batches.bounded_close (pass_bounded hash hashSalt fSendTrickle n) hv).2
    · cases hv

theorem step_queue (c : Call) {x : CInv} (hx : x ∈ n.vInventoryToSend) :
    x ∈ (step hash hashSalt c n).node.vInventoryToSend ∨
      .sent x ∈ (step hash hashSalt c n).notes ∨ .known x ∈ (step hash hashSalt c n).notes := by
  cases c with
  | version v => exact Or.inl hx
  | pushInventory inv =>
    rw [step, pushInventory]
    split
    · exact Or.inl hx
    · exact Or.inl (List.mem_append_left _ hx)
  | addInventoryKnown inv => exact Or.inl hx
  | sendMessages lockMain fSendTrickle =>
    rw [step, sendMessages]
    split
    · split
      · exact Or.inl hx
      · have hp := (pass_spec hash hashSalt fSendTrickle n).counts x
        have hpos := List.count_pos_iff.mpr hx
        dsimp only
        rw [← List.count_pos_iff, ← List.count_pos_iff, ← List.count_pos_iff]
        omega
    · exact Or.inl hx

variable (cs : List Call)

theorem run_valid (n : CNode) :
    Valid (notes hash hashSalt cs n) n.setInventoryKnown.set ∧
      after (notes hash hashSalt cs n) n.setInventoryKnown.set =
        (run hash hashSalt cs n).setInventoryKnown.set := by
  induction cs generalizing n with
  | nil => exact ⟨trivial,rfl⟩
  | cons c cs ih =>
    obtain ⟨hv,ha⟩ := step_valid hash hashSalt c n
    obtain ⟨hvs,has⟩ := ih (step hash hashSalt c n).node
    rw [← ha] at hvs has
    exact ⟨(valid_append _ _ _).mpr ⟨hv,hvs⟩,by rw [notes, after_append, has]; rfl⟩

theorem run_sent (n : CNode) :
    (messages hash hashSalt cs n).flatten = (notes hash hashSalt cs n).filterMap item := by
  induction cs generalizing n with
  | nil => rfl
  | cons c cs ih =>
    rw [messages, notes, List.flatten_append, List.filterMap_append, ih, step_sent]

theorem run_bounded (n : CNode) : ∀ v ∈ messages hash hashSalt cs n, v.length ≤ 1000 := by
  induction cs generalizing n with
  | nil => exact fun v hv => absurd hv List.not_mem_nil
  | cons c cs ih =>
    intro v hv
    rcases List.mem_append.mp hv with hv | hv
    · exact step_bounded hash hashSalt hv
    · exact ih _ v hv

theorem run_queue (n : CNode) {x : CInv} (hx : x ∈ n.vInventoryToSend) :
    x ∈ (run hash hashSalt cs n).vInventoryToSend ∨
      .sent x ∈ notes hash hashSalt cs n ∨ .known x ∈ notes hash hashSalt cs n := by
  induction cs generalizing n with
  | nil => exact Or.inl hx
  | cons c cs ih =>
    rw [run, notes, List.mem_append, List.mem_append]
    rcases step_queue hash hashSalt c hx with h | h | h
    · rcases ih _ h with h | h | h
      · exact Or.inl h
      · exact Or.inr (Or.inl (Or.inr h))
      · exact Or.inr (Or.inr (Or.inr h))
    · exact Or.inr (Or.inl (Or.inl h))
    · exact Or.inr (Or.inr (Or.inl h))

theorem run_append (ds : List Call) (n : CNode) :
    run hash hashSalt (cs++ds) n = run hash hashSalt ds (run hash hashSalt cs n) := by
  induction cs generalizing n with
  | nil => rfl
  | cons c cs ih => exact ih _

theorem trickle_clears (h : n.nVersion ≠ 0) :
    (step hash hashSalt (.sendMessages true true) n).node.vInventoryToSend = [] := by
  rw [step, sendMessages, if_pos rfl, if_neg h]
  exact trickle_waits hash hashSalt n

theorem pushed_settled {x : CInv} {cs : List Call}
    (h : (run hash hashSalt (.pushInventory x::cs) n).nVersion ≠ 0) :
    .sent x ∈ notes hash hashSalt (.pushInventory x::cs++[.sendMessages true true]) n ∨
      .known x ∈ notes hash hashSalt (.pushInventory x::cs++[.sendMessages true true]) n := by
  by_cases hk : x ∈ n.setInventoryKnown.set
  · apply Or.inr
    rw [List.cons_append, notes, step, pushInventory, if_pos hk]
    exact List.mem_append_left _ List.mem_cons_self
  · have hp : step hash hashSalt (.pushInventory x) n =
        ⟨{ n with vInventoryToSend := n.vInventoryToSend++[x] },[],[]⟩ := if_neg hk
    have hin : x ∈ (step hash hashSalt (.pushInventory x) n).node.vInventoryToSend := by
      rw [hp]
      exact List.mem_append_right _ List.mem_cons_self
    rw [List.cons_append, notes, hp, List.nil_append]
    rw [hp] at hin
    rcases run_queue hash hashSalt (cs++[.sendMessages true true]) _ hin with hq | hq
    · rw [run, hp] at h
      rw [run_append, run, run, trickle_clears hash hashSalt h] at hq
      cases hq
    · exact hq

theorem start_known (size : ℕ) : (start size).setInventoryKnown.set = ∅ := by
  change (MruSet.new.maxSize size : MruSet CInv).set = ∅
  rw [MruSet.maxSize]
  split <;> rfl

structure Announced (size : ℕ) (cs : List Call) : Prop where
  bounded : ∀ v ∈ messages hash hashSalt cs (start size), v.length ≤ 1000
  told : (messages hash hashSalt cs (start size)).flatten =
    (notes hash hashSalt cs (start size)).filterMap item
  valid : Valid (notes hash hashSalt cs (start size)) ∅
  known : after (notes hash hashSalt cs (start size)) ∅ =
    (run hash hashSalt cs (start size)).setInventoryKnown.set
  once : ∀ x ns ms ls, notes hash hashSalt cs (start size) = ns++.sent x::ms++.sent x::ls →
    .evicted x ∈ ms
  settled : ∀ ds x es n, cs = ds++(.pushInventory x::es++[.sendMessages true true]) →
    n = run hash hashSalt ds (start size) →
    (run hash hashSalt (.pushInventory x::es) n).nVersion ≠ 0 →
    let ns := notes hash hashSalt (.pushInventory x::es++[.sendMessages true true]) n
    (.sent x ∈ ns ∨ .known x ∈ ns) ∧
      (x ∈ (run hash hashSalt cs (start size)).setInventoryKnown.set ∨ .evicted x ∈ ns)
  kept : ∀ n lockMain fSendTrickle, n = run hash hashSalt cs (start size) →
    let e := step hash hashSalt (.sendMessages lockMain fSendTrickle) n
    e.node.vInventoryToSend.Sublist n.vInventoryToSend ∧
      ∀ x, n.vInventoryToSend.count x = e.node.vInventoryToSend.count x+
        e.notes.count (.sent x)+e.notes.count (.known x)

theorem step_kept (lockMain fSendTrickle : Bool) (n : CNode) :
    (step hash hashSalt (.sendMessages lockMain fSendTrickle) n).node.vInventoryToSend.Sublist
        n.vInventoryToSend ∧
      ∀ x, n.vInventoryToSend.count x =
        (step hash hashSalt (.sendMessages lockMain fSendTrickle) n).node.vInventoryToSend.count x+
        (step hash hashSalt (.sendMessages lockMain fSendTrickle) n).notes.count (.sent x)+
        (step hash hashSalt (.sendMessages lockMain fSendTrickle) n).notes.count (.known x) := by
  rw [step, sendMessages]
  split
  · split
    · exact ⟨List.Sublist.refl _,fun x => by simp⟩
    · have hp := pass_spec hash hashSalt fSendTrickle n
      exact ⟨hp.waits,hp.counts⟩
  · exact ⟨List.Sublist.refl _,fun x => by simp⟩

/-- Whatever the calls: pushed items are settled by a pass that trickles and reaches the queue. -/
theorem inventory_announced (size : ℕ) (cs : List Call) : Announced hash hashSalt size cs := by
  obtain ⟨hv,ha⟩ := run_valid hash hashSalt cs (start size)
  rw [start_known] at hv ha
  refine ⟨run_bounded hash hashSalt cs _,run_sent hash hashSalt cs _,hv,ha,?_,?_,?_⟩
  · intro x ns ms ls h
    rw [h] at hv
    exact evicted_between hv
  · rintro ds x es n rfl rfl hversion
    have hs := pushed_settled hash hashSalt hversion
    refine ⟨hs,?_⟩
    obtain ⟨hvn,han⟩ := run_valid hash hashSalt
      (.pushInventory x::es++[.sendMessages true true]) (run hash hashSalt ds (start size))
    rw [run_append, ← han]
    exact known_or_evicted hvn hs
  · rintro n lockMain fSendTrickle rfl
    exact step_kept hash hashSalt lockMain fSendTrickle _

end Passes

/-- Before the version message of the peer, a pass that trickles leaves the queue as it is. -/
theorem unversioned_peer_waits : ¬∀ (hash : Uint256 → ℕ) (hashSalt : Uint256) (size : ℕ)
    (ds : List Call) (x : CInv) (es : List Call),
    let ns := notes hash hashSalt (.pushInventory x::es++[.sendMessages true true])
      (run hash hashSalt ds (start size))
    .sent x ∈ ns ∨ .known x ∈ ns := by
  intro h
  have hs := h (fun _ => 0) 0 5000 [] ⟨2,0⟩ []
  have hn : notes (fun _ => 0) 0 [.pushInventory ⟨2,0⟩,.sendMessages true true] (start 5000) =
      [] := by
    rw [notes, step, pushInventory, if_neg (by simp [start_known])]
    rfl
  change .sent _ ∈ notes _ _ _ (start 5000) ∨ .known _ ∈ notes _ _ _ (start 5000) at hs
  rw [List.cons_append, List.nil_append, hn] at hs
  rcases hs with hs | hs <;> cases hs

end Inventory
end SwippCore
