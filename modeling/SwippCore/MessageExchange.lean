import SwippCore.MessageBounds
import SwippCore.MessageStore

/-!
# A bunch of messages

What is left of a bunch after the loop of `SecureMsgReceive`: which messages are stored,
which are penalised, and whether the hash of a bucket is that of its tokens, so that
nodes with the same tokens ask each other for nothing.
-/

set_option autoImplicit false

namespace SwippCore.MessageExchange
open FinMap Records SecureMessage MessageHandlers MessageBounds MessageStore Guarded

section Store
variable (W : MsgEnv) (R : Receiving)

def known (s : MsgStore) (m : Message) : Bool :=
  ((s.tokens (bucketOf (timestamp m.header))).lookup (tokenOf m)).isSome

def New (s : MsgStore) (before : List Message) (m : Message) : Prop :=
  inTime R.now (timestamp m.header) = true ∧ known s m = false ∧
    ∀ x ∈ before, tokenOf x ≠ tokenOf m

def hashOf (s : MsgStore) (b : ℤ) : ℕ := ((s.smsgBuckets.lookup b).map SecMsgBucket.hash).getD 0

structure Alike (s s' : MsgStore) : Prop where
  tokens : ∀ b, s'.tokens b = s.tokens b
  hash : ∀ b, hashOf s' b = hashOf s b

theorem default_alike (s : MsgStore) (b : ℤ) (files : Dict ℤ (List UInt8)) :
    Alike s ⟨files,(getDefault s.smsgBuckets b SecMsgBucket.start).2⟩ := by
  unfold getDefault
  cases hb : s.smsgBuckets.lookup b with
  | some v => exact ⟨fun _ => rfl,fun _ => rfl⟩
  | none =>
    refine ⟨?_,?_⟩
    · intro c
      unfold MsgStore.tokens
      dsimp only
      rw [lookup_insert_if]
      by_cases hc : c = b
      · rw [if_pos hc, hc, hb]
        rfl
      · rw [if_neg hc]
    · intro c
      unfold hashOf
      dsimp only
      rw [lookup_insert_if]
      by_cases hc : c = b
      · rw [if_pos hc, hc, hb]
        rfl
      · rw [if_neg hc]

theorem store_cases (now : ℤ) (io : StoreIo) (m : Message) (s : MsgStore) :
    ((secureMsgStore W now io m false s).1 = 0 ∧ inTime now (timestamp m.header) = true ∧
      known s m = false ∧ whole m.bytes.length io = true ∧
      (∀ b, (secureMsgStore W now io m false s).2.tokens b =
        if b = bucketOf (timestamp m.header) then
          (s.tokens b).insert (tokenOf m) (s.file b).length else s.tokens b) ∧
      ∀ b, hashOf (secureMsgStore W now io m false s).2 b = hashOf s b) ∨
    ((secureMsgStore W now io m false s).1 ≠ 0 ∧
      ¬ (inTime now (timestamp m.header) = true ∧ known s m = false ∧
        whole m.bytes.length io = true) ∧
      Alike s (secureMsgStore W now io m false s).2) := by
  unfold secureMsgStore
  by_cases hdir : io.noDir = true
  · rw [if_pos hdir]
    refine Or.inr ⟨Nat.one_ne_zero,?_,⟨fun _ => rfl,fun _ => rfl⟩⟩
    rintro ⟨_,_,hwhole⟩
    cases io with
    | noDirectory => cases hwhole
    | notOpened | notSought | written n => cases hdir
  · rw [if_neg hdir]
    by_cases htime : inTime now (timestamp m.header) = true
    · rw [htime, Bool.not_true, if_neg (by decide)]
      dsimp only
      rw [tokens_default]
      by_cases hknown : known s m = true
      · have hk : ((s.tokens (bucketOf (timestamp m.header))).lookup (tokenOf m)).isSome = true :=
          hknown
        rw [if_pos hk]
        refine Or.inr ⟨Nat.one_ne_zero,?_,default_alike s _ _⟩
        rintro ⟨_,h,_⟩
        rw [hknown] at h
        cases h
      · have hk : ¬ ((s.tokens (bucketOf (timestamp m.header))).lookup (tokenOf m)).isSome = true :=
          hknown
        rw [if_neg hk]
        rw [Bool.not_eq_true] at hknown
        have halike := default_alike s (bucketOf (timestamp m.header))
        cases io with
        | noDirectory => exact absurd rfl hdir
        | notOpened =>
          exact Or.inr ⟨Nat.one_ne_zero,fun h => (by cases h.2.2),halike _⟩
        | notSought =>
          exact Or.inr ⟨Nat.one_ne_zero,fun h => (by cases h.2.2),halike _⟩
        | written n =>
          unfold appendMessage
          dsimp only
          by_cases hn : n < m.bytes.length
          · rw [if_pos hn]
            refine Or.inr ⟨Nat.one_ne_zero,?_,halike _⟩
            rintro ⟨_,_,hw⟩
            have := of_decide_eq_true hw
            omega
          · rw [if_neg hn]
            refine Or.inl ⟨rfl,rfl,hknown,decide_eq_true (by omega),?_,?_⟩
            · intro b
              unfold MsgStore.tokens
              dsimp only
              rw [lookup_default]
              by_cases hb : b = bucketOf (timestamp m.header)
              · subst hb
                rw [if_pos rfl, if_pos rfl, Option.map_some, Option.getD_some,
                  if_neg (by decide), tokens_default]
                rfl
              · rw [if_neg hb, if_neg hb]
            · intro b
              unfold hashOf
              dsimp only
              rw [lookup_default]
              by_cases hb : b = bucketOf (timestamp m.header)
              · subst hb
                rw [if_pos rfl, if_neg (by decide)]
                unfold getDefault
                cases s.smsgBuckets.lookup (bucketOf (timestamp m.header)) <;> rfl
              · rw [if_neg hb]
    · rw [Bool.not_eq_true] at htime
      rw [htime, Bool.not_false, if_pos rfl]
      refine Or.inr ⟨Nat.one_ne_zero,?_,⟨fun _ => rfl,fun _ => rfl⟩⟩
      rintro ⟨h,_⟩
      cases h

end Store

section Loop
variable (W : MsgEnv) (R : Receiving)

def penalties (n : ℕ) (ms : List Message) : List (ℕ × ℕ) :=
  (places n ms).filterMap fun x =>
    if secureMsgValidate W x.2 = 0 then none else some (x.1,score (secureMsgValidate W x.2))

/-- A message that is not valid stands last; after one that is not new there is none that is new
or not valid; what is new is written; a message of ours has eight bytes behind its header. -/
structure LoopOk (s : MsgStore) (ms : List Message) : Prop where
  valid : ∀ a m b, ms = a++m::b → b ≠ [] → secureMsgValidate W m = 0
  after : ∀ a m b, ms = a++m::b → secureMsgValidate W m = 0 → ¬ New R s a m →
    ∀ x ∈ b, secureMsgValidate W x = 0 ∧ ¬ New R s a x
  written : ∀ a m b, ms = a++m::b → secureMsgValidate W m = 0 → New R s a m →
    whole m.bytes.length (R.io b.length) = true
  sample : ∀ a m b, ms = a++m::b → secureMsgValidate W m = 0 → New R s a m →
    R.own m = true → 8 ≤ m.payload.length+(concat b).length

variable {s : MsgStore} {m : Message}

theorem new_weaken {a b : List Message} (hsub : ∀ x ∈ a, x ∈ b) (h : New R s b m) : New R s a m :=
  ⟨h.1,h.2.1,fun x hx => h.2.2 x (hsub x hx)⟩

theorem loop_ok_nil (s : MsgStore) : LoopOk W R s [] := by
  have hnot : ∀ (a : List Message) (m : Message) (b : List Message), [] ≠ a++m::b := by
    intro a m b h
    simp at h
  exact ⟨fun a m b h => absurd h (hnot a m b),fun a m b h => absurd h (hnot a m b),
    fun a m b h => absurd h (hnot a m b),fun a m b h => absurd h (hnot a m b)⟩

theorem loop_ok_invalid (s : MsgStore) (rest : List Message) (h : secureMsgValidate W m ≠ 0) :
    LoopOk W R s (m::rest) ↔ rest = [] := by
  constructor
  · intro hl
    by_contra hne
    exact h (hl.valid [] m rest rfl hne)
  · rintro rfl
    have hhead : ∀ a x b, [m] = a++x::b → a = [] ∧ x = m ∧ b = [] := by
      intro a x b hsplit
      cases a with
      | nil =>
        obtain ⟨rfl,rfl⟩ := List.cons.inj hsplit
        exact ⟨rfl,rfl,rfl⟩
      | cons y a => simp at hsplit
    refine ⟨?_,?_,?_,?_⟩
    · intro a x b hsplit hb
      exact absurd (hhead a x b hsplit).2.2 hb
    all_goals
      intro a x b hsplit hv
      rw [(hhead a x b hsplit).2.1] at hv
      exact absurd hv h

theorem loop_ok_known (rest : List Message)
    (hv : secureMsgValidate W m = 0) (hnew : ¬ New R s [] m) :
    LoopOk W R s (m::rest) ↔ ∀ x ∈ rest, secureMsgValidate W x = 0 ∧ ¬ New R s [] x := by
  constructor
  · intro hl
    exact hl.after [] m rest rfl hv hnew
  · intro hrest
    have hall : ∀ a x b, m::rest = a++x::b → secureMsgValidate W x = 0 ∧ ¬ New R s a x ∧
        ∀ y ∈ b, secureMsgValidate W y = 0 ∧ ¬ New R s a y := by
      intro a x b hsplit
      cases a with
      | nil =>
        obtain ⟨rfl,rfl⟩ := List.cons.inj hsplit
        exact ⟨hv,hnew,hrest⟩
      | cons y a =>
        obtain ⟨rfl,rfl⟩ := List.cons.inj hsplit
        have hweak : ∀ z, New R s (m::a) z → New R s [] z :=
          fun z => new_weaken R (fun w hw => (by cases hw))
        obtain ⟨hvx,hnx⟩ := hrest x (by simp)
        refine ⟨hvx,fun h => hnx (hweak x h),?_⟩
        intro y hy
        obtain ⟨hvy,hny⟩ := hrest y (by simp [hy])
        exact ⟨hvy,fun h => hny (hweak y h)⟩
    refine ⟨?_,?_,?_,?_⟩
    · intro a x b hsplit _
      exact (hall a x b hsplit).1
    · intro a x b hsplit _ _
      exact (hall a x b hsplit).2.2
    · intro a x b hsplit _ h
      exact absurd h (hall a x b hsplit).2.1
    · intro a x b hsplit _ h
      exact absurd h (hall a x b hsplit).2.1

theorem loop_ok_new {s₁ : MsgStore} (rest : List Message) (hv : secureMsgValidate W m = 0)
    (hnew : New R s [] m) (hs₁ : ∀ a x, New R s₁ a x ↔ New R s (m::a) x) :
    LoopOk W R s (m::rest) ↔ whole m.bytes.length (R.io rest.length) = true ∧
      (R.own m = true → 8 ≤ m.payload.length+(concat rest).length) ∧ LoopOk W R s₁ rest := by
  constructor
  · intro hl
    refine ⟨hl.written [] m rest rfl hv hnew,hl.sample [] m rest rfl hv hnew,?_,?_,?_,?_⟩
    · intro a x b hsplit hb
      exact hl.valid (m::a) x b (by rw [hsplit]; rfl) hb
    · intro a x b hsplit hvx hnx y hy
      rw [hs₁] at hnx ⊢
      exact hl.after (m::a) x b (by rw [hsplit]; rfl) hvx hnx y hy
    · intro a x b hsplit hvx hnx
      rw [hs₁] at hnx
      exact hl.written (m::a) x b (by rw [hsplit]; rfl) hvx hnx
    · intro a x b hsplit hvx hnx
      rw [hs₁] at hnx
      exact hl.sample (m::a) x b (by rw [hsplit]; rfl) hvx hnx
  · rintro ⟨hw,ho,hl⟩
    refine ⟨?_,?_,?_,?_⟩
    · intro a x b hsplit hb
      cases a with
      | nil =>
        obtain ⟨rfl,rfl⟩ := List.cons.inj hsplit
        exact hv
      | cons y a =>
        obtain ⟨rfl,rfl⟩ := List.cons.inj hsplit
        exact hl.valid a x b rfl hb
    · intro a x b hsplit hvx hnx
      cases a with
      | nil =>
        obtain ⟨rfl,rfl⟩ := List.cons.inj hsplit
        exact absurd hnew hnx
      | cons y a =>
        obtain ⟨rfl,rfl⟩ := List.cons.inj hsplit
        rw [← hs₁] at hnx
        intro z hz
        rw [← hs₁]
        exact hl.after a x b rfl hvx hnx z hz
    · intro a x b hsplit hvx hnx
      cases a with
      | nil =>
        obtain ⟨rfl,rfl⟩ := List.cons.inj hsplit
        exact hw
      | cons y a =>
        obtain ⟨rfl,rfl⟩ := List.cons.inj hsplit
        rw [← hs₁] at hnx
        exact hl.written a x b rfl hvx hnx
    · intro a x b hsplit hvx hnx
      cases a with
      | nil =>
        obtain ⟨rfl,rfl⟩ := List.cons.inj hsplit
        exact ho
      | cons y a =>
        obtain ⟨rfl,rfl⟩ := List.cons.inj hsplit
        rw [← hs₁] at hnx
        exact hl.sample a x b rfl hvx hnx

structure Grown (s s' : MsgStore) (ms : List Message) : Prop where
  hash : ∀ b, hashOf s' b = hashOf s b
  kept : ∀ b tok, ((s.tokens b).lookup tok).isSome = true → ((s'.tokens b).lookup tok).isSome = true
  from_bunch : ∀ b tok, ((s'.tokens b).lookup tok).isSome = true →
    ((s.tokens b).lookup tok).isSome = true ∨ ∃ m ∈ ms, secureMsgValidate W m = 0 ∧
      inTime R.now (timestamp m.header) = true ∧ b = bucketOf (timestamp m.header) ∧ tok = tokenOf m

theorem alike_grown (s s' : MsgStore) (ms : List Message) (h : Alike s s') : Grown W R s s' ms := by
  refine ⟨h.hash,?_,?_⟩
  · intro b tok hk
    rwa [h.tokens]
  · intro b tok hk
    rw [h.tokens] at hk
    exact Or.inl hk

section
variable {s₁ : MsgStore}
  (htok : ∀ b, s₁.tokens b = if b = bucketOf (timestamp m.header) then (s.tokens b).insert (tokenOf m) (s.file b).length else s.tokens b)
include htok

theorem stored_known
    (b : ℤ) (tok : SecMsgToken) : ((s₁.tokens b).lookup tok).isSome = true ↔
      ((s.tokens b).lookup tok).isSome = true ∨
        (b = bucketOf (timestamp m.header) ∧ tok = tokenOf m) := by
  rw [htok]
  by_cases hb : b = bucketOf (timestamp m.header)
  · rw [if_pos hb, lookup_insert_if]
    by_cases ht : tok = tokenOf m
    · rw [if_pos ht]
      exact ⟨fun _ => Or.inr ⟨hb,ht⟩,fun _ => rfl⟩
    · rw [if_neg ht]
      exact ⟨Or.inl,fun h => h.resolve_right (fun h' => ht h'.2)⟩
  · rw [if_neg hb]
    exact ⟨Or.inl,fun h => h.resolve_right (fun h' => hb h'.1)⟩

theorem stored_new
    (a : List Message) (x : Message) : New R s₁ a x ↔ New R s (m::a) x := by
  have hk := stored_known htok (bucketOf (timestamp x.header)) (tokenOf x)
  have hbucket : tokenOf m = tokenOf x →
      bucketOf (timestamp x.header) = bucketOf (timestamp m.header) := by
    intro h
    rw [show timestamp x.header = timestamp m.header from (congrArg SecMsgToken.timestamp h).symm]
  unfold New known
  constructor
  · rintro ⟨ht,hnk,hd⟩
    rw [← Bool.not_eq_true, hk, not_or] at hnk
    refine ⟨ht,by rw [← Bool.not_eq_true]; exact hnk.1,?_⟩
    intro y hy
    rcases List.mem_cons.mp hy with rfl | hy
    · intro heq
      exact hnk.2 ⟨hbucket heq,heq.symm⟩
    · exact hd y hy
  · rintro ⟨ht,hnk,hd⟩
    refine ⟨ht,?_,fun y hy => hd y (List.mem_cons_of_mem m hy)⟩
    rw [← Bool.not_eq_true, hk, not_or]
    refine ⟨by rw [hnk]; decide,?_⟩
    rintro ⟨_,heq⟩
    exact hd m List.mem_cons_self heq.symm

end

variable {data : List UInt8}

theorem receive_loop_nil (k n : ℕ) (hn : n ≤ data.length) (s : MsgStore) (h : data.drop n = []) :
    receiveLoop W R data k n s = .ok (s,[]) := by
  cases k with
  | zero => rfl
  | succ k =>
    have hlen := congrArg List.length h
    rw [List.length_drop, List.length_nil] at hlen
    have hpos : 0 < smsgHdrLen := by decide
    rw [receiveLoop, if_pos (by omega)]

theorem receive_loop_stuck (hmax : data.length ≤ maxSize) (k n : ℕ) (hn : n ≤ data.length)
    (s : MsgStore) {after : List UInt8} (hm : data.drop n = m.bytes++after)
    (hv : secureMsgValidate W m ≠ 0) :
    receiveLoop W R data k n s = .ok (s,List.replicate k (n,score (secureMsgValidate W m))) := by
  induction k with
  | zero => rfl
  | succ k ih =>
    rw [receive_loop_step W R hmax k n s hn hm, if_pos hv, ih]
    rfl

theorem bytes_end {n : ℕ} {after : List UInt8} (hm : data.drop n = m.bytes++after)
    (hn : n ≤ data.length) :
    n+m.bytes.length ≤ data.length ∧ data.drop (n+m.bytes.length) = after := by
  have hlen := congrArg List.length hm
  rw [List.length_drop, List.length_append] at hlen
  exact ⟨by omega,by rw [← List.drop_drop, hm, List.drop_left]⟩

variable {ms : List Message}

theorem receive_loop_grown (hmax : data.length ≤ maxSize) (k n : ℕ) (hn : n ≤ data.length)
    (s : MsgStore) (hm : data.drop n = concat ms) (x : MsgStore × List (ℕ × ℕ))
    (h : receiveLoop W R data k n s = .ok x) : Grown W R s x.1 ms := by
  induction ms generalizing k n s x with
  | nil =>
    rw [receive_loop_nil W R k n hn s hm] at h
    cases h
    exact alike_grown W R s s [] ⟨fun _ => rfl,fun _ => rfl⟩
  | cons m ms ih =>
    cases k with
    | zero =>
      cases h
      exact alike_grown W R s s _ ⟨fun _ => rfl,fun _ => rfl⟩
    | succ k =>
      by_cases hv : secureMsgValidate W m = 0
      · rw [receive_loop_step W R hmax k n s hn hm,
          if_neg (not_not.mpr hv)] at h
        rcases store_cases W R.now (R.io k) m s with
          ⟨hrv,htime,_,_,htok,hhash⟩ | ⟨hrv,_,halike⟩
        · rw [if_neg (not_not.mpr hrv), scan_bind R hn hm] at h
          split at h
          · cases h
          · obtain ⟨hend,hrest⟩ := bytes_end hm hn
            have hg := ih k _ hend _ hrest x h
            have hknown := stored_known htok
            refine ⟨fun b => (hg.hash b).trans (hhash b),?_,?_⟩
            · intro b tok hk
              exact hg.kept b tok ((hknown b tok).mpr (Or.inl hk))
            · intro b tok hk
              rcases hg.from_bunch b tok hk with hk | ⟨y,hy,hrest⟩
              · rcases (hknown b tok).mp hk with hk | ⟨hb,ht⟩
                · exact Or.inl hk
                · exact Or.inr ⟨m,List.mem_cons_self,hv,htime,hb,ht⟩
              · exact Or.inr ⟨y,List.mem_cons_of_mem m hy,hrest⟩
        · rw [if_pos hrv] at h
          cases h
          exact alike_grown W R s _ _ halike
      · rw [receive_loop_stuck W R hmax (k+1) n hn s hm hv] at h
        cases h
        exact alike_grown W R s s _ ⟨fun _ => rfl,fun _ => rfl⟩

def Handled (data : List UInt8) (n : ℕ) (s : MsgStore) (ms : List Message) : Prop :=
  ∃ s', receiveLoop W R data ms.length n s = .ok (s',penalties W n ms) ∧
    ∀ m ∈ ms, secureMsgValidate W m = 0 → inTime R.now (timestamp m.header) = true →
      known s' m = true

theorem penalties_offset {n : ℕ} {x : ℕ × ℕ} (h : x ∈ penalties W n ms) : n ≤ x.1 := by
  obtain ⟨y,hy,hx⟩ := List.mem_filterMap.mp h
  obtain ⟨before,after,_,hp⟩ := places_split n hy
  split at hx
  · cases hx
  · cases hx
    dsimp only
    omega

section
variable (n : ℕ) (ms : List Message)

theorem penalties_valid (h : secureMsgValidate W m = 0) :
    penalties W n (m::ms) = penalties W (n+m.bytes.length) ms := by
  unfold penalties
  rw [places, List.filterMap_cons_none]
  rw [if_pos h]

theorem penalties_invalid (h : secureMsgValidate W m ≠ 0) :
    penalties W n (m::ms) =
      (n,score (secureMsgValidate W m))::penalties W (n+m.bytes.length) ms := by
  unfold penalties
  rw [places, List.filterMap_cons_some]
  rw [if_neg h]

theorem penalties_nil :
    penalties W n ms = [] ↔ ∀ m ∈ ms, secureMsgValidate W m = 0 := by
  induction ms generalizing n with
  | nil => exact ⟨fun _ m hm => (by cases hm),fun _ => rfl⟩
  | cons m ms ih =>
    rw [List.forall_mem_cons]
    by_cases hv : secureMsgValidate W m = 0
    · rw [penalties_valid W n ms hv, ih]
      exact ⟨fun h => ⟨hv,h⟩,fun h => h.2⟩
    · rw [penalties_invalid W n ms hv]
      exact ⟨fun h => (by cases h),fun h => absurd h.1 hv⟩

end

/-- A message that is not valid: the loop ends well only where it is the last one. -/
theorem handled_invalid (hmax : data.length ≤ maxSize) {n : ℕ} (hn : n ≤ data.length) (s : MsgStore)
    (hm : data.drop n = concat (m::ms)) (hv : secureMsgValidate W m ≠ 0) :
    Handled W R data n s (m::ms) ↔ ms = [] := by
  have hstuck := fun k => receive_loop_stuck W R hmax k n hn s hm hv
  constructor
  · rintro ⟨s',hrun,_⟩
    rw [hstuck] at hrun
    have hpen := (Prod.mk.inj (Except.ok.inj hrun)).2
    rw [penalties_invalid W n ms hv, List.length_cons, List.replicate_succ] at hpen
    have hrest := (List.cons.inj hpen).2
    cases ms with
    | nil => rfl
    | cons y ys =>
      have hmem : (n,score (secureMsgValidate W m)) ∈ penalties W (n+m.bytes.length) (y::ys) := by
        rw [← hrest]
        exact List.mem_cons_self
      have hle := penalties_offset W hmem
      have hpos : 0 < smsgHdrLen := by decide
      have hlen := m.length_bytes
      dsimp only at hle
      omega
  · rintro rfl
    refine ⟨s,?_,?_⟩
    · rw [hstuck, penalties_invalid W n [] hv]
      rfl
    · intro x hx hvx
      rw [List.mem_singleton.mp hx] at hvx
      exact absurd hvx hv

theorem handled_iff (hmax : data.length ≤ maxSize) (n : ℕ) (hn : n ≤ data.length) (s : MsgStore)
    (hm : data.drop n = concat ms) : Handled W R data n s ms ↔ LoopOk W R s ms := by
  induction ms generalizing n s with
  | nil =>
    refine ⟨fun _ => loop_ok_nil W R s,fun _ => ⟨s,rfl,fun m hm => (by cases hm)⟩⟩
  | cons m ms ih =>
    by_cases hv : secureMsgValidate W m = 0
    · have hstep := receive_loop_step W R hmax ms.length n s hn hm
      rw [if_neg (not_not.mpr hv)] at hstep
      unfold Handled
      rw [List.length_cons, hstep, penalties_valid W n ms hv]
      rcases store_cases W R.now (R.io ms.length) m s with
        ⟨hrv,htime,hunknown,hwhole,htok,_⟩ | ⟨hrv,hrefused,halike⟩
      · -- the message is new and stored
        have hnew : New R s [] m := ⟨htime,hunknown,fun x hx => (by cases hx)⟩
        obtain ⟨hend,hrest⟩ := bytes_end hm hn
        rw [if_neg (not_not.mpr hrv), scan_bind R hn hm,
          loop_ok_new W R ms hv hnew (stored_new R htok), ← ih _ hend _ hrest]
        by_cases hcut : R.own m = true ∧ m.payload.length+(concat ms).length < 8
        · rw [if_pos hcut]
          refine ⟨fun ⟨s',hrun,_⟩ => (by cases hrun),?_⟩
          rintro ⟨_,hown,_⟩
          have := hown hcut.1
          omega
        · rw [if_neg hcut]
          constructor
          · rintro ⟨s',hrun,hall⟩
            refine ⟨hwhole,fun hown => by_contra fun hlt => hcut ⟨hown,by omega⟩,s',hrun,?_⟩
            exact fun x hx => hall x (List.mem_cons_of_mem m hx)
          · rintro ⟨_,_,s',hrun,hall⟩
            refine ⟨s',hrun,?_⟩
            intro x hx hvx htx
            rcases List.mem_cons.mp hx with rfl | hx
            · have hg := receive_loop_grown W R hmax ms.length _ hend _ hrest _ hrun
              exact hg.kept _ _ ((stored_known htok _ _).mpr (Or.inr ⟨rfl,rfl⟩))
            · exact hall x hx hvx htx
      · -- the message is not stored, and the loop ends
        rw [if_pos hrv]
        have hsame : ∀ x, known (secureMsgStore W R.now (R.io ms.length) m false s).2 x =
            known s x := by
          intro x
          unfold known
          rw [halike.tokens]
        by_cases hnew : New R s [] m
        · refine ⟨fun ⟨s',hrun,hall⟩ => ?_,fun hl => ?_⟩
          · obtain ⟨rfl,_⟩ := Prod.mk.inj (Except.ok.inj hrun)
            have hk := hall m List.mem_cons_self hv hnew.1
            rw [hsame, hnew.2.1] at hk
            cases hk
          · exact absurd ⟨hnew.1,hnew.2.1,hl.written [] m ms rfl hv hnew⟩ hrefused
        · rw [loop_ok_known W R ms hv hnew]
          have hknown : ∀ x, ¬ New R s [] x ↔
              (inTime R.now (timestamp x.header) = true → known s x = true) := by
            intro x
            constructor
            · intro h ht
              by_contra hk
              rw [Bool.not_eq_true] at hk
              exact h ⟨ht,hk,fun y hy => (by cases hy)⟩
            · intro h hn
              have hk := h hn.1
              rw [hn.2.1] at hk
              cases hk
          constructor
          · rintro ⟨s',hrun,hall⟩
            obtain ⟨rfl,hpen⟩ := Prod.mk.inj (Except.ok.inj hrun)
            have hvalid := (penalties_nil W _ ms).mp hpen.symm
            intro x hx
            refine ⟨hvalid x hx,(hknown x).mpr fun ht => ?_⟩
            have hk := hall x (List.mem_cons_of_mem m hx) (hvalid x hx) ht
            rwa [hsame] at hk
          · intro hall
            refine ⟨_,by rw [(penalties_nil W _ ms).mpr fun x hx => (hall x hx).1],?_⟩
            intro x hx _ ht
            rw [hsame]
            rcases List.mem_cons.mp hx with rfl | hx
            · exact (hknown x).mp hnew ht
            · exact (hknown x).mp (hall x hx).2 ht
    · rw [handled_invalid W R hmax hn s hm hv, loop_ok_invalid W R s ms hv]

end Loop

section Hash
variable (W : MsgEnv)

theorem le_token_ordered : Ordered leToken where
  trans a b c hab hbc := by
    simp only [leToken, Bool.or_eq_true, Bool.and_eq_true, decide_eq_true_eq, beq_iff_eq] at hab hbc ⊢
    omega
  total a b := by
    simp only [leToken, Bool.or_eq_true, Bool.and_eq_true, decide_eq_true_eq, beq_iff_eq]
    omega
  antisymm a b hab hba := by
    simp only [leToken, Bool.or_eq_true, Bool.and_eq_true, decide_eq_true_eq, beq_iff_eq] at hab hba
    cases a
    cases b
    simp only [SecMsgToken.mk.injEq] at hab hba ⊢
    omega

def SameTokens (t u : Tokens) : Prop := ∀ tok, (t.lookup tok).isSome = (u.lookup tok).isSome

section
variable {t u : Tokens} (h : SameTokens t u)
include h

theorem same_keys :
    (inOrder leToken t).map Sigma.fst = (inOrder leToken u).map Sigma.fst :=
  in_order_keys le_token_ordered h

theorem hash_same : hashTokens W t = hashTokens W u := by
  have hk := congrArg (List.map SecMsgToken.sample) (same_keys h)
  rw [List.map_map, List.map_map] at hk
  unfold hashTokens
  exact congrArg W.xxh32 hk

theorem size_same : t.entries.length = u.entries.length := by
  have hk := congrArg List.length (same_keys h)
  rwa [List.length_map, List.length_map, (in_order_perm leToken t).length_eq,
    (in_order_perm leToken u).length_eq] at hk

end

theorem same_not_wanted {b c : SecMsgBucket} (hb : b.hash = hashTokens W b.setTokens)
    (hc : c.hash = hashTokens W c.setTokens) (h : SameTokens b.setTokens c.setTokens) :
    wantsBucket b c.setTokens.entries.length c.hash = false := by
  unfold wantsBucket
  rw [hb, hc, hash_same W h, size_same h]
  simp

end Hash

section Bunch
variable (W : MsgEnv) (R : Receiving)

structure SmsgMsg where
  bktTime : List UInt8
  messages : List Message
  sizedTime : bktTime.length = 8
  sized : 12+(concat messages).length ≤ maxSize

namespace SmsgMsg
variable (d : SmsgMsg)

def vchData : List UInt8 := PrefixCode.word 4 d.messages.length++d.bktTime++concat d.messages

def time : ℤ := SecureMessage.int64 d.bktTime

theorem length_vch_data : d.vchData.length = 12+(concat d.messages).length := by
  unfold vchData
  rw [List.length_append, List.length_append, PrefixCode.word_length, d.sizedTime]

theorem head : d.vchData.take 12 = PrefixCode.word 4 d.messages.length++d.bktTime := by
  unfold vchData
  apply List.take_left'
  rw [List.length_append, PrefixCode.word_length, d.sizedTime]

theorem body : d.vchData.drop 12 = concat d.messages := by
  unfold vchData
  apply List.drop_left'
  rw [List.length_append, PrefixCode.word_length, d.sizedTime]

theorem count_lt : d.messages.length < 256^4 := by
  have hcount : ∀ ms : List Message, ms.length ≤ (concat ms).length := by
    intro ms
    induction ms with
    | nil => exact le_refl _
    | cons m ms ih =>
      have hlen := m.length_bytes
      have hpos : 0 < smsgHdrLen := by decide
      rw [concat, List.length_append, List.length_cons]
      omega
  have h := hcount d.messages
  have hsized := d.sized
  have hmax : maxSize < 256^4 := by decide
  omega

end SmsgMsg

theorem receive_bunch (d : SmsgMsg) (s : MsgStore) :
    secureMsgReceive W R d.vchData s =
      if d.time > R.now+smsgTimeLeeway then .ok (s,[])
      else if d.time < R.now-smsgRetention then .ok (s,[])
      else if d.messages.length = 0 ∨ d.messages.length > 500 then
        .ok (unlockBucket d.time s,[(0,1)])
      else (receiveLoop W R d.vchData d.messages.length 12 s).map fun x =>
        (finishBucket W R.now d.time x.1,x.2) := by
  have hlen := d.length_vch_data
  have hcount : leValue ((PrefixCode.word 4 d.messages.length++d.bktTime).take 4) =
      d.messages.length := by
    rw [List.take_left' (PrefixCode.word_length 4 _)]
    exact PrefixCode.value_word 4 _ d.count_lt
  have htime : (PrefixCode.word 4 d.messages.length++d.bktTime).drop 4 = d.bktTime :=
    List.drop_left' (PrefixCode.word_length 4 _)
  unfold secureMsgReceive
  rw [if_neg (by omega), read_ok _ _ (by omega), List.drop_zero, d.head]
  simp only [Except.bind, hcount, htime]
  rfl

def Gained (s s' : MsgStore) (b : ℤ) : Prop :=
  ∃ tok, ((s.tokens b).lookup tok).isSome = false ∧ ((s'.tokens b).lookup tok).isSome = true

structure Outcome (d : SmsgMsg) (s s' : MsgStore) (pen : List (ℕ × ℕ)) : Prop where
  stored : ∀ m ∈ d.messages, secureMsgValidate W m = 0 →
    inTime R.now (timestamp m.header) = true → known s' m = true
  penalised : pen = penalties W 12 d.messages
  hashed : ∀ b bkt, Gained s s' b → s'.smsgBuckets.lookup b = some bkt →
    bkt.hash = hashTokens W bkt.setTokens
  quiet : ∀ b bkt other, Gained s s' b → s'.smsgBuckets.lookup b = some bkt →
    other.hash = hashTokens W other.setTokens → SameTokens bkt.setTokens other.setTokens →
    wantsBucket bkt other.setTokens.entries.length other.hash = false ∧
      wantsBucket other bkt.setTokens.entries.length bkt.hash = false

def Exchanged (d : SmsgMsg) (s : MsgStore) : Prop :=
  ∃ s' pen, secureMsgReceive W R d.vchData s = .ok (s',pen) ∧ Outcome W R d s s' pen

def merged (s : MsgStore) (b : ℤ) (ms : List Message) : Tokens :=
  fill (s.tokens b) ((ms.filter fun m => secureMsgValidate W m = 0 ∧
    inTime R.now (timestamp m.header) = true ∧ bucketOf (timestamp m.header) = b).map fun m => (0,m))

def HashOk (d : SmsgMsg) (s : MsgStore) : Prop :=
  ∀ m ∈ d.messages, secureMsgValidate W m = 0 → New R s [] m →
    bucketOf (timestamp m.header) = d.time ∨
      hashOf s (bucketOf (timestamp m.header)) =
        hashTokens W (merged W R s (bucketOf (timestamp m.header)) d.messages)

def bunchOk (d : SmsgMsg) (s : MsgStore) : Prop :=
  if inTime R.now d.time = true then
    0 < d.messages.length ∧ d.messages.length ≤ 500 ∧ LoopOk W R s d.messages ∧ HashOk W R d s
  else ∀ m ∈ d.messages, secureMsgValidate W m = 0 ∧
    (inTime R.now (timestamp m.header) = true → known s m = true)

theorem fill_known (t : Tokens) (xs : List (ℕ × Message)) (tok : SecMsgToken) :
    ((fill t xs).lookup tok).isSome = true ↔
      (t.lookup tok).isSome = true ∨ ∃ x ∈ xs, tokenOf x.2 = tok := by
  induction xs generalizing t with
  | nil => simp [fill]
  | cons x xs ih =>
    rw [fill, ih, lookup_insert_new]
    by_cases h : tok = tokenOf x.2
    · subst h
      cases hl : t.lookup (tokenOf x.2) with
      | none => simp
      | some v => simp
    · simp [h, Ne.symm h]

theorem merged_known (s : MsgStore) (b : ℤ) (ms : List Message) (tok : SecMsgToken) :
    ((merged W R s b ms).lookup tok).isSome = true ↔ ((s.tokens b).lookup tok).isSome = true ∨
      ∃ m ∈ ms, secureMsgValidate W m = 0 ∧ inTime R.now (timestamp m.header) = true ∧
        bucketOf (timestamp m.header) = b ∧ tokenOf m = tok := by
  unfold merged
  rw [fill_known]
  simp only [List.mem_map, List.mem_filter, decide_eq_true_eq]
  constructor
  · rintro (h | ⟨x,⟨m,⟨hm,hv,ht,hb⟩,rfl⟩,htok⟩)
    · exact Or.inl h
    · exact Or.inr ⟨m,hm,hv,ht,hb,htok⟩
  · rintro (h | ⟨m,hm,hv,ht,hb,htok⟩)
    · exact Or.inl h
    · exact Or.inr ⟨(0,m),⟨m,⟨hm,hv,ht,hb⟩,rfl⟩,htok⟩

theorem finish_tokens (now time : ℤ) (s : MsgStore) (b : ℤ) :
    (finishBucket W now time s).tokens b = s.tokens b := by
  unfold finishBucket
  cases ht : s.smsgBuckets.lookup time with
  | none => rfl
  | some v =>
    unfold MsgStore.tokens
    dsimp only
    rw [lookup_insert_if]
    by_cases hb : b = time
    · rw [if_pos hb, hb, ht]
      rfl
    · rw [if_neg hb]

variable {s : MsgStore}

theorem finish_bucket {now time : ℤ} {b : ℤ} {bkt : SecMsgBucket}
    (h : (finishBucket W now time s).smsgBuckets.lookup b = some bkt) :
    bkt.setTokens = s.tokens b ∧
      if b = time then bkt.hash = hashTokens W bkt.setTokens else bkt.hash = hashOf s b := by
  unfold finishBucket at h
  unfold MsgStore.tokens hashOf
  cases ht : s.smsgBuckets.lookup time with
  | none =>
    rw [ht] at h
    dsimp only at h
    rw [if_neg (fun hb => by rw [hb, ht] at h; cases h), h]
    exact ⟨rfl,rfl⟩
  | some v =>
    rw [ht] at h
    dsimp only at h
    rw [lookup_insert_if] at h
    by_cases hb : b = time
    · rw [if_pos hb] at h
      rw [if_pos hb, hb, ht, ← Option.some.inj h]
      exact ⟨rfl,rfl⟩
    · rw [if_neg hb] at h
      rw [if_neg hb, h]
      exact ⟨rfl,rfl⟩

theorem tokens_bucket {b : ℤ} {tok : SecMsgToken} (h : ((s.tokens b).lookup tok).isSome = true) :
    ∃ bkt, s.smsgBuckets.lookup b = some bkt := by
  unfold MsgStore.tokens at h
  cases hb : s.smsgBuckets.lookup b with
  | none =>
    rw [hb] at h
    cases h
  | some bkt => exact ⟨bkt,rfl⟩

/-- Where all valid messages in time are stored the tokens are those of the merged bucket. -/
theorem grown_merged {s' : MsgStore} {ms : List Message} (hg : Grown W R s s' ms)
    (hall : ∀ m ∈ ms, secureMsgValidate W m = 0 → inTime R.now (timestamp m.header) = true →
      known s' m = true) (b : ℤ) : SameTokens (s'.tokens b) (merged W R s b ms) := by
  intro tok
  rw [Bool.eq_iff_iff, merged_known]
  constructor
  · intro h
    rcases hg.from_bunch b tok h with h | ⟨m,hm,hv,ht,hb,htok⟩
    · exact Or.inl h
    · exact Or.inr ⟨m,hm,hv,ht,hb.symm,htok.symm⟩
  · rintro (h | ⟨m,hm,hv,ht,rfl,rfl⟩)
    · exact hg.kept b tok h
    · exact hall m hm hv ht

theorem outcome_of_hashed {d : SmsgMsg} {s' : MsgStore} {pen : List (ℕ × ℕ)}
    (hstored : ∀ m ∈ d.messages, secureMsgValidate W m = 0 →
      inTime R.now (timestamp m.header) = true → known s' m = true)
    (hpen : pen = penalties W 12 d.messages)
    (hhash : ∀ b bkt, Gained s s' b → s'.smsgBuckets.lookup b = some bkt →
      bkt.hash = hashTokens W bkt.setTokens) : Outcome W R d s s' pen := by
  refine ⟨hstored,hpen,hhash,?_⟩
  intro b bkt other hg hb hother hsame
  have hbkt := hhash b bkt hg hb
  exact ⟨same_not_wanted W hbkt hother hsame,
    same_not_wanted W hother hbkt (fun tok => (hsame tok).symm)⟩

theorem exchanged_open {d : SmsgMsg} (s : MsgStore) (hfuture : ¬ d.time > R.now+smsgTimeLeeway)
    (hpast : ¬ d.time < R.now-smsgRetention)
    (hcount : ¬ (d.messages.length = 0 ∨ d.messages.length > 500)) :
    Exchanged W R d s ↔ LoopOk W R s d.messages ∧ HashOk W R d s := by
  have hlen := d.length_vch_data
  have hmax : d.vchData.length ≤ maxSize := by
    have hsized := d.sized
    omega
  have hloop := handled_iff W R hmax 12 (by omega) s d.body
  have hknown : ∀ (t : MsgStore) m, known (finishBucket W R.now d.time t) m = known t m := by
    intro t m
    unfold known
    rw [finish_tokens]
  unfold Exchanged
  rw [receive_bunch, if_neg hfuture, if_neg hpast, if_neg hcount, ← hloop]
  constructor
  · rintro ⟨s',pen,hrun,hout⟩
    cases hx : receiveLoop W R d.vchData d.messages.length 12 s with
    | error e =>
      rw [hx] at hrun
      cases hrun
    | ok x =>
      rw [hx] at hrun
      obtain ⟨rfl,rfl⟩ := Prod.mk.inj (Except.ok.inj hrun)
      have hg := receive_loop_grown W R hmax _ 12 (by omega) s d.body x hx
      have hall : ∀ m ∈ d.messages, secureMsgValidate W m = 0 →
          inTime R.now (timestamp m.header) = true → known x.1 m = true := by
        intro m hm hv ht
        rw [← hknown]
        exact hout.stored m hm hv ht
      refine ⟨⟨x.1,?_,hall⟩,?_⟩
      · rw [hx, ← hout.penalised]
      · intro m hm hv hnew
        by_cases hb : bucketOf (timestamp m.header) = d.time
        · exact Or.inl hb
        · right
          have htoken := hall m hm hv hnew.1
          have hthere := htoken
          rw [← hknown] at hthere
          obtain ⟨bkt,hbkt⟩ := tokens_bucket hthere
          have hhash := hout.hashed _ bkt ⟨tokenOf m,hnew.2.1,hthere⟩ hbkt
          obtain ⟨hset,hold⟩ := finish_bucket W hbkt
          rw [if_neg hb] at hold
          rw [← hg.hash, ← hold, hhash, hset]
          exact hash_same W (grown_merged W R hg hall _)
  · rintro ⟨⟨s₁,hrun,hall⟩,hhash⟩
    have hg := receive_loop_grown W R hmax _ 12 (by omega) s d.body _ hrun
    refine ⟨finishBucket W R.now d.time s₁,penalties W 12 d.messages,by rw [hrun]; rfl,?_⟩
    refine outcome_of_hashed W R ?_ rfl ?_
    · intro m hm hv ht
      rw [hknown]
      exact hall m hm hv ht
    · rintro b bkt ⟨tok,hnot,hnow⟩ hbkt
      obtain ⟨hset,hold⟩ := finish_bucket W hbkt
      by_cases hb : b = d.time
      · rwa [if_pos hb] at hold
      · rw [if_neg hb] at hold
        rw [finish_tokens] at hnow
        rcases hg.from_bunch b tok hnow with h | ⟨m,hm,hv,ht,rfl,rfl⟩
        · rw [hnot] at h
          cases h
        · have hchance := (hhash m hm hv ⟨ht,hnot,fun x hx => (by cases hx)⟩).resolve_left hb
          rw [hold, hset, hg.hash, hchance]
          exact (hash_same W (grown_merged W R hg hall _)).symm

/-- A bunch comes to what it ought to come to exactly under the condition. -/
theorem bunch_exchanged (d : SmsgMsg) (s : MsgStore) :
    Exchanged W R d s ↔ bunchOk W R d s := by
  unfold bunchOk
  by_cases hopen : inTime R.now d.time = true
  · rw [if_pos hopen]
    unfold inTime at hopen
    rw [Bool.and_eq_true, Bool.not_eq_true', Bool.not_eq_true', decide_eq_false_iff_not,
      decide_eq_false_iff_not] at hopen
    obtain ⟨hfuture,hpast⟩ := hopen
    by_cases hcount : d.messages.length = 0 ∨ d.messages.length > 500
    · refine ⟨?_,fun h => absurd hcount (by omega)⟩
      rintro ⟨s',pen,hrun,hout⟩
      rw [receive_bunch, if_neg hfuture, if_neg hpast, if_pos hcount] at hrun
      obtain ⟨_,rfl⟩ := Prod.mk.inj (Except.ok.inj hrun)
      have hmem : (0,1) ∈ penalties W 12 d.messages := by
        rw [← hout.penalised]
        exact List.mem_cons_self
      exact absurd (penalties_offset W hmem) (by decide)
    · rw [exchanged_open W R s hfuture hpast hcount]
      exact ⟨fun h => ⟨by omega,by omega,h.1,h.2⟩,fun h => h.2.2⟩
  · rw [if_neg hopen]
    have hrun : secureMsgReceive W R d.vchData s = .ok (s,[]) := by
      unfold inTime at hopen
      rw [Bool.and_eq_true, Bool.not_eq_true', Bool.not_eq_true', decide_eq_false_iff_not,
        decide_eq_false_iff_not] at hopen
      rw [receive_bunch]
      split
      · rfl
      · rename_i hfuture
        rw [if_pos (by_contra fun h => hopen ⟨hfuture,h⟩)]
    unfold Exchanged
    rw [hrun]
    constructor
    · rintro ⟨s',pen,heq,hout⟩
      obtain ⟨rfl,rfl⟩ := Prod.mk.inj (Except.ok.inj heq)
      have hvalid := (penalties_nil W 12 d.messages).mp hout.penalised.symm
      exact fun m hm => ⟨hvalid m hm,hout.stored m hm (hvalid m hm)⟩
    · intro hall
      refine ⟨s,[],rfl,outcome_of_hashed W R (fun m hm _ => (hall m hm).2)
        ((penalties_nil W 12 d.messages).mpr fun m hm => (hall m hm).1).symm ?_⟩
      rintro b bkt ⟨tok,hnot,hnow⟩
      rw [hnot] at hnow
      cases hnow

def sampleReceiving : Receiving := ⟨2048,fun _ => .written 200,fun _ => false⟩

def goodMessage : Message := sampleMessage 8 [1,2,3,4,5,6,7,8] (by decide)

theorem no_payload_sized : ([] : List UInt8).length = nPayload (List.replicate 104 0) := rfl

def sampleBunch : SmsgMsg where
  bktTime := [8,7,0,0,0,0,0,0]
  messages := [⟨List.replicate 104 0,[],rfl,no_payload_sized⟩,goodMessage]
  sizedTime := rfl
  sized := by decide +kernel

/-- The good message of the sample is not stored. -/
theorem good_message_lost : ¬ ∀ (W : MsgEnv) (R : Receiving) (d : SmsgMsg) (s : MsgStore),
    0 < d.messages.length → d.messages.length ≤ 500 → inTime R.now d.time = true →
    Exchanged W R d s := by
  intro h
  obtain ⟨s',pen,hrun,hout⟩ := h sampleMsgEnv sampleReceiving sampleBunch .start (by decide)
    (by decide) (by decide +kernel)
  have hknown := hout.stored goodMessage (List.mem_cons_of_mem _ List.mem_cons_self)
    (by decide +kernel) (by decide +kernel)
  have hlost : (secureMsgReceive sampleMsgEnv sampleReceiving sampleBunch.vchData
      .start).toOption.map (fun x => known x.1 goodMessage) = some false := by
    decide +kernel
  rw [hrun] at hlost
  exact absurd (hknown.symm.trans (Option.some.inj hlost)) (by decide)

end Bunch

end SwippCore.MessageExchange
