import SwippCore.KeyPool
import SwippCore.Lib.Histories

/-!
# Runs of the key pool

An index is active while it is in the set or with a live reservation. The records of
active indices are different keys, none of which was kept. Writing a new key keeps
this as long as its index is not with a reservation.
-/

set_option autoImplicit false

namespace SwippCore.KeyPoolRuns
open FinMap KeyPool Histories

section Invariant

def Active (s : PoolWallet) (i : ℤ) : Prop :=
  i ∈ s.setKeyPool ∨ (i ≠ -1 ∧ ∃ r, (s.reservation r).nIndex = i)

structure Inv (s : PoolWallet) : Prop where
  record : ∀ i, Active s i →
    ∃ k, s.pool.lookup i = some k ∧ k < s.nGenerated ∧ k ∉ s.kept
  distinct : ∀ i j k, Active s i → Active s j → s.pool.lookup i = some k →
    s.pool.lookup j = some k → i = j
  apart : ∀ r, (s.reservation r).nIndex ∉ s.setKeyPool
  single : ∀ r r', (s.reservation r).nIndex ≠ -1 →
    (s.reservation r).nIndex = (s.reservation r').nIndex → r = r'
  key : ∀ r k, (s.reservation r).vchPubKey = some k →
    (s.reservation r).nIndex ≠ -1 ∧ s.pool.lookup (s.reservation r).nIndex = some k
  positive : ∀ i, Active s i → 1 ≤ i
  kept : ∀ k ∈ s.kept, k < s.nGenerated
  again : s.again = []

variable {s : PoolWallet}

theorem inv_sound (hs : Inv s) : Sound s := by
  refine ⟨?_,?_,hs.again⟩
  · intro i hi
    obtain ⟨k,hk,_⟩ := hs.record i (Or.inl hi)
    rw [hk]
    rfl
  · intro r r' k hr hr'
    obtain ⟨hne,hlook⟩ := hs.key r k hr
    obtain ⟨hne',hlook'⟩ := hs.key r' k hr'
    apply hs.single r r' hne
    exact hs.distinct _ _ k (Or.inr ⟨hne,r,rfl⟩) (Or.inr ⟨hne',r',rfl⟩) hlook hlook'

theorem reservation_reserve (s : PoolWallet) (r r' : ℕ) (x : CReserveKey) :
    (s.reserve r x).reservation r' = if r' = r then x else s.reservation r' := by
  unfold PoolWallet.reservation PoolWallet.reserve
  dsimp only
  rw [lookup_insert_if]
  split
  · rfl
  · rfl

theorem inv_sub {s' : PoolWallet} (hs : Inv s) (hset : ∀ i ∈ s'.setKeyPool, i ∈ s.setKeyPool)
    (hres : ∀ r, s'.reservation r = s.reservation r ∨ s'.reservation r = ⟨-1,none⟩)
    (hpool : ∀ i, Active s' i → s'.pool.lookup i = s.pool.lookup i)
    (hgen : s.nGenerated ≤ s'.nGenerated)
    (hkept : ∀ k ∈ s'.kept, k < s'.nGenerated ∧ ∀ i, Active s' i → s.pool.lookup i ≠ some k)
    (hagain : s'.again = []) : Inv s' := by
  have hactive : ∀ i, Active s' i → Active s i := by
    intro i hi
    rcases hi with hi | ⟨hne,r,hr⟩
    · exact Or.inl (hset i hi)
    · rcases hres r with heq | heq
      · rw [heq] at hr
        exact Or.inr ⟨hne,r,hr⟩
      · rw [heq] at hr
        exact absurd hr.symm hne
  refine ⟨?_,?_,?_,?_,?_,fun i hi => hs.positive i (hactive i hi),fun k hk => (hkept k hk).1,hagain⟩
  · intro i hi
    obtain ⟨k,hk,hlt,_⟩ := hs.record i (hactive i hi)
    refine ⟨k,(hpool i hi).trans hk,by omega,?_⟩
    intro hmem
    exact (hkept k hmem).2 i hi hk
  · intro i j k hi hj hik hjk
    rw [hpool i hi] at hik
    rw [hpool j hj] at hjk
    exact hs.distinct i j k (hactive i hi) (hactive j hj) hik hjk
  · intro r hmem
    rcases hres r with heq | heq
    · rw [heq] at hmem
      exact hs.apart r (hset _ hmem)
    · rw [heq] at hmem
      have hpos := hs.positive _ (Or.inl (hset _ hmem))
      dsimp only at hpos
      omega
  · intro r r' hne heq
    rcases hres r with hr | hr
    · rcases hres r' with hr' | hr'
      · rw [hr] at hne
        rw [hr, hr'] at heq
        exact hs.single r r' hne heq
      · rw [hr'] at heq
        exact absurd heq hne
    · rw [hr] at hne
      exact absurd rfl hne
  · intro r k hk
    rcases hres r with hr | hr
    · rw [hr] at hk ⊢
      obtain ⟨hne,hlook⟩ := hs.key r k hk
      have hact : Active s' (s.reservation r).nIndex := Or.inr ⟨hne,r,by rw [hr]⟩
      exact ⟨hne,(hpool _ hact).trans hlook⟩
    · rw [hr] at hk
      cases hk

theorem free_reservation {i : ℤ} (hi : i ≠ -1) (h : free s i = true) (r : ℕ) :
    (s.reservation r).nIndex ≠ i := by
  unfold PoolWallet.reservation
  cases hr : s.reserved.lookup r with
  | none => exact hi.symm
  | some x =>
    have hmem := (mem_entries s.reserved r x).mpr hr
    have hx := List.all_eq_true.mp h _ hmem
    rw [bne_iff_ne] at hx
    exact hx

theorem inv_write (hs : Inv s) {i : ℤ} (hi : 1 ≤ i) (hfree : free s i = true) :
    Inv (writeKey i s) := by
  have hnot := free_reservation (by omega) hfree
  have hactive : ∀ j, Active (writeKey i s) j → j = i ∨ Active s j := by
    intro j hj
    rcases hj with hj | hj
    · rcases (SortedSet.mem_insert i j s.setKeyPool).mp hj with rfl | hj
      · exact Or.inl rfl
      · exact Or.inr (Or.inl hj)
    · exact Or.inr (Or.inr hj)
  have hlook : ∀ j, (writeKey i s).pool.lookup j =
      if j = i then some s.nGenerated else s.pool.lookup j :=
    fun j => lookup_insert_if s.pool i j s.nGenerated
  have hold : ∀ j k, j ≠ i → Active (writeKey i s) j → (writeKey i s).pool.lookup j = some k →
      k < s.nGenerated := by
    intro j k hne hj hk
    obtain ⟨k',hk',hlt,_⟩ := hs.record j ((hactive j hj).resolve_left hne)
    rw [hlook, if_neg hne, hk'] at hk
    cases hk
    exact hlt
  refine ⟨?_,?_,?_,hs.single,?_,?_,?_,hs.again⟩
  · intro j hj
    rw [hlook]
    by_cases hne : j = i
    · refine ⟨s.nGenerated,if_pos hne,Nat.lt_succ_self _,?_⟩
      intro hmem
      exact absurd (hs.kept _ hmem) (Nat.lt_irrefl _)
    · obtain ⟨k,hk,hlt,hkept⟩ := hs.record j ((hactive j hj).resolve_left hne)
      exact ⟨k,(if_neg hne).trans hk,Nat.lt_succ_of_lt hlt,hkept⟩
  · intro j j' k hj hj' hk hk'
    by_cases hne : j = i
    · by_cases hne' : j' = i
      · rw [hne, hne']
      · have hlt := hold j' k hne' hj' hk'
        rw [hlook, if_pos hne] at hk
        cases hk
        exact absurd hlt (Nat.lt_irrefl _)
    · by_cases hne' : j' = i
      · have hlt := hold j k hne hj hk
        rw [hlook, if_pos hne'] at hk'
        cases hk'
        exact absurd hlt (Nat.lt_irrefl _)
      · rw [hlook, if_neg hne] at hk
        rw [hlook, if_neg hne'] at hk'
        exact hs.distinct j j' k ((hactive j hj).resolve_left hne)
          ((hactive j' hj').resolve_left hne') hk hk'
  · intro r hmem
    rcases (SortedSet.mem_insert i _ s.setKeyPool).mp hmem with heq | hmem
    · exact hnot r heq
    · exact hs.apart r hmem
  · intro r k hk
    obtain ⟨hne,hkey⟩ := hs.key r k hk
    refine ⟨hne,?_⟩
    rw [hlook]
    exact (if_neg (hnot r)).trans hkey
  · intro j hj
    rcases hactive j hj with rfl | hj
    · exact hi
    · exact hs.positive j hj
  · intro k hk
    exact Nat.lt_succ_of_lt (hs.kept k hk)

theorem inv_generated (hs : Inv s) : Inv { s with nGenerated := s.nGenerated+1 } := by
  apply inv_sub hs
  · exact fun i hi => hi
  · exact fun r => Or.inl rfl
  · exact fun i _ => rfl
  · exact Nat.le_succ _
  · intro k hk
    refine ⟨Nat.lt_succ_of_lt (hs.kept k hk),?_⟩
    intro i hi hlook
    obtain ⟨k',hk',_,hnot⟩ := hs.record i hi
    rw [hlook] at hk'
    cases hk'
    exact hnot hk
  · exact hs.again

theorem kept_apart (hs : Inv s) {k : ℕ} (hk : k ∈ s.kept) (i : ℤ) (hi : Active s i) :
    s.pool.lookup i ≠ some k := by
  intro hlook
  obtain ⟨k',hk',_,hnot⟩ := hs.record i hi
  rw [hlook] at hk'
  cases hk'
  exact hnot hk

/-- The lowest index goes from the set to a reservation, with its key or without. -/
theorem inv_reserve (hs : Inv s) (r : ℕ) {i : ℤ} {key : Option ℕ}
    (hfirst : s.setKeyPool.first = some i) (hkey : ∀ k, key = some k → s.pool.lookup i = some k) :
    Inv ({ s with setKeyPool := s.setKeyPool.rest }.reserve r ⟨i,key⟩) := by
  have hi : Active s i := Or.inl (SortedSet.first_mem hfirst)
  have hpos := hs.positive i hi
  have hres := reservation_reserve { s with setKeyPool := s.setKeyPool.rest } r
  have hset : ∀ r', (s.reservation r').nIndex ≠ i := by
    intro r' heq
    have hapart := hs.apart r'
    rw [heq] at hapart
    exact hapart (SortedSet.first_mem hfirst)
  have hactive : ∀ j, Active ({ s with setKeyPool := s.setKeyPool.rest }.reserve r ⟨i,key⟩) j →
      Active s j := by
    intro j hj
    rcases hj with hj | ⟨hne,r',hr'⟩
    · exact Or.inl (SortedSet.mem_of_rest s.setKeyPool j hj)
    · rw [hres] at hr'
      split at hr'
      · rw [← hr']
        exact hi
      · exact Or.inr ⟨hne,r',hr'⟩
  refine ⟨fun j hj => hs.record j (hactive j hj),
    fun j j' k hj hj' => hs.distinct j j' k (hactive j hj) (hactive j' hj'),?_,?_,?_,
    fun j hj => hs.positive j (hactive j hj),hs.kept,hs.again⟩
  · intro r' hmem
    rw [hres] at hmem
    split at hmem
    · exact SortedSet.first_not_rest hfirst hmem
    · exact hs.apart r' (SortedSet.mem_of_rest s.setKeyPool _ hmem)
  · intro r₁ r₂ hne heq
    rw [hres, hres] at heq
    rw [hres] at hne
    by_cases h₁ : r₁ = r
    · by_cases h₂ : r₂ = r
      · rw [h₁, h₂]
      · rw [if_pos h₁, if_neg h₂] at heq
        exact absurd heq.symm (hset r₂)
    · by_cases h₂ : r₂ = r
      · rw [if_neg h₁, if_pos h₂] at heq
        exact absurd heq (hset r₁)
      · rw [if_neg h₁] at hne
        rw [if_neg h₁, if_neg h₂] at heq
        exact hs.single r₁ r₂ hne heq
  · intro r' k hk
    rw [hres] at hk ⊢
    by_cases hr : r' = r
    · rw [if_pos hr] at hk ⊢
      exact ⟨by dsimp only; omega,hkey k hk⟩
    · rw [if_neg hr] at hk ⊢
      exact hs.key r' k hk

theorem inv_return (hs : Inv s) {r : ℕ} (hne : (s.reservation r).nIndex ≠ -1) :
    Inv ({ s with setKeyPool := s.setKeyPool.insert (s.reservation r).nIndex }.reserve r ⟨-1,none⟩) := by
  have hres := reservation_reserve
    { s with setKeyPool := s.setKeyPool.insert (s.reservation r).nIndex } r
  have hactive : ∀ j, Active ({ s with
      setKeyPool := s.setKeyPool.insert (s.reservation r).nIndex }.reserve r ⟨-1,none⟩) j →
      Active s j := by
    intro j hj
    rcases hj with hj | ⟨hj,r',hr'⟩
    · rcases (SortedSet.mem_insert _ j s.setKeyPool).mp hj with rfl | hj
      · exact Or.inr ⟨hne,r,rfl⟩
      · exact Or.inl hj
    · rw [hres] at hr'
      split at hr'
      · exact absurd hr'.symm hj
      · exact Or.inr ⟨hj,r',hr'⟩
  refine ⟨fun j hj => hs.record j (hactive j hj),
    fun j j' k hj hj' => hs.distinct j j' k (hactive j hj) (hactive j' hj'),?_,?_,?_,
    fun j hj => hs.positive j (hactive j hj),hs.kept,hs.again⟩
  · intro r' hmem
    rw [hres] at hmem
    have hpos := hs.positive _ (Or.inr ⟨hne,r,rfl⟩)
    by_cases hr : r' = r
    · rw [if_pos hr] at hmem
      rcases (SortedSet.mem_insert _ _ s.setKeyPool).mp hmem with heq | hmem
      · exact hne heq.symm
      · have h := hs.positive _ (Or.inl hmem)
        dsimp only at h
        omega
    · rw [if_neg hr] at hmem
      rcases (SortedSet.mem_insert _ _ s.setKeyPool).mp hmem with heq | hmem
      · exact hr (hs.single r r' hne heq.symm).symm
      · exact hs.apart r' hmem
  · intro r₁ r₂ hne₁ heq
    rw [hres] at hne₁
    rw [hres, hres] at heq
    by_cases h₁ : r₁ = r
    · rw [if_pos h₁] at hne₁
      exact absurd rfl hne₁
    · rw [if_neg h₁] at hne₁ heq
      by_cases h₂ : r₂ = r
      · rw [if_pos h₂] at heq
        exact absurd heq hne₁
      · rw [if_neg h₂] at heq
        exact hs.single r₁ r₂ hne₁ heq
  · intro r' k hk
    rw [hres] at hk ⊢
    by_cases hr : r' = r
    · rw [if_pos hr] at hk
      cases hk
    · rw [if_neg hr] at hk ⊢
      exact hs.key r' k hk

end Invariant

section Operations
variable (S : Setup)

theorem n_end_above (s : PoolWallet) (b : ℤ) (hb : b ∈ s.setKeyPool) : b < nEnd s := by
  unfold nEnd
  cases hl : s.setKeyPool.last with
  | none => exact absurd hb (SortedSet.last_none hl b)
  | some m => exact Int.lt_add_one_of_le (SortedSet.le_last hl hb)

theorem n_end_write (s : PoolWallet) : nEnd (writeKey (nEnd s) s) = nEnd s+1 := by
  have hlast := SortedSet.last_insert (n_end_above s)
  unfold nEnd at hlast ⊢
  unfold writeKey
  dsimp only
  rw [hlast]

variable {s : PoolWallet}

theorem n_end_positive (hs : Inv s) : 1 ≤ nEnd s := by
  unfold nEnd
  cases hl : s.setKeyPool.last with
  | none => exact le_refl 1
  | some m =>
    have hm := hs.positive m (Or.inl (SortedSet.last_mem hl))
    dsimp only
    omega

variable (io : Io)

theorem inv_top_up_loop {n : ℕ} (s : PoolWallet) (hs : Inv s)
    (hfree : ∀ j, j < n → free s (nEnd s+j) = true) :
    Inv (topUpLoop io n s).2 ∧ (topUpLoop io n s).2.reserved = s.reserved ∧
      ((topUpLoop io n s).1 = true → n ≠ 0 → (topUpLoop io n s).2.setKeyPool.first ≠ none) := by
  induction n generalizing s with
  | zero => exact ⟨hs,rfl,fun _ h => absurd rfl h⟩
  | succ n ih =>
    unfold topUpLoop
    split
    · have h0 : free s (nEnd s) = true := by simpa using hfree 0 (Nat.succ_pos n)
      have hw := inv_write hs (n_end_positive hs) h0
      have hrest : ∀ j, j < n → free (writeKey (nEnd s) s) (nEnd (writeKey (nEnd s) s)+j) = true := by
        intro j hj
        have hj' := hfree (j+1) (Nat.succ_lt_succ hj)
        rw [n_end_write]
        have heq : nEnd s+1+(j : ℤ) = nEnd s+((j+1 : ℕ) : ℤ) := by
          push_cast
          omega
        rw [heq]
        exact hj'
      obtain ⟨hinv,hres,hne⟩ := ih (writeKey (nEnd s) s) hw hrest
      refine ⟨hinv,hres,?_⟩
      intro ht _
      cases n with
      | zero =>
        intro hnone
        exact SortedSet.first_none _ hnone (nEnd s)
          ((SortedSet.mem_insert _ _ s.setKeyPool).mpr (Or.inl rfl))
      | succ n => exact hne ht (Nat.succ_ne_zero n)
    · refine ⟨inv_generated hs,rfl,?_⟩
      intro h
      cases h

theorem inv_top_up {nSize : UInt32} (hs : Inv s) (hok : toppedFree S nSize s = true) :
    Inv (topUpKeyPool S nSize io s).2 ∧ (topUpKeyPool S nSize io s).2.reserved = s.reserved ∧
      ((topUpKeyPool S nSize io s).1 = true →
        (topUpKeyPool S nSize io s).2.setKeyPool.first = none →
          s.setKeyPool.first = none ∧ (s.fLocked = true ∨ missing S nSize s = 0)) := by
  unfold topUpKeyPool
  split
  · rename_i hl
    exact ⟨hs,rfl,fun _ h => ⟨h,Or.inl hl⟩⟩
  · rename_i hl
    have hfree : ∀ j, j < missing S nSize s → free s (nEnd s+j) = true := by
      unfold toppedFree at hok
      rw [Bool.not_eq_true] at hl
      rw [hl, Bool.false_or, List.all_eq_true] at hok
      exact fun j hj => hok j (List.mem_range.mpr hj)
    obtain ⟨hinv,hres,hne⟩ := inv_top_up_loop io s hs hfree
    refine ⟨hinv,hres,?_⟩
    intro ht hnone
    have h0 : missing S nSize s = 0 := by
      by_contra h
      exact hne ht h hnone
    rw [h0] at hnone
    exact ⟨hnone,Or.inr h0⟩

theorem inv_clear (hs : Inv s) : Inv (clearPool io s) := by
  apply inv_sub hs
  · exact fun i hi => absurd hi (SortedSet.not_mem_empty i)
  · exact fun r => Or.inl rfl
  · intro i hi
    change (eraseAll s.pool _).lookup i = _
    rw [lookup_erase_all, if_neg]
    intro hmem
    rcases hi with hi | ⟨_,r,hr⟩
    · exact SortedSet.not_mem_empty i hi
    · apply hs.apart r
      change (s.reservation r).nIndex = i at hr
      rw [hr]
      exact (List.mem_filter.mp hmem).1
  · exact le_refl _
  · intro k hk
    refine ⟨hs.kept k hk,?_⟩
    intro i hi
    apply kept_apart hs hk
    exact hi.imp (fun h => absurd h (SortedSet.not_mem_empty i)) id
  · exact hs.again

theorem inv_new_loop {is : List ℕ} (s : PoolWallet) (hs : Inv s)
    (hok : ∀ i ∈ is, free s (i+1) = true ∧ io.fWritten (i+1) ≠ .refused) :
    Inv (newKeyPoolLoop io is s) := by
  induction is generalizing s with
  | nil => exact hs
  | cons i is ih =>
    obtain ⟨hfree,hwrite⟩ := hok i List.mem_cons_self
    have hrest := fun j hj => hok j (List.mem_cons_of_mem i hj)
    unfold newKeyPoolLoop
    split
    · exact ih _ (inv_write hs (by omega) hfree) hrest
    · rename_i h
      exact absurd h hwrite
    · exact inv_generated hs

theorem inv_new_pool {io : Io} (hs : Inv s) (hok : renewedFree S io s = true) :
    Inv (newKeyPool S io s) := by
  unfold newKeyPool
  split
  · exact inv_clear io hs
  · rename_i hl
    apply inv_new_loop io _ (inv_clear io hs)
    intro i hi
    unfold renewedFree at hok
    rw [Bool.not_eq_true] at hl
    rw [hl, Bool.false_or, List.all_eq_true] at hok
    have h := hok i hi
    rw [Bool.and_eq_true, decide_eq_true_eq] at h
    exact h

inductive ReserveCase (t : PoolWallet) (x : Reserved) : Prop where
  | failed (h : x = ⟨true,-1,none,t⟩)
  | empty (hnone : t.setKeyPool.first = none) (h : x = ⟨false,-1,none,t⟩)
  | unread (i : ℤ) (hi : t.setKeyPool.first = some i)
    (h : x = ⟨true,i,none,{ t with setKeyPool := t.setKeyPool.rest }⟩)
  | read (i : ℤ) (key : ℕ) (hi : t.setKeyPool.first = some i) (hkey : t.pool.lookup i = some key)
    (h : x = ⟨false,i,some key,{ t with setKeyPool := t.setKeyPool.rest }⟩)

theorem reserve_cases (s : PoolWallet) :
    ReserveCase (topUpKeyPool S 0 io s).2 (reserveKeyFromKeyPool S io s) ∧
      (reserveKeyFromKeyPool S io s = ⟨false,-1,none,(topUpKeyPool S 0 io s).2⟩ →
        (topUpKeyPool S 0 io s).1 = true) := by
  unfold reserveKeyFromKeyPool
  dsimp only
  cases ht : (topUpKeyPool S 0 io s).1 with
  | false => exact ⟨.failed rfl,fun h => by cases h⟩
  | true =>
    rw [Bool.not_true, if_neg (by decide)]
    refine ⟨?_,fun _ => rfl⟩
    cases hf : (topUpKeyPool S 0 io s).2.setKeyPool.first with
    | none => exact .empty hf rfl
    | some i =>
      dsimp only
      cases hk : (topUpKeyPool S 0 io s).2.pool.lookup i with
      | none => exact .unread i hf rfl
      | some key =>
        dsimp only
        split
        · exact .read i key hf hk rfl
        · exact .unread i hf rfl

theorem hand_out_fresh {key : ℕ} (h : key ∉ s.kept) : handOut (some key) s = s := by
  unfold handOut
  rw [Option.toList_some, List.filter_cons, if_neg (by simpa using h)]
  rfl

theorem inv_rest (hs : Inv s) : Inv { s with setKeyPool := s.setKeyPool.rest } := by
  have hactive : ∀ i, Active { s with setKeyPool := s.setKeyPool.rest } i → Active s i :=
    fun i hi => hi.imp (SortedSet.mem_of_rest s.setKeyPool i) id
  exact inv_sub hs (SortedSet.mem_of_rest s.setKeyPool) (fun r => Or.inl rfl) (fun i _ => rfl)
    (le_refl _)
    (fun k hk => ⟨hs.kept k hk,fun i hi => kept_apart hs hk i (hactive i hi)⟩) hs.again

theorem inv_release (hs : Inv s) (r : ℕ) : Inv (s.reserve r ⟨-1,none⟩) := by
  have hres : ∀ r', (s.reserve r ⟨-1,none⟩).reservation r' = s.reservation r' ∨
      (s.reserve r ⟨-1,none⟩).reservation r' = ⟨-1,none⟩ := by
    intro r'
    rw [reservation_reserve]
    split
    · exact Or.inr rfl
    · exact Or.inl rfl
  have hactive : ∀ i, Active (s.reserve r ⟨-1,none⟩) i → Active s i := by
    intro i hi
    rcases hi with hi | ⟨hne,r',hr'⟩
    · exact Or.inl hi
    · rcases hres r' with heq | heq
      · rw [heq] at hr'
        exact Or.inr ⟨hne,r',hr'⟩
      · rw [heq] at hr'
        exact absurd hr'.symm hne
  exact inv_sub hs (fun i hi => hi) hres (fun i _ => rfl) (le_refl _)
    (fun k hk => ⟨hs.kept k hk,fun i hi => kept_apart hs hk i (hactive i hi)⟩) hs.again

theorem inv_get_reserved {r : ℕ} {io : Io} {s' : PoolWallet} (hs : Inv s)
    (hok : stepOk S s (.getReservedKey r io) = true) (h : getReservedKey S r io s = some s') :
    Inv s' := by
  unfold getReservedKey at h
  dsimp only at h
  by_cases hne : (s.reservation r).nIndex ≠ -1
  · rw [if_pos hne] at h
    obtain ⟨key,hkey,rfl⟩ := Option.map_eq_some_iff.mp h
    obtain ⟨_,hlook⟩ := hs.key r key hkey
    obtain ⟨k,hk,_,hnot⟩ := hs.record _ (Or.inr ⟨hne,r,rfl⟩)
    rw [hlook] at hk
    cases hk
    rw [hand_out_fresh hnot]
    exact hs
  · rw [if_neg hne] at h
    rw [not_not] at hne
    have hvch : (s.reservation r).vchPubKey = none := by
      cases hk : (s.reservation r).vchPubKey with
      | none => rfl
      | some k => exact absurd hne (hs.key r k hk).1
    unfold stepOk at hok
    dsimp only at hok
    rw [hne, bne_self_eq_false, Bool.false_or, Bool.and_eq_true] at hok
    obtain ⟨ht,hres,hdrain⟩ := inv_top_up S io hs hok.1
    obtain ⟨hcase,hok'⟩ := reserve_cases S io s
    generalize (topUpKeyPool S 0 io s).2 = t at ht hres hcase hdrain hok'
    generalize reserveKeyFromKeyPool S io s = x at hcase h hok'
    cases hcase with
    | failed hx =>
      subst hx
      cases h
      rw [hvch]
      exact inv_release ht r
    | empty hnone hx =>
      have htrue := hok' hx
      subst hx
      dsimp only at h
      rw [if_neg (by decide), if_neg (by decide)] at h
      cases hd : S.vchDefaultKey with
      | none =>
        rw [hd] at h
        cases h
        exact ht
      | some key =>
        exfalso
        obtain ⟨hfirst,hlast⟩ := hdrain htrue hnone
        have hdr : drained S s = true := by
          unfold drained
          rw [hfirst, Option.isNone_none, Bool.true_and, Bool.or_eq_true, beq_iff_eq]
          exact hlast
        rw [hd, hdr] at hok
        exact absurd hok.2 Bool.false_ne_true
    | unread i hi hx =>
      subst hx
      cases h
      rw [hvch]
      exact inv_reserve ht r hi (fun k hk => by cases hk)
    | read i key hi hkey hx =>
      subst hx
      have hact : Active t i := Or.inl (SortedSet.first_mem hi)
      have hne' : i ≠ -1 := by
        have hpos := ht.positive i hact
        omega
      dsimp only at h
      rw [if_neg (by decide), if_pos hne', Option.map_some] at h
      cases h
      obtain ⟨k,hk,_,hnot⟩ := ht.record i hact
      rw [hkey] at hk
      cases hk
      rw [hand_out_fresh]
      · exact inv_reserve ht r hi (fun k hk => by rw [← hk]; exact hkey)
      · exact hnot

theorem inv_retire {s' : PoolWallet} (hs : Inv s) (i : ℤ) (key : Option ℕ)
    (hkey : ∀ k, key = some k → Active s i ∧ s.pool.lookup i = some k)
    (hset : ∀ j ∈ s'.setKeyPool, j ∈ s.setKeyPool)
    (hres : ∀ r, s'.reservation r = s.reservation r ∨ s'.reservation r = ⟨-1,none⟩)
    (hactive : ∀ j, Active s' j → Active s j ∧ j ≠ i)
    (hpool : ∀ j, j ≠ i → s'.pool.lookup j = s.pool.lookup j) (hgen : s'.nGenerated = s.nGenerated)
    (hkept : s'.kept = key.toList++s.kept) (hagain : s'.again = []) : Inv s' := by
  apply inv_sub hs hset hres (fun j hj => hpool j (hactive j hj).2) (le_of_eq hgen.symm) _ hagain
  intro k hk
  rw [hkept, List.mem_append, Option.mem_toList] at hk
  rw [hgen]
  rcases hk with hk | hk
  · obtain ⟨hi,hlook⟩ := hkey k hk
    obtain ⟨k',hk',hlt,_⟩ := hs.record i hi
    rw [hlook] at hk'
    cases hk'
    refine ⟨hlt,?_⟩
    intro j hj hjk
    exact (hactive j hj).2 (hs.distinct j i k (hactive j hj).1 hi hjk hlook)
  · exact ⟨hs.kept k hk,fun j hj => kept_apart hs hk j (hactive j hj).1⟩

theorem lookup_erase_pool {i j : ℤ} (s : PoolWallet) (h : j ≠ i) :
    (erasePool i io s).pool.lookup j = s.pool.lookup j := by
  unfold erasePool
  split
  · rw [lookup_erase_if, if_neg h]
  · rfl

theorem erase_pool_rest (i : ℤ) (io : Io) (s : PoolWallet) :
    erasePool i io s = { s with pool := (erasePool i io s).pool } := by
  unfold erasePool
  split
  · rfl
  · rfl

theorem inv_get_key (hs : Inv s) (hok : toppedFree S 0 s = true) : Inv (getKeyFromPool S io s) := by
  obtain ⟨ht,_,_⟩ := inv_top_up S io hs hok
  obtain ⟨hcase,_⟩ := reserve_cases S io s
  unfold getKeyFromPool
  generalize (topUpKeyPool S 0 io s).2 = t at ht hcase
  generalize reserveKeyFromKeyPool S io s = x at hcase
  dsimp only
  cases hcase with
  | failed hx =>
    subst hx
    exact ht
  | empty hnone hx =>
    subst hx
    dsimp only
    rw [if_neg Bool.false_ne_true, if_pos rfl]
    split
    · exact ht
    · have hnew : t.nGenerated ∉ t.kept := fun h => absurd (ht.kept _ h) (Nat.lt_irrefl _)
      rw [hand_out_fresh]
      · refine inv_sub ht (fun i hi => hi) (fun r => Or.inl rfl) (fun i _ => rfl) (Nat.le_succ _)
          ?_ ht.again
        · intro k hk
          rcases List.mem_cons.mp hk with rfl | hk
          · refine ⟨Nat.lt_succ_self _,?_⟩
            intro i hi hlook
            obtain ⟨k',hk',hlt,_⟩ := ht.record i hi
            rw [hlook] at hk'
            cases hk'
            exact absurd hlt (Nat.lt_irrefl _)
          · exact ⟨Nat.lt_succ_of_lt (ht.kept k hk),fun i hi => kept_apart ht hk i hi⟩
      · exact hnew
  | unread i hi hx =>
    subst hx
    exact inv_rest ht
  | read i key hi hkey hx =>
    subst hx
    have hact : Active t i := Or.inl (SortedSet.first_mem hi)
    have hpos := ht.positive i hact
    have hne : i ≠ -1 := by omega
    obtain ⟨k,hk,_,hnot⟩ := ht.record i hact
    rw [hkey] at hk
    cases hk
    dsimp only
    rw [if_neg Bool.false_ne_true, if_neg hne, erase_pool_rest, hand_out_fresh]
    · refine inv_retire ht i (some key) ?_ (SortedSet.mem_of_rest t.setKeyPool)
        (fun r => Or.inl rfl) ?_ ?_ rfl rfl ht.again
      · intro k hk
        cases hk
        exact ⟨hact,hkey⟩
      · intro j hj
        rcases hj with hj | ⟨hj,r,hr⟩
        · refine ⟨Or.inl (SortedSet.mem_of_rest t.setKeyPool j hj),?_⟩
          rintro rfl
          exact SortedSet.first_not_rest hi hj
        · refine ⟨Or.inr ⟨hj,r,hr⟩,?_⟩
          rintro rfl
          apply ht.apart r
          change (t.reservation r).nIndex = j at hr
          rw [hr]
          exact SortedSet.first_mem hi
      · intro j hj
        exact lookup_erase_pool io { t with setKeyPool := t.setKeyPool.rest } hj
    · exact hnot

theorem inv_keep (r : ℕ) (io : Io) (s : PoolWallet) (hs : Inv s) : Inv (keepKey r io s) := by
  unfold keepKey
  dsimp only
  by_cases hne : (s.reservation r).nIndex ≠ -1
  · rw [if_pos hne, erase_pool_rest]
    have hres := reservation_reserve (keep (s.reservation r).vchPubKey
      { s with pool := (erasePool (s.reservation r).nIndex io s).pool }) r
    refine inv_retire hs (s.reservation r).nIndex (s.reservation r).vchPubKey ?_
      (fun i hi => hi) ?_ ?_ ?_ rfl rfl hs.again
    · exact fun k hk => ⟨Or.inr ⟨hne,r,rfl⟩,(hs.key r k hk).2⟩
    · intro r'
      rw [hres]
      split
      · exact Or.inr rfl
      · exact Or.inl rfl
    · intro j hj
      rcases hj with hj | ⟨hj,r',hr'⟩
      · refine ⟨Or.inl hj,?_⟩
        rintro rfl
        exact hs.apart r hj
      · rw [hres] at hr'
        by_cases hr : r' = r
        · rw [if_pos hr] at hr'
          exact absurd hr'.symm hj
        · rw [if_neg hr] at hr'
          change (s.reservation r').nIndex = j at hr'
          refine ⟨Or.inr ⟨hj,r',hr'⟩,?_⟩
          intro heq
          exact hr (hs.single r r' hne (heq.symm.trans hr'.symm)).symm
    · intro j hj
      exact lookup_erase_pool io s hj
  · rw [if_neg hne]
    rw [not_not] at hne
    have hvch : (s.reservation r).vchPubKey = none := by
      cases hk : (s.reservation r).vchPubKey with
      | none => rfl
      | some k => exact absurd hne (hs.key r k hk).1
    rw [hvch]
    exact inv_release hs r

theorem inv_return_key (r : ℕ) (hs : Inv s) : Inv (returnKey r s) := by
  unfold returnKey
  dsimp only
  split
  · rename_i hne
    exact inv_return hs hne
  · exact inv_release hs r

theorem step_inv (e : Event) (s s' : PoolWallet) (hs : Inv s) (hok : stepOk S s e = true)
    (h : stepPool S e s = some s') : Inv s' := by
  cases e with
  | getReservedKey r io => exact inv_get_reserved S hs hok h
  | keepKey r io =>
    cases h
    exact inv_keep r io s hs
  | returnKey r =>
    cases h
    exact inv_return_key r hs
  | getKeyFromPool io =>
    cases h
    exact inv_get_key S io hs hok
  | topUpKeyPool nSize io =>
    cases h
    exact (inv_top_up S io hs hok).1
  | newKeyPool io =>
    cases h
    exact inv_new_pool S hs hok
  | lock =>
    cases h
    exact ⟨hs.record,hs.distinct,hs.apart,hs.single,hs.key,hs.positive,hs.kept,hs.again⟩
  | unlock =>
    cases h
    exact ⟨hs.record,hs.distinct,hs.apart,hs.single,hs.key,hs.positive,hs.kept,hs.again⟩

/-- A pool as it is read from the database: indices from 1 on, each with its own key, and
nothing reserved or kept yet. -/
structure Loaded (s : PoolWallet) : Prop where
  record : ∀ i ∈ s.setKeyPool, 1 ≤ i ∧ ∃ k, s.pool.lookup i = some k ∧ k < s.nGenerated
  distinct : ∀ i j k, i ∈ s.setKeyPool → j ∈ s.setKeyPool → s.pool.lookup i = some k →
    s.pool.lookup j = some k → i = j
  reserved : s.reserved = ∅
  kept : s.kept = []
  again : s.again = []

theorem loaded_inv (hs : Loaded s) : Inv s := by
  have hres : ∀ r, s.reservation r = ⟨-1,none⟩ := by
    intro r
    unfold PoolWallet.reservation
    rw [hs.reserved]
    rfl
  have hactive : ∀ i, Active s i → i ∈ s.setKeyPool := by
    intro i hi
    rcases hi with hi | ⟨hne,r,hr⟩
    · exact hi
    · rw [hres] at hr
      exact absurd hr.symm hne
  refine ⟨?_,?_,?_,?_,?_,fun i hi => (hs.record i (hactive i hi)).1,?_,hs.again⟩
  · intro i hi
    obtain ⟨_,k,hk,hlt⟩ := hs.record i (hactive i hi)
    refine ⟨k,hk,hlt,?_⟩
    rw [hs.kept]
    exact List.not_mem_nil
  · exact fun i j k hi hj => hs.distinct i j k (hactive i hi) (hactive j hj)
  · intro r hmem
    rw [hres] at hmem
    have hpos := (hs.record _ hmem).1
    dsimp only at hpos
    omega
  · intro r r' hne
    rw [hres] at hne
    exact absurd rfl hne
  · intro r k hk
    rw [hres] at hk
    cases hk
  · intro k hk
    rw [hs.kept] at hk
    cases hk

/-- The pool is sound throughout a run whose operations write under free indices. -/
theorem key_pool_sound (s₀ : PoolWallet) (h₀ : Loaded s₀) (es : List Event)
    (hok : Along (step S) (fun o e => o.all (fun s => stepOk S s e) = true) es (some s₀)) :
    Throughout (step S) (fun _ o => ∀ s, o = some s → Sound s) es (some s₀) := by
  have hinv := throughout_of_along (step S) (fun o => ∀ s, o = some s → Inv s)
    ?_ (some s₀) ?_ hok
  · intro pre hpre s hs
    exact inv_sound (hinv pre hpre s hs)
  · intro e o hinv hok s' h
    obtain ⟨s,rfl,h⟩ := Option.bind_eq_some_iff.mp h
    exact step_inv S e s s' (hinv s rfl) hok h
  · intro s hs
    cases hs
    exact loaded_inv h₀

end Operations

section Sample

def sampleIo : Io := ⟨fun _ => .written,fun _ => true,true,true⟩

def sampleSetup (keypool : ℤ) : Setup := ⟨keypool,none⟩

def sampleRun : List Event :=
  [.getReservedKey 1 sampleIo,.getReservedKey 2 sampleIo,.keepKey 1 sampleIo,.returnKey 2]

theorem start_loaded : Loaded .start where
  record i hi := absurd hi (SortedSet.not_mem_empty i)
  distinct i _ _ hi := absurd hi (SortedSet.not_mem_empty i)
  reserved := rfl
  kept := rfl
  again := rfl

theorem key_pool_sound_sample :
    Throughout (step (sampleSetup 3)) (fun _ o => ∀ s, o = some s → Sound s) sampleRun
      (some .start) :=
  key_pool_sound (sampleSetup 3) .start start_loaded sampleRun (by decide +kernel)

/-- Without a pool both reservations have the index 1; it comes back without its record. -/
theorem empty_pool_reuses :
    ¬ Throughout (step (sampleSetup 0)) (fun _ o => ∀ s, o = some s → Sound s) sampleRun
      (some .start) := by
  intro h
  have hlast := throughout_last _ h
  generalize ho : deliver (step (sampleSetup 0)) sampleRun (some .start) = o at hlast
  have hfacts : o.map (fun s => (s.setKeyPool.items,(s.pool.lookup 1).isSome)) =
      some ([1],false) := by
    rw [← ho]
    decide +kernel
  cases o with
  | none => cases hfacts
  | some s =>
    obtain ⟨hset,hpool⟩ := Prod.mk.inj (Option.some.inj hfacts)
    have hmem : (1 : ℤ) ∈ s.setKeyPool := by
      change (1 : ℤ) ∈ s.setKeyPool.items
      rw [hset]
      exact List.mem_cons_self
    have hrec := (hlast s rfl).record 1 hmem
    rw [hpool] at hrec
    cases hrec

end Sample

end SwippCore.KeyPoolRuns
