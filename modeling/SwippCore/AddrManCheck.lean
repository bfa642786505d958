import SwippCore.AddrManSteps
import Mathlib.Algebra.BigOperators.Fin

/-!
# Check_

The consistency check of addrman.cpp. It returns zero exactly for the states that have
the properties in `Checked`, and these hold in every run, except for those of the times.
-/

set_option autoImplicit false

namespace SwippCore.AddrMan
open FinMap TwoWay

section Check
variable (s : CAddrMan)

def kindError (info : CAddrInfo) : Option ℤ :=
  if info.fInTried then
    if info.nLastSuccess = 0 then some (-1) else if info.nRefCount ≠ 0 then some (-2) else none
  else if info.nRefCount < 0 ∨ newBucketsPerAddress < info.nRefCount then some (-3)
  else if info.nRefCount = 0 then some (-4) else none

def linkError (n : ℕ) (info : CAddrInfo) : Option ℤ :=
  if (s.mapAddr.lookup info.ip).getD 0 ≠ n then some (-5)
  else if info.nRandomPos < 0 ∨ s.vRandom.length ≤ info.nRandomPos ∨
      s.vRandom[info.nRandomPos.toNat]? ≠ some n then some (-14)
  else if info.nLastTry.toInt < 0 then some (-6)
  else if info.nLastSuccess.toInt < 0 then some (-8) else none

/-- The loop over `mapInfo` with the ids of tried entries and the counts of new ones. -/
def checkEntries : List (Sigma fun _ : ℕ => CAddrInfo) → Finset ℕ → Dict ℕ ℤ →
    Except ℤ (Finset ℕ × Dict ℕ ℤ)
  | [], setTried, mapNew => .ok (setTried,mapNew)
  | ⟨n,info⟩::xs, setTried, mapNew =>
    match kindError info with
    | some err => .error err
    | none =>
      match linkError s n info with
      | some err => .error err
      | none =>
        if info.fInTried then checkEntries xs (insert n setTried) mapNew
        else checkEntries xs setTried (mapNew.insert n info.nRefCount)

def triedList : List ℕ := (List.finRange triedBucketCount).flatMap s.vvTried
def newList : List ℕ := (List.finRange newBucketCount).flatMap fun b => (s.vvNew b).sort

def check_ : ℤ :=
  if (s.vRandom.length : ℤ) ≠ s.nTried+s.nNew then -7
  else
    match checkEntries s (inOrder (fun a b => a ≤ b) s.mapInfo) ∅ ∅ with
    | .error err => err
    | .ok (setTried,mapNew) =>
      if (setTried.card : ℤ) ≠ s.nTried then -9
      else if (mapNew.keys.length : ℤ) ≠ s.nNew then -10
      else
        match Tally.strike (triedList s) setTried with
        | none => -11
        | some setTried =>
          match Tally.spend (newList s) mapNew with
          | none => -12
          | some mapNew =>
            if setTried ≠ ∅ then -13 else if mapNew.keys ≠ [] then -15 else 0

def idsOf (fTried : Bool) : Finset ℕ :=
  (s.mapInfo.keys.filter fun n => field s.mapInfo CAddrInfo.fInTried n = some fTried).toFinset

theorem mem_ids_of (fTried : Bool) (n : ℕ) :
    n ∈ idsOf s fTried ↔ ∃ x, s.mapInfo.lookup n = some x ∧ x.fInTried = fTried := by
  unfold idsOf field
  rw [List.mem_toFinset, List.mem_filter, decide_eq_true_eq, Option.map_eq_some_iff]
  constructor
  · exact fun h => h.2
  · rintro ⟨x,hx,ht⟩
    refine ⟨?_,x,hx,ht⟩
    exact (mem_iff_lookup s.mapInfo n).mpr ⟨x,hx⟩

/-- What `Check_` checks. -/
structure Checked : Prop where
  size : (s.vRandom.length : ℤ) = s.nTried+s.nNew
  kind : ∀ n x, s.mapInfo.lookup n = some x → kindError x = none
  link : ∀ n x, s.mapInfo.lookup n = some x → linkError s n x = none
  triedCount : ((idsOf s true).card : ℤ) = s.nTried
  newCount : ((idsOf s false).card : ℤ) = s.nNew
  triedNodup : (triedList s).Nodup
  tried : (triedList s).toFinset = idsOf s true
  refs : ∀ n x, s.mapInfo.lookup n = some x → x.fInTried = false →
    ((newList s).count n : ℤ) = x.nRefCount
  members : ∀ n ∈ newList s, n ∈ idsOf s false

/-- What the loop over `xs` has checked and gathered in `r`, from `setTried` and `mapNew` on. -/
structure Gathers (xs : List (Sigma fun _ : ℕ => CAddrInfo)) (setTried : Finset ℕ)
    (mapNew : Dict ℕ ℤ) (r : Finset ℕ × Dict ℕ ℤ) : Prop where
  passed : ∀ x ∈ xs, kindError x.2 = none ∧ linkError s x.1 x.2 = none
  tried : ∀ n, n ∈ r.1 ↔ n ∈ setTried ∨ ∃ x, ⟨n,x⟩ ∈ xs ∧ x.fInTried = true
  counts : ∀ n c, r.2.lookup n = some c ↔
    mapNew.lookup n = some c ∨ ∃ x, ⟨n,x⟩ ∈ xs ∧ x.fInTried = false ∧ x.nRefCount = c

theorem found_cons (P : CAddrInfo → Prop) (n k : ℕ) (info : CAddrInfo)
    (xs : List (Sigma fun _ : ℕ => CAddrInfo)) :
    (∃ x, ⟨n,x⟩ ∈ (⟨k,info⟩::xs : List (Sigma fun _ : ℕ => CAddrInfo)) ∧ P x) ↔
      n = k ∧ P info ∨ ∃ x, ⟨n,x⟩ ∈ xs ∧ P x := by
  constructor
  · rintro ⟨x,hx,hp⟩
    rcases List.mem_cons.mp hx with heq | hx
    · cases heq
      exact Or.inl ⟨rfl,hp⟩
    · exact Or.inr ⟨x,hx,hp⟩
  · rintro (⟨rfl,hp⟩ | ⟨x,hx,hp⟩)
    · exact ⟨info,List.mem_cons_self,hp⟩
    · exact ⟨x,List.mem_cons_of_mem _ hx,hp⟩

section Entry
variable {xs : List (Sigma fun _ : ℕ => CAddrInfo)} {setTried : Finset ℕ} {mapNew : Dict ℕ ℤ}
  {r : Finset ℕ × Dict ℕ ℤ} {k : ℕ} {info : CAddrInfo} (hkind : kindError info = none)
  (hlink : linkError s k info = none)
include hkind hlink

theorem passed_cons (h : ∀ x ∈ xs, kindError x.2 = none ∧ linkError s x.1 x.2 = none) :
    ∀ x ∈ (⟨k,info⟩::xs : List (Sigma fun _ : ℕ => CAddrInfo)),
      kindError x.2 = none ∧ linkError s x.1 x.2 = none := by
  intro x hx
  rcases List.mem_cons.mp hx with rfl | hx
  · exact ⟨hkind,hlink⟩
  · exact h x hx

theorem gathers_tried (ht : info.fInTried = true)
    (h : Gathers s xs (insert k setTried) mapNew r) :
    Gathers s (⟨k,info⟩::xs) setTried mapNew r := by
  refine ⟨passed_cons s hkind hlink h.passed,?_,?_⟩
  · intro n
    rw [h.tried, Finset.mem_insert, found_cons, ht, and_iff_left rfl, or_assoc, or_left_comm]
  · intro n c
    have hno : ¬(n = k ∧ info.fInTried = false ∧ info.nRefCount = c) := by simp [ht]
    rw [h.counts, found_cons (fun x => x.fInTried = false ∧ x.nRefCount = c), or_iff_right hno]

theorem gathers_new (hf : info.fInTried = false) (hnone : mapNew.lookup k = none)
    (h : Gathers s xs setTried (mapNew.insert k info.nRefCount) r) :
    Gathers s (⟨k,info⟩::xs) setTried mapNew r := by
  refine ⟨passed_cons s hkind hlink h.passed,?_,?_⟩
  · intro n
    have hno : ¬(n = k ∧ info.fInTried = true) := by simp [hf]
    rw [h.tried, found_cons, or_iff_right hno]
  · intro n c
    rw [h.counts, found_cons (fun x => x.fInTried = false ∧ x.nRefCount = c), lookup_insert_if,
      ← or_assoc]
    apply or_congr_left
    split
    · rename_i hn
      rw [hn, hnone]
      simp [hf]
    · rename_i hn
      simp [hn]

end Entry

theorem check_entries_ok {xs : List (Sigma fun _ : ℕ => CAddrInfo)} (setTried : Finset ℕ)
    (mapNew : Dict ℕ ℤ) (hnodup : (xs.map Sigma.fst).Nodup)
    (hnew : ∀ x ∈ xs, mapNew.lookup x.1 = none) {r : Finset ℕ × Dict ℕ ℤ}
    (h : checkEntries s xs setTried mapNew = .ok r) : Gathers s xs setTried mapNew r := by
  induction xs generalizing setTried mapNew with
  | nil =>
    obtain rfl := Except.ok.inj h
    exact ⟨fun _ hx => absurd hx List.not_mem_nil,by simp,by simp⟩
  | cons y xs ih =>
    obtain ⟨k,info⟩ := y
    rw [List.map_cons, List.nodup_cons] at hnodup
    obtain ⟨hk,hnodup⟩ := hnodup
    unfold checkEntries at h
    split at h
    · cases h
    · rename_i hkind
      split at h
      · cases h
      · rename_i hlink
        split at h
        · rename_i ht
          exact gathers_tried s hkind hlink ht (ih (insert k setTried) mapNew hnodup
            (fun x hx => hnew x (List.mem_cons_of_mem _ hx)) h)
        · rename_i hf
          have hother : ∀ x ∈ xs, x.1 ≠ k := fun x hx heq => hk (List.mem_map.mpr ⟨x,hx,heq⟩)
          refine gathers_new s hkind hlink (Bool.eq_false_iff.mpr hf)
            (hnew ⟨k,info⟩ List.mem_cons_self) (ih setTried _ hnodup (fun x hx => ?_) h)
          rw [lookup_insert_if, if_neg (hother x hx)]
          exact hnew x (List.mem_cons_of_mem _ hx)

theorem check_entries_some (xs : List (Sigma fun _ : ℕ => CAddrInfo)) (setTried : Finset ℕ)
    (mapNew : Dict ℕ ℤ) (h : ∀ x ∈ xs, kindError x.2 = none ∧ linkError s x.1 x.2 = none) :
    ∃ r, checkEntries s xs setTried mapNew = .ok r := by
  induction xs generalizing setTried mapNew with
  | nil => exact ⟨_,rfl⟩
  | cons y xs ih =>
    obtain ⟨k,info⟩ := y
    obtain ⟨hkind,hlink⟩ := h ⟨k,info⟩ List.mem_cons_self
    have hrest := fun x hx => h x (List.mem_cons_of_mem _ hx)
    dsimp only at hkind hlink
    unfold checkEntries
    rw [hkind]
    dsimp only
    rw [hlink]
    dsimp only
    split
    · exact ih _ _ hrest
    · exact ih _ _ hrest

theorem in_order_nodup (m : Dict ℕ CAddrInfo) :
    ((inOrder (fun a b => a ≤ b) m).map Sigma.fst).Nodup :=
  ((in_order_perm _ m).map Sigma.fst).nodup_iff.mpr m.nodupKeys

theorem gathered (r : Finset ℕ × Dict ℕ ℤ)
    (h : checkEntries s (inOrder (fun a b => a ≤ b) s.mapInfo) ∅ ∅ = .ok r) :
    (∀ n x, s.mapInfo.lookup n = some x → kindError x = none ∧ linkError s n x = none) ∧
      r.1 = idsOf s true ∧
      (∀ n c, r.2.lookup n = some c ↔
        ∃ x, s.mapInfo.lookup n = some x ∧ x.fInTried = false ∧ x.nRefCount = c) ∧
      r.2.keys.length = (idsOf s false).card := by
  obtain ⟨hall,htried,hcounts⟩ := check_entries_ok s ∅ ∅ (in_order_nodup s.mapInfo)
    (fun x _ => AList.lookup_empty x.1) h
  have hcounts' : ∀ n c, r.2.lookup n = some c ↔
      ∃ x, s.mapInfo.lookup n = some x ∧ x.fInTried = false ∧ x.nRefCount = c := by
    intro n c
    rw [hcounts, AList.lookup_empty]
    simp only [mem_in_order]
    constructor
    · intro h
      exact h.resolve_left (by simp)
    · exact Or.inr
  refine ⟨?_,?_,hcounts',?_⟩
  · exact fun n x hx => hall ⟨n,x⟩ ((mem_in_order _ s.mapInfo n x).mpr hx)
  · ext n
    rw [htried, mem_ids_of]
    simp only [mem_in_order]
    exact ⟨fun h => h.resolve_left (Finset.notMem_empty n),Or.inr⟩
  · have hset : r.2.keys.toFinset = idsOf s false := by
      ext n
      rw [List.mem_toFinset, mem_ids_of]
      change n ∈ r.2 ↔ _
      rw [mem_iff_lookup]
      constructor
      · rintro ⟨c,hc⟩
        obtain ⟨x,hx,hf,_⟩ := (hcounts' n c).mp hc
        exact ⟨x,hx,hf⟩
      · rintro ⟨x,hx,hf⟩
        exact ⟨_,(hcounts' n _).mpr ⟨x,hx,hf,rfl⟩⟩
    rw [← hset, List.toFinset_card_of_nodup r.2.keys_nodup]

theorem keys_nil (m : Dict ℕ ℤ) : m.keys = [] ↔ ∀ n, m.lookup n = none := by
  rw [List.eq_nil_iff_forall_not_mem]
  exact forall_congr' fun n => (AList.lookup_eq_none (a := n) (s := m)).symm

theorem kind_positive {x : CAddrInfo} (h : kindError x = none) (hf : x.fInTried = false) :
    1 ≤ x.nRefCount ∧ x.nRefCount ≤ newBucketsPerAddress := by
  unfold kindError at h
  rw [hf, if_neg Bool.false_ne_true] at h
  split at h
  · cases h
  · split at h
    · cases h
    · omega

theorem spent_iff {m : Dict ℕ ℤ} (hkind : ∀ n x, s.mapInfo.lookup n = some x → kindError x = none)
    (hm : ∀ n c, m.lookup n = some c ↔
      ∃ x, s.mapInfo.lookup n = some x ∧ x.fInTried = false ∧ x.nRefCount = c) :
    (∃ rest, Tally.spend (newList s) m = some rest ∧ ∀ n, rest.lookup n = none) ↔
      (∀ n x, s.mapInfo.lookup n = some x → x.fInTried = false →
        ((newList s).count n : ℤ) = x.nRefCount) ∧ ∀ n ∈ newList s, n ∈ idsOf s false := by
  rw [Tally.spend_all]
  · constructor
    · intro h
      constructor
      · intro n x hx hf
        rw [h n, (hm n x.nRefCount).mpr ⟨x,hx,hf,rfl⟩]
        rfl
      · intro n hn
        have hpos := List.count_pos_iff.mpr hn
        have hcount := h n
        cases hl : m.lookup n with
        | none =>
          rw [hl] at hcount
          change ((newList s).count n : ℤ) = 0 at hcount
          omega
        | some c =>
          obtain ⟨x,hx,hf,_⟩ := (hm n c).mp hl
          exact (mem_ids_of s false n).mpr ⟨x,hx,hf⟩
    · rintro ⟨hrefs,hmembers⟩ n
      cases hl : m.lookup n with
      | none =>
        have hout : n ∉ newList s := by
          intro hmem
          obtain ⟨x,hx,hf⟩ := (mem_ids_of s false n).mp (hmembers n hmem)
          rw [(hm n x.nRefCount).mpr ⟨x,hx,hf,rfl⟩] at hl
          cases hl
        rw [List.count_eq_zero_of_not_mem hout]
        rfl
      | some c =>
        obtain ⟨x,hx,hf,hc⟩ := (hm n c).mp hl
        rw [hrefs n x hx hf, hc]
        rfl
  · intro n c hc
    obtain ⟨x,hx,hf,hxc⟩ := (hm n c).mp hc
    have hpos := (kind_positive (hkind n x hx) hf).1
    omega

theorem kind_error_ne (x : CAddrInfo) : kindError x ≠ some 0 := by
  unfold kindError
  split_ifs <;> decide

theorem link_error_ne (n : ℕ) (x : CAddrInfo) : linkError s n x ≠ some 0 := by
  unfold linkError
  split_ifs <;> decide

theorem check_entries_error {xs : List (Sigma fun _ : ℕ => CAddrInfo)} (setTried : Finset ℕ)
    (mapNew : Dict ℕ ℤ) {err : ℤ} (h : checkEntries s xs setTried mapNew = .error err) :
    err ≠ 0 := by
  induction xs generalizing setTried mapNew with
  | nil => cases h
  | cons y xs ih =>
    unfold checkEntries at h
    split at h
    · rename_i e he
      intro hzero
      rw [Except.error.inj h, hzero] at he
      exact kind_error_ne _ he
    · split at h
      · rename_i e he
        intro hzero
        rw [Except.error.inj h, hzero] at he
        exact link_error_ne s _ _ he
      · split at h
        · exact ih _ _ h
        · exact ih _ _ h

theorem check_zero : check_ s = 0 ↔ Checked s := by
  constructor
  · intro h
    unfold check_ at h
    split at h
    · exact absurd h (by decide)
    · rename_i hsize
      split at h
      · rename_i err herr
        exact absurd h (check_entries_error s _ _ herr)
      · rename_i setTried mapNew hok
        obtain ⟨hall,htried,hcounts,hlen⟩ := gathered s _ hok
        dsimp only at htried hcounts hlen
        split at h
        · exact absurd h (by decide)
        · rename_i htc
          split at h
          · exact absurd h (by decide)
          · rename_i hnc
            split at h
            · exact absurd h (by decide)
            · rename_i rest hstrike
              split at h
              · exact absurd h (by decide)
              · rename_i restNew hspend
                split at h
                · exact absurd h (by decide)
                · rename_i hrest
                  split at h
                  · exact absurd h (by decide)
                  · rename_i hrestNew
                    rw [not_not] at hsize htc hnc hrest hrestNew
                    rw [hrest] at hstrike
                    obtain ⟨hnodup,hset⟩ := (Tally.strike_all _ _).mp hstrike
                    obtain ⟨hrefs,hmembers⟩ := (spent_iff s (fun n x hx => (hall n x hx).1)
                      hcounts).mp ⟨restNew,hspend,(keys_nil restNew).mp hrestNew⟩
                    exact {
                      size := hsize
                      kind := fun n x hx => (hall n x hx).1
                      link := fun n x hx => (hall n x hx).2
                      triedCount := by rw [← htried]; exact htc
                      newCount := by rw [← hlen]; exact hnc
                      triedNodup := hnodup
                      tried := hset.trans htried
                      refs := hrefs
                      members := hmembers }
  · intro h
    obtain ⟨r,hr⟩ := check_entries_some s (inOrder (fun a b => a ≤ b) s.mapInfo) ∅ ∅ fun x hx =>
      have hx' := (mem_in_order _ s.mapInfo x.1 x.2).mp hx
      ⟨h.kind x.1 x.2 hx',h.link x.1 x.2 hx'⟩
    obtain ⟨_,htried,hcounts,hlen⟩ := gathered s r hr
    have hstrike : Tally.strike (triedList s) r.1 = some ∅ :=
      (Tally.strike_all _ _).mpr ⟨h.triedNodup,h.tried.trans htried.symm⟩
    obtain ⟨rest,hspend,hrest⟩ := (spent_iff s h.kind hcounts).mpr ⟨h.refs,h.members⟩
    unfold check_
    rw [if_neg (not_not.mpr h.size), hr]
    dsimp only
    rw [if_neg (not_not.mpr (by rw [htried]; exact h.triedCount)),
      if_neg (not_not.mpr (by rw [hlen]; exact h.newCount)), hstrike]
    dsimp only
    rw [hspend]
    dsimp only
    rw [if_neg (not_not.mpr rfl), if_neg (not_not.mpr ((keys_nil rest).mpr hrest))]

end Check

section Consistency
variable {H : AddrHash} {T : Prop} (s : CAddrMan)

structure Consistent : Prop where
  random : s.vRandom.Nodup ∧ ∀ n, n ∈ s.vRandom ↔ n ∈ s.mapInfo
  position : ∀ n x, s.mapInfo.lookup n = some x →
    0 ≤ x.nRandomPos ∧ s.vRandom[x.nRandomPos.toNat]? = some n
  addr : ∀ a n, s.mapAddr.lookup a = some n ↔ ∃ x, s.mapInfo.lookup n = some x ∧ x.ip = a
  kind : ∀ n x, s.mapInfo.lookup n = some x →
    (x.fInTried = true ∧ x.nRefCount = 0 ∧ (∃! b, n ∈ s.vvTried b) ∧ ∀ b, n ∉ s.vvNew b) ∨
    (x.fInTried = false ∧ 1 ≤ x.nRefCount ∧ x.nRefCount ≤ newBucketsPerAddress ∧
      x.nRefCount = refs s.vvNew n ∧ ∀ b, n ∉ s.vvTried b)
  triedNodup : ∀ b, (s.vvTried b).Nodup
  members : (∀ b, ∀ n ∈ s.vvTried b, n ∈ s.mapInfo) ∧ ∀ b, ∀ n ∈ s.vvNew b, n ∈ s.mapInfo
  counts : s.nTried = (idsOf s true).card ∧ s.nNew = (idsOf s false).card
  sizes : (∀ b, (s.vvTried b).length ≤ triedBucketSize) ∧ ∀ b, (s.vvNew b).card ≤ newBucketSize

section
variable (h : Inv H T none s)
include h

theorem tried_iff (b : Fin triedBucketCount) (n : ℕ) : n ∈ s.vvTried b ↔
    ∃ x, s.mapInfo.lookup n = some x ∧ x.fInTried = true ∧ b = getTriedBucket H s.nKey x.toCService := by
  rw [h.bucketed.tried b n]
  constructor
  · rintro ⟨c,hc,ht,hb⟩
    obtain ⟨x,hx,rfl⟩ := Option.map_eq_some_iff.mp hc
    exact ⟨x,hx,ht,hb⟩
  · rintro ⟨x,hx,ht,hb⟩
    exact ⟨core x,field_some _ core hx,ht,hb⟩

theorem tried_list_nodup : (triedList s).Nodup := by
  unfold triedList
  rw [List.nodup_flatMap]
  refine ⟨fun b _ => h.bucketed.triedNodup b,?_⟩
  apply (List.nodup_finRange triedBucketCount).pairwise_of_forall_ne
  intro b _ c _ hne n hb hc
  obtain ⟨x,hx,_,hbx⟩ := (tried_iff s h b n).mp hb
  obtain ⟨y,hy,_,hcy⟩ := (tried_iff s h c n).mp hc
  rw [hx] at hy
  rw [Option.some.inj hy] at hbx
  exact hne (hbx.trans hcy.symm)

theorem tried_list_ids : (triedList s).toFinset = idsOf s true := by
  ext n
  rw [List.mem_toFinset, mem_ids_of]
  unfold triedList
  rw [List.mem_flatMap]
  constructor
  · rintro ⟨b,_,hb⟩
    obtain ⟨x,hx,ht,_⟩ := (tried_iff s h b n).mp hb
    exact ⟨x,hx,ht⟩
  · rintro ⟨x,hx,ht⟩
    exact ⟨_,List.mem_finRange _,(tried_iff s h _ n).mpr ⟨x,hx,ht,rfl⟩⟩

theorem tried_count : s.nTried = (idsOf s true).card := by
  rw [← tried_list_ids s h, List.toFinset_card_of_nodup (tried_list_nodup s h),
    h.bucketed.triedCount]
  unfold triedList
  rw [List.length_flatMap, ← List.ofFn_eq_map, List.sum_ofFn]

theorem new_count : s.nNew = (idsOf s false).card := by
  have hall := h.bucketed.allCount
  have htried := tried_count s h
  have hset : s.vRandom.toFinset = idsOf s true ∪ idsOf s false := by
    ext n
    rw [List.mem_toFinset, mem_random H s h, Finset.mem_union, mem_ids_of, mem_ids_of,
      Option.isSome_iff_exists]
    constructor
    · rintro ⟨x,hx⟩
      cases ht : x.fInTried with
      | true => exact Or.inl ⟨x,hx,ht⟩
      | false => exact Or.inr ⟨x,hx,ht⟩
    · rintro (⟨x,hx,_⟩ | ⟨x,hx,_⟩)
      · exact ⟨x,hx⟩
      · exact ⟨x,hx⟩
  have hdisjoint : Disjoint (idsOf s true) (idsOf s false) := by
    rw [Finset.disjoint_left]
    intro n ht hf
    obtain ⟨x,hx,hxt⟩ := (mem_ids_of s true n).mp ht
    obtain ⟨y,hy,hyf⟩ := (mem_ids_of s false n).mp hf
    rw [hx] at hy
    rw [Option.some.inj hy, hyf] at hxt
    cases hxt
  have hcard := congrArg Finset.card hset
  rw [Finset.card_union_of_disjoint hdisjoint,
    List.toFinset_card_of_nodup (nodup_of_inverse h.linked.random)] at hcard
  omega

end

theorem new_list_count (n : ℕ) : (newList s).count n = refs s.vvNew n := by
  have hone : ∀ b, ((s.vvNew b).sort).count n = if n ∈ s.vvNew b then 1 else 0 := by
    intro b
    rw [(Finset.sort_nodup (s.vvNew b) (· ≤ ·)).count]
    simp only [Finset.mem_sort]
  unfold newList refs Buckets.holders
  rw [List.count_flatMap, ← List.ofFn_eq_map, List.sum_ofFn, Finset.card_filter]
  exact Finset.sum_congr rfl fun b _ => hone b

theorem mem_new_list (n : ℕ) : n ∈ newList s ↔ ∃ b, n ∈ s.vvNew b := by
  unfold newList
  rw [List.mem_flatMap]
  constructor
  · rintro ⟨b,_,hb⟩
    exact ⟨b,(Finset.mem_sort (· ≤ ·)).mp hb⟩
  · rintro ⟨b,hb⟩
    exact ⟨b,List.mem_finRange b,(Finset.mem_sort (· ≤ ·)).mpr hb⟩

theorem entry_kind (h : Inv H T none s) {n : ℕ} {x : CAddrInfo} (hx : s.mapInfo.lookup n = some x) :
    (x.fInTried = true ∧ x.nRefCount = 0 ∧ ∀ b, n ∉ s.vvNew b) ∨
    (x.fInTried = false ∧ 1 ≤ x.nRefCount ∧ x.nRefCount ≤ newBucketsPerAddress ∧
      x.nRefCount = refs s.vvNew n) := by
  have hcore := field_some s.mapInfo core hx
  have hrefs : x.nRefCount = refs s.vvNew n := by
    have hcount := h.bucketed.refs n _ hcore
    rw [if_neg (by simp)] at hcount
    exact hcount.trans (add_zero _)
  rcases h.bucketed.kind n _ hcore with ⟨ht,hzero⟩ | ⟨hf,hlow,hhigh⟩
  · have hzero' : x.nRefCount = 0 := hzero
    exact Or.inl ⟨ht,hzero',(Buckets.holders_eq_zero _ n).mp (show refs s.vvNew n = 0 by omega)⟩
  · exact Or.inr ⟨hf,hlow,hhigh,hrefs⟩

theorem consistent_of_inv (h : Inv H T none s) : Consistent s where
  random := by
    refine ⟨nodup_of_inverse h.linked.random,?_⟩
    intro n
    rw [mem_random H s h]
    exact AList.lookup_isSome
  position n x hx := by
    obtain ⟨h0,_,hget⟩ := place_some ((h.linked.random x.nRandomPos n).mpr (field_some _ _ hx))
    exact ⟨h0,hget⟩
  addr a n := (h.linked.addr a n).trans Option.map_eq_some_iff
  kind n x hx := by
    rcases entry_kind s h hx with ⟨ht,hzero,hnone⟩ | ⟨hf,hlow,hhigh,hrefs⟩
    · refine Or.inl ⟨ht,hzero,?_,hnone⟩
      refine ⟨_,(tried_iff s h _ n).mpr ⟨x,hx,ht,rfl⟩,?_⟩
      intro b hb
      obtain ⟨y,hy,_,hby⟩ := (tried_iff s h b n).mp hb
      rw [hx] at hy
      rw [Option.some.inj hy]
      exact hby
    · refine Or.inr ⟨hf,hlow,hhigh,hrefs,?_⟩
      intro b hb
      obtain ⟨y,hy,hty,_⟩ := (tried_iff s h b n).mp hb
      rw [hx] at hy
      rw [Option.some.inj hy, hty] at hf
      cases hf
  triedNodup := h.bucketed.triedNodup
  members := by
    constructor
    · intro b n hn
      obtain ⟨x,hx,_⟩ := (tried_iff s h b n).mp hn
      exact (mem_iff_lookup s.mapInfo n).mpr ⟨x,hx⟩
    · intro b n hn
      have hsome := h.bucketed.members b n hn
      rw [field_is_some] at hsome
      exact AList.lookup_isSome.mp hsome
  counts := ⟨tried_count s h,new_count s h⟩
  sizes := ⟨h.bucketed.triedSize,h.bucketed.newSize⟩

theorem checked_of_inv (h : Inv H T none s) (hT : T) : Checked s where
  size := h.bucketed.allCount.symm
  kind n x hx := by
    have htime := h.times hT n x hx
    unfold kindError
    rcases entry_kind s h hx with ⟨ht,hzero,_⟩ | ⟨hf,hlow,hhigh,_⟩
    · rw [if_pos ht, if_neg (htime.reached ht), if_neg (not_not.mpr hzero)]
    · rw [hf, if_neg Bool.false_ne_true, if_neg (by omega), if_neg (by omega)]
  link n x hx := by
    have htime := h.times hT n x hx
    obtain ⟨h0,hlt,hget⟩ := place_some
      ((h.linked.random x.nRandomPos n).mpr (field_some _ _ hx))
    have haddr : s.mapAddr.lookup x.ip = some n := (h.linked.addr x.ip n).mpr (field_some _ _ hx)
    have htried := htime.tried
    have hsuccess := htime.success
    unfold linkError
    rw [haddr, Option.getD_some, if_neg (not_not.mpr rfl), if_neg, if_neg (by omega),
      if_neg (by omega)]
    rintro (hneg | hlong | hne)
    · omega
    · omega
    · exact hne hget
  triedCount := (tried_count s h).symm
  newCount := (new_count s h).symm
  triedNodup := tried_list_nodup s h
  tried := tried_list_ids s h
  refs n x hx hf := by
    rw [new_list_count]
    rcases entry_kind s h hx with ⟨ht,_⟩ | ⟨_,_,_,hrefs⟩
    · rw [hf] at ht
      cases ht
    · exact hrefs.symm
  members n hn := by
    obtain ⟨b,hb⟩ := (mem_new_list s n).mp hn
    have hsome := h.bucketed.members b n hb
    rw [field_is_some] at hsome
    obtain ⟨x,hx⟩ := Option.isSome_iff_exists.mp hsome
    refine (mem_ids_of s false n).mpr ⟨x,hx,?_⟩
    rcases entry_kind s h hx with ⟨_,_,hnone⟩ | ⟨hf,_⟩
    · exact absurd hb (hnone b)
    · exact hf

end Consistency

/-- For every sequence of calls: no assertion fails, the state is consistent, and the check
returns zero where no call of `Good` or `Attempt` came with a time that it refuses. -/
theorem runs_consistent (H : AddrHash) (nKey : List UInt8) (calls : List Call) :
    ∃ s, run H calls (.new nKey) = some s ∧ Consistent s ∧
      ((∀ call ∈ calls, call.Timely) → check_ s = 0) := by
  obtain ⟨s,hs,h⟩ := run_some H (∀ call ∈ calls, call.Timely) (.new nKey)
    (inv_new H _ nKey) id
  exact ⟨s,hs,consistent_of_inv s h,fun hT => (check_zero s).mpr (checked_of_inv s h hT)⟩

section Samples

def sampleHash : AddrHash := ⟨fun _ => true,fun _ => [],fun _ => 0⟩
def sampleAddress : CAddress := ⟨⟨1,6661⟩,1,1550000000,0⟩
def sampleChance : Chance := ⟨fun _ => 0,fun _ => 1550000000⟩

def sampleCalls : List Call :=
  [.add [(sampleAddress,sampleChance)] 2 0,.good ⟨1,6661⟩ 0 fun _ => 0]

/-- With a time that is not zero the check passes. -/
theorem good_in_time : ∃ s, run sampleHash [.add [(sampleAddress,sampleChance)] 2 0,
      .good ⟨1,6661⟩ 1550000000 fun _ => 0] (.new []) = some s ∧ Consistent s ∧ check_ s = 0 := by
  obtain ⟨s,hs,hc,hcheck⟩ := runs_consistent sampleHash []
    [.add [(sampleAddress,sampleChance)] 2 0,.good ⟨1,6661⟩ 1550000000 fun _ => 0]
  refine ⟨s,hs,hc,hcheck ?_⟩
  intro call hcall
  rcases List.mem_cons.mp hcall with rfl | hcall
  · trivial
  · rw [List.mem_singleton.mp hcall]
    change (0 : ℤ) < (1550000000 : BitVec 64).toInt
    decide

theorem good_at_zero_fails : ¬ ∀ (H : AddrHash) (nKey : List UInt8) (calls : List Call),
    ∃ s, run H calls (.new nKey) = some s ∧ check_ s = 0 := by
  intro h
  have hcheck : (run sampleHash sampleCalls (.new [])).map check_ = some (-1) := by
    decide +kernel
  obtain ⟨s,hs,hzero⟩ := h sampleHash [] sampleCalls
  rw [hs, Option.map_some, hzero] at hcheck
  exact absurd (Option.some.inj hcheck) (by decide)

end Samples

end SwippCore.AddrMan
