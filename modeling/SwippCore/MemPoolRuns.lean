import SwippCore.AcceptToMemoryPool
import SwippCore.Lib.Descent

/-!
# The pool as an index

The pool and its map of spent outputs belong together, behind one removal and behind any run.
-/

set_option autoImplicit false

namespace SwippCore.MemPoolIndex
open FinMap Descent Relation

variable (hashTx : CTransaction → Uint256)

/-- Entries are filed under their hash, and an outpoint points to exactly the
inputs of pool transactions that name it. -/
structure Exact (p : CTxMemPool) : Prop where
  keyed : ∀ h t, p.mapTx.lookup h = some t → hashTx t = h
  indexed : ∀ o q, p.mapNextTx.lookup o = some q ↔
    ∃ t, p.mapTx.lookup q.ptx = some t ∧ (t.vin[q.n]?).map CTxIn.prevout = some o

theorem exact_empty : Exact hashTx CTxMemPool.empty where
  keyed := by simp [CTxMemPool.empty]
  indexed := by simp [CTxMemPool.empty]

theorem exact_clear (p : CTxMemPool) : Exact hashTx p.clear where
  keyed := by simp [CTxMemPool.clear]
  indexed := by simp [CTxMemPool.clear]

theorem mem_prevouts_iff (t : CTransaction) (o : COutPoint) :
    o ∈ t.prevouts ↔ ∃ i : ℕ, (t.vin[i]?).map CTxIn.prevout = some o := by
  rw [CTransaction.prevouts, List.mem_iff_getElem?]
  simp [List.getElem?_map]

section Exact
variable {hashTx} {p : CTxMemPool} (hp : Exact hashTx p)
include hp

theorem spender_unique {h k : Uint256} {t u : CTransaction} {o : COutPoint}
    (ht : p.mapTx.lookup h = some t) (hu : p.mapTx.lookup k = some u)
    (hto : o ∈ t.prevouts) (huo : o ∈ u.prevouts) : h = k := by
  obtain ⟨i,hi⟩ := (mem_prevouts_iff t o).mp hto
  obtain ⟨j,hj⟩ := (mem_prevouts_iff u o).mp huo
  have h1 := (hp.indexed o ⟨h,i⟩).mpr ⟨t,ht,hi⟩
  have h2 := (hp.indexed o ⟨k,j⟩).mpr ⟨u,hu,hj⟩
  have := h1.symm.trans h2
  simp only [Option.some.injEq, CInPoint.mk.injEq] at this
  exact this.1

theorem index_some_iff (o : COutPoint) :
    (∃ q, p.mapNextTx.lookup o = some q) ↔
      ∃ h t, p.mapTx.lookup h = some t ∧ o ∈ t.prevouts := by
  constructor
  · rintro ⟨q,hq⟩
    obtain ⟨t,ht,ho⟩ := (hp.indexed o q).mp hq
    exact ⟨q.ptx,t,ht,(mem_prevouts_iff t o).mpr ⟨q.n,ho⟩⟩
  · rintro ⟨h,t,ht,ho⟩
    obtain ⟨i,hi⟩ := (mem_prevouts_iff t o).mp ho
    exact ⟨⟨h,i⟩,(hp.indexed o ⟨h,i⟩).mpr ⟨t,ht,hi⟩⟩

theorem exact_drop {t : CTransaction} (ht : p.mapTx.lookup (hashTx t) = some t) :
    Exact hashTx (p.drop (hashTx t) t) where
  keyed := by
    intro h u hu
    simp only [CTxMemPool.drop, lookup_erase_if] at hu
    split_ifs at hu with hh
    exact hp.keyed h u hu
  indexed := by
    intro o q
    simp only [CTxMemPool.drop, lookup_erase_all, lookup_erase_if]
    constructor
    · intro h
      split_ifs at h with ho
      obtain ⟨u,hu,hi⟩ := (hp.indexed o q).mp h
      refine ⟨u,?_,hi⟩
      rw [if_neg, hu]
      -- the dropped transaction names no outpoint that is still indexed
      intro hq
      rw [hq, ht] at hu
      rw [← Option.some.inj hu] at hi
      exact ho ((mem_prevouts_iff t o).mpr ⟨q.n,hi⟩)
    · rintro ⟨u,hu,hi⟩
      split_ifs at hu with hq
      rw [if_neg, (hp.indexed o q).mpr ⟨u,hu,hi⟩]
      intro ho
      exact hq (spender_unique hp hu ht ((mem_prevouts_iff u o).mpr ⟨q.n,hi⟩) ho)

end Exact

theorem lookup_index_inputs (hash : Uint256) (i : ℕ) {xs : List CTxIn} (m : Dict COutPoint CInPoint)
    (hn : (xs.map CTxIn.prevout).Nodup) (o : COutPoint) (q : CInPoint) :
    (CTxMemPool.indexInputs hash i xs m).lookup o = some q ↔
      (∃ j, q = ⟨hash,i+j⟩ ∧ (xs[j]?).map CTxIn.prevout = some o) ∨
        (o ∉ xs.map CTxIn.prevout ∧ m.lookup o = some q) := by
  induction xs generalizing i m with
  | nil => simp [CTxMemPool.indexInputs]
  | cons x xs ih =>
    obtain ⟨hx,hxs⟩ := List.nodup_cons.mp hn
    rw [CTxMemPool.indexInputs, ih (i+1) _ hxs, lookup_insert_if]
    constructor
    · rintro (⟨j,rfl,hj⟩ | ⟨ho,hm⟩)
      · exact Or.inl ⟨j+1,by rw [Nat.add_right_comm, Nat.add_assoc],by simpa using hj⟩
      · split_ifs at hm with hox
        · exact Or.inl ⟨0,(Option.some.inj hm).symm,by simp [hox]⟩
        · exact Or.inr ⟨by simp [hox] at ho ⊢; exact ho,hm⟩
    · rintro (⟨j,rfl,hj⟩ | ⟨ho,hm⟩)
      · cases j with
        | zero =>
          have hox : x.prevout = o := by simpa using hj
          exact Or.inr ⟨hox ▸ hx,by simp [hox]⟩
        | succ j =>
          exact Or.inl ⟨j,by rw [Nat.add_right_comm, Nat.add_assoc],by simpa using hj⟩
      · simp only [List.map_cons, List.mem_cons, not_or] at ho
        exact Or.inr ⟨ho.2,by rw [if_neg ho.1]; exact hm⟩

theorem exact_add {p : CTxMemPool} (hp : Exact hashTx p) {t : CTransaction}
    (hn : t.prevouts.Nodup) (hnew : p.mapTx.lookup (hashTx t) = none)
    (hfree : ∀ o ∈ t.prevouts, p.mapNextTx.lookup o = none) :
    Exact hashTx (p.addUnchecked (hashTx t) t) where
  keyed := by
    intro h u hu
    simp only [CTxMemPool.addUnchecked, lookup_insert_if] at hu
    split_ifs at hu with hh
    · rw [← Option.some.inj hu, hh]
    · exact hp.keyed h u hu
  indexed := by
    intro o q
    simp only [CTxMemPool.addUnchecked, lookup_insert_if]
    rw [lookup_index_inputs _ _ _ hn]
    simp only [Nat.zero_add]
    constructor
    · rintro (⟨j,rfl,hj⟩ | ⟨ho,hm⟩)
      · exact ⟨t,by simp,hj⟩
      · obtain ⟨u,hu,hi⟩ := (hp.indexed o q).mp hm
        refine ⟨u,?_,hi⟩
        rw [if_neg, hu]
        intro hq
        rw [hq, hnew] at hu
        exact absurd hu (by simp)
    · rintro ⟨u,hu,hi⟩
      split_ifs at hu with hq
      · rw [← Option.some.inj hu] at hi
        exact Or.inl ⟨q.n,by rw [← hq],hi⟩
      · have hm := (hp.indexed o q).mpr ⟨u,hu,hi⟩
        refine Or.inr ⟨fun ho => ?_,hm⟩
        rw [hfree o ho] at hm
        exact absurd hm (by simp)

end SwippCore.MemPoolIndex

namespace SwippCore.MemPoolRemoval
open FinMap Descent Relation MemPoolIndex

def Child (p : CTxMemPool) (a b : Uint256) : Prop :=
  ∃ t u i, p.mapTx.lookup a = some t ∧ p.mapTx.lookup b = some u ∧
    i < t.vout.length ∧ ⟨a,i⟩ ∈ u.prevouts

/-- `q` is `p` with exactly the entries of `s` gone. -/
structure Without (p : CTxMemPool) (s : Set Uint256) (q : CTxMemPool) : Prop where
  gone : ∀ h ∈ s, q.mapTx.lookup h = none
  kept : ∀ h, h ∉ s → q.mapTx.lookup h = p.mapTx.lookup h

theorem without_nothing (p : CTxMemPool) : Without p ∅ p :=
  ⟨fun _ h => absurd h (Set.notMem_empty _),fun _ _ => rfl⟩

variable {p : CTxMemPool}

theorem without_trans {q r : CTxMemPool} {s t : Set Uint256} (h1 : Without p s q)
    (h2 : Without q t r) : Without p (t ∪ s) r where
  gone := by
    intro h hh
    by_cases ht : h ∈ t
    · exact h2.gone h ht
    · rw [h2.kept h ht]
      exact h1.gone h (hh.resolve_left ht)
  kept := by
    intro h hh
    rw [h2.kept h (fun ht => hh (Or.inl ht)), h1.kept h (fun hs => hh (Or.inr hs))]

theorem without_drop (p : CTxMemPool) (h : Uint256) (t : CTransaction) :
    Without p {h} (p.drop h t) where
  gone := by
    rintro k rfl
    simp [CTxMemPool.drop]
  kept := by
    intro k hk
    have : k ≠ h := hk
    simp [CTxMemPool.drop, this]

section Shrink
variable {p q : CTxMemPool} {s : Set Uint256} (hw : Without p s q)
include hw

theorem without_some {h : Uint256} {t : CTransaction} :
    q.mapTx.lookup h = some t ↔ p.mapTx.lookup h = some t ∧ h ∉ s := by
  by_cases hs : h ∈ s
  · simp [hw.gone h hs, hs]
  · simp [hw.kept h hs, hs]

theorem child_without : Child q = outside (Child p) s := by
  ext a b
  constructor
  · rintro ⟨t,u,i,ht,hu,hi,ho⟩
    obtain ⟨ht,ha⟩ := (without_some hw).mp ht
    obtain ⟨hu,hb⟩ := (without_some hw).mp hu
    exact ⟨⟨t,u,i,ht,hu,hi,ho⟩,ha,hb⟩
  · rintro ⟨⟨t,u,i,ht,hu,hi,ho⟩,ha,hb⟩
    exact ⟨t,u,i,(without_some hw).mpr ⟨ht,ha⟩,(without_some hw).mpr ⟨hu,hb⟩,hi,ho⟩

theorem acyclic_without (hp : Acyclic (Child p)) : Acyclic (Child q) := by
  rw [child_without hw]
  exact acyclic_mono (fun _ _ h => h.1) hp

end Shrink

variable {a : Uint256}

theorem below_keys {b : Uint256} (ha : a ∈ p.mapTx) (h : b ∈ below (Child p) a) : b ∈ p.mapTx := by
  refine closed_below (s := {k | k ∈ p.mapTx}) ?_ ha h
  rintro c d _ ⟨_,u,_,_,hu,_⟩
  exact (mem_iff_lookup p.mapTx d).mpr ⟨u,hu⟩

theorem below_subset_keys (ha : a ∈ p.mapTx) :
    below (Child p) a ⊆ {k | k ∈ p.mapTx.keys.toFinset} := by
  intro b hb
  have := below_keys ha hb
  simpa [AList.mem_keys] using this

theorem below_finite (ha : a ∈ p.mapTx) : (below (Child p) a).Finite :=
  (Finset.finite_toSet p.mapTx.keys.toFinset).subset (below_subset_keys ha)

theorem below_size (ha : a ∈ p.mapTx) : (below (Child p) a).ncard ≤ p.size := by
  calc (below (Child p) a).ncard
      ≤ (p.mapTx.keys.toFinset : Set Uint256).ncard :=
        Set.ncard_le_ncard (below_subset_keys ha) (Finset.finite_toSet _)
    _ = p.mapTx.keys.toFinset.card := Set.ncard_coe_finset _
    _ ≤ p.size := List.toFinset_card_le _

def spending (p : CTxMemPool) (os : List COutPoint) (skip : CTransaction → Prop) :
    Set Uint256 :=
  {b | ∃ c u o, p.mapTx.lookup c = some u ∧ o ∈ os ∧ o ∈ u.prevouts ∧ ¬skip u ∧
    b ∈ below (Child p) c}

theorem spending_nil (p : CTxMemPool) (skip : CTransaction → Prop) : spending p [] skip = ∅ := by
  ext b
  simp [spending]

variable {o : COutPoint}

/-- An outpoint with one spender contributes that spender's descendants; the
other outpoints can be read off the pool without them. -/
theorem spending_cons {q : CTxMemPool} {c : Uint256} {u : CTransaction} (os : List COutPoint)
    (skip : CTransaction → Prop) (hone : ∀ k v, p.mapTx.lookup k = some v → o ∈ v.prevouts → k = c)
    (hc : p.mapTx.lookup c = some u) (ho : o ∈ u.prevouts) (hs : ¬skip u)
    (hw : Without p (below (Child p) c) q) :
    spending q os skip ∪ below (Child p) c = spending p (o::os) skip := by
  have hcl := below_closed (Child p) c
  ext b
  constructor
  · rintro (⟨d,v,x,hd,hx,hxv,hsv,hb⟩ | hb)
    · obtain ⟨hd,_⟩ := (without_some hw).mp hd
      rw [child_without hw] at hb
      exact ⟨d,v,x,hd,List.mem_cons_of_mem o hx,hxv,hsv,below_outside_le _ _ _ hb⟩
    · exact ⟨c,u,o,hc,List.mem_cons_self,ho,hs,hb⟩
  · rintro ⟨d,v,x,hd,hx,hxv,hsv,hb⟩
    by_cases hdc : d ∈ below (Child p) c
    · exact Or.inr (closed_below hcl hdc hb)
    have hxs : x ∈ os := by
      rcases List.mem_cons.mp hx with rfl | hx
      · exact absurd (hone d v hd hxv ▸ below_self (Child p) c) hdc
      · exact hx
    have hbu : b ∈ below (outside (Child p) (below (Child p) c)) d ∪ below (Child p) c := by
      rw [below_union_outside hcl]
      exact Or.inl hb
    rw [← child_without hw] at hbu
    exact hbu.imp_left (fun hb => ⟨d,v,x,(without_some hw).mpr ⟨hd,hdc⟩,hxs,hxv,hsv,hb⟩)

theorem spending_skip (os : List COutPoint) (skip : CTransaction → Prop)
    (hnone : ∀ k v, p.mapTx.lookup k = some v → o ∈ v.prevouts → skip v) :
    spending p (o::os) skip = spending p os skip := by
  ext b
  constructor
  · rintro ⟨d,v,x,hd,hx,hxv,hsv,hb⟩
    rcases List.mem_cons.mp hx with rfl | hx
    · exact absurd (hnone d v hd hxv) hsv
    · exact ⟨d,v,x,hd,hx,hxv,hsv,hb⟩
  · rintro ⟨d,v,x,hd,hx,hxv,hsv,hb⟩
    exact ⟨d,v,x,hd,List.mem_cons_of_mem o hx,hxv,hsv,hb⟩

variable {hashTx : CTransaction → Uint256}

/-- What a removal of the transaction filed under `h` is for. -/
structure Removes (hashTx : CTransaction → Uint256) (p : CTxMemPool) (s : Set Uint256)
    (q : CTxMemPool) : Prop where
  exact : Exact hashTx q
  without : Without p s q

theorem follow (hp : Exact hashTx p) {it : CInPoint} (h : p.mapNextTx.lookup o = some it) :
    ∃ u, p.mapTx.lookup it.ptx = some u ∧
      o ∈ u.prevouts ∧ ∀ k v, p.mapTx.lookup k = some v → o ∈ v.prevouts → k = it.ptx := by
  obtain ⟨u,hu,hi⟩ := (hp.indexed o it).mp h
  have ho := (mem_prevouts_iff u o).mpr ⟨it.n,hi⟩
  exact ⟨u,hu,ho,fun k v hk hv => spender_unique hp hk hu hv ho⟩

theorem unspent_of_lookup (hp : Exact hashTx p) (h : p.mapNextTx.lookup o = none) {k : Uint256}
    {v : CTransaction} (hk : p.mapTx.lookup k = some v) : o ∉ v.prevouts := by
  intro hv
  obtain ⟨q,hq⟩ := (index_some_iff hp o).mpr ⟨k,v,hk,hv⟩
  rw [h] at hq
  exact absurd hq (by simp)

def outpoints (h : Uint256) (is : List ℕ) : List COutPoint := is.map (COutPoint.mk h)

variable {t : CTransaction}

theorem remove_spenders (rm : CTransaction → CTxMemPool → Option CTxMemPool) {h : Uint256}
    {bound : ℕ}
    (ih : ∀ p c u, Exact hashTx p → Acyclic (Child p) → p.mapTx.lookup c = some u →
      (below (Child p) c).ncard ≤ bound →
      ∃ q, rm u p = some q ∧ Removes hashTx p (below (Child p) c) q)
    (is : List ℕ) (hi : ∀ i ∈ is, i < t.vout.length) (p : CTxMemPool)
    (hp : Exact hashTx p) (ha : Acyclic (Child p)) (ht : p.mapTx.lookup h = some t)
    (hb : ∀ c, Child p h c → (below (Child p) c).ncard ≤ bound) :
    ∃ q, CTxMemPool.removeSpenders rm h is p = some q ∧
      Removes hashTx p (spending p (outpoints h is) (fun _ => False)) q := by
  induction is generalizing p with
  | nil =>
    refine ⟨p,rfl,hp,?_⟩
    rw [outpoints, List.map_nil, spending_nil]
    exact without_nothing p
  | cons i is loop =>
    have his : ∀ j ∈ is, j < t.vout.length := fun j hj => hi j (List.mem_cons_of_mem i hj)
    cases hn : p.mapNextTx.lookup ⟨h,i⟩ with
    | none =>
      obtain ⟨q,hq,hr⟩ := loop his p hp ha ht hb
      refine ⟨q,by simpa only [CTxMemPool.removeSpenders, hn] using hq,?_⟩
      rw [outpoints, List.map_cons, spending_skip _ _
        (fun k v hk hv => absurd hv (unspent_of_lookup hp hn hk))]
      exact hr
    | some it =>
      obtain ⟨u,hu,ho,hone⟩ := follow hp hn
      have hch : Child p h it.ptx := ⟨t,u,i,ht,hu,hi i List.mem_cons_self,ho⟩
      obtain ⟨p1,h1,hx1,hw1⟩ := ih p it.ptx u hp ha hu (hb _ hch)
      have ht1 : p1.mapTx.lookup h = some t :=
        (without_some hw1).mpr ⟨ht,acyclic_below ha hch⟩
      have hb1 : ∀ c, Child p1 h c → (below (Child p1) c).ncard ≤ bound := by
        intro c hc
        rw [child_without hw1] at hc ⊢
        have hcp : c ∈ p.mapTx := by
          obtain ⟨_,v,_,_,hv,_⟩ := hc.1
          exact (mem_iff_lookup p.mapTx c).mpr ⟨v,hv⟩
        exact le_trans (Set.ncard_le_ncard (below_outside_le _ _ c) (below_finite hcp))
          (hb c hc.1)
      obtain ⟨q,hq,hxq,hwq⟩ := loop his p1 hx1 (acyclic_without hw1 ha) ht1 hb1
      refine ⟨q,by simp only [CTxMemPool.removeSpenders, hn, hu, h1, Option.bind_some, hq],
        hxq,?_⟩
      rw [outpoints, List.map_cons,
        ← spending_cons _ _ hone hu ho (fun hf => hf) hw1]
      exact without_trans hw1 hwq

/-- The children followed by the output loop, and the transaction itself, are
its descendants. -/
theorem spending_outputs {h : Uint256} (ht : p.mapTx.lookup h = some t) :
    {h} ∪ spending p (outpoints h (List.range t.vout.length)) (fun _ => False) =
      below (Child p) h := by
  ext b
  rw [mem_below_iff]
  constructor
  · rintro (hb | ⟨c,u,o,hu,ho,hou,-,hb⟩)
    · exact Or.inl hb
    · obtain ⟨i,hi,rfl⟩ := List.mem_map.mp ho
      exact Or.inr ⟨c,⟨t,u,i,ht,hu,List.mem_range.mp hi,hou⟩,hb⟩
  · rintro (hb | ⟨c,⟨t',u,i,ht',hu,hi,hou⟩,hb⟩)
    · exact Or.inl hb
    · have htt : t' = t := Option.some.inj (ht'.symm.trans ht)
      rw [htt] at hi
      exact Or.inr ⟨c,u,⟨h,i⟩,hu,List.mem_map.mpr ⟨i,List.mem_range.mpr hi,rfl⟩,hou,
        fun hf => hf,hb⟩

/-- The recursion removes the descendants of its argument and keeps the index
exact; fuel for as many calls as there are descendants is enough. -/
theorem remove_fuel {fuel : ℕ} (p : CTxMemPool) (h : Uint256) (t : CTransaction)
    (hp : Exact hashTx p) (ha : Acyclic (Child p)) (ht : p.mapTx.lookup h = some t)
    (hf : (below (Child p) h).ncard ≤ fuel) :
    ∃ q, CTxMemPool.removeFuel hashTx fuel t true p = some q ∧
      Removes hashTx p (below (Child p) h) q := by
  induction fuel generalizing p h t with
  | zero =>
    have hm : h ∈ p.mapTx := (mem_iff_lookup p.mapTx h).mpr ⟨t,ht⟩
    have he := (Set.ncard_eq_zero (below_finite hm)).mp (Nat.le_zero.mp hf)
    exact absurd (below_self (Child p) h) (by simp [he])
  | succ fuel ih =>
    have hm : h ∈ p.mapTx := (mem_iff_lookup p.mapTx h).mpr ⟨t,ht⟩
    have hk : hashTx t = h := hp.keyed h t ht
    have hb : ∀ c, Child p h c → (below (Child p) c).ncard ≤ fuel := by
      intro c hc
      have := ncard_below_lt ha hc (below_finite hm)
      omega
    obtain ⟨q,hq,hxq,hwq⟩ := remove_spenders (fun u => CTxMemPool.removeFuel hashTx fuel u true)
       (fun p c u => ih p c u) (List.range t.vout.length)
      (fun i hi => List.mem_range.mp hi) p hp ha ht hb
    have htq : q.mapTx.lookup h = some t := by
      refine (without_some hwq).mpr ⟨ht,?_⟩
      rintro ⟨c,u,o,hu,ho,hou,-,hbc⟩
      obtain ⟨i,hi,rfl⟩ := List.mem_map.mp ho
      exact acyclic_below ha ⟨t,u,i,ht,hu,List.mem_range.mp hi,hou⟩ hbc
    refine ⟨q.drop h t,?_,?_,?_⟩
    · simp only [CTxMemPool.removeFuel, hk, hm, if_true, hq, Option.map_some]
    · rw [← hk] at htq ⊢
      exact exact_drop hxq htq
    · rw [← spending_outputs ht]
      exact without_trans hwq (without_drop q h t)

theorem remove_conflicts_at (tx : CTransaction) (os : List COutPoint) (p : CTxMemPool)
    (hp : Exact hashTx p) (ha : Acyclic (Child p)) :
    ∃ q, CTxMemPool.removeConflictsAt hashTx tx os p = some q ∧
      Removes hashTx p (spending p os (fun u => u = tx)) q := by
  induction os generalizing p with
  | nil =>
    refine ⟨p,rfl,hp,?_⟩
    rw [spending_nil]
    exact without_nothing p
  | cons o os loop =>
    cases hn : p.mapNextTx.lookup o with
    | none =>
      obtain ⟨q,hq,hr⟩ := loop p hp ha
      refine ⟨q,by simpa only [CTxMemPool.removeConflictsAt, hn] using hq,?_⟩
      rw [spending_skip _ _ (fun k v hk hv => absurd hv (unspent_of_lookup hp hn hk))]
      exact hr
    | some it =>
      obtain ⟨u,hu,ho,hone⟩ := follow hp hn
      by_cases hut : u = tx
      · obtain ⟨q,hq,hr⟩ := loop p hp ha
        refine ⟨q,?_,?_⟩
        · simpa only [CTxMemPool.removeConflictsAt, hn, hu, ne_eq, hut, not_true, if_false] using hq
        · rw [spending_skip]
          · exact hr
          · intro k v hk hv
            rw [hone k v hk hv, hu] at hk
            exact (Option.some.inj hk).symm.trans hut
      · have hm : it.ptx ∈ p.mapTx := (mem_iff_lookup p.mapTx it.ptx).mpr ⟨u,hu⟩
        obtain ⟨p1,h1,hx1,hw1⟩ := remove_fuel p it.ptx u hp ha hu
          (Nat.le_succ_of_le (below_size hm))
        obtain ⟨q,hq,hxq,hwq⟩ := loop p1 hx1 (acyclic_without hw1 ha)
        refine ⟨q,?_,hxq,?_⟩
        · simp only [CTxMemPool.removeConflictsAt, hn, hu, ne_eq, hut, not_false_eq_true, if_true,
            CTxMemPool.remove, h1, Option.bind_some, hq]
        · rw [← spending_cons os (fun u => u = tx) hone hu ho hut hw1]
          exact without_trans hw1 hwq

theorem remove_spenders_mono {rm rm' : CTransaction → CTxMemPool → Option CTxMemPool}
    (hrm : ∀ t p q, rm t p = some q → rm' t p = some q) {h : Uint256} {is : List ℕ}
    (p q : CTxMemPool) (hq : CTxMemPool.removeSpenders rm h is p = some q) :
    CTxMemPool.removeSpenders rm' h is p = some q := by
  induction is generalizing p with
  | nil => exact hq
  | cons i is ih =>
    simp only [CTxMemPool.removeSpenders] at hq ⊢
    cases hn : p.mapNextTx.lookup ⟨h,i⟩ with
    | none =>
      rw [hn] at hq
      exact ih p hq
    | some it =>
      simp only [hn] at hq
      cases hc : p.mapTx.lookup it.ptx with
      | none => simp [hc] at hq
      | some u =>
        simp only [hc, Option.bind_eq_some_iff] at hq ⊢
        obtain ⟨p1,h1,h2⟩ := hq
        exact ⟨p1,hrm u p p1 h1,ih p1 h2⟩

theorem remove_fuel_mono {fuel : ℕ} (t : CTransaction) (b : Bool) (p q : CTxMemPool)
    (hq : CTxMemPool.removeFuel hashTx fuel t b p = some q) :
    CTxMemPool.removeFuel hashTx (fuel+1) t b p = some q := by
  induction fuel generalizing t b p q with
  | zero => simp [CTxMemPool.removeFuel] at hq
  | succ fuel ih =>
    rw [CTxMemPool.removeFuel] at hq ⊢
    cases b with
    | false => exact hq
    | true =>
      simp only [if_true] at hq ⊢
      split_ifs at hq ⊢ with hm
      · obtain ⟨r,hr,hd⟩ := Option.map_eq_some_iff.mp hq
        refine Option.map_eq_some_iff.mpr ⟨r,?_,hd⟩
        exact remove_spenders_mono (fun u p q => ih u true p q) _ _ hr
      · exact hq

theorem remove_fuel_le {fuel more : ℕ} (h : fuel ≤ more) {b : Bool} {q : CTxMemPool}
    (hq : CTxMemPool.removeFuel hashTx fuel t b p = some q) :
    CTxMemPool.removeFuel hashTx more t b p = some q := by
  induction h with
  | refl => exact hq
  | step _ ih => exact remove_fuel_mono t b p q ih

theorem remove_absent {tx : CTransaction} (b : Bool) (h : p.mapTx.lookup (hashTx tx) = none)
    (fuel : ℕ) : CTxMemPool.removeFuel hashTx (fuel+1) tx b p = some p := by
  rw [CTxMemPool.removeFuel]
  exact if_neg (fun hm => by simpa [h] using (mem_iff_lookup p.mapTx _).mp hm)

theorem remove_alone {tx : CTransaction} (h : p.mapTx.lookup (hashTx tx) = some tx) :
    CTxMemPool.remove hashTx tx false p = some (p.drop (hashTx tx) tx) := by
  have hm := (mem_iff_lookup p.mapTx (hashTx tx)).mpr ⟨tx,h⟩
  simp [CTxMemPool.remove, CTxMemPool.removeFuel, hm]

end SwippCore.MemPoolRemoval

namespace SwippCore.MemPoolRuns
open FinMap Descent Relation MemPoolIndex MemPoolRemoval

variable (hashTx : CTransaction → Uint256) (U : Set CTransaction)

def Spends (t u : CTransaction) : Prop :=
  t ∈ U ∧ u ∈ U ∧ ∃ i < t.vout.length, ⟨hashTx t,i⟩ ∈ u.prevouts

inductive Reachable : CTxMemPool → Prop where
  | empty : Reachable CTxMemPool.empty
  | addUnchecked {p : CTxMemPool} {tx : CTransaction} (hp : Reachable p) (htx : tx ∈ U)
      (hnew : p.mapTx.lookup (hashTx tx) = none)
      (hfree : ∀ o ∈ tx.prevouts, p.mapNextTx.lookup o = none) :
      Reachable (p.addUnchecked (hashTx tx) tx)
  | remove {p q : CTxMemPool} {tx : CTransaction} {fRecursive : Bool} (hp : Reachable p)
      (htx : tx ∈ U) (h : CTxMemPool.remove hashTx tx fRecursive p = some q) : Reachable q
  | removeConflicts {p q : CTxMemPool} {tx : CTransaction} (hp : Reachable p) (htx : tx ∈ U)
      (h : CTxMemPool.removeConflicts hashTx tx p = some q) : Reachable q
  | clear {p : CTxMemPool} (hp : Reachable p) : Reachable p.clear

structure Inv (p : CTxMemPool) : Prop where
  exact : Exact hashTx p
  inside : ∀ h t, p.mapTx.lookup h = some t → t ∈ U

variable {hashTx U}

variable {p : CTxMemPool}

theorem child_spends (hp : Inv hashTx U p) {a b : Uint256} (h : Child p a b) :
    ∃ t u, p.mapTx.lookup a = some t ∧ p.mapTx.lookup b = some u ∧ Spends hashTx U t u := by
  obtain ⟨t,u,i,ht,hu,hi,ho⟩ := h
  refine ⟨t,u,ht,hu,hp.inside a t ht,hp.inside b u hu,i,hi,?_⟩
  rw [hp.exact.keyed a t ht]
  exact ho

theorem descendant_spends (hp : Inv hashTx U p) {a b : Uint256} (h : TransGen (Child p) a b) :
    ∃ t u, p.mapTx.lookup a = some t ∧ p.mapTx.lookup b = some u ∧
      TransGen (Spends hashTx U) t u := by
  induction h with
  | single hab =>
    obtain ⟨t,u,ht,hu,hs⟩ := child_spends hp hab
    exact ⟨t,u,ht,hu,TransGen.single hs⟩
  | tail _ hbc ih =>
    obtain ⟨t,u,ht,hu,hs⟩ := ih
    obtain ⟨u',v,hu',hv,hs'⟩ := child_spends hp hbc
    have : u' = u := Option.some.inj (hu'.symm.trans hu)
    exact ⟨t,v,ht,hv,hs.tail (this ▸ hs')⟩

theorem acyclic_child (hacyc : Acyclic (Spends hashTx U)) (hp : Inv hashTx U p) :
    Acyclic (Child p) := by
  intro a h
  obtain ⟨t,u,ht,hu,hs⟩ := descendant_spends hp h
  have : u = t := Option.some.inj (hu.symm.trans ht)
  rw [this] at hs
  exact hacyc t hs

variable {tx : CTransaction}

theorem lookup_own (hinj : Set.InjOn hashTx U) (hp : Inv hashTx U p) {t : CTransaction}
    (htx : tx ∈ U) (h : p.mapTx.lookup (hashTx tx) = some t) : t = tx :=
  hinj (hp.inside _ t h) htx (hp.exact.keyed _ t h)

theorem inv_without {q : CTxMemPool} {s : Set Uint256} (hp : Inv hashTx U p)
    (hr : Removes hashTx p s q) : Inv hashTx U q where
  exact := hr.exact
  inside := fun h t ht => hp.inside h t ((without_some hr.without).mp ht).1

theorem remove_spec (hinj : Set.InjOn hashTx U) (hacyc : Acyclic (Spends hashTx U))
    (hp : Inv hashTx U p) (htx : tx ∈ U) :
    ∃ q, (∀ fuel, p.size < fuel → CTxMemPool.removeFuel hashTx fuel tx true p = some q) ∧
      (p.mapTx.lookup (hashTx tx) = none → q = p) ∧
      (p.mapTx.lookup (hashTx tx) ≠ none → Removes hashTx p (below (Child p) (hashTx tx)) q) := by
  cases hl : p.mapTx.lookup (hashTx tx) with
  | none =>
    refine ⟨p,fun fuel hf => ?_,fun _ => rfl,fun h => absurd rfl h⟩
    obtain ⟨n,rfl⟩ : ∃ n, fuel = n+1 := ⟨fuel-1,by omega⟩
    exact remove_absent true hl n
  | some t =>
    have ht := lookup_own hinj hp htx hl
    rw [ht] at hl
    have hm := (mem_iff_lookup p.mapTx (hashTx tx)).mpr ⟨tx,hl⟩
    obtain ⟨q,hq,hr⟩ := remove_fuel p (hashTx tx) tx hp.exact (acyclic_child hacyc hp) hl
      (below_size hm)
    exact ⟨q,fun fuel hf => remove_fuel_le (by omega) hq,by simp,fun _ => hr⟩

theorem remove_conflicts_spec (hacyc : Acyclic (Spends hashTx U)) (hp : Inv hashTx U p)
    (tx : CTransaction) :
    ∃ q, CTxMemPool.removeConflicts hashTx tx p = some q ∧
      Removes hashTx p (spending p tx.prevouts (fun u => u = tx)) q :=
  remove_conflicts_at tx tx.prevouts p hp.exact (acyclic_child hacyc hp)

theorem inv_remove (hinj : Set.InjOn hashTx U) (hacyc : Acyclic (Spends hashTx U)) {q : CTxMemPool}
    (hp : Inv hashTx U p) (htx : tx ∈ U) {b : Bool} (h : CTxMemPool.remove hashTx tx b p = some q) :
    Inv hashTx U q := by
  cases hl : p.mapTx.lookup (hashTx tx) with
  | none =>
    rw [CTxMemPool.remove, remove_absent b hl] at h
    exact Option.some.inj h ▸ hp
  | some t =>
    rw [lookup_own hinj hp htx hl] at hl
    cases b with
    | false =>
      rw [remove_alone hl] at h
      rw [← Option.some.inj h]
      exact inv_without hp ⟨exact_drop hp.exact hl,without_drop p _ tx⟩
    | true =>
      obtain ⟨r,hr,-,hx⟩ := remove_spec hinj hacyc hp htx
      have hrq : r = q := Option.some.inj ((hr (p.size+1) (Nat.lt_succ_self _)).symm.trans h)
      exact hrq ▸ inv_without hp (hx (by simp [hl]))

theorem inv_add (hdist : ∀ t ∈ U, t.prevouts.Nodup) (hp : Inv hashTx U p) (htx : tx ∈ U)
    (hnew : p.mapTx.lookup (hashTx tx) = none)
    (hfree : ∀ o ∈ tx.prevouts, p.mapNextTx.lookup o = none) :
    Inv hashTx U (p.addUnchecked (hashTx tx) tx) where
  exact := exact_add hashTx hp.exact (hdist tx htx) hnew hfree
  inside := by
    intro h t ht
    simp only [CTxMemPool.addUnchecked, lookup_insert_if] at ht
    split_ifs at ht
    · exact Option.some.inj ht ▸ htx
    · exact hp.inside h t ht

theorem inv_reachable (hinj : Set.InjOn hashTx U) (hdist : ∀ t ∈ U, t.prevouts.Nodup)
    (hacyc : Acyclic (Spends hashTx U)) (h : Reachable hashTx U p) : Inv hashTx U p := by
  induction h with
  | empty => exact ⟨exact_empty hashTx,by simp [CTxMemPool.empty]⟩
  | addUnchecked _ htx hnew hfree ih => exact inv_add hdist ih htx hnew hfree
  | remove _ htx h ih => exact inv_remove hinj hacyc ih htx h
  | removeConflicts _ _ h ih =>
    obtain ⟨r,hr,hx⟩ := remove_conflicts_spec hacyc ih _
    exact Option.some.inj (hr.symm.trans h) ▸ inv_without ih hx
  | clear _ _ => exact ⟨exact_clear hashTx _,by simp [CTxMemPool.clear]⟩

/-- In every reachable pool `mapNextTx` is the spend index of `mapTx`, a recursive
removal ends with exactly the descendants gone, and `removeConflicts` removes
exactly the other spenders of the inputs with their descendants. -/
theorem reachable_pool (hinj : Set.InjOn hashTx U) (hdist : ∀ t ∈ U, t.prevouts.Nodup)
    (hacyc : Acyclic (Spends hashTx U)) (p : CTxMemPool) (h : Reachable hashTx U p) :
    Exact hashTx p ∧
    (∀ tx ∈ U, ∃ q,
      (∀ fuel, p.size < fuel → CTxMemPool.removeFuel hashTx fuel tx true p = some q) ∧
      CTxMemPool.remove hashTx tx true p = some q ∧
      (p.mapTx.lookup (hashTx tx) = none → q = p) ∧
      (p.mapTx.lookup (hashTx tx) ≠ none → Without p (below (Child p) (hashTx tx)) q)) ∧
    (∀ tx ∈ U, ∃ q, CTxMemPool.removeConflicts hashTx tx p = some q ∧
      Without p {b | ∃ c u, p.mapTx.lookup c = some u ∧ u ≠ tx ∧
        (∃ o ∈ tx.prevouts, o ∈ u.prevouts) ∧ b ∈ below (Child p) c} q) := by
  have hp := inv_reachable hinj hdist hacyc h
  refine ⟨hp.exact,fun tx htx => ?_,fun tx _ => ?_⟩
  · obtain ⟨q,hq,h0,h1⟩ := remove_spec hinj hacyc hp htx
    exact ⟨q,hq,hq _ (Nat.lt_succ_self _),h0,fun hn => (h1 hn).without⟩
  · obtain ⟨q,hq,hr⟩ := remove_conflicts_spec hacyc hp tx
    refine ⟨q,hq,?_⟩
    convert hr.without using 1
    ext b
    constructor
    · rintro ⟨c,u,hc,hu,⟨o,ho,hou⟩,hb⟩
      exact ⟨c,u,o,hc,ho,hou,hu,hb⟩
    · rintro ⟨c,u,o,hc,ho,hou,hu,hb⟩
      exact ⟨c,u,hc,hu,⟨o,ho,hou⟩,hb⟩

def stampHash (tx : CTransaction) : Uint256 := BitVec.ofNat 256 tx.nTime

def payment : CTransaction := ⟨1,1,[⟨⟨7,0⟩,[],0⟩],[⟨5,[]⟩],0⟩

def spend : CTransaction := ⟨1,2,[⟨⟨1,0⟩,[],0⟩],[⟨5,[]⟩],0⟩

def pairPool : CTxMemPool :=
  (CTxMemPool.empty.addUnchecked (stampHash payment) payment).addUnchecked (stampHash spend) spend

theorem pair_reachable : Reachable stampHash {payment,spend} pairPool := by
  refine Reachable.addUnchecked (Reachable.addUnchecked Reachable.empty ?_ ?_ ?_) ?_ ?_ ?_
  · simp
  · rfl
  · decide
  · simp
  · rfl
  · decide

theorem pair_acyclic : Acyclic (Spends stampHash {payment,spend}) := by
  refine acyclic_of_rank CTransaction.nTime ?_
  rintro t u ⟨ht,hu,i,hi,ho⟩
  rcases ht with rfl | rfl <;> rcases hu with rfl | rfl
  · exact absurd ho (by simp [payment, stampHash, CTransaction.prevouts])
  · decide
  · exact absurd ho (by simp [payment, spend, stampHash, CTransaction.prevouts])
  · exact absurd ho (by simp [spend, stampHash, CTransaction.prevouts])

theorem pair_pool : Exact stampHash pairPool ∧
    ∃ q, CTxMemPool.remove stampHash payment true pairPool = some q ∧
      q.mapTx.lookup (stampHash payment) = none := by
  have hinj : Set.InjOn stampHash {payment,spend} := by
    intro t ht u hu h
    rcases ht with rfl | rfl <;> rcases hu with rfl | rfl
    · rfl
    · exact absurd h (by decide)
    · exact absurd h (by decide)
    · rfl
  have hdist : ∀ t ∈ ({payment,spend} : Set CTransaction), t.prevouts.Nodup := by
    rintro t (rfl | rfl) <;> decide
  obtain ⟨hx,hrem,-⟩ := reachable_pool hinj hdist pair_acyclic pairPool pair_reachable
  obtain ⟨q,-,hq,-,hw⟩ := hrem payment (Or.inl rfl)
  exact ⟨hx,q,hq,(hw (by decide)).gone _ (below_self _ _)⟩

end SwippCore.MemPoolRuns
