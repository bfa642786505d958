import SwippCore.AddrMan
import Mathlib.Algebra.Order.BigOperators.Group.Finset

/-!
# The tables of CAddrMan

The random vector and the map of addresses lead back to the entries. Exchanges in the
vector, new entries and removals keep this, and what the buckets depend on changes only
where an entry is made, loses a reference or is removed.
-/

set_option autoImplicit false

namespace SwippCore.AddrMan
open FinMap TwoWay

section Fields
variable {α : Type} (m : Dict ℕ CAddrInfo) (φ : CAddrInfo → α)

def field (nId : ℕ) : Option α := (m.lookup nId).map φ

variable (nId : ℕ)

theorem lookup_modify (f : CAddrInfo → CAddrInfo) (j : ℕ) :
    (modify m nId f).lookup j = (m.lookup j).map fun x => if j = nId then f x else x := by
  unfold modify
  cases hm : m.lookup nId with
  | none =>
    dsimp only
    by_cases hj : j = nId
    · rw [hj, hm]
      rfl
    · simp only [if_neg hj]
      exact Option.map_id'.symm
  | some info =>
    dsimp only
    rw [lookup_insert_if]
    by_cases hj : j = nId
    · rw [if_pos hj, hj, hm, Option.map_some, if_pos rfl]
    · simp only [if_neg hj]
      exact Option.map_id'.symm

theorem field_modify_keep (f : CAddrInfo → CAddrInfo) (hf : ∀ x, φ (f x) = φ x) :
    field (modify m nId f) φ = field m φ := by
  funext j
  unfold field
  rw [lookup_modify, Option.map_map]
  congr 1
  funext x
  dsimp only [Function.comp]
  split
  · exact hf x
  · rfl

theorem field_modify_set {nId : ℕ} (f : CAddrInfo → CAddrInfo) {x : CAddrInfo}
    (hx : m.lookup nId = some x) :
    field (modify m nId f) φ = Function.update (field m φ) nId (some (φ (f x))) := by
  funext j
  rw [Function.update_apply]
  unfold field
  rw [lookup_modify]
  by_cases hj : j = nId
  · rw [if_pos hj, hj, hx, Option.map_some, if_pos rfl]
    rfl
  · simp only [if_neg hj, Option.map_id']

theorem field_insert (x : CAddrInfo) :
    field (m.insert nId x) φ = Function.update (field m φ) nId (some (φ x)) := by
  funext j
  rw [Function.update_apply]
  unfold field
  rw [lookup_insert_if]
  split <;> rfl

theorem field_erase : field (m.erase nId) φ = Function.update (field m φ) nId none := by
  funext j
  rw [Function.update_apply]
  unfold field
  rw [lookup_erase_if]
  split <;> rfl

theorem field_some {nId : ℕ} {x : CAddrInfo} (hx : m.lookup nId = some x) :
    field m φ nId = some (φ x) := by
  unfold field
  rw [hx]
  rfl

theorem field_is_some : (field m φ nId).isSome = (m.lookup nId).isSome :=
  Option.isSome_map

end Fields

def core (x : CAddrInfo) : Core := ⟨x.toCService,x.fInTried,x.nRefCount⟩

/-- The times of an entry that `Check_` accepts. -/
structure Timely (x : CAddrInfo) : Prop where
  tried : 0 ≤ x.nLastTry.toInt
  success : 0 ≤ x.nLastSuccess.toInt
  reached : x.fInTried = true → x.nLastSuccess ≠ 0

structure Linked (s : CAddrMan) : Prop where
  random : Inverse (place s.vRandom) (field s.mapInfo CAddrInfo.nRandomPos)
  addr : Inverse (fun a => s.mapAddr.lookup a) (field s.mapInfo fun x => x.ip)
  ids : ∀ n, (s.mapInfo.lookup n).isSome = true → n < s.nIdCount

structure Inv (H : AddrHash) (T : Prop) (pending : Option ℕ) (s : CAddrMan) : Prop where
  linked : Linked s
  bucketed : Bucketed H s.nKey pending (field s.mapInfo core) s.vvTried s.vvNew s.nTried s.nNew
    s.vRandom.length
  times : T → ∀ n x, s.mapInfo.lookup n = some x → Timely x

section Entries
variable (H : AddrHash) {T : Prop} {pending : Option ℕ} (s : CAddrMan)

theorem linked_set_info (h : Linked s) (nId : ℕ) (f : CAddrInfo → CAddrInfo)
    (hpos : ∀ x, (f x).nRandomPos = x.nRandomPos) (hip : ∀ x, (f x).ip = x.ip) :
    Linked (s.setInfo nId f) where
  random := by
    unfold CAddrMan.setInfo
    dsimp only
    rw [field_modify_keep _ _ nId f hpos]
    exact h.random
  addr := by
    unfold CAddrMan.setInfo
    dsimp only
    rw [field_modify_keep _ _ nId f hip]
    exact h.addr
  ids n hn := by
    apply h.ids n
    unfold CAddrMan.setInfo at hn
    dsimp only at hn
    rw [lookup_modify, Option.isSome_map] at hn
    exact hn

theorem times_set_info (h : T → ∀ n x, s.mapInfo.lookup n = some x → Timely x) (nId : ℕ)
    (f : CAddrInfo → CAddrInfo)
    (hf : T → ∀ x, s.mapInfo.lookup nId = some x → Timely x → Timely (f x)) :
    T → ∀ n x, (s.setInfo nId f).mapInfo.lookup n = some x → Timely x := by
  intro ht n x hx
  unfold CAddrMan.setInfo at hx
  dsimp only at hx
  rw [lookup_modify, Option.map_eq_some_iff] at hx
  obtain ⟨y,hy,rfl⟩ := hx
  split
  · rename_i hn
    rw [hn] at hy
    exact hf ht y hy (h ht nId y hy)
  · exact h ht n y hy

theorem inv_set_info (h : Inv H T pending s) (nId : ℕ) (f : CAddrInfo → CAddrInfo)
    (hpos : ∀ x, (f x).nRandomPos = x.nRandomPos) (hcore : ∀ x, core (f x) = core x)
    (htimes : T → ∀ x, s.mapInfo.lookup nId = some x → Timely x → Timely (f x)) :
    Inv H T pending (s.setInfo nId f) where
  linked := linked_set_info s h.linked nId f hpos fun x => congrArg (fun c => c.addr.ip) (hcore x)
  bucketed := by
    have hb := h.bucketed
    rw [← field_modify_keep s.mapInfo core nId f hcore] at hb
    exact hb
  times := times_set_info s h.times nId f htimes

def unplaced (x : CAddrInfo) : CAddrInfo := { x with nRandomPos := 0 }

structure Moved (s s' : CAddrMan) : Prop where
  rest : s' = { s with mapInfo := s'.mapInfo, vRandom := s'.vRandom }
  length : s'.vRandom.length = s.vRandom.length
  same : ∀ n, field s'.mapInfo unplaced n = field s.mapInfo unplaced n

theorem Moved.field {α : Type} (s s' : CAddrMan) (h : Moved s s') (φ : CAddrInfo → α)
    (hφ : ∀ x, φ (unplaced x) = φ x) : AddrMan.field s'.mapInfo φ = AddrMan.field s.mapInfo φ := by
  funext n
  have hsame := congrArg (Option.map φ) (h.same n)
  unfold AddrMan.field at hsame ⊢
  rw [Option.map_map, Option.map_map] at hsame
  have hfun : φ ∘ unplaced = φ := funext hφ
  rw [hfun] at hsame
  exact hsame

theorem Moved.lookup (s s' : CAddrMan) (h : Moved s s') (n : ℕ) (x : CAddrInfo)
    (hx : s'.mapInfo.lookup n = some x) :
    ∃ y, s.mapInfo.lookup n = some y ∧ unplaced y = unplaced x := by
  have hsame := h.same n
  unfold AddrMan.field at hsame
  rw [hx, Option.map_some] at hsame
  exact Option.map_eq_some_iff.mp hsame.symm

theorem timely_unplaced {x y : CAddrInfo} (h : unplaced y = unplaced x) (hy : Timely y) :
    Timely x := by
  have htry : (unplaced y).nLastTry = (unplaced x).nLastTry := by rw [h]
  have hsuccess : (unplaced y).nLastSuccess = (unplaced x).nLastSuccess := by rw [h]
  have htried : (unplaced y).fInTried = (unplaced x).fInTried := by rw [h]
  exact {
    tried := le_of_le_of_eq hy.tried (congrArg BitVec.toInt htry)
    success := le_of_le_of_eq hy.success (congrArg BitVec.toInt hsuccess)
    reached := fun ht heq => hy.reached (htried.trans ht) (hsuccess.trans heq) }

theorem inv_moved {s' : CAddrMan} (h : Inv H T pending s) (hl : Linked s') (hm : Moved s s') :
    Inv H T pending s' where
  linked := hl
  bucketed := by
    rw [hm.field s s' core fun _ => rfl, hm.length, hm.rest]
    exact h.bucketed
  times ht n x hx := by
    obtain ⟨y,hy,heq⟩ := hm.lookup s s' n x hx
    exact timely_unplaced heq (h.times ht n y hy)

def exchanged (p q n k : ℕ) : CAddrMan :=
  { s with
    mapInfo := modify (modify s.mapInfo n fun x => { x with nRandomPos := (q : ℤ) }) k
      fun x => { x with nRandomPos := (p : ℤ) }
    vRandom := (s.vRandom.set p k).set q n }

theorem moved_exchanged (p q n k : ℕ) : Moved s (exchanged s p q n k) where
  rest := rfl
  length := by
    unfold exchanged
    rw [List.length_set, List.length_set]
  same j := by
    have hk := field_modify_keep (modify s.mapInfo n fun x => { x with nRandomPos := (q : ℤ) }) unplaced
      k (fun x => { x with nRandomPos := (p : ℤ) }) fun _ => rfl
    have hn := field_modify_keep s.mapInfo unplaced n (fun x => { x with nRandomPos := (q : ℤ) })
      fun _ => rfl
    exact congrFun (hk.trans hn) j

theorem linked_exchanged (h : Linked s) {p q n k : ℕ} (hne : p ≠ q)
    (hn : place s.vRandom p = some n) (hk : place s.vRandom q = some k) :
    Linked (exchanged s p q n k) := by
  obtain ⟨x,hx,_⟩ := Option.map_eq_some_iff.mp ((h.random p n).mp hn)
  obtain ⟨y,hy,_⟩ := Option.map_eq_some_iff.mp ((h.random q k).mp hk)
  have hp := (place_some hn).2.1
  have hq := (place_some hk).2.1
  have hyk : ∃ y', (modify s.mapInfo n fun x => { x with nRandomPos := (q : ℤ) }).lookup k = some y' := by
    rw [lookup_modify, hy]
    exact ⟨_,rfl⟩
  obtain ⟨y',hy'⟩ := hyk
  have hm := moved_exchanged s p q n k
  constructor
  · have hswap := inverse_swap _ _ h.random (by omega) hn hk
    unfold exchanged
    dsimp only
    rw [place_set n (by rw [List.length_set]; omega), place_set k (by omega),
      field_modify_set _ _ _ hy', field_modify_set _ _ _ hx]
    exact hswap
  · rw [hm.field s _ (fun x => x.ip) fun _ => rfl]
    exact h.addr
  · intro j hj
    rw [← field_is_some _ unplaced, hm.same j, field_is_some] at hj
    exact h.ids j hj

theorem swap_random_some (h : Linked s) (p q : ℕ) (hp : p < s.vRandom.length)
    (hq : q < s.vRandom.length) :
    ∃ s', swapRandom p q s = some s' ∧ Linked s' ∧ Moved s s' ∧ s'.vRandom[q]? = s.vRandom[p]? := by
  by_cases heq : p = q
  · refine ⟨s,by unfold swapRandom; rw [if_pos heq],h,⟨rfl,rfl,fun _ => rfl⟩,by rw [heq]⟩
  · have hnp : place s.vRandom p = some s.vRandom[p] := by
      rw [place_natCast]
      exact List.getElem?_eq_getElem hp
    have hnq : place s.vRandom q = some s.vRandom[q] := by
      rw [place_natCast]
      exact List.getElem?_eq_getElem hq
    generalize hn : s.vRandom[p] = n at hnp
    generalize hk : s.vRandom[q] = k at hnq
    obtain ⟨x,hx,hxpos⟩ := Option.map_eq_some_iff.mp ((h.random p n).mp hnp)
    obtain ⟨y,hy,hypos⟩ := Option.map_eq_some_iff.mp ((h.random q k).mp hnq)
    have hlx : (s.mapInfo.lookup n).isSome = true := by rw [hx]; rfl
    have hly : (s.mapInfo.lookup k).isSome = true := by rw [hy]; rfl
    refine ⟨exchanged s p q n k,?_,?_,?_,?_⟩
    · unfold swapRandom
      rw [if_neg heq, List.getElem?_eq_getElem hp, List.getElem?_eq_getElem hq, hn, hk]
      dsimp only
      rw [hlx, hly]
      rfl
    · exact linked_exchanged s h heq hnp hnq
    · exact moved_exchanged s p q n k
    · unfold exchanged
      dsimp only
      rw [List.getElem?_set_self (by rw [List.length_set]; exact hq), List.getElem?_eq_getElem hp, hn]

theorem mem_random (h : Inv H T pending s) (n : ℕ) :
    n ∈ s.vRandom ↔ (s.mapInfo.lookup n).isSome = true := by
  rw [mem_of_inverse h.linked.random, field_is_some]

theorem random_cases (h : Inv H T pending s) {n : ℕ} (hn : n ∈ s.vRandom) :
    (∃ b, n ∈ s.vvTried b) ∨ (∃ b, n ∈ s.vvNew b) ∨ pending = some n := by
  rw [mem_random H s h] at hn
  obtain ⟨x,hx⟩ := Option.isSome_iff_exists.mp hn
  have hcore := field_some s.mapInfo core hx
  rcases h.bucketed.kind n _ hcore with ⟨ht,_⟩ | ⟨_,hlow,_⟩
  · exact Or.inl ⟨_,(h.bucketed.tried _ n).mpr ⟨_,hcore,ht,rfl⟩⟩
  · right
    have hrefs := h.bucketed.refs n _ hcore
    by_cases hp : pending = some n
    · exact Or.inr hp
    · left
      rw [if_neg hp] at hrefs
      by_contra hnone
      have hzero : refs s.vvNew n = 0 := (Buckets.holders_eq_zero _ n).mpr fun b hb => hnone ⟨b,hb⟩
      omega

theorem length_random (h : Inv H T pending s) : s.vRandom.length ≤ 64*64+256*64+1 := by
  have hsub : s.vRandom.toFinset ⊆ (Finset.univ.biUnion fun b => (s.vvTried b).toFinset) ∪
      Finset.univ.biUnion s.vvNew ∪ pending.toFinset := by
    intro n hn
    have hcases := random_cases H s h (List.mem_toFinset.mp hn)
    rw [Finset.mem_union, Finset.mem_union, Finset.mem_biUnion, Finset.mem_biUnion, or_assoc]
    refine hcases.imp ?_ (Or.imp ?_ ?_)
    · exact fun ⟨b,hb⟩ => ⟨b,Finset.mem_univ b,List.mem_toFinset.mpr hb⟩
    · exact fun ⟨b,hb⟩ => ⟨b,Finset.mem_univ b,hb⟩
    · exact fun hp => Option.mem_toFinset.mpr hp
  have htried := Finset.card_biUnion_le_card_mul Finset.univ (fun b => (s.vvTried b).toFinset)
    triedBucketSize fun b _ => le_trans (List.toFinset_card_le _) (h.bucketed.triedSize b)
  have hnew := Finset.card_biUnion_le_card_mul Finset.univ s.vvNew newBucketSize
    fun b _ => h.bucketed.newSize b
  have hpending : pending.toFinset.card ≤ 1 := by
    cases pending with
    | none => exact Nat.zero_le 1
    | some n => exact le_refl 1
  have hcard := Finset.card_le_card hsub
  rw [List.toFinset_card_of_nodup (nodup_of_inverse h.linked.random)] at hcard
  have hunion := Finset.card_union_le ((Finset.univ.biUnion fun b => (s.vvTried b).toFinset) ∪
    Finset.univ.biUnion s.vvNew) pending.toFinset
  have hboth := Finset.card_union_le (Finset.univ.biUnion fun b => (s.vvTried b).toFinset)
    (Finset.univ.biUnion s.vvNew)
  rw [Finset.card_univ, Fintype.card_fin] at htried hnew
  have htried' : (Finset.univ.biUnion fun b => (s.vvTried b).toFinset).card ≤ 64*64 := htried
  have hnew' : (Finset.univ.biUnion s.vvNew).card ≤ 256*64 := hnew
  omega

theorem unsigned_of_small {n : ℤ} (h0 : 0 ≤ n) (hlt : n < 2^32) : unsigned n = n.toNat := by
  unfold unsigned
  rw [Int.emod_eq_of_lt h0 hlt]

end Entries

section Removal
variable (H : AddrHash) (T : Prop) (pending : Option ℕ) (s : CAddrMan)

def removed (n : ℕ) (ip : CNetAddr) : CAddrMan :=
  { s with
    vRandom := s.vRandom.dropLast
    mapAddr := s.mapAddr.erase ip
    mapInfo := s.mapInfo.erase n
    nNew := s.nNew-1 }

section
variable (h : Linked s) {n : ℕ} {x : CAddrInfo} (hx : s.mapInfo.lookup n = some x)
include h hx

theorem linked_removed
    (hlast : s.vRandom[s.vRandom.length-1]? = some n) : Linked (removed s n x.ip) := by
  have hlen := (List.getElem?_eq_some_iff.mp hlast).1
  have hplace : place s.vRandom ((s.vRandom.length : ℤ)-1) = some n := by
    have hcast : ((s.vRandom.length : ℤ)-1) = ((s.vRandom.length-1 : ℕ) : ℤ) := by omega
    rw [hcast, place_natCast]
    exact hlast
  have hip := field_some s.mapInfo (fun y => y.ip) hx
  constructor
  · unfold removed
    dsimp only
    rw [place_drop_last, field_erase]
    exact inverse_remove _ _ h.random hplace
  · have hremove := inverse_remove _ _ h.addr ((h.addr x.ip n).mpr hip)
    unfold removed
    dsimp only
    rw [field_erase]
    have hfun : (fun a => (s.mapAddr.erase x.ip).lookup a) =
        Function.update (fun a => s.mapAddr.lookup a) x.ip none := by
      funext a
      rw [Function.update_apply, lookup_erase_if]
    rw [hfun]
    exact hremove
  · intro k hk
    apply h.ids k
    unfold removed at hk
    dsimp only at hk
    rw [lookup_erase_if] at hk
    split at hk
    · cases hk
    · exact hk

theorem placed_removed
    (hlen : s.vRandom.length < 2^32) :
    ∃ s', (swapRandom (unsigned x.nRandomPos) (unsigned ((s.vRandom.length : ℤ)-1)) s).map
        (fun s => removed s n x.ip) = some (removed s' n x.ip) ∧ Moved s s' ∧
      Linked (removed s' n x.ip) := by
  obtain ⟨h0,hlt,hget⟩ := place_some ((h.random x.nRandomPos n).mpr (field_some _ _ hx))
  have hpos : unsigned x.nRandomPos = x.nRandomPos.toNat := unsigned_of_small h0 (by omega)
  have hend : unsigned ((s.vRandom.length : ℤ)-1) = s.vRandom.length-1 := by
    rw [unsigned_of_small (by omega) (by omega)]
    omega
  obtain ⟨s',hs',hl,hm,hget'⟩ := swap_random_some s h x.nRandomPos.toNat (s.vRandom.length-1)
    (by omega) (by omega)
  have hlast : s'.vRandom[s'.vRandom.length-1]? = some n := by
    rw [hm.length, hget']
    exact hget
  obtain ⟨y,hy,hxy⟩ : ∃ y, s'.mapInfo.lookup n = some y ∧ y.ip = x.ip := by
    have hip := congrFun (hm.field _ _ (fun z => z.ip) fun _ => rfl) n
    rw [field_some _ _ hx] at hip
    exact Option.map_eq_some_iff.mp hip
  refine ⟨s',by rw [hpos, hend, hs']; rfl,hm,?_⟩
  have hremoved := linked_removed s' hl hy hlast
  rw [hxy] at hremoved
  exact hremoved

end

def released (n : ℕ) : CAddrMan := s.setInfo n (fun y => { y with nRefCount := y.nRefCount-1 })

theorem released_rest (n : ℕ) : released s n = { s with mapInfo := (released s n).mapInfo } := rfl

theorem released_core {n : ℕ} {x : CAddrInfo} (hx : s.mapInfo.lookup n = some x) :
    field (released s n).mapInfo core =
      Function.update (field s.mapInfo core) n (some ⟨x.toCService,x.fInTried,x.nRefCount-1⟩) :=
  field_modify_set s.mapInfo core _ hx

theorem released_times (h : T → ∀ k y, s.mapInfo.lookup k = some y → Timely y) (n : ℕ) :
    T → ∀ k y, (released s n).mapInfo.lookup k = some y → Timely y :=
  times_set_info s h n _ fun _ _ _ hy => ⟨hy.tried,hy.success,hy.reached⟩

theorem drop_reference_eq {n : ℕ} {x : CAddrInfo} (hx : s.mapInfo.lookup n = some x) :
    dropReference n s = if x.nRefCount-1 = 0 then
      (swapRandom (unsigned x.nRandomPos) (unsigned (((released s n).vRandom.length : ℤ)-1))
        (released s n)).map fun s => removed s n x.ip else some (released s n) := by
  unfold dropReference removed released
  rw [hx]

structure Dropped (b : Fin newBucketCount) (n : ℕ) (s' : CAddrMan) : Prop where
  key : s'.nKey = s.nKey
  buckets : s'.vvNew = Function.update s.vvNew b ((s.vvNew b).erase n)
  others : ∀ k, k ≠ n → field s'.mapInfo core k = field s.mapInfo core k

section Drop
variable {H} {T} {pending} {s} (h : Inv H T pending s) {b : Fin newBucketCount} {n : ℕ}
  (hn : n ∈ s.vvNew b) (hp : pending ≠ some n) {x : CAddrInfo}
  (hx : s.mapInfo.lookup n = some x)
include h hn hp hx

/-- An entry that other buckets refer to stays. -/
theorem released_dropped (hlast : x.nRefCount-1 ≠ 0) :
    Inv H T pending (eraseNew b n (released s n)) ∧
      Dropped s b n (eraseNew b n (released s n)) := by
  have hcore := field_some s.mapInfo core hx
  have hl := linked_set_info s h.linked n (fun y => { y with nRefCount := y.nRefCount-1 })
    (fun _ => rfl) fun _ => rfl
  have hb := Bucketed.forget H s.nKey pending _ _ _ _ _ _ h.bucketed hcore hp hn hlast
  refine ⟨⟨⟨hl.random,hl.addr,hl.ids⟩,?_,released_times T s h.times n⟩,rfl,rfl,?_⟩
  · unfold eraseNew
    rw [released_core s hx, released_rest]
    exact hb
  · intro k hk
    change field (released s n).mapInfo core k = _
    rw [released_core s hx, Function.update_of_ne hk]

/-- An entry without another reference goes, once it stands last in `vRandom`. -/
theorem removed_dropped (hlast : x.nRefCount-1 = 0) {s' : CAddrMan}
    (hm : Moved (released s n) s') (hl : Linked (removed s' n x.ip)) :
    Inv H T pending (eraseNew b n (removed s' n x.ip)) ∧
      Dropped s b n (eraseNew b n (removed s' n x.ip)) := by
  have hcore := field_some s.mapInfo core hx
  have hgone : field (s'.mapInfo.erase n) core = Function.update (field s.mapInfo core) n none := by
    rw [field_erase, hm.field _ _ core fun _ => rfl, released_core s hx, Function.update_idem]
  have hnew : x.fInTried = false := by
    rcases h.bucketed.kind n _ hcore with ⟨_,hzero⟩ | ⟨hf,_⟩
    · have hzero' : x.nRefCount = 0 := hzero
      omega
    · exact hf
  have hb := Bucketed.remove H s.nKey pending _ _ _ _ _ _ h.bucketed n _ hcore hnew
  rw [Bucketed.erase_last H s.nKey pending _ _ _ _ _ _ h.bucketed hcore hp hn hlast] at hb
  have hin := (mem_random H s h n).mpr (by rw [hx]; rfl)
  have hlength : ((s'.vRandom.dropLast.length : ℕ) : ℤ) = s.vRandom.length-1 := by
    have hpos := List.length_pos_of_mem hin
    rw [List.length_dropLast, hm.length, released_rest]
    dsimp only
    omega
  refine ⟨⟨⟨hl.random,hl.addr,hl.ids⟩,?_,?_⟩,?_,?_,?_⟩
  · unfold eraseNew removed
    dsimp only
    rw [hgone, hlength, hm.rest, released_rest]
    exact hb
  · intro ht k z hz
    unfold eraseNew removed at hz
    dsimp only at hz
    rw [lookup_erase_if] at hz
    split at hz
    · cases hz
    · obtain ⟨w,hw,heq⟩ := hm.lookup _ _ k z hz
      exact timely_unplaced heq (released_times T s h.times n ht k w hw)
  · unfold eraseNew removed
    rw [hm.rest, released_rest]
  · unfold eraseNew removed
    rw [hm.rest, released_rest]
  · intro k hk
    change field (s'.mapInfo.erase n) core k = _
    rw [hgone, Function.update_of_ne hk]

end Drop

theorem drop_reference_some (h : Inv H T pending s) {b : Fin newBucketCount} {n : ℕ}
    (hn : n ∈ s.vvNew b) (hp : pending ≠ some n) :
    ∃ s', (dropReference n s).map (eraseNew b n) = some s' ∧ Inv H T pending s' ∧ Dropped s b n s' := by
  obtain ⟨x,hx⟩ := Option.isSome_iff_exists.mp ((field_is_some _ _ n).symm.trans
    (h.bucketed.members b n hn))
  rw [drop_reference_eq s hx]
  by_cases hlast : x.nRefCount-1 = 0
  · have hlen := length_random H s h
    have hx' : (released s n).mapInfo.lookup n = some { x with nRefCount := x.nRefCount-1 } := by
      unfold released CAddrMan.setInfo
      dsimp only
      rw [lookup_modify, hx, Option.map_some, if_pos rfl]
    obtain ⟨s',hs',hm,hl⟩ := placed_removed (released s n)
      (linked_set_info s h.linked n _ (fun _ => rfl) fun _ => rfl) hx'
      (by rw [released_rest]; dsimp only; omega)
    exact ⟨eraseNew b n (removed s' n x.ip),by rw [if_pos hlast, hs']; rfl,
      removed_dropped h hn hp hx hlast hm hl⟩
  · exact ⟨eraseNew b n (released s n),by rw [if_neg hlast]; rfl,
      released_dropped h hn hp hx hlast⟩

end Removal

end SwippCore.AddrMan
