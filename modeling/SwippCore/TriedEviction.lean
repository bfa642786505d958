import SwippCore.AddrManCheck
import SwippCore.Lib.Rounds

/-!
# The entry that leaves a full tried bucket

Four entries of the bucket are drawn to its front, and the one that succeeded longest
ago among them is to make room. The position that is kept with it is the one it was
drawn from, where the exchange has put another entry.
-/

set_option autoImplicit false

namespace SwippCore.TriedEviction
open AddrMan FinMap Drawing

section Inspection
variable (m : Dict ℕ CAddrInfo) (rand : ℕ → ℕ)

def lastSuccess (n : ℕ) : ℤ := ((m.lookup n).map fun x => x.nLastSuccess.toInt).getD 0

def drawPos (size i : ℕ) : ℕ := getRandInt rand i (size-i)+i

/-- The entries that `SelectTried` inspects, in the order of its rounds. -/
def inspected (vTried : List ℕ) : List ℕ :=
  drawn (drawPos rand vTried.length) triedEntriesInspectOnEvict 0 vTried

theorem draw_pos_ge (size i : ℕ) : i ≤ drawPos rand size i := Nat.le_add_left i _

theorem draw_pos_lt (size i : ℕ) (h : i < size) : drawPos rand size i < size := by
  have hlt : getRandInt rand i (size-i) < size-i := get_rand_int_lt rand i (size-i) (by omega)
  unfold drawPos
  omega

theorem inspect_tried_eq (k i : ℕ) (vTried : List ℕ) (best : Option (ℕ × ℕ))
    (hlen : i+k ≤ vTried.length) (hknown : ∀ n ∈ vTried, (m.lookup n).isSome = true)
    (hbest : ∀ b, best = some b → (m.lookup b.1).isSome = true) :
    inspectTried m rand k i vTried best = some (shuffled (drawPos rand vTried.length) k i vTried,
      keep (drawPos rand vTried.length) (lastSuccess m) i best
        (drawn (drawPos rand vTried.length) k i vTried)) := by
  induction k generalizing i vTried best with
  | zero => rw [inspectTried, shuffled, drawn, keep]
  | succ k ih =>
    have hi : i < vTried.length := by omega
    have hpos := draw_pos_lt rand vTried.length i hi
    have hex : exchange i (drawPos rand vTried.length i) vTried =
        (vTried.set (drawPos rand vTried.length i) vTried[i]).set i
          vTried[drawPos rand vTried.length i] := by
      unfold exchange
      rw [List.getElem?_eq_getElem hpos, List.getElem?_eq_getElem hi]
    have hlen' := exchange_length i (drawPos rand vTried.length i) vTried
    have hperm := exchange_perm i (drawPos rand vTried.length i) vTried
    have hmem := hknown _ (List.getElem_mem hpos)
    have hnext := fun b : ℕ × ℕ => fun hb : (m.lookup b.1).isSome = true =>
      ih (i+1) (exchange i (drawPos rand vTried.length i) vTried) (some b)
        (by rw [hlen']; omega) (fun n hn => hknown n (hperm.mem_iff.mp hn))
        (fun c hc => Option.some.inj hc ▸ hb)
    rw [hlen'] at hnext
    have hdraw : getRandInt rand i (vTried.length-i)+i = drawPos rand vTried.length i := rfl
    unfold inspectTried
    simp only [if_pos hi, hdraw, shuffled, drawn]
    rw [List.getElem?_eq_getElem hpos, List.getElem?_eq_getElem hi]
    dsimp only
    rw [← hex, Option.toList_some, List.singleton_append]
    cases best with
    | none =>
      rw [keep]
      exact hnext _ hmem
    | some b =>
      obtain ⟨x,hx⟩ := Option.isSome_iff_exists.mp hmem
      obtain ⟨y,hy⟩ := Option.isSome_iff_exists.mp (hbest b rfl)
      have hxl : lastSuccess m vTried[drawPos rand vTried.length i] = x.nLastSuccess.toInt := by
        rw [lastSuccess, hx]
        rfl
      have hyl : lastSuccess m b.1 = y.nLastSuccess.toInt := by
        rw [lastSuccess, hy]
        rfl
      rw [keep, hxl, hyl]
      dsimp only
      rw [hx, hy]
      dsimp only
      split
      · exact hnext _ hmem
      · exact hnext _ (hbest b rfl)

theorem inspected_length {vTried : List ℕ} (h : triedEntriesInspectOnEvict ≤ vTried.length) :
    (inspected rand vTried).length = triedEntriesInspectOnEvict :=
  drawn_length (drawPos rand vTried.length) triedEntriesInspectOnEvict 0 vTried
    fun j _ hj => draw_pos_lt rand vTried.length j (by omega)

theorem last_success_modify (nId : ℕ) (f : CAddrInfo → CAddrInfo)
    (hf : ∀ x, (f x).nLastSuccess = x.nLastSuccess) :
    lastSuccess (modify m nId f) = lastSuccess m := by
  have hfield := field_modify_keep m (fun x => x.nLastSuccess.toInt) nId f fun x => by
    rw [hf x]
  funext n
  exact congrArg (fun g => (g n).getD 0) hfield

end Inspection

structure Full (m : Dict ℕ CAddrInfo) (vTried : List ℕ) : Prop where
  length : vTried.length = triedBucketSize
  nodup : vTried.Nodup
  known : ∀ n ∈ vTried, (m.lookup n).isSome = true

section Selection
variable (m : Dict ℕ CAddrInfo) (rand : ℕ → ℕ) (vTried : List ℕ)

def Least (n : ℕ) : Prop :=
  n ∈ inspected rand vTried ∧ ∀ k ∈ inspected rand vTried, lastSuccess m n ≤ lastSuccess m k

def SelectsLeast : Prop :=
  ∃ l p n, selectTried m rand vTried = some (l,p) ∧ l.Perm vTried ∧ l[p]? = some n ∧
    Least m rand vTried n

/-- The first least entry is drawn from the place of a round whose entry succeeded at
the same time: its own round, or a later one. -/
def LeastStays : Prop :=
  ∀ b n, FirstLeast (lastSuccess m) (inspected rand vTried) b n →
    ∃ k, (inspected rand vTried)[drawPos rand vTried.length b]? = some k ∧
      lastSuccess m k = lastSuccess m n

variable {m vTried} (h : Full m vTried)
include h

theorem inspected_front {j : ℕ} (hj : j < triedEntriesInspectOnEvict) :
    (shuffled (drawPos rand vTried.length) triedEntriesInspectOnEvict 0 vTried)[j]? =
      (inspected rand vTried)[j]? := by
  have hsize : triedEntriesInspectOnEvict ≤ vTried.length := by rw [h.length]; decide
  have hfront := drawn_front (draw_pos_ge rand vTried.length) 0 vTried
    (fun j _ hj => draw_pos_lt rand vTried.length j (by omega)) j hj
  rwa [Nat.zero_add] at hfront

theorem select_tried_first : ∃ b n, FirstLeast (lastSuccess m) (inspected rand vTried) b n ∧
    selectTried m rand vTried =
      some (shuffled (drawPos rand vTried.length) triedEntriesInspectOnEvict 0 vTried,
        drawPos rand vTried.length b) := by
  have hsize : triedEntriesInspectOnEvict ≤ vTried.length := by rw [h.length]; decide
  have hne : inspected rand vTried ≠ [] := by
    intro hnil
    have hlen := inspected_length rand hsize
    rw [hnil] at hlen
    cases hlen
  obtain ⟨b,n,hb,hkeep⟩ := keep_none (drawPos rand vTried.length) (lastSuccess m)
    hne
  refine ⟨b,n,hb,?_⟩
  unfold selectTried
  rw [inspect_tried_eq m rand triedEntriesInspectOnEvict 0 vTried none (by omega) h.known
    fun b hb => by cases hb]
  change (Option.map (fun best : ℕ × ℕ => _) (keep _ _ 0 none (inspected rand vTried))) = _
  rw [hkeep]
  rfl

theorem inspected_at {p k : ℕ}
    (hp : (shuffled (drawPos rand vTried.length) triedEntriesInspectOnEvict 0 vTried)[p]? = some k) :
    k ∈ inspected rand vTried ↔ (inspected rand vTried)[p]? = some k := by
  refine ⟨?_,List.mem_of_getElem?⟩
  intro hk
  obtain ⟨j,hjk⟩ := List.mem_iff_getElem?.mp hk
  have hsize : triedEntriesInspectOnEvict ≤ vTried.length := by rw [h.length]; decide
  have hj : j < triedEntriesInspectOnEvict := by
    rw [← inspected_length rand hsize]
    exact (List.getElem?_eq_some_iff.mp hjk).1
  have hperm := shuffled_perm (drawPos rand vTried.length) triedEntriesInspectOnEvict 0 vTried
  have hnodup := hperm.nodup_iff.mpr h.nodup
  have hjl := inspected_front rand h hj
  rw [hjk] at hjl
  -- an entry stands at one place only
  obtain ⟨hpl,hpe⟩ := List.getElem?_eq_some_iff.mp hp
  obtain ⟨hjl,hje⟩ := List.getElem?_eq_some_iff.mp hjl
  have heq := (hnodup.getElem_inj_iff).mp (hpe.trans hje.symm)
  rwa [heq]

theorem selects_iff : SelectsLeast m rand vTried ↔ LeastStays m rand vTried := by
  obtain ⟨b,n,hb,hsel⟩ := select_tried_first rand h
  constructor
  · rintro ⟨l,p,k,hl,-,hk,hmem,hall⟩
    rw [hsel] at hl
    obtain ⟨rfl,rfl⟩ := Prod.mk.inj (Option.some.inj hl)
    intro c x hc
    obtain ⟨rfl,rfl⟩ := first_least_unique hb hc
    refine ⟨k,(inspected_at rand h hk).mp hmem,?_⟩
    have hle := hall n (List.mem_of_getElem? hb.1)
    have hge := hb.2.1 k hmem
    omega
  · intro hstays
    obtain ⟨k,hk,hlast⟩ := hstays b n hb
    have hmem := List.mem_of_getElem? hk
    have hsize : triedEntriesInspectOnEvict ≤ vTried.length := by rw [h.length]; decide
    have hpos : drawPos rand vTried.length b < triedEntriesInspectOnEvict := by
      rw [← inspected_length rand hsize]
      exact (List.getElem?_eq_some_iff.mp hk).1
    refine ⟨_,_,k,hsel,shuffled_perm _ _ _ _,(inspected_front rand h hpos).trans hk,hmem,?_⟩
    intro j hj
    rw [hlast]
    exact hb.2.1 j hj

end Selection

section Eviction
variable (H : AddrHash)

def EvictsLeast (s : CAddrMan) (rand : ℕ → ℕ) (b : Fin triedBucketCount) (nId : ℕ)
    (nOrigin : Fin newBucketCount) : Prop :=
  ∀ s', makeTried H nId nOrigin rand s = some s' → ∃ n, Least s.mapInfo rand (s.vvTried b) n ∧
    (s'.vvTried b).Perm (nId::(s.vvTried b).erase n) ∧ ∃ c, n ∈ s'.vvNew c

theorem place_tried_full (nId : ℕ) (info : CAddrInfo) (nOrigin : Fin newBucketCount)
    (rand : ℕ → ℕ) (s s' : CAddrMan) (l : List ℕ) (p n : ℕ)
    (hfull : (s.vvTried (getTriedBucket H s.nKey info.toCService)).length = triedBucketSize)
    (hsel : selectTried s.mapInfo rand (s.vvTried (getTriedBucket H s.nKey info.toCService)) =
      some (l,p)) (hn : l[p]? = some n) (h : placeTried H nId info nOrigin rand s = some s') :
    s'.vvTried (getTriedBucket H s.nKey info.toCService) = l.set p nId ∧ ∃ c, n ∈ s'.vvNew c := by
  unfold placeTried at h
  rw [if_neg (by omega)] at h
  dsimp only at h
  rw [hsel, Option.bind_some] at h
  simp only [hn] at h
  cases hold : s.mapInfo.lookup n with
  | none =>
    rw [hold] at h
    cases h
  | some infoOld =>
    rw [hold] at h
    obtain rfl := Option.some.inj h
    refine ⟨Function.update_self _ _ _,?_⟩
    let c := if (s.vvNew (getNewBucket H s.nKey infoOld.ip infoOld.source)).card < newBucketSize
      then getNewBucket H s.nKey infoOld.ip infoOld.source else nOrigin
    refine ⟨c,?_⟩
    have hnew : n ∈ Function.update s.vvNew c (insert n (s.vvNew c)) c := by
      rw [Function.update_self]
      exact Finset.mem_insert_self n _
    exact hnew

theorem set_perm {l xs : List ℕ} (p n k : ℕ) (hl : l.Perm xs) (hp : l[p]? = some n) :
    (l.set p k).Perm (k::xs.erase n) := by
  obtain ⟨hlt,hn⟩ := List.getElem?_eq_some_iff.mp hp
  have hset : (l.set p k).Perm (k::l.eraseIdx p) := List.set_perm_cons_eraseIdx hlt k
  have herase : (n::l.eraseIdx p).Perm l := hn ▸ List.getElem_cons_eraseIdx_perm hlt
  have hrest : (l.eraseIdx p).Perm (xs.erase n) := by
    have := (herase.trans hl).erase n
    rwa [List.erase_cons_head] at this
  exact hset.trans (hrest.cons k)

theorem evicts_of_stays {s : CAddrMan} {b : Fin triedBucketCount} {rand : ℕ → ℕ}
    (h : Full s.mapInfo (s.vvTried b)) (hstays : LeastStays s.mapInfo rand (s.vvTried b)) {nId : ℕ}
    {info : CAddrInfo} (nOrigin : Fin newBucketCount) (hinfo : s.mapInfo.lookup nId = some info)
    (hb : getTriedBucket H s.nKey info.toCService = b) : EvictsLeast H s rand b nId nOrigin := by
  intro s' hs'
  unfold makeTried at hs'
  rw [hinfo] at hs'
  dsimp only at hs'
  split_ifs at hs'
  set f : CAddrInfo → CAddrInfo := fun x => { x with nRefCount := info.nRefCount-refs s.vvNew nId }
  -- the entry has no reference from a new bucket any more, which changes no time
  have hlast : lastSuccess (modify s.mapInfo nId f) = lastSuccess s.mapInfo :=
    last_success_modify s.mapInfo nId f fun _ => rfl
  have hfull : Full (modify s.mapInfo nId f) (s.vvTried b) := by
    refine ⟨h.length,h.nodup,?_⟩
    intro n hn
    rw [lookup_modify, Option.isSome_map]
    exact h.known n hn
  have hsel : SelectsLeast (modify s.mapInfo nId f) rand (s.vvTried b) := by
    rw [selects_iff rand hfull, LeastStays, hlast]
    exact hstays
  obtain ⟨l,p,n,hl,hperm,hn,hleast⟩ := hsel
  rw [Least, hlast] at hleast
  subst hb
  obtain ⟨htried,hnew⟩ := place_tried_full H nId info nOrigin rand
    { s.setInfo nId f with vvNew := fun b => (s.vvNew b).erase nId, nNew := s.nNew-1 }
    s' l p n h.length hl hn hs'
  refine ⟨n,hleast,?_,hnew⟩
  change s'.vvTried (getTriedBucket H s.nKey info.toCService) = _ at htried
  rw [htried]
  exact set_perm p n nId hperm hn

/-- For every full bucket and all draws: a least inspected entry is selected, and evicted by
`MakeTried`, exactly when the place that the first one was drawn from has such an entry. -/
theorem evictions_iff (s : CAddrMan) (b : Fin triedBucketCount) (rand : ℕ → ℕ)
    (h : Full s.mapInfo (s.vvTried b)) :
    (SelectsLeast s.mapInfo rand (s.vvTried b) ∧
      ∀ nId info nOrigin, s.mapInfo.lookup nId = some info →
        getTriedBucket H s.nKey info.toCService = b → EvictsLeast H s rand b nId nOrigin) ↔
    LeastStays s.mapInfo rand (s.vvTried b) := by
  constructor
  · rintro ⟨hsel,-⟩
    exact (selects_iff rand h).mp hsel
  · intro hstays
    refine ⟨(selects_iff rand h).mpr hstays,?_⟩
    intro nId info nOrigin hinfo hb
    exact evicts_of_stays H h hstays nOrigin hinfo hb

end Eviction

section Samples

def sampleInfo (n : ℕ) : CAddrInfo :=
  { CAddrInfo.ofAddress ⟨⟨n,6661⟩,1,0,0⟩ 0 with nLastSuccess := n+1 }

def sampleBucket : List ℕ := List.range triedBucketSize

def sampleEntries : List (Sigma fun _ : ℕ => CAddrInfo) :=
  sampleBucket.map fun n => ⟨n,sampleInfo n⟩

theorem sample_keys : sampleEntries.keys = sampleBucket := by
  rw [sampleEntries, List.keys, List.map_map]
  exact List.map_id sampleBucket

def sampleState : CAddrMan :=
  { CAddrMan.new [] with
    mapInfo := ⟨sampleEntries,by rw [List.NodupKeys, sample_keys]; exact List.nodup_range⟩
    vvTried := fun _ => sampleBucket }

def firstBucket : Fin triedBucketCount := ⟨0,by decide⟩

theorem sample_full : Full sampleState.mapInfo (sampleState.vvTried firstBucket) := by
  refine ⟨List.length_range,List.nodup_range,?_⟩
  intro n hn
  rw [AList.lookup_isSome]
  change n ∈ sampleEntries.keys
  rw [sample_keys]
  exact hn

/-- Where every round draws the entry at its own place, the first one leaves. -/
theorem own_places_evict : SelectsLeast sampleState.mapInfo (fun _ => 0) (sampleState.vvTried firstBucket) ∧
    ∀ nId info nOrigin, sampleState.mapInfo.lookup nId = some info →
      getTriedBucket sampleHash sampleState.nKey info.toCService = firstBucket →
      EvictsLeast sampleHash sampleState (fun _ => 0) firstBucket nId nOrigin := by
  apply (evictions_iff sampleHash sampleState firstBucket (fun _ => 0) sample_full).mpr
  intro b n hb
  refine ⟨n,?_,rfl⟩
  have hpos : drawPos (fun _ => 0) (sampleState.vvTried firstBucket).length b = b := by
    simp [drawPos, getRandInt]
  rw [hpos]
  exact hb.1

/-- Every round draws the next entry: the first one drawn succeeded longest ago, and the
place returned is that of the second one. -/
theorem next_places_keep : ¬ ∀ (H : AddrHash) (s : CAddrMan) (b : Fin triedBucketCount)
    (rand : ℕ → ℕ), Full s.mapInfo (s.vvTried b) →
      SelectsLeast s.mapInfo rand (s.vvTried b) ∧
      ∀ nId info nOrigin, s.mapInfo.lookup nId = some info →
        getTriedBucket H s.nKey info.toCService = b → EvictsLeast H s rand b nId nOrigin := by
  intro h
  obtain ⟨⟨l,p,n,hsel,-,hn,hmem,hall⟩,-⟩ := h sampleHash sampleState firstBucket (fun _ => 1)
    sample_full
  have hin : inspected (fun _ => 1) (sampleState.vvTried firstBucket) = [1,2,3,4] := by decide +kernel
  have hrun : (selectTried sampleState.mapInfo (fun _ => 1) (sampleState.vvTried firstBucket)).map
      (fun r => r.1[r.2]?) = some (some 2) := by decide +kernel
  rw [hsel, Option.map_some, hn] at hrun
  obtain rfl := Option.some.inj (Option.some.inj hrun)
  have hle := hall 1 (by rw [hin]; decide)
  have h1 : lastSuccess sampleState.mapInfo 1 = 2 := by decide +kernel
  have h2 : lastSuccess sampleState.mapInfo 2 = 3 := by decide +kernel
  omega

end Samples

end SwippCore.TriedEviction
