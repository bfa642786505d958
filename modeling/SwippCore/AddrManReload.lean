import SwippCore.AddrManFile

/-!
# The address manager after a reload

A file is read back up to the ids of the entries.
-/

set_option autoImplicit false

namespace SwippCore.AddrMan
open FinMap PrefixCode Readers Unserialize

section Entries
variable (s : CAddrMan)

def newEntries : List (Sigma fun _ : ℕ => CAddrInfo) := (inOrder (fun a b => a ≤ b) s.mapInfo).filter isNew

def triedEntries : List (Sigma fun _ : ℕ => CAddrInfo) :=
  (inOrder (fun a b => a ≤ b) s.mapInfo).filter isTried

def written : List (Sigma fun _ : ℕ => CAddrInfo) := newEntries s++triedEntries s

def newId (n : ℕ) : ℕ := ((written s).map Sigma.fst).idxOf n

theorem kind_tried {x : CAddrInfo} (h : kindError x = none) (ht : x.fInTried = true) :
    x.nRefCount = 0 := by
  unfold kindError at h
  rw [if_pos ht] at h
  split at h
  · cases h
  · split at h
    · cases h
    · rename_i hzero
      exact not_not.mp hzero

theorem mem_new_entries (h : Checked s) (n : ℕ) (x : CAddrInfo) :
    ⟨n,x⟩ ∈ newEntries s ↔ s.mapInfo.lookup n = some x ∧ x.fInTried = false := by
  unfold newEntries isNew
  rw [List.mem_filter, mem_in_order, bne_iff_ne]
  apply and_congr_right
  intro hx
  cases hf : x.fInTried with
  | true =>
    have hzero := kind_tried (h.kind n x hx) hf
    exact ⟨fun hne => absurd hzero hne,fun hft => by cases hft⟩
  | false =>
    have hpos := (kind_positive (h.kind n x hx) hf).1
    exact ⟨fun _ => rfl,fun _ => by dsimp only; omega⟩

theorem mem_tried_entries (n : ℕ) (x : CAddrInfo) :
    ⟨n,x⟩ ∈ triedEntries s ↔ s.mapInfo.lookup n = some x ∧ x.fInTried = true := by
  unfold triedEntries isTried
  rw [List.mem_filter, mem_in_order]

theorem mem_written (h : Checked s) (n : ℕ) (x : CAddrInfo) :
    ⟨n,x⟩ ∈ written s ↔ s.mapInfo.lookup n = some x := by
  unfold written
  rw [List.mem_append, mem_new_entries s h, mem_tried_entries, ← and_or_left]
  exact and_iff_left (by cases x.fInTried <;> decide)

theorem filtered_nodup (p : (Sigma fun _ : ℕ => CAddrInfo) → Bool) :
    (((inOrder (fun a b => a ≤ b) s.mapInfo).filter p).map Sigma.fst).Nodup :=
  (in_order_nodup s.mapInfo).sublist (List.filter_sublist.map Sigma.fst)

theorem written_nodup (h : Checked s) : ((written s).map Sigma.fst).Nodup := by
  unfold written
  rw [List.map_append, List.nodup_append]
  refine ⟨filtered_nodup s isNew,filtered_nodup s isTried,?_⟩
  intro n hn m hm heq
  obtain ⟨⟨_,x⟩,hx,rfl⟩ := List.mem_map.mp hn
  obtain ⟨⟨_,y⟩,hy,rfl⟩ := List.mem_map.mp hm
  obtain ⟨hlx,hfx⟩ := (mem_new_entries s h _ x).mp hx
  obtain ⟨hly,hty⟩ := (mem_tried_entries s _ y).mp hy
  dsimp only at heq
  rw [← heq, hlx] at hly
  rw [← Option.some.inj hly, hfx] at hty
  cases hty

theorem filtered_count {p : (Sigma fun _ : ℕ => CAddrInfo) → Bool} {fTried : Bool}
    (hp : ∀ n x, ⟨n,x⟩ ∈ (inOrder (fun a b => a ≤ b) s.mapInfo).filter p ↔
      s.mapInfo.lookup n = some x ∧ x.fInTried = fTried) :
    ((inOrder (fun a b => a ≤ b) s.mapInfo).filter p).length = (idsOf s fTried).card := by
  rw [← List.length_map Sigma.fst, ← List.toFinset_card_of_nodup (filtered_nodup s p)]
  congr 1
  ext n
  rw [List.mem_toFinset, List.mem_map, mem_ids_of]
  constructor
  · rintro ⟨⟨_,x⟩,hx,rfl⟩
    exact ⟨x,(hp _ x).mp hx⟩
  · rintro ⟨x,hx⟩
    exact ⟨⟨n,x⟩,(hp n x).mpr hx,rfl⟩

theorem length_new_entries (h : Checked s) : ((newEntries s).length : ℤ) = s.nNew := by
  rw [← h.newCount]
  exact congrArg Nat.cast (filtered_count s (mem_new_entries s h))

theorem length_tried_entries (h : Checked s) : ((triedEntries s).length : ℤ) = s.nTried := by
  rw [← h.triedCount]
  exact congrArg Nat.cast (filtered_count s (mem_tried_entries s))

theorem written_at (h : Checked s) (i n : ℕ) (x : CAddrInfo) :
    (written s)[i]? = some ⟨n,x⟩ ↔ s.mapInfo.lookup n = some x ∧ newId s n = i := by
  have hmap : ∀ j : ℕ, ((written s).map Sigma.fst)[j]? = ((written s)[j]?).map Sigma.fst :=
    fun j => List.getElem?_map
  constructor
  · intro hi
    refine ⟨(mem_written s h n x).mp (List.mem_of_getElem? hi),?_⟩
    have hget := hmap i
    rw [hi, Option.map_some, List.getElem?_eq_some_iff] at hget
    obtain ⟨hlt,hget⟩ := hget
    dsimp only at hget
    unfold newId
    rw [← hget]
    exact (written_nodup s h).idxOf_getElem i hlt
  · rintro ⟨hx,rfl⟩
    have hmem := (mem_written s h n x).mpr hx
    have hget : ((written s).map Sigma.fst)[newId s n]? = some n :=
      List.getElem?_idxOf (List.mem_map.mpr ⟨_,hmem,rfl⟩)
    rw [hmap, Option.map_eq_some_iff] at hget
    obtain ⟨⟨m,y⟩,hy,rfl⟩ := hget
    have hly := (mem_written s h m y).mp (List.mem_of_getElem? hy)
    dsimp only at hx ⊢
    rw [hx] at hly
    rw [Option.some.inj hly]
    exact hy

theorem new_id_inj (h : Checked s) {n m : ℕ} {x : CAddrInfo} (hx : s.mapInfo.lookup n = some x)
    (heq : newId s n = newId s m) : n = m := by
  have hmem : n ∈ (written s).map Sigma.fst :=
    List.mem_map.mpr ⟨⟨n,x⟩,(mem_written s h n x).mpr hx,rfl⟩
  exact (List.idxOf_inj hmem).mp heq

end Entries

section Bytes
variable (s : CAddrMan)

def newBucket (b : Fin newBucketCount) : List ℕ := ((s.vvNew b).sort).map (newId s)

theorem write_bucket_eq (index : ℕ → ℕ) (vNew : List ℕ) :
    writeBucket index vNew = writeInt (vNew.map index).length++many (fun n : ℕ => writeInt n) (vNew.map index) := by
  unfold writeBucket
  rw [List.length_map, many_map (fun n : ℕ => writeInt n) index]

theorem mem_new_list_of {b : Fin newBucketCount} {n : ℕ} (hn : n ∈ s.vvNew b) : n ∈ newList s :=
  (mem_new_list s n).mpr ⟨b,hn⟩

theorem new_id_written (h : Checked s) {n : ℕ} (hn : n ∈ newList s) :
    ((numberNew s.nNew (inOrder (fun a b => a ≤ b) s.mapInfo) 0 ∅).2.lookup n).getD 0 = newId s n := by
  obtain ⟨x,hx,hf⟩ := (mem_ids_of s false n).mp (h.members n hn)
  obtain ⟨i,hi⟩ := List.mem_iff_getElem?.mp ((mem_new_entries s h n x).mpr ⟨hx,hf⟩)
  have hcount : (((0 : ℕ) : ℤ)+(newEntries s).length : ℤ) = s.nNew := by
    rw [length_new_entries s h, Nat.cast_zero, zero_add]
  obtain ⟨_,hids⟩ := number_new_eq 0 ∅ (in_order_nodup s.mapInfo) hcount
  have hwritten : (written s)[i]? = some ⟨n,x⟩ := by
    unfold written
    rw [List.getElem?_append_left (List.getElem?_eq_some_iff.mp hi).1, hi]
  have hid := hids i ⟨n,x⟩ hi
  dsimp only at hid
  rw [hid, Option.getD_some, zero_add, ((written_at s h i n x).mp hwritten).2]

theorem serialize_eq (h : Checked s) (nVersion : BitVec 32) : serialize nVersion s =
    word 1 0++(bytes s.nKey++(writeInt s.nNew++(writeInt s.nTried++(writeInt newBucketCount++
      (many (CAddrInfo.serialize nVersion) ((newEntries s).map Sigma.snd)++
        (many (CAddrInfo.serialize nVersion) ((triedEntries s).map Sigma.snd)++
          many (fun b => writeInt (newBucket s b).length++many (fun n : ℕ => writeInt n) (newBucket s b))
            (List.finRange newBucketCount))))))) := by
  have hnew : (((0 : ℕ) : ℤ)+(newEntries s).length : ℤ) = s.nNew := by
    rw [length_new_entries s h, Nat.cast_zero, zero_add]
  have htried : (((0 : ℕ) : ℤ)+(triedEntries s).length : ℤ) = s.nTried := by
    rw [length_tried_entries s h, Nat.cast_zero, zero_add]
  obtain ⟨hinfos,_⟩ := number_new_eq 0 ∅ (in_order_nodup s.mapInfo) hnew
  have htake := take_tried_eq 0 htried
  have hbuckets : (fun b => writeBucket (fun n =>
      ((numberNew s.nNew (inOrder (fun a b => a ≤ b) s.mapInfo) 0 ∅).2.lookup n).getD 0) ((s.vvNew b).sort)) =
      fun b => writeInt (newBucket s b).length++many (fun n : ℕ => writeInt n) (newBucket s b) := by
    funext b
    rw [write_bucket_eq]
    have hmap : ((s.vvNew b).sort).map (fun n =>
        ((numberNew s.nNew (inOrder (fun a b => a ≤ b) s.mapInfo) 0 ∅).2.lookup n).getD 0) = newBucket s b :=
      List.map_congr_left fun n hn =>
        new_id_written s h (mem_new_list_of s ((Finset.mem_sort (· ≤ ·)).mp hn))
    rw [hmap]
  unfold serialize
  dsimp only
  rw [hinfos, htake, hbuckets]
  rfl

end Bytes

section References
variable (s : CAddrMan)

def references : List (Fin newBucketCount × ℕ) := pairsOf (newBucket s) (List.finRange newBucketCount)

theorem references_ids : (references s).map Prod.snd = (newList s).map (newId s) := by
  unfold references pairsOf newList
  rw [List.map_flatMap, List.map_flatMap]
  congr 1
  funext b
  rw [List.map_map]
  exact List.map_id _

theorem mem_references (b : Fin newBucketCount) (k : ℕ) :
    (b,k) ∈ references s ↔ ∃ n ∈ s.vvNew b, newId s n = k := by
  unfold references pairsOf newBucket
  rw [List.mem_flatMap]
  constructor
  · rintro ⟨c,_,hc⟩
    obtain ⟨m,hm,heq⟩ := List.mem_map.mp hc
    obtain ⟨rfl,rfl⟩ := Prod.mk.inj heq
    obtain ⟨n,hn,hid⟩ := List.mem_map.mp hm
    exact ⟨n,(Finset.mem_sort (· ≤ ·)).mp hn,hid⟩
  · rintro ⟨n,hn,rfl⟩
    exact ⟨b,List.mem_finRange b,List.mem_map.mpr
      ⟨_,List.mem_map.mpr ⟨n,(Finset.mem_sort (· ≤ ·)).mpr hn,rfl⟩,rfl⟩⟩

theorem references_count (h : Checked s) {n : ℕ} {x : CAddrInfo} (hx : s.mapInfo.lookup n = some x) :
    (((references s).map Prod.snd).count (newId s n) : ℤ) = x.nRefCount := by
  have hsame : ((references s).map Prod.snd).count (newId s n) = (newList s).count n := by
    rw [references_ids, List.count, List.countP_map, List.count]
    apply List.countP_congr
    intro m _
    rw [Function.comp_apply, beq_iff_eq, beq_iff_eq]
    exact ⟨fun heq => (new_id_inj s h hx heq.symm).symm,fun heq => congrArg (newId s) heq⟩
  rw [hsame]
  cases hf : x.fInTried with
  | false => exact h.refs n x hx hf
  | true =>
    have hout : n ∉ newList s := by
      intro hmem
      obtain ⟨y,hy,hfy⟩ := (mem_ids_of s false n).mp (h.members n hmem)
      rw [hx] at hy
      rw [← Option.some.inj hy, hf] at hfy
      cases hfy
    rw [List.count_eq_zero_of_not_mem hout, kind_tried (h.kind n x hx) hf]
    rfl

end References

section Reloaded
variable (H : AddrHash) (s : CAddrMan)

def kept : List CAddrInfo := (written s).map fun e => restored e.2

def blank : CAddrMan := { CAddrMan.new s.nKey with nNew := s.nNew, nTried := s.nTried }

def appended : CAddrMan := appendAll (kept s) (blank s)

/-- The state that `Unserialize` makes of the file. -/
def reloaded : CAddrMan :=
  addPairs (references s) { appended s with
    vvTried := fun b => triedIn H s.nKey b (newEntries s).length ((triedEntries s).map Sigma.snd)
    nIdCount := (written s).length }

theorem holds_appended : Holds (kept s) (appended s) := by
  have hempty : Holds [] (blank s) :=
    ⟨rfl,fun _ => rfl,fun _ _ _ h => by cases h⟩
  have hall := holds_append_all [] (kept s) _ hempty
  rw [List.nil_append] at hall
  exact hall

theorem kept_at (h : Checked s) {n : ℕ} {x : CAddrInfo} (hx : s.mapInfo.lookup n = some x) :
    (kept s)[newId s n]? = some (restored x) := by
  unfold kept
  rw [List.getElem?_map, (written_at s h (newId s n) n x).mpr ⟨hx,rfl⟩]
  rfl

theorem new_id_lt (h : Checked s) {n : ℕ} (hn : n ∈ newList s) :
    newId s n < (newEntries s).length := by
  obtain ⟨x,hx,hf⟩ := (mem_ids_of s false n).mp (h.members n hn)
  obtain ⟨i,hi⟩ := List.mem_iff_getElem?.mp ((mem_new_entries s h n x).mpr ⟨hx,hf⟩)
  have hlt := (List.getElem?_eq_some_iff.mp hi).1
  have hwritten : (written s)[i]? = some ⟨n,x⟩ := by
    unfold written
    rw [List.getElem?_append_left hlt, hi]
  rw [((written_at s h i n x).mp hwritten).2]
  exact hlt

/-- The file is within the limits of the stream: the key is no longer than a vector may be,
and the numbers are of the type `int`. -/
structure Fits : Prop where
  key : s.nKey.length ≤ maxSize
  nNew : s.nNew < 2^31
  nTried : s.nTried < 2^31

structure Placed : Prop where
  size : ∀ b, (s.vvTried b).length ≤ triedBucketSize
  bucket : ∀ b, ∀ n ∈ s.vvTried b, ∀ x, s.mapInfo.lookup n = some x →
    getTriedBucket H s.nKey x.toCService = b

theorem room_references (h : Checked s) (hfits : Fits s) (vvTried : Fin triedBucketCount → List ℕ)
    (nIdCount : ℕ) :
    Room (references s) { appended s with vvTried := vvTried, nIdCount := nIdCount } := by
  intro k hk
  rw [references_ids] at hk
  obtain ⟨n,hn,rfl⟩ := List.mem_map.mp hk
  obtain ⟨x,hx,hf⟩ := (mem_ids_of s false n).mp (h.members n hn)
  have hlt := new_id_lt s h hn
  have hlen := length_new_entries s h
  have hbound := hfits.nNew
  refine ⟨by omega,{ restored x with nRandomPos := (newId s n : ℤ) },?_,?_⟩
  · change (appended s).mapInfo.lookup _ = _
    rw [(holds_appended s).info, kept_at s h hx]
    rfl
  · rw [references_count s h hx]
    have hle := (kind_positive (h.kind n x hx) hf).2
    change (0 : ℤ)+x.nRefCount ≤ newBucketsPerAddress
    omega

theorem tried_at (h : Checked s) (hplaced : Placed H s) {n : ℕ} {x : CAddrInfo}
    (hx : s.mapInfo.lookup n = some x) (ht : x.fInTried = true) :
    n ∈ s.vvTried (getTriedBucket H s.nKey x.toCService) := by
  have hmem : n ∈ (triedList s).toFinset := by
    rw [h.tried]
    exact (mem_ids_of s true n).mpr ⟨x,hx,ht⟩
  rw [List.mem_toFinset] at hmem
  obtain ⟨b,_,hb⟩ := List.mem_flatMap.mp hmem
  rw [hplaced.bucket b n hb x hx]
  exact hb

theorem tried_room (h : Checked s) (hplaced : Placed H s) (b : Fin triedBucketCount) :
    (triedIn H s.nKey b (newEntries s).length ((triedEntries s).map Sigma.snd)).length ≤
      triedBucketSize := by
  have hsub : (((triedEntries s).filter fun e => getTriedBucket H s.nKey e.2.toCService = b).map Sigma.fst) ⊆
      s.vvTried b := by
    intro n hn
    obtain ⟨⟨_,x⟩,hx,rfl⟩ := List.mem_map.mp hn
    obtain ⟨hmem,hb⟩ := List.mem_filter.mp hx
    obtain ⟨hlookup,ht⟩ := (mem_tried_entries s _ x).mp hmem
    have hat := tried_at H s h hplaced hlookup ht
    rw [of_decide_eq_true hb] at hat
    exact hat
  have hnodup : (((triedEntries s).filter fun e => getTriedBucket H s.nKey e.2.toCService = b).map
      Sigma.fst).Nodup :=
    (filtered_nodup s isTried).sublist (List.filter_sublist.map Sigma.fst)
  have hle := (hnodup.subperm hsub).length_le
  rw [List.length_map] at hle
  rw [length_tried_in, List.filter_map, List.length_map]
  exact le_trans hle (hplaced.size b)

theorem new_restored (h : Checked s) :
    ((newEntries s).map Sigma.snd).map loaded = (newEntries s).map fun e => restored e.2 := by
  rw [List.map_map]
  apply List.map_congr_left
  intro e he
  have hf := ((mem_new_entries s h e.1 e.2).mp he).2
  unfold restored
  rw [hf]
  rfl

theorem append_all_length (xs : List CAddrInfo) (s : CAddrMan) :
    (appendAll xs s).vRandom.length = s.vRandom.length+xs.length := by
  induction xs generalizing s with
  | nil => rfl
  | cons x xs ih =>
    rw [appendAll, ih, append_info_length, List.length_cons]
    omega

theorem read_new_part (h : Checked s) (nVersion : BitVec 32) (rest : List UInt8) :
    readNew H newBucketCount s.nNew.toNat 0 (blank s)
        (many (CAddrInfo.serialize nVersion) ((newEntries s).map Sigma.snd)++rest) =
      some (appendAll ((newEntries s).map fun e => restored e.2) (blank s),rest) := by
  have hN : s.nNew.toNat = ((newEntries s).map Sigma.snd).length := by
    have hlen := length_new_entries s h
    rw [List.length_map]
    omega
  rw [hN, ← new_restored s h]
  exact read_new H nVersion _ (blank s) rest

theorem read_tried_part (h : Checked s) (hplaced : Placed H s) (nVersion : BitVec 32)
    (rest : List UInt8) :
    readTried H s.nTried.toNat
        { appendAll ((newEntries s).map fun e => restored e.2) (blank s) with nIdCount := s.nNew.toNat } 0
        (many (CAddrInfo.serialize nVersion) ((triedEntries s).map Sigma.snd)++rest) =
      some (({ appended s with
        vvTried := fun b => triedIn H s.nKey b (newEntries s).length ((triedEntries s).map Sigma.snd)
        nIdCount := (written s).length },0),rest) := by
  have hN : s.nNew.toNat = (newEntries s).length := by
    have hlen := length_new_entries s h
    omega
  have hT : s.nTried.toNat = ((triedEntries s).map Sigma.snd).length := by
    have hlen := length_tried_entries s h
    rw [List.length_map]
    omega
  obtain ⟨hkey,_,_,_,hvv⟩ := append_all_key ((newEntries s).map fun e => restored e.2) (blank s)
  have hlen := append_all_length ((newEntries s).map fun e => restored e.2) (blank s)
  have hall : appended s = appendAll (((triedEntries s).map Sigma.snd).map restored)
      (appendAll ((newEntries s).map fun e => restored e.2) (blank s)) := by
    unfold appended kept written
    rw [List.map_append, append_all_append, List.map_map]
    rfl
  rw [hall]
  generalize appendAll ((newEntries s).map fun e => restored e.2) (blank s) = s1 at hkey hvv hlen
  have hkey' : s1.nKey = s.nKey := hkey
  have hvv' : s1.vvTried = fun _ => [] := hvv
  have hread := read_tried H nVersion ((triedEntries s).map Sigma.snd)
    { s1 with nIdCount := (newEntries s).length } 0 rest
    (by
      intro x hx
      obtain ⟨e,he,rfl⟩ := List.mem_map.mp hx
      exact ((mem_tried_entries s e.1 e.2).mp he).2)
    (by
      dsimp only
      rw [hlen, List.length_map]
      exact (zero_add _).symm)
    (by
      intro b
      dsimp only
      rw [hkey', hvv', List.length_nil, zero_add]
      exact tried_room H s h hplaced b)
  have hrest := append_all_rest (((triedEntries s).map Sigma.snd).map restored) s1 s1.vvTried
    (newEntries s).length
  have hwritten : (newEntries s).length+((triedEntries s).map Sigma.snd).length = (written s).length := by
    unfold written
    rw [List.length_append, List.length_map]
  rw [hN, hT, hread]
  dsimp only at hrest ⊢
  rw [hrest, hkey', hvv', hwritten]
  rfl

theorem length_new_bucket (h : Checked s) (b : Fin newBucketCount) :
    ((newBucket s b).length : ℤ) ≤ s.nNew := by
  have hsub : s.vvNew b ⊆ idsOf s false := fun n hn => h.members n (mem_new_list_of s hn)
  have hle := Finset.card_le_card hsub
  unfold newBucket
  rw [← h.newCount, List.length_map, Finset.length_sort]
  exact Nat.cast_le.mpr hle

theorem unserialize_serialize (h : Checked s) (hfits : Fits s) (hplaced : Placed H s)
    (nVersion : BitVec 32) (rest : List UInt8) :
    unserialize H (serialize nVersion s++rest) = some (reloaded H s,rest) := by
  have hlenNew := length_new_entries s h
  have hlenTried := length_tried_entries s h
  have hbound : (newBucketCount : ℤ) < 2^31 := by decide
  have hnNew := hfits.nNew
  have hnTried := hfits.nTried
  have hsmall : ∀ b, (newBucket s b).length < 2^31 := by
    intro b
    have hle := length_new_bucket s h b
    omega
  have hread := read_buckets 0
    (by rw [List.map_coe_finRange_eq_range, List.length_finRange, List.range_eq_range'])
    { appended s with
      vvTried := fun b => triedIn H s.nKey b (newEntries s).length ((triedEntries s).map Sigma.snd)
      nIdCount := (written s).length } rest hsmall (room_references s h hfits _ _)
  rw [List.length_finRange] at hread
  rw [serialize_eq s h nVersion]
  simp only [List.append_assoc]
  unfold unserialize
  rw [bind_read _ _ (read_word 1 0 _ (by decide)),
    bind_read _ _ (read_bytes s.nKey _ hfits.key),
    bind_read _ _ (read_int s.nNew _ (by omega) (by omega)),
    bind_read _ _ (read_int s.nTried _ (by omega) (by omega)),
    bind_read _ _ (read_int newBucketCount _ (by omega) hbound)]
  refine (bind_read _ _ (read_new_part H s h nVersion _)).trans ?_
  refine (bind_read _ _ (read_tried_part H s h hplaced nVersion _)).trans ?_
  dsimp only
  rw [Nat.cast_zero, sub_zero, Int.toNat_natCast]
  exact hread

end Reloaded

end SwippCore.AddrMan

namespace SwippCore.AddrMan
open FinMap

section Links
variable (s : CAddrMan)

theorem link_facts {n : ℕ} {x : CAddrInfo} (h : linkError s n x = none) :
    (s.mapAddr.lookup x.ip).getD 0 = n ∧ s.vRandom[x.nRandomPos.toNat]? = some n ∧
      0 ≤ x.nLastSuccess.toInt := by
  unfold linkError at h
  split at h
  · cases h
  · rename_i haddr
    split at h
    · cases h
    · rename_i hpos
      split at h
      · cases h
      · split at h
        · cases h
        · rename_i hsuccess
          rw [not_or, not_or, not_not] at hpos
          exact ⟨not_not.mp haddr,hpos.2.2,by omega⟩

theorem kept_addresses (h : Checked s) : ((kept s).map fun x => x.ip).Nodup := by
  have heq : (kept s).map (fun x => x.ip) = (written s).map fun e => e.2.ip := by
    unfold kept
    rw [List.map_map]
    rfl
  rw [heq]
  apply List.Nodup.map_on
  · rintro ⟨n,x⟩ hx ⟨m,y⟩ hy hip
    have hlx := (mem_written s h n x).mp hx
    have hly := (mem_written s h m y).mp hy
    have hn := (link_facts s (h.link n x hlx)).1
    have hm := (link_facts s (h.link m y hly)).1
    dsimp only at hip
    rw [hip, hm] at hn
    subst hn
    rw [hlx] at hly
    rw [Option.some.inj hly]
  · exact List.Nodup.of_map Sigma.fst (written_nodup s h)

theorem random_perm (h : Checked s) : s.vRandom.Perm ((written s).map Sigma.fst) := by
  have hsub : (written s).map Sigma.fst ⊆ s.vRandom := by
    intro n hn
    obtain ⟨⟨_,x⟩,hx,rfl⟩ := List.mem_map.mp hn
    exact List.mem_of_getElem? (link_facts s (h.link _ x ((mem_written s h _ x).mp hx))).2.1
  have hlen : s.vRandom.length ≤ ((written s).map Sigma.fst).length := by
    have hsize := h.size
    have hnew := length_new_entries s h
    have htried := length_tried_entries s h
    unfold written
    rw [List.length_map, List.length_append]
    omega
  exact (((written_nodup s h).subperm hsub).perm_of_length_le hlen).symm

end Links

section Reloaded
variable (H : AddrHash) (s : CAddrMan)

def returned (k : ℕ) (x : CAddrInfo) : CAddrInfo := { x with nLastTry := 0, nRandomPos := k }

theorem length_kept : (kept s).length = (written s).length := List.length_map _

theorem reloaded_info (k : ℕ) : (reloaded H s).mapInfo.lookup k = ((kept s)[k]?).map fun x =>
    { x with
      nRefCount := x.nRefCount+(((references s).map Prod.snd).count k : ℕ)
      nRandomPos := (k : ℤ) } := by
  unfold reloaded
  rw [add_pairs_info, (holds_appended s).info, Option.map_map]
  rfl

theorem reloaded_at (h : Checked s) {n : ℕ} {x : CAddrInfo} (hx : s.mapInfo.lookup n = some x) :
    (reloaded H s).mapInfo.lookup (newId s n) = some (returned (newId s n) x) := by
  rw [reloaded_info, kept_at s h hx, Option.map_some, references_count s h hx]
  change some { returned (newId s n) x with nRefCount := 0+x.nRefCount } = _
  rw [zero_add]
  rfl

theorem reloaded_some (h : Checked s) {k : ℕ} {y : CAddrInfo}
    (hy : (reloaded H s).mapInfo.lookup k = some y) :
    ∃ n x, s.mapInfo.lookup n = some x ∧ newId s n = k ∧ y = returned k x := by
  have hsome := hy
  rw [reloaded_info] at hsome
  obtain ⟨_,hkept,_⟩ := Option.map_eq_some_iff.mp hsome
  unfold kept at hkept
  rw [List.getElem?_map] at hkept
  obtain ⟨⟨n,x⟩,hat,_⟩ := Option.map_eq_some_iff.mp hkept
  obtain ⟨hx,rfl⟩ := (written_at s h k n x).mp hat
  refine ⟨n,x,hx,rfl,?_⟩
  rw [reloaded_at H s h hx] at hy
  exact (Option.some.inj hy).symm

theorem reloaded_random : (reloaded H s).vRandom = List.range (written s).length := by
  unfold reloaded
  rw [add_pairs_rest]
  dsimp only
  rw [(holds_appended s).random, length_kept]

theorem reloaded_addr (h : Checked s) (n : ℕ) (x : CAddrInfo) (hx : s.mapInfo.lookup n = some x) :
    (reloaded H s).mapAddr.lookup x.ip = some (newId s n) := by
  unfold reloaded
  rw [add_pairs_rest]
  exact (holds_appended s).addr (kept_addresses s h) (newId s n) (restored x) (kept_at s h hx)

theorem reloaded_new (b : Fin newBucketCount) (k : ℕ) :
    k ∈ (reloaded H s).vvNew b ↔ ∃ n ∈ s.vvNew b, newId s n = k := by
  have hnone : (appended s).vvNew b = ∅ :=
    congrFun (append_all_key (kept s) (blank s)).2.2.2.1 b
  unfold reloaded
  rw [add_pairs_new, mem_references]
  dsimp only
  rw [hnone]
  exact or_iff_right (Finset.notMem_empty k)

theorem reloaded_tried (h : Checked s) (b : Fin triedBucketCount) (k : ℕ) :
    k ∈ (reloaded H s).vvTried b ↔ ∃ n x, s.mapInfo.lookup n = some x ∧ x.fInTried = true ∧
      getTriedBucket H s.nKey x.toCService = b ∧ newId s n = k := by
  have hvv : (reloaded H s).vvTried b =
      triedIn H s.nKey b (newEntries s).length ((triedEntries s).map Sigma.snd) := by
    unfold reloaded
    rw [add_pairs_rest]
  have hat : ∀ j : ℕ, (written s)[(newEntries s).length+j]? = (triedEntries s)[j]? := by
    intro j
    unfold written
    rw [List.getElem?_append_right (by omega), Nat.add_sub_cancel_left]
  rw [hvv, mem_tried_in]
  constructor
  · rintro ⟨j,_,hj,hb,rfl⟩
    rw [List.getElem?_map] at hj
    obtain ⟨⟨n,x⟩,hx,rfl⟩ := Option.map_eq_some_iff.mp hj
    have hwritten := hat j
    rw [hx] at hwritten
    obtain ⟨hlookup,hid⟩ := (written_at s h _ n x).mp hwritten
    exact ⟨n,x,hlookup,((mem_tried_entries s n x).mp (List.mem_of_getElem? hx)).2,hb,hid⟩
  · rintro ⟨n,x,hx,ht,hb,rfl⟩
    obtain ⟨j,hj⟩ := List.mem_iff_getElem?.mp ((mem_tried_entries s n x).mpr ⟨hx,ht⟩)
    refine ⟨j,x,?_,hb,?_⟩
    · rw [List.getElem?_map, hj]
      rfl
    · exact ((written_at s h _ n x).mp ((hat j).trans hj)).2

theorem reloaded_counts : (reloaded H s).nKey = s.nKey ∧ (reloaded H s).nNew = s.nNew ∧
    (reloaded H s).nTried = s.nTried := by
  obtain ⟨hkey,hnew,htried,_⟩ := append_all_key (kept s) (blank s)
  unfold reloaded
  rw [add_pairs_rest]
  exact ⟨hkey,hnew,htried⟩

theorem reloaded_ids (h : Checked s) (fTried : Bool) :
    idsOf (reloaded H s) fTried = (idsOf s fTried).image (newId s) := by
  ext k
  rw [mem_ids_of, Finset.mem_image]
  constructor
  · rintro ⟨y,hy,hf⟩
    obtain ⟨n,x,hx,hk,rfl⟩ := reloaded_some H s h hy
    exact ⟨n,(mem_ids_of s fTried n).mpr ⟨x,hx,hf⟩,hk⟩
  · rintro ⟨n,hn,rfl⟩
    obtain ⟨x,hx,hf⟩ := (mem_ids_of s fTried n).mp hn
    exact ⟨_,reloaded_at H s h hx,hf⟩

theorem reloaded_ids_count (h : Checked s) (fTried : Bool) :
    (idsOf (reloaded H s) fTried).card = (idsOf s fTried).card := by
  rw [reloaded_ids H s h]
  apply Finset.card_image_of_injOn
  intro n hn m _ heq
  obtain ⟨x,hx,_⟩ := (mem_ids_of s fTried n).mp hn
  exact new_id_inj s h hx heq

theorem reloaded_refs (h : Checked s) {n : ℕ} {x : CAddrInfo} (hx : s.mapInfo.lookup n = some x) :
    refs (reloaded H s).vvNew (newId s n) = refs s.vvNew n := by
  unfold refs Buckets.holders
  congr 1
  apply Finset.filter_congr
  intro b _
  rw [reloaded_new]
  constructor
  · rintro ⟨m,hm,heq⟩
    rw [new_id_inj s h hx heq.symm]
    exact hm
  · exact fun hn => ⟨n,hn,rfl⟩

theorem reloaded_checked (h : Checked s) : Checked (reloaded H s) where
  size := by
    obtain ⟨_,hnew,htried⟩ := reloaded_counts H s
    have hlenNew := length_new_entries s h
    have hlenTried := length_tried_entries s h
    rw [reloaded_random, List.length_range, hnew, htried]
    unfold written
    rw [List.length_append]
    omega
  kind k y hy := by
    obtain ⟨n,x,hx,_,rfl⟩ := reloaded_some H s h hy
    exact h.kind n x hx
  link k y hy := by
    obtain ⟨n,x,hx,rfl,rfl⟩ := reloaded_some H s h hy
    obtain ⟨_,_,hsuccess⟩ := link_facts s (h.link n x hx)
    have hat := (written_at s h _ n x).mpr ⟨hx,rfl⟩
    have hlt := (List.getElem?_eq_some_iff.mp hat).1
    have haddr : (reloaded H s).mapAddr.lookup (returned (newId s n) x).ip = some (newId s n) :=
      reloaded_addr H s h n x hx
    have hzero : ¬(returned (newId s n) x).nLastTry.toInt < 0 := by
      change ¬(0 : BitVec 64).toInt < 0
      decide
    unfold linkError
    rw [haddr, Option.getD_some, if_neg (not_not.mpr rfl), if_neg, if_neg hzero, if_neg]
    · exact not_lt.mpr hsuccess
    · rw [reloaded_random, List.length_range]
      rintro (hneg | hlong | hne)
      · exact absurd hneg (not_lt.mpr (Int.natCast_nonneg _))
      · exact absurd (Int.ofNat_le.mp hlong) (by omega)
      · apply hne
        change (List.range (written s).length)[newId s n]? = _
        rw [List.getElem?_range hlt]
  triedCount := by
    rw [reloaded_ids_count H s h, (reloaded_counts H s).2.2, h.triedCount]
  newCount := by
    rw [reloaded_ids_count H s h, (reloaded_counts H s).2.1, h.newCount]
  triedNodup := by
    unfold triedList
    rw [List.nodup_flatMap]
    constructor
    · intro b _
      unfold reloaded
      rw [add_pairs_rest]
      exact tried_in_nodup H s.nKey b _ _
    · apply (List.nodup_finRange triedBucketCount).pairwise_of_forall_ne
      intro b _ c _ hne k hb hc
      obtain ⟨n,x,hx,_,hbx,hn⟩ := (reloaded_tried H s h b k).mp hb
      obtain ⟨m,y,hy,_,hcy,hm⟩ := (reloaded_tried H s h c k).mp hc
      obtain rfl := new_id_inj s h hx (hn.trans hm.symm)
      rw [hx] at hy
      rw [← Option.some.inj hy, hbx] at hcy
      exact hne hcy
  tried := by
    ext k
    rw [List.mem_toFinset, reloaded_ids H s h, Finset.mem_image]
    unfold triedList
    rw [List.mem_flatMap]
    constructor
    · rintro ⟨b,_,hb⟩
      obtain ⟨n,x,hx,ht,_,hn⟩ := (reloaded_tried H s h b k).mp hb
      exact ⟨n,(mem_ids_of s true n).mpr ⟨x,hx,ht⟩,hn⟩
    · rintro ⟨n,hn,hk⟩
      obtain ⟨x,hx,ht⟩ := (mem_ids_of s true n).mp hn
      exact ⟨_,List.mem_finRange _,(reloaded_tried H s h _ k).mpr ⟨n,x,hx,ht,rfl,hk⟩⟩
  refs k y hy hf := by
    obtain ⟨n,x,hx,rfl,rfl⟩ := reloaded_some H s h hy
    rw [new_list_count, reloaded_refs H s h hx, ← new_list_count]
    exact h.refs n x hx hf
  members k hk := by
    obtain ⟨b,hb⟩ := (mem_new_list _ k).mp hk
    obtain ⟨n,hn,hid⟩ := (reloaded_new H s b k).mp hb
    rw [reloaded_ids H s h, Finset.mem_image]
    exact ⟨n,h.members n (mem_new_list_of s hn),hid⟩

end Reloaded

section Renaming

/-- Two states are the same but for their ids and the order of the vector. Of the statistics
of an entry, what a function leaves is the same. -/
structure Renamed (f : CAddrInfo → CAddrInfo) (ρ : ℕ → ℕ) (s s' : CAddrMan) : Prop where
  key : s'.nKey = s.nKey
  counts : s'.nNew = s.nNew ∧ s'.nTried = s.nTried
  injective : ∀ n ∈ s.mapInfo, ∀ m ∈ s.mapInfo, ρ n = ρ m → n = m
  onto : ∀ k ∈ s'.mapInfo, ∃ n ∈ s.mapInfo, ρ n = k
  same : ∀ n x, s.mapInfo.lookup n = some x →
    ∃ pos, s'.mapInfo.lookup (ρ n) = some { f x with nRandomPos := pos }
  random : s'.vRandom.Perm (s.vRandom.map ρ)
  addr : ∀ n x, s.mapInfo.lookup n = some x → s'.mapAddr.lookup x.ip = some (ρ n)
  tried : ∀ n ∈ s.mapInfo, ∀ b, ρ n ∈ s'.vvTried b ↔ n ∈ s.vvTried b
  new : ∀ n ∈ s.mapInfo, ∀ b, ρ n ∈ s'.vvNew b ↔ n ∈ s.vvNew b

def forgetTry (x : CAddrInfo) : CAddrInfo := { x with nLastTry := 0 }

theorem range_perm {l : List ℕ} (hnodup : l.Nodup) :
    (List.range l.length).Perm (l.map l.idxOf) := by
  have heq : l.map l.idxOf = List.range l.length := by
    apply List.ext_getElem
    · rw [List.length_map, List.length_range]
    · intro i hi _
      rw [List.length_map] at hi
      rw [List.getElem_map, List.getElem_range]
      exact hnodup.idxOf_getElem i hi
  rw [heq]

theorem reloaded_renamed {H : AddrHash} {s : CAddrMan} (h : Checked s) (hplaced : Placed H s) :
    Renamed forgetTry (newId s) s (reloaded H s) where
  key := (reloaded_counts H s).1
  counts := (reloaded_counts H s).2
  injective n hn m _ heq := by
    obtain ⟨x,hx⟩ := (mem_iff_lookup s.mapInfo n).mp hn
    exact new_id_inj s h hx heq
  onto k hk := by
    obtain ⟨y,hy⟩ := (mem_iff_lookup _ k).mp hk
    obtain ⟨n,x,hx,hid,_⟩ := reloaded_some H s h hy
    exact ⟨n,(mem_iff_lookup s.mapInfo n).mpr ⟨x,hx⟩,hid⟩
  same n x hx := ⟨_,reloaded_at H s h hx⟩
  random := by
    have hrange := range_perm (written_nodup s h)
    rw [List.length_map] at hrange
    rw [reloaded_random]
    exact hrange.trans ((random_perm s h).map (newId s)).symm
  addr n x hx := reloaded_addr H s h n x hx
  tried n hn b := by
    obtain ⟨x,hx⟩ := (mem_iff_lookup s.mapInfo n).mp hn
    rw [reloaded_tried H s h]
    constructor
    · rintro ⟨m,y,hy,ht,rfl,heq⟩
      rw [new_id_inj s h hx heq.symm]
      exact tried_at H s h hplaced hy ht
    · intro hb
      have hmem : n ∈ (triedList s).toFinset :=
        List.mem_toFinset.mpr (List.mem_flatMap.mpr ⟨b,List.mem_finRange b,hb⟩)
      rw [h.tried] at hmem
      obtain ⟨y,hy,ht⟩ := (mem_ids_of s true n).mp hmem
      exact ⟨n,y,hy,ht,hplaced.bucket b n hb y hy,rfl⟩
  new n hn b := by
    obtain ⟨x,hx⟩ := (mem_iff_lookup s.mapInfo n).mp hn
    rw [reloaded_new]
    constructor
    · rintro ⟨m,hm,heq⟩
      rw [new_id_inj s h hx heq.symm]
      exact hm
    · exact fun hb => ⟨n,hb,rfl⟩

end Renaming

/-- A state that passes the check, with its tried entries in the buckets of their hashes,
comes back from the file up to its ids, the order of the vector and the last tries. -/
theorem reload_renames (H : AddrHash) (s : CAddrMan) (nVersion : BitVec 32) (rest : List UInt8)
    (h : check_ s = 0) (hfits : Fits s) (hplaced : Placed H s) :
    ∃ s' ρ, unserialize H (serialize nVersion s++rest) = some (s',rest) ∧ check_ s' = 0 ∧
      Renamed forgetTry ρ s s' := by
  have hchecked := (check_zero s).mp h
  exact ⟨reloaded H s,newId s,unserialize_serialize H s hchecked hfits hplaced nVersion rest,
    (check_zero _).mpr (reloaded_checked H s hchecked),reloaded_renamed hchecked hplaced⟩

section Samples

instance : NeZero triedBucketCount := ⟨by decide⟩
instance : NeZero newBucketCount := ⟨by decide⟩

def sampleEntry (n : ℕ) (fInTried : Bool) : CAddrInfo where
  ip := BitVec.ofNat 128 (n+1)
  port := 6661
  nServices := 1
  nTime := 1550000000
  nLastTry := 1550000000
  source := 7
  nLastSuccess := 1550000000
  nAttempts := 0
  nRefCount := if fInTried then 0 else 1
  fInTried := fInTried
  nRandomPos := n

def samplePair (b : Fin triedBucketCount) : CAddrMan where
  nKey := []
  nIdCount := 2
  mapInfo := ((∅ : Dict ℕ CAddrInfo).insert 0 (sampleEntry 0 true)).insert 1 (sampleEntry 1 false)
  mapAddr := ((∅ : Dict CNetAddr ℕ).insert 1 0).insert 2 1
  vRandom := [0,1]
  nTried := 1
  vvTried := Function.update (fun _ => []) b [0]
  nNew := 1
  vvNew := Function.update (fun _ => ∅) 5 {1}

theorem sample_pair_placed : Placed sampleHash (samplePair 0) where
  size := by decide
  bucket b n hn x _ := by
    by_cases hb : b = 0
    · rw [hb]
      rfl
    · change n ∈ Function.update (fun _ => []) 0 [0] b at hn
      rw [Function.update_of_ne hb] at hn
      cases hn

theorem sample_pair_fits : Fits (samplePair 0) := ⟨by decide,by decide,by decide⟩

theorem pair_reloads : ∃ s' ρ, unserialize sampleHash (serialize 0 (samplePair 0)++[1]) = some (s',[1]) ∧
    check_ s' = 0 ∧ Renamed forgetTry ρ (samplePair 0) s' :=
  reload_renames sampleHash (samplePair 0) 0 [1] (by decide +kernel) sample_pair_fits sample_pair_placed

/-- The time of the last try does not come back, and a tried entry that stands in another
bucket comes back in that of its hash. -/
theorem reload_loses :
    (¬ ∀ (H : AddrHash) (s : CAddrMan) (nVersion : BitVec 32) (rest : List UInt8),
      check_ s = 0 → Fits s → Placed H s →
      ∃ s' ρ, unserialize H (serialize nVersion s++rest) = some (s',rest) ∧ check_ s' = 0 ∧
        Renamed id ρ s s') ∧
    ¬ ∀ (H : AddrHash) (s : CAddrMan) (nVersion : BitVec 32) (rest : List UInt8),
      check_ s = 0 → Fits s →
      ∃ s' ρ, unserialize H (serialize nVersion s++rest) = some (s',rest) ∧ check_ s' = 0 ∧
        Renamed forgetTry ρ s s' := by
  constructor
  · intro h
    have hcheck : check_ (samplePair 0) = 0 := by decide +kernel
    obtain ⟨s',ρ,hs',_,hrenamed⟩ := h sampleHash (samplePair 0) 0 [] hcheck sample_pair_fits
      sample_pair_placed
    rw [unserialize_serialize sampleHash (samplePair 0) ((check_zero _).mp hcheck) sample_pair_fits
      sample_pair_placed 0 []] at hs'
    obtain rfl := (Prod.mk.inj (Option.some.inj hs')).1
    obtain ⟨pos,hpos⟩ := hrenamed.same 1 (sampleEntry 1 false) rfl
    obtain ⟨n,x,_,_,heq⟩ := reloaded_some sampleHash (samplePair 0) ((check_zero _).mp hcheck) hpos
    have htry : (1550000000 : BitVec 64) = 0 := congrArg (fun y : CAddrInfo => y.nLastTry) heq
    exact absurd htry (by decide)
  · intro h
    obtain ⟨s',ρ,hs',_,hrenamed⟩ := h sampleHash (samplePair 1) 0 [] (by decide +kernel)
      ⟨by decide,by decide,by decide⟩
    have hread : (unserialize sampleHash (serialize 0 (samplePair 1)++[])).map (fun r => r.1.vvTried 1) =
        some [] := by
      decide +kernel
    rw [hs', Option.map_some] at hread
    have hempty : s'.vvTried 1 = [] := Option.some.inj hread
    have hin := (hrenamed.tried 0 (by decide) 1).mpr (by decide)
    rw [hempty] at hin
    cases hin

end Samples

end SwippCore.AddrMan
