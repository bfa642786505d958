import SwippCore.AddrManCheck

/-!
# The file of addresses and its loops

The bytes of the address manager, and what the loops over its entries write and read.
-/

set_option autoImplicit false

namespace SwippCore.AddrMan
open FinMap PrefixCode Readers Unserialize

section Entries

/-- `CAddrInfo()` -/
def CAddrInfo.init : CAddrInfo where
  ip := 0
  port := 0
  nServices := 1
  nTime := 100000000
  nLastTry := 0
  source := 0
  nLastSuccess := 0
  nAttempts := 0
  nRefCount := 0
  fInTried := false
  nRandomPos := -1

def CService.serialize (a : CService) : List UInt8 := bigWord 16 a.ip.toNat++bigWord 2 a.port.toNat

def CAddress.serialize (nVersion : BitVec 32) (a : CAddress) : List UInt8 :=
  word 4 nVersion.toNat++(word 4 a.nTime.toNat++(word 8 a.nServices.toNat++a.toCService.serialize))

def CAddrInfo.serialize (nVersion : BitVec 32) (x : CAddrInfo) : List UInt8 :=
  x.toCAddress.serialize nVersion++(bigWord 16 x.source.toNat++
    (word 8 x.nLastSuccess.toNat++word 4 x.nAttempts.toNat))

def readService : Reader CService := do
  let ip ← readBig 16
  let port ← readBig 2
  pure ⟨BitVec.ofNat 128 ip,BitVec.ofNat 16 port⟩

def readAddress : Reader CAddress := do
  let _ ← readWord 4
  let nTime ← readWord 4
  let nServices ← readWord 8
  let a ← readService
  pure ⟨a,BitVec.ofNat 64 nServices,BitVec.ofNat 32 nTime,CAddrInfo.init.nLastTry⟩

def readInfo : Reader CAddrInfo := do
  let a ← readAddress
  let source ← readBig 16
  let nLastSuccess ← readWord 8
  let nAttempts ← readWord 4
  pure { CAddrInfo.init with
    toCAddress := a
    source := BitVec.ofNat 128 source
    nLastSuccess := BitVec.ofNat 64 nLastSuccess
    nAttempts := BitVec.ofNat 32 nAttempts }

def readBytes : Reader (List UInt8) := do
  let nSize ← readCompactSize
  readBlock nSize

end Entries

section Writing

def writeInt (n : ℤ) : List UInt8 := signedWord 4 n

/-- The first loop of `Serialize`: the new entries that are written, and `mapUnkIds`. -/
def numberNew (nNew : ℤ) : List (Sigma fun _ : ℕ => CAddrInfo) → ℕ → Dict ℕ ℕ →
    List CAddrInfo × Dict ℕ ℕ
  | [], _, mapUnkIds => ([],mapUnkIds)
  | x::xs, nIds, mapUnkIds =>
    if (nIds : ℤ) = nNew then ([],mapUnkIds)
    else if x.2.nRefCount ≠ 0 then
      let r := numberNew nNew xs (nIds+1) (mapUnkIds.insert x.1 nIds)
      (x.2::r.1,r.2)
    else numberNew nNew xs nIds (mapUnkIds.insert x.1 nIds)

def takeTried (nTried : ℤ) : List (Sigma fun _ : ℕ => CAddrInfo) → ℕ → List CAddrInfo
  | [], _ => []
  | x::xs, nIds =>
    if (nIds : ℤ) = nTried then []
    else if x.2.fInTried then x.2::takeTried nTried xs (nIds+1)
    else takeTried nTried xs nIds

def writeBucket (index : ℕ → ℕ) (vNew : List ℕ) : List UInt8 :=
  writeInt vNew.length++many (fun n => writeInt (index n)) vNew

def serialize (nVersion : BitVec 32) (s : CAddrMan) : List UInt8 :=
  let entries := inOrder (fun a b => a ≤ b) s.mapInfo
  let r := numberNew s.nNew entries 0 ∅
  word 1 0++(bytes s.nKey++(writeInt s.nNew++(writeInt s.nTried++(writeInt newBucketCount++
    (many (CAddrInfo.serialize nVersion) r.1++
      (many (CAddrInfo.serialize nVersion) (takeTried s.nTried entries 0)++
        many (fun b => writeBucket (fun n => (r.2.lookup n).getD 0) ((s.vvNew b).sort))
          (List.finRange newBucketCount)))))))

end Writing

section Reading
variable (H : AddrHash)

def readInt : Reader ℤ := readSigned 4

def appendInfo (n : ℕ) (info : CAddrInfo) (s : CAddrMan) : CAddrMan :=
  { s with
    mapInfo := s.mapInfo.insert n { info with nRandomPos := s.vRandom.length }
    mapAddr := s.mapAddr.insert info.ip n
    vRandom := s.vRandom++[n] }

def readNew (nUBuckets : ℤ) : ℕ → ℕ → CAddrMan → Reader CAddrMan
  | 0, _, s => pure s
  | k+1, n, s => do
    let info ← readInfo
    let s := appendInfo n info s
    readNew nUBuckets k (n+1) (if nUBuckets ≠ newBucketCount then
      insertNew (getNewBucket H s.nKey info.ip info.source) n
        (s.setInfo n fun x => { x with nRefCount := x.nRefCount+1 }) else s)

def readTried : ℕ → CAddrMan → ℕ → Reader (CAddrMan × ℕ)
  | 0, s, nLost => pure (s,nLost)
  | k+1, s, nLost => do
    let info ← readInfo
    let nKBucket := getTriedBucket H s.nKey info.toCService
    if (s.vvTried nKBucket).length < triedBucketSize then
      readTried k { appendInfo s.nIdCount { info with fInTried := true } s with
        vvTried := Function.update s.vvTried nKBucket (s.vvTried nKBucket++[s.nIdCount])
        nIdCount := s.nIdCount+1 } nLost
    else readTried k s (nLost+1)

/-- The elements of a bucket. `operator[]` makes an entry for a number without one; numbers
below zero are outside of the model. -/
def readIndices (nUBuckets : ℤ) (b : ℕ) : ℕ → CAddrMan → Reader CAddrMan
  | 0, s => pure s
  | k+1, s => do
    let nIndex ← readInt
    if nIndex < 0 then failure
    else
      let r := getDefault s.mapInfo nIndex.toNat CAddrInfo.init
      let s := { s with mapInfo := r.2 }
      if h : b < newBucketCount ∧ nUBuckets = newBucketCount ∧ r.1.nRefCount < newBucketsPerAddress then
        readIndices nUBuckets b k (insertNew ⟨b,h.1⟩ nIndex.toNat
          (s.setInfo nIndex.toNat fun x => { x with nRefCount := x.nRefCount+1 }))
      else readIndices nUBuckets b k s

def readBuckets (nUBuckets : ℤ) : ℕ → ℕ → CAddrMan → Reader CAddrMan
  | 0, _, s => pure s
  | k+1, b, s => do
    let nSize ← readInt
    let s ← readIndices nUBuckets b nSize.toNat s
    readBuckets nUBuckets k (b+1) s

/-- `Unserialize`; nothing of the state before is left. -/
def unserialize : Reader CAddrMan := do
  let _ ← readWord 1
  let nKey ← readBytes
  let nNew ← readInt
  let nTried ← readInt
  let nUBuckets ← readInt
  let s := { CAddrMan.new nKey with nNew := nNew, nTried := nTried }
  let s ← readNew H nUBuckets nNew.toNat 0 s
  let (s,nLost) ← readTried H nTried.toNat { s with nIdCount := nNew.toNat } 0
  readBuckets nUBuckets nUBuckets.toNat 0 { s with nTried := s.nTried-nLost }

end Reading

section Codes

def loaded (x : CAddrInfo) : CAddrInfo :=
  { x with
    nLastTry := 0
    nRefCount := 0
    fInTried := false
    nRandomPos := -1 }

theorem read_service (a : CService) (rest : List UInt8) :
    readService (a.serialize++rest) = some (a,rest) := by
  unfold readService CService.serialize
  rw [List.append_assoc, bind_read _ _ (read_big 16 _ _ (lt_of_lt_of_eq a.ip.isLt rfl)),
    bind_read _ _ (read_big 2 _ _ (lt_of_lt_of_eq a.port.isLt rfl)), BitVec.ofNat_toNat,
    BitVec.ofNat_toNat, BitVec.setWidth_eq, BitVec.setWidth_eq]
  rfl

theorem read_address (nVersion : BitVec 32) (a : CAddress) (rest : List UInt8) :
    readAddress (a.serialize nVersion++rest) = some ({ a with nLastTry := 0 },rest) := by
  unfold readAddress CAddress.serialize
  rw [List.append_assoc, List.append_assoc, List.append_assoc,
    bind_read _ _ (read_word 4 _ _ (lt_of_lt_of_eq nVersion.isLt rfl)),
    bind_read _ _ (read_word 4 _ _ (lt_of_lt_of_eq a.nTime.isLt rfl)),
    bind_read _ _ (read_word 8 _ _ (lt_of_lt_of_eq a.nServices.isLt rfl)),
    bind_read _ _ (read_service a.toCService rest), BitVec.ofNat_toNat,
    BitVec.ofNat_toNat, BitVec.setWidth_eq, BitVec.setWidth_eq]
  rfl

theorem read_info (nVersion : BitVec 32) (x : CAddrInfo) (rest : List UInt8) :
    readInfo (x.serialize nVersion++rest) = some (loaded x,rest) := by
  unfold readInfo CAddrInfo.serialize
  rw [List.append_assoc, List.append_assoc, List.append_assoc,
    bind_read _ _ (read_address nVersion x.toCAddress _),
    bind_read _ _ (read_big 16 _ _ (lt_of_lt_of_eq x.source.isLt rfl)),
    bind_read _ _ (read_word 8 _ _ (lt_of_lt_of_eq x.nLastSuccess.isLt rfl)),
    bind_read _ _ (read_word 4 _ _ (lt_of_lt_of_eq x.nAttempts.isLt rfl)), BitVec.ofNat_toNat,
    BitVec.ofNat_toNat, BitVec.ofNat_toNat, BitVec.setWidth_eq, BitVec.setWidth_eq,
    BitVec.setWidth_eq]
  rfl

theorem read_bytes (v rest : List UInt8) (hv : v.length ≤ maxSize) :
    readBytes (bytes v++rest) = some (v,rest) := by
  unfold readBytes bytes vector
  rw [Codec.many_bytes, List.append_assoc, bind_read _ _ ((read_compact_size v.length (by unfold maxSize at hv; omega) _).trans (if_pos hv))]
  exact read_block v rest

theorem read_int (n : ℤ) (rest : List UInt8) (h0 : 0 ≤ n) (hn : n < 2^31) :
    readInt (writeInt n++rest) = some (n,rest) :=
  read_signed 4 n rest ⟨by omega,by omega⟩

end Codes

end SwippCore.AddrMan

namespace SwippCore.AddrMan
open FinMap PrefixCode Readers

section Written

theorem many_map {α β : Type} (enc : β → List UInt8) (f : α → β) (l : List α) :
    many (fun a => enc (f a)) l = many enc (l.map f) := by
  induction l with
  | nil => rfl
  | cons a l ih => rw [many, List.map_cons, many, ih]

def isNew (e : Sigma fun _ : ℕ => CAddrInfo) : Bool := e.2.nRefCount != 0
def isTried (e : Sigma fun _ : ℕ => CAddrInfo) : Bool := e.2.fInTried

variable {xs : List (Sigma fun _ : ℕ => CAddrInfo)}

theorem number_new_other (nNew : ℤ) (nIds : ℕ)
    (ids : Dict ℕ ℕ) {k : ℕ} (hk : k ∉ xs.map Sigma.fst) :
    (numberNew nNew xs nIds ids).2.lookup k = ids.lookup k := by
  induction xs generalizing nIds ids with
  | nil => rfl
  | cons x xs ih =>
    rw [List.map_cons, List.mem_cons, not_or] at hk
    have hins : (ids.insert x.1 nIds).lookup k = ids.lookup k := by
      rw [lookup_insert_if, if_neg hk.1]
    unfold numberNew
    split
    · rfl
    · split
      · exact (ih _ _ hk.2).trans hins
      · exact (ih _ _ hk.2).trans hins

theorem number_new_eq {nNew : ℤ} (nIds : ℕ) (ids : Dict ℕ ℕ) (hnodup : (xs.map Sigma.fst).Nodup)
    (hcount : (nIds+(xs.filter isNew).length : ℤ) = nNew) :
    (numberNew nNew xs nIds ids).1 = (xs.filter isNew).map Sigma.snd ∧
      ∀ i x, (xs.filter isNew)[i]? = some x →
        (numberNew nNew xs nIds ids).2.lookup x.1 = some (nIds+i) := by
  induction xs generalizing nIds ids with
  | nil => exact ⟨rfl,fun i x h => by cases h⟩
  | cons e xs ih =>
    rw [List.map_cons, List.nodup_cons] at hnodup
    unfold numberNew
    split
    · rename_i hstop
      have hnil : (e::xs).filter isNew = [] := List.eq_nil_of_length_eq_zero (by omega)
      rw [hnil]
      exact ⟨rfl,fun i x h => by cases h⟩
    · split
      · rename_i hne
        have hnew : isNew e = true := bne_iff_ne.mpr hne
        rw [List.filter_cons_of_pos hnew] at hcount ⊢
        rw [List.length_cons] at hcount
        obtain ⟨hinfos,hids⟩ := ih (nIds+1) (ids.insert e.1 nIds) hnodup.2 (by omega)
        dsimp only
        refine ⟨by rw [List.map_cons, hinfos],?_⟩
        intro i x hx
        cases i with
        | zero =>
          rw [List.getElem?_cons_zero] at hx
          rw [← Option.some.inj hx, number_new_other _ _ _ hnodup.1, lookup_insert_if, if_pos rfl]
          rfl
        | succ i =>
          rw [List.getElem?_cons_succ] at hx
          rw [hids i x hx]
          congr 1
          omega
      · rename_i hzero
        have hold : ¬isNew e = true := fun h => hzero (bne_iff_ne.mp h)
        rw [List.filter_cons_of_neg hold] at hcount ⊢
        exact ih nIds (ids.insert e.1 nIds) hnodup.2 hcount

theorem take_tried_eq {nTried : ℤ} (nIds : ℕ)
    (hcount : (nIds+(xs.filter isTried).length : ℤ) = nTried) :
    takeTried nTried xs nIds = (xs.filter isTried).map Sigma.snd := by
  induction xs generalizing nIds with
  | nil => rfl
  | cons e xs ih =>
    unfold takeTried
    split
    · have hnil : (e::xs).filter isTried = [] := List.eq_nil_of_length_eq_zero (by omega)
      rw [hnil]
      rfl
    · split
      · rename_i ht
        have ht' : isTried e = true := ht
        rw [List.filter_cons_of_pos ht'] at hcount ⊢
        rw [List.length_cons] at hcount
        rw [List.map_cons, ih (nIds+1) (by omega)]
      · rename_i hf
        have hf' : ¬isTried e = true := hf
        rw [List.filter_cons_of_neg hf'] at hcount ⊢
        exact ih nIds hcount

end Written

section Appended
variable (H : AddrHash)

def appendAll : List CAddrInfo → CAddrMan → CAddrMan
  | [], s => s
  | x::xs, s => appendAll xs (appendInfo s.vRandom.length x s)

variable (xs : List CAddrInfo)

theorem append_all_append (ys : List CAddrInfo) (s : CAddrMan) :
    appendAll (xs++ys) s = appendAll ys (appendAll xs s) := by
  induction xs generalizing s with
  | nil => rfl
  | cons x xs ih => exact ih _

theorem append_all_rest (s : CAddrMan) (vvTried : Fin triedBucketCount → List ℕ) (nIdCount : ℕ) :
    appendAll xs { s with vvTried := vvTried, nIdCount := nIdCount } =
      { appendAll xs s with vvTried := vvTried, nIdCount := nIdCount } := by
  induction xs generalizing s with
  | nil => rfl
  | cons x xs ih => exact ih (appendInfo s.vRandom.length x s)

theorem append_info_length (n : ℕ) (x : CAddrInfo) (s : CAddrMan) :
    (appendInfo n x s).vRandom.length = s.vRandom.length+1 := by
  unfold appendInfo
  rw [List.length_append, List.length_singleton]

theorem append_all_key (s : CAddrMan) :
    (appendAll xs s).nKey = s.nKey ∧ (appendAll xs s).nNew = s.nNew ∧
      (appendAll xs s).nTried = s.nTried ∧ (appendAll xs s).vvNew = s.vvNew ∧
      (appendAll xs s).vvTried = s.vvTried := by
  induction xs generalizing s with
  | nil => exact ⟨rfl,rfl,rfl,rfl,rfl⟩
  | cons x xs ih => exact ih (appendInfo s.vRandom.length x s)

theorem read_new (nVersion : BitVec 32) (xs : List CAddrInfo) (s : CAddrMan) (rest : List UInt8) :
    readNew H newBucketCount xs.length s.vRandom.length s
        (many (CAddrInfo.serialize nVersion) xs++rest) =
      some (appendAll (xs.map loaded) s,rest) := by
  induction xs generalizing s with
  | nil => rfl
  | cons x xs ih =>
    have hnext := ih (appendInfo s.vRandom.length (loaded x) s)
    rw [append_info_length] at hnext
    rw [List.length_cons, readNew, many, List.append_assoc,
      bind_read _ _ (read_info nVersion x _)]
    exact hnext

def triedIn (nKey : List UInt8) (b : Fin triedBucketCount) : ℕ → List CAddrInfo → List ℕ
  | _, [] => []
  | n, x::xs =>
    if getTriedBucket H nKey x.toCService = b then n::triedIn nKey b (n+1) xs
    else triedIn nKey b (n+1) xs

def restored (x : CAddrInfo) : CAddrInfo := { loaded x with fInTried := x.fInTried }

theorem read_tried (nVersion : BitVec 32) (xs : List CAddrInfo) (s : CAddrMan) (nLost : ℕ)
    (rest : List UInt8) (htried : ∀ x ∈ xs, x.fInTried = true) (hid : s.nIdCount = s.vRandom.length)
    (hroom : ∀ b, (s.vvTried b).length+(triedIn H s.nKey b s.nIdCount xs).length ≤ triedBucketSize) :
    readTried H xs.length s nLost (many (CAddrInfo.serialize nVersion) xs++rest) =
      some (({ appendAll (xs.map restored) s with
        vvTried := fun b => s.vvTried b++triedIn H s.nKey b s.nIdCount xs
        nIdCount := s.nIdCount+xs.length },nLost),rest) := by
  induction xs generalizing s with
  | nil =>
    have hnil : (fun b => s.vvTried b++triedIn H s.nKey b s.nIdCount []) = s.vvTried :=
      funext fun b => List.append_nil _
    rw [hnil]
    rfl
  | cons x xs ih =>
    generalize hb : getTriedBucket H s.nKey x.toCService = K
    have hlt : (s.vvTried K).length < triedBucketSize := by
      have hK := hroom K
      unfold triedIn at hK
      rw [if_pos hb, List.length_cons] at hK
      omega
    have hmark : ({ loaded x with fInTried := true } : CAddrInfo) = restored x := by
      unfold restored
      rw [htried x List.mem_cons_self]
    generalize hs1 : ({ appendInfo s.nIdCount (restored x) s with
      vvTried := Function.update s.vvTried K (s.vvTried K++[s.nIdCount])
      nIdCount := s.nIdCount+1 } : CAddrMan) = s1
    have hkey : s1.nKey = s.nKey := by rw [← hs1]; rfl
    have hvv : ∀ b, s1.vvTried b++triedIn H s.nKey b (s.nIdCount+1) xs =
        s.vvTried b++triedIn H s.nKey b s.nIdCount (x::xs) := by
      intro b
      rw [← hs1]
      dsimp only
      rw [Function.update_apply, triedIn, hb]
      by_cases hbK : b = K
      · rw [if_pos hbK, if_pos hbK.symm, hbK, List.append_assoc]
        rfl
      · rw [if_neg hbK, if_neg (Ne.symm hbK)]
    have hstep := ih s1 (fun y hy => htried y (List.mem_cons_of_mem x hy))
      (by
        rw [← hs1]
        dsimp only
        rw [append_info_length, hid])
      (by
        intro b
        have hlen := congrArg List.length (hvv b)
        have hcount : s1.nIdCount = s.nIdCount+1 := by rw [← hs1]
        rw [List.length_append, List.length_append] at hlen
        rw [hkey, hcount, hlen]
        exact hroom b)
    have hcount : s1.nIdCount = s.nIdCount+1 := by rw [← hs1]
    rw [hkey, hcount, funext hvv] at hstep
    rw [List.length_cons, readTried, many, List.append_assoc,
      bind_read _ _ (read_info nVersion x _)]
    have hloaded : getTriedBucket H s.nKey (loaded x).toCService = K := hb
    dsimp only
    rw [hloaded, if_pos hlt, hmark, hs1, hstep]
    have hall : appendAll (xs.map restored) s1 = { appendAll ((x::xs).map restored) s with
        vvTried := s1.vvTried
        nIdCount := s1.nIdCount } := by
      have hrest := append_all_rest (xs.map restored) (appendInfo s.nIdCount (restored x) s) s1.vvTried
        s1.nIdCount
      have hs1' : ({ appendInfo s.nIdCount (restored x) s with
          vvTried := s1.vvTried
          nIdCount := s1.nIdCount } : CAddrMan) = s1 := by
        rw [← hs1]
      rw [hs1'] at hrest
      rw [hrest, List.map_cons, appendAll, hid]
    have hsum : s.nIdCount+1+xs.length = s.nIdCount+(x::xs).length := by
      rw [List.length_cons]
      omega
    rw [hall, hsum]
    rfl

variable (nKey : List UInt8)

section
variable (b : Fin triedBucketCount) (n : ℕ) (xs : List CAddrInfo)

theorem mem_tried_in (k : ℕ) :
    k ∈ triedIn H nKey b n xs ↔
      ∃ j x, xs[j]? = some x ∧ getTriedBucket H nKey x.toCService = b ∧ k = n+j := by
  induction xs generalizing n with
  | nil =>
    constructor
    · intro h
      cases h
    · rintro ⟨j,x,hx,_⟩
      cases hx
  | cons y xs ih =>
    have hsplit : (∃ j x, (y::xs)[j]? = some x ∧ getTriedBucket H nKey x.toCService = b ∧ k = n+j) ↔
        (getTriedBucket H nKey y.toCService = b ∧ k = n) ∨
          ∃ j x, xs[j]? = some x ∧ getTriedBucket H nKey x.toCService = b ∧ k = n+1+j := by
      constructor
      · rintro ⟨j,x,hx,hb,hk⟩
        cases j with
        | zero =>
          rw [List.getElem?_cons_zero] at hx
          rw [← Option.some.inj hx] at hb
          exact Or.inl ⟨hb,hk⟩
        | succ j =>
          rw [List.getElem?_cons_succ] at hx
          exact Or.inr ⟨j,x,hx,hb,by omega⟩
      · rintro (⟨hb,hk⟩ | ⟨j,x,hx,hb,hk⟩)
        · exact ⟨0,y,rfl,hb,hk⟩
        · exact ⟨j+1,x,hx,hb,by omega⟩
    rw [hsplit, triedIn]
    split
    · rename_i hb
      rw [List.mem_cons, ih]
      exact or_congr ⟨fun h => ⟨hb,h⟩,fun h => h.2⟩ Iff.rfl
    · rename_i hb
      rw [ih]
      exact ⟨Or.inr,fun h => h.resolve_left fun h => hb h.1⟩

theorem tried_in_nodup :
    (triedIn H nKey b n xs).Nodup := by
  induction xs generalizing n with
  | nil => exact List.nodup_nil
  | cons y xs ih =>
    rw [triedIn]
    split
    · rw [List.nodup_cons]
      refine ⟨?_,ih (n+1)⟩
      intro hmem
      obtain ⟨j,_,_,_,hk⟩ := (mem_tried_in H nKey b (n+1) xs n).mp hmem
      omega
    · exact ih (n+1)

theorem length_tried_in :
    (triedIn H nKey b n xs).length =
      (xs.filter fun x => getTriedBucket H nKey x.toCService = b).length := by
  induction xs generalizing n with
  | nil => rfl
  | cons y xs ih =>
    rw [triedIn]
    split
    · rename_i hb
      rw [List.filter_cons, if_pos (decide_eq_true hb), List.length_cons, List.length_cons, ih]
    · rename_i hb
      rw [List.filter_cons, if_neg fun h => hb (of_decide_eq_true h), ih]

end

end Appended

section Held

structure Holds (all : List CAddrInfo) (s : CAddrMan) : Prop where
  random : s.vRandom = List.range all.length
  info : ∀ i : ℕ, s.mapInfo.lookup i = (all[i]?).map fun x => { x with nRandomPos := (i : ℤ) }
  addr : (all.map fun x => x.ip).Nodup → ∀ (i : ℕ) x, all[i]? = some x → s.mapAddr.lookup x.ip = some i

theorem holds_append (all : List CAddrInfo) (s : CAddrMan) (h : Holds all s) (x : CAddrInfo) :
    Holds (all++[x]) (appendInfo s.vRandom.length x s) := by
  have hlen : s.vRandom.length = all.length := by
    rw [h.random, List.length_range]
  unfold appendInfo
  constructor
  · dsimp only
    rw [hlen, h.random, List.length_append, List.length_singleton, List.range_succ]
  · intro i
    dsimp only
    rw [lookup_insert_if, hlen]
    by_cases hi : i = all.length
    · rw [if_pos hi, hi, List.getElem?_concat_length]
      rfl
    · rw [if_neg hi, h.info]
      by_cases hlt : i < all.length
      · rw [List.getElem?_append_left hlt]
      · rw [List.getElem?_eq_none (by omega),
          List.getElem?_eq_none (by rw [List.length_append, List.length_singleton]; omega)]
  · intro hnodup i y hy
    rw [List.map_append, List.map_singleton, List.nodup_append] at hnodup
    obtain ⟨hold,_,hdisjoint⟩ := hnodup
    dsimp only
    rw [lookup_insert_if, hlen]
    by_cases hlt : i < all.length
    · rw [List.getElem?_append_left hlt] at hy
      have hne := hdisjoint y.ip (List.mem_map.mpr ⟨y,List.mem_of_getElem? hy,rfl⟩) x.ip
        (List.mem_singleton.mpr rfl)
      rw [if_neg hne]
      exact h.addr hold i y hy
    · have hi : i = all.length := by
        have hbound := (List.getElem?_eq_some_iff.mp hy).1
        rw [List.length_append, List.length_singleton] at hbound
        omega
      rw [hi, List.getElem?_concat_length] at hy
      rw [← Option.some.inj hy, if_pos rfl, hi]

theorem holds_append_all (all xs : List CAddrInfo) (s : CAddrMan) (h : Holds all s) :
    Holds (all++xs) (appendAll xs s) := by
  induction xs generalizing all s with
  | nil =>
    rw [List.append_nil]
    exact h
  | cons x xs ih =>
    have hstep := ih (all++[x]) _ (holds_append all s h x)
    rw [List.append_assoc, List.singleton_append] at hstep
    exact hstep

end Held

section References

def addPair (p : Fin newBucketCount × ℕ) (s : CAddrMan) : CAddrMan :=
  insertNew p.1 p.2 (s.setInfo p.2 fun x => { x with nRefCount := x.nRefCount+1 })

def addPairs : List (Fin newBucketCount × ℕ) → CAddrMan → CAddrMan
  | [], s => s
  | p::ps, s => addPairs ps (addPair p s)

variable (ps : List (Fin newBucketCount × ℕ))

theorem add_pairs_append (qs : List (Fin newBucketCount × ℕ)) (s : CAddrMan) :
    addPairs (ps++qs) s = addPairs qs (addPairs ps s) := by
  induction ps generalizing s with
  | nil => rfl
  | cons p ps ih => exact ih _

theorem add_pairs_rest (s : CAddrMan) :
    addPairs ps s = { s with mapInfo := (addPairs ps s).mapInfo, vvNew := (addPairs ps s).vvNew } := by
  induction ps generalizing s with
  | nil => rfl
  | cons p ps ih => exact ih (addPair p s)

theorem add_pairs_info (s : CAddrMan) (n : ℕ) :
    (addPairs ps s).mapInfo.lookup n = (s.mapInfo.lookup n).map fun x =>
      { x with nRefCount := x.nRefCount+((ps.map Prod.snd).count n : ℕ) } := by
  induction ps generalizing s with
  | nil =>
    cases hx : s.mapInfo.lookup n with
    | none => exact hx
    | some x =>
      refine hx.trans (congrArg some ?_)
      change x = { x with nRefCount := x.nRefCount+0 }
      rw [add_zero]
  | cons p ps ih =>
    rw [addPairs, ih]
    unfold addPair insertNew CAddrMan.setInfo
    dsimp only
    rw [lookup_modify, Option.map_map, List.map_cons]
    congr 1
    funext x
    dsimp only [Function.comp]
    by_cases hn : n = p.2
    · rw [if_pos hn, hn, List.count_cons_self]
      have hsum : x.nRefCount+1+((ps.map Prod.snd).count p.2 : ℕ) =
          x.nRefCount+((ps.map Prod.snd).count p.2+1 : ℕ) := by omega
      dsimp only
      rw [hsum]
    · rw [if_neg hn, List.count_cons_of_ne (Ne.symm hn)]

theorem add_pairs_new (s : CAddrMan) (b : Fin newBucketCount) (n : ℕ) :
    n ∈ (addPairs ps s).vvNew b ↔ n ∈ s.vvNew b ∨ (b,n) ∈ ps := by
  induction ps generalizing s with
  | nil => exact ⟨Or.inl,fun h => h.resolve_right List.not_mem_nil⟩
  | cons p ps ih =>
    rw [addPairs, ih]
    unfold addPair insertNew CAddrMan.setInfo
    dsimp only
    rw [Function.update_apply, List.mem_cons]
    by_cases hb : b = p.1
    · rw [if_pos hb, Finset.mem_insert, ← hb]
      have hpair : (b,n) = p ↔ n = p.2 := by
        rw [Prod.ext_iff]
        exact ⟨fun h => h.2,fun h => ⟨hb,h⟩⟩
      rw [hpair, or_comm (a := n = p.2), or_assoc]
    · have hpair : ¬(b,n) = p := fun h => hb (congrArg Prod.fst h)
      rw [if_neg hb, or_iff_right hpair]

def Room (ps : List (Fin newBucketCount × ℕ)) (s : CAddrMan) : Prop :=
  ∀ n ∈ ps.map Prod.snd, n < 2^31 ∧ ∃ x, s.mapInfo.lookup n = some x ∧
    x.nRefCount+((ps.map Prod.snd).count n : ℕ) ≤ newBucketsPerAddress

theorem room_next {p : Fin newBucketCount × ℕ} {ps : List (Fin newBucketCount × ℕ)} {s : CAddrMan}
    (h : Room (p::ps) s) : Room ps (addPair p s) := by
  intro n hn
  obtain ⟨hlt,x,hx,hle⟩ := h n (List.mem_cons_of_mem p.2 hn)
  rw [List.map_cons] at hle
  refine ⟨hlt,(if n = p.2 then { x with nRefCount := x.nRefCount+1 } else x),?_,?_⟩
  · unfold addPair insertNew CAddrMan.setInfo
    dsimp only
    rw [lookup_modify, hx]
    rfl
  · split
    · rename_i heq
      rw [heq, List.count_cons_self] at hle
      rw [heq]
      dsimp only
      omega
    · rename_i hne
      rw [List.count_cons_of_ne (Ne.symm hne)] at hle
      exact hle

theorem room_append {ps qs : List (Fin newBucketCount × ℕ)} (s : CAddrMan) (h : Room (ps++qs) s) :
    Room qs (addPairs ps s) := by
  induction ps generalizing s with
  | nil => exact h
  | cons p ps ih => exact ih (addPair p s) (room_next h)

theorem read_indices {b : Fin newBucketCount} {ns : List ℕ} {qs : List (Fin newBucketCount × ℕ)}
    (s : CAddrMan) (rest : List UInt8) (h : Room (ns.map (fun n => (b,n))++qs) s) :
    readIndices newBucketCount b ns.length s (many (fun n : ℕ => writeInt n) ns++rest) =
      some (addPairs (ns.map fun n => (b,n)) s,rest) := by
  induction ns generalizing s with
  | nil => rfl
  | cons n ns ih =>
    obtain ⟨hlt,x,hx,hle⟩ := h n List.mem_cons_self
    rw [List.map_cons, List.cons_append, List.map_cons, List.count_cons_self] at hle
    have hfew : x.nRefCount < newBucketsPerAddress := by omega
    have hget : getDefault s.mapInfo n CAddrInfo.init = (x,s.mapInfo) := by
      unfold getDefault
      rw [hx]
    have hnext := ih (addPair (b,n) s) (room_next h)
    rw [List.length_cons, readIndices, many, List.append_assoc,
      bind_read _ _ (read_int n _ (by omega) (by omega)), if_neg (by omega)]
    simp only [Int.toNat_natCast, hget]
    rw [dif_pos ⟨b.isLt,trivial,hfew⟩]
    exact hnext

def pairsOf (vv : Fin newBucketCount → List ℕ) (bs : List (Fin newBucketCount)) :
    List (Fin newBucketCount × ℕ) :=
  bs.flatMap fun b => (vv b).map fun n => (b,n)

theorem read_buckets {vv : Fin newBucketCount → List ℕ} {bs : List (Fin newBucketCount)} (b0 : ℕ)
    (hbs : bs.map Fin.val = List.range' b0 bs.length) (s : CAddrMan) (rest : List UInt8)
    (hlen : ∀ b, (vv b).length < 2^31) (h : Room (pairsOf vv bs) s) :
    readBuckets newBucketCount bs.length b0 s
        (many (fun b => writeInt (vv b).length++many (fun n : ℕ => writeInt n) (vv b)) bs++rest) =
      some (addPairs (pairsOf vv bs) s,rest) := by
  induction bs generalizing b0 s with
  | nil => rfl
  | cons b bs ih =>
    rw [List.map_cons, List.length_cons, List.range'_succ] at hbs
    obtain ⟨hb,hbs⟩ := List.cons.inj hbs
    have hpairs : pairsOf vv (b::bs) = (vv b).map (fun n => (b,n))++pairsOf vv bs := by
      unfold pairsOf
      rw [List.flatMap_cons]
    rw [hpairs] at h ⊢
    have hread := read_indices s
      (many (fun b => writeInt (vv b).length++many (fun n : ℕ => writeInt n) (vv b)) bs++rest) h
    have hnext := ih (b0+1) hbs (addPairs ((vv b).map fun n => (b,n)) s) (room_append s h)
    rw [List.length_cons, readBuckets, many, List.append_assoc, List.append_assoc,
      bind_read _ _ (read_int _ _ (by omega) (by have := hlen b; omega)), Int.toNat_natCast, ← hb,
      bind_read _ _ hread, add_pairs_append, hb]
    exact hnext

end References

end SwippCore.AddrMan
