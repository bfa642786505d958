import SwippCore.AddrManLinks

/-!
# The calls of CAddrMan

Each call ends without a failed assertion and keeps what holds between the calls.
-/

set_option autoImplicit false

namespace SwippCore.AddrMan
open FinMap TwoWay

section Choices
variable {m : Dict ℕ CAddrInfo}

variable (rand : ℕ → ℕ)

theorem get_rand_int_lt (i nMax : ℕ) (h : 0 < nMax) : getRandInt rand i nMax < nMax := by
  unfold getRandInt
  rw [if_neg (by omega)]
  exact Nat.mod_lt _ h

theorem first_terrible_some (clock : ℕ → ℤ) (i : ℕ) {ns : List ℕ}
    (h : ∀ n ∈ ns, (m.lookup n).isSome = true) :
    ∃ r, firstTerrible m clock i ns = some r ∧ ∀ n, r = some n → n ∈ ns := by
  induction ns generalizing i with
  | nil => exact ⟨none,rfl,fun n hn => by cases hn⟩
  | cons n ns ih =>
    obtain ⟨info,hinfo⟩ := Option.isSome_iff_exists.mp (h n List.mem_cons_self)
    obtain ⟨r,hr,hmem⟩ := ih (i+1) fun k hk => h k (List.mem_cons_of_mem n hk)
    unfold firstTerrible
    rw [hinfo]
    dsimp only
    split
    · refine ⟨some n,rfl,?_⟩
      intro k hk
      rw [← Option.some.inj hk]
      exact List.mem_cons_self
    · exact ⟨r,hr,fun k hk => List.mem_cons_of_mem n (hmem k hk)⟩

/-- The oldest of the drawn entries is one of the bucket, where a draw hits the bucket. -/
theorem oldest_some (drawn : List ℕ) (nI : ℕ) (nOldest : Option ℕ) {ns : List ℕ}
    (h : ∀ n ∈ ns, (m.lookup n).isSome = true)
    (hold : ∀ n, nOldest = some n → (m.lookup n).isSome = true)
    (hhit : nOldest = none → ∃ i ∈ drawn, nI ≤ i ∧ i < nI+ns.length) :
    ∃ n, oldest m drawn nI nOldest ns = some (some n) ∧ (n ∈ ns ∨ nOldest = some n) := by
  induction ns generalizing nI nOldest with
  | nil =>
    cases nOldest with
    | none =>
      obtain ⟨i,_,hlow,hhigh⟩ := hhit rfl
      rw [List.length_nil] at hhigh
      omega
    | some n => exact ⟨n,rfl,Or.inr rfl⟩
  | cons n ns ih =>
    have hn := h n List.mem_cons_self
    have hrest := fun k hk => h k (List.mem_cons_of_mem n hk)
    have hadd : ∀ x : Option ℕ, (∃ k, oldest m drawn (nI+1) x ns = some (some k) ∧ (k ∈ ns ∨ x = some k)) →
        (x = some n ∨ x = nOldest) →
        ∃ k, oldest m drawn (nI+1) x ns = some (some k) ∧ (k ∈ n::ns ∨ nOldest = some k) := by
      rintro x ⟨k,hk,hmem⟩ hx
      refine ⟨k,hk,?_⟩
      rcases hmem with hmem | rfl
      · exact Or.inl (List.mem_cons_of_mem n hmem)
      · rcases hx with hx | hx
        · rw [Option.some.inj hx]
          exact Or.inl List.mem_cons_self
        · exact Or.inr hx.symm
    have hfound : ∀ x, (m.lookup x).isSome = true →
        ∃ k, oldest m drawn (nI+1) (some x) ns = some (some k) ∧ (k ∈ ns ∨ some x = some k) := fun x hx =>
      ih (nI+1) (some x) hrest (fun y hy => by rw [← Option.some.inj hy]; exact hx) fun hno => by cases hno
    unfold oldest
    split
    · cases nOldest with
      | none => exact hadd (some n) (hfound n hn) (Or.inl rfl)
      | some old =>
        obtain ⟨x,hx⟩ := Option.isSome_iff_exists.mp hn
        obtain ⟨y,hy⟩ := Option.isSome_iff_exists.mp (hold old rfl)
        dsimp only
        rw [hx, hy]
        dsimp only
        split
        · exact hadd (some n) (hfound n hn) (Or.inl rfl)
        · exact hadd (some old) (hfound old (hold old rfl)) (Or.inr rfl)
    · rename_i hout
      apply hadd nOldest _ (Or.inr rfl)
      apply ih (nI+1) nOldest hrest hold
      intro hnone
      obtain ⟨i,hi,hlow,hhigh⟩ := hhit hnone
      rw [List.length_cons] at hhigh
      have hne : i ≠ nI := fun heq => hout (heq ▸ hi)
      exact ⟨i,hi,by omega,by omega⟩

theorem inspect_tried_some (k i : ℕ) (vTried : List ℕ) (best : Option (ℕ × ℕ))
    (h : ∀ n ∈ vTried, (m.lookup n).isSome = true)
    (hbest : ∀ n p, best = some (n,p) → (m.lookup n).isSome = true ∧ p < vTried.length)
    (hstart : best = none → 0 < k ∧ i < vTried.length) :
    ∃ l n p, inspectTried m rand k i vTried best = some (l,some (n,p)) ∧ l.Perm vTried ∧
      p < vTried.length := by
  induction k generalizing i vTried best with
  | zero =>
    cases best with
    | none => exact absurd (hstart rfl).1 (Nat.lt_irrefl 0)
    | some b => exact ⟨vTried,b.1,b.2,rfl,List.Perm.refl vTried,(hbest b.1 b.2 rfl).2⟩
  | succ k ih =>
    unfold inspectTried
    split
    · rename_i hi
      have hpos : getRandInt rand i (vTried.length-i)+i < vTried.length := by
        have hlt := get_rand_int_lt rand i (vTried.length-i) (by omega)
        omega
      generalize getRandInt rand i (vTried.length-i)+i = nPos at hpos
      dsimp only
      rw [List.getElem?_eq_getElem hpos, List.getElem?_eq_getElem hi]
      dsimp only
      have hperm : ((vTried.set nPos vTried[i]).set i vTried[nPos]).Perm vTried :=
        List.set_set_perm hpos hi
      generalize hn : vTried[nPos] = nTemp at hperm
      have hmem : (m.lookup nTemp).isSome = true := h nTemp (hn ▸ List.getElem_mem hpos)
      have hnext : ∀ b : ℕ × ℕ, (m.lookup b.1).isSome = true → b.2 < vTried.length →
          ∃ l n p, inspectTried m rand k (i+1) ((vTried.set nPos vTried[i]).set i nTemp) (some b) =
            some (l,some (n,p)) ∧ l.Perm vTried ∧ p < vTried.length := by
        intro b hb hlt
        obtain ⟨l,n,p,heq,hl,hp⟩ := ih (i+1) ((vTried.set nPos vTried[i]).set i nTemp) (some b)
          (fun x hx => h x (hperm.mem_iff.mp hx))
          (fun n p hnp => by
            rw [Option.some.inj hnp] at hb hlt
            exact ⟨hb,hperm.length_eq ▸ hlt⟩)
          fun hno => by cases hno
        exact ⟨l,n,p,heq,hl.trans hperm,hperm.length_eq ▸ hp⟩
      cases best with
      | none => exact hnext (nTemp,nPos) hmem hpos
      | some b =>
        obtain ⟨nOldest,nOldestPos⟩ := b
        obtain ⟨hold,hlt⟩ := hbest nOldest nOldestPos rfl
        obtain ⟨x,hx⟩ := Option.isSome_iff_exists.mp hmem
        obtain ⟨y,hy⟩ := Option.isSome_iff_exists.mp hold
        dsimp only
        rw [hx, hy]
        dsimp only
        split
        · exact hnext (nTemp,nPos) hmem hpos
        · exact hnext (nOldest,nOldestPos) hold hlt
    · rename_i hi
      cases best with
      | none => exact absurd (hstart rfl).2 hi
      | some b => exact ⟨vTried,b.1,b.2,rfl,List.Perm.refl vTried,(hbest b.1 b.2 rfl).2⟩

theorem select_tried_some {vTried : List ℕ} (hne : 0 < vTried.length)
    (h : ∀ n ∈ vTried, (m.lookup n).isSome = true) :
    ∃ l p, selectTried m rand vTried = some (l,p) ∧ l.Perm vTried ∧ p < l.length := by
  obtain ⟨l,n,p,heq,hl,hp⟩ := inspect_tried_some rand triedEntriesInspectOnEvict 0 vTried none h
    (fun n p hnp => by cases hnp) fun _ => ⟨by decide,hne⟩
  refine ⟨l,p,?_,hl,hl.length_eq ▸ hp⟩
  unfold selectTried
  rw [heq]
  rfl

end Choices

section References
variable (H : AddrHash) (T : Prop) (pending : Option ℕ) (s : CAddrMan)

theorem shrink_new_some (h : Inv H T pending s) {b : Fin newBucketCount} (c : Chance)
    (hfull : (s.vvNew b).card = newBucketSize) (hp : ∀ n ∈ s.vvNew b, pending ≠ some n) :
    ∃ s' n, shrinkNew b c s = some s' ∧ Inv H T pending s' ∧ n ∈ s.vvNew b ∧ Dropped s b n s' := by
  have hmem : ∀ n, n ∈ (s.vvNew b).sort ↔ n ∈ s.vvNew b := fun n => Finset.mem_sort (· ≤ ·)
  have hlen : (s.vvNew b).sort.length = newBucketSize := (Finset.length_sort (· ≤ ·)).trans hfull
  generalize hns : (s.vvNew b).sort = ns at hmem hlen
  have hall : ∀ n ∈ ns, (s.mapInfo.lookup n).isSome = true := by
    intro n hn
    rw [← field_is_some _ core]
    exact h.bucketed.members b n ((hmem n).mp hn)
  have hdrop : ∀ n ∈ ns, ∃ s' k, (dropReference n s).map (eraseNew b n) = some s' ∧
      Inv H T pending s' ∧ k ∈ s.vvNew b ∧ Dropped s b k s' := by
    intro n hn
    obtain ⟨s',hs',hinv,hd⟩ := drop_reference_some H T pending s h ((hmem n).mp hn)
      (hp n ((hmem n).mp hn))
    exact ⟨s',n,hs',hinv,(hmem n).mp hn,hd⟩
  obtain ⟨r,hr,hfirst⟩ := first_terrible_some c.adjustedTime 0 hall
  unfold shrinkNew
  dsimp only
  rw [hns, hr]
  cases r with
  | some n => exact hdrop n (hfirst n rfl)
  | none =>
    obtain ⟨n,hn,hold⟩ := oldest_some
      ((List.range 4).map fun i => getRandInt c.rand i ns.length) 0 none hall
      (fun n hn => by cases hn) fun _ => by
        refine ⟨getRandInt c.rand 0 ns.length,
          List.mem_map.mpr ⟨0,List.mem_range.mpr (by omega),rfl⟩,Nat.zero_le _,?_⟩
        rw [Nat.zero_add]
        exact get_rand_int_lt _ _ _ (by rw [hlen]; decide)
    dsimp only
    rw [hn]
    rcases hold with hold | hold
    · exact hdrop n hold
    · cases hold

theorem add_reference_some {nId : ℕ} {addr source : CNetAddr} (c : Chance)
    (hin : nId ∈ s.vvNew (getNewBucket H s.nKey addr source) → Inv H T none s)
    (hout : nId ∉ s.vvNew (getNewBucket H s.nKey addr source) →
      Inv H T (some nId) (s.setInfo nId fun x => { x with nRefCount := x.nRefCount+1 }))
    (hsome : (s.mapInfo.lookup nId).isSome = true) :
    ∃ s', addReference H nId addr source c s = some s' ∧ Inv H T none s' := by
  unfold addReference
  dsimp only
  split
  · rename_i hmem
    exact ⟨s,rfl,hin hmem⟩
  · rename_i hmem
    have h := hout hmem
    generalize hs1 : (s.setInfo nId fun x => { x with nRefCount := x.nRefCount+1 }) = s1 at h
    have hsome1 : (field s1.mapInfo core nId).isSome = true := by
      rw [field_is_some, ← hs1]
      unfold CAddrMan.setInfo
      dsimp only
      rw [lookup_modify, Option.isSome_map]
      exact hsome
    have hvv : s1.vvNew = s.vvNew := by rw [← hs1]; rfl
    generalize getNewBucket H s.nKey addr source = b at hmem
    rw [← hvv] at hmem
    have hput : ∀ s2 : CAddrMan, Inv H T (some nId) s2 → (field s2.mapInfo core nId).isSome = true →
        nId ∉ s2.vvNew b → (s2.vvNew b).card < newBucketSize → Inv H T none (insertNew b nId s2) :=
      fun s2 h2 hsome2 hmem2 hroom => {
        linked := ⟨h2.linked.random,h2.linked.addr,h2.linked.ids⟩
        bucketed := Bucketed.put H s2.nKey _ _ _ _ _ _ nId h2.bucketed hsome2 b hmem2 hroom
        times := h2.times }
    split
    · rename_i hfull
      obtain ⟨s2,n,hs2,hinv,hn,hd⟩ := shrink_new_some H T (some nId) s1 h
        ⟨fun i => c.rand (i+1),fun i => c.adjustedTime (i+1)⟩ hfull
        (fun n hn heq => hmem (Option.some.inj heq ▸ hn))
      have hne : nId ≠ n := fun heq => hmem (heq ▸ hn)
      refine ⟨insertNew b nId s2,by rw [hs2]; rfl,?_⟩
      apply hput s2 hinv
      · rw [hd.others nId hne]
        exact hsome1
      · rw [hd.buckets, Function.update_self]
        exact fun hback => hmem (Finset.mem_erase.mp hback).2
      · rw [hd.buckets, Function.update_self, Finset.card_erase_of_mem hn, hfull]
        decide
    · rename_i hroom
      have hsize := h.bucketed.newSize b
      exact ⟨insertNew b nId s1,rfl,hput s1 h hsome1 hmem (by omega)⟩

end References

section Adding
variable (H : AddrHash) (T : Prop) (s : CAddrMan)

theorem find_some {addr : CNetAddr} {nId : ℕ} {info : CAddrInfo} (h : find s addr = some (nId,info)) :
    s.mapInfo.lookup nId = some info := by
  unfold find at h
  split at h
  · cases h
  · obtain ⟨x,hx,heq⟩ := Option.map_eq_some_iff.mp h
    obtain ⟨rfl,rfl⟩ := Prod.mk.inj heq
    exact hx

theorem find_none (h : Linked s) (addr : CNetAddr) (hnone : find s addr = none) :
    s.mapAddr.lookup addr = none := by
  unfold find at hnone
  cases hlook : s.mapAddr.lookup addr with
  | none => rfl
  | some nId =>
    rw [hlook] at hnone
    obtain ⟨x,hx,_⟩ := Option.map_eq_some_iff.mp ((h.addr addr nId).mp hlook)
    dsimp only at hnone
    rw [hx] at hnone
    cases hnone

theorem unknown_id (h : Linked s) : s.mapInfo.lookup s.nIdCount = none := by
  cases hlook : s.mapInfo.lookup s.nIdCount with
  | none => rfl
  | some x => exact absurd (h.ids _ (by rw [hlook]; rfl)) (Nat.lt_irrefl _)

theorem linked_create (h : Linked s) {addr : CAddress} (source : CNetAddr)
    (hnew : s.mapAddr.lookup addr.ip = none) : Linked (create s addr source).1 := by
  have hid := unknown_id s h
  have hnone : ∀ {α : Type} (φ : CAddrInfo → α), field s.mapInfo φ s.nIdCount = none := by
    intro α φ
    unfold field
    rw [hid]
    rfl
  unfold create
  constructor
  · dsimp only
    rw [place_push, field_insert]
    apply inverse_add _ _ h.random _ (hnone _)
    rw [place_natCast]
    exact List.getElem?_eq_none (le_refl _)
  · have hadd := inverse_add _ _ h.addr hnew (hnone _)
    dsimp only
    rw [field_insert]
    have hfun : (fun a => (s.mapAddr.insert addr.ip s.nIdCount).lookup a) =
        Function.update (fun a => s.mapAddr.lookup a) addr.ip (some s.nIdCount) := by
      funext a
      rw [Function.update_apply, lookup_insert_if]
    rw [hfun]
    exact hadd
  · intro n hn
    dsimp only at hn ⊢
    rw [lookup_insert_if] at hn
    split at hn
    · omega
    · have hlt := h.ids n hn
      omega

theorem inv_create (h : Inv H T none s) {addr : CAddress} (source : CNetAddr)
    (hnew : s.mapAddr.lookup addr.ip = none) (f : CAddrInfo → CAddrInfo)
    (hpos : ∀ x, (f x).nRandomPos = x.nRandomPos) (hcore : ∀ x, core (f x) = core x)
    (htimes : ∀ x, Timely x → Timely (f x)) :
    Inv H T (some s.nIdCount) ({ (create s addr source).1.setInfo s.nIdCount f with
      nNew := s.nNew+1 }.setInfo s.nIdCount fun x => { x with nRefCount := x.nRefCount+1 }) := by
  have hid := unknown_id s h.linked
  have hnone : field s.mapInfo core s.nIdCount = none := by
    unfold field
    rw [hid]
    rfl
  generalize hx : ({ CAddrInfo.ofAddress addr source with nRandomPos := s.vRandom.length } : CAddrInfo) = x
  have hcreate : (create s addr source).1 = { s with
      nIdCount := s.nIdCount+1
      mapInfo := s.mapInfo.insert s.nIdCount x
      mapAddr := s.mapAddr.insert addr.ip s.nIdCount
      vRandom := s.vRandom++[s.nIdCount] } := by
    rw [← hx]
    rfl
  have hl := linked_create s h.linked source hnew
  have hl1 := linked_set_info _ hl s.nIdCount f hpos fun y => congrArg (fun c => c.addr.ip) (hcore y)
  have hl2 := linked_set_info { (create s addr source).1.setInfo s.nIdCount f with nNew := s.nNew+1 }
    ⟨hl1.random,hl1.addr,hl1.ids⟩ s.nIdCount (fun x => { x with nRefCount := x.nRefCount+1 })
    (fun _ => rfl) fun _ => rfl
  have htimely : Timely x := by
    rw [← hx]
    have hzero : (0 : ℤ) ≤ (0 : BitVec 64).toInt := by decide
    exact ⟨hzero,hzero,fun hno => absurd hno Bool.false_ne_true⟩
  refine ⟨hl2,?_,?_⟩
  · have hadd := Bucketed.add H s.nKey _ _ _ _ _ _ h.bucketed s.nIdCount hnone addr.toCService
    have hx1 : (s.mapInfo.insert s.nIdCount x).lookup s.nIdCount = some x := by
      rw [lookup_insert_if, if_pos rfl]
    have hx2 : (modify (s.mapInfo.insert s.nIdCount x) s.nIdCount f).lookup s.nIdCount = some (f x) := by
      rw [lookup_modify, hx1, Option.map_some, if_pos rfl]
    have hfinal : core { f x with nRefCount := (f x).nRefCount+1 } = ⟨addr.toCService,false,1⟩ := by
      have heq := hcore x
      have haddr : (f x).toCService = x.toCService := congrArg Core.addr heq
      have htried : (f x).fInTried = x.fInTried := congrArg Core.fInTried heq
      have hcount : (f x).nRefCount = x.nRefCount := congrArg Core.nRefCount heq
      unfold core
      dsimp only
      rw [haddr, htried, hcount, ← hx]
      rfl
    have hentries : field (modify (modify (s.mapInfo.insert s.nIdCount x) s.nIdCount f) s.nIdCount
        fun y => { y with nRefCount := y.nRefCount+1 }) core =
        Function.update (field s.mapInfo core) s.nIdCount (some ⟨addr.toCService,false,1⟩) := by
      rw [field_modify_set _ _ _ hx2, field_modify_set _ _ _ hx1, field_insert,
        Function.update_idem, Function.update_idem, hfinal]
    rw [hcreate]
    unfold CAddrMan.setInfo
    dsimp only
    rw [hentries, List.length_append, List.length_singleton]
    exact hadd
  · have ht1 : T → ∀ n y, (create s addr source).1.mapInfo.lookup n = some y → Timely y := by
      intro ht n y hy
      rw [hcreate] at hy
      dsimp only at hy
      rw [lookup_insert_if] at hy
      split at hy
      · rw [← Option.some.inj hy]
        exact htimely
      · exact h.times ht n y hy
    have ht2 := times_set_info _ ht1 s.nIdCount f fun _ y _ hy => htimes y hy
    exact times_set_info { (create s addr source).1.setInfo s.nIdCount f with nNew := s.nNew+1 } ht2
      s.nIdCount (fun x => { x with nRefCount := x.nRefCount+1 })
      fun _ y _ hy => ⟨hy.tried,hy.success,hy.reached⟩

theorem add_some (h : Inv H T none s) (addr : CAddress) (source : CNetAddr) (nTimePenalty : ℤ)
    (c : Chance) : ∃ r, add_ H addr source nTimePenalty c s = some r ∧ Inv H T none r.2 := by
  unfold add_
  split
  · exact ⟨(false,s),rfl,h⟩
  · cases hf : find s addr.ip with
    | some r =>
      obtain ⟨nId,info⟩ := r
      have hinfo := find_some s hf
      dsimp only
      have h1 := inv_set_info H s h nId (refresh addr nTimePenalty (c.adjustedTime 0))
        (fun _ => rfl) (fun _ => rfl) fun _ x _ hx => ⟨hx.tried,hx.success,hx.reached⟩
      have hlook : (s.setInfo nId (refresh addr nTimePenalty (c.adjustedTime 0))).mapInfo.lookup nId =
          some (refresh addr nTimePenalty (c.adjustedTime 0) info) := by
        unfold CAddrMan.setInfo
        dsimp only
        rw [lookup_modify, hinfo, Option.map_some, if_pos rfl]
      generalize refresh addr nTimePenalty (c.adjustedTime 0) info = x at hlook
      generalize s.setInfo nId (refresh addr nTimePenalty (c.adjustedTime 0)) = s1 at h1 hlook
      split
      · rename_i hadds
        have hfew : x.fInTried = false ∧ x.nRefCount ≠ newBucketsPerAddress := by
          unfold addsReference at hadds
          split at hadds
          · cases hadds
          · split at hadds
            · cases hadds
            · rename_i ht
              split at hadds
              · cases hadds
              · rename_i hmax
                exact ⟨Bool.eq_false_iff.mpr ht,hmax⟩
        have hcore := field_some s1.mapInfo core hlook
        obtain ⟨s2,hs2,h2⟩ := add_reference_some H T s1 c (fun _ => h1)
          (fun _ => by
            have hkind := h1.bucketed.kind nId _ hcore
            have hlt : (core x).nRefCount < newBucketsPerAddress := by
              have hne : (core x).nRefCount ≠ newBucketsPerAddress := hfew.2
              rcases hkind with ⟨_,hzero⟩ | ⟨_,_,hhigh⟩
              · rw [hzero]
                decide
              · omega
            refine ⟨?_,?_,?_⟩
            · exact linked_set_info s1 h1.linked nId _ (fun _ => rfl) fun _ => rfl
            · have hexpect := Bucketed.expect H s1.nKey _ _ _ _ _ _ h1.bucketed hcore hfew.1 hlt
              unfold CAddrMan.setInfo
              dsimp only
              rw [field_modify_set _ _ _ hlook]
              unfold core
              dsimp only
              rw [hfew.1]
              exact hexpect
            · exact times_set_info s1 h1.times nId _ fun _ y _ hy => ⟨hy.tried,hy.success,hy.reached⟩)
          (by rw [hlook]; rfl)
        exact ⟨(false,s2),by rw [hs2]; rfl,h2⟩
      · exact ⟨(false,s1),rfl,h1⟩
    | none =>
      have hnew := find_none s h.linked addr.ip hf
      have hcreate := inv_create H T s h source hnew
        (fun x => { x with nTime := BitVec.ofInt 32 (max 0 ((x.nTime.toNat : ℤ)-nTimePenalty)) })
        (fun _ => rfl) (fun _ => rfl) fun x hx => ⟨hx.tried,hx.success,hx.reached⟩
      have hid : field s.mapInfo core s.nIdCount = none := by
        unfold field
        rw [unknown_id s h.linked]
        rfl
      obtain ⟨s2,hs2,h2⟩ := add_reference_some H T
        { (create s addr source).1.setInfo s.nIdCount (fun x =>
            { x with nTime := BitVec.ofInt 32 (max 0 ((x.nTime.toNat : ℤ)-nTimePenalty)) }) with
          nNew := s.nNew+1 } c
        (fun hmem => absurd hmem
          (Bucketed.not_new H s.nKey _ _ _ _ _ _ _ h.bucketed hid _))
        (fun _ => hcreate)
        (by
          unfold create CAddrMan.setInfo
          dsimp only
          rw [lookup_modify, lookup_insert_if, if_pos rfl]
          rfl)
      exact ⟨(true,s2),congrArg (Option.map fun s => (true,s)) hs2,h2⟩

end Adding

section Tried
variable (H : AddrHash) (T : Prop) (s : CAddrMan)

/-- The state of `MakeTried` once the entry is in no new bucket. -/
def unbucketed (n : ℕ) (nRefCount : ℤ) : CAddrMan :=
  { s.setInfo n fun x => { x with nRefCount := nRefCount } with
    vvNew := fun b => (s.vvNew b).erase n
    nNew := s.nNew-1 }

def replaced (n nOld : ℕ) (K : Fin triedBucketCount) (l : List ℕ) (U : Fin newBucketCount) : CAddrMan :=
  { (insertNew U nOld (s.setInfo nOld fun x => { x with fInTried := false, nRefCount := 1 })).setInfo n
      fun x => { x with fInTried := true } with
    vvTried := Function.update s.vvTried K l
    nNew := s.nNew+1 }

variable (n : ℕ) (x : CAddrInfo)

theorem linked_unbucketed (h : Linked s) (nRefCount : ℤ) : Linked (unbucketed s n nRefCount) := by
  have hl := linked_set_info s h n (fun x => { x with nRefCount := nRefCount }) (fun _ => rfl) fun _ => rfl
  exact ⟨hl.random,hl.addr,hl.ids⟩

theorem times_unbucketed (h : T → ∀ k y, s.mapInfo.lookup k = some y → Timely y) (nRefCount : ℤ) :
    T → ∀ k y, (unbucketed s n nRefCount).mapInfo.lookup k = some y → Timely y :=
  times_set_info s h n (fun x => { x with nRefCount := nRefCount })
    fun _ _ _ hy => ⟨hy.tried,hy.success,hy.reached⟩

theorem lookup_unbucketed (hx : s.mapInfo.lookup n = some x) (nRefCount : ℤ) :
    (unbucketed s n nRefCount).mapInfo.lookup n = some { x with nRefCount := nRefCount } := by
  unfold unbucketed CAddrMan.setInfo
  dsimp only
  rw [lookup_modify, hx, Option.map_some, if_pos rfl]

section
variable (h : Inv H T none s) (hx : s.mapInfo.lookup n = some x) (hnew : x.fInTried = false)
  (hreached : T → x.nLastSuccess ≠ 0)
include h hx hnew hreached

theorem place_room
    (hroom : (s.vvTried (getTriedBucket H s.nKey x.toCService)).length < triedBucketSize) :
    Inv H T none { (unbucketed s n 0).setInfo n fun y => { y with fInTried := true } with
      vvTried := Function.update s.vvTried (getTriedBucket H s.nKey x.toCService)
        (s.vvTried (getTriedBucket H s.nKey x.toCService)++[n])
      nTried := s.nTried+1 } := by
  have hcore := field_some s.mapInfo core hx
  have hx1 := lookup_unbucketed s n x hx 0
  have hl1 := linked_unbucketed s n h.linked 0
  have hl2 := linked_set_info _ hl1 n (fun y => { y with fInTried := true }) (fun _ => rfl) fun _ => rfl
  refine ⟨⟨hl2.random,hl2.addr,hl2.ids⟩,?_,?_⟩
  · have hremove := Bucketed.remove H s.nKey _ _ _ _ _ _ _ h.bucketed n _ hcore hnew
    have hpromote := Bucketed.promote H s.nKey _ _ _ _ _ _ hremove (Function.update_self ..)
      x.toCService (s.vvTried (getTriedBucket H s.nKey x.toCService)++[n])
      (List.perm_append_singleton n _) (by rw [List.length_append, List.length_singleton]; omega)
    rw [Function.update_idem, Int.sub_add_cancel] at hpromote
    have hentries : field ((unbucketed s n 0).setInfo n fun y => { y with fInTried := true }).mapInfo
        core = Function.update (field s.mapInfo core) n (some ⟨x.toCService,true,0⟩) := by
      unfold CAddrMan.setInfo
      dsimp only
      rw [field_modify_set _ _ _ hx1]
      unfold unbucketed CAddrMan.setInfo
      dsimp only
      rw [field_modify_set _ _ _ hx, Function.update_idem]
      rfl
    dsimp only
    rw [hentries]
    exact hpromote
  · apply times_set_info _ (times_unbucketed T s n h.times 0) n (fun y => { y with fInTried := true })
    intro ht y hy htime
    rw [hx1] at hy
    rw [← Option.some.inj hy] at htime ⊢
    exact ⟨htime.tried,htime.success,fun _ => hreached ht⟩

theorem place_full (l : List ℕ) (pos nOld : ℕ)
    (hl : l.Perm (s.vvTried (getTriedBucket H s.nKey x.toCService))) (hold : l[pos]? = some nOld)
    (U : Fin newBucketCount) (hroom : ((s.vvNew U).erase n).card < newBucketSize) :
    Inv H T none (replaced (unbucketed s n 0) n nOld (getTriedBucket H s.nKey x.toCService)
      (l.set pos n) U) := by
  have hcore := field_some s.mapInfo core hx
  obtain ⟨hpos,hget⟩ := List.getElem?_eq_some_iff.mp hold
  have hmem : nOld ∈ s.vvTried (getTriedBucket H s.nKey x.toCService) :=
    hl.mem_iff.mp (hget ▸ List.getElem_mem hpos)
  obtain ⟨c,hc,htried,hbucket⟩ := (h.bucketed.tried _ nOld).mp hmem
  obtain ⟨z,hz,rfl⟩ := Option.map_eq_some_iff.mp hc
  have hne : nOld ≠ n := by
    intro heq
    rw [heq, hx] at hz
    rw [← Option.some.inj hz] at htried
    exact Bool.false_ne_true (hnew.symm.trans htried)
  have hx1 := lookup_unbucketed s n x hx 0
  have hz1 : (unbucketed s n 0).mapInfo.lookup nOld = some z := by
    unfold unbucketed CAddrMan.setInfo
    dsimp only
    rw [lookup_modify, hz, Option.map_some, if_neg hne]
  have hx2 : ((unbucketed s n 0).setInfo nOld fun x => { x with fInTried := false, nRefCount := 1 }).mapInfo.lookup
      n = some { x with nRefCount := 0 } := by
    unfold CAddrMan.setInfo
    dsimp only
    rw [lookup_modify, hx1, Option.map_some, if_neg (Ne.symm hne)]
  have hl1 := linked_unbucketed s n h.linked 0
  have hl2 := linked_set_info _ hl1 nOld (fun x => { x with fInTried := false, nRefCount := 1 })
    (fun _ => rfl) fun _ => rfl
  have hl3 := linked_set_info _ hl2 n (fun y => { y with fInTried := true }) (fun _ => rfl) fun _ => rfl
  refine ⟨⟨hl3.random,hl3.addr,hl3.ids⟩,?_,?_⟩
  · have hremove := Bucketed.remove H s.nKey _ _ _ _ _ _ _ h.bucketed n _ hcore hnew
    have holdrest : l.Perm (nOld::l.eraseIdx pos) := by
      have hperm := List.getElem_cons_eraseIdx_perm hpos
      rw [hget] at hperm
      exact hperm.symm
    have hdemote := Bucketed.demote H s.nKey _ _ _ _ _ _ hremove
      ((Function.update_of_ne hne ..).trans hc) htried (l.eraseIdx pos)
      (by rw [← hbucket]; exact hl.symm.trans holdrest) hroom
    rw [← hbucket] at hdemote
    have hpromote := Bucketed.promote H s.nKey _ _ _ _ _ _ hdemote
      ((Function.update_of_ne (Ne.symm hne) ..).trans (Function.update_self ..)) x.toCService
      (l.set pos n)
      (by rw [Function.update_self]; exact List.set_perm_cons_eraseIdx hpos n)
      (by rw [List.length_set, hl.length_eq]; exact h.bucketed.triedSize _)
    rw [Function.update_idem, Int.sub_add_cancel s.nTried 1,
      Int.sub_add_cancel (s.vRandom.length : ℤ) 1] at hpromote
    have hentries : field (((unbucketed s n 0).setInfo nOld
        fun x => { x with fInTried := false, nRefCount := 1 }).setInfo n
          fun y => { y with fInTried := true }).mapInfo core =
        Function.update (Function.update (Function.update (field s.mapInfo core) n none) nOld
          (some ⟨(core z).addr,false,1⟩)) n (some ⟨x.toCService,true,0⟩) := by
      unfold CAddrMan.setInfo at hx2 ⊢
      dsimp only at hx2 ⊢
      rw [field_modify_set _ _ _ hx2, field_modify_set _ _ _ hz1]
      unfold unbucketed CAddrMan.setInfo
      dsimp only
      rw [field_modify_set _ _ _ hx]
      funext k
      simp only [Function.update_apply]
      split_ifs <;> rfl
    rw [← hentries] at hpromote
    exact hpromote
  · have ht1 := times_set_info _ (times_unbucketed T s n h.times 0) nOld
      (fun x => { x with fInTried := false, nRefCount := 1 })
      fun _ y _ hy => ⟨hy.tried,hy.success,fun hno => absurd hno Bool.false_ne_true⟩
    apply times_set_info _ ht1 n (fun y => { y with fInTried := true })
    intro ht y hy htime
    have heq := hx2.symm.trans hy
    rw [← Option.some.inj heq] at htime ⊢
    exact ⟨htime.tried,htime.success,fun _ => hreached ht⟩

theorem make_tried_some {nOrigin : Fin newBucketCount}
    (horigin : n ∈ s.vvNew nOrigin) (rand : ℕ → ℕ) :
    ∃ s', makeTried H n nOrigin rand s = some s' ∧ Inv H T none s' := by
  have hcore := field_some s.mapInfo core hx
  have hrefs : x.nRefCount-refs s.vvNew n = 0 := by
    have hcount := h.bucketed.refs n _ hcore
    rw [if_neg (by simp)] at hcount
    have hcount' : x.nRefCount = refs s.vvNew n+0 := hcount
    omega
  have hmake : makeTried H n nOrigin rand s = placeTried H n x nOrigin rand (unbucketed s n 0) := by
    unfold makeTried
    rw [hx]
    dsimp only
    rw [if_neg (not_not.mpr horigin), hrefs, if_neg (not_not.mpr rfl)]
    rfl
  rw [hmake]
  unfold placeTried
  dsimp only
  split
  · rename_i hroom
    exact ⟨_,rfl,place_room H T s n x h hx hnew hreached hroom⟩
  · rename_i hfull
    have hbound : ∀ k ∈ s.vvTried (getTriedBucket H s.nKey x.toCService),
        ((unbucketed s n 0).mapInfo.lookup k).isSome = true := by
      intro k hk
      obtain ⟨c,hc,_⟩ := (h.bucketed.tried _ k).mp hk
      have hsome : (field s.mapInfo core k).isSome = true := by rw [hc]; rfl
      rw [field_is_some] at hsome
      unfold unbucketed CAddrMan.setInfo
      dsimp only
      rw [lookup_modify, Option.isSome_map]
      exact hsome
    have hlen : triedBucketSize ≤ (s.vvTried (getTriedBucket H s.nKey x.toCService)).length :=
      Nat.le_of_not_lt hfull
    obtain ⟨l,pos,hsel,hl,hpos⟩ := select_tried_some rand
      (lt_of_lt_of_le (by decide) hlen) hbound
    have hold : l[pos]? = some l[pos] := List.getElem?_eq_getElem hpos
    obtain ⟨y,hy⟩ := Option.isSome_iff_exists.mp
      (hbound l[pos] (hl.mem_iff.mp (List.getElem_mem hpos)))
    have hsel' : selectTried (unbucketed s n 0).mapInfo rand ((unbucketed s n 0).vvTried
        (getTriedBucket H (unbucketed s n 0).nKey x.toCService)) = some (l,pos) := hsel
    rw [hsel', Option.bind_some]
    dsimp only
    rw [hold]
    dsimp only
    rw [hy]
    refine ⟨_,rfl,place_full H T s n x h hx hnew hreached l pos l[pos] hl hold _ ?_⟩
    have herase : ((s.vvNew nOrigin).erase n).card < newBucketSize := by
      rw [Finset.card_erase_of_mem horigin]
      have hsize := h.bucketed.newSize nOrigin
      have hpositive := Finset.card_pos.mpr ⟨n,horigin⟩
      omega
    split
    · rename_i hroom
      exact hroom
    · exact herase

end

theorem good_some (h : Inv H T none s) (addr : CService) {nTime : BitVec 64} (rand : ℕ → ℕ)
    (hT : T → 0 < nTime.toInt) : ∃ s', good_ H addr nTime rand s = some s' ∧ Inv H T none s' := by
  have hne : T → nTime ≠ 0 := by
    intro ht heq
    have hpos := hT ht
    rw [heq] at hpos
    exact absurd hpos (by decide)
  unfold good_
  cases hf : find s addr.ip with
  | none => exact ⟨s,rfl,h⟩
  | some r =>
    obtain ⟨nId,info⟩ := r
    have hinfo := find_some s hf
    dsimp only
    split
    · exact ⟨s,rfl,h⟩
    · generalize hfun : (fun y : CAddrInfo => ({ y with
        nLastSuccess := nTime
        nLastTry := nTime
        nTime := nTime.setWidth 32
        nAttempts := 0 } : CAddrInfo)) = f
      have hfx : ∀ y, (f y).nLastSuccess = nTime ∧ (f y).fInTried = y.fInTried := by
        rw [← hfun]
        exact fun y => ⟨rfl,rfl⟩
      have h1 : Inv H T none (s.setInfo nId f) := by
        apply inv_set_info H s h nId f
        · rw [← hfun]
          exact fun _ => rfl
        · rw [← hfun]
          exact fun _ => rfl
        · rw [← hfun]
          intro ht y _ _
          have hpos := hT ht
          exact ⟨le_of_lt hpos,le_of_lt hpos,fun _ => hne ht⟩
      split
      · exact ⟨_,rfl,h1⟩
      · rename_i htried
        split
        · exact ⟨_,rfl,h1⟩
        · rename_i b hb
          have hmem : nId ∈ (s.setInfo nId f).vvNew b := by
            simpa using List.find?_some hb
          have hlook : (s.setInfo nId f).mapInfo.lookup nId = some (f info) := by
            unfold CAddrMan.setInfo
            dsimp only
            rw [lookup_modify, hinfo, Option.map_some, if_pos rfl]
          apply make_tried_some H T _ nId (f info) h1 hlook _ _ hmem
          · rw [(hfx info).2]
            exact Bool.eq_false_iff.mpr htried
          · rw [(hfx info).1]
            exact hne

end Tried

section Runs
variable (H : AddrHash) (T : Prop) (s : CAddrMan)

theorem attempt_keeps (h : Inv H T none s) (addr : CService) {nTime : BitVec 64}
    (hT : T → 0 ≤ nTime.toInt) : Inv H T none (attempt_ addr nTime s) := by
  unfold attempt_
  split
  · exact h
  · split
    · exact h
    · exact inv_set_info H s h _ _ (fun _ => rfl) (fun _ => rfl)
        fun ht y _ hy => ⟨hT ht,hy.success,hy.reached⟩

theorem connected_keeps (h : Inv H T none s) (addr : CService) (nTime : BitVec 64) :
    Inv H T none (connected_ addr nTime s) := by
  unfold connected_
  split
  · exact h
  · split
    · exact h
    · split
      · exact inv_set_info H s h _ _ (fun _ => rfl) (fun _ => rfl)
          fun _ y _ hy => ⟨hy.tried,hy.success,hy.reached⟩
      · exact h

theorem add_all_some (source : CNetAddr) (nTimePenalty : ℤ) (vAddr : List (CAddress × Chance))
    (h : Inv H T none s) :
    ∃ s', addAll H source nTimePenalty vAddr s = some s' ∧ Inv H T none s' := by
  induction vAddr generalizing s with
  | nil => exact ⟨s,rfl,h⟩
  | cons x vAddr ih =>
    obtain ⟨r,hr,h1⟩ := add_some H T s h x.1 source nTimePenalty x.2
    obtain ⟨s',hs',h2⟩ := ih r.2 h1
    refine ⟨s',?_,h2⟩
    unfold addAll
    rw [hr]
    exact hs'

theorem gather_some (c : Chance) (nNodes k n : ℕ) (vAddr : List CAddress) (h : Inv H T none s)
    (hk : n+k = s.vRandom.length) :
    ∃ r, gather c nNodes k n vAddr s = some r ∧ Inv H T none r.2 := by
  induction k generalizing n vAddr s with
  | zero => exact ⟨(vAddr,s),rfl,h⟩
  | succ k ih =>
    unfold gather
    split
    · exact ⟨(vAddr,s),rfl,h⟩
    · have hlt := get_rand_int_lt c.rand n (s.vRandom.length-n) (by omega)
      obtain ⟨s1,hs1,hl1,hm1,_⟩ := swap_random_some s h.linked n
        (getRandInt c.rand n (s.vRandom.length-n)+n) (by omega) (by omega)
      have h1 := inv_moved H s h hl1 hm1
      have hn : n < s1.vRandom.length := by
        rw [hm1.length]
        omega
      obtain ⟨x,hx⟩ := Option.isSome_iff_exists.mp
        ((mem_random H s1 h1 s1.vRandom[n]).mp (List.getElem_mem hn))
      rw [hs1, Option.bind_some, List.getElem?_eq_getElem hn]
      dsimp only
      rw [hx]
      exact ih s1 (n+1) _ h1 (by rw [hm1.length]; omega)

theorem get_addr_some (h : Inv H T none s) (c : Chance) :
    ∃ r, getAddr_ c s = some r ∧ Inv H T none r.2 :=
  gather_some H T s c _ s.vRandom.length 0 [] h (Nat.zero_add _)

theorem look_some (m : FinMap.Dict ℕ CAddrInfo) (bucket : ℕ → List ℕ)
    (h : ∀ r, ∀ n ∈ bucket r, (m.lookup n).isSome = true) (ts : List Turn) :
    ∃ r, look m bucket ts = some r := by
  induction ts with
  | nil => exact ⟨none,rfl⟩
  | cons t ts ih =>
    unfold look
    dsimp only
    split
    · exact ih
    · rename_i hne
      have hpos : 0 < (bucket t.bucket).length :=
        List.length_pos_iff.mpr fun hnil => hne (by rw [hnil]; rfl)
      have hlt := Nat.mod_lt t.pos hpos
      obtain ⟨x,hx⟩ := Option.isSome_iff_exists.mp (h t.bucket _ (List.getElem_mem hlt))
      rw [List.getElem?_eq_getElem hlt, Option.bind_some, hx]
      dsimp only
      split
      · exact ⟨_,rfl⟩
      · exact ih

theorem select_some (h : Inv H T none s) (fTried : Bool) (ts : List Turn) :
    ∃ r, select_ fTried ts s = some r := by
  unfold select_
  split
  · exact ⟨none,rfl⟩
  · split
    · apply look_some
      intro r n hn
      obtain ⟨c,hc,_⟩ := (h.bucketed.tried _ n).mp hn
      rw [← field_is_some _ core, hc]
      rfl
    · apply look_some
      intro r n hn
      rw [← field_is_some _ core]
      exact h.bucketed.members _ n ((Finset.mem_sort (· ≤ ·)).mp hn)

def Call.Timely : Call → Prop
  | .good _ nTime _ => 0 < nTime.toInt
  | .attempt _ nTime => 0 ≤ nTime.toInt
  | _ => True

theorem step_some (h : Inv H T none s) (call : Call) (hT : T → call.Timely) :
    ∃ s', step H call s = some s' ∧ Inv H T none s' := by
  cases call with
  | add vAddr source nTimePenalty => exact add_all_some H T s source nTimePenalty vAddr h
  | good addr nTime rand => exact good_some H T s h addr rand hT
  | attempt addr nTime => exact ⟨_,rfl,attempt_keeps H T s h addr hT⟩
  | connected addr nTime => exact ⟨_,rfl,connected_keeps H T s h addr nTime⟩
  | getAddr c =>
    obtain ⟨r,hr,h1⟩ := get_addr_some H T s h c
    exact ⟨r.2,congrArg (Option.map Prod.snd) hr,h1⟩
  | select fTried ts =>
    obtain ⟨r,hr⟩ := select_some H T s h fTried ts
    exact ⟨s,congrArg (Option.map fun _ => s) hr,h⟩

theorem inv_new (nKey : List UInt8) : Inv H T none (CAddrMan.new nKey) where
  linked := {
    random := fun i n => by
      constructor
      · intro h
        have hlt := (place_some h).2.1
        have h0 := (place_some h).1
        change i < 0 at hlt
        omega
      · intro h
        cases h
    addr := fun a n => by
      constructor
      · intro h
        cases h
      · intro h
        cases h
    ids := fun n h => by cases h }
  bucketed := {
    tried := fun b n => by
      constructor
      · intro h
        cases h
      · rintro ⟨x,hx,_⟩
        cases hx
    triedNodup := fun b => List.nodup_nil
    triedSize := fun b => Nat.zero_le _
    refs := fun n x h => by cases h
    kind := fun n x h => by cases h
    members := fun b n h => absurd h (Finset.notMem_empty n)
    newSize := fun b => Nat.zero_le _
    triedCount := by
      change (0 : ℤ) = ((∑ b : Fin triedBucketCount, ([] : List ℕ).length : ℕ) : ℤ)
      rw [List.length_nil, Finset.sum_const_zero]
      rfl
    allCount := rfl }
  times _ n x h := by cases h

/-- No assertion fails in a run, and every state has its buckets and tables in order. -/
theorem run_some {calls : List Call} (h : Inv H T none s) (hT : T → ∀ call ∈ calls, call.Timely) :
    ∃ s', run H calls s = some s' ∧ Inv H T none s' := by
  induction calls generalizing s with
  | nil => exact ⟨s,rfl,h⟩
  | cons call calls ih =>
    obtain ⟨s1,hs1,h1⟩ := step_some H T s h call fun ht => hT ht call List.mem_cons_self
    obtain ⟨s2,hs2,h2⟩ := ih s1 h1 fun ht c hc => hT ht c (List.mem_cons_of_mem call hc)
    exact ⟨s2,by unfold run; rw [hs1]; exact hs2,h2⟩

end Runs

end SwippCore.AddrMan
