import SwippCore.InstantXVotes

/-!
# A request among its votes

Votes may arrive before the request. They wait in a lock of height zero, which
is never complete; the request sets the height but does not look at the count.
So the lock is completed by the first fresh vote after the request at which the
count is reached, and by nothing else. The vote that the node files for itself
when it accepts the request is never counted by the node.
-/

set_option autoImplicit false

namespace SwippCore.InstantXRequest
open FinMap InstantX InstantXBooks InstantXVotes FirstByKey

variable (hashTx : CTransaction → Uint256)

/-- A request that the node accepts, first seen here, for inputs that are old
enough and not locked. -/
structure Requested (A : View) (tx : CTransaction) (nBlockHeight : ℤ) (s : State) : Prop where
  notDropped : requestDropped hashTx A tx s = false
  accepted : A.acceptToMemoryPool tx = true
  inputs : tx.vin ≠ []
  height : ∃ nTxAge, inputAges A 0 tx.vin.reverse = some nTxAge ∧
    nBlockHeight = A.nBestHeight-nTxAge+4
  nonzero : nBlockHeight ≠ 0
  noLock : s.mapTxLocks.lookup (hashTx tx) = none
  unlocked : ∀ o ∈ tx.prevouts, s.mapLockedInputs.lookup o = none

def ValidVotes (h : Uint256) (nBlockHeight : ℤ) (ms : List (View × CConsensusVote)) : Prop :=
  ∀ m ∈ ms, Handling m.1 ∧ voteAccepted m.1 m.2 = true ∧ m.2.txHash = h ∧
    m.2.nBlockHeight = nBlockHeight

def hashes (ms : List (View × CConsensusVote)) : List Uint256 :=
  ms.map (fun m => m.2.getHash)

def before (s : State) (pre : List (View × CConsensusVote)) : List CConsensusVote :=
  firsts CConsensusVote.getHash (seen s) (pre.map Prod.snd)

def after (s : State) (A : View) (tx : CTransaction) (nBlockHeight : ℤ)
    (pre post : List (View × CConsensusVote)) : List CConsensusVote :=
  firsts CConsensusVote.getHash (fun k =>
    ((ownVote A (hashTx tx) nBlockHeight).map CConsensusVote.getHash == some k) ||
      (k ∈ hashes pre || seen s k)) (post.map Prod.snd)

def InTime (s : State) (A : View) (tx : CTransaction) (nBlockHeight : ℤ)
    (pre post : List (View × CConsensusVote)) : Prop :=
  after hashTx s A tx nBlockHeight pre post ≠ [] ∧ instantxSignaturesRequired ≤
    (before s pre).length+(after hashTx s A tx nBlockHeight pre post).length

variable {hashTx}

structure Waiting (h : Uint256) (vs : List CConsensusVote) (s : State) : Prop where
  none : s.mapTxLocks.lookup h = none → vs = []
  some : ∀ l, s.mapTxLocks.lookup h = some l → l.nBlockHeight = 0 ∧ l.vecConsensusVotes = vs

theorem seen_insert (s : State) (v : CConsensusVote) (k : Uint256) :
    decide (k ∈ s.mapTxLockVote.insert v.getHash v) = (k == v.getHash || seen s k) := by
  by_cases hk : k = v.getHash <;> simp [AList.mem_insert, seen, hk]

theorem mem_hashes_cons (m : View × CConsensusVote) (ms : List (View × CConsensusVote))
    (k : Uint256) : decide (k ∈ hashes (m::ms)) = (k == m.2.getHash || k ∈ hashes ms) := by
  rw [Bool.eq_iff_iff]
  simp only [Bool.or_eq_true, decide_eq_true_eq, beq_iff_eq]
  simp [hashes]

variable (hashTx)

theorem waiting_step {A : View} (hA : Handling A) {h : Uint256} {v : CConsensusVote}
    (hv : voteAccepted A v = true) (hvh : v.txHash = h) {vs : List CConsensusVote} {s : State}
    (hw : Waiting h vs s) (hs : seen s v.getHash = false) :
    Waiting h (vs++[v]) (txlvote hashTx A v s) ∧
    (txlvote hashTx A v s).mapTxLockReq = s.mapTxLockReq ∧
    (txlvote hashTx A v s).mapTxLockReqRejected = s.mapTxLockReqRejected ∧
    (txlvote hashTx A v s).mapLockedInputs = s.mapLockedInputs ∧
    seen (txlvote hashTx A v s) = (fun k => k == v.getHash || seen s k) := by
  have hfresh : v.getHash ∉ s.mapTxLockVote := by simpa [seen] using hs
  obtain ⟨unknown,inv,he⟩ := txlvote_counted hashTx hA hfresh hv
  have hlock : (lockFor A v.txHash s).nBlockHeight = 0 ∧
      (lockFor A v.txHash s).vecConsensusVotes = vs := by
    rw [hvh]
    cases hl : s.mapTxLocks.lookup h with
    | none => simp [lockFor, hl, hw.none hl]
    | some l =>
      rw [lock_for_lookup A hl]
      exact hw.some l hl
  have hcount : ¬ instantxSignaturesRequired ≤
      ((lockFor A v.txHash s).addSignature v).countSignatures := by
    simp [CTransactionLock.countSignatures, CTransactionLock.addSignature, hlock.1,
      instantxSignaturesRequired]
  rw [if_neg hcount] at he
  rw [he]
  refine ⟨⟨?_,?_⟩,rfl,rfl,rfl,funext (seen_insert s v)⟩
  · intro hn
    simp [fileVote, hvh] at hn
  · intro l hl
    simp only [fileVote, hvh, AList.lookup_insert, Option.some.injEq] at hl
    rw [← hl]
    rw [hvh] at hlock
    exact ⟨hlock.1,by rw [CTransactionLock.addSignature, hlock.2]⟩

theorem waiting_deliver {h : Uint256} {n : ℤ} {ms : List (View × CConsensusVote)}
    (hms : ValidVotes h n ms) (vs : List CConsensusVote) (s : State) (hw : Waiting h vs s) :
    Waiting h (vs++before s ms) (deliver hashTx ms s) ∧
    (deliver hashTx ms s).mapTxLockReq = s.mapTxLockReq ∧
    (deliver hashTx ms s).mapTxLockReqRejected = s.mapTxLockReqRejected ∧
    (deliver hashTx ms s).mapLockedInputs = s.mapLockedInputs ∧
    seen (deliver hashTx ms s) = (fun k => k ∈ hashes ms || seen s k) := by
  induction ms generalizing vs s with
  | nil => simpa [before, firsts, deliver, hashes] using hw
  | cons m ms ih =>
    obtain ⟨hA,hv,hvh,-⟩ := hms m List.mem_cons_self
    have hms' : ValidVotes h n ms := fun x hx => hms x (List.mem_cons_of_mem m hx)
    rw [deliver, before, List.map_cons, firsts]
    split_ifs with hs
    · rw [txlvote_seen (by simpa [seen] using hs)]
      obtain ⟨h1,h2,h3,h4,h5⟩ := ih hms' vs s hw
      refine ⟨h1,h2,h3,h4,h5.trans (funext fun k => ?_)⟩
      rw [mem_hashes_cons]
      cases hk : k == m.2.getHash with
      | false => rfl
      | true => simp [eq_of_beq hk, hs]
    · obtain ⟨w1,w2,w3,w4,w5⟩ := waiting_step hashTx hA hv hvh hw (by simpa using hs)
      obtain ⟨h1,h2,h3,h4,h5⟩ := ih hms' _ _ w1
      refine ⟨?_,h2.trans w2,h3.trans w3,h4.trans w4,h5.trans (funext fun k => ?_)⟩
      · rw [before, w5, List.append_assoc] at h1
        exact h1
      · rw [w5, mem_hashes_cons, Bool.or_left_comm, Bool.or_assoc]

structure Open (tx : CTransaction) (n : ℤ) (vs : List CConsensusVote) (s : State) : Prop where
  request : s.mapTxLockReq.lookup (hashTx tx) = some tx
  lock : ∃ l, s.mapTxLocks.lookup (hashTx tx) = some l ∧ l.nBlockHeight = n ∧
    l.vecConsensusVotes = vs
  heights : ∀ v ∈ vs, v.nBlockHeight = n
  free : ∀ o ∈ tx.prevouts, ∀ k, s.mapLockedInputs.lookup o = some k → k = hashTx tx

variable {hashTx}

theorem count_of_heights {l : CTransactionLock} (hn : l.nBlockHeight ≠ 0)
    (h : ∀ v ∈ l.vecConsensusVotes, v.nBlockHeight = l.nBlockHeight) :
    l.countSignatures = l.vecConsensusVotes.length := by
  have : l.countedVotes = l.vecConsensusVotes :=
    List.filter_eq_self.mpr (fun v hv => by simpa using h v hv)
  rw [CTransactionLock.countSignatures, if_neg hn, this]

theorem open_step {A : View} (hA : Handling A) {tx : CTransaction} {n : ℤ} (hn : n ≠ 0)
    {v : CConsensusVote} (hv : voteAccepted A v = true) (hvh : v.txHash = hashTx tx)
    (hvn : v.nBlockHeight = n) {vs : List CConsensusVote} {s : State}
    (ho : Open hashTx tx n vs s) (hs : seen s v.getHash = false) :
    Open hashTx tx n (vs++[v]) (txlvote hashTx A v s) ∧
    seen (txlvote hashTx A v s) = (fun k => k == v.getHash || seen s k) ∧
    ∀ o ∈ tx.prevouts, (txlvote hashTx A v s).mapLockedInputs.lookup o = some (hashTx tx) ↔
      s.mapLockedInputs.lookup o = some (hashTx tx) ∨
        instantxSignaturesRequired ≤ (vs++[v]).length := by
  have hfresh : v.getHash ∉ s.mapTxLockVote := by simpa [seen] using hs
  obtain ⟨unknown,inv,he⟩ := txlvote_counted hashTx hA hfresh hv
  obtain ⟨l,hl,hln,hlv⟩ := ho.lock
  have hlock : lockFor A v.txHash s = l := by
    rw [hvh]
    exact lock_for_lookup A hl
  have heights : ∀ w ∈ vs++[v], w.nBlockHeight = n := by
    intro w hw
    rcases List.mem_append.mp hw with hw | hw
    · exact ho.heights w hw
    · rw [List.mem_singleton.mp hw]
      exact hvn
  have hadd : (l.addSignature v).nBlockHeight = n ∧ (l.addSignature v).vecConsensusVotes = vs++[v] :=
    ⟨hln,by rw [CTransactionLock.addSignature, hlv]⟩
  have hcount : (l.addSignature v).countSignatures = (vs++[v]).length := by
    rw [count_of_heights (by rw [hadd.1]; exact hn) (by rw [hadd.1, hadd.2]; exact heights), hadd.2]
  have hfile : (fileVote A v s).mapTxLocks.lookup (hashTx tx) = some (l.addSignature v) := by
    rw [fileVote, hlock, ← hvh]
    exact AList.lookup_insert _
  rw [hlock, hcount] at he
  rw [he]
  split_ifs with hc
  · have hget : getDefault (fileVote A v s).mapTxLockReq v.txHash (nullTransaction A) =
        (tx,s.mapTxLockReq) := by
      have hreq : s.mapTxLockReq.lookup v.txHash = some tx := hvh ▸ ho.request
      simp only [getDefault, fileVote, hreq]
    have hconf : (checkForConflictingLocks A.time (hashTx tx) (fileVote A v s).mapLockedInputs
        tx.prevouts (fileVote A v s).mapTxLocks).1 = false :=
      (conflict_false_iff _ _ _ _ _).mpr ho.free
    have hlocks := conflict_false_locks hconf
    have hlocked : ∀ o k, (lockInputs v.txHash tx.prevouts s.mapLockedInputs).lookup o = some k ↔
        s.mapLockedInputs.lookup o = some k ∨
          s.mapLockedInputs.lookup o = none ∧ o ∈ tx.prevouts ∧ k = hashTx tx := by
      intro o k
      rw [lookup_lock_inputs, hvh]
    simp only [completeLock, hget, hconf, hlocks]
    refine ⟨⟨ho.request,⟨_,hfile,hadd⟩,heights,?_⟩,?_,?_⟩
    · intro o hot k hk
      rcases (hlocked o k).mp hk with hk | ⟨-,-,hk⟩
      · exact ho.free o hot k hk
      · exact hk
    · exact funext (seen_insert s v)
    · intro o hot
      refine ⟨fun _ => Or.inr hc,fun _ => (hlocked o _).mpr ?_⟩
      cases hk : s.mapLockedInputs.lookup o with
      | none => exact Or.inr ⟨rfl,hot,rfl⟩
      | some k => exact Or.inl (by rw [ho.free o hot k hk])
  · refine ⟨⟨ho.request,⟨_,hfile,hadd⟩,heights,ho.free⟩,funext (seen_insert s v),?_⟩
    intro o _
    simp only [hc, or_false]
    rfl

/-- The votes after the request: the lock is completed when the count is reached
at one of them. -/
theorem open_deliver {tx : CTransaction} {n : ℤ} (hn : n ≠ 0) {ms : List (View × CConsensusVote)}
    (hms : ValidVotes (hashTx tx) n ms) (vs : List CConsensusVote) (s : State)
    (ho : Open hashTx tx n vs s) :
    (deliver hashTx ms s).mapTxLockReq.lookup (hashTx tx) = some tx ∧
    ∀ o ∈ tx.prevouts, (deliver hashTx ms s).mapLockedInputs.lookup o = some (hashTx tx) ↔
      s.mapLockedInputs.lookup o = some (hashTx tx) ∨
        (before s ms ≠ [] ∧ instantxSignaturesRequired ≤ vs.length+(before s ms).length) := by
  induction ms generalizing vs s with
  | nil => exact ⟨ho.request,fun o _ => by simp [before, firsts, deliver]⟩
  | cons m ms ih =>
    obtain ⟨hA,hv,hvh,hvn⟩ := hms m List.mem_cons_self
    have hms' : ValidVotes (hashTx tx) n ms := fun x hx => hms x (List.mem_cons_of_mem m hx)
    rw [deliver, before, List.map_cons, firsts]
    split_ifs with hs
    · rw [txlvote_seen (by simpa [seen] using hs)]
      exact ih hms' vs s ho
    · obtain ⟨h1,h2,h3⟩ := open_step hA hn hv hvh hvn ho (by simpa using hs)
      obtain ⟨i1,i2⟩ := ih hms' _ _ h1
      refine ⟨i1,fun o hot => ?_⟩
      rw [i2 o hot, h3 o hot, before, h2]
      simp only [List.length_append, List.length_cons, List.length_nil, ne_eq, reduceCtorEq,
        not_false_eq_true, true_and]
      generalize firsts CConsensusVote.getHash (fun k => k == m.2.getHash || seen s k)
        (ms.map Prod.snd) = later
      cases later with
      | nil => simp
      | cons w ws =>
        simp only [reduceCtorEq, not_false_eq_true, true_and, List.length_cons]
        rw [or_assoc]
        refine or_congr Iff.rfl ?_
        push_cast
        constructor <;> intro h <;> omega

section
variable {A : View} {tx : CTransaction} {n : ℤ} {s : State} (hr : Requested hashTx A tx n s)
include hr

theorem request_step {pre : List (View × CConsensusVote)}
    (hpre : ValidVotes (hashTx tx) n pre) :
    Open hashTx tx n (before s pre) (txlreq hashTx A tx (deliver hashTx pre s)) ∧
    (txlreq hashTx A tx (deliver hashTx pre s)).mapLockedInputs = s.mapLockedInputs ∧
    seen (txlreq hashTx A tx (deliver hashTx pre s)) = (fun k =>
      ((ownVote A (hashTx tx) n).map CConsensusVote.getHash == some k) ||
        (k ∈ hashes pre || seen s k)) := by
  have hw0 : Waiting (hashTx tx) [] s := ⟨fun _ => rfl,fun l hl => by simp [hr.noLock] at hl⟩
  obtain ⟨hw,hreq,hrej,hlocked,hseen⟩ := waiting_deliver hashTx hpre [] s hw0
  rw [List.nil_append] at hw
  set t := deliver hashTx pre s
  have hd : requestDropped hashTx A tx t = false := by
    have := hr.notDropped
    simpa only [requestDropped, hreq, hrej] using this
  obtain ⟨a,ha,hna⟩ := hr.height
  have hn : t.mapTxLockReq.lookup (hashTx tx) = none := by
    simp only [requestDropped, Bool.or_eq_false_iff, decide_eq_false_iff_not] at hd
    exact AList.lookup_eq_none.mpr hd.1.1.1.2
  obtain ⟨l,hnew,hl,hln⟩ : ∃ l : CTransactionLock, createNewLock hashTx A tx t =
      (n,{ t with mapTxLocks := t.mapTxLocks.insert (hashTx tx) l }) ∧
      l.vecConsensusVotes = before s pre ∧ l.nBlockHeight = n := by
    simp only [createNewLock, ha, ← hna]
    cases hm : t.mapTxLocks.lookup (hashTx tx) with
    | none => exact ⟨_,rfl,(hw.none hm).symm,rfl⟩
    | some m => exact ⟨_,rfl,(hw.some m hm).2,rfl⟩
  have heights : ∀ v ∈ before s pre, v.nBlockHeight = n := by
    intro v hv
    obtain ⟨m,hm,rfl⟩ := List.mem_map.mp (firsts_subset hv)
    exact (hpre m hm).2.2.2
  have hfree : ∀ o ∈ tx.prevouts, ∀ k, t.mapLockedInputs.lookup o = some k → k = hashTx tx := by
    intro o ho k hk
    rw [hlocked, hr.unlocked o ho] at hk
    exact absurd hk (by simp)
  have hget : (insertNew t.mapTxLockReq (hashTx tx) tx).lookup (hashTx tx) = some tx := by
    rw [lookup_insert_new, if_pos ⟨rfl,hn⟩]
  simp only [txlreq, hd, Bool.false_eq_true, if_false, hnew, hr.accepted, if_true, acceptRequest,
    doConsensusVote]
  cases hown : ownVote A (hashTx tx) n with
  | none =>
    exact ⟨⟨hget,⟨l,by simp,hln,hl⟩,heights,hfree⟩,hlocked,hseen⟩
  | some ctx =>
    refine ⟨⟨hget,⟨l,by simp,hln,hl⟩,heights,hfree⟩,hlocked,funext fun k => ?_⟩
    refine (seen_insert t ctx k).trans ?_
    rw [congrFun hseen k, Option.map_some, Bool.beq_comm]
    rfl

/-- One request among valid votes: it is never dropped, and its inputs end up
locked exactly when a vote that counts comes after it and the votes are enough. -/
theorem request_among_votes {pre post : List (View × CConsensusVote)}
    (hpre : ValidVotes (hashTx tx) n pre) (hpost : ValidVotes (hashTx tx) n post) :
    (deliver hashTx post (txlreq hashTx A tx (deliver hashTx pre s))).mapTxLockReq.lookup
        (hashTx tx) = some tx ∧
    ((∀ o ∈ tx.prevouts, (deliver hashTx post (txlreq hashTx A tx
        (deliver hashTx pre s))).mapLockedInputs.lookup o = some (hashTx tx)) ↔
      InTime hashTx s A tx n pre post) := by
  obtain ⟨hopen,hlocked,hseen⟩ := request_step hr hpre
  obtain ⟨h1,h2⟩ := open_deliver hr.nonzero hpost _ _ hopen
  refine ⟨h1,?_⟩
  have hafter : before (txlreq hashTx A tx (deliver hashTx pre s)) post =
      after hashTx s A tx n pre post := by
    rw [before, after, hseen]
  rw [hafter] at h2
  constructor
  · intro h
    obtain ⟨i,hi⟩ := List.exists_mem_of_ne_nil _ hr.inputs
    have ho : i.prevout ∈ tx.prevouts := List.mem_map_of_mem hi
    rcases (h2 _ ho).mp (h _ ho) with hk | hk
    · rw [hlocked, hr.unlocked _ ho] at hk
      exact absurd hk (by simp)
    · exact hk
  · exact fun h o ho => (h2 o ho).mpr (Or.inr h)

end

def Known (s : State) (h : Uint256) : Prop :=
  h ∈ s.mapTxLockReq ∨ h ∈ s.mapTxLockReqRejected

def Heights (s : State) : Prop :=
  ∀ h l, s.mapTxLocks.lookup h = some l → ¬Known s h → l.nBlockHeight = 0

theorem mem_insert_new (m : Dict Uint256 CTransaction) (h k : Uint256) (t : CTransaction) :
    k ∈ insertNew m h t ↔ k = h ∨ k ∈ m := by
  simp only [mem_iff_lookup, lookup_insert_new]
  by_cases hk : k = h
  · subst hk
    cases m.lookup k <;> simp
  · simp [hk]

theorem heights_same {s t : State} (hs : Heights s) (hl : SameLocks t.mapTxLocks s.mapTxLocks)
    (hk : ∀ h, Known s h → Known t h) : Heights t := by
  intro h l hh hn
  obtain ⟨m,hm,he⟩ := same_locks_some hl hh
  have := hs h m hm (fun h' => hn (hk h h'))
  rw [CTransactionLock.held, CTransactionLock.held, Prod.mk.injEq] at he
  rw [← he.1, this]

variable (hashTx)

theorem accept_request_fields (A : View) (tx : CTransaction) (n : ℤ) (s : State) :
    (acceptRequest hashTx A tx n s).mapTxLocks = s.mapTxLocks ∧
    (acceptRequest hashTx A tx n s).mapTxLockReq = insertNew s.mapTxLockReq (hashTx tx) tx ∧
    (acceptRequest hashTx A tx n s).mapTxLockReqRejected = s.mapTxLockReqRejected := by
  unfold acceptRequest doConsensusVote
  simp only
  split <;> exact ⟨rfl,rfl,rfl⟩

theorem reject_request_fields (A : View) (tx : CTransaction) (s : State) :
    SameLocks (rejectRequest hashTx A tx s).mapTxLocks s.mapTxLocks ∧
    ((rejectRequest hashTx A tx s).mapTxLockReq = s.mapTxLockReq ∨
      (rejectRequest hashTx A tx s).mapTxLockReq = insertNew s.mapTxLockReq (hashTx tx) tx) ∧
    (rejectRequest hashTx A tx s).mapTxLockReqRejected =
      insertNew s.mapTxLockReqRejected (hashTx tx) tx := by
  unfold rejectRequest
  simp only
  split
  · exact ⟨fun _ => rfl,Or.inl rfl,rfl⟩
  · split_ifs
    · exact ⟨conflict_same_locks _ _ _ _ _,Or.inl rfl,rfl⟩
    · exact ⟨conflict_same_locks _ _ _ _ _,Or.inr rfl,rfl⟩
    · exact ⟨fun _ => rfl,Or.inl rfl,rfl⟩

variable {hashTx}

theorem heights_txlreq (A : View) (tx : CTransaction) {s : State} (hs : Heights s) :
    Heights (txlreq hashTx A tx s) := by
  -- the new lock belongs to a request that is seen from now on
  have hnew : ∀ h l, (createNewLock hashTx A tx s).2.mapTxLocks.lookup h = some l →
      ¬Known s h → h ≠ hashTx tx → l.nBlockHeight = 0 := by
    intro h l hl hn hne
    rcases create_new_lock_cases hashTx A tx s with he | ⟨m,he,-⟩
    · exact hs h l (he ▸ hl) hn
    · rw [he] at hl
      simp only [lookup_insert_if, if_neg hne] at hl
      exact hs h l hl hn
  have hreq : (createNewLock hashTx A tx s).2.mapTxLockReq = s.mapTxLockReq ∧
      (createNewLock hashTx A tx s).2.mapTxLockReqRejected = s.mapTxLockReqRejected := by
    rcases create_new_lock_cases hashTx A tx s with he | ⟨m,he,-⟩ <;> rw [he] <;> exact ⟨rfl,rfl⟩
  unfold txlreq
  split_ifs
  · exact hs
  · obtain ⟨h1,h2,h3⟩ := accept_request_fields hashTx A tx
      (createNewLock hashTx A tx s).1 (createNewLock hashTx A tx s).2
    intro h l hl hn
    simp only [Known, h2, h3, hreq, mem_insert_new, not_or] at hn
    exact hnew h l (h1 ▸ hl) (fun hk => hk.elim hn.1.2 hn.2) hn.1.1
  · obtain ⟨h1,h2,h3⟩ := reject_request_fields hashTx A tx (createNewLock hashTx A tx s).2
    intro h l hl hn
    obtain ⟨m,hm,he⟩ := same_locks_some h1 hl
    simp only [Known, h3, hreq, mem_insert_new, not_or] at hn
    have hnr : h ∉ s.mapTxLockReq := by
      rcases h2 with h2 | h2 <;> rw [h2, hreq.1] at hn
      · exact hn.1
      · exact fun hk => hn.1 ((mem_insert_new _ _ _ _).mpr (Or.inr hk))
    have := hnew h m hm (fun hk => hk.elim hnr hn.2.2) hn.2.1
    rw [CTransactionLock.held, CTransactionLock.held, Prod.mk.injEq] at he
    rw [← he.1, this]

theorem complete_lock_known (A : View) (h : Uint256) (s : State) (k : Uint256) :
    Known (completeLock hashTx A h s) k ↔ k = h ∨ Known s k := by
  have hreq : ∀ req, (getDefault s.mapTxLockReq h (nullTransaction A)).2 = req →
      (k ∈ req ↔ k = h ∨ k ∈ s.mapTxLockReq) := by
    rintro _ rfl
    cases hl : s.mapTxLockReq.lookup h with
    | none => simp [getDefault, hl, AList.mem_insert]
    | some t =>
      have hm : h ∈ s.mapTxLockReq := (mem_iff_lookup _ _).mpr ⟨t,hl⟩
      simp only [getDefault, hl]
      exact ⟨Or.inr,fun hk => hk.elim (fun he => he ▸ hm) id⟩
  unfold completeLock Known
  simp only
  split_ifs <;> simp only [hreq _ rfl, or_assoc]

/-- A vote moves no request into the ones that were seen, and gives no lock a height. -/
theorem vote_known (A : View) (v : CConsensusVote) {s : State} (hs : Heights s) :
    (∀ h, Known (txlvote hashTx A v s) h ↔ Known s h) ∧ Heights (txlvote hashTx A v s) := by
  by_cases hA : Handling A
  · by_cases hfresh : v.getHash ∈ s.mapTxLockVote
    · rw [txlvote_seen hfresh]
      exact ⟨fun _ => Iff.rfl,hs⟩
    cases hv : voteAccepted A v with
    | false =>
      rw [txlvote_refused hA hfresh hv]
      exact ⟨fun _ => Iff.rfl,hs⟩
    | true =>
      obtain ⟨unknown,inv,he⟩ := txlvote_counted hashTx hA hfresh hv
      have hfor : ¬Known s v.txHash → (lockFor A v.txHash s).nBlockHeight = 0 := by
        intro hn
        cases hl : s.mapTxLocks.lookup v.txHash with
        | none => simp [lockFor, hl]
        | some l => simpa [lockFor, hl] using hs _ l hl hn
      have hfile : Heights (fileVote A v s) := by
        intro h l hl hn
        simp only [fileVote, lookup_insert_if] at hl
        split_ifs at hl with hh
        · rw [← Option.some.inj hl]
          exact hfor (hh ▸ hn)
        · exact hs h l hl hn
      rw [he]
      split_ifs with hc
      · -- a complete lock has a height, so its request was seen
        have hk : Known s v.txHash := by
          by_contra hn
          have hz := hfor hn
          simp [CTransactionLock.countSignatures, CTransactionLock.addSignature, hz,
            instantxSignaturesRequired] at hc
        have hiff : ∀ h, Known (completeLock hashTx A v.txHash (fileVote A v s)) h ↔ Known s h := by
          intro h
          rw [complete_lock_known]
          exact ⟨fun h' => h'.elim (fun he => he ▸ hk) id,Or.inr⟩
        exact ⟨hiff,heights_same (t := completeLock hashTx A v.txHash (fileVote A v s)) hfile
          (complete_lock_locks hashTx A _ _) (fun h hk => (hiff h).mpr hk)⟩
      · exact ⟨fun _ => Iff.rfl,hfile⟩
  · rw [txlvote_ignored hA]
    exact ⟨fun _ => Iff.rfl,hs⟩

theorem heights_clean_lock {s : State} (hk : ∀ h l, s.mapTxLocks.lookup h = some l → l.txHash = h)
    (hs : Heights s) (time : ℤ) (h : Uint256) : Heights (cleanLock time h s) := by
  unfold cleanLock
  split
  · exact hs
  rename_i l hl
  have hlh := hk h l hl
  split_ifs
  · split
    · intro k m hm hn
      simp only [lookup_erase_if] at hm
      split_ifs at hm
      exact hs k m hm hn
    · intro k m hm hn
      simp only [lookup_erase_if] at hm
      split_ifs at hm with hkh
      refine hs k m hm (fun h' => hn ?_)
      simpa [Known, AList.mem_erase, hlh, hkh] using h'
  · exact hs

theorem heights_clean_locks {es : List Step} {safe : Prop} (time : ℤ) (hs : List Uint256)
    (s : State) (hi : Inv hashTx safe es s) (hh : Heights s) : Heights (cleanLocks time hs s) := by
  induction hs generalizing s with
  | nil => exact hh
  | cons h hs ih => exact ih _ (inv_clean_lock hi time h) (heights_clean_lock hi.lockKeyed hh time h)

theorem heights_run (es : List Step) : Heights (run hashTx es) := by
  induction es with
  | nil => simp [Heights, run, State.empty]
  | cons e es ih =>
    cases e with
    | txlreq A tx => exact heights_txlreq A tx ih
    | txlvote A v => exact (vote_known A v ih).2
    | clean A => exact heights_clean_locks A.time _ _ (inv_run hashTx es) ih

variable (hashTx)

/-- The condition on one step: no vote completes the lock of a request that is not
filed, as it does after the request was refused. -/
def StepFiled (s : State) : Step → Prop
  | .txlvote A v => v.getHash ∉ s.mapTxLockVote → voteAccepted A v = true →
      instantxSignaturesRequired ≤ ((lockFor A v.txHash s).addSignature v).countSignatures →
      v.txHash ∈ s.mapTxLockReq
  | _ => True

def RunFiled : List Step → Prop
  | [] => True
  | e::es => RunFiled es ∧ StepFiled (run hashTx es) e

def Filed (s : State) : Prop := ∀ h t, s.mapTxLockReq.lookup h = some t → hashTx t = h

variable {hashTx}

theorem filed_insert {s : State} (hs : Filed hashTx s) {tx : CTransaction}
    {req : Dict Uint256 CTransaction}
    (hreq : req = s.mapTxLockReq ∨ req = insertNew s.mapTxLockReq (hashTx tx) tx) (h : Uint256)
    (t : CTransaction) (ht : req.lookup h = some t) : hashTx t = h := by
  rcases hreq with rfl | rfl
  · exact hs h t ht
  · rw [lookup_insert_new] at ht
    split_ifs at ht with hh
    · rw [← Option.some.inj ht, hh.1]
    · exact hs h t ht

theorem filed_txlreq (A : View) (tx : CTransaction) {s : State} (hs : Filed hashTx s) :
    Filed hashTx (txlreq hashTx A tx s) := by
  unfold txlreq
  split_ifs
  · exact hs
  all_goals
    have hreq : (createNewLock hashTx A tx s).2.mapTxLockReq = s.mapTxLockReq := by
      rcases create_new_lock_cases hashTx A tx s with he | ⟨m,he,-⟩ <;> rw [he]
  · have h2 := (accept_request_fields hashTx A tx (createNewLock hashTx A tx s).1
      (createNewLock hashTx A tx s).2).2.1
    rw [hreq] at h2
    exact filed_insert hs (Or.inr h2)
  · have h2 := (reject_request_fields hashTx A tx (createNewLock hashTx A tx s).2).2.1
    rw [hreq] at h2
    exact filed_insert hs h2

theorem filed_txlvote {A : View} {v : CConsensusVote} {s : State} (hs : Filed hashTx s)
    (hstep : StepFiled s (.txlvote A v)) : Filed hashTx (txlvote hashTx A v s) := by
  by_cases hA : Handling A
  · by_cases hfresh : v.getHash ∈ s.mapTxLockVote
    · rw [txlvote_seen hfresh]
      exact hs
    cases hv : voteAccepted A v with
    | false =>
      rw [txlvote_refused hA hfresh hv]
      exact hs
    | true =>
      obtain ⟨unknown,inv,he⟩ := txlvote_counted hashTx hA hfresh hv
      rw [he]
      split_ifs with hc
      · obtain ⟨t,ht⟩ := (mem_iff_lookup _ _).mp (hstep hfresh hv hc)
        have hreq : (completeLock hashTx A v.txHash (fileVote A v s)).mapTxLockReq =
            s.mapTxLockReq := by
          have hget : getDefault (fileVote A v s).mapTxLockReq v.txHash (nullTransaction A) =
              (t,s.mapTxLockReq) := by
            simp only [getDefault, fileVote, ht]
          simp only [completeLock, hget]
          split_ifs <;> rfl
        exact fun h t ht => hs h t (hreq ▸ ht)
      · exact hs
  · rw [txlvote_ignored hA]
    exact hs

theorem filed_clean_locks (time : ℤ) (hs : List Uint256) (s : State) (hf : Filed hashTx s) :
    Filed hashTx (cleanLocks time hs s) := by
  induction hs generalizing s with
  | nil => exact hf
  | cons h hs ih =>
    refine ih _ ?_
    unfold cleanLock
    split
    · exact hf
    · split_ifs
      · split
        · exact hf
        · intro k t ht
          simp only [lookup_erase_if] at ht
          split_ifs at ht
          exact hf k t ht
      · exact hf

theorem filed_run {es : List Step} (h : RunFiled hashTx es) : Filed hashTx (run hashTx es) := by
  induction es with
  | nil => simp [Filed, run, State.empty]
  | cons e es ih =>
    cases e with
    | txlreq A tx => exact filed_txlreq A tx (ih h.1)
    | txlvote A v => exact filed_txlvote (ih h.1) h.2
    | clean A => exact filed_clean_locks A.time _ _ (ih h.1)

variable (hashTx)

/-- A request among valid votes is filed in every order, and its inputs end up
locked exactly when a vote that counts follows it and the votes are enough. Where
no vote completes an unfiled request, entries are filed under their own hash. No
vote makes a request be dropped as seen. -/
theorem request_in_any_order :
    (∀ A tx n s, Requested hashTx A tx n s → ∀ pre post, ValidVotes (hashTx tx) n pre →
      ValidVotes (hashTx tx) n post →
      (deliver hashTx post (txlreq hashTx A tx (deliver hashTx pre s))).mapTxLockReq.lookup
          (hashTx tx) = some tx ∧
      ((∀ o ∈ tx.prevouts, (deliver hashTx post (txlreq hashTx A tx
          (deliver hashTx pre s))).mapLockedInputs.lookup o = some (hashTx tx)) ↔
        InTime hashTx s A tx n pre post)) ∧
    (∀ es, RunFiled hashTx es → ∀ h t, (run hashTx es).mapTxLockReq.lookup h = some t →
      hashTx t = h) ∧
    ∀ es A v h, Known (run hashTx (.txlvote A v::es)) h ↔ Known (run hashTx es) h :=
  ⟨fun _ _ _ _ hr _ _ hpre hpost => request_among_votes hr hpre hpost,
    fun _ h => filed_run h,fun es A v => (vote_known A v (heights_run es)).1⟩

def twentyVotes : List (View × CConsensusVote) :=
  (List.range 20).map (fun n => (sampleView,sampleVote n))

theorem sample_requested : Requested sampleEnv.hashTx sampleView sampleRequest 14 State.empty where
  notDropped := by decide +kernel
  accepted := rfl
  inputs := by decide
  height := ⟨10,by decide +kernel,rfl⟩
  nonzero := by decide
  noLock := rfl
  unlocked := fun _ _ => rfl

theorem twenty_votes_valid : ValidVotes 5 14 twentyVotes := by
  intro m hm
  obtain ⟨n,hn,rfl⟩ := List.mem_map.mp hm
  have hv : ∀ n ∈ List.range 20, voteAccepted sampleView (sampleVote n) = true := by decide +kernel
  exact ⟨⟨rfl,rfl⟩,hv n hn,rfl,rfl⟩

theorem votes_after_request_lock :
    (deliver sampleEnv.hashTx twentyVotes (txlreq sampleEnv.hashTx sampleView sampleRequest
      (deliver sampleEnv.hashTx [] State.empty))).mapLockedInputs.lookup ⟨9,0⟩ = some 5 := by
  refine (((request_in_any_order sampleEnv.hashTx).1 sampleView sampleRequest 14 State.empty
    sample_requested [] twentyVotes (by simp [ValidVotes]) twenty_votes_valid).2.mpr ?_) ⟨9,0⟩
      (by decide)
  unfold InTime
  decide +kernel

/-- Twenty valid votes of distinct masternodes, and then the request. -/
theorem votes_before_request_do_not_lock :
    Requested sampleEnv.hashTx sampleView sampleRequest 14 State.empty ∧
    ValidVotes 5 14 twentyVotes ∧ (twentyVotes.map (fun m => m.2.vinMasternode)).Nodup ∧
    instantxSignaturesRequired ≤ twentyVotes.length ∧
    ¬ ∀ o ∈ sampleRequest.prevouts, (txlreq sampleEnv.hashTx sampleView sampleRequest
      (deliver sampleEnv.hashTx twentyVotes State.empty)).mapLockedInputs.lookup o = some 5 := by
  refine ⟨sample_requested,twenty_votes_valid,by decide +kernel,by decide,?_⟩
  intro h
  exact absurd (h ⟨9,0⟩ (by decide)) (by decide +kernel)

end SwippCore.InstantXRequest
