import SwippCore.InstantX
import SwippCore.CheckBlock

/-!
# The books of locked inputs

What the books keep through any run, and that two locked transactions share no input.
-/

set_option autoImplicit false

namespace SwippCore.InstantXBooks
open FinMap InstantX

def Delivered (es : List Step) (v : CConsensusVote) : Prop :=
  ∃ A, Step.txlvote A v ∈ es ∧ voteAccepted A v = true

variable (hashTx : CTransaction → Uint256)

/-- The state that a refused request may find: every input is locked already, or
the lock is complete at its new height and no input is locked under another hash. -/
def RefusalSafe (A : View) (tx : CTransaction) (s : State) : Prop :=
  (∀ o ∈ tx.prevouts, s.mapLockedInputs.lookup o ≠ none) ∨
  (∃ l, (createNewLock hashTx A tx s).2.mapTxLocks.lookup (hashTx tx) = some l ∧
      instantxSignaturesRequired ≤ l.countSignatures) ∧
    ∀ o ∈ tx.prevouts, ∀ h, s.mapLockedInputs.lookup o = some h → h = hashTx tx

def StepSafe (s : State) : Step → Prop
  | .txlreq A tx => requestDropped hashTx A tx s = false → A.acceptToMemoryPool tx = false →
      RefusalSafe hashTx A tx s
  | _ => True

def RunSafe : List Step → Prop
  | [] => True
  | e::es => RunSafe es ∧ StepSafe hashTx (run hashTx es) e

structure Inv (safe : Prop) (es : List Step) (s : State) : Prop where
  reqKeyed : ∀ h t, s.mapTxLockReq.lookup h = some t → hashTx t = h ∨ t.vin = []
  lockKeyed : ∀ h l, s.mapTxLocks.lookup h = some l → l.txHash = h
  votes : ∀ h l v, s.mapTxLocks.lookup h = some l → v ∈ l.vecConsensusVotes →
    v.txHash = h ∧ Delivered es v ∧ v.getHash ∈ s.mapTxLockVote
  distinct : ∀ h l, s.mapTxLocks.lookup h = some l →
    (l.vecConsensusVotes.map CConsensusVote.getHash).Nodup
  apart : ∀ h k l m v w, s.mapTxLocks.lookup h = some l → s.mapTxLocks.lookup k = some m →
    v ∈ l.vecConsensusVotes → w ∈ m.vecConsensusVotes → v.getHash = w.getHash → h = k
  locked : safe → ∀ o h, s.mapLockedInputs.lookup o = some h →
    ∃ t l, s.mapTxLockReq.lookup h = some t ∧ hashTx t = h ∧ o ∈ t.prevouts ∧
      s.mapTxLocks.lookup h = some l ∧ instantxSignaturesRequired ≤ l.countSignatures

variable {hashTx} {safe : Prop}

theorem inv_empty : Inv hashTx safe [] State.empty := by
  constructor <;> simp [State.empty]

theorem inv_later {es : List Step} {s : State} (hi : Inv hashTx safe es s) (e : Step) :
    Inv hashTx safe (e::es) s where
  reqKeyed := hi.reqKeyed
  lockKeyed := hi.lockKeyed
  votes := by
    intro h l v hl hv
    obtain ⟨h1,⟨A,hA,h2⟩,h3⟩ := hi.votes h l v hl hv
    exact ⟨h1,⟨A,List.mem_cons_of_mem e hA,h2⟩,h3⟩
  distinct := hi.distinct
  apart := hi.apart
  locked := hi.locked

section Steps
variable {es : List Step} {s : State} (hi : Inv hashTx safe es s)
include hi

theorem inv_same_locks {locks : Dict Uint256 CTransactionLock}
    (hs : SameLocks locks s.mapTxLocks) : Inv hashTx safe es { s with mapTxLocks := locks } := by
  have back : ∀ h l, locks.lookup h = some l → ∃ m, s.mapTxLocks.lookup h = some m ∧
      m.countSignatures = l.countSignatures ∧ m.txHash = l.txHash ∧
      m.vecConsensusVotes = l.vecConsensusVotes := by
    intro h l hl
    obtain ⟨m,hm,he⟩ := same_locks_some hs hl
    have hc := held_count he
    simp only [CTransactionLock.held, Prod.mk.injEq] at he
    exact ⟨m,hm,hc,he.2⟩
  constructor
  · exact hi.reqKeyed
  · intro h l hl
    obtain ⟨m,hm,-,ht,-⟩ := back h l hl
    rw [← ht]
    exact hi.lockKeyed h m hm
  · intro h l v hl hv
    obtain ⟨m,hm,-,-,hvs⟩ := back h l hl
    exact hi.votes h m v hm (hvs ▸ hv)
  · intro h l hl
    obtain ⟨m,hm,-,-,hvs⟩ := back h l hl
    rw [← hvs]
    exact hi.distinct h m hm
  · intro h k l m v w hl hm hv hw
    obtain ⟨l',hl',-,-,hvl⟩ := back h l hl
    obtain ⟨m',hm',-,-,hvm⟩ := back k m hm
    exact hi.apart h k l' m' v w hl' hm' (hvl ▸ hv) (hvm ▸ hw)
  · intro hsafe o h ho
    obtain ⟨t,l,ht,hht,hot,hl,hc⟩ := hi.locked hsafe o h ho
    obtain ⟨m,hm,he⟩ := same_locks_some (fun k => (hs k).symm) hl
    exact ⟨t,m,ht,hht,hot,hm,by rwa [held_count he]⟩

/-- A lock that guards no input can be replaced by one with the same votes, or by
a new one without votes. -/
theorem inv_set_lock {h : Uint256} {l : CTransactionLock} (hk : l.txHash = h)
    (hfree : safe → ∀ o, s.mapLockedInputs.lookup o ≠ some h)
    (hv : l.vecConsensusVotes = [] ∨ ∃ m, s.mapTxLocks.lookup h = some m ∧
      l.vecConsensusVotes = m.vecConsensusVotes) :
    Inv hashTx safe es { s with mapTxLocks := s.mapTxLocks.insert h l } := by
  have back : ∀ k m v, (s.mapTxLocks.insert h l).lookup k = some m → v ∈ m.vecConsensusVotes →
      ∃ n, s.mapTxLocks.lookup k = some n ∧ v ∈ n.vecConsensusVotes := by
    intro k m v hm hvm
    rw [lookup_insert_if] at hm
    split_ifs at hm with hkh
    · rw [← Option.some.inj hm] at hvm
      rcases hv with hv | ⟨n,hn,hv⟩
      · simp [hv] at hvm
      · exact ⟨n,hkh ▸ hn,hv ▸ hvm⟩
    · exact ⟨m,hm,hvm⟩
  constructor
  · exact hi.reqKeyed
  · intro k m hm
    simp only [lookup_insert_if] at hm
    split_ifs at hm with hkh
    · rw [← Option.some.inj hm, hk, hkh]
    · exact hi.lockKeyed k m hm
  · intro k m v hm hvm
    obtain ⟨n,hn,hvn⟩ := back k m v hm hvm
    exact hi.votes k n v hn hvn
  · intro k m hm
    simp only [lookup_insert_if] at hm
    split_ifs at hm with hkh
    · rw [← Option.some.inj hm]
      rcases hv with hv | ⟨n,hn,hv⟩
      · simp [hv]
      · rw [hv]
        exact hi.distinct h n hn
    · exact hi.distinct k m hm
  · intro k j m n v w hm hn hvm hwn
    obtain ⟨m',hm',hvm'⟩ := back k m v hm hvm
    obtain ⟨n',hn',hwn'⟩ := back j n w hn hwn
    exact hi.apart k j m' n' v w hm' hn' hvm' hwn'
  · intro hsafe o k ho
    obtain ⟨t,m,ht,hht,hot,hm,hc⟩ := hi.locked hsafe o k ho
    refine ⟨t,m,ht,hht,hot,?_,hc⟩
    have hkh : k ≠ h := fun he => hfree hsafe o (he ▸ ho)
    simp only [lookup_insert_if, if_neg hkh]
    exact hm

theorem unlocked_of_unrequested {h : Uint256} (hn : s.mapTxLockReq.lookup h = none)
    (hsafe : safe) (o : COutPoint) : s.mapLockedInputs.lookup o ≠ some h := by
  intro ho
  obtain ⟨t,_,ht,_⟩ := hi.locked hsafe o h ho
  rw [hn] at ht
  exact absurd ht (by simp)

theorem inv_create_new_lock (A : View) {tx : CTransaction}
    (hn : s.mapTxLockReq.lookup (hashTx tx) = none) :
    Inv hashTx safe es (createNewLock hashTx A tx s).2 := by
  rcases create_new_lock_cases hashTx A tx s with h | ⟨l,h,hl⟩
  · rw [h]
    exact hi
  · rw [h]
    refine inv_set_lock hi ?_ (unlocked_of_unrequested hi hn) ?_
    · rcases hl with ⟨-,hk,-⟩ | ⟨m,hm,hk,-⟩
      · exact hk
      · rw [hk]
        exact hi.lockKeyed _ m hm
    · rcases hl with ⟨-,-,hv⟩ | ⟨m,hm,-,hv⟩
      · exact Or.inl hv
      · exact Or.inr ⟨m,hm,hv⟩

theorem inv_unrelated (unknown : Dict Uint256 ℤ) (inv : List CInv) :
    Inv hashTx safe es { s with mapUnknownVotes := unknown, vInv := inv } :=
  ⟨hi.reqKeyed,hi.lockKeyed,hi.votes,hi.distinct,hi.apart,hi.locked⟩

theorem inv_file_vote (k : Uint256) (v : CConsensusVote) :
    Inv hashTx safe es { s with mapTxLockVote := s.mapTxLockVote.insert k v } where
  reqKeyed := hi.reqKeyed
  lockKeyed := hi.lockKeyed
  votes := by
    intro h l w hl hw
    obtain ⟨h1,h2,h3⟩ := hi.votes h l w hl hw
    exact ⟨h1,h2,(AList.mem_insert _).mpr (Or.inr h3)⟩
  distinct := hi.distinct
  apart := hi.apart
  locked := hi.locked

theorem inv_file_request (h : Uint256) (t : CTransaction) (ht : hashTx t = h ∨ t.vin = []) :
    Inv hashTx safe es { s with mapTxLockReq := insertNew s.mapTxLockReq h t } where
  reqKeyed := by
    intro k u hu
    simp only [lookup_insert_new] at hu
    split_ifs at hu with hk
    · rw [← Option.some.inj hu, hk.1]
      exact ht
    · exact hi.reqKeyed k u hu
  lockKeyed := hi.lockKeyed
  votes := hi.votes
  distinct := hi.distinct
  apart := hi.apart
  locked := by
    intro hsafe o k ho
    obtain ⟨u,l,hu,hrest⟩ := hi.locked hsafe o k ho
    refine ⟨u,l,?_,hrest⟩
    simp only [lookup_insert_new]
    rw [if_neg, hu]
    rintro ⟨rfl,hn⟩
    rw [hn] at hu
    exact absurd hu (by simp)

theorem inv_refuse (h : Uint256) (t : CTransaction) :
    Inv hashTx safe es { s with mapTxLockReqRejected := insertNew s.mapTxLockReqRejected h t } :=
  ⟨hi.reqKeyed,hi.lockKeyed,hi.votes,hi.distinct,hi.apart,hi.locked⟩

theorem inv_lock_inputs {h : Uint256} {t : CTransaction} {l : CTransactionLock}
    (ht : s.mapTxLockReq.lookup h = some t) (hl : s.mapTxLocks.lookup h = some l)
    (hc : instantxSignaturesRequired ≤ l.countSignatures) :
    Inv hashTx safe es { s with mapLockedInputs := lockInputs h t.prevouts s.mapLockedInputs } where
  reqKeyed := hi.reqKeyed
  lockKeyed := hi.lockKeyed
  votes := hi.votes
  distinct := hi.distinct
  apart := hi.apart
  locked := by
    intro hsafe o k ho
    rcases (lookup_lock_inputs h t.prevouts _ o k).mp ho with ho | ⟨-,hot,rfl⟩
    · exact hi.locked hsafe o k ho
    · refine ⟨t,l,ht,?_,hot,hl,hc⟩
      rcases hi.reqKeyed k t ht with hk | hv
      · exact hk
      · simp [CTransaction.prevouts, hv] at hot

theorem inv_add_vote (A : View) {v : CConsensusVote} (hA : Delivered es v)
    (hfresh : v.getHash ∉ s.mapTxLockVote) :
    Inv hashTx safe es { s with
      mapTxLockVote := s.mapTxLockVote.insert v.getHash v
      mapTxLocks := s.mapTxLocks.insert v.txHash ((lockFor A v.txHash s).addSignature v) } := by
  have back : ∀ h l w, (s.mapTxLocks.insert v.txHash
      ((lockFor A v.txHash s).addSignature v)).lookup h = some l → w ∈ l.vecConsensusVotes →
      h = v.txHash ∧ w = v ∨ ∃ m, s.mapTxLocks.lookup h = some m ∧ w ∈ m.vecConsensusVotes := by
    intro h l w hl hw
    rw [lookup_insert_if] at hl
    split_ifs at hl with hh
    · rw [← Option.some.inj hl] at hw
      simp only [CTransactionLock.addSignature, List.mem_append, List.mem_singleton] at hw
      rcases hw with hw | hw
      · cases hm : s.mapTxLocks.lookup v.txHash with
        | none => simp [lock_for_none A hm] at hw
        | some m => exact Or.inr ⟨m,hh ▸ hm,lock_for_lookup A hm ▸ hw⟩
      · exact Or.inl ⟨hh,hw⟩
    · exact Or.inr ⟨l,hl,hw⟩
  have fresh : ∀ h m w, s.mapTxLocks.lookup h = some m → w ∈ m.vecConsensusVotes →
      w.getHash ≠ v.getHash := by
    intro h m w hm hw he
    exact hfresh (he ▸ (hi.votes h m w hm hw).2.2)
  constructor
  · exact hi.reqKeyed
  · intro h l hl
    simp only [lookup_insert_if] at hl
    split_ifs at hl with hh
    · rw [← Option.some.inj hl, hh]
      cases hm : s.mapTxLocks.lookup v.txHash with
      | none => simp [lockFor, hm, CTransactionLock.addSignature]
      | some m => simpa [lockFor, hm, CTransactionLock.addSignature] using hi.lockKeyed _ m hm
    · exact hi.lockKeyed h l hl
  · intro h l w hl hw
    rcases back h l w hl hw with ⟨hh,rfl⟩ | ⟨m,hm,hw⟩
    · exact ⟨hh.symm,hA,(AList.mem_insert _).mpr (Or.inl rfl)⟩
    · obtain ⟨h1,h2,h3⟩ := hi.votes h m w hm hw
      exact ⟨h1,h2,(AList.mem_insert _).mpr (Or.inr h3)⟩
  · intro h l hl
    simp only [lookup_insert_if] at hl
    split_ifs at hl with hh
    · rw [← Option.some.inj hl, CTransactionLock.addSignature, List.map_append]
      cases hm : s.mapTxLocks.lookup v.txHash with
      | none => simp [lock_for_none A hm]
      | some m =>
        rw [lock_for_lookup A hm]
        refine List.Nodup.append (hi.distinct _ m hm) (by simp) ?_
        simp only [List.map_cons, List.map_nil, List.disjoint_singleton, List.mem_map, not_exists,
          not_and]
        exact fun w hw => fresh _ m w hm hw
    · exact hi.distinct h l hl
  · intro h k l m w x hl hm hw hx he
    rcases back h l w hl hw with ⟨hh,rfl⟩ | ⟨l',hl',hw'⟩ <;>
      rcases back k m x hm hx with ⟨hk,rfl⟩ | ⟨m',hm',hx'⟩
    · rw [hh, hk]
    · exact absurd he.symm (fresh k m' x hm' hx')
    · exact absurd he (fresh h l' w hl' hw')
    · exact hi.apart h k l' m' w x hl' hm' hw' hx' he
  · intro hsafe o h ho
    obtain ⟨t,l,ht,hht,hot,hl,hc⟩ := hi.locked hsafe o h ho
    by_cases hh : h = v.txHash
    · refine ⟨t,(lockFor A v.txHash s).addSignature v,ht,hht,hot,?_,?_⟩
      · simp only [lookup_insert_if, if_pos hh]
      · rw [lock_for_lookup A (hh ▸ hl)]
        exact le_trans hc (count_add_signature l v)
    · refine ⟨t,l,ht,hht,hot,?_,hc⟩
      simp only [lookup_insert_if, if_neg hh]
      exact hl

/-- A completed count: the request is created if it is missing, and without a
conflict its inputs are locked. -/
theorem inv_complete_lock (A : View) {h : Uint256} {l : CTransactionLock}
    (hl : s.mapTxLocks.lookup h = some l) (hc : instantxSignaturesRequired ≤ l.countSignatures) :
    Inv hashTx safe es (completeLock hashTx A h s) := by
  obtain ⟨tx,req,hreq,hget,hi'⟩ : ∃ tx req, getDefault s.mapTxLockReq h (nullTransaction A) =
      (tx,req) ∧ req.lookup h = some tx ∧ Inv hashTx safe es { s with mapTxLockReq := req } := by
    cases ht : s.mapTxLockReq.lookup h with
    | some t => exact ⟨t,s.mapTxLockReq,by simp [getDefault, ht],ht,hi⟩
    | none =>
      refine ⟨_,_,by simp only [getDefault, ht]; rfl,by simp,?_⟩
      have := inv_file_request hi h (nullTransaction A) (Or.inr rfl)
      rwa [insertNew, if_neg (AList.lookup_eq_none.mp ht)] at this
  simp only [completeLock, hreq]
  have hs := conflict_same_locks A.time (hashTx tx) s.mapLockedInputs tx.prevouts s.mapTxLocks
  have hi'' := inv_same_locks hi' hs
  split_ifs with hconf
  · exact hi''
  · obtain ⟨m,hm,he⟩ := same_locks_some (fun k => (hs k).symm) hl
    exact inv_lock_inputs hi'' hget hm (by rwa [held_count he])

theorem inv_unlock {locked : Dict COutPoint Uint256}
    (hsub : safe → ∀ o k, locked.lookup o = some k → s.mapLockedInputs.lookup o = some k) :
    Inv hashTx safe es { s with mapLockedInputs := locked } :=
  ⟨hi.reqKeyed,hi.lockKeyed,hi.votes,hi.distinct,hi.apart,
    fun hsafe o k ho => hi.locked hsafe o k (hsub hsafe o k ho)⟩

theorem inv_reject_request (A : View) {tx : CTransaction}
    (hn : s.mapTxLockReq.lookup (hashTx tx) = none)
    (hsafe : safe → (∀ o ∈ tx.prevouts, s.mapLockedInputs.lookup o ≠ none) ∨
      (∃ l, s.mapTxLocks.lookup (hashTx tx) = some l ∧
          instantxSignaturesRequired ≤ l.countSignatures) ∧
        ∀ o ∈ tx.prevouts, ∀ h, s.mapLockedInputs.lookup o = some h → h = hashTx tx) :
    Inv hashTx safe es (rejectRequest hashTx A tx s) := by
  have hi1 := inv_refuse hi (hashTx tx) tx
  set locked := lockInputs (hashTx tx) tx.prevouts s.mapLockedInputs with hlocked
  have hs := conflict_same_locks A.time (hashTx tx) locked tx.prevouts s.mapTxLocks
  have hcases : (safe → ∀ o ∈ tx.prevouts, s.mapLockedInputs.lookup o ≠ none) ∨
      (∃ l, s.mapTxLocks.lookup (hashTx tx) = some l ∧
          instantxSignaturesRequired ≤ l.countSignatures) ∧
        ∀ o ∈ tx.prevouts, ∀ h, s.mapLockedInputs.lookup o = some h → h = hashTx tx := by
    by_cases h : safe
    · exact (hsafe h).imp_left (fun hall _ => hall)
    · exact Or.inl (fun h' => absurd h' h)
  rcases hcases with hall | ⟨⟨l,hl,hc⟩,hown⟩
  · -- every input was locked before, so the loop over the inputs changes nothing
    have hsub : safe → ∀ o k, locked.lookup o = some k → s.mapLockedInputs.lookup o = some k := by
      intro h o k ho
      rw [hlocked, lookup_lock_inputs] at ho
      rcases ho with ho | ⟨hno,hot,-⟩
      · exact ho
      · exact absurd hno (hall h o hot)
    have hi2 := inv_unlock hi1 hsub
    unfold rejectRequest
    simp only
    split
    · exact hi2
    · split_ifs
      · exact inv_same_locks hi2 hs
      · exact inv_file_request (inv_same_locks hi2 hs) _ tx (Or.inl rfl)
      · exact hi2
  · -- the lock is complete: the inputs are locked for a request that is now known
    have hconf : (checkForConflictingLocks A.time (hashTx tx) locked tx.prevouts
        s.mapTxLocks).1 = false := by
      rw [conflict_false_iff]
      intro o hot k hk
      rw [hlocked, lookup_lock_inputs] at hk
      rcases hk with hk | ⟨-,-,hk⟩
      · exact hown o hot k hk
      · exact hk
    have hlocks := conflict_false_locks hconf
    have hget : (insertNew s.mapTxLockReq (hashTx tx) tx).lookup (hashTx tx) = some tx := by
      rw [lookup_insert_new, if_pos ⟨rfl,hn⟩]
    have hi2 := inv_lock_inputs (inv_file_request hi1 (hashTx tx) tx (Or.inl rfl))
       hget hl hc
    unfold rejectRequest
    simp only [hl, hc, if_true, ← hlocked, hconf, hlocks]
    exact hi2

theorem inv_accept_request (A : View) (tx : CTransaction) (n : ℤ) :
    Inv hashTx safe es (acceptRequest hashTx A tx n s) := by
  have hi1 := inv_unrelated hi s.mapUnknownVotes (s.vInv++[.txLockRequest (hashTx tx)])
  refine inv_file_request ?_ (hashTx tx) tx (Or.inl rfl)
  unfold doConsensusVote
  split
  · exact hi1
  · exact inv_unrelated (inv_file_vote hi1 _ _) _ _

theorem inv_txlreq {A : View} {tx : CTransaction}
    (hsafe : safe → StepSafe hashTx s (.txlreq A tx)) : Inv hashTx safe es (txlreq hashTx A tx s) := by
  unfold txlreq
  split_ifs with hd ha
  · exact hi
  all_goals
    have hd' : requestDropped hashTx A tx s = false := by simpa using hd
    have hn : s.mapTxLockReq.lookup (hashTx tx) = none := by
      simp only [requestDropped, Bool.or_eq_false_iff, decide_eq_false_iff_not] at hd'
      exact AList.lookup_eq_none.mpr hd'.1.1.1.2
    have hi1 := inv_create_new_lock hi A hn
  · exact inv_accept_request hi1 A tx _
  · refine inv_reject_request hi1 A ?_ ?_
    · rcases create_new_lock_cases hashTx A tx s with h | ⟨l,h,-⟩ <;> rw [h] <;> exact hn
    · have hl : (createNewLock hashTx A tx s).2.mapLockedInputs = s.mapLockedInputs := by
        rcases create_new_lock_cases hashTx A tx s with h | ⟨l,h,-⟩ <;> rw [h]
      rw [hl]
      exact fun h => hsafe h hd' (by simpa using ha)

theorem inv_txlvote (A : View) (v : CConsensusVote) :
    Inv hashTx safe (.txlvote A v::es) (txlvote hashTx A v s) := by
  have hi0 := inv_later hi (.txlvote A v)
  by_cases hA : Handling A
  · by_cases hfresh : v.getHash ∈ s.mapTxLockVote
    · rw [txlvote_seen hfresh]
      exact hi0
    cases hv : voteAccepted A v with
    | false =>
      rw [txlvote_refused hA hfresh hv]
      exact inv_file_vote hi0 _ _
    | true =>
      have hi1 : Inv hashTx safe (.txlvote A v::es) (fileVote A v s) :=
        inv_add_vote hi0 A ⟨A,List.mem_cons_self,hv⟩ hfresh
      obtain ⟨unknown,inv,h⟩ := txlvote_counted hashTx hA hfresh hv
      rw [h]
      refine inv_unrelated ?_ unknown inv
      split_ifs with hc
      · exact inv_complete_lock hi1 A (by simp [fileVote]) hc
      · exact hi1
  · rw [txlvote_ignored hA]
    exact hi0

theorem inv_clean_lock (time : ℤ) (h : Uint256) : Inv hashTx safe es (cleanLock time h s) := by
  unfold cleanLock
  split
  · exact hi
  rename_i l hl
  have hk := hi.lockKeyed h l hl
  split_ifs with hexp
  · have back : ∀ k m, (s.mapTxLocks.erase h).lookup k = some m →
        k ≠ h ∧ s.mapTxLocks.lookup k = some m := by
      intro k m hm
      rw [lookup_erase_if] at hm
      split_ifs at hm with hkh
      exact ⟨hkh,hm⟩
    have keep : ∀ k m, k ≠ h → s.mapTxLocks.lookup k = some m →
        (s.mapTxLocks.erase h).lookup k = some m := by
      intro k m hkh hm
      rw [lookup_erase_if, if_neg hkh, hm]
    rw [hk]
    split
    · -- the lock was never requested, so it guards no input
      rename_i hreq
      refine ⟨hi.reqKeyed,fun k m hm => hi.lockKeyed k m (back k m hm).2,
        fun k m v hm hv => hi.votes k m v (back k m hm).2 hv,
        fun k m hm => hi.distinct k m (back k m hm).2,
        fun j k m n v w hm hn hv hw => hi.apart j k m n v w (back j m hm).2 (back k n hn).2 hv hw,
        fun hsafe o k ho => ?_⟩
      obtain ⟨t,m,ht,hht,hot,hm,hc⟩ := hi.locked hsafe o k ho
      have hkh : k ≠ h := fun he => unlocked_of_unrequested hi hreq hsafe o (he ▸ ho)
      exact ⟨t,m,ht,hht,hot,keep k m hkh hm,hc⟩
    · rename_i tx hreq
      constructor
      · intro k t ht
        simp only [lookup_erase_if] at ht
        split_ifs at ht
        exact hi.reqKeyed k t ht
      · exact fun k m hm => hi.lockKeyed k m (back k m hm).2
      · intro k m v hm hv
        obtain ⟨hkh,hm⟩ := back k m hm
        obtain ⟨h1,h2,h3⟩ := hi.votes k m v hm hv
        refine ⟨h1,h2,?_⟩
        rw [mem_iff_lookup, lookup_erase_all, if_neg]
        · exact (mem_iff_lookup _ _).mp h3
        · intro hmem
          obtain ⟨w,hw,he⟩ := List.mem_map.mp hmem
          exact hkh (hi.apart h k l m w v hl hm hw hv he).symm
      · exact fun k m hm => hi.distinct k m (back k m hm).2
      · exact fun j k m n v w hm hn hv hw =>
          hi.apart j k m n v w (back j m hm).2 (back k n hn).2 hv hw
      · intro hsafe o k ho
        simp only [lookup_erase_all] at ho
        split_ifs at ho with hot
        obtain ⟨t,m,ht,hht,hmem,hm,hc⟩ := hi.locked hsafe o k ho
        have hkh : k ≠ h := by
          rintro rfl
          rw [hreq] at ht
          exact hot (Option.some.inj ht ▸ hmem)
        refine ⟨t,m,?_,hht,hmem,keep k m hkh hm,hc⟩
        simp only [lookup_erase_if, if_neg hkh]
        exact ht
  · exact hi

end Steps

theorem inv_clean_locks {es : List Step} (time : ℤ) (hs : List Uint256) (s : State)
    (hi : Inv hashTx safe es s) : Inv hashTx safe es (cleanLocks time hs s) := by
  induction hs generalizing s with
  | nil => exact hi
  | cons h hs ih => exact ih _ (inv_clean_lock hi time h)

theorem inv_weaken {es : List Step} {s : State} {safe' : Prop} (h : safe' → safe)
    (hi : Inv hashTx safe es s) : Inv hashTx safe' es s :=
  ⟨hi.reqKeyed,hi.lockKeyed,hi.votes,hi.distinct,hi.apart,fun hs => hi.locked (h hs)⟩

theorem inv_step {es : List Step} {s : State} (hi : Inv hashTx safe es s) (e : Step)
    (hsafe : safe → StepSafe hashTx s e) : Inv hashTx safe (e::es) (step hashTx s e) := by
  cases e with
  | txlreq A tx => exact inv_txlreq (inv_later hi _) hsafe
  | txlvote A v => exact inv_txlvote hi A v
  | clean A => exact inv_clean_locks A.time _ s (inv_later hi _)

variable (hashTx)

theorem inv_run (es : List Step) :
    Inv hashTx (RunSafe hashTx es) es (run hashTx es) := by
  induction es with
  | nil => exact inv_empty
  | cons e es ih =>
    exact inv_step (inv_weaken (fun h => h.1) ih) e (fun h => h.2)

variable {hashTx}

theorem masternodes_distinct {es : List Step} {s : State} (hi : Inv hashTx safe es s) {h : Uint256}
    {l : CTransactionLock} (hl : s.mapTxLocks.lookup h = some l) :
    (l.countedVotes.map CConsensusVote.vinMasternode).Nodup := by
  have hd : (l.countedVotes.map CConsensusVote.getHash).Nodup :=
    ((List.filter_sublist (l := l.vecConsensusVotes)).map _).nodup (hi.distinct h l hl)
  refine List.Nodup.map_on ?_ hd.of_map
  intro v hv w hw he
  refine List.inj_on_of_nodup_map hd hv hw ?_
  have hv' := (hi.votes h l v hl (List.mem_filter.mp hv).1).1
  have hw' := (hi.votes h l w hl (List.mem_filter.mp hw).1).1
  simp only [CConsensusVote.getHash, he, hv', hw']

end SwippCore.InstantXBooks

namespace SwippCore.InstantXLocks
open InstantX InstantXBooks

variable (hashTx : CTransaction → Uint256)

/-- The request for the outpoint's lock is known, and its lock holds the required
number of valid votes of distinct masternodes for the height of the lock. -/
def Backed (es : List Step) (s : State) (o : COutPoint) (h : Uint256) : Prop :=
  (∃ t, s.mapTxLockReq.lookup h = some t ∧ hashTx t = h ∧ o ∈ t.prevouts) ∧
  ∃ l, s.mapTxLocks.lookup h = some l ∧ instantxSignaturesRequired ≤ l.countSignatures ∧
    l.countSignatures = l.countedVotes.length ∧
    (l.countedVotes.map CConsensusVote.vinMasternode).Nodup ∧
    ∀ v ∈ l.countedVotes, v.txHash = h ∧ v.nBlockHeight = l.nBlockHeight ∧ Delivered es v

variable {hashTx}

theorem backed_of_inv {es : List Step} {s : State} {safe : Prop} (hi : Inv hashTx safe es s)
    (hsafe : safe) {o : COutPoint} {h : Uint256} (ho : s.mapLockedInputs.lookup o = some h) :
    Backed hashTx es s o h := by
  obtain ⟨t,l,ht,hht,hot,hl,hc⟩ := hi.locked hsafe o h ho
  refine ⟨⟨t,ht,hht,hot⟩,l,hl,hc,?_,masternodes_distinct hi hl,?_⟩
  · unfold CTransactionLock.countSignatures at hc ⊢
    split_ifs at hc ⊢ with hz
    · simp [instantxSignaturesRequired] at hc
    · rfl
  · intro v hv
    obtain ⟨hv,hn⟩ := List.mem_filter.mp hv
    obtain ⟨h1,h2,-⟩ := hi.votes h l v hl hv
    exact ⟨h1,by simpa using hn,h2⟩

/-- In a run whose refused requests all find their inputs locked or their lock
complete, every locked input has complete consensus, and a block is refused for a
lock conflict only against such a lock. -/
theorem locked_inputs_backed (env : Env) (es : List Step) (h : RunSafe env.hashTx es) :
    (∀ o k, (run env.hashTx es).mapLockedInputs.lookup o = some k →
      Backed env.hashTx es (run env.hashTx es) o k) ∧
    ∀ best amb b pfrom fCheckPOW fCheckMerkleRoot fCheckSig,
      amb.mapLockedInputs = (run env.hashTx es).mapLockedInputs →
      checkBlock env best amb b pfrom fCheckPOW fCheckMerkleRoot fCheckSig = .error lockRefusal →
      ∃ tx ∈ b.vtx, ∃ o ∈ tx.prevouts, ∃ k ≠ env.hashTx tx,
        amb.mapLockedInputs.lookup o = some k ∧ Backed env.hashTx es (run env.hashTx es) o k := by
  have hi := inv_run env.hashTx es
  refine ⟨fun o k ho => backed_of_inv hi h ho,?_⟩
  intro best amb b pfrom f1 f2 f3 hamb hb
  obtain ⟨tx,htx,o,ho,k,hk,hne⟩ := check_block_lock_conflict env hb
  exact ⟨tx,htx,o,ho,k,hne,hk,backed_of_inv hi h (hamb ▸ hk)⟩

def votedRun : List Step :=
  (List.range 20).map (fun n => .txlvote sampleView (sampleVote n)) ++
    [.txlreq sampleView sampleRequest]

theorem voted_run_safe : RunSafe sampleEnv.hashTx votedRun := by
  simp [votedRun, List.range, List.range.loop, RunSafe, StepSafe, sampleView]

theorem voted_input_backed :
    Backed sampleEnv.hashTx votedRun (run sampleEnv.hashTx votedRun) ⟨9,0⟩ 5 :=
  (locked_inputs_backed sampleEnv votedRun voted_run_safe).1 ⟨9,0⟩ 5 (by decide +kernel)

def refusedRun : List Step :=
  [.txlreq { sampleView with acceptToMemoryPool := fun _ => false, nBestHeight := 12 } sampleRequest]

theorem refused_input_not_backed :
    ¬ ∀ o k, (run sampleEnv.hashTx refusedRun).mapLockedInputs.lookup o = some k →
      Backed sampleEnv.hashTx refusedRun (run sampleEnv.hashTx refusedRun) o k := by
  intro h
  obtain ⟨-,l,hl,-⟩ := h ⟨9,0⟩ 5 (by decide +kernel)
  have hnone : (run sampleEnv.hashTx refusedRun).mapTxLocks.lookup 5 = none := by decide +kernel
  rw [hnone] at hl
  exact absurd hl (by simp)

end SwippCore.InstantXLocks
