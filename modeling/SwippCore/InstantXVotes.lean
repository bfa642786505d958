import SwippCore.InstantXBooks
import SwippCore.Lib.FirstByKey

/-!
# Expiry and votes of locks

Locks leave the books when their time is over, and votes count once for each masternode.
-/

set_option autoImplicit false

namespace SwippCore.InstantXExpiry
open FinMap InstantX InstantXBooks

section Lock
variable (s : State) (time : ℤ) (h : Uint256)

def Expires : Prop := ∃ l, s.mapTxLocks.lookup h = some l ∧ l.nExpiration < time

def FreedBy (o : COutPoint) : Prop :=
  Expires s time h ∧ ∃ tx, s.mapTxLockReq.lookup h = some tx ∧ o ∈ tx.prevouts

def DroppedBy (k : Uint256) : Prop :=
  ∃ l, s.mapTxLocks.lookup h = some l ∧ l.nExpiration < time ∧ h ∈ s.mapTxLockReq ∧
    k ∈ l.vecConsensusVotes.map CConsensusVote.getHash

def ForgottenBy (k : Uint256) : Prop := k = h ∧ Expires s time h ∧ h ∈ s.mapTxLockReq

end Lock

structure Cleaned (time : ℤ) (hs : List Uint256) (s s' : State) : Prop where
  inputs : ∀ o k, s'.mapLockedInputs.lookup o = some k ↔
    s.mapLockedInputs.lookup o = some k ∧ ∀ h ∈ hs, ¬ FreedBy s time h o
  votes : ∀ k v, s'.mapTxLockVote.lookup k = some v ↔
    s.mapTxLockVote.lookup k = some v ∧ ∀ h ∈ hs, ¬ DroppedBy s time h k
  rejected : ∀ k tx, s'.mapTxLockReqRejected.lookup k = some tx ↔
    s.mapTxLockReqRejected.lookup k = some tx ∧ ∀ h ∈ hs, ¬ ForgottenBy s time h k
  locks : ∀ k, k ∉ hs → s'.mapTxLocks.lookup k = s.mapTxLocks.lookup k
  requests : ∀ k, k ∉ hs → s'.mapTxLockReq.lookup k = s.mapTxLockReq.lookup k

section Loop
variable (time : ℤ)

section
variable {h : Uint256} {s : State}

theorem cleaned_alive (hn : ¬ Expires s time h) :
    Cleaned time [h] s s where
  inputs o k := by simp [FreedBy, hn]
  votes k v := by
    refine ⟨fun hv => ⟨hv,fun j hj hd => ?_⟩,And.left⟩
    obtain ⟨l,hl,hexp,-⟩ := hd
    rw [List.mem_singleton.mp hj] at hl
    exact hn ⟨l,hl,hexp⟩
  rejected k tx := by simp [ForgottenBy, hn]
  locks _ _ := rfl
  requests _ _ := rfl

theorem cleaned_unfiled (hn : s.mapTxLockReq.lookup h = none) :
    Cleaned time [h] s { s with mapTxLocks := s.mapTxLocks.erase h } := by
  have hmem : h ∉ s.mapTxLockReq := AList.lookup_eq_none.mp hn
  constructor
  · intro o k
    simp [FreedBy, hn]
  · intro k v
    simp [DroppedBy, hmem]
  · intro k tx
    simp [ForgottenBy, hmem]
  · intro k hk
    rw [lookup_erase_if, if_neg (fun he => hk (List.mem_singleton.mpr he))]
  · exact fun _ _ => rfl

theorem cleaned_filed {l : CTransactionLock} {tx : CTransaction}
    (hl : s.mapTxLocks.lookup h = some l) (hexp : l.nExpiration < time)
    (ht : s.mapTxLockReq.lookup h = some tx) :
    Cleaned time [h] s { s with
      mapLockedInputs := eraseAll s.mapLockedInputs tx.prevouts
      mapTxLockReq := s.mapTxLockReq.erase h
      mapTxLockReqRejected := s.mapTxLockReqRejected.erase h
      mapTxLockVote := eraseAll s.mapTxLockVote (l.vecConsensusVotes.map CConsensusVote.getHash)
      mapTxLocks := s.mapTxLocks.erase h } := by
  have hx : Expires s time h := ⟨l,hl,hexp⟩
  have hmem : h ∈ s.mapTxLockReq := (mem_iff_lookup _ _).mpr ⟨tx,ht⟩
  constructor
  · intro o k
    rw [lookup_erase_all]
    have hiff : FreedBy s time h o ↔ o ∈ tx.prevouts := by simp [FreedBy, hx, ht]
    by_cases ho : o ∈ tx.prevouts <;> simp [hiff, ho]
  · intro k v
    rw [lookup_erase_all]
    have hiff : DroppedBy s time h k ↔ k ∈ l.vecConsensusVotes.map CConsensusVote.getHash := by
      simp [DroppedBy, hl, hexp, hmem]
    by_cases hk : k ∈ l.vecConsensusVotes.map CConsensusVote.getHash
    · rw [if_pos hk]
      simp [hiff.mpr hk]
    · rw [if_neg hk]
      simp [mt hiff.mp hk]
  · intro k t
    rw [lookup_erase_if]
    by_cases hk : k = h <;> simp [ForgottenBy, hx, hmem, hk]
  · intro k hk
    rw [lookup_erase_if, if_neg (fun he => hk (List.mem_singleton.mpr he))]
  · intro k hk
    rw [lookup_erase_if, if_neg (fun he => hk (List.mem_singleton.mpr he))]

theorem cleaned_lock
    (hkey : ∀ l, s.mapTxLocks.lookup h = some l → l.txHash = h) :
    Cleaned time [h] s (cleanLock time h s) := by
  unfold cleanLock
  cases hl : s.mapTxLocks.lookup h with
  | none => exact cleaned_alive time (fun ⟨l,hl',_⟩ => by rw [hl] at hl'; cases hl')
  | some l =>
    dsimp only
    rw [hkey l hl]
    split_ifs with hexp
    · cases ht : s.mapTxLockReq.lookup h with
      | none => exact cleaned_unfiled time ht
      | some tx => exact cleaned_filed time hl hexp ht
    · refine cleaned_alive time (fun ⟨m,hm,hmexp⟩ => hexp ?_)
      rw [hl] at hm
      cases hm
      exact hmexp

end

theorem cleaned_frame {h k : Uint256} {s s' : State} (hc : Cleaned time [h] s s') (hk : k ≠ h) :
    (∀ o, FreedBy s' time k o ↔ FreedBy s time k o) ∧
    (∀ j, DroppedBy s' time k j ↔ DroppedBy s time k j) ∧
    ∀ j, ForgottenBy s' time k j ↔ ForgottenBy s time k j := by
  have hk' : k ∉ [h] := fun he => hk (List.mem_singleton.mp he)
  have hreq : k ∈ s'.mapTxLockReq ↔ k ∈ s.mapTxLockReq := by
    rw [mem_iff_lookup, mem_iff_lookup, hc.requests k hk']
  have hexp : Expires s' time k ↔ Expires s time k := by
    rw [Expires, Expires, hc.locks k hk']
  refine ⟨fun o => ?_,fun j => ?_,fun j => ?_⟩
  · rw [FreedBy, FreedBy, hexp, hc.requests k hk']
  · rw [DroppedBy, DroppedBy, hc.locks k hk', hreq]
  · rw [ForgottenBy, ForgottenBy, hexp, hreq]

theorem none_cons (h : Uint256) {hs : List Uint256} (X : Prop) (P Q : Uint256 → Prop)
    (hPQ : ∀ j ∈ hs, Q j ↔ P j) :
    (X ∧ ∀ j ∈ [h], ¬ P j) ∧ (∀ j ∈ hs, ¬ Q j) ↔ X ∧ ∀ j ∈ h::hs, ¬ P j := by
  rw [List.forall_mem_singleton, List.forall_mem_cons, and_assoc]
  refine and_congr_right (fun _ => and_congr_right (fun _ => ?_))
  exact forall₂_congr (fun j hj => not_congr (hPQ j hj))

theorem cleaned_cons {h : Uint256} {hs : List Uint256} {s s' s'' : State} (hn : h ∉ hs)
    (hc : Cleaned time [h] s s') (hcs : Cleaned time hs s' s'') : Cleaned time (h::hs) s s'' := by
  have hframe := fun k (hk : k ∈ hs) => cleaned_frame time hc (fun he => hn (he ▸ hk))
  constructor
  · intro o k
    rw [hcs.inputs, hc.inputs]
    exact none_cons h _ _ _ (fun j hj => (hframe j hj).1 o)
  · intro k v
    rw [hcs.votes, hc.votes]
    exact none_cons h _ _ _ (fun j hj => (hframe j hj).2.1 k)
  · intro k tx
    rw [hcs.rejected, hc.rejected]
    exact none_cons h _ _ _ (fun j hj => (hframe j hj).2.2 k)
  · intro k hk
    rw [List.mem_cons, not_or] at hk
    rw [hcs.locks k hk.2, hc.locks k (fun he => hk.1 (List.mem_singleton.mp he))]
  · intro k hk
    rw [List.mem_cons, not_or] at hk
    rw [hcs.requests k hk.2, hc.requests k (fun he => hk.1 (List.mem_singleton.mp he))]

theorem cleaned_locks {hs : List Uint256} (s : State) (hn : hs.Nodup)
    (hkey : ∀ h l, s.mapTxLocks.lookup h = some l → l.txHash = h) :
    Cleaned time hs s (cleanLocks time hs s) := by
  induction hs generalizing s with
  | nil => exact ⟨by simp [cleanLocks],by simp [cleanLocks],by simp [cleanLocks],
      fun _ _ => rfl,fun _ _ => rfl⟩
  | cons h hs ih =>
    rw [List.nodup_cons] at hn
    have hc := cleaned_lock time (hkey h)
    refine cleaned_cons time hn.1 hc (ih _ hn.2 (fun k l hl => ?_))
    by_cases hk : k = h
    · have hback : ∀ m, (cleanLock time h s).mapTxLocks.lookup h = some m →
          s.mapTxLocks.lookup h = some m := by
        intro m hm
        unfold cleanLock at hm
        split at hm
        · exact hm
        · split_ifs at hm
          · rw [lookup_erase_if, if_pos rfl] at hm
            cases hm
          · exact hm
      exact hkey k l (hk ▸ hback l (hk ▸ hl))
    · rw [hc.locks k (fun he => hk (List.mem_singleton.mp he))] at hl
      exact hkey k l hl

end Loop

section Exact
variable (s s' : State) (time : ℤ)

/-- The clean-up releases exactly what the expiring locks own, and leaves none of their
votes and refused requests. -/
structure Exact : Prop where
  inputs : ∀ o k, s'.mapLockedInputs.lookup o = some k ↔
    s.mapLockedInputs.lookup o = some k ∧ ¬ Expires s time k
  votes : ∀ k v, s'.mapTxLockVote.lookup k = some v → ¬ Expires s time v.txHash
  rejected : ∀ k, k ∈ s'.mapTxLockReqRejected → ¬ Expires s time k

structure Accounted : Prop where
  owned : ∀ o k, s.mapLockedInputs.lookup o = some k → Expires s time k →
    ∃ h, FreedBy s time h o
  foreign : ∀ o k h, s.mapLockedInputs.lookup o = some k → FreedBy s time h o → Expires s time k
  votes : ∀ k v, s.mapTxLockVote.lookup k = some v → Expires s time v.txHash →
    ∃ h, DroppedBy s time h k
  rejected : ∀ k, k ∈ s.mapTxLockReqRejected → Expires s time k → k ∈ s.mapTxLockReq

variable {s s' time}

theorem cleaned_exact_iff {hs : List Uint256} (hc : Cleaned time hs s s')
    (hall : ∀ h, Expires s time h → h ∈ hs) : Exact s s' time ↔ Accounted s time := by
  have hfree : ∀ o, (∀ h ∈ hs, ¬ FreedBy s time h o) ↔ ¬ ∃ h, FreedBy s time h o := by
    intro o
    exact ⟨fun hn ⟨h,hf⟩ => hn h (hall h hf.1) hf,fun hn h _ hf => hn ⟨h,hf⟩⟩
  have hdrop : ∀ k, (∀ h ∈ hs, ¬ DroppedBy s time h k) ↔ ¬ ∃ h, DroppedBy s time h k := by
    intro k
    constructor
    · rintro hn ⟨h,hd⟩
      have hx : Expires s time h := by
        obtain ⟨l,hl,hexp,-⟩ := hd
        exact ⟨l,hl,hexp⟩
      exact hn h (hall h hx) hd
    · exact fun hn h _ hd => hn ⟨h,hd⟩
  have hforget : ∀ k, (∀ h ∈ hs, ¬ ForgottenBy s time h k) ↔
      ¬ (Expires s time k ∧ k ∈ s.mapTxLockReq) := by
    intro k
    refine ⟨fun hn hk => hn k (hall k hk.1) ⟨rfl,hk⟩,?_⟩
    rintro hn h - ⟨rfl,hf⟩
    exact hn hf
  constructor
  · intro he
    refine ⟨fun o k ho hk => ?_,fun o k h ho hf => ?_,fun k v hv hx => ?_,fun k hk hx => ?_⟩
    · by_contra hn
      exact ((he.inputs o k).mp ((hc.inputs o k).mpr ⟨ho,(hfree o).mpr hn⟩)).2 hk
    · by_contra hn
      exact ((hc.inputs o k).mp ((he.inputs o k).mpr ⟨ho,hn⟩)).2 h (hall h hf.1) hf
    · by_contra hn
      exact he.votes k v ((hc.votes k v).mpr ⟨hv,(hdrop k).mpr hn⟩) hx
    · by_contra hn
      obtain ⟨tx,ht⟩ := (mem_iff_lookup _ _).mp hk
      refine he.rejected k ((mem_iff_lookup _ _).mpr ⟨tx,(hc.rejected k tx).mpr ⟨ht,?_⟩⟩) hx
      exact (hforget k).mpr (fun hf => hn hf.2)
  · intro ha
    refine ⟨fun o k => ?_,fun k v hv hx => ?_,fun k hk hx => ?_⟩
    · rw [hc.inputs, hfree]
      refine and_congr_right (fun ho => not_congr ⟨?_,ha.owned o k ho⟩)
      rintro ⟨h,hf⟩
      exact ha.foreign o k h ho hf
    · obtain ⟨hv,hn⟩ := (hc.votes k v).mp hv
      exact (hdrop k).mp hn (ha.votes k v hv hx)
    · obtain ⟨tx,ht⟩ := (mem_iff_lookup _ _).mp hk
      obtain ⟨ht,hn⟩ := (hc.rejected k tx).mp ht
      exact (hforget k).mp hn ⟨hx,ha.rejected k ((mem_iff_lookup _ _).mpr ⟨tx,ht⟩) hx⟩

end Exact

variable (hashTx : CTransaction → Uint256)

/-- In every state of a run, a clean-up releases exactly what the expiring locks own exactly
when that is what their filed requests and held votes name. -/
theorem clean_exact_iff (es : List Step) (A : View) :
    Exact (run hashTx es) (run hashTx (.clean A::es)) A.time ↔ Accounted (run hashTx es) A.time := by
  have hkey := (inv_run hashTx es).lockKeyed
  have hperm := List.mergeSort_perm (run hashTx es).mapTxLocks.keys (fun a b => decide (a ≤ b))
  refine cleaned_exact_iff (cleaned_locks A.time _ ?_ hkey) (fun h hx => ?_)
  · exact hperm.nodup_iff.mpr (run hashTx es).mapTxLocks.keys_nodup
  · obtain ⟨l,hl,-⟩ := hx
    rw [hperm.mem_iff]
    exact AList.mem_keys.mp ((mem_iff_lookup _ _).mpr ⟨l,hl⟩)

def refusedRun : List Step :=
  [.txlreq { sampleView with acceptToMemoryPool := fun _ => false } sampleRequest]

/-- An hour later the lock is dropped, and the input stays locked. -/
theorem refused_input_stays : ¬ ∀ (hashTx : CTransaction → Uint256) (es : List Step) (A : View),
    Exact (run hashTx es) (run hashTx (.clean A::es)) A.time := by
  intro h
  have he := h sampleEnv.hashTx refusedRun { sampleView with time := 9000 }
  have hin := ((he.inputs ⟨9,0⟩ 5).mp (by decide +kernel)).2
  refine hin ?_
  have hl : ((run sampleEnv.hashTx refusedRun).mapTxLocks.lookup 5).any
      (fun l => decide (l.nExpiration < 9000)) = true := by decide +kernel
  obtain ⟨l,hl,hexp⟩ := (Option.any_eq_true _ _).mp hl
  exact ⟨l,hl,of_decide_eq_true hexp⟩

end SwippCore.InstantXExpiry

namespace SwippCore.InstantXVotes
open InstantX InstantXBooks FirstByKey

variable (hashTx : CTransaction → Uint256)

def Agree (A B : View) : Prop :=
  Handling B ∧ B.masternodeRank = A.masternodeRank ∧ B.vecMasternodes = A.vecMasternodes ∧
    B.verifyMessage = A.verifyMessage

def deliver : List (View × CConsensusVote) → State → State
  | [], s => s
  | m::ms, s => deliver ms (txlvote hashTx m.1 m.2 s)

/-- The masternodes whose votes `CountSignatures` counts. -/
def CTransactionLock.masternodes (l : CTransactionLock) : List CTxIn :=
  if l.nBlockHeight = 0 then [] else l.countedVotes.map CConsensusVote.vinMasternode

def counted (h : Uint256) (s : State) : List CTxIn :=
  match s.mapTxLocks.lookup h with
  | none => []
  | some l => CTransactionLock.masternodes l

def contribution (A : View) (nBlockHeight : ℤ) (v : CConsensusVote) : List CTxIn :=
  if nBlockHeight ≠ 0 ∧ v.nBlockHeight = nBlockHeight ∧ voteAccepted A v = true then
    [v.vinMasternode] else []

def seen (s : State) (k : Uint256) : Bool := k ∈ s.mapTxLockVote

variable {hashTx}

theorem agree_accepted {A B : View} (h : Agree A B) (v : CConsensusVote) :
    voteAccepted B v = voteAccepted A v := by
  simp only [voteAccepted, CConsensusVote.signatureValid, getMasternodeByVin, h.2.1, h.2.2.1,
    h.2.2.2]

theorem masternodes_add {A : View} {l : CTransactionLock} {v : CConsensusVote}
    (hv : voteAccepted A v = true) : CTransactionLock.masternodes (l.addSignature v) =
      CTransactionLock.masternodes l ++ contribution A l.nBlockHeight v := by
  simp only [CTransactionLock.masternodes, CTransactionLock.addSignature,
    CTransactionLock.countedVotes, contribution, hv, List.filter_append, List.map_append]
  by_cases hz : l.nBlockHeight = 0
  · simp [hz]
  · by_cases hn : v.nBlockHeight = l.nBlockHeight <;> simp [hz, hn]

theorem masternodes_held {l m : CTransactionLock} (h : m.held = l.held) :
    CTransactionLock.masternodes m = CTransactionLock.masternodes l := by
  simp only [CTransactionLock.held, Prod.mk.injEq] at h
  simp only [CTransactionLock.masternodes, CTransactionLock.countedVotes, h.1, h.2.2]

theorem vote_step {A B : View} (hB : Agree A B) {h : Uint256} {s : State} {l : CTransactionLock}
    (hl : s.mapTxLocks.lookup h = some l) {v : CConsensusVote} (hv : v.txHash = h)
    (hs : seen s v.getHash = false) :
    seen (txlvote hashTx B v s) = (fun k => k == v.getHash || seen s k) ∧
    ∃ m, (txlvote hashTx B v s).mapTxLocks.lookup h = some m ∧ m.nBlockHeight = l.nBlockHeight ∧
      CTransactionLock.masternodes m =
        CTransactionLock.masternodes l ++ contribution A l.nBlockHeight v := by
  have hfresh : v.getHash ∉ s.mapTxLockVote := by simpa [seen] using hs
  have hmem : ∀ k, decide (k ∈ s.mapTxLockVote.insert v.getHash v) =
      (k == v.getHash || seen s k) := by
    intro k
    by_cases hk : k = v.getHash <;> simp [AList.mem_insert, seen, hk]
  cases hacc : voteAccepted B v with
  | false =>
    rw [txlvote_refused hB.1 hfresh hacc]
    refine ⟨funext hmem,l,hl,rfl,?_⟩
    rw [agree_accepted hB] at hacc
    simp [contribution, hacc]
  | true =>
    obtain ⟨unknown,inv,he⟩ := txlvote_counted hashTx hB.1 hfresh hacc
    rw [he]
    have hlock : lockFor B v.txHash s = l := lock_for_lookup B (hv ▸ hl)
    have hfile : (fileVote B v s).mapTxLocks.lookup h = some (l.addSignature v) := by
      rw [← hv, fileVote, hlock]
      exact AList.lookup_insert _
    have hadd := masternodes_add (l := l) ((agree_accepted hB v).symm.trans hacc)
    split_ifs with hc
    · refine ⟨funext fun k => ?_,?_⟩
      · simp only [seen, complete_lock_votes]
        exact hmem k
      · obtain ⟨m,hm,hh⟩ := same_locks_some
          (fun k => (complete_lock_locks hashTx B v.txHash (fileVote B v s) k).symm) hfile
        refine ⟨m,hm,?_,(masternodes_held hh).trans hadd⟩
        exact (Prod.mk.inj hh).1
    · exact ⟨funext hmem,_,hfile,rfl,hadd⟩

theorem deliver_counted {A : View} {h : Uint256} {ms : List (View × CConsensusVote)}
    (hms : ∀ m ∈ ms, Agree A m.1 ∧ m.2.txHash = h) (s : State) (l : CTransactionLock)
    (hl : s.mapTxLocks.lookup h = some l) :
    counted h (deliver hashTx ms s) = CTransactionLock.masternodes l ++
      (firsts CConsensusVote.getHash (seen s) (ms.map Prod.snd)).flatMap
        (contribution A l.nBlockHeight) := by
  induction ms generalizing s l with
  | nil => simp [deliver, counted, hl, firsts]
  | cons m ms ih =>
    obtain ⟨hB,hv⟩ := hms m List.mem_cons_self
    have hms' : ∀ m ∈ ms, Agree A m.1 ∧ m.2.txHash = h :=
      fun n hn => hms n (List.mem_cons_of_mem m hn)
    rw [deliver, List.map_cons, firsts]
    split_ifs with hs
    · rw [txlvote_seen (by simpa [seen] using hs)]
      exact ih hms' s l hl
    · obtain ⟨hseen,m',hm',hh,hmn⟩ := vote_step hB hl hv (by simpa using hs)
      rw [ih hms' _ m' hm', hseen, hh, hmn, List.flatMap_cons, List.append_assoc]

theorem contribution_perm {A : View} {n : ℤ} {v w : CConsensusVote} :
    (contribution A n v).Perm (contribution A n w) ↔ contribution A n v = contribution A n w := by
  unfold contribution
  split_ifs <;> simp

/-- Messages of one new hash are judged alike, and a vote whose hash was seen before is
refused or its masternode counted already. -/
def Consistent (A : View) (s : State) (h : Uint256) (nBlockHeight : ℤ)
    (vs : List CConsensusVote) : Prop :=
  (∀ v ∈ vs, ∀ w ∈ vs, v.getHash ∉ s.mapTxLockVote → v.getHash = w.getHash →
    contribution A nBlockHeight v = contribution A nBlockHeight w) ∧
  ∀ v ∈ vs, v.getHash ∈ s.mapTxLockVote →
    contribution A nBlockHeight v = [] ∨ v.vinMasternode ∈ counted h s

theorem consistent_iff_uniform (A : View) (s : State) (h : Uint256) (n : ℤ)
    (vs : List CConsensusVote) :
    Consistent A s h n vs ↔ Uniform CConsensusVote.getHash (contribution A n) (seen s) vs ∧
      ∀ v ∈ vs, seen s v.getHash = true → contribution A n v = [] ∨
        v.vinMasternode ∈ counted h s := by
  simp only [Consistent, Uniform, contribution_perm, seen, decide_eq_false_iff_not,
    decide_eq_true_eq]

theorem contribution_eq {A : View} {n : ℤ} {v : CConsensusVote} :
    contribution A n v = [] ∨ contribution A n v = [v.vinMasternode] := by
  unfold contribution
  split_ifs
  · exact Or.inr rfl
  · exact Or.inl rfl

/-- A masternode that a delivery adds to the count is named by a vote of a new hash, and a
vote of this masternode for the same transaction has the same hash. -/
theorem seen_counted_before {A : View} {h : Uint256} {s : State} {l : CTransactionLock}
    (hl : s.mapTxLocks.lookup h = some l) {ms : List (View × CConsensusVote)}
    (hms : ∀ m ∈ ms, Agree A m.1 ∧ m.2.txHash = h) {v : CConsensusVote} (hv : v.txHash = h)
    (hs : seen s v.getHash = true)
    (hc : v.vinMasternode ∈ counted h (deliver hashTx ms s)) : v.vinMasternode ∈ counted h s := by
  rw [deliver_counted hms s l hl] at hc
  rcases List.mem_append.mp hc with hc | hc
  · simpa [counted, hl] using hc
  · obtain ⟨w,hw,hin⟩ := List.mem_flatMap.mp hc
    obtain ⟨m,hm,rfl⟩ := List.mem_map.mp (firsts_subset hw)
    have hvin : v.vinMasternode = m.2.vinMasternode := by
      rcases contribution_eq (A := A) (n := l.nBlockHeight) (v := m.2) with he | he
      · simp [he] at hin
      · simpa [he] using hin
    have hhash : m.2.getHash = v.getHash := by
      simp only [CConsensusVote.getHash, hvin, hv, (hms m hm).2]
    have hfresh := firsts_fresh hw
    rw [hhash, hs] at hfresh
    cases hfresh

def Delivery (A : View) (vs : List CConsensusVote) (ms : List (View × CConsensusVote)) : Prop :=
  (ms.map Prod.snd).Perm vs ∧ ∀ m ∈ ms, Agree A m.1

theorem delivery_views {A : View} {h : Uint256} {vs : List CConsensusVote}
    (hvs : ∀ v ∈ vs, v.txHash = h) {ms : List (View × CConsensusVote)}
    (hd : Delivery A vs ms) : ∀ m ∈ ms, Agree A m.1 ∧ m.2.txHash = h :=
  fun m hm => ⟨hd.2 m hm,hvs _ (hd.1.mem_iff.mp (List.mem_map_of_mem hm))⟩

theorem delivery_of_perm {A : View} (hA : Handling A) {vs ws : List CConsensusVote}
    (h : ws.Perm vs) : Delivery A vs (ws.map (Prod.mk A)) := by
  refine ⟨by simpa [List.map_map, Function.comp_def] using h,?_⟩
  intro m hm
  obtain ⟨v,_,rfl⟩ := List.mem_map.mp hm
  exact ⟨hA,rfl,rfl,rfl⟩

def deliverySteps (ms : List (View × CConsensusVote)) : List Step :=
  (ms.map (fun m => Step.txlvote m.1 m.2)).reverse

theorem run_delivery (ms : List (View × CConsensusVote)) (es : List Step) :
    run hashTx (deliverySteps ms ++ es) = deliver hashTx ms (run hashTx es) := by
  induction ms generalizing es with
  | nil => rfl
  | cons m ms ih =>
    have := ih (.txlvote m.1 m.2::es)
    simp only [deliverySteps, List.map_cons, List.reverse_cons, List.append_assoc,
      List.cons_append, List.nil_append] at this ⊢
    exact this

theorem counted_nodup (es : List Step) (h : Uint256) : (counted h (run hashTx es)).Nodup := by
  unfold counted
  split
  · exact List.nodup_nil
  · rename_i l hl
    unfold CTransactionLock.masternodes
    split_ifs
    · exact List.nodup_nil
    · exact masternodes_distinct (inv_run hashTx es) hl

/-- For a living lock the count is the same in every order of the messages, every valid
vote is counted in every order, and nothing is counted twice, exactly when the
messages are consistent. -/
theorem vote_order_iff (es : List Step) (A : View) (hA : Handling A) (h : Uint256)
    (l : CTransactionLock) (hl : (run hashTx es).mapTxLocks.lookup h = some l)
    (vs : List CConsensusVote) (hvs : ∀ v ∈ vs, v.txHash = h) :
    ((∀ ms ns, Delivery A vs ms → Delivery A vs ns →
        (counted h (deliver hashTx ms (run hashTx es))).Perm
          (counted h (deliver hashTx ns (run hashTx es)))) ∧
      (∀ ms, Delivery A vs ms → ∀ v ∈ vs,
        l.nBlockHeight ≠ 0 → v.nBlockHeight = l.nBlockHeight → voteAccepted A v = true →
        v.vinMasternode ∈ counted h (deliver hashTx ms (run hashTx es))) ∧
      (∀ ms, Delivery A vs ms → (counted h (deliver hashTx ms (run hashTx es))).Nodup)) ↔
    Consistent A (run hashTx es) h l.nBlockHeight vs := by
  rw [consistent_iff_uniform]
  constructor
  · rintro ⟨hperm,hall,-⟩
    refine ⟨uniform_of_orders (fun ys zs hy hz => ?_),fun v hv hs => ?_⟩
    · have hdy := delivery_of_perm hA hy
      have hdz := delivery_of_perm hA hz
      have hp := hperm _ _ hdy hdz
      rw [deliver_counted (delivery_views hvs hdy) _ l hl,
        deliver_counted (delivery_views hvs hdz) _ l hl] at hp
      simpa [List.map_map, Function.comp_def] using (List.perm_append_left_iff _).mp hp
    · by_cases hc : l.nBlockHeight ≠ 0 ∧ v.nBlockHeight = l.nBlockHeight ∧
          voteAccepted A v = true
      · have hd := delivery_of_perm hA (List.Perm.refl vs)
        exact Or.inr (seen_counted_before hl (delivery_views hvs hd) (hvs v hv) hs
          (hall _ hd v hv hc.1 hc.2.1 hc.2.2))
      · exact Or.inl (if_neg hc)
  · rintro ⟨hu,hbefore⟩
    refine ⟨fun ms ns hm hn => ?_,fun ms hm v hv hz hh hacc => ?_,fun ms _ => ?_⟩
    · rw [deliver_counted (delivery_views hvs hm) _ l hl,
        deliver_counted (delivery_views hvs hn) _ l hl]
      exact ((orders_iff_uniform _ _ vs).mpr hu _ _ hm.1 hn.1).append_left _
    · have hc : contribution A l.nBlockHeight v = [v.vinMasternode] := by
        simp [contribution, hz, hh, hacc]
      rw [deliver_counted (delivery_views hvs hm) _ l hl]
      cases hs : seen (run hashTx es) v.getHash with
      | true =>
        have hin := (hbefore v hv hs).resolve_left (by simp [hc])
        exact List.mem_append_left _ (by simpa [counted, hl] using hin)
      | false =>
        obtain ⟨w,hw,hk⟩ := firsts_covers (hm.1.mem_iff.mpr hv) hs
        have hwv := hu v hv w (hm.1.mem_iff.mp (firsts_subset hw)) hs hk.symm
        rw [contribution_perm, hc] at hwv
        exact List.mem_append_right _ (List.mem_flatMap.mpr ⟨w,hw,by simp [← hwv]⟩)
    · rw [← run_delivery]
      exact counted_nodup _ h

def requestedRun : List Step := [.txlreq sampleView sampleRequest]

def countedRun : List Step := .txlvote sampleView (sampleVote 0)::requestedRun

/-- The vote of masternode 0 comes again beside two new ones. -/
theorem two_votes_any_order :
    (counted 5 (deliver sampleEnv.hashTx [(sampleView,sampleVote 0),(sampleView,sampleVote 1),
        (sampleView,sampleVote 2)] (run sampleEnv.hashTx countedRun))).Perm
      (counted 5 (deliver sampleEnv.hashTx [(sampleView,sampleVote 1),(sampleView,sampleVote 0),
        (sampleView,sampleVote 2)] (run sampleEnv.hashTx countedRun))) := by
  have hA : Handling sampleView := ⟨rfl,rfl⟩
  have hl : (run sampleEnv.hashTx countedRun).mapTxLocks.lookup 5 =
      some ⟨14,5,[sampleVote 0],4600,1300⟩ := by decide +kernel
  refine ((vote_order_iff countedRun sampleView hA 5 _ hl
    [sampleVote 0,sampleVote 1,sampleVote 2] ?_).mpr ?_).1 _ _
    (delivery_of_perm hA (List.Perm.refl _)) (delivery_of_perm hA (List.Perm.swap _ _ _))
  · decide
  · unfold Consistent
    decide +kernel

def forgedVote : CConsensusVote := { sampleVote 0 with vchMasterNodeSignature := [1] }

/-- A vote with a bad signature, and the same masternode's own vote. -/
theorem forged_vote_blocks :
    ¬ ∀ ms ns, Delivery sampleView [sampleVote 0,forgedVote] ms →
      Delivery sampleView [sampleVote 0,forgedVote] ns →
      (counted 5 (deliver sampleEnv.hashTx ms (run sampleEnv.hashTx requestedRun))).Perm
        (counted 5 (deliver sampleEnv.hashTx ns (run sampleEnv.hashTx requestedRun))) := by
  intro h
  have hA : Handling sampleView := ⟨rfl,rfl⟩
  have hp := h _ _ (delivery_of_perm hA (List.Perm.refl _))
    (delivery_of_perm hA (List.Perm.swap _ _ []))
  exact absurd hp.length_eq (by decide +kernel)

end SwippCore.InstantXVotes
