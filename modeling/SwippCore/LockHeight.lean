import SwippCore.InstantXRequest

/-!
# The height of a lock

`CreateNewLock` takes the height from the age that its loop looked at last, which is
that of the first input. So a lock is filed four blocks above the first input, on
every node and at every tip, and above the other inputs only where these are no higher.
-/

set_option autoImplicit false

namespace SwippCore.LockHeight
open FinMap InstantX

section Ages
variable (A : View)

theorem input_ages_append (is : List CTxIn) (i : CTxIn) (nTxAge : ℤ) :
    inputAges A nTxAge (is++[i]) =
      if ∀ j ∈ is++[i], 6 ≤ getInputAge A j then some (getInputAge A i) else none := by
  induction is generalizing nTxAge with
  | nil =>
    by_cases h : getInputAge A i < 6
    · simp [inputAges, h]
    · simp [inputAges, h, show 6 ≤ getInputAge A i by omega]
  | cons j is ih =>
    by_cases h : getInputAge A j < 6
    · simp [inputAges, h]
    · have hle : 6 ≤ getInputAge A j := by omega
      simp only [List.cons_append, inputAges, if_neg h, ih, List.forall_mem_cons, hle, true_and]

def lockHeight (vin : List CTxIn) : Option ℤ :=
  (inputAges A 0 vin.reverse).map (fun nTxAge => A.nBestHeight-nTxAge+4)

variable (conf : Uint256 → ℤ)

def Found (vin : List CTxIn) : Prop :=
  ∀ i ∈ vin, ∃ tx hashBlock, A.getTransaction i.prevout.hash = some (tx,hashBlock) ∧
    A.blockHeight hashBlock = some (conf i.prevout.hash)

def Deep (vin : List CTxIn) : Prop := ∀ i ∈ vin, conf i.prevout.hash+6 ≤ A.nBestHeight

theorem input_age {vin : List CTxIn} (h : Found A conf vin) {i : CTxIn} (hi : i ∈ vin) :
    getInputAge A i = A.nBestHeight-conf i.prevout.hash := by
  obtain ⟨tx,hashBlock,ht,hb⟩ := h i hi
  simp only [getInputAge, ht, hb]

theorem lock_height_cons {i : CTxIn} {vin : List CTxIn} (h : Found A conf (i::vin)) :
    lockHeight A (i::vin) = none ∨ lockHeight A (i::vin) = some (conf i.prevout.hash+4) := by
  rw [lockHeight, List.reverse_cons, input_ages_append]
  split_ifs
  · rw [Option.map_some, input_age A conf h (by simp)]
    exact Or.inr (congrArg some (by omega))
  · exact Or.inl rfl

theorem lock_height_deep {i : CTxIn} {vin : List CTxIn} (h : Found A conf (i::vin))
    (hd : Deep A conf (i::vin)) : lockHeight A (i::vin) = some (conf i.prevout.hash+4) := by
  have hall : ∀ j ∈ vin.reverse++[i], 6 ≤ getInputAge A j := by
    intro j hj
    have hj : j ∈ i::vin := by simpa [or_comm] using hj
    rw [input_age A conf h hj]
    have := hd j hj
    omega
  rw [lockHeight, List.reverse_cons, input_ages_append, if_pos hall, Option.map_some,
    input_age A conf h (by simp)]
  exact congrArg some (by omega)

end Ages

section Locks
variable (hashTx : CTransaction → Uint256)

theorem create_new_lock_none {A : View} {tx : CTransaction} (s : State)
    (h : lockHeight A tx.vin = none) : createNewLock hashTx A tx s = (0,s) := by
  rw [lockHeight, Option.map_eq_none_iff] at h
  rw [createNewLock, h]

theorem create_new_lock_some (A : View) (tx : CTransaction) (s : State) (n : ℤ)
    (h : lockHeight A tx.vin = some n) :
    (createNewLock hashTx A tx s).1 = n ∧ ∃ l, l.nBlockHeight = n ∧
      (createNewLock hashTx A tx s).2 =
        { s with mapTxLocks := s.mapTxLocks.insert (hashTx tx) l } := by
  obtain ⟨nTxAge,ha,hn⟩ := Option.map_eq_some_iff.mp h
  rw [createNewLock, ha]
  cases hl : s.mapTxLocks.lookup (hashTx tx) with
  | none => exact ⟨hn,_,hn,rfl⟩
  | some l => exact ⟨hn,_,hn,rfl⟩

def Holds (hash : Uint256) (n : ℤ) (s : State) : Prop :=
  ∀ l, s.mapTxLocks.lookup hash = some l → l.nBlockHeight = 0 ∨ l.nBlockHeight = n

variable {hash : Uint256} {n : ℤ} {s t : State}

section
variable (h : Holds hash n s)
include h

theorem holds_same (hl : SameLocks t.mapTxLocks s.mapTxLocks) :
    Holds hash n t := by
  intro l hlt
  obtain ⟨m,hm,he⟩ := same_locks_some hl hlt
  rw [CTransactionLock.held, CTransactionLock.held, Prod.mk.injEq] at he
  rw [← he.1]
  exact h m hm

theorem holds_insert {k : Uint256} {l : CTransactionLock}
    (hl : k = hash → l.nBlockHeight = 0 ∨ l.nBlockHeight = n)
    (ht : t.mapTxLocks = s.mapTxLocks.insert k l) : Holds hash n t := by
  intro m hm
  rw [ht, lookup_insert_if] at hm
  split_ifs at hm with hk
  · cases hm
    exact hl hk.symm
  · exact h m hm

theorem holds_create {A : View} {tx : CTransaction}
    (hn : hashTx tx = hash → lockHeight A tx.vin = none ∨ lockHeight A tx.vin = some n) :
    Holds hash n (createNewLock hashTx A tx s).2 := by
  cases hh : lockHeight A tx.vin with
  | none =>
    rw [create_new_lock_none hashTx s hh]
    exact h
  | some k =>
    obtain ⟨-,l,hl,he⟩ := create_new_lock_some hashTx A tx s k hh
    apply holds_insert h _ (congrArg State.mapTxLocks he)
    intro hk
    have hk := (hn hk).resolve_left (by simp [hh])
    rw [hh] at hk
    exact Or.inr (hl.trans (Option.some.inj hk))

theorem holds_txlreq (A : View) (tx : CTransaction)
    (hn : hashTx tx = hash → lockHeight A tx.vin = none ∨ lockHeight A tx.vin = some n) :
    Holds hash n (txlreq hashTx A tx s) := by
  have hc := holds_create hashTx h hn
  unfold txlreq
  split_ifs
  · exact h
  · apply holds_same hc
    rw [(InstantXRequest.accept_request_fields hashTx A tx _ _).1]
    exact fun _ => rfl
  · exact holds_same hc (InstantXRequest.reject_request_fields hashTx A tx _).1

theorem holds_vote (A : View) (v : CConsensusVote) :
    Holds hash n (txlvote hashTx A v s) := by
  by_cases hA : Handling A
  · by_cases hseen : v.getHash ∈ s.mapTxLockVote
    · rw [txlvote_seen hseen]
      exact h
    · cases hv : voteAccepted A v with
      | false =>
        rw [txlvote_refused hA hseen hv]
        exact h
      | true =>
        have hfile : Holds hash n (fileVote A v s) := by
          apply holds_insert h _ rfl
          intro hk
          cases hl : s.mapTxLocks.lookup v.txHash with
          | none => simp [lockFor, hl, CTransactionLock.addSignature]
          | some l => simpa [lockFor, hl, CTransactionLock.addSignature] using h l (hk ▸ hl)
        obtain ⟨unknown,inv,he⟩ := txlvote_counted hashTx hA hseen hv
        rw [he]
        split_ifs
        · exact holds_same (t := completeLock hashTx A v.txHash (fileVote A v s)) hfile
            (complete_lock_locks hashTx A _ _)
        · exact hfile
  · rw [txlvote_ignored hA]
    exact h

theorem holds_clean_lock (time : ℤ) (k : Uint256) :
    Holds hash n (cleanLock time k s) := by
  unfold cleanLock
  split
  · exact h
  · split_ifs
    · split <;>
      · intro l hl
        simp only [lookup_erase_if] at hl
        split_ifs at hl
        exact h l hl
    · exact h

theorem holds_clean_locks (time : ℤ) (hs : List Uint256) :
    Holds hash n (cleanLocks time hs s) := by
  induction hs generalizing s with
  | nil => exact h
  | cons k hs ih => exact ih (holds_clean_lock h time k)

end

end Locks

section Runs
variable (hashTx : CTransaction → Uint256)

def following : List Step → State → State
  | [], s => s
  | e::es, s => following es (step hashTx s e)

/-- Whenever the request comes again, it is the same transaction, and the node still has
its inputs where they were. -/
def SeenAgain (conf : Uint256 → ℤ) (tx : CTransaction) : List Step → Prop
  | [] => True
  | .txlreq A t::es => (hashTx t = hashTx tx → t = tx ∧ Found A conf tx.vin) ∧ SeenAgain conf tx es
  | _::es => SeenAgain conf tx es

theorem holds_following {conf : Uint256 → ℤ} {tx : CTransaction} (i : CTxIn) (is : List CTxIn)
    (hvin : tx.vin = i::is) {es : List Step} (s : State)
    (h : Holds (hashTx tx) (conf i.prevout.hash+4) s) (hes : SeenAgain hashTx conf tx es) :
    Holds (hashTx tx) (conf i.prevout.hash+4) (following hashTx es s) := by
  induction es generalizing s with
  | nil => exact h
  | cons e es ih =>
    cases e with
    | txlreq A t =>
      apply ih _ _ hes.2
      apply holds_txlreq hashTx h A t
      intro ht
      obtain ⟨rfl,hf⟩ := hes.1 ht
      rw [hvin] at hf ⊢
      exact lock_height_cons A conf hf
    | txlvote A v => exact ih _ (holds_vote hashTx h A v) hes
    | clean A => exact ih _ (holds_clean_locks h A.time _) hes

/-- All nodes that have the inputs of the transaction at these heights file one and the same
height for its lock, above all of them: at every tip, with the inputs in any order, and
however often the request comes again. -/
def Fixed (conf : Uint256 → ℤ) (tx : CTransaction) : Prop :=
  ∃ n, (∀ i ∈ tx.vin, conf i.prevout.hash < n) ∧
    ∀ (A : View) (vin : List CTxIn) (s : State) (es : List Step), vin.Perm tx.vin →
      Found A conf vin → Deep A conf vin → SeenAgain hashTx conf { tx with vin := vin } es →
      let made := createNewLock hashTx A { tx with vin := vin } s
      made.1 = n ∧
      (∃ l, made.2.mapTxLocks.lookup (hashTx { tx with vin := vin }) = some l ∧
        l.nBlockHeight = n) ∧
      Holds (hashTx { tx with vin := vin }) n (following hashTx es made.2)

def viewAt (conf : Uint256 → ℤ) (nBestHeight : ℤ) : View :=
  { sampleView with
    getTransaction := fun h => some (⟨1,1,[],[],0⟩,h)
    blockHeight := fun h => some (conf h)
    nBestHeight := nBestHeight }

theorem view_found (conf : Uint256 → ℤ) (nBestHeight : ℤ) (vin : List CTxIn) :
    Found (viewAt conf nBestHeight) conf vin := fun i _ => ⟨_,i.prevout.hash,rfl,rfl⟩

theorem deep_enough (conf : Uint256 → ℤ) (vin : List CTxIn) :
    ∃ nBestHeight, ∀ i ∈ vin, conf i.prevout.hash+6 ≤ nBestHeight := by
  induction vin with
  | nil => exact ⟨0,by simp⟩
  | cons i vin ih =>
    obtain ⟨m,hm⟩ := ih
    refine ⟨max (conf i.prevout.hash+6) m,fun j hj => ?_⟩
    rcases List.mem_cons.mp hj with rfl | hj
    · exact le_max_left _ _
    · exact (hm j hj).trans (le_max_right _ _)

theorem fixed_nonempty {conf : Uint256 → ℤ} {tx : CTransaction} (h : Fixed hashTx conf tx) :
    tx.vin ≠ [] := by
  intro hnil
  obtain ⟨n,-,h⟩ := h
  have hat : ∀ k : ℤ, (createNewLock hashTx (viewAt conf k) { tx with vin := [] }
      State.empty).1 = n := by
    intro k
    exact (h (viewAt conf k) [] State.empty [] (hnil ▸ .refl _) (view_found conf k [])
      (by simp [Deep]) trivial).1
  have hmade : ∀ k : ℤ, (createNewLock hashTx (viewAt conf k) { tx with vin := [] }
      State.empty).1 = k+4 := by
    intro k
    refine (create_new_lock_some hashTx _ _ State.empty (k+4) ?_).1
    simp [lockHeight, inputAges, viewAt]
  have h0 := (hat 0).symm.trans (hmade 0)
  have h1 := (hat 1).symm.trans (hmade 1)
  omega

theorem fixed_front {conf : Uint256 → ℤ} {tx : CTransaction} {n : ℤ}
    (h : ∀ (A : View) (vin : List CTxIn) (s : State), vin.Perm tx.vin → Found A conf vin →
      Deep A conf vin → (createNewLock hashTx A { tx with vin := vin } s).1 = n)
    (i : CTxIn) (hi : i ∈ tx.vin) : n = conf i.prevout.hash+4 := by
  obtain ⟨k,hk⟩ := deep_enough conf tx.vin
  have hperm : (i::tx.vin.erase i).Perm tx.vin := (List.perm_cons_erase hi).symm
  have hfound := view_found conf k (i::tx.vin.erase i)
  have hdeep : Deep (viewAt conf k) conf (i::tx.vin.erase i) :=
    fun j hj => hk j (hperm.subset hj)
  have hheight := lock_height_deep (viewAt conf k) conf hfound hdeep
  rw [← h (viewAt conf k) _ State.empty hperm hfound hdeep]
  exact (create_new_lock_some hashTx _ { tx with vin := i::tx.vin.erase i } State.empty _ hheight).1

/-- The nodes agree on a height above every input exactly for the transactions whose
inputs are all confirmed at one height. -/
theorem lock_height_fixed_iff (conf : Uint256 → ℤ) (tx : CTransaction) :
    Fixed hashTx conf tx ↔ tx.vin ≠ [] ∧
      ∀ i ∈ tx.vin, ∀ j ∈ tx.vin, conf i.prevout.hash = conf j.prevout.hash := by
  constructor
  · intro h
    refine ⟨fixed_nonempty hashTx h,fun i hi j hj => ?_⟩
    obtain ⟨n,-,h⟩ := h
    have hfront := fixed_front hashTx
      (fun A vin s hp hf hd => (h A vin s [] hp hf hd trivial).1)
    have hni := hfront i hi
    have hnj := hfront j hj
    omega
  · rintro ⟨hne,hsame⟩
    obtain ⟨k,is,hk⟩ := List.exists_cons_of_ne_nil hne
    have hkmem : k ∈ tx.vin := by simp [hk]
    refine ⟨conf k.prevout.hash+4,fun i hi => ?_,fun A vin s es hp hf hd hes => ?_⟩
    · have := hsame i hi k hkmem
      omega
    · obtain ⟨i,js,rfl⟩ := List.exists_cons_of_ne_nil (hp.symm.subset hkmem |> List.ne_nil_of_mem)
      have hi := hsame i (hp.subset (by simp)) k hkmem
      rw [← hi]
      have hheight := lock_height_deep A conf hf hd
      obtain ⟨hone,l,hl,he⟩ := create_new_lock_some hashTx A { tx with vin := i::js } s _ hheight
      refine ⟨hone,⟨l,?_,hl⟩,?_⟩
      · rw [he]
        exact AList.lookup_insert _
      · apply holds_following hashTx i js rfl _ _ hes
        rw [he]
        intro m hm
        have hm := (AList.lookup_insert s.mapTxLocks).symm.trans hm
        cases hm
        exact Or.inr hl

end Runs

def sampleTx (first second : ℕ) : CTransaction :=
  ⟨1,5,[⟨⟨BitVec.ofNat 256 first,0⟩,[],0⟩,⟨⟨BitVec.ofNat 256 second,0⟩,[],0⟩],[⟨cent,[]⟩],0⟩

/-- The height is not above the second input, and another one when the inputs change places. -/
theorem lock_height_below_input :
    let conf : Uint256 → ℤ := fun h => h.toNat
    let A := viewAt conf 200
    Found A conf (sampleTx 100 110).vin ∧ Deep A conf (sampleTx 100 110).vin ∧
    (createNewLock sampleEnv.hashTx A (sampleTx 100 110) State.empty).1 = 104 ∧
    (createNewLock sampleEnv.hashTx A (sampleTx 110 100) State.empty).1 = 114 ∧
    ¬ Fixed sampleEnv.hashTx conf (sampleTx 100 110) := by
  intro conf A
  have hfirst : (createNewLock sampleEnv.hashTx A (sampleTx 100 110) State.empty).1 = 104 := by
    decide +kernel
  have hdeep : Deep A conf (sampleTx 100 110).vin := by
    unfold Deep
    decide +kernel
  refine ⟨view_found conf 200 _,hdeep,hfirst,by decide +kernel,?_⟩
  rintro ⟨n,hn,h⟩
  have hone := (h A (sampleTx 100 110).vin State.empty [] (.refl _) (view_found conf 200 _)
    hdeep trivial).1
  have hsecond : ((110:ℕ):ℤ) < n := hn ⟨⟨110,0⟩,[],0⟩ (by simp [sampleTx])
  have : n = 104 := hone.symm.trans hfirst
  omega

end SwippCore.LockHeight
