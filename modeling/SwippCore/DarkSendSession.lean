import SwippCore.DarkSendPool

/-!
# The counters of a mixing session

The users of a session are counted, their collaterals are kept, and their
entries are collected, each by another handler. The counters go together as
long as no message gets past the first tests of an entry and is refused then,
no outpoint comes twice, and no session ends over entries.
-/

set_option autoImplicit false

namespace SwippCore.DarkSendSession
open Checks Histories Masternode DarkSendPool

def prevouts (p : CDarkSendPool) : List COutPoint := (allInputs p).map (fun s => s.vin.prevout)

structure Consistent (p : CDarkSendPool) : Prop where
  collateral : p.sessionUsers = p.vecSessionCollateral.length
  entries : (p.entries.length : ℤ) ≤ p.sessionUsers
  users : p.sessionUsers ≤ poolMaxTransactions
  distinct : (prevouts p).Nodup

structure Unchanged (p q : CDarkSendPool) : Prop where
  users : q.sessionUsers = p.sessionUsers
  collateral : q.vecSessionCollateral = p.vecSessionCollateral
  denom : q.sessionDenom = p.sessionDenom
  entries : q.entries = p.entries

def isRejection : Output → Bool
  | .dssu _ _ _ accepted _ => accepted == masternodeRejected
  | _ => false

variable (env : Env)

def Refused (e : Event) (p : CDarkSendPool) : Prop := (handle env e p).2.any isRejection = true

section Run
variable (timeMillis sessionID : ℤ)

def run (es : List Event) : CDarkSendPool :=
  deliver (DarkSendPool.step env) es (start timeMillis sessionID)

def Fair (es : List Event) (p : CDarkSendPool) : Prop :=
  Consistent p ∧ ∀ pre e, es = pre++[e] → Refused env e (run env timeMillis sessionID pre) →
    Unchanged (run env timeMillis sessionID pre) p

def SessionEnds (V : View) (p : CDarkSendPool) : Prop :=
  ((queueReady V p).state = .acceptingEntries ∨ (queueReady V p).state = .queue) ∧
    queueTimedOut V (dropExpired V (queueReady V p)) = true

/-- An entry that gets as far as to be added is added and brings new outpoints; a session
that the timer ends has no entries left. -/
def Orderly (es : List Event) (e : Event) : Prop :=
  match e.message with
  | .dsi nVersion m =>
    dsiRefused env e.view m (run env timeMillis sessionID es) nVersion = none →
      entryRefused env e.view m (run env timeMillis sessionID es) = none ∧
        ∀ i ∈ m.vin, i.prevout ∉ prevouts (run env timeMillis sessionID es)
  | .timeout => SessionEnds e.view (run env timeMillis sessionID es) →
      (dropExpired e.view (queueReady e.view (run env timeMillis sessionID es))).entries = []
  | _ => True

end Run

section Fields
variable (V : View) (p : CDarkSendPool)

structure SameBooks (p q : CDarkSendPool) : Prop where
  users : q.sessionUsers = p.sessionUsers
  collateral : q.vecSessionCollateral = p.vecSessionCollateral
  length : q.entries.length = p.entries.length
  prevouts : prevouts q = prevouts p

variable {q : CDarkSendPool}

theorem consistent_same {p : CDarkSendPool} (h : SameBooks p q) (hp : Consistent p) :
    Consistent q where
  collateral := by rw [h.users, h.collateral, hp.collateral]
  entries := by rw [h.users, h.length]; exact hp.entries
  users := by rw [h.users]; exact hp.users
  distinct := by rw [h.prevouts]; exact hp.distinct

theorem consistent_null (he : q.entries = []) (hu : q.sessionUsers = 0)
    (hc : q.vecSessionCollateral = []) : Consistent q where
  collateral := by rw [hu, hc]; rfl
  entries := by rw [hu, he]; decide
  users := by rw [hu]; decide
  distinct := by simp [prevouts, allInputs, he]

theorem set_null_consistent (clearEverything : Bool) : Consistent (setNull V p clearEverything) :=
  consistent_null rfl rfl rfl

theorem update_state_unchanged (newState : PoolStatus) : Unchanged p (updateState V p newState) := by
  unfold updateState
  split_ifs <;> exact ⟨rfl,rfl,rfl,rfl⟩

theorem update_state_state {newState : PoolStatus} (h : newState ≠ .error ∧ newState ≠ .success) :
    (updateState V p newState).state = newState := by
  unfold updateState
  rw [if_neg (by tauto)]
  split_ifs with hs
  · rfl
  · exact not_not.mp hs

theorem unchanged_books {p : CDarkSendPool} (h : Unchanged p q) : SameBooks p q where
  users := h.users
  collateral := h.collateral
  length := by rw [h.entries]
  prevouts := by rw [prevouts, allInputs, h.entries, prevouts, allInputs]

theorem unchanged_refl : Unchanged p p := ⟨rfl,rfl,rfl,rfl⟩

theorem unchanged_trans {p r : CDarkSendPool} (h : Unchanged p q) (k : Unchanged q r) :
    Unchanged p r :=
  ⟨k.users.trans h.users,k.collateral.trans h.collateral,k.denom.trans h.denom,
    k.entries.trans h.entries⟩

end Fields

section Check
variable (V : View) (p : CDarkSendPool)

theorem check_full_unchanged : Unchanged p (checkFull V p) := by
  unfold checkFull
  split_ifs
  · exact update_state_unchanged V p _
  · exact unchanged_refl p

theorem sign_final_pool (tx : CTransaction) (node : Bool) :
    ∃ t, (signFinalTransaction V tx node p).1 = { p with finalTransaction := t } := by
  unfold signFinalTransaction
  cases hb : !p.finalTransaction.vin.isEmpty with
  | true => exact ⟨p.finalTransaction,rfl⟩
  | false =>
    rcases signEntries V p.myEntries ⟨tx,[],[]⟩ with ⟨r,b⟩
    cases b <;> exact ⟨r.tx,rfl⟩

theorem sign_final_unchanged (tx : CTransaction) (node : Bool) :
    Unchanged p (signFinalTransaction V tx node p).1 := by
  obtain ⟨t,ht⟩ := sign_final_pool V p tx node
  rw [ht]
  exact ⟨rfl,rfl,rfl,rfl⟩

theorem check_finalize_unchanged : Unchanged p (checkFinalize V p).1 := by
  unfold checkFinalize
  split_ifs
  · exact unchanged_trans (update_state_unchanged V p _) (sign_final_unchanged V _ _ _)
  · exact unchanged_refl p

theorem check_signed_consistent (hp : Consistent p) : Consistent (checkSigned env V p).1 := by
  have hu : Consistent (updateState V p .transmission) :=
    consistent_same (unchanged_books (update_state_unchanged V p _)) hp
  unfold checkSigned
  dsimp only
  split_ifs
  · have hn := set_null_consistent V (updateState V p .transmission) false
    exact consistent_same (unchanged_books (update_state_unchanged V _ .acceptingEntries)) hn
  · exact hu
  · exact hu
  · exact hp

theorem check_done_consistent (hp : Consistent p) : Consistent (checkDone V p).1 := by
  unfold checkDone
  split_ifs
  · exact set_null_consistent V p true
  · exact set_null_consistent V p true
  · exact hp

theorem check_consistent (hp : Consistent p) : Consistent (check env V p).1 := by
  have h1 : Consistent (checkFinalize V (checkFull V p)).1 :=
    consistent_same (unchanged_books (unchanged_trans (check_full_unchanged V p)
      (check_finalize_unchanged V _))) hp
  unfold check
  rcases hq : checkFinalize V (checkFull V p) with ⟨q,o1⟩
  rw [hq] at h1
  have h2 := check_signed_consistent env V q h1
  rcases hs : checkSigned env V q with ⟨r,o2,b⟩
  rw [hs] at h2
  simp only [hs]
  cases b with
  | false => exact h2
  | true => exact check_done_consistent V r h2

theorem check_finalize_replies : (checkFinalize V p).2.any isRejection = false := by
  unfold checkFinalize
  split_ifs <;> rfl

theorem check_signed_replies : (checkSigned env V p).2.1.any isRejection = false := by
  unfold checkSigned
  dsimp only
  split_ifs <;> rfl

theorem check_done_replies : (checkDone V p).2.any isRejection = false := by
  unfold checkDone
  split_ifs <;> rfl

theorem check_replies : (check env V p).2.any isRejection = false := by
  have h1 := check_finalize_replies V (checkFull V p)
  unfold check
  rcases hq : checkFinalize V (checkFull V p) with ⟨q,o1⟩
  have h2 := check_signed_replies env V q
  rcases hs : checkSigned env V q with ⟨r,o2,b⟩
  rw [hq] at h1
  rw [hs] at h2
  simp only [hs]
  cases b with
  | false => rw [List.any_append, h1, h2]; rfl
  | true =>
    have h3 := check_done_replies V r
    simp only [List.any_append, h1, h2, h3, Bool.or_self]

theorem check_waits (ha : p.state = .acceptingEntries) (hc : signaturesComplete p = false) :
    Unchanged p (check env V p).1 := by
  have hfull := check_full_unchanged V p
  have hfin := check_finalize_unchanged V (checkFull V p)
  have hst : (checkFull V p).state = .acceptingEntries ∨
      (checkFull V p).state = .finalizeTransaction := by
    unfold checkFull
    split_ifs
    · exact Or.inr (update_state_state V p (by decide))
    · exact Or.inl ha
  have hst2 : (checkFinalize V (checkFull V p)).1.state ≠ .transmission ∧
      (checkFinalize V (checkFull V p)).1.state ≠ .error ∧
      (checkFinalize V (checkFull V p)).1.state ≠ .success := by
    unfold checkFinalize
    split_ifs with hf
    · have hs : (signFinalTransaction V (mergedTransaction V (updateState V (checkFull V p) .signing))
          false (updateState V (checkFull V p) .signing)).1.state = .signing := by
        obtain ⟨t,ht⟩ := sign_final_pool V (updateState V (checkFull V p) .signing)
          (mergedTransaction V (updateState V (checkFull V p) .signing)) false
        rw [ht]
        exact update_state_state V (checkFull V p) (by decide)
      simp only [hs]
      decide
    · rcases hst with hst | hst <;> simp [hst]
  have hall := unchanged_trans hfull hfin
  have hcomplete : signaturesComplete (checkFinalize V (checkFull V p)).1 = false := by
    rw [signaturesComplete, hall.entries]
    exact hc
  unfold check
  rcases hq : checkFinalize V (checkFull V p) with ⟨q,o1⟩
  simp only [hq] at hst2 hall hcomplete ⊢
  have hsig : checkSigned env V q = (q,[],true) := by
    rw [checkSigned, if_neg (by simp [hcomplete])]
  have hdone : checkDone V q = (q,[]) := by
    rw [checkDone, if_neg hst2.1, if_neg (by tauto)]
  simp only [hsig, hdone]
  exact hall

end Check

section Scripts
variable (V : View)

variable {newVin : CTxIn}

section
variable {β : Type} (g : CDarkSendEntryVin → β)
  (hg : ∀ s, sameInput newVin s.vin = true → g ⟨true,{ s.vin with scriptSig := newVin.scriptSig },[]⟩ = g s)
include β hg

theorem add_sig_map
    (ss ss' : List CDarkSendEntryVin) (h : addSig newVin ss = some ss') : ss'.map g = ss.map g := by
  induction ss generalizing ss' with
  | nil => cases h
  | cons s ss ih =>
    rw [addSig] at h
    split_ifs at h with hsame
    · cases h
      rw [List.map_cons, List.map_cons, hg s hsame]
    · obtain ⟨rest,hr,rfl⟩ := Option.map_eq_some_iff.mp h
      rw [List.map_cons, List.map_cons, ih rest hr]

theorem add_sigs_map
    (es es' : List CDarkSendEntry) (h : addSigs newVin es = some es') :
    es'.map (fun e => e.sev.map g) = es.map (fun e => e.sev.map g) := by
  induction es generalizing es' with
  | nil => cases h
  | cons e es ih =>
    rw [addSigs] at h
    cases hs : addSig newVin e.sev with
    | some sev =>
      rw [hs] at h
      cases h
      rw [List.map_cons, List.map_cons, add_sig_map g hg _ _ hs]
    | none =>
      rw [hs] at h
      obtain ⟨rest,hr,rfl⟩ := Option.map_eq_some_iff.mp h
      rw [List.map_cons, List.map_cons, ih rest hr]

end

theorem add_sigs_books {es es' : List CDarkSendEntry} (h : addSigs newVin es = some es') :
    es'.length = es.length ∧
      (es'.flatMap CDarkSendEntry.sev).map (fun s => s.vin.prevout) =
        (es.flatMap CDarkSendEntry.sev).map (fun s => s.vin.prevout) := by
  have hm := add_sigs_map (fun s => s.vin.prevout) (fun _ _ => rfl) es es' h
  refine ⟨?_,?_⟩
  · have hl := congrArg List.length hm
    rwa [List.length_map, List.length_map] at hl
  · rw [List.map_flatMap, List.map_flatMap, List.flatMap_def, List.flatMap_def, hm]

theorem same_books_refl (p : CDarkSendPool) : SameBooks p p := ⟨rfl,rfl,rfl,rfl⟩

theorem add_script_books (newVin : CTxIn) (p : CDarkSendPool) :
    SameBooks p (addScriptSig V newVin p).1 := by
  unfold addScriptSig
  split_ifs
  · exact same_books_refl p
  · exact same_books_refl p
  · dsimp only
    cases h : addSigs newVin p.entries with
    | none => exact ⟨rfl,rfl,rfl,rfl⟩
    | some es =>
      obtain ⟨hl,hp⟩ := add_sigs_books h
      exact ⟨rfl,rfl,hl,hp⟩
  · exact same_books_refl p

theorem add_scripts_books (sigs : List CTxIn) (p : CDarkSendPool) :
    SameBooks p (addScriptSigs V sigs p).1 := by
  induction sigs generalizing p with
  | nil => exact same_books_refl p
  | cons item sigs ih =>
    have h := add_script_books V item p
    have k := ih (addScriptSig V item p).1
    exact ⟨k.users.trans h.users,k.collateral.trans h.collateral,k.length.trans h.length,
      k.prevouts.trans h.prevouts⟩

theorem add_scripts_replies (sigs : List CTxIn) (p : CDarkSendPool) :
    (addScriptSigs V sigs p).2.1.any isRejection = false := by
  induction sigs generalizing p with
  | nil => rfl
  | cons item sigs ih => exact ih (addScriptSig V item p).1

theorem dss_consistent (nVersion : ℤ) (sigs : List CTxIn) {p : CDarkSendPool} (hp : Consistent p) :
    Consistent (dss env V nVersion sigs p).1 := by
  have hs := consistent_same (add_scripts_books V sigs p) hp
  unfold dss
  split_ifs
  · exact hp
  · rcases ha : addScriptSigs V sigs p with ⟨q,o,b⟩
    rw [ha] at hs
    cases b with
    | false => exact hs
    | true => exact check_consistent env V q hs

theorem dss_replies (nVersion : ℤ) (sigs : List CTxIn) (p : CDarkSendPool) :
    (dss env V nVersion sigs p).2.any isRejection = false := by
  have hs := add_scripts_replies V sigs p
  unfold dss
  split_ifs
  · rfl
  · rcases ha : addScriptSigs V sigs p with ⟨q,o,b⟩
    rw [ha] at hs
    cases b with
    | false => exact hs
    | true =>
      have hc := check_replies env V q
      simp only [List.any_append, hs, hc]
      rfl

end Scripts

section Join
variable (V : View) (p : CDarkSendPool) (hp : Consistent p)
include hp

theorem no_users (h : p.sessionUsers = 0) : p.entries = [] ∧ p.vecSessionCollateral = [] := by
  have hc := hp.collateral
  have he := hp.entries
  rw [h] at hc he
  exact ⟨List.eq_nil_iff_length_eq_zero.mpr (by omega),
    List.eq_nil_iff_length_eq_zero.mpr (by omega)⟩

theorem open_consistent (nDenom : ℤ) (tx : CTransaction) (h : p.sessionUsers = 0) :
    Consistent (openSession V p nDenom tx) := by
  have hs := update_state_unchanged V { p with
    sessionDenom := nDenom
    sessionUsers := 1
    lastTimeChanged := V.timeMillis
    entries := [] } .queue
  have hcol := hs.collateral.trans (no_users p hp h).2
  have hent := hs.entries
  have husers := hs.users
  dsimp only at hent husers
  refine ⟨?_,?_,?_,?_⟩
  · dsimp only [openSession]
    rw [husers, hcol]
    rfl
  · dsimp only [openSession]
    rw [husers, hent]
    decide
  · dsimp only [openSession]
    rw [husers]
    decide
  · simp [prevouts, allInputs, openSession, hent]

theorem join_consistent (tx : CTransaction) (h : p.sessionUsers < poolMaxTransactions) :
    Consistent (joinSession V p tx) where
  collateral := by
    change p.sessionUsers+1 = ((p.vecSessionCollateral++[tx]).length : ℤ)
    rw [List.length_append, hp.collateral]
    rfl
  entries := by
    have := hp.entries
    change (p.entries.length : ℤ) ≤ p.sessionUsers+1
    omega
  users := by
    change p.sessionUsers+1 ≤ poolMaxTransactions
    omega
  distinct := hp.distinct

theorem join_cases (nDenom : ℤ) (tx : CTransaction) :
    ((isCompatibleWithSession env V p nDenom tx).2.2 = none ∧
        Consistent (isCompatibleWithSession env V p nDenom tx).1) ∨
      (isCompatibleWithSession env V p nDenom tx).1 = p := by
  have hpos : ¬ p.sessionUsers < 0 := by
    rw [hp.collateral]
    omega
  unfold isCompatibleWithSession
  rw [if_neg hpos]
  dsimp only
  split_ifs with hcol hzero
  · exact Or.inr rfl
  · exact Or.inl ⟨rfl,open_consistent V p hp nDenom tx hzero⟩
  · cases hr : joinRefused p nDenom with
    | some error => exact Or.inr rfl
    | none =>
      refine Or.inl ⟨rfl,join_consistent V p hp tx ?_⟩
      unfold joinRefused at hr
      split_ifs at hr with hfull
      exact Int.not_le.mp hfull

theorem dsa_cases (nVersion nDenom : ℤ) (tx : CTransaction) :
    Consistent (dsa env V p nVersion nDenom tx).1 ∧
      ((dsa env V p nVersion nDenom tx).2.any isRejection = true →
        (dsa env V p nVersion nDenom tx).1 = p) := by
  have hquiet : (isCompatibleWithSession env V p nDenom tx).2.1.any isRejection = false := by
    unfold isCompatibleWithSession
    dsimp only
    split_ifs
    all_goals first
      | rfl
      | (split <;> rfl)
  have hj := join_cases env V p hp nDenom tx
  unfold dsa
  split_ifs
  · exact ⟨hp,fun _ => rfl⟩
  · cases (getMasternodeByVin V.vecMasternodes V.activeVin).bind
        (fun mn => V.vecMasternodes[mn]?) with
    | none => exact ⟨hp,fun _ => rfl⟩
    | some mn =>
      dsimp only
      split_ifs
      · exact ⟨hp,fun _ => rfl⟩
      · rcases hc : isCompatibleWithSession env V p nDenom tx with ⟨q,o,r⟩
        rw [hc] at hj hquiet
        cases r with
        | none =>
          have hq : Consistent q := by
            rcases hj with ⟨_,hq⟩ | hq
            · exact hq
            · rw [show q = p from hq]
              exact hp
          refine ⟨hq,fun h => ?_⟩
          simp [hquiet, isRejection, status, masternodeAccepted, masternodeRejected] at h
        | some error =>
          obtain rfl : q = p := by
            rcases hj with ⟨hn,_⟩ | hq
            · cases hn
            · exact hq
          exact ⟨hp,fun _ => rfl⟩

end Join

section Entry
variable (V : View) (m : Dsi) (p : CDarkSendPool)

variable {nVersion : ℤ}

theorem dsi_tests (h : dsiRefused env V m p nVersion = none) :
    isSessionReady p = true ∧ MasternodeList.acceptable env V.toView (m.transaction V) = true := by
  unfold dsiRefused at h
  cases ho : outputsRefused V m.vout with
  | some error =>
    simp only [ho] at h
    split_ifs at h
  | none =>
    simp only [ho] at h
    split_ifs at h with _ hready _ _ _ _ hacc
    exact ⟨by simpa using hready,by simpa using hacc⟩

theorem dsi_inputs (h : dsiRefused env V m p nVersion = none) :
    m.vin ≠ [] ∧ (m.vin.map CTxIn.prevout).Nodup := by
  obtain ⟨u,hu⟩ := of_is_ok _ (dsi_tests env V m p h).2
  unfold acceptableInputs at hu
  obtain ⟨hcheck,_⟩ := (then_ok _ _ _).mp hu
  simp only [checkTransaction, then_ok, require_ok, Bool.not_eq_true'] at hcheck
  obtain ⟨hne,_,_,_,hnd,_⟩ := hcheck
  exact ⟨by simpa [Dsi.transaction] using hne,of_decide_eq_true hnd⟩

theorem entry_prevouts : prevouts { p with entries := p.entries++[m.entry V] } =
    prevouts p++m.vin.map CTxIn.prevout := by
  simp [prevouts, allInputs, Dsi.entry, List.map_map, Function.comp_def]

theorem entry_unsigned (hne : m.vin ≠ []) :
    signaturesComplete { p with entries := p.entries++[m.entry V] } = false := by
  obtain ⟨i,is,hi⟩ := List.exists_cons_of_ne_nil hne
  simp [signaturesComplete, Dsi.entry, hi]

theorem dsi_passed (hd : dsiRefused env V m p nVersion = none)
    (he : entryRefused env V m p = none) :
    Unchanged { p with entries := p.entries++[m.entry V] } (dsi env V m p nVersion).1 ∧
      (dsi env V m p nVersion).2.any isRejection = false := by
  have hst : p.state = .acceptingEntries := by
    unfold entryRefused at he
    split_ifs at he with _ _ _ _ hs
    exact not_not.mp hs
  have hw := check_waits env V { p with entries := p.entries++[m.entry V] } hst
    (entry_unsigned V m p (dsi_inputs env V m p hd).1)
  have hr := check_replies env V { p with entries := p.entries++[m.entry V] }
  unfold dsi addEntry
  rw [hd, he]
  refine ⟨hw,?_⟩
  simp only [List.any_cons, List.any_append, hr]
  rfl

theorem dsi_taken_back {error : String} (hd : dsiRefused env V m p nVersion = none)
    (he : entryRefused env V m p = some error) :
    (dsi env V m p nVersion).2.any isRejection = true ∧
      (dsi env V m p nVersion).1.sessionUsers = p.sessionUsers-1 := by
  unfold dsi addEntry
  rw [hd, he]
  exact ⟨rfl,rfl⟩

theorem dsi_dropped {error : String} (hd : dsiRefused env V m p nVersion = some error) :
    (dsi env V m p nVersion).1 = p := by
  unfold dsi
  rw [hd]

theorem entry_room (he : entryRefused env V m p = none) :
    (p.entries.length : ℤ) < poolMaxTransactions := by
  unfold entryRefused at he
  split_ifs at he with _ _ hfull
  exact Int.not_le.mp hfull

theorem session_ready (hd : dsiRefused env V m p nVersion = none) :
    poolMaxTransactions ≤ p.sessionUsers := by
  simpa [isSessionReady] using (dsi_tests env V m p hd).1

end Entry
section Timer
variable (V : View) (p : CDarkSendPool)

theorem fewer_entries (hp : Consistent p) {es : List CDarkSendEntry} (h : es.Sublist p.entries) :
    Consistent { p with entries := es } where
  collateral := hp.collateral
  entries := by
    have hl := h.length_le
    have hu := hp.entries
    change (es.length : ℤ) ≤ p.sessionUsers
    omega
  users := hp.users
  distinct := ((List.Sublist.flatMap h CDarkSendEntry.sev).map _).nodup hp.distinct

theorem drop_expired_consistent (hp : Consistent p) : Consistent (dropExpired V p) := by
  unfold dropExpired
  dsimp only
  split_ifs
  · exact set_null_consistent V _ true
  · exact fewer_entries p hp List.eraseP_sublist
  · exact hp

theorem queue_ready_consistent (hp : Consistent p) : Consistent (queueReady V p) := by
  unfold queueReady
  split_ifs
  · exact consistent_same (unchanged_books (update_state_unchanged V p _)) hp
  · exact hp

theorem reset_consistent : Consistent (updateState V (setNull V p false) .error) :=
  consistent_same (unchanged_books (update_state_unchanged V _ .error)) (set_null_consistent V p false)

theorem end_session_iff : Consistent (endSession V p) ↔ p.entries = [] := by
  have hs : Unchanged _ (endSession V p) := update_state_unchanged V { p with
    lastTimeChanged := V.timeMillis
    sessionUsers := 0
    sessionDenom := 0
    vecSessionCollateral := [] } .acceptingEntries
  constructor
  · intro h
    have hle := h.entries
    rw [hs.users, hs.entries] at hle
    change (p.entries.length : ℤ) ≤ 0 at hle
    exact List.eq_nil_iff_length_eq_zero.mpr (by omega)
  · intro h
    refine consistent_null ?_ ?_ ?_
    · rw [hs.entries]
      exact h
    · rw [hs.users]
    · rw [hs.collateral]

theorem signing_timeout_consistent (hp : Consistent p) : Consistent (signingTimeout V p) := by
  unfold signingTimeout
  split_ifs
  · exact reset_consistent V p
  · exact hp

theorem signing_timeout_ended : signingTimeout V (endSession V p) = endSession V p := by
  have hst : (endSession V p).state = .acceptingEntries := update_state_state V _ (by decide)
  rw [signingTimeout, if_neg (by rw [hst]; simp)]

theorem timeout_iff (hp : Consistent p) : Consistent (checkTimeout V p) ↔
    (SessionEnds V p → (dropExpired V (queueReady V p)).entries = []) := by
  have hq := queue_ready_consistent V p hp
  have hd := drop_expired_consistent V _ hq
  unfold checkTimeout sessionTimeout
  dsimp only
  split_ifs with hopen htime hlate
  · rw [signing_timeout_ended, end_session_iff]
    exact ⟨fun h _ => h,fun h => h ⟨hopen,htime⟩⟩
  · exact ⟨fun _ h => absurd h.2 htime,fun _ => signing_timeout_consistent V _ hd⟩
  · exact ⟨fun _ h => absurd h.1 hopen,
      fun _ => signing_timeout_consistent V _ (reset_consistent V _)⟩
  · exact ⟨fun _ h => absurd h.1 hopen,fun _ => signing_timeout_consistent V _ hq⟩

end Timer

section Step
variable (timeMillis sessionID : ℤ)

/-- After an entry was added the pool is consistent exactly when its outpoints are new. -/
theorem dsi_consistent_iff {V : View} {m : Dsi} {p : CDarkSendPool} {nVersion : ℤ}
    (hp : Consistent p) (hd : dsiRefused env V m p nVersion = none)
    (he : entryRefused env V m p = none) :
    Consistent (dsi env V m p nVersion).1 ↔ ∀ i ∈ m.vin, i.prevout ∉ prevouts p := by
  have hsame := unchanged_books (dsi_passed env V m p hd he).1
  have hnd := (dsi_inputs env V m p hd).2
  have hroom := entry_room env V m p he
  have hready := session_ready env V m p hd
  constructor
  · intro h i hi hin
    have hnodup := h.distinct
    rw [hsame.prevouts, entry_prevouts] at hnodup
    exact List.disjoint_of_nodup_append hnodup hin (List.mem_map.mpr ⟨i,hi,rfl⟩)
  · intro h
    refine consistent_same hsame ⟨hp.collateral,?_,hp.users,?_⟩
    · change ((p.entries++[m.entry V]).length : ℤ) ≤ p.sessionUsers
      rw [List.length_append, List.length_singleton]
      omega
    · rw [entry_prevouts]
      refine hp.distinct.append hnd ?_
      intro o ho hin
      obtain ⟨i,hi,rfl⟩ := List.mem_map.mp hin
      exact h i hi ho

theorem handled_fair {es : List Event} (e : Event)
    (hp : Consistent (run env timeMillis sessionID es)) :
    (Consistent (handle env e (run env timeMillis sessionID es)).1 ∧
      (Refused env e (run env timeMillis sessionID es) →
        Unchanged (run env timeMillis sessionID es)
          (handle env e (run env timeMillis sessionID es)).1)) ↔
      Orderly env timeMillis sessionID es e := by
  obtain ⟨V,message⟩ := e
  unfold Orderly Refused handle
  cases message with
  | dsa nVersion nDenom txCollateral =>
    obtain ⟨hc,hr⟩ := dsa_cases env V _ hp nVersion nDenom txCollateral
    refine iff_true_intro ⟨hc,fun h => ?_⟩
    dsimp only
    rw [hr h]
    exact unchanged_refl _
  | dss nVersion sigs =>
    refine iff_true_intro ⟨dss_consistent env V nVersion sigs hp,fun h => ?_⟩
    exact absurd (h.symm.trans (dss_replies env V nVersion sigs _)) (by decide)
  | check =>
    refine iff_true_intro ⟨check_consistent env V _ hp,fun h => ?_⟩
    exact absurd (h.symm.trans (check_replies env V _)) (by decide)
  | timeout =>
    rw [← timeout_iff V _ hp]
    exact ⟨fun h => h.1,fun h => ⟨h,fun hr => absurd hr (by simp)⟩⟩
  | dsi nVersion m =>
    dsimp only
    cases hd : dsiRefused env V m (run env timeMillis sessionID es) nVersion with
    | some error =>
      rw [dsi_dropped env V m _ hd]
      exact ⟨fun _ h => absurd h (by simp),fun _ => ⟨hp,fun _ => unchanged_refl _⟩⟩
    | none =>
      cases he : entryRefused env V m (run env timeMillis sessionID es) with
      | some error =>
        obtain ⟨hr,hu⟩ := dsi_taken_back env V m _ hd he
        refine ⟨fun h => ?_,fun h => absurd (h rfl).1 (by simp)⟩
        have hsame := (h.2 hr).users
        rw [hu] at hsame
        omega
      | none =>
        have hquiet := (dsi_passed env V m _ hd he).2
        have hiff := dsi_consistent_iff env hp hd he
        refine ⟨fun h _ => ⟨rfl,hiff.mp h.1⟩,fun h => ⟨hiff.mpr (h rfl).2,fun hr => ?_⟩⟩
        exact absurd (hr.symm.trans hquiet) (by decide)

theorem fair_concat (es : List Event) (e : Event) (q : CDarkSendPool) :
    Fair env timeMillis sessionID (es++[e]) q ↔ Consistent q ∧
      (Refused env e (run env timeMillis sessionID es) →
        Unchanged (run env timeMillis sessionID es) q) := by
  constructor
  · intro h
    exact ⟨h.1,h.2 es e rfl⟩
  · intro h
    refine ⟨h.1,fun pre e' heq => ?_⟩
    obtain ⟨rfl,he⟩ := List.append_inj' heq rfl
    cases he
    exact h.2

end Step

/-- In a run the counters go together and refusals change nothing exactly when every entry
that passes the first tests is added and brings new outpoints, and the timer ends no
session over entries. -/
theorem session_fair_iff (timeMillis sessionID : ℤ) (es : List Event) :
    Throughout (DarkSendPool.step env) (Fair env timeMillis sessionID) es
        (start timeMillis sessionID) ↔
      Each (Orderly env timeMillis sessionID) es := by
  have hnil : Fair env timeMillis sessionID [] (start timeMillis sessionID) :=
    ⟨consistent_null rfl rfl rfl,fun pre e heq => absurd heq (by simp)⟩
  refine throughout_iff _ _ hnil ?_ es
  · intro es e h
    rw [fair_concat]
    exact handled_fair env timeMillis sessionID e (throughout_last _ h).1

section Sample

def sampleView : View where
  __ := MasternodeEvidence.sampleView
  timeMillis := 1000000
  rand := 7
  shuffle := ⟨id,fun vout => List.Perm.refl vout⟩
  vecMasternodes := [⟨⟨[],0⟩,⟨⟨7,0⟩,[],uintMax⟩,0,[2],[3],[],0,0,1,69110,0⟩]
  activeVin := ⟨⟨7,0⟩,[],uintMax⟩
  nDsqCount := 0
  isNormalPaymentScript _ := true
  verifyScript _ _ _ _ _ := true
  signSignature _ _ _ := []
  keyWorks := true

def sampleCollateral : CTransaction := ⟨1,20,[⟨⟨9,0⟩,[],uintMax⟩],[⟨0,[1]⟩],0⟩

def sampleDsi : Dsi where
  vin := [⟨⟨9,1⟩,[],uintMax⟩]
  nAmount := 5000*coin
  txCollateral := ⟨1,21,[],[],0⟩
  vout := [⟨5000*coin-coin,List.replicate 25 0⟩]

def sampleSession : List Event :=
  [⟨sampleView,.dsa 69110 1 sampleCollateral⟩,⟨sampleView,.dsa 69110 1 sampleCollateral⟩,
    ⟨sampleView,.dsa 69110 1 sampleCollateral⟩,⟨sampleView,.dsi 69110 sampleDsi⟩]

/-- The refused entry takes a user from the session, but not the collateral. -/
theorem refused_entry_counts : ¬ ∀ (env : Env) (timeMillis sessionID : ℤ) (es : List Event),
    Throughout (DarkSendPool.step env) (Fair env timeMillis sessionID) es
      (start timeMillis sessionID) := by
  intro h
  have hs := (throughout_last _ (h sampleEnv 0 5 sampleSession)).1.collateral
  revert hs
  decide +kernel

end Sample
end SwippCore.DarkSendSession
