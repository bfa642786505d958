import SwippCore.DarkSendSession
import SwippCore.MasternodeTimes

/-!
# The queue of mixing sessions

A masternode that opens a session announces it, and a node that hears of it counts
the announcement and notes the count with the masternode. The rule that keeps a few
masternodes from taking over the queue is written twice, where an announcement comes
in and where a user joins. Where an announcement comes in a comma stands in the place
of the comparison, and only whether anything was counted before decides.
-/

set_option autoImplicit false

namespace SwippCore.DarkSendQueue
open Histories BlockHashCache Masternode DarkSendPool

structure CDarksendQueue where
  vin : CTxIn
  time : ℤ
  nDenom : ℤ
  ready : Bool
  vchSig : List UInt8
  deriving DecidableEq, Repr

structure View extends toPool : DarkSendPool.View where
  submittedToMasternode : CService
  /-- `PrepareDarksendDenominate` -/
  prepareDenominate : CDarkSendPool → CDarkSendPool

structure State where
  list : MasternodeList.State
  nDsqCount : ℤ
  vecDarksendQueue : List CDarksendQueue
  pool : CDarkSendPool

inductive Outcome where
  | ignored
  | wrongMasternode
  | ready
  | doubled
  | tooMany
  | queued
  deriving DecidableEq, Repr

variable (env : Env) (keyId : CPubKey → Uint160)

section Dsq
variable (V : View) (dsq : CDarksendQueue) (st : State)

def seen : DarkSendPool.View where
  __ := V.toPool
  vecMasternodes := st.list.vecMasternodes
  nDsqCount := st.nDsqCount

def CDarksendQueue.strMessage : List UInt8 :=
  MasternodeList.bytes (V.vinString dsq.vin ++ toString dsq.nDenom ++ toString dsq.time ++
    if dsq.ready then "1" else "0")

def getAddress : Option CService :=
  (st.list.vecMasternodes.find? (fun mn => mn.vin == dsq.vin)).map CMasterNode.addr

def checkSignature : Bool :=
  (st.list.vecMasternodes.find? (fun mn => mn.vin == dsq.vin)).any
    (fun mn => V.verifyByKey mn.pubkey2 dsq.vchSig (dsq.strMessage V))

def isExpired : Bool := darksendQueueTimeout < V.time-dsq.time

def comma (_ right : Bool) : Bool := right

def dominates (mn : CMasterNode) : Bool :=
  comma (mn.nLastDsq != 0 &&
    mn.nLastDsq+((countMasternodesAboveProtocol st.list.vecMasternodes
      (getBlockVersion (tipHeight V.chain)) / 5 : ℕ) : ℤ) != 0) (st.nDsqCount != 0)

def queue (n : ℕ) : State :=
  { st with
    list.vecMasternodes := st.list.vecMasternodes.modify n
      (fun mn => { mn with nLastDsq := st.nDsqCount+1 })
    nDsqCount := st.nDsqCount+1
    vecDarksendQueue := st.vecDarksendQueue++[dsq] }

/-- `ProcessMessageDarksend` on a "dsq" message. -/
def processDsq (nVersion : ℤ) : State × Outcome :=
  if !isVersionCompatible nVersion (tipHeight V.chain) then (st,.ignored)
  else
    match getAddress dsq st with
    | none => (st,.ignored)
    | some addr =>
      if !checkSignature V dsq st || isExpired V dsq then (st,.ignored)
      else
        match getMasternodeByVin st.list.vecMasternodes dsq.vin with
        | none => (st,.ignored)
        | some n =>
          if dsq.ready then
            if V.submittedToMasternode.ip ≠ addr.ip then (st,.wrongMasternode)
            else ({ st with pool := V.prepareDenominate st.pool },.ready)
          else if st.vecDarksendQueue.any (fun q => q.vin == dsq.vin) then (st,.doubled)
          else if (st.list.vecMasternodes[n]?).any (dominates V st) then (st,.tooMany)
          else (queue dsq st n,.queued)

/-- The pass of `CheckTimeout` over the queue, which drops one announcement at most. -/
def expire : List CDarksendQueue := st.vecDarksendQueue.eraseP (isExpired V)

end Dsq

inductive Message where
  | dsq (nVersion : ℤ) (dsq : CDarksendQueue)
  | pool (m : DarkSendPool.Message)
  | list (m : MasternodeList.Message)
  /-- announcements that a client has looked at and does not use again -/
  | used (which : CDarksendQueue → Bool)

structure Event where
  view : View
  message : Message

def handle (e : Event) (st : State) : State :=
  match e.message with
  | .dsq nVersion dsq => (processDsq e.view dsq st nVersion).1
  | .pool .timeout =>
    { st with
      pool := (DarkSendPool.handle env ⟨seen e.view st,.timeout⟩ st.pool).1
      vecDarksendQueue := expire e.view st }
  | .pool m => { st with pool := (DarkSendPool.handle env ⟨seen e.view st,m⟩ st.pool).1 }
  | .list m => { st with list := MasternodeList.handle env keyId ⟨e.view.toPool.toView,m⟩ st.list }
  | .used which =>
    { st with vecDarksendQueue :=
        st.vecDarksendQueue.map (fun q => if which q then { q with time := 0 } else q) }

def start (timeMillis sessionID : ℤ) : State :=
  ⟨MasternodeList.start,0,[],DarkSendPool.start timeMillis sessionID⟩

def Recent (V : View) (st : State) (mn : CMasterNode) : Prop :=
  mn.nLastDsq ≠ 0 ∧ st.nDsqCount < mn.nLastDsq+((countMasternodesAboveProtocol
    st.list.vecMasternodes (getBlockVersion (tipHeight V.chain)) / 5 : ℕ) : ℤ)

def entryOf (vin : CTxIn) (st : State) : Option CMasterNode :=
  (getMasternodeByVin st.list.vecMasternodes vin).bind (fun n => st.list.vecMasternodes[n]?)

structure Announces (V : View) (dsq : CDarksendQueue) (nVersion : ℤ) (st : State) : Prop where
  version : isVersionCompatible nVersion (tipHeight V.chain) = true
  address : (getAddress dsq st).isSome = true
  signed : checkSignature V dsq st = true
  fresh : isExpired V dsq = false
  opening : dsq.ready = false
  single : st.vecDarksendQueue.any (fun q => q.vin == dsq.vin) = false

def counts (st : State) : ℤ × List ℤ :=
  (st.nDsqCount,st.list.vecMasternodes.map CMasterNode.nLastDsq)

def toldRecent : Output → Bool
  | .dssu _ _ _ accepted error =>
    accepted == masternodeRejected && error == "Last Darksend was too recent."
  | _ => false

/-- The two places apply the rule, each to what gets as far as the rule there, and what is
not taken leaves the counts as they were. -/
def Agrees (st : State) (e : Event) : Prop :=
  match e.message with
  | .dsq nVersion dsq =>
    (Announces e.view dsq nVersion st → ∀ mn, entryOf dsq.vin st = some mn →
      ((processDsq e.view dsq st nVersion).2 = .tooMany ↔ Recent e.view st mn)) ∧
    ((processDsq e.view dsq st nVersion).2 ≠ .queued → counts (handle env keyId e st) = counts st)
  | .pool (.dsa nVersion nDenom tx) =>
    (isVersionCompatible nVersion (tipHeight e.view.chain) = true → st.pool.sessionUsers = 0 →
      ∀ mn, entryOf e.view.activeVin st = some mn →
        ((dsa env (seen e.view st) st.pool nVersion nDenom tx).2.any toldRecent = true ↔
          Recent e.view st mn)) ∧
    counts (handle env keyId e st) = counts st
  | _ => True

def Unhampered (st : State) (e : Event) : Prop :=
  match e.message with
  | .dsq nVersion dsq => Announces e.view dsq nVersion st → ∀ mn, entryOf dsq.vin st = some mn →
    st.nDsqCount = 0 ∨ mn.nLastDsq ≠ 0 ∧ 5 ≤ countMasternodesAboveProtocol st.list.vecMasternodes
      (getBlockVersion (tipHeight e.view.chain))
  | _ => True

structure Single (st : State) : Prop where
  count : st.nDsqCount = 0 ∨ st.nDsqCount = 1
  noted : ∀ mn ∈ st.list.vecMasternodes, mn.nLastDsq = 0 ∨ mn.nLastDsq = st.nDsqCount

section Dsq
variable (V : View) (dsq : CDarksendQueue) (st : State) (nVersion : ℤ)

theorem dominates_iff (mn : CMasterNode) : dominates V st mn = true ↔ st.nDsqCount ≠ 0 := by
  simp [dominates, comma]

theorem entry_found {vin : CTxIn} {mn : CMasterNode} (h : entryOf vin st = some mn) :
    ∃ n, getMasternodeByVin st.list.vecMasternodes vin = some n ∧
      st.list.vecMasternodes[n]? = some mn :=
  Option.bind_eq_some_iff.mp h

theorem announces_outcome (h : Announces V dsq nVersion st) {mn : CMasterNode}
    (hmn : entryOf dsq.vin st = some mn) :
    (processDsq V dsq st nVersion).2 = .tooMany ↔ st.nDsqCount ≠ 0 := by
  obtain ⟨n,hn,hget⟩ := entry_found st hmn
  obtain ⟨addr,haddr⟩ := Option.isSome_iff_exists.mp h.address
  rw [← dominates_iff V st mn]
  simp only [processDsq, h.version, haddr, h.signed, h.fresh, hn, h.opening, h.single, hget,
    Option.any_some, Bool.not_true, Bool.or_false, Bool.false_eq_true, if_false]
  split_ifs with hd
  · simp [hd]
  · simp [hd]

theorem process_cases :
    (∃ n, processDsq V dsq st nVersion = (queue dsq st n,.queued) ∧ st.nDsqCount = 0) ∨
      (processDsq V dsq st nVersion).2 ≠ .queued ∧
        counts (processDsq V dsq st nVersion).1 = counts st := by
  have hsame : ∀ o : Outcome, o ≠ .queued →
      (∃ n, (st,o) = (queue dsq st n,Outcome.queued) ∧ st.nDsqCount = 0) ∨
        o ≠ .queued ∧ counts st = counts st := fun o ho => Or.inr ⟨ho,rfl⟩
  unfold processDsq
  cases getAddress dsq st with
  | none =>
    dsimp only
    split_ifs <;> exact hsame _ (by simp)
  | some addr =>
    cases hn : getMasternodeByVin st.list.vecMasternodes dsq.vin with
    | none =>
      dsimp only
      split_ifs <;> exact hsame _ (by simp)
    | some n =>
      obtain ⟨hlt,_⟩ := List.findIdx?_eq_some_iff_getElem.mp hn
      dsimp only
      rw [List.getElem?_eq_getElem hlt, Option.any_some]
      split_ifs with _ _ _ _ _ hd
      · exact hsame _ (by simp)
      · exact hsame _ (by simp)
      · exact hsame _ (by simp)
      · exact Or.inr ⟨by simp,rfl⟩
      · exact hsame _ (by simp)
      · exact hsame _ (by simp)
      · rw [dominates_iff, not_not] at hd
        exact Or.inl ⟨n,rfl,hd⟩

end Dsq

section Dsa
variable (V : DarkSendPool.View) (p : CDarkSendPool) (nDenom : ℤ) (tx : CTransaction)

theorem session_quiet : (isCompatibleWithSession env V p nDenom tx).2.1.any toldRecent = false := by
  unfold isCompatibleWithSession
  dsimp only
  split_ifs
  · rfl
  · rfl
  · split <;> rfl
  · rfl
  · split <;> rfl

theorem join_refused_error {error : String} (h : joinRefused p nDenom = some error) :
    error ≠ "Last Darksend was too recent." := by
  unfold joinRefused at h
  split_ifs at h
  all_goals
    rw [← Option.some.inj h]
    decide

theorem session_error (error : String)
    (h : (isCompatibleWithSession env V p nDenom tx).2.2 = some error) :
    error ≠ "Last Darksend was too recent." := by
  unfold isCompatibleWithSession at h
  dsimp only at h
  generalize (if p.sessionUsers < 0 then { p with sessionUsers := 0 } else p) = q at h
  split_ifs at h
  · rw [← Option.some.inj h]
    decide
  · cases hr : joinRefused q nDenom with
    | none =>
      rw [hr] at h
      cases h
    | some error' =>
      rw [hr] at h
      rw [← Option.some.inj h]
      exact join_refused_error q nDenom hr

theorem join_outcome {nVersion : ℤ} (hv : isVersionCompatible nVersion (tipHeight V.chain) = true)
    (hu : p.sessionUsers = 0) {mn : CMasterNode}
    (hmn : (getMasternodeByVin V.vecMasternodes V.activeVin).bind
      (fun n => V.vecMasternodes[n]?) = some mn) :
    (dsa env V p nVersion nDenom tx).2.any toldRecent = true ↔ tooRecent V mn = true := by
  unfold dsa
  rw [hv, hmn]
  simp only [hu, true_and, Bool.not_true, Bool.false_eq_true, if_false]
  split_ifs with h
  · simp [h, toldRecent, status]
  · have hquiet := session_quiet env V p nDenom tx
    have herror := session_error env V p nDenom tx
    rcases hc : isCompatibleWithSession env V p nDenom tx with ⟨q,o,r⟩
    rw [hc] at hquiet herror
    cases r with
    | none =>
      rw [List.any_append, hquiet]
      simp [h, toldRecent, status, masternodeAccepted, masternodeRejected]
    | some error =>
      rw [List.any_append, hquiet]
      simp [h, toldRecent, status, herror error rfl]

end Dsa

section List

theorem check_last (amb : Ambience) (mn : CMasterNode) :
    (mn.check amb).nLastDsq = mn.nLastDsq := by
  unfold CMasterNode.check
  split_ifs <;> rfl

theorem refresh_last (V : MasternodeList.View) (m : MasternodeList.Dsee) (mn : CMasterNode) :
    (MasternodeList.refresh env V m mn).1.nLastDsq = mn.nLastDsq := by
  unfold MasternodeList.refresh
  dsimp only
  split_ifs <;> rfl

theorem ping_last (V : MasternodeList.View) (m : MasternodeList.Dseep) (mn : CMasterNode) :
    (MasternodeList.ping env V m mn).1.nLastDsq = mn.nLastDsq := by
  unfold MasternodeList.ping
  dsimp only
  split_ifs
  all_goals first
    | rfl
    | exact check_last _ _

/-- The messages of the list leave the notes alone, and add entries without one. -/
theorem list_lasts {e : MasternodeList.Event} {st : MasternodeList.State} {mn' : CMasterNode}
    (h : mn' ∈ (MasternodeList.handle env keyId e st).vecMasternodes) :
    mn'.nLastDsq = 0 ∨ ∃ mn ∈ st.vecMasternodes, mn'.nLastDsq = mn.nLastDsq := by
  rcases MasternodeSteps.handle_entries env keyId h with ⟨mn,hmn,hev⟩ | ⟨m,_,rfl⟩
  · refine Or.inr ⟨mn,hmn,?_⟩
    cases hev with
    | same => rfl
    | checked => exact check_last _ mn
    | refreshed _ m _ _ _ => exact refresh_last env e.view m mn
    | pinged m _ _ => exact ping_last env e.view m mn
  · exact Or.inl rfl

end List

section Steps
variable (st : State)

/-- Whatever leaves the counts as they were leaves one announcement counted at most. -/
theorem single_of_counts {st' : State} (h : counts st' = counts st) (hs : Single st) :
    Single st' := by
  obtain ⟨hcount,hnoted⟩ := Prod.mk.inj h
  constructor
  · rw [hcount]
    exact hs.count
  · intro mn hmn
    have hin : mn.nLastDsq ∈ st.list.vecMasternodes.map CMasterNode.nLastDsq :=
      hnoted ▸ List.mem_map_of_mem hmn
    obtain ⟨a,ha,hlast⟩ := List.mem_map.mp hin
    rw [← hlast, hcount]
    exact hs.noted a ha

theorem queue_single (dsq : CDarksendQueue) (n : ℕ) (h0 : st.nDsqCount = 0) (hs : Single st) :
    Single (queue dsq st n) := by
  constructor
  · right
    simp [queue, h0]
  · intro mn hmn
    obtain ⟨i,hi⟩ := List.mem_iff_getElem?.mp hmn
    rw [queue, List.getElem?_modify] at hi
    obtain ⟨a,ha,rfl⟩ := Option.map_eq_some_iff.mp hi
    split_ifs
    · exact Or.inr rfl
    · left
      have hold := hs.noted a (List.mem_of_getElem? ha)
      rwa [h0, or_self] at hold

theorem handle_single (e : Event) (hs : Single st) : Single (handle env keyId e st) := by
  obtain ⟨V,message⟩ := e
  cases message with
  | dsq nVersion dsq =>
    change Single (processDsq V dsq st nVersion).1
    rcases process_cases V dsq st nVersion with ⟨n,hq,h0⟩ | ⟨_,hc⟩
    · rw [hq]
      exact queue_single st dsq n h0 hs
    · exact single_of_counts st hc hs
  | pool m => cases m <;> exact single_of_counts st rfl hs
  | list m =>
    constructor
    · exact hs.count
    · intro mn' hmn'
      rcases list_lasts env keyId hmn' with h | ⟨mn,hmn,h⟩
      · exact Or.inl h
      · rw [h]
        exact hs.noted mn hmn
  | used which => exact single_of_counts st rfl hs

theorem recent_iff (V : View) (hs : Single st) {mn : CMasterNode}
    (hmn : mn ∈ st.list.vecMasternodes) :
    (st.nDsqCount ≠ 0 ↔ Recent V st mn) ↔
      st.nDsqCount = 0 ∨ mn.nLastDsq ≠ 0 ∧ 5 ≤ countMasternodesAboveProtocol
        st.list.vecMasternodes (getBlockVersion (tipHeight V.chain)) := by
  have hnoted := hs.noted mn hmn
  unfold Recent
  generalize countMasternodesAboveProtocol st.list.vecMasternodes
    (getBlockVersion (tipHeight V.chain)) = c
  constructor
  · intro h
    by_cases h0 : st.nDsqCount = 0
    · exact Or.inl h0
    · have := h.mp h0
      right
      omega
  · intro h
    constructor
    · intro h0
      omega
    · intro hr
      omega

theorem agrees_iff (e : Event) (hs : Single st) : Agrees env keyId st e ↔ Unhampered st e := by
  obtain ⟨V,message⟩ := e
  cases message with
  | dsq nVersion dsq =>
    have hquiet : (processDsq V dsq st nVersion).2 ≠ .queued →
        counts (handle env keyId ⟨V,.dsq nVersion dsq⟩ st) = counts st := by
      intro hne
      rcases process_cases V dsq st nVersion with ⟨n,hq,_⟩ | ⟨_,hc⟩
      · exact absurd (congrArg Prod.snd hq) hne
      · exact hc
    have hrule : ∀ mn, Announces V dsq nVersion st → entryOf dsq.vin st = some mn →
        (((processDsq V dsq st nVersion).2 = .tooMany ↔ Recent V st mn) ↔
          st.nDsqCount = 0 ∨ mn.nLastDsq ≠ 0 ∧ 5 ≤ countMasternodesAboveProtocol
            st.list.vecMasternodes (getBlockVersion (tipHeight V.chain))) := by
      intro mn ha hmn
      rw [announces_outcome V dsq st nVersion ha hmn]
      obtain ⟨n,_,hget⟩ := entry_found st hmn
      exact recent_iff st V hs (List.mem_of_getElem? hget)
    constructor
    · intro h ha mn hmn
      exact (hrule mn ha hmn).mp (h.1 ha mn hmn)
    · intro h
      exact ⟨fun ha mn hmn => (hrule mn ha hmn).mpr (h ha mn hmn),hquiet⟩
  | pool m =>
    refine iff_of_true ?_ trivial
    cases m with
    | dsa nVersion nDenom tx =>
      refine ⟨fun hv hu mn hmn => ?_,rfl⟩
      rw [join_outcome env (seen V st) st.pool nDenom tx hv hu hmn]
      rw [tooRecent, Bool.and_eq_true, bne_iff_ne, decide_eq_true_iff]
      exact Iff.rfl
    | _ => trivial
  | list m => exact Iff.rfl
  | used which => exact Iff.rfl

end Steps

/-- The rule is applied alike in both places all along a run exactly where no announcement
comes in after the first, but from the masternode that was counted, of five at least. -/
theorem flood_rules_agree_iff (timeMillis sessionID : ℤ) (es : List Event) :
    Along (handle env keyId) (Agrees env keyId) es (start timeMillis sessionID) ↔
      Along (handle env keyId) Unhampered es (start timeMillis sessionID) := by
  apply along_congr (handle env keyId) Single
  · exact fun e st => handle_single env keyId st e
  · exact fun e st => agrees_iff env keyId st e
  · exact ⟨Or.inl rfl,by simp [start, MasternodeList.start]⟩

section Sample

def sampleView : View where
  __ := DarkSendSession.sampleView
  submittedToMasternode := ⟨[],0⟩
  prepareDenominate := id

def sampleDsq (n : ℕ) : CDarksendQueue := ⟨⟨⟨9,n⟩,[],uintMax⟩,1000,1,false,[]⟩

def sampleState : State :=
  deliver (handle sampleEnv (fun _ => 0))
    [⟨sampleView,.list (.dsee 69110 (MasternodeEvidence.sampleDsee 0))⟩,
      ⟨sampleView,.list (.dsee 69110 (MasternodeEvidence.sampleDsee 1))⟩,
      ⟨sampleView,.dsq 69110 (sampleDsq 0)⟩] (start 0 5)

/-- The second masternode is refused, which never was in the queue. -/
theorem second_announcement_refused : ¬ ∀ (env : Env) (keyId : CPubKey → Uint160)
    (timeMillis sessionID : ℤ) (es : List Event),
    Along (handle env keyId) (Agrees env keyId) es (start timeMillis sessionID) := by
  intro h
  obtain ⟨_,_,_,hlast,_⟩ := h sampleEnv (fun _ => 0) 0 5
    [⟨sampleView,.list (.dsee 69110 (MasternodeEvidence.sampleDsee 0))⟩,
      ⟨sampleView,.list (.dsee 69110 (MasternodeEvidence.sampleDsee 1))⟩,
      ⟨sampleView,.dsq 69110 (sampleDsq 0)⟩,⟨sampleView,.dsq 69110 (sampleDsq 1)⟩]
  have hann : Announces sampleView (sampleDsq 1) 69110 sampleState :=
    ⟨by decide +kernel,by decide +kernel,by decide +kernel,by decide +kernel,rfl,by decide +kernel⟩
  have hentry : (entryOf (sampleDsq 1).vin sampleState).map CMasterNode.nLastDsq = some 0 := by
    decide +kernel
  obtain ⟨mn,hmn,hzero⟩ := Option.map_eq_some_iff.mp hentry
  have htold : (processDsq sampleView (sampleDsq 1) sampleState 69110).2 = .tooMany := by
    decide +kernel
  exact ((hlast.1 hann mn hmn).mp htold).1 hzero

end Sample

end SwippCore.DarkSendQueue
