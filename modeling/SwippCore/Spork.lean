import SwippCore.Primitives
import SwippCore.Lib.Histories
import Mathlib.Data.BitVec

/-!
# Sporks

Messages of sporks, and that nodes agree on them in whatever order they arrive.
-/

set_option autoImplicit false

namespace SwippCore.Spork
open FinMap Histories

/-- `padding` is what the message object holds in the bytes that no field covers. -/
structure CSporkMessage where
  vchSig : List UInt8
  nSporkID : ℤ
  padding : ℕ
  nValue : ℤ
  nTimeSigned : ℤ
  deriving DecidableEq, Repr

structure Node where
  fLiteMode : Bool
  /-- whether `pindexBest` is set -/
  hasBest : Bool
  /-- the double hash of the memory of `nSporkID`, padding, `nValue` and `nTimeSigned` -/
  hashBytes : ℤ → ℕ → ℤ → ℤ → Uint256
  /-- `darkSendSigner.VerifyMessage`, on a public key in hexadecimal -/
  verifyMessage : String → List UInt8 → String → Bool

structure State where
  mapSporks : Dict Uint256 CSporkMessage
  mapSporksActive : Dict ℤ CSporkMessage

def State.empty : State := ⟨∅,∅⟩

def sporkMasternodePaymentsEnforcement : ℤ := 10000
def sporkMaxInstantXValue : ℤ := 10002
def sporkMasternodeAdaptiveNetwork : ℤ := 10003
def sporkMasternodeCollateral : ℤ := 10004

def defaultActiveTime (spork : ℤ) : Option ℤ :=
  if spork = sporkMasternodePaymentsEnforcement then some 1541030400
  else if spork = sporkMasternodeAdaptiveNetwork then some 1577836800
  else none

/-- The table holds `int`, which the collateral in base units does not fit. -/
def defaultValues (spork : ℤ) : Option ℤ :=
  if spork = sporkMaxInstantXValue then some 10000
  else if spork = sporkMasternodeCollateral then some (int32 (30000*coin))
  else none

def strMainPubKey : String :=
  "04a6a044940a141aa186ccd316c31b000ed85545e8c19e5e28978e09fd43" ++
  "d744dcd3d46fb445c29b0890dc54ca46a3a39beb8e9b4c866bba8ac557e30fbb030c56"

variable (node : Node)

def CSporkMessage.getHash (spork : CSporkMessage) : Uint256 :=
  node.hashBytes spork.nSporkID spork.padding spork.nValue spork.nTimeSigned

def checkSignature (spork : CSporkMessage) : Bool :=
  node.verifyMessage strMainPubKey spork.vchSig
    (toString spork.nSporkID ++ toString spork.nValue ++ toString spork.nTimeSigned)

def isStale (st : State) (spork : CSporkMessage) : Bool :=
  match st.mapSporks.lookup (spork.getHash node), st.mapSporksActive.lookup spork.nSporkID with
  | some _, some active => spork.nTimeSigned ≤ active.nTimeSigned
  | _, _ => false

def store (spork : CSporkMessage) (st : State) : State where
  mapSporks := st.mapSporks.insert (spork.getHash node) spork
  mapSporksActive := st.mapSporksActive.insert spork.nSporkID spork

inductive Reply where
  | ignored
  | misbehaving (score : ℕ)
  | relayed (hash : Uint256)
  deriving DecidableEq, Repr

/-- `ProcessSpork` on a "spork" message. -/
def processSpork (spork : CSporkMessage) (st : State) : State × Reply :=
  if node.fLiteMode then (st,.ignored)
  else if !node.hasBest then (st,.ignored)
  else if isStale node st spork then (st,.ignored)
  else if !checkSignature node spork then (st,.misbehaving 100)
  else (store node spork st,.relayed (spork.getHash node))

def isSporkActive (st : State) (now : ℤ) (spork : ℤ) : Bool :=
  let r := match st.mapSporksActive.lookup spork with
    | some m => m.nValue
    | none => (defaultActiveTime spork).getD 4070908800
  r < now

def getSporkValue (st : State) (spork : ℤ) : ℤ :=
  match st.mapSporksActive.lookup spork with
  | some m => int32 m.nValue
  | none => (defaultValues spork).getD 0

def receive (ms : List CSporkMessage) (st : State) : State :=
  deliver (fun m s => (processSpork node m s).1) ms st

def signedValue (st : State) (spork : ℤ) : Option ℤ :=
  (st.mapSporksActive.lookup spork).map CSporkMessage.nValue

theorem is_spork_active_signed (st : State) (now spork : ℤ) :
    isSporkActive st now spork =
      decide ((signedValue st spork).getD ((defaultActiveTime spork).getD 4070908800) < now) := by
  unfold isSporkActive signedValue
  cases st.mapSporksActive.lookup spork <;> rfl

theorem get_spork_value_signed (st : State) (spork : ℤ) :
    getSporkValue st spork =
      ((signedValue st spork).map int32).getD ((defaultValues spork).getD 0) := by
  unfold getSporkValue signedValue
  cases st.mapSporksActive.lookup spork <;> rfl

section Step
variable (spork : CSporkMessage) (st : State)

def Node.listens : Prop := node.fLiteMode = false ∧ node.hasBest = true

theorem stale_iff : isStale node st spork = true ↔
    spork.getHash node ∈ st.mapSporks ∧
      ∃ active, st.mapSporksActive.lookup spork.nSporkID = some active ∧
        spork.nTimeSigned ≤ active.nTimeSigned := by
  unfold isStale
  rw [mem_iff_lookup]
  cases st.mapSporks.lookup (spork.getHash node) with
  | none => simp
  | some m => cases st.mapSporksActive.lookup spork.nSporkID <;> simp

theorem process_cases : (processSpork node spork st).1 = st ∧
      (checkSignature node spork = true → ¬ node.listens ∨ isStale node st spork = true) ∨
    (processSpork node spork st).1 = store node spork st ∧ node.listens ∧
      checkSignature node spork = true ∧ isStale node st spork = false := by
  unfold processSpork Node.listens
  split_ifs with hlite hbest hstale hsig
  · exact Or.inl ⟨rfl,fun _ => Or.inl (by simp [hlite])⟩
  · exact Or.inl ⟨rfl,fun _ => Or.inl (by simpa using fun _ => hbest)⟩
  · exact Or.inl ⟨rfl,fun _ => Or.inr hstale⟩
  · refine Or.inl ⟨rfl,fun hc => ?_⟩
    rw [hc] at hsig
    exact absurd hsig (by simp)
  · exact Or.inr ⟨rfl,⟨by simpa using hlite,by simpa using hbest⟩,by simpa using hsig,
      by simpa using hstale⟩

theorem store_active (id : ℤ) : (store node spork st).mapSporksActive.lookup id =
    if id = spork.nSporkID then some spork else st.mapSporksActive.lookup id :=
  lookup_insert_if _ _ _ _

theorem store_known (hash : Uint256) : hash ∈ (store node spork st).mapSporks ↔
    hash = spork.getHash node ∨ hash ∈ st.mapSporks := AList.mem_insert _

end Step
end SwippCore.Spork

namespace SwippCore.SporkOrder
open SwippCore.Spork Histories

variable (node : Node)

def ValidFor (id : ℤ) (m : CSporkMessage) : Prop :=
  m.nSporkID = id ∧ Spork.checkSignature node m = true

structure Newest (ms : List CSporkMessage) (st : State) : Prop where
  signed : ∀ id m, st.mapSporksActive.lookup id = some m → m ∈ ms ∧ ValidFor node id m
  newest : ∀ id m, st.mapSporksActive.lookup id = some m →
    ∀ m' ∈ ms, ValidFor node id m' → m'.nTimeSigned ≤ m.nTimeSigned
  known : ∀ id, ∀ m ∈ ms, ValidFor node id m → (st.mapSporksActive.lookup id).isSome

def Fresh (ms : List CSporkMessage) (m : CSporkMessage) : Prop :=
  Spork.checkSignature node m = true → node.listens ∧
    ((∀ m' ∈ ms, ValidFor node m.nSporkID m' → m'.nTimeSigned ≤ m.nTimeSigned) ∨
      ∃ m' ∈ ms, Spork.checkSignature node m' = true ∧ m'.getHash node = m.getHash node)

def Collisionless (ms : List CSporkMessage) : Prop :=
  ∀ m ∈ ms, ∀ m' ∈ ms, m.getHash node = m'.getHash node →
    m.nSporkID = m'.nSporkID ∧ m.nValue = m'.nValue ∧ m.nTimeSigned = m'.nTimeSigned

def SameValues (st st' : State) : Prop := ∀ id, signedValue st id = signedValue st' id

def Unanimous (ms : List CSporkMessage) : Prop :=
  node.listens → ∀ id, ∀ m ∈ ms, ∀ m' ∈ ms, ValidFor node id m → ValidFor node id m' →
    m.nValue = m'.nValue

section Recorded
variable (ms : List CSporkMessage)

structure Recorded (st : State) : Prop where
  signed : ∀ id m, st.mapSporksActive.lookup id = some m → m ∈ ms ∧ ValidFor node id m
  known : node.listens → ∀ id, ∀ m ∈ ms, ValidFor node id m →
    (st.mapSporksActive.lookup id).isSome
  hashes : ∀ hash, hash ∈ st.mapSporks ↔
    node.listens ∧ ∃ m ∈ ms, Spork.checkSignature node m = true ∧ m.getHash node = hash
  silent : ¬ node.listens → st = .empty

theorem recorded_empty : Recorded node [] State.empty where
  signed id m h := by simp [State.empty] at h
  known _ id m h := by simp at h
  hashes hash := by simp [State.empty]
  silent _ := rfl

theorem recorded_ignored {m : CSporkMessage} {st : State} (hr : Recorded node ms st)
    (h : Spork.checkSignature node m = true → ¬ node.listens ∨ isStale node st m = true) :
    Recorded node (ms++[m]) st where
  signed id a ha := by
    obtain ⟨hmem,hv⟩ := hr.signed id a ha
    exact ⟨List.mem_append_left _ hmem,hv⟩
  known hl id a ha hv := by
    rcases List.mem_append.mp ha with ha | ha
    · exact hr.known hl id a ha hv
    · rw [List.mem_singleton.mp ha] at hv
      rcases h hv.2 with hn | hstale
      · exact absurd hl hn
      · obtain ⟨_,active,hact,_⟩ := (stale_iff node m st).mp hstale
        rw [← hv.1, hact]
        rfl
  hashes hash := by
    rw [hr.hashes hash]
    refine and_congr_right (fun hl => ⟨?_,?_⟩)
    · rintro ⟨a,ha,hs⟩
      exact ⟨a,List.mem_append_left _ ha,hs⟩
    · rintro ⟨a,ha,hs,heq⟩
      rcases List.mem_append.mp ha with ha | ha
      · exact ⟨a,ha,hs,heq⟩
      · rw [List.mem_singleton.mp ha] at hs heq
        rcases h hs with hn | hstale
        · exact absurd hl hn
        · have hin := ((stale_iff node m st).mp hstale).1
          rw [heq] at hin
          exact ((hr.hashes hash).mp hin).2
  silent := hr.silent

theorem recorded_stored {m : CSporkMessage} {st : State} (hr : Recorded node ms st)
    (hl : node.listens) (hs : Spork.checkSignature node m = true) :
    Recorded node (ms++[m]) (store node m st) where
  signed id a ha := by
    rw [store_active] at ha
    split_ifs at ha with hid
    · cases ha
      exact ⟨by simp,hid.symm,hs⟩
    · obtain ⟨hmem,hv⟩ := hr.signed id a ha
      exact ⟨List.mem_append_left _ hmem,hv⟩
  known _ id a ha hv := by
    rw [store_active]
    split_ifs with hid
    · rfl
    · rcases List.mem_append.mp ha with ha | ha
      · exact hr.known hl id a ha hv
      · rw [List.mem_singleton.mp ha] at hv
        exact absurd hv.1.symm hid
  hashes hash := by
    rw [store_known, hr.hashes hash]
    constructor
    · rintro (rfl | ⟨_,a,ha,h⟩)
      · exact ⟨hl,m,by simp,hs,rfl⟩
      · exact ⟨hl,a,List.mem_append_left _ ha,h⟩
    · rintro ⟨_,a,ha,hsa,heq⟩
      rcases List.mem_append.mp ha with ha | ha
      · exact Or.inr ⟨hl,a,ha,hsa,heq⟩
      · rw [List.mem_singleton.mp ha] at heq
        exact Or.inl heq.symm
  silent hn := absurd hl hn

theorem receive_concat (m : CSporkMessage) (st : State) :
    receive node (ms++[m]) st = (processSpork node m (receive node ms st)).1 :=
  deliver_concat _ ms m st

theorem recorded : Recorded node ms (receive node ms .empty) := by
  induction ms using List.reverseRecOn with
  | nil => exact recorded_empty node
  | append_singleton ms m ih =>
    rw [receive_concat]
    rcases process_cases node m (receive node ms .empty) with ⟨heq,h⟩ | ⟨heq,hl,hs,_⟩
    · rw [heq]
      exact recorded_ignored node ms ih h
    · rw [heq]
      exact recorded_stored node ms ih hl hs

end Recorded

section Step
variable (ms : List CSporkMessage) (m : CSporkMessage) (st : State)

/-- A message that changes nothing leaves the newest ones where they are, unless it
was a signed one that the node did not listen to. -/
theorem newest_ignored (hr : Recorded node ms st) (hn : Newest node ms st)
    (h : Spork.checkSignature node m = true → ¬ node.listens ∨ isStale node st m = true) :
    Newest node (ms++[m]) st ↔ Fresh node ms m := by
  have hr' := recorded_ignored node ms hr h
  constructor
  · intro hn' hs
    have hsome := hn'.known m.nSporkID m (by simp) ⟨rfl,hs⟩
    rcases h hs with hoff | hstale
    · rw [hr.silent hoff] at hsome
      simp [State.empty] at hsome
    · obtain ⟨hin,_⟩ := (stale_iff node m st).mp hstale
      obtain ⟨hl,a,ha,hsa,heq⟩ := (hr.hashes _).mp hin
      exact ⟨hl,Or.inr ⟨a,ha,hsa,heq⟩⟩
  · intro hf
    refine ⟨hr'.signed,?_,?_⟩
    · intro id a ha b hb hv
      rcases List.mem_append.mp hb with hb | hb
      · exact hn.newest id a ha b hb hv
      · rw [List.mem_singleton.mp hb] at hv ⊢
        rcases h hv.2 with hoff | hstale
        · exact absurd (hf hv.2).1 hoff
        · obtain ⟨_,active,hact,hle⟩ := (stale_iff node m st).mp hstale
          rw [hv.1, ha] at hact
          cases hact
          exact hle
    · intro id a ha hv
      rcases List.mem_append.mp ha with ha' | ha'
      · exact hn.known id a ha' hv
      · rw [List.mem_singleton.mp ha'] at hv
        exact hr'.known (hf hv.2).1 id m (by simp) hv

/-- A message that is stored is the newest one exactly when no newer one came before. -/
theorem newest_stored (hr : Recorded node ms st) (hn : Newest node ms st) (hl : node.listens)
    (hs : Spork.checkSignature node m = true) (hstale : isStale node st m = false) :
    Newest node (ms++[m]) (store node m st) ↔ Fresh node ms m := by
  have hr' := recorded_stored node ms hr hl hs
  have hfresh : Fresh node ms m ↔
      ∀ m' ∈ ms, ValidFor node m.nSporkID m' → m'.nTimeSigned ≤ m.nTimeSigned := by
    constructor
    · intro hf m' hm' hv
      rcases (hf hs).2 with hle | ⟨b,hb,hsb,heq⟩
      · exact hle m' hm' hv
      · -- the hash is known, so the message passed the comparison with the active one
        have hin : m.getHash node ∈ st.mapSporks := (hr.hashes _).mpr ⟨hl,b,hb,hsb,heq⟩
        obtain ⟨active,hact⟩ := Option.isSome_iff_exists.mp (hn.known _ m' hm' hv)
        have hlt : active.nTimeSigned < m.nTimeSigned := by
          by_contra hge
          have := (stale_iff node m st).mpr ⟨hin,active,hact,not_lt.mp hge⟩
          rw [hstale] at this
          cases this
        exact (hn.newest _ active hact m' hm' hv).trans hlt.le
    · exact fun h _ => ⟨hl,Or.inl h⟩
  rw [hfresh]
  constructor
  · intro hn' m' hm' hv
    exact hn'.newest m.nSporkID m (by rw [store_active, if_pos rfl]) m'
      (List.mem_append_left _ hm') hv
  · intro hle
    refine ⟨hr'.signed,?_,hr'.known hl⟩
    intro id a ha b hb hv
    rw [store_active] at ha
    split_ifs at ha with hid
    · cases ha
      rcases List.mem_append.mp hb with hb | hb
      · exact hle b hb (hid ▸ hv)
      · rw [List.mem_singleton.mp hb]
    · rcases List.mem_append.mp hb with hb | hb
      · exact hn.newest id a ha b hb hv
      · rw [List.mem_singleton.mp hb] at hv
        exact absurd hv.1.symm hid

end Step

theorem newest_throughout (ms : List CSporkMessage) :
    Throughout (fun m s => (processSpork node m s).1) (Newest node) ms .empty ↔
      Each (Fresh node) ms := by
  refine throughout_iff _ _ ?_ (fun ms m h => ?_) ms
  · exact ⟨(recorded_empty node).signed,fun id m hm => by simp [State.empty] at hm,
      fun id m hm => by simp at hm⟩
  · have hn := throughout_last _ h
    have hr : Recorded node ms (deliver _ ms .empty) := recorded node ms
    rcases process_cases node m (receive node ms .empty) with ⟨heq,hi⟩ | ⟨heq,hl,hs,hstale⟩
    · change Newest node (ms++[m]) (processSpork node m (receive node ms .empty)).1 ↔ _
      rw [heq]
      exact newest_ignored node ms m _ hr hn hi
    · change Newest node (ms++[m]) (processSpork node m (receive node ms .empty)).1 ↔ _
      rw [heq]
      exact newest_stored node ms m _ hr hn hl hs hstale

section Agreement
variable (ms : List CSporkMessage)

def Settled (m : CSporkMessage) (st : State) : Prop :=
  m.getHash node ∈ st.mapSporks → ∃ a, st.mapSporksActive.lookup m.nSporkID = some a ∧
    a.nValue = m.nValue ∧ a.nTimeSigned = m.nTimeSigned

variable {m : CSporkMessage}

/-- Once it is settled, messages with the same hash change nothing about the value. -/
theorem settled_step {c : CSporkMessage} {st : State} (hid : m.nSporkID = c.nSporkID)
    (hv : m.nValue = c.nValue) (ht : m.nTimeSigned = c.nTimeSigned) (h : Settled node m st) :
    Settled node m (processSpork node c st).1 := by
  rcases process_cases node c st with ⟨heq,_⟩ | ⟨heq,_⟩
  · rw [heq]
    exact h
  · rw [heq]
    intro _
    refine ⟨c,?_,hv.symm,ht.symm⟩
    rw [store_active, if_pos hid]

theorem settled_all {cs : List CSporkMessage} (st : State)
    (hcs : ∀ c ∈ cs, m.nSporkID = c.nSporkID ∧ m.nValue = c.nValue ∧ m.nTimeSigned = c.nTimeSigned)
    (h : Settled node m st) : Settled node m (receive node cs st) := by
  induction cs generalizing st with
  | nil => exact h
  | cons c cs ih =>
    obtain ⟨hid,hv,ht⟩ := hcs c List.mem_cons_self
    exact ih _ (fun d hd => hcs d (List.mem_cons_of_mem c hd))
      (settled_step node hid hv ht h)

theorem same_values_serve (st st' : State) (h : SameValues st st') (now id : ℤ) :
    isSporkActive st now id = isSporkActive st' now id ∧
      getSporkValue st id = getSporkValue st' id := by
  rw [is_spork_active_signed, is_spork_active_signed, get_spork_value_signed,
    get_spork_value_signed, h id]
  exact ⟨rfl,rfl⟩

/-- The messages in the order that delivers those with the hash of `m` last. -/
def lastly (m : CSporkMessage) (ms : List CSporkMessage) : List CSporkMessage :=
  ms.filter (fun a => !(a.getHash node == m.getHash node)) ++
    ms.filter (fun a => a.getHash node == m.getHash node)

theorem lastly_perm (m : CSporkMessage) : (lastly node m ms).Perm ms :=
  List.perm_append_comm.trans
    (List.filter_append_perm (fun a : CSporkMessage => a.getHash node == m.getHash node) ms)

theorem lastly_value (hc : Collisionless node ms) (hl : node.listens) (hm : m ∈ ms)
    (hs : Spork.checkSignature node m = true) :
    signedValue (receive node (lastly node m ms) .empty) m.nSporkID = some m.nValue := by
  have hfirst : Settled node m (receive node
      (ms.filter (fun a => !(a.getHash node == m.getHash node))) .empty) := by
    intro hin
    obtain ⟨_,a,ha,_,heq⟩ := ((recorded node _).hashes _).mp hin
    have hne := (List.mem_filter.mp ha).2
    simp [heq] at hne
  have hlast : Settled node m (receive node (lastly node m ms) .empty) := by
    unfold lastly
    rw [receive, deliver_append]
    refine settled_all node _ (fun c hcs => ?_) hfirst
    obtain ⟨hcm,hch⟩ := List.mem_filter.mp hcs
    exact hc m hm c hcm (by simpa using (beq_iff_eq.mp hch).symm)
  have hknown : m.getHash node ∈ (receive node (lastly node m ms) .empty).mapSporks :=
    ((recorded node _).hashes _).mpr ⟨hl,m,(lastly_perm node ms m).mem_iff.mpr hm,hs,rfl⟩
  obtain ⟨a,ha,hv,_⟩ := hlast hknown
  rw [signedValue, ha, Option.map_some, hv]

theorem unanimous_value {ms' : List CSporkMessage} (hp : ms'.Perm ms) (hu : Unanimous node ms)
    (hl : node.listens) (hm : m ∈ ms) (hs : Spork.checkSignature node m = true) :
    signedValue (receive node ms' .empty) m.nSporkID = some m.nValue := by
  have hr := recorded node ms'
  obtain ⟨a,ha⟩ := Option.isSome_iff_exists.mp
    (hr.known hl m.nSporkID m (hp.mem_iff.mpr hm) ⟨rfl,hs⟩)
  obtain ⟨hmem,hv⟩ := hr.signed _ a ha
  rw [signedValue, ha, Option.map_some, hu hl m.nSporkID a (hp.mem_iff.mp hmem) m hm hv ⟨rfl,hs⟩]

theorem silent_value {ms' : List CSporkMessage} (hp : ms'.Perm ms) {id : ℤ}
    (h : ¬ (node.listens ∧ ∃ m ∈ ms, ValidFor node id m)) :
    signedValue (receive node ms' .empty) id = none := by
  have hr := recorded node ms'
  rw [signedValue, Option.map_eq_none_iff]
  by_contra hne
  obtain ⟨a,ha⟩ := Option.ne_none_iff_exists'.mp hne
  obtain ⟨hmem,hv⟩ := hr.signed id a ha
  refine h ⟨?_,a,hp.mem_iff.mp hmem,hv⟩
  by_contra hoff
  rw [hr.silent hoff] at ha
  simp [State.empty] at ha

theorem unanimous_agree {ms₁ ms₂ : List CSporkMessage} (h₁ : ms₁.Perm ms) (h₂ : ms₂.Perm ms)
    (hu : Unanimous node ms) : SameValues (receive node ms₁ .empty) (receive node ms₂ .empty) := by
  intro id
  by_cases h : node.listens ∧ ∃ m ∈ ms, ValidFor node id m
  · obtain ⟨hl,m,hm,rfl,hs⟩ := h
    rw [unanimous_value node ms h₁ hu hl hm hs, unanimous_value node ms h₂ hu hl hm hs]
  · rw [silent_value node ms h₁ h, silent_value node ms h₂ h]

theorem agree_unanimous (hc : Collisionless node ms)
    (h : ∀ ms₁ ms₂, ms₁.Perm ms → ms₂.Perm ms →
      SameValues (receive node ms₁ .empty) (receive node ms₂ .empty)) : Unanimous node ms := by
  intro hl id m hm m' hm' hv hv'
  have heq := h _ _ (lastly_perm node ms m) (lastly_perm node ms m') id
  rw [← hv.1, lastly_value node ms hc hl hm hv.2, hv.1, ← hv'.1,
    lastly_value node ms hc hl hm' hv'.2] at heq
  exact Option.some.inj heq

end Agreement

/-- In a delivery the active messages stay the newest signed ones exactly when no signed
message with a new hash comes after a newer one of its id; and, where no two messages
collide, the order makes no difference to the values exactly when the signed messages of
one id carry one value. -/
theorem spork_order_iff (ms : List CSporkMessage) :
    (Throughout (fun m s => (processSpork node m s).1) (Newest node) ms .empty ↔
      Each (Fresh node) ms) ∧
    (Collisionless node ms →
      ((∀ ms₁ ms₂, ms₁.Perm ms → ms₂.Perm ms →
          SameValues (receive node ms₁ .empty) (receive node ms₂ .empty)) ↔
        Unanimous node ms)) :=
  ⟨newest_throughout node ms,fun hc => ⟨agree_unanimous node ms hc,
    fun hu _ _ h₁ h₂ => unanimous_agree node ms h₁ h₂ hu⟩⟩

def sampleNode : Node where
  fLiteMode := false
  hasBest := true
  hashBytes _ _ _ nTimeSigned := BitVec.ofInt 256 nTimeSigned
  verifyMessage _ _ _ := true

def sampleSpork (nValue nTimeSigned : ℤ) : CSporkMessage :=
  ⟨[],sporkMaxInstantXValue,0,nValue,nTimeSigned⟩

theorem two_sporks_disagree : ¬ ∀ ms₁ ms₂,
    ms₁.Perm [sampleSpork 5 20,sampleSpork 7 10] → ms₂.Perm [sampleSpork 5 20,sampleSpork 7 10] →
      SameValues (receive sampleNode ms₁ .empty) (receive sampleNode ms₂ .empty) := by
  have hc : Collisionless sampleNode [sampleSpork 5 20,sampleSpork 7 10] := by
    unfold Collisionless
    decide
  intro h
  have hu := ((spork_order_iff sampleNode [sampleSpork 5 20,sampleSpork 7 10]).2 hc).mp h
  have hv := hu ⟨rfl,rfl⟩ sporkMaxInstantXValue (sampleSpork 5 20) (by simp) (sampleSpork 7 10)
    (by simp) ⟨rfl,rfl⟩ ⟨rfl,rfl⟩
  exact absurd hv (by decide)

/-- The older of two signed messages, seen for the first time, undoes the newer one. -/
theorem older_spork_wins : ¬ ∀ (node : Node) (ms : List CSporkMessage),
    Throughout (fun m s => (processSpork node m s).1) (Newest node) ms .empty := by
  intro h
  have hn := throughout_last _ (h sampleNode [sampleSpork 5 20,sampleSpork 7 10])
  have hle := hn.newest sporkMaxInstantXValue (sampleSpork 7 10) (by decide) (sampleSpork 5 20)
    (by simp) ⟨rfl,rfl⟩
  exact absurd hle (by decide)

end SwippCore.SporkOrder
