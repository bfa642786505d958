import SwippCore.MasternodeList

/-!
# What a step does to the entries

Every entry of the list after an event was there before it, and went through
`Check`, an announcement or a ping at most, or was added by the event.
-/

set_option autoImplicit false

namespace SwippCore.MasternodeSteps
open Masternode MasternodeList MasternodeEvidence

variable (env : Env) (keyId : CPubKey → Uint160)

inductive Evolved (e : Event) (mn : CMasterNode) : CMasterNode → Prop
  | same : Evolved e mn mn
  | checked : Evolved e mn (mn.check (ambience env e.view))
  | refreshed (nVersion : ℤ) (m : Dsee) (he : e.message = .dsee nVersion m)
      (hr : dseeRefused keyId e.view m nVersion = none) (hv : mn.vin.prevout = m.vin.prevout) :
      Evolved e mn (refresh env e.view m mn).1
  | pinged (m : Dseep) (he : e.message = .dseep m) (hv : mn.vin.prevout = m.vin.prevout) :
      Evolved e mn (ping env e.view m mn).1

variable {mn' : CMasterNode}

theorem on_entry_mem {β : Type} {o : COutPoint} {f : CMasterNode → CMasterNode × β}
    (mns mns' : List CMasterNode) {b : β} (h : onEntry o f mns = some (mns',b)) (hmn : mn' ∈ mns') :
    mn' ∈ mns ∨ ∃ mn ∈ mns, mn.vin.prevout = o ∧ mn' = (f mn).1 := by
  induction mns generalizing mns' with
  | nil => cases h
  | cons mn mns ih =>
    rw [onEntry] at h
    split_ifs at h with hv
    · obtain ⟨rfl,_⟩ := Prod.mk.inj (Option.some_inj.mp h)
      rcases List.mem_cons.mp hmn with rfl | hmn
      · exact Or.inr ⟨mn,by simp,hv,rfl⟩
      · exact Or.inl (by simp [hmn])
    · obtain ⟨⟨ns,c⟩,hr,he⟩ := Option.map_eq_some_iff.mp h
      obtain ⟨rfl,rfl⟩ := Prod.mk.inj he
      rcases List.mem_cons.mp hmn with rfl | hmn
      · exact Or.inl (by simp)
      · rcases ih ns hr hmn with hin | ⟨a,ha,hva,rfl⟩
        · exact Or.inl (by simp [hin])
        · exact Or.inr ⟨a,by simp [ha],hva,rfl⟩

theorem find_winner_mem {V : View} {vins : List CTxIn} {mns : List CMasterNode}
    (h : mn' ∈ (findWinner env V vins mns).1) :
    ∃ mn ∈ mns, mn' = mn ∨ mn' = mn.check (ambience env V) := by
  induction mns with
  | nil => simp [findWinner] at h
  | cons mn mns ih =>
    have hlater : mn' ∈ (findWinner env V vins mns).1 →
        ∃ a ∈ mn::mns, mn' = a ∨ mn' = a.check (ambience env V) := by
      intro hin
      obtain ⟨a,ha,hor⟩ := ih hin
      exact ⟨a,by simp [ha],hor⟩
    rw [findWinner] at h
    split_ifs at h
    · rcases List.mem_cons.mp h with rfl | h
      · exact ⟨mn',by simp,Or.inl rfl⟩
      · exact hlater h
    · rcases List.mem_cons.mp h with rfl | h
      · exact ⟨mn,by simp,Or.inr rfl⟩
      · exact ⟨mn',by simp [h],Or.inl rfl⟩
    · rcases List.mem_cons.mp h with rfl | h
      · exact ⟨mn,by simp,Or.inr rfl⟩
      · exact hlater h

theorem process_winner_mem {V : View} {shuffle : Shuffle} {n : ℤ} {st : State}
    (h : mn' ∈ (processWinner env keyId V shuffle n st).1.vecMasternodes) :
    ∃ mn ∈ st.vecMasternodes, mn' = mn ∨ mn' = mn.check (ambience env V) := by
  have hfound : ∀ vins, mn' ∈ (findWinner env V vins (shuffle.order st.vecMasternodes)).1 →
      ∃ mn ∈ st.vecMasternodes, mn' = mn ∨ mn' = mn.check (ambience env V) := by
    intro vins hin
    obtain ⟨a,ha,hor⟩ := find_winner_mem env hin
    exact ⟨a,(shuffle.perm _).subset ha,hor⟩
  unfold processWinner at h
  split_ifs at h
  · exact ⟨mn',h,Or.inl rfl⟩
  · dsimp only at h
    split at h
    · exact hfound _ h
    · split at h
      · exact hfound _ h
      · exact hfound _ h

theorem evolved_of_checked {e : Event} {mn : CMasterNode}
    (h : mn' = mn ∨ mn' = mn.check (ambience env e.view)) : Evolved env keyId e mn mn' := by
  rcases h with rfl | rfl
  · exact .same
  · exact .checked

theorem handle_entries {e : Event} {st : State} (h : mn' ∈ (handle env keyId e st).vecMasternodes) :
    (∃ mn ∈ st.vecMasternodes, Evolved env keyId e mn mn') ∨
      ∃ m, Admitted env keyId e st m ∧ mn' = m.entry env e.view := by
  have hkept : mn' ∈ st.vecMasternodes → (∃ mn ∈ st.vecMasternodes, Evolved env keyId e mn mn') ∨
      ∃ m, Admitted env keyId e st m ∧ mn' = m.entry env e.view :=
    fun hin => Or.inl ⟨mn',hin,.same⟩
  obtain ⟨V,message⟩ := e
  cases message with
  | dsee nVersion m =>
    simp only [handle, dsee] at h
    cases hr : dseeRefused keyId V m nVersion with
    | some r =>
      rw [hr] at h
      exact hkept h
    | none =>
      rw [hr] at h
      cases he : onEntry m.vin.prevout (refresh env V m) st.vecMasternodes with
      | some r =>
        rw [he] at h
        rcases on_entry_mem _ r.1 he h with hin | ⟨mn,hmn,hv,rfl⟩
        · exact hkept hin
        · exact Or.inl ⟨mn,hmn,.refreshed nVersion m rfl hr hv⟩
      | none =>
        rw [he] at h
        cases hn : newEntryRefused env keyId V m with
        | some r =>
          rw [hn] at h
          exact hkept h
        | none =>
          rw [hn] at h
          rcases List.mem_append.mp h with hin | hin
          · exact hkept hin
          · rw [List.mem_singleton.mp hin]
            exact Or.inr ⟨m,⟨nVersion,rfl,hr,(on_entry_none _ _ _).mp he,hn⟩,rfl⟩
  | dseep m =>
    simp only [handle, dseep] at h
    cases he : onEntry m.vin.prevout (ping env V m) st.vecMasternodes with
    | none =>
      rw [he] at h
      split_ifs at h <;> exact hkept h
    | some r =>
      rw [he] at h
      split_ifs at h
      · exact hkept h
      · exact hkept h
      · exact hkept h
      all_goals
        rcases on_entry_mem _ r.1 he h with hin | ⟨mn,hmn,hv,rfl⟩
        · exact hkept hin
        · exact Or.inl ⟨mn,hmn,.pinged m rfl hv⟩
  | mnw winner => exact hkept h
  | block shuffle =>
    simp only [handle, processBlock] at h
    split_ifs at h
    · obtain ⟨mn,hmn,hor⟩ := process_winner_mem env keyId h
      exact Or.inl ⟨mn,hmn,evolved_of_checked env keyId hor⟩
    · exact hkept h
  | check looked =>
    obtain ⟨mn,hmn,rfl⟩ := List.mem_map.mp h
    refine Or.inl ⟨mn,hmn,?_⟩
    by_cases hl : looked mn = true
    · rw [if_pos hl]
      exact .checked
    · rw [if_neg hl]
      exact .same
  | removal =>
    obtain ⟨mn,hmn,rfl⟩ := List.mem_map.mp (List.mem_filter.mp h).1
    exact Or.inl ⟨mn,hmn,.checked⟩

theorem admitted_mem {e : Event} {st : State} {m : Dsee} (h : Admitted env keyId e st m) :
    m.entry env e.view ∈ (handle env keyId e st).vecMasternodes := by
  obtain ⟨V,message⟩ := e
  obtain ⟨nVersion,rfl,hr,hno,hn⟩ := h
  have he := (on_entry_none m.vin.prevout (refresh env V m) st.vecMasternodes).mpr hno
  simp only [handle, dsee, hr, he, hn]
  simp

end SwippCore.MasternodeSteps

/-!
## When a masternode was last seen

A ping or an update stamps the entry with the clock, but an announcement that adds
one sets the time from a field of its own, which the signature does not cover. Where
no such field is ahead of the clock, every entry stands by a message that was taken
no earlier than its stamp, and whoever falls silent expires and is removed.
-/

namespace SwippCore.MasternodeTimes
open Histories Masternode MasternodeList MasternodeEvidence MasternodeSteps

variable (env : Env) (keyId : CPubKey → Uint160)

def pingText (V : View) (m : Dseep) (mn : CMasterNode) : List UInt8 :=
  bytes (V.addrString mn.addr ++ toString m.sigTime ++ if m.stop then "1" else "0")

/-- The event is a message of the masternode at the outpoint, signed by its key: a ping, an
announcement by the key of the entry, or one that adds the entry. -/
def Taken (e : Event) (st : State) (o : COutPoint) : Prop :=
  match e.message with
  | .dsee nVersion m => m.vin.prevout = o ∧ dseeRefused keyId e.view m nVersion = none ∧
    ((∃ mn ∈ st.vecMasternodes, mn.vin.prevout = o ∧ mn.pubkey = m.pubkey) ∨
      ∀ mn ∈ st.vecMasternodes, mn.vin.prevout ≠ o)
  | .dseep m => m.vin.prevout = o ∧ ∃ mn ∈ st.vecMasternodes, mn.vin.prevout = o ∧
    e.view.verifyByKey mn.pubkey2 m.vchSig (pingText e.view m mn) = true
  | _ => False

def SilentFor (seconds : ℤ) (es : List Event) (V : View) (o : COutPoint) : Prop :=
  ∀ pre e, pre++[e] <+: es → Taken keyId e (run env keyId pre) o →
    seconds ≤ V.adjustedTime-e.view.adjustedTime

/-- The times of the entries are not ahead of the clock, and whoever is silent for long
enough is not enabled when it is checked, and then not in the list after the next pass. -/
structure Timely (es : List Event) : Prop where
  seen : ∀ mn ∈ (run env keyId es).vecMasternodes, ∀ T, (∀ e ∈ es, e.view.adjustedTime ≤ T) →
    mn.lastTimeSeen ≤ T
  expired : ∀ V o, SilentFor env keyId masternodeExpirationSeconds es V o →
    ∀ mn ∈ (run env keyId es).vecMasternodes, mn.vin.prevout = o →
      (mn.check (ambience env V)).isEnabled = false
  removed : ∀ V o, SilentFor env keyId masternodeRemovalSeconds es V o →
    ∀ mn ∈ (removalPass env V (run env keyId es)).vecMasternodes, mn.vin.prevout ≠ o

def NotAhead (es : List Event) (e : Event) : Prop :=
  ∀ m, Admitted env keyId e (run env keyId es) m → m.lastUpdated ≤ e.view.adjustedTime

structure Clocked (es : List Event) : Prop where
  nonneg : ∀ e ∈ es, 0 ≤ e.view.adjustedTime
  forward : es.Pairwise (fun e e' => e.view.adjustedTime ≤ e'.view.adjustedTime)

def Vouched (es : List Event) : Prop :=
  ∀ mn ∈ (run env keyId es).vecMasternodes, ∃ pre e, pre++[e] <+: es ∧
    Taken keyId e (run env keyId pre) mn.vin.prevout ∧ mn.lastTimeSeen ≤ e.view.adjustedTime

section Entries
variable (V : View)

variable (amb : Ambience)

@[simp] theorem check_time (mn : CMasterNode) : (mn.check amb).lastTimeSeen = mn.lastTimeSeen := by
  unfold CMasterNode.check
  split_ifs <;> rfl

theorem refresh_time (m : Dsee) (mn : CMasterNode) :
    (refresh env V m mn).1.lastTimeSeen = mn.lastTimeSeen ∨
      (refresh env V m mn).1.lastTimeSeen = V.adjustedTime ∧ mn.pubkey = m.pubkey := by
  unfold refresh
  dsimp only
  split_ifs with h
  · exact Or.inr ⟨rfl,h.2.1⟩
  · exact Or.inr ⟨rfl,h.2.1⟩
  · exact Or.inl rfl

theorem ping_time (m : Dseep) (mn : CMasterNode) :
    (ping env V m mn).1.lastTimeSeen = mn.lastTimeSeen ∨
      ((ping env V m mn).1.lastTimeSeen = V.adjustedTime ∨ (ping env V m mn).1.lastTimeSeen = 0) ∧
        V.verifyByKey mn.pubkey2 m.vchSig (pingText V m mn) = true := by
  unfold ping
  split
  · rw [show bytes (V.addrString mn.addr ++ toString m.sigTime ++ if m.stop then "1" else "0") =
      pingText V m mn from rfl]
    dsimp only
    cases V.verifyByKey mn.pubkey2 m.vchSig (pingText V m mn) with
    | false => exact Or.inl rfl
    | true =>
      rw [if_neg (by simp)]
      split
      · cases m.stop with
        | false => exact Or.inr ⟨Or.inl rfl,rfl⟩
        | true =>
          refine Or.inr ⟨Or.inr ?_,rfl⟩
          exact (check_time _ _).trans rfl
      · exact Or.inl rfl
  · exact Or.inl rfl

theorem refresh_vin (m : Dsee) (mn : CMasterNode) :
    (refresh env V m mn).1.vin.prevout = mn.vin.prevout :=
  congrArg Prod.fst (refresh_claim env V m mn)

theorem ping_vin (m : Dseep) (mn : CMasterNode) :
    (ping env V m mn).1.vin.prevout = mn.vin.prevout :=
  congrArg Prod.fst (ping_claim env V m mn)

theorem silent_disabled (mn : CMasterNode)
    (h : masternodeExpirationSeconds ≤ amb.adjustedTime-mn.lastTimeSeen) :
    (mn.check amb).isEnabled = false := by
  have hlate : mn.updatedWithin amb masternodeExpirationSeconds = false := by
    rw [CMasterNode.updatedWithin, decide_eq_false_iff_not]
    omega
  unfold CMasterNode.check CMasterNode.isEnabled
  split_ifs with h3 hr <;> simp_all

theorem silent_removed (mn : CMasterNode)
    (h : masternodeRemovalSeconds ≤ amb.adjustedTime-mn.lastTimeSeen) :
    (mn.check amb).enabled = 3 ∨ (mn.check amb).enabled = 4 := by
  have hlate : mn.updatedWithin amb masternodeRemovalSeconds = false := by
    rw [CMasterNode.updatedWithin, decide_eq_false_iff_not]
    omega
  unfold CMasterNode.check
  split_ifs with h3 hr
  · exact Or.inl h3
  · exact Or.inr rfl
  all_goals simp [hlate] at hr

end Entries

section Runs

theorem run_concat (es : List Event) (e : Event) :
    run env keyId (es++[e]) = handle env keyId e (run env keyId es) :=
  deliver_concat (handle env keyId) es e start

theorem vouched_concat {es : List Event} {e : Event} (h : Vouched env keyId es)
    (hpos : 0 ≤ e.view.adjustedTime) (hn : NotAhead env keyId es e) :
    Vouched env keyId (es++[e]) := by
  intro mn' hmn'
  rw [run_concat] at hmn'
  have hlast : Taken keyId e (run env keyId es) mn'.vin.prevout →
      mn'.lastTimeSeen ≤ e.view.adjustedTime →
      ∃ pre e', pre++[e'] <+: es++[e] ∧ Taken keyId e' (run env keyId pre) mn'.vin.prevout ∧
        mn'.lastTimeSeen ≤ e'.view.adjustedTime :=
    fun ht hle => ⟨es,e,List.prefix_refl _,ht,hle⟩
  rcases handle_entries env keyId hmn' with ⟨mn,hmn,hev⟩ | ⟨m,hadm,rfl⟩
  · have hold : mn'.lastTimeSeen = mn.lastTimeSeen → mn'.vin.prevout = mn.vin.prevout →
        ∃ pre e', pre++[e'] <+: es++[e] ∧ Taken keyId e' (run env keyId pre) mn'.vin.prevout ∧
          mn'.lastTimeSeen ≤ e'.view.adjustedTime := by
      intro htime hvin
      obtain ⟨pre,e',hpre,ht,hle⟩ := h mn hmn
      exact ⟨pre,e',hpre.trans (List.prefix_append es [e]),hvin ▸ ht,htime ▸ hle⟩
    cases hev with
    | same => exact hold rfl rfl
    | checked => exact hold (by simp) (by simp)
    | refreshed nVersion m he hr hv =>
      rcases refresh_time env e.view m mn with ht | ⟨ht,hkey⟩
      · exact hold ht (refresh_vin env e.view m mn)
      · apply hlast _ ht.le
        rw [refresh_vin, Taken, he]
        exact ⟨hv.symm,hr,Or.inl ⟨mn,hmn,rfl,hkey⟩⟩
    | pinged m he hv =>
      rcases ping_time env e.view m mn with ht | ⟨ht,hsig⟩
      · exact hold ht (ping_vin env e.view m mn)
      · apply hlast
        · rw [ping_vin, Taken, he]
          exact ⟨hv.symm,mn,hmn,rfl,hsig⟩
        · rcases ht with ht | ht <;> omega
  · have hahead := hn m hadm
    obtain ⟨nVersion,he,hr,hno,_⟩ := hadm
    apply hlast
    · rw [Taken, he]
      exact ⟨rfl,hr,Or.inr hno⟩
    · change (if m.lastUpdated = 0 then e.view.adjustedTime else m.lastUpdated) ≤ _
      split_ifs
      · exact le_refl _
      · exact hahead

theorem vouched_run {es : List Event} (hpos : ∀ e ∈ es, 0 ≤ e.view.adjustedTime)
    (h : Each (NotAhead env keyId) es) : Vouched env keyId es := by
  induction es using List.reverseRecOn with
  | nil => exact fun mn hmn => absurd hmn (by simp [run, deliver, start])
  | append_singleton es e ih =>
    obtain ⟨hes,he⟩ := (each_concat _ es e).mp h
    exact vouched_concat env keyId (ih (fun x hx => hpos x (by simp [hx])) hes)
      (hpos e (by simp)) he

theorem timely_of_vouched (es : List Event) (h : Vouched env keyId es) : Timely env keyId es := by
  constructor
  · intro mn hmn T hT
    obtain ⟨pre,e,hpre,_,hle⟩ := h mn hmn
    have he : e ∈ es := hpre.subset (by simp)
    exact hle.trans (hT e he)
  · intro V o hs mn hmn ho
    obtain ⟨pre,e,hpre,ht,hle⟩ := h mn hmn
    have := hs pre e hpre (ho ▸ ht)
    apply silent_disabled
    change masternodeExpirationSeconds ≤ V.adjustedTime-mn.lastTimeSeen
    omega
  · intro V o hs mn' hmn' ho
    obtain ⟨hmap,hkept⟩ := List.mem_filter.mp hmn'
    obtain ⟨mn,hmn,rfl⟩ := List.mem_map.mp hmap
    obtain ⟨pre,e,hpre,ht,hle⟩ := h mn hmn
    rw [CMasterNode.check_vin] at ho
    have := hs pre e hpre (ho ▸ ht)
    have hout := silent_removed (ambience env V) mn (by
      change masternodeRemovalSeconds ≤ V.adjustedTime-mn.lastTimeSeen
      omega)
    rcases hout with hout | hout <;> simp [hout] at hkept

/-- On a clock that never goes back the times are right in every state reached exactly where
no announcement that is added is ahead of the clock. -/
theorem last_seen_timely_iff (es : List Event) (hclock : Clocked es) :
    Throughout (handle env keyId) (fun pre _ => Timely env keyId pre) es start ↔
      Each (NotAhead env keyId) es := by
  constructor
  · intro h pre e hpre m hadm
    have hseen := (h (pre++[e]) hpre).seen (m.entry env e.view)
      (by rw [run_concat]; exact admitted_mem env keyId hadm) e.view.adjustedTime (by
        intro e' he'
        rcases List.mem_append.mp he' with he' | he'
        · exact (List.pairwise_append.mp (hclock.forward.sublist hpre.sublist)).2.2 e' he' e (by simp)
        · rw [List.mem_singleton.mp he'])
    change (if m.lastUpdated = 0 then e.view.adjustedTime else m.lastUpdated) ≤ _ at hseen
    have hpos := hclock.nonneg e (hpre.subset (by simp))
    split_ifs at hseen with hz
    · omega
    · exact hseen
  · intro h pre hpre
    apply timely_of_vouched
    apply vouched_run env keyId (fun e he => hclock.nonneg e (hpre.subset he))
    exact fun q e hq => h q e (hq.trans hpre)

end Runs

section Sample

def aheadDsee : Dsee := { sampleDsee 0 with lastUpdated := 101000 }

def viewAt (adjustedTime : ℤ) : View := { sampleView with adjustedTime := adjustedTime }

/-- An entry is added, pinged, checked and, long after its last ping, removed. -/
def servedRun : List Event :=
  [⟨viewAt 1000,.dsee 69110 (sampleDsee 0)⟩,
    ⟨viewAt 4000,.dseep ⟨(sampleDsee 0).vin,[],4000,false⟩⟩,
    ⟨viewAt 4100,.check fun _ => true⟩,⟨viewAt 2700000,.removal⟩]

theorem served_not_ahead : Each (NotAhead sampleEnv (fun _ => 0)) servedRun := by
  rintro pre e hpre m ⟨nVersion,he,_⟩
  have hmem : e ∈ servedRun := hpre.subset (by simp)
  simp only [servedRun, List.mem_cons, List.not_mem_nil, or_false] at hmem
  rcases hmem with rfl | rfl | rfl | rfl
  · cases he
    exact le_refl _
  · cases he
  · cases he
  · cases he

theorem last_seen_timely_sample :
    Throughout (handle sampleEnv (fun _ => 0)) (fun pre _ => Timely sampleEnv (fun _ => 0) pre)
      servedRun start ∧
    ((run sampleEnv (fun _ => 0) (servedRun.take 1)).vecMasternodes.map CMasterNode.lastTimeSeen,
      (run sampleEnv (fun _ => 0) (servedRun.take 3)).vecMasternodes.map CMasterNode.lastTimeSeen,
      (run sampleEnv (fun _ => 0) servedRun).vecMasternodes) = ([1000],[4000],[]) := by
  refine ⟨(last_seen_timely_iff sampleEnv (fun _ => 0) servedRun ⟨?_,?_⟩).mpr served_not_ahead,?_⟩
  · simp [servedRun, viewAt]
  · simp [servedRun, viewAt]
  · decide +kernel

/-- The entry is ahead of the clock as soon as it is added. -/
theorem announced_time_ahead : ¬ ∀ (env : Env) (keyId : CPubKey → Uint160) (es : List Event),
    Clocked es → Throughout (handle env keyId) (fun pre _ => Timely env keyId pre) es start := by
  intro h
  have hs := throughout_last _ (h sampleEnv (fun _ => 0)
    [⟨sampleView,.dsee 69110 aheadDsee⟩] ⟨by simp [sampleView],by simp⟩)
  have hin : (run sampleEnv (fun _ => 0) [⟨sampleView,.dsee 69110 aheadDsee⟩]).vecMasternodes.map
      CMasterNode.lastTimeSeen = [101000] := by decide +kernel
  obtain ⟨mn,hmn,htime⟩ := List.mem_map.mp (hin ▸ List.mem_singleton.mpr rfl :
    (101000:ℤ) ∈ (run sampleEnv (fun _ => 0)
      [⟨sampleView,.dsee 69110 aheadDsee⟩]).vecMasternodes.map CMasterNode.lastTimeSeen)
  have hle := hs.seen mn hmn 1000 (by simp [sampleView])
  omega

end Sample

end SwippCore.MasternodeTimes
