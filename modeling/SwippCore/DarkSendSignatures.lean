import SwippCore.DarkSendSession

/-!
# The signatures of a mixing session

What a user sends as a signature goes into the final transaction and sets an
input of an entry without a test: the test in front of it compares inputs with
their scripts, and no entry has the new script. So the session counts what it
was sent. The transaction that it assembles is good where every script that
gets as far is.
-/

set_option autoImplicit false

namespace SwippCore.DarkSendSignatures
open Histories BlockHashCache Masternode DarkSendPool DarkSendSession PoolSignatures

variable (env : Env) (txOf : Uint256 → CTransaction)

/-- The input at a position is signed for the output that it spends, under both sets of
flags; there is nothing to verify past the last one. -/
def verified (tx : CTransaction) (n : ℕ) : Bool :=
  match tx.vin[n]? with
  | none => true
  | some i => env.verifySignature (txOf i.prevout.hash) tx n standardScriptVerifyFlags &&
      env.verifySignature (txOf i.prevout.hash) tx n mandatoryScriptVerifyFlags

def AllVerified (tx : CTransaction) : Prop := ∀ n < tx.vin.length, verified env txOf tx n = true

def ItemVerifies (item : CTxIn) (tx : CTransaction) : Prop :=
  ∀ x ∈ tx.vin.zipIdx, sameInput item x.1 = true → verified env txOf (storeScript item tx) x.2 = true

def unsignedTx (tx : CTransaction) : CTransaction :=
  { tx with vin := tx.vin.map (fun i => { i with scriptSig := [] }) }

def BlanksOthers : Prop := ∀ (txPrev tx tx' : CTransaction) (n flags : ℕ),
  tx.vin[n]? = tx'.vin[n]? → unsignedTx tx = unsignedTx tx' →
    env.verifySignature txPrev tx n flags = env.verifySignature txPrev tx' n flags

def Stored (item : CTxIn) (p : CDarkSendPool) : Prop :=
  p.state = .signing ∧ alreadyExists item p = false

def ItemsVerify (V : View) : List CTxIn → CDarkSendPool → Prop
  | [], _ => True
  | item::sigs, p => (Stored item p → ItemVerifies env txOf item p.finalTransaction) ∧
      ItemsVerify V sigs (addScriptSig V item p).1

/-- The transaction passes the tests of the pool other than the signatures, and the
previous transactions that are read for it are those of their hashes. -/
def Acceptable (V : View) (tx : CTransaction) : Prop :=
  acceptsTransaction (withoutScripts env) V tx = true ∧
    ∀ o ∈ tx.prevouts, ∀ p, fetchPrev V.disk V.chain.mempool.lookup V.chain.txdb.committed.tx ∅ false
      o.hash = .ok p → p.2 = txOf o.hash

section Run
variable (timeMillis sessionID : ℤ)

/-- The scripts of a "dss" message that are stored are good, and if they complete the
signatures the transaction is acceptable but for them. -/
def SignsWell (es : List Event) (e : Event) : Prop :=
  match e.message with
  | .dss nVersion sigs =>
    isVersionCompatible nVersion (tipHeight e.view.chain) = true →
      ItemsVerify env txOf e.view sigs (run env timeMillis sessionID es) ∧
        let p := (addScriptSigs e.view sigs (run env timeMillis sessionID es)).1
        p.state = .signing ∧ signaturesComplete p = true →
          Acceptable env txOf e.view p.finalTransaction
  | _ => True

/-- An item that was added stands in the final transaction and verifies wherever it does,
and the transaction that is assembled is signed and accepted. -/
def OutputSound : Output → Prop
  | .scriptSig item tx true => (∃ i ∈ tx.vin, sameInput item i = true ∧ i.scriptSig = item.scriptSig) ∧
      ∀ x ∈ tx.vin.zipIdx, sameInput item x.1 = true → verified env txOf tx x.2 = true
  | .assembled tx accepted => AllVerified env txOf tx ∧ accepted = true
  | _ => True

def LeadsSound (es : List Event) (e : Event) : Prop :=
  ∀ o ∈ (handle env e (run env timeMillis sessionID es)).2, OutputSound env txOf o

end Run

section Scripts
variable (V : View) (item : CTxIn)

/-- The test of a signature never fails: an input of an entry that equals the new one has
its script, which is refused before. -/
theorem signature_valid_vacuous {p : CDarkSendPool} (h : alreadyExists item p = false) :
    signatureValid V item p = true := by
  have hnone : lastIndexOf item ((allInputs p).map CDarkSendEntryVin.vin) = none := by
    rw [lastIndexOf, Option.map_eq_none_iff, List.getLast?_eq_none_iff, List.filter_eq_nil_iff]
    rintro ⟨i,n⟩ hin heq
    have hi := List.mem_of_getElem? (List.mem_zipIdx_iff_getElem?.mp hin)
    rw [eq_of_beq heq] at hi
    obtain ⟨s,hs,rfl⟩ := List.mem_map.mp hi
    obtain ⟨v,hv,hsv⟩ := List.mem_flatMap.mp hs
    simp only [alreadyExists, List.any_eq_false, Bool.not_eq_true] at h
    exact absurd (h v hv s hsv) (by simp)
  unfold signatureValid
  dsimp only
  rw [hnone]

theorem add_script_eq (p : CDarkSendPool) : addScriptSig V item p =
    if p.state = .signing ∧ alreadyExists item p = false then
      match addSigs item p.entries with
      | some entries => ({ p with
          finalTransaction := storeScript item p.finalTransaction
          entries := entries },true)
      | none => ({ p with finalTransaction := storeScript item p.finalTransaction },false)
    else (p,false) := by
  unfold addScriptSig
  cases ha : alreadyExists item p with
  | true => simp
  | false =>
    rw [signature_valid_vacuous V item ha]
    cases hs : addSigs item p.entries <;> simp [hs]

end Scripts

def key (i : CTxIn) : COutPoint × ℕ := (i.prevout,i.nSequence)

/-- While the signatures come in, the final transaction has the inputs of the entries, and
those whose signature is set are good. -/
structure Inv (p : CDarkSendPool) : Prop where
  mine : p.myEntries = []
  filled : ∀ e ∈ p.entries, e.sev ≠ []
  unsigned : p.state ≠ .signing → p.state ≠ .transmission → ∀ s ∈ allInputs p, s.isSigSet = false
  pending : p.state = .finalizeTransaction → p.entries ≠ []
  keys : p.state = .signing →
    p.finalTransaction.vin.map key = (allInputs p).map (fun s => key s.vin)
  good : p.state = .signing → ∀ s ∈ allInputs p, s.isSigSet = true →
    ∀ (n : ℕ) i, p.finalTransaction.vin[n]? = some i → key s.vin = key i →
      verified env txOf p.finalTransaction n = true

def Ready (p : CDarkSendPool) : Prop := p.state = .signing ∧ signaturesComplete p = true

section Pool
variable (V : View)

theorem same_input_iff (item i : CTxIn) : sameInput item i = true ↔ key item = key i := by
  simp only [sameInput, key, Bool.and_eq_true, beq_iff_eq, Prod.mk.injEq]
  tauto

variable (p : CDarkSendPool)

theorem inv_same (q : CDarkSendPool) (hm : q.myEntries = p.myEntries) (he : q.entries = p.entries)
    (hs : q.state = p.state) (hf : q.finalTransaction = p.finalTransaction) (h : Inv env txOf p) :
    Inv env txOf q where
  mine := hm.trans h.mine
  filled := by rw [he]; exact h.filled
  unsigned := by rw [hs, allInputs, he]; exact h.unsigned
  pending := by rw [hs, he]; exact h.pending
  keys := by rw [hs, hf, allInputs, he]; exact h.keys
  good := by rw [hs, hf, allInputs, he]; exact h.good

theorem inv_before {p : CDarkSendPool} (hs : p.state = .acceptingEntries ∨ p.state = .queue)
    (hm : p.myEntries = []) (hf : ∀ e ∈ p.entries, e.sev ≠ [])
    (hu : ∀ s ∈ allInputs p, s.isSigSet = false) : Inv env txOf p where
  mine := hm
  filled := hf
  unsigned := fun _ _ => hu
  pending := fun h => by rcases hs with hs | hs <;> rw [hs] at h <;> cases h
  keys := fun h => by rcases hs with hs | hs <;> rw [hs] at h <;> cases h
  good := fun h => by rcases hs with hs | hs <;> rw [hs] at h <;> cases h

theorem set_null_inv {p : CDarkSendPool} (clearEverything : Bool) (h : p.myEntries = []) :
    Inv env txOf (setNull V p clearEverything) := by
  refine inv_before env txOf (Or.inl rfl) ?_ (by simp [setNull]) (by simp [setNull, allInputs])
  cases clearEverything with
  | true => rfl
  | false => exact h

theorem update_state_eq (newState : PoolStatus) (h : newState ≠ .error ∧ newState ≠ .success) :
    ∃ t, updateState V p newState = { p with lastTimeChanged := t, state := newState } := by
  unfold updateState
  rw [if_neg (by tauto)]
  split_ifs with hs
  · exact ⟨_,rfl⟩
  · refine ⟨p.lastTimeChanged,?_⟩
    rw [← not_not.mp hs]

theorem update_error : updateState V p .error = p := rfl

section Stored
variable (item : CTxIn) (p : CDarkSendPool)

variable (tx : CTransaction)

theorem store_get (n : ℕ) : (storeScript item tx).vin[n]? =
    (tx.vin[n]?).map (fun i =>
      if sameInput item i then { i with scriptSig := item.scriptSig } else i) := by
  rw [storeScript, List.getElem?_map]

theorem store_keys : (storeScript item tx).vin.map key = tx.vin.map key := by
  rw [storeScript, List.map_map]
  refine List.map_congr_left (fun i _ => ?_)
  rw [Function.comp_apply]
  split_ifs <;> rfl

theorem store_unsigned : unsignedTx (storeScript item tx) = unsignedTx tx := by
  unfold unsignedTx storeScript
  congr 1
  rw [List.map_map]
  refine List.map_congr_left (fun i _ => ?_)
  rw [Function.comp_apply]
  split_ifs <;> rfl

theorem store_other (hb : BlanksOthers env) {tx : CTransaction} {n : ℕ} {i : CTxIn}
    (hi : tx.vin[n]? = some i) (hk : key item ≠ key i) :
    verified env txOf (storeScript item tx) n = verified env txOf tx n := by
  have hget : (storeScript item tx).vin[n]? = tx.vin[n]? := by
    have hno : ¬ sameInput item i = true := fun h => hk ((same_input_iff item i).mp h)
    rw [store_get, hi, Option.map_some, if_neg hno]
  unfold verified
  rw [hget, hi]
  dsimp only
  rw [hb _ _ _ n _ hget (store_unsigned item tx), hb _ _ _ n _ hget (store_unsigned item tx)]

theorem add_sig_mem (ss ss' : List CDarkSendEntryVin) (h : addSig item ss = some ss')
    {s : CDarkSendEntryVin} (hs : s ∈ ss') : s ∈ ss ∨ key item = key s.vin := by
  induction ss generalizing ss' with
  | nil => cases h
  | cons t ss ih =>
    rw [addSig] at h
    split_ifs at h with hsame
    · cases h
      rcases List.mem_cons.mp hs with rfl | hs
      · exact Or.inr ((same_input_iff item t.vin).mp hsame)
      · exact Or.inl (List.mem_cons_of_mem _ hs)
    · obtain ⟨rest,hr,rfl⟩ := Option.map_eq_some_iff.mp h
      rcases List.mem_cons.mp hs with rfl | hs
      · exact Or.inl (List.mem_cons_self ..)
      · exact (ih rest hr hs).imp_left (List.mem_cons_of_mem _)

theorem add_sigs_mem (es es' : List CDarkSendEntry) (h : addSigs item es = some es')
    {s : CDarkSendEntryVin} (hs : s ∈ es'.flatMap CDarkSendEntry.sev) :
    s ∈ es.flatMap CDarkSendEntry.sev ∨ key item = key s.vin := by
  induction es generalizing es' with
  | nil => cases h
  | cons e es ih =>
    rw [addSigs] at h
    rw [List.flatMap_cons, List.mem_append]
    cases hsev : addSig item e.sev with
    | some sev =>
      rw [hsev] at h
      cases h
      rw [List.flatMap_cons, List.mem_append] at hs
      rcases hs with hs | hs
      · exact (add_sig_mem item e.sev sev hsev hs).imp_left Or.inl
      · exact Or.inl (Or.inr hs)
    | none =>
      rw [hsev] at h
      obtain ⟨rest,hr,rfl⟩ := Option.map_eq_some_iff.mp h
      rw [List.flatMap_cons, List.mem_append] at hs
      rcases hs with hs | hs
      · exact Or.inl (Or.inl hs)
      · exact (ih rest hr hs).imp_left Or.inr

theorem add_sigs_key (es es' : List CDarkSendEntry) (h : addSigs item es = some es') :
    ∃ s ∈ es.flatMap CDarkSendEntry.sev, key item = key s.vin := by
  have hslot : ∀ ss ss', addSig item ss = some ss' → ∃ s ∈ ss, key item = key s.vin := by
    intro ss
    induction ss with
    | nil => intro ss' h; cases h
    | cons t ss ih =>
      intro ss' h
      rw [addSig] at h
      split_ifs at h with hsame
      · exact ⟨t,by simp,(same_input_iff item t.vin).mp hsame⟩
      · obtain ⟨rest,hr,_⟩ := Option.map_eq_some_iff.mp h
        obtain ⟨s,hs,hk⟩ := ih rest hr
        exact ⟨s,List.mem_cons_of_mem _ hs,hk⟩
  induction es generalizing es' with
  | nil => cases h
  | cons e es ih =>
    rw [addSigs] at h
    rw [List.flatMap_cons]
    cases hsev : addSig item e.sev with
    | some sev =>
      obtain ⟨s,hs,hk⟩ := hslot _ _ hsev
      exact ⟨s,List.mem_append_left _ hs,hk⟩
    | none =>
      rw [hsev] at h
      obtain ⟨rest,hr,_⟩ := Option.map_eq_some_iff.mp h
      obtain ⟨s,hs,hk⟩ := ih rest hr
      exact ⟨s,List.mem_append_right _ hs,hk⟩

section
variable (hb : BlanksOthers env) (h : Inv env txOf p)
include hb h

theorem stored_good (hs : p.state = .signing)
    (hv : ItemVerifies env txOf item p.finalTransaction) (s : CDarkSendEntryVin)
    (hset : s ∈ allInputs p ∧ s.isSigSet = true ∨ key item = key s.vin) (n : ℕ) (i : CTxIn)
    (hi : (storeScript item p.finalTransaction).vin[n]? = some i) (hk : key s.vin = key i) :
    verified env txOf (storeScript item p.finalTransaction) n = true := by
  rw [store_get, Option.map_eq_some_iff] at hi
  obtain ⟨j,hj,rfl⟩ := hi
  have hkey : key s.vin = key j := by
    rw [hk]
    split_ifs <;> rfl
  by_cases hitem : key item = key j
  · exact hv (j,n) (List.mem_zipIdx_iff_getElem?.mpr hj) ((same_input_iff item j).mpr hitem)
  · rw [store_other env txOf item hb hj hitem]
    rcases hset with ⟨hin,hset⟩ | hset
    · exact h.good hs s hin hset n j hj hkey
    · exact absurd (hset.trans hkey) hitem

theorem add_script_inv
    (hv : Stored item p → ItemVerifies env txOf item p.finalTransaction) :
    Inv env txOf (addScriptSig V item p).1 := by
  rw [add_script_eq]
  split_ifs with hst
  · have hgood := stored_good env txOf item p hb h hst.1 (hv hst)
    cases ha : addSigs item p.entries with
    | none =>
      refine ⟨h.mine,h.filled,fun hn => absurd hst.1 hn,h.pending,fun _ => ?_,fun _ => ?_⟩
      · exact (store_keys item _).trans (h.keys hst.1)
      · exact fun s hs hset => hgood s (Or.inl ⟨hs,hset⟩)
    | some es =>
      have hk := add_sigs_map (fun s => key s.vin) (fun _ _ => rfl) _ _ ha
      refine ⟨h.mine,?_,fun hn => absurd hst.1 hn,?_,fun _ => ?_,fun _ s hs hset => ?_⟩
      · intro e he hnil
        have hmem : e.sev.map (fun s => key s.vin) ∈ es.map (fun e => e.sev.map fun s => key s.vin) :=
          List.mem_map.mpr ⟨e,he,rfl⟩
        rw [hk, hnil] at hmem
        obtain ⟨e',he',hnil'⟩ := List.mem_map.mp hmem
        exact h.filled e' he' (List.map_eq_nil_iff.mp hnil')
      · intro hf
        exact absurd (hst.1.symm.trans hf) (by decide)
      · refine (store_keys item _).trans ((h.keys hst.1).trans ?_)
        rw [allInputs, allInputs, List.map_flatMap, List.map_flatMap, List.flatMap_def,
          List.flatMap_def, hk]
      · rcases add_sigs_mem item _ _ ha hs with hold | hnew
        · exact hgood s (Or.inl ⟨hold,hset⟩)
        · exact hgood s (Or.inr hnew)
  · exact h

theorem add_script_sound
    (hv : Stored item p → ItemVerifies env txOf item p.finalTransaction) :
    OutputSound env txOf (.scriptSig item (addScriptSig V item p).1.finalTransaction
      (addScriptSig V item p).2) := by
  rw [add_script_eq]
  split_ifs with hst
  · cases ha : addSigs item p.entries with
    | none => trivial
    | some es =>
      have hgood := stored_good env txOf item p hb h hst.1 (hv hst)
      obtain ⟨s,hs,hk⟩ := add_sigs_key item _ _ ha
      refine ⟨?_,?_⟩
      · have hin : key item ∈ p.finalTransaction.vin.map key := by
          rw [h.keys hst.1, hk]
          exact List.mem_map.mpr ⟨s,hs,rfl⟩
        obtain ⟨i,hi,hki⟩ := List.mem_map.mp hin
        have hsame := (same_input_iff item i).mpr hki.symm
        refine ⟨{ i with scriptSig := item.scriptSig },List.mem_map.mpr ⟨i,hi,?_⟩,?_,rfl⟩
        · rw [if_pos hsame]
        · exact (same_input_iff item _).mpr hki.symm
      · rintro ⟨i,n⟩ hin hsame
        have hi := List.mem_zipIdx_iff_getElem?.mp hin
        exact hgood s (Or.inr hk) n i hi (hk.symm.trans ((same_input_iff item i).mp hsame))
  · trivial

end

end Stored

section Items
variable (hb : BlanksOthers env)
include hb

section
variable {sigs : List CTxIn} (p : CDarkSendPool) (h : Inv env txOf p)
  (hv : ItemsVerify env txOf V sigs p)
include h hv

theorem add_scripts_inv : Inv env txOf (addScriptSigs V sigs p).1 := by
  induction sigs generalizing p with
  | nil => exact h
  | cons item sigs ih => exact ih _ (add_script_inv env txOf V item p hb h hv.1) hv.2

theorem add_scripts_sound :
    ∀ o ∈ (addScriptSigs V sigs p).2.1, OutputSound env txOf o := by
  induction sigs generalizing p with
  | nil =>
    intro o ho
    cases ho
  | cons item sigs ih =>
    intro o ho
    rcases List.mem_cons.mp ho with rfl | ho
    · exact add_script_sound env txOf V item p hb h hv.1
    · exact ih _ (add_script_inv env txOf V item p hb h hv.1) hv.2 o ho

end

end Items

theorem add_scripts_refused (sigs : List CTxIn) (p : CDarkSendPool)
    (h : (addScriptSigs V sigs p).2.2 = false) : (addScriptSigs V sigs p).1.entries = p.entries ∧
      (addScriptSigs V sigs p).1.state = p.state := by
  induction sigs generalizing p with
  | nil => exact ⟨rfl,rfl⟩
  | cons item sigs ih =>
    rw [addScriptSigs] at h
    obtain ⟨hadded,hrest⟩ := Bool.or_eq_false_iff.mp h
    obtain ⟨he,hs⟩ := ih _ hrest
    have hstep : (addScriptSig V item p).1.entries = p.entries ∧
        (addScriptSig V item p).1.state = p.state := by
      rw [add_script_eq] at hadded ⊢
      split_ifs with hst
      · rw [if_pos hst] at hadded
        cases ha : addSigs item p.entries with
        | none => exact ⟨rfl,rfl⟩
        | some es =>
          rw [ha] at hadded
          cases hadded
      · exact ⟨rfl,rfl⟩
    exact ⟨he.trans hstep.1,hs.trans hstep.2⟩

theorem check_done_sound : ∀ o ∈ (checkDone V p).2, OutputSound env txOf o := by
  intro o ho
  unfold checkDone at ho
  split_ifs at ho
  · obtain rfl := List.mem_singleton.mp ho
    trivial
  · obtain rfl := List.mem_singleton.mp ho
    trivial
  · cases ho

section Check
variable {p : CDarkSendPool} (h : Inv env txOf p)
include h

theorem check_full_inv : Inv env txOf (checkFull V p) := by
  unfold checkFull
  split_ifs with hf
  · obtain ⟨t,ht⟩ := update_state_eq V p .finalizeTransaction (by decide)
    rw [ht]
    refine ⟨h.mine,h.filled,fun _ _ => ?_,fun _ hnil => ?_,fun hs => ?_,fun hs => ?_⟩
    · exact h.unsigned (by rw [hf.1]; decide) (by rw [hf.1]; decide)
    · have hle := hf.2
      rw [show p.entries = [] from hnil] at hle
      exact absurd hle (by decide)
    · cases hs
    · cases hs
  · exact h

theorem check_finalize_inv : Inv env txOf (checkFinalize V p).1 ∧
    (Ready (checkFinalize V p).1 → (checkFinalize V p).1 = p) := by
  unfold checkFinalize
  split_ifs with hf
  · obtain ⟨t,ht⟩ := update_state_eq V p .signing (by decide)
    have hun := h.unsigned (by rw [hf.1]; decide) (by rw [hf.1]; decide)
    have hsign : (signFinalTransaction V (mergedTransaction V (updateState V p .signing)) false
        (updateState V p .signing)).1 = { p with
          lastTimeChanged := t
          state := .signing
          finalTransaction := mergedTransaction V p } := by
      rw [ht]
      unfold signFinalTransaction
      dsimp only
      rw [hf.2.1, h.mine]
      rfl
    dsimp only
    rw [hsign]
    refine ⟨⟨h.mine,h.filled,fun hs => absurd rfl hs,fun hs => ?_,fun _ => ?_,fun _ => ?_⟩,?_⟩
    · cases hs
    · simp [mergedTransaction, allInputs, List.map_flatMap, List.map_map, Function.comp_def]
    · intro s hs hset
      rw [hun s hs] at hset
      cases hset
    · rintro ⟨_,hc⟩
      obtain ⟨e,he⟩ := List.exists_mem_of_ne_nil _ (h.pending hf.1)
      obtain ⟨s,hs⟩ := List.exists_mem_of_ne_nil _ (h.filled e he)
      have hset := List.all_eq_true.mp (List.all_eq_true.mp hc e he) s hs
      rw [hun s (List.mem_flatMap.mpr ⟨e,he,hs⟩)] at hset
      cases hset
  · exact ⟨h,fun _ => rfl⟩

theorem ready_verified (hr : Ready p) : AllVerified env txOf p.finalTransaction := by
  intro n hn
  have hi := List.getElem?_eq_getElem hn
  have hin : key p.finalTransaction.vin[n] ∈ p.finalTransaction.vin.map key :=
    List.mem_map.mpr ⟨_,List.getElem_mem hn,rfl⟩
  rw [h.keys hr.1] at hin
  obtain ⟨s,hs,hk⟩ := List.mem_map.mp hin
  obtain ⟨e,he,hse⟩ := List.mem_flatMap.mp hs
  exact h.good hr.1 s hs (List.all_eq_true.mp (List.all_eq_true.mp hr.2 e he) s hse) n _ hi hk

theorem ready_accepted (hr : Ready p) (ha : Acceptable env txOf V p.finalTransaction) :
    acceptsTransaction env V p.finalTransaction = true := by
  refine accept_signed env _ _ _ _ _ _ _ (fun n o q hn hq => ?_) ha.1
  have hmem := List.mem_of_getElem? hn
  rw [CTransaction.prevouts, List.getElem?_map, Option.map_eq_some_iff] at hn
  obtain ⟨i,hi,rfl⟩ := hn
  have hv := ready_verified env txOf h hr n (List.getElem?_eq_some_iff.mp hi).1
  rw [verified, hi] at hv
  rw [ha.2 _ hmem q hq]
  exact Bool.and_eq_true_iff.mp hv

theorem check_signed_inv : Inv env txOf (checkSigned env V p).1 ∧
    ¬ Ready (checkSigned env V p).1 := by
  obtain ⟨t,ht⟩ := update_state_eq V p .transmission (by decide)
  have htrans : Inv env txOf (updateState V p .transmission) ∧
      ¬ Ready (updateState V p .transmission) := by
    rw [ht]
    refine ⟨⟨h.mine,h.filled,fun _ hs => absurd rfl hs,?_,?_,?_⟩,?_⟩
    · exact fun hs => absurd hs (by simp)
    · exact fun hs => absurd hs (by simp)
    · exact fun hs => absurd hs (by simp)
    · exact fun hr => absurd hr.1 (by simp)
  unfold checkSigned
  dsimp only
  split_ifs with hr hacc
  · obtain ⟨t',ht'⟩ := update_state_eq V (setNull V (updateState V p .transmission) false)
      .acceptingEntries (by decide)
    refine ⟨?_,?_⟩
    · have hn := set_null_inv env txOf V false htrans.1.mine
      rw [ht']
      exact inv_same env txOf (setNull V (updateState V p .transmission) false) _ rfl rfl rfl rfl hn
    · rw [ht']
      exact fun hr => absurd hr.1 (by simp)
  · exact htrans
  · exact htrans
  · exact ⟨h,hr⟩

theorem check_signed_sound (ha : Ready p → Acceptable env txOf V p.finalTransaction) :
    ∀ o ∈ (checkSigned env V p).2.1, OutputSound env txOf o := by
  obtain ⟨t,ht⟩ := update_state_eq V p .transmission (by decide)
  have hfinal : (updateState V p .transmission).finalTransaction = p.finalTransaction := by rw [ht]
  unfold checkSigned
  dsimp only
  rw [hfinal]
  split_ifs with hr hacc
  · rw [ready_accepted env txOf V h hr (ha hr)] at hacc
    exact absurd hacc (by decide)
  · intro o ho
    obtain rfl := List.mem_singleton.mp ho
    exact ⟨ready_verified env txOf h hr,rfl⟩
  · intro o ho
    rcases List.mem_cons.mp ho with rfl | ho
    · exact ⟨ready_verified env txOf h hr,rfl⟩
    · obtain rfl := List.mem_singleton.mp ho
      trivial
  · intro o ho
    cases ho

theorem check_done_inv (hr : ¬ Ready p) : Inv env txOf (checkDone V p).1 ∧
    ¬ Ready (checkDone V p).1 := by
  have hn : Inv env txOf (setNull V p true) ∧ ¬ Ready (setNull V p true) :=
    ⟨set_null_inv env txOf V true h.mine,fun hs => by cases hs.1⟩
  unfold checkDone
  split_ifs
  · exact hn
  · exact hn
  · exact ⟨h,hr⟩

theorem check_inv : Inv env txOf (check env V p).1 ∧ ¬ Ready (check env V p).1 := by
  have hfull := check_full_inv env txOf V h
  obtain ⟨hfin,_⟩ := check_finalize_inv env txOf V hfull
  unfold check
  rcases hq : checkFinalize V (checkFull V p) with ⟨q,o1⟩
  rw [hq] at hfin
  have hsig := check_signed_inv env txOf V hfin
  rcases hs : checkSigned env V q with ⟨r,o2,b⟩
  rw [hs] at hsig
  simp only [hs]
  cases b with
  | false => exact hsig
  | true => exact check_done_inv env txOf V hsig.1 hsig.2

theorem check_sound (ha : Ready p → Acceptable env txOf V p.finalTransaction) :
    ∀ o ∈ (check env V p).2, OutputSound env txOf o := by
  have hfull := check_full_inv env txOf V h
  obtain ⟨hfin,hready⟩ := check_finalize_inv env txOf V hfull
  have hfullr : Ready (checkFull V p) → checkFull V p = p := by
    intro hr
    unfold checkFull at hr ⊢
    split_ifs at hr ⊢ with hf
    · obtain ⟨t,ht⟩ := update_state_eq V p .finalizeTransaction (by decide)
      rw [ht] at hr
      exact absurd hr.1 (by simp)
    · rfl
  have hsent : ∀ o ∈ (checkFinalize V (checkFull V p)).2, OutputSound env txOf o := by
    unfold checkFinalize
    split_ifs
    · intro o ho
      obtain rfl := List.mem_singleton.mp ho
      trivial
    · intro o ho
      cases ho
  unfold check
  rcases hq : checkFinalize V (checkFull V p) with ⟨q,o1⟩
  rw [hq] at hfin hready hsent
  have haq : Ready q → Acceptable env txOf V q.finalTransaction := by
    intro hr
    have hqf : q = checkFull V p := hready hr
    have hqp : q = p := hqf.trans (hfullr (hqf ▸ hr))
    rw [hqp] at hr ⊢
    exact ha hr
  have hsig := check_signed_sound env txOf V hfin haq
  rcases hs : checkSigned env V q with ⟨r,o2,b⟩
  rw [hs] at hsig
  simp only [hs]
  cases b with
  | false =>
    intro o ho
    exact (List.mem_append.mp ho).elim (hsent o) (hsig o)
  | true =>
    have hdone := check_done_sound env txOf V r
    intro o ho
    rcases List.mem_append.mp ho with ho | ho
    · exact (List.mem_append.mp ho).elim (hsent o) (hsig o)
    · exact hdone o ho

end Check

section Timer
variable (p : CDarkSendPool) (h : Inv env txOf p)
include h

theorem queue_ready_inv : Inv env txOf (queueReady V p) := by
  unfold queueReady
  split_ifs with hq
  · obtain ⟨t,ht⟩ := update_state_eq V p .acceptingEntries (by decide)
    have hun := h.unsigned (by rw [hq.1]; decide) (by rw [hq.1]; decide)
    rw [ht]
    exact inv_before env txOf (Or.inl rfl) h.mine h.filled hun
  · exact h

theorem drop_expired_before (hs : p.state = .acceptingEntries ∨ p.state = .queue) :
    Inv env txOf (dropExpired V p) ∧
      ((dropExpired V p).state = .acceptingEntries ∨ (dropExpired V p).state = .queue) := by
  have hun : ∀ s ∈ allInputs p, s.isSigSet = false := by
    refine h.unsigned ?_ ?_
    · rcases hs with hs | hs <;> rw [hs] <;> decide
    · rcases hs with hs | hs <;> rw [hs] <;> decide
  unfold dropExpired
  dsimp only
  split_ifs
  · exact ⟨set_null_inv env txOf V true h.mine,Or.inl rfl⟩
  · refine ⟨inv_before env txOf hs h.mine ?_ ?_,hs⟩
    · exact fun e he => h.filled e (List.mem_of_mem_eraseP he)
    · intro s hin
      obtain ⟨e,he,hse⟩ := List.mem_flatMap.mp hin
      exact hun s (List.mem_flatMap.mpr ⟨e,List.mem_of_mem_eraseP he,hse⟩)
  · exact ⟨h,hs⟩

theorem reset_inv : Inv env txOf (updateState V (setNull V p false) .error) ∧
    ¬ Ready (updateState V (setNull V p false) .error) :=
  ⟨set_null_inv env txOf V false h.mine,fun hr => absurd hr.1 (by simp [update_error, setNull])⟩

theorem signing_timeout_inv (hr : ¬ Ready p) : Inv env txOf (signingTimeout V p) ∧
    ¬ Ready (signingTimeout V p) := by
  unfold signingTimeout
  split_ifs
  · exact reset_inv env txOf V p h
  · exact ⟨h,hr⟩

theorem end_session_inv (hs : p.state = .acceptingEntries ∨ p.state = .queue) :
    Inv env txOf (endSession V p) ∧ ¬ Ready (endSession V p) := by
  have hun : ∀ s ∈ allInputs p, s.isSigSet = false := by
    refine h.unsigned ?_ ?_
    · rcases hs with hs | hs <;> rw [hs] <;> decide
    · rcases hs with hs | hs <;> rw [hs] <;> decide
  unfold endSession
  obtain ⟨t,ht⟩ := update_state_eq V { p with
    lastTimeChanged := V.timeMillis
    sessionUsers := 0
    sessionDenom := 0
    vecSessionCollateral := [] } .acceptingEntries (by decide)
  rw [ht]
  exact ⟨inv_before env txOf (Or.inl rfl) h.mine h.filled hun,
    fun hr => absurd hr.1 (by simp)⟩

theorem timeout_inv (hr : ¬ Ready p) : Inv env txOf (checkTimeout V p) ∧
    ¬ Ready (checkTimeout V p) := by
  have hq := queue_ready_inv env txOf V p h
  have hrq : ¬ Ready (queueReady V p) := by
    unfold queueReady
    split_ifs with hst
    · obtain ⟨t,ht⟩ := update_state_eq V p .acceptingEntries (by decide)
      rw [ht]
      exact fun hr => absurd hr.1 (by simp)
    · exact hr
  unfold checkTimeout sessionTimeout
  dsimp only
  split_ifs with hopen htime hlate
  · obtain ⟨hd,hst⟩ := drop_expired_before env txOf V _ hq hopen
    obtain ⟨he,hne⟩ := end_session_inv env txOf V _ hd hst
    exact signing_timeout_inv env txOf V _ he hne
  · obtain ⟨hd,hst⟩ := drop_expired_before env txOf V _ hq hopen
    refine signing_timeout_inv env txOf V _ hd (fun hr => ?_)
    rcases hst with hst | hst <;> exact absurd (hst.symm.trans hr.1) (by decide)
  · obtain ⟨he,hne⟩ := reset_inv env txOf V _ hq
    exact signing_timeout_inv env txOf V _ he hne
  · exact signing_timeout_inv env txOf V _ hq hrq

end Timer

theorem dsa_sound {p : CDarkSendPool} (nVersion nDenom : ℤ) (tx : CTransaction) :
    ∀ o ∈ (dsa env V p nVersion nDenom tx).2, OutputSound env txOf o := by
  have hquiet : ∀ o ∈ (isCompatibleWithSession env V p nDenom tx).2.1, OutputSound env txOf o := by
    unfold isCompatibleWithSession
    dsimp only
    intro o ho
    split_ifs at ho
    all_goals first
      | (obtain rfl := List.mem_singleton.mp ho; trivial)
      | (split at ho <;> cases ho)
      | cases ho
  intro o ho
  unfold dsa at ho
  split_ifs at ho
  · obtain rfl := List.mem_singleton.mp ho
    trivial
  · cases hm : (getMasternodeByVin V.vecMasternodes V.activeVin).bind
        (fun mn => V.vecMasternodes[mn]?) with
    | none =>
      rw [hm] at ho
      obtain rfl := List.mem_singleton.mp ho
      trivial
    | some mn =>
      rw [hm] at ho
      dsimp only at ho
      split_ifs at ho
      · obtain rfl := List.mem_singleton.mp ho
        trivial
      · rcases hc : isCompatibleWithSession env V p nDenom tx with ⟨q,os,r⟩
        rw [hc] at ho hquiet
        cases r with
        | none =>
          rcases List.mem_append.mp ho with ho | ho
          · exact hquiet o ho
          · obtain rfl := List.mem_singleton.mp ho
            trivial
        | some error =>
          rcases List.mem_append.mp ho with ho | ho
          · exact hquiet o ho
          · obtain rfl := List.mem_singleton.mp ho
            trivial

section Join
variable (p : CDarkSendPool) (h : Inv env txOf p) (hr : ¬ Ready p)
include h hr

theorem join_inv (nDenom : ℤ) (tx : CTransaction) :
    Inv env txOf (isCompatibleWithSession env V p nDenom tx).1 ∧
      ¬ Ready (isCompatibleWithSession env V p nDenom tx).1 := by
  have hopen : ∀ q : CDarkSendPool, q.myEntries = [] →
      Inv env txOf (openSession V q nDenom tx) ∧ ¬ Ready (openSession V q nDenom tx) := by
    intro q hq
    unfold openSession
    obtain ⟨t,ht⟩ := update_state_eq V { q with
      sessionDenom := nDenom
      sessionUsers := 1
      lastTimeChanged := V.timeMillis
      entries := [] } .queue (by decide)
    rw [ht]
    exact ⟨inv_before env txOf (Or.inr rfl) hq (by simp) (by simp [allInputs]),
      fun hr => absurd hr.1 (by simp)⟩
  unfold isCompatibleWithSession
  split_ifs with hc hneg
  · exact ⟨h,hr⟩
  · dsimp only
    rw [if_pos rfl]
    exact hopen _ h.mine
  · dsimp only
    split_ifs
    · exact hopen p h.mine
    · cases joinRefused p nDenom with
      | some error => exact ⟨h,hr⟩
      | none => exact ⟨inv_same env txOf p _ rfl rfl rfl rfl h,hr⟩

theorem dsa_inv (nVersion nDenom : ℤ) (tx : CTransaction) :
    Inv env txOf (dsa env V p nVersion nDenom tx).1 ∧ ¬ Ready (dsa env V p nVersion nDenom tx).1 := by
  have hj := join_inv env txOf V p h hr nDenom tx
  unfold dsa
  split_ifs
  · exact ⟨h,hr⟩
  · cases (getMasternodeByVin V.vecMasternodes V.activeVin).bind
        (fun mn => V.vecMasternodes[mn]?) with
    | none => exact ⟨h,hr⟩
    | some mn =>
      dsimp only
      split_ifs
      · exact ⟨h,hr⟩
      · rcases hc : isCompatibleWithSession env V p nDenom tx with ⟨q,o,r⟩
        rw [hc] at hj
        cases r with
        | none => exact hj
        | some error => exact hj

theorem dsi_inv (m : Dsi) (nVersion : ℤ) : Inv env txOf (dsi env V m p nVersion).1 ∧
    ¬ Ready (dsi env V m p nVersion).1 ∧
    ∀ o ∈ (dsi env V m p nVersion).2, OutputSound env txOf o := by
  unfold dsi
  cases hd : dsiRefused env V m p nVersion with
  | some error =>
    refine ⟨h,hr,fun o ho => ?_⟩
    obtain rfl := List.mem_singleton.mp ho
    trivial
  | none =>
    unfold addEntry
    cases he : entryRefused env V m p with
    | some error =>
      refine ⟨inv_same env txOf p _ rfl rfl rfl rfl h,hr,fun o ho => ?_⟩
      obtain rfl := List.mem_singleton.mp ho
      trivial
    | none =>
      have hst : p.state = .acceptingEntries := by
        unfold entryRefused at he
        split_ifs at he with _ _ _ _ hs
        exact not_not.mp hs
      have hun := h.unsigned (by rw [hst]; decide) (by rw [hst]; decide)
      have hq : Inv env txOf { p with entries := p.entries++[m.entry V] } := by
        refine inv_before env txOf (Or.inl hst) h.mine ?_ ?_
        · intro e he
          rcases List.mem_append.mp he with he | he
          · exact h.filled e he
          · obtain rfl := List.mem_singleton.mp he
            simpa [Dsi.entry] using (dsi_inputs env V m p hd).1
        · intro s hs
          rw [allInputs, List.flatMap_append, List.mem_append] at hs
          rcases hs with hs | hs
          · exact hun s hs
          · simp [Dsi.entry] at hs
            obtain ⟨i,_,rfl⟩ := hs
            rfl
      have hnot : ¬ Ready { p with entries := p.entries++[m.entry V] } :=
        fun hrd => absurd (hst.symm.trans hrd.1) (by decide)
      obtain ⟨hi,hn⟩ := check_inv env txOf V hq
      refine ⟨hi,hn,fun o ho => ?_⟩
      rcases List.mem_cons.mp ho with rfl | ho
      · trivial
      · rcases List.mem_append.mp ho with ho | ho
        · exact check_sound env txOf V hq (fun hrd => absurd hrd hnot) o ho
        · obtain rfl := List.mem_singleton.mp ho
          trivial

end Join
end Pool

section Run
variable (timeMillis sessionID : ℤ) (hb : BlanksOthers env)
include hb

theorem dss_inv {V : View} {nVersion : ℤ} {sigs : List CTxIn} {p : CDarkSendPool}
    (h : Inv env txOf p) (hr : ¬ Ready p)
    (hc : isVersionCompatible nVersion (tipHeight V.chain) = true → ItemsVerify env txOf V sigs p ∧
      (Ready (addScriptSigs V sigs p).1 →
        Acceptable env txOf V (addScriptSigs V sigs p).1.finalTransaction)) :
    Inv env txOf (dss env V nVersion sigs p).1 ∧ ¬ Ready (dss env V nVersion sigs p).1 ∧
      ∀ o ∈ (dss env V nVersion sigs p).2, OutputSound env txOf o := by
  unfold dss
  split_ifs with hv
  · refine ⟨h,hr,fun o ho => ?_⟩
    cases ho
  · obtain ⟨hitems,hacc⟩ := hc (by simpa using hv)
    have hi := add_scripts_inv env txOf V hb p h hitems
    have ho := add_scripts_sound env txOf V hb p h hitems
    have hsame := add_scripts_refused V sigs p
    rcases ha : addScriptSigs V sigs p with ⟨q,os,b⟩
    rw [ha] at hi ho hacc hsame
    cases b with
    | false =>
      obtain ⟨he,hs⟩ := hsame rfl
      refine ⟨hi,fun hq => hr ⟨hs ▸ hq.1,?_⟩,ho⟩
      rw [signaturesComplete, ← he]
      exact hq.2
    | true =>
      obtain ⟨hq,hn⟩ := check_inv env txOf V hi
      refine ⟨hq,hn,fun o hin => ?_⟩
      rcases List.mem_append.mp hin with hin | hin
      · rcases List.mem_append.mp hin with hin | hin
        · exact ho o hin
        · exact check_sound env txOf V hi hacc o hin
      · obtain rfl := List.mem_singleton.mp hin
        trivial

theorem handle_sound {es : List Event} {e : Event}
    (h : Inv env txOf (run env timeMillis sessionID es))
    (hr : ¬ Ready (run env timeMillis sessionID es))
    (hc : SignsWell env txOf timeMillis sessionID es e) :
    (Inv env txOf (run env timeMillis sessionID (es++[e])) ∧
      ¬ Ready (run env timeMillis sessionID (es++[e]))) ∧
    ∀ o ∈ (handle env e (run env timeMillis sessionID es)).2, OutputSound env txOf o := by
  have hrun : run env timeMillis sessionID (es++[e]) =
      (handle env e (run env timeMillis sessionID es)).1 :=
    deliver_concat (DarkSendPool.step env) es e (start timeMillis sessionID)
  rw [hrun]
  obtain ⟨V,message⟩ := e
  unfold handle
  cases message with
  | dsa nVersion nDenom txCollateral =>
    exact ⟨dsa_inv env txOf V _ h hr nVersion nDenom txCollateral,
      dsa_sound env txOf V nVersion nDenom txCollateral⟩
  | dsi nVersion m =>
    obtain ⟨hi,hn,ho⟩ := dsi_inv env txOf V _ h hr m nVersion
    exact ⟨⟨hi,hn⟩,ho⟩
  | dss nVersion sigs =>
    obtain ⟨hi,hn,ho⟩ := dss_inv env txOf hb h hr hc
    exact ⟨⟨hi,hn⟩,ho⟩
  | check => exact ⟨check_inv env txOf V h,check_sound env txOf V h (fun hrd => absurd hrd hr)⟩
  | timeout =>
    refine ⟨timeout_inv env txOf V _ h hr,fun o ho => ?_⟩
    cases ho

theorem run_inv (es : List Event) (h : Each (SignsWell env txOf timeMillis sessionID) es) :
    Inv env txOf (run env timeMillis sessionID es) ∧ ¬ Ready (run env timeMillis sessionID es) := by
  induction es using List.reverseRecOn with
  | nil =>
    refine ⟨inv_before env txOf (Or.inl rfl) rfl ?_ ?_,fun hr => absurd hr.1 ?_⟩
    · intro e he
      cases he
    · intro s hs
      cases hs
    · simp [run, deliver, start]
  | append_singleton es e ih =>
    obtain ⟨hes,he⟩ := (each_concat _ es e).mp h
    obtain ⟨hi,hr⟩ := ih hes
    exact (handle_sound env txOf timeMillis sessionID hb hi hr he).1

/-- In a run whose stored scripts are good and whose completed transaction is acceptable
but for them, an item is added only with a script that verifies in the final transaction,
and the transaction that is assembled is signed in every input and accepted. -/
theorem signatures_sound (es : List Event) (h : Each (SignsWell env txOf timeMillis sessionID) es) :
    Each (LeadsSound env txOf timeMillis sessionID) es := by
  intro pre e hpre
  have hall : Each (SignsWell env txOf timeMillis sessionID) (pre++[e]) :=
    fun before m hm => h before m (hm.trans hpre)
  obtain ⟨hes,he⟩ := (each_concat _ pre e).mp hall
  obtain ⟨hi,hr⟩ := run_inv env txOf timeMillis sessionID hb pre hes
  exact (handle_sound env txOf timeMillis sessionID hb hi hr he).2

end Run

section Sample

def signingEnv : Env where
  __ := sampleEnv
  verifySignature _ tx n _ := ((tx.vin[n]?).map (fun i => i.scriptSig.head?)) == some (some 1)

def samplePrevious : CTransaction :=
  ⟨1,9,[⟨⟨8,0⟩,[],0⟩],[⟨20000*coin,[1]⟩,⟨5000*coin,[1]⟩,⟨5000*coin,[1]⟩,⟨5000*coin,[1]⟩],0⟩

def sampleView : View where
  __ := DarkSendSession.sampleView
  chain :=
    let tx h := if h = 9 then some (CTxIndex.fresh (.onDisk 1 1 80) 4) else none
    { MasternodeEvidence.sampleChain with txdb := ⟨{ Store.empty with tx := tx },none⟩ }
  disk := ⟨fun _ => some samplePrevious,fun _ _ => none,fun _ _ => none⟩

def sampleJoin : Event := ⟨sampleView,.dsa 69110 1 sampleCollateral⟩

def sampleEntry (n : ℕ) : Event := ⟨sampleView,.dsi 69110
  ⟨[⟨⟨9,n⟩,[],uintMax⟩],5000*coin,sampleCollateral,[⟨5000*coin-coin,List.replicate 25 0⟩]⟩⟩

def sampleItem (n : ℕ) (scriptSig : CScript) : CTxIn := ⟨⟨9,n⟩,scriptSig,uintMax⟩

def sampleMixing : List Event :=
  [sampleJoin,sampleJoin,sampleJoin,⟨sampleView,.timeout⟩,sampleEntry 1,sampleEntry 2,sampleEntry 3]

def sampleSigs (first : UInt8) : Event := ⟨sampleView,.dss 69110
  [sampleItem 1 [first,1],sampleItem 2 [first,2],sampleItem 3 [first,3]]⟩

theorem signing_blanks : BlanksOthers signingEnv := by
  intro txPrev tx tx' n flags hget _
  change (((tx.vin[n]?).map _) == _) = (((tx'.vin[n]?).map _) == _)
  rw [hget]

theorem sample_reads {hash : Uint256} {p : CTxIndex × CTransaction}
    (h : fetchPrev sampleView.disk sampleView.chain.mempool.lookup
      sampleView.chain.txdb.committed.tx ∅ false hash = .ok p) : p.2 = samplePrevious := by
  unfold fetchPrev at h
  cases hi : (if false then (∅ : TxIndexMap).lookup hash else none).or
      (sampleView.chain.txdb.committed.tx hash) with
  | none =>
    rw [hi] at h
    cases h
  | some txindex =>
    simp only [hi, readPrev] at h
    split_ifs at h
    · cases h
    · cases h
      rfl

theorem sample_signs_well :
    Each (SignsWell signingEnv (fun _ => samplePrevious) 0 5) (sampleMixing++[sampleSigs 1]) := by
  refine (each_concat _ _ _).mpr ⟨fun pre e hpre => ?_,fun _ => ⟨?_,fun _ => ⟨?_,?_⟩⟩⟩
  · have hin : e ∈ sampleMixing := hpre.subset (by simp)
    simp only [sampleMixing, List.mem_cons, List.not_mem_nil, or_false] at hin
    rcases hin with rfl | rfl | rfl | rfl | rfl | rfl | rfl <;> trivial
  · unfold ItemsVerify ItemsVerify ItemsVerify ItemsVerify Stored ItemVerifies
    decide +kernel
  · decide +kernel
  · exact fun o _ p hp => sample_reads hp

theorem sample_session_sound :
    Each (LeadsSound signingEnv (fun _ => samplePrevious) 0 5) (sampleMixing++[sampleSigs 1]) :=
  signatures_sound signingEnv (fun _ => samplePrevious) 0 5 signing_blanks _ sample_signs_well

/-- Three bad signatures are counted as complete, and the transaction is refused. -/
theorem bad_signature_counts : ¬ ∀ (env : Env) (txOf : Uint256 → CTransaction)
    (timeMillis sessionID : ℤ) (es : List Event), BlanksOthers env →
      Each (LeadsSound env txOf timeMillis sessionID) es := by
  intro h
  have hs := h signingEnv (fun _ => samplePrevious) 0 5 (sampleMixing++[sampleSigs 9])
    signing_blanks sampleMixing (sampleSigs 9) (List.prefix_refl _)
  have hbad : ∃ o ∈ (handle signingEnv (sampleSigs 9) (run signingEnv 0 5 sampleMixing)).2,
      ∃ tx, o = .assembled tx false := by
    have hany : (handle signingEnv (sampleSigs 9) (run signingEnv 0 5 sampleMixing)).2.any
        (fun o => match o with
          | .assembled _ accepted => !accepted
          | _ => false) = true := by decide +kernel
    obtain ⟨o,ho,hb⟩ := List.any_eq_true.mp hany
    refine ⟨o,ho,?_⟩
    cases o with
    | assembled tx accepted =>
      cases accepted with
      | true => cases hb
      | false => exact ⟨tx,rfl⟩
    | dssu => cases hb
    | queue => cases hb
    | finalTransaction => cases hb
    | scriptSig => cases hb
    | completed => cases hb
  obtain ⟨o,ho,tx,rfl⟩ := hbad
  exact absurd (hs _ ho).2 (by decide)

end Sample
end SwippCore.DarkSendSignatures
