import SwippCore.DarkSendSession

/-!
# Signing for a payment

A client signs its inputs in the transaction that a masternode sends. Before it
signs it counts, for the entry whose input it has found, the pairs of an output
of the transaction and an equal output of the entry. The number of pairs is a
sum over the outputs of the entry, so that one payment may stand for another.
-/

set_option autoImplicit false

namespace SwippCore.DarkSendPayout
open DarkSendPool

theorem map_sum_sub {α : Type} (f g : α → ℤ) (ys : List α) :
    (ys.map (fun y => f y-g y)).sum = (ys.map f).sum-(ys.map g).sum := by
  induction ys with
  | nil => rfl
  | cons y ys ih =>
    rw [List.map_cons, List.map_cons, List.map_cons, List.sum_cons, List.sum_cons, List.sum_cons, ih]
    omega

section Pairs
variable {α : Type} [DecidableEq α] (f : α → ℤ)

theorem filter_sum (x : α) (ys : List α) : ((ys.filter (fun y => x == y)).map f).sum =
    (ys.map (fun y => if x = y then f y else 0)).sum := by
  induction ys with
  | nil => rfl
  | cons y ys ih =>
    by_cases h : x = y
    · subst h
      rw [List.filter_cons, if_pos (beq_self_eq_true x), List.map_cons, List.map_cons,
        List.sum_cons, List.sum_cons, ih, if_pos rfl]
    · simp [h, ih]

theorem pairs_sum (xs ys : List α) :
    ((xs.flatMap (fun x => ys.filter (fun y => x == y))).map f).sum =
      (ys.map (fun y => (xs.count y : ℤ)*f y)).sum := by
  induction xs with
  | nil => simp
  | cons x xs ih =>
    rw [List.flatMap_cons, List.map_append, List.sum_append, ih, filter_sum, ← List.sum_map_add]
    congr 1
    refine List.map_congr_left (fun y _ => ?_)
    rw [List.count_cons]
    by_cases h : x = y
    · simp [h]
      ring
    · simp [h]

end Pairs

variable (V : View) (tx : CTransaction)

structure Paid (es : List CDarkSendEntry) : Prop where
  outputs : (es.flatMap CDarkSendEntry.vout).Subperm tx.vout
  inputs : ∀ e ∈ es, ∀ s ∈ e.sev, s.vin.prevout ∈ tx.prevouts
  total : ((es.flatMap CDarkSendEntry.vout).map CTxOut.nValue).sum ≤ (tx.vout.map CTxOut.nValue).sum

def present (e : CDarkSendEntry) : Bool := e.sev.any (fun s => s.vin ∈ tx.vin)

def surplus (e : CDarkSendEntry) : ℤ := (e.vout.map (fun o => (tx.vout.count o : ℤ)-1)).sum

def surplusValue (e : CDarkSendEntry) : ℤ :=
  (e.vout.map (fun o => ((tx.vout.count o : ℤ)-1)*o.nValue)).sum

/-- A transaction is signed already, or none of the own inputs is in this one, or the
first entry with an input in it finds too few equal outputs or another value. -/
def Stops (p : CDarkSendPool) : Prop :=
  p.finalTransaction.vin ≠ [] ∨ ∀ e, p.myEntries.find? (present tx) = some e →
    surplus tx e < 0 ∨ surplusValue tx e ≠ 0

/-- Every output of the entries comes as often in the transaction, every outpoint is spent,
and the value is there. -/
def Covers (es : List CDarkSendEntry) : Prop :=
  (∀ o ∈ es.flatMap CDarkSendEntry.vout,
      (es.flatMap CDarkSendEntry.vout).count o ≤ tx.vout.count o) ∧
    (∀ e ∈ es, ∀ s ∈ e.sev, s.vin.prevout ∈ tx.prevouts) ∧
    ((es.flatMap CDarkSendEntry.vout).map CTxOut.nValue).sum ≤ (tx.vout.map CTxOut.nValue).sum

theorem paid_iff_covers (es : List CDarkSendEntry) : Paid tx es ↔ Covers tx es := by
  constructor
  · intro h
    exact ⟨fun o _ => h.outputs.count_le o,h.inputs,h.total⟩
  · rintro ⟨ho,hi,ht⟩
    exact ⟨List.subperm_ext_iff.mpr ho,hi,ht⟩

theorem entry_paid_iff (e : CDarkSendEntry) :
    entryPaid tx e = true ↔ 0 ≤ surplus tx e ∧ surplusValue tx e = 0 := by
  have hnum := pairs_sum (fun _ => (1 : ℤ)) tx.vout e.vout
  have hval := pairs_sum CTxOut.nValue tx.vout e.vout
  have hs : surplus tx e = ((matched tx e).length : ℤ)-e.vout.length := by
    rw [surplus, map_sum_sub]
    simp only [mul_one] at hnum
    rw [← hnum]
    simp [matched]
  have hv : surplusValue tx e =
      ((matched tx e).map CTxOut.nValue).sum-(e.vout.map CTxOut.nValue).sum := by
    rw [matched, hval, ← map_sum_sub, surplusValue]
    simp only [sub_mul, one_mul]
  rw [entryPaid, Bool.and_eq_true, decide_eq_true_iff, beq_iff_eq, hs, hv]
  omega

section Inputs
variable (e : CDarkSendEntry)

theorem last_index_none (vin : CTxIn) (vins : List CTxIn) :
    lastIndexOf vin vins = none ↔ vin ∉ vins := by
  rw [lastIndexOf, Option.map_eq_none_iff, List.getLast?_eq_none_iff, List.filter_eq_nil_iff]
  constructor
  · intro h hin
    obtain ⟨n,hn,hv⟩ := List.mem_iff_getElem.mp hin
    refine h (vin,n) (List.mem_zipIdx_iff_getElem?.mpr ?_) (beq_self_eq_true vin)
    rw [List.getElem?_eq_getElem hn, hv]
  · rintro h ⟨i,n⟩ hin heq
    have hn := List.mem_zipIdx_iff_getElem?.mp hin
    rw [eq_of_beq heq] at hn
    exact h (List.mem_of_getElem? hn)

theorem sign_inputs_grows (ss : List CDarkSendEntryVin) (r : Signing) :
    r.signed <+: (signInputs V e ss r).1.signed := by
  induction ss generalizing r with
  | nil => exact List.prefix_refl _
  | cons s ss ih =>
    rw [signInputs]
    cases lastIndexOf s.vin r.tx.vin with
    | none => exact ih r
    | some mine =>
      dsimp only
      split_ifs
      · exact List.prefix_refl _
      · refine List.IsPrefix.trans ?_ (ih _)
        exact List.prefix_append _ _

theorem sign_entries_grows (es : List CDarkSendEntry) (r : Signing) :
    r.signed <+: (signEntries V es r).1.signed := by
  induction es generalizing r with
  | nil => exact List.prefix_refl _
  | cons e es ih =>
    have h := sign_inputs_grows V e e.sev r
    rw [signEntries]
    rcases hs : signInputs V e e.sev r with ⟨q,b⟩
    rw [hs] at h
    cases b with
    | false => exact h
    | true => exact h.trans (ih q)

def Quiet (r : Signing) : Prop := r.signed = [] → r.sigs = []

theorem sign_inputs_quiet (ss : List CDarkSendEntryVin) (r : Signing) (h : Quiet r) :
    Quiet (signInputs V e ss r).1 := by
  induction ss generalizing r with
  | nil => exact h
  | cons s ss ih =>
    rw [signInputs]
    cases lastIndexOf s.vin r.tx.vin with
    | none => exact ih r h
    | some mine =>
      dsimp only
      split_ifs
      · exact h
      · refine ih _ (fun hs => ?_)
        simp at hs

theorem sign_entries_quiet (es : List CDarkSendEntry) (r : Signing) (h : Quiet r) :
    Quiet (signEntries V es r).1 := by
  induction es generalizing r with
  | nil => exact h
  | cons e es ih =>
    have hq := sign_inputs_quiet V e e.sev r h
    rw [signEntries]
    rcases hs : signInputs V e e.sev r with ⟨q,b⟩
    rw [hs] at hq
    cases b with
    | false => exact hq
    | true => exact ih q hq

theorem sign_inputs_absent {ss : List CDarkSendEntryVin} {r : Signing}
    (h : ∀ s ∈ ss, s.vin ∉ r.tx.vin) : signInputs V e ss r = (r,true) := by
  induction ss with
  | nil => rfl
  | cons s ss ih =>
    rw [signInputs, (last_index_none _ _).mpr (h s (by simp))]
    exact ih (fun t ht => h t (by simp [ht]))

theorem sign_inputs_found {ss : List CDarkSendEntryVin} {r : Signing}
    (h : ∃ s ∈ ss, s.vin ∈ r.tx.vin) :
    (entryPaid r.tx e = false → signInputs V e ss r = (r,false)) ∧
      (entryPaid r.tx e = true → r.signed.length < (signInputs V e ss r).1.signed.length) := by
  induction ss with
  | nil => exact absurd h (by simp)
  | cons s ss ih =>
    rw [signInputs]
    cases hmine : lastIndexOf s.vin r.tx.vin with
    | none =>
      have hno := (last_index_none _ _).mp hmine
      refine ih ?_
      obtain ⟨t,ht,hin⟩ := h
      rcases List.mem_cons.mp ht with rfl | ht
      · exact absurd hin hno
      · exact ⟨t,ht,hin⟩
    | some mine =>
      dsimp only
      refine ⟨fun hf => ?_,fun ht => ?_⟩
      · rw [hf]
        rfl
      · have hgrow := (sign_inputs_grows V e ss ⟨setScriptSig r.tx mine
          (V.signSignature s.prevPubKey r.tx mine),r.signed++[mine],
          r.sigs++((setScriptSig r.tx mine (V.signSignature s.prevPubKey r.tx mine)).vin[mine]?).toList⟩).length_le
        rw [ht, if_neg (by decide)]
        rw [List.length_append, List.length_singleton] at hgrow
        omega

end Inputs

/-- Nothing is signed exactly when no entry is in the transaction or the first one that is
fails its test. -/
theorem sign_entries_idle (es : List CDarkSendEntry) (r : Signing) (hr : r.signed = []) :
    (signEntries V es r).1.signed = [] ↔
      ∀ e, es.find? (present r.tx) = some e → entryPaid r.tx e = false := by
  induction es with
  | nil => simp [signEntries, hr]
  | cons e es ih =>
    rw [signEntries, List.find?_cons]
    by_cases hp : present r.tx e = true
    · have hex : ∃ s ∈ e.sev, s.vin ∈ r.tx.vin := by simpa [present] using hp
      obtain ⟨hrefuse,hsign⟩ := sign_inputs_found V e hex
      rw [hp]
      cases hpaid : entryPaid r.tx e with
      | false =>
        rw [hrefuse hpaid]
        exact ⟨fun _ e' he => by cases he; exact hpaid,fun _ => hr⟩
      | true =>
        have hlt := hsign hpaid
        have hne : (signEntries V (e::es) r).1.signed ≠ [] := by
          intro hnil
          have hgrow : (signInputs V e e.sev r).1.signed <+: (signEntries V (e::es) r).1.signed := by
            rw [signEntries]
            rcases hs : signInputs V e e.sev r with ⟨q,b⟩
            cases b with
            | false => exact List.prefix_refl _
            | true => exact sign_entries_grows V es q
          have hle := hgrow.length_le
          rw [hnil, List.length_nil] at hle
          omega
        rw [signEntries] at hne
        refine ⟨fun h => absurd h hne,fun h => ?_⟩
        exact absurd (h e rfl) (by simp [hpaid])
    · have hno : ∀ s ∈ e.sev, s.vin ∉ r.tx.vin := by simpa [present] using hp
      rw [sign_inputs_absent V e hno, Bool.not_eq_true] at *
      rw [hp]
      exact ih

def Signs (p : CDarkSendPool) (node : Bool) : Prop :=
  (signFinalTransaction V tx node p).2.1 ≠ [] ∨ (signFinalTransaction V tx node p).2.2 ≠ []

theorem signs_iff (p : CDarkSendPool) (node : Bool) : Signs V tx p node ↔ ¬ Stops tx p := by
  unfold Signs Stops signFinalTransaction
  by_cases hv : p.finalTransaction.vin = []
  · have hidle := sign_entries_idle V p.myEntries ⟨tx,[],[]⟩ rfl
    have hquiet := sign_entries_quiet V p.myEntries ⟨tx,[],[]⟩ (fun _ => rfl)
    have htest : (∀ e, p.myEntries.find? (present tx) = some e →
        surplus tx e < 0 ∨ surplusValue tx e ≠ 0) ↔
        (signEntries V p.myEntries ⟨tx,[],[]⟩).1.signed = [] := by
      rw [hidle]
      refine forall_congr' (fun e => imp_congr_right (fun _ => ?_))
      rw [← Bool.not_eq_true, entry_paid_iff]
      dsimp only
      omega
    rw [htest]
    simp only [hv, List.isEmpty_nil, Bool.not_true, Bool.false_eq_true, if_false, ne_eq,
      not_true_eq_false, false_or]
    rcases hs : signEntries V p.myEntries ⟨tx,[],[]⟩ with ⟨r,b⟩
    rw [hs] at hquiet
    cases b with
    | false => simp
    | true =>
      dsimp only
      refine ⟨fun h hnil => ?_,fun h => Or.inl h⟩
      have hsigs : r.sigs = [] := hquiet hnil
      rw [hsigs, ite_self] at h
      exact h.elim (fun k => k hnil) (fun k => k rfl)
  · simp [hv]

/-- A client signs only for full payment exactly when its test stops it or the counts of
the outputs, the outpoints and the value are right by themselves. -/
theorem signed_paid_iff (p : CDarkSendPool) (node : Bool) :
    (Signs V tx p node → Paid tx p.myEntries) ↔ Stops tx p ∨ Covers tx p.myEntries := by
  rw [signs_iff, paid_iff_covers]
  tauto

/-- One of two equal outputs is paid, and counted twice. -/
theorem one_output_for_two : ¬ ∀ (V : View) (tx : CTransaction) (p : CDarkSendPool) (node : Bool),
    Signs V tx p node → Paid tx p.myEntries := by
  intro h
  let vin : CTxIn := ⟨⟨9,0⟩,[],uintMax⟩
  let out : CTxOut := ⟨100*coin+100000,[1]⟩
  let p : CDarkSendPool := { start 0 5 with
    myEntries := [⟨[⟨false,vin,[1]⟩],200*coin+200000,⟨1,0,[],[],0⟩,[out,out],0⟩] }
  have hsigns : Signs DarkSendSession.sampleView ⟨1,10,[vin],[out],0⟩ p true := by
    unfold Signs
    decide +kernel
  have hsub := (h DarkSendSession.sampleView ⟨1,10,[vin],[out],0⟩ p true hsigns).outputs
  exact absurd hsub.length_le (by decide)

end SwippCore.DarkSendPayout
