import SwippCore.Serialize
import SwippCore.Script

/-!
# SignatureHash

A signature is made over a copy of the transaction from which the hash type
removes some parts, and over the hash type itself. What is written to the hash
function is the same for two transactions exactly when they agree on the parts
that are kept.
-/

set_option autoImplicit false

namespace SwippCore
open PrefixCode

/-- `CTxOut::SetNull` -/
def CTxOut.null : CTxOut := ⟨-1,[]⟩

namespace SignatureHash

/-- `nHashType & 0x1f`; the hash type is an `int`. -/
def mode (nHashType : BitVec 32) : ℕ := (nHashType &&& 0x1f).toNat

def anyoneCanPay (nHashType : BitVec 32) : Bool := nHashType &&& BitVec.ofNat 32 sigHashAnyoneCanPay != 0

def blankScripts (scriptCode : CScript) (nIn : ℕ) (vin : List CTxIn) : List CTxIn :=
  (vin.map fun i => { i with scriptSig := [] }).modify nIn fun i => { i with scriptSig := scriptCode }

def letUpdate (nIn : ℕ) (vin : List CTxIn) : List CTxIn :=
  vin.mapIdx fun n i => if n ≠ nIn then { i with nSequence := 0 } else i

def blankOutputs (nOut : ℕ) (vout : List CTxOut) : List CTxOut :=
  (vout.take (nOut+1)).mapIdx fun n o => if n < nOut then .null else o

/-- `vin[0] = vin[nIn]` and `vin.resize(1)`. -/
def keepInput (nIn : ℕ) (nHashType : BitVec 32) (tx : CTransaction) : CTransaction :=
  if anyoneCanPay nHashType then
    match tx.vin[nIn]? with
    | none => tx
    | some i => { tx with vin := (tx.vin.set 0 i).take 1 }
  else tx

/-- The copy `txTmp` of `SignatureHash`; none where it returns one. -/
def txTmp (scriptCode : CScript) (txTo : CTransaction) (nIn : ℕ) (nHashType : BitVec 32) :
    Option CTransaction :=
  if txTo.vin.length ≤ nIn then none
  else
    let vin := blankScripts (scriptCode.findAndDelete (CScript.ofOps [.opCodeSeparator])).1 nIn txTo.vin
    if mode nHashType = sigHashNone then
      some (keepInput nIn nHashType { txTo with vin := letUpdate nIn vin, vout := [] })
    else if mode nHashType = sigHashSingle then
      if txTo.vout.length ≤ nIn then none
      else some (keepInput nIn nHashType
        { txTo with vin := letUpdate nIn vin, vout := blankOutputs nIn txTo.vout })
    else some (keepInput nIn nHashType { txTo with vin := vin })

def preimage (scriptCode : CScript) (txTo : CTransaction) (nIn : ℕ) (nHashType : BitVec 32) :
    Option (List UInt8) :=
  (txTmp scriptCode txTo nIn nHashType).map fun tx => tx.serialize++word 4 nHashType.toNat

end SignatureHash

/-- `SignatureHash` under a hash function. -/
def signatureHash (hash : List UInt8 → Uint256) (scriptCode : CScript) (txTo : CTransaction)
    (nIn : ℕ) (nHashType : BitVec 32) : Uint256 :=
  match SignatureHash.preimage scriptCode txTo nIn nHashType with
  | none => 1
  | some bytes => hash bytes

namespace SignatureHash

def CoversAll (nHashType : BitVec 32) : Prop :=
  mode nHashType ≠ sigHashNone ∧ mode nHashType ≠ sigHashSingle

instance (nHashType : BitVec 32) : Decidable (CoversAll nHashType) :=
  inferInstanceAs (Decidable (_ ∧ _))

structure SameCovered (nHashType : BitVec 32) (nIn : ℕ) (tx tx' : CTransaction) : Prop where
  nVersion : tx.nVersion = tx'.nVersion
  nTime : tx.nTime = tx'.nTime
  nLockTime : tx.nLockTime = tx'.nLockTime
  own : tx.vin[nIn]?.map (fun i => (i.prevout,i.nSequence)) =
    tx'.vin[nIn]?.map (fun i => (i.prevout,i.nSequence))
  prevouts : anyoneCanPay nHashType = false → tx.prevouts = tx'.prevouts
  sequences : anyoneCanPay nHashType = false → CoversAll nHashType →
    tx.vin.map CTxIn.nSequence = tx'.vin.map CTxIn.nSequence
  outputs : CoversAll nHashType → tx.vout = tx'.vout
  output : mode nHashType = sigHashSingle → tx.vout[nIn]? = tx'.vout[nIn]?

def coveredIn (nHashType : BitVec 32) (code : CScript) (nIn n : ℕ) (i : CTxIn) : CTxIn :=
  ⟨i.prevout,if n = nIn then code else [],
    if n = nIn ∨ CoversAll nHashType then i.nSequence else 0⟩

def coveredIns (nHashType : BitVec 32) (code : CScript) (nIn : ℕ) (vin : List CTxIn) : List CTxIn :=
  if anyoneCanPay nHashType then (vin[nIn]?.map (coveredIn nHashType code nIn nIn)).toList
  else vin.mapIdx (coveredIn nHashType code nIn)

def coveredOuts (nHashType : BitVec 32) (nIn : ℕ) (vout : List CTxOut) : List CTxOut :=
  if mode nHashType = sigHashNone then []
  else if mode nHashType = sigHashSingle then blankOutputs nIn vout
  else vout

def covered (nHashType : BitVec 32) (code : CScript) (nIn : ℕ) (tx : CTransaction) : CTransaction :=
  { tx with
    vin := coveredIns nHashType code nIn tx.vin
    vout := coveredOuts nHashType nIn tx.vout }

def Refused (nHashType : BitVec 32) (nIn : ℕ) (tx : CTransaction) : Prop :=
  tx.vin.length ≤ nIn ∨ mode nHashType = sigHashSingle ∧ tx.vout.length ≤ nIn

instance (nHashType : BitVec 32) (nIn : ℕ) (tx : CTransaction) :
    Decidable (Refused nHashType nIn tx) := inferInstanceAs (Decidable (_ ∨ _))

variable (code : CScript)

theorem blank_scripts_get (nIn n : ℕ) (vin : List CTxIn) :
    (blankScripts code nIn vin)[n]? =
      vin[n]?.map fun i => ⟨i.prevout,if n = nIn then code else [],i.nSequence⟩ := by
  rw [blankScripts, List.getElem?_modify, List.getElem?_map]
  cases vin[n]? with
  | none => rfl
  | some i =>
    by_cases hn : nIn = n
    · simp [hn]
    · simp [hn, Ne.symm hn]

variable {nHashType : BitVec 32}

theorem covered_all (nIn : ℕ) (vin : List CTxIn) (h : CoversAll nHashType) :
    blankScripts code nIn vin = vin.mapIdx (coveredIn nHashType code nIn) := by
  apply List.ext_getElem?
  intro n
  rw [blank_scripts_get, List.getElem?_mapIdx]
  cases vin[n]? with
  | none => rfl
  | some i => simp [coveredIn, h]

theorem covered_some (nIn : ℕ) (vin : List CTxIn) (h : ¬CoversAll nHashType) :
    letUpdate nIn (blankScripts code nIn vin) =
      vin.mapIdx (coveredIn nHashType code nIn) := by
  apply List.ext_getElem?
  intro n
  rw [letUpdate, List.getElem?_mapIdx, blank_scripts_get, List.getElem?_mapIdx]
  cases vin[n]? with
  | none => rfl
  | some i =>
    by_cases hn : n = nIn
    · simp [coveredIn, h, hn]
    · simp [coveredIn, h, hn]

variable {nIn : ℕ} {tx : CTransaction}

theorem keep_input_eq {code : CScript} {vin : List CTxIn}
    (hvin : tx.vin = vin.mapIdx (coveredIn nHashType code nIn)) (hn : nIn < vin.length) :
    keepInput nIn nHashType tx = { tx with vin := coveredIns nHashType code nIn vin } := by
  unfold keepInput coveredIns
  split
  · rw [hvin, List.getElem?_mapIdx, List.getElem?_eq_getElem hn]
    obtain ⟨i,is,rfl⟩ : ∃ i is, vin = i::is := List.exists_cons_of_length_pos (by omega)
    rw [List.mapIdx_cons]
    rfl
  · rw [← hvin]

theorem tx_tmp_eq (scriptCode : CScript) (tx : CTransaction) (nIn : ℕ) (nHashType : BitVec 32) :
    txTmp scriptCode tx nIn nHashType =
      if Refused nHashType nIn tx then none
      else some (covered nHashType
        (scriptCode.findAndDelete (CScript.ofOps [.opCodeSeparator])).1 nIn tx) := by
  generalize hcode : (scriptCode.findAndDelete (CScript.ofOps [.opCodeSeparator])).1 = code
  unfold txTmp Refused
  by_cases hn : tx.vin.length ≤ nIn
  · simp [hn]
  · have hlt : nIn < tx.vin.length := by omega
    simp only [hn, if_false, false_or, hcode]
    by_cases hnone : mode nHashType = sigHashNone
    · have hsingle : mode nHashType ≠ sigHashSingle := by rw [hnone]; decide
      have hall : ¬CoversAll nHashType := fun h => h.1 hnone
      rw [if_pos hnone, if_neg (fun h => hsingle h.1),
        keep_input_eq (covered_some code nIn tx.vin hall) hlt]
      simp [covered, coveredOuts, hnone]
    · rw [if_neg hnone]
      by_cases hsingle : mode nHashType = sigHashSingle
      · have hall : ¬CoversAll nHashType := fun h => h.2 hsingle
        rw [if_pos hsingle, keep_input_eq
          (covered_some code nIn tx.vin hall) hlt]
        by_cases hout : tx.vout.length ≤ nIn
        · simp [hsingle, hout]
        · rw [if_neg hout, if_neg (fun h => hout h.2)]
          simp [covered, coveredOuts, hsingle, show sigHashSingle ≠ sigHashNone by decide]
      · rw [if_neg hsingle, if_neg (fun h => hsingle h.1),
          keep_input_eq
            (covered_all code nIn tx.vin ⟨hnone,hsingle⟩) hlt]
        simp [covered, coveredOuts, hnone, hsingle]

theorem blank_outputs_eq {nOut : ℕ} {vout : List CTxOut} {o : CTxOut} (ho : vout[nOut]? = some o) :
    blankOutputs nOut vout = List.replicate nOut .null++[o] := by
  obtain ⟨hlt,rfl⟩ := List.getElem?_eq_some_iff.mp ho
  apply List.ext_getElem?
  intro n
  rw [blankOutputs, List.getElem?_mapIdx, List.getElem?_take, List.getElem?_append,
    List.length_replicate, List.getElem?_replicate]
  rcases Nat.lt_trichotomy n nOut with hn | hn | hn
  · rw [if_pos (by omega), if_pos hn, if_pos hn, List.getElem?_eq_getElem (by omega)]
    simp [hn]
  · subst hn
    simp
  · rw [if_neg (by omega), if_neg (by omega)]
    have hpos : n-nOut ≠ 0 := by omega
    simp [hpos]

theorem covered_outs_iff {vout vout' : List CTxOut}
    (hout : mode nHashType = sigHashSingle → nIn < vout.length)
    (hout' : mode nHashType = sigHashSingle → nIn < vout'.length) :
    coveredOuts nHashType nIn vout = coveredOuts nHashType nIn vout' ↔
      (CoversAll nHashType → vout = vout') ∧
        (mode nHashType = sigHashSingle → vout[nIn]? = vout'[nIn]?) := by
  unfold coveredOuts CoversAll
  by_cases hnone : mode nHashType = sigHashNone
  · have hne : sigHashNone ≠ sigHashSingle := by decide
    simp [hnone, hne]
  · by_cases hsingle : mode nHashType = sigHashSingle
    · have ho := List.getElem?_eq_getElem (hout hsingle)
      have ho' := List.getElem?_eq_getElem (hout' hsingle)
      rw [if_neg hnone, if_pos hsingle, if_neg hnone, if_pos hsingle, blank_outputs_eq ho,
        blank_outputs_eq ho', ho, ho']
      simp [hsingle]
    · simp [hnone, hsingle]

theorem covered_in_eq (nHashType : BitVec 32) (code : CScript) (nIn n : ℕ) (i i' : CTxIn) :
    coveredIn nHashType code nIn n i = coveredIn nHashType code nIn n i' ↔
      i.prevout = i'.prevout ∧ (n = nIn ∨ CoversAll nHashType → i.nSequence = i'.nSequence) := by
  unfold coveredIn
  rw [CTxIn.mk.injEq]
  by_cases h : n = nIn ∨ CoversAll nHashType
  · simp [h]
  · simp [h]

theorem covered_ins_iff (nHashType : BitVec 32) (code : CScript) (nIn : ℕ) (vin vin' : List CTxIn) :
    coveredIns nHashType code nIn vin = coveredIns nHashType code nIn vin' ↔
      vin[nIn]?.map (fun i => (i.prevout,i.nSequence)) =
        vin'[nIn]?.map (fun i => (i.prevout,i.nSequence)) ∧
      (anyoneCanPay nHashType = false → vin.map CTxIn.prevout = vin'.map CTxIn.prevout) ∧
      (anyoneCanPay nHashType = false → CoversAll nHashType →
        vin.map CTxIn.nSequence = vin'.map CTxIn.nSequence) := by
  unfold coveredIns
  cases hany : anyoneCanPay nHashType with
  | true =>
    rw [if_pos rfl, if_pos rfl]
    cases vin[nIn]? <;> cases vin'[nIn]? <;> simp [covered_in_eq]
  | false =>
    have hget : ∀ n, (vin[n]?.map (coveredIn nHashType code nIn n) =
        vin'[n]?.map (coveredIn nHashType code nIn n)) ↔
        vin[n]?.map CTxIn.prevout = vin'[n]?.map CTxIn.prevout ∧
          (n = nIn ∨ CoversAll nHashType →
            vin[n]?.map CTxIn.nSequence = vin'[n]?.map CTxIn.nSequence) := fun n => by
      cases vin[n]? <;> cases vin'[n]? <;> simp [covered_in_eq]
    have hown : vin[nIn]?.map (fun i => (i.prevout,i.nSequence)) =
        vin'[nIn]?.map (fun i => (i.prevout,i.nSequence)) ↔
        vin[nIn]?.map CTxIn.prevout = vin'[nIn]?.map CTxIn.prevout ∧
          vin[nIn]?.map CTxIn.nSequence = vin'[nIn]?.map CTxIn.nSequence := by
      cases vin[nIn]? <;> cases vin'[nIn]? <;> simp
    simp only [Bool.false_eq_true, if_false, List.ext_getElem?_iff, List.getElem?_mapIdx,
      List.getElem?_map, forall_const, hget, hown]
    constructor
    · intro h
      exact ⟨⟨(h nIn).1,(h nIn).2 (.inl rfl)⟩,fun n => (h n).1,fun hall n => (h n).2 (.inr hall)⟩
    · rintro ⟨⟨_,hsequence⟩,hprev,hall⟩ n
      refine ⟨hprev n,?_⟩
      rintro (rfl | hcovers)
      · exact hsequence
      · exact hall hcovers n

theorem covered_iff {tx' : CTransaction} (hin : ¬Refused nHashType nIn tx)
    (hin' : ¬Refused nHashType nIn tx') :
    covered nHashType code nIn tx = covered nHashType code nIn tx' ↔
      SameCovered nHashType nIn tx tx' := by
  have hins := covered_ins_iff nHashType code nIn tx.vin tx'.vin
  have houts := covered_outs_iff
    (fun h => Nat.lt_of_not_le fun hle => hin (.inr ⟨h,hle⟩))
    (fun h => Nat.lt_of_not_le fun hle => hin' (.inr ⟨h,hle⟩))
  unfold covered
  rw [CTransaction.mk.injEq, hins, houts]
  constructor
  · rintro ⟨hv,ht,⟨hown,hprev,hseq⟩,⟨hall,hone⟩,hl⟩
    exact ⟨hv,ht,hl,hown,hprev,hseq,hall,hone⟩
  · intro h
    exact ⟨h.nVersion,h.nTime,⟨h.own,h.prevouts,h.sequences⟩,⟨h.outputs,h.output⟩,h.nLockTime⟩

theorem refused_iff {tx' : CTransaction} (h : SameCovered nHashType nIn tx tx') :
    Refused nHashType nIn tx ↔ Refused nHashType nIn tx' := by
  have hin : tx.vin.length ≤ nIn ↔ tx'.vin.length ≤ nIn := by
    have hown := congrArg Option.isNone h.own
    rw [Option.isNone_map, Option.isNone_map] at hown
    rw [← List.getElem?_eq_none_iff, ← List.getElem?_eq_none_iff, ← Option.isNone_iff_eq_none,
      ← Option.isNone_iff_eq_none, hown]
  have hout : mode nHashType = sigHashSingle →
      (tx.vout.length ≤ nIn ↔ tx'.vout.length ≤ nIn) := fun hs => by
    rw [← List.getElem?_eq_none_iff, ← List.getElem?_eq_none_iff, h.output hs]
  unfold Refused
  rw [hin]
  exact or_congr_right (and_congr_right hout)

theorem find_and_delete_from_length (b : CScript) (k : ℕ) (pc : CScript) :
    (CScript.findAndDeleteFrom b k pc).1.length ≤ pc.length := by
  induction k generalizing pc with
  | zero => exact Nat.le_refl _
  | succ k ih =>
    rw [CScript.findAndDeleteFrom]
    split
    · exact (ih _).trans (List.length_drop ▸ Nat.sub_le _ _)
    · cases h : CScript.getOp pc with
      | none => exact Nat.le_refl _
      | some i =>
        have hrest := ih i.2
        have hlt := CScript.get_op_shorter h
        simp only [List.length_append, List.length_take]
        omega

theorem find_and_delete_length (s b : CScript) : (s.findAndDelete b).1.length ≤ s.length := by
  unfold CScript.findAndDelete
  split
  · exact Nat.le_refl _
  · exact find_and_delete_from_length b _ s

theorem script_fits {s : CScript} (h : s.length < 2^64) : CScript.Fits s := ⟨h,fun _ _ => trivial⟩

theorem covered_in_fits (nHashType : BitVec 32) {code : CScript} (nIn n : ℕ) {i : CTxIn}
    (hcode : code.length < 2^64) (hi : i.Fits) : (coveredIn nHashType code nIn n i).Fits := by
  refine ⟨hi.1,?_,?_⟩
  · change CScript.Fits (if n = nIn then code else [])
    split
    · exact script_fits hcode
    · exact script_fits (by decide)
  · change (if n = nIn ∨ CoversAll nHashType then i.nSequence else 0) < 256^4
    split
    · exact hi.2.2
    · decide

theorem covered_fits (nHashType : BitVec 32) {code : CScript} (nIn : ℕ) (hcode : code.length < 2^64)
    (h : tx.Fits) : (covered nHashType code nIn tx).Fits := by
  obtain ⟨hversion,htime,⟨hinlen,hins⟩,⟨houtlen,houts⟩,hlock⟩ := h
  refine ⟨hversion,htime,?_,?_,hlock⟩
  · change (coveredIns nHashType code nIn tx.vin).length < 2^64 ∧
      ∀ i ∈ coveredIns nHashType code nIn tx.vin, i.Fits
    unfold coveredIns
    split
    · cases hi : tx.vin[nIn]? with
      | none => simp
      | some i =>
        have hfits := covered_in_fits nHashType nIn nIn hcode (hins i (List.mem_of_getElem? hi))
        simpa using hfits
    · refine ⟨by rwa [List.length_mapIdx],fun i hi => ?_⟩
      obtain ⟨n,hn,rfl⟩ := List.mem_mapIdx.mp hi
      exact covered_in_fits nHashType nIn n hcode (hins _ (List.getElem_mem hn))
  · change (coveredOuts nHashType nIn tx.vout).length < 2^64 ∧
      ∀ o ∈ coveredOuts nHashType nIn tx.vout, o.Fits
    unfold coveredOuts
    split
    · simp
    · split
      · unfold blankOutputs
        refine ⟨?_,fun o ho => ?_⟩
        · rw [List.length_mapIdx, List.length_take]
          omega
        · obtain ⟨n,hn,rfl⟩ := List.mem_mapIdx.mp ho
          split
          · exact ⟨by unfold FitsSigned CTxOut.null; decide,script_fits (by decide)⟩
          · exact houts _ (List.mem_of_mem_take (List.getElem_mem hn))
      · exact ⟨houtlen,houts⟩

/-- `SignatureHash` refuses exactly the inputs with nothing to sign, gives the same digest for
transactions that agree on what the hash type covers, and hashes different bytes otherwise. -/
theorem signature_hash_commits (hash : List UInt8 → Uint256) (scriptCode : CScript)
    (tx tx' : CTransaction) (nIn : ℕ) (nHashType : BitVec 32) :
    (preimage scriptCode tx nIn nHashType = none ↔
      tx.vin.length ≤ nIn ∨ mode nHashType = sigHashSingle ∧ tx.vout.length ≤ nIn) ∧
    (SameCovered nHashType nIn tx tx' → signatureHash hash scriptCode tx nIn nHashType =
      signatureHash hash scriptCode tx' nIn nHashType) ∧
    (scriptCode.length < 2^64 → tx.Fits → tx'.Fits → ∀ bytes bytes',
      preimage scriptCode tx nIn nHashType = some bytes →
      preimage scriptCode tx' nIn nHashType = some bytes' →
      ¬SameCovered nHashType nIn tx tx' → bytes ≠ bytes') := by
  refine ⟨?_,fun h => ?_,fun hcode htx htx' bytes bytes' hb hb' hdiff heq => hdiff ?_⟩
  · rw [preimage, tx_tmp_eq, Option.map_eq_none_iff]
    change _ ↔ Refused nHashType nIn tx
    split
    · next hr => exact ⟨fun _ => hr,fun _ => rfl⟩
    · next hr => exact ⟨fun h => (by cases h),fun h => absurd h hr⟩
  · unfold signatureHash preimage
    rw [tx_tmp_eq, tx_tmp_eq]
    by_cases hr : Refused nHashType nIn tx
    · rw [if_pos hr, if_pos ((refused_iff h).mp hr)]
    · have hr' := fun hr' => hr ((refused_iff h).mpr hr')
      rw [if_neg hr, if_neg hr', (covered_iff _ hr hr').mpr h]
  · rw [preimage, tx_tmp_eq] at hb hb'
    by_cases hr : Refused nHashType nIn tx
    · rw [if_pos hr] at hb
      cases hb
    · by_cases hr' : Refused nHashType nIn tx'
      · rw [if_pos hr'] at hb'
        cases hb'
      · rw [if_neg hr] at hb
        rw [if_neg hr'] at hb'
        have hlen := (find_and_delete_length scriptCode
          (CScript.ofOps [.opCodeSeparator])).trans_lt hcode
        have hsame := (Option.some_inj.mp hb).trans (heq.trans (Option.some_inj.mp hb').symm)
        have hcovered := (Serialize.transaction_delimited _ _ _ _
          (covered_fits nHashType nIn hlen htx) (covered_fits nHashType nIn hlen htx')
          hsame).1
        exact (covered_iff _ hr hr').mp hcovered

def payment (scriptSig : CScript) (nValue : ℤ) : CTransaction :=
  ⟨1,100,[⟨⟨7,0⟩,scriptSig,uintMax⟩],[⟨nValue,[0x51]⟩],0⟩

theorem payment_fits {nValue : ℤ} (h : FitsSigned 8 nValue) : (payment [] nValue).Fits := by
  have hversion : FitsSigned 4 1 := by unfold FitsSigned; decide
  simp [CTransaction.Fits, CTxIn.Fits, CTxOut.Fits, COutPoint.Fits, payment, CScript.Fits, h,
    hversion, uintMax]

/-- The amount of an output is covered. -/
theorem amount_covered : preimage [0xac] (payment [] 5) 0 1 ≠ preimage [0xac] (payment [] 6) 0 1 := by
  intro h
  obtain ⟨bytes,hb⟩ : ∃ bytes, preimage [0xac] (payment [] 5) 0 1 = some bytes := ⟨_,rfl⟩
  have hdiff : ¬SameCovered 1 0 (payment [] 5) (payment [] 6) := fun hsame => by
    have hout := hsame.outputs (by decide)
    cases hout
  exact (signature_hash_commits (fun _ => 0) [0xac] (payment [] 5) (payment [] 6) 0 1).2.2
    (by decide) (payment_fits (by unfold FitsSigned; decide))
    (payment_fits (by unfold FitsSigned; decide)) bytes bytes hb (h ▸ hb) hdiff rfl

/-- The signature script of the signed input itself is not covered, although it is not the one of
another input. -/
theorem own_script_left_out : (payment [1] 5).vin[0]? ≠ (payment [2] 5).vin[0]? ∧
    ∃ bytes, preimage [0xac] (payment [1] 5) 0 1 = some bytes ∧
      preimage [0xac] (payment [2] 5) 0 1 = some bytes :=
  ⟨by decide,_,rfl,rfl⟩

end SignatureHash

end SwippCore
