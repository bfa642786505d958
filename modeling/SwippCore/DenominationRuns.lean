import SwippCore.Denominations

/-!
# Which denominations are chosen

The selection is right, in every order of the coins and for every draw, exactly where the two
tables agree on the coins that there are, and where coins can only be filled up to the limit in
such a way that the request is served.
-/

set_option autoImplicit false

namespace SwippCore.DenominationRuns
open AvailableCoins CoinSelection Masternode Denominations
open SelectCoins (total_nil total_cons total_append total_perm total_nonneg)
open DarkSendPool (darkSendDenominations getDenominations darksendPoolMax)

section Tables
variable (q : DenominateRequest)

theorem wanted_iff (v : ℤ) : wanted q v = true ↔ ∃ x ∈ anyBits, q.nDenom.testBit x.1 = true ∧ v = x.2 := by
  unfold wanted
  rw [List.any_eq_true]
  simp only [Bool.and_eq_true, beq_iff_eq]

theorem wanted_first_iff (v : ℤ) :
    wantedFirst q v = true ↔ ∃ x ∈ missingBits, q.nDenom.testBit x.1 = true ∧ v = x.2 := by
  unfold wantedFirst
  rw [List.any_eq_true]
  simp only [Bool.and_eq_true, beq_iff_eq]

theorem any_bits_denominated : ∀ x ∈ anyBits, x.2 ∈ darkSendDenominations := by decide

theorem missing_bits_denominated : ∀ x ∈ missingBits, x.2 ∈ darkSendDenominations := by decide

theorem any_bits_unique : ∀ x ∈ anyBits, ∀ y ∈ anyBits, x.2 = y.2 → x = y := by decide

theorem denominated_any_bits : ∀ v ∈ darkSendDenominations, ∃ x ∈ anyBits, x.2 = v := by decide

theorem missing_bits_any : ∀ x ∈ missingBits, ∃ y ∈ anyBits, y.1 = x.1 := by decide

theorem wanted_denominated {v : ℤ} (h : wanted q v = true) : v ∈ darkSendDenominations := by
  obtain ⟨x,hx,_,rfl⟩ := (wanted_iff q v).mp h
  exact any_bits_denominated x hx

theorem first_denominated {v : ℤ} (h : wantedFirst q v = true) : v ∈ darkSendDenominations := by
  obtain ⟨x,hx,_,rfl⟩ := (wanted_first_iff q v).mp h
  exact missing_bits_denominated x hx

theorem denominated_pos : ∀ v ∈ darkSendDenominations, 0 < v := by decide

theorem off_iff {v : ℤ} (hv : v ∈ darkSendDenominations) : v ∈ off q ↔ wanted q v = false := by
  unfold off
  rw [List.mem_map]
  constructor
  · rintro ⟨x,hx,rfl⟩
    obtain ⟨hx,hbit⟩ := List.mem_filter.mp hx
    apply eq_false_of_ne_true
    intro h
    obtain ⟨y,hy,hset,heq⟩ := (wanted_iff q x.2).mp h
    rw [any_bits_unique x hx y hy heq, hset] at hbit
    cases hbit
  · intro h
    obtain ⟨x,hx,rfl⟩ := denominated_any_bits v hv
    refine ⟨x,List.mem_filter.mpr ⟨hx,?_⟩,rfl⟩
    rw [Bool.not_eq_true']
    apply eq_false_of_ne_true
    intro hset
    rw [(wanted_iff q x.2).mpr ⟨x,hx,hset,rfl⟩] at h
    cases h

variable (V : CoinView) (env : Env)

def good (c : COutput) : Bool := wanted q (value c) && inRounds q env c

theorem denominated_passes {c : COutput} (hv : value c ∈ darkSendDenominations) :
    passes q V env c = inRounds q env c := by
  have hlarge : ∀ v ∈ darkSendDenominations, ¬(v < coin ∧ v ≠ coin/10+100) := by decide
  have hplain : ∀ v ∈ darkSendDenominations, v ≠ defaultMasternodeCollateral ∧ v ≠ 20000*coin := by decide
  have hmn : value c ≠ getMasternodeCollateralForBlock V.nHeight := by
    unfold getMasternodeCollateralForBlock
    split
    · exact (hplain _ hv).1
    · exact (hplain _ hv).2
  unfold passes
  rw [decide_eq_false (hlarge _ hv), decide_eq_false (fun h => hmn h.2)]
  rfl

theorem good_pos {c : COutput} (h : good q env c = true) : 0 < value c := by
  unfold good at h
  rw [Bool.and_eq_true] at h
  exact denominated_pos _ (wanted_denominated q h.1)

end Tables

section Statement
variable (q : DenominateRequest) (env : Env) (vCoins : List COutput) (nValueMax : ℤ)

def Serves (picked : List COutput) : Prop :=
  (∀ v, wanted q v = true → ∃ c ∈ picked, value c = v) ∧ q.nValueMin ≤ total picked

def Servable : Prop :=
  ∃ picked rest, (picked++rest).Perm (vCoins.filter (good q env)) ∧ total picked ≤ nValueMax ∧ Serves q picked

def Fills (picked : List COutput) : Prop :=
  ∃ rest, (picked++rest).Perm (vCoins.filter (good q env)) ∧ total picked ≤ nValueMax ∧
    ∀ c ∈ rest, nValueMax < total picked+value c

structure Denominates (r : Bool × Denominated) : Prop where
  among : r.2.setCoinsRet.Subperm vCoins
  sound : ∀ c ∈ r.2.setCoinsRet, good q env c = true
  sum : r.2.nValueRet = total r.2.setCoinsRet
  limit : r.2.nValueRet ≤ nValueMax
  found : r.1 = true ↔ Serves q r.2.setCoinsRet
  enough : Servable q env vCoins nValueMax → r.1 = true
  mask : r.1 = true →
    getDenominations (r.2.setCoinsRet.map fun c => (⟨value c,[]⟩ : CTxOut)) = q.nDenom

def NoneWrong : Prop :=
  ∀ c ∈ vCoins, wantedFirst q (value c) = true → inRounds q env c = true → value c ≤ nValueMax →
    wanted q (value c) = true

def Agrees : Prop :=
  NoneWrong q env vCoins nValueMax ∧
    (Servable q env vCoins nValueMax → (0 ≤ q.nDenom ∧ q.nDenom < 128) ∧
      (∀ v, wanted q v = true → wantedFirst q v = true) ∧
      ∀ picked, Fills q env vCoins nValueMax picked → Serves q picked)

end Statement

section Invariant
variable (q : DenominateRequest) (V : CoinView) (env : Env) (p : COutput → Prop) (nValueMax : ℤ)

structure Inv (seen : List COutput) (d : Denominated) : Prop where
  among : d.setCoinsRet.Sublist seen
  sound : ∀ c ∈ d.setCoinsRet, p c
  sum : d.nValueRet = total d.setCoinsRet
  limit : d.nValueRet ≤ nValueMax
  five : 5 ≤ d.nValueMax
  le : d.nValueMax ≤ nValueMax
  found : ∀ v ∈ darkSendDenominations, v ∈ d.found ↔ v ∈ off q ∨ ∃ c ∈ d.setCoinsRet, value c = v

theorem inv_start (hmax : 5 ≤ nValueMax) : Inv q p nValueMax [] ⟨off q,0,nValueMax,[]⟩ where
  among := List.Sublist.refl []
  sound c hc := by cases hc
  sum := rfl
  limit := by
    change 0 ≤ nValueMax
    omega
  five := hmax
  le := le_refl _
  found v _ := by
    constructor
    · exact Or.inl
    · rintro (h | ⟨c,hc,_⟩)
      · exact h
      · cases hc

variable {seen : List COutput} {d : Denominated}

theorem inv_more (more : List COutput) (h : Inv q p nValueMax seen d) :
    Inv q p nValueMax (seen++more) d :=
  { h with among := h.among.trans (List.sublist_append_left seen more) }

theorem all_found_iff (h : Inv q p nValueMax seen d) :
    allFound d = true ↔ ∀ v, wanted q v = true → ∃ c ∈ d.setCoinsRet, value c = v := by
  unfold allFound
  rw [List.all_eq_true]
  constructor
  · intro hall v hv
    have hden := wanted_denominated q hv
    rcases (h.found v hden).mp (List.contains_iff_mem.mp (hall v hden)) with hoff | hcoin
    · rw [(off_iff q hden).mp hoff] at hv
      cases hv
    · exact hcoin
  · intro hall v hden
    rw [List.contains_iff_mem, h.found v hden]
    cases hv : wanted q v with
    | false => exact Or.inl ((off_iff q hden).mpr hv)
    | true => exact Or.inr (hall v hv)

def done (d : Denominated) : Prop := allFound d = true ∧ q.nValueMin ≤ d.nValueRet

theorem done_iff (h : Inv q p nValueMax seen d) : done q d ↔ Serves q d.setCoinsRet := by
  unfold done Serves
  rw [all_found_iff q p nValueMax h, h.sum]

structure Admits (vCoins : List COutput) : Prop where
  accepted : ∀ d out, out ∈ vCoins → value out ≤ nValueMax → passes q V env out = true →
    accepts q d (value out) = true → p out
  pos : ∀ c, p c → 0 < value c

theorem inv_take {out : COutput} {n : ℤ} (h : Inv q p nValueMax seen d) (hp : p out)
    (hfit : d.nValueRet+value out ≤ d.nValueMax) (hn : Lowered q d n) :
    Inv q p nValueMax (seen++[out]) (take d out n) where
  among := h.among.append (List.Sublist.refl [out])
  sound c hc := by
    rcases List.mem_append.mp hc with hc | hc
    · exact h.sound c hc
    · rw [List.mem_singleton.mp hc]
      exact hp
  sum := by
    change d.nValueRet+value out = total (d.setCoinsRet++[out])
    rw [total_append, total_cons, total_nil, add_zero, h.sum]
  limit := le_trans hfit h.le
  five := hn.five h.five
  le := le_trans hn.le h.le
  found v hv := by
    change v ∈ value out::d.found ↔ v ∈ off q ∨ ∃ c ∈ d.setCoinsRet++[out], value c = v
    rw [List.mem_cons, h.found v hv]
    constructor
    · rintro (rfl | hoff | ⟨c,hc,heq⟩)
      · exact Or.inr ⟨out,List.mem_append_right _ List.mem_cons_self,rfl⟩
      · exact Or.inl hoff
      · exact Or.inr ⟨c,List.mem_append_left _ hc,heq⟩
    · rintro (hoff | ⟨c,hc,heq⟩)
      · exact Or.inr (Or.inl hoff)
      · rcases List.mem_append.mp hc with hc | hc
        · exact Or.inr (Or.inr ⟨c,hc,heq⟩)
        · obtain rfl := List.mem_singleton.mp hc
          exact Or.inl heq.symm

theorem inv_keep (seen : List COutput) (d : Denominated) (out : COutput) (n : ℤ)
    (h : Inv q p nValueMax seen d) (hn : Lowered q d n) :
    Inv q p nValueMax (seen++[out]) { d with nValueMax := n } :=
  { inv_more q p nValueMax [out] h with five := hn.five h.five, le := le_trans hn.le h.le }

theorem admits_take {vCoins : List COutput} (hadmits : Admits q V env p nValueMax vCoins)
    (h : Inv q p nValueMax seen d) {out : COutput} (hout : out ∈ vCoins)
    (hfit : d.nValueRet+value out ≤ d.nValueMax) (hpass : passes q V env out = true)
    (haccept : accepts q d (value out) = true) : p out := by
  have hpos : 0 ≤ d.nValueRet := by
    rw [h.sum]
    exact total_nonneg _ fun c hc => le_of_lt (hadmits.pos c (h.sound c hc))
  have hle := h.le
  exact hadmits.accepted d out hout (by omega) hpass haccept

theorem run_inv (vCoins : List COutput) (hadmits : Admits q V env p nValueMax vCoins) (nCoins : ℕ)
    (outs seen : List COutput) (d : Denominated) (h : Inv q p nValueMax seen d)
    (hsub : ∀ c ∈ outs, c ∈ vCoins) :
    Inv q p nValueMax (seen++outs) (takeDenominations V env q nCoins outs d).2 ∧
      ((takeDenominations V env q nCoins outs d).1 = true →
        done q (takeDenominations V env q nCoins outs d).2) := by
  induction outs generalizing seen d with
  | nil => exact ⟨inv_more q p nValueMax [] h,fun hstop => by cases hstop⟩
  | cons out outs ih =>
    have hrest : ∀ c ∈ outs, c ∈ vCoins := fun c hc => hsub c (List.mem_cons_of_mem out hc)
    have hcase := turn_cases q V env nCoins out d
    rw [take_cons, List.append_cons]
    generalize turn q V env nCoins out d = t at hcase
    cases hcase with
    | stops hall hmin =>
      refine ⟨?_,fun _ => ⟨hall,hmin⟩⟩
      rw [List.append_assoc]
      exact inv_more q p nValueMax _ h
    | keeps n hn hskip => exact ih _ _ (inv_keep q p nValueMax seen d out n h (hn h.five)) hrest
    | takes n hn hfit hpass haccept =>
      have hp := admits_take q V env p nValueMax hadmits h (hsub out List.mem_cons_self) hfit
        hpass haccept
      exact ih _ _ (inv_take q p nValueMax h hp hfit (hn h.five)) hrest

theorem missed_stays {vCoins : List COutput} (hadmits : Admits q V env p nValueMax vCoins) {v : ℤ}
    (hv : wanted q v = true) (hfirst : wantedFirst q v = false) {nCoins : ℕ}
    (outs seen : List COutput) (d : Denominated) (h : Inv q p nValueMax seen d)
    (hsub : ∀ c ∈ outs, c ∈ vCoins) (hmiss : ∀ c ∈ d.setCoinsRet, value c ≠ v) :
    ∀ c ∈ (takeDenominations V env q nCoins outs d).2.setCoinsRet, value c ≠ v := by
  induction outs generalizing seen d with
  | nil => exact hmiss
  | cons out outs ih =>
    have hrest : ∀ c ∈ outs, c ∈ vCoins := fun c hc => hsub c (List.mem_cons_of_mem out hc)
    have hcase := turn_cases q V env nCoins out d
    rw [take_cons]
    generalize turn q V env nCoins out d = t at hcase
    cases hcase with
    | stops hall hmin => exact hmiss
    | keeps n hn hskip => exact ih _ _ (inv_keep q p nValueMax seen d out n h (hn h.five)) hrest hmiss
    | takes n hn hfit hpass haccept =>
      have hp := admits_take q V env p nValueMax hadmits h (hsub out List.mem_cons_self) hfit
        hpass haccept
      apply ih _ _ (inv_take q p nValueMax h hp hfit (hn h.five)) hrest
      intro c hc
      rcases List.mem_append.mp hc with hc | hc
      · exact hmiss c hc
      · obtain rfl := List.mem_singleton.mp hc
        rintro rfl
        unfold accepts at haccept
        split at haccept
        · rename_i hall
          obtain ⟨x,hx,heq⟩ := (all_found_iff q p nValueMax h).mp hall _ hv
          exact hmiss x hx heq
        · rw [hfirst] at haccept
          cases haccept

end Invariant

section Good
variable (q : DenominateRequest) (V : CoinView) (env : Env) (nValueMax : ℤ)

def Good (c : COutput) : Prop := good q env c = true

theorem passes_rounds {c : COutput} (h : passes q V env c = true) : inRounds q env c = true := by
  unfold passes at h
  rw [Bool.and_eq_true] at h
  exact h.2

/-- Where the first table takes no other denomination, all that is accepted is as it is asked for. -/
theorem admits_good {vCoins : List COutput} (hnone : NoneWrong q env vCoins nValueMax) :
    Admits q V env (Good q env) nValueMax vCoins where
  accepted d out hout hle hpass haccept := by
    have hrounds := passes_rounds q V env hpass
    unfold accepts at haccept
    unfold Good good
    rw [hrounds, Bool.and_true]
    split at haccept
    · exact haccept
    · exact hnone out hout haccept hrounds hle
  pos c h := good_pos q env h

end Good

section Filling
variable (q : DenominateRequest) (V : CoinView) (env : Env) (nValueMax : ℤ)

def Held (seen : List COutput) (d : Denominated) : Prop :=
  ∃ rest, (d.setCoinsRet++rest).Perm (seen.filter (good q env)) ∧
    (done q d ∨ (d.nValueMax = nValueMax ∧ ∀ c ∈ rest, nValueMax < d.nValueRet+value c))

theorem filter_snoc (seen : List COutput) (out : COutput) (p : COutput → Bool) :
    (seen++[out]).filter p = seen.filter p++if p out then [out] else [] := by
  rw [List.filter_append, List.filter_cons, List.filter_nil]

variable {d : Denominated} {out : COutput}

theorem done_take (n : ℤ) (hpos : 0 ≤ value out) (h : done q d) : done q (take d out n) := by
  obtain ⟨hall,hmin⟩ := h
  constructor
  · unfold allFound at hall ⊢
    rw [List.all_eq_true] at hall ⊢
    intro v hv
    exact List.contains_iff_mem.mpr (List.mem_cons_of_mem _ (List.contains_iff_mem.mp (hall v hv)))
  · change q.nValueMin ≤ d.nValueRet+value out
    omega

theorem good_accepted (hboth : ∀ v, wanted q v = true → wantedFirst q v = true) (d : Denominated)
    (hgood : good q env out = true) :
    passes q V env out = true ∧ accepts q d (value out) = true := by
  unfold good at hgood
  rw [Bool.and_eq_true] at hgood
  constructor
  · rw [denominated_passes q V env (wanted_denominated q hgood.1)]
    exact hgood.2
  · unfold accepts
    split
    · exact hgood.1
    · exact hboth _ hgood.1

theorem held_keep (hboth : ∀ v, wanted q v = true → wantedFirst q v = true) {seen : List COutput}
     {n : ℤ} (h : Held q env nValueMax seen d) (hn : Lowered q d n)
    (hskip : d.nValueMax < d.nValueRet+value out ∨ passes q V env out = false ∨
      accepts q d (value out) = false) : Held q env nValueMax (seen++[out]) { d with nValueMax := n } := by
  obtain ⟨rest,hperm,hwhy⟩ := h
  have hwhy' : done q d ∨ (n = nValueMax ∧ d.nValueMax = nValueMax ∧
      ∀ c ∈ rest, nValueMax < d.nValueRet+value c) := by
    rcases hwhy with hdone | ⟨hmax,hrest⟩
    · exact Or.inl hdone
    · rcases hn.reason with hsame | hdone
      · exact Or.inr ⟨hsame.trans hmax,hmax,hrest⟩
      · exact Or.inl hdone
  unfold Held
  rw [filter_snoc]
  cases hgood : good q env out with
  | false =>
    rw [if_neg Bool.false_ne_true, List.append_nil]
    exact ⟨rest,hperm,hwhy'.imp id fun h => ⟨h.1,h.2.2⟩⟩
  | true =>
    rw [if_pos rfl]
    refine ⟨rest++[out],?_,hwhy'.imp id fun h => ⟨h.1,?_⟩⟩
    · rw [← List.append_assoc]
      exact hperm.append_right [out]
    · intro c hc
      rcases List.mem_append.mp hc with hc | hc
      · exact h.2.2 c hc
      · obtain rfl := List.mem_singleton.mp hc
        obtain ⟨hpass,haccept⟩ := good_accepted q V env hboth d hgood
        rcases hskip with hfull | hnot | hnot
        · rw [← h.2.1]
          exact hfull
        · rw [hpass] at hnot
          cases hnot
        · rw [haccept] at hnot
          cases hnot

theorem held_take {seen : List COutput} {n : ℤ} (h : Held q env nValueMax seen d)
    (hgood : good q env out = true) (hn : Lowered q d n) :
    Held q env nValueMax (seen++[out]) (take d out n) := by
  obtain ⟨rest,hperm,hwhy⟩ := h
  have hpos := good_pos q env hgood
  unfold Held
  rw [filter_snoc, hgood, if_pos rfl]
  refine ⟨rest,?_,?_⟩
  · change (d.setCoinsRet++[out]++rest).Perm _
    rw [List.append_assoc]
    have hswap : ([out]++rest).Perm (rest++[out]) := List.perm_append_comm
    have hend := hperm.append_right [out]
    rw [List.append_assoc] at hend
    exact (hswap.append_left d.setCoinsRet).trans hend
  · rcases hwhy with hdone | ⟨hmax,hrest⟩
    · exact Or.inl (done_take q n (le_of_lt hpos) hdone)
    · rcases hn.reason with hsame | hdone
      · refine Or.inr ⟨hsame.trans hmax,?_⟩
        intro c hc
        have hc := hrest c hc
        change nValueMax < d.nValueRet+value out+value c
        omega
      · exact Or.inl (done_take q n (le_of_lt hpos) hdone)

theorem run_held {vCoins : List COutput} (hnone : NoneWrong q env vCoins nValueMax)
    (hboth : ∀ v, wanted q v = true → wantedFirst q v = true) (nCoins : ℕ)
    (outs seen : List COutput) (d : Denominated) (h : Inv q (Good q env) nValueMax seen d)
    (hheld : Held q env nValueMax seen d) (hsub : ∀ c ∈ outs, c ∈ vCoins) :
    done q (takeDenominations V env q nCoins outs d).2 ∨
      Held q env nValueMax (seen++outs) (takeDenominations V env q nCoins outs d).2 := by
  induction outs generalizing seen d with
  | nil =>
    rw [List.append_nil]
    exact Or.inr hheld
  | cons out outs ih =>
    have hrest : ∀ c ∈ outs, c ∈ vCoins := fun c hc => hsub c (List.mem_cons_of_mem out hc)
    have hcase := turn_cases q V env nCoins out d
    rw [take_cons, List.append_cons]
    generalize turn q V env nCoins out d = t at hcase
    cases hcase with
    | stops hall hmin => exact Or.inl ⟨hall,hmin⟩
    | keeps n hn hskip =>
      exact ih _ _ (inv_keep q (Good q env) nValueMax seen d out n h (hn h.five))
        (held_keep q V env nValueMax hboth hheld (hn h.five) hskip) hrest
    | takes n hn hfit hpass haccept =>
      have hgood := admits_take q V env (Good q env) nValueMax
        (admits_good q V env nValueMax hnone) h (hsub out List.mem_cons_self) hfit hpass haccept
      exact ih _ _ (inv_take q (Good q env) nValueMax h hgood hfit (hn h.five))
        (held_take q env nValueMax hheld hgood (hn h.five)) hrest

end Filling

section Mask
variable (q : DenominateRequest)

theorem bits_sum (b0 b1 b2 b3 b4 b5 b6 : Bool) :
    ([(b0,0),(b1,1),(b2,2),(b3,3),(b4,4),(b5,5),(b6,6)].map fun x => if x.1 then 2^x.2 else 0).sum < 128 := by
  revert b0 b1 b2 b3 b4 b5 b6
  decide

theorem denominations_small (vout : List CTxOut) : getDenominations vout < 128 := by
  unfold getDenominations
  split
  · exact bits_sum _ _ _ _ _ _ _
  · decide

theorem mask_bits {n : ℤ} (hn : 0 ≤ n ∧ n < 128) :
    ((([0,1,2,3,4,5,6].map fun i => if n.testBit i then 2^i else 0) : List ℕ).sum : ℤ) = n := by
  have key : ∀ m < 128,
      (([0,1,2,3,4,5,6].map fun i => if m.testBit i then 2^i else 0) : List ℕ).sum = m := by decide
  obtain ⟨m,rfl⟩ := Int.eq_ofNat_of_zero_le hn.1
  exact congrArg Nat.cast (key m (Int.ofNat_lt.mp hn.2))

theorem serves_mask {env : Env} {picked : List COutput} (hgood : ∀ c ∈ picked, good q env c = true)
    (hserves : Serves q picked) (hmask : 0 ≤ q.nDenom ∧ q.nDenom < 128) :
    getDenominations (picked.map fun c => (⟨value c,[]⟩ : CTxOut)) = q.nDenom := by
  have hwanted : ∀ c ∈ picked, wanted q (value c) = true := by
    intro c hc
    have h := hgood c hc
    unfold good at h
    rw [Bool.and_eq_true] at h
    exact h.1
  have hbit : ∀ x ∈ anyBits, (picked.map fun c => (⟨value c,[]⟩ : CTxOut)).any
      (fun out => out.nValue == x.2) = q.nDenom.testBit x.1 := by
    intro x hx
    rw [Bool.eq_iff_iff, List.any_map, List.any_eq_true]
    constructor
    · rintro ⟨c,hc,heq⟩
      obtain ⟨y,hy,hset,hval⟩ := (wanted_iff q _).mp (hwanted c hc)
      rw [Function.comp_apply, beq_iff_eq] at heq
      rw [any_bits_unique x hx y hy (heq.symm.trans hval)]
      exact hset
    · intro hset
      obtain ⟨c,hc,heq⟩ := hserves.1 x.2 ((wanted_iff q x.2).mpr ⟨x,hx,hset,rfl⟩)
      exact ⟨c,hc,beq_iff_eq.mpr heq⟩
  have hall : (picked.map fun c => (⟨value c,[]⟩ : CTxOut)).all
      (fun out => decide (out.nValue ∈ darkSendDenominations)) = true := by
    rw [List.all_map, List.all_eq_true]
    intro c hc
    exact decide_eq_true (wanted_denominated q (hwanted c hc))
  unfold getDenominations
  rw [if_pos hall]
  have hzip : darkSendDenominations.zipIdx = anyBits.map fun x => (x.2,x.1) := by decide
  have hfst : [0,1,2,3,4,5,6] = anyBits.map Prod.fst := by decide
  rw [hzip, List.map_map, ← mask_bits hmask, hfst, List.map_map]
  congr 2
  apply List.map_congr_left
  intro x hx
  rw [Function.comp_apply, Function.comp_apply, hbit x hx]

end Mask

section Sufficient
variable (q : DenominateRequest) (V : CoinView) (env : Env) (nValueMax : ℤ)

theorem select_inv {p : COutput → Prop} {vCoins outs : List COutput} (hmax : 5 ≤ nValueMax)
    (hadmits : Admits q V env p nValueMax vCoins) (hin : ∀ c ∈ outs, c ∈ vCoins) :
    Inv q p nValueMax outs (selectByDenominations q V env nValueMax outs).2 ∧
      ((selectByDenominations q V env nValueMax outs).1 = true ↔
        done q (selectByDenominations q V env nValueMax outs).2) := by
  obtain ⟨hrun,hstop⟩ := run_inv q V env p nValueMax vCoins hadmits outs.length outs [] _
    (inv_start q p nValueMax hmax) hin
  refine ⟨hrun,?_⟩
  unfold selectByDenominations
  dsimp only
  rw [Bool.or_eq_true, Bool.and_eq_true, decide_eq_true_eq]
  constructor
  · rintro (hearly | ⟨hmin,hall⟩)
    · exact hstop hearly
    · exact ⟨hall,hmin⟩
  · rintro ⟨hall,hmin⟩
    exact Or.inr ⟨hmin,hall⟩

theorem agrees_denominates {vCoins outs : List COutput} (hmax : 5 ≤ nValueMax)
    (hperm : outs.Perm vCoins) (h : Agrees q env vCoins nValueMax) :
    Denominates q env vCoins nValueMax (selectByDenominations q V env nValueMax outs) := by
  obtain ⟨hnone,hservable⟩ := h
  have hin : ∀ c ∈ outs, c ∈ vCoins := fun c hc => hperm.subset hc
  have hstart := inv_start q (Good q env) nValueMax hmax
  obtain ⟨hinv,hdone⟩ := select_inv q V env nValueMax hmax
    (admits_good q V env nValueMax hnone) hin
  have hfound : (selectByDenominations q V env nValueMax outs).1 = true ↔
      Serves q (selectByDenominations q V env nValueMax outs).2.setCoinsRet :=
    hdone.trans (done_iff q (Good q env) nValueMax hinv)
  have hamong : (selectByDenominations q V env nValueMax outs).2.setCoinsRet.Subperm vCoins :=
    hinv.among.subperm.trans hperm.subperm
  refine ⟨hamong,hinv.sound,hinv.sum,hinv.limit,hfound,?_,?_⟩
  · intro hs
    obtain ⟨_,hboth,hfills⟩ := hservable hs
    have hheld : Held q env nValueMax [] ⟨off q,0,nValueMax,[]⟩ :=
      ⟨[],List.Perm.refl [],Or.inr ⟨rfl,fun c hc => by cases hc⟩⟩
    have hend : done q (selectByDenominations q V env nValueMax outs).2 ∨
        Held q env nValueMax outs (selectByDenominations q V env nValueMax outs).2 :=
      run_held q V env nValueMax hnone hboth outs.length outs [] _ hstart hheld hin
    rcases hend with hend | ⟨rest,hrest,hend | ⟨_,hfull⟩⟩
    · exact hdone.mpr hend
    · exact hdone.mpr hend
    · apply hfound.mpr
      apply hfills
      refine ⟨rest,hrest.trans (hperm.filter _),?_,?_⟩
      · rw [← hinv.sum]
        exact hinv.limit
      · rw [← hinv.sum]
        exact hfull
  · intro hr
    have hserves := hfound.mp hr
    have hs : Servable q env vCoins nValueMax := by
      have hsub : (selectByDenominations q V env nValueMax outs).2.setCoinsRet.Subperm
          (vCoins.filter (good q env)) := by
        have hkept := hamong.filter (good q env)
        rw [List.filter_eq_self.mpr hinv.sound] at hkept
        exact hkept
      obtain ⟨taken,htaken,hsub⟩ := hsub
      obtain ⟨rest,hrest⟩ := hsub.exists_perm_append
      refine ⟨_,rest,(htaken.symm.append_right rest).trans hrest.symm,?_,hserves⟩
      rw [← hinv.sum]
      exact hinv.limit
    exact serves_mask q hinv.sound hserves (hservable hs).1

end Sufficient

section Necessary
variable (q : DenominateRequest) (V : CoinView) (env : Env) (nValueMax : ℤ)

theorem set_grows (nCoins : ℕ) (outs : List COutput) (d : Denominated) {c : COutput}
    (hc : c ∈ d.setCoinsRet) : c ∈ (takeDenominations V env q nCoins outs d).2.setCoinsRet := by
  induction outs generalizing d with
  | nil => exact hc
  | cons out outs ih =>
    have hcase := turn_cases q V env nCoins out d
    rw [take_cons]
    generalize turn q V env nCoins out d = t at hcase
    cases hcase with
    | stops hall hmin => exact hc
    | keeps n hn hskip => exact ih _ hc
    | takes n hn hfit hpass haccept => exact ih _ (List.mem_append_left _ hc)

theorem first_used {v : ℤ} (h : wantedFirst q v = true) :
    allFound ⟨off q,0,nValueMax,[]⟩ = false := by
  obtain ⟨x,hx,hset,_⟩ := (wanted_first_iff q v).mp h
  obtain ⟨y,hy,heq⟩ := missing_bits_any x hx
  rw [← heq] at hset
  have hwanted : wanted q y.2 = true := (wanted_iff q y.2).mpr ⟨y,hy,hset,rfl⟩
  have hden := any_bits_denominated y hy
  apply eq_false_of_ne_true
  intro hall
  unfold allFound at hall
  have hoff := (off_iff q hden).mp (List.contains_iff_mem.mp (List.all_eq_true.mp hall y.2 hden))
  rw [hwanted] at hoff
  cases hoff

variable {vCoins : List COutput}

/-- A coin of another denomination that the first table takes is taken when it comes first. -/
theorem wrong_taken {c : COutput} (hc : c ∈ vCoins) (hfirst : wantedFirst q (value c) = true)
    (hrounds : inRounds q env c = true) (hle : value c ≤ nValueMax) :
    ∃ outs, outs.Perm vCoins ∧ c ∈ (selectByDenominations q V env nValueMax outs).2.setCoinsRet := by
  obtain ⟨before,rest,rfl⟩ := List.append_of_mem hc
  refine ⟨c::(before++rest),List.perm_middle.symm,?_⟩
  have hpass : passes q V env c = true := by
    rw [denominated_passes q V env (first_denominated q hfirst)]
    exact hrounds
  have hcase := turn_cases q V env (c::(before++rest)).length c ⟨off q,0,nValueMax,[]⟩
  have hmissing := first_used q nValueMax hfirst
  unfold selectByDenominations
  dsimp only
  rw [take_cons]
  generalize turn q V env (c::(before++rest)).length c ⟨off q,0,nValueMax,[]⟩ = t at hcase
  cases hcase with
  | stops hall hmin =>
    rw [hmissing] at hall
    cases hall
  | keeps n hn hskip =>
    exfalso
    rcases hskip with hfull | hnot | hnot
    · rw [zero_add] at hfull
      exact absurd hle (not_le.mpr hfull)
    · rw [hpass] at hnot
      cases hnot
    · unfold accepts at hnot
      rw [hmissing, if_neg Bool.false_ne_true, hfirst] at hnot
      cases hnot
  | takes n hn hfit hpass haccept =>
    exact set_grows q V env _ _ _ List.mem_cons_self

theorem takes_all (hboth : ∀ v, wanted q v = true → wantedFirst q v = true) (nCoins : ℕ)
    (outs rest seen : List COutput) (d : Denominated) (h : Inv q (Good q env) nValueMax seen d)
    (hmax : d.nValueMax = nValueMax) (hgood : ∀ c ∈ outs, good q env c = true)
    (hfit : total (d.setCoinsRet++outs) ≤ nValueMax) (hnot : ¬ Serves q (d.setCoinsRet++outs)) :
    ∃ d', Inv q (Good q env) nValueMax (seen++outs) d' ∧ d'.nValueMax = nValueMax ∧
      d'.setCoinsRet = d.setCoinsRet++outs ∧
      takeDenominations V env q nCoins (outs++rest) d = takeDenominations V env q nCoins rest d' := by
  induction outs generalizing seen d with
  | nil =>
    refine ⟨d,?_,hmax,(List.append_nil _).symm,rfl⟩
    exact inv_more q (Good q env) nValueMax [] h
  | cons out outs ih =>
    have hout := hgood out List.mem_cons_self
    have hrest : ∀ c ∈ outs, good q env c = true := fun c hc => hgood c (List.mem_cons_of_mem out hc)
    have hless := total_nonneg outs fun c hc => le_of_lt (good_pos q env (hrest c hc))
    have hpos := good_pos q env hout
    rw [total_append, total_cons, ← h.sum] at hfit
    have hundone : ¬ done q d := by
      intro hdone
      obtain ⟨hall,hmin⟩ := (done_iff q (Good q env) nValueMax h).mp hdone
      apply hnot
      constructor
      · intro v hv
        obtain ⟨c,hc,heq⟩ := hall v hv
        exact ⟨c,List.mem_append_left _ hc,heq⟩
      · rw [total_append, total_cons]
        omega
    have hsame : ∀ n, Lowered q d n → n = nValueMax := by
      intro n hn
      rcases hn.reason with hn | hdone
      · exact hn.trans hmax
      · exact absurd hdone hundone
    have hcase := turn_cases q V env nCoins out d
    rw [List.cons_append, take_cons, List.append_cons seen, List.append_cons d.setCoinsRet]
    rw [List.append_cons d.setCoinsRet] at hnot
    generalize turn q V env nCoins out d = t at hcase
    obtain ⟨hpass,haccept⟩ := good_accepted q V env hboth d hout
    cases hcase with
    | stops hall hmin => exact absurd ⟨hall,hmin⟩ hundone
    | keeps n hn hskip =>
      exfalso
      rcases hskip with hfull | hbad | hbad
      · omega
      · rw [hpass] at hbad
        cases hbad
      · rw [haccept] at hbad
        cases hbad
    | takes n hn hfits _ _ =>
      have hn' := hsame n (hn h.five)
      obtain ⟨d',hinv,hmax',hset,htake⟩ := ih (seen++[out]) (take d out n)
        (inv_take q (Good q env) nValueMax h hout hfits (hn h.five)) hn' hrest
        (by
          change total (d.setCoinsRet++[out]++outs) ≤ nValueMax
          rw [total_append, total_append, total_cons, total_nil, ← h.sum]
          omega) hnot
      exact ⟨d',hinv,hmax',hset,htake⟩

theorem takes_nothing (hnone : NoneWrong q env vCoins nValueMax) (nCoins : ℕ) {outs : List COutput}
    {d : Denominated} (hsub : ∀ c ∈ outs, c ∈ vCoins) (hmax : d.nValueMax = nValueMax)
    (hfive : 5 ≤ nValueMax) (hpos : 0 ≤ d.nValueRet) (hundone : ¬ done q d)
    (hfull : ∀ c ∈ outs, good q env c = true → nValueMax < d.nValueRet+value c) :
    takeDenominations V env q nCoins outs d = (false,d) := by
  induction outs with
  | nil => rfl
  | cons out outs ih =>
    have hcase := turn_cases q V env nCoins out d
    rw [take_cons]
    generalize turn q V env nCoins out d = t at hcase
    cases hcase with
    | stops hall hmin => exact absurd ⟨hall,hmin⟩ hundone
    | keeps n hn hskip =>
      have hn' : n = d.nValueMax := by
        rcases (hn (by omega)).reason with hn | hdone
        · exact hn
        · exact absurd hdone hundone
      subst hn'
      exact ih (fun c hc => hsub c (List.mem_cons_of_mem out hc))
        fun c hc => hfull c (List.mem_cons_of_mem out hc)
    | takes n hn hfit hpass haccept =>
      exfalso
      have hgood := (admits_good q V env nValueMax hnone).accepted d out (hsub out List.mem_cons_self)
        (by omega) hpass haccept
      have hlarge := hfull out List.mem_cons_self hgood
      omega

/-- Coins that fill the limit are what is taken when they come first, unless they serve. -/
theorem filled_taken {picked : List COutput} (hmax : 5 ≤ nValueMax)
    (hnone : NoneWrong q env vCoins nValueMax)
    (hboth : ∀ v, wanted q v = true → wantedFirst q v = true)
    (hfills : Fills q env vCoins nValueMax picked) (hnot : ¬ Serves q picked) :
    ∃ outs, outs.Perm vCoins ∧ (selectByDenominations q V env nValueMax outs).1 = false := by
  obtain ⟨rest,hperm,hle,hfull⟩ := hfills
  have hsplit : ((picked++rest)++vCoins.filter fun c => !good q env c).Perm vCoins :=
    (hperm.append_right _).trans (List.filter_append_perm (good q env) vCoins)
  rw [List.append_assoc] at hsplit
  refine ⟨_,hsplit,?_⟩
  have hgood : ∀ c ∈ picked, good q env c = true := fun c hc =>
    (List.mem_filter.mp (hperm.subset (List.mem_append_left rest hc))).2
  obtain ⟨d,hinv,hmax',hset,htake⟩ := takes_all q V env nValueMax hboth
    (picked++(rest++vCoins.filter fun c => !good q env c)).length picked
    (rest++vCoins.filter fun c => !good q env c) [] ⟨off q,0,nValueMax,[]⟩ (inv_start q (Good q env) nValueMax hmax)
    rfl hgood hle hnot
  have hset' : d.setCoinsRet = picked := hset
  have hundone : ¬ done q d := by
    rw [done_iff q (Good q env) nValueMax hinv, hset']
    exact hnot
  have hpos : 0 ≤ d.nValueRet := by
    rw [hinv.sum]
    exact total_nonneg _ fun c hc => le_of_lt (good_pos q env (hinv.sound c hc))
  have hstay := takes_nothing q V env nValueMax hnone
    (picked++(rest++vCoins.filter fun c => !good q env c)).length
    
    (fun c hc => hsplit.subset (List.mem_append_right picked hc)) hmax' hmax hpos hundone (by
      intro c hc hg
      rw [hinv.sum, hset']
      rcases List.mem_append.mp hc with hc | hc
      · exact hfull c hc
      · have hbad := (List.mem_filter.mp hc).2
        rw [hg] at hbad
        cases hbad)
  unfold selectByDenominations
  dsimp only
  rw [htake, hstay, Bool.false_or, Bool.and_eq_false_iff]
  by_cases hmin : q.nValueMin ≤ d.nValueRet
  · exact Or.inr (eq_false_of_ne_true fun hall => hundone ⟨hall,hmin⟩)
  · exact Or.inl (decide_eq_false hmin)

end Necessary

section Claims

/-- The selection is right in every order and for all draws exactly where the tables agree on the
coins, and coins that could serve do so however they fill the limit. -/
theorem denominations_iff (q : DenominateRequest) (V : CoinView) (K : Keys) (env : Env) (m : MapWallet)
    (nValueMax : ℤ) (hmax : 5 ≤ nValueMax) :
    (∀ (outs : List COutput) (rand : COutPoint → ℕ × ℕ),
      outs.Perm (availableCoins V K true [] .allCoins false m) →
      Denominates q env (availableCoins V K true [] .allCoins false m) nValueMax
        (selectByDenominations { q with rand := rand } V env nValueMax outs)) ↔
    Agrees q env (availableCoins V K true [] .allCoins false m) nValueMax := by
  generalize availableCoins V K true [] .allCoins false m = vCoins
  constructor
  · intro h
    have hsame : ∀ outs, outs.Perm vCoins →
        Denominates q env vCoins nValueMax (selectByDenominations q V env nValueMax outs) :=
      fun outs hperm => h outs q.rand hperm
    have hnone : NoneWrong q env vCoins nValueMax := by
      intro c hc hfirst hrounds hle
      obtain ⟨outs,hperm,hmem⟩ := wrong_taken q V env nValueMax hc hfirst hrounds hle
      have hgood := (hsame outs hperm).sound c hmem
      unfold good at hgood
      rw [Bool.and_eq_true] at hgood
      exact hgood.1
    refine ⟨hnone,?_⟩
    intro hs
    have hself := hsame vCoins (List.Perm.refl _)
    have htrue := hself.enough hs
    have hboth : ∀ v, wanted q v = true → wantedFirst q v = true := by
      intro v hv
      obtain ⟨c,hc,heq⟩ := (hself.found.mp htrue).1 v hv
      by_contra hfirst
      exact missed_stays q V env (Good q env) nValueMax (admits_good q V env nValueMax hnone) hv (eq_false_of_ne_true hfirst) vCoins
        [] _ (inv_start q (Good q env) nValueMax hmax) (fun x hx => hx) (fun x hx => by cases hx) c hc heq
    refine ⟨?_,hboth,?_⟩
    · rw [← hself.mask htrue]
      exact ⟨Int.natCast_nonneg _,Int.ofNat_lt.mpr (denominations_small _)⟩
    · intro picked hfills
      by_contra hnot
      obtain ⟨outs,hperm,hfalse⟩ := filled_taken q V env nValueMax hmax hnone hboth hfills hnot
      have htrue := (hsame outs hperm).enough hs
      rw [hfalse] at htrue
      cases htrue
  · intro h outs rand hperm
    have hd := agrees_denominates { q with rand := rand } V env nValueMax hmax hperm h
    exact ⟨hd.among,hd.sound,hd.sum,hd.limit,hd.found,hd.enough,hd.mask⟩

def oneTx (nValue : ℤ) : CWalletTx := .ofTx ⟨1,5,[],[⟨nValue,[]⟩],0⟩ 9

def oneWallet (nValue : ℤ) : MapWallet := (∅ : MapWallet).insert 5 (oneTx nValue)

def openView : CoinView := ⟨200,fun _ => true,fun _ => true,fun _ => 0,fun _ => 1,[]⟩

def ownKeys : Keys := ⟨fun _ => true,fun _ => false⟩

def maskAsked (nDenom : ℤ) : DenominateRequest := ⟨nDenom,coin/10,0,8,false,fun _ => 0,fun _ => (0,0)⟩

theorem one_serves (nDenom : ℤ) (c : COutput)
    (honly : ∀ x ∈ anyBits, nDenom.testBit x.1 = true → x.2 = value c) (hmin : coin/10 ≤ value c) :
    Serves (maskAsked nDenom) [c] := by
  constructor
  · intro v hv
    obtain ⟨x,hx,hset,rfl⟩ := (wanted_iff (maskAsked nDenom) v).mp hv
    exact ⟨c,List.mem_cons_self,(honly x hx hset).symm⟩
  · rw [total_cons, total_nil, add_zero]
    exact hmin

/-- The largest denomination is found. -/
theorem largest_found : Denominates (maskAsked 1) sampleEnv
    (availableCoins openView ownKeys true [] .allCoins false (oneWallet (100000*coin+100000000)))
    darksendPoolMax (selectByDenominations { maskAsked 1 with rand := fun _ => (0,0) } openView sampleEnv
      darksendPoolMax (availableCoins openView ownKeys true [] .allCoins false
        (oneWallet (100000*coin+100000000)))) := by
  apply (denominations_iff (maskAsked 1) openView ownKeys sampleEnv (oneWallet (100000*coin+100000000))
    darksendPoolMax (by decide)).mpr _ _ (fun _ => (0,0)) (List.Perm.refl _)
  have hoffered : availableCoins openView ownKeys true [] .allCoins false
      (oneWallet (100000*coin+100000000)) = [⟨oneTx (100000*coin+100000000),0,1,true⟩] := rfl
  rw [hoffered]
  constructor
  · intro c hc _ _ _
    obtain rfl := List.mem_singleton.mp hc
    decide
  · intro _
    refine ⟨by decide,?_,?_⟩
    · intro v hv
      obtain ⟨x,hx,hset,rfl⟩ := (wanted_iff (maskAsked 1) v).mp hv
      have hfirst : ∀ x ∈ anyBits, Int.testBit 1 x.1 = true → wantedFirst (maskAsked 1) x.2 = true := by decide
      exact hfirst x hx hset
    · rintro picked ⟨rest,hperm,_,hfull⟩
      rw [show [⟨oneTx (100000*coin+100000000),0,1,true⟩].filter (good (maskAsked 1) sampleEnv) =
        [⟨oneTx (100000*coin+100000000),0,1,true⟩] from rfl] at hperm
      rw [List.perm_singleton, List.append_eq_singleton_iff] at hperm
      rcases hperm with ⟨rfl,rfl⟩ | ⟨rfl,rfl⟩
      · exact absurd (hfull _ List.mem_cons_self) (by decide)
      · exact one_serves 1 _ (by decide) (by decide)

/-- The smallest one is not. -/
theorem smallest_missed : ¬ ∀ (outs : List COutput) (rand : COutPoint → ℕ × ℕ),
    outs.Perm (availableCoins openView ownKeys true [] .allCoins false (oneWallet (coin/10+100))) →
    Denominates (maskAsked 64) sampleEnv
      (availableCoins openView ownKeys true [] .allCoins false (oneWallet (coin/10+100)))
      darksendPoolMax (selectByDenominations { maskAsked 64 with rand := rand } openView sampleEnv
        darksendPoolMax outs) := by
  intro h
  have hself := h _ (fun _ => (0,0)) (List.Perm.refl _)
  have hoffered : availableCoins openView ownKeys true [] .allCoins false
      (oneWallet (coin/10+100)) = [⟨oneTx (coin/10+100),0,1,true⟩] := rfl
  rw [hoffered] at hself
  have hserves := one_serves 64 ⟨oneTx (coin/10+100),0,1,true⟩ (by decide) (by decide)
  have htrue := hself.enough ⟨[⟨oneTx (coin/10+100),0,1,true⟩],[],List.Perm.refl _,by decide,hserves⟩
  exact absurd htrue (by decide)

end Claims

end SwippCore.DenominationRuns
