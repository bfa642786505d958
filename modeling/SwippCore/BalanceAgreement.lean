import SwippCore.AccountBalance
import SwippCore.WalletSpent

/-!
# The balance of the accounts and the unspent outputs

Where every own output that counts as spent is spent by one input of the wallet, the
debits of all transactions are the values of these outputs, and the balance of all
accounts is what `GetBalance` sums up.
-/

set_option autoImplicit false

namespace SwippCore.BalanceAgreement
open FinMap CWallet WalletBalance AccountBalance

variable {CTxDestination : Type}

section Outputs
variable (K : Keys) (A : AccountView CTxDestination)

def valueOf (test : CTxOut → Bool) (os : List CTxOut) : ℤ := ((os.filter test).map CTxOut.nValue).sum

variable (test : CTxOut → Bool)

@[simp] theorem value_of_nil : valueOf test [] = 0 := rfl

theorem value_of_cons (o : CTxOut) (os : List CTxOut) :
    valueOf test (o::os) = (if test o then o.nValue else 0)+valueOf test os := by
  by_cases ho : test o = true <;> simp [valueOf, ho]

def isOwn (o : CTxOut) : Bool := K.mine o.scriptPubKey

theorem sum_outs_value {os : List CTxOut} (n v : ℤ) (h : sumOuts K.mine n os = some v) :
    v = n+valueOf (isOwn K) os := by
  induction os generalizing n with
  | nil =>
    rw [← Option.some.inj h]
    simp
  | cons o os ih =>
    by_cases hin : (moneyRange o.nValue &&
        moneyRange (n+if K.mine o.scriptPubKey then o.nValue else 0)) = true
    · rw [sumOuts, if_pos hin] at h
      rw [ih _ h, value_of_cons, isOwn, Int.add_assoc]
    · rw [sumOuts, if_neg hin] at h
      cases h

theorem sum_in_range_value {ns : List ℤ} (n v : ℤ) (h : sumInRange n ns = some v) :
    v = n+ns.sum := by
  induction ns generalizing n with
  | nil =>
    rw [← Option.some.inj h]
    simp
  | cons x ns ih =>
    by_cases hin : moneyRange (n+x) = true
    · rw [sumInRange, if_pos hin] at h
      rw [ih _ h, List.sum_cons, Int.add_assoc]
    · rw [sumInRange, if_neg hin] at h
      cases h

theorem sum_in_range_nonneg {ns : List ℤ} (n v : ℤ) (hn : 0 ≤ n) (h : sumInRange n ns = some v) :
    0 ≤ v := by
  induction ns generalizing n with
  | nil =>
    rw [← Option.some.inj h]
    exact hn
  | cons x ns ih =>
    by_cases hin : moneyRange (n+x) = true
    · rw [sumInRange, if_pos hin] at h
      have hpos : 0 ≤ n+x := by
        unfold moneyRange at hin
        simp only [Bool.and_eq_true, decide_eq_true_eq] at hin
        exact hin.1
      exact ih (n+x) hpos h
    · rw [sumInRange, if_neg hin] at h
      cases h

theorem value_all (os : List CTxOut) : valueOf (fun _ => true) os = (os.map CTxOut.nValue).sum := by
  simp [valueOf]

theorem value_split (os : List CTxOut)
    (hzero : ∀ o ∈ os, o.scriptPubKey = [] → test o = true → o.nValue = 0) :
    valueOf (fun o => !o.scriptPubKey.isEmpty && test o) os = valueOf test os := by
  induction os with
  | nil => rfl
  | cons o os ih =>
    have hrest := ih fun x hx => hzero x (List.mem_cons_of_mem o hx)
    rw [value_of_cons, value_of_cons, hrest]
    cases hscript : o.scriptPubKey with
    | cons b bs => simp
    | nil =>
      by_cases htest : test o = true
      · simp [htest, hzero o List.mem_cons_self hscript htest]
      · simp [htest]

theorem sorted_totals (nDebit : ℤ) (os : List CTxOut) :
    total (sortOutputs K A nDebit os).1 = valueOf (fun o => !o.scriptPubKey.isEmpty && isOwn K o) os ∧
    total (sortOutputs K A nDebit os).2 =
      if 0 < nDebit then valueOf (fun o => !o.scriptPubKey.isEmpty && true) os else 0 := by
  induction os with
  | nil => simp [sortOutputs, total]
  | cons o os ih =>
    obtain ⟨hrec,hsent⟩ := ih
    simp only [total] at hrec hsent ⊢
    rw [sortOutputs, value_of_cons, value_of_cons]
    by_cases hscript : o.scriptPubKey.isEmpty = true
    · simp [hscript, hrec, hsent]
    · by_cases hdebit : 0 < nDebit
      · by_cases hmine : K.mine o.scriptPubKey = true
        · simp [hscript, hdebit, hmine, isOwn, hrec, hsent]
        · simp [hscript, hdebit, hmine, isOwn, hrec, hsent]
      · by_cases hmine : K.mine o.scriptPubKey = true
        · simp [hscript, hdebit, hmine, isOwn, hrec, hsent]
        · simp [hscript, hdebit, hmine, isOwn, hrec, hsent]

end Outputs

section Spends
variable (K : Keys) (m : MapWallet)

def valueAt (o : COutPoint) : ℤ := ((ourOutput K m o).map CTxOut.nValue).getD 0

def spends (k : Uint256) : List COutPoint :=
  ((m.lookup k).map fun wtx => wtx.tx.prevouts.filter fun o => (ourOutput K m o).isSome).getD []

def flagged (k : Uint256) : List COutPoint :=
  ((m.lookup k).map fun wtx => (outpoints k wtx.tx).filter fun o =>
    (ourOutput K m o).isSome && wtx.isSpent o.n).getD []

structure SpentOnce : Prop where
  once : ((walletKeys m).flatMap (spends K m)).Nodup
  marked : ∀ k wtx n, m.lookup k = some wtx → (ourOutput K m ⟨k,n⟩).isSome = true →
    (wtx.isSpent n = true ↔ ∃ j wtx', m.lookup j = some wtx' ∧ (⟨k,n⟩ : COutPoint) ∈ wtx'.tx.prevouts)

theorem mem_wallet_keys (k : Uint256) : k ∈ walletKeys m ↔ ∃ wtx, m.lookup k = some wtx := by
  rw [walletKeys, List.mem_mergeSort, ← mem_iff_lookup]
  rfl

theorem debit_spends {k : Uint256} {wtx : CWalletTx} (hk : m.lookup k = some wtx) {nDebit : ℤ}
    (h : getDebit K m wtx.tx = some nDebit) : nDebit = ((spends K m k).map (valueAt K m)).sum := by
  have hsum := sum_in_range_value 0 nDebit h
  rw [Int.zero_add] at hsum
  rw [hsum, spends, hk]
  show ((wtx.tx.prevouts.map (valueAt K m)).sum : ℤ) =
    ((wtx.tx.prevouts.filter fun o => (ourOutput K m o).isSome).map (valueAt K m)).sum
  induction wtx.tx.prevouts with
  | nil => rfl
  | cons o os ih =>
    rw [List.map_cons, List.sum_cons, ih]
    cases hown : ourOutput K m o with
    | none =>
      rw [List.filter_cons_of_neg (by simp [hown]), valueAt, hown]
      simp
    | some out =>
      rw [List.filter_cons_of_pos (by simp [hown])]
      simp

theorem own_output {o : COutPoint} (h : (ourOutput K m o).isSome = true) :
    ∃ wtx out, m.lookup o.hash = some wtx ∧ wtx.tx.vout[o.n]? = some out := by
  obtain ⟨out,hout⟩ := Option.isSome_iff_exists.mp h
  obtain ⟨hbind,-⟩ := Option.filter_eq_some_iff.mp hout
  obtain ⟨wtx,hwtx,hn⟩ := Option.bind_eq_some_iff.mp hbind
  exact ⟨wtx,out,hwtx,hn⟩

theorem mem_flagged (k : Uint256) (o : COutPoint) : o ∈ flagged K m k ↔
    o.hash = k ∧ (ourOutput K m o).isSome = true ∧
      ∃ wtx, m.lookup k = some wtx ∧ wtx.isSpent o.n = true := by
  unfold flagged
  cases hk : m.lookup k with
  | none => simp
  | some wtx =>
    simp only [Option.map_some, Option.getD_some, List.mem_filter, Bool.and_eq_true]
    constructor
    · rintro ⟨hmem,hown,hspent⟩
      obtain ⟨n,-,rfl⟩ := List.mem_map.mp hmem
      exact ⟨rfl,hown,wtx,rfl,hspent⟩
    · rintro ⟨rfl,hown,wtx',hwtx,hspent⟩
      obtain rfl := Option.some.inj hwtx
      obtain ⟨wtx'',out,hlookup,hout⟩ := own_output K m hown
      rw [hk] at hlookup
      obtain rfl := Option.some.inj hlookup
      refine ⟨List.mem_map.mpr ⟨o.n,?_,rfl⟩,hown,hspent⟩
      exact List.mem_range.mpr (List.getElem?_eq_some_iff.mp hout).1

theorem flagged_perm (hs : SpentOnce K m) :
    ((walletKeys m).flatMap (flagged K m)).Perm ((walletKeys m).flatMap (spends K m)) := by
  have hkeys : (walletKeys m).Nodup := (List.mergeSort_perm _ _).nodup_iff.mpr m.nodupKeys
  have hflagged : ((walletKeys m).flatMap (flagged K m)).Nodup := by
    rw [List.nodup_flatMap]
    constructor
    · intro k _
      unfold flagged
      cases m.lookup k with
      | none => exact List.nodup_nil
      | some wtx =>
        apply List.Nodup.filter
        apply List.Nodup.map _ List.nodup_range
        intro a b hab
        exact (COutPoint.mk.inj hab).2
    · apply hkeys.imp
      intro j k hjk o hj hk
      exact hjk (((mem_flagged K m j o).mp hj).1.symm.trans ((mem_flagged K m k o).mp hk).1)
  rw [List.perm_ext_iff_of_nodup hflagged hs.once]
  intro o
  simp only [List.mem_flatMap]
  constructor
  · rintro ⟨k,-,ho⟩
    obtain ⟨rfl,hown,wtx,hwtx,hspent⟩ := (mem_flagged K m k o).mp ho
    obtain ⟨j,wtx',hj,hmem⟩ := (hs.marked o.hash wtx o.n hwtx hown).mp hspent
    refine ⟨j,(mem_wallet_keys m j).mpr ⟨wtx',hj⟩,?_⟩
    rw [spends, hj]
    exact List.mem_filter.mpr ⟨hmem,hown⟩
  · rintro ⟨j,-,ho⟩
    unfold spends at ho
    cases hj : m.lookup j with
    | none => simp [hj] at ho
    | some wtx' =>
      rw [hj] at ho
      obtain ⟨hmem,hown⟩ := List.mem_filter.mp ho
      obtain ⟨wtx,out,hwtx,-⟩ := own_output K m hown
      refine ⟨o.hash,(mem_wallet_keys m o.hash).mpr ⟨wtx,hwtx⟩,?_⟩
      exact (mem_flagged K m o.hash o).mpr ⟨rfl,hown,wtx,hwtx,
        (hs.marked o.hash wtx o.n hwtx hown).mpr ⟨j,wtx',hj,hmem⟩⟩

end Spends

section Turns
variable (K : Keys) (A : AccountView CTxDestination) (m : MapWallet)

theorem value_divided (own : CTxOut → Bool) (spent : ℕ → Bool) (xs : List (CTxOut × ℕ)) :
    valueOf own (xs.map Prod.fst) =
      valueOf own ((xs.filter fun x => !spent x.2).map Prod.fst)+
        valueOf own ((xs.filter fun x => spent x.2).map Prod.fst) := by
  induction xs with
  | nil => rfl
  | cons x xs ih =>
    rw [List.map_cons, value_of_cons, ih]
    cases hx : spent x.2 with
    | true =>
      simp only [List.filter_cons, hx, Bool.not_true, Bool.false_eq_true, if_false, if_true, List.map_cons,
        value_of_cons]
      omega
    | false =>
      simp only [List.filter_cons, hx, Bool.not_false, Bool.false_eq_true, if_false, if_true,
        List.map_cons, value_of_cons]
      omega

variable {wtx : CWalletTx}

theorem flagged_at {k : Uint256} (hk : m.lookup k = some wtx) {xs : List (CTxOut × ℕ)}
    (hxs : ∀ x ∈ xs, wtx.tx.vout[x.2]? = some x.1) :
    (((xs.map fun x => (⟨k,x.2⟩ : COutPoint)).filter fun o =>
        (ourOutput K m o).isSome && wtx.isSpent o.n).map (valueAt K m)).sum =
      valueOf (isOwn K) ((xs.filter fun x => wtx.isSpent x.2).map Prod.fst) := by
  induction xs with
  | nil => rfl
  | cons x xs ih =>
    have hrest := ih fun y hy => hxs y (List.mem_cons_of_mem x hy)
    have hout : ourOutput K m ⟨k,x.2⟩ = (some x.1).filter fun out => K.mine out.scriptPubKey := by
      rw [ourOutput, hk]
      show (wtx.tx.vout[x.2]?).filter _ = _
      rw [hxs x List.mem_cons_self]
    rw [List.map_cons, List.filter_cons, List.filter_cons]
    by_cases hspent : wtx.isSpent x.2 = true
    · rw [if_pos hspent, List.map_cons, value_of_cons]
      by_cases hmine : K.mine x.1.scriptPubKey = true
      · have hown : ourOutput K m ⟨k,x.2⟩ = some x.1 := by rw [hout, Option.filter_some, if_pos hmine]
        rw [if_pos (by simp [hown, hspent]), List.map_cons, List.sum_cons, hrest, valueAt, hown, isOwn,
          if_pos hmine]
        rfl
      · have hown : ourOutput K m ⟨k,x.2⟩ = none := by rw [hout, Option.filter_some, if_neg hmine]
        rw [if_neg (by simp [hown]), hrest, isOwn, if_neg hmine, Int.zero_add]
    · rw [if_neg hspent, if_neg (by simp [hspent]), hrest]

theorem unspent_value {k : Uint256} (hk : m.lookup k = some wtx) :
    valueOf (isOwn K) (unspentOuts wtx) =
      valueOf (isOwn K) wtx.tx.vout-((flagged K m k).map (valueAt K m)).sum := by
  have hpoints : outpoints k wtx.tx = wtx.tx.vout.zipIdx.map fun x => (⟨k,x.2⟩ : COutPoint) := by
    rw [outpoints, List.range_eq_range', ← List.zipIdx_map_snd 0 wtx.tx.vout, List.map_map]
    rfl
  have hflagged : ((flagged K m k).map (valueAt K m)).sum =
      valueOf (isOwn K) ((wtx.tx.vout.zipIdx.filter fun x => wtx.isSpent x.2).map Prod.fst) := by
    rw [flagged, hk]
    show (((outpoints k wtx.tx).filter _).map (valueAt K m)).sum = _
    rw [hpoints]
    exact flagged_at K m hk fun x hx => List.mem_zipIdx_iff_getElem?.mp hx
  have hdivided := value_divided (isOwn K) wtx.isSpent wtx.tx.vout.zipIdx
  rw [List.zipIdx_map_fst] at hdivided
  rw [hflagged, hdivided, unspentOuts]
  omega

def Scripted : Prop :=
  ∀ k wtx nDebit, m.lookup k = some wtx → getDebit K m wtx.tx = some nDebit → 0 < nDebit →
    ∀ o ∈ wtx.tx.vout, o.scriptPubKey = [] → o.nValue = 0

theorem amounts_value (hright : AllRight K m) (hempty : K.mine [] = false)
    (hscripted : Scripted K m) {k : Uint256} (hk : m.lookup k = some wtx)
    {a : Amounts CTxDestination} (h : getAmounts K A m k wtx = some a) :
    total a.listReceived-total a.listSent-a.nFee =
      valueOf (isOwn K) wtx.tx.vout-((spends K m k).map (valueAt K m)).sum := by
  have hread := (read_debit_faithful K m (hright k wtx hk)).value
  rw [getAmounts, hread] at h
  cases hdebit : getDebit K m wtx.tx with
  | none => simp [hdebit] at h
  | some nDebit =>
    rw [hdebit] at h
    dsimp only at h
    have hspends := debit_spends K m hk hdebit
    have hnonneg := sum_in_range_nonneg 0 nDebit le_rfl hdebit
    obtain ⟨hreceived,hsent⟩ := sorted_totals K A nDebit wtx.tx.vout
    rw [value_split (isOwn K) wtx.tx.vout fun o _ hscript hown => by
      simp [isOwn, hscript, hempty] at hown] at hreceived
    by_cases hpos : 0 < nDebit
    · rw [if_pos hpos] at h hsent
      rw [value_split (fun _ => true) wtx.tx.vout fun o ho hscript _ =>
        hscripted k wtx nDebit hk hdebit hpos o ho hscript, value_all] at hsent
      cases hvalue : wtx.tx.getValueOut with
      | error e => simp [hvalue] at h
      | ok nValueOut =>
        rw [hvalue] at h
        cases h
        have hout := BlockValues.value_out_ok hvalue
        rw [BlockValues.outTotal] at hout
        dsimp only
        rw [hreceived, hsent]
        omega
    · rw [if_neg hpos] at h hsent
      cases h
      dsimp only
      rw [hreceived, hsent]
      omega

end Turns

section Agreement
variable (K : Keys) (A : AccountView CTxDestination) (m : MapWallet) (V : BalanceView) (env : Env)
variable (nMinDepth : ℤ)

def Valued (m : MapWallet) : Prop :=
  ∀ k wtx, m.lookup k = some wtx → ∃ nValueOut, wtx.tx.getValueOut = .ok nValueOut

theorem value_out_range {os : List CTxOut} (n : ℤ) {v : ℤ} (hn : moneyRange n = true)
    (h : valueOutFrom n os = .ok v) :
    (∀ o ∈ os, moneyRange o.nValue = true) ∧ moneyRange (n+(os.map CTxOut.nValue).sum) = true := by
  induction os generalizing n with
  | nil => exact ⟨nofun,by simpa using hn⟩
  | cons o os ih =>
    rw [valueOutFrom] at h
    split_ifs at h with hin
    rw [Bool.and_eq_true] at hin
    obtain ⟨hall,hsum⟩ := ih (n+o.nValue) hin.2 h
    rw [List.map_cons, List.sum_cons, ← Int.add_assoc]
    refine ⟨?_,hsum⟩
    intro x hx
    rcases List.mem_cons.mp hx with rfl | hx
    · exact hin.1
    · exact hall x hx

theorem sum_outs_some (counts : CScript → Bool) {os : List CTxOut} (n : ℤ) (hn : 0 ≤ n)
    (hos : ∀ o ∈ os, moneyRange o.nValue = true)
    (hsum : moneyRange (n+(os.map CTxOut.nValue).sum) = true) :
    ∃ v, sumOuts counts n os = some v := by
  induction os generalizing n with
  | nil => exact ⟨n,rfl⟩
  | cons o os ih =>
    have ho := hos o List.mem_cons_self
    have hrest : 0 ≤ (os.map CTxOut.nValue).sum := by
      apply List.sum_nonneg
      intro x hx
      obtain ⟨y,hy,rfl⟩ := List.mem_map.mp hx
      have hin := hos y (List.mem_cons_of_mem o hy)
      simp only [moneyRange, Bool.and_eq_true, decide_eq_true_eq] at hin
      exact hin.1
    rw [List.map_cons, List.sum_cons] at hsum
    simp only [moneyRange, Bool.and_eq_true, decide_eq_true_eq] at ho hsum
    have hnext : moneyRange (n+if counts o.scriptPubKey then o.nValue else 0) = true := by
      simp only [moneyRange, Bool.and_eq_true, decide_eq_true_eq]
      split_ifs <;> omega
    have hlast : moneyRange (n+(if counts o.scriptPubKey then o.nValue else 0)+
        (os.map CTxOut.nValue).sum) = true := by
      simp only [moneyRange, Bool.and_eq_true, decide_eq_true_eq] at hnext ⊢
      split_ifs at hnext ⊢ <;> omega
    rw [sumOuts, hos o List.mem_cons_self, hnext]
    apply ih _ _ (fun x hx => hos x (List.mem_cons_of_mem o hx)) hlast
    simp only [moneyRange, Bool.and_eq_true, decide_eq_true_eq] at hnext
    exact hnext.1

theorem available_some {wtx : CWalletTx} {nValueOut : ℤ} (h : wtx.tx.getValueOut = .ok nValueOut) :
    availableCredit K wtx = some (valueOf (isOwn K) (unspentOuts wtx)) := by
  obtain ⟨hrange,hsum⟩ := value_out_range 0 (by decide) h
  have hsub : (unspentOuts wtx).Sublist wtx.tx.vout := by
    have hmap := (List.filter_sublist (p := fun x => !wtx.isSpent x.2) (l := wtx.tx.vout.zipIdx)).map Prod.fst
    rwa [List.zipIdx_map_fst] at hmap
  have hnonneg : ∀ os : List CTxOut, (∀ o ∈ os, o ∈ wtx.tx.vout) → 0 ≤ (os.map CTxOut.nValue).sum := by
    intro os hos
    apply List.sum_nonneg
    intro x hx
    obtain ⟨o,ho,rfl⟩ := List.mem_map.mp hx
    have hin := hrange o (hos o ho)
    simp only [moneyRange, Bool.and_eq_true, decide_eq_true_eq] at hin
    exact hin.1
  have hpart : moneyRange (0+((unspentOuts wtx).map CTxOut.nValue).sum) = true := by
    have hdivided := value_divided (fun _ => true) wtx.isSpent wtx.tx.vout.zipIdx
    rw [List.zipIdx_map_fst, value_all, value_all, value_all] at hdivided
    have hunspent := hnonneg (unspentOuts wtx) fun o ho => hsub.subset ho
    have hspent := hnonneg ((wtx.tx.vout.zipIdx.filter fun x => wtx.isSpent x.2).map Prod.fst) fun o ho => by
      obtain ⟨x,hx,rfl⟩ := List.mem_map.mp ho
      exact List.fst_mem_of_mem_zipIdx (List.mem_filter.mp hx).1
    rw [unspentOuts] at hunspent ⊢
    simp only [moneyRange, Bool.and_eq_true, decide_eq_true_eq] at hsum ⊢
    omega
  obtain ⟨v,hv⟩ := sum_outs_some K.mine 0 le_rfl
    (fun o ho => hrange o (hsub.subset ho)) hpart
  rw [availableCredit, hv, sum_outs_value K 0 v hv, Int.zero_add]

def paid (k : Uint256) : ℤ := ((m.lookup k).map fun wtx => valueOf (isOwn K) wtx.tx.vout).getD 0

theorem fresh_settled (hset : Settled V nMinDepth m) (hvalued : Valued m) (k : Uint256) (hk : k ∈ walletKeys m) :
    freshBalanceOf V env K k m = some (paid K m k-((flagged K m k).map (valueAt K m)).sum) := by
  obtain ⟨wtx,hwtx⟩ := (mem_wallet_keys m k).mp hk
  obtain ⟨nValueOut,hout⟩ := hvalued k wtx hwtx
  have htrusted : freshTrusted V env K m wtx.tx = some true := by
    rw [freshTrusted, hset.final k wtx hwtx]
    exact if_pos (hset.confirmed k wtx hwtx)
  have hmature : immature V wtx.tx = false := by
    rw [immature, hset.mature k wtx hwtx]
    simp
  have hpaid : paid K m k = valueOf (isOwn K) wtx.tx.vout := by
    rw [paid, hwtx]
    rfl
  simp only [freshBalanceOf, hwtx, htrusted, hmature]
  rw [hpaid, ← unspent_value K m hwtx]
  exact available_some K hout

theorem fresh_sum_tally (ks : List Uint256) (n : ℤ) :
    freshSum V env K m ks n = tally (fun k => freshBalanceOf V env K k m) ks n := by
  induction ks generalizing n with
  | nil => rfl
  | cons k ks ih =>
    rw [freshSum, tally]
    cases freshBalanceOf V env K k m with
    | none => rfl
    | some x => exact ih (n+x)

theorem sum_less (g : Uint256 → List COutPoint) (f : COutPoint → ℤ) (p : Uint256 → ℤ) (ks : List Uint256) :
    (ks.map fun k => p k-((g k).map f).sum).sum = (ks.map p).sum-((ks.flatMap g).map f).sum := by
  induction ks with
  | nil => rfl
  | cons k ks ih =>
    rw [List.map_cons, List.sum_cons, ih, List.map_cons, List.sum_cons, List.flatMap_cons, List.map_append,
      List.sum_append]
    omega

/-- Where every own output is spent by one input, the outputs that are not spent hold what all
transactions together brought in. -/
theorem balance_agrees (hset : Settled V nMinDepth m) (hright : AllRight K m)
    (hempty : K.mine [] = false) (hscripted : Scripted K m) (hvalued : Valued m)
    (hspent : SpentOnce K m) {n : ℤ} (hall : getBalanceAll K A m V nMinDepth env = some n) :
    (getBalance V env K m).1 = some n := by
  rcases tally_cases (allTurn K A m V nMinDepth env) (walletKeys m) with ⟨f,hf⟩ | hnone
  · have hturn : ∀ k ∈ walletKeys m, f k = paid K m k-((spends K m k).map (valueAt K m)).sum := by
      intro k hk
      obtain ⟨wtx,hwtx⟩ := (mem_wallet_keys m k).mp hk
      have hfk := hf k hk
      rw [all_turn K A m V env hset hwtx] at hfk
      obtain ⟨a,ha,hsum⟩ := Option.map_eq_some_iff.mp hfk
      rw [← hsum, amounts_value K A m hright hempty hscripted hwtx ha, paid, hwtx]
      rfl
    have hn : n = ((walletKeys m).map f).sum := by
      rw [getBalanceAll, tally_some _ f hf, Int.zero_add] at hall
      exact (Option.some.inj hall).symm
    have hfresh := fun k hk => fresh_settled K m V env nMinDepth hset hvalued k hk
    rw [getBalance, (sum_balance_fresh V env K _ 0 m hright).1, fresh_sum_tally,
      tally_some _ _ hfresh, Int.zero_add, hn, List.map_congr_left hturn, sum_less, sum_less,
      ((flagged_perm K m hspent).map (valueAt K m)).sum_eq]
  · rw [getBalanceAll, tally_none _ hnone] at hall
    cases hall

/-- A move that is carried out and written moves its amount from one balance to the other. -/
theorem move_balance {mv : Move} {entries entries' : List CAccountingEntry} (hc : mv.Complete)
    (h : movecmd mv entries = some entries') (s : String) :
    getAccountBalance K A m V nMinDepth s entries' =
      (getAccountBalance K A m V nMinDepth s entries).map
        (·+((if s = mv.strTo then mv.nAmount else 0)-(if s = mv.strFrom then mv.nAmount else 0))) := by
  rw [getAccountBalance, getAccountBalance, Option.map_map, move_credit hc h s]
  congr 1
  funext x
  exact (Int.add_assoc x _ _).symm

/-- The balances of all accounts, those of accounting entries among them, add up to the balance of
the wallet, behind any history of moves. -/
theorem accounts_agree (mvs : List Move) (names : Finset String) (hset : Settled V nMinDepth m)
    (hc : ∀ mv ∈ mvs, mv.Complete) (hnames : Named A m (played mvs []) names) :
    (∀ n, getBalanceAll K A m V nMinDepth env = some n →
      ∃ b : String → ℤ,
        (∀ s, getAccountBalance K A m V nMinDepth s (played mvs []) = some (b s)) ∧
          ∑ s ∈ names, b s = n) ∧
    (getBalanceAll K A m V nMinDepth env = none →
      ∀ s, getAccountBalance K A m V nMinDepth s (played mvs []) = none) ∧
    (AllRight K m → K.mine [] = false → Scripted K m → Valued m → SpentOnce K m →
      ∀ n, getBalanceAll K A m V nMinDepth env = some n → (getBalance V env K m).1 = some n) ∧
    ∀ mv entries', mv.Complete → movecmd mv (played mvs []) = some entries' →
      ∀ s, getAccountBalance K A m V nMinDepth s entries' =
        (getAccountBalance K A m V nMinDepth s (played mvs [])).map
          (·+((if s = mv.strTo then mv.nAmount else 0)-(if s = mv.strFrom then mv.nAmount else 0))) := by
  have hb : Balanced (played mvs []) := played_balanced hc ⟨rfl,nofun⟩
  refine ⟨?_,?_,?_,?_⟩
  · intro n hall
    exact accounts_sum K A m V env hset hnames hb hall
  · intro hall s
    exact accounts_throw K A m V env hset _ s hall
  · intro hright hempty hscripted hvalued hspent n hall
    exact balance_agrees K A m V env nMinDepth hset hright hempty hscripted hvalued hspent hall
  · intro mv entries' hmv hmove s
    exact move_balance K A m V nMinDepth hmv hmove s

end Agreement

section Samples

def sampleAccounts : AccountView CScript := ⟨id,fun _ => none,fun _ => ""⟩

def sampleDepths : BalanceView := ⟨fun _ => true,fun _ => 1,fun _ => 0,false,fun _ => [],0⟩

def sampleChange : CTransaction := ⟨1,2,[⟨⟨1,0⟩,[],0⟩],[⟨4*coin,[1]⟩,⟨5*coin,[2]⟩],0⟩

def paymentRecord : CWalletTx := ⟨WalletSpent.samplePayment,0,[true],none,none,none,none⟩
def changeRecord : CWalletTx := ⟨sampleChange,0,[],none,none,none,none⟩

def sampleWallet : MapWallet := ((∅ : MapWallet).insert 2 changeRecord).insert 1 paymentRecord

def sampleMove : Move := ⟨"","savings",coin,⟨true,true,true,true⟩⟩

theorem sample_records {k : Uint256} {wtx : CWalletTx} (h : sampleWallet.lookup k = some wtx) :
    (k = 2 ∧ wtx = changeRecord) ∨ (k = 1 ∧ wtx = paymentRecord) := by
  rw [sampleWallet, lookup_insert_if] at h
  by_cases hone : k = 1
  · rw [if_pos hone] at h
    exact Or.inr ⟨hone,(Option.some.inj h).symm⟩
  · rw [if_neg hone, lookup_insert_if] at h
    by_cases htwo : k = 2
    · rw [if_pos htwo] at h
      exact Or.inl ⟨htwo,(Option.some.inj h).symm⟩
    · rw [if_neg htwo] at h
      cases h

theorem sample_keys : walletKeys sampleWallet = [1,2] := List.mergeSort_of_pairwise (by decide)

/-- A coin is moved to an account, and the two balances still add up to what is unspent. -/
theorem savings_moved :
    (∃ b : String → ℤ,
      (∀ s, getAccountBalance WalletSpent.sampleKeys sampleAccounts sampleWallet sampleDepths 1 s
          (played [sampleMove] []) = some (b s)) ∧
        ∑ s ∈ {"","savings"}, b s = 4*coin) ∧
    (getBalance sampleDepths sampleEnv WalletSpent.sampleKeys sampleWallet).1 = some (4*coin) := by
  have hset : Settled sampleDepths 1 sampleWallet :=
    ⟨fun _ _ _ => rfl,fun _ _ _ => le_rfl,fun _ _ _ => le_rfl,fun _ _ _ => rfl⟩
  have hnames : Named sampleAccounts sampleWallet (played [sampleMove] []) {"","savings"} :=
    ⟨by decide,nofun,fun _ _ => Finset.mem_insert_self _ _,by decide⟩
  have hc : ∀ mv ∈ [sampleMove], mv.Complete := by
    intro mv hmv
    rw [List.mem_singleton.mp hmv]
    exact ⟨rfl,rfl⟩
  have hall : getBalanceAll WalletSpent.sampleKeys sampleAccounts sampleWallet sampleDepths 1 sampleEnv =
      some (4*coin) := by
    rw [getBalanceAll, sample_keys]
    decide +kernel
  obtain ⟨hsum,-,hunspent,-⟩ := accounts_agree WalletSpent.sampleKeys sampleAccounts sampleWallet
    sampleDepths sampleEnv 1 [sampleMove] {"","savings"} hset hc hnames
  refine ⟨hsum _ hall,hunspent ?_ rfl ?_ ?_ ?_ _ hall⟩
  · intro k wtx hk
    rcases sample_records hk with ⟨-,rfl⟩ | ⟨-,rfl⟩
    · refine ⟨?_,?_,?_,?_⟩ <;> intro n hn <;> cases hn
    · refine ⟨?_,?_,?_,?_⟩ <;> intro n hn <;> cases hn
  · intro k wtx nDebit hk _ _
    rcases sample_records hk with ⟨-,rfl⟩ | ⟨-,rfl⟩
    · decide
    · decide
  · intro k wtx hk
    rcases sample_records hk with ⟨-,rfl⟩ | ⟨-,rfl⟩
    · exact ⟨9*coin,rfl⟩
    · exact ⟨10*coin,rfl⟩
  · constructor
    · rw [sample_keys]
      decide +kernel
    · intro k wtx n hk hown
      obtain ⟨_,out,hlookup,hout⟩ := own_output _ _ hown
      rw [hk] at hlookup
      obtain rfl := Option.some.inj hlookup
      have hspends : (∃ j wtx', sampleWallet.lookup j = some wtx' ∧
          (⟨k,n⟩ : COutPoint) ∈ wtx'.tx.prevouts) ↔ (⟨k,n⟩ : COutPoint) = ⟨1,0⟩ ∨ (⟨k,n⟩ : COutPoint) = ⟨9,0⟩ := by
        constructor
        · rintro ⟨j,wtx',hj,hmem⟩
          rcases sample_records hj with ⟨-,rfl⟩ | ⟨-,rfl⟩
          · exact Or.inl (List.mem_singleton.mp hmem)
          · exact Or.inr (List.mem_singleton.mp hmem)
        · rintro (ho | ho)
          · exact ⟨2,changeRecord,by decide +kernel,List.mem_singleton.mpr ho⟩
          · exact ⟨1,paymentRecord,by decide +kernel,List.mem_singleton.mpr ho⟩
      rw [hspends]
      rcases sample_records hk with ⟨rfl,rfl⟩ | ⟨rfl,rfl⟩
      · simp [changeRecord, CWalletTx.isSpent]
      · have hn : n < 1 := (List.getElem?_eq_some_iff.mp hout).1
        obtain rfl : n = 0 := by omega
        decide

/-- An account that only a move names is not among the labels and the sending accounts. -/
theorem moved_to_unlabelled :
    ¬ ∀ (K : Keys) (A : AccountView CScript) (m : MapWallet) (V : BalanceView) (env : Env) (nMinDepth : ℤ)
        (mvs : List Move) (names : Finset String),
      Settled V nMinDepth m → (∀ mv ∈ mvs, mv.Complete) →
      (∀ s, s ∈ names ↔ s = "" ∨ (∃ d, A.mapAddressBook d = some s) ∨ ∃ k ∈ m, A.strFromAccount k = s) →
      ∀ (n : ℤ) (b : String → ℤ), getBalanceAll K A m V nMinDepth env = some n →
        (∀ s, getAccountBalance K A m V nMinDepth s (played mvs []) = some (b s)) →
        ∑ s ∈ names, b s = n := by
  intro h
  have hkeys : walletKeys ∅ = [] := List.mergeSort_nil
  have hwrong := h WalletSpent.sampleKeys sampleAccounts ∅ sampleDepths sampleEnv 1 [sampleMove] {""}
    ⟨fun _ _ _ => rfl,fun _ _ _ => le_rfl,fun _ _ _ => le_rfl,fun _ _ _ => rfl⟩
    (by
      intro mv hmv
      rw [List.mem_singleton.mp hmv]
      exact ⟨rfl,rfl⟩)
    (by
      intro s
      rw [Finset.mem_singleton]
      constructor
      · exact Or.inl
      · rintro (hs | ⟨d,hd⟩ | ⟨k,hk,-⟩)
        · exact hs
        · cases hd
        · exact absurd hk (AList.notMem_empty k))
    0 (fun s => 0+getAccountCreditDebit s (played [sampleMove] []))
    (by rw [getBalanceAll, hkeys, tally])
    (fun s => by rw [getAccountBalance, hkeys, tally, Option.map_some])
  revert hwrong
  decide +kernel

end Samples

end SwippCore.BalanceAgreement
