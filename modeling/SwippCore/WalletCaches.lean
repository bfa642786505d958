import SwippCore.WalletBalance
import SwippCore.WalletSpent

/-!
# The cached amounts over a run

A cached amount is forgotten when its own transaction is added again or one of its
flags changes. A debit also rests on the transactions that are spent, and all
amounts rest on the keys and the address book, and of a change there only an import
tells the caches.
-/

set_option autoImplicit false

namespace SwippCore.WalletCaches
open FinMap CWallet WalletMarks WalletBalance Histories
open WalletSpent (WalletState stepInvolving)

/-- A report to the wallet, a change of its keys or its address book, an import that calls
`MarkDirty`, or a read that remembers what it computes. -/
inductive Event where
  | report (e : WalletSpent.Event)
  | keysChanged (keys : Keys)
  | imported (keys : Keys)
  | getDebit (k : Uint256)
  | getCredit (k : Uint256) (fImmature fUseCache : Bool)
  | getAvailableCredit (k : Uint256) (fImmature fUseCache : Bool)
  | getChange (k : Uint256)
  | getBalance (V : BalanceView)

section Step
variable (env : Env)

def readOne (k : Uint256) (read : CWalletTx → Reading) (s : WalletState) : WalletState :=
  match s.mapWallet.lookup k with
  | none => s
  | some wtx => { s with mapWallet := s.mapWallet.insert k (read wtx).2 }

def step (e : Event) (s : WalletState) : WalletState :=
  match e with
  | .report e => WalletSpent.step env e s
  | .keysChanged keys => { s with keys := keys }
  | .imported keys => { s with mapWallet := markAllDirty s.mapWallet, keys := keys }
  | .getDebit k => readOne k (readDebit s.keys s.mapWallet) s
  | .getCredit k fImmature fUseCache =>
    readOne k (fun wtx => readCredit s.keys wtx fImmature fUseCache) s
  | .getAvailableCredit k fImmature fUseCache =>
    readOne k (fun wtx => readAvailableCredit s.keys wtx fImmature fUseCache) s
  | .getChange k => readOne k (readChange s.keys) s
  | .getBalance V => { s with mapWallet := (WalletBalance.getBalance V env s.keys s.mapWallet).2 }

end Step

section Conditions
variable (env : Env) (K : Keys) (m : MapWallet)

def differs (counts counts' : CScript → Bool) (o : CTxOut) : Bool :=
  o.nValue != 0 && counts o.scriptPubKey != counts' o.scriptPubKey

def spentOuts (tx : CTransaction) : List CTxOut :=
  tx.prevouts.filterMap fun o => (m.lookup o.hash).bind fun prev => prev.tx.vout[o.n]?

def keysOk (K' : Keys) (wtx : CWalletTx) : Bool :=
  (wtx.nDebitCached.isNone || !(spentOuts m wtx.tx).any (differs K.mine K'.mine)) &&
    (wtx.nCreditCached.isNone || !wtx.tx.vout.any (differs K.mine K'.mine)) &&
    (wtx.nAvailableCreditCached.isNone || !(unspentOuts wtx).any (differs K.mine K'.mine)) &&
    (wtx.nChangeCached.isNone || !wtx.tx.vout.any (differs K.change K'.change))

def allKeysOk (K' : Keys) : Bool := m.entries.all fun x => keysOk K m K' x.2

def arrivalOk (tx : CTransaction) : Bool :=
  (m.lookup (env.hashTx tx)).isSome ||
    m.entries.all fun x => x.2.nDebitCached.isNone || x.2.tx.prevouts.all fun o =>
      o.hash != env.hashTx tx || !(tx.vout[o.n]?).any fun out =>
        K.mine out.scriptPubKey && out.nValue != 0

def involvingOk (found keys : Keys) (nMinimumInputValue : ℤ) (tx : CTransaction)
    (fUpdate : Bool) (s : WalletState) : Bool :=
  match involvement found env nMinimumInputValue tx fUpdate s.mapWallet with
  | .known => true
  | .throws => allKeysOk s.keys s.mapWallet found
  | .none => allKeysOk s.keys s.mapWallet found
  | .involved => allKeysOk s.keys s.mapWallet keys && arrivalOk env keys s.mapWallet tx

def stepOk (s : WalletState) : Event → Bool
  | .report (.commit _ keys wtxNew _) =>
    allKeysOk s.keys s.mapWallet keys && arrivalOk env keys s.mapWallet wtxNew.tx
  | .report (.involving _ found keys nMinimumInputValue tx _ fUpdate _) =>
    involvingOk env found keys nMinimumInputValue tx fUpdate s
  | .report (.sync _ found keys nMinimumInputValue tx _ fConnect _) =>
    !fConnect || involvingOk env found keys nMinimumInputValue tx true s
  | .keysChanged keys => allKeysOk s.keys s.mapWallet keys
  | _ => true

end Conditions

section Keys
variable (K K' : Keys) (m : MapWallet)

theorem counts_alike {counts counts' : CScript → Bool} {o : CTxOut}
    (h : differs counts counts' o = false) :
    (if counts' o.scriptPubKey then o.nValue else 0) =
      if counts o.scriptPubKey then o.nValue else 0 := by
  unfold differs at h
  by_cases h0 : o.nValue = 0
  · rw [h0, ite_self, ite_self]
  · have hc : counts o.scriptPubKey = counts' o.scriptPubKey := by simpa [h0] using h
    rw [hc]

theorem sum_outs_alike {counts counts' : CScript → Bool} {os : List CTxOut} (nTotal : ℤ)
    (h : os.any (differs counts counts') = false) :
    sumOuts counts' nTotal os = sumOuts counts nTotal os := by
  induction os generalizing nTotal with
  | nil => rfl
  | cons o os ih =>
    rw [List.any_cons, Bool.or_eq_false_iff] at h
    unfold sumOuts
    rw [counts_alike h.1]
    simp only [ih _ h.2]

theorem filtered_value (counts : CScript → Bool) (out : CTxOut) :
    (((some out).filter fun o => counts o.scriptPubKey).map CTxOut.nValue).getD 0 =
      if counts out.scriptPubKey then out.nValue else 0 := by
  cases hm : counts out.scriptPubKey <;> simp [Option.filter_some, hm]

theorem get_debit_alike {tx : CTransaction}
    (h : (spentOuts m tx).any (differs K.mine K'.mine) = false) :
    getDebit K' m tx = getDebit K m tx := by
  unfold getDebit
  congr 1
  refine List.map_congr_left ?_
  intro o ho
  unfold ourOutput
  cases hout : (m.lookup o.hash).bind fun prev => prev.tx.vout[o.n]? with
  | none => rfl
  | some out =>
    have hmem : out ∈ spentOuts m tx := List.mem_filterMap.mpr ⟨o,ho,hout⟩
    have hd : differs K.mine K'.mine out = false := by
      rw [← Bool.not_eq_true]
      intro hd
      exact absurd (List.any_eq_true.mpr ⟨out,hmem,hd⟩) (by rw [h]; decide)
    rw [filtered_value, filtered_value]
    exact counts_alike hd

theorem keys_right {wtx : CWalletTx} (hr : Right K m wtx) (h : keysOk K m K' wtx = true) :
    Right K' m wtx := by
  unfold keysOk at h
  simp only [Bool.and_eq_true, Bool.or_eq_true, Bool.not_eq_true', Option.isNone_iff_eq_none] at h
  obtain ⟨⟨⟨hd,hc⟩,ha⟩,hch⟩ := h
  refine ⟨?_,?_,?_,?_⟩
  · intro n hn
    rcases hd with hnone | hd
    · exact absurd (hnone.symm.trans hn) (by simp)
    · exact (get_debit_alike K K' m hd).trans (hr.debit n hn)
  · intro n hn
    rcases hc with hnone | hc
    · exact absurd (hnone.symm.trans hn) (by simp)
    · exact (sum_outs_alike 0 hc).trans (hr.credit n hn)
  · intro n hn
    rcases ha with hnone | ha
    · exact absurd (hnone.symm.trans hn) (by simp)
    · exact (sum_outs_alike 0 ha).trans (hr.available n hn)
  · intro n hn
    rcases hch with hnone | hch
    · exact absurd (hnone.symm.trans hn) (by simp)
    · exact (sum_outs_alike 0 hch).trans (hr.change n hn)

theorem all_keys_right (hall : AllRight K m) (h : allKeysOk K m K' = true) : AllRight K' m := by
  intro k wtx hw
  exact keys_right K K' m (hall k wtx hw)
    (List.all_eq_true.mp h ⟨k,wtx⟩ (AList.mem_lookup_iff.mp hw))

end Keys

section Marks
variable (K : Keys) (m : MapWallet)

theorem mem_unspent_outs (wtx wtx' : CWalletTx) (htx : wtx'.tx = wtx.tx)
    (hs : ∀ j, j < wtx.tx.vout.length → wtx'.isSpent j = wtx.isSpent j) :
    unspentOuts wtx' = unspentOuts wtx := by
  unfold unspentOuts
  rw [htx]
  congr 1
  refine List.filter_congr ?_
  intro x hx
  have hlt : x.2 < wtx.tx.vout.length :=
    (List.getElem?_eq_some_iff.mp (List.mem_zipIdx_iff_getElem?.mp hx)).1
  rw [hs x.2 hlt]

theorem mark_right {wtx wtx' : CWalletTx} {fSpent : Bool} {n : ℕ}
    (hm : wtx.mark fSpent n = some wtx') (hr : Right K m wtx) :
    wtx'.tx = wtx.tx ∧ Right K m wtx' := by
  have hn : n < wtx.tx.vout.length := by
    by_contra hge
    unfold CWalletTx.mark at hm
    rw [if_pos (Nat.not_lt.mp hge)] at hm
    cases hm
  obtain ⟨w,hw,htx,hs⟩ := mark_of_lt wtx fSpent n hn
  have hww : w = wtx' := Option.some.inj (hw.symm.trans hm)
  subst hww
  refine ⟨htx,?_⟩
  unfold CWalletTx.mark at hm
  rw [if_neg (Nat.not_le.mpr hn)] at hm
  split at hm
  · rename_i hsame
    cases hm
    refine ⟨hr.debit,hr.credit,?_,hr.change⟩
    intro j hj
    have hun := mem_unspent_outs wtx { wtx with vfSpent := wtx.resized } rfl (by
      intro i hi
      rw [hs i hi]
      split
      · rename_i hin
        rw [hin, hsame]
      · rfl)
    unfold availableCredit
    rw [hun]
    exact hr.available j hj
  · cases hm
    exact ⟨hr.debit,hr.credit,nofun,hr.change⟩

theorem update_spent_right {wtx : CWalletTx} (vfNewSpent : List Bool) (hr : Right K m wtx) :
    Right K m (wtx.updateSpent vfNewSpent) := by
  unfold CWalletTx.updateSpent
  dsimp only
  split
  · exact hr
  · exact ⟨hr.debit,hr.credit,nofun,hr.change⟩

theorem spend_ours_right (immature : CTransaction → Bool) (o : COutPoint) (m : MapWallet)
    (hall : AllRight K m) : AllRight K (spendOurs K immature o m) := by
  unfold spendOurs
  cases hw : m.lookup o.hash with
  | none => exact hall
  | some wtx =>
    dsimp only
    split
    · have hread := read_credit_faithful K m (immature wtx.tx) true (hall _ _ hw)
      cases hm : (readCredit K wtx (immature wtx.tx) true).2.markSpent o.n with
      | none => exact hall
      | some wtx' =>
        obtain ⟨htx,hr⟩ := mark_right K m hm hread.right
        exact insert_same_right K m hall hw (htx.trans (tx_of_dirty hread.same)) hr
    · exact hall

theorem refund_ours_right (o : COutPoint) (m : MapWallet) (hall : AllRight K m) :
    AllRight K (refundOurs K o m) := by
  unfold refundOurs
  cases hw : m.lookup o.hash with
  | none => exact hall
  | some wtx =>
    dsimp only
    split
    · cases hm : wtx.markUnspent o.n with
      | none => exact hall
      | some wtx' =>
        obtain ⟨htx,hr⟩ := mark_right K m hm (hall _ _ hw)
        exact insert_same_right K m hall hw htx hr
    · exact hall

theorem for_each_right {turn : COutPoint → MapWallet → MapWallet}
    (h : ∀ o m, AllRight K m → AllRight K (turn o m)) (os : List COutPoint) (m : MapWallet)
    (hall : AllRight K m) : AllRight K (forEach turn os m) := by
  induction os generalizing m with
  | nil => exact hall
  | cons o os ih => exact ih _ (h o m hall)

theorem wallet_update_spent_right (immature : CTransaction → Bool) (hash : Uint256)
    (tx : CTransaction) (fBlock : Bool) (hall : AllRight K m) :
    AllRight K (walletUpdateSpent K immature hash tx fBlock m) := by
  have hset := for_each_right K (spend_ours_right K immature) tx.prevouts m hall
  unfold walletUpdateSpent
  cases fBlock with
  | false => exact hset
  | true => exact for_each_right K (refund_ours_right K) _ _ hset

theorem insert_new_right {k : Uint256} {wtx' : CWalletTx} (hall : AllRight K m)
    (hr : Right K (m.insert k wtx') wtx')
    (hdebit : ∀ j w, m.lookup j = some w → w.nDebitCached ≠ none →
      getDebit K (m.insert k wtx') w.tx = getDebit K m w.tx) :
    AllRight K (m.insert k wtx') := by
  intro j w hj
  rw [lookup_insert_if] at hj
  by_cases hjk : j = k
  · rw [if_pos hjk] at hj
    cases hj
    exact hr
  · rw [if_neg hjk] at hj
    have hold := hall j w hj
    refine ⟨?_,hold.credit,hold.available,hold.change⟩
    intro n hn
    exact (hdebit j w hj (by rw [hn]; nofun)).trans (hold.debit n hn)

end Marks

section Arrivals
variable (env : Env) (K : Keys) (m : MapWallet)

theorem debit_before_arrival {wtxIn : CWalletTx} (hm : m.lookup (env.hashTx wtxIn.tx) = none)
    (h : arrivalOk env K m wtxIn.tx = true) (k : Uint256) (w : CWalletTx) (hw : m.lookup k = some w)
    (hc : w.nDebitCached ≠ none) :
    getDebit K (m.insert (env.hashTx wtxIn.tx) wtxIn.markDirty) w.tx = getDebit K m w.tx := by
  unfold arrivalOk at h
  rw [hm] at h
  simp only [Option.isSome_none, Bool.false_or, List.all_eq_true] at h
  have hentry := h ⟨k,w⟩ (AList.mem_lookup_iff.mp hw)
  have hnone : w.nDebitCached.isNone = false := by
    rw [← Bool.not_eq_true, Option.isNone_iff_eq_none]
    exact hc
  simp only [hnone, Bool.false_or, List.all_eq_true] at hentry
  unfold getDebit
  congr 1
  refine List.map_congr_left ?_
  intro o ho
  have hspent := hentry o ho
  unfold ourOutput
  rw [lookup_insert_if]
  by_cases hh : o.hash = env.hashTx wtxIn.tx
  · rw [if_pos hh, hh, hm, Option.bind_none, Option.filter_none, Option.bind_some]
    change ((wtxIn.tx.vout[o.n]?.filter _).map CTxOut.nValue).getD 0 = 0
    cases hout : wtxIn.tx.vout[o.n]? with
    | none => rfl
    | some out =>
      rw [filtered_value]
      simp only [hh, hout, bne_self_eq_false, Bool.false_or, Option.any_some, Bool.not_eq_true',
        Bool.and_eq_false_iff] at hspent
      rcases hspent with hmine | hzero
      · rw [hmine]
        rfl
      · have h0 : out.nValue = 0 := by simpa using hzero
        rw [h0, ite_self]
  · rw [if_neg hh]

theorem add_to_wallet_right (immature : CTransaction → Bool) {wtxIn : CWalletTx} (fWritten : Bool)
    (hall : AllRight K m) (h : arrivalOk env K m wtxIn.tx = true) :
    AllRight K (addToWallet K env immature wtxIn fWritten m) := by
  have hins : AllRight K (m.insert (env.hashTx wtxIn.tx)
      (insertOrMerge (env.hashTx wtxIn.tx) wtxIn m)) := by
    cases hm : m.lookup (env.hashTx wtxIn.tx) with
    | none =>
      rw [insert_or_merge_new m wtxIn hm]
      exact insert_new_right K m hall (mark_dirty_right K _ wtxIn)
        (debit_before_arrival env K m hm h)
    | some wtx =>
      have hr : Right K m (insertOrMerge (env.hashTx wtxIn.tx) wtxIn m) := by
        unfold insertOrMerge
        rw [hm]
        exact update_spent_right K m _ ⟨nofun,nofun,nofun,nofun⟩
      exact insert_same_right K m hall hm (insert_or_merge_old m wtxIn hm).1 hr
  unfold addToWallet
  cases fWritten with
  | false => exact hins
  | true => exact wallet_update_spent_right K _ immature _ _ _ hins

theorem create_right {k : Uint256} (hall : AllRight K m) (hm : m.lookup k = none) :
    AllRight K (m.insert k .empty) := by
  refine insert_new_right K m hall (mark_dirty_right K _ CWalletTx.empty) ?_
  intro j w _ _
  unfold getDebit
  congr 1
  refine List.map_congr_left ?_
  intro o _
  unfold ourOutput
  rw [lookup_insert_if]
  by_cases hh : o.hash = k
  · rw [if_pos hh, hh, hm]
    rfl
  · rw [if_neg hh]

theorem commit_spent_right (os : List COutPoint) (m : MapWallet) (hall : AllRight K m) :
    AllRight K (commitSpent os m) := by
  induction os generalizing m with
  | nil => exact hall
  | cons o os ih =>
    unfold commitSpent getDefault
    cases hm : m.lookup o.hash with
    | none =>
      have hmake := create_right K m hall hm
      simp only [empty_throws]
      exact insert_same_right K _ hmake (AList.lookup_insert _) rfl
        (mark_dirty_right K _ _)
    | some wtx =>
      dsimp only
      cases hmark : wtx.markDirty.markSpent o.n with
      | none => exact insert_same_right K m hall hm rfl (mark_dirty_right K _ _)
      | some coin =>
        obtain ⟨htx,hr⟩ := mark_right K m hmark
          (mark_dirty_right K m wtx)
        exact ih _ (insert_same_right K m hall hm htx hr)

end Arrivals

section Steps
variable (env : Env)

variable {s : WalletState}

theorem involving_right (immature : CTransaction → Bool) {found keys : Keys} {nMinimumInputValue : ℤ} {tx : CTransaction}
    (pblock : Uint256) {fUpdate : Bool} (fWritten : Bool) (hall : AllRight s.keys s.mapWallet)
    (h : involvingOk env found keys nMinimumInputValue tx fUpdate s = true) :
    let s' := stepInvolving env immature found keys nMinimumInputValue tx pblock fUpdate fWritten s
    AllRight s'.keys s'.mapWallet := by
  unfold involvingOk at h
  unfold stepInvolving addToWalletIfInvolvingMe
  cases hinv : involvement found env nMinimumInputValue tx fUpdate s.mapWallet with
  | known => exact hall
  | throws =>
    simp only [hinv] at h ⊢
    exact all_keys_right _ _ _ hall h
  | none =>
    simp only [hinv] at h ⊢
    exact wallet_update_spent_right found _ immature _ tx false (all_keys_right _ _ _ hall h)
  | involved =>
    simp only [hinv, Bool.and_eq_true] at h ⊢
    exact add_to_wallet_right env keys _ immature fWritten
      (all_keys_right _ _ _ hall h.1) h.2

theorem report_right {e : WalletSpent.Event} (hall : AllRight s.keys s.mapWallet)
    (h : stepOk env s (.report e) = true) :
    AllRight (WalletSpent.step env e s).keys (WalletSpent.step env e s).mapWallet := by
  cases e with
  | commit immature keys wtxNew fWritten =>
    simp only [stepOk, Bool.and_eq_true] at h
    exact commit_spent_right keys _ _
      (add_to_wallet_right env keys _ immature fWritten (all_keys_right _ _ _ hall h.1) h.2)
  | involving immature found keys nMinimumInputValue tx pblock fUpdate fWritten =>
    exact involving_right env immature pblock fWritten hall h
  | sync immature found keys nMinimumInputValue tx pblock fConnect fWritten =>
    cases fConnect with
    | true =>
      simp only [stepOk, Bool.not_true, Bool.false_or] at h
      exact involving_right env immature pblock fWritten hall h
    | false =>
      change AllRight s.keys (disableTransaction s.keys tx s.mapWallet)
      unfold disableTransaction
      split
      · exact for_each_right s.keys (refund_ours_right s.keys) _ _ hall
      · exact hall

theorem read_one_right (k : Uint256) (read : CWalletTx → Reading)
    (amount : CWalletTx → Option ℤ) (hall : AllRight s.keys s.mapWallet)
    (hf : ∀ wtx, Right s.keys s.mapWallet wtx →
      Faithful s.keys s.mapWallet wtx (amount wtx) (read wtx)) :
    AllRight (readOne k read s).keys (readOne k read s).mapWallet := by
  unfold readOne
  cases hw : s.mapWallet.lookup k with
  | none => exact hall
  | some wtx => exact (store_read _ _ _ _ hall hw (hf wtx (hall k wtx hw))).2

theorem step_right (e : Event) (s : WalletState) (hall : AllRight s.keys s.mapWallet)
    (h : stepOk env s e = true) : AllRight (step env e s).keys (step env e s).mapWallet := by
  cases e with
  | report e => exact report_right env hall h
  | keysChanged keys => exact all_keys_right _ _ _ hall h
  | imported keys => exact mark_all_dirty_right keys _
  | getDebit k => exact read_one_right k _ _ hall (fun w hr => read_debit_faithful _ _ hr)
  | getCredit k fImmature fUseCache =>
    exact read_one_right k _ _ hall (fun w hr => read_credit_faithful _ _ fImmature fUseCache hr)
  | getAvailableCredit k fImmature fUseCache =>
    exact read_one_right k _ _ hall
      (fun w hr => read_available_faithful _ _ fImmature fUseCache hr)
  | getChange k => exact read_one_right k _ _ hall (fun w hr => read_change_faithful _ _ hr)
  | getBalance V => exact (sum_balance_fresh V env s.keys _ 0 s.mapWallet hall).2.2

/-- Every remembered amount is the one that is computed now, and the balance is the one of the
wallet that remembers nothing. -/
structure Exact (s : WalletState) : Prop where
  right : AllRight s.keys s.mapWallet
  balance : ∀ V, (getBalance V env s.keys s.mapWallet).1 =
    (getBalance V env s.keys (markAllDirty s.mapWallet)).1

abbrev RunOk (keys : Keys) (es : List Event) : Prop :=
  Along (step env) (fun s e => stepOk env s e = true) es (.start keys)

/-- In a run whose events all meet the condition the caches are exact in every state. -/
theorem cached_amounts_exact (keys : Keys) (es : List Event) (h : RunOk env keys es) :
    Throughout (step env) (fun _ s => Exact env s) es (.start keys) := by
  have hinv := throughout_of_along (step env) (fun s => AllRight s.keys s.mapWallet)
    (step_right env) (.start keys)
    (fun k w hw => (by cases hw)) h
  intro pre hpre
  exact ⟨hinv pre hpre,fun V => balance_without_caches V env _ (hinv pre hpre)⟩

end Steps

section Samples
open WalletSpent (sampleKeys samplePayment sampleSpend received)

def sampleChild : CTransaction := ⟨1,3,[⟨⟨1,0⟩,[],0⟩],[⟨4*coin,[1]⟩,⟨5*coin,[2]⟩],0⟩

def childSeen : Event := .report (.involving (fun _ => false) sampleKeys sampleKeys 0 sampleChild 0 true true)

/-- The payment arrives first, then its child, and the amounts are read. -/
theorem parent_first :
    RunOk sampleEnv sampleKeys
        [.report (received 5),childSeen,.getDebit 3,.getCredit 3 false true,.getChange 3] ∧
      Throughout (step sampleEnv) (fun _ s => Exact sampleEnv s)
        [.report (received 5),childSeen,.getDebit 3,.getCredit 3 false true,.getChange 3]
        (.start sampleKeys) := by
  have h : RunOk sampleEnv sampleKeys
      [.report (received 5),childSeen,.getDebit 3,.getCredit 3 false true,.getChange 3] := by
    decide +kernel
  exact ⟨h,cached_amounts_exact sampleEnv sampleKeys _ h⟩

/-- The child arrives first and its debit is read: it stays at zero when the payment arrives. -/
theorem child_first :
    ¬ ∀ (env : Env) (keys : Keys) (es : List Event),
      Throughout (step env) (fun _ s => Exact env s) es (.start keys) := by
  intro h
  have hs := (h sampleEnv sampleKeys [childSeen,.getDebit 3,.report (received 5)] _
    (List.prefix_refl _)).right
  have hstale : ((deliver (step sampleEnv) [childSeen,.getDebit 3,.report (received 5)]
      (.start sampleKeys)).mapWallet.lookup 3).any (fun wtx => wtx.nDebitCached == some 0 &&
        getDebit sampleKeys (deliver (step sampleEnv) [childSeen,.getDebit 3,.report (received 5)]
          (.start sampleKeys)).mapWallet wtx.tx == some (10*coin)) = true := by
    decide +kernel
  obtain ⟨wtx,hw,hv⟩ := (Option.any_eq_true _ _).mp hstale
  simp only [Bool.and_eq_true, beq_iff_eq] at hv
  exact absurd (((hs 3 wtx hw).debit 0 hv.1).symm.trans hv.2) (by decide)

end Samples

end SwippCore.WalletCaches
