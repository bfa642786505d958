import SwippCore.CoinOrigin

/-!
# The spent flags of the wallet over a run

An output of ours that a transaction of the wallet spends should be flagged. The
flags are set when the spender arrives, and they are cleared for a transaction that
comes with a block and for the coins of a disconnected coin stake. A run keeps the
flags right as long as nothing that is cleared, added or recognised late is spent.
-/

set_option autoImplicit false

namespace SwippCore.WalletSpent
open FinMap CWallet AvailableCoins WalletMarks Histories

structure WalletState where
  mapWallet : MapWallet
  keys : Keys
  disconnected : List Uint256

def WalletState.start (keys : Keys) : WalletState := ⟨∅,keys,[]⟩

/-- A report to the wallet. The keys are those behind `FindStealthTransactions` and those
behind the key pool; `immature` are the coin bases and coin stakes that are not deep enough. -/
inductive Event where
  | commit (immature : CTransaction → Bool) (keys : Keys) (wtxNew : CWalletTx) (fWritten : Bool)
  | involving (immature : CTransaction → Bool) (found keys : Keys) (nMinimumInputValue : ℤ)
      (tx : CTransaction) (pblock : Uint256) (fUpdate fWritten : Bool)
  | sync (immature : CTransaction → Bool) (found keys : Keys) (nMinimumInputValue : ℤ)
      (tx : CTransaction) (pblock : Uint256) (fConnect fWritten : Bool)

section Step
variable (env : Env)

def stepInvolving (immature : CTransaction → Bool) (found keys : Keys) (nMinimumInputValue : ℤ)
    (tx : CTransaction) (pblock : Uint256) (fUpdate fWritten : Bool) (s : WalletState) :
    WalletState :=
  let m := addToWalletIfInvolvingMe found env immature nMinimumInputValue keys tx pblock fUpdate
    fWritten s.mapWallet
  match involvement found env nMinimumInputValue tx fUpdate s.mapWallet with
  | .known => s
  | .throws => ⟨m,found,s.disconnected⟩
  | .none => ⟨m,found,s.disconnected⟩
  | .involved => ⟨m,keys,without s.disconnected (env.hashTx tx)⟩

/-- `SyncTransaction` for a block that is disconnected. -/
def stepDisconnect (tx : CTransaction) (s : WalletState) : WalletState :=
  { s with
    mapWallet := disableTransaction s.keys tx s.mapWallet
    disconnected := if tx.isCoinStake then env.hashTx tx::s.disconnected else s.disconnected }

def step (e : Event) (s : WalletState) : WalletState :=
  match e with
  | .commit immature keys wtxNew fWritten =>
    ⟨commitTransaction keys env immature wtxNew fWritten s.mapWallet,keys,
      without s.disconnected (env.hashTx wtxNew.tx)⟩
  | .involving immature found keys nMinimumInputValue tx pblock fUpdate fWritten =>
    stepInvolving env immature found keys nMinimumInputValue tx pblock fUpdate fWritten s
  | .sync immature found keys nMinimumInputValue tx pblock fConnect fWritten =>
    if fConnect then
      stepInvolving env immature found keys nMinimumInputValue tx pblock true fWritten s
    else stepDisconnect env tx s

end Step

section Conditions
variable (env : Env) (K : Keys) (m : MapWallet) (D : List Uint256)

def newlyOursFlagged (K' : Keys) : Bool :=
  (walletOutpoints m).all fun o => !ours K' m o || ours K m o || !spentBy m D o || spentAt m o

/-- Of a transaction that is new or comes with a block no output of ours is spent already,
unless it is new, without a block and the output flagged. -/
def ownUnspent (wtxIn : CWalletTx) (fWritten : Bool) : Bool :=
  let hash := env.hashTx wtxIn.tx
  let fCleared := fWritten && wtxIn.hashBlock != 0
  let m' := inserted env m wtxIn
  !(fCleared || (m.lookup hash).isNone) ||
    (outpoints hash (insertOrMerge hash wtxIn m).tx).all fun o =>
      !ours K m' o || (!fCleared && wtxIn.isSpent o.n) || !spentBy m' (without D hash) o

/-- Where the database fails, what the transaction spends of ours is flagged already, or is
marked afterwards. -/
def inputsFlagged (wtxIn : CWalletTx) (fWritten : Bool) (later : List COutPoint) : Bool :=
  let m' := inserted env m wtxIn
  fWritten || (insertOrMerge (env.hashTx wtxIn.tx) wtxIn m).tx.prevouts.all fun o =>
    !ours K m' o || spentAt m' o || later.contains o

def refundUnspent (tx : CTransaction) : Bool :=
  !(tx.isCoinStake && isFromMe K m tx == some true) ||
    tx.prevouts.all fun o => !ours K m o || !spentBy m (env.hashTx tx::D) o

/-- The inputs that `CommitTransaction` marks before one is not there. -/
def reached (wtxNew : CWalletTx) : List COutPoint :=
  wtxNew.tx.prevouts.takeWhile (present (inserted env m wtxNew))

def involvingOk (found keys : Keys) (nMinimumInputValue : ℤ) (tx : CTransaction)
    (pblock : Uint256) (fUpdate fWritten : Bool) (s : WalletState) : Bool :=
  let m := s.mapWallet
  let D := s.disconnected
  match involvement found env nMinimumInputValue tx fUpdate m with
  | .known => true
  | .throws => newlyOursFlagged s.keys m D found
  | .none => newlyOursFlagged s.keys m D found
  | .involved =>
    newlyOursFlagged s.keys m D keys && ownUnspent env keys m D (.ofTx tx pblock) fWritten &&
      inputsFlagged env keys m (.ofTx tx pblock) fWritten []

def stepOk (s : WalletState) : Event → Bool
  | .commit _ keys wtxNew fWritten =>
    newlyOursFlagged s.keys s.mapWallet s.disconnected keys &&
      ownUnspent env keys s.mapWallet s.disconnected wtxNew fWritten &&
      inputsFlagged env keys s.mapWallet wtxNew fWritten (reached env s.mapWallet wtxNew)
  | .involving _ found keys nMinimumInputValue tx pblock fUpdate fWritten =>
    involvingOk env found keys nMinimumInputValue tx pblock fUpdate fWritten s
  | .sync _ found keys nMinimumInputValue tx pblock fConnect fWritten =>
    if fConnect then involvingOk env found keys nMinimumInputValue tx pblock true fWritten s
    else refundUnspent env s.keys s.mapWallet s.disconnected tx

end Conditions

section Adding
variable (env : Env) (K : Keys) (m : MapWallet) (D : List Uint256)

theorem earlier_flagged {wtxIn : CWalletTx} {fWritten : Bool} (hI : Marked K m D)
    (hown : ownUnspent env K m D wtxIn fWritten = true) (o : COutPoint)
    (ho : ours K (inserted env m wtxIn) o = true)
    (hs : spentBy (inserted env m wtxIn) (without D (env.hashTx wtxIn.tx)) o = true)
    (hnot : o ∉ (insertOrMerge (env.hashTx wtxIn.tx) wtxIn m).tx.prevouts)
    (hclear : ¬ ((fWritten && wtxIn.hashBlock != 0) = true ∧ o.hash = env.hashTx wtxIn.tx)) :
    spentAt (inserted env m wtxIn) o = true := by
  have hs' := hs
  obtain ⟨k,w,hw,hk,hmem⟩ := (spent_by_iff _ _ _).mp hs
  unfold inserted at hw
  rw [lookup_insert_if] at hw
  have hkh : k ≠ env.hashTx wtxIn.tx := by
    intro h
    rw [if_pos h] at hw
    cases hw
    exact hnot hmem
  rw [if_neg hkh] at hw
  have hkD : k ∉ D := by
    intro h
    exact hk (List.mem_filter.mpr ⟨h,by simp [hkh]⟩)
  have hbefore : spentBy m D o = true := (spent_by_iff m D o).mpr ⟨k,w,hw,hkD,hmem⟩
  obtain ⟨wo,out,hwo,hout,hmine⟩ := (ours_iff _ _ _).mp ho
  have hlook := hwo
  unfold inserted at hwo
  rw [lookup_insert_if] at hwo
  rw [spent_at_some _ hlook]
  by_cases hh : o.hash = env.hashTx wtxIn.tx
  · rw [if_pos hh] at hwo
    cases hwo
    cases hm : m.lookup (env.hashTx wtxIn.tx) with
    | none =>
      -- the transaction is new: its output counts as spent only if it came in flagged
      have hfc : ¬ (fWritten && wtxIn.hashBlock != 0) = true := fun h => hclear ⟨h,hh⟩
      rw [Bool.not_eq_true] at hfc
      unfold ownUnspent at hown
      dsimp only at hown
      rw [hfc, hm] at hown
      simp only [Option.isNone_none, Bool.or_true, Bool.not_true, Bool.false_or, List.all_eq_true,
        Bool.not_false, Bool.true_and] at hown
      have hn : o.n < (insertOrMerge (env.hashTx wtxIn.tx) wtxIn m).tx.vout.length :=
        (List.getElem?_eq_some_iff.mp hout).1
      have hall := hown o ((mem_outpoints _ _ _).mpr ⟨hh,hn⟩)
      rw [ho, hs'] at hall
      simp only [Bool.not_true, Bool.false_or, Bool.or_false] at hall
      rw [insert_or_merge_new m wtxIn hm]
      exact hall
    | some w0 =>
      obtain ⟨htx,hkeep⟩ := insert_or_merge_old m wtxIn hm
      rw [htx] at hout
      have hmo : m.lookup o.hash = some w0 := by rw [hh]; exact hm
      have hmark := hI o ((ours_iff _ _ _).mpr ⟨w0,out,hmo,hout,hmine⟩) hbefore
      rw [spent_at_some m hmo] at hmark
      exact hkeep o.n hmark
  · rw [if_neg hh] at hwo
    rw [← spent_at_some m hwo]
    exact hI o ((ours_iff _ _ _).mpr ⟨wo,out,hwo,hout,hmine⟩) hbefore

theorem add_to_wallet_marked {immature : CTransaction → Bool} {wtxIn : CWalletTx} {fWritten : Bool} {later : List COutPoint}
    (hI : Marked K m D) (hown : ownUnspent env K m D wtxIn fWritten = true)
    (hin : inputsFlagged env K m wtxIn fWritten later = true) {o : COutPoint}
    (ho : ours K (addToWallet K env immature wtxIn fWritten m) o = true)
    (hs : spentBy (addToWallet K env immature wtxIn fWritten m) (without D (env.hashTx wtxIn.tx)) o = true) :
    spentAt (addToWallet K env immature wtxIn fWritten m) o = true ∨ o ∈ later := by
  have hearlier := earlier_flagged env K m D hI hown o
  cases fWritten with
  | false =>
    change ours K (inserted env m wtxIn) o = true at ho
    change spentBy (inserted env m wtxIn) _ o = true at hs
    change spentAt (inserted env m wtxIn) o = true ∨ _
    by_cases hmem : o ∈ (insertOrMerge (env.hashTx wtxIn.tx) wtxIn m).tx.prevouts
    · unfold inputsFlagged at hin
      simp only [Bool.false_or, List.all_eq_true] at hin
      have hall := hin o hmem
      simp only [ho, Bool.not_true, Bool.false_or, Bool.or_eq_true, List.contains_eq_mem,
        decide_eq_true_eq] at hall
      exact hall
    · exact Or.inl (hearlier ho hs hmem (fun h => by simp at h))
  | true =>
    obtain ⟨hsame,hset⟩ := wallet_update_spent_spec K (inserted env m wtxIn) immature
      (env.hashTx wtxIn.tx) (insertOrMerge (env.hashTx wtxIn.tx) wtxIn m).tx (wtxIn.hashBlock != 0)
    change ours K (walletUpdateSpent K immature (env.hashTx wtxIn.tx) _ _ (inserted env m wtxIn)) o = true
      at ho
    change spentBy (walletUpdateSpent K immature (env.hashTx wtxIn.tx) _ _ (inserted env m wtxIn)) _ o = true
      at hs
    change spentAt (walletUpdateSpent K immature (env.hashTx wtxIn.tx) _ _ (inserted env m wtxIn)) o = true
      ∨ _
    rw [ours_congr K _ _ hsame] at ho
    have hs' := spent_by_congr _ _ hsame hs
    left
    rw [hset o ho]
    by_cases hc : (wtxIn.hashBlock != 0) = true ∧
        o ∈ outpoints (env.hashTx wtxIn.tx) (insertOrMerge (env.hashTx wtxIn.tx) wtxIn m).tx
    · -- the flag is cleared, so nothing may spend the output
      exfalso
      unfold ownUnspent at hown
      dsimp only at hown
      rw [hc.1] at hown
      simp only [Bool.and_self, Bool.true_or, Bool.not_true, Bool.false_or, List.all_eq_true,
        Bool.false_and, Bool.or_false] at hown
      have hall := hown o hc.2
      rw [ho, hs'] at hall
      simp at hall
    · rw [if_neg hc]
      by_cases hmem : o ∈ (insertOrMerge (env.hashTx wtxIn.tx) wtxIn m).tx.prevouts
      · rw [if_pos hmem]
      · rw [if_neg hmem]
        refine hearlier ho hs' hmem ?_
        rintro ⟨hb,hh⟩
        obtain ⟨wo,out,hwo,hout,_⟩ := (ours_iff _ _ _).mp ho
        unfold inserted at hwo
        rw [lookup_insert_if, if_pos hh] at hwo
        cases hwo
        exact hc ⟨by simpa using hb,(mem_outpoints _ _ _).mpr
          ⟨hh,(List.getElem?_eq_some_iff.mp hout).1⟩⟩

end Adding

section Steps
variable (env : Env)

variable {m : MapWallet} {D : List Uint256}

theorem newly_ours_marked {K K' : Keys} (hI : Marked K m D) (h : newlyOursFlagged K m D K' = true) :
    Marked K' m D := by
  intro o ho hs
  have hall := List.all_eq_true.mp h o (mem_wallet_outpoints K' m ho)
  rw [ho, hs] at hall
  cases hold : ours K m o with
  | true => exact hI o hold hs
  | false => simpa [hold] using hall

theorem commit_marked (immature : CTransaction → Bool) {keys : Keys} {wtxNew : CWalletTx} {fWritten : Bool} (hI : Marked keys m D)
    (hown : ownUnspent env keys m D wtxNew fWritten = true)
    (hin : inputsFlagged env keys m wtxNew fWritten (reached env m wtxNew) = true) :
    Marked keys (commitTransaction keys env immature wtxNew fWritten m)
      (without D (env.hashTx wtxNew.tx)) := by
  intro o ho hs
  unfold commitTransaction at ho hs ⊢
  obtain ⟨hkept,hflags⟩ :=
    commit_spent_spec keys wtxNew.tx.prevouts (addToWallet keys env immature wtxNew fWritten m)
  have ho' := kept_ours keys hkept ho
  have hs' := kept_spent_by _ hkept hs
  refine hflags o ho' ?_
  rw [present_congr (add_same_txs env keys m wtxNew immature fWritten)]
  exact (add_to_wallet_marked env keys m D hI hown hin ho' hs').symm

theorem update_marked (immature : CTransaction → Bool) {K : Keys} (hash : Uint256) (tx : CTransaction) (hI : Marked K m D) :
    Marked K (walletUpdateSpent K immature hash tx false m) D := by
  obtain ⟨hsame,hset⟩ := wallet_update_spent_spec K m immature hash tx false
  intro o ho hs
  rw [ours_congr K m _ hsame] at ho
  have hmark := hI o ho (spent_by_congr _ _ hsame hs)
  rw [hset o ho, hmark]
  simp

variable {s : WalletState}

theorem involving_marked (immature : CTransaction → Bool) {found keys : Keys} {nMinimumInputValue : ℤ} {tx : CTransaction}
    {pblock : Uint256} {fUpdate fWritten : Bool} (hI : Marked s.keys s.mapWallet s.disconnected)
    (h : involvingOk env found keys nMinimumInputValue tx pblock fUpdate fWritten s = true) :
    let s' := stepInvolving env immature found keys nMinimumInputValue tx pblock fUpdate fWritten s
    Marked s'.keys s'.mapWallet s'.disconnected := by
  unfold involvingOk at h
  unfold stepInvolving addToWalletIfInvolvingMe
  cases hinv : involvement found env nMinimumInputValue tx fUpdate s.mapWallet with
  | known => exact hI
  | throws =>
    simp only [hinv] at h ⊢
    exact newly_ours_marked hI h
  | none =>
    simp only [hinv] at h ⊢
    exact update_marked immature _ tx (newly_ours_marked hI h)
  | involved =>
    simp only [hinv, Bool.and_eq_true] at h ⊢
    intro o ho hs
    have hI' := newly_ours_marked hI h.1.1
    rcases add_to_wallet_marked env keys s.mapWallet s.disconnected
      hI' h.1.2 h.2 ho hs with hmark | hmem
    · exact hmark
    · cases hmem

theorem disconnect_marked {tx : CTransaction} (hI : Marked s.keys s.mapWallet s.disconnected)
    (h : refundUnspent env s.keys s.mapWallet s.disconnected tx = true) :
    let s' := stepDisconnect env tx s
    Marked s'.keys s'.mapWallet s'.disconnected := by
  -- counting one disconnected stake more only takes spenders away
  have hmore : ∀ m o, spentBy m (if tx.isCoinStake then env.hashTx tx::s.disconnected
      else s.disconnected) o = true → spentBy m s.disconnected o = true := by
    intro m o hs
    split at hs
    · obtain ⟨k,w,hw,hk,ho⟩ := (spent_by_iff _ _ _).mp hs
      exact (spent_by_iff _ _ _).mpr ⟨k,w,hw,fun hd => hk (List.mem_cons_of_mem _ hd),ho⟩
    · exact hs
  unfold stepDisconnect disableTransaction
  dsimp only
  unfold refundUnspent at h
  by_cases hc : (tx.isCoinStake && isFromMe s.keys s.mapWallet tx == some true) = true
  · rw [hc] at h ⊢
    simp only [Bool.not_true, Bool.false_or, List.all_eq_true] at h
    rw [if_pos rfl]
    obtain ⟨hsame,hset⟩ := for_each_sets s.keys (refund_ours_sets s.keys) tx.prevouts
      s.mapWallet
    intro o ho hs
    rw [ours_congr _ _ _ hsame] at ho
    have hs' := spent_by_congr _ _ hsame hs
    rw [hset o ho]
    by_cases hmem : o ∈ tx.prevouts
    · have hstake : tx.isCoinStake = true := (Bool.and_eq_true_iff.mp hc).1
      have hall := h o hmem
      rw [if_pos hstake] at hs'
      simp [ho, hs'] at hall
    · rw [if_neg hmem]
      exact hI o ho (hmore _ o hs')
  · rw [if_neg hc]
    intro o ho hs
    exact hI o ho (hmore _ o hs)

theorem step_marked {e : Event} (hI : Marked s.keys s.mapWallet s.disconnected)
    (h : stepOk env s e = true) :
    Marked (step env e s).keys (step env e s).mapWallet (step env e s).disconnected := by
  cases e with
  | commit immature keys wtxNew fWritten =>
    simp only [stepOk, Bool.and_eq_true] at h
    exact commit_marked env immature (newly_ours_marked hI h.1.1) h.1.2 h.2
  | involving immature found keys nMinimumInputValue tx pblock fUpdate fWritten =>
    exact involving_marked env immature hI h
  | sync immature found keys nMinimumInputValue tx pblock fConnect fWritten =>
    cases fConnect with
    | true => exact involving_marked env immature hI h
    | false => exact disconnect_marked env hI h

theorem involving_keyed (immature : CTransaction → Bool) (found keys : Keys)
    (nMinimumInputValue : ℤ) (tx : CTransaction) (pblock : Uint256) (fUpdate fWritten : Bool)
    (hm : Keyed env s.mapWallet) : Keyed env
      (stepInvolving env immature found keys nMinimumInputValue tx pblock fUpdate fWritten
        s).mapWallet := by
  unfold stepInvolving addToWalletIfInvolvingMe
  cases involvement found env nMinimumInputValue tx fUpdate s.mapWallet with
  | known => exact hm
  | throws => exact hm
  | none =>
    exact (wallet_update_spent_spec found s.mapWallet immature (env.hashTx tx) tx false).1.keyed
      env hm
  | involved =>
    exact (add_same_txs env keys _ _ immature fWritten).keyed env (inserted_keyed env _ hm)

theorem step_keyed (e : Event) (hm : Keyed env s.mapWallet) :
    Keyed env (step env e s).mapWallet := by
  cases e with
  | commit immature keys wtxNew fWritten =>
    exact kept_keyed env (commit_spent_spec keys _ _).1
      ((add_same_txs env keys _ wtxNew immature fWritten).keyed env (inserted_keyed env wtxNew hm))
  | involving immature found keys nMinimumInputValue tx pblock fUpdate fWritten =>
    exact involving_keyed env immature found keys nMinimumInputValue tx pblock fUpdate fWritten hm
  | sync immature found keys nMinimumInputValue tx pblock fConnect fWritten =>
    cases fConnect with
    | true => exact involving_keyed env immature found keys nMinimumInputValue tx pblock true fWritten hm
    | false =>
      change Keyed env (disableTransaction s.keys tx s.mapWallet)
      unfold disableTransaction
      split
      · exact (for_each_sets s.keys (refund_ours_sets s.keys) tx.prevouts s.mapWallet).1.keyed env hm
      · exact hm

end Steps

section Runs
variable (env : Env)

/-- What is asked of the wallet in every state: the flags are right, and nothing that is
offered, or that `CreateTransaction` takes, is spent already. -/
structure Sound (s : WalletState) : Prop where
  marked : Marked s.keys s.mapWallet s.disconnected
  offered : ∀ V fOnlyConfirmed coinControl coinType useIX,
    ∀ c ∈ availableCoins V s.keys fOnlyConfirmed coinControl coinType useIX s.mapWallet,
      spentBy s.mapWallet s.disconnected (prevout env c) = false
  chosen : ∀ B : CreateTransaction.Builder, B.env = env → B.K = s.keys →
    B.mapWallet = s.mapWallet → ∀ nTurns c passes pool tx nFeeRet pool',
      CreateTransaction.createTransaction B nTurns c passes pool =
        some (.created tx nFeeRet,pool') →
      ∀ o ∈ tx.prevouts, spentBy s.mapWallet s.disconnected o = false

theorem sound_of_marked {s : WalletState} (hk : Keyed env s.mapWallet)
    (hI : Marked s.keys s.mapWallet s.disconnected) : Sound env s := by
  have hoff : ∀ V fOnlyConfirmed coinControl coinType useIX,
      ∀ c ∈ availableCoins V s.keys fOnlyConfirmed coinControl coinType useIX s.mapWallet,
        spentBy s.mapWallet s.disconnected (prevout env c) = false := by
    intro V fOnlyConfirmed coinControl coinType useIX c hc
    obtain ⟨k,out,hlook,hout,hmine,hspent⟩ :=
      mem_available_coins V s.keys hc
    have hne : c.tx.tx.vout ≠ [] := by
      intro h
      rw [h] at hout
      cases hout
    have hkey : env.hashTx c.tx.tx = k := hk k c.tx.tx (by rw [hlook, Option.map_some]) hne
    have ho : ours s.keys s.mapWallet (prevout env c) = true :=
      (ours_iff _ _ _).mpr ⟨c.tx,out,by rw [prevout, hkey]; exact hlook,hout,hmine⟩
    by_contra hs
    have hmark := hI _ ho (Bool.not_eq_false _ ▸ hs)
    rw [spent_at_some _ (by rw [prevout, hkey]; exact hlook)] at hmark
    exact absurd (hspent.symm.trans hmark) (by decide)
  refine ⟨hI,hoff,?_⟩
  intro B henv hK hmap nTurns c passes pool tx nFeeRet pool' hmade o ho
  obtain ⟨x,hx,rfl⟩ := CoinOrigin.created_offered B hmade ho
  rw [hK, hmap] at hx
  rw [henv]
  exact hoff _ _ _ _ _ x hx

abbrev RunOk (keys : Keys) (es : List Event) : Prop :=
  Along (step env) (fun s e => stepOk env s e = true) es (.start keys)

/-- In a run whose reports all meet the condition every state is sound. -/
theorem spent_outputs_flagged (keys : Keys) (es : List Event) (h : RunOk env keys es) :
    Throughout (step env) (fun _ s => Sound env s) es (.start keys) := by
  have hinv := throughout_of_along (step env)
    (fun s => Marked s.keys s.mapWallet s.disconnected ∧ Keyed env s.mapWallet)
    (fun e s hs hok => ⟨step_marked env hs.1 hok,step_keyed env e hs.2⟩) (.start keys)
    ⟨fun o ho => (by cases ho),fun k tx htx => (by cases htx)⟩ h
  intro pre hpre
  exact sound_of_marked env (hinv pre hpre).2 (hinv pre hpre).1

end Runs

section Samples

def sampleKeys : Keys := ⟨fun s => s == [1],fun _ => false⟩

def samplePayment : CTransaction := ⟨1,1,[⟨⟨9,0⟩,[],0⟩],[⟨10*coin,[1]⟩],0⟩
def sampleSpend : CTransaction := ⟨1,2,[⟨⟨1,0⟩,[],0⟩],[⟨9*coin,[2]⟩],0⟩

def received (pblock : Uint256) : Event :=
  .sync (fun _ => false) sampleKeys sampleKeys 0 samplePayment pblock true true
def spent : Event := .commit (fun _ => false) sampleKeys (.ofTx sampleSpend 0) true

/-- The payment is confirmed first and spent then. -/
theorem confirmed_then_spent :
    RunOk sampleEnv sampleKeys [received 5,spent] ∧
      Throughout (step sampleEnv) (fun _ s => Sound sampleEnv s) [received 5,spent]
        (.start sampleKeys) := by
  have h : RunOk sampleEnv sampleKeys [received 5,spent] := by decide +kernel
  exact ⟨h,spent_outputs_flagged sampleEnv sampleKeys _ h⟩

/-- The payment is confirmed again after it was spent: it counts as unspent. -/
theorem confirmed_again :
    ¬ ∀ (env : Env) (keys : Keys) (es : List Event),
      Throughout (step env) (fun _ s => Sound env s) es (.start keys) := by
  intro h
  have hs := (h sampleEnv sampleKeys [received 5,spent,received 6] _ (List.prefix_refl _)).marked
  have hmark := hs ⟨1,0⟩ (by decide +kernel) (by decide +kernel)
  revert hmark
  decide +kernel

end Samples

end SwippCore.WalletSpent
