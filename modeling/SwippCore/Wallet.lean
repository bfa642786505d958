import SwippCore.Primitives

/-!
# Transactions of the wallet

The map of wallet transactions and the marks of spent outputs in it.
-/

set_option autoImplicit false

namespace SwippCore
open FinMap

structure CWalletTx where
  tx : CTransaction
  hashBlock : Uint256
  vfSpent : List Bool
  nDebitCached : Option ℤ
  nCreditCached : Option ℤ
  nAvailableCreditCached : Option ℤ
  nChangeCached : Option ℤ
  deriving DecidableEq, Repr

namespace CWalletTx

def ofTx (tx : CTransaction) (hashBlock : Uint256) : CWalletTx :=
  ⟨tx,hashBlock,[],none,none,none,none⟩

/-- What `operator[]` creates. -/
def empty : CWalletTx := ofTx ⟨1,0,[],[],0⟩ 0

variable (wtx : CWalletTx)

/-- `IsSpent` for an output that is there. -/
def isSpent (nOut : ℕ) : Bool := wtx.vfSpent.getD nOut false

/-- `vfSpent.resize(vout.size())` -/
def resized : List Bool := (List.range wtx.tx.vout.length).map wtx.isSpent

def markDirty : CWalletTx :=
  { wtx with
    nDebitCached := none
    nCreditCached := none
    nAvailableCreditCached := none
    nChangeCached := none }

/-- `MarkSpent` and `MarkUnspent`; none where they throw. -/
def mark (fSpent : Bool) (nOut : ℕ) : Option CWalletTx :=
  if wtx.tx.vout.length ≤ nOut then none
  else if wtx.isSpent nOut = fSpent then some { wtx with vfSpent := wtx.resized }
  else some { wtx with
    vfSpent := wtx.resized.set nOut fSpent
    nAvailableCreditCached := none }

def markSpent (nOut : ℕ) : Option CWalletTx := wtx.mark true nOut
def markUnspent (nOut : ℕ) : Option CWalletTx := wtx.mark false nOut

/-- `UpdateSpent`; the flags that are not kept yet stay as they are. -/
def updateSpent (vfNewSpent : List Bool) : CWalletTx :=
  let vfSpent := wtx.vfSpent.mapIdx fun i f => f || vfNewSpent.getD i false
  if vfSpent = wtx.vfSpent then wtx
  else { wtx with vfSpent := vfSpent, nAvailableCreditCached := none }

end CWalletTx

abbrev MapWallet := Dict Uint256 CWalletTx

/-- What the key store and the address book say about scripts: `IsMine` and `IsChange`. -/
structure Keys where
  mine : CScript → Bool
  change : CScript → Bool

def sumInRange : ℤ → List ℤ → Option ℤ
  | nTotal, [] => some nTotal
  | nTotal, n::ns => if moneyRange (nTotal+n) then sumInRange (nTotal+n) ns else none

namespace CWallet
variable (K : Keys) (mapWallet : MapWallet)

def ourOutput (o : COutPoint) : Option CTxOut :=
  ((mapWallet.lookup o.hash).bind fun prev => prev.tx.vout[o.n]?).filter fun out =>
    K.mine out.scriptPubKey

/-- `GetDebit`; none where it throws. -/
def getDebit (tx : CTransaction) : Option ℤ :=
  sumInRange 0 (tx.prevouts.map fun o => ((ourOutput K mapWallet o).map CTxOut.nValue).getD 0)

def isFromMe (tx : CTransaction) : Option Bool := (getDebit K mapWallet tx).map (0 < ·)

/-- The sum of `GetCredit` or `GetChange` over outputs; none where it throws. -/
def sumOuts (counts : CScript → Bool) : ℤ → List CTxOut → Option ℤ
  | nTotal, [] => some nTotal
  | nTotal, o::os =>
    let n := nTotal+if counts o.scriptPubKey then o.nValue else 0
    if moneyRange o.nValue && moneyRange n then sumOuts counts n os else none

def getCredit (tx : CTransaction) : Option ℤ := sumOuts K.mine 0 tx.vout

/-- A call with a cache: the amount, none where it throws, and the record behind it. -/
abbrev Reading := Option ℤ × CWalletTx

def cached (wtx : CWalletTx) (slot amount : Option ℤ) (store : ℤ → CWalletTx) : Reading :=
  match slot, amount with
  | some n, _ => (some n,wtx)
  | none, none => (none,wtx)
  | none, some n => (some n,store n)

/-- `fImmature` is a coin base or coin stake that is not deep enough. -/
def readCredit (wtx : CWalletTx) (fImmature fUseCache : Bool) : Reading :=
  if fImmature then (some 0,wtx)
  else
    cached wtx (if fUseCache then wtx.nCreditCached else none) (getCredit K wtx.tx)
      fun n => { wtx with nCreditCached := some n }

/-- `IsMine` of a transaction; `nMinimumInputValue` is a setting. -/
def isMine (nMinimumInputValue : ℤ) (tx : CTransaction) : Bool :=
  tx.vout.any fun o => K.mine o.scriptPubKey && nMinimumInputValue ≤ o.nValue

/-- A turn of the loop of `WalletUpdateSpent` over the inputs. Its `LogPrintf` asks for the
credit, which throws for no transaction that passed `CheckTransaction`. -/
def spendOurs (immature : CTransaction → Bool) (o : COutPoint) (m : MapWallet) : MapWallet :=
  match m.lookup o.hash with
  | none => m
  | some wtx =>
    if !wtx.isSpent o.n && (ourOutput K m o).isSome then
      match (readCredit K wtx (immature wtx.tx) true).2.markSpent o.n with
      | none => m
      | some wtx => m.insert o.hash wtx
    else m

def refundOurs (o : COutPoint) (m : MapWallet) : MapWallet :=
  match m.lookup o.hash with
  | none => m
  | some wtx =>
    if (ourOutput K m o).isSome then
      match wtx.markUnspent o.n with
      | none => m
      | some wtx => m.insert o.hash wtx
    else m

def forEach (turn : COutPoint → MapWallet → MapWallet) : List COutPoint → MapWallet → MapWallet
  | [], m => m
  | o::os, m => forEach turn os (turn o m)

def outpoints (hash : Uint256) (tx : CTransaction) : List COutPoint :=
  (List.range tx.vout.length).map fun n => ⟨hash,n⟩

/-- `WalletUpdateSpent`: with a block our own outputs count as unspent again. -/
def walletUpdateSpent (immature : CTransaction → Bool) (hash : Uint256) (tx : CTransaction)
    (fBlock : Bool) (m : MapWallet) : MapWallet :=
  let m := forEach (spendOurs K immature) tx.prevouts m
  if fBlock then forEach (refundOurs K) (outpoints hash tx) m else m

/-- The first part of `AddToWallet`: insert, or merge with what is there. -/
def insertOrMerge (hash : Uint256) (wtxIn : CWalletTx) (m : MapWallet) : CWalletTx :=
  match m.lookup hash with
  | none => wtxIn.markDirty
  | some wtx =>
    let wtx := wtx.markDirty
    ({ wtx with hashBlock := if wtxIn.hashBlock ≠ 0 then wtxIn.hashBlock else wtx.hashBlock }).updateSpent
      wtxIn.vfSpent

variable (env : Env) (immature : CTransaction → Bool)

/-- `AddToWallet`. The write is made when something changed; `fWritten` says how it went.
A new default key may change the key store before the flags are set. -/
def addToWallet (wtxIn : CWalletTx) (fWritten : Bool) (m : MapWallet) : MapWallet :=
  let hash := env.hashTx wtxIn.tx
  let wtx := insertOrMerge hash wtxIn m
  let m := m.insert hash wtx
  if fWritten then walletUpdateSpent K immature hash wtx.tx (wtxIn.hashBlock != 0) m else m

/-- What `AddToWalletIfInvolvingMe` finds out of a transaction: there and not to be updated,
a debit that throws, none of ours, or one to add. -/
inductive Involvement where
  | known | throws | none | involved
  deriving DecidableEq, Repr

/-- `K` is the key store behind `FindStealthTransactions`. -/
def involvement (nMinimumInputValue : ℤ) (tx : CTransaction) (fUpdate : Bool) (m : MapWallet) :
    Involvement :=
  let fExisted := (m.lookup (env.hashTx tx)).isSome
  if fExisted && !fUpdate then .known
  else if fExisted || isMine K nMinimumInputValue tx then .involved
  else
    match isFromMe K m tx with
    | Option.none => .throws
    | some true => .involved
    | some false => .none

/-- `AddToWalletIfInvolvingMe`; `pblock` is the hash of the block or zero, `Kpool` the key
store when the flags are set. -/
def addToWalletIfInvolvingMe (nMinimumInputValue : ℤ) (Kpool : Keys) (tx : CTransaction)
    (pblock : Uint256) (fUpdate fWritten : Bool) (m : MapWallet) : MapWallet :=
  match involvement K env nMinimumInputValue tx fUpdate m with
  | .known => m
  | .throws => m
  | .none => walletUpdateSpent K immature (env.hashTx tx) tx false m
  | .involved => addToWallet Kpool env immature (.ofTx tx pblock) fWritten m

def disableTransaction (tx : CTransaction) (m : MapWallet) : MapWallet :=
  if tx.isCoinStake && isFromMe K m tx == some true then
    forEach (refundOurs K) tx.prevouts m
  else m

/-- The loop of `CommitTransaction` that marks the old coins; it throws on an output that is
not there, and `operator[]` creates what is missing. -/
def commitSpent : List COutPoint → MapWallet → MapWallet
  | [], m => m
  | o::os, m =>
    let r := getDefault m o.hash .empty
    match r.1.markDirty.markSpent o.n with
    | none => r.2.insert o.hash r.1.markDirty
    | some coin => commitSpent os (r.2.insert o.hash coin)

/-- `CommitTransaction` behind `FindStealthTransactions`, up to the memory pool. -/
def commitTransaction (wtxNew : CWalletTx) (fWritten : Bool) (m : MapWallet) : MapWallet :=
  commitSpent wtxNew.tx.prevouts (addToWallet K env immature wtxNew fWritten m)

end CWallet

end SwippCore

namespace SwippCore.WalletMarks
open FinMap CWallet

section Reading
variable (K : Keys) (m : MapWallet) (D : List Uint256)

def ours (o : COutPoint) : Bool := (ourOutput K m o).isSome

def spentAt (o : COutPoint) : Bool := (m.lookup o.hash).any fun wtx => wtx.isSpent o.n

def spentBy (o : COutPoint) : Bool :=
  m.entries.any fun x => !D.contains x.1 && x.2.tx.prevouts.contains o

def without (hash : Uint256) : List Uint256 := D.filter (· ≠ hash)

def walletOutpoints : List COutPoint := m.entries.flatMap fun x => outpoints x.1 x.2.tx

def present (o : COutPoint) : Bool :=
  ((m.lookup o.hash).bind fun wtx => wtx.tx.vout[o.n]?).isSome

def Marked : Prop := ∀ o, ours K m o = true → spentBy m D o = true → spentAt m o = true

end Reading

section Flags
variable (K : Keys) (m m' : MapWallet)

def SameTxs : Prop :=
  ∀ k, (m'.lookup k).map CWalletTx.tx = (m.lookup k).map CWalletTx.tx

theorem our_output_by_tx (o : COutPoint) :
    ourOutput K m o =
      (((m.lookup o.hash).map CWalletTx.tx).bind fun tx => tx.vout[o.n]?).filter fun out =>
        K.mine out.scriptPubKey := by
  unfold ourOutput
  rw [Option.bind_map]
  rfl

theorem ours_congr (h : SameTxs m m') (o : COutPoint) : ours K m' o = ours K m o := by
  unfold ours
  rw [our_output_by_tx, our_output_by_tx, h o.hash]

theorem ours_iff (o : COutPoint) :
    ours K m o = true ↔ ∃ wtx out, m.lookup o.hash = some wtx ∧ wtx.tx.vout[o.n]? = some out ∧
      K.mine out.scriptPubKey = true := by
  unfold ours ourOutput
  rw [Option.isSome_filter, Option.any_eq_true]
  simp only [Option.bind_eq_some_iff]
  constructor
  · rintro ⟨out,⟨wtx,hw,ho⟩,hm⟩
    exact ⟨wtx,out,hw,ho,hm⟩
  · rintro ⟨wtx,out,hw,ho,hm⟩
    exact ⟨out,⟨wtx,hw,ho⟩,hm⟩

theorem spent_by_iff (D : List Uint256) (o : COutPoint) :
    spentBy m D o = true ↔ ∃ k wtx, m.lookup k = some wtx ∧ k ∉ D ∧ o ∈ wtx.tx.prevouts := by
  unfold spentBy
  rw [List.any_eq_true]
  constructor
  · rintro ⟨⟨k,wtx⟩,hx,h⟩
    simp only [Bool.and_eq_true, Bool.not_eq_true', List.contains_eq_mem,
      decide_eq_false_iff_not, decide_eq_true_eq] at h
    exact ⟨k,wtx,AList.mem_lookup_iff.mpr hx,h.1,h.2⟩
  · rintro ⟨k,wtx,hw,hk,ho⟩
    refine ⟨⟨k,wtx⟩,AList.mem_lookup_iff.mp hw,?_⟩
    simp only [Bool.and_eq_true, Bool.not_eq_true', List.contains_eq_mem,
      decide_eq_false_iff_not, decide_eq_true_eq]
    exact ⟨hk,ho⟩

variable {o : COutPoint}

theorem spent_by_congr (h : SameTxs m m') {D : List Uint256} (hs : spentBy m' D o = true) :
    spentBy m D o = true := by
  obtain ⟨k,wtx',hw,hk,ho⟩ := (spent_by_iff m' D o).mp hs
  have hkey := h k
  rw [hw, Option.map_some] at hkey
  obtain ⟨wtx,hw',htx⟩ := Option.map_eq_some_iff.mp hkey.symm
  exact (spent_by_iff m D o).mpr ⟨k,wtx,hw',hk,htx ▸ ho⟩

theorem mem_outpoints (hash : Uint256) (tx : CTransaction) (o : COutPoint) :
    o ∈ outpoints hash tx ↔ o.hash = hash ∧ o.n < tx.vout.length := by
  unfold outpoints
  rw [List.mem_map]
  constructor
  · rintro ⟨n,hn,rfl⟩
    exact ⟨rfl,List.mem_range.mp hn⟩
  · rintro ⟨rfl,hn⟩
    exact ⟨o.n,List.mem_range.mpr hn,rfl⟩

theorem mem_wallet_outpoints (h : ours K m o = true) : o ∈ walletOutpoints m := by
  obtain ⟨wtx,out,hw,ho,_⟩ := (ours_iff K m o).mp h
  refine List.mem_flatMap.mpr ⟨⟨o.hash,wtx⟩,AList.mem_lookup_iff.mp hw,?_⟩
  obtain ⟨hn,_⟩ := List.getElem?_eq_some_iff.mp ho
  exact (mem_outpoints _ _ _).mpr ⟨rfl,hn⟩

theorem mark_of_lt (wtx : CWalletTx) (fSpent : Bool) (n : ℕ) (hn : n < wtx.tx.vout.length) :
    ∃ wtx', wtx.mark fSpent n = some wtx' ∧ wtx'.tx = wtx.tx ∧
      ∀ j, j < wtx.tx.vout.length → wtx'.isSpent j = if j = n then fSpent else wtx.isSpent j := by
  have hres : ∀ j, j < wtx.tx.vout.length → wtx.resized[j]? = some (wtx.isSpent j) := by
    intro j hj
    unfold CWalletTx.resized
    rw [List.getElem?_map, List.getElem?_range hj]
    rfl
  unfold CWalletTx.mark
  rw [if_neg (Nat.not_le.mpr hn)]
  by_cases hs : wtx.isSpent n = fSpent
  · rw [if_pos hs]
    refine ⟨_,rfl,rfl,?_⟩
    intro j hj
    change wtx.resized.getD j false = _
    rw [List.getD_eq_getElem?_getD, hres j hj]
    by_cases hjn : j = n
    · rw [if_pos hjn, hjn]
      exact hs
    · rw [if_neg hjn]
      rfl
  · rw [if_neg hs]
    refine ⟨_,rfl,rfl,?_⟩
    intro j hj
    change (wtx.resized.set n fSpent).getD j false = _
    rw [List.getD_eq_getElem?_getD, List.getElem?_set, hres j hj]
    by_cases hjn : j = n
    · subst hjn
      have hlen : j < wtx.resized.length := (List.getElem?_eq_some_iff.mp (hres j hj)).1
      simp [hlen]
    · simp [hjn, Ne.symm hjn]

theorem same_txs_insert {k : Uint256} {wtx : CWalletTx} (wtx' : CWalletTx)
    (hw : m.lookup k = some wtx) (htx : wtx'.tx = wtx.tx) : SameTxs m (m.insert k wtx') := by
  intro j
  rw [lookup_insert_if]
  by_cases hj : j = k
  · rw [if_pos hj, hj, hw, Option.map_some, Option.map_some, htx]
  · rw [if_neg hj]

variable (fSpent : Bool)

variable {m} in
theorem insert_marked {wtx : CWalletTx} {wtx' : CWalletTx} (hw : m.lookup o.hash = some wtx)
    (htx : wtx'.tx = wtx.tx) (hs : ∀ j, j < wtx.tx.vout.length →
      wtx'.isSpent j = if j = o.n then fSpent else wtx.isSpent j) :
    SameTxs m (m.insert o.hash wtx') ∧ ∀ p, ours K m p = true →
      spentAt (m.insert o.hash wtx') p = if p = o then fSpent else spentAt m p := by
  refine ⟨same_txs_insert m wtx' hw htx,?_⟩
  intro p hp
  obtain ⟨wp,op,hwp,hop,_⟩ := (ours_iff K m p).mp hp
  obtain ⟨hpn,_⟩ := List.getElem?_eq_some_iff.mp hop
  unfold spentAt
  rw [lookup_insert_if]
  by_cases hh : p.hash = o.hash
  · have hwo : wp = wtx := by
      rw [hh, hw] at hwp
      exact (Option.some.inj hwp).symm
    subst hwo
    rw [if_pos hh, hwp, Option.any_some, Option.any_some, hs p.n hpn]
    by_cases hpo : p = o
    · rw [if_pos hpo, if_pos (congrArg COutPoint.n hpo)]
    · have hne : p.n ≠ o.n := fun h => hpo (by cases p; cases o; simp_all)
      rw [if_neg hpo, if_neg hne]
  · rw [if_neg hh, if_neg (fun h => hh (congrArg COutPoint.hash h))]

/-- A turn that makes the flags of our outputs among `os` what they should be, and leaves the
other ones. -/
def Sets (turn : MapWallet → MapWallet) (os : List COutPoint) : Prop :=
  ∀ m, SameTxs m (turn m) ∧ ∀ p, ours K m p = true →
    spentAt (turn m) p = if p ∈ os then fSpent else spentAt m p

theorem unchanged_spec (ho : ours K m o = true → spentAt m o = fSpent) :
    SameTxs m m ∧ ∀ p, ours K m p = true →
      spentAt m p = if p ∈ [o] then fSpent else spentAt m p := by
  refine ⟨fun k => rfl,?_⟩
  intro p hp
  by_cases hpo : p = o
  · subst hpo
    rw [if_pos (List.mem_singleton_self p)]
    exact ho hp
  · rw [if_neg (fun h => hpo (List.mem_singleton.mp h))]

theorem read_credit_keeps (wtx : CWalletTx) (fImmature fUseCache : Bool) :
    (readCredit K wtx fImmature fUseCache).2.tx = wtx.tx ∧
      (readCredit K wtx fImmature fUseCache).2.vfSpent = wtx.vfSpent := by
  unfold readCredit cached
  split
  · exact ⟨rfl,rfl⟩
  · split <;> exact ⟨rfl,rfl⟩

theorem spend_ours_sets (immature : CTransaction → Bool) (o : COutPoint) :
    Sets K true (spendOurs K immature o) [o] := by
  intro m
  unfold spendOurs
  cases hw : m.lookup o.hash with
  | none =>
    refine unchanged_spec K m true ?_
    intro ho
    obtain ⟨wtx,_,hwtx,_⟩ := (ours_iff K m o).mp ho
    rw [hw] at hwtx
    cases hwtx
  | some wtx =>
    dsimp only
    split
    · rename_i hif
      rw [Bool.and_eq_true] at hif
      obtain ⟨wo,out,hwo,hout,_⟩ := (ours_iff K m o).mp hif.2
      rw [hw] at hwo
      cases hwo
      obtain ⟨hrtx,hrspent⟩ := read_credit_keeps K wtx (immature wtx.tx) true
      have hn := (List.getElem?_eq_some_iff.mp hout).1
      rw [← hrtx] at hn
      obtain ⟨wtx',hm,htx,hs⟩ := mark_of_lt _ true o.n hn
      rw [CWalletTx.markSpent, hm]
      simp only [List.mem_singleton]
      refine insert_marked K true hw (htx.trans hrtx) ?_
      intro j hj
      have hjr : j < (readCredit K wtx (immature wtx.tx) true).2.tx.vout.length := by
        rw [hrtx]
        exact hj
      rw [hs j hjr, CWalletTx.isSpent, hrspent]
      rfl
    · rename_i hif
      refine unchanged_spec K m true ?_
      intro ho
      have hours : (ourOutput K m o).isSome = true := ho
      rw [hours, Bool.and_true, Bool.not_eq_true', Bool.not_eq_false] at hif
      rw [spentAt, hw]
      exact hif

theorem refund_ours_sets (o : COutPoint) : Sets K false (refundOurs K o) [o] := by
  intro m
  unfold refundOurs
  cases hw : m.lookup o.hash with
  | none =>
    refine unchanged_spec K m false ?_
    intro _
    rw [spentAt, hw]
    rfl
  | some wtx =>
    dsimp only
    split
    · rename_i hif
      obtain ⟨wo,out,hwo,hout,_⟩ := (ours_iff K m o).mp hif
      rw [hw] at hwo
      cases hwo
      obtain ⟨wtx',hm,htx,hs⟩ := mark_of_lt wtx false o.n (List.getElem?_eq_some_iff.mp hout).1
      rw [CWalletTx.markUnspent, hm]
      simp only [List.mem_singleton]
      exact insert_marked K false hw htx hs
    · rename_i hif
      exact unchanged_spec K m false fun ho => absurd ho hif

theorem SameTxs.trans {m₁ m₂ m₃ : MapWallet} (h : SameTxs m₁ m₂) (h' : SameTxs m₂ m₃) :
    SameTxs m₁ m₃ := fun k => (h' k).trans (h k)

variable {fSpent} in
theorem for_each_sets {turn : COutPoint → MapWallet → MapWallet}
    (h : ∀ o, Sets K fSpent (turn o) [o]) (os : List COutPoint) :
    Sets K fSpent (forEach turn os) os := by
  intro m
  induction os generalizing m with
  | nil => exact ⟨fun k => rfl,fun p _ => by simp [forEach]⟩
  | cons o os ih =>
    obtain ⟨hsame,hone⟩ := h o m
    obtain ⟨hsame',hall⟩ := ih (turn o m)
    refine ⟨hsame.trans hsame',?_⟩
    intro p hp
    rw [forEach, hall p ((ours_congr K m _ hsame p).trans hp), hone p hp]
    by_cases hpo : p = o <;> by_cases hps : p ∈ os <;> simp [hpo, hps, List.mem_cons]

theorem wallet_update_spent_spec (immature : CTransaction → Bool) (hash : Uint256)
    (tx : CTransaction) (fBlock : Bool) :
    SameTxs m (walletUpdateSpent K immature hash tx fBlock m) ∧ ∀ p, ours K m p = true →
      spentAt (walletUpdateSpent K immature hash tx fBlock m) p =
        if fBlock = true ∧ p ∈ outpoints hash tx then false
        else if p ∈ tx.prevouts then true else spentAt m p := by
  obtain ⟨hsame,hset⟩ := for_each_sets K (spend_ours_sets K immature) tx.prevouts m
  unfold walletUpdateSpent
  cases fBlock with
  | false =>
    refine ⟨hsame,?_⟩
    intro p hp
    simp only [Bool.false_eq_true, if_false, false_and]
    exact hset p hp
  | true =>
    obtain ⟨hsame',hclear⟩ := for_each_sets K (refund_ours_sets K) (outpoints hash tx)
      (forEach (spendOurs K immature) tx.prevouts m)
    refine ⟨hsame.trans hsame',?_⟩
    intro p hp
    simp only [if_true, true_and]
    rw [hclear p ((ours_congr K m _ hsame p).trans hp), hset p hp]

end Flags

section Inserting
variable (env : Env) (K : Keys) (m : MapWallet)

def inserted (wtxIn : CWalletTx) : MapWallet :=
  m.insert (env.hashTx wtxIn.tx) (insertOrMerge (env.hashTx wtxIn.tx) wtxIn m)

theorem update_spent_keeps (wtx : CWalletTx) (vfNewSpent : List Bool) :
    (wtx.updateSpent vfNewSpent).tx = wtx.tx ∧
      ∀ n, wtx.isSpent n = true → (wtx.updateSpent vfNewSpent).isSpent n = true := by
  unfold CWalletTx.updateSpent
  dsimp only
  split
  · exact ⟨rfl,fun n h => h⟩
  · refine ⟨rfl,?_⟩
    intro n h
    unfold CWalletTx.isSpent at h ⊢
    rw [List.getD_eq_getElem?_getD] at h ⊢
    rw [List.getElem?_mapIdx]
    cases hn : wtx.vfSpent[n]? with
    | none => simp [hn] at h
    | some f =>
      have hf : f = true := by simpa [hn] using h
      simp [hf]

variable (wtxIn : CWalletTx)

theorem insert_or_merge_new {hash : Uint256} (hm : m.lookup hash = none) :
    insertOrMerge hash wtxIn m = wtxIn.markDirty := by
  unfold insertOrMerge
  rw [hm]

theorem insert_or_merge_old {hash : Uint256} {wtx : CWalletTx} (hm : m.lookup hash = some wtx) :
    (insertOrMerge hash wtxIn m).tx = wtx.tx ∧
      ∀ n, wtx.isSpent n = true → (insertOrMerge hash wtxIn m).isSpent n = true := by
  unfold insertOrMerge
  rw [hm]
  exact update_spent_keeps _ _

theorem spent_at_some {o : COutPoint} {wtx : CWalletTx} (h : m.lookup o.hash = some wtx) :
    spentAt m o = wtx.isSpent o.n := by
  unfold spentAt
  rw [h]
  rfl

theorem add_same_txs (immature : CTransaction → Bool) (fWritten : Bool) :
    SameTxs (inserted env m wtxIn) (addToWallet K env immature wtxIn fWritten m) := by
  cases fWritten with
  | false => exact fun k => rfl
  | true => exact (wallet_update_spent_spec K (inserted env m wtxIn) _ _ _ _).1

end Inserting

section Committing
variable (K : Keys) (D : List Uint256)

def Kept (m m' : MapWallet) : Prop :=
  ∀ k, (m'.lookup k).map CWalletTx.tx = (m.lookup k).map CWalletTx.tx ∨
    (m.lookup k = none ∧ (m'.lookup k).map CWalletTx.tx = some CWalletTx.empty.tx)

theorem SameTxs.kept {m₁ m₂ m₃ : MapWallet} (h : SameTxs m₁ m₂) (h' : Kept m₂ m₃) :
    Kept m₁ m₃ := by
  intro k
  rcases h' k with hk | ⟨hn,hk⟩
  · exact Or.inl (hk.trans (h k))
  · refine Or.inr ⟨?_,hk⟩
    have hkey := h k
    rw [hn, Option.map_none] at hkey
    exact Option.map_eq_none_iff.mp hkey.symm

variable {m : MapWallet} {o : COutPoint}

theorem kept_ours {m' : MapWallet} (h : Kept m m') (ho : ours K m' o = true) :
    ours K m o = true := by
  unfold ours at ho ⊢
  rw [our_output_by_tx] at ho ⊢
  rcases h o.hash with hk | ⟨_,hk⟩
  · rw [← hk]
    exact ho
  · rw [hk] at ho
    cases ho

theorem kept_spent_by {m' : MapWallet} (h : Kept m m') (hs : spentBy m' D o = true) :
    spentBy m D o = true := by
  obtain ⟨k,wtx',hw,hk,ho⟩ := (spent_by_iff m' D o).mp hs
  rcases h k with hkey | ⟨_,hkey⟩
  · rw [hw, Option.map_some] at hkey
    obtain ⟨wtx,hw',htx⟩ := Option.map_eq_some_iff.mp hkey.symm
    exact (spent_by_iff m D o).mpr ⟨k,wtx,hw',hk,htx ▸ ho⟩
  · rw [hw, Option.map_some] at hkey
    rw [Option.some.inj hkey] at ho
    cases ho

theorem present_congr {m' : MapWallet} (h : SameTxs m m') : present m' = present m := by
  funext o
  unfold present
  have hkey := h o.hash
  cases hm : m.lookup o.hash with
  | none =>
    rw [hm, Option.map_none] at hkey
    rw [Option.map_eq_none_iff.mp hkey]
  | some wtx =>
    rw [hm, Option.map_some] at hkey
    obtain ⟨wtx',hw',htx⟩ := Option.map_eq_some_iff.mp hkey
    rw [hw', Option.bind_some, Option.bind_some, htx]

theorem empty_throws (n : ℕ) : CWalletTx.empty.markDirty.markSpent n = none := by
  unfold CWalletTx.markSpent CWalletTx.mark
  exact if_pos (Nat.zero_le n)

theorem mark_one {coin wtx : CWalletTx} (hm : m.lookup o.hash = some wtx)
    (hmark : wtx.markDirty.markSpent o.n = some coin) :
    SameTxs m (m.insert o.hash coin) ∧ ∀ p, ours K m p = true →
      (p = o ∨ spentAt m p = true) → spentAt (m.insert o.hash coin) p = true := by
  have hn : o.n < wtx.markDirty.tx.vout.length := by
    by_contra hge
    unfold CWalletTx.markSpent CWalletTx.mark at hmark
    rw [if_pos (Nat.not_lt.mp hge)] at hmark
    cases hmark
  obtain ⟨wtx',hw',htx,hs⟩ := mark_of_lt wtx.markDirty true o.n hn
  have hcoin : wtx' = coin := Option.some.inj (hw'.symm.trans hmark)
  subst hcoin
  obtain ⟨hsame,hflag⟩ := insert_marked K true hm htx hs
  refine ⟨hsame,?_⟩
  intro p hp hor
  rw [hflag p hp]
  rcases hor with hpo | hspent
  · rw [if_pos hpo]
  · rw [hspent, ite_self]

theorem commit_spent_spec (os : List COutPoint) (m : MapWallet) :
    Kept m (commitSpent os m) ∧ ∀ p, ours K m p = true →
      (p ∈ os.takeWhile (present m) ∨ spentAt m p = true) →
      spentAt (commitSpent os m) p = true := by
  induction os generalizing m with
  | nil =>
    refine ⟨fun k => Or.inl rfl,?_⟩
    intro p _ hor
    rcases hor with h | h
    · cases h
    · exact h
  | cons o os ih =>
    unfold commitSpent getDefault
    cases hm : m.lookup o.hash with
    | none =>
      have habsent : present m o = false := by
        unfold present
        rw [hm]
        rfl
      simp only [empty_throws]
      refine ⟨?_,?_⟩
      · intro k
        rw [lookup_insert_if, lookup_insert_if]
        by_cases hk : k = o.hash
        · rw [if_pos hk]
          exact Or.inr ⟨hk ▸ hm,rfl⟩
        · rw [if_neg hk, if_neg hk]
          exact Or.inl rfl
      · intro p hp hor
        rw [List.takeWhile_cons, habsent] at hor
        rcases hor with h | h
        · cases h
        · obtain ⟨wp,_,hwp,_,_⟩ := (ours_iff K m p).mp hp
          have hne : p.hash ≠ o.hash := by
            intro he
            rw [he, hm] at hwp
            cases hwp
          unfold spentAt
          rw [lookup_insert_if, lookup_insert_if, if_neg hne, if_neg hne]
          exact h
    | some wtx =>
      dsimp only
      cases hmark : wtx.markDirty.markSpent o.n with
      | none =>
        have hge : wtx.tx.vout.length ≤ o.n := by
          by_contra hlt
          obtain ⟨w',hw',_⟩ := mark_of_lt wtx.markDirty true o.n (Nat.not_le.mp hlt)
          rw [CWalletTx.markSpent, hw'] at hmark
          cases hmark
        have habsent : present m o = false := by
          unfold present
          rw [hm, Option.bind_some, List.getElem?_eq_none_iff.mpr hge]
          rfl
        dsimp only
        have hsame := same_txs_insert m wtx.markDirty hm rfl
        refine ⟨fun k => Or.inl (hsame k),?_⟩
        intro p hp hor
        rw [List.takeWhile_cons, habsent] at hor
        rcases hor with h | h
        · cases h
        · obtain ⟨wp,_,hwp,_,_⟩ := (ours_iff K m p).mp hp
          unfold spentAt at h ⊢
          rw [lookup_insert_if]
          by_cases he : p.hash = o.hash
          · rw [if_pos he]
            rw [he, hm] at h
            exact h
          · rw [if_neg he]
            exact h
      | some coin =>
        dsimp only
        obtain ⟨hsame,hone⟩ := mark_one K hm hmark
        obtain ⟨hkept,hrest⟩ := ih (m.insert o.hash coin)
        refine ⟨hsame.kept hkept,?_⟩
        intro p hp hor
        have hp' : ours K (m.insert o.hash coin) p = true := (ours_congr K m _ hsame p).trans hp
        refine hrest p hp' ?_
        rw [present_congr hsame]
        rcases hor with h | h
        · rw [List.takeWhile_cons] at h
          split at h
          · rcases List.mem_cons.mp h with rfl | h
            · exact Or.inr (hone p hp (Or.inl rfl))
            · exact Or.inl h
          · cases h
        · exact Or.inr (hone p hp (Or.inr h))

end Committing

section Hashes
variable (env : Env)

def Keyed (m : MapWallet) : Prop :=
  ∀ k tx, (m.lookup k).map CWalletTx.tx = some tx → tx.vout ≠ [] → env.hashTx tx = k

theorem kept_keyed {m m' : MapWallet} (h : Kept m m') (hm : Keyed env m) : Keyed env m' := by
  intro k tx htx hne
  rcases h k with hk | ⟨_,hk⟩
  · exact hm k tx (hk ▸ htx) hne
  · rw [hk] at htx
    exact absurd (congrArg CTransaction.vout (Option.some.inj htx).symm) hne

theorem SameTxs.keyed {m m' : MapWallet} (h : SameTxs m m') (hm : Keyed env m) : Keyed env m' :=
  kept_keyed env (fun k => Or.inl (h k)) hm

theorem inserted_keyed (wtxIn : CWalletTx) {m : MapWallet} (hm : Keyed env m) :
    Keyed env (inserted env m wtxIn) := by
  intro k tx htx hne
  unfold inserted at htx
  rw [lookup_insert_if] at htx
  by_cases hk : k = env.hashTx wtxIn.tx
  · rw [if_pos hk, Option.map_some] at htx
    have hw := Option.some.inj htx
    cases hl : m.lookup (env.hashTx wtxIn.tx) with
    | none =>
      rw [insert_or_merge_new m wtxIn hl] at hw
      rw [hk, ← hw]
      rfl
    | some wtx =>
      rw [(insert_or_merge_old m wtxIn hl).1] at hw
      refine hm k tx ?_ hne
      rw [hk, hl, Option.map_some, hw]
  · rw [if_neg hk] at htx
    exact hm k tx htx hne

end Hashes

end SwippCore.WalletMarks
