import SwippCore.Wallet

/-!
# Cached amounts and the balance

A transaction of the wallet remembers its debit, its credit, its available credit
and its change once they were computed. `GetBalance` adds up the available credit of
the transactions that are trusted, which for an unconfirmed one asks its debit.
Right caches make no difference to it.
-/

set_option autoImplicit false

namespace SwippCore.WalletBalance
open FinMap CWallet WalletMarks

section Fresh
variable (K : Keys)

def getChange (tx : CTransaction) : Option ℤ := sumOuts K.change 0 tx.vout

def unspentOuts (wtx : CWalletTx) : List CTxOut :=
  (wtx.tx.vout.zipIdx.filter fun x => !wtx.isSpent x.2).map Prod.fst

def availableCredit (wtx : CWalletTx) : Option ℤ := sumOuts K.mine 0 (unspentOuts wtx)

end Fresh

section Cached
variable (K : Keys) (m : MapWallet) (wtx : CWalletTx)

def readDebit : Reading :=
  if wtx.tx.vin.isEmpty then (some 0,wtx)
  else
    cached wtx wtx.nDebitCached (getDebit K m wtx.tx) fun n => { wtx with nDebitCached := some n }

def readAvailableCredit (fImmature fUseCache : Bool) : Reading :=
  if fImmature then (some 0,wtx)
  else
    cached wtx (if fUseCache then wtx.nAvailableCreditCached else none) (availableCredit K wtx)
      fun n => { wtx with nAvailableCreditCached := some n }

def readChange : Reading :=
  cached wtx wtx.nChangeCached (getChange K wtx.tx) fun n => { wtx with nChangeCached := some n }

end Cached

/-- What the balance reads besides the wallet. `vtxPrev` are the supporting transactions of a
transaction, and `nWork` bounds how many of them a walk looks at. -/
structure BalanceView where
  isFinalTx : CTransaction → Bool
  depthInMainChain : CTransaction → ℤ
  blocksToMaturity : CTransaction → ℤ
  fConfChange : Bool
  vtxPrev : CTransaction → List CTransaction
  nWork : ℕ

section Balance
variable (V : BalanceView) (env : Env) (K : Keys)

def immature (tx : CTransaction) : Bool :=
  (tx.isCoinBase || tx.isCoinStake) && 0 < V.blocksToMaturity tx

/-- The walk of `IsTrusted` over the transactions that an unconfirmed one rests on. It asks the
wallet for their debits, never a cache. -/
def supported (m : MapWallet) (prevs : List CTransaction) : ℕ → List CTransaction → Option Bool
  | _, [] => some true
  | 0, _::_ => none
  | n+1, ptx::queue =>
    if !V.isFinalTx ptx then some false
    else if 1 ≤ V.depthInMainChain ptx then supported m prevs n queue
    else if V.depthInMainChain ptx < 0 then some false
    else
      match isFromMe K m ptx with
      | none => none
      | some false => some false
      | some true =>
        match ptx.prevouts.mapM fun o => prevs.find? fun tx => env.hashTx tx == o.hash with
        | none => some false
        | some txs => supported m prevs n (queue++txs)

def isTrusted (m : MapWallet) (wtx : CWalletTx) : Option Bool × CWalletTx :=
  if !V.isFinalTx wtx.tx then (some false,wtx)
  else if 1 ≤ V.depthInMainChain wtx.tx then (some true,wtx)
  else if V.depthInMainChain wtx.tx < 0 || V.fConfChange then (some false,wtx)
  else
    match readDebit K m wtx with
    | (none,wtx) => (none,wtx)
    | (some nDebit,wtx) =>
      if 0 < nDebit then (supported V env K m (V.vtxPrev wtx.tx) V.nWork [wtx.tx],wtx)
      else (some false,wtx)

/-- One turn of the loop of `GetBalance`. -/
def balanceOf (k : Uint256) (m : MapWallet) : Option ℤ × MapWallet :=
  match m.lookup k with
  | none => (some 0,m)
  | some wtx =>
    match isTrusted V env K m wtx with
    | (none,wtx) => (none,m.insert k wtx)
    | (some false,wtx) => (some 0,m.insert k wtx)
    | (some true,wtx) =>
      let r := readAvailableCredit K wtx (immature V wtx.tx) true
      (r.1,m.insert k r.2)

def sumBalance : List Uint256 → ℤ → MapWallet → Option ℤ × MapWallet
  | [], nTotal, m => (some nTotal,m)
  | k::ks, nTotal, m =>
    match balanceOf V env K k m with
    | (none,m) => (none,m)
    | (some n,m) => sumBalance ks (nTotal+n) m

def walletKeys (m : MapWallet) : List Uint256 := m.keys.mergeSort fun a b => a ≤ b

/-- `GetBalance`; none where it throws. -/
def getBalance (m : MapWallet) : Option ℤ × MapWallet := sumBalance V env K (walletKeys m) 0 m

end Balance

/-- `CWallet::MarkDirty` -/
def markAllDirty (m : MapWallet) : MapWallet := mapValues CWalletTx.markDirty m

section Right
variable (K : Keys) (m : MapWallet)

structure Right (wtx : CWalletTx) : Prop where
  debit : ∀ n, wtx.nDebitCached = some n → getDebit K m wtx.tx = some n
  credit : ∀ n, wtx.nCreditCached = some n → getCredit K wtx.tx = some n
  available : ∀ n, wtx.nAvailableCreditCached = some n → availableCredit K wtx = some n
  change : ∀ n, wtx.nChangeCached = some n → getChange K wtx.tx = some n

def AllRight : Prop := ∀ k wtx, m.lookup k = some wtx → Right K m wtx

theorem get_debit_congr {m' : MapWallet} (h : SameTxs m m') (tx : CTransaction) :
    getDebit K m' tx = getDebit K m tx := by
  unfold getDebit
  have hout : ourOutput K m' = ourOutput K m := by
    funext o
    rw [our_output_by_tx, our_output_by_tx, h o.hash]
  rw [hout]

theorem right_congr {m' : MapWallet} (h : SameTxs m m') {wtx : CWalletTx} (hr : Right K m wtx) :
    Right K m' wtx :=
  ⟨fun n hn => (get_debit_congr K m h wtx.tx).trans (hr.debit n hn),hr.credit,hr.available,
    hr.change⟩

theorem mark_dirty_right (wtx : CWalletTx) : Right K m wtx.markDirty :=
  ⟨nofun,nofun,nofun,nofun⟩

theorem insert_same_right {k : Uint256} {wtx wtx' : CWalletTx} (hall : AllRight K m)
    (hw : m.lookup k = some wtx) (htx : wtx'.tx = wtx.tx) (hr : Right K m wtx') :
    AllRight K (m.insert k wtx') := by
  have hsame := same_txs_insert m wtx' hw htx
  intro j w hj
  rw [lookup_insert_if] at hj
  by_cases hjk : j = k
  · rw [if_pos hjk] at hj
    cases hj
    exact right_congr K m hsame hr
  · rw [if_neg hjk] at hj
    exact right_congr K m hsame (hall j w hj)

end Right

section Reads
variable (K : Keys) (m : MapWallet)

def SameBooks (m m' : MapWallet) : Prop :=
  ∀ k, (m'.lookup k).map CWalletTx.markDirty = (m.lookup k).map CWalletTx.markDirty

theorem SameBooks.sameTxs {m m' : MapWallet} (h : SameBooks m m') : SameTxs m m' := by
  intro k
  have hk := congrArg (Option.map CWalletTx.tx) (h k)
  rw [Option.map_map, Option.map_map] at hk
  exact hk

theorem SameBooks.trans {m₁ m₂ m₃ : MapWallet} (h : SameBooks m₁ m₂) (h' : SameBooks m₂ m₃) :
    SameBooks m₁ m₃ := fun k => (h' k).trans (h k)

variable {wtx : CWalletTx}

theorem same_books_insert {k : Uint256} {wtx' : CWalletTx} (hw : m.lookup k = some wtx)
    (hd : wtx'.markDirty = wtx.markDirty) : SameBooks m (m.insert k wtx') := by
  intro j
  rw [lookup_insert_if]
  by_cases hj : j = k
  · rw [if_pos hj, hj, hw, Option.map_some, Option.map_some, hd]
  · rw [if_neg hj]

theorem tx_of_dirty {wtx' : CWalletTx} (h : wtx'.markDirty = wtx.markDirty) : wtx'.tx = wtx.tx := by
  have htx := congrArg CWalletTx.tx h
  exact htx

theorem available_of_dirty {wtx' : CWalletTx} (h : wtx'.markDirty = wtx.markDirty) :
    availableCredit K wtx' = availableCredit K wtx := by
  have hcredit := congrArg (availableCredit K) h
  exact hcredit

structure Faithful (wtx : CWalletTx) (amount : Option ℤ) (r : Reading) : Prop where
  value : r.1 = amount
  right : Right K m r.2
  same : r.2.markDirty = wtx.markDirty

theorem cached_faithful {slot amount : Option ℤ} (store : ℤ → CWalletTx) (hr : Right K m wtx)
    (hslot : ∀ n, slot = some n → amount = some n)
    (hstore : ∀ n, amount = some n → Right K m (store n))
    (hsame : ∀ n, (store n).markDirty = wtx.markDirty) :
    Faithful K m wtx amount (cached wtx slot amount store) := by
  cases slot with
  | some n => exact ⟨(hslot n rfl).symm,hr,rfl⟩
  | none =>
    cases amount with
    | none => exact ⟨rfl,hr,rfl⟩
    | some n => exact ⟨rfl,hstore n rfl,hsame n⟩

theorem slot_used {fUseCache : Bool} {slot : Option ℤ} {n : ℤ}
    (h : (if fUseCache then slot else none) = some n) : slot = some n := by
  cases fUseCache with
  | true => exact h
  | false => cases h

theorem read_debit_faithful (hr : Right K m wtx) :
    Faithful K m wtx (getDebit K m wtx.tx) (readDebit K m wtx) := by
  unfold readDebit
  split
  · rename_i hvin
    refine ⟨?_,hr,rfl⟩
    have hnil : wtx.tx.vin = [] := List.isEmpty_iff.mp hvin
    unfold getDebit CTransaction.prevouts
    rw [hnil]
    rfl
  · exact cached_faithful K m _ hr hr.debit
      (fun _ hn => ⟨fun _ hj => hn.trans hj,hr.credit,hr.available,hr.change⟩) (fun _ => rfl)

theorem read_credit_faithful (fImmature fUseCache : Bool) (hr : Right K m wtx) :
    Faithful K m wtx (if fImmature then some 0 else getCredit K wtx.tx)
      (readCredit K wtx fImmature fUseCache) := by
  unfold readCredit
  cases fImmature with
  | true => exact ⟨rfl,hr,rfl⟩
  | false =>
    exact cached_faithful K m _ hr (fun n hn => hr.credit n (slot_used hn))
      (fun _ hn => ⟨hr.debit,fun _ hj => hn.trans hj,hr.available,hr.change⟩) (fun _ => rfl)

theorem read_available_faithful (fImmature fUseCache : Bool) (hr : Right K m wtx) :
    Faithful K m wtx (if fImmature then some 0 else availableCredit K wtx)
      (readAvailableCredit K wtx fImmature fUseCache) := by
  unfold readAvailableCredit
  cases fImmature with
  | true => exact ⟨rfl,hr,rfl⟩
  | false =>
    exact cached_faithful K m _ hr
      (fun n hn => hr.available n (slot_used hn))
      (fun _ hn => ⟨hr.debit,hr.credit,fun _ hj => hn.trans hj,hr.change⟩) (fun _ => rfl)

theorem read_change_faithful (hr : Right K m wtx) :
    Faithful K m wtx (getChange K wtx.tx) (readChange K wtx) :=
  cached_faithful K m _ hr hr.change
    (fun _ hn => ⟨hr.debit,hr.credit,hr.available,fun _ hj => hn.trans hj⟩) (fun _ => rfl)

theorem store_read {k : Uint256} (amount : Option ℤ) (r : Reading) (hall : AllRight K m)
    (hw : m.lookup k = some wtx) (hf : Faithful K m wtx amount r) :
    SameBooks m (m.insert k r.2) ∧ AllRight K (m.insert k r.2) :=
  ⟨same_books_insert m hw hf.same,
    insert_same_right K m hall hw (tx_of_dirty hf.same) hf.right⟩

end Reads

section Sums
variable (V : BalanceView) (env : Env) (K : Keys)

/-- What `IsTrusted` answers when the debit is computed. -/
def freshTrusted (m : MapWallet) (tx : CTransaction) : Option Bool :=
  if !V.isFinalTx tx then some false
  else if 1 ≤ V.depthInMainChain tx then some true
  else if V.depthInMainChain tx < 0 || V.fConfChange then some false
  else
    match getDebit K m tx with
    | none => none
    | some nDebit =>
      if 0 < nDebit then supported V env K m (V.vtxPrev tx) V.nWork [tx] else some false

def freshBalanceOf (k : Uint256) (m : MapWallet) : Option ℤ :=
  match m.lookup k with
  | none => some 0
  | some wtx =>
    match freshTrusted V env K m wtx.tx with
    | none => none
    | some false => some 0
    | some true => if immature V wtx.tx then some 0 else availableCredit K wtx

variable {m : MapWallet}

theorem supported_congr {m' : MapWallet} (h : SameTxs m m') (prevs : List CTransaction) (n : ℕ)
    (queue : List CTransaction) :
    supported V env K m' prevs n queue = supported V env K m prevs n queue := by
  have hfrom : ∀ tx, isFromMe K m' tx = isFromMe K m tx := by
    intro tx
    unfold isFromMe
    rw [get_debit_congr K m h]
  induction n generalizing queue with
  | zero =>
    cases queue with
    | nil => rfl
    | cons ptx queue => rfl
  | succ n ih =>
    cases queue with
    | nil => rfl
    | cons ptx queue =>
      unfold supported
      rw [hfrom]
      simp only [ih]

theorem fresh_trusted_congr {m' : MapWallet} (h : SameTxs m m') (tx : CTransaction) :
    freshTrusted V env K m' tx = freshTrusted V env K m tx := by
  unfold freshTrusted
  rw [get_debit_congr K m h]
  simp only [supported_congr V env K h]

theorem fresh_balance_congr {m' : MapWallet} (h : SameBooks m m') (k : Uint256) :
    freshBalanceOf V env K k m' = freshBalanceOf V env K k m := by
  have hk := h k
  unfold freshBalanceOf
  cases hm : m.lookup k with
  | none =>
    rw [hm, Option.map_none] at hk
    rw [Option.map_eq_none_iff.mp hk]
  | some wtx =>
    rw [hm, Option.map_some] at hk
    obtain ⟨wtx',hw',hd⟩ := Option.map_eq_some_iff.mp hk
    have htx := tx_of_dirty hd
    have hcredit := available_of_dirty K hd
    rw [hw']
    dsimp only
    rw [htx, hcredit, fresh_trusted_congr V env K h.sameTxs]

theorem is_trusted_faithful {wtx : CWalletTx} (hr : Right K m wtx) :
    (isTrusted V env K m wtx).1 = freshTrusted V env K m wtx.tx ∧
      Right K m (isTrusted V env K m wtx).2 ∧
      (isTrusted V env K m wtx).2.markDirty = wtx.markDirty := by
  have hread := read_debit_faithful K m hr
  unfold isTrusted freshTrusted
  split
  · exact ⟨rfl,hr,rfl⟩
  · split
    · exact ⟨rfl,hr,rfl⟩
    · split
      · exact ⟨rfl,hr,rfl⟩
      · rw [← hread.value]
        match hres : readDebit K m wtx with
        | (none,wtx') =>
          rw [hres] at hread
          exact ⟨rfl,hread.right,hread.same⟩
        | (some nDebit,wtx') =>
          rw [hres] at hread
          have htx : wtx'.tx = wtx.tx := tx_of_dirty hread.same
          dsimp only
          rw [htx]
          split
          · exact ⟨rfl,hread.right,hread.same⟩
          · exact ⟨rfl,hread.right,hread.same⟩

theorem balance_of_fresh (k : Uint256) (hall : AllRight K m) :
    (balanceOf V env K k m).1 = freshBalanceOf V env K k m ∧
      SameBooks m (balanceOf V env K k m).2 ∧ AllRight K (balanceOf V env K k m).2 := by
  unfold balanceOf freshBalanceOf
  cases hw : m.lookup k with
  | none => exact ⟨rfl,fun j => rfl,hall⟩
  | some wtx =>
    obtain ⟨hval,hright,hsame⟩ := is_trusted_faithful V env K (hall k wtx hw)
    dsimp only
    rw [← hval]
    match hres : isTrusted V env K m wtx with
    | (none,wtx') =>
      rw [hres] at hright hsame
      exact ⟨rfl,store_read K m none (none,wtx') hall hw ⟨rfl,hright,hsame⟩⟩
    | (some false,wtx') =>
      rw [hres] at hright hsame
      exact ⟨rfl,store_read K m none (none,wtx') hall hw ⟨rfl,hright,hsame⟩⟩
    | (some true,wtx') =>
      rw [hres] at hright hsame
      have htx : wtx'.tx = wtx.tx := tx_of_dirty hsame
      have hread := read_available_faithful K m (immature V wtx'.tx) true hright
      have hcredit : availableCredit K wtx' = availableCredit K wtx :=
        available_of_dirty K hsame
      refine ⟨?_,store_read K m _ _ hall hw
        ⟨rfl,hread.right,hread.same.trans hsame⟩⟩
      dsimp only
      rw [hread.value, htx, hcredit]

def freshSum (m : MapWallet) : List Uint256 → ℤ → Option ℤ
  | [], nTotal => some nTotal
  | k::ks, nTotal =>
    match freshBalanceOf V env K k m with
    | none => none
    | some n => freshSum m ks (nTotal+n)

theorem fresh_sum_congr {m' : MapWallet} (h : SameBooks m m') (ks : List Uint256) (nTotal : ℤ) :
    freshSum V env K m' ks nTotal = freshSum V env K m ks nTotal := by
  induction ks generalizing nTotal with
  | nil => rfl
  | cons k ks ih =>
    unfold freshSum
    rw [fresh_balance_congr V env K h]
    simp only [ih]

theorem sum_balance_fresh (ks : List Uint256) (nTotal : ℤ) (m : MapWallet) (hall : AllRight K m) :
    (sumBalance V env K ks nTotal m).1 = freshSum V env K m ks nTotal ∧
      SameBooks m (sumBalance V env K ks nTotal m).2 ∧
      AllRight K (sumBalance V env K ks nTotal m).2 := by
  induction ks generalizing nTotal m with
  | nil => exact ⟨rfl,fun j => rfl,hall⟩
  | cons k ks ih =>
    obtain ⟨hval,hsame,hright⟩ := balance_of_fresh V env K k hall
    unfold sumBalance freshSum
    rw [← hval]
    match hres : balanceOf V env K k m with
    | (none,m') =>
      rw [hres] at hsame hright
      exact ⟨rfl,hsame,hright⟩
    | (some n,m') =>
      rw [hres] at hsame hright
      obtain ⟨hval',hsame',hright'⟩ := ih (nTotal+n) m' hright
      exact ⟨hval'.trans (fresh_sum_congr V env K hsame ks (nTotal+n)),hsame.trans hsame',
        hright'⟩

theorem mark_all_dirty_books (m : MapWallet) : SameBooks m (markAllDirty m) := by
  intro k
  unfold markAllDirty
  rw [lookup_map_values, Option.map_map]
  rfl

theorem mark_all_dirty_right (m : MapWallet) : AllRight K (markAllDirty m) := by
  intro k wtx hk
  unfold markAllDirty at hk
  rw [lookup_map_values] at hk
  obtain ⟨w,_,rfl⟩ := Option.map_eq_some_iff.mp hk
  exact mark_dirty_right K _ w

theorem balance_without_caches (hall : AllRight K m) :
    (getBalance V env K m).1 = (getBalance V env K (markAllDirty m)).1 := by
  have hkeys : walletKeys (markAllDirty m) = walletKeys m := by
    unfold walletKeys markAllDirty
    rw [keys_map_values]
  unfold getBalance
  rw [hkeys, (sum_balance_fresh V env K _ 0 m hall).1,
    (sum_balance_fresh V env K _ 0 _ (mark_all_dirty_right K m)).1,
    fresh_sum_congr V env K (mark_all_dirty_books m)]

end Sums

end SwippCore.WalletBalance
