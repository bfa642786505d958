import SwippCore.WalletBalance
import SwippCore.BlockValues

/-!
# Balances of accounts

The balance of an account is summed from the amounts of the wallet transactions that
fall to it and from its accounting entries. `getbalance "*"` sums the amounts of all
transactions, and `GetBalance` the outputs that are not spent.
-/

set_option autoImplicit false

namespace SwippCore.AccountBalance
open FinMap WalletBalance

variable {CTxDestination : Type}

structure CAccountingEntry where
  strAccount : String
  nCreditDebit : ℤ
  deriving DecidableEq, Repr

/-- What the amounts of an account read besides the wallet. Where `ExtractDestination` fails, the
destination is `CNoDestination`. -/
structure AccountView (CTxDestination : Type) where
  destination : CScript → CTxDestination
  mapAddressBook : CTxDestination → Option String
  strFromAccount : Uint256 → String

abbrev Amount (CTxDestination : Type) := CTxDestination × ℤ

structure Amounts (CTxDestination : Type) where
  listReceived : List (Amount CTxDestination)
  listSent : List (Amount CTxDestination)
  nFee : ℤ
  strSentAccount : String

section Code
variable (K : Keys) (A : AccountView CTxDestination) (m : MapWallet)

/-- The loop over the outputs of `GetAmounts`: received and sent ones. -/
def sortOutputs (nDebit : ℤ) : List CTxOut → List (Amount CTxDestination) × List (Amount CTxDestination)
  | [] => ([],[])
  | txout::os =>
    let rest := sortOutputs nDebit os
    let fIsMine := K.mine txout.scriptPubKey
    let amount := (A.destination txout.scriptPubKey,txout.nValue)
    if txout.scriptPubKey.isEmpty then rest
    else if !decide (0 < nDebit) && !fIsMine then rest
    else
      (if fIsMine then amount::rest.1 else rest.1,if 0 < nDebit then amount::rest.2 else rest.2)

/-- `GetAmounts`; none where `GetDebit` or `GetValueOut` throws. -/
def getAmounts (k : Uint256) (wtx : CWalletTx) : Option (Amounts CTxDestination) :=
  match (readDebit K m wtx).1 with
  | none => none
  | some nDebit =>
    let lists := sortOutputs K A nDebit wtx.tx.vout
    if 0 < nDebit then
      match wtx.tx.getValueOut with
      | .error _ => none
      | .ok nValueOut => some ⟨lists.1,lists.2,nDebit-nValueOut,A.strFromAccount k⟩
    else some ⟨lists.1,lists.2,0,A.strFromAccount k⟩

def total (l : List (Amount CTxDestination)) : ℤ := (l.map Prod.snd).sum

def fallsTo (strAccount : String) (r : Amount CTxDestination) : Bool :=
  match A.mapAddressBook r.1 with
  | some label => label == strAccount
  | none => strAccount.isEmpty

/-- `GetAccountAmounts`: received, sent and the fee. -/
def getAccountAmounts (strAccount : String) (a : Amounts CTxDestination) : ℤ × ℤ × ℤ :=
  let nSent := if strAccount = a.strSentAccount then total a.listSent else 0
  let nFee := if strAccount = a.strSentAccount then a.nFee else 0
  (total (a.listReceived.filter (fallsTo A strAccount)),nSent,nFee)

variable (V : BalanceView) (nMinDepth : ℤ)

/-- One turn of the loop of `GetAccountBalance`. -/
def accountTurn (strAccount : String) (k : Uint256) : Option ℤ :=
  match m.lookup k with
  | none => some 0
  | some wtx =>
    if !V.isFinalTx wtx.tx || V.depthInMainChain wtx.tx < 0 then some 0
    else
      (getAmounts K A m k wtx).map fun a =>
        let n := getAccountAmounts A strAccount a
        (if n.1 ≠ 0 ∧ nMinDepth ≤ V.depthInMainChain wtx.tx ∧ V.blocksToMaturity wtx.tx = 0 then n.1
          else 0)-(n.2.1+n.2.2)

def tally (turn : Uint256 → Option ℤ) : List Uint256 → ℤ → Option ℤ
  | [], nBalance => some nBalance
  | k::ks, nBalance =>
    match turn k with
    | none => none
    | some n => tally turn ks (nBalance+n)

/-- `GetAccountCreditDebit`; the records of an account stand together, and those of all are listed
for `*`. -/
def getAccountCreditDebit (strAccount : String) (entries : List CAccountingEntry) : ℤ :=
  ((entries.filter fun e => strAccount = "*" ∨ e.strAccount = strAccount).map
    CAccountingEntry.nCreditDebit).sum

def getAccountBalance (strAccount : String) (entries : List CAccountingEntry) : Option ℤ :=
  (tally (accountTurn K A m V nMinDepth strAccount) (walletKeys m) 0).map
    (·+getAccountCreditDebit strAccount entries)

variable (env : Env)

/-- One turn of `getbalance` for `*`. -/
def allTurn (k : Uint256) : Option ℤ :=
  match m.lookup k with
  | none => some 0
  | some wtx =>
    match (isTrusted V env K m wtx).1 with
    | none => none
    | some false => some 0
    | some true =>
      (getAmounts K A m k wtx).map fun a =>
        (if nMinDepth ≤ V.depthInMainChain wtx.tx ∧ V.blocksToMaturity wtx.tx = 0 then
          total a.listReceived else 0)-total a.listSent-a.nFee

/-- `getbalance "*"` -/
def getBalanceAll : Option ℤ := tally (allTurn K A m V nMinDepth env) (walletKeys m) 0

end Code

structure MoveWrites where
  fBegun : Bool
  fDebit : Bool
  fCredit : Bool
  fCommitted : Bool

structure Move where
  strFrom : String
  strTo : String
  nAmount : ℤ
  writes : MoveWrites

/-- `movecmd`; none where it throws, which leaves the entries as they are. -/
def movecmd (mv : Move) (entries : List CAccountingEntry) : Option (List CAccountingEntry) :=
  if mv.strFrom = "*" ∨ mv.strTo = "*" then none
  else if !mv.writes.fBegun then none
  else if !mv.writes.fCommitted then none
  else some (entries++(if mv.writes.fDebit then [⟨mv.strFrom,-mv.nAmount⟩] else [])++
    (if mv.writes.fCredit then [⟨mv.strTo,mv.nAmount⟩] else []))

def played : List Move → List CAccountingEntry → List CAccountingEntry
  | [], entries => entries
  | mv::mvs, entries => played mvs ((movecmd mv entries).getD entries)

structure Settled (V : BalanceView) (nMinDepth : ℤ) (m : MapWallet) : Prop where
  final : ∀ k wtx, m.lookup k = some wtx → V.isFinalTx wtx.tx = true
  confirmed : ∀ k wtx, m.lookup k = some wtx → 1 ≤ V.depthInMainChain wtx.tx
  deep : ∀ k wtx, m.lookup k = some wtx → nMinDepth ≤ V.depthInMainChain wtx.tx
  mature : ∀ k wtx, m.lookup k = some wtx → V.blocksToMaturity wtx.tx = 0

/-- The names of accounts: the labels, the sending accounts, the default one, and those of the
accounting entries. -/
structure Named (A : AccountView CTxDestination) (m : MapWallet) (entries : List CAccountingEntry)
    (names : Finset String) : Prop where
  default : "" ∈ names
  labels : ∀ d label, A.mapAddressBook d = some label → label ∈ names
  senders : ∀ k, k ∈ m → A.strFromAccount k ∈ names
  moved : ∀ e ∈ entries, e.strAccount ∈ names

def Move.Complete (mv : Move) : Prop := mv.writes.fDebit = true ∧ mv.writes.fCredit = true

section Tally
variable (turn : Uint256 → Option ℤ)

theorem tally_some (f : Uint256 → ℤ) {ks : List Uint256} (h : ∀ k ∈ ks, turn k = some (f k)) (n : ℤ) :
    tally turn ks n = some (n+(ks.map f).sum) := by
  induction ks generalizing n with
  | nil => simp [tally]
  | cons k ks ih =>
    rw [tally, h k List.mem_cons_self]
    dsimp only
    rw [ih (fun j hj => h j (List.mem_cons_of_mem k hj)), List.map_cons, List.sum_cons, Int.add_assoc]

theorem tally_none {ks : List Uint256} (h : ∃ k ∈ ks, turn k = none) (n : ℤ) :
    tally turn ks n = none := by
  induction ks generalizing n with
  | nil =>
    obtain ⟨k,hk,-⟩ := h
    cases hk
  | cons k ks ih =>
    rw [tally]
    cases hk : turn k with
    | none => rfl
    | some x =>
      apply ih
      obtain ⟨j,hj,hnone⟩ := h
      rcases List.mem_cons.mp hj with rfl | hj
      · rw [hk] at hnone
        cases hnone
      · exact ⟨j,hj,hnone⟩

theorem tally_cases (ks : List Uint256) : (∃ f : Uint256 → ℤ, ∀ k ∈ ks, turn k = some (f k)) ∨
    ∃ k ∈ ks, turn k = none := by
  by_cases h : ∃ k ∈ ks, turn k = none
  · exact Or.inr h
  · left
    refine ⟨fun k => (turn k).getD 0,?_⟩
    intro k hk
    cases hturn : turn k with
    | none => exact absurd ⟨k,hk,hturn⟩ h
    | some x =>
      show some x = some ((turn k).getD 0)
      rw [hturn]
      rfl

end Tally

section Split
variable (A : AccountView CTxDestination) (names : Finset String)

theorem falls_to_iff (strAccount : String) (r : Amount CTxDestination) :
    fallsTo A strAccount r = true ↔ strAccount = (A.mapAddressBook r.1).getD "" := by
  unfold fallsTo
  cases A.mapAddressBook r.1 with
  | none => simp
  | some label =>
    rw [beq_iff_eq]
    exact eq_comm

section
variable (hdefault : "" ∈ names)
  (hlabels : ∀ d label, A.mapAddressBook d = some label → label ∈ names)
include hdefault hlabels

theorem received_shared
    (l : List (Amount CTxDestination)) :
    ∑ s ∈ names, total (l.filter (fallsTo A s)) = total l := by
  induction l with
  | nil => simp [total]
  | cons r l ih =>
    have howner : (A.mapAddressBook r.1).getD "" ∈ names := by
      cases hlabel : A.mapAddressBook r.1 with
      | none => exact hdefault
      | some label => exact hlabels r.1 label hlabel
    have hsplit : ∀ s, total ((r::l).filter (fallsTo A s)) =
        (if s = (A.mapAddressBook r.1).getD "" then r.2 else 0)+total (l.filter (fallsTo A s)) := by
      intro s
      by_cases hs : s = (A.mapAddressBook r.1).getD ""
      · rw [if_pos hs, List.filter_cons_of_pos ((falls_to_iff A s r).mpr hs)]
        simp [total]
      · rw [if_neg hs, List.filter_cons_of_neg fun h => hs ((falls_to_iff A s r).mp h)]
        omega
    rw [Finset.sum_congr rfl fun s _ => hsplit s, Finset.sum_add_distrib, ih,
      Finset.sum_ite_eq' names _ fun _ => r.2, if_pos howner]
    simp [total]

theorem amounts_shared
    {a : Amounts CTxDestination} (hsender : a.strSentAccount ∈ names) :
    ∑ s ∈ names, ((getAccountAmounts A s a).1-
        ((getAccountAmounts A s a).2.1+(getAccountAmounts A s a).2.2)) =
      total a.listReceived-total a.listSent-a.nFee := by
  have hsent : ∑ s ∈ names, (if s = a.strSentAccount then total a.listSent else 0) = total a.listSent := by
    rw [Finset.sum_ite_eq' names _ fun _ => total a.listSent, if_pos hsender]
  have hfee : ∑ s ∈ names, (if s = a.strSentAccount then a.nFee else 0) = a.nFee := by
    rw [Finset.sum_ite_eq' names _ fun _ => a.nFee, if_pos hsender]
  simp only [getAccountAmounts]
  rw [Finset.sum_sub_distrib, Finset.sum_add_distrib, received_shared A names hdefault hlabels, hsent, hfee]
  omega

end

end Split

section Moves

def credits (entries : List CAccountingEntry) : ℤ := (entries.map CAccountingEntry.nCreditDebit).sum

structure Balanced (entries : List CAccountingEntry) : Prop where
  zero : credits entries = 0
  named : ∀ e ∈ entries, e.strAccount ≠ "*"

variable {entries : List CAccountingEntry}

theorem credit_of_account (h : Balanced entries) (s : String) :
    getAccountCreditDebit s entries = credits (entries.filter fun e => e.strAccount = s) := by
  by_cases hs : s = "*"
  · have hall : (entries.filter fun e => s = "*" ∨ e.strAccount = s) = entries := by
      apply List.filter_eq_self.mpr
      intro e _
      simp [hs]
    have hnone : (entries.filter fun e => e.strAccount = s) = [] := by
      apply List.filter_eq_nil_iff.mpr
      intro e he
      simpa [hs] using h.named e he
    rw [getAccountCreditDebit, hall, hnone]
    exact h.zero
  · have hsame : (entries.filter fun e => s = "*" ∨ e.strAccount = s) =
        entries.filter fun e => e.strAccount = s := by
      apply List.filter_congr
      intro e _
      simp [hs]
    rw [getAccountCreditDebit, hsame]
    rfl

theorem credits_shared {names : Finset String} (hnames : ∀ e ∈ entries, e.strAccount ∈ names) :
    ∑ s ∈ names, credits (entries.filter fun e => e.strAccount = s) = credits entries := by
  induction entries with
  | nil => simp [credits]
  | cons e entries ih =>
    have hsplit : ∀ s, credits ((e::entries).filter fun e => e.strAccount = s) =
        (if s = e.strAccount then e.nCreditDebit else 0)+
          credits (entries.filter fun e => e.strAccount = s) := by
      intro s
      by_cases hs : s = e.strAccount
      · rw [if_pos hs, List.filter_cons_of_pos (by simpa using hs.symm)]
        simp [credits]
      · rw [if_neg hs, List.filter_cons_of_neg (by simpa using fun h => hs (Eq.symm h))]
        omega
    rw [Finset.sum_congr rfl fun s _ => hsplit s, Finset.sum_add_distrib,
      ih fun d hd => hnames d (List.mem_cons_of_mem e hd),
      Finset.sum_ite_eq' names _ fun _ => e.nCreditDebit, if_pos (hnames e List.mem_cons_self)]
    simp [credits]

variable {entries' : List CAccountingEntry}

section
variable {mv : Move} (hc : mv.Complete) (h : movecmd mv entries = some entries')
include mv hc h

theorem move_entries :
    mv.strFrom ≠ "*" ∧ mv.strTo ≠ "*" ∧
      entries' = entries++[⟨mv.strFrom,-mv.nAmount⟩,⟨mv.strTo,mv.nAmount⟩] := by
  rw [movecmd, if_pos hc.1, if_pos hc.2] at h
  split_ifs at h with hstar
  rw [not_or] at hstar
  refine ⟨hstar.1,hstar.2,?_⟩
  rw [← Option.some.inj h]
  simp

theorem move_balanced
    (hb : Balanced entries) : Balanced entries' := by
  obtain ⟨hfrom,hto,rfl⟩ := move_entries hc h
  constructor
  · have hzero := hb.zero
    simp only [credits] at hzero ⊢
    simp [hzero]
  · intro e he
    rcases List.mem_append.mp he with he | he
    · exact hb.named e he
    · rcases List.mem_cons.mp he with rfl | he
      · exact hfrom
      · rw [List.mem_singleton.mp he]
        exact hto

end

theorem played_balanced {mvs : List Move} (hc : ∀ mv ∈ mvs, mv.Complete) (hb : Balanced entries) :
    Balanced (played mvs entries) := by
  induction mvs generalizing entries with
  | nil => exact hb
  | cons mv mvs ih =>
    apply ih fun v hv => hc v (List.mem_cons_of_mem mv hv)
    cases hmove : movecmd mv entries with
    | none => exact hb
    | some entries' => exact move_balanced (hc mv List.mem_cons_self) hmove hb

theorem move_credit {mv : Move} (hc : mv.Complete) (h : movecmd mv entries = some entries')
    (s : String) :
    getAccountCreditDebit s entries' = getAccountCreditDebit s entries+
      ((if s = mv.strTo then mv.nAmount else 0)-(if s = mv.strFrom then mv.nAmount else 0)) := by
  obtain ⟨hfrom,hto,rfl⟩ := move_entries hc h
  rw [getAccountCreditDebit, getAccountCreditDebit, List.filter_append, List.map_append, List.sum_append]
  congr 1
  by_cases hs : s = "*"
  · rw [if_neg (by rw [hs]; exact fun h => hto h.symm), if_neg (by rw [hs]; exact fun h => hfrom h.symm)]
    simp [hs]
  · by_cases hf : s = mv.strFrom
    · by_cases ht : s = mv.strTo
      · simp [hf.symm, ht.symm]
      · have ht' : ¬mv.strTo = s := fun h => ht h.symm
        simp [hs, hf.symm, ht, ht']
    · have hf' : ¬mv.strFrom = s := fun h => hf h.symm
      by_cases ht : s = mv.strTo
      · simp [hs, hf, hf', ht.symm]
      · have ht' : ¬mv.strTo = s := fun h => ht h.symm
        simp [hs, hf, hf', ht, ht']

end Moves

section Accounts
variable (K : Keys) (A : AccountView CTxDestination) (m : MapWallet) (V : BalanceView) (env : Env)
variable {nMinDepth : ℤ} (hset : Settled V nMinDepth m)
include hset

variable {k : Uint256} {wtx : CWalletTx}

theorem trusted_settled (hk : m.lookup k = some wtx) :
    isTrusted V env K m wtx = (some true,wtx) := by
  rw [isTrusted, hset.final k wtx hk]
  exact if_pos (hset.confirmed k wtx hk)

theorem all_turn (hk : m.lookup k = some wtx) :
    allTurn K A m V nMinDepth env k = (getAmounts K A m k wtx).map fun a =>
      total a.listReceived-total a.listSent-a.nFee := by
  simp only [allTurn, hk, trusted_settled K m V env hset hk, hset.deep k wtx hk,
    hset.mature k wtx hk, and_self, if_true]

theorem account_turn (s : String) (hk : m.lookup k = some wtx) :
    accountTurn K A m V nMinDepth s k = (getAmounts K A m k wtx).map fun a =>
      (getAccountAmounts A s a).1-((getAccountAmounts A s a).2.1+(getAccountAmounts A s a).2.2) := by
  have hdepth : ¬V.depthInMainChain wtx.tx < 0 := by
    have hone := hset.confirmed k wtx hk
    omega
  simp only [accountTurn, hk, hset.final k wtx hk, hdepth, hset.deep k wtx hk, hset.mature k wtx hk]
  simp only [Bool.not_true, Bool.false_or, decide_false, Bool.false_eq_true, if_false, and_true]
  congr 1
  funext a
  by_cases hzero : (getAccountAmounts A s a).1 = 0
  · rw [if_neg (by simpa using hzero), hzero]
  · rw [if_pos hzero]

theorem turns_alike (s : String) (k : Uint256) :
    accountTurn K A m V nMinDepth s k = none ↔ allTurn K A m V nMinDepth env k = none := by
  cases hk : m.lookup k with
  | none => simp [accountTurn, allTurn, hk]
  | some wtx =>
    rw [account_turn K A m V hset s hk, all_turn K A m V env hset hk,
      Option.map_eq_none_iff, Option.map_eq_none_iff]

section
variable {names : Finset String} {entries : List CAccountingEntry}
  (hnames : Named A m entries names)
include entries hnames

theorem turns_shared {n : ℤ} (f : String → ℤ)
    (hall : allTurn K A m V nMinDepth env k = some n)
    (hf : ∀ s, accountTurn K A m V nMinDepth s k = some (f s)) : ∑ s ∈ names, f s = n := by
  cases hk : m.lookup k with
  | none =>
    have hn : n = 0 := by simpa [allTurn, hk] using hall.symm
    have hzero : ∀ s, f s = 0 := fun s => by simpa [accountTurn, hk] using (hf s).symm
    rw [hn]
    exact Finset.sum_eq_zero fun s _ => hzero s
  | some wtx =>
    rw [all_turn K A m V env hset hk] at hall
    obtain ⟨a,ha,rfl⟩ := Option.map_eq_some_iff.mp hall
    have hsender : a.strSentAccount ∈ names := by
      have hmem : k ∈ m := (mem_iff_lookup m k).mpr ⟨wtx,hk⟩
      have hacct : a.strSentAccount = A.strFromAccount k := by
        unfold getAmounts at ha
        split at ha
        · cases ha
        · dsimp only at ha
          split_ifs at ha
          · split at ha
            · cases ha
            · cases ha
              rfl
          · cases ha
            rfl
      rw [hacct]
      exact hnames.senders k hmem
    rw [← amounts_shared A names hnames.default hnames.labels hsender]
    apply Finset.sum_congr rfl
    intro s _
    have hs := hf s
    rw [account_turn K A m V hset s hk, ha] at hs
    exact (Option.some.inj hs).symm

theorem accounts_sum (hb : Balanced entries) {n : ℤ}
    (hall : getBalanceAll K A m V nMinDepth env = some n) :
    ∃ b : String → ℤ, (∀ s, getAccountBalance K A m V nMinDepth s entries = some (b s)) ∧
      ∑ s ∈ names, b s = n := by
  rcases tally_cases (allTurn K A m V nMinDepth env) (walletKeys m) with ⟨f,hf⟩ | hnone
  · have hturns : ∀ s, ∃ g : Uint256 → ℤ, ∀ k ∈ walletKeys m,
        accountTurn K A m V nMinDepth s k = some (g k) := by
      intro s
      rcases tally_cases (accountTurn K A m V nMinDepth s) (walletKeys m) with hg | ⟨k,hk,hthrow⟩
      · exact hg
      · rw [turns_alike K A m V env hset, hf k hk] at hthrow
        cases hthrow
    choose g hg using hturns
    rw [getBalanceAll, tally_some _ f hf] at hall
    refine ⟨fun s => 0+((walletKeys m).map (g s)).sum+getAccountCreditDebit s entries,?_,?_⟩
    · intro s
      rw [getAccountBalance, tally_some _ (g s) (hg s)]
      rfl
    · have hcredit : ∑ s ∈ names, getAccountCreditDebit s entries = 0 := by
        rw [Finset.sum_congr rfl fun s _ => credit_of_account hb s,
          credits_shared hnames.moved, hb.zero]
      have hshared : ∀ ks : List Uint256, (∀ k ∈ ks, k ∈ walletKeys m) →
          ∑ s ∈ names, (ks.map (g s)).sum = (ks.map f).sum := by
        intro ks hks
        induction ks with
        | nil => simp
        | cons k ks ih =>
          have hk := hks k List.mem_cons_self
          have hturn := turns_shared K A m V env hset hnames
            (fun s => g s k) (hf k hk) fun s => hg s k hk
          simp only [List.map_cons, List.sum_cons]
          rw [Finset.sum_add_distrib, ih fun j hj => hks j (List.mem_cons_of_mem k hj), hturn]
      have hn : n = ((walletKeys m).map f).sum := by
        have hsum := Option.some.inj hall
        omega
      rw [Finset.sum_add_distrib, hcredit, hn, ← hshared (walletKeys m) fun k hk => hk]
      simp
  · rw [getBalanceAll, tally_none _ hnone] at hall
    cases hall

end

theorem accounts_throw (entries : List CAccountingEntry) (s : String)
    (hall : getBalanceAll K A m V nMinDepth env = none) :
    getAccountBalance K A m V nMinDepth s entries = none := by
  rcases tally_cases (allTurn K A m V nMinDepth env) (walletKeys m) with ⟨f,hf⟩ | ⟨k,hk,hnone⟩
  · rw [getBalanceAll, tally_some _ f hf] at hall
    cases hall
  · rw [getAccountBalance, tally_none _ ⟨k,hk,(turns_alike K A m V env hset s k).mpr hnone⟩]
    rfl

end Accounts

end SwippCore.AccountBalance
