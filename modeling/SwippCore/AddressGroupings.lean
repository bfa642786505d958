import SwippCore.Primitives
import SwippCore.Lib.Merging

/-!
# Groups of the addresses of a wallet

The addresses of the inputs and of the change of one transaction make a group, when its
first input is ours, and each address of an own output makes one. The previous
transactions are read through `operator[]` of the wallet's map, and their outputs
without a bound.
-/

set_option autoImplicit false

namespace SwippCore.AddressGroupings
open FinMap Merging

variable {CTxDestination : Type} [DecidableEq CTxDestination]

abbrev MapWallet := Dict Uint256 CTransaction

structure AddressView (CTxDestination : Type) where
  extractDestination : CScript → Option CTxDestination
  isMineScript : CScript → Bool
  isMineAddress : CTxDestination → Bool
  mapAddressBook : CTxDestination → Bool

inductive Outcome (α : Type)
  | overrun (mapWallet : MapWallet)
  | done (mapWallet : MapWallet) (a : α)

def Outcome.bind {α β : Type} (o : Outcome α) (f : MapWallet → α → Outcome β) : Outcome β :=
  match o with
  | .overrun m => .overrun m
  | .done m a => f m a

section Code
variable (V : AddressView CTxDestination)

/-- `CWallet::IsMine(const CTxIn&)` -/
def isMineInput (mapWallet : MapWallet) (txin : CTxIn) : Bool :=
  match mapWallet.lookup txin.prevout.hash with
  | none => false
  | some prev =>
    match prev.vout[txin.prevout.n]? with
    | none => false
    | some txout => V.isMineScript txout.scriptPubKey

def isChange (txout : CTxOut) : Bool :=
  match V.extractDestination txout.scriptPubKey with
  | none => false
  | some address => V.isMineAddress address && !V.mapAddressBook address

/-- `mapWallet[hash]` -/
def wtxAt (mapWallet : MapWallet) (hash : Uint256) : MapWallet × CTransaction :=
  match mapWallet.lookup hash with
  | some wtx => (mapWallet,wtx)
  | none => (mapWallet.insert hash ⟨0,0,[],[],0⟩,⟨0,0,[],[],0⟩)

def groupInputs : List CTxIn → MapWallet → Finset CTxDestination → Outcome (Finset CTxDestination)
  | [], mapWallet, grouping => .done mapWallet grouping
  | txin::txins, mapWallet, grouping =>
    let prev := wtxAt mapWallet txin.prevout.hash
    match prev.2.vout[txin.prevout.n]? with
    | none => .overrun prev.1
    | some txout =>
      match V.extractDestination txout.scriptPubKey with
      | none => groupInputs txins prev.1 grouping
      | some address => groupInputs txins prev.1 (insert address grouping)

/-- The addresses of the change; the previous transaction of the first input is read in between. -/
def groupChange (first : CTxIn) : List CTxOut → MapWallet → Finset CTxDestination →
    MapWallet × Finset CTxDestination
  | [], mapWallet, grouping => (mapWallet,grouping)
  | txout::txouts, mapWallet, grouping =>
    if isChange V txout then
      let mapWallet' := (wtxAt mapWallet first.prevout.hash).1
      match V.extractDestination txout.scriptPubKey with
      | none => groupChange first txouts mapWallet' grouping
      | some txoutAddr => groupChange first txouts mapWallet' (insert txoutAddr grouping)
    else groupChange first txouts mapWallet grouping

def loneAddrs (vout : List CTxOut) : List (Finset CTxDestination) :=
  vout.filterMap fun txout =>
    if V.isMineScript txout.scriptPubKey then
      (V.extractDestination txout.scriptPubKey).map fun address => {address}
    else none

def groupTx (pcoin : CTransaction) (mapWallet : MapWallet) : Outcome (List (Finset CTxDestination)) :=
  match pcoin.vin with
  | [] => .done mapWallet (loneAddrs V pcoin.vout)
  | first::txins =>
    if isMineInput V mapWallet first then
      (groupInputs V (first::txins) mapWallet ∅).bind fun mapWallet grouping =>
        let change := groupChange V first pcoin.vout mapWallet grouping
        .done change.1 (change.2::loneAddrs V pcoin.vout)
    else .done mapWallet (loneAddrs V pcoin.vout)

def groupTxs : List CTransaction → MapWallet → Outcome (List (Finset CTxDestination))
  | [], mapWallet => .done mapWallet []
  | pcoin::txs, mapWallet =>
    (groupTx V pcoin mapWallet).bind fun mapWallet groupings =>
      (groupTxs txs mapWallet).bind fun mapWallet rest => .done mapWallet (groupings++rest)

structure SetOrder (α : Type) where
  arrange : List α → List α
  mem : ∀ l a, a ∈ arrange l ↔ a ∈ l
  nodup : ∀ l, (arrange l).Nodup

def transactions (mapWallet : MapWallet) : List CTransaction :=
  (inOrder (fun a b => decide (a ≤ b)) mapWallet).map Sigma.snd

/-- `CWallet::GetAddressGroupings`, with the map of the wallet afterwards. -/
def getAddressGroupings (O : SetOrder (Finset CTxDestination)) (mapWallet : MapWallet) :
    Outcome (Finset (Finset CTxDestination)) :=
  (groupTxs V (transactions mapWallet) mapWallet).bind fun mapWallet groupings =>
    .done mapWallet (groups (O.arrange groupings))

end Code

section Meaning
variable (V : AddressView CTxDestination) (mapWallet : MapWallet)

def Found (txin : CTxIn) : Prop :=
  ∃ prev, mapWallet.lookup txin.prevout.hash = some prev ∧ txin.prevout.n < prev.vout.length

def InputAddress (txin : CTxIn) (a : CTxDestination) : Prop :=
  ∃ prev txout, mapWallet.lookup txin.prevout.hash = some prev ∧
    prev.vout[txin.prevout.n]? = some txout ∧ V.extractDestination txout.scriptPubKey = some a

def ChangeAddress (txout : CTxOut) (a : CTxDestination) : Prop :=
  isChange V txout = true ∧ V.extractDestination txout.scriptPubKey = some a

def AddressOf (tx : CTransaction) (a : CTxDestination) : Prop :=
  (∃ txin ∈ tx.vin, InputAddress V mapWallet txin a) ∨ ∃ txout ∈ tx.vout, ChangeAddress V txout a

def FirstMine (tx : CTransaction) : Prop :=
  ∃ first, tx.vin.head? = some first ∧ isMineInput V mapWallet first = true

def Spent (tx : CTransaction) (a b : CTxDestination) : Prop :=
  FirstMine V mapWallet tx ∧ AddressOf V mapWallet tx a ∧ AddressOf V mapWallet tx b

def Owned (tx : CTransaction) (a : CTxDestination) : Prop :=
  ∃ txout ∈ tx.vout, V.isMineScript txout.scriptPubKey = true ∧
    V.extractDestination txout.scriptPubKey = some a

def SpentTogether (a b : CTxDestination) : Prop :=
  ∃ tx ∈ transactions mapWallet, Spent V mapWallet tx a b

/-- Groups that are not empty and disjoint, hold each address of an own output once, and two
addresses where a chain of transactions links them. -/
structure Partitions (ret : Finset (Finset CTxDestination)) : Prop where
  nonempty : ∀ s ∈ ret, s.Nonempty
  disjoint : ∀ s ∈ ret, ∀ t ∈ ret, ∀ a, a ∈ s → a ∈ t → s = t
  owned : ∀ tx ∈ transactions mapWallet, ∀ a, Owned V tx a → ∃! s, s ∈ ret ∧ a ∈ s
  linked : ∀ a b, (∃ s ∈ ret, a ∈ s ∧ b ∈ s) ↔
    Relation.TransGen (SpentTogether V mapWallet) a b ∨
      a = b ∧ ∃ tx ∈ transactions mapWallet, Owned V tx a

def Ready (tx : CTransaction) : Prop :=
  FirstMine V mapWallet tx → ∀ txin ∈ tx.vin, Found mapWallet txin

/-- A transaction whose first input is ours spends outputs of the wallet only, and has an address
among its inputs or its change. -/
def Meets : Prop :=
  ∀ tx ∈ transactions mapWallet, FirstMine V mapWallet tx →
    (∀ txin ∈ tx.vin, Found mapWallet txin) ∧ ∃ a, AddressOf V mapWallet tx a

end Meaning

section Steps
variable (V : AddressView CTxDestination) (mapWallet : MapWallet)

theorem wtx_found {txin : CTxIn} {prev : CTransaction}
    (h : mapWallet.lookup txin.prevout.hash = some prev) :
    wtxAt mapWallet txin.prevout.hash = (mapWallet,prev) := by
  rw [wtxAt, h]

theorem inputs_found {txins : List CTxIn} (hfound : ∀ txin ∈ txins, Found mapWallet txin)
    (grouping : Finset CTxDestination) :
    ∃ g, groupInputs V txins mapWallet grouping = .done mapWallet g ∧
      ∀ a, a ∈ g ↔ a ∈ grouping ∨ ∃ txin ∈ txins, InputAddress V mapWallet txin a := by
  induction txins generalizing grouping with
  | nil => exact ⟨grouping,rfl,fun a => by simp⟩
  | cons txin txins ih =>
    obtain ⟨prev,hprev,hn⟩ := hfound txin List.mem_cons_self
    have hrest := fun g => ih (fun t ht => hfound t (List.mem_cons_of_mem txin ht)) g
    have hout : prev.vout[txin.prevout.n]? = some prev.vout[txin.prevout.n] := List.getElem?_eq_getElem hn
    have haddress : ∀ a, InputAddress V mapWallet txin a ↔
        V.extractDestination prev.vout[txin.prevout.n].scriptPubKey = some a := by
      intro a
      constructor
      · rintro ⟨prev',txout,hprev',hout',ha⟩
        rw [hprev] at hprev'
        obtain rfl := Option.some.inj hprev'
        rw [hout] at hout'
        obtain rfl := Option.some.inj hout'
        exact ha
      · exact fun ha => ⟨prev,_,hprev,hout,ha⟩
    simp only [groupInputs, wtx_found mapWallet hprev, hout]
    cases hdest : V.extractDestination prev.vout[txin.prevout.n].scriptPubKey with
    | none =>
      obtain ⟨g,hg,hmem⟩ := hrest grouping
      refine ⟨g,hg,?_⟩
      intro a
      rw [hmem, List.exists_mem_cons_iff, haddress, hdest]
      simp
    | some address =>
      obtain ⟨g,hg,hmem⟩ := hrest (insert address grouping)
      refine ⟨g,hg,?_⟩
      intro a
      rw [hmem, List.exists_mem_cons_iff, haddress, hdest, Finset.mem_insert, Option.some_inj,
        eq_comm (a := address), or_comm (a := a = address), or_assoc]

theorem inputs_lost {txins : List CTxIn} (hlost : ¬∀ txin ∈ txins, Found mapWallet txin)
    (grouping : Finset CTxDestination) :
    ∃ m, groupInputs V txins mapWallet grouping = .overrun m := by
  induction txins generalizing grouping with
  | nil => exact absurd (fun _ h => absurd h List.not_mem_nil) hlost
  | cons txin txins ih =>
    by_cases hfirst : Found mapWallet txin
    · obtain ⟨prev,hprev,hn⟩ := hfirst
      have hrest := fun g => ih (fun hall => hlost (by
        intro t ht
        rcases List.mem_cons.mp ht with rfl | ht
        · exact ⟨prev,hprev,hn⟩
        · exact hall t ht)) g
      simp only [groupInputs, wtx_found mapWallet hprev, List.getElem?_eq_getElem hn]
      cases V.extractDestination prev.vout[txin.prevout.n].scriptPubKey with
      | none => exact hrest grouping
      | some address => exact hrest (insert address grouping)
    · have hnone : (wtxAt mapWallet txin.prevout.hash).2.vout[txin.prevout.n]? = none := by
        unfold wtxAt
        cases hprev : mapWallet.lookup txin.prevout.hash with
        | none => rfl
        | some prev =>
          apply List.getElem?_eq_none
          exact Nat.le_of_not_lt fun hn => hfirst ⟨prev,hprev,hn⟩
      simp only [groupInputs, hnone]
      exact ⟨_,rfl⟩

theorem change_grouped {first : CTxIn} {prev : CTransaction}
    (hfirst : mapWallet.lookup first.prevout.hash = some prev) (txouts : List CTxOut)
    (grouping : Finset CTxDestination) :
    (groupChange V first txouts mapWallet grouping).1 = mapWallet ∧
      ∀ a, a ∈ (groupChange V first txouts mapWallet grouping).2 ↔
        a ∈ grouping ∨ ∃ txout ∈ txouts, ChangeAddress V txout a := by
  induction txouts generalizing grouping with
  | nil => exact ⟨rfl,fun a => by simp [groupChange]⟩
  | cons txout txouts ih =>
    rw [groupChange]
    by_cases hchange : isChange V txout = true
    · simp only [if_pos hchange, wtx_found mapWallet hfirst]
      cases hdest : V.extractDestination txout.scriptPubKey with
      | none =>
        refine ⟨(ih grouping).1,?_⟩
        intro a
        rw [(ih grouping).2, List.exists_mem_cons_iff, ChangeAddress, hdest]
        simp
      | some address =>
        refine ⟨(ih (insert address grouping)).1,?_⟩
        intro a
        rw [(ih (insert address grouping)).2, List.exists_mem_cons_iff, ChangeAddress, hdest,
          Finset.mem_insert, Option.some_inj, eq_comm (a := address), or_comm (a := a = address), or_assoc]
        simp [hchange]
    · rw [if_neg hchange]
      refine ⟨(ih grouping).1,?_⟩
      intro a
      rw [(ih grouping).2, List.exists_mem_cons_iff, ChangeAddress]
      simp [hchange]

omit [DecidableEq CTxDestination] in
theorem mem_lone (vout : List CTxOut) (g : Finset CTxDestination) :
    g ∈ loneAddrs V vout ↔ ∃ a, g = {a} ∧ ∃ txout ∈ vout, V.isMineScript txout.scriptPubKey = true ∧
      V.extractDestination txout.scriptPubKey = some a := by
  rw [loneAddrs, List.mem_filterMap]
  constructor
  · rintro ⟨txout,hmem,hg⟩
    split_ifs at hg with hmine
    obtain ⟨a,ha,rfl⟩ := Option.map_eq_some_iff.mp hg
    exact ⟨a,rfl,txout,hmem,hmine,ha⟩
  · rintro ⟨a,rfl,txout,hmem,hmine,ha⟩
    exact ⟨txout,hmem,by rw [if_pos hmine, ha]; rfl⟩

structure Grouped (tx : CTransaction) (gs : List (Finset CTxDestination)) : Prop where
  together : ∀ a b, Together gs a b ↔ Spent V mapWallet tx a b ∨ a = b ∧ Owned V tx a
  empty : ∅ ∈ gs ↔ FirstMine V mapWallet tx ∧ ¬∃ a, AddressOf V mapWallet tx a

omit [DecidableEq CTxDestination] in
theorem lone_together (tx : CTransaction) (a b : CTxDestination) :
    Together (loneAddrs V tx.vout) a b ↔ a = b ∧ Owned V tx a := by
  constructor
  · rintro ⟨g,hg,ha,hb⟩
    obtain ⟨c,rfl,howned⟩ := (mem_lone V tx.vout g).mp hg
    rw [Finset.mem_singleton] at ha hb
    subst ha hb
    exact ⟨rfl,howned⟩
  · rintro ⟨rfl,howned⟩
    exact ⟨{a},(mem_lone V tx.vout {a}).mpr ⟨a,rfl,howned⟩,by simp,by simp⟩

omit [DecidableEq CTxDestination] in
theorem lone_not_empty (tx : CTransaction) : ∅ ∉ loneAddrs V tx.vout := by
  intro hempty
  obtain ⟨a,ha,-⟩ := (mem_lone V tx.vout ∅).mp hempty
  exact Finset.singleton_ne_empty a ha.symm

variable {tx : CTransaction}

omit [DecidableEq CTxDestination] in
theorem lone_grouped (h : ¬FirstMine V mapWallet tx) :
    Grouped V mapWallet tx (loneAddrs V tx.vout) where
  together := by
    intro a b
    rw [lone_together]
    constructor
    · exact Or.inr
    · rintro (hspent | hlone)
      · exact absurd hspent.1 h
      · exact hlone
  empty := ⟨fun hempty => absurd hempty (lone_not_empty V tx),fun hfirst => absurd hfirst.1 h⟩

theorem tx_grouped (hready : Ready V mapWallet tx) :
    ∃ gs, groupTx V tx mapWallet = .done mapWallet gs ∧ Grouped V mapWallet tx gs := by
  unfold groupTx
  cases hvin : tx.vin with
  | nil =>
    have hnot : ¬FirstMine V mapWallet tx := by
      rintro ⟨first,hhead,-⟩
      rw [hvin] at hhead
      cases hhead
    exact ⟨_,rfl,lone_grouped V mapWallet hnot⟩
  | cons first txins =>
    by_cases hmine : isMineInput V mapWallet first = true
    · have hfirst : FirstMine V mapWallet tx := ⟨first,by rw [hvin]; rfl,hmine⟩
      have hall := hready hfirst
      rw [hvin] at hall
      obtain ⟨g,hg,hinputs⟩ := inputs_found V mapWallet hall ∅
      obtain ⟨prev,hprev,-⟩ := hall first List.mem_cons_self
      obtain ⟨hmap,hchange⟩ := change_grouped V mapWallet hprev tx.vout g
      have hmem : ∀ a, a ∈ (groupChange V first tx.vout mapWallet g).2 ↔ AddressOf V mapWallet tx a := by
        intro a
        rw [hchange, hinputs, AddressOf, hvin]
        simp
      simp only [if_pos hmine, hg, Outcome.bind, hmap]
      refine ⟨_,rfl,?_,?_⟩
      · intro a b
        constructor
        · rintro ⟨s,hs,ha,hb⟩
          rcases List.mem_cons.mp hs with rfl | hs
          · exact Or.inl ⟨hfirst,(hmem a).mp ha,(hmem b).mp hb⟩
          · exact Or.inr ((lone_together V tx a b).mp ⟨s,hs,ha,hb⟩)
        · rintro (⟨-,ha,hb⟩ | hlone)
          · exact ⟨_,List.mem_cons_self,(hmem a).mpr ha,(hmem b).mpr hb⟩
          · obtain ⟨s,hs,hin⟩ := (lone_together V tx a b).mpr hlone
            exact ⟨s,List.mem_cons_of_mem _ hs,hin⟩
      · rw [List.mem_cons, or_iff_left (lone_not_empty V tx), eq_comm, Finset.eq_empty_iff_forall_notMem]
        simp only [hmem, not_exists]
        exact ⟨fun hnone => ⟨hfirst,hnone⟩,fun h => h.2⟩
    · have hnot : ¬FirstMine V mapWallet tx := by
        rintro ⟨other,hhead,hother⟩
        rw [hvin] at hhead
        obtain rfl := Option.some.inj hhead
        exact hmine hother
      rw [Bool.not_eq_true] at hmine
      simp only [hmine]
      exact ⟨_,rfl,lone_grouped V mapWallet hnot⟩

theorem tx_lost (hlost : ¬Ready V mapWallet tx) : ∃ m, groupTx V tx mapWallet = .overrun m := by
  rw [Ready, Classical.not_imp] at hlost
  obtain ⟨⟨first,hhead,hmine⟩,hlost⟩ := hlost
  unfold groupTx
  cases hvin : tx.vin with
  | nil =>
    rw [hvin] at hhead
    cases hhead
  | cons other txins =>
    rw [hvin] at hhead hlost
    obtain rfl := Option.some.inj hhead
    obtain ⟨m,hm⟩ := inputs_lost V mapWallet hlost ∅
    simp only [if_pos hmine, hm, Outcome.bind]
    exact ⟨m,rfl⟩

theorem txs_grouped (txs : List CTransaction) (hready : ∀ tx ∈ txs, Ready V mapWallet tx) :
    ∃ gs, groupTxs V txs mapWallet = .done mapWallet gs ∧
      (∀ a b, Together gs a b ↔ ∃ tx ∈ txs, Spent V mapWallet tx a b ∨ a = b ∧ Owned V tx a) ∧
      (∅ ∈ gs ↔ ∃ tx ∈ txs, FirstMine V mapWallet tx ∧ ¬∃ a, AddressOf V mapWallet tx a) := by
  induction txs with
  | nil => exact ⟨[],rfl,by simp [Together],by simp⟩
  | cons tx txs ih =>
    obtain ⟨gs,hgs,htogether,hempty⟩ := ih fun t ht => hready t (List.mem_cons_of_mem tx ht)
    obtain ⟨g,hg,hgrouped⟩ := tx_grouped V mapWallet (hready tx List.mem_cons_self)
    refine ⟨g++gs,by simp only [groupTxs, hg, hgs, Outcome.bind],?_,?_⟩
    · intro a b
      rw [List.exists_mem_cons_iff, ← hgrouped.together, ← htogether]
      constructor
      · rintro ⟨s,hs,hin⟩
        rcases List.mem_append.mp hs with hs | hs
        · exact Or.inl ⟨s,hs,hin⟩
        · exact Or.inr ⟨s,hs,hin⟩
      · rintro (⟨s,hs,hin⟩ | ⟨s,hs,hin⟩)
        · exact ⟨s,List.mem_append_left _ hs,hin⟩
        · exact ⟨s,List.mem_append_right _ hs,hin⟩
    · rw [List.mem_append, List.exists_mem_cons_iff, hgrouped.empty, hempty]

theorem txs_lost {txs : List CTransaction} (hlost : ¬∀ tx ∈ txs, Ready V mapWallet tx) :
    ∃ m, groupTxs V txs mapWallet = .overrun m := by
  induction txs with
  | nil => exact absurd (fun _ h => absurd h List.not_mem_nil) hlost
  | cons tx txs ih =>
    by_cases hfirst : Ready V mapWallet tx
    · obtain ⟨g,hg,-⟩ := tx_grouped V mapWallet hfirst
      obtain ⟨m,hm⟩ := ih fun hall => hlost fun t ht => by
        rcases List.mem_cons.mp ht with rfl | ht
        · exact hfirst
        · exact hall t ht
      exact ⟨m,by simp only [groupTxs, hg, hm, Outcome.bind]⟩
    · obtain ⟨m,hm⟩ := tx_lost V mapWallet hfirst
      exact ⟨m,by simp only [groupTxs, hm, Outcome.bind]⟩

end Steps

section Claim
variable (V : AddressView CTxDestination) (O : SetOrder (Finset CTxDestination)) (mapWallet : MapWallet)

omit [DecidableEq CTxDestination] in
theorem together_arranged (gs : List (Finset CTxDestination)) (a b : CTxDestination) :
    Together (O.arrange gs) a b ↔ Together gs a b := by
  simp only [Together, O.mem]

omit [DecidableEq CTxDestination] in
theorem chain_of_transactions (gs : List (Finset CTxDestination))
    (htogether : ∀ a b, Together gs a b ↔
      ∃ tx ∈ transactions mapWallet, Spent V mapWallet tx a b ∨ a = b ∧ Owned V tx a)
    (a b : CTxDestination) :
    Relation.TransGen (Together gs) a b ↔ Relation.TransGen (SpentTogether V mapWallet) a b ∨
      a = b ∧ ∃ tx ∈ transactions mapWallet, Owned V tx a := by
  have hstep : ∀ a b, Together gs a b → SpentTogether V mapWallet a b ∨
      a = b ∧ ∃ tx ∈ transactions mapWallet, Owned V tx a := by
    intro a b hab
    obtain ⟨tx,htx,hspent | ⟨hsame,howned⟩⟩ := (htogether a b).mp hab
    · exact Or.inl ⟨tx,htx,hspent⟩
    · exact Or.inr ⟨hsame,tx,htx,howned⟩
  constructor
  · intro hchain
    induction hchain with
    | single hab => exact (hstep _ _ hab).imp_left .single
    | tail _ hbc ih =>
      rcases hstep _ _ hbc with hspent | ⟨rfl,-⟩
      · rcases ih with hchain | ⟨rfl,-⟩
        · exact Or.inl (hchain.tail hspent)
        · exact Or.inl (.single hspent)
      · exact ih
  · have hspent : ∀ a b, SpentTogether V mapWallet a b → Together gs a b := by
      rintro a b ⟨tx,htx,hspent⟩
      exact (htogether a b).mpr ⟨tx,htx,Or.inl hspent⟩
    rintro (hchain | ⟨rfl,tx,htx,howned⟩)
    · induction hchain with
      | single hab => exact .single (hspent _ _ hab)
      | tail _ hbc ih => exact ih.tail (hspent _ _ hbc)
    · exact .single ((htogether a a).mpr ⟨tx,htx,Or.inr ⟨rfl,howned⟩⟩)

/-- The map of the wallet stays as it is and the groups are a partition when, of each
transaction whose first input is ours, all inputs spend outputs of the wallet and one has an
address or there is change. -/
theorem groupings_iff :
    (∃ ret, getAddressGroupings V O mapWallet = .done mapWallet ret ∧
      Partitions V mapWallet ret) ↔ Meets V mapWallet := by
  constructor
  · rintro ⟨ret,hret,hpart⟩
    by_cases hready : ∀ tx ∈ transactions mapWallet, Ready V mapWallet tx
    · obtain ⟨gs,hgs,-,hempty⟩ := txs_grouped V mapWallet (transactions mapWallet) hready
      rw [getAddressGroupings, hgs] at hret
      cases hret
      have hnone := (groups_nonempty (O.arrange gs)).mp hpart.nonempty
      rw [O.mem, hempty] at hnone
      intro tx htx hfirst
      refine ⟨hready tx htx hfirst,?_⟩
      by_contra hno
      exact hnone ⟨tx,htx,hfirst,hno⟩
    · obtain ⟨m,hm⟩ := txs_lost V mapWallet hready
      rw [getAddressGroupings, hm] at hret
      cases hret
  · intro hmeets
    obtain ⟨gs,hgs,htogether,hempty⟩ := txs_grouped V mapWallet (transactions mapWallet)
      fun tx htx hfirst => (hmeets tx htx hfirst).1
    have hnone : ∅ ∉ O.arrange gs := by
      rw [O.mem, hempty]
      rintro ⟨tx,htx,hfirst,hno⟩
      exact hno (hmeets tx htx hfirst).2
    have hlinked : ∀ a b, (∃ s ∈ groups (O.arrange gs), a ∈ s ∧ b ∈ s) ↔
        Relation.TransGen (SpentTogether V mapWallet) a b ∨
          a = b ∧ ∃ tx ∈ transactions mapWallet, Owned V tx a := by
      intro a b
      rw [groups_chain]
      apply chain_of_transactions
      intro a b
      rw [together_arranged, htogether]
    refine ⟨_,by rw [getAddressGroupings, hgs]; rfl,?_,fun s hs t ht => groups_disjoint _ hs ht,?_,hlinked⟩
    · exact (groups_nonempty (O.arrange gs)).mpr hnone
    · intro tx htx a howned
      obtain ⟨s,hs,ha,-⟩ := (hlinked a a).mpr (Or.inr ⟨rfl,tx,htx,howned⟩)
      exact ⟨s,⟨hs,ha⟩,fun t ht => groups_disjoint _ ht.1 hs a ht.2 ha⟩

def byteView : AddressView ℕ where
  extractDestination script := script.head?.map UInt8.toNat
  isMineScript script := decide (script.head?.any (· < 10))
  isMineAddress a := decide (a < 10)
  mapAddressBook _ := false

def listOrder : SetOrder (Finset ℕ) := ⟨List.dedup,fun _ _ => List.mem_dedup,List.nodup_dedup⟩

def mixedWallet : MapWallet :=
  AList.insert 2 ⟨1,0,[⟨⟨1,0⟩,[],0⟩,⟨⟨9,0⟩,[],0⟩],[⟨5,[20]⟩],0⟩
    (AList.insert 1 ⟨1,0,[⟨⟨8,0⟩,[],0⟩],[⟨5,[7]⟩],0⟩ ∅)

theorem mixed_inputs_overrun :
    ¬∃ ret, getAddressGroupings byteView listOrder mixedWallet = .done mixedWallet ret ∧
      Partitions byteView mixedWallet ret := by
  rintro ⟨ret,hret,-⟩
  have hlost : ∃ m, getAddressGroupings byteView listOrder mixedWallet = .overrun m := ⟨_,rfl⟩
  obtain ⟨m,hm⟩ := hlost
  rw [hm] at hret
  cases hret

end Claim

end SwippCore.AddressGroupings
