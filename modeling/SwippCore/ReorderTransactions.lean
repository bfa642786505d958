import SwippCore.Primitives
import SwippCore.Lib.Interleaving
import Mathlib.Data.List.TakeWhile
import Mathlib.Data.List.Perm.Basic

/-!
# Order positions for an old wallet

Transactions and accounting entries are taken in the order of their times. Those
without a position get the next one, and those behind them move. The entries are
read for the account without a name only.
-/

set_option autoImplicit false

namespace SwippCore.ReorderTransactions
open Interleaving

structure CWalletTx where
  hash : Uint256
  nTimeReceived : ℕ
  nOrderPos : ℤ
  deriving DecidableEq, Repr

structure CAccountingEntry where
  strAccount : String
  nEntryNo : ℕ
  nTime : ℤ
  nOrderPos : ℤ
  deriving DecidableEq, Repr

inductive TxPair
  | wtx (pwtx : CWalletTx)
  | acentry (pacentry : CAccountingEntry)
  deriving DecidableEq, Repr

def TxPair.nTime : TxPair → ℤ
  | .wtx t => t.nTimeReceived
  | .acentry e => e.nTime

def TxPair.nOrderPos : TxPair → ℤ
  | .wtx t => t.nOrderPos
  | .acentry e => e.nOrderPos

def TxPair.setOrderPos (nOrderPos : ℤ) : TxPair → TxPair
  | .wtx t => .wtx { t with nOrderPos := nOrderPos }
  | .acentry e => .acentry { e with nOrderPos := nOrderPos }

structure OrderWallet where
  mapWallet : List CWalletTx
  acentries : List CAccountingEntry
  /-- The key of the account without a name comes before all others. -/
  unnamedFirst : acentries.Pairwise fun d e => e.strAccount = "" → d.strAccount = ""
  placed : ∀ p ∈ mapWallet.map CWalletTx.nOrderPos++acentries.map CAccountingEntry.nOrderPos,
    p = missing ∨ 0 ≤ p
  distinct : ((mapWallet.map CWalletTx.nOrderPos++acentries.map CAccountingEntry.nOrderPos).filter
    (· ≠ missing)).Nodup

/-- `ListAccountCreditDebit`: the records from the first one of the account on. -/
def listAccountCreditDebit (strAccount : String) (acentries : List CAccountingEntry) :
    List CAccountingEntry :=
  if strAccount = "*" then acentries
  else (acentries.dropWhile (·.strAccount ≠ strAccount)).takeWhile (·.strAccount = strAccount)

def txByTime (w : OrderWallet) : List TxPair :=
  (w.mapWallet.map TxPair.wtx++(listAccountCreditDebit "" w.acentries).map TxPair.acentry).insertionSort
    (fun i j => i.nTime ≤ j.nTime)

/-- The loop of `ReorderTransactions`, with `DB_LOAD_FAIL` as `none`. -/
def reorderLoop (write : TxPair → Bool) : List TxPair → ℤ → List ℤ → Option (List TxPair × ℤ)
  | [], nOrderPosNext, _ => some ([],nOrderPosNext)
  | i::is, nOrderPosNext, nOrderPosOffsets =>
    if i.nOrderPos = -1 then
      let i' := i.setOrderPos nOrderPosNext
      if write i' then
        (reorderLoop write is (nOrderPosNext+1) (nOrderPosOffsets++[nOrderPosNext])).map
          fun r => (i'::r.1,r.2)
      else none
    else
      let nOrderPosOff := nOrderPosOffsets.countP fun nOffsetStart => nOffsetStart ≤ i.nOrderPos
      let i' := i.setOrderPos (i.nOrderPos+nOrderPosOff)
      let nOrderPosNext' := max nOrderPosNext (i'.nOrderPos+1)
      if nOrderPosOff = 0 ∨ write i' then
        (reorderLoop write is nOrderPosNext' nOrderPosOffsets).map fun r => (i'::r.1,r.2)
      else none

/-- `ReorderTransactions`: the objects behind the pointers afterwards, and `nOrderPosNext`. -/
def reorderTransactions (write : TxPair → Bool) (w : OrderWallet) : Option (List TxPair × ℤ) :=
  reorderLoop write (txByTime w) 0 []

def unlisted (w : OrderWallet) : List TxPair :=
  (w.acentries.filter (·.strAccount ≠ "")).map TxPair.acentry

def history (w : OrderWallet) : List ℤ := ((txByTime w).map TxPair.nOrderPos).reverse

structure Ordered (before after : List TxPair) (nOrderPosNext : ℤ) : Prop where
  nonneg : ∀ i ∈ after, 0 ≤ i.nOrderPos
  differ : (after.map TxPair.nOrderPos).Nodup
  kept : ∀ x ∈ before.zip after, ∀ y ∈ before.zip after, x.1.nOrderPos ≠ -1 → y.1.nOrderPos ≠ -1 →
    x.1.nOrderPos < y.1.nOrderPos → x.2.nOrderPos < y.2.nOrderPos
  next : ∀ i ∈ after, i.nOrderPos < nOrderPosNext

def Meets (w : OrderWallet) : Prop :=
  Clear (history w) ∧ ∀ i ∈ unlisted w, Aside (history w) i.nOrderPos

@[simp] theorem set_order_pos (n : ℤ) (i : TxPair) : (i.setOrderPos n).nOrderPos = n := by
  cases i <;> rfl

section Listing

variable {l : List CAccountingEntry}

theorem named_behind {e : CAccountingEntry} (he : ¬e.strAccount = "")
    (h : (e::l).Pairwise fun d e => e.strAccount = "" → d.strAccount = "") :
    ∀ d ∈ e::l, ¬d.strAccount = "" := by
  intro d hd hd'
  rcases List.mem_cons.mp hd with rfl | hd
  · exact he hd'
  · exact he ((List.pairwise_cons.mp h).1 d hd hd')

section
variable (h : l.Pairwise fun d e => e.strAccount = "" → d.strAccount = "")
include h

theorem take_unnamed :
    l.takeWhile (·.strAccount = "") = l.filter (·.strAccount = "") := by
  induction l with
  | nil => rfl
  | cons e l ih =>
    by_cases he : e.strAccount = ""
    · rw [List.takeWhile_cons_of_pos (by simpa using he), List.filter_cons_of_pos (by simpa using he),
        ih (List.pairwise_cons.mp h).2]
    · have hnone := named_behind he h
      rw [List.takeWhile_cons_of_neg (by simpa using he), eq_comm, List.filter_eq_nil_iff]
      simpa using hnone

theorem listed_unnamed :
    listAccountCreditDebit "" l = l.filter (·.strAccount = "") := by
  rw [listAccountCreditDebit, if_neg (by decide)]
  cases l with
  | nil => rfl
  | cons e l =>
    by_cases he : e.strAccount = ""
    · rw [List.dropWhile_cons_of_neg (by simpa using he)]
      exact take_unnamed h
    · have hnone := named_behind he h
      have hdrop : (e::l).dropWhile (·.strAccount ≠ "") = [] := by
        rw [List.dropWhile_eq_nil_iff]
        simpa using hnone
      rw [hdrop, List.takeWhile_nil, eq_comm, List.filter_eq_nil_iff]
      simpa using hnone

end

variable (w : OrderWallet)

theorem every_item :
    (w.mapWallet.map TxPair.wtx++w.acentries.map TxPair.acentry).Perm (txByTime w++unlisted w) := by
  have hsort := List.perm_insertionSort (fun i j : TxPair => i.nTime ≤ j.nTime)
    (w.mapWallet.map TxPair.wtx++(listAccountCreditDebit "" w.acentries).map TxPair.acentry)
  have hsplit := List.filter_append_perm (fun e : CAccountingEntry => decide (e.strAccount = "")) w.acentries
  rw [listed_unnamed w.unnamedFirst] at hsort
  calc w.mapWallet.map TxPair.wtx++w.acentries.map TxPair.acentry
    _ |>.Perm (w.mapWallet.map TxPair.wtx++((w.acentries.filter (·.strAccount = "")).map TxPair.acentry++
        unlisted w)) := by
      apply List.Perm.append_left
      rw [unlisted, ← List.map_append]
      apply List.Perm.map
      simpa using hsplit.symm
    _ |>.Perm (txByTime w++unlisted w) := by
      rw [← List.append_assoc]
      apply List.Perm.append_right
      rw [txByTime, listed_unnamed w.unnamedFirst]
      exact hsort.symm

theorem order_pos_of_items :
    (w.mapWallet.map TxPair.wtx++w.acentries.map TxPair.acentry).map TxPair.nOrderPos =
      w.mapWallet.map CWalletTx.nOrderPos++w.acentries.map CAccountingEntry.nOrderPos := by
  rw [List.map_append, List.map_map, List.map_map]
  rfl

theorem positions_perm :
    (w.mapWallet.map CWalletTx.nOrderPos++w.acentries.map CAccountingEntry.nOrderPos).Perm
      (history w++(unlisted w).map TxPair.nOrderPos) := by
  rw [← order_pos_of_items]
  apply ((every_item w).map TxPair.nOrderPos).trans
  rw [List.map_append]
  exact (List.reverse_perm _).symm.append_right _

theorem history_placed : Placed (history w) := by
  have hperm := positions_perm w
  constructor
  · intro p hp
    exact w.placed p (hperm.mem_iff.mpr (List.mem_append_left _ hp))
  · have hdistinct := (hperm.filter (· ≠ missing)).nodup_iff.mp w.distinct
    rw [List.filter_append, List.nodup_append] at hdistinct
    exact hdistinct.1

theorem unlisted_apart (f : ℤ) (hf : f ∈ (unlisted w).map TxPair.nOrderPos) :
    (f = missing ∨ 0 ≤ f) ∧ (f ≠ missing → f ∉ history w) := by
  have hperm := positions_perm w
  constructor
  · exact w.placed f (hperm.mem_iff.mpr (List.mem_append_right _ hf))
  · intro hplaced hmem
    have hdistinct := (hperm.filter (· ≠ missing)).nodup_iff.mp w.distinct
    rw [List.filter_append, List.nodup_append] at hdistinct
    have hkeep : decide (f ≠ missing) = true := decide_eq_true hplaced
    exact hdistinct.2.2 f (List.mem_filter.mpr ⟨hmem,hkeep⟩) f (List.mem_filter.mpr ⟨hf,hkeep⟩) rfl

theorem unlisted_nodup (h : ∀ f ∈ (unlisted w).map TxPair.nOrderPos, f ≠ missing) :
    ((unlisted w).map TxPair.nOrderPos).Nodup := by
  have hdistinct := ((positions_perm w).filter (· ≠ missing)).nodup_iff.mp w.distinct
  rw [List.filter_append, List.nodup_append] at hdistinct
  rw [← List.filter_eq_self.mpr fun f hf => decide_eq_true (h f hf)]
  exact hdistinct.2.1

end Listing

section Loop
variable (write : TxPair → Bool)

def moves (before after : List TxPair) : List (ℤ × ℤ) :=
  (before.zip after).map fun x => (x.1.nOrderPos,x.2.nOrderPos)

theorem loop_lays {is : List TxPair} (h offsets : List ℤ) (hoffsets : offsets.Perm (places h))
    (out : List TxPair) (next : ℤ)
    (hrun : reorderLoop write is (behind h) offsets = some (out,next)) :
    next = behind ((is.map TxPair.nOrderPos).reverse++h) ∧
    List.Forall₂ (fun i j => j = i.setOrderPos j.nOrderPos) is out ∧
    (moves is out).reverse++spots h = spots ((is.map TxPair.nOrderPos).reverse++h) := by
  induction is generalizing h offsets out next with
  | nil =>
    obtain ⟨rfl,rfl⟩ := Prod.mk.inj (Option.some.inj hrun)
    exact ⟨rfl,List.Forall₂.nil,rfl⟩
  | cons i is ih =>
    have hstep : ∃ offsets' out', offsets'.Perm (places (i.nOrderPos::h)) ∧
        out = i.setOrderPos (spot h i.nOrderPos)::out' ∧
        reorderLoop write is (behind (i.nOrderPos::h)) offsets' = some (out',next) := by
      rw [reorderLoop] at hrun
      by_cases hi : i.nOrderPos = -1
      · rw [if_pos hi] at hrun
        dsimp only at hrun
        split_ifs at hrun with hwrite
        obtain ⟨⟨out',next'⟩,hrest,heq⟩ := Option.map_eq_some_iff.mp hrun
        obtain ⟨rfl,rfl⟩ := Prod.mk.inj heq
        have hmissing : i.nOrderPos = missing := hi
        rw [hmissing, places_missing, behind_missing, spot_missing]
        exact ⟨_,out',List.perm_append_comm.trans (hoffsets.cons _),rfl,hrest⟩
      · rw [if_neg hi] at hrun
        dsimp only at hrun
        split_ifs at hrun with hwrite
        obtain ⟨⟨out',next'⟩,hrest,heq⟩ := Option.map_eq_some_iff.mp hrun
        obtain ⟨rfl,rfl⟩ := Prod.mk.inj heq
        have hspot : spot h i.nOrderPos = i.nOrderPos+
            (offsets.countP fun o => o ≤ i.nOrderPos : ℕ) := by
          rw [spot_placed h _ hi, passed, hoffsets.countP_eq]
        rw [places_placed h _ hi, behind_placed h _ hi, hspot]
        rw [set_order_pos] at hrest
        exact ⟨offsets,out',hoffsets,rfl,hrest⟩
    obtain ⟨offsets',out',hoffsets',rfl,hrest⟩ := hstep
    obtain ⟨hnext,hsame,hmoves⟩ := ih (i.nOrderPos::h) offsets' hoffsets' out' next hrest
    have hhistory : ((i::is).map TxPair.nOrderPos).reverse++h =
        (is.map TxPair.nOrderPos).reverse++i.nOrderPos::h := by simp
    rw [hhistory]
    refine ⟨hnext,List.Forall₂.cons (by rw [set_order_pos]) hsame,?_⟩
    rw [← hmoves]
    simp [moves, spots]

end Loop

section Moves

structure Moved (P : List (ℤ × ℤ)) (next : ℤ) : Prop where
  nonneg : ∀ x ∈ P, 0 ≤ x.2
  differ : (P.map Prod.snd).Nodup
  kept : ∀ x ∈ P, ∀ y ∈ P, x.1 ≠ missing → y.1 ≠ missing → x.1 < y.1 → x.2 < y.2
  next : ∀ x ∈ P, x.2 < next

theorem moves_snd {before after : List TxPair} (hlen : before.length = after.length) :
    (moves before after).map Prod.snd = after.map TxPair.nOrderPos := by
  have hzip : (before.zip after).map Prod.snd = after := List.map_snd_zip (by omega)
  conv_rhs => rw [← hzip]
  rw [moves, List.map_map, List.map_map]
  rfl

theorem moves_self (l : List TxPair) :
    moves l l = (l.map TxPair.nOrderPos).map fun f => (f,f) := by
  induction l with
  | nil => rfl
  | cons i l ih =>
    rw [List.map_cons, List.map_cons, ← ih]
    rfl

theorem ordered_iff_moved {before after : List TxPair} (hlen : before.length = after.length)
    (next : ℤ) : Ordered before after next ↔ Moved (moves before after) next := by
  have hsnd := moves_snd hlen
  have hafter : ∀ Q : ℤ → Prop, (∀ i ∈ after, Q i.nOrderPos) ↔ ∀ x ∈ moves before after, Q x.2 := by
    intro Q
    rw [← List.forall_mem_map (f := TxPair.nOrderPos), ← hsnd, List.forall_mem_map]
  constructor
  · rintro ⟨hnonneg,hdiffer,hkept,hnext⟩
    refine ⟨(hafter (0 ≤ ·)).mp hnonneg,hsnd ▸ hdiffer,?_,(hafter (· < next)).mp hnext⟩
    intro x hx y hy
    obtain ⟨a,ha,rfl⟩ := List.mem_map.mp hx
    obtain ⟨b,hb,rfl⟩ := List.mem_map.mp hy
    exact hkept a ha b hb
  · rintro ⟨hnonneg,hdiffer,hkept,hnext⟩
    refine ⟨(hafter (0 ≤ ·)).mpr hnonneg,hsnd ▸ hdiffer,?_,(hafter (· < next)).mpr hnext⟩
    intro a ha b hb
    exact hkept _ (List.mem_map.mpr ⟨a,ha,rfl⟩) _ (List.mem_map.mpr ⟨b,hb,rfl⟩)

theorem moved_perm {P Q : List (ℤ × ℤ)} (h : P.Perm Q) (next : ℤ) :
    Moved P next ↔ Moved Q next := by
  have hone : ∀ (P Q : List (ℤ × ℤ)), P.Perm Q → Moved P next → Moved Q next := by
    rintro P Q h ⟨hnonneg,hdiffer,hkept,hnext⟩
    exact ⟨fun x hx => hnonneg x (h.mem_iff.mpr hx),(h.map Prod.snd).nodup_iff.mp hdiffer,
      fun x hx y hy => hkept x (h.mem_iff.mpr hx) y (h.mem_iff.mpr hy),
      fun x hx => hnext x (h.mem_iff.mpr hx)⟩
  exact ⟨hone P Q h,hone Q P h.symm⟩

theorem moved_beside {h stay : List ℤ} (hplaced : Placed h)
    (hstay : ∀ f ∈ stay, (f = missing ∨ 0 ≤ f) ∧ (f ≠ missing → f ∉ h))
    (hnodup : (∀ f ∈ stay, f ≠ missing) → stay.Nodup) :
    Moved (spots h++stay.map fun f => (f,f)) (behind h) ↔ Clear h ∧ ∀ f ∈ stay, Aside h f := by
  have hsnd : (spots h++stay.map fun f => (f,f)).map Prod.snd = (spots h).map Prod.snd++stay := by
    simp [Function.comp_def]
  constructor
  · rintro ⟨hnonneg,hdiffer,hkept,hnext⟩
    rw [hsnd, List.nodup_append] at hdiffer
    refine ⟨(nodup_iff h hplaced.2).mp hdiffer.1,?_⟩
    intro f hf
    have hmem : (f,f) ∈ spots h++stay.map fun f => (f,f) :=
      List.mem_append_right _ (List.mem_map.mpr ⟨f,hf,rfl⟩)
    have hpos : 0 ≤ f := hnonneg _ hmem
    have hne : f ≠ missing := by
      rintro rfl
      exact absurd hpos (by decide)
    rw [← fits_iff (hstay f hf).1 (hstay f hf).2]
    exact ⟨hpos,fun hclash => hdiffer.2.2 f hclash f hf rfl,hnext _ hmem,
      fun x hx hx1 hlt => hkept x (List.mem_append_left _ hx) _ hmem hx1 hne hlt,
      fun x hx hx1 hlt => hkept _ hmem x (List.mem_append_left _ hx) hne hx1 hlt⟩
  · rintro ⟨hclear,haside⟩
    have hfits : ∀ f ∈ stay, Fits h f := fun f hf =>
      (fits_iff (hstay f hf).1 (hstay f hf).2).mpr (haside f hf)
    refine ⟨?_,?_,?_,?_⟩
    · intro x hx
      rcases List.mem_append.mp hx with hx | hx
      · exact spots_nonneg hplaced.1 x hx
      · obtain ⟨f,hf,rfl⟩ := List.mem_map.mp hx
        exact (hfits f hf).nonneg
    · rw [hsnd, List.nodup_append]
      refine ⟨(nodup_iff h hplaced.2).mpr hclear,hnodup fun f hf => (haside f hf).placed,?_⟩
      rintro p hp f hf rfl
      exact (hfits p hf).differs hp
    · intro x hx y hy hx1 hy1 hlt
      rcases List.mem_append.mp hx with hx | hx
      · rcases List.mem_append.mp hy with hy | hy
        · exact order_kept h hplaced.2 x hx y hy hx1 hy1 hlt
        · obtain ⟨f,hf,rfl⟩ := List.mem_map.mp hy
          exact (hfits f hf).below x hx hx1 hlt
      · obtain ⟨f,hf,rfl⟩ := List.mem_map.mp hx
        rcases List.mem_append.mp hy with hy | hy
        · exact (hfits f hf).above y hy hy1 hlt
        · obtain ⟨g,hg,rfl⟩ := List.mem_map.mp hy
          exact hlt
    · intro x hx
      rcases List.mem_append.mp hx with hx | hx
      · exact spot_lt_behind h x hx
      · obtain ⟨f,hf,rfl⟩ := List.mem_map.mp hx
        exact (hfits f hf).within

end Moves

section Claim

theorem history_pairs {w : OrderWallet} {write : TxPair → Bool} {out : List TxPair} {next : ℤ}
    (hrun : reorderTransactions write w = some (out,next)) :
    next = behind (history w) ∧
    List.Forall₂ (fun i j => j = i.setOrderPos j.nOrderPos) (txByTime w) out ∧
    (moves (txByTime w++unlisted w) (out++unlisted w)).Perm
      (spots (history w)++((unlisted w).map TxPair.nOrderPos).map fun f => (f,f)) := by
  obtain ⟨hnext,hsame,hmoves⟩ := loop_lays write [] [] (List.Perm.refl _) out next hrun
  rw [List.append_nil] at hnext hmoves
  refine ⟨hnext,hsame,?_⟩
  have hspots : (moves (txByTime w) out).reverse = spots (history w) := by
    rw [← List.append_nil (moves (txByTime w) out).reverse]
    exact hmoves
  rw [moves, List.zip_append hsame.length_eq, List.map_append, ← hspots, ← moves_self]
  exact (List.reverse_perm _).symm.append_right _

/-- Every transaction and entry has its place afterwards when no item moves onto a new
position and the entries that are not listed fit in. It is enough that all entries are of
the account without a name and the placed positions keep apart. -/
theorem reorder_iff (w : OrderWallet) (write : TxPair → Bool) (out : List TxPair) (next : ℤ)
    (hrun : reorderTransactions write w = some (out,next)) :
    (w.mapWallet.map TxPair.wtx++w.acentries.map TxPair.acentry).Perm (txByTime w++unlisted w) ∧
    List.Forall₂ (fun i j => j = i.setOrderPos j.nOrderPos) (txByTime w) out ∧
    (Ordered (txByTime w++unlisted w) (out++unlisted w) next ↔ Meets w) ∧
    ((∀ e ∈ w.acentries, e.strAccount = "") → Apart (history w) → Meets w) := by
  obtain ⟨rfl,hsame,hperm⟩ := history_pairs hrun
  refine ⟨every_item w,hsame,?_,?_⟩
  · have hlen : (txByTime w++unlisted w).length = (out++unlisted w).length := by
      rw [List.length_append, List.length_append, hsame.length_eq]
    rw [ordered_iff_moved hlen, moved_perm hperm,
      moved_beside (history_placed w) (unlisted_apart w) (unlisted_nodup w),
      List.forall_mem_map]
    rfl
  · intro hunnamed hapart
    refine ⟨apart_clear (history_placed w) hapart,?_⟩
    intro i hi
    obtain ⟨e,he,rfl⟩ := List.mem_map.mp hi
    obtain ⟨hmem,hnamed⟩ := List.mem_filter.mp he
    exact absurd (hunnamed e hmem) (by simpa using hnamed)

def threeTxs (p q r : ℤ) (hplaced : ∀ x ∈ [p,q,r], x = missing ∨ 0 ≤ x)
    (hdistinct : ([p,q,r].filter (· ≠ missing)).Nodup) : OrderWallet where
  mapWallet := [⟨1,100,p⟩,⟨2,200,q⟩,⟨3,300,r⟩]
  acentries := []
  unnamedFirst := List.Pairwise.nil
  placed := hplaced
  distinct := hdistinct

/-- The second one moves behind the first. -/
theorem first_one_missing :
    ∃ out next, reorderTransactions (fun _ => true)
      (threeTxs (-1) 0 1 (by decide) (by decide)) = some (out,next) ∧
      out.map TxPair.nOrderPos = [0,1,2] ∧
      Ordered (txByTime (threeTxs (-1) 0 1 (by decide) (by decide))++[]) (out++[]) next :=
  ⟨_,_,rfl,rfl,(reorder_iff (threeTxs (-1) 0 1 (by decide) (by decide)) (fun _ => true) _ _ rfl).2.2.1.mpr
    ⟨by decide,fun i hi => absurd hi List.not_mem_nil⟩⟩

/-- Behind two missing ones, the first position moves onto that of the second. -/
theorem moved_onto_new :
    ¬∀ (w : OrderWallet) (write : TxPair → Bool) (out : List TxPair) (next : ℤ),
      reorderTransactions write w = some (out,next) →
      Ordered (txByTime w++unlisted w) (out++unlisted w) next := by
  intro h
  have hordered := h (threeTxs (-1) (-1) 0 (by decide) (by decide)) (fun _ => true) _ _ rfl
  exact absurd hordered.differ (by decide)

end Claim

end SwippCore.ReorderTransactions
