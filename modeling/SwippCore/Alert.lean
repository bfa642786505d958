import SwippCore.Primitives
import SwippCore.Lib.Cancelling

/-!
# Alerts

A signed alert cancels others by their numbers, comes in when it is not cancelled itself, and
stays in effect until it expires. The hash, the check of the signature and the reading of the
message are taken from outside; the user interface and the alert command are left out.
-/

set_option autoImplicit false

namespace SwippCore.Alert
open FinMap

structure CUnsignedAlert where
  nExpiration : ℤ
  nID : ℤ
  nCancel : ℤ
  setCancel : List ℤ
  nMinVer : ℤ
  nMaxVer : ℤ
  setSubVer : List String
  nPriority : ℤ
  strStatusBar : String
  deriving DecidableEq

structure CAlert extends CUnsignedAlert where
  vchMsg : List UInt8
  vchSig : List UInt8
  deriving DecidableEq

structure AlertEnv where
  hash : List UInt8 → Uint256
  verify : (vchMsg vchSig : List UInt8) → Bool
  unserialize : List UInt8 → Option CUnsignedAlert

def maxInt : ℤ := 2147483647

namespace CAlert

def isInEffect (nAdjustedTime : ℤ) (a : CAlert) : Bool := nAdjustedTime < a.nExpiration

def cancels (nAdjustedTime : ℤ) (a alert : CAlert) : Bool :=
  if !a.isInEffect nAdjustedTime then false
  else alert.nID ≤ a.nCancel || a.setCancel.contains alert.nID

def reserved (a : CAlert) : Bool :=
  a.nID != maxInt || (a.nExpiration == maxInt && a.nCancel == maxInt-1 && a.nMinVer == 0 &&
    a.nMaxVer == maxInt && a.setSubVer.isEmpty && a.nPriority == maxInt &&
    a.strStatusBar == "URGENT: Alert key compromised, upgrade required")

end CAlert

abbrev MapAlerts := Dict Uint256 CAlert

variable (E : AlertEnv)

def CAlert.getHash (a : CAlert) : Uint256 := E.hash a.vchMsg

/-- `CheckSignature`; none where it fails or the message cannot be read. -/
def checkSignature (vchMsg vchSig : List UInt8) : Option CAlert :=
  if E.verify vchMsg vchSig then
    (E.unserialize vchMsg).map fun u => ⟨u,vchMsg,vchSig⟩
  else none

def cancelPrevious (nAdjustedTime : ℤ) (a : CAlert) : List (Sigma fun _ : Uint256 => CAlert) →
    MapAlerts → MapAlerts
  | [], m => m
  | ⟨hash,alert⟩::xs, m =>
    if a.cancels nAdjustedTime alert then cancelPrevious nAdjustedTime a xs (m.erase hash)
    else if !alert.isInEffect nAdjustedTime then cancelPrevious nAdjustedTime a xs (m.erase hash)
    else cancelPrevious nAdjustedTime a xs m

def leHash (a b : Uint256) : Bool := a.toNat ≤ b.toNat

def processAlert (nAdjustedTime : ℤ) (vchMsg vchSig : List UInt8) (m : MapAlerts) : Bool × MapAlerts :=
  match checkSignature E vchMsg vchSig with
  | none => (false,m)
  | some a =>
    if !a.isInEffect nAdjustedTime then (false,m)
    else if !a.reserved then (false,m)
    else
      let m := cancelPrevious nAdjustedTime a (inOrder leHash m) m
      if (inOrder leHash m).any fun item => item.2.cancels nAdjustedTime a then (false,m)
      else (true,insertNew m (a.getHash E) a)

structure Delivery where
  nAdjustedTime : ℤ
  alert : CAlert

def deliver (d : Delivery) (m : MapAlerts) : Bool × MapAlerts :=
  processAlert E d.nAdjustedTime d.alert.vchMsg d.alert.vchSig m

def deliverAll : List Delivery → MapAlerts → MapAlerts
  | [], m => m
  | d::ds, m => deliverAll ds (deliver E d m).2

end SwippCore.Alert

namespace SwippCore.Alert
open FinMap Cancelling

variable (E : AlertEnv)

def Names (a alert : CAlert) : Prop := alert.nID ≤ a.nCancel ∨ alert.nID ∈ a.setCancel

theorem cancels_iff {nAdjustedTime : ℤ} (a alert : CAlert) (h : nAdjustedTime < a.nExpiration) :
    a.cancels nAdjustedTime alert = true ↔ Names a alert := by
  have heff : a.isInEffect nAdjustedTime = true := decide_eq_true h
  unfold CAlert.cancels Names
  rw [heff, if_neg (by decide), Bool.or_eq_true, decide_eq_true_eq, List.contains_iff_mem]

theorem cancel_previous_lookup (nAdjustedTime : ℤ) (a : CAlert)
    (xs : List (Sigma fun _ : Uint256 => CAlert)) (m : MapAlerts) (k : Uint256) (v : CAlert) :
    (cancelPrevious nAdjustedTime a xs m).lookup k = some v ↔ m.lookup k = some v ∧
      ∀ alert, ⟨k,alert⟩ ∈ xs → a.cancels nAdjustedTime alert = false ∧
        alert.isInEffect nAdjustedTime = true := by
  induction xs generalizing m with
  | nil => simp [cancelPrevious]
  | cons x xs ih =>
    obtain ⟨j,b⟩ := x
    have herased : (m.erase j).lookup k = some v ↔ k ≠ j ∧ m.lookup k = some v := by
      rw [lookup_erase_if]
      split
      · rename_i hk
        exact ⟨fun h => (by cases h),fun h => absurd hk h.1⟩
      · rename_i hk
        exact ⟨fun h => ⟨hk,h⟩,fun h => h.2⟩
    have hmem : ∀ alert, (⟨k,alert⟩ : Sigma fun _ : Uint256 => CAlert) ∈ (⟨j,b⟩ :: xs : List _) ↔
        (k = j ∧ alert = b) ∨ ⟨k,alert⟩ ∈ xs := by
      intro alert
      rw [List.mem_cons, Sigma.mk.injEq, heq_eq_eq]
    unfold cancelPrevious
    simp only [hmem]
    split
    · rename_i hc
      rw [ih, herased]
      constructor
      · rintro ⟨⟨hk,hv⟩,hrest⟩
        exact ⟨hv,fun alert h => hrest alert (h.resolve_left fun hj => hk hj.1)⟩
      · rintro ⟨hv,hrest⟩
        refine ⟨⟨fun hk => ?_,hv⟩,fun alert h => hrest alert (Or.inr h)⟩
        exact absurd (hrest b (Or.inl ⟨hk,rfl⟩)).1 (by rw [hc]; decide)
    · split
      · rename_i he
        rw [Bool.not_eq_true'] at he
        rw [ih, herased]
        constructor
        · rintro ⟨⟨hk,hv⟩,hrest⟩
          exact ⟨hv,fun alert h => hrest alert (h.resolve_left fun hj => hk hj.1)⟩
        · rintro ⟨hv,hrest⟩
          refine ⟨⟨fun hk => ?_,hv⟩,fun alert h => hrest alert (Or.inr h)⟩
          exact absurd (hrest b (Or.inl ⟨hk,rfl⟩)).2 (by rw [he]; decide)
      · rename_i hc he
        rw [ih]
        rw [Bool.not_eq_true] at hc
        rw [Bool.not_eq_true, Bool.not_eq_false'] at he
        constructor
        · rintro ⟨hv,hrest⟩
          refine ⟨hv,fun alert h => ?_⟩
          rcases h with ⟨_,rfl⟩ | h
          · exact ⟨hc,he⟩
          · exact hrest alert h
        · rintro ⟨hv,hrest⟩
          exact ⟨hv,fun alert h => hrest alert (Or.inr h)⟩

theorem cancel_all_lookup (nAdjustedTime : ℤ) (a : CAlert) (m : MapAlerts) (k : Uint256) (v : CAlert) :
    (cancelPrevious nAdjustedTime a (inOrder leHash m) m).lookup k = some v ↔ m.lookup k = some v ∧
      a.cancels nAdjustedTime v = false ∧ v.isInEffect nAdjustedTime = true := by
  rw [cancel_previous_lookup]
  constructor
  · rintro ⟨hv,h⟩
    exact ⟨hv,h v ((mem_in_order _ _ _ _).mpr hv)⟩
  · rintro ⟨hv,h⟩
    refine ⟨hv,fun alert hmem => ?_⟩
    have hlook := (mem_in_order _ _ _ _).mp hmem
    rw [hv] at hlook
    rw [← Option.some.inj hlook]
    exact h

section Sets
variable (S : List CAlert)

structure Valid : Prop where
  signed : ∀ a ∈ S, checkSignature E a.vchMsg a.vchSig = some a
  reserved : ∀ a ∈ S, a.reserved = true
  hash : ∀ a ∈ S, ∀ b ∈ S, E.hash a.vchMsg = E.hash b.vchMsg → a.vchMsg = b.vchMsg

def Within (d : Delivery) : Prop := d.alert ∈ S ∧ ∀ a ∈ S, d.nAdjustedTime < a.nExpiration

def Delivers (ds : List Delivery) : Prop :=
  (∀ d ∈ ds, Within S d) ∧ ∀ a ∈ S, ∃ d ∈ ds, d.alert = a

def Holds (m : MapAlerts) : Prop := ∀ k a, m.lookup k = some a → a ∈ S ∧ k = a.getHash E

def held (m : MapAlerts) : Set CAlert := {a | m.lookup (a.getHash E) = some a}

theorem mem_held (m : MapAlerts) (a : CAlert) : a ∈ held E m ↔ m.lookup (a.getHash E) = some a := Iff.rfl

theorem congruent_valid (h : Valid E S) :
    Congruent (CAlert.getHash E) Names {a | a ∈ S} := by
  intro a ha b hb hkey
  have hmsg := h.hash a ha b hb hkey
  have hfields : ∀ c ∈ S, E.unserialize c.vchMsg = some c.toCUnsignedAlert := by
    intro c hc
    have hs := h.signed c hc
    unfold checkSignature at hs
    split at hs
    · obtain ⟨u,hu,hcu⟩ := Option.map_eq_some_iff.mp hs
      rw [hu, ← hcu]
    · cases hs
  have heq : a.toCUnsignedAlert = b.toCUnsignedAlert := by
    have ha' := hfields a ha
    rw [hmsg, hfields b hb] at ha'
    exact (Option.some.inj ha').symm
  constructor
  · intro x
    unfold Names
    rw [heq]
  · intro x
    unfold Names
    rw [heq]

section Cancelled
variable {E} {S} {t : ℤ} {a : CAlert} {m : MapAlerts} (ha : a ∈ S) (ht : ∀ b ∈ S, t < b.nExpiration)
  (hm : Holds E S m)
include ha ht hm

theorem cancelled_lookup (k : Uint256) (v : CAlert) :
    (cancelPrevious t a (inOrder leHash m) m).lookup k = some v ↔
      m.lookup k = some v ∧ ¬ Names a v := by
  rw [cancel_all_lookup]
  constructor
  · rintro ⟨hv,hc,_⟩
    refine ⟨hv,fun hn => ?_⟩
    rw [(cancels_iff a v (ht a ha)).mpr hn] at hc
    cases hc
  · rintro ⟨hv,hn⟩
    refine ⟨hv,Bool.eq_false_iff.mpr fun hc => hn ((cancels_iff a v (ht a ha)).mp hc),?_⟩
    exact decide_eq_true (ht v (hm k v hv).1)

theorem cancelled_held :
    held E (cancelPrevious t a (inOrder leHash m) m) = left Names a (held E m) := by
  ext x
  exact cancelled_lookup ha ht hm _ x

theorem cancelled_holds : Holds E S (cancelPrevious t a (inOrder leHash m) m) := fun k v hv =>
  hm k v ((cancelled_lookup ha ht hm k v).mp hv).1

theorem refused_iff : ((inOrder leHash (cancelPrevious t a (inOrder leHash m) m)).any
    fun item => item.2.cancels t a) = true ↔ Refused Names a (held E m) := by
  rw [List.any_eq_true, Refused, ← cancelled_held ha ht hm]
  constructor
  · rintro ⟨⟨k,v⟩,hmem,hc⟩
    have hv := (mem_in_order _ _ _ _).mp hmem
    obtain ⟨hvS,rfl⟩ := cancelled_holds ha ht hm k v hv
    exact ⟨v,hv,(cancels_iff v a (ht v hvS)).mp hc⟩
  · rintro ⟨v,hv,hn⟩
    have hvS := (cancelled_holds ha ht hm _ v hv).1
    exact ⟨⟨_,v⟩,(mem_in_order _ _ _ _).mpr hv,(cancels_iff v a (ht v hvS)).mpr hn⟩

end Cancelled

section Inserted
variable {E} {S} {a : CAlert} {m : MapAlerts} (hm : Holds E S m)
include hm

theorem inserted_holds (ha : a ∈ S) : Holds E S (insertNew m (a.getHash E) a) := by
  intro k v hv
  rw [lookup_insert_new] at hv
  split at hv
  · rename_i hnew
    obtain rfl := Option.some.inj hv
    exact ⟨ha,hnew.1⟩
  · exact hm k v hv

/-- An alert is inserted where no other has its hash. -/
theorem inserted_held (x : CAlert) : x ∈ held E (insertNew m (a.getHash E) a) ↔
    x ∈ held E m ∨ x = a ∧ ∀ y ∈ held E m, y.getHash E ≠ a.getHash E := by
  rw [mem_held, lookup_insert_new]
  constructor
  · intro hx
    split at hx
    · rename_i hnew
      obtain rfl := Option.some.inj hx
      refine Or.inr ⟨rfl,fun y hy hkey => ?_⟩
      rw [mem_held, hkey, hnew.2] at hy
      cases hy
    · exact Or.inl hx
  · rintro (hx | ⟨rfl,hx⟩)
    · rw [mem_held] at hx
      rw [if_neg, hx]
      rintro ⟨hkey,hnone⟩
      rw [hkey, hnone] at hx
      cases hx
    · rw [if_pos]
      refine ⟨rfl,?_⟩
      cases hv : m.lookup (x.getHash E) with
      | none => rfl
      | some v =>
        have hvkey := (hm _ v hv).2
        refine absurd hvkey.symm (hx v ?_)
        rw [mem_held, ← hvkey]
        exact hv

end Inserted

theorem deliver_arrive (hS : Valid E S) {d : Delivery} {m : MapAlerts} (hd : Within S d)
    (hm : Holds E S m) :
    held E (deliver E d m).2 = arrive (CAlert.getHash E) Names d.alert (held E m) ∧
      Holds E S (deliver E d m).2 ∧
      ((deliver E d m).1 = false ↔ Refused Names d.alert (held E m)) ∧
      ((deliver E d m).1 = false → held E (deliver E d m).2 = left Names d.alert (held E m)) := by
  obtain ⟨t,a⟩ := d
  obtain ⟨ha,ht⟩ := hd
  dsimp only at ha ht ⊢
  have hin : a.isInEffect t = true := decide_eq_true (ht a ha)
  have hleft := cancelled_held ha ht hm
  have hholds := cancelled_holds ha ht hm
  have hrefused := refused_iff ha ht hm
  unfold deliver processAlert
  dsimp only
  rw [hS.signed a ha]
  dsimp only
  rw [hin, if_neg (by decide), hS.reserved a ha, if_neg (by decide)]
  split
  · rename_i hr
    have hr' := hrefused.mp hr
    refine ⟨?_,hholds,⟨fun _ => hr',fun _ => rfl⟩,fun _ => hleft⟩
    ext x
    change x ∈ held E _ ↔ x ∈ left Names a (held E m) ∨ _
    rw [hleft]
    exact (or_iff_left fun hx => hx.2.1 hr').symm
  · rename_i hr
    have hr' : ¬ Refused Names a (held E m) := fun h => hr (hrefused.mpr h)
    refine ⟨?_,inserted_holds hholds ha,⟨fun h => (by cases h),fun h => absurd h hr'⟩,
      fun h => (by cases h)⟩
    ext x
    change x ∈ held E (insertNew _ _ _) ↔ x ∈ left Names a (held E m) ∨ _
    rw [inserted_held hholds, hleft]
    exact or_congr_right (and_congr_right fun _ => (and_iff_right hr').symm)

theorem deliver_all_arrive (hS : Valid E S) {ds : List Delivery} (m : MapAlerts)
    (hds : ∀ d ∈ ds, Within S d) (hm : Holds E S m) :
    held E (deliverAll E ds m) =
        arriveAll (CAlert.getHash E) Names (ds.map Delivery.alert) (held E m) ∧
      Holds E S (deliverAll E ds m) := by
  induction ds generalizing m with
  | nil => exact ⟨rfl,hm⟩
  | cons d ds ih =>
    obtain ⟨harrive,hholds,_⟩ := deliver_arrive E S hS (hds d List.mem_cons_self) hm
    obtain ⟨hrest,hend⟩ := ih (deliver E d m).2 (fun x hx => hds x (List.mem_cons_of_mem d hx)) hholds
    refine ⟨?_,hend⟩
    unfold deliverAll
    rw [hrest, harrive]
    rfl

theorem held_empty : held E ∅ = ∅ := by
  ext a
  constructor
  · intro h
    cases h
  · intro h
    cases h

theorem holds_empty : Holds E S ∅ := fun _ _ h => by cases h

theorem lookup_of_held {m m' : MapAlerts} (hm : Holds E S m) (hm' : Holds E S m')
    (h : held E m = held E m') (k : Uint256) : m.lookup k = m'.lookup k := by
  have hsub : ∀ n n' : MapAlerts, Holds E S n → held E n = held E n' → ∀ v, n.lookup k = some v →
      n'.lookup k = some v := by
    intro n n' hn heq v hv
    have hkey := (hn k v hv).2
    have hmem : v ∈ held E n := by
      change AList.lookup (v.getHash E) n = some v
      rw [← hkey]
      exact hv
    rw [heq] at hmem
    rw [hkey]
    exact hmem
  cases hv : m.lookup k with
  | some v => exact (hsub m m' hm h v hv).symm
  | none =>
    cases hv' : m'.lookup k with
    | none => rfl
    | some v =>
      rw [hsub m' m hm' h.symm v hv'] at hv
      cases hv

structure Agreement : Prop where
  same : ∀ ds ds', Delivers S ds → Delivers S ds' → ∀ k,
    (deliverAll E ds ∅).lookup k = (deliverAll E ds' ∅).lookup k
  standing : ∀ ds, Delivers S ds → ∀ a ∈ S, a ∈ held E (deliverAll E ds ∅) ↔
    ∀ b ∈ held E (deliverAll E ds ∅), b.getHash E ≠ a.getHash E → ¬ Names b a
  refused : ∀ ds d, (∀ x ∈ ds, Within S x) → Within S d → (deliver E d (deliverAll E ds ∅)).1 = false →
    ∀ k, (deliver E d (deliverAll E ds ∅)).2.lookup k = (deliverAll E ds ∅).lookup k
  apart : ∀ ds, (∀ x ∈ ds, Within S x) → ∀ k k' a b, k ≠ k' →
    (deliverAll E ds ∅).lookup k = some a → (deliverAll E ds ∅).lookup k' = some b → ¬ Names a b

theorem covers_of_delivers {ds : List Delivery} (h : Delivers S ds) :
    Covers {a | a ∈ S} (ds.map Delivery.alert) where
  within a ha := by
    obtain ⟨d,hd,rfl⟩ := List.mem_map.mp ha
    exact (h.1 d hd).1
  all a ha := by
    obtain ⟨d,hd,rfl⟩ := h.2 a ha
    exact List.mem_map.mpr ⟨d,hd,rfl⟩

theorem exists_time : ∃ t : ℤ, ∀ a ∈ S, t < a.nExpiration := by
  induction S with
  | nil => exact ⟨0,fun _ h => by cases h⟩
  | cons a S ih =>
    obtain ⟨t,ht⟩ := ih
    refine ⟨min t (a.nExpiration-1),fun b hb => ?_⟩
    rcases List.mem_cons.mp hb with rfl | hb
    · exact lt_of_le_of_lt (min_le_right _ _) (by omega)
    · exact lt_of_le_of_lt (min_le_left _ _) (ht b hb)

def arrivals (t : ℤ) (as : List CAlert) : List Delivery := as.map fun a => ⟨t,a⟩

theorem alerts_arrivals (t : ℤ) (as : List CAlert) : (arrivals t as).map Delivery.alert = as := by
  unfold arrivals
  rw [List.map_map]
  exact List.map_id as

theorem within_arrivals {t : ℤ} (ht : ∀ a ∈ S, t < a.nExpiration) {as : List CAlert}
    (has : ∀ a ∈ as, a ∈ S) : ∀ d ∈ arrivals t as, Within S d := by
  intro d hd
  obtain ⟨a,ha,rfl⟩ := List.mem_map.mp hd
  exact ⟨has a ha,ht⟩

theorem held_arrivals (hS : Valid E S) {t : ℤ} (ht : ∀ a ∈ S, t < a.nExpiration) (as : List CAlert)
    (has : ∀ a ∈ as, a ∈ S) :
    held E (deliverAll E (arrivals t as) ∅) = arriveAll (CAlert.getHash E) Names as ∅ := by
  obtain ⟨hheld,_⟩ := deliver_all_arrive E S hS ∅ (within_arrivals S ht has) (holds_empty E S)
  rw [hheld, alerts_arrivals, held_empty]

theorem agreement_of_decided (hS : Valid E S)
    (hD : Decided (CAlert.getHash E) Names {a | a ∈ S})
    (hC : Closed (CAlert.getHash E) Names {a | a ∈ S}) : Agreement E S := by
  have hcong := congruent_valid E S hS
  have hheld : ∀ ds, (∀ d ∈ ds, Within S d) → held E (deliverAll E ds ∅) =
      arriveAll (CAlert.getHash E) Names (ds.map Delivery.alert) ∅ ∧ Holds E S (deliverAll E ds ∅) := by
    intro ds hds
    have h := deliver_all_arrive E S hS ∅ hds (holds_empty E S)
    rw [held_empty] at h
    exact h
  have hout : ∀ ds, Delivers S ds → held E (deliverAll E ds ∅) =
      {a | Free (CAlert.getHash E) Names {a | a ∈ S} a} := by
    intro ds hds
    rw [(hheld ds hds.1).1]
    exact decided_outcome _ _ _ hD (covers_of_delivers S hds)
  constructor
  · intro ds ds' hds hds'
    exact lookup_of_held E S (hheld ds hds.1).2 (hheld ds' hds'.1).2
      ((hout ds hds).trans (hout ds' hds').symm)
  · intro ds hds a ha
    rw [hout ds hds]
    constructor
    · exact fun hfree b hb hkey => hfree.2 b hb.1 hkey
    · intro hnone
      rcases hD a ha with ⟨hfree,_⟩ | ⟨u,hu,hkey,hua⟩
      · exact hfree
      · exact absurd hua (hnone u hu hkey)
  · intro ds d hds hd hfalse
    obtain ⟨heq,hholds⟩ := hheld ds hds
    obtain ⟨_,hholds',hr,hleft⟩ := deliver_arrive E S hS hd hholds
    refine lookup_of_held E S hholds' hholds ?_
    rw [hleft hfalse]
    have hsub : held E (deliverAll E ds ∅) ⊆ {a | a ∈ S} := fun a ha => (hholds _ a ha).1
    have hpeace : Peaceful (CAlert.getHash E) Names (held E (deliverAll E ds ∅)) := by
      rw [heq]
      exact peaceful_all _ _ _ _ (peaceful_empty _ _)
    exact refused_left _ _ _ hcong hC hd.1 hsub hpeace (hr.mp hfalse)
  · intro ds hds k k' a b hne ha hb
    obtain ⟨heq,hholds⟩ := hheld ds hds
    obtain ⟨_,rfl⟩ := hholds k a ha
    obtain ⟨_,rfl⟩ := hholds k' b hb
    have hpeace := peaceful_all (CAlert.getHash E) Names (ds.map Delivery.alert) ∅ (peaceful_empty _ _)
    rw [← heq] at hpeace
    exact hpeace.calm a ha b hb hne

theorem decided_of_agreement (hS : Valid E S) (h : Agreement E S) :
    Decided (CAlert.getHash E) Names {a | a ∈ S} ∧ Closed (CAlert.getHash E) Names {a | a ∈ S} := by
  obtain ⟨t,ht⟩ := exists_time S
  have hdelivers : ∀ as, Covers {a | a ∈ S} as → Delivers S (arrivals t as) := by
    intro as has
    refine ⟨within_arrivals S ht has.within,fun a ha => ⟨⟨t,a⟩,?_,rfl⟩⟩
    exact List.mem_map.mpr ⟨a,has.all a ha,rfl⟩
  have hall : Covers {a | a ∈ S} S := ⟨fun _ h => h,fun _ h => h⟩
  constructor
  · apply decided_of_same (CAlert.getHash E) Names {a | a ∈ S} (congruent_valid E S hS) hall
    intro bs hbs
    rw [← held_arrivals E S hS ht bs hbs.within, ← held_arrivals E S hS ht S fun _ h => h]
    ext a
    rw [mem_held, mem_held]
    rw [h.same _ _ (hdelivers bs hbs) (hdelivers S hall)]
  · apply closed_of_left
    intro as a has ha hr
    have hw := within_arrivals S ht has
    obtain ⟨_,hholds⟩ := deliver_all_arrive E S hS ∅ hw (holds_empty E S)
    have hd : Within S ⟨t,a⟩ := ⟨ha,ht⟩
    obtain ⟨_,_,hfalse,hleft⟩ := deliver_arrive E S hS hd hholds
    have heq := held_arrivals E S hS ht as has
    rw [← heq] at hr ⊢
    have hf := hfalse.mpr hr
    rw [← hleft hf]
    ext x
    rw [mem_held, mem_held]
    rw [h.refused _ _ hw hd hf]

/-- The nodes agree on a set of alerts exactly where cancellation decides on it. -/
theorem alerts_agree_iff (hS : Valid E S) : Agreement E S ↔
    Decided (CAlert.getHash E) Names {a | a ∈ S} ∧ Closed (CAlert.getHash E) Names {a | a ∈ S} :=
  ⟨decided_of_agreement E S hS,fun h => agreement_of_decided E S hS h.1 h.2⟩

end Sets

section Samples

def sampleEnv : AlertEnv where
  hash vchMsg := BitVec.ofNat 256 ((vchMsg.map UInt8.toNat).sum)
  verify _ _ := true
  unserialize vchMsg := some ⟨1000,((vchMsg[0]?).getD 0).toNat,0,
    [(((vchMsg[1]?).getD 0).toNat : ℤ)],0,maxInt,[],0,""⟩

def sampleAlert (nID nCancel : UInt8) : CAlert :=
  ⟨⟨1000,nID.toNat,0,[(nCancel.toNat : ℤ)],0,maxInt,[],0,""⟩,[nID,nCancel],[]⟩

theorem sample_valid (S : List CAlert) (h : ∀ a ∈ S, a = sampleAlert 1 20 ∨ a = sampleAlert 2 1 ∨
    a = sampleAlert 3 2) : Valid sampleEnv S where
  signed a ha := by
    rcases h a ha with rfl | rfl | rfl
    · rfl
    · rfl
    · rfl
  reserved a ha := by
    rcases h a ha with rfl | rfl | rfl
    · decide
    · decide
    · decide
  hash a ha b hb := by
    rcases h a ha with rfl | rfl | rfl <;> rcases h b hb with rfl | rfl | rfl <;> decide

/-- The second alert cancels the first one, in whatever order they come. -/
theorem alerts_agree_sample : Agreement sampleEnv [sampleAlert 1 20,sampleAlert 2 1] := by
  have hvalid : Valid sampleEnv [sampleAlert 1 20,sampleAlert 2 1] := by
    apply sample_valid
    intro a ha
    rcases List.mem_cons.mp ha with rfl | ha
    · exact Or.inl rfl
    · exact Or.inr (Or.inl (List.mem_singleton.mp ha))
  have hmem : ∀ a ∈ ({a | a ∈ [sampleAlert 1 20,sampleAlert 2 1]} : Set CAlert),
      a = sampleAlert 1 20 ∨ a = sampleAlert 2 1 := by
    intro a ha
    rcases List.mem_cons.mp ha with rfl | ha
    · exact Or.inl rfl
    · exact Or.inr (List.mem_singleton.mp ha)
  have hfree : Free (CAlert.getHash sampleEnv) Names {a | a ∈ [sampleAlert 1 20,sampleAlert 2 1]}
      (sampleAlert 2 1) := by
    refine ⟨List.mem_cons_of_mem _ List.mem_cons_self,fun b hb hkey => ?_⟩
    rcases hmem b hb with rfl | rfl
    · unfold Names
      decide
    · exact absurd rfl hkey
  refine (alerts_agree_iff sampleEnv _ hvalid).mpr ⟨?_,?_⟩
  · intro a ha
    rcases hmem a ha with rfl | rfl
    · refine Or.inr ⟨sampleAlert 2 1,hfree,by decide,?_⟩
      unfold Names
      decide
    · refine Or.inl ⟨hfree,fun b hb hkey => ?_⟩
      rcases hmem b hb with rfl | rfl
      · exact absurd hkey (by decide)
      · rfl
  · intro a ha b hb c hc hab hac hbc
    rcases hmem a ha with rfl | rfl <;> rcases hmem b hb with rfl | rfl <;>
      rcases hmem c hc with rfl | rfl <;> first | exact absurd rfl hab | exact absurd rfl hac |
        exact absurd rfl hbc

/-- An alert that is refused takes another one with it: the third cancels the second and that
one the first, which is gone or not by the order of the last two. -/
theorem refused_alert_cancels :
    ¬ Agreement sampleEnv [sampleAlert 1 20,sampleAlert 2 1,sampleAlert 3 2] := by
  intro h
  have hwithin : ∀ a ∈ [sampleAlert 1 20,sampleAlert 2 1,sampleAlert 3 2],
      Within [sampleAlert 1 20,sampleAlert 2 1,sampleAlert 3 2] ⟨0,a⟩ := by
    intro a ha
    refine ⟨ha,fun b hb => ?_⟩
    simp only [List.mem_cons, List.not_mem_nil, or_false] at hb
    rcases hb with rfl | rfl | rfl <;> exact (by decide : (0:ℤ) < 1000)
  have hdelivers : ∀ as : List CAlert, (∀ a ∈ as, a ∈ [sampleAlert 1 20,sampleAlert 2 1,sampleAlert 3 2]) →
      (∀ a ∈ [sampleAlert 1 20,sampleAlert 2 1,sampleAlert 3 2], a ∈ as) →
      Delivers [sampleAlert 1 20,sampleAlert 2 1,sampleAlert 3 2] (arrivals 0 as) := by
    intro as has hall
    constructor
    · intro d hd
      obtain ⟨a,ha,rfl⟩ := List.mem_map.mp hd
      exact hwithin a (has a ha)
    · exact fun a ha => ⟨⟨0,a⟩,List.mem_map.mpr ⟨a,hall a ha,rfl⟩,rfl⟩
  have hsame := h.same _ _
    (hdelivers [sampleAlert 1 20,sampleAlert 3 2,sampleAlert 2 1] (by decide) (by decide))
    (hdelivers [sampleAlert 3 2,sampleAlert 2 1,sampleAlert 1 20] (by decide) (by decide))
    ((sampleAlert 1 20).getHash sampleEnv)
  exact absurd hsame (by decide +kernel)

end Samples

end SwippCore.Alert
