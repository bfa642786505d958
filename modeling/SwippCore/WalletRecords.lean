import SwippCore.Serialize
import SwippCore.Lib.Sorted

/-!
# Records of the wallet on disk

A wallet transaction carries its account, its spent flags, its place and its smart time
as values under reserved keys while it is written, and an accounting entry its map of
values behind its comment. Both take them out again.
-/

set_option autoImplicit false

namespace SwippCore.WalletRecords
open PrefixCode Unserialize

/-- The bytes of a `std::string`. -/
abbrev CharString := List UInt8

/-- Chars compare as `unsigned char`. -/
local instance charOrder : LinearOrder UInt8 :=
  LinearOrder.lift' UInt8.toNat fun _ _ h => UInt8.toNat_inj.mp h

abbrev MapValue := SortedMap CharString CharString

def chs (s : String) : CharString := s.toList.map fun c => UInt8.ofNat c.toNat

/-- `std::map::operator[]` -/
def MapValue.at (m : MapValue) (k : CharString) : CharString := (m.find k).getD []

def mapValueCodec : Codec MapValue where
  size m := ((chars.pair chars).vector Unserialize.compactSize).size m.entries
  write m := ((chars.pair chars).vector Unserialize.compactSize).write m.entries
  read bs := (((chars.pair chars).vector Unserialize.compactSize).read bs).map fun x =>
    (x.1.foldl SortedMap.offer SortedMap.empty,x.2)
  Fits m := ((chars.pair chars).vector Unserialize.compactSize).Fits m.entries
  size_write m := Codec.size_write _ m.entries
  read_write m hm r := by
    rw [Codec.read_write _ m.entries hm r, Option.map_some, SortedMap.offer_entries]

/-- `strtoll`: what is out of range becomes the nearest number in it. -/
def atoi64 (s : CharString) : ℤ := max (-2^63) (min (2^63-1) (Decimal.parse s))

def i64tostr (n : ℤ) : CharString := Decimal.decimalInt n

def readOrderPos (m : MapValue) : ℤ :=
  if !m.contains (chs "n") then -1 else atoi64 (m.at (chs "n"))

def writeOrderPos (nOrderPos : ℤ) (m : MapValue) : MapValue :=
  if nOrderPos = -1 then m else m.insert (chs "n") (i64tostr nOrderPos)

structure CMerkleTx where
  tx : CTransaction
  hashBlock : Uint256
  vMerkleBranch : List Uint256
  nIndex : ℤ
  deriving DecidableEq, Repr

def merkleTx : Codec CMerkleTx :=
  Codec.record (fun t => (t.tx,t.hashBlock,t.vMerkleBranch,t.nIndex))
    (fun x => ⟨x.1,x.2.1,x.2.2.1,x.2.2.2⟩) (fun _ => rfl)
    (transaction.pair (uint256.pair ((uint256.vector Unserialize.compactSize).pair (Codec.signed 4))))

/-- What is kept of a wallet transaction on disk; `fFromMe` and the flags are chars. -/
structure CWalletTx where
  merkle : CMerkleTx
  vtxPrev : List CMerkleTx
  mapValue : MapValue
  vOrderForm : List (CharString × CharString)
  fTimeReceivedIsTxTime : ℕ
  nTimeReceived : ℕ
  nTimeSmart : ℕ
  fFromMe : UInt8
  strFromAccount : CharString
  vfSpent : List UInt8
  nOrderPos : ℤ
  deriving DecidableEq

namespace CWalletTx
variable (wtx : CWalletTx)

/-- `Init(NULL)`; the transaction itself stays. -/
def init : CWalletTx := ⟨wtx.merkle,[],SortedMap.empty,[],0,0,0,0,[],[],-1⟩

def spentChars : CharString := wtx.vfSpent.map fun f => if f = 0 then 48 else 49

def fSpent : UInt8 := if wtx.vfSpent.any (· ≠ 0) then 1 else 0

def packed : CWalletTx :=
  let m := wtx.mapValue.insert (chs "fromaccount") wtx.strFromAccount
  let m := m.insert (chs "spent") wtx.spentChars
  let m := writeOrderPos wtx.nOrderPos m
  let m := if wtx.nTimeSmart = 0 then m else m.insert (chs "timesmart") (Decimal.decimal wtx.nTimeSmart)
  { wtx with mapValue := m }

def unpacked (fSpent : UInt8) : CWalletTx :=
  { wtx with
    strFromAccount := wtx.mapValue.at (chs "fromaccount")
    vfSpent :=
      if wtx.mapValue.contains (chs "spent") then
        wtx.vfSpent++(wtx.mapValue.at (chs "spent")).map fun c => if c = 48 then 0 else 1
      else List.replicate wtx.merkle.tx.vout.length fSpent
    nOrderPos := readOrderPos wtx.mapValue
    nTimeSmart :=
      if wtx.mapValue.contains (chs "timesmart") then
        (atoi64 (wtx.mapValue.at (chs "timesmart"))%2^32).toNat
      else 0 }

def reserved : List CharString :=
  [chs "fromaccount",chs "version",chs "spent",chs "n",chs "timesmart"]

def cleared : CWalletTx :=
  { wtx with mapValue := reserved.foldl (fun m k => m.erase k) wtx.mapValue }

/-- The body of `IMPLEMENT_SERIALIZE`; none where it throws. -/
def serialization (ser_action : SerAction) (s : SerStream) : Option (CWalletTx × SerStream) := do
  let fRead := ser_action = .unserialize
  let pthis := if fRead then wtx.init else wtx.packed
  let fSpent := if fRead then 0 else wtx.fSpent
  let (merkle,s) ← serReadWrite merkleTx ser_action pthis.merkle s
  let (vtxPrev,s) ← serReadWrite (merkleTx.vector Unserialize.compactSize) ser_action pthis.vtxPrev s
  let (mapValue,s) ← serReadWrite mapValueCodec ser_action pthis.mapValue s
  let (vOrderForm,s) ←
    serReadWrite ((chars.pair chars).vector Unserialize.compactSize) ser_action pthis.vOrderForm s
  let (fTimeReceivedIsTxTime,s) ←
    serReadWrite (Codec.number 4) ser_action pthis.fTimeReceivedIsTxTime s
  let (nTimeReceived,s) ← serReadWrite (Codec.number 4) ser_action pthis.nTimeReceived s
  let (fFromMe,s) ← serReadWrite Codec.byte ser_action pthis.fFromMe s
  let (fSpent,s) ← serReadWrite Codec.byte ser_action fSpent s
  let pthis := { pthis with
    merkle := merkle
    vtxPrev := vtxPrev
    mapValue := mapValue
    vOrderForm := vOrderForm
    fTimeReceivedIsTxTime := fTimeReceivedIsTxTime
    nTimeReceived := nTimeReceived
    fFromMe := fFromMe }
  let pthis := if fRead then pthis.unpacked fSpent else pthis
  some (pthis.cleared,s)

abbrev Fields := CMerkleTx × List CMerkleTx × MapValue × List (CharString × CharString) × ℕ × ℕ × UInt8 × UInt8

def fields : Codec Fields :=
  merkleTx.pair ((merkleTx.vector Unserialize.compactSize).pair (mapValueCodec.pair
    (((chars.pair chars).vector Unserialize.compactSize).pair ((Codec.number 4).pair ((Codec.number 4).pair
      (Codec.byte.pair Codec.byte))))))

def toFields (fSpent : UInt8) : Fields :=
  (wtx.merkle,wtx.vtxPrev,wtx.mapValue,wtx.vOrderForm,wtx.fTimeReceivedIsTxTime,wtx.nTimeReceived,wtx.fFromMe,
    fSpent)

def withFields (x : Fields) : CWalletTx :=
  { wtx with
    merkle := x.1
    vtxPrev := x.2.1
    mapValue := x.2.2.1
    vOrderForm := x.2.2.2.1
    fTimeReceivedIsTxTime := x.2.2.2.2.1
    nTimeReceived := x.2.2.2.2.2.1
    fFromMe := x.2.2.2.2.2.2.1 }

theorem serialization_fields (ser_action : SerAction) (s : SerStream) :
    wtx.serialization ser_action s =
      let fRead := ser_action = .unserialize
      let pthis := if fRead then wtx.init else wtx.packed
      (serReadWrite fields ser_action (pthis.toFields (if fRead then 0 else wtx.fSpent)) s).map fun x =>
        (if fRead then ((pthis.withFields x.1).unpacked x.1.2.2.2.2.2.2.2).cleared
          else (pthis.withFields x.1).cleared,x.2) := by
  simp only [serialization, fields, toFields, ser_pair]
  cases ser_action with
  | getSerializeSize => rfl
  | serialize => rfl
  | unserialize =>
    simp only [Option.bind_eq_bind, Option.map_eq_bind, Option.bind_assoc, Function.comp_apply,
      Option.bind_some]
    rfl

def Unreserved : Prop := ∀ k ∈ reserved, wtx.mapValue.find k = none

theorem packed_find (k : CharString) : wtx.packed.mapValue.find k =
    if k = chs "timesmart" ∧ wtx.nTimeSmart ≠ 0 then some (Decimal.decimal wtx.nTimeSmart)
    else if k = chs "n" ∧ wtx.nOrderPos ≠ -1 then some (i64tostr wtx.nOrderPos)
    else if k = chs "spent" then some wtx.spentChars
    else if k = chs "fromaccount" then some wtx.strFromAccount
    else wtx.mapValue.find k := by
  have hpos : (writeOrderPos wtx.nOrderPos ((wtx.mapValue.insert (chs "fromaccount") wtx.strFromAccount).insert
      (chs "spent") wtx.spentChars)).find k =
      if k = chs "n" ∧ wtx.nOrderPos ≠ -1 then some (i64tostr wtx.nOrderPos)
      else if k = chs "spent" then some wtx.spentChars
      else if k = chs "fromaccount" then some wtx.strFromAccount
      else wtx.mapValue.find k := by
    unfold writeOrderPos
    by_cases hn : wtx.nOrderPos = -1
    · rw [if_pos hn, if_neg (fun h => h.2 hn), SortedMap.find_insert, SortedMap.find_insert]
    · rw [if_neg hn, SortedMap.find_insert, SortedMap.find_insert, SortedMap.find_insert]
      simp [hn]
  unfold packed
  dsimp only
  by_cases ht : wtx.nTimeSmart = 0
  · rw [if_pos ht, hpos]
    simp [ht]
  · rw [if_neg ht, SortedMap.find_insert, hpos]
    simp [ht]

theorem cleared_packed (h : wtx.Unreserved) : wtx.packed.cleared = wtx := by
  have hmap : reserved.foldl (fun m k => m.erase k) wtx.packed.mapValue = wtx.mapValue := by
    apply SortedMap.ext_find
    intro k
    by_cases hk : k ∈ reserved
    · rw [SortedMap.find_erase_all _ hk, h k hk]
    · have hne : ∀ j ∈ reserved, k ≠ j := fun j hj heq => hk (heq ▸ hj)
      rw [SortedMap.find_erase_others _ hk, packed_find, if_neg fun hx => hne _ (by decide) hx.1, if_neg fun hx => hne _ (by decide) hx.1,
        if_neg (hne _ (by decide)), if_neg (hne _ (by decide))]
  show { wtx with mapValue := reserved.foldl (fun m k => m.erase k) wtx.packed.mapValue } = wtx
  rw [hmap]

def Flagged : Prop := ∀ f ∈ wtx.vfSpent, f = 0 ∨ f = 1

/-- The fields are values of their types, and nothing that is written is longer than `MAX_SIZE`. -/
structure Fits : Prop where
  merkle : merkleTx.Fits wtx.merkle
  prev : (merkleTx.vector Unserialize.compactSize).Fits wtx.vtxPrev
  values : ∀ e ∈ wtx.mapValue.entries, e.1.length ≤ maxSize ∧ e.2.length ≤ maxSize
  count : wtx.packed.mapValue.entries.length ≤ maxSize
  orderForm : ((chars.pair chars).vector Unserialize.compactSize).Fits wtx.vOrderForm
  receivedIsTx : wtx.fTimeReceivedIsTxTime < 2^32
  received : wtx.nTimeReceived < 2^32
  smart : wtx.nTimeSmart < 2^32
  account : wtx.strFromAccount.length ≤ maxSize
  spent : wtx.vfSpent.length ≤ maxSize
  position : FitsSigned 8 wtx.nOrderPos

theorem atoi64_small {n : ℤ} (hlow : -2^63 ≤ n) (hhigh : n < 2^63) {s : CharString}
    (h : Decimal.parse s = n) : atoi64 s = n := by
  rw [atoi64, h]
  omega

theorem unpacked_packed (into : CWalletTx) (c : UInt8) (hflags : wtx.Flagged) (hfree : wtx.Unreserved)
    (hfits : wtx.Fits) : (into.init.withFields (wtx.packed.toFields c)).unpacked c = wtx.packed := by
  have haccount : wtx.packed.mapValue.find (chs "fromaccount") = some wtx.strFromAccount := by
    rw [packed_find, if_neg fun h => absurd h.1 (by decide), if_neg fun h => absurd h.1 (by decide),
      if_neg (by decide), if_pos rfl]
  have hspent : wtx.packed.mapValue.find (chs "spent") = some wtx.spentChars := by
    rw [packed_find, if_neg fun h => absurd h.1 (by decide), if_neg fun h => absurd h.1 (by decide),
      if_pos rfl]
  have hflag : (wtx.spentChars.map fun c => if c = 48 then (0 : UInt8) else 1) = wtx.vfSpent := by
    rw [spentChars, List.map_map]
    conv => rhs; rw [← List.map_id wtx.vfSpent]
    apply List.map_congr_left
    intro f hf
    rcases hflags f hf with rfl | rfl
    · rfl
    · rfl
  have hpos : readOrderPos wtx.packed.mapValue = wtx.nOrderPos := by
    have hfind := wtx.packed_find (chs "n")
    rw [if_neg fun h => absurd h.1 (by decide)] at hfind
    unfold readOrderPos SortedMap.contains MapValue.at
    by_cases hn : wtx.nOrderPos = -1
    · rw [if_neg fun h => h.2 hn, if_neg (by decide), if_neg (by decide), hfree _ (by decide)] at hfind
      rw [hfind, hn]
      rfl
    · rw [if_pos ⟨rfl,hn⟩] at hfind
      rw [hfind]
      obtain ⟨hlow,hhigh⟩ := hfits.position
      exact atoi64_small (by omega) (by omega) (Decimal.parse_decimal_int _)
  have hsmart : (if wtx.packed.mapValue.contains (chs "timesmart") then
      (atoi64 (MapValue.at wtx.packed.mapValue (chs "timesmart"))%2^32).toNat else 0) = wtx.nTimeSmart := by
    have hfind := wtx.packed_find (chs "timesmart")
    have hlt := hfits.smart
    unfold SortedMap.contains MapValue.at
    by_cases ht : wtx.nTimeSmart = 0
    · rw [if_neg fun h => h.2 ht, if_neg fun h => absurd h.1 (by decide), if_neg (by decide),
        if_neg (by decide), hfree _ (by decide)] at hfind
      rw [hfind, ht]
      rfl
    · rw [if_pos ⟨rfl,ht⟩] at hfind
      rw [hfind]
      show (atoi64 (Decimal.decimal wtx.nTimeSmart)%2^32).toNat = wtx.nTimeSmart
      rw [atoi64_small (by omega) (by omega) (Decimal.parse_decimal _)]
      omega
  unfold unpacked
  show ({ wtx.packed with
    strFromAccount := MapValue.at wtx.packed.mapValue (chs "fromaccount")
    vfSpent :=
      if wtx.packed.mapValue.contains (chs "spent") then
        []++(MapValue.at wtx.packed.mapValue (chs "spent")).map fun c => if c = 48 then 0 else 1
      else List.replicate wtx.merkle.tx.vout.length c
    nOrderPos := readOrderPos wtx.packed.mapValue
    nTimeSmart :=
      if wtx.packed.mapValue.contains (chs "timesmart") then
        (atoi64 (MapValue.at wtx.packed.mapValue (chs "timesmart"))%2^32).toNat
      else 0 } : CWalletTx) = wtx.packed
  rw [hpos, hsmart, MapValue.at, MapValue.at, SortedMap.contains, haccount, hspent]
  show ({ wtx.packed with vfSpent := [] ++ wtx.spentChars.map _ } : CWalletTx) = wtx.packed
  rw [List.nil_append, hflag]
  rfl

def Short (m : MapValue) : Prop :=
  ∀ e ∈ m.entries, e.1.length ≤ maxSize ∧ e.2.length ≤ maxSize

variable {m : MapValue}

theorem short_insert (k v : CharString) (h : Short m) (hk : k.length ≤ maxSize)
    (hv : v.length ≤ maxSize) : Short (m.insert k v) := by
  intro e he
  rcases SortedMap.mem_insert_entry he with rfl | he
  · exact ⟨hk,hv⟩
  · exact h e he

theorem chars_fits {s : CharString} (h : s.length ≤ maxSize) :
    chars.Fits s := ⟨h,fun _ _ => trivial⟩

theorem short_fits (hcount : m.entries.length ≤ maxSize) (h : Short m) : mapValueCodec.Fits m :=
  ⟨hcount,fun e he => ⟨chars_fits (h e he).1,chars_fits (h e he).2⟩⟩

theorem short_write_order_pos {nOrderPos : ℤ} (hpos : FitsSigned 8 nOrderPos) (h : Short m) :
    Short (writeOrderPos nOrderPos m) := by
  unfold writeOrderPos
  split
  · exact h
  · apply short_insert _ _ h (by decide)
    obtain ⟨hlow,hhigh⟩ := hpos
    have hlen := Decimal.decimal_int_length nOrderPos 19 (by decide) (by omega)
    unfold maxSize
    exact hlen.trans (by decide)

theorem packed_fits (c : UInt8) (h : wtx.Fits) : fields.Fits (wtx.packed.toFields c) := by
  have haccount := short_insert (chs "fromaccount") _ h.values (by decide) h.account
  have hspent := short_insert (chs "spent") wtx.spentChars haccount (by decide)
    (by rw [spentChars, List.length_map]; exact h.spent)
  have hpos := short_write_order_pos h.position hspent
  have hpacked : Short wtx.packed.mapValue := by
    unfold packed
    dsimp only
    split
    · exact hpos
    · apply short_insert _ _ hpos (by decide)
      have hlen := Decimal.decimal_length wtx.nTimeSmart 10 (by decide) (by have := h.smart; omega)
      unfold maxSize
      exact hlen.trans (by decide)
  exact ⟨h.merkle,h.prev,short_fits h.count hpacked,h.orderForm,h.receivedIsTx,h.received,trivial,trivial⟩

/-- A wallet transaction is left as it is by writing, its size is that of its bytes, and it is
read back from them. -/
theorem survives (hfree : wtx.Unreserved) : ∃ bytes : List UInt8,
    (∀ s, wtx.serialization .serialize s = some (wtx,{ s with bytes := s.bytes++bytes })) ∧
    (∀ s, wtx.serialization .getSerializeSize s =
      some (wtx,{ s with nSerSize := s.nSerSize+BitVec.ofNat 32 bytes.length })) ∧
    (wtx.Flagged → wtx.Fits → ∀ (into : CWalletTx) (n : BitVec 32) (r : List UInt8),
      into.serialization .unserialize ⟨n,bytes++r⟩ = some (wtx,⟨n,r⟩)) := by
  have hcleared : (wtx.packed.withFields (wtx.packed.toFields wtx.fSpent)).cleared = wtx :=
    wtx.cleared_packed hfree
  refine ⟨fields.write (wtx.packed.toFields wtx.fSpent),?_,?_,?_⟩
  · intro s
    rw [serialization_fields]
    show some ((wtx.packed.withFields (wtx.packed.toFields wtx.fSpent)).cleared,_) = _
    rw [hcleared]
    rfl
  · intro s
    rw [serialization_fields, ← fields.size_write]
    show some ((wtx.packed.withFields (wtx.packed.toFields wtx.fSpent)).cleared,_) = _
    rw [hcleared]
    rfl
  · intro hflags hfits into n r
    rw [serialization_fields]
    show (serReadWrite fields .unserialize (into.init.toFields 0) ⟨n,_⟩).map _ = _
    rw [ser_read fields _ n r (wtx.packed_fits wtx.fSpent hfits)]
    show some (((into.init.withFields (wtx.packed.toFields wtx.fSpent)).unpacked wtx.fSpent).cleared,_) = _
    rw [wtx.unpacked_packed into wtx.fSpent hflags hfree hfits, wtx.cleared_packed hfree]

end CWalletTx

structure CAccountingEntry where
  strAccount : CharString
  nCreditDebit : ℤ
  nTime : ℤ
  strOtherAccount : CharString
  strComment : CharString
  mapValue : MapValue
  nOrderPos : ℤ
  nEntryNo : ℕ
  ssExtra : CharString
  deriving DecidableEq

namespace CAccountingEntry
variable (me : CAccountingEntry)

/-- The map, with the place in it, and the bytes that were not understood go behind the comment. -/
def packed : CAccountingEntry :=
  let m := writeOrderPos me.nOrderPos me.mapValue
  { me with
    mapValue := m
    strComment :=
      if m.entries.isEmpty && me.ssExtra.isEmpty then me.strComment
      else me.strComment++0::(mapValueCodec.write m++me.ssExtra) }

def separated (strComment : CharString) : Option CharString :=
  match strComment.dropWhile (· ≠ 0) with
  | [] => none
  | _::rest => some rest

def unpacked : Option CAccountingEntry :=
  match separated me.strComment with
  | none => some { me with mapValue := SortedMap.empty, nOrderPos := readOrderPos SortedMap.empty }
  | some ss =>
    (mapValueCodec.read ss).map fun x =>
      { me with mapValue := x.1, nOrderPos := readOrderPos x.1, ssExtra := x.2 }

def cleared : CAccountingEntry :=
  { me with strComment := me.strComment.takeWhile (· ≠ 0), mapValue := me.mapValue.erase (chs "n") }

def readWriteVersion (fGetHash : Bool) (nVersion : ℤ) (ser_action : SerAction) (s : SerStream) :
    Option SerStream :=
  if fGetHash then some s else (serReadWrite (Codec.signed 4) ser_action nVersion s).map Prod.snd

/-- The body of `IMPLEMENT_SERIALIZE`; `fGetHash` is `nType & SER_GETHASH`. -/
def serialization (fGetHash : Bool) (nVersion : ℤ) (ser_action : SerAction) (s : SerStream) :
    Option (CAccountingEntry × SerStream) := do
  let fRead := ser_action = .unserialize
  let s ← readWriteVersion fGetHash nVersion ser_action s
  let (nCreditDebit,s) ← serReadWrite (Codec.signed 8) ser_action me.nCreditDebit s
  let (nTime,s) ← serReadWrite (Codec.signed 8) ser_action me.nTime s
  let (strOtherAccount,s) ← serReadWrite chars ser_action me.strOtherAccount s
  let me := { me with nCreditDebit := nCreditDebit, nTime := nTime, strOtherAccount := strOtherAccount }
  let me := if fRead then me else me.packed
  let (strComment,s) ← serReadWrite chars ser_action me.strComment s
  let me := { me with strComment := strComment }
  let me ← (if fRead then me.unpacked else some me)
  some (me.cleared,s)

def Plain : Prop := 0 ∉ me.strComment ∧ me.mapValue.find (chs "n") = none

/-- The fields are values of their types, and the comment with what goes behind it is no longer
than `MAX_SIZE`. -/
structure Fits : Prop where
  credit : FitsSigned 8 me.nCreditDebit
  time : FitsSigned 8 me.nTime
  other : me.strOtherAccount.length ≤ maxSize
  comment : me.packed.strComment.length ≤ maxSize
  position : FitsSigned 8 me.nOrderPos

theorem no_nul {s : CharString} (h : 0 ∉ s) (b : UInt8) (hb : b ∈ s) : decide (b ≠ 0) = true := by
  rw [decide_eq_true_eq]
  rintro rfl
  exact h hb

variable {m : MapValue}

theorem erase_order_pos (n : ℤ) (h : m.find (chs "n") = none) :
    (writeOrderPos n m).erase (chs "n") = m := by
  unfold writeOrderPos
  split
  · exact SortedMap.erase_absent h
  · exact SortedMap.erase_insert _ _ m h

theorem read_write_order_pos {n : ℤ} (hn : FitsSigned 8 n) (h : m.find (chs "n") = none) :
    readOrderPos (writeOrderPos n m) = n := by
  unfold readOrderPos writeOrderPos SortedMap.contains MapValue.at
  by_cases hneg : n = -1
  · rw [if_pos hneg, h, hneg]
    rfl
  · rw [if_neg hneg, SortedMap.find_insert, if_pos rfl]
    obtain ⟨hlow,hhigh⟩ := hn
    exact CWalletTx.atoi64_small (by omega) (by omega) (Decimal.parse_decimal_int n)

theorem cleared_packed (h : me.Plain) : me.packed.cleared = me := by
  obtain ⟨hnul,hfree⟩ := h
  have hall := no_nul hnul
  have hcomment : me.packed.strComment.takeWhile (· ≠ 0) = me.strComment := by
    unfold packed
    dsimp only
    split
    · exact List.takeWhile_eq_self_iff.mpr hall
    · rw [List.takeWhile_append_of_pos hall, List.takeWhile_cons_of_neg (by decide), List.append_nil]
  show { me with
    strComment := me.packed.strComment.takeWhile (· ≠ 0)
    mapValue := (writeOrderPos me.nOrderPos me.mapValue).erase (chs "n") } = me
  rw [hcomment, erase_order_pos _ hfree]

theorem map_fits (h : (mapValueCodec.write m).length ≤ maxSize) : mapValueCodec.Fits m := by
  have hchars : ∀ s : CharString, (chars.write s).length = (writeCompactSize s.length).length+s.length := by
    intro s
    show (writeCompactSize s.length++many (fun b => [b]) s).length = _
    rw [Codec.many_bytes, List.length_append]
  have hpair : ∀ e : CharString × CharString, ((chars.pair chars).write e).length =
      (writeCompactSize e.1.length).length+e.1.length+((writeCompactSize e.2.length).length+e.2.length) := by
    intro e
    show (chars.write e.1++chars.write e.2).length = _
    rw [List.length_append, hchars, hchars]
  have hsize : ∀ n, 1 ≤ (writeCompactSize n).length := by
    intro n
    unfold writeCompactSize
    split_ifs <;> simp only [List.length_append, word_length] <;> omega
  have hmany := Codec.many_length (chars.pair chars).write m.entries fun e _ => by
    rw [hpair]
    have h1 := hsize e.1.length
    omega
  have hwrite : (mapValueCodec.write m).length = (writeCompactSize m.entries.length).length+
      (many (chars.pair chars).write m.entries).length := List.length_append
  apply CWalletTx.short_fits (by omega)
  intro e he
  have hlen := hmany.2 e he
  rw [hpair] at hlen
  omega

theorem unpacked_packed (into : CAccountingEntry) (h : me.Plain) (hfits : me.Fits) (hextra : into.ssExtra = []) :
    ({ into with
        nCreditDebit := me.nCreditDebit
        nTime := me.nTime
        strOtherAccount := me.strOtherAccount
        strComment := me.packed.strComment } : CAccountingEntry).unpacked =
      some { me.packed with strAccount := into.strAccount, nEntryNo := into.nEntryNo } := by
  obtain ⟨hnul,hfree⟩ := h
  have hall := no_nul hnul
  have hpos := read_write_order_pos hfits.position hfree
  have hlen := hfits.comment
  unfold unpacked
  unfold packed at hlen ⊢
  dsimp only at hlen ⊢
  generalize hm : writeOrderPos me.nOrderPos me.mapValue = m at hpos hlen ⊢
  by_cases hempty : (m.entries.isEmpty && me.ssExtra.isEmpty) = true
  · rw [if_pos hempty] at hlen ⊢
    rw [Bool.and_eq_true, List.isEmpty_iff, List.isEmpty_iff] at hempty
    have hnil : m = SortedMap.empty := by
      obtain ⟨es,hord⟩ := m
      obtain rfl : es = [] := hempty.1
      rfl
    have hsep : separated me.strComment = none := by
      rw [separated, List.dropWhile_eq_nil_iff.mpr hall]
    rw [hsep]
    dsimp only
    rw [← hnil, hpos, hextra, hempty.2]
  · rw [if_neg hempty] at hlen ⊢
    have hsep : separated (me.strComment++0::(mapValueCodec.write m++me.ssExtra)) =
        some (mapValueCodec.write m++me.ssExtra) := by
      rw [separated, List.dropWhile_append_of_pos hall, List.dropWhile_cons_of_neg (by decide)]
    rw [List.length_append, List.length_cons, List.length_append] at hlen
    rw [hsep]
    dsimp only
    rw [mapValueCodec.read_write m (map_fits (by omega)) me.ssExtra, Option.map_some, hpos]

abbrev Fields := ℤ × ℤ × CharString × CharString

def fields : Codec Fields := (Codec.signed 8).pair ((Codec.signed 8).pair (chars.pair chars))

def withFields (x : Fields) : CAccountingEntry :=
  { me with nCreditDebit := x.1, nTime := x.2.1, strOtherAccount := x.2.2.1, strComment := x.2.2.2 }

variable (fGetHash : Bool)

theorem serialization_fields (nVersion : ℤ) (ser_action : SerAction) (s : SerStream) :
    me.serialization fGetHash nVersion ser_action s =
      (readWriteVersion fGetHash nVersion ser_action s).bind fun s =>
        let fRead := ser_action = .unserialize
        let e := if fRead then me else me.packed
        (serReadWrite fields ser_action (me.nCreditDebit,me.nTime,me.strOtherAccount,e.strComment) s).bind
          fun x =>
            (if fRead then (e.withFields x.1).unpacked else some (e.withFields x.1)).map fun e =>
              (e.cleared,x.2) := by
  simp only [serialization, fields, ser_pair]
  cases ser_action with
  | getSerializeSize => rfl
  | serialize => rfl
  | unserialize =>
    simp only [Option.bind_eq_bind, Option.map_eq_bind, Option.bind_assoc, Function.comp_apply,
      Option.bind_some]
    rfl

def prefixed (fGetHash : Bool) (nVersion : ℤ) : List UInt8 :=
  if fGetHash then [] else (Codec.signed 4).write nVersion

theorem version_written (nVersion : ℤ) (s : SerStream) :
    readWriteVersion fGetHash nVersion .serialize s =
      some { s with bytes := s.bytes++prefixed fGetHash nVersion } := by
  cases fGetHash with
  | true =>
    show some s = some { s with bytes := s.bytes++[] }
    rw [List.append_nil]
  | false => rfl

theorem version_sized (nVersion : ℤ) (s : SerStream) :
    readWriteVersion fGetHash nVersion .getSerializeSize s =
      some { s with nSerSize := s.nSerSize+BitVec.ofNat 32 (prefixed fGetHash nVersion).length } := by
  cases fGetHash with
  | true =>
    show some s = some { s with nSerSize := s.nSerSize+0#32 }
    rw [BitVec.add_zero]
  | false =>
    rw [prefixed, if_neg Bool.false_ne_true, ← (Codec.signed 4).size_write]
    rfl

theorem version_read {nVersion : ℤ} (v : ℤ) (n : BitVec 32) (r : List UInt8)
    (h : FitsSigned 4 nVersion) :
    readWriteVersion fGetHash v .unserialize ⟨n,prefixed fGetHash nVersion++r⟩ = some ⟨n,r⟩ := by
  cases fGetHash with
  | true => rfl
  | false =>
    rw [readWriteVersion, prefixed, if_neg Bool.false_ne_true, if_neg Bool.false_ne_true,
      ser_read (Codec.signed 4) v n r h]
    rfl

/-- An accounting entry is left as it is by writing, its size is that of its bytes, and a fresh
entry reads it back from them. -/
theorem survives (nVersion : ℤ) (h : me.Plain) : ∃ bytes : List UInt8,
    (∀ s, me.serialization fGetHash nVersion .serialize s = some (me,{ s with bytes := s.bytes++bytes })) ∧
    (∀ s, me.serialization fGetHash nVersion .getSerializeSize s =
      some (me,{ s with nSerSize := s.nSerSize+BitVec.ofNat 32 bytes.length })) ∧
    (FitsSigned 4 nVersion → me.Fits → ∀ (into : CAccountingEntry) (v : ℤ) (n : BitVec 32) (r : List UInt8),
      into.ssExtra = [] → into.serialization fGetHash v .unserialize ⟨n,bytes++r⟩ =
        some ({ me with strAccount := into.strAccount, nEntryNo := into.nEntryNo },⟨n,r⟩)) := by
  have hcleared := me.cleared_packed h
  let x : Fields := (me.nCreditDebit,me.nTime,me.strOtherAccount,me.packed.strComment)
  refine ⟨prefixed fGetHash nVersion++fields.write x,?_,?_,?_⟩
  · intro s
    rw [serialization_fields, version_written, Option.bind_some, ← List.append_assoc]
    show some (me.packed.cleared,_) = _
    rw [hcleared]
    rfl
  · intro s
    rw [serialization_fields, version_sized, Option.bind_some, List.length_append, BitVec.ofNat_add,
      ← fields.size_write, ← BitVec.add_assoc]
    show some (me.packed.cleared,_) = _
    rw [hcleared]
    rfl
  · intro hversion hfits into v n r hextra
    have hx : fields.Fits x :=
      ⟨hfits.credit,hfits.time,CWalletTx.chars_fits hfits.other,CWalletTx.chars_fits hfits.comment⟩
    rw [List.append_assoc, serialization_fields, version_read fGetHash v n _ hversion, Option.bind_some]
    dsimp only
    rw [ser_read fields _ n r hx, Option.bind_some]
    show (into.withFields x).unpacked.map _ = _
    have hunpacked : (into.withFields x).unpacked = _ := me.unpacked_packed into h hfits hextra
    rw [hunpacked]
    show some (({ me.packed.cleared with strAccount := into.strAccount, nEntryNo := into.nEntryNo } :
      CAccountingEntry),_) = _
    rw [hcleared]

theorem long_comment (nVersion : ℤ) (hversion : FitsSigned 4 nVersion)
    (hcredit : FitsSigned 8 me.nCreditDebit) (htime : FitsSigned 8 me.nTime)
    (hother : me.strOtherAccount.length ≤ maxSize) (hlong : maxSize < me.packed.strComment.length)
    (hlen : me.packed.strComment.length < 2^64) (bytes : List UInt8)
    (h : me.serialization fGetHash nVersion .serialize ⟨0,[]⟩ = some (me,⟨0,bytes⟩))
    (into : CAccountingEntry) (v : ℤ) (n : BitVec 32) :
    into.serialization fGetHash v .unserialize ⟨n,bytes⟩ = none := by
  let x : Fields := (me.nCreditDebit,me.nTime,me.strOtherAccount,me.packed.strComment)
  have hbytes : bytes = prefixed fGetHash nVersion++fields.write x := by
    rw [serialization_fields, version_written, Option.bind_some] at h
    have hstream := congrArg (fun r => r.map fun y => y.2.bytes) h
    exact (Option.some.inj hstream).symm
  have hcomment : chars.read (chars.write me.packed.strComment++[]) = none :=
    Codec.vector_refused Codec.byte Unserialize.compactSize me.packed.strComment [] fun s => by
      show readCompactSize (writeCompactSize _++s) = none
      rw [read_compact_size _ hlen, if_neg (by omega)]
  have hfields : fields.read (fields.write x++[]) = none := by
    apply Codec.pair_refused hcredit
    apply Codec.pair_refused htime
    exact Codec.pair_refused (CWalletTx.chars_fits hother) hcomment
  rw [List.append_nil] at hfields
  rw [hbytes, serialization_fields, version_read fGetHash v n _ hversion, Option.bind_some]
  show (((fields.read (fields.write x)).map _).bind _ : Option (CAccountingEntry × SerStream)) = none
  rw [hfields]
  rfl

end CAccountingEntry

/-- Wallet transactions and accounting entries are left as they are by writing, their sizes are those
of their bytes, and they are read back from them. -/
theorem records_survive (wtx : CWalletTx) (me : CAccountingEntry) (fGetHash : Bool) (nVersion : ℤ)
    (hfree : wtx.Unreserved) (hplain : me.Plain) :
    (∃ bytes : List UInt8,
      (∀ s, wtx.serialization .serialize s = some (wtx,{ s with bytes := s.bytes++bytes })) ∧
      (∀ s, wtx.serialization .getSerializeSize s =
        some (wtx,{ s with nSerSize := s.nSerSize+BitVec.ofNat 32 bytes.length })) ∧
      (wtx.Flagged → wtx.Fits → ∀ (into : CWalletTx) (n : BitVec 32) (r : List UInt8),
        into.serialization .unserialize ⟨n,bytes++r⟩ = some (wtx,⟨n,r⟩))) ∧
    ∃ bytes : List UInt8,
      (∀ s, me.serialization fGetHash nVersion .serialize s = some (me,{ s with bytes := s.bytes++bytes })) ∧
      (∀ s, me.serialization fGetHash nVersion .getSerializeSize s =
        some (me,{ s with nSerSize := s.nSerSize+BitVec.ofNat 32 bytes.length })) ∧
      (FitsSigned 4 nVersion → me.Fits → ∀ (into : CAccountingEntry) (v : ℤ) (n : BitVec 32) (r : List UInt8),
        into.ssExtra = [] → into.serialization fGetHash v .unserialize ⟨n,bytes++r⟩ =
          some ({ me with strAccount := into.strAccount, nEntryNo := into.nEntryNo },⟨n,r⟩)) :=
  ⟨wtx.survives hfree,me.survives fGetHash nVersion hplain⟩

section Samples

def sampleTx : CTransaction := ⟨1,2,[⟨⟨1,0⟩,[],0⟩],[⟨4*coin,[1]⟩,⟨5*coin,[2]⟩],0⟩

def sampleRecord : CWalletTx :=
  ⟨⟨sampleTx,7,[],-1⟩,[],SortedMap.empty.insert (chs "comment") (chs "rent"),[],0,100,90,1,chs "home",[1,0],3⟩

def sampleEntry : CAccountingEntry :=
  ⟨chs "home",-coin,100,chs "savings",chs "rent",SortedMap.empty.insert (chs "tag") (chs "x"),4,1,[]⟩

/-- A sample of both is written, and read back into fresh records. -/
theorem sample_survives :
    (∃ bytes, sampleRecord.serialization .serialize ⟨0,[]⟩ = some (sampleRecord,⟨0,bytes⟩) ∧
      sampleRecord.init.serialization .unserialize ⟨0,bytes⟩ = some (sampleRecord,⟨0,[]⟩)) ∧
    ∃ bytes, sampleEntry.serialization false 1 .serialize ⟨0,[]⟩ = some (sampleEntry,⟨0,bytes⟩) ∧
      (⟨chs "home",0,0,[],[],SortedMap.empty,-1,1,[]⟩ : CAccountingEntry).serialization false 1 .unserialize
        ⟨0,bytes⟩ = some (sampleEntry,⟨0,[]⟩) := by
  have hfree : sampleRecord.Unreserved := by
    unfold CWalletTx.Unreserved
    decide
  have hplain : sampleEntry.Plain := ⟨by decide,by decide⟩
  obtain ⟨⟨bytes,hwrite,-,hread⟩,bytes',hwrite',-,hread'⟩ :=
    records_survive sampleRecord sampleEntry false 1 hfree hplain
  have hword : ∀ n, n < 256^4 → (Codec.number 4).Fits n := fun _ h => h
  have hhash : ∀ a : Uint256, uint256.Fits a := fun a => a.isLt
  have hcount : ∀ n, n ≤ maxSize → Unserialize.compactSize.Fits n := fun _ h => h
  have hin : txIn.Fits ⟨⟨1,0⟩,[],0⟩ :=
    ⟨⟨hhash 1,hword 0 (by decide)⟩,CWalletTx.chars_fits (by decide),hword 0 (by decide)⟩
  have hout : ∀ o ∈ sampleTx.vout, txOut.Fits o := by
    intro o ho
    rcases List.mem_cons.mp ho with rfl | ho
    · exact ⟨⟨by decide,by decide⟩,CWalletTx.chars_fits (by decide)⟩
    · rw [List.mem_singleton.mp ho]
      exact ⟨⟨by decide,by decide⟩,CWalletTx.chars_fits (by decide)⟩
  have htx : transaction.Fits sampleTx := by
    refine ⟨⟨by decide,by decide⟩,hword 2 (by decide),⟨hcount 1 (by decide),?_⟩,⟨hcount 2 (by decide),hout⟩,
      hword 0 (by decide)⟩
    intro i hi
    rw [List.mem_singleton.mp hi]
    exact hin
  have hfits : sampleRecord.Fits :=
    { merkle := ⟨htx,hhash 7,⟨hcount 0 (by decide),nofun⟩,by decide,by decide⟩
      prev := ⟨hcount 0 (by decide),nofun⟩
      values := by decide
      count := by decide
      orderForm := ⟨hcount 0 (by decide),nofun⟩
      receivedIsTx := by decide
      received := by decide
      smart := by decide
      account := by decide
      spent := by decide
      position := ⟨by decide,by decide⟩ }
  have hflags : sampleRecord.Flagged := by
    intro f hf
    rcases List.mem_pair.mp hf with rfl | rfl
    · exact Or.inr rfl
    · exact Or.inl rfl
  have hentry : sampleEntry.Fits :=
    ⟨⟨by decide,by decide⟩,⟨by decide,by decide⟩,by decide,by decide +kernel,⟨by decide,by decide⟩⟩
  refine ⟨⟨bytes,hwrite ⟨0,[]⟩,?_⟩,bytes',hwrite' ⟨0,[]⟩,?_⟩
  · have hback := hread hflags hfits sampleRecord.init 0 []
    rwa [List.append_nil] at hback
  · have hback := hread' ⟨by decide,by decide⟩ hentry ⟨chs "home",0,0,[],[],SortedMap.empty,-1,1,[]⟩ 1 0 [] rfl
    rwa [List.append_nil] at hback

/-- A comment of more than `MAX_SIZE` chars. -/
def longEntry : CAccountingEntry :=
  ⟨[],0,0,[],List.replicate (maxSize+1) 97,SortedMap.empty,-1,0,[]⟩

theorem long_comment_lost :
    ¬ ∀ (me : CAccountingEntry) (fGetHash : Bool) (nVersion : ℤ), me.Plain → FitsSigned 4 nVersion →
      FitsSigned 8 me.nCreditDebit → FitsSigned 8 me.nTime → FitsSigned 8 me.nOrderPos →
      ∀ (bytes : List UInt8), me.serialization fGetHash nVersion .serialize ⟨0,[]⟩ = some (me,⟨0,bytes⟩) →
        ∃ into v s, into.ssExtra = [] ∧ CAccountingEntry.serialization into fGetHash v .unserialize ⟨0,bytes⟩ =
          some ({ me with strAccount := into.strAccount, nEntryNo := into.nEntryNo },s) := by
  intro h
  have hversion : FitsSigned 4 1 := ⟨by decide,by decide⟩
  have hzero : FitsSigned 8 0 := ⟨by decide,by decide⟩
  have hnone : FitsSigned 8 (-1) := ⟨by decide,by decide⟩
  have hplain : longEntry.Plain := by
    refine ⟨?_,rfl⟩
    intro hmem
    exact absurd (List.eq_of_mem_replicate hmem) (by decide)
  have hlen : longEntry.packed.strComment.length = maxSize+1 := List.length_replicate
  obtain ⟨bytes,hwrite,-,-⟩ := longEntry.survives false 1 hplain
  obtain ⟨into,v,s,-,hread⟩ := h longEntry false 1 hplain hversion hzero hzero hnone bytes
    (hwrite ⟨0,[]⟩)
  rw [longEntry.long_comment false 1 hversion hzero hzero (by decide) (by omega)
    (by rw [hlen]; decide) bytes (hwrite ⟨0,[]⟩) into v 0] at hread
  cases hread

end Samples

end SwippCore.WalletRecords
