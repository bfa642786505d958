import SwippCore.Lib.Base32
import SwippCore.Lib.DecimalText
import Mathlib.Data.List.TakeWhile
import Mathlib.Tactic.IntervalCases

/-!
# The text of a network address

Addresses of the overlay networks print as base 32 under the suffix of their network,
all others as numbers. A text with such a suffix is read back into the bytes of an
address, and a text with a port is split at its last colon.
-/

set_option autoImplicit false

namespace SwippCore.NetBase
open Base32 DecimalText

def pbase32 : List Char := "abcdefghijklmnopqrstuvwxyz234567".toList

def charOf (d : ℕ) : Char := pbase32.getD d 'a'

def nPadding (mode : ℕ) : ℕ := [0,6,4,3,1].getD mode 0

/-- The loop of `EncodeBase32`, with the number of the case and the bits left over. -/
def encodeLoop : ℕ → ℕ → List UInt8 → List Char
  | mode, left, [] =>
    if mode = 0 then [] else charOf left::List.replicate (nPadding mode) '='
  | 0, _, b::bs => -- we have no bits
    let enc := b.toNat
    charOf (enc >>> 3)::encodeLoop 1 ((enc &&& 7) <<< 2) bs
  | 1, left, b::bs => -- we have three bits
    let enc := b.toNat
    charOf (left ||| enc >>> 6)::charOf ((enc >>> 1) &&& 31)::encodeLoop 2 ((enc &&& 1) <<< 4) bs
  | 2, left, b::bs => -- we have one bit
    let enc := b.toNat
    charOf (left ||| enc >>> 4)::encodeLoop 3 ((enc &&& 15) <<< 1) bs
  | 3, left, b::bs => -- we have four bits
    let enc := b.toNat
    charOf (left ||| enc >>> 7)::charOf ((enc >>> 2) &&& 31)::encodeLoop 4 ((enc &&& 3) <<< 3) bs
  | _, left, b::bs => -- we have two bits
    let enc := b.toNat
    charOf (left ||| enc >>> 5)::charOf (enc &&& 31)::encodeLoop 0 left bs

def encodeBase32 (pch : List UInt8) : List Char := encodeLoop 0 0 pch

/-- `decode32_table`, without its entries below zero. -/
def decode32 (c : Char) : Option ℕ :=
  if 'a' ≤ c ∧ c ≤ 'z' then some (c.toNat-97)
  else if 'A' ≤ c ∧ c ≤ 'Z' then some (c.toNat-65)
  else if '2' ≤ c ∧ c ≤ '7' then some (c.toNat-24)
  else none

/-- The loop of `DecodeBase32`: the first character that is no digit stops it. -/
def decodeLoop : ℕ → ℕ → List Char → List UInt8
  | _, _, [] => []
  | mode, left, c::p =>
    match decode32 c with
    | none => []
    | some dec =>
      match mode with
      | 0 => decodeLoop 1 dec p -- we have no bits and get 5
      | 1 => UInt8.ofNat (left <<< 3 ||| dec >>> 2)::decodeLoop 2 (dec &&& 3) p
      | 2 => decodeLoop 3 (left <<< 5 ||| dec) p -- we have 2 bits and keep 7
      | 3 => UInt8.ofNat (left <<< 1 ||| dec >>> 4)::decodeLoop 4 (dec &&& 15) p
      | 4 => UInt8.ofNat (left <<< 4 ||| dec >>> 1)::decodeLoop 5 (dec &&& 1) p
      | 5 => decodeLoop 6 (left <<< 5 ||| dec) p -- we have 1 bit, and keep 6
      | 6 => UInt8.ofNat (left <<< 2 ||| dec >>> 3)::decodeLoop 7 (dec &&& 7) p
      | _ => UInt8.ofNat (left <<< 5 ||| dec)::decodeLoop 0 left p

def decodeBase32 (p : List Char) : List UInt8 := decodeLoop 0 0 p

structure CNetAddr where
  ip : List UInt8
  sized : ip.length = 16

def pchIPv4 : List UInt8 := [0,0,0,0,0,0,0,0,0,0,0xff,0xff]
def pchOnionCat : List UInt8 := [0xFD,0x87,0xD8,0x7E,0xEB,0x43]
def pchGarliCat : List UInt8 := [0xFD,0x60,0xDB,0x4D,0xDD,0xB5]

namespace CNetAddr

def IsIPv4 (a : CNetAddr) : Prop := a.ip.take 12 = pchIPv4
def IsTor (a : CNetAddr) : Prop := a.ip.take 6 = pchOnionCat
def IsI2P (a : CNetAddr) : Prop := a.ip.take 6 = pchGarliCat

instance (a : CNetAddr) : Decidable a.IsIPv4 := inferInstanceAs (Decidable (_ = _))
instance (a : CNetAddr) : Decidable a.IsTor := inferInstanceAs (Decidable (_ = _))
instance (a : CNetAddr) : Decidable a.IsI2P := inferInstanceAs (Decidable (_ = _))

def getByte (a : CNetAddr) (n : ℕ) : UInt8 := a.ip.getD (15-n) 0

end CNetAddr

def endsWith (suffix strName : List Char) : Prop :=
  suffix.length < strName.length ∧ strName.drop (strName.length-suffix.length) = suffix

instance (suffix strName : List Char) : Decidable (endsWith suffix strName) :=
  inferInstanceAs (Decidable (_ ∧ _))

def stem (suffix strName : List Char) : List Char := strName.take (strName.length-suffix.length)

theorem onion_sized {vchAddr : List UInt8} (h : vchAddr.length = 10) :
    (pchOnionCat++vchAddr).length = 16 := by rw [List.length_append, h]; rfl

def special (suffix strName : List Char) : Option CNetAddr :=
  let vchAddr := decodeBase32 (stem suffix strName)
  if h : vchAddr.length = 10 then some ⟨pchOnionCat++vchAddr,onion_sized h⟩ else none

def onion : List Char := ".onion".toList
def garlic : List Char := ".oc.b32.i2p".toList

def setSpecial (strName : List Char) : Option CNetAddr :=
  if endsWith onion strName then special onion strName
  else if endsWith garlic strName then special garlic strName
  else none

/-- `%x` -/
def hex (n : ℕ) : List Char := Nat.toDigits 16 n

/-- The text of the numeric host that the system gives for an address, if it gives one. -/
abbrev NameInfo := CNetAddr → Option (List Char)

/-- `%u.%u.%u.%u` -/
def quad (a : CNetAddr) : List Char :=
  let byte := fun n => digits (a.getByte n).toNat
  byte 3++ '.'::byte 2++ '.'::byte 1++ '.'::byte 0

def toStringIP (getnameinfo : NameInfo) (a : CNetAddr) : List Char :=
  if a.IsTor then encodeBase32 (a.ip.drop 6)++onion
  else if a.IsI2P then encodeBase32 (a.ip.drop 6)++garlic
  else match getnameinfo a with
  | some name => name
  | none =>
    if a.IsIPv4 then quad a
    else
      let byte := fun n => (a.getByte n).toNat
      let word := fun n => hex (byte (2*n+1) <<< 8 ||| byte (2*n))
      word 7++ ':'::word 6++ ':'::word 5++ ':'::word 4++ ':'::word 3++ ':'::word 2++ ':'::word 1++
        ':'::word 0

structure CService where
  addr : CNetAddr
  port : UInt16

def toStringPort (s : CService) : List Char := digits s.port.toNat

def toStringIPPort (getnameinfo : NameInfo) (s : CService) : List Char :=
  if s.addr.IsIPv4 ∨ s.addr.IsTor ∨ s.addr.IsI2P then
    toStringIP getnameinfo s.addr++ ':'::toStringPort s
  else '['::toStringIP getnameinfo s.addr++ ']':: ':'::toStringPort s

def findLastOf (c : Char) : List Char → Option ℕ
  | [] => none
  | x::xs =>
    match findLastOf c xs with
    | some i => some (i+1)
    | none => if x = c then some 0 else none

def isSpace (c : Char) : Bool := c.toNat = 32 ∨ (9 ≤ c.toNat ∧ c.toNat ≤ 13)

def clampLong (n : ℤ) : ℤ := max (-2^63) (min n (2^63-1))

def strtol (p : List Char) : ℤ × List Char :=
  let q := p.dropWhile isSpace
  let r := if q.head? = some '-' ∨ q.head? = some '+' then q.drop 1 else q
  let ds := r.takeWhile Char.isDigit
  let n : ℤ := Nat.ofDigitChars 10 ds 0
  if ds = [] then (0,p)
  else (clampLong (if q.head? = some '-' then -n else n),r.dropWhile Char.isDigit)

/-- The conversion to `int`. -/
def int32 (n : ℤ) : ℤ := (BitVec.ofInt 32 n).toInt

/-- `*endp == 0` -/
def atEnd (endp : List Char) : Prop := endp = [] ∨ endp.head? = some '\x00'

instance (endp : List Char) : Decidable (atEnd endp) := inferInstanceAs (Decidable (_ ∨ _))

def stripBrackets (inp : List Char) : List Char :=
  if inp.head? = some '[' ∧ inp.getLast? = some ']' then (inp.drop 1).take (inp.length-2) else inp

def splitHostPort (inp : List Char) (portOut : ℤ) : ℤ × List Char :=
  match findLastOf ':' inp with
  | none => (portOut,stripBrackets inp)
  | some colon =>
    let fBracketed := inp.head? = some '[' ∧ inp[colon-1]? = some ']'
    -- a colon in front leaves no end for the search, which then takes the whole text
    let fMultiColon := (findLastOf ':' (if colon = 0 then inp else inp.take colon)).isSome
    if colon = 0 ∨ fBracketed ∨ !fMultiColon then
      let r := strtol (inp.drop (colon+1))
      let n := int32 r.1
      if atEnd r.2 ∧ 0 ≤ n then
        (if 0 < n ∧ n < 0x10000 then n else portOut,stripBrackets (inp.take colon))
      else (portOut,stripBrackets inp)
    else (portOut,stripBrackets inp)

def chars (d : Digits) : List Char :=
  [charOf d.d0,charOf d.d1,charOf d.d2,charOf d.d3,charOf d.d4,charOf d.d5,charOf d.d6,charOf d.d7]

def uints (b : Bytes) : List UInt8 :=
  [UInt8.ofNat b.b0,UInt8.ofNat b.b1,UInt8.ofNat b.b2,UInt8.ofNat b.b3,UInt8.ofNat b.b4]

def group (b0 b1 b2 b3 b4 : UInt8) : Bytes := ⟨b0.toNat,b1.toNat,b2.toNat,b3.toNat,b4.toNat⟩

theorem group_bounded (b0 b1 b2 b3 b4 : UInt8) : (group b0 b1 b2 b3 b4).Bounded :=
  ⟨b0.toNat_lt,b1.toNat_lt,b2.toNat_lt,b3.toNat_lt,b4.toNat_lt⟩

theorem uints_group (b0 b1 b2 b3 b4 : UInt8) : uints (group b0 b1 b2 b3 b4) = [b0,b1,b2,b3,b4] := by
  simp [uints, group]

theorem encode_group (left : ℕ) (b0 b1 b2 b3 b4 : UInt8) (bs : List UInt8) : ∃ left',
    encodeLoop 0 left (b0::b1::b2::b3::b4::bs) =
      chars (group b0 b1 b2 b3 b4).toDigits++encodeLoop 0 left' bs := by
  have h1 := b1.toNat_lt
  have h2 := b2.toNat_lt
  have h3 := b3.toNat_lt
  have h4 := b4.toNat_lt
  have hd0 : b0.toNat >>> 3 = b0.toNat/8 := Nat.shiftRight_eq_div_pow _ 3
  have hd1 : (b0.toNat &&& 7) <<< 2 ||| b1.toNat >>> 6 = b0.toNat%8*4+b1.toNat/64 := by
    rw [shift_or _ (by rw [Nat.shiftRight_eq_div_pow]; omega), Nat.shiftRight_eq_div_pow]
    congr 2
    exact mask _ 3
  have hd2 : (b1.toNat >>> 1) &&& 31 = b1.toNat/2%32 := by
    rw [Nat.shiftRight_eq_div_pow]
    exact mask _ 5
  have hd3 : (b1.toNat &&& 1) <<< 4 ||| b2.toNat >>> 4 = b1.toNat%2*16+b2.toNat/16 := by
    rw [shift_or _ (by rw [Nat.shiftRight_eq_div_pow]; omega), Nat.shiftRight_eq_div_pow]
    congr 2
    exact mask _ 1
  have hd4 : (b2.toNat &&& 15) <<< 1 ||| b3.toNat >>> 7 = b2.toNat%16*2+b3.toNat/128 := by
    rw [shift_or _ (by rw [Nat.shiftRight_eq_div_pow]; omega), Nat.shiftRight_eq_div_pow]
    congr 2
    exact mask _ 4
  have hd5 : (b3.toNat >>> 2) &&& 31 = b3.toNat/4%32 := by
    rw [Nat.shiftRight_eq_div_pow]
    exact mask _ 5
  have hd6 : (b3.toNat &&& 3) <<< 3 ||| b4.toNat >>> 5 = b3.toNat%4*8+b4.toNat/32 := by
    rw [shift_or _ (by rw [Nat.shiftRight_eq_div_pow]; omega), Nat.shiftRight_eq_div_pow]
    congr 2
    exact mask _ 2
  have hd7 : b4.toNat &&& 31 = b4.toNat%32 := mask _ 5
  refine ⟨(b3.toNat &&& 3) <<< 3,?_⟩
  simp only [encodeLoop]
  rw [hd0, hd1, hd2, hd3, hd4, hd5, hd6, hd7]
  rfl

def Reads (cs : List Char) (d : Digits) : Prop :=
  cs.map decode32 =
    [some d.d0,some d.d1,some d.d2,some d.d3,some d.d4,some d.d5,some d.d6,some d.d7]

variable {cs : List Char} {d : Digits}

theorem reads_eight (h : Reads cs d) : ∃ c0 c1 c2 c3 c4 c5 c6 c7,
    cs = [c0,c1,c2,c3,c4,c5,c6,c7] ∧ decode32 c0 = some d.d0 ∧ decode32 c1 = some d.d1 ∧
      decode32 c2 = some d.d2 ∧ decode32 c3 = some d.d3 ∧ decode32 c4 = some d.d4 ∧
      decode32 c5 = some d.d5 ∧ decode32 c6 = some d.d6 ∧ decode32 c7 = some d.d7 := by
  simp only [Reads, List.map_eq_cons_iff, List.map_eq_nil_iff] at h
  obtain ⟨c0,_,rfl,e0,c1,_,rfl,e1,c2,_,rfl,e2,c3,_,rfl,e3,c4,_,rfl,e4,c5,_,rfl,e5,c6,_,rfl,e6,
    c7,_,rfl,e7,rfl⟩ := h
  exact ⟨c0,c1,c2,c3,c4,c5,c6,c7,rfl,e0,e1,e2,e3,e4,e5,e6,e7⟩

theorem decode_group (left : ℕ) (hr : Reads cs d) (hb : d.Bounded) (p : List Char) : ∃ left',
      decodeLoop 0 left (cs++p) = uints d.toBytes++decodeLoop 0 left' p := by
  obtain ⟨d0,d1,d2,d3,d4,d5,d6,d7⟩ := d
  simp only [Digits.Bounded] at hb
  obtain ⟨c0,c1,c2,c3,c4,c5,c6,c7,rfl,e0,e1,e2,e3,e4,e5,e6,e7⟩ := reads_eight hr
  have hb0 : d0 <<< 3 ||| d1 >>> 2 = d0*8+d1/4 := by
    have hs : d1 >>> 2 = d1/4 := Nat.shiftRight_eq_div_pow d1 2
    rw [hs]
    exact shift_or d0 (by omega)
  have hb1 : ((d1 &&& 3) <<< 5 ||| d2) <<< 1 ||| d3 >>> 4 = (d1%4*32+d2)*2+d3/16 := by
    rw [shift_or _ (by rw [Nat.shiftRight_eq_div_pow]; omega), Nat.shiftRight_eq_div_pow,
      shift_or _ (by omega)]
    congr 4
    exact mask _ 2
  have hb2 : (d3 &&& 15) <<< 4 ||| d4 >>> 1 = d3%16*16+d4/2 := by
    rw [shift_or _ (by rw [Nat.shiftRight_eq_div_pow]; omega), Nat.shiftRight_eq_div_pow]
    congr 2
    exact mask _ 4
  have hb3 : ((d4 &&& 1) <<< 5 ||| d5) <<< 2 ||| d6 >>> 3 = (d4%2*32+d5)*4+d6/8 := by
    rw [shift_or _ (by rw [Nat.shiftRight_eq_div_pow]; omega), Nat.shiftRight_eq_div_pow,
      shift_or _ (by omega)]
    congr 4
    exact mask _ 1
  have hb4 : (d6 &&& 7) <<< 5 ||| d7 = d6%8*32+d7 := by
    rw [shift_or _ (by omega)]
    congr 2
    exact mask _ 3
  refine ⟨d6 &&& 7,?_⟩
  simp only [List.cons_append, List.nil_append, decodeLoop, e0, e1, e2, e3, e4, e5, e6, e7]
  rw [hb0, hb1, hb2, hb3, hb4]
  rfl

theorem decode_char_of {d : ℕ} (h : d < 32) : decode32 (charOf d) = some d := by
  have hall : ∀ n < 32, decode32 (charOf n) = some n := by decide
  exact hall d h

theorem char_of_decode {c : Char} {d : ℕ} (h : decode32 c = some d) :
    d < 32 ∧ charOf d = c.toLower := by
  have hall : ∀ n < 128, ∀ e, decode32 (Char.ofNat n) = some e →
      e < 32 ∧ charOf e = (Char.ofNat n).toLower := by decide +kernel
  have hc : c.toNat < 128 := by
    simp only [decode32, Char.le_def, UInt32.le_iff_toNat_le] at h
    have hz : 'z'.val.toNat = 122 := rfl
    have hZ : 'Z'.val.toNat = 90 := rfl
    have h7 : '7'.val.toNat = 55 := rfl
    change c.val.toNat < 128
    split at h
    · omega
    · split at h
      · omega
      · split at h
        · omega
        · cases h
  rw [← Char.ofNat_toNat c] at h ⊢
  exact hall c.toNat hc d h

theorem reads_chars (h : d.Bounded) : Reads (chars d) d := by
  simp only [Digits.Bounded] at h
  obtain ⟨h0,h1,h2,h3,h4,h5,h6,h7⟩ := h
  simp only [Reads, chars, List.map_cons, List.map_nil, decode_char_of h0, decode_char_of h1,
    decode_char_of h2, decode_char_of h3, decode_char_of h4, decode_char_of h5,
    decode_char_of h6, decode_char_of h7]

theorem lower_of_reads (h : Reads cs d) : d.Bounded ∧ chars d = cs.map Char.toLower := by
  obtain ⟨d0,d1,d2,d3,d4,d5,d6,d7⟩ := d
  obtain ⟨c0,c1,c2,c3,c4,c5,c6,c7,rfl,e0,e1,e2,e3,e4,e5,e6,e7⟩ := reads_eight h
  obtain ⟨l0,h0⟩ := char_of_decode e0
  obtain ⟨l1,h1⟩ := char_of_decode e1
  obtain ⟨l2,h2⟩ := char_of_decode e2
  obtain ⟨l3,h3⟩ := char_of_decode e3
  obtain ⟨l4,h4⟩ := char_of_decode e4
  obtain ⟨l5,h5⟩ := char_of_decode e5
  obtain ⟨l6,h6⟩ := char_of_decode e6
  obtain ⟨l7,h7⟩ := char_of_decode e7
  refine ⟨⟨l0,l1,l2,l3,l4,l5,l6,l7⟩,?_⟩
  simp only [chars, List.map_cons, List.map_nil, h0, h1, h2, h3, h4, h5, h6, h7]

def valid (c : Char) : Bool := (decode32 c).isSome

theorem decode_length (cs : List Char) (mode left : ℕ) (hm : mode < 8) :
    8*(decodeLoop mode left cs).length ≤ 5*mode%8+5*(cs.takeWhile valid).length := by
  induction cs generalizing mode left with
  | nil => simp [decodeLoop]
  | cons c cs ih =>
    cases hc : decode32 c with
    | none => simp [decodeLoop, hc]
    | some d =>
      have hv : valid c = true := by rw [valid, hc]; rfl
      rw [List.takeWhile_cons_of_pos hv, List.length_cons]
      interval_cases mode <;> simp only [decodeLoop, hc, List.length_cons]
      · have hi := ih 1 d (by omega)
        omega
      · have hi := ih 2 (d &&& 3) (by omega)
        omega
      · have hi := ih 3 (left <<< 5 ||| d) (by omega)
        omega
      · have hi := ih 4 (d &&& 15) (by omega)
        omega
      · have hi := ih 5 (d &&& 1) (by omega)
        omega
      · have hi := ih 6 (left <<< 5 ||| d) (by omega)
        omega
      · have hi := ih 7 (d &&& 7) (by omega)
        omega
      · have hi := ih 0 left (by omega)
        omega

theorem reads_of_valid (cs : List Char) (hl : cs.length = 8) (hv : ∀ c ∈ cs, valid c = true) :
    ∃ d, Reads cs d := by
  match cs, hl with
  | [c0,c1,c2,c3,c4,c5,c6,c7], _ =>
    simp only [List.forall_mem_cons, valid, Option.isSome_iff_exists] at hv
    obtain ⟨⟨d0,h0⟩,⟨d1,h1⟩,⟨d2,h2⟩,⟨d3,h3⟩,⟨d4,h4⟩,⟨d5,h5⟩,⟨d6,h6⟩,⟨d7,h7⟩,_⟩ := hv
    refine ⟨⟨d0,d1,d2,d3,d4,d5,d6,d7⟩,?_⟩
    simp only [Reads, List.map_cons, List.map_nil, h0, h1, h2, h3, h4, h5, h6, h7]

theorem group_uints {b : Bytes} (h : b.Bounded) : group (UInt8.ofNat b.b0) (UInt8.ofNat b.b1)
    (UInt8.ofNat b.b2) (UInt8.ofNat b.b3) (UInt8.ofNat b.b4) = b := by
  obtain ⟨h0,h1,h2,h3,h4⟩ := h
  simp [group, Nat.mod_eq_of_lt h0, Nat.mod_eq_of_lt h1, Nat.mod_eq_of_lt h2,
    Nat.mod_eq_of_lt h3, Nat.mod_eq_of_lt h4]

theorem encode_two {b c : Bytes} (hb : b.Bounded) (hc : c.Bounded) :
    encodeBase32 (uints b++uints c) = chars b.toDigits++chars c.toDigits := by
  obtain ⟨l,hl⟩ := encode_group 0 (UInt8.ofNat b.b0) (UInt8.ofNat b.b1) (UInt8.ofNat b.b2)
    (UInt8.ofNat b.b3) (UInt8.ofNat b.b4) (uints c)
  obtain ⟨m,hm⟩ := encode_group l (UInt8.ofNat c.b0) (UInt8.ofNat c.b1) (UInt8.ofNat c.b2)
    (UInt8.ofNat c.b3) (UInt8.ofNat c.b4) []
  rw [group_uints hb] at hl
  rw [group_uints hc, encodeLoop, if_pos rfl, List.append_nil] at hm
  rw [← hm]
  exact hl

theorem decode_two {ds : List Char} {e : Digits} (hr : Reads cs d) (hs : Reads ds e)
    (hd : d.Bounded) (he : e.Bounded) :
    decodeBase32 (cs++ds) = uints d.toBytes++uints e.toBytes := by
  obtain ⟨l,hl⟩ := decode_group 0 hr hd ds
  obtain ⟨m,hm⟩ := decode_group l hs he []
  rw [List.append_nil, decodeLoop, List.append_nil] at hm
  rw [decodeBase32, hl, hm]

variable {bs : List UInt8}

theorem two_groups (h : bs.length = 10) :
    ∃ b c : Bytes, b.Bounded ∧ c.Bounded ∧ bs = uints b++uints c := by
  match bs, h with
  | [b0,b1,b2,b3,b4,b5,b6,b7,b8,b9], _ =>
    refine ⟨group b0 b1 b2 b3 b4,group b5 b6 b7 b8 b9,group_bounded _ _ _ _ _,
      group_bounded _ _ _ _ _,?_⟩
    rw [uints_group, uints_group]
    rfl

theorem encode_length (h : bs.length = 10) : (encodeBase32 bs).length = 16 := by
  obtain ⟨b,c,hb,hc,rfl⟩ := two_groups h
  rw [encode_two hb hc]
  rfl

theorem decode_encode (bs : List UInt8) (h : bs.length = 10) :
    decodeBase32 (encodeBase32 bs) = bs := by
  obtain ⟨b,c,hb,hc,rfl⟩ := two_groups h
  have hdb := digits_bounded hb
  have hdc := digits_bounded hc
  rw [encode_two hb hc, decode_two (reads_chars hdb) (reads_chars hdc) hdb hdc,
    bytes_of_digits hb, bytes_of_digits hc]

/-- Sixteen characters that are read as ten bytes are the text of these in some case. -/
theorem encode_decode (cs : List Char) (h : cs.length = 16)
    (hd : (decodeBase32 cs).length = 10) :
    encodeBase32 (decodeBase32 cs) = cs.map Char.toLower := by
  have hvalid : ∀ c ∈ cs, valid c = true := by
    have hlen := decode_length cs 0 0 (by omega)
    rw [← decodeBase32, hd] at hlen
    have hpre : cs.takeWhile valid = cs := by
      apply (List.takeWhile_prefix valid).eq_of_length
      have hle := (List.takeWhile_prefix (l := cs) valid).length_le
      omega
    intro c hc
    exact List.takeWhile_eq_self_iff.mp hpre c hc
  obtain ⟨d,hr⟩ := reads_of_valid (cs.take 8) (by simp [h])
    (fun c hc => hvalid c (List.mem_of_mem_take hc))
  obtain ⟨e,hs⟩ := reads_of_valid (cs.drop 8) (by simp [h])
    (fun c hc => hvalid c (List.mem_of_mem_drop hc))
  obtain ⟨hbd,hcd⟩ := lower_of_reads hr
  obtain ⟨hbe,hce⟩ := lower_of_reads hs
  have hdec := decode_two hr hs hbd hbe
  rw [List.take_append_drop] at hdec
  rw [hdec, encode_two (bytes_bounded hbd) (bytes_bounded hbe), digits_of_bytes hbd,
    digits_of_bytes hbe, hcd, hce, ← List.map_append, List.take_append_drop]

def Named (getnameinfo : NameInfo) (strName : List Char) (a : CNetAddr) : Prop :=
  strName.map Char.toLower = (toStringIP getnameinfo a).map Char.toLower

def Exact (strName : List Char) : Prop := ∃ s, strName = s++onion ∧ s.length = 16

theorem stem_append (suffix s : List Char) : stem suffix (s++suffix) = s := by
  rw [stem, List.length_append, Nat.add_sub_cancel]
  exact List.take_left

theorem ends_append (suffix s : List Char) (h : s ≠ []) : endsWith suffix (s++suffix) := by
  have hp := List.length_pos_iff.mpr h
  rw [endsWith, List.length_append, Nat.add_sub_cancel]
  exact ⟨by omega,List.drop_left⟩

variable {strName suffix : List Char}

theorem append_of_ends (h : endsWith suffix strName) : strName = stem suffix strName++suffix := by
  have hd := List.take_append_drop (strName.length-suffix.length) strName
  rw [h.2] at hd
  exact hd.symm

variable {a : CNetAddr}

theorem special_some (h : special suffix strName = some a) :
    (decodeBase32 (stem suffix strName)).length = 10 ∧
      a.ip = pchOnionCat++decodeBase32 (stem suffix strName) := by
  simp only [special] at h
  split at h
  · rename_i hl
    rw [← Option.some.inj h]
    exact ⟨hl,rfl⟩
  · cases h

variable (getnameinfo : NameInfo)

theorem special_printed (h : special suffix strName = some a) :
    toStringIP getnameinfo a = encodeBase32 (decodeBase32 (stem suffix strName))++onion := by
  obtain ⟨_,ha⟩ := special_some h
  have htor : a.IsTor := by
    rw [CNetAddr.IsTor, ha]
    rfl
  rw [toStringIP, if_pos htor, ha]
  rfl

theorem address_ext (a b : CNetAddr) (h : a.ip = b.ip) : a = b := by
  cases a
  cases b
  cases h
  rfl

theorem tor_back (a : CNetAddr) (h : a.IsTor) : setSpecial (toStringIP getnameinfo a) = some a := by
  have hl : (a.ip.drop 6).length = 10 := by rw [List.length_drop, a.sized]
  have hne : encodeBase32 (a.ip.drop 6) ≠ [] := by
    intro hnil
    have he := encode_length hl
    rw [hnil] at he
    cases he
  rw [toStringIP, if_pos h, setSpecial, if_pos (ends_append onion _ hne), special, stem_append]
  have hdec := decode_encode _ hl
  rw [dif_pos (by rw [hdec, hl])]
  apply congrArg some
  apply address_ext
  change pchOnionCat++decodeBase32 (encodeBase32 (a.ip.drop 6)) = a.ip
  rw [hdec, ← h]
  exact List.take_append_drop 6 a.ip

theorem set_special_tor (a : CNetAddr) (h : setSpecial strName = some a) : a.IsTor := by
  have hspecial : ∃ suffix, special suffix strName = some a := by
    rw [setSpecial] at h
    split at h
    · exact ⟨_,h⟩
    · split at h
      · exact ⟨_,h⟩
      · cases h
  obtain ⟨suffix,hs⟩ := hspecial
  rw [CNetAddr.IsTor, (special_some hs).2]
  rfl

theorem back_iff (a : CNetAddr) : setSpecial (toStringIP getnameinfo a) = some a ↔ a.IsTor :=
  ⟨set_special_tor a,tor_back getnameinfo a⟩

theorem lower_lower (c : Char) : c.toLower.toLower = c.toLower := by
  by_cases hc : c.toNat < 128
  · have hall : ∀ n < 128, (Char.ofNat n).toLower.toLower = (Char.ofNat n).toLower := by
      decide +kernel
    have hn := hall c.toNat hc
    rw [Char.ofNat_toNat] at hn
    exact hn
  · have hsame : c.toLower = c := by
      apply dif_neg
      rintro ⟨_,hle⟩
      rw [UInt32.le_iff_toNat_le] at hle
      have hZ : 'Z'.val.toNat = 90 := rfl
      exact hc (show c.val.toNat < 128 by omega)
    rw [hsame, hsame]

theorem last_append (s suffix : List Char) (h : suffix ≠ []) :
    ((s++suffix).map Char.toLower).getLast? = (suffix.map Char.toLower).getLast? := by
  rw [List.map_append, List.getLast?_append_of_ne_nil]
  intro hnil
  exact h (List.map_eq_nil_iff.mp hnil)

theorem named_iff (strName : List Char) (a : CNetAddr) (h : setSpecial strName = some a) :
    Named getnameinfo strName a ↔ Exact strName := by
  rw [setSpecial] at h
  split at h
  · rename_i he
    have hprint := special_printed getnameinfo h
    obtain ⟨hten,_⟩ := special_some h
    have hname := append_of_ends he
    have hexact : Exact strName ↔ (stem onion strName).length = 16 := by
      constructor
      · rintro ⟨s,hs,hl⟩
        rw [hs, stem_append, hl]
      · intro hl
        exact ⟨_,hname,hl⟩
    rw [hexact, Named, hprint]
    constructor
    · intro hn
      have hl := congrArg List.length hn
      rw [List.length_map, List.length_map, List.length_append, encode_length hten] at hl
      have hs := congrArg List.length hname
      rw [List.length_append] at hs
      omega
    · intro hl
      rw [encode_decode _ hl hten]
      conv_lhs => rw [hname]
      rw [List.map_append, List.map_append, List.map_map]
      congr 1
      apply List.map_congr_left
      intro c _
      exact (lower_lower c).symm
  · split at h
    · rename_i _ he
      have hprint := special_printed getnameinfo h
      have hname := append_of_ends he
      constructor
      · intro hn
        rw [Named, hprint, hname] at hn
        have hlast := congrArg List.getLast? hn
        rw [last_append _ _ (by decide), last_append _ _ (by decide)] at hlast
        exact absurd hlast (by decide)
      · rintro ⟨s,hs,_⟩
        rw [hname] at hs
        have hlast := congrArg (fun l => (l.map Char.toLower).getLast?) hs
        rw [last_append _ _ (by decide), last_append _ _ (by decide)] at hlast
        exact absurd hlast (by decide)
    · cases h

theorem find_none (c : Char) (xs : List Char) (h : c ∉ xs) : findLastOf c xs = none := by
  induction xs with
  | nil => rfl
  | cons x xs ih =>
    rw [List.mem_cons, not_or] at h
    rw [findLastOf, ih h.2]
    exact if_neg (Ne.symm h.1)

theorem find_last (c : Char) (xs ys : List Char) (h : c ∉ ys) :
    findLastOf c (xs++c::ys) = some xs.length := by
  induction xs with
  | nil =>
    rw [List.nil_append, findLastOf, find_none c ys h]
    exact if_pos rfl
  | cons x xs ih =>
    rw [List.cons_append, findLastOf, ih]
    rfl

theorem strtol_digits {n : ℕ} (h : (n : ℤ) < 2^63) : strtol (digits n) = ((n : ℤ),[]) := by
  have hall := digits_digit n
  obtain ⟨c,cs,hcs⟩ := List.exists_cons_of_ne_nil (digits_ne_nil n)
  have hc : c.isDigit = true := hall c (by rw [hcs]; exact List.mem_cons_self)
  have hspace : isSpace c = false := by
    simp only [Char.isDigit, Bool.and_eq_true, decide_eq_true_eq, ge_iff_le,
      UInt32.le_iff_toNat_le] at hc
    have h0 : '0'.val.toNat = 48 := rfl
    simp only [isSpace, decide_eq_false_iff_not]
    change ¬(c.val.toNat = 32 ∨ (9 ≤ c.val.toNat ∧ c.val.toNat ≤ 13))
    omega
  have hdrop : (digits n).dropWhile isSpace = digits n := by
    rw [hcs, List.dropWhile_cons_of_neg (by rw [hspace]; exact Bool.false_ne_true)]
  have hsign : ¬((digits n).head? = some '-' ∨ (digits n).head? = some '+') := by
    rw [hcs, List.head?_cons]
    rintro (he | he)
    · rw [Option.some.inj he] at hc
      exact absurd hc (by decide)
    · rw [Option.some.inj he] at hc
      exact absurd hc (by decide)
  have htake : (digits n).takeWhile Char.isDigit = digits n := List.takeWhile_eq_self_iff.mpr hall
  have hrest : (digits n).dropWhile Char.isDigit = [] := by
    rw [List.dropWhile_eq_nil_iff]
    exact hall
  have hvalue : Nat.ofDigitChars 10 (digits n) 0 = n := Nat.ofDigitChars_ten_toDigits
  simp only [strtol]
  rw [hdrop, if_neg hsign, htake, if_neg (digits_ne_nil n), hvalue, hrest,
    if_neg (fun he => hsign (Or.inl he)), clampLong]
  congr 1
  omega

theorem int32_small {n : ℤ} (h : 0 ≤ n ∧ n < 0x10000) : int32 n = n := by
  rw [int32, BitVec.toInt_ofInt, Int.bmod_eq_of_le_mul_two] <;> omega

theorem split_port {host : List Char} {port : ℕ} (portOut : ℤ) (hp : 0 < port ∧ port < 0x10000)
    (hh : (host.head? = some '[' ∧ host.getLast? = some ']' ∧ host ≠ []) ∨ ':' ∉ host) :
    splitHostPort (host++ ':'::digits port) portOut = ((port : ℤ),stripBrackets host) := by
  have hcolon : ':' ∉ digits port := fun hc => absurd (digits_digit port ':' hc) (by decide)
  have hrest : (host++ ':'::digits port).drop (host.length+1) = digits port := by
    rw [List.drop_append, List.drop_eq_nil_of_le (by omega)]
    simp
  rw [splitHostPort, find_last ':' host _ hcolon]
  dsimp only
  rw [List.take_left, hrest, strtol_digits (by omega), int32_small (by omega)]
  rw [if_pos, if_pos ⟨Or.inl rfl,by omega⟩, if_pos (by omega)]
  rcases hh with ⟨hhead,hlast,hne⟩ | hno
  · refine Or.inr (Or.inl ⟨?_,?_⟩)
    · rw [List.head?_append, hhead]
      rfl
    · have hpos := List.length_pos_iff.mpr hne
      rw [List.getElem?_append_left (by omega), ← hlast, List.getLast?_eq_getElem?]
  · by_cases hz : host.length = 0
    · exact Or.inl hz
    · refine Or.inr (Or.inr ?_)
      rw [if_neg hz, find_none ':' host hno]
      rfl

theorem strip_brackets (text : List Char) : stripBrackets ('['::text++[']']) = text := by
  have hlast : ('['::text++[']']).getLast? = some ']' := List.getLast?_append_of_ne_nil _ (by simp)
  rw [stripBrackets, if_pos ⟨rfl,hlast⟩]
  simp

theorem strip_plain {text : List Char} (h : text.head? ≠ some '[') : stripBrackets text = text :=
  if_neg fun hs => h hs.1

def Plain (host : List Char) : Prop := ':' ∉ host ∧ host.head? ≠ some '['

def Numeric (getnameinfo : NameInfo) : Prop :=
  ∀ a name, a.IsIPv4 → getnameinfo a = some name → ∀ c ∈ name, c.isDigit = true ∨ c = '.'

theorem plain_of_all (P : Char → Prop) {host : List Char} (h : ∀ c ∈ host, P c) (hc : ¬P ':')
    (hb : ¬P '[') : Plain host := by
  refine ⟨fun hm => hc (h _ hm),fun hh => hb (h _ ?_)⟩
  exact List.mem_of_mem_head? (by rw [hh]; rfl)

theorem char_of_mem (d : ℕ) : charOf d ∈ pbase32 := by
  by_cases hd : d < 32
  · have hall : ∀ n < 32, charOf n ∈ pbase32 := by decide
    exact hall d hd
  · have hlen : pbase32.length = 32 := by decide
    rw [charOf, List.getD_eq_getElem?_getD, List.getElem?_eq_none (by omega)]
    decide

theorem overlay_plain (h : bs.length = 10) (hs : ∀ c ∈ suffix, c ∈ '.'::pbase32) :
    Plain (encodeBase32 bs++suffix) := by
  apply plain_of_all (· ∈ '.'::pbase32) _ (by decide) (by decide)
  intro c hc
  rcases List.mem_append.mp hc with hc | hc
  · obtain ⟨b,e,hb,he,rfl⟩ := two_groups h
    rw [encode_two hb he] at hc
    apply List.mem_cons_of_mem
    simp only [chars, List.cons_append, List.nil_append, List.mem_cons, List.not_mem_nil,
      or_false] at hc
    rcases hc with rfl | rfl | rfl | rfl | rfl | rfl | rfl | rfl | rfl | rfl | rfl | rfl | rfl |
      rfl | rfl | rfl <;> exact char_of_mem _
  · exact hs c hc

theorem quad_numeric (a : CNetAddr) : ∀ c ∈ quad a, c.isDigit = true ∨ c = '.' := by
  intro c hc
  simp only [quad, List.mem_append, List.mem_cons, or_assoc] at hc
  rcases hc with hc | rfl | hc | rfl | hc | rfl | hc
  · exact Or.inl (digits_digit _ c hc)
  · exact Or.inr rfl
  · exact Or.inl (digits_digit _ c hc)
  · exact Or.inr rfl
  · exact Or.inl (digits_digit _ c hc)
  · exact Or.inr rfl
  · exact Or.inl (digits_digit _ c hc)

theorem suffix_letters (h : suffix.all (('.'::pbase32).elem ·) = true) (c : Char) (hc : c ∈ suffix) :
    c ∈ '.'::pbase32 := List.elem_iff.mp (List.all_eq_true.mp h c hc)

theorem host_plain {getnameinfo : NameInfo} (hn : Numeric getnameinfo)
    (h : a.IsIPv4 ∨ a.IsTor ∨ a.IsI2P) : Plain (toStringIP getnameinfo a) := by
  have hl : (a.ip.drop 6).length = 10 := by rw [List.length_drop, a.sized]
  rw [toStringIP]
  split
  · exact overlay_plain hl (suffix_letters (by decide))
  · split
    · exact overlay_plain hl (suffix_letters (by decide))
    · rename_i htor hi2p
      have hv4 := h.resolve_right fun ho => ho.elim htor hi2p
      apply plain_of_all (fun c => c.isDigit = true ∨ c = '.') _ (by decide) (by decide)
      cases hname : getnameinfo a with
      | some name => exact hn a name hv4 hname
      | none =>
        dsimp only
        rw [if_pos hv4]
        exact quad_numeric a

theorem split_service {getnameinfo : NameInfo} (hn : Numeric getnameinfo) (s : CService)
    (portOut : ℤ) (hport : s.port ≠ 0) :
    splitHostPort (toStringIPPort getnameinfo s) portOut =
      ((s.port.toNat : ℤ),toStringIP getnameinfo s.addr) := by
  have hp : 0 < s.port.toNat ∧ s.port.toNat < 0x10000 := by
    refine ⟨Nat.pos_of_ne_zero fun hz => hport ?_,s.port.toNat_lt⟩
    exact UInt16.toNat_inj.mp hz
  rw [toStringIPPort, toStringPort]
  split
  · rename_i h
    obtain ⟨hcolon,hhead⟩ := host_plain hn h
    rw [split_port portOut hp (Or.inr hcolon), strip_plain hhead]
  · have htext : '['::toStringIP getnameinfo s.addr++ ']':: ':'::digits s.port.toNat =
        ('['::toStringIP getnameinfo s.addr++[']'])++ ':'::digits s.port.toNat := by simp
    have hlast : ('['::toStringIP getnameinfo s.addr++[']']).getLast? = some ']' :=
      List.getLast?_append_of_ne_nil _ (by simp)
    rw [htext, split_port portOut hp (Or.inl ⟨rfl,hlast,by simp⟩), strip_brackets]

structure ReadsBack (getnameinfo : NameInfo) : Prop where
  back : ∀ a : CNetAddr, a.IsTor ∨ a.IsI2P → setSpecial (toStringIP getnameinfo a) = some a
  named : ∀ strName a, setSpecial strName = some a → Named getnameinfo strName a
  port : ∀ s portOut, s.port ≠ 0 → splitHostPort (toStringIPPort getnameinfo s) portOut =
    ((s.port.toNat : ℤ),toStringIP getnameinfo s.addr)

/-- Addresses of the first network are read back, names of sixteen characters stand for their
address, and every port is. -/
theorem reads_back_iff (getnameinfo : NameInfo) (hn : Numeric getnameinfo) :
    (∀ a : CNetAddr, a.IsTor ∨ a.IsI2P →
      (setSpecial (toStringIP getnameinfo a) = some a ↔ a.IsTor)) ∧
    (∀ strName a, setSpecial strName = some a → (Named getnameinfo strName a ↔ Exact strName)) ∧
    ∀ s portOut, s.port ≠ 0 → splitHostPort (toStringIPPort getnameinfo s) portOut =
      ((s.port.toNat : ℤ),toStringIP getnameinfo s.addr) :=
  ⟨fun a _ => back_iff getnameinfo a,named_iff getnameinfo,split_service hn⟩

def dotted : NameInfo := fun a => if a.IsIPv4 then some (quad a) else none

theorem dotted_numeric : Numeric dotted := by
  intro a name hv4 hname
  rw [dotted, if_pos hv4] at hname
  rw [← Option.some.inj hname]
  exact quad_numeric a

theorem local_sized : (pchIPv4++[127,0,0,1]).length = 16 := rfl

theorem local_service_back :
    splitHostPort (toStringIPPort dotted ⟨⟨pchIPv4++[127,0,0,1],local_sized⟩,24055⟩) 0 =
      (24055,toStringIP dotted ⟨pchIPv4++[127,0,0,1],local_sized⟩) :=
  (reads_back_iff dotted dotted_numeric).2.2 ⟨⟨pchIPv4++[127,0,0,1],local_sized⟩,24055⟩ 0 (by decide)

theorem garlic_sized : (pchGarliCat++List.replicate 10 0).length = 16 := rfl

/-- An address of the second network is read back as one of the first. -/
theorem garlic_read_as_onion : ¬∀ getnameinfo, Numeric getnameinfo → ReadsBack getnameinfo := by
  intro h
  have hb := (h dotted dotted_numeric).back ⟨pchGarliCat++List.replicate 10 0,garlic_sized⟩
    (Or.inr rfl)
  exact absurd (set_special_tor _ hb) (by decide)

end SwippCore.NetBase
