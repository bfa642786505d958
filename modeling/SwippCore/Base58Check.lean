import SwippCore.Base58
import SwippCore.ScriptDestination

/-!
# Checked base 58 and addresses

Four bytes of a hash go behind the bytes of a checked text. An address is such a text of the
prefix of its network and kind and of the twenty bytes of an id.
-/

set_option autoImplicit false

namespace SwippCore.Base58Check
open SignMagnitude NetBase Base58 PrefixCode Readers Masternode ScriptDestination

section Checked

variable (Hash : List UInt8 → Uint256)

def checksum (vch : List UInt8) : List UInt8 := (word 32 (Hash vch).toNat).take 4

def encodeBase58WithChecksum (vchIn : List UInt8) : List Char :=
  encodeBase58 (vchIn++checksum Hash vchIn)

/-- The bytes, or nothing where the result is false and `vchRet` is empty. -/
def decodeBase58WithChecksum (str : List Char) : Option (List UInt8) :=
  match decodeBase58 str with
  | none => none
  | some vchRet =>
    if vchRet.length < 4 then none
    else
      let vchIn := vchRet.take (vchRet.length-4)
      if checksum Hash vchIn ≠ vchRet.drop (vchRet.length-4) then none else some vchIn

structure CBase58Data where
  vchVersion : List UInt8
  vchData : List UInt8

/-- `CBase58Data::SetString`, with what it returns. -/
def setString (str : List Char) (nVersionBytes : ℕ) : CBase58Data × Bool :=
  let vchTemp := (decodeBase58WithChecksum Hash str).getD []
  if vchTemp.length < nVersionBytes then (⟨[],[]⟩,false)
  else (⟨vchTemp.take nVersionBytes,vchTemp.drop nVersionBytes⟩,true)

def toString (a : CBase58Data) : List Char :=
  encodeBase58WithChecksum Hash (a.vchVersion++a.vchData)

inductive Network where
  | main
  | testNet
deriving DecidableEq

inductive Base58Type where
  | pubkeyAddress
  | scriptAddress
deriving DecidableEq

/-- `Params().Base58Prefix` -/
def base58Prefix : Network → Base58Type → List UInt8
  | .main, .pubkeyAddress => [63]
  | .main, .scriptAddress => [5]
  | .testNet, .pubkeyAddress => [77]
  | .testNet, .scriptAddress => [192]

variable (net : Network)

/-- `CBitcoinAddress::Set` on an address without data. -/
def set : CTxDestination → CBase58Data
  | .none => ⟨[],[]⟩
  | .keyID id => ⟨base58Prefix net .pubkeyAddress,keyBytes id⟩
  | .scriptID id => ⟨base58Prefix net .scriptAddress,keyBytes id⟩

def isValid (a : CBase58Data) : Bool :=
  decide (a.vchData.length = 20) && (decide (a.vchVersion = base58Prefix net .pubkeyAddress) ||
    decide (a.vchVersion = base58Prefix net .scriptAddress))

def get (a : CBase58Data) : CTxDestination :=
  if isValid net a = false then .none
  else
    let id : Uint160 := BitVec.ofNat 160 (value a.vchData)
    if a.vchVersion = base58Prefix net .pubkeyAddress then .keyID id
    else if a.vchVersion = base58Prefix net .scriptAddress then .scriptID id
    else .none

/-- `CBitcoinAddress(str).Get()` -/
def parse (str : List Char) : CTxDestination := get net (setString Hash str 1).1

variable {Hash}

theorem checksum_length (v : List UInt8) : (checksum Hash v).length = 4 := by
  rw [checksum, List.length_take, word_length]
  rfl

theorem check_iff (str : List Char) (v : List UInt8) : decodeBase58WithChecksum Hash str = some v ↔
    trim (cStr str) = encodeBase58WithChecksum Hash v := by
  rw [encodeBase58WithChecksum, ← decode_iff, decodeBase58WithChecksum]
  constructor
  · intro h
    cases hraw : decodeBase58 str with
    | none =>
      rw [hraw] at h
      cases h
    | some vch =>
      rw [hraw] at h
      dsimp only at h
      split at h
      · cases h
      · split at h
        · cases h
        · next hsum =>
          rw [← Option.some.inj h, not_not.mp hsum, List.take_append_drop]
  · intro h
    have hsum : (checksum Hash v).length = 4 := checksum_length v
    have hlen : (v++checksum Hash v).length-4 = v.length := by
      rw [List.length_append, hsum]
      omega
    rw [h]
    dsimp only
    rw [hlen, List.take_left, List.drop_left, if_neg (by rw [List.length_append, hsum]; omega),
      if_neg (not_not.mpr rfl)]

theorem trim_encoded (v : List UInt8) : trim (cStr (encodeBase58 v)) = encodeBase58 v :=
  (decode_iff _ v).mp (Base58.decode_encode v)

theorem check_encode (v : List UInt8) :
    decodeBase58WithChecksum Hash (encodeBase58WithChecksum Hash v) = some v := by
  rw [check_iff]
  exact trim_encoded _

variable {net}

theorem key_bytes_of_value {bs : List UInt8} (h : bs.length = 20) :
    keyBytes (BitVec.ofNat 160 (value bs)) = bs := by
  have hlt := value_lt bs
  have hpow : (256 : ℕ)^20 = 2^160 := by norm_num
  rw [h, hpow] at hlt
  have hvalue : value (keyBytes (BitVec.ofNat 160 (value bs))) = value bs := by
    rw [key_bytes_value, BitVec.toNat_ofNat, Nat.mod_eq_of_lt hlt]
  have hword := word_value (keyBytes (BitVec.ofNat 160 (value bs)))
  rw [hvalue, key_bytes_length, ← h, word_value] at hword
  exact hword.symm

theorem id_of_key_bytes (id : Uint160) : BitVec.ofNat 160 (value (keyBytes id)) = id := by
  rw [key_bytes_value, BitVec.ofNat_toNat, BitVec.setWidth_eq]

theorem prefix_length (t : Base58Type) : (base58Prefix net t).length = 1 := by
  cases net <;> cases t <;> rfl

theorem prefix_inj {t u : Base58Type} (h : base58Prefix net t = base58Prefix net u) : t = u := by
  cases net <;> cases t <;> cases u <;> first | rfl | exact absurd h (by decide)

theorem get_set {d : CTxDestination} (hd : d ≠ .none) : get net (set net d) = d := by
  have hscript : base58Prefix net .scriptAddress ≠ base58Prefix net .pubkeyAddress := fun h =>
    absurd (prefix_inj h) (by decide)
  cases d with
  | none => exact absurd rfl hd
  | keyID id => simp [get, set, isValid, key_bytes_length, id_of_key_bytes]
  | scriptID id => simp [get, set, isValid, key_bytes_length, id_of_key_bytes, hscript]

theorem set_get {a : CBase58Data} {d : CTxDestination} (h : get net a = d) (hd : d ≠ .none) :
    set net d = a := by
  obtain ⟨version,data⟩ := a
  unfold get at h
  split at h
  · exact absurd h.symm hd
  · next hvalid =>
    have hlen : data.length = 20 := by
      by_contra hne
      exact hvalid (by simp [isValid, hne])
    dsimp only at h
    split at h
    · next hversion => rw [← h, set, key_bytes_of_value hlen, ← hversion]
    · split at h
      · next hversion => rw [← h, set, key_bytes_of_value hlen, ← hversion]
      · exact absurd h.symm hd

theorem set_version {d : CTxDestination} (hd : d ≠ .none) : (set net d).vchVersion.length = 1 := by
  cases d with
  | none => exact absurd rfl hd
  | keyID id => exact prefix_length .pubkeyAddress
  | scriptID id => exact prefix_length .scriptAddress

theorem set_string_some {str : List Char} {v : List UInt8} {n : ℕ}
    (h : decodeBase58WithChecksum Hash str = some v) (hn : n ≤ v.length) :
    setString Hash str n = (⟨v.take n,v.drop n⟩,true) := by
  rw [setString, h]
  exact if_neg (Nat.not_lt.mpr hn)

/-- A string is parsed as a destination exactly where it is the address of it, white space apart
and up to its first zero byte. -/
theorem parse_iff (str : List Char) {d : CTxDestination} (hd : d ≠ .none) :
    parse Hash net str = d ↔ trim (cStr str) = toString Hash (set net d) := by
  have hversion : (set net d).vchVersion.length = 1 := set_version hd
  rw [toString, ← check_iff]
  constructor
  · intro h
    have hset := set_get h hd
    cases hraw : decodeBase58WithChecksum Hash str with
    | none =>
      rw [hset, setString, hraw] at hversion
      simp at hversion
    | some v =>
      rw [setString, hraw] at hset
      dsimp only [Option.getD_some] at hset
      split at hset
      · rw [hset] at hversion
        simp at hversion
      · rw [hset, List.take_append_drop]
  · intro h
    have hlen : 1 ≤ ((set net d).vchVersion++(set net d).vchData).length := by
      rw [List.length_append, hversion]
      omega
    rw [parse, set_string_some h hlen, ← hversion, List.take_left, List.drop_left]
    exact get_set hd

end Checked

section Exactness

def Digits (str : List Char) : Prop := ∀ c ∈ trim str, (digitOf c).isSome = true

theorem chars_of_digits {cs : List Char} (h : ∀ c ∈ cs, (digitOf c).isSome = true) :
    ∃ ds : List ℕ, (∀ d ∈ ds, d < 58) ∧ cs = ds.map Base58.charOf := by
  induction cs with
  | nil => exact ⟨[],by simp,rfl⟩
  | cons c cs ih =>
    obtain ⟨hc,hcs⟩ := List.forall_mem_cons.mp h
    obtain ⟨ds,hds,hmap⟩ := ih hcs
    obtain ⟨d,hd⟩ := Option.isSome_iff_exists.mp hc
    obtain ⟨hlt,hchar⟩ := char_of_digit hd
    exact ⟨d::ds,List.forall_mem_cons.mpr ⟨hlt,hds⟩,by rw [List.map_cons, hchar, hmap]⟩

theorem decoded_digits (str : List Char) : Digits (cStr str) ↔ ∃ v, decodeBase58 str = some v := by
  constructor
  · intro h
    obtain ⟨ws,hws,hpsz⟩ := trim_split (cStr str)
    obtain ⟨ds,hlt,hds⟩ := chars_of_digits h
    rw [hds] at hpsz
    exact ⟨_,decode_parts hlt hws hpsz⟩
  · rintro ⟨v,h⟩ c hc
    rw [(decode_iff str v).mp h, encode_parts] at hc
    obtain ⟨d,hd,rfl⟩ := List.mem_map.mp hc
    rw [digit_of_char (LeadingZeros.digits_lt (by decide) _ d hd)]
    rfl

variable (Hash : List UInt8 → Uint256)

structure Exact (str : List Char) : Prop where
  plain : ∀ v, decodeBase58 str = some v → encodeBase58 v = trim str
  checked : ∀ v, decodeBase58WithChecksum Hash str = some v →
    encodeBase58WithChecksum Hash v = trim str
  address : ∀ net d, d ≠ .none → parse Hash net str = d → (∀ c ∈ str, isSpace c = false) →
    str = toString Hash (set net d)

variable {Hash}

section
variable {str : List Char}

theorem trim_whole (h : ∀ c ∈ str, isSpace c = false) : trim str = str :=
  trim_plain str [] h (by simp) (by rw [List.append_nil, drop_while_plain _ _ h])

theorem checked_plain {v : List UInt8}
    (h : decodeBase58WithChecksum Hash str = some v) : ∃ u, decodeBase58 str = some u := by
  cases hraw : decodeBase58 str with
  | none =>
    rw [decodeBase58WithChecksum, hraw] at h
    cases h
  | some u => exact ⟨u,rfl⟩

theorem exact_of_whole (h : '\x00' ∉ str) : Exact Hash str := by
  have hwhole := c_str_plain h
  constructor
  · intro v hv
    rw [← (decode_iff str v).mp hv, hwhole]
  · intro v hv
    rw [← (check_iff str v).mp hv, hwhole]
  · intro net d hd hparse hplain
    rw [← (parse_iff str hd).mp hparse, hwhole, trim_whole hplain]

theorem exact_of_refused (h : ¬Digits (cStr str)) : Exact Hash str := by
  rw [decoded_digits] at h
  constructor
  · intro v hv
    exact absurd ⟨v,hv⟩ h
  · intro v hv
    exact absurd (checked_plain hv) h
  · intro net d hd hparse _
    have hcheck := (check_iff str _).mpr ((parse_iff str hd).mp hparse)
    exact absurd (checked_plain hcheck) h

end

theorem read_exact_iff (str : List Char) : Exact Hash str ↔ '\x00' ∉ str ∨ ¬Digits (cStr str) := by
  constructor
  · intro h
    by_contra hboth
    rw [not_or, not_not, not_not] at hboth
    obtain ⟨hzero,hdigits⟩ := hboth
    obtain ⟨v,hv⟩ := (decoded_digits str).mp hdigits
    have hmem := mem_trim hzero (by decide)
    rw [← h.plain v hv] at hmem
    exact (encode_plain hmem).2 rfl
  · rintro (h | h)
    · exact exact_of_whole h
    · exact exact_of_refused h

variable (Hash)

/-- What is written in base 58, with a checksum or as an address is read back, and a string is
read as nothing else than what it is the text of, but where a zero byte ends it early. -/
theorem base58_exact_iff :
    (∀ v, decodeBase58 (encodeBase58 v) = some v) ∧
    (∀ v, decodeBase58WithChecksum Hash (encodeBase58WithChecksum Hash v) = some v) ∧
    (∀ net d, d ≠ .none → parse Hash net (toString Hash (set net d)) = d) ∧
    ∀ str, Exact Hash str ↔ '\x00' ∉ str ∨ ¬Digits (cStr str) := by
  refine ⟨Base58.decode_encode,check_encode,?_,read_exact_iff⟩
  intro net d hd
  rw [parse_iff _ hd]
  exact trim_encoded _

end Exactness

/-- What is behind a zero byte is not read. -/
theorem text_behind_zero_byte :
    ¬∀ str v, decodeBase58 str = some v → encodeBase58 v = trim str := by
  intro h
  have hread : decodeBase58 ['1','\x00','x'] = some [0] := by
    rw [decode_iff, encode_parts]
    decide
  have htext := h _ _ hread
  rw [encode_parts] at htext
  exact absurd htext (by decide)

end SwippCore.Base58Check
