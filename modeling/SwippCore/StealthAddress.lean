import SwippCore.Base58

/-!
# Stealth addresses as text

An address prints as its version, its options and its two keys, with the numbers of
spend keys, signatures and prefix bits between and behind them, under a checksum. The
reader takes options and keys from their places and looks at no other byte. Addresses
are ordered by the scan key, and compared by their text.
-/

set_option autoImplicit false

namespace SwippCore.StealthAddress
open SignMagnitude NetBase Base58

def ecSecretSize : ℕ := 32
def ecCompressedSize : ℕ := 33

structure CStealthAddress where
  options : UInt8
  scanPubkey : List UInt8
  spendPubkey : List UInt8
  label : String
  scanSecret : List UInt8
  spendSecret : List UInt8
  scanSized : scanPubkey.length = ecCompressedSize
  spendSized : spendPubkey.length = ecCompressedSize

def stealthVersionByte : UInt8 := 0x1c

def fromLittleEndian (bs : List UInt8) : ℕ := value (bs.take 4)

/-- The loop of `AppendChecksum`. -/
def littleEndian : ℕ → ℕ → List UInt8
  | 0, _ => []
  | n+1, checksum => UInt8.ofNat (checksum%256)::littleEndian n (checksum/256)

section Coding
variable (sha256 : List UInt8 → List UInt8)

def bitcoinChecksum (p : List UInt8) : ℕ :=
  if p = [] then 0 else fromLittleEndian (sha256 (sha256 p))

def appendChecksum (data : List UInt8) : List UInt8 :=
  data++littleEndian 4 (bitcoinChecksum sha256 data)

def verifyChecksum (data : List UInt8) : Bool :=
  if data.length < 4 then false
  else bitcoinChecksum sha256 (data.take (data.length-4)) ==
    fromLittleEndian (data.drop (data.length-4))

def payload (a : CStealthAddress) : List UInt8 :=
  [stealthVersionByte,a.options]++a.scanPubkey++[1]++a.spendPubkey++[0,0]

def encoded (a : CStealthAddress) : List Char := encodeBase58 (appendChecksum sha256 (payload a))

theorem key_sized {raw : List UInt8} (n : ℕ) (h : ¬raw.length < 75) (hn : n ≤ 36) :
    ((raw.drop n).take 33).length = ecCompressedSize := by
  rw [List.length_take, List.length_drop, ecCompressedSize]
  omega

def withBytes (raw : List UInt8) (h : ¬raw.length < 75) (a : CStealthAddress) : CStealthAddress :=
  { a with
    options := raw.getD 1 0
    scanPubkey := (raw.drop 2).take 33
    spendPubkey := (raw.drop 36).take 33
    scanSized := key_sized 2 h (by omega)
    spendSized := key_sized 36 h (by omega) }

/-- The address that `SetEncoded` leaves where it returns true. -/
def setEncoded (encodedAddress : List Char) (a : CStealthAddress) : Option CStealthAddress :=
  match decodeBase58 encodedAddress with
  | none => none
  | some raw =>
    if !verifyChecksum sha256 raw then none
    else if h : raw.length < 1+1+33+1+33+1+1+4 then none
    else if raw.getD 0 0 ≠ stealthVersionByte then none
    else some (withBytes raw h a)

/-- `memcmp(..) < 0` -/
def memcmpLess : List UInt8 → List UInt8 → Bool
  | a::as, b::bs => if a < b then true else if b < a then false else memcmpLess as bs
  | _, _ => false

/-- `operator<` -/
def less (x y : CStealthAddress) : Bool := memcmpLess x.scanPubkey y.scanPubkey

/-- `operator==` -/
def equal (x y : CStealthAddress) : Prop := encoded sha256 x = encoded sha256 y

def equivalent (x y : CStealthAddress) : Bool := !less x y && !less y x

def find (sx : CStealthAddress) (stealthAddresses : List CStealthAddress) :
    Option CStealthAddress := stealthAddresses.find? fun y => equivalent y sx

theorem blank_sized : (List.replicate 33 (0 : UInt8)).length = ecCompressedSize := rfl

def blank : CStealthAddress :=
  ⟨0,List.replicate 33 0,List.replicate 33 0,"",[],[],blank_sized,blank_sized⟩

structure Update where
  ok : Bool
  stealthAddresses : List CStealthAddress
  sxFound : Option CStealthAddress

/-- `UpdateStealthAddress`; `written` tells whether the record is written to the file. -/
def updateStealthAddress (written : Bool) (addr : List Char) (label : String)
    (addIfNotExist : Bool) (stealthAddresses : List CStealthAddress) : Update :=
  match setEncoded sha256 addr blank with
  | none => ⟨false,stealthAddresses,none⟩
  | some sxAddr =>
    match find sxAddr stealthAddresses with
    | none =>
      if addIfNotExist then
        let sxFound := { sxAddr with label := label }
        ⟨written,sxFound::stealthAddresses,some sxFound⟩
      else ⟨false,stealthAddresses,none⟩
    | some it =>
      if it.label = label then ⟨true,stealthAddresses,some it⟩
      else
        let relabelled := stealthAddresses.map fun y =>
          if equivalent y sxAddr then { y with label := label } else y
        if it.scanSecret.length = ecSecretSize then ⟨false,relabelled,some it⟩
        else ⟨written,relabelled,some { it with label := label }⟩

theorem little_endian_value (bs : List UInt8) {n : ℕ} (h : bs.length = n) :
    littleEndian n (value bs) = bs := by
  induction n generalizing bs with
  | zero =>
    rw [List.length_eq_zero_iff.mp h]
    rfl
  | succ n ih =>
    cases bs with
    | nil => cases h
    | cons b bs =>
      have hb : b.toNat < 256 := b.toNat_lt
      have hmod : (b.toNat+256*value bs)%256 = b.toNat := by omega
      have hdiv : (b.toNat+256*value bs)/256 = value bs := by omega
      rw [littleEndian, value, hmod, hdiv, ih bs (Nat.succ.inj h), UInt8.ofNat_toNat]

theorem value_little_endian (n c : ℕ) (h : c < 256^n) : value (littleEndian n c) = c := by
  induction n generalizing c with
  | zero =>
    rw [littleEndian, value]
    omega
  | succ n ih =>
    rw [pow_succ] at h
    have hlt : c%256 < 256 := Nat.mod_lt _ (by decide)
    rw [littleEndian, value, ih _ (by omega), UInt8.toNat_ofNat_of_lt' hlt]
    omega

theorem little_endian_length (n c : ℕ) : (littleEndian n c).length = n := by
  induction n generalizing c with
  | zero => rfl
  | succ n ih => rw [littleEndian, List.length_cons, ih]

theorem checksum_lt (p : List UInt8) : bitcoinChecksum sha256 p < 256^4 := by
  rw [bitcoinChecksum]
  split
  · decide
  · exact lt_of_lt_of_le (value_lt _)
      (Nat.pow_le_pow_right (by decide) (List.length_take_le _ _))

theorem verify_appended (data : List UInt8) :
    verifyChecksum sha256 (appendChecksum sha256 data) = true := by
  have hlen : (appendChecksum sha256 data).length-4 = data.length := by
    rw [appendChecksum, List.length_append, little_endian_length]
    omega
  have hsum : fromLittleEndian (littleEndian 4 (bitcoinChecksum sha256 data)) =
      bitcoinChecksum sha256 data := by
    rw [fromLittleEndian, List.take_of_length_le (by rw [little_endian_length]),
      value_little_endian 4 _ (checksum_lt sha256 data)]
  rw [verifyChecksum, if_neg, hlen, appendChecksum, List.take_left, List.drop_left, hsum]
  · exact beq_self_eq_true _
  · rw [appendChecksum, List.length_append, little_endian_length]
    omega

variable {raw : List UInt8}

/-- Bytes whose checksum holds are what stands in front of it with the checksum appended. -/
theorem appended_of_verify (h : verifyChecksum sha256 raw = true) :
    appendChecksum sha256 (raw.take (raw.length-4)) = raw := by
  rw [verifyChecksum] at h
  split at h
  · cases h
  · rename_i hlen
    have hd : (raw.drop (raw.length-4)).length = 4 := by
      rw [List.length_drop]
      omega
    have hsum := beq_iff_eq.mp h
    rw [fromLittleEndian, List.take_of_length_le hd.le] at hsum
    rw [appendChecksum, hsum, little_endian_value _ hd, List.take_append_drop]

variable (a : CStealthAddress)

theorem payload_length : (payload a).length = 71 := by
  simp [payload, a.scanSized, a.spendSized, ecCompressedSize]

theorem appended_cons : ∃ bs,
    appendChecksum sha256 (payload a) = stealthVersionByte::bs := ⟨_,rfl⟩

theorem decode_encoded :
    decodeBase58 (encoded sha256 a) = some (appendChecksum sha256 (payload a)) := by
  rw [encoded]
  exact Base58.decode_encode _

theorem payload_scan (rest : List UInt8) : ((payload a++rest).drop 2).take 33 = a.scanPubkey := by
  have h : (payload a++rest).drop 2 = a.scanPubkey++([1]++a.spendPubkey++[0,0]++rest) := by
    simp [payload]
  rw [h]
  exact List.take_left' a.scanSized

theorem payload_spend (rest : List UInt8) :
    ((payload a++rest).drop 36).take 33 = a.spendPubkey := by
  have h : payload a++rest =
      ([stealthVersionByte,a.options]++a.scanPubkey++[1])++(a.spendPubkey++([0,0]++rest)) := by
    simp [payload]
  rw [h, List.drop_left' (by simp [a.scanSized, ecCompressedSize])]
  exact List.take_left' a.spendSized

theorem set_encoded (b : CStealthAddress) : setEncoded sha256 (encoded sha256 a) b =
    some { b with
      options := a.options
      scanPubkey := a.scanPubkey
      spendPubkey := a.spendPubkey
      scanSized := a.scanSized
      spendSized := a.spendSized } := by
  have hlen : (appendChecksum sha256 (payload a)).length = 75 := by
    rw [appendChecksum, List.length_append, payload_length, little_endian_length]
  rw [setEncoded, decode_encoded]
  dsimp only
  rw [verify_appended, if_neg (by decide), dif_neg (by omega), if_neg (by
    obtain ⟨bs,hbs⟩ := appended_cons sha256 a
    rw [hbs]
    simp)]
  simp only [withBytes, appendChecksum, payload_scan, payload_spend, Option.some.injEq,
    CStealthAddress.mk.injEq, and_true]
  rfl

theorem equal_iff (b : CStealthAddress) : equal sha256 a b ↔
    a.options = b.options ∧ a.scanPubkey = b.scanPubkey ∧ a.spendPubkey = b.spendPubkey := by
  constructor
  · intro h
    have ha := set_encoded sha256 a blank
    rw [h, set_encoded sha256 b blank] at ha
    simp only [Option.some.injEq, CStealthAddress.mk.injEq] at ha
    exact ⟨ha.1.symm,ha.2.1.symm,ha.2.2.1.symm⟩
  · rintro ⟨ho,hs,hp⟩
    rw [equal, encoded, encoded, payload, payload, ho, hs, hp]

theorem less_irreflexive (as : List UInt8) : memcmpLess as as = false := by
  induction as with
  | nil => rfl
  | cons a as ih => rw [memcmpLess, if_neg (UInt8.lt_irrefl a), if_neg (UInt8.lt_irrefl a), ih]

theorem eq_of_not_less (as bs : List UInt8) (h : as.length = bs.length)
    (hab : memcmpLess as bs = false) (hba : memcmpLess bs as = false) : as = bs := by
  induction as generalizing bs with
  | nil => exact (List.length_eq_zero_iff.mp h.symm).symm
  | cons a as ih =>
    cases bs with
    | nil => cases h
    | cons b bs =>
      rw [memcmpLess] at hab hba
      by_cases h1 : a < b
      · rw [if_pos h1] at hab
        cases hab
      · by_cases h2 : b < a
        · rw [if_pos h2] at hba
          cases hba
        · rw [if_neg h1, if_neg h2] at hab
          rw [if_neg h2, if_neg h1] at hba
          rw [UInt8.le_antisymm (UInt8.not_lt.mp h2) (UInt8.not_lt.mp h1),
            ih bs (Nat.succ.inj h) hab hba]

theorem equivalent_iff (b : CStealthAddress) :
    equivalent a b = true ↔ a.scanPubkey = b.scanPubkey := by
  rw [equivalent, less, less, Bool.and_eq_true, Bool.not_eq_true', Bool.not_eq_true']
  constructor
  · rintro ⟨hab,hba⟩
    exact eq_of_not_less _ _ (a.scanSized.trans b.scanSized.symm) hab hba
  · intro h
    rw [h]
    exact ⟨less_irreflexive _,less_irreflexive _⟩

theorem update_scan {written : Bool} {addr : List Char} {label : String} {addIfNotExist : Bool}
    {set : List CStealthAddress} {sxAddr y : CStealthAddress}
    (h : setEncoded sha256 addr blank = some sxAddr)
    (hy : (updateStealthAddress sha256 written addr label addIfNotExist set).sxFound = some y) :
    y.scanPubkey = sxAddr.scanPubkey := by
  rw [updateStealthAddress, h] at hy
  dsimp only at hy
  cases hf : find sxAddr set with
  | none =>
    rw [hf] at hy
    dsimp only at hy
    split at hy
    · rw [← Option.some.inj hy]
    · cases hy
  | some x =>
    have hx : x.scanPubkey = sxAddr.scanPubkey :=
      (equivalent_iff x sxAddr).mp (List.find?_some (p := fun y => equivalent y sxAddr) hf)
    rw [hf] at hy
    dsimp only at hy
    split at hy
    · rw [← Option.some.inj hy, hx]
    · split at hy
      · rw [← Option.some.inj hy, hx]
      · rw [← Option.some.inj hy]
        exact hx

/-- The text has no zero byte, and its bytes end behind the checksum and have a single spend key,
no signatures and no prefix. -/
structure Plain (str : List Char) (raw : List UInt8) : Prop where
  text : '\x00' ∉ str
  size : raw.length = 75
  spendKeys : raw.getD 35 0 = 1
  signatures : raw.getD 69 0 = 0
  prefixLength : raw.getD 70 0 = 0

theorem get_of_drop (raw ys : List UInt8) (n : ℕ) (y : UInt8) (h : raw.drop n = y::ys) :
    raw.getD n 0 = y := by
  have hn : (raw.drop n)[0]? = raw[n+0]? := List.getElem?_drop
  rw [h, Nat.add_zero] at hn
  rw [List.getD_eq_getElem?_getD, ← hn]
  rfl

theorem take_one {n : ℕ} (h : n < raw.length) : (raw.drop n).take 1 = [raw.getD n 0] := by
  rw [List.drop_eq_getElem_cons h, List.getD_eq_getElem?_getD, List.getElem?_eq_getElem h]
  rfl

theorem take_places (h : raw.length = 75) : raw.take 71 =
    [raw.getD 0 0,raw.getD 1 0]++(raw.drop 2).take 33++[raw.getD 35 0]++(raw.drop 36).take 33++
      [raw.getD 69 0,raw.getD 70 0] := by
  have hsplit : raw.take 71 = (raw.drop 0).take 1++(raw.drop 1).take 1++(raw.drop 2).take 33++
      (raw.drop 35).take 1++(raw.drop 36).take 33++(raw.drop 69).take 1++(raw.drop 70).take 1 := by
    rw [List.drop_zero, ← List.take_add, ← List.take_add, ← List.take_add, ← List.take_add,
      ← List.take_add, ← List.take_add]
  rw [hsplit, take_one (by omega), take_one (by omega), take_one (by omega),
    take_one (by omega), take_one (by omega)]
  simp

theorem encoded_plain : '\x00' ∉ encoded sha256 a := by
  intro h
  exact (encode_plain h).2 rfl

theorem set_encoded_some {str : List Char} {a a' : CStealthAddress}
    (hraw : decodeBase58 str = some raw) (h : setEncoded sha256 str a = some a') :
    verifyChecksum sha256 raw = true ∧ 75 ≤ raw.length ∧ raw.getD 0 0 = stealthVersionByte ∧
      a'.options = raw.getD 1 0 ∧ a'.scanPubkey = (raw.drop 2).take 33 ∧
      a'.spendPubkey = (raw.drop 36).take 33 := by
  rw [setEncoded, hraw] at h
  dsimp only at h
  split at h
  · cases h
  · rename_i hv
    split at h
    · cases h
    · rename_i hl
      split at h
      · cases h
      · rename_i hversion
        rw [← Option.some.inj h]
        exact ⟨by simpa using hv,by omega,not_not.mp hversion,rfl,rfl,rfl⟩

/-- The address read from a text prints as this text exactly if the skipped bytes are plain. -/
theorem reprinted_iff (str : List Char) (a a' : CStealthAddress) (raw : List UInt8)
    (hraw : decodeBase58 str = some raw) (h : setEncoded sha256 str a = some a') :
    encoded sha256 a' = trim str ↔ Plain str raw := by
  obtain ⟨hv,hlen,hversion,hoptions,hscan,hspend⟩ := set_encoded_some sha256 hraw h
  have hback : encodeBase58 raw = trim (cStr str) := Base58.encode_decode hraw
  constructor
  · intro he
    have htext : '\x00' ∉ str := by
      intro hz
      apply encoded_plain sha256 a'
      rw [he]
      exact mem_trim hz (by decide)
    rw [c_str_plain htext, ← he] at hback
    have hsame : raw = appendChecksum sha256 (payload a') := by
      have hdec := congrArg decodeBase58 hback
      rw [decode_encoded, Base58.decode_encode] at hdec
      exact Option.some.inj hdec
    have hk : ecCompressedSize = 33 := rfl
    have hs := a'.scanSized
    have hp := a'.spendSized
    generalize hcs : littleEndian 4 (bitcoinChecksum sha256 (payload a')) = cs
    rw [appendChecksum, hcs] at hsame
    refine ⟨htext,?_,?_,?_,?_⟩
    · rw [hsame, ← hcs, List.length_append, payload_length, little_endian_length]
    · apply get_of_drop raw (a'.spendPubkey++[0,0]++cs)
      have hd : raw = ([stealthVersionByte,a'.options]++a'.scanPubkey)++
          (1::(a'.spendPubkey++[0,0]++cs)) := by
        simp [hsame, payload]
      rw [hd]
      exact List.drop_left' (by simp [hs, hk])
    · apply get_of_drop raw (0::cs)
      have hd : raw = ([stealthVersionByte,a'.options]++a'.scanPubkey++[1]++a'.spendPubkey)++
          (0::0::cs) := by
        simp [hsame, payload]
      rw [hd]
      exact List.drop_left' (by simp [hs, hp, hk])
    · apply get_of_drop raw cs
      have hd : raw = ([stealthVersionByte,a'.options]++a'.scanPubkey++[1]++a'.spendPubkey++[0])++
          (0::cs) := by
        simp [hsame, payload]
      rw [hd]
      exact List.drop_left' (by simp [hs, hp, hk])
  · intro hplain
    have hpay : payload a' = raw.take 71 := by
      rw [take_places hplain.size, payload, hversion, hoptions, hscan, hspend,
        hplain.spendKeys, hplain.signatures, hplain.prefixLength]
    have happ := appended_of_verify sha256 hv
    rw [hplain.size] at happ
    rw [encoded, hpay, happ, hback, c_str_plain hplain.text]

/-- What the text and the order of addresses tell, and when. -/
theorem stealth_address_iff :
    (∀ str a a' raw, decodeBase58 str = some raw → setEncoded sha256 str a = some a' →
      (encoded sha256 a' = trim str ↔ Plain str raw)) ∧
    (∀ a b, ∃ c, setEncoded sha256 (encoded sha256 a) b = some c ∧ c.options = a.options ∧
      c.scanPubkey = a.scanPubkey ∧ c.spendPubkey = a.spendPubkey) ∧
    (∀ a b, ((less a b = false ∧ less b a = false) ↔ equal sha256 a b) ↔
      (a.scanPubkey = b.scanPubkey → a.options = b.options ∧ a.spendPubkey = b.spendPubkey)) ∧
    ∀ written addr label addIfNotExist set sxAddr y, setEncoded sha256 addr blank = some sxAddr →
      (updateStealthAddress sha256 written addr label addIfNotExist set).sxFound = some y →
      (equal sha256 y sxAddr ↔ y.options = sxAddr.options ∧ y.spendPubkey = sxAddr.spendPubkey) := by
  refine ⟨reprinted_iff sha256,?_,?_,?_⟩
  · intro a b
    exact ⟨_,set_encoded sha256 a b,rfl,rfl,rfl⟩
  · intro a b
    have he := equivalent_iff a b
    rw [equivalent, Bool.and_eq_true, Bool.not_eq_true', Bool.not_eq_true'] at he
    rw [he, equal_iff]
    tauto
  · intro written addr label addIfNotExist set sxAddr y h hy
    have hs := update_scan sha256 h hy
    rw [equal_iff]
    tauto

end Coding

theorem key_of_ones : (List.replicate 33 (1 : UInt8)).length = ecCompressedSize := rfl

theorem same_scan_key : ¬∀ (sha256 : List UInt8 → List UInt8) (a b : CStealthAddress),
    (less a b = false ∧ less b a = false) ↔ equal sha256 a b := by
  intro h
  have he := (h (fun _ => []) blank { blank with
    spendPubkey := List.replicate 33 1, spendSized := key_of_ones }).mp
    ⟨by decide,by decide⟩
  have hk := ((equal_iff _ _ _).mp he).2.2
  revert hk
  decide

end SwippCore.StealthAddress
