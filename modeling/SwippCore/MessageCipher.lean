import SwippCore.Key
import SwippCore.Lib.Checks
import SwippCore.Lib.Lz4Block
import SwippCore.SecureMessage

/-!
# Encrypted messages

Encryption and decryption of messages, and the way from one to the other and back.
-/

set_option autoImplicit false

namespace SwippCore.MessageCipher
open Checks Key Crypter
open SwippCore.SecureMessage (MsgEnv smsgHdrLen leValue)

abbrev Bytes (n : ℕ) := {b : List UInt8 // b.length = n}

def Bytes.word (n v : ℕ) : Bytes n := ⟨PrefixCode.word n v,PrefixCode.word_length n v⟩

def smsgMaxMsgBytes : ℕ := 4096
def smsgPlHdrLen : ℕ := 1+20+65+4

structure Primitives where
  W : MsgEnv
  E : KeyEnv
  C : Cipher
  sha512 : List UInt8 → Bytes 64
  /-- `CECKey::SetPubKey` -/
  setPubKey : CPubKey → Bool
  /-- `ECDH_compute_key`; none where the result does not have 32 bytes -/
  ecdhComputeKey : CPubKey → CKey → Option (List UInt8)
  signCompact : CKey → Uint256 → Bytes 65
  /-- the invalid key where there is none -/
  recoverCompact : Uint256 → Bytes 65 → CPubKey
  /-- `LZ4_compress`; nothing where it fails -/
  lz4Compress : List UInt8 → List UInt8
  /-- `LZ4_decompress_safe` with what it writes; of an input that is not empty it reads nothing more -/
  lz4DecompressSafe : List UInt8 → ℤ → ℤ × List UInt8
  /-- `SetString` and `GetKeyID` -/
  getKeyID : String → Option Uint160
  toString : Uint160 → String
  /-- a vector of this size can be had -/
  resizes : ℕ → Bool
  fTestNet : Bool

/-- `SecureMessage`; the length of the payload comes from it. -/
structure SecureMessage where
  hash : Bytes 4
  version : Bytes 2
  flags : UInt8
  timestamp : BitVec 64
  iv : Bytes 16
  cpkR : Bytes 33
  mac : Bytes 32
  nonse : Bytes 4
  pPayload : List UInt8

def SecureMessage.hashed (smsg : SecureMessage) : List UInt8 :=
  smsg.version.val++smsg.flags::(PrefixCode.word 8 smsg.timestamp.toNat++smsg.iv.val++smsg.cpkR.val++
    smsg.mac.val++smsg.nonse.val++PrefixCode.word 4 smsg.pPayload.length)

def SecureMessage.header (smsg : SecureMessage) : List UInt8 := smsg.hash.val++smsg.hashed

/-- The private keys of a node, and the public keys of others that it has stored, each under its
id. -/
structure Node (E : KeyEnv) where
  getKey : Uint160 → Option CKey
  storedKey : Uint160 → Option CPubKey
  owned : ∀ id key, getKey id = some key → (key.getPubKey E).getID E = id
  stored : ∀ id pk, storedKey id = some pk → pk.getID E = id

def orError {α : Type} (rv : ℕ) : Option α → Except ℕ α
  | none => .error rv
  | some a => .ok a

section Keys
variable (X : Primitives)

/-- `SecureMsgGetStoredKey`, and else `SecureMsgGetLocalKey`. -/
def publicKeyOf (N : Node X.E) (ckid : Uint160) : Option CPubKey :=
  match N.storedKey ckid with
  | some pk => some pk
  | none => (N.getKey ckid).bind fun key =>
    if (key.getPubKey X.E).isValid && (key.getPubKey X.E).isCompressed then some (key.getPubKey X.E) else none

def hmacOf (key data : List UInt8) : Option (Bytes 32) :=
  (X.W.hmac key data).bind fun sha256Hash =>
    if h : sha256Hash.length = 32 then some ⟨sha256Hash,h⟩ else none

def macOf (key_m timestamp pPayload : List UInt8) : Option (Bytes 32) := hmacOf X key_m (timestamp++pPayload)

end Keys

section Encrypt
variable (X : Primitives)

def pubkeyAddress : UInt8 := if X.fTestNet then 77 else 63

def msgData (message : List UInt8) : Except ℕ (List UInt8) :=
  if 128 < message.length then
    if (X.lz4Compress message).length < 1 then .error 9 else .ok (X.lz4Compress message)
  else .ok message

def anonPayload (lenMsg : ℕ) (data : List UInt8) : List UInt8 :=
  250::([0,0,0,0]++PrefixCode.word 4 lenMsg++data)

def namedPayload (ckidFrom : Uint160) (keyFrom : CKey) (message data : List UInt8) : List UInt8 :=
  pubkeyAddress X::(PrefixCode.word 20 ckidFrom.toNat++
    (X.signCompact keyFrom (X.E.hash256 message)).val++PrefixCode.word 4 message.length++data)

def sender (addressFrom : String) : Except ℕ (Option Uint160) :=
  if addressFrom = "anon" then .ok none else (orError 3 (X.getKeyID addressFrom)).map some

def payloadOf (N : Node X.E) (message : List UInt8) (ckidFrom : Option Uint160) : Except ℕ (List UInt8) := do
  let data ← msgData X message
  match ckidFrom with
  | none => .ok (anonPayload message.length data)
  | some ckidFrom =>
    let keyFrom ← orError 7 (N.getKey ckidFrom)
    .ok (namedPayload X ckidFrom keyFrom message data)

structure Fresh where
  iv : Bytes 16
  keyR : CKey
  now : BitVec 64

/-- `SecureMsgEncrypt` into a message whose other fields stay as they are. -/
def secureMsgEncrypt (N : Node X.E) (f : Fresh) (smsg : SecureMessage) (addressFrom addressTo : String)
    (message : List UInt8) : Except ℕ SecureMessage := do
  require (decide (message.length ≤ smsgMaxMsgBytes)) 2
  let ckidFrom ← sender X addressFrom
  let ckidDest ← orError 4 (X.getKeyID addressTo)
  let cpkDestK ← orError 5 (publicKeyOf X N ckidDest)
  require (X.setPubKey cpkDestK) 4
  let vchP ← orError 6 (X.ecdhComputeKey cpkDestK f.keyR)
  if h : (f.keyR.getPubKey X.E).vch.length = 33 then
    let vchHashed := (X.sha512 vchP).val
    let vchPayload ← payloadOf X N message ckidFrom
    let vchCiphertext := X.C.encrypt (vchHashed.take 32) f.iv.val vchPayload
    let mac ← orError 10 (macOf X (vchHashed.drop 32) (PrefixCode.word 8 f.now.toNat) vchCiphertext)
    .ok { smsg with
      version := ⟨[1,1],rfl⟩
      timestamp := f.now
      iv := f.iv
      cpkR := ⟨(f.keyR.getPubKey X.E).vch,h⟩
      mac := mac
      pPayload := vchCiphertext }
  else .error 1

end Encrypt

section Stamp
variable (X : Primitives)

def meets (sha256Hash : List UInt8) : Bool :=
  sha256Hash[31]? == some 0 && sha256Hash[30]? == some 0 && (sha256Hash[29]?).map (· &&& 1) == some 0

def stampOf (smsg : SecureMessage) : Option (Bytes 32) :=
  hmacOf X (List.replicate 8 smsg.nonse.val).flatten (smsg.hashed++smsg.pPayload++smsg.pPayload)

def findNonse (fSecMsgEnabled : ℕ → Bool) : ℕ → ℕ → SecureMessage → Option (Bytes 32) × SecureMessage
  | 0, _, smsg => (none,smsg)
  | k+1, nonse, smsg =>
    if !fSecMsgEnabled nonse then (none,smsg)
    else
      let smsg := { smsg with nonse := .word 4 nonse }
      match stampOf X smsg with
      | none => (none,smsg)
      | some sha256Hash =>
        if meets sha256Hash.val then (some sha256Hash,smsg)
        else findNonse fSecMsgEnabled k (nonse+1) smsg

/-- `SecureMsgSetHash`; 0 is success. -/
def secureMsgSetHash (fSecMsgEnabled : ℕ → Bool) (fStillEnabled : Bool) (smsg : SecureMessage) :
    ℕ × SecureMessage :=
  let r := findNonse X fSecMsgEnabled (2^32) 0 smsg
  if !fStillEnabled then (2,r.2)
  else
    match r.1 with
    | none => (1,r.2)
    | some sha256Hash =>
      (0,{ r.2 with hash := ⟨sha256Hash.val.take 4,by rw [List.length_take, sha256Hash.property]; rfl⟩ })

end Stamp

section Decrypt
variable (X : Primitives)

structure MessageData where
  timestamp : BitVec 64
  sToAddress : String
  sFromAddress : String
  vchMessage : List UInt8

/-- How `SecureMsgDecrypt` ends: with an error, at the first access outside of the payload or of
the message, with the MAC tested, or with a message. -/
inductive Decrypted where
  | failed (rv : ℕ)
  | outside
  | tested
  | done (msg : MessageData)

def messageKeys (N : Node X.E) (address : String) (header : List UInt8) :
    Except ℕ (List UInt8 × List UInt8) := do
  require ((SwippCore.SecureMessage.version header).head? == some 1) 2
  let ckidDest ← orError 3 (X.getKeyID address)
  let keyDest ← orError 3 (N.getKey ckidDest)
  let cpkR := CPubKey.set ((header.drop 31).take 33)
  require cpkR.isValid 1
  require (X.setPubKey cpkR) 1
  let vchP ← orError 1 (X.ecdhComputeKey cpkR keyDest)
  let vchHashedDec := (X.sha512 vchP).val
  .ok (vchHashedDec.take 32,vchHashedDec.drop 32)

def openPayload (N : Node X.E) (fTestOnly : Bool) (address : String) (header pPayload : List UInt8) :
    Except ℕ (Option (List UInt8)) := do
  let k ← messageKeys X N address header
  let MAC ← orError 1 (macOf X k.2 ((header.drop 7).take 8) pPayload)
  require (MAC.val == (header.drop 64).take 32) 1
  if fTestOnly then .ok none
  else (orError 1 (X.C.decrypt k.1 ((header.drop 15).take 16) pPayload)).map some

def readAt (p : List UInt8) (place n : ℕ) : Option (List UInt8) :=
  if place+n ≤ p.length then some ((p.drop place).take n) else none

/-- A vector after `resize`. -/
def resized (v : List UInt8) (n : ℕ) : List UInt8 := v.take n++List.replicate (n-v.length) 0

def overwrite (buffer written : List UInt8) : List UInt8 := written++buffer.drop written.length

/-- The length as `int`. -/
def toInt (n : ℕ) : ℤ := (BitVec.ofNat 32 n).toInt

def readText (p : List UInt8) (nHdr lenPlain : ℕ) (buffer : List UInt8) : Except Decrypted (List UInt8) :=
  if 128 < lenPlain then
    -- `LZ4_decompress_safe` reads its first token before it looks at the size of its input.
    if p.length ≤ nHdr then .error .outside
    else
      let r := X.lz4DecompressSafe (p.drop nHdr) (toInt lenPlain)
      if r.1 ≠ toInt lenPlain then .error (.failed 1) else .ok (overwrite buffer r.2)
  else
    match readAt p nHdr lenPlain with
    | none => .error .outside
    | some d => .ok (overwrite buffer d)

def readSender (p vchMessage : List UInt8) : Except Decrypted String :=
  match readAt p 1 20, readAt p 21 65 with
  | some vchUint160, some vchSig =>
    if h : vchSig.length = 65 then
      let ckidFrom : Uint160 := BitVec.ofNat 160 (leValue vchUint160)
      let cpkFromSig := X.recoverCompact (X.E.hash256 vchMessage.dropLast) ⟨vchSig,h⟩
      if !cpkFromSig.isValid then .error (.failed 1)
      else if ckidFrom ≠ cpkFromSig.getID X.E then .error (.failed 1)
      else .ok (X.toString ckidFrom)
    else .error .outside
  | _, _ => .error .outside

def headerLen (b : UInt8) : ℕ := if b = 250 then 9 else smsgPlHdrLen

/-- The part of `SecureMsgDecrypt` that reads the payload. -/
def readPayload (timestamp : BitVec 64) (p : List UInt8) (msg : MessageData) : Except Decrypted MessageData :=
  match p with
  | [] => .error .outside
  | b::_ =>
    match readAt p (headerLen b-4) 4 with
    | none => .error .outside
    | some len => do
      let lenPlain := leValue len
      let size := (lenPlain+1)%2^32
      require (X.resizes size) (.failed 8)
      let vchMessage ← readText X p (headerLen b) lenPlain (resized msg.vchMessage size)
      require (decide (lenPlain < vchMessage.length)) .outside
      let vchMessage := vchMessage.set lenPlain 0
      let sFromAddress ← if b = 250 then .ok "anon" else readSender X p vchMessage
      .ok { msg with timestamp := timestamp, sFromAddress := sFromAddress, vchMessage := vchMessage }

def secureMsgDecrypt (N : Node X.E) (fTestOnly : Bool) (address : String) (header pPayload : List UInt8)
    (msg : MessageData) : Decrypted :=
  match openPayload X N fTestOnly address header pPayload with
  | .error rv => .failed rv
  | .ok none => .tested
  | .ok (some vchPayload) =>
    match readPayload X (BitVec.ofNat 64 (leValue ((header.drop 7).take 8))) vchPayload msg with
    | .error e => e
    | .ok msg => .done msg

end Decrypt

end SwippCore.MessageCipher

namespace SwippCore.MessageRoundTrip
open Checks Key MessageCipher
open SwippCore.SecureMessage (MsgEnv Message smsgHdrLen smsgMaxMsgWorst leValue secureMsgValidate)

/-- What is relied on. The cipher pads to whole blocks; both sides share one secret; a signature
shows its key; a block of LZ4 comes out as it went in, and errors of a negative size lie below -1. -/
structure Lawful (X : Primitives) : Prop where
  sized : X.E.Sized
  decrypts : ∀ k iv p, k.length = 32 → X.C.decrypt k iv (X.C.encrypt k iv p) = some p
  padded : ∀ k iv p, (X.C.encrypt k iv p).length = (p.length/16+1)*16
  keys : ∀ key : CKey, X.setPubKey (key.getPubKey X.E) = true
  shared : ∀ k r : CKey, X.ecdhComputeKey (k.getPubKey X.E) r = X.ecdhComputeKey (r.getPubKey X.E) k
  recovers : ∀ key hash, X.recoverCompact hash (X.signCompact key hash) = key.getPubKey X.E
  block : ∀ m, X.lz4Compress m ≠ [] → ∃ b : Lz4Block.Block, X.lz4Compress m = b.bytes ∧ b.plain = some m
  inflates : ∀ m, X.lz4Compress m ≠ [] →
    X.lz4DecompressSafe (X.lz4Compress m) m.length = ((m.length : ℤ),m)
  negative : ∀ src n, n < 0 → (X.lz4DecompressSafe src n).1 < -1
  resized : ∀ n ≤ smsgMaxMsgBytes+1, X.resizes n = true

section Slices

theorem slice_at {n k : ℕ} {before field : List UInt8} (after : List UInt8) (hn : before.length = n)
    (hk : field.length = k) : ((before++(field++after)).drop n).take k = field := by
  rw [← hn, List.drop_left, ← hk, List.take_left]

theorem read_at_slice (n k : ℕ) (before field after : List UInt8) (hn : before.length = n)
    (hk : field.length = k) : readAt (before++(field++after)) n k = some field := by
  unfold readAt
  rw [slice_at after hn hk, if_pos]
  rw [List.length_append, List.length_append]
  omega

variable (smsg : SecureMessage)

theorem hashed_length : smsg.hashed.length = 100 := by
  unfold SecureMessage.hashed
  simp only [List.length_append, List.length_cons, PrefixCode.word_length, smsg.version.property,
    smsg.iv.property, smsg.cpkR.property, smsg.mac.property, smsg.nonse.property]

theorem header_length : smsg.header.length = smsgHdrLen := by
  unfold SecureMessage.header
  rw [List.length_append, hashed_length, smsg.hash.property]
  rfl

theorem header_hashed : smsg.header.drop 4 = smsg.hashed := by
  unfold SecureMessage.header
  exact List.drop_left' smsg.hash.property

theorem header_hash : SwippCore.SecureMessage.hash smsg.header = smsg.hash.val := by
  unfold SwippCore.SecureMessage.hash SecureMessage.header
  exact List.take_left' smsg.hash.property

theorem header_field (n k : ℕ) (before field after : List UInt8) (h : smsg.hashed = before++(field++after))
    (hn : before.length+4 = n) (hk : field.length = k) : (smsg.header.drop n).take k = field := by
  have hdrop : smsg.header.drop n = smsg.hashed.drop before.length := by
    rw [← header_hashed, List.drop_drop]
    congr 1
    omega
  rw [hdrop, h]
  exact slice_at after rfl hk

theorem header_version : SwippCore.SecureMessage.version smsg.header = smsg.version.val :=
  header_field smsg 4 2 [] smsg.version.val _ rfl rfl smsg.version.property

theorem header_timestamp : (smsg.header.drop 7).take 8 = PrefixCode.word 8 smsg.timestamp.toNat := by
  apply header_field smsg 7 8 (smsg.version.val++[smsg.flags]) _ (smsg.iv.val++smsg.cpkR.val++
    smsg.mac.val++smsg.nonse.val++PrefixCode.word 4 smsg.pPayload.length)
  · unfold SecureMessage.hashed
    simp only [List.append_assoc, List.cons_append, List.nil_append]
  · rw [List.length_append, smsg.version.property]
    rfl
  · exact PrefixCode.word_length 8 _

theorem header_iv : (smsg.header.drop 15).take 16 = smsg.iv.val := by
  apply header_field smsg 15 16 (smsg.version.val++[smsg.flags]++PrefixCode.word 8 smsg.timestamp.toNat) _
    (smsg.cpkR.val++smsg.mac.val++smsg.nonse.val++PrefixCode.word 4 smsg.pPayload.length)
  · unfold SecureMessage.hashed
    simp only [List.append_assoc, List.cons_append, List.nil_append]
  · rw [List.length_append, List.length_append, smsg.version.property, PrefixCode.word_length]
    rfl
  · exact smsg.iv.property

theorem header_cpk : (smsg.header.drop 31).take 33 = smsg.cpkR.val := by
  apply header_field smsg 31 33 (smsg.version.val++[smsg.flags]++PrefixCode.word 8 smsg.timestamp.toNat++
    smsg.iv.val) _ (smsg.mac.val++smsg.nonse.val++PrefixCode.word 4 smsg.pPayload.length)
  · unfold SecureMessage.hashed
    simp only [List.append_assoc, List.cons_append, List.nil_append]
  · simp only [List.length_append, smsg.version.property, PrefixCode.word_length, smsg.iv.property,
      List.length_singleton]
  · exact smsg.cpkR.property

theorem header_mac : (smsg.header.drop 64).take 32 = smsg.mac.val := by
  apply header_field smsg 64 32 (smsg.version.val++[smsg.flags]++PrefixCode.word 8 smsg.timestamp.toNat++
    smsg.iv.val++smsg.cpkR.val) _ (smsg.nonse.val++PrefixCode.word 4 smsg.pPayload.length)
  · unfold SecureMessage.hashed
    simp only [List.append_assoc, List.cons_append, List.nil_append]
  · simp only [List.length_append, smsg.version.property, PrefixCode.word_length, smsg.iv.property,
      smsg.cpkR.property, List.length_singleton]
  · exact smsg.mac.property

theorem header_nonse : SwippCore.SecureMessage.nonse smsg.header = smsg.nonse.val := by
  apply header_field smsg 96 4 (smsg.version.val++[smsg.flags]++PrefixCode.word 8 smsg.timestamp.toNat++
    smsg.iv.val++smsg.cpkR.val++smsg.mac.val) _ (PrefixCode.word 4 smsg.pPayload.length)
  · unfold SecureMessage.hashed
    simp only [List.append_assoc, List.cons_append, List.nil_append]
  · simp only [List.length_append, smsg.version.property, PrefixCode.word_length, smsg.iv.property,
      smsg.cpkR.property, smsg.mac.property, List.length_singleton]
  · exact smsg.nonse.property

theorem header_payload (h : smsg.pPayload.length < 2^32) :
    SwippCore.SecureMessage.nPayload smsg.header = smsg.pPayload.length := by
  have hfield : (smsg.header.drop 100).take 4 = PrefixCode.word 4 smsg.pPayload.length := by
    apply header_field smsg 100 4 (smsg.version.val++[smsg.flags]++PrefixCode.word 8 smsg.timestamp.toNat++
      smsg.iv.val++smsg.cpkR.val++smsg.mac.val++smsg.nonse.val) _ []
    · unfold SecureMessage.hashed
      simp only [List.append_assoc, List.cons_append, List.nil_append, List.append_nil]
    · simp only [List.length_append, smsg.version.property, PrefixCode.word_length, smsg.iv.property,
        smsg.cpkR.property, smsg.mac.property, smsg.nonse.property, List.length_singleton]
    · exact PrefixCode.word_length 4 _
  unfold SwippCore.SecureMessage.nPayload
  rw [hfield]
  exact PrefixCode.value_word 4 _ h

def record (h : smsg.pPayload.length < 2^32) : Message where
  header := smsg.header
  payload := smsg.pPayload
  sized := header_length smsg
  fits := (header_payload smsg h).symm

end Slices

section Stamps
variable (X : Primitives)

variable {sha256Hash : Bytes 32}

theorem hmac_of_some {key data : List UInt8} (h : hmacOf X key data = some sha256Hash) :
    X.W.hmac key data = some sha256Hash.val := by
  unfold hmacOf at h
  obtain ⟨b,hb,h⟩ := Option.bind_eq_some_iff.mp h
  split at h
  · cases h
    exact hb
  · cases h

variable {fSecMsgEnabled : ℕ → Bool}

theorem find_nonse_some {k : ℕ} (nonse : ℕ) (smsg smsg' : SecureMessage)
    (h : findNonse X fSecMsgEnabled k nonse smsg = (some sha256Hash,smsg')) :
    stampOf X smsg' = some sha256Hash ∧ meets sha256Hash.val = true ∧
      smsg' = { smsg with nonse := smsg'.nonse } := by
  induction k generalizing nonse smsg with
  | zero =>
    unfold findNonse at h
    cases h
  | succ k ih =>
    unfold findNonse at h
    split at h
    · cases h
    · dsimp only at h
      split at h
      · cases h
      · rename_i found hfound
        split at h
        · rename_i hmeets
          cases h
          exact ⟨hfound,hmeets,rfl⟩
        · obtain ⟨hstamp,hmeets,hsame⟩ := ih (nonse+1) _ h
          exact ⟨hstamp,hmeets,hsame⟩

variable {smsg : SecureMessage}

theorem validates (hfits : smsg.pPayload.length < 2^32) (hstamp : stampOf X smsg = some sha256Hash)
    (hmeets : meets sha256Hash.val = true) (hhash : smsg.hash.val = sha256Hash.val.take 4)
    (hversion : smsg.version.val.head? = some 1) (hsize : smsg.pPayload.length ≤ smsgMaxMsgWorst) :
    secureMsgValidate X.W (record smsg hfits) = 0 := by
  have hmac := hmac_of_some X hstamp
  unfold meets at hmeets
  simp only [Bool.and_eq_true, beq_iff_eq] at hmeets
  unfold secureMsgValidate record
  dsimp only
  rw [header_version, header_nonse, header_hashed, header_hash, if_neg (not_not.mpr hversion),
    if_neg (not_lt.mpr hsize), hmac]
  dsimp only
  rw [if_neg (not_not.mpr sha256Hash.property), if_neg (not_not.mpr hhash),
    if_pos ⟨hmeets.1.1,hmeets.1.2,hmeets.2⟩]

section
variable {fStillEnabled : Bool} {smsg' : SecureMessage}
  (h : secureMsgSetHash X fSecMsgEnabled fStillEnabled smsg = (0,smsg'))
include fStillEnabled h

theorem stamped_valid
    (hversion : smsg.version.val.head? = some 1) (hsize : smsg.pPayload.length ≤ smsgMaxMsgWorst)
    (hfits : smsg'.pPayload.length < 2^32) :
    secureMsgValidate X.W (record smsg' hfits) = 0 ∧
      smsg' = { smsg with nonse := smsg'.nonse, hash := smsg'.hash } := by
  unfold secureMsgSetHash at h
  dsimp only at h
  split at h
  · cases h
  · split at h
    · cases h
    · rename_i sha256Hash hfound
      obtain ⟨found,hrun⟩ : ∃ found, findNonse X fSecMsgEnabled (2^32) 0 smsg = (some sha256Hash,found) :=
        ⟨_,Prod.ext hfound rfl⟩
      rw [hrun] at h
      obtain rfl := (Prod.mk.inj h).2
      obtain ⟨hstamp,hmeets,hsame⟩ := find_nonse_some X 0 smsg found hrun
      have hfoundVersion : found.version = smsg.version := by rw [hsame]
      have hfoundPayload : found.pPayload = smsg.pPayload := by rw [hsame]
      refine ⟨validates X hfits hstamp hmeets rfl ?_ ?_,?_⟩
      · dsimp only
        rw [hfoundVersion]
        exact hversion
      · dsimp only
        rw [hfoundPayload]
        exact hsize
      · dsimp only
        rw [hsame]

theorem stamp_keeps_payload :
    smsg'.pPayload = smsg.pPayload := by
  unfold secureMsgSetHash at h
  dsimp only at h
  split at h
  · cases h
  · split at h
    · cases h
    · rename_i sha256Hash hfound
      obtain ⟨found,hrun⟩ : ∃ found, findNonse X fSecMsgEnabled (2^32) 0 smsg = (some sha256Hash,found) :=
        ⟨_,Prod.ext hfound rfl⟩
      rw [hrun] at h
      obtain rfl := (Prod.mk.inj h).2
      obtain ⟨_,_,hsame⟩ := find_nonse_some X 0 smsg found hrun
      dsimp only
      rw [hsame]

end

end Stamps

section Built
variable (X : Primitives) (N : Node X.E) (f : Fresh) (addressFrom addressTo : String) (message : List UInt8)

structure Built (smsg : SecureMessage) (ckidFrom : Option Uint160) (ckidDest : Uint160) (cpkDestK : CPubKey)
    (vchP vchPayload : List UInt8) : Prop where
  length : message.length ≤ smsgMaxMsgBytes
  sender : sender X addressFrom = .ok ckidFrom
  dest : X.getKeyID addressTo = some ckidDest
  key : publicKeyOf X N ckidDest = some cpkDestK
  secret : X.ecdhComputeKey cpkDestK f.keyR = some vchP
  payload : payloadOf X N message ckidFrom = .ok vchPayload
  version : smsg.version.val = [1,1]
  timestamp : smsg.timestamp = f.now
  iv : smsg.iv = f.iv
  cpkR : smsg.cpkR.val = (f.keyR.getPubKey X.E).vch
  cipher : smsg.pPayload = X.C.encrypt ((X.sha512 vchP).val.take 32) f.iv.val vchPayload
  mac : macOf X ((X.sha512 vchP).val.drop 32) (PrefixCode.word 8 f.now.toNat) smsg.pPayload = some smsg.mac

theorem or_error_ok {α : Type} {rv : ℕ} {o : Option α} {a : α} (h : orError rv o = .ok a) :
    o = some a := by
  cases o with
  | none => cases h
  | some b =>
    cases h
    rfl

theorem encrypt_built {start smsg : SecureMessage}
    (h : secureMsgEncrypt X N f start addressFrom addressTo message = .ok smsg) :
    ∃ ckidFrom ckidDest cpkDestK vchP vchPayload,
      Built X N f addressFrom addressTo message smsg ckidFrom ckidDest cpkDestK vchP vchPayload := by
  unfold secureMsgEncrypt at h
  obtain ⟨hlength,h⟩ := (then_ok _ _ _).mp h
  obtain ⟨ckidFrom,hfrom,h⟩ := (bind_ok _ _ _).mp h
  obtain ⟨ckidDest,hdest,h⟩ := (bind_ok _ _ _).mp h
  obtain ⟨cpkDestK,hkey,h⟩ := (bind_ok _ _ _).mp h
  obtain ⟨_,h⟩ := (then_ok _ _ _).mp h
  obtain ⟨vchP,hsecret,h⟩ := (bind_ok _ _ _).mp h
  split at h
  · obtain ⟨vchPayload,hpayload,h⟩ := (bind_ok _ _ _).mp h
    obtain ⟨mac,hmac,h⟩ := (bind_ok _ _ _).mp h
    cases h
    exact ⟨ckidFrom,ckidDest,cpkDestK,vchP,vchPayload,
      of_decide_eq_true ((require_ok _ _ _).mp hlength),hfrom,or_error_ok hdest,
      or_error_ok hkey,or_error_ok hsecret,hpayload,rfl,rfl,rfl,rfl,rfl,or_error_ok hmac⟩
  · cases h

theorem msg_data_length (hX : Lawful X) {data : List UInt8} (h : msgData X message = .ok data)
    (hlength : message.length ≤ smsgMaxMsgBytes) : data.length ≤ 4114 := by
  unfold smsgMaxMsgBytes at hlength
  unfold msgData at h
  split at h
  · split at h
    · cases h
    · rename_i hne
      cases h
      obtain ⟨b,hbytes,hplain⟩ := hX.block message (by
        intro hnil
        rw [hnil] at hne
        exact hne Nat.zero_lt_one)
      have hbound := Lz4Block.bytes_bound hplain
      rw [hbytes]
      omega
  · cases h
    omega

theorem payload_length (hX : Lawful X) (ckidFrom : Option Uint160) (vchPayload : List UInt8)
    (h : payloadOf X N message ckidFrom = .ok vchPayload) (hlength : message.length ≤ smsgMaxMsgBytes) :
    vchPayload.length ≤ 4204 := by
  unfold payloadOf at h
  obtain ⟨data,hdata,h⟩ := (bind_ok _ _ _).mp h
  have hle := msg_data_length X message hX hdata hlength
  cases ckidFrom with
  | none =>
    cases h
    unfold anonPayload
    simp only [List.length_cons, List.length_append, PrefixCode.word_length, List.length_nil]
    omega
  | some ckidFrom =>
    obtain ⟨keyFrom,_,h⟩ := (bind_ok _ _ _).mp h
    cases h
    unfold namedPayload
    simp only [List.length_cons, List.length_append, PrefixCode.word_length,
      (X.signCompact keyFrom (X.E.hash256 message)).property]
    omega

theorem built_size (hX : Lawful X) {smsg : SecureMessage} {ckidFrom : Option Uint160} {ckidDest : Uint160} {cpkDestK : CPubKey}
    {vchP vchPayload : List UInt8}
    (h : Built X N f addressFrom addressTo message smsg ckidFrom ckidDest cpkDestK vchP vchPayload) :
    smsg.pPayload.length ≤ smsgMaxMsgWorst := by
  have hle := payload_length X N message hX ckidFrom vchPayload h.payload h.length
  have hworst : smsgMaxMsgWorst = 4218 := rfl
  rw [h.cipher, hX.padded, hworst]
  omega

end Built

section Opened
variable (X : Primitives)

theorem set_vch (p : CPubKey) : CPubKey.set p.vch = p := by
  unfold CPubKey.set
  rw [dif_pos p.sized]

theorem public_valid (hX : Lawful X) (key : CKey) : (key.getPubKey X.E).isValid = true := by
  obtain ⟨hlen,hsize⟩ := hX.sized key
  unfold CKey.getPubKey CPubKey.set CPubKey.isValid
  rw [dif_pos hlen]
  dsimp only
  cases hbytes : X.E.publicKey key.vch key.fCompressed with
  | nil =>
    rw [hbytes, List.length_nil] at hsize
    cases hkind : key.fCompressed <;> rw [hkind] at hsize <;> cases hsize
  | cons b bs => rfl

theorem built_opens (hX : Lawful X) {A B : Node X.E} {f : Fresh} {addressFrom addressTo : String} {message : List UInt8}
    {smsg : SecureMessage} {ckidFrom : Option Uint160} {ckidDest : Uint160} {keyDest : CKey}
    {vchP vchPayload : List UInt8}
    (h : Built X A f addressFrom addressTo message smsg ckidFrom ckidDest (keyDest.getPubKey X.E) vchP vchPayload)
    (hkey : B.getKey ckidDest = some keyDest) :
    openPayload X B false addressTo smsg.header smsg.pPayload = .ok (some vchPayload) := by
  have hkeys : messageKeys X B addressTo smsg.header =
      .ok ((X.sha512 vchP).val.take 32,(X.sha512 vchP).val.drop 32) := by
    unfold messageKeys
    rw [header_version, header_cpk, h.version, h.dest, h.cpkR, set_vch]
    simp only [List.head?_cons, beq_self_eq_true, require, if_true, orError, hkey, public_valid X hX f.keyR,
      hX.keys f.keyR, hX.shared f.keyR keyDest, h.secret, bind, Except.bind]
  have hmac : macOf X ((X.sha512 vchP).val.drop 32) ((smsg.header.drop 7).take 8) smsg.pPayload =
      some smsg.mac := by
    rw [header_timestamp, h.timestamp]
    exact h.mac
  have hplain : X.C.decrypt ((X.sha512 vchP).val.take 32) ((smsg.header.drop 15).take 16) smsg.pPayload =
      some vchPayload := by
    rw [header_iv, h.iv, h.cipher]
    apply hX.decrypts
    rw [List.length_take, (X.sha512 vchP).property]
    rfl
  unfold openPayload
  rw [hkeys]
  simp only [bind, Except.bind]
  rw [hmac, header_mac]
  simp only [orError, require, beq_self_eq_true, if_true, Bool.false_eq_true, if_false, hplain, Except.map]

end Opened

section Read
variable (X : Primitives)

theorem resized_length (v : List UInt8) (n : ℕ) : (resized v n).length = n := by
  unfold resized
  rw [List.length_append, List.length_take, List.length_replicate]
  omega

theorem text_back (hX : Lawful X) (p data message buffer : List UInt8) (nHdr : ℕ) (hdata : msgData X message = .ok data)
    (hlength : message.length ≤ smsgMaxMsgBytes) (hp : p.drop nHdr = data) (hHdr : nHdr ≤ p.length) :
    readText X p nHdr message.length buffer = .ok (overwrite buffer message) := by
  have hint : toInt message.length = message.length := by
    unfold smsgMaxMsgBytes at hlength
    have hmod : (BitVec.ofNat 32 message.length).toNat = message.length := by
      rw [BitVec.toNat_ofNat]
      exact Nat.mod_eq_of_lt (by omega)
    unfold toInt
    rw [BitVec.toInt_eq_toNat_of_lt (by omega), hmod]
  unfold msgData at hdata
  unfold readText
  split at hdata
  · rename_i hlarge
    rw [if_pos hlarge]
    split at hdata
    · cases hdata
    · rename_i hne
      cases hdata
      have hlonger : ¬ p.length ≤ nHdr := by
        rw [← hp, List.length_drop] at hne
        omega
      rw [if_neg hlonger, hp, hint, hX.inflates message (by
        intro hnil
        rw [hnil] at hne
        exact hne Nat.zero_lt_one)]
      exact if_neg (not_not.mpr rfl)
  · rename_i hsmall
    have hsame := Except.ok.inj hdata
    rw [← hsame] at hp
    have hread : readAt p nHdr message.length = some message := by
      unfold readAt
      rw [hp, List.take_length, if_pos]
      rw [← hp, List.length_drop]
      omega
    rw [if_neg hsmall, hread]

theorem terminated (buffer message : List UInt8) (h : buffer.length = message.length+1) :
    message.length < (overwrite buffer message).length ∧
      (overwrite buffer message).set message.length 0 = message++[0] := by
  obtain ⟨last,hlast⟩ : ∃ last, buffer.drop message.length = [last] := by
    apply List.length_eq_one_iff.mp
    rw [List.length_drop, h]
    omega
  unfold overwrite
  rw [hlast, List.length_append, List.length_singleton, List.set_append_right _ _ (le_refl _), Nat.sub_self]
  exact ⟨Nat.lt_succ_self _,rfl⟩

theorem value_length (message : List UInt8) (hlength : message.length ≤ smsgMaxMsgBytes) :
    leValue (PrefixCode.word 4 message.length) = message.length := by
  unfold smsgMaxMsgBytes at hlength
  exact PrefixCode.value_word 4 _ (by omega)

theorem payload_read (hX : Lawful X) (p rest data message : List UInt8) (b : UInt8) (hp : p = b::rest) (timestamp : BitVec 64)
    (msg : MessageData) (hdata : msgData X message = .ok data) (hlength : message.length ≤ smsgMaxMsgBytes)
    (hlen : readAt p (headerLen b-4) 4 = some (PrefixCode.word 4 message.length))
    (hbehind : p.drop (headerLen b) = data) (hHdr : headerLen b ≤ p.length) (sFromAddress : String)
    (hfrom : (if b = 250 then .ok "anon" else readSender X p (message++[0])) = .ok sFromAddress) :
    readPayload X timestamp p msg = .ok { msg with
      timestamp := timestamp, sFromAddress := sFromAddress, vchMessage := message++[0] } := by
  have hsize : (message.length+1)%2^32 = message.length+1 := by
    unfold smsgMaxMsgBytes at hlength
    exact Nat.mod_eq_of_lt (by omega)
  obtain ⟨hfits,hset⟩ := terminated (resized msg.vchMessage (message.length+1)) message (resized_length _ _)
  subst hp
  unfold readPayload
  dsimp only
  rw [hlen]
  dsimp only
  rw [value_length message hlength, hsize, hX.resized _ (Nat.add_le_add_right hlength 1),
    text_back X hX _ data message _ _ hdata hlength hbehind hHdr]
  simp only [require, if_true, bind, Except.bind, decide_eq_true hfits, hset]
  split at hfrom
  · rename_i hb
    cases hfrom
    rw [if_pos hb]
  · rename_i hb
    rw [if_neg hb, hfrom]

theorem anon_read (hX : Lawful X) {data message : List UInt8} (timestamp : BitVec 64)
    (msg : MessageData) (hdata : msgData X message = .ok data)
    (hlength : message.length ≤ smsgMaxMsgBytes) :
    readPayload X timestamp (anonPayload message.length data) msg = .ok { msg with
      timestamp := timestamp, sFromAddress := "anon", vchMessage := message++[0] } := by
  apply payload_read X hX (anonPayload message.length data) _ data message 250 rfl timestamp msg hdata hlength
  · exact read_at_slice 5 4 [250,0,0,0,0] (PrefixCode.word 4 message.length) data rfl (PrefixCode.word_length 4 _)
  · change (([250,0,0,0,0]++PrefixCode.word 4 message.length)++data).drop 9 = data
    exact List.drop_left' (by rw [List.length_append, PrefixCode.word_length]; rfl)
  · have hHdr : headerLen 250 = 9 := rfl
    unfold anonPayload
    simp only [hHdr, List.length_cons, List.length_append, PrefixCode.word_length, List.length_nil]
    omega
  · rfl

section
variable (hX : Lawful X) {N : Node X.E} {ckidFrom : Uint160} {keyFrom : CKey}
include hX

theorem sender_read
    (data message : List UInt8) (hkey : N.getKey ckidFrom = some keyFrom) :
    readSender X (namedPayload X ckidFrom keyFrom message data) (message++[0]) = .ok (X.toString ckidFrom) := by
  have hid : readAt (namedPayload X ckidFrom keyFrom message data) 1 20 =
      some (PrefixCode.word 20 ckidFrom.toNat) := by
    unfold namedPayload
    rw [List.append_assoc, List.append_assoc]
    exact read_at_slice 1 20 [pubkeyAddress X] _ _ rfl (PrefixCode.word_length 20 _)
  have hsig : readAt (namedPayload X ckidFrom keyFrom message data) 21 65 =
      some (X.signCompact keyFrom (X.E.hash256 message)).val := by
    unfold namedPayload
    rw [List.append_assoc, List.append_assoc, ← List.cons_append]
    apply read_at_slice 21 65 (pubkeyAddress X::PrefixCode.word 20 ckidFrom.toNat)
    · rw [List.length_cons, PrefixCode.word_length]
    · exact (X.signCompact keyFrom (X.E.hash256 message)).property
  have hback : BitVec.ofNat 160 (leValue (PrefixCode.word 20 ckidFrom.toNat)) = ckidFrom := by
    unfold leValue
    rw [PrefixCode.value_word 20 _ (by have hlt := ckidFrom.isLt; omega), BitVec.ofNat_toNat, BitVec.setWidth_eq]
  unfold readSender
  rw [hid, hsig]
  dsimp only
  rw [dif_pos (X.signCompact keyFrom (X.E.hash256 message)).property, List.dropLast_concat, hX.recovers, public_valid X hX keyFrom, hback, N.owned ckidFrom keyFrom hkey, if_neg (by decide),
    if_neg (not_not.mpr rfl)]

theorem named_read
    {data message : List UInt8} (timestamp : BitVec 64) (msg : MessageData)
    (hkey : N.getKey ckidFrom = some keyFrom) (hdata : msgData X message = .ok data)
    (hlength : message.length ≤ smsgMaxMsgBytes) :
    readPayload X timestamp (namedPayload X ckidFrom keyFrom message data) msg = .ok { msg with
      timestamp := timestamp, sFromAddress := X.toString ckidFrom, vchMessage := message++[0] } := by
  have hb : pubkeyAddress X ≠ 250 := by
    unfold pubkeyAddress
    split <;> decide
  have hHdr : headerLen (pubkeyAddress X) = 90 := if_neg hb
  have hsig := (X.signCompact keyFrom (X.E.hash256 message)).property
  have hsplit : namedPayload X ckidFrom keyFrom message data =
      (pubkeyAddress X::(PrefixCode.word 20 ckidFrom.toNat++
        (X.signCompact keyFrom (X.E.hash256 message)).val))++(PrefixCode.word 4 message.length++data) := by
    unfold namedPayload
    rw [List.cons_append, List.append_assoc, List.append_assoc]
  have hbefore : (pubkeyAddress X::(PrefixCode.word 20 ckidFrom.toNat++
      (X.signCompact keyFrom (X.E.hash256 message)).val)).length = 86 := by
    rw [List.length_cons, List.length_append, PrefixCode.word_length, hsig]
  apply payload_read X hX (namedPayload X ckidFrom keyFrom message data) _ data message (pubkeyAddress X) rfl
    timestamp msg hdata hlength
  · rw [hHdr, hsplit]
    exact read_at_slice 86 4 _ _ _ hbefore (PrefixCode.word_length 4 _)
  · rw [hHdr, hsplit, ← List.append_assoc]
    apply List.drop_left'
    rw [List.length_append, hbefore, PrefixCode.word_length]
  · rw [hHdr, hsplit, List.length_append, hbefore, List.length_append, PrefixCode.word_length]
    omega
  · rw [if_neg hb]
    exact sender_read X hX data message hkey

end

end Read

end SwippCore.MessageRoundTrip
