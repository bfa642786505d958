import SwippCore.MessageCipher

/-!
# What decryption reads

Whoever knows the key of a recipient can send a payload that he has made himself. Its reads stay
inside exactly when it is as long as its first byte and its length say; nothing checks that.
-/

set_option autoImplicit false

namespace SwippCore.MessageReads
open Checks Key Crypter MessageCipher MessageRoundTrip
open SwippCore.SecureMessage (Message leValue secureMsgValidate)

section Statement
variable (X : Primitives)

def senderName (addressFrom : String) : String :=
  if addressFrom = "anon" then "anon" else ((X.getKeyID addressFrom).map X.toString).getD ""

structure Recipient (A B : Node X.E) (addressTo : String) where
  ckidDest : Uint160
  keyDest : CKey
  dest : X.getKeyID addressTo = some ckidDest
  owns : B.getKey ckidDest = some keyDest
  known : publicKeyOf X A ckidDest = some (keyDest.getPubKey X.E)

structure Able (A : Node X.E) (f : Fresh) (addressFrom : String) (keyDest : CKey) : Prop where
  sender : addressFrom = "anon" ∨
    ∃ ckidFrom keyFrom, X.getKeyID addressFrom = some ckidFrom ∧ A.getKey ckidFrom = some keyFrom
  compressed : f.keyR.fCompressed = true
  secret : X.ecdhComputeKey (keyDest.getPubKey X.E) f.keyR ≠ none
  hmacs : ∀ key data, hmacOf X key data ≠ none
  compresses : ∀ m, 128 < m.length → X.lz4Compress m ≠ []

/-- A message is built where it can be, and once it is stamped it is valid, and the recipient reads
it with the name of its sender. -/
def RoundTrips : Prop :=
  ∀ (A B : Node X.E) (f : Fresh) (addressFrom addressTo : String) (message : List UInt8) (start : SecureMessage)
    (R : Recipient X A B addressTo),
    (message.length ≤ smsgMaxMsgBytes → Able X A f addressFrom R.keyDest →
      ∃ smsg, secureMsgEncrypt X A f start addressFrom addressTo message = .ok smsg) ∧
    ∀ (smsg smsg' : SecureMessage) (fSecMsgEnabled : ℕ → Bool) (fStillEnabled : Bool),
      secureMsgEncrypt X A f start addressFrom addressTo message = .ok smsg →
      secureMsgSetHash X fSecMsgEnabled fStillEnabled smsg = (0,smsg') →
      (∃ m : Message, m.header = smsg'.header ∧ m.payload = smsg'.pPayload ∧ secureMsgValidate X.W m = 0) ∧
      ∀ msg, secureMsgDecrypt X B false addressTo smsg'.header smsg'.pPayload msg = .done { msg with
        timestamp := f.now, sFromAddress := senderName X addressFrom, vchMessage := message++[0] }

variable (N : Node X.E) (fTestOnly : Bool) (address : String) (header pPayload : List UInt8)

def ReadsInside : Prop := ∀ msg, secureMsgDecrypt X N fTestOnly address header pPayload msg ≠ .outside

def declared (b : UInt8) (p : List UInt8) : ℕ := leValue ((p.drop (headerLen b-4)).take 4)

/-- A payload has its header, a text that is not compressed, and some of one that is, unless it is
too large for the memory. -/
def Formed (p : List UInt8) : Prop :=
  ∃ b rest, p = b::rest ∧ headerLen b ≤ p.length ∧
    if 128 < declared b p then X.resizes ((declared b p+1)%2^32) = true → headerLen b < p.length
    else headerLen b+declared b p ≤ p.length

def OpensFormed : Prop := ∀ p, openPayload X N fTestOnly address header pPayload = .ok (some p) → Formed X p

end Statement

section Sent
variable (X : Primitives)

theorem encrypt_builds (hX : Lawful X) (A B : Node X.E) (f : Fresh) (addressFrom addressTo : String)
    (message : List UInt8) (start : SecureMessage) (R : Recipient X A B addressTo)
    (hlength : message.length ≤ smsgMaxMsgBytes) (h : Able X A f addressFrom R.keyDest) :
    ∃ smsg, secureMsgEncrypt X A f start addressFrom addressTo message = .ok smsg := by
  obtain ⟨data,hdata⟩ : ∃ data, msgData X message = .ok data := by
    unfold msgData
    split
    · rename_i hlarge
      have hne := List.length_pos_iff.mpr (h.compresses message hlarge)
      rw [if_neg (by omega)]
      exact ⟨_,rfl⟩
    · exact ⟨_,rfl⟩
  obtain ⟨ckidFrom,vchPayload,hfrom,hpayload⟩ : ∃ ckidFrom vchPayload,
      sender X addressFrom = .ok ckidFrom ∧ payloadOf X A message ckidFrom = .ok vchPayload := by
    rcases h.sender with hanon | ⟨ckidFrom,keyFrom,hid,hkey⟩
    · refine ⟨none,anonPayload message.length data,if_pos hanon,?_⟩
      unfold payloadOf
      rw [hdata]
      rfl
    · by_cases hanon : addressFrom = "anon"
      · refine ⟨none,anonPayload message.length data,if_pos hanon,?_⟩
        unfold payloadOf
        rw [hdata]
        rfl
      · refine ⟨some ckidFrom,namedPayload X ckidFrom keyFrom message data,?_,?_⟩
        · unfold sender
          rw [if_neg hanon, hid]
          rfl
        · unfold payloadOf
          rw [hdata]
          simp only [bind, Except.bind, hkey, orError]
  obtain ⟨vchP,hsecret⟩ := Option.ne_none_iff_exists'.mp h.secret
  have hkeyR : (f.keyR.getPubKey X.E).vch.length = 33 := by
    obtain ⟨hlen,hsize⟩ := hX.sized f.keyR
    unfold CKey.getPubKey CPubKey.set
    rw [dif_pos hlen]
    dsimp only
    rw [hsize, h.compressed]
    rfl
  obtain ⟨mac,hmac⟩ := Option.ne_none_iff_exists'.mp (h.hmacs ((X.sha512 vchP).val.drop 32)
    (PrefixCode.word 8 f.now.toNat++X.C.encrypt ((X.sha512 vchP).val.take 32) f.iv.val vchPayload))
  unfold secureMsgEncrypt
  rw [hfrom, R.dest]
  simp only [orError, R.known, hX.keys, hsecret, require, decide_eq_true hlength, if_true, bind, Except.bind]
  rw [dif_pos hkeyR, hpayload]
  dsimp only
  unfold macOf
  rw [hmac]
  exact ⟨_,rfl⟩

theorem built_reads (hX : Lawful X) {A : Node X.E} {addressFrom : String} {message : List UInt8}
    {ckidFrom : Option Uint160} {vchPayload : List UInt8}
    (hlength : message.length ≤ smsgMaxMsgBytes) (hfrom : sender X addressFrom = .ok ckidFrom)
    (hpayload : payloadOf X A message ckidFrom = .ok vchPayload) (timestamp : BitVec 64)
    (msg : MessageData) : readPayload X timestamp vchPayload msg = .ok { msg with
      timestamp := timestamp, sFromAddress := senderName X addressFrom, vchMessage := message++[0] } := by
  unfold payloadOf at hpayload
  obtain ⟨data,hdata,hpayload⟩ := (bind_ok _ _ _).mp hpayload
  unfold sender at hfrom
  unfold senderName
  split at hfrom
  · rename_i hanon
    cases hfrom
    cases hpayload
    rw [if_pos hanon]
    exact anon_read X hX timestamp msg hdata hlength
  · rename_i hanon
    rw [if_neg hanon]
    cases hid : X.getKeyID addressFrom with
    | none =>
      rw [hid] at hfrom
      cases hfrom
    | some id =>
      rw [hid] at hfrom
      cases hfrom
      obtain ⟨keyFrom,hkey,hpayload⟩ := (bind_ok _ _ _).mp hpayload
      cases hpayload
      exact named_read X hX timestamp msg (or_error_ok hkey) hdata hlength

theorem messages_arrive (hX : Lawful X) : RoundTrips X := by
  intro A B f addressFrom addressTo message start R
  refine ⟨encrypt_builds X hX A B f addressFrom addressTo message start R,?_⟩
  intro smsg smsg' fSecMsgEnabled fStillEnabled henc hstamp
  obtain ⟨ckidFrom,ckidDest,cpkDestK,vchP,vchPayload,hbuilt⟩ :=
    encrypt_built X A f addressFrom addressTo message henc
  obtain rfl : ckidDest = R.ckidDest := Option.some.inj (hbuilt.dest.symm.trans R.dest)
  obtain rfl : cpkDestK = R.keyDest.getPubKey X.E := Option.some.inj (hbuilt.key.symm.trans R.known)
  have hsize := built_size X A f addressFrom addressTo message hX hbuilt
  have hversion : smsg.version.val.head? = some 1 := by
    rw [hbuilt.version]
    rfl
  have hpayload : smsg'.pPayload = smsg.pPayload := stamp_keeps_payload X hstamp
  have hworst : SwippCore.SecureMessage.smsgMaxMsgWorst = 4218 := rfl
  have hfits : smsg'.pPayload.length < 2^32 := by
    rw [hpayload]
    omega
  obtain ⟨hvalid,hsame⟩ := stamped_valid X hstamp hversion hsize hfits
  refine ⟨⟨record smsg' hfits,rfl,rfl,hvalid⟩,?_⟩
  intro msg
  have hbuilt' : Built X A f addressFrom addressTo message smsg' ckidFrom R.ckidDest
      (R.keyDest.getPubKey X.E) vchP vchPayload := by
    rw [hsame]
    exact ⟨hbuilt.length,hbuilt.sender,hbuilt.dest,hbuilt.key,hbuilt.secret,hbuilt.payload,hbuilt.version,
      hbuilt.timestamp,hbuilt.iv,hbuilt.cpkR,hbuilt.cipher,hbuilt.mac⟩
  have htime : BitVec.ofNat 64 (leValue ((smsg'.header.drop 7).take 8)) = f.now := by
    rw [header_timestamp, hbuilt'.timestamp]
    unfold leValue
    rw [PrefixCode.value_word 8 _ (by have hlt := f.now.isLt; omega), BitVec.ofNat_toNat, BitVec.setWidth_eq]
  unfold secureMsgDecrypt
  rw [built_opens X hX
    hbuilt' R.owns]
  dsimp only
  rw [htime, built_reads X hX hbuilt.length hbuilt.sender
    hbuilt.payload f.now msg]

end Sent

section Received
variable (X : Primitives)

theorem header_len_cases (b : UInt8) : headerLen b = 9 ∨ headerLen b = 90 := by
  unfold headerLen
  split
  · exact Or.inl rfl
  · exact Or.inr rfl

theorem read_at_some {p : List UInt8} {place n : ℕ} (h : place+n ≤ p.length) :
    readAt p place n = some ((p.drop place).take n) := if_pos h

theorem read_at_none {p : List UInt8} {place n : ℕ} (h : p.length < place+n) :
    readAt p place n = none :=
  if_neg (not_le.mpr h)

theorem sender_inside (p vchMessage : List UInt8) (h : 90 ≤ p.length) :
    readSender X p vchMessage ≠ .error .outside := by
  have hlength : ((p.drop 21).take 65).length = 65 := by
    rw [List.length_take, List.length_drop]
    omega
  unfold readSender
  rw [read_at_some (by omega), read_at_some (by omega)]
  dsimp only
  rw [dif_pos hlength]
  split
  · intro hbad
    cases hbad
  · split
    · intro hbad
      cases hbad
    · intro hbad
      cases hbad

theorem declared_lt (b : UInt8) (p : List UInt8) : declared b p < 2^32 := by
  have hlt := SignMagnitude.value_lt ((p.drop (headerLen b-4)).take 4)
  have hle : ((p.drop (headerLen b-4)).take 4).length ≤ 4 := List.length_take_le _ _
  have hpow : 256^((p.drop (headerLen b-4)).take 4).length ≤ 256^4 := Nat.pow_le_pow_right (by decide) hle
  unfold declared leValue
  omega

theorem text_room (hX : Lawful X) (p v text : List UInt8) (nHdr lenPlain : ℕ) (hlen : lenPlain < 2^32)
    (h : readText X p nHdr lenPlain (resized v ((lenPlain+1)%2^32)) = .ok text) : lenPlain < text.length := by
  have hroom : ∀ written : List UInt8, lenPlain+1 < 2^32 →
      lenPlain < (overwrite (resized v ((lenPlain+1)%2^32)) written).length := by
    intro written hless
    unfold overwrite
    rw [List.length_append, List.length_drop, resized_length, Nat.mod_eq_of_lt hless]
    omega
  unfold readText at h
  split at h
  · split at h
    · cases h
    · dsimp only at h
      split at h
      · cases h
      · rename_i hresult
        rw [not_not] at hresult
        cases h
        apply hroom
        -- The largest length would be -1, which is not among the errors.
        by_contra hless
        obtain rfl : lenPlain = 2^32-1 := by omega
        have hint : toInt (2^32-1) = -1 := by decide
        have hneg := hX.negative (p.drop nHdr) (-1) (by decide)
        rw [hint] at hresult
        omega
  · split at h
    · cases h
    · cases h
      exact hroom _ (by omega)

theorem text_inside_iff (p buffer : List UInt8) (nHdr lenPlain : ℕ) :
    readText X p nHdr lenPlain buffer ≠ .error .outside ↔
      if 128 < lenPlain then nHdr < p.length else nHdr+lenPlain ≤ p.length := by
  unfold readText
  split
  · split
    · rename_i hshort
      exact iff_of_false (fun h => h rfl) (not_lt.mpr hshort)
    · rename_i hlonger
      refine iff_of_true ?_ (not_le.mp hlonger)
      dsimp only
      split
      · intro hbad
        cases hbad
      · intro hbad
        cases hbad
  · by_cases hinside : nHdr+lenPlain ≤ p.length
    · rw [read_at_some hinside]
      refine iff_of_true ?_ hinside
      intro hbad
      cases hbad
    · rw [read_at_none (not_le.mp hinside)]
      exact iff_of_false (fun h => h rfl) hinside

theorem read_payload_steps (timestamp : BitVec 64) {b : UInt8} {rest : List UInt8}
    (msg : MessageData) (hlength : headerLen b ≤ (b::rest).length) :
    readPayload X timestamp (b::rest) msg = .error .outside ↔
      X.resizes ((declared b (b::rest)+1)%2^32) = true ∧
      (readText X (b::rest) (headerLen b) (declared b (b::rest))
          (resized msg.vchMessage ((declared b (b::rest)+1)%2^32)) = .error .outside ∨
        ∃ text, readText X (b::rest) (headerLen b) (declared b (b::rest))
            (resized msg.vchMessage ((declared b (b::rest)+1)%2^32)) = .ok text ∧
          text.length ≤ declared b (b::rest)) := by
  have hHdr := header_len_cases b
  unfold readPayload
  dsimp only
  rw [read_at_some (by omega)]
  change (require (X.resizes ((declared b (b::rest)+1)%2^32)) (.failed 8) >>= fun _ =>
    readText X (b::rest) (headerLen b) (declared b (b::rest))
      (resized msg.vchMessage ((declared b (b::rest)+1)%2^32)) >>= fun vchMessage =>
        require (decide (declared b (b::rest) < vchMessage.length)) .outside >>= fun _ => _) = _ ↔ _
  constructor
  · intro h
    rcases (then_error _ _ _).mp h with h | ⟨hresizes,h⟩
    · cases ((require_error _ _ _).mp h).2
    · refine ⟨(require_ok _ _ _).mp hresizes,?_⟩
      rcases (bind_error _ _ _).mp h with h | ⟨text,htext,h⟩
      · exact Or.inl h
      · refine Or.inr ⟨text,htext,?_⟩
        rcases (then_error _ _ _).mp h with h | ⟨_,h⟩
        · rw [require_error, decide_eq_false_iff_not] at h
          exact not_lt.mp h.1
        · exfalso
          split at h
          · cases h
          · rename_i hnamed
            rcases (bind_error _ _ _).mp h with h | ⟨_,_,h⟩
            · refine sender_inside X (b::rest) _ ?_ h
              unfold headerLen at hlength
              rw [if_neg hnamed] at hlength
              exact hlength
            · cases h
  · rintro ⟨hresizes,h⟩
    apply (then_error _ _ _).mpr
    refine Or.inr ⟨(require_ok _ _ _).mpr hresizes,(bind_error _ _ _).mpr ?_⟩
    rcases h with h | ⟨text,htext,hshort⟩
    · exact Or.inl h
    · refine Or.inr ⟨text,htext,(then_error _ _ _).mpr (Or.inl ?_)⟩
      rw [require_error, decide_eq_false_iff_not]
      exact ⟨not_lt.mpr hshort,rfl⟩

section
variable (hX : Lawful X) (timestamp : BitVec 64) (p : List UInt8) (msg : MessageData)
include hX

theorem read_payload_inside_iff :
    readPayload X timestamp p msg ≠ .error .outside ↔ Formed X p := by
  cases p with
  | nil =>
    refine iff_of_false (fun h => h rfl) ?_
    rintro ⟨b,rest,hnil,_⟩
    cases hnil
  | cons b rest =>
    have hformed : Formed X (b::rest) ↔ headerLen b ≤ (b::rest).length ∧
        if 128 < declared b (b::rest) then
          X.resizes ((declared b (b::rest)+1)%2^32) = true → headerLen b < (b::rest).length
        else headerLen b+declared b (b::rest) ≤ (b::rest).length := by
      constructor
      · rintro ⟨b',rest',heq,h⟩
        cases heq
        exact h
      · exact fun h => ⟨b,rest,rfl,h⟩
    rw [hformed]
    by_cases hlength : headerLen b ≤ (b::rest).length
    · have hroom := fun text => text_room X hX (b::rest) msg.vchMessage text (headerLen b) _
        (declared_lt b (b::rest))
      have htext := text_inside_iff X (b::rest)
        (resized msg.vchMessage ((declared b (b::rest)+1)%2^32)) (headerLen b) (declared b (b::rest))
      rw [ne_eq, read_payload_steps X timestamp msg hlength, not_and, not_or]
      have hshort : ¬ ∃ text, readText X (b::rest) (headerLen b) (declared b (b::rest))
          (resized msg.vchMessage ((declared b (b::rest)+1)%2^32)) = .ok text ∧
            text.length ≤ declared b (b::rest) := by
        rintro ⟨text,hok,hle⟩
        have hlt := hroom text hok
        omega
      rw [and_iff_left hshort, ← ne_eq, htext, and_iff_right hlength]
      split
      · rfl
      · rename_i hsmall
        have hsize : (declared b (b::rest)+1)%2^32 = declared b (b::rest)+1 := Nat.mod_eq_of_lt (by omega)
        rw [hsize, hX.resized _ (by unfold smsgMaxMsgBytes; omega)]
        exact forall_prop_of_true rfl
    · refine iff_of_false ?_ (fun h => hlength h.1)
      rw [not_not]
      unfold readPayload
      dsimp only
      rw [read_at_none (by omega)]

theorem read_inside_iff :
    (match readPayload X timestamp p msg with
      | .error e => e
      | .ok msg => .done msg) ≠ Decrypted.outside ↔ Formed X p := by
  rw [← read_payload_inside_iff X hX timestamp p msg]
  cases readPayload X timestamp p msg with
  | error e =>
    constructor
    · intro h hbad
      cases hbad
      exact h rfl
    · intro h hbad
      exact h (congrArg Except.error hbad)
  | ok msg => exact iff_of_true (fun h => by cases h) (fun h => by cases h)

end

theorem decrypt_inside_iff (hX : Lawful X) (N : Node X.E) (fTestOnly : Bool) (address : String)
    (header pPayload : List UInt8) : ReadsInside X N fTestOnly address header pPayload ↔
      OpensFormed X N fTestOnly address header pPayload := by
  unfold ReadsInside OpensFormed secureMsgDecrypt
  cases hopen : openPayload X N fTestOnly address header pPayload with
  | error rv => exact iff_of_true (fun msg h => by cases h) (fun p h => by cases h)
  | ok opened =>
    cases opened with
    | none => exact iff_of_true (fun msg h => by cases h) (fun p h => by cases h)
    | some p =>
      have hone := read_inside_iff X hX (BitVec.ofNat 64 (leValue ((header.drop 7).take 8))) p
      constructor
      · intro h q hq
        cases hq
        exact (hone ⟨0,"","",[]⟩).mp (h ⟨0,"","",[]⟩)
      · intro h msg
        exact (hone msg).mpr (h p rfl)

end Received

section Claims

/-- Messages arrive, and of any other payload the reads stay inside exactly when it is formed. -/
theorem secure_messages_iff (X : Primitives) (hX : Lawful X) :
    RoundTrips X ∧ ∀ (N : Node X.E) (fTestOnly : Bool) (address : String) (header pPayload : List UInt8),
      ReadsInside X N fTestOnly address header pPayload ↔ OpensFormed X N fTestOnly address header pPayload :=
  ⟨messages_arrive X hX,decrypt_inside_iff X hX⟩

def blockCipher : Cipher where
  encrypt _ _ p := p++List.replicate (16-p.length%16) (UInt8.ofNat (16-p.length%16))
  decrypt _ _ c := (c.getLast?).bind fun b => if b.toNat ≤ c.length then some (c.take (c.length-b.toNat)) else none
  bytesToKey _ _ _ _ := none

theorem block_cipher_decrypts (k iv p : List UInt8) :
    blockCipher.decrypt k iv (blockCipher.encrypt k iv p) = some p := by
  have hpos : 16-p.length%16 ≠ 0 := by omega
  have hpad : (UInt8.ofNat (16-p.length%16)).toNat = 16-p.length%16 := by
    rw [UInt8.toNat_ofNat']
    omega
  unfold blockCipher
  dsimp only
  rw [List.getLast?_append, List.getLast?_replicate, if_neg hpos, Option.some_or, Option.bind_some, hpad,
    List.length_append, List.length_replicate, if_pos (by omega), Nat.add_sub_cancel, List.take_left]

def plainKey : CKey := ⟨List.replicate 32 1,true,by decide +kernel⟩

def plainId : Uint160 := (plainKey.getPubKey sampleKeys).getID sampleKeys

def plainPrimitives : Primitives where
  W := ⟨fun _ _ => some (List.replicate 32 0),fun xs => xs.sum,false⟩
  E := sampleKeys
  C := blockCipher
  sha512 vchP := ⟨(vchP++List.replicate 64 0).take 64,by
    rw [List.length_take, List.length_append, List.length_replicate]
    omega⟩
  setPubKey _ := true
  ecdhComputeKey pk key := some (List.zipWith (· + ·) ((pk.vch.drop 1).take 32) key.vch)
  signCompact key _ := ⟨(if key.fCompressed then 31 else 27)::(key.vch++List.replicate 32 0),by
    rw [List.length_cons, List.length_append, List.length_replicate, key.length]⟩
  recoverCompact _ sig := .set (sampleKeys.publicKey ((sig.val.drop 1).take 32) (sig.val.head? == some 31))
  lz4Compress m := Lz4Block.Block.bytes ⟨[],m⟩
  lz4DecompressSafe src n :=
    if 0 ≤ n ∧ n.toNat ≤ src.length then (n,src.drop (src.length-n.toNat)) else (-2,[])
  getKeyID address := if address = "anon" then none else some plainId
  toString _ := "S"
  resizes _ := true
  fTestNet := false

theorem plain_public (key : CKey) : (key.getPubKey sampleKeys).vch.drop 1 =
    key.vch++if key.fCompressed then [] else List.replicate 32 0 := by
  obtain ⟨hlen,_⟩ := sample_keys_sized key
  unfold CKey.getPubKey CPubKey.set
  rw [dif_pos hlen]
  unfold sampleKeys
  dsimp only
  cases key.fCompressed with
  | true => exact (List.append_nil _).symm
  | false => rfl

theorem plain_lawful : Lawful plainPrimitives where
  sized := sample_keys_sized
  decrypts k iv p _ := block_cipher_decrypts k iv p
  padded k iv p := by
    change (p++List.replicate (16-p.length%16) (UInt8.ofNat (16-p.length%16))).length = _
    rw [List.length_append, List.length_replicate]
    omega
  keys _ := rfl
  shared k r := by
    have hshow : ∀ k : CKey, ((k.getPubKey sampleKeys).vch.drop 1).take 32 = k.vch := by
      intro k
      rw [plain_public]
      exact List.take_left' k.length
    change some (List.zipWith (· + ·) (((k.getPubKey sampleKeys).vch.drop 1).take 32) r.vch) =
      some (List.zipWith (· + ·) (((r.getPubKey sampleKeys).vch.drop 1).take 32) k.vch)
    rw [hshow, hshow, List.zipWith_comm]
    congr 2
    funext a b
    exact UInt8.add_comm b a
  recovers key hash := by
    change CPubKey.set (sampleKeys.publicKey ((key.vch++List.replicate 32 0).take 32)
      (some (if key.fCompressed then (31 : UInt8) else 27) == some 31)) = key.getPubKey sampleKeys
    rw [List.take_left' key.length]
    unfold CKey.getPubKey
    cases key.fCompressed with
    | true => rfl
    | false => rfl
  block m _ := ⟨⟨[],m⟩,rfl,Lz4Block.literal_plain m⟩
  inflates m _ := by
    have hbytes : Lz4Block.Block.bytes ⟨[],m⟩ =
        (Lz4Block.token m.length 0::Lz4Block.extend m.length)++m := rfl
    change (if (0 : ℤ) ≤ m.length ∧ (m.length : ℤ).toNat ≤ (Lz4Block.Block.bytes ⟨[],m⟩).length then
      ((m.length : ℤ),(Lz4Block.Block.bytes ⟨[],m⟩).drop
        ((Lz4Block.Block.bytes ⟨[],m⟩).length-(m.length : ℤ).toNat)) else (-2,[])) = _
    rw [hbytes, Int.toNat_natCast, List.length_append, if_pos ⟨by omega,Nat.le_add_left _ _⟩,
      Nat.add_sub_cancel, List.drop_left]
  negative src n hn := by
    change (if 0 ≤ n ∧ n.toNat ≤ src.length then (n,src.drop (src.length-n.toNat)) else (-2,[])).1 < -1
    rw [if_neg (fun h => absurd h.1 (not_le.mpr hn))]
    decide
  resized _ _ := rfl

/-- So it is with these. -/
theorem plain_messages : RoundTrips plainPrimitives ∧
    ∀ (N : Node plainPrimitives.E) (fTestOnly : Bool) (address : String) (header pPayload : List UInt8),
      ReadsInside plainPrimitives N fTestOnly address header pPayload ↔
        OpensFormed plainPrimitives N fTestOnly address header pPayload :=
  secure_messages_iff plainPrimitives plain_lawful

def plainNode : Node plainPrimitives.E where
  getKey ckid := if ckid = plainId then some plainKey else none
  storedKey _ := none
  owned ckid key h := by
    split at h
    · rename_i hid
      cases h
      exact hid.symm
    · cases h
  stored ckid pk h := by cases h

def shortPayload : List UInt8 := [250,0,0,0,0,100,0,0,0]

theorem version_sized : [(1 : UInt8),1].length = 2 := rfl

def craftedMessage : SecureMessage where
  hash := .word 4 0
  version := ⟨[1,1],version_sized⟩
  flags := 0
  timestamp := 0
  iv := .word 16 0
  cpkR := ⟨2::List.replicate 32 1,rfl⟩
  mac := .word 32 0
  nonse := .word 4 0
  pPayload := blockCipher.encrypt [] [] shortPayload

/-- The MAC is right, and a hundred bytes behind the payload are read. -/
theorem short_payload_overread :
    openPayload plainPrimitives plainNode false "S" craftedMessage.header craftedMessage.pPayload =
      .ok (some shortPayload) ∧
    ¬ ReadsInside plainPrimitives plainNode false "S" craftedMessage.header craftedMessage.pPayload := by
  have hopen : openPayload plainPrimitives plainNode false "S" craftedMessage.header craftedMessage.pPayload =
      .ok (some shortPayload) := by
    decide +kernel
  refine ⟨hopen,?_⟩
  intro h
  apply h ⟨0,"","",[]⟩
  unfold secureMsgDecrypt
  rw [hopen]
  rfl

end Claims

end SwippCore.MessageReads
