import SwippCore.Primitives
import SwippCore.Lib.PrefixCode

/-!
# Keys and their encryption

Private keys, stealth addresses, and the key store with its crypter.
-/

set_option autoImplicit false

/-! ## Keys -/

namespace SwippCore.Key

/-- `BN_bin2bn` -/
def bin2bn (b : List UInt8) : ℕ := SignMagnitude.value b.reverse

/-- `BN_bn2bin`; its length is `BN_num_bytes`. -/
def bn2bin (n : ℕ) : List UInt8 := (SignMagnitude.bytes n).reverse

def getLen : List UInt8 → ℕ
  | [] => 0
  | chHeader::_ =>
    if chHeader = 2 ∨ chHeader = 3 then 33
    else if chHeader = 4 ∨ chHeader = 6 ∨ chHeader = 7 then 65
    else 0

structure CPubKey where
  vch : List UInt8
  sized : vch.length = getLen vch
  deriving DecidableEq

namespace CPubKey

def invalid : CPubKey := ⟨[],rfl⟩

def set (vch : List UInt8) : CPubKey :=
  if h : vch.length = getLen vch then ⟨vch,h⟩ else invalid

def isValid (p : CPubKey) : Bool := !p.vch.isEmpty
def isCompressed (p : CPubKey) : Bool := p.vch.length == 33

end CPubKey

/-- `CKey::Check` -/
def checkSecret (vch : List UInt8) : Bool :=
  vch.length == 32 && 0 < bin2bn vch &&
    bin2bn vch ≤ 0xFFFFFFFFFFFFFFFFFFFFFFFFFFFFFFFEBAAEDCE6AF48A03BBFD25E8CD0364140

structure CKey where
  vch : List UInt8
  fCompressed : Bool
  checked : checkSecret vch = true
  deriving DecidableEq

/-- `Set`; none where the key is invalid. -/
def CKey.set (vch : List UInt8) (fCompressed : Bool) : Option CKey :=
  if h : checkSecret vch = true then some ⟨vch,fCompressed,h⟩ else none

theorem CKey.set_self (key : CKey) : CKey.set key.vch key.fCompressed = some key := by
  unfold CKey.set
  rw [dif_pos key.checked]

theorem CKey.length (key : CKey) : key.vch.length = 32 := by
  have h := key.checked
  unfold checkSecret at h
  simp only [Bool.and_eq_true, beq_iff_eq] at h
  exact h.1.1

structure KeyEnv where
  hash160 : List UInt8 → Uint160
  hash256 : List UInt8 → Uint256
  publicKey : List UInt8 → Bool → List UInt8

variable (E : KeyEnv)

def CPubKey.getID (p : CPubKey) : Uint160 := E.hash160 p.vch
def CPubKey.getHash (p : CPubKey) : Uint256 := E.hash256 p.vch
def CKey.getPubKey (key : CKey) : CPubKey := .set (E.publicKey key.vch key.fCompressed)

def KeyEnv.Sized : Prop :=
  ∀ key : CKey, (E.publicKey key.vch key.fCompressed).length =
      getLen (E.publicKey key.vch key.fCompressed) ∧
    (E.publicKey key.vch key.fCompressed).length = if key.fCompressed then 33 else 65

theorem compressed_of_key (h : E.Sized) (key : CKey) :
    (key.getPubKey E).isCompressed = key.fCompressed := by
  obtain ⟨hlen,hsize⟩ := h key
  unfold CKey.getPubKey CPubKey.set CPubKey.isCompressed
  rw [dif_pos hlen]
  simp only [hsize]
  cases key.fCompressed <;> rfl

def sampleKeys : KeyEnv where
  hash160 b := BitVec.ofNat 160 (bin2bn b)
  hash256 b := BitVec.ofNat 256 (bin2bn b)
  publicKey vch fCompressed := if fCompressed then 2::vch else 4::(vch++List.replicate 32 0)

theorem sample_keys_sized : sampleKeys.Sized := by
  intro key
  have hlen := key.length
  unfold sampleKeys
  dsimp only
  cases key.fCompressed with
  | true =>
    rw [if_pos rfl, if_pos rfl]
    exact ⟨congrArg (·+1) hlen,congrArg (·+1) hlen⟩
  | false =>
    rw [if_neg (by decide), if_neg (by decide)]
    have h65 : (4::(key.vch++List.replicate 32 0) : List UInt8).length = 65 := by
      rw [List.length_cons, List.length_append, List.length_replicate, hlen]
    exact ⟨h65,h65⟩

end SwippCore.Key

namespace SwippCore.Stealth
open Key

structure EcGroup (P : Type) where
  order : ℕ
  bn2point : ℕ → Option P
  point2bn : P → ℕ
  mulG : ℕ → P
  mul : ℕ → P → P
  add : P → P → P
  sha256 : List UInt8 → List UInt8

def ecSecretSize : ℕ := 32
def ecCompressedSize : ℕ := 33

variable {P : Type} (G : EcGroup P)

def sizedBin (n size : ℕ) : Option (List UInt8) :=
  if (bn2bin n).length = size then some (bn2bin n) else none

def encode (p : P) : Option (List UInt8) := sizedBin (G.point2bn p) ecCompressedSize

def secretToPublicKey (secret : List UInt8) : Option (List UInt8) := encode G (G.mulG (bin2bn secret))

def sharedSecret (secret pubkey : List UInt8) : Option (List UInt8) := do
  let q ← G.bn2point (bin2bn pubkey)
  let vchOutQ ← encode G (G.mul (bin2bn secret) q)
  some (G.sha256 vchOutQ)

/-- `StealthSecret`: the shared secret, and the public key that is paid. -/
def stealthSecret (secret pubkey pkSpend : List UInt8) : Option (List UInt8 × List UInt8) := do
  let sharedS ← sharedSecret G secret pubkey
  let r ← G.bn2point (bin2bn pkSpend)
  let pkOut ← encode G (G.add r (G.mulG (bin2bn sharedS)))
  some (sharedS,pkOut)

def stealthSharedToSecretSpend (sharedS spendSecret : List UInt8) : Option (List UInt8) :=
  let bnSpend := (bin2bn spendSecret+bin2bn sharedS)%G.order
  if bnSpend = 0 then none else sizedBin bnSpend ecSecretSize

def stealthSecretSpend (scanSecret ephemPubkey spendSecret : List UInt8) : Option (List UInt8) := do
  let hash1 ← sharedSecret G scanSecret ephemPubkey
  stealthSharedToSecretSpend G hash1 spendSecret

def sampleGroup : EcGroup ℕ where
  order := 0xFFFFFFFFFFFFFFFFFFFFFFFFFFFFFFFEBAAEDCE6AF48A03BBFD25E8CD0364141
  bn2point n := some (n%256^32)
  point2bn p := 2*256^32+p%256^32
  mulG n := n%0xFFFFFFFFFFFFFFFFFFFFFFFFFFFFFFFEBAAEDCE6AF48A03BBFD25E8CD0364141
  mul n p := n*p%0xFFFFFFFFFFFFFFFFFFFFFFFFFFFFFFFEBAAEDCE6AF48A03BBFD25E8CD0364141
  add p q := (p+q)%0xFFFFFFFFFFFFFFFFFFFFFFFFFFFFFFFEBAAEDCE6AF48A03BBFD25E8CD0364141
  sha256 _ := List.replicate 31 0++[1]

end SwippCore.Stealth

/-! ## The encrypted key store -/

namespace SwippCore.Crypter
open FinMap Key

structure Cipher where
  encrypt : (chKey chIV vchPlaintext : List UInt8) → List UInt8
  decrypt : (chKey chIV vchCiphertext : List UInt8) → Option (List UInt8)
  bytesToKey : (nDerivationMethod : ℕ) → (strKeyData chSalt : List UInt8) → (nRounds : ℕ) →
    Option (List UInt8 × List UInt8)

def walletCryptoKeySize : ℕ := 32
def walletCryptoSaltSize : ℕ := 8

/-- What is relied on: keys have their size, decryption undoes encryption, nothing is no
ciphertext, and a secret does not come out under another key than its own. -/
structure Cipher.Lawful (C : Cipher) : Prop where
  sized : ∀ n s salt r k iv, C.bytesToKey n s salt r = some (k,iv) → k.length = walletCryptoKeySize
  decrypts : ∀ k iv p, k.length = walletCryptoKeySize → C.decrypt k iv (C.encrypt k iv p) = some p
  empty : ∀ k iv, C.decrypt k iv [] = none
  keyed : ∀ k k' iv p q, k.length = walletCryptoKeySize → k'.length = walletCryptoKeySize →
    p.length = 32 → q.length = 32 → C.decrypt k' iv (C.encrypt k iv p) = some q → k' = k

structure CMasterKey where
  vchCryptedKey : List UInt8
  vchSalt : List UInt8
  nDerivationMethod : ℕ
  nDeriveIterations : ℕ
  deriving DecidableEq, Repr

section Crypt
variable (C : Cipher)

def setKeyFromPassphrase (strKeyData chSalt : List UInt8) (nRounds nDerivationMethod : ℕ) :
    Option (List UInt8 × List UInt8) :=
  if nRounds < 1 ∨ chSalt.length ≠ walletCryptoSaltSize then none
  else if nDerivationMethod ≤ 1 then C.bytesToKey nDerivationMethod strKeyData chSalt nRounds
  else none

/-- The bytes of a 256-bit word as `memcpy` takes them. -/
def ivBytes (nIV : Uint256) : List UInt8 := PrefixCode.word 32 nIV.toNat

def encryptSecret (vMasterKey vchPlaintext : List UInt8) (nIV : Uint256) : Option (List UInt8) :=
  if vMasterKey.length = walletCryptoKeySize then
    some (C.encrypt vMasterKey (ivBytes nIV) vchPlaintext)
  else none

def decryptSecret (vMasterKey vchCiphertext : List UInt8) (nIV : Uint256) : Option (List UInt8) :=
  if vMasterKey.length = walletCryptoKeySize then
    C.decrypt vMasterKey (ivBytes nIV) vchCiphertext
  else none

end Crypt

abbrev KeyMap := Dict Uint160 CKey
abbrev CryptedKeyMap := Dict Uint160 (CPubKey × List UInt8)

def leID (a b : Uint160) : Bool := a.toNat ≤ b.toNat

structure CCryptoKeyStore where
  fUseCrypto : Bool
  mapKeys : KeyMap
  mapCryptedKeys : CryptedKeyMap
  vMasterKey : List UInt8

namespace CCryptoKeyStore
variable (E : KeyEnv) (C : Cipher) (s : CCryptoKeyStore)

def isLocked : Bool := s.fUseCrypto && s.vMasterKey.isEmpty

def setCrypted : Option CCryptoKeyStore :=
  if s.fUseCrypto then some s
  else if !s.mapKeys.entries.isEmpty then none
  else some { s with fUseCrypto := true }

def lockKeyStore : Bool × CCryptoKeyStore :=
  match s.setCrypted with
  | none => (false,s)
  | some s => (true,{ s with vMasterKey := [] })

/-- `Unlock`; none where `GetPubKey` meets an invalid key and asserts. -/
def unlock (vMasterKeyIn : List UInt8) : Option (Bool × CCryptoKeyStore) :=
  match s.setCrypted with
  | none => some (false,s)
  | some s =>
    match first leID s.mapCryptedKeys with
    | none => some (true,{ s with vMasterKey := vMasterKeyIn })
    | some ⟨_,vchPubKey,vchCryptedSecret⟩ =>
      match decryptSecret C vMasterKeyIn vchCryptedSecret (vchPubKey.getHash E) with
      | none => some (false,s)
      | some vchSecret =>
        if vchSecret.length ≠ 32 then some (false,s)
        else
          match CKey.set vchSecret vchPubKey.isCompressed with
          | none => none
          | some key =>
            if key.getPubKey E = vchPubKey then some (true,{ s with vMasterKey := vMasterKeyIn })
            else some (false,s)

def addCryptedKey (vchPubKey : CPubKey) (vchCryptedSecret : List UInt8) :
    Option CCryptoKeyStore :=
  s.setCrypted.map fun s =>
    { s with mapCryptedKeys := s.mapCryptedKeys.insert (vchPubKey.getID E) (vchPubKey,vchCryptedSecret) }

/-- `AddKeyPubKey` of a key with its own public key. -/
def addKeyPubKey (key : CKey) : Option CCryptoKeyStore :=
  let pubkey := key.getPubKey E
  if !s.fUseCrypto then some { s with mapKeys := s.mapKeys.insert (pubkey.getID E) key }
  else if s.isLocked then none
  else
    (encryptSecret C s.vMasterKey key.vch (pubkey.getHash E)).bind fun vchCryptedSecret =>
      s.addCryptedKey E pubkey vchCryptedSecret

def haveKey (address : Uint160) : Bool :=
  if !s.fUseCrypto then (s.mapKeys.lookup address).isSome
  else (s.mapCryptedKeys.lookup address).isSome

/-- `GetKey`; a key that comes out invalid counts as none. -/
def getKey (address : Uint160) : Option CKey :=
  if !s.fUseCrypto then s.mapKeys.lookup address
  else
    (s.mapCryptedKeys.lookup address).bind fun x =>
      (decryptSecret C s.vMasterKey x.2 (x.1.getHash E)).bind fun vchSecret =>
        if vchSecret.length ≠ 32 then none else CKey.set vchSecret x.1.isCompressed

/-- The loop of `EncryptKeys`. -/
def encryptAll (vMasterKeyIn : List UInt8) : List CKey → CCryptoKeyStore → Option CCryptoKeyStore
  | [], s => some s
  | key::keys, s =>
    let vchPubKey := key.getPubKey E
    (encryptSecret C vMasterKeyIn key.vch (vchPubKey.getHash E)).bind fun vchCryptedSecret =>
      (s.addCryptedKey E vchPubKey vchCryptedSecret).bind (encryptAll vMasterKeyIn keys)

def encryptKeys (vMasterKeyIn : List UInt8) : Option CCryptoKeyStore :=
  if !s.mapCryptedKeys.entries.isEmpty || s.fUseCrypto then none
  else
    (encryptAll E C vMasterKeyIn ((inOrder leID s.mapKeys).map Sigma.snd)
      { s with fUseCrypto := true }).map fun s => { s with mapKeys := ∅ }

end CCryptoKeyStore

def sampleCipher : Cipher where
  encrypt chKey _ vchPlaintext := chKey++vchPlaintext
  decrypt chKey _ vchCiphertext :=
    if chKey.isPrefixOf vchCiphertext && !vchCiphertext.isEmpty then
      some (vchCiphertext.drop chKey.length)
    else none
  bytesToKey _ strKeyData _ _ :=
    some ((strKeyData++List.replicate 32 0).take 32,List.replicate 16 0)

theorem sample_cipher_lawful : sampleCipher.Lawful where
  sized n s salt r k iv h := by
    obtain ⟨rfl,_⟩ := Prod.mk.inj (Option.some.inj h)
    rw [List.length_take, List.length_append, List.length_replicate]
    exact Nat.min_eq_left (Nat.le_add_left 32 _)
  decrypts k iv p hk := by
    have hstart : k.isPrefixOf (k++p) = true := List.isPrefixOf_iff_prefix.mpr (List.prefix_append k p)
    have hne : (k++p).isEmpty = false := by
      cases k with
      | nil => cases hk
      | cons x xs => rfl
    unfold sampleCipher
    dsimp only
    rw [hstart, hne, if_pos (by decide), List.drop_left]
  empty k iv := by
    unfold sampleCipher
    dsimp only
    rw [List.isEmpty_nil, Bool.not_true, Bool.and_false, if_neg (by decide)]
  keyed k k' iv p q hk hk' _ _ h := by
    unfold sampleCipher at h
    dsimp only at h
    split at h
    · rename_i hstart
      rw [Bool.and_eq_true] at hstart
      have hpre := List.isPrefixOf_iff_prefix.mp hstart.1
      have hpre' := List.prefix_append k p
      exact (List.prefix_of_prefix_length_le hpre hpre' (by omega)).eq_of_length (by omega)
    · cases h

theorem le_id_ordered : Ordered leID where
  trans a b c hab hbc := by
    simp only [leID, decide_eq_true_eq] at hab hbc ⊢
    omega
  total a b := by
    simp only [leID, Bool.or_eq_true, decide_eq_true_eq]
    omega
  antisymm a b hab hba := by
    simp only [leID, decide_eq_true_eq] at hab hba
    exact BitVec.eq_of_toNat_eq (by omega)

end SwippCore.Crypter
