import SwippCore.Lib.Fronted
import SwippCore.WalletKeys

/-!
# The wallet and its file

What encrypting, locking, unlocking and changing the passphrase do to the keys in memory
and to the records of the wallet file. Derivations, encryptions and decryptions may fail,
and so may every read and write of the file; the functions of wallet.cpp go on or return
as they find it. Outside of the model are the records of transactions, of the key pool and
of the address book.
-/

set_option autoImplicit false

namespace SwippCore.WalletFile
open FinMap Key Stealth Crypter CCryptoKeyStore WalletKeys

structure WalletDB where
  mkey : Dict ℕ CMasterKey
  key : Dict CPubKey CKey
  ckey : Dict CPubKey (List UInt8)
  sxAddr : Dict (List UInt8) CStealthAddress
  sxKeyMeta : Dict Uint160 CStealthKeyMetadata

inductive Record where
  | mkey (nID : ℕ)
  | keymeta (vchPubKey : CPubKey)
  | key (vchPubKey : CPubKey)
  | ckey (vchPubKey : CPubKey)
  | sxAddr (scanPubkey : List UInt8)
  | sxKeyMeta (keyId : Uint160)

structure Outcomes where
  derived : (strKeyData : List UInt8) → (nRounds : ℕ) → Bool
  encrypted : (vchPlaintext : List UInt8) → Bool
  decrypted : (vchCiphertext : List UInt8) → Bool
  read : Record → Bool
  written : Record → Bool
  erased : Record → Bool

def Outcomes.fine : Outcomes :=
  ⟨fun _ _ => true,fun _ => true,fun _ => true,fun _ => true,fun _ => true,fun _ => true⟩

structure FileWallet extends CCryptoKeyStore where
  mapMasterKeys : Dict ℕ CMasterKey
  nMasterKeyMaxID : ℕ
  stealthAddresses : Dict (List UInt8) CStealthAddress
  mapStealthKeyMeta : Dict Uint160 CStealthKeyMetadata
  file : WalletDB

def FileWallet.start : FileWallet := ⟨⟨false,∅,∅,[]⟩,∅,0,∅,∅,⟨∅,∅,∅,∅,∅⟩⟩

section Calls
variable (C : Cipher) (o : Outcomes)

def failing : Cipher where
  encrypt := C.encrypt
  decrypt chKey chIV vchCiphertext :=
    if o.decrypted vchCiphertext then C.decrypt chKey chIV vchCiphertext else none
  bytesToKey nDerivationMethod strKeyData chSalt nRounds :=
    if o.derived strKeyData nRounds then C.bytesToKey nDerivationMethod strKeyData chSalt nRounds
    else none

/-- `EncryptSecret` -/
def tryEncrypt (vMasterKey vchPlaintext : List UInt8) (nIV : Uint256) : Option (List UInt8) :=
  if o.encrypted vchPlaintext then encryptSecret C vMasterKey vchPlaintext nIV else none

def writeMasterKey (nID : ℕ) (kMasterKey : CMasterKey) (d : WalletDB) : Bool × WalletDB :=
  if o.written (.mkey nID) then (true,{ d with mkey := d.mkey.insert nID kMasterKey }) else (false,d)

/-- `WriteKey`; a record that exists is not written over. -/
def writeKey (vchPubKey : CPubKey) (key : CKey) (d : WalletDB) : Bool × WalletDB :=
  if !o.written (.keymeta vchPubKey) then (false,d)
  else if o.written (.key vchPubKey) && (d.key.lookup vchPubKey).isNone then
    (true,{ d with key := d.key.insert vchPubKey key })
  else (false,d)

/-- `WriteCryptedKey`; whether the clear key is erased is not looked at. -/
def writeCryptedKey (vchPubKey : CPubKey) (vchCryptedSecret : List UInt8) (d : WalletDB) :
    Bool × WalletDB :=
  if !o.written (.keymeta vchPubKey) then (false,d)
  else if o.written (.ckey vchPubKey) && (d.ckey.lookup vchPubKey).isNone then
    (true,{ d with
      ckey := d.ckey.insert vchPubKey vchCryptedSecret
      key := if o.erased (.key vchPubKey) then d.key.erase vchPubKey else d.key })
  else (false,d)

def writeStealthAddress (sxAddr : CStealthAddress) (d : WalletDB) : Bool × WalletDB :=
  if o.written (.sxAddr sxAddr.scanPubkey) then
    (true,{ d with sxAddr := d.sxAddr.insert sxAddr.scanPubkey sxAddr })
  else (false,d)

def readStealthAddress (scanPubkey : List UInt8) (d : WalletDB) : Option CStealthAddress :=
  if o.read (.sxAddr scanPubkey) then d.sxAddr.lookup scanPubkey else none

def writeStealthKeyMeta (keyId : Uint160) (sxKeyMeta : CStealthKeyMetadata) (d : WalletDB) : WalletDB :=
  if o.written (.sxKeyMeta keyId) then { d with sxKeyMeta := d.sxKeyMeta.insert keyId sxKeyMeta } else d

def eraseStealthKeyMeta (keyId : Uint160) (d : WalletDB) : WalletDB :=
  if o.erased (.sxKeyMeta keyId) then { d with sxKeyMeta := d.sxKeyMeta.erase keyId } else d

end Calls

section Keys
variable (E : KeyEnv) (C : Cipher) (o : Outcomes)

def addCryptedKey (vchPubKey : CPubKey) (vchCryptedSecret : List UInt8) (s : FileWallet) :
    Bool × FileWallet :=
  match s.toCCryptoKeyStore.addCryptedKey E vchPubKey vchCryptedSecret with
  | none => (false,s)
  | some k =>
    let r := writeCryptedKey o vchPubKey vchCryptedSecret s.file
    (r.1,{ s with toCCryptoKeyStore := k, file := r.2 })

def addKeyPubKey (key : CKey) (s : FileWallet) : Bool × FileWallet :=
  let pubkey := key.getPubKey E
  if !s.fUseCrypto then
    let r := writeKey o pubkey key s.file
    (r.1,{ s with mapKeys := s.mapKeys.insert (pubkey.getID E) key, file := r.2 })
  else if s.isLocked then (false,s)
  else
    match tryEncrypt C o s.vMasterKey key.vch (pubkey.getHash E) with
    | none => (false,s)
    | some vchCryptedSecret => addCryptedKey E o pubkey vchCryptedSecret s

def reread (d : WalletDB) (sx : CStealthAddress) : CStealthAddress :=
  if sx.scanSecret.length < 32 then sx
  else
    match readStealthAddress o sx.scanPubkey d with
    | none => sx
    | some sxAddrTemp => { sx with spendSecret := sxAddrTemp.spendSecret }

def lock (s : FileWallet) : Bool × FileWallet :=
  if s.isLocked then (true,s)
  else
    let r := s.lockKeyStore
    (r.1,{ s with
      toCCryptoKeyStore := r.2
      stealthAddresses := mapValues (reread o s.file) s.stealthAddresses })

end Keys

section Unlock
variable {P : Type} (G : EcGroup P) (E : KeyEnv) (C : Cipher) (o : Outcomes)

/-- The key whose secret `UnlockStealthAddresses` makes; the outer none where `GetPubKey` asserts. -/
def expandedKey (pubKey : CPubKey) (s : FileWallet) : Option (Option CKey) :=
  match s.mapStealthKeyMeta.lookup (pubKey.getID E) with
  | none => some none
  | some sxKeyMeta =>
    match s.stealthAddresses.lookup sxKeyMeta.pkScan.vch with
    | none => some none
    | some sx =>
      if sx.spendSecret.length ≠ ecSecretSize ∨ sx.scanSecret.length ≠ ecSecretSize then some none
      else
        match stealthSecretSpend G sx.scanSecret sxKeyMeta.pkEphem.vch sx.spendSecret with
        | none => some none
        | some sSpendR =>
          if (secretToPublicKey G sSpendR).isNone then some none
          else
            match CKey.set sSpendR true with
            | none => none
            | some ckey =>
              if !(ckey.getPubKey E).isValid then some none
              else if ckey.getPubKey E ≠ pubKey then some none
              else some (some ckey)

def expandKeys : List (CPubKey × List UInt8) → FileWallet → Option FileWallet
  | [], s => some s
  | (pubKey,vchCryptedSecret)::xs, s =>
    if vchCryptedSecret.length ≠ 0 then expandKeys xs s
    else
      match expandedKey G E pubKey s with
      | none => none
      | some none => expandKeys xs s
      | some (some ckey) =>
        let r := addKeyPubKey E C o ckey s
        expandKeys xs (if r.1 then { r.2 with file := eraseStealthKeyMeta o (pubKey.getID E) r.2.file }
          else r.2)

def unlockStealthAddresses (vMasterKeyIn : List UInt8) (s : FileWallet) : Option FileWallet :=
  expandKeys G E C o ((inOrder leID s.mapCryptedKeys).map Sigma.snd) { s with
    stealthAddresses := mapValues (decryptStealth G E (failing C o) vMasterKeyIn) s.stealthAddresses }

/-- `CWallet::Unlock`; the first record decides. -/
def unlock (strWalletPassphrase : List UInt8) (s : FileWallet) : Option (Bool × FileWallet) :=
  if !s.isLocked then some (true,s)
  else
    match inOrder (fun a b => a ≤ b) s.mapMasterKeys with
    | [] => (unlockStealthAddresses G E C o [] s).map fun s => (true,s)
    | pMasterKey::_ =>
      match openMasterKey (failing C o) strWalletPassphrase pMasterKey.2 with
      | none => some (false,s)
      | some vMasterKey =>
        match s.toCCryptoKeyStore.unlock E (failing C o) vMasterKey with
        | none => none
        | some (false,k) => some (false,{ s with toCCryptoKeyStore := k })
        | some (true,k) =>
          (unlockStealthAddresses G E C o vMasterKey { s with toCCryptoKeyStore := k }).map
            fun s => (true,s)

/-- What a change of the passphrase is given: the time measurements give the rounds, and a
failed encryption leaves something in the place of the master key. -/
structure Change where
  nDeriveIterations : ℕ
  rest : List UInt8
  o : Outcomes
  oLock : Outcomes

def setMasterKey (nID : ℕ) (kMasterKey : CMasterKey) (s : FileWallet) : FileWallet :=
  { s with mapMasterKeys := s.mapMasterKeys.insert nID kMasterKey }

/-- The loop of `ChangeWalletPassphrase`. -/
def changeRecords (strOld strNew : List UInt8) (c : Change) (fWasLocked : Bool) :
    List (Sigma fun _ : ℕ => CMasterKey) → FileWallet → Option (Bool × FileWallet)
  | [], s => some (false,s)
  | ⟨nID,kMasterKey⟩::rs, s =>
    match openMasterKey (failing C c.o) strOld kMasterKey with
    | none => some (false,s)
    | some vMasterKey =>
      match s.toCCryptoKeyStore.unlock E (failing C c.o) vMasterKey with
      | none => none
      | some (false,k) => changeRecords strOld strNew c fWasLocked rs { s with toCCryptoKeyStore := k }
      | some (true,k) =>
        match unlockStealthAddresses G E C c.o vMasterKey { s with toCCryptoKeyStore := k } with
        | none => none
        | some s =>
          let kMasterKey := { kMasterKey with nDeriveIterations := c.nDeriveIterations }
          match setKeyFromPassphrase (failing C c.o) strNew kMasterKey.vchSalt
              kMasterKey.nDeriveIterations kMasterKey.nDerivationMethod with
          | none => some (false,setMasterKey nID kMasterKey s)
          | some crypter =>
            if !c.o.encrypted vMasterKey then
              some (false,setMasterKey nID { kMasterKey with vchCryptedKey := c.rest } s)
            else
              let kMasterKey := { kMasterKey with
                vchCryptedKey := C.encrypt crypter.1 crypter.2 vMasterKey }
              let s := setMasterKey nID kMasterKey s
              let s := { s with file := (writeMasterKey c.o nID kMasterKey s.file).2 }
              some (true,if fWasLocked then (lock c.oLock s).2 else s)

def changeWalletPassphrase (strOldWalletPassphrase strNewWalletPassphrase : List UInt8) (c : Change)
    (s : FileWallet) : Option (Bool × FileWallet) :=
  let r := (lock c.oLock s).2
  changeRecords G E C strOldWalletPassphrase strNewWalletPassphrase c s.isLocked
    (inOrder (fun a b => a ≤ b) r.mapMasterKeys) r

end Unlock

section Encrypt
variable {P : Type} (G : EcGroup P) (E : KeyEnv) (C : Cipher)

/-- What an encryption draws and measures, and how the calls end: those of the transaction,
and those of the unlocking, the new key pool and the locking that follow. -/
structure Encrypting where
  vMasterKey : List UInt8
  drawn : vMasterKey.length = walletCryptoKeySize
  vchSalt : List UInt8
  nDeriveIterations : ℕ
  nDerivationMethod : ℕ
  fTxnBegin : Bool
  fTxnCommit : Bool
  o : Outcomes
  /-- the keys that `NewKeyPool` generates -/
  pool : List CKey
  oPool : Outcomes

/-- The loop of `EncryptKeys`; none where it returns false. -/
def encryptAll (o : Outcomes) (vMasterKeyIn : List UInt8) : List CKey → FileWallet → Option FileWallet
  | [], s => some s
  | key::keys, s =>
    let vchPubKey := key.getPubKey E
    match tryEncrypt C o vMasterKeyIn key.vch (vchPubKey.getHash E) with
    | none => none
    | some vchCryptedSecret =>
      let r := addCryptedKey E o vchPubKey vchCryptedSecret s
      if r.1 then encryptAll o vMasterKeyIn keys r.2 else none

def encryptKeys (o : Outcomes) (vMasterKeyIn : List UInt8) (s : FileWallet) : Option FileWallet :=
  if !s.mapCryptedKeys.entries.isEmpty || s.fUseCrypto then none
  else
    (encryptAll E C o vMasterKeyIn ((inOrder leID s.mapKeys).map Sigma.snd)
      { s with fUseCrypto := true }).map fun s => { s with mapKeys := ∅ }

def encryptAddresses (o : Outcomes) (vMasterKey : List UInt8) :
    List (Sigma fun _ : List UInt8 => CStealthAddress) → FileWallet → FileWallet
  | [], s => s
  | ⟨scanPubkey,sx⟩::sxs, s =>
    if sx.scanSecret.length < 32 then encryptAddresses o vMasterKey sxs s
    else
      match tryEncrypt C o vMasterKey (sx.spendSecret.take 32) (E.hash256 sx.spendPubkey) with
      | none => encryptAddresses o vMasterKey sxs s
      | some vchCryptedSecret =>
        let sx := { sx with spendSecret := vchCryptedSecret }
        encryptAddresses o vMasterKey sxs { s with
          stealthAddresses := s.stealthAddresses.insert scanPubkey sx
          file := (writeStealthAddress o sx s.file).2 }

/-- `NewKeyPool` generates its keys; false where `GenerateNewKey` throws. -/
def addPool (o : Outcomes) : List CKey → FileWallet → Bool × FileWallet
  | [], s => (true,s)
  | key::keys, s =>
    let r := addKeyPubKey E C o key s
    if r.1 then addPool o keys r.2 else (false,r.2)

def leScan (a b : List UInt8) : Bool := bin2bn (a.take 33) ≤ bin2bn (b.take 33)

/-- What follows the commit: the wallet is unlocked, gets a new key pool and is locked. The
inner none where an exception leaves the function. -/
def renewPool (strWalletPassphrase : List UInt8) (e : Encrypting) (s : FileWallet) :
    Option (Option Bool × FileWallet) :=
  match unlock G E C e.oPool strWalletPassphrase (lock e.oPool s).2 with
  | none => none
  | some (_,s) =>
    if s.isLocked then some (some true,s)
    else
      let r := addPool E C e.oPool e.pool s
      if r.1 then some (some true,(lock e.oPool r.2).2) else some (none,r.2)

/-- `EncryptWallet`; the outer none where the process ends. -/
def encryptWallet (strWalletPassphrase : List UInt8) (e : Encrypting) (s : FileWallet) :
    Option (Option Bool × FileWallet) :=
  if s.fUseCrypto then some (some false,s)
  else
    match setKeyFromPassphrase (failing C e.o) strWalletPassphrase e.vchSalt e.nDeriveIterations
        e.nDerivationMethod with
    | none => some (some false,s)
    | some crypter =>
      if !e.o.encrypted e.vMasterKey then some (some false,s)
      else
        let kMasterKey : CMasterKey :=
          ⟨C.encrypt crypter.1 crypter.2 e.vMasterKey,e.vchSalt,e.nDerivationMethod,e.nDeriveIterations⟩
        let nID := s.nMasterKeyMaxID+1
        let s := setMasterKey nID kMasterKey { s with nMasterKeyMaxID := nID }
        if !e.fTxnBegin then some (some false,s)
        else
          match encryptKeys E C e.o e.vMasterKey { s with file := (writeMasterKey e.o nID kMasterKey s.file).2 } with
          | none => none
          | some s =>
            let s := encryptAddresses E C e.o e.vMasterKey (inOrder leScan s.stealthAddresses) s
            if !e.fTxnCommit then none else renewPool G E C strWalletPassphrase e s

end Encrypt

section Addresses
variable (E : KeyEnv) (C : Cipher) (o : Outcomes)

/-- `AddStealthAddress`; the secret in memory stays in clear. -/
def addStealthAddress (sxAddr : CStealthAddress) (s : FileWallet) : Bool × FileWallet :=
  let added := { s with stealthAddresses := FinMap.insertNew s.stealthAddresses sxAddr.scanPubkey sxAddr }
  let dropped := { s with stealthAddresses := s.stealthAddresses.erase sxAddr.scanPubkey }
  if sxAddr.scanSecret.length ≠ ecSecretSize then
    let r := writeStealthAddress o sxAddr s.file
    (r.1,{ added with file := r.2 })
  else if s.isLocked then (false,dropped)
  else if !s.fUseCrypto then
    let r := writeStealthAddress o sxAddr s.file
    (r.1,{ added with file := r.2 })
  else
    match tryEncrypt C o s.vMasterKey (sxAddr.spendSecret.take 32) (E.hash256 sxAddr.spendPubkey) with
    | none => (false,dropped)
    | some vchCryptedSecret =>
      let r := writeStealthAddress o { sxAddr with spendSecret := vchCryptedSecret } s.file
      (r.1,{ added with file := r.2 })

/-- `UpdateStealthAddress` on an address that was decoded; `fSameLabel` for one that has the
label already. -/
def updateStealthAddress (scanPubkey spendPubkey : List UInt8) (fSameLabel addIfNotExist : Bool)
    (s : FileWallet) : Bool × FileWallet :=
  match s.stealthAddresses.lookup scanPubkey with
  | none =>
    if addIfNotExist then
      let sxFound : CStealthAddress := ⟨scanPubkey,spendPubkey,[],[]⟩
      let r := writeStealthAddress o sxFound s.file
      (r.1,{ s with stealthAddresses := s.stealthAddresses.insert scanPubkey sxFound, file := r.2 })
    else (false,s)
  | some sxFound =>
    if fSameLabel then (true,s)
    else if sxFound.scanSecret.length = ecSecretSize then (false,s)
    else
      let r := writeStealthAddress o sxFound s.file
      (r.1,{ s with file := r.2 })

/-- `FindStealthTransactions` finds a payment while the wallet is locked: a key that it does
not have comes in without its secret. -/
def receiveLocked (cpkE : CPubKey) (lockedSkMeta : CStealthKeyMetadata) (s : FileWallet) : FileWallet :=
  if s.haveKey (cpkE.getID E) then s
  else if s.isLocked then
    let s := (addCryptedKey E o cpkE [] s).2
    { s with
      mapStealthKeyMeta := s.mapStealthKeyMeta.insert (cpkE.getID E) lockedSkMeta
      file := writeStealthKeyMeta o (cpkE.getID E) lockedSkMeta s.file }
  else s

end Addresses

section Load
variable (E : KeyEnv)

def lePub (a b : CPubKey) : Bool :=
  a.vch.length < b.vch.length || (a.vch.length == b.vch.length && bin2bn a.vch ≤ bin2bn b.vch)

/-- `LoadKey` of each record. -/
def loadKeys (d : Dict CPubKey CKey) : KeyMap :=
  readAll lePub d (fun vchPubKey => vchPubKey.getID E) fun _ key => key

/-- `LoadCryptedKey` of each record. -/
def loadCryptedKeys (d : Dict CPubKey (List UInt8)) : CryptedKeyMap :=
  readAll lePub d (fun vchPubKey => vchPubKey.getID E) fun vchPubKey vchCryptedSecret =>
    (vchPubKey,vchCryptedSecret)

/-- `LoadWallet`, the reading of these records; none where a clear key is refused. -/
def loadWallet (d : WalletDB) : Option FileWallet :=
  if !d.ckey.entries.isEmpty && !d.key.entries.isEmpty then none
  else some {
    fUseCrypto := !d.ckey.entries.isEmpty
    mapKeys := loadKeys E d.key
    mapCryptedKeys := loadCryptedKeys E d.ckey
    vMasterKey := []
    mapMasterKeys := d.mkey
    nMasterKeyMaxID := (d.mkey.keys).foldl max 0
    stealthAddresses := d.sxAddr
    mapStealthKeyMeta := d.sxKeyMeta
    file := d }

end Load

section Runs
variable {P : Type} (G : EcGroup P) (E : KeyEnv) (C : Cipher)

inductive Event where
  | addKey (key : CKey) (o : Outcomes)
  | receive (cpkE : CPubKey) (lockedSkMeta : CStealthKeyMetadata) (o : Outcomes)
  | addStealth (sxAddr : CStealthAddress) (o : Outcomes)
  | updateStealth (scanPubkey spendPubkey : List UInt8) (fSameLabel addIfNotExist : Bool) (o : Outcomes)
  | lock (o : Outcomes)
  | unlock (strWalletPassphrase : List UInt8) (o : Outcomes)
  | encrypt (strWalletPassphrase : List UInt8) (e : Encrypting)
  | change (strOldWalletPassphrase strNewWalletPassphrase : List UInt8) (c : Change)
  | restart

/-- One operation, with what it returns: none where an exception leaves it. The outer none
where the process ends. -/
def step : Event → FileWallet → Option (Option Bool × FileWallet)
  | .addKey key o, s => some (some (addKeyPubKey E C o key s).1,(addKeyPubKey E C o key s).2)
  | .receive cpkE lockedSkMeta o, s => some (some true,receiveLocked E o cpkE lockedSkMeta s)
  | .addStealth sxAddr o, s => some (some (addStealthAddress E C o sxAddr s).1,(addStealthAddress E C o sxAddr s).2)
  | .updateStealth scanPubkey spendPubkey fSameLabel addIfNotExist o, s =>
    let r := updateStealthAddress o scanPubkey spendPubkey fSameLabel addIfNotExist s
    some (some r.1,r.2)
  | .lock o, s => some (some (lock o s).1,(lock o s).2)
  | .unlock pass o, s => (unlock G E C o pass s).map fun r => (some r.1,r.2)
  | .encrypt pass e, s => encryptWallet G E C pass e s
  | .change old new c, s => (changeWalletPassphrase G E C old new c s).map fun r => (some r.1,r.2)
  | .restart, s => (loadWallet E s.file).map fun s => (some true,s)

end Runs

end SwippCore.WalletFile
