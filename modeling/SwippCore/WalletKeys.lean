import SwippCore.Key
import SwippCore.Standard

/-!
# The keys of the wallet

Encrypting, locking and unlocking, and the ways on which keys come in: they are
generated or imported, expanded from a stealth address, or found in a transaction.
A stealth payment that is found while the wallet is locked leaves a key without its
secret, which the next unlocking is to supply.
-/

set_option autoImplicit false

namespace SwippCore.WalletKeys
open FinMap Key Stealth Crypter CCryptoKeyStore Standard

structure CStealthAddress where
  scanPubkey : List UInt8
  spendPubkey : List UInt8
  scanSecret : List UInt8
  spendSecret : List UInt8
  deriving DecidableEq, Repr

structure CStealthKeyMetadata where
  pkEphem : CPubKey
  pkScan : CPubKey
  deriving DecidableEq

/-- The wallet; `passphrase` is the one it was encrypted with and `held` the private keys that
it was ever given, the last one under each id. -/
structure KeyWallet extends CCryptoKeyStore where
  mapMasterKeys : List CMasterKey
  stealthAddresses : List CStealthAddress
  mapStealthKeyMeta : Dict Uint160 CStealthKeyMetadata
  passphrase : Option (List UInt8)
  held : KeyMap

def KeyWallet.start : KeyWallet := ⟨⟨false,∅,∅,[]⟩,[],[],∅,none,∅⟩

def before (a b : List UInt8) : Bool := bin2bn (a.take 33) < bin2bn (b.take 33)

/-- `insert` of the set; an address that is there is kept. -/
def insertStealth (sx : CStealthAddress) : List CStealthAddress → List CStealthAddress
  | [] => [sx]
  | y::ys =>
    if before sx.scanPubkey y.scanPubkey then sx::y::ys
    else if before y.scanPubkey sx.scanPubkey then y::insertStealth sx ys
    else y::ys

def findStealth (scanPubkey : List UInt8) (sxs : List CStealthAddress) : Option CStealthAddress :=
  sxs.find? fun y => !before scanPubkey y.scanPubkey && !before y.scanPubkey scanPubkey

section Basics
variable (E : KeyEnv) (C : Cipher)

/-- `CWallet::AddKeyPubKey`; `fWritten` is the result of the database. -/
def addKey (key : CKey) (fWritten : Bool) (s : KeyWallet) : Bool × KeyWallet :=
  match s.addKeyPubKey E C key with
  | none => (false,s)
  | some k =>
    (fWritten,{ s with
      toCCryptoKeyStore := k
      held := s.held.insert ((key.getPubKey E).getID E) key })

/-- `Lock`; `read` gives the spend secret that the database holds for an address. -/
def lock (read : CStealthAddress → Option (List UInt8)) (s : KeyWallet) : Bool × KeyWallet :=
  if s.isLocked then (true,s)
  else
    let stealthAddresses := s.stealthAddresses.map fun sx =>
      if sx.scanSecret.length < 32 then sx
      else { sx with spendSecret := (read sx).getD sx.spendSecret }
    let r := s.lockKeyStore
    (r.1,{ s with toCCryptoKeyStore := r.2, stealthAddresses := stealthAddresses })

end Basics

section Unlock
variable {P : Type} (G : EcGroup P) (E : KeyEnv) (C : Cipher)

def decryptStealth (vMasterKeyIn : List UInt8) (sx : CStealthAddress) : CStealthAddress :=
  if sx.scanSecret.length < 32 then sx
  else
    match decryptSecret C vMasterKeyIn sx.spendSecret (E.hash256 sx.spendPubkey) with
    | none => sx
    | some vchSecret =>
      if vchSecret.length ≠ 32 then sx
      else if secretToPublicKey G vchSecret ≠ some sx.spendPubkey then sx
      else { sx with spendSecret := vchSecret }

/-- A key that was added without its secret gets it; none where `GetPubKey` asserts. -/
def expandKey (pubKey : CPubKey) (vchCryptedSecret : List UInt8) (s : KeyWallet) :
    Option KeyWallet :=
  if vchCryptedSecret.length ≠ 0 then some s
  else
    match s.mapStealthKeyMeta.lookup (pubKey.getID E) with
    | none => some s
    | some sxKeyMeta =>
      match findStealth sxKeyMeta.pkScan.vch s.stealthAddresses with
      | none => some s
      | some sx =>
        if sx.spendSecret.length ≠ ecSecretSize ∨ sx.scanSecret.length ≠ ecSecretSize then some s
        else
          match stealthSecretSpend G sx.scanSecret sxKeyMeta.pkEphem.vch sx.spendSecret with
          | none => some s
          | some sSpendR =>
            if (secretToPublicKey G sSpendR).isNone then some s
            else
              match CKey.set sSpendR true with
              | none => none
              | some ckey =>
                if !(ckey.getPubKey E).isValid then some s
                else if ckey.getPubKey E ≠ pubKey then some s
                else some (addKey E C ckey true s).2

def expandKeys : List (CPubKey × List UInt8) → KeyWallet → Option KeyWallet
  | [], s => some s
  | x::xs, s => (expandKey G E C x.1 x.2 s).bind (expandKeys xs)

def unlockStealthAddresses (vMasterKeyIn : List UInt8) (s : KeyWallet) : Option KeyWallet :=
  expandKeys G E C ((inOrder leID s.mapCryptedKeys).map Sigma.snd)
    { s with stealthAddresses := s.stealthAddresses.map (decryptStealth G E C vMasterKeyIn) }

def openMasterKey (strWalletPassphrase : List UInt8) (r : CMasterKey) : Option (List UInt8) :=
  (setKeyFromPassphrase C strWalletPassphrase r.vchSalt r.nDeriveIterations
    r.nDerivationMethod).bind fun crypter => C.decrypt crypter.1 crypter.2 r.vchCryptedKey

/-- The body of the loop of `Unlock`. -/
def unlockWith (strWalletPassphrase : List UInt8) (r : CMasterKey) (s : KeyWallet) :
    Option (Bool × KeyWallet) :=
  match openMasterKey C strWalletPassphrase r with
  | none => some (false,s)
  | some vMasterKey =>
    match s.toCCryptoKeyStore.unlock E C vMasterKey with
    | none => none
    | some (false,k) => some (false,{ s with toCCryptoKeyStore := k })
    | some (true,k) =>
      (unlockStealthAddresses G E C vMasterKey { s with toCCryptoKeyStore := k }).map
        fun s => (true,s)

/-- `Unlock`; the first record decides. -/
def unlock (strWalletPassphrase : List UInt8) (s : KeyWallet) : Option (Bool × KeyWallet) :=
  if !s.isLocked then some (true,s)
  else
    match s.mapMasterKeys with
    | [] => (unlockStealthAddresses G E C [] s).map fun s => (true,s)
    | r::_ => unlockWith G E C strWalletPassphrase r s

end Unlock

section Encrypt
variable {P : Type} (G : EcGroup P) (E : KeyEnv) (C : Cipher)

structure Encryption where
  vMasterKey : List UInt8
  drawn : vMasterKey.length = walletCryptoKeySize
  vchSalt : List UInt8
  nDeriveIterations : ℕ
  nDerivationMethod : ℕ
  fTxnBegin : Bool
  /-- the writes and the commit; where one fails the process ends -/
  fWritten : Bool
  read : CStealthAddress → Option (List UInt8)
  /-- the keys that `NewKeyPool` generates, and whether it came to its end -/
  pool : List CKey
  fPool : Bool

def encryptStealth (vMasterKey : List UInt8) (sx : CStealthAddress) : CStealthAddress :=
  if sx.scanSecret.length < 32 then sx
  else
    match encryptSecret C vMasterKey (sx.spendSecret.take 32) (E.hash256 sx.spendPubkey) with
    | none => sx
    | some vchCryptedSecret => { sx with spendSecret := vchCryptedSecret }

def addPool : List CKey → KeyWallet → KeyWallet
  | [], s => s
  | key::keys, s => addPool keys (addKey E C key true s).2

/-- `EncryptWallet`; none where the process ends. -/
def encryptWallet (strWalletPassphrase : List UInt8) (e : Encryption) (s : KeyWallet) :
    Option (Bool × KeyWallet) :=
  if s.fUseCrypto then some (false,s)
  else
    match setKeyFromPassphrase C strWalletPassphrase e.vchSalt e.nDeriveIterations
        e.nDerivationMethod with
    | none => some (false,s)
    | some crypter =>
      let kMasterKey : CMasterKey :=
        ⟨C.encrypt crypter.1 crypter.2 e.vMasterKey,e.vchSalt,e.nDerivationMethod,e.nDeriveIterations⟩
      let s := { s with mapMasterKeys := s.mapMasterKeys++[kMasterKey] }
      if !e.fTxnBegin then some (false,s)
      else
        match s.encryptKeys E C e.vMasterKey with
        | none => none
        | some k =>
          if !e.fWritten then none
          else
            let s := { s with
              toCCryptoKeyStore := k
              stealthAddresses := s.stealthAddresses.map (encryptStealth E C e.vMasterKey)
              passphrase := some strWalletPassphrase }
            (unlock G E C strWalletPassphrase (lock e.read s).2).map fun r =>
              let s := if r.2.isLocked then r.2 else addPool E C e.pool r.2
              if e.fPool then (true,(lock e.read s).2) else (false,s)

end Encrypt

section Stealth
variable {P : Type} (G : EcGroup P) (E : KeyEnv) (C : Cipher)

def eraseStealth (sx : CStealthAddress) (sxs : List CStealthAddress) : List CStealthAddress :=
  sxs.filter fun y => before sx.scanPubkey y.scanPubkey || before y.scanPubkey sx.scanPubkey

/-- `AddStealthAddress`; the secret in memory stays in clear. -/
def addStealthAddress (sxAddr : CStealthAddress) (fWritten : Bool) (s : KeyWallet) :
    Bool × KeyWallet :=
  let added := insertStealth sxAddr s.stealthAddresses
  let fOwned := sxAddr.scanSecret.length == ecSecretSize
  let fEncrypted := !s.fUseCrypto || (encryptSecret C s.vMasterKey (sxAddr.spendSecret.take 32)
    (E.hash256 sxAddr.spendPubkey)).isSome
  if fOwned && (s.isLocked || !fEncrypted) then
    (false,{ s with stealthAddresses := eraseStealth sxAddr added })
  else (fWritten,{ s with stealthAddresses := added })

/-- `ExtractDestination`, where it gives the id of a key. -/
def keyDestination (scriptPubKey : CScript) : Option Uint160 :=
  match solver scriptPubKey with
  | some (.pubKey,v::_) => some ((CPubKey.set v).getID E)
  | some (.pubKeyHash,v::_) => some (BitVec.ofNat 160 (SignMagnitude.value v))
  | _ => none

/-- The ephemeral key behind `OP_RETURN`, and the rest of the script. -/
def ephemeral (scriptPubKey : CScript) : Option (List UInt8 × CScript) :=
  match scriptPubKey.getOp with
  | none => none
  | some ((op,_),pc) =>
    if op ≠ .opReturn then none
    else
      match CScript.getOp pc with
      | none => none
      | some ((_,vchEphemPK),pc) => if vchEphemPK.length = 33 then some (vchEphemPK,pc) else none

structure Search where
  fMatch : Bool
  /-- where the iterator over the script of the ephemeral key stands -/
  rest : CScript
  wallet : KeyWallet

/-- The narration behind the ephemeral key; one that cannot be decrypted lets the search go on. -/
def readNarration (decrypts : List UInt8 → List UInt8 → List UInt8 → Bool)
    (sShared vchEphemPK : List UInt8) (rest : CScript) (s : KeyWallet) : Search :=
  match rest.getOp with
  | some ((.opReturn,_),pc) =>
    match CScript.getOp pc with
    | some ((_,vchENarr),pc) =>
      if vchENarr.isEmpty then ⟨true,pc,s⟩
      else ⟨decrypts sShared vchEphemPK vchENarr,pc,s⟩
    | none => ⟨true,pc,s⟩
  | some (_,pc) => ⟨true,pc,s⟩
  | none => ⟨true,rest,s⟩

def paidKey (vchEphemPK : List UInt8) (sx : CStealthAddress) : Option (List UInt8 × CPubKey) :=
  if sx.scanSecret.length ≠ ecSecretSize then none
  else
    match stealthSecret G sx.scanSecret vchEphemPK sx.spendPubkey with
    | none => none
    | some (sShared,pkExtracted) =>
      if (CPubKey.set pkExtracted).isValid then some (sShared,.set pkExtracted) else none

/-- What the search and its environment are given: how narrations decrypt, and which keys the
database takes. -/
structure Receipt where
  decrypts : List UInt8 → List UInt8 → List UInt8 → Bool
  fWritten : Uint160 → Bool

variable (R : Receipt)

/-- The payment is to an address of ours: its key is added, without a secret where the wallet
is locked. -/
def receiveStealth (vchEphemPK sShared : List UInt8) (cpkE : CPubKey) (sx : CStealthAddress)
    (rest : CScript) (s : KeyWallet) : Option Search :=
  if s.isLocked then
    match s.addCryptedKey E cpkE [] with
    | none => some (readNarration R.decrypts sShared vchEphemPK rest s)
    | some k =>
      let lockedSkMeta : CStealthKeyMetadata := ⟨.set vchEphemPK,.set sx.scanPubkey⟩
      some (readNarration R.decrypts sShared vchEphemPK rest { s with
        toCCryptoKeyStore := k
        mapStealthKeyMeta := s.mapStealthKeyMeta.insert (cpkE.getID E) lockedSkMeta })
  else if sx.spendSecret.length ≠ ecSecretSize then some ⟨false,rest,s⟩
  else
    match stealthSharedToSecretSpend G sShared sx.spendSecret with
    | none => some ⟨false,rest,s⟩
    | some sSpendR =>
      if (secretToPublicKey G sSpendR).isNone then some ⟨false,rest,s⟩
      else
        match CKey.set sSpendR true with
        | none => none
        | some ckey =>
          if !(ckey.getPubKey E).isValid then some ⟨false,rest,s⟩
          else
            let r := addKey E C ckey (R.fWritten ((ckey.getPubKey E).getID E)) s
            if r.1 then some (readNarration R.decrypts sShared vchEphemPK rest r.2)
            else some ⟨false,rest,r.2⟩

def searchAddresses (vchEphemPK : List UInt8) (ckidMatch : Uint160) :
    List CStealthAddress → CScript → KeyWallet → Option Search
  | [], rest, s => some ⟨false,rest,s⟩
  | sx::sxs, rest, s =>
    match paidKey G vchEphemPK sx with
    | none => searchAddresses vchEphemPK ckidMatch sxs rest s
    | some (sShared,cpkE) =>
      if cpkE.getID E ≠ ckidMatch then searchAddresses vchEphemPK ckidMatch sxs rest s
      else
        (receiveStealth G E C R vchEphemPK sShared cpkE sx rest s).bind fun r =>
          if r.fMatch then some r else searchAddresses vchEphemPK ckidMatch sxs r.rest r.wallet

def searchOutputs (vchEphemPK : List UInt8) : List CTxOut → CScript → KeyWallet → Option KeyWallet
  | [], _, s => some s
  | txoutB::vout, rest, s =>
    match keyDestination E txoutB.scriptPubKey with
    | none => searchOutputs vchEphemPK vout rest s
    | some ckidMatch =>
      if s.haveKey ckidMatch then searchOutputs vchEphemPK vout rest s
      else
        (searchAddresses G E C R vchEphemPK ckidMatch s.stealthAddresses rest s).bind fun r =>
          if r.fMatch then some r.wallet else searchOutputs vchEphemPK vout r.rest r.wallet

def searchTx (vout : List CTxOut) : List ℕ → KeyWallet → Option KeyWallet
  | [], s => some s
  | i::is, s =>
    match (vout[i]?).bind fun txout => ephemeral txout.scriptPubKey with
    | none => searchTx vout is s
    | some (vchEphemPK,rest) =>
      (searchOutputs G E C R vchEphemPK (vout.eraseIdx i) rest s).bind (searchTx vout is)

/-- `FindStealthTransactions`, as far as it changes the keys; none where `GetPubKey` asserts. -/
def findStealthTransactions (tx : CTransaction) (s : KeyWallet) : Option KeyWallet :=
  searchTx G E C R tx.vout (List.range tx.vout.length) s

end Stealth

end SwippCore.WalletKeys
