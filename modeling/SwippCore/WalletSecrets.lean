import SwippCore.WalletPassphrase

/-!
# Secrets in clear

Once a wallet is encrypted, no private key and no spend secret of a stealth address is to be
in clear in the file, and none in memory while the wallet is locked. Spend secrets are
decrypted in their place; to lock the wallet is to read the encrypted ones back from the file.
A read or a write that fails is passed over.
-/

set_option autoImplicit false

namespace SwippCore.WalletFile
open FinMap Key Stealth Crypter CCryptoKeyStore WalletKeys
open WalletUnlock (sealedEntry set_crypted)

def Owned (sx : CStealthAddress) : Prop := sx.scanSecret.length = ecSecretSize

def OwnedAt (s : FileWallet) (k : List UInt8) : Prop :=
  ∃ sx, s.stealthAddresses.lookup k = some sx ∧ Owned sx

section Secrets
variable {P : Type} (G : EcGroup P) (E : KeyEnv) (C : Cipher)

def SpendSecret (spendPubkey secret : List UInt8) : Prop :=
  secret.length = ecSecretSize ∧ secretToPublicKey G secret = some spendPubkey

def Clear (sx : CStealthAddress) : Prop := SpendSecret G sx.spendPubkey sx.spendSecret

def Sealed (sx : CStealthAddress) : Prop :=
  ∃ mk p, mk.length = walletCryptoKeySize ∧ SpendSecret G sx.spendPubkey p ∧
    sx.spendSecret = C.encrypt mk (ivBytes (E.hash256 sx.spendPubkey)) p

structure Secure (s : FileWallet) : Prop where
  keys : ∀ id, s.mapKeys.lookup id = none
  fileKeys : ∀ pub, s.file.key.lookup pub = none
  fileCrypted : ∀ pub c, s.file.ckey.lookup pub = some c → c = [] ∨
    ∃ mk key, mk.length = walletCryptoKeySize ∧ (pub,c) = sealedEntry E C mk key
  fileAddresses : ∀ k sx, s.file.sxAddr.lookup k = some sx → Owned sx → Sealed G E C sx
  locked : s.isLocked = true → s.vMasterKey = [] ∧
    ∀ k sx, s.stealthAddresses.lookup k = some sx → Owned sx → Sealed G E C sx

structure KeepsSecrets (e : Event) (s s' : FileWallet) : Prop where
  secure : s'.fUseCrypto = true → Secure G E C s'
  lock : ∀ o, e = .lock o → s.fUseCrypto = false → s'.fUseCrypto = false

end Secrets

section Conditions
variable {P : Type} (G : EcGroup P) (E : KeyEnv) (C : Cipher)

def ReadsBack (o : Outcomes) (s : FileWallet) : Prop := ∀ k, OwnedAt s k → o.read (.sxAddr k) = true

/-- A wallet that is not encrypted has a key when it is locked; one that is unlocked reads its
addresses back. -/
def LockOk (o : Outcomes) (s : FileWallet) : Prop :=
  (s.fUseCrypto = false → s.mapKeys.entries.isEmpty = false) ∧
  (s.fUseCrypto = true → s.isLocked = false → ReadsBack o s)

/-- An address that is there already has the same keys. One that is ours comes with its secret,
and is written where the wallet is encrypted. -/
def AddressOk (o : Outcomes) (sxAddr : CStealthAddress) (s : FileWallet) : Prop :=
  (Owned sxAddr ∧ s.isLocked = true) ∨
  ((∀ old, s.stealthAddresses.lookup sxAddr.scanPubkey = some old →
    (Owned old ↔ Owned sxAddr) ∧ (Owned old → old.spendPubkey = sxAddr.spendPubkey)) ∧
  (Owned sxAddr → Clear G sxAddr ∧ (s.fUseCrypto = true →
    s.stealthAddresses.lookup sxAddr.scanPubkey = none →
    tryEncrypt C o s.vMasterKey (sxAddr.spendSecret.take 32) (E.hash256 sxAddr.spendPubkey) ≠ none →
      o.written (.sxAddr sxAddr.scanPubkey) = true)))

/-- An encryption that is committed erases the clear keys of the file and writes the owned
addresses encrypted; they can be read back when the new key pool is there. -/
def CommitOk (pass : List UInt8) (e : Encrypting) (s : FileWallet) : Prop :=
  s.fUseCrypto = false → e.fTxnBegin = true → e.fTxnCommit = true → e.o.encrypted e.vMasterKey = true →
  setKeyFromPassphrase (failing C e.o) pass e.vchSalt e.nDeriveIterations e.nDerivationMethod ≠ none →
  (∀ pub, (s.file.key.lookup pub).isSome = true → e.o.erased (.key pub) = true) ∧
  (∀ k sx, s.stealthAddresses.lookup k = some sx → Owned sx →
    e.o.encrypted sx.spendSecret = true ∧ e.o.written (.sxAddr k) = true) ∧
  ReadsBack e.oPool s

def SecretsOk : Event → FileWallet → Prop
  | .addKey key _, s => s.fUseCrypto = false → ownID E key s
  | .addStealth sxAddr o, s => AddressOk G E C o sxAddr s
  | .lock o, s => LockOk o s
  | .encrypt pass e, s => CommitOk C pass e s
  | .change _ _ c, s => (s.fUseCrypto = false → s.mapKeys.entries.isEmpty = false) ∧
    (s.fUseCrypto = true → ReadsBack c.oLock s)
  | .restart, s => s.fUseCrypto = true → s.file.ckey.entries.isEmpty = false
  | _, _ => True

end Conditions

section Invariant
variable {P : Type} (G : EcGroup P) (E : KeyEnv) (C : Cipher)

structure Named (s : FileWallet) : Prop where
  memory : ∀ k sx, s.stealthAddresses.lookup k = some sx → sx.scanPubkey = k
  file : ∀ k sx, s.file.sxAddr.lookup k = some sx → sx.scanPubkey = k

structure ClearAddresses (s : FileWallet) : Prop where
  memory : ∀ k sx, s.stealthAddresses.lookup k = some sx → Owned sx → Clear G sx
  file : ∀ k sxFile, s.file.sxAddr.lookup k = some sxFile → ∃ sx, s.stealthAddresses.lookup k = some sx ∧
    (Owned sxFile ↔ Owned sx) ∧ (Owned sx → sxFile.spendPubkey = sx.spendPubkey ∧ Clear G sxFile)

structure Encrypted (s : FileWallet) : Prop where
  crypted : s.fUseCrypto = true
  secure : Secure G E C s
  kept : ∀ k sx, s.stealthAddresses.lookup k = some sx → Owned sx →
    ∃ sxFile, s.file.sxAddr.lookup k = some sxFile ∧ Owned sxFile ∧ sxFile.spendPubkey = sx.spendPubkey

def Guarded (s : FileWallet) : Prop :=
  Named s ∧ ((Plain E s ∧ ClearAddresses G s) ∨ Encrypted G E C s)

structure Follows (s s' : FileWallet) : Prop where
  named : Named s → Named s'
  encrypted : Encrypted G E C s → Encrypted G E C s'
  owned : ∀ k, OwnedAt s' k → OwnedAt s k

theorem follows_rfl (s : FileWallet) : Follows G E C s s := ⟨id,id,fun _ => id⟩

theorem follows_trans {s t : FileWallet} (u : FileWallet) (h : Follows G E C s t) (h' : Follows G E C t u) :
    Follows G E C s u :=
  ⟨fun hs => h'.named (h.named hs),fun hs => h'.encrypted (h.encrypted hs),
    fun k hk => h.owned k (h'.owned k hk)⟩

theorem reads_follow {o : Outcomes} {s s' : FileWallet} (h : Follows G E C s s')
    (hr : ReadsBack o s) :
    ReadsBack o s' := fun k hk => hr k (h.owned k hk)

theorem follows_same (s s' : FileWallet) (hc : s'.fUseCrypto = s.fUseCrypto) (hk : s'.mapKeys = s.mapKeys)
    (hm : s'.vMasterKey = s.vMasterKey) (ha : s'.stealthAddresses = s.stealthAddresses)
    (hkey : ∀ pub, s.file.key.lookup pub = none → s'.file.key.lookup pub = none)
    (hckey : ∀ pub c, s'.file.ckey.lookup pub = some c → s.file.ckey.lookup pub = some c ∨ c = [] ∨
      ∃ mk key, mk.length = walletCryptoKeySize ∧ (pub,c) = sealedEntry E C mk key)
    (hsx : s'.file.sxAddr = s.file.sxAddr) : Follows G E C s s' := by
  have hl : s'.isLocked = s.isLocked := by
    unfold CCryptoKeyStore.isLocked
    rw [hc, hm]
  refine ⟨fun h => ⟨?_,?_⟩,fun h => ⟨hc.trans h.crypted,⟨?_,?_,?_,?_,?_⟩,?_⟩,?_⟩
  · rw [ha]
    exact h.memory
  · rw [hsx]
    exact h.file
  · rw [hk]
    exact h.secure.keys
  · intro pub
    exact hkey pub (h.secure.fileKeys pub)
  · intro pub c hpub
    exact (hckey pub c hpub).elim (h.secure.fileCrypted pub c) id
  · rw [hsx]
    exact h.secure.fileAddresses
  · rw [hl, hm, ha]
    exact h.secure.locked
  · rw [ha, hsx]
    exact h.kept
  · intro k hk'
    unfold OwnedAt at hk' ⊢
    rw [← ha]
    exact hk'

end Invariant

section Encrypted
variable {P : Type} (G : EcGroup P) (E : KeyEnv) (C : Cipher)

variable (o : Outcomes)

theorem follows_add_crypted (pub : CPubKey) (c : List UInt8) {s : FileWallet}
    (h : s.fUseCrypto = true)
    (hc : c = [] ∨ ∃ mk key, mk.length = walletCryptoKeySize ∧ (pub,c) = sealedEntry E C mk key) :
    Follows G E C s (addCryptedKey E o pub c s).2 := by
  obtain ⟨b,d,heq,hd⟩ := add_crypted_cases E o pub c h
  rw [heq]
  rcases hd with ⟨_,rfl⟩ | ⟨_,rfl⟩
  · exact follows_same G E C _ _ rfl rfl rfl rfl (fun _ => id) (fun _ _ hp => Or.inl hp) rfl
  · refine follows_same G E C _ _ rfl rfl rfl rfl ?_ ?_ rfl
    · intro p hp
      dsimp only
      rw [erase_if_lookup]
      split
      · rfl
      · exact hp
    · intro p v hv
      dsimp only at hv
      rw [lookup_insert_if] at hv
      split at hv
      · rename_i hpub
        rw [hpub, ← Option.some.inj hv]
        exact Or.inr hc
      · exact Or.inl hv

variable {s : FileWallet}

theorem follows_add_key (key : CKey) (h : s.fUseCrypto = true) :
    Follows G E C s (addKeyPubKey E C o key s).2 := by
  unfold addKeyPubKey
  dsimp only
  rw [h, if_neg (by decide)]
  split
  · exact follows_rfl G E C s
  · split
    · exact follows_rfl G E C s
    · rename_i c hc
      obtain ⟨hmk,rfl⟩ := try_encrypt_some C o hc
      exact follows_add_crypted G E C o _ _ h (Or.inr ⟨s.vMasterKey,key,hmk,rfl⟩)

theorem add_key_crypted (key : CKey) (h : s.fUseCrypto = true) :
    (addKeyPubKey E C o key s).2.fUseCrypto = true := by
  unfold addKeyPubKey
  dsimp only
  rw [h, if_neg (by decide)]
  split
  · exact h
  · split
    · exact h
    · rename_i c _
      obtain ⟨b,d,heq,_⟩ := add_crypted_cases E o (key.getPubKey E) c h
      rw [heq]
      exact h

theorem follows_add_pool (keys : List CKey) (s : FileWallet) (h : s.fUseCrypto = true) :
    Follows G E C s (addPool E C o keys s).2 := by
  induction keys generalizing s with
  | nil => exact follows_rfl G E C s
  | cons key keys ih =>
    have hadd := follows_add_key G E C o key h
    unfold addPool
    dsimp only
    split
    · exact follows_trans G E C _ hadd (ih _ (add_key_crypted E C o key h))
    · exact hadd

theorem follows_receive (cpkE : CPubKey) (lockedSkMeta : CStealthKeyMetadata)
    (h : s.fUseCrypto = true) : Follows G E C s (receiveLocked E o cpkE lockedSkMeta s) := by
  unfold receiveLocked
  split
  · exact follows_rfl G E C s
  · split
    · have hadd := follows_add_crypted G E C o cpkE [] h (Or.inl rfl)
      apply follows_trans G E C _ hadd
      dsimp only
      unfold writeStealthKeyMeta
      split
      · exact follows_same G E C _ _ rfl rfl rfl rfl (fun _ => id) (fun _ _ hp => Or.inl hp) rfl
      · exact follows_same G E C _ _ rfl rfl rfl rfl (fun _ => id) (fun _ _ hp => Or.inl hp) rfl
    · exact follows_rfl G E C s

theorem follows_expand {o : Outcomes} {xs : List (CPubKey × List UInt8)} (s s' : FileWallet)
    (h : s.fUseCrypto = true) (hrun : expandKeys G E C o xs s = some s') : Follows G E C s s' := by
  induction xs generalizing s with
  | nil =>
    cases hrun
    exact follows_rfl G E C _
  | cons x xs ih =>
    obtain ⟨pubKey,vchCryptedSecret⟩ := x
    unfold expandKeys at hrun
    split at hrun
    · exact ih s h hrun
    · split at hrun
      · cases hrun
      · exact ih s h hrun
      · rename_i ckey _
        dsimp only at hrun
        have hadd := follows_add_key G E C o ckey h
        have hcrypted := add_key_crypted E C o ckey h
        obtain ⟨m,hmeta⟩ := erase_meta_cases o (pubKey.getID E) (addKeyPubKey E C o ckey s).2.file
        rw [hmeta] at hrun
        split at hrun
        · apply follows_trans G E C _ hadd
          have hsame := follows_same G E C (addKeyPubKey E C o ckey s).2
            { (addKeyPubKey E C o ckey s).2 with
              file := { (addKeyPubKey E C o ckey s).2.file with sxKeyMeta := m } }
            rfl rfl rfl rfl (fun _ => id) (fun _ _ hp => Or.inl hp) rfl
          exact follows_trans G E C _ hsame (ih _ hcrypted hrun)
        · exact follows_trans G E C _ hadd (ih _ hcrypted hrun)

theorem decrypt_keeps (C' : Cipher) (m : List UInt8) (sx : CStealthAddress) :
    ∃ secret, decryptStealth G E C' m sx = { sx with spendSecret := secret } := by
  unfold decryptStealth
  split
  · exact ⟨_,rfl⟩
  · split
    · exact ⟨_,rfl⟩
    · split
      · exact ⟨_,rfl⟩
      · split
        · exact ⟨_,rfl⟩
        · exact ⟨_,rfl⟩

theorem decrypt_without (C' : Cipher) (sx : CStealthAddress) : decryptStealth G E C' [] sx = sx := by
  have hnone : decryptSecret C' [] sx.spendSecret (E.hash256 sx.spendPubkey) = none := by
    unfold decryptSecret
    rw [if_neg (by decide)]
  unfold decryptStealth
  rw [hnone]
  split
  · rfl
  · rfl

theorem follows_open (C' : Cipher) (m : List UInt8) (hl : s.isLocked = true) :
    Follows G E C s (withMaster s m (mapValues (decryptStealth G E C' m) s.stealthAddresses)) := by
  have hback : ∀ k sx, (mapValues (decryptStealth G E C' m) s.stealthAddresses).lookup k = some sx →
      ∃ old secret, s.stealthAddresses.lookup k = some old ∧ decryptStealth G E C' m old = sx ∧
        sx = { old with spendSecret := secret } := by
    intro k sx hsx
    rw [lookup_map_values] at hsx
    obtain ⟨old,hold,hdec⟩ := Option.map_eq_some_iff.mp hsx
    obtain ⟨secret,hsecret⟩ := decrypt_keeps G E C' m old
    exact ⟨old,secret,hold,hdec,hdec.symm.trans hsecret⟩
  refine ⟨fun h => ⟨?_,h.file⟩,fun h => ⟨h.crypted,⟨h.secure.keys,h.secure.fileKeys,h.secure.fileCrypted,
    h.secure.fileAddresses,?_⟩,?_⟩,?_⟩
  · intro k sx hsx
    obtain ⟨old,secret,hold,_,rfl⟩ := hback k sx hsx
    exact h.memory k old hold
  · intro hl'
    have hm : m = [] := (locked_of_crypted (withMaster s m _) h.crypted).mp hl'
    subst hm
    refine ⟨rfl,?_⟩
    intro k sx hsx howned
    obtain ⟨old,_,hold,hdec,_⟩ := hback k sx hsx
    rw [decrypt_without] at hdec
    rw [← hdec] at howned ⊢
    exact (h.secure.locked hl).2 k old hold howned
  · intro k sx hsx howned
    obtain ⟨old,secret,hold,_,rfl⟩ := hback k sx hsx
    exact h.kept k old hold howned
  · rintro k ⟨sx,hsx,howned⟩
    obtain ⟨old,secret,hold,_,rfl⟩ := hback k sx hsx
    exact ⟨old,hold,howned⟩

theorem follows_unlock_addresses {o : Outcomes} {m : List UInt8} {s' : FileWallet}
    (hcrypted : s.fUseCrypto = true) (hl : s.isLocked = true)
    (hrun : unlockStealthAddresses G E C o m (withMaster s m s.stealthAddresses) = some s') :
    Follows G E C s s' :=
  follows_trans G E C _ (follows_open G E C (failing C o) m hl)
    (follows_expand G E C _ s' hcrypted hrun)

theorem store_unlock_frame {C' : Cipher} {m : List UInt8} {k k' : CCryptoKeyStore} {b : Bool}
    (h : k.fUseCrypto = true) (hrun : k.unlock E C' m = some (b,k')) :
    (b = false ∧ k' = k) ∨ (b = true ∧ k' = { k with vMasterKey := m }) := by
  unfold CCryptoKeyStore.unlock at hrun
  rw [set_crypted k h] at hrun
  dsimp only at hrun
  split at hrun
  · cases hrun
    exact Or.inr ⟨rfl,rfl⟩
  · split at hrun
    · cases hrun
      exact Or.inl ⟨rfl,rfl⟩
    · split at hrun
      · cases hrun
        exact Or.inl ⟨rfl,rfl⟩
      · split at hrun
        · cases hrun
        · split at hrun
          · cases hrun
            exact Or.inr ⟨rfl,rfl⟩
          · cases hrun
            exact Or.inl ⟨rfl,rfl⟩

theorem follows_unlock {o : Outcomes} {pass : List UInt8} {s' : FileWallet} {b : Bool}
    (h : s.fUseCrypto = true) (hrun : unlock G E C o pass s = some (b,s')) :
    Follows G E C s s' := by
  unfold unlock at hrun
  split at hrun
  · cases hrun
    exact follows_rfl G E C s
  · rename_i hl
    rw [Bool.not_eq_true, Bool.not_eq_false'] at hl
    split at hrun
    · obtain ⟨s₁,hs₁,heq⟩ := Option.map_eq_some_iff.mp hrun
      cases heq
      have hm := (locked_of_crypted s h).mp hl
      have hsame : withMaster s [] s.stealthAddresses = s := by
        unfold withMaster
        rw [← hm]
      rw [← hsame] at hs₁
      exact follows_unlock_addresses G E C h hl hs₁
    · split at hrun
      · cases hrun
        exact follows_rfl G E C s
      · rename_i m _
        split at hrun
        · cases hrun
        · rename_i k hk
          cases hrun
          rcases store_unlock_frame E h hk with ⟨_,rfl⟩ | ⟨hb,_⟩
          · exact follows_rfl G E C s
          · cases hb
        · rename_i k hk
          obtain ⟨s₁,hs₁,heq⟩ := Option.map_eq_some_iff.mp hrun
          cases heq
          rcases store_unlock_frame E h hk with ⟨hb,_⟩ | ⟨_,rfl⟩
          · cases hb
          · exact follows_unlock_addresses G E C h hl hs₁

end Encrypted

section Locking
variable {P : Type} (G : EcGroup P) (E : KeyEnv) (C : Cipher)

variable (o : Outcomes)

theorem reread_keeps (d : WalletDB) (sx : CStealthAddress) :
    ∃ secret, reread o d sx = { sx with spendSecret := secret } := by
  unfold reread
  split
  · exact ⟨_,rfl⟩
  · split
    · exact ⟨_,rfl⟩
    · exact ⟨_,rfl⟩

variable {s : FileWallet}

theorem reread_lookup {o : Outcomes} {k : List UInt8} {sx : CStealthAddress}
    (h : (mapValues (reread o s.file) s.stealthAddresses).lookup k = some sx) :
    ∃ old secret, s.stealthAddresses.lookup k = some old ∧ reread o s.file old = sx ∧
      sx = { old with spendSecret := secret } := by
  rw [lookup_map_values] at h
  obtain ⟨old,hold,hread⟩ := Option.map_eq_some_iff.mp h
  obtain ⟨secret,hsecret⟩ := reread_keeps o s.file old
  exact ⟨old,secret,hold,hread,hread.symm.trans hsecret⟩

theorem reread_owned (d : WalletDB) {sx : CStealthAddress} (h : Owned sx) :
    reread o d sx = match readStealthAddress o sx.scanPubkey d with
      | none => sx
      | some sxFile => { sx with spendSecret := sxFile.spendSecret } := by
  have hlen : ¬ sx.scanSecret.length < 32 := by
    unfold Owned ecSecretSize at h
    omega
  unfold reread
  exact (if_neg hlen).trans rfl

theorem encrypted_lock {o : Outcomes} (hn : Named s) (h : Encrypted G E C s)
    (hr : s.isLocked = false → ReadsBack o s) :
    Named (lock o s).2 ∧ Encrypted G E C (lock o s).2 := by
  cases hl : s.isLocked with
  | true =>
    rw [lock_locked o hl]
    exact ⟨hn,h⟩
  | false =>
    rw [lock_open_eq o h.crypted hl]
    refine ⟨⟨?_,hn.file⟩,h.crypted,⟨h.secure.keys,h.secure.fileKeys,h.secure.fileCrypted,
      h.secure.fileAddresses,fun _ => ⟨rfl,?_⟩⟩,?_⟩
    · intro k sx hsx
      obtain ⟨old,secret,hold,_,rfl⟩ := reread_lookup hsx
      exact hn.memory k old hold
    · intro k sx hsx howned
      obtain ⟨old,secret,hold,hread,heq⟩ := reread_lookup hsx
      have holdOwned : Owned old := by
        rw [heq] at howned
        exact howned
      obtain ⟨sxFile,hfile,hfileOwned,hpub⟩ := h.kept k old hold holdOwned
      obtain ⟨mk,p,hmk,hp,hsealed⟩ := h.secure.fileAddresses k sxFile hfile hfileOwned
      have hget : readStealthAddress o old.scanPubkey s.file = some sxFile := by
        unfold readStealthAddress
        rw [hn.memory k old hold, if_pos (hr hl k ⟨old,hold,holdOwned⟩), hfile]
      rw [reread_owned o s.file holdOwned, hget] at hread
      rw [← hread]
      refine ⟨mk,p,hmk,?_,?_⟩
      · rw [hpub] at hp
        exact hp
      · rw [hpub] at hsealed
        exact hsealed
    · intro k sx hsx howned
      obtain ⟨old,secret,hold,_,rfl⟩ := reread_lookup hsx
      exact h.kept k old hold howned

theorem owned_lock {o : Outcomes} (h : s.fUseCrypto = true) {k : List UInt8}
    (hk : OwnedAt (lock o s).2 k) : OwnedAt s k := by
  cases hl : s.isLocked with
  | true =>
    rw [lock_locked o hl] at hk
    exact hk
  | false =>
    rw [lock_open_eq o h hl] at hk
    obtain ⟨sx,hsx,howned⟩ := hk
    obtain ⟨old,secret,hold,_,rfl⟩ := reread_lookup hsx
    exact ⟨old,hold,howned⟩

theorem clear_lock (hn : Named s) (h : ClearAddresses G s) :
    Named { s with stealthAddresses := mapValues (reread o s.file) s.stealthAddresses } ∧
    ClearAddresses G { s with stealthAddresses := mapValues (reread o s.file) s.stealthAddresses } := by
  refine ⟨⟨?_,hn.file⟩,?_,?_⟩
  · intro k sx hsx
    obtain ⟨old,secret,hold,_,rfl⟩ := reread_lookup hsx
    exact hn.memory k old hold
  · intro k sx hsx howned
    obtain ⟨old,secret,hold,hread,heq⟩ := reread_lookup hsx
    have holdOwned : Owned old := by
      rw [heq] at howned
      exact howned
    rw [reread_owned o s.file holdOwned] at hread
    cases hget : readStealthAddress o old.scanPubkey s.file with
    | none =>
      rw [hget] at hread
      rw [← hread]
      exact h.memory k old hold holdOwned
    | some sxFile =>
      rw [hget] at hread
      rw [← hread]
      have hfile : s.file.sxAddr.lookup k = some sxFile := by
        unfold readStealthAddress at hget
        split at hget
        · rw [hn.memory k old hold] at hget
          exact hget
        · cases hget
      obtain ⟨y,hy,_,hclear⟩ := h.file k sxFile hfile
      rw [hold] at hy
      cases hy
      obtain ⟨hpub,hp⟩ := hclear holdOwned
      unfold Clear at hp ⊢
      rw [hpub] at hp
      exact hp
  · intro k sxFile hfile
    obtain ⟨old,hold,hiff,hclear⟩ := h.file k sxFile hfile
    obtain ⟨secret,hsecret⟩ := reread_keeps o s.file old
    refine ⟨{ old with spendSecret := secret },?_,hiff,hclear⟩
    dsimp only
    rw [lookup_map_values, hold, Option.map_some, hsecret]

end Locking

section Addresses
variable {P : Type} (G : EcGroup P) (E : KeyEnv) (C : Cipher)

variable (o : Outcomes)

variable {s : FileWallet}

theorem named_written (sx : CStealthAddress) (hn : Named s)
    (sxs : Dict (List UInt8) CStealthAddress)
    (hsxs : ∀ k y, sxs.lookup k = some y → s.stealthAddresses.lookup k = some y ∨ y.scanPubkey = k) :
    Named { s with stealthAddresses := sxs, file := (writeStealthAddress o sx s.file).2 } := by
  obtain ⟨recs,hrecs,hlook⟩ := write_address_spec o sx s.file
  rw [hrecs]
  constructor
  · intro k y hy
    exact (hsxs k y hy).elim (hn.memory k y) id
  · intro k y hy
    dsimp only at hy
    rw [hlook] at hy
    split at hy
    · rename_i hk
      rw [← Option.some.inj hy]
      exact hk.2.symm
    · exact hn.file k y hy

variable {sx : CStealthAddress}

theorem clear_written (h : ClearAddresses G s)
    {sxs : Dict (List UInt8) CStealthAddress}
    (hclear : ∀ k y, sxs.lookup k = some y → Owned y → Clear G y)
    (hstays : ∀ k y, s.stealthAddresses.lookup k = some y → sxs.lookup k = some y)
    (hsx : ∃ y, sxs.lookup sx.scanPubkey = some y ∧ (Owned sx ↔ Owned y) ∧
      (Owned y → sx.spendPubkey = y.spendPubkey ∧ Clear G sx)) :
    ClearAddresses G { s with stealthAddresses := sxs, file := (writeStealthAddress o sx s.file).2 } := by
  obtain ⟨recs,hrecs,hlook⟩ := write_address_spec o sx s.file
  rw [hrecs]
  refine ⟨hclear,?_⟩
  intro k sxFile hfile
  dsimp only at hfile ⊢
  rw [hlook] at hfile
  split at hfile
  · rename_i hk
    rw [← Option.some.inj hfile, hk.2]
    exact hsx
  · obtain ⟨y,hy,hrest⟩ := h.file k sxFile hfile
    exact ⟨y,hstays k y hy,hrest⟩

theorem encrypted_foreign (hsx : ¬ Owned sx)
    (h : Encrypted G E C s) {sxs : Dict (List UInt8) CStealthAddress}
    (hsxs : ∀ k y, sxs.lookup k = some y → Owned y →
      k ≠ sx.scanPubkey ∧ s.stealthAddresses.lookup k = some y) :
    Encrypted G E C { s with stealthAddresses := sxs, file := (writeStealthAddress o sx s.file).2 } := by
  obtain ⟨recs,hrecs,hlook⟩ := write_address_spec o sx s.file
  rw [hrecs]
  refine ⟨h.crypted,⟨h.secure.keys,h.secure.fileKeys,h.secure.fileCrypted,?_,fun hl => ?_⟩,?_⟩
  · intro k y hy howned
    dsimp only at hy
    rw [hlook] at hy
    split at hy
    · rw [← Option.some.inj hy] at howned
      exact absurd howned hsx
    · exact h.secure.fileAddresses k y hy howned
  · obtain ⟨hm,hlocked⟩ := h.secure.locked hl
    exact ⟨hm,fun k y hy howned => hlocked k y (hsxs k y hy howned).2 howned⟩
  · intro k y hy howned
    obtain ⟨hk,hold⟩ := hsxs k y hy howned
    obtain ⟨sxFile,hfile,hrest⟩ := h.kept k y hold howned
    refine ⟨sxFile,?_,hrest⟩
    dsimp only
    rw [hlook, if_neg fun hw => hk hw.2]
    exact hfile

theorem insert_new_cases {k : List UInt8} {y : CStealthAddress}
    (h : (FinMap.insertNew s.stealthAddresses sx.scanPubkey sx).lookup k = some y) :
    (k = sx.scanPubkey ∧ s.stealthAddresses.lookup sx.scanPubkey = none ∧ y = sx) ∨
      s.stealthAddresses.lookup k = some y := by
  rw [lookup_insert_new] at h
  split at h
  · rename_i hk
    exact Or.inl ⟨hk.1,hk.2,(Option.some.inj h).symm⟩
  · exact Or.inr h

theorem insert_new_named (s : FileWallet) (sx : CStealthAddress) (k : List UInt8) (y : CStealthAddress)
    (h : (FinMap.insertNew s.stealthAddresses sx.scanPubkey sx).lookup k = some y) :
    s.stealthAddresses.lookup k = some y ∨ y.scanPubkey = k := by
  rcases insert_new_cases h with ⟨hk,_,rfl⟩ | hy
  · exact Or.inr hk.symm
  · exact Or.inl hy

theorem clear_add_stealth {o : Outcomes} {sxAddr : CStealthAddress} (hn : Named s)
    (hplain : s.fUseCrypto = false) (h : ClearAddresses G s) (hok : AddressOk G E C o sxAddr s) :
    Named (addStealthAddress E C o sxAddr s).2 ∧ ClearAddresses G (addStealthAddress E C o sxAddr s).2 := by
  have hopen := plain_open hplain
  obtain ⟨hsame,hown⟩ := hok.resolve_left fun hl => by rw [hopen] at hl; cases hl.2
  have hadded : (addStealthAddress E C o sxAddr s).2 = { s with
      stealthAddresses := FinMap.insertNew s.stealthAddresses sxAddr.scanPubkey sxAddr
      file := (writeStealthAddress o sxAddr s.file).2 } := by
    unfold addStealthAddress
    rw [hopen, hplain]
    dsimp only
    split
    · rfl
    · rfl
  rw [hadded]
  refine ⟨named_written o sxAddr hn _ (insert_new_named s sxAddr),clear_written G o h ?_ ?_ ?_⟩
  · intro k y hy howned
    rcases insert_new_cases hy with ⟨_,_,rfl⟩ | hy
    · exact (hown howned).1
    · exact h.memory k y hy howned
  · intro k y hy
    rw [lookup_insert_new, if_neg, hy]
    rintro ⟨rfl,hnone⟩
    rw [hy] at hnone
    cases hnone
  · rw [lookup_insert_new]
    cases hold : s.stealthAddresses.lookup sxAddr.scanPubkey with
    | none => exact ⟨sxAddr,if_pos ⟨rfl,rfl⟩,Iff.rfl,fun ho => ⟨rfl,(hown ho).1⟩⟩
    | some old =>
      obtain ⟨hiff,hpub⟩ := hsame old hold
      refine ⟨old,by rw [if_neg fun hc => by cases hc.2],hiff.symm,fun ho => ⟨(hpub ho).symm,?_⟩⟩
      exact (hown (hiff.mp ho)).1

theorem encrypted_add_stealth {o : Outcomes} {sxAddr : CStealthAddress} (hn : Named s)
    (h : Encrypted G E C s) (hok : AddressOk G E C o sxAddr s) :
    Named (addStealthAddress E C o sxAddr s).2 ∧ Encrypted G E C (addStealthAddress E C o sxAddr s).2 := by
  have hdropped : Named { s with stealthAddresses := s.stealthAddresses.erase sxAddr.scanPubkey } ∧
      Encrypted G E C { s with stealthAddresses := s.stealthAddresses.erase sxAddr.scanPubkey } := by
    have hold : ∀ k y, (s.stealthAddresses.erase sxAddr.scanPubkey).lookup k = some y →
        s.stealthAddresses.lookup k = some y := by
      intro k y hy
      rw [lookup_erase_if] at hy
      split at hy
      · cases hy
      · exact hy
    refine ⟨⟨fun k y hy => hn.memory k y (hold k y hy),hn.file⟩,h.crypted,⟨h.secure.keys,h.secure.fileKeys,
      h.secure.fileCrypted,h.secure.fileAddresses,fun hl => ?_⟩,fun k y hy => h.kept k y (hold k y hy)⟩
    obtain ⟨hm,hlocked⟩ := h.secure.locked hl
    exact ⟨hm,fun k y hy => hlocked k y (hold k y hy)⟩
  unfold addStealthAddress
  dsimp only
  split
  · rename_i hforeign
    obtain ⟨hsame,_⟩ := hok.resolve_left fun hl => hforeign hl.1
    refine ⟨named_written o sxAddr hn _ (insert_new_named s sxAddr),
      encrypted_foreign G E C o hforeign h ?_⟩
    intro k y hy howned
    rcases insert_new_cases hy with ⟨_,_,rfl⟩ | hy
    · exact absurd howned hforeign
    · refine ⟨?_,hy⟩
      rintro rfl
      exact hforeign ((hsame y hy).1.mp howned)
  · rename_i hours
    rw [not_not] at hours
    split
    · exact hdropped
    · rename_i hopen
      rw [h.crypted, Bool.not_true, if_neg (by decide)]
      obtain ⟨hsame,hown⟩ := hok.resolve_left fun hl => hopen hl.2
      obtain ⟨hclear,hwritten⟩ := hown hours
      split
      · exact hdropped
      · rename_i c hc
        have hw := fun hnone => hwritten h.crypted hnone (by rw [hc]; exact Option.some_ne_none c)
        obtain ⟨hmk,hc⟩ := try_encrypt_some C o hc
        have htake : sxAddr.spendSecret.take 32 = sxAddr.spendSecret :=
          List.take_of_length_le (Nat.le_of_eq hclear.1)
        rw [htake] at hc
        have hsealed : Sealed G E C { sxAddr with spendSecret := c } :=
          ⟨s.vMasterKey,sxAddr.spendSecret,hmk,hclear,hc⟩
        refine ⟨named_written o { sxAddr with spendSecret := c } hn _ (insert_new_named s sxAddr),?_⟩
        obtain ⟨recs,hrecs,hlook⟩ := write_address_spec o { sxAddr with spendSecret := c } s.file
        rw [hrecs]
        refine ⟨h.crypted,⟨h.secure.keys,h.secure.fileKeys,h.secure.fileCrypted,?_,
          fun hl => absurd hl hopen⟩,?_⟩
        · intro k y hy howned
          dsimp only at hy
          rw [hlook] at hy
          split at hy
          · rw [← Option.some.inj hy]
            exact hsealed
          · exact h.secure.fileAddresses k y hy howned
        · intro k y hy howned
          dsimp only
          rw [hlook]
          rcases insert_new_cases hy with ⟨rfl,hnone,rfl⟩ | hy
          · exact ⟨_,if_pos ⟨hw hnone,rfl⟩,hours,rfl⟩
          · obtain ⟨sxFile,hfile,hrest⟩ := h.kept k y hy howned
            split
            · rename_i hk
              rw [hk.2] at hy
              exact ⟨_,rfl,hours,((hsame y hy).2 howned).symm⟩
            · exact ⟨sxFile,hfile,hrest⟩

theorem guarded_foreign (hsx : ¬ Owned sx) (h : Guarded G E C s)
    (sxs : Dict (List UInt8) CStealthAddress)
    (hsxs : ∀ k, sxs.lookup k = if k = sx.scanPubkey then some sx else s.stealthAddresses.lookup k)
    (hold : ∀ y, s.stealthAddresses.lookup sx.scanPubkey = some y → y = sx) :
    Guarded G E C { s with stealthAddresses := sxs, file := (writeStealthAddress o sx s.file).2 } := by
  have hcases : ∀ k y, sxs.lookup k = some y → (k = sx.scanPubkey ∧ y = sx) ∨
      (k ≠ sx.scanPubkey ∧ s.stealthAddresses.lookup k = some y) := by
    intro k y hy
    rw [hsxs] at hy
    split at hy
    · rename_i hk
      exact Or.inl ⟨hk,(Option.some.inj hy).symm⟩
    · rename_i hk
      exact Or.inr ⟨hk,hy⟩
  obtain ⟨hn,hrest⟩ := h
  refine ⟨named_written o sx hn sxs ?_,?_⟩
  · intro k y hy
    rcases hcases k y hy with ⟨rfl,rfl⟩ | ⟨_,hy⟩
    · exact Or.inr rfl
    · exact Or.inl hy
  · rcases hrest with ⟨hp,hc⟩ | he
    · refine Or.inl ⟨plain_same_keys E hp ⟨rfl,rfl,(write_address_spec o sx s.file).imp fun _ => And.left⟩,
        clear_written G o hc ?_ ?_ ⟨sx,?_,Iff.rfl,fun ho => absurd ho hsx⟩⟩
      · intro k y hy howned
        rcases hcases k y hy with ⟨_,rfl⟩ | ⟨_,hy⟩
        · exact absurd howned hsx
        · exact hc.memory k y hy howned
      · intro k y hy
        rw [hsxs]
        split
        · rename_i hk
          rw [hk] at hy
          rw [hold y hy]
        · exact hy
      · rw [hsxs, if_pos rfl]
    · refine Or.inr (encrypted_foreign G E C o hsx he ?_)
      intro k y hy howned
      rcases hcases k y hy with ⟨_,rfl⟩ | hy
      · exact absurd howned hsx
      · exact hy

theorem guarded_update (scanPubkey spendPubkey : List UInt8) (fSameLabel addIfNotExist : Bool)
    (h : Guarded G E C s) :
    Guarded G E C (updateStealthAddress o scanPubkey spendPubkey fSameLabel addIfNotExist s).2 := by
  unfold updateStealthAddress
  split
  · rename_i hnone
    split
    · apply guarded_foreign G E C o _ h
      · exact fun k => lookup_insert_if _ _ _ _
      · intro y hy
        exact absurd (hnone.symm.trans hy) (Option.some_ne_none y).symm
      · exact Nat.noConfusion
    · exact h
  · rename_i sxFound hfound
    split
    · exact h
    · split
      · exact h
      · rename_i hforeign
        have hname := h.1.memory scanPubkey sxFound hfound
        rw [← hname] at hfound
        apply guarded_foreign G E C o hforeign h
        · intro k
          split
          · rename_i hk
            rw [hk]
            exact hfound
          · rfl
        · intro y hy
          exact Option.some.inj (hy.symm.trans hfound)

end Addresses

section Encrypting
variable {P : Type} (G : EcGroup P) (E : KeyEnv) (C : Cipher)

structure Halfway (s₀ : FileWallet) (xs : List (Sigma fun _ : List UInt8 => CStealthAddress))
    (s : FileWallet) : Prop where
  named : Named s
  nodup : (xs.map Sigma.fst).Nodup
  toCome : ∀ k sx, ⟨k,sx⟩ ∈ xs → s.stealthAddresses.lookup k = some sx ∧ (Owned sx → Clear G sx)
  memory : ∀ k sx, s.stealthAddresses.lookup k = some sx → Owned sx → ⟨k,sx⟩ ∈ xs ∨
    (Sealed G E C sx ∧ s.file.sxAddr.lookup k = some sx)
  file : ∀ k sxFile, s.file.sxAddr.lookup k = some sxFile → Owned sxFile → Sealed G E C sxFile ∨
    ∃ sx, ⟨k,sx⟩ ∈ xs ∧ Owned sx
  owned : ∀ k, OwnedAt s k → OwnedAt s₀ k

variable {s : FileWallet} {xs : List (Sigma fun _ : List UInt8 => CStealthAddress)}

theorem halfway_foreign {s₀ : FileWallet} {k : List UInt8} {sx : CStealthAddress}
    (h : Halfway G E C s₀ (⟨k,sx⟩::xs) s) (hsx : ¬ Owned sx) : Halfway G E C s₀ xs s := by
  refine ⟨h.named,(List.nodup_cons.mp h.nodup).2,fun j y hy => h.toCome j y (List.mem_cons_of_mem _ hy),
    ?_,?_,h.owned⟩
  · intro j y hy howned
    refine (h.memory j y hy howned).imp (fun hmem => ?_) id
    rcases List.mem_cons.mp hmem with heq | hmem
    · cases heq
      exact absurd howned hsx
    · exact hmem
  · intro j y hy howned
    refine (h.file j y hy howned).imp id ?_
    rintro ⟨z,hz,hzOwned⟩
    rcases List.mem_cons.mp hz with heq | hmem
    · cases heq
      exact absurd hzOwned hsx
    · exact ⟨z,hmem,hzOwned⟩

theorem halfway_sealed (o : Outcomes) {s₀ : FileWallet} {k : List UInt8} {sx : CStealthAddress}
    (c : List UInt8) (h : Halfway G E C s₀ (⟨k,sx⟩::xs) s)
    (hsealed : Owned sx → Sealed G E C { sx with spendSecret := c })
    (hwritten : Owned sx → o.written (.sxAddr k) = true) :
    Halfway G E C s₀ xs { s with
      stealthAddresses := s.stealthAddresses.insert k { sx with spendSecret := c }
      file := (writeStealthAddress o { sx with spendSecret := c } s.file).2 } := by
  obtain ⟨hlook,_⟩ := h.toCome k sx List.mem_cons_self
  have hk : sx.scanPubkey = k := h.named.memory k sx hlook
  subst hk
  obtain ⟨hnotin,hnodup⟩ := List.nodup_cons.mp h.nodup
  have hne : ∀ j y, ⟨j,y⟩ ∈ xs → j ≠ sx.scanPubkey := by
    intro j y hy hj
    exact hnotin (List.mem_map.mpr ⟨⟨j,y⟩,hy,hj⟩)
  have hnamed := named_written o { sx with spendSecret := c } h.named
    (s.stealthAddresses.insert sx.scanPubkey { sx with spendSecret := c }) fun j y hy => by
      rw [lookup_insert_if] at hy
      split at hy
      · rename_i hj
        rw [← Option.some.inj hy]
        exact Or.inr hj.symm
      · exact Or.inl hy
  obtain ⟨recs,hrecs,hfile⟩ := write_address_spec o { sx with spendSecret := c } s.file
  rw [hrecs] at hnamed ⊢
  dsimp only at hfile
  refine ⟨hnamed,hnodup,?_,?_,?_,?_⟩
  · intro j y hy
    dsimp only
    rw [lookup_insert_if, if_neg (hne j y hy)]
    exact h.toCome j y (List.mem_cons_of_mem _ hy)
  · intro j y hy howned
    dsimp only at hy ⊢
    rw [lookup_insert_if] at hy
    rw [hfile]
    split at hy
    · rename_i hj
      have hsame := Option.some.inj hy
      rw [← hsame] at howned
      rw [← hsame, if_pos ⟨hwritten howned,hj⟩]
      exact Or.inr ⟨hsealed howned,rfl⟩
    · rename_i hj
      rw [if_neg fun hw => hj hw.2]
      refine (h.memory j y hy howned).imp (fun hmem => ?_) id
      rcases List.mem_cons.mp hmem with heq | hmem
      · cases heq
        exact absurd rfl hj
      · exact hmem
  · intro j y hy howned
    dsimp only at hy
    rw [hfile] at hy
    split at hy
    · rw [← Option.some.inj hy] at howned ⊢
      exact Or.inl (hsealed howned)
    · rename_i hj
      refine (h.file j y hy howned).imp id ?_
      rintro ⟨z,hz,hzOwned⟩
      rcases List.mem_cons.mp hz with heq | hmem
      · cases heq
        exact absurd ⟨hwritten hzOwned,rfl⟩ hj
      · exact ⟨z,hmem,hzOwned⟩
  · rintro j ⟨y,hy,howned⟩
    apply h.owned j
    dsimp only at hy
    rw [lookup_insert_if] at hy
    split at hy
    · rename_i hj
      rw [← Option.some.inj hy] at howned
      rw [hj]
      exact ⟨sx,hlook,howned⟩
    · exact ⟨y,hy,howned⟩

theorem halfway_run (o : Outcomes) {mk : List UInt8} (hmk : mk.length = walletCryptoKeySize)
    {s₀ : FileWallet} (s : FileWallet)
    (hok : ∀ k sx, ⟨k,sx⟩ ∈ xs → Owned sx →
      o.encrypted sx.spendSecret = true ∧ o.written (.sxAddr k) = true)
    (h : Halfway G E C s₀ xs s) : Halfway G E C s₀ [] (encryptAddresses E C o mk xs s) := by
  induction xs generalizing s with
  | nil => exact h
  | cons x xs ih =>
    obtain ⟨k,sx⟩ := x
    have hokRest : ∀ j y, ⟨j,y⟩ ∈ xs → Owned y →
        o.encrypted y.spendSecret = true ∧ o.written (.sxAddr j) = true :=
      fun j y hy => hok j y (List.mem_cons_of_mem _ hy)
    have htake : Owned sx → sx.spendSecret.take 32 = sx.spendSecret := fun howned =>
      List.take_of_length_le (Nat.le_of_eq ((h.toCome k sx List.mem_cons_self).2 howned).1)
    unfold encryptAddresses
    split
    · rename_i hshort
      apply ih s hokRest (halfway_foreign G E C h _)
      intro howned
      unfold Owned ecSecretSize at howned
      omega
    · split
      · rename_i hfails
        apply ih s hokRest (halfway_foreign G E C h _)
        intro howned
        unfold tryEncrypt encryptSecret at hfails
        rw [htake howned, if_pos (hok k sx List.mem_cons_self howned).1, if_pos hmk] at hfails
        cases hfails
      · rename_i c hc
        apply ih _ hokRest
        apply halfway_sealed G E C o c h
        · intro howned
          obtain ⟨_,hc⟩ := try_encrypt_some C o hc
          rw [htake howned] at hc
          exact ⟨mk,sx.spendSecret,hmk,(h.toCome k sx List.mem_cons_self).2 howned,hc⟩
        · exact fun howned => (hok k sx List.mem_cons_self howned).2

theorem halfway_start (hn : Named s) (h : ClearAddresses G s) :
    Halfway G E C s (inOrder leScan s.stealthAddresses) s := by
  refine ⟨hn,?_,?_,?_,?_,fun _ => id⟩
  · exact ((in_order_perm leScan s.stealthAddresses).map Sigma.fst).nodup_iff.mpr
      s.stealthAddresses.nodupKeys
  · intro k sx hmem
    have hlook := (mem_in_order _ _ _ _).mp hmem
    exact ⟨hlook,h.memory k sx hlook⟩
  · intro k sx hsx _
    exact Or.inl ((mem_in_order _ _ _ _).mpr hsx)
  · intro k sxFile hfile howned
    obtain ⟨sx,hsx,hiff,_⟩ := h.file k sxFile hfile
    exact Or.inr ⟨sx,(mem_in_order _ _ _ _).mpr hsx,hiff.mp howned⟩

variable {e : Encrypting}

theorem commit_encrypted {x : List UInt8 × List UInt8} {s₁ : FileWallet}
    (hn : Named s) (hp : Plain E s) (hc : ClearAddresses G s)
    (herased : ∀ pub, (s.file.key.lookup pub).isSome = true → e.o.erased (.key pub) = true)
    (haddresses : ∀ k sx, s.stealthAddresses.lookup k = some sx → Owned sx →
      e.o.encrypted sx.spendSecret = true ∧ e.o.written (.sxAddr k) = true)
    (hrun : encryptKeys E C e.o e.vMasterKey (begun C e x s) = some s₁) :
    Named (encryptAddresses E C e.o e.vMasterKey (inOrder leScan s₁.stealthAddresses) s₁) ∧
    Encrypted G E C (encryptAddresses E C e.o e.vMasterKey (inOrder leScan s₁.stealthAddresses) s₁) ∧
    (encryptAddresses E C e.o e.vMasterKey (inOrder leScan s₁.stealthAddresses) s₁).isLocked = true ∧
    ∀ k, OwnedAt (encryptAddresses E C e.o e.vMasterKey (inOrder leScan s₁.stealthAddresses) s₁) k →
      OwnedAt s k := by
  obtain ⟨t,hall,rfl⟩ := encrypt_keys_cases E C hrun
  have hbegun : (begun C e x s).file = { s.file with mkey := (begun C e x s).file.mkey } := by
    unfold begun writeMasterKey
    dsimp only
    split
    · rfl
    · rfl
  have hfileKey : (begun C e x s).file.key = s.file.key := by rw [hbegun]
  have hfileAddr : t.file.sxAddr = s.file.sxAddr := by
    rw [hall.frame]
    dsimp only
    rw [hbegun]
  have hfileCrypted : (begun C e x s).file.ckey = s.file.ckey := by rw [hbegun]
  have hmemory : t.stealthAddresses = s.stealthAddresses := by
    rw [hall.frame]
    rfl
  have hmaster : t.vMasterKey = [] := by
    rw [hall.frame]
    exact hp.master
  have hcrypted : t.fUseCrypto = true := by rw [hall.frame]
  dsimp only
  have hhalf : Halfway G E C s (inOrder leScan t.stealthAddresses) { t with mapKeys := ∅ } := by
    have hstart := halfway_start G E C hn hc
    rw [← hmemory] at hstart
    refine ⟨⟨?_,?_⟩,hstart.nodup,?_,?_,?_,?_⟩
    · dsimp only
      rw [hmemory]
      exact hn.memory
    · dsimp only
      rw [hfileAddr]
      exact hn.file
    · have htoCome := hstart.toCome
      rw [← hmemory] at htoCome
      exact htoCome
    · have hmem := hstart.memory
      rw [← hmemory, ← hfileAddr] at hmem
      exact hmem
    · have hfile := hstart.file
      rw [← hfileAddr] at hfile
      exact hfile
    · unfold OwnedAt
      dsimp only
      rw [hmemory]
      exact fun _ => id
  have hdone := halfway_run G E C e.o e.drawn _
    (fun k sx hmem => haddresses k sx (by
      rw [← hmemory]
      exact (mem_in_order _ _ _ _).mp hmem)) hhalf
  obtain ⟨sxs,recs,hframe⟩ := encrypt_addresses_frame E C e.o e.vMasterKey
    (inOrder leScan t.stealthAddresses) { t with mapKeys := ∅ }
  rw [hframe] at hdone ⊢
  have hsealed : ∀ k sx, sxs.lookup k = some sx → Owned sx → Sealed G E C sx ∧ recs.lookup k = some sx := by
    intro k sx hsx howned
    exact (hdone.memory k sx hsx howned).resolve_left List.not_mem_nil
  refine ⟨hdone.named,⟨hcrypted,⟨fun _ => rfl,?_,?_,?_,fun _ => ⟨hmaster,fun k sx hsx howned =>
    (hsealed k sx hsx howned).1⟩⟩,?_⟩,?_,hdone.owned⟩
  · intro pub
    apply file_keys_erased E C hall
    · rw [hfileKey]
      exact hp.fileKeys
    · rw [hfileKey]
      exact herased
  · intro pub c hpub
    rcases hall.fileEntries pub c hpub with hold | ⟨key,hkey⟩
    · dsimp only at hold
      rw [hfileCrypted, hp.fileCrypted pub] at hold
      cases hold
    · exact Or.inr ⟨e.vMasterKey,key,e.drawn,hkey⟩
  · intro k sxFile hfile howned
    rcases hdone.file k sxFile hfile howned with hs | ⟨_,hmem,_⟩
    · exact hs
    · exact absurd hmem List.not_mem_nil
  · intro k sx hsx howned
    exact ⟨sx,(hsealed k sx hsx howned).2,howned,rfl⟩
  · exact (locked_of_crypted _ hcrypted).mpr hmaster

section
variable {pass : List UInt8} {s' : FileWallet} {b : Option Bool}

theorem renew_encrypted (hn : Named s)
    (h : Encrypted G E C s) (hl : s.isLocked = true) (hr : ReadsBack e.oPool s)
    (hrun : renewPool G E C pass e s = some (b,s')) : Named s' ∧ Encrypted G E C s' := by
  unfold renewPool at hrun
  rw [lock_locked e.oPool hl] at hrun
  dsimp only at hrun
  split at hrun
  · cases hrun
  · rename_i f s₁ hunlock
    have hopen := follows_unlock G E C h.crypted hunlock
    have h₁ := hopen.encrypted h
    split at hrun
    · cases hrun
      exact ⟨hopen.named hn,h₁⟩
    · have hpool := follows_trans G E C _ hopen (follows_add_pool G E C e.oPool e.pool s₁ h₁.crypted)
      split at hrun
      · cases hrun
        exact encrypted_lock G E C (hpool.named hn) (hpool.encrypted h) fun _ =>
          reads_follow G E C hpool hr
      · cases hrun
        exact ⟨hpool.named hn,hpool.encrypted h⟩

theorem guarded_encrypt
    (h : Guarded G E C s) (hok : CommitOk C pass e s)
    (hrun : encryptWallet G E C pass e s = some (b,s')) : Guarded G E C s' := by
  obtain ⟨hn,hrest⟩ := h
  rcases encrypt_wallet_cases G E C hrun with ⟨rfl,rfl⟩ |
    ⟨x,hx,hplain,henc,⟨_,_,rfl⟩ | ⟨hbegin,hcommit,s₁,hs₁,hrenew⟩⟩
  · exact ⟨hn,hrest⟩
  · obtain ⟨hp,hc⟩ := hrest.resolve_right fun he => absurd (hplain.symm.trans he.crypted) (by decide)
    exact ⟨⟨hn.memory,hn.file⟩,Or.inl ⟨⟨hp.plain,hp.master,hp.crypted,hp.fileCrypted,hp.ids,hp.fileKeys⟩,
      ⟨hc.memory,hc.file⟩⟩⟩
  · obtain ⟨hp,hc⟩ := hrest.resolve_right fun he => absurd (hplain.symm.trans he.crypted) (by decide)
    obtain ⟨herased,haddresses,hreads⟩ := hok hplain hbegin hcommit henc (by rw [hx]; exact Option.some_ne_none x)
    obtain ⟨hn₂,h₂,hl,howned⟩ := commit_encrypted G E C hn hp hc herased haddresses hs₁
    obtain ⟨hn',h'⟩ := renew_encrypted G E C hn₂ h₂ hl
      (fun k hk => hreads k (howned k hk)) hrenew
    exact ⟨hn',Or.inr h'⟩

end

end Encrypting

section Steps
variable {P : Type} (G : EcGroup P) (E : KeyEnv) (C : Cipher)

variable {s : FileWallet}

theorem guarded_add_key (o : Outcomes) {key : CKey} (h : Guarded G E C s)
    (hok : s.fUseCrypto = false → ownID E key s) : Guarded G E C (addKeyPubKey E C o key s).2 := by
  obtain ⟨hn,⟨hp,hc⟩ | he⟩ := h
  · have hframe : ∃ keys file, (addKeyPubKey E C o key s).2 =
        { s with mapKeys := keys, file := { s.file with key := file } } := by
      unfold addKeyPubKey
      dsimp only
      rw [hp.plain, if_pos (by decide)]
      rcases write_key_cases o (key.getPubKey E) key s.file with hw | hw
      · rw [hw]
        exact ⟨_,s.file.key,rfl⟩
      · rw [hw]
        exact ⟨_,_,rfl⟩
    have hplain := plain_add_key E C o hp (hok hp.plain)
    obtain ⟨keys,file,hframe⟩ := hframe
    rw [hframe] at hplain ⊢
    exact ⟨⟨hn.memory,hn.file⟩,Or.inl ⟨hplain,hc.memory,hc.file⟩⟩
  · have hadd := follows_add_key G E C o key he.crypted
    exact ⟨hadd.named hn,Or.inr (hadd.encrypted he)⟩

theorem guarded_lock {o : Outcomes} (h : Guarded G E C s) (hok : LockOk o s) :
    Guarded G E C (lock o s).2 ∧ (lock o s).2.fUseCrypto = s.fUseCrypto := by
  obtain ⟨hn,⟨hp,hc⟩ | he⟩ := h
  · rw [lock_plain_eq o hp.plain (hok.1 hp.plain)]
    obtain ⟨hn',hc'⟩ := clear_lock G o hn hc
    exact ⟨⟨hn',Or.inl ⟨plain_addresses E hp _,hc'⟩⟩,rfl⟩
  · obtain ⟨hn',he'⟩ := encrypted_lock G E C hn he (hok.2 he.crypted)
    exact ⟨⟨hn',Or.inr he'⟩,he'.crypted.trans he.crypted.symm⟩

variable {s' : FileWallet}

section
variable {old new : List UInt8} {c : Change} {fWasLocked : Bool}
  {rs : List (Sigma fun _ : ℕ => CMasterKey)} {b : Bool}

theorem change_records_plain (h : s.fUseCrypto = false)
    (hkeys : s.mapKeys.entries.isEmpty = false)
    (hrun : changeRecords G E C old new c fWasLocked rs s = some (b,s')) : s' = s := by
  induction rs with
  | nil =>
    cases hrun
    rfl
  | cons r rs ih =>
    have hrefused : ∀ m, s.toCCryptoKeyStore.unlock E (failing C c.o) m =
        some (false,s.toCCryptoKeyStore) := by
      intro m
      unfold CCryptoKeyStore.unlock CCryptoKeyStore.setCrypted
      rw [h, if_neg (by decide), hkeys, if_pos (by decide)]
    unfold changeRecords at hrun
    split at hrun
    · cases hrun
      rfl
    · rename_i m _
      rw [hrefused m] at hrun
      exact ih hrun

theorem change_records_encrypted (hn : Named s) (h : Encrypted G E C s)
    (hl : s.isLocked = true) (hr : ReadsBack c.oLock s)
    (hrun : changeRecords G E C old new c fWasLocked rs s = some (b,s')) :
    Named s' ∧ Encrypted G E C s' := by
  induction rs with
  | nil =>
    cases hrun
    exact ⟨hn,h⟩
  | cons r rs ih =>
    obtain ⟨nID,kMasterKey⟩ := r
    unfold changeRecords at hrun
    split at hrun
    · cases hrun
      exact ⟨hn,h⟩
    · rename_i m _
      split at hrun
      · cases hrun
      · rename_i k hk
        rcases store_unlock_frame E h.crypted hk with ⟨_,rfl⟩ | ⟨hb,_⟩
        · exact ih hrun
        · cases hb
      · rename_i k hk
        rcases store_unlock_frame E h.crypted hk with ⟨hb,_⟩ | ⟨_,rfl⟩
        · cases hb
        · split at hrun
          · cases hrun
          · rename_i s₁ hs₁
            have hopen := follows_unlock_addresses G E C h.crypted hl hs₁
            -- the records of master keys are not looked at
            have hrecord : ∀ r file, Follows G E C s { setMasterKey nID r s₁ with
                file := { s₁.file with mkey := file } } := fun r file =>
              follows_trans G E C _ hopen (follows_same G E C s₁ _ rfl rfl rfl rfl (fun _ => id)
                (fun _ _ hp => Or.inl hp) rfl)
            dsimp only at hrun
            split at hrun
            · cases hrun
              have hset := hrecord { kMasterKey with nDeriveIterations := c.nDeriveIterations } s₁.file.mkey
              exact ⟨hset.named hn,hset.encrypted h⟩
            · rename_i x _
              split at hrun
              · cases hrun
                have hset := hrecord { kMasterKey with
                  nDeriveIterations := c.nDeriveIterations
                  vchCryptedKey := c.rest } s₁.file.mkey
                exact ⟨hset.named hn,hset.encrypted h⟩
              · have hwrite : ∀ r, ∃ file, (writeMasterKey c.o nID r s₁.file).2 =
                    { s₁.file with mkey := file } := by
                  intro r
                  unfold writeMasterKey
                  split
                  · exact ⟨_,rfl⟩
                  · exact ⟨s₁.file.mkey,rfl⟩
                obtain ⟨file,hfile⟩ := hwrite { kMasterKey with
                  nDeriveIterations := c.nDeriveIterations
                  vchCryptedKey := C.encrypt x.1 x.2 m }
                have hset := hrecord { kMasterKey with
                  nDeriveIterations := c.nDeriveIterations
                  vchCryptedKey := C.encrypt x.1 x.2 m } file
                rw [← hfile] at hset
                cases hrun
                split
                · exact encrypted_lock G E C (hset.named hn) (hset.encrypted h) fun _ =>
                    reads_follow G E C hset hr
                · exact ⟨hset.named hn,hset.encrypted h⟩

end

theorem guarded_change {old new : List UInt8} {c : Change} {b : Bool} (h : Guarded G E C s)
    (hkeys : s.fUseCrypto = false → s.mapKeys.entries.isEmpty = false)
    (hr : s.fUseCrypto = true → ReadsBack c.oLock s)
    (hrun : changeWalletPassphrase G E C old new c s = some (b,s')) : Guarded G E C s' := by
  unfold changeWalletPassphrase at hrun
  dsimp only at hrun
  have hlock := (guarded_lock G E C h ⟨hkeys,fun hc _ => hr hc⟩).1
  obtain ⟨hn,⟨hp,_⟩ | he⟩ := h
  · have heq := lock_plain_eq c.oLock hp.plain (hkeys hp.plain)
    have hsame := change_records_plain G E C (by
      rw [heq]
      exact hp.plain) (by
      rw [heq]
      exact hkeys hp.plain) hrun
    rw [hsame]
    exact hlock
  · obtain ⟨hn',he'⟩ := encrypted_lock G E C hn he fun _ => hr he.crypted
    obtain ⟨_,sxs,hsxs⟩ := lock_crypted c.oLock he.crypted
    have hl : (lock c.oLock s).2.isLocked = true := by
      rw [hsxs]
      exact (locked_of_crypted (withMaster s [] sxs) he.crypted).mpr rfl
    obtain ⟨hn₂,he₂⟩ := change_records_encrypted G E C hn' he' hl
      (fun k hk => hr he.crypted k (owned_lock he.crypted hk)) hrun
    exact ⟨hn₂,Or.inr he₂⟩

theorem guarded_restart {s₀ : FileWallet} (h : Guarded G E C s)
    (hok : s.fUseCrypto = true → s.file.ckey.entries.isEmpty = false)
    (hrun : loadWallet E s.file = some s₀) : Guarded G E C s₀ := by
  obtain ⟨hn,⟨hp,hc⟩ | he⟩ := h
  · obtain ⟨s₁,hs₁,hp₁,_⟩ := load_plain E hp
    rw [hrun] at hs₁
    rw [← Option.some.inj hs₁] at hp₁
    unfold loadWallet at hrun
    split at hrun
    · cases hrun
    · cases hrun
      refine ⟨⟨hn.file,hn.file⟩,Or.inl ⟨hp₁,?_,?_⟩⟩
      · intro k sxFile hfile howned
        obtain ⟨_,_,hiff,hclear⟩ := hc.file k sxFile hfile
        exact (hclear (hiff.mp howned)).2
      · intro k sxFile hfile
        obtain ⟨_,_,hiff,hclear⟩ := hc.file k sxFile hfile
        exact ⟨sxFile,hfile,Iff.rfl,fun howned => ⟨rfl,(hclear (hiff.mp howned)).2⟩⟩
  · have hckey := hok he.crypted
    unfold loadWallet at hrun
    rw [hckey, entries_empty s.file.key he.secure.fileKeys] at hrun
    cases hrun
    refine ⟨⟨hn.file,hn.file⟩,Or.inr ⟨rfl,⟨?_,he.secure.fileKeys,he.secure.fileCrypted,
      he.secure.fileAddresses,fun _ => ⟨rfl,he.secure.fileAddresses⟩⟩,?_⟩⟩
    · intro id
      cases hkey : (loadKeys E s.file.key).lookup id with
      | none => rfl
      | some key =>
        obtain ⟨pub,k,hk,_⟩ := read_all_cases _ _ _ _ hkey
        rw [he.secure.fileKeys pub] at hk
        cases hk
    · intro k sxFile hfile howned
      exact ⟨sxFile,hfile,howned,rfl⟩

theorem guarded_step {e : Event} {b : Option Bool} (h : Guarded G E C s) (hok : SecretsOk G E C e s)
    (hstep : step G E C e s = some (b,s')) :
    Guarded G E C s' ∧ ∀ o, e = .lock o → s'.fUseCrypto = s.fUseCrypto := by
  cases e with
  | addKey key o =>
    obtain ⟨rfl,rfl⟩ := Prod.mk.inj (Option.some.inj hstep)
    exact ⟨guarded_add_key G E C o h hok,fun _ he => by cases he⟩
  | receive cpkE lockedSkMeta o =>
    obtain ⟨rfl,rfl⟩ := Prod.mk.inj (Option.some.inj hstep)
    refine ⟨?_,fun _ he => by cases he⟩
    obtain ⟨hn,⟨hp,hc⟩ | he⟩ := h
    · have hsame : receiveLocked E o cpkE lockedSkMeta s = s := by
        unfold receiveLocked
        rw [plain_open hp.plain, if_neg Bool.false_ne_true, ite_self]
      rw [hsame]
      exact ⟨hn,Or.inl ⟨hp,hc⟩⟩
    · have hadd := follows_receive G E C o cpkE lockedSkMeta he.crypted
      exact ⟨hadd.named hn,Or.inr (hadd.encrypted he)⟩
  | addStealth sxAddr o =>
    obtain ⟨rfl,rfl⟩ := Prod.mk.inj (Option.some.inj hstep)
    refine ⟨?_,fun _ he => by cases he⟩
    obtain ⟨hn,⟨hp,hc⟩ | he⟩ := h
    · obtain ⟨hn',hc'⟩ := clear_add_stealth G E C hn hp.plain hc hok
      exact ⟨hn',Or.inl ⟨plain_same_keys E hp (add_stealth_same E C o sxAddr s),hc'⟩⟩
    · obtain ⟨hn',he'⟩ := encrypted_add_stealth G E C hn he hok
      exact ⟨hn',Or.inr he'⟩
  | updateStealth scanPubkey spendPubkey fSameLabel addIfNotExist o =>
    obtain ⟨rfl,rfl⟩ := Prod.mk.inj (Option.some.inj hstep)
    exact ⟨guarded_update G E C o scanPubkey spendPubkey fSameLabel addIfNotExist h,
      fun _ he => by cases he⟩
  | lock o =>
    obtain ⟨rfl,rfl⟩ := Prod.mk.inj (Option.some.inj hstep)
    obtain ⟨hlock,hcrypted⟩ := guarded_lock G E C h hok
    exact ⟨hlock,fun _ _ => hcrypted⟩
  | unlock pass o =>
    obtain ⟨x,hx,hpair⟩ := Option.map_eq_some_iff.mp hstep
    obtain ⟨rfl,rfl⟩ := Prod.mk.inj hpair
    refine ⟨?_,fun _ he => by cases he⟩
    obtain ⟨hn,⟨hp,hc⟩ | he⟩ := h
    · unfold unlock at hx
      rw [plain_open hp.plain, if_pos (by decide)] at hx
      rw [← Option.some.inj hx]
      exact ⟨hn,Or.inl ⟨hp,hc⟩⟩
    · have hopen := follows_unlock G E C he.crypted hx
      exact ⟨hopen.named hn,Or.inr (hopen.encrypted he)⟩
  | encrypt pass e =>
    exact ⟨guarded_encrypt G E C h hok hstep,fun _ he => by cases he⟩
  | change old new c =>
    obtain ⟨x,hx,hpair⟩ := Option.map_eq_some_iff.mp hstep
    obtain ⟨rfl,rfl⟩ := Prod.mk.inj hpair
    exact ⟨guarded_change G E C h hok.1 hok.2 hx,fun _ he => by cases he⟩
  | restart =>
    obtain ⟨s₀,hload,hpair⟩ := Option.map_eq_some_iff.mp hstep
    obtain ⟨rfl,rfl⟩ := Prod.mk.inj hpair
    exact ⟨guarded_restart G E C h hok hload,fun _ he => by cases he⟩

theorem guarded_start : Guarded G E C .start := by
  have hnone : ∀ k, FileWallet.start.stealthAddresses.lookup k = none := fun _ => rfl
  refine ⟨⟨?_,?_⟩,Or.inl ⟨plain_start E,?_,?_⟩⟩
  · intro k sx hsx
    cases (hnone k).symm.trans hsx
  · intro k sx hsx
    cases (hnone k).symm.trans hsx
  · intro k sx hsx
    cases (hnone k).symm.trans hsx
  · intro k sx hsx
    cases (hnone k).symm.trans hsx

/-- In every run whose steps meet their conditions no secret stays in clear. -/
theorem no_secret_in_clear (es : List Event)
    (hok : Judged.AllOk (step G E C) (SecretsOk G E C) es .start) :
    Judged.AllGood (step G E C) (fun e s _ s' => KeepsSecrets G E C e s s') es .start := by
  apply Judged.good_of_ok (step G E C) _ (Guarded G E C) _ .start
    (guarded_start G E C) hok
  intro e s b s' h hmeets hstep
  obtain ⟨hguarded,hlock⟩ := guarded_step G E C h hmeets hstep
  refine ⟨⟨?_,fun o he hs => (hlock o he).trans hs⟩,hguarded⟩
  intro hcrypted
  rcases hguarded.2 with ⟨hp,_⟩ | he
  · exact absurd (hp.plain.symm.trans hcrypted) (by decide)
  · exact he.secure

end Steps

section Samples

def sampleSecrets (o : Outcomes) : List Event :=
  [.addStealth WalletOpen.sampleAddress .fine,.encrypt [112] (sampleEncrypting true),.unlock [112] .fine,
    .lock o]

theorem sample_address_clear : Clear sampleGroup WalletOpen.sampleAddress := by
  unfold Clear SpendSecret
  decide +kernel

theorem sample_secrets_ok :
    Judged.AllOk sampleStep (SecretsOk sampleGroup sampleKeys sampleCipher) (sampleSecrets .fine) .start := by
  refine ⟨Or.inr ⟨?_,fun _ => ⟨sample_address_clear,fun hc => by cases hc⟩⟩,?_⟩
  · intro old hold
    cases hold
  · intro _ s₁ hs₁
    cases hs₁
    refine ⟨fun _ _ _ _ _ => ⟨fun _ _ => rfl,fun _ _ _ _ => ⟨rfl,rfl⟩,fun _ _ => rfl⟩,?_⟩
    intro _ s₂ hs₂
    refine ⟨trivial,fun _ s₃ hs₃ => ⟨⟨fun hplain => ?_,fun _ _ _ _ => rfl⟩,fun _ _ _ => trivial⟩⟩
    have hrun : (((sampleStep (.encrypt [112] (sampleEncrypting true))
        (addStealthAddress sampleKeys sampleCipher .fine WalletOpen.sampleAddress .start).2).bind fun x =>
          sampleStep (.unlock [112] .fine) x.2).map fun x => x.2.fUseCrypto) = some true := by
      decide +kernel
    have hbind : ((sampleStep (.encrypt [112] (sampleEncrypting true))
        (addStealthAddress sampleKeys sampleCipher .fine WalletOpen.sampleAddress .start).2).bind fun x =>
          sampleStep (.unlock [112] .fine) x.2) = some (_,s₃) :=
      (congrArg (fun y => Option.bind y _) hs₂).trans hs₃
    rw [hbind] at hrun
    exact absurd ((Option.some.inj hrun).symm.trans hplain) (by decide)

theorem no_secret_in_clear_sample :
    Judged.AllGood sampleStep (fun e s _ s' => KeepsSecrets sampleGroup sampleKeys sampleCipher e s s')
      (sampleSecrets .fine) .start :=
  no_secret_in_clear sampleGroup sampleKeys sampleCipher (sampleSecrets .fine) sample_secrets_ok

/-- A spend secret that is not read back stays in clear, and a wallet without keys is encrypted
by locking it. -/
theorem secret_stays_in_clear :
    ¬ Judged.AllGood sampleStep (fun e s _ s' => KeepsSecrets sampleGroup sampleKeys sampleCipher e s s')
      (sampleSecrets { Outcomes.fine with read := fun _ => false }) .start ∧
    ¬ Judged.AllGood sampleStep (fun e s _ s' => KeepsSecrets sampleGroup sampleKeys sampleCipher e s s')
      [.lock .fine] .start := by
  constructor
  · intro h
    have hends : ((Judged.run sampleStep [.addStealth WalletOpen.sampleAddress .fine,
        .encrypt [112] (sampleEncrypting true),.unlock [112] .fine] .start).bind fun s =>
          (sampleStep (.lock { Outcomes.fine with read := fun _ => false }) s).map fun x => (s,x)).map
        (fun y => (y.2.2.fUseCrypto,y.2.2.isLocked,
          y.2.2.stealthAddresses.lookup WalletOpen.sampleAddress.scanPubkey)) =
        some (true,true,some WalletOpen.sampleAddress) := by
      decide +kernel
    obtain ⟨⟨s,x⟩,hs,hend⟩ := Option.map_eq_some_iff.mp hends
    obtain ⟨s₁,hrun,hmap⟩ := Option.bind_eq_some_iff.mp hs
    obtain ⟨x',hx',heq⟩ := Option.map_eq_some_iff.mp hmap
    obtain ⟨rfl,rfl⟩ := Prod.mk.inj heq
    obtain ⟨hcrypted,hrest⟩ := Prod.mk.inj hend
    obtain ⟨hl,hsx⟩ := Prod.mk.inj hrest
    have hgood := Judged.good_reached sampleStep
       .start h hrun hx'
    obtain ⟨mk,p,hmk,⟨hp,_⟩,hsealed⟩ := ((hgood.secure hcrypted).locked hl).2 _ _ hsx rfl
    have hlen := congrArg List.length hsealed
    have hlong : (sampleCipher.encrypt mk (ivBytes (sampleKeys.hash256
        WalletOpen.sampleAddress.spendPubkey)) p).length = 64 := by
      unfold sampleCipher
      rw [List.length_append, hmk, hp]
      rfl
    rw [hlong] at hlen
    exact absurd hlen (by decide)
  · intro h
    exact absurd ((h _ _ rfl).1.lock .fine rfl rfl) (by decide)

end Samples

end SwippCore.WalletFile
