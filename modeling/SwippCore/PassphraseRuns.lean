import SwippCore.WalletFileEncrypt

/-!
# Passphrases

When both functions leave the wallet as it was, or with the new passphrase in memory and in
the file: the record goes out with the wallet, no call fails once the record in memory was
changed, and a wrong passphrase comes to a locked wallet only.
-/

set_option autoImplicit false

namespace SwippCore.WalletFile
open FinMap Key Stealth Crypter CCryptoKeyStore WalletKeys WalletUnlock

section Conditions
variable {P : Type} (G : EcGroup P) (E : KeyEnv) (C : Cipher)

def OwnKey : Prop := ∀ k k' iv iv' p, k.length = walletCryptoKeySize → k'.length = walletCryptoKeySize →
  p.length = 32 → C.decrypt k' iv' (C.encrypt k iv p) = some p → k' = k

/-- The passphrase, and no other that derives another key, unlocks the wallet in memory and
after a restart. -/
structure OpenedBy (pass : List UInt8) (s : FileWallet) : Prop where
  memory : Unlocks G E C pass s
  file : UnlocksReloaded G E C pass s
  others : ∀ q, (∀ id r, s.mapMasterKeys.lookup id = some r → derivedKey C q r ≠ derivedKey C pass r) →
    ¬ Unlocks G E C q s ∧ ¬ UnlocksReloaded G E C q s

def CanEncrypt (s : FileWallet) : Prop :=
  ∀ pass salt n m x, setKeyFromPassphrase C pass salt n m = some x →
    ∃ e s', encryptWallet G E C pass e s = some (some true,s') ∧ OpenedBy G E C pass s'

structure EncryptAtomic (pass : List UInt8) (s : FileWallet) (b : Option Bool) (s' : FileWallet) : Prop where
  failed : b = some false → s' = s ∧ (s.fUseCrypto = false → CanEncrypt G E C s')
  done : b = some true → OpenedBy G E C pass s'

structure ChangeAtomic (new : List UInt8) (s : FileWallet) (b : Bool) (s' : FileWallet) : Prop where
  memory : b = false → ∀ q, Unlocks G E C q s → Unlocks G E C q s'
  file : b = false → ∀ q, UnlocksReloaded G E C q s → UnlocksReloaded G E C q s'
  locked : b = false → s'.isLocked = s.isLocked
  done : b = true → OpenedBy G E C new s'

def Fills (pass : List UInt8) (e : Encrypting) (s : FileWallet) : Prop :=
  s.mapKeys.entries.isEmpty = false ∨ ∃ key keys, e.pool = key::keys ∧
    (∀ x, setKeyFromPassphrase (failing C e.o) pass e.vchSalt e.nDeriveIterations e.nDerivationMethod =
      some x → openMasterKey (failing C e.oPool) pass
        ⟨C.encrypt x.1 x.2 e.vMasterKey,e.vchSalt,e.nDerivationMethod,e.nDeriveIterations⟩ =
          some e.vMasterKey) ∧
    e.oPool.encrypted key.vch = true ∧ e.oPool.written (.keymeta (key.getPubKey E)) = true ∧
    e.oPool.written (.ckey (key.getPubKey E)) = true

/-- Either nothing was changed yet, or the transaction begins and takes the record, and the
clear keys are erased. -/
def EncryptOk (pass : List UInt8) (e : Encrypting) (s : FileWallet) : Prop :=
  s.fUseCrypto = true ∨
  setKeyFromPassphrase (failing C e.o) pass e.vchSalt e.nDeriveIterations e.nDerivationMethod = none ∨
  e.o.encrypted e.vMasterKey = false ∨
  (e.fTxnBegin = true ∧ (e.fTxnCommit = true → e.o.written (.mkey (s.nMasterKeyMaxID+1)) = true ∧
    (∀ pub, (s.file.key.lookup pub).isSome = true → e.o.erased (.key pub) = true) ∧ Fills E C pass e s))

def takenKey (C' : Cipher) (pass : List UInt8) (r : CMasterKey) (s : FileWallet) : Option (List UInt8) :=
  (openMasterKey C' pass r).bind fun m =>
    match CCryptoKeyStore.unlock E C' { s.toCCryptoKeyStore with vMasterKey := [] } m with
    | some (true,_) => some m
    | _ => none

/-- A wrong passphrase comes to a locked wallet only. After the right one the key is derived
and the record written; where it is not, the record stays as it was and the wallet was unlocked. -/
def ChangeOk (old new : List UInt8) (c : Change) (s : FileWallet) : Prop :=
  (s.fUseCrypto = false → s.mapKeys.entries.isEmpty = false) ∧
  ∀ nID r, s.mapMasterKeys.lookup nID = some r →
    match takenKey E (failing C c.o) old r s with
    | none => s.isLocked = true
    | some m =>
      match setKeyFromPassphrase (failing C c.o) new r.vchSalt c.nDeriveIterations r.nDerivationMethod with
      | none => s.isLocked = false ∧ { r with nDeriveIterations := c.nDeriveIterations } = r
      | some x =>
        if c.o.encrypted m then
          c.o.written (.mkey nID) = true ∨ { r with
            nDeriveIterations := c.nDeriveIterations
            vchCryptedKey := C.encrypt x.1 x.2 m } = r
        else s.isLocked = false ∧ { r with
          nDeriveIterations := c.nDeriveIterations
          vchCryptedKey := c.rest } = r

end Conditions

section Opened
variable {P : Type} (G : EcGroup P) (E : KeyEnv) (C : Cipher)

variable {r : CMasterKey}

theorem same_derived (hC : C.Lawful) (hown : OwnKey C) {pass mk q : List UInt8}
    (hmk : mk.length = walletCryptoKeySize) (h : MadeWith C pass mk r)
    (hq : openMasterKey C q r = some mk) : derivedKey C q r = derivedKey C pass r := by
  obtain ⟨x,hx,hr⟩ := h
  obtain ⟨y,hy,hdec⟩ := Option.bind_eq_some_iff.mp hq
  rw [hr] at hdec
  have heq := hown x.1 y.1 x.2 y.2 mk (set_key_sized C hC hx) (set_key_sized C hC hy)
    hmk hdec
  unfold derivedKey
  rw [hx, hy, Option.map_some, Option.map_some, heq]

variable {s : FileWallet}

theorem keyed_opened (hG : G.order = curveOrder) (hE : E.Sized) (hC : C.Lawful) (hown : OwnKey C)
    {pass mk : List UInt8} {id : ℕ} (h : Keyed E C pass mk id r s) (hfill : Filled s) :
    OpenedBy G E C pass s := by
  have hopen := made_opens C hC h.made
  refine ⟨(unlocks_iff G E C id hG hE hC h hfill pass).mpr hopen,
    (reloaded_iff G E C pass mk id r hG hE hC h hfill pass).mpr hopen,?_⟩
  intro q hq
  have hne := hq id r (lookup_sole h.record)
  constructor
  · intro hu
    exact hne (same_derived C hC hown h.sized h.made
      ((unlocks_iff G E C id hG hE hC h hfill q).mp hu))
  · intro hu
    exact hne (same_derived C hC hown h.sized h.made
      ((reloaded_iff G E C pass mk id r hG hE hC h hfill q).mp hu))

theorem lock_locked (o : Outcomes) (h : s.isLocked = true) : lock o s = (true,s) := by
  unfold lock
  rw [if_pos h]

theorem keyed_lock (o : Outcomes) {pass mk : List UInt8} {id : ℕ} (h : Keyed E C pass mk id r s) :
    Keyed E C pass mk id r (lock o s).2 ∧ (Filled s → Filled (lock o s).2) ∧
      (lock o s).2.isLocked = true := by
  obtain ⟨_,sxs,hlock⟩ := lock_crypted o h.store.crypted
  rw [hlock]
  exact ⟨keyed_with_master E C pass mk id r s h [] sxs (Or.inl rfl),
    fun hf => filled_with_master s hf [] sxs,(locked_of_crypted (withMaster s [] sxs) h.store.crypted).mpr rfl⟩

end Opened

section Change
variable {P : Type} (G : EcGroup P) (E : KeyEnv) (C : Cipher)

variable {id : ℕ} {r : CMasterKey} {s : FileWallet}

theorem change_one (hG : G.order = curveOrder) (hE : E.Sized) (hC : C.Lawful)
    (old new pass mk : List UInt8) (c : Change) (fWasLocked : Bool) (h : Keyed E C pass mk id r s)
    (hfill : Filled s) (hm : s.vMasterKey = []) :
    (takenKey E (failing C c.o) old r s = none ∧
      changeRecords G E C old new c fWasLocked [⟨id,r⟩] s = some (false,s)) ∨
    (takenKey E (failing C c.o) old r s = some mk ∧ ∃ s', Keyed E C pass mk id r s' ∧ Filled s' ∧
      s'.isLocked = false ∧ changeRecords G E C old new c fWasLocked [⟨id,r⟩] s =
        match setKeyFromPassphrase (failing C c.o) new r.vchSalt c.nDeriveIterations r.nDerivationMethod with
        | none => some (false,setMasterKey id { r with nDeriveIterations := c.nDeriveIterations } s')
        | some x =>
          if !c.o.encrypted mk then
            some (false,setMasterKey id { r with
              nDeriveIterations := c.nDeriveIterations
              vchCryptedKey := c.rest } s')
          else
            let r' := { r with
              nDeriveIterations := c.nDeriveIterations
              vchCryptedKey := C.encrypt x.1 x.2 mk }
            let s₁ := setMasterKey id r' s'
            let s₂ := { s₁ with file := (writeMasterKey c.o id r' s₁.file).2 }
            some (true,if fWasLocked then (lock c.oLock s₂).2 else s₂)) := by
  have hstore : { s.toCCryptoKeyStore with vMasterKey := [] } = s.toCCryptoKeyStore := by
    rw [← hm]
  unfold takenKey changeRecords
  rw [hstore]
  cases hopen : openMasterKey (failing C c.o) old r with
  | none => exact Or.inl ⟨rfl,rfl⟩
  | some m =>
    rw [Option.bind_some]
    dsimp only
    rcases store_unlock_cases E C hE hC c.o mk m h.sized h.store with hu | ⟨hu,hmk⟩
    · rw [hu]
      exact Or.inl ⟨rfl,rfl⟩
    · obtain rfl := hmk hfill.memory
      rw [hu]
      dsimp only
      obtain ⟨s',hrun,hs',hf,hm',_⟩ := unlock_addresses_keyed G E C pass m id r hG hC c.o m
        (keyed_with_master E C pass m id r s h m s.stealthAddresses (Or.inr rfl))
      have hrun' : unlockStealthAddresses G E C c.o m
          { s with toCCryptoKeyStore := { s.toCCryptoKeyStore with vMasterKey := m } } = some s' := hrun
      rw [hrun']
      have hopened : s'.isLocked = false := open_master (by rw [hm']; exact mk_ne_nil h.sized)
      exact Or.inr ⟨rfl,s',hs',hf (filled_with_master s hfill _ _),hopened,rfl⟩

theorem set_same (h : Sole s.mapMasterKeys id r) : setMasterKey id r s = s := by
  unfold setMasterKey
  rw [sole_self h]

theorem keyed_changed {new pass mk : List UInt8} {o : Outcomes} {r' : CMasterKey}
    (h : Keyed E C pass mk id r s) (hmade : MadeWith C new mk r')
    (hwritten : o.written (.mkey id) = true ∨ r' = r) :
    Keyed E C new mk id r' { setMasterKey id r' s with file := (writeMasterKey o id r' s.file).2 } := by
  have hfile : Sole (writeMasterKey o id r' s.file).2.mkey id r' ∧
      (writeMasterKey o id r' s.file).2.ckey = s.file.ckey ∧
      (writeMasterKey o id r' s.file).2.key = s.file.key := by
    unfold writeMasterKey
    split
    · exact ⟨sole_insert r r' h.fileRecord,rfl,rfl⟩
    · rename_i hnot
      rw [hwritten.resolve_left hnot]
      exact ⟨h.fileRecord,rfl,rfl⟩
  obtain ⟨hmkey,hckey,hkey⟩ := hfile
  refine ⟨⟨h.store.crypted,h.store.master,h.store.entries,h.store.front⟩,h.sized,hmade,
    sole_insert r r' h.record,hmkey,?_,?_,?_⟩
  · intro pub c hc
    dsimp only at hc
    rw [hckey] at hc
    exact h.fileEntries pub c hc
  · dsimp only
    rw [hckey]
    exact h.fileFront
  · intro pub
    dsimp only
    rw [hkey]
    exact h.fileKeys pub

theorem filled_changed (o : Outcomes) (id : ℕ) (r' : CMasterKey) (h : Filled s) :
    Filled { setMasterKey id r' s with file := (writeMasterKey o id r' s.file).2 } := by
  refine ⟨h.memory,?_⟩
  unfold writeMasterKey
  split
  · exact h.file
  · exact h.file

theorem kept_atomic (hG : G.order = curveOrder) (hE : E.Sized) (hC : C.Lawful)
    (new pass mk : List UInt8) {s' : FileWallet} (h : Keyed E C pass mk id r s) (hfill : Filled s)
    (h' : Keyed E C pass mk id r s') (hfill' : Filled s') (hl : s'.isLocked = s.isLocked) :
    ChangeAtomic G E C new s false s' where
  memory _ q hq := (unlocks_iff G E C id hG hE hC h' hfill' q).mpr
    ((unlocks_iff G E C id hG hE hC h hfill q).mp hq)
  file _ q hq := (reloaded_iff G E C pass mk id r hG hE hC h' hfill' q).mpr
    ((reloaded_iff G E C pass mk id r hG hE hC h hfill q).mp hq)
  locked _ := hl
  done hb := by cases hb

theorem done_atomic {new : List UInt8} (s s' : FileWallet) (h : OpenedBy G E C new s') :
    ChangeAtomic G E C new s true s' where
  memory hb := by cases hb
  file hb := by cases hb
  locked hb := by cases hb
  done _ := h

theorem change_keyed (hG : G.order = curveOrder) (hE : E.Sized) (hC : C.Lawful) (hown : OwnKey C)
    {old new pass mk : List UInt8} {c : Change} {s' : FileWallet} {b : Bool}
    (h : Keyed E C pass mk id r s) (hfill : Filled s) (hok : ChangeOk E C old new c s)
    (hstep : changeWalletPassphrase G E C old new c s = some (b,s')) :
    ChangeAtomic G E C new s b s' ∧ ∃ pass' r', Keyed E C pass' mk id r' s' ∧ Filled s' := by
  obtain ⟨_,sxs,hlock⟩ := lock_crypted c.oLock h.store.crypted
  have h₀ := keyed_with_master E C pass mk id r s h [] sxs (Or.inl rfl)
  have hfill₀ := filled_with_master s hfill [] sxs
  have hcond := hok.2 id r (lookup_sole h.record)
  have htaken : takenKey E (failing C c.o) old r (withMaster s [] sxs) =
      takenKey E (failing C c.o) old r s := rfl
  unfold changeWalletPassphrase at hstep
  dsimp only at hstep
  rw [hlock, in_order_sole _ h₀.record] at hstep
  rcases change_one G E C hG hE hC old new pass mk c s.isLocked h₀ hfill₀ rfl with
    ⟨hnone,heq⟩ | ⟨hsome,s₂,h₂,hfill₂,hopen,heq⟩
  · -- the passphrase is refused
    rw [htaken] at hnone
    rw [hnone] at hcond
    dsimp only at hcond
    rw [lock_locked c.oLock hcond] at hlock
    rw [heq, ← hlock] at hstep
    obtain ⟨rfl,rfl⟩ := Prod.mk.inj (Option.some.inj hstep)
    exact ⟨kept_atomic G E C hG hE hC new pass mk h hfill h hfill rfl,pass,r,h,hfill⟩
  · rw [htaken] at hsome
    rw [hsome] at hcond
    rw [heq] at hstep
    dsimp only at hcond
    -- a record that is left as it was
    have hleft : ∀ rLeft, rLeft = r → s.isLocked = false →
        some (false,setMasterKey id rLeft s₂) = some (b,s') →
        ChangeAtomic G E C new s b s' ∧ ∃ pass' r', Keyed E C pass' mk id r' s' ∧ Filled s' := by
      intro rLeft hr hl hres
      rw [hr, set_same h₂.record] at hres
      obtain ⟨rfl,rfl⟩ := Prod.mk.inj (Option.some.inj hres)
      exact ⟨kept_atomic G E C hG hE hC new pass mk h hfill h₂ hfill₂ (hopen.trans hl.symm),
        pass,r,h₂,hfill₂⟩
    cases hset : setKeyFromPassphrase (failing C c.o) new r.vchSalt c.nDeriveIterations
        r.nDerivationMethod with
    | none =>
      rw [hset] at hstep hcond
      exact hleft _ hcond.2 hcond.1 hstep
    | some x =>
      rw [hset] at hstep hcond
      dsimp only at hstep hcond
      cases henc : c.o.encrypted mk with
      | false =>
        rw [henc, if_pos (by decide)] at hstep
        rw [henc, if_neg (by decide)] at hcond
        exact hleft _ hcond.2 hcond.1 hstep
      | true =>
        rw [henc, if_neg (by decide)] at hstep
        rw [henc, if_pos rfl] at hcond
        have hmade : MadeWith C new mk { r with
            nDeriveIterations := c.nDeriveIterations
            vchCryptedKey := C.encrypt x.1 x.2 mk } := ⟨x,failing_set_key C c.o hset,rfl⟩
        have h₃ := keyed_changed E C h₂ hmade hcond
        have hfill₃ := filled_changed c.o id { r with
          nDeriveIterations := c.nDeriveIterations
          vchCryptedKey := C.encrypt x.1 x.2 mk } hfill₂
        obtain ⟨rfl,hs'⟩ := Prod.mk.inj (Option.some.inj hstep)
        have hend : Keyed E C new mk id { r with
            nDeriveIterations := c.nDeriveIterations
            vchCryptedKey := C.encrypt x.1 x.2 mk } s' ∧ Filled s' := by
          rw [← hs']
          split
          · obtain ⟨hk,hf,_⟩ := keyed_lock E C c.oLock h₃
            exact ⟨hk,hf hfill₃⟩
          · exact ⟨h₃,hfill₃⟩
        exact ⟨done_atomic G E C s s' (keyed_opened G E C hG hE hC hown hend.1 hend.2),
          new,_,hend.1,hend.2⟩

end Change

end SwippCore.WalletFile

namespace SwippCore.WalletFile
open FinMap Key Stealth Crypter CCryptoKeyStore WalletKeys WalletUnlock

section Committed
variable {P : Type} (G : EcGroup P) (E : KeyEnv) (C : Cipher)

structure NoRecords (s : FileWallet) : Prop where
  memory : s.mapMasterKeys = ∅
  file : s.file.mkey = ∅

structure Committed (pass : List UInt8) (e : Encrypting) (id : ℕ) (r : CMasterKey) (s₀ s : FileWallet) :
    Prop where
  keyed : Keyed E C pass e.vMasterKey id r s
  master : s.vMasterKey = []
  filled : s₀.mapKeys.entries.isEmpty = false → Filled s
  nothing : s₀.mapKeys.entries.isEmpty = true →
    (∀ i, s.mapCryptedKeys.lookup i = none) ∧ ∀ pub, s.file.ckey.lookup pub = none

theorem commit_keyed (hC : C.Lawful) (pass : List UInt8) (e : Encrypting) (x : List UInt8 × List UInt8)
    (s s₁ : FileWallet) (h : Plain E s) (hrec : NoRecords s)
    (hx : setKeyFromPassphrase (failing C e.o) pass e.vchSalt e.nDeriveIterations e.nDerivationMethod =
      some x)
    (hwritten : e.o.written (.mkey (s.nMasterKeyMaxID+1)) = true)
    (herased : ∀ pub, (s.file.key.lookup pub).isSome = true → e.o.erased (.key pub) = true)
    (h₁ : encryptKeys E C e.o e.vMasterKey (begun C e x s) = some s₁) :
    Committed E C pass e (s.nMasterKeyMaxID+1) (madeRecord C e x) s
      (encryptAddresses E C e.o e.vMasterKey (inOrder leScan s₁.stealthAddresses) s₁) := by
  have hbegun : begun C e x s = { withRecord C e x s with
      file := { s.file with mkey := s.file.mkey.insert (s.nMasterKeyMaxID+1) (madeRecord C e x) } } := by
    unfold begun writeMasterKey
    rw [if_pos hwritten]
  rw [hbegun] at h₁
  obtain ⟨s₀,hall,rfl⟩ := encrypt_keys_cases E C h₁
  have herase := file_keys_erased E C hall h.fileKeys herased
  obtain ⟨sxs,recs,heq⟩ := encrypt_addresses_frame E C e.o e.vMasterKey
    (inOrder leScan s₀.stealthAddresses) { s₀ with mapKeys := ∅ }
  have hframe := hall.frame
  have hcrypted : s₀.fUseCrypto = true := by rw [hframe]
  have hmaster : s₀.vMasterKey = [] := by
    rw [hframe]
    exact h.master
  have hmemory : Sole s₀.mapMasterKeys (s.nMasterKeyMaxID+1) (madeRecord C e x) := by
    rw [hframe]
    change Sole (s.mapMasterKeys.insert _ _) _ _
    rw [hrec.memory]
    exact sole_empty _ _
  have hfile : Sole s₀.file.mkey (s.nMasterKeyMaxID+1) (madeRecord C e x) := by
    rw [hframe]
    change Sole (s.file.mkey.insert _ _) _ _
    rw [hrec.file]
    exact sole_empty _ _
  have hnil : s.mapKeys.entries.isEmpty = true ↔ (inOrder leID s.mapKeys).map Sigma.snd = [] := by
    rw [List.isEmpty_iff, List.map_eq_nil_iff, ← List.length_eq_zero_iff, ← List.length_eq_zero_iff,
      (in_order_perm leID s.mapKeys).length_eq]
  rw [heq]
  have hentries : ∀ i y, s₀.mapCryptedKeys.lookup i = some y → ∃ key, y = sealedEntry E C e.vMasterKey key := by
    intro i y hy
    rcases hall.entries i y hy with hold | hnew
    · have hnone := h.crypted i
      exact absurd (hnone.symm.trans hold) (by simp)
    · exact hnew
  have hfileEntries : ∀ pub c, s₀.file.ckey.lookup pub = some c →
      ∃ key, (pub,c) = sealedEntry E C e.vMasterKey key := by
    intro pub c hc
    rcases hall.fileEntries pub c hc with hold | hnew
    · have hnone := h.fileCrypted pub
      exact absurd (hnone.symm.trans hold) (by simp)
    · exact hnew
  refine ⟨⟨⟨hcrypted,Or.inl hmaster,fun i y hy => Or.inr (hentries i y hy),?_⟩,e.drawn,
    ⟨x,failing_set_key C e.o hx,rfl⟩,hmemory,hfile,
    fun pub c hc => Or.inr (hfileEntries pub c hc),?_,herase⟩,hmaster,?_,?_⟩
  · intro i y hy hne
    obtain ⟨key,rfl⟩ := hentries i y hy
    exact absurd (entry_ne_nil E C hC e.drawn key) hne
  · intro pub c hc hne
    obtain ⟨key,hkey⟩ := hfileEntries pub c hc
    have hsec := entry_ne_nil E C hC e.drawn key
    rw [← hkey] at hsec
    exact absurd hsec hne
  · intro hne
    have hfilled := hall.filled (Or.inl fun hkeys => by rw [hnil.mpr hkeys] at hne; cases hne)
    exact ⟨hfilled.memory,hfilled.file⟩
  · intro hempty
    have hsame := hall.nothing (hnil.mp hempty)
    dsimp only
    rw [hsame]
    exact ⟨h.crypted,h.fileCrypted⟩

theorem write_crypted_taken (o : Outcomes) {pub : CPubKey} (c : List UInt8) {d : WalletDB}
    (h : d.ckey.lookup pub = none) (hmeta : o.written (.keymeta pub) = true)
    (hwritten : o.written (.ckey pub) = true) : (writeCryptedKey o pub c d).1 = true := by
  unfold writeCryptedKey
  rw [h, hmeta, hwritten]
  rfl

/-- A key comes in where its calls succeed, into a wallet that has none in its file. -/
theorem taken_add_key {pass mk : List UInt8} {id : ℕ} {r : CMasterKey} (o : Outcomes) (key : CKey)
    {s : FileWallet} (h : Keyed E C pass mk id r s) (hl : s.isLocked = false)
    (hnone : s.file.ckey.lookup (key.getPubKey E) = none) (henc : o.encrypted key.vch = true)
    (hmeta : o.written (.keymeta (key.getPubKey E)) = true)
    (hwritten : o.written (.ckey (key.getPubKey E)) = true) :
    (addKeyPubKey E C o key s).1 = true ∧ Filled (addKeyPubKey E C o key s).2 := by
  have hm : s.vMasterKey = mk := by
    rcases h.store.master with hm | hm
    · rw [(locked_of_crypted s h.store.crypted).mpr hm] at hl
      cases hl
    · exact hm
  have hsecret : tryEncrypt C o s.vMasterKey key.vch ((key.getPubKey E).getHash E) =
      some (C.encrypt mk (ivBytes ((key.getPubKey E).getHash E)) key.vch) := by
    unfold tryEncrypt encryptSecret
    rw [if_pos henc, hm, if_pos h.sized]
  have hadd : addKeyPubKey E C o key s = addCryptedKey E o (key.getPubKey E)
      (C.encrypt mk (ivBytes ((key.getPubKey E).getHash E)) key.vch) s := by
    unfold addKeyPubKey
    dsimp only
    rw [h.store.crypted, if_neg (by decide), hl, if_neg (by decide), hsecret]
  obtain ⟨b,d,heq,hd⟩ := add_crypted_cases E o (key.getPubKey E)
    (C.encrypt mk (ivBytes ((key.getPubKey E).getHash E)) key.vch) h.store.crypted
  have hb : (addCryptedKey E o (key.getPubKey E)
      (C.encrypt mk (ivBytes ((key.getPubKey E).getHash E)) key.vch) s).1 = true := by
    unfold addCryptedKey CCryptoKeyStore.addCryptedKey
    rw [set_crypted _ h.store.crypted]
    exact write_crypted_taken o _ hnone hmeta hwritten
  rw [hadd]
  refine ⟨hb,?_⟩
  rw [heq] at hb ⊢
  obtain ⟨_,rfl⟩ := hd.resolve_left fun hd => by rw [hd.1] at hb; cases hb
  exact ⟨⟨_,_,AList.lookup_insert _⟩,_,_,AList.lookup_insert _⟩

/-- The end of an encryption: whatever fails in it, the keys stay under the passphrase. -/
theorem renew_keyed (hG : G.order = curveOrder) (hE : E.Sized) (hC : C.Lawful) {pass : List UInt8}
    {e : Encrypting} {x : List UInt8 × List UInt8} {id : ℕ} {s₀ s s' : FileWallet} {b : Option Bool}
    (h : Committed E C pass e id (madeRecord C e x) s₀ s)
    (hx : setKeyFromPassphrase (failing C e.o) pass e.vchSalt e.nDeriveIterations e.nDerivationMethod =
      some x)
    (hfills : Fills E C pass e s₀) (hstep : renewPool G E C pass e s = some (b,s')) :
    Keyed E C pass e.vMasterKey id (madeRecord C e x) s' ∧ Filled s' ∧ b ≠ some false := by
  have hl := (locked_of_crypted s h.keyed.store.crypted).mpr h.master
  have hopen := made_opens C hC h.keyed.made
  obtain ⟨f,s₁,hunlock,h₁,hfill₁,_,hfile⟩ := unlock_keyed G E C pass e.vMasterKey id (madeRecord C e x) hG
    hE hC e.oPool h.keyed (Or.inr hopen)
  -- without an old key the first one of the pool comes in
  have hfillNew : s₀.mapKeys.entries.isEmpty = true → s₁.isLocked = false ∧
      ∃ key keys, e.pool = key::keys ∧ (addKeyPubKey E C e.oPool key s₁).1 = true ∧
        Filled (addKeyPubKey E C e.oPool key s₁).2 := by
    intro hempty
    obtain ⟨key,keys,hpool,htaken,henc,hmeta,hwritten⟩ := hfills.resolve_left (by rw [hempty]; decide)
    have hopened : s₁.isLocked = false := by
      have htakes := store_takes_any E (failing C e.oPool) e.vMasterKey
        h.keyed.store.crypted (h.nothing hempty).1
      obtain ⟨s₂,hs₂,_,hm₂,_⟩ := unlock_taken G E C id hG hC
        h.keyed h.master (htaken x hx) htakes
      rw [hs₂] at hunlock
      rw [← (Prod.mk.inj (Option.some.inj hunlock)).2]
      exact open_master (by rw [hm₂]; exact mk_ne_nil h.keyed.sized)
    have hsame := hfile (h.nothing hempty).1
    exact ⟨hopened,key,keys,hpool,taken_add_key E C e.oPool key h₁
      hopened (by rw [hsame]; exact (h.nothing hempty).2 _) henc hmeta hwritten⟩
  unfold renewPool at hstep
  rw [lock_locked e.oPool hl] at hstep
  dsimp only at hstep
  rw [hunlock] at hstep
  dsimp only at hstep
  cases hne : s₀.mapKeys.entries.isEmpty with
  | false =>
    have hfill := hfill₁ (h.filled hne)
    obtain ⟨hk,hf⟩ := keyed_add_pool E C pass e.vMasterKey id (madeRecord C e x) hC e.oPool e.pool _ h₁
    split at hstep
    · obtain ⟨rfl,rfl⟩ := Prod.mk.inj (Option.some.inj hstep)
      exact ⟨h₁,hfill,by decide⟩
    · split at hstep
      · obtain ⟨rfl,rfl⟩ := Prod.mk.inj (Option.some.inj hstep)
        obtain ⟨hk',hf',_⟩ := keyed_lock E C e.oPool hk
        exact ⟨hk',hf' (hf hfill),by decide⟩
      · obtain ⟨rfl,rfl⟩ := Prod.mk.inj (Option.some.inj hstep)
        exact ⟨hk,hf hfill,by decide⟩
  | true =>
    obtain ⟨hopened,key,keys,hp,hadded,hfill⟩ := hfillNew hne
    obtain ⟨hkey,_⟩ := keyed_add_key E C pass e.vMasterKey id (madeRecord C e x) hC e.oPool key h₁
    obtain ⟨hk,hf⟩ := keyed_add_pool E C pass e.vMasterKey id (madeRecord C e x) hC e.oPool keys _ hkey
    have hpool : addPool E C e.oPool e.pool s₁ =
        addPool E C e.oPool keys (addKeyPubKey E C e.oPool key s₁).2 := by
      rw [hp, addPool, if_pos hadded]
    rw [hopened, if_neg (by decide), hpool] at hstep
    split at hstep
    · obtain ⟨rfl,rfl⟩ := Prod.mk.inj (Option.some.inj hstep)
      obtain ⟨hk',hf',_⟩ := keyed_lock E C e.oPool hk
      exact ⟨hk',hf' (hf hfill),by decide⟩
    · obtain ⟨rfl,rfl⟩ := Prod.mk.inj (Option.some.inj hstep)
      exact ⟨hk,hf hfill,by decide⟩

end Committed

section Later
variable {P : Type} (G : EcGroup P) (E : KeyEnv) (C : Cipher)

theorem encrypt_all_fine {mk : List UInt8} (hmk : mk.length = walletCryptoKeySize)
    {keys : List CKey} (s : FileWallet) (hcrypted : s.fUseCrypto = true)
    (hnodup : (keys.map fun k => k.getPubKey E).Nodup)
    (hnone : ∀ key ∈ keys, s.file.ckey.lookup (key.getPubKey E) = none) :
    ∃ s', encryptAll E C .fine mk keys s = some s' := by
  induction keys generalizing s with
  | nil => exact ⟨s,rfl⟩
  | cons key keys ih =>
    rw [List.map_cons, List.nodup_cons] at hnodup
    have henc : tryEncrypt C .fine mk key.vch ((key.getPubKey E).getHash E) =
        some (C.encrypt mk (ivBytes ((key.getPubKey E).getHash E)) key.vch) := by
      unfold tryEncrypt encryptSecret
      rw [if_pos hmk]
      rfl
    obtain ⟨b,d,heq,hd⟩ := add_crypted_cases E .fine (key.getPubKey E)
      (C.encrypt mk (ivBytes ((key.getPubKey E).getHash E)) key.vch) hcrypted
    have hwrite := write_crypted_taken .fine
      (C.encrypt mk (ivBytes ((key.getPubKey E).getHash E)) key.vch)
      (hnone key List.mem_cons_self) rfl rfl
    have hb : (addCryptedKey E .fine (key.getPubKey E)
        (C.encrypt mk (ivBytes ((key.getPubKey E).getHash E)) key.vch) s).1 = true := by
      unfold addCryptedKey CCryptoKeyStore.addCryptedKey
      rw [set_crypted _ hcrypted]
      exact hwrite
    rw [heq] at hb
    dsimp only at hb
    obtain ⟨_,rfl⟩ := hd.resolve_left fun hd => by rw [hd.1] at hb; cases hb
    unfold encryptAll
    dsimp only
    rw [henc]
    dsimp only
    rw [heq]
    dsimp only
    rw [if_pos hb]
    apply ih
    · exact hcrypted
    · exact hnodup.2
    · intro k hk
      dsimp only
      rw [lookup_insert_if, if_neg, hnone k (List.mem_cons_of_mem key hk)]
      intro hsame
      exact hnodup.1 (List.mem_map.mpr ⟨k,hk,hsame⟩)

theorem plain_keys_nodup {s : FileWallet} (h : Plain E s) :
    (((inOrder leID s.mapKeys).map Sigma.snd).map fun k : CKey => k.getPubKey E).Nodup := by
  apply List.Nodup.of_map fun pub : CPubKey => pub.getID E
  have hids : (((inOrder leID s.mapKeys).map Sigma.snd).map fun k : CKey => k.getPubKey E).map
      (fun pub : CPubKey => pub.getID E) = (inOrder leID s.mapKeys).map Sigma.fst := by
    rw [List.map_map, List.map_map]
    apply List.map_congr_left
    intro x hx
    exact (h.ids x.1 x.2 ((mem_in_order _ _ _ _).mp hx)).symm
  rw [hids]
  exact ((in_order_perm leID s.mapKeys).map Sigma.fst).nodup_iff.mpr s.mapKeys.nodupKeys

def oneKey : CKey := ⟨List.replicate 31 0++[1],true,by decide +kernel⟩

def fineEncrypting (salt : List UInt8) (n m : ℕ) (pool : List CKey) : Encrypting :=
  ⟨List.replicate 32 0,rfl,salt,n,m,true,true,.fine,pool,.fine⟩

theorem renew_fine (hG : G.order = curveOrder) (hE : E.Sized) (hC : C.Lawful) (pass : List UInt8)
    (e : Encrypting) (id : ℕ) (r : CMasterKey) (s₀ s : FileWallet) (h : Committed E C pass e id r s₀ s)
    (ho : e.oPool = .fine)
    (hpool : e.pool = [] ∨ (s₀.mapKeys.entries.isEmpty = true ∧ ∃ key, e.pool = [key])) :
    ∃ s', renewPool G E C pass e s = some (some true,s') := by
  have hl := (locked_of_crypted s h.keyed.store.crypted).mpr h.master
  have hopen := made_opens C hC h.keyed.made
  obtain ⟨s₁,hright,h₁,hm,hfile⟩ := unlock_right G E C id hG hE hC h.keyed h.master
    hopen
  have hopened : s₁.isLocked = false := open_master (by rw [hm]; exact mk_ne_nil h.keyed.sized)
  have hadd : (addPool E C .fine e.pool s₁).1 = true := by
    rcases hpool with hnil | ⟨hempty,key,hkey⟩
    · rw [hnil]
      rfl
    · obtain ⟨hnone,hfileNone⟩ := h.nothing hempty
      obtain ⟨hone,_⟩ := taken_add_key E C .fine key h₁ hopened
        (by rw [hfile hnone]; exact hfileNone _) rfl rfl rfl
      rw [hkey]
      unfold addPool
      dsimp only
      rw [if_pos hone]
      rfl
  unfold renewPool
  rw [lock_locked e.oPool hl, ho]
  dsimp only
  rw [hright]
  dsimp only
  rw [hopened, if_neg (by decide), if_pos hadd]
  exact ⟨_,rfl⟩

theorem encrypt_wallet_fine {pass salt : List UInt8} {n m : ℕ} {pool : List CKey}
    {x : List UInt8 × List UInt8} {s s₁ : FileWallet} (hplain : s.fUseCrypto = false)
    (hx : setKeyFromPassphrase C pass salt n m = some x)
    (hkeys : encryptKeys E C .fine (List.replicate 32 0) (begun C (fineEncrypting salt n m pool) x s) =
      some s₁) :
    encryptWallet G E C pass (fineEncrypting salt n m pool) s =
      renewPool G E C pass (fineEncrypting salt n m pool)
        (encryptAddresses E C .fine (List.replicate 32 0) (inOrder leScan s₁.stealthAddresses) s₁) := by
  have hset : setKeyFromPassphrase (failing C (fineEncrypting salt n m pool).o) pass
      (fineEncrypting salt n m pool).vchSalt (fineEncrypting salt n m pool).nDeriveIterations
      (fineEncrypting salt n m pool).nDerivationMethod = some x := hx
  unfold encryptWallet
  rw [hplain, if_neg (by decide), hset]
  change ite (false = true) _ (ite (false = true) _ _) = _
  rw [if_neg Bool.false_ne_true, if_neg Bool.false_ne_true]
  split
  · next hnone => cases hnone.symm.trans hkeys
  · next s₂ hsome =>
    obtain rfl := Option.some.inj (hsome.symm.trans hkeys)
    rfl

theorem can_encrypt (hG : G.order = curveOrder) (hE : E.Sized) (hC : C.Lawful) (hown : OwnKey C) (s : FileWallet) (h : Plain E s)
    (hrec : NoRecords s) : CanEncrypt G E C s := by
  intro pass salt n m x hx
  obtain ⟨pool,hpool,hfills⟩ : ∃ pool : List CKey,
      (pool = [] ∨ (s.mapKeys.entries.isEmpty = true ∧ ∃ key, pool = [key])) ∧
      (s.mapKeys.entries.isEmpty = false ∨ ∃ key, pool = [key]) := by
    cases hne : s.mapKeys.entries.isEmpty with
    | false => exact ⟨[],Or.inl rfl,Or.inl rfl⟩
    | true => exact ⟨[oneKey],Or.inr ⟨rfl,oneKey,rfl⟩,Or.inr ⟨oneKey,rfl⟩⟩
  let e := fineEncrypting salt n m pool
  have hcrypted : (s.mapCryptedKeys.entries.isEmpty) = true := entries_empty s.mapCryptedKeys h.crypted
  obtain ⟨s₀,hall⟩ := encrypt_all_fine E C e.drawn
    { begun C e x s with fUseCrypto := true } rfl (plain_keys_nodup E h) fun key _ => h.fileCrypted _
  have hkeys : encryptKeys E C e.o e.vMasterKey (begun C e x s) = some { s₀ with mapKeys := ∅ } := by
    unfold encryptKeys
    have hno : (!(begun C e x s).mapCryptedKeys.entries.isEmpty || (begun C e x s).fUseCrypto) = false := by
      change (!s.mapCryptedKeys.entries.isEmpty || s.fUseCrypto) = false
      rw [hcrypted, h.plain]
      rfl
    rw [hno, if_neg (by decide)]
    exact congrArg (Option.map fun s : FileWallet => { s with mapKeys := ∅ }) hall
  have hcommit := commit_keyed E C hC pass e x s _ h hrec hx rfl (fun _ _ => rfl) hkeys
  obtain ⟨s',hrenew⟩ := renew_fine G E C hG hE hC pass e _ _ s _ hcommit rfl hpool
  have hfills' : Fills E C pass e s := hfills.imp id fun ⟨key,hkey⟩ =>
    ⟨key,[],hkey,fun y hy => made_opens C hC ⟨y,hy,rfl⟩,rfl,rfl,rfl⟩
  obtain ⟨hk,hf,_⟩ := renew_keyed G E C hG hE hC hcommit hx hfills' hrenew
  refine ⟨e,s',?_,keyed_opened G E C hG hE hC hown hk hf⟩
  exact (encrypt_wallet_fine G E C h.plain hx hkeys).trans hrenew

end Later

end SwippCore.WalletFile
