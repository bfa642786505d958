import SwippCore.WalletFile
import SwippCore.WalletUnlock

/-!
# Master keys in memory and in the file

A wallet with one master key has all its secrets under it, in memory and in the file, and
the record that opens with its passphrase. Keys that were found while it was locked have no
secret yet, and none of them comes first. Keys that are added keep this.
-/

set_option autoImplicit false

namespace SwippCore.WalletFile
open FinMap Key Stealth Crypter CCryptoKeyStore WalletKeys WalletUnlock

section Failing
variable (C : Cipher) (o : Outcomes)

theorem failing_fine : failing C .fine = C := rfl

theorem failing_decrypt {k iv c p : List UInt8} (h : (failing C o).decrypt k iv c = some p) :
    C.decrypt k iv c = some p := by
  unfold failing at h
  dsimp only at h
  split at h
  · exact h
  · cases h

theorem failing_set_key {pass salt : List UInt8} {n m : ℕ} {x : List UInt8 × List UInt8}
    (h : setKeyFromPassphrase (failing C o) pass salt n m = some x) :
    setKeyFromPassphrase C pass salt n m = some x := by
  unfold setKeyFromPassphrase failing at h
  unfold setKeyFromPassphrase
  split at h
  · cases h
  · rename_i hsize
    split at h
    · rename_i hmethod
      rw [if_neg hsize, if_pos hmethod]
      dsimp only at h
      split at h
      · exact h
      · cases h
    · cases h

theorem failing_open {pass mk : List UInt8} {r : CMasterKey}
    (h : openMasterKey (failing C o) pass r = some mk) : openMasterKey C pass r = some mk := by
  unfold openMasterKey at h ⊢
  obtain ⟨x,hx,hmk⟩ := Option.bind_eq_some_iff.mp h
  rw [failing_set_key C o hx, Option.bind_some]
  exact failing_decrypt C o hmk

theorem failing_decrypt_secret {mk c p : List UInt8} {iv : Uint256}
    (h : decryptSecret (failing C o) mk c iv = some p) :
    mk.length = walletCryptoKeySize ∧ C.decrypt mk (ivBytes iv) c = some p := by
  unfold decryptSecret at h
  split at h
  · rename_i hmk
    exact ⟨hmk,failing_decrypt C o h⟩
  · cases h

theorem try_encrypt_some {mk p c : List UInt8} {iv : Uint256} (h : tryEncrypt C o mk p iv = some c) :
    mk.length = walletCryptoKeySize ∧ c = C.encrypt mk (ivBytes iv) p := by
  unfold tryEncrypt encryptSecret at h
  split at h
  · split at h
    · rename_i hmk
      exact ⟨hmk,(Option.some.inj h).symm⟩
    · cases h
  · cases h

end Failing

section Stores
variable (E : KeyEnv) (C : Cipher)

structure KeyedStore (mk : List UInt8) (k : CCryptoKeyStore) : Prop where
  crypted : k.fUseCrypto = true
  master : k.vMasterKey = [] ∨ k.vMasterKey = mk
  entries : ∀ id x, k.mapCryptedKeys.lookup id = some x → x.2 = [] ∨ ∃ key, x = sealedEntry E C mk key
  front : Fronted k.mapCryptedKeys BitVec.toNat fun x => x.2 ≠ []

theorem le_id_num (a b : Uint160) (h : leID a b = true) : a.toNat ≤ b.toNat := of_decide_eq_true h

theorem first_sealed (mk : List UInt8) (k : CCryptoKeyStore) (h : KeyedStore E C mk k) (id : Uint160)
    (x : CPubKey × List UInt8) (hf : first leID k.mapCryptedKeys = some ⟨id,x⟩) :
    ∃ key, x = sealedEntry E C mk key := by
  have hne := first_fronted _ _ _ leID le_id_ordered le_id_num h.front id x hf
  exact (h.entries id x (first_some leID _ le_id_ordered id x hf).1).resolve_left hne

theorem store_unlock_cases (hE : E.Sized) (hC : C.Lawful) (o : Outcomes) (mk m : List UInt8)
    (hmk : mk.length = walletCryptoKeySize) {k : CCryptoKeyStore} (h : KeyedStore E C mk k) :
    k.unlock E (failing C o) m = some (false,k) ∨
      (k.unlock E (failing C o) m = some (true,{ k with vMasterKey := m }) ∧
        ((∃ id x, k.mapCryptedKeys.lookup id = some x) → m = mk)) := by
  unfold CCryptoKeyStore.unlock
  rw [set_crypted k h.crypted]
  dsimp only
  match hf : first leID k.mapCryptedKeys with
  | none =>
    refine Or.inr ⟨rfl,?_⟩
    rintro ⟨id,x,hx⟩
    rw [first_none leID _ hf id] at hx
    cases hx
  | some ⟨id,pub,sec⟩ =>
    dsimp only
    obtain ⟨key,hkey⟩ := first_sealed E C mk k h id (pub,sec) hf
    obtain ⟨hpub,hsec⟩ := Prod.mk.inj hkey
    split
    · exact Or.inl rfl
    · rename_i vchSecret hdec
      split
      · exact Or.inl rfl
      · rename_i hlen
        rw [not_not] at hlen
        obtain ⟨hm,hdec⟩ := failing_decrypt_secret C o hdec
        rw [hsec, hpub] at hdec
        have heq := hC.keyed mk m _ key.vch vchSecret hmk hm key.length hlen hdec
        subst heq
        rw [hC.decrypts m _ key.vch hm] at hdec
        rw [← Option.some.inj hdec, hpub, compressed_of_key E hE, CKey.set_self]
        dsimp only
        rw [if_pos rfl]
        exact Or.inr ⟨rfl,fun _ => rfl⟩

theorem store_takes (hE : E.Sized) (hC : C.Lawful) (mk : List UInt8)
    (hmk : mk.length = walletCryptoKeySize) (k : CCryptoKeyStore) (h : KeyedStore E C mk k) :
    k.unlock E C mk = some (true,{ k with vMasterKey := mk }) := by
  unfold CCryptoKeyStore.unlock
  rw [set_crypted k h.crypted]
  dsimp only
  match hf : first leID k.mapCryptedKeys with
  | none => rfl
  | some ⟨id,pub,sec⟩ =>
    dsimp only
    obtain ⟨key,hkey⟩ := first_sealed E C mk k h id (pub,sec) hf
    have hpub : pub = key.getPubKey E := congrArg Prod.fst hkey
    have hdec := decrypt_entry E C hC hmk key
    rw [← hkey] at hdec
    dsimp only at hdec
    rw [hdec]
    dsimp only
    rw [if_neg (not_not.mpr key.length), hpub, compressed_of_key E hE, CKey.set_self]
    dsimp only
    rw [if_pos rfl]

theorem store_takes_any (C' : Cipher) (m : List UInt8) {k : CCryptoKeyStore}
    (h : k.fUseCrypto = true) (hnone : ∀ i, k.mapCryptedKeys.lookup i = none) :
    k.unlock E C' m = some (true,{ k with vMasterKey := m }) := by
  unfold CCryptoKeyStore.unlock
  rw [set_crypted k h]
  dsimp only
  match hf : first leID k.mapCryptedKeys with
  | none => rfl
  | some ⟨id,x⟩ =>
    have hlook := (first_some leID _ le_id_ordered id x hf).1
    rw [hnone id] at hlook
    cases hlook

end Stores

section Wallets
variable {P : Type} (G : EcGroup P) (E : KeyEnv) (C : Cipher)

def derivedKey (pass : List UInt8) (r : CMasterKey) : Option (List UInt8) :=
  (setKeyFromPassphrase C pass r.vchSalt r.nDeriveIterations r.nDerivationMethod).map Prod.fst

def MadeWith (pass mk : List UInt8) (r : CMasterKey) : Prop :=
  ∃ x, setKeyFromPassphrase C pass r.vchSalt r.nDeriveIterations r.nDerivationMethod = some x ∧
    r.vchCryptedKey = C.encrypt x.1 x.2 mk

structure Keyed (pass mk : List UInt8) (id : ℕ) (r : CMasterKey) (s : FileWallet) : Prop where
  store : KeyedStore E C mk s.toCCryptoKeyStore
  sized : mk.length = walletCryptoKeySize
  made : MadeWith C pass mk r
  record : Sole s.mapMasterKeys id r
  fileRecord : Sole s.file.mkey id r
  fileEntries : ∀ pub c, s.file.ckey.lookup pub = some c → c = [] ∨ ∃ key, (pub,c) = sealedEntry E C mk key
  fileFront : Fronted s.file.ckey (fun pub => (pub.getID E).toNat) fun c => c ≠ []
  fileKeys : ∀ pub, s.file.key.lookup pub = none

structure Filled (s : FileWallet) : Prop where
  memory : ∃ id x, s.mapCryptedKeys.lookup id = some x
  file : ∃ pub c, s.file.ckey.lookup pub = some c

theorem set_key_sized (hC : C.Lawful) {pass salt : List UInt8} {n m : ℕ}
    {x : List UInt8 × List UInt8} (h : setKeyFromPassphrase C pass salt n m = some x) :
    x.1.length = walletCryptoKeySize := by
  unfold setKeyFromPassphrase at h
  split at h
  · cases h
  · split at h
    · exact hC.sized _ _ _ _ x.1 x.2 h
    · cases h

theorem made_opens (hC : C.Lawful) {pass mk : List UInt8} {r : CMasterKey}
    (h : MadeWith C pass mk r) : openMasterKey C pass r = some mk := by
  obtain ⟨x,hx,hr⟩ := h
  unfold openMasterKey
  rw [hx, Option.bind_some, hr]
  exact hC.decrypts x.1 x.2 mk (set_key_sized C hC hx)

def withMaster (s : FileWallet) (m : List UInt8) (sxs : Dict (List UInt8) CStealthAddress) : FileWallet :=
  { s with toCCryptoKeyStore := { s.toCCryptoKeyStore with vMasterKey := m }, stealthAddresses := sxs }

theorem keyed_with_master (pass mk : List UInt8) (id : ℕ) (r : CMasterKey) (s : FileWallet)
    (h : Keyed E C pass mk id r s) (m : List UInt8) (sxs : Dict (List UInt8) CStealthAddress)
    (hm : m = [] ∨ m = mk) : Keyed E C pass mk id r (withMaster s m sxs) :=
  ⟨⟨h.store.crypted,hm,h.store.entries,h.store.front⟩,h.sized,h.made,h.record,h.fileRecord,h.fileEntries,
    h.fileFront,h.fileKeys⟩

theorem filled_with_master (s : FileWallet) (h : Filled s) (m : List UInt8)
    (sxs : Dict (List UInt8) CStealthAddress) : Filled (withMaster s m sxs) := ⟨h.memory,h.file⟩

theorem locked_of_crypted (s : FileWallet) (h : s.fUseCrypto = true) :
    s.isLocked = true ↔ s.vMasterKey = [] := by
  unfold CCryptoKeyStore.isLocked
  rw [h, Bool.true_and, List.isEmpty_iff]

variable {s : FileWallet}

theorem open_master (h : s.vMasterKey ≠ []) : s.isLocked = false := by
  unfold CCryptoKeyStore.isLocked
  rw [List.isEmpty_eq_false_iff.mpr h, Bool.and_false]

theorem mk_ne_nil {mk : List UInt8} (hmk : mk.length = walletCryptoKeySize) : mk ≠ [] := by
  intro h
  rw [h] at hmk
  cases hmk

theorem lock_open_eq (o : Outcomes) (h : s.fUseCrypto = true) (hl : s.isLocked = false) :
    lock o s = (true,withMaster s [] (mapValues (reread o s.file) s.stealthAddresses)) := by
  unfold lock CCryptoKeyStore.lockKeyStore
  rw [hl, if_neg (by decide), set_crypted _ h]
  rfl

theorem lock_crypted (o : Outcomes) (h : s.fUseCrypto = true) :
    (lock o s).1 = true ∧ ∃ sxs, (lock o s).2 = withMaster s [] sxs := by
  cases hl : s.isLocked with
  | true =>
    have hm := (locked_of_crypted s h).mp hl
    unfold lock
    rw [if_pos hl]
    refine ⟨rfl,s.stealthAddresses,?_⟩
    unfold withMaster
    rw [← hm]
  | false =>
    rw [lock_open_eq o h hl]
    exact ⟨rfl,_,rfl⟩

end Wallets

section Adding
variable (E : KeyEnv) (C : Cipher)

theorem write_crypted_cases (o : Outcomes) (pub : CPubKey) (c : List UInt8) (d : WalletDB) :
    writeCryptedKey o pub c d = (false,d) ∨
      writeCryptedKey o pub c d = (true,{ d with
        ckey := d.ckey.insert pub c
        key := if o.erased (.key pub) then d.key.erase pub else d.key }) := by
  unfold writeCryptedKey
  split
  · exact Or.inl rfl
  · split
    · exact Or.inr rfl
    · exact Or.inl rfl

theorem write_crypted_new {o : Outcomes} {pub : CPubKey} {c : List UInt8} {d : WalletDB}
    (h : (writeCryptedKey o pub c d).1 = true) : d.ckey.lookup pub = none := by
  unfold writeCryptedKey at h
  split at h
  · cases h
  · split at h
    · rename_i hnew
      rw [Bool.and_eq_true] at hnew
      exact Option.isNone_iff_eq_none.mp hnew.2
    · cases h

theorem add_crypted_cases (o : Outcomes) (pub : CPubKey) (c : List UInt8) {s : FileWallet}
    (h : s.fUseCrypto = true) : ∃ b d, addCryptedKey E o pub c s = (b,{ s with
        mapCryptedKeys := s.mapCryptedKeys.insert (pub.getID E) (pub,c), file := d }) ∧
      ((b = false ∧ d = s.file) ∨ (b = true ∧ d = { s.file with
        ckey := s.file.ckey.insert pub c
        key := if o.erased (.key pub) then s.file.key.erase pub else s.file.key })) := by
  unfold addCryptedKey CCryptoKeyStore.addCryptedKey
  rw [set_crypted _ h, Option.map_some]
  dsimp only
  rcases write_crypted_cases o pub c s.file with hw | hw
  · rw [hw]
    exact ⟨false,s.file,rfl,Or.inl ⟨rfl,rfl⟩⟩
  · rw [hw]
    exact ⟨true,_,rfl,Or.inr ⟨rfl,rfl⟩⟩

theorem erase_if_lookup {K V : Type} [DecidableEq K] (b : Bool) (m : Dict K V) (k j : K) :
    (if b then m.erase k else m).lookup j = if b = true ∧ j = k then none else m.lookup j := by
  cases b with
  | false => rw [if_neg (by decide), if_neg fun h => absurd h.1 (by decide)]
  | true =>
    rw [if_pos rfl, lookup_erase_if]
    by_cases hj : j = k
    · rw [if_pos hj, if_pos ⟨rfl,hj⟩]
    · rw [if_neg hj, if_neg fun h => hj h.2]

variable (pass mk : List UInt8) (id : ℕ) (r : CMasterKey)

theorem keyed_add_crypted (hC : C.Lawful) (o : Outcomes) (key : CKey) {s : FileWallet}
    (h : Keyed E C pass mk id r s) :
    Keyed E C pass mk id r (addCryptedKey E o (sealedEntry E C mk key).1 (sealedEntry E C mk key).2 s).2 := by
  obtain ⟨b,d,heq,hd⟩ := add_crypted_cases E o (sealedEntry E C mk key).1 (sealedEntry E C mk key).2
    h.store.crypted
  have hstore : ∀ i x, (s.mapCryptedKeys.insert ((sealedEntry E C mk key).1.getID E)
      ((sealedEntry E C mk key).1,(sealedEntry E C mk key).2)).lookup i = some x →
      x.2 = [] ∨ ∃ key, x = sealedEntry E C mk key := by
    intro i x hx
    rw [lookup_insert_if] at hx
    split at hx
    · exact Or.inr ⟨key,(Option.some.inj hx).symm⟩
    · exact h.store.entries i x hx
  have hne := entry_ne_nil E C hC h.sized key
  have hfront := fronted_insert _ _ _ h.store.front ((sealedEntry E C mk key).1.getID E)
    hne
  rw [heq]
  rcases hd with ⟨_,rfl⟩ | ⟨_,rfl⟩
  · exact ⟨⟨h.store.crypted,h.store.master,hstore,hfront⟩,h.sized,h.made,h.record,h.fileRecord,
      h.fileEntries,h.fileFront,h.fileKeys⟩
  · refine ⟨⟨h.store.crypted,h.store.master,hstore,hfront⟩,h.sized,h.made,h.record,h.fileRecord,?_,
      fronted_insert _ _ _ h.fileFront _ hne,?_⟩
    · intro pub c hc
      dsimp only at hc
      rw [lookup_insert_if] at hc
      split at hc
      · rename_i hpub
        refine Or.inr ⟨key,?_⟩
        rw [hpub, ← Option.some.inj hc]
      · exact h.fileEntries pub c hc
    · intro pub
      dsimp only
      rw [erase_if_lookup]
      split
      · rfl
      · exact h.fileKeys pub

theorem filled_add_crypted (o : Outcomes) (pub : CPubKey) (c : List UInt8) {s : FileWallet}
    (hcrypted : s.fUseCrypto = true) (h : Filled s) : Filled (addCryptedKey E o pub c s).2 := by
  obtain ⟨b,d,heq,hd⟩ := add_crypted_cases E o pub c hcrypted
  obtain ⟨p,v,hv⟩ := h.file
  rw [heq]
  constructor
  · exact ⟨pub.getID E,(pub,c),AList.lookup_insert _⟩
  · rcases hd with ⟨_,rfl⟩ | ⟨_,rfl⟩
    · exact h.file
    · exact ⟨pub,c,AList.lookup_insert _⟩

theorem add_key_keyed_cases (o : Outcomes) (key : CKey) {s : FileWallet}
    (h : Keyed E C pass mk id r s) :
    (addKeyPubKey E C o key s).2 = s ∨ (s.isLocked = false ∧ addKeyPubKey E C o key s =
      addCryptedKey E o (sealedEntry E C mk key).1 (sealedEntry E C mk key).2 s) := by
  unfold addKeyPubKey
  dsimp only
  rw [h.store.crypted, if_neg (by decide)]
  split
  · exact Or.inl rfl
  · rename_i hl
    split
    · exact Or.inl rfl
    · rename_i c hc
      obtain ⟨_,hc⟩ := try_encrypt_some C o hc
      have hm : s.vMasterKey = mk := by
        rcases h.store.master with hm | hm
        · exact absurd ((locked_of_crypted s h.store.crypted).mpr hm) hl
        · exact hm
      rw [hm] at hc
      rw [hc]
      exact Or.inr ⟨Bool.eq_false_iff.mpr hl,rfl⟩

theorem keyed_add_key (hC : C.Lawful) (o : Outcomes) (key : CKey) {s : FileWallet}
    (h : Keyed E C pass mk id r s) :
    Keyed E C pass mk id r (addKeyPubKey E C o key s).2 ∧
      (Filled s → Filled (addKeyPubKey E C o key s).2) := by
  rcases add_key_keyed_cases E C pass mk id r o key h with heq | ⟨_,heq⟩
  · rw [heq]
    exact ⟨h,fun hfill => hfill⟩
  · rw [heq]
    exact ⟨keyed_add_crypted E C pass mk id r hC o key h,filled_add_crypted E o _ _ h.store.crypted⟩

theorem add_key_master (o : Outcomes) (key : CKey) (s : FileWallet) (h : Keyed E C pass mk id r s) :
    (addKeyPubKey E C o key s).2.vMasterKey = s.vMasterKey := by
  rcases add_key_keyed_cases E C pass mk id r o key h with heq | ⟨_,heq⟩
  · rw [heq]
  · obtain ⟨b,d,hadd,_⟩ := add_crypted_cases E o (sealedEntry E C mk key).1 (sealedEntry E C mk key).2
      h.store.crypted
    rw [heq, hadd]

theorem keyed_add_pool (hC : C.Lawful) (o : Outcomes) (keys : List CKey) (s : FileWallet) (h : Keyed E C pass mk id r s) :
    Keyed E C pass mk id r (addPool E C o keys s).2 ∧
      (Filled s → Filled (addPool E C o keys s).2) := by
  induction keys generalizing s with
  | nil => exact ⟨h,fun hf => hf⟩
  | cons key keys ih =>
    obtain ⟨hk,hf⟩ := keyed_add_key E C pass mk id r hC o key h
    unfold addPool
    dsimp only
    split
    · obtain ⟨hk',hf'⟩ := ih _ hk
      exact ⟨hk',fun hfill => hf' (hf hfill)⟩
    · exact ⟨hk,hf⟩

/-- A key that comes in without its secret stands behind one that has it, in memory and, where
it is written, in the file. -/
def ReceiveOk (o : Outcomes) (cpkE : CPubKey) (s : FileWallet) : Prop :=
  s.isLocked = true → s.haveKey (cpkE.getID E) = false →
    (∃ j x, s.mapCryptedKeys.lookup j = some x ∧ x.2 ≠ [] ∧ j.toNat < (cpkE.getID E).toNat) ∧
    ((writeCryptedKey o cpkE [] s.file).1 = true → ∃ pub c, s.file.ckey.lookup pub = some c ∧ c ≠ [] ∧
      (pub.getID E).toNat < (cpkE.getID E).toNat)

theorem keyed_receive {o : Outcomes} {cpkE : CPubKey} (lockedSkMeta : CStealthKeyMetadata)
    {s : FileWallet} (h : Keyed E C pass mk id r s) (hok : ReceiveOk E o cpkE s) :
    Keyed E C pass mk id r (receiveLocked E o cpkE lockedSkMeta s) ∧
      (Filled s → Filled (receiveLocked E o cpkE lockedSkMeta s)) := by
  unfold receiveLocked
  split
  · exact ⟨h,fun hf => hf⟩
  · rename_i hhave
    split
    · rename_i hl
      rw [Bool.not_eq_true] at hhave
      obtain ⟨hmemory,hfile⟩ := hok hl hhave
      have hnone : s.mapCryptedKeys.lookup (cpkE.getID E) = none := by
        unfold CCryptoKeyStore.haveKey at hhave
        rw [h.store.crypted, if_neg (by decide), Option.isSome_eq_false_iff, Option.isNone_iff_eq_none] at hhave
        exact hhave
      have hentries : ∀ i x, (s.mapCryptedKeys.insert (cpkE.getID E) (cpkE,[])).lookup i = some x →
          x.2 = [] ∨ ∃ key, x = sealedEntry E C mk key := by
        intro i x hx
        rw [lookup_insert_if] at hx
        split at hx
        · exact Or.inl (by rw [← Option.some.inj hx])
        · exact h.store.entries i x hx
      have hfront := fronted_insert_behind _ _ _ h.store.front (cpkE,[]) hnone hmemory
      have hfill := filled_add_crypted E o cpkE [] h.store.crypted
      have hmeta : ∀ d : WalletDB, ∃ m, writeStealthKeyMeta o (cpkE.getID E) lockedSkMeta d =
          { d with sxKeyMeta := m } := by
        intro d
        unfold writeStealthKeyMeta
        split
        · exact ⟨_,rfl⟩
        · exact ⟨d.sxKeyMeta,rfl⟩
      obtain ⟨m,hm⟩ := hmeta (addCryptedKey E o cpkE [] s).2.file
      dsimp only
      rw [hm]
      refine ⟨?_,fun hf => ⟨(hfill hf).memory,(hfill hf).file⟩⟩
      have hcases := add_crypted_cases E o cpkE [] h.store.crypted
      have hwrite : (addCryptedKey E o cpkE [] s).1 = (writeCryptedKey o cpkE [] s.file).1 := by
        unfold addCryptedKey CCryptoKeyStore.addCryptedKey
        rw [set_crypted _ h.store.crypted]
        rfl
      obtain ⟨b,d,heq,hd⟩ := hcases
      rw [heq] at hwrite ⊢
      rcases hd with ⟨_,rfl⟩ | ⟨hb,rfl⟩
      · exact ⟨⟨h.store.crypted,h.store.master,hentries,hfront⟩,h.sized,h.made,h.record,h.fileRecord,
          h.fileEntries,h.fileFront,h.fileKeys⟩
      · have hfileNone : s.file.ckey.lookup cpkE = none := by
          rw [hb] at hwrite
          exact write_crypted_new hwrite.symm
        refine ⟨⟨h.store.crypted,h.store.master,hentries,hfront⟩,h.sized,h.made,h.record,h.fileRecord,?_,
          fronted_insert_behind _ _ _ h.fileFront [] hfileNone (hfile (hwrite.symm.trans hb)),?_⟩
        · intro pub c hc
          dsimp only at hc
          rw [lookup_insert_if] at hc
          split at hc
          · exact Or.inl (Option.some.inj hc).symm
          · exact h.fileEntries pub c hc
        · intro pub
          dsimp only
          rw [erase_if_lookup]
          split
          · rfl
          · exact h.fileKeys pub
    · exact ⟨h,fun hf => hf⟩

end Adding

end SwippCore.WalletFile
