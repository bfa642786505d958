import SwippCore.WalletKeys
import SwippCore.Lib.Histories

/-!
# An encrypted wallet and its passphrase

In an encrypted wallet every secret stands under the one master key that the
passphrase gives, or is missing. The first entry of the map decides whether a master
key is taken. The wallet can be opened, with all the keys it ever held, as long as
that first entry has a secret.
-/

set_option autoImplicit false

namespace SwippCore.WalletUnlock
open FinMap Key Stealth Crypter CCryptoKeyStore WalletKeys

def curveOrder : ℕ := 0xFFFFFFFFFFFFFFFFFFFFFFFFFFFFFFFEBAAEDCE6AF48A03BBFD25E8CD0364141

section Run
variable {P : Type} (G : EcGroup P) (E : KeyEnv) (C : Cipher)

inductive Event where
  | encryptWallet (strWalletPassphrase : List UInt8) (e : Encryption)
  | lock (read : CStealthAddress → Option (List UInt8))
  | unlock (strWalletPassphrase : List UInt8)
  | addKey (key : CKey) (fWritten : Bool)
  | addStealthAddress (sxAddr : CStealthAddress) (fWritten : Bool)
  | receive (R : Receipt) (tx : CTransaction)

def stepWallet (e : Event) (s : KeyWallet) : Option KeyWallet :=
  match e with
  | .encryptWallet pass e => (encryptWallet G E C pass e s).map Prod.snd
  | .lock read => some (WalletKeys.lock read s).2
  | .unlock pass => (WalletKeys.unlock G E C pass s).map Prod.snd
  | .addKey key fWritten => some (WalletKeys.addKey E C key fWritten s).2
  | .addStealthAddress sxAddr fWritten => some (WalletKeys.addStealthAddress E C sxAddr fWritten s).2
  | .receive R tx => findStealthTransactions G E C R tx s

def step (e : Event) (s : Option KeyWallet) : Option KeyWallet := s.bind (stepWallet G E C e)

def masterKeyOf (s : KeyWallet) (pass : List UInt8) : Option (List UInt8) :=
  s.mapMasterKeys.head?.bind (openMasterKey C pass)

def keyBefore (s : KeyWallet) (id : Uint160) : Bool :=
  (first leID s.mapCryptedKeys).any fun x => !leID id x.1

def foundBehind (tx : CTransaction) (s : KeyWallet) : Bool :=
  (tx.vout.filterMap fun out => ephemeral out.scriptPubKey).all fun x =>
    s.stealthAddresses.all fun sx => (paidKey G x.1 sx).all fun p =>
      !(tx.vout.any fun out => keyDestination E out.scriptPubKey == some (p.2.getID E)) ||
        s.haveKey (p.2.getID E) || keyBefore s (p.2.getID E)

def stepOk (s : KeyWallet) : Event → Bool
  | .encryptWallet pass e =>
    s.fUseCrypto || !e.fTxnBegin || s.mapMasterKeys.isEmpty ||
      (setKeyFromPassphrase C pass e.vchSalt e.nDeriveIterations e.nDerivationMethod).isNone
  | .lock _ => s.fUseCrypto || !s.mapKeys.entries.isEmpty
  | .unlock pass =>
    !s.isLocked || (first leID s.mapCryptedKeys).isSome || (masterKeyOf C s pass).isNone ||
      masterKeyOf C s pass == s.passphrase.bind (masterKeyOf C s)
  | .addKey _ _ => true
  | .addStealthAddress _ _ => true
  | .receive _ tx => !s.isLocked || foundBehind G E tx s

end Run

section Sealed
variable {P : Type} (G : EcGroup P) (E : KeyEnv) (C : Cipher)

def sealedEntry (mk : List UInt8) (key : CKey) : CPubKey × List UInt8 :=
  (key.getPubKey E,C.encrypt mk (ivBytes ((key.getPubKey E).getHash E)) key.vch)

structure Sealed (pass mk : List UInt8) (r : CMasterKey) (s : KeyWallet) : Prop where
  crypted : s.fUseCrypto = true
  passphrase : s.passphrase = some pass
  record : s.mapMasterKeys = [r]
  opens : openMasterKey C pass r = some mk
  sized : mk.length = walletCryptoKeySize
  master : s.vMasterKey = [] ∨ s.vMasterKey = mk
  entries : ∀ id x, s.mapCryptedKeys.lookup id = some x → x.2 = [] ∨ ∃ key, x = sealedEntry E C mk key
  ids : ∀ id x, s.mapCryptedKeys.lookup id = some x → id = x.1.getID E
  held : ∀ id key, s.held.lookup id = some key →
    s.mapCryptedKeys.lookup id = some (sealedEntry E C mk key)
  front : ∀ x, first leID s.mapCryptedKeys = some x → x.2.2 ≠ []

structure Clear (s : KeyWallet) : Prop where
  plain : s.fUseCrypto = false
  crypted : s.mapCryptedKeys = ∅
  master : s.vMasterKey = []
  held : s.held = s.mapKeys
  ids : ∀ id key, s.mapKeys.lookup id = some key → id = (key.getPubKey E).getID E

def Inv (s : KeyWallet) : Prop := Clear E s ∨ ∃ pass mk r, Sealed E C pass mk r s

variable {mk : List UInt8}

section
variable (hC : C.Lawful) (hmk : mk.length = walletCryptoKeySize) (key : CKey)
include hC hmk

theorem entry_ne_nil :
    (sealedEntry E C mk key).2 ≠ [] := by
  intro h
  have hdec := hC.decrypts mk (ivBytes ((key.getPubKey E).getHash E)) key.vch hmk
  unfold sealedEntry at h
  dsimp only at h
  rw [h, hC.empty] at hdec
  cases hdec

theorem decrypt_entry :
    decryptSecret C mk (sealedEntry E C mk key).2 ((sealedEntry E C mk key).1.getHash E) =
      some key.vch := by
  unfold decryptSecret
  rw [if_pos hmk]
  exact hC.decrypts mk _ key.vch hmk

end

variable {s : KeyWallet}

theorem locked_iff (h : s.fUseCrypto = true) : s.isLocked = true ↔ s.vMasterKey = [] := by
  unfold CCryptoKeyStore.isLocked
  rw [h, Bool.true_and, List.isEmpty_iff]

theorem set_crypted (k : CCryptoKeyStore) (h : k.fUseCrypto = true) : k.setCrypted = some k := by
  unfold CCryptoKeyStore.setCrypted
  rw [if_pos h]

theorem sealed_insert (hC : C.Lawful) {pass : List UInt8} {r : CMasterKey}
    (hs : Sealed E C pass mk r s) {key : CKey} {k : CCryptoKeyStore}
    (hk : k = { s.toCCryptoKeyStore with
      mapCryptedKeys := s.mapCryptedKeys.insert ((key.getPubKey E).getID E) (sealedEntry E C mk key) }) :
    Sealed E C pass mk r { s with
      toCCryptoKeyStore := k
      held := s.held.insert ((key.getPubKey E).getID E) key } := by
  subst hk
  refine ⟨hs.crypted,hs.passphrase,hs.record,hs.opens,hs.sized,hs.master,?_,?_,?_,?_⟩
  · intro id x hx
    dsimp only at hx
    rw [lookup_insert_if] at hx
    split at hx
    · exact Or.inr ⟨key,(Option.some.inj hx).symm⟩
    · exact hs.entries id x hx
  · intro id x hx
    dsimp only at hx
    rw [lookup_insert_if] at hx
    split at hx
    · rename_i hid
      rw [hid, ← Option.some.inj hx]
      rfl
    · exact hs.ids id x hx
  · intro id key' hx
    dsimp only at hx ⊢
    rw [lookup_insert_if] at hx ⊢
    split at hx
    · rename_i hid
      rw [if_pos hid, ← Option.some.inj hx]
    · rename_i hid
      rw [if_neg hid]
      exact hs.held id key' hx
  · intro x hx
    rcases first_insert leID s.mapCryptedKeys le_id_ordered hx with ⟨_,h⟩ | ⟨_,h⟩
    · rw [h]
      exact entry_ne_nil E C hC hs.sized key
    · exact hs.front x h

theorem add_key_cases (key : CKey) (fWritten : Bool) (s : KeyWallet) :
    (addKey E C key fWritten s).2 = s ∨
    (s.fUseCrypto = false ∧ (addKey E C key fWritten s).2 = { s with
      mapKeys := s.mapKeys.insert ((key.getPubKey E).getID E) key
      held := s.held.insert ((key.getPubKey E).getID E) key }) ∨
    (s.fUseCrypto = true ∧ s.isLocked = false ∧ s.vMasterKey.length = walletCryptoKeySize ∧
      (addKey E C key fWritten s).2 = { s with
        mapCryptedKeys := s.mapCryptedKeys.insert ((key.getPubKey E).getID E)
          (sealedEntry E C s.vMasterKey key)
        held := s.held.insert ((key.getPubKey E).getID E) key }) := by
  unfold addKey CCryptoKeyStore.addKeyPubKey
  dsimp only
  by_cases hu : s.fUseCrypto = true
  · have hn : (!s.fUseCrypto) = false := by rw [hu]; rfl
    rw [hn, if_neg (by decide)]
    by_cases hl : s.isLocked = true
    · rw [if_pos hl]
      exact Or.inl rfl
    · rw [if_neg hl]
      unfold encryptSecret
      by_cases hsize : s.vMasterKey.length = walletCryptoKeySize
      · rw [if_pos hsize, Option.bind_some]
        unfold CCryptoKeyStore.addCryptedKey
        rw [set_crypted _ hu]
        rw [Bool.not_eq_true] at hl
        exact Or.inr (Or.inr ⟨hu,hl,hsize,rfl⟩)
      · rw [if_neg hsize]
        exact Or.inl rfl
  · rw [Bool.not_eq_true] at hu
    have hn : (!s.fUseCrypto) = true := by rw [hu]; rfl
    rw [hn, if_pos rfl]
    exact Or.inr (Or.inl ⟨hu,rfl⟩)

theorem sealed_add_key (hC : C.Lawful) {pass : List UInt8} {r : CMasterKey}
    (hs : Sealed E C pass mk r s) (key : CKey) (fWritten : Bool) :
    Sealed E C pass mk r (addKey E C key fWritten s).2 := by
  rcases add_key_cases E C key fWritten s with h | ⟨hu,_⟩ | ⟨_,hl,_,h⟩
  · rw [h]
    exact hs
  · rw [hs.crypted] at hu
    cases hu
  · have hmk : s.vMasterKey = mk := by
      rcases hs.master with hm | hm
      · rw [(locked_iff hs.crypted).mpr hm] at hl
        cases hl
      · exact hm
    subst hmk
    rw [h]
    exact sealed_insert E C hC hs rfl

theorem add_key_master (key : CKey) (fWritten : Bool) (s : KeyWallet) :
    (addKey E C key fWritten s).2.vMasterKey = s.vMasterKey := by
  rcases add_key_cases E C key fWritten s with h | ⟨_,h⟩ | ⟨_,_,_,h⟩
  all_goals rw [h]

end Sealed

section Unlocking
variable {P : Type} (G : EcGroup P) (E : KeyEnv) (C : Cipher)

theorem bin_of_bn (n : ℕ) : bin2bn (bn2bin n) = n := by
  unfold bin2bn bn2bin
  rw [List.reverse_reverse, SignMagnitude.value_bytes]

section
variable (hG : G.order = curveOrder)
include hG

theorem spend_secret_checked {sharedS spendSecret b : List UInt8}
    (h : stealthSharedToSecretSpend G sharedS spendSecret = some b) : checkSecret b = true := by
  have hlt : (bin2bn spendSecret+bin2bn sharedS)%G.order < curveOrder := by
    rw [hG]
    exact Nat.mod_lt _ (by decide)
  unfold stealthSharedToSecretSpend at h
  dsimp only at h
  split at h
  · cases h
  · rename_i hne
    unfold sizedBin at h
    split at h
    · rename_i hlen
      cases h
      unfold checkSecret
      rw [bin_of_bn]
      simp only [Bool.and_eq_true, beq_iff_eq, decide_eq_true_eq]
      exact ⟨⟨hlen,Nat.pos_of_ne_zero hne⟩,Nat.le_of_lt_succ hlt⟩
    · cases h

theorem expanded_checked
    {scanSecret ephemPubkey spendSecret b : List UInt8}
    (h : stealthSecretSpend G scanSecret ephemPubkey spendSecret = some b) :
    checkSecret b = true := by
  unfold stealthSecretSpend at h
  obtain ⟨hash1,_,h⟩ := Option.bind_eq_some_iff.mp h
  exact spend_secret_checked G hG h

theorem expand_key_cases (pubKey : CPubKey) (sec : List UInt8)
    (s : KeyWallet) : expandKey G E C pubKey sec s = some s ∨
      ∃ key, sec = [] ∧ key.getPubKey E = pubKey ∧
        expandKey G E C pubKey sec s = some (addKey E C key true s).2 := by
  unfold expandKey
  split
  · exact Or.inl rfl
  · rename_i hsec
    rw [not_not, List.length_eq_zero_iff] at hsec
    cases s.mapStealthKeyMeta.lookup (pubKey.getID E) with
    | none => exact Or.inl rfl
    | some sxKeyMeta =>
      dsimp only
      cases findStealth sxKeyMeta.pkScan.vch s.stealthAddresses with
      | none => exact Or.inl rfl
      | some sx =>
        dsimp only
        split
        · exact Or.inl rfl
        · cases hsp : stealthSecretSpend G sx.scanSecret sxKeyMeta.pkEphem.vch sx.spendSecret with
          | none => exact Or.inl rfl
          | some sSpendR =>
            dsimp only
            split
            · exact Or.inl rfl
            · have hset : ∃ ckey, CKey.set sSpendR true = some ckey := by
                unfold CKey.set
                rw [dif_pos (expanded_checked G hG hsp)]
                exact ⟨_,rfl⟩
              obtain ⟨ckey,hset⟩ := hset
              rw [hset]
              dsimp only
              split
              · exact Or.inl rfl
              · split
                · exact Or.inl rfl
                · rename_i hpub
                  exact Or.inr ⟨ckey,hsec,not_not.mp hpub,rfl⟩

theorem expand_keys_sealed (hC : C.Lawful) (pass mk : List UInt8)
    (r : CMasterKey) (xs : List (CPubKey × List UInt8)) (s : KeyWallet)
    (hs : Sealed E C pass mk r s) : ∃ s', expandKeys G E C xs s = some s' ∧
      Sealed E C pass mk r s' ∧ s'.vMasterKey = s.vMasterKey := by
  induction xs generalizing s with
  | nil => exact ⟨s,rfl,hs,rfl⟩
  | cons x xs ih =>
    unfold expandKeys
    rcases expand_key_cases G E C hG x.1 x.2 s with h | ⟨key,_,_,h⟩
    · rw [h]
      exact ih s hs
    · rw [h]
      obtain ⟨s',hrun,hs',hm⟩ := ih _ (sealed_add_key E C hC hs key true)
      exact ⟨s',hrun,hs',hm.trans (add_key_master E C key true s)⟩

theorem expand_keys_held {xs : List (CPubKey × List UInt8)}
    {held : KeyMap} (hx : ∀ x ∈ xs, x.2 = [] → held.lookup (x.1.getID E) = none) (s s' : KeyWallet)
    (hs : ∀ id key, held.lookup id = some key → s.held.lookup id = some key)
    (h : expandKeys G E C xs s = some s') (id : Uint160) (key : CKey)
    (hk : held.lookup id = some key) : s'.held.lookup id = some key := by
  induction xs generalizing s with
  | nil =>
    cases h
    exact hs id key hk
  | cons x xs ih =>
    have hrest := fun y hy => hx y (List.mem_cons_of_mem x hy)
    unfold expandKeys at h
    rcases expand_key_cases G E C hG x.1 x.2 s with heq | ⟨ckey,hsec,hpub,heq⟩
    · rw [heq] at h
      exact ih hrest s hs h
    · rw [heq] at h
      refine ih hrest _ ?_ h
      intro i k hi
      have hne : i ≠ (ckey.getPubKey E).getID E := by
        intro hid
        rw [hid, hpub, hx x List.mem_cons_self hsec] at hi
        cases hi
      rcases add_key_cases E C ckey true s with h₁ | ⟨_,h₁⟩ | ⟨_,_,_,h₁⟩
      · rw [h₁]
        exact hs i k hi
      · rw [h₁]
        dsimp only
        rw [lookup_insert_if, if_neg hne]
        exact hs i k hi
      · rw [h₁]
        dsimp only
        rw [lookup_insert_if, if_neg hne]
        exact hs i k hi

end

variable {mk pass : List UInt8} {r : CMasterKey} {s : KeyWallet}

theorem empty_not_held (hC : C.Lawful) (hs : Sealed E C pass mk r s) (x : CPubKey × List UInt8)
    (hx : x ∈ (inOrder leID s.mapCryptedKeys).map Sigma.snd) (hsec : x.2 = []) :
    s.held.lookup (x.1.getID E) = none := by
  obtain ⟨y,hy,rfl⟩ := List.mem_map.mp hx
  have hlook := (mem_in_order leID s.mapCryptedKeys y.1 y.2).mp hy
  cases hh : s.held.lookup (y.2.1.getID E) with
  | none => rfl
  | some key =>
    exfalso
    have hentry := hs.held _ key hh
    rw [← hs.ids y.1 y.2 hlook, hlook] at hentry
    apply entry_ne_nil E C hC hs.sized key
    rw [← Option.some.inj hentry]
    exact hsec

theorem unlock_stealth_sealed (hG : G.order = curveOrder) (hC : C.Lawful)
    (vMasterKeyIn : List UInt8) (hs : Sealed E C pass mk r s) :
    ∃ s', unlockStealthAddresses G E C vMasterKeyIn s = some s' ∧ Sealed E C pass mk r s' ∧
      s'.vMasterKey = s.vMasterKey ∧
      ∀ id key, s.held.lookup id = some key → s'.held.lookup id = some key := by
  obtain ⟨s',hrun,hs',hm⟩ := expand_keys_sealed G E C hG hC pass mk r
    ((inOrder leID s.mapCryptedKeys).map Sigma.snd)
    { s with stealthAddresses := s.stealthAddresses.map (decryptStealth G E C vMasterKeyIn) }
    ⟨hs.crypted,hs.passphrase,hs.record,hs.opens,hs.sized,hs.master,hs.entries,hs.ids,hs.held,
      hs.front⟩
  exact ⟨s',hrun,hs',hm,expand_keys_held G E C hG (empty_not_held E C hC hs)
    { s with stealthAddresses := s.stealthAddresses.map (decryptStealth G E C vMasterKeyIn) } s'
    (fun id key h => h) hrun⟩

theorem sealed_master (hs : Sealed E C pass mk r s) {vMasterKey : List UInt8}
    (hm : vMasterKey = [] ∨ vMasterKey = mk) :
    Sealed E C pass mk r { s with
      toCCryptoKeyStore := { s.toCCryptoKeyStore with vMasterKey := vMasterKey } } :=
  ⟨hs.crypted,hs.passphrase,hs.record,hs.opens,hs.sized,hm,hs.entries,hs.ids,hs.held,hs.front⟩

theorem store_takes_master (hE : E.Sized) (hC : C.Lawful) (hs : Sealed E C pass mk r s) :
    s.toCCryptoKeyStore.unlock E C mk =
      some (true,{ s.toCCryptoKeyStore with vMasterKey := mk }) := by
  unfold CCryptoKeyStore.unlock
  rw [set_crypted _ hs.crypted]
  dsimp only
  match hf : first leID s.mapCryptedKeys with
  | none => rfl
  | some ⟨id,pub,sec⟩ =>
    dsimp only
    obtain ⟨hlook,_⟩ := first_some leID _ le_id_ordered id (pub,sec) hf
    rcases hs.entries id (pub,sec) hlook with h | ⟨key,h⟩
    · exact absurd h (hs.front _ hf)
    · have hpub : pub = key.getPubKey E := congrArg Prod.fst h
      have hdec := decrypt_entry E C hC hs.sized key
      rw [← h] at hdec
      dsimp only at hdec
      rw [hdec]
      dsimp only
      rw [if_neg (not_not.mpr key.length), hpub, compressed_of_key E hE, CKey.set_self]
      dsimp only
      rw [if_pos rfl]

theorem unlock_locked (pass : List UInt8) (hl : s.isLocked = true) (hr : s.mapMasterKeys = [r]) :
    WalletKeys.unlock G E C pass s = unlockWith G E C pass r s := by
  unfold WalletKeys.unlock
  rw [hl, Bool.not_true, if_neg (by decide), hr]

theorem unlock_open (pass : List UInt8) (hl : s.isLocked = false) :
    WalletKeys.unlock G E C pass s = some (true,s) := by
  unfold WalletKeys.unlock
  rw [hl, Bool.not_false, if_pos rfl]

theorem unlock_opens (hG : G.order = curveOrder) (hE : E.Sized) (hC : C.Lawful)
    (hs : Sealed E C pass mk r s) :
    ∃ s', WalletKeys.unlock G E C pass s = some (true,s') ∧ Sealed E C pass mk r s' ∧
      s'.vMasterKey = mk ∧ ∀ id key, s.held.lookup id = some key → s'.held.lookup id = some key := by
  by_cases hl : s.isLocked = true
  · rw [unlock_locked G E C pass hl hs.record]
    unfold unlockWith
    rw [hs.opens]
    dsimp only
    rw [store_takes_master E C hE hC hs]
    dsimp only
    obtain ⟨s',hrun,hs',hm,hheld⟩ := unlock_stealth_sealed G E C hG hC mk
      (sealed_master E C hs (Or.inr rfl))
    rw [hrun]
    exact ⟨s',rfl,hs',hm,hheld⟩
  · rw [Bool.not_eq_true] at hl
    refine ⟨s,unlock_open G E C pass hl,hs,?_,fun id key h => h⟩
    rcases hs.master with h | h
    · exact absurd ((locked_iff hs.crypted).mpr h) (by rw [hl]; decide)
    · exact h

theorem held_key_back (hE : E.Sized) (hC : C.Lawful) (hs : Sealed E C pass mk r s)
    (hm : s.vMasterKey = mk) (id : Uint160) (key : CKey) (hk : s.held.lookup id = some key) :
    s.getKey E C id = some key := by
  unfold CCryptoKeyStore.getKey
  rw [hs.crypted, Bool.not_true, if_neg (by decide), hs.held id key hk, Option.bind_some, hm,
    decrypt_entry E C hC hs.sized key, Option.bind_some, if_neg (not_not.mpr key.length)]
  change CKey.set key.vch (key.getPubKey E).isCompressed = some key
  rw [compressed_of_key E hE, CKey.set_self]

def Decrypts (mk : List UInt8) (x : CPubKey × List UInt8) : Prop :=
  ∃ key : CKey, x.1 = key.getPubKey E ∧ decryptSecret C mk x.2 (x.1.getHash E) = some key.vch

section
variable (hC : C.Lawful) (hs : Sealed E C pass mk r s)
include hC hs

theorem master_decrypts {id : Uint160}
    {x : CPubKey × List UInt8} (hx : s.mapCryptedKeys.lookup id = some x) (hne : x.2 ≠ []) :
    Decrypts E C mk x := by
  rcases hs.entries id x hx with h | ⟨key,h⟩
  · exact absurd h hne
  · refine ⟨key,congrArg Prod.fst h,?_⟩
    rw [h]
    exact decrypt_entry E C hC hs.sized key

theorem store_refuses_master
    (hne : (first leID s.mapCryptedKeys).isSome) {mk' : List UInt8} (hmk : mk' ≠ mk) :
    s.toCCryptoKeyStore.unlock E C mk' = some (false,s.toCCryptoKeyStore) := by
  unfold CCryptoKeyStore.unlock
  rw [set_crypted _ hs.crypted]
  dsimp only
  match hf : first leID s.mapCryptedKeys with
  | none =>
    rw [hf] at hne
    cases hne
  | some ⟨id,pub,sec⟩ =>
    dsimp only
    obtain ⟨hlook,_⟩ := first_some leID _ le_id_ordered id (pub,sec) hf
    rcases hs.entries id (pub,sec) hlook with h | ⟨key,h⟩
    · exact absurd h (hs.front _ hf)
    · have hpub : pub = key.getPubKey E := congrArg Prod.fst h
      have hsec : sec = C.encrypt mk (ivBytes (pub.getHash E)) key.vch := by
        rw [hpub]
        exact congrArg Prod.snd h
      cases hdec : decryptSecret C mk' sec (pub.getHash E) with
      | none => rfl
      | some q =>
        dsimp only
        by_cases hq : q.length = 32
        · exfalso
          unfold decryptSecret at hdec
          split at hdec
          · rename_i hlen
            rw [hsec] at hdec
            exact hmk (hC.keyed mk mk' _ key.vch q hs.sized hlen key.length hq hdec)
          · cases hdec
        · rw [if_pos hq]

theorem unlock_refuses (hl : s.isLocked = true)
    {pass' : List UInt8} {id : Uint160} {x : CPubKey × List UInt8}
    (hx : s.mapCryptedKeys.lookup id = some x) (hne : x.2 ≠ [])
    (hwrong : ∀ mk', masterKeyOf C s pass' = some mk' → ¬ Decrypts E C mk' x) :
    ∃ s', WalletKeys.unlock G E C pass' s = some (false,s') ∧ s'.isLocked = true := by
  rw [unlock_locked G E C pass' hl hs.record]
  unfold unlockWith
  unfold masterKeyOf at hwrong
  rw [hs.record] at hwrong
  cases hop : openMasterKey C pass' r with
  | none => exact ⟨s,rfl,hl⟩
  | some mk' =>
    have hmk : mk' ≠ mk := by
      rintro rfl
      exact hwrong mk' hop (master_decrypts E C hC hs hx hne)
    have hsome : (first leID s.mapCryptedKeys).isSome := by
      cases hf : first leID s.mapCryptedKeys with
      | none => exact absurd ((first_none leID _ hf id).symm.trans hx) (by simp)
      | some y => rfl
    dsimp only
    rw [store_refuses_master E C hC hs hsome hmk]
    exact ⟨s,rfl,hl⟩

end

theorem unlock_sealed (hG : G.order = curveOrder) (hC : C.Lawful) (hE : E.Sized)
    (hs : Sealed E C pass mk r s) {pass' : List UInt8} (hok : stepOk G E C s (.unlock pass') = true)
    {b : Bool} {s' : KeyWallet} (h : WalletKeys.unlock G E C pass' s = some (b,s')) :
    Sealed E C pass mk r s' := by
  by_cases hl : s.isLocked = true
  · rw [unlock_locked G E C pass' hl hs.record] at h
    unfold unlockWith at h
    cases hop : openMasterKey C pass' r with
    | none =>
      rw [hop] at h
      cases h
      exact hs
    | some mk' =>
      rw [hop] at h
      dsimp only at h
      by_cases hmk : mk' = mk
      · subst hmk
        rw [store_takes_master E C hE hC hs] at h
        dsimp only at h
        obtain ⟨s₁,hrun,hs₁,_,_⟩ := unlock_stealth_sealed G E C hG hC mk'
          (sealed_master E C hs (Or.inr rfl))
        rw [hrun] at h
        cases h
        exact hs₁
      · have hsome : (first leID s.mapCryptedKeys).isSome = true := by
          by_contra hnone
          rw [Bool.not_eq_true] at hnone
          unfold stepOk masterKeyOf at hok
          rw [hl, hnone, hs.record, hs.passphrase] at hok
          simp only [List.head?_cons, Option.bind_some, hop, hs.opens, Bool.not_true,
            Option.isNone_some, Bool.false_or, beq_iff_eq, Option.some.injEq] at hok
          exact hmk hok
        rw [store_refuses_master E C hC hs hsome hmk] at h
        cases h
        exact hs
  · rw [Bool.not_eq_true] at hl
    rw [unlock_open G E C pass' hl] at h
    cases h
    exact hs

end Unlocking

section Sealing
variable {P : Type} (G : EcGroup P) (E : KeyEnv) (C : Cipher)

variable {pass : List UInt8} {s : KeyWallet}

theorem lock_sealed {mk : List UInt8} {r : CMasterKey}
    (read : CStealthAddress → Option (List UInt8)) (hs : Sealed E C pass mk r s) :
    Sealed E C pass mk r (WalletKeys.lock read s).2 := by
  unfold WalletKeys.lock
  split
  · exact hs
  · unfold CCryptoKeyStore.lockKeyStore
    rw [set_crypted _ hs.crypted]
    exact ⟨hs.crypted,hs.passphrase,hs.record,hs.opens,hs.sized,Or.inl rfl,hs.entries,hs.ids,
      hs.held,hs.front⟩

theorem add_pool_sealed (hC : C.Lawful) {mk : List UInt8} {r : CMasterKey} (keys : List CKey)
    (s : KeyWallet) (hs : Sealed E C pass mk r s) : Sealed E C pass mk r (addPool E C keys s) := by
  induction keys generalizing s with
  | nil => exact hs
  | cons key keys ih => exact ih _ (sealed_add_key E C hC hs key true)

/-- The keys of a list with distinct ids all stand under the master key afterwards. -/
theorem encrypt_all_spec (mk : List UInt8) (hmk : mk.length = walletCryptoKeySize)
    (keys : List CKey) (k : CCryptoKeyStore) (hk : k.fUseCrypto = true)
    (hd : (keys.map fun key => (key.getPubKey E).getID E).Nodup) :
    ∃ k', encryptAll E C mk keys k = some k' ∧ k'.fUseCrypto = true ∧
      k'.vMasterKey = k.vMasterKey ∧
      (∀ key ∈ keys, k'.mapCryptedKeys.lookup ((key.getPubKey E).getID E) =
        some (sealedEntry E C mk key)) ∧
      ∀ id, id ∉ keys.map (fun key => (key.getPubKey E).getID E) →
        k'.mapCryptedKeys.lookup id = k.mapCryptedKeys.lookup id := by
  induction keys generalizing k with
  | nil => exact ⟨k,rfl,hk,rfl,fun key hkey => (by cases hkey),fun id _ => rfl⟩
  | cons key keys ih =>
    rw [List.map_cons, List.nodup_cons] at hd
    unfold encryptAll encryptSecret CCryptoKeyStore.addCryptedKey
    dsimp only
    rw [if_pos hmk, set_crypted _ hk]
    obtain ⟨k',hrun,hc,hm,hin,hout⟩ := ih { k with
      mapCryptedKeys := k.mapCryptedKeys.insert ((key.getPubKey E).getID E)
        (sealedEntry E C mk key) } hk hd.2
    refine ⟨k',hrun,hc,hm,?_,?_⟩
    · intro key' hkey
      rcases List.mem_cons.mp hkey with rfl | hkey
      · rw [hout _ hd.1]
        exact AList.lookup_insert _
      · exact hin key' hkey
    · intro id hid
      rw [List.map_cons, List.mem_cons, not_or] at hid
      rw [hout id hid.2, lookup_insert_if, if_neg hid.1]

theorem clear_keys (hs : Clear E s) :
    (((inOrder leID s.mapKeys).map Sigma.snd).map fun key => (key.getPubKey E).getID E).Nodup ∧
      ∀ id key, s.mapKeys.lookup id = some key → id = (key.getPubKey E).getID E ∧
        key ∈ (inOrder leID s.mapKeys).map Sigma.snd := by
  have hids : ((inOrder leID s.mapKeys).map Sigma.snd).map (fun key => (key.getPubKey E).getID E) =
      (inOrder leID s.mapKeys).map Sigma.fst := by
    rw [List.map_map]
    refine List.map_congr_left ?_
    intro x hx
    exact (hs.ids x.1 x.2 ((mem_in_order leID s.mapKeys x.1 x.2).mp hx)).symm
  refine ⟨?_,?_⟩
  · rw [hids]
    have hperm : ((inOrder leID s.mapKeys).map Sigma.fst).Perm (s.mapKeys.entries.map Sigma.fst) :=
      (List.perm_insertionSort _ _).map _
    exact hperm.nodup_iff.mpr s.mapKeys.nodupKeys
  · intro id key hk
    exact ⟨hs.ids id key hk,
      List.mem_map.mpr ⟨⟨id,key⟩,(mem_in_order leID s.mapKeys id key).mpr hk,rfl⟩⟩

theorem encrypt_keys_sealed (hC : C.Lawful) {e : Encryption}
    {crypter : List UInt8 × List UInt8}
    (hset : setKeyFromPassphrase C pass e.vchSalt e.nDeriveIterations e.nDerivationMethod =
      some crypter) (hs : Clear E s) {k : CCryptoKeyStore}
    (hk : s.encryptKeys E C e.vMasterKey = some k) (sxs : List CStealthAddress) :
    let r : CMasterKey := ⟨C.encrypt crypter.1 crypter.2 e.vMasterKey,e.vchSalt,
      e.nDerivationMethod,e.nDeriveIterations⟩
    Sealed E C pass e.vMasterKey r { s with
      toCCryptoKeyStore := k
      mapMasterKeys := [r]
      stealthAddresses := sxs
      passphrase := some pass } := by
  obtain ⟨hnodup,hmem⟩ := clear_keys E hs
  unfold CCryptoKeyStore.encryptKeys at hk
  rw [hs.crypted, hs.plain] at hk
  obtain ⟨k₁,hrun,rfl⟩ := Option.map_eq_some_iff.mp hk
  obtain ⟨k',hrun',hc,hm,hin,hout⟩ := encrypt_all_spec E C e.vMasterKey e.drawn
    ((inOrder leID s.mapKeys).map Sigma.snd)
    { s.toCCryptoKeyStore with fUseCrypto := true, mapCryptedKeys := ∅ } rfl hnodup
  have heq : k' = k₁ := Option.some.inj (hrun'.symm.trans hrun)
  subst heq
  have hentries : ∀ id x, k'.mapCryptedKeys.lookup id = some x →
      ∃ key, id = (key.getPubKey E).getID E ∧ x = sealedEntry E C e.vMasterKey key := by
    intro id x hx
    by_cases hid : id ∈ ((inOrder leID s.mapKeys).map Sigma.snd).map
        (fun key => (key.getPubKey E).getID E)
    · obtain ⟨key,hkey,rfl⟩ := List.mem_map.mp hid
      rw [hin key hkey] at hx
      exact ⟨key,rfl,(Option.some.inj hx).symm⟩
    · rw [hout id hid] at hx
      cases hx
  have hsized : crypter.1.length = walletCryptoKeySize := by
    unfold setKeyFromPassphrase at hset
    split at hset
    · cases hset
    · split at hset
      · exact hC.sized _ _ _ _ crypter.1 crypter.2 hset
      · cases hset
  refine ⟨hc,rfl,rfl,?_,e.drawn,Or.inl ?_,?_,?_,?_,?_⟩
  · unfold openMasterKey
    dsimp only
    rw [hset, Option.bind_some]
    exact hC.decrypts crypter.1 crypter.2 e.vMasterKey hsized
  · exact hm.trans hs.master
  · intro id x hx
    obtain ⟨key,_,hkey⟩ := hentries id x hx
    exact Or.inr ⟨key,hkey⟩
  · intro id x hx
    obtain ⟨key,hid,hkey⟩ := hentries id x hx
    rw [hid, hkey]
    rfl
  · intro id key hx
    change s.held.lookup id = some key at hx
    rw [hs.held] at hx
    obtain ⟨hid,hkey⟩ := hmem id key hx
    rw [hid]
    exact hin key hkey
  · intro x hx
    obtain ⟨hlook,_⟩ := first_some leID _ le_id_ordered x.1 x.2 hx
    obtain ⟨key,_,hkey⟩ := hentries x.1 x.2 hlook
    rw [hkey]
    exact entry_ne_nil E C hC e.drawn key

theorem encrypt_wallet_inv (hG : G.order = curveOrder) (hE : E.Sized) (hC : C.Lawful)
    {e : Encryption} (hs : Clear E s) (hok : stepOk G E C s (.encryptWallet pass e) = true)
    {b : Bool} {s' : KeyWallet} (h : encryptWallet G E C pass e s = some (b,s')) : Inv E C s' := by
  unfold encryptWallet at h
  rw [hs.plain] at h
  cases hset : setKeyFromPassphrase C pass e.vchSalt e.nDeriveIterations e.nDerivationMethod with
  | none =>
    rw [hset] at h
    cases h
    exact Or.inl hs
  | some crypter =>
    rw [hset] at h
    simp only [Bool.false_eq_true, if_false] at h
    cases hbegin : e.fTxnBegin with
    | false =>
      rw [hbegin] at h
      cases h
      exact Or.inl ⟨hs.plain,hs.crypted,hs.master,hs.held,hs.ids⟩
    | true =>
      rw [hbegin] at h
      simp only [Bool.not_true, Bool.false_eq_true, if_false] at h
      have hempty : s.mapMasterKeys = [] := by
        unfold stepOk at hok
        dsimp only at hok
        rw [hs.plain, hbegin, hset] at hok
        simpa using hok
      rw [hempty, List.nil_append] at h
      cases hk : s.encryptKeys E C e.vMasterKey with
      | none =>
        rw [hk] at h
        cases h
      | some k =>
        rw [hk] at h
        dsimp only at h
        split at h
        · cases h
        · have hseal := encrypt_keys_sealed E C hC hset hs hk
            (s.stealthAddresses.map (encryptStealth E C e.vMasterKey))
          have hlock := lock_sealed E C e.read hseal
          obtain ⟨s₁,hun,hs₁,_,_⟩ := unlock_opens G E C hG hE hC hlock
          rw [hun, Option.map_some] at h
          obtain ⟨r,hs₁⟩ : ∃ r, Sealed E C pass e.vMasterKey r s₁ := ⟨_,hs₁⟩
          have hpool : Sealed E C pass e.vMasterKey r
              (if s₁.isLocked then s₁ else addPool E C e.pool s₁) := by
            split
            · exact hs₁
            · exact add_pool_sealed E C hC e.pool s₁ hs₁
          right
          refine ⟨pass,e.vMasterKey,r,?_⟩
          split at h
          · cases h
            exact lock_sealed E C e.read hpool
          · cases h
            exact hpool

end Sealing

end SwippCore.WalletUnlock
