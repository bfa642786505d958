import SwippCore.WalletFileKeys

/-!
# Encryption of the wallet file

Unlocks and the encryption of a wallet with its file.
-/

set_option autoImplicit false

namespace SwippCore.WalletFile
open FinMap Key Stealth Crypter CCryptoKeyStore WalletKeys WalletUnlock

section Expanding
variable {P : Type} (G : EcGroup P) (E : KeyEnv) (C : Cipher)
variable (pass mk : List UInt8) (id : ℕ) (r : CMasterKey)

theorem expanded_key_cases (hG : G.order = curveOrder) (pubKey : CPubKey) (s : FileWallet) :
    ∃ o, expandedKey G E pubKey s = some o := by
  unfold expandedKey
  cases s.mapStealthKeyMeta.lookup (pubKey.getID E) with
  | none => exact ⟨none,rfl⟩
  | some sxKeyMeta =>
    dsimp only
    cases s.stealthAddresses.lookup sxKeyMeta.pkScan.vch with
    | none => exact ⟨none,rfl⟩
    | some sx =>
      dsimp only
      split
      · exact ⟨none,rfl⟩
      · cases hsp : stealthSecretSpend G sx.scanSecret sxKeyMeta.pkEphem.vch sx.spendSecret with
        | none => exact ⟨none,rfl⟩
        | some sSpendR =>
          dsimp only
          split
          · exact ⟨none,rfl⟩
          · unfold CKey.set
            rw [dif_pos (expanded_checked G hG hsp)]
            dsimp only
            split
            · exact ⟨none,rfl⟩
            · split
              · exact ⟨none,rfl⟩
              · exact ⟨_,rfl⟩

theorem erase_meta_cases (o : Outcomes) (keyId : Uint160) (d : WalletDB) :
    ∃ m, eraseStealthKeyMeta o keyId d = { d with sxKeyMeta := m } := by
  unfold eraseStealthKeyMeta
  split
  · exact ⟨_,rfl⟩
  · exact ⟨d.sxKeyMeta,rfl⟩

theorem expand_keys_keyed (hG : G.order = curveOrder) (hC : C.Lawful) (o : Outcomes)
    (xs : List (CPubKey × List UInt8)) (s : FileWallet) (h : Keyed E C pass mk id r s) :
    ∃ s', expandKeys G E C o xs s = some s' ∧ Keyed E C pass mk id r s' ∧ (Filled s → Filled s') ∧
      s'.vMasterKey = s.vMasterKey := by
  induction xs generalizing s with
  | nil => exact ⟨s,rfl,h,fun hf => hf,rfl⟩
  | cons x xs ih =>
    obtain ⟨pubKey,vchCryptedSecret⟩ := x
    unfold expandKeys
    split
    · exact ih s h
    · obtain ⟨k,hk⟩ := expanded_key_cases G E hG pubKey s
      rw [hk]
      cases k with
      | none => exact ih s h
      | some ckey =>
        dsimp only
        obtain ⟨hkey,hfill⟩ := keyed_add_key E C pass mk id r hC o ckey h
        have hm := add_key_master E C pass mk id r o ckey s h
        obtain ⟨m,hmeta⟩ := erase_meta_cases o (pubKey.getID E) (addKeyPubKey E C o ckey s).2.file
        rw [hmeta]
        split
        · obtain ⟨s',hrun,hs',hf,hm'⟩ := ih
            { (addKeyPubKey E C o ckey s).2 with
              file := { (addKeyPubKey E C o ckey s).2.file with sxKeyMeta := m } }
            ⟨hkey.store,hkey.sized,hkey.made,hkey.record,hkey.fileRecord,hkey.fileEntries,hkey.fileFront,
              hkey.fileKeys⟩
          exact ⟨s',hrun,hs',fun hs => hf ⟨(hfill hs).memory,(hfill hs).file⟩,hm'.trans hm⟩
        · obtain ⟨s',hrun,hs',hf,hm'⟩ := ih _ hkey
          exact ⟨s',hrun,hs',fun hs => hf (hfill hs),hm'.trans hm⟩

theorem entries_empty {K V : Type} [DecidableEq K] (m : Dict K V) (h : ∀ k, m.lookup k = none) :
    m.entries.isEmpty = true := by
  rw [List.isEmpty_iff, List.eq_nil_iff_forall_not_mem]
  intro x hx
  have hlook := (mem_entries m x.1 x.2).mp hx
  rw [h x.1] at hlook
  cases hlook

theorem unlock_addresses_keyed (hG : G.order = curveOrder) (hC : C.Lawful) (o : Outcomes)
    (m : List UInt8) {s : FileWallet} (h : Keyed E C pass mk id r s) :
    ∃ s', unlockStealthAddresses G E C o m s = some s' ∧ Keyed E C pass mk id r s' ∧
      (Filled s → Filled s') ∧ s'.vMasterKey = s.vMasterKey ∧
      ((∀ i, s.mapCryptedKeys.lookup i = none) → s'.file = s.file) := by
  have h₀ := keyed_with_master E C pass mk id r s h s.vMasterKey
    (mapValues (decryptStealth G E (failing C o) m) s.stealthAddresses) h.store.master
  obtain ⟨s',hrun,hs',hf,hm⟩ := expand_keys_keyed G E C pass mk id r hG hC o
    ((inOrder leID s.mapCryptedKeys).map Sigma.snd) _ h₀
  refine ⟨s',hrun,hs',fun hs => hf (filled_with_master s hs _ _),hm,?_⟩
  intro hempty
  have hnil : (inOrder leID s.mapCryptedKeys).map Sigma.snd = [] := by
    have hentries := List.isEmpty_iff.mp (entries_empty s.mapCryptedKeys hempty)
    rw [List.map_eq_nil_iff, ← List.length_eq_zero_iff, (in_order_perm leID s.mapCryptedKeys).length_eq,
      hentries]
    rfl
  rw [hnil] at hrun
  rw [← Option.some.inj hrun]
  rfl

theorem unlock_keyed (hG : G.order = curveOrder) (hE : E.Sized) (hC : C.Lawful) (o : Outcomes)
    {q : List UInt8} {s : FileWallet} (h : Keyed E C pass mk id r s)
    (hq : Filled s ∨ openMasterKey C q r = some mk) :
    ∃ b s', unlock G E C o q s = some (b,s') ∧ Keyed E C pass mk id r s' ∧ (Filled s → Filled s') ∧
      (b = true → s'.isLocked = false) ∧ ((∀ i, s.mapCryptedKeys.lookup i = none) → s'.file = s.file) := by
  unfold unlock
  cases hl : s.isLocked with
  | false => exact ⟨true,s,rfl,h,fun hf => hf,fun _ => hl,fun _ => rfl⟩
  | true =>
    rw [if_neg (by decide), in_order_sole _ h.record]
    dsimp only
    cases hopen : openMasterKey (failing C o) q r with
    | none => exact ⟨false,s,rfl,h,fun hf => hf,Bool.noConfusion,fun _ => rfl⟩
    | some m =>
      dsimp only
      have hopen' := failing_open C o hopen
      rcases store_unlock_cases E C hE hC o mk m h.sized h.store with hu | ⟨hu,hm⟩
      · rw [hu]
        exact ⟨false,s,rfl,h,fun hf => hf,Bool.noConfusion,fun _ => rfl⟩
      · have hmk : m = mk := by
          rcases hq with hfill | hq
          · exact hm hfill.memory
          · rw [hq] at hopen'
            exact (Option.some.inj hopen').symm
        obtain rfl := hmk
        rw [hu]
        dsimp only
        obtain ⟨s',hrun,hs',hf,hm',hfile⟩ := unlock_addresses_keyed G E C pass m id r hG hC o m
          (keyed_with_master E C pass m id r s h m s.stealthAddresses (Or.inr rfl))
        refine ⟨true,s',congrArg (Option.map _) hrun,hs',fun hs => hf (filled_with_master s hs _ _),
          fun _ => ?_,hfile⟩
        apply open_master
        rw [hm']
        exact mk_ne_nil h.sized

end Expanding

section Unlocks
variable {P : Type} (G : EcGroup P) (E : KeyEnv) (C : Cipher)

def Unlocks (pass : List UInt8) (s : FileWallet) : Prop :=
  ∃ s', unlock G E C .fine pass (lock .fine s).2 = some (true,s') ∧ s'.isLocked = false

def UnlocksReloaded (pass : List UInt8) (s : FileWallet) : Prop :=
  ∃ s₀, loadWallet E s.file = some s₀ ∧ Unlocks G E C pass s₀

variable {pass mk : List UInt8} (id : ℕ) {r : CMasterKey}

variable {s : FileWallet}

theorem unlock_taken (hG : G.order = curveOrder) (hC : C.Lawful) {o : Outcomes}
    (h : Keyed E C pass mk id r s) (hm : s.vMasterKey = []) {q : List UInt8}
    (hq : openMasterKey (failing C o) q r = some mk)
    (htakes : s.toCCryptoKeyStore.unlock E (failing C o) mk =
      some (true,{ s.toCCryptoKeyStore with vMasterKey := mk })) :
    ∃ s', unlock G E C o q s = some (true,s') ∧ Keyed E C pass mk id r s' ∧ s'.vMasterKey = mk ∧
      ((∀ i, s.mapCryptedKeys.lookup i = none) → s'.file = s.file) := by
  have hl := (locked_of_crypted s h.store.crypted).mpr hm
  unfold unlock
  rw [hl, if_neg (by decide), in_order_sole _ h.record]
  dsimp only
  rw [hq]
  dsimp only
  rw [htakes]
  dsimp only
  obtain ⟨s',hrun,hs',_,hm',hfile⟩ := unlock_addresses_keyed G E C pass mk id r hG hC o mk
    (keyed_with_master E C pass mk id r s h mk s.stealthAddresses (Or.inr rfl))
  exact ⟨s',congrArg (Option.map _) hrun,hs',hm',hfile⟩

section
variable (hG : G.order = curveOrder) (hE : E.Sized) (hC : C.Lawful) (h : Keyed E C pass mk id r s)
include hG hE hC h

theorem unlock_right (hm : s.vMasterKey = []) {q : List UInt8}
    (hq : openMasterKey C q r = some mk) :
    ∃ s', unlock G E C .fine q s = some (true,s') ∧ Keyed E C pass mk id r s' ∧ s'.vMasterKey = mk ∧
      ((∀ i, s.mapCryptedKeys.lookup i = none) → s'.file = s.file) :=
  unlock_taken G E C id hG hC h hm hq
    (store_takes E C hE hC mk h.sized s.toCCryptoKeyStore h.store)

theorem unlocks_of_open (q : List UInt8) (hq : openMasterKey C q r = some mk) :
    Unlocks G E C q s := by
  obtain ⟨_,sxs,hlock⟩ := lock_crypted .fine h.store.crypted
  have h' := keyed_with_master E C pass mk id r s h [] sxs (Or.inl rfl)
  obtain ⟨s',hunlock,_,hm,_⟩ := unlock_right G E C id hG hE hC h' rfl hq
  unfold Unlocks
  rw [hlock]
  exact ⟨s',hunlock,open_master (by rw [hm]; exact mk_ne_nil h.sized)⟩

end

theorem open_of_unlocks (hE : E.Sized) (hC : C.Lawful) (h : Keyed E C pass mk id r s)
    (hfill : Filled s) (q : List UInt8) (hq : Unlocks G E C q s) :
    openMasterKey C q r = some mk := by
  obtain ⟨s',hs',_⟩ := hq
  obtain ⟨_,sxs,hlock⟩ := lock_crypted .fine h.store.crypted
  have h' := keyed_with_master E C pass mk id r s h [] sxs (Or.inl rfl)
  have hl : (withMaster s [] sxs).isLocked = true := (locked_of_crypted _ h'.store.crypted).mpr rfl
  unfold unlock at hs'
  rw [hlock, hl, if_neg (by decide), in_order_sole _ h'.record] at hs'
  dsimp only at hs'
  rw [failing_fine] at hs'
  cases hopen : openMasterKey C q r with
  | none =>
    rw [hopen] at hs'
    cases hs'
  | some m =>
    rw [hopen] at hs'
    dsimp only at hs'
    rcases store_unlock_cases E C hE hC .fine mk m h.sized h'.store with hu | ⟨_,hm⟩
    · rw [failing_fine] at hu
      rw [hu] at hs'
      cases hs'
    · rw [hm hfill.memory]

theorem unlocks_iff (hG : G.order = curveOrder) (hE : E.Sized) (hC : C.Lawful)
    (h : Keyed E C pass mk id r s) (hfill : Filled s) (q : List UInt8) :
    Unlocks G E C q s ↔ openMasterKey C q r = some mk :=
  ⟨open_of_unlocks G E C id hE hC h hfill q,
    unlocks_of_open G E C id hG hE hC h q⟩

end Unlocks

theorem entries_some {K V : Type} [DecidableEq K] {m : Dict K V} {k : K} {v : V}
    (h : m.lookup k = some v) : m.entries.isEmpty = false := by
  rw [Bool.eq_false_iff, ne_eq, List.isEmpty_iff]
  intro hnil
  have hmem := (mem_entries m k v).mpr h
  rw [hnil] at hmem
  cases hmem

section Reloads
variable {P : Type} (G : EcGroup P) (E : KeyEnv) (C : Cipher)
variable (pass mk : List UInt8) (id : ℕ) (r : CMasterKey)

theorem load_keyed {s : FileWallet} (h : Keyed E C pass mk id r s) (hfill : Filled s) :
    ∃ s₀, loadWallet E s.file = some s₀ ∧ Keyed E C pass mk id r s₀ ∧ Filled s₀ := by
  obtain ⟨pub,c,hc⟩ := hfill.file
  have hckey := entries_some hc
  have hkey := entries_empty s.file.key h.fileKeys
  unfold loadWallet
  rw [hckey, hkey]
  refine ⟨_,rfl,?_,?_⟩
  · refine ⟨⟨rfl,Or.inl rfl,?_,?_⟩,h.sized,h.made,h.fileRecord,h.fileRecord,h.fileEntries,h.fileFront,
      h.fileKeys⟩
    · intro i x hx
      obtain ⟨a,b,hab,rfl,_⟩ := read_all_cases _ _ _ _ hx
      exact h.fileEntries a b hab
    · exact fronted_read_all _ _ _ _ _ _ _ (fun _ _ => Iff.rfl) h.fileFront
  · obtain ⟨x,hx⟩ := read_all_some lePub s.file.ckey (fun pub => pub.getID E) (fun pub c => (pub,c)) hc
    exact ⟨⟨pub.getID E,x,hx⟩,pub,c,hc⟩

theorem reloaded_iff (hG : G.order = curveOrder) (hE : E.Sized) (hC : C.Lawful) {s : FileWallet}
    (h : Keyed E C pass mk id r s) (hfill : Filled s) (q : List UInt8) :
    UnlocksReloaded G E C q s ↔ openMasterKey C q r = some mk := by
  obtain ⟨s₀,hload,h₀,hfill₀⟩ := load_keyed E C pass mk id r h hfill
  rw [← unlocks_iff G E C id hG hE hC h₀ hfill₀ q]
  unfold UnlocksReloaded
  constructor
  · rintro ⟨s₁,hs₁,hq⟩
    rw [hload] at hs₁
    rw [Option.some.inj hs₁]
    exact hq
  · exact fun hq => ⟨s₀,hload,hq⟩

end Reloads

end SwippCore.WalletFile

namespace SwippCore.WalletFile
open FinMap Key Stealth Crypter CCryptoKeyStore WalletKeys WalletUnlock

section Plain
variable (E : KeyEnv) (C : Cipher)

structure Plain (s : FileWallet) : Prop where
  plain : s.fUseCrypto = false
  master : s.vMasterKey = []
  crypted : ∀ id, s.mapCryptedKeys.lookup id = none
  fileCrypted : ∀ pub, s.file.ckey.lookup pub = none
  ids : ∀ id key, s.mapKeys.lookup id = some key → id = (key.getPubKey E).getID E
  fileKeys : ∀ pub key, s.file.key.lookup pub = some key → key.getPubKey E = pub ∧
    ∃ key', s.mapKeys.lookup (pub.getID E) = some key' ∧ key'.getPubKey E = pub

variable (o : Outcomes)

theorem write_key_cases (pub : CPubKey) (key : CKey) (d : WalletDB) :
    writeKey o pub key d = (false,d) ∨
      writeKey o pub key d = (true,{ d with key := d.key.insert pub key }) := by
  unfold writeKey
  split
  · exact Or.inl rfl
  · split
    · exact Or.inr rfl
    · exact Or.inl rfl

def ownID (key : CKey) (s : FileWallet) : Prop :=
  ∀ old, s.mapKeys.lookup ((key.getPubKey E).getID E) = some old → old.getPubKey E = key.getPubKey E

variable {s : FileWallet}

theorem plain_add_key {key : CKey} (h : Plain E s) (hid : ownID E key s) :
    Plain E (addKeyPubKey E C o key s).2 := by
  have hids : ∀ i k, (s.mapKeys.insert ((key.getPubKey E).getID E) key).lookup i = some k →
      i = (k.getPubKey E).getID E := by
    intro i k hk
    rw [lookup_insert_if] at hk
    split at hk
    · rename_i hi
      rw [← Option.some.inj hk]
      exact hi
    · exact h.ids i k hk
  have hold : ∀ pub k, s.file.key.lookup pub = some k → k.getPubKey E = pub ∧
      ∃ k', (s.mapKeys.insert ((key.getPubKey E).getID E) key).lookup (pub.getID E) = some k' ∧
        k'.getPubKey E = pub := by
    intro pub k hk
    obtain ⟨hpub,k',hk',hpub'⟩ := h.fileKeys pub k hk
    refine ⟨hpub,?_⟩
    rw [lookup_insert_if]
    split
    · rename_i hi
      rw [hi] at hk'
      exact ⟨key,rfl,(hid k' hk').symm.trans hpub'⟩
    · exact ⟨k',hk',hpub'⟩
  unfold addKeyPubKey
  dsimp only
  rw [h.plain, if_pos (by decide)]
  dsimp only
  rcases write_key_cases o (key.getPubKey E) key s.file with hw | hw
  · rw [hw]
    exact ⟨rfl,h.master,h.crypted,h.fileCrypted,hids,hold⟩
  · rw [hw]
    refine ⟨rfl,h.master,h.crypted,h.fileCrypted,hids,?_⟩
    intro pub k hk
    dsimp only at hk ⊢
    rw [lookup_insert_if] at hk
    split at hk
    · rename_i hpub
      rw [← Option.some.inj hk, hpub]
      exact ⟨rfl,key,AList.lookup_insert _,rfl⟩
    · exact hold pub k hk

section
variable (h : s.fUseCrypto = false) (hkeys : s.mapKeys.entries.isEmpty = false)
include h hkeys

theorem lock_plain_eq :
    lock o s = (false,{ s with stealthAddresses := mapValues (reread o s.file) s.stealthAddresses }) := by
  unfold lock CCryptoKeyStore.isLocked CCryptoKeyStore.lockKeyStore CCryptoKeyStore.setCrypted
  rw [h, Bool.false_and, if_neg (by decide), if_neg (by decide), hkeys, if_pos (by decide)]

theorem lock_plain :
    ∃ sxs, lock o s = (false,{ s with stealthAddresses := sxs }) := ⟨_,lock_plain_eq o h hkeys⟩

end

end Plain

section Loops
variable (E : KeyEnv) (C : Cipher)

/-- What the loop of `EncryptKeys` has done. -/
structure AllEncrypted (o : Outcomes) (mk : List UInt8) (keys : List CKey) (s s' : FileWallet) : Prop where
  frame : s' = { s with
    mapCryptedKeys := s'.mapCryptedKeys
    file := { s.file with ckey := s'.file.ckey, key := s'.file.key } }
  entries : ∀ id x, s'.mapCryptedKeys.lookup id = some x →
    s.mapCryptedKeys.lookup id = some x ∨ ∃ key, x = sealedEntry E C mk key
  fileEntries : ∀ pub c, s'.file.ckey.lookup pub = some c →
    s.file.ckey.lookup pub = some c ∨ ∃ key, (pub,c) = sealedEntry E C mk key
  filled : keys ≠ [] ∨ Filled s → Filled s'
  nothing : keys = [] → s' = s
  fileKeys : ∀ pub v, s'.file.key.lookup pub = some v → s.file.key.lookup pub = some v ∧
    ∀ key ∈ keys, key.getPubKey E = pub → o.erased (.key pub) = false

theorem encrypt_all_spec (o : Outcomes) (mk : List UInt8) (keys : List CKey) (s s' : FileWallet)
    (h : encryptAll E C o mk keys s = some s') (hcrypted : s.fUseCrypto = true) :
    AllEncrypted E C o mk keys s s' := by
  induction keys generalizing s with
  | nil =>
    cases h
    exact ⟨rfl,fun _ _ hx => Or.inl hx,fun _ _ hc => Or.inl hc,fun hf => hf.resolve_left fun hn => hn rfl,
      fun _ => rfl,fun _ _ hv => ⟨hv,fun _ hk => by cases hk⟩⟩
  | cons key keys ih =>
    unfold encryptAll at h
    dsimp only at h
    split at h
    · cases h
    · rename_i c hc
      obtain ⟨_,hc⟩ := try_encrypt_some C o hc
      obtain ⟨b,d,heq,hd⟩ := add_crypted_cases E o (key.getPubKey E) c hcrypted
      rw [heq] at h
      dsimp only at h
      split at h
      · rename_i hb
        obtain ⟨_,rfl⟩ := hd.resolve_left fun hd => by rw [hd.1] at hb; cases hb
        have hrest := ih _ h hcrypted
        have hentry : (key.getPubKey E,c) = sealedEntry E C mk key := by
          rw [hc]
          rfl
        refine ⟨hrest.frame,?_,?_,?_,fun hnil => absurd hnil (List.cons_ne_nil key keys),?_⟩
        · intro i x hx
          rcases hrest.entries i x hx with hx | hx
          · dsimp only at hx
            rw [lookup_insert_if] at hx
            split at hx
            · exact Or.inr ⟨key,(Option.some.inj hx).symm.trans hentry⟩
            · exact Or.inl hx
          · exact Or.inr hx
        · intro pub v hv
          rcases hrest.fileEntries pub v hv with hv | hv
          · dsimp only at hv
            rw [lookup_insert_if] at hv
            split at hv
            · rename_i hpub
              refine Or.inr ⟨key,?_⟩
              rw [hpub, ← Option.some.inj hv]
              exact hentry
            · exact Or.inl hv
          · exact Or.inr hv
        · intro _
          exact hrest.filled (Or.inr ⟨⟨_,_,AList.lookup_insert _⟩,_,_,AList.lookup_insert _⟩)
        · intro pub v hv
          obtain ⟨hv,hkeys⟩ := hrest.fileKeys pub v hv
          dsimp only at hv
          rw [erase_if_lookup] at hv
          split at hv
          · cases hv
          · rename_i hne
            refine ⟨hv,?_⟩
            intro k hk hpub
            rcases List.mem_cons.mp hk with rfl | hk
            · cases her : o.erased (.key pub) with
              | false => rfl
              | true => exact absurd ⟨by rw [hpub]; exact her,hpub.symm⟩ hne
            · exact hkeys k hk hpub
      · cases h

theorem encrypt_addresses_frame (o : Outcomes) (mk : List UInt8)
    (xs : List (Sigma fun _ : List UInt8 => CStealthAddress)) (s : FileWallet) :
    ∃ sxs recs, encryptAddresses E C o mk xs s =
      { s with stealthAddresses := sxs, file := { s.file with sxAddr := recs } } := by
  induction xs generalizing s with
  | nil => exact ⟨s.stealthAddresses,s.file.sxAddr,rfl⟩
  | cons x xs ih =>
    obtain ⟨scanPubkey,sx⟩ := x
    unfold encryptAddresses
    split
    · exact ih s
    · split
      · exact ih s
      · rename_i c _
        dsimp only
        have hw : ∃ recs, (writeStealthAddress o { sx with spendSecret := c } s.file).2 =
            { s.file with sxAddr := recs } := by
          unfold writeStealthAddress
          split
          · exact ⟨_,rfl⟩
          · exact ⟨s.file.sxAddr,rfl⟩
        obtain ⟨recs,hw⟩ := hw
        rw [hw]
        obtain ⟨sxs,recs',hrest⟩ := ih { s with
          stealthAddresses := s.stealthAddresses.insert scanPubkey { sx with spendSecret := c }
          file := { s.file with sxAddr := recs } }
        rw [hrest]
        exact ⟨sxs,recs',rfl⟩

end Loops

section Commit
variable {P : Type} (G : EcGroup P) (E : KeyEnv) (C : Cipher)

/-- The record that `EncryptWallet` makes. -/
def madeRecord (e : Encrypting) (crypter : List UInt8 × List UInt8) : CMasterKey :=
  ⟨C.encrypt crypter.1 crypter.2 e.vMasterKey,e.vchSalt,e.nDerivationMethod,e.nDeriveIterations⟩

def withRecord (e : Encrypting) (crypter : List UInt8 × List UInt8) (s : FileWallet) : FileWallet :=
  setMasterKey (s.nMasterKeyMaxID+1) (madeRecord C e crypter) { s with nMasterKeyMaxID := s.nMasterKeyMaxID+1 }

def begun (e : Encrypting) (crypter : List UInt8 × List UInt8) (s : FileWallet) : FileWallet :=
  { withRecord C e crypter s with
    file := (writeMasterKey e.o (s.nMasterKeyMaxID+1) (madeRecord C e crypter) s.file).2 }

theorem encrypt_wallet_cases {pass : List UInt8} {e : Encrypting} {s s' : FileWallet}
    {b : Option Bool} (h : encryptWallet G E C pass e s = some (b,s')) :
    (b = some false ∧ s' = s) ∨
    ∃ crypter, setKeyFromPassphrase (failing C e.o) pass e.vchSalt e.nDeriveIterations
        e.nDerivationMethod = some crypter ∧ s.fUseCrypto = false ∧ e.o.encrypted e.vMasterKey = true ∧
      ((e.fTxnBegin = false ∧ b = some false ∧ s' = withRecord C e crypter s) ∨
        (e.fTxnBegin = true ∧ e.fTxnCommit = true ∧
          ∃ s₁, encryptKeys E C e.o e.vMasterKey (begun C e crypter s) = some s₁ ∧
            renewPool G E C pass e (encryptAddresses E C e.o e.vMasterKey
              (inOrder leScan s₁.stealthAddresses) s₁) = some (b,s'))) := by
  unfold encryptWallet at h
  split at h
  · cases h
    exact Or.inl ⟨rfl,rfl⟩
  · rename_i hplain
    split at h
    · cases h
      exact Or.inl ⟨rfl,rfl⟩
    · rename_i crypter hcrypter
      split at h
      · cases h
        exact Or.inl ⟨rfl,rfl⟩
      · rename_i henc
        rw [Bool.not_eq_true, Bool.not_eq_false'] at henc
        refine Or.inr ⟨crypter,hcrypter,Bool.eq_false_iff.mpr hplain,henc,?_⟩
        dsimp only at h
        split at h
        · rename_i hbegin
          cases h
          exact Or.inl ⟨by rwa [Bool.not_eq_true'] at hbegin,rfl,rfl⟩
        · rename_i hbegin
          rw [Bool.not_eq_true, Bool.not_eq_false'] at hbegin
          split at h
          · cases h
          · rename_i s₁ hs₁
            split at h
            · cases h
            · rename_i hcommit
              rw [Bool.not_eq_true, Bool.not_eq_false'] at hcommit
              exact Or.inr ⟨hbegin,hcommit,s₁,hs₁,h⟩

theorem encrypt_keys_cases {o : Outcomes} {mk : List UInt8} {s s₁ : FileWallet}
    (h : encryptKeys E C o mk s = some s₁) :
    ∃ s₀, AllEncrypted E C o mk ((inOrder leID s.mapKeys).map Sigma.snd) { s with fUseCrypto := true } s₀ ∧
      s₁ = { s₀ with mapKeys := ∅ } := by
  unfold encryptKeys at h
  split at h
  · cases h
  · obtain ⟨s₀,hs₀,rfl⟩ := Option.map_eq_some_iff.mp h
    exact ⟨s₀,encrypt_all_spec E C o mk _ _ s₀ hs₀ rfl,rfl⟩

theorem file_keys_erased {o : Outcomes} {mk : List UInt8} {s s₀ : FileWallet}
    (h : AllEncrypted E C o mk ((inOrder leID s.mapKeys).map Sigma.snd) { s with fUseCrypto := true } s₀)
    (hkeys : ∀ pub key, s.file.key.lookup pub = some key → key.getPubKey E = pub ∧
      ∃ key', s.mapKeys.lookup (pub.getID E) = some key' ∧ key'.getPubKey E = pub)
    (herased : ∀ pub, (s.file.key.lookup pub).isSome = true → o.erased (.key pub) = true) (pub : CPubKey) :
    s₀.file.key.lookup pub = none := by
  cases hv : s₀.file.key.lookup pub with
  | none => rfl
  | some v =>
    exfalso
    obtain ⟨hold,hnot⟩ := h.fileKeys pub v hv
    obtain ⟨_,key',hkey',hpub⟩ := hkeys pub v hold
    have hmem : key' ∈ (inOrder leID s.mapKeys).map Sigma.snd :=
      List.mem_map.mpr ⟨⟨_,key'⟩,(mem_in_order _ _ _ _).mpr hkey',rfl⟩
    have hfalse := hnot key' hmem hpub
    rw [herased pub (by rw [hold]; rfl)] at hfalse
    cases hfalse

end Commit

end SwippCore.WalletFile
