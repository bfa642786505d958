import SwippCore.WalletUnlock

/-!
# What the wallet receives

Receipts of stealth payments, and the wallet after it is opened again.
-/

set_option autoImplicit false

namespace SwippCore.WalletReceipt
open FinMap Key Stealth Crypter CCryptoKeyStore WalletKeys WalletUnlock

section Rule
variable {P : Type} (G : EcGroup P) (E : KeyEnv) (C : Cipher) (R : Receipt)

theorem narration_wallet (decrypts : List UInt8 → List UInt8 → List UInt8 → Bool)
    (sShared vchEphemPK : List UInt8) (rest : CScript) (s : KeyWallet) :
    (readNarration decrypts sShared vchEphemPK rest s).wallet = s := by
  unfold readNarration
  split
  · split
    · split <;> rfl
    · rfl
  · rfl
  · rfl

variable {vchEphemPK : List UInt8}

theorem receive_cases {sShared : List UInt8} {cpkE : CPubKey} {sx : CStealthAddress}
    {rest : CScript} {s : KeyWallet} {r : Search}
    (h : receiveStealth G E C R vchEphemPK sShared cpkE sx rest s = some r) :
    r.wallet = s ∨
    (s.isLocked = true ∧ ∃ k m, s.addCryptedKey E cpkE [] = some k ∧
      r.wallet = { s with toCCryptoKeyStore := k, mapStealthKeyMeta := m }) ∨
    (s.isLocked = false ∧ ∃ key fWritten, r.wallet = (addKey E C key fWritten s).2) := by
  unfold receiveStealth at h
  by_cases hl : s.isLocked = true
  · rw [if_pos hl] at h
    cases hk : s.addCryptedKey E cpkE [] with
    | none =>
      rw [hk] at h
      cases h
      exact Or.inl (narration_wallet ..)
    | some k =>
      rw [hk] at h
      cases h
      exact Or.inr (Or.inl ⟨hl,k,_,rfl,narration_wallet ..⟩)
  · rw [if_neg hl] at h
    rw [Bool.not_eq_true] at hl
    split at h
    · cases h
      exact Or.inl rfl
    · split at h
      · cases h
        exact Or.inl rfl
      · split at h
        · cases h
          exact Or.inl rfl
        · split at h
          · cases h
          · split at h
            · cases h
              exact Or.inl rfl
            · rename_i ckey _ _
              refine Or.inr (Or.inr ⟨hl,ckey,R.fWritten ((ckey.getPubKey E).getID E),?_⟩)
              dsimp only at h
              split at h
              · cases h
                exact narration_wallet ..
              · cases h
                rfl

/-- What a property of wallets needs for the search of the outputs, from a wallet `s₀` on. -/
structure Searched (vout : List CTxOut) (s₀ : KeyWallet) (J : KeyWallet → Prop) : Prop where
  stealth : ∀ s, J s → s.stealthAddresses = s₀.stealthAddresses
  kept : ∀ s, J s → ∀ id, s₀.haveKey id = true → s.haveKey id = true
  receive : ∀ s vchEphemPK sShared cpkE sx rest r, J s →
    vchEphemPK ∈ (vout.filterMap fun out => ephemeral out.scriptPubKey).map Prod.fst →
    sx ∈ s₀.stealthAddresses → paidKey G vchEphemPK sx = some (sShared,cpkE) →
    (∃ out ∈ vout, keyDestination E out.scriptPubKey = some (cpkE.getID E)) →
    s₀.haveKey (cpkE.getID E) = false →
    receiveStealth G E C R vchEphemPK sShared cpkE sx rest s = some r → J r.wallet

variable {vout : List CTxOut} {s₀ : KeyWallet} (J : KeyWallet → Prop)

theorem addresses_rule (hJ : Searched G E C R vout s₀ J)
    (heph : vchEphemPK ∈ (vout.filterMap fun out => ephemeral out.scriptPubKey).map Prod.fst)
    {id : Uint160} (hid : ∃ out ∈ vout, keyDestination E out.scriptPubKey = some id)
    (hnew : s₀.haveKey id = false) {sxs : List CStealthAddress}
    (hsub : ∀ sx ∈ sxs, sx ∈ s₀.stealthAddresses) (rest : CScript) (s : KeyWallet) (hs : J s)
    {r : Search} (h : searchAddresses G E C R vchEphemPK id sxs rest s = some r) : J r.wallet := by
  induction sxs generalizing rest s with
  | nil =>
    cases h
    exact hs
  | cons sx sxs ih =>
    have hrest := fun y hy => hsub y (List.mem_cons_of_mem sx hy)
    unfold searchAddresses at h
    cases hp : paidKey G vchEphemPK sx with
    | none =>
      rw [hp] at h
      exact ih hrest rest s hs h
    | some p =>
      obtain ⟨sShared,cpkE⟩ := p
      rw [hp] at h
      dsimp only at h
      split at h
      · exact ih hrest rest s hs h
      · rename_i hmatch
        rw [not_not] at hmatch
        subst hmatch
        obtain ⟨r₁,hr₁,h⟩ := Option.bind_eq_some_iff.mp h
        have hs₁ := hJ.receive s vchEphemPK sShared cpkE sx rest r₁ hs heph
          (hsub sx List.mem_cons_self) hp hid hnew hr₁
        split at h
        · cases h
          exact hs₁
        · exact ih hrest r₁.rest r₁.wallet hs₁ h

variable {s' : KeyWallet}

theorem outputs_rule (hJ : Searched G E C R vout s₀ J)
    (heph : vchEphemPK ∈ (vout.filterMap fun out => ephemeral out.scriptPubKey).map Prod.fst)
    {outs : List CTxOut} (hsub : ∀ out ∈ outs, out ∈ vout) (rest : CScript) (s : KeyWallet)
    (hs : J s) (h : searchOutputs G E C R vchEphemPK outs rest s = some s') : J s' := by
  induction outs generalizing rest s with
  | nil =>
    cases h
    exact hs
  | cons out outs ih =>
    have hrest := fun y hy => hsub y (List.mem_cons_of_mem out hy)
    unfold searchOutputs at h
    cases hd : keyDestination E out.scriptPubKey with
    | none =>
      rw [hd] at h
      exact ih hrest rest s hs h
    | some id =>
      rw [hd] at h
      dsimp only at h
      by_cases hhave : s.haveKey id = true
      · rw [if_pos hhave] at h
        exact ih hrest rest s hs h
      · rw [if_neg hhave] at h
        have hnew : s₀.haveKey id = false := by
          rw [← Bool.not_eq_true]
          exact fun h₀ => hhave (hJ.kept s hs id h₀)
        obtain ⟨r,hr,h⟩ := Option.bind_eq_some_iff.mp h
        have hr' := addresses_rule G E C R J hJ heph
          ⟨out,hsub out List.mem_cons_self,hd⟩ hnew
          (fun sx hsx => by rwa [hJ.stealth s hs] at hsx) rest s hs hr
        split at h
        · cases h
          exact hr'
        · exact ih hrest r.rest r.wallet hr' h

theorem tx_rule (hJ : Searched G E C R vout s₀ J) {is : List ℕ} (s : KeyWallet) (hs : J s)
    (h : searchTx G E C R vout is s = some s') : J s' := by
  induction is generalizing s with
  | nil =>
    cases h
    exact hs
  | cons i is ih =>
    unfold searchTx at h
    cases he : (vout[i]?).bind fun txout => ephemeral txout.scriptPubKey with
    | none =>
      rw [he] at h
      exact ih s hs h
    | some x =>
      obtain ⟨vchEphemPK,rest⟩ := x
      rw [he] at h
      obtain ⟨s₁,h₁,h⟩ := Option.bind_eq_some_iff.mp h
      obtain ⟨out,hout,hx⟩ := Option.bind_eq_some_iff.mp he
      have heph : vchEphemPK ∈
          (vout.filterMap fun out => ephemeral out.scriptPubKey).map Prod.fst :=
        List.mem_map.mpr ⟨_,List.mem_filterMap.mpr ⟨out,List.mem_of_getElem? hout,hx⟩,rfl⟩
      exact ih s₁ (outputs_rule G E C R J hJ heph
        (fun y hy => List.mem_of_mem_eraseIdx hy) rest s hs h₁) h

theorem find_rule {tx : CTransaction} (hJ : Searched G E C R tx.vout s₀ J) (hs : J s₀)
    (h : findStealthTransactions G E C R tx s₀ = some s') : J s' :=
  tx_rule G E C R J hJ s₀ hs h

end Rule

section Open
variable {P : Type} (G : EcGroup P) (E : KeyEnv) (C : Cipher) (R : Receipt)

theorem add_key_locked (key : CKey) (fWritten : Bool) (s : KeyWallet) :
    (addKey E C key fWritten s).2.isLocked = s.isLocked := by
  rcases add_key_cases E C key fWritten s with h | ⟨_,h⟩ | ⟨_,_,_,h⟩
  · rw [h]
  · rw [h]
    rfl
  · rw [h]
    rfl

theorem add_key_addresses (key : CKey) (fWritten : Bool) (s : KeyWallet) :
    (addKey E C key fWritten s).2.stealthAddresses = s.stealthAddresses := by
  rcases add_key_cases E C key fWritten s with h | ⟨_,h⟩ | ⟨_,_,_,h⟩
  all_goals rw [h]

theorem insert_kept {V : Type} {m : Dict Uint160 V} (k id : Uint160) (v : V)
    (h : (m.lookup id).isSome = true) : ((m.insert k v).lookup id).isSome = true := by
  rw [lookup_insert_if]
  split
  · rfl
  · exact h

theorem add_key_kept (key : CKey) (fWritten : Bool) {s : KeyWallet} {id : Uint160}
    (h : s.haveKey id = true) : (addKey E C key fWritten s).2.haveKey id = true := by
  rcases add_key_cases E C key fWritten s with heq | ⟨hu,heq⟩ | ⟨hu,_,_,heq⟩
  · rw [heq]
    exact h
  · rw [heq]
    unfold CCryptoKeyStore.haveKey at h ⊢
    rw [hu] at h ⊢
    exact insert_kept _ id _ h
  · rw [heq]
    unfold CCryptoKeyStore.haveKey at h ⊢
    rw [hu] at h ⊢
    exact insert_kept _ id _ h

theorem receive_open (I : KeyWallet → Prop)
    (hI : ∀ s key fWritten, I s → I (addKey E C key fWritten s).2) (tx : CTransaction)
    (s₀ : KeyWallet) (hs : I s₀) (hl : s₀.isLocked = false) (s' : KeyWallet)
    (h : findStealthTransactions G E C R tx s₀ = some s') : I s' := by
  refine (find_rule G E C R (fun s => I s ∧ s.isLocked = false ∧
    s.stealthAddresses = s₀.stealthAddresses ∧ ∀ id, s₀.haveKey id = true → s.haveKey id = true)
    ⟨fun s h => h.2.2.1,fun s h => h.2.2.2,?_⟩ ⟨hs,hl,rfl,fun id h => h⟩ h).1
  intro s vchEphemPK sShared cpkE sx rest r hJ _ _ _ _ _ hr
  obtain ⟨hi,hopen,haddr,hkept⟩ := hJ
  rcases receive_cases G E C R hr with
    heq | ⟨hlocked,_⟩ | ⟨_,key,fWritten,heq⟩
  · rw [heq]
    exact ⟨hi,hopen,haddr,hkept⟩
  · rw [hopen] at hlocked
    cases hlocked
  · rw [heq]
    exact ⟨hI s key fWritten hi,(add_key_locked E C key fWritten s).trans hopen,
      (add_key_addresses E C key fWritten s).trans haddr,
      fun id h => add_key_kept E C key fWritten (hkept id h)⟩

end Open

section Locked
variable {P : Type} (G : EcGroup P) (E : KeyEnv) (C : Cipher) (R : Receipt)

theorem sealed_empty_entry {pass mk : List UInt8} {r : CMasterKey} {s : KeyWallet}
    (hs : Sealed E C pass mk r s) {cpkE : CPubKey} (hnew : s.held.lookup (cpkE.getID E) = none)
    (hbehind : keyBefore s (cpkE.getID E) = true) {k : CCryptoKeyStore}
    (hk : s.addCryptedKey E cpkE [] = some k) (m : Dict Uint160 CStealthKeyMetadata) :
    Sealed E C pass mk r { s with toCCryptoKeyStore := k, mapStealthKeyMeta := m } ∧
      first leID k.mapCryptedKeys = first leID s.mapCryptedKeys := by
  unfold CCryptoKeyStore.addCryptedKey at hk
  rw [set_crypted _ hs.crypted] at hk
  cases hk
  dsimp only
  unfold keyBefore at hbehind
  rw [Option.any_eq_true] at hbehind
  obtain ⟨y,hy,hlt⟩ := hbehind
  rw [Bool.not_eq_true'] at hlt
  have hfirst := first_insert_behind leID s.mapCryptedKeys le_id_ordered (cpkE,[])
    hy hlt
  refine ⟨⟨hs.crypted,hs.passphrase,hs.record,hs.opens,hs.sized,hs.master,?_,?_,?_,?_⟩,
    hfirst.trans hy.symm⟩
  · intro id x hx
    dsimp only at hx
    rw [lookup_insert_if] at hx
    split at hx
    · exact Or.inl (congrArg Prod.snd (Option.some.inj hx)).symm
    · exact hs.entries id x hx
  · intro id x hx
    dsimp only at hx
    rw [lookup_insert_if] at hx
    split at hx
    · rename_i hid
      rw [hid, ← Option.some.inj hx]
    · exact hs.ids id x hx
  · intro id key hid
    dsimp only at hid ⊢
    rw [lookup_insert_if, if_neg (fun heq => by rw [heq, hnew] at hid; cases hid)]
    exact hs.held id key hid
  · intro x hx
    dsimp only at hx
    rw [hfirst] at hx
    exact hs.front x (hy.trans hx)

structure FoundLocked (pass mk : List UInt8) (r : CMasterKey) (s₀ s : KeyWallet) : Prop where
  sealed : Sealed E C pass mk r s
  locked : s.isLocked = true
  stealth : s.stealthAddresses = s₀.stealthAddresses
  first : first leID s.mapCryptedKeys = first leID s₀.mapCryptedKeys
  held : s.held = s₀.held
  kept : ∀ id, s₀.haveKey id = true → s.haveKey id = true

theorem receive_locked {pass mk : List UInt8} {r : CMasterKey} {tx : CTransaction} {s₀ : KeyWallet}
    (hs : Sealed E C pass mk r s₀) (hl : s₀.isLocked = true) (hok : foundBehind G E tx s₀ = true)
    {s' : KeyWallet} (h : findStealthTransactions G E C R tx s₀ = some s') :
    Sealed E C pass mk r s' := by
  refine (find_rule G E C R (FoundLocked E C pass mk r s₀)
    ⟨fun s h => h.stealth,fun s h => h.kept,?_⟩ ⟨hs,hl,rfl,rfl,rfl,fun id h => h⟩ h).sealed
  intro s vchEphemPK sShared cpkE sx rest res hJ heph hsx hpaid hdest hnew hres
  rcases receive_cases G E C R hres with
    heq | ⟨_,k,m,hk,heq⟩ | ⟨hopen,_⟩
  · rw [heq]
    exact hJ
  · have hbehind : keyBefore s (cpkE.getID E) = true := by
      unfold keyBefore
      rw [hJ.first]
      obtain ⟨x,hx,rfl⟩ := List.mem_map.mp heph
      obtain ⟨out,hout,hdest⟩ := hdest
      unfold foundBehind at hok
      have hsearch := List.all_eq_true.mp (List.all_eq_true.mp hok x hx) sx hsx
      rw [hpaid, Option.all_some, hnew, Bool.or_false] at hsearch
      have hany : (tx.vout.any fun out => keyDestination E out.scriptPubKey ==
          some (cpkE.getID E)) = true :=
        List.any_eq_true.mpr ⟨out,hout,beq_iff_eq.mpr hdest⟩
      rw [hany] at hsearch
      exact hsearch
    have hheld : s.held.lookup (cpkE.getID E) = none := by
      rw [hJ.held]
      cases hh : s₀.held.lookup (cpkE.getID E) with
      | none => rfl
      | some key =>
        unfold CCryptoKeyStore.haveKey at hnew
        rw [hs.crypted, hs.held _ key hh] at hnew
        cases hnew
    obtain ⟨hseal,hfirst⟩ := sealed_empty_entry E C hJ.sealed hheld hbehind hk m
    have hkeys : k = { s.toCCryptoKeyStore with
        mapCryptedKeys := s.mapCryptedKeys.insert (cpkE.getID E) (cpkE,[]) } := by
      unfold CCryptoKeyStore.addCryptedKey at hk
      rw [set_crypted _ hJ.sealed.crypted] at hk
      exact (Option.some.inj hk).symm
    rw [heq]
    refine ⟨hseal,?_,hJ.stealth,hfirst.trans hJ.first,hJ.held,?_⟩
    · rw [hkeys]
      exact hJ.locked
    · intro id hid
      have hhave := hJ.kept id hid
      unfold CCryptoKeyStore.haveKey at hhave ⊢
      rw [hkeys]
      rw [hJ.sealed.crypted] at hhave ⊢
      exact insert_kept _ id _ hhave
  · rw [hJ.locked] at hopen
    cases hopen

end Locked

end SwippCore.WalletReceipt

namespace SwippCore.WalletOpen
open FinMap Key Stealth Crypter CCryptoKeyStore WalletKeys WalletUnlock WalletReceipt Histories

section Steps
variable {P : Type} (G : EcGroup P) (E : KeyEnv) (C : Cipher)

variable {s : KeyWallet}

theorem clear_add_key (hs : Clear E s) (key : CKey) (fWritten : Bool) :
    Clear E (addKey E C key fWritten s).2 := by
  rcases add_key_cases E C key fWritten s with h | ⟨_,h⟩ | ⟨hu,_,_,_⟩
  · rw [h]
    exact hs
  · rw [h]
    refine ⟨hs.plain,hs.crypted,hs.master,?_,?_⟩
    · dsimp only
      rw [hs.held]
    · intro id k hk
      dsimp only at hk
      rw [lookup_insert_if] at hk
      split at hk
      · rename_i hid
        rw [← Option.some.inj hk]
        exact hid
      · exact hs.ids id k hk
  · rw [hs.plain] at hu
    cases hu

theorem inv_add_key (hC : C.Lawful) (hs : Inv E C s) (key : CKey) (fWritten : Bool) :
    Inv E C (addKey E C key fWritten s).2 := by
  rcases hs with hs | ⟨pass,mk,r,hs⟩
  · exact Or.inl (clear_add_key E C hs key fWritten)
  · exact Or.inr ⟨pass,mk,r,sealed_add_key E C hC hs key fWritten⟩

theorem inv_addresses (hs : Inv E C s) (sxs : List CStealthAddress) :
    Inv E C { s with stealthAddresses := sxs } := by
  rcases hs with hs | ⟨pass,mk,r,hs⟩
  · exact Or.inl ⟨hs.plain,hs.crypted,hs.master,hs.held,hs.ids⟩
  · exact Or.inr ⟨pass,mk,r,hs.crypted,hs.passphrase,hs.record,hs.opens,hs.sized,hs.master,
      hs.entries,hs.ids,hs.held,hs.front⟩

theorem inv_lock (hs : Inv E C s) {read : CStealthAddress → Option (List UInt8)}
    (hok : stepOk G E C s (.lock read) = true) : Inv E C (WalletKeys.lock read s).2 := by
  rcases hs with hs | ⟨pass,mk,r,hs⟩
  · have hkeys : s.setCrypted = none := by
      unfold stepOk at hok
      dsimp only at hok
      rw [hs.plain, Bool.false_or] at hok
      unfold CCryptoKeyStore.setCrypted
      rw [hs.plain, if_neg (by decide), if_pos hok]
    unfold WalletKeys.lock
    split
    · exact Or.inl hs
    · unfold CCryptoKeyStore.lockKeyStore
      rw [hkeys]
      exact inv_addresses E C (Or.inl hs) _
  · exact Or.inr ⟨pass,mk,r,lock_sealed E C read hs⟩

theorem step_inv (hG : G.order = curveOrder) (hE : E.Sized) (hC : C.Lawful) (e : Event)
    (s s' : KeyWallet) (hs : Inv E C s) (hok : stepOk G E C s e = true)
    (h : stepWallet G E C e s = some s') : Inv E C s' := by
  cases e with
  | encryptWallet pass e =>
    obtain ⟨⟨b,s₁⟩,hrun,rfl⟩ := Option.map_eq_some_iff.mp h
    rcases hs with hs | ⟨pass',mk,r,hs⟩
    · exact encrypt_wallet_inv G E C hG hE hC hs hok hrun
    · unfold encryptWallet at hrun
      rw [if_pos hs.crypted] at hrun
      cases hrun
      exact Or.inr ⟨pass',mk,r,hs⟩
  | lock read =>
    cases h
    exact inv_lock G E C hs hok
  | unlock pass =>
    obtain ⟨⟨b,s₁⟩,hrun,rfl⟩ := Option.map_eq_some_iff.mp h
    rcases hs with hs | ⟨pass',mk,r,hs⟩
    · have hl : s.isLocked = false := by
        unfold CCryptoKeyStore.isLocked
        rw [hs.plain, Bool.false_and]
      rw [unlock_open G E C pass hl] at hrun
      cases hrun
      exact Or.inl hs
    · exact Or.inr ⟨pass',mk,r,unlock_sealed G E C hG hC hE hs hok hrun⟩
  | addKey key fWritten =>
    cases h
    exact inv_add_key E C hC hs key fWritten
  | addStealthAddress sxAddr fWritten =>
    cases h
    unfold WalletKeys.addStealthAddress
    dsimp only
    split
    · exact inv_addresses E C hs _
    · exact inv_addresses E C hs _
  | receive R tx =>
    by_cases hl : s.isLocked = true
    · rcases hs with hs | ⟨pass,mk,r,hs⟩
      · unfold CCryptoKeyStore.isLocked at hl
        rw [hs.plain, Bool.false_and] at hl
        cases hl
      · unfold stepOk at hok
        dsimp only at hok
        rw [hl, Bool.not_true, Bool.false_or] at hok
        exact Or.inr ⟨pass,mk,r,receive_locked G E C R hs hl hok h⟩
    · rw [Bool.not_eq_true] at hl
      exact receive_open G E C R (Inv E C)
        (fun s key fWritten hs => inv_add_key E C hC hs key fWritten) tx s hs hl s' h

end Steps

section Runs
variable {P : Type} (G : EcGroup P) (E : KeyEnv) (C : Cipher)

structure Openable (s : KeyWallet) : Prop where
  /-- the passphrase opens it, and every key that was held is there -/
  opens : s.fUseCrypto = true → ∃ pass s', s.passphrase = some pass ∧
    WalletKeys.unlock G E C pass s = some (true,s') ∧
    (∀ id key, s.held.lookup id = some key → s'.getKey E C id = some key) ∧
    ∀ id key, s'.held.lookup id = some key → s'.getKey E C id = some key
  /-- a passphrase whose master key leaves a stored secret closed does not open it -/
  refuses : s.isLocked = true → ∀ pass id x, s.mapCryptedKeys.lookup id = some x → x.2 ≠ [] →
    (∀ mk, masterKeyOf C s pass = some mk → ¬ Decrypts E C mk x) →
    ∃ s', WalletKeys.unlock G E C pass s = some (false,s') ∧ s'.isLocked = true

theorem inv_openable (hG : G.order = curveOrder) (hE : E.Sized) (hC : C.Lawful) {s : KeyWallet}
    (hs : Inv E C s) : Openable G E C s := by
  rcases hs with hs | ⟨pass,mk,r,hs⟩
  · refine ⟨?_,?_⟩
    · intro hu
      rw [hs.plain] at hu
      cases hu
    · intro hl
      unfold CCryptoKeyStore.isLocked at hl
      rw [hs.plain, Bool.false_and] at hl
      cases hl
  · refine ⟨?_,?_⟩
    · intro _
      obtain ⟨s',hrun,hs',hm,hheld⟩ := unlock_opens G E C hG hE hC hs
      have hback := held_key_back E C hE hC hs' hm
      exact ⟨pass,s',hs.passphrase,hrun,fun id key h => hback id key (hheld id key h),hback⟩
    · intro hl pass' id x hx hne hwrong
      exact unlock_refuses G E C hC hs hl hx hne hwrong

/-- The wallet opens with its passphrase throughout a run whose operations meet the condition. -/
theorem encrypted_wallet_opens (hG : G.order = curveOrder) (hE : E.Sized) (hC : C.Lawful)
    (es : List Event)
    (hok : Along (step G E C) (fun o e => o.all (fun s => stepOk G E C s e) = true) es
      (some .start)) :
    Throughout (step G E C) (fun _ o => ∀ s, o = some s → Openable G E C s) es (some .start) := by
  have hinv := throughout_of_along (step G E C) (fun o => ∀ s, o = some s → Inv E C s)
    ?_ (some .start) ?_ hok
  · intro pre hpre s hs
    exact inv_openable G E C hG hE hC (hinv pre hpre s hs)
  · intro e o hinv hok s' h
    obtain ⟨s,rfl,h⟩ := Option.bind_eq_some_iff.mp h
    exact step_inv G E C hG hE hC e s s' (hinv s rfl) hok h
  · intro s hs
    cases hs
    exact Or.inl ⟨rfl,rfl,rfl,rfl,fun id key h => by cases h⟩

end Runs

section Sample

def sampleSecret (n : UInt8) : List UInt8 := List.replicate 31 0++[n]

def sampleKey (n : UInt8) (h : checkSecret (sampleSecret n) = true) : CKey :=
  ⟨sampleSecret n,true,h⟩

theorem sample_secret_valid : checkSecret (sampleSecret 1) = true := by decide +kernel

def sampleAddress : CStealthAddress where
  scanPubkey := 2::sampleSecret 5
  spendPubkey := 2::sampleSecret 1
  scanSecret := sampleSecret 5
  spendSecret := sampleSecret 1

def sampleEncryption : Encryption where
  vMasterKey := List.replicate 32 7
  drawn := rfl
  vchSalt := List.replicate 8 0
  nDeriveIterations := 25000
  nDerivationMethod := 0
  fTxnBegin := true
  fWritten := true
  read := fun _ => none
  pool := []
  fPool := true

def samplePayment : CTransaction where
  nVersion := 1
  nTime := 0
  vin := []
  vout := [⟨0,[0x6a,33]++2::sampleSecret 3⟩,
    ⟨10,[0x76,0xa9,20]++2::List.replicate 19 0++[0x88,0xac]⟩]
  nLockTime := 0

def sampleRun (key : CKey) : List Event :=
  [.addKey key true,.addStealthAddress sampleAddress true,
    .encryptWallet [112] sampleEncryption,.receive ⟨fun _ _ _ => true,fun _ => true⟩ samplePayment]

theorem encrypted_wallet_opens_sample :
    Throughout (step sampleGroup sampleKeys sampleCipher)
      (fun _ o => ∀ s, o = some s → Openable sampleGroup sampleKeys sampleCipher s)
      (sampleRun (sampleKey 1 (by decide +kernel))) (some .start) :=
  encrypted_wallet_opens sampleGroup sampleKeys sampleCipher rfl sample_keys_sized
    sample_cipher_lawful _ (by decide +kernel)

/-- The key that is paid comes before the one that was held, and the passphrase is refused. -/
theorem received_key_closes :
    ¬ Throughout (step sampleGroup sampleKeys sampleCipher)
      (fun _ o => ∀ s, o = some s → Openable sampleGroup sampleKeys sampleCipher s)
      (sampleRun (sampleKey 9 (by decide +kernel))) (some .start) := by
  intro h
  have hlast := throughout_last _ h
  generalize ho : deliver (step sampleGroup sampleKeys sampleCipher)
    (sampleRun (sampleKey 9 (by decide +kernel))) (some .start) = o at hlast
  have hfacts : o.any (fun s => s.fUseCrypto && s.passphrase == some [112]) = true ∧
      (o.bind (WalletKeys.unlock sampleGroup sampleKeys sampleCipher [112])).map Prod.fst =
        some false := by
    rw [← ho]
    decide +kernel
  cases o with
  | none => exact absurd hfacts.1 (by decide)
  | some s =>
    obtain ⟨hcrypted,hrefused⟩ := hfacts
    rw [Option.any_some, Bool.and_eq_true, beq_iff_eq] at hcrypted
    obtain ⟨pass,s',hpass,hopen,_⟩ := (hlast s rfl).opens hcrypted.1
    have heq : pass = [112] := Option.some.inj (hpass.symm.trans hcrypted.2)
    rw [heq] at hopen
    rw [Option.bind_some, hopen] at hrefused
    cases hrefused

end Sample

end SwippCore.WalletOpen
