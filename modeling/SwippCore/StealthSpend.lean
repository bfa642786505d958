import SwippCore.StealthPayment

/-!
# Stealth payments and the length of their secrets

The recipient of a payment gets its key exactly when the number of the secret needs
all its 32 bytes. Where the wallet was open the key comes at once, where it was
locked the unlocking computes it.
-/

set_option autoImplicit false

namespace SwippCore.StealthSpend
open FinMap Key Stealth Crypter CCryptoKeyStore WalletKeys WalletUnlock WalletReceipt
open StealthAgreement StealthPayment

section Secret
variable {P : Type} {G : EcGroup P} {E : KeyEnv} {C : Cipher}

theorem pubkey_of_code (hG : Cyclic G) {k : ℕ} (hk : k%G.order ≠ 0) :
    (CPubKey.set (code G k)).vch = code G k := by
  have hlen : (code G k).length = getLen (code G k) := (hG.sized k hk).trans (hG.headed k hk).symm
  unfold CPubKey.set
  rw [dif_pos hlen]

section
variable (hG : Cyclic G) {secret b : List UInt8} (h : secretToPublicKey G secret = some b)
include hG secret h

theorem pubkey_of_secret : (CPubKey.set b).vch = b := by
  obtain ⟨hk,rfl⟩ := (public_key_iff hG secret b).mp h
  exact pubkey_of_code hG hk

theorem code_valid : (CPubKey.set b).isValid = true := by
  obtain ⟨hk,hb⟩ := (public_key_iff hG secret b).mp h
  have hlen : b.length = 33 := hb ▸ hG.sized _ hk
  unfold CPubKey.isValid
  rw [pubkey_of_secret hG h]
  cases b with
  | nil => cases hlen
  | cons x xs => rfl

end

theorem curve_small (horder : G.order = curveOrder) : G.order ≤ 256^32 ∧ 0 < G.order := by
  rw [horder]
  exact ⟨by decide,by decide⟩

theorem shared_to_spend_sent (horder : G.order = curveOrder) {d f e sharedS paid : List UInt8}
    (hs : Sent G d f e sharedS paid) :
    stealthSharedToSecretSpend G sharedS f =
      if 256^31 ≤ spendNumber G d f e then some (bn2bin (spendNumber G d f e)) else none := by
  obtain ⟨hsmall,hpos⟩ := curve_small horder
  rw [shared_to_spend G hsmall hpos sharedS f, hs.hash]
  rfl

theorem paid_secret (hO : OpenSsl G E C) {d f e sharedS paid : List UInt8}
    (hs : Sent G d f e sharedS paid) (hbig : 256^31 ≤ spendNumber G d f e) :
    ∃ key : CKey, stealthSharedToSecretSpend G sharedS f = some key.vch ∧
      secretToPublicKey G key.vch = some paid ∧ CKey.set key.vch true = some key ∧
      key.getPubKey E = .set paid := by
  have hsp := shared_to_spend_sent hO.order hs
  rw [if_pos hbig] at hsp
  have hcheck := spend_secret_checked G hO.order hsp
  have hpub := spend_key hO.cyclic hs
  refine ⟨⟨_,true,hcheck⟩,hsp,hpub,dif_pos hcheck,?_⟩
  have hkeys := hO.keys ⟨_,true,hcheck⟩
  rw [hpub] at hkeys
  unfold CKey.getPubKey
  exact congrArg CPubKey.set (Option.some.inj hkeys).symm

theorem paid_key_found (hO : OpenSsl G E C) {d f e sharedS paid ephem : List UInt8}
    (hs : Sent G d f e sharedS paid) (he : secretToPublicKey G e = some ephem)
    (hlen : d.length = 32) {sx : CStealthAddress} (hscan : sx.scanSecret = d)
    (hspend : secretToPublicKey G f = some sx.spendPubkey) :
    paidKey G ephem sx = some (sharedS,.set paid) := by
  obtain ⟨_,rfl⟩ := (public_key_iff hO.cyclic e ephem).mp he
  obtain ⟨_,hcode⟩ := (public_key_iff hO.cyclic f _).mp hspend
  have hvalid := code_valid hO.cyclic (spend_key hO.cyclic hs)
  unfold paidKey
  rw [hscan, if_neg (not_not.mpr (show d.length = ecSecretSize from hlen)), ← hcode, recipient_agrees hO.cyclic hs]
  dsimp only
  rw [if_pos hvalid]

end Secret

section Stored
variable {P : Type} (G : EcGroup P) (E : KeyEnv) (C : Cipher)

structure Stored (mk : List UInt8) (s : KeyWallet) : Prop where
  crypted : s.fUseCrypto = true
  sized : mk.length = walletCryptoKeySize
  entries : ∀ id x, s.mapCryptedKeys.lookup id = some x →
    x.2 = [] ∨ ∃ key, x = sealedEntry E C mk key
  ids : ∀ id x, s.mapCryptedKeys.lookup id = some x → id = x.1.getID E

variable {mk : List UInt8} {s : KeyWallet}

theorem stored_of_sealed {pass : List UInt8} {r : CMasterKey} (hs : Sealed E C pass mk r s) :
    Stored E C mk s :=
  ⟨hs.crypted,hs.sized,hs.entries,hs.ids⟩

theorem stored_insert (mk : List UInt8) (s s' : KeyWallet) (hs : Stored E C mk s)
    (x : CPubKey × List UInt8) (hx : x.2 = [] ∨ ∃ key, x = sealedEntry E C mk key)
    (hcrypted : s'.fUseCrypto = s.fUseCrypto)
    (hmap : s'.mapCryptedKeys = s.mapCryptedKeys.insert (x.1.getID E) x) : Stored E C mk s' := by
  refine ⟨hcrypted.trans hs.crypted,hs.sized,?_,?_⟩
  · intro id y hy
    rw [hmap, lookup_insert_if] at hy
    split at hy
    · cases hy
      exact hx
    · exact hs.entries id y hy
  · intro id y hy
    rw [hmap, lookup_insert_if] at hy
    split at hy
    · rename_i hid
      cases hy
      exact hid
    · exact hs.ids id y hy

theorem stored_key (hO : OpenSsl G E C) (hs : Stored E C mk s) (hm : s.vMasterKey = mk)
    {id : Uint160} {x : CPubKey × List UInt8} (hx : s.mapCryptedKeys.lookup id = some x)
    (hne : x.2 ≠ []) : ∃ key, s.getKey E C id = some key ∧ (key.getPubKey E).getID E = id := by
  obtain ⟨key,hkey⟩ := (hs.entries id x hx).resolve_left hne
  have hid := hs.ids id x hx
  subst hkey
  refine ⟨key,?_,hid.symm⟩
  unfold CCryptoKeyStore.getKey
  rw [hs.crypted, Bool.not_true, if_neg (by decide), hx, Option.bind_some, hm,
    decrypt_entry E C hO.cipher hs.sized key, Option.bind_some, if_neg (not_not.mpr key.length)]
  change CKey.set key.vch (key.getPubKey E).isCompressed = some key
  rw [compressed_of_key E hO.sized, CKey.set_self]

theorem add_key_stored (hs : Stored E C mk s) (hm : s.vMasterKey = mk) (key : CKey)
    (fWritten : Bool) :
    (addKey E C key fWritten s).2 = { s with
      mapCryptedKeys := s.mapCryptedKeys.insert ((key.getPubKey E).getID E) (sealedEntry E C mk key)
      held := s.held.insert ((key.getPubKey E).getID E) key } := by
  have hl : s.isLocked = false := by
    unfold CCryptoKeyStore.isLocked
    have hne : s.vMasterKey.isEmpty = false := by
      rw [hm]
      cases mk with
      | nil => exact absurd hs.sized (by decide)
      | cons b bs => rfl
    rw [hne, Bool.and_false]
  subst hm
  unfold addKey CCryptoKeyStore.addKeyPubKey encryptSecret CCryptoKeyStore.addCryptedKey
  rw [if_neg (by rw [hs.crypted]; decide), if_neg (by rw [hl]; decide), if_pos hs.sized,
    Option.bind_some, set_crypted _ hs.crypted]
  rfl

end Stored

section Open
variable {P : Type} (G : EcGroup P) (E : KeyEnv) (C : Cipher) (R : Receipt)

structure OpenAt (mk : List UInt8) (id : Uint160) (s : KeyWallet) : Prop where
  ready : Ready E C mk s
  unlocked : s.isLocked = false
  whole : ∀ x, s.mapCryptedKeys.lookup id = some x → x.2 ≠ []

variable {mk : List UInt8} {s : KeyWallet}

theorem master_of_open {pass : List UInt8} {r : CMasterKey} (hs : Sealed E C pass mk r s)
    (hl : s.isLocked = false) : s.vMasterKey = mk := by
  rcases hs.master with hm | hm
  · rw [(locked_iff hs.crypted).mpr hm] at hl
    cases hl
  · exact hm

section
variable (hO : OpenSsl G E C)
include hO

theorem open_add_key {id : Uint160} (hs : OpenAt E C mk id s) (key : CKey)
    (fWritten : Bool) :
    OpenAt E C mk id (addKey E C key fWritten s).2 ∧
      (addKey E C key fWritten s).2.haveKey ((key.getPubKey E).getID E) = true := by
  have hl := (add_key_locked E C key fWritten s).trans hs.unlocked
  rcases hs.ready with hc | ⟨pass,r,hc⟩
  · have heq : (addKey E C key fWritten s).2 = { s with
        mapKeys := s.mapKeys.insert ((key.getPubKey E).getID E) key
        held := s.held.insert ((key.getPubKey E).getID E) key } := by
      unfold addKey CCryptoKeyStore.addKeyPubKey
      rw [hc.plain, Bool.not_false, if_pos rfl]
    constructor
    · refine ⟨Or.inl ?_,hl,?_⟩
      · rw [heq]
        refine ⟨hc.plain,hc.crypted,hc.master,by dsimp only; rw [hc.held],?_⟩
        intro i k hk
        dsimp only at hk
        rw [lookup_insert_if] at hk
        split at hk
        · rename_i hid
          rw [← Option.some.inj hk]
          exact hid
        · exact hc.ids i k hk
      · rw [heq]
        exact hs.whole
    · rw [heq]
      unfold CCryptoKeyStore.haveKey
      rw [hc.plain, Bool.not_false, if_pos rfl]
      dsimp only
      rw [AList.lookup_insert]
      rfl
  · have heq := add_key_stored E C (stored_of_sealed E C hc)
      (master_of_open E C hc hs.unlocked) key fWritten
    constructor
    · refine ⟨Or.inr ⟨pass,r,sealed_add_key E C hO.cipher hc key fWritten⟩,hl,?_⟩
      intro x hx
      rw [heq] at hx
      dsimp only at hx
      rw [lookup_insert_if] at hx
      split at hx
      · cases hx
        exact entry_ne_nil E C hO.cipher hc.sized key
      · exact hs.whole x hx
    · rw [heq]
      unfold CCryptoKeyStore.haveKey
      rw [hc.crypted, Bool.not_true, if_neg (by decide)]
      dsimp only
      rw [AList.lookup_insert]
      rfl

theorem open_key {id : Uint160} (hs : OpenAt E C mk id s)
    (hhave : s.haveKey id = true) :
    ∃ key, s.getKey E C id = some key ∧ (key.getPubKey E).getID E = id := by
  unfold CCryptoKeyStore.haveKey at hhave
  rcases hs.ready with hc | ⟨pass,r,hc⟩
  · rw [hc.plain, Bool.not_false, if_pos rfl] at hhave
    obtain ⟨key,hkey⟩ := Option.isSome_iff_exists.mp hhave
    refine ⟨key,?_,(hc.ids id key hkey).symm⟩
    unfold CCryptoKeyStore.getKey
    rw [hc.plain, Bool.not_false, if_pos rfl]
    exact hkey
  · rw [hc.crypted, Bool.not_true, if_neg (by decide)] at hhave
    obtain ⟨x,hx⟩ := Option.isSome_iff_exists.mp hhave
    exact stored_key G E C hO (stored_of_sealed E C hc)
      (master_of_open E C hc hs.unlocked) hx (hs.whole x hx)

theorem open_searched (mk : List UInt8) (id : Uint160) (vout : List CTxOut)
    (s₀ : KeyWallet) : Searched G E C R vout s₀ fun s => OpenAt E C mk id s ∧
      s.stealthAddresses = s₀.stealthAddresses ∧
      ∀ id, s₀.haveKey id = true → s.haveKey id = true := by
  apply searched_with
  intro s vchEphemPK sShared cpkE sx rest r hs _ _ _ _ _ hr
  rcases receive_cases G E C R hr with
    heq | ⟨hlocked,_⟩ | ⟨_,key,fWritten,heq⟩
  · rw [heq]
    exact hs
  · rw [hs.unlocked] at hlocked
    cases hlocked
  · rw [heq]
    exact (open_add_key G E C hO hs key fWritten).1

theorem open_gives {d f e sharedS paid ephem : List UInt8}
    (hs : Sent G d f e sharedS paid) (hbig : 256^31 ≤ spendNumber G d f e) (hlen : f.length = 32)
    {sx : CStealthAddress} (hspend : sx.spendSecret = f) (hopen : OpenAt E C mk (E.hash160 paid) s)
    {rest : CScript} {r : Search}
    (hr : receiveStealth G E C R ephem sharedS (.set paid) sx rest s = some r) :
    r.wallet.haveKey (E.hash160 paid) = true := by
  obtain ⟨key,hsp,hpub,hset,hkey⟩ := paid_secret hO hs hbig
  have hvch := pubkey_of_secret hO.cyclic hpub
  have hid : (key.getPubKey E).getID E = E.hash160 paid := by
    rw [hkey]
    exact congrArg E.hash160 hvch
  have hvalid : (key.getPubKey E).isValid = true := by
    rw [hkey]
    exact code_valid hO.cyclic hpub
  have hadd := (open_add_key G E C hO hopen key (R.fWritten ((key.getPubKey E).getID E))).2
  rw [hid] at hadd
  unfold receiveStealth at hr
  rw [if_neg (by rw [hopen.unlocked]; decide), hspend,
    if_neg (not_not.mpr (show f.length = ecSecretSize from hlen)), hsp] at hr
  dsimp only at hr
  rw [hpub, Option.isNone_some, if_neg (by decide), hset] at hr
  dsimp only at hr
  rw [hvalid, Bool.not_true, if_neg (by decide), hid] at hr
  split at hr
  · cases hr
    rw [narration_wallet]
    exact hadd
  · cases hr
    exact hadd

theorem reaches_open {d f e sharedS paid ephem : List UInt8}
    (hs : Sent G d f e sharedS paid) (hbig : 256^31 ≤ spendNumber G d f e) (hd : d.length = 32)
    (hf : f.length = 32) (he : secretToPublicKey G e = some ephem) {sx : CStealthAddress}
    {tx : CTransaction} (hready : Ready E C mk s) (hl : s.isLocked = false)
    (howns : Owns G E C mk d f sx s) (hpays : Pays G E ephem paid sx tx s) {s' : KeyWallet}
    (h : findStealthTransactions G E C R tx s = some s') {pass : List UInt8} {s'' : KeyWallet}
    (hun : WalletKeys.unlock G E C pass s' = some (true,s'')) :
    ∃ key, s''.getKey E C (E.hash160 paid) = some key ∧
      (key.getPubKey E).getID E = E.hash160 paid := by
  have hspend : sx.spendSecret = f := by
    rw [howns.spendSecret, hl, if_neg (by decide)]
  have hpub := spend_key hO.cyclic hs
  have hopen : OpenAt E C mk (E.hash160 paid) s := by
    refine ⟨hready,hl,?_⟩
    intro x hx
    exfalso
    have hfresh := hpays.fresh
    unfold CCryptoKeyStore.haveKey at hfresh
    rcases hready with hc | ⟨_,_,hc⟩
    · rw [hc.crypted] at hx
      cases hx
    · rw [hc.crypted, Bool.not_true, if_neg (by decide), hx] at hfresh
      cases hfresh
  have hsearched := open_searched G E C R hO mk (E.hash160 paid) tx.vout s
  have hsought : Sought G E C R tx.vout s (OpenAt E C mk (E.hash160 paid)) ephem sharedS paid sx :=
    ⟨paid_key_found hO hs he hd howns.scanSecret howns.spendPubkey,
      pubkey_of_secret hO.cyclic hpub,hpays.only,hsearched,fun s rest r hopen hr =>
        open_gives G E C R hO hs hbig hf hspend hopen hr⟩
  obtain ⟨i,outE,rest,hi,hephem,hout⟩ := hpays.carried
  have hlt : i ∈ List.range tx.vout.length :=
    List.mem_range.mpr (List.getElem?_eq_some_iff.mp hi).1
  have hhave := tx_hit G E C R tx.vout s _ ephem paid sx hsought howns.mem hpays.fresh
    hi hephem hout hlt s hopen ⟨rfl,fun id h => h⟩ h
  have hopen' := (tx_rule G E C R _ hsearched s ⟨hopen,rfl,fun id h => h⟩ h).1
  rw [unlock_open G E C pass hopen'.unlocked] at hun
  cases hun
  exact open_key G E C hO hopen' hhave

end

end Open

section Locked
variable {P : Type} (G : EcGroup P) (E : KeyEnv) (C : Cipher) (R : Receipt)

def Placed (ephem paid : List UInt8) (sx : CStealthAddress) (s : KeyWallet) : Prop :=
  s.mapCryptedKeys.lookup (E.hash160 paid) = some (.set paid,[]) ∧
    s.mapStealthKeyMeta.lookup (E.hash160 paid) = some ⟨.set ephem,.set sx.scanPubkey⟩

/-- The locked wallet `s` during the search that began with `s₀`. -/
structure LockedAt (mk ephem paid : List UInt8) (sx : CStealthAddress) (s₀ s : KeyWallet) :
    Prop where
  stored : Stored E C mk s
  locked : s.isLocked = true
  record : s.mapMasterKeys = s₀.mapMasterKeys
  placed : s.haveKey (E.hash160 paid) = false ∨ Placed E ephem paid sx s

variable {sx : CStealthAddress} {s : KeyWallet}

theorem receive_locked_eq {vchEphemPK sShared : List UInt8} {cpkE : CPubKey} {rest : CScript}
    (hl : s.isLocked = true) {r : Search}
    (h : receiveStealth G E C R vchEphemPK sShared cpkE sx rest s = some r) :
    r.wallet = { s with
      mapCryptedKeys := s.mapCryptedKeys.insert (cpkE.getID E) (cpkE,[])
      mapStealthKeyMeta :=
        s.mapStealthKeyMeta.insert (cpkE.getID E) ⟨.set vchEphemPK,.set sx.scanPubkey⟩ } := by
  have hu : s.fUseCrypto = true := by
    unfold CCryptoKeyStore.isLocked at hl
    rw [Bool.and_eq_true] at hl
    exact hl.1
  unfold receiveStealth CCryptoKeyStore.addCryptedKey at h
  rw [if_pos hl, set_crypted _ hu] at h
  cases h
  exact narration_wallet ..

theorem locked_searched (mk paid ephem : List UInt8) {tx : CTransaction} {s₀ : KeyWallet}
    (hpays : Pays G E ephem paid sx tx s₀) {sharedS : List UInt8}
    (hpaid : paidKey G ephem sx = some (sharedS,.set paid)) :
    Searched G E C R tx.vout s₀ fun s => LockedAt E C mk ephem paid sx s₀ s ∧
      s.stealthAddresses = s₀.stealthAddresses ∧
      ∀ id, s₀.haveKey id = true → s.haveKey id = true := by
  apply searched_with
  intro s vchEphemPK sShared cpkE y rest r hs _ heph hy hyp hdest hr
  have heq := receive_locked_eq G E C R hs.locked hr
  have hstored := stored_insert E C mk s r.wallet hs.stored (cpkE,[]) (Or.inl rfl)
    (by rw [heq]) (by rw [heq])
  refine ⟨hstored,?_,?_,?_⟩
  · rw [heq]
    exact hs.locked
  · rw [heq]
    exact hs.record
  · by_cases hid : cpkE.getID E = E.hash160 paid
    · -- nothing but the payment itself leads to this key
      obtain rfl := hpays.source vchEphemPK heph y hy sShared cpkE hyp hid
      obtain rfl := hpays.only y hy sShared cpkE hyp hdest
      rw [hpaid] at hyp
      cases hyp
      right
      unfold Placed
      rw [heq]
      dsimp only
      rw [hid, AList.lookup_insert, AList.lookup_insert]
      exact ⟨rfl,rfl⟩
    · have hother : ∀ {V : Type} (m : Dict Uint160 V) (v : V),
          (m.insert (cpkE.getID E) v).lookup (E.hash160 paid) = m.lookup (E.hash160 paid) := by
        intro V m v
        rw [lookup_insert_if, if_neg fun h => hid h.symm]
      have hplaced := hs.placed
      unfold Placed CCryptoKeyStore.haveKey at hplaced ⊢
      rw [heq]
      dsimp only
      rw [hother, hother]
      exact hplaced

theorem find_stealth {sxs : List CStealthAddress} (hsx : sx ∈ sxs)
    (hord : sxs.Pairwise fun a b => before a.scanPubkey b.scanPubkey = true) :
    findStealth sx.scanPubkey sxs = some sx := by
  induction sxs with
  | nil => cases hsx
  | cons y ys ih =>
    rw [List.pairwise_cons] at hord
    unfold findStealth at ih ⊢
    rw [List.find?_cons]
    rcases List.mem_cons.mp hsx with rfl | hmem
    · have hself : before sx.scanPubkey sx.scanPubkey = false := by
        unfold before
        exact decide_eq_false (Nat.lt_irrefl _)
      rw [hself]
      rfl
    · rw [hord.1 sx hmem, Bool.not_true, Bool.and_false]
      exact ih hmem hord.2

structure Expanding (mk ephem paid : List UInt8) (sx : CStealthAddress) (s : KeyWallet) : Prop where
  stored : Stored E C mk s
  master : s.vMasterKey = mk
  address : findStealth sx.scanPubkey s.stealthAddresses = some sx
  hint : s.mapStealthKeyMeta.lookup (E.hash160 paid) = some ⟨.set ephem,.set sx.scanPubkey⟩

theorem expanding_add_key {mk ephem paid : List UInt8} (hs : Expanding E C mk ephem paid sx s)
    (key : CKey) (fWritten : Bool) :
    Expanding E C mk ephem paid sx (addKey E C key fWritten s).2 := by
  rw [add_key_stored E C hs.stored hs.master key fWritten]
  exact ⟨stored_insert E C mk s _ hs.stored (sealedEntry E C mk key) (Or.inr ⟨key,rfl⟩) rfl rfl,
    hs.master,hs.address,hs.hint⟩

theorem expand_paid (hO : OpenSsl G E C) {d f e sharedS paid ephem mk : List UInt8}
    (hs : Sent G d f e sharedS paid) (hbig : 256^31 ≤ spendNumber G d f e) (hd : d.length = 32)
    (hf : f.length = 32) (he : secretToPublicKey G e = some ephem) (hscan : sx.scanSecret = d)
    (hsecret : sx.spendSecret = f) (hkey : secretToPublicKey G d = some sx.scanPubkey)
    (hx : Expanding E C mk ephem paid sx s) :
    ∃ key fWritten, key.getPubKey E = .set paid ∧
      expandKey G E C (.set paid) [] s = some (addKey E C key fWritten s).2 := by
  obtain ⟨key,hsp,hpub,hset,hpk⟩ := paid_secret hO hs hbig
  have hid : (CPubKey.set paid).getID E = E.hash160 paid :=
    congrArg E.hash160 (pubkey_of_secret hO.cyclic hpub)
  have hephem := pubkey_of_secret hO.cyclic he
  have hvalid := code_valid hO.cyclic hpub
  obtain ⟨_,hcode⟩ := (public_key_iff hO.cyclic e ephem).mp he
  have hspend := secret_spend_eq hO.cyclic hs
  rw [hcode, hsp] at hspend
  refine ⟨key,true,hpk,?_⟩
  unfold expandKey
  rw [if_neg (by decide), hid, hx.hint]
  dsimp only
  rw [pubkey_of_secret hO.cyclic hkey, hx.address, hephem]
  dsimp only
  rw [hscan, hsecret, if_neg (by unfold ecSecretSize; omega), hspend]
  dsimp only
  rw [hpub, Option.isNone_some, if_neg (by decide), hset]
  dsimp only
  rw [hpk, hvalid, Bool.not_true, if_neg (by decide), if_neg (not_not.mpr rfl)]

theorem expand_reaches (hO : OpenSsl G E C) (d f e sharedS paid ephem mk : List UInt8)
    (hs : Sent G d f e sharedS paid) (hbig : 256^31 ≤ spendNumber G d f e) (hd : d.length = 32)
    (hf : f.length = 32) (he : secretToPublicKey G e = some ephem) (sx : CStealthAddress)
    (hscan : sx.scanSecret = d) (hsecret : sx.spendSecret = f)
    (hkey : secretToPublicKey G d = some sx.scanPubkey) (xs : List (CPubKey × List UInt8))
    (s s' : KeyWallet) (hx : Expanding E C mk ephem paid sx s)
    (hin : (CPubKey.set paid,[]) ∈ xs ∨
      ∃ x, s.mapCryptedKeys.lookup (E.hash160 paid) = some x ∧ x.2 ≠ [])
    (h : expandKeys G E C xs s = some s') :
    Expanding E C mk ephem paid sx s' ∧
      ∃ x, s'.mapCryptedKeys.lookup (E.hash160 paid) = some x ∧ x.2 ≠ [] := by
  have hadded : ∀ (key : CKey) fWritten (s : KeyWallet), Expanding E C mk ephem paid sx s →
      (key.getPubKey E = .set paid ∨
        ∃ x, s.mapCryptedKeys.lookup (E.hash160 paid) = some x ∧ x.2 ≠ []) →
      ∃ x, (addKey E C key fWritten s).2.mapCryptedKeys.lookup (E.hash160 paid) = some x ∧
        x.2 ≠ [] := by
    intro key fWritten s hx hcase
    obtain ⟨k,_,hpub,_,_⟩ := paid_secret hO hs hbig
    rw [add_key_stored E C hx.stored hx.master key fWritten]
    dsimp only
    rw [lookup_insert_if]
    split
    · exact ⟨_,rfl,entry_ne_nil E C hO.cipher hx.stored.sized key⟩
    · rename_i hid
      rcases hcase with hpk | hold
      · exact absurd (by rw [hpk]; exact (congrArg E.hash160
          (pubkey_of_secret hO.cyclic hpub)).symm) hid
      · exact hold
  induction xs generalizing s with
  | nil =>
    cases h
    exact ⟨hx,hin.resolve_left (by intro hmem; cases hmem)⟩
  | cons x xs ih =>
    unfold expandKeys at h
    by_cases hpaid : x = (CPubKey.set paid,[])
    · subst hpaid
      obtain ⟨key,fWritten,hpk,heq⟩ := expand_paid G E C hO hs hbig hd hf
        he hscan hsecret hkey hx
      rw [heq] at h
      exact ih _ (expanding_add_key E C hx key fWritten)
        (Or.inr (hadded key fWritten s hx (Or.inl hpk))) h
    · have hrest : (CPubKey.set paid,[]) ∈ xs ∨
          ∃ x, s.mapCryptedKeys.lookup (E.hash160 paid) = some x ∧ x.2 ≠ [] := by
        rcases hin with hmem | hold
        · exact Or.inl ((List.mem_cons.mp hmem).resolve_left fun heq => hpaid heq.symm)
        · exact Or.inr hold
      rcases expand_key_cases G E C hO.order x.1 x.2 s with heq | ⟨key,_,_,heq⟩
      · rw [heq] at h
        exact ih s hx hrest h
      · rw [heq] at h
        refine ih _ (expanding_add_key E C hx key true) ?_ h
        rcases hrest with hmem | hold
        · exact Or.inl hmem
        · exact Or.inr (hadded key true s hx (Or.inr hold))

theorem store_takes (hO : OpenSsl G E C) (mk mk' : List UInt8) (s : KeyWallet)
    (hs : Stored E C mk s) (id : Uint160) (x : CPubKey × List UInt8)
    (hx : s.mapCryptedKeys.lookup id = some x) (k : CCryptoKeyStore)
    (h : s.toCCryptoKeyStore.unlock E C mk' = some (true,k)) :
    mk' = mk ∧ k = { s.toCCryptoKeyStore with vMasterKey := mk } := by
  unfold CCryptoKeyStore.unlock at h
  rw [set_crypted _ hs.crypted] at h
  dsimp only at h
  match hf : first leID s.mapCryptedKeys with
  | none =>
    rw [first_none leID _ hf id] at hx
    cases hx
  | some ⟨i,pub,sec⟩ =>
    rw [hf] at h
    dsimp only at h
    obtain ⟨hlook,_⟩ := first_some leID _ le_id_ordered i (pub,sec) hf
    cases hdec : decryptSecret C mk' sec (pub.getHash E) with
    | none =>
      rw [hdec] at h
      cases h
    | some q =>
      rw [hdec] at h
      dsimp only at h
      by_cases hq : q.length = 32
      · have hmk : mk' = mk := by
          unfold decryptSecret at hdec
          split at hdec
          · rename_i hlen
            rcases hs.entries i (pub,sec) hlook with hnil | ⟨key,hkey⟩
            · change sec = [] at hnil
              rw [hnil, hO.cipher.empty] at hdec
              cases hdec
            · obtain ⟨rfl,rfl⟩ := Prod.mk.inj hkey
              exact hO.cipher.keyed mk mk' _ key.vch q hs.sized hlen key.length hq hdec
          · cases hdec
        subst hmk
        rw [if_neg (not_not.mpr hq)] at h
        split at h
        · cases h
        · split at h
          · cases h
            exact ⟨rfl,rfl⟩
          · cases h
      · rw [if_pos hq] at h
        cases h

theorem decrypt_stealth_own (hO : OpenSsl G E C) {mk f : List UInt8}
    (hmk : mk.length = walletCryptoKeySize) (hf : f.length = 32) (hscan : sx.scanSecret.length = 32)
    (hspend : secretToPublicKey G f = some sx.spendPubkey)
    (hsecret : sx.spendSecret = C.encrypt mk (ivBytes (E.hash256 sx.spendPubkey)) f) :
    decryptStealth G E C mk sx = { sx with spendSecret := f } := by
  unfold decryptStealth decryptSecret
  rw [if_neg (by omega), if_pos hmk, hsecret, hO.cipher.decrypts mk _ f hmk]
  dsimp only
  rw [if_neg (not_not.mpr hf), if_neg (not_not.mpr hspend)]

theorem decrypt_stealth_scan (mk : List UInt8) (sx : CStealthAddress) :
    (decryptStealth G E C mk sx).scanPubkey = sx.scanPubkey := by
  unfold decryptStealth
  split
  · rfl
  · split
    · rfl
    · split
      · rfl
      · split
        · rfl
        · rfl

theorem find_decrypted (mk : List UInt8) (sx : CStealthAddress) (sxs : List CStealthAddress)
    (hsx : sx ∈ sxs) (hord : sxs.Pairwise fun a b => before a.scanPubkey b.scanPubkey = true) :
    findStealth sx.scanPubkey (sxs.map (decryptStealth G E C mk)) =
      some (decryptStealth G E C mk sx) := by
  have hmap : (sxs.map (decryptStealth G E C mk)).Pairwise
      fun a b => before a.scanPubkey b.scanPubkey = true := by
    apply List.pairwise_map.mpr
    apply hord.imp
    intro a b hab
    rw [decrypt_stealth_scan, decrypt_stealth_scan]
    exact hab
  have hfound := find_stealth (List.mem_map_of_mem hsx) hmap
  rw [decrypt_stealth_scan] at hfound
  exact hfound

/-- A wallet that is locked when it finds the payment can use its key after unlocking. -/
theorem reaches_locked (hO : OpenSsl G E C) {d f e sharedS paid ephem mk : List UInt8}
    (hs : Sent G d f e sharedS paid) (hbig : 256^31 ≤ spendNumber G d f e) (hd : d.length = 32)
    (hf : f.length = 32) (he : secretToPublicKey G e = some ephem) {tx : CTransaction}
    {pass : List UInt8} {rec : CMasterKey} (hseal : Sealed E C pass mk rec s)
    (hl : s.isLocked = true) (howns : Owns G E C mk d f sx s) (hpays : Pays G E ephem paid sx tx s)
    {s' : KeyWallet} (h : findStealthTransactions G E C R tx s = some s') {pass' : List UInt8}
    {s'' : KeyWallet} (hun : WalletKeys.unlock G E C pass' s' = some (true,s'')) :
    ∃ key, s''.getKey E C (E.hash160 paid) = some key ∧
      (key.getPubKey E).getID E = E.hash160 paid := by
  have hpub := spend_key hO.cyclic hs
  have hpaid := paid_key_found hO hs he hd howns.scanSecret
    howns.spendPubkey
  have hid : (CPubKey.set paid).getID E = E.hash160 paid :=
    congrArg E.hash160 (pubkey_of_secret hO.cyclic hpub)
  have hsearched := locked_searched G E C R mk paid ephem hpays hpaid
  have hstart : LockedAt E C mk ephem paid sx s s :=
    ⟨stored_of_sealed E C hseal,hl,rfl,Or.inl hpays.fresh⟩
  have hsought : Sought G E C R tx.vout s (LockedAt E C mk ephem paid sx s) ephem sharedS paid sx := by
    refine ⟨hpaid,pubkey_of_secret hO.cyclic hpub,hpays.only,hsearched,?_⟩
    intro s₁ rest r hs₁ hr
    rw [receive_locked_eq G E C R hs₁.locked hr, hid]
    unfold CCryptoKeyStore.haveKey
    rw [if_neg (by rw [hs₁.stored.crypted]; decide)]
    dsimp only
    rw [AList.lookup_insert]
    rfl
  obtain ⟨i,outE,rest,hi,hephem,hout⟩ := hpays.carried
  have hlt : i ∈ List.range tx.vout.length :=
    List.mem_range.mpr (List.getElem?_eq_some_iff.mp hi).1
  have hhave := tx_hit G E C R tx.vout s _ ephem paid sx hsought howns.mem hpays.fresh
    hi hephem hout hlt s hstart ⟨rfl,fun id h => h⟩ h
  obtain ⟨hend,haddr,_⟩ :=
    tx_rule G E C R _ hsearched s ⟨hstart,rfl,fun id h => h⟩ h
  obtain ⟨hlook,hhint⟩ : Placed E ephem paid sx s' := by
    refine hend.placed.resolve_left ?_
    rw [hhave]
    decide
  rw [unlock_locked G E C pass' hend.locked (hend.record.trans hseal.record)] at hun
  unfold unlockWith at hun
  cases hop : openMasterKey C pass' rec with
  | none =>
    rw [hop] at hun
    cases hun
  | some mk' =>
    rw [hop] at hun
    dsimp only at hun
    split at hun
    · cases hun
    · cases hun
    · rename_i k hk
      obtain ⟨rfl,rfl⟩ := store_takes G E C hO mk mk' s' hend.stored _ _ hlook k hk
      obtain ⟨s₁,hrun,hs₁⟩ := Option.map_eq_some_iff.mp hun
      cases hs₁
      unfold unlockStealthAddresses at hrun
      dsimp only at hrun
      -- in the set the address now has its secret in clear
      have hclear : sx.spendSecret = C.encrypt mk' (ivBytes (E.hash256 sx.spendPubkey)) f := by
        rw [howns.spendSecret, hl, if_pos rfl]
      have hdec := decrypt_stealth_own G E C hO hseal.sized hf
        (by rw [howns.scanSecret]; exact hd) howns.spendPubkey hclear
      have hfind := find_decrypted G E C mk' sx s'.stealthAddresses (by rw [haddr]; exact howns.mem)
        (by rw [haddr]; exact howns.ordered)
      rw [hdec] at hfind
      have hstart' : Expanding E C mk' ephem paid { sx with spendSecret := f } { s' with
          toCCryptoKeyStore := { s'.toCCryptoKeyStore with vMasterKey := mk' }
          stealthAddresses := s'.stealthAddresses.map (decryptStealth G E C mk') } :=
        ⟨⟨hend.stored.crypted,hseal.sized,hend.stored.entries,hend.stored.ids⟩,rfl,hfind,hhint⟩
      have hexpand := expand_reaches G E C hO d f e sharedS paid ephem mk' hs hbig hd hf he
        { sx with spendSecret := f } howns.scanSecret rfl howns.scanPubkey _ _ s'' hstart'
        (Or.inl ?_) hrun
      · obtain ⟨hx,x,hlook',hne⟩ := hexpand
        exact stored_key G E C hO hx.stored hx.master hlook' hne
      · exact List.mem_map.mpr ⟨⟨_,_⟩,(mem_in_order leID s'.mapCryptedKeys _ _).mpr hlook,rfl⟩

end Locked

section Main
variable {P : Type} (G : EcGroup P) (E : KeyEnv) (C : Cipher)

theorem payment_reaches (hO : OpenSsl G E C) {d f e sharedS paid ephem : List UInt8}
    (hs : Sent G d f e sharedS paid) (hbig : 256^31 ≤ spendNumber G d f e) (hd : d.length = 32)
    (hf : f.length = 32) (he : secretToPublicKey G e = some ephem) :
    Reaches G E C d f ephem paid := by
  intro R mk sx tx s hready howns hpays
  obtain ⟨s',h⟩ := tx_total G E C R hO.order tx.vout (List.range tx.vout.length) s
  refine ⟨s',h,?_⟩
  intro pass s'' hun
  by_cases hl : s.isLocked = true
  · rcases hready with hc | ⟨pass',rec,hc⟩
    · unfold CCryptoKeyStore.isLocked at hl
      rw [hc.plain, Bool.false_and] at hl
      cases hl
    · exact reaches_locked G E C R hO hs hbig hd hf he
        hc hl howns hpays h hun
  · rw [Bool.not_eq_true] at hl
    exact reaches_open G E C R hO hs hbig hd hf he hready hl howns
      hpays h hun

/-- The recipient always finds the payment; its secret is there exactly when its number has
32 bytes. -/
theorem stealth_payment_spendable (hO : OpenSsl G E C)
    (d f e scanPubkey spendPubkey sharedS paid : List UInt8) (hd : d.length = 32)
    (hf : f.length = 32) (hscan : secretToPublicKey G d = some scanPubkey)
    (hspend : secretToPublicKey G f = some spendPubkey)
    (hsend : stealthSecret G e scanPubkey spendPubkey = some (sharedS,paid)) :
    (∃ ephem, secretToPublicKey G e = some ephem ∧
      stealthSecret G d ephem spendPubkey = some (sharedS,paid)) ∧
    ((∃ ephem, Spendable G E C d f e spendPubkey sharedS paid ephem) ↔
      256^31 ≤ spendNumber G d f e) := by
  have hs := sent_of_sender hO.cyclic hscan hspend hsend
  have he : secretToPublicKey G e = some (code G (bin2bn e)) :=
    (public_key_iff hO.cyclic e _).mpr ⟨hs.ephem,rfl⟩
  have hagrees : stealthSecret G d (code G (bin2bn e)) spendPubkey = some (sharedS,paid) := by
    rw [← ((public_key_iff hO.cyclic f spendPubkey).mp hspend).2]
    exact recipient_agrees hO.cyclic hs
  refine ⟨⟨_,he,hagrees⟩,?_⟩
  constructor
  · intro ⟨ephem,h⟩
    obtain ⟨b,hb,_⟩ := h.spends
    by_contra hsmall
    rw [shared_to_spend_sent hO.order hs, if_neg hsmall] at hb
    cases hb
  · intro hbig
    have hsp := shared_to_spend_sent hO.order hs
    rw [if_pos hbig] at hsp
    exact ⟨_,he,hagrees,⟨_,hsp,(secret_spend_eq hO.cyclic hs).trans hsp,
      spend_key hO.cyclic hs⟩,
      payment_reaches G E C hO hs hbig hd hf he⟩

end Main

section Sample
open WalletOpen

def numberCurve (hash : List UInt8) : EcGroup ℕ where
  order := curveOrder
  bn2point n := some (n%256^32)
  point2bn p := if p = 0 then 0 else 2*256^32+p%256^32
  mulG n := n%curveOrder
  mul n p := n*p%curveOrder
  add p q := (p+q)%curveOrder
  sha256 _ := hash

def numberKeys : KeyEnv where
  hash160 b := BitVec.ofNat 160 (bin2bn b)
  hash256 b := BitVec.ofNat 256 (bin2bn b)
  publicKey vch fCompressed :=
    if fCompressed then code (numberCurve []) (bin2bn vch) else 4::(vch++List.replicate 32 0)

theorem number_code (hash : List UInt8) {k : ℕ} (hk : k%curveOrder ≠ 0) :
    code (numberCurve hash) k = bn2bin (2*256^32+k%curveOrder) := by
  have hlt : k%curveOrder < 256^32 := (Nat.mod_lt k (by decide)).trans (by decide)
  unfold code numberCurve
  dsimp only
  rw [if_neg hk, Nat.mod_eq_of_lt hlt]

theorem number_bytes {k : ℕ} (hk : k < 256^32) :
    (bn2bin (2*256^32+k)).length = 33 ∧ getLen (bn2bin (2*256^32+k)) = 33 := by
  have hlen : (bn2bin (2*256^32+k)).length = 33 :=
    (bytes_length (2*256^32+k) 32).mpr ⟨by omega,by omega⟩
  refine ⟨hlen,?_⟩
  have hval := bin_of_bn (2*256^32+k)
  generalize bn2bin (2*256^32+k) = b at hlen hval
  cases b with
  | nil => cases hlen
  | cons x xs =>
    have hxs : xs.length = 32 := Nat.succ.inj hlen
    have hlow := SignMagnitude.value_lt xs.reverse
    unfold bin2bn at hval
    rw [List.reverse_cons, SignMagnitude.value_append] at hval
    rw [List.length_reverse, hxs] at hval hlow
    have hx : x.toNat = 2 := by
      simp only [SignMagnitude.value] at hval
      omega
    have hx2 : x = 2 := UInt8.toNat.inj hx
    subst hx2
    rfl

theorem number_curve_cyclic (hash : List UInt8) : Cyclic (numberCurve hash) where
  same a b := Iff.rfl
  mul n k := (Nat.mul_mod_mod ..)
  add a b := (Nat.add_mod ..).symm
  infinity := by
    change (bn2bin 0).length ≠ 33
    decide
  sized k hk := by
    have hlt : k%curveOrder < 256^32 := (Nat.mod_lt k (by decide)).trans (by decide)
    have h := number_code hash hk
    unfold code at h
    rw [h]
    exact (number_bytes hlt).1
  headed k hk := by
    have hlt : k%curveOrder < 256^32 := (Nat.mod_lt k (by decide)).trans (by decide)
    have h := number_code hash hk
    unfold code at h
    rw [h]
    exact (number_bytes hlt).2
  decodes k hk := by
    have hlt : k%curveOrder < 256^32 := (Nat.mod_lt k (by decide)).trans (by decide)
    change k%curveOrder ≠ 0 at hk
    unfold numberCurve
    dsimp only
    rw [if_neg hk, Nat.mod_eq_of_lt hlt, Nat.mul_comm, Nat.mul_add_mod, Nat.mod_eq_of_lt hlt]

theorem key_number (key : CKey) : bin2bn key.vch%curveOrder ≠ 0 := by
  have h := key.checked
  unfold checkSecret at h
  simp only [Bool.and_eq_true, decide_eq_true_eq] at h
  have hlt : bin2bn key.vch < curveOrder := Nat.lt_succ_of_le h.2
  rw [Nat.mod_eq_of_lt hlt]
  exact h.1.2.ne'

theorem number_open_ssl (hash : List UInt8) : OpenSsl (numberCurve hash) numberKeys sampleCipher where
  cyclic := number_curve_cyclic hash
  order := rfl
  sized key := by
    have hlen := key.length
    have hk := key_number key
    unfold numberKeys
    dsimp only
    cases key.fCompressed with
    | true =>
      rw [if_pos rfl, if_pos rfl]
      have h33 : (code (numberCurve []) (bin2bn key.vch)).length = 33 :=
        (number_curve_cyclic []).sized _ hk
      exact ⟨h33.trans ((number_curve_cyclic []).headed _ hk).symm,h33⟩
    | false =>
      rw [if_neg (by decide), if_neg (by decide)]
      have h65 : (4::(key.vch++List.replicate 32 0) : List UInt8).length = 65 := by
        rw [List.length_cons, List.length_append, List.length_replicate, hlen]
      exact ⟨h65,h65⟩
  keys key := (public_key_iff (number_curve_cyclic hash) key.vch _).mpr ⟨key_number key,rfl⟩
  cipher := sample_cipher_lawful

theorem stealth_payment_spendable_sample :
    (∃ ephem, secretToPublicKey (numberCurve (List.replicate 32 1)) (sampleSecret 3) = some ephem ∧
      stealthSecret (numberCurve (List.replicate 32 1)) (sampleSecret 5) ephem
        (2::sampleSecret 1) =
        some (List.replicate 32 1,2::(List.replicate 31 1++[2]))) ∧
    ((∃ ephem, Spendable (numberCurve (List.replicate 32 1)) numberKeys sampleCipher
        (sampleSecret 5) (sampleSecret 1) (sampleSecret 3) (2::sampleSecret 1)
        (List.replicate 32 1) (2::(List.replicate 31 1++[2])) ephem) ↔
      256^31 ≤ spendNumber (numberCurve (List.replicate 32 1)) (sampleSecret 5) (sampleSecret 1)
        (sampleSecret 3)) :=
  stealth_payment_spendable (numberCurve (List.replicate 32 1)) numberKeys sampleCipher
    (number_open_ssl _) (sampleSecret 5) (sampleSecret 1) (sampleSecret 3) (2::sampleSecret 5)
    (2::sampleSecret 1) _ _ rfl rfl (by decide +kernel) (by decide +kernel) (by decide +kernel)

/-- The hash is 1 and the spend secret 1: the sum has one byte and is refused. -/
theorem small_secret_refused :
    secretToPublicKey (numberCurve (sampleSecret 1)) (sampleSecret 5) = some (2::sampleSecret 5) ∧
    secretToPublicKey (numberCurve (sampleSecret 1)) (sampleSecret 1) = some (2::sampleSecret 1) ∧
    stealthSecret (numberCurve (sampleSecret 1)) (sampleSecret 3) (2::sampleSecret 5)
        (2::sampleSecret 1) = some (sampleSecret 1,2::sampleSecret 2) ∧
      spendNumber (numberCurve (sampleSecret 1)) (sampleSecret 5) (sampleSecret 1)
        (sampleSecret 3) = 2 ∧
      ¬ ∃ ephem, Spendable (numberCurve (sampleSecret 1)) numberKeys sampleCipher (sampleSecret 5)
        (sampleSecret 1) (sampleSecret 3) (2::sampleSecret 1) (sampleSecret 1) (2::sampleSecret 2)
        ephem := by
  refine ⟨by decide +kernel,by decide +kernel,by decide +kernel,by decide +kernel,?_⟩
  intro ⟨ephem,h⟩
  have hnone : stealthSharedToSecretSpend (numberCurve (sampleSecret 1)) (sampleSecret 1)
      (sampleSecret 1) = none := by decide +kernel
  obtain ⟨b,hb,_⟩ := h.spends
  rw [hnone] at hb
  cases hb

end Sample

end SwippCore.StealthSpend
