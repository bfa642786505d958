import SwippCore.WalletReceipt

/-!
# Payments to stealth addresses

Sender and receiver compute the same key, and what is paid to it is found.
-/

set_option autoImplicit false

namespace SwippCore.StealthAgreement
open Key Stealth WalletUnlock

section Curve
variable {P : Type} (G : EcGroup P)

def code (k : ℕ) : List UInt8 := bn2bin (G.point2bn (G.mulG k))

/-- The curve is a cyclic group; a point other than infinity has a compressed code of
33 bytes, which gives it back. -/
structure Cyclic : Prop where
  same : ∀ a b, G.mulG a = G.mulG b ↔ a%G.order = b%G.order
  mul : ∀ n k, G.mul n (G.mulG k) = G.mulG (n*k)
  add : ∀ a b, G.add (G.mulG a) (G.mulG b) = G.mulG (a+b)
  infinity : (bn2bin (G.point2bn (G.mulG 0))).length ≠ ecCompressedSize
  sized : ∀ k, k%G.order ≠ 0 → (bn2bin (G.point2bn (G.mulG k))).length = ecCompressedSize
  headed : ∀ k, k%G.order ≠ 0 → getLen (bn2bin (G.point2bn (G.mulG k))) = ecCompressedSize
  decodes : ∀ k, k%G.order ≠ 0 → G.bn2point (G.point2bn (G.mulG k)) = some (G.mulG k)

variable {G}

section
variable (hG : Cyclic G)
include hG

theorem code_congr {a b : ℕ} (h : a%G.order = b%G.order) : code G a = code G b := by
  rw [code, code, (hG.same a b).mpr h]

theorem encode_code (k : ℕ) :
    encode G (G.mulG k) = if k%G.order = 0 then none else some (code G k) := by
  unfold encode sizedBin
  by_cases hk : k%G.order = 0
  · have h0 : G.mulG k = G.mulG 0 := (hG.same k 0).mpr (by rw [hk, Nat.zero_mod])
    rw [if_pos hk, h0, if_neg hG.infinity]
  · rw [if_neg hk, if_pos (hG.sized k hk)]
    rfl

theorem public_key_iff (secret b : List UInt8) :
    secretToPublicKey G secret = some b ↔
      bin2bn secret%G.order ≠ 0 ∧ code G (bin2bn secret) = b := by
  unfold secretToPublicKey
  rw [encode_code hG]
  by_cases hk : bin2bn secret%G.order = 0
  · rw [if_pos hk]
    constructor
    · intro h
      cases h
    · exact fun h => absurd hk h.1
  · rw [if_neg hk]
    constructor
    · exact fun h => ⟨hk,Option.some.inj h⟩
    · exact fun h => congrArg some h.2

theorem point_of_code {k : ℕ} (hk : k%G.order ≠ 0) :
    G.bn2point (bin2bn (code G k)) = some (G.mulG k) := by
  rw [code, bin_of_bn]
  exact hG.decodes k hk

theorem shared_secret_code (secret : List UInt8) {k : ℕ} (hk : k%G.order ≠ 0) :
    sharedSecret G secret (code G k) =
      if bin2bn secret*k%G.order = 0 then none
      else some (G.sha256 (code G (bin2bn secret*k))) := by
  unfold sharedSecret
  rw [point_of_code hG hk]
  change (encode G (G.mul (bin2bn secret) (G.mulG k))).bind _ = _
  rw [hG.mul, encode_code hG]
  split
  · rfl
  · rfl

theorem stealth_secret_code (secret : List UInt8) {q r : ℕ} (hq : q%G.order ≠ 0)
    (hr : r%G.order ≠ 0) :
    stealthSecret G secret (code G q) (code G r) =
      if bin2bn secret*q%G.order = 0 then none
      else
        if (r+bin2bn (G.sha256 (code G (bin2bn secret*q))))%G.order = 0 then none
        else some (G.sha256 (code G (bin2bn secret*q)),
          code G (r+bin2bn (G.sha256 (code G (bin2bn secret*q))))) := by
  unfold stealthSecret
  rw [shared_secret_code hG secret hq]
  split
  · rfl
  · rw [Option.bind_eq_bind, Option.bind_some, point_of_code hG hr, Option.bind_eq_bind,
      Option.bind_some, hG.add, encode_code hG]
    split
    · rfl
    · rfl

end

end Curve

section Number

theorem bytes_length (n w : ℕ) :
    (bn2bin n).length = w+1 ↔ 256^w ≤ n ∧ n < 256^(w+1) := by
  unfold bn2bin SignMagnitude.bytes
  rw [List.length_reverse, List.length_map, Nat.lt_iff_add_one_le]
  have hle := Nat.digits_length_le_iff (b := 256) (k := w+1) (by decide) n
  have hlt := Nat.lt_digits_length_iff (b := 256) (k := w) (by decide) n
  omega

variable {P : Type} (G : EcGroup P)

def spendNumber (d f e : List UInt8) : ℕ :=
  (bin2bn f+bin2bn (G.sha256 (code G (bin2bn e*bin2bn d))))%G.order

theorem shared_to_spend (hsmall : G.order ≤ 256^32) (hpos : 0 < G.order)
    (sharedS spendSecret : List UInt8) :
    stealthSharedToSecretSpend G sharedS spendSecret =
      if 256^31 ≤ (bin2bn spendSecret+bin2bn sharedS)%G.order then
        some (bn2bin ((bin2bn spendSecret+bin2bn sharedS)%G.order))
      else none := by
  have hlt := Nat.mod_lt (bin2bn spendSecret+bin2bn sharedS) hpos
  have hlen : _ = ecSecretSize ↔ _ := bytes_length ((bin2bn spendSecret+bin2bn sharedS)%G.order) 31
  unfold stealthSharedToSecretSpend sizedBin
  dsimp only
  generalize (bin2bn spendSecret+bin2bn sharedS)%G.order = n at hlt hlen
  by_cases hn : 256^31 ≤ n
  · have h0 : n ≠ 0 := by omega
    rw [if_neg h0, if_pos (hlen.mpr ⟨hn,by omega⟩), if_pos hn]
  · rw [if_neg hn]
    split
    · rfl
    · exact if_neg fun h => hn (hlen.mp h).1

end Number

section Payment
variable {P : Type} {G : EcGroup P}

structure Sent (G : EcGroup P) (d f e sharedS paid : List UInt8) : Prop where
  ephem : bin2bn e%G.order ≠ 0
  scan : bin2bn d%G.order ≠ 0
  spend : bin2bn f%G.order ≠ 0
  shared : bin2bn e*bin2bn d%G.order ≠ 0
  hash : sharedS = G.sha256 (code G (bin2bn e*bin2bn d))
  number : spendNumber G d f e ≠ 0
  key : paid = code G (spendNumber G d f e)

theorem sent_of_sender (hG : Cyclic G) {d f e scanPubkey spendPubkey sharedS paid : List UInt8}
    (hd : secretToPublicKey G d = some scanPubkey) (hf : secretToPublicKey G f = some spendPubkey)
    (hs : stealthSecret G e scanPubkey spendPubkey = some (sharedS,paid)) :
    Sent G d f e sharedS paid := by
  obtain ⟨hscan,rfl⟩ := (public_key_iff hG d scanPubkey).mp hd
  obtain ⟨hspend,rfl⟩ := (public_key_iff hG f spendPubkey).mp hf
  rw [stealth_secret_code hG e hscan hspend] at hs
  split at hs
  · cases hs
  · rename_i hshared
    split at hs
    · cases hs
    · rename_i hnumber
      have hephem : bin2bn e%G.order ≠ 0 := by
        intro he
        exact hshared (by rw [Nat.mul_mod, he, Nat.zero_mul, Nat.zero_mod])
      cases hs
      exact ⟨hephem,hscan,hspend,hshared,rfl,hnumber,code_congr hG (Nat.mod_mod ..).symm⟩

section
variable (hG : Cyclic G) {d f e sharedS paid : List UInt8} (hs : Sent G d f e sharedS paid)
include hG sharedS paid hs

theorem recipient_agrees :
    stealthSecret G d (code G (bin2bn e)) (code G (bin2bn f)) = some (sharedS,paid) := by
  have hpaid : paid = code G (bin2bn f+bin2bn (G.sha256 (code G (bin2bn e*bin2bn d)))) :=
    hs.key.trans (code_congr hG (Nat.mod_mod ..))
  have hn : (bin2bn f+bin2bn (G.sha256 (code G (bin2bn e*bin2bn d))))%G.order ≠ 0 := hs.number
  rw [stealth_secret_code hG d hs.ephem hs.spend, Nat.mul_comm (bin2bn d), if_neg hs.shared,
    if_neg hn, ← hpaid, ← hs.hash]

theorem secret_spend_eq :
    stealthSecretSpend G d (code G (bin2bn e)) f = stealthSharedToSecretSpend G sharedS f := by
  unfold stealthSecretSpend
  rw [shared_secret_code hG d hs.ephem, Nat.mul_comm (bin2bn d), if_neg hs.shared, hs.hash]
  rfl

theorem spend_key :
    secretToPublicKey G (bn2bin (spendNumber G d f e)) = some paid := by
  rw [public_key_iff hG, bin_of_bn, hs.key]
  have hmod : spendNumber G d f e%G.order = spendNumber G d f e := Nat.mod_mod ..
  exact ⟨by rw [hmod]; exact hs.number,rfl⟩

end

end Payment

end SwippCore.StealthAgreement

namespace SwippCore.StealthPayment
open Key Stealth Crypter CCryptoKeyStore WalletKeys WalletUnlock WalletReceipt
open StealthAgreement

section Statement
variable {P : Type} (G : EcGroup P) (E : KeyEnv) (C : Cipher)

structure OpenSsl : Prop where
  cyclic : Cyclic G
  order : G.order = curveOrder
  sized : E.Sized
  keys : ∀ key : CKey, secretToPublicKey G key.vch = some (E.publicKey key.vch true)
  cipher : C.Lawful

def Ready (mk : List UInt8) (s : KeyWallet) : Prop :=
  Clear E s ∨ ∃ pass r, Sealed E C pass mk r s

structure Owns (mk d f : List UInt8) (sx : CStealthAddress) (s : KeyWallet) : Prop where
  ordered : s.stealthAddresses.Pairwise fun a b => before a.scanPubkey b.scanPubkey = true
  mem : sx ∈ s.stealthAddresses
  scanPubkey : secretToPublicKey G d = some sx.scanPubkey
  spendPubkey : secretToPublicKey G f = some sx.spendPubkey
  scanSecret : sx.scanSecret = d
  spendSecret : sx.spendSecret =
    if s.isLocked then C.encrypt mk (ivBytes (E.hash256 sx.spendPubkey)) f else f

structure Pays (ephem paid : List UInt8) (sx : CStealthAddress) (tx : CTransaction)
    (s : KeyWallet) : Prop where
  carried : ∃ (i : ℕ) (outE : CTxOut) (rest : CScript), tx.vout[i]? = some outE ∧
    ephemeral outE.scriptPubKey = some (ephem,rest) ∧
    ∃ out ∈ tx.vout.eraseIdx i, keyDestination E out.scriptPubKey = some (E.hash160 paid)
  fresh : s.haveKey (E.hash160 paid) = false
  only : ∀ y ∈ s.stealthAddresses, ∀ sh p, paidKey G ephem y = some (sh,p) →
    (∃ out ∈ tx.vout, keyDestination E out.scriptPubKey = some (p.getID E)) → y = sx
  source : ∀ ephem' ∈ (tx.vout.filterMap fun out => ephemeral out.scriptPubKey).map Prod.fst,
    ∀ y ∈ s.stealthAddresses, ∀ sh p, paidKey G ephem' y = some (sh,p) →
      p.getID E = E.hash160 paid → ephem' = ephem

def Reaches (d f ephem paid : List UInt8) : Prop :=
  ∀ (R : Receipt) (mk : List UInt8) (sx : CStealthAddress) (tx : CTransaction) (s : KeyWallet),
    Ready E C mk s → Owns G E C mk d f sx s → Pays G E ephem paid sx tx s →
    ∃ s', findStealthTransactions G E C R tx s = some s' ∧
      ∀ pass s'', WalletKeys.unlock G E C pass s' = some (true,s'') →
        ∃ key, s''.getKey E C (E.hash160 paid) = some key ∧
          (key.getPubKey E).getID E = E.hash160 paid

structure Spendable (d f e spendPubkey sharedS paid ephem : List UInt8) : Prop where
  ephemPubkey : secretToPublicKey G e = some ephem
  agrees : stealthSecret G d ephem spendPubkey = some (sharedS,paid)
  spends : ∃ s, stealthSharedToSecretSpend G sharedS f = some s ∧
    stealthSecretSpend G d ephem f = some s ∧ secretToPublicKey G s = some paid
  reaches : Reaches G E C d f ephem paid

end Statement

section Search
variable {P : Type} (G : EcGroup P) (E : KeyEnv) (C : Cipher) (R : Receipt)

section
variable (hG : G.order = curveOrder)
include hG

theorem receive_total (vchEphemPK sShared : List UInt8)
    (cpkE : CPubKey) (sx : CStealthAddress) (rest : CScript) (s : KeyWallet) :
    ∃ r, receiveStealth G E C R vchEphemPK sShared cpkE sx rest s = some r := by
  unfold receiveStealth
  split
  · split
    · exact ⟨_,rfl⟩
    · exact ⟨_,rfl⟩
  · split
    · exact ⟨_,rfl⟩
    · cases hsp : stealthSharedToSecretSpend G sShared sx.spendSecret with
      | none => exact ⟨_,rfl⟩
      | some sSpendR =>
        have hset : CKey.set sSpendR true =
            some ⟨sSpendR,true,spend_secret_checked G hG hsp⟩ :=
          dif_pos _
        dsimp only
        rw [hset]
        dsimp only
        split
        · exact ⟨_,rfl⟩
        · split
          · exact ⟨_,rfl⟩
          · split
            · exact ⟨_,rfl⟩
            · exact ⟨_,rfl⟩

theorem addresses_total (vchEphemPK : List UInt8) (id : Uint160)
    (sxs : List CStealthAddress) (rest : CScript) (s : KeyWallet) :
    ∃ r, searchAddresses G E C R vchEphemPK id sxs rest s = some r := by
  induction sxs generalizing rest s with
  | nil => exact ⟨_,rfl⟩
  | cons sx sxs ih =>
    unfold searchAddresses
    cases paidKey G vchEphemPK sx with
    | none => exact ih rest s
    | some p =>
      obtain ⟨sShared,cpkE⟩ := p
      dsimp only
      split
      · exact ih rest s
      · obtain ⟨r,hr⟩ := receive_total G E C R hG vchEphemPK sShared cpkE sx rest s
        rw [hr, Option.bind_some]
        split
        · exact ⟨r,rfl⟩
        · exact ih r.rest r.wallet

theorem outputs_total (vchEphemPK : List UInt8) (outs : List CTxOut)
    (rest : CScript) (s : KeyWallet) :
    ∃ s', searchOutputs G E C R vchEphemPK outs rest s = some s' := by
  induction outs generalizing rest s with
  | nil => exact ⟨_,rfl⟩
  | cons out outs ih =>
    unfold searchOutputs
    cases keyDestination E out.scriptPubKey with
    | none => exact ih rest s
    | some id =>
      dsimp only
      split
      · exact ih rest s
      · obtain ⟨r,hr⟩ := addresses_total G E C R hG vchEphemPK id s.stealthAddresses rest s
        rw [hr, Option.bind_some]
        split
        · exact ⟨r.wallet,rfl⟩
        · exact ih r.rest r.wallet

theorem tx_total (vout : List CTxOut) (is : List ℕ) (s : KeyWallet) :
    ∃ s', searchTx G E C R vout is s = some s' := by
  induction is generalizing s with
  | nil => exact ⟨s,rfl⟩
  | cons i is ih =>
    unfold searchTx
    cases (vout[i]?).bind fun txout => ephemeral txout.scriptPubKey with
    | none => exact ih s
    | some x =>
      obtain ⟨vchEphemPK,rest⟩ := x
      dsimp only
      obtain ⟨s₁,h₁⟩ := outputs_total G E C R hG vchEphemPK (vout.eraseIdx i) rest s
      rw [h₁]
      exact ih s₁

end

theorem receive_keeps {vchEphemPK sShared : List UInt8} {cpkE : CPubKey} {sx : CStealthAddress}
    {rest : CScript} {s : KeyWallet} {r : Search}
    (h : receiveStealth G E C R vchEphemPK sShared cpkE sx rest s = some r) :
    r.wallet.stealthAddresses = s.stealthAddresses ∧
      ∀ id, s.haveKey id = true → r.wallet.haveKey id = true := by
  rcases receive_cases G E C R h with
    heq | ⟨hl,k,m,hk,heq⟩ | ⟨_,key,fWritten,heq⟩
  · rw [heq]
    exact ⟨rfl,fun id h => h⟩
  · have hu : s.fUseCrypto = true := by
      unfold CCryptoKeyStore.isLocked at hl
      rw [Bool.and_eq_true] at hl
      exact hl.1
    unfold CCryptoKeyStore.addCryptedKey at hk
    rw [set_crypted _ hu] at hk
    cases hk
    rw [heq]
    refine ⟨rfl,?_⟩
    intro id hid
    unfold CCryptoKeyStore.haveKey at hid ⊢
    rw [hu] at hid ⊢
    exact insert_kept _ id _ hid
  · rw [heq]
    exact ⟨add_key_addresses E C key fWritten s,
      fun id hid => add_key_kept E C key fWritten hid⟩

theorem searched_with (vout : List CTxOut) (s₀ : KeyWallet) (I : KeyWallet → Prop)
    (hI : ∀ s vchEphemPK sShared cpkE sx rest r, I s → s.stealthAddresses = s₀.stealthAddresses →
      vchEphemPK ∈ (vout.filterMap fun out => ephemeral out.scriptPubKey).map Prod.fst →
      sx ∈ s₀.stealthAddresses → paidKey G vchEphemPK sx = some (sShared,cpkE) →
      (∃ out ∈ vout, keyDestination E out.scriptPubKey = some (cpkE.getID E)) →
      receiveStealth G E C R vchEphemPK sShared cpkE sx rest s = some r → I r.wallet) :
    Searched G E C R vout s₀ fun s => I s ∧ s.stealthAddresses = s₀.stealthAddresses ∧
      ∀ id, s₀.haveKey id = true → s.haveKey id = true where
  stealth s h := h.2.1
  kept s h := h.2.2
  receive s vchEphemPK sShared cpkE sx rest r hJ heph hsx hpaid hdest _ hr := by
    obtain ⟨hi,haddr,hkept⟩ := hJ
    obtain ⟨haddr',hkept'⟩ := receive_keeps G E C R hr
    exact ⟨hI s vchEphemPK sShared cpkE sx rest r hi haddr heph hsx hpaid hdest hr,
      haddr'.trans haddr,fun id h => hkept' id (hkept id h)⟩

theorem searched_have (vout : List CTxOut) (s₀ : KeyWallet) (id : Uint160) :
    Searched G E C R vout s₀ fun s => s.haveKey id = true ∧
      s.stealthAddresses = s₀.stealthAddresses ∧
      ∀ id, s₀.haveKey id = true → s.haveKey id = true :=
  searched_with G E C R vout s₀ _ fun _ _ _ _ _ _ _ h _ _ _ _ _ hr =>
    (receive_keeps G E C R hr).2 id h

end Search

section Progress
variable {P : Type} (G : EcGroup P) (E : KeyEnv) (C : Cipher) (R : Receipt)
variable (vout : List CTxOut) (s₀ : KeyWallet) (I : KeyWallet → Prop)

/-- The payment that the search is to find, and that receiving it in a wallet with `I` gives
its key. -/
structure Sought (ephem sharedS paid : List UInt8) (sx : CStealthAddress) : Prop where
  paidKey : WalletKeys.paidKey G ephem sx = some (sharedS,.set paid)
  vch : (CPubKey.set paid).vch = paid
  only : ∀ y ∈ s₀.stealthAddresses, ∀ sh p, WalletKeys.paidKey G ephem y = some (sh,p) →
    (∃ out ∈ vout, keyDestination E out.scriptPubKey = some (p.getID E)) → y = sx
  searched : Searched G E C R vout s₀ fun s => I s ∧
    s.stealthAddresses = s₀.stealthAddresses ∧ ∀ id, s₀.haveKey id = true → s.haveKey id = true
  gives : ∀ s rest r, I s → receiveStealth G E C R ephem sharedS (.set paid) sx rest s = some r →
    r.wallet.haveKey (E.hash160 paid) = true

variable (ephem : List UInt8) {sharedS : List UInt8} (paid : List UInt8) (sx : CStealthAddress)

section
variable (h : Sought G E C R vout s₀ I ephem sharedS paid sx)
include h

theorem addresses_miss {id : Uint160}
    (hid : ∃ out ∈ vout, keyDestination E out.scriptPubKey = some id) (hne : id ≠ E.hash160 paid)
    {sxs : List CStealthAddress} (hsub : ∀ y ∈ sxs, y ∈ s₀.stealthAddresses) (rest : CScript)
    (s : KeyWallet) : searchAddresses G E C R ephem id sxs rest s = some ⟨false,rest,s⟩ := by
  induction sxs with
  | nil => rfl
  | cons y ys ih =>
    have hrest := ih fun z hz => hsub z (List.mem_cons_of_mem y hz)
    unfold searchAddresses
    cases hp : WalletKeys.paidKey G ephem y with
    | none => exact hrest
    | some p =>
      obtain ⟨sh,cpkE⟩ := p
      dsimp only
      rw [if_pos]
      · exact hrest
      · intro hmatch
        apply hne
        have hy := h.only y (hsub y List.mem_cons_self) sh cpkE hp (by rw [hmatch]; exact hid)
        rw [hy, h.paidKey] at hp
        cases hp
        rw [← hmatch]
        exact congrArg E.hash160 h.vch

theorem addresses_hit
    (heph : ephem ∈ (vout.filterMap fun out => ephemeral out.scriptPubKey).map Prod.fst)
    (hid : ∃ out ∈ vout, keyDestination E out.scriptPubKey = some (E.hash160 paid))
    {sxs : List CStealthAddress} (hsub : ∀ y ∈ sxs, y ∈ s₀.stealthAddresses) (hsx : sx ∈ sxs)
    (hnew : s₀.haveKey (E.hash160 paid) = false) {rest : CScript} {s : KeyWallet} (hI : I s)
    (hJ : s.stealthAddresses = s₀.stealthAddresses ∧
      ∀ id, s₀.haveKey id = true → s.haveKey id = true) {r : Search}
    (hr : searchAddresses G E C R ephem (E.hash160 paid) sxs rest s = some r) :
    r.wallet.haveKey (E.hash160 paid) = true := by
  induction sxs with
  | nil => cases hsx
  | cons y ys ih =>
    have hrest := fun z hz => hsub z (List.mem_cons_of_mem y hz)
    have hid' : E.hash160 paid = (CPubKey.set paid).getID E := (congrArg E.hash160 h.vch).symm
    unfold searchAddresses at hr
    by_cases hy : y = sx
    · subst hy
      rw [h.paidKey] at hr
      dsimp only at hr
      rw [if_neg (not_not.mpr hid'.symm)] at hr
      obtain ⟨r₁,hr₁,hr⟩ := Option.bind_eq_some_iff.mp hr
      have hhave := h.gives s rest r₁ hI hr₁
      split at hr
      · cases hr
        exact hhave
      · have hkeeps := receive_keeps G E C R hr₁
        exact (addresses_rule G E C R _ (searched_have G E C R vout s₀ (E.hash160 paid))
          heph hid hnew hrest r₁.rest r₁.wallet
          ⟨hhave,hkeeps.1.trans hJ.1,fun i hi => hkeeps.2 i (hJ.2 i hi)⟩ hr).1
    · have hmem : sx ∈ ys := (List.mem_cons.mp hsx).resolve_left fun heq => hy heq.symm
      cases hp : WalletKeys.paidKey G ephem y with
      | none =>
        rw [hp] at hr
        exact ih hrest hmem hr
      | some p =>
        obtain ⟨sh,cpkE⟩ := p
        rw [hp] at hr
        dsimp only at hr
        rw [if_pos fun hmatch => hy (h.only y (hsub y List.mem_cons_self) sh cpkE hp
          (by rw [hmatch]; exact hid))] at hr
        exact ih hrest hmem hr

theorem outputs_hit
    (heph : ephem ∈ (vout.filterMap fun out => ephemeral out.scriptPubKey).map Prod.fst)
    (hsx : sx ∈ s₀.stealthAddresses) (hnew : s₀.haveKey (E.hash160 paid) = false)
    {outs : List CTxOut} (hsub : ∀ out ∈ outs, out ∈ vout)
    (hout : ∃ out ∈ outs, keyDestination E out.scriptPubKey = some (E.hash160 paid))
    {rest : CScript} {s : KeyWallet} (hI : I s)
    (hJ : s.stealthAddresses = s₀.stealthAddresses ∧
      ∀ id, s₀.haveKey id = true → s.haveKey id = true) {s' : KeyWallet}
    (hs' : searchOutputs G E C R ephem outs rest s = some s') :
    s'.haveKey (E.hash160 paid) = true := by
  have hkept := searched_have G E C R vout s₀ (E.hash160 paid)
  induction outs with
  | nil =>
    obtain ⟨out,hmem,_⟩ := hout
    cases hmem
  | cons out outs ih =>
    have hrest := fun y hy => hsub y (List.mem_cons_of_mem out hy)
    unfold searchOutputs at hs'
    by_cases hd : keyDestination E out.scriptPubKey = some (E.hash160 paid)
    · -- from here on the key is there
      have hid : ∃ out ∈ vout, keyDestination E out.scriptPubKey = some (E.hash160 paid) :=
        ⟨out,hsub out List.mem_cons_self,hd⟩
      rw [hd] at hs'
      dsimp only at hs'
      split at hs'
      · rename_i hhave
        exact (outputs_rule G E C R _ hkept heph hrest rest s ⟨hhave,hJ⟩
          hs').1
      · obtain ⟨r,hr,hs'⟩ := Option.bind_eq_some_iff.mp hs'
        rw [hJ.1] at hr
        have hhave := addresses_hit G E C R vout s₀ I ephem paid sx h heph hid
          (fun y hy => hy) hsx hnew hI hJ hr
        have hJr := (addresses_rule G E C R _ h.searched heph hid hnew
          (fun y hy => hy) rest s ⟨hI,hJ⟩ hr).2
        split at hs'
        · cases hs'
          exact hhave
        · exact (outputs_rule G E C R _ hkept heph hrest r.rest r.wallet
            ⟨hhave,hJr⟩ hs').1
    · have htail : ∃ y ∈ outs, keyDestination E y.scriptPubKey = some (E.hash160 paid) := by
        obtain ⟨y,hy,hdy⟩ := hout
        rcases List.mem_cons.mp hy with rfl | hy
        · exact absurd hdy hd
        · exact ⟨y,hy,hdy⟩
      cases hdest : keyDestination E out.scriptPubKey with
      | none =>
        rw [hdest] at hs'
        exact ih hrest htail hs'
      | some id =>
        rw [hdest] at hs' hd
        dsimp only at hs'
        split at hs'
        · exact ih hrest htail hs'
        · rw [hJ.1, addresses_miss G E C R vout s₀ I ephem paid sx h
            ⟨out,hsub out List.mem_cons_self,hdest⟩ (fun heq => hd (congrArg some heq))
            (fun y hy => hy) rest s] at hs'
          exact ih hrest htail hs'

theorem tx_hit (hsx : sx ∈ s₀.stealthAddresses)
    (hnew : s₀.haveKey (E.hash160 paid) = false) {i : ℕ} {outE : CTxOut} {rest : CScript}
    (hi : vout[i]? = some outE) (he : ephemeral outE.scriptPubKey = some (ephem,rest))
    (hout : ∃ out ∈ vout.eraseIdx i, keyDestination E out.scriptPubKey = some (E.hash160 paid))
    {is : List ℕ} (his : i ∈ is) (s : KeyWallet) (hI : I s)
    (hJ : s.stealthAddresses = s₀.stealthAddresses ∧
      ∀ id, s₀.haveKey id = true → s.haveKey id = true) {s' : KeyWallet}
    (hs' : searchTx G E C R vout is s = some s') :
    s'.haveKey (E.hash160 paid) = true := by
  have hcarried : ∀ (j : ℕ) x y, (vout[j]?).bind (fun txout => ephemeral txout.scriptPubKey) = some (x,y) →
      x ∈ (vout.filterMap fun out => ephemeral out.scriptPubKey).map Prod.fst := by
    intro j x y hx
    obtain ⟨out,hout,hx⟩ := Option.bind_eq_some_iff.mp hx
    exact List.mem_map.mpr
      ⟨(x,y),List.mem_filterMap.mpr ⟨out,List.mem_of_getElem? hout,hx⟩,rfl⟩
  have heph : (vout[i]?).bind (fun txout => ephemeral txout.scriptPubKey) = some (ephem,rest) := by
    rw [hi, Option.bind_some, he]
  induction is generalizing s with
  | nil => cases his
  | cons j is ih =>
    unfold searchTx at hs'
    by_cases hj : j = i
    · subst hj
      rw [heph] at hs'
      obtain ⟨s₁,h₁,hs'⟩ := Option.bind_eq_some_iff.mp hs'
      have hmem := hcarried j ephem rest heph
      have hsub : ∀ out ∈ vout.eraseIdx j, out ∈ vout := fun y hy => List.mem_of_mem_eraseIdx hy
      have hhave := outputs_hit G E C R vout s₀ I ephem paid sx h hmem hsx hnew
        hsub hout hI hJ h₁
      have hJ₁ := (outputs_rule G E C R _ h.searched hmem hsub rest s
        ⟨hI,hJ⟩ h₁).2
      exact (tx_rule G E C R _ (searched_have G E C R vout s₀ (E.hash160 paid)) s₁
        ⟨hhave,hJ₁⟩ hs').1
    · have his : i ∈ is := (List.mem_cons.mp his).resolve_left fun heq => hj heq.symm
      cases hx : (vout[j]?).bind fun txout => ephemeral txout.scriptPubKey with
      | none =>
        rw [hx] at hs'
        exact ih his s hI hJ hs'
      | some x =>
        obtain ⟨ephem',rest'⟩ := x
        rw [hx] at hs'
        obtain ⟨s₁,h₁,hs'⟩ := Option.bind_eq_some_iff.mp hs'
        obtain ⟨hI₁,hJ₁⟩ := outputs_rule G E C R _ h.searched
          (hcarried j ephem' rest' hx)
          (fun y hy => List.mem_of_mem_eraseIdx hy) rest' s ⟨hI,hJ⟩ h₁
        exact ih his s₁ hI₁ hJ₁ hs'

end

end Progress

end SwippCore.StealthPayment
