import SwippCore.PassphraseRuns
import SwippCore.WalletReceipt

/-!
# Encrypting and changing the passphrase, all or nothing

In a run whose steps meet their conditions a wallet is in clear, without a master key, or has
all its keys under one. From there both functions succeed or change nothing that matters.
-/

set_option autoImplicit false

namespace SwippCore.WalletFile
open FinMap Key Stealth Crypter CCryptoKeyStore WalletKeys WalletUnlock

section Invariant
variable (E : KeyEnv) (C : Cipher)

def Inv (s : FileWallet) : Prop :=
  (Plain E s ∧ NoRecords s) ∨ ∃ pass mk id r, Keyed E C pass mk id r s ∧ Filled s

structure SameKeys (s s' : FileWallet) : Prop where
  store : s'.toCCryptoKeyStore = s.toCCryptoKeyStore
  records : s'.mapMasterKeys = s.mapMasterKeys
  file : ∃ recs, s'.file = { s.file with sxAddr := recs }

variable {s : FileWallet}

theorem plain_same_keys {s' : FileWallet} (h : Plain E s) (hsame : SameKeys s s') : Plain E s' := by
  obtain ⟨recs,hfile⟩ := hsame.file
  have hkeys : s'.mapKeys = s.mapKeys := congrArg CCryptoKeyStore.mapKeys hsame.store
  have hcrypted : s'.mapCryptedKeys = s.mapCryptedKeys :=
    congrArg CCryptoKeyStore.mapCryptedKeys hsame.store
  refine ⟨?_,?_,?_,?_,?_,?_⟩
  · rw [hsame.store]
    exact h.plain
  · rw [hsame.store]
    exact h.master
  · rw [hcrypted]
    exact h.crypted
  · rw [hfile]
    exact h.fileCrypted
  · rw [hkeys]
    exact h.ids
  · rw [hfile, hkeys]
    exact h.fileKeys

theorem inv_same_keys {s' : FileWallet} (h : Inv E C s) (hsame : SameKeys s s') : Inv E C s' := by
  obtain ⟨recs,hfile⟩ := hsame.file
  have hcrypted : s'.mapCryptedKeys = s.mapCryptedKeys :=
    congrArg CCryptoKeyStore.mapCryptedKeys hsame.store
  rcases h with ⟨hplain,hrec⟩ | ⟨pass,mk,id,r,hkeyed,hfill⟩
  · refine Or.inl ⟨plain_same_keys E hplain hsame,?_,?_⟩
    · rw [hsame.records]
      exact hrec.memory
    · rw [hfile]
      exact hrec.file
  · refine Or.inr ⟨pass,mk,id,r,⟨?_,hkeyed.sized,hkeyed.made,?_,?_,?_,?_,?_⟩,?_,?_⟩
    · rw [hsame.store]
      exact hkeyed.store
    · rw [hsame.records]
      exact hkeyed.record
    · rw [hfile]
      exact hkeyed.fileRecord
    · rw [hfile]
      exact hkeyed.fileEntries
    · rw [hfile]
      exact hkeyed.fileFront
    · rw [hfile]
      exact hkeyed.fileKeys
    · rw [hcrypted]
      exact hfill.memory
    · rw [hfile]
      exact hfill.file

variable (o : Outcomes)

theorem write_address_spec (sx : CStealthAddress) (d : WalletDB) :
    ∃ recs, (writeStealthAddress o sx d).2 = { d with sxAddr := recs } ∧
      ∀ k, recs.lookup k =
        if o.written (.sxAddr sx.scanPubkey) = true ∧ k = sx.scanPubkey then some sx else d.sxAddr.lookup k := by
  unfold writeStealthAddress
  split
  · rename_i hw
    refine ⟨_,rfl,fun k => ?_⟩
    rw [lookup_insert_if]
    split
    · rename_i hk
      rw [if_pos ⟨hw,hk⟩]
    · rename_i hk
      rw [if_neg fun h => hk h.2]
  · rename_i hw
    exact ⟨d.sxAddr,rfl,fun k => by rw [if_neg fun h => hw h.1]⟩

theorem add_stealth_same (sxAddr : CStealthAddress) (s : FileWallet) :
    SameKeys s (addStealthAddress E C o sxAddr s).2 := by
  unfold addStealthAddress
  dsimp only
  split
  · exact ⟨rfl,rfl,(write_address_spec o _ s.file).imp fun _ => And.left⟩
  · split
    · exact ⟨rfl,rfl,s.file.sxAddr,rfl⟩
    · split
      · exact ⟨rfl,rfl,(write_address_spec o _ s.file).imp fun _ => And.left⟩
      · split
        · exact ⟨rfl,rfl,s.file.sxAddr,rfl⟩
        · exact ⟨rfl,rfl,(write_address_spec o _ s.file).imp fun _ => And.left⟩

theorem update_stealth_same (scanPubkey spendPubkey : List UInt8) (fSameLabel addIfNotExist : Bool)
    (s : FileWallet) :
    SameKeys s (updateStealthAddress o scanPubkey spendPubkey fSameLabel addIfNotExist s).2 := by
  unfold updateStealthAddress
  split
  · split
    · exact ⟨rfl,rfl,(write_address_spec o _ s.file).imp fun _ => And.left⟩
    · exact ⟨rfl,rfl,s.file.sxAddr,rfl⟩
  · split
    · exact ⟨rfl,rfl,s.file.sxAddr,rfl⟩
    · split
      · exact ⟨rfl,rfl,s.file.sxAddr,rfl⟩
      · exact ⟨rfl,rfl,(write_address_spec o _ s.file).imp fun _ => And.left⟩

theorem plain_addresses (h : Plain E s) (sxs : Dict (List UInt8) CStealthAddress) :
    Plain E { s with stealthAddresses := sxs } :=
  ⟨h.plain,h.master,h.crypted,h.fileCrypted,h.ids,h.fileKeys⟩

theorem plain_open (h : s.fUseCrypto = false) : s.isLocked = false := by
  unfold CCryptoKeyStore.isLocked
  rw [h, Bool.false_and]

theorem load_plain (h : Plain E s) :
    ∃ s₀, loadWallet E s.file = some s₀ ∧ Plain E s₀ ∧ (NoRecords s → NoRecords s₀) := by
  have hckey := entries_empty s.file.ckey h.fileCrypted
  have hkeys : ∀ id key, (loadKeys E s.file.key).lookup id = some key →
      s.file.key.lookup (key.getPubKey E) = some key ∧ id = (key.getPubKey E).getID E := by
    intro id key hkey
    obtain ⟨pub,_,hpub,rfl,hid⟩ := read_all_cases _ _ _ _ hkey
    have hsame := (h.fileKeys pub key hpub).1
    rw [hsame]
    exact ⟨hpub,hid⟩
  unfold loadWallet
  rw [hckey]
  refine ⟨_,rfl,⟨rfl,rfl,?_,h.fileCrypted,fun id key hkey => (hkeys id key hkey).2,?_⟩,
    fun hrec => ⟨hrec.file,hrec.file⟩⟩
  · intro id
    cases hx : (loadCryptedKeys E s.file.ckey).lookup id with
    | none => rfl
    | some x =>
      obtain ⟨pub,c,hc,_⟩ := read_all_cases _ _ _ _ hx
      rw [h.fileCrypted pub] at hc
      cases hc
  · intro pub key hkey
    obtain ⟨hpub,old,hold,holdpub⟩ := h.fileKeys pub key hkey
    refine ⟨hpub,?_⟩
    obtain ⟨key',hkey'⟩ := read_all_some lePub s.file.key (fun pub => pub.getID E) (fun _ k => k) hkey
    refine ⟨key',hkey',?_⟩
    -- the key that was read last under this id is the one in memory
    obtain ⟨hfile,hid⟩ := hkeys _ key' hkey'
    obtain ⟨_,old',hold',hpub'⟩ := h.fileKeys _ key' hfile
    rw [← hid, hold] at hold'
    rw [← hpub', ← Option.some.inj hold']
    exact holdpub

end Invariant

section Steps
variable {P : Type} (G : EcGroup P) (E : KeyEnv) (C : Cipher)

def EventOk : Event → FileWallet → Prop
  | .addKey key _, s => s.fUseCrypto = false → ownID E key s
  | .receive cpkE _ o, s => ReceiveOk E o cpkE s
  | .lock _, s => s.fUseCrypto = true ∨ s.mapKeys.entries.isEmpty = false
  | .encrypt pass e, s => EncryptOk E C pass e s
  | .change old new c, s => ChangeOk E C old new c s
  | _, _ => True

def Atomic : Event → FileWallet → Option Bool → FileWallet → Prop
  | .encrypt pass _, s, b, s' => EncryptAtomic G E C pass s b s'
  | .change _ new _, s, b, s' => ∀ f, b = some f → ChangeAtomic G E C new s f s'
  | _, _, _, _ => True

variable {s : FileWallet}

theorem encrypt_step (hG : G.order = curveOrder) (hE : E.Sized) (hC : C.Lawful) (hown : OwnKey C)
    {pass : List UInt8} {e : Encrypting} {s' : FileWallet} {b : Option Bool} (h : Inv E C s)
    (hok : EncryptOk E C pass e s) (hstep : encryptWallet G E C pass e s = some (b,s')) :
    EncryptAtomic G E C pass s b s' ∧ Inv E C s' := by
  rcases h with ⟨hplain,hrec⟩ | ⟨pass',mk,id,r,hkeyed,hfill⟩
  · rcases encrypt_wallet_cases G E C hstep with ⟨rfl,rfl⟩ |
      ⟨x,hx,_,henc,⟨hbegin,_,_⟩ | ⟨_,hcommit,s₁,hs₁,hrenew⟩⟩
    · exact ⟨⟨fun _ => ⟨rfl,fun _ => can_encrypt G E C hG hE hC hown s' hplain hrec⟩,
        fun hb => by cases hb⟩,Or.inl ⟨hplain,hrec⟩⟩
    · rcases hok with hc | hset | hnot | ⟨hok,_⟩
      · exact absurd (hplain.plain.symm.trans hc) (by decide)
      · exact absurd (hset.symm.trans hx) (by simp)
      · exact absurd (hnot.symm.trans henc) (by decide)
      · exact absurd (hbegin.symm.trans hok) (by decide)
    · have hcond : e.o.written (.mkey (s.nMasterKeyMaxID+1)) = true ∧
          (∀ pub, (s.file.key.lookup pub).isSome = true → e.o.erased (.key pub) = true) ∧
          Fills E C pass e s := by
        rcases hok with hc | hset | hnot | ⟨_,hok⟩
        · exact absurd (hplain.plain.symm.trans hc) (by decide)
        · exact absurd (hset.symm.trans hx) (by simp)
        · exact absurd (hnot.symm.trans henc) (by decide)
        · exact hok hcommit
      obtain ⟨hwritten,herased,hfills⟩ := hcond
      have hdone := commit_keyed E C hC pass e x s s₁ hplain hrec hx hwritten herased hs₁
      obtain ⟨hk,hf,hb⟩ := renew_keyed G E C hG hE hC hdone hx hfills hrenew
      exact ⟨⟨fun hfalse => absurd hfalse hb,fun _ => keyed_opened G E C hG hE hC hown hk hf⟩,
        Or.inr ⟨pass,e.vMasterKey,_,_,hk,hf⟩⟩
  · unfold encryptWallet at hstep
    rw [if_pos hkeyed.store.crypted] at hstep
    obtain ⟨rfl,rfl⟩ := Prod.mk.inj (Option.some.inj hstep)
    refine ⟨⟨fun _ => ⟨rfl,fun hplain => ?_⟩,fun hb => by cases hb⟩,Or.inr ⟨pass',mk,id,r,hkeyed,hfill⟩⟩
    exact absurd (hkeyed.store.crypted.symm.trans hplain) (by decide)

theorem plain_unlocks (q : List UInt8) (h : s.fUseCrypto = false)
    (hkeys : s.mapKeys.entries.isEmpty = false) : Unlocks G E C q s := by
  obtain ⟨sxs,hlock⟩ := lock_plain .fine h hkeys
  have hopen : ({ s with stealthAddresses := sxs } : FileWallet).isLocked = false := plain_open h
  unfold Unlocks unlock
  rw [hlock]
  dsimp only
  rw [hopen, if_pos (by decide)]
  exact ⟨_,rfl,hopen⟩

theorem change_plain {old new : List UInt8} {c : Change} {s' : FileWallet} {b : Bool}
    (h : Plain E s) (hrec : NoRecords s) (hok : ChangeOk E C old new c s)
    (hstep : changeWalletPassphrase G E C old new c s = some (b,s')) :
    ChangeAtomic G E C new s b s' ∧ Inv E C s' := by
  have hkeys := hok.1 h.plain
  obtain ⟨sxs,hlock⟩ := lock_plain c.oLock h.plain hkeys
  unfold changeWalletPassphrase at hstep
  dsimp only at hstep
  have hnil : inOrder (fun a b => decide (a ≤ b)) s.mapMasterKeys = [] := by
    rw [hrec.memory]
    rfl
  rw [hlock] at hstep
  dsimp only at hstep
  rw [hnil] at hstep
  obtain ⟨rfl,rfl⟩ := Prod.mk.inj (Option.some.inj hstep)
  refine ⟨⟨fun _ q _ => ?_,fun _ q hq => hq,fun _ => ?_,fun hb => by cases hb⟩,
    Or.inl ⟨plain_addresses E h sxs,hrec.memory,hrec.file⟩⟩
  · exact plain_unlocks G E C q h.plain hkeys
  · exact (plain_open h.plain).trans (plain_open h.plain).symm

section
variable (hG : G.order = curveOrder) (hE : E.Sized) (hC : C.Lawful) (hown : OwnKey C)
include hG hE hC hown

theorem change_step
    {old new : List UInt8} {c : Change} {s' : FileWallet} {b : Bool} (h : Inv E C s)
    (hok : ChangeOk E C old new c s)
    (hstep : changeWalletPassphrase G E C old new c s = some (b,s')) :
    ChangeAtomic G E C new s b s' ∧ Inv E C s' := by
  rcases h with ⟨hplain,hrec⟩ | ⟨pass,mk,id,r,hkeyed,hfill⟩
  · exact change_plain G E C hplain hrec hok hstep
  · obtain ⟨hatomic,pass',r',hk,hf⟩ := change_keyed G E C hG hE hC hown hkeyed
      hfill hok hstep
    exact ⟨hatomic,Or.inr ⟨pass',mk,id,r',hk,hf⟩⟩

theorem inv_step
    (e : Event) (s : FileWallet) (b : Option Bool) (s' : FileWallet) (h : Inv E C s)
    (hok : EventOk E C e s) (hstep : step G E C e s = some (b,s')) :
    Atomic G E C e s b s' ∧ Inv E C s' := by
  cases e with
  | addKey key o =>
    obtain ⟨rfl,rfl⟩ := Prod.mk.inj (Option.some.inj hstep)
    refine ⟨trivial,?_⟩
    rcases h with ⟨hplain,hrec⟩ | ⟨pass,mk,id,r,hkeyed,hfill⟩
    · refine Or.inl ⟨plain_add_key E C o hplain (hok hplain.plain),?_⟩
      unfold addKeyPubKey
      dsimp only
      rw [hplain.plain, if_pos (by decide)]
      rcases write_key_cases o (key.getPubKey E) key s.file with hw | hw
      · rw [hw]
        exact ⟨hrec.memory,hrec.file⟩
      · rw [hw]
        exact ⟨hrec.memory,hrec.file⟩
    · obtain ⟨hk,hf⟩ := keyed_add_key E C pass mk id r hC o key hkeyed
      exact Or.inr ⟨pass,mk,id,r,hk,hf hfill⟩
  | receive cpkE lockedSkMeta o =>
    obtain ⟨rfl,rfl⟩ := Prod.mk.inj (Option.some.inj hstep)
    refine ⟨trivial,?_⟩
    rcases h with ⟨hplain,hrec⟩ | ⟨pass,mk,id,r,hkeyed,hfill⟩
    · have hsame : receiveLocked E o cpkE lockedSkMeta s = s := by
        unfold receiveLocked
        rw [plain_open hplain.plain, if_neg Bool.false_ne_true, ite_self]
      rw [hsame]
      exact Or.inl ⟨hplain,hrec⟩
    · obtain ⟨hk,hf⟩ := keyed_receive E C pass mk id r lockedSkMeta hkeyed hok
      exact Or.inr ⟨pass,mk,id,r,hk,hf hfill⟩
  | addStealth sxAddr o =>
    obtain ⟨rfl,rfl⟩ := Prod.mk.inj (Option.some.inj hstep)
    exact ⟨trivial,inv_same_keys E C h (add_stealth_same E C o sxAddr s)⟩
  | updateStealth scanPubkey spendPubkey fSameLabel addIfNotExist o =>
    obtain ⟨rfl,rfl⟩ := Prod.mk.inj (Option.some.inj hstep)
    exact ⟨trivial,inv_same_keys E C h (update_stealth_same o scanPubkey spendPubkey fSameLabel addIfNotExist s)⟩
  | lock o =>
    obtain ⟨rfl,rfl⟩ := Prod.mk.inj (Option.some.inj hstep)
    refine ⟨trivial,?_⟩
    rcases h with ⟨hplain,hrec⟩ | ⟨pass,mk,id,r,hkeyed,hfill⟩
    · obtain ⟨sxs,hlock⟩ := lock_plain o hplain.plain
        (hok.resolve_left fun hc => absurd (hplain.plain.symm.trans hc) (by decide))
      rw [hlock]
      exact Or.inl ⟨plain_addresses E hplain sxs,hrec.memory,hrec.file⟩
    · obtain ⟨hk,hf,_⟩ := keyed_lock E C o hkeyed
      exact Or.inr ⟨pass,mk,id,r,hk,hf hfill⟩
  | unlock pass o =>
    obtain ⟨x,hx,hpair⟩ := Option.map_eq_some_iff.mp hstep
    obtain ⟨rfl,rfl⟩ := Prod.mk.inj hpair
    refine ⟨trivial,?_⟩
    rcases h with ⟨hplain,hrec⟩ | ⟨pass',mk,id,r,hkeyed,hfill⟩
    · unfold unlock at hx
      rw [plain_open hplain.plain, if_pos (by decide)] at hx
      rw [← Option.some.inj hx]
      exact Or.inl ⟨hplain,hrec⟩
    · obtain ⟨f,s₁,hunlock,hk,hf,_⟩ := unlock_keyed G E C pass' mk id r hG hE hC o hkeyed (Or.inl hfill)
      rw [hx] at hunlock
      rw [Option.some.inj hunlock]
      exact Or.inr ⟨pass',mk,id,r,hk,hf hfill⟩
  | encrypt pass e => exact encrypt_step G E C hG hE hC hown h hok hstep
  | change old new c =>
    obtain ⟨x,hx,hpair⟩ := Option.map_eq_some_iff.mp hstep
    obtain ⟨rfl,rfl⟩ := Prod.mk.inj hpair
    obtain ⟨hatomic,hinv⟩ := change_step G E C hG hE hC hown h hok hx
    refine ⟨?_,hinv⟩
    intro f hf
    rw [← Option.some.inj hf]
    exact hatomic
  | restart =>
    obtain ⟨s₀,hload,hpair⟩ := Option.map_eq_some_iff.mp hstep
    obtain ⟨rfl,rfl⟩ := Prod.mk.inj hpair
    refine ⟨trivial,?_⟩
    rcases h with ⟨hplain,hrec⟩ | ⟨pass,mk,id,r,hkeyed,hfill⟩
    · obtain ⟨s₁,hs₁,hp,hr⟩ := load_plain E hplain
      rw [hload] at hs₁
      rw [Option.some.inj hs₁]
      exact Or.inl ⟨hp,hr hrec⟩
    · obtain ⟨s₁,hs₁,hk,hf⟩ := load_keyed E C pass mk id r hkeyed hfill
      rw [hload] at hs₁
      rw [Option.some.inj hs₁]
      exact Or.inr ⟨pass,mk,id,r,hk,hf⟩

end

theorem plain_start : Plain E .start where
  plain := rfl
  master := rfl
  crypted _ := rfl
  fileCrypted _ := rfl
  ids _ _ h := by cases h
  fileKeys _ _ h := by cases h

theorem inv_start : Inv E C .start := Or.inl ⟨plain_start E,rfl,rfl⟩

/-- In every run whose steps meet their conditions, encrypting the wallet and changing its
passphrase are all-or-nothing. -/
theorem passphrase_all_or_nothing (hG : G.order = curveOrder) (hE : E.Sized) (hC : C.Lawful)
    (hown : OwnKey C) (es : List Event) (hok : Judged.AllOk (step G E C) (EventOk E C) es .start) :
    Judged.AllGood (step G E C) (Atomic G E C) es .start :=
  Judged.good_of_ok (step G E C) (Atomic G E C) (Inv E C)
    (inv_step G E C hG hE hC hown) .start (inv_start E C) hok

end Steps

section Samples

theorem sample_own_key : OwnKey sampleCipher := by
  intro k k' iv iv' p hk hk' _ h
  unfold sampleCipher at h
  dsimp only at h
  split at h
  · rename_i hstart
    rw [Bool.and_eq_true] at hstart
    have hpre := List.isPrefixOf_iff_prefix.mp hstart.1
    have hpre' := List.prefix_append k p
    exact (List.prefix_of_prefix_length_le hpre hpre' (by omega)).eq_of_length (by omega)
  · cases h

theorem sample_drawn : (List.replicate 32 (7 : UInt8)).length = 32 := rfl

def sampleEncrypting (fTxnBegin : Bool) : Encrypting :=
  ⟨List.replicate 32 7,sample_drawn,List.replicate 8 1,25000,0,fTxnBegin,true,.fine,[],.fine⟩

def sampleChange : Change := ⟨30000,[],.fine,.fine⟩

def sampleStep : Event → FileWallet → Option (Option Bool × FileWallet) :=
  step sampleGroup sampleKeys sampleCipher

def sampleEvents (key : CKey) : List Event :=
  [.addKey key .fine,.encrypt [112] (sampleEncrypting true),.change [112] [113] sampleChange,.restart]

def sampleBefore (key : CKey) : FileWallet := (addKeyPubKey sampleKeys sampleCipher .fine key .start).2

theorem sample_encrypted {key : CKey}
    (h : key = WalletOpen.sampleKey 1 WalletOpen.sample_secret_valid) :
    ∃ s, sampleStep (.encrypt [112] (sampleEncrypting true)) (sampleBefore key) = some (some true,s) ∧
      s.fUseCrypto = true ∧ s.isLocked = true ∧ s.mapMasterKeys.entries =
        [⟨1,madeRecord sampleCipher (sampleEncrypting true)
          ([112]++List.replicate 31 0,List.replicate 16 0)⟩] := by
  have hrun : ((sampleStep (.encrypt [112] (sampleEncrypting true)) (sampleBefore key)).map fun x =>
      (x.1,x.2.fUseCrypto,x.2.isLocked,x.2.mapMasterKeys.entries)) =
      some (some true,true,true,[⟨1,madeRecord sampleCipher (sampleEncrypting true)
        ([112]++List.replicate 31 0,List.replicate 16 0)⟩]) := by
    rw [h]
    decide +kernel
  obtain ⟨⟨b,s⟩,hs,heq⟩ := Option.map_eq_some_iff.mp hrun
  obtain ⟨rfl,hrest⟩ := Prod.mk.inj heq
  obtain ⟨hc,hrest⟩ := Prod.mk.inj hrest
  obtain ⟨hl,hrec⟩ := Prod.mk.inj hrest
  exact ⟨s,hs,hc,hl,hrec⟩

theorem sample_change_ok {s : FileWallet} (hc : s.fUseCrypto = true) (hl : s.isLocked = true)
    (hrec : s.mapMasterKeys.entries = [⟨1,madeRecord sampleCipher (sampleEncrypting true)
      ([112]++List.replicate 31 0,List.replicate 16 0)⟩]) :
    ChangeOk sampleKeys sampleCipher [112] [113] sampleChange s := by
  refine ⟨fun hp => absurd (hc.symm.trans hp) (by decide),?_⟩
  intro nID r hr
  have hmem := (mem_entries _ _ _).mpr hr
  rw [hrec] at hmem
  cases List.mem_singleton.mp hmem
  split
  · exact hl
  · split
    · rename_i hnone
      exact absurd hnone (by decide)
    · exact Or.inl rfl

theorem sample_events_ok {key : CKey}
    (h : key = WalletOpen.sampleKey 1 WalletOpen.sample_secret_valid) :
    Judged.AllOk sampleStep (EventOk sampleKeys sampleCipher) (sampleEvents key) .start := by
  obtain ⟨s,hs,hc,hl,hrec⟩ := sample_encrypted h
  apply Judged.all_ok_cons sampleStep .start (sampleBefore key)
  · intro _ old hold
    cases hold
  · rfl
  · apply Judged.all_ok_cons sampleStep (sampleBefore key) s
    · exact Or.inr (Or.inr (Or.inr ⟨rfl,fun _ => ⟨rfl,fun _ _ => rfl,Or.inl rfl⟩⟩))
    · exact hs
    · exact ⟨sample_change_ok hc hl hrec,fun _ _ _ => ⟨trivial,fun _ _ _ => trivial⟩⟩

theorem passphrase_all_or_nothing_sample :
    Judged.AllGood sampleStep (Atomic sampleGroup sampleKeys sampleCipher)
      (sampleEvents (WalletOpen.sampleKey 1 WalletOpen.sample_secret_valid)) .start :=
  passphrase_all_or_nothing sampleGroup sampleKeys sampleCipher rfl sample_keys_sized
    sample_cipher_lawful sample_own_key _ (sample_events_ok rfl)

/-- The new record stays in memory where the transaction does not begin, and a wrong
passphrase locks a wallet that was unlocked. -/
theorem passphrase_half_done :
    ¬ Judged.AllGood sampleStep (Atomic sampleGroup sampleKeys sampleCipher)
      [.encrypt [112] (sampleEncrypting false)] .start ∧
    ¬ Judged.AllGood sampleStep (Atomic sampleGroup sampleKeys sampleCipher)
      [.addKey (WalletOpen.sampleKey 1 WalletOpen.sample_secret_valid) .fine,.encrypt [112] (sampleEncrypting true),
        .unlock [112] .fine,.change [114] [113] sampleChange] .start := by
  constructor
  · intro h
    have hgood := (h (some false) _ rfl).1
    have hkeys := congrArg FileWallet.mapMasterKeys (hgood.failed rfl).1
    exact absurd (congrArg AList.entries hkeys) (by decide)
  · intro h
    have hends : ((Judged.run sampleStep [.addKey (WalletOpen.sampleKey 1 WalletOpen.sample_secret_valid) .fine,
        .encrypt [112] (sampleEncrypting true),.unlock [112] .fine] .start).bind fun s =>
          (sampleStep (.change [114] [113] sampleChange) s).map fun x => (s,x)).map
        (fun y => (y.1.isLocked,y.2.1,y.2.2.isLocked)) = some (false,some false,true) := by
      decide +kernel
    obtain ⟨⟨s,x⟩,hs,hend⟩ := Option.map_eq_some_iff.mp hends
    obtain ⟨s₁,hrun,hmap⟩ := Option.bind_eq_some_iff.mp hs
    obtain ⟨x',hx',heq⟩ := Option.map_eq_some_iff.mp hmap
    obtain ⟨rfl,rfl⟩ := Prod.mk.inj heq
    obtain ⟨hopen,hrest⟩ := Prod.mk.inj hend
    obtain ⟨hb,hl⟩ := Prod.mk.inj hrest
    have hgood := Judged.good_reached sampleStep
       .start h hrun hx'
    have hsame := (hgood false hb).locked rfl
    dsimp only at hopen hl
    rw [hopen, hl] at hsame
    cases hsame

end Samples

end SwippCore.WalletFile
