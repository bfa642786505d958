import SwippCore.StealthSpend
import SwippCore.CreateTransaction
import SwippCore.ScriptDestination

/-!
# Narrations

A narration travels in an output of its own behind `OP_RETURN`. In clear it stands right
behind the output that it belongs to. To a stealth address it is encrypted and stands with
the ephemeral key, and the recipient notes it under the output whose key it finds. The
sender notes it under the first output with the script and the value of the payment.
-/

set_option autoImplicit false

namespace SwippCore.Narrations
open FinMap Key Stealth Crypter CCryptoKeyStore WalletKeys WalletUnlock WalletReceipt
open StealthAgreement StealthPayment StealthSpend CreateTransaction ScriptDestination Opcodetype
open Masternode (scriptForKey)
open KeyPool (PoolWallet)

abbrev MapValue := Dict (List UInt8) (List UInt8)

/-- `n_%d` -/
def narrKey (n : ℤ) : List UInt8 := [0x6e,0x5f]++Decimal.decimalInt n

section Find

/-- What stands behind another `OP_RETURN`. -/
def narration (rest : CScript) : Option (List UInt8) :=
  match rest.getOp with
  | none => none
  | some ((op,_),pc) =>
    if op ≠ opReturn then none
    else
      match CScript.getOp pc with
      | none => none
      | some ((_,vchENarr),_) => if vchENarr.isEmpty then none else some vchENarr

/-- A narration in clear: behind `np`, where no ephemeral key stands. -/
def plainNarration (scriptPubKey : CScript) : Option (List UInt8) :=
  match scriptPubKey.getOp with
  | none => none
  | some ((op,_),pc) =>
    if op ≠ opReturn then none
    else
      match CScript.getOp pc with
      | none => none
      | some ((_,vch),pc) =>
        if vch.length ≠ 33 ∧ 1 < vch.length ∧ vch.getD 0 0 = 0x6e ∧ vch.getD 1 0 = 0x70 then
          narration pc
        else none

variable {P : Type} (G : EcGroup P) (E : KeyEnv) (C : Cipher)

/-- `SecMsgCrypter::Decrypt` under the shared secret, with the ephemeral key for the vector. -/
def decryptNarr (sShared vchEphemPK vchENarr : List UInt8) : Option (List UInt8) :=
  C.decrypt sShared (vchEphemPK.take 16) vchENarr

def receipt (fWritten : Uint160 → Bool) : Receipt :=
  ⟨fun sShared vchEphemPK vchENarr => (decryptNarr C sShared vchEphemPK vchENarr).isSome,fWritten⟩

def note (sShared vchEphemPK : List UInt8) (rest : CScript) (nOutputId : ℕ) (mapNarr : MapValue) :
    MapValue :=
  match (narration rest).bind (decryptNarr C sShared vchEphemPK) with
  | none => mapNarr
  | some sNarr => mapNarr.insert (narrKey nOutputId) sNarr

variable (fWritten : Uint160 → Bool)

def addressLoop (vchEphemPK : List UInt8) (ckidMatch : Uint160) (nOutputId : ℕ) :
    List CStealthAddress → CScript → KeyWallet → MapValue → Option (Search × MapValue)
  | [], rest, s, mapNarr => some (⟨false,rest,s⟩,mapNarr)
  | sx::sxs, rest, s, mapNarr =>
    match paidKey G vchEphemPK sx with
    | none => addressLoop vchEphemPK ckidMatch nOutputId sxs rest s mapNarr
    | some (sShared,cpkE) =>
      if cpkE.getID E ≠ ckidMatch then addressLoop vchEphemPK ckidMatch nOutputId sxs rest s mapNarr
      else
        (receiveStealth G E C (receipt C fWritten) vchEphemPK sShared cpkE sx rest s).bind fun r =>
          if r.fMatch then some (r,note C sShared vchEphemPK rest nOutputId mapNarr)
          else addressLoop vchEphemPK ckidMatch nOutputId sxs r.rest r.wallet mapNarr

/-- The loop over the other outputs; `nOutputId` is the index of the next one. -/
def otherLoop (vchEphemPK : List UInt8) (nOutputIdOuter : ℕ) :
    ℕ → List CTxOut → CScript → KeyWallet → MapValue → Option (KeyWallet × MapValue)
  | _, [], _, s, mapNarr => some (s,mapNarr)
  | nOutputId, txoutB::vout, rest, s, mapNarr =>
    if nOutputId = nOutputIdOuter then
      otherLoop vchEphemPK nOutputIdOuter (nOutputId+1) vout rest s mapNarr
    else
      match keyDestination E txoutB.scriptPubKey with
      | none => otherLoop vchEphemPK nOutputIdOuter (nOutputId+1) vout rest s mapNarr
      | some ckidMatch =>
        if s.haveKey ckidMatch then
          otherLoop vchEphemPK nOutputIdOuter (nOutputId+1) vout rest s mapNarr
        else
          (addressLoop G E C fWritten vchEphemPK ckidMatch nOutputId s.stealthAddresses rest s
            mapNarr).bind fun x =>
              if x.1.fMatch then some (x.1.wallet,x.2)
              else otherLoop vchEphemPK nOutputIdOuter (nOutputId+1) vout x.1.rest x.1.wallet x.2

/-- The loop over the outputs that return. A narration in clear is noted under the index before. -/
def outputLoop (vout : List CTxOut) : List ℕ → KeyWallet → MapValue → Option (KeyWallet × MapValue)
  | [], s, mapNarr => some (s,mapNarr)
  | i::is, s, mapNarr =>
    match (vout[i]?).bind fun txout => ephemeral txout.scriptPubKey with
    | some (vchEphemPK,rest) =>
      (otherLoop G E C fWritten vchEphemPK i 0 vout rest s mapNarr).bind fun x =>
        outputLoop vout is x.1 x.2
    | none =>
      match (vout[i]?).bind fun txout => plainNarration txout.scriptPubKey with
      | none => outputLoop vout is s mapNarr
      | some sNarr => outputLoop vout is s (mapNarr.insert (narrKey ((i : ℤ)-1)) sNarr)

/-- `FindStealthTransactions`, with the wallet after it and the narrations. -/
def findStealthTransactions (tx : CTransaction) (s : KeyWallet) : Option (KeyWallet × MapValue) :=
  outputLoop G E C fWritten tx.vout (List.range tx.vout.length) s ∅

end Find

section Send

/-- `CreateTransaction` for one script, with a narration in clear. -/
def createTransaction (B : Builder) (nTurns : ℕ) (scriptPubKey : CScript) (nValue : ℤ)
    (sNarr : List UInt8) (c : Call) (passes : ℕ → Pass) (s : PoolWallet) :
    Option (Outcome × PoolWallet) :=
  let vecSend : List CTxOut := [⟨nValue,scriptPubKey⟩]
  let vecSend :=
    if 0 < sNarr.length then
      vecSend++[⟨0,0x6a::(CScript.push [0x6e,0x70]++0x6a::CScript.push sNarr)⟩]
    else vecSend
  CreateTransaction.createTransaction B nTurns { c with vecSend := vecSend } passes s

def recordNarr (scriptPubKey : CScript) (nValue : ℤ) (sNarr : List UInt8) :
    ℕ → List CTxOut → MapValue → MapValue
  | _, [], mapValue => mapValue
  | k, txout::vout, mapValue =>
    if txout.scriptPubKey ≠ scriptPubKey ∨ txout.nValue ≠ nValue then
      recordNarr scriptPubKey nValue sNarr (k+1) vout mapValue
    else mapValue.insert (narrKey k) sNarr

structure StealthCall where
  scriptPubKey : CScript
  nValue : ℤ
  /-- the ephemeral key -/
  P : List UInt8
  narr : List UInt8
  sNarr : List UInt8

def StealthCall.scriptP (q : StealthCall) : CScript :=
  0x6a::(CScript.push q.P++if 0 < q.narr.length then 0x6a::CScript.push q.narr else [])

def StealthCall.vecSend (q : StealthCall) : List CTxOut := [⟨q.nValue,q.scriptPubKey⟩,⟨1,q.scriptP⟩]

/-- `CreateStealthTransaction`; `shuffled` is what `random_shuffle` makes of the outputs. -/
def createStealthTransaction (B : Builder) (nTurns : ℕ) (q : StealthCall) (shuffled : List CTxOut)
    (c : Call) (mapValue : MapValue) (passes : ℕ → Pass) (s : PoolWallet) :
    Option ((Outcome × PoolWallet) × MapValue) :=
  (CreateTransaction.createTransaction B nTurns { c with vecSend := shuffled } passes s).map fun x =>
    match x.1 with
    | .created tx _ =>
      if 0 < q.narr.length then (x,recordNarr q.scriptPubKey q.nValue q.sNarr 0 tx.vout mapValue)
      else (x,mapValue)
    | _ => (x,mapValue)

end Send

section Names

theorem narr_key_inj {a b : ℤ} (h : narrKey a = narrKey b) : a = b := by
  have hdigits : Decimal.decimalInt a = Decimal.decimalInt b := List.append_cancel_left h
  rw [← Decimal.parse_decimal_int a, hdigits, Decimal.parse_decimal_int]

variable {P : Type} (G : EcGroup P) (E : KeyEnv) (C : Cipher) (fWritten : Uint160 → Bool)

theorem address_rule (Q : MapValue → Prop) {k : ℕ}
    (hQ : ∀ m sNarr, Q m → Q (m.insert (narrKey k) sNarr)) {vchEphemPK : List UInt8}
    {ckidMatch : Uint160} {sxs : List CStealthAddress} (rest : CScript) (s : KeyWallet)
    {m : MapValue} (hm : Q m) {x : Search × MapValue}
    (h : addressLoop G E C fWritten vchEphemPK ckidMatch k sxs rest s m = some x) : Q x.2 := by
  induction sxs generalizing rest s with
  | nil =>
    cases h
    exact hm
  | cons sx sxs ih =>
    rw [addressLoop] at h
    split at h
    · exact ih rest s h
    · split at h
      · exact ih rest s h
      · obtain ⟨r,_,h⟩ := Option.bind_eq_some_iff.mp h
        split at h
        · cases h
          unfold note
          split
          · exact hm
          · exact hQ m _ hm
        · exact ih r.rest r.wallet h

theorem other_rule (Q : MapValue → Prop) {n : ℕ}
    (hQ : ∀ k < n, ∀ m sNarr, Q m → Q (m.insert (narrKey k) sNarr)) {vchEphemPK : List UInt8}
    (i k : ℕ) {outs : List CTxOut} (hk : k+outs.length = n) (rest : CScript) (s : KeyWallet)
    (m : MapValue) (hm : Q m) {x : KeyWallet × MapValue}
    (h : otherLoop G E C fWritten vchEphemPK i k outs rest s m = some x) : Q x.2 := by
  induction outs generalizing k rest s m with
  | nil =>
    cases h
    exact hm
  | cons out outs ih =>
    rw [List.length_cons] at hk
    have hnext : k+1+outs.length = n := by omega
    rw [otherLoop] at h
    split at h
    · exact ih (k+1) hnext rest s m hm h
    · split at h
      · exact ih (k+1) hnext rest s m hm h
      · split at h
        · exact ih (k+1) hnext rest s m hm h
        · obtain ⟨y,hy,h⟩ := Option.bind_eq_some_iff.mp h
          have hkept := address_rule G E C fWritten Q (hQ k (by omega)) rest s hm hy
          split at h
          · cases h
            exact hkept
          · exact ih (k+1) hnext y.1.rest y.1.wallet y.2 hkept h

def plainAt (vout : List CTxOut) (i : ℕ) : Option (List UInt8) :=
  (vout[i]?).bind fun txout =>
    if (ephemeral txout.scriptPubKey).isNone then plainNarration txout.scriptPubKey else none

theorem plain_at_of {vout : List CTxOut} {i : ℕ} (hi : i < vout.length)
    (hnone : (vout[i]?).bind (fun txout => ephemeral txout.scriptPubKey) = none) :
    (vout[i]?).bind (fun txout => plainNarration txout.scriptPubKey) = plainAt vout i := by
  rw [List.getElem?_eq_getElem hi, Option.bind_some] at hnone
  rw [plainAt, List.getElem?_eq_getElem hi, Option.bind_some, Option.bind_some, hnone]
  rfl

theorem output_rule (Q : MapValue → Prop) {vout : List CTxOut}
    (hQ : ∀ k < vout.length, ∀ m sNarr, Q m → Q (m.insert (narrKey k) sNarr))
    (hplain : ∀ i < vout.length, ∀ m sNarr, plainAt vout i = some sNarr → Q m →
      Q (m.insert (narrKey ((i : ℤ)-1)) sNarr))
    {is : List ℕ} (his : ∀ i ∈ is, i < vout.length) (s : KeyWallet) (m : MapValue) (hm : Q m)
    {x : KeyWallet × MapValue} (h : outputLoop G E C fWritten vout is s m = some x) : Q x.2 := by
  induction is generalizing s m with
  | nil =>
    cases h
    exact hm
  | cons i is ih =>
    have hrest := fun j hj => his j (List.mem_cons_of_mem i hj)
    have hi := his i List.mem_cons_self
    rw [outputLoop] at h
    split at h
    · obtain ⟨y,hy,h⟩ := Option.bind_eq_some_iff.mp h
      exact ih hrest y.1 y.2
        (other_rule G E C fWritten Q hQ i 0 (Nat.zero_add _) _ s m hm hy) h
    · rename_i hnone
      rw [plain_at_of hi hnone] at h
      split at h
      · exact ih hrest s m hm h
      · rename_i sNarr hs
        exact ih hrest s _ (hplain i hi m sNarr hs hm) h

theorem mem_insert_kept (key j sNarr : List UInt8) {m : MapValue} (h : key ∈ m) :
    key ∈ m.insert j sNarr := (AList.mem_insert m).mpr (Or.inr h)

/-- Every key names an output of the transaction, unless a narration in clear stands in the
first output. -/
theorem keys_name_outputs {tx : CTransaction} {s : KeyWallet} {x : KeyWallet × MapValue}
    (h : findStealthTransactions G E C fWritten tx s = some x) :
    (∀ key ∈ x.2, ∃ k < tx.vout.length, key = narrKey k) ↔ plainAt tx.vout 0 = none := by
  unfold findStealthTransactions at h
  constructor
  · intro hall
    cases hlead : plainAt tx.vout 0 with
    | none => rfl
    | some sNarr =>
      exfalso
      obtain ⟨txout,hout,hs⟩ := Option.bind_eq_some_iff.mp hlead
      have hlen : 0 < tx.vout.length := (List.getElem?_eq_some_iff.mp hout).1
      have hnone : (tx.vout[0]?).bind (fun txout => ephemeral txout.scriptPubKey) = none := by
        rw [hout, Option.bind_some]
        split at hs
        · rename_i hnone
          exact Option.isNone_iff_eq_none.mp hnone
        · cases hs
      obtain ⟨n,hn⟩ := Nat.exists_eq_succ_of_ne_zero (Nat.pos_iff_ne_zero.mp hlen)
      rw [hn, List.range_succ_eq_map, outputLoop, hnone, plain_at_of hlen hnone, hlead] at h
      have hmem : narrKey (-1) ∈ x.2 := output_rule G E C fWritten (narrKey (-1) ∈ ·)
        (fun _ _ m _ hm => mem_insert_kept _ _ _ hm) (fun _ _ m _ _ hm => mem_insert_kept _ _ _ hm)
        (fun i hi => by
          obtain ⟨j,hj,rfl⟩ := List.mem_map.mp hi
          have hlt := List.mem_range.mp hj
          omega) s _ ((AList.mem_insert _).mpr (Or.inl rfl)) h
      obtain ⟨k,_,hk⟩ := hall _ hmem
      have hneg := narr_key_inj hk
      omega
  · intro hlead
    apply output_rule G E C fWritten (fun m => ∀ key ∈ m, ∃ k < tx.vout.length, key = narrKey k)
      _ _ (fun i hi => List.mem_range.mp hi) s ∅
      (fun key hkey => absurd hkey (AList.notMem_empty key)) h
    · intro k hk m sNarr hm key hkey
      rcases (AList.mem_insert m).mp hkey with rfl | hkey
      · exact ⟨k,hk,rfl⟩
      · exact hm key hkey
    · intro i hi m sNarr hs hm key hkey
      rcases (AList.mem_insert m).mp hkey with rfl | hkey
      · cases i with
        | zero =>
          rw [hlead] at hs
          cases hs
        | succ i => exact ⟨i,by omega,by rw [Nat.cast_succ, add_sub_cancel_right]⟩
      · exact hm key hkey

end Names

section Built
variable (B : Builder)

structure Destined (coinControl : Option CCoinControl) : Prop where
  keys : ∀ key, ∃ dest, B.keyScript key = setDestination dest
  chosen : ∀ script, coinControl.bind CCoinControl.destChange = some script →
    ∃ dest, script = setDestination dest

def Arranged (vecSend vout : List CTxOut) : Prop :=
  vout = vecSend ∨ ∃ nRand nChange dest, vout = insertChange nRand ⟨nChange,setDestination dest⟩ vecSend

theorem change_destined {coinControl : Option CCoinControl} (hB : Destined B coinControl) {r : ℕ}
    {io : KeyPool.Io} {s s' : PoolWallet} {script : CScript}
    (h : changeScript B r io coinControl s = some (script,s')) :
    ∃ dest, script = setDestination dest := by
  unfold changeScript at h
  cases hdest : coinControl.bind CCoinControl.destChange with
  | some dest =>
    rw [hdest] at h
    cases h
    exact hB.chosen script hdest
  | none =>
    rw [hdest] at h
    obtain ⟨x,_,heq⟩ := Option.map_eq_some_iff.mp h
    cases heq
    exact hB.keys x.1

theorem fill_arranged {c : Call} (hB : Destined B c.coinControl) {r : ℕ} {p : Pass} {nChange : ℤ}
    {vout : List CTxOut} {s s' : PoolWallet}
    (h : fillOutputs B r p c.coinControl nChange c.vecSend s = some (vout,s')) :
    Arranged c.vecSend vout := by
  unfold fillOutputs at h
  split at h
  · obtain ⟨x,hx,heq⟩ := Option.map_eq_some_iff.mp h
    cases heq
    obtain ⟨dest,hdest⟩ := change_destined B hB hx
    exact Or.inr ⟨p.nRand,nChange,dest,by rw [hdest]⟩
  · cases h
    exact Or.inl rfl

/-- The turn that ends the loop gives the outputs their places and keeps to the size. -/
theorem pass_arranged {c : Call} (hB : Destined B c.coinControl) {nValue nFeeRet fee : ℤ} {p : Pass}
    {s s' : PoolWallet} {tx : CTransaction}
    (h : CreateTransaction.pass B c nValue p nFeeRet s = .ends (.created tx fee,s')) :
    Arranged c.vecSend tx.vout ∧ tx.serialize.length < maxBlockSizeGen/5 := by
  unfold CreateTransaction.pass at h
  split at h
  · cases h
  · cases h
  · split at h
    · cases h
    · rename_i vout s₁ hfill
      dsimp only at h
      split at h
      · cases h
      · rename_i tx' hsign
        split at h
        · cases h
        · rename_i hsize
          split at h
          · cases h
          · cases h
            have hvout := (PaymentRuns.sign_all_kept _ _ _ hsign).1
            rw [hvout]
            exact ⟨fill_arranged B hB hfill,Nat.lt_of_not_le hsize⟩

theorem created_arranged (nTurns : ℕ) (c : Call) (hB : Destined B c.coinControl) (passes : ℕ → Pass)
    (s s' : PoolWallet) (tx : CTransaction) (fee : ℤ)
    (h : CreateTransaction.createTransaction B nTurns c passes s = some (.created tx fee,s')) :
    Arranged c.vecSend tx.vout ∧ tx.serialize.length < maxBlockSizeGen/5 := by
  unfold CreateTransaction.createTransaction at h
  split at h
  · cases h
  · split at h
    · cases h
    · obtain ⟨i,v,t,hturn⟩ := Raising.loop_last _ _ _ _ _ _ h
      exact pass_arranged B hB hturn

theorem mem_insert_change (nRand : ℕ) (change : CTxOut) (vout : List CTxOut) (out : CTxOut)
    (h : out ∈ vout) : out ∈ insertChange nRand change vout := by
  unfold insertChange
  dsimp only
  rw [← List.take_append_drop (backUp vout (nRand%vout.length)) vout] at h
  rcases List.mem_append.mp h with h | h
  · exact List.mem_append_left _ h
  · exact List.mem_append_right _ (List.mem_cons_of_mem _ h)

theorem length_le_push (b : List UInt8) : b.length ≤ (CScript.push b).length := by
  unfold CScript.push
  dsimp only
  split_ifs
  all_goals simp only [List.length_cons, List.length_append]
  all_goals omega

theorem script_le_serialize {tx : CTransaction} {out : CTxOut} (hout : out ∈ tx.vout) :
    out.scriptPubKey.length ≤ tx.serialize.length := by
  have hone : out.scriptPubKey.length ≤ out.serialize.length := by
    rw [CTxOut.serialize, CScript.serialize, PrefixCode.vector, List.length_append, List.length_append,
      PrefixCode.length_many_single]
    omega
  have hall := PrefixCode.length_le_many CTxOut.serialize hout
  rw [CTransaction.serialize]
  simp only [List.length_append, PrefixCode.vector]
  omega

end Built

section Alone

theorem get_op_return (pc : CScript) : CScript.getOp (0x6a::pc) = some ((opReturn,[]),pc) :=
  get_op_plain pc (by decide)

theorem narration_push {narr : List UInt8} (hne : narr ≠ []) (hlen : narr.length < 2^32) :
    narration (0x6a::CScript.push narr) = some narr := by
  obtain ⟨op,hop⟩ := get_op_push narr [] hlen
  rw [List.append_nil] at hop
  rw [narration, get_op_return]
  dsimp only
  rw [if_neg (not_not.mpr rfl), hop]
  dsimp only
  rw [if_neg (by rw [List.isEmpty_iff]; exact hne)]

theorem destination_silent (dest : CTxDestination) :
    ephemeral (setDestination dest) = none ∧ plainNarration (setDestination dest) = none := by
  unfold ephemeral plainNarration
  cases hget : CScript.getOp (setDestination dest) with
  | none => exact ⟨rfl,rfl⟩
  | some x =>
    obtain ⟨⟨op,vch⟩,pc⟩ := x
    have hop := destination_plain hget
    dsimp only
    rw [if_pos hop, if_pos hop]
    exact ⟨rfl,rfl⟩

theorem plain_script {sNarr : List UInt8} (hne : sNarr ≠ []) (hlen : sNarr.length < 2^32) :
    ephemeral (0x6a::(CScript.push [0x6e,0x70]++0x6a::CScript.push sNarr)) = none ∧
      plainNarration (0x6a::(CScript.push [0x6e,0x70]++0x6a::CScript.push sNarr)) = some sNarr := by
  obtain ⟨op,hop⟩ := get_op_push [0x6e,0x70] (0x6a::CScript.push sNarr) (by decide)
  unfold ephemeral plainNarration
  rw [get_op_return]
  dsimp only
  rw [if_neg (not_not.mpr rfl), if_neg (not_not.mpr rfl), hop]
  dsimp only
  rw [if_neg (by decide), if_pos (by decide), narration_push hne hlen]
  exact ⟨rfl,rfl⟩

variable {P : Type} (G : EcGroup P) (E : KeyEnv) (C : Cipher) (fWritten : Uint160 → Bool)

def Silent (vout : List CTxOut) (i : ℕ) : Prop :=
  ∀ txout, vout[i]? = some txout →
    ephemeral txout.scriptPubKey = none ∧ plainNarration txout.scriptPubKey = none

theorem output_silent {vout : List CTxOut} {i : ℕ} (is : List ℕ) (hi : Silent vout i)
    (s : KeyWallet) (m : MapValue) :
    outputLoop G E C fWritten vout (i::is) s m = outputLoop G E C fWritten vout is s m := by
  rw [outputLoop]
  cases hout : vout[i]? with
  | none => rfl
  | some txout =>
    obtain ⟨he,hp⟩ := hi txout hout
    rw [Option.bind_some, Option.bind_some, he, hp]

theorem outputs_silent (vout : List CTxOut) (is : List ℕ) (his : ∀ i ∈ is, Silent vout i)
    (s : KeyWallet) (m : MapValue) : outputLoop G E C fWritten vout is s m = some (s,m) := by
  induction is with
  | nil => rfl
  | cons i is ih =>
    rw [output_silent G E C fWritten is (his i List.mem_cons_self) s m]
    exact ih fun j hj => his j (List.mem_cons_of_mem i hj)

theorem output_alone {vout : List CTxOut} {i : ℕ} {is : List ℕ} (hnodup : is.Nodup) (hi : i ∈ is)
    (hrest : ∀ j, j ≠ i → Silent vout j) (s : KeyWallet) (m : MapValue) :
    outputLoop G E C fWritten vout is s m = outputLoop G E C fWritten vout [i] s m := by
  induction is with
  | nil => cases hi
  | cons j js ih =>
    obtain ⟨hj,hjs⟩ := List.nodup_cons.mp hnodup
    by_cases hji : j = i
    · subst hji
      have hdone : ∀ s m, outputLoop G E C fWritten vout js s m = some (s,m) :=
        outputs_silent G E C fWritten vout js fun k hk => hrest k fun hkj => hj (hkj ▸ hk)
      rw [outputLoop, outputLoop]
      simp only [hdone, outputLoop]
    · rw [output_silent G E C fWritten js (hrest j hji) s m]
      exact ih hjs ((List.mem_cons.mp hi).resolve_left fun h => hji h.symm)

end Alone

section Plain
variable {P : Type} (G : EcGroup P) (E : KeyEnv) (C : Cipher) (fWritten : Uint160 → Bool)

theorem insert_before (nRand : ℕ) (change : CTxOut) (v n : CTxOut) (hn : n.nValue = 0) :
    insertChange nRand change [v,n] = [change,v,n] := by
  have hback : backUp [v,n] (nRand%2) = 0 := by
    rcases Nat.mod_two_eq_zero_or_one nRand with h | h
    · rw [h, backUp]
    · rw [h, backUp]
      have hvalue : (([v,n][0+1]?).map CTxOut.nValue).getD 0 = 0 := hn
      rw [if_neg (not_not.mpr hvalue), backUp]
  rw [insertChange]
  change (let position := backUp [v,n] (nRand%2)
    [v,n].take position++change::[v,n].drop position) = _
  rw [hback]
  rfl

structure Behind (vout : List CTxOut) (before : List CTxOut) (payment : CTxOut) (sNarr : List UInt8) :
    Prop where
  outputs : vout =
    before++[payment,⟨0,0x6a::(CScript.push [0x6e,0x70]++0x6a::CScript.push sNarr)⟩]
  destined : ∀ out ∈ payment::before, ∃ dest, out.scriptPubKey = setDestination dest
  short : sNarr.length < 2^32

theorem plain_arranged {B : Builder} {nTurns : ℕ} {dest : CTxDestination} {nValue : ℤ}
    {sNarr : List UInt8} (hne : sNarr ≠ []) {c : Call} (hB : Destined B c.coinControl)
    {passes : ℕ → Pass} {s s' : PoolWallet} {tx : CTransaction} {fee : ℤ}
    (h : createTransaction B nTurns (setDestination dest) nValue sNarr c passes s =
      some (.created tx fee,s')) :
    ∃ before, Behind tx.vout before ⟨nValue,setDestination dest⟩ sNarr := by
  unfold createTransaction at h
  dsimp only at h
  rw [if_pos (List.length_pos_iff.mpr hne)] at h
  obtain ⟨harr,hsize⟩ := created_arranged B nTurns { c with vecSend := [⟨nValue,setDestination dest⟩]++
    [⟨0,0x6a::(CScript.push [0x6e,0x70]++0x6a::CScript.push sNarr)⟩] } hB passes s s' tx fee h
  have hmem : (⟨0,0x6a::(CScript.push [0x6e,0x70]++0x6a::CScript.push sNarr)⟩ : CTxOut) ∈ tx.vout := by
    rcases harr with hvout | ⟨_,_,_,hvout⟩
    · rw [hvout]
      simp
    · rw [hvout]
      apply mem_insert_change
      simp
  have hlen := script_le_serialize hmem
  have hpush := length_le_push sNarr
  simp only [List.length_cons, List.length_append] at hlen
  have hmax : maxBlockSizeGen/5 = 600000 := rfl
  have hshort : sNarr.length < 2^32 := by omega
  rcases harr with hvout | ⟨nRand,nChange,dest',hvout⟩
  · refine ⟨[],hvout,?_,hshort⟩
    intro out hout
    rw [List.mem_singleton.mp hout]
    exact ⟨dest,rfl⟩
  · refine ⟨[⟨nChange,setDestination dest'⟩],?_,?_,hshort⟩
    · rw [hvout]
      exact insert_before nRand _ _ _ rfl
    · intro out hout
      rcases List.mem_cons.mp hout with rfl | hout
      · exact ⟨dest,rfl⟩
      · rw [List.mem_singleton.mp hout]
        exact ⟨dest',rfl⟩

theorem plain_found {tx : CTransaction} {before : List CTxOut} {payment : CTxOut}
    {sNarr : List UInt8} (hne : sNarr ≠ []) (h : Behind tx.vout before payment sNarr)
    (s : KeyWallet) :
    findStealthTransactions G E C fWritten tx s = some (s,AList.insert (narrKey before.length) sNarr ∅) := by
  obtain ⟨he,hp⟩ := plain_script hne h.short
  have hlast : tx.vout[before.length+1]? =
      some ⟨0,0x6a::(CScript.push [0x6e,0x70]++0x6a::CScript.push sNarr)⟩ := by
    rw [h.outputs, List.getElem?_append_right (Nat.le_succ _),
      show before.length+1-before.length = 1 by omega]
    rfl
  have hsilent : ∀ j, j ≠ before.length+1 → Silent tx.vout j := by
    intro j hj txout hout
    have hmem : txout ∈ payment::before := by
      rw [h.outputs] at hout
      rcases Nat.lt_or_ge j before.length with hlt | hge
      · rw [List.getElem?_append_left hlt] at hout
        exact List.mem_cons_of_mem _ (List.mem_of_getElem? hout)
      · rw [List.getElem?_append_right hge] at hout
        obtain rfl | hmore : j = before.length ∨ before.length+2 ≤ j := by omega
        · rw [Nat.sub_self] at hout
          rw [← Option.some.inj hout]
          exact List.mem_cons_self
        · obtain ⟨k,hk⟩ := Nat.exists_eq_add_of_le hmore
          have hsub : j-before.length = k+2 := by omega
          rw [hsub] at hout
          cases hout
    obtain ⟨dest,hdest⟩ := h.destined txout hmem
    rw [hdest]
    exact destination_silent dest
  have hrange : before.length+1 ∈ List.range tx.vout.length :=
    List.mem_range.mpr (List.getElem?_eq_some_iff.mp hlast).1
  rw [findStealthTransactions,
    output_alone G E C fWritten List.nodup_range hrange hsilent,
    outputLoop, hlast, Option.bind_some, Option.bind_some, he, hp]
  have hkey : ((before.length+1 : ℕ) : ℤ)-1 = before.length := by omega
  dsimp only
  rw [hkey]
  rfl

end Plain

section Carried

structure Carried (vout : List CTxOut) (i : ℕ) (carrier : CTxOut) : Prop where
  carrier : vout[i]? = some carrier
  destined : ∀ j, j ≠ i → ∀ out, vout[j]? = some out → ∃ dest, out.scriptPubKey = setDestination dest

theorem carried_append (before after : List CTxOut) (carrier : CTxOut)
    (h : ∀ out ∈ before++after, ∃ dest, out.scriptPubKey = setDestination dest) :
    Carried (before++carrier::after) before.length carrier := by
  constructor
  · rw [List.getElem?_append_right (Nat.le_refl _), Nat.sub_self, List.getElem?_cons_zero]
  · intro j hj out hout
    apply h
    rcases Nat.lt_or_ge j before.length with hlt | hge
    · rw [List.getElem?_append_left hlt] at hout
      exact List.mem_append_left _ (List.mem_of_getElem? hout)
    · rw [List.getElem?_append_right hge] at hout
      obtain ⟨k,hk⟩ := Nat.exists_eq_add_of_lt (Nat.lt_of_le_of_ne hge (Ne.symm hj))
      have hsub : j-before.length = k+1 := by omega
      rw [hsub, List.getElem?_cons_succ] at hout
      exact List.mem_append_right _ (List.mem_of_getElem? hout)

theorem insert_two (nRand : ℕ) (change a b : CTxOut) :
    insertChange nRand change [a,b] = [change,a,b] ∨ insertChange nRand change [a,b] = [a,change,b] := by
  have hle : ∀ p : ℕ, backUp [a,b] p ≤ p := by
    intro p
    induction p with
    | zero => exact Nat.le_refl 0
    | succ p ih =>
      rw [backUp]
      split
      · exact Nat.le_refl _
      · exact Nat.le_succ_of_le ih
  have hlt := Nat.lt_of_le_of_lt (hle (nRand%2)) (Nat.mod_lt nRand (by decide))
  unfold insertChange
  change (let position := backUp [a,b] (nRand%2)
    [a,b].take position++change::[a,b].drop position) = _ ∨
    (let position := backUp [a,b] (nRand%2)
    [a,b].take position++change::[a,b].drop position) = _
  obtain h0 | h1 : backUp [a,b] (nRand%2) = 0 ∨ backUp [a,b] (nRand%2) = 1 := by omega
  · rw [h0]
    exact Or.inl rfl
  · rw [h1]
    exact Or.inr rfl

theorem perm_pair {α : Type} {l : List α} {a b : α} (h : l.Perm [a,b]) : l = [a,b] ∨ l = [b,a] := by
  obtain ⟨x,y,rfl⟩ := List.length_eq_two.mp h.length_eq
  rcases List.mem_cons.mp (h.mem_iff.mpr List.mem_cons_self) with rfl | hy
  · left
    rw [List.perm_cons] at h
    rw [List.singleton_perm_singleton.mp h]
  · right
    rw [List.mem_singleton] at hy
    subst hy
    have hswap := (List.Perm.swap x a []).trans h
    rw [List.perm_cons] at hswap
    rw [List.singleton_perm_singleton.mp hswap]

/-- Shuffled and with the change among them, the outputs are a carrier and destinations. -/
theorem arranged_carried (payment carrier : CTxOut) (shuffled vout : List CTxOut)
    (hp : ∃ dest, payment.scriptPubKey = setDestination dest)
    (hperm : shuffled.Perm [payment,carrier]) (h : Arranged shuffled vout) :
    ∃ i, Carried vout i carrier := by
  have hpay : ∀ out ∈ [payment], ∃ dest, out.scriptPubKey = setDestination dest := by
    intro out hout
    rw [List.mem_singleton.mp hout]
    exact hp
  have hboth : ∀ nChange dest, ∀ out ∈ [payment,⟨nChange,setDestination dest⟩],
      ∃ dest, out.scriptPubKey = setDestination dest := by
    intro nChange dest out hout
    rcases List.mem_cons.mp hout with rfl | hout
    · exact hp
    · rw [List.mem_singleton.mp hout]
      exact ⟨dest,rfl⟩
  have hswap : ∀ nChange dest, ∀ out ∈ [⟨nChange,setDestination dest⟩,payment],
      ∃ dest, out.scriptPubKey = setDestination dest :=
    fun nChange dest out hout => hboth nChange dest out (List.mem_cons.mpr
      ((List.mem_cons.mp hout).symm.imp List.mem_singleton.mp List.mem_singleton.mpr))
  rcases perm_pair hperm with rfl | rfl
  · rcases h with rfl | ⟨nRand,nChange,dest,rfl⟩
    · exact ⟨1,carried_append [payment] [] carrier hpay⟩
    · rcases insert_two nRand ⟨nChange,setDestination dest⟩ payment carrier with hv | hv
      · rw [hv]
        exact ⟨2,carried_append [⟨nChange,setDestination dest⟩,payment] [] carrier (hswap nChange dest)⟩
      · rw [hv]
        exact ⟨2,carried_append [payment,⟨nChange,setDestination dest⟩] [] carrier (hboth nChange dest)⟩
  · rcases h with rfl | ⟨nRand,nChange,dest,rfl⟩
    · exact ⟨0,carried_append [] [payment] carrier hpay⟩
    · rcases insert_two nRand ⟨nChange,setDestination dest⟩ carrier payment with hv | hv
      · rw [hv]
        exact ⟨1,carried_append [⟨nChange,setDestination dest⟩] [payment] carrier (hswap nChange dest)⟩
      · rw [hv]
        exact ⟨0,carried_append [] [⟨nChange,setDestination dest⟩,payment] carrier (hswap nChange dest)⟩

/-- The sender notes the narration under the first output with the script and the value. -/
theorem record_first {scriptPubKey : CScript} {nValue : ℤ} (sNarr : List UInt8) (n k : ℕ)
    {vout : List CTxOut} (m : MapValue) (hk : vout[k]? = some ⟨nValue,scriptPubKey⟩)
    (hfirst : ∀ j < k, ∀ out, vout[j]? = some out → out.scriptPubKey ≠ scriptPubKey) :
    recordNarr scriptPubKey nValue sNarr n vout m = m.insert (narrKey (n+k : ℕ)) sNarr := by
  induction vout generalizing n k with
  | nil => cases hk
  | cons out vout ih =>
    rw [recordNarr]
    cases k with
    | zero =>
      rw [List.getElem?_cons_zero, Option.some_inj] at hk
      rw [hk, if_neg (by simp)]
      rfl
    | succ k =>
      have hout := hfirst 0 (Nat.succ_pos k) out List.getElem?_cons_zero
      rw [if_pos (Or.inl hout), ih (n+1) k hk fun j hj o ho => hfirst (j+1) (Nat.succ_lt_succ hj) o ho]
      congr 2
      omega

end Carried

section Search
variable {P : Type} {G : EcGroup P} {E : KeyEnv} {C : Cipher}

structure Sends (G : EcGroup P) (E : KeyEnv) (C : Cipher) (mk d f e sharedS paid : List UInt8)
    (sx : CStealthAddress) (q : StealthCall) (s : KeyWallet) : Prop where
  ready : Ready E C mk s
  owns : Owns G E C mk d f sx s
  scanLength : d.length = 32
  spendLength : f.length = 32
  secret : stealthSecret G e sx.scanPubkey sx.spendPubkey = some (sharedS,paid)
  ephem : secretToPublicKey G e = some q.P
  script : q.scriptPubKey = scriptForKey (E.hash160 paid)
  narr : q.narr = C.encrypt sharedS (q.P.take 16) q.sNarr
  fresh : s.haveKey (E.hash160 paid) = false

def Only (G : EcGroup P) (E : KeyEnv) (q : StealthCall) (sx : CStealthAddress) (vout : List CTxOut)
    (s : KeyWallet) : Prop :=
  ∀ y ∈ s.stealthAddresses, ∀ sh p, paidKey G q.P y = some (sh,p) →
    (∃ out ∈ vout, keyDestination E out.scriptPubKey = some (p.getID E)) → y = sx

variable {mk d f e sharedS paid : List UInt8} {sx : CStealthAddress} {q : StealthCall} {s : KeyWallet}

section
variable (hO : OpenSsl G E C) (h : Sends G E C mk d f e sharedS paid sx q s)
include hO h

theorem sends_sent :
    Sent G d f e sharedS paid :=
  sent_of_sender hO.cyclic h.owns.scanPubkey h.owns.spendPubkey h.secret

theorem sends_paid :
    paidKey G q.P sx = some (sharedS,.set paid) ∧ (CPubKey.set paid).getID E = E.hash160 paid := by
  have hs := sends_sent hO h
  refine ⟨paid_key_found hO hs h.ephem h.scanLength h.owns.scanSecret
    h.owns.spendPubkey,?_⟩
  exact congrArg E.hash160 (pubkey_of_secret hO.cyclic (spend_key hO.cyclic hs))

end

theorem sends_decrypts (hO : OpenSsl G E C) (hsha : ∀ b, (G.sha256 b).length = 32)
    (h : Sends G E C mk d f e sharedS paid sx q s) :
    decryptNarr C sharedS q.P q.narr = some q.sNarr ∧ q.narr ≠ [] := by
  have hlen : sharedS.length = walletCryptoKeySize := by
    rw [(sends_sent hO h).hash]
    exact hsha _
  have hdec := hO.cipher.decrypts sharedS (q.P.take 16) q.sNarr hlen
  rw [← h.narr] at hdec
  refine ⟨hdec,?_⟩
  intro hnil
  rw [hnil, hO.cipher.empty] at hdec
  cases hdec

/-- The wallet comes to the key while it searches: it is locked, or it makes the secret and
the database takes it. -/
def Opens (G : EcGroup P) (fWritten : Uint160 → Bool) (E : KeyEnv) (d f e paid : List UInt8)
    (s : KeyWallet) : Prop :=
  s.isLocked = true ∨ 256^31 ≤ spendNumber G d f e ∧ fWritten (E.hash160 paid) = true

variable (fWritten : Uint160 → Bool)

theorem read_narration_match (decrypts : List UInt8 → List UInt8 → List UInt8 → Bool)
    {sShared vchEphemPK narr : List UInt8} (hlen : narr.length < 2^32)
    (hd : decrypts sShared vchEphemPK narr = true) (s : KeyWallet) :
    (readNarration decrypts sShared vchEphemPK (0x6a::CScript.push narr) s).fMatch = true := by
  obtain ⟨op,hop⟩ := get_op_push narr [] hlen
  rw [List.append_nil] at hop
  unfold readNarration
  rw [get_op_return]
  dsimp only
  rw [hop]
  dsimp only
  split
  · rfl
  · exact hd

theorem add_key_result (hready : Ready E C mk s) (hl : s.isLocked = false) (key : CKey) (fW : Bool) :
    (addKey E C key fW s).1 = fW := by
  unfold addKey CCryptoKeyStore.addKeyPubKey
  rcases hready with hc | ⟨pass,r,hc⟩
  · rw [hc.plain, Bool.not_false, if_pos rfl]
  · have hm := master_of_open E C hc hl
    unfold encryptSecret CCryptoKeyStore.addCryptedKey
    rw [hc.crypted, Bool.not_true, if_neg (by decide), if_neg (by rw [hl]; decide),
      if_pos (by rw [hm]; exact hc.sized), Option.bind_some, set_crypted _ hc.crypted]
    rfl

theorem receive_open (hO : OpenSsl G E C) (h : Sends G E C mk d f e sharedS paid sx q s)
    (hopen : s.isLocked = false) (t : KeyWallet) (hl : t.isLocked = false) (R : Receipt)
    (rest : CScript) : ∃ key : CKey, receiveStealth G E C R q.P sharedS (.set paid) sx rest t =
      if 256^31 ≤ spendNumber G d f e then
        if (addKey E C key (R.fWritten (E.hash160 paid)) t).1 then
          some (readNarration R.decrypts sharedS q.P rest (addKey E C key (R.fWritten (E.hash160 paid)) t).2)
        else some ⟨false,rest,(addKey E C key (R.fWritten (E.hash160 paid)) t).2⟩
      else some ⟨false,rest,t⟩ := by
  have hs := sends_sent hO h
  have hspend : sx.spendSecret = f := by
    rw [h.owns.spendSecret, hopen, if_neg (by decide)]
  have hsp := shared_to_spend_sent hO.order hs
  unfold receiveStealth
  rw [if_neg (by rw [hl]; decide), hspend,
    if_neg (not_not.mpr (show f.length = ecSecretSize from h.spendLength))]
  by_cases hbig : 256^31 ≤ spendNumber G d f e
  · obtain ⟨key,hkey,hpub,hset,hget⟩ := paid_secret hO hs hbig
    have hid : (key.getPubKey E).getID E = E.hash160 paid := by
      rw [hget]
      exact (sends_paid hO h).2
    have hvalid : (key.getPubKey E).isValid = true := by
      rw [hget]
      exact code_valid hO.cyclic hpub
    refine ⟨key,?_⟩
    rw [hkey, if_pos hbig]
    dsimp only
    rw [hpub, Option.isNone_some, if_neg (by decide), hset]
    dsimp only
    rw [hvalid, Bool.not_true, if_neg (by decide), hid]
  · rw [hsp, if_neg hbig]
    exact ⟨⟨List.replicate 31 0++[1],true,by decide⟩,(if_neg hbig).symm⟩

theorem receive_opens (hO : OpenSsl G E C) (hsha : ∀ b, (G.sha256 b).length = 32)
    (h : Sends G E C mk d f e sharedS paid sx q s) (hlen : q.narr.length < 2^32)
    (ho : Opens G fWritten E d f e paid s) : ∃ r, receiveStealth G E C (receipt C fWritten) q.P sharedS
      (.set paid) sx (0x6a::CScript.push q.narr) s = some r ∧ r.fMatch = true := by
  have hd : (receipt C fWritten).decrypts sharedS q.P q.narr = true := by
    change (decryptNarr C sharedS q.P q.narr).isSome = true
    rw [(sends_decrypts hO hsha h).1]
    rfl
  by_cases hl : s.isLocked = true
  · unfold receiveStealth
    rw [if_pos hl]
    cases s.addCryptedKey E (.set paid) [] with
    | none => exact ⟨_,rfl,read_narration_match _ hlen hd _⟩
    | some k => exact ⟨_,rfl,read_narration_match _ hlen hd _⟩
  · obtain ⟨hbig,hw⟩ := ho.resolve_left hl
    rw [Bool.not_eq_true] at hl
    obtain ⟨key,heq⟩ := receive_open hO h hl s hl (receipt C fWritten) (0x6a::CScript.push q.narr)
    have hadd := add_key_result h.ready hl key ((receipt C fWritten).fWritten (E.hash160 paid))
    have hwritten : (receipt C fWritten).fWritten (E.hash160 paid) = true := hw
    rw [hwritten] at hadd heq
    rw [if_pos hbig, if_pos hadd] at heq
    exact ⟨_,heq,read_narration_match _ hlen hd _⟩

theorem receive_closed (hO : OpenSsl G E C) (h : Sends G E C mk d f e sharedS paid sx q s)
    (ho : ¬Opens G fWritten E d f e paid s) {t : KeyWallet} (hl : t.isLocked = false)
    {rest : CScript} {r : Search}
    (hr : receiveStealth G E C (receipt C fWritten) q.P sharedS (.set paid) sx rest t = some r) :
    r.fMatch = false ∧ r.wallet.isLocked = false ∧
        r.wallet.stealthAddresses = t.stealthAddresses := by
  rw [Opens, not_or] at ho
  obtain ⟨hopen,hclosed⟩ := ho
  rw [Bool.not_eq_true] at hopen
  obtain ⟨key,heq⟩ := receive_open hO h hopen t hl (receipt C fWritten) rest
  rw [heq] at hr
  split at hr
  · rename_i hbig
    have hw : (receipt C fWritten).fWritten (E.hash160 paid) = false := by
      rw [← Bool.not_eq_true]
      exact fun hw => hclosed ⟨hbig,hw⟩
    rw [hw] at hr
    have hadd : (addKey E C key false t).1 = false := by
      unfold addKey
      split
      · rfl
      · rfl
    rw [hadd, if_neg (by decide)] at hr
    cases hr
    exact ⟨rfl,(add_key_locked E C key false t).trans hl,add_key_addresses E C key false t⟩
  · cases hr
    exact ⟨rfl,hl,rfl⟩

end Search

section Loops
variable {P : Type} {G : EcGroup P} {E : KeyEnv} {C : Cipher} (fWritten : Uint160 → Bool)
variable {mk d f e sharedS paid : List UInt8} {sx : CStealthAddress} {q : StealthCall} {s : KeyWallet}
variable (hO : OpenSsl G E C) (h : Sends G E C mk d f e sharedS paid sx q s) {vout : List CTxOut}
  (honly : Only G E q sx vout s)
include hO h honly

theorem match_only {y : CStealthAddress} (hy : y ∈ s.stealthAddresses) {sh : List UInt8}
    {p : CPubKey} (hp : paidKey G q.P y = some (sh,p))
    (hid : ∃ out ∈ vout, keyDestination E out.scriptPubKey = some (p.getID E)) :
    y = sx ∧ sh = sharedS ∧ p = .set paid ∧ p.getID E = E.hash160 paid := by
  have hyx := honly y hy sh p hp hid
  obtain ⟨hpaid,hget⟩ := sends_paid hO h
  rw [hyx, hpaid] at hp
  cases hp
  exact ⟨hyx,rfl,rfl,hget⟩

theorem address_miss {id : Uint160}
    (hid : ∃ out ∈ vout, keyDestination E out.scriptPubKey = some id) (hne : id ≠ E.hash160 paid)
    (k : ℕ) (sxs : List CStealthAddress) (hsub : ∀ y ∈ sxs, y ∈ s.stealthAddresses) (rest : CScript)
    (m : MapValue) :
    addressLoop G E C fWritten q.P id k sxs rest s m = some (⟨false,rest,s⟩,m) := by
  induction sxs with
  | nil => rfl
  | cons y ys ih =>
    have hrest := ih fun z hz => hsub z (List.mem_cons_of_mem y hz)
    rw [addressLoop]
    cases hp : paidKey G q.P y with
    | none => exact hrest
    | some x =>
      obtain ⟨sh,p⟩ := x
      dsimp only
      by_cases hmatch : p.getID E ≠ id
      · rw [if_pos hmatch]
        exact hrest
      · rw [not_not] at hmatch
        subst hmatch
        have hfound := match_only hO h honly (hsub y List.mem_cons_self) hp hid
        exact absurd hfound.2.2.2 hne

theorem address_hit (hid : ∃ out ∈ vout, keyDestination E out.scriptPubKey = some (E.hash160 paid))
    (k : ℕ) {sxs : List CStealthAddress} (hsub : ∀ y ∈ sxs, y ∈ s.stealthAddresses) (hsx : sx ∈ sxs)
    {rest : CScript} (m : MapValue) {r : Search}
    (hr : receiveStealth G E C (receipt C fWritten) q.P sharedS (.set paid) sx rest s = some r)
    (hmatch : r.fMatch = true) :
    addressLoop G E C fWritten q.P (E.hash160 paid) k sxs rest s m =
      some (r,note C sharedS q.P rest k m) := by
  obtain ⟨hpaid,hget⟩ := sends_paid hO h
  induction sxs with
  | nil => cases hsx
  | cons y ys ih =>
    rw [addressLoop]
    by_cases hy : y = sx
    · rw [hy, hpaid]
      dsimp only
      rw [if_neg (not_not.mpr hget), hr, Option.bind_some, if_pos hmatch]
    · have hrest := ih (fun z hz => hsub z (List.mem_cons_of_mem y hz))
        ((List.mem_cons.mp hsx).resolve_left fun heq => hy heq.symm)
      cases hp : paidKey G q.P y with
      | none => exact hrest
      | some x =>
        obtain ⟨sh,p⟩ := x
        dsimp only
        by_cases hid' : p.getID E ≠ E.hash160 paid
        · rw [if_pos hid']
          exact hrest
        · rw [not_not] at hid'
          have hfound := match_only hO h honly (hsub y List.mem_cons_self) hp
            (by rw [hid']; exact hid)
          exact absurd hfound.1 hy

/-- The search passes the outputs for other keys and stops at the first that pays the key. -/
theorem other_hit (i n k : ℕ) {outs : List CTxOut} (hsub : ∀ out ∈ outs, out ∈ vout) {out : CTxOut}
    (hk : outs[k]? = some out) (hne : n+k ≠ i)
    (hdest : keyDestination E out.scriptPubKey = some (E.hash160 paid))
    (hfirst : ∀ j < k, ∀ o, outs[j]? = some o → keyDestination E o.scriptPubKey ≠ some (E.hash160 paid))
    {rest : CScript} (m : MapValue) {r : Search}
    (hr : receiveStealth G E C (receipt C fWritten) q.P sharedS (.set paid) sx rest s = some r)
    (hmatch : r.fMatch = true) :
    otherLoop G E C fWritten q.P i n outs rest s m =
      some (r.wallet,note C sharedS q.P rest (n+k) m) := by
  induction outs generalizing n k with
  | nil => cases hk
  | cons o outs ih =>
    rw [otherLoop]
    cases k with
    | zero =>
      rw [List.getElem?_cons_zero, Option.some_inj] at hk
      subst hk
      have hid : ∃ o' ∈ vout, keyDestination E o'.scriptPubKey = some (E.hash160 paid) :=
        ⟨o,hsub o List.mem_cons_self,hdest⟩
      rw [Nat.add_zero] at hne ⊢
      rw [if_neg hne, hdest]
      dsimp only
      rw [if_neg (by rw [h.fresh]; decide), address_hit fWritten hO h honly hid n
        (fun y hy => hy) h.owns.mem m hr hmatch, Option.bind_some, if_pos hmatch]
      rfl
    | succ k =>
      have ho := hfirst 0 (Nat.succ_pos k) o List.getElem?_cons_zero
      have hnext := ih (n+1) k (fun x hx => hsub x (List.mem_cons_of_mem o hx)) hk (by omega)
        fun j hj x hx => hfirst (j+1) (Nat.succ_lt_succ hj) x hx
      have hsame : n+1+k = n+(k+1) := by omega
      rw [hsame] at hnext
      split
      · exact hnext
      · cases hd : keyDestination E o.scriptPubKey with
        | none => exact hnext
        | some id =>
          have hid : id ≠ E.hash160 paid := fun heq => ho (by rw [hd, heq])
          dsimp only
          split
          · exact hnext
          · rw [address_miss fWritten hO h honly ⟨o,hsub o List.mem_cons_self,hd⟩ hid n
              s.stealthAddresses (fun y hy => hy) rest m]
            exact hnext

theorem address_closed (ho : ¬Opens G fWritten E d f e paid s) {id : Uint160}
    (hid : ∃ out ∈ vout, keyDestination E out.scriptPubKey = some id) {k : ℕ}
    {sxs : List CStealthAddress} (hsub : ∀ y ∈ sxs, y ∈ s.stealthAddresses) (rest : CScript)
    (t : KeyWallet) (hl : t.isLocked = false) (haddr : t.stealthAddresses = s.stealthAddresses)
    {m : MapValue} {x : Search × MapValue}
    (hx : addressLoop G E C fWritten q.P id k sxs rest t m = some x) :
    x.1.fMatch = false ∧ x.1.wallet.isLocked = false ∧
      x.1.wallet.stealthAddresses = s.stealthAddresses ∧ x.2 = m := by
  induction sxs generalizing rest t with
  | nil =>
    cases hx
    exact ⟨rfl,hl,haddr,rfl⟩
  | cons y ys ih =>
    have hrest := fun z hz => hsub z (List.mem_cons_of_mem y hz)
    rw [addressLoop] at hx
    cases hp : paidKey G q.P y with
    | none =>
      rw [hp] at hx
      exact ih hrest rest t hl haddr hx
    | some z =>
      obtain ⟨sh,p⟩ := z
      rw [hp] at hx
      dsimp only at hx
      by_cases hmatch : p.getID E ≠ id
      · rw [if_pos hmatch] at hx
        exact ih hrest rest t hl haddr hx
      · rw [if_neg hmatch] at hx
        rw [not_not] at hmatch
        subst hmatch
        obtain ⟨rfl,rfl,rfl,_⟩ := match_only hO h honly (hsub y List.mem_cons_self) hp hid
        obtain ⟨r,hr,hx⟩ := Option.bind_eq_some_iff.mp hx
        obtain ⟨hno,hl',haddr'⟩ := receive_closed fWritten hO h ho hl hr
        rw [hno, if_neg (by decide)] at hx
        exact ih hrest r.rest r.wallet hl' (haddr'.trans haddr) hx

theorem other_closed (ho : ¬Opens G fWritten E d f e paid s) (i n : ℕ) {outs : List CTxOut}
    (hsub : ∀ out ∈ outs, out ∈ vout) (rest : CScript) (t : KeyWallet) (hl : t.isLocked = false)
    (haddr : t.stealthAddresses = s.stealthAddresses) {m : MapValue} {x : KeyWallet × MapValue}
    (hx : otherLoop G E C fWritten q.P i n outs rest t m = some x) : x.2 = m := by
  induction outs generalizing n rest t with
  | nil =>
    cases hx
    rfl
  | cons o outs ih =>
    have hrest := fun z hz => hsub z (List.mem_cons_of_mem o hz)
    rw [otherLoop] at hx
    split at hx
    · exact ih (n+1) hrest rest t hl haddr hx
    · cases hd : keyDestination E o.scriptPubKey with
      | none =>
        rw [hd] at hx
        exact ih (n+1) hrest rest t hl haddr hx
      | some id =>
        rw [hd] at hx
        dsimp only at hx
        split at hx
        · exact ih (n+1) hrest rest t hl haddr hx
        · obtain ⟨⟨r,m'⟩,hy,hx⟩ := Option.bind_eq_some_iff.mp hx
          rw [haddr] at hy
          obtain ⟨hno,hl',haddr',hm⟩ := address_closed fWritten hO h honly ho
            ⟨o,hsub o List.mem_cons_self,hd⟩ (fun y hy => hy) rest t hl haddr
            hy
          dsimp only at hno hl' haddr' hm hx
          rw [hno, if_neg (by decide)] at hx
          rw [hm] at hx
          exact ih (n+1) hrest r.rest r.wallet hl' haddr' hx

end Loops

section Noted
variable {P : Type} {G : EcGroup P} {E : KeyEnv} {C : Cipher} (fWritten : Uint160 → Bool)
variable {mk d f e sharedS paid : List UInt8} {sx : CStealthAddress} {q : StealthCall} {s : KeyWallet}

theorem sends_key_length (hO : OpenSsl G E C) (h : Sends G E C mk d f e sharedS paid sx q s) :
    q.P.length = 33 := by
  obtain ⟨hk,hcode⟩ := (public_key_iff hO.cyclic e q.P).mp h.ephem
  rw [← hcode]
  exact hO.cyclic.sized _ hk

theorem script_p_cons (hne : q.narr ≠ []) :
    q.scriptP = 0x6a::(CScript.push q.P++0x6a::CScript.push q.narr) := by
  rw [StealthCall.scriptP, if_pos (List.length_pos_iff.mpr hne)]

theorem ephemeral_script_p (hlen : q.P.length = 33) (hne : q.narr ≠ []) :
    ephemeral q.scriptP = some (q.P,0x6a::CScript.push q.narr) := by
  obtain ⟨op,hop⟩ := get_op_push q.P (0x6a::CScript.push q.narr) (by rw [hlen]; decide)
  rw [script_p_cons hne]
  unfold ephemeral
  rw [get_op_return]
  dsimp only
  rw [if_neg (not_not.mpr rfl), hop]
  dsimp only
  rw [if_pos hlen]

structure Built (q : StealthCall) (tx : CTransaction) (i : ℕ) (mapValue mapValue' : MapValue) :
    Prop where
  carried : Carried tx.vout i ⟨1,q.scriptP⟩
  short : q.narr.length < 2^32
  recorded : mapValue' = recordNarr q.scriptPubKey q.nValue q.sNarr 0 tx.vout mapValue

theorem stealth_built (hne : q.narr ≠ []) (hscript : ∃ dest, q.scriptPubKey = setDestination dest)
    {B : Builder} {nTurns : ℕ} {shuffled : List CTxOut} (hperm : shuffled.Perm q.vecSend) {c : Call}
    (hB : Destined B c.coinControl) {mapValue mapValue' : MapValue} {passes : ℕ → Pass}
    {pool pool' : PoolWallet} {tx : CTransaction} {fee : ℤ}
    (hbuilt : createStealthTransaction B nTurns q shuffled c mapValue passes pool =
      some ((.created tx fee,pool'),mapValue')) :
    ∃ i, Built q tx i mapValue mapValue' := by
  obtain ⟨⟨o,p⟩,hrun,heq⟩ := Option.map_eq_some_iff.mp hbuilt
  cases o with
  | refused r => cases heq
  | noKey => cases heq
  | outOfRange => cases heq
  | created tx' fee' =>
    dsimp only at heq
    rw [if_pos (List.length_pos_iff.mpr hne)] at heq
    cases heq
    obtain ⟨harr,hsize⟩ := created_arranged B nTurns { c with vecSend := shuffled } hB passes pool _ _ _ hrun
    obtain ⟨i,hi⟩ := arranged_carried ⟨q.nValue,q.scriptPubKey⟩ ⟨1,q.scriptP⟩ shuffled _ hscript hperm harr
    refine ⟨i,hi,?_,rfl⟩
    have hlen := script_le_serialize (List.mem_of_getElem? hi.carrier)
    rw [script_p_cons hne] at hlen
    have hpush := length_le_push q.narr
    have hmax : maxBlockSizeGen/5 = 600000 := rfl
    simp only [List.length_cons, List.length_append] at hlen
    omega

theorem insert_key_inj {j k : ℕ} {sNarr : List UInt8}
    (heq : (AList.insert (narrKey j) sNarr ∅ : MapValue) = AList.insert (narrKey k) sNarr ∅) :
    j = k := by
  have hmem : narrKey j ∈ (AList.insert (narrKey k) sNarr ∅ : MapValue) := by
    rw [← heq]
    exact (AList.mem_insert _).mpr (Or.inl rfl)
  have hkey := ((AList.mem_insert _).mp hmem).resolve_right (AList.notMem_empty _)
  exact Int.ofNat_inj.mp (narr_key_inj hkey)

variable (hO : OpenSsl G E C) (hsha : ∀ b, (G.sha256 b).length = 32)
  (h : Sends G E C mk d f e sharedS paid sx q s)
include hO hsha h

theorem find_carried {tx : CTransaction} {i : ℕ} {mapValue mapValue' : MapValue}
    (hb : Built q tx i mapValue mapValue') : findStealthTransactions G E C fWritten tx s =
      otherLoop G E C fWritten q.P i 0 tx.vout (0x6a::CScript.push q.narr) s ∅ := by
  have hne := (sends_decrypts hO hsha h).2
  have hi : i ∈ List.range tx.vout.length :=
    List.mem_range.mpr (List.getElem?_eq_some_iff.mp hb.carried.carrier).1
  have hsilent : ∀ j, j ≠ i → Silent tx.vout j := by
    intro j hj out hout
    obtain ⟨dest,hdest⟩ := hb.carried.destined j hj out hout
    rw [hdest]
    exact destination_silent dest
  rw [findStealthTransactions, output_alone G E C fWritten List.nodup_range hi hsilent,
    outputLoop, hb.carried.carrier, Option.bind_some, ephemeral_script_p (sends_key_length hO h) hne]
  dsimp only
  cases otherLoop G E C fWritten q.P i 0 tx.vout (0x6a::CScript.push q.narr) s ∅ with
  | none => rfl
  | some x => rfl

theorem note_sent (hlen : q.narr.length < 2^32) (k : ℕ) (m : MapValue) :
    note C sharedS q.P (0x6a::CScript.push q.narr) k m = m.insert (narrKey k) q.sNarr := by
  obtain ⟨hdec,hne⟩ := sends_decrypts hO hsha h
  rw [note, narration_push hne hlen, Option.bind_some, hdec]

section
variable {tx : CTransaction} {i : ℕ} {mapValue mapValue' : MapValue}
  (hb : Built q tx i mapValue mapValue') (honly : Only G E q sx tx.vout s)
include i mapValue mapValue' hb honly

/-- Where the wallet comes to the key the narration stands under the first output that pays it. -/
theorem find_first
    (ho : Opens G fWritten E d f e paid s) {k : ℕ} {out : CTxOut} (hk : tx.vout[k]? = some out)
    (hdest : keyDestination E out.scriptPubKey = some (E.hash160 paid))
    (hfirst : ∀ j < k, ∀ o, tx.vout[j]? = some o →
      keyDestination E o.scriptPubKey ≠ some (E.hash160 paid)) :
    ∃ s', findStealthTransactions G E C fWritten tx s =
      some (s',AList.insert (narrKey k) q.sNarr ∅) := by
  have hne : 0+k ≠ i := by
    rintro rfl
    rw [Nat.zero_add] at hb
    rw [hb.carried.carrier, Option.some_inj] at hk
    rw [← hk, script_p_cons (sends_decrypts hO hsha h).2, key_destination_return] at hdest
    cases hdest
  obtain ⟨r,hr,hmatch⟩ := receive_opens fWritten hO hsha h hb.short ho
  refine ⟨r.wallet,?_⟩
  rw [find_carried fWritten hO hsha h hb,
    other_hit fWritten hO h honly i 0 k (fun o ho => ho) hk hne hdest hfirst ∅ hr
      hmatch, note_sent hO hsha h hb.short, Nat.zero_add]

/-- Recipient and sender note the narration under the payment exactly where the wallet comes
to its key and no output before it pays the same key. -/
theorem stealth_noted_iff {k : ℕ}
    (hk : tx.vout[k]? = some ⟨q.nValue,q.scriptPubKey⟩) :
    ((∃ s', findStealthTransactions G E C fWritten tx s =
        some (s',AList.insert (narrKey k) q.sNarr ∅)) ∧
      mapValue' = mapValue.insert (narrKey k) q.sNarr) ↔
    Opens G fWritten E d f e paid s ∧ ∀ j < k, ∀ o, tx.vout[j]? = some o →
      keyDestination E o.scriptPubKey ≠ some (E.hash160 paid) := by
  have hdest : keyDestination E q.scriptPubKey = some (E.hash160 paid) := by
    rw [h.script]
    exact key_destination_key _ E
  constructor
  · rintro ⟨⟨s',hfind⟩,_⟩
    have ho : Opens G fWritten E d f e paid s := by
      by_contra hno
      have hl : s.isLocked = false := by
        rw [← Bool.not_eq_true]
        exact fun hl => hno (Or.inl hl)
      rw [find_carried fWritten hO hsha h hb] at hfind
      have hempty := other_closed fWritten hO h honly hno i 0 (fun o ho => ho) _ s hl rfl
         hfind
      have hmem : narrKey k ∈ (AList.insert (narrKey k) q.sNarr ∅ : MapValue) :=
        (AList.mem_insert _).mpr (Or.inl rfl)
      rw [show (AList.insert (narrKey k) q.sNarr ∅ : MapValue) = ∅ from hempty] at hmem
      exact AList.notMem_empty _ hmem
    refine ⟨ho,?_⟩
    by_contra hearlier
    -- the first output that pays the key has the narration, and comes before
    have hex : ∃ j, j < k ∧ ∃ o, tx.vout[j]? = some o ∧
        keyDestination E o.scriptPubKey = some (E.hash160 paid) := by
      by_contra hnone
      exact hearlier fun j hj o hout hpays => hnone ⟨j,hj,o,hout,hpays⟩
    classical
    obtain ⟨hj,o,hout,hpays⟩ := Nat.find_spec hex
    obtain ⟨s'',hfind'⟩ := find_first fWritten hO hsha h hb honly ho
       hout hpays (fun j' hj' o' hout' hpays' =>
        Nat.find_min hex hj' ⟨hj'.trans hj,o',hout',hpays'⟩)
    rw [hfind, Option.some_inj] at hfind'
    have heq := insert_key_inj (congrArg Prod.snd hfind')
    omega
  · rintro ⟨ho,hfirst⟩
    refine ⟨find_first fWritten hO hsha h hb honly ho hk hdest hfirst,?_⟩
    rw [hb.recorded, record_first q.sNarr 0 k mapValue hk, Nat.zero_add]
    intro j hj o hout heq
    exact hfirst j hj o hout (by rw [heq]; exact hdest)

end

end Noted

section Claim
variable {P : Type} (G : EcGroup P) (E : KeyEnv) (C : Cipher) (fWritten : Uint160 → Bool)

structure NarrationsEnd : Prop where
  /-- every key names an output unless the first output holds a narration in clear -/
  named : ∀ tx s x, findStealthTransactions G E C fWritten tx s = some x →
    ((∀ key ∈ x.2, ∃ k < tx.vout.length, key = narrKey k) ↔ plainAt tx.vout 0 = none)
  /-- a narration in clear is noted under the payment before it, by every wallet -/
  plain : ∀ (B : Builder) (nTurns : ℕ) (dest : CTxDestination) (nValue : ℤ) (sNarr : List UInt8)
    (c : Call) (passes : ℕ → Pass) (pool pool' : PoolWallet) (tx : CTransaction) (fee : ℤ),
    sNarr ≠ [] → Destined B c.coinControl →
    createTransaction B nTurns (setDestination dest) nValue sNarr c passes pool =
      some (.created tx fee,pool') →
    ∃ before, Behind tx.vout before ⟨nValue,setDestination dest⟩ sNarr ∧
      ∀ s, findStealthTransactions G E C fWritten tx s =
        some (s,AList.insert (narrKey before.length) sNarr ∅)
  /-- an encrypted one is noted by both sides under the payment where the wallet of the
  recipient comes to the key and no output before the payment pays the same key -/
  stealth : ∀ (mk d f e sharedS paid : List UInt8) (sx : CStealthAddress) (q : StealthCall)
    (s : KeyWallet) (B : Builder) (nTurns : ℕ) (shuffled : List CTxOut) (c : Call)
    (mapValue mapValue' : MapValue) (passes : ℕ → Pass) (pool pool' : PoolWallet) (tx : CTransaction)
    (fee : ℤ) (k : ℕ),
    Sends G E C mk d f e sharedS paid sx q s → Destined B c.coinControl → shuffled.Perm q.vecSend →
    createStealthTransaction B nTurns q shuffled c mapValue passes pool =
      some ((.created tx fee,pool'),mapValue') →
    Only G E q sx tx.vout s → tx.vout[k]? = some ⟨q.nValue,q.scriptPubKey⟩ →
    (((∃ s', findStealthTransactions G E C fWritten tx s =
        some (s',AList.insert (narrKey k) q.sNarr ∅)) ∧
      mapValue' = mapValue.insert (narrKey k) q.sNarr) ↔
    Opens G fWritten E d f e paid s ∧ ∀ j < k, ∀ o, tx.vout[j]? = some o →
      keyDestination E o.scriptPubKey ≠ some (E.hash160 paid))

/-- Narrations end on the output that they belong to exactly under the conditions named. -/
theorem narrations_end (hO : OpenSsl G E C) (hsha : ∀ b, (G.sha256 b).length = 32) :
    NarrationsEnd G E C fWritten where
  named tx s x h := keys_name_outputs G E C fWritten h
  plain B nTurns dest nValue sNarr c passes pool pool' tx fee hne hB h := by
    obtain ⟨before,hbehind⟩ := plain_arranged hne hB h
    exact ⟨before,hbehind,plain_found G E C fWritten hne hbehind⟩
  stealth mk d f e sharedS paid sx q s B nTurns shuffled c mapValue mapValue' passes pool pool' tx fee k
      hsends hB hperm h honly hk := by
    obtain ⟨i,hb⟩ := stealth_built (sends_decrypts hO hsha hsends).2 ⟨.keyID _,hsends.script⟩
      hperm hB h
    exact stealth_noted_iff fWritten hO hsha hsends hb honly hk

section Payment
open AvailableCoins CoinSelection PaymentRuns WalletOpen

def recipient : KeyWallet := { KeyWallet.start with stealthAddresses := [sampleAddress] }

/-- The key that the payment with the ephemeral secret 3 goes to. -/
def samplePaid : List UInt8 := 2::(List.replicate 31 1++[2])

def sampleStealth : StealthCall where
  scriptPubKey := scriptForKey (numberKeys.hash160 samplePaid)
  nValue := 5*coin
  P := 2::sampleSecret 3
  narr := List.replicate 32 1++[0x78]
  sNarr := [0x78]

theorem sample_sends : Sends (numberCurve (List.replicate 32 1)) numberKeys sampleCipher []
    (sampleSecret 5) (sampleSecret 1) (sampleSecret 3) (List.replicate 32 1) samplePaid sampleAddress
    sampleStealth recipient where
  ready := Or.inl ⟨rfl,rfl,rfl,rfl,fun id key h => by cases h⟩
  owns := ⟨List.pairwise_singleton _ _,List.mem_singleton_self _,by decide +kernel,by decide +kernel,
    rfl,rfl⟩
  scanLength := rfl
  spendLength := rfl
  secret := by decide +kernel
  ephem := by decide +kernel
  script := rfl
  narr := rfl
  fresh := rfl

def stealthTx : CTransaction :=
  ⟨1,100,[⟨⟨5,0⟩,[],uintMax⟩],
    ⟨20000*coin+darksendFee-5*coin-1-10000,scriptForKey 7⟩::sampleStealth.vecSend,0⟩

def sampleCall : Call where
  vecSend := sampleStealth.vecSend
  wtxNew := ⟨1,100,[],[],0⟩
  coinControl := some ⟨some (scriptForKey 7),[]⟩
  coinType := .allCoins
  useIX := false
  reservekey := 0

theorem stealth_pass : CreateTransaction.pass shallowBuilder sampleCall (5*coin+1) stillPass 10000 .start =
    .ends (.created stealthTx 10000,.start) := by
  have hselect : CreateTransaction.selectCoins shallowBuilder stillPass (5*coin+1+10000)
      sampleCall.wtxNew.nTime sampleCall.coinControl .allCoins false =
        some (true,⟨{(shallowTx,0)},20000*coin+darksendFee⟩) := rfl
  have hfill : fillOutputs shallowBuilder sampleCall.reservekey stillPass sampleCall.coinControl
      (20000*coin+darksendFee-(5*coin+1)-10000) sampleCall.vecSend .start =
        some (stealthTx.vout,.start) := rfl
  have hsign : signAll stillPass.signature [(shallowTx,0)] 0 { sampleCall.wtxNew with
      vin := [(shallowTx,0)].map fun x => ⟨⟨shallowBuilder.env.hashTx x.1.tx,x.2⟩,[],uintMax⟩
      vout := stealthTx.vout } = some stealthTx := rfl
  have hsize : stealthTx.serialize.length = 202 := by decide +kernel
  unfold CreateTransaction.pass
  rw [hselect]
  dsimp only
  rw [hfill, order_singleton]
  dsimp only
  rw [hsign]
  dsimp only
  rw [hsize]
  rfl

theorem stealth_created : createStealthTransaction shallowBuilder 1 sampleStealth
    sampleStealth.vecSend sampleCall ∅ (fun _ => stillPass) .start =
      some ((.created stealthTx 10000,.start),AList.insert (narrKey 1) [0x78] ∅) := by
  have hsend : sendValue (sampleStealth.vecSend.map CTxOut.nValue) 0 = some (5*coin+1) := rfl
  have hrun : CreateTransaction.createTransaction shallowBuilder 1
      { sampleCall with vecSend := sampleStealth.vecSend } (fun _ => stillPass) .start =
        some (.created stealthTx 10000,.start) := by
    unfold CreateTransaction.createTransaction
    rw [hsend]
    dsimp only
    rw [if_neg (by exact Bool.false_ne_true)]
    unfold Raising.loop
    rw [show CreateTransaction.pass shallowBuilder { sampleCall with
        vecSend := sampleStealth.vecSend } (5*coin+1) stillPass shallowBuilder.nTransactionFee .start =
      .ends (.created stealthTx 10000,.start) from stealth_pass]
  unfold createStealthTransaction
  rw [hrun]
  rfl

/-- A payment that was built, and the recipient who finds its narration. -/
theorem narrations_end_sample :
    NarrationsEnd (numberCurve (List.replicate 32 1)) numberKeys sampleCipher (fun _ => true) ∧
    ∃ s, findStealthTransactions (numberCurve (List.replicate 32 1)) numberKeys sampleCipher
      (fun _ => true) stealthTx recipient = some (s,AList.insert (narrKey 1) [0x78] ∅) := by
  have h := narrations_end (numberCurve (List.replicate 32 1)) numberKeys sampleCipher (fun _ => true)
    (number_open_ssl _) fun _ => rfl
  have hdestined : Destined shallowBuilder sampleCall.coinControl :=
    ⟨fun _ => ⟨.none,rfl⟩,fun script hs => ⟨.keyID 7,(Option.some.inj hs).symm⟩⟩
  have honly : Only (numberCurve (List.replicate 32 1)) numberKeys sampleStealth sampleAddress
      stealthTx.vout recipient := fun y hy _ _ _ _ => List.mem_singleton.mp hy
  have hopens : Opens (numberCurve (List.replicate 32 1)) (fun _ => true) numberKeys (sampleSecret 5)
      (sampleSecret 1) (sampleSecret 3) samplePaid recipient := Or.inr ⟨by decide +kernel,rfl⟩
  have hfirst : ∀ j < 1, ∀ o, stealthTx.vout[j]? = some o →
      keyDestination numberKeys o.scriptPubKey ≠ some (numberKeys.hash160 samplePaid) := by
    intro j hj o ho
    obtain rfl : j = 0 := by omega
    rw [← Option.some.inj ho]
    decide +kernel
  exact ⟨h,((h.stealth [] (sampleSecret 5) (sampleSecret 1) (sampleSecret 3) (List.replicate 32 1)
    samplePaid sampleAddress sampleStealth recipient shallowBuilder 1 sampleStealth.vecSend sampleCall ∅
    _ (fun _ => stillPass) .start .start stealthTx 10000 1 sample_sends hdestined
    (List.Perm.refl _) stealth_created honly rfl).mpr ⟨hopens,hfirst⟩).1⟩

end Payment

def leadingTx : CTransaction := ⟨1,0,[],[⟨0,[0x6a,2,0x6e,0x70,0x6a,1,0x78]⟩],0⟩

/-- The key of the narration names the output before the first. -/
theorem leading_narration :
    ∃ x, findStealthTransactions (numberCurve []) numberKeys sampleCipher (fun _ => true) leadingTx
        KeyWallet.start = some x ∧
      ∃ key ∈ x.2, ¬∃ k < leadingTx.vout.length, key = narrKey k := by
  refine ⟨(KeyWallet.start,AList.insert (narrKey (-1)) [0x78] ∅),rfl,narrKey (-1),
    (AList.mem_insert _).mpr (Or.inl rfl),?_⟩
  rintro ⟨k,_,hk⟩
  have hneg := narr_key_inj hk
  omega

end Claim

end SwippCore.Narrations
