import SwippCore.Key
import SwippCore.SignatureHash
import SwippCore.Lib.Sorted

/-!
# The signature cache

`CheckSig` of script.cpp with the cache of valid signatures, against `SignatureChecker::CheckSig`,
which has none.
-/

set_option autoImplicit false

namespace SwippCore.SignatureCache
open Key

structure SigData where
  hash : Uint256
  vchSig : List UInt8
  pubKey : CPubKey

/-- The arguments of `CheckSig`, and the random hashes that are drawn in it. -/
structure Call where
  vchSig : List UInt8
  vchPubKey : List UInt8
  scriptCode : CScript
  txTo : CTransaction
  nIn : ℕ
  nHashType : BitVec 32
  noCache : Bool
  rand : ℕ → Uint256

section Plain
variable (hash : List UInt8 → Uint256) (verify : CPubKey → Uint256 → List UInt8 → Bool) (c : Call)

def hashType (b : UInt8) : BitVec 32 := BitVec.ofNat 32 b.toNat

/-- `SignatureChecker::CheckSig` -/
def checkerCheckSig : Bool :=
  let pubkey := CPubKey.set c.vchPubKey
  if !pubkey.isValid then false else
  match c.vchSig.getLast? with
  | none => false
  | some back =>
    let sighash := signatureHash hash c.scriptCode c.txTo c.nIn (hashType back)
    verify pubkey sighash c.vchSig.dropLast

/-- What is looked up and verified, if the tests in front of it pass. -/
def Call.data : Option SigData :=
  let pubkey := CPubKey.set c.vchPubKey
  if !pubkey.isValid then none else
  match c.vchSig.getLast? with
  | none => none
  | some back =>
    if c.nHashType ≠ 0 ∧ c.nHashType ≠ hashType back then none
    else
      let nHashType := if c.nHashType = 0 then hashType back else c.nHashType
      some ⟨signatureHash hash c.scriptCode c.txTo c.nIn nHashType,c.vchSig.dropLast,pubkey⟩

/-- The answer that is due: the signature is good, and of the type that is asked for. -/
def answer : Bool :=
  (c.nHashType == 0 || c.vchSig.getLast?.map hashType == some c.nHashType) &&
    checkerCheckSig hash verify c

theorem answer_data : answer hash verify c =
    (c.data hash).any (fun k => verify k.pubKey k.hash k.vchSig) := by
  unfold answer checkerCheckSig Call.data
  dsimp only
  cases (CPubKey.set c.vchPubKey).isValid with
  | false => simp
  | true =>
    cases c.vchSig.getLast? with
    | none => simp
    | some back =>
      by_cases h0 : c.nHashType = 0
      · simp [h0]
      · by_cases hb : c.nHashType = hashType back
        · simp [hb]
        · simp [show ¬c.nHashType = 0#32 from h0, hb, Ne.symm hb]

end Plain

section Cache
variable [LinearOrder SigData] (probe : Uint256 → SigData) (nMaxCacheSize : ℤ)

/-- A round of the loop in `Set`: the entry behind the random hash goes, or else the first one. -/
def evict (randomHash : Uint256) (setValid : SortedSet SigData) : SortedSet SigData :=
  match (setValid.items.find? (fun k => probe randomHash ≤ k)).or setValid.first with
  | some it => setValid.erase it
  | none => setValid

/-- The loop; a round takes an entry away, so there are no more than entries. -/
def evictAll (rand : ℕ → Uint256) : ℕ → SortedSet SigData → SortedSet SigData
  | 0, s => s
  | n+1, s => if nMaxCacheSize < s.items.length then evictAll rand n (evict probe (rand n) s) else s

def set (rand : ℕ → Uint256) (k : SigData) (s : SortedSet SigData) : SortedSet SigData :=
  if nMaxCacheSize ≤ 0 then s
  else (evictAll probe nMaxCacheSize rand s.items.length s).insert k

variable (hash : List UInt8 → Uint256) (verify : CPubKey → Uint256 → List UInt8 → Bool)

def checkSig (c : Call) (s : SortedSet SigData) : Bool × SortedSet SigData :=
  match c.data hash with
  | none => (false,s)
  | some k =>
    if k ∈ s then (true,s)
    else if !verify k.pubKey k.hash k.vchSig then (false,s)
    else (true,if c.noCache then s else set probe nMaxCacheSize c.rand k s)

def run : List Call → SortedSet SigData → List Bool × SortedSet SigData
  | [], s => ([],s)
  | c::cs, s =>
    let r := checkSig probe nMaxCacheSize hash verify c s
    let t := run cs r.2
    (r.1::t.1,t.2)

theorem mem_evict {r : Uint256} {s : SortedSet SigData} {k : SigData} (h : k ∈ evict probe r s) :
    k ∈ s := by
  unfold evict at h
  split at h
  · exact ((SortedSet.mem_erase _ _ _).mp h).1
  · exact h

theorem evict_length (r : Uint256) {s : SortedSet SigData} (h : 0 < s.items.length) :
    (evict probe r s).items.length < s.items.length := by
  unfold evict
  split
  · rename_i it hit
    have hmem : it ∈ s.items := by
      rcases Option.or_eq_some_iff.mp hit with hf | ⟨-,hf⟩
      · exact List.mem_of_find?_eq_some hf
      · exact SortedSet.first_mem hf
    exact List.length_filter_lt_length_iff_exists.mpr ⟨it,hmem,by simp⟩
  · rename_i hnone
    exfalso
    exact SortedSet.first_none s (Option.or_eq_none_iff.mp hnone).2 _ (List.getElem_mem h)

theorem mem_evict_all {rand : ℕ → Uint256} {n : ℕ} {s : SortedSet SigData} {k : SigData}
    (h : k ∈ evictAll probe nMaxCacheSize rand n s) : k ∈ s := by
  induction n generalizing s with
  | zero => exact h
  | succ n ih =>
    rw [evictAll] at h
    split_ifs at h
    · exact mem_evict probe (ih h)
    · exact h

theorem evict_all_length (rand : ℕ → Uint256) {n : ℕ} {s : SortedSet SigData}
    (hm : 0 < nMaxCacheSize) (h : s.items.length ≤ n) :
    (evictAll probe nMaxCacheSize rand n s).items.length ≤ nMaxCacheSize := by
  induction n generalizing s with
  | zero =>
    rw [evictAll]
    omega
  | succ n ih =>
    rw [evictAll]
    split_ifs with hlt
    · have hdrop := evict_length probe (rand n) (s := s) (by omega)
      exact ih (by omega)
    · omega

theorem insert_length (k : SigData) (bs : List SigData) :
    (SortedSet.insertSorted k bs).length ≤ bs.length+1 := by
  induction bs with
  | nil => rfl
  | cons b bs ih =>
    rw [SortedSet.insertSorted]
    split_ifs <;> simp
    omega

/-- The entries are valid, and few. -/
structure Sound (s : SortedSet SigData) : Prop where
  valid : ∀ k ∈ s, verify k.pubKey k.hash k.vchSig = true
  size : s.items.length ≤ nMaxCacheSize.toNat+1

theorem set_sound (rand : ℕ → Uint256) {k : SigData} {s : SortedSet SigData}
    (h : Sound nMaxCacheSize verify s) (hk : verify k.pubKey k.hash k.vchSig = true) :
    Sound nMaxCacheSize verify (set probe nMaxCacheSize rand k s) := by
  unfold set
  split_ifs with hm
  · exact h
  · refine ⟨?_,?_⟩
    · intro j hj
      rcases (SortedSet.mem_insert _ _ _).mp hj with rfl | hj
      · exact hk
      · exact h.valid j (mem_evict_all probe nMaxCacheSize hj)
    · have hins := insert_length k (evictAll probe nMaxCacheSize rand s.items.length s).items
      have hev := evict_all_length probe nMaxCacheSize rand (not_le.mp hm) (Nat.le_refl s.items.length)
      change (SortedSet.insertSorted k _).length ≤ _
      omega

theorem check_sig_sound (c : Call) {s : SortedSet SigData} (h : Sound nMaxCacheSize verify s) :
    (checkSig probe nMaxCacheSize hash verify c s).1 = answer hash verify c ∧
      Sound nMaxCacheSize verify (checkSig probe nMaxCacheSize hash verify c s).2 := by
  rw [answer_data, checkSig]
  cases c.data hash with
  | none => exact ⟨rfl,h⟩
  | some k =>
    dsimp only
    by_cases hmem : k ∈ s
    · rw [if_pos hmem]
      exact ⟨(h.valid k hmem).symm,h⟩
    · rw [if_neg hmem]
      cases hv : verify k.pubKey k.hash k.vchSig with
      | false => exact ⟨hv.symm,h⟩
      | true =>
        refine ⟨hv.symm,?_⟩
        change Sound _ _ (if c.noCache then s else set probe nMaxCacheSize c.rand k s)
        split_ifs
        · exact h
        · exact set_sound probe nMaxCacheSize verify c.rand h hv

/-- In every run the cache leaves the answers as they are without it, whichever entries the
random hashes drop, and it holds at most one entry more than its size. -/
theorem cached_checks (cs : List Call) :
    (run probe nMaxCacheSize hash verify cs .empty).1 = cs.map (answer hash verify) ∧
      (run probe nMaxCacheSize hash verify cs .empty).2.items.length ≤ nMaxCacheSize.toNat+1 := by
  have hrun : ∀ s, Sound nMaxCacheSize verify s →
      (run probe nMaxCacheSize hash verify cs s).1 = cs.map (answer hash verify) ∧
        Sound nMaxCacheSize verify (run probe nMaxCacheSize hash verify cs s).2 := by
    induction cs with
    | nil => exact fun s h => ⟨rfl,h⟩
    | cons c cs ih =>
      intro s h
      obtain ⟨hc,hs⟩ := check_sig_sound probe nMaxCacheSize hash verify c h
      obtain ⟨hcs,ht⟩ := ih _ hs
      exact ⟨by rw [run, List.map_cons, hc, hcs],ht⟩
  obtain ⟨ha,hs⟩ := hrun .empty ⟨fun k hk => absurd hk (SortedSet.not_mem_empty k),Nat.zero_le _⟩
  exact ⟨ha,hs.size⟩

end Cache

end SwippCore.SignatureCache
