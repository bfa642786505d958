import SwippCore.Script
import SwippCore.Lib.CheckedReads

/-!
# Signatures in their canonical form

The check of a signature finds two numbers behind their lengths in a buffer that anybody
may send. It reads no byte outside of it, and what it accepts is just what is written for
two numbers without padding and a byte behind them. Which bytes stand for a hash type is
for another check.
-/

set_option autoImplicit false

namespace SwippCore.DerSignature
open CheckedReads

def nonCanonical (what : String) : String := "Non-canonical signature: "++what

/-- The tests of one of the two numbers, `n` bytes at `i`. -/
def derInteger (vchSig : List UInt8) (name : String) (i n : ℕ) : Run String Unit := do
  let tag ← readAt vchSig (i-2)
  refuse (tag ≠ 0x02) (nonCanonical (name++" value type mismatch"))
  refuse (n = 0) (nonCanonical (name++" length is zero"))
  let first ← readAt vchSig i
  refuse (first &&& 0x80 ≠ 0) (nonCanonical (name++" value negative"))
  if 1 < n ∧ first = 0x00 then
    let second ← readAt vchSig (i+1)
    refuse (second &&& 0x80 = 0) (nonCanonical (name++" value excessively padded"))
  else pure ()

/-- `IsDERSignature` -/
def derSignature (vchSig : List UInt8) (haveHashType : Bool) : Run String Unit := do
  refuse (vchSig.length < 9) (nonCanonical "too short")
  refuse (73 < vchSig.length) (nonCanonical "too long")
  let type ← readAt vchSig 0
  refuse (type.toNat ≠ 0x30) (nonCanonical "wrong type")
  let marker ← readAt vchSig 1
  refuse (marker.toNat ≠ vchSig.length-(if haveHashType then 3 else 2))
    (nonCanonical "wrong length marker")
  let nLenR ← readAt vchSig 3
  refuse (vchSig.length ≤ 5+nLenR.toNat) (nonCanonical "S length misplaced")
  let nLenS ← readAt vchSig (5+nLenR.toNat)
  refuse (nLenR.toNat+nLenS.toNat+(if haveHashType then 7 else 6) ≠ vchSig.length)
    (nonCanonical "R+S length mismatch")
  derInteger vchSig "R" 4 nLenR.toNat
  derInteger vchSig "S" (6+nLenR.toNat) nLenS.toNat

/-- The bytes of a number, the high one first: it is there, it is not negative, and a zero in
front is there for the sign. -/
def canonicalInteger : List UInt8 → Bool
  | [] => false
  | [a] => a.toNat < 128
  | a::b::_ => a.toNat < 128 && (a != 0 || 128 ≤ b.toNat)

structure Signature where
  r : List UInt8
  s : List UInt8
  hashType : UInt8
  r_canonical : canonicalInteger r = true
  s_canonical : canonicalInteger s = true
  fits : r.length+s.length+7 ≤ 73

def Signature.bytes (sig : Signature) : List UInt8 :=
  [0x30,UInt8.ofNat (sig.r.length+sig.s.length+4),0x02,UInt8.ofNat sig.r.length]++
    (sig.r++(0x02::UInt8.ofNat sig.s.length::(sig.s++[sig.hashType])))

def parts (vchSig : List UInt8) : List UInt8 × List UInt8 × Option UInt8 :=
  let nLenR := (vchSig.getD 3 0).toNat
  let nLenS := (vchSig.getD (5+nLenR) 0).toNat
  ((vchSig.drop 4).take nLenR,(vchSig.drop (6+nLenR)).take nLenS,vchSig.getLast?)

def DefinedHashType (b : UInt8) : Prop := b ∈ ([1,2,3,0x81,0x82,0x83] : List UInt8)

section Reads

variable (v : List UInt8) (name : String) (i n : ℕ)

theorem der_integer_inside (hi : 2 ≤ i) (hn : i+n ≤ v.length) : Inside (derInteger v name i n) := by
  unfold derInteger
  rw [read_bind (by omega) 0]
  apply inside_refuse_bind
  intro _
  apply inside_refuse_bind
  intro hpos
  rw [read_bind (by omega) 0]
  apply inside_refuse_bind
  intro _
  split_ifs with h
  · rw [read_bind (by omega) 0]
    exact inside_refuse
  · exact inside_ok ()

theorem passed (c : Prop) [Decidable c] (b : Bool) :
    (if c then false else b) = true ↔ ¬c ∧ b = true := by
  split_ifs with h <;> simp [h]

theorem der_integer_ok (hi : 2 ≤ i) (hn : i+n ≤ v.length) :
    derInteger v name i n = .ok () ↔ isDERInteger v i n = true := by
  unfold derInteger isDERInteger
  dsimp only
  rw [read_bind (by omega) 0, refuse_bind_ok, passed]
  apply and_congr_right
  intro _
  rw [refuse_bind_ok, passed]
  apply and_congr_right
  intro hpos
  rw [read_bind (by omega) 0, refuse_bind_ok, passed]
  apply and_congr_right
  intro _
  rw [passed]
  by_cases hlong : 1 < n ∧ v.getD i 0 = 0x00
  · rw [if_pos hlong, read_bind (by omega) 0, refuse_ok, decide_eq_true hlong.1,
      beq_iff_eq.mpr hlong.2, Bool.and_self, Bool.true_and, beq_iff_eq]
    exact (and_iff_left rfl).symm
  · rw [if_neg hlong]
    refine iff_of_true rfl ⟨?_,rfl⟩
    intro h
    rw [Bool.and_eq_true, Bool.and_eq_true, decide_eq_true_eq, beq_iff_eq] at h
    exact hlong h.1

variable (haveHashType : Bool)

theorem der_signature_inside : Inside (derSignature v haveHashType) := by
  unfold derSignature
  apply inside_refuse_bind
  intro _
  apply inside_refuse_bind
  intro _
  rw [read_bind (by omega) 0]
  apply inside_refuse_bind
  intro _
  rw [read_bind (by omega) 0]
  apply inside_refuse_bind
  intro _
  rw [read_bind (by omega) 0]
  apply inside_refuse_bind
  intro _
  rw [read_bind (by omega) 0]
  apply inside_refuse_bind
  intro hlen
  have hsize : 6+((v.getD 3 0).toNat+(v.getD (5+(v.getD 3 0).toNat) 0).toNat) ≤ v.length := by
    split_ifs at hlen <;> omega
  apply inside_bind
  · exact der_integer_inside v _ _ _ (by omega) (by omega)
  · intro _
    exact der_integer_inside v _ _ _ (by omega) (by omega)

theorem der_signature_ok :
    derSignature v haveHashType = .ok () ↔ isDERSignature v haveHashType = true := by
  unfold derSignature isDERSignature
  dsimp only
  rw [refuse_bind_ok, passed]
  apply and_congr_right
  intro h9
  rw [refuse_bind_ok, passed]
  apply and_congr_right
  intro _
  rw [read_bind (by omega) 0, refuse_bind_ok, passed]
  apply and_congr_right
  intro _
  rw [read_bind (by omega) 0, refuse_bind_ok, passed]
  apply and_congr_right
  intro _
  rw [read_bind (by omega) 0, refuse_bind_ok, passed]
  apply and_congr_right
  intro hS
  rw [read_bind (by omega) 0, refuse_bind_ok, passed]
  apply and_congr_right
  intro hRS
  have hsize : 6+((v.getD 3 0).toNat+(v.getD (5+(v.getD 3 0).toNat) 0).toNat) ≤ v.length := by
    split_ifs at hRS <;> omega
  rw [Checks.then_ok, der_integer_ok v _ _ _ (by omega) (by omega),
    der_integer_ok v _ _ _ (by omega) (by omega), Bool.and_eq_true]

end Reads

section Grammar

theorem get_behind (pre rest : List UInt8) (k : ℕ) :
    (pre++rest).getD (pre.length+k) 0 = rest.getD k 0 := by
  rw [List.getD_eq_getElem?_getD, List.getD_eq_getElem?_getD,
    List.getElem?_append_right (Nat.le_add_right _ _), Nat.add_sub_cancel_left]

theorem high_bit_clear (a : UInt8) : a &&& 0x80 = 0 ↔ a.toNat < 128 := by
  have hall : ∀ n < 256, UInt8.ofNat n &&& 0x80 = 0 ↔ n < 128 := by decide +kernel
  have h := hall a.toNat a.toNat_lt
  rwa [UInt8.ofNat_toNat] at h

theorem der_integer_at (pre I post : List UInt8) (m l : UInt8) :
    isDERInteger (pre++(m::l::(I++post))) (pre.length+2) I.length = true ↔
      m = 0x02 ∧ canonicalInteger I = true := by
  have htag : (pre++(m::l::(I++post))).getD pre.length 0 = m := get_behind pre _ 0
  have hfirst : (pre++(m::l::(I++post))).getD (pre.length+2) 0 = (I++post).getD 0 0 :=
    get_behind pre _ 2
  have hsecond : (pre++(m::l::(I++post))).getD (pre.length+2+1) 0 = (I++post).getD 1 0 :=
    get_behind pre _ 3
  unfold isDERInteger
  dsimp only
  rw [passed, passed, passed, passed, Nat.add_sub_cancel, htag, hfirst, hsecond, not_not]
  apply and_congr_right
  intro _
  rcases I with _ | ⟨a,_ | ⟨b,I⟩⟩
  · simp [canonicalInteger]
  · simp [canonicalInteger, high_bit_clear]
  · simp [canonicalInteger, high_bit_clear]
    grind

theorem layout {v : List UInt8} (h : (v.getD 3 0).toNat+(v.getD (5+(v.getD 3 0).toNat) 0).toNat+7 = v.length) :
    ∃ t l m n R S b, v = [t,l,m,UInt8.ofNat R.length]++(R++(n::UInt8.ofNat S.length::(S++[b]))) ∧
      R.length < 256 ∧ S.length < 256 := by
  rcases v with _ | ⟨t,_ | ⟨l,_ | ⟨m,_ | ⟨lenR,w⟩⟩⟩⟩
  · cases h
  · simp at h
  · simp at h
  · simp at h
  have hget : (t::l::m::lenR::w).getD (5+lenR.toNat) 0 = w.getD (lenR.toNat+1) 0 := by
    rw [show 5+lenR.toNat = [t,l,m,lenR].length+(lenR.toNat+1) by simp; omega]
    exact get_behind [t,l,m,lenR] w _
  change (lenR.toNat+((t::l::m::lenR::w).getD (5+lenR.toNat) 0).toNat+7) = w.length+4 at h
  rw [hget] at h
  -- The numbers lie behind their lengths, one byte is left.
  have hcut := List.take_append_drop lenR.toNat w
  have hlenR : (w.take lenR.toNat).length = lenR.toNat := by
    rw [List.length_take]
    omega
  have hlenD : (w.drop lenR.toNat).length = (w.getD (lenR.toNat+1) 0).toNat+3 := by
    rw [List.length_drop]
    omega
  have hbyte : ∀ b : UInt8, UInt8.ofNat b.toNat = b := fun b => UInt8.ofNat_toNat
  cases hd : w.drop lenR.toNat with
  | nil =>
    rw [hd] at hlenD
    simp at hlenD
  | cons n z =>
    rw [hd] at hlenD hcut
    cases z with
    | nil => simp at hlenD
    | cons lenS z =>
      have hS : w.getD (lenR.toNat+1) 0 = lenS := by
        rw [← hcut]
        have hb := get_behind (w.take lenR.toNat) (n::lenS::z) 1
        rwa [hlenR] at hb
      rw [hS] at hlenD
      have hz : z.length = lenS.toNat+1 := by simpa using hlenD
      rcases List.eq_nil_or_concat z with rfl | ⟨S,b,rfl⟩
      · simp at hz
      rw [List.concat_eq_append] at hcut hz
      have hlenS : S.length = lenS.toNat := by simpa using hz
      refine ⟨t,l,m,n,w.take lenR.toNat,S,b,?_,?_,?_⟩
      · rw [hlenR, hlenS, hbyte, hbyte]
        exact congrArg (t::l::m::lenR::·) hcut.symm
      · rw [hlenR]
        exact lenR.toNat_lt
      · rw [hlenS]
        exact lenS.toNat_lt

theorem accepted_parts (t l m n b : UInt8) (R S : List UInt8) (hR : R.length < 256)
    (hS : S.length < 256) :
    isDERSignature ([t,l,m,UInt8.ofNat R.length]++(R++(n::UInt8.ofNat S.length::(S++[b])))) true = true ↔
      t = 0x30 ∧ l = UInt8.ofNat (R.length+S.length+4) ∧ m = 0x02 ∧ n = 0x02 ∧
        canonicalInteger R = true ∧ canonicalInteger S = true ∧ R.length+S.length+7 ≤ 73 := by
  have hlenR : (UInt8.ofNat R.length).toNat = R.length := UInt8.toNat_ofNat_of_lt' hR
  have hlenS : (UInt8.ofNat S.length).toNat = S.length := UInt8.toNat_ofNat_of_lt' hS
  have hpos : ∀ {I : List UInt8}, canonicalInteger I = true → 1 ≤ I.length := by
    intro I h
    cases I with
    | nil => cases h
    | cons a I => simp
  have hplace : ([t,l,m,UInt8.ofNat R.length]++R).length = R.length+4 := by simp
  have hfirst := der_integer_at [t,l] R (n::UInt8.ofNat S.length::(S++[b])) m (UInt8.ofNat R.length)
  have hsecond := der_integer_at ([t,l,m,UInt8.ofNat R.length]++R) S [b] n (UInt8.ofNat S.length)
  have hmiddle := get_behind ([t,l,m,UInt8.ofNat R.length]++R) (n::UInt8.ofNat S.length::(S++[b])) 1
  rw [List.append_assoc, hplace, show R.length+4+2 = 6+R.length by omega] at hsecond
  rw [List.append_assoc, hplace, show R.length+4+1 = 5+R.length by omega] at hmiddle
  change isDERInteger ([t,l,m,UInt8.ofNat R.length]++(R++(n::UInt8.ofNat S.length::(S++[b])))) 4
    R.length = true ↔ _ at hfirst
  have hlen : ([t,l,m,UInt8.ofNat R.length]++(R++(n::UInt8.ofNat S.length::(S++[b])))).length =
      R.length+S.length+7 := by
    simp only [List.length_append, List.length_cons, List.length_nil]
    omega
  have h0 : ([t,l,m,UInt8.ofNat R.length]++(R++(n::UInt8.ofNat S.length::(S++[b])))).getD 0 0 = t := rfl
  have h1 : ([t,l,m,UInt8.ofNat R.length]++(R++(n::UInt8.ofNat S.length::(S++[b])))).getD 1 0 = l := rfl
  have h3 : ([t,l,m,UInt8.ofNat R.length]++(R++(n::UInt8.ofNat S.length::(S++[b])))).getD 3 0 =
    UInt8.ofNat R.length := rfl
  have hmarker : R.length+S.length+7 ≤ 73 →
      (l.toNat = R.length+S.length+7-3 ↔ l = UInt8.ofNat (R.length+S.length+4)) := by
    intro hfits
    rw [← UInt8.toNat_inj, UInt8.toNat_ofNat_of_lt' (Nat.lt_of_le_of_lt (by omega) (by decide : 70 < 256))]
    rfl
  have htype : t.toNat = 0x30 ↔ t = 0x30 := UInt8.toNat_inj (b := 0x30)
  generalize [t,l,m,UInt8.ofNat R.length]++(R++(n::UInt8.ofNat S.length::(S++[b]))) = v at *
  have hmiddle' : v.getD (5+R.length) 0 = UInt8.ofNat S.length := hmiddle
  unfold isDERSignature
  dsimp only
  rw [passed, passed, passed, passed, passed, passed, h3, hlenR, hmiddle', hlenS, h0, h1, hlen,
    Bool.and_eq_true, hfirst, hsecond, not_not, not_not, not_not, if_pos rfl, if_pos rfl, htype]
  constructor
  · rintro ⟨_,hfits,ht,hl,_,_,⟨hm,hcR⟩,hn,hcS⟩
    exact ⟨ht,(hmarker (by omega)).mp hl,hm,hn,hcR,hcS,by omega⟩
  · rintro ⟨ht,hl,hm,hn,hcR,hcS,hfits⟩
    have hposR := hpos hcR
    have hposS := hpos hcS
    exact ⟨by omega,by omega,ht,(hmarker hfits).mpr hl,by omega,rfl,⟨hm,hcR⟩,hn,hcS⟩

theorem accepted_iff (v : List UInt8) :
    isDERSignature v true = true ↔ ∃ sig : Signature, sig.bytes = v := by
  constructor
  · intro h
    have hlen : (v.getD 3 0).toNat+(v.getD (5+(v.getD 3 0).toNat) 0).toNat+7 = v.length := by
      unfold isDERSignature at h
      dsimp only at h
      rw [passed, passed, passed, passed, passed, passed, not_not, not_not, not_not] at h
      exact h.2.2.2.2.2.1
    obtain ⟨t,l,m,n,R,S,b,rfl,hR,hS⟩ := layout hlen
    obtain ⟨rfl,rfl,rfl,rfl,hcR,hcS,hfits⟩ := (accepted_parts t l m n b R S hR hS).mp h
    exact ⟨⟨R,S,b,hcR,hcS,hfits⟩,rfl⟩
  · rintro ⟨sig,rfl⟩
    have hfits := sig.fits
    exact (accepted_parts _ _ _ _ _ sig.r sig.s (by omega) (by omega)).mpr
      ⟨rfl,rfl,rfl,rfl,sig.r_canonical,sig.s_canonical,hfits⟩

theorem bytes_length (sig : Signature) : sig.bytes.length = sig.r.length+sig.s.length+7 := by
  simp only [Signature.bytes, List.length_append, List.length_cons, List.length_nil]
  omega

theorem parts_bytes (sig : Signature) : parts sig.bytes = (sig.r,sig.s,some sig.hashType) := by
  have hfits := sig.fits
  have hlenR : (UInt8.ofNat sig.r.length).toNat = sig.r.length :=
    UInt8.toNat_ofNat_of_lt' (Nat.lt_of_le_of_lt (by omega) (by decide : 73 < 256))
  have hlenS : (UInt8.ofNat sig.s.length).toNat = sig.s.length :=
    UInt8.toNat_ofNat_of_lt' (Nat.lt_of_le_of_lt (by omega) (by decide : 73 < 256))
  have hmiddle := get_behind ([0x30,UInt8.ofNat (sig.r.length+sig.s.length+4),0x02,
    UInt8.ofNat sig.r.length]++sig.r) (0x02::UInt8.ofNat sig.s.length::(sig.s++[sig.hashType])) 1
  have hplace : ([0x30,UInt8.ofNat (sig.r.length+sig.s.length+4),0x02,
    UInt8.ofNat sig.r.length]++sig.r).length = sig.r.length+4 := by simp
  rw [List.append_assoc, hplace, show sig.r.length+4+1 = 5+sig.r.length by omega] at hmiddle
  have h3 : sig.bytes.getD 3 0 = UInt8.ofNat sig.r.length := rfl
  have hmiddle' : sig.bytes.getD (5+sig.r.length) 0 = UInt8.ofNat sig.s.length := hmiddle
  have hlast : sig.bytes.getLast? = some sig.hashType := by
    have hsnoc : sig.bytes = [0x30,UInt8.ofNat (sig.r.length+sig.s.length+4),0x02,
        UInt8.ofNat sig.r.length]++(sig.r++(0x02::UInt8.ofNat sig.s.length::sig.s))++[sig.hashType] := by
      simp [Signature.bytes]
    rw [hsnoc, List.getLast?_concat]
  have hdropR : sig.bytes.drop 4 =
      sig.r++(0x02::UInt8.ofNat sig.s.length::(sig.s++[sig.hashType])) := rfl
  have hdropS : sig.bytes.drop (6+sig.r.length) = sig.s++[sig.hashType] := by
    rw [show 6+sig.r.length = 4+(sig.r.length+2) by omega, ← List.drop_drop, hdropR,
      List.drop_append, List.drop_of_length_le (by omega), Nat.add_sub_cancel_left]
    rfl
  unfold parts
  dsimp only
  rw [h3, hlenR, hmiddle', hlenS, hlast, hdropR, hdropS, List.take_left' rfl, List.take_left' rfl]

theorem defined_iff (v : List UInt8) :
    isDefinedHashtypeSignature v = true ↔ ∃ b, v.getLast? = some b ∧ DefinedHashType b := by
  have hall : ∀ n < 256, (decide (sigHashAll ≤ (UInt8.ofNat n &&& ~~~0x80).toNat) &&
      decide ((UInt8.ofNat n &&& ~~~0x80).toNat ≤ sigHashSingle)) =
        decide (UInt8.ofNat n ∈ ([1,2,3,0x81,0x82,0x83] : List UInt8)) := by decide +kernel
  unfold isDefinedHashtypeSignature
  cases hlast : v.getLast? with
  | none => simp
  | some b =>
    have h := hall b.toNat b.toNat_lt
    rw [UInt8.ofNat_toNat] at h
    dsimp only
    rw [h, decide_eq_true_eq]
    simp [DefinedHashType]

end Grammar

/-- The check of a signature with its hash type stays inside of the buffer, and accepts just
what is written for two canonical numbers and a byte, of 9 to 73 bytes; numbers and byte
determine all of it. The check of the hash type behind it leaves the defined ones. -/
theorem der_signature_exact :
    (∀ v, Inside (derSignature v true) ∧
      (derSignature v true = .ok () ↔ isDERSignature v true = true)) ∧
    (∀ v, isDERSignature v true = true ↔ ∃ sig : Signature, sig.bytes = v) ∧
    (∀ sig : Signature, 9 ≤ sig.bytes.length ∧ sig.bytes.length ≤ 73 ∧
      parts sig.bytes = (sig.r,sig.s,some sig.hashType)) ∧
    (∀ u v, isDERSignature u true = true → isDERSignature v true = true → parts u = parts v → u = v) ∧
    ∀ v, isDERSignature v true = true ∧ isDefinedHashtypeSignature v = true ↔
      ∃ sig : Signature, sig.bytes = v ∧ DefinedHashType sig.hashType := by
  refine ⟨?_,accepted_iff,?_,?_,?_⟩
  · intro v
    exact ⟨der_signature_inside v true,der_signature_ok v true⟩
  · intro sig
    have hfits := sig.fits
    have hpos : ∀ {I : List UInt8}, canonicalInteger I = true → 1 ≤ I.length := by
      intro I h
      cases I with
      | nil => cases h
      | cons a I => simp
    have hr := hpos sig.r_canonical
    have hs := hpos sig.s_canonical
    rw [bytes_length]
    exact ⟨by omega,hfits,parts_bytes sig⟩
  · intro u v hu hv hparts
    obtain ⟨sig,rfl⟩ := (accepted_iff u).mp hu
    obtain ⟨sig',rfl⟩ := (accepted_iff v).mp hv
    rw [parts_bytes, parts_bytes, Prod.mk.injEq, Prod.mk.injEq, Option.some_inj] at hparts
    obtain ⟨hr,hs,hb⟩ := hparts
    rw [Signature.bytes, Signature.bytes, hr, hs, hb]
  · intro v
    rw [accepted_iff, defined_iff]
    constructor
    · rintro ⟨⟨sig,rfl⟩,b,hlast,hb⟩
      have hparts := congrArg (fun p => p.2.2) (parts_bytes sig)
      change sig.bytes.getLast? = some sig.hashType at hparts
      rw [hparts, Option.some_inj] at hlast
      rw [← hlast] at hb
      exact ⟨sig,rfl,hb⟩
    · rintro ⟨sig,rfl,hb⟩
      have hparts := congrArg (fun p => p.2.2) (parts_bytes sig)
      exact ⟨⟨sig,rfl⟩,sig.hashType,hparts,hb⟩

/-- Two numbers one, and a byte that is no hash type. -/
theorem undefined_hash_type_accepted :
    ¬∀ v, isDERSignature v true = true ↔
      ∃ sig : Signature, sig.bytes = v ∧ DefinedHashType sig.hashType := by
  intro h
  obtain ⟨sig,hbytes,hb⟩ := (h [0x30,6,2,1,1,2,1,1,0]).mp (by decide)
  have hparts := parts_bytes sig
  rw [hbytes] at hparts
  have hlast : some (0 : UInt8) = some sig.hashType := congrArg (fun p => p.2.2) hparts
  rw [← Option.some.inj hlast] at hb
  exact absurd hb (by unfold DefinedHashType; decide)

end SwippCore.DerSignature
