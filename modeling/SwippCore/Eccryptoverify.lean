import SwippCore.Script
import SwippCore.Key

/-!
# Numbers of a signature

The byte comparison of eccryptoverify.cpp against the numbers that the script checks speak of.
-/

set_option autoImplicit false

namespace SwippCore.Eccryptoverify
open SignMagnitude Key

/-- The first two loops, over the bytes that one string has more than the other; none where
they return. -/
def skip : ℕ → List UInt8 → Option (List UInt8)
  | k+1, b::c => if b ≠ 0 then none else skip k c
  | _, c => some c

/-- The third loop, over strings of one length. -/
def compare : List UInt8 → List UInt8 → ℤ
  | a::c1, b::c2 => if b < a then 1 else if a < b then -1 else compare c1 c2
  | _, _ => 0

def compareBigEndian (c1 c2 : List UInt8) : ℤ :=
  match skip (c1.length-c2.length) c1, skip (c2.length-c1.length) c2 with
  | none, _ => 1
  | _, none => -1
  | some c1, some c2 => compare c1 c2

def vchMaxModOrder : List UInt8 :=
  [0xFF,0xFF,0xFF,0xFF,0xFF,0xFF,0xFF,0xFF, 0xFF,0xFF,0xFF,0xFF,0xFF,0xFF,0xFF,0xFE,
   0xBA,0xAE,0xDC,0xE6,0xAF,0x48,0xA0,0x3B, 0xBF,0xD2,0x5E,0x8C,0xD0,0x36,0x41,0x40]

def vchMaxModHalfOrder : List UInt8 :=
  [0x7F,0xFF,0xFF,0xFF,0xFF,0xFF,0xFF,0xFF, 0xFF,0xFF,0xFF,0xFF,0xFF,0xFF,0xFF,0xFF,
   0x5D,0x57,0x6E,0x73,0x57,0xA4,0x50,0x1D, 0xDF,0xE9,0x2F,0x46,0x68,0x1B,0x20,0xA0]

/-- `CheckSignatureElement`; the length zero is given for `vchZero`. -/
def checkSignatureElement (vch : List UInt8) (half : Bool) : Bool :=
  0 < compareBigEndian vch [] &&
    compareBigEndian vch (if half then vchMaxModHalfOrder else vchMaxModOrder) ≤ 0

def check (vch : List UInt8) : Bool :=
  0 < compareBigEndian vch [] && compareBigEndian vch vchMaxModOrder ≤ 0

/-- The second loop of `CKey::Check`. -/
def within : List UInt8 → List UInt8 → Bool
  | a::vch, b::vchMax => if a < b then true else if b < a then false else within vch vchMax
  | _, _ => true

/-- `CKey::Check`, which has a table of its own with the bytes of `vchMaxModOrder`. -/
def keyCheck (vch : List UInt8) : Bool := vch.any (· ≠ 0) && within vch vchMaxModOrder

theorem bin2bn_cons (b : UInt8) (c : List UInt8) : bin2bn (b::c) = b.toNat*256^c.length+bin2bn c := by
  rw [bin2bn, List.reverse_cons, value_append, List.length_reverse]
  simp [value, bin2bn]
  ring

theorem bin2bn_lt (c : List UInt8) : bin2bn c < 256^c.length := by
  have h := value_lt c.reverse
  rwa [List.length_reverse] at h

theorem skip_none {k : ℕ} {c : List UInt8} (hk : k ≤ c.length) (h : skip k c = none) :
    256^(c.length-k) ≤ bin2bn c := by
  induction c generalizing k with
  | nil => cases k <;> cases h
  | cons b c ih =>
    cases k with
    | zero => cases h
    | succ k =>
      rw [bin2bn_cons, List.length_cons, Nat.add_sub_add_right]
      have hpow : 256^(c.length-k) ≤ 256^c.length := Nat.pow_le_pow_right (by decide) (Nat.sub_le _ _)
      rw [skip] at h
      split_ifs at h with hb
      · have hpos : 0 < b.toNat := Nat.pos_of_ne_zero (fun h0 => hb (UInt8.toNat_inj.mp h0))
        have hmul := Nat.mul_le_mul_right (256^c.length) hpos
        omega
      · have := ih (Nat.le_of_succ_le_succ hk) h
        omega

theorem skip_some {k : ℕ} {c r : List UInt8} (hk : k ≤ c.length) (h : skip k c = some r) :
    bin2bn r = bin2bn c ∧ r.length = c.length-k := by
  induction c generalizing k with
  | nil =>
    obtain rfl : k = 0 := Nat.le_zero.mp hk
    cases h
    exact ⟨rfl,rfl⟩
  | cons b c ih =>
    cases k with
    | zero =>
      cases h
      exact ⟨rfl,rfl⟩
    | succ k =>
      rw [skip] at h
      split_ifs at h with hb
      obtain ⟨hr,hl⟩ := ih (Nat.le_of_succ_le_succ hk) h
      rw [not_not] at hb
      rw [bin2bn_cons, hb, List.length_cons, Nat.add_sub_add_right]
      simpa using ⟨hr,hl⟩

theorem compare_sign {c1 c2 : List UInt8} (h : c1.length = c2.length) :
    compare c1 c2 = Int.sign ((bin2bn c1 : ℤ)-bin2bn c2) := by
  induction c1 generalizing c2 with
  | nil =>
    rw [List.eq_nil_of_length_eq_zero h.symm]
    rfl
  | cons a c1 ih =>
    cases c2 with
    | nil => cases h
    | cons b c2 =>
      have hl : c1.length = c2.length := Nat.succ.inj h
      have h1 := bin2bn_lt c1
      have h2 := bin2bn_lt c2
      rw [compare, bin2bn_cons, bin2bn_cons, hl]
      rw [hl] at h1
      split_ifs with hba hab
      · have hmul := Nat.mul_le_mul_right (256^c2.length) (UInt8.lt_iff_toNat_lt.mp hba)
        rw [Nat.succ_mul] at hmul
        exact (Int.sign_eq_one_of_pos (by omega)).symm
      · have hmul := Nat.mul_le_mul_right (256^c2.length) (UInt8.lt_iff_toNat_lt.mp hab)
        rw [Nat.succ_mul] at hmul
        exact (Int.sign_eq_neg_one_of_neg (by omega)).symm
      · rw [UInt8.lt_iff_toNat_lt] at hba hab
        have heq : a.toNat = b.toNat := by omega
        rw [ih hl, heq]
        congr 1
        push_cast
        omega

theorem compare_big_endian (c1 c2 : List UInt8) :
    compareBigEndian c1 c2 = Int.sign ((bin2bn c1 : ℤ)-bin2bn c2) := by
  have h1 := bin2bn_lt c1
  have h2 := bin2bn_lt c2
  unfold compareBigEndian
  rcases hs1 : skip (c1.length-c2.length) c1 with _ | r1
  · have hge := skip_none (Nat.sub_le _ _) hs1
    have hpow : 256^c2.length ≤ 256^(c1.length-(c1.length-c2.length)) :=
      Nat.pow_le_pow_right (by decide) (by
        by_contra hlt
        rw [show c1.length-c2.length = 0 by omega] at hs1
        cases c1 <;> cases hs1)
    exact (Int.sign_eq_one_of_pos (by omega)).symm
  · obtain ⟨hr1,hl1⟩ := skip_some (Nat.sub_le _ _) hs1
    rcases hs2 : skip (c2.length-c1.length) c2 with _ | r2
    · have hge := skip_none (Nat.sub_le _ _) hs2
      have hpow : 256^c1.length ≤ 256^(c2.length-(c2.length-c1.length)) :=
        Nat.pow_le_pow_right (by decide) (by
          by_contra hlt
          rw [show c2.length-c1.length = 0 by omega] at hs2
          cases c2 <;> cases hs2)
      exact (Int.sign_eq_neg_one_of_neg (by omega)).symm
    · obtain ⟨hr2,hl2⟩ := skip_some (Nat.sub_le _ _) hs2
      rw [← hr1, ← hr2]
      exact compare_sign (by omega)

theorem within_compare (c1 c2 : List UInt8) : within c1 c2 = decide (compare c1 c2 ≤ 0) := by
  induction c1 generalizing c2 with
  | nil => rfl
  | cons a c1 ih =>
    cases c2 with
    | nil => rfl
    | cons b c2 =>
      have hasymm : a < b → ¬b < a := fun h => UInt8.lt_asymm h
      rw [within, compare, ih]
      split_ifs with hab hba hba <;> first | rfl | exact absurd hba (hasymm hab)

theorem any_pos (c : List UInt8) : c.any (· ≠ 0) = decide (0 < bin2bn c) := by
  induction c with
  | nil => rfl
  | cons b c ih =>
    have hpow : 0 < 256^c.length := by positivity
    rw [List.any_cons, ih, bin2bn_cons]
    by_cases hb : b = 0
    · simp [hb]
    · have hpos : 0 < b.toNat := Nat.pos_of_ne_zero (fun h0 => hb (UInt8.toNat_inj.mp h0))
      simp [hb]
      omega

theorem order : bin2bn vchMaxModOrder =
    0xFFFFFFFFFFFFFFFFFFFFFFFFFFFFFFFEBAAEDCE6AF48A03BBFD25E8CD0364140 := by decide

theorem check_secret {vch : List UInt8} (h : vch.length = 32) : check vch = checkSecret vch := by
  rw [check, compare_big_endian, compare_big_endian, order, checkSecret]
  simp [h, show bin2bn [] = 0 from rfl]

theorem key_check {vch : List UInt8} (h : vch.length = 32) : keyCheck vch = checkSecret vch := by
  have hlen : vch.length = vchMaxModOrder.length := h
  rw [keyCheck, any_pos, within_compare, compare_sign hlen, order, checkSecret]
  simp [h]

/-- The comparison gives the order of the numbers for strings of any lengths; so a number of a
signature is checked as the script checks say, and a secret key as `CKey` says. -/
theorem signature_element (vch : List UInt8) (half : Bool) (key : Fin 32 → UInt8) :
    (∀ c1 c2, compareBigEndian c1 c2 = Int.sign ((bin2bn c1 : ℤ)-bin2bn c2)) ∧
      checkSignatureElement vch half = SwippCore.checkSignatureElement vch half ∧
      check (List.ofFn key) = checkSecret (List.ofFn key) ∧
      keyCheck (List.ofFn key) = checkSecret (List.ofFn key) := by
  refine ⟨compare_big_endian,?_,check_secret List.length_ofFn,key_check List.length_ofFn⟩
  have hhalf : bin2bn vchMaxModHalfOrder =
      0x7FFFFFFFFFFFFFFFFFFFFFFFFFFFFFFF5D576E7357A4501DDFE92F46681B20A0 := by decide
  rw [checkSignatureElement, compare_big_endian, compare_big_endian, SwippCore.checkSignatureElement]
  change _ = (decide (0 < bin2bn vch) && decide (bin2bn vch ≤ _))
  have hzero : bin2bn [] = 0 := rfl
  cases half <;> simp [hhalf, order, hzero]

end SwippCore.Eccryptoverify
