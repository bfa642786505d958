import SwippCore.Lib.Numerals
import Mathlib.Data.Nat.Bitwise

/-!
# Padded integers

An integer with a sign bit has one form without padding, the one that is written for it.
Every other form of it moves the sign to a byte of its own behind the magnitude, once or
more often, and every form that is read comes from the written one in this way.
-/

set_option autoImplicit false

namespace SignMagnitude
open Relation

/-- A last byte without a magnitude stands only where the byte before it has its own first
bit set. -/
def Minimal (bs : List UInt8) : Prop :=
  ∀ cs b, bs = cs++[b] → b.toNat%128 = 0 → ∃ ds c, cs = ds++[c] ∧ 128 ≤ c.toNat

inductive Pads : List UInt8 → List UInt8 → Prop
  | zero : Pads [] [0]
  | negativeZero : Pads [] [0x80]
  | sign (cs : List UInt8) (b : UInt8) : Pads (cs++[b]) (cs++[b &&& 0x7f,b &&& 0x80])

def SamePadding (u v : List UInt8) : Prop :=
  ∃ core, ReflTransGen Pads core u ∧ ReflTransGen Pads core v

section Bits

variable (b : UInt8)

theorem and_sign_nat : (b &&& 0x80).toNat = b.toNat-b.toNat%128 := by
  have hb : b.toNat < 256 := b.toNat_lt
  rw [UInt8.toNat_and]
  change b.toNat &&& 2^7 = b.toNat-b.toNat%128
  rw [Nat.and_two_pow, Nat.testBit_eq_decide_div_mod_eq]
  change (decide (b.toNat/128%2 = 1)).toNat*128 = b.toNat-b.toNat%128
  by_cases hsign : 128 ≤ b.toNat
  · rw [decide_eq_true (by omega), Bool.toNat_true]
    omega
  · rw [decide_eq_false (by omega), Bool.toNat_false]
    omega

theorem sign_clear (h : b.toNat < 128) : b &&& 0x80 = 0 := by
  apply UInt8.toNat_inj.mp
  rw [and_sign_nat, Nat.mod_eq_of_lt h]
  exact Nat.sub_self _

theorem sign_set (h : 128 ≤ b.toNat) : b &&& 0x80 = 0x80 := by
  have hb : b.toNat < 256 := b.toNat_lt
  apply UInt8.toNat_inj.mp
  rw [and_sign_nat]
  change b.toNat-b.toNat%128 = 128
  omega

theorem low_or_sign (h : 128 ≤ b.toNat) : b &&& 0x7f ||| 0x80 = b := by
  have hlow := and_low_nat b
  have hb : b.toNat < 256 := b.toNat_lt
  apply UInt8.toNat_inj.mp
  rw [or_sign (by omega), hlow]
  omega

end Bits

section Written

theorem sign_of_split (neg : Bool) {m : ℕ} (h : m ≠ 0) :
    decide (ofSplit (neg,m) < 0) = neg ∧ (ofSplit (neg,m)).natAbs = m := by
  cases neg with
  | false => simp [ofSplit]
  | true =>
    have hpos := Nat.pos_of_ne_zero h
    simp [ofSplit, hpos]

theorem encode_of_split {bs : List UInt8} (h : (split bs).2 ≠ 0) :
    encode (decode bs) = close (split bs).1 (bytes (split bs).2) := by
  obtain ⟨hneg,habs⟩ := sign_of_split (split bs).1 h
  rw [encode, decode, hneg, habs]

theorem encode_decode {bs : List UInt8} (h : Minimal bs) : encode (decode bs) = bs := by
  rcases List.eq_nil_or_concat bs with rfl | ⟨cs,b,rfl⟩
  · rfl
  rw [List.concat_eq_append] at h ⊢
  have hpow : 0 < 256^cs.length := Nat.pow_pos (by decide)
  have hsplit := split_snoc cs b
  by_cases hzero : b.toNat%128 = 0
  · -- The last byte is only the sign, and the byte in front of it ends the magnitude.
    obtain ⟨ds,c,rfl,hc⟩ := h cs b rfl hzero
    have hne : c ≠ 0 := by
      rintro rfl
      exact absurd hc (by decide)
    have hbytes : bytes (value (ds++[c])) = ds++[c] := by
      apply bytes_value
      intro d hd
      rw [List.getLast?_concat, Option.some_inj] at hd
      rwa [← hd]
    rw [hzero, Nat.mul_zero, Nat.add_zero] at hsplit
    have hmag : (split (ds++[c]++[b])).2 ≠ 0 := by
      rw [hsplit]
      intro hnil
      rw [(bytes_eq_nil _).mpr hnil] at hbytes
      exact absurd hbytes.symm (by simp)
    rw [encode_of_split hmag, hsplit]
    dsimp only
    rw [hbytes, close_snoc, if_pos hc, List.append_assoc]
    have hb : b = if decide (128 ≤ b.toNat) = true then 0x80 else 0 := by
      have hlt : b.toNat < 256 := b.toNat_lt
      apply UInt8.toNat_inj.mp
      by_cases hsign : 128 ≤ b.toNat
      · rw [if_pos (by simpa using hsign)]
        change b.toNat = 128
        omega
      · rw [if_neg (by simpa using hsign)]
        change b.toNat = 0
        omega
    rw [← hb]
    rfl
  · have hlow := and_low_nat b
    have hvalue : value (cs++[b &&& 0x7f]) = value cs+256^cs.length*(b.toNat%128) := by
      rw [value_append, ← hlow]
      rfl
    have hbytes : bytes (value (cs++[b &&& 0x7f])) = cs++[b &&& 0x7f] := by
      apply bytes_value
      intro d hd hd0
      rw [List.getLast?_concat, Option.some_inj] at hd
      rw [hd, hd0] at hlow
      exact hzero hlow.symm
    have hmag : (split (cs++[b])).2 ≠ 0 := by
      rw [hsplit]
      have hpos := Nat.mul_pos hpow (Nat.pos_of_ne_zero hzero)
      dsimp only
      omega
    rw [encode_of_split hmag, hsplit]
    dsimp only
    rw [← hvalue, hbytes, close_snoc, if_neg (by omega)]
    by_cases hsign : 128 ≤ b.toNat
    · rw [if_pos (by simpa using hsign), low_or_sign b hsign]
    · rw [if_neg (by simpa using hsign), low_of_clear (by omega)]

theorem minimal_snoc {cs : List UInt8} {b : UInt8} :
    Minimal (cs++[b]) ↔ (b.toNat%128 = 0 → ∃ ds c, cs = ds++[c] ∧ 128 ≤ c.toNat) := by
  constructor
  · intro h
    exact h cs b rfl
  · intro h cs' b' heq
    obtain ⟨rfl,hb⟩ := List.append_inj' heq rfl
    rw [List.cons.injEq] at hb
    rw [← hb.1]
    exact h

theorem minimal_encode (n : ℤ) : Minimal (encode n) := by
  rw [encode]
  rcases List.eq_nil_or_concat (bytes n.natAbs) with hnil | ⟨cs,b,hbs⟩
  · rw [hnil]
    intro cs b h
    exact absurd h (by simp [close])
  rw [List.concat_eq_append] at hbs
  have hb : b ≠ 0 := bytes_last n.natAbs b (by rw [hbs, List.getLast?_concat])
  have hpos : 0 < b.toNat := Nat.pos_of_ne_zero fun hz => hb (UInt8.toNat_inj.mp hz)
  rw [hbs, close_snoc]
  by_cases hhigh : 128 ≤ b.toNat
  · rw [if_pos hhigh, List.append_cons cs b]
    apply minimal_snoc.mpr
    intro _
    exact ⟨cs,b,rfl,hhigh⟩
  · rw [if_neg hhigh]
    apply minimal_snoc.mpr
    intro hzero
    exfalso
    split_ifs at hzero
    · rw [or_sign (by omega)] at hzero
      omega
    · omega

end Written

section Padding

variable {u v : List UInt8}

theorem decode_pads (h : Pads u v) : decode u = decode v := by
  cases h with
  | zero => rfl
  | negativeZero => rfl
  | sign cs b =>
    have hb : b.toNat < 256 := b.toNat_lt
    have hsign := and_sign_nat b
    have hlow := and_low_nat b
    have hone : value [b &&& 0x7f] = b.toNat%128 := by
      rw [← hlow]
      rfl
    have hmod : (b &&& 0x80).toNat%128 = 0 := by omega
    have hbit : decide (128 ≤ (b &&& 0x80).toNat) = decide (128 ≤ b.toNat) := by
      rw [decide_eq_decide]
      omega
    rw [List.append_cons cs (b &&& 0x7f), decode, decode, split_snoc, split_snoc, hbit, hmod,
      value_append, hone, Nat.mul_zero, Nat.add_zero]

theorem decode_padded (h : ReflTransGen Pads u v) : decode u = decode v := by
  induction h with
  | refl => rfl
  | tail _ hstep ih => exact ih.trans (decode_pads hstep)

theorem pads_of_not_minimal (h : ¬Minimal v) : ∃ u, Pads u v ∧ u.length < v.length := by
  rcases List.eq_nil_or_concat v with rfl | ⟨cs,b,rfl⟩
  · exact absurd (minimal_encode 0) h
  rw [List.concat_eq_append, minimal_snoc, Classical.not_imp] at h
  obtain ⟨hzero,hnot⟩ := h
  have hb : b.toNat < 256 := b.toNat_lt
  have hcases : b = 0 ∨ b = 0x80 := by
    rcases Nat.lt_or_ge b.toNat 128 with hlt | hge
    · left
      apply UInt8.toNat_inj.mp
      change b.toNat = 0
      omega
    · right
      apply UInt8.toNat_inj.mp
      change b.toNat = 128
      omega
  rw [List.concat_eq_append]
  rcases List.eq_nil_or_concat cs with rfl | ⟨ds,c,rfl⟩
  · rcases hcases with rfl | rfl
    · exact ⟨[],Pads.zero,by decide⟩
    · exact ⟨[],Pads.negativeZero,by decide⟩
  rw [List.concat_eq_append] at hnot ⊢
  have hc : c.toNat < 128 := by
    apply Nat.lt_of_not_le
    intro hge
    exact hnot ⟨ds,c,rfl,hge⟩
  rw [← List.append_cons]
  rcases hcases with rfl | rfl
  · have hpads := Pads.sign ds c
    rw [sign_clear c hc, low_of_clear hc] at hpads
    exact ⟨ds++[c],hpads,by simp⟩
  · have hor := or_sign hc
    have hpads := Pads.sign ds (c ||| 0x80)
    have hlow : (c ||| 0x80) &&& 0x7f = c := by
      apply UInt8.toNat_inj.mp
      rw [and_low_nat, hor]
      omega
    rw [sign_set _ (by omega), hlow] at hpads
    exact ⟨ds++[c ||| 0x80],hpads,by simp⟩

theorem padded_encode (v : List UInt8) : ReflTransGen Pads (encode (decode v)) v := by
  by_cases h : Minimal v
  · rw [encode_decode h]
  · obtain ⟨u,hpads,hlt⟩ := pads_of_not_minimal h
    rw [← decode_pads hpads]
    exact (padded_encode u).tail hpads
termination_by v.length

theorem decode_eq_iff (u v : List UInt8) : decode u = decode v ↔ SamePadding u v := by
  constructor
  · intro h
    refine ⟨encode (decode u),padded_encode u,?_⟩
    rw [h]
    exact padded_encode v
  · rintro ⟨core,hu,hv⟩
    exact (decode_padded hu).symm.trans (decode_padded hv)

example : SamePadding [0x81] [1,0,0x80] :=
  ⟨[0x81],.refl,.tail (.tail .refl (Pads.sign [] 0x81)) (Pads.sign [1] 0x80)⟩

end Padding

end SignMagnitude
