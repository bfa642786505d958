import Mathlib.Algebra.Order.Ring.Nat
import Mathlib.Data.List.Basic

/-!
# Five bytes as eight digits

Forty bits, read as five bytes or as eight digits of five bits, the high bits first.
Each reading gives the other back.
-/

set_option autoImplicit false

namespace Base32

structure Digits where
  (d0 d1 d2 d3 d4 d5 d6 d7 : ℕ)

structure Bytes where
  (b0 b1 b2 b3 b4 : ℕ)

namespace Digits

def Bounded (d : Digits) : Prop :=
  d.d0 < 32 ∧ d.d1 < 32 ∧ d.d2 < 32 ∧ d.d3 < 32 ∧ d.d4 < 32 ∧ d.d5 < 32 ∧ d.d6 < 32 ∧ d.d7 < 32

def toBytes (d : Digits) : Bytes where
  b0 := d.d0*8+d.d1/4
  b1 := (d.d1%4*32+d.d2)*2+d.d3/16
  b2 := d.d3%16*16+d.d4/2
  b3 := (d.d4%2*32+d.d5)*4+d.d6/8
  b4 := d.d6%8*32+d.d7

end Digits

namespace Bytes

def Bounded (b : Bytes) : Prop := b.b0 < 256 ∧ b.b1 < 256 ∧ b.b2 < 256 ∧ b.b3 < 256 ∧ b.b4 < 256

def toDigits (b : Bytes) : Digits where
  d0 := b.b0/8
  d1 := b.b0%8*4+b.b1/64
  d2 := b.b1/2%32
  d3 := b.b1%2*16+b.b2/16
  d4 := b.b2%16*2+b.b3/128
  d5 := b.b3/4%32
  d6 := b.b3%4*8+b.b4/32
  d7 := b.b4%32

end Bytes

theorem digits_bounded {b : Bytes} (h : b.Bounded) : b.toDigits.Bounded := by
  simp only [Bytes.Bounded] at h
  simp only [Digits.Bounded, Bytes.toDigits]
  omega

theorem bytes_bounded {d : Digits} (h : d.Bounded) : d.toBytes.Bounded := by
  simp only [Digits.Bounded] at h
  simp only [Bytes.Bounded, Digits.toBytes]
  omega

theorem bytes_of_digits {b : Bytes} (h : b.Bounded) : b.toDigits.toBytes = b := by
  simp only [Bytes.Bounded] at h
  obtain ⟨b0,b1,b2,b3,b4⟩ := b
  dsimp only at h
  simp only [Bytes.toDigits, Digits.toBytes, Bytes.mk.injEq]
  omega

theorem digits_of_bytes {d : Digits} (h : d.Bounded) : d.toBytes.toDigits = d := by
  simp only [Digits.Bounded] at h
  obtain ⟨d0,d1,d2,d3,d4,d5,d6,d7⟩ := d
  dsimp only at h
  simp only [Bytes.toDigits, Digits.toBytes, Digits.mk.injEq]
  omega

theorem shift_or (a : ℕ) {b i : ℕ} (h : b < 2^i) : a <<< i ||| b = a*2^i+b := by
  rw [← Nat.shiftLeft_add_eq_or_of_lt h, Nat.shiftLeft_eq]

theorem mask (a i : ℕ) : a &&& (2^i-1) = a%2^i := Nat.and_two_pow_sub_one_eq_mod a i

end Base32
