import SwippCore.BigNum
import SwippCore.Lib.SignPadding

/-!
# Script numbers as machine words

A script number is kept in 64 bits. Its bytes are put together in the word, from which the
bit of the sign is cleared, and at most four bytes are taken. A strict reader also refuses
a last byte that holds nothing but a sign its neighbour has room for.
-/

set_option autoImplicit false

namespace SwippCore.ScriptNum
open SignMagnitude BigNum Relation

def nMaxNumSize : ℕ := 4

def overflow : String := "script number overflow"

def nonMinimal : String := "non-minimally encoded script number"

/-- The loop of `set_vch`, at the byte `i`. -/
def orBytes : ℕ → UInt64 → List UInt8 → UInt64
  | _, result, [] => result
  | i, result, b::vch => orBytes (i+1) (result ||| b.toUInt64 <<< UInt64.ofNat (8*i)) vch

def setVch (vch : List UInt8) : Int64 :=
  match vch.getLast? with
  | none => 0
  | some back =>
    let result := orBytes 0 0 vch
    if back &&& 0x80 ≠ 0 then
      -(result &&& ~~~((0x80 : UInt64) <<< UInt64.ofNat (8*(vch.length-1)))).toInt64
    else result.toInt64

def minimal (vch : List UInt8) : Bool :=
  match vch.getLast? with
  | none => true
  | some back =>
    if back &&& 0x7f = 0 then
      !(decide (vch.length ≤ 1) || vch.getD (vch.length-2) 0 &&& 0x80 == 0)
    else true

def ofVch (vch : List UInt8) (fRequireMinimal : Bool) : Except String Int64 :=
  if nMaxNumSize < vch.length then .error overflow
  else if fRequireMinimal && !minimal vch then .error nonMinimal
  else .ok (setVch vch)

section Word

theorem toNat_shifted (b : UInt8) {i : ℕ} (hi : i < 8) :
    (b.toUInt64 <<< UInt64.ofNat (8*i)).toNat = b.toNat*2^(8*i) := by
  have hb : b.toNat < 2^8 := b.toNat_lt
  have hshift : (UInt64.ofNat (8*i)).toNat%64 = 8*i := by
    rw [UInt64.toNat_ofNat']
    omega
  rw [UInt64.toNat_shiftLeft, hshift, UInt8.toNat_toUInt64, Nat.shiftLeft_eq]
  apply Nat.mod_eq_of_lt
  calc b.toNat*2^(8*i) < 2^8*2^(8*i) := Nat.mul_lt_mul_of_pos_right hb (Nat.two_pow_pos _)
    _ = 2^(8+8*i) := (pow_add 2 8 (8*i)).symm
    _ ≤ 2^64 := Nat.pow_le_pow_right (by decide) (by omega)

theorem or_byte {i : ℕ} (hi : i < 8) {r : UInt64} (hr : r.toNat < 256^i) (b : UInt8) :
    (r ||| b.toUInt64 <<< UInt64.ofNat (8*i)).toNat = r.toNat+256^i*b.toNat := by
  rw [LeadingBytes.byte_pow] at hr ⊢
  rw [UInt64.toNat_or, toNat_shifted b hi, Nat.or_comm, Nat.mul_comm b.toNat,
    ← Nat.two_pow_add_eq_or_of_lt hr, Nat.add_comm]

theorem or_bytes_value (vch : List UInt8) (i : ℕ) (r : UInt64) (hr : r.toNat < 256^i)
    (hlen : i+vch.length ≤ 8) : (orBytes i r vch).toNat = r.toNat+256^i*value vch := by
  induction vch generalizing i r with
  | nil => simp [orBytes, value]
  | cons b vch ih =>
    rw [List.length_cons] at hlen
    have hb : b.toNat < 256 := b.toNat_lt
    have hor := or_byte (by omega) hr b
    have hlt : (r ||| b.toUInt64 <<< UInt64.ofNat (8*i)).toNat < 256^(i+1) := by
      rw [hor, pow_succ]
      calc r.toNat+256^i*b.toNat < 256^i+256^i*b.toNat := Nat.add_lt_add_right hr _
        _ = 256^i*(b.toNat+1) := by ring
        _ ≤ 256^i*256 := Nat.mul_le_mul_left _ hb
    rw [orBytes, ih (i+1) _ hlt (by omega), hor, value, pow_succ]
    ring

theorem masked_add (x m : BitVec 64) : (x &&& ~~~m).toNat+(x &&& m).toNat = x.toNat := by
  have hnone : (x &&& ~~~m) &&& (x &&& m) = 0#64 := by
    ext k hk
    simp only [BitVec.getElem_and, BitVec.getElem_not, BitVec.getElem_zero]
    cases x[k] <;> cases m[k] <;> rfl
  have hall : (x &&& ~~~m) ||| (x &&& m) = x := by
    ext k hk
    simp only [BitVec.getElem_or, BitVec.getElem_and, BitVec.getElem_not]
    cases x[k] <;> cases m[k] <;> rfl
  rw [← BitVec.toNat_add_of_and_eq_zero hnone, BitVec.add_eq_or_of_and_eq_zero _ _ hnone, hall]

theorem clear_bit {x : BitVec 64} {j : ℕ} (hj : j < 64) (h : x.toNat.testBit j = true) :
    (x &&& ~~~(1#64 <<< j)).toNat = x.toNat-2^j := by
  have hone : (1#64 <<< j).toNat = 2^j := by
    rw [BitVec.toNat_shiftLeft, Nat.shiftLeft_eq]
    change 1*2^j%2^64 = 2^j
    rw [Nat.one_mul]
    exact Nat.mod_eq_of_lt (Nat.pow_lt_pow_right (by decide) hj)
  have htaken : (x &&& 1#64 <<< j).toNat = 2^j := by
    rw [BitVec.toNat_and, hone, Nat.and_two_pow, h, Bool.toNat_true, Nat.one_mul]
  have hsum := masked_add x (1#64 <<< j)
  omega

theorem sign_mask {k : ℕ} (hk : k < 8) :
    ((0x80 : UInt64) <<< UInt64.ofNat (8*k)).toBitVec = 1#64 <<< (8*k+7) := by
  apply BitVec.eq_of_toNat_eq
  have hs := toNat_shifted 0x80 hk
  change ((0x80 : UInt64) <<< UInt64.ofNat (8*k)).toNat = 2^7*2^(8*k) at hs
  change ((0x80 : UInt64) <<< UInt64.ofNat (8*k)).toNat = (1#64 <<< (8*k+7)).toNat
  rw [hs, BitVec.toNat_shiftLeft, Nat.shiftLeft_eq, ← pow_add, Nat.add_comm 7]
  change _ = 1*2^(8*k+7)%2^64
  rw [Nat.one_mul]
  exact (Nat.mod_eq_of_lt (Nat.pow_lt_pow_right (by decide) (by omega))).symm

theorem clear_sign {x : UInt64} {bs : List UInt8} {b : UInt8} (hlen : bs.length < 8)
    (hneg : 128 ≤ b.toNat) (hx : x.toNat = value bs+256^bs.length*b.toNat) :
    (x &&& ~~~((0x80 : UInt64) <<< UInt64.ofNat (8*bs.length))).toNat =
      x.toNat-2^(8*bs.length+7) := by
  have hbs := value_lt bs
  have hb : b.toNat < 256 := b.toNat_lt
  have hbit : x.toBitVec.toNat.testBit (8*bs.length+7) = true := by
    rw [Nat.testBit_eq_decide_div_mod_eq, decide_eq_true_eq, UInt64.toNat_toBitVec, hx, pow_add,
      ← LeadingBytes.byte_pow, ← Nat.div_div_eq_div_mul,
      Nat.add_mul_div_left _ _ (LeadingBytes.byte_pow_pos _), Nat.div_eq_of_lt hbs]
    omega
  have hclear := clear_bit (by omega) hbit
  rwa [← sign_mask hlen] at hclear

theorem word_to_int {x : UInt64} (h : x.toNat < 2^63) : x.toInt64.toInt = x.toNat := by
  change x.toBitVec.toInt = x.toBitVec.toNat
  rw [BitVec.toInt_eq_toNat_cond, if_pos]
  change 2*x.toNat < 2^64
  omega

theorem neg_word {x : UInt64} (h : x.toNat < 2^63) : (-x.toInt64).toInt = -(x.toNat : ℤ) := by
  rw [Int64.toInt_neg, word_to_int h, Int.bmod_eq_of_le_mul_two]
  · omega
  · omega

end Word

section Reader

variable (vch : List UInt8)

theorem set_vch_eq (h : vch.length ≤ nMaxNumSize) : (setVch vch).toInt = CScriptNum.setVch vch := by
  rcases List.eq_nil_or_concat vch with rfl | ⟨bs,b,rfl⟩
  · rfl
  rw [List.concat_eq_append] at h ⊢
  have hshort : bs.length ≤ 3 := by
    rw [List.length_append] at h
    exact Nat.le_of_lt_succ h
  have hlen : (bs++[b]).length-1 = bs.length := by simp
  have hvalue := or_bytes_value (bs++[b]) 0 0 (by decide) (by rw [List.length_append]; simp; omega)
  have hlt := value_lt (bs++[b])
  have hpow : 256^(bs++[b]).length ≤ 256^4 := Nat.pow_le_pow_right (by decide) h
  have hone : value [b] = b.toNat := by simp [value]
  rw [pow_zero, Nat.one_mul, UInt64.toNat_zero, Nat.zero_add] at hvalue
  have hword : (orBytes 0 0 (bs++[b])).toNat < 2^32 := by omega
  have hsign : b &&& 0x80 ≠ 0 ↔ 128 ≤ b.toNat := by
    constructor
    · intro hne
      apply Nat.le_of_not_lt
      intro hlow
      exact hne (sign_clear b hlow)
    · intro hhigh
      rw [sign_set b hhigh]
      decide
  rw [setVch, CScriptNum.setVch, List.getLast?_concat, hlen]
  dsimp only
  by_cases hneg : 128 ≤ b.toNat
  · rw [if_pos (hsign.mpr hneg), if_pos hneg]
    have hsplit : (orBytes 0 0 (bs++[b])).toNat = value bs+256^bs.length*b.toNat := by
      rw [hvalue, value_append, hone]
    have hnat := clear_sign (by omega) hneg hsplit
    have hge : 128*256^bs.length ≤ value (bs++[b]) := by
      rw [value_append, hone]
      calc 128*256^bs.length = 256^bs.length*128 := Nat.mul_comm _ _
        _ ≤ 256^bs.length*b.toNat := Nat.mul_le_mul_left _ hneg
        _ ≤ value bs+256^bs.length*b.toNat := Nat.le_add_left _ _
    have hbyte : 2^(8*bs.length+7) = 128*256^bs.length := by
      rw [pow_add, ← LeadingBytes.byte_pow, Nat.mul_comm]
      rfl
    rw [neg_word (by omega), hnat, hvalue, hbyte, Nat.cast_sub hge]
    push_cast
    rfl
  · rw [if_neg (fun hne => hneg (hsign.mp hne)), if_neg hneg, word_to_int (by omega), hvalue]

theorem reverse_snoc (bs : List UInt8) (b : UInt8) : (bs++[b]).reverse = b::bs.reverse := by
  rw [List.reverse_append, List.reverse_singleton, List.singleton_append]

theorem minimal_eq : minimal vch = CScriptNum.isMinimal vch := by
  rcases List.eq_nil_or_concat vch with rfl | ⟨bs,b,rfl⟩
  · rfl
  have hlow := and_low_nat b
  rw [List.concat_eq_append, minimal, List.getLast?_concat, CScriptNum.isMinimal, reverse_snoc]
  dsimp only
  by_cases hzero : b.toNat%128 = 0
  · have hb : b &&& 0x7f = 0 := by
      apply UInt8.toNat_inj.mp
      rw [hlow, hzero]
      rfl
    rw [if_pos hb, hzero]
    rcases List.eq_nil_or_concat bs with rfl | ⟨cs,c,rfl⟩
    · rfl
    have hget : (cs++[c]++[b]).getD ((cs++[c]++[b]).length-2) 0 = c := by simp
    have hsize : decide ((cs++[c]++[b]).length ≤ 1) = false := by simp
    rw [List.concat_eq_append, hget, hsize, reverse_snoc]
    dsimp only
    by_cases hc : 128 ≤ c.toNat
    · simp [sign_set c hc, hc]
    · simp [sign_clear c (by omega), hc]
  · have hb : b &&& 0x7f ≠ 0 := by
      intro heq
      rw [heq] at hlow
      exact hzero hlow.symm
    simp [hb, hzero]

theorem minimal_true_iff : minimal vch = true ↔ Minimal vch := by
  rw [minimal_eq]
  rcases List.eq_nil_or_concat vch with rfl | ⟨bs,b,rfl⟩
  · exact ⟨fun _ => minimal_encode 0,fun _ => rfl⟩
  rw [List.concat_eq_append, minimal_snoc, CScriptNum.isMinimal, reverse_snoc]
  dsimp only
  rcases List.eq_nil_or_concat bs with rfl | ⟨cs,c,rfl⟩
  · simp
  · rw [List.concat_eq_append, reverse_snoc]
    dsimp only
    rw [Bool.or_eq_true, bne_iff_ne, decide_eq_true_eq]
    constructor
    · intro h hzero
      exact ⟨cs,c,rfl,h.resolve_left (fun hne => hne hzero)⟩
    · intro h
      by_cases hzero : b.toNat%128 = 0
      · obtain ⟨ds,d,heq,hd⟩ := h hzero
        obtain ⟨_,hlast⟩ := List.append_inj' heq rfl
        rw [List.cons.injEq] at hlast
        rw [hlast.1]
        exact Or.inr hd
      · exact Or.inl hzero

variable {vch}

theorem of_vch_ok {fRequireMinimal : Bool} :
    (∃ n, ofVch vch fRequireMinimal = .ok n) ↔
      vch.length ≤ nMaxNumSize ∧ (fRequireMinimal = true → Minimal vch) := by
  rw [← minimal_true_iff, ofVch]
  by_cases hlen : nMaxNumSize < vch.length
  · simp [hlen]
  rw [if_neg hlen]
  cases fRequireMinimal with
  | false => simpa using hlen
  | true =>
    cases hmin : minimal vch with
    | false => simp
    | true => simpa using hlen

theorem of_vch_value {fRequireMinimal : Bool} {n : Int64} (h : ofVch vch fRequireMinimal = .ok n) :
    n.toInt = decode vch := by
  have hshort := (of_vch_ok.mp ⟨n,h⟩).1
  rw [ofVch, if_neg (by omega)] at h
  split_ifs at h
  rw [Except.ok.injEq] at h
  rw [← h, set_vch_eq vch hshort, CScriptNum.set_vch_eq]

theorem serialized_of_minimal (hlen : vch.length ≤ nMaxNumSize) (hmin : Minimal vch) :
    serialize (setVch vch) = vch := by
  rw [serialize_eq, set_vch_eq vch hlen, CScriptNum.set_vch_eq, CScriptNum.serialize_eq,
    encode_decode hmin]

end Reader

/-- A number whose bytes fit is read back from them by both readers; the strict one takes
just the bytes that are written for some number and fit; and the other reads one number
from two byte strings exactly where they differ in their padding. -/
theorem script_num_canonical :
    (∀ (n : Int64) (fRequireMinimal : Bool), (serialize n).length ≤ nMaxNumSize →
      ofVch (serialize n) fRequireMinimal = .ok n) ∧
    (∀ vch : List UInt8, (∃ n, ofVch vch true = .ok n) ↔
      vch.length ≤ nMaxNumSize ∧ ∃ n : Int64, serialize n = vch) ∧
    ∀ (u v : List UInt8) (m n : Int64), ofVch u false = .ok m → ofVch v false = .ok n →
      (m = n ↔ SamePadding u v) := by
  refine ⟨?_,?_,?_⟩
  · intro n fRequireMinimal hlen
    have hbytes : serialize n = encode n.toInt := by rw [serialize_eq, CScriptNum.serialize_eq]
    have hmin : Minimal (serialize n) := by
      rw [hbytes]
      exact minimal_encode n.toInt
    obtain ⟨m,hm⟩ := of_vch_ok.mpr ⟨hlen,fun (_ : fRequireMinimal = true) => hmin⟩
    have hvalue := of_vch_value hm
    rw [hbytes, decode_encode] at hvalue
    rw [hm, Int64.toInt_inj.mp hvalue]
  · intro vch
    rw [of_vch_ok]
    constructor
    · rintro ⟨hlen,hmin⟩
      exact ⟨hlen,setVch vch,serialized_of_minimal hlen (hmin rfl)⟩
    · rintro ⟨hlen,n,rfl⟩
      refine ⟨hlen,?_⟩
      intro _
      rw [serialize_eq, CScriptNum.serialize_eq]
      exact minimal_encode n.toInt
  · intro u v m n hm hn
    rw [← decode_eq_iff, ← of_vch_value hm, ← of_vch_value hn, Int64.toInt_inj]

theorem script_num_canonical_small :
    ofVch (serialize (-255)) true = .ok (-255) ∧
      ((-1 : Int64) = -1 ↔ SamePadding [0x81] [1,0x80]) :=
  ⟨script_num_canonical.1 (-255) true (by decide),
    script_num_canonical.2.2 [0x81] [1,0x80] (-1) (-1) (by decide) (by decide)⟩

end SwippCore.ScriptNum
