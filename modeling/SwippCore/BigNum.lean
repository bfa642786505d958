import SwippCore.TargetRequired
import SwippCore.Lib.PrefixCode
import Mathlib.Data.List.GetD

/-!
# Big numbers and their byte forms

Every conversion of a big number goes through the mpi format: four bytes of length,
then the magnitude with its high byte first and the sign in the first bit. Machine words
are written into that format byte by byte, a compact target keeps the length and three
bytes of it, and a script number is the same bytes the other way round.
-/

set_option autoImplicit false

namespace SwippCore.BigNum
open SignMagnitude LeadingBytes PrefixCode

def header (nSize : ℕ) : List UInt8 := (word 4 nSize).reverse

def bnBn2mpi (n : ℤ) : List UInt8 := header (CBigNum.toMpi n).length++CBigNum.toMpi n

/-- `BN_mpi2bn`; it fails where the length is not the one of the header. -/
def bnMpi2bn (d : List UInt8) : Option ℤ :=
  if d.length < 4 then none
  else if value (d.take 4).reverse+4 ≠ d.length then none
  else some (CBigNum.ofMpi (d.drop 4))

def Held (n : ℤ) : Prop := (bnBn2mpi n).length < 2^31

/-- The bytes of `n >> 56` while `n` is shifted by a byte in each round. -/
def highBytes : ℕ → UInt64 → List UInt8
  | 0, _ => []
  | i+1, n => (n >>> 56).toUInt8::highBytes i (n <<< 8)

/-- The loop over the bytes from the high end: zeros in front are left out, and the first
byte that is not zero takes the sign, with a byte before it where its own bit is set. -/
def significant (fNegative : Bool) : List UInt8 → List UInt8
  | [] => []
  | c::cs =>
    if c = 0 then significant fNegative cs
    else if 128 ≤ c.toNat then (if fNegative then 0x80 else 0)::c::cs
    else (if fNegative then c ||| 0x80 else c)::cs

def setPch (p : List UInt8) : Option ℤ := bnMpi2bn (header p.length++p)

/-- The magnitude that `setint64` takes apart. -/
def magnitude (sn : Int64) : UInt64 := if sn < 0 then (-(sn+1)).toUInt64+1 else sn.toUInt64

def setint64 (sn : Int64) : Option ℤ := setPch (significant (sn < 0) (highBytes 8 (magnitude sn)))

def setuint256 (n : Uint256) : Option ℤ := setPch (significant false (word 32 n.toNat).reverse)

/-- The last bytes behind the header, with the sign bit cleared, as a word of `w` bytes. -/
def lowBytes (w : ℕ) (n : ℤ) : ℕ :=
  let vch := bnBn2mpi n
  if vch.length < 4 then 0
  else
    let vch := if 4 < vch.length then vch.set 4 (vch.getD 4 0 &&& 0x7f) else vch
    value ((vch.drop 4).reverse.take w)

def getuint256 (n : ℤ) : Uint256 := BitVec.ofNat 256 (lowBytes 32 n)

def setvch (vch : List UInt8) : Option ℤ := setPch vch.reverse

def getvch (n : ℤ) : List UInt8 :=
  let vch := bnBn2mpi n
  if vch.length ≤ 4 then [] else (vch.drop 4).reverse

/-- The loop of `CScriptNum::serialize`, which ends with the magnitude. -/
def pushBytes : ℕ → UInt64 → List UInt8
  | 0, _ => []
  | i+1, absvalue =>
    if absvalue = 0 then [] else absvalue.toUInt8::pushBytes i (absvalue >>> 8)

/-- `CScriptNum::serialize`; the negation of the least number is that number again. -/
def serialize (v : Int64) : List UInt8 :=
  if v = 0 then []
  else
    let neg := decide (v < 0)
    let result := pushBytes 8 (if neg then -v else v).toUInt64
    match result.getLast? with
    | none => []
    | some back =>
      if 128 ≤ back.toNat then result++[if neg then 0x80 else 0]
      else if neg then result.dropLast++[back ||| 0x80]
      else result

def byteAt (nCompact : UInt32) (shift : UInt32) : UInt8 := ((nCompact >>> shift) &&& 0xff).toUInt8

def setCompact (nCompact : UInt32) : Option ℤ :=
  let nSize := (nCompact >>> 24).toNat
  let vch := (List.replicate (4+nSize) (0 : UInt8)).set 3 (UInt8.ofNat nSize)
  let vch := if 1 ≤ nSize then vch.set 4 (byteAt nCompact 16) else vch
  let vch := if 2 ≤ nSize then vch.set 5 (byteAt nCompact 8) else vch
  let vch := if 3 ≤ nSize then vch.set 6 (byteAt nCompact 0) else vch
  bnMpi2bn vch

def getCompact (n : ℤ) : UInt32 :=
  let vch := bnBn2mpi n
  let nSize := vch.length-4
  let nCompact := UInt32.ofNat nSize <<< 24
  let nCompact := if 1 ≤ nSize then nCompact ||| (vch.getD 4 0).toUInt32 <<< 16 else nCompact
  let nCompact := if 2 ≤ nSize then nCompact ||| (vch.getD 5 0).toUInt32 <<< 8 else nCompact
  if 3 ≤ nSize then nCompact ||| (vch.getD 6 0).toUInt32 <<< 0 else nCompact

/-- The compact form that is written for a number: a mantissa of at least 16 bits under the
sign bit, without bytes behind its length. -/
def Canonical (nCompact : ℕ) : Prop :=
  nCompact = 0 ∨ 0 < nCompact/2^24 ∧ 2^15 ≤ nCompact%2^24 ∧ nCompact%2^24 < 2^23 ∧
    256^(3-nCompact/2^24) ∣ nCompact%2^24

instance (nCompact : ℕ) : Decidable (Canonical nCompact) :=
  inferInstanceAs (Decidable (_ ∨ _ ∧ _ ∧ _ ∧ _))

section Format

variable (n : ℤ)

theorem of_mpi_to_mpi : CBigNum.ofMpi (CBigNum.toMpi n) = n := by
  have hback := decode_encode n
  rwa [← CBigNum.getvch_eq, ← CBigNum.setvch_eq, CBigNum.setvch, CBigNum.getvch,
    List.reverse_reverse] at hback

theorem header_length (n : ℕ) : (header n).length = 4 := by
  rw [header, List.length_reverse, word_length]

theorem bn_bn2mpi_length : (bnBn2mpi n).length = 4+(CBigNum.toMpi n).length := by
  rw [bnBn2mpi, List.length_append, header_length]

theorem set_pch_eq {p : List UInt8} (h : p.length < 2^32) : setPch p = some (CBigNum.ofMpi p) := by
  have htake : (header p.length++p).take 4 = header p.length :=
    List.take_left' (header_length _)
  have hdrop : (header p.length++p).drop 4 = p := List.drop_left' (header_length _)
  have hvalue : value (header p.length).reverse = p.length := by
    rw [header, List.reverse_reverse]
    exact value_word 4 _ (by omega)
  rw [setPch, bnMpi2bn, htake, hdrop, hvalue, List.length_append, header_length, if_neg (by omega),
    if_neg (by omega)]

theorem drop_header : (bnBn2mpi n).drop 4 = CBigNum.toMpi n :=
  List.drop_left' (header_length _)

theorem get_behind (i : ℕ) : (bnBn2mpi n).getD (4+i) 0 = (CBigNum.toMpi n).getD i 0 := by
  rw [bnBn2mpi, List.getD_append_right _ _ _ _ (by rw [header_length]; omega), header_length]
  congr 1
  omega

theorem set_bn2mpi {n : ℤ} (h : Held n) : setPch (CBigNum.toMpi n) = some n := by
  rw [Held, bn_bn2mpi_length] at h
  rw [set_pch_eq (by omega), of_mpi_to_mpi]

end Format

section Magnitude

/-- The magnitude with its high byte first, and a byte of zeros where that has the bit of the sign. -/
def wide (n : ℕ) : List UInt8 := significant false (bytes n).reverse

variable (neg : Bool)

theorem significant_eq (bs : List UInt8) :
    significant neg bs = CBigNum.markSign neg (significant false bs) := by
  induction bs with
  | nil => rfl
  | cons c cs ih =>
    rw [significant, significant]
    by_cases hzero : c = 0
    · rw [if_pos hzero, if_pos hzero]
      exact ih
    rw [if_neg hzero, if_neg hzero]
    by_cases hhigh : 128 ≤ c.toNat
    · rw [if_pos hhigh, if_pos hhigh]
      cases neg <;> rfl
    · rw [if_neg hhigh, if_neg hhigh]
      cases neg <;> rfl

theorem significant_bytes (bs : List UInt8) :
    significant neg bs = significant neg (bytes (value bs.reverse)).reverse := by
  induction bs with
  | nil => rfl
  | cons c cs ih =>
    by_cases hc : c = 0
    · rw [significant, if_pos hc, ih, hc, List.reverse_cons, value_zero]
    · rw [bytes_value, List.reverse_reverse]
      intro b hb
      rw [List.getLast?_reverse, List.head?_cons, Option.some.injEq] at hb
      rwa [← hb]

theorem to_mpi_eq (n : ℤ) : CBigNum.toMpi n = CBigNum.markSign (n < 0) (wide n.natAbs) := by
  rw [CBigNum.toMpi, wide]
  cases hbs : (bytes n.natAbs).reverse with
  | nil => rfl
  | cons b bs =>
    have hb : b ≠ 0 := by
      apply bytes_last n.natAbs
      rw [← List.head?_reverse, hbs, List.head?_cons]
    dsimp only
    rw [significant, if_neg hb]
    rfl

theorem significant_to_mpi {n : ℤ} {bs : List UInt8} (h : value bs.reverse = n.natAbs) :
    significant (n < 0) bs = CBigNum.toMpi n := by
  rw [significant_bytes, h, significant_eq, to_mpi_eq, wide]

theorem mark_sign_length (bs : List UInt8) : (CBigNum.markSign neg bs).length = bs.length := by
  cases bs <;> rfl

theorem significant_length (bs : List UInt8) : (significant neg bs).length ≤ bs.length+1 := by
  induction bs with
  | nil => exact Nat.zero_le _
  | cons c cs ih =>
    rw [significant]
    split_ifs
    all_goals simp only [List.length_cons] at ih ⊢
    all_goals omega

theorem set_significant (n : ℤ) (bs : List UInt8) (h : value bs.reverse = n.natAbs)
    (hlen : bs.length < 2^31) : setPch (significant (n < 0) bs) = some n := by
  have hle := significant_length (n < 0) bs
  rw [set_pch_eq (by omega), significant_to_mpi h, of_mpi_to_mpi]

theorem wide_value (n : ℕ) : value (wide n).reverse = n := by
  rw [wide]
  cases hbs : (bytes n).reverse with
  | nil =>
    rw [List.reverse_eq_nil_iff, bytes_eq_nil] at hbs
    rw [hbs]
    rfl
  | cons b bs =>
    have hb : b ≠ 0 := by
      apply bytes_last n
      rw [← List.head?_reverse, hbs, List.head?_cons]
    have hrev : (b::bs).reverse = bytes n := by rw [← hbs, List.reverse_reverse]
    rw [significant, if_neg hb]
    by_cases hhigh : 128 ≤ b.toNat
    · rw [if_pos hhigh, List.reverse_cons]
      change value ((b::bs).reverse++[0]) = n
      rw [value_zero, hrev, value_bytes]
    · rw [if_neg hhigh]
      change value (b::bs).reverse = n
      rw [hrev, value_bytes]

end Magnitude

section Words

theorem high_bytes_length (i : ℕ) (n : UInt64) : (highBytes i n).length = i := by
  induction i generalizing n with
  | zero => rfl
  | succ i ih => rw [highBytes, List.length_cons, ih]

theorem high_bytes_value {i : ℕ} (n : UInt64) (hi : i ≤ 8) :
    value (highBytes i n).reverse = n.toNat/256^(8-i) := by
  have hn : n.toNat < 2^64 := n.toNat_lt
  induction i generalizing n with
  | zero =>
    rw [highBytes, List.reverse_nil, value]
    omega
  | succ i ih =>
    have hlow : (n <<< 8).toNat = n.toNat%2^56*256 := by
      rw [UInt64.toNat_shiftLeft, Nat.shiftLeft_eq]
      change n.toNat*2^8%2^64 = n.toNat%2^56*256
      omega
    have hhigh : (n >>> 56).toUInt8.toNat = n.toNat/2^56 := by
      rw [UInt64.toNat_toUInt8, UInt64.toNat_shiftRight, Nat.shiftRight_eq_div_pow]
      change n.toNat/2^56%256 = n.toNat/2^56
      omega
    have hsplit : n.toNat = n.toNat%2^56+256^(7-i)*(256^i*(n.toNat/2^56)) := by
      rw [← mul_assoc, ← pow_add, show 7-i+i = 7 by omega]
      omega
    have hquot : n.toNat%2^56*256/256^(8-i) = n.toNat%2^56/256^(7-i) := by
      rw [show 8-i = 7-i+1 by omega, pow_succ (a := 256)]
      exact Nat.mul_div_mul_right _ _ (by decide)
    rw [highBytes, List.reverse_cons, value_append, ih _ (by omega) (n <<< 8).toNat_lt, hlow, hquot,
      List.length_reverse, high_bytes_length, show 8-(i+1) = 7-i by omega]
    conv_rhs => rw [hsplit]
    rw [Nat.add_mul_div_left _ _ (byte_pow_pos _), value, value, hhigh, Nat.mul_zero, Nat.add_zero]

theorem high_bytes_all (n : UInt64) : value (highBytes 8 n).reverse = n.toNat := by
  rw [high_bytes_value n (Nat.le_refl 8)]
  exact Nat.div_one _

theorem lt_zero_iff (v : Int64) : v < 0 ↔ v.toInt < 0 := Int64.lt_iff_toInt_lt

theorem absolute (v : Int64) : (if v < 0 then -v else v).toUInt64.toNat = v.toInt.natAbs := by
  have hcond : v.toInt = if 2*v.toUInt64.toNat < 2^64 then (v.toUInt64.toNat : ℤ)
      else v.toUInt64.toNat-(2^64 : ℕ) := BitVec.toInt_eq_toNat_cond v.toBitVec
  have hlt : v.toUInt64.toNat < 2^64 := v.toUInt64.toNat_lt
  by_cases hneg : v < 0
  · rw [if_pos hneg]
    rw [lt_zero_iff] at hneg
    have hneg' : (-v).toUInt64.toNat = (2^64-v.toUInt64.toNat)%2^64 := BitVec.toNat_neg v.toBitVec
    rw [hneg']
    split_ifs at hcond
    all_goals omega
  · rw [if_neg hneg]
    rw [lt_zero_iff] at hneg
    split_ifs at hcond
    all_goals omega

theorem magnitude_eq (sn : Int64) : (magnitude sn).toNat = sn.toInt.natAbs := by
  have hone : (-(sn+1)).toUInt64+1 = (-sn).toUInt64 := by
    rw [Int64.toUInt64_neg, Int64.toUInt64_add, Int64.toUInt64_neg]
    apply UInt64.toBitVec_inj.mp
    change -(sn.toUInt64.toBitVec+1#64)+1#64 = -sn.toUInt64.toBitVec
    bv_omega
  rw [← absolute, magnitude, hone]
  split_ifs <;> rfl

theorem setint64_eq (sn : Int64) : setint64 sn = some sn.toInt := by
  have hneg : decide (sn < 0) = decide (sn.toInt < 0) := by
    rw [decide_eq_decide]
    exact lt_zero_iff sn
  rw [setint64, hneg]
  apply set_significant
  · rw [high_bytes_all, magnitude_eq]
  · rw [high_bytes_length]
    decide

theorem setuint256_eq (n : Uint256) : setuint256 n = some n.toNat := by
  have hneg : decide ((n.toNat : ℤ) < 0) = false := by simp
  rw [setuint256, ← hneg]
  apply set_significant
  · rw [List.reverse_reverse, Int.natAbs_natCast]
    exact value_word 32 _ n.isLt
  · rw [List.length_reverse, word_length]
    decide

theorem value_take (bs : List UInt8) (w : ℕ) : value (bs.take w) = value bs%256^w := by
  have hlt : value (bs.take w) < 256^w := Nat.lt_of_lt_of_le (value_lt _)
    (Nat.pow_le_pow_right (by decide) (List.length_take_le _ _))
  rcases Nat.le_total bs.length w with hle | hle
  · rw [List.take_of_length_le hle] at hlt ⊢
    exact (Nat.mod_eq_of_lt hlt).symm
  · conv_rhs => rw [← List.take_append_drop w bs]
    rw [value_append, List.length_take_of_le hle, Nat.add_mul_mod_self_left, Nat.mod_eq_of_lt hlt]

theorem wide_head {n : ℕ} {b : UInt8} {bs : List UInt8} (h : wide n = b::bs) : b.toNat < 128 := by
  rw [wide] at h
  generalize (bytes n).reverse = cs at h
  induction cs with
  | nil => cases h
  | cons c cs ih =>
    rw [significant] at h
    by_cases hc : c = 0
    · rw [if_pos hc] at h
      exact ih h
    rw [if_neg hc] at h
    by_cases hhigh : 128 ≤ c.toNat
    · rw [if_pos hhigh] at h
      rw [← (List.cons.inj h).1]
      decide
    · rw [if_neg hhigh] at h
      have hb : c = b := (List.cons.inj h).1
      rw [← hb]
      omega

theorem or_and_low {b : UInt8} (h : b.toNat < 128) : (b ||| 0x80) &&& 0x7f = b := by
  apply UInt8.toNat_inj.mp
  rw [and_low_nat, or_sign h]
  omega

theorem low_bytes_eq (w : ℕ) (n : ℤ) : lowBytes w n = n.natAbs%256^w := by
  have hvalue := wide_value n.natAbs
  unfold lowBytes
  dsimp only
  rw [bn_bn2mpi_length, if_neg (by omega), to_mpi_eq]
  cases hw : wide n.natAbs with
  | nil =>
    rw [hw] at hvalue
    have hdrop := drop_header n
    rw [to_mpi_eq, hw] at hdrop
    rw [mark_sign_length, if_neg (by simp), hdrop, ← hvalue]
    simp [CBigNum.markSign, value]
  | cons b bs =>
    have hb := wide_head hw
    have hget := get_behind n 0
    have hdrop := drop_header n
    rw [to_mpi_eq, hw] at hget hdrop
    rw [mark_sign_length, if_pos (by simp), hget, List.drop_set, if_neg (by decide), hdrop]
    have hclear : ((CBigNum.markSign (n < 0) (b::bs)).set 0
        ((CBigNum.markSign (n < 0) (b::bs)).getD 0 0 &&& 0x7f)) = b::bs := by
      rw [CBigNum.markSign]
      cases decide (n < 0) with
      | false => exact congrArg (·::bs) (low_of_clear hb)
      | true => exact congrArg (·::bs) (or_and_low hb)
    rw [hclear, value_take, ← hw, hvalue]

theorem getuint256_eq (n : ℤ) : (getuint256 n).toNat = n.natAbs%2^256 := by
  rw [getuint256, low_bytes_eq, BitVec.toNat_ofNat]
  exact Nat.mod_mod_of_dvd _ (by decide)

end Words

section Compact

theorem wide_bounds {n : ℕ} {b : UInt8} {bs : List UInt8} (h : (bytes n).reverse = b::bs) :
    b ≠ 0 ∧ n = value bs.reverse+256^bs.length*b.toNat := by
  constructor
  · apply bytes_last n
    rw [← List.head?_reverse, h, List.head?_cons]
  · have hrev : bytes n = bs.reverse++[b] := by
      rw [← List.reverse_reverse (bytes n), h, List.reverse_cons]
    conv_lhs => rw [← value_bytes n, hrev, value_append]
    rw [List.length_reverse, value, value]
    rfl

theorem wide_length (n : ℕ) : (wide n).length = size n := by
  rw [wide]
  cases hbs : (bytes n).reverse with
  | nil =>
    rw [List.reverse_eq_nil_iff, bytes_eq_nil] at hbs
    rw [hbs]
    rfl
  | cons b bs =>
    obtain ⟨hb,hn⟩ := wide_bounds hbs
    have hv := value_lt bs.reverse
    have hpos := byte_pow_pos bs.length
    have hbpos : 0 < b.toNat := Nat.pos_of_ne_zero fun hz => hb (UInt8.toNat_inj.mp hz)
    have hblt : b.toNat < 256 := b.toNat_lt
    rw [List.length_reverse] at hv
    rw [significant, if_neg hb]
    symm
    by_cases hhigh : 128 ≤ b.toNat
    · rw [if_pos hhigh]
      change size n = bs.length+2
      apply size_unique
      · rw [show 8*(bs.length+2-1)-1 = 8*bs.length+7 by omega, pow_add, ← byte_pow]
        calc 256^bs.length*2^7 ≤ 256^bs.length*b.toNat := Nat.mul_le_mul_left _ hhigh
          _ ≤ n := by omega
      · rw [show 8*(bs.length+2)-1 = 8*bs.length+15 by omega, pow_add, ← byte_pow]
        calc n < 256^bs.length+256^bs.length*b.toNat := by omega
          _ = 256^bs.length*(b.toNat+1) := by ring
          _ ≤ 256^bs.length*2^15 := Nat.mul_le_mul_left _ (by omega)
    · rw [if_neg hhigh]
      change size n = bs.length+1
      apply size_unique
      · rw [Nat.add_sub_cancel]
        calc 2^(8*bs.length-1) ≤ 2^(8*bs.length) := Nat.pow_le_pow_right (by decide) (Nat.sub_le _ _)
          _ = 256^bs.length := (byte_pow _).symm
          _ ≤ 256^bs.length*b.toNat := Nat.le_mul_of_pos_right _ hbpos
          _ ≤ n := by omega
      · rw [show 8*(bs.length+1)-1 = 8*bs.length+7 by omega, pow_add, ← byte_pow]
        calc n < 256^bs.length+256^bs.length*b.toNat := by omega
          _ = 256^bs.length*(b.toNat+1) := by ring
          _ ≤ 256^bs.length*2^7 := Nat.mul_le_mul_left _ (by omega)

def lead (p : List UInt8) : ℕ :=
  (p.getD 0 0).toNat*2^16+(p.getD 1 0).toNat*2^8+(p.getD 2 0).toNat

theorem lead_wide (n : ℕ) : lead (wide n) = LeadingBytes.word n := by
  have hlen := wide_length n
  have hvalue := wide_value n
  rw [LeadingBytes.word, ← hlen]
  generalize wide n = p at hvalue ⊢
  subst hvalue
  rcases p with _ | ⟨a,_ | ⟨b,_ | ⟨c,rest⟩⟩⟩
  · rfl
  · change a.toNat*2^16+0*2^8+0 = (a.toNat+256*0)*256^2
    ring
  · change a.toNat*2^16+b.toNat*2^8+0 = (b.toNat+256*(a.toNat+256*0))*256^1
    ring
  · have hlt := value_lt rest.reverse
    have hpos := byte_pow_pos rest.length
    have hsplit : value (a::b::c::rest).reverse =
        value rest.reverse+256^rest.length*(a.toNat*2^16+b.toNat*2^8+c.toNat) := by
      simp only [List.reverse_cons, List.append_assoc, value_append, List.length_reverse]
      congr 2
      change c.toNat+256*0+256^1*(b.toNat+256*0+256^1*(a.toNat+256*0)) = _
      ring
    change a.toNat*2^16+b.toNat*2^8+c.toNat = _
    rw [hsplit]
    rw [List.length_reverse] at hlt
    change _ = if rest.length+3 ≤ 3 then _ else _
    split_ifs with hshort
    · have hnil : rest.length = 0 := by omega
      rw [List.length_eq_zero_iff.mp hnil]
      change _ = (0+256^0*(a.toNat*2^16+b.toNat*2^8+c.toNat))*256^0
      ring
    · have hdiff : (a::b::c::rest).length-3 = rest.length := rfl
      rw [hdiff, Nat.add_mul_div_left _ _ hpos, Nat.div_eq_of_lt hlt, Nat.zero_add]

theorem lead_mark (neg : Bool) {b : UInt8} (bs : List UInt8) (hb : b.toNat < 128) :
    lead (CBigNum.markSign neg (b::bs)) = lead (b::bs)+if neg then 2^23 else 0 := by
  cases neg with
  | false => simp [CBigNum.markSign]
  | true =>
    rw [CBigNum.markSign, lead, lead, List.getD_cons_zero, List.getD_cons_zero, if_pos rfl, or_sign hb,
      if_pos rfl]
    simp only [List.getD_cons_succ]
    ring

theorem shifted (b : UInt8) {k : UInt32} (hk : k.toNat%32 ≤ 24) :
    (b.toUInt32 <<< k).toNat = b.toNat <<< (k.toNat%32) := by
  have hb : b.toNat < 2^8 := b.toNat_lt
  rw [UInt32.toNat_shiftLeft, UInt8.toNat_toUInt32]
  apply Nat.mod_eq_of_lt
  rw [Nat.shiftLeft_eq]
  calc b.toNat*2^(k.toNat%32) < 2^8*2^(k.toNat%32) := Nat.mul_lt_mul_of_pos_right hb (by positivity)
    _ ≤ 2^8*2^24 := Nat.mul_le_mul_left _ (Nat.pow_le_pow_right (by decide) hk)

theorem or_bytes (s : ℕ) (a b c : UInt8) :
    (UInt32.ofNat s <<< 24 ||| a.toUInt32 <<< 16 ||| b.toUInt32 <<< 8 ||| c.toUInt32 <<< 0).toNat =
      s%256*2^24+(a.toNat*2^16+b.toNat*2^8+c.toNat) := by
  have ha : a.toNat < 256 := a.toNat_lt
  have hb : b.toNat < 256 := b.toNat_lt
  have hc : c.toNat < 256 := c.toNat_lt
  have hs : (UInt32.ofNat s <<< 24).toNat = (s%256) <<< 24 := by
    rw [UInt32.toNat_shiftLeft, Nat.shiftLeft_eq, Nat.shiftLeft_eq, UInt32.toNat_ofNat']
    change s%2^32*2^24%2^32 = s%256*2^24
    omega
  rw [UInt32.toNat_or, UInt32.toNat_or, UInt32.toNat_or, hs, shifted a (by decide),
    shifted b (by decide), shifted c (by decide), Nat.or_assoc, Nat.or_assoc]
  change (s%256) <<< 24 ||| (a.toNat <<< 16 ||| (b.toNat <<< 8 ||| c.toNat)) = _
  rw [← Nat.shiftLeft_add_eq_or_of_lt (by omega : c.toNat < 2^8), Nat.shiftLeft_eq b.toNat,
    ← Nat.shiftLeft_add_eq_or_of_lt (by omega : b.toNat*2^8+c.toNat < 2^16), Nat.shiftLeft_eq a.toNat,
    ← Nat.shiftLeft_add_eq_or_of_lt (by omega : a.toNat*2^16+(b.toNat*2^8+c.toNat) < 2^24),
    Nat.shiftLeft_eq]
  omega

theorem or_missing (p : List UInt8) (i : ℕ) (x k : UInt32) (hk : k.toNat%32 ≤ 24) :
    (if i+1 ≤ p.length then x ||| (p.getD i 0).toUInt32 <<< k else x) =
      x ||| (p.getD i 0).toUInt32 <<< k := by
  split_ifs with h
  · rfl
  · apply UInt32.toNat_inj.mp
    rw [List.getD_eq_default _ _ (by omega), UInt32.toNat_or, shifted 0 hk]
    change x.toNat = x.toNat ||| 0 <<< _
    rw [Nat.zero_shiftLeft, Nat.or_zero]

theorem get_compact_bytes (n : ℤ) : (getCompact n).toNat =
    (CBigNum.toMpi n).length%256*2^24+lead (CBigNum.toMpi n) := by
  unfold getCompact
  dsimp only
  rw [bn_bn2mpi_length, Nat.add_sub_cancel_left, get_behind n 0, get_behind n 1, get_behind n 2,
    or_missing _ 0 _ 16 (by decide), or_missing _ 1 _ 8 (by decide), or_missing _ 2 _ 0 (by decide),
    or_bytes]
  rfl

theorem lead_to_mpi (n : ℤ) :
    lead (CBigNum.toMpi n) = LeadingBytes.word n.natAbs+if n < 0 then 2^23 else 0 := by
  rw [to_mpi_eq, ← lead_wide]
  cases hw : wide n.natAbs with
  | nil =>
    have hsize := wide_length n.natAbs
    rw [hw] at hsize
    have hn : ¬n < 0 := by
      intro hneg
      have hpos := size_pos n.natAbs (by omega)
      rw [← hsize] at hpos
      exact absurd hpos (by decide)
    rw [if_neg hn, Nat.add_zero]
    rfl
  | cons b bs =>
    rw [lead_mark _ bs (wide_head hw)]
    simp only [decide_eq_true_eq]

theorem get_compact_eq (n : ℤ) : (getCompact n).toNat = TargetRequired.getCompact n := by
  rw [get_compact_bytes, lead_to_mpi, to_mpi_eq, mark_sign_length, wide_length,
    TargetRequired.getCompact, Nat.add_assoc]

/-- The bytes that `SetCompact` fills. -/
def mantissa (x y z : UInt8) : ℕ → List UInt8
  | 0 => []
  | 1 => [x]
  | 2 => [x,y]
  | k+3 => x::y::z::List.replicate k 0

theorem mantissa_length (x y z : UInt8) (k : ℕ) : (mantissa x y z k).length = k := by
  match k with
  | 0 => rfl
  | 1 => rfl
  | 2 => rfl
  | k+3 =>
    change (List.replicate k 0).length+3 = k+3
    rw [List.length_replicate]

theorem short_header {k : ℕ} (hk : k < 256) : header k = [0,0,0,UInt8.ofNat k] := by
  have hzero : k/256 = 0 := by omega
  simp [header, PrefixCode.word, hzero]

theorem filled (x y z : UInt8) (k : ℕ) (hk : k < 256) :
    (let vch := (List.replicate (4+k) (0 : UInt8)).set 3 (UInt8.ofNat k)
    let vch := if 1 ≤ k then vch.set 4 x else vch
    let vch := if 2 ≤ k then vch.set 5 y else vch
    if 3 ≤ k then vch.set 6 z else vch) =
      header (mantissa x y z k).length++mantissa x y z k := by
  rw [mantissa_length, short_header hk]
  match k with
  | 0 => rfl
  | 1 => rfl
  | 2 => rfl
  | k+3 =>
    dsimp only
    rw [if_pos (by omega), if_pos (by omega), if_pos (by omega), show 4+(k+3) = k+7 by omega]
    rfl

theorem value_replicate (k : ℕ) : value (List.replicate k 0) = 0 := by
  induction k with
  | zero => rfl
  | succ k ih =>
    rw [List.replicate_succ, value, ih]
    rfl

theorem of_mpi_mantissa {c : ℕ} {x y z : UInt8} {k : ℕ} (hc : c/2^24 = k)
    (hw : c%2^24 = x.toNat*2^16+y.toNat*2^8+z.toNat) :
    CBigNum.ofMpi (mantissa x y z k) = SwippCore.setCompact c := by
  have hx : x.toNat < 256 := x.toNat_lt
  have hy : y.toNat < 256 := y.toNat_lt
  have hz : z.toNat < 256 := z.toNat_lt
  have hsign : 2^23 ≤ c%2^24 ↔ 128 ≤ x.toNat := by omega
  have hmag : c%2^24%2^23 = x.toNat%128*2^16+y.toNat*2^8+z.toNat := by omega
  have hread : ∀ bs : List UInt8, ∀ v : ℕ,
      x.toNat%128*256^bs.length+value bs.reverse = v →
      CBigNum.ofMpi (x::bs) = if 2^23 ≤ c%2^24 then -(v : ℤ) else v := by
    intro bs v hv
    rw [CBigNum.ofMpi, hv, ofSplit]
    simp only [decide_eq_true_eq, hsign]
  unfold SwippCore.setCompact
  dsimp only
  rw [hc, hmag]
  obtain rfl | rfl | rfl | ⟨k,rfl⟩ : k = 0 ∨ k = 1 ∨ k = 2 ∨ ∃ j, k = j+3 := by
    rcases k with _ | _ | _ | k <;> simp
  · have hzero : (x.toNat%128*2^16+y.toNat*2^8+z.toNat)/256^3 = 0 := by omega
    change CBigNum.ofMpi [] = if 2^23 ≤ c%2^24 then
      -(((x.toNat%128*2^16+y.toNat*2^8+z.toNat)/256^3 : ℕ) : ℤ)
      else (((x.toNat%128*2^16+y.toNat*2^8+z.toNat)/256^3 : ℕ) : ℤ)
    rw [hzero]
    split_ifs
    · rfl
    · rfl
  · apply hread
    change x.toNat%128*1+0 = (x.toNat%128*2^16+y.toNat*2^8+z.toNat)/256^2
    omega
  · apply hread
    change x.toNat%128*256+(y.toNat+256*0) = (x.toNat%128*2^16+y.toNat*2^8+z.toNat)/256^1
    omega
  · have hvalue : value (y::z::List.replicate k 0).reverse = 256^k*(z.toNat+256*y.toNat) := by
      rw [List.reverse_cons, List.reverse_cons, List.append_assoc, List.reverse_replicate,
        value_append, value_replicate, List.length_replicate, Nat.zero_add]
      rfl
    have hlen : (y::z::List.replicate k (0 : UInt8)).length = k+2 := by simp
    have hmul : (if k+3 ≤ 3 then (x.toNat%128*2^16+y.toNat*2^8+z.toNat)/256^(3-(k+3))
        else (x.toNat%128*2^16+y.toNat*2^8+z.toNat)*256^(k+3-3)) =
        (x.toNat%128*2^16+y.toNat*2^8+z.toNat)*256^k := by
      split_ifs with hk
      · have hzero : k = 0 := by omega
        rw [hzero]
        omega
      · rfl
    apply hread
    rw [hvalue, hlen, hmul, pow_add]
    ring

theorem byte_at_eq (c k : UInt32) : (byteAt c k).toNat = c.toNat/2^(k.toNat%32)%256 := by
  rw [byteAt, UInt32.toNat_toUInt8, UInt32.toNat_and, UInt32.toNat_shiftRight,
    Nat.shiftRight_eq_div_pow]
  change (c.toNat/2^(k.toNat%32) &&& (2^8-1))%256 = _
  rw [Nat.and_two_pow_sub_one_eq_mod]
  exact Nat.mod_mod _ _

theorem set_compact_eq (c : UInt32) : setCompact c = some (SwippCore.setCompact c.toNat) := by
  have hc : c.toNat < 2^32 := c.toNat_lt
  have hsize : (c >>> 24).toNat = c.toNat/2^24 := by
    rw [UInt32.toNat_shiftRight, Nat.shiftRight_eq_div_pow]
    rfl
  have hword : c.toNat%2^24 = (byteAt c 16).toNat*2^16+(byteAt c 8).toNat*2^8+(byteAt c 0).toNat := by
    rw [byte_at_eq, byte_at_eq, byte_at_eq]
    change c.toNat%2^24 = c.toNat/2^16%256*2^16+c.toNat/2^8%256*2^8+c.toNat/2^0%256
    omega
  have hfill := filled (byteAt c 16) (byteAt c 8) (byteAt c 0) (c.toNat/2^24) (by omega)
  unfold setCompact
  dsimp only at hfill ⊢
  rw [hsize, hfill]
  change setPch _ = _
  rw [set_pch_eq (by rw [mantissa_length]; omega), of_mpi_mantissa rfl hword]

end Compact

section Scripts

theorem getvch_eq (n : ℤ) : getvch n = CBigNum.getvch n := by
  unfold getvch
  dsimp only
  rw [drop_header, bn_bn2mpi_length, CBigNum.getvch]
  split_ifs with hlen
  · rw [List.length_eq_zero_iff.mp (by omega : (CBigNum.toMpi n).length = 0)]
    rfl
  · rfl

theorem set_getvch (n : ℤ) (h : Held n) : setvch (getvch n) = some n := by
  rw [setvch, getvch_eq, CBigNum.getvch, List.reverse_reverse, set_bn2mpi h]

theorem held_of_lt (n : ℤ) (k : ℕ) (h : n.natAbs < 2^(8*k)) (hk : k < 2^30) : Held n := by
  have hle := size_le n.natAbs k h
  rw [Held, bn_bn2mpi_length, to_mpi_eq, mark_sign_length, wide_length]
  omega

theorem push_bytes_eq (i : ℕ) (a : UInt64) (h : a.toNat < 256^i) : pushBytes i a = bytes a.toNat := by
  induction i generalizing a with
  | zero =>
    rw [pow_zero, Nat.lt_one_iff] at h
    rw [h]
    rfl
  | succ i ih =>
    rw [pushBytes]
    by_cases ha : a = 0
    · rw [if_pos ha, ha]
      rfl
    have hpos : 0 < a.toNat := by
      apply Nat.pos_of_ne_zero
      intro hz
      exact ha (UInt64.toNat_inj.mp hz)
    have hshift : (a >>> 8).toNat = a.toNat/256 := by
      rw [UInt64.toNat_shiftRight, Nat.shiftRight_eq_div_pow]
      rfl
    have hbyte : a.toUInt8 = UInt8.ofNat (a.toNat%256) := by
      apply UInt8.toNat_inj.mp
      simp
    rw [pow_succ] at h
    rw [if_neg ha, ih _ (by rw [hshift]; omega), hshift, hbyte, bytes, bytes,
      Nat.digits_def' (by decide) hpos, List.map_cons]

/-- On a machine word the loop over the shifted magnitude writes what the number has. -/
theorem serialize_eq (v : Int64) : serialize v = CScriptNum.serialize v.toInt := by
  have hpush := push_bytes_eq 8 (if v < 0 then -v else v).toUInt64 (UInt64.toNat_lt _)
  rw [absolute] at hpush
  have hneg : decide (v < 0) = decide (v.toInt < 0) := by
    rw [decide_eq_decide]
    exact lt_zero_iff v
  have hsame : (if decide (v < 0) = true then -v else v) = if v < 0 then -v else v := by simp
  unfold serialize CScriptNum.serialize
  dsimp only
  rw [hsame, hpush, hneg]
  by_cases hv : v = 0
  · rw [if_pos hv, hv]
    rfl
  · rw [if_neg hv]
    cases hlast : (bytes v.toInt.natAbs).getLast? with
    | none => rfl
    | some back => simp only [decide_eq_true_eq]

end Scripts

section Targets

theorem size_two_pow (k : ℕ) : size (2^k) = (k+1)/8+1 := by
  rw [size, if_neg (Nat.two_pow_pos k).ne', Nat.log2_two_pow]

theorem le_of_size_ge {n : ℕ} (hs : 256 ≤ size n) : 2^2039 ≤ n := by
  have hn : n ≠ 0 := by
    rintro rfl
    exact absurd hs (by decide)
  have hexp : 2039 ≤ 8*(size n-1)-1 := by omega
  apply Nat.le_trans _ (le_of_size hn)
  apply Nat.pow_le_pow_right
  · decide
  · exact hexp

theorem size_lt (n : ℕ) (h : n < 2^2039) : size n < 256 := by
  by_contra hge
  exact Nat.lt_irrefl n (Nat.lt_of_lt_of_le h (le_of_size_ge (Nat.le_of_not_lt hge)))

theorem pow_sub_lt (k : ℕ) (hk : k ≤ 2039) : 2^k-1 < 2^2039 := by
  apply Nat.lt_of_lt_of_le (Nat.sub_lt (Nat.two_pow_pos k) Nat.one_pos)
  apply Nat.pow_le_pow_right
  · decide
  · exact hk

theorem get_compact_nat (n : ℕ) : (getCompact n).toNat = size n%256*2^24+LeadingBytes.word n := by
  rw [get_compact_eq, TargetRequired.getCompact, if_neg (by omega), Int.natAbs_natCast, Nat.add_zero]

theorem set_get_compact (n : ℕ) (h : n < 2^2039) : setCompact (getCompact n) = some (cut n : ℤ) := by
  rw [set_compact_eq, get_compact_eq, TargetRequired.set_get_compact n (size_lt n h)]

theorem get_compact_mono (m n : ℕ) (hmn : m ≤ n) (hn : n < 2^2039) : getCompact m ≤ getCompact n := by
  have hw := word_lt m
  have hm := size_lt m (by omega)
  have hs := size_lt n hn
  rw [UInt32.le_iff_toNat_le, get_compact_nat, get_compact_nat, Nat.mod_eq_of_lt hm, Nat.mod_eq_of_lt hs]
  rcases Nat.lt_or_eq_of_le (size_mono hmn) with hlt | heq
  · omega
  · have hword := word_mono hmn heq
    omega

theorem set_compact_nat (c : ℕ) (hc : c < 2^32) (hsign : c%2^24 < 2^23) :
    ∃ n : ℕ, SwippCore.setCompact c = n ∧ n < 2^2039 ∧
      (c/2^24 ≤ 3 → n = c%2^24/256^(3-c/2^24)) ∧ (3 < c/2^24 → n = c%2^24*256^(c/2^24-3)) := by
  unfold SwippCore.setCompact
  dsimp only
  rw [if_neg (by omega), Nat.mod_eq_of_lt hsign]
  refine ⟨_,rfl,?_,fun h => if_pos h,fun h => if_neg (by omega)⟩
  split_ifs with h
  · have hle := Nat.div_le_self (c%2^24) (256^(3-c/2^24))
    have hpow : 2^23 ≤ 2^2039 := by
      apply Nat.pow_le_pow_right
      · decide
      · decide
    exact Nat.lt_of_lt_of_le (Nat.lt_of_le_of_lt hle hsign) hpow
  · calc c%2^24*256^(c/2^24-3) < 2^23*256^(c/2^24-3) :=
          Nat.mul_lt_mul_of_pos_right hsign (byte_pow_pos _)
      _ ≤ 2^2039 := by
          rw [byte_pow, ← pow_add]
          apply Nat.pow_le_pow_right
          · decide
          · omega

theorem canonical_iff (c : UInt32) (hsign : c.toNat%2^24 < 2^23) :
    (setCompact c).map getCompact = some c ↔ Canonical c.toNat := by
  have hc : c.toNat < 2^32 := c.toNat_lt
  obtain ⟨n,hn,hlt,hshort,hlong⟩ := set_compact_nat c.toNat hc hsign
  have hs := size_lt n hlt
  have hw := word_lt n
  have hform : (setCompact c).map getCompact = some c ↔
      size n*2^24+LeadingBytes.word n = c.toNat := by
    rw [set_compact_eq, hn, Option.map_some, Option.some_inj, ← UInt32.toNat_inj, get_compact_nat,
      Nat.mod_eq_of_lt hs]
  rw [hform]
  constructor
  · intro heq
    by_cases hz : n = 0
    · left
      rw [← heq, hz]
      rfl
    · right
      have hdiv : c.toNat/2^24 = size n := by omega
      have hmod : c.toNat%2^24 = LeadingBytes.word n := by omega
      rw [hdiv, hmod]
      refine ⟨size_pos n hz,le_word hz,hw,?_⟩
      rw [LeadingBytes.word]
      split_ifs with hle
      · exact Dvd.intro_left n rfl
      · rw [show 3-size n = 0 by omega]
        exact one_dvd _
  · intro hcanon
    rcases hcanon with hz | ⟨hpos,hlow,_,hdvd⟩
    · have hzero : n = 0 := by
        rw [hshort (by rw [hz]; decide), hz]
        rfl
      rw [hzero, hz]
      rfl
    · obtain ⟨hsize,hword⟩ := made (c.toNat/2^24) (c.toNat%2^24) n hpos hlow hsign
        (fun hle => by rw [hshort hle, Nat.div_mul_cancel hdvd]) hlong
      rw [hsize, hword]
      omega

end Targets

/-- The compact form keeps the leading bytes of every number that its length can hold, in
order and without change to a canonical form; words, byte vectors and script numbers keep
the whole number. -/
theorem conversions_faithful :
    (∀ n : ℕ, 0 < n → n < 2^2039 →
      setCompact (getCompact n) = some (cut n : ℤ) ∧ cut n ≤ n ∧ (n-cut n)*2^15 < n) ∧
    (∀ c : UInt32, Canonical c.toNat →
      ∃ n, setCompact c = some n ∧ 0 ≤ n ∧ getCompact n = c) ∧
    (∀ m n : ℕ, m ≤ n → n < 2^2039 → getCompact m ≤ getCompact n) ∧
    (∀ u : Uint256, ∃ n, setuint256 u = some n ∧ n = u.toNat ∧ getuint256 n = u) ∧
    (∀ n : ℤ, Held n → setvch (getvch n) = some n) ∧
    ∀ v : Int64, setint64 v = some v.toInt ∧ getvch v.toInt = serialize v ∧
      setvch (serialize v) = some v.toInt := by
  refine ⟨?_,?_,?_,?_,set_getvch,?_⟩
  · intro n hn hlt
    exact ⟨set_get_compact n hlt,cut_le n,cut_error n hn⟩
  · intro c hc
    have hsign : c.toNat%2^24 < 2^23 := by
      rcases hc with hz | ⟨_,_,hsign,_⟩
      · rw [hz]
        decide
      · exact hsign
    obtain ⟨n,hn,_⟩ := set_compact_nat c.toNat c.toNat_lt hsign
    have hback := (canonical_iff c hsign).mpr hc
    rw [set_compact_eq, hn, Option.map_some, Option.some_inj] at hback
    exact ⟨n,by rw [set_compact_eq, hn],Int.natCast_nonneg n,hback⟩
  · intro m n hmn hlt
    exact get_compact_mono m n hmn hlt
  · intro u
    refine ⟨u.toNat,setuint256_eq u,rfl,?_⟩
    apply BitVec.eq_of_toNat_eq
    rw [getuint256_eq, Int.natAbs_natCast]
    exact Nat.mod_eq_of_lt u.isLt
  · intro v
    have hlow := v.le_toInt
    have hhigh := v.toInt_lt
    have hheld := held_of_lt v.toInt 8 (by omega) (by decide)
    have hbytes : getvch v.toInt = serialize v := by
      rw [getvch_eq, serialize_eq, getvch_eq_serialize]
    refine ⟨setint64_eq v,hbytes,?_⟩
    rw [← hbytes]
    exact set_getvch v.toInt hheld

theorem conversions_of_limit :
    setCompact (getCompact (2^236-1 : ℕ)) = some (cut (2^236-1) : ℤ) ∧
      (∃ n, setCompact 0x1d00ffff = some n ∧ 0 ≤ n ∧ getCompact n = 0x1d00ffff) ∧
      getCompact (2^222-1 : ℕ) ≤ getCompact (2^236-1 : ℕ) ∧ setvch (getvch (-255)) = some (-255) :=
  ⟨(conversions_faithful.1 (2^236-1) (by norm_num) (pow_sub_lt 236 (by decide))).1,
    conversions_faithful.2.1 0x1d00ffff (by decide),
    conversions_faithful.2.2.1 (2^222-1) (2^236-1) (by norm_num) (pow_sub_lt 236 (by decide)),
    conversions_faithful.2.2.2.2.1 (-255) (held_of_lt (-255) 8 (by decide) (by decide))⟩

theorem lost {n : ℕ} (hn : 0 < n) (hs : size n = 256) (hw : LeadingBytes.word n = 2^15) :
    setCompact (getCompact n) ≠ some (cut n : ℤ) := by
  have hc : (getCompact n).toNat = 2^15 := by
    rw [get_compact_nat, hs, hw]
    rfl
  have hzero : SwippCore.setCompact (2^15) = 0 := by decide
  have hcut := cut_pos hn
  rw [set_compact_eq, hc, hzero]
  intro heq
  have hnat : (0 : ℤ) = cut n := Option.some.inj heq
  omega

/-- One number more has a length that is lost from the compact form. -/
theorem compact_length_lost :
    ∃ n : ℕ, 0 < n ∧ setCompact (getCompact n) ≠ some (cut n : ℤ) := by
  have hpos := Nat.two_pow_pos 2039
  have hsize : size (2^2039) = 256 := by rw [size_two_pow]
  have hword : LeadingBytes.word (2^2039) = 2^15 := by
    rw [LeadingBytes.word, hsize, if_neg (by decide), byte_pow, Nat.pow_div (by decide) (by decide)]
  exact ⟨2^2039,hpos,lost hpos hsize hword⟩

end SwippCore.BigNum
