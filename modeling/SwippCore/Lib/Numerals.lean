import Mathlib.Data.Nat.Digits.Lemmas
import Mathlib.Data.List.TakeWhile

/-!
# Numerals

Numbers as bytes, by their leading bytes, and as decimal digits.
-/

set_option autoImplicit false

/-! ## Integers as bytes with a sign bit -/

namespace SignMagnitude

def value : List UInt8 → ℕ
  | [] => 0
  | b::bs => b.toNat+256*value bs

def bytes (n : ℕ) : List UInt8 := (Nat.digits 256 n).map UInt8.ofNat

def close (neg : Bool) : List UInt8 → List UInt8
  | [] => []
  | [b] =>
    if 128 ≤ b.toNat then [b,if neg then 0x80 else 0] else [if neg then b ||| 0x80 else b]
  | b::c::bs => b::close neg (c::bs)

def split : List UInt8 → Bool × ℕ
  | [] => (false,0)
  | [b] => (128 ≤ b.toNat,b.toNat%128)
  | b::c::bs => ((split (c::bs)).1,b.toNat+256*(split (c::bs)).2)

def ofSplit (p : Bool × ℕ) : ℤ := if p.1 then -p.2 else p.2

def decode (bs : List UInt8) : ℤ := ofSplit (split bs)

def encode (n : ℤ) : List UInt8 := close (n < 0) (bytes n.natAbs)

theorem value_append (as bs : List UInt8) :
    value (as++bs) = value as+256^as.length*value bs := by
  induction as with
  | nil => simp [value]
  | cons a as ih =>
    rw [List.cons_append, value, ih, value, List.length_cons, pow_succ]
    ring

variable (bs : List UInt8)

theorem value_lt : value bs < 256^bs.length := by
  induction bs with
  | nil => simp [value]
  | cons b bs ih =>
    have hb : b.toNat < 256 := b.toNat_lt
    rw [value, List.length_cons, pow_succ]
    omega

theorem value_map {ds : List ℕ} (h : ∀ d ∈ ds, d < 256) :
    value (ds.map UInt8.ofNat) = Nat.ofDigits 256 ds := by
  induction ds with
  | nil => rfl
  | cons d ds ih =>
    have hd := h d List.mem_cons_self
    rw [List.map_cons, value, ih fun e he => h e (List.mem_cons_of_mem d he),
      Nat.ofDigits_cons, UInt8.toNat_ofNat_of_lt' hd]

theorem value_bytes (n : ℕ) : value (bytes n) = n := by
  rw [bytes, value_map fun d hd => Nat.digits_lt_base (by decide) hd, Nat.ofDigits_digits]

theorem bytes_eq_nil (n : ℕ) : bytes n = [] ↔ n = 0 := by
  rw [bytes, List.map_eq_nil_iff, Nat.digits_eq_nil_iff_eq_zero]

theorem value_zero : value (bs++[0]) = value bs := by
  rw [value_append]
  simp [value]

theorem bytes_value (h : ∀ b, bs.getLast? = some b → b ≠ 0) : bytes (value bs) = bs := by
  have hmap : bs = (bs.map UInt8.toNat).map UInt8.ofNat := by
    rw [List.map_map]
    exact (List.map_id'' (fun b => UInt8.ofNat_toNat) bs).symm
  have hlt : ∀ d ∈ bs.map UInt8.toNat, d < 256 := by
    intro d hd
    obtain ⟨b,_,rfl⟩ := List.mem_map.mp hd
    exact b.toNat_lt
  have hv : value bs = Nat.ofDigits 256 (bs.map UInt8.toNat) := by
    conv_lhs => rw [hmap]
    exact value_map hlt
  rw [bytes, hv, Nat.digits_ofDigits 256 (by decide) _ hlt, ← hmap]
  intro hne hz
  have hne' : bs ≠ [] := fun hnil => hne (by rw [hnil]; rfl)
  rw [List.getLast_map] at hz
  exact h _ (List.getLast?_eq_some_getLast hne') (UInt8.toNat_inj.mp hz)

theorem bytes_last (n : ℕ) (b : UInt8) (h : (bytes n).getLast? = some b) : b ≠ 0 := by
  have hn : n ≠ 0 := by
    rintro rfl
    simp [bytes] at h
  have hne : Nat.digits 256 n ≠ [] := Nat.digits_ne_nil_iff_ne_zero.mpr hn
  have hlast := Nat.getLast_digit_ne_zero 256 hn
  have hlt := Nat.digits_lt_base (b := 256) (m := n) (by decide) (List.getLast_mem hne)
  rw [bytes, List.getLast?_map, List.getLast?_eq_some_getLast hne, Option.map_some,
    Option.some.injEq] at h
  rw [← h]
  intro hz
  apply hlast
  have hto := congrArg UInt8.toNat hz
  rwa [UInt8.toNat_ofNat_of_lt' hlt] at hto

theorem split_snoc (b : UInt8) :
    split (bs++[b]) = (decide (128 ≤ b.toNat),value bs+256^bs.length*(b.toNat%128)) := by
  induction bs with
  | nil => simp [split, value]
  | cons c bs ih =>
    cases bs with
    | nil =>
      simp only [List.nil_append, List.cons_append, split, value, List.length_cons,
        List.length_nil]
      simp
    | cons d bs =>
      rw [List.cons_append] at ih
      have hc : value (c::d::bs) = c.toNat+256*value (d::bs) := rfl
      rw [List.cons_append, List.cons_append, split, ih, hc,
        List.length_cons (a := c), pow_succ]
      simp only [Prod.mk.injEq, true_and]
      ring

theorem close_snoc (neg : Bool) (bs : List UInt8) (b : UInt8) :
    close neg (bs++[b]) =
      bs++if 128 ≤ b.toNat then [b,if neg then 0x80 else 0] else [if neg then b ||| 0x80 else b] := by
  induction bs with
  | nil => rfl
  | cons c bs ih =>
    cases bs with
    | nil => rfl
    | cons d bs =>
      rw [List.cons_append, List.cons_append, close, ← List.cons_append, ih]
      rfl

theorem or_sign {b : UInt8} (h : b.toNat < 128) : (b ||| 0x80).toNat = b.toNat+128 := by
  have hsign : (0x80 : UInt8).toNat = 2^7*1 := rfl
  rw [UInt8.toNat_or, hsign, Nat.or_comm, ← Nat.two_pow_add_eq_or_of_lt h]
  omega

theorem and_low_nat (b : UInt8) : (b &&& 0x7f).toNat = b.toNat%128 := by
  rw [UInt8.toNat_and]
  change b.toNat &&& (2^7-1) = b.toNat%128
  exact Nat.and_two_pow_sub_one_eq_mod b.toNat 7

theorem low_of_clear {b : UInt8} (h : b.toNat < 128) : b &&& 0x7f = b := by
  apply UInt8.toNat_inj.mp
  rw [and_low_nat]
  exact Nat.mod_eq_of_lt h

theorem split_close (neg : Bool) {bs : List UInt8} (h : bs ≠ []) :
    split (close neg bs) = (neg,value bs) := by
  rcases List.eq_nil_or_concat bs with rfl | ⟨init,b,rfl⟩
  · exact absurd rfl h
  rw [List.concat_eq_append, close_snoc, value_append]
  have hb : b.toNat < 256 := b.toNat_lt
  have hv : value [b] = b.toNat := by simp [value]
  rw [hv]
  split
  · have hsnoc : init++[b,if neg then 0x80 else 0] = (init++[b])++[if neg then 0x80 else 0] := by
      simp
    rw [hsnoc, split_snoc, value_append, hv]
    cases neg <;> simp
  · next hlow =>
    have hlow : b.toNat < 128 := by omega
    rw [split_snoc]
    cases neg with
    | false =>
      have hmod : b.toNat%128 = b.toNat := Nat.mod_eq_of_lt hlow
      simp [hmod, hlow]
    | true =>
      have hor := or_sign hlow
      have hmod : (b.toNat+128)%128 = b.toNat := by omega
      simp [hor, hmod]

theorem decode_encode (n : ℤ) : decode (encode n) = n := by
  rw [decode, encode]
  by_cases hn : n = 0
  · rw [hn]
    rfl
  rw [split_close _ fun h => hn (Int.natAbs_eq_zero.mp ((bytes_eq_nil _).mp h)), value_bytes,
    ofSplit]
  by_cases hneg : n < 0
  · simp only [hneg, decide_true, if_true]
    omega
  · simp only [hneg, decide_false, Bool.false_eq_true, if_false]
    omega

theorem split_lt {bs : List UInt8} (k : ℕ) (h : bs.length ≤ k+1) : (split bs).2 < 128*256^k := by
  induction bs generalizing k with
  | nil => simp [split]
  | cons b bs ih =>
    cases bs with
    | nil =>
      rw [split]
      have hpow : 0 < 256^k := by positivity
      have hmod : b.toNat%128 < 128 := Nat.mod_lt _ (by decide)
      nlinarith
    | cons c bs =>
      cases k with
      | zero => simp at h
      | succ k =>
        have hrest := ih k (by simpa using h)
        have hb : b.toNat < 256 := b.toNat_lt
        rw [split, pow_succ]
        omega

theorem decode_bounds (k : ℕ) (h : bs.length ≤ k+1) :
    -(128*256^k : ℤ) < decode bs ∧ decode bs < 128*256^k := by
  have hlt : ((split bs).2 : ℤ) < 128*256^k := by exact_mod_cast split_lt k h
  rw [decode, ofSplit]
  split <;> constructor <;> linarith [Int.natCast_nonneg (split bs).2]

example : encode (-255) = [0xff,0x80] := by decide
example : decode [0x80] = 0 := by decide

end SignMagnitude

/-! ## The leading bytes of a number -/

namespace LeadingBytes

def size (n : ℕ) : ℕ := if n = 0 then 0 else (Nat.log2 n+1)/8+1

def word (n : ℕ) : ℕ := if size n ≤ 3 then n*256^(3-size n) else n/256^(size n-3)

def cut (n : ℕ) : ℕ := if size n ≤ 3 then n else n/256^(size n-3)*256^(size n-3)

theorem byte_pow (k : ℕ) : 256^k = 2^(8*k) := by
  rw [pow_mul]
  rfl

theorem byte_pow_pos (k : ℕ) : 0 < 256^k := Nat.pow_pos (by decide)

variable (n : ℕ)

theorem lt_of_size (hn : n ≠ 0) : n < 2^(8*size n-1) := by
  rw [← Nat.log2_lt hn, size, if_neg hn]
  omega

theorem le_of_size {n : ℕ} (hn : n ≠ 0) : 2^(8*(size n-1)-1) ≤ n := by
  rw [← Nat.le_log2 hn, size, if_neg hn]
  omega

theorem size_pos (hn : n ≠ 0) : 0 < size n := by
  rw [size, if_neg hn]
  exact Nat.succ_pos _

theorem size_unique (s : ℕ) (hlow : 2^(8*(s-1)-1) ≤ n) (hhigh : n < 2^(8*s-1)) : size n = s := by
  have hn : n ≠ 0 := by
    rintro rfl
    exact absurd hlow (Nat.not_le_of_gt (Nat.two_pow_pos _))
  have hl := (Nat.le_log2 hn).mpr hlow
  have hh := (Nat.log2_lt hn).mpr hhigh
  rw [size, if_neg hn]
  omega

theorem size_mono {a b : ℕ} (h : a ≤ b) : size a ≤ size b := by
  unfold size
  split_ifs with ha hb
  · exact Nat.le_refl 0
  · exact Nat.zero_le _
  · omega
  · have hlog : Nat.log2 a ≤ Nat.log2 b :=
      (Nat.le_log2 (by assumption)).mpr (Nat.le_trans (Nat.log2_self_le ha) h)
    omega

theorem size_le (k : ℕ) (h : n < 2^(8*k)) : size n ≤ k+1 := by
  unfold size
  split_ifs with hn
  · exact Nat.zero_le _
  · have hlog := (Nat.log2_lt hn).mpr h
    omega

theorem high_le (h : 3 < size n) : 2^15*256^(size n-3) ≤ n := by
  have hn : n ≠ 0 := by
    rintro rfl
    exact absurd h (by decide)
  have hle := le_of_size hn
  rw [byte_pow, ← pow_add]
  rwa [show 15+8*(size n-3) = 8*(size n-1)-1 by omega]

theorem word_lt : word n < 2^23 := by
  unfold word
  by_cases hn : n = 0
  · rw [hn]
    decide
  have hlt := lt_of_size n hn
  have hpos := size_pos n hn
  split_ifs with hs
  · have hmul := Nat.mul_lt_mul_of_pos_right hlt (byte_pow_pos (3-size n))
    rw [byte_pow, ← pow_add, show 8*size n-1+8*(3-size n) = 23 by omega, ← byte_pow] at hmul
    exact hmul
  · rw [Nat.div_lt_iff_lt_mul (byte_pow_pos _), byte_pow, ← pow_add,
      show 23+8*(size n-3) = 8*size n-1 by omega]
    exact hlt

theorem word_of_short {n : ℕ} (h : size n ≤ 3) : word n/256^(3-size n) = cut n := by
  rw [word, if_pos h, cut, if_pos h]
  exact Nat.mul_div_cancel n (byte_pow_pos _)

theorem word_of_long {n : ℕ} (h : ¬size n ≤ 3) : word n*256^(size n-3) = cut n := by
  rw [word, if_neg h, cut, if_neg h]

theorem cut_le : cut n ≤ n := by
  unfold cut
  split_ifs
  · exact Nat.le_refl n
  · exact Nat.div_mul_le_self n _

theorem cut_high {n : ℕ} (h : 3 < size n) : 2^15*256^(size n-3) ≤ cut n := by
  rw [cut, if_neg (by omega)]
  apply Nat.mul_le_mul_right
  rw [Nat.le_div_iff_mul_le (byte_pow_pos _)]
  exact high_le n h

theorem cut_pos {n : ℕ} (hn : 0 < n) : 0 < cut n := by
  rcases Nat.lt_or_ge 3 (size n) with h | h
  · exact Nat.lt_of_lt_of_le (Nat.mul_pos (by decide) (byte_pow_pos _)) (cut_high h)
  · rw [cut, if_pos h]
    exact hn

theorem cut_mono (a b : ℕ) (h : a ≤ b) : cut a ≤ cut b := by
  rcases Nat.lt_or_eq_of_le (size_mono h) with hlt | heq
  · rcases Nat.lt_or_ge 3 (size b) with hb | hb
    · -- the shorter number is below the highest power of the longer one
      rcases Nat.eq_zero_or_pos a with rfl | ha
      · exact Nat.zero_le _
      · have hup := lt_of_size a (by omega)
        have hpow : 2^(8*size a-1) ≤ 2^15*256^(size b-3) := by
          rw [byte_pow, ← pow_add]
          exact Nat.pow_le_pow_right (by decide) (by omega)
        exact Nat.le_trans (cut_le a) (Nat.le_trans (Nat.le_of_lt hup)
          (Nat.le_trans hpow (cut_high hb)))
    · have hcut : cut b = b := by rw [cut, if_pos hb]
      rw [hcut]
      exact Nat.le_trans (cut_le a) h
  · unfold cut
    rw [heq]
    split_ifs
    · exact h
    · exact Nat.mul_le_mul_right _ (Nat.div_le_div_right h)

theorem cut_error (hn : 0 < n) : (n-cut n)*2^15 < n := by
  unfold cut
  split_ifs with hs
  · rw [Nat.sub_self, Nat.zero_mul]
    exact hn
  · have hhigh := high_le n (by omega)
    have hmod := Nat.mod_lt n (byte_pow_pos (size n-3))
    have hsub : n-n/256^(size n-3)*256^(size n-3) = n%256^(size n-3) := by
      rw [Nat.mod_eq_sub_div_mul]
    rw [hsub]
    omega

theorem word_mono {a b : ℕ} (h : a ≤ b) (hs : size a = size b) : word a ≤ word b := by
  unfold word
  rw [hs]
  split_ifs
  · exact Nat.mul_le_mul_right _ h
  · exact Nat.div_le_div_right h

theorem le_word {n : ℕ} (hn : n ≠ 0) : 2^15 ≤ word n := by
  have hpos := size_pos n hn
  have hlow := le_of_size hn
  unfold word
  split_ifs with hs
  · calc 2^15 ≤ 2^(8*(size n-1)-1)*2^(8*(3-size n)) := by
          rw [← pow_add]
          exact Nat.pow_le_pow_right (by decide) (by omega)
      _ ≤ n*256^(3-size n) := by
          rw [byte_pow]
          exact Nat.mul_le_mul_right _ hlow
  · rw [Nat.le_div_iff_mul_le (byte_pow_pos _)]
    exact high_le n (by omega)

/-- Leading bytes of at least 16 bits, put in the place of their size, are the leading bytes
of what they make. -/
theorem made (s w n : ℕ) (hs : 0 < s) (hlow : 2^15 ≤ w) (hhigh : w < 2^23)
    (hshort : s ≤ 3 → w = n*256^(3-s)) (hlong : 3 < s → n = w*256^(s-3)) :
    size n = s ∧ word n = w := by
  have hsize : size n = s := by
    rcases Nat.lt_or_ge 3 s with h | h
    · rw [hlong h]
      apply size_unique
      · rw [byte_pow, show 8*(s-1)-1 = 15+8*(s-3) by omega, pow_add]
        exact Nat.mul_le_mul_right _ hlow
      · rw [byte_pow, show 8*s-1 = 23+8*(s-3) by omega, pow_add]
        exact Nat.mul_lt_mul_of_pos_right hhigh (Nat.two_pow_pos _)
    · have hw := hshort h
      rw [hw] at hlow hhigh
      obtain rfl | rfl | rfl : s = 1 ∨ s = 2 ∨ s = 3 := by omega
      · apply size_unique <;> omega
      · apply size_unique <;> omega
      · apply size_unique <;> omega
  refine ⟨hsize,?_⟩
  unfold word
  rw [hsize]
  split_ifs with h
  · exact (hshort h).symm
  · rw [hlong (by omega)]
    exact Nat.mul_div_cancel _ (byte_pow_pos _)

end LeadingBytes

/-! ## Numbers in decimal digits -/

namespace Decimal

def isDigit (b : UInt8) : Bool := 48 ≤ b.toNat && b.toNat ≤ 57

def isSpace (b : UInt8) : Bool := b == 32 || (9 ≤ b.toNat && b.toNat ≤ 13)

def value (ds : List UInt8) : ℕ := ds.foldl (fun n b => 10*n+(b.toNat-48)) 0

def digit (d : ℕ) : UInt8 := UInt8.ofNat (48+d)

def decimal (n : ℕ) : List UInt8 :=
  if n = 0 then [48] else (Nat.digits 10 n).reverse.map digit

def decimalInt (v : ℤ) : List UInt8 :=
  if v < 0 then 45::decimal v.natAbs else decimal v.natAbs

def leading (bs : List UInt8) : ℕ := value (bs.takeWhile isDigit)

def parse (bs : List UInt8) : ℤ :=
  match bs.dropWhile isSpace with
  | [] => 0
  | b::bs =>
    if b = 45 then -(leading bs) else if b = 43 then leading bs else leading (b::bs)

theorem digit_to_nat {d : ℕ} (h : d < 10) : (digit d).toNat = 48+d := by
  unfold digit
  rw [UInt8.toNat_ofNat']
  omega

theorem digit_is_digit {d : ℕ} (h : d < 10) : isDigit (digit d) = true := by
  rw [isDigit, digit_to_nat h]
  simp only [Bool.and_eq_true, decide_eq_true_eq]
  omega

variable (n : ℕ)

theorem decimal_digits (b : UInt8) (hb : b ∈ decimal n) : isDigit b = true := by
  unfold decimal at hb
  split at hb
  · rw [List.mem_singleton.mp hb]
    rfl
  · obtain ⟨d,hd,rfl⟩ := List.mem_map.mp hb
    exact digit_is_digit (Nat.digits_lt_base (by decide) (List.mem_reverse.mp hd))

theorem value_digits {ds : List ℕ} (h : ∀ d ∈ ds, d < 10) :
    value (ds.reverse.map digit) = Nat.ofDigits 10 ds := by
  induction ds with
  | nil => rfl
  | cons d ds ih =>
    have hrest := ih fun x hx => h x (List.mem_cons_of_mem d hx)
    unfold value at hrest ⊢
    rw [List.reverse_cons, List.map_append, List.foldl_append, hrest, Nat.ofDigits_cons]
    show 10*Nat.ofDigits 10 ds+((digit d).toNat-48) = d+10*Nat.ofDigits 10 ds
    rw [digit_to_nat (h d List.mem_cons_self)]
    omega

theorem value_decimal : value (decimal n) = n := by
  unfold decimal
  split
  · next hn =>
    rw [hn]
    rfl
  · rw [value_digits fun d hd => Nat.digits_lt_base (by decide) hd, Nat.ofDigits_digits]

theorem leading_decimal : leading (decimal n) = n := by
  rw [leading, List.takeWhile_eq_self_iff.mpr (decimal_digits n), value_decimal]

theorem decimal_ne_nil : decimal n ≠ [] := by
  unfold decimal
  split
  · exact List.cons_ne_nil _ _
  · next hn => simp [Nat.digits_ne_nil_iff_ne_zero.mpr hn]

theorem digit_facts {b : UInt8} (h : isDigit b = true) : isSpace b = false ∧ b ≠ 45 ∧ b ≠ 43 := by
  simp only [isDigit, Bool.and_eq_true, decide_eq_true_eq] at h
  refine ⟨?_,?_,?_⟩
  · have hne : b ≠ 32 := by
      rintro rfl
      exact absurd h.1 (by decide)
    simp only [isSpace, Bool.or_eq_false_iff, beq_eq_false_iff_ne, Bool.and_eq_false_iff,
      decide_eq_false_iff_not]
    exact ⟨hne,Or.inr (by omega)⟩
  · rintro rfl
    exact absurd h.1 (by decide)
  · rintro rfl
    exact absurd h.1 (by decide)

theorem parse_decimal : parse (decimal n) = n := by
  have hlead := leading_decimal n
  cases hd : decimal n with
  | nil => exact absurd hd (decimal_ne_nil n)
  | cons b bs =>
    rw [hd] at hlead
    obtain ⟨hspace,hminus,hplus⟩ := digit_facts (decimal_digits n b (by rw [hd]; exact List.mem_cons_self))
    rw [parse, List.dropWhile_cons_of_neg (by simp [hspace])]
    dsimp only
    rw [if_neg hminus, if_neg hplus, hlead]

theorem parse_decimal_int (v : ℤ) : parse (decimalInt v) = v := by
  unfold decimalInt
  split
  · next hv =>
    rw [parse, List.dropWhile_cons_of_neg (by decide)]
    dsimp only
    rw [if_pos rfl, leading_decimal]
    omega
  · next hv =>
    rw [parse_decimal]
    omega

theorem decimal_length (w : ℕ) (hw : 1 ≤ w) (h : n < 10^w) : (decimal n).length ≤ w := by
  unfold decimal
  split
  · exact hw
  · rw [List.length_map, List.length_reverse]
    exact (Nat.digits_length_le_iff (by decide) n).mpr h

theorem decimal_int_length (v : ℤ) (w : ℕ) (hw : 1 ≤ w) (h : v.natAbs < 10^w) :
    (decimalInt v).length ≤ w+1 := by
  have hlen := decimal_length v.natAbs w hw h
  unfold decimalInt
  split
  · exact Nat.succ_le_succ hlen
  · omega

end Decimal
