import SwippCore.Lib.Numerals

/-!
# Codes and readers

Codes that delimit themselves, readers for them, and codecs that are both.
-/

set_option autoImplicit false

/-! ## Codes that delimit themselves -/

namespace PrefixCode

variable {α β γ δ : Type}

def Delimited (enc : α → List β) (P : α → Prop) : Prop :=
  ∀ a b r s, P a → P b → enc a++r = enc b++s → a = b ∧ r = s

theorem delimited_of_length (enc : α → List β) (P : α → Prop) {n : ℕ}
    (hlen : ∀ a, P a → (enc a).length = n) (hinj : ∀ a b, P a → P b → enc a = enc b → a = b) :
    Delimited enc P := by
  intro a b r s ha hb h
  obtain ⟨henc,hrest⟩ := List.append_inj h ((hlen a ha).trans (hlen b hb).symm)
  exact ⟨hinj a b ha hb henc,hrest⟩

variable {P : α → Prop}

theorem delimited_pair {f : α → List β} {g : γ → List β} {Q : γ → Prop} (hf : Delimited f P)
    (hg : Delimited g Q) : Delimited (fun x : α × γ => f x.1++g x.2) (fun x => P x.1 ∧ Q x.2) := by
  intro x y r s hx hy h
  rw [List.append_assoc, List.append_assoc] at h
  obtain ⟨h1,h⟩ := hf x.1 y.1 _ _ hx.1 hy.1 h
  obtain ⟨h2,h⟩ := hg x.2 y.2 r s hx.2 hy.2 h
  exact ⟨Prod.ext h1 h2,h⟩

variable {enc : α → List β}

theorem delimited_comp (k : δ → α) (hk : ∀ a b, k a = k b → a = b) (h : Delimited enc P) :
    Delimited (fun d => enc (k d)) (fun d => P (k d)) := by
  intro a b r s ha hb heq
  obtain ⟨hab,hrs⟩ := h (k a) (k b) r s ha hb heq
  exact ⟨hk a b hab,hrs⟩

def many (enc : α → List β) : List α → List β
  | [] => []
  | a::as => enc a++many enc as

theorem length_le_many (enc : α → List β) {as : List α} {a : α} (h : a ∈ as) :
    (enc a).length ≤ (many enc as).length := by
  induction as with
  | nil => cases h
  | cons b bs ih =>
    rw [many, List.length_append]
    rcases List.mem_cons.mp h with rfl | h
    · exact Nat.le_add_right _ _
    · exact Nat.le_trans (ih h) (Nat.le_add_left _ _)

theorem length_many_single (bs : List β) : (many (fun b => [b]) bs).length = bs.length := by
  induction bs with
  | nil => rfl
  | cons b bs ih =>
    rw [many, List.length_append, ih]
    exact Nat.add_comm 1 bs.length

theorem many_delimited (h : Delimited enc P) (as bs : List α) (hlen : as.length = bs.length)
    (has : ∀ a ∈ as, P a) (hbs : ∀ b ∈ bs, P b) {r s : List β}
    (heq : many enc as++r = many enc bs++s) : as = bs ∧ r = s := by
  induction as generalizing bs with
  | nil =>
    obtain rfl := List.eq_nil_of_length_eq_zero hlen.symm
    exact ⟨rfl,heq⟩
  | cons a as ih =>
    obtain _ | ⟨b,bs⟩ := bs
    · cases hlen
    · rw [many, many, List.append_assoc, List.append_assoc] at heq
      obtain ⟨hab,heq⟩ := h a b _ _ (has a List.mem_cons_self) (hbs b List.mem_cons_self) heq
      obtain ⟨hrest,hrs⟩ := ih bs (Nat.succ.inj hlen)
        (fun x hx => has x (List.mem_cons_of_mem _ hx))
        (fun x hx => hbs x (List.mem_cons_of_mem _ hx)) heq
      exact ⟨by rw [hab, hrest],hrs⟩

def vector (size : ℕ → List β) (enc : α → List β) (as : List α) : List β :=
  size as.length++many enc as

theorem vector_delimited {size : ℕ → List β} {N : ℕ} (hsize : Delimited size (· < N))
    (h : Delimited enc P) :
    Delimited (vector size enc) (fun as => as.length < N ∧ ∀ a ∈ as, P a) := by
  intro as bs r s has hbs heq
  unfold vector at heq
  rw [List.append_assoc, List.append_assoc] at heq
  obtain ⟨hlen,heq⟩ := hsize _ _ _ _ has.1 hbs.1 heq
  exact many_delimited h as bs hlen has.2 hbs.2 heq

def word : ℕ → ℕ → List UInt8
  | 0, _ => []
  | w+1, n => UInt8.ofNat n::word w (n/256)

variable (w : ℕ)

theorem word_length (n : ℕ) : (word w n).length = w := by
  induction w generalizing n with
  | zero => rfl
  | succ w ih => rw [word, List.length_cons, ih]

theorem value_word (n : ℕ) (h : n < 256^w) : SignMagnitude.value (word w n) = n := by
  induction w generalizing n with
  | zero =>
    rw [pow_zero] at h
    rw [word, SignMagnitude.value]
    omega
  | succ w ih =>
    rw [pow_succ] at h
    rw [word, SignMagnitude.value, ih (n/256) (by omega)]
    have hbyte : (UInt8.ofNat n).toNat = n%256 := by simp
    omega

theorem word_inj (m n : ℕ) (hm : m < 256^w) (hn : n < 256^w) (h : word w m = word w n) : m = n := by
  induction w generalizing m n with
  | zero => omega
  | succ w ih =>
    rw [pow_succ] at hm hn
    obtain ⟨hlow,hrest⟩ := List.cons.inj h
    have hhigh := ih (m/256) (n/256) (by omega) (by omega) hrest
    have hmod : m%256 = n%256 := by
      have hbyte := congrArg UInt8.toNat hlow
      simpa using hbyte
    omega

theorem word_delimited : Delimited (word w) (· < 256^w) :=
  delimited_of_length (word w) _ (fun n _ => word_length w n) (word_inj w)

def signedWord (w : ℕ) (v : ℤ) : List UInt8 := word w (v%256^w).toNat

def FitsSigned (w : ℕ) (v : ℤ) : Prop := -256^w ≤ 2*v ∧ 2*v < 256^w

theorem signed_word_inj (u v : ℤ) (hu : FitsSigned w u) (hv : FitsSigned w v)
    (h : signedWord w u = signedWord w v) : u = v := by
  obtain ⟨hu0,hu1⟩ := hu
  obtain ⟨hv0,hv1⟩ := hv
  have hpos : (0:ℤ) < 256^w := pow_pos (by decide) w
  have hcast : ((256^w : ℕ) : ℤ) = 256^w := Int.natCast_pow 256 w
  have hlt : ∀ x : ℤ, (x%256^w).toNat < 256^w := fun x => by
    have h1 := Int.emod_lt_of_pos x hpos
    omega
  have hnat := word_inj w _ _ (hlt u) (hlt v) h
  have hmod : u%256^w = v%256^w := by
    have h0 := Int.emod_nonneg u hpos.ne'
    have h1 := Int.emod_nonneg v hpos.ne'
    omega
  obtain ⟨k,hk⟩ := Int.dvd_of_emod_eq_zero (Int.emod_eq_emod_iff_emod_sub_eq_zero.mp hmod)
  generalize (256:ℤ)^w = M at hk hpos hu0 hu1 hv0 hv1
  have hk0 : k = 0 := by
    by_contra hne
    rcases lt_or_gt_of_ne hne with hneg | hge
    · have := mul_le_mul_of_nonneg_left (show k ≤ -1 by omega) hpos.le
      omega
    · have := mul_le_mul_of_nonneg_left (show 1 ≤ k by omega) hpos.le
      omega
  rw [hk0, mul_zero] at hk
  omega

theorem signed_word_delimited : Delimited (signedWord w) (FitsSigned w) :=
  delimited_of_length (signedWord w) _ (fun _ _ => word_length w _) (signed_word_inj w)

end PrefixCode

/-! ## Readers -/

namespace Readers
open PrefixCode
variable {α β : Type}

abbrev Reader (α : Type) := StateT (List UInt8) Option α

def Reads (r : Reader α) (enc : α → List UInt8) (P : α → Prop) : Prop :=
  ∀ a rest, P a → r (enc a++rest) = some (a,rest)

theorem bind_read (r : Reader α) (f : α → Reader β) {bs rest : List UInt8} {a : α}
    (h : r bs = some (a,rest)) : (r >>= f) bs = f a rest := by
  change (r bs).bind (fun x => f x.1 x.2) = _
  rw [h]
  rfl

def readBlock (n : ℕ) : Reader (List UInt8) := fun bs =>
  if n ≤ bs.length then some (bs.take n,bs.drop n) else none

theorem read_block (bs rest : List UInt8) : readBlock bs.length (bs++rest) = some (bs,rest) := by
  unfold readBlock
  rw [if_pos (by rw [List.length_append]; omega), List.take_left, List.drop_left]

def readWord (w : ℕ) : Reader ℕ := fun bs =>
  (readBlock w bs).map fun x => (SignMagnitude.value x.1,x.2)

theorem read_word (w : ℕ) : Reads (readWord w) (word w) (· < 256^w) := by
  intro n rest hn
  have hblock := read_block (word w n) rest
  rw [word_length] at hblock
  unfold readWord
  rw [hblock, Option.map_some, value_word w n hn]

theorem word_value (bs : List UInt8) : word bs.length (SignMagnitude.value bs) = bs := by
  induction bs with
  | nil => rfl
  | cons b bs ih =>
    have hb : b.toNat < 256 := b.toNat_lt
    have hdiv : (b.toNat+256*SignMagnitude.value bs)/256 = SignMagnitude.value bs := by omega
    rw [List.length_cons, SignMagnitude.value, word, hdiv, ih]
    congr 1
    apply UInt8.toNat_inj.mp
    rw [UInt8.toNat_ofNat']
    omega

theorem read_word_iff (w n : ℕ) (bs rest : List UInt8) :
    readWord w bs = some (n,rest) ↔ n < 256^w ∧ bs = word w n++rest := by
  constructor
  · intro h
    by_cases hle : w ≤ bs.length
    · have hlen : (bs.take w).length = w := List.length_take_of_le hle
      simp only [readWord, readBlock, if_pos hle, Option.map_some, Option.some.injEq,
        Prod.mk.injEq] at h
      obtain ⟨rfl,rfl⟩ := h
      have hlt := SignMagnitude.value_lt (bs.take w)
      have hword := word_value (bs.take w)
      rw [hlen] at hlt hword
      exact ⟨hlt,by rw [hword, List.take_append_drop]⟩
    · simp [readWord, readBlock, hle] at h
  · rintro ⟨hn,rfl⟩
    exact read_word w n rest hn

def bigWord (w n : ℕ) : List UInt8 := (word w n).reverse

def readBig (w : ℕ) : Reader ℕ := fun bs =>
  (readBlock w bs).map fun x => (SignMagnitude.value x.1.reverse,x.2)

theorem read_big (w : ℕ) : Reads (readBig w) (bigWord w) (· < 256^w) := by
  intro n rest hn
  have hblock := read_block (bigWord w n) rest
  unfold bigWord at hblock
  rw [List.length_reverse, word_length] at hblock
  unfold readBig bigWord
  rw [hblock, Option.map_some, List.reverse_reverse, value_word w n hn]

def readSigned (w : ℕ) : Reader ℤ := fun bs =>
  (readWord w bs).map fun x => (if 2*(x.1 : ℤ) < 256^w then (x.1 : ℤ) else x.1-256^w,x.2)

theorem read_signed (w : ℕ) : Reads (readSigned w) (signedWord w) (FitsSigned w) := by
  intro v rest hv
  obtain ⟨h0,h1⟩ := hv
  have hpos : (0 : ℤ) < 256^w := pow_pos (by decide) w
  have hcast : ((256^w : ℕ) : ℤ) = 256^w := Int.natCast_pow 256 w
  have hlow := Int.emod_nonneg v hpos.ne'
  have hlt : (v%256^w).toNat < 256^w := by omega
  unfold readSigned signedWord
  rw [read_word w _ rest hlt, Option.map_some]
  have hback : (if 2*(((v%256^w).toNat : ℕ) : ℤ) < 256^w then (((v%256^w).toNat : ℕ) : ℤ)
      else ((v%256^w).toNat : ℕ)-256^w) = v := by
    rw [Int.toNat_of_nonneg hlow]
    by_cases hv : 0 ≤ v
    · rw [Int.emod_eq_of_lt hv (by omega), if_pos h1]
    · have hmod : v%256^w = v+256^w := by
        rw [← Int.add_emod_right, Int.emod_eq_of_lt (by omega) (by omega)]
      rw [hmod, if_neg (by omega)]
      omega
  rw [hback]

end Readers

/-! ## Codes with a reader -/

open PrefixCode Readers

structure Codec (α : Type) where
  size : α → BitVec 32
  write : α → List UInt8
  read : List UInt8 → Option (α × List UInt8)
  Fits : α → Prop
  size_write : ∀ a, size a = BitVec.ofNat 32 (write a).length
  read_write : ∀ a, Fits a → ∀ r, read (write a++r) = some (a,r)

namespace Codec

variable {α β : Type}

section Numbers

def number (w : ℕ) : Codec ℕ where
  size _ := BitVec.ofNat 32 w
  write n := word w n
  read := readWord w
  Fits n := n < 256^w
  size_write n := by rw [word_length]
  read_write n hn r := read_word w n r hn

def signed (w : ℕ) : Codec ℤ where
  size _ := BitVec.ofNat 32 w
  write v := signedWord w v
  read := readSigned w
  Fits v := FitsSigned w v
  size_write v := by rw [signedWord, word_length]
  read_write v hv r := read_signed w v r hv

def byte : Codec UInt8 where
  size _ := 1
  write b := [b]
  read
    | [] => none
    | b::bs => some (b,bs)
  Fits _ := True
  size_write _ := rfl
  read_write _ _ _ := rfl

end Numbers

def pair (c : Codec α) (d : Codec β) : Codec (α × β) where
  size x := c.size x.1+d.size x.2
  write x := c.write x.1++d.write x.2
  read bs := (c.read bs).bind fun x => (d.read x.2).map fun y => ((x.1,y.1),y.2)
  Fits x := c.Fits x.1 ∧ d.Fits x.2
  size_write x := by rw [c.size_write, d.size_write, List.length_append, BitVec.ofNat_add]
  read_write x hx r := by
    rw [List.append_assoc, c.read_write x.1 hx.1, Option.bind_some, d.read_write x.2 hx.2]
    rfl

theorem pair_refused {c : Codec α} {d : Codec β} {x : α × β} {r : List UInt8} (hx : c.Fits x.1)
    (h : d.read (d.write x.2++r) = none) : (c.pair d).read ((c.pair d).write x++r) = none := by
  show (c.read (c.write x.1++d.write x.2++r)).bind _ = none
  rw [List.append_assoc, c.read_write x.1 hx, Option.bind_some, h]
  rfl

def record (parts : α → β) (made : β → α) (h : ∀ a, made (parts a) = a) (c : Codec β) : Codec α where
  size a := c.size (parts a)
  write a := c.write (parts a)
  read bs := (c.read bs).map fun x => (made x.1,x.2)
  Fits a := c.Fits (parts a)
  size_write a := c.size_write (parts a)
  read_write a ha r := by rw [c.read_write (parts a) ha r, Option.map_some, h]

section Lists
variable (c : Codec α)

def sizes : List α → BitVec 32
  | [] => 0
  | a::as => c.size a+sizes as

def readMany : ℕ → List UInt8 → Option (List α × List UInt8)
  | 0, bs => some ([],bs)
  | n+1, bs => (c.read bs).bind fun x => (readMany n x.2).map fun y => (x.1::y.1,y.2)

theorem sizes_write (as : List α) : sizes c as = BitVec.ofNat 32 (many c.write as).length := by
  induction as with
  | nil => rfl
  | cons a as ih => rw [sizes, many, ih, c.size_write, List.length_append, BitVec.ofNat_add]

theorem read_many (as : List α) (h : ∀ a ∈ as, c.Fits a) (r : List UInt8) :
    readMany c as.length (many c.write as++r) = some (as,r) := by
  induction as with
  | nil => rfl
  | cons a as ih =>
    rw [List.length_cons, readMany, many, List.append_assoc, c.read_write a (h a List.mem_cons_self),
      Option.bind_some, ih fun x hx => h x (List.mem_cons_of_mem a hx)]
    rfl

def vector (count : Codec ℕ) : Codec (List α) where
  size as := count.size as.length+sizes c as
  write as := PrefixCode.vector count.write c.write as
  read bs := (count.read bs).bind fun x => readMany c x.1 x.2
  Fits as := count.Fits as.length ∧ ∀ a ∈ as, c.Fits a
  size_write as := by
    rw [PrefixCode.vector, count.size_write, sizes_write, List.length_append, BitVec.ofNat_add]
  read_write as has r := by
    rw [PrefixCode.vector, List.append_assoc, count.read_write _ has.1, Option.bind_some,
      read_many c as has.2]

theorem vector_refused (count : Codec ℕ) (as : List α) (r : List UInt8)
    (h : ∀ s, count.read (count.write as.length++s) = none) :
    (c.vector count).read ((c.vector count).write as++r) = none := by
  show (count.read (PrefixCode.vector count.write c.write as++r)).bind _ = none
  rw [PrefixCode.vector, List.append_assoc, h]
  rfl

theorem many_length (enc : α → List UInt8) (as : List α) (h : ∀ a ∈ as, 1 ≤ (enc a).length) :
    as.length ≤ (many enc as).length ∧ ∀ a ∈ as, (enc a).length ≤ (many enc as).length := by
  induction as with
  | nil => exact ⟨Nat.le_refl 0,nofun⟩
  | cons a as ih =>
    obtain ⟨hlen,hall⟩ := ih fun x hx => h x (List.mem_cons_of_mem a hx)
    have ha := h a List.mem_cons_self
    rw [many, List.length_cons, List.length_append]
    refine ⟨by omega,?_⟩
    intro x hx
    rcases List.mem_cons.mp hx with rfl | hx
    · omega
    · have hx := hall x hx
      omega

theorem many_bytes (bs : List UInt8) : many (fun b => [b]) bs = bs := by
  induction bs with
  | nil => rfl
  | cons b bs ih =>
    rw [many, ih, List.singleton_append]

end Lists

end Codec
