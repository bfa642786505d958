import SwippCore.Lib.Bijective
import SwippCore.Serialize

/-!
# Integers of variable length

`WriteVarInt` fills a buffer from the last digit on and writes it backwards, `ReadVarInt`
shifts digits into a word of fixed width as long as they are marked. A compact size has
one form for each of its lengths, and the reader refuses those that are longer than needed.
-/

set_option autoImplicit false

namespace SwippCore.VarInt
open PrefixCode Readers Unserialize

/-- `(sizeof(n)*8+6)/7` -/
def tmpSize (sizeof : ℕ) : ℕ := (sizeof*8+6)/7

/-- `tmp[len] = ch`, inside the buffer only. -/
def store (tmp : List UInt8) (len : ℕ) (ch : UInt8) : Option (List UInt8) :=
  if len < tmp.length then some (tmp.set len ch) else none

/-- The first loop of `WriteVarInt`: the buffer, and the place of the last digit written. -/
def fillLoop (tmp : List UInt8) (len n : ℕ) : Option (List UInt8 × ℕ) := do
  let tmp ← store tmp len (UInt8.ofNat ((n &&& 0x7F) ||| if len ≠ 0 then 0x80 else 0x00))
  if h : n ≤ 0x7F then some (tmp,len)
  else fillLoop tmp (len+1) ((n >>> 7)-1)
termination_by n
decreasing_by
  rw [Nat.shiftRight_eq_div_pow]
  omega

/-- `do WRITEDATA(os, tmp[len]) while (len--)` -/
def writeLoop (tmp : List UInt8) : ℕ → List UInt8
  | 0 => [tmp.getD 0 0]
  | len+1 => tmp.getD (len+1) 0::writeLoop tmp len

def writeVarInt (sizeof n : ℕ) : Option (List UInt8) :=
  (fillLoop (List.replicate (tmpSize sizeof) 0) 0 n).map fun r => writeLoop r.1 r.2

def getSizeLoop (nRet n : ℕ) : ℕ :=
  if h : n ≤ 0x7F then nRet+1 else getSizeLoop (nRet+1) ((n >>> 7)-1)
termination_by n
decreasing_by
  rw [Nat.shiftRight_eq_div_pow]
  omega

def getSizeOfVarInt (n : ℕ) : ℕ := getSizeLoop 0 n

/-- The loop of `ReadVarInt`, in arithmetic of `bits` bits. -/
def readLoop (bits n : ℕ) : List UInt8 → Option (ℕ × List UInt8)
  | [] => none
  | chData::is =>
    let n := ((n <<< 7) ||| (chData.toNat &&& 0x7F))%2^bits
    if chData.toNat &&& 0x80 ≠ 0 then readLoop bits ((n+1)%2^bits) is else some (n,is)

def readVarInt (sizeof : ℕ) : Reader ℕ := readLoop (sizeof*8) 0

def digit (b : UInt8) : ℕ := b.toNat%128

def plain (d : ℕ) : UInt8 := UInt8.ofNat d

def marked (d : ℕ) : UInt8 := UInt8.ofNat (d+128)

def number (a : List UInt8) : ℕ := Bijective.value 128 (a.map digit)

def front : List UInt8 → List UInt8
  | [] => []
  | b::bs => if 128 ≤ b.toNat then b::front bs else [b]

def encode (n : ℕ) : List UInt8 :=
  match Bijective.low 128 n with
  | [] => []
  | d::ds => ds.reverse.map marked++[plain d]

section Bytes
variable {d : ℕ}

theorem plain_to_nat (h : d < 128) : (plain d).toNat = d := by
  rw [plain, UInt8.toNat_ofNat']
  omega

theorem marked_to_nat (h : d < 128) : (marked d).toNat = d+128 := by
  rw [marked, UInt8.toNat_ofNat']
  omega

theorem digit_plain (h : d < 128) : digit (plain d) = d := by
  rw [digit, plain_to_nat h]
  omega

theorem digit_marked (h : d < 128) : digit (marked d) = d := by
  rw [digit, marked_to_nat h]
  omega

theorem digit_lt (b : UInt8) : digit b < 128 := Nat.mod_lt _ (by decide)

theorem marked_digit {b : UInt8} (h : 128 ≤ b.toNat) : marked (digit b) = b := by
  have hb : b.toNat < 256 := b.toNat_lt
  apply UInt8.toNat_inj.mp
  rw [marked_to_nat (digit_lt b), digit]
  omega

theorem plain_of_digit {b : UInt8} (h : b.toNat < 128) : plain (digit b) = b := by
  apply UInt8.toNat_inj.mp
  rw [plain_to_nat (digit_lt b), digit]
  omega

theorem high_bit (b : UInt8) : b.toNat &&& 0x80 ≠ 0 ↔ 128 ≤ b.toNat := by
  have hall : ∀ n < 256, n &&& 0x80 ≠ 0 ↔ 128 ≤ n := by decide +kernel
  exact hall b.toNat b.toNat_lt

theorem or_mark (h : d < 128) : d ||| 0x80 = d+128 := by
  have hor : 2^7*1+d = 2^7*1 ||| d := Nat.two_pow_add_eq_or_of_lt h 1
  rw [Nat.or_comm, show (0x80 : ℕ) = 2^7*1 from rfl, ← hor]
  omega

theorem low_seven (n : ℕ) : n &&& 0x7F = n%128 := Nat.and_two_pow_sub_one_eq_mod n 7

theorem shift_seven (n : ℕ) : n >>> 7 = n/128 := Nat.shiftRight_eq_div_pow n 7

theorem shift_in (n : ℕ) (h : d < 128) : n <<< 7 ||| d = n*128+d := by
  rw [← Nat.shiftLeft_add_eq_or_of_lt h, Nat.shiftLeft_eq]

end Bytes

section Writing
open Bijective

def codes (len : ℕ) : List ℕ → List UInt8
  | [] => []
  | d::ds => (if len = 0 then plain d else marked d)::ds.map marked

theorem code_of_digit (len n : ℕ) :
    UInt8.ofNat ((n &&& 0x7F) ||| if len ≠ 0 then 0x80 else 0x00) =
      if len = 0 then plain (n%128) else marked (n%128) := by
  have hlt : n%128 < 128 := Nat.mod_lt n (by decide)
  rw [low_seven]
  by_cases h : len = 0
  · simp [h, plain]
  · simp [h, marked, or_mark hlt]

theorem take_set {tmp : List UInt8} {len : ℕ} (ch : UInt8) (h : len < tmp.length) :
    (tmp.set len ch).take (len+1) = tmp.take len++[ch] := by
  rw [List.take_add_one, List.getElem?_set_self h, List.take_set_of_le (Nat.le_refl len)]
  rfl

theorem codes_marked (len : ℕ) (ds : List ℕ) : codes (len+1) ds = ds.map marked := by
  cases ds <;> simp [codes]

theorem fill_loop (n len : ℕ) (tmp : List UInt8) (h : len+(low 128 n).length ≤ tmp.length) :
    ∃ tmp' last, fillLoop tmp len n = some (tmp',last) ∧ last+1 = len+(low 128 n).length ∧
      tmp'.length = tmp.length ∧
      tmp'.take (last+1) = tmp.take len++codes len (low 128 n) := by
  induction n using low.induct 128 generalizing len tmp with
  | case1 n hn =>
    rw [low_small 128 hn] at h ⊢
    have hlen : len < tmp.length := h
    have hmod : n%128 = n := Nat.mod_eq_of_lt hn
    refine ⟨_,len,?_,rfl,?_,take_set _ hlen⟩
    · rw [fillLoop, store, if_pos hlen, code_of_digit, hmod]
      exact dif_pos (Nat.le_of_lt_succ hn)
    · exact List.length_set
  | case2 n hn ih =>
    rw [low_large 128 hn, List.length_cons] at h ⊢
    have hlen : len < tmp.length := by omega
    generalize hch : (if len = 0 then plain (n%128) else marked (n%128)) = ch
    have hroom : len+1+(low 128 (n/128-1)).length ≤ (tmp.set len ch).length := by
      rw [List.length_set]
      omega
    obtain ⟨tmp',last,hfill,hlast,hsize,htake⟩ := ih (len+1) (tmp.set len ch) hroom
    refine ⟨tmp',last,?_,by omega,by rw [hsize, List.length_set],?_⟩
    · rw [fillLoop, store, if_pos hlen, code_of_digit, hch, shift_seven]
      exact (dif_neg (by omega)).trans hfill
    · rw [htake, take_set ch hlen, codes_marked, codes, hch, List.append_assoc]
      rfl

theorem write_loop {tmp : List UInt8} {last : ℕ} (h : last < tmp.length) :
    writeLoop tmp last = (tmp.take (last+1)).reverse := by
  induction last with
  | zero =>
    cases tmp with
    | nil => cases h
    | cons b tmp => rfl
  | succ last ih =>
    rw [writeLoop, ih (by omega), List.take_add_one (i := last+1), List.getElem?_eq_getElem h,
      List.reverse_append, List.getD_eq_getElem?_getD, List.getElem?_eq_getElem h]
    rfl

theorem low_ne_nil (n : ℕ) : low 128 n ≠ [] := by
  rw [low]
  split_ifs <;> exact List.cons_ne_nil _ _

theorem tmp_room {sizeof n : ℕ} (hsize : 0 < sizeof) (hn : n < 2^(sizeof*8)) :
    (low 128 n).length ≤ tmpSize sizeof := by
  obtain ⟨k,hk⟩ : ∃ k, tmpSize sizeof = k+1 := by
    rw [tmpSize]
    exact ⟨(sizeof*8+6)/7-1,by omega⟩
  rw [hk]
  apply low_length
  have hpow : (128 : ℕ)^(k+1) = 2^(7*(k+1)) := by rw [pow_mul]; rfl
  rw [hpow]
  apply Nat.lt_of_lt_of_le hn
  apply Nat.pow_le_pow_right (by decide)
  rw [tmpSize] at hk
  omega

theorem encode_eq (n : ℕ) : encode n = (codes 0 (low 128 n)).reverse := by
  rw [encode]
  cases low 128 n with
  | nil => rfl
  | cons d ds => simp [codes]

theorem write_var_int {sizeof n : ℕ} (hsize : 0 < sizeof) (hn : n < 2^(sizeof*8)) :
    writeVarInt sizeof n = some (encode n) := by
  have hroom : 0+(low 128 n).length ≤ (List.replicate (tmpSize sizeof) (0 : UInt8)).length := by
    rw [Nat.zero_add, List.length_replicate]
    exact tmp_room hsize hn
  obtain ⟨tmp,last,hfill,hlast,hlen,htake⟩ := fill_loop n 0 _ hroom
  have hin : last < tmp.length := by
    rw [hlen]
    omega
  rw [writeVarInt, hfill, Option.map_some, write_loop hin, htake, encode_eq]
  rfl

theorem get_size_loop (n nRet : ℕ) : getSizeLoop nRet n = nRet+(low 128 n).length := by
  induction n using low.induct 128 generalizing nRet with
  | case1 n hn =>
    rw [getSizeLoop, dif_pos (Nat.le_of_lt_succ hn), low_small 128 hn]
    rfl
  | case2 n hn ih =>
    rw [getSizeLoop, dif_neg (by omega), shift_seven, ih, low_large 128 hn, List.length_cons]
    omega

theorem encode_length (n : ℕ) : (encode n).length = getSizeOfVarInt n := by
  rw [getSizeOfVarInt, get_size_loop, encode]
  cases low 128 n with
  | nil => rfl
  | cons d ds => simp

end Writing

section Reading

theorem read_step (bits n : ℕ) (b : UInt8) (is : List UInt8) : readLoop bits n (b::is) =
    if 128 ≤ b.toNat then readLoop bits ((n*128+digit b+1)%2^bits) is
    else some ((n*128+digit b)%2^bits,is) := by
  have hshift : n <<< 7 ||| b.toNat%128 = n*128+digit b := shift_in n (digit_lt b)
  simp only [readLoop, low_seven, hshift, high_bit, Nat.mod_add_mod]

theorem read_sequence (bits n : ℕ) {init : List UInt8} {last : UInt8} (rest : List UInt8)
    (hinit : ∀ b ∈ init, 128 ≤ b.toNat) (hlast : last.toNat < 128) :
    readLoop bits n (init++last::rest) =
      some ((n*128^(init.length+1)+number (init++[last]))%2^bits,rest) := by
  induction init generalizing n with
  | nil =>
    rw [List.nil_append, read_step, if_neg (by omega)]
    simp [number, Bijective.value]
  | cons b init ih =>
    have hnumber : number (b::init++[last]) =
        (digit b+1)*128^(init.length+1)+number (init++[last]) := by
      cases init <;> simp [number, Bijective.value]
    have hb := hinit b List.mem_cons_self
    rw [List.cons_append, read_step, if_pos hb, ih _ fun c hc => hinit c (List.mem_cons_of_mem b hc),
      hnumber, List.length_cons, ← Nat.mod_add_mod, ← Nat.mod_mul_mod, Nat.mod_mod, Nat.mod_mul_mod,
      Nat.mod_add_mod]
    congr 3
    rw [pow_succ]
    ring

theorem front_append {init : List UInt8} {last : UInt8} (rest : List UInt8)
    (hinit : ∀ b ∈ init, 128 ≤ b.toNat) (hlast : last.toNat < 128) :
    front (init++last::rest) = init++[last] := by
  induction init with
  | nil => simp [front, hlast]
  | cons b init ih =>
    have hb := hinit b List.mem_cons_self
    rw [List.cons_append, front, if_pos hb, ih fun c hc => hinit c (List.mem_cons_of_mem b hc)]
    rfl

theorem read_shape (bits n : ℕ) {m : ℕ} {s rest : List UInt8} (h : readLoop bits n s = some (m,rest)) :
    ∃ init last, s = init++last::rest ∧ (∀ b ∈ init, 128 ≤ b.toNat) ∧ last.toNat < 128 := by
  induction s generalizing n with
  | nil => cases h
  | cons b is ih =>
    rw [read_step] at h
    by_cases hb : 128 ≤ b.toNat
    · rw [if_pos hb] at h
      obtain ⟨init,last,his,hinit,hlast⟩ := ih _ h
      exact ⟨b::init,last,by rw [his]; rfl,List.forall_mem_cons.mpr ⟨hb,hinit⟩,hlast⟩
    · rw [if_neg hb, Option.some.injEq, Prod.mk.injEq] at h
      exact ⟨[],b,by rw [h.2]; rfl,by simp,by omega⟩

end Reading

section Codes
open Bijective

theorem encode_shape (n : ℕ) : ∃ init last, encode n = init++[last] ∧
    (∀ b ∈ init, 128 ≤ b.toNat) ∧ last.toNat < 128 ∧ number (encode n) = n := by
  have hbound := low_bounded 128 n
  have hvalue := value_low 128 n
  rw [encode]
  cases hlow : low 128 n with
  | nil => exact absurd hlow (low_ne_nil n)
  | cons d ds =>
    rw [hlow] at hbound hvalue
    have hd := hbound d List.mem_cons_self
    have hds : ∀ e ∈ ds.reverse, e < 128 := by
      intro e he
      exact hbound e (List.mem_cons_of_mem d (List.mem_reverse.mp he))
    have hdigits : (ds.reverse.map marked).map digit = ds.reverse := by
      rw [List.map_map]
      conv_rhs => rw [← List.map_id ds.reverse]
      apply List.map_congr_left
      intro e he
      exact digit_marked (hds e he)
    refine ⟨ds.reverse.map marked,plain d,rfl,?_,?_,?_⟩
    · intro b hb
      obtain ⟨e,he,rfl⟩ := List.mem_map.mp hb
      rw [marked_to_nat (hds e he)]
      omega
    · rw [plain_to_nat hd]
      exact hd
    · dsimp only
      rw [number, List.map_append, hdigits, List.map_singleton, digit_plain hd, ← List.reverse_cons]
      exact hvalue

theorem encode_number {init : List UInt8} {last : UInt8} (hinit : ∀ b ∈ init, 128 ≤ b.toNat)
    (hlast : last.toNat < 128) : encode (number (init++[last])) = init++[last] := by
  have hds : ∀ d ∈ (init++[last]).map digit, d < 128 := by
    intro d hd
    obtain ⟨b,_,rfl⟩ := List.mem_map.mp hd
    exact digit_lt b
  have hback : init.map (marked ∘ digit) = init := by
    conv_rhs => rw [← List.map_id init]
    apply List.map_congr_left
    intro b hb
    exact marked_digit (hinit b hb)
  rw [number, encode, low_value (by simp) hds, List.map_append, List.map_singleton,
    List.reverse_append, List.reverse_singleton, List.singleton_append]
  dsimp only
  rw [List.reverse_reverse, List.map_map, hback, plain_of_digit hlast]

theorem read_encode {sizeof : ℕ} {n : ℕ} (hn : n < 2^(sizeof*8)) (rest : List UInt8) :
    readVarInt sizeof (encode n++rest) = some (n,rest) := by
  obtain ⟨init,last,hshape,hinit,hlast,hnumber⟩ := encode_shape n
  have hread := read_sequence (sizeof*8) 0 rest hinit hlast
  rw [← hshape, hnumber, Nat.zero_mul, Nat.zero_add, Nat.mod_eq_of_lt hn] at hread
  rw [readVarInt, hshape, List.append_assoc]
  exact hread

theorem read_iff {sizeof : ℕ} {n : ℕ} {s rest : List UInt8}
    (h : readVarInt sizeof s = some (n,rest)) :
    n < 2^(sizeof*8) ∧ (s = encode n++rest ↔ number (front s) < 2^(sizeof*8)) := by
  obtain ⟨init,last,rfl,hinit,hlast⟩ := read_shape _ _ h
  have hread := read_sequence (sizeof*8) 0 rest hinit hlast
  rw [readVarInt, hread, Nat.zero_mul, Nat.zero_add, Option.some.injEq, Prod.mk.injEq] at h
  obtain ⟨rfl,-⟩ := h
  have hlt : number (init++[last])%2^(sizeof*8) < 2^(sizeof*8) := Nat.mod_lt _ (Nat.two_pow_pos _)
  rw [front_append rest hinit hlast]
  refine ⟨hlt,?_,?_⟩
  · intro hs
    obtain ⟨_,_,_,_,_,hnumber⟩ := encode_shape (number (init++[last])%2^(sizeof*8))
    rw [← List.singleton_append, ← List.append_assoc, List.append_left_inj] at hs
    rw [← hs] at hnumber
    omega
  · intro hfits
    rw [Nat.mod_eq_of_lt hfits, encode_number hinit hlast, List.append_assoc]
    rfl

end Codes

section Compact

theorem bind_some {α β : Type} (r : Reader α) (f : α → Reader β) {s : List UInt8} {x : β × List UInt8} :
    (r >>= f) s = some x ↔ ∃ a t, r s = some (a,t) ∧ f a t = some x := by
  change (r s).bind (fun y => f y.1 y.2) = some x ↔ _
  rw [Option.bind_eq_some_iff]
  exact ⟨fun ⟨y,hy,hf⟩ => ⟨y.1,y.2,hy,hf⟩,fun ⟨a,t,hy,hf⟩ => ⟨(a,t),hy,hf⟩⟩

theorem read_limited (m : ℕ) {n : ℕ} {s rest : List UInt8} :
    ((if maxSize < m then failure else pure m) : Reader ℕ) s = some (n,rest) ↔
      n ≤ maxSize ∧ m = n ∧ s = rest := by
  by_cases hmax : maxSize < m
  · rw [if_pos hmax]
    constructor
    · intro h
      cases h
    · rintro ⟨hn,rfl,_⟩
      omega
  · rw [if_neg hmax]
    constructor
    · intro h
      cases h
      exact ⟨by omega,rfl,rfl⟩
    · rintro ⟨_,rfl,rfl⟩
      rfl

theorem read_least (w least : ℕ) {n : ℕ} {s rest : List UInt8}
    (h : ((readWord w >>= fun x => if x < least then
        (failure >>= fun m => if maxSize < m then failure else pure m)
      else (pure x >>= fun m => if maxSize < m then failure else pure m)) : Reader ℕ) s =
        some (n,rest)) :
    least ≤ n ∧ n < 256^w ∧ n ≤ maxSize ∧ s = word w n++rest := by
  rw [bind_some] at h
  obtain ⟨x,t,hx,h⟩ := h
  obtain ⟨hlt,hs⟩ := (read_word_iff w x s t).mp hx
  by_cases hleast : x < least
  · rw [if_pos hleast] at h
    cases h
  · rw [if_neg hleast, pure_bind, read_limited] at h
    obtain ⟨hn,rfl,rfl⟩ := h
    exact ⟨by omega,hlt,hn,hs⟩

/-- The compact sizes that are read are those written for the numbers up to the limit. -/
theorem read_compact_iff (n : ℕ) (s rest : List UInt8) :
    readCompactSize s = some (n,rest) ↔ n ≤ maxSize ∧ s = writeCompactSize n++rest := by
  constructor
  · intro h
    rw [readCompactSize, bind_some] at h
    obtain ⟨ch,t,hch,h⟩ := h
    obtain ⟨hlt,rfl⟩ := (read_word_iff 1 ch s t).mp hch
    rw [writeCompactSize]
    by_cases h1 : ch < 253
    · rw [if_pos h1, pure_bind, read_limited] at h
      obtain ⟨hn,rfl,rfl⟩ := h
      exact ⟨hn,by rw [if_pos h1]⟩
    rw [if_neg h1] at h
    by_cases h2 : ch = 253
    · rw [if_pos h2] at h
      obtain ⟨hlow,hhigh,hn,rfl⟩ := read_least 2 253 h
      exact ⟨hn,by rw [h2, if_neg (by omega), if_pos (by omega), List.append_assoc]⟩
    rw [if_neg h2] at h
    by_cases h3 : ch = 254
    · rw [if_pos h3] at h
      obtain ⟨hlow,hhigh,hn,rfl⟩ := read_least 4 0x10000 h
      refine ⟨hn,?_⟩
      rw [h3, if_neg (by omega), if_neg (by omega), if_pos (by omega), List.append_assoc]
    rw [if_neg h3] at h
    obtain ⟨hlow,hhigh,hn,rfl⟩ := read_least 8 0x100000000 h
    obtain rfl : ch = 255 := by omega
    refine ⟨hn,?_⟩
    rw [if_neg (by omega), if_neg (by omega), if_neg (by omega), List.append_assoc]
  · rintro ⟨hn,rfl⟩
    have hlt : n < 2^64 := by
      unfold maxSize at hn
      omega
    rw [read_compact_size n hlt, if_pos hn]

end Compact

/-- What holds of the two kinds of integers in a type of `sizeof` bytes. -/
structure Codes (sizeof : ℕ) : Prop where
  written : ∀ n < 2^(sizeof*8), ∃ bs, writeVarInt sizeof n = some bs ∧
    bs.length = getSizeOfVarInt n ∧ ∀ rest, readVarInt sizeof (bs++rest) = some (n,rest)
  unique_iff : ∀ s n rest, readVarInt sizeof s = some (n,rest) →
    ((∃ bs, writeVarInt sizeof n = some bs ∧ s = bs++rest) ↔ number (front s) < 2^(sizeof*8))
  compact : ∀ s n rest,
    readCompactSize s = some (n,rest) ↔ n ≤ maxSize ∧ s = writeCompactSize n++rest

theorem var_int_unique_iff (sizeof : ℕ) (h : 0 < sizeof) : Codes sizeof where
  written n hn := ⟨encode n,write_var_int h hn,encode_length n,read_encode hn⟩
  unique_iff s n rest hread := by
    obtain ⟨hn,hiff⟩ := read_iff hread
    rw [← hiff, write_var_int h hn]
    simp
  compact s n rest := read_compact_iff n s rest

theorem var_int_unique_iff_word : Codes 4 := var_int_unique_iff 4 (by decide)

/-- The encoding of 2^32, read into 32 bits. -/
theorem long_encoding_read : ¬∀ s n rest, readVarInt 4 s = some (n,rest) →
    ∃ bs, writeVarInt 4 n = some bs ∧ s = bs++rest := by
  intro h
  obtain ⟨bs,hwrite,hs⟩ := h [0x8e,0xfe,0xfe,0xff,0x00] 0 [] (by decide)
  rw [write_var_int (by decide) (by decide)] at hwrite
  have hlen := congrArg List.length hs
  rw [← Option.some.inj hwrite, List.append_nil, encode_length, getSizeOfVarInt, getSizeLoop] at hlen
  exact absurd hlen (by decide)

end SwippCore.VarInt
