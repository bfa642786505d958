import SwippCore.Script
import SwippCore.NetBase
import SwippCore.Lib.LeadingZeros

/-!
# Base 58

Bytes as the digits of one big number in base 58. Zero bytes in front are written as
zero digits one for one; white space around the digits is skipped when they are read.
Text and bytes determine each other.
-/

set_option autoImplicit false

namespace SwippCore.Base58
open SignMagnitude NetBase LeadingZeros

def pszBase58 : List Char := "123456789ABCDEFGHJKLMNPQRSTUVWXYZabcdefghijkmnopqrstuvwxyz".toList

def charOf (c : ℕ) : Char := pszBase58.getD c '1'

/-- `strchr(pszBase58, *p)`, as a position. -/
def digitOf (c : Char) : Option ℕ := pszBase58.findIdx? (· == c)

def encodeLoop (bn : ℕ) : List Char :=
  if h : bn = 0 then [] else charOf (bn%58)::encodeLoop (bn/58)
termination_by bn
decreasing_by omega

def encodeBase58 (vch : List UInt8) : List Char :=
  -- Extra zero at the end make sure bignum will interpret as a positive number
  let vchTmp := vch.reverse++[0]
  let bn := CBigNum.setvch vchTmp
  (encodeLoop bn.toNat++List.replicate (vch.takeWhile (· == 0)).length (charOf 0)).reverse

def decodeLoop (bn : ℕ) : List Char → Option ℕ
  | [] => some bn
  | c::p =>
    match digitOf c with
    | some d => decodeLoop (bn*58+d) p
    | none => if (c::p).dropWhile isSpace = [] then some bn else none

def trimSign (vchTmp : List UInt8) : List UInt8 :=
  match vchTmp.reverse with
  | a::b::_ => if a = 0 ∧ 0x80 ≤ b.toNat then vchTmp.dropLast else vchTmp
  | _ => vchTmp

def cStr (str : List Char) : List Char := str.takeWhile (· != '\x00')

def decodeBase58 (str : List Char) : Option (List UInt8) :=
  let psz := (cStr str).dropWhile isSpace
  match decodeLoop 0 psz with
  | none => none
  | some bn =>
    let vchTmp := trimSign (CBigNum.getvch bn)
    let nLeadingZeros := (psz.takeWhile (· == charOf 0)).length
    some (List.replicate nLeadingZeros 0++vchTmp.reverse)

variable {d : ℕ}

theorem digit_of_char (h : d < 58) : digitOf (charOf d) = some d := by
  have hall : ∀ n < 58, digitOf (charOf n) = some n := by decide
  exact hall d h

theorem char_of_digit {c : Char} (h : digitOf c = some d) : d < 58 ∧ charOf d = c := by
  obtain ⟨hlt,hc,_⟩ := List.findIdx?_eq_some_iff_getElem.mp h
  refine ⟨hlt,?_⟩
  rw [charOf, List.getD_eq_getElem?_getD, List.getElem?_eq_getElem hlt]
  exact beq_iff_eq.mp hc

theorem digit_plain {c : Char} (h : digitOf c = some d) : isSpace c = false ∧ c ≠ '\x00' := by
  obtain ⟨hd,rfl⟩ := char_of_digit h
  have hall : ∀ n < 58, isSpace (charOf n) = false ∧ charOf n ≠ '\x00' := by decide
  exact hall d hd

def number (ds : List ℕ) : ℕ := Nat.ofDigits 58 ds.reverse

theorem encode_loop_eq (bn : ℕ) : encodeLoop bn = (Nat.digits 58 bn).map charOf := by
  induction bn using Nat.strong_induction_on with
  | _ bn ih =>
    rw [encodeLoop]
    split
    · rename_i h
      rw [h]
      rfl
    · rename_i h
      have hd := Nat.digits_def' (b := 58) (n := bn) (by decide) (by omega)
      rw [hd, ih _ (by omega)]
      rfl

variable {ds : List ℕ}

theorem decode_digits (h : ∀ d ∈ ds, d < 58) (bn : ℕ) (p : List Char) :
    decodeLoop bn (ds.map charOf++p) = decodeLoop (bn*58^ds.length+number ds) p := by
  induction ds generalizing bn with
  | nil => simp [number]
  | cons d ds ih =>
    have hd := digit_of_char (h d List.mem_cons_self)
    rw [List.map_cons, List.cons_append, decodeLoop, hd]
    dsimp only
    rw [ih (fun e he => h e (List.mem_cons_of_mem d he))]
    congr 1
    rw [number, number, List.reverse_cons, Nat.ofDigits_append, List.length_reverse,
      List.length_cons, Nat.ofDigits_singleton, pow_succ]
    ring

theorem decode_loop_some {p : List Char} (bn n : ℕ) (h : decodeLoop bn p = some n) :
    ∃ ds ws, p = ds.map charOf++ws ∧ (∀ d ∈ ds, d < 58) ∧ (∀ c ∈ ws, isSpace c = true) ∧
      n = bn*58^ds.length+number ds := by
  induction p generalizing bn with
  | nil => exact ⟨[],[],rfl,by simp,by simp,by simpa [number, decodeLoop] using h.symm⟩
  | cons c p ih =>
    rw [decodeLoop] at h
    cases hc : digitOf c with
    | some d =>
      rw [hc] at h
      obtain ⟨ds,ws,hp,hds,hws,hn⟩ := ih _ h
      obtain ⟨hd,hchar⟩ := char_of_digit hc
      refine ⟨d::ds,ws,by rw [hp, ← hchar]; rfl,List.forall_mem_cons.mpr ⟨hd,hds⟩,hws,?_⟩
      rw [hn, number, number, List.reverse_cons, Nat.ofDigits_append, List.length_reverse,
        List.length_cons, Nat.ofDigits_singleton, pow_succ]
      ring
    | none =>
      rw [hc] at h
      dsimp only at h
      split at h
      · rename_i hw
        refine ⟨[],c::p,rfl,by simp,List.dropWhile_eq_nil_iff.mp hw,?_⟩
        simpa [number] using (Option.some.inj h).symm
      · cases h

theorem trim_getvch (n : ℕ) : trimSign (CBigNum.getvch n) = bytes n := by
  rw [CBigNum.getvch_eq, encode]
  have hneg : decide ((n : ℤ) < 0) = false := by simp
  rw [hneg, Int.natAbs_natCast]
  rcases List.eq_nil_or_concat (bytes n) with hnil | ⟨bs,b,hbs⟩
  · rw [hnil]
    rfl
  · have hb : b ≠ 0 := bytes_last n b (by rw [hbs]; simp)
    rw [hbs, List.concat_eq_append, close_snoc]
    split
    · rename_i hhigh
      have hrev : (bs++[b,if false = true then 0x80 else 0]).reverse = 0::b::bs.reverse := by simp
      have hcons : bs++[b,if false = true then (0x80 : UInt8) else 0] = (bs++[b])++[0] := by simp
      rw [trimSign, hrev]
      dsimp only
      rw [if_pos ⟨rfl,hhigh⟩, hcons, List.dropLast_concat]
    · rw [trimSign, List.reverse_append]
      cases bs.reverse with
      | nil => rfl
      | cons a as =>
        change (if b = 0 ∧ 0x80 ≤ a.toNat then (bs++[b]).dropLast else bs++[b]) = bs++[b]
        exact if_neg fun hz => hb hz.1

def trim (str : List Char) : List Char :=
  ((str.dropWhile isSpace).reverse.dropWhile isSpace).reverse

theorem drop_while_append (P : Char → Bool) (as bs : List Char) (h : ∀ c ∈ as, P c = true) :
    (as++bs).dropWhile P = bs.dropWhile P := by
  rw [List.dropWhile_append, List.dropWhile_eq_nil_iff.mpr h]
  rfl

theorem drop_while_plain (P : Char → Bool) (bs : List Char) (h : ∀ c ∈ bs, P c = false) :
    bs.dropWhile P = bs := by
  cases bs with
  | nil => rfl
  | cons b bs =>
    have hb := h b List.mem_cons_self
    rw [List.dropWhile_cons_of_neg (by rw [hb]; exact Bool.false_ne_true)]

theorem trim_split (str : List Char) : ∃ ws, (∀ c ∈ ws, isSpace c = true) ∧
    str.dropWhile isSpace = trim str++ws := by
  have hsplit := List.takeWhile_append_dropWhile (p := isSpace) (l := (str.dropWhile isSpace).reverse)
  refine ⟨((str.dropWhile isSpace).reverse.takeWhile isSpace).reverse,?_,?_⟩
  · intro c hc
    exact List.mem_takeWhile_imp (List.mem_reverse.mp hc)
  · rw [trim, ← List.reverse_append, hsplit, List.reverse_reverse]

theorem trim_plain (body ws : List Char) (h : ∀ c ∈ body, isSpace c = false)
    (hws : ∀ c ∈ ws, isSpace c = true) {str : List Char} (hstr : str.dropWhile isSpace = body++ws) :
    trim str = body := by
  rw [trim, hstr, List.reverse_append, drop_while_append, drop_while_plain, List.reverse_reverse]
  · intro c hc
    exact h c (List.mem_reverse.mp hc)
  · intro c hc
    exact hws c (List.mem_reverse.mp hc)

theorem mem_trim {str : List Char} {c : Char} (hc : c ∈ str) (hs : isSpace c = false) :
    c ∈ trim str := by
  have hdrop : ∀ xs : List Char, c ∈ xs → c ∈ xs.dropWhile isSpace := by
    intro xs hx
    induction xs with
    | nil => cases hx
    | cons x xs ih =>
      rw [List.dropWhile_cons]
      split
      · rename_i hsp
        rcases List.mem_cons.mp hx with rfl | hx
        · rw [hs] at hsp
          cases hsp
        · exact ih hx
      · exact hx
  exact List.mem_reverse.mpr (hdrop _ (List.mem_reverse.mpr (hdrop _ hc)))

theorem setvch_positive (bs : List UInt8) : CBigNum.setvch (bs++[0]) = value bs := by
  rw [CBigNum.setvch_eq, decode, split_snoc, ofSplit]
  simp

theorem value_of_digits (bs : List UInt8) : value bs = Nat.ofDigits 256 (bs.map UInt8.toNat) := by
  induction bs with
  | nil => rfl
  | cons b bs ih => rw [value, List.map_cons, Nat.ofDigits_cons, ih]

theorem encode_parts (v : List UInt8) :
    encodeBase58 v = (digits 58 (parts 256 (v.map UInt8.toNat))).map charOf := by
  have hzeros : ((v.map UInt8.toNat).takeWhile (· == 0)).length =
      (v.takeWhile (· == 0)).length := by
    have hzero : (fun b : UInt8 => b.toNat == 0) = (· == 0) := by
      ext b
      rw [beq_eq_beq, ← UInt8.toNat_inj]
      rfl
    rw [List.takeWhile_map, List.length_map]
    exact congrArg (fun f => (v.takeWhile f).length) hzero
  rw [encodeBase58, setvch_positive, Int.toNat_natCast, encode_loop_eq, value_of_digits,
    List.reverse_append, List.reverse_replicate, digits, parts, hzeros, List.map_append,
    List.map_replicate, List.map_reverse, List.map_reverse]

theorem chars_plain (h : ∀ d ∈ ds, d < 58) {c : Char} (hc : c ∈ ds.map charOf) :
    isSpace c = false ∧ c ≠ '\x00' := by
  obtain ⟨d,hd,rfl⟩ := List.mem_map.mp hc
  exact digit_plain (digit_of_char (h d hd))

theorem decode_space (ws : List Char) (h : ∀ c ∈ ws, isSpace c = true) (n : ℕ) :
    decodeLoop n ws = some n := by
  cases ws with
  | nil => rfl
  | cons c ws =>
    have hc : digitOf c = none := by
      cases hd : digitOf c with
      | none => rfl
      | some d =>
        have hs := (digit_plain hd).1
        rw [h c List.mem_cons_self] at hs
        cases hs
    rw [decodeLoop, hc]
    exact if_pos (List.dropWhile_eq_nil_iff.mpr h)

theorem zero_chars (h : ∀ d ∈ ds, d < 58) (ws : List Char) (hws : ∀ c ∈ ws, isSpace c = true) :
    ((ds.map charOf++ws).takeWhile (· == charOf 0)).length =
      (ds.takeWhile (· == 0)).length := by
  induction ds with
  | nil =>
    cases ws with
    | nil => rfl
    | cons c ws =>
      have hc : c ≠ charOf 0 := by
        rintro rfl
        exact absurd (hws _ List.mem_cons_self) (by decide)
      rw [List.map_nil, List.nil_append, List.takeWhile_cons_of_neg (by simpa using hc)]
      rfl
  | cons d ds ih =>
    obtain ⟨hd,hds⟩ := List.forall_mem_cons.mp h
    have hrest := ih hds
    rw [List.map_cons, List.cons_append]
    by_cases hzero : d = 0
    · rw [hzero, List.takeWhile_cons_of_pos (by simp), List.takeWhile_cons_of_pos (by simp),
        List.length_cons, List.length_cons, hrest]
    · have hchar : charOf d ≠ charOf 0 := by
        intro he
        have hdigit := digit_of_char hd
        rw [he, digit_of_char (by decide)] at hdigit
        exact hzero (Option.some.inj hdigit).symm
      rw [List.takeWhile_cons_of_neg (by simpa using hchar),
        List.takeWhile_cons_of_neg (by simpa using hzero)]
      rfl

theorem decode_parts {str ws : List Char} (h : ∀ d ∈ ds, d < 58) (hws : ∀ c ∈ ws, isSpace c = true)
    (hpsz : (cStr str).dropWhile isSpace = ds.map charOf++ws) :
    decodeBase58 str = some ((digits 256 (parts 58 ds)).map UInt8.ofNat) := by
  have hloop : decodeLoop 0 (ds.map charOf++ws) = some (number ds) := by
    rw [decode_digits h, decode_space ws hws, Nat.zero_mul, Nat.zero_add]
  rw [decodeBase58, hpsz]
  dsimp only
  rw [hloop]
  dsimp only
  rw [trim_getvch, zero_chars h ws hws, bytes, digits, parts, number, List.map_append,
    List.map_replicate, List.map_reverse]
  rfl

theorem bytes_back (v : List UInt8) : (v.map UInt8.toNat).map UInt8.ofNat = v := by
  rw [List.map_map]
  exact List.map_id'' (fun b => UInt8.ofNat_toNat) v

theorem to_nat_lt (v : List UInt8) (x : ℕ) (hx : x ∈ v.map UInt8.toNat) : x < 256 := by
  obtain ⟨b,_,rfl⟩ := List.mem_map.mp hx
  exact b.toNat_lt

theorem of_nat_back {xs : List ℕ} (h : ∀ x ∈ xs, x < 256) :
    (xs.map UInt8.ofNat).map UInt8.toNat = xs := by
  rw [List.map_map]
  calc xs.map (UInt8.toNat ∘ UInt8.ofNat) = xs.map id :=
        List.map_congr_left fun x hx => UInt8.toNat_ofNat_of_lt' (h x hx)
    _ = xs := List.map_id xs

theorem encode_plain {v : List UInt8} {c : Char} (hc : c ∈ encodeBase58 v) :
    isSpace c = false ∧ c ≠ '\x00' := by
  rw [encode_parts] at hc
  exact chars_plain (digits_lt (by decide) _) hc

theorem c_str_plain {str : List Char} (h : '\x00' ∉ str) : cStr str = str := by
  rw [cStr, List.takeWhile_eq_self_iff]
  intro c hc
  rw [bne_iff_ne]
  rintro rfl
  exact h hc

/-- A text is read as the bytes of which it is the text, white space apart, unless a zero byte
cuts it short. -/
theorem decode_iff (str : List Char) (v : List UInt8) :
    decodeBase58 str = some v ↔ trim (cStr str) = encodeBase58 v := by
  constructor
  · intro h
    cases hloop : decodeLoop 0 ((cStr str).dropWhile isSpace) with
    | none =>
      rw [decodeBase58] at h
      dsimp only at h
      rw [hloop] at h
      cases h
    | some n =>
      obtain ⟨ds,ws,hpsz,hds,hws,_⟩ := decode_loop_some 0 n hloop
      rw [decode_parts hds hws hpsz] at h
      have hback := of_nat_back (digits_lt (b := 256) (by decide) (parts 58 ds))
      rw [← Option.some.inj h, encode_parts, hback, parts_digits,
        digits_parts (by decide) hds]
      exact trim_plain _ ws (fun c hc => (chars_plain hds hc).1) hws hpsz
  · intro h
    obtain ⟨ws,hws,hpsz⟩ := trim_split (cStr str)
    rw [h, encode_parts] at hpsz
    rw [decode_parts (digits_lt (by decide) _) hws hpsz, parts_digits,
      digits_parts (by decide) (to_nat_lt v), bytes_back]

theorem decode_encode (v : List UInt8) : decodeBase58 (encodeBase58 v) = some v := by
  rw [decode_iff, c_str_plain fun h => (encode_plain h).2 rfl]
  apply trim_plain _ [] (fun c hc => (encode_plain hc).1) (by simp)
  rw [List.append_nil, drop_while_plain _ _ fun c hc => (encode_plain hc).1]

/-- What is read as bytes is their text, white space apart, unless a zero byte cuts it short. -/
theorem encode_decode {str : List Char} {v : List UInt8} (h : decodeBase58 str = some v) :
    encodeBase58 v = trim (cStr str) := ((decode_iff str v).mp h).symm

end SwippCore.Base58
