import SwippCore.Lib.BlockStream
import SwippCore.Lib.PrefixCode

/-!
# Hashers

The hashers of crypto/ take their data in pieces of any size. A piece fills the buffer from
the place that the byte count gives, whole blocks of it bypass the buffer, and the end of
the data is padded by two more pieces. `Transform` is whatever hashes a block.
-/

set_option autoImplicit false

namespace SwippCore.Hashers
open BlockStream PrefixCode Readers

structure HashKind (S : Type) where
  blockSize : ℕ
  padFrom : ℕ
  sizedesc : ℕ → List UInt8
  initial : S
  transform : S → List UInt8 → S
  output : S → List UInt8
  divides : blockSize ∣ 2^64
  padded : ∀ n, padFrom+1+(sizedesc n).length = 2*blockSize
  reach : blockSize ≤ padFrom

structure Hasher (S : Type) where
  s : S
  buf : List UInt8
  bytes : ℕ

def memcpy (buf : List UInt8) (pos : ℕ) (data : List UInt8) : List UInt8 :=
  buf.take pos++data++buf.drop (pos+data.length)

section Model
variable {S : Type} (K : HashKind S)

/-- The first branch of `Write`, with the data that is left and the new `bufsize`. -/
def fillBuffer (h : Hasher S) (data : List UInt8) : Hasher S × List UInt8 × ℕ :=
  let bufsize := h.bytes%K.blockSize
  if bufsize ≠ 0 ∧ K.blockSize ≤ bufsize+data.length then
    let buf := memcpy h.buf bufsize (data.take (K.blockSize-bufsize))
    (⟨K.transform h.s buf,buf,(h.bytes+(K.blockSize-bufsize))%2^64⟩,
      data.drop (K.blockSize-bufsize),0)
  else (h,data,bufsize)

/-- `while (end >= data + 64)` -/
def whole : ℕ → Hasher S → List UInt8 → Hasher S × List UInt8
  | 0, h, data => (h,data)
  | k+1, h, data =>
    if K.blockSize ≤ data.length then
      whole k ⟨K.transform h.s (data.take K.blockSize),h.buf,(h.bytes+K.blockSize)%2^64⟩
        (data.drop K.blockSize)
    else (h,data)

/-- `if (end > data)` -/
def keep (h : Hasher S) (data : List UInt8) (bufsize : ℕ) : Hasher S :=
  if data ≠ [] then ⟨h.s,memcpy h.buf bufsize data,(h.bytes+data.length)%2^64⟩ else h

def write (h : Hasher S) (data : List UInt8) : Hasher S :=
  let x := fillBuffer K h data
  let y := whole K x.2.1.length x.1 x.2.1
  keep y.1 y.2 x.2.2

def pad : List UInt8 := 0x80::List.replicate (K.blockSize-1) 0

/-- `Finalize`; the size is taken before the padding is written. -/
def finalize (h : Hasher S) : List UInt8 :=
  let sizedesc := K.sizedesc (h.bytes*8%2^64)
  let h := write K h ((pad K).take (1+(K.padFrom-h.bytes%K.blockSize)%K.blockSize))
  K.output (write K h sizedesc).s

/-- `Reset`, and the constructors on whatever lies in the buffer. -/
def reset (buf : List UInt8) : Hasher S := ⟨K.initial,buf,0⟩

def paddedData (data : List UInt8) : List UInt8 :=
  data++0x80::List.replicate ((K.padFrom-data.length%K.blockSize)%K.blockSize) 0++
    K.sizedesc (data.length*8%2^64)

def hashOf (data : List UInt8) : List UInt8 :=
  K.output (folded K.blockSize K.transform K.initial (paddedData K data))

end Model

section Keyed
variable {S : Type} (K : HashKind S)

structure Hmac (S : Type) where
  outer : Hasher S
  inner : Hasher S

/-- The key of `CHMAC_SHA256` and `CHMAC_SHA512` as it fills a block; a longer one is hashed. -/
def rkey (buf key : List UInt8) : List UInt8 :=
  if key.length ≤ K.blockSize then key++List.replicate (K.blockSize-key.length) 0
  else
    let hash := finalize K (write K (reset K buf) key)
    hash++List.replicate (K.blockSize-hash.length) 0

def hmac (buf bufOuter bufInner key : List UInt8) : Hmac S :=
  let rkey := (rkey K buf key).map (· ^^^ 0x5c)
  ⟨write K (reset K bufOuter) rkey,write K (reset K bufInner) (rkey.map (· ^^^ (0x5c ^^^ 0x36)))⟩

def Hmac.write (m : Hmac S) (data : List UInt8) : Hmac S :=
  { m with inner := Hashers.write K m.inner data }

def Hmac.finalize (m : Hmac S) : List UInt8 :=
  Hashers.finalize K (Hashers.write K m.outer (Hashers.finalize K m.inner))

def blockKey (key : List UInt8) : List UInt8 :=
  let key := if key.length ≤ K.blockSize then key else hashOf K key
  key++List.replicate (K.blockSize-key.length) 0

end Keyed

section Classes

def sha1 (transform : List (BitVec 32) → List UInt8 → List (BitVec 32)) :
    HashKind (List (BitVec 32)) where
  blockSize := 64
  padFrom := 119
  sizedesc := bigWord 8
  initial := [0x67452301,0xEFCDAB89,0x98BADCFE,0x10325476,0xC3D2E1F0]
  transform := transform
  output s := (List.range 5).flatMap fun i => bigWord 4 (s.getD i 0).toNat
  divides := by decide
  padded n := by simp [bigWord, word_length]
  reach := by decide

def sha256 (transform : List (BitVec 32) → List UInt8 → List (BitVec 32)) :
    HashKind (List (BitVec 32)) where
  blockSize := 64
  padFrom := 119
  sizedesc := bigWord 8
  initial := [0x6a09e667,0xbb67ae85,0x3c6ef372,0xa54ff53a,0x510e527f,0x9b05688c,0x1f83d9ab,
    0x5be0cd19]
  transform := transform
  output s := (List.range 8).flatMap fun i => bigWord 4 (s.getD i 0).toNat
  divides := by decide
  padded n := by simp [bigWord, word_length]
  reach := by decide

def sha512 (transform : List (BitVec 64) → List UInt8 → List (BitVec 64)) :
    HashKind (List (BitVec 64)) where
  blockSize := 128
  padFrom := 239
  sizedesc n := List.replicate 8 0++bigWord 8 n
  initial := [0x6a09e667f3bcc908,0xbb67ae8584caa73b,0x3c6ef372fe94f82b,0xa54ff53a5f1d36f1,
    0x510e527fade682d1,0x9b05688c2b3e6c1f,0x1f83d9abfb41bd6b,0x5be0cd19137e2179]
  transform := transform
  output s := (List.range 8).flatMap fun i => bigWord 8 (s.getD i 0).toNat
  divides := by decide
  padded n := by simp [bigWord, word_length]
  reach := by decide

def ripemd160 (transform : List (BitVec 32) → List UInt8 → List (BitVec 32)) :
    HashKind (List (BitVec 32)) where
  blockSize := 64
  padFrom := 119
  sizedesc := word 8
  initial := [0x67452301,0xEFCDAB89,0x98BADCFE,0x10325476,0xC3D2E1F0]
  transform := transform
  output s := (List.range 5).flatMap fun i => word 4 (s.getD i 0).toNat
  divides := by decide
  padded n := by simp [word_length]
  reach := by decide

end Classes

section Pieces
variable {S : Type} {K : HashKind S}

theorem block_pos : 0 < K.blockSize := by
  apply Nat.pos_of_dvd_of_pos K.divides
  positivity

structure Shows (K : HashKind S) (h : Hasher S) (data : List UInt8) : Prop where
  state : h.s = folded K.blockSize K.transform K.initial data
  kept : h.buf.take (data.length%K.blockSize) = rest K.blockSize data
  bytes : h.bytes%2^64 = data.length%2^64
  sized : h.buf.length = K.blockSize

theorem whole_spec (k : ℕ) (h : Hasher S) (data : List UInt8) (hk : data.length ≤ k) :
    let y := whole K k h data
    y.1.s = folded K.blockSize K.transform h.s data ∧ y.1.buf = h.buf ∧
      y.2 = rest K.blockSize data ∧ (y.1.bytes+y.2.length)%2^64 = (h.bytes+data.length)%2^64 := by
  have hB := block_pos (K := K)
  induction k generalizing h data with
  | zero =>
    have hshort := folded_short (B := K.blockSize) K.transform h.s data (by omega)
    rw [hshort.1, hshort.2]
    exact ⟨rfl,rfl,rfl,rfl⟩
  | succ k ih =>
    rw [whole]
    by_cases hlong : K.blockSize ≤ data.length
    · have hblock := folded_block K.transform hB h.s data hlong
      obtain ⟨hs,hbuf,hleft,hcount⟩ := ih
        ⟨K.transform h.s (data.take K.blockSize),h.buf,(h.bytes+K.blockSize)%2^64⟩
        (data.drop K.blockSize) (by rw [List.length_drop]; omega)
      rw [if_pos hlong, hblock.1, hblock.2]
      refine ⟨hs,hbuf,hleft,hcount.trans ?_⟩
      rw [List.length_drop, Nat.mod_add_mod, Nat.add_assoc, Nat.add_sub_cancel' hlong]
    · have hshort := folded_short (B := K.blockSize) K.transform h.s data (by omega)
      rw [if_neg hlong, hshort.1, hshort.2]
      exact ⟨rfl,rfl,rfl,rfl⟩

theorem keep_spec (h : Hasher S) (r data : List UInt8) (htake : h.buf.take r.length = r)
    (hroom : r.length+data.length < h.buf.length) :
    (keep h data r.length).s = h.s ∧
      (keep h data r.length).buf.take (r.length+data.length) = r++data ∧
      (keep h data r.length).buf.length = h.buf.length ∧
      (keep h data r.length).bytes%2^64 = (h.bytes+data.length)%2^64 := by
  unfold keep
  by_cases hnil : data = []
  · rw [if_neg (not_not.mpr hnil), hnil, List.append_nil, List.length_nil, Nat.add_zero]
    exact ⟨rfl,htake,rfl,rfl⟩
  · rw [if_pos hnil, memcpy, htake]
    refine ⟨rfl,?_,?_,Nat.mod_mod _ _⟩
    · exact List.take_left' (List.length_append)
    · rw [List.length_append, List.length_append, List.length_drop]
      omega

section
variable {h : Hasher S} {data : List UInt8} (hs : Shows K h data) (more : List UInt8)
include h data hs more

theorem fill_buffer_spec :
    let x := fillBuffer K h more
    let r := if x.2.2 = 0 then [] else rest K.blockSize data
    x.2.2 = r.length ∧ x.1.buf.take r.length = r ∧ x.1.buf.length = K.blockSize ∧
      (r = [] ∨ r.length+x.2.1.length < K.blockSize) ∧
      (x.1.bytes+x.2.1.length)%2^64 = (data++more).length%2^64 ∧
      folded K.blockSize K.transform K.initial (data++more) =
        folded K.blockSize K.transform x.1.s (r++x.2.1) ∧
      rest K.blockSize (data++more) = rest K.blockSize (r++x.2.1) := by
  have hB := block_pos (K := K)
  obtain ⟨hstate,hkept,hbytes,hsized⟩ := hs
  have hmod : h.bytes%K.blockSize = data.length%K.blockSize := by
    rw [← Nat.mod_mod_of_dvd h.bytes K.divides, hbytes, Nat.mod_mod_of_dvd _ K.divides]
  have hcount : (h.bytes+more.length)%2^64 = (data++more).length%2^64 := by
    rw [← Nat.mod_add_mod, hbytes, Nat.mod_add_mod, List.length_append]
  have hrest := rest_length (B := K.blockSize) data
  have hlt := Nat.mod_lt data.length hB
  have happend := folded_append K.transform hB K.initial data more
  dsimp only
  rw [fillBuffer, hmod]
  dsimp only
  by_cases hfill : data.length%K.blockSize ≠ 0 ∧
      K.blockSize ≤ data.length%K.blockSize+more.length
  · have hle : K.blockSize-data.length%K.blockSize ≤ more.length := by omega
    have hbuf : memcpy h.buf (data.length%K.blockSize)
        (more.take (K.blockSize-data.length%K.blockSize)) =
          (rest K.blockSize data++more).take K.blockSize := by
      rw [memcpy, hkept, List.length_take_of_le hle, Nat.add_sub_cancel' hlt.le,
        List.drop_eq_nil_of_le hsized.le, List.append_nil, List.take_append, hrest,
        List.take_of_length_le (hrest.trans_le hlt.le)]
    have hdrop : (rest K.blockSize data++more).drop K.blockSize =
        more.drop (K.blockSize-data.length%K.blockSize) := by
      rw [List.drop_append, hrest, List.drop_eq_nil_of_le (by omega), List.nil_append]
    have hblock := folded_block K.transform hB h.s (rest K.blockSize data++more) (by
      rw [List.length_append, hrest]
      exact hfill.2)
    rw [hdrop] at hblock
    rw [if_pos hfill, hbuf]
    refine ⟨rfl,rfl,?_,Or.inl rfl,?_,?_,happend.2.trans hblock.2⟩
    · rw [List.length_take, List.length_append, hrest]
      omega
    · rw [← hcount, Nat.mod_add_mod, List.length_drop, Nat.add_assoc, Nat.add_sub_cancel' hle]
    · rw [happend.1, ← hstate]
      exact hblock.1
  · rw [if_neg hfill]
    dsimp only
    by_cases hzero : data.length%K.blockSize = 0
    · have hnil : rest K.blockSize data = [] := List.eq_nil_of_length_eq_zero (by omega)
      rw [hnil] at happend
      rw [if_pos hzero, hzero]
      exact ⟨rfl,rfl,hsized,Or.inl rfl,hcount,by rw [happend.1, hstate],happend.2⟩
    · rw [if_neg hzero]
      exact ⟨hrest.symm,by rw [hrest, hkept],hsized,Or.inr (by omega),hcount,
        by rw [happend.1, hstate],happend.2⟩

theorem write_shows : Shows K (write K h more) (data++more) := by
  have hB := block_pos (K := K)
  obtain ⟨hsize,htake,hsized,hroom,hcount,hfold,hrest⟩ := fill_buffer_spec hs more
  rw [write]
  generalize fillBuffer K h more = x at hsize htake hsized hroom hcount hfold hrest ⊢
  generalize (if x.2.2 = 0 then [] else rest K.blockSize data) = r at hsize htake hroom hfold hrest
  obtain ⟨hs,hbuf,hleft,hbytes⟩ := whole_spec x.2.1.length x.1 x.2.1 (Nat.le_refl _)
  generalize whole K x.2.1.length x.1 x.2.1 = y at hs hbuf hleft hbytes ⊢
  -- Either the buffer is empty, or there is no whole block and all goes behind what it has.
  have hboth : folded K.blockSize K.transform K.initial (data++more) = y.1.s ∧
      rest K.blockSize (data++more) = r++y.2 := by
    rcases hroom with rfl | hroom
    · rw [hfold, hrest, hs, hleft]
      exact ⟨rfl,rfl⟩
    · have hshort := folded_short (B := K.blockSize) K.transform x.1.s x.2.1 (by omega)
      have happend := folded_short (B := K.blockSize) K.transform x.1.s (r++x.2.1) (by
        rw [List.length_append]
        exact hroom)
      rw [hfold, hrest, hs, hleft, hshort.1, hshort.2]
      exact happend
  have hlen := rest_length (B := K.blockSize) (data++more)
  have hlt := Nat.mod_lt (data++more).length hB
  rw [hboth.2, List.length_append] at hlen
  rw [← hbuf] at htake hsized
  obtain ⟨hs2,hbuf2,hsized2,hbytes2⟩ := keep_spec y.1 r y.2 htake (by omega)
  rw [hsize]
  refine ⟨hs2.trans hboth.1.symm,?_,?_,hsized2.trans hsized⟩
  · rw [← hlen, hboth.2]
    exact hbuf2
  · rw [hbytes2, hbytes, hcount]

end

theorem reset_shows {buf : List UInt8} (hbuf : buf.length = K.blockSize) :
    Shows K (reset K buf) [] :=
  ⟨(folded_short K.transform K.initial [] block_pos).1.symm,by simp [reset, rest],rfl,hbuf⟩

theorem writes_show (ds : List (List UInt8)) {h : Hasher S} {data : List UInt8}
    (hs : Shows K h data) : Shows K (ds.foldl (write K) h) (data++ds.flatten) := by
  induction ds generalizing h data with
  | nil => rwa [List.flatten_nil, List.append_nil]
  | cons d ds ih =>
    rw [List.foldl_cons, List.flatten_cons, ← List.append_assoc]
    exact ih (write_shows hs d)

theorem pad_take {n : ℕ} (hn : n < K.blockSize) :
    (pad K).take (1+n) = 0x80::List.replicate n 0 := by
  rw [pad, Nat.add_comm, List.take_succ_cons, List.take_replicate, Nat.min_eq_left (by omega)]

theorem finalize_hash {h : Hasher S} {data : List UInt8} (hs : Shows K h data) :
    finalize K h = hashOf K data := by
  have hmod : h.bytes%K.blockSize = data.length%K.blockSize := by
    rw [← Nat.mod_mod_of_dvd h.bytes K.divides, hs.bytes, Nat.mod_mod_of_dvd _ K.divides]
  have hsize : h.bytes*8%2^64 = data.length*8%2^64 := by
    rw [Nat.mul_mod, hs.bytes, ← Nat.mul_mod]
  have hpad := pad_take (K := K) (Nat.mod_lt (K.padFrom-data.length%K.blockSize) block_pos)
  have hend := write_shows (write_shows hs ((pad K).take
    (1+(K.padFrom-data.length%K.blockSize)%K.blockSize))) (K.sizedesc (data.length*8%2^64))
  rw [finalize, hsize, hmod, hashOf, paddedData, ← hpad, hend.state]

theorem padded_dvd (data : List UInt8) : K.blockSize ∣ (paddedData K data).length := by
  have hB := block_pos (K := K)
  have hsize := K.padded (data.length*8%2^64)
  have hreach := K.reach
  have hlt := Nat.mod_lt data.length hB
  have hdata := Nat.div_add_mod data.length K.blockSize
  have hpad := Nat.div_add_mod (K.padFrom-data.length%K.blockSize) K.blockSize
  have hle : (K.padFrom-data.length%K.blockSize)/K.blockSize ≤ 2 := by
    apply Nat.div_le_of_le_mul
    omega
  refine ⟨data.length/K.blockSize+(2-(K.padFrom-data.length%K.blockSize)/K.blockSize),?_⟩
  rw [paddedData, List.length_append, List.length_append, List.length_cons, List.length_replicate,
    Nat.mul_add, Nat.mul_sub]
  have hmul := Nat.mul_le_mul_left K.blockSize hle
  omega

/-- However the data is cut into pieces, the hash is the one of the blocks of all of it with
the padding behind it, whatever the hasher was used for before. -/
theorem hash_of_pieces {S : Type} (K : HashKind S) (buf : List UInt8)
    (hbuf : buf.length = K.blockSize) (ds : List (List UInt8)) :
    finalize K (ds.foldl (write K) (reset K buf)) = hashOf K ds.flatten ∧
      rest K.blockSize (paddedData K ds.flatten) = [] :=
  ⟨finalize_hash (writes_show ds (reset_shows hbuf)),rest_of_dvd (padded_dvd _)⟩

/-- A transform in which every byte of the block counts. -/
def mixing {n : ℕ} (s : List (BitVec n)) (block : List UInt8) : List (BitVec n) :=
  s.mapIdx fun i w => block.foldl (fun w b => w*33+BitVec.ofNat n (b.toNat+i)) w

/-- Pieces that fill the buffer, that bypass it and that stay in it. -/
def samplePieces : List (List UInt8) :=
  [List.replicate 60 1,[],List.replicate 10 2,List.replicate 130 3,[4,5]]

theorem hash_of_pieces_sha256 :
    finalize (sha256 mixing)
        (samplePieces.foldl (write (sha256 mixing)) (reset (sha256 mixing) (List.replicate 64 7))) =
      hashOf (sha256 mixing) samplePieces.flatten ∧
    rest 64 (paddedData (sha256 mixing) samplePieces.flatten) = [] ∧
    hashOf (sha256 mixing) samplePieces.flatten ≠ hashOf (sha256 mixing) [4,5] := by
  obtain ⟨hhash,hrest⟩ := hash_of_pieces (sha256 mixing) (List.replicate 64 7) rfl samplePieces
  exact ⟨hhash,hrest,by decide +kernel⟩

theorem rkey_eq (buf key : List UInt8) (hbuf : buf.length = K.blockSize) :
    rkey K buf key = blockKey K key := by
  rw [rkey, blockKey]
  dsimp only
  split_ifs
  · rfl
  · rw [finalize_hash (write_shows (reset_shows hbuf) key), List.nil_append]

/-- An HMAC is the nested hash that it is defined as, for keys of any length and however the
data is cut into pieces. -/
theorem hmac_of_pieces {S : Type} (K : HashKind S) (buf bufOuter bufInner key : List UInt8)
    (hbuf : buf.length = K.blockSize) (houter : bufOuter.length = K.blockSize)
    (hinner : bufInner.length = K.blockSize) (ds : List (List UInt8)) :
    (ds.foldl (Hmac.write K) (hmac K buf bufOuter bufInner key)).finalize K =
      hashOf K ((blockKey K key).map (· ^^^ 0x5c)++
        hashOf K ((blockKey K key).map (· ^^^ 0x36)++ds.flatten)) := by
  have hkey := rkey_eq buf key hbuf
  have hxor : ((blockKey K key).map (· ^^^ 0x5c)).map (· ^^^ (0x5c ^^^ 0x36)) =
      (blockKey K key).map (· ^^^ (0x36 : UInt8)) := by
    rw [List.map_map]
    congr 1
    funext b
    rw [Function.comp, UInt8.xor_assoc]
    rfl
  have hpieces : ∀ m : Hmac S, ds.foldl (Hmac.write K) m = ⟨m.outer,ds.foldl (write K) m.inner⟩ := by
    induction ds with
    | nil => exact fun _ => rfl
    | cons d ds ih => exact fun m => ih (m.write K d)
  have hin := writes_show ds (write_shows (reset_shows hinner) ((blockKey K key).map (· ^^^ 0x36)))
  have hout := write_shows (reset_shows houter) ((blockKey K key).map (· ^^^ 0x5c))
  rw [List.nil_append] at hin hout
  rw [hpieces, Hmac.finalize, hmac]
  dsimp only
  rw [hkey, hxor, finalize_hash hin, finalize_hash (write_shows hout _)]

/-- The key is longer than a block. -/
theorem hmac_of_pieces_sha512 :
    (samplePieces.foldl (Hmac.write (sha512 mixing)) (hmac (sha512 mixing)
      (List.replicate 128 0) (List.replicate 128 1) (List.replicate 128 2)
      (List.replicate 131 5))).finalize (sha512 mixing) =
      hashOf (sha512 mixing) ((blockKey (sha512 mixing) (List.replicate 131 5)).map (· ^^^ 0x5c)++
        hashOf (sha512 mixing) ((blockKey (sha512 mixing) (List.replicate 131 5)).map (· ^^^ 0x36)++
          samplePieces.flatten)) :=
  hmac_of_pieces (sha512 mixing) _ _ _ (List.replicate 131 5) rfl rfl rfl samplePieces

end Pieces

end SwippCore.Hashers
