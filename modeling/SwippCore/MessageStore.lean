import SwippCore.SecureMessage
import SwippCore.Lib.Histories

/-!
# The message store is faithful

The files hold the messages that were stored, one after the other, and the tokens are
their places. A message is read back from its place, and a scan of the file finds the
same places, as long as every payload has the eight bytes of a sample.
-/

set_option autoImplicit false

namespace SwippCore.MessageStore
open FinMap Records SecureMessage Histories

section Places

def fill (t : Tokens) : List (ℕ × Message) → Tokens
  | [] => t
  | x::xs => fill (insertNew t (tokenOf x.2) x.1) xs

variable (t : Tokens)

theorem fill_snoc (xs : List (ℕ × Message)) (x : ℕ × Message) :
    fill t (xs++[x]) = insertNew (fill t xs) (tokenOf x.2) x.1 := by
  induction xs generalizing t with
  | nil => rfl
  | cons y ys ih => exact ih _

theorem fill_lookup {xs : List (ℕ × Message)} {tok : SecMsgToken} {ofs : ℕ}
    (h : (fill t xs).lookup tok = some ofs) :
    t.lookup tok = some ofs ∨ ∃ m, (ofs,m) ∈ xs ∧ tokenOf m = tok := by
  induction xs generalizing t with
  | nil => exact Or.inl h
  | cons x xs ih =>
    rcases ih _ h with h | ⟨m,hm,htok⟩
    · rw [lookup_insert_new] at h
      split at h
      · rename_i heq
        obtain rfl := Option.some.inj h
        exact Or.inr ⟨x.2,List.mem_cons_self,heq.1.symm⟩
      · exact Or.inl h
    · exact Or.inr ⟨m,List.mem_cons_of_mem x hm,htok⟩

theorem fill_kept (xs : List (ℕ × Message)) (tok : SecMsgToken) (ofs : ℕ)
    (h : t.lookup tok = some ofs) : (fill t xs).lookup tok = some ofs := by
  induction xs generalizing t with
  | nil => exact h
  | cons x xs ih =>
    apply ih
    rw [lookup_insert_new, if_neg]
    · exact h
    · rintro ⟨rfl,hnone⟩
      rw [h] at hnone
      cases hnone

theorem fill_place (ms : List Message) (ofs : ℕ) (hnew : ∀ m ∈ ms, t.lookup (tokenOf m) = none)
    (hd : (ms.map tokenOf).Nodup) (m : Message) (hm : m ∈ ms) : ∃ p, (p,m) ∈ places ofs ms ∧
      (fill t (places ofs ms)).lookup (tokenOf m) = some p := by
  induction ms generalizing t ofs with
  | nil => cases hm
  | cons x xs ih =>
    rw [List.map_cons, List.nodup_cons] at hd
    rcases List.mem_cons.mp hm with rfl | hm
    · refine ⟨ofs,List.mem_cons_self,?_⟩
      change (fill (insertNew t (tokenOf m) ofs) _).lookup (tokenOf m) = some ofs
      apply fill_kept
      rw [lookup_insert_new, if_pos ⟨rfl,hnew m List.mem_cons_self⟩]
    · obtain ⟨p,hp,hlook⟩ := ih (insertNew t (tokenOf x) ofs) (ofs+x.bytes.length) (by
        intro y hy
        rw [lookup_insert_new, if_neg]
        · exact hnew y (List.mem_cons_of_mem x hy)
        · rintro ⟨heq,_⟩
          exact hd.1 (heq ▸ List.mem_map_of_mem hy)) hd.2 hm
      exact ⟨p,List.mem_cons_of_mem _ hp,hlook⟩

end Places

section Scan

theorem scan_message (k ofs : ℕ) {m : Message} (hm : 8 ≤ m.payload.length)
    (hsize : m.payload.length < 2^31) (rest : List UInt8) (t : Tokens) :
    scanFile (k+1) ofs (m.bytes++rest) t =
      scanFile k (ofs+m.bytes.length) rest (insertNew t (tokenOf m) ofs) := by
  have hheader : (m.bytes++rest).take smsgHdrLen = m.header := take_header m rest
  have hrest : (m.bytes++rest).drop smsgHdrLen = m.payload++rest := drop_header m rest
  have hfits := m.fits
  have hsample : ((m.payload++rest).take 8).length = 8 := by
    rw [List.length_take, List.length_append]
    omega
  have htoken : (⟨timestamp m.header,sampleOf (m.payload++rest)⟩ : SecMsgToken) = tokenOf m := by
    unfold tokenOf sampleOf
    rw [if_neg (by omega), List.take_append_of_le_length hm]
  rw [scanFile, hheader, hrest, if_neg (not_not.mpr m.sized), if_neg (by omega),
    if_neg (not_not.mpr hsample), htoken, ← hfits, List.drop_left, m.length_bytes, hfits]

theorem scan_messages (k ofs : ℕ) {ms : List Message}
    (hms : ∀ m ∈ ms, 8 ≤ m.payload.length ∧ m.payload.length < 2^31) (hk : (concat ms).length ≤ k)
    (t : Tokens) : scanFile k ofs (concat ms) t = fill t (places ofs ms) := by
  induction ms generalizing k ofs t with
  | nil =>
    cases k with
    | zero => rfl
    | succ k =>
      rw [scanFile]
      rfl
  | cons m ms ih =>
    have hlen := m.length_bytes
    rw [concat, List.length_append, hlen] at hk
    have hpos : 0 < smsgHdrLen := by decide
    obtain ⟨k,rfl⟩ : ∃ j, k = j+1 := ⟨k-1,by omega⟩
    obtain ⟨hm,hsize⟩ := hms m List.mem_cons_self
    rw [concat, scan_message k ofs hm hsize]
    exact ih k _ (fun x hx => hms x (List.mem_cons_of_mem m hx)) (by omega) _

end Scan

section Store
variable (W : MsgEnv)

def ofBucket (bucket : ℤ) (ms : List Message) : List Message :=
  ms.filter fun m => bucketOf (timestamp m.header) = bucket

structure Holds (ms : List Message) (s : MsgStore) : Prop where
  files : ∀ b, s.file b = concat (ofBucket b ms)
  tokens : ∀ b, s.tokens b = fill ∅ (places 0 (ofBucket b ms))
  file : ∀ b, (s.files.lookup b).isSome = true ↔ ofBucket b ms ≠ []
  bucket : ∀ b, (s.smsgBuckets.lookup b).isSome = true ↔ ofBucket b ms ≠ []
  sampled : ∀ m ∈ ms, 8 ≤ m.payload.length ∧ m.payload.length < 2^31
  distinct : (ms.map tokenOf).Nodup

theorem of_bucket_snoc (ms : List Message) (m : Message) (b : ℤ) :
    ofBucket b (ms++[m]) =
      if bucketOf (timestamp m.header) = b then ofBucket b ms++[m] else ofBucket b ms := by
  unfold ofBucket
  rw [List.filter_append]
  by_cases h : bucketOf (timestamp m.header) = b
  · simp [h]
  · simp [h]

/-- One call of `SecureMsgStore`, with a message that passes validation. -/
structure Call where
  now : ℤ
  io : StoreIo
  message : Message
  valid : secureMsgValidate W message = 0
  fUpdateBucket : Bool

def whole (len : ℕ) : StoreIo → Bool
  | .written n => len ≤ n
  | _ => false

def storeOk (s : MsgStore) (c : Call W) : Bool :=
  c.io.noDir || !inTime c.now (timestamp c.message.header) ||
    ((s.tokens (bucketOf (timestamp c.message.header))).lookup (tokenOf c.message)).isSome ||
    (8 ≤ c.message.payload.length && whole c.message.bytes.length c.io)

def call (c : Call W) (x : MsgStore × List Message) : MsgStore × List Message :=
  let r := secureMsgStore W c.now c.io c.message c.fUpdateBucket x.1
  (r.2,if r.1 = 0 then x.2++[c.message] else x.2)

theorem valid_length {m : Message} (h : secureMsgValidate W m = 0) : m.payload.length < 2^31 := by
  by_contra hlen
  have hworst : m.payload.length > smsgMaxMsgWorst := by
    have hbound : smsgMaxMsgWorst < 2^31 := by decide
    omega
  unfold secureMsgValidate at h
  rw [if_pos hworst] at h
  split at h <;> cases h

variable (s : MsgStore)

theorem tokens_default (b : ℤ) :
    (getDefault s.smsgBuckets b SecMsgBucket.start).1.setTokens = s.tokens b := by
  unfold getDefault MsgStore.tokens
  cases s.smsgBuckets.lookup b <;> rfl

theorem default_known {s : MsgStore} {b : ℤ} {tok : SecMsgToken}
    (h : ((s.tokens b).lookup tok).isSome = true) :
    (getDefault s.smsgBuckets b SecMsgBucket.start).2 = s.smsgBuckets := by
  unfold MsgStore.tokens at h
  unfold getDefault
  cases hb : s.smsgBuckets.lookup b with
  | none =>
    rw [hb] at h
    cases h
  | some v => rfl

theorem lookup_default (b c : ℤ) (v : SecMsgBucket) :
    ((getDefault s.smsgBuckets b SecMsgBucket.start).2.insert b v).lookup c =
      if c = b then some v else s.smsgBuckets.lookup c := by
  rw [lookup_insert_if]
  unfold getDefault
  by_cases h : c = b
  · rw [if_pos h, if_pos h]
  · rw [if_neg h, if_neg h]
    cases s.smsgBuckets.lookup b with
    | none => rw [lookup_insert_if, if_neg h]
    | some v => rfl

theorem holds_append (ms : List Message) (s s' : MsgStore) (hs : Holds ms s) (m : Message)
    (hlen : 8 ≤ m.payload.length) (hsize : m.payload.length < 2^31)
    (hnew : (s.tokens (bucketOf (timestamp m.header))).lookup (tokenOf m) = none)
    (hfiles : ∀ b, s'.files.lookup b = if b = bucketOf (timestamp m.header) then
      some (s.file b++m.bytes) else s.files.lookup b)
    (htokens : ∀ b, (s'.smsgBuckets.lookup b).map SecMsgBucket.setTokens =
      if b = bucketOf (timestamp m.header) then
        some ((s.tokens b).insert (tokenOf m) (s.file b).length)
      else (s.smsgBuckets.lookup b).map SecMsgBucket.setTokens) : Holds (ms++[m]) s' := by
  have hfresh : tokenOf m ∉ ms.map tokenOf := by
    intro hmem
    obtain ⟨x,hx,htok⟩ := List.mem_map.mp hmem
    have hts : timestamp x.header = timestamp m.header := congrArg SecMsgToken.timestamp htok
    have hin : x ∈ ofBucket (bucketOf (timestamp m.header)) ms := by
      unfold ofBucket
      rw [List.mem_filter, hts]
      exact ⟨hx,decide_eq_true rfl⟩
    have hd : ((ofBucket (bucketOf (timestamp m.header)) ms).map tokenOf).Nodup :=
      hs.distinct.sublist (List.filter_sublist.map tokenOf)
    obtain ⟨p,_,hlook⟩ := fill_place ∅ _ 0 (fun _ _ => rfl) hd x hin
    rw [← hs.tokens, htok, hnew] at hlook
    cases hlook
  refine ⟨?_,?_,?_,?_,?_,?_⟩
  · intro b
    unfold MsgStore.file
    rw [hfiles, of_bucket_snoc]
    by_cases hb : b = bucketOf (timestamp m.header)
    · rw [if_pos hb, if_pos hb.symm, concat_snoc, ← hs.files]
      rfl
    · rw [if_neg hb, if_neg (Ne.symm hb)]
      exact hs.files b
  · intro b
    unfold MsgStore.tokens
    rw [htokens, of_bucket_snoc]
    by_cases hb : b = bucketOf (timestamp m.header)
    · rw [if_pos hb, if_pos hb.symm, places_snoc, fill_snoc, Nat.zero_add, ← hs.files,
        ← hs.tokens]
      subst hb
      unfold insertNew
      rw [if_neg (AList.lookup_eq_none.mp hnew)]
      rfl
    · rw [if_neg hb, if_neg (Ne.symm hb)]
      exact hs.tokens b
  · intro b
    rw [hfiles, of_bucket_snoc]
    by_cases hb : b = bucketOf (timestamp m.header)
    · rw [if_pos hb, if_pos hb.symm]
      simp
    · rw [if_neg hb, if_neg (Ne.symm hb)]
      exact hs.file b
  · intro b
    have hmap := congrArg Option.isSome (htokens b)
    rw [Option.isSome_map] at hmap
    rw [hmap, of_bucket_snoc]
    by_cases hb : b = bucketOf (timestamp m.header)
    · rw [if_pos hb, if_pos hb.symm]
      simp
    · rw [if_neg hb, if_neg (Ne.symm hb), Option.isSome_map]
      exact hs.bucket b
  · intro x hx
    rcases List.mem_append.mp hx with hx | hx
    · exact hs.sampled x hx
    · rw [List.mem_singleton] at hx
      rw [hx]
      exact ⟨hlen,hsize⟩
  · rw [List.map_append, List.map_singleton]
    exact List.nodup_append.mpr ⟨hs.distinct,List.nodup_singleton _,fun a ha b hb => by
      rw [List.mem_singleton] at hb
      rintro rfl
      exact hfresh (hb ▸ ha)⟩

theorem call_stored {c : Call W} {n : ℕ} (bkt : SecMsgBucket) (hn : c.message.bytes.length ≤ n) :
    appendMessage W c.now (.written n) c.message c.fUpdateBucket bkt s =
      (0,⟨s.files.insert (bucketOf (timestamp c.message.header))
          (s.file (bucketOf (timestamp c.message.header))++c.message.bytes),
        s.smsgBuckets.insert (bucketOf (timestamp c.message.header))
          (if c.fUpdateBucket then hashBucket W c.now { bkt with
            setTokens := bkt.setTokens.insert (tokenOf c.message)
              (s.file (bucketOf (timestamp c.message.header))).length }
          else { bkt with
            setTokens := bkt.setTokens.insert (tokenOf c.message)
              (s.file (bucketOf (timestamp c.message.header))).length })⟩) := by
  unfold appendMessage
  dsimp only
  rw [if_neg (by omega), List.take_of_length_le hn]

theorem call_holds {c : Call W} {x : MsgStore × List Message} (hx : Holds x.2 x.1)
    (hok : storeOk W x.1 c = true) : Holds (call W c x).2 (call W c x).1 := by
  obtain ⟨s,ms⟩ := x
  dsimp only at hx hok
  unfold call secureMsgStore
  dsimp only
  by_cases hdir : c.io.noDir = true
  · rw [if_pos hdir]
    exact hx
  · rw [if_neg hdir]
    by_cases htime : (!inTime c.now (timestamp c.message.header)) = true
    · rw [if_pos htime]
      exact hx
    · rw [if_neg htime, tokens_default]
      by_cases hknown : ((s.tokens (bucketOf (timestamp c.message.header))).lookup
          (tokenOf c.message)).isSome = true
      · rw [if_pos hknown, default_known hknown]
        exact hx
      · rw [if_neg hknown]
        unfold storeOk at hok
        rw [Bool.not_eq_true] at hdir htime hknown
        rw [hdir, htime, hknown, Bool.false_or, Bool.false_or, Bool.false_or,
          Bool.and_eq_true, decide_eq_true_eq] at hok
        obtain ⟨hlen,hio⟩ := hok
        cases hw : c.io with
        | noDirectory | notOpened | notSought =>
          rw [hw] at hio
          cases hio
        | written n =>
          rw [hw] at hio
          rw [call_stored W _ _ (of_decide_eq_true hio)]
          dsimp only
          rw [if_pos rfl]
          refine holds_append ms s _ hx c.message hlen (valid_length W c.valid)
            (Option.not_isSome_iff_eq_none.mp (by rw [hknown]; decide)) ?_ ?_
          · intro b
            rw [lookup_insert_if]
            by_cases hb : b = bucketOf (timestamp c.message.header)
            · subst hb
              rfl
            · rw [if_neg hb, if_neg hb]
          · intro b
            rw [lookup_default]
            by_cases hb : b = bucketOf (timestamp c.message.header)
            · subst hb
              rw [if_pos rfl, if_pos rfl, ← tokens_default]
              cases c.fUpdateBucket <;> rfl
            · rw [if_neg hb, if_neg hb]

end Store

section Rebuild
variable (W : MsgEnv)

theorem load_lookup {now : ℤ} {xs : List (Sigma fun _ : ℤ => List UInt8)}
    (hd : (xs.map Sigma.fst).Nodup) (hnow : ∀ x ∈ xs, now-smsgRetention ≤ x.1) {s : MsgStore}
    (hs : ∀ x ∈ xs, s.smsgBuckets.lookup x.1 = none) (b : ℤ) :
    ((loadFiles W now xs s).smsgBuckets.lookup b).map SecMsgBucket.setTokens =
      match xs.find? fun x => x.1 = b with
      | some x => some (scanFile x.2.length 0 x.2 ∅)
      | none => (s.smsgBuckets.lookup b).map SecMsgBucket.setTokens := by
  induction xs generalizing s with
  | nil => rfl
  | cons x xs ih =>
    rw [List.map_cons, List.nodup_cons] at hd
    have hload : loadFile W now x.1 x.2 s = { s with
        smsgBuckets := s.smsgBuckets.insert x.1 (hashBucket W now
          { SecMsgBucket.start with setTokens := scanFile x.2.length 0 x.2 ∅ }) } := by
      unfold loadFile getDefault
      have hx := hnow x List.mem_cons_self
      rw [if_neg (by omega), hs x List.mem_cons_self]
      rfl
    rw [loadFiles, hload, ih hd.2 (fun y hy => hnow y (List.mem_cons_of_mem x hy))]
    · by_cases hb : x.1 = b
      · have hnone : xs.find? (fun y => y.1 = b) = none := by
          rw [List.find?_eq_none]
          intro y hy hyb
          exact hd.1 (hb ▸ (of_decide_eq_true hyb) ▸ List.mem_map_of_mem hy)
        have hsome : (x::xs).find? (fun y => y.1 = b) = some x := by
          rw [List.find?_cons, decide_eq_true hb]
        rw [hnone, hsome]
        dsimp only
        rw [lookup_insert_if, if_pos hb.symm]
        rfl
      · have hskip : (x::xs).find? (fun y => y.1 = b) = xs.find? (fun y => y.1 = b) := by
          rw [List.find?_cons, decide_eq_false hb]
        rw [hskip]
        cases xs.find? (fun y => y.1 = b) with
        | some y => rfl
        | none =>
          dsimp only
          rw [lookup_insert_if, if_neg (Ne.symm hb)]
    · intro y hy
      dsimp only
      rw [lookup_insert_if, if_neg]
      · exact hs y (List.mem_cons_of_mem x hy)
      · intro heq
        exact hd.1 (heq ▸ List.mem_map_of_mem hy)

theorem rebuild_holds {ms : List Message} {s : MsgStore} (hs : Holds ms s) {now : ℤ}
    (hnow : ∀ b ∈ s.files, now-smsgRetention ≤ b) (b : ℤ) :
    ((secureMsgBuildBucketSet W now s.files).smsgBuckets.lookup b).map SecMsgBucket.setTokens =
      (s.smsgBuckets.lookup b).map SecMsgBucket.setTokens := by
  unfold secureMsgBuildBucketSet
  rw [load_lookup W s.files.nodupKeys
    (fun x hx => hnow x.1 (AList.mem_keys.mpr (List.mem_map_of_mem hx))) (fun _ _ => rfl),
    find_entry]
  have hfile := hs.file b
  have hbucket := hs.bucket b
  have htokens := hs.tokens b
  have hdata := hs.files b
  unfold MsgStore.file at hdata
  unfold MsgStore.tokens at htokens
  cases hf : s.files.lookup b with
  | none =>
    rw [hf] at hfile
    have hnil : ofBucket b ms = [] := by
      by_contra hne
      exact absurd (hfile.mpr hne) (by decide)
    cases hbkt : s.smsgBuckets.lookup b with
    | none => rfl
    | some bkt =>
      rw [hbkt] at hbucket
      exact absurd hnil (hbucket.mp rfl)
  | some f =>
    rw [hf] at hfile hdata
    dsimp only [Option.getD_some] at hdata
    cases hbkt : s.smsgBuckets.lookup b with
    | none =>
      rw [hbkt] at hbucket
      exact absurd (hbucket.mpr (hfile.mp rfl)) (by decide)
    | some bkt =>
      rw [hbkt] at htokens
      have hsampled : ∀ m ∈ ofBucket b ms, 8 ≤ m.payload.length ∧ m.payload.length < 2^31 :=
        fun m hm => hs.sampled m (List.mem_filter.mp hm).1
      have hscan := scan_messages f.length 0 hsampled
        (by rw [hdata]) ∅
      rw [← hdata] at hscan
      rw [Option.map_some, Option.map_some]
      dsimp only
      rw [hscan, ← htokens]
      rfl

/-- What the store promises: stored messages are read back, a token stands for a stored message,
and a scan of the files gives the buckets of the memory, as long as none of them has expired. -/
structure Faithful (x : MsgStore × List Message) : Prop where
  stored : ∀ m ∈ x.2, ∃ ofs,
    (x.1.tokens (bucketOf (timestamp m.header))).lookup (tokenOf m) = some ofs ∧
    secureMsgRetrieve x.1 (tokenOf m) ofs = some (m.header++m.payload)
  token : ∀ b tok ofs, (x.1.tokens b).lookup tok = some ofs →
    ∃ m ∈ x.2, b = bucketOf (timestamp m.header) ∧ tok = tokenOf m ∧
      secureMsgRetrieve x.1 tok ofs = some (m.header++m.payload)
  rebuild : ∀ now, (∀ b ∈ x.1.files, now-smsgRetention ≤ b) → ∀ b,
    ((secureMsgBuildBucketSet W now x.1.files).smsgBuckets.lookup b).map SecMsgBucket.setTokens =
      (x.1.smsgBuckets.lookup b).map SecMsgBucket.setTokens

theorem retrieve_place {ms : List Message} {s : MsgStore} (hs : Holds ms s) {m : Message}
    {ofs : ℕ} (h : (ofs,m) ∈ places 0 (ofBucket (bucketOf (timestamp m.header)) ms)) :
    secureMsgRetrieve s (tokenOf m) ofs = some (m.header++m.payload) := by
  have hne : ofBucket (bucketOf (timestamp m.header)) ms ≠ [] := by
    intro hnil
    rw [hnil] at h
    cases h
  obtain ⟨f,hf⟩ := Option.isSome_iff_exists.mp ((hs.file _).mpr hne)
  have hdata := hs.files (bucketOf (timestamp m.header))
  unfold MsgStore.file at hdata
  rw [hf] at hdata
  unfold secureMsgRetrieve
  change (s.files.lookup (bucketOf (timestamp m.header))).bind _ = _
  rw [hf, Option.bind_some]
  have hread := read_place [] h
  rw [List.append_nil, ← hdata] at hread
  exact hread

theorem holds_faithful {x : MsgStore × List Message} (hx : Holds x.2 x.1) : Faithful W x := by
  refine ⟨?_,?_,fun now hnow b => rebuild_holds W hx hnow b⟩
  · intro m hm
    have hin : m ∈ ofBucket (bucketOf (timestamp m.header)) x.2 :=
      List.mem_filter.mpr ⟨hm,decide_eq_true rfl⟩
    obtain ⟨p,hp,hlook⟩ := fill_place ∅ (ofBucket (bucketOf (timestamp m.header)) x.2) 0
      (fun _ _ => rfl) (hx.distinct.sublist (List.filter_sublist.map tokenOf)) m hin
    rw [← hx.tokens] at hlook
    exact ⟨p,hlook,retrieve_place hx hp⟩
  · intro b tok ofs h
    rw [hx.tokens] at h
    rcases fill_lookup ∅ h with h | ⟨m,hm,rfl⟩
    · cases h
    · obtain ⟨before,after,hsplit,_⟩ := places_split 0 hm
      have hin : m ∈ ofBucket b x.2 := by
        rw [hsplit]
        exact List.mem_append_right before List.mem_cons_self
      obtain ⟨hmem,hb⟩ := List.mem_filter.mp hin
      have hb := of_decide_eq_true hb
      subst hb
      exact ⟨m,hmem,rfl,rfl,retrieve_place hx hm⟩

/-- Files and tokens stay together throughout a run whose calls meet the condition. -/
theorem message_store_faithful (cs : List (Call W))
    (hok : Along (call W) (fun x c => storeOk W x.1 c = true) cs (.start,[])) :
    Throughout (call W) (fun _ x => Faithful W x) cs (.start,[]) := by
  have hinv := throughout_of_along (call W) (fun x => Holds x.2 x.1)
    (fun c x hx hc => call_holds W hx hc) (.start,[])
    ⟨fun _ => rfl,fun _ => rfl,fun b => by simp [ofBucket, MsgStore.start],
      fun b => by simp [ofBucket, MsgStore.start],fun m hm => (by cases hm),List.nodup_nil⟩ hok
  exact fun pre hpre => holds_faithful W (hinv pre hpre)

end Rebuild

section Sample

def sampleMsgEnv : MsgEnv := ⟨fun _ _ => some (List.replicate 32 0),fun xs => xs.sum,false⟩

def sampleMessage (ts : UInt8) (payload : List UInt8) (h : payload.length < 256) : Message where
  header := List.replicate 4 0++[1,1,0]++[0,ts,0,0,0,0,0,0]++List.replicate 85 0++
    [UInt8.ofNat payload.length,0,0,0]
  payload := payload
  sized := rfl
  fits := by
    change payload.length = (UInt8.ofNat payload.length).toNat+256*(0+256*(0+256*(0+256*0)))
    rw [UInt8.toNat_ofNat_of_lt' h]
    rfl

def sampleCall (payload : List UInt8) (h : payload.length < 256)
    (hv : secureMsgValidate sampleMsgEnv (sampleMessage 8 payload h) = 0) : Call sampleMsgEnv :=
  ⟨2048,.written 200,sampleMessage 8 payload h,hv,true⟩

theorem message_store_faithful_sample : Throughout (call sampleMsgEnv)
    (fun _ x => Faithful sampleMsgEnv x)
    [sampleCall [1,2,3,4,5,6,7,8] (by decide) (by decide +kernel),
      sampleCall [1,2,3,4,5,6,7,9,10] (by decide) (by decide +kernel)] (.start,[]) :=
  message_store_faithful sampleMsgEnv _ (by decide +kernel)

/-- A payload of four bytes: the scan does not skip it. -/
theorem short_payload_lost : ¬ Throughout (call sampleMsgEnv)
    (fun _ x => Faithful sampleMsgEnv x)
    [sampleCall [1,2,3,4] (by decide) (by decide +kernel),
      sampleCall [1,2,3,4,5,6,7,8] (by decide) (by decide +kernel)] (.start,[]) := by
  intro h
  have hbucket := (throughout_last _ h).rebuild 2048 (by decide +kernel) 1800
  have hcount := congrArg (Option.map fun t => t.entries.length) hbucket
  revert hcount
  decide +kernel

end Sample

end SwippCore.MessageStore
