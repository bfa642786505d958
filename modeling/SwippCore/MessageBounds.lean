import SwippCore.SecureMessage

/-!
# The handlers stay inside the received vector

For each of the five messages the exact condition under which its handler neither reads
outside the vector nor uses an end iterator.
-/

set_option autoImplicit false

namespace SwippCore.MessageBounds
open Records SecureMessage MessageHandlers Guarded

section Buckets

theorem inv_safe (now ignoreUntil : ℤ) (data : List UInt8) (s : MsgStore) :
    Safe (receiveInv now ignoreUntil data s) := by
  unfold receiveInv
  split
  · exact safe_ok _
  · rename_i hlen
    split
    · exact safe_ok _
    · rw [safe_read_bind]
      refine ⟨by omega,?_⟩
      dsimp only
      split
      · exact safe_ok _
      · rename_i hmax
        have hbound : smsgRetention/smsgBucketLen+1 = 289 := by decide
        rw [hbound] at hmax
        split
        · exact safe_ok _
        · rw [safe_map, safe_loop _ _ _ _ _ _ _ (by omega)]
          omega

def nBuckets (data : List UInt8) : ℕ := leValue (data.take 4)

theorem show_safe (data : List UInt8) (s : MsgStore) :
    Safe (receiveShow data s) ↔
      data.length < 4 ∨ data.length < (4+nBuckets data*8)%2^32 ∨ 4+nBuckets data*8 ≤ data.length := by
  unfold receiveShow
  by_cases hlen : data.length < 4
  · rw [if_pos hlen]
    exact ⟨fun _ => Or.inl hlen,fun _ => safe_ok _⟩
  · rw [if_neg hlen, safe_read_bind, List.drop_zero]
    change _ ∧ Safe (if data.length < (4+nBuckets data*8)%2^32 then _ else _) ↔ _
    by_cases hmod : data.length < (4+nBuckets data*8)%2^32
    · rw [if_pos hmod]
      exact ⟨fun _ => Or.inr (Or.inl hmod),fun _ => ⟨by omega,safe_ok _⟩⟩
    · rw [if_neg hmod, safe_map]
      change _ ∧ Safe (loop _ data 8 (showBucket s) (nBuckets data) 4 []) ↔ _
      rw [safe_loop _ _ _ _ _ _ _ (by omega)]
      omega

theorem have_safe (now peer : ℤ) (data : List UInt8) (s : MsgStore) :
    Safe (receiveHave now peer data s) := by
  unfold receiveHave
  split
  · exact safe_ok _
  · rename_i hlen
    rw [safe_read_bind]
    refine ⟨by omega,?_⟩
    dsimp only
    split
    · exact safe_ok _
    · split
      · exact safe_ok _
      · split
        · exact safe_ok _
        · rw [safe_map, safe_loop _ _ _ _ _ _ _ (by omega)]
          omega

end Buckets

section Want
variable (W : MsgEnv)

def wantedFrom (data : List UInt8) : ℕ → ℕ → List SecMsgToken
  | 0, _ => []
  | k+1, ofs => readToken ((data.drop ofs).take 16)::wantedFrom data k (ofs+16)

def wanted (data : List UInt8) : List SecMsgToken := wantedFrom data ((data.length-8)/16) 8

def gather (s : MsgStore) (tokenSet : Tokens) : Bunch → List SecMsgToken → Bunch
  | x, [] => x
  | x, t::ts => gather s tokenSet
      (x.add ((tokenSet.lookup t).bind fun offset => secureMsgRetrieve s t offset)) ts

def FullBefore (s : MsgStore) (tokenSet : Tokens) (x : Bunch) (ts : List SecMsgToken) : Prop :=
  ∀ before t after, ts = before++t::after → tokenSet.lookup t = none →
    ∃ pre, pre <+: before ∧ pre ≠ [] ∧ (gather s tokenSet x pre).full = true

section
variable (s : MsgStore) {tokenSet : Tokens} (x : Bunch) {t : SecMsgToken} (ts : List SecMsgToken)

theorem full_before_none (h : tokenSet.lookup t = none) : ¬ FullBefore s tokenSet x (t::ts) := by
  intro hf
  obtain ⟨pre,hpre,hne,_⟩ := hf [] t ts rfl h
  exact hne (List.prefix_nil.mp hpre)

theorem full_before_some {offset : ℕ} (h : tokenSet.lookup t = some offset) :
    FullBefore s tokenSet x (t::ts) ↔
      (x.add (secureMsgRetrieve s t offset)).full = true ∨
        FullBefore s tokenSet (x.add (secureMsgRetrieve s t offset)) ts := by
  have hgather : ∀ pre, gather s tokenSet x (t::pre) =
      gather s tokenSet (x.add (secureMsgRetrieve s t offset)) pre := by
    intro pre
    rw [gather, h, Option.bind_some]
  constructor
  · intro hf
    by_cases hfull : (x.add (secureMsgRetrieve s t offset)).full = true
    · exact Or.inl hfull
    · right
      intro before u after hts hu
      obtain ⟨pre,hpre,hne,hpf⟩ := hf (t::before) u after (by rw [hts]; rfl) hu
      cases pre with
      | nil => exact absurd rfl hne
      | cons v pre =>
        obtain ⟨rfl,hrest⟩ := List.cons_prefix_cons.mp hpre
        rw [hgather] at hpf
        refine ⟨pre,hrest,?_,hpf⟩
        rintro rfl
        exact hfull hpf
  · intro hf before u after hts hu
    cases before with
    | nil =>
      obtain ⟨rfl,_⟩ := List.cons.inj hts
      rw [h] at hu
      cases hu
    | cons v before =>
      obtain ⟨rfl,hrest⟩ := List.cons.inj hts
      rcases hf with hfull | hf
      · exact ⟨[t],List.cons_prefix_cons.mpr ⟨rfl,List.nil_prefix⟩,by simp,by rwa [hgather]⟩
      · obtain ⟨pre,hpre,hne,hpf⟩ := hf before u after hrest hu
        exact ⟨t::pre,List.cons_prefix_cons.mpr ⟨rfl,hpre⟩,by simp,by rwa [hgather]⟩

end

theorem want_loop_safe (data : List UInt8) (s : MsgStore) (tokenSet : Tokens) (k ofs : ℕ)
    (hofs : ofs+16*k ≤ data.length) (x : Bunch) :
    Safe (wantLoop W data s tokenSet k ofs x) ↔
      W.fDebugSmsg = true ∨ FullBefore s tokenSet x (wantedFrom data k ofs) := by
  induction k generalizing ofs x with
  | zero =>
    refine ⟨fun _ => Or.inr ?_,fun _ => safe_ok x⟩
    intro before t after h _
    simp [wantedFrom] at h
  | succ k ih =>
    rw [Nat.mul_succ] at hofs
    unfold wantLoop
    rw [safe_read_bind, wantedFrom]
    have hread : ofs+16 ≤ data.length := by omega
    simp only [hread, true_and]
    cases hlook : tokenSet.lookup (readToken ((data.drop ofs).take 16)) with
    | none =>
      dsimp only
      by_cases hd : W.fDebugSmsg = true
      · rw [if_pos hd, ih (ofs+16) (by omega)]
        exact ⟨fun _ => Or.inl hd,fun _ => Or.inl hd⟩
      · rw [if_neg hd]
        refine ⟨fun h => absurd h (not_safe_error _),?_⟩
        rintro (h | h)
        · exact absurd h hd
        · exact absurd h (full_before_none s x _ hlook)
    | some offset =>
      dsimp only
      rw [full_before_some s x _ hlook]
      by_cases hfull :
          (x.add (secureMsgRetrieve s (readToken ((data.drop ofs).take 16)) offset)).full = true
      · rw [if_pos hfull]
        exact ⟨fun _ => Or.inr (Or.inl hfull),fun _ => safe_ok _⟩
      · rw [if_neg hfull, ih (ofs+16) (by omega)]
        tauto

/-- The bucket that is asked for is not there, or each token that is not in it comes after the
bunch is full. -/
def WantOk (data : List UInt8) (s : MsgStore) : Prop :=
  data.length < 8 ∨ W.fDebugSmsg = true ∨
    ∀ bkt, s.smsgBuckets.lookup (SecureMessage.int64 (data.take 8)) = some bkt →
      FullBefore s bkt.setTokens ⟨0,[]⟩ (wanted data)

theorem want_safe (data : List UInt8) (s : MsgStore) :
    Safe (receiveWant W data s) ↔ WantOk W data s := by
  unfold receiveWant WantOk
  by_cases hlen : data.length < 8
  · rw [if_pos hlen]
    exact ⟨fun _ => Or.inl hlen,fun _ => safe_ok _⟩
  · rw [if_neg hlen, safe_read_bind, List.drop_zero]
    have hread : 0+8 ≤ data.length := by omega
    simp only [hread, true_and, hlen, false_or]
    cases hbkt : s.smsgBuckets.lookup (SecureMessage.int64 (data.take 8)) with
    | none =>
      refine ⟨fun _ => Or.inr ?_,fun _ => safe_ok _⟩
      intro bkt h
      cases h
    | some bkt =>
      dsimp only
      rw [safe_map, want_loop_safe W data s bkt.setTokens _ 8 (by omega)]
      constructor
      · rintro (h | h)
        · exact Or.inl h
        · right
          intro b hb
          rw [← Option.some.inj hb]
          exact h
      · rintro (h | h)
        · exact Or.inl h
        · exact Or.inr (h bkt rfl)

end Want

section Msg
variable (W : MsgEnv) (R : Receiving)

/-- Messages that are valid and stored one after the other, in the rounds from `k` down; the
store that they leave. -/
def storesAll : ℕ → List Message → MsgStore → Option MsgStore
  | _, [], s => some s
  | 0, _::_, _ => none
  | k+1, m::ms, s =>
    if secureMsgValidate W m = 0 ∧ (secureMsgStore W R.now (R.io k) m false s).1 = 0 then
      storesAll k ms (secureMsgStore W R.now (R.io k) m false s).2
    else none

def CutOff (rest : List UInt8) : Prop :=
  smsgHdrLen ≤ rest.length ∧ headerRefused (rest.take smsgHdrLen) = false ∧
    rest.length < smsgHdrLen+nPayload (rest.take smsgHdrLen)

def CutSample (k : ℕ) (s : MsgStore) (rest : List UInt8) : Prop :=
  ∃ m after, rest = m.bytes++after ∧ secureMsgValidate W m = 0 ∧
    (secureMsgStore W R.now (R.io k) m false s).1 = 0 ∧ R.own m = true ∧
    m.payload.length+after.length < 8

def Overrun (k : ℕ) (rest : List UInt8) (s : MsgStore) : Prop :=
  ∃ ms tail s', rest = concat ms++tail ∧ storesAll W R k ms s = some s' ∧ ms.length < k ∧
    (CutOff tail ∨ CutSample W R (k-ms.length-1) s' tail)

variable {after data : List UInt8} {m : Message}

theorem read_message_ok {n : ℕ} (h : data.drop n = m.bytes++after) :
    readMessage data n = .ok m := by
  have hheader : (data.drop n).take smsgHdrLen = m.header := by rw [h, take_header]
  have hpayload : (data.drop (n+smsgHdrLen)).take (nPayload m.header) = m.payload := by
    rw [← List.drop_drop, h, drop_header]
    exact List.take_left' m.fits
  unfold readMessage
  dsimp only
  simp only [hheader, hpayload, m.sized, m.fits, and_self, dite_true]

theorem read_message_bad {n : ℕ} (hlen : smsgHdrLen ≤ (data.drop n).length)
    (h : (data.drop n).length < smsgHdrLen+nPayload ((data.drop n).take smsgHdrLen)) :
    readMessage data n = .error .outOfRange := by
  unfold readMessage
  dsimp only
  rw [dif_neg]
  rintro ⟨_,hp⟩
  rw [← List.drop_drop, List.length_take, List.length_drop] at hp
  omega

theorem message_at (rest : List UInt8)
    (h : smsgHdrLen+nPayload (rest.take smsgHdrLen) ≤ rest.length) :
    ∃ (m : Message) (after : List UInt8), rest = m.bytes++after ∧
      m.header = rest.take smsgHdrLen := by
  refine ⟨⟨rest.take smsgHdrLen,(rest.drop smsgHdrLen).take (nPayload (rest.take smsgHdrLen)),
    ?_,?_⟩,(rest.drop smsgHdrLen).drop (nPayload (rest.take smsgHdrLen)),?_,rfl⟩
  · rw [List.length_take]
    omega
  · rw [List.length_take, List.length_drop]
    omega
  · rw [Record.bytes, List.append_assoc, List.take_append_drop, List.take_append_drop]

theorem refused_invalid (h : headerRefused m.header = true) : secureMsgValidate W m ≠ 0 := by
  unfold headerRefused at h
  rw [Bool.or_eq_true, decide_eq_true_eq, decide_eq_true_eq] at h
  unfold secureMsgValidate
  rw [m.fits]
  by_cases hv : (version m.header).head? ≠ some 1
  · rw [if_pos hv]
    decide
  · rw [if_neg hv, if_pos (h.resolve_left hv)]
    decide

/-- Where the first message is not valid or not stored nothing behind it is reached. -/
theorem overrun_first {k : ℕ} (after : List UInt8) {s : MsgStore}
    (h : ¬ (secureMsgValidate W m = 0 ∧ (secureMsgStore W R.now (R.io k) m false s).1 = 0)) :
    ¬ Overrun W R (k+1) (m.bytes++after) s := by
  rintro ⟨ms,tail,s',hrest,hstores,_,hend⟩
  cases ms with
  | nil =>
    rw [concat, List.nil_append] at hrest
    rw [List.length_nil] at hend
    rcases hend with ⟨_,_,hcut⟩ | ⟨m',after',htail,hvalid,hstored,_⟩
    · rw [← hrest, take_header, List.length_append, m.length_bytes] at hcut
      omega
    · obtain ⟨rfl,_⟩ := bytes_inj (hrest.trans htail)
      cases hstores
      exact h ⟨hvalid,hstored⟩
  | cons m' ms =>
    rw [concat, List.append_assoc] at hrest
    obtain ⟨rfl,_⟩ := bytes_inj hrest
    unfold storesAll at hstores
    rw [if_neg h] at hstores
    cases hstores

theorem overrun_zero (rest : List UInt8) (s : MsgStore) : ¬ Overrun W R 0 rest s := by
  rintro ⟨ms,tail,s',_,_,hlt,_⟩
  exact absurd hlt (Nat.not_lt_zero _)

theorem overrun_invalid (k : ℕ) (after : List UInt8) (s : MsgStore)
    (h : secureMsgValidate W m ≠ 0) : ¬ Overrun W R k (m.bytes++after) s := by
  cases k with
  | zero => exact overrun_zero W R _ s
  | succ k => exact overrun_first W R after (fun hv => h hv.1)

/-- A message that is stored is passed, unless the sample of one of ours is cut off. -/
theorem overrun_stored {k : ℕ} (after : List UInt8) {s : MsgStore} (hv : secureMsgValidate W m = 0)
    (hs : (secureMsgStore W R.now (R.io k) m false s).1 = 0) :
    Overrun W R (k+1) (m.bytes++after) s ↔
      (R.own m = true ∧ m.payload.length+after.length < 8) ∨
        Overrun W R k after (secureMsgStore W R.now (R.io k) m false s).2 := by
  constructor
  · rintro ⟨ms,tail,s',hrest,hstores,hlt,hend⟩
    cases ms with
    | nil =>
      rw [concat, List.nil_append] at hrest
      cases hstores
      rcases hend with ⟨_,_,hcut⟩ | ⟨m',after',htail,_,_,hown,hshort⟩
      · rw [← hrest, take_header, List.length_append, m.length_bytes] at hcut
        omega
      · obtain ⟨rfl,rfl⟩ := bytes_inj (hrest.trans htail)
        exact Or.inl ⟨hown,hshort⟩
    | cons m' ms =>
      rw [concat, List.append_assoc] at hrest
      obtain ⟨rfl,rfl⟩ := bytes_inj hrest
      unfold storesAll at hstores
      rw [if_pos ⟨hv,hs⟩] at hstores
      rw [List.length_cons] at hlt hend
      refine Or.inr ⟨ms,tail,s',rfl,hstores,by omega,?_⟩
      have hround : k+1-(ms.length+1)-1 = k-ms.length-1 := by omega
      rwa [hround] at hend
  · rintro (⟨hown,hshort⟩ | ⟨ms,tail,s',hrest,hstores,hlt,hend⟩)
    · exact ⟨[],m.bytes++after,s,rfl,rfl,by simp,Or.inr ⟨m,after,rfl,hv,hs,hown,hshort⟩⟩
    · refine ⟨m::ms,tail,s',by rw [hrest, concat, List.append_assoc],?_,
        by rw [List.length_cons]; omega,?_⟩
      · unfold storesAll
        rw [if_pos ⟨hv,hs⟩]
        exact hstores
      · have hround : k+1-(ms.length+1)-1 = k-ms.length-1 := by omega
        rw [List.length_cons, hround]
        exact hend

theorem scan_bind {n : ℕ} (hn : n ≤ data.length) (h : data.drop n = m.bytes++after)
    (f : Unit → Except Fault (MsgStore × List (ℕ × ℕ))) :
    (scanMessage R data n m).bind f =
      if R.own m = true ∧ m.payload.length+after.length < 8 then .error .outOfRange else f () := by
  have hlen : data.length-n = smsgHdrLen+m.payload.length+after.length := by
    have hdrop := congrArg List.length h
    rw [List.length_drop, List.length_append, m.length_bytes, ← m.fits] at hdrop
    omega
  unfold scanMessage
  by_cases hown : R.own m = true
  · rw [if_pos hown]
    by_cases hread : n+smsgHdrLen+8 ≤ data.length
    · rw [read_ok _ _ hread, if_neg (fun hs => by omega)]
      rfl
    · rw [read_bad _ _ hread, if_pos ⟨hown,by omega⟩]
      rfl
  · rw [if_neg hown, if_neg (fun hs => hown hs.1)]
    rfl

theorem receive_loop_step (hmax : data.length ≤ maxSize) (k n : ℕ) (s : MsgStore)
    (hn : n ≤ data.length) (hm : data.drop n = m.bytes++after) :
    receiveLoop W R data (k+1) n s =
      if secureMsgValidate W m ≠ 0 then
        (receiveLoop W R data k n s).map (penalised (n,score (secureMsgValidate W m)))
      else if (secureMsgStore W R.now (R.io k) m false s).1 ≠ 0 then
        .ok ((secureMsgStore W R.now (R.io k) m false s).2,[])
      else (scanMessage R data n m).bind fun _ =>
        receiveLoop W R data k (n+m.bytes.length) (secureMsgStore W R.now (R.io k) m false s).2 := by
  have hlen : data.length-n = m.bytes.length+after.length := by
    rw [← List.length_drop, hm, List.length_append]
  have hbytes := m.length_bytes
  have hsize : maxSize < 2^32 := by decide
  have havail : (data.length+2^64-n)%2^64 = data.length-n := by omega
  have hheader : (data.drop n).take smsgHdrLen = m.header := by rw [hm, take_header]
  have hnext : (n+(smsgHdrLen+nPayload m.header))%2^32 = n+m.bytes.length := by
    rw [hbytes]
    exact Nat.mod_eq_of_lt (by omega)
  rw [receiveLoop, havail, if_neg (by omega), read_ok _ _ (by omega), hheader]
  change (if headerRefused m.header = true then _ else _) = _
  by_cases href : headerRefused m.header = true
  · have hv := refused_invalid W href
    have hscore : score (secureMsgValidate W m) = 1 := by
      unfold headerRefused at href
      rw [Bool.or_eq_true, decide_eq_true_eq, decide_eq_true_eq, ← m.fits] at href
      unfold secureMsgValidate
      by_cases hver : (version m.header).head? ≠ some 1
      · rw [if_pos hver]
        rfl
      · rw [if_neg hver, if_pos (href.resolve_left hver)]
        rfl
    rw [if_pos href, if_pos hv, hscore]
  · rw [if_neg href, read_message_ok hm]
    change (if secureMsgValidate W m ≠ 0 then _ else _) = _
    rw [hnext]

theorem overrun_short (k : ℕ) {rest : List UInt8} (s : MsgStore)
    (h : ¬ ∃ (m : Message) (after : List UInt8), rest = m.bytes++after) :
    Overrun W R (k+1) rest s ↔ CutOff rest := by
  constructor
  · rintro ⟨ms,tail,s',hrest,_,_,hend⟩
    cases ms with
    | nil =>
      rw [concat, List.nil_append] at hrest
      rcases hend with hcut | ⟨m,after,htail,_⟩
      · rw [hrest]
        exact hcut
      · exact absurd ⟨m,after,hrest.trans htail⟩ h
    | cons m ms =>
      rw [concat, List.append_assoc] at hrest
      exact absurd ⟨m,_,hrest⟩ h
  · intro hcut
    exact ⟨[],rest,s,rfl,rfl,Nat.succ_pos k,Or.inl hcut⟩

/-- The loop is safe exactly when the data does not stop short behind messages that are stored. -/
theorem receive_loop_safe (hmax : data.length ≤ maxSize) (k n : ℕ) (hn : n ≤ data.length)
    (s : MsgStore) : Safe (receiveLoop W R data k n s) ↔ ¬ Overrun W R k (data.drop n) s := by
  induction k generalizing n s with
  | zero => exact ⟨fun _ => overrun_zero W R _ s,fun _ => safe_ok _⟩
  | succ k ih =>
    have hdrop : (data.drop n).length = data.length-n := List.length_drop
    by_cases hwhole : ∃ (m : Message) (after : List UInt8), data.drop n = m.bytes++after
    · obtain ⟨m,after,hm⟩ := hwhole
      rw [receive_loop_step W R hmax k n s hn hm]
      by_cases hv : secureMsgValidate W m = 0
      · rw [if_neg (not_not.mpr hv)]
        by_cases hs : (secureMsgStore W R.now (R.io k) m false s).1 = 0
        · have hlen : data.length-n = m.bytes.length+after.length := by
            rw [← hdrop, hm, List.length_append]
          have hafter : data.drop (n+m.bytes.length) = after := by
            rw [← List.drop_drop, hm, List.drop_left]
          rw [if_neg (not_not.mpr hs), scan_bind R hn hm, hm,
            overrun_stored W R after hv hs, not_or]
          split
          · rename_i hcut
            exact ⟨fun h => absurd h (not_safe_error _),fun h => absurd hcut h.1⟩
          · rename_i hcut
            rw [ih _ (by omega), hafter]
            exact ⟨fun h => ⟨hcut,h⟩,fun h => h.2⟩
        · rw [if_pos hs, hm]
          exact ⟨fun _ => overrun_first W R after (fun h => hs h.2),fun _ => safe_ok _⟩
      · rw [if_pos hv, safe_map, ih n hn s, hm]
        exact ⟨fun _ => overrun_invalid W R (k+1) after s hv,
          fun _ => overrun_invalid W R k after s hv⟩
    · have hsize : maxSize < 2^32 := by decide
      have havail : (data.length+2^64-n)%2^64 = data.length-n := by omega
      rw [overrun_short W R k s hwhole, receiveLoop, havail]
      unfold CutOff
      by_cases hhdr : data.length-n < smsgHdrLen
      · rw [if_pos hhdr]
        exact ⟨fun _ h => by omega,fun _ => safe_ok _⟩
      · have hcut : (data.drop n).length < smsgHdrLen+nPayload ((data.drop n).take smsgHdrLen) := by
          by_contra hnot
          obtain ⟨m,after,hm,_⟩ := message_at (data.drop n) (by omega)
          exact hwhole ⟨m,after,hm⟩
        rw [if_neg hhdr, safe_read_bind]
        have hread : n+smsgHdrLen ≤ data.length := by omega
        simp only [hread, true_and]
        -- the payload is read unless the header is refused
        by_cases href : headerRefused ((data.drop n).take smsgHdrLen) = true
        · rw [if_pos href, safe_map, ih n hn s]
          refine ⟨fun _ h => by rw [href] at h; exact absurd h.2.1 (by decide),fun _ => ?_⟩
          cases k with
          | zero => exact overrun_zero W R _ s
          | succ k =>
            rw [overrun_short W R k s hwhole]
            rintro ⟨_,h,_⟩
            rw [href] at h
            cases h
        · rw [if_neg href, read_message_bad (by omega) hcut]
          rw [Bool.not_eq_true] at href
          exact ⟨fun h => absurd h (not_safe_error _),
            fun h => absurd ⟨by omega,href,hcut⟩ h⟩

def MsgOk (data : List UInt8) (s : MsgStore) : Prop :=
  data.length < 12 ∨ SecureMessage.int64 ((data.drop 4).take 8) > R.now+smsgTimeLeeway ∨
    SecureMessage.int64 ((data.drop 4).take 8) < R.now-smsgRetention ∨ leValue (data.take 4) = 0 ∨
    leValue (data.take 4) > 500 ∨ ¬ Overrun W R (leValue (data.take 4)) (data.drop 12) s

theorem msg_safe (hmax : data.length ≤ maxSize) (s : MsgStore) :
    Safe (secureMsgReceive W R data s) ↔ MsgOk W R data s := by
  unfold secureMsgReceive MsgOk
  by_cases hlen : data.length < 12
  · rw [if_pos hlen]
    exact ⟨fun _ => Or.inl hlen,fun _ => safe_ok _⟩
  · rw [if_neg hlen, safe_read_bind, List.drop_zero]
    have hread : 0+12 ≤ data.length := by omega
    have htime : (data.take 12).drop 4 = (data.drop 4).take 8 := List.drop_take
    have hcount : (data.take 12).take 4 = data.take 4 := by
      rw [List.take_take]
      rfl
    simp only [hread, hlen, true_and, false_or]
    rw [htime, hcount]
    by_cases hfuture : SecureMessage.int64 ((data.drop 4).take 8) > R.now+smsgTimeLeeway
    · rw [if_pos hfuture]
      exact ⟨fun _ => Or.inl hfuture,fun _ => safe_ok _⟩
    · rw [if_neg hfuture]
      by_cases hpast : SecureMessage.int64 ((data.drop 4).take 8) < R.now-smsgRetention
      · rw [if_pos hpast]
        exact ⟨fun _ => Or.inr (Or.inl hpast),fun _ => safe_ok _⟩
      · rw [if_neg hpast]
        by_cases hbunch : leValue (data.take 4) = 0 ∨ leValue (data.take 4) > 500
        · rw [if_pos hbunch]
          refine ⟨fun _ => ?_,fun _ => safe_ok _⟩
          tauto
        · rw [if_neg hbunch, safe_map, receive_loop_safe W R hmax _ 12 (by omega)]
          tauto

end Msg

section Data
variable (W : MsgEnv) (R : Receiving)

def dataOk (strCommand : Command) (vRecv : Received) (s : MsgStore) : Prop :=
  match strCommand with
  | .smsgInv => True
  | .smsgShow => vRecv.vchData.length < 4 ∨
      vRecv.vchData.length < (4+nBuckets vRecv.vchData*8)%2^32 ∨
      4+nBuckets vRecv.vchData*8 ≤ vRecv.vchData.length
  | .smsgHave => True
  | .smsgWant => WantOk W vRecv.vchData s
  | .smsgMsg => MsgOk W R vRecv.vchData s

/-- A handler stays inside the vector exactly under this condition. -/
theorem handlers_stay_inside (pfrom : Peer) (strCommand : Command) (vRecv : Received)
    (s : MsgStore) :
    Safe (secureMsgReceiveData W R pfrom strCommand vRecv s) ↔ dataOk W R strCommand vRecv s := by
  cases strCommand with
  | smsgInv => exact ⟨fun _ => trivial,fun _ => inv_safe R.now pfrom.ignoreUntil vRecv.vchData s⟩
  | smsgShow => exact show_safe vRecv.vchData s
  | smsgHave => exact ⟨fun _ => trivial,fun _ => have_safe R.now pfrom.id vRecv.vchData s⟩
  | smsgWant => exact want_safe W vRecv.vchData s
  | smsgMsg =>
    change Safe ((secureMsgReceive W R vRecv.vchData s).map _) ↔ _
    rw [safe_map]
    exact msg_safe W R vRecv.sized s

/-- Four bytes ask for 2^29 buckets, whose length is zero in 32 bits. -/
theorem show_reads_outside : ¬ ∀ (W : MsgEnv) (R : Receiving) (pfrom : Peer)
    (strCommand : Command) (vRecv : Received) (s : MsgStore),
    Safe (secureMsgReceiveData W R pfrom strCommand vRecv s) := by
  intro h
  have hshow := h ⟨fun _ _ => none,fun _ => 0,false⟩ ⟨0,fun _ => .noDirectory,fun _ => false⟩ ⟨0,0⟩
    .smsgShow ⟨[0,0,0,0x20],by decide⟩ .start
  have hlen := (show_safe [0,0,0,0x20] .start).mp hshow
  revert hlen
  decide +kernel

end Data

end SwippCore.MessageBounds
