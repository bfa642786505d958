import SwippCore.NetMessage

/-!
# Streams of messages

What is sent arrives, whatever the pieces it is received in.
-/

set_option autoImplicit false

namespace SwippCore.Net

section Absorbing
variable (E : NetEnv)

structure HoldsHeader (p : Bytes) (msg : CNetMessage) : Prop where
  short : p.length < headerSize
  in_data : msg.in_data = false
  pos : msg.nHdrPos = p.length
  sized : msg.hdrbuf.length = headerSize
  bytes : msg.hdrbuf.take p.length = p
  empty : msg.vRecv = []
  start : msg.nDataPos = 0

structure HoldsData (m : Message) (p : Bytes) (msg : CNetMessage) : Prop where
  long : headerSize ≤ p.length
  in_data : msg.in_data = true
  hdr : msg.hdr = header E m
  pos : msg.nDataPos = p.length-headerSize
  enough : msg.nDataPos ≤ msg.vRecv.length
  bounded : msg.vRecv.length ≤ m.payload.length
  bytes : msg.vRecv.take msg.nDataPos = p.drop headerSize

def Holds (m : Message) (p : Bytes) (msg : CNetMessage) : Prop := HoldsHeader p msg ∨ HoldsData E m p msg

theorem holds_new (m : Message) : Holds E m [] (newMessage E) :=
  Or.inl ⟨by decide,rfl,rfl,List.length_replicate,rfl,rfl,rfl⟩

theorem header_short (m : Message) : headerSize ≤ (frame E m).length := by
  rw [frame_length]
  omega

variable {m : Message} {p : Bytes} {msg : CNetMessage}

theorem complete_iff (h : Holds E m p msg) :
    msg.complete = true ↔ p.length = (frame E m).length := by
  unfold CNetMessage.complete
  rcases h with h | h
  · have hlong := header_short E m
    have hshort := h.short
    rw [h.in_data]
    constructor
    · intro hfalse
      cases hfalse
    · intro heq
      omega
  · have hlong := h.long
    rw [h.in_data, h.hdr, h.pos, frame_length, Bool.true_and, beq_iff_eq]
    change m.payload.length = _ ↔ _
    omega

theorem take_frame {more pch : Bytes} {n : ℕ} (hp : p++pch <+: frame E m++more)
    (hn : n ≤ pch.length) (hlen : p.length+n ≤ (frame E m).length) :
    p++pch.take n = (frame E m).take (p.length+n) := by
  obtain ⟨rest,hrest⟩ := hp
  have hstream : (p++pch).take (p.length+n) = (frame E m).take (p.length+n) := by
    have hlong : p.length+n ≤ (p++pch).length := by
      rw [List.length_append]
      omega
    have hleft : (p++pch++rest).take (p.length+n) = (p++pch).take (p.length+n) :=
      List.take_append_of_le_length hlong
    have hright : (frame E m++more).take (p.length+n) = (frame E m).take (p.length+n) :=
      List.take_append_of_le_length hlen
    rw [← hleft, hrest, hright]
  rw [← hstream, List.take_length_add_append]

theorem read_header_holds {more pch : Bytes} (h : HoldsHeader p msg)
    (hp : p++pch <+: frame E m++more) (hne : pch ≠ []) :
    ∃ n msg', msg.readHeader pch = (some n,msg') ∧ 0 < n ∧ n ≤ pch.length ∧
      p.length+n ≤ (frame E m).length ∧ Holds E m (p++pch.take n) msg' := by
  have hpos := List.length_pos_iff.mpr hne
  have hshort := h.short
  have hlong := header_short E m
  have hsized := h.sized
  have hn : min (headerSize-p.length) pch.length ≤ pch.length := Nat.min_le_right _ _
  generalize hdef : min (headerSize-p.length) pch.length = n at hn
  have htaken : (pch.take n).length = n := by rw [List.length_take, Nat.min_eq_left hn]
  have hbuf : (copyAt p.length (pch.take n) msg.hdrbuf).take (p.length+n) = p++pch.take n := by
    have hcopy := copy_at_take p.length (pch.take n) msg.hdrbuf (by omega)
    rw [htaken, h.bytes] at hcopy
    exact hcopy
  have hbuflen : (copyAt p.length (pch.take n) msg.hdrbuf).length = headerSize := by
    rw [copy_at_length (by omega), hsized]
  unfold CNetMessage.readHeader
  dsimp only
  rw [h.pos, hdef]
  by_cases hlt : p.length+n < headerSize
  · refine ⟨n,_,if_pos hlt,by omega,hn,by omega,Or.inl ?_⟩
    have hp' : (p++pch.take n).length = p.length+n := by rw [List.length_append, htaken]
    exact ⟨by omega,h.in_data,hp'.symm,hbuflen,by rw [hp']; exact hbuf,h.empty,h.start⟩
  · have hfull : p.length+n = headerSize := by omega
    have hheader : copyAt p.length (pch.take n) msg.hdrbuf = (header E m).serialize := by
      rw [← List.take_of_length_le (le_of_eq hbuflen), ← hfull, hbuf,
        take_frame E hp hn (by omega), hfull]
      exact List.take_left' (header_length E m)
    rw [if_neg hlt, hheader, unserialize_header]
    dsimp only
    have hsmall : ¬ maxSize < (header E m).nMessageSize := Nat.not_lt.mpr m.sized
    rw [if_neg hsmall]
    refine ⟨n,_,rfl,by omega,hn,by omega,Or.inr ?_⟩
    have hp' : (p++pch.take n).length = headerSize := by rw [List.length_append, htaken, hfull]
    refine ⟨le_of_eq hp'.symm,rfl,rfl,?_,?_,?_,?_⟩
    · change msg.nDataPos = _
      rw [h.start, hp', Nat.sub_self]
    · change msg.nDataPos ≤ _
      rw [h.start]
      exact Nat.zero_le _
    · change msg.vRecv.length ≤ _
      rw [h.empty]
      exact Nat.zero_le _
    · change msg.vRecv.take _ = _
      rw [h.empty, List.take_nil, List.drop_of_length_le (le_of_eq hp')]

theorem resize_length (n : ℕ) (v : Bytes) : (resize n v).length = n := by
  unfold resize
  simp only [List.length_append, List.length_take, List.length_replicate]
  omega

theorem resize_take {n k : ℕ} {v : Bytes} (hk : k ≤ v.length) (hn : v.length ≤ n) :
    (resize n v).take k = v.take k := by
  unfold resize
  rw [List.take_of_length_le hn, List.take_append_of_le_length hk]

theorem read_data_holds {pch : Bytes} (h : HoldsData E m p msg) (hne : pch ≠ [])
    (hlt : p.length < (frame E m).length) :
    ∃ n msg', msg.readData pch = (some n,msg') ∧ 0 < n ∧ n ≤ pch.length ∧
      p.length+n ≤ (frame E m).length ∧ Holds E m (p++pch.take n) msg' := by
  have hpos := List.length_pos_iff.mpr hne
  have hlong := h.long
  have hlen := frame_length E m
  have hdata := h.pos
  have henough := h.enough
  have hbounded := h.bounded
  have hsize : msg.hdr.nMessageSize = m.payload.length := by
    rw [h.hdr]
    rfl
  have hn : min (m.payload.length-msg.nDataPos) pch.length ≤ pch.length := Nat.min_le_right _ _
  generalize hdef : min (m.payload.length-msg.nDataPos) pch.length = n at hn
  have htaken : (pch.take n).length = n := by rw [List.length_take, Nat.min_eq_left hn]
  obtain ⟨vRecv,hv,hvenough,hvbounded,hvbytes⟩ : ∃ vRecv : Bytes,
      (if msg.vRecv.length < msg.nDataPos+n then
        resize (min m.payload.length (msg.nDataPos+n+256*1024)) msg.vRecv else msg.vRecv) = vRecv ∧
      msg.nDataPos+n ≤ vRecv.length ∧ vRecv.length ≤ m.payload.length ∧
      vRecv.take msg.nDataPos = p.drop headerSize := by
    by_cases hgrow : msg.vRecv.length < msg.nDataPos+n
    · refine ⟨_,if_pos hgrow,?_,?_,?_⟩
      · rw [resize_length]
        omega
      · rw [resize_length]
        omega
      · rw [resize_take henough (by omega)]
        exact h.bytes
    · exact ⟨_,if_neg hgrow,by omega,hbounded,h.bytes⟩
  have hp' : (p++pch.take n).length = p.length+n := by rw [List.length_append, htaken]
  unfold CNetMessage.readData
  dsimp only
  rw [hsize, hdef, hv]
  refine ⟨n,_,rfl,by omega,hn,by omega,Or.inr ⟨by omega,h.in_data,h.hdr,?_,?_,?_,?_⟩⟩
  · change msg.nDataPos+n = _
    omega
  · change msg.nDataPos+n ≤ _
    rw [copy_at_length (by omega)]
    exact hvenough
  · rw [copy_at_length (by omega)]
    exact hvbounded
  · change (copyAt msg.nDataPos (pch.take n) vRecv).take (msg.nDataPos+n) = _
    have hcopy := copy_at_take msg.nDataPos (pch.take n) vRecv (by omega)
    rw [htaken, hvbytes] at hcopy
    rw [hcopy, List.drop_append_of_le_length hlong]

theorem absorb_holds {more pch : Bytes} (h : Holds E m p msg) (hp : p++pch <+: frame E m++more)
    (hne : pch ≠ []) (hlt : p.length < (frame E m).length) :
    ∃ n msg', (if !msg.in_data then msg.readHeader pch else msg.readData pch) = (some n,msg') ∧
      0 < n ∧ n ≤ pch.length ∧ p.length+n ≤ (frame E m).length ∧ Holds E m (p++pch.take n) msg' := by
  rcases h with h | h
  · rw [h.in_data, if_pos (by decide)]
    exact read_header_holds E h hp hne
  · rw [h.in_data, if_neg (by decide)]
    exact read_data_holds E h hne hlt

end Absorbing

section Receiving
variable (E : NetEnv)

def Full (m : Message) (msg : CNetMessage) : Prop := Holds E m (frame E m) msg

theorem full_complete {m : Message} {msg : CNetMessage} (h : Full E m msg) : msg.complete = true :=
  (complete_iff E h).mpr rfl

theorem full_all_complete {ms : List Message} {fulls : List CNetMessage}
    (h : List.Forall₂ (Full E) ms fulls) : ∀ msg ∈ fulls, msg.complete = true := by
  induction h with
  | nil => exact fun _ hmsg => by cases hmsg
  | @cons m msg ms fulls hfull _ ih =>
    intro x hx
    rcases List.mem_cons.mp hx with rfl | hx
    · exact full_complete E hfull
    · exact ih x hx

structure Receives (ms : List Message) (p : Bytes) (todo : List Message) (vRecvMsg : List CNetMessage) :
    Prop where
  split : ∃ fulls part, vRecvMsg = fulls++part ∧ List.Forall₂ (Full E) ms fulls ∧
    ((p = [] ∧ part = []) ∨ ∃ m rest msg, todo = m::rest ∧ part = [msg] ∧ Holds E m p msg ∧ p ≠ [] ∧
      p.length < (frame E m).length)

theorem receives_start (todo : List Message) : Receives E [] [] todo [] :=
  ⟨[],[],rfl,.nil,Or.inl ⟨rfl,rfl⟩⟩

theorem current_holds {ms : List Message} {p : Bytes} {m : Message} {rest : List Message}
    {vRecvMsg : List CNetMessage} (h : Receives E ms p (m::rest) vRecvMsg) :
    ∃ fulls msg, current E vRecvMsg = (fulls,msg) ∧ List.Forall₂ (Full E) ms fulls ∧ Holds E m p msg ∧
      p.length < (frame E m).length := by
  obtain ⟨fulls,part,rfl,hfulls,⟨rfl,rfl⟩ | ⟨m',rest',msg,htodo,rfl,hholds,hne,hlt⟩⟩ := h.split
  · have hpos : ([] : Bytes).length < (frame E m).length := List.length_pos_iff.mpr (frame_ne_nil E m)
    refine ⟨fulls,newMessage E,?_,hfulls,holds_new E m,hpos⟩
    unfold current
    rw [List.append_nil]
    cases hlast : fulls.getLast? with
    | none =>
      rw [List.getLast?_eq_none_iff.mp hlast]
    | some msg =>
      dsimp only
      rw [full_all_complete E hfulls msg (List.mem_of_getLast? hlast), if_pos rfl]
  · obtain ⟨rfl,rfl⟩ := List.cons.inj htodo
    refine ⟨fulls,msg,?_,hfulls,hholds,hlt⟩
    have hnot : msg.complete = false := by
      rw [Bool.eq_false_iff]
      intro hc
      have heq := (complete_iff E hholds).mp hc
      omega
    unfold current
    rw [List.getLast?_concat, List.dropLast_concat]
    dsimp only
    rw [hnot, if_neg (by decide)]

theorem receive_loop_ok {nTurns : ℕ} (pch : Bytes) (ms : List Message) (p : Bytes)
    (todo : List Message) {more : Bytes} (vRecvMsg : List CNetMessage)
    (hturns : pch.length ≤ nTurns) (h : Receives E ms p todo vRecvMsg)
    (hp : p++(pch++more) = todo.flatMap (frame E)) :
    ∃ ms' p' todo' v', receiveLoop E nTurns pch vRecvMsg = (true,v') ∧ Receives E ms' p' todo' v' ∧
      ms'++todo' = ms++todo ∧ p'++more = todo'.flatMap (frame E) := by
  induction nTurns generalizing pch ms p todo vRecvMsg with
  | zero =>
    obtain rfl := List.eq_nil_of_length_eq_zero (Nat.le_zero.mp hturns)
    exact ⟨ms,p,todo,vRecvMsg,rfl,h,rfl,hp⟩
  | succ nTurns ih =>
    unfold receiveLoop
    cases hpch : pch with
    | nil =>
      rw [hpch] at hp
      exact ⟨ms,p,todo,vRecvMsg,rfl,h,rfl,hp⟩
    | cons b bs =>
      rw [← hpch]
      have hne : pch ≠ [] := by
        rw [hpch]
        exact List.cons_ne_nil b bs
      have hnonempty : pch.isEmpty = false := List.isEmpty_eq_false_iff.mpr hne
      rw [hnonempty, if_neg (by decide)]
      cases todo with
      | nil =>
        exfalso
        have hlen := congrArg List.length hp
        rw [List.length_append, List.length_append] at hlen
        have hpos := List.length_pos_iff.mpr hne
        simp only [List.flatMap_nil, List.length_nil] at hlen
        omega
      | cons m rest =>
        obtain ⟨fulls,msg,hcurrent,hfulls,hholds,hlt⟩ := current_holds E h
        have hprefix : p++pch <+: frame E m++rest.flatMap (frame E) :=
          ⟨more,by rw [List.append_assoc, hp, List.flatMap_cons]⟩
        obtain ⟨n,msg',habsorb,hpos,hle,hin,hholds'⟩ :=
          absorb_holds E hholds hprefix hne hlt
        rw [hcurrent]
        dsimp only
        rw [habsorb]
        dsimp only
        have hp' : (p++pch.take n).length = p.length+n := by
          rw [List.length_append, List.length_take, Nat.min_eq_left hle]
        have hrest : p++pch.take n++(pch.drop n++more) = frame E m++rest.flatMap (frame E) := by
          rw [List.append_assoc, ← List.append_assoc (pch.take n), List.take_append_drop, hp]
          rfl
        have hturns' : (pch.drop n).length ≤ nTurns := by
          rw [List.length_drop]
          omega
        by_cases hdone : p.length+n = (frame E m).length
        · -- the message is complete
          have hframe : p++pch.take n = frame E m := by
            have htake := take_frame E hprefix hle hin
            rw [hdone, List.take_length] at htake
            exact htake
          rw [hframe] at hholds' hrest
          obtain ⟨ms',p',todo',v',hrun,hrec,hall,hmore⟩ := ih (pch.drop n) (ms++[m]) [] rest
            (fulls++[msg']) hturns' ⟨fulls++[msg'],[],(List.append_nil _).symm,
              List.rel_append hfulls (.cons hholds' .nil),Or.inl ⟨rfl,rfl⟩⟩ (List.append_cancel_left hrest)
          exact ⟨ms',p',todo',v',hrun,hrec,by rw [hall, List.append_assoc]; rfl,hmore⟩
        · have hnonnil : p++pch.take n ≠ [] := by
            intro hnil
            rw [hnil, List.length_nil] at hp'
            omega
          have hopen : (p++pch.take n).length < (frame E m).length := by
            rw [hp']
            omega
          exact ih (pch.drop n) ms (p++pch.take n) (m::rest) (fulls++[msg']) hturns' ⟨fulls,[msg'],rfl,
            hfulls,Or.inr ⟨m,rest,msg',rfl,rfl,hholds',hnonnil,hopen⟩⟩ hrest

end Receiving

section Processing
variable (E : NetEnv)

theorem strncpy_command (m : Message) :
    strncpy commandSize m.command = m.command++List.replicate (commandSize-m.command.length) 0 := by
  have hall : m.command.takeWhile (fun b => b != 0) = m.command := by
    rw [List.takeWhile_eq_self_iff]
    intro b hb
    have hle := (m.printable b hb).1
    rw [bne_iff_ne]
    rintro rfl
    exact absurd hle (by decide)
  unfold strncpy
  rw [hall, List.take_of_length_le m.short]

theorem valid_command {bs : Bytes} (n : ℕ) (h : ∀ b ∈ bs, 0x20 ≤ b ∧ b ≤ 0x7e) :
    validCommand (bs++List.replicate n 0) = true := by
  induction bs with
  | nil =>
    cases n with
    | zero => rfl
    | succ n =>
      rw [List.nil_append, List.replicate_succ]
      unfold validCommand
      rw [if_pos (by decide), List.all_eq_true]
      intro b hb
      rw [List.eq_of_mem_replicate hb]
      rfl
  | cons b bs ih =>
    obtain ⟨hlow,hhigh⟩ := h b List.mem_cons_self
    have hne : (b == 0) = false := by
      rw [beq_eq_false_iff_ne]
      rintro rfl
      exact absurd hlow (by decide)
    rw [List.cons_append]
    unfold validCommand
    rw [hne, if_neg (by decide), ih fun c hc => h c (List.mem_cons_of_mem b hc), decide_eq_true hlow,
      decide_eq_true hhigh]
    rfl

theorem get_command (m : Message) : (header E m).getCommand = m.command := by
  have hzeros : ∀ n, (List.replicate n (0 : UInt8)).takeWhile (fun b => b != 0) = [] := by
    intro n
    cases n with
    | zero => rfl
    | succ n => rfl
  unfold CMessageHeader.getCommand header
  dsimp only
  rw [strncpy_command, List.takeWhile_append_of_pos, hzeros, List.append_nil]
  intro b hb
  have hle := (m.printable b hb).1
  rw [bne_iff_ne]
  rintro rfl
  exact absurd hle (by decide)

theorem check_full {m : Message} {msg : CNetMessage} (h : Full E m msg) :
    check E msg = .valid m.command m.payload := by
  have hlen := frame_length E m
  rcases h with h | h
  · have hshort := h.short
    omega
  · have hpos := h.pos
    have hvlen : msg.vRecv.length = m.payload.length := by
      have h₁ := h.enough
      have h₂ := h.bounded
      omega
    have hv : msg.vRecv = m.payload := by
      have hbytes := h.bytes
      rw [hpos, hlen, Nat.add_sub_cancel_left, ← hvlen, List.take_length] at hbytes
      rw [hbytes]
      exact List.drop_left' (header_length E m)
    have hvalid : (header E m).isValid E = true := by
      unfold CMessageHeader.isValid header
      dsimp only
      rw [strncpy_command, valid_command _ m.printable, decide_eq_true m.sized, beq_self_eq_true]
      rfl
    have hsum : (E.hash (m.payload.take (header E m).nMessageSize)).toNat%2^32 = (header E m).nChecksum := by
      have htake : m.payload.take (header E m).nMessageSize = m.payload := List.take_length
      rw [htake]
      rfl
    have hstart : (header E m).pchMessageStart = E.messageStart := rfl
    unfold check
    rw [h.hdr, hv, hvalid, if_neg (not_not.mpr hstart), if_neg (by decide), if_neg (not_not.mpr hsum),
      get_command]

end Processing

end SwippCore.Net

namespace SwippCore.Net

section Draining
variable (E : NetEnv)

def Message.content (m : Message) : Bytes × Bytes := (m.command,m.payload)

variable {todo : List Message} {v : List CNetMessage}

theorem process_none {p : Bytes} (h : Receives E [] p todo v) : processMessages E v = (none,v) := by
  obtain ⟨fulls,part,rfl,hfulls,hpart⟩ := h.split
  obtain rfl : fulls = [] := by
    cases hfulls
    rfl
  rcases hpart with ⟨_,rfl⟩ | ⟨m,rest,msg,_,rfl,hholds,_,hlt⟩
  · rfl
  · have hnot : msg.complete = false := by
      rw [Bool.eq_false_iff]
      intro hc
      have heq := (complete_iff E hholds).mp hc
      omega
    rw [List.nil_append]
    unfold processMessages
    rw [hnot, Bool.not_false, if_pos rfl]

theorem process_first {m : Message} {ms : List Message} {p : Bytes}
    (h : Receives E (m::ms) p todo v) :
    ∃ v', processMessages E v = (some m.content,v') ∧ Receives E ms p todo v' := by
  obtain ⟨fulls,part,rfl,hfulls,hpart⟩ := h.split
  cases hfulls with
  | @cons _ msg _ fulls hfull hfulls =>
    refine ⟨fulls++part,?_,⟨fulls,part,rfl,hfulls,hpart⟩⟩
    rw [List.cons_append]
    unfold processMessages
    rw [full_complete E hfull, Bool.not_true, if_neg Bool.false_ne_true, check_full E hfull]
    rfl

theorem receives_shape {ms : List Message} {p : Bytes} (h : Receives E ms p todo v) :
    ∃ fulls part, v = fulls++part ∧ part.length ≤ 1 ∧
      (∀ msg ∈ fulls, msg.complete = true) ∧ (∀ msg ∈ part, msg.complete = false) ∧
      fulls.map (check E) = ms.map (fun m => .valid m.command m.payload) ∧
      (todo = [] → part = []) ∧ ∀ m ∈ todo.head?, p.length < (frame E m).length := by
  obtain ⟨fulls,part,rfl,hfulls,hpart⟩ := h.split
  have hcheck : fulls.map (check E) = ms.map (fun m => .valid m.command m.payload) := by
    clear h hpart
    induction hfulls with
    | nil => rfl
    | @cons m msg ms fulls hfull hfulls ih => rw [List.map_cons, List.map_cons, ih, check_full E hfull]
  have hcomplete := full_all_complete E hfulls
  rcases hpart with ⟨rfl,rfl⟩ | ⟨m,rest,msg,rfl,rfl,hholds,hne,hlt⟩
  · refine ⟨fulls,[],rfl,Nat.zero_le 1,hcomplete,(fun _ hmsg => by cases hmsg),hcheck,(fun _ => rfl),?_⟩
    intro m _
    exact List.length_pos_iff.mpr (frame_ne_nil E m)
  · refine ⟨fulls,[msg],rfl,le_refl 1,hcomplete,?_,hcheck,(fun hnil => by cases hnil),?_⟩
    · intro x hx
      rw [List.mem_singleton.mp hx, Bool.eq_false_iff]
      intro hc
      have heq := (complete_iff E hholds).mp hc
      omega
    · intro m' hm'
      obtain rfl := Option.some.inj hm'
      exact hlt

end Draining

section Steps
variable (E : NetEnv)

structure Carries (ms : List Message) (c : Connection) (done inbox todo : List Message) (p : Bytes) :
    Prop where
  all : ms = done++(inbox++todo)
  processed : c.processed = done.map Message.content
  receives : Receives E inbox p todo c.vRecvMsg
  bytes : p++(c.transit++c.sender.pending) = todo.flatMap (frame E)
  sender : c.sender.Ok

def Faithful (ms : List Message) (c : Connection) : Prop :=
  ∃ done inbox todo p, Carries E ms c done inbox todo p

theorem faithful_start : Faithful E [] Connection.start :=
  ⟨[],[],[],[],rfl,rfl,receives_start E [],rfl,⟨(fun _ hd => by cases hd),rfl,Nat.one_pos⟩⟩

variable {ms : List Message}

theorem receives_more {p : Bytes} {todo : List Message} (m : Message) {v : List CNetMessage}
    (h : Receives E ms p todo v) : Receives E ms p (todo++[m]) v := by
  obtain ⟨fulls,part,hv,hfulls,hpart⟩ := h.split
  refine ⟨fulls,part,hv,hfulls,?_⟩
  rcases hpart with hnil | ⟨m',rest,msg,rfl,hrest⟩
  · exact Or.inl hnil
  · exact Or.inr ⟨m',rest++[m],msg,rfl,hrest⟩

theorem push_step (m : Message) (sent : List ℤ) (ms : List Message) (c : Connection)
    (h : Faithful E ms c) : ∃ c', step E (.push m false sent) c = some c' ∧ Faithful E (ms++[m]) c' := by
  obtain ⟨done,inbox,todo,p,hc⟩ := h
  obtain ⟨s',taken,hpush,hok,hbytes⟩ := push_message_ok E m sent hc.sender
  refine ⟨{ c with sender := s', transit := c.transit++taken },?_,done,inbox,todo++[m],p,?_⟩
  · change (pushMessage E m.command m.payload false sent c.sender).map _ = _
    rw [hpush]
    rfl
  · refine ⟨?_,hc.processed,receives_more E m hc.receives,?_,hok⟩
    · rw [hc.all, List.append_assoc, List.append_assoc]
    · change p++(c.transit++taken++s'.pending) = _
      rw [List.append_assoc, ← hbytes, List.flatMap_append, ← hc.bytes]
      simp only [List.append_assoc, List.flatMap_cons, List.flatMap_nil, List.append_nil]

variable {c : Connection}

theorem send_step (sent : List ℤ) (h : Faithful E ms c) :
    ∃ c', step E (.send sent) c = some c' ∧ Faithful E ms c' := by
  obtain ⟨done,inbox,todo,p,hc⟩ := h
  obtain ⟨s',taken,hsend,hok,hbytes⟩ := socket_send_ok sent hc.sender
  refine ⟨{ c with sender := s', transit := c.transit++taken },?_,done,inbox,todo,p,hc.all,hc.processed,
    hc.receives,?_,hok⟩
  · change (socketSendData sent c.sender).map _ = _
    rw [hsend]
    rfl
  · change p++(c.transit++taken++s'.pending) = _
    rw [List.append_assoc, ← hbytes, hc.bytes]

theorem receive_step (nBytes : ℕ) (h : Faithful E ms c) :
    ∃ c', step E (.receive nBytes) c = some c' ∧ Faithful E ms c' := by
  obtain ⟨done,inbox,todo,p,hc⟩ := h
  have hbytes : p++(c.transit.take nBytes++(c.transit.drop nBytes++c.sender.pending)) =
      todo.flatMap (frame E) := by
    rw [← List.append_assoc (c.transit.take nBytes), List.take_append_drop]
    exact hc.bytes
  obtain ⟨inbox',p',todo',v',hrun,hreceives,hall,hrest⟩ :=
    receive_loop_ok E (c.transit.take nBytes) inbox p todo c.vRecvMsg (le_refl _) hc.receives hbytes
  refine ⟨{ c with transit := c.transit.drop nBytes, vRecvMsg := v' },?_,done,inbox',todo',p',?_,
    hc.processed,hreceives,hrest,hc.sender⟩
  · unfold step receiveMsgBytes
    dsimp only
    rw [hrun, if_pos rfl]
  · rw [hc.all, hall]

theorem step_process (c : Connection) : step E (.process false) c = some { c with
    vRecvMsg := (processMessages E c.vRecvMsg).2,
    processed := c.processed++(processMessages E c.vRecvMsg).1.toList } := rfl

theorem process_step (fBusy : Bool) (h : Faithful E ms c) :
    ∃ c', step E (.process fBusy) c = some c' ∧ Faithful E ms c' := by
  obtain ⟨done,inbox,todo,p,hc⟩ := h
  cases fBusy with
  | true => exact ⟨c,rfl,done,inbox,todo,p,hc⟩
  | false =>
    rw [step_process]
    cases inbox with
    | nil =>
      rw [process_none E hc.receives]
      refine ⟨_,rfl,done,[],todo,p,hc.all,?_,hc.receives,hc.bytes,hc.sender⟩
      change c.processed++[] = _
      rw [List.append_nil, hc.processed]
    | cons m inbox =>
      obtain ⟨v',hrun,hreceives⟩ := process_first E hc.receives
      rw [hrun]
      refine ⟨_,rfl,done++[m],inbox,todo,p,?_,?_,hreceives,hc.bytes,hc.sender⟩
      · rw [hc.all, List.append_assoc]
        rfl
      · change c.processed++[m.content] = _
        rw [hc.processed, List.map_append]
        rfl

theorem step_faithful (e : Event) (h : Faithful E ms c) :
    ∃ c', step E e c = some c' ∧ Faithful E (ms++pushed [e]) c' := by
  cases e with
  | push m fDropped sent =>
    cases fDropped with
    | false => exact push_step E m sent ms c h
    | true =>
      refine ⟨c,?_,?_⟩
      · change some { c with transit := c.transit++[] } = some c
        rw [List.append_nil]
      · change Faithful E (ms++[]) c
        rw [List.append_nil]
        exact h
  | send sent =>
    change ∃ c', _ ∧ Faithful E (ms++[]) c'
    rw [List.append_nil]
    exact send_step E sent h
  | receive nBytes =>
    change ∃ c', _ ∧ Faithful E (ms++[]) c'
    rw [List.append_nil]
    exact receive_step E nBytes h
  | process fBusy =>
    change ∃ c', _ ∧ Faithful E (ms++[]) c'
    rw [List.append_nil]
    exact process_step E fBusy h

end Steps

section Runs
variable (E : NetEnv)

theorem pushed_cons (e : Event) (es : List Event) : pushed (e::es) = pushed [e]++pushed es := by
  cases e with
  | push m fDropped sent =>
    cases fDropped with
    | false => rfl
    | true => rfl
  | send sent => rfl
  | receive nBytes => rfl
  | process fBusy => rfl

theorem run_faithful (es : List Event) (ms : List Message) (c : Connection) (h : Faithful E ms c) :
    ∃ c', run E es c = some c' ∧ Faithful E (ms++pushed es) c' := by
  induction es generalizing ms c with
  | nil =>
    refine ⟨c,rfl,?_⟩
    change Faithful E (ms++[]) c
    rw [List.append_nil]
    exact h
  | cons e es ih =>
    obtain ⟨c₁,hstep,h₁⟩ := step_faithful E e h
    obtain ⟨c',hrun,h'⟩ := ih (ms++pushed [e]) c₁ h₁
    refine ⟨c',?_,?_⟩
    · unfold run
      rw [hstep, Option.bind_some]
      exact hrun
    · rw [pushed_cons, ← List.append_assoc]
      exact h'

def Sender.Counted (s : Sender) : Prop :=
  s.nSendSize = (s.vSendMsg.map List.length).sum ∧
    match s.vSendMsg with
    | [] => s.nSendOffset = 0
    | data::_ => s.nSendOffset < data.length

theorem counted_of_ok {s : Sender} (h : s.Ok) : s.Counted := by
  refine ⟨h.size,?_⟩
  have hoffset := h.offset
  cases hq : s.vSendMsg with
  | nil =>
    rw [hq] at hoffset
    exact Nat.lt_one_iff.mp hoffset
  | cons data it =>
    rw [hq] at hoffset
    exact hoffset

theorem drained (todo : List Message) (p : Bytes) (c : Connection)
    (hbytes : p++(c.transit++c.sender.pending) = todo.flatMap (frame E))
    (hlt : ∀ m ∈ todo.head?, p.length < (frame E m).length) (hsent : c.sender.vSendMsg = [])
    (hread : c.transit = []) : todo = [] := by
  have hpending : c.sender.pending = [] := by
    unfold Sender.pending
    rw [hsent, List.flatten_nil, List.drop_nil]
  rw [hread, hpending, List.append_nil, List.append_nil] at hbytes
  cases todo with
  | nil => rfl
  | cons m rest =>
    have hfirst := hlt m rfl
    rw [hbytes, List.flatMap_cons, List.length_append] at hfirst
    omega

/-- No assertion fails and the receiver does not give up. The receiver has processed the first
messages, has the next ones complete and valid and one incomplete message at most, and lacks
only those of which bytes are not sent or not read. -/
theorem framing_faithful (es : List Event) : ∃ c, run E es Connection.start = some c ∧
    c.sender.Counted ∧
    ∃ done inbox todo fulls part p, pushed es = done++(inbox++todo) ∧
      c.processed = done.map Message.content ∧ c.vRecvMsg = fulls++part ∧
      (∀ msg ∈ fulls, msg.complete = true) ∧
      fulls.map (check E) = inbox.map (fun m => .valid m.command m.payload) ∧
      part.length ≤ 1 ∧ (∀ msg ∈ part, msg.complete = false) ∧
      p++(c.transit++c.sender.pending) = todo.flatMap (frame E) ∧
      (∀ m ∈ todo.head?, p.length < (frame E m).length) ∧
      (c.sender.vSendMsg = [] → c.transit = [] → todo = [] ∧ part = []) := by
  obtain ⟨c,hrun,done,inbox,todo,p,hc⟩ := run_faithful E es [] Connection.start (faithful_start E)
  obtain ⟨fulls,part,hv,hone,hfulls,hpart,hcheck,hnone,hlt⟩ :=
    receives_shape E hc.receives
  refine ⟨c,hrun,counted_of_ok hc.sender,done,inbox,todo,fulls,part,p,hc.all,hc.processed,hv,
    hfulls,hcheck,hone,hpart,hc.bytes,hlt,?_⟩
  intro hsent hread
  have htodo := drained E todo p c hc.bytes hlt hsent hread
  exact ⟨htodo,hnone htodo⟩

end Runs

end SwippCore.Net
