import SwippCore.Primitives
import SwippCore.Lib.PrefixCode

/-!
# Messages of the network

The header of a message, and how received bytes are cut into messages.
-/

set_option autoImplicit false

namespace SwippCore.Net
open PrefixCode

abbrev Bytes := List UInt8

def maxSize : ℕ := 0x02000000
def messageStartSize : ℕ := 4
def commandSize : ℕ := 12
def messageSizeOffset : ℕ := messageStartSize+commandSize
def checksumOffset : ℕ := messageSizeOffset+4
def headerSize : ℕ := messageStartSize+commandSize+4+4

structure NetEnv where
  messageStart : Bytes
  sized : messageStart.length = messageStartSize
  hash : Bytes → Uint256

structure CMessageHeader where
  pchMessageStart : Bytes
  pchCommand : Bytes
  nMessageSize : ℕ
  nChecksum : ℕ
  deriving DecidableEq

/-- `strncpy` into a buffer of zeros. -/
def strncpy (n : ℕ) (s : Bytes) : Bytes :=
  let t := (s.takeWhile fun b => b != 0).take n
  t++List.replicate (n-t.length) 0

variable (E : NetEnv)

def newHeader (pszCommand : Bytes) (nMessageSizeIn : ℕ) : CMessageHeader :=
  ⟨E.messageStart,strncpy commandSize pszCommand,nMessageSizeIn,0⟩

def CMessageHeader.serialize (h : CMessageHeader) : Bytes :=
  h.pchMessageStart++h.pchCommand++word 4 h.nMessageSize++word 4 h.nChecksum

def CMessageHeader.unserialize (hdrbuf : Bytes) : Option CMessageHeader :=
  if hdrbuf.length < headerSize then none
  else some {
    pchMessageStart := hdrbuf.take messageStartSize
    pchCommand := (hdrbuf.drop messageStartSize).take commandSize
    nMessageSize := SignMagnitude.value ((hdrbuf.drop messageSizeOffset).take 4)
    nChecksum := SignMagnitude.value ((hdrbuf.drop checksumOffset).take 4) }

def CMessageHeader.getCommand (h : CMessageHeader) : Bytes := h.pchCommand.takeWhile fun b => b != 0

def validCommand : Bytes → Bool
  | [] => true
  | b::bs => if b == 0 then bs.all fun b => b == 0 else 0x20 ≤ b && b ≤ 0x7e && validCommand bs

def CMessageHeader.isValid (h : CMessageHeader) : Bool :=
  h.pchMessageStart == E.messageStart && validCommand h.pchCommand && h.nMessageSize ≤ maxSize

/-- `memcpy` into a buffer. -/
def copyAt (offset : ℕ) (src dst : Bytes) : Bytes :=
  dst.take offset++src++dst.drop (offset+src.length)

section Sender

structure Sender where
  vSendMsg : List Bytes
  nSendSize : ℕ
  nSendOffset : ℕ

/-- The loop of `SocketSendData` with what the calls of `send` return, and the bytes that the
socket took; none where an assertion fails. -/
def sendLoop : List ℤ → List Bytes → Sender → Option (Sender × Bytes)
  | _, [], s => if s.nSendOffset = 0 ∧ s.nSendSize = 0 then some ({ s with vSendMsg := [] },[]) else none
  | sent, data::it, s =>
    if data.length ≤ s.nSendOffset then none
    else
      match sent with
      | [] => some ({ s with vSendMsg := data::it },[])
      | r::sent =>
        let nBytes := min r.toNat (data.length-s.nSendOffset)
        if 0 < nBytes then
          let taken := (data.drop s.nSendOffset).take nBytes
          if s.nSendOffset+nBytes = data.length then
            (sendLoop sent it { s with nSendOffset := 0, nSendSize := s.nSendSize-data.length }).map
              fun x => (x.1,taken++x.2)
          else some ({ s with vSendMsg := data::it, nSendOffset := s.nSendOffset+nBytes },taken)
        else some ({ s with vSendMsg := data::it },[])

def socketSendData (sent : List ℤ) (s : Sender) : Option (Sender × Bytes) := sendLoop sent s.vSendMsg s

/-- `EndMessage`: the size and the checksum are written into the header. -/
def endMessage (ssSend : Bytes) : Option Bytes :=
  let nSize := (ssSend.length-headerSize)%2^32
  let ssSend := copyAt messageSizeOffset (word 4 nSize) ssSend
  let nChecksum := (E.hash (ssSend.drop headerSize)).toNat%2^32
  if ssSend.length < checksumOffset+4 then none
  else some (copyAt checksumOffset (word 4 nChecksum) ssSend)

/-- `PushMessage`; a test option drops messages. -/
def pushMessage (pszCommand vPayload : Bytes) (fDropped : Bool) (sent : List ℤ) (s : Sender) :
    Option (Sender × Bytes) :=
  let ssSend := (newHeader E pszCommand 0).serialize++vPayload
  if fDropped then some (s,[])
  else
    match endMessage E ssSend with
    | none => none
    | some data =>
      let s' := { s with vSendMsg := s.vSendMsg++[data], nSendSize := s.nSendSize+data.length }
      if s.vSendMsg.isEmpty then socketSendData sent s' else some (s',[])

end Sender

section Receiver

structure CNetMessage where
  in_data : Bool
  hdrbuf : Bytes
  hdr : CMessageHeader
  nHdrPos : ℕ
  vRecv : Bytes
  nDataPos : ℕ

def newMessage : CNetMessage :=
  ⟨false,List.replicate headerSize 0,⟨E.messageStart,List.replicate commandSize 0,2^32-1,0⟩,0,[],0⟩

def CNetMessage.complete (m : CNetMessage) : Bool := m.in_data && m.hdr.nMessageSize == m.nDataPos

/-- `readHeader`, with the bytes that it handled. The stream of the header is empty once it was
read. -/
def CNetMessage.readHeader (pch : Bytes) (m : CNetMessage) : Option ℕ × CNetMessage :=
  let nCopy := min (headerSize-m.nHdrPos) pch.length
  let m := { m with hdrbuf := copyAt m.nHdrPos (pch.take nCopy) m.hdrbuf, nHdrPos := m.nHdrPos+nCopy }
  if m.nHdrPos < headerSize then (some nCopy,m)
  else
    match CMessageHeader.unserialize m.hdrbuf with
    | none => (none,m)
    | some hdr =>
      let m := { m with hdr := hdr, hdrbuf := [] }
      if maxSize < hdr.nMessageSize then (none,m) else (some nCopy,{ m with in_data := true })

def resize (n : ℕ) (v : Bytes) : Bytes := v.take n++List.replicate (n-v.length) 0

def CNetMessage.readData (pch : Bytes) (m : CNetMessage) : Option ℕ × CNetMessage :=
  let nCopy := min (m.hdr.nMessageSize-m.nDataPos) pch.length
  let vRecv :=
    if m.vRecv.length < m.nDataPos+nCopy then
      resize (min m.hdr.nMessageSize (m.nDataPos+nCopy+256*1024)) m.vRecv
    else m.vRecv
  (some nCopy,{ m with vRecv := copyAt m.nDataPos (pch.take nCopy) vRecv, nDataPos := m.nDataPos+nCopy })

def current (vRecvMsg : List CNetMessage) : List CNetMessage × CNetMessage :=
  match vRecvMsg.getLast? with
  | none => ([],newMessage E)
  | some m => if m.complete then (vRecvMsg,newMessage E) else (vRecvMsg.dropLast,m)

/-- The loop of `ReceiveMsgBytes`, which handles a byte at least in each turn. -/
def receiveLoop : ℕ → Bytes → List CNetMessage → Bool × List CNetMessage
  | 0, _, vRecvMsg => (true,vRecvMsg)
  | nTurns+1, pch, vRecvMsg =>
    if pch.isEmpty then (true,vRecvMsg)
    else
      let x := current E vRecvMsg
      match if !x.2.in_data then x.2.readHeader pch else x.2.readData pch with
      | (none,msg) => (false,x.1++[msg])
      | (some handled,msg) => receiveLoop nTurns (pch.drop handled) (x.1++[msg])

def receiveMsgBytes (pch : Bytes) (vRecvMsg : List CNetMessage) : Bool × List CNetMessage :=
  receiveLoop E pch.length pch vRecvMsg

inductive Checked where
  | invalidStart
  | invalid
  | valid (strCommand vPayload : Bytes)

def check (msg : CNetMessage) : Checked :=
  if msg.hdr.pchMessageStart ≠ E.messageStart then .invalidStart
  else if !msg.hdr.isValid E then .invalid
  else if (E.hash (msg.vRecv.take msg.hdr.nMessageSize)).toNat%2^32 ≠ msg.hdr.nChecksum then .invalid
  else .valid msg.hdr.getCommand msg.vRecv

/-- `ProcessMessages`: what goes to `ProcessMessage`, and the messages that are left. -/
def processMessages : List CNetMessage → Option (Bytes × Bytes) × List CNetMessage
  | [] => (none,[])
  | msg::it =>
    if !msg.complete then (none,msg::it)
    else
      match check E msg with
      | .invalidStart => (none,it)
      | .invalid => processMessages it
      | .valid strCommand vPayload => (some (strCommand,vPayload),it)

end Receiver

section Connection

structure Connection where
  sender : Sender
  /-- what the socket took and the receiver did not read yet -/
  transit : Bytes
  vRecvMsg : List CNetMessage
  processed : List (Bytes × Bytes)

def Connection.start : Connection := ⟨⟨[],0,0⟩,[],[],[]⟩

structure Message where
  command : Bytes
  short : command.length ≤ commandSize
  printable : ∀ b ∈ command, 0x20 ≤ b ∧ b ≤ 0x7e
  payload : Bytes
  sized : payload.length ≤ maxSize

inductive Event where
  | push (m : Message) (fDropped : Bool) (sent : List ℤ)
  | send (sent : List ℤ)
  /-- one call of `ReceiveMsgBytes` with the next bytes -/
  | receive (nBytes : ℕ)
  /-- `fBusy` where the node does not look at its messages -/
  | process (fBusy : Bool)

def step : Event → Connection → Option Connection
  | .push m fDropped sent, c =>
    (pushMessage E m.command m.payload fDropped sent c.sender).map fun x =>
      { c with sender := x.1, transit := c.transit++x.2 }
  | .send sent, c =>
    (socketSendData sent c.sender).map fun x => { c with sender := x.1, transit := c.transit++x.2 }
  | .receive nBytes, c =>
    let r := receiveMsgBytes E (c.transit.take nBytes) c.vRecvMsg
    if r.1 then some { c with transit := c.transit.drop nBytes, vRecvMsg := r.2 } else none
  | .process fBusy, c =>
    if fBusy then some c
    else
      let r := processMessages E c.vRecvMsg
      some { c with vRecvMsg := r.2, processed := c.processed++r.1.toList }

def run : List Event → Connection → Option Connection
  | [], c => some c
  | e::es, c => (step E e c).bind (run es)

def pushed : List Event → List Message
  | [] => []
  | .push m fDropped _::es => if fDropped then pushed es else m::pushed es
  | _::es => pushed es

end Connection

end SwippCore.Net

namespace SwippCore.Net
open PrefixCode

section Bytes

theorem copy_at_append (a b c src : Bytes) (h : src.length = b.length) :
    copyAt a.length src (a++(b++c)) = a++(src++c) := by
  unfold copyAt
  rw [List.take_left, h, List.append_assoc]
  have hdrop : (a++(b++c)).drop (a.length+b.length) = c := by
    rw [← List.append_assoc, ← List.length_append, List.drop_left]
  rw [hdrop]

theorem copy_at_length {n : ℕ} {src dst : Bytes} (h : n+src.length ≤ dst.length) :
    (copyAt n src dst).length = dst.length := by
  unfold copyAt
  simp only [List.length_append, List.length_take, List.length_drop]
  omega

theorem copy_at_take (n : ℕ) (src dst : Bytes) (h : n ≤ dst.length) :
    (copyAt n src dst).take (n+src.length) = dst.take n++src := by
  have hlen : n+src.length = (dst.take n++src).length := by
    rw [List.length_append, List.length_take, Nat.min_eq_left h]
  unfold copyAt
  rw [hlen, List.take_left]

theorem strncpy_length (n : ℕ) (s : Bytes) : (strncpy n s).length = n := by
  unfold strncpy
  simp only [List.length_append, List.length_take, List.length_replicate]
  omega

end Bytes

section Frames
variable (E : NetEnv)

def header (m : Message) : CMessageHeader where
  pchMessageStart := E.messageStart
  pchCommand := strncpy commandSize m.command
  nMessageSize := m.payload.length
  nChecksum := (E.hash m.payload).toNat%2^32

def frame (m : Message) : Bytes := (header E m).serialize++m.payload

theorem serialize_length {h : CMessageHeader} (hs : h.pchMessageStart.length = messageStartSize)
    (hc : h.pchCommand.length = commandSize) : h.serialize.length = headerSize := by
  unfold CMessageHeader.serialize
  rw [List.length_append, List.length_append, List.length_append, word_length, word_length, hs, hc]
  rfl

variable (m : Message)

theorem header_length : (header E m).serialize.length = headerSize :=
  serialize_length E.sized (strncpy_length _ _)

theorem frame_length : (frame E m).length = headerSize+m.payload.length := by
  unfold frame
  rw [List.length_append, header_length]

theorem frame_ne_nil : frame E m ≠ [] := by
  intro h
  have hlen := frame_length E m
  rw [h, List.length_nil] at hlen
  unfold headerSize at hlen
  omega

theorem payload_small : m.payload.length < 2^32 :=
  lt_of_le_of_lt m.sized (by decide)

theorem end_message :
    endMessage E ((newHeader E m.command 0).serialize++m.payload) = some (frame E m) := by
  have hstart : (E.messageStart++strncpy commandSize m.command).length = messageSizeOffset := by
    rw [List.length_append, E.sized, strncpy_length]
    rfl
  have hsplit : (newHeader E m.command 0).serialize++m.payload =
      (E.messageStart++strncpy commandSize m.command)++(word 4 0++(word 4 0++m.payload)) := by
    unfold newHeader CMessageHeader.serialize
    simp only [List.append_assoc]
  have hlen : ((newHeader E m.command 0).serialize++m.payload).length-headerSize = m.payload.length := by
    rw [List.length_append, serialize_length E.sized (strncpy_length _ _)]
    omega
  have hsize : copyAt messageSizeOffset (word 4 m.payload.length)
      ((newHeader E m.command 0).serialize++m.payload) =
      (E.messageStart++strncpy commandSize m.command++word 4 m.payload.length)++
        (word 4 0++m.payload) := by
    rw [hsplit, ← hstart, copy_at_append _ _ _ _ (by rw [word_length, word_length])]
    simp only [List.append_assoc]
  have hoffset : (E.messageStart++strncpy commandSize m.command++word 4 m.payload.length).length =
      checksumOffset := by
    rw [List.length_append, hstart, word_length]
    rfl
  have hpayload : ((E.messageStart++strncpy commandSize m.command++word 4 m.payload.length)++
      (word 4 0++m.payload)).drop headerSize = m.payload := by
    have hhead : headerSize = ((E.messageStart++strncpy commandSize m.command++
        word 4 m.payload.length)++word 4 0).length := by
      rw [List.length_append, hoffset, word_length]
      rfl
    rw [← List.append_assoc, hhead, List.drop_left]
  unfold endMessage
  dsimp only
  rw [hlen, Nat.mod_eq_of_lt (payload_small m), hsize, hpayload, if_neg]
  · rw [← hoffset, copy_at_append _ _ _ _ (by rw [word_length, word_length])]
    unfold frame header CMessageHeader.serialize
    simp only [List.append_assoc]
  · rw [List.length_append, hoffset, List.length_append, word_length]
    omega

theorem unserialize_header :
    CMessageHeader.unserialize (header E m).serialize = some (header E m) := by
  have hcommand := strncpy_length commandSize m.command
  have hstart := E.sized
  unfold CMessageHeader.unserialize
  rw [header_length, if_neg (lt_irrefl _)]
  have hform : (header E m).serialize = E.messageStart++(strncpy commandSize m.command++
      (word 4 m.payload.length++word 4 ((E.hash m.payload).toNat%2^32))) := by
    unfold header CMessageHeader.serialize
    simp only [List.append_assoc]
  have h4 : (header E m).serialize.drop messageStartSize = strncpy commandSize m.command++
      (word 4 m.payload.length++word 4 ((E.hash m.payload).toNat%2^32)) := by
    rw [hform, ← hstart, List.drop_left]
  have h16 : (header E m).serialize.drop messageSizeOffset =
      word 4 m.payload.length++word 4 ((E.hash m.payload).toNat%2^32) := by
    unfold messageSizeOffset
    rw [← List.drop_drop, h4, List.drop_left' hcommand]
  have h20 : (header E m).serialize.drop checksumOffset = word 4 ((E.hash m.payload).toNat%2^32) := by
    unfold checksumOffset
    rw [← List.drop_drop, h16]
    exact List.drop_left' (word_length 4 _)
  rw [h4, h16, h20, hform]
  have htake : (E.messageStart++(strncpy commandSize m.command++(word 4 m.payload.length++
      word 4 ((E.hash m.payload).toNat%2^32)))).take messageStartSize = E.messageStart :=
    List.take_left' hstart
  rw [htake, List.take_left' hcommand, List.take_left' (word_length 4 _),
    List.take_of_length_le (le_of_eq (word_length 4 _)), value_word _ _ (payload_small m),
    value_word 4 ((E.hash m.payload).toNat%2^32) (Nat.mod_lt _ (by decide))]
  rfl

end Frames

section Sending

/-- The entries of the queue are not empty, their sizes are counted, and the offset is inside
the first one. -/
structure SendOk (vSendMsg : List Bytes) (nSendSize nSendOffset : ℕ) : Prop where
  filled : ∀ data ∈ vSendMsg, data ≠ []
  size : nSendSize = (vSendMsg.map List.length).sum
  offset : nSendOffset < (vSendMsg.head?.map List.length).getD 1

theorem send_ok_empty {nSendSize nSendOffset : ℕ} (h : SendOk [] nSendSize nSendOffset) :
    nSendOffset = 0 ∧ nSendSize = 0 := ⟨Nat.lt_one_iff.mp h.offset,h.size⟩

theorem send_ok_tail {data : Bytes} {it : List Bytes} {nSendSize nSendOffset : ℕ}
    (h : SendOk (data::it) nSendSize nSendOffset) : SendOk it (nSendSize-data.length) 0 where
  filled d hd := h.filled d (List.mem_cons_of_mem data hd)
  size := by
    rw [h.size, List.map_cons, List.sum_cons]
    omega
  offset := by
    cases it with
    | nil => exact Nat.one_pos
    | cons d ds =>
      exact List.length_pos_iff.mpr (h.filled d (List.mem_cons_of_mem data List.mem_cons_self))

theorem send_loop_ok (sent : List ℤ) {it : List Bytes} (s : Sender)
    (h : SendOk it s.nSendSize s.nSendOffset) : ∃ s' taken, sendLoop sent it s = some (s',taken) ∧
      SendOk s'.vSendMsg s'.nSendSize s'.nSendOffset ∧
      it.flatten.drop s.nSendOffset = taken++s'.vSendMsg.flatten.drop s'.nSendOffset := by
  induction it generalizing sent s with
  | nil =>
    have hzero := send_ok_empty h
    refine ⟨{ s with vSendMsg := [] },[],?_,h,rfl⟩
    unfold sendLoop
    rw [if_pos hzero]
  | cons data it ih =>
    have hlt : s.nSendOffset < data.length := h.offset
    unfold sendLoop
    rw [if_neg (Nat.not_le.mpr hlt)]
    cases sent with
    | nil => exact ⟨_,[],rfl,h,rfl⟩
    | cons r sent =>
      dsimp only
      split
      · rename_i hpos
        have hmin : min r.toNat (data.length-s.nSendOffset) ≤ data.length-s.nSendOffset :=
          Nat.min_le_right _ _
        have hcut : ∀ n, n ≤ data.length-s.nSendOffset → (data++it.flatten).drop s.nSendOffset =
            (data.drop s.nSendOffset).take n++(data.drop (s.nSendOffset+n)++it.flatten) := by
          intro n _
          rw [List.drop_append_of_le_length hlt.le, ← List.append_assoc, ← List.drop_drop,
            List.take_append_drop]
        split
        · rename_i hfull
          have hall : s.nSendOffset+(data.length-s.nSendOffset) = data.length := by omega
          have hn : min r.toNat (data.length-s.nSendOffset) = data.length-s.nSendOffset := by omega
          obtain ⟨s',taken,hrun,hok,hbytes⟩ := ih sent
            { s with nSendOffset := 0, nSendSize := s.nSendSize-data.length } (send_ok_tail h)
          refine ⟨s',_,by rw [hrun, Option.map_some],hok,?_⟩
          rw [List.flatten_cons, hcut _ hmin, hn, hall, List.drop_length, List.nil_append,
            List.append_assoc, ← hbytes]
          rfl
        · rename_i hpart
          refine ⟨_,_,rfl,⟨h.filled,h.size,?_⟩,?_⟩
          · change s.nSendOffset+min r.toNat (data.length-s.nSendOffset) < data.length
            omega
          · have hle : s.nSendOffset+min r.toNat (data.length-s.nSendOffset) ≤ data.length := by omega
            rw [List.flatten_cons, hcut _ hmin, List.drop_append_of_le_length hle]
      · exact ⟨_,[],rfl,h,rfl⟩

def Sender.Ok (s : Sender) : Prop := SendOk s.vSendMsg s.nSendSize s.nSendOffset

def Sender.pending (s : Sender) : Bytes := s.vSendMsg.flatten.drop s.nSendOffset

theorem socket_send_ok (sent : List ℤ) {s : Sender} (h : s.Ok) : ∃ s' taken,
    socketSendData sent s = some (s',taken) ∧ s'.Ok ∧ s.pending = taken++s'.pending :=
  send_loop_ok sent s h

theorem send_ok_push {s : Sender} {data : Bytes} (h : s.Ok) (hne : data ≠ []) :
    Sender.Ok { s with vSendMsg := s.vSendMsg++[data], nSendSize := s.nSendSize+data.length } := by
  refine ⟨?_,?_,?_⟩
  · intro d hd
    rcases List.mem_append.mp hd with hd | hd
    · exact h.filled d hd
    · rw [List.mem_singleton.mp hd]
      exact hne
  · rw [h.size]
    simp
  · obtain ⟨_,_,hoffset⟩ := h
    cases hq : s.vSendMsg with
    | nil =>
      rw [hq] at hoffset
      have hzero : s.nSendOffset = 0 := Nat.lt_one_iff.mp hoffset
      rw [hzero]
      exact List.length_pos_iff.mpr hne
    | cons d ds =>
      rw [hq] at hoffset
      exact hoffset

variable (E : NetEnv)

theorem push_message_ok (m : Message) (sent : List ℤ) {s : Sender} (h : s.Ok) : ∃ s' taken,
    pushMessage E m.command m.payload false sent s = some (s',taken) ∧ s'.Ok ∧
      s.pending++frame E m = taken++s'.pending := by
  have hok := send_ok_push h (frame_ne_nil E m)
  have hpending : s.pending++frame E m = Sender.pending { s with
      vSendMsg := s.vSendMsg++[frame E m], nSendSize := s.nSendSize+(frame E m).length } := by
    unfold Sender.pending
    dsimp only
    have hle : s.nSendOffset ≤ s.vSendMsg.flatten.length := by
      obtain ⟨_,_,hoffset⟩ := h
      cases hq : s.vSendMsg with
      | nil =>
        rw [hq] at hoffset
        exact Nat.le_of_lt_succ hoffset
      | cons d ds =>
        rw [hq] at hoffset
        have hlt : s.nSendOffset < d.length := hoffset
        rw [List.flatten_cons, List.length_append]
        omega
    rw [List.flatten_append, List.flatten_singleton, List.drop_append_of_le_length hle]
  unfold pushMessage
  dsimp only
  rw [if_neg (by decide), end_message]
  dsimp only
  split
  · obtain ⟨s',taken,hrun,hok',hbytes⟩ := socket_send_ok sent hok
    exact ⟨s',taken,hrun,hok',hpending.trans hbytes⟩
  · exact ⟨_,[],rfl,hok,hpending⟩

end Sending

end SwippCore.Net
