import SwippCore.Lib.FinMap
import SwippCore.Lib.Records
import SwippCore.Lib.PrefixCode

/-!
# Secure messages

The buckets of messages and the handlers that read them.
-/

set_option autoImplicit false

namespace SwippCore.SecureMessage
open FinMap Records

def smsgHdrLen : ℕ := 104
def smsgBucketLen : ℤ := 600
def smsgRetention : ℤ := 172800
def smsgTimeLeeway : ℤ := 60

def lz4CompressBound (isize : ℕ) : ℕ := if isize > 0x7E000000 then 0 else isize+isize/255+16
def smsgMaxMsgWorst : ℕ := lz4CompressBound (4096+90)

section Header

def leValue (b : List UInt8) : ℕ := SignMagnitude.value b

def int64 (b : List UInt8) : ℤ := (BitVec.ofNat 64 (leValue b)).toInt

variable (header : List UInt8)

def hash : List UInt8 := header.take 4
def version : List UInt8 := (header.drop 4).take 2
def timestamp : ℤ := int64 ((header.drop 7).take 8)
def nonse : List UInt8 := (header.drop 96).take 4
def nPayload : ℕ := leValue ((header.drop 100).take 4)

end Header

abbrev Message := Record smsgHdrLen nPayload

structure MsgEnv where
  hmac : (key data : List UInt8) → Option (List UInt8)
  xxh32 : List ℕ → ℕ
  fDebugSmsg : Bool

/-- `SecureMsgValidate`; 0 is success. -/
def secureMsgValidate (W : MsgEnv) (m : Message) : ℕ :=
  if (version m.header).head? ≠ some 1 then 4
  else if m.payload.length > smsgMaxMsgWorst then 5
  else
    let civ := (List.replicate 8 (nonse m.header)).flatten
    match W.hmac civ (m.header.drop 4++m.payload++m.payload) with
    | none => 1
    | some sha256Hash =>
      if sha256Hash.length ≠ 32 then 1
      else if hash m.header ≠ sha256Hash.take 4 then 3
      else if sha256Hash[31]? = some 0 ∧ sha256Hash[30]? = some 0 ∧
          (sha256Hash[29]?).map (· &&& 1) = some 0 then 0
      else 2

/-- A token without its offset, which the order leaves out; the sample is the number that
`memcmp` compares. -/
structure SecMsgToken where
  timestamp : ℤ
  sample : ℕ
  deriving DecidableEq, Repr

def leToken (a b : SecMsgToken) : Bool :=
  a.timestamp < b.timestamp || (a.timestamp == b.timestamp && a.sample ≤ b.sample)

def sampleOf (p : List UInt8) : ℕ := leValue (p.take 8).reverse

def tokenOf (m : Message) : SecMsgToken where
  timestamp := timestamp m.header
  sample := if m.payload.length < 8 ∨ 2^31 ≤ m.payload.length then 0 else sampleOf m.payload

abbrev Tokens := Dict SecMsgToken ℕ

structure SecMsgBucket where
  timeChanged : ℤ
  hash : ℕ
  nLockCount : ℕ
  nLockPeerId : ℤ
  setTokens : Tokens

def SecMsgBucket.start : SecMsgBucket := ⟨0,0,0,0,∅⟩

def hashTokens (W : MsgEnv) (setTokens : Tokens) : ℕ :=
  W.xxh32 ((inOrder leToken setTokens).map fun x => x.1.sample)

def hashBucket (W : MsgEnv) (now : ℤ) (b : SecMsgBucket) : SecMsgBucket :=
  { b with timeChanged := now, hash := hashTokens W b.setTokens }

structure MsgStore where
  files : Dict ℤ (List UInt8)
  smsgBuckets : Dict ℤ SecMsgBucket

def MsgStore.start : MsgStore := ⟨∅,∅⟩

def MsgStore.file (s : MsgStore) (bucket : ℤ) : List UInt8 := (s.files.lookup bucket).getD []

def MsgStore.tokens (s : MsgStore) (bucket : ℤ) : Tokens :=
  ((s.smsgBuckets.lookup bucket).map SecMsgBucket.setTokens).getD ∅

def bucketOf (timestamp : ℤ) : ℤ := timestamp-timestamp.tmod smsgBucketLen

inductive StoreIo where
  | noDirectory
  | notOpened
  | notSought
  | written (n : ℕ)

def StoreIo.noDir : StoreIo → Bool
  | .noDirectory => true
  | _ => false

def inTime (now timestamp : ℤ) : Bool :=
  !(timestamp > now+smsgTimeLeeway) && !(timestamp < now-smsgRetention)

/-- The part of `SecureMsgStore` that appends to the file. -/
def appendMessage (W : MsgEnv) (now : ℤ) (io : StoreIo) (m : Message) (fUpdateBucket : Bool)
    (bkt : SecMsgBucket) (s : MsgStore) : ℕ × MsgStore :=
  let bucket := bucketOf (timestamp m.header)
  match io with
  | .noDirectory | .notOpened => (1,s)
  | .notSought => (1,{ s with files := s.files.insert bucket (s.file bucket) })
  | .written n =>
    let files := s.files.insert bucket (s.file bucket++m.bytes.take n)
    if n < m.bytes.length then (1,{ s with files := files })
    else
      let bkt := { bkt with setTokens := bkt.setTokens.insert (tokenOf m) (s.file bucket).length }
      let bkt := if fUpdateBucket then hashBucket W now bkt else bkt
      (0,⟨files,s.smsgBuckets.insert bucket bkt⟩)

/-- `SecureMsgStore`; 0 is success. -/
def secureMsgStore (W : MsgEnv) (now : ℤ) (io : StoreIo) (m : Message) (fUpdateBucket : Bool)
    (s : MsgStore) : ℕ × MsgStore :=
  if io.noDir then (1,s)
  else if !inTime now (timestamp m.header) then (1,s)
  else
    let r := getDefault s.smsgBuckets (bucketOf (timestamp m.header)) .start
    let s := { s with smsgBuckets := r.2 }
    if (r.1.setTokens.lookup (tokenOf m)).isSome then (1,s)
    else appendMessage W now io m fUpdateBucket r.1 s

def secureMsgRetrieve (s : MsgStore) (token : SecMsgToken) (offset : ℕ) : Option (List UInt8) :=
  (s.files.lookup (bucketOf token.timestamp)).bind fun file =>
    readAt smsgHdrLen nPayload file offset

/-- The loop of `SecureMsgBuildBucketSet` over one file; every round takes a header at least, so
that as many rounds as bytes are enough. -/
def scanFile : ℕ → ℕ → List UInt8 → Tokens → Tokens
  | 0, _, _, tokenSet => tokenSet
  | k+1, ofs, fp, tokenSet =>
    let header := fp.take smsgHdrLen
    let fp := fp.drop smsgHdrLen
    if header.length ≠ smsgHdrLen then tokenSet
    else if nPayload header < 8 then scanFile k (ofs+smsgHdrLen) fp tokenSet
    else if (fp.take 8).length ≠ 8 then tokenSet
    else scanFile k (ofs+(smsgHdrLen+nPayload header)) (fp.drop (nPayload header))
      (insertNew tokenSet ⟨timestamp header,sampleOf fp⟩ ofs)

def loadFile (W : MsgEnv) (now fileTime : ℤ) (fp : List UInt8) (s : MsgStore) : MsgStore :=
  if fileTime < now-smsgRetention then { s with files := s.files.erase fileTime }
  else
    let bkt := (getDefault s.smsgBuckets fileTime .start).1
    let bkt := { bkt with setTokens := scanFile fp.length 0 fp bkt.setTokens }
    { s with smsgBuckets := s.smsgBuckets.insert fileTime (hashBucket W now bkt) }

def loadFiles (W : MsgEnv) (now : ℤ) : List (Sigma fun _ : ℤ => List UInt8) → MsgStore → MsgStore
  | [], s => s
  | x::xs, s => loadFiles W now xs (loadFile W now x.1 x.2 s)

/-- `SecureMsgBuildBucketSet`, which starts without buckets. -/
def secureMsgBuildBucketSet (W : MsgEnv) (now : ℤ) (files : Dict ℤ (List UInt8)) : MsgStore :=
  loadFiles W now files.entries ⟨files,∅⟩

end SwippCore.SecureMessage

/-! ## What a peer sends -/

namespace SwippCore.MessageHandlers
open FinMap SecureMessage Guarded

inductive Fault where
  | outOfRange
  | endIterator
  deriving DecidableEq, Repr

def maxSize : ℕ := 0x02000000

structure Received where
  vchData : List UInt8
  sized : vchData.length ≤ maxSize

inductive Command where
  | smsgInv
  | smsgShow
  | smsgHave
  | smsgWant
  | smsgMsg
  deriving DecidableEq, Repr

inductive Answer where
  | smsgShow
  | smsgMatch
  | smsgHave
  | smsgWant
  | smsgMsg
  deriving DecidableEq, Repr

structure Reply where
  ret : Bool
  store : MsgStore
  misbehaving : List ℕ
  pushed : List (Answer × List UInt8)

def refuse (misbehaving : List ℕ) (s : MsgStore) : Reply := ⟨false,s,misbehaving,[]⟩

def bytes64 (n : ℤ) : List UInt8 := PrefixCode.word 8 (n%2^64).toNat

section Inv

structure InvState where
  store : MsgStore
  vchDataOut : List UInt8
  nShowBuckets : ℕ
  nLocked : ℕ
  misbehaving : List ℕ

def wantsBucket (b : SecMsgBucket) (ncontent hash : ℕ) : Bool :=
  b.setTokens.entries.length < ncontent ||
    (b.setTokens.entries.length == ncontent && b.hash != hash)

def invBucket (now : ℤ) (p : List UInt8) (x : InvState) : InvState :=
  let time := SecureMessage.int64 (p.take 8)
  let ncontent := leValue ((p.drop 8).take 4)
  let hash := leValue ((p.drop 12).take 4)
  if time < now-smsgRetention then
    if time < now-smsgRetention-smsgTimeLeeway then { x with misbehaving := x.misbehaving++[1] }
    else x
  else if time > now+smsgTimeLeeway then { x with misbehaving := x.misbehaving++[1] }
  else if ncontent < 1 then x
  else
    let r := getDefault x.store.smsgBuckets time .start
    let x := { x with store := { x.store with smsgBuckets := r.2 } }
    if r.1.nLockCount > 0 then { x with nLocked := x.nLocked+1 }
    else if wantsBucket r.1 ncontent hash then
      { x with vchDataOut := x.vchDataOut++p.take 8, nShowBuckets := x.nShowBuckets+1 }
    else x

def invReply (now : ℤ) (x : InvState) : Reply where
  ret := true
  store := x.store
  misbehaving := x.misbehaving
  pushed :=
    if 0 < x.vchDataOut.length then [(.smsgShow,PrefixCode.word 4 x.nShowBuckets++x.vchDataOut)]
    else if x.nLocked < 1 then [(.smsgMatch,bytes64 now)]
    else []

def receiveInv (now ignoreUntil : ℤ) (data : List UInt8) (s : MsgStore) : Except Fault Reply :=
  if data.length < 4 then .ok (refuse [1] s)
  else if now < ignoreUntil then .ok (refuse [] s)
  else (read .outOfRange data 0 4).bind fun b =>
    let nInvBuckets := leValue b
    if (nInvBuckets : ℤ) > smsgRetention/smsgBucketLen+1 then .ok (refuse [1] s)
    else if data.length < (4+nInvBuckets*16)%2^32 then .ok (refuse [1] s)
    else (loop .outOfRange data 16 (invBucket now) nInvBuckets 4 ⟨s,[],0,0,[]⟩).map (invReply now)

end Inv

section Show

def tokenBytes (t : SecMsgToken) : List UInt8 :=
  bytes64 t.timestamp++(PrefixCode.word 8 t.sample).reverse

def showBucket (s : MsgStore) (p : List UInt8) (pushed : List (Answer × List UInt8)) :
    List (Answer × List UInt8) :=
  match s.smsgBuckets.lookup (SecureMessage.int64 p) with
  | none => pushed
  | some b => pushed++[(.smsgHave,p++((inOrder leToken b.setTokens).flatMap fun x => tokenBytes x.1))]

def receiveShow (data : List UInt8) (s : MsgStore) : Except Fault Reply :=
  if data.length < 4 then .ok (refuse [] s)
  else (read .outOfRange data 0 4).bind fun b =>
    let nBuckets := leValue b
    if data.length < (4+nBuckets*8)%2^32 then .ok (refuse [] s)
    else (loop .outOfRange data 8 (showBucket s) nBuckets 4 []).map fun pushed => ⟨true,s,[],pushed⟩

end Show

section Have

def readToken (p : List UInt8) : SecMsgToken := ⟨SecureMessage.int64 (p.take 8),sampleOf (p.drop 8)⟩

def haveToken (tokenSet : Tokens) (p vchDataOut : List UInt8) : List UInt8 :=
  if (tokenSet.lookup (readToken p)).isSome then vchDataOut else vchDataOut++p

def lockBucket (peer : ℤ) (time : ℤ) (s : MsgStore) : MsgStore :=
  let b := (getDefault s.smsgBuckets time .start).1
  { s with smsgBuckets := s.smsgBuckets.insert time { b with nLockCount := 3, nLockPeerId := peer } }

def receiveHave (now peer : ℤ) (data : List UInt8) (s : MsgStore) : Except Fault Reply :=
  if data.length < 8 then .ok (refuse [] s)
  else (read .outOfRange data 0 8).bind fun b =>
    let time := SecureMessage.int64 b
    if time < now-smsgRetention then .ok (refuse [] s)
    else if time > now+smsgTimeLeeway then .ok (refuse [1] s)
    else
      let r := getDefault s.smsgBuckets time .start
      let s := { s with smsgBuckets := r.2 }
      if r.1.nLockCount > 0 then .ok (refuse [] s)
      else (loop .outOfRange data 16 (haveToken r.1.setTokens) ((data.length-8)/16) 8 []).map
        fun vchDataOut =>
          if 0 < vchDataOut.length then
            ⟨true,lockBucket peer time s,[],[(.smsgWant,b++vchDataOut)]⟩
          else ⟨true,s,[],[]⟩

end Have

section Want
variable (W : MsgEnv)

structure Bunch where
  nBunch : ℕ
  vchBunch : List UInt8

def Bunch.full (x : Bunch) : Bool := x.nBunch ≥ 500 || 12+x.vchBunch.length ≥ 96000

def Bunch.add (x : Bunch) : Option (List UInt8) → Bunch
  | none => x
  | some vchOne => ⟨x.nBunch+1,x.vchBunch++vchOne⟩

/-- The loop over the tokens that are wanted. A token that is not there is passed over only
while debugging; otherwise the iterator behind the last token is used. -/
def wantLoop (data : List UInt8) (s : MsgStore) (tokenSet : Tokens) :
    ℕ → ℕ → Bunch → Except Fault Bunch
  | 0, _, x => .ok x
  | k+1, ofs, x => (read .outOfRange data ofs 16).bind fun p =>
    match tokenSet.lookup (readToken p) with
    | none => if W.fDebugSmsg then wantLoop data s tokenSet k (ofs+16) x else .error .endIterator
    | some offset =>
      let x := x.add (secureMsgRetrieve s (readToken p) offset)
      if x.full then .ok x else wantLoop data s tokenSet k (ofs+16) x

def receiveWant (data : List UInt8) (s : MsgStore) : Except Fault Reply :=
  if data.length < 8 then .ok (refuse [] s)
  else (read .outOfRange data 0 8).bind fun b =>
    match s.smsgBuckets.lookup (SecureMessage.int64 b) with
    | none => .ok (refuse [] s)
    | some bkt =>
      (wantLoop W data s bkt.setTokens ((data.length-8)/16) 8 ⟨0,[]⟩).map fun x =>
        ⟨true,s,[],if 0 < x.nBunch then
          [(.smsgMsg,PrefixCode.word 4 x.nBunch++b++x.vchBunch)] else []⟩

end Want

section Msg
variable (W : MsgEnv)

/-- What is outside of the message store while a bunch comes in: the clock, the file system in
each round, and whether a message is found to be one of ours. -/
structure Receiving where
  now : ℤ
  io : ℕ → StoreIo
  own : Message → Bool

/-- `SecureMsgValidate` refuses a header before it looks at the payload. -/
def headerRefused (header : List UInt8) : Bool :=
  (version header).head? ≠ some 1 || nPayload header > smsgMaxMsgWorst

def readMessage (data : List UInt8) (n : ℕ) : Except Fault Message :=
  let header := (data.drop n).take smsgHdrLen
  let payload := (data.drop (n+smsgHdrLen)).take (nPayload header)
  if h : header.length = smsgHdrLen ∧ payload.length = nPayload header then
    .ok ⟨header,payload,h.1,h.2⟩
  else .error .outOfRange

/-- `SecureMsgScanMessage` on the received vector: of a message of ours eight bytes of the
payload are copied. -/
def scanMessage (R : Receiving) (data : List UInt8) (n : ℕ) (m : Message) : Except Fault Unit :=
  if R.own m then (read .outOfRange data (n+smsgHdrLen) 8).map fun _ => () else .ok ()

def penalised (score : ℕ × ℕ) (x : MsgStore × List (ℕ × ℕ)) : MsgStore × List (ℕ × ℕ) :=
  (x.1,score::x.2)

def score (rv : ℕ) : ℕ := if rv = 2 then 10 else 1

/-- The loop of `SecureMsgReceive`; the comparison of lengths is one of unsigned numbers of 64
bits, the offset has 32. -/
def receiveLoop (R : Receiving) (data : List UInt8) :
    ℕ → ℕ → MsgStore → Except Fault (MsgStore × List (ℕ × ℕ))
  | 0, _, s => .ok (s,[])
  | k+1, n, s =>
    if (data.length+2^64-n)%2^64 < smsgHdrLen then .ok (s,[])
    else (read .outOfRange data n smsgHdrLen).bind fun header =>
      if headerRefused header then (receiveLoop R data k n s).map (penalised (n,1))
      else (readMessage data n).bind fun m =>
        if secureMsgValidate W m ≠ 0 then
          (receiveLoop R data k n s).map (penalised (n,score (secureMsgValidate W m)))
        else
          let r := secureMsgStore W R.now (R.io k) m false s
          if r.1 ≠ 0 then .ok (r.2,[])
          else (scanMessage R data n m).bind fun _ =>
            receiveLoop R data k ((n+(smsgHdrLen+nPayload m.header))%2^32) r.2

def finishBucket (now bktTime : ℤ) (s : MsgStore) : MsgStore :=
  match s.smsgBuckets.lookup bktTime with
  | none => s
  | some b => { s with
      smsgBuckets := s.smsgBuckets.insert bktTime
        (hashBucket W now { b with nLockCount := 0, nLockPeerId := 0 }) }

def unlockBucket (bktTime : ℤ) (s : MsgStore) : MsgStore :=
  match s.smsgBuckets.lookup bktTime with
  | none => s
  | some b => { s with smsgBuckets := s.smsgBuckets.insert bktTime { b with nLockCount := 0 } }

/-- `SecureMsgReceive`: the store and the scores of misbehaviour, the one for the bunch at 0. -/
def secureMsgReceive (R : Receiving) (data : List UInt8) (s : MsgStore) :
    Except Fault (MsgStore × List (ℕ × ℕ)) :=
  if data.length < 12 then .ok (s,[])
  else (read .outOfRange data 0 12).bind fun b =>
    let nBunch := leValue (b.take 4)
    let bktTime := SecureMessage.int64 (b.drop 4)
    if bktTime > R.now+smsgTimeLeeway then .ok (s,[])
    else if bktTime < R.now-smsgRetention then .ok (s,[])
    else if nBunch = 0 ∨ nBunch > 500 then .ok (unlockBucket bktTime s,[(0,1)])
    else (receiveLoop W R data nBunch 12 s).map fun x => (finishBucket W R.now bktTime x.1,x.2)

end Msg

structure Peer where
  id : ℤ
  ignoreUntil : ℤ

def secureMsgReceiveData (W : MsgEnv) (R : Receiving) (pfrom : Peer) (strCommand : Command)
    (vRecv : Received) (s : MsgStore) : Except Fault Reply :=
  match strCommand with
  | .smsgInv => receiveInv R.now pfrom.ignoreUntil vRecv.vchData s
  | .smsgShow => receiveShow vRecv.vchData s
  | .smsgHave => receiveHave R.now pfrom.id vRecv.vchData s
  | .smsgWant => receiveWant W vRecv.vchData s
  | .smsgMsg => (secureMsgReceive W R vRecv.vchData s).map fun x =>
      ⟨true,x.1,x.2.map Prod.snd,[]⟩

end SwippCore.MessageHandlers
