import MutableBitcoin.CompactBlock

/-!
# Messages of the peer-to-peer protocol

`CMessageHeader` of `protocol.cpp`; `CNetMessage`, the receiving of `CNode` and the sending of `CConnman` in
`net.cpp`. The double hash of a payload and the outcomes of the calls of `send` are given.
-/

namespace MutableBitcoin
open Lib List

abbrev HEADER_SIZE : ℕ := 24

/-- The header of a message. -/
structure CMessageHeader where
  pchMessageStart : BaseBlob 4
  pchCommand : BaseBlob 12
  nMessageSize : UInt32
  pchChecksum : BaseBlob 4
deriving DecidableEq

namespace CMessageHeader

lemma length_padded (s : Bytes) : (s.take 12 ++ List.replicate (12 - (s.take 12).length) 0).length = 12 := by
  have hle : (s.take 12).length ≤ 12 := length_take_le 12 s
  rw [length_append, length_replicate, Nat.add_sub_cancel' hle]

/-- `strncpy` into twelve zero bytes. -/
def copyCommand (pszCommand : Bytes) : BaseBlob 12 :=
  ⟨(pszCommand.takeWhile (· != 0)).take 12 ++
    List.replicate (12 - ((pszCommand.takeWhile (· != 0)).take 12).length) 0, length_padded _⟩

def init (pchMessageStart : BaseBlob 4) : CMessageHeader :=
  ⟨pchMessageStart, BaseBlob.null 12, 0xffffffff, BaseBlob.null 4⟩

def make (pchMessageStart : BaseBlob 4) (pszCommand : Bytes) (nMessageSize : UInt32) : CMessageHeader :=
  ⟨pchMessageStart, copyCommand pszCommand, nMessageSize, BaseBlob.null 4⟩

variable (hdr : CMessageHeader)

def getCommand : Bytes := hdr.pchCommand.data.takeWhile (· != 0)

/-- The loop of `IsValid` over the command. -/
def commandValid : Bytes → Bool
  | [] => true
  | p1 :: rest =>
    -- must be all zeros after the first zero
    if p1 = 0 then rest.all (· == 0) else if p1 < 0x20 || p1 > 0x7e then false else commandValid rest

def isValid (pchMessageStart : BaseBlob 4) : Bool :=
  if hdr.pchMessageStart ≠ pchMessageStart then false
  else if !commandValid hdr.pchCommand.data then false
  else decide (hdr.nMessageSize.toNat ≤ MAX_SIZE)

def serialize : Bytes :=
  hdr.pchMessageStart.data ++ (hdr.pchCommand.data ++ (serializeUInt32 hdr.nMessageSize ++ hdr.pchChecksum.data))

end CMessageHeader

def readMessageHeader : Read CMessageHeader := do
  let pchMessageStart ← readBlob 4
  let pchCommand ← readBlob 12
  let nMessageSize ← readUInt32
  let pchChecksum ← readBlob 4
  return ⟨pchMessageStart, pchCommand, nMessageSize, pchChecksum⟩

/-- A sum of type `unsigned int`. -/
def unsignedAdd (a b : ℕ) : ℕ := (b + a) % 2 ^ 32

/-- A difference of type `unsigned int`. -/
def unsignedSub (a b : ℕ) : ℕ := (2 ^ 32 + a - b) % 2 ^ 32

/-- Ways in which receiving could go wrong: `memcpy` past the end of a buffer, or a loop that makes no progress. -/
inductive ReceiveFailure
  | outOfBounds
  | noProgress
deriving DecidableEq

/-- `memcpy` to the position of a buffer. -/
def writeAt (buf : Bytes) (pos : ℕ) (data : Bytes) : Except ReceiveFailure Bytes :=
  if pos + data.length ≤ buf.length then .ok (buf.take pos ++ data ++ buf.drop (pos + data.length))
  else .error .outOfBounds

/-- `CDataStream::resize`. -/
def resize (buf : Bytes) (n : ℕ) : Bytes := buf.take n ++ List.replicate (n - buf.length) 0

/-- `hasher` is what has been written to it. -/
@[ext]
structure CNetMessage where
  hasher : Bytes
  data_hash : Uint256
  in_data : Bool
  hdrbuf : Bytes
  hdr : CMessageHeader
  nHdrPos : ℕ
  vRecv : Bytes
  nDataPos : ℕ

namespace CNetMessage

def init (pchMessageStart : BaseBlob 4) : CNetMessage :=
  ⟨[], BaseBlob.null 32, false, List.replicate 24 0, CMessageHeader.init pchMessageStart, 0, [], 0⟩

variable (msg : CNetMessage)

def complete : Bool := if !msg.in_data then false else msg.hdr.nMessageSize.toNat == msg.nDataPos

/-- The number of bytes handled, if it is not -1, with the message. -/
def readHeader (pch : Bytes) : Except ReceiveFailure (Option ℕ × CNetMessage) :=
  let nRemaining := unsignedSub 24 msg.nHdrPos
  let nCopy := min nRemaining pch.length
  match writeAt msg.hdrbuf msg.nHdrPos (pch.take nCopy) with
  | .error e => .error e
  | .ok hdrbuf =>
    let msg := { msg with hdrbuf := hdrbuf, nHdrPos := unsignedAdd msg.nHdrPos nCopy }
    -- if header incomplete, exit
    if msg.nHdrPos < 24 then .ok (some nCopy, msg)
    else
      match readMessageHeader msg.hdrbuf with
      | .error _ => .ok (none, msg)
      | .ok (hdr, hdrbuf) =>
        let msg := { msg with hdr := hdr, hdrbuf := hdrbuf }
        -- reject messages larger than MAX_SIZE
        if msg.hdr.nMessageSize.toNat > MAX_SIZE then .ok (none, msg)
        else .ok (some nCopy, { msg with in_data := true })

/-- `CNetMessage::readData`. -/
def readData (pch : Bytes) : Except ReceiveFailure (Option ℕ × CNetMessage) :=
  let nRemaining := unsignedSub msg.hdr.nMessageSize.toNat msg.nDataPos
  let nCopy := min nRemaining pch.length
  -- allocate up to 256 KiB ahead, but never more than the total message size
  let vRecv :=
    if msg.vRecv.length < unsignedAdd msg.nDataPos nCopy then
      resize msg.vRecv (min msg.hdr.nMessageSize.toNat (unsignedAdd (unsignedAdd msg.nDataPos nCopy) (256 * 1024)))
    else msg.vRecv
  match writeAt vRecv msg.nDataPos (pch.take nCopy) with
  | .error e => .error e
  | .ok vRecv =>
    .ok (some nCopy,
      { msg with
        hasher := msg.hasher ++ pch.take nCopy
        vRecv := vRecv
        nDataPos := unsignedAdd msg.nDataPos nCopy })

/-- There is no result where the assertion fails. -/
def getMessageHash (hash : Bytes → Uint256) : Option (Uint256 × CNetMessage) :=
  if !msg.complete then none
  else
    let data_hash := if msg.data_hash.isNull then hash msg.hasher else msg.data_hash
    some (data_hash, { msg with data_hash := data_hash })

end CNetMessage

section Receive

variable (pchMessageStart : BaseBlob 4)

/-- What `ReceiveMsgBytes` returns and sets. -/
structure Received where
  result : Bool
  complete : Bool
  vRecvMsg : List CNetMessage

def withCurrent (vRecvMsg : List CNetMessage) : List CNetMessage :=
  match vRecvMsg.getLast? with
  | none => vRecvMsg ++ [CNetMessage.init pchMessageStart]
  | some msg => if msg.complete then vRecvMsg ++ [CNetMessage.init pchMessageStart] else vRecvMsg

/-- The loop of `ReceiveMsgBytes`, with a bound on the number of rounds. -/
def receiveLoop : ℕ → Bytes → Bool → List CNetMessage → Except ReceiveFailure Received
  | rounds, pch, complete, vRecvMsg =>
    if pch.length = 0 then .ok ⟨true, complete, vRecvMsg⟩
    else
      match rounds with
      | 0 => .error .noProgress
      | rounds + 1 =>
        let vRecvMsg := withCurrent pchMessageStart vRecvMsg
        let msg := vRecvMsg.getLast?.getD (CNetMessage.init pchMessageStart)
        -- absorb network data
        match (if !msg.in_data then msg.readHeader pch else msg.readData pch) with
        | .error e => .error e
        | .ok (none, msg) => .ok ⟨false, complete, vRecvMsg.dropLast ++ [msg]⟩
        | .ok (some handled, msg) =>
          if msg.in_data && decide (msg.hdr.nMessageSize.toNat > MAX_PROTOCOL_MESSAGE_LENGTH) then
            .ok ⟨false, complete, vRecvMsg.dropLast ++ [msg]⟩
          else
            receiveLoop rounds (pch.drop handled) (complete || msg.complete) (vRecvMsg.dropLast ++ [msg])

def receiveMsgBytes (vRecvMsg : List CNetMessage) (pch : Bytes) : Except ReceiveFailure Received :=
  receiveLoop pchMessageStart pch.length pch false vRecvMsg

/-- The receiving side of a `CNode`; `hSocket` tells whether the socket is still valid. -/
structure ReceiveNode where
  hSocket : Bool
  vRecvMsg : List CNetMessage
  vProcessMsg : List CNetMessage

namespace ReceiveNode

def init : ReceiveNode := ⟨true, [], []⟩

/-- What `ThreadSocketHandler` does with the bytes that `recv` has put into its buffer. -/
def receive (node : ReceiveNode) (pchBuf : Bytes) : Except ReceiveFailure ReceiveNode :=
  if !node.hSocket then .ok node
  else
    match receiveMsgBytes pchMessageStart node.vRecvMsg pchBuf with
    | .error e => .error e
    | .ok r =>
      let node := { node with hSocket := r.result, vRecvMsg := r.vRecvMsg }
      if r.complete then
        .ok { node with
          vProcessMsg := node.vProcessMsg ++ node.vRecvMsg.takeWhile CNetMessage.complete
          vRecvMsg := node.vRecvMsg.dropWhile CNetMessage.complete }
      else .ok node

def receiveAll (node : ReceiveNode) : List Bytes → Except ReceiveFailure ReceiveNode
  | [] => .ok node
  | pchBuf :: chunks =>
    match node.receive pchMessageStart pchBuf with
    | .error e => .error e
    | .ok node => receiveAll node chunks

end ReceiveNode

end Receive

section Send

/-- What a call of `send` does: it takes a number of the bytes offered, or it fails. -/
inductive SendOutcome
  | taken (n : ℕ)
  | failed (fatal : Bool)

/-- The sending side of a `CNode`, and the bytes that have been sent. -/
structure SendNode where
  hSocket : Bool
  vSendMsg : List Bytes
  nSendSize : ℕ
  nSendOffset : ℕ
  fPauseSend : Bool
  sent : Bytes

namespace SendNode

def init : SendNode := ⟨true, [], 0, 0, false, []⟩

variable (nSendBufferMaxSize : ℕ)

/-- The loop of `SocketSendData`, with what is left of the queue. There is no result where an assertion fails. -/
def sendLoop (outcome : ℕ → SendOutcome) : ℕ → List Bytes → SendNode → Option (List Bytes × SendNode)
  | _, [], node => some ([], node)
  | i, data :: rest, node =>
    if ¬data.length > node.nSendOffset then none
    else if !node.hSocket then some (data :: rest, node)
    else
      match outcome i with
      | .failed fatal => some (data :: rest, { node with hSocket := !fatal })
      | .taken n =>
        let nBytes := min n (data.length - node.nSendOffset)
        if nBytes > 0 then
          let node :=
            { node with
              sent := node.sent ++ (data.drop node.nSendOffset).take nBytes
              nSendOffset := node.nSendOffset + nBytes }
          if node.nSendOffset = data.length then
            let nSendSize := node.nSendSize - data.length
            sendLoop outcome (i + 1) rest
              { node with
                nSendOffset := 0
                nSendSize := nSendSize
                fPauseSend := decide (nSendSize > nSendBufferMaxSize) }
          else some (data :: rest, node)
        else some (data :: rest, node)

def socketSendData (outcome : ℕ → SendOutcome) (node : SendNode) : Option SendNode :=
  match sendLoop nSendBufferMaxSize outcome 0 node.vSendMsg node with
  | none => none
  | some (rest, node) =>
    if rest.isEmpty ∧ ¬(node.nSendOffset = 0 ∧ node.nSendSize = 0) then none else some { node with vSendMsg := rest }

lemma length_checksum (hash : Uint256) : (hash.data.take 4).length = 4 := by
  rw [length_take, hash.length_data]
  rfl

/-- The header that `PushMessage` makes. -/
def pushedHeader (hash : Bytes → Uint256) (pchMessageStart : BaseBlob 4) (command data : Bytes) : CMessageHeader :=
  { CMessageHeader.make pchMessageStart command (UInt32.ofNat data.length) with
    pchChecksum := ⟨(hash data).data.take 4, length_checksum (hash data)⟩ }

/-- `CConnman::PushMessage`. -/
def pushMessage (hash : Bytes → Uint256) (pchMessageStart : BaseBlob 4) (outcome : ℕ → SendOutcome)
    (command data : Bytes) (node : SendNode) : Option SendNode :=
  let nTotalSize := data.length + HEADER_SIZE
  let optimisticSend := node.vSendMsg.isEmpty
  let nSendSize := node.nSendSize + nTotalSize
  let serializedHeader := (pushedHeader hash pchMessageStart command data).serialize
  let node :=
    { node with
      nSendSize := nSendSize
      fPauseSend := if nSendSize > nSendBufferMaxSize then true else node.fPauseSend
      vSendMsg := node.vSendMsg ++ [serializedHeader] ++ (if data.length = 0 then [] else [data]) }
  -- if the write queue was empty, attempt an optimistic write
  if optimisticSend then node.socketSendData nSendBufferMaxSize outcome else some node

end SendNode

end Send

end MutableBitcoin
