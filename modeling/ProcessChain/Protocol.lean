import ProcessChain.CString

/-! Message types and what one `ipc_send` puts on a connection. -/

namespace ProcessChain

inductive MessageType
  | txSubmit
  | txAck
  | blockProposal
  | blockCommit
  | blockReject
  | syncRequest
  | syncResponse
  | queryChain
  | queryBlock
  | queryHeight
  | responseOk
  | responseErr
  | shutdown
deriving DecidableEq

namespace MessageType

def code : MessageType → UInt16
  | txSubmit => 1
  | txAck => 2
  | blockProposal => 3
  | blockCommit => 4
  | blockReject => 5
  | syncRequest => 6
  | syncResponse => 7
  | queryChain => 8
  | queryBlock => 9
  | queryHeight => 10
  | responseOk => 11
  | responseErr => 12
  | shutdown => 13

/-- The type a received header announces, if it is one of the protocol's. -/
def ofCode (code : UInt16) : Option MessageType :=
  [txSubmit, txAck, blockProposal, blockCommit, blockReject, syncRequest, syncResponse, queryChain, queryBlock,
    queryHeight, responseOk, responseErr, shutdown].find? fun type => type.code == code

theorem ofCode_code (type : MessageType) : ofCode type.code = some type := by
  cases type <;> rfl

end MessageType

/-- A received message: the header fields the handlers read and the payload. -/
structure Message where
  type : UInt16
  senderId : UInt32
  payload : Bytes
deriving DecidableEq

def Message.has (message : Message) (type : MessageType) : Bool := MessageType.ofCode message.type == some type

def maxPayloadSize : Nat := 65536

/-- What reaches the peer. Nothing is written when the length exceeds the limit;
the length parameter has 32 bits. -/
def ipcSend (type : MessageType) (senderId : UInt32) (payload : Bytes) (length : Nat) : Option Message :=
  let payloadLen := length % 2 ^ 32
  if payloadLen > maxPayloadSize then none else some ⟨type.code, senderId, payload.take payloadLen⟩

theorem ipcSend_payload {type : MessageType} {sender : UInt32} {payload : Bytes} {length : Nat} {message : Message}
    (sent : ipcSend type sender payload length = some message) : message.payload <+: payload := by
  simp only [ipcSend] at sent
  split at sent
  · cases sent
  · cases sent
    exact List.take_prefix _ _

/-- A payload within the limit reaches the peer as it is. -/
theorem ipcSend_fits (type : MessageType) (sender : UInt32) {payload : Bytes} (fits : payload.length ≤ maxPayloadSize) :
    ipcSend type sender payload payload.length = some ⟨type.code, sender, payload⟩ := by
  have kept : payload.length % 2 ^ 32 = payload.length := by
    simp only [maxPayloadSize] at fits
    exact Nat.mod_eq_of_lt (by omega)
  rw [ipcSend, kept, if_neg (by omega), List.take_length]

/-- A string literal is followed by its NUL, which some callers count into the length. -/
def ipcSendText (type : MessageType) (senderId : UInt32) (literal : String) (length : Nat) : Option Message :=
  ipcSend type senderId (ascii literal ++ [0]) length

end ProcessChain
