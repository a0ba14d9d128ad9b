import ProcessChain.Blockchain
import ProcessChain.Protocol

/-! Messages as bytes on a stream socket. The kernel may return from a `read` or
a `write` after any positive part of the transfer, or because of a signal; what
it does is given as the list of the returns of one side's system calls. -/

namespace ProcessChain
open Lib Lib.FailStop

inductive Transfer
  | interrupted
  | failed
  | moved (count : Nat) (positive : 0 < count)

/-- One side of a connection: the bytes a reader will still get before the end of
the stream, or the bytes a writer has put on it, and the returns to come. -/
structure Connection where
  stream : Bytes
  transfers : List Transfer

/-- `waiting` is a system call that has not returned yet. -/
inductive Transferred (α : Type)
  | waiting
  | failed (error : ProjectError) (connection : Connection)
  | done (value : α) (connection : Connection)

def Transferred.andThen {α β : Type} (first : Transferred α) (next : α → Connection → Transferred β) : Transferred β :=
  match first with
  | .waiting => .waiting
  | .failed error connection => .failed error connection
  | .done value connection => next value connection

/-- Every caller reports the failure of a transfer as `ERR_IPC`. A `read` moves
no byte only at the end of the stream. -/
def readLoop (len : Nat) : Bytes → Bytes → List Transfer → Transferred Bytes
  | received, stream, [] => if received.length < len then .waiting else .done received ⟨stream, []⟩
  | received, stream, transfer :: rest =>
    if received.length < len then
      match transfer with
      | .interrupted => readLoop len received stream rest
      | .failed => .failed .ipc ⟨stream, rest⟩
      | .moved count _ =>
        let n := min count (min (len - received.length) stream.length)
        if n = 0 then .failed .ipc ⟨stream, rest⟩
        else readLoop len (received ++ stream.take n) (stream.drop n) rest
    else .done received ⟨stream, transfer :: rest⟩

def readFull (len : Nat) (connection : Connection) : Transferred Bytes :=
  readLoop len [] connection.stream connection.transfers

def writeLoop (buffer : Bytes) : Nat → Bytes → List Transfer → Transferred Unit
  | done, stream, [] => if done < buffer.length then .waiting else .done () ⟨stream, []⟩
  | done, stream, transfer :: rest =>
    if done < buffer.length then
      match transfer with
      | .interrupted => writeLoop buffer done stream rest
      | .failed => .failed .ipc ⟨stream, rest⟩
      | .moved count _ =>
        let n := min count (buffer.length - done)
        writeLoop buffer (done + n) (stream ++ (buffer.drop done).take n) rest
    else .done () ⟨stream, transfer :: rest⟩

def writeFull (buffer : Bytes) (connection : Connection) : Transferred Unit :=
  writeLoop buffer 0 connection.stream connection.transfers

/-- Header fields are in host order; both ends of a connection are on one host. -/
inductive ByteOrder
  | little
  | big

namespace ByteOrder

def arrange (order : ByteOrder) (digits : List Nat) : List Nat :=
  match order with
  | little => digits.reverse
  | big => digits

def store (order : ByteOrder) (width value : Nat) : Bytes :=
  (order.arrange (fixedDigits 256 width value)).map Nat.toUInt8

def load (order : ByteOrder) (memory : Bytes) : Nat := numeral 256 (order.arrange (memory.map UInt8.toNat))

end ByteOrder

structure MessageHeader where
  magic : UInt32
  version : UInt16
  type : UInt16
  senderId : UInt32
  payloadLen : UInt32
deriving DecidableEq

def sizeofHeader : Nat := 16

variable (order : ByteOrder)

namespace MessageHeader

def toMemory (header : MessageHeader) : Bytes :=
  order.store 4 header.magic.toNat ++ order.store 2 header.version.toNat ++ order.store 2 header.type.toNat ++
    order.store 4 header.senderId.toNat ++ order.store 4 header.payloadLen.toNat

def ofMemory (memory : Bytes) : MessageHeader where
  magic := (order.load (memory.take 4)).toUInt32
  version := (order.load ((memory.drop 4).take 2)).toUInt16
  type := (order.load ((memory.drop 6).take 2)).toUInt16
  senderId := (order.load ((memory.drop 8).take 4)).toUInt32
  payloadLen := (order.load ((memory.drop 12).take 4)).toUInt32

end MessageHeader

def protocolMagic : UInt32 := 0x424C4B43
def protocolVersion : UInt16 := 1

namespace Wire

/-- `none` is a null pointer; otherwise the payload has at least `payloadLen` bytes. -/
def ipcSend (type : UInt16) (senderId : UInt32) (payload : Option Bytes) (payloadLen : UInt32)
    (connection : Connection) : Transferred Unit :=
  if payloadLen.toNat > maxPayloadSize ∨ (payloadLen.toNat > 0 ∧ payload = none) then .failed .invalidArgument connection
  else
    let header : MessageHeader := ⟨protocolMagic, protocolVersion, type, senderId, payloadLen⟩
    (writeFull (header.toMemory order) connection).andThen fun _ connection =>
      if payloadLen.toNat > 0 then writeFull ((payload.getD []).take payloadLen.toNat) connection
      else .done () connection

def ipcRecv (connection : Connection) : HeapM (Transferred Message) := do
  match readFull sizeofHeader connection with
  | .waiting => return .waiting
  | .failed error connection => return .failed error connection
  | .done memory connection =>
    let header := MessageHeader.ofMemory order memory
    if header.magic ≠ protocolMagic ∨ header.version ≠ protocolVersion then return .failed .serialization connection
    if header.payloadLen.toNat > maxPayloadSize then return .failed .invalidArgument connection
    if header.payloadLen.toNat > 0 then
      if !(← succeeds (malloc header.payloadLen.toNat)) then return .failed .memoryAllocation connection
      return (readFull header.payloadLen.toNat connection).andThen fun payload connection =>
        .done ⟨header.type, header.senderId, payload⟩ connection
    else return .done ⟨header.type, header.senderId, []⟩ connection

/-- Successive calls of `ipc_send` on one connection. -/
def sendAll : List Message → Connection → Transferred Unit
  | [], connection => .done () connection
  | message :: rest, connection =>
    (ipcSend order message.type message.senderId (some message.payload) message.payload.length.toUInt32 connection).andThen
      fun _ connection => sendAll rest connection

/-- Successive calls of `ipc_recv`, up to the first that fails. -/
def recvAll : Nat → Connection → HeapM (Transferred (List Message))
  | 0, connection => return .done [] connection
  | count + 1, connection => do
    match ← ipcRecv order connection with
    | .waiting => return .waiting
    | .failed error connection => return .failed error connection
    | .done message connection =>
      return (← recvAll count connection).andThen fun messages connection => .done (message :: messages) connection

end Wire

end ProcessChain
