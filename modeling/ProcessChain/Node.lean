import ProcessChain.Blockchain
import ProcessChain.Protocol

/-! The message handlers of a node. Every handler has one critical section under
the chain lock, except the commit handler: a node that finds itself behind
releases the lock, asks the coordinator for the missing blocks and takes the lock
again for the answer. Such handlers are listed in `syncing` between the two. -/

namespace ProcessChain
open Lib Lib.FailStop

structure Node where
  nodeId : Nat
  chain : Blockchain
  /-- `expected_index` of every commit handler that waits for a sync reply. -/
  syncing : List UInt64

def Node.isCoordinator (node : Node) : Bool := node.nodeId == 0

/-- The effects of handling a message: the reply on the sender's connection and
the line broadcast to all peers. -/
structure Handled where
  node : Node
  reply : Option Message
  broadcast : Option Bytes

variable (sha256 : HashFunction)

namespace Node

def sender (node : Node) : UInt32 := node.nodeId.toUInt32

def answer (node : Node) (type : MessageType) (literal : String) (length : Nat) : Handled :=
  ⟨node, ipcSendText type node.sender literal length, none⟩

end Node

/-- The checks the handlers make before an append. They differ in how they look
up the last block and in what they accept when there is none. -/
def validAgainst (last : Option Block) (first : Bool) (block : Block) : HeapM Bool := do
  if !(← succeeds (validateBlockStructure block)) then return false
  if !(← succeeds (validateBlockMerkleRoot sha256 block)) then return false
  match last with
  | none => return first
  | some last => succeeds (validateBlockLink sha256 last block)

def broadcastCommit (node : Node) (committed : Block) : HeapM (Option Bytes) := do
  match ← attempt (blockToCsv committed) with
  | .error _ => return none
  | .ok line => return (ipcSend .blockCommit node.sender line.bytes line.length).map Message.payload

def handleBlockProposal (node : Node) (message : Message) : HeapM Handled := do
  if message.payload = [] then return node.answer .blockReject "empty proposal" 14
  if !(← succeeds (malloc (message.payload.length + 1))) then return node.answer .responseErr "out of memory" 13
  match ← attempt (blockFromCsv (.ofMemory message.payload)) with
  | .error _ => return node.answer .blockReject "malformed block" 15
  | .ok proposed =>
    if !(← validAgainst sha256 node.chain.last (proposed.index == 0) proposed) then
      return node.answer .blockReject "invalid proposal" 16
    match ← blockchainAppend node.chain proposed with
    | (.error _, chain) => return { node with chain }.answer .blockReject "append failed" 13
    | (.ok _, chain) =>
      let line ← match chain.last with
        | none => pure none
        | some lastCommitted => broadcastCommit node lastCommitted
      return ⟨{ node with chain }, ipcSend .responseOk node.sender [] 0, line⟩

def handleQueryHeight (node : Node) (_message : Message) : HeapM Handled := do
  let height := decimal node.chain.count
  return ⟨node, ipcSend .responseOk node.sender height height.length, none⟩

/-- `"--index <n>"` or `"--hash <h>"`; `none` when the text is neither. -/
def lookup (chain : Blockchain) (text : Bytes) : Option (HeapM (Option Nat)) :=
  match (afterWord (ascii "--index") text).bind scanUnsigned with
  | some index => some (return blockchainGetByIndex chain index)
  | none =>
    match (afterWord (ascii "--hash") text).bind (scanWord 64) with
    | some hash => some (blockchainGetByHash sha256 chain hash)
    | none => none

def handleQueryBlock (node : Node) (message : Message) : HeapM Handled := do
  if !(← succeeds (malloc (message.payload.length + 1))) then return node.answer .responseErr "out of memory" 13
  let found ← (lookup sha256 node.chain (CString.ofMemory message.payload).bytes).getD (pure none)
  match found.bind (node.chain.blocks[·]?) with
  | none => return node.answer .responseErr "block not found" 16
  | some block =>
    match ← attempt (blockToCsv block) with
    | .error _ => return node.answer .responseErr "serialization failed" 21
    | .ok line => return ⟨node, ipcSend .responseOk node.sender line.bytes line.length, none⟩

/-- The capacity is doubled until the text fits. -/
def growBuffer (needed capacity : Nat) : Alloc Nat := do
  if needed > capacity ∧ 0 < capacity then
    malloc (capacity * 2)
    growBuffer needed (capacity * 2)
  else return capacity
termination_by needed - capacity

def csvHeader : Bytes := ascii "index,timestamp,prev_hash,merkle_root,nonce,transactions\n"

def initialBufferCapacity : Nat := 4096

/-- The lines of a chain answer, or the error text it is refused with. -/
def chainLines : List Block → Bytes → Nat → HeapM (Except String Bytes)
  | [], buffer, _ => return .ok buffer
  | block :: rest, buffer, capacity => do
    match ← attempt (blockToCsv block) with
    | .error _ => return .error "serialization failed"
    | .ok line =>
      match ← attempt (growBuffer (buffer.length + line.length + 2) capacity) with
      | .error _ => return .error "out of memory"
      | .ok capacity => chainLines rest (buffer ++ line.bytes ++ [10]) capacity

def answerChain (node : Node) (startPosition : Nat) : HeapM Handled := do
  if !(← succeeds (malloc initialBufferCapacity)) then return node.answer .responseErr "out of memory" 13
  match ← chainLines (node.chain.blocks.drop startPosition) csvHeader initialBufferCapacity with
  | .error text => return node.answer .responseErr text text.length
  | .ok buffer => return ⟨node, ipcSend .responseOk node.sender buffer buffer.length, none⟩

def handleQueryChain (node : Node) (message : Message) : HeapM Handled := do
  if message.payload = [] then return (← answerChain node 0)
  if !(← succeeds (malloc (message.payload.length + 1))) then return node.answer .responseErr "out of memory" 13
  let text := (CString.ofMemory message.payload).bytes
  if text = [] then return (← answerChain node 0)
  match lookup sha256 node.chain text with
  | none => return node.answer .responseErr "invalid query" 13
  | some search =>
    match ← search with
    | none => return node.answer .responseErr "block not found" 15
    | some startPosition => answerChain node startPosition

/-- The lines of a sync answer. Blocks that cannot be serialized are left out;
`none` is a buffer that could not grow, which ends the handler without a reply. -/
def syncLines : List Block → Bytes → Nat → HeapM (Option Bytes)
  | [], buffer, _ => return some buffer
  | block :: rest, buffer, capacity => do
    match ← attempt (blockToCsv block) with
    | .error _ => syncLines rest buffer capacity
    | .ok line =>
      match ← attempt (growBuffer (buffer.length + line.length + 2) capacity) with
      | .error _ => return none
      | .ok capacity => syncLines rest (buffer ++ line.bytes ++ [10]) capacity

def handleSyncRequest (node : Node) (message : Message) : HeapM Handled := do
  if !(← succeeds (malloc (message.payload.length + 1))) then return node.answer .responseErr "out of memory" 13
  let fromIndex := (scanUnsigned (CString.ofMemory message.payload).bytes).getD 0
  if !(← succeeds (malloc initialBufferCapacity)) then return node.answer .responseErr "out of memory" 13
  match ← syncLines (node.chain.blocks.drop fromIndex.toNat) [] initialBufferCapacity with
  | none => return ⟨node, none, none⟩
  | some buffer => return ⟨node, ipcSend .syncResponse node.sender buffer buffer.length, none⟩

/-- The commit handler up to the end of its first critical section. -/
def handleBlockCommit (node : Node) (message : Message) : HeapM Handled := do
  if !(← succeeds (malloc (message.payload.length + 1))) then return ⟨node, none, none⟩
  match ← attempt (blockFromCsv (.ofMemory message.payload)) with
  | .error _ => return ⟨node, none, none⟩
  | .ok incoming =>
    let expectedIndex := node.chain.count.toUInt64
    if incoming.index = expectedIndex then
      let last := if node.chain.count > 0 then
          (blockchainGetByIndex node.chain (node.chain.count - 1).toUInt64).bind (node.chain.blocks[·]?)
        else none
      if ← validAgainst sha256 last (incoming.index == 0) incoming then
        let (_, chain) ← blockchainAppend node.chain incoming
        return ⟨{ node with chain }, none, none⟩
      else return ⟨node, none, none⟩
    else if incoming.index < expectedIndex then return ⟨node, none, none⟩
    else return ⟨{ node with syncing := node.syncing ++ [expectedIndex] }, none, none⟩

/-- One line of a sync reply. There is no rule for the first block of a chain here. -/
def syncBlock (chain : Blockchain) (line : CString) : HeapM Blockchain := do
  match ← attempt (blockFromCsv line) with
  | .error _ => return chain
  | .ok synced =>
    if ← validAgainst sha256 chain.last true synced then
      let (_, chain) ← blockchainAppend chain synced
      return chain
    else return chain

def syncLoop : List CString → Blockchain → HeapM Blockchain
  | [], chain => return chain
  | line :: rest, chain => do syncLoop rest (← syncBlock sha256 chain line)

/-- The commit handler in `slot` gets its reply, or fails to get one. -/
def finishSync (node : Node) (slot : Nat) (reply : Option Bytes) : HeapM Node := do
  let node := { node with syncing := node.syncing.eraseIdx slot }
  match reply with
  | none | some [] => return node
  | some payload =>
    if !(← succeeds (malloc (payload.length + 1))) then return node
    return { node with chain := ← syncLoop sha256 (strtokLines (.ofMemory payload)) node.chain }

def Node.handleMessage (node : Node) (message : Message) : HeapM Handled :=
  match MessageType.ofCode message.type with
  | some .blockProposal =>
    if node.isCoordinator then handleBlockProposal sha256 node message
    else return node.answer .responseErr "not coordinator" 16
  | some .queryChain => handleQueryChain sha256 node message
  | some .queryHeight => handleQueryHeight node message
  | some .queryBlock => handleQueryBlock sha256 node message
  | some .syncRequest => handleSyncRequest node message
  | some .blockCommit => handleBlockCommit sha256 node message
  | _ => return ⟨node, ipcSend .responseOk node.sender [] 0, none⟩

/-- One atomic step of a node: a message is handled, or a commit handler that
waits for its sync reply continues. The heap answers the step's allocations. -/
inductive NodeEvent
  | message (message : Message) (heap : Heap)
  | syncReply (slot : Nat) (reply : Option Bytes) (heap : Heap)

def Node.step (node : Node) : NodeEvent → Node
  | .message message heap => (node.handleMessage sha256 message heap).1.node
  | .syncReply slot reply heap => if slot < node.syncing.length then (finishSync sha256 node slot reply heap).1 else node

def Node.run (node : Node) (events : List NodeEvent) : Node := events.foldl (Node.step sha256) node

/-- What a commit handler that is behind asks of the coordinator. -/
def syncRequest (node : Node) (expectedIndex : UInt64) : Option Message :=
  let request := decimal expectedIndex.toNat
  ipcSend .syncRequest node.sender request request.length

/-- The node's answer to a request, if the request was sent at all. -/
def Node.answerTo (node : Node) (request : Option Message) : HeapM (Option Message) := do
  match request with
  | none => return none
  | some request => return (← node.handleMessage sha256 request).reply

/-- A message is handled from beginning to end with no other message in between.
A handler that has to sync gets the coordinator's answer to its request. -/
def handleUndisturbed (node coordinator : Node) (message : Message) : HeapM Node := do
  let started := (← node.handleMessage sha256 message).node
  match started.syncing[node.syncing.length]? with
  | none => return started
  | some expectedIndex =>
    let reply ← coordinator.answerTo sha256 (syncRequest started expectedIndex)
    finishSync sha256 started node.syncing.length (reply.map Message.payload)

end ProcessChain
