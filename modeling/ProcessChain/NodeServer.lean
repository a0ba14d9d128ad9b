import ProcessChain.Node
import ProcessChain.NodeQueue

/-! The threads of a node: one accepts connections and receives a message from each of
them, the workers take the messages from the queue and handle them, and `node_stop` ends
them from a signal handler. A step is what one thread does between two points at which
another one may act. A thread that sleeps on a condition variable acts again
when it is signalled, or without a reason. -/

namespace ProcessChain
open Lib

def nodeWorkerCount : Nat := 4

/-- What `receiver_main` does next. -/
inductive Receiver
  | looping
  | accepting
  | receiving (clientFd : Int)
  | pushing (message : QueueMessage)
  | sleeping (message : QueueMessage)
  | returned

/-- What a thread in `worker_main` does next. A commit handler that asked for a sync
reply is `awaiting` it. -/
inductive Worker
  | popping
  | sleeping
  | handling (message : QueueMessage)
  | awaiting (message : QueueMessage)
  | closing (message : QueueMessage)
  | returned

def Worker.isSleeping : Worker → Bool
  | sleeping => true
  | _ => false

/-- `pthread_cond_signal` and `pthread_cond_broadcast` on `not_empty`. -/
def Worker.wake : Worker → Worker
  | sleeping => popping
  | worker => worker

/-- Those on `not_full`, which only the receiver waits for. -/
def Receiver.wake : Receiver → Receiver
  | sleeping message => pushing message
  | receiver => receiver

structure NodeServer where
  node : Node
  /-- The workers whose commit handlers wait, in the order of `node.syncing`. -/
  syncing : List Nat
  queue : NodeQueue
  running : Bool
  /-- `server_fd` is not shut down. -/
  listening : Bool
  receiver : Receiver
  workers : List Worker
  /-- The descriptors of client connections that are open in the process. -/
  descriptors : List Int

/-- `accept` gives a descriptor or fails, and so does `ipc_recv` with a message. -/
inductive ServerEvent
  | loop
  | accept (result : Option Int)
  | receive (result : Option Message)
  | push (woken : Nat)
  | wakeReceiver
  | pop (worker : Nat)
  | wake (worker : Nat)
  | handle (worker : Nat) (heap : Heap)
  | resume (worker : Nat) (reply : Option Bytes) (heap : Heap)
  | close (worker : Nat)
  | stopRunning
  | stopQueue
  | stopListening

/-- What a step does that others can see. -/
inductive Performed
  | silent
  | queued (message : QueueMessage)
  | taken (message : QueueMessage)
  | handled (message : QueueMessage) (event : NodeEvent)
  | resumed (event : NodeEvent)

namespace NodeServer

/-- `node_init`, with the chain of the initial state, and the threads that `node_run` creates. -/
def start (nodeId : Nat) (chain : Blockchain) : NodeServer where
  node := ⟨nodeId, chain, []⟩
  syncing := []
  queue := nodeQueueInit
  running := true
  listening := true
  receiver := .looping
  workers := List.replicate nodeWorkerCount .popping
  descriptors := []

def setWorker (server : NodeServer) (worker : Nat) (next : Worker) : NodeServer :=
  { server with workers := server.workers.set worker next }

/-- `ipc_close` -/
def closeClient (server : NodeServer) (clientFd : Int) : NodeServer :=
  { server with descriptors := server.descriptors.erase clientFd }

/-- The kernel gives out no descriptor that is open. -/
def accept (server : NodeServer) : Option Int → Option NodeServer
  | none => some { server with receiver := .looping }
  | some clientFd =>
    if server.listening && !server.descriptors.contains clientFd then
      some { server with receiver := .receiving clientFd, descriptors := clientFd :: server.descriptors }
    else none

def receive (server : NodeServer) (clientFd : Int) : Option Message → NodeServer
  | none => { server with receiver := .looping }.closeClient clientFd
  | some message => { server with receiver := .pushing ⟨message, clientFd⟩ }

/-- One of the workers that sleep is signalled, if there are any. -/
def signalWorker (server : NodeServer) (woken : Nat) : Option NodeServer :=
  if server.workers.any Worker.isSleeping then
    match server.workers[woken]? with
    | some .sleeping => some (server.setWorker woken .popping)
    | _ => none
  else some server

def push (server : NodeServer) (message : QueueMessage) (woken : Nat) : Option (Performed × NodeServer) :=
  match nodeQueuePush server.queue message with
  | (none, _) => some (.silent, { server with receiver := .sleeping message })
  | (some (.error _), _) => some (.silent, { server with receiver := .looping }.closeClient message.clientFd)
  | (some (.ok _), queue) => do return (.queued message, ← { server with queue, receiver := .looping }.signalWorker woken)

def pop (server : NodeServer) (worker : Nat) : Performed × NodeServer :=
  match nodeQueuePop server.queue with
  | (none, _) => (.silent, server.setWorker worker .sleeping)
  | (some (.error _), _) => (.silent, server.setWorker worker .returned)
  | (some (.ok message), queue) =>
    (.taken message, { server with queue, receiver := server.receiver.wake }.setWorker worker (.handling message))

variable (sha256 : HashFunction)

/-- The handler of a message up to its end or to its request for a sync reply. -/
def handle (server : NodeServer) (worker : Nat) (message : QueueMessage) (heap : Heap) : Performed × NodeServer :=
  let event := .message message.message heap
  let node := server.node.step sha256 event
  let handled := { server with node }
  (.handled message event,
    if server.node.syncing.length < node.syncing.length then
      { handled with syncing := server.syncing ++ [worker] }.setWorker worker (.awaiting message)
    else handled.setWorker worker (.closing message))

def resume (server : NodeServer) (worker : Nat) (message : QueueMessage) (reply : Option Bytes) (heap : Heap) :
    Performed × NodeServer :=
  let event := .syncReply (server.syncing.idxOf worker) reply heap
  (.resumed event,
    { server with node := server.node.step sha256 event, syncing := server.syncing.erase worker }.setWorker worker
      (.closing message))

/-- `none` for what the thread of an event cannot do in this state. The three parts of `node_stop`
stand in their order, and may be repeated by further signals. -/
def perform (server : NodeServer) : ServerEvent → Option (Performed × NodeServer)
  | .loop =>
    match server.receiver with
    | .looping => some (.silent, { server with receiver := if server.running then .accepting else .returned })
    | _ => none
  | .accept result =>
    match server.receiver with
    | .accepting => do return (.silent, ← server.accept result)
    | _ => none
  | .receive result =>
    match server.receiver with
    | .receiving clientFd => some (.silent, server.receive clientFd result)
    | _ => none
  | .push woken =>
    match server.receiver with
    | .pushing message => server.push message woken
    | _ => none
  | .wakeReceiver =>
    match server.receiver with
    | .sleeping message => some (.silent, { server with receiver := .pushing message })
    | _ => none
  | .pop worker =>
    match server.workers[worker]? with
    | some .popping => some (server.pop worker)
    | _ => none
  | .wake worker =>
    match server.workers[worker]? with
    | some .sleeping => some (.silent, server.setWorker worker .popping)
    | _ => none
  | .handle worker heap =>
    match server.workers[worker]? with
    | some (.handling message) => some (server.handle sha256 worker message heap)
    | _ => none
  | .resume worker reply heap =>
    match server.workers[worker]? with
    | some (.awaiting message) => some (server.resume sha256 worker message reply heap)
    | _ => none
  | .close worker =>
    match server.workers[worker]? with
    | some (.closing message) => some (.silent, (server.setWorker worker .popping).closeClient message.clientFd)
    | _ => none
  | .stopRunning => some (.silent, { server with running := false })
  | .stopQueue =>
    if server.running then none
    else some (.silent, { server with
      queue := nodeQueueShutdown server.queue
      receiver := server.receiver.wake
      workers := server.workers.map Worker.wake })
  | .stopListening =>
    if server.queue.shuttingDown then some (.silent, { server with listening := false }) else none

/-- What cannot happen changes nothing. -/
def step (server : NodeServer) (event : ServerEvent) : Performed × NodeServer :=
  (server.perform sha256 event).getD (.silent, server)

end NodeServer

abbrev ServerHistory := List (ServerEvent × Performed)

def queuedMessage : ServerEvent × Performed → Option QueueMessage
  | (_, .queued message) => some message
  | _ => none

def takenMessage : ServerEvent × Performed → Option QueueMessage
  | (_, .taken message) => some message
  | _ => none

def handledMessage : ServerEvent × Performed → Option QueueMessage
  | (_, .handled message _) => some message
  | _ => none

/-- The step of the node's handlers that a step of the threads makes. -/
def handlerEvent : ServerEvent × Performed → Option NodeEvent
  | (_, .handled _ event) => some event
  | (_, .resumed event) => some event
  | _ => none

end ProcessChain
