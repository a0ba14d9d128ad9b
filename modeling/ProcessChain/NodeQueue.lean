import ProcessChain.Lib.BoundedQueue
import ProcessChain.Block
import ProcessChain.Protocol

/-! The queue between the accepting thread of a node and its worker threads. A
call is made of tries: each takes the lock, and either finishes the call or
waits on a condition variable, which releases the lock until the next try.
Threads may be woken in any order and without a reason. -/

namespace ProcessChain
open Lib

def nodeQueueCapacity : Nat := 64

instance : NeZero nodeQueueCapacity := ⟨by decide⟩

structure QueueMessage where
  message : Message
  clientFd : Int
deriving DecidableEq

structure NodeQueue where
  items : Vector QueueMessage nodeQueueCapacity
  head : Fin nodeQueueCapacity
  tail : Fin nodeQueueCapacity
  count : Int
  shuttingDown : Bool

def nodeQueueInit : NodeQueue where
  items := Vector.replicate nodeQueueCapacity ⟨⟨0, 0, []⟩, 0⟩
  head := 0
  tail := 0
  count := 0
  shuttingDown := false

/-- `none` is a try that ends in `pthread_cond_wait`. -/
def nodeQueuePush (queue : NodeQueue) (message : QueueMessage) : Option (Except ProjectError Unit) × NodeQueue :=
  if queue.count = nodeQueueCapacity ∧ !queue.shuttingDown then (none, queue)
  else if queue.shuttingDown then (some (.error .ipc), queue)
  else (some (.ok ()), { queue with
    items := queue.items.set queue.tail message
    tail := Fin.ofNat nodeQueueCapacity (queue.tail + 1)
    count := queue.count + 1 })

def nodeQueuePop (queue : NodeQueue) : Option (Except ProjectError QueueMessage) × NodeQueue :=
  if queue.count = 0 ∧ !queue.shuttingDown then (none, queue)
  else if queue.count = 0 ∧ queue.shuttingDown then (some (.error .notFound), queue)
  else (some (.ok queue.items[queue.head]), { queue with
    head := Fin.ofNat nodeQueueCapacity (queue.head + 1)
    count := queue.count - 1 })

def nodeQueueShutdown (queue : NodeQueue) : NodeQueue := { queue with shuttingDown := true }

inductive QueueCall
  | push (message : QueueMessage)
  | pop
  | shutdown

inductive QueueReturn
  | waiting
  | pushed (result : Except ProjectError Unit)
  | popped (result : Except ProjectError QueueMessage)
  | done

/-- One try of a call by some thread. -/
def NodeQueue.enter (queue : NodeQueue) : QueueCall → QueueReturn × NodeQueue
  | .push message =>
    match nodeQueuePush queue message with
    | (none, queue) => (.waiting, queue)
    | (some result, queue) => (.pushed result, queue)
  | .pop =>
    match nodeQueuePop queue with
    | (none, queue) => (.waiting, queue)
    | (some result, queue) => (.popped result, queue)
  | .shutdown => (.done, nodeQueueShutdown queue)

abbrev QueueHistory := List (QueueCall × QueueReturn)

def acceptedMessage : QueueCall × QueueReturn → Option QueueMessage
  | (.push message, .pushed (.ok _)) => some message
  | _ => none

def poppedMessage : QueueCall × QueueReturn → Option QueueMessage
  | (_, .popped (.ok message)) => some message
  | _ => none

/-- The messages of the successful pushes, in the order in which they took the lock. -/
def accepted (history : QueueHistory) : List QueueMessage := history.filterMap acceptedMessage

def popped (history : QueueHistory) : List QueueMessage := history.filterMap poppedMessage

/-- The messages in the ring, the oldest first. -/
def NodeQueue.contents (queue : NodeQueue) : List QueueMessage := window queue.items queue.head queue.count.toNat

end ProcessChain
