import ProcessChain.NodeServer
import ProcessChain.Proofs.NodeQueue
import ProcessChain.Proofs.NodeSafety
import Mathlib.Algebra.BigOperators.Group.List.Basic

/-! The threads of a node under every interleaving. Connections are closed once and by the thread that
holds them, messages are handled once and in the order of the queue, no wake-up is lost, and
`node_stop` ends all threads with the queue emptied. -/

namespace ProcessChain.Proofs.NodeServer
open Lib ProcessChain.NodeServer Proofs.NodeQueue Handlers

section Queue

/-- A ring that is a channel. -/
def Sound (queue : NodeQueue) : Prop := ∃ channel, Represents queue channel

theorem init_sound : Sound nodeQueueInit := ⟨_, init_represents⟩

variable {queue : NodeQueue}

theorem shutdown_sound (sound : Sound queue) : Sound (nodeQueueShutdown queue) := by
  obtain ⟨channel, represents⟩ := sound
  exact ⟨_, (enter_represents queue channel .shutdown represents).2⟩

@[simp] theorem shutdown_contents (queue : NodeQueue) : (nodeQueueShutdown queue).contents = queue.contents := rfl

inductive Pushed (queue : NodeQueue) (message : QueueMessage) : Prop
  | full (result : nodeQueuePush queue message = (none, queue)) (full : queue.contents.length = nodeQueueCapacity)
      (up : queue.shuttingDown = false)
  | down (result : nodeQueuePush queue message = (some (.error .ipc), queue)) (down : queue.shuttingDown = true)
  | stored (after : NodeQueue) (result : nodeQueuePush queue message = (some (.ok ()), after)) (up : queue.shuttingDown = false)
      (sound : Sound after) (contents : after.contents = queue.contents ++ [message]) (stillUp : after.shuttingDown = false)

theorem push_cases (sound : Sound queue) (message : QueueMessage) : Pushed queue message := by
  obtain ⟨channel, represents⟩ := sound
  obtain ⟨contents, count, bounded, -, closed⟩ := id represents
  cases down : queue.shuttingDown with
  | true => exact .down (by simp [nodeQueuePush, down]) down
  | false =>
    by_cases full : queue.count = nodeQueueCapacity
    · exact .full (by simp [nodeQueuePush, down, full]) (by rw [contents]; omega) down
    · have result : nodeQueuePush queue message = (some (.ok ()), (nodeQueuePush queue message).2) := by
        simp [nodeQueuePush, down, full]
      have room : channel.items.length < nodeQueueCapacity := by omega
      have next := (push_represents represents message).2
      rw [NodeQueue.enter, result] at next
      simp only [Channel.attempt, ← closed, down, room, if_true, Bool.false_eq_true, if_false] at next
      exact .stored _ result down ⟨_, next⟩ (by rw [next.contents, contents]) next.closed

inductive Popped (queue : NodeQueue) : Prop
  | empty (result : nodeQueuePop queue = (none, queue)) (empty : queue.contents = []) (up : queue.shuttingDown = false)
  | drained (result : nodeQueuePop queue = (some (.error .notFound), queue)) (empty : queue.contents = [])
      (down : queue.shuttingDown = true)
  | taken (message : QueueMessage) (after : NodeQueue) (result : nodeQueuePop queue = (some (.ok message), after))
      (sound : Sound after) (contents : queue.contents = message :: after.contents)
      (down : after.shuttingDown = queue.shuttingDown)

theorem pop_cases (sound : Sound queue) : Popped queue := by
  obtain ⟨channel, represents⟩ := sound
  obtain ⟨contents, count, -, -, closed⟩ := id represents
  obtain ⟨same, next⟩ := pop_represents represents
  cases held : channel.items with
  | nil =>
    have none : queue.count = 0 := by simpa [held] using count
    rw [held] at contents
    cases down : queue.shuttingDown with
    | true => exact .drained (by simp [nodeQueuePop, down, none]) contents down
    | false => exact .empty (by simp [nodeQueuePop, down, none]) contents down
  | cons message rest =>
    have some : queue.count ≠ 0 := by
      rw [held, List.length_cons] at count
      omega
    have result : nodeQueuePop queue = (Option.some (.ok queue.items[queue.head]), (nodeQueuePop queue).2) := by
      simp [nodeQueuePop, some]
    rw [NodeQueue.enter, result] at same next
    simp only [Channel.attempt, held, answered, Outcome.taken.injEq] at same next
    refine .taken _ _ result ⟨_, next⟩ ?_ (next.closed.trans closed.symm)
    rw [contents, held, next.contents, same]

end Queue

section Steps
variable {sha256 : HashFunction} {server : NodeServer}

/-- What the threads can do, with what each step finds and leaves. -/
inductive Moves (sha256 : HashFunction) (server : NodeServer) : ServerEvent → Performed → NodeServer → Prop
  | loops (looping : server.receiver = .looping) (up : server.running = true) :
      Moves sha256 server .loop .silent { server with receiver := .accepting }
  | returns (looping : server.receiver = .looping) (down : server.running = false) :
      Moves sha256 server .loop .silent { server with receiver := .returned }
  | failsAccept (accepting : server.receiver = .accepting) :
      Moves sha256 server (.accept none) .silent { server with receiver := .looping }
  | accepts (accepting : server.receiver = .accepting) (clientFd : Int) (listening : server.listening = true)
      (fresh : clientFd ∉ server.descriptors) :
      Moves sha256 server (.accept (some clientFd)) .silent
        { server with receiver := .receiving clientFd, descriptors := clientFd :: server.descriptors }
  | failsReceive {clientFd : Int} (receiving : server.receiver = .receiving clientFd) :
      Moves sha256 server (.receive none) .silent
        { server with receiver := .looping, descriptors := server.descriptors.erase clientFd }
  | receives {clientFd : Int} (receiving : server.receiver = .receiving clientFd) (message : Message) :
      Moves sha256 server (.receive (some message)) .silent { server with receiver := .pushing ⟨message, clientFd⟩ }
  | sleepsFull {message : QueueMessage} (pushing : server.receiver = .pushing message) (woken : Nat)
      (full : server.queue.contents.length = nodeQueueCapacity) (up : server.queue.shuttingDown = false) :
      Moves sha256 server (.push woken) .silent { server with receiver := .sleeping message }
  | refused {message : QueueMessage} (pushing : server.receiver = .pushing message) (woken : Nat)
      (down : server.queue.shuttingDown = true) :
      Moves sha256 server (.push woken) .silent
        { server with receiver := .looping, descriptors := server.descriptors.erase message.clientFd }
  | queues {message : QueueMessage} (pushing : server.receiver = .pushing message) (woken : Nat) (after : NodeQueue)
      (up : server.queue.shuttingDown = false) (sound : Sound after) (contents : after.contents = server.queue.contents ++ [message])
      (stillUp : after.shuttingDown = false) (awake : server.workers.any Worker.isSleeping = false) :
      Moves sha256 server (.push woken) (.queued message) { server with queue := after, receiver := .looping }
  | queuesWaking {message : QueueMessage} (pushing : server.receiver = .pushing message) (woken : Nat) (after : NodeQueue)
      (up : server.queue.shuttingDown = false) (sound : Sound after) (contents : after.contents = server.queue.contents ++ [message])
      (stillUp : after.shuttingDown = false) (asleep : server.workers[woken]? = some .sleeping) :
      Moves sha256 server (.push woken) (.queued message)
        { server with queue := after, receiver := .looping, workers := server.workers.set woken .popping }
  | wakesReceiver {message : QueueMessage} (asleep : server.receiver = .sleeping message) :
      Moves sha256 server .wakeReceiver .silent { server with receiver := .pushing message }
  | sleepsEmpty {worker : Nat} (popping : server.workers[worker]? = some .popping) (empty : server.queue.contents = [])
      (up : server.queue.shuttingDown = false) :
      Moves sha256 server (.pop worker) .silent { server with workers := server.workers.set worker .sleeping }
  | leaves {worker : Nat} (popping : server.workers[worker]? = some .popping) (empty : server.queue.contents = [])
      (down : server.queue.shuttingDown = true) :
      Moves sha256 server (.pop worker) .silent { server with workers := server.workers.set worker .returned }
  | takes {worker : Nat} (popping : server.workers[worker]? = some .popping) (message : QueueMessage) (after : NodeQueue)
      (sound : Sound after) (contents : server.queue.contents = message :: after.contents)
      (down : after.shuttingDown = server.queue.shuttingDown) :
      Moves sha256 server (.pop worker) (.taken message)
        { server with queue := after, receiver := server.receiver.wake, workers := server.workers.set worker (.handling message) }
  | wakes {worker : Nat} (asleep : server.workers[worker]? = some .sleeping) :
      Moves sha256 server (.wake worker) .silent { server with workers := server.workers.set worker .popping }
  | handles {worker : Nat} {message : QueueMessage} (handling : server.workers[worker]? = some (.handling message)) (heap : Heap)
      (ended : (server.node.step sha256 (.message message.message heap)).syncing.length ≤ server.node.syncing.length) :
      Moves sha256 server (.handle worker heap) (.handled message (.message message.message heap))
        { server with
          node := server.node.step sha256 (.message message.message heap)
          workers := server.workers.set worker (.closing message) }
  | asks {worker : Nat} {message : QueueMessage} (handling : server.workers[worker]? = some (.handling message)) (heap : Heap)
      (behind : server.node.syncing.length < (server.node.step sha256 (.message message.message heap)).syncing.length) :
      Moves sha256 server (.handle worker heap) (.handled message (.message message.message heap))
        { server with
          node := server.node.step sha256 (.message message.message heap)
          syncing := server.syncing ++ [worker]
          workers := server.workers.set worker (.awaiting message) }
  | resumes {worker : Nat} {message : QueueMessage} (awaiting : server.workers[worker]? = some (.awaiting message))
      (reply : Option Bytes) (heap : Heap) :
      Moves sha256 server (.resume worker reply heap) (.resumed (.syncReply (server.syncing.idxOf worker) reply heap))
        { server with
          node := server.node.step sha256 (.syncReply (server.syncing.idxOf worker) reply heap)
          syncing := server.syncing.erase worker
          workers := server.workers.set worker (.closing message) }
  | closes {worker : Nat} {message : QueueMessage} (closing : server.workers[worker]? = some (.closing message)) :
      Moves sha256 server (.close worker) .silent
        { server with
          workers := server.workers.set worker .popping
          descriptors := server.descriptors.erase message.clientFd }
  | stopsRunning : Moves sha256 server .stopRunning .silent { server with running := false }
  | stopsQueue (down : server.running = false) :
      Moves sha256 server .stopQueue .silent
        { server with
          queue := nodeQueueShutdown server.queue
          receiver := server.receiver.wake
          workers := server.workers.map Worker.wake }
  | stopsListening (down : server.queue.shuttingDown = true) :
      Moves sha256 server .stopListening .silent { server with listening := false }

theorem perform_moves (sound : Sound server.queue) {event : ServerEvent} {performed : Performed} {next : NodeServer}
    (possible : server.perform sha256 event = some (performed, next)) : Moves sha256 server event performed next := by
  cases event with
  | loop =>
    simp only [perform] at possible
    split at possible
    next looping =>
      by_cases up : server.running = true
      · rw [if_pos up] at possible
        cases possible
        exact .loops looping up
      · rw [if_neg up] at possible
        cases possible
        exact .returns looping (by simpa using up)
    next => cases possible
  | accept result =>
    simp only [perform] at possible
    split at possible
    next accepting =>
      cases result with
      | none =>
        cases possible
        exact .failsAccept accepting
      | some clientFd =>
        simp only [NodeServer.accept] at possible
        split at possible
        next given =>
          simp only [Bool.and_eq_true, Bool.not_eq_true', List.contains_eq_mem, decide_eq_false_iff_not] at given
          cases possible
          exact .accepts accepting clientFd given.1 given.2
        next => cases possible
    next => cases possible
  | receive result =>
    simp only [perform] at possible
    split at possible
    next clientFd receiving =>
      cases possible
      cases result with
      | none => exact .failsReceive receiving
      | some message => exact .receives receiving message
    next => cases possible
  | push woken =>
    simp only [perform] at possible
    split at possible
    next message pushing =>
      cases push_cases sound message with
      | full result full up =>
        simp only [NodeServer.push, result, Option.some.injEq, Prod.mk.injEq] at possible
        obtain ⟨rfl, rfl⟩ := possible
        exact .sleepsFull pushing woken full up
      | down result down =>
        simp only [NodeServer.push, result, Option.some.injEq, Prod.mk.injEq] at possible
        obtain ⟨rfl, rfl⟩ := possible
        exact .refused pushing woken down
      | stored after result up sound contents stillUp =>
        simp only [NodeServer.push, result, signalWorker] at possible
        split at possible
        next asleep =>
          split at possible
          next found =>
            cases possible
            exact .queuesWaking pushing woken after up sound contents stillUp found
          next => cases possible
        next awake =>
          cases possible
          exact .queues pushing woken after up sound contents stillUp (by simpa using awake)
    next => cases possible
  | wakeReceiver =>
    simp only [perform] at possible
    split at possible
    next message asleep =>
      cases possible
      exact .wakesReceiver asleep
    next => cases possible
  | pop worker =>
    simp only [perform] at possible
    split at possible
    next popping =>
      simp only [Option.some.injEq, NodeServer.pop] at possible
      cases pop_cases sound with
      | empty result empty up =>
        simp only [result, Prod.mk.injEq] at possible
        obtain ⟨rfl, rfl⟩ := possible
        exact .sleepsEmpty popping empty up
      | drained result empty down =>
        simp only [result, Prod.mk.injEq] at possible
        obtain ⟨rfl, rfl⟩ := possible
        exact .leaves popping empty down
      | taken message after result sound contents down =>
        simp only [result, Prod.mk.injEq] at possible
        obtain ⟨rfl, rfl⟩ := possible
        exact .takes popping message after sound contents down
    next => cases possible
  | wake worker =>
    simp only [perform] at possible
    split at possible
    next asleep =>
      cases possible
      exact .wakes asleep
    next => cases possible
  | handle worker heap =>
    simp only [perform] at possible
    split at possible
    next message handling =>
      simp only [Option.some.injEq, handle] at possible
      split at possible
      next behind =>
        cases possible
        exact .asks handling heap behind
      next ended =>
        cases possible
        exact .handles handling heap (Nat.le_of_not_lt ended)
    next => cases possible
  | resume worker reply heap =>
    simp only [perform] at possible
    split at possible
    next message awaiting =>
      cases possible
      exact .resumes awaiting reply heap
    next => cases possible
  | close worker =>
    simp only [perform] at possible
    split at possible
    next message closing =>
      cases possible
      exact .closes closing
    next => cases possible
  | stopRunning =>
    cases possible
    exact .stopsRunning
  | stopQueue =>
    simp only [perform] at possible
    split at possible
    next => cases possible
    next down =>
      cases possible
      exact .stopsQueue (by simpa using down)
  | stopListening =>
    simp only [perform] at possible
    split at possible
    next down =>
      cases possible
      exact .stopsListening down
    next => cases possible

/-- An impossible event is as if it had not been there. -/
theorem step_moves (sound : Sound server.queue) (event : ServerEvent) :
    server.step sha256 event = (.silent, server) ∨
      Moves sha256 server event (server.step sha256 event).1 (server.step sha256 event).2 := by
  rw [step]
  cases possible : server.perform sha256 event with
  | none => exact .inl rfl
  | some outcome => exact .inr (perform_moves sound possible)

theorem moves_sound {event : ServerEvent} {performed : Performed} {next : NodeServer} (sound : Sound server.queue)
    (moves : Moves sha256 server event performed next) : Sound next.queue := by
  cases moves
  case queues sound _ _ _ => exact sound
  case queuesWaking sound _ _ _ => exact sound
  case takes sound _ _ => exact sound
  case stopsQueue => exact shutdown_sound sound
  all_goals exact sound

end Steps

section Connections

/-- The connections that a thread closes at the end of what it is at. -/
def heldByReceiver : Receiver → List Int
  | .receiving clientFd => [clientFd]
  | .pushing message => [message.clientFd]
  | .sleeping message => [message.clientFd]
  | _ => []

def heldByWorker : Worker → List Int
  | .handling message => [message.clientFd]
  | .awaiting message => [message.clientFd]
  | .closing message => [message.clientFd]
  | _ => []

/-- The connections that the threads and the queue hold. -/
def held (server : NodeServer) : List Int :=
  heldByReceiver server.receiver ++ server.queue.contents.map QueueMessage.clientFd ++ server.workers.flatMap heldByWorker

/-- What one worker holds is replaced. -/
theorem count_exchange {α β : Type} [DecidableEq β] (f : α → List β) {cells : List α} {index : Nat} {old : α}
    (found : cells[index]? = some old) (new : α) (item : β) :
    ((cells.set index new).flatMap f).count item + (f old).count item = (cells.flatMap f).count item + (f new).count item := by
  induction cells generalizing index with
  | nil => cases found
  | cons cell rest ih =>
    cases index with
    | zero =>
      cases found
      simp only [List.set_cons_zero, List.flatMap_cons, List.count_append]
      omega
    | succ index =>
      have later := ih (show rest[index]? = some old from found)
      simp only [List.set_cons_succ, List.flatMap_cons, List.count_append]
      omega

theorem exchange_same {α β : Type} (f : α → List β) {cells : List α} {index : Nat} {old new : α}
    (found : cells[index]? = some old) (same : f new = f old) : (cells.set index new).flatMap f = cells.flatMap f := by
  induction cells generalizing index with
  | nil => cases found
  | cons cell rest ih =>
    cases index with
    | zero =>
      cases found
      rw [List.set_cons_zero, List.flatMap_cons, List.flatMap_cons, same]
    | succ index => rw [List.set_cons_succ, List.flatMap_cons, List.flatMap_cons, ih (show rest[index]? = some old from found)]

/-- Each open connection has one holder. -/
structure Owned (server : NodeServer) : Prop where
  distinct : server.descriptors.Nodup
  held : ∀ clientFd, server.descriptors.count clientFd = (held server).count clientFd

theorem heldByReceiver_wake (receiver : Receiver) : heldByReceiver receiver.wake = heldByReceiver receiver := by
  cases receiver <;> rfl

theorem heldByWorker_wake (worker : Worker) : heldByWorker worker.wake = heldByWorker worker := by
  cases worker <;> rfl

theorem moves_owned {sha256 : HashFunction} {server next : NodeServer} {event : ServerEvent} {performed : Performed}
    (owned : Owned server) (moves : Moves sha256 server event performed next) : Owned next := by
  obtain ⟨distinct, balance⟩ := owned
  simp only [held, List.count_append] at balance
  refine ⟨?_, fun clientFd => ?_⟩
  · cases moves
    case accepts fresh => exact List.nodup_cons.mpr ⟨fresh, distinct⟩
    case failsReceive => exact distinct.erase _
    case refused => exact distinct.erase _
    case closes => exact distinct.erase _
    all_goals exact distinct
  · have before := balance clientFd
    -- a connection changes hands, is added with its holder or is closed by it
    cases moves with
    | loops same | returns same | failsAccept same =>
      rw [same] at before
      simp only [held, List.count_append]
      exact before
    | accepts accepting =>
      simp only [accepting, heldByReceiver, List.count_nil] at before
      simp only [held, heldByReceiver, List.count_append, List.count_cons, List.count_nil]
      omega
    | failsReceive receiving =>
      simp only [receiving, heldByReceiver, List.count_cons, List.count_nil] at before
      simp only [held, heldByReceiver, List.count_append, List.count_erase, List.count_nil]
      omega
    | receives same | sleepsFull same | wakesReceiver same =>
      rw [same] at before
      simp only [held, List.count_append]
      exact before
    | refused pushing =>
      simp only [pushing, heldByReceiver, List.count_cons, List.count_nil] at before
      simp only [held, heldByReceiver, List.count_append, List.count_erase, List.count_nil]
      omega
    | queues pushing _ after _ _ contents =>
      simp only [pushing, heldByReceiver] at before
      simp only [held, heldByReceiver, contents, List.map_append, List.map_cons, List.map_nil, List.count_append, List.count_nil]
      omega
    | queuesWaking pushing woken after _ _ contents _ asleep =>
      have exchange := count_exchange heldByWorker asleep .popping clientFd
      simp only [pushing, heldByReceiver] at before
      simp only [heldByWorker] at exchange
      simp only [held, heldByReceiver, contents, List.map_append, List.map_cons, List.map_nil, List.count_append, List.count_nil]
      omega
    | sleepsEmpty found | leaves found | wakes found | handles found | asks found | resumes found =>
      simp only [held, List.count_append]
      rw [exchange_same heldByWorker found]
      · exact before
      · rfl
    | takes popping message after _ contents =>
      have exchange := count_exchange heldByWorker popping (.handling message) clientFd
      simp only [contents, List.map_cons, List.count_cons] at before
      simp only [heldByWorker, List.count_cons, List.count_nil] at exchange
      simp only [held, heldByReceiver_wake, List.count_append]
      omega
    | closes closing =>
      have exchange := count_exchange heldByWorker closing .popping clientFd
      simp only [heldByWorker, List.count_cons, List.count_nil] at exchange
      simp only [held, List.count_append, List.count_erase]
      omega
    | stopsQueue =>
      simp only [held, List.count_append, heldByReceiver_wake, List.flatMap_map, heldByWorker_wake]
      exact before
    | stopsRunning | stopsListening =>
      simp only [held, List.count_append]
      exact before

end Connections

section Messages

/-- The message that a worker is about to handle. -/
def unhandledBy : Worker → List QueueMessage
  | .handling message => [message]
  | _ => []

theorem unhandledBy_wake (worker : Worker) : unhandledBy worker.wake = unhandledBy worker := by
  cases worker <;> rfl

def queued (past : ServerHistory) : List QueueMessage := past.filterMap queuedMessage
def taken (past : ServerHistory) : List QueueMessage := past.filterMap takenMessage
def handled (past : ServerHistory) : List QueueMessage := past.filterMap handledMessage
def handlerEvents (past : ServerHistory) : List NodeEvent := past.filterMap handlerEvent

/-- The history of a node's threads against their state. -/
structure Accounts (sha256 : HashFunction) (start : Node) (past : ServerHistory) (server : NodeServer) : Prop where
  sound : Sound server.queue
  owned : Owned server
  fifo : queued past = taken past ++ server.queue.contents
  handled : ∀ message, (taken past).count message =
    (handled past).count message + (server.workers.flatMap unhandledBy).count message
  node : server.node = start.run sha256 (handlerEvents past)

private theorem filterMap_next {α β : Type} (f : α → Option β) (past : List α) (entry : α) :
    (past ++ [entry]).filterMap f = past.filterMap f ++ (f entry).toList := by
  rw [List.filterMap_append]
  cases told : f entry with
  | none => simp [told]
  | some item => simp [told]

private theorem silent_accounts {sha256 : HashFunction} {start : Node} {past : ServerHistory} {server : NodeServer}
    (accounts : Accounts sha256 start past server) (event : ServerEvent) :
    Accounts sha256 start (past ++ [(event, .silent)]) server := by
  obtain ⟨sound, owned, fifo, balance, node⟩ := accounts
  simp only [queued, taken, handled, handlerEvents] at fifo balance node
  refine ⟨sound, owned, ?_, ?_, ?_⟩
  all_goals simp only [queued, taken, handled, handlerEvents, filterMap_next, queuedMessage, takenMessage, handledMessage,
    handlerEvent, Option.toList, List.append_nil]
  · exact fifo
  · exact balance
  · exact node

theorem moves_accounts {sha256 : HashFunction} {start : Node} {past : ServerHistory} {server next : NodeServer}
    {event : ServerEvent} {performed : Performed} (accounts : Accounts sha256 start past server)
    (moves : Moves sha256 server event performed next) : Accounts sha256 start (past ++ [(event, performed)]) next := by
  obtain ⟨sound, owned, fifo, balance, node⟩ := accounts
  refine ⟨moves_sound sound moves, moves_owned owned moves, ?_, fun message => ?_, ?_⟩
  · simp only [queued, taken, filterMap_next] at fifo ⊢
    cases moves
    case queues contents _ _ => simp [queuedMessage, takenMessage, fifo, contents]
    case queuesWaking contents _ _ => simp [queuedMessage, takenMessage, fifo, contents]
    case takes contents _ => simp [queuedMessage, takenMessage, fifo, contents]
    all_goals simpa [queuedMessage, takenMessage] using fifo
  · have before := balance message
    simp only [taken, handled, filterMap_next, List.count_append] at before ⊢
    cases moves with
    | takes popping current =>
      have exchange := count_exchange unhandledBy popping (.handling current) message
      simp only [unhandledBy, List.count_nil] at exchange
      simp only [takenMessage, handledMessage, Option.toList, List.count_nil]
      omega
    | @handles _ current handling =>
      have exchange := count_exchange unhandledBy handling (.closing current) message
      simp only [unhandledBy, List.count_nil] at exchange
      simp only [takenMessage, handledMessage, Option.toList, List.count_nil]
      omega
    | @asks _ current handling =>
      have exchange := count_exchange unhandledBy handling (.awaiting current) message
      simp only [unhandledBy, List.count_nil] at exchange
      simp only [takenMessage, handledMessage, Option.toList, List.count_nil]
      omega
    | queuesWaking _ _ _ _ _ _ _ found | sleepsEmpty found | leaves found | wakes found | resumes found | closes found =>
      simp only [takenMessage, handledMessage, Option.toList, List.count_nil]
      rw [exchange_same unhandledBy found]
      · exact before
      · rfl
    | stopsQueue =>
      simp only [takenMessage, handledMessage, Option.toList, List.count_nil, List.flatMap_map, unhandledBy_wake]
      exact before
    | _ => exact before
  · simp only [handlerEvents, filterMap_next, Node.run, List.foldl_append] at node ⊢
    cases moves
    all_goals simp only [handlerEvent, Option.toList, List.foldl_cons, List.foldl_nil, ← node]

end Messages

section Syncing
variable {sha256 : HashFunction} {node : Node}

private theorem proposal_syncing (message : Message) :
    Always (handleBlockProposal sha256 node message) fun handled => handled.node.syncing = node.syncing := by
  unfold handleBlockProposal
  split
  · exact .pure rfl
  refine .bind fun allocated => ?_
  split
  · exact .pure rfl
  refine .bind fun parsed => ?_
  split
  · exact .pure rfl
  refine .bind fun valid => ?_
  split
  · exact .pure rfl
  refine .bind fun appended => ?_
  split
  · exact .pure rfl
  · simp only
    split
    · exact .bind fun _ => .pure rfl
    · exact .bind fun _ => .pure rfl

/-- A handler ends, or it waits behind those that wait already. -/
def EndsOrWaits (node : Node) (handled : Handled) : Prop :=
  handled.node.syncing = node.syncing ∨ handled.node.syncing = node.syncing ++ [node.chain.count.toUInt64]

private theorem commit_syncing (message : Message) : Always (handleBlockCommit sha256 node message) (EndsOrWaits node) := by
  unfold handleBlockCommit
  refine .bind fun allocated => ?_
  split
  · exact .pure (.inl rfl)
  refine .bind fun parsed => ?_
  split
  · exact .pure (.inl rfl)
  simp only
  split
  · refine .bind fun valid => ?_
    split
    · exact .bind fun _ => .pure (.inl rfl)
    · exact .pure (.inl rfl)
  · split
    · exact .pure (.inl rfl)
    · exact .pure (.inr rfl)

theorem message_syncing (node : Node) (message : Message) : Always (node.handleMessage sha256 message) (EndsOrWaits node) := by
  have untouched {handled : Handled} (same : Untouched node handled) : EndsOrWaits node handled := .inl (by rw [same.node])
  unfold Node.handleMessage
  split
  · split
    · exact fun heap => .inl (proposal_syncing message heap)
    · exact .pure (.inl rfl)
  · exact fun heap => untouched ((queryChain_ensures node message).always heap)
  · exact .pure (.inl rfl)
  · exact fun heap => untouched ((queryBlock_ensures node message).always heap).1
  · exact fun heap => untouched ((syncRequest_ensures node message).always heap).1
  · exact commit_syncing message
  · exact .pure (.inl rfl)

theorem reply_syncing {slot : Nat} (inside : slot < node.syncing.length) (reply : Option Bytes) (heap : Heap) :
    (node.step sha256 (.syncReply slot reply heap)).syncing = node.syncing.eraseIdx slot := by
  have erased : Always (finishSync sha256 node slot reply) fun after => after.syncing = node.syncing.eraseIdx slot := by
    unfold finishSync
    split
    · exact .pure rfl
    · exact .pure rfl
    · refine .bind fun allocated => ?_
      split
      · exact .pure rfl
      · exact .bind fun _ => .pure rfl
  rw [Node.step, if_pos inside]
  exact erased heap

/-- The workers that wait are those whose commit handlers the node lists, in its order. -/
structure Matched (server : NodeServer) : Prop where
  length : server.syncing.length = server.node.syncing.length
  distinct : server.syncing.Nodup
  waiting : ∀ worker, worker ∈ server.syncing ↔ ∃ message, server.workers[worker]? = some (.awaiting message)

/-- A worker that neither begins nor ends to wait. -/
private theorem same_waiting {workers : List Worker} {worker : Nat} {old new : Worker} (found : workers[worker]? = some old)
    (idle : ∀ message, old ≠ .awaiting message) (still : ∀ message, new ≠ .awaiting message) (index : Nat) :
    (∃ message, (workers.set worker new)[index]? = some (.awaiting message)) ↔
      ∃ message, workers[index]? = some (.awaiting message) := by
  have inside := (List.getElem?_eq_some_iff.mp found).1
  by_cases same : worker = index
  · subst same
    simp only [List.getElem?_set_self inside, found, Option.some.injEq, idle, still]
  · simp only [List.getElem?_set_ne same]

theorem moves_matched {server next : NodeServer} {event : ServerEvent} {performed : Performed} (matched : Matched server)
    (moves : Moves sha256 server event performed next) : Matched next := by
  obtain ⟨length, distinct, waiting⟩ := matched
  cases moves with
  | queuesWaking _ _ _ _ _ _ _ found | sleepsEmpty found | leaves found | wakes found | closes found =>
    exact ⟨length, distinct, fun index => by
      rw [waiting, same_waiting found]
      · simp
      · simp⟩
  | takes found =>
    exact ⟨length, distinct, fun index => by
      rw [waiting, same_waiting found]
      · simp
      · simp⟩
  | @handles worker message found heap ended =>
    refine ⟨?_, distinct, fun index => ?_⟩
    · rcases message_syncing server.node message.message heap with same | longer
      · exact length.trans (congrArg List.length same.symm)
      · have more := congrArg List.length longer
        rw [List.length_append, List.length_singleton] at more
        exact absurd ended (Nat.not_le_of_lt (Nat.lt_of_succ_le (Nat.le_of_eq more.symm)))
    · rw [waiting, same_waiting found]
      · simp
      · simp
  | @asks worker message found heap behind =>
    have inside := (List.getElem?_eq_some_iff.mp found).1
    have fresh : worker ∉ server.syncing := by
      rw [waiting, found]
      simp
    refine ⟨?_, ?_, fun index => ?_⟩
    · rcases message_syncing server.node message.message heap with same | longer
      · exact absurd behind (Nat.not_lt_of_le (Nat.le_of_eq (congrArg List.length same)))
      · have more := congrArg List.length longer
        rw [List.length_append, ← length] at more
        exact List.length_append.trans more.symm
    · refine List.nodup_append.mpr ⟨distinct, List.nodup_singleton _, fun other member last newest same => ?_⟩
      rw [List.mem_singleton] at newest
      exact fresh (newest ▸ same ▸ member)
    · rw [List.mem_append, List.mem_singleton, waiting]
      by_cases same : worker = index
      · subst same
        simp [List.getElem?_set_self inside]
      · simp [List.getElem?_set_ne same, Ne.symm same]
  | @resumes worker message found reply heap =>
    have inside := (List.getElem?_eq_some_iff.mp found).1
    have member : worker ∈ server.syncing := (waiting worker).mpr ⟨message, found⟩
    have slot : server.syncing.idxOf worker < server.node.syncing.length := length ▸ List.idxOf_lt_length_of_mem member
    refine ⟨?_, distinct.erase _, fun index => ?_⟩
    · simp only [reply_syncing slot, List.length_eraseIdx_of_lt slot, List.length_erase_of_mem member, length]
    · rw [distinct.mem_erase_iff, waiting]
      by_cases same : worker = index
      · subst same
        simp [List.getElem?_set_self inside]
      · simp [List.getElem?_set_ne same, Ne.symm same]
  | stopsQueue =>
    refine ⟨length, distinct, fun index => ?_⟩
    simp only [waiting, List.getElem?_map]
    cases server.workers[index]? with
    | none => simp
    | some worker => cases worker <;> simp [Worker.wake]
  | _ => exact ⟨length, distinct, waiting⟩

end Syncing

section WakeUps
variable {sha256 : HashFunction}

/-- What is summed up over the workers, when one of them changes. -/
theorem sum_exchange (weight : Worker → Nat) {workers : List Worker} {worker : Nat} {old : Worker}
    (found : workers[worker]? = some old) (new : Worker) :
    ((workers.set worker new).map weight).sum + weight old = (workers.map weight).sum + weight new := by
  induction workers generalizing worker with
  | nil => cases found
  | cons first rest ih =>
    cases worker with
    | zero =>
      cases found
      simp only [List.set_cons_zero, List.map_cons, List.sum_cons]
      omega
    | succ worker =>
      have later := ih (show rest[worker]? = some old from found)
      simp only [List.set_cons_succ, List.map_cons, List.sum_cons]
      omega

def isPopping : Worker → Nat
  | .popping => 1
  | _ => 0

/-- The workers that are awake and about to try the queue. -/
def poppers (server : NodeServer) : Nat := (server.workers.map isPopping).sum

/-- Who sleeps has reason to, and is woken when the reason is gone. -/
structure Alert (server : NodeServer) : Prop where
  sized : server.workers.length = nodeWorkerCount
  stopped : server.queue.shuttingDown = true → server.running = false
  ordered : server.listening = false → server.queue.shuttingDown = true
  enough : Worker.sleeping ∈ server.workers → server.queue.contents.length ≤ poppers server
  rested : server.queue.shuttingDown = true → Worker.sleeping ∉ server.workers
  full : ∀ message, server.receiver = .sleeping message →
    server.queue.contents.length = nodeQueueCapacity ∧ server.queue.shuttingDown = false
  gone : Worker.returned ∈ server.workers → server.queue.contents = [] ∧ server.queue.shuttingDown = true
  left : server.receiver = .returned → server.running = false

theorem start_alert (nodeId : Nat) (chain : Blockchain) : Alert (NodeServer.start nodeId chain) := by
  constructor <;> simp [NodeServer.start, nodeQueueInit]

private theorem wake_awake (receiver : Receiver) (message : QueueMessage) : receiver.wake ≠ .sleeping message := by
  cases receiver <;> simp [Receiver.wake]

private theorem wake_returned (receiver : Receiver) : receiver.wake = .returned ↔ receiver = .returned := by
  cases receiver <;> simp [Receiver.wake]

theorem moves_alert {server next : NodeServer} {event : ServerEvent} {performed : Performed} (alert : Alert server)
    (moves : Moves sha256 server event performed next) : Alert next := by
  obtain ⟨sized, stopped, ordered, enough, rested, full, gone, left⟩ := alert
  -- another worker, or one that has just changed
  have member {state new : Worker} {worker : Nat} (inside : state ∈ server.workers.set worker new) (other : state ≠ new) :
      state ∈ server.workers := (List.mem_or_eq_of_mem_set inside).resolve_right other
  have resized {worker : Nat} {new : Worker} : (server.workers.set worker new).length = nodeWorkerCount :=
    List.length_set.trans sized
  cases moves with
  | loops | failsAccept | accepts | failsReceive | receives | refused | wakesReceiver =>
    exact ⟨sized, stopped, ordered, enough, rested, by simp, gone, by simp⟩
  | returns _ down => exact ⟨sized, stopped, ordered, enough, rested, by simp, gone, fun _ => down⟩
  | sleepsFull _ _ whole up => exact ⟨sized, stopped, ordered, enough, rested, fun _ _ => ⟨whole, up⟩, gone, by simp⟩
  | queues _ _ after up _ contents stillUp awake =>
    have never {claim : Prop} (down : after.shuttingDown = true) : claim := absurd (stillUp.symm.trans down) (by decide)
    have listening {claim : Prop} (down : server.queue.shuttingDown = true) : claim := absurd (up.symm.trans down) (by decide)
    refine ⟨sized, never, fun closed => listening (ordered closed), fun asleep => ?_, never, by simp,
      fun member => listening (gone member).2, by simp⟩
    have sleeper : server.workers.any Worker.isSleeping = true := List.any_eq_true.mpr ⟨_, asleep, rfl⟩
    exact absurd (awake.symm.trans sleeper) (by decide)
  | queuesWaking _ woken after up _ contents stillUp found =>
    have never {claim : Prop} (down : after.shuttingDown = true) : claim := absurd (stillUp.symm.trans down) (by decide)
    have listening {claim : Prop} (down : server.queue.shuttingDown = true) : claim := absurd (up.symm.trans down) (by decide)
    refine ⟨resized, never, fun closed => listening (ordered closed), fun asleep => ?_, never, by simp,
      fun inside => listening (gone (member inside (by simp))).2, by simp⟩
    have before := enough (member asleep (by simp))
    have exchange := sum_exchange isPopping found .popping
    simp only [poppers, isPopping] at before exchange
    simp only [poppers, contents, List.length_append, List.length_singleton]
    omega
  | sleepsEmpty found empty up =>
    refine ⟨resized, stopped, ordered, fun _ => ?_, fun down => absurd (up.symm.trans down) (by decide), full,
      fun inside => gone (member inside (by simp)), left⟩
    rw [empty]
    exact Nat.zero_le _
  | leaves found empty down =>
    exact ⟨resized, stopped, ordered, fun asleep => absurd (member asleep (by simp)) (rested down),
      fun _ asleep => rested down (member asleep (by simp)), full, fun _ => ⟨empty, down⟩, left⟩
  | takes found message after _ contents same =>
    refine ⟨resized, fun down => stopped (same ▸ down), fun closed => same.trans (ordered closed), fun asleep => ?_,
      fun down asleep => rested (same ▸ down) (member asleep (by simp)), fun _ asleep => absurd asleep (wake_awake _ _),
      fun inside => ?_, fun returned => left ((wake_returned _).mp returned)⟩
    · have before := enough (member asleep (by simp))
      have exchange := sum_exchange isPopping found (.handling message)
      simp only [poppers, isPopping, contents, List.length_cons] at before exchange
      simp only [poppers]
      omega
    · have none := (gone (member inside (by simp))).1
      rw [contents] at none
      cases none
  | wakes found | closes found =>
    refine ⟨resized, stopped, ordered, fun asleep => ?_, fun down asleep => rested down (member asleep (by simp)), full,
      fun inside => gone (member inside (by simp)), left⟩
    have before := enough (member asleep (by simp))
    have exchange := sum_exchange isPopping found .popping
    simp only [poppers, isPopping] at before exchange
    simp only [poppers]
    omega
  | @handles _ message found | @resumes _ message found =>
    refine ⟨resized, stopped, ordered, fun asleep => ?_, fun down asleep => rested down (member asleep (by simp)), full,
      fun inside => gone (member inside (by simp)), left⟩
    have before := enough (member asleep (by simp))
    have exchange := sum_exchange isPopping found (.closing message)
    simp only [poppers, isPopping] at before exchange
    simp only [poppers]
    omega
  | @asks _ message found =>
    refine ⟨resized, stopped, ordered, fun asleep => ?_, fun down asleep => rested down (member asleep (by simp)), full,
      fun inside => gone (member inside (by simp)), left⟩
    have before := enough (member asleep (by simp))
    have exchange := sum_exchange isPopping found (.awaiting message)
    simp only [poppers, isPopping] at before exchange
    simp only [poppers]
    omega
  | stopsRunning => exact ⟨sized, fun _ => rfl, ordered, enough, rested, full, gone, fun _ => rfl⟩
  | stopsQueue down =>
    have awake : Worker.sleeping ∉ server.workers.map Worker.wake := by
      intro asleep
      obtain ⟨worker, _, same⟩ := List.mem_map.mp asleep
      cases worker <;> cases same
    refine ⟨(List.length_map _).trans sized, fun _ => down, fun _ => rfl, fun asleep => absurd asleep awake, fun _ => awake,
      fun _ asleep => absurd asleep (wake_awake _ _), fun inside => ?_, fun returned => left ((wake_returned _).mp returned)⟩
    obtain ⟨worker, member, same⟩ := List.mem_map.mp inside
    have returned : worker = .returned := by cases worker <;> simp [Worker.wake] at same ⊢
    exact ⟨(gone (returned ▸ member)).1, rfl⟩
  | stopsListening down => exact ⟨sized, stopped, fun _ => down, enough, rested, full, gone, left⟩

end WakeUps

section Work

variable {sha256 : HashFunction} {server : NodeServer}

end Work

section Runs
variable (sha256 : HashFunction) (nodeId : Nat) (chain : Blockchain)

/-- All that holds after some steps of the threads of a node. -/
structure Reached (past : ServerHistory) (server : NodeServer) : Prop where
  accounts : Accounts sha256 ⟨nodeId, chain, []⟩ past server
  matched : Matched server
  alert : Alert server

theorem start_reached : Reached sha256 nodeId chain [] (NodeServer.start nodeId chain) := by
  refine ⟨⟨init_sound, ⟨List.nodup_nil, fun _ => rfl⟩, rfl, fun _ => rfl, rfl⟩, ⟨rfl, List.nodup_nil, fun worker => ?_⟩,
    start_alert nodeId chain⟩
  simp [NodeServer.start, List.getElem?_replicate]

/-- The record of some steps and the state after them. -/
def threads (events : List ServerEvent) : ServerHistory × NodeServer :=
  trace (NodeServer.step sha256) (NodeServer.start nodeId chain) events

theorem threads_reached (events : List ServerEvent) :
    Reached sha256 nodeId chain (threads sha256 nodeId chain events).1 (threads sha256 nodeId chain events).2 := by
  refine trace_preserves (start_reached sha256 nodeId chain) (fun past server event reached => ?_) events
  obtain ⟨accounts, matched, alert⟩ := reached
  have stepped : _ ∨ Moves sha256 server event _ _ := step_moves accounts.sound event
  rcases stepped with still | moves
  · rw [still]
    exact ⟨silent_accounts accounts event, matched, alert⟩
  · exact ⟨moves_accounts accounts moves, moves_matched matched moves, moves_alert alert moves⟩

/-- In every interleaving the open client connections are those that the receiver, the queue and the workers
hold, each held once. So a close never hits a connection of somebody else, and none is forgotten. -/
theorem connections_have_one_holder (events : List ServerEvent) :
    let server := (threads sha256 nodeId chain events).2
    server.descriptors.Nodup ∧ server.descriptors.Perm (held server) := by
  intro server
  have owned := (threads_reached sha256 nodeId chain events).accounts.owned
  exact ⟨owned.distinct, List.perm_iff_count.mpr owned.held⟩

private theorem none_unhandled {server : NodeServer} (returned : ∀ worker ∈ server.workers, worker = .returned) :
    server.workers.flatMap unhandledBy = [] := by
  refine List.flatMap_eq_nil_iff.mpr fun worker member => ?_
  rw [returned worker member]
  rfl

private theorem none_waiting {server : NodeServer} (alert : Alert server)
    (returned : ∀ worker ∈ server.workers, worker = .returned) : server.queue.contents = [] := by
  have some : 0 < server.workers.length := by
    rw [alert.sized]
    decide
  have member := List.getElem_mem some
  exact (alert.gone (returned _ member ▸ member)).1

private theorem messages_handled (events : List ServerEvent) :
    let past := (threads sha256 nodeId chain events).1
    let server := (threads sha256 nodeId chain events).2
    (taken past).Perm (handled past ++ server.workers.flatMap unhandledBy) ∧
      ((∀ worker ∈ server.workers, worker = .returned) → (queued past).Perm (handled past)) := by
  intro past server
  obtain ⟨accounts, -, alert⟩ := threads_reached sha256 nodeId chain events
  have once : (taken past).Perm (handled past ++ server.workers.flatMap unhandledBy) :=
    List.perm_iff_count.mpr fun message => (accounts.handled message).trans List.count_append.symm
  refine ⟨once, fun returned => ?_⟩
  rw [accounts.fifo, none_waiting alert returned, List.append_nil]
  rwa [none_unhandled returned, List.append_nil] at once

/-- In every interleaving the workers take the queued messages in their order, and each message is handled once:
it waits in the queue, a worker is about to handle it, or it was handled. Once the workers have returned
all messages that were queued have been handled. -/
theorem messages_are_handled_once (events : List ServerEvent) :
    let past := (threads sha256 nodeId chain events).1
    let server := (threads sha256 nodeId chain events).2
    queued past = taken past ++ server.queue.contents ∧
      (taken past).Perm (handled past ++ server.workers.flatMap unhandledBy) ∧
      ((∀ worker ∈ server.workers, worker = .returned) → (queued past).Perm (handled past)) :=
  ⟨(threads_reached sha256 nodeId chain events).accounts.fifo, messages_handled sha256 nodeId chain events⟩

private theorem run_grows {start : Node} (valid : Validation.ValidChain sha256 start.chain.blocks) (events : List NodeEvent) :
    start.chain.blocks <+: (start.run sha256 events).chain.blocks := by
  induction events generalizing start with
  | nil => exact List.prefix_rfl
  | cons event rest ih =>
    obtain ⟨next, grown⟩ := NodeSafety.step_grows valid event
    exact grown.trans (ih next)

/-- In every interleaving the threads do to the node what some sequence of its handlers' critical sections does, and
each worker that gets a sync reply continues its own handler. So a valid chain stays valid and only grows. -/
theorem threads_keep_the_chain (start : (validateBlockchain sha256 chain.blocks).result = .ok ()) (earlier later : List ServerEvent) :
    let before := (threads sha256 nodeId chain earlier).2
    let after := (threads sha256 nodeId chain (earlier ++ later)).2
    after.node = (⟨nodeId, chain, []⟩ : Node).run sha256 (handlerEvents (threads sha256 nodeId chain (earlier ++ later)).1) ∧
      (∀ worker message, after.workers[worker]? = some (.awaiting message) →
        after.syncing.idxOf worker < after.node.syncing.length) ∧
      (validateBlockchain sha256 after.node.chain.blocks).result = .ok () ∧
      before.node.chain.blocks <+: after.node.chain.blocks := by
  intro before after
  have valid := (Validation.blockchain_ok sha256).mp start
  have node := (threads_reached sha256 nodeId chain earlier).accounts.node
  obtain ⟨accounts, matched, -⟩ := threads_reached sha256 nodeId chain (earlier ++ later)
  refine ⟨accounts.node, fun worker message found => ?_, ?_, ?_⟩
  · rw [← matched.length]
    exact List.idxOf_lt_length_of_mem ((matched.waiting worker).mpr ⟨message, found⟩)
  · rw [accounts.node]
    exact (Validation.blockchain_ok sha256).mpr (NodeSafety.run_valid valid _)
  · have history : handlerEvents (threads sha256 nodeId chain (earlier ++ later)).1 =
        handlerEvents (threads sha256 nodeId chain earlier).1 ++
          handlerEvents (trace (NodeServer.step sha256) before later).1 := by
      rw [threads, trace_append]
      exact List.filterMap_append
    have continued (start : Node) (first second : List NodeEvent) :
        start.run sha256 (first ++ second) = (start.run sha256 first).run sha256 second := List.foldl_append
    rw [accounts.node, history, node, continued]
    exact run_grows sha256 (NodeSafety.run_valid valid _) _

theorem idle_threads_keep_genesis :
    (validateBlockchain sha256Bytes (threads sha256Bytes 1 (genesisNode 1).chain ([.loop] ++ [.pop 0])).2.node.chain.blocks).result = .ok () :=
  (threads_keep_the_chain sha256Bytes 1 (genesisNode 1).chain Validation.genesis_accepted [.loop] [.pop 0]).2.2.1

/-- No wake-up is lost in any interleaving. While a worker sleeps, there is an awake one for each message that waits;
while a message waits, some worker is neither asleep nor gone; the receiver sleeps only on a full queue; and after
the queue's shutdown nobody sleeps. -/
theorem no_wakeup_is_lost (events : List ServerEvent) :
    let server := (threads sha256 nodeId chain events).2
    (Worker.sleeping ∈ server.workers → server.queue.contents.length ≤ poppers server) ∧
      (server.queue.contents ≠ [] → ∃ worker ∈ server.workers, worker ≠ .sleeping ∧ worker ≠ .returned) ∧
      (∀ message, server.receiver = .sleeping message → server.queue.contents.length = nodeQueueCapacity) ∧
      (server.queue.shuttingDown = true → Worker.sleeping ∉ server.workers ∧ ∀ message, server.receiver ≠ .sleeping message) := by
  intro server
  have alert := (threads_reached sha256 nodeId chain events).alert
  refine ⟨alert.enough, fun waiting => ?_, fun message asleep => (alert.full message asleep).1,
    fun down => ⟨alert.rested down, fun message asleep => absurd ((alert.full message asleep).2.symm.trans down) (by decide)⟩⟩
  by_contra idle
  have lazy {worker : Worker} (member : worker ∈ server.workers) : worker = .sleeping := by
    by_contra awake
    refine idle ⟨worker, member, awake, fun returned => waiting (alert.gone (returned ▸ member)).1⟩
  have some : 0 < server.workers.length := by
    rw [alert.sized]
    decide
  have nobody : poppers server = 0 := by
    refine List.sum_eq_zero_iff_forall_eq_nat.mpr fun count member => ?_
    obtain ⟨worker, inside, rfl⟩ := List.mem_map.mp member
    rw [lazy inside]
    rfl
  have asleep := List.getElem_mem some
  have enough := alert.enough (lazy asleep ▸ asleep)
  rw [nobody] at enough
  exact waiting (List.eq_nil_of_length_eq_zero (Nat.le_zero.mp enough))

end Runs

end ProcessChain.Proofs.NodeServer
