import ProcessChain.NodeQueue

/-! The ring refines a bounded channel: the same tries succeed with the same
messages, and the ring holds what the channel holds. -/

namespace ProcessChain.Proofs.NodeQueue
open Lib

def asked : QueueCall → Attempt QueueMessage
  | .push message => .put message
  | .pop => .take
  | .shutdown => .close

def answered : QueueReturn → Outcome QueueMessage
  | .waiting => .blocked
  | .pushed (.ok _) => .stored
  | .pushed (.error _) => .refused
  | .popped (.ok message) => .taken message
  | .popped (.error _) => .drained
  | .done => .closed

structure Represents (queue : NodeQueue) (channel : Channel QueueMessage) : Prop where
  contents : queue.contents = channel.items
  count : queue.count = channel.items.length
  bounded : channel.items.length ≤ nodeQueueCapacity
  tail : queue.tail = Fin.ofNat nodeQueueCapacity (queue.head + channel.items.length)
  closed : queue.shuttingDown = channel.closed

theorem init_represents : Represents nodeQueueInit .empty :=
  ⟨rfl, rfl, Nat.zero_le _, rfl, rfl⟩

private theorem advance (position : Fin nodeQueueCapacity) (count : Nat) :
    Fin.ofNat nodeQueueCapacity (Fin.ofNat nodeQueueCapacity (position + 1) + count) =
      Fin.ofNat nodeQueueCapacity (position + (count + 1)) := by
  apply Fin.ext
  simp only [Fin.val_ofNat, Nat.mod_add_mod]
  congr 1
  omega

variable {queue : NodeQueue} {channel : Channel QueueMessage}

theorem push_represents (represents : Represents queue channel) (message : QueueMessage) :
    answered (queue.enter (.push message)).1 = (channel.attempt nodeQueueCapacity (.put message)).1 ∧
      Represents (queue.enter (.push message)).2 (channel.attempt nodeQueueCapacity (.put message)).2 := by
  have kept := represents
  obtain ⟨contents, count, bounded, tail, closed⟩ := represents
  simp only [NodeQueue.enter, nodeQueuePush, Channel.attempt, closed]
  cases down : channel.closed with
  | true => simp [answered, kept]
  | false =>
    by_cases full : channel.items.length = nodeQueueCapacity
    · have whole : queue.count = nodeQueueCapacity := by omega
      simp [answered, whole, full, kept]
    · have room : channel.items.length < nodeQueueCapacity := by omega
      have unfilled : queue.count ≠ nodeQueueCapacity := by omega
      simp only [unfilled, room, false_and, if_false, if_true, Bool.false_eq_true]
      refine ⟨rfl, ?_, ?_, ?_, ?_, rfl⟩
      · have sized : (queue.count + 1).toNat = channel.items.length + 1 := by omega
        simp only [NodeQueue.contents, count, Int.toNat_natCast] at contents
        simp only [NodeQueue.contents, sized]
        rw [window_write queue.items room message tail, contents]
      · simp only [List.length_append, List.length_singleton, count, Nat.cast_add, Nat.cast_one]
      · simpa using Nat.succ_le_of_lt room
      · apply Fin.ext
        simp only [tail, List.length_append, List.length_singleton, Fin.val_ofNat, Nat.mod_add_mod]
        rfl

theorem pop_represents (represents : Represents queue channel) :
    answered (queue.enter .pop).1 = (channel.attempt nodeQueueCapacity .take).1 ∧
      Represents (queue.enter .pop).2 (channel.attempt nodeQueueCapacity .take).2 := by
  have kept := represents
  obtain ⟨contents, count, bounded, tail, closed⟩ := represents
  simp only [NodeQueue.enter, nodeQueuePop, Channel.attempt, closed]
  cases held : channel.items with
  | nil =>
    have none : queue.count = 0 := by simpa [held] using count
    cases down : channel.closed with
    | true => simp [answered, none, kept]
    | false => simp [answered, none, kept]
  | cons item rest =>
    rw [held] at contents count bounded tail
    simp only [List.length_cons] at count bounded tail
    have some : queue.count ≠ 0 := by omega
    have sized : queue.count.toNat = rest.length + 1 := by omega
    have later : (queue.count - 1).toNat = rest.length := by omega
    rw [NodeQueue.contents, sized, window_advance, List.cons.injEq] at contents
    have first : queue.items[queue.head] = item := by
      have same : Fin.ofNat nodeQueueCapacity queue.head = queue.head := Fin.ext (Nat.mod_eq_of_lt queue.head.isLt)
      simp only [← contents.1, same]
    simp only [some, false_and, if_false]
    refine ⟨by rw [answered, first], ?_, ?_, ?_, ?_, rfl⟩
    · simp only [NodeQueue.contents, later, Fin.val_ofNat, window_mod, contents.2]
    · simp only
      omega
    · simp only
      omega
    · simp only [tail, advance]

theorem enter_represents (queue : NodeQueue) (channel : Channel QueueMessage) (call : QueueCall)
    (represents : Represents queue channel) :
    answered (queue.enter call).1 = (channel.attempt nodeQueueCapacity (asked call)).1 ∧
      Represents (queue.enter call).2 (channel.attempt nodeQueueCapacity (asked call)).2 := by
  cases call with
  | push message => exact push_represents represents message
  | pop => exact pop_represents represents
  | shutdown =>
    obtain ⟨contents, count, bounded, tail, _⟩ := represents
    exact ⟨rfl, contents, count, bounded, tail, rfl⟩

/-- The tries of a run as tries on a channel. -/
def channelPast (history : QueueHistory) : Channel.Past QueueMessage := history.map (Prod.map asked answered)

theorem stored_channelPast (history : QueueHistory) : Channel.stored (channelPast history) = accepted history := by
  simp only [Channel.stored, channelPast, accepted, List.filterMap_map]
  apply List.filterMap_congr
  intro entry _
  obtain ⟨call, result⟩ := entry
  cases call <;> cases result with
  | waiting => rfl
  | done => rfl
  | pushed result => cases result <;> rfl
  | popped result => cases result <;> rfl

theorem taken_channelPast (history : QueueHistory) : Channel.taken (channelPast history) = popped history := by
  simp only [Channel.taken, channelPast, popped, List.filterMap_map]
  apply List.filterMap_congr
  intro entry _
  obtain ⟨call, result⟩ := entry
  cases result with
  | waiting => rfl
  | done => rfl
  | pushed result => cases result <;> rfl
  | popped result => cases result <;> rfl

theorem trace_represents (calls : List QueueCall) :
    channelPast (trace NodeQueue.enter nodeQueueInit calls).1 =
        (trace (Channel.attempt nodeQueueCapacity) .empty (calls.map asked)).1 ∧
      Represents (trace NodeQueue.enter nodeQueueInit calls).2
        (trace (Channel.attempt nodeQueueCapacity) .empty (calls.map asked)).2 :=
  trace_simulates enter_represents init_represents calls

/-- In every run of the queue the pops return the pushed messages in order, the
ring holds the rest, and a shutdown lets the workers empty it and nobody fill it. -/
theorem node_queue_is_bounded_fifo (calls : List QueueCall) :
    let history := (trace NodeQueue.enter nodeQueueInit calls).1
    let queue := (trace NodeQueue.enter nodeQueueInit calls).2
    accepted history = popped history ++ queue.contents ∧
      0 ≤ queue.count ∧ queue.count ≤ nodeQueueCapacity ∧
      (queue.tail : Int) = ((queue.head : Int) + queue.count) % nodeQueueCapacity ∧
      (∀ earlier later, history = earlier ++ later → (.shutdown, .done) ∈ earlier → accepted later = []) ∧
      ∀ earlier later, history = earlier ++ (.pop, .popped (.error .notFound)) :: later →
        accepted earlier = popped earlier := by
  obtain ⟨past, represents⟩ := trace_represents calls
  have ordered := Channel.ordered_trace nodeQueueCapacity (calls.map asked)
  refine ⟨?_, ?_, ?_, ?_, ?_, ?_⟩
  · rw [← stored_channelPast, ← taken_channelPast, past, represents.contents]
    exact ordered.items
  · rw [represents.count]
    exact Int.natCast_nonneg _
  · rw [represents.count]
    exact Int.ofNat_le.mpr represents.bounded
  · rw [represents.tail, represents.count, Fin.val_ofNat, Int.natCast_mod, Nat.cast_add]
  · intro earlier later split down
    have divided : (trace (Channel.attempt nodeQueueCapacity) .empty (calls.map asked)).1 =
        channelPast earlier ++ channelPast later := by
      rw [← past, split]
      exact List.map_append
    have closing : (.close, .closed) ∈ channelPast earlier := List.mem_map.mpr ⟨_, down, rfl⟩
    rw [← stored_channelPast]
    exact Channel.stored_after_close divided closing
  · intro earlier later split
    have divided : (trace (Channel.attempt nodeQueueCapacity) .empty (calls.map asked)).1 =
        channelPast earlier ++ (.take, .drained) :: channelPast later := by
      rw [← past, split]
      exact List.map_append
    rw [← stored_channelPast, ← taken_channelPast]
    exact Channel.drained_empty divided

end ProcessChain.Proofs.NodeQueue
