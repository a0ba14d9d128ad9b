import ProcessChain.Node
import ProcessChain.Miner

/-! A rejected proposal from the end of the mining attempt on. The coordinator replies
on the connection of the proposal, where the mining thread receives the reply and frees
it. With no other message delivered, only what the communication thread still has in
hand can move the view before the next attempt. -/

namespace ProcessChain
open Lib Lib.FailStop

variable (sha256 : HashFunction)

/-- `query_node` when node 0 can be reached. -/
def queryNode (coordinator : Node) (type : MessageType) (payload : Bytes) : HeapM (Option Bytes) := do
  return (← coordinator.handleMessage sha256 ⟨type.code, 0, payload⟩).reply.map Message.payload

namespace Miner

/-- The end of an attempt with the coordinator's side of the proposal. -/
def exchangeProposal (miner : Miner) (coordinator : Node) : HeapM (Miner × Node × Option Message) := do
  let (after, proposal) ← miner.finishAttempt true
  match proposal with
  | none => return (after, coordinator, none)
  | some proposal =>
    let handled ← coordinator.handleMessage sha256 proposal
    return (after, handled.node, handled.reply)

/-- What the communication thread does next without a new message. -/
def continueMessage (miner : Miner) (coordinator : Node) : HeapM Miner :=
  match miner.communication with
  | .idle => return miner
  | .committing _ _ => return miner.finishCommit
  | .resyncing .askHeight => do
    let reply ← queryNode sha256 coordinator .queryHeight []
    return miner.continueResync (resyncHeight reply) .communication
  | .resyncing (.askBlock height) => do
    let reply ← queryNode sha256 coordinator .queryBlock (blockQuery height)
    return miner.continueResync (← resyncBlock sha256 reply) .communication
  | .resyncing _ => return miner.finishResync .communication

/-- The longest way to the end of a message: the height, the block and the view. -/
def finishMessage (miner : Miner) (coordinator : Node) : HeapM Miner := do
  let first ← miner.continueMessage sha256 coordinator
  let second ← first.continueMessage sha256 coordinator
  second.continueMessage sha256 coordinator

end Miner
end ProcessChain
