import ProcessChain.Node
import ProcessChain.Miner

/-! The running system: node 0, its followers and the miners. Everything that was
ever sent is remembered, and a message may arrive late, out of order, several
times or never, so the messages still under way are simply all messages sent.
Accepted submissions and committed blocks are recorded for the statements about
whole runs; no process reads these records. -/

namespace ProcessChain
open Lib Lib.FailStop

variable {φ μ : Type} [DecidableEq φ] [DecidableEq μ]

structure Network (φ μ : Type) where
  coordinator : Node
  followers : φ → Node
  miners : μ → Miner
  /-- Payloads of `broadcast_commit`. -/
  commits : List Bytes
  /-- Payloads of `handle_sync_request`. -/
  syncReplies : List Bytes
  /-- Proposals of the miners. -/
  proposals : List (μ × Message)
  /-- Submissions that were answered "OK". -/
  acknowledged : μ → List CString
  /-- Blocks appended to the coordinator's chain, with the miner that proposed them. -/
  committed : List (Option μ × Block)
  /-- Indices of the blocks whose commit has cleaned a miner's pool. -/
  cleaned : μ → List UInt64

inductive Action (φ μ : Type)
  /-- Any message but a commit reaches the coordinator. -/
  | toCoordinator (message : Message) (heap : Heap)
  /-- A proposal of a miner reaches the coordinator. -/
  | deliverProposal (position : Nat) (heap : Heap)
  /-- Any message but a commit reaches a follower. -/
  | toFollower (follower : φ) (message : Message) (heap : Heap)
  | deliverCommit (follower : φ) (position : Nat) (heap : Heap)
  /-- A follower that waits gets one of the replies, or fails to get one. -/
  | deliverSync (follower : φ) (slot : Nat) (position : Option Nat) (heap : Heap)
  /-- Any message but a commit reaches a miner. -/
  | toMiner (miner : μ) (message : Message) (heap : Heap)
  | deliverCommitToMiner (miner : μ) (position : Nat) (heap : Heap)
  | finishCommit (miner : μ)
  /-- A thread of a miner asks for the height or a block; the query may fail. -/
  | query (miner : μ) (thread : Thread) (answered : Bool) (nodeHeap heap : Heap)
  | finishResync (miner : μ) (thread : Thread)
  | startAttempt (miner : μ)
  | buildAttempt (miner : μ) (timestamp nonce : UInt64) (heap : Heap)
  | finishAttempt (miner : μ) (mined : Bool) (heap : Heap)

/-- The blocks a handler has appended. -/
def appendedBlocks (before after : Node) : List Block := after.chain.blocks.drop before.chain.count

namespace Network

variable (sha256 : HashFunction)

/-- The coordinator handles a message, which a miner may have sent. -/
def serve (network : Network φ μ) (proposer : Option μ) (message : Message) (heap : Heap) : Network φ μ :=
  let handled := (network.coordinator.handleMessage sha256 message heap).1
  { network with
    coordinator := handled.node
    commits := network.commits ++ handled.broadcast.toList
    syncReplies := network.syncReplies ++
      if message.has .syncRequest then (handled.reply.map Message.payload).toList else []
    committed := network.committed ++ (appendedBlocks network.coordinator handled.node).map fun block => (proposer, block) }

def setFollower (network : Network φ μ) (follower : φ) (node : Node) : Network φ μ :=
  { network with followers := Function.update network.followers follower node }

def setMiner (network : Network φ μ) (miner : μ) (state : Miner) : Network φ μ :=
  { network with miners := Function.update network.miners miner state }

/-- A message is handled by a miner; an "OK" is recorded. -/
def tell (network : Network φ μ) (miner : μ) (message : Message) (heap : Heap) : Network φ μ :=
  let (state, reply) := ((network.miners miner).handleMessage sha256 message heap).1
  let accepted := if reply.map Message.payload = some (ascii "OK") then [submittedTransaction message.payload] else []
  { network.setMiner miner state with
    acknowledged := Function.update network.acknowledged miner (network.acknowledged miner ++ accepted) }

/-- A commit is handled by a miner; the cleaning of the pool is recorded. -/
def tellCommit (network : Network φ μ) (miner : μ) (payload : Bytes) (heap : Heap) : Network φ μ :=
  match (network.miners miner).communication with
  | .idle =>
    let state := ((network.miners miner).handleMessage sha256 ⟨MessageType.blockCommit.code, 0, payload⟩ heap).1.1
    let cleaned := match state.communication with
      | .committing index _ => [index]
      | _ => []
    { network.setMiner miner state with
      cleaned := Function.update network.cleaned miner (network.cleaned miner ++ cleaned) }
  | _ => network

/-- The coordinator's answer to a query of a miner. -/
def ask (network : Network φ μ) (type : MessageType) (payload : Bytes) (heap : Heap) : Option Bytes :=
  (network.coordinator.handleMessage sha256 ⟨type.code, 0, payload⟩ heap).1.reply.map Message.payload

/-- One query of a resync, with the work on its answer. -/
def query (network : Network φ μ) (miner : μ) (thread : Thread) (answered : Bool) (nodeHeap heap : Heap) : Network φ μ :=
  let state := network.miners miner
  let answer := fun type payload => if answered then network.ask sha256 type payload nodeHeap else none
  match state.resync thread with
  | some .askHeight =>
    network.setMiner miner (state.continueResync (resyncHeight (answer .queryHeight [])) thread)
  | some (.askBlock height) =>
    let next := (resyncBlock sha256 (answer .queryBlock (blockQuery height)) heap).1
    network.setMiner miner (state.continueResync next thread)
  | _ => network

/-- The end of a mining attempt; a proposal goes on the wire. -/
def finishAttempt (network : Network φ μ) (miner : μ) (mined : Bool) (heap : Heap) : Network φ μ :=
  let (state, proposal) := ((network.miners miner).finishAttempt mined heap).1
  { network.setMiner miner state with
    proposals := network.proposals ++ (proposal.map fun message => (miner, message)).toList }

def step (network : Network φ μ) : Action φ μ → Network φ μ
  | .toCoordinator message heap => if message.has .blockCommit then network else network.serve sha256 none message heap
  | .deliverProposal position heap =>
    match network.proposals[position]? with
    | some (miner, message) => network.serve sha256 (some miner) message heap
    | none => network
  | .toFollower follower message heap =>
    if message.has .blockCommit then network
    else network.setFollower follower ((network.followers follower).step sha256 (.message message heap))
  | .deliverCommit follower position heap =>
    match network.commits[position]? with
    | some payload =>
      let message : Message := ⟨MessageType.blockCommit.code, 0, payload⟩
      network.setFollower follower ((network.followers follower).step sha256 (.message message heap))
    | none => network
  | .deliverSync follower slot position heap =>
    let reply := position.bind (network.syncReplies[·]?)
    network.setFollower follower ((network.followers follower).step sha256 (.syncReply slot reply heap))
  | .toMiner miner message heap => if message.has .blockCommit then network else network.tell sha256 miner message heap
  | .deliverCommitToMiner miner position heap =>
    match network.commits[position]? with
    | some payload => network.tellCommit sha256 miner payload heap
    | none => network
  | .finishCommit miner => network.setMiner miner (network.miners miner).finishCommit
  | .query miner thread answered nodeHeap heap => network.query sha256 miner thread answered nodeHeap heap
  | .finishResync miner thread => network.setMiner miner ((network.miners miner).finishResync thread)
  | .startAttempt miner => network.setMiner miner (network.miners miner).startAttempt
  | .buildAttempt miner timestamp nonce heap =>
    network.setMiner miner ((network.miners miner).buildAttempt sha256 timestamp nonce heap).1
  | .finishAttempt miner mined heap => network.finishAttempt miner mined heap

def run (network : Network φ μ) (actions : List (Action φ μ)) : Network φ μ := actions.foldl (step sha256) network

/-- A system at its beginning: every process has just been started. -/
def start (coordinator : Node) (followers : φ → Node) (minerId : μ → Nat) : Network φ μ where
  coordinator := coordinator
  followers := followers
  miners := fun miner => .start (minerId miner)
  commits := []
  syncReplies := []
  proposals := []
  acknowledged := fun _ => []
  committed := []
  cleaned := fun _ => []

end Network
end ProcessChain
