import ProcessChain.Network
import ProcessChain.Proofs.Handlers
import ProcessChain.Proofs.MinerSteps

/-! The coordinator's part of every run. Its chain is settled and only grows, and
everything it has sent was cut from a chain it had. -/

namespace ProcessChain.Proofs.Coordinator
open Lib Lib.FailStop Csv Validation Storage Handlers ProcessChain.Network

variable {φ μ : Type} {sha256 : HashFunction}

/-- What holds of the coordinator and its messages in every reachable state. -/
structure Authority (sha256 : HashFunction) (network : Network φ μ) : Prop where
  coordinator : network.coordinator.isCoordinator = true
  settled : Settled sha256 network.coordinator.chain.blocks
  commits : ∀ line ∈ network.commits,
    ∃ block ∈ network.coordinator.chain.blocks, Writable block ∧ line <+: (csvLine block).bytes
  syncReplies : ∀ payload ∈ network.syncReplies, LinesOf network.coordinator.chain.blocks payload
  proposals : ∀ proposal ∈ network.proposals, proposal.2.has .blockProposal = true

theorem linesOf_grows {blocks grown : List Block} {payload : Bytes} (lines : LinesOf blocks payload)
    (larger : blocks ⊆ grown) : LinesOf grown payload := by
  rcases lines with plain | ⟨sent, known, start⟩
  · exact Or.inl plain
  · exact Or.inr ⟨sent, fun block member => ⟨larger (known block member).1, (known block member).2⟩, start⟩

/-- The coordinator keeps its chain, or appends one block that it announces. -/
inductive Served (sha256 : HashFunction) (network after : Network φ μ) (proposer : Option μ) (message : Message) : Prop
  | kept (blocks : after.coordinator.chain.blocks = network.coordinator.chain.blocks)
      (commits : after.commits = network.commits) (committed : after.committed = network.committed)
  | grown (block : Block) (proposal : message.has .blockProposal = true)
      (parsed : (blockFromCsv (.ofMemory message.payload)).result = .ok block)
      (valid : ValidChain sha256 (network.coordinator.chain.blocks ++ [block]))
      (blocks : after.coordinator.chain.blocks = network.coordinator.chain.blocks ++ [block])
      (commits : ∃ lines, after.commits = network.commits ++ lines ∧
        ∀ line ∈ lines, Writable block ∧ line <+: (csvLine block).bytes)
      (committed : after.committed = network.committed ++ [(proposer, block)])

theorem serve_cases {network : Network φ μ} (authority : Authority sha256 network) (proposer : Option μ) {message : Message}
    (noCommit : message.has .blockCommit = false) (heap : Heap) :
    Served sha256 network (network.serve sha256 proposer message heap) proposer message := by
  have outcome := (coordinator_ensures authority.coordinator authority.settled noCommit).always heap
  rcases outcome with ⟨kept, silent, _⟩ | ⟨proposal, block, parsed, accepted⟩
  · refine .kept kept.blocks ?_ ?_
    · simp [serve, silent]
    · simp [serve, appendedBlocks, kept.blocks, Blockchain.count]
  · refine .grown block proposal parsed accepted.valid accepted.blocks ⟨_, rfl, ?_⟩ ?_
    · exact fun line member => accepted.broadcast line (by simpa using member)
    · simp [serve, appendedBlocks, accepted.blocks, Blockchain.count]

private theorem serve_nodeId {network : Network φ μ} (authority : Authority sha256 network) (proposer : Option μ)
    {message : Message} (noCommit : message.has .blockCommit = false) (heap : Heap) :
    (network.serve sha256 proposer message heap).coordinator.isCoordinator = true := by
  have coordinator := authority.coordinator
  rcases (coordinator_ensures coordinator authority.settled noCommit).always heap with ⟨kept, _⟩ | ⟨_, _, _, accepted⟩
  · simpa only [serve, Node.isCoordinator, kept.nodeId] using coordinator
  · simpa only [serve, Node.isCoordinator, accepted.nodeId] using coordinator

private theorem serve_syncReplies {network : Network φ μ} (authority : Authority sha256 network) (proposer : Option μ)
    (message : Message) (heap : Heap) :
    ∀ payload ∈ (network.serve sha256 proposer message heap).syncReplies,
      LinesOf network.coordinator.chain.blocks payload := by
  intro payload member
  simp only [serve, List.mem_append] at member
  rcases member with earlier | new
  · exact authority.syncReplies payload earlier
  · split at new
    next request =>
      simp only [Message.has, beq_iff_eq] at request
      simp only [Node.handleMessage, request, Option.mem_toList, Option.map_eq_some_iff] at new
      obtain ⟨reply, sent, rfl⟩ := new
      exact ((syncRequest_ensures network.coordinator message).always heap).2 reply sent
    next => cases new

theorem serve_grows {network : Network φ μ} (authority : Authority sha256 network) (proposer : Option μ) {message : Message}
    (noCommit : message.has .blockCommit = false) (heap : Heap) :
    network.coordinator.chain.blocks <+: (network.serve sha256 proposer message heap).coordinator.chain.blocks := by
  cases serve_cases authority proposer noCommit heap with
  | kept blocks => rw [blocks]
  | grown block _ _ _ blocks =>
    rw [blocks]
    exact List.prefix_append _ _

private theorem serve_authority {network : Network φ μ} (authority : Authority sha256 network) (proposer : Option μ)
    {message : Message} (noCommit : message.has .blockCommit = false) (heap : Heap) :
    Authority sha256 (network.serve sha256 proposer message heap) := by
  have larger := (serve_grows authority proposer noCommit heap).subset
  refine ⟨serve_nodeId authority proposer noCommit heap, ?_, ?_, ?_, authority.proposals⟩
  · cases serve_cases authority proposer noCommit heap with
    | kept blocks => exact blocks ▸ authority.settled
    | grown block _ _ valid blocks => exact blocks ▸ Or.inr valid
  · intro line member
    cases serve_cases authority proposer noCommit heap with
    | kept blocks commits =>
      obtain ⟨block, inside, written⟩ := authority.commits line (commits ▸ member)
      exact ⟨block, larger inside, written⟩
    | grown block _ _ _ blocks commits =>
      obtain ⟨lines, same, written⟩ := commits
      rcases List.mem_append.mp (same ▸ member) with earlier | new
      · obtain ⟨other, inside, written⟩ := authority.commits line earlier
        exact ⟨other, larger inside, written⟩
      · exact ⟨block, by simp [blocks], written line new⟩
  · exact fun payload member => linesOf_grows (serve_syncReplies authority proposer message heap payload member) larger

/-- The parts of the system that only the coordinator changes. -/
structure SameCoordinator (network after : Network φ μ) : Prop where
  coordinator : after.coordinator = network.coordinator
  commits : after.commits = network.commits
  syncReplies : after.syncReplies = network.syncReplies
  committed : after.committed = network.committed

/-- The coordinator is served a message, or an action leaves its part alone. -/
inductive CoordinatorStep (sha256 : HashFunction) (network : Network φ μ) : Action φ μ → Network φ μ → Prop
  | message (message : Message) (heap : Heap) (noCommit : message.has .blockCommit = false) :
      CoordinatorStep sha256 network (.toCoordinator message heap) (network.serve sha256 none message heap)
  | proposal (position : Nat) (miner : μ) (message : Message) (heap : Heap)
      (found : network.proposals[position]? = some (miner, message)) :
      CoordinatorStep sha256 network (.deliverProposal position heap) (network.serve sha256 (some miner) message heap)
  | other {action : Action φ μ} {after : Network φ μ} (same : SameCoordinator network after)
      (proposals : ∀ proposal ∈ after.proposals, proposal ∈ network.proposals ∨ proposal.2.has .blockProposal = true) :
      CoordinatorStep sha256 network action after

private theorem finishAttempt_proposal (miner : Miner) (mined : Bool) (heap : Heap) :
    ∀ message ∈ (miner.finishAttempt mined heap).1.2, message.has .blockProposal = true := by
  intro message sent
  have finished := (MinerSteps.finishAttempt_ensures miner mined).always heap
  generalize (miner.finishAttempt mined heap).1 = outcome at finished sent
  cases finished with
  | idle => cases sent
  | silent => cases sent
  | proposed candidate message _ type =>
    cases sent
    exact type

section Steps
variable [DecidableEq φ] [DecidableEq μ]

theorem step_coordinator (sha256 : HashFunction) (network : Network φ μ) (action : Action φ μ) :
    CoordinatorStep sha256 network action (network.step sha256 action) := by
  have same : SameCoordinator network network := ⟨rfl, rfl, rfl, rfl⟩
  have quiet : CoordinatorStep sha256 network action network := .other same fun _ member => Or.inl member
  have untouched {after : Network φ μ} (same : SameCoordinator network after) (proposals : after.proposals = network.proposals) :
      CoordinatorStep sha256 network action after := .other same fun _ member => Or.inl (proposals ▸ member)
  cases action with
  | toCoordinator message heap =>
    simp only [step]
    split
    · exact quiet
    next noCommit => exact .message message heap (by simpa using noCommit)
  | deliverProposal position heap =>
    simp only [step]
    split
    next miner message found => exact .proposal position miner message heap found
    next => exact quiet
  | toFollower follower message heap =>
    simp only [step]
    split
    · exact quiet
    · exact untouched ⟨rfl, rfl, rfl, rfl⟩ rfl
  | deliverCommit follower position heap =>
    simp only [step]
    split
    · exact untouched ⟨rfl, rfl, rfl, rfl⟩ rfl
    · exact quiet
  | deliverSync follower slot position heap => exact untouched ⟨rfl, rfl, rfl, rfl⟩ rfl
  | toMiner miner message heap =>
    simp only [step]
    split
    · exact quiet
    · exact untouched ⟨rfl, rfl, rfl, rfl⟩ rfl
  | deliverCommitToMiner miner position heap =>
    simp only [step, tellCommit]
    split
    · split
      · exact untouched ⟨rfl, rfl, rfl, rfl⟩ rfl
      · exact quiet
    · exact quiet
  | finishCommit miner => exact untouched ⟨rfl, rfl, rfl, rfl⟩ rfl
  | query miner thread answered nodeHeap heap =>
    simp only [step, query]
    split
    · exact untouched ⟨rfl, rfl, rfl, rfl⟩ rfl
    · exact untouched ⟨rfl, rfl, rfl, rfl⟩ rfl
    · exact quiet
  | finishResync miner thread => exact untouched ⟨rfl, rfl, rfl, rfl⟩ rfl
  | startAttempt miner => exact untouched ⟨rfl, rfl, rfl, rfl⟩ rfl
  | buildAttempt miner timestamp nonce heap => exact untouched ⟨rfl, rfl, rfl, rfl⟩ rfl
  | finishAttempt miner mined heap =>
    refine .other ⟨rfl, rfl, rfl, rfl⟩ fun proposal member => ?_
    simp only [step, Network.finishAttempt, List.mem_append, Option.mem_toList, Option.map_eq_some_iff] at member
    rcases member with earlier | ⟨message, sent, rfl⟩
    · exact Or.inl earlier
    · exact Or.inr (finishAttempt_proposal _ mined heap message sent)

theorem proposal_noCommit {message : Message} (proposal : message.has .blockProposal = true) :
    message.has .blockCommit = false := by
  simp only [Message.has, beq_iff_eq] at proposal
  simp [Message.has, proposal]

theorem step_authority {network : Network φ μ} (authority : Authority sha256 network) (action : Action φ μ) :
    Authority sha256 (network.step sha256 action) ∧
      network.coordinator.chain.blocks <+: (network.step sha256 action).coordinator.chain.blocks := by
  have served := step_coordinator sha256 network action
  generalize network.step sha256 action = after at served
  cases served with
  | message message heap noCommit =>
    exact ⟨serve_authority authority none noCommit heap, serve_grows authority none noCommit heap⟩
  | proposal position miner message heap found =>
    have noCommit := proposal_noCommit (authority.proposals _ (List.mem_of_getElem? found))
    exact ⟨serve_authority authority (some miner) noCommit heap, serve_grows authority (some miner) noCommit heap⟩
  | other same proposals =>
    refine ⟨⟨?_, ?_, ?_, ?_, ?_⟩, ?_⟩
    · exact same.coordinator ▸ authority.coordinator
    · exact same.coordinator ▸ authority.settled
    · rw [same.coordinator, same.commits]
      exact authority.commits
    · rw [same.coordinator, same.syncReplies]
      exact authority.syncReplies
    · exact fun proposal member => (proposals proposal member).elim (authority.proposals proposal) id
    · rw [same.coordinator]

/-- What every step preserves under the coordinator's authority holds after a whole run. -/
theorem run_preserves (keeps : Network φ μ → Prop)
    (step : ∀ network, Authority sha256 network → keeps network → ∀ action, keeps (network.step sha256 action))
    {network : Network φ μ} (authority : Authority sha256 network) (start : keeps network) (actions : List (Action φ μ)) :
    keeps (network.run sha256 actions) := by
  induction actions generalizing network with
  | nil => exact start
  | cons action rest ih => exact ih (step_authority authority action).1 (step network authority start action)

end Steps

theorem start_authority {coordinator : Node} {followers : φ → Node} {minerId : μ → Nat}
    (isCoordinator : coordinator.isCoordinator = true) (settled : Settled sha256 coordinator.chain.blocks) :
    Authority sha256 (start coordinator followers minerId) :=
  ⟨isCoordinator, settled, by simp [start], by simp [start], by simp [start]⟩

end ProcessChain.Proofs.Coordinator
