import ProcessChain.Proofs.Allocation

/-! Competition between proposals. The handlers' incremental checks decide exactly
like full validation of the grown chain, so at most one proposal per index wins. -/

namespace ProcessChain.Proofs.Proposals
open Lib Lib.FailStop Csv Validation Handlers Allocation

variable {sha256 : HashFunction}

private theorem grown_ne {blocks : List Block} {block : Block} : blocks ≠ blocks ++ [block] := by
  simp

/-- On a valid chain the proposal handler, the commit handler and one round of the
sync loop each append a block exactly when the grown chain is valid. -/
theorem incremental_validation_is_full (sha256 : HashFunction) (node : Node)
    (start : (validateBlockchain sha256 node.chain.blocks).result = .ok ()) (line : CString) (block : Block)
    (parsed : (blockFromCsv line).result = .ok block) (message : Message) (carries : CString.ofMemory message.payload = line)
    (heap : Heap) :
    let grown := node.chain.blocks ++ [block]
    let accepted := (validateBlockchain sha256 grown).result = .ok ()
    ((handleBlockProposal sha256 node message heap).2.refused = false →
      ((handleBlockProposal sha256 node message heap).1.node.chain.blocks = grown ↔ accepted)) ∧
    ((handleBlockCommit sha256 node message heap).2.refused = false →
      ((handleBlockCommit sha256 node message heap).1.node.chain.blocks = grown ↔ accepted)) ∧
    ((syncBlock sha256 node.chain line heap).2.refused = false →
      ((syncBlock sha256 node.chain line heap).1.blocks = grown ↔ accepted)) := by
  subst carries
  have valid := (blockchain_ok sha256).mp start
  have settled : Settled sha256 node.chain.blocks := Or.inr valid
  have same {other : Block} (appended : node.chain.blocks ++ [other] = node.chain.blocks ++ [block]) : other = block := by
    simpa using appended
  simp only [blockchain_ok]
  refine ⟨fun granted => ⟨fun appended => ?_, fun accepted => ?_⟩, fun granted => ⟨fun appended => ?_, fun accepted => ?_⟩,
    fun granted => ⟨fun appended => ?_, fun accepted => ?_⟩⟩
  · rcases (proposal_ensures settled message).always heap with rejected | ⟨other, _, accepted⟩
    · exact absurd (rejected.blocks.symm.trans appended) grown_ne
    · exact same (accepted.blocks.symm.trans appended) ▸ accepted.valid
  · have visible : message.payload ≠ [] := by
      intro none
      have comma := parsed_comma parsed
      rw [none] at comma
      cases comma
    exact (((proposal_ensures settled message).granted heap granted).2 block visible parsed accepted).blocks
  · rcases ((commit_ensures settled message).always heap).2 with kept | ⟨other, _, valid, grown⟩
    · exact absurd (kept.blocks.symm.trans appended) grown_ne
    · exact same (grown.blocks.symm.trans appended) ▸ valid
  · exact (((commit_ensures settled message).granted heap granted).2 block parsed accepted).blocks
  · rcases (syncBlock_ensures node.chain _).always heap with kept | ⟨other, _, admits, grown⟩
    · exact absurd (kept.symm.trans appended) grown_ne
    · exact same (grown.symm.trans appended) ▸ (admits_valid valid).mp admits
  · exact ((syncBlock_ensures node.chain _).granted heap granted).2 block parsed ((admits_valid valid).mpr accepted)

def proposalOf (block : Block) : Message := ⟨MessageType.blockProposal.code, 1, (csvLine block).bytes⟩

theorem payment_proposal_is_appended :
    (handleBlockProposal sha256Bytes (genesisNode 0) (proposalOf paymentBlock) openHeap).1.node.chain.blocks =
      [genesisBlock, paymentBlock] := by
  have small : (proposalOf paymentBlock).payload.length < ptrdiffMax := by decide +kernel
  have granted : (handleBlockProposal sha256Bytes (genesisNode 0) (proposalOf paymentBlock) openHeap).2.refused = false :=
    congrArg Supply.refused (proposal_grants (by decide) small).supply
  exact ((incremental_validation_is_full sha256Bytes (genesisNode 0) genesis_accepted (csvLine paymentBlock) paymentBlock
    payment_parsed (proposalOf paymentBlock) (CString.ofMemory_bytes _) openHeap).1 granted).mpr fixture_accepted

/-- A handled message: the node before it, the message and what came of it. -/
structure Service where
  node : Node
  message : Message
  handled : Handled

/-- The messages of a run in the order in which their handlers get the lock. -/
def serve (sha256 : HashFunction) : Node → List (Message × Heap) → List Service
  | _, [] => []
  | node, (message, heap) :: rest =>
    let handled := (node.handleMessage sha256 message heap).1
    ⟨node, message, handled⟩ :: serve sha256 handled.node rest

/-- The node after such a run. -/
def served (sha256 : HashFunction) : Node → List (Message × Heap) → Node
  | node, [] => node
  | node, (message, heap) :: rest => served sha256 (node.handleMessage sha256 message heap).1.node rest

def Service.block (service : Service) : Except ProjectError Block :=
  (blockFromCsv (.ofMemory service.message.payload)).result

def Service.won (service : Service) : Bool := service.message.has .blockProposal && repliesOk service.handled

/-- A winner's block is appended in its own step; nothing else changes the chain. -/
structure Decided (sha256 : HashFunction) (service : Service) : Prop where
  won : service.won = true → ∃ block, service.block = .ok block ∧ Accepted sha256 service.node block service.handled
  lost : service.won = false → Kept service.node service.handled.node

private theorem service_decided {node : Node} (coordinator : node.isCoordinator = true)
    (valid : ValidChain sha256 node.chain.blocks) {message : Message} (heap : Heap)
    (noCommit : message.has .blockCommit = false) :
    Decided sha256 ⟨node, message, (node.handleMessage sha256 message heap).1⟩ := by
  rcases (coordinator_ensures coordinator (Or.inr valid) noCommit).always heap with
    ⟨kept, _, refused⟩ | ⟨proposal, block, parsed, accepted⟩
  · refine ⟨fun won => ?_, fun _ => kept⟩
    simp only [Service.won, Bool.and_eq_true] at won
    rw [refused won.1] at won
    cases won.2
  · refine ⟨fun _ => ⟨block, parsed, accepted⟩, fun lost => ?_⟩
    simp [Service.won, proposal, accepted.reply] at lost

section Runs
variable {node : Node} {requests : List (Message × Heap)}

/-- The coordinator keeps a valid chain between messages. -/
private theorem decided_next {service : Service} (decided : Decided sha256 service)
    (coordinator : service.node.isCoordinator = true) (valid : ValidChain sha256 service.node.chain.blocks) :
    service.handled.node.isCoordinator = true ∧ ValidChain sha256 service.handled.node.chain.blocks ∧
      service.handled.node.chain.count = service.node.chain.count + if service.won then 1 else 0 := by
  cases result : service.won with
  | false =>
    have kept := decided.lost result
    simp only [Node.isCoordinator, Blockchain.count, kept.nodeId, kept.blocks] at coordinator ⊢
    exact ⟨coordinator, valid, rfl⟩
  | true =>
    obtain ⟨block, _, accepted⟩ := decided.won result
    simp only [Node.isCoordinator, Blockchain.count, accepted.nodeId, accepted.blocks] at coordinator ⊢
    exact ⟨coordinator, accepted.valid, by simp⟩

private theorem serve_decided (coordinator : node.isCoordinator = true) (valid : ValidChain sha256 node.chain.blocks)
    (noCommits : ∀ request ∈ requests, request.1.has .blockCommit = false) :
    ∀ service ∈ serve sha256 node requests, Decided sha256 service ∧ node.chain.count ≤ service.node.chain.count := by
  induction requests generalizing node with
  | nil => simp [serve]
  | cons request rest ih =>
    have decided := service_decided coordinator valid request.2 (noCommits request (by simp))
    obtain ⟨still, valid', height⟩ := decided_next decided coordinator valid
    intro service member
    rcases List.mem_cons.mp member with rfl | later
    · exact ⟨decided, Nat.le_refl _⟩
    · obtain ⟨decided', bound⟩ := ih still valid' (fun request inside => noCommits request (by simp [inside])) service later
      refine ⟨decided', ?_⟩
      dsimp only at height bound
      omega

/-- A winner carries the height of the chain it extends as its index. -/
private theorem winner_index {service : Service} {block : Block} (decided : Decided sha256 service)
    (won : service.won = true) (parsed : service.block = .ok block) :
    block.index.toNat = service.node.chain.count := by
  obtain ⟨other, readable, accepted⟩ := decided.won won
  cases readable.symm.trans parsed
  exact validChain_number accepted.valid (List.getElem?_concat_length ..) service.node.chain.count_lt

private theorem serve_distinct (coordinator : node.isCoordinator = true) (valid : ValidChain sha256 node.chain.blocks)
    (noCommits : ∀ request ∈ requests, request.1.has .blockCommit = false) :
    ((serve sha256 node requests).filter Service.won).Pairwise fun first second =>
      ∀ a b, first.block = .ok a → second.block = .ok b → a.index ≠ b.index := by
  induction requests generalizing node with
  | nil => simp [serve]
  | cons request rest ih =>
    have decided := service_decided coordinator valid request.2 (noCommits request (by simp))
    obtain ⟨still, valid', height⟩ := decided_next decided coordinator valid
    have others := fun request inside => noCommits request (List.mem_cons_of_mem _ inside)
    simp only [serve, List.filter_cons]
    split
    next won =>
      refine List.pairwise_cons.mpr ⟨?_, ih still valid' others⟩
      intro service member a b first second same
      obtain ⟨later, wins⟩ := List.mem_filter.mp member
      obtain ⟨decided', bound⟩ := serve_decided still valid' others service later
      have lower := winner_index decided won first
      have upper := winner_index decided' wins second
      rw [same] at lower
      simp only [won, if_true] at height
      dsimp only at lower bound
      omega
    next => exact ih still valid' others

private theorem served_height (coordinator : node.isCoordinator = true) (valid : ValidChain sha256 node.chain.blocks)
    (noCommits : ∀ request ∈ requests, request.1.has .blockCommit = false) :
    (served sha256 node requests).chain.count =
      node.chain.count + ((serve sha256 node requests).filter Service.won).length := by
  induction requests generalizing node with
  | nil => simp [serve, served]
  | cons request rest ih =>
    have decided := service_decided coordinator valid request.2 (noCommits request (by simp))
    obtain ⟨still, valid', height⟩ := decided_next decided coordinator valid
    simp only [serve, served, List.filter_cons]
    rw [ih still valid' fun request inside => noCommits request (by simp [inside]), height]
    split <;> simp only [List.length_cons] <;> omega

end Runs

/-- Whatever proposals compete and in whatever order they are handled: a proposer
is told it won exactly when its block became the last one in that step, the
others change nothing, winners have different indices, and the height counts them. -/
theorem one_winner_per_index (sha256 : HashFunction) (node : Node) (coordinator : node.isCoordinator = true)
    (start : (validateBlockchain sha256 node.chain.blocks).result = .ok ()) (requests : List (Message × Heap))
    (noCommits : ∀ request ∈ requests, request.1.has .blockCommit = false) :
    (∀ service ∈ serve sha256 node requests, service.message.has .blockProposal = true →
      (repliesOk service.handled = true ↔ ∃ block, service.block = .ok block ∧
        service.handled.node.chain.blocks = service.node.chain.blocks ++ [block]) ∧
      (repliesOk service.handled = false → service.handled.node.chain.blocks = service.node.chain.blocks)) ∧
    (((serve sha256 node requests).filter Service.won).Pairwise fun first second =>
      ∀ a b, first.block = .ok a → second.block = .ok b → a.index ≠ b.index) ∧
    (served sha256 node requests).chain.count =
      node.chain.count + ((serve sha256 node requests).filter Service.won).length := by
  have valid := (blockchain_ok sha256).mp start
  refine ⟨?_, serve_distinct coordinator valid noCommits, served_height coordinator valid noCommits⟩
  intro service member proposal
  obtain ⟨decided, _⟩ := serve_decided coordinator valid noCommits service member
  have outcome : service.won = repliesOk service.handled := by simp [Service.won, proposal]
  refine ⟨⟨fun ok => ?_, fun ⟨block, _, appended⟩ => ?_⟩, fun refused => (decided.lost (outcome.trans refused)).blocks⟩
  · obtain ⟨block, parsed, accepted⟩ := decided.won (outcome.trans ok)
    exact ⟨block, parsed, accepted.blocks⟩
  · by_contra refused
    have kept := decided.lost (outcome.trans (Bool.not_eq_true _ ▸ refused))
    exact grown_ne (kept.blocks.symm.trans appended)

/-- The same block proposed twice, with a height query in between. -/
theorem duplicate_proposals_grow_by_winners :
    let requests := [(proposalOf paymentBlock, openHeap), (⟨10, 2, []⟩, openHeap), (proposalOf paymentBlock, openHeap)]
    (served sha256Bytes (genesisNode 0) requests).chain.count =
      1 + ((serve sha256Bytes (genesisNode 0) requests).filter Service.won).length := by
  intro requests
  have grown := (one_winner_per_index sha256Bytes (genesisNode 0) rfl genesis_accepted requests (by decide +kernel)).2.2
  have single : (genesisNode 0).chain.count = 1 := rfl
  rwa [single] at grown

end ProcessChain.Proofs.Proposals
