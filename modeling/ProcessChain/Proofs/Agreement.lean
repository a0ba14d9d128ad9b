import ProcessChain.Proofs.Coordinator
import ProcessChain.Proofs.NodeSafety

/-! Agreement between the coordinator and its followers. A follower appends a
block only under the index that is its own height, and everything it can read
under that index was written for the coordinator's block at that height. -/

namespace ProcessChain.Proofs.Agreement
open Lib Lib.FailStop Csv Validation Handlers Coordinator ProcessChain.Network

variable {φ μ : Type} {sha256 : HashFunction}

/-- A block that was read from the beginning of a line written for a block of the
chain and that fits behind a beginning of the chain is the next block of the chain. -/
theorem read_extends {chain : Blockchain} (valid : ValidChain sha256 chain.blocks) {start : List Block} (some : start ≠ [])
    (beginning : start <+: chain.blocks) {written block : Block} (member : written ∈ chain.blocks) {line : CString}
    (writable : Writable written) (cut : line.bytes <+: (csvLine written).bytes)
    (parsed : (blockFromCsv line).result = .ok block) (fits : ValidChain sha256 (start ++ [block])) :
    start ++ [block] <+: chain.blocks := by
  have read := readBack writable cut parsed
  obtain ⟨position, inside, found⟩ := List.mem_iff_getElem.mp member
  have bound := chain.count_lt
  have short := beginning.length_le
  -- the index of the block is both its position in the chain and the length of the beginning
  have here := index_position (Or.inr valid) (List.getElem?_eq_getElem inside)
  have there : block.index = UInt64.ofNat start.length := validChain_index fits (by simp)
  have same : position = start.length := by
    rw [← here, found, show written.index = block.index by rw [read], there, UInt64.toNat_ofNat']
    simp only [Blockchain.count] at bound
    omega
  have ordinary : written.index ≠ 0 := by
    intro zero
    have positive := List.length_pos_iff.mpr some
    rw [found, zero, UInt64.toNat_zero] at here
    omega
  -- an ordinary block is read back exactly
  have unchanged : block = written := by
    have whole := readBack writable List.prefix_rfl ((valid.sound written member).written ordinary).2
    rw [read]
    exact whole.symm
  subst same
  have longer : start ++ [written] = chain.blocks.take (start.length + 1) := by
    rw [← List.take_append_getElem inside, found, ← List.prefix_iff_eq_take.mp beginning]
  rw [unchanged, longer]
  exact List.take_prefix _ _

/-- The lines a follower cuts from a sync reply that can be read at all. -/
theorem syncLine_cases {blocks : List Block} {payload : Bytes} (lines : LinesOf blocks payload) {line : CString}
    (member : line ∈ strtokLines (.ofMemory payload)) {block : Block} (parsed : (blockFromCsv line).result = .ok block) :
    ∃ written ∈ blocks, Writable written ∧ line.bytes <+: (csvLine written).bytes := by
  have readable : (CString.ofMemory payload).bytes <+: payload := List.takeWhile_prefix _
  obtain ⟨token, cut, rfl⟩ := List.mem_map.mp member
  have start : (CString.ofMemory token).bytes <+: token := List.takeWhile_prefix _
  have comma := start.subset (parsed_comma parsed)
  rcases lines with plain | ⟨sent, known, text⟩
  · exact absurd (readable.subset (mem_tokens_subset cut comma)) plain
  · have clean : ∀ line ∈ sent.map fun block => (csvLine block).bytes, (10 : UInt8) ∉ line := by
      intro line inside lineBreak
      obtain ⟨written, here, rfl⟩ := List.mem_map.mp inside
      exact (csvLine_letters (known written here).2 10 lineBreak).2 rfl
    obtain ⟨line, inside, begins⟩ := mem_tokens_cut clean (readable.trans text) cut
    obtain ⟨written, here, rfl⟩ := List.mem_map.mp inside
    exact ⟨written, (known written here).1, (known written here).2, start.trans begins⟩

/-- A follower holds a non-empty beginning of the coordinator's chain. -/
structure Follows (network : Network φ μ) (node : Node) : Prop where
  follower : node.isCoordinator = false
  some : node.chain.blocks ≠ []
  beginning : node.chain.blocks <+: network.coordinator.chain.blocks

structure Agreed (sha256 : HashFunction) (network : Network φ μ) : Prop where
  authority : Authority sha256 network
  valid : ValidChain sha256 network.coordinator.chain.blocks
  followers : ∀ follower, Follows network (network.followers follower)

private theorem kept_follows {network : Network φ μ} {node after : Node} (follows : Follows network node) (kept : Kept node after) :
    Follows network after := by
  refine ⟨?_, kept.blocks ▸ follows.some, kept.blocks ▸ follows.beginning⟩
  simpa only [Node.isCoordinator, kept.nodeId] using follows.follower

private theorem commit_follows {network : Network φ μ} (agreed : Agreed sha256 network) {node : Node}
    (follows : Follows network node) {payload : Bytes} (sent : payload ∈ network.commits) (heap : Heap) :
    Follows network (node.step sha256 (.message ⟨MessageType.blockCommit.code, 0, payload⟩ heap)) := by
  have settled : Settled sha256 node.chain.blocks := Or.inr (validChain_start agreed.valid follows.some follows.beginning)
  have handled : node.handleMessage sha256 ⟨MessageType.blockCommit.code, 0, payload⟩ =
      handleBlockCommit sha256 node ⟨MessageType.blockCommit.code, 0, payload⟩ := rfl
  simp only [Node.step, handled]
  rcases ((commit_ensures settled ⟨MessageType.blockCommit.code, 0, payload⟩).always heap).2 with
    kept | ⟨block, parsed, fits, grown⟩
  · exact kept_follows follows kept
  · obtain ⟨written, member, writable, cut⟩ := agreed.authority.commits payload sent
    have readable : (CString.ofMemory payload).bytes <+: (csvLine written).bytes := (List.takeWhile_prefix _).trans cut
    refine ⟨?_, by simp [grown.blocks], ?_⟩
    · simpa only [Node.isCoordinator, grown.nodeId] using follows.follower
    · rw [grown.blocks]
      exact read_extends agreed.valid follows.some follows.beginning member writable readable parsed fits

private theorem sync_follows {network : Network φ μ} (agreed : Agreed sha256 network) {node : Node}
    (follows : Follows network node) (slot : Nat) {reply : Option Bytes}
    (sent : ∀ payload ∈ reply, payload ∈ network.syncReplies) (heap : Heap) :
    Follows network (node.step sha256 (.syncReply slot reply heap)) := by
  simp only [Node.step]
  split
  · have kept : Ensures (finishSync sha256 node slot reply) _ _ :=
      finishSync_keeps (fun blocks => blocks ≠ [] ∧ blocks <+: network.coordinator.chain.blocks) slot
        (fun payload given line member blocks block before parsed admits => by
          obtain ⟨nonempty, beginning⟩ := before
          have fits := (admits_valid (validChain_start agreed.valid nonempty beginning)).mp admits
          obtain ⟨written, inside, writable, cut⟩ :=
            syncLine_cases (agreed.authority.syncReplies payload (sent payload given)) member parsed
          exact ⟨by simp, read_extends agreed.valid nonempty beginning inside writable cut parsed fits⟩)
        ⟨follows.some, follows.beginning⟩
    obtain ⟨nodeId, nonempty, beginning⟩ := kept.always heap
    exact ⟨by simpa only [Node.isCoordinator, nodeId] using follows.follower, nonempty, beginning⟩
  · exact follows

section Steps
variable [DecidableEq φ] [DecidableEq μ]

/-- Every action keeps each follower on the coordinator's chain as it was before. -/
private theorem step_follows {network : Network φ μ} (agreed : Agreed sha256 network) (action : Action φ μ) (follower : φ) :
    Follows network ((network.step sha256 action).followers follower) := by
  have before := agreed.followers
  have set {changed : φ} {node : Node} (follows : Follows network node) :
      Follows network ((network.setFollower changed node).followers follower) := by
    simp only [setFollower, Function.update_apply]
    split
    · exact follows
    · exact before follower
  cases action with
  | toFollower changed message heap =>
    simp only [step]
    split
    · exact before follower
    next noCommit =>
      refine set (kept_follows (before changed) ((follower_ensures (before changed).follower ?_).always heap))
      simpa using noCommit
  | deliverCommit changed position heap =>
    simp only [step]
    split
    next payload found => exact set (commit_follows agreed (before changed) (List.mem_of_getElem? found) heap)
    next => exact before follower
  | deliverSync changed slot position heap =>
    refine set (sync_follows agreed (before changed) slot (fun payload given => ?_) heap)
    obtain ⟨_, _, found⟩ := Option.bind_eq_some_iff.mp given
    exact List.mem_of_getElem? found
  | toCoordinator message heap =>
    simp only [step]
    split <;> exact before follower
  | deliverProposal position heap =>
    simp only [step]
    split <;> exact before follower
  | toMiner miner message heap =>
    simp only [step]
    split <;> exact before follower
  | deliverCommitToMiner miner position heap =>
    simp only [step, tellCommit]
    split
    · split <;> exact before follower
    · exact before follower
  | query miner thread answered nodeHeap heap =>
    simp only [step, query]
    split <;> exact before follower
  | finishCommit miner => exact before follower
  | finishResync miner thread => exact before follower
  | startAttempt miner => exact before follower
  | buildAttempt miner timestamp nonce heap => exact before follower
  | finishAttempt miner mined heap => exact before follower

private theorem step_agreed {network : Network φ μ} (agreed : Agreed sha256 network) (action : Action φ μ) :
    Agreed sha256 (network.step sha256 action) := by
  obtain ⟨authority, grows⟩ := step_authority agreed.authority action
  refine ⟨authority, ?_, fun follower => ?_⟩
  · rcases authority.settled with none | valid
    · exact absurd (List.prefix_nil.mp (none ▸ grows)) agreed.valid.some
    · exact valid
  · have follows := step_follows agreed action follower
    exact ⟨follows.follower, follows.some, follows.beginning.trans grows⟩

theorem run_agreed {network : Network φ μ} (agreed : Agreed sha256 network) (actions : List (Action φ μ)) :
    Agreed sha256 (network.run sha256 actions) :=
  run_preserves (Agreed sha256) (fun _ _ => step_agreed) agreed.authority agreed actions

/-- However commits, sync requests and replies are delayed, reordered, duplicated
or lost, and whatever is proposed: every follower's chain is a beginning of the
coordinator's, so of two followers one is behind the other. -/
theorem followers_agree (sha256 : HashFunction) (coordinator : Node) (followers : φ → Node) (minerId : μ → Nat)
    (isCoordinator : coordinator.isCoordinator = true) (areFollowers : ∀ follower, (followers follower).isCoordinator = false)
    (accepted : (validateBlockchain sha256 coordinator.chain.blocks).result = .ok ())
    (same : ∀ follower, (followers follower).chain.blocks = coordinator.chain.blocks) (actions : List (Action φ μ)) :
    let network := (start coordinator followers minerId).run sha256 actions
    (∀ follower, (network.followers follower).chain.blocks <+: network.coordinator.chain.blocks) ∧
      ∀ first second, (network.followers first).chain.blocks <+: (network.followers second).chain.blocks ∨
        (network.followers second).chain.blocks <+: (network.followers first).chain.blocks := by
  have valid := (blockchain_ok sha256).mp accepted
  have agreed : Agreed sha256 (start coordinator followers minerId) := by
    refine ⟨start_authority isCoordinator (Or.inr valid), valid, fun follower => ⟨areFollowers follower, ?_, ?_⟩⟩
    · simpa only [start, same follower] using valid.some
    · simp only [start, same follower, List.prefix_rfl]
  have beginning := fun follower => ((run_agreed agreed actions).followers follower).beginning
  exact ⟨beginning, fun first second => List.prefix_or_prefix_of_prefix (beginning first) (beginning second)⟩

end Steps

/-- Three followers of a coordinator that is sent the same block twice. -/
theorem three_followers_agree :
    let follower := fun number : Fin 3 => genesisNode (number.val + 1)
    let commit := Action.toCoordinator ⟨3, 1, (csvLine paymentBlock).bytes⟩ openHeap
    let network := (start (genesisNode 0) follower fun miner : Fin 2 => miner.val).run sha256Bytes
      [commit, .deliverCommit 1 0 openHeap, commit, .deliverCommit 2 0 openHeap, .deliverCommit 1 0 openHeap]
    ∀ number, (network.followers number).chain.blocks <+: network.coordinator.chain.blocks := by
  intro follower
  exact (followers_agree sha256Bytes (genesisNode 0) follower _ rfl (by decide) genesis_accepted (fun _ => rfl) _).1

end ProcessChain.Proofs.Agreement
