import ProcessChain.Proofs.MinerActions
import Mathlib.Algebra.Order.BigOperators.Group.Finset

/-! What a run has recorded. The coordinator's chain is the one it started with
and the committed blocks, and a commit that reaches a miner is one of these
blocks with exactly its transactions. -/

namespace ProcessChain.Proofs.History
open Lib Lib.FailStop Csv Crypto Validation Handlers MinerSteps Coordinator MinerActions ProcessChain.Network

variable {φ μ : Type} {sha256 : HashFunction} {initial : List Block}

/-- The records of a run that started from the given chain. -/
structure Recorded (initial : List Block) (network : Network φ μ) : Prop where
  chain : network.coordinator.chain.blocks = initial ++ network.committed.map Prod.snd
  commits : ∀ line ∈ network.commits,
    ∃ entry ∈ network.committed, Writable entry.2 ∧ line <+: (csvLine entry.2).bytes
  readable : ∀ entry ∈ network.committed, rejoined entry.2.transactions = entry.2.transactions

/-- A block that is read from a broadcast is the committed block. -/
theorem announced_committed {network : Network φ μ} (recorded : Recorded initial network) {line : Bytes} {block : Block}
    (sent : line ∈ network.commits) (parsed : (blockFromCsv (.ofMemory line)).result = .ok block) :
    ∃ proposer, (proposer, block) ∈ network.committed := by
  obtain ⟨⟨proposer, written⟩, member, writable, cut⟩ := recorded.commits line sent
  have read := readBack writable ((List.takeWhile_prefix _).trans cut) parsed
  rw [recorded.readable _ member] at read
  exact ⟨proposer, read ▸ member⟩

theorem committed_chain {network : Network φ μ} (recorded : Recorded initial network) {proposer : Option μ} {block : Block}
    (member : (proposer, block) ∈ network.committed) : block ∈ network.coordinator.chain.blocks := by
  rw [recorded.chain]
  exact List.mem_append_right _ (List.mem_map.mpr ⟨_, member, rfl⟩)

section Places
variable {network : Network φ μ} (authority : Authority sha256 network) (recorded : Recorded initial network)
include authority recorded

/-- Committed blocks are below the tip. -/
theorem committed_located {proposer : Option μ} {block : Block} (member : (proposer, block) ∈ network.committed) :
    block.index.toNat < network.coordinator.chain.count := by
  obtain ⟨position, inside, rfl⟩ := List.mem_iff_getElem.mp (committed_chain recorded member)
  rw [index_position authority.settled (List.getElem?_eq_getElem inside)]
  exact inside

/-- No two committed blocks share an index. -/
theorem committed_unique {proposer other : Option μ} {first second : Block}
    (one : (proposer, first) ∈ network.committed) (two : (other, second) ∈ network.committed)
    (same : first.index = second.index) : first = second := by
  obtain ⟨position, inside, rfl⟩ := List.mem_iff_getElem.mp (committed_chain recorded one)
  obtain ⟨place, within, rfl⟩ := List.mem_iff_getElem.mp (committed_chain recorded two)
  have here := index_position authority.settled (List.getElem?_eq_getElem inside)
  have there := index_position authority.settled (List.getElem?_eq_getElem within)
  obtain rfl : position = place := by rw [← here, ← there, same]
  rfl

end Places

/-- What a step does to the coordinator and its records: nothing, or it commits a
block that was proposed. -/
inductive CommitStep (sha256 : HashFunction) (network : Network φ μ) (action : Action φ μ) (after : Network φ μ) : Prop
  | kept (blocks : after.coordinator.chain.blocks = network.coordinator.chain.blocks)
      (commits : after.commits = network.commits) (committed : after.committed = network.committed)
  | grown (proposer : Option μ) (message : Message) (block : Block)
      (source : (∃ heap, proposer = none ∧ action = .toCoordinator message heap ∧ message.has .blockProposal = true) ∨
        ∃ m, proposer = some m ∧ (m, message) ∈ network.proposals)
      (parsed : (blockFromCsv (.ofMemory message.payload)).result = .ok block)
      (valid : ValidChain sha256 (network.coordinator.chain.blocks ++ [block]))
      (blocks : after.coordinator.chain.blocks = network.coordinator.chain.blocks ++ [block])
      (commits : ∃ lines, after.commits = network.commits ++ lines ∧
        ∀ line ∈ lines, Writable block ∧ line <+: (csvLine block).bytes)
      (committed : after.committed = network.committed ++ [(proposer, block)])

private theorem served_commit {network after : Network φ μ} {action : Action φ μ} {proposer : Option μ} {message : Message}
    (served : Served sha256 network after proposer message)
    (source : message.has .blockProposal = true →
      (∃ heap, proposer = none ∧ action = .toCoordinator message heap ∧ message.has .blockProposal = true) ∨
        ∃ m, proposer = some m ∧ (m, message) ∈ network.proposals) : CommitStep sha256 network action after := by
  cases served with
  | kept blocks commits committed => exact .kept blocks commits committed
  | grown block proposal parsed valid blocks commits committed =>
    exact .grown proposer message block (source proposal) parsed valid blocks commits committed

section Steps
variable [DecidableEq φ] [DecidableEq μ]

theorem step_commit {network : Network φ μ} (authority : Authority sha256 network) (action : Action φ μ) :
    CommitStep sha256 network action (network.step sha256 action) := by
  have served := step_coordinator sha256 network action
  generalize network.step sha256 action = after at served ⊢
  cases served with
  | message message heap noCommit =>
    exact served_commit (serve_cases authority none noCommit heap) fun proposal => Or.inl ⟨heap, rfl, rfl, proposal⟩
  | proposal position m message heap found =>
    have sent := List.mem_of_getElem? found
    have noCommit := proposal_noCommit (authority.proposals _ sent)
    exact served_commit (serve_cases authority (some m) noCommit heap) fun _ => Or.inr ⟨m, rfl, sent⟩
  | other same => exact .kept (same.coordinator ▸ rfl) same.commits same.committed

theorem step_committed {network : Network φ μ} (authority : Authority sha256 network) (action : Action φ μ) :
    network.committed ⊆ (network.step sha256 action).committed := by
  cases step_commit authority action with
  | kept _ _ committed => rw [committed]; exact List.Subset.refl _
  | grown _ _ _ _ _ _ _ _ committed => rw [committed]; exact List.subset_append_left _ _

theorem step_recorded {network : Network φ μ} (authority : Authority sha256 network) (recorded : Recorded initial network)
    (action : Action φ μ) : Recorded initial (network.step sha256 action) := by
  have larger := step_committed authority action
  cases step_commit authority action with
  | kept blocks commits committed =>
    refine ⟨?_, ?_, ?_⟩
    · rw [blocks, committed]
      exact recorded.chain
    · rw [commits, committed]
      exact recorded.commits
    · rw [committed]
      exact recorded.readable
  | grown proposer message block _ parsed _ blocks commits committed =>
    obtain ⟨lines, same, written⟩ := commits
    refine ⟨?_, ?_, ?_⟩
    · rw [blocks, committed, recorded.chain, List.map_append, List.append_assoc]
      rfl
    · intro line member
      rcases List.mem_append.mp (same ▸ member) with earlier | new
      · obtain ⟨entry, inside, sent⟩ := recorded.commits line earlier
        exact ⟨entry, larger inside, sent⟩
      · exact ⟨(proposer, block), by simp [committed], written line new⟩
    · intro entry member
      rcases List.mem_append.mp (committed ▸ member) with earlier | new
      · exact recorded.readable entry earlier
      · rw [List.mem_singleton.mp new]
        exact parsed_rejoined parsed

end Steps

theorem start_recorded (coordinator : Node) (followers : φ → Node) (minerId : μ → Nat) :
    Recorded coordinator.chain.blocks (start coordinator followers minerId) :=
  ⟨by simp [start], by simp [start], by simp [start]⟩

/-- How often a transaction stands in a list of blocks. -/
def occurrences (blocks : List Block) (transaction : CString) : Nat := (blocks.flatMap Block.transactions).count transaction

theorem occurrences_append (earlier later : List Block) (transaction : CString) :
    occurrences (earlier ++ later) transaction = occurrences earlier transaction + occurrences later transaction := by
  rw [occurrences, List.flatMap_append, List.count_append]
  rfl

@[simp] theorem occurrences_single (block : Block) (transaction : CString) :
    occurrences [block] transaction = block.transactions.count transaction := by
  rw [occurrences, List.flatMap_singleton]

/-- How often a transaction was committed during the run. -/
def committedCount (network : Network φ μ) (transaction : CString) : Nat :=
  occurrences (network.committed.map Prod.snd) transaction

section Totals
variable [Fintype μ]

/-- How often the miners have answered "OK" to a transaction. -/
def acknowledgedCount (network : Network φ μ) (transaction : CString) : Nat :=
  ∑ m, (network.acknowledged m).count transaction

end Totals

theorem continueResync_mempool (miner : Miner) (next : Option Resync) (thread : Thread) :
    (miner.continueResync next thread).mempool = miner.mempool := by
  cases thread <;> rfl

end ProcessChain.Proofs.History
