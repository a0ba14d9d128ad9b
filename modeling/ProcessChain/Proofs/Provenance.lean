import ProcessChain.Proofs.Agreement
import ProcessChain.Proofs.Repetition

/-! Where the transactions of the chains come from. In every run, whatever is lost, late or repeated, a
block that a miner got into the chain holds no transaction more often than that
miner has acknowledged it, and all of them are valid. -/

namespace ProcessChain.Proofs.Provenance
open Lib Lib.FailStop Csv Crypto Validation Handlers MinerSteps Coordinator MinerActions History Agreement Repetition ProcessChain.Network

variable {φ μ : Type} {sha256 : HashFunction} {initial : List Block}

/-- The transactions of a block are covered by what was acknowledged. -/
structure Backed (acknowledged : List CString) (block : Block) : Prop where
  valid : ∀ transaction ∈ block.transactions, ValidTransaction transaction
  counted : ∀ transaction, block.transactions.count transaction ≤ acknowledged.count transaction

theorem Backed.grow {acknowledged more : List CString} {block : Block} (backed : Backed acknowledged block)
    (longer : acknowledged <+: more) : Backed more block :=
  ⟨backed.valid, fun transaction => Nat.le_trans (backed.counted transaction) (longer.sublist.count_le transaction)⟩

/-- A message that carries such a block. -/
def Carried (acknowledged : List CString) (message : Message) : Prop :=
  ∃ candidate, Writable candidate ∧ message.payload <+: (csvLine candidate).bytes ∧ Backed acknowledged candidate

theorem Carried.grow {acknowledged more : List CString} {message : Message} (carried : Carried acknowledged message)
    (longer : acknowledged <+: more) : Carried more message := by
  obtain ⟨candidate, writable, payload, backed⟩ := carried
  exact ⟨candidate, writable, payload, backed.grow longer⟩

/-- The block that is read from such a message is the one it carries. -/
theorem Carried.read {acknowledged : List CString} {message : Message} (carried : Carried acknowledged message) {block : Block}
    (parsed : (blockFromCsv (.ofMemory message.payload)).result = .ok block) : Backed acknowledged block := by
  obtain ⟨candidate, writable, payload, backed⟩ := carried
  have read := readBack writable ((List.takeWhile_prefix _).trans payload) parsed
  have whole := written writable.previousHash writable.merkleRoot writable.sized backed.valid
  rw [parsed_rejoined whole.2] at read
  exact read ▸ backed

/-- What a miner works with is covered by what it has acknowledged. -/
structure Covered (acknowledged : List CString) (miner : Miner) : Prop where
  pool : ∀ transaction, miner.mempool.transactions.count transaction ≤ acknowledged.count transaction
  valid : ∀ transaction ∈ miner.mempool.transactions, ValidTransaction transaction
  attempting : ∀ candidate, miner.mining = .attempting candidate → Backed acknowledged candidate

theorem Covered.turn {acknowledged : List CString} {miner state : Miner} (covered : Covered acknowledged miner)
    (mempool : state.mempool = miner.mempool)
    (mining : state.mining = miner.mining ∨ ∀ candidate, state.mining ≠ .attempting candidate) : Covered acknowledged state := by
  refine ⟨mempool ▸ covered.pool, mempool ▸ covered.valid, fun candidate same => ?_⟩
  rcases mining with unchanged | calm
  · exact covered.attempting candidate (unchanged ▸ same)
  · exact absurd same (calm candidate)

theorem Covered.accept {acknowledged : List CString} {miner : Miner} (covered : Covered acknowledged miner)
    {transaction : CString} (valid : ValidTransaction transaction) {mempool : Mempool}
    (added : mempool.transactions = miner.mempool.transactions ++ [transaction]) :
    Covered (acknowledged ++ [transaction]) { miner with mempool } := by
  refine ⟨fun other => ?_, fun other member => ?_, fun candidate same => ?_⟩
  · have before := covered.pool other
    simp only [added, List.count_append]
    omega
  · rcases List.mem_append.mp (added ▸ member) with old | new
    · exact covered.valid other old
    · rwa [List.mem_singleton.mp new]
  · exact (covered.attempting candidate same).grow (List.prefix_append _ _)

theorem Covered.clean {acknowledged : List CString} {miner : Miner} (covered : Covered acknowledged miner)
    (included : List CString) (communication : Communication) :
    Covered acknowledged { miner with mempool := mempoolRemoveIncluded miner.mempool included, communication } := by
  refine ⟨fun transaction => ?_, fun transaction member => ?_, covered.attempting⟩
  · simp only [removeIncluded_count]
    split
    · exact Nat.zero_le _
    · exact covered.pool transaction
  · exact covered.valid transaction (removeIncluded_subset _ _ transaction member)

/-- A candidate is a beginning of the pool. -/
theorem Covered.build {acknowledged : List CString} {miner : Miner} (covered : Covered acknowledged miner) {candidate : Block}
    (batch : candidate.transactions = mempoolSnapshot miner.mempool maxTransactionsPerBlock) :
    Covered acknowledged { miner with mining := .attempting candidate } := by
  have taken : candidate.transactions.Sublist miner.mempool.transactions := batch ▸ List.take_sublist _ _
  refine ⟨covered.pool, covered.valid, fun built same => ?_⟩
  cases same
  exact ⟨fun transaction member => covered.valid transaction (taken.subset member),
    fun transaction => Nat.le_trans (taken.count_le transaction) (covered.pool transaction)⟩

/-- The miners, their proposals and their committed blocks. -/
structure Sourced (network : Network φ μ) : Prop where
  miners : ∀ m, Covered (network.acknowledged m) (network.miners m)
  proposals : ∀ m message, (m, message) ∈ network.proposals → Carried (network.acknowledged m) message
  committed : ∀ m block, (some m, block) ∈ network.committed → Backed (network.acknowledged m) block

private theorem change_covered {network : Network φ μ} {m : μ} {action : Action φ μ} {state : Miner} {accepted : List CString}
    {indices : List UInt64} {sent : Option Message} (covered : Covered (network.acknowledged m) (network.miners m))
    (change : MinerChange sha256 network m action state accepted indices sent) :
    Covered (network.acknowledged m ++ accepted) state ∧ ∀ message ∈ sent, Carried (network.acknowledged m ++ accepted) message := by
  have resync (thread : Thread) (next : Option Resync) {moved : Miner} (mempool : moved.mempool = (network.miners m).mempool)
      (mining : moved.mining = (network.miners m).mining) :
      Covered (network.acknowledged m) (moved.continueResync next thread) := by
    cases thread with
    | communication => exact covered.turn mempool (.inl mining)
    | mining => exact covered.turn mempool (.inr (by cases next <;> simp [Miner.continueResync]))
  cases change with
  | accepts transaction mempool valid added => exact ⟨covered.accept valid added, by simp⟩
  | proposes candidate message attempting writable payload =>
    rw [List.append_nil]
    refine ⟨covered.turn rfl (.inr (by simp)), fun other member => ?_⟩
    cases member
    exact ⟨candidate, writable, payload, covered.attempting candidate attempting⟩
  | cleans block => exact ⟨by rw [List.append_nil]; exact covered.clean block.transactions _, by simp⟩
  | builds timestamp nonce index previousHash started sized =>
    exact ⟨by rw [List.append_nil]; exact covered.build rfl, by simp⟩
  | learns thread next => exact ⟨by rw [List.append_nil]; exact resync thread next rfl rfl, by simp⟩
  | resets thread => exact ⟨by rw [List.append_nil]; exact resync thread none rfl rfl, by simp⟩
  | installs thread => exact ⟨by rw [List.append_nil]; exact resync thread none rfl rfl, by simp⟩
  | starts => exact ⟨by rw [List.append_nil]; exact covered.turn rfl (.inr (by simp)), by simp⟩
  | halts mining calm =>
    refine ⟨?_, by simp⟩
    rw [List.append_nil]
    exact covered.turn rfl (.inr (by rcases calm with rfl | rfl <;> simp))
  | same | asked | shutsDown | ignores | advances =>
    refine ⟨?_, by simp⟩
    rw [List.append_nil]
    exact covered.turn rfl (.inl rfl)

/-- The coordinator's part of a step. -/
private theorem commit_sourced {network after : Network φ μ} {action : Action φ μ} (step : CommitStep sha256 network action after)
    (sourced : Sourced network) : ∀ m block, (some m, block) ∈ after.committed → Backed (network.acknowledged m) block := by
  intro m block member
  cases step with
  | kept _ _ committed => exact sourced.committed m block (committed ▸ member)
  | grown proposer message new source parsed _ _ _ committed =>
    rcases List.mem_append.mp (committed ▸ member) with old | last
    · exact sourced.committed m block old
    · rw [List.mem_singleton, Prod.mk.injEq] at last
      obtain ⟨rfl, rfl⟩ := last
      rcases source with ⟨_, impossible, _⟩ | ⟨_, same, sent⟩
      · cases impossible
      · cases same
        exact (sourced.proposals m message sent).read parsed

theorem start_sourced (coordinator : Node) (followers : φ → Node) (minerId : μ → Nat) :
    Sourced (start coordinator followers minerId) := by
  refine ⟨fun m => ⟨fun _ => Nat.zero_le _, by simp [start, Miner.start, mempoolInit], by simp [start, Miner.start]⟩,
    by simp [start], by simp [start]⟩

section Steps
variable [DecidableEq μ] [DecidableEq φ]

/-- No acknowledgement is taken back. -/
theorem acknowledged_grows {network : Network φ μ} (authority : Authority sha256 network) (action : Action φ μ) (m : μ) :
    network.acknowledged m <+: (network.step sha256 action).acknowledged m := by
  cases step_miners authority action with
  | none same => rw [same.acknowledged]
  | one changedMiner state accepted indices sent change changed =>
    rw [changed.acknowledged]
    by_cases this : m = changedMiner
    · subst this
      rw [Function.update_self]
      exact List.prefix_append _ _
    · rw [Function.update_of_ne this]

theorem step_sourced {network : Network φ μ} (authority : Authority sha256 network) (sourced : Sourced network)
    (action : Action φ μ) : Sourced (network.step sha256 action) := by
  have committed := commit_sourced (step_commit authority action) sourced
  cases step_miners authority action with
  | none same =>
    refine ⟨fun m => ?_, fun m message member => ?_, fun m block member => ?_⟩
    · rw [same.acknowledged, same.miners]
      exact sourced.miners m
    · rw [same.acknowledged]
      exact sourced.proposals m message (same.proposals ▸ member)
    · rw [same.acknowledged]
      exact committed m block member
  | one changedMiner state accepted indices sent change changed =>
    obtain ⟨covered, carried⟩ := change_covered (sourced.miners changedMiner) change
    have longer := acknowledged_grows authority action
    refine ⟨fun m => ?_, fun m message member => ?_, fun m block member => (committed m block member).grow (longer m)⟩
    · rw [changed.acknowledged, changed.miners]
      by_cases this : m = changedMiner
      · subst this
        rwa [Function.update_self, Function.update_self]
      · rw [Function.update_of_ne this, Function.update_of_ne this]
        exact sourced.miners m
    · rcases List.mem_append.mp (changed.proposals ▸ member) with old | new
      · exact (sourced.proposals m message old).grow (longer m)
      · simp only [Option.mem_toList, Option.map_eq_some_iff, Prod.mk.injEq] at new
        obtain ⟨_, written, rfl, rfl⟩ := new
        rw [changed.acknowledged, Function.update_self]
        exact carried _ written

/-- In every run, whatever is lost, late or repeated, the transactions of a block that a miner got into the chain
are valid, and none stands in it more often than that miner has acknowledged it. -/
theorem committed_blocks_are_backed (sha256 : HashFunction) (coordinator : Node) (followers : φ → Node) (minerId : μ → Nat)
    (isCoordinator : coordinator.isCoordinator = true)
    (chain : coordinator.chain.blocks = [] ∨ (validateBlockchain sha256 coordinator.chain.blocks).result = .ok ())
    (actions : List (Action φ μ)) :
    let network := (start coordinator followers minerId).run sha256 actions
    ∀ m block, (some m, block) ∈ network.committed →
      (∀ transaction ∈ block.transactions, (validateTransaction transaction).result = .ok ()) ∧
        ∀ transaction, block.transactions.count transaction ≤ (network.acknowledged m).count transaction := by
  intro network m block member
  have authority : Authority sha256 (start coordinator followers minerId) :=
    start_authority isCoordinator (chain.imp_right (blockchain_ok sha256).mp)
  have sourced := run_preserves Sourced (fun _ authority sourced action => step_sourced authority sourced action) authority
    (start_sourced coordinator followers minerId) actions
  have backed := sourced.committed m block member
  exact ⟨fun transaction inside => validateTransaction_ok.mpr (backed.valid transaction inside), backed.counted⟩

private theorem step_authored {network : Network φ μ} (authority : Authority sha256 network) {action : Action φ μ}
    (fromMiners : onlyMiners action = true) (authored : ∀ entry ∈ network.committed, entry.1 ≠ none) :
    ∀ entry ∈ (network.step sha256 action).committed, entry.1 ≠ none := by
  cases step_commit authority action with
  | kept _ _ committed => exact committed ▸ authored
  | grown proposer message block source _ _ _ _ committed =>
    intro entry member
    rcases List.mem_append.mp (committed ▸ member) with old | new
    · exact authored entry old
    · rw [List.mem_singleton.mp new]
      rcases source with ⟨heap, _, rfl, proposal⟩ | ⟨m, rfl, _⟩
      · rw [onlyMiners, proposal] at fromMiners
        cases fromMiners
      · exact Option.some_ne_none m

end Steps

/-- A payment that was submitted, mined, delivered and announced. -/
theorem mined_payment_is_backed :
    let network := pairNetwork.run sha256Bytes handledCommit
    ∀ m block, (some m, block) ∈ network.committed →
      (∀ transaction ∈ block.transactions, (validateTransaction transaction).result = .ok ()) ∧
        ∀ transaction, block.transactions.count transaction ≤ (network.acknowledged m).count transaction :=
  committed_blocks_are_backed sha256Bytes ⟨0, blockchainInit, []⟩ Empty.elim Fin.val rfl (Or.inl rfl) handledCommit

end ProcessChain.Proofs.Provenance
