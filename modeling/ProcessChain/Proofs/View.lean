import ProcessChain.Proofs.MinerActions

/-! The miners' views of the tip. Index and hash always move together and always
come from one block of the coordinator's chain, however old it is by then. -/

namespace ProcessChain.Proofs.View
open Lib Lib.FailStop Csv Crypto Validation Handlers MinerSteps Coordinator MinerActions ProcessChain.Network

variable {φ μ : Type} {sha256 : HashFunction}

/-- The initial view, or the index and hash that follow a block of the chain. -/
def Consistent (sha256 : HashFunction) (blocks : List Block) (nextIndex : UInt64) (previousHash : CString) : Prop :=
  (nextIndex = 0 ∧ previousHash = zeroHash) ∨
    ∃ position block, blocks[position]? = some block ∧ nextIndex.toNat = position + 1 ∧
      (calculateBlockHash sha256 block).result = .ok previousHash

private theorem consistent_grows {blocks grown : List Block} {nextIndex : UInt64} {previousHash : CString}
    (consistent : Consistent sha256 blocks nextIndex previousHash) (start : blocks <+: grown) :
    Consistent sha256 grown nextIndex previousHash := by
  rcases consistent with initial | ⟨position, block, found, index, hash⟩
  · exact Or.inl initial
  · refine Or.inr ⟨position, block, ?_, index, hash⟩
    obtain ⟨rest, rfl⟩ := start
    exact List.getElem?_append_left (List.getElem?_eq_some_iff.mp found).1 ▸ found

theorem consistent_bounded {blocks : List Block} {nextIndex : UInt64} {previousHash : CString}
    (consistent : Consistent sha256 blocks nextIndex previousHash) : nextIndex.toNat ≤ blocks.length := by
  rcases consistent with initial | ⟨position, block, found, index, _⟩
  · rw [initial.1]
    exact Nat.zero_le _
  · rw [index]
    exact (List.getElem?_eq_some_iff.mp found).1

/-- A block that was read keeps the hash and the index of the block it was written for. -/
theorem read_consistent {chain : Blockchain} (settled : Settled sha256 chain.blocks) {block : Block}
    (read : ReadFrom chain.blocks block) : Consistent sha256 chain.blocks (block.index + 1) (blockHash sha256 block) := by
  obtain ⟨written, member, _, same⟩ := read.source
  have valid : ValidChain sha256 chain.blocks := settled.resolve_left (List.ne_nil_of_mem member)
  obtain ⟨position, inside, found⟩ := List.mem_iff_getElem.mp member
  have located : chain.blocks[position]? = some written := by rw [List.getElem?_eq_getElem inside, found]
  refine Or.inr ⟨position, written, located, ?_, ?_⟩
  · have bound := chain.count_lt
    have index := index_position settled located
    rw [show block.index = written.index by rw [same], UInt64.toNat_add, UInt64.toNat_one]
    simp only [Blockchain.count] at bound
    omega
  · refine (blockHash_ok sha256).mpr ⟨(valid.sound written member).hashable, ?_⟩
    rw [same, blockHash_rejoined]

/-- A statement about index and hash that holds of every pair a miner works with. -/
structure Holds (claim : UInt64 → CString → Prop) (miner : Miner) : Prop where
  view : claim miner.nextIndex miner.previousHash
  committing : ∀ index hash, miner.communication = .committing index hash → claim (index + 1) hash
  installing : ∀ thread nextIndex previousHash,
    miner.resync thread = some (.install nextIndex previousHash) → claim nextIndex previousHash
  started : ∀ nextIndex previousHash, miner.mining = .started nextIndex previousHash → claim nextIndex previousHash
  attempting : ∀ candidate, miner.mining = .attempting candidate → claim candidate.index candidate.previousHash

variable {claim : UInt64 → CString → Prop}

theorem Holds.weaken {other : UInt64 → CString → Prop} {miner : Miner} (holds : Holds claim miner)
    (weaker : ∀ nextIndex previousHash, claim nextIndex previousHash → other nextIndex previousHash) : Holds other miner :=
  ⟨weaker _ _ holds.view, fun index hash same => weaker _ _ (holds.committing index hash same),
    fun thread nextIndex previousHash same => weaker _ _ (holds.installing thread nextIndex previousHash same),
    fun nextIndex previousHash same => weaker _ _ (holds.started nextIndex previousHash same),
    fun candidate same => weaker _ _ (holds.attempting candidate same)⟩

private theorem moveView_holds {miner : Miner} (holds : Holds claim miner) {nextIndex : UInt64} {previousHash : CString}
    (new : claim nextIndex previousHash) : Holds claim (miner.moveView nextIndex previousHash) :=
  ⟨new, holds.committing, holds.installing, holds.started, holds.attempting⟩

private theorem continueResync_holds {miner : Miner} (holds : Holds claim miner) (thread : Thread) {next : Option Resync}
    (known : ∀ nextIndex previousHash, next = some (.install nextIndex previousHash) → claim nextIndex previousHash) :
    Holds claim (miner.continueResync next thread) := by
  cases thread with
  | communication =>
    refine ⟨holds.view, fun index hash same => ?_, fun thread nextIndex previousHash same => ?_, holds.started, holds.attempting⟩
    · cases next <;> cases same
    · cases thread with
      | communication => cases next with
        | none => cases same
        | some phase => exact known nextIndex previousHash same
      | mining => exact holds.installing .mining nextIndex previousHash same
  | mining =>
    refine ⟨holds.view, holds.committing, fun thread nextIndex previousHash same => ?_, fun nextIndex previousHash same => ?_,
      fun candidate same => ?_⟩
    · cases thread with
      | communication => exact holds.installing .communication nextIndex previousHash same
      | mining => cases next with
        | none => cases same
        | some phase => exact known nextIndex previousHash same
    · cases next <;> cases same
    · cases next <;> cases same

/-- A thread that turns to something without a pair of its own. -/
private theorem idle_holds {miner : Miner} (holds : Holds claim miner) {communication : Communication}
    (calm : communication = .idle ∨ communication = .resyncing .askHeight) :
    Holds claim { miner with communication } := by
  refine ⟨holds.view, fun index hash same => ?_, fun thread nextIndex previousHash same => ?_, holds.started, holds.attempting⟩
  · rcases calm with rfl | rfl <;> cases same
  · cases thread with
    | communication => rcases calm with rfl | rfl <;> cases same
    | mining => exact holds.installing .mining nextIndex previousHash same

private theorem mining_holds {miner : Miner} (holds : Holds claim miner) {mining : Mining}
    (resyncing : ∀ phase, mining ≠ .resyncing phase)
    (started : ∀ nextIndex previousHash, mining = .started nextIndex previousHash → claim nextIndex previousHash)
    (attempting : ∀ candidate, mining = .attempting candidate → claim candidate.index candidate.previousHash)
    (restartMining : Bool) : Holds claim { miner with restartMining, mining } := by
  refine ⟨holds.view, holds.committing, fun thread nextIndex previousHash same => ?_, started, attempting⟩
  cases thread with
  | communication => exact holds.installing .communication nextIndex previousHash same
  | mining =>
    cases mining with
    | resyncing phase => exact absurd rfl (resyncing phase)
    | ready => cases same
    | started => cases same
    | attempting => cases same
    | stopped => cases same

/-- What holds of the initial pair and of every block that was read from the
coordinator stays true of all pairs of a miner. -/
theorem change_holds [DecidableEq μ] {network : Network φ μ} {m : μ} {action : Action φ μ} {state : Miner}
    {accepted : List CString} {indices : List UInt64} {sent : Option Message}
    (change : MinerChange sha256 network m action state accepted indices sent) (initial : claim 0 zeroHash)
    (read : ∀ block, ReadFrom network.coordinator.chain.blocks block → claim (block.index + 1) (blockHash sha256 block))
    (holds : Holds claim (network.miners m)) : Holds claim state := by
  cases change with
  | same => exact holds
  | accepts transaction mempool =>
    exact ⟨holds.view, holds.committing, holds.installing, holds.started, holds.attempting⟩
  | asked => exact idle_holds holds (Or.inr rfl)
  | shutsDown => exact ⟨holds.view, holds.committing, holds.installing, holds.started, holds.attempting⟩
  | cleans block fromChain announced =>
    refine ⟨holds.view, fun index hash same => ?_, fun thread nextIndex previousHash same => ?_, holds.started, holds.attempting⟩
    · cases same
      exact read block fromChain
    · cases thread with
      | communication => cases same
      | mining => exact holds.installing .mining nextIndex previousHash same
  | ignores index hash committing old => exact idle_holds holds (Or.inl rfl)
  | advances index hash committing new =>
    exact idle_holds (moveView_holds holds (holds.committing index hash committing)) (Or.inl rfl)
  | learns thread next known =>
    refine continueResync_holds holds thread fun nextIndex previousHash same => ?_
    obtain ⟨block, fromChain, rfl, rfl⟩ := known nextIndex previousHash same
    exact read block fromChain
  | resets thread resync => exact continueResync_holds (moveView_holds holds initial) thread (by simp)
  | installs thread nextIndex previousHash resync =>
    exact continueResync_holds (moveView_holds holds (holds.installing thread nextIndex previousHash resync)) thread (by simp)
  | starts =>
    refine mining_holds holds (by simp) (fun nextIndex previousHash same => ?_) (by simp) false
    cases same
    exact holds.view
  | halts mining calm =>
    have quiet : Holds claim { network.miners m with restartMining := (network.miners m).restartMining, mining } := by
      rcases calm with rfl | rfl <;> exact mining_holds holds (by simp) (by simp) (by simp) _
    exact quiet
  | builds timestamp nonce index previousHash started sized =>
    refine mining_holds holds (by simp) (by simp) (fun candidate same => ?_) (network.miners m).restartMining
    cases same
    exact holds.started index previousHash started
  | proposes candidate message attempting writable payload =>
    exact mining_holds holds (by simp) (by simp) (by simp) (network.miners m).restartMining

/-- The views of all miners against the coordinator's chain. -/
def Oriented (sha256 : HashFunction) (network : Network φ μ) : Prop :=
  ∀ m, Holds (Consistent sha256 network.coordinator.chain.blocks) (network.miners m)

section Steps
variable [DecidableEq φ] [DecidableEq μ]

theorem step_oriented {network : Network φ μ} (authority : Authority sha256 network) (oriented : Oriented sha256 network)
    (action : Action φ μ) : Oriented sha256 (network.step sha256 action) := by
  intro m
  have grows := (step_authority authority action).2
  refine Holds.weaken ?_ fun nextIndex previousHash consistent => consistent_grows consistent grows
  cases step_miners authority action with
  | none same => exact same.miners ▸ oriented m
  | one changedMiner state accepted indices sent change changed =>
    rw [changed.miners, Function.update_apply]
    split
    · exact change_holds change (Or.inl ⟨rfl, rfl⟩) (fun _ => read_consistent authority.settled) (oriented changedMiner)
    · exact oriented m

theorem run_oriented {network : Network φ μ} (authority : Authority sha256 network) (oriented : Oriented sha256 network)
    (actions : List (Action φ μ)) : Oriented sha256 (network.run sha256 actions) :=
  run_preserves (Oriented sha256) (fun _ => step_oriented) authority oriented actions

end Steps

theorem start_oriented (sha256 : HashFunction) (coordinator : Node) (followers : φ → Node) (minerId : μ → Nat) :
    Oriented sha256 (start coordinator followers minerId) := by
  intro m
  refine ⟨Or.inl ⟨rfl, rfl⟩, ?_, ?_, ?_, ?_⟩
  · intro index hash same
    cases same
  · intro thread nextIndex previousHash same
    cases thread <;> cases same
  · intro nextIndex previousHash same
    cases same
  · intro candidate same
    cases same

/-- However commits, queries, resyncs and mining iterations interleave, every view
and every candidate of a miner is the initial one or continues a block of the
coordinator's chain, with its index and its hash. -/
theorem miner_views_are_consistent [DecidableEq φ] [DecidableEq μ] (sha256 : HashFunction) (coordinator : Node)
    (followers : φ → Node) (minerId : μ → Nat) (isCoordinator : coordinator.isCoordinator = true)
    (accepted : (validateBlockchain sha256 coordinator.chain.blocks).result = .ok ()) (actions : List (Action φ μ)) :
    let network := (start coordinator followers minerId).run sha256 actions
    ∀ m, Consistent sha256 network.coordinator.chain.blocks (network.miners m).nextIndex (network.miners m).previousHash ∧
      ∀ candidate, (network.miners m).mining = .attempting candidate →
        Consistent sha256 network.coordinator.chain.blocks candidate.index candidate.previousHash := by
  intro network m
  have settled : Settled sha256 coordinator.chain.blocks := Or.inr ((blockchain_ok sha256).mp accepted)
  have oriented := run_oriented (start_authority isCoordinator settled)
    (start_oriented sha256 coordinator followers minerId) actions
  exact ⟨(oriented m).view, (oriented m).attempting⟩

/-- A miner that asks for the height before and for the block after the chain has grown. -/
theorem late_resync_is_consistent :
    let network := (start (genesisNode 0) (fun follower : Fin 1 => genesisNode (follower.val + 1))
        fun miner : Fin 2 => miner.val).run sha256Bytes
      [.query 0 .mining true openHeap openHeap, .toCoordinator ⟨3, 1, (csvLine paymentBlock).bytes⟩ openHeap,
        .deliverCommitToMiner 0 0 openHeap, .query 0 .mining true openHeap openHeap, .finishCommit 0, .finishResync 0 .mining]
    Consistent sha256Bytes network.coordinator.chain.blocks (network.miners 0).nextIndex (network.miners 0).previousHash :=
  (miner_views_are_consistent sha256Bytes (genesisNode 0) _ _ rfl genesis_accepted _ 0).1

end ProcessChain.Proofs.View
