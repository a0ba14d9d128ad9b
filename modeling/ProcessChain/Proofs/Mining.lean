import ProcessChain.Proofs.Handlers
import ProcessChain.Proofs.MinerSteps

/-! From the pool to the chain. A candidate that is built on the tip from accepted
transactions is written, proposed, read, validated and appended as it is. -/

namespace ProcessChain.Proofs.Mining
open Lib Lib.FailStop Csv Crypto Validation Handlers MinerSteps

variable {sha256 : HashFunction}

/-- Pools that are filled by submissions and cleaned by commits. -/
inductive Filled : Mempool → Prop
  | empty : Filled mempoolInit
  | submit (miner : Miner) (payload : Bytes) (heap : Heap) (filled : Filled miner.mempool) :
      Filled (handleTxSubmit miner payload heap).1.1.mempool
  | remove (pool : Mempool) (included : List CString) (filled : Filled pool) : Filled (mempoolRemoveIncluded pool included)

theorem filled_valid {pool : Mempool} (filled : Filled pool) :
    ∀ transaction ∈ pool.transactions, ValidTransaction transaction := by
  induction filled with
  | empty => simp [mempoolInit]
  | submit miner payload heap _ ih =>
    have outcome := (submit_ensures miner payload).always heap
    generalize (handleTxSubmit miner payload heap).1 = result at outcome ⊢
    cases outcome with
    | refused => exact ih
    | accepted valid added =>
      intro transaction member
      rcases List.mem_append.mp (added ▸ member) with earlier | new
      · exact ih transaction earlier
      · rwa [List.mem_singleton.mp new]
  | remove pool included _ ih =>
    exact fun transaction member => ih transaction (removeIncluded_subset pool included transaction member)

/-- The view of a miner that is up to date with a chain. -/
inductive UpToDate (sha256 : HashFunction) (chain : Blockchain) (nextIndex : UInt64) (previousHash : CString) : Prop
  | empty (none : chain.blocks = []) (first : nextIndex = 0) (zero : previousHash = zeroHash)
  | tip (accepted : (validateBlockchain sha256 chain.blocks).result = .ok ()) (last : Block)
      (found : chain.last = some last) (next : nextIndex = chain.count.toUInt64)
      (hash : (calculateBlockHash sha256 last).result = .ok previousHash)

private theorem zeroHash_lowercase : isLowercaseHexHash zeroHash = true := by decide

/-- A candidate on the tip with valid transactions keeps the chain valid. -/
theorem candidate_valid {chain : Blockchain} {nextIndex timestamp : UInt64} (nonce : UInt64) {previousHash : CString}
    {batch : List CString} (current : UpToDate sha256 chain nextIndex previousHash)
    (fresh : ∀ last ∈ chain.last, last.timestamp ≤ timestamp) (sized : WellSized batch)
    (valid : ∀ transaction ∈ batch, ValidTransaction transaction) :
    Settled sha256 chain.blocks ∧
      ValidChain sha256 (chain.blocks ++ [candidateOf sha256 nextIndex previousHash batch timestamp nonce]) := by
  have sound (lowercase : isLowercaseHexHash previousHash = true) :
      Sound sha256 (candidateOf sha256 nextIndex previousHash batch timestamp nonce) :=
    ⟨⟨lowercase, merkleRoot_lowercase sha256 sized.some, sized, fun _ => valid⟩, rfl⟩
  cases current with
  | empty none first zero =>
    rw [none]
    exact ⟨Or.inl rfl, validChain_single.mpr ⟨sound (zero ▸ zeroHash_lowercase), first⟩⟩
  | tip accepted last found next hash =>
    have validChain := (blockchain_ok sha256).mp accepted
    obtain ⟨_, rfl⟩ := (blockHash_ok sha256).mp hash
    refine ⟨Or.inr validChain, (validChain_append found).mpr ⟨validChain, sound (hash_lowercase sha256 _), ?_, ?_, rfl⟩⟩
    · have positive := List.length_pos_iff.mpr validChain.some
      rw [Blockchain.last, List.getLast?_eq_getElem?] at found
      have index := validChain_index validChain found
      rw [index, candidateOf, next, Nat.toUInt64_eq, ← UInt64.ofNat_one, ← UInt64.ofNat_add]
      simp only [Blockchain.count]
      congr 1
      omega
    · exact fresh last found

/-- Whatever an up-to-date miner builds from its pool can be written, and the
coordinator that is sent the line says OK and appends exactly that block. -/
theorem mined_block_is_accepted (sha256 : HashFunction) (miner : Miner) (filled : Filled miner.mempool)
    (nextIndex : UInt64) (previousHash : CString) (started : miner.mining = .started nextIndex previousHash)
    (timestamp nonce : UInt64) (node : Node) (current : UpToDate sha256 node.chain nextIndex previousHash)
    (fresh : ∀ last ∈ node.chain.last, last.timestamp ≤ timestamp)
    (pending : mempoolSnapshot miner.mempool maxTransactionsPerBlock ≠ []) (heap : Heap)
    (granted : (miner.buildAttempt sha256 timestamp nonce heap).2.refused = false) :
    ∃ candidate line, (miner.buildAttempt sha256 timestamp nonce heap).1.mining = .attempting candidate ∧
      (blockToCsv candidate).result = .ok line ∧
      let proposal : Message := ⟨MessageType.blockProposal.code, miner.sender, line.bytes⟩
      (∀ heap, (proposeBlock miner candidate heap).2.refused = false →
        (proposeBlock miner candidate heap).1 = some proposal) ∧
      ∀ heap, (handleBlockProposal sha256 node proposal heap).2.refused = false →
        repliesOk (handleBlockProposal sha256 node proposal heap).1 = true ∧
          (handleBlockProposal sha256 node proposal heap).1.node.chain.blocks = node.chain.blocks ++ [candidate] := by
  have sized := snapshot_sized pending
  have valid : ∀ transaction ∈ mempoolSnapshot miner.mempool maxTransactionsPerBlock, ValidTransaction transaction :=
    fun transaction member => filled_valid filled transaction (List.mem_of_mem_take member)
  have built := ((buildAttempt_ensures sha256 miner timestamp nonce).granted heap granted).2 nextIndex previousHash started pending
  obtain ⟨settled, grown⟩ := candidate_valid nonce current fresh sized valid
  have sound := grown.sound _ (List.mem_append_right _ (List.mem_singleton_self _))
  obtain ⟨writable, parsed⟩ := written sound.previousHash sound.merkleRoot sized valid
  refine ⟨_, _, by rw [built], toCsv_ok.mpr ⟨writable, rfl⟩, fun heap unrefused => ?_, fun heap unrefused => ?_⟩
  · exact ((propose_ensures miner _).granted heap unrefused).2 writable
  · have visible : (csvLine (candidateOf sha256 nextIndex previousHash
        (mempoolSnapshot miner.mempool maxTransactionsPerBlock) timestamp nonce)).bytes ≠ [] :=
      List.ne_nil_of_mem (parsed_comma parsed)
    have accepted := ((proposal_ensures settled _).granted heap unrefused).2 _ visible (by rwa [CString.ofMemory_bytes]) grown
    exact ⟨accepted.reply, accepted.blocks⟩

/-- A miner of an empty chain that has accepted one payment. -/
def paidMiner : Miner :=
  { (handleTxSubmit (.start 1) (ascii "Al pays Bob 5 coins") openHeap).1.1 with mining := .started 0 zeroHash }

theorem first_payment_is_accepted :
    ∃ candidate line, (paidMiner.buildAttempt sha256Bytes 7 9 openHeap).1.mining = .attempting candidate ∧
      (blockToCsv candidate).result = .ok line ∧
      let proposal : Message := ⟨MessageType.blockProposal.code, paidMiner.sender, line.bytes⟩
      (∀ heap, (proposeBlock paidMiner candidate heap).2.refused = false →
        (proposeBlock paidMiner candidate heap).1 = some proposal) ∧
      ∀ heap, (handleBlockProposal sha256Bytes ⟨0, blockchainInit, []⟩ proposal heap).2.refused = false →
        repliesOk (handleBlockProposal sha256Bytes ⟨0, blockchainInit, []⟩ proposal heap).1 = true ∧
          (handleBlockProposal sha256Bytes ⟨0, blockchainInit, []⟩ proposal heap).1.node.chain.blocks = [candidate] :=
  mined_block_is_accepted sha256Bytes paidMiner (.submit (.start 1) _ openHeap .empty) 0 zeroHash rfl 7 9
    ⟨0, blockchainInit, []⟩ (.empty rfl rfl rfl) (by simp [Blockchain.last, blockchainInit]) (by decide +kernel) openHeap
    (by decide +kernel)

end ProcessChain.Proofs.Mining
