import ProcessChain.Proofs.Handlers

/-! Nothing that is done with a single block needs much memory: the limits for
transactions bound every request. A heap that refuses nothing within the address
space therefore never makes these functions fail. -/

namespace ProcessChain.Proofs.Allocation
open Lib Lib.FailStop Csv Validation Storage Handlers

variable {sha256 : HashFunction} {limit : Nat}

/-- Enough for any single block. -/
def blockAllowance : Nat := 8192

private theorem within_orFail {α : Type} {error : ProjectError} {program : Alloc α} (within : Within limit program) :
    Within limit (program.orFail error) := by
  intro request made
  obtain ⟨original, member, rfl⟩ := List.mem_map.mp made
  exact within original member

theorem within_addTransactions (enough : blockAllowance ≤ limit) (block : Block) (transactions : List CString) :
    Within limit (addTransactions block transactions) := by
  simp only [blockAllowance] at enough
  induction transactions generalizing block with
  | nil => exact within_pure block
  | cons transaction rest ih =>
    refine within_bind ?_ fun later _ => ih later
    refine within_bind within_failIf fun _ short => ?_
    refine within_bind within_failIf fun _ few => ?_
    have short := result_failIf_eq_ok.mp short
    have few := result_failIf_eq_ok.mp few
    simp only [maxTransactionLength, maxTransactionsPerBlock] at short few
    refine within_bind (within_request (by omega)) fun _ _ => ?_
    refine within_bind (within_request (by simp only [pointerSize]; omega)) fun _ _ => ?_
    exact within_pure _

theorem within_blockToCsv (enough : blockAllowance ≤ limit) (block : Block) : Within limit (blockToCsv block) := by
  refine within_bind within_failIf fun _ _ => ?_
  refine within_bind within_failIf fun _ few => ?_
  refine within_bind ?_ fun _ sized => ?_
  · apply within_forM
    intro transaction _
    exact within_bind within_failIf fun _ _ => within_failIf
  have few := result_failIf_eq_ok.mp few
  have wellSized : WellSized block.transactions := by
    refine ⟨fun none => few (Or.inl none), by omega, ?_⟩
    intro transaction member
    obtain ⟨_, short, _⟩ := result_bind_eq_ok.mp (result_forM_eq_ok.mp sized transaction member)
    have short := result_failIf_eq_ok.mp short
    omega
  have joined := joinedLength_le wellSized
  simp only [maxTransactionsPerBlock, maxTransactionLength, blockAllowance] at joined enough
  refine within_bind (within_request (by simp only [sha256HexLength]; omega)) fun _ _ => ?_
  refine within_bind within_failIf fun _ _ => ?_
  refine within_bind within_failIf fun _ _ => ?_
  exact within_pure _

private theorem within_parseHexU64 (text : CString) : Within limit (parseHexU64 text) := by
  refine within_bind within_failIf fun _ _ => ?_
  split
  · exact within_fail _
  · exact within_bind within_failIf fun _ _ => within_pure _

theorem within_blockFromCsv (enough : blockAllowance ≤ limit) {line : CString} (short : line.length < limit) :
    Within limit (blockFromCsv line) := by
  refine within_bind (within_request short) fun _ _ => ?_
  split
  · exact within_fail _
  · refine within_bind within_failIf fun _ _ => ?_
    refine within_bind within_failIf fun _ _ => ?_
    refine within_bind (within_parseHexU64 _) fun _ _ => ?_
    refine within_bind (within_parseHexU64 _) fun _ _ => ?_
    refine within_bind within_failIf fun _ _ => ?_
    refine within_bind within_failIf fun _ _ => ?_
    refine within_bind (within_parseHexU64 _) fun _ _ => ?_
    refine within_bind within_failIf fun _ _ => ?_
    exact within_addTransactions enough _ _

private theorem within_validateHashString (hash : CString) : Within limit (validateHashString hash) :=
  within_bind within_failIf fun _ _ => within_forM fun _ _ => within_failIf

theorem within_validateTransaction (transaction : CString) : Within limit (validateTransaction transaction) := by
  refine within_bind within_failIf fun _ _ => ?_
  refine within_bind (within_request (Nat.zero_le _)) fun _ _ => ?_
  refine within_bind (within_request (Nat.zero_le _)) fun _ _ => ?_
  exact within_failIf

theorem within_validateBlockStructure (block : Block) : Within limit (validateBlockStructure block) := by
  refine within_bind (within_orFail (within_validateHashString _)) fun _ _ => ?_
  refine within_bind (within_orFail (within_validateHashString _)) fun _ _ => ?_
  refine within_bind within_failIf fun _ _ => ?_
  split
  · exact within_forM fun _ _ => within_failIf
  · exact within_forM fun transaction _ => within_orFail (within_validateTransaction transaction)

private theorem within_merkleLevels (level : List CString) (enough : (level.length + 2) * hashSlotSize ≤ limit) :
    Within limit (merkleLevels sha256 level) := by
  fun_induction merkleLevels sha256 level with
  | case1 level ih =>
    have half := combineHashes_length sha256 (evenLevel sha256 level)
    have even := evenLevel_length sha256 level
    simp only [hashSlotSize] at enough ih
    refine within_bind (within_request (by simp only [hashSlotSize]; omega)) fun _ _ => ?_
    split
    next more => exact ih more (by omega)
    next => exact within_pure _

theorem within_validateBlockMerkleRoot (enough : blockAllowance ≤ limit) (block : Block) :
    Within limit (validateBlockMerkleRoot sha256 block) := by
  refine within_bind (within_validateBlockStructure block) fun _ wellFormed => ?_
  have few := (structure_ok.mp wellFormed).sized.few
  simp only [maxTransactionsPerBlock, blockAllowance] at few enough
  refine within_bind ?_ fun _ _ => within_failIf
  refine within_bind within_failIf fun _ _ => ?_
  refine within_bind (within_request (by simp only [hashSlotSize]; omega)) fun _ _ => ?_
  refine within_bind (within_merkleLevels _ ?_) fun _ _ => within_pure _
  simp only [List.length_map, hashSlotSize]
  omega

theorem within_validateBlockLink (enough : blockAllowance ≤ limit) (previous current : Block) :
    Within limit (validateBlockLink sha256 previous current) := by
  refine within_bind (within_orFail (within_validateBlockMerkleRoot enough previous)) fun _ sound => ?_
  refine within_bind (within_orFail (within_validateBlockMerkleRoot enough current)) fun _ _ => ?_
  refine within_bind within_failIf fun _ _ => ?_
  refine within_bind within_failIf fun _ _ => ?_
  refine within_bind ?_ fun _ _ => within_failIf
  refine within_bind ?_ fun _ _ => within_pure _
  have joined := joinedLength_le ((merkle_ok sha256).mp (result_orFail_eq_ok.mp sound)).sized
  simp only [maxTransactionsPerBlock, maxTransactionLength, blockAllowance] at joined enough
  refine within_bind within_failIf fun _ _ => ?_
  refine within_bind within_failIf fun _ _ => ?_
  refine within_bind (within_request (by simp only [sha256HexLength]; omega)) fun _ _ => ?_
  refine within_bind within_failIf fun _ _ => ?_
  refine within_bind within_failIf fun _ _ => ?_
  exact within_pure _

theorem attempt_grants {α : Type} {program : Alloc α} (within : Within ptrdiffMax program) :
    Grants (attempt program) fun result => result = program.result :=
  FailStop.grants within

theorem succeeds_grants {program : Alloc Unit} (within : Within ptrdiffMax program) :
    Grants (succeeds program) fun _ => True := by
  apply (attempt_grants within).bind
  intro result _
  cases result with
  | error error => exact .pure trivial
  | ok done => exact .pure trivial

/-- A buffer of a size that the address space can hold. -/
theorem guarded_grants {α : Type} {size : Nat} {early : α} {rest : HeapM α} {post : α → Prop} (small : size ≤ ptrdiffMax)
    (continued : Grants rest post) :
    Grants (do
      if !(← succeeds (malloc size)) then return early
      rest) post := by
  apply ((succeeds_grants (within_request small)).ensured (malloc_ensures size)).bind
  intro enough granted
  rw [granted]
  exact continued

private theorem allowance : blockAllowance ≤ ptrdiffMax := by decide

theorem validAgainst_grants (last : Option Block) (first : Bool) (block : Block) :
    Grants (validAgainst sha256 last first block) fun _ => True := by
  unfold validAgainst
  apply (succeeds_grants (within_validateBlockStructure block)).bind
  intro wellFormed _
  cases wellFormed with
  | false => exact .pure trivial
  | true =>
    apply (succeeds_grants (within_validateBlockMerkleRoot allowance block)).bind
    intro rooted _
    cases rooted with
    | false => exact .pure trivial
    | true =>
      cases last with
      | none => exact .pure trivial
      | some last => exact succeeds_grants (within_validateBlockLink allowance last block)

/-- A chain with room for another block does not ask for a larger array. -/
theorem append_grants {chain : Blockchain} (room : chain.blocks.length < chain.capacity) (block : Block) :
    Grants (blockchainAppend chain block) fun outcome =>
      outcome.2.blocks.length ≤ chain.blocks.length + 1 ∧ outcome.2.capacity = chain.capacity := by
  have reserve : blockchainReserve chain = pure ⟨chain, rfl, room⟩ := dif_neg (Nat.ne_of_lt room)
  unfold blockchainAppend
  rw [reserve]
  apply (attempt_grants (within_pure _)).bind
  intro result same
  cases same
  apply (attempt_grants (within_addTransactions allowance _ _)).bind
  intro result _
  cases result with
  | error error => exact .pure ⟨Nat.le_succ _, rfl⟩
  | ok copy => exact .pure ⟨by simp, rfl⟩

private theorem broadcast_grants (node : Node) (block : Block) : Grants (broadcastCommit node block) fun _ => True := by
  apply (attempt_grants (within_blockToCsv allowance block)).bind
  intro written _
  cases written with
  | error error => exact .pure trivial
  | ok line => exact .pure trivial

/-- A coordinator with room for another block takes a proposal without being refused anything. -/
theorem proposal_grants {node : Node} (room : node.chain.blocks.length < node.chain.capacity) {message : Message}
    (small : message.payload.length < ptrdiffMax) : Grants (handleBlockProposal sha256 node message) fun _ => True := by
  have short : (CString.ofMemory message.payload).length < ptrdiffMax :=
    Nat.lt_of_le_of_lt (List.takeWhile_prefix _).length_le small
  unfold handleBlockProposal
  split
  · exact .pure trivial
  refine guarded_grants small ?_
  apply (attempt_grants (within_blockFromCsv allowance short)).bind
  intro result _
  cases result with
  | error error => exact .pure trivial
  | ok proposed =>
    apply (validAgainst_grants _ _ _).bind
    intro admits _
    cases admits with
    | false => exact .pure trivial
    | true =>
      apply (append_grants room proposed).bind
      intro appended _
      obtain ⟨result, chain⟩ := appended
      cases result with
      | error error => exact .pure trivial
      | ok done =>
        dsimp only
        cases chain.last with
        | none => exact .pure trivial
        | some last => exact (broadcast_grants node last).bind fun _ _ => .pure trivial

/-- A chain whose array is not much larger than its blocks need. -/
structure Compact (chain : Blockchain) : Prop where
  capacity : chain.capacity ≤ 2 * chain.blocks.length + initialBlockchainCapacity
  count : chain.blocks.length < 2 ^ 48

private theorem reserve_grants {chain : Blockchain} (compact : Compact chain) :
    Within ptrdiffMax (blockchainReserve chain) ∧ ∀ reserved, (blockchainReserve chain).result = .ok reserved →
      reserved.grown.capacity ≤ 2 * chain.blocks.length + initialBlockchainCapacity := by
  have capacity := compact.capacity
  have count := compact.count
  simp only [initialBlockchainCapacity] at capacity ⊢
  unfold blockchainReserve
  split
  next full =>
    have small : (if chain.capacity = 0 then initialBlockchainCapacity else chain.capacity * 2) * sizeofBlock ≤ ptrdiffMax := by
      simp only [initialBlockchainCapacity, sizeofBlock, ptrdiffMax]
      split <;> omega
    simp only [blockchainGrow, malloc, dif_pos small]
    refine ⟨within_bind (within_request small) fun _ _ => within_pure _, ?_⟩
    intro reserved same
    obtain ⟨_, _, made⟩ := result_bind_eq_ok.mp same
    cases Except.ok.inj made
    simp only [initialBlockchainCapacity]
    split <;> omega
  next =>
    refine ⟨within_pure _, ?_⟩
    intro reserved same
    cases same
    exact capacity

/-- A compact chain grows without a request that is too large, and stays compact. -/
theorem grow_grants {chain : Blockchain} (compact : Compact chain) (block : Block) :
    Grants (blockchainAppend chain block) fun outcome =>
      outcome.2.blocks.length ≤ chain.blocks.length + 1 ∧
        outcome.2.capacity ≤ 2 * outcome.2.blocks.length + initialBlockchainCapacity := by
  obtain ⟨within, lean⟩ := reserve_grants compact
  have capacity := compact.capacity
  unfold blockchainAppend
  apply (attempt_grants within).bind
  intro result same
  cases result with
  | error error => exact .pure ⟨Nat.le_succ _, capacity⟩
  | ok reserved =>
    have enough := lean reserved same.symm
    obtain ⟨grown, blocks, room⟩ := reserved
    apply (attempt_grants (within_addTransactions allowance _ _)).bind
    intro result _
    cases result with
    | error error => exact .pure ⟨by rw [blocks]; exact Nat.le_succ _, by rw [blocks]; exact enough⟩
    | ok copy =>
      refine .pure ⟨by simp [blocks], ?_⟩
      simp only [List.length_append, List.length_singleton, blocks] at enough ⊢
      omega

theorem syncLoop_grants {lines : List CString} (short : ∀ line ∈ lines, line.length < ptrdiffMax) {chain : Blockchain}
    (room : chain.blocks.length + lines.length ≤ chain.capacity) : Grants (syncLoop sha256 lines chain) fun _ => True := by
  induction lines generalizing chain with
  | nil => exact .pure trivial
  | cons line rest ih =>
    rw [List.length_cons] at room
    have step : Grants (syncBlock sha256 chain line) fun after =>
        after.blocks.length ≤ chain.blocks.length + 1 ∧ after.capacity = chain.capacity := by
      unfold syncBlock
      apply (attempt_grants (within_blockFromCsv allowance (short line (by simp)))).bind
      intro result _
      cases result with
      | error error => exact .pure ⟨Nat.le_succ _, rfl⟩
      | ok synced =>
        apply (validAgainst_grants _ _ _).bind
        intro valid _
        cases valid with
        | false => exact .pure ⟨Nat.le_succ _, rfl⟩
        | true =>
          apply (append_grants (by omega) synced).bind
          exact fun outcome bound => .pure bound
    apply step.bind
    intro after bound
    apply ih fun line member => short line (by simp [member])
    omega

end ProcessChain.Proofs.Allocation
