import ProcessChain.Miner
import ProcessChain.Proofs.Storage

/-! One specification for every step of a miner. -/

namespace ProcessChain.Proofs.MinerSteps
open Lib Lib.FailStop Csv Crypto Validation Storage

variable {sha256 : HashFunction}

/-- Dropping a slot removes one occurrence of what stood in it. -/
private theorem dropSlot_perm (transactions : List CString) (slot : Nat) (inside : slot < transactions.length) :
    (transactions[slot] :: dropSlot transactions slot inside).Perm transactions := by
  obtain ⟨front, last, rfl⟩ := (List.eq_nil_or_concat' transactions).resolve_left (List.ne_nil_of_length_pos (by omega))
  simp only [dropSlot, List.getLast_append_singleton]
  by_cases early : slot < front.length
  · rw [List.set_append_left _ _ early, List.dropLast_concat, List.getElem_append_left early]
    calc
      List.Perm (front[slot] :: front.set slot last) (front[slot] :: last :: front.eraseIdx slot) :=
        (List.set_perm_cons_eraseIdx early last).cons _
      List.Perm _ (last :: front[slot] :: front.eraseIdx slot) := List.Perm.swap _ _ _
      List.Perm _ (last :: front) := (List.getElem_cons_eraseIdx_perm early).cons last
      List.Perm _ (front ++ [last]) := (List.perm_append_singleton last front).symm
  · obtain rfl : slot = front.length := by
      simp only [List.length_append, List.length_singleton] at inside
      omega
    simp only [List.set_append_right _ _ (Nat.le_refl _), Nat.sub_self, List.set_cons_zero, List.dropLast_concat,
      List.getElem_concat_length]
    exact (List.perm_append_singleton last front).symm

/-- Cleaning the pool removes every copy of an included transaction and no other. -/
theorem removeLoop_count (included transactions : List CString) (index : Nat)
    (before : ∀ transaction ∈ transactions.take index, transaction ∉ included) (transaction : CString) :
    (removeLoop included transactions index).count transaction =
      if transaction ∈ included then 0 else transactions.count transaction := by
  fun_induction removeLoop included transactions index with
  | case1 transactions index inside matched ih =>
    have kept : (dropSlot transactions index inside).take index = transactions.take index := by
      rw [dropSlot, List.dropLast_eq_take, List.length_set, List.take_take, Nat.min_eq_left (by omega),
        List.take_set_of_le (Nat.le_refl _)]
    rw [ih (kept ▸ before)]
    split
    · rfl
    next wanted =>
      have different : transactions[index] ≠ transaction := fun same => wanted (same ▸ matched)
      rw [← (dropSlot_perm transactions index inside).count_eq, List.count_cons_of_ne different]
  | case2 transactions index inside other ih =>
    apply ih
    intro earlier member
    rw [List.take_add_one, List.getElem?_eq_getElem inside, Option.toList_some] at member
    rcases List.mem_append.mp member with old | new
    · exact before earlier old
    · rwa [List.mem_singleton.mp new]
  | case3 transactions index done =>
    split
    next unwanted =>
      rw [List.take_of_length_le (by omega)] at before
      exact List.count_eq_zero.mpr fun member => before transaction member unwanted
    next => rfl

theorem removeIncluded_count (pool : Mempool) (included : List CString) (transaction : CString) :
    (mempoolRemoveIncluded pool included).transactions.count transaction =
      if transaction ∈ included then 0 else pool.transactions.count transaction :=
  removeLoop_count included pool.transactions 0 (by simp) transaction

theorem removeIncluded_subset (pool : Mempool) (included : List CString) :
    ∀ transaction ∈ (mempoolRemoveIncluded pool included).transactions, transaction ∈ pool.transactions :=
  (removeLoop_subset included pool.transactions 0).2

/-- A submission is refused without an effect, or the transaction is valid, is
added to the pool and is acknowledged. -/
inductive Submitted (miner : Miner) (transaction : CString) : Miner × Option Message → Prop
  | refused {reply : Option Message} (answer : reply.map Message.payload ≠ some (ascii "OK")) :
      Submitted miner transaction (miner, reply)
  | accepted {mempool : Mempool} {reply : Option Message} (valid : ValidTransaction transaction)
      (added : mempool.transactions = miner.mempool.transactions ++ [transaction])
      (answer : reply.map Message.payload = some (ascii "OK")) :
      Submitted miner transaction ({ miner with mempool }, reply)

private theorem submitError_answer (miner : Miner) (error : ProjectError) :
    (submitError miner error).map Message.payload ≠ some (ascii "OK") := by
  intro same
  obtain ⟨message, sent, payload⟩ := Option.map_eq_some_iff.mp same
  have start := ipcSend_payload sent
  have letters : ascii "OK" = [79, 75] ∧ ascii "ERR " = [69, 82, 82, 32] := by decide
  simp only [payload, letters, List.cons_append, List.cons_prefix_cons] at start
  exact absurd start.1 (by decide)

theorem submit_ensures (miner : Miner) (payload : Bytes) :
    Ensures (handleTxSubmit miner payload) (Submitted miner (submittedTransaction payload)) fun _ => True := by
  unfold handleTxSubmit
  apply (attempt_ensures _).bind
  intro result valid
  cases result with
  | error error => exact .pure (.refused (submitError_answer miner error)) fun _ => trivial
  | ok done =>
    have valid := validateTransaction_ok.mp (valid done rfl)
    dsimp only
    split
    next error _ => exact .pure (.refused (submitError_answer miner error)) fun _ => trivial
    next mempool added =>
      refine .pure (.accepted valid ?_ rfl) fun _ => trivial
      unfold mempoolAdd at added
      split at added
      · cases added
      · split at added
        · cases added
        · cases added
          rfl

/-- A commit is ignored, or its block has cleaned the pool and is about to move the view. -/
inductive Cleaned (sha256 : HashFunction) (miner : Miner) (payload : Bytes) : Miner → Prop
  | ignored : Cleaned sha256 miner payload miner
  | read (block : Block) (parsed : (blockFromCsv (.ofMemory payload)).result = .ok block) (hashable : Hashable block) :
      Cleaned sha256 miner payload { miner with
        mempool := mempoolRemoveIncluded miner.mempool block.transactions
        communication := .committing block.index (blockHash sha256 block) }

theorem commit_ensures (sha256 : HashFunction) (miner : Miner) (payload : Bytes) :
    Ensures (miner.handleBlockCommit sha256 payload) (Cleaned sha256 miner payload) fun _ => True := by
  unfold Miner.handleBlockCommit
  split
  · exact .pure .ignored trivial
  refine guarded_ensures .ignored ?_
  apply (attempt_ensures _).bind
  intro result parsed
  cases result with
  | error => exact .pure .ignored fun _ => trivial
  | ok block =>
    apply (attempt_ensures _).bind
    intro result hashed
    cases result with
    | error => exact .pure .ignored fun _ _ => trivial
    | ok hash =>
      obtain ⟨hashable, rfl⟩ := (blockHash_ok sha256).mp (hashed hash rfl)
      exact .pure (.read block (parsed block rfl) hashable) fun _ _ => trivial

/-- A resync that goes on after the block query installs the tip it has read, and
only a refusal stops it there. -/
theorem resyncBlock_ensures (sha256 : HashFunction) (reply : Option Bytes) :
    Ensures (resyncBlock sha256 reply)
      (fun next => ∀ phase ∈ next, ∃ payload ∈ reply, ∃ block, (blockFromCsv (.ofMemory payload)).result = .ok block ∧
        Hashable block ∧ phase = .install (block.index + 1) (blockHash sha256 block))
      fun next => ∀ payload ∈ reply, payload ≠ [] → ∀ block, (blockFromCsv (.ofMemory payload)).result = .ok block →
        Hashable block → next = some (.install (block.index + 1) (blockHash sha256 block)) := by
  have nothing : ∀ phase ∈ (none : Option Resync), ∃ payload ∈ reply, ∃ block,
      (blockFromCsv (.ofMemory payload)).result = .ok block ∧ Hashable block ∧
        phase = .install (block.index + 1) (blockHash sha256 block) := by simp
  unfold resyncBlock
  split
  · exact .pure nothing (by simp)
  · exact .pure nothing (by simp)
  next payload _ =>
    apply (malloc_ensures _).bind
    intro enough _
    cases enough with
    | false => exact .pure nothing (by simp)
    | true =>
      apply (attempt_ensures _).bind
      intro result parsed
      cases result with
      | error =>
        refine .pure nothing fun failed _ given same _ block readable => ?_
        cases same
        rw [readable] at failed
        cases failed.1
      | ok block =>
        have parsed := parsed block rfl
        apply (attempt_ensures _).bind
        intro result hashed
        cases result with
        | error =>
          refine .pure nothing fun failed _ _ given same _ other readable hashable => ?_
          cases same
          cases parsed.symm.trans readable
          rw [(blockHash_ok sha256).mpr ⟨hashable, rfl⟩] at failed
          cases failed.1
        | ok hash =>
          obtain ⟨hashable, rfl⟩ := (blockHash_ok sha256).mp (hashed hash rfl)
          refine .pure (fun phase same => ?_) fun _ _ _ given same _ other readable _ => ?_
          · exact ⟨payload, rfl, block, parsed, hashable, (Option.some.inj same).symm⟩
          · cases same
            cases parsed.symm.trans readable
            rfl

/-- After the height query a resync resets the view or asks for a block. -/
theorem resyncHeight_cases {reply : Option Bytes} {phase : Resync} (next : resyncHeight reply = some phase) :
    phase = .reset ∨ ∃ height, phase = .askBlock height := by
  unfold resyncHeight at next
  split at next
  · cases next
  · cases next
  · simp only [Option.bind_eq_bind, Option.bind_eq_some_iff] at next
    obtain ⟨number, _, height, _, found⟩ := next
    split at found
    · cases found
    · split at found
      · exact Or.inl (Option.some.inj found).symm
      · exact Or.inr ⟨_, (Option.some.inj found).symm⟩

/-- The candidate that the mining loop builds from a batch. -/
def candidateOf (sha256 : HashFunction) (index : UInt64) (previousHash : CString) (batch : List CString)
    (timestamp nonce : UInt64) : Block :=
  ⟨index, timestamp, previousHash, merkleRoot sha256 batch, nonce, batch⟩

theorem buildCandidate_ok {index timestamp nonce : UInt64} {previousHash : CString} {batch : List CString}
    {candidate : Block} :
    (buildCandidate sha256 index previousHash batch timestamp nonce).result = .ok candidate ↔
      WellSized batch ∧ candidate = candidateOf sha256 index previousHash batch timestamp nonce := by
  simp only [buildCandidate, result_bind_eq_ok, addTransactions_ok, merkleRoot_ok, result_pure, Except.ok.injEq]
  constructor
  · intro built
    obtain ⟨_, ⟨rfl, short, few⟩, _, ⟨some, rfl⟩, rfl⟩ := built
    exact ⟨⟨some, by simpa using few some, short⟩, rfl⟩
  · intro sized
    obtain ⟨sized, rfl⟩ := sized
    exact ⟨_, ⟨rfl, sized.short, fun _ => by simpa using sized.few⟩, _, ⟨sized.some, rfl⟩, rfl⟩

/-- The mining thread has nothing to do, or a candidate from the oldest pending transactions. -/
inductive Built (sha256 : HashFunction) (miner : Miner) (timestamp nonce : UInt64) : Miner → Prop
  | idle : Built sha256 miner timestamp nonce miner
  | nothing : Built sha256 miner timestamp nonce { miner with mining := .ready }
  | candidate (index : UInt64) (previousHash : CString) (started : miner.mining = .started index previousHash)
      (sized : WellSized (mempoolSnapshot miner.mempool maxTransactionsPerBlock)) :
      Built sha256 miner timestamp nonce { miner with
        mining := .attempting (candidateOf sha256 index previousHash
          (mempoolSnapshot miner.mempool maxTransactionsPerBlock) timestamp nonce) }

theorem snapshot_sized {pool : Mempool} (some : mempoolSnapshot pool maxTransactionsPerBlock ≠ []) :
    WellSized (mempoolSnapshot pool maxTransactionsPerBlock) :=
  ⟨some, by simp [mempoolSnapshot], fun transaction member => pool.sized transaction (List.mem_of_mem_take member)⟩

theorem buildAttempt_ensures (sha256 : HashFunction) (miner : Miner) (timestamp nonce : UInt64) :
    Ensures (miner.buildAttempt sha256 timestamp nonce) (Built sha256 miner timestamp nonce) fun after =>
      ∀ index previousHash, miner.mining = .started index previousHash →
        mempoolSnapshot miner.mempool maxTransactionsPerBlock ≠ [] →
        after = { miner with mining := .attempting (candidateOf sha256 index previousHash
          (mempoolSnapshot miner.mempool maxTransactionsPerBlock) timestamp nonce) } := by
  unfold Miner.buildAttempt
  split
  next index previousHash started =>
    dsimp only
    split
    next none => exact .pure .nothing fun _ _ _ visible => absurd none visible
    next visible =>
      apply (attempt_ensures _).bind
      intro result built
      cases result with
      | error =>
        refine .pure .nothing fun failed => ?_
        rw [buildCandidate_ok.mpr ⟨snapshot_sized visible, rfl⟩] at failed
        cases failed.1
      | ok candidate =>
        obtain ⟨sized, rfl⟩ := buildCandidate_ok.mp (built candidate rfl)
        refine .pure (.candidate index previousHash started sized) fun _ other hash same _ => ?_
        rw [started] at same
        cases same
        rfl
  next other =>
    refine .pure .idle fun index previousHash started => ?_
    exact absurd started (other index previousHash)

/-- An attempt ends without a trace, or with the line of its candidate on the wire. -/
inductive Finished (miner : Miner) : Miner × Option Message → Prop
  | idle : Finished miner (miner, none)
  | silent : Finished miner ({ miner with mining := .ready }, none)
  | proposed (candidate : Block) (message : Message) (attempting : miner.mining = .attempting candidate)
      (type : message.has .blockProposal = true) (writable : Writable candidate)
      (payload : message.payload <+: (csvLine candidate).bytes) :
      Finished miner ({ miner with mining := .ready }, some message)

/-- The line of a block that can be written fits in one message. -/
theorem csvLine_short {block : Block} (writable : Writable block) : (csvLine block).length ≤ maxPayloadSize := by
  have joined := joinedLength_le writable.sized
  rw [csvLine_length writable.previousHash writable.merkleRoot]
  simp only [maxTransactionsPerBlock, maxTransactionLength, sha256HexLength, maxPayloadSize] at joined ⊢
  omega

theorem ipcSend_line {block : Block} (writable : Writable block) (type : MessageType) (sender : UInt32) :
    ipcSend type sender (csvLine block).bytes (csvLine block).length = some ⟨type.code, sender, (csvLine block).bytes⟩ :=
  ipcSend_fits type sender (csvLine_short writable)

/-- What is proposed is the whole line of the candidate. -/
theorem propose_ensures (miner : Miner) (candidate : Block) :
    Ensures (proposeBlock miner candidate)
      (fun sent => ∀ message ∈ sent, Writable candidate ∧
        message = ⟨MessageType.blockProposal.code, miner.sender, (csvLine candidate).bytes⟩)
      fun sent => Writable candidate →
        sent = some ⟨MessageType.blockProposal.code, miner.sender, (csvLine candidate).bytes⟩ := by
  apply (attempt_ensures _).bind
  intro result written
  cases result with
  | error =>
    refine .pure (by simp) fun failed writable => ?_
    rw [toCsv_ok.mpr ⟨writable, rfl⟩] at failed
    cases failed.1
  | ok line =>
    obtain ⟨writable, rfl⟩ := toCsv_ok.mp (written line rfl)
    have sent := ipcSend_line writable .blockProposal miner.sender
    refine .pure (fun message same => ⟨writable, ?_⟩) fun _ _ => sent
    exact Option.some.inj (same.symm.trans sent)

theorem finishAttempt_ensures (miner : Miner) (mined : Bool) :
    Ensures (miner.finishAttempt mined) (Finished miner) fun _ => True := by
  unfold Miner.finishAttempt
  split
  next candidate attempting =>
    dsimp only
    split
    · exact .pure .silent trivial
    split
    · apply (propose_ensures miner candidate).bind
      intro message sent
      cases message with
      | none => exact .pure .silent fun _ => trivial
      | some message =>
        obtain ⟨writable, rfl⟩ := sent message rfl
        have type : Message.has ⟨MessageType.blockProposal.code, miner.sender, (csvLine candidate).bytes⟩ .blockProposal = true := by
          simp [Message.has, MessageType.ofCode_code]
        exact .pure (.proposed candidate _ attempting type writable List.prefix_rfl) fun _ => trivial
    · exact .pure .silent trivial
  next => exact .pure .idle trivial

end ProcessChain.Proofs.MinerSteps
