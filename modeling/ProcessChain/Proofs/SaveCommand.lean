import ProcessChain.Commands
import ProcessChain.Proofs.ChainQuery

/-! What the save command does to a file. It never asks whether the response is an
answer: an error text replaces the file as well as a chain does, and so does the
header of an empty chain. The file survives exactly when the coordinator sends
nothing at all, or a chain that can be read back. -/

namespace ProcessChain.Proofs.SaveCommand
open Lib Lib.FailStop Csv Validation Storage Handlers Allocation Recovery ChainFile Loading Saving ChainQuery

variable {sha256 : HashFunction}

/-- What the coordinator makes of the request, and the memory after it. -/
def ran (sha256 : HashFunction) (node : Node) (answers : List Bool) : Option Message × Heap :=
  node.answerTo sha256 saveRequest ⟨answers, false⟩

/-- Whatever of the coordinator's reply arrives, the file is as before or is loaded as the chain. -/
def Keeps (sha256 : HashFunction) (node : Node) (answers : List Bool) : Prop :=
  ∀ (opened : Bool) (file : Option Bytes) (response : Option Message),
    response = none ∨ response = (ran sha256 node answers).1 →
      commandSaveBlockchain opened file response = file ∨
        ∃ contents ∈ commandSaveBlockchain opened file response, LoadsAs contents node.chain.blocks

/-- The block is written on a line that is read as the same block. -/
def Restorable (block : Block) : Prop :=
  ∃ line, (blockToCsv block).result = .ok line ∧ (blockFromCsv line).result = .ok block

/-- All lines can be written, and their text is too long for a message. -/
structure TooLong (blocks : List Block) : Prop where
  written : ∀ block ∈ blocks, ∃ line, (blockToCsv block).result = .ok line
  long : maxPayloadSize < answerSize blocks % 2 ^ 32

/-- There are lines, all of them can be read back, and their text fits into a message. -/
structure Deliverable (blocks : List Block) : Prop where
  some : blocks ≠ []
  restorable : ∀ block ∈ blocks, Restorable block
  fits : answerSize blocks ≤ maxPayloadSize

/-- Only a reply can do harm, and only to a file that can be opened. -/
theorem keeps_iff {node : Node} {answers : List Bool} :
    Keeps sha256 node answers ↔ ∀ reply ∈ (ran sha256 node answers).1, LoadsAs reply.payload node.chain.blocks := by
  constructor
  · intro keeps reply sent
    rcases keeps true none (some reply) (Or.inr sent.symm) with same | loads
    · cases same
    · obtain ⟨contents, written, loaded⟩ := loads
      cases written
      exact loaded
  · intro loads opened file response arrived
    cases response with
    | none => exact Or.inl rfl
    | some reply =>
      cases opened with
      | false => exact Or.inl rfl
      | true =>
        rcases arrived with absent | sent
        · cases absent
        · exact Or.inr ⟨reply.payload, rfl, loads reply sent.symm⟩

def ErrorText (text : String) : Prop := text = "serialization failed" ∨ text = "out of memory"

def ErrorReply (node : Node) (reply : Option Message) : Prop :=
  ∃ text, ErrorText text ∧ reply = some ⟨MessageType.responseErr.code, node.sender, ascii text⟩

/-- The reply with all blocks of the chain. -/
def ChainReply (node : Node) (reply : Option Message) : Prop :=
  reply = ipcSend .responseOk node.sender (csvHeader ++ syncText node.chain.blocks)
    (csvHeader ++ syncText node.chain.blocks).length

private theorem error_reply {node : Node} {text : String} (known : ErrorText text) :
    ErrorReply node (node.answer .responseErr text text.length).reply := by
  refine ⟨text, known, ?_⟩
  rcases known with rfl | rfl <;> rfl

private theorem exhausted_reply (node : Node) : ErrorReply node (node.answer .responseErr "out of memory" 13).reply :=
  ⟨"out of memory", Or.inr rfl, rfl⟩

/-- The reply is an error or the whole chain; without a refusal it is the chain if that can be written. -/
theorem answer_ensures (node : Node) :
    Ensures (answerChain node 0)
      (fun handled => ErrorReply node handled.reply ∨
        (∀ block ∈ node.chain.blocks, Writable block) ∧ ChainReply node handled.reply)
      fun handled => (∀ block ∈ node.chain.blocks, Writable block) → ChainReply node handled.reply := by
  unfold answerChain
  apply (malloc_ensures initialBufferCapacity).bind
  intro enough _
  cases enough with
  | false => exact .pure (Or.inl (exhausted_reply node)) (by simp)
  | true =>
    apply (chainLines_ensures _ _ _).bind
    intro result lines
    cases result with
    | error text =>
      refine .pure (Or.inl (error_reply (lines.2 text rfl))) fun complete _ writable => ?_
      obtain ⟨final, same⟩ := complete writable
      cases same
    | ok buffer =>
      obtain ⟨writable, rfl⟩ := lines.1 buffer rfl
      exact .pure (Or.inr ⟨writable, rfl⟩) fun _ _ _ => rfl

private theorem chainLines_reveals (blocks : List Block) (buffer : Bytes) (capacity : Nat) :
    Reveals (chainLines blocks buffer capacity) fun result => ∃ text, ErrorText text ∧ result = .error text := by
  induction blocks generalizing buffer capacity with
  | nil => exact .pure _
  | cons block rest ih =>
    apply (attempt_reveals (blockToCsv block)).bind
    · intro result
      cases result with
      | error error => exact .pure _
      | ok line =>
        apply (attempt_reveals (growBuffer _ _)).bind
        · intro result
          cases result with
          | error error => exact .pure _
          | ok grown => exact ih _ _
        · intro result failed supply
          obtain ⟨error, rfl⟩ := failed
          exact ⟨_, Or.inr rfl, rfl⟩
    · intro result failed supply
      obtain ⟨error, rfl⟩ := failed
      exact ⟨_, Or.inl rfl, rfl⟩

/-- Memory that runs out shows in the reply. -/
theorem answer_reveals (node : Node) : Reveals (answerChain node 0) fun handled => ErrorReply node handled.reply := by
  unfold answerChain
  apply (malloc_reveals initialBufferCapacity).bind
  · intro enough
    cases enough with
    | false => exact .pure _
    | true =>
      apply (chainLines_reveals _ _ _).bind
      · intro result
        cases result <;> exact .pure _
      · intro result failed supply
        obtain ⟨text, known, rfl⟩ := failed
        exact error_reply known
  · intro enough failed supply
    cases failed
    exact exhausted_reply node

/-- What one heap rejects is not the file of any chain. -/
theorem not_loaded {contents : Bytes} (small : contents.length < 2 ^ 47)
    (rejected : (blockchainLoadCsv contents openHeap).1.isOk = false) (blocks : List Block) : ¬ LoadsAs contents blocks := by
  intro loads
  obtain ⟨chain, accepted⟩ := loads.accepted openHeap (congrArg Supply.refused (load_grants small).supply)
  rw [accepted] at rejected
  cases rejected

theorem error_not_loaded {text : String} (known : ErrorText text) (blocks : List Block) : ¬ LoadsAs (ascii text) blocks := by
  rcases known with rfl | rfl
  · exact not_loaded (by decide) (by decide +kernel) blocks
  · exact not_loaded (by decide) (by decide +kernel) blocks

/-- Where every reply is loaded as the chain, no error is among them. -/
private theorem loaded_calm {node : Node} {answers : List Bool}
    (loads : ∀ reply ∈ (ran sha256 node answers).1, LoadsAs reply.payload node.chain.blocks) :
    ¬ ErrorReply node (ran sha256 node answers).1 := by
  intro failed
  obtain ⟨text, known, sent⟩ := failed
  exact error_not_loaded known _ (loads _ sent)

private theorem written_iff {block : Block} : (∃ line, (blockToCsv block).result = .ok line) ↔ Writable block := by
  constructor
  · intro written
    obtain ⟨line, written⟩ := written
    exact (toCsv_ok.mp written).1
  · exact fun writable => ⟨csvLine block, toCsv_ok.mpr ⟨writable, rfl⟩⟩

theorem restorable_iff {block : Block} :
    Restorable block ↔ Writable block ∧ rejoined block.transactions = block.transactions := by
  constructor
  · intro restorable
    obtain ⟨line, written, parsed⟩ := restorable
    exact ⟨(toCsv_ok.mp written).1, parsed_rejoined parsed⟩
  · intro rules
    obtain ⟨writable, whole⟩ := rules
    refine ⟨csvLine block, toCsv_ok.mpr ⟨writable, rfl⟩, (RoundTrip.fromCsv_csvLine writable).mpr ?_⟩
    exact (RoundTrip.rejoined_same writable.sized.some writable.plain).mp whole

/-- The chain reply is not sent, or it is loaded as the chain exactly when the chain is deliverable. -/
theorem chainReply_loads {node : Node} {reply : Option Message} (writable : ∀ block ∈ node.chain.blocks, Writable block)
    (answered : ChainReply node reply) :
    (∀ message ∈ reply, LoadsAs message.payload node.chain.blocks) ↔
      TooLong node.chain.blocks ∨ Deliverable node.chain.blocks := by
  rw [ChainReply] at answered
  constructor
  · intro loads
    by_cases long : maxPayloadSize < answerSize node.chain.blocks % 2 ^ 32
    · exact Or.inl ⟨fun block member => written_iff.mpr (writable block member), long⟩
    cases reply with
    | none =>
      have sent := answered
      rw [answer_size writable, ipcSend, if_neg long] at sent
      cases sent
    | some reply =>
      have short := delivered_short answered.symm
      have carries := (loadsAs_iff (Nat.lt_of_le_of_lt short (by decide))).mp (loads reply rfl)
      have bounded := delivered_bounded writable answered.symm carries
      rw [Nat.mod_eq_of_lt bounded] at long
      refine Or.inr ⟨carries.some, ?_, Nat.le_of_not_lt long⟩
      intro block member
      obtain ⟨line, parsed⟩ := carried_parsed carries block member
      exact restorable_iff.mpr ⟨writable block member, parsed_rejoined parsed⟩
  · intro text reply sent
    rw [sent] at answered
    rcases text with long | deliverable
    · rw [answer_size writable, ipcSend, if_pos long.long] at answered
      cases answered
    · have fits := deliverable.fits
      have bounded : answerSize node.chain.blocks < 2 ^ 32 := Nat.lt_of_le_of_lt fits (by decide)
      apply (delivered_loads writable answered.symm deliverable.some ?_).mpr bounded
      exact fun block member => (restorable_iff.mp (deliverable.restorable block member)).2

/-- A file survives the save command, whatever it contains, exactly when nothing was
refused and the text of the chain is either not sent or a file with the chain. -/
theorem saving_keeps_files (sha256 : HashFunction) (node : Node) (answers : List Bool) :
    Keeps sha256 node answers ↔
      (node.answerTo sha256 saveRequest ⟨answers, false⟩).2.refused = false ∧
        (TooLong node.chain.blocks ∨ Deliverable node.chain.blocks) := by
  have said := answer_ensures node
  rw [keeps_iff]
  constructor
  · intro loads
    have calm := loaded_calm loads
    rcases said.always ⟨answers, false⟩ with failed | answered
    · exact absurd failed calm
    · refine ⟨?_, (chainReply_loads answered.1 answered.2).mp loads⟩
      cases refused : (ran sha256 node answers).2.refused with
      | false => exact refused
      | true =>
        rcases answer_reveals node ⟨answers, false⟩ refused with earlier | failed
        · cases earlier
        · exact absurd failed calm
  · intro rules
    obtain ⟨calm, text⟩ := rules
    have writable : ∀ block ∈ node.chain.blocks, Writable block := by
      intro block member
      rcases text with long | deliverable
      · exact written_iff.mp (long.written block member)
      · exact (restorable_iff.mp (deliverable.restorable block member)).1
    exact (chainReply_loads writable ((said.granted ⟨answers, false⟩ calm).2 writable)).mpr text

/-- A first block with quotes in it, which the rules for chains allow. -/
def quotedBlock : Block :=
  { genesisBlock with
    merkleRoot := Crypto.merkleRoot sha256Bytes [.text "Genesis \"block\""]
    transactions := [.text "Genesis \"block\""] }

theorem quotedBlock_fits : [quotedBlock].length ≤ 4 := by simp

/-- A coordinator with this block alone. -/
def quotedNode : Node := ⟨0, ⟨[quotedBlock], 4, quotedBlock_fits, Tamper.four_allocated⟩, []⟩

/-- A coordinator that was started without a file. -/
def emptyNode : Node := ⟨0, blockchainInit, []⟩

theorem quoted_accepted : (validateBlockchain sha256Bytes quotedNode.chain.blocks).result = .ok () := by
  have genesis := fixture_valid.sound genesisBlock (by simp)
  have sized : WellSized quotedBlock.transactions := ⟨by decide, by decide, by decide⟩
  have root : isLowercaseHexHash quotedBlock.merkleRoot = true := Crypto.merkleRoot_lowercase sha256Bytes sized.some
  have sound : Sound sha256Bytes quotedBlock :=
    ⟨⟨genesis.previousHash, root, sized, fun ordinary => absurd rfl ordinary⟩, rfl⟩
  exact (blockchain_ok sha256Bytes).mpr (validChain_single.mpr ⟨sound, rfl⟩)

/-- An error text replaces whatever was in the file, and so does the bare header of an empty chain. -/
theorem files_destroyed :
    (validateBlockchain sha256Bytes quotedNode.chain.blocks).result = .ok () ∧
      (∀ file, commandSaveBlockchain true file (quotedNode.answerTo sha256Bytes saveRequest openHeap).1 =
        some (ascii "serialization failed")) ∧
      ¬ Keeps sha256Bytes quotedNode [] ∧
      (∀ file, commandSaveBlockchain true file (emptyNode.answerTo sha256Bytes saveRequest openHeap).1 = some csvHeader) ∧
      ¬ Keeps sha256Bytes emptyNode [] := by
  have failed : (quotedNode.answerTo sha256Bytes saveRequest openHeap).1 =
      some ⟨MessageType.responseErr.code, 0, ascii "serialization failed"⟩ := by decide +kernel
  have bare : (emptyNode.answerTo sha256Bytes saveRequest openHeap).1 =
      some ⟨MessageType.responseOk.code, 0, csvHeader⟩ := by decide +kernel
  refine ⟨quoted_accepted, fun file => by rw [failed]; rfl, ?_, fun file => by rw [bare]; rfl, ?_⟩
  · intro keeps
    exact loaded_calm (keeps_iff.mp keeps) ⟨"serialization failed", Or.inl rfl, failed⟩
  · intro keeps
    exact not_loaded (by decide +kernel) (by decide +kernel) _ (keeps_iff.mp keeps _ bare)

end ProcessChain.Proofs.SaveCommand
