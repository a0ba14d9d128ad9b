import ProcessChain.Proofs.ChainFile

/-! Whether what a node stores can be sent. The parser takes every character
between the outer quotes, the rules for transactions leave the genesis block out
and a loaded file is not validated at all, so a quotation mark can enter a chain
and then makes its block unsendable. Nothing else can. -/

namespace ProcessChain.Proofs.Sending
open Lib Lib.FailStop Csv Validation Storage Handlers ChainFile

def Quoted (block : Block) : Prop := ∃ transaction ∈ block.transactions, 34 ∈ transaction.bytes

instance (block : Block) : Decidable (Quoted block) :=
  inferInstanceAs (Decidable (∃ transaction ∈ block.transactions, 34 ∈ transaction.bytes))

theorem parsed_pieces {line : CString} {block : Block} (parsed : (blockFromCsv line).result = .ok block)
    {transaction : CString} (member : transaction ∈ block.transactions) :
    ¬ doubleColon.bytes <:+: transaction.bytes ∧ ∀ byte ∈ transaction.bytes, byte ≠ 13 ∧ byte ≠ 10 := by
  obtain ⟨fields, read⟩ := fromCsv_ok.mp parsed
  rw [← read.transactions] at member
  obtain ⟨piece, inside, rfl⟩ := List.mem_map.mp member
  have start : (CString.ofMemory piece).bytes <+: piece := List.takeWhile_prefix _
  refine ⟨?_, ?_⟩
  · intro occurs
    exact separable_whole (pieces_separable (by decide) _) piece inside (occurs.trans start.isInfix)
  · intro byte letter
    -- the text between the quotes is part of the line up to its first line break
    have quoted : byte ∈ fields.transactions.dropLast.tail := by
      have joined := subset_intercalate doubleColon.bytes inside (start.subset letter)
      rwa [intercalate_pieces] at joined
    have field := (List.dropLast_sublist _).subset (List.mem_of_mem_tail quoted)
    have before := (splitFields_suffix read.split).subset field
    simpa using List.mem_takeWhile_imp before

theorem parsed_writable {line : CString} {block : Block} (parsed : (blockFromCsv line).result = .ok block)
    (plain : ¬ Quoted block) : Writable block := by
  obtain ⟨fields, read⟩ := fromCsv_ok.mp parsed
  refine ⟨read.previousLowercase, read.merkleLowercase, read.sized, ?_⟩
  intro transaction member
  obtain ⟨whole, letters⟩ := parsed_pieces parsed member
  have uncut : cutAt doubleColon.bytes transaction.bytes = none := (cutAt_none (by decide)).mpr whole
  have unquoted : 34 ∉ transaction.bytes := fun mark => plain ⟨transaction, member, mark⟩
  have unbroken : 10 ∉ transaction.bytes := fun feed => (letters 10 feed).2 rfl
  have unreturned : 13 ∉ transaction.bytes := fun feed => (letters 13 feed).1 rfl
  simp [conflictsWithCsv, uncut, unquoted, unbroken, unreturned]

variable {sha256 : HashFunction}

/-- Of the sound blocks only a genesis block may contain a quotation mark. -/
theorem sound_plain {block : Block} (sound : Sound sha256 block) (ordinary : block.index ≠ 0) : ¬ Quoted block := by
  intro quoted
  obtain ⟨transaction, member, mark⟩ := quoted
  exact absurd rfl (validTransaction_plain (sound.transactions ordinary transaction member) 34 mark).2.1

/-- The chain is as before, or has one more block: the sound one on the line. -/
def Receives (sha256 : HashFunction) (line : CString) (before after : List Block) : Prop :=
  after = before ∨ ∃ block, (blockFromCsv line).result = .ok block ∧ Sound sha256 block ∧ after = before ++ [block]

private theorem proposal_receives (node : Node) (message : Message) :
    Ensures (handleBlockProposal sha256 node message)
      (fun handled => Receives sha256 (.ofMemory message.payload) node.chain.blocks handled.node.chain.blocks)
      fun _ => True := by
  unfold handleBlockProposal
  split
  · exact .pure (Or.inl rfl) trivial
  refine guarded_ensures (Or.inl rfl) ?_
  apply (attempt_ensures _).bind
  intro result parsed
  cases result with
  | error error => exact .pure (Or.inl rfl) fun _ => trivial
  | ok proposed =>
    apply (validAgainst_ensures _ _ _).bind
    intro admits admitted
    cases admits with
    | false => exact .pure (Or.inl rfl) fun _ _ => trivial
    | true =>
      apply (append_ensures _ _).bind
      intro appended grown
      obtain ⟨result, chain⟩ := appended
      cases result with
      | error error => exact .pure (Or.inl grown) fun _ _ _ => trivial
      | ok done =>
        have received : Receives sha256 (.ofMemory message.payload) node.chain.blocks chain.blocks :=
          Or.inr ⟨proposed, parsed proposed rfl, (admitted rfl).1, grown⟩
        have newest : chain.last = some proposed := by rw [Blockchain.last, grown, List.getLast?_concat]
        simp only [newest]
        apply (broadcast_ensures node proposed).bind
        intro sent _
        exact .pure received fun _ _ _ _ => trivial

private theorem commit_receives (node : Node) (message : Message) :
    Ensures (handleBlockCommit sha256 node message)
      (fun handled => Receives sha256 (.ofMemory message.payload) node.chain.blocks handled.node.chain.blocks)
      fun _ => True := by
  unfold handleBlockCommit
  refine guarded_ensures (Or.inl rfl) ?_
  apply (attempt_ensures _).bind
  intro result parsed
  cases result with
  | error error => exact .pure (Or.inl rfl) fun _ => trivial
  | ok incoming =>
    dsimp only
    split
    · apply (validAgainst_ensures _ _ _).bind
      intro admits admitted
      cases admits with
      | false => exact .pure (Or.inl rfl) fun _ _ => trivial
      | true =>
        apply (append_ensures _ _).bind
        intro appended grown
        obtain ⟨result, chain⟩ := appended
        cases result with
        | error error => exact .pure (Or.inl grown) fun _ _ _ => trivial
        | ok done => exact .pure (Or.inr ⟨incoming, parsed incoming rfl, (admitted rfl).1, grown⟩) fun _ _ _ => trivial
    · split
      · exact .pure (Or.inl rfl) fun _ => trivial
      · exact .pure (Or.inl rfl) fun _ => trivial

/-- A message that brings a block for the chain. -/
def offersBlock (node : Node) (message : Message) : Bool :=
  message.has .blockCommit || (message.has .blockProposal && node.isCoordinator)

theorem message_receives (node : Node) (message : Message) :
    Ensures (node.handleMessage sha256 message)
      (fun handled => handled.node.chain.blocks = node.chain.blocks ∨ offersBlock node message = true ∧
        Receives sha256 (.ofMemory message.payload) node.chain.blocks handled.node.chain.blocks)
      fun _ => True := by
  have unchanged {handled : Handled} (untouched : Untouched node handled) :
      handled.node.chain.blocks = node.chain.blocks := by rw [untouched.node]
  unfold Node.handleMessage
  split
  next type =>
    split
    next coordinator =>
      have offers : offersBlock node message = true := by simp [offersBlock, Message.has, type, coordinator]
      exact (proposal_receives node message).weaken (fun _ received => Or.inr ⟨offers, received⟩) fun _ _ _ => trivial
    · exact .pure (Or.inl rfl) trivial
  · exact (queryChain_ensures node message).weaken (fun _ query => Or.inl (unchanged query)) fun _ _ _ => trivial
  · exact .pure (Or.inl rfl) trivial
  · exact (queryBlock_ensures node message).weaken (fun _ query => Or.inl (unchanged query.1)) fun _ _ _ => trivial
  · exact (syncRequest_ensures node message).weaken (fun _ query => Or.inl (unchanged query.1)) fun _ _ _ => trivial
  next type =>
    have offers : offersBlock node message = true := by simp [offersBlock, Message.has, type]
    exact (commit_receives node message).weaken (fun _ received => Or.inr ⟨offers, received⟩) fun _ _ _ => trivial
  · exact .pure (Or.inl rfl) trivial

/-- A line that is no genesis block with a quotation mark that validation accepts. -/
def PlainLine (sha256 : HashFunction) (line : CString) : Prop :=
  ∀ block, (blockFromCsv line).result = .ok block → block.index = 0 →
    (validateBlockMerkleRoot sha256 block).result = .ok () → ¬ Quoted block

/-- Nothing that the step brings for the chain is such a block. -/
def PlainEvent (sha256 : HashFunction) (node : Node) : NodeEvent → Prop
  | .message message _ => offersBlock node message = true → PlainLine sha256 (.ofMemory message.payload)
  | .syncReply _ reply _ => ∀ payload ∈ reply, ∀ line ∈ strtokLines (.ofMemory payload), PlainLine sha256 line

def Sendable (blocks : List Block) : Prop := ∀ block ∈ blocks, Writable block

private theorem sendable_append {line : CString} {blocks : List Block} {block : Block} (plain : PlainLine sha256 line)
    (sendable : Sendable blocks) (parsed : (blockFromCsv line).result = .ok block) (sound : Sound sha256 block) :
    Sendable (blocks ++ [block]) := by
  have unquoted : ¬ Quoted block := by
    by_cases genesis : block.index = 0
    · exact plain block parsed genesis ((merkle_ok sha256).mpr sound)
    · exact sound_plain sound genesis
  intro other member
  rcases List.mem_append.mp member with before | last
  · exact sendable other before
  · rw [List.mem_singleton.mp last]
    exact parsed_writable parsed unquoted

theorem step_sendable {node : Node} {event : NodeEvent} (plain : PlainEvent sha256 node event)
    (sendable : Sendable node.chain.blocks) : Sendable (node.step sha256 event).chain.blocks := by
  cases event with
  | message message heap =>
    rcases (message_receives node message).always heap with same | ⟨offers, received⟩
    · rw [Node.step, same]
      exact sendable
    · rw [Node.step]
      rcases received with same | ⟨block, parsed, sound, grown⟩
      · rw [same]
        exact sendable
      · rw [grown]
        exact sendable_append (plain offers) sendable parsed sound
  | syncReply slot reply heap =>
    simp only [Node.step]
    split
    · have kept := finishSync_keeps Sendable slot
        (fun payload member line inside _ _ before parsed admits =>
          sendable_append (plain payload member line inside) before parsed admits.1) sendable
      exact (kept.always heap).2
    · exact sendable

/-- Every step of a run is plain in the state in which it is made. -/
def PlainRun (sha256 : HashFunction) (node : Node) : List NodeEvent → Prop
  | [] => True
  | event :: rest => PlainEvent sha256 node event ∧ PlainRun sha256 (node.step sha256 event) rest

theorem run_sendable {node : Node} {events : List NodeEvent} (plain : PlainRun sha256 node events)
    (sendable : Sendable node.chain.blocks) : Sendable (node.run sha256 events).chain.blocks := by
  induction events generalizing node with
  | nil => exact sendable
  | cons event rest ih => exact ih plain.2 (step_sendable plain.1 sendable)

/-- No line of the initial state is a block with a quotation mark. -/
def PlainFile (initialState : Option Bytes) : Prop :=
  ∀ contents ∈ initialState, ∀ line ∈ blockLines (fgetsAll contents), ∀ block,
    (blockFromCsv line).result = .ok block → ¬ Quoted block

private theorem carried_line {chunks : List (Chunk UInt8)} {blocks : List Block} (carries : Carries chunks blocks)
    {block : Block} (member : block ∈ blocks) : ∃ line ∈ blockLines chunks, (blockFromCsv line).result = .ok block := by
  have inside : .ok block ∈ (blockLines chunks).map fun line => (blockFromCsv line).result := by
    rw [carries.parsed]
    exact List.mem_map_of_mem member
  obtain ⟨line, listed, parsed⟩ := List.mem_map.mp inside
  exact ⟨line, listed, parsed⟩

theorem start_sendable {nodeId : Nat} {runtimeDir : CString} {socket : Except ProjectError Unit}
    {initialState : Option Bytes} {heap : Heap} {node : Node}
    (started : (nodeInit nodeId runtimeDir socket initialState heap).1 = .ok node) (plain : PlainFile initialState) :
    Sendable node.chain.blocks := by
  cases initialState with
  | none =>
    have empty : node.chain.blocks = [] := nodeInit_empty started
    simp [Sendable, empty]
  | some contents =>
    obtain ⟨header, lines, found, _, _, carries⟩ := (nodeInit_loads started).lines
    intro block member
    obtain ⟨line, listed, parsed⟩ := carried_line carries member
    have among : line ∈ blockLines (fgetsAll contents) := by
      rw [found]
      simp only [blockLines, List.map_cons, List.filter_cons]
      split
      · exact List.mem_cons_of_mem _ listed
      · exact listed
    exact parsed_writable parsed (plain contents rfl line among block parsed)

/-- Whatever a node has stored can be sent, in every state of every run that brings
no block with a quotation mark into the chain: neither on a line of the initial
state nor as a genesis block that validation accepts. -/
theorem stored_blocks_can_be_sent (sha256 : HashFunction) {nodeId : Nat} {runtimeDir : CString}
    {socket : Except ProjectError Unit} {initialState : Option Bytes} {heap : Heap} {node : Node}
    (started : (nodeInit nodeId runtimeDir socket initialState heap).1 = .ok node) (plainFile : PlainFile initialState)
    (events : List NodeEvent) (plainRun : PlainRun sha256 node events) :
    ∀ block ∈ (node.run sha256 events).chain.blocks, ∃ line, (blockToCsv block).result = .ok line := by
  intro block member
  have writable := run_sendable plainRun (start_sendable started plainFile) block member
  exact ⟨csvLine block, toCsv_ok.mpr ⟨writable, rfl⟩⟩

/-- A node that has loaded the given genesis block can send it, also after it has
received the block once more. -/
theorem genesisNode_sends :
    ∃ node, (nodeInit 0 (CString.text "/tmp") (.ok ()) (some (fileOf [genesisBlock])) openHeap).1 = .ok node ∧
      ∀ block ∈ (node.run sha256Bytes
          [.message ⟨MessageType.blockCommit.code, 0, (csvLine genesisBlock).bytes⟩ openHeap]).chain.blocks,
        ∃ line, (blockToCsv block).result = .ok line := by
  have found : startingBlocks (fileOf [genesisBlock]) = some [genesisBlock] := by decide +kernel
  have parsed : (blockFromCsv (csvLine genesisBlock)).result = .ok genesisBlock := by decide +kernel
  have listed : blockLines (fgetsAll (fileOf [genesisBlock])) = [⟨blockchainCsvHeader, by decide⟩, csvLine genesisBlock] := by
    decide +kernel
  have header : ∀ block, (blockFromCsv ⟨blockchainCsvHeader, by decide⟩).result ≠ .ok block := by
    have refused : (blockFromCsv ⟨blockchainCsvHeader, by decide⟩).result = .error .fileFormat := by decide +kernel
    intro block read
    rw [refused] at read
    cases read
  have plain : ¬ Quoted genesisBlock := by decide +kernel
  obtain ⟨node, started, _⟩ := startingBlocks_node found
  refine ⟨node, started, stored_blocks_can_be_sent sha256Bytes started ?_ _ ⟨?_, trivial⟩⟩
  · intro contents same line member block read
    cases same
    rw [listed] at member
    rcases List.mem_pair.mp member with rfl | rfl
    · exact absurd read (header block)
    · rw [Except.ok.inj (parsed.symm.trans read)] at plain
      exact plain
  · intro _ block read _ _
    rw [CString.ofMemory_bytes] at read
    rw [Except.ok.inj (parsed.symm.trans read)] at plain
    exact plain

/-- A transaction with a quotation mark. -/
def quotedBlock : Block := { genesisBlock with transactions := [CString.text "a\"b"] }

/-- A node starts with a block that it cannot send. -/
theorem quotedBlock_unsendable :
    ∃ node, (nodeInit 0 (CString.text "/tmp") (.ok ()) (some (fileOf [quotedBlock])) openHeap).1 = .ok node ∧
      ∃ block ∈ (node.run sha256Bytes []).chain.blocks, ∀ line, (blockToCsv block).result ≠ .ok line := by
  have found : startingBlocks (fileOf [quotedBlock]) = some [quotedBlock] := by decide +kernel
  have refused : (blockToCsv quotedBlock).result = .error .invalidTransaction := by decide +kernel
  obtain ⟨node, started, blocks⟩ := startingBlocks_node found
  refine ⟨node, started, quotedBlock, by simp [Node.run, blocks], ?_⟩
  intro line sent
  rw [refused] at sent
  cases sent

end ProcessChain.Proofs.Sending
