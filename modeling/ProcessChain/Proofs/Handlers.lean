import ProcessChain.Node
import ProcessChain.Proofs.Storage

/-! One specification for every handler of a node. A handler leaves the blocks of
the chain alone or appends the one block it has read, and the rule for that is
the same on every path once the chain is settled: the grown chain is valid. -/

namespace ProcessChain.Proofs.Handlers
open Lib Lib.FailStop Csv Validation Storage

variable {sha256 : HashFunction}

/-- The checks before an append. -/
def Admits (sha256 : HashFunction) (last : Option Block) (first : Bool) (block : Block) : Prop :=
  Sound sha256 block ∧ match last with
    | none => first = true
    | some last => Sound sha256 last ∧ Follows sha256 last block

theorem validAgainst_ensures (last : Option Block) (first : Bool) (block : Block) :
    Ensures (validAgainst sha256 last first block) (fun valid => valid = true → Admits sha256 last first block)
      fun valid => Admits sha256 last first block → valid = true := by
  unfold validAgainst
  apply (succeeds_ensures _).bind
  intro wellFormed _
  cases wellFormed with
  | false => exact .pure (by simp) fun complete admits => by simpa using complete (structure_ok.mpr admits.1.toWellFormed)
  | true =>
    apply (succeeds_ensures _).bind
    intro rooted sound
    cases rooted with
    | false => exact .pure (by simp) fun complete _ admits => by simpa using complete ((merkle_ok sha256).mpr admits.1)
    | true =>
      have sound := (merkle_ok sha256).mp (sound rfl)
      cases last with
      | none => exact .pure (fun valid => ⟨sound, valid⟩) fun _ _ admits => admits.2
      | some last =>
        refine (succeeds_ensures _).weaken (fun _ valid succeeded => ?_) (fun _ _ complete _ _ admits => ?_)
        · have linked := (link_ok sha256).mp (valid succeeded)
          exact ⟨sound, linked.1, linked.2.2⟩
        · exact complete ((link_ok sha256).mpr ⟨admits.2.1, sound, admits.2.2⟩)

/-- Chains a node may hold: none yet, or a valid one. -/
def Settled (sha256 : HashFunction) (blocks : List Block) : Prop := blocks = [] ∨ ValidChain sha256 blocks

theorem admits_valid {blocks : List Block} {block : Block} {first : Bool} (valid : ValidChain sha256 blocks) :
    Admits sha256 blocks.getLast? first block ↔ ValidChain sha256 (blocks ++ [block]) := by
  have found := List.getLast?_eq_getLast_of_ne_nil valid.some
  rw [validChain_append found, found]
  have sound := valid.sound _ (List.getLast_mem valid.some)
  exact ⟨fun admits => ⟨valid, admits.1, admits.2.2⟩, fun grown => ⟨grown.2.1, sound, grown.2.2⟩⟩

/-- The rule of the handlers that ask for index 0 where there is no last block. -/
theorem admits_settled {blocks : List Block} {block : Block} (settled : Settled sha256 blocks) :
    Admits sha256 blocks.getLast? (block.index == 0) block ↔ ValidChain sha256 (blocks ++ [block]) := by
  rcases settled with rfl | valid
  · simp [Admits, validChain_single]
  · exact admits_valid valid

/-- Every block of a chain is found under its index. -/
theorem index_position {chain : Blockchain} (settled : Settled sha256 chain.blocks) {position : Nat} {block : Block}
    (found : chain.blocks[position]? = some block) : block.index.toNat = position := by
  obtain ⟨inside, _⟩ := List.getElem?_eq_some_iff.mp found
  have valid : ValidChain sha256 chain.blocks :=
    settled.resolve_left (List.ne_nil_of_mem (List.mem_of_getElem? found))
  exact validChain_number valid found (Nat.lt_trans inside chain.count_lt)

/-- An index is found at the position with the same number, if there is one. -/
theorem getByIndex_settled {chain : Blockchain} (settled : Settled sha256 chain.blocks) (index : UInt64) :
    blockchainGetByIndex chain index = if index.toNat < chain.count then some index.toNat else none := by
  unfold blockchainGetByIndex
  split
  next inside =>
    have inside : index.toNat < chain.blocks.length := inside
    rw [List.findIdx?_eq_some_iff_getElem]
    refine ⟨inside, ?_, ?_⟩
    · have position := index_position settled (List.getElem?_eq_getElem inside)
      exact beq_iff_eq.mpr (UInt64.toNat_inj.mp position)
    · intro earlier before same
      have position := index_position settled (List.getElem?_eq_getElem (Nat.lt_trans before inside))
      rw [beq_iff_eq.mp same] at position
      omega
  next outside =>
    apply List.findIdx?_eq_none_iff.mpr
    intro block member
    obtain ⟨position, found⟩ := List.mem_iff_getElem?.mp member
    apply beq_false_of_ne
    intro same
    apply outside
    rw [← same, index_position settled found]
    exact (List.getElem?_eq_some_iff.mp found).1

/-- In a valid chain the last block is the one found under the last position. -/
theorem getByIndex_last {chain : Blockchain} (settled : Settled sha256 chain.blocks) :
    (if chain.count > 0 then (blockchainGetByIndex chain (chain.count - 1).toUInt64).bind (chain.blocks[·]?) else none) =
      chain.last := by
  have bound := chain.count_lt
  by_cases some : chain.count > 0
  · have position : (chain.count - 1).toUInt64.toNat = chain.count - 1 :=
      UInt64.toNat_ofNat_of_lt' (Nat.lt_of_le_of_lt (Nat.sub_le ..) bound)
    rw [if_pos some, getByIndex_settled settled, position, if_pos (by omega), Option.bind_some, Blockchain.last,
      List.getLast?_eq_getElem?]
    rfl
  · have none : chain.blocks = [] := List.eq_nil_of_length_eq_zero (by simpa [Blockchain.count] using some)
    rw [if_neg some, Blockchain.last, none]
    rfl

/-- The chain and the identity of a node are unchanged. -/
structure Kept (node after : Node) : Prop where
  nodeId : after.nodeId = node.nodeId
  blocks : after.chain.blocks = node.chain.blocks

/-- The node has one more block. -/
structure Grown (node : Node) (block : Block) (after : Node) : Prop where
  nodeId : after.nodeId = node.nodeId
  blocks : after.chain.blocks = node.chain.blocks ++ [block]

def repliesOk (handled : Handled) : Bool := handled.reply.any (·.type == MessageType.responseOk.code)

/-- A proposal that is turned down. -/
structure Rejected (node : Node) (handled : Handled) : Prop extends Kept node handled.node where
  reply : repliesOk handled = false
  broadcast : handled.broadcast = none

/-- A proposal that wins: the grown chain is valid, the proposer is told, and what
is broadcast is the line of the new block. -/
structure Accepted (sha256 : HashFunction) (node : Node) (block : Block) (handled : Handled) : Prop
    extends Grown node block handled.node where
  valid : ValidChain sha256 (node.chain.blocks ++ [block])
  reply : repliesOk handled = true
  broadcast : ∀ line ∈ handled.broadcast, Writable block ∧ line <+: (csvLine block).bytes

theorem broadcast_ensures (node : Node) (block : Block) :
    Ensures (broadcastCommit node block) (fun sent => ∀ line ∈ sent, Writable block ∧ line <+: (csvLine block).bytes)
      fun _ => True := by
  apply (attempt_ensures (blockToCsv block)).bind
  intro result written
  cases result with
  | error error => exact .pure (by simp) fun _ => trivial
  | ok line =>
    refine .pure ?_ fun _ => trivial
    obtain ⟨writable, rfl⟩ := toCsv_ok.mp (written line rfl)
    intro sent member
    obtain ⟨message, sending, rfl⟩ := Option.map_eq_some_iff.mp member
    exact ⟨writable, ipcSend_payload sending⟩

private theorem rejects {node after : Node} (kept : Kept node after) (type : MessageType) (text : String) (length : Nat)
    (other : type.code ≠ MessageType.responseOk.code) : Rejected node (after.answer type text length) := by
  refine ⟨kept, ?_, rfl⟩
  simp only [repliesOk, Node.answer, ipcSendText, ipcSend]
  split
  · rfl
  · simpa using other

/-- A proposal is rejected, or it is a block that keeps the chain valid. -/
theorem proposal_ensures {node : Node} (settled : Settled sha256 node.chain.blocks) (message : Message) :
    Ensures (handleBlockProposal sha256 node message)
      (fun handled => Rejected node handled ∨
        ∃ block, (blockFromCsv (.ofMemory message.payload)).result = .ok block ∧ Accepted sha256 node block handled)
      fun handled => ∀ block, message.payload ≠ [] → (blockFromCsv (.ofMemory message.payload)).result = .ok block →
        ValidChain sha256 (node.chain.blocks ++ [block]) → Accepted sha256 node block handled := by
  unfold handleBlockProposal
  split
  next empty => exact .pure (Or.inl (rejects ⟨rfl, rfl⟩ _ _ _ (by decide))) fun _ visible => absurd empty visible
  refine guarded_ensures (Or.inl (rejects ⟨rfl, rfl⟩ _ _ _ (by decide))) ?_
  apply (attempt_ensures _).bind
  intro result parsed
  cases result with
  | error error =>
    refine .pure (Or.inl (rejects ⟨rfl, rfl⟩ _ _ _ (by decide))) fun failed block _ readable => ?_
    rw [← failed.1] at readable
    cases readable
  | ok proposed =>
    have parsed := parsed proposed rfl
    have only {block : Block} (readable : (blockFromCsv (.ofMemory message.payload)).result = .ok block) :
        block = proposed := Except.ok.inj (readable.symm.trans parsed)
    apply (validAgainst_ensures _ _ _).bind
    intro admits admitted
    cases admits with
    | false =>
      refine .pure (Or.inl (rejects ⟨rfl, rfl⟩ _ _ _ (by decide))) fun complete _ block _ readable valid => ?_
      rw [only readable] at valid
      simpa using complete ((admits_settled settled).mpr valid)
    | true =>
      have valid := (admits_settled settled).mp (admitted rfl)
      apply (append_ensures _ _).bind
      intro appended grown
      obtain ⟨result, chain⟩ := appended
      cases result with
      | error error =>
        have kept : Kept node { node with chain } := ⟨rfl, grown⟩
        refine .pure (Or.inl (rejects kept _ _ _ (by decide))) fun complete => ?_
        cases complete (valid.sound proposed (by simp)).sized
      | ok done =>
        have newest : chain.last = some proposed := by
          rw [Blockchain.last, grown, List.getLast?_concat]
        simp only [newest]
        apply (broadcast_ensures node proposed).bind
        intro sent lines
        have accepted : Accepted sha256 node proposed ⟨{ node with chain }, ipcSend .responseOk node.sender [] 0, sent⟩ :=
          ⟨⟨rfl, grown⟩, valid, rfl, lines⟩
        exact .pure (Or.inr ⟨proposed, parsed, accepted⟩) fun _ _ _ _ block _ readable _ => only readable ▸ accepted

/-- A commit is applied when its block keeps the chain valid, and only then. -/
theorem commit_ensures {node : Node} (settled : Settled sha256 node.chain.blocks) (message : Message) :
    Ensures (handleBlockCommit sha256 node message)
      (fun handled => handled.broadcast = none ∧ (Kept node handled.node ∨
        ∃ block, (blockFromCsv (.ofMemory message.payload)).result = .ok block ∧
          ValidChain sha256 (node.chain.blocks ++ [block]) ∧ Grown node block handled.node))
      fun handled => ∀ block, (blockFromCsv (.ofMemory message.payload)).result = .ok block →
        ValidChain sha256 (node.chain.blocks ++ [block]) → Grown node block handled.node := by
  unfold handleBlockCommit
  refine guarded_ensures ⟨rfl, Or.inl ⟨rfl, rfl⟩⟩ ?_
  apply (attempt_ensures _).bind
  intro result parsed
  cases result with
  | error error =>
    refine .pure ⟨rfl, Or.inl ⟨rfl, rfl⟩⟩ fun failed block readable => ?_
    rw [← failed.1] at readable
    cases readable
  | ok incoming =>
    have parsed := parsed incoming rfl
    have only {block : Block} (readable : (blockFromCsv (.ofMemory message.payload)).result = .ok block) :
        block = incoming := Except.ok.inj (readable.symm.trans parsed)
    have expected (valid : ValidChain sha256 (node.chain.blocks ++ [incoming])) :
        incoming.index = node.chain.count.toUInt64 :=
      validChain_index valid (by simp [Blockchain.count])
    simp only [getByIndex_last settled]
    split
    next index =>
      apply (validAgainst_ensures _ _ _).bind
      intro admits admitted
      cases admits with
      | false =>
        refine .pure ⟨rfl, Or.inl ⟨rfl, rfl⟩⟩ fun complete _ block readable valid => ?_
        rw [only readable] at valid
        simpa using complete ((admits_settled settled).mpr valid)
      | true =>
        have valid := (admits_settled settled).mp (admitted rfl)
        apply (append_ensures _ _).bind
        intro appended grown
        obtain ⟨result, chain⟩ := appended
        cases result with
        | error error =>
          refine .pure ⟨rfl, Or.inl ⟨rfl, grown⟩⟩ fun complete => ?_
          cases complete (valid.sound incoming (by simp)).sized
        | ok done =>
          have appended : Grown node incoming { node with chain } := ⟨rfl, grown⟩
          exact .pure ⟨rfl, Or.inr ⟨incoming, parsed, valid, appended⟩⟩ fun _ _ _ block readable _ => only readable ▸ appended
    next other =>
      have never {block : Block} (readable : (blockFromCsv (.ofMemory message.payload)).result = .ok block)
          (valid : ValidChain sha256 (node.chain.blocks ++ [block])) : False := by
        rw [only readable] at valid
        exact other (expected valid)
      split
      · exact .pure ⟨rfl, Or.inl ⟨rfl, rfl⟩⟩ fun _ block readable valid => (never readable valid).elim
      · exact .pure ⟨rfl, Or.inl ⟨rfl, rfl⟩⟩ fun _ block readable valid => (never readable valid).elim

/-- One line of a sync reply. -/
theorem syncBlock_ensures (chain : Blockchain) (line : CString) :
    Ensures (syncBlock sha256 chain line)
      (fun after => after.blocks = chain.blocks ∨ ∃ block, (blockFromCsv line).result = .ok block ∧
        Admits sha256 chain.last true block ∧ after.blocks = chain.blocks ++ [block])
      fun after => ∀ block, (blockFromCsv line).result = .ok block → Admits sha256 chain.last true block →
        after.blocks = chain.blocks ++ [block] := by
  unfold syncBlock
  apply (attempt_ensures _).bind
  intro result parsed
  cases result with
  | error error =>
    refine .pure (Or.inl rfl) fun failed block readable => ?_
    rw [← failed.1] at readable
    cases readable
  | ok synced =>
    have parsed := parsed synced rfl
    have only {block : Block} (readable : (blockFromCsv line).result = .ok block) : block = synced :=
      Except.ok.inj (readable.symm.trans parsed)
    apply (validAgainst_ensures _ _ _).bind
    intro valid admitted
    cases valid with
    | false =>
      refine .pure (Or.inl rfl) fun complete _ block readable admits => ?_
      rw [only readable] at admits
      simpa using complete admits
    | true =>
      have admits := admitted rfl
      apply (append_ensures _ _).bind
      intro appended grown
      obtain ⟨result, chain⟩ := appended
      cases result with
      | error error =>
        refine .pure (Or.inl grown) fun complete => ?_
        cases complete admits.1.sized
      | ok done => exact .pure (Or.inr ⟨synced, parsed, admits, grown⟩) fun _ _ _ block readable _ => only readable ▸ grown

/-- Whatever every accepted line preserves, a whole sync reply preserves. -/
theorem syncLoop_keeps (keeps : List Block → Prop) {lines : List CString}
    (step : ∀ line ∈ lines, ∀ blocks block, keeps blocks → (blockFromCsv line).result = .ok block →
      Admits sha256 blocks.getLast? true block → keeps (blocks ++ [block])) {chain : Blockchain} (start : keeps chain.blocks) :
    Ensures (syncLoop sha256 lines chain) (fun after => keeps after.blocks) fun _ => True := by
  induction lines generalizing chain with
  | nil => exact .pure start trivial
  | cons line rest ih =>
    apply (syncBlock_ensures chain line).bind
    intro after stored
    rcases stored with same | ⟨block, parsed, admits, grown⟩
    · refine (ih (fun line member => step line (by simp [member])) ?_).weaken (fun _ kept => kept) (by simp)
      exact same ▸ start
    · refine (ih (fun line member => step line (by simp [member])) ?_).weaken (fun _ kept => kept) (by simp)
      exact grown ▸ step line (by simp) _ block start parsed admits

theorem finishSync_keeps (keeps : List Block → Prop) {node : Node} (slot : Nat) {reply : Option Bytes}
    (step : ∀ payload ∈ reply, ∀ line ∈ strtokLines (.ofMemory payload), ∀ blocks block, keeps blocks →
      (blockFromCsv line).result = .ok block → Admits sha256 blocks.getLast? true block → keeps (blocks ++ [block]))
    (start : keeps node.chain.blocks) :
    Ensures (finishSync sha256 node slot reply) (fun after => after.nodeId = node.nodeId ∧ keeps after.chain.blocks)
      fun _ => True := by
  unfold finishSync
  split
  · exact .pure ⟨rfl, start⟩ trivial
  · exact .pure ⟨rfl, start⟩ trivial
  next payload _ =>
    refine guarded_ensures ⟨rfl, start⟩ ?_
    apply (syncLoop_keeps keeps (step payload rfl) start).bind
    exact fun after kept => .pure ⟨rfl, kept⟩ fun _ => trivial

/-- Queries only read the node. -/
structure Untouched (node : Node) (handled : Handled) : Prop where
  node : handled.node = node
  broadcast : handled.broadcast = none

/-- A payload that is the beginning of a block's line, or no line at all. -/
def LineOf (blocks : List Block) (payload : Bytes) : Prop :=
  44 ∉ payload ∨ ∃ block ∈ blocks, Writable block ∧ payload <+: (csvLine block).bytes

private theorem answer_untouched {node : Node} {type : MessageType} {text : String} {length : Nat} :
    Untouched node (node.answer type text length) := ⟨rfl, rfl⟩

theorem answer_plain {node : Node} {type : MessageType} {text : String} {length : Nat}
    (plain : 44 ∉ ascii text) : ∀ reply ∈ (node.answer type text length).reply, 44 ∉ reply.payload := by
  intro reply sent member
  have inside := (ipcSend_payload sent).subset member
  simp only [List.mem_append, List.mem_singleton] at inside
  rcases inside with inside | zero
  · exact plain inside
  · cases zero

private theorem lookup_ensures {chain : Blockchain} {text : Bytes} {search : HeapM (Option Nat)}
    (found : lookup sha256 chain text = some search) : Ensures search (fun _ => True) fun _ => True := by
  unfold lookup at found
  split at found
  · cases found
    exact .pure trivial trivial
  · split at found
    · cases found
      unfold blockchainGetByHash
      split
      · exact .pure trivial trivial
      · exact (scanForHash_ensures sha256 _ _ _).weaken (fun _ _ => trivial) fun _ _ _ => trivial
    · cases found

theorem queryBlock_ensures (node : Node) (message : Message) :
    Ensures (handleQueryBlock sha256 node message)
      (fun handled => Untouched node handled ∧ ∀ reply ∈ handled.reply, LineOf node.chain.blocks reply.payload)
      fun _ => True := by
  have refuse {text : String} {length : Nat} (plain : 44 ∉ ascii text) :
      Untouched node (node.answer .responseErr text length) ∧
        ∀ reply ∈ (node.answer .responseErr text length).reply, LineOf node.chain.blocks reply.payload :=
    ⟨answer_untouched, fun reply sent => Or.inl (answer_plain plain reply sent)⟩
  unfold handleQueryBlock
  refine guarded_ensures (refuse (by decide)) ?_
  have search : Ensures ((lookup sha256 node.chain (CString.ofMemory message.payload).bytes).getD (pure none))
      (fun _ => True) fun _ => True := by
    cases found : lookup sha256 node.chain (CString.ofMemory message.payload).bytes with
    | none => exact .pure trivial trivial
    | some search => exact lookup_ensures found
  apply search.bind
  intro position _
  split
  · exact .pure (refuse (by decide)) fun _ => trivial
  next block located =>
    apply (attempt_ensures _).bind
    intro result written
    cases result with
    | error error => exact .pure (refuse (by decide)) fun _ _ => trivial
    | ok line =>
      refine .pure ⟨⟨rfl, rfl⟩, fun reply sent => Or.inr ⟨block, ?_, ?_⟩⟩ fun _ _ => trivial
      · obtain ⟨position, _, here⟩ := Option.bind_eq_some_iff.mp located
        exact List.mem_of_getElem? here
      · obtain ⟨writable, rfl⟩ := toCsv_ok.mp (written line rfl)
        exact ⟨writable, ipcSend_payload sent⟩

/-- Only a refusal ends the growing of a buffer. -/
theorem growBuffer_result (needed capacity : Nat) : ∃ grown, (growBuffer needed capacity).result = .ok grown := by
  fun_induction growBuffer needed capacity with
  | case1 capacity short ih =>
    obtain ⟨grown, ends⟩ := ih
    exact ⟨grown, result_bind_eq_ok.mpr ⟨(), rfl, ends⟩⟩
  | case2 capacity enough => exact ⟨capacity, rfl⟩

private theorem growBuffer_ensures (needed capacity : Nat) :
    Ensures (attempt (growBuffer needed capacity)) (fun _ => True) fun result => ∃ grown, result = .ok grown := by
  obtain ⟨grown, ends⟩ := growBuffer_result needed capacity
  exact (attempt_ensures _).weaken (fun _ _ => trivial) fun result _ same => ⟨grown, same.1.trans ends⟩

/-- The lines of some blocks. -/
def syncText (blocks : List Block) : Bytes := (blocks.map fun block => (csvLine block).bytes).flatMap (· ++ [10])

/-- The lines are complete or replaced by one of two texts, by the second one only
where memory runs out. -/
theorem chainLines_ensures (blocks : List Block) (buffer : Bytes) (capacity : Nat) :
    Ensures (chainLines blocks buffer capacity)
      (fun result => (∀ final, result = .ok final → (∀ block ∈ blocks, Writable block) ∧ final = buffer ++ syncText blocks) ∧
        ∀ text, result = .error text → text = "serialization failed" ∨ text = "out of memory")
      fun result => (∀ block ∈ blocks, Writable block) → ∃ final, result = .ok final := by
  induction blocks generalizing buffer capacity with
  | nil => exact .pure (by simp [syncText]) fun _ => ⟨buffer, rfl⟩
  | cons block rest ih =>
    apply (attempt_ensures _).bind
    intro result written
    cases result with
    | error error =>
      refine .pure (by simp) fun failed writable => ?_
      rw [toCsv_ok.mpr ⟨writable block (by simp), rfl⟩] at failed
      cases failed.1
    | ok line =>
      obtain ⟨writable, rfl⟩ := toCsv_ok.mp (written line rfl)
      apply (growBuffer_ensures _ _).bind
      intro result _
      cases result with
      | error error => exact .pure (by simp) fun grown => by simp at grown
      | ok grown =>
        refine (ih _ _).weaken ?_ ?_
        · intro result lines
          refine ⟨?_, lines.2⟩
          intro final same
          obtain ⟨others, rfl⟩ := lines.1 final same
          refine ⟨?_, by simp [syncText]⟩
          intro inner member
          rcases List.mem_cons.mp member with rfl | later
          · exact writable
          · exact others inner later
        · exact fun result _ complete _ _ all => complete fun inner member => all inner (by simp [member])

/-- The answer to a chain query from some position on, if there is one. -/
def AnswersFrom (node : Node) (start : Nat) (handled : Handled) : Prop :=
  ∀ reply ∈ handled.reply, reply.type = MessageType.responseOk.code →
    (∀ block ∈ node.chain.blocks.drop start, Writable block) ∧
      ipcSend .responseOk node.sender (csvHeader ++ syncText (node.chain.blocks.drop start))
        (csvHeader ++ syncText (node.chain.blocks.drop start)).length = some reply

theorem answer_refuses {node : Node} {start : Nat} {text : String} {length : Nat} :
    AnswersFrom node start (node.answer .responseErr text length) := by
  intro reply sent accepted
  have sent : ipcSend .responseErr node.sender (ascii text ++ [0]) length = some reply := sent
  simp only [ipcSend] at sent
  split at sent
  · cases sent
  · cases sent
    cases accepted

theorem answerChain_ensures (node : Node) (start : Nat) :
    Ensures (answerChain node start) (fun handled => Untouched node handled ∧ AnswersFrom node start handled)
      fun _ => True := by
  unfold answerChain
  refine guarded_ensures ⟨answer_untouched, answer_refuses⟩ ?_
  apply (chainLines_ensures _ _ _).bind
  intro result lines
  cases result with
  | error text => exact .pure ⟨answer_untouched, answer_refuses⟩ fun _ => trivial
  | ok buffer =>
    obtain ⟨writable, rfl⟩ := lines.1 buffer rfl
    exact .pure ⟨⟨rfl, rfl⟩, fun reply sent _ => ⟨writable, sent⟩⟩ fun _ => trivial

theorem queryChain_ensures (node : Node) (message : Message) :
    Ensures (handleQueryChain sha256 node message) (Untouched node) fun _ => True := by
  have answered (start : Nat) : Ensures (answerChain node start) (Untouched node) fun _ => True :=
    (answerChain_ensures node start).weaken (fun _ answer => answer.1) fun _ _ _ => trivial
  have whole : Ensures (do return (← answerChain node 0)) (Untouched node) fun _ => True :=
    (answered 0).bind fun _ untouched => .pure untouched fun _ => trivial
  unfold handleQueryChain
  split
  · exact whole
  refine guarded_ensures answer_untouched ?_
  dsimp only
  split
  · exact whole
  split
  · exact .pure answer_untouched trivial
  next search found =>
    apply (lookup_ensures found).bind
    intro position _
    cases position with
    | none => exact .pure answer_untouched fun _ => trivial
    | some startPosition => exact (answered startPosition).weaken (fun _ untouched => untouched) (by simp)

/-- A payload that is the beginning of a sync answer, or contains no line at all. -/
def LinesOf (blocks : List Block) (payload : Bytes) : Prop :=
  44 ∉ payload ∨ ∃ sent, (∀ block ∈ sent, block ∈ blocks ∧ Writable block) ∧ payload <+: syncText sent

private theorem syncLines_ensures (blocks : List Block) (buffer : Bytes) (capacity : Nat) :
    Ensures (syncLines blocks buffer capacity)
      (fun text => ∀ final ∈ text, ∃ sent, (∀ block ∈ sent, block ∈ blocks ∧ Writable block) ∧ final = buffer ++ syncText sent)
      fun _ => True := by
  induction blocks generalizing buffer capacity with
  | nil => exact .pure (fun final found => ⟨[], by simp, by simpa [syncText] using found.symm⟩) trivial
  | cons block rest ih =>
    have later (sent : List Block) (known : ∀ inner ∈ sent, inner ∈ rest ∧ Writable inner) :
        ∀ inner ∈ sent, inner ∈ block :: rest ∧ Writable inner :=
      fun inner member => ⟨List.mem_cons_of_mem block (known inner member).1, (known inner member).2⟩
    apply (attempt_ensures _).bind
    intro result written
    cases result with
    | error error =>
      refine (ih buffer capacity).weaken (fun text skipped final found => ?_) (by simp)
      obtain ⟨sent, known, rfl⟩ := skipped final found
      exact ⟨sent, later sent known, rfl⟩
    | ok line =>
      obtain ⟨writable, rfl⟩ := toCsv_ok.mp (written line rfl)
      apply (growBuffer_ensures _ _).bind
      intro result _
      cases result with
      | error error => exact .pure (by simp) fun _ _ => trivial
      | ok grown =>
        refine (ih _ grown).weaken (fun text continued final found => ?_) (by simp)
        obtain ⟨sent, known, rfl⟩ := continued final found
        refine ⟨block :: sent, ?_, by simp [syncText]⟩
        intro inner member
        rcases List.mem_cons.mp member with rfl | inside
        · exact ⟨List.mem_cons_self, writable⟩
        · exact later sent known inner inside

theorem syncRequest_ensures (node : Node) (message : Message) :
    Ensures (handleSyncRequest node message)
      (fun handled => Untouched node handled ∧ ∀ reply ∈ handled.reply, LinesOf node.chain.blocks reply.payload)
      fun _ => True := by
  have refuse {text : String} {length : Nat} (plain : 44 ∉ ascii text) :
      Untouched node (node.answer .responseErr text length) ∧
        ∀ reply ∈ (node.answer .responseErr text length).reply, LinesOf node.chain.blocks reply.payload :=
    ⟨answer_untouched, fun reply sent => Or.inl (answer_plain plain reply sent)⟩
  unfold handleSyncRequest
  refine guarded_ensures (refuse (by decide)) ?_
  refine guarded_ensures (refuse (by decide)) ?_
  apply (syncLines_ensures _ _ _).bind
  intro text lines
  cases text with
  | none => exact .pure ⟨⟨rfl, rfl⟩, by simp⟩ fun _ => trivial
  | some buffer =>
    refine .pure ⟨⟨rfl, rfl⟩, fun reply sending => Or.inr ?_⟩ fun _ => trivial
    obtain ⟨sent, known, rfl⟩ := lines buffer rfl
    exact ⟨sent, fun block member => ⟨List.mem_of_mem_drop (known block member).1, (known block member).2⟩,
      ipcSend_payload sending⟩

/-- Handling any message keeps the chain or appends the block the message carries. -/
theorem message_ensures {node : Node} (settled : Settled sha256 node.chain.blocks) (message : Message) :
    Ensures (node.handleMessage sha256 message)
      (fun handled => Kept node handled.node ∨
        ∃ block, (blockFromCsv (.ofMemory message.payload)).result = .ok block ∧
          ValidChain sha256 (node.chain.blocks ++ [block]) ∧ Grown node block handled.node)
      fun _ => True := by
  have unchanged {handled : Handled} (untouched : Untouched node handled) : Kept node handled.node := by
    rw [untouched.node]
    exact ⟨rfl, rfl⟩
  unfold Node.handleMessage
  split
  · split
    · refine (proposal_ensures settled message).weaken ?_ fun _ _ _ => trivial
      intro handled outcome
      rcases outcome with rejected | ⟨block, parsed, accepted⟩
      · exact Or.inl rejected.toKept
      · exact Or.inr ⟨block, parsed, accepted.valid, accepted.toGrown⟩
    · exact .pure (Or.inl ⟨rfl, rfl⟩) trivial
  · exact (queryChain_ensures node message).weaken (fun _ untouched => Or.inl (unchanged untouched)) fun _ _ _ => trivial
  · exact .pure (Or.inl ⟨rfl, rfl⟩) trivial
  · exact (queryBlock_ensures node message).weaken (fun _ query => Or.inl (unchanged query.1)) fun _ _ _ => trivial
  · exact (syncRequest_ensures node message).weaken (fun _ query => Or.inl (unchanged query.1)) fun _ _ _ => trivial
  · exact (commit_ensures settled message).weaken (fun _ commit => commit.2) fun _ _ _ => trivial
  · exact .pure (Or.inl ⟨rfl, rfl⟩) trivial

/-- What the coordinator does with anything but a commit. -/
theorem coordinator_ensures {node : Node} (coordinator : node.isCoordinator = true)
    (settled : Settled sha256 node.chain.blocks) {message : Message} (noCommit : message.has .blockCommit = false) :
    Ensures (node.handleMessage sha256 message)
      (fun handled =>
        (Kept node handled.node ∧ handled.broadcast = none ∧
          (message.has .blockProposal = true → repliesOk handled = false)) ∨
        message.has .blockProposal = true ∧
          ∃ block, (blockFromCsv (.ofMemory message.payload)).result = .ok block ∧ Accepted sha256 node block handled)
      fun _ => True := by
  have quiet {handled : Handled} {type : MessageType} (is : MessageType.ofCode message.type = some type)
      (other : type ≠ .blockProposal) (untouched : Untouched node handled) : Kept node handled.node ∧
      handled.broadcast = none ∧ (message.has .blockProposal = true → repliesOk handled = false) := by
    refine ⟨?_, untouched.broadcast, fun proposal => ?_⟩
    · rw [untouched.node]
      exact ⟨rfl, rfl⟩
    · simp only [Message.has, is, beq_iff_eq, Option.some.injEq] at proposal
      exact absurd proposal other
  unfold Node.handleMessage
  split
  next type =>
    rw [if_pos coordinator]
    refine (proposal_ensures settled message).weaken (fun handled outcome => ?_) fun _ _ _ => trivial
    rcases outcome with rejected | won
    · exact Or.inl ⟨rejected.toKept, rejected.broadcast, fun _ => rejected.reply⟩
    · exact Or.inr ⟨by simp [Message.has, type], won⟩
  next type =>
    exact (queryChain_ensures node message).weaken (fun _ query => Or.inl (quiet type (by decide) query)) fun _ _ _ => trivial
  next type => exact .pure (Or.inl (quiet type (by decide) ⟨rfl, rfl⟩)) trivial
  next type =>
    exact (queryBlock_ensures node message).weaken (fun _ query => Or.inl (quiet type (by decide) query.1)) fun _ _ _ => trivial
  next type =>
    exact (syncRequest_ensures node message).weaken (fun _ query => Or.inl (quiet type (by decide) query.1)) fun _ _ _ => trivial
  next type => simp [Message.has, type] at noCommit
  next notProposal _ _ _ _ _ =>
    refine .pure (Or.inl ⟨⟨rfl, rfl⟩, rfl, fun proposal => ?_⟩) trivial
    simp only [Message.has, beq_iff_eq] at proposal
    exact absurd proposal notProposal

/-- A follower changes its chain for commits only. -/
theorem follower_ensures {node : Node} (follower : node.isCoordinator = false) {message : Message}
    (noCommit : message.has .blockCommit = false) :
    Ensures (node.handleMessage sha256 message) (fun handled => Kept node handled.node) fun _ => True := by
  have unchanged {handled : Handled} (untouched : Untouched node handled) : Kept node handled.node := by
    rw [untouched.node]
    exact ⟨rfl, rfl⟩
  unfold Node.handleMessage
  split
  · rw [follower]
    exact .pure ⟨rfl, rfl⟩ trivial
  · exact (queryChain_ensures node message).weaken (fun _ query => unchanged query) fun _ _ _ => trivial
  · exact .pure ⟨rfl, rfl⟩ trivial
  · exact (queryBlock_ensures node message).weaken (fun _ query => unchanged query.1) fun _ _ _ => trivial
  · exact (syncRequest_ensures node message).weaken (fun _ query => unchanged query.1) fun _ _ _ => trivial
  next type => simp [Message.has, type] at noCommit
  · exact .pure ⟨rfl, rfl⟩ trivial

/-- A node that has loaded `data/initial_state.csv`. -/
def genesisNode (nodeId : Nat) : Node := ⟨nodeId, ⟨[genesisBlock], initialBlockchainCapacity, by decide, by decide⟩, []⟩

/-- A heap that refuses nothing that fits in the address space. -/
def openHeap : Heap := ⟨[], false⟩

end ProcessChain.Proofs.Handlers
