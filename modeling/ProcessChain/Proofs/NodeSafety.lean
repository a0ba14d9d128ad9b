import ProcessChain.Proofs.Handlers

/-! Runs of a single node under arbitrary messages, sync replies and allocation
failures. A valid chain stays valid and only grows; a chain that starts empty
is at the mercy of the first sync reply, which is not asked for a genesis block. -/

namespace ProcessChain.Proofs.NodeSafety
open Lib Lib.FailStop Csv Validation Storage Handlers

variable {sha256 : HashFunction}

/-- A message leaves a settled chain settled and only adds to it. -/
private theorem message_grows {node : Node} (settled : Settled sha256 node.chain.blocks) (message : Message) (heap : Heap) :
    Settled sha256 (node.handleMessage sha256 message heap).1.node.chain.blocks ∧
      node.chain.blocks <+: (node.handleMessage sha256 message heap).1.node.chain.blocks := by
  rcases (message_ensures settled message).always heap with kept | ⟨block, _, valid, grown⟩
  · rw [kept.blocks]
    exact ⟨settled, List.prefix_rfl⟩
  · rw [grown.blocks]
    exact ⟨Or.inr valid, List.prefix_append _ _⟩

/-- A sync reply with arbitrary bytes leaves a valid chain valid and only adds to it. -/
private theorem sync_grows {node : Node} (valid : ValidChain sha256 node.chain.blocks) (slot : Nat) (reply : Option Bytes)
    (heap : Heap) : ValidChain sha256 (finishSync sha256 node slot reply heap).1.chain.blocks ∧
      node.chain.blocks <+: (finishSync sha256 node slot reply heap).1.chain.blocks := by
  have kept := finishSync_keeps (fun blocks => ValidChain sha256 blocks ∧ node.chain.blocks <+: blocks) slot
    (fun (payload : Bytes) (_ : payload ∈ reply) _ _ blocks block before _ admits =>
      ⟨(admits_valid before.1).mp admits, before.2.trans (List.prefix_append blocks [block])⟩) ⟨valid, List.prefix_rfl⟩
  exact (kept.always heap).2

theorem step_grows {node : Node} (valid : ValidChain sha256 node.chain.blocks) (event : NodeEvent) :
    ValidChain sha256 (node.step sha256 event).chain.blocks ∧
      node.chain.blocks <+: (node.step sha256 event).chain.blocks := by
  cases event with
  | message message heap =>
    obtain ⟨settled, grown⟩ := message_grows (Or.inr valid) message heap
    rcases settled with none | valid'
    · exact absurd (List.prefix_nil.mp (none ▸ grown)) valid.some
    · exact ⟨valid', grown⟩
  | syncReply slot reply heap =>
    simp only [Node.step]
    split
    · exact sync_grows valid slot reply heap
    · exact ⟨valid, List.prefix_rfl⟩

theorem run_valid {node : Node} (valid : ValidChain sha256 node.chain.blocks) (events : List NodeEvent) :
    ValidChain sha256 (node.run sha256 events).chain.blocks := by
  induction events generalizing node with
  | nil => exact valid
  | cons event rest ih => exact ih (step_grows valid event).1

/-- Whatever a node with a valid chain is sent, in whatever order its handlers
get the lock, every step leaves a chain that full validation accepts and that
begins with the chain before the step. -/
theorem node_chain_stays_valid (sha256 : HashFunction) (node : Node)
    (start : (validateBlockchain sha256 node.chain.blocks).result = .ok ()) (events : List NodeEvent) (next : NodeEvent) :
    (validateBlockchain sha256 ((node.run sha256 events).step sha256 next).chain.blocks).result = .ok () ∧
      (node.run sha256 events).chain.blocks <+: ((node.run sha256 events).step sha256 next).chain.blocks := by
  have reached := run_valid ((blockchain_ok sha256).mp start) events
  obtain ⟨valid, grown⟩ := step_grows reached next
  exact ⟨(blockchain_ok sha256).mpr valid, grown⟩

/-- A follower that hears of a distant block and is sent nonsense. -/
theorem follower_survives_nonsense :
    let distant : Message := ⟨4, 0, (csvLine { paymentBlock with index := 5 }).bytes⟩
    let events : List NodeEvent := [.message distant openHeap, .syncReply 0 (some (ascii "a,b\nc")) ⟨[true, false], false⟩]
    (validateBlockchain sha256Bytes (((genesisNode 1).run sha256Bytes events).step sha256Bytes
      (.message distant openHeap)).chain.blocks).result = .ok () :=
  (node_chain_stays_valid sha256Bytes (genesisNode 1) genesis_accepted _ _).1

/-- The block that a line offers to an empty chain. -/
def offered (sha256 : HashFunction) (line : CString) : Option Block :=
  match (blockFromCsv line).result with
  | .error _ => none
  | .ok block => if (validateBlockMerkleRoot sha256 block).result = .ok () then some block else none

private theorem offered_some {line : CString} {block : Block} :
    offered sha256 line = some block ↔ (blockFromCsv line).result = .ok block ∧ Sound sha256 block := by
  unfold offered
  split
  next failed => simp [failed]
  next found parsed =>
    simp only [merkle_ok, Option.ite_none_right_eq_some, Option.some.injEq, parsed, Except.ok.injEq]
    exact ⟨fun ⟨sound, same⟩ => ⟨same, same ▸ sound⟩, fun ⟨same, sound⟩ => ⟨same ▸ sound, same⟩⟩

/-- The first block that the lines offer, if any, is a genesis block. -/
def GenesisFirst (sha256 : HashFunction) (lines : List CString) : Prop :=
  ∀ block ∈ (lines.filterMap (offered sha256)).head?, block.index = 0

/-- No line offers anything but a genesis block. -/
def GenesisOnly (sha256 : HashFunction) (lines : List CString) : Prop :=
  ∀ block ∈ lines.filterMap (offered sha256), block.index = 0

private theorem admits_empty {block : Block} : Admits sha256 [].getLast? true block ↔ Sound sha256 block := by
  simp [Admits]

/-- A line that offers nothing but a genesis block is harmless. -/
private theorem only_settles {lines : List CString} (only : GenesisOnly sha256 lines) {line : CString} (member : line ∈ lines)
    {blocks : List Block} {block : Block} (settled : Settled sha256 blocks) (parsed : (blockFromCsv line).result = .ok block)
    (admits : Admits sha256 blocks.getLast? true block) : Settled sha256 (blocks ++ [block]) := by
  rcases settled with rfl | valid
  · have sound := admits_empty.mp admits
    have genesis := only block (List.mem_filterMap.mpr ⟨line, member, offered_some.mpr ⟨parsed, sound⟩⟩)
    exact Or.inr (validChain_single.mpr ⟨sound, genesis⟩)
  · exact Or.inr ((admits_valid valid).mp admits)

/-- An empty chain takes the first block it is offered, and what follows is linked to it. -/
private theorem syncLoop_empty (lines : List CString) {chain : Blockchain} (empty : chain.blocks = []) :
    Ensures (syncLoop sha256 lines chain) (fun _ => True) fun after =>
      after.blocks.head? = (lines.filterMap (offered sha256)).head? ∧
        (GenesisFirst sha256 lines → Settled sha256 after.blocks) := by
  induction lines generalizing chain with
  | nil => exact .pure trivial ⟨by simp [empty], fun _ => Or.inl empty⟩
  | cons line rest ih =>
    apply (syncBlock_ensures chain line).bind
    intro after stored
    cases offer : offered sha256 line with
    | none =>
      have unchanged : after.blocks = [] := by
        rcases stored with same | ⟨block, parsed, admits, _⟩
        · rw [same, empty]
        · rw [Blockchain.last, empty] at admits
          simp [offered_some.mpr ⟨parsed, admits_empty.mp admits⟩] at offer
      simpa [GenesisFirst, offer] using (ih unchanged).weaken (fun _ _ => trivial) fun _ _ later _ => later
    | some block =>
      obtain ⟨parsed, sound⟩ := offered_some.mp offer
      have admits : Admits sha256 chain.last true block := by
        rw [Blockchain.last, empty]
        exact admits_empty.mpr sound
      rcases stored with same | ⟨_, readable, _, grown⟩
      · refine (ih (same.trans empty)).weaken (fun _ _ => trivial) fun _ _ _ complete => ?_
        have appended := complete block parsed admits
        rw [same, empty] at appended
        cases appended
      · cases readable.symm.trans parsed
        rw [empty, List.nil_append] at grown
        have start : after.blocks.head? = some block ∧ (block.index = 0 → ValidChain sha256 after.blocks) := by
          rw [grown]
          exact ⟨rfl, fun genesis => validChain_single.mpr ⟨sound, genesis⟩⟩
        have kept := syncLoop_keeps (fun blocks => blocks.head? = some block ∧ (block.index = 0 → ValidChain sha256 blocks))
          (fun line (_ : line ∈ rest) blocks next before _ admits =>
            ⟨by rw [List.head?_append, before.1]; rfl, fun genesis => (admits_valid (before.2 genesis)).mp admits⟩) start
        refine kept.weaken (fun _ _ => trivial) fun final ends _ _ => ⟨by simp [offer, ends.1], fun first => ?_⟩
        exact Or.inr (ends.2 (first block (by simp [offer])))

/-- With every allocation granted, a sync reply to an empty node ends well exactly
when the first block it offers is a genesis block. -/
theorem sync_settles_iff {node : Node} (empty : node.chain.blocks = []) (slot : Nat) (payload : Bytes) (heap : Heap)
    (granted : (finishSync sha256 node slot (some payload) heap).2.refused = false) :
    Settled sha256 (finishSync sha256 node slot (some payload) heap).1.chain.blocks ↔
      GenesisFirst sha256 (strtokLines (.ofMemory payload)) := by
  have ends : Ensures (finishSync sha256 node slot (some payload)) (fun _ => True) fun after =>
      after.chain.blocks.head? = ((strtokLines (.ofMemory payload)).filterMap (offered sha256)).head? ∧
        (GenesisFirst sha256 (strtokLines (.ofMemory payload)) → Settled sha256 after.chain.blocks) := by
    unfold finishSync
    split
    next absent => cases absent
    next nothing =>
      cases nothing
      exact .pure trivial ⟨by rw [empty]; rfl, fun _ => Or.inl empty⟩
    next given _ same =>
      cases same
      refine guarded_ensures trivial ?_
      apply (syncLoop_empty _ empty).bind
      exact fun after _ => .pure trivial fun result => result
  obtain ⟨head, settles⟩ := (ends.granted heap granted).2
  refine ⟨fun settled block first => ?_, settles⟩
  rw [← head] at first
  rcases settled with none | valid
  · simp [none] at first
  · exact valid.genesis block first

/-- What a step on an empty chain needs: a sync reply that offers a genesis block
first and is processed without a refused allocation, or that offers nothing else. -/
def SafeStart (sha256 : HashFunction) (node : Node) : NodeEvent → Prop
  | .message _ _ => True
  | .syncReply slot reply heap => node.chain.blocks = [] → ∀ payload ∈ reply,
      GenesisOnly sha256 (strtokLines (.ofMemory payload)) ∨
        GenesisFirst sha256 (strtokLines (.ofMemory payload)) ∧ (finishSync sha256 node slot reply heap).2.refused = false

def SafeStarts (sha256 : HashFunction) (node : Node) : List NodeEvent → Prop
  | [] => True
  | event :: rest => SafeStart sha256 node event ∧ SafeStarts sha256 (node.step sha256 event) rest

private theorem step_settled {node : Node} {event : NodeEvent} (settled : Settled sha256 node.chain.blocks)
    (safe : SafeStart sha256 node event) : Settled sha256 (node.step sha256 event).chain.blocks := by
  rcases settled with empty | valid
  · cases event with
    | message message heap => exact (message_grows (Or.inl empty) message heap).1
    | syncReply slot reply heap =>
      simp only [Node.step]
      split
      · cases reply with
        | none => exact Or.inl empty
        | some payload =>
          rcases safe empty payload rfl with only | ⟨first, granted⟩
          · have kept : Ensures (finishSync sha256 node slot (some payload)) _ _ :=
              finishSync_keeps (Settled sha256) slot (fun given same line member blocks block settled parsed admits => by
                cases same
                exact only_settles only member settled parsed admits) (Or.inl empty)
            exact (kept.always heap).2
          · exact (sync_settles_iff empty slot payload heap granted).mpr first
      · exact Or.inl empty
  · exact Or.inr (step_grows valid event).1

private theorem run_settled {node : Node} {events : List NodeEvent} (settled : Settled sha256 node.chain.blocks)
    (safe : SafeStarts sha256 node events) : Settled sha256 (node.run sha256 events).chain.blocks := by
  induction events generalizing node with
  | nil => exact settled
  | cons event rest ih => exact ih (step_settled settled safe.1) safe.2

private theorem safeStarts_shorter {node : Node} {events start : List NodeEvent} (safe : SafeStarts sha256 node events)
    (cut : start <+: events) : SafeStarts sha256 node start := by
  induction start generalizing node events with
  | nil => trivial
  | cons event rest ih =>
    cases events with
    | nil => simp at cut
    | cons first others =>
      obtain ⟨rfl, later⟩ := List.cons_prefix_cons.mp cut
      exact ⟨safe.1, ih safe.2 later⟩

/-- A node that starts empty stays sound as long as no sync reply puts anything
but a genesis block first. -/
theorem empty_start_stays_sound (sha256 : HashFunction) (node : Node) (empty : node.chain.blocks = [])
    (events : List NodeEvent) (safe : SafeStarts sha256 node events) :
    ∀ start, start <+: events → (node.run sha256 start).chain.blocks = [] ∨
      (validateBlockchain sha256 (node.run sha256 start).chain.blocks).result = .ok () := by
  intro start cut
  rcases run_settled (Or.inl empty) (safeStarts_shorter safe cut) with none | valid
  · exact Or.inl none
  · exact Or.inr ((blockchain_ok sha256).mpr valid)

def emptyNode (nodeId : Nat) : Node := ⟨nodeId, blockchainInit, []⟩

/-- An empty node hears of a block from the future and gets one line as the reply. -/
def syncWith (block : Block) : List NodeEvent :=
  [.message ⟨4, 0, (csvLine paymentBlock).bytes⟩ openHeap, .syncReply 0 (some (csvLine block).bytes) openHeap]

theorem synced_genesis_is_sound :
    let final := (emptyNode 1).run sha256Bytes (syncWith genesisBlock)
    final.chain.blocks = [] ∨ (validateBlockchain sha256Bytes final.chain.blocks).result = .ok () := by
  have only : GenesisOnly sha256Bytes (strtokLines (.ofMemory (csvLine genesisBlock).bytes)) := by
    unfold GenesisOnly
    decide +kernel
  refine empty_start_stays_sound sha256Bytes (emptyNode 1) rfl (syncWith genesisBlock) ⟨trivial, ?_, trivial⟩ _ List.prefix_rfl
  intro _ payload same
  cases same
  exact Or.inl only

/-- The reply offers an ordinary block first, and the empty node takes it. -/
theorem synced_payment_is_unsound :
    let final := (emptyNode 1).run sha256Bytes (syncWith paymentBlock)
    ¬ (final.chain.blocks = [] ∨ (validateBlockchain sha256Bytes final.chain.blocks).result = .ok ()) := by
  decide +kernel

end ProcessChain.Proofs.NodeSafety
