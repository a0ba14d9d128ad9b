import ProcessChain.SyncConnections
import ProcessChain.Proofs.Agreement
import ProcessChain.Proofs.History
import ProcessChain.Proofs.NodeServer
import ProcessChain.Proofs.Recovery
import ProcessChain.Proofs.RoundTrip
import ProcessChain.Proofs.Sending

/-! Agreement from nothing. Without an initial state every node starts with an empty
chain, and a follower takes the first readable line of a sync reply for its first block.
That is the coordinator's first block where the reply answers the handler's own request
and no line is lost on the way, to a refused allocation or to a quotation mark. -/

namespace ProcessChain.Proofs.EmptyStart
open Lib Lib.FailStop Csv RoundTrip Validation Storage Handlers NodeSafety Recovery Sending MinerActions Coordinator History
  Proofs.NodeServer ProcessChain.Network

variable {φ μ : Type} {sha256 : HashFunction}

section Lines

/-- The blocks can be written, and are read back as they are. -/
def Legible (blocks : List Block) : Prop := ∀ block ∈ blocks, Writable block ∧ (blockFromCsv (csvLine block)).result = .ok block

variable {chain : Blockchain} (valid : ValidChain sha256 chain.blocks) (legible : Legible chain.blocks)
include legible

/-- What is read from the beginning of a line is the block of that line. -/
theorem read_legible {written block : Block} (member : written ∈ chain.blocks) {line : CString}
    (cut : line.bytes <+: (csvLine written).bytes) (parsed : (blockFromCsv line).result = .ok block) : block = written := by
  obtain ⟨writable, whole⟩ := legible written member
  have read := readBack writable cut parsed
  rw [parsed_rejoined whole] at read
  exact read

include valid

/-- The index of a block that fits is its place in the chain. -/
theorem read_continues {start : List Block} (beginning : start <+: chain.blocks) {written block : Block}
    (member : written ∈ chain.blocks) {line : CString} (cut : line.bytes <+: (csvLine written).bytes)
    (parsed : (blockFromCsv line).result = .ok block) (fits : ValidChain sha256 (start ++ [block])) :
    start ++ [block] <+: chain.blocks := by
  have same := read_legible legible member cut parsed
  obtain ⟨position, inside, found⟩ := List.mem_iff_getElem.mp member
  have short := beginning.length_le
  have bound := chain.count_lt
  have here := index_position (Or.inr valid) (List.getElem?_eq_getElem inside)
  have there : block.index = UInt64.ofNat start.length := validChain_index fits (by simp)
  have place : position = start.length := by
    rw [← here, found, ← same, there, UInt64.toNat_ofNat']
    simp only [Blockchain.count] at bound
    omega
  subst place
  have longer : start ++ [written] = chain.blocks.take (start.length + 1) := by
    rw [← List.take_append_getElem inside, found, ← List.prefix_iff_eq_take.mp beginning]
  rw [same, longer]
  exact List.take_prefix _ _

/-- The first line opens an empty chain, unless it is lost. -/
theorem syncLoop_opens {taken : Blockchain} (empty : taken.blocks = []) {first : Block} (head : chain.blocks.head? = some first)
    {line : CString} {later : List CString} (start : line.bytes <+: (csvLine first).bytes)
    (whole : later ≠ [] → line = csvLine first)
    (cuts : ∀ line ∈ later, ∀ block, (blockFromCsv line).result = .ok block →
      ∃ written ∈ chain.blocks, line.bytes <+: (csvLine written).bytes) :
    Ensures (syncLoop sha256 (line :: later) taken) (fun _ => True) fun after => after.blocks <+: chain.blocks := by
  have member : first ∈ chain.blocks := List.mem_of_mem_head? head
  have opening : ValidChain sha256 [first] :=
    validChain_single.mpr ⟨valid.sound first member, valid.genesis first head⟩
  have admits : Admits sha256 taken.last true first := by
    rw [Blockchain.last, empty]
    exact ⟨valid.sound first member, rfl⟩
  have alone : [first] <+: chain.blocks := by
    obtain ⟨others, same⟩ := List.head?_eq_some_iff.mp head
    rw [same]
    exact ⟨others, rfl⟩
  apply (syncBlock_ensures taken line).bind
  intro after stored
  rcases stored with same | ⟨block, parsed, _, grown⟩
  · cases later with
    | nil => exact .pure trivial fun _ => by simp [same, empty]
    | cons next rest =>
      -- the whole line is readable, so only a refused allocation loses it
      refine (syncLoop_length (next :: rest) after).weaken (fun _ _ => trivial) fun _ _ _ complete => ?_
      have read : (blockFromCsv line).result = .ok first := by
        rw [whole (List.cons_ne_nil next rest)]
        exact (legible first member).2
      have appended := complete first read admits
      rw [same, empty] at appended
      cases appended
  · have own := read_legible legible member start parsed
    rw [empty, own, List.nil_append] at grown
    have kept : Ensures (syncLoop sha256 later after) (fun final => final.blocks ≠ [] ∧ final.blocks <+: chain.blocks) _ :=
      syncLoop_keeps (fun blocks => blocks ≠ [] ∧ blocks <+: chain.blocks) (fun next inside blocks found before readable admitted => by
        obtain ⟨written, known, cut⟩ := cuts next inside found readable
        have fits := (admits_valid (validChain_start valid before.1 before.2)).mp admitted
        exact ⟨by simp, read_continues valid legible before.2 known cut readable fits⟩) (by rw [grown]; exact ⟨by simp, alone⟩)
    exact kept.weaken (fun _ _ => trivial) fun final ends _ _ => ends.2

omit valid in
/-- A reply that is cut from the lines of the whole chain gives an empty node a beginning of the chain. -/
theorem finishSync_opens (settled : Settled sha256 chain.blocks) {node : Node} (empty : node.chain.blocks = []) (slot : Nat) {reply : Option Bytes}
    (sent : ∀ payload ∈ reply, payload <+: syncText chain.blocks) :
    Ensures (finishSync sha256 node slot reply) (fun _ => True) fun after => after.chain.blocks <+: chain.blocks := by
  have nothing : node.chain.blocks <+: chain.blocks := empty ▸ List.nil_prefix
  unfold finishSync
  split
  · exact .pure trivial nothing
  · exact .pure trivial nothing
  next payload visible =>
    have valid : ValidChain sha256 chain.blocks := by
      refine settled.resolve_left fun none => visible ?_
      have within := sent payload rfl
      rw [none] at within
      rw [List.prefix_nil.mp within]
    refine guarded_ensures trivial ?_
    suffices opens : Ensures (syncLoop sha256 (strtokLines (.ofMemory payload)) node.chain) (fun _ => True)
        fun after => after.blocks <+: chain.blocks from opens.bind fun after _ => .pure trivial id
    obtain ⟨first, others, same⟩ := List.exists_cons_of_ne_nil valid.some
    have head : chain.blocks.head? = some first := by rw [same]; rfl
    obtain ⟨writable, readable⟩ := legible first (List.mem_of_mem_head? head)
    have readableText : (CString.ofMemory payload).bytes <+: payload := List.takeWhile_prefix _
    have text : (CString.ofMemory payload).bytes <+: (csvLine first).bytes ++ 10 :: syncText others := by
      have written := readableText.trans (sent payload rfl)
      rw [same] at written
      simpa [syncText] using written
    have cuts : ∀ line ∈ strtokLines (.ofMemory payload), ∀ block, (blockFromCsv line).result = .ok block →
        ∃ written ∈ chain.blocks, line.bytes <+: (csvLine written).bytes := by
      intro line inside block parsed
      have lines : LinesOf chain.blocks payload :=
        Or.inr ⟨chain.blocks, fun block member => ⟨member, (legible block member).1⟩, sent payload rfl⟩
      obtain ⟨written, known, _, cut⟩ := Agreement.syncLine_cases lines inside parsed
      exact ⟨written, known, cut⟩
    have feed : 10 ∉ (csvLine first).bytes := fun inside => (csvLine_letters writable 10 inside).2 rfl
    have start (token : Bytes) : (CString.ofMemory token).bytes <+: token := List.takeWhile_prefix _
    rcases tokens_cut feed (List.ne_nil_of_mem (parsed_comma readable)) text with ⟨within, few⟩ | ⟨tail, tokens, _⟩
    · -- the reply ends in the first line
      rw [strtokLines] at cuts ⊢
      generalize Lib.tokens 10 (CString.ofMemory payload).bytes = found at within few cuts ⊢
      cases found with
      | nil => exact .pure trivial nothing
      | cons token rest =>
        cases rest with
        | nil =>
          exact syncLoop_opens valid legible empty head ((start token).trans (within token List.mem_cons_self))
            (fun more => absurd rfl more) (by simp)
        | cons => simp at few
    · rw [strtokLines, tokens, List.map_cons, CString.ofMemory_bytes] at cuts ⊢
      exact syncLoop_opens valid legible empty head List.prefix_rfl (fun _ => rfl)
        fun line inside => cuts line (List.mem_cons_of_mem _ inside)

omit valid in
/-- The coordinator's answer to a request for everything is cut from the lines of the whole chain. -/
theorem request_opens {node : Node} (same : node.chain = chain) {message : Message} (everything : requestedIndex message = 0) :
    Ensures (handleSyncRequest node message) (fun _ => True) fun handled =>
      ∀ reply ∈ handled.reply, reply.payload <+: syncText chain.blocks := by
  subst same
  rw [requestedIndex] at everything
  unfold handleSyncRequest
  refine guarded_ensures trivial ?_
  refine guarded_ensures trivial ?_
  simp only [everything, UInt64.toNat_zero, List.drop_zero]
  apply (syncLines_ensures_all (fun block member => (legible block member).1) [] initialBufferCapacity).bind
  intro text _
  cases text with
  | none => exact .pure trivial fun _ reply sent => by cases sent
  | some buffer =>
    refine .pure trivial fun complete reply sent => ?_
    rw [List.nil_append, Option.some.injEq] at complete
    exact complete ▸ ipcSend_payload sent

end Lines

/-- A follower holds a beginning of the coordinator's chain, and its handlers wait for no index beyond its own height. -/
structure Trails (network : Network φ μ) (node : Node) : Prop where
  follower : node.isCoordinator = false
  beginning : node.chain.blocks <+: network.coordinator.chain.blocks
  waits : ∀ index ∈ node.syncing, index.toNat ≤ node.chain.count

/-- What holds in every state of an orderly run. -/
structure Opened (sha256 : HashFunction) (system : ConnectedNetwork φ μ) : Prop where
  authority : Authority sha256 system.network
  recorded : Recorded [] system.network
  written : ∀ block ∈ system.network.coordinator.chain.blocks, Writable block
  carried : ∀ proposal ∈ system.network.proposals,
    ∃ candidate, Writable candidate ∧ proposal.2.payload <+: (csvLine candidate).bytes
  replies : system.answers.map Prod.snd = system.network.syncReplies
  opening : ∀ answer ∈ system.answers, answer.1 = 0 → answer.2 <+: syncText system.network.coordinator.chain.blocks
  followers : ∀ follower, Trails system.network (system.network.followers follower)

/-- A message offers no first block with a quotation mark. -/
def opensPlain (message : Message) : Bool :=
  match (blockFromCsv (.ofMemory message.payload)).result with
  | .ok block => decide (block.index = 0 → ¬ Quoted block)
  | .error _ => true

/-- A reply answers the request of the handler that reads it, no allocation is refused where the beginning of the chain is
sent or where an empty node reads it, and nobody offers a first block with a quotation mark. -/
def Orderly (sha256 : HashFunction) (system : ConnectedNetwork φ μ) : Action φ μ → Prop
  | .toCoordinator message heap =>
    (message.has .blockProposal = true → opensPlain message = true) ∧
      (message.has .syncRequest = true → requestedIndex message = 0 →
        (system.network.coordinator.handleMessage sha256 message heap).2.refused = false)
  | .deliverSync follower slot position heap =>
    ∀ expected ∈ (system.network.followers follower).syncing[slot]?,
      (∀ answer ∈ position.bind (system.answers[·]?), answer.1 = expected) ∧
        ((system.network.followers follower).chain.blocks = [] →
          (finishSync sha256 (system.network.followers follower) slot (position.bind (system.network.syncReplies[·]?)) heap).2.refused = false)
  | _ => True

instance decideOrderly (system : ConnectedNetwork φ μ) : (action : Action φ μ) → Decidable (Orderly sha256 system action)
  | .toCoordinator message heap =>
    inferInstanceAs (Decidable ((message.has .blockProposal = true → opensPlain message = true) ∧
      (message.has .syncRequest = true → requestedIndex message = 0 →
        (system.network.coordinator.handleMessage sha256 message heap).2.refused = false)))
  | .deliverSync follower slot position heap =>
    -- the instance is named because the indices are a finite type, whose values would be tried one by one
    show Decidable (∀ expected ∈ (system.network.followers follower).syncing[slot]?,
      (∀ answer ∈ position.bind (system.answers[·]?), answer.1 = expected) ∧
        ((system.network.followers follower).chain.blocks = [] →
          (finishSync sha256 (system.network.followers follower) slot (position.bind (system.network.syncReplies[·]?)) heap).2.refused = false))
    from Option.decidableForallMem _
  | .deliverProposal .. | .toFollower .. | .deliverCommit .. | .toMiner .. | .deliverCommitToMiner .. | .finishCommit .. | .query ..
  | .finishResync .. | .startAttempt .. | .buildAttempt .. | .finishAttempt .. => isTrue trivial

namespace Opened

variable {system : ConnectedNetwork φ μ} (opened : Opened sha256 system)
include opened

theorem legible : Legible system.network.coordinator.chain.blocks := by
  intro block member
  have writable := opened.written block member
  refine ⟨writable, (fromCsv_csvLine writable).mpr ((rejoined_same writable.sized.some writable.plain).mp ?_)⟩
  rw [opened.recorded.chain, List.nil_append] at member
  obtain ⟨entry, inside, rfl⟩ := List.mem_map.mp member
  exact opened.recorded.readable entry inside

/-- A node that has a beginning of the chain is settled. -/
theorem settled {node : Node} (trails : Trails system.network node) : Settled sha256 node.chain.blocks := by
  by_cases empty : node.chain.blocks = []
  · exact Or.inl empty
  · rcases opened.authority.settled with none | valid
    · exact absurd (List.prefix_nil.mp (none ▸ trails.beginning)) empty
    · exact Or.inr (validChain_start valid empty trails.beginning)

end Opened

/-- The block of a miner's proposal can be written again. -/
private theorem carried_writable {payload : Bytes} {candidate block : Block} (writable : Writable candidate)
    (cut : payload <+: (csvLine candidate).bytes) (parsed : (blockFromCsv (.ofMemory payload)).result = .ok block) :
    Writable block := by
  have read := readBack writable ((List.takeWhile_prefix _).trans cut) parsed
  refine parsed_writable parsed fun quoted => ?_
  obtain ⟨transaction, member, mark⟩ := quoted
  rw [read] at member
  obtain ⟨piece, inside, rfl⟩ := List.mem_map.mp member
  have start : (CString.ofMemory piece).bytes <+: piece := List.takeWhile_prefix _
  have joined := subset_intercalate doubleColon.bytes inside (start.subset mark)
  rw [intercalate_pieces] at joined
  refine join_letters (by decide) (fun own known letter => ?_) joined
  exact (plain_letters (writable.plain own known) 34 letter).1 rfl

private theorem syncText_grows {blocks grown : List Block} (larger : blocks <+: grown) : syncText blocks <+: syncText grown := by
  obtain ⟨more, rfl⟩ := larger
  rw [syncText, syncText, List.map_append, List.flatMap_append]
  exact List.prefix_append _ _

/-- A message that leaves a follower with a beginning of the chain. -/
private theorem message_trails {network : Network φ μ} {node : Node} (trails : Trails network node) (message : Message) (heap : Heap)
    (nodeId : (node.step sha256 (.message message heap)).nodeId = node.nodeId)
    (longer : node.chain.count ≤ (node.step sha256 (.message message heap)).chain.count)
    (beginning : (node.step sha256 (.message message heap)).chain.blocks <+: network.coordinator.chain.blocks) :
    Trails network (node.step sha256 (.message message heap)) := by
  refine ⟨by simpa only [Node.isCoordinator, nodeId] using trails.follower, beginning, fun index waiting => ?_⟩
  rcases message_syncing node message heap with same | asks
  · exact Nat.le_trans (trails.waits index (same ▸ waiting)) longer
  · rcases List.mem_append.mp (asks ▸ waiting) with old | new
    · exact Nat.le_trans (trails.waits index old) longer
    · rw [List.mem_singleton.mp new, Nat.toUInt64, UInt64.toNat_ofNat']
      exact Nat.le_trans (Nat.mod_le _ _) longer

section Followers
variable [DecidableEq φ] [DecidableEq μ]

/-- What an action can make of one follower. -/
inductive FollowerStep (sha256 : HashFunction) (network : Network φ μ) (follower : φ) : Action φ μ → Node → Prop
  | kept (action : Action φ μ) : FollowerStep sha256 network follower action (network.followers follower)
  | message (message : Message) (heap : Heap) (noCommit : message.has .blockCommit = false) :
    FollowerStep sha256 network follower (.toFollower follower message heap)
      ((network.followers follower).step sha256 (.message message heap))
  | commit (position : Nat) (payload : Bytes) (heap : Heap) (found : network.commits[position]? = some payload) :
    FollowerStep sha256 network follower (.deliverCommit follower position heap)
      ((network.followers follower).step sha256 (.message ⟨MessageType.blockCommit.code, 0, payload⟩ heap))
  | sync (slot : Nat) (position : Option Nat) (heap : Heap) :
    FollowerStep sha256 network follower (.deliverSync follower slot position heap)
      ((network.followers follower).step sha256 (.syncReply slot (position.bind (network.syncReplies[·]?)) heap))

theorem step_follower (sha256 : HashFunction) (network : Network φ μ) (action : Action φ μ) (follower : φ) :
    FollowerStep sha256 network follower action ((network.step sha256 action).followers follower) := by
  have set {changed : φ} {node : Node} {action : Action φ μ}
      (own : changed = follower → FollowerStep sha256 network follower action node) :
      FollowerStep sha256 network follower action ((network.setFollower changed node).followers follower) := by
    simp only [setFollower, Function.update_apply]
    split
    next same => exact own same.symm
    next => exact .kept action
  cases action with
  | toFollower changed message heap =>
    simp only [step]
    split
    · exact .kept _
    next noCommit =>
      apply set
      rintro rfl
      exact .message message heap (by simpa using noCommit)
  | deliverCommit changed position heap =>
    simp only [step]
    split
    next payload found =>
      apply set
      rintro rfl
      exact .commit position payload heap found
    next => exact .kept _
  | deliverSync changed slot position heap =>
    apply set
    rintro rfl
    exact .sync slot position heap
  | toCoordinator | deliverProposal | toMiner =>
    simp only [step]
    split <;> exact .kept _
  | deliverCommitToMiner =>
    simp only [step, tellCommit]
    split
    · split <;> exact .kept _
    · exact .kept _
  | query =>
    simp only [step, query]
    split <;> exact .kept _
  | finishCommit | finishResync | startAttempt | buildAttempt | finishAttempt => exact .kept _

end Followers

section Steps
variable [DecidableEq φ] [DecidableEq μ] {system : ConnectedNetwork φ μ} (opened : Opened sha256 system) {action : Action φ μ}
include opened

private theorem step_written (orderly : Orderly sha256 system action) :
    ∀ block ∈ (system.network.step sha256 action).coordinator.chain.blocks, Writable block := by
  cases step_commit opened.authority action with
  | kept blocks => rw [blocks]; exact opened.written
  | grown proposer message block source parsed valid blocks =>
    rw [blocks]
    intro other member
    rcases List.mem_append.mp member with old | new
    · exact opened.written other old
    · rw [List.mem_singleton.mp new]
      rcases source with ⟨heap, _, rfl, proposal⟩ | ⟨m, _, sent⟩
      · by_cases first : block.index = 0
        · have plain := orderly.1 proposal
          simp only [opensPlain, parsed, decide_eq_true_eq] at plain
          exact parsed_writable parsed (plain first)
        · exact ((valid.sound block (by simp)).written first).1
      · obtain ⟨candidate, writable, cut⟩ := opened.carried _ sent
        exact carried_writable writable cut parsed

private theorem step_carried : ∀ proposal ∈ (system.network.step sha256 action).proposals,
    ∃ candidate, Writable candidate ∧ proposal.2.payload <+: (csvLine candidate).bytes := by
  cases step_miners opened.authority action with
  | none same => rw [same.proposals]; exact opened.carried
  | one m state accepted indices sent change changed =>
    rw [changed.proposals]
    intro proposal member
    rcases List.mem_append.mp member with old | new
    · exact opened.carried proposal old
    · simp only [Option.mem_toList, Option.map_eq_some_iff] at new
      obtain ⟨message, rfl, rfl⟩ := new
      cases change with
      | proposes candidate _ _ writable payload => exact ⟨candidate, writable, payload⟩

private theorem step_answers (orderly : Orderly sha256 system action) :
    let after := system.step sha256 action
    after.answers.map Prod.snd = after.network.syncReplies ∧
      ∀ answer ∈ after.answers, answer.1 = 0 → answer.2 <+: syncText after.network.coordinator.chain.blocks := by
  have grows := (step_authority opened.authority action).2
  have served := step_coordinator sha256 system.network action
  have old : ∀ answer ∈ system.answers, answer.1 = 0 →
      answer.2 <+: syncText (system.network.step sha256 action).coordinator.chain.blocks :=
    fun answer member everything => (opened.opening answer member everything).trans (syncText_grows grows)
  have settle {replies : List (UInt64 × Bytes)} {after : Network φ μ}
      (old : ∀ answer ∈ system.answers, answer.1 = 0 → answer.2 <+: syncText after.coordinator.chain.blocks)
      (same : after.syncReplies = system.network.syncReplies ++ replies.map Prod.snd)
      (new : ∀ answer ∈ replies, answer.1 = 0 → answer.2 <+: syncText after.coordinator.chain.blocks) :
      (system.answers ++ replies).map Prod.snd = after.syncReplies ∧
        ∀ answer ∈ system.answers ++ replies, answer.1 = 0 → answer.2 <+: syncText after.coordinator.chain.blocks := by
    refine ⟨by rw [List.map_append, opened.replies, same], fun answer member => ?_⟩
    exact (List.mem_append.mp member).elim (old answer) (new answer)
  simp only [ConnectedNetwork.step]
  generalize system.network.step sha256 action = after at served grows old ⊢
  cases served with
  | message message heap noCommit =>
    refine settle old ?_ ?_
    · simp only [serve, answered, List.drop_left, List.map_map, Function.comp_def, List.map_id']
    · intro answer member everything
      simp only [serve, answered, List.drop_left, List.mem_map] at member
      obtain ⟨payload, new, rfl⟩ := member
      split at new
      next request =>
        have granted := orderly.2 request everything
        simp only [Message.has, beq_iff_eq] at request
        simp only [Node.handleMessage, request, Option.mem_toList, Option.map_eq_some_iff] at new granted
        obtain ⟨reply, sent, rfl⟩ := new
        have opens := (request_opens opened.legible rfl everything).granted heap granted
        exact (opens.2 reply sent).trans (syncText_grows grows)
      next => cases new
  | proposal position miner message heap found =>
    have type := opened.authority.proposals _ (List.mem_of_getElem? found)
    have silent : message.has .syncRequest = false := by
      simp only [Message.has, beq_iff_eq] at type
      simp [Message.has, type]
    exact settle old (by simp [serve, answered, silent]) (by simp [answered])
  | other same proposals =>
    have none : answered (after.syncReplies.drop system.network.syncReplies.length) action = [] := by
      rw [same.syncReplies, List.drop_length]
      cases action <;> rfl
    rw [none]
    exact settle old (by simp [same.syncReplies]) (by simp)

omit [DecidableEq φ] [DecidableEq μ] in
private theorem commit_trails {node : Node} (trails : Trails system.network node) {payload : Bytes}
    (sent : payload ∈ system.network.commits) (heap : Heap) :
    Trails system.network (node.step sha256 (.message ⟨MessageType.blockCommit.code, 0, payload⟩ heap)) := by
  have handled := (message_ensures (opened.settled trails) ⟨MessageType.blockCommit.code, 0, payload⟩).always heap
  rcases handled with kept | ⟨block, parsed, fits, grown⟩
  · exact message_trails trails _ heap kept.nodeId (Nat.le_of_eq (congrArg List.length kept.blocks.symm))
      (kept.blocks ▸ trails.beginning)
  · obtain ⟨written, member, writable, cut⟩ := opened.authority.commits payload sent
    have valid := opened.authority.settled.resolve_left (List.ne_nil_of_mem member)
    have readable : (CString.ofMemory payload).bytes <+: (csvLine written).bytes := (List.takeWhile_prefix _).trans cut
    refine message_trails trails _ heap grown.nodeId ?_ ?_
    · simp only [Node.step, Blockchain.count, grown.blocks, List.length_append, Nat.le_add_right]
    · simp only [Node.step, grown.blocks]
      exact read_continues valid opened.legible trails.beginning member readable parsed fits

omit [DecidableEq φ] [DecidableEq μ] in
private theorem sync_trails {follower : φ} {slot : Nat} {position : Option Nat} {heap : Heap}
    (orderly : Orderly sha256 system (.deliverSync follower slot position heap)) :
    let reply := position.bind (system.network.syncReplies[·]?)
    Trails system.network ((system.network.followers follower).step sha256 (.syncReply slot reply heap)) := by
  have trails := opened.followers follower
  simp only [Orderly] at orderly
  generalize system.network.followers follower = node at trails orderly ⊢
  intro reply
  by_cases inside : slot < node.syncing.length
  · have erased : (node.step sha256 (.syncReply slot reply heap)).syncing = _ := reply_syncing inside reply heap
    simp only [Node.step, if_pos inside] at erased ⊢
    obtain ⟨own, granted⟩ := orderly _ (List.getElem?_eq_getElem inside)
    have answered : ∀ payload ∈ reply, (node.syncing[slot], payload) ∈ system.answers := by
      intro payload given
      obtain ⟨place, same, found⟩ := Option.bind_eq_some_iff.mp given
      rw [← opened.replies, List.getElem?_map, Option.map_eq_some_iff] at found
      obtain ⟨answer, there, rfl⟩ := found
      rw [← own answer (by rw [same]; exact there)]
      exact List.mem_of_getElem? there
    have longer : Ensures (finishSync sha256 node slot reply)
        (fun after => after.nodeId = node.nodeId ∧ node.chain.count ≤ after.chain.count) _ :=
      finishSync_keeps (fun blocks => node.chain.count ≤ blocks.length) slot
        (fun _ _ _ _ blocks block before _ _ => Nat.le_trans before (by simp)) (Nat.le_refl _)
    obtain ⟨nodeId, longer⟩ := longer.always heap
    refine ⟨by simpa only [Node.isCoordinator, nodeId] using trails.follower, ?_, fun index waiting => ?_⟩
    · by_cases empty : node.chain.blocks = []
      · have first : node.syncing[slot] = 0 := by
          have bound := trails.waits _ (List.getElem_mem inside)
          simp only [Blockchain.count, empty, List.length_nil, Nat.le_zero] at bound
          exact UInt64.toNat_inj.mp bound
        have opens := finishSync_opens opened.legible opened.authority.settled empty slot fun payload given =>
          opened.opening _ (answered payload given) first
        exact (opens.granted heap (granted empty)).2
      · have valid := opened.authority.settled.resolve_left fun none => empty (List.prefix_nil.mp (none ▸ trails.beginning))
        have kept : Ensures (finishSync sha256 node slot reply)
            (fun after => after.nodeId = node.nodeId ∧ after.chain.blocks ≠ [] ∧
              after.chain.blocks <+: system.network.coordinator.chain.blocks) _ :=
          finishSync_keeps (fun blocks => blocks ≠ [] ∧ blocks <+: system.network.coordinator.chain.blocks) slot
            (fun payload given line member blocks block before parsed admits => by
              have fits := (admits_valid (validChain_start valid before.1 before.2)).mp admits
              have sent : payload ∈ system.network.syncReplies := by
                rw [← opened.replies]
                exact List.mem_map_of_mem (answered payload given)
              obtain ⟨written, known, _, cut⟩ := Agreement.syncLine_cases (opened.authority.syncReplies payload sent) member parsed
              exact ⟨by simp, read_continues valid opened.legible before.2 known cut parsed fits⟩)
            ⟨empty, trails.beginning⟩
        exact (kept.always heap).2.2
    · rw [erased] at waiting
      exact Nat.le_trans (trails.waits index (List.mem_of_mem_eraseIdx waiting)) longer
  · simp only [Node.step, if_neg inside]
    exact trails

/-- Every follower stays behind the coordinator as it was before the step. -/
private theorem step_trails (orderly : Orderly sha256 system action) (follower : φ) :
    Trails system.network ((system.network.step sha256 action).followers follower) := by
  have before := opened.followers follower
  have changed := step_follower sha256 system.network action follower
  generalize (system.network.step sha256 action).followers follower = after at changed ⊢
  cases changed with
  | kept => exact before
  | message message heap noCommit =>
    have kept : Kept (system.network.followers follower) ((system.network.followers follower).step sha256 (.message message heap)) :=
      (follower_ensures before.follower noCommit).always heap
    exact message_trails before message heap kept.nodeId (Nat.le_of_eq (congrArg List.length kept.blocks.symm))
      (kept.blocks ▸ before.beginning)
  | commit position payload heap found => exact commit_trails opened before (List.mem_of_getElem? found) heap
  | sync slot position heap => exact sync_trails opened orderly

private theorem step_opened (orderly : Orderly sha256 system action) : Opened sha256 (system.step sha256 action) := by
  obtain ⟨authority, grows⟩ := step_authority opened.authority action
  obtain ⟨replies, opening⟩ := step_answers opened orderly
  refine ⟨authority, step_recorded opened.authority opened.recorded action, step_written opened orderly, step_carried opened,
    replies, opening, fun follower => ?_⟩
  have trails := step_trails opened orderly follower
  exact ⟨trails.follower, trails.beginning.trans grows, trails.waits⟩

end Steps

section Runs
variable [DecidableEq φ] [DecidableEq μ]

/-- Every step of a run is orderly in the state in which it is made. -/
def OrderlyRun (sha256 : HashFunction) : ConnectedNetwork φ μ → List (Action φ μ) → Prop
  | _, [] => True
  | system, action :: rest => Orderly sha256 system action ∧ OrderlyRun sha256 (system.step sha256 action) rest

instance decideOrderlyRun (system : ConnectedNetwork φ μ) : (actions : List (Action φ μ)) → Decidable (OrderlyRun sha256 system actions)
  | [] => isTrue trivial
  | action :: rest =>
    have := decideOrderlyRun (system.step sha256 action) rest
    inferInstanceAs (Decidable (Orderly sha256 system action ∧ OrderlyRun sha256 (system.step sha256 action) rest))

private theorem run_opened {system : ConnectedNetwork φ μ} (opened : Opened sha256 system) {actions : List (Action φ μ)}
    (orderly : OrderlyRun sha256 system actions) : Opened sha256 (system.run sha256 actions) := by
  induction actions generalizing system with
  | nil => exact opened
  | cons action rest ih => exact ih (step_opened opened orderly.1) orderly.2

/-- Nodes, miners and connections where there is no initial state. -/
def emptyStart (nodeId : φ → Nat) (minerId : μ → Nat) : ConnectedNetwork φ μ :=
  .start (.start (emptyNode 0) (fun follower => emptyNode (nodeId follower)) minerId)

omit [DecidableEq φ] [DecidableEq μ] in
private theorem start_opened {nodeId : φ → Nat} (areFollowers : ∀ follower, nodeId follower ≠ 0) (minerId : μ → Nat) :
    Opened sha256 (emptyStart nodeId minerId) where
  authority := start_authority rfl (Or.inl rfl)
  recorded := start_recorded (emptyNode 0) _ minerId
  written := by simp [emptyStart, ConnectedNetwork.start, start, emptyNode, blockchainInit]
  carried := by simp [emptyStart, ConnectedNetwork.start, start]
  replies := rfl
  opening := by simp [emptyStart, ConnectedNetwork.start]
  followers := fun follower => ⟨beq_false_of_ne (areFollowers follower), List.nil_prefix, by simp [emptyStart, ConnectedNetwork.start, start, emptyNode]⟩

/-- Where all nodes start without a block, every orderly run keeps every follower at a beginning of the coordinator's chain.
So of two followers one is behind the other, and each chain that has a block is valid. -/
theorem empty_start_agrees (sha256 : HashFunction) (nodeId : φ → Nat) (areFollowers : ∀ follower, nodeId follower ≠ 0)
    (minerId : μ → Nat) (actions : List (Action φ μ)) (orderly : OrderlyRun sha256 (emptyStart nodeId minerId) actions) :
    let network := (start (emptyNode 0) (fun follower => emptyNode (nodeId follower)) minerId).run sha256 actions
    (∀ follower, (network.followers follower).chain.blocks <+: network.coordinator.chain.blocks ∧
        ((network.followers follower).chain.blocks = [] ∨
          (validateBlockchain sha256 (network.followers follower).chain.blocks).result = .ok ())) ∧
      ∀ first second, (network.followers first).chain.blocks <+: (network.followers second).chain.blocks ∨
        (network.followers second).chain.blocks <+: (network.followers first).chain.blocks := by
  intro network
  have opened := run_opened (start_opened areFollowers minerId) orderly
  have same : ((emptyStart nodeId minerId).run sha256 actions).network = network := ConnectedNetwork.run_network sha256 _ actions
  have trails (follower : φ) : Trails network (network.followers follower) := same ▸ opened.followers follower
  refine ⟨fun follower => ⟨(trails follower).beginning, ?_⟩, fun first second => ?_⟩
  · have settled : Settled sha256 (network.followers follower).chain.blocks := opened.settled (same ▸ trails follower)
    exact settled.imp_right (blockchain_ok sha256).mpr
  · exact List.prefix_or_prefix_of_prefix (trails first).beginning (trails second).beginning

end Runs

/-- Two blocks are committed. One follower hears of the second one first and asks for everything. -/
def lateFollower (first second : Block) (announced : Nat) (heap : Heap) : List (Action Bool Empty) :=
  [.toCoordinator ⟨MessageType.blockProposal.code, 1, (csvLine first).bytes⟩ openHeap,
    .toCoordinator ⟨MessageType.blockProposal.code, 1, (csvLine second).bytes⟩ openHeap,
    .deliverCommit false announced openHeap, .toCoordinator ⟨MessageType.syncRequest.code, 1, decimal 0⟩ openHeap,
    .deliverSync false 0 (some 0) heap]

def lateNetwork (sha256 : HashFunction) (first second : Block) (announced : Nat) (heap : Heap) : Network Bool Empty :=
  (start (emptyNode 0) (fun follower => emptyNode (follower.toNat + 1)) Empty.elim).run sha256
    (lateFollower first second announced heap)

/-- A hash function that is constant. -/
def flatHash : HashFunction := fun _ => Vector.replicate 32 0

/-- A block under this hash function. -/
def flatBlock (index : UInt64) (transaction : String) : Block := ⟨index, 0, zeroHash, zeroHash, 0, [.text transaction]⟩

def flatNetwork (opening : String) (announced : Nat) (heap : Heap) : Network Bool Empty :=
  lateNetwork flatHash (flatBlock 0 opening) (flatBlock 1 "Al pays Bob 5 coins") announced heap

theorem late_follower_agrees :
    let network := flatNetwork "Genesis block" 1 openHeap
    (∀ follower, (network.followers follower).chain.blocks <+: network.coordinator.chain.blocks ∧
        ((network.followers follower).chain.blocks = [] ∨
          (validateBlockchain flatHash (network.followers follower).chain.blocks).result = .ok ())) ∧
      ∀ first second, (network.followers first).chain.blocks <+: (network.followers second).chain.blocks ∨
        (network.followers second).chain.blocks <+: (network.followers first).chain.blocks :=
  empty_start_agrees flatHash (fun follower : Bool => follower.toNat + 1) (fun _ => Nat.succ_ne_zero _) Empty.elim
    (lateFollower (flatBlock 0 "Genesis block") (flatBlock 1 "Al pays Bob 5 coins") 1 openHeap) (by decide +kernel)

/-- The follower cannot copy the first line of the reply, and takes the second block for the first one. -/
theorem lost_line_splits :
    ¬ ((flatNetwork "Genesis block" 1 ⟨[true, false], false⟩).followers false).chain.blocks <+:
      (flatNetwork "Genesis block" 1 ⟨[true, false], false⟩).coordinator.chain.blocks := by
  decide +kernel

/-- The coordinator cannot write its first block, so its reply begins with the second one. -/
theorem quoted_block_splits :
    ¬ ((flatNetwork "a\"b" 0 openHeap).followers false).chain.blocks <+: (flatNetwork "a\"b" 0 openHeap).coordinator.chain.blocks := by
  decide +kernel

end ProcessChain.Proofs.EmptyStart
