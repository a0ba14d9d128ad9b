import ProcessChain.ProposalExchange
import ProcessChain.Proofs.ChainQuery
import ProcessChain.Proofs.FreshAttempts

/-! What becomes of a miner's view after its proposal was rejected. The rejection is
a reply that nobody looks at, so it changes nothing. The view is the tip before the
next attempt exactly when it was the tip already or when the communication thread
still has something in hand that leads there. -/

namespace ProcessChain.Proofs.Rejection
open Lib Lib.FailStop Csv Crypto Validation Storage Handlers Allocation MinerSteps Recovery ChainQuery

variable {sha256 : HashFunction}

/-- The pair belongs to the next block of the chain. -/
structure AtTip (sha256 : HashFunction) (blocks : List Block) (nextIndex : UInt64) (previousHash : CString) : Prop where
  index : nextIndex = blocks.length.toUInt64
  hash : ∃ last ∈ blocks.getLast?, (calculateBlockHash sha256 last).result = .ok previousHash

/-- The block at this position can be written on a line that is read again. -/
def Legible (blocks : List Block) (position : Nat) : Prop :=
  ∃ block ∈ blocks[position]?, ∃ line, (blockToCsv block).result = .ok line ∧
    ∃ again, (blockFromCsv line).result = .ok again

section BlockQuery

/-- What a miner learns from its query for a block. -/
def learned (sha256 : HashFunction) (block : Block) : Resync := .install (block.index + 1) (blockHash sha256 block)

/-- The line of a block is read as a block with the same index and the same hash. -/
private theorem read_learned {block again : Block} (writable : Writable block)
    (read : (blockFromCsv (csvLine block)).result = .ok again) :
    Hashable again ∧ .install (again.index + 1) (blockHash sha256 again) = learned sha256 block := by
  obtain ⟨_, fields⟩ := fromCsv_ok.mp read
  have sized := fields.sized
  have same := readBack writable (List.prefix_refl _) read
  subst same
  refine ⟨⟨hash_length writable.previousHash, hash_length writable.merkleRoot, sized.some⟩, ?_⟩
  rw [blockHash_rejoined]
  rfl

/-- An error is no line of a block. -/
private theorem error_plain {node : Node} {text : String} {length : Nat} (plain : 44 ∉ ascii text) :
    ∀ payload ∈ (node.answer .responseErr text length).reply.map Message.payload, 44 ∉ payload := by
  intro payload sent
  obtain ⟨reply, answered, rfl⟩ := Option.map_eq_some_iff.mp sent
  exact answer_plain plain reply answered

/-- The position that a query for a height comes to. -/
private theorem height_found {node : Node} (settled : Settled sha256 node.chain.blocks) (height : Nat) :
    lookup sha256 node.chain (CString.ofMemory (blockQuery height)).bytes =
        some (pure (if height - 1 < node.chain.count then some (height - 1) else none)) ∧
      (if height - 1 < node.chain.count then some (height - 1) else none).bind (node.chain.blocks[·]?) =
        node.chain.blocks[height - 1]? := by
  have query : (CString.ofMemory (blockQuery height)).bytes = (Query.index (height - 1)).payload :=
    CString.bytes_ofMemory (payload_terminated (.index (height - 1)))
  refine ⟨by rw [query, lookup_number settled], ?_⟩
  split
  next => rfl
  next beyond => exact (List.getElem?_eq_none (Nat.le_of_not_lt beyond)).symm

/-- The answer is an error, or the line of the block. -/
private theorem queryBlock_answers {node : Node} (settled : Settled sha256 node.chain.blocks) (height : Nat) :
    Ensures (handleQueryBlock sha256 node ⟨MessageType.queryBlock.code, 0, blockQuery height⟩)
      (fun handled => (∀ payload ∈ handled.reply.map Message.payload, 44 ∉ payload) ∨
        ∃ block ∈ node.chain.blocks[height - 1]?, Writable block ∧
          handled.reply.map Message.payload = some (csvLine block).bytes)
      fun handled => ∀ block ∈ node.chain.blocks[height - 1]?, Writable block →
        handled.reply.map Message.payload = some (csvLine block).bytes := by
  obtain ⟨searched, located⟩ := height_found settled height
  unfold handleQueryBlock
  apply (malloc_ensures _).bind
  intro enough _
  cases enough with
  | false => exact .pure (Or.inl (error_plain (by decide))) (by simp)
  | true =>
    simp only [searched, Option.getD_some, pure_bind, located]
    cases node.chain.blocks[height - 1]? with
    | none => exact .pure (Or.inl (error_plain (by decide))) (by simp)
    | some block =>
      apply (attempt_ensures _).bind
      intro result written
      cases result with
      | error error =>
        refine .pure (Or.inl (error_plain (by decide))) fun failed _ _ same writable => ?_
        cases same
        rw [toCsv_ok.mpr ⟨writable, rfl⟩] at failed
        cases failed.1
      | ok line =>
        obtain ⟨writable, rfl⟩ := toCsv_ok.mp (written line rfl)
        refine .pure (Or.inr ⟨block, rfl, writable, ?_⟩) fun _ _ other same _ => ?_
        · rw [ipcSend_line writable, Option.map_some]
        · cases same
          rw [ipcSend_line writable, Option.map_some]

private theorem queryBlock_reveals {node : Node} (settled : Settled sha256 node.chain.blocks) (height : Nat) :
    Reveals (handleQueryBlock sha256 node ⟨MessageType.queryBlock.code, 0, blockQuery height⟩)
      fun handled => ∀ payload ∈ handled.reply.map Message.payload, 44 ∉ payload := by
  obtain ⟨searched, located⟩ := height_found settled height
  unfold handleQueryBlock
  apply (malloc_reveals _).bind
  · intro enough
    cases enough with
    | false => exact .pure _
    | true =>
      simp only [searched, Option.getD_some, pure_bind, located]
      cases node.chain.blocks[height - 1]? with
      | none => exact .pure _
      | some block =>
        apply (attempt_reveals (blockToCsv block)).bind
        · intro result
          cases result <;> exact .pure _
        · intro result failed supply
          obtain ⟨error, rfl⟩ := failed
          exact error_plain (by decide)
  · intro enough failed supply
    cases failed
    exact error_plain (by decide)

/-- One query for a block with the work on its answer. -/
def askBlock (sha256 : HashFunction) (node : Node) (height : Nat) : HeapM (Option Resync) := do
  let reply ← queryNode sha256 node .queryBlock (blockQuery height)
  resyncBlock sha256 reply

private theorem resyncBlock_reveals (sha256 : HashFunction) (reply : Option Bytes) :
    Reveals (resyncBlock sha256 reply) fun next => next = none := by
  unfold resyncBlock
  split
  · exact .pure _
  · exact .pure _
  next payload _ =>
    apply (malloc_reveals _).bind
    · intro enough
      cases enough with
      | false => exact .pure _
      | true =>
        apply (attempt_reveals (blockFromCsv _)).bind
        · intro result
          cases result with
          | error error => exact .pure _
          | ok block =>
            apply (attempt_reveals (calculateBlockHash sha256 block)).bind
            · intro result
              cases result <;> exact .pure _
            · intro result failed supply
              obtain ⟨error, rfl⟩ := failed
              rfl
        · intro result failed supply
          obtain ⟨error, rfl⟩ := failed
          rfl
    · intro enough failed supply
      cases failed
      rfl

/-- The query leads to the view behind the block, or nowhere. -/
theorem askBlock_ensures {node : Node} (settled : Settled sha256 node.chain.blocks) (height : Nat) :
    Ensures (askBlock sha256 node height)
      (fun next => next = none ∨ Legible node.chain.blocks (height - 1) ∧
        ∃ block ∈ node.chain.blocks[height - 1]?, next = some (learned sha256 block))
      fun next => Legible node.chain.blocks (height - 1) →
        ∃ block ∈ node.chain.blocks[height - 1]?, next = some (learned sha256 block) := by
  have answered : Ensures (queryNode sha256 node .queryBlock (blockQuery height))
      (fun reply => (∀ payload ∈ reply, 44 ∉ payload) ∨
        ∃ block ∈ node.chain.blocks[height - 1]?, Writable block ∧ reply = some (csvLine block).bytes)
      fun reply => ∀ block ∈ node.chain.blocks[height - 1]?, Writable block → reply = some (csvLine block).bytes :=
    (queryBlock_answers settled height).bind fun handled said => .pure said fun complete => complete
  apply answered.bind
  intro reply said
  refine (resyncBlock_ensures sha256 reply).weaken ?_ ?_
  · intro next reads
    cases next with
    | none => exact Or.inl rfl
    | some phase =>
      obtain ⟨payload, rfl, again, read, _, rfl⟩ := reads phase rfl
      rcases said with plain | ⟨block, found, writable, same⟩
      · have comma := (List.takeWhile_prefix _).subset (parsed_comma read)
        exact absurd comma (plain payload rfl)
      · cases same
        rw [CString.ofMemory_bytes] at read
        obtain ⟨_, same⟩ := read_learned writable read
        exact Or.inr ⟨⟨block, found, csvLine block, toCsv_ok.mpr ⟨writable, rfl⟩, again, read⟩, block, found, congrArg some same⟩
  · intro next _ reads told legible
    obtain ⟨block, found, line, written, again, read⟩ := legible
    obtain ⟨writable, rfl⟩ := toCsv_ok.mp written
    obtain ⟨hashable, same⟩ := read_learned writable read
    refine ⟨block, found, ?_⟩
    rw [← same]
    apply reads _ (told block found writable) ?_ again ?_ hashable
    · exact List.ne_nil_of_mem (parsed_comma read)
    · rwa [CString.ofMemory_bytes]

theorem askBlock_reveals {node : Node} (settled : Settled sha256 node.chain.blocks) (height : Nat) :
    Reveals (askBlock sha256 node height) fun next => next = none := by
  have answered : Reveals (queryNode sha256 node .queryBlock (blockQuery height))
      fun reply => ∀ payload ∈ reply, 44 ∉ payload :=
    (queryBlock_reveals settled height).bind (fun _ => .pure _) fun _ failed _ => failed
  apply answered.bind
  · exact fun reply => resyncBlock_reveals sha256 reply
  · intro reply plain supply
    have reads := (resyncBlock_ensures sha256 reply).always supply
    cases next : (resyncBlock sha256 reply supply).1 with
    | none => rfl
    | some phase =>
      obtain ⟨payload, sent, _, read, _⟩ := reads phase next
      have comma := (List.takeWhile_prefix _).subset (parsed_comma read)
      exact absurd comma (plain payload sent)

end BlockQuery

/-- The miner when its communication thread is done, with the view where it was or moved. -/
def ended (miner : Miner) : Option (UInt64 × CString) → Miner
  | none => { miner with communication := .idle }
  | some view => { miner.moveView view.1 view.2 with communication := .idle }

/-- The view behind a block. -/
def behind (sha256 : HashFunction) (block : Block) : UInt64 × CString := (block.index + 1, blockHash sha256 block)

/-- What the communication thread still has in hand: nothing that concerns the view, a
pair to move it to, or a query for the block at some position. -/
inductive Prospect
  | kept
  | moved (nextIndex : UInt64) (previousHash : CString)
  | asked (position : Nat)

def prospect (blocks : List Block) (miner : Miner) : Prospect :=
  match miner.communication with
  | .idle => .kept
  | .committing index hash => if index ≥ miner.nextIndex then .moved (index + 1) hash else .kept
  | .resyncing .askHeight => .asked (blocks.length - 1)
  | .resyncing (.askBlock height) => .asked (height - 1)
  | .resyncing .reset => .moved 0 zeroHash
  | .resyncing (.install nextIndex previousHash) => .moved nextIndex previousHash

section Finishing
variable {node : Node} {miner : Miner}

private theorem continue_idle (idle : miner.communication = .idle) : miner.continueMessage sha256 node = pure miner := by
  unfold Miner.continueMessage
  rw [idle]

/-- The reply to a query for the height sends the thread on to the last block. -/
theorem resyncHeight_decimal {count : Nat} (grown : count ≠ 0) (small : count < 2 ^ 63) :
    resyncHeight (some (decimal count)) = some (.askBlock count) := by
  obtain ⟨first, rest, digits⟩ := List.exists_cons_of_ne_nil (decimal_visible count)
  have all : (decimal count).take 31 = decimal count :=
    List.take_of_length_le (Nat.le_trans (decimal_length (by omega)) (by decide))
  have read : Numeral.toLong ⟨false, count, []⟩ = some (count : Int) := by
    simp only [Numeral.toLong, longMax]
    rw [if_neg Bool.false_ne_true, if_neg (by omega)]
  have text : scanNumeral 10 (CString.ofMemory ((decimal count).take 31)).bytes = some ⟨false, count, []⟩ := by
    rw [all, CString.bytes_ofMemory (decimal_terminated count), scanNumeral_decimal]
  have proper : ¬ (count : Int) < 0 ∧ ¬ (count : Int) = 0 := by omega
  rw [digits] at text ⊢
  simp only [resyncHeight, text, Option.bind_eq_bind, Option.bind_some, read, if_neg proper.1, if_neg proper.2, Int.toNat_natCast]

/-- The height that node 0 tells takes no memory. -/
theorem queryHeight_answer (sha256 : HashFunction) (node : Node) :
    queryNode sha256 node .queryHeight [] = pure (some (decimal node.chain.count)) := by
  have fits := ipcSend_fits .responseOk node.sender
    (Nat.le_trans (decimal_length node.chain.count_lt) (show 20 ≤ maxPayloadSize by decide))
  simp only [queryNode, Node.handleMessage, MessageType.ofCode_code, handleQueryHeight, fits, pure_bind, Option.map_some]

private theorem continue_asking {height : Nat} (asking : miner.communication = .resyncing (.askBlock height)) :
    miner.continueMessage sha256 node =
      (do return miner.continueResync (← askBlock sha256 node height) .communication) := by
  unfold Miner.continueMessage
  rw [asking]
  simp only [askBlock, bind_assoc]

/-- The thread is done, with the view behind the block if this could be read and nothing was refused. -/
structure Learns (sha256 : HashFunction) (blocks : List Block) (miner : Miner) (position : Nat) (program : HeapM Miner) : Prop where
  ensures : Ensures program
    (fun final => final = ended miner none ∨ Legible blocks position ∧
      ∃ block ∈ blocks[position]?, final = ended miner (some (behind sha256 block)))
    fun final => Legible blocks position → ∃ block ∈ blocks[position]?, final = ended miner (some (behind sha256 block))
  reveals : Reveals program fun final => final = ended miner none

/-- The query for a block is over in two steps. -/
theorem asking_learns (settled : Settled sha256 node.chain.blocks) {height : Nat}
    (asking : miner.communication = .resyncing (.askBlock height)) :
    Learns sha256 node.chain.blocks miner (height - 1) (do
      let first ← miner.continueMessage sha256 node
      first.continueMessage sha256 node) := by
  rw [continue_asking asking, bind_assoc]
  constructor
  · apply (askBlock_ensures settled height).bind
    intro next known
    rw [pure_bind]
    rcases known with rfl | ⟨legible, block, found, rfl⟩
    · rw [continue_idle rfl]
      refine .pure (Or.inl rfl) fun complete legible => ?_
      obtain ⟨block, _, same⟩ := complete legible
      cases same
    · exact .pure (Or.inr ⟨legible, block, found, rfl⟩) fun _ _ => ⟨block, found, rfl⟩
  · apply Reveals.bindEnsured (askBlock_ensures settled height) (askBlock_reveals settled height)
    · intro next known
      rw [pure_bind]
      rcases known with rfl | ⟨_, block, _, rfl⟩
      · rw [continue_idle rfl]
        exact .pure _
      · exact .pure _
    · intro next failed supply
      rw [pure_bind, failed, continue_idle rfl]
      rfl

private theorem ended_idle (miner : Miner) (view : Option (UInt64 × CString)) : (ended miner view).communication = .idle := by
  cases view <;> rfl

private theorem ended_mining (miner : Miner) (view : Option (UInt64 × CString)) : (ended miner view).mining = miner.mining := by
  cases view <;> rfl

/-- A thread that is done stays as it is. -/
private theorem Learns.continue {blocks : List Block} {position : Nat} {program : HeapM Miner}
    (learns : Learns sha256 blocks miner position program) :
    Learns sha256 blocks miner position (program >>= fun done => done.continueMessage sha256 node) := by
  constructor
  · apply learns.ensures.bind
    intro done known
    rcases known with rfl | ⟨legible, block, found, rfl⟩
    · rw [continue_idle (ended_idle _ _)]
      exact .pure (Or.inl rfl) fun complete => complete
    · rw [continue_idle (ended_idle _ _)]
      exact .pure (Or.inr ⟨legible, block, found, rfl⟩) fun complete => complete
  · apply Reveals.bindEnsured learns.ensures learns.reveals
    · intro done known
      rcases known with rfl | ⟨_, _, _, rfl⟩
      · rw [continue_idle (ended_idle _ _)]
        exact .pure _
      · rw [continue_idle (ended_idle _ _)]
        exact .pure _
    · intro done failed supply
      rw [failed, continue_idle (ended_idle _ _)]
      rfl

private theorem count_long (chain : Blockchain) : chain.count < 2 ^ 63 := by
  have fits := chain.fits
  have allocated := chain.allocated
  simp only [sizeofBlock, ptrdiffMax] at allocated
  simp only [Blockchain.count]
  omega

/-- A query for the height becomes a query for the last block. -/
private theorem continue_height (some : node.chain.blocks ≠ []) (asking : miner.communication = .resyncing .askHeight) :
    miner.continueMessage sha256 node = pure { miner with communication := .resyncing (.askBlock node.chain.count) } := by
  have grown : node.chain.count ≠ 0 := Nat.ne_of_gt (List.length_pos_iff.mpr some)
  unfold Miner.continueMessage
  rw [asking]
  simp only [queryHeight_answer, pure_bind, resyncHeight_decimal grown (count_long node.chain), Miner.continueResync]

/-- The way of a thread that has to ask for the block at some position. -/
theorem finish_asked (valid : ValidChain sha256 node.chain.blocks) {position : Nat}
    (asked : prospect node.chain.blocks miner = .asked position) :
    Learns sha256 node.chain.blocks miner position (miner.finishMessage sha256 node) := by
  unfold prospect at asked
  unfold Miner.finishMessage
  split at asked
  next => cases asked
  next =>
    split at asked
    · cases asked
    · cases asked
  next asking =>
    cases asked
    rw [continue_height valid.some asking, pure_bind]
    have learns : Learns sha256 node.chain.blocks { miner with communication := .resyncing (.askBlock node.chain.count) }
        (node.chain.count - 1) _ := asking_learns (Or.inr valid) rfl
    exact ⟨learns.ensures, learns.reveals⟩
  next height asking =>
    cases asked
    rw [← bind_assoc]
    exact (asking_learns (Or.inr valid) asking).continue
  next => cases asked
  next => cases asked

/-- A thread that is done after its first step. -/
private theorem finish_once {done : Miner} (first : miner.continueMessage sha256 node = pure done)
    (idle : done.communication = .idle) : miner.finishMessage sha256 node = pure done := by
  unfold Miner.finishMessage
  rw [first, pure_bind, continue_idle idle, pure_bind, continue_idle idle]

private theorem continue_committing (sha256 : HashFunction) (node : Node) {index : UInt64} {hash : CString}
    (committing : miner.communication = .committing index hash) :
    miner.continueMessage sha256 node = pure { (if index ≥ miner.nextIndex then miner.moveView (index + 1) hash else miner) with
      communication := .idle } := by
  unfold Miner.continueMessage Miner.finishCommit
  rw [committing]

/-- The way of a thread that has nothing for the view. -/
theorem finish_kept (kept : prospect node.chain.blocks miner = .kept) :
    miner.finishMessage sha256 node = pure (ended miner none) := by
  unfold prospect at kept
  split at kept
  next idle =>
    have same : ended miner none = miner := by
      cases miner
      cases idle
      rfl
    rw [same]
    exact finish_once (continue_idle idle) idle
  next index hash committing =>
    split at kept
    · cases kept
    next old =>
      have first := continue_committing sha256 node committing
      rw [if_neg old] at first
      exact finish_once first rfl
  next => cases kept
  next => cases kept
  next => cases kept
  next => cases kept

/-- The way of a thread that knows already where to move the view. -/
theorem finish_moved {nextIndex : UInt64} {previousHash : CString}
    (moved : prospect node.chain.blocks miner = .moved nextIndex previousHash) :
    miner.finishMessage sha256 node = pure (ended miner (some (nextIndex, previousHash))) := by
  unfold prospect at moved
  split at moved
  next => cases moved
  next index hash committing =>
    split at moved
    next new =>
      cases moved
      have first := continue_committing sha256 node committing
      rw [if_pos new] at first
      exact finish_once first rfl
    · cases moved
  next => cases moved
  next => cases moved
  next resetting =>
    cases moved
    refine finish_once ?_ (ended_idle _ _)
    unfold Miner.continueMessage
    rw [resetting]
    simp only [Miner.finishResync, Miner.resync, resetting]
    rfl
  next nextIndex previousHash installing =>
    cases moved
    refine finish_once ?_ (ended_idle _ _)
    unfold Miner.continueMessage
    rw [installing]
    simp only [Miner.finishResync, Miner.resync, installing]
    rfl

end Finishing

/-- The view behind a block is the tip exactly when it is the last block. -/
theorem behind_atTip {blocks : List Block} (valid : ValidChain sha256 blocks) (small : blocks.length < 2 ^ 64) {position : Nat}
    {block : Block} (found : blocks[position]? = some block) :
    AtTip sha256 blocks (behind sha256 block).1 (behind sha256 block).2 ↔ position + 1 = blocks.length := by
  obtain ⟨inside, same⟩ := List.getElem?_eq_some_iff.mp found
  have next : (behind sha256 block).1 = UInt64.ofNat (position + 1) := by
    rw [behind, validChain_index valid found, UInt64.ofNat_add]
    rfl
  constructor
  · intro tip
    have index := tip.index
    rw [next, Nat.toUInt64_eq] at index
    have numbers := congrArg UInt64.toNat index
    rwa [UInt64.toNat_ofNat_of_lt' (by simp only [UInt64.size]; omega), UInt64.toNat_ofNat_of_lt' small] at numbers
  · intro last
    refine ⟨by rw [next, last, Nat.toUInt64_eq], block, ?_, ?_⟩
    · rw [List.getLast?_eq_getElem?, ← last, Nat.add_sub_cancel]
      exact found
    · exact (blockHash_ok sha256).mpr ⟨(valid.sound block (List.mem_of_getElem? found)).hashable, rfl⟩

/-- The communication thread ends with the tip as its view. A query for a block only
moves the view if its answer can be read and no memory is refused on the way. -/
def LeadsToTip (sha256 : HashFunction) (blocks : List Block) (miner : Miner) (unrefused : Prop) : Prop :=
  match prospect blocks miner with
  | .kept => AtTip sha256 blocks miner.nextIndex miner.previousHash
  | .moved nextIndex previousHash => AtTip sha256 blocks nextIndex previousHash
  | .asked position =>
    (unrefused ∧ Legible blocks position ∧ position + 1 = blocks.length) ∨
      (¬ (unrefused ∧ Legible blocks position) ∧ AtTip sha256 blocks miner.nextIndex miner.previousHash)

/-- Without a new message a thread comes to an end, and then the view is the tip
exactly when what the thread had in hand leads there. -/
theorem finish_atTip {node : Node} (valid : ValidChain sha256 node.chain.blocks) (miner : Miner) (answers : List Bool) :
    (∃ view, (miner.finishMessage sha256 node ⟨answers, false⟩).1 = ended miner view) ∧
      (AtTip sha256 node.chain.blocks (miner.finishMessage sha256 node ⟨answers, false⟩).1.nextIndex
          (miner.finishMessage sha256 node ⟨answers, false⟩).1.previousHash ↔
        LeadsToTip sha256 node.chain.blocks miner ((miner.finishMessage sha256 node ⟨answers, false⟩).2.refused = false)) := by
  unfold LeadsToTip
  cases hand : prospect node.chain.blocks miner with
  | kept =>
    rw [finish_kept hand]
    exact ⟨⟨none, rfl⟩, Iff.rfl⟩
  | moved nextIndex previousHash =>
    rw [finish_moved hand]
    exact ⟨⟨some (nextIndex, previousHash), rfl⟩, Iff.rfl⟩
  | asked position =>
    have learns : Learns sha256 node.chain.blocks miner position _ := finish_asked valid hand
    have always := learns.ensures.always ⟨answers, false⟩
    have granted := learns.ensures.granted ⟨answers, false⟩
    have reveals := learns.reveals ⟨answers, false⟩
    generalize miner.finishMessage sha256 node ⟨answers, false⟩ = outcome at always granted reveals ⊢
    obtain ⟨final, heap⟩ := outcome
    dsimp only at always granted reveals ⊢
    cases refused : heap.refused with
    | true =>
      rcases reveals refused with earlier | rfl
      · cases earlier
      · exact ⟨⟨none, rfl⟩, by simp [ended]⟩
    | false =>
      by_cases legible : Legible node.chain.blocks position
      · obtain ⟨block, found, rfl⟩ := (granted refused).2 legible
        refine ⟨⟨some (behind sha256 block), rfl⟩, ?_⟩
        simp only [true_and, legible, not_true_eq_false, false_and, or_false]
        exact behind_atTip valid node.chain.count_lt found
      · rcases always with rfl | read
        · exact ⟨⟨none, rfl⟩, by simp [ended, legible]⟩
        · exact absurd read.1 legible

/-- Behind the first block every block can be written and read again. -/
theorem ordinary_legible {blocks : List Block} (valid : ValidChain sha256 blocks) (small : blocks.length < 2 ^ 64)
    {position : Nat} (ordinary : position ≠ 0) (inside : position < blocks.length) : Legible blocks position := by
  have found : blocks[position]? = some blocks[position] := List.getElem?_eq_getElem inside
  have number := validChain_number valid found (by omega)
  have index : blocks[position].index ≠ 0 := by
    intro zero
    rw [zero] at number
    exact ordinary number.symm
  obtain ⟨writable, parsed⟩ := (valid.sound _ (List.getElem_mem inside)).written index
  exact ⟨_, found, _, toCsv_ok.mpr ⟨writable, rfl⟩, _, parsed⟩

/-- Where a rejection does reach the message handler, every idle miner of a longer
chain is brought to the tip. -/
theorem delivered_rejection_repairs {node : Node} (valid : ValidChain sha256 node.chain.blocks)
    (longer : 2 ≤ node.chain.blocks.length) {miner : Miner} (idle : miner.communication = .idle) (sender : UInt32)
    (payload : Bytes) (heap : Heap) (answers : List Bool) :
    let told := (miner.handleMessage sha256 ⟨MessageType.blockReject.code, sender, payload⟩ heap).1.1
    let final := told.finishMessage sha256 node ⟨answers, false⟩
    final.2.refused = false → AtTip sha256 node.chain.blocks final.1.nextIndex final.1.previousHash := by
  intro told final granted
  have resyncing : told = { miner with communication := .resyncing .askHeight } := by
    simp only [told, Miner.handleMessage, idle, MessageType.ofCode_code]
    rfl
  have asked : prospect node.chain.blocks told = .asked (node.chain.blocks.length - 1) := by
    rw [resyncing]
    rfl
  apply (finish_atTip valid told answers).2.mpr
  rw [LeadsToTip, asked]
  exact Or.inl ⟨granted, ordinary_legible valid node.chain.count_lt (by omega) (by omega), by omega⟩

/-- A rejection leaves the chain as it is and the miner ready for its next attempt. -/
structure TurnedDown (miner : Miner) (coordinator : Node) (outcome : Miner × Node × Option Message) : Prop where
  miner : outcome.1 = { miner with mining := .ready }
  blocks : outcome.2.1.chain.blocks = coordinator.chain.blocks

/-- Only a proposal that is not accepted gets a rejection. -/
private theorem proposal_turnedDown {coordinator : Node} (settled : Settled sha256 coordinator.chain.blocks) {message : Message}
    (type : MessageType.ofCode message.type = some .blockProposal) :
    Ensures (coordinator.handleMessage sha256 message)
      (fun handled => ∀ reply ∈ handled.reply, reply.type = MessageType.blockReject.code →
        handled.node.chain.blocks = coordinator.chain.blocks)
      fun _ => True := by
  simp only [Node.handleMessage, type]
  split
  · refine (proposal_ensures settled message).weaken ?_ fun _ _ _ => trivial
    intro handled outcome reply sent rejection
    rcases outcome with rejected | ⟨_, _, accepted⟩
    · exact rejected.blocks
    · have ok := accepted.reply
      have answered : handled.reply = some reply := sent
      rw [repliesOk, answered, Option.any_some, rejection] at ok
      exact absurd ok (by decide)
  · exact .pure (fun _ _ _ => rfl) trivial

theorem exchange_ensures {coordinator : Node} (settled : Settled sha256 coordinator.chain.blocks) (miner : Miner) :
    Ensures (miner.exchangeProposal sha256 coordinator)
      (fun outcome => ∀ reply ∈ outcome.2.2, reply.type = MessageType.blockReject.code → TurnedDown miner coordinator outcome)
      fun _ => True := by
  unfold Miner.exchangeProposal
  apply (finishAttempt_ensures miner true).bind
  intro attempt finished
  cases finished with
  | idle => exact .pure (by simp) fun _ => trivial
  | silent => exact .pure (by simp) fun _ => trivial
  | proposed candidate message attempting type writable payload =>
    apply (proposal_turnedDown settled (beq_iff_eq.mp type)).bind
    intro handled kept
    exact .pure (fun reply sent rejection => ⟨rfl, kept reply sent rejection⟩) fun _ _ => trivial

/-- After a rejected proposal, with no other message delivered, the miner's view is the
tip before its next attempt exactly when it was the tip already or the communication
thread still had something in hand that leads there. -/
theorem rejected_view_is_tip (sha256 : HashFunction) (miner : Miner) (coordinator : Node)
    (accepted : (validateBlockchain sha256 coordinator.chain.blocks).result = .ok ()) (heap : Heap)
    (rejected : ∃ reply ∈ (miner.exchangeProposal sha256 coordinator heap).1.2.2,
      reply.type = MessageType.blockReject.code) (answers : List Bool) :
    let after := (miner.exchangeProposal sha256 coordinator heap).1.1
    let node := (miner.exchangeProposal sha256 coordinator heap).1.2.1
    let final := after.finishMessage sha256 node ⟨answers, false⟩
    final.1.communication = .idle ∧ final.1.mining = .ready ∧
      (AtTip sha256 node.chain.blocks final.1.nextIndex final.1.previousHash ↔
        LeadsToTip sha256 coordinator.chain.blocks miner (final.2.refused = false)) := by
  intro after node final
  have valid := (blockchain_ok sha256).mp accepted
  obtain ⟨reply, sent, rejection⟩ := rejected
  have outcome := (exchange_ensures (Or.inr valid) miner).always heap reply sent rejection
  have blocks : node.chain.blocks = coordinator.chain.blocks := outcome.blocks
  have ready : after = { miner with mining := .ready } := outcome.miner
  obtain ⟨⟨view, same⟩, tip⟩ := finish_atTip (blocks.symm ▸ valid) after answers
  have hand : LeadsToTip sha256 coordinator.chain.blocks after (final.2.refused = false) ↔
      LeadsToTip sha256 coordinator.chain.blocks miner (final.2.refused = false) := by
    rw [ready]
    exact Iff.rfl
  refine ⟨?_, ?_, ?_⟩
  · rw [show final.1 = _ from same]
    exact ended_idle after view
  · rw [show final.1 = _ from same, ended_mining, ready]
  · rw [← hand, ← blocks]
    exact tip

section Stale
variable {coordinator : Node} {candidate : Block}

/-- A block that can be appended has the tip in its header. -/
theorem appended_atTip {blocks : List Block} (valid : ValidChain sha256 blocks)
    (grown : ValidChain sha256 (blocks ++ [candidate])) (small : blocks.length < 2 ^ 64) :
    AtTip sha256 blocks candidate.index candidate.previousHash := by
  obtain ⟨last, newest⟩ : ∃ last, blocks.getLast? = some last := ⟨_, List.getLast?_eq_getLast_of_ne_nil valid.some⟩
  obtain ⟨_, _, follows⟩ := (validChain_append newest).mp grown
  have found : blocks[blocks.length - 1]? = some last := by rw [← List.getLast?_eq_getElem?, newest]
  have positive := List.length_pos_iff.mpr valid.some
  rw [follows.index, follows.hash]
  exact (behind_atTip valid small found).mpr (by omega)

/-- A heap that refuses nothing lets the coordinator reject every stale candidate. -/
theorem stale_rejected (authority : coordinator.isCoordinator = true) (valid : ValidChain sha256 coordinator.chain.blocks)
    (writable : Writable candidate) (parsed : (blockFromCsv (csvLine candidate)).result = .ok candidate)
    (stale : ¬ AtTip sha256 coordinator.chain.blocks candidate.index candidate.previousHash) (sender : UInt32) :
    Grants (coordinator.handleMessage sha256 ⟨MessageType.blockProposal.code, sender, (csvLine candidate).bytes⟩)
      fun handled => handled.reply = some ⟨MessageType.blockReject.code, coordinator.sender, ascii "invalid proposal"⟩ := by
  have fits : (csvLine candidate).length < ptrdiffMax := Nat.lt_of_le_of_lt (csvLine_short writable) (by decide)
  simp only [Node.handleMessage, MessageType.ofCode_code, if_pos authority]
  unfold handleBlockProposal
  rw [if_neg (List.ne_nil_of_mem (parsed_comma parsed))]
  refine guarded_grants fits ?_
  simp only [CString.ofMemory_bytes]
  apply (attempt_grants (within_blockFromCsv (by decide) fits)).bind
  intro result same
  rw [parsed] at same
  cases same
  apply ((validAgainst_grants _ _ _).always (validAgainst_ensures _ _ _)).bind
  intro admits admitted
  cases admits with
  | false => exact .pure rfl
  | true =>
    have grown := (admits_settled (Or.inr valid)).mp (admitted rfl)
    exact absurd (appended_atTip valid grown coordinator.chain.count_lt) stale

/-- So a miner that proposes it gets that reply. -/
theorem stale_exchange {miner : Miner} (attempting : miner.mining = .attempting candidate)
    (undisturbed : (miner.restartMining || miner.shuttingDown) = false) (authority : coordinator.isCoordinator = true)
    (valid : ValidChain sha256 coordinator.chain.blocks)
    (writable : Writable candidate) (parsed : (blockFromCsv (csvLine candidate)).result = .ok candidate)
    (stale : ¬ AtTip sha256 coordinator.chain.blocks candidate.index candidate.previousHash) :
    Grants (miner.exchangeProposal sha256 coordinator) fun outcome =>
      outcome.2.2 = some ⟨MessageType.blockReject.code, coordinator.sender, ascii "invalid proposal"⟩ := by
  have proposed : Grants (proposeBlock miner candidate) fun sent =>
      sent = some ⟨MessageType.blockProposal.code, miner.sender, (csvLine candidate).bytes⟩ := by
    apply (written_grants writable).bind
    intro result same
    subst same
    exact .pure (ipcSend_line writable _ _)
  have finished : Grants (miner.finishAttempt true) fun attempt =>
      attempt.2 = some ⟨MessageType.blockProposal.code, miner.sender, (csvLine candidate).bytes⟩ := by
    unfold Miner.finishAttempt
    rw [attempting]
    simp only [undisturbed, Bool.false_eq_true, if_false, if_true]
    exact proposed.bind fun sent same => .pure same
  unfold Miner.exchangeProposal
  apply finished.bind
  intro attempt same
  obtain ⟨after, proposal⟩ := attempt
  cases same
  exact (stale_rejected authority valid writable parsed stale miner.sender).bind fun handled answered => .pure answered

end Stale

/-- A miner that is about to propose the first block of an empty chain. -/
def proposingMiner (nextIndex : UInt64) (previousHash : CString) : Miner :=
  { Miner.start 1 with nextIndex, previousHash, mining := .attempting FreshAttempts.firstCandidate }

theorem firstCandidate_written : Writable FreshAttempts.firstCandidate ∧
    (blockFromCsv (csvLine FreshAttempts.firstCandidate)).result = .ok FreshAttempts.firstCandidate := by
  have sized : WellSized FreshAttempts.firstCandidate.transactions := ⟨by decide, by decide, by decide⟩
  have valid : ValidTransaction (CString.text "Al pays Bob 5 coins") := ⟨by decide, by decide, by decide +kernel⟩
  exact written (show isLowercaseHexHash zeroHash = true by decide) (merkleRoot_lowercase sha256Bytes sized.some) sized
    (List.forall_mem_singleton.mpr valid)

/-- It is too late: the coordinator has a first block already. -/
theorem firstCandidate_stale (previousHash : CString) : ¬ AtTip sha256Bytes (genesisNode 0).chain.blocks 0 previousHash :=
  fun tip => absurd tip.index (by decide)

/-- Its exchange with a node that has the first block already. -/
def lateExchange (nextIndex : UInt64) (previousHash : CString) : (Miner × Node × Option Message) × Heap :=
  (proposingMiner nextIndex previousHash).exchangeProposal sha256Bytes (genesisNode 0) openHeap

theorem lateExchange_rejected (nextIndex : UInt64) (previousHash : CString) :
    (lateExchange nextIndex previousHash).1.2.2 = some ⟨MessageType.blockReject.code, 0, ascii "invalid proposal"⟩ := by
  have exchange : Grants ((proposingMiner nextIndex previousHash).exchangeProposal sha256Bytes (genesisNode 0)) _ :=
    stale_exchange rfl rfl rfl ((blockchain_ok sha256Bytes).mp genesis_accepted) firstCandidate_written.1
      firstCandidate_written.2 (firstCandidate_stale zeroHash)
  exact exchange.value

/-- The miner gets its rejection and goes on with the view that was rejected. -/
theorem rejection_ignored :
    (validateBlockchain sha256Bytes (genesisNode 0).chain.blocks).result = .ok () ∧
      (lateExchange 0 zeroHash).1.2.2 = some ⟨MessageType.blockReject.code, 0, ascii "invalid proposal"⟩ ∧
      ¬ AtTip sha256Bytes (lateExchange 0 zeroHash).1.2.1.chain.blocks 0 zeroHash ∧
      ∀ answers, ((lateExchange 0 zeroHash).1.1.finishMessage sha256Bytes (lateExchange 0 zeroHash).1.2.1 ⟨answers, false⟩).1 =
        { proposingMiner 0 zeroHash with mining := .ready } := by
  have rejected := lateExchange_rejected 0 zeroHash
  have outcome : TurnedDown (proposingMiner 0 zeroHash) (genesisNode 0) (lateExchange 0 zeroHash).1 :=
    (exchange_ensures (Or.inr ((blockchain_ok sha256Bytes).mp genesis_accepted)) (proposingMiner 0 zeroHash)).always openHeap _
      rejected rfl
  generalize (lateExchange 0 zeroHash).1 = exchange at rejected outcome
  refine ⟨genesis_accepted, rejected, ?_, fun answers => ?_⟩
  · rw [outcome.blocks]
    exact firstCandidate_stale zeroHash
  · have kept : prospect exchange.2.1.chain.blocks exchange.1 = .kept := by
      rw [outcome.miner]
      rfl
    rw [finish_kept kept, outcome.miner]
    rfl

/-- A miner whose view has become the tip meanwhile keeps it. -/
theorem tip_survives_rejection :
    let exchange := (lateExchange 1 (blockHash sha256Bytes genesisBlock)).1
    let final := (exchange.1.finishMessage sha256Bytes exchange.2.1 openHeap).1
    AtTip sha256Bytes exchange.2.1.chain.blocks final.nextIndex final.previousHash := by
  have rejected := lateExchange_rejected 1 (blockHash sha256Bytes genesisBlock)
  have genesis := fixture_valid.sound genesisBlock (by simp)
  apply (rejected_view_is_tip sha256Bytes (proposingMiner 1 (blockHash sha256Bytes genesisBlock)) (genesisNode 0) genesis_accepted
    openHeap ⟨_, rejected, rfl⟩ []).2.2.mpr
  exact ⟨by decide, genesisBlock, rfl, (blockHash_ok sha256Bytes).mpr ⟨genesis.hashable, rfl⟩⟩

end ProcessChain.Proofs.Rejection
