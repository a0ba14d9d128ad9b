import ProcessChain.Proofs.Allocation
import ProcessChain.Proofs.MinerSteps

/-! How a node that is behind catches up. It asks for everything from its own
height on and gets the missing lines in one message, so it catches up exactly
when they fit into one: a longer answer is never sent. -/

namespace ProcessChain.Proofs.Recovery
open Lib Lib.FailStop Csv Validation Storage Handlers Allocation

/-- The digits of a number in the decimal system. -/
def decimalDigits (value : Nat) : List Nat := (Nat.toDigits 10 value).map fun letter => letter.toNat - 48

private theorem digit_letter : ∀ digit < 10, DigitLetter 10 digit (48 + digit).toUInt8 ∧ (48 + digit).toUInt8 ≠ 0 := by
  have plain : ∀ digit < 10, isSpace (48 + digit).toUInt8 = false ∧ (48 + digit).toUInt8 ≠ 45 ∧
      (48 + digit).toUInt8 ≠ 43 ∧ ((48 + digit).toUInt8 ≠ 120 ∧ (48 + digit).toUInt8 ≠ 88) ∧
      digitOf 10 (48 + digit).toUInt8 = some digit ∧ (48 + digit).toUInt8 ≠ 0 := by decide
  intro digit small
  obtain ⟨space, minus, plus, mark, value, visible⟩ := plain digit small
  exact ⟨⟨space, minus, plus, mark, value⟩, visible⟩

private theorem toDigits_range {value : Nat} {letter : Char} (member : letter ∈ Nat.toDigits 10 value) :
    48 ≤ letter.toNat ∧ letter.toNat ≤ 57 := by
  have digit := Nat.isDigit_of_mem_toDigits (by decide) (by decide) member
  simp only [Char.isDigit, Bool.and_eq_true, decide_eq_true_eq, ge_iff_le, UInt32.le_iff_toNat_le] at digit
  exact digit

private theorem decimalDigits_lt {value digit : Nat} (member : digit ∈ decimalDigits value) : digit < 10 := by
  obtain ⟨letter, inside, rfl⟩ := List.mem_map.mp member
  have range := toDigits_range inside
  omega

private theorem decimal_digits (value : Nat) :
    decimal value = (decimalDigits value).map fun digit => (48 + digit).toUInt8 := by
  rw [decimal, decimalDigits, List.map_map]
  apply List.map_congr_left
  intro letter member
  have range := toDigits_range member
  rw [Function.comp_apply, show 48 + (letter.toNat - 48) = letter.toNat by omega]

private theorem numeral_decimalDigits (value : Nat) : numeral 10 (decimalDigits value) = value := by
  have read : Nat.ofDigitChars 10 (Nat.toDigits 10 value) 0 = value := Nat.ofDigitChars_ten_toDigits
  rw [Nat.ofDigitChars] at read
  rw [numeral, decimalDigits, List.foldl_map]
  simp only [Nat.mul_comm 10] at read
  exact read

theorem decimal_terminated (value : Nat) : 0 ∉ decimal value := by
  rw [decimal_digits]
  intro member
  obtain ⟨digit, inside, zero⟩ := List.mem_map.mp member
  exact (digit_letter digit (decimalDigits_lt inside)).2 zero

theorem decimal_visible (value : Nat) : decimal value ≠ [] := by
  simp only [decimal, ne_eq, List.map_eq_nil_iff]
  exact Nat.toDigits_ne_nil

/-- A printed number is read back. -/
theorem scanNumeral_decimal (value : Nat) : scanNumeral 10 (decimal value) = some ⟨false, value, []⟩ := by
  have some : decimalDigits value ≠ [] := by
    simp only [decimalDigits, ne_eq, List.map_eq_nil_iff]
    exact Nat.toDigits_ne_nil
  rw [decimal_digits, scan_digits some fun digit member => (digit_letter digit (decimalDigits_lt member)).1,
    numeral_decimalDigits]

theorem scanUnsigned_decimal (value : UInt64) : scanUnsigned (CString.ofMemory (decimal value.toNat)).bytes = some value := by
  have inRange : ¬ ullongMax < value.toNat := by
    have bound := value.toNat_lt
    simp only [ullongMax]
    omega
  rw [CString.bytes_ofMemory (decimal_terminated _), scanUnsigned, scanNumeral_decimal]
  simp [Numeral.toULongLong, inRange]

theorem decimal_length {value : Nat} (small : value < 2 ^ 64) : (decimal value).length ≤ 20 := by
  rw [decimal, List.length_map]
  exact (Nat.length_toDigits_le_iff (by decide) (by decide)).mpr (by omega)

theorem decimal_short (value : UInt64) : (decimal value.toNat).length ≤ maxPayloadSize :=
  Nat.le_trans (decimal_length value.toNat_lt) (by decide)

/-- The bytes that a block takes up in a sync answer: its line and the line break. -/
def syncSize (block : Block) : Nat := 184 + joinedLength block.transactions

theorem syncText_length {blocks : List Block} (writable : ∀ block ∈ blocks, Writable block) :
    (syncText blocks).length = (blocks.map syncSize).sum := by
  induction blocks with
  | nil => rfl
  | cons block rest ih =>
    have here := writable block (by simp)
    have line := csvLine_length here.previousHash here.merkleRoot
    simp only [CString.length, sha256HexLength] at line
    have later := ih fun block member => writable block (by simp [member])
    simp only [syncText, List.map_cons, List.flatMap_cons, List.length_append, List.length_singleton, List.sum_cons,
      line, syncSize] at later ⊢
    omega

/-- A sync answer for a limited number of blocks is far from 4 GiB. -/
theorem syncText_bound {blocks : List Block} (writable : ∀ block ∈ blocks, Writable block) :
    (syncText blocks).length ≤ blocks.length * 4312 := by
  rw [syncText_length writable]
  induction blocks with
  | nil => simp
  | cons block rest ih =>
    have here := joinedLength_le (writable block (by simp)).sized
    have later := ih fun block member => writable block (by simp [member])
    simp only [maxTransactionsPerBlock, maxTransactionLength] at here
    simp only [List.map_cons, List.sum_cons, List.length_cons, syncSize] at later ⊢
    omega

/-- The capacity is doubled at most until it is twice what is needed. -/
theorem within_growBuffer (needed capacity limit : Nat) (small : 2 * needed ≤ limit) :
    Within limit (growBuffer needed capacity) := by
  fun_induction growBuffer needed capacity with
  | case1 capacity short ih => exact within_bind (within_request (by omega)) fun _ _ => ih
  | case2 capacity enough => exact within_pure capacity

variable {sha256 : HashFunction}

/-- With every allocation granted nothing is left out of a sync answer. -/
theorem syncLines_ensures_all {blocks : List Block} (writable : ∀ block ∈ blocks, Writable block) (buffer : Bytes)
    (capacity : Nat) :
    Ensures (syncLines blocks buffer capacity) (fun _ => True) fun text => text = some (buffer ++ syncText blocks) := by
  induction blocks generalizing buffer capacity with
  | nil => exact .pure trivial (by simp [syncText])
  | cons block rest ih =>
    have written : (blockToCsv block).result = .ok (csvLine block) := toCsv_ok.mpr ⟨writable block (by simp), rfl⟩
    apply (attempt_ensures _).bind
    intro result _
    cases result with
    | error error =>
      refine (ih (fun block member => writable block (by simp [member])) buffer capacity).weaken (fun _ _ => trivial) ?_
      intro _ _ _ failed
      rw [written] at failed
      cases failed.1
    | ok line =>
      apply (attempt_ensures _).bind
      intro result _
      cases result with
      | error error =>
        refine .pure trivial fun failed => ?_
        obtain ⟨grown, ends⟩ := growBuffer_result (buffer.length + line.length + 2) capacity
        rw [ends] at failed
        cases failed.1
      | ok grown =>
        refine (ih (fun block member => writable block (by simp [member])) _ grown).weaken (fun _ _ => trivial) ?_
        intro text _ complete _ same
        rw [written] at same
        cases same.1
        rw [complete]
        simp [syncText]

/-- The answer to a request for everything from this height on. -/
theorem syncRequest_answered (asking : Node) {node : Node} {height : UInt64}
    (writable : ∀ block ∈ node.chain.blocks.drop height.toNat, Writable block) :
    let missing := syncText (node.chain.blocks.drop height.toNat)
    Ensures (node.answerTo sha256 (syncRequest asking height)) (fun _ => True)
      fun reply => reply = ipcSend .syncResponse node.sender missing missing.length := by
  intro missing
  suffices handles : Ensures (handleSyncRequest node ⟨MessageType.syncRequest.code, asking.sender, decimal height.toNat⟩)
      (fun _ => True) fun handled => handled.reply = ipcSend .syncResponse node.sender missing missing.length by
    simp only [syncRequest, ipcSend_fits _ _ (decimal_short height), Node.answerTo, Node.handleMessage,
      MessageType.ofCode_code]
    apply handles.bind
    exact fun handled _ => .pure trivial fun same => same
  unfold handleSyncRequest
  refine guarded_ensures trivial ?_
  refine guarded_ensures trivial ?_
  simp only [scanUnsigned_decimal, Option.getD_some]
  apply (syncLines_ensures_all writable [] initialBufferCapacity).bind
  intro text _
  cases text with
  | none => exact .pure trivial (by simp)
  | some buffer =>
    refine .pure trivial fun complete => ?_
    rw [Option.some.inj complete, List.nil_append]

/-- Every line of a reply adds one block at most. -/
theorem syncLoop_length (lines : List CString) (chain : Blockchain) :
    Ensures (syncLoop sha256 lines chain) (fun after => after.blocks.length ≤ chain.blocks.length + lines.length)
      fun _ => True := by
  induction lines generalizing chain with
  | nil => exact .pure (Nat.le_refl _) trivial
  | cons line rest ih =>
    apply (syncBlock_ensures chain line).bind
    intro after stored
    have step : after.blocks.length ≤ chain.blocks.length + 1 := by
      rcases stored with same | ⟨block, _, _, grown⟩
      · rw [same]
        omega
      · rw [grown, List.length_append, List.length_singleton]
    refine (ih after).weaken (fun final bound => ?_) fun _ _ _ _ => trivial
    rw [List.length_cons]
    omega

/-- With every allocation granted the lines of a valid continuation are all taken. -/
theorem syncLoop_appends {missing : List Block} {chain : Blockchain} (some : chain.blocks ≠ [])
    (valid : ValidChain sha256 (chain.blocks ++ missing))
    (parsed : ∀ block ∈ missing, (blockFromCsv (csvLine block)).result = .ok block) :
    Ensures (syncLoop sha256 (missing.map csvLine) chain) (fun _ => True)
      fun after => after.blocks = chain.blocks ++ missing := by
  induction missing generalizing chain with
  | nil => exact .pure trivial (by simp)
  | cons block rest ih =>
    have start := validChain_start valid some (List.prefix_append _ _)
    have grown : ValidChain sha256 (chain.blocks ++ [block]) := validChain_start valid (by simp) ⟨rest, by simp⟩
    have admits : Admits sha256 chain.last true block := (admits_valid start).mpr grown
    have readable := parsed block (by simp)
    apply (syncBlock_ensures chain (csvLine block)).bind
    intro after stored
    rcases stored with same | ⟨found, read, _, appended⟩
    · -- only a refused allocation keeps the block out
      refine (syncLoop_length (rest.map csvLine) after).weaken (fun _ _ => trivial) ?_
      intro _ _ _ complete
      have appended := complete block readable admits
      rw [same] at appended
      simp at appended
    · cases readable.symm.trans read
      have whole : ValidChain sha256 (after.blocks ++ rest) := by
        rw [appended, List.append_assoc]
        exact valid
      refine (ih (by simp [appended]) whole fun block member => parsed block (by simp [member])).weaken
        (fun _ _ => trivial) ?_
      intro final _ complete _
      rw [complete, appended, List.append_assoc]
      rfl

theorem strtokLines_syncText {blocks : List Block} (writable : ∀ block ∈ blocks, Writable block)
    (parsed : ∀ block ∈ blocks, (blockFromCsv (csvLine block)).result = .ok block) :
    strtokLines (.ofMemory (syncText blocks)) = blocks.map csvLine := by
  have visible : 0 ∉ syncText blocks := by
    intro zero
    obtain ⟨line, member, inside⟩ := List.mem_flatMap.mp zero
    obtain ⟨block, _, rfl⟩ := List.mem_map.mp member
    rcases List.mem_append.mp inside with early | last
    · exact (csvLine block).terminated early
    · cases List.mem_singleton.mp last
  have cut : tokens 10 (syncText blocks) = blocks.map fun block => (csvLine block).bytes := by
    apply tokens_lines
    · intro line member feed
      obtain ⟨block, inside, rfl⟩ := List.mem_map.mp member
      exact (csvLine_letters (writable block inside) 10 feed).2 rfl
    · intro line member
      obtain ⟨block, inside, rfl⟩ := List.mem_map.mp member
      exact List.ne_nil_of_mem (parsed_comma (parsed block inside))
  rw [strtokLines, CString.bytes_ofMemory visible, cut, List.map_map]
  exact List.map_congr_left fun block _ => CString.ofMemory_bytes (csvLine block)

/-- The whole answer brings the whole rest of the chain. -/
theorem finishSync_appends {node : Node} (slot : Nat) {missing : List Block} (some : node.chain.blocks ≠ [])
    (valid : ValidChain sha256 (node.chain.blocks ++ missing)) (writable : ∀ block ∈ missing, Writable block)
    (parsed : ∀ block ∈ missing, (blockFromCsv (csvLine block)).result = .ok block) :
    Ensures (finishSync sha256 node slot (Option.some (syncText missing))) (fun _ => True)
      fun after => after.chain.blocks = node.chain.blocks ++ missing := by
  have lines := strtokLines_syncText writable parsed
  unfold finishSync
  split
  next absent => cases absent
  next nothing =>
    rw [Option.some.inj nothing] at lines
    have none : missing = [] := List.map_eq_nil_iff.mp (lines.symm.trans (by decide))
    exact .pure trivial (by simp [none])
  next payload _ same =>
    rw [← Option.some.inj same, lines]
    refine guarded_ensures trivial ?_
    apply (syncLoop_appends some valid parsed).bind
    exact fun after _ => .pure trivial fun complete => complete

/-- A reply brings at most one block more than it has bytes. -/
theorem finishSync_length (node : Node) (slot : Nat) (reply : Option Bytes) :
    Ensures (finishSync sha256 node slot reply)
      (fun after => after.chain.blocks.length ≤ node.chain.blocks.length + (reply.map List.length).elim 0 (· + 1))
      fun _ => True := by
  unfold finishSync
  split
  · exact .pure (Nat.le_refl _) trivial
  · exact .pure (Nat.le_add_right _ _) trivial
  next payload _ =>
    refine guarded_ensures (Nat.le_add_right _ _) ?_
    have few : (strtokLines (.ofMemory payload)).length ≤ payload.length + 1 := by
      have cut := tokens_length 10 (CString.ofMemory payload).bytes
      have shorter : (CString.ofMemory payload).bytes.length ≤ payload.length := (List.takeWhile_prefix _).length_le
      rw [strtokLines, List.length_map]
      omega
    apply (syncLoop_length _ _).bind
    intro after bound
    refine .pure ?_ fun _ => trivial
    simp only [Option.map_some, Option.elim_some] at bound ⊢
    omega

/-- The missing blocks fit into one message. -/
def FitsOneMessage (missing : List Block) : Prop := (missing.map syncSize).sum ≤ maxPayloadSize

instance (missing : List Block) : Decidable (FitsOneMessage missing) :=
  inferInstanceAs (Decidable ((missing.map syncSize).sum ≤ maxPayloadSize))

/-- The handler goes on with whatever `ipc_send` makes of the answer. -/
theorem finishSync_answer {node : Node} (slot : Nat) {missing : List Block} (some : node.chain.blocks ≠ [])
    (behind : missing ≠ []) (valid : ValidChain sha256 (node.chain.blocks ++ missing))
    (writable : ∀ block ∈ missing, Writable block)
    (parsed : ∀ block ∈ missing, (blockFromCsv (csvLine block)).result = .ok block) (sender : UInt32) :
    Ensures (finishSync sha256 node slot
        ((ipcSend .syncResponse sender (syncText missing) (syncText missing).length).map Message.payload))
      (fun _ => True)
      fun after => after.chain.blocks = node.chain.blocks ++ missing ↔ FitsOneMessage missing := by
  have size := syncText_length writable
  by_cases fits : FitsOneMessage missing
  · rw [ipcSend_fits _ _ (by rw [size]; exact fits)]
    refine (finishSync_appends slot some valid writable parsed).weaken (fun _ _ => trivial) ?_
    intro after _ complete
    exact iff_of_true complete fits
  · have long : maxPayloadSize < (syncText missing).length := by
      rw [size]
      exact Nat.lt_of_not_le fits
    suffices never : Ensures (finishSync sha256 node slot
        ((ipcSend .syncResponse sender (syncText missing) (syncText missing).length).map Message.payload))
        (fun after => after.chain.blocks ≠ node.chain.blocks ++ missing) fun _ => True from
      never.weaken (fun _ _ => trivial) fun after other _ => iff_of_false other fits
    refine (finishSync_length node slot _).weaken (fun after bound whole => ?_) fun _ _ _ => trivial
    have positive := List.length_pos_iff.mpr behind
    rw [whole, List.length_append] at bound
    unfold ipcSend at bound
    dsimp only at bound
    split at bound
    · -- nothing was sent
      simp only [Option.map_none, Option.elim_none] at bound
      omega
    · -- the length has wrapped around, so there are more blocks than a message can bring
      have total := syncText_bound writable
      simp only [Option.map_some, Option.elim_some, List.length_take, maxPayloadSize] at *
      omega

/-- A commit from further ahead makes the handler ask for the blocks in between. -/
theorem commit_behind {node : Node} {block : Block} (sender : UInt32)
    (parsed : (blockFromCsv (csvLine block)).result = .ok block) (ahead : node.chain.count.toUInt64 < block.index) :
    Ensures (node.handleMessage sha256 ⟨MessageType.blockCommit.code, sender, (csvLine block).bytes⟩)
      (fun handled => handled.node = node ∨
        handled.node = { node with syncing := node.syncing ++ [node.chain.count.toUInt64] })
      fun handled => handled.node = { node with syncing := node.syncing ++ [node.chain.count.toUInt64] } := by
  simp only [Node.handleMessage, MessageType.ofCode_code]
  unfold handleBlockCommit
  refine guarded_ensures (Or.inl rfl) ?_
  simp only [CString.ofMemory_bytes]
  apply (attempt_ensures _).bind
  intro result read
  cases result with
  | error error =>
    refine .pure (Or.inl rfl) fun failed => ?_
    rw [parsed] at failed
    cases failed.1
  | ok incoming =>
    cases (read incoming rfl).symm.trans parsed
    have other : ¬ block.index = node.chain.count.toUInt64 := fun same => absurd ahead (by simp [same])
    have old : ¬ block.index < node.chain.count.toUInt64 := UInt64.lt_asymm ahead
    simp only [if_neg other, if_neg old]
    exact .pure (Or.inr rfl) fun _ => rfl

/-- Blocks behind the first are written and read back. -/
theorem missing_written {blocks : List Block} (valid : ValidChain sha256 blocks) (small : blocks.length < 2 ^ 64) {height : Nat}
    (positive : 0 < height) :
    ∀ block ∈ blocks.drop height, Writable block ∧ (blockFromCsv (csvLine block)).result = .ok block := by
  intro block member
  obtain ⟨offset, found⟩ := List.mem_iff_getElem?.mp member
  rw [List.getElem?_drop] at found
  have inside := (List.getElem?_eq_some_iff.mp found).1
  apply ((valid.sound block (List.mem_of_mem_drop member))).written
  intro zero
  have number := validChain_number valid found (by omega)
  rw [zero, UInt64.toNat_zero] at number
  omega

/-- A node has the beginning of a valid chain and hears of its last block. -/
structure Behind (sha256 : HashFunction) (follower coordinator : Node) (last : Block) : Prop where
  valid : ValidChain sha256 coordinator.chain.blocks
  start : follower.chain.blocks <+: coordinator.chain.blocks
  some : follower.chain.blocks ≠ []
  gap : follower.chain.count + 2 ≤ coordinator.chain.count
  newest : coordinator.chain.last = Option.some last

/-- The blocks that the follower does not have yet. -/
def missing (follower coordinator : Node) : List Block := coordinator.chain.blocks.drop follower.chain.count

namespace Behind

variable {follower coordinator : Node} {last : Block} (behind : Behind sha256 follower coordinator last)
include behind

theorem height : follower.chain.count.toUInt64.toNat = follower.chain.count := by
  have small := coordinator.chain.count_lt
  have gap := behind.gap
  exact UInt64.toNat_ofNat_of_lt' (Nat.lt_of_le_of_lt (by omega) small)

theorem written : ∀ block ∈ missing follower coordinator,
    Writable block ∧ (blockFromCsv (csvLine block)).result = .ok block :=
  missing_written behind.valid coordinator.chain.count_lt (List.length_pos_iff.mpr behind.some)

theorem writable : ∀ block ∈ missing follower coordinator, Writable block :=
  fun block member => (behind.written block member).1

theorem whole : follower.chain.blocks ++ missing follower coordinator = coordinator.chain.blocks :=
  List.prefix_iff_eq_append.mp behind.start

theorem position : coordinator.chain.blocks[coordinator.chain.count - 1]? = Option.some last := by
  rw [← behind.newest, Blockchain.last, List.getLast?_eq_getElem?]
  rfl

theorem among : last ∈ missing follower coordinator := by
  have gap := behind.gap
  apply List.mem_iff_getElem?.mpr
  refine ⟨coordinator.chain.count - 1 - follower.chain.count, ?_⟩
  rw [missing, List.getElem?_drop, ← behind.position]
  congr 1
  omega

theorem ahead : follower.chain.count.toUInt64 < last.index := by
  have gap := behind.gap
  rw [UInt64.lt_iff_toNat_lt, behind.height, index_position (Or.inr behind.valid) behind.position]
  omega

end Behind

/-- The handler while it waits for the coordinator. -/
def waiting (follower : Node) : Node := { follower with syncing := follower.syncing ++ [follower.chain.count.toUInt64] }

private theorem undisturbed_ensures {follower coordinator : Node} {last : Block} {sender : UInt32} {commit : Message}
    (announced : commit = ⟨MessageType.blockCommit.code, sender, (csvLine last).bytes⟩)
    (behind : Behind sha256 follower coordinator last) :
    Ensures (handleUndisturbed sha256 follower coordinator commit) (fun _ => True)
      fun after => after.chain.blocks = coordinator.chain.blocks ↔ FitsOneMessage (missing follower coordinator) := by
  rw [announced]
  unfold handleUndisturbed
  apply (commit_behind sender (behind.written last behind.among).2 behind.ahead).bind
  intro handled outcome
  rcases outcome with same | waits
  · -- an allocation was refused, so the handler gave up
    simp only [same, List.getElem?_eq_none (Nat.le_refl _)]
    refine .pure trivial fun waits => ?_
    have longer := congrArg (fun node => node.syncing.length) waits
    simp at longer
  · simp only [waits, List.getElem?_concat_length]
    apply (syncRequest_answered _ (by rw [behind.height]; exact behind.writable)).bind
    intro reply _
    rw [behind.height]
    by_cases sent : reply = ipcSend .syncResponse coordinator.sender (syncText (missing follower coordinator))
        (syncText (missing follower coordinator)).length
    · have joined : (waiting follower).chain.blocks ++ missing follower coordinator = coordinator.chain.blocks := behind.whole
      have ends := finishSync_answer follower.syncing.length (show (waiting follower).chain.blocks ≠ [] from behind.some)
        (List.ne_nil_of_mem behind.among) (by rw [joined]; exact behind.valid) behind.writable
        (fun block member => (behind.written block member).2) coordinator.sender
      rw [joined] at ends
      rw [sent]
      exact ends.weaken (fun _ _ => trivial) fun _ _ result _ _ => result
    · refine (finishSync_length _ _ _).weaken (fun _ _ => trivial) ?_
      intro _ _ _ same
      exact absurd same sent

/-- Whether a node that is behind has caught up afterwards: it has exactly when the
lines of the blocks that it misses fit into one message. -/
theorem recovery_catches_up (sha256 : HashFunction) {follower coordinator : Node} {last : Block} {line : CString}
    (valid : (validateBlockchain sha256 coordinator.chain.blocks).result = .ok ())
    (start : follower.chain.blocks <+: coordinator.chain.blocks) (some : follower.chain.blocks ≠ [])
    (behind : follower.chain.count + 2 ≤ coordinator.chain.count) (newest : coordinator.chain.last = Option.some last)
    (written : (blockToCsv last).result = .ok line) {sender : UInt32} {commit : Message}
    (sent : ipcSend .blockCommit sender line.bytes line.length = Option.some commit) (heap : Heap)
    (granted : (handleUndisturbed sha256 follower coordinator commit heap).2.refused = false) :
    (handleUndisturbed sha256 follower coordinator commit heap).1.chain.blocks = coordinator.chain.blocks ↔
      FitsOneMessage (missing follower coordinator) := by
  obtain ⟨writable, rfl⟩ := toCsv_ok.mp written
  have announced := (Option.some.inj ((MinerSteps.ipcSend_line writable _ _).symm.trans sent)).symm
  have ensures := undisturbed_ensures announced ⟨(blockchain_ok sha256).mp valid, start, some, behind, newest⟩
  exact (ensures.granted heap granted).2

section Unrefused

theorem written_grants {block : Block} (writable : Writable block) :
    Grants (attempt (blockToCsv block)) fun result => result = .ok (csvLine block) := by
  have written : (blockToCsv block).result = .ok (csvLine block) := toCsv_ok.mpr ⟨writable, rfl⟩
  rw [← written]
  exact attempt_grants (within_blockToCsv (by decide) block)

theorem grown_grants {needed : Nat} (capacity : Nat) (small : 2 * needed ≤ ptrdiffMax) :
    Grants (attempt (growBuffer needed capacity)) fun result => ∃ grown, result = .ok grown := by
  obtain ⟨grown, ends⟩ := growBuffer_result needed capacity
  have grants := attempt_grants (within_growBuffer needed capacity ptrdiffMax small)
  exact ⟨grants.supply, grown, grants.value.trans ends⟩

private theorem syncLines_grants {blocks : List Block} (writable : ∀ block ∈ blocks, Writable block) (buffer : Bytes)
    (capacity : Nat) (small : 2 * (buffer.length + (syncText blocks).length + 1) ≤ ptrdiffMax) :
    Grants (syncLines blocks buffer capacity) fun _ => True := by
  induction blocks generalizing buffer capacity with
  | nil => exact .pure trivial
  | cons block rest ih =>
    have total : (syncText (block :: rest)).length = (csvLine block).length + 1 + (syncText rest).length := by
      simp only [syncText, CString.length, List.map_cons, List.flatMap_cons, List.length_append, List.length_singleton]
    apply (written_grants (writable block (by simp))).bind
    intro result same
    subst same
    apply (grown_grants capacity (by omega)).bind
    intro result large
    obtain ⟨grown, rfl⟩ := large
    apply ih fun block member => writable block (by simp [member])
    simp only [List.length_append, List.length_singleton, CString.length] at total ⊢
    omega

variable {follower coordinator : Node} {last : Block} {sender : UInt32}

private theorem commit_grants (behind : Behind sha256 follower coordinator last) :
    Grants (follower.handleMessage sha256 ⟨MessageType.blockCommit.code, sender, (csvLine last).bytes⟩)
      fun handled => handled.node = waiting follower := by
  obtain ⟨writable, parsed⟩ := behind.written last behind.among
  have fits : (csvLine last).length < ptrdiffMax := Nat.lt_of_le_of_lt (MinerSteps.csvLine_short writable) (by decide)
  suffices unrefused : Grants (handleBlockCommit sha256 follower
      ⟨MessageType.blockCommit.code, sender, (csvLine last).bytes⟩) fun _ => True from
    unrefused.ensured (commit_behind sender parsed behind.ahead)
  unfold handleBlockCommit
  refine guarded_grants fits ?_
  simp only [CString.ofMemory_bytes]
  apply (attempt_grants (within_blockFromCsv (by decide) fits)).bind
  intro result same
  rw [parsed] at same
  cases same
  have other : ¬ last.index = follower.chain.count.toUInt64 := fun same => absurd behind.ahead (by simp [same])
  have old : ¬ last.index < follower.chain.count.toUInt64 := UInt64.lt_asymm behind.ahead
  simp only [if_neg other, if_neg old]
  exact .pure trivial

private theorem answer_grants (behind : Behind sha256 follower coordinator last) (asking : Node)
    (small : (syncText (missing follower coordinator)).length < 2 ^ 32) :
    Grants (coordinator.answerTo sha256 (syncRequest asking follower.chain.count.toUInt64)) fun reply =>
      reply = ipcSend .syncResponse coordinator.sender (syncText (missing follower coordinator))
        (syncText (missing follower coordinator)).length := by
  have request := decimal_short follower.chain.count.toUInt64
  have answered : Ensures (coordinator.answerTo sha256 (syncRequest asking follower.chain.count.toUInt64)) _ _ :=
    syncRequest_answered asking (by rw [behind.height]; exact behind.writable)
  rw [behind.height] at answered
  suffices unrefused : Grants (handleSyncRequest coordinator
      ⟨MessageType.syncRequest.code, asking.sender, decimal follower.chain.count.toUInt64.toNat⟩) fun _ => True by
    have handled : Grants (coordinator.answerTo sha256 (syncRequest asking follower.chain.count.toUInt64)) fun _ => True := by
      simp only [syncRequest, ipcSend_fits _ _ request, Node.answerTo, Node.handleMessage, MessageType.ofCode_code]
      exact unrefused.bind fun handled _ => .pure trivial
    exact handled.ensured answered
  unfold handleSyncRequest
  simp only [maxPayloadSize] at request
  refine guarded_grants (by simp only [ptrdiffMax]; omega) ?_
  refine guarded_grants (by decide) ?_
  simp only [scanUnsigned_decimal, Option.getD_some]
  rw [behind.height]
  apply (syncLines_grants behind.writable [] initialBufferCapacity (by simp only [List.length_nil, ptrdiffMax]; omega)).bind
  intro text _
  cases text with
  | none => exact .pure trivial
  | some buffer => exact .pure trivial

/-- An exchange of moderate size, with room for the blocks in the follower's array,
is never refused any memory by an open heap. -/
theorem undisturbed_grants {commit : Message}
    (announced : commit = ⟨MessageType.blockCommit.code, sender, (csvLine last).bytes⟩)
    (behind : Behind sha256 follower coordinator last) (small : (syncText (missing follower coordinator)).length < 2 ^ 32)
    (room : FitsOneMessage (missing follower coordinator) →
      follower.chain.count + (missing follower coordinator).length ≤ follower.chain.capacity) :
    Grants (handleUndisturbed sha256 follower coordinator commit) fun _ => True := by
  rw [announced]
  unfold handleUndisturbed
  apply (commit_grants behind).bind
  intro handled waits
  simp only [waits, waiting, List.getElem?_concat_length]
  apply (answer_grants behind _ small).bind
  intro reply sent
  rw [sent]
  have size := syncText_length behind.writable
  by_cases fits : FitsOneMessage (missing follower coordinator)
  · rw [ipcSend_fits _ _ (by rw [size]; exact fits), Option.map_some]
    unfold finishSync
    split
    next absent => cases absent
    · exact .pure trivial
    next payload _ same =>
      rw [← Option.some.inj same]
      refine guarded_grants (by simp only [ptrdiffMax]; omega) ?_
      rw [strtokLines_syncText behind.writable fun block member => (behind.written block member).2]
      refine (syncLoop_grants ?_ (by rw [List.length_map]; exact room fits)).bind fun _ _ => .pure trivial
      intro line member
      obtain ⟨block, inside, rfl⟩ := List.mem_map.mp member
      exact Nat.lt_of_le_of_lt (MinerSteps.csvLine_short (behind.writable block inside)) (by decide)
  · have long : maxPayloadSize < (syncText (missing follower coordinator)).length := by
      rw [size]
      exact Nat.lt_of_not_le fits
    rw [ipcSend, Nat.mod_eq_of_lt small, if_pos long]
    exact .pure trivial

end Unrefused

/-- One payment, with the hashes it needs behind a given block. -/
def nextBlock (sha256 : HashFunction) (previous : Block) : Block where
  index := previous.index + 1
  timestamp := previous.timestamp
  previousHash := Crypto.blockHash sha256 previous
  merkleRoot := Crypto.merkleRoot sha256 paymentBlock.transactions
  nonce := 0
  transactions := paymentBlock.transactions

/-- A row of such blocks. -/
def payments (sha256 : HashFunction) : Nat → Block → List Block
  | 0, _ => []
  | count + 1, previous => nextBlock sha256 previous :: payments sha256 count (nextBlock sha256 previous)

@[simp] theorem payments_length (count : Nat) (previous : Block) : (payments sha256 count previous).length = count := by
  induction count generalizing previous with
  | zero => rfl
  | succ count ih => simp [payments, ih]

theorem payments_size (count : Nat) (previous : Block) : ((payments sha256 count previous).map syncSize).sum = count * 207 := by
  induction count generalizing previous with
  | zero => rfl
  | succ count ih =>
    have size : syncSize (nextBlock sha256 previous) = 207 := by
      simp only [syncSize, nextBlock]
      decide +kernel
    rw [payments, List.map_cons, List.sum_cons, size, ih]
    omega

private theorem nextBlock_sound (previous : Block) : Sound sha256 (nextBlock sha256 previous) := by
  have payment := fixture_valid.sound paymentBlock (by simp)
  have transactions := payment.transactions (by decide)
  exact ⟨⟨Crypto.hash_lowercase sha256 _, Crypto.merkleRoot_lowercase sha256 payment.sized.some, payment.sized,
    fun _ => transactions⟩, rfl⟩

theorem payments_valid {first : Block} (sound : Sound sha256 first) (genesis : first.index = 0) (count : Nat) :
    ValidChain sha256 (first :: payments sha256 count first) := by
  have later (count : Nat) (previous : Block) : (∀ block ∈ payments sha256 count previous, Sound sha256 block) ∧
      (previous :: payments sha256 count previous).IsChain (Follows sha256) := by
    induction count generalizing previous with
    | zero => simp [payments]
    | succ count ih =>
      obtain ⟨sounds, linked⟩ := ih (nextBlock sha256 previous)
      have follows : Follows sha256 previous (nextBlock sha256 previous) := ⟨rfl, UInt64.le_refl _, rfl⟩
      exact ⟨by simpa [payments] using ⟨nextBlock_sound previous, sounds⟩, List.isChain_cons_cons.mpr ⟨follows, linked⟩⟩
  refine ⟨by simp, by simpa using genesis, ?_, (later count first).2⟩
  simpa using ⟨sound, (later count first).1⟩

theorem payments_fit {count capacity : Nat} (small : count < capacity) :
    (genesisBlock :: payments sha256Bytes count genesisBlock).length ≤ capacity := by
  rw [List.length_cons, payments_length]
  exact small

/-- A coordinator that is some payments ahead of `genesisNode`. -/
def aheadBy (count : Nat) (small : count < 1024) : Node where
  nodeId := 0
  chain := ⟨genesisBlock :: payments sha256Bytes count genesisBlock, 1024, payments_fit small, by decide⟩
  syncing := []

/-- The exchange between the two when the last payment is announced. -/
private theorem aheadBy_exchange {count : Nat} (small : count < 1024) (two : 2 ≤ count)
    (room : count * 207 ≤ maxPayloadSize → count + 1 ≤ initialBlockchainCapacity) :
    ∃ last commit, Behind sha256Bytes (genesisNode 1) (aheadBy count small) last ∧
      (blockToCsv last).result = .ok (csvLine last) ∧
      ipcSend .blockCommit 0 (csvLine last).bytes (csvLine last).length = some commit ∧
      (handleUndisturbed sha256Bytes (genesisNode 1) (aheadBy count small) commit openHeap).2.refused = false := by
  have valid : ValidChain sha256Bytes (aheadBy count small).chain.blocks :=
    payments_valid (fixture_valid.sound genesisBlock (by simp)) rfl count
  obtain ⟨last, newest⟩ : ∃ last, (aheadBy count small).chain.last = some last :=
    ⟨_, List.getLast?_eq_getLast_of_ne_nil valid.some⟩
  have gap : (genesisNode 1).chain.count + 2 ≤ (aheadBy count small).chain.count := by
    simp only [Blockchain.count, genesisNode, aheadBy, List.length_cons, payments_length, List.length_nil]
    omega
  have behind : Behind sha256Bytes (genesisNode 1) (aheadBy count small) last :=
    ⟨valid, ⟨payments sha256Bytes count genesisBlock, rfl⟩, by simp [genesisNode], gap, newest⟩
  have writable := behind.writable last behind.among
  obtain ⟨commit, announced⟩ : ∃ commit : Message, commit = ⟨MessageType.blockCommit.code, 0, (csvLine last).bytes⟩ := ⟨_, rfl⟩
  have sent := MinerSteps.ipcSend_line writable .blockCommit 0
  rw [← announced] at sent
  have lines : missing (genesisNode 1) (aheadBy count small) = payments sha256Bytes count genesisBlock := rfl
  have size := syncText_length behind.writable
  rw [lines, payments_size] at size
  have room : FitsOneMessage (missing (genesisNode 1) (aheadBy count small)) →
      (genesisNode 1).chain.count + (missing (genesisNode 1) (aheadBy count small)).length ≤
        (genesisNode 1).chain.capacity := by
    intro fits
    rw [FitsOneMessage, lines, payments_size] at fits
    have bound := room fits
    rw [lines, payments_length]
    simp only [genesisNode, Blockchain.count, List.length_singleton]
    omega
  have grants := undisturbed_grants announced behind (by rw [lines, size]; omega) room
  exact ⟨last, commit, behind, toCsv_ok.mpr ⟨writable, rfl⟩, sent, congrArg Supply.refused grants.supply⟩

/-- A node with the genesis block alone catches up with two payments. -/
theorem two_payments_caught_up :
    ∃ last commit, (blockToCsv last).result = .ok (csvLine last) ∧
      ipcSend .blockCommit 0 (csvLine last).bytes (csvLine last).length = some commit ∧
      (handleUndisturbed sha256Bytes (genesisNode 1) (aheadBy 2 (by decide)) commit openHeap).1.chain.blocks =
        (aheadBy 2 (by decide)).chain.blocks := by
  obtain ⟨last, commit, behind, written, sent, granted⟩ := aheadBy_exchange (show 2 < 1024 by decide) (by decide) (by decide)
  refine ⟨last, commit, written, sent, ?_⟩
  apply (recovery_catches_up sha256Bytes ((blockchain_ok sha256Bytes).mpr behind.valid) behind.start behind.some behind.gap
    behind.newest written sent openHeap granted).mpr
  rw [FitsOneMessage, show missing (genesisNode 1) (aheadBy 2 (by decide)) = payments sha256Bytes 2 genesisBlock from rfl,
    payments_size]
  decide

/-- Four hundred payments are too many for one message, so it never gets any. -/
theorem many_payments_missed :
    ∃ last commit, (validateBlockchain sha256Bytes (aheadBy 400 (by decide)).chain.blocks).result = .ok () ∧
      (genesisNode 1).chain.blocks <+: (aheadBy 400 (by decide)).chain.blocks ∧
      (aheadBy 400 (by decide)).chain.last = some last ∧ (blockToCsv last).result = .ok (csvLine last) ∧
      ipcSend .blockCommit 0 (csvLine last).bytes (csvLine last).length = some commit ∧
      (handleUndisturbed sha256Bytes (genesisNode 1) (aheadBy 400 (by decide)) commit openHeap).2.refused = false ∧
      (handleUndisturbed sha256Bytes (genesisNode 1) (aheadBy 400 (by decide)) commit openHeap).1.chain.blocks ≠
        (aheadBy 400 (by decide)).chain.blocks := by
  obtain ⟨last, commit, behind, written, sent, granted⟩ := aheadBy_exchange (show 400 < 1024 by decide) (by decide) (by decide)
  refine ⟨last, commit, (blockchain_ok sha256Bytes).mpr behind.valid, behind.start, behind.newest, written, sent, granted, ?_⟩
  have announced := (Option.some.inj ((MinerSteps.ipcSend_line (toCsv_ok.mp written).1 _ _).symm.trans sent)).symm
  have ends := ((undisturbed_ensures announced behind).granted openHeap granted).2
  intro same
  have fits := ends.mp same
  rw [FitsOneMessage, show missing (genesisNode 1) (aheadBy 400 (by decide)) = payments sha256Bytes 400 genesisBlock from rfl,
    payments_size] at fits
  exact absurd fits (by decide)

end ProcessChain.Proofs.Recovery
