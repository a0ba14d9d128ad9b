import ProcessChain.Proofs.BashVerifier
import ProcessChain.Proofs.Sending

/-! Blocks and the lines that carry them. A validated block travels on its line
unchanged, and the line shows the text under its hash. The parser takes other
spellings of the numbers as well, so it also reads lines that are never written. -/

namespace ProcessChain.Proofs.Canonical
open Lib Lib.FailStop Csv Crypto Validation Sending BashVerifier Bash

/-- A line without the commas and quotes that frame its fields. -/
def unframed (line : Bytes) : Bytes := line.filter fun byte => byte ≠ 44 ∧ byte ≠ 34

/-- No comma and no quote. -/
def Unmarked (text : Bytes) : Prop := 44 ∉ text ∧ 34 ∉ text

private theorem unframed_append (first second : Bytes) : unframed (first ++ second) = unframed first ++ unframed second :=
  List.filter_append ..

private theorem unframed_same {text : Bytes} (unmarked : Unmarked text) : unframed text = text := by
  apply List.filter_eq_self.mpr
  intro byte member
  apply decide_eq_true
  exact ⟨fun same => unmarked.1 (same ▸ member), fun same => unmarked.2 (same ▸ member)⟩

private theorem lowercase_unmarked {text : Bytes} (hexadecimal : text.all isLowercaseHex = true) : Unmarked text := by
  rw [List.all_eq_true] at hexadecimal
  exact ⟨fun mark => absurd (hexadecimal 44 mark) (by decide), fun mark => absurd (hexadecimal 34 mark) (by decide)⟩

private theorem number_unmarked (value : UInt64) : Unmarked (hex16 value).bytes := by
  have hexadecimal := isU64Hex_hex16.mpr ⟨value, rfl⟩
  rw [isU64Hex, Bool.and_eq_true] at hexadecimal
  exact lowercase_unmarked hexadecimal.2

private theorem hash_unmarked {hash : CString} (lowercase : isLowercaseHexHash hash = true) : Unmarked hash.bytes := by
  rw [isLowercaseHexHash, Bool.and_eq_true] at lowercase
  exact lowercase_unmarked lowercase.2

private theorem transactions_unmarked {transactions : List CString}
    (valid : ∀ transaction ∈ transactions, ValidTransaction transaction) :
    Unmarked (CString.join doubleColon transactions).bytes := by
  constructor
  · apply join_letters (by decide)
    exact fun transaction member mark => (matched_plain (valid transaction member).matched 44 mark).2 rfl
  · apply join_letters (by decide)
    exact fun transaction member mark => (validTransaction_plain (valid transaction member) 34 mark).2.1 rfl

/-- Where neither mark occurs in a field, the frame of a line is five commas and two
quotes, and without it the text under the hash is left. -/
theorem unframed_line {block : Block} (previousHash : isLowercaseHexHash block.previousHash = true)
    (merkleRoot : isLowercaseHexHash block.merkleRoot = true)
    (unmarked : Unmarked (CString.join doubleColon block.transactions).bytes) :
    (csvLine block).bytes.count 44 = 5 ∧ (csvLine block).bytes.count 34 = 2 ∧
      unframed (csvLine block).bytes = (hashInput block).bytes := by
  have numbers := number_unmarked
  have previous := hash_unmarked previousHash
  have root := hash_unmarked merkleRoot
  have comma (rest : Bytes) : unframed (44 :: rest) = unframed rest := rfl
  have opening (rest : Bytes) : unframed (34 :: rest) = unframed rest := rfl
  have nothing : unframed [] = [] := rfl
  have quoted : (fieldsOf block).transactions = 34 :: ((CString.join doubleColon block.transactions).bytes ++ [34]) := rfl
  rw [csvLine_commas, quoted]
  refine ⟨?_, ?_, ?_⟩
  · simp only [List.count_append, List.count_cons, List.count_eq_zero.mpr (numbers _).1, List.count_eq_zero.mpr previous.1,
      List.count_eq_zero.mpr root.1, List.count_eq_zero.mpr unmarked.1, List.count_nil]
    rfl
  · simp only [List.count_append, List.count_cons, List.count_eq_zero.mpr (numbers _).2, List.count_eq_zero.mpr previous.2,
      List.count_eq_zero.mpr root.2, List.count_eq_zero.mpr unmarked.2, List.count_nil]
    rfl
  · simp only [unframed_append, comma, opening, nothing, unframed_same (numbers _), unframed_same previous,
      unframed_same root, unframed_same unmarked, List.append_nil, hashInput, CString.bytes_append, List.append_assoc]

private theorem asks_addTransactions (block : Block) (transactions : List CString) :
    Asks (·.refusal = .memoryAllocation) (addTransactions block transactions) := by
  induction transactions generalizing block with
  | nil => exact asks_pure block
  | cons transaction rest ih =>
    refine asks_bind ?_ fun later _ => ih later
    refine asks_bind asks_failIf fun _ _ => ?_
    refine asks_bind asks_failIf fun _ _ => ?_
    refine asks_bind (asks_request rfl) fun _ _ => ?_
    refine asks_bind (asks_request rfl) fun _ _ => ?_
    exact asks_pure _

theorem asks_blockToCsv (block : Block) : Asks (·.refusal = .memoryAllocation) (blockToCsv block) := by
  refine asks_bind asks_failIf fun _ _ => ?_
  refine asks_bind asks_failIf fun _ _ => ?_
  refine asks_bind ?_ fun _ _ => ?_
  · apply asks_forM
    intro transaction _
    exact asks_bind asks_failIf fun _ _ => asks_failIf
  refine asks_bind (asks_request rfl) fun _ _ => ?_
  refine asks_bind asks_failIf fun _ _ => ?_
  refine asks_bind asks_failIf fun _ _ => ?_
  exact asks_pure _

private theorem asks_parseHexU64 (text : CString) : Asks (·.refusal = .memoryAllocation) (parseHexU64 text) := by
  refine asks_bind asks_failIf fun _ _ => ?_
  split
  · exact asks_fail _
  · exact asks_bind asks_failIf fun _ _ => asks_pure _

theorem asks_blockFromCsv (line : CString) : Asks (·.refusal = .memoryAllocation) (blockFromCsv line) := by
  refine asks_bind (asks_request rfl) fun _ _ => ?_
  split
  · exact asks_fail _
  · refine asks_bind asks_failIf fun _ _ => ?_
    refine asks_bind asks_failIf fun _ _ => ?_
    refine asks_bind (asks_parseHexU64 _) fun _ _ => ?_
    refine asks_bind (asks_parseHexU64 _) fun _ _ => ?_
    refine asks_bind asks_failIf fun _ _ => ?_
    refine asks_bind asks_failIf fun _ _ => ?_
    refine asks_bind (asks_parseHexU64 _) fun _ _ => ?_
    refine asks_bind asks_failIf fun _ _ => ?_
    exact asks_addTransactions _ _

/-- A program that would succeed can only run out of memory. -/
theorem attempt_outcome {α : Type} {program : Alloc α} {value : α} (memory : Asks (·.refusal = .memoryAllocation) program)
    (succeeds : program.result = .ok value) (heap : Heap) :
    (attempt program heap).1 = .ok value ∨ (attempt program heap).1 = .error .memoryAllocation := by
  rcases run_stopped ptrdiffMax program heap with finished | ⟨request, made, stopped⟩
  · left
    rw [attempt, finished, succeeds]
  · right
    rw [attempt, stopped, memory request made]

/-- The line on which a block travels: both directions succeed unless memory runs out. -/
structure Travels (sha256 : HashFunction) (block : Block) (line : CString) : Prop where
  written : (blockToCsv block).result = .ok line
  writing : ∀ heap, (attempt (blockToCsv block) heap).1 = .ok line ∨
    (attempt (blockToCsv block) heap).1 = .error .memoryAllocation
  read : (blockFromCsv line).result = .ok block
  reading : ∀ heap, (attempt (blockFromCsv line) heap).1 = .ok block ∨
    (attempt (blockFromCsv line) heap).1 = .error .memoryAllocation
  length : line.length ≤ 4293
  buffered : line.length < maxBlockCsvLineLength
  payload : line.length < maxPayloadSize
  commas : line.bytes.count 44 = 5
  quotes : line.bytes.count 34 = 2
  hashInput : ∃ input, (buildBlockHashInput block).result = .ok input ∧ input.bytes = unframed line.bytes
  hash : (calculateBlockHash sha256 block).result = .ok (sha256Hex sha256 (unframed line.bytes))

/-- Every block behind the first one that passes validation travels unchanged. -/
theorem validated_block_travels (sha256 : HashFunction) {block : Block}
    (valid : (validateBlockStructure block).result = .ok ()) (ordinary : block.index ≠ 0) :
    ∃ line, Travels sha256 block line := by
  have wellFormed := structure_ok.mp valid
  obtain ⟨writable, read⟩ := wellFormed.written ordinary
  have written := toCsv_ok.mpr ⟨writable, rfl⟩
  have unmarked := transactions_unmarked (wellFormed.transactions ordinary)
  obtain ⟨commas, quotes, inside⟩ := unframed_line wellFormed.previousHash wellFormed.merkleRoot unmarked
  have length : (csvLine block).length ≤ 4293 := by
    have joined := joinedLength_le wellFormed.sized
    rw [csvLine_length wellFormed.previousHash wellFormed.merkleRoot]
    simp only [maxTransactionsPerBlock, maxTransactionLength, sha256HexLength] at joined ⊢
    omega
  refine ⟨csvLine block, written, attempt_outcome (asks_blockToCsv block) written, read,
    attempt_outcome (asks_blockFromCsv _) read, length, Nat.lt_of_le_of_lt length (by decide),
    Nat.lt_of_le_of_lt length (by decide), commas, quotes, ?_, ?_⟩
  · exact ⟨hashInput block, hashInput_ok.mpr ⟨wellFormed.hashable, rfl⟩, inside.symm⟩
  · rw [inside]
    exact (blockHash_ok sha256).mpr ⟨wellFormed.hashable, rfl⟩

theorem payment_travels : ∃ line, Travels sha256Bytes paymentBlock line :=
  validated_block_travels sha256Bytes (structure_ok.mpr (fixture_valid.sound paymentBlock (by simp)).toWellFormed) (by decide)

/-- The numbers of a line stand there in the spelling that is written, and between
the outer quotes there is no other quote. -/
structure PlainFields (fields : Fields) : Prop where
  index : isU64Hex fields.index = true
  timestamp : isU64Hex fields.timestamp = true
  nonce : isU64Hex fields.nonce = true
  unquoted : 34 ∉ fields.transactions.dropLast.tail

private theorem number_read {text : Bytes} {value : UInt64} (read : (parseHexU64 (.ofMemory text)).result = .ok value) :
    isU64Hex text = true ↔ (hex16 value).bytes = text := by
  constructor
  · intro hexadecimal
    obtain ⟨spelled, rfl⟩ := isU64Hex_hex16.mp hexadecimal
    rw [CString.ofMemory_bytes, parse_hex16] at read
    rw [Except.ok.inj read]
  · intro same
    exact isU64Hex_hex16.mpr ⟨value, same.symm⟩

/-- A block has the fields that it was read from exactly when its numbers are spelled as they are written. -/
theorem parsed_fields {line : CString} {fields : Fields} {block : Block} (unbroken : ∀ byte ∈ line.bytes, byte ≠ 13 ∧ byte ≠ 10)
    (read : Parsed line.bytes fields block) :
    fieldsOf block = fields ↔
      isU64Hex fields.index = true ∧ isU64Hex fields.timestamp = true ∧ isU64Hex fields.nonce = true := by
  have split := read.split
  rw [beforeLineBreak_same unbroken] at split
  have terminated {field : Bytes} (inside : field ⊆ lineOf fields) : 0 ∉ field := by
    intro zero
    apply line.terminated
    rw [(lineOf_split split).1]
    exact inside zero
  have previousHash : block.previousHash.bytes = fields.previousHash := by
    rw [← read.previousHash]
    exact CString.bytes_ofMemory (terminated fun byte member => by simp [lineOf, member])
  have merkleRoot : block.merkleRoot.bytes = fields.merkleRoot := by
    rw [← read.merkleRoot]
    exact CString.bytes_ofMemory (terminated fun byte member => by simp [lineOf, member])
  obtain ⟨inner, quoted⟩ := isQuoted_ok.mp (show isQuoted fields.transactions = true by
    simp [isQuoted, read.long, read.opened, read.closed])
  have transactions : (fieldsOf block).transactions = fields.transactions := by
    have joined := read.transactions
    rw [quoted, ← List.cons_append, List.dropLast_concat, List.tail_cons] at joined
    rw [fieldsOf, ← joined, join_pieces, quoted]
    exact terminated fun byte member => by simp [lineOf, quoted, member]
  rw [number_read read.index, number_read read.timestamp, number_read read.nonce]
  constructor
  · intro same
    rw [← same]
    exact ⟨rfl, rfl, rfl⟩
  · intro spelled
    obtain ⟨index, timestamp, nonce⟩ := spelled
    cases fields
    rw [fieldsOf] at transactions ⊢
    rw [Fields.mk.injEq]
    exact ⟨index, timestamp, previousHash, merkleRoot, nonce, transactions⟩

/-- A line is written again for the block that is read from it exactly when it spells
the numbers as they are written and has no quote between the outer quotes. -/
theorem rewritten_line {line : CString} (unbroken : ∀ byte ∈ line.bytes, byte ≠ 13 ∧ byte ≠ 10) {block : Block}
    (accepted : (blockFromCsv line).result = .ok block) :
    (blockToCsv block).result = .ok line ↔ ∃ fields, splitFields line.bytes = some fields ∧ PlainFields fields := by
  obtain ⟨fields, read⟩ := fromCsv_ok.mp accepted
  have split := read.split
  rw [beforeLineBreak_same unbroken] at split
  have same := parsed_fields unbroken read
  have free := commaFree read.previousLowercase read.merkleLowercase
  rw [toCsv_ok]
  constructor
  · intro written
    obtain ⟨writable, rfl⟩ := written
    rw [csvLine_bytes, split_line free] at split
    cases split
    obtain ⟨index, timestamp, nonce⟩ := same.mp rfl
    refine ⟨fieldsOf block, by rw [csvLine_bytes, split_line free], index, timestamp, nonce, ?_⟩
    rw [inner_transactions]
    apply join_letters (by decide)
    intro transaction member mark
    exact (plain_letters (writable.plain transaction member) 34 mark).1 rfl
  · intro plain
    obtain ⟨_, again, plain⟩ := plain
    cases split.symm.trans again
    have spelled := same.mpr ⟨plain.index, plain.timestamp, plain.nonce⟩
    have unquoted := plain.unquoted
    rw [← spelled, inner_transactions] at unquoted
    refine ⟨parsed_writable accepted ?_, ?_⟩
    · intro quoted
      obtain ⟨transaction, member, mark⟩ := quoted
      apply unquoted
      rw [CString.bytes_join]
      exact subset_intercalate doubleColon.bytes (List.mem_map_of_mem member) mark
    · apply CString.ext
      rw [csvLine_bytes, spelled]
      exact (lineOf_split split).1

theorem paymentLine_rewritten : (blockToCsv paymentBlock).result = .ok (csvLine paymentBlock) := by
  have writable := ((fixture_valid.sound paymentBlock (by simp)).written (by decide)).1
  have split := split_line (commaFree writable.previousHash writable.merkleRoot)
  rw [← csvLine_bytes] at split
  refine (rewritten_line (csvLine_letters writable) payment_parsed).mpr ⟨fieldsOf paymentBlock, split, ?_⟩
  exact ⟨isU64Hex_hex16.mpr ⟨_, rfl⟩, isU64Hex_hex16.mpr ⟨_, rfl⟩, isU64Hex_hex16.mpr ⟨_, rfl⟩, by decide +kernel⟩

/-- The tenth block behind a first one, with its number in a capital letter. -/
def capitalLine : CString :=
  .text ("000000000000000A,0000000067890001,0000000000000000000000000000000000000000000000000000000000000000," ++
    "0000000000000000000000000000000000000000000000000000000000000000,0000000000000000,\"A pays B 1 coins\"")

/-- The line is read as a block, and that block is written in another way. -/
theorem capitalLine_respelled : (∀ byte ∈ capitalLine.bytes, byte ≠ 13 ∧ byte ≠ 10) ∧
    ∃ block, (blockFromCsv capitalLine).result = .ok block ∧ (blockToCsv block).result ≠ .ok capitalLine := by
  rw [capitalLine, CString.text, ascii_append, ascii_ofList, ascii_ofList]
  refine ⟨by decide +kernel, ⟨10, 0x67890001, RoundTrip.allZeros, RoundTrip.allZeros, 0, [.text "A pays B 1 coins"]⟩, ?_, ?_⟩
  · decide +kernel
  · decide +kernel

end ProcessChain.Proofs.Canonical
