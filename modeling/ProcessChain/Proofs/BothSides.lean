import ProcessChain.Proofs.Canonical

/-! The script and the processes on one line. Where both accept its form they cut it
into the same fields and transactions, so they hash the same texts. -/

namespace ProcessChain.Proofs.BothSides
open Lib Lib.FailStop Csv Crypto Validation BashVerifier Canonical Bash

variable (sha256 : HashFunction)

/-- The checks of the script on the form of a line and the parts of its transactions. -/
structure WellSplit (line : Bytes) (parts : List Bytes) : Prop where
  extra : (readRecord line).extra = []
  visible : (readRecord line).index ≠ [] ∧ (readRecord line).timestamp ≠ [] ∧ (readRecord line).previousHash ≠ [] ∧
    (readRecord line).merkleRoot ≠ [] ∧ (readRecord line).nonce ≠ [] ∧ (readRecord line).transactions ≠ []
  quoted : isQuoted (readRecord line).transactions = true
  index : isU64Hex (readRecord line).index = true
  timestamp : isU64Hex (readRecord line).timestamp = true
  previousHash : isHashHex (readRecord line).previousHash = true
  merkleRoot : isHashHex (readRecord line).merkleRoot = true
  nonce : isU64Hex (readRecord line).nonce = true
  split : splitTransactions (readRecord line).transactions.tail.dropLast = some parts

/-- Both sides cut a line at its first five commas; the script goes on to cut. -/
theorem readRecord_split {line : Bytes} {fields : Fields} (split : splitFields line = some fields) :
    readRecord line = ⟨fields.index, fields.timestamp, fields.previousHash, fields.merkleRoot, fields.nonce,
      (readWord fields.transactions).1, readRest (readWord fields.transactions).2⟩ := by
  obtain ⟨rfl, free⟩ := lineOf_split split
  have mark : comma.bytes = [44] := by decide +kernel
  simp only [readRecord, lineOf, mark, List.singleton_append, readWord_comma (comma_free.mp free.index),
    readWord_comma (comma_free.mp free.timestamp), readWord_comma (comma_free.mp free.previousHash),
    readWord_comma (comma_free.mp free.merkleRoot), readWord_comma (comma_free.mp free.nonce)]

/-- A text that ends in a quote is a single word if nothing is left over. -/
private theorem readWord_closed {text : Bytes} (closed : text.getLast? = some 34)
    (extra : readRest (readWord text).2 = []) : (readWord text).1 = text := by
  rcases read : readWord text with ⟨word, rest⟩
  rw [read] at extra
  rcases (readWord_cases read).2 with rfl | ⟨rfl, _⟩
  · rcases readRest_empty.mp extra with rfl | rfl
    · rw [List.getLast?_concat] at closed
      cases closed
    · rw [List.append_cons, List.getLast?_concat] at closed
      cases closed
  · rfl

/-- On a line that both sides accept they read the same block. -/
theorem readRecord_parsed {line : CString} (unbroken : ∀ byte ∈ line.bytes, byte ≠ 13 ∧ byte ≠ 10) {block : Block}
    (parsed : (blockFromCsv line).result = .ok block) {parts : List Bytes} (accepted : WellSplit line.bytes parts) :
    readRecord line.bytes = recordOf block := by
  obtain ⟨fields, read⟩ := fromCsv_ok.mp parsed
  have split := read.split
  rw [beforeLineBreak_same unbroken] at split
  have record := readRecord_split split
  have extra : readRest (readWord fields.transactions).2 = [] := by
    have last := accepted.extra
    rw [record] at last
    exact last
  have index := accepted.index
  have timestamp := accepted.timestamp
  have nonce := accepted.nonce
  rw [record] at index timestamp nonce
  have same := (parsed_fields unbroken read).mpr ⟨index, timestamp, nonce⟩
  rw [record, readWord_closed read.closed extra, extra, ← same]
  rfl

/-- On a line whose form both sides accept, they find the same transactions and compute
the same Merkle root and the same block hash. -/
theorem both_sides_hash {line : CString} (unbroken : ∀ byte ∈ line.bytes, byte ≠ 13 ∧ byte ≠ 10) {block : Block}
    (parsed : (blockFromCsv line).result = .ok block) {parts : List Bytes} (accepted : WellSplit line.bytes parts) :
    parts = block.transactions.map CString.bytes ∧
      (∃ root, (calculateMerkleRoot sha256 block.transactions).result = .ok root ∧
        Bash.calculateMerkleRoot sha256 (readRecord line.bytes).transactions.tail.dropLast = some root.bytes) ∧
      ∃ hash, (calculateBlockHash sha256 block).result = .ok hash ∧
        hashBlockFields sha256 { readRecord line.bytes with
          transactions := (readRecord line.bytes).transactions.tail.dropLast } = hash.bytes := by
  have record := readRecord_parsed unbroken parsed accepted
  have inner : (recordOf block).transactions.tail.dropLast = (CString.join doubleColon block.transactions).bytes := by
    rw [recordOf, fieldsOf, List.tail_cons, List.dropLast_concat]
  have cut := accepted.split
  rw [record, inner] at cut
  obtain ⟨same, shown⟩ := splitTransactions_ok.mp cut
  have clean := (CString.join doubleColon block.transactions).terminated
  have whole := partsOf_join (parsed_rejoined parsed)
  obtain ⟨_, read⟩ := fromCsv_ok.mp parsed
  rw [record, inner]
  refine ⟨?_, ?_, ?_⟩
  · rw [same, ← partsOf_bytes clean, whole]
  · refine ⟨_, (merkleRoot_ok sha256).mpr ⟨read.sized.some, rfl⟩, ?_⟩
    apply (calculateMerkleRoot_ok sha256 clean).mpr
    rw [whole]
    exact ⟨same ▸ shown, rfl⟩
  · have hashable : Hashable block := ⟨hash_length read.previousLowercase, hash_length read.merkleLowercase, read.sized.some⟩
    exact ⟨_, (blockHash_ok sha256).mpr ⟨hashable, rfl⟩, hashBlockFields_blockHash sha256 block⟩

theorem payment_hashed_alike :
    ∃ root, (calculateMerkleRoot sha256Bytes paymentBlock.transactions).result = .ok root ∧
      Bash.calculateMerkleRoot sha256Bytes (readRecord (csvLine paymentBlock).bytes).transactions.tail.dropLast =
        some root.bytes := by
  have record : readRecord (csvLine paymentBlock).bytes = recordOf paymentBlock := by
    apply (readRecord_recordOf (by decide) (by decide)).mpr
    exact ⟨by decide +kernel, [], Or.inl rfl, (List.append_nil _).symm⟩
  have accepted : WellSplit (csvLine paymentBlock).bytes [ascii "Alice pays Bob 10 coins"] := by
    have number (value : UInt64) : isU64Hex (hex16 value).bytes = true := isU64Hex_hex16.mpr ⟨value, rfl⟩
    have split : pieces doubleColon.bytes (recordOf paymentBlock).transactions.tail.dropLast = [ascii "Alice pays Bob 10 coins"] :=
      pieces_uncut (by decide +kernel)
    refine ⟨?_, ?_, ?_, ?_, ?_, ?_, ?_, ?_, ?_⟩
    all_goals rw [record]
    · rfl
    · decide +kernel
    · decide +kernel
    · exact number _
    · exact number _
    · decide
    · decide
    · exact number _
    · exact splitTransactions_ok.mpr ⟨split.symm, by decide⟩
  exact (both_sides_hash sha256Bytes (by decide +kernel) payment_parsed accepted).2.1

end ProcessChain.Proofs.BothSides
