import ProcessChain.Proofs.Allocation
import ProcessChain.Proofs.Compatibility
import ProcessChain.Proofs.Sending
import Mathlib.Data.List.Forall2

/-! What the C side makes of a file that the script accepts. Both read the same blocks,
except where a line is too long for the buffer of `fgets`, ends in a stray comma, goes
beyond the limits of a block or contains a carriage return before its end. -/

namespace ProcessChain.Proofs.Loading
open Lib Lib.FailStop Csv Crypto Validation ChainFile Sending BashVerifier Compatibility Handlers Allocation Bash

section Pairs

variable {α β γ : Type} {relation : α → β → Prop} {left : List α} {right : List β}

private theorem pairs_map {first : α → γ} {second : β → γ} :
    List.Forall₂ (fun one other => first one = second other) left right ↔ left.map first = right.map second := by
  rw [← List.forall₂_eq_eq_eq, List.forall₂_map_left_iff, List.forall₂_map_right_iff]

private theorem pairs_left (pairs : List.Forall₂ relation left right) : ∀ one ∈ left, ∃ other ∈ right, relation one other := by
  induction pairs with
  | nil => simp
  | cons related rest ih =>
    intro one member
    rcases List.mem_cons.mp member with rfl | later
    · exact ⟨_, by simp, related⟩
    · obtain ⟨other, inside, found⟩ := ih one later
      exact ⟨other, List.mem_cons_of_mem _ inside, found⟩

end Pairs

private theorem beforeLineBreak_append {text : Bytes} {ending : UInt8} (stops : ending = 13 ∨ ending = 10) :
    beforeLineBreak (text ++ [ending]) = beforeLineBreak text := by
  induction text with
  | nil => rcases stops with rfl | rfl <;> rfl
  | cons letter rest ih =>
    simp only [beforeLineBreak, List.cons_append, List.takeWhile_cons] at ih ⊢
    rw [ih]

/-- `strcspn` and `%$'\r'` differ only if there is a carriage return before the end. -/
private theorem beforeLineBreak_stripReturn (text : Bytes) : beforeLineBreak (stripReturn text) = beforeLineBreak text := by
  unfold stripReturn
  split
  next last =>
    obtain ⟨start, rfl⟩ := List.getLast?_eq_some_iff.mp last
    rw [List.dropLast_concat, beforeLineBreak_append (Or.inl rfl)]
  · rfl

/-- The buffer shows a line up to its first carriage return. -/
theorem chunkLine_line {line : Line UInt8} (terminated : 0 ∉ line.text) :
    chunkLine (line.chunk 10) = .ofMemory (beforeLineBreak (stripReturn line.text)) := by
  rw [beforeLineBreak_stripReturn, chunkLine, Line.chunk]
  split
  · rw [CString.bytes_ofMemory (by simpa using terminated), beforeLineBreak_append (Or.inr rfl)]
  · rw [CString.bytes_ofMemory terminated]

theorem exceedsBuffer_line {line : Line UInt8} (terminated : 0 ∉ line.text) : exceedsBuffer (line.chunk 10) = false := by
  rw [exceedsBuffer, Line.chunk]
  split
  · rw [CString.bytes_ofMemory (by simpa using terminated)]
    simp
  · simp

theorem fgetsAll_short {contents : Bytes}
    (short : ∀ line ∈ linesOf 10 contents, line.text.length < maxBlockCsvLineLength - 1) :
    fgetsAll contents = (linesOf 10 contents).map (Line.chunk 10) :=
  chunks_short (by decide) short

/-- Every line of a file that is loaded fits into the buffer. -/
theorem carries_short {contents : Bytes} {blocks : List Block} (carries : FileCarries contents blocks) :
    ∀ line ∈ linesOf 10 contents, line.text.length < maxBlockCsvLineLength - 1 := by
  intro line member
  by_contra long
  have large : maxBlockCsvLineLength - 1 ≤ line.text.length := Nat.le_of_not_lt long
  obtain ⟨chunk, inside, atEnd, clean⟩ := chunks_long (by decide) member large
  have exceeds : exceedsBuffer chunk = true := by
    have unbroken : 10 ∉ (CString.ofMemory chunk.letters).bytes := fun feed => clean ((List.takeWhile_prefix _).subset feed)
    simp [exceedsBuffer, atEnd, unbroken]
  obtain ⟨header, lines, found, fits, _, others⟩ := carries.lines
  rw [← fgetsAll, found] at inside
  rcases List.mem_cons.mp inside with rfl | later
  · rw [exceeds] at fits
    cases fits
  · rw [others.fit chunk later] at exceeds
    cases exceeds

/-- The lines that the script reads as records. -/
def textsOf (lines : List (Line UInt8)) : List Bytes := (lines.map fun line => stripReturn line.text).filter (· ≠ [])

theorem recordsOf_texts (lines : List (Line UInt8)) : recordsOf lines = (textsOf lines).map readRecord := rfl

private theorem textsOf_cons (line : Line UInt8) (rest : List (Line UInt8)) :
    textsOf (line :: rest) =
      if stripReturn line.text = [] then textsOf rest else stripReturn line.text :: textsOf rest := by
  simp only [textsOf, List.map_cons, List.filter_cons]
  split <;> simp_all

/-- What the C side reads out of a line. -/
def readLine (text : Bytes) : CString := .ofMemory (beforeLineBreak text)

/-- The C side skips the same lines if no other one begins with a carriage return. -/
theorem blockLines_texts {lines : List (Line UInt8)} (terminated : ∀ line ∈ lines, 0 ∉ line.text)
    (shown : ∀ text ∈ textsOf lines, readLine text ≠ CString.text "") :
    blockLines (lines.map (Line.chunk 10)) = (textsOf lines).map readLine := by
  induction lines with
  | nil => rfl
  | cons line rest ih =>
    rw [textsOf_cons] at shown ⊢
    have later := fun line member => terminated line (List.mem_cons_of_mem _ member)
    rw [List.map_cons, blockLines_cons, chunkLine_line (terminated line (by simp))]
    by_cases blank : stripReturn line.text = []
    · rw [if_pos blank] at shown ⊢
      rw [blank]
      exact (if_pos rfl).trans (ih later shown)
    · rw [if_neg blank] at shown ⊢
      rw [← readLine, if_neg (shown _ (by simp)), List.map_cons,
        ih later fun text member => shown text (List.mem_cons_of_mem _ member)]

/-- The fields of a line with something behind the written ones. -/
def followedBy (block : Block) (tail : Bytes) : Fields :=
  { fieldsOf block with transactions := (fieldsOf block).transactions ++ tail }

private theorem followedBy_line (block : Block) (tail : Bytes) :
    (csvLine block).bytes ++ tail = lineOf (followedBy block tail) := by
  rw [csvLine_bytes]
  simp only [lineOf, followedBy, List.append_assoc]

private theorem followedBy_free {block : Block} (previousHash : isLowercaseHexHash block.previousHash = true)
    (merkleRoot : isLowercaseHexHash block.merkleRoot = true) (tail : Bytes) : CommaFree (followedBy block tail) := by
  have free := commaFree previousHash merkleRoot
  exact ⟨free.index, free.timestamp, free.previousHash, free.merkleRoot, free.nonce⟩

/-- A line of an accepted file and the block that the script reads out of it. -/
structure Reads (sha256 : HashFunction) (text : Bytes) (block : Block) : Prop where
  record : readRecord text = recordOf block
  checked : ∃ position previous, Checked sha256 position previous block
  unbroken : 10 ∉ text
  terminated : 0 ∉ text

variable {sha256 : HashFunction} {text : Bytes} {block : Block}

theorem Reads.spelled (reads : Reads sha256 text block) :
    ∃ tail, StrayCommas tail ∧ text = (csvLine block).bytes ++ tail := by
  obtain ⟨position, previous, checked⟩ := reads.checked
  exact ((readRecord_recordOf checked.previousHash checked.merkleRoot).mp reads.record).2

/-- A line that is read as a block begins with a digit. -/
theorem Reads.shown (reads : Reads sha256 text block) : readLine text ≠ CString.text "" := by
  obtain ⟨tail, _, rfl⟩ := reads.spelled
  obtain ⟨first, rest, digits⟩ := List.exists_cons_of_length_pos (l := (hex16 block.index).bytes)
    (Nat.lt_of_lt_of_eq (by decide) (hex16_length block.index).symm)
  have letter := hex16_letters block.index first (by simp [digits])
  have terminated := reads.terminated
  rw [csvLine_commas, digits] at terminated
  have plain : first ≠ 0 := fun zero => terminated (by simp [zero])
  intro none
  rw [readLine, csvLine_commas, digits] at none
  have bytes := congrArg CString.bytes none
  simp [beforeLineBreak, CString.ofMemory, CString.text, ascii, letter.2.2, letter.2.1, plain] at bytes

/-- A line without a carriage return is read as the block on the C side exactly when
no comma follows and the transactions fit into a block. -/
theorem Reads.parsed (reads : Reads sha256 text block) (unreturned : 13 ∉ text) {read : Block} :
    (blockFromCsv (readLine text)).result = .ok read ↔
      read = block ∧ text.getLast? ≠ some 44 ∧ WellSized block.transactions := by
  obtain ⟨position, previous, checked⟩ := reads.checked
  obtain ⟨tail, stray, rfl⟩ := reads.spelled
  have clean : ∀ byte ∈ (csvLine block).bytes ++ tail, byte ≠ 13 ∧ byte ≠ 10 :=
    fun byte member => ⟨fun same => unreturned (same ▸ member), fun same => reads.unbroken (same ▸ member)⟩
  have whole : readLine ((csvLine block).bytes ++ tail) = ⟨(csvLine block).bytes ++ tail, reads.terminated⟩ := by
    rw [readLine, beforeLineBreak_same clean]
    exact CString.ext (CString.bytes_ofMemory reads.terminated)
  have quoted : (csvLine block).bytes.getLast? = some 34 := by
    rw [csvLine, CString.bytes_append]
    exact List.getLast?_concat
  have untailed (last : ((csvLine block).bytes ++ tail).getLast? ≠ some 44) : tail = [] := by
    rcases stray with none | rfl | rfl
    · exact none
    · rw [List.getLast?_concat] at last
      exact absurd rfl last
    · rw [List.append_cons, List.getLast?_concat] at last
      exact absurd rfl last
  have readsWhole (sized : WellSized block.transactions) : (blockFromCsv (csvLine block)).result = .ok block :=
    readWhole checked.previousHash checked.merkleRoot sized (fun byte member => clean byte (List.mem_append_left _ member))
      checked.whole
  constructor
  · intro parsed
    rw [whole] at parsed
    have written : beforeLineBreak ((csvLine block).bytes ++ tail) = lineOf (followedBy block tail) := by
      rw [beforeLineBreak_same clean, followedBy_line]
    have fields := (fromCsv_fields (followedBy_free checked.previousHash checked.merkleRoot tail) written).mp parsed
    -- what the C side takes for the transactions must end with the quotes
    have none : tail = [] := by
      have closed := fields.closed
      rcases stray with none | rfl | rfl
      · exact none
      · rw [followedBy, List.getLast?_concat] at closed
        cases closed
      · rw [followedBy, List.append_cons, List.getLast?_concat] at closed
        cases closed
    subst none
    have transactions : read.transactions = block.transactions := by
      rw [← fields.transactions, followedBy, List.append_nil, inner_transactions]
      exact checked.whole
    have sized : WellSized block.transactions := transactions ▸ fields.sized
    have line : (⟨(csvLine block).bytes ++ [], reads.terminated⟩ : CString) = csvLine block :=
      CString.ext (List.append_nil _)
    rw [line, readsWhole sized] at parsed
    refine ⟨(Except.ok.inj parsed).symm, ?_, sized⟩
    rw [List.append_nil, quoted]
    decide
  · intro rules
    obtain ⟨rfl, last, sized⟩ := rules
    have none := untailed last
    subst none
    rw [whole, ← readsWhole sized]
    exact congrArg (fun line => (blockFromCsv line).result) (CString.ext (List.append_nil _))

/-- The transactions that the script finds in a record. -/
def transactionsOf (record : Record) : List CString := partsOf record.transactions.tail.dropLast

def timestampOf (record : Record) : Nat := numeral 16 (record.timestamp.filterMap (digitOf 16))

theorem transactionsOf_recordOf {block : Block} (whole : rejoined block.transactions = block.transactions) :
    transactionsOf (recordOf block) = block.transactions := by
  have inner : (recordOf block).transactions.tail.dropLast = (CString.join doubleColon block.transactions).bytes := by
    rw [recordOf, fieldsOf, List.tail_cons, List.dropLast_concat]
  rw [transactionsOf, inner]
  exact partsOf_join whole

theorem timestampOf_recordOf (block : Block) : timestampOf (recordOf block) = block.timestamp.toNat :=
  numeral_hex16 block.timestamp

/-- A line with a carriage return inside that the C side reads as other transactions
than the script, with the same Merkle root. -/
def TwoReadings (sha256 : HashFunction) (text : Bytes) : Prop :=
  13 ∈ text ∧ ∃ read, (blockFromCsv (readLine text)).result = .ok read ∧
    read.transactions ≠ transactionsOf (readRecord text) ∧
    merkleRoot sha256 read.transactions = merkleRoot sha256 (transactionsOf (readRecord text))

/-- If the C side accepts what is left of a line with a carriage return, then there
are two readings of it. -/
theorem Reads.returned (reads : Reads sha256 text block) (returned : 13 ∈ text) {read : Block}
    (parsed : (blockFromCsv (readLine text)).result = .ok read) (sound : Sound sha256 read) : TwoReadings sha256 text := by
  obtain ⟨position, previous, checked⟩ := reads.checked
  obtain ⟨tail, stray, line⟩ := reads.spelled
  have transactions : transactionsOf (readRecord text) = block.transactions := by
    rw [reads.record, transactionsOf_recordOf checked.whole]
  refine ⟨returned, read, parsed, ?_, ?_⟩
  · rw [transactions]
    intro same
    have inside : 13 ∈ (csvLine block).bytes := by
      rw [line] at returned
      rcases List.mem_append.mp returned with inside | behind
      · exact inside
      · rcases stray with rfl | rfl | rfl <;> simp at behind
    have joined := lineBreak_inside checked.previousHash checked.merkleRoot (Or.inl rfl) inside
    refine join_letters (by decide) ?_ joined
    intro transaction member feed
    exact ((parsed_pieces parsed (same ▸ member)).2 13 feed).1 rfl
  · obtain ⟨fields, found⟩ := fromCsv_ok.mp parsed
    have start : beforeLineBreak (readLine text).bytes <+: lineOf (followedBy block tail) := by
      rw [← followedBy_line, ← line]
      exact (List.takeWhile_prefix _).trans ((List.takeWhile_prefix _).trans (List.takeWhile_prefix _))
    -- the hashes stand in front of the transactions and so of the carriage return
    have same := (split_cut (followedBy_free checked.previousHash checked.merkleRoot tail) start found.split).1
    have root : read.merkleRoot = block.merkleRoot := by
      rw [← found.merkleRoot, same]
      exact CString.ofMemory_bytes _
    rw [transactions, ← sound.root, root, checked.root]

/-- A file in which the C side reads what the script reads: every line fits into the
buffer, with no carriage return inside and no comma at the end, and the records keep to
the limits of a block and to the order of time. -/
structure Regular (contents : Bytes) : Prop where
  short : ∀ line ∈ linesOf 10 contents, line.text.length < maxBlockCsvLineLength - 1
  unreturned : ∀ line ∈ linesOf 10 contents, 13 ∉ stripReturn line.text
  unfollowed : ∀ line ∈ linesOf 10 contents, (stripReturn line.text).getLast? ≠ some 44
  sized : ∀ record ∈ recordsOf (linesOf 10 contents).tail, WellSized (transactionsOf record)
  ordered : ((recordsOf (linesOf 10 contents).tail).map timestampOf).IsChain (· ≤ ·)

instance (contents : Bytes) : Decidable (Regular contents) :=
  decidable_of_iff ((∀ line ∈ linesOf 10 contents, line.text.length < maxBlockCsvLineLength - 1 ∧
        13 ∉ stripReturn line.text ∧ (stripReturn line.text).getLast? ≠ some 44) ∧
      (∀ record ∈ recordsOf (linesOf 10 contents).tail, WellSized (transactionsOf record)) ∧
      ((recordsOf (linesOf 10 contents).tail).map timestampOf).IsChain (· ≤ ·))
    ⟨fun rules => ⟨fun line member => (rules.1 line member).1, fun line member => (rules.1 line member).2.1,
        fun line member => (rules.1 line member).2.2, rules.2.1, rules.2.2⟩,
      fun regular => ⟨fun line member => ⟨regular.short line member, regular.unreturned line member,
        regular.unfollowed line member⟩, regular.sized, regular.ordered⟩⟩

/-- An accepted file, split into lines, with the blocks that the script reads. -/
structure Spells (sha256 : HashFunction) (contents : Bytes) (lines : List (Line UInt8)) (blocks : List Block) : Prop where
  found : ∃ header, linesOf 10 contents = ⟨header, true⟩ :: lines ∧ stripReturn header = blockchainCsvHeader
  reads : List.Forall₂ (Reads sha256) (textsOf lines) blocks
  checked : CheckedFrom sha256 0 none blocks
  some : blocks ≠ []

private theorem textsOf_member {lines : List (Line UInt8)} {text : Bytes} (member : text ∈ textsOf lines) :
    ∃ line ∈ lines, stripReturn line.text = text := by
  obtain ⟨inside, _⟩ := List.mem_filter.mp member
  exact List.mem_map.mp inside

/-- An accepted file spells the blocks that the script reads. -/
theorem accepted_spells {contents : Bytes} {count : Nat} (terminated : 0 ∉ contents)
    (accepted : verifyBlockchain sha256 contents = .ok count) : ∃ lines blocks, Spells sha256 contents lines blocks := by
  obtain ⟨header, lines, blocks, found, title, records, checked, some, _⟩ := (verifyBlockchain_ok sha256 terminated).mp accepted
  refine ⟨lines, blocks, ⟨⟨header, found, title⟩, ?_, checked, some⟩⟩
  have letters {letter : UInt8} (clean : ∀ line ∈ linesOf 10 contents, letter ∉ line.text) :
      ∀ text ∈ textsOf lines, letter ∉ text := by
    intro text member inside
    obtain ⟨line, listed, rfl⟩ := textsOf_member member
    apply clean line
    · rw [found]
      exact List.mem_cons_of_mem _ listed
    · exact (stripReturn_start line.text).subset inside
  have unbroken : ∀ text ∈ textsOf lines, 10 ∉ text := letters linesOf_clean
  have ended := letters fun line member zero => terminated (linesOf_subset line member zero)
  obtain ⟨length, pairs⟩ := List.forall₂_iff_zip.mp (pairs_map.mpr (recordsOf_texts lines ▸ records))
  refine List.forall₂_iff_zip.mpr ⟨length, ?_⟩
  intro text block pair
  obtain ⟨listed, member⟩ := List.of_mem_zip pair
  exact ⟨pairs pair, checkedFrom_member sha256 checked member, unbroken text listed, ended text listed⟩

section Files

variable {contents : Bytes} {lines : List (Line UInt8)} {blocks : List Block}

namespace Spells

theorem line (spells : Spells sha256 contents lines blocks) {text : Bytes} (member : text ∈ textsOf lines) :
    ∃ line ∈ linesOf 10 contents, stripReturn line.text = text := by
  obtain ⟨header, found, _⟩ := spells.found
  obtain ⟨line, listed, same⟩ := textsOf_member member
  exact ⟨line, by rw [found]; exact List.mem_cons_of_mem _ listed, same⟩

theorem records (spells : Spells sha256 contents lines blocks) :
    recordsOf (linesOf 10 contents).tail = blocks.map recordOf := by
  obtain ⟨header, found, _⟩ := spells.found
  rw [found, List.tail_cons, recordsOf_texts, ← pairs_map]
  exact spells.reads.imp fun text block reads => reads.record

theorem whole (spells : Spells sha256 contents lines blocks) :
    ∀ block ∈ blocks, rejoined block.transactions = block.transactions := by
  intro block member
  obtain ⟨position, previous, checked⟩ := checkedFrom_member sha256 spells.checked member
  exact checked.whole

/-- What holds of the header, of an empty line and of every other line holds of all lines. -/
theorem all_lines (spells : Spells sha256 contents lines blocks) (holds : Bytes → Prop) (header : holds blockchainCsvHeader)
    (blank : holds []) (texts : ∀ text ∈ textsOf lines, holds text) :
    ∀ line ∈ linesOf 10 contents, holds (stripReturn line.text) := by
  obtain ⟨first, found, title⟩ := spells.found
  intro line member
  rw [found] at member
  rcases List.mem_cons.mp member with rfl | later
  · rwa [title]
  · by_cases none : stripReturn line.text = []
    · rwa [none]
    · apply texts
      exact List.mem_filter.mpr ⟨List.mem_map_of_mem later, decide_eq_true none⟩

/-- The script counts the blocks without its numbers wrapping around. -/
theorem bounded (spells : Spells sha256 contents lines blocks) : blocks.length ≤ intmaxBound := by
  obtain ⟨earlier, last, rfl⟩ := (List.eq_nil_or_concat' blocks).resolve_left spells.some
  have small := ((checkedFrom_append sha256).mp spells.checked).2.small
  rw [List.length_append, List.length_singleton]
  omega

theorem sized (spells : Spells sha256 contents lines blocks) :
    (∀ record ∈ recordsOf (linesOf 10 contents).tail, WellSized (transactionsOf record)) ↔
      ∀ block ∈ blocks, WellSized block.transactions := by
  rw [spells.records, List.forall_mem_map]
  refine forall₂_congr fun block member => ?_
  rw [transactionsOf_recordOf (spells.whole block member)]

theorem ordered (spells : Spells sha256 contents lines blocks) :
    ((recordsOf (linesOf 10 contents).tail).map timestampOf).IsChain (· ≤ ·) ↔
      blocks.IsChain fun previous current => previous.timestamp ≤ current.timestamp := by
  rw [spells.records, List.map_map, List.isChain_map]
  simp only [Function.comp_apply, timestampOf_recordOf, UInt64.le_iff_toNat_le]

/-- The buffer shows the header and the lines that the script reads. -/
theorem carries (spells : Spells sha256 contents lines blocks) (terminated : 0 ∉ contents)
    (short : ∀ line ∈ linesOf 10 contents, line.text.length < maxBlockCsvLineLength - 1) (read : List Block) :
    FileCarries contents read ↔
      ((textsOf lines).map fun text => (blockFromCsv (readLine text)).result) = read.map .ok ∧ read ≠ [] := by
  obtain ⟨header, found, title⟩ := spells.found
  have clean : ∀ line ∈ linesOf 10 contents, 0 ∉ line.text := fun line member zero => terminated (linesOf_subset line member zero)
  have filled := fgetsAll_short short
  rw [found] at clean filled
  have later := fun line member => clean line (List.mem_cons_of_mem _ member)
  have shown : ∀ text ∈ textsOf lines, readLine text ≠ CString.text "" := by
    intro text member
    obtain ⟨block, _, reads⟩ := pairs_left spells.reads text member
    exact reads.shown
  have texts : (blockLines (lines.map (Line.chunk 10))).map (fun line => (blockFromCsv line).result) =
      (textsOf lines).map fun text => (blockFromCsv (readLine text)).result := by
    rw [blockLines_texts later shown, List.map_map]
    rfl
  constructor
  · intro carries
    obtain ⟨first, others, same, _, _, inner⟩ := carries.lines
    rw [filled, List.map_cons] at same
    refine ⟨?_, carries.some⟩
    rw [← texts, (List.cons.inj same).2]
    exact inner.parsed
  · intro rules
    obtain ⟨parsed, some⟩ := rules
    refine ⟨⟨_, _, filled, exceedsBuffer_line (clean _ (by simp)), ?_, ?_, texts.trans parsed⟩, some⟩
    · have plain : beforeLineBreak blockchainCsvHeader = blockchainCsvHeader :=
        beforeLineBreak_same fun byte member => ⟨(header_letters byte member).1, (header_letters byte member).2.1⟩
      rw [chunkLine_line (clean _ (by simp)), title, plain]
      exact CString.bytes_ofMemory fun zero => (header_letters 0 zero).2.2 rfl
    · intro chunk member
      obtain ⟨line, listed, rfl⟩ := List.mem_map.mp member
      exact exceedsBuffer_line (later line listed)

end Spells

/-- On a regular file both sides read the same blocks, and these are a valid chain. -/
theorem regular_loads (spells : Spells sha256 contents lines blocks) (terminated : 0 ∉ contents) (regular : Regular contents) :
    FileCarries contents blocks ∧ ValidChain sha256 blocks := by
  have sized := spells.sized.mp regular.sized
  refine ⟨(spells.carries terminated regular.short blocks).mpr ⟨?_, spells.some⟩, ?_⟩
  · obtain ⟨length, pairs⟩ := List.forall₂_iff_zip.mp spells.reads
    apply pairs_map.mp
    refine List.forall₂_iff_zip.mpr ⟨length, ?_⟩
    intro text block pair
    obtain ⟨listed, member⟩ := List.of_mem_zip pair
    obtain ⟨line, inside, rfl⟩ := spells.line listed
    apply ((pairs pair).parsed (regular.unreturned line inside)).mpr
    exact ⟨rfl, regular.unfollowed line inside, sized block member⟩
  · apply And.left
    apply (checkedFrom_validChain spells.bounded).mpr
    exact ⟨spells.checked, spells.some, sized, spells.ordered.mp regular.ordered⟩

/-- A file from which a valid chain is loaded is regular, or one of its lines has two readings. -/
theorem loads_regular (spells : Spells sha256 contents lines blocks) (terminated : 0 ∉ contents) {read : List Block}
    (carries : FileCarries contents read) (valid : ValidChain sha256 read) :
    Regular contents ∨ ∃ line ∈ (linesOf 10 contents).tail, TwoReadings sha256 (stripReturn line.text) := by
  have short := carries_short carries
  have parsed := ((spells.carries terminated short read).mp carries).1
  refine or_iff_not_imp_right.mpr fun single => ?_
  have tail : (linesOf 10 contents).tail = lines := by
    obtain ⟨header, found, _⟩ := spells.found
    rw [found, List.tail_cons]
  -- no line has a carriage return inside, because the C side has read all of them
  have unreturned : ∀ text ∈ textsOf lines, 13 ∉ text := by
    intro text member returned
    obtain ⟨block, _, reads⟩ := pairs_left spells.reads text member
    obtain ⟨other, inside, found⟩ := pairs_left (pairs_map.mpr parsed) text member
    obtain ⟨line, listed, rfl⟩ := textsOf_member member
    exact single ⟨line, tail ▸ listed, reads.returned returned found (valid.sound other inside)⟩
  have facts : List.Forall₂ (fun text block => (blockFromCsv (readLine text)).result = .ok block ∧
      text.getLast? ≠ some 44 ∧ WellSized block.transactions) (textsOf lines) blocks := by
    obtain ⟨length, pairs⟩ := List.forall₂_iff_zip.mp spells.reads
    refine List.forall₂_iff_zip.mpr ⟨length, ?_⟩
    intro text block pair
    have member := (List.of_mem_zip pair).1
    obtain ⟨other, _, found⟩ := pairs_left (pairs_map.mpr parsed) text member
    obtain ⟨rfl, last, sized⟩ := ((pairs pair).parsed (unreturned text member)).mp found
    exact ⟨found, last, sized⟩
  have same : read = blocks := by
    apply List.map_injective_iff.mpr (fun _ _ equal => Except.ok.inj equal)
    rw [← parsed, ← pairs_map]
    exact facts.imp fun text block fact => fact.1
  rw [same] at valid
  obtain ⟨_, _, sized, ordered⟩ := (checkedFrom_validChain spells.bounded).mp ⟨valid, spells.whole⟩
  refine ⟨short, ?_, ?_, spells.sized.mpr sized, spells.ordered.mpr ordered⟩
  · apply spells.all_lines (fun text => 13 ∉ text)
    · exact fun returned => (header_letters 13 returned).1 rfl
    · exact List.not_mem_nil
    · exact unreturned
  · apply spells.all_lines (fun text => text.getLast? ≠ some 44)
    · decide +kernel
    · decide
    · intro text member
      obtain ⟨block, _, _, last, _⟩ := pairs_left facts text member
      exact last

end Files

/-- The C side loads a valid chain from the file. -/
def Loads (sha256 : HashFunction) (contents : Bytes) (heap : Heap) : Prop :=
  ∃ chain, (blockchainLoadCsv contents heap).1 = .ok chain ∧ (validateBlockchain sha256 chain.blocks).result = .ok ()

/-- From a file that the script accepts the C side loads a valid chain if the file is
regular. Otherwise it does so only where a line with a carriage return inside has two
readings with the same Merkle root. -/
theorem verified_file_loads (sha256 : HashFunction) {contents : Bytes} {heap : Heap} {count : Nat} (terminated : 0 ∉ contents)
    (accepted : verifyBlockchain sha256 contents = .ok count)
    (granted : (blockchainLoadCsv contents heap).2.refused = false) :
    (Regular contents → Loads sha256 contents heap) ∧
      (Loads sha256 contents heap →
        Regular contents ∨ ∃ line ∈ (linesOf 10 contents).tail, TwoReadings sha256 (stripReturn line.text)) := by
  obtain ⟨lines, blocks, spells⟩ := accepted_spells terminated accepted
  constructor
  · intro regular
    obtain ⟨carries, valid⟩ := regular_loads spells terminated regular
    obtain ⟨chain, loaded, same⟩ := ((loadCsv_ensures contents).granted heap granted).2 blocks carries
    refine ⟨chain, loaded, ?_⟩
    rw [same, blockchain_ok]
    exact valid
  · intro loads
    obtain ⟨chain, loaded, valid⟩ := loads
    rw [blockchain_ok] at valid
    exact loads_regular spells terminated ((loadCsv_ensures contents).always heap chain loaded) valid

section Written

theorem csvLine_fits {block : Block} (writable : Writable block) : (csvLine block).length < maxBlockCsvLineLength - 1 := by
  have joined := joinedLength_le writable.sized
  rw [csvLine_length writable.previousHash writable.merkleRoot]
  simp only [maxTransactionsPerBlock, maxTransactionLength, sha256HexLength, maxBlockCsvLineLength] at joined ⊢
  omega

/-- The buffer shows a clean line as it was written. -/
private theorem chunkLine_written {text : Bytes} (terminated : 0 ∉ text) (clean : ∀ byte ∈ text, byte ≠ 13 ∧ byte ≠ 10) :
    chunkLine (Line.chunk 10 ⟨text, true⟩) = .ofMemory text := by
  have unreturned : stripReturn text = text := stripReturn_same fun mark => (clean 13 mark).1 rfl
  rw [chunkLine_line terminated, unreturned, beforeLineBreak_same clean]

private theorem blockLines_written {blocks : List Block} (writable : ∀ block ∈ blocks, Writable block) :
    blockLines ((blocks.map fun block => (⟨(csvLine block).bytes, true⟩ : Line UInt8)).map (Line.chunk 10)) =
      blocks.map csvLine := by
  have shown : ((blocks.map fun block => (⟨(csvLine block).bytes, true⟩ : Line UInt8)).map (Line.chunk 10)).map chunkLine =
      blocks.map csvLine := by
    rw [List.map_map, List.map_map]
    apply List.map_congr_left
    intro block member
    rw [Function.comp_apply, Function.comp_apply,
      chunkLine_written (csvLine block).terminated (csvLine_letters (writable block member)), CString.ofMemory_bytes]
  rw [blockLines, shown]
  apply List.filter_eq_self.mpr
  intro line member
  obtain ⟨block, _, rfl⟩ := List.mem_map.mp member
  apply decide_eq_true
  exact fun empty => csvLine_visible block (congrArg CString.bytes empty)

/-- The file written for some blocks carries these blocks if none of them is split differently. -/
theorem fileOf_carries {blocks : List Block} (some : blocks ≠ []) (writable : ∀ block ∈ blocks, Writable block)
    (whole : ∀ block ∈ blocks, rejoined block.transactions = block.transactions) : FileCarries (fileOf blocks) blocks := by
  have lines := linesOf_fileOf writable
  have plainHeader : 0 ∉ blockchainCsvHeader := fun zero => (header_letters 0 zero).2.2 rfl
  have short : ∀ line ∈ linesOf 10 (fileOf blocks), line.text.length < maxBlockCsvLineLength - 1 := by
    intro line member
    rw [lines] at member
    rcases List.mem_cons.mp member with rfl | written
    · decide +kernel
    · obtain ⟨block, inside, rfl⟩ := List.mem_map.mp written
      exact csvLine_fits (writable block inside)
  have filled := fgetsAll_short short
  rw [lines, List.map_cons] at filled
  refine ⟨⟨_, _, filled, exceedsBuffer_line plainHeader, ?_, ?_, ?_⟩, some⟩
  · rw [chunkLine_written plainHeader fun byte member => ⟨(header_letters byte member).1, (header_letters byte member).2.1⟩]
    exact CString.bytes_ofMemory plainHeader
  · intro chunk member
    obtain ⟨line, written, rfl⟩ := List.mem_map.mp member
    obtain ⟨block, _, rfl⟩ := List.mem_map.mp written
    exact exceedsBuffer_line (csvLine block).terminated
  · rw [blockLines_written writable, List.map_map]
    apply List.map_congr_left
    intro block member
    have fine := writable block member
    exact readWhole fine.previousHash fine.merkleRoot fine.sized (csvLine_letters fine) (whole block member)

private theorem loadLines_grants {chunks : List (Chunk UInt8)} (short : ∀ chunk ∈ chunks, chunk.letters.length < 2 ^ 47)
    {chain : Blockchain} (capacity : chain.capacity ≤ 2 * chain.blocks.length + initialBlockchainCapacity)
    (few : chain.blocks.length + chunks.length < 2 ^ 48) : Grants (loadLines chunks chain) fun _ => True := by
  induction chunks generalizing chain with
  | nil => exact .pure trivial
  | cons chunk rest ih =>
    rw [List.length_cons] at few
    have later := fun chunk member => short chunk (List.mem_cons_of_mem _ member)
    have line : (chunkLine chunk).length < ptrdiffMax := by
      have cut : (chunkLine chunk).bytes <+: chunk.letters :=
        (List.takeWhile_prefix _).trans ((List.takeWhile_prefix _).trans (List.takeWhile_prefix _))
      have bound := cut.length_le
      have small := short chunk (by simp)
      simp only [CString.length, ptrdiffMax] at bound ⊢
      omega
    simp only [loadLines]
    split
    · exact .pure trivial
    · split
      · exact ih later capacity (by omega)
      · apply (attempt_grants (within_blockFromCsv (by decide) line)).bind
        intro result _
        cases result with
        | error error => exact .pure trivial
        | ok block =>
          apply (grow_grants ⟨capacity, by omega⟩ block).bind
          intro outcome grown
          obtain ⟨result, next⟩ := outcome
          cases result with
          | error error => exact .pure trivial
          | ok done => exact ih later grown.2 (by have bound := grown.1; simp only at bound; omega)

/-- A file of moderate size is loaded without a request that is too large. -/
theorem load_grants {contents : Bytes} (small : contents.length < 2 ^ 47) : Grants (blockchainLoadCsv contents) fun _ => True := by
  obtain ⟨few, short⟩ := chunks_bounded 10 (maxBlockCsvLineLength - 1) contents
  unfold blockchainLoadCsv
  rw [fgetsAll]
  cases chunks : chunksOf 10 (maxBlockCsvLineLength - 1) contents with
  | nil => exact .pure trivial
  | cons header lines =>
    rw [chunks, List.length_cons] at few
    have later : ∀ chunk ∈ lines, chunk.letters.length < 2 ^ 47 := by
      intro chunk member
      have bound := short chunk (by rw [chunks]; exact List.mem_cons_of_mem _ member)
      omega
    dsimp only
    split
    · exact .pure trivial
    · split
      · exact .pure trivial
      · have empty : blockchainInit.blocks.length = 0 := rfl
        apply (loadLines_grants later (by decide) (by omega)).bind
        intro result _
        cases result with
        | error error => exact .pure trivial
        | ok loaded =>
          dsimp only
          split
          · exact .pure trivial
          · exact .pure trivial

end Written

theorem fixture_writable : ∀ block ∈ [genesisBlock, paymentBlock], Writable block :=
  ((saveCsv_ensures fixtureChain).always openHeap _ fixtureChain_saved).1

theorem fixture_loads : Loads sha256Bytes (fileOf [genesisBlock, paymentBlock]) openHeap := by
  have clear : ∀ genesis ∈ [genesisBlock, paymentBlock].head?, Clear genesis.transactions := by
    intro genesis first
    cases first
    exact ⟨by decide +kernel, by decide +kernel⟩
  have accepted : verifyBlockchain sha256Bytes (fileOf fixtureChain.blocks) = .ok fixtureChain.count :=
    clear_verified fixture_valid fixture_writable clear
  have granted : (blockchainLoadCsv (fileOf [genesisBlock, paymentBlock]) openHeap).2.refused = false :=
    congrArg Supply.refused (load_grants (by decide +kernel)).supply
  refine (verified_file_loads sha256Bytes (fileOf_terminated _) accepted granted).1 ?_
  decide +kernel

/-- A payment that was mined before the genesis block. -/
def earlyBlock : Block := { paymentBlock with timestamp := 0 }

/-- The script accepts a chain that goes back in time, the C side does not. -/
theorem earlyBlock_verified :
    (∃ count, verifyBlockchain sha256Bytes (fileOf [genesisBlock, earlyBlock]) = .ok count) ∧
      0 ∉ fileOf [genesisBlock, earlyBlock] ∧
      (blockchainLoadCsv (fileOf [genesisBlock, earlyBlock]) openHeap).2.refused = false ∧
      ¬ Loads sha256Bytes (fileOf [genesisBlock, earlyBlock]) openHeap := by
  have writable : ∀ block ∈ [genesisBlock, earlyBlock], Writable block := by
    intro block member
    have payment := fixture_writable paymentBlock (by simp)
    rcases List.mem_pair.mp member with rfl | rfl
    · exact fixture_writable genesisBlock (by simp)
    · exact ⟨payment.previousHash, payment.merkleRoot, payment.sized, payment.plain⟩
  have clear : ∀ block ∈ [genesisBlock, earlyBlock], ∀ transaction ∈ block.transactions, 44 ∉ transaction.bytes := by
    decide +kernel
  have whole : ∀ block ∈ [genesisBlock, paymentBlock], rejoined block.transactions = block.transactions := by decide +kernel
  have wholeEarly : ∀ block ∈ [genesisBlock, earlyBlock], rejoined block.transactions = block.transactions := by
    simpa [earlyBlock] using whole
  obtain ⟨genesis, payment, _⟩ := ((checkedFrom_validChain (by decide)).mp ⟨fixture_valid, whole⟩).1
  -- no rule of the script for the payment looks at its time
  have early : Checked sha256Bytes 1 (some genesisBlock) earlyBlock :=
    ⟨payment.previousHash, payment.merkleRoot, payment.whole, payment.visible, payment.small, payment.index, payment.matched,
      payment.root, payment.link⟩
  refine ⟨⟨2, (verify_fileOf writable).mpr ⟨[genesisBlock, earlyBlock], ?_, ⟨genesis, early, trivial⟩, by simp, rfl⟩⟩,
    fileOf_terminated _, congrArg Supply.refused (load_grants (by decide +kernel)).supply, ?_⟩
  · apply List.map_congr_left
    intro block member
    exact readRecord_line (writable block member).previousHash (writable block member).merkleRoot (clear block member)
  · intro loads
    obtain ⟨chain, loaded, valid⟩ := loads
    have carries := (loadCsv_ensures _).always openHeap chain loaded
    rw [carries.unique (fileOf_carries (by simp) writable wholeEarly), blockchain_ok] at valid
    have follows := List.isChain_pair.mp valid.linked
    exact absurd follows.timestamp (by decide)

end ProcessChain.Proofs.Loading
