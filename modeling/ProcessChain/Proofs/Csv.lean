import ProcessChain.Block

/-! What `block_to_csv` writes and what `block_from_csv` accepts. -/

namespace ProcessChain.Proofs.Csv
open Lib Lib.FailStop

/-- A letter that stands for a digit and for nothing else in front of a number. -/
structure DigitLetter (base digit : Nat) (letter : UInt8) : Prop where
  space : isSpace letter = false
  minus : letter ≠ 45
  plus : letter ≠ 43
  mark : letter ≠ 120 ∧ letter ≠ 88
  value : digitOf base letter = some digit

theorem hexDigit_letter : ∀ digit < 16, DigitLetter 16 digit (hexDigit digit) := by
  have plain : ∀ digit < 16, isSpace (hexDigit digit) = false ∧ hexDigit digit ≠ 45 ∧ hexDigit digit ≠ 43 ∧
      (hexDigit digit ≠ 120 ∧ hexDigit digit ≠ 88) ∧ digitOf 16 (hexDigit digit) = some digit := by decide
  intro digit small
  obtain ⟨space, minus, plus, mark, value⟩ := plain digit small
  exact ⟨space, minus, plus, mark, value⟩

section Digits

variable {base : Nat} {letterOf : Nat → UInt8} {digits : List Nat}

theorem filterMap_digits (plain : ∀ digit ∈ digits, DigitLetter base digit (letterOf digit)) :
    (digits.map letterOf).filterMap (digitOf base) = digits := by
  induction digits with
  | nil => rfl
  | cons digit rest ih =>
    have here := plain digit (by simp)
    simp [here.value, ih fun digit member => plain digit (by simp [member])]

/-- A text of digits is read as the number that it spells. -/
theorem scan_digits (some : digits ≠ []) (plain : ∀ digit ∈ digits, DigitLetter base digit (letterOf digit)) :
    scanNumeral base (digits.map letterOf) = Option.some ⟨false, numeral base digits, []⟩ := by
  have allDigits : (digits.map letterOf).takeWhile (fun byte => (digitOf base byte).isSome) = digits.map letterOf := by
    simp only [List.takeWhile_eq_self_iff, List.mem_map, forall_exists_index, and_imp, forall_apply_eq_imp_iff₂]
    intro digit member
    simp [(plain digit member).value]
  have unspaced : (digits.map letterOf).dropWhile isSpace = digits.map letterOf := by
    obtain ⟨digit, rest, rfl⟩ := List.exists_cons_of_ne_nil some
    simp [(plain digit (by simp)).space]
  have unsigned : takeSign (digits.map letterOf) = (false, digits.map letterOf) := by
    obtain ⟨digit, rest, rfl⟩ := List.exists_cons_of_ne_nil some
    have minus := (plain digit (by simp)).minus
    have plus := (plain digit (by simp)).plus
    simp only [List.map_cons, takeSign]
    split <;> simp_all
  have unmarked : dropHexMark base (digits.map letterOf) = digits.map letterOf := by
    unfold dropHexMark
    split
    next mark digit rest same =>
      obtain ⟨source, member, rfl⟩ := List.mem_map.mp (same ▸ (by simp) : mark ∈ digits.map letterOf)
      simp [(plain source member).mark, same]
    next => rfl
  simp only [scanNumeral, unspaced, unsigned, unmarked, allDigits, List.map_eq_nil_iff, some, if_false,
    filterMap_digits plain, List.drop_length]

end Digits

/-- Sixteen hexadecimal digits are read back as the number they were printed from. -/
theorem parse_hex16 (value : UInt64) : (parseHexU64 (hex16 value)).result = .ok value := by
  have digits : fixedDigits 16 16 value.toNat ≠ [] := by
    apply List.ne_nil_of_length_pos
    rw [fixedDigits_length]
    decide
  have bound : value.toNat < 16 ^ 16 := value.toNat_lt
  have scanned : scanNumeral 16 (hex16 value).bytes = some ⟨false, value.toNat, []⟩ := by
    have plain := fun digit member => hexDigit_letter digit (fixedDigits_lt (by decide) 16 value.toNat digit member)
    rw [hex16_bytes, scan_digits digits plain, numeral_fixedDigits, Nat.mod_eq_of_lt bound]
  have inRange : ¬ ullongMax < value.toNat := by
    simp only [ullongMax]
    omega
  simp only [parseHexU64, scanned, Numeral.toULongLong, inRange, if_false, result_bind_eq_ok, result_failIf_eq_ok]
  simp

/-- Transaction lists that fit in a block. -/
structure WellSized (transactions : List CString) : Prop where
  some : transactions ≠ []
  few : transactions.length ≤ maxTransactionsPerBlock
  short : ∀ transaction ∈ transactions, 0 < transaction.length ∧ transaction.length < maxTransactionLength

instance (transactions : List CString) : Decidable (WellSized transactions) :=
  decidable_of_iff (transactions ≠ [] ∧ transactions.length ≤ maxTransactionsPerBlock ∧
      ∀ transaction ∈ transactions, 0 < transaction.length ∧ transaction.length < maxTransactionLength)
    ⟨fun rules => ⟨rules.1, rules.2.1, rules.2.2⟩, fun sized => ⟨sized.some, sized.few, sized.short⟩⟩

private theorem addTransaction_ok {block final : Block} {transaction : CString} :
    (blockAddTransaction block transaction).result = .ok final ↔
      (0 < transaction.length ∧ transaction.length < maxTransactionLength) ∧
        block.transactions.length < maxTransactionsPerBlock ∧
        final = { block with transactions := block.transactions ++ [transaction] } := by
  simp only [blockAddTransaction, malloc, result_bind_eq_ok, result_failIf_eq_ok, result_request, result_pure]
  constructor
  · intro passed
    obtain ⟨_, sized, _, room, _, _, _, _, same⟩ := passed
    exact ⟨by omega, by omega, (Except.ok.inj same).symm⟩
  · intro rules
    obtain ⟨sized, room, rfl⟩ := rules
    exact ⟨(), by omega, (), by omega, (), trivial, (), trivial, rfl⟩

theorem addTransactions_ok {block final : Block} {transactions : List CString} :
    (addTransactions block transactions).result = .ok final ↔
      final = { block with transactions := block.transactions ++ transactions } ∧
        (∀ transaction ∈ transactions, 0 < transaction.length ∧ transaction.length < maxTransactionLength) ∧
        (transactions ≠ [] → block.transactions.length + transactions.length ≤ maxTransactionsPerBlock) := by
  induction transactions generalizing block with
  | nil => simp [addTransactions, eq_comm]
  | cons transaction rest ih =>
    have step : addTransactions block (transaction :: rest) =
        blockAddTransaction block transaction >>= fun block => addTransactions block rest := rfl
    simp only [step, result_bind_eq_ok, addTransaction_ok, ih]
    constructor
    · intro passed
      obtain ⟨_, ⟨sized, room, rfl⟩, rfl, others, few⟩ := passed
      refine ⟨by simp, by simpa using ⟨sized, others⟩, fun _ => ?_⟩
      by_cases none : rest = []
      · simp only [none, List.length_cons, List.length_nil]
        omega
      · have bound := few none
        simp only [List.length_append, List.length_cons, List.length_nil] at bound ⊢
        omega
    · intro rules
      obtain ⟨rfl, sized, few⟩ := rules
      have bound := few (by simp)
      simp only [List.length_cons] at bound
      refine ⟨_, ⟨sized transaction (by simp), by omega, rfl⟩, by simp, fun text member => sized text (by simp [member]), ?_⟩
      intro _
      simp only [List.length_append, List.length_cons, List.length_nil]
      omega

/-- A deep copy, when it succeeds, is the block itself. -/
theorem copy_same {block copy : Block} (copied : (blockCopy block).result = .ok copy) : copy = block := by
  simpa using (addTransactions_ok.mp copied).1

theorem copy_succeeds {block : Block} (sized : WellSized block.transactions) : (blockCopy block).result = .ok block := by
  apply addTransactions_ok.mpr
  exact ⟨by simp, sized.short, fun _ => by simpa using sized.few⟩

theorem hash_length {hash : CString} (lowercase : isLowercaseHexHash hash = true) : hash.length = sha256HexLength := by
  simp only [isLowercaseHexHash, Bool.and_eq_true, beq_iff_eq] at lowercase
  exact lowercase.1

theorem hash_letters {hash : CString} (lowercase : isLowercaseHexHash hash = true) :
    ∀ byte ∈ hash.bytes, byte ≠ 44 ∧ byte ≠ 10 ∧ byte ≠ 13 := by
  simp only [isLowercaseHexHash, Bool.and_eq_true, List.all_eq_true, Bool.or_eq_true, decide_eq_true_eq] at lowercase
  intro byte member
  have range := lowercase.2 byte member
  refine ⟨?_, ?_, ?_⟩ <;> rintro rfl <;> revert range <;> decide

theorem hex16_letters (value : UInt64) : ∀ byte ∈ (hex16 value).bytes, byte ≠ 44 ∧ byte ≠ 10 ∧ byte ≠ 13 := by
  have letters : ∀ digit < 16, hexDigit digit ≠ 44 ∧ hexDigit digit ≠ 10 ∧ hexDigit digit ≠ 13 := by decide
  intro byte member
  rw [hex16_bytes] at member
  obtain ⟨digit, inside, rfl⟩ := List.mem_map.mp member
  exact letters digit (fixedDigits_lt (by decide) _ _ digit inside)

theorem join_length (transactions : List CString) :
    (CString.join doubleColon transactions).length = joinedLength transactions := by
  fun_induction CString.join doubleColon transactions with
  | case1 => rfl
  | case2 last => simp [joinedLength]
  | case3 first next rest ih =>
    have two : doubleColon.bytes.length = 2 := by decide
    simp only [CString.length] at ih
    simp only [CString.length, CString.bytes_append, List.length_append, ih, two, joinedLength, List.map_cons,
      List.sum_cons, List.length_cons]
    omega

theorem joinedLength_le {transactions : List CString} (sized : WellSized transactions) :
    joinedLength transactions ≤ maxTransactionsPerBlock * (maxTransactionLength - 1) + 2 * (maxTransactionsPerBlock - 1) := by
  have bounded (transactions : List CString) (short : ∀ transaction ∈ transactions, transaction.length < maxTransactionLength) :
      (transactions.map CString.length).sum ≤ transactions.length * (maxTransactionLength - 1) := by
    induction transactions with
    | nil => simp
    | cons transaction rest ih =>
      have here := short transaction (by simp)
      have later := ih fun transaction member => short transaction (by simp [member])
      simp only [List.map_cons, List.sum_cons, List.length_cons, Nat.succ_mul]
      omega
  have sum := bounded transactions fun transaction member => (sized.short transaction member).2
  have few := sized.few
  simp only [joinedLength, maxTransactionsPerBlock, maxTransactionLength] at few sum ⊢
  omega

def csvLine (block : Block) : CString := csvPrefix block ++ CString.join doubleColon block.transactions ++ quote

/-- Exactly the blocks that `block_to_csv` writes, and what it writes for them. -/
structure Writable (block : Block) : Prop where
  previousHash : isLowercaseHexHash block.previousHash = true
  merkleRoot : isLowercaseHexHash block.merkleRoot = true
  sized : WellSized block.transactions
  plain : ∀ transaction ∈ block.transactions, conflictsWithCsv transaction = false

private theorem csvPrefix_length {block : Block} (previousHash : isLowercaseHexHash block.previousHash = true)
    (merkleRoot : isLowercaseHexHash block.merkleRoot = true) :
    (csvPrefix block).length = 16 + 1 + 16 + 1 + sha256HexLength + 1 + sha256HexLength + 1 + 16 + 1 + 1 := by
  have one : comma.bytes.length = 1 ∧ quote.bytes.length = 1 := by decide
  have sixteen := fun value => hex16_length value
  have first := hash_length previousHash
  have second := hash_length merkleRoot
  simp only [CString.length] at sixteen first second
  simp only [csvPrefix, CString.length, CString.bytes_append, List.length_append, sixteen, first, second, one]

theorem csvLine_length {block : Block} (previousHash : isLowercaseHexHash block.previousHash = true)
    (merkleRoot : isLowercaseHexHash block.merkleRoot = true) :
    (csvLine block).length = 16 + 1 + 16 + 1 + sha256HexLength + 1 + sha256HexLength + 1 + 16 + 1 + 2 +
      joinedLength block.transactions := by
  have start := csvPrefix_length previousHash merkleRoot
  have middle := join_length block.transactions
  have one : quote.bytes.length = 1 := by decide
  simp only [CString.length] at start middle
  simp only [csvLine, CString.length, CString.bytes_append, List.length_append, start, middle, one]
  omega

theorem toCsv_ok {block : Block} {line : CString} :
    (blockToCsv block).result = .ok line ↔ Writable block ∧ line = csvLine block := by
  simp only [blockToCsv, malloc, result_bind_eq_ok, result_failIf_eq_ok, result_request, result_pure, result_forM_eq_ok]
  constructor
  · intro passed
    obtain ⟨_, hashes, _, few, _, transactions, _, _, _, _, _, _, same⟩ := passed
    simp only [Bool.or_eq_true, Bool.not_eq_true', not_or, Bool.not_eq_false] at hashes
    refine ⟨⟨hashes.1, hashes.2, ⟨fun none => few (Or.inl none), by omega, ?_⟩, ?_⟩, (Except.ok.inj same).symm⟩
    · intro transaction member
      obtain ⟨_, sized, _⟩ := transactions transaction member
      omega
    · intro transaction member
      obtain ⟨_, _, plain⟩ := transactions transaction member
      simpa using plain
  · intro rules
    obtain ⟨⟨previousHash, merkleRoot, sized, plain⟩, rfl⟩ := rules
    refine ⟨(), by simp [previousHash, merkleRoot], (), ?_, (), ?_, (), trivial, (), ?_, (), ?_, rfl⟩
    · have some := sized.some
      have few := sized.few
      simp only [some, false_or]
      omega
    · intro transaction member
      have short := sized.short transaction member
      exact ⟨(), by omega, by simp [plain transaction member]⟩
    · have start := csvPrefix_length previousHash merkleRoot
      omega
    · exact not_not.mpr (csvLine_length previousHash merkleRoot)

/-- What `block_from_csv` has checked when it returns a block. -/
structure Parsed (line : Bytes) (fields : Fields) (block : Block) : Prop where
  split : splitFields (beforeLineBreak line) = some fields
  opened : fields.transactions.head? = some 34
  long : 2 ≤ fields.transactions.length
  closed : fields.transactions.getLast? = some 34
  index : (parseHexU64 (.ofMemory fields.index)).result = .ok block.index
  timestamp : (parseHexU64 (.ofMemory fields.timestamp)).result = .ok block.timestamp
  previousHash : .ofMemory fields.previousHash = block.previousHash
  previousLowercase : isLowercaseHexHash block.previousHash = true
  merkleRoot : .ofMemory fields.merkleRoot = block.merkleRoot
  merkleLowercase : isLowercaseHexHash block.merkleRoot = true
  nonce : (parseHexU64 (.ofMemory fields.nonce)).result = .ok block.nonce
  quoted : fields.transactions.dropLast.tail ≠ []
  transactions : (pieces doubleColon.bytes fields.transactions.dropLast.tail).map .ofMemory = block.transactions
  sized : WellSized block.transactions

theorem pieces_some {text : Bytes} : pieces doubleColon.bytes text ≠ [] := by
  intro none
  have separable := pieces_separable (show doubleColon.bytes ≠ [] by decide) text
  rw [none] at separable
  exact separable

theorem fromCsv_ok {line : CString} {block : Block} :
    (blockFromCsv line).result = .ok block ↔ ∃ fields, Parsed line.bytes fields block := by
  simp only [blockFromCsv, malloc, result_bind_eq_ok, result_request]
  constructor
  · intro passed
    obtain ⟨_, _, parsed⟩ := passed
    split at parsed
    · cases parsed
    next fields split =>
      simp only [result_bind_eq_ok, result_failIf_eq_ok, addTransactions_ok, not_not, not_or] at parsed
      obtain ⟨_, opened, _, ⟨long, closed⟩, index, readIndex, timestamp, readTimestamp, _, previous, _, merkle, nonce,
        readNonce, _, quoted, rfl, sized, few⟩ := parsed
      refine ⟨fields, split, opened, by omega, closed, readIndex, readTimestamp, rfl, by simpa using previous, rfl,
        by simpa using merkle, readNonce, quoted, rfl, ?_, ?_, sized⟩
      · simpa using pieces_some
      · simpa using few (by simpa using pieces_some)
  · intro rules
    obtain ⟨fields, parsed⟩ := rules
    refine ⟨(), trivial, ?_⟩
    simp only [parsed.split, result_bind_eq_ok, result_failIf_eq_ok, addTransactions_ok, not_not, not_or, parsed.opened,
      parsed.closed, parsed.previousHash, parsed.merkleRoot, parsed.transactions]
    refine ⟨(), trivial, (), ⟨Nat.not_lt.mpr parsed.long, trivial⟩, _, parsed.index, _, parsed.timestamp, (),
      by simp [parsed.previousLowercase], (), by simp [parsed.merkleLowercase], _, parsed.nonce, (), parsed.quoted, by simp,
      parsed.sized.short, fun _ => by simpa using parsed.sized.few⟩

/-- A text without a comma is never a block. -/
theorem parsed_comma {line : CString} {block : Block} (parsed : (blockFromCsv line).result = .ok block) :
    44 ∈ line.bytes := by
  obtain ⟨fields, read⟩ := fromCsv_ok.mp parsed
  have split := read.split
  simp only [splitFields, Option.bind_eq_bind, Option.bind_eq_some_iff] at split
  obtain ⟨⟨before, after⟩, cut, _⟩ := split
  obtain ⟨same, _⟩ := cutAt_some (by decide) cut
  have inside : 44 ∈ beforeLineBreak line.bytes := by
    rw [same]
    exact List.mem_append_right before (List.mem_append_left after (by decide))
  exact (List.takeWhile_prefix _).subset inside

/-- The fields of the line written for a block. -/
def fieldsOf (block : Block) : Fields where
  index := (hex16 block.index).bytes
  timestamp := (hex16 block.timestamp).bytes
  previousHash := block.previousHash.bytes
  merkleRoot := block.merkleRoot.bytes
  nonce := (hex16 block.nonce).bytes
  transactions := 34 :: ((CString.join doubleColon block.transactions).bytes ++ [34])

theorem inner_transactions (block : Block) :
    (fieldsOf block).transactions.dropLast.tail = (CString.join doubleColon block.transactions).bytes := by
  rw [fieldsOf, ← List.cons_append, List.dropLast_concat, List.tail_cons]

/-- The fields written one after the other with commas between them. -/
def lineOf (fields : Fields) : Bytes :=
  fields.index ++ (comma.bytes ++ (fields.timestamp ++ (comma.bytes ++ (fields.previousHash ++ (comma.bytes ++
    (fields.merkleRoot ++ (comma.bytes ++ (fields.nonce ++ (comma.bytes ++ fields.transactions)))))))))

theorem csvLine_bytes (block : Block) : (csvLine block).bytes = lineOf (fieldsOf block) := by
  have mark : quote.bytes = [34] := by decide
  simp only [csvLine, csvPrefix, fieldsOf, lineOf, CString.bytes_append, List.append_assoc, mark, List.cons_append,
    List.nil_append]

/-- The first five fields contain no comma. -/
structure CommaFree (fields : Fields) : Prop where
  index : Free comma.bytes fields.index
  timestamp : Free comma.bytes fields.timestamp
  previousHash : Free comma.bytes fields.previousHash
  merkleRoot : Free comma.bytes fields.merkleRoot
  nonce : Free comma.bytes fields.nonce

theorem split_line {fields : Fields} (free : CommaFree fields) : splitFields (lineOf fields) = some fields := by
  have nonempty : comma.bytes ≠ [] := by decide
  simp only [splitFields, lineOf, Option.bind_eq_bind, Option.bind_some, Option.pure_def, cutAt_append nonempty free.index,
    cutAt_append nonempty free.timestamp, cutAt_append nonempty free.previousHash, cutAt_append nonempty free.merkleRoot,
    cutAt_append nonempty free.nonce]

/-- The fields put together again give the line, and they were cut at its first five commas. -/
theorem lineOf_split {line : Bytes} {fields : Fields} (split : splitFields line = some fields) :
    line = lineOf fields ∧ CommaFree fields := by
  have nonempty : comma.bytes ≠ [] := by decide
  simp only [splitFields, Option.bind_eq_bind, Option.bind_eq_some_iff, Option.pure_def, Option.some.injEq] at split
  obtain ⟨⟨index, rest⟩, found, ⟨timestamp, rest⟩, found₂, ⟨previousHash, rest⟩, found₃, ⟨merkleRoot, rest⟩, found₄,
    ⟨nonce, rest⟩, found₅, rfl⟩ := split
  obtain ⟨rfl, first⟩ := cutAt_some nonempty found
  obtain ⟨rfl, second⟩ := cutAt_some nonempty found₂
  obtain ⟨rfl, third⟩ := cutAt_some nonempty found₃
  obtain ⟨rfl, fourth⟩ := cutAt_some nonempty found₄
  obtain ⟨rfl, fifth⟩ := cutAt_some nonempty found₅
  exact ⟨rfl, first, second, third, fourth, fifth⟩

/-- The fields of a line that was cut off somewhere. -/
theorem split_cut {written fields : Fields} (free : CommaFree written) {cut : Bytes}
    (start : cut <+: lineOf written) (split : splitFields cut = some fields) :
    fields = { written with transactions := fields.transactions } ∧ fields.transactions <+: written.transactions := by
  have nonempty : comma.bytes ≠ [] := by decide
  simp only [splitFields, Option.bind_eq_bind, Option.bind_eq_some_iff, Option.pure_def, Option.some.injEq] at split
  obtain ⟨⟨index, rest⟩, found, ⟨timestamp, rest⟩, found₂, ⟨previousHash, rest⟩, found₃, ⟨merkleRoot, rest⟩, found₄,
    ⟨nonce, rest⟩, found₅, rfl⟩ := split
  obtain ⟨rfl, start⟩ := cutAt_cut nonempty free.index start found
  obtain ⟨rfl, start⟩ := cutAt_cut nonempty free.timestamp start found₂
  obtain ⟨rfl, start⟩ := cutAt_cut nonempty free.previousHash start found₃
  obtain ⟨rfl, start⟩ := cutAt_cut nonempty free.merkleRoot start found₄
  obtain ⟨rfl, start⟩ := cutAt_cut nonempty free.nonce start found₅
  exact ⟨rfl, start⟩

theorem commaFree {block : Block} (previousHash : isLowercaseHexHash block.previousHash = true)
    (merkleRoot : isLowercaseHexHash block.merkleRoot = true) : CommaFree (fieldsOf block) := by
  have free {field : Bytes} (letters : ∀ byte ∈ field, byte ≠ 44 ∧ byte ≠ 10 ∧ byte ≠ 13) : Free comma.bytes field :=
    free_of_disjoint (show comma.bytes ≠ [] by decide) fun member => (letters 44 member).1 rfl
  exact ⟨free (hex16_letters _), free (hex16_letters _), free (hash_letters previousHash), free (hash_letters merkleRoot),
    free (hex16_letters _)⟩

/-- A block is read from the fields that are written, whatever the last of them is. -/
theorem fromCsv_fields {line : CString} {fields : Fields} (free : CommaFree fields)
    (written : beforeLineBreak line.bytes = lineOf fields) {block : Block} :
    (blockFromCsv line).result = .ok block ↔ Parsed line.bytes fields block := by
  have split : splitFields (beforeLineBreak line.bytes) = some fields := by rw [written, split_line free]
  rw [fromCsv_ok]
  constructor
  · intro parsed
    obtain ⟨found, read⟩ := parsed
    cases read.split.symm.trans split
    exact read
  · intro read
    exact ⟨fields, read⟩

theorem plain_letters {transaction : CString} (plain : conflictsWithCsv transaction = false) :
    ∀ byte ∈ transaction.bytes, byte ≠ 34 ∧ byte ≠ 10 ∧ byte ≠ 13 := by
  simp only [conflictsWithCsv, Bool.or_eq_false_iff, List.contains_eq_mem, decide_eq_false_iff_not] at plain
  intro byte member
  exact ⟨fun same => plain.1.1.1 (same ▸ member), fun same => plain.1.2 (same ▸ member), fun same => plain.2 (same ▸ member)⟩

theorem join_letters {transactions : List CString} {bad : UInt8} (notColon : bad ∉ doubleColon.bytes)
    (clean : ∀ transaction ∈ transactions, bad ∉ transaction.bytes) :
    bad ∉ (CString.join doubleColon transactions).bytes := by
  fun_induction CString.join doubleColon transactions with
  | case1 =>
    intro member
    cases member
  | case2 last => exact clean last (by simp)
  | case3 first next rest ih =>
    have here := clean first (by simp)
    have later := ih fun transaction member => clean transaction (by simp [member])
    simp [here, notColon, later]

/-- A line break in a written line is one in its transactions. -/
theorem lineBreak_inside {block : Block} (previousHash : isLowercaseHexHash block.previousHash = true)
    (merkleRoot : isLowercaseHexHash block.merkleRoot = true) {feed : UInt8} (breaks : feed = 13 ∨ feed = 10)
    (member : feed ∈ (csvLine block).bytes) : feed ∈ (CString.join doubleColon block.transactions).bytes := by
  have refuted {field : Bytes} (letters : ∀ byte ∈ field, byte ≠ 44 ∧ byte ≠ 10 ∧ byte ≠ 13) (inside : feed ∈ field) : False := by
    rcases breaks with rfl | rfl
    · exact (letters 13 inside).2.2 rfl
    · exact (letters 10 inside).2.1 rfl
  have separator (inside : feed ∈ comma.bytes) : False := by
    have letters : ∀ byte ∈ comma.bytes, byte ≠ 13 ∧ byte ≠ 10 := by decide +kernel
    rcases breaks with rfl | rfl
    · exact (letters 13 inside).1 rfl
    · exact (letters 10 inside).2 rfl
  rw [csvLine_bytes, lineOf] at member
  simp only [List.mem_append] at member
  rcases member with inside | inside | inside | inside | inside | inside | inside | inside | inside | inside | inside
  · exact (refuted (hex16_letters _) inside).elim
  · exact (separator inside).elim
  · exact (refuted (hex16_letters _) inside).elim
  · exact (separator inside).elim
  · exact (refuted (hash_letters previousHash) inside).elim
  · exact (separator inside).elim
  · exact (refuted (hash_letters merkleRoot) inside).elim
  · exact (separator inside).elim
  · exact (refuted (hex16_letters _) inside).elim
  · exact (separator inside).elim
  · simp only [fieldsOf, List.mem_cons, List.mem_append, List.not_mem_nil, or_false] at inside
    rcases inside with rfl | inside | rfl
    · simp at breaks
    · exact inside
    · simp at breaks

theorem csvLine_letters {block : Block} (writable : Writable block) :
    ∀ byte ∈ (csvLine block).bytes, byte ≠ 13 ∧ byte ≠ 10 := by
  have returns : 13 ∉ (CString.join doubleColon block.transactions).bytes :=
    join_letters (by decide) fun transaction member inside => (plain_letters (writable.plain transaction member) 13 inside).2.2 rfl
  have feeds : 10 ∉ (CString.join doubleColon block.transactions).bytes :=
    join_letters (by decide) fun transaction member inside => (plain_letters (writable.plain transaction member) 10 inside).2.1 rfl
  intro byte member
  constructor
  · intro same
    exact returns (lineBreak_inside writable.previousHash writable.merkleRoot (Or.inl rfl) (same ▸ member))
  · intro same
    exact feeds (lineBreak_inside writable.previousHash writable.merkleRoot (Or.inr rfl) (same ▸ member))

theorem beforeLineBreak_same {text : Bytes} (clean : ∀ byte ∈ text, byte ≠ 13 ∧ byte ≠ 10) :
    beforeLineBreak text = text :=
  List.takeWhile_eq_self_iff.mpr fun byte member => decide_eq_true (clean byte member)

/-- The transactions that a reader finds between the quotes written for a block. -/
def rejoined (transactions : List CString) : List CString :=
  (pieces doubleColon.bytes (CString.join doubleColon transactions).bytes).map .ofMemory

/-- The pieces of a C string are C strings. -/
theorem map_pieces {text : Bytes} (terminated : 0 ∉ text) :
    ((pieces doubleColon.bytes text).map CString.ofMemory).map CString.bytes = pieces doubleColon.bytes text := by
  have clean : ∀ piece ∈ pieces doubleColon.bytes text, 0 ∉ piece := by
    intro piece member zero
    have inside := subset_intercalate doubleColon.bytes member zero
    rw [intercalate_pieces] at inside
    exact terminated inside
  rw [List.map_map]
  exact (List.map_congr_left (g := id) fun piece member => CString.bytes_ofMemory (clean piece member)).trans (List.map_id _)

/-- Joining what a text was split into gives the text again. -/
theorem join_pieces {text : Bytes} (terminated : 0 ∉ text) :
    (CString.join doubleColon ((pieces doubleColon.bytes text).map .ofMemory)).bytes = text := by
  rw [CString.bytes_join, map_pieces terminated, intercalate_pieces]

theorem join_rejoined (transactions : List CString) :
    (CString.join doubleColon (rejoined transactions)).bytes = (CString.join doubleColon transactions).bytes :=
  join_pieces (CString.join doubleColon transactions).terminated

theorem splitFields_suffix {line : Bytes} {fields : Fields} (split : splitFields line = some fields) :
    fields.transactions <:+ line := by
  have after {text before rest : Bytes} (cut : cutAt comma.bytes text = some (before, rest)) : rest <:+ text := by
    rw [(cutAt_some (by decide) cut).1]
    exact ⟨before ++ comma.bytes, by simp⟩
  simp only [splitFields, Option.bind_eq_bind, Option.bind_eq_some_iff, Option.pure_def, Option.some.injEq] at split
  obtain ⟨_, first, _, second, _, third, _, fourth, _, fifth, rfl⟩ := split
  exact (after fifth).trans ((after fourth).trans ((after third).trans ((after second).trans (after first))))

/-- The transactions of a block that was read are not split differently the next time. -/
theorem parsed_rejoined {line : CString} {block : Block} (accepted : (blockFromCsv line).result = .ok block) :
    rejoined block.transactions = block.transactions := by
  obtain ⟨fields, read⟩ := fromCsv_ok.mp accepted
  have terminated : 0 ∉ fields.transactions.dropLast.tail := by
    intro zero
    have quoted := (List.dropLast_sublist _).subset (List.mem_of_mem_tail zero)
    have inside := (splitFields_suffix read.split).subset quoted
    exact line.terminated ((List.takeWhile_prefix _).subset inside)
  rw [← read.transactions, rejoined, join_pieces terminated]

/-- Whatever beginning of a written line is accepted, it carries every field of
the block and the text of all its transactions. -/
theorem readBack {block parsed : Block} {cut : CString} (writable : Writable block)
    (start : cut.bytes <+: (csvLine block).bytes) (accepted : (blockFromCsv cut).result = .ok parsed) :
    parsed = { block with transactions := rejoined block.transactions } := by
  obtain ⟨fields, read⟩ := fromCsv_ok.mp accepted
  have clean := csvLine_letters writable
  have split := read.split
  rw [beforeLineBreak_same fun byte member => clean byte (start.subset member)] at split
  rw [csvLine_bytes] at start
  obtain ⟨same, cutTransactions⟩ := split_cut (commaFree writable.previousHash writable.merkleRoot) start split
  -- the closing quote can only be the last one, because no transaction contains a quote
  have complete : fields.transactions = (fieldsOf block).transactions := by
    have unquoted : 34 ∉ (CString.join doubleColon block.transactions).bytes :=
      join_letters (by decide) fun transaction member inside =>
        (plain_letters (writable.plain transaction member) 34 inside).1 rfl
    have closed := read.closed
    have long := read.long
    generalize fields.transactions = cutField at closed long cutTransactions
    rw [fieldsOf] at cutTransactions ⊢
    rcases cutField with _ | ⟨first, inner⟩
    · simp at closed
    obtain ⟨rfl, cutInner⟩ := List.cons_prefix_cons.mp cutTransactions
    have final : inner.getLast? = some 34 := by
      cases inner with
      | nil => simp at long
      | cons => simpa using closed
    rw [List.cons.injEq]
    refine ⟨rfl, ?_⟩
    rcases List.prefix_concat_iff.mp cutInner with whole | short
    · exact whole
    · exact absurd (short.subset (List.mem_of_getLast? final)) unquoted
  rw [complete] at same
  have index := read.index
  have timestamp := read.timestamp
  have nonce := read.nonce
  have previousHash := read.previousHash
  have merkleRoot := read.merkleRoot
  have transactions := read.transactions
  rw [same] at index timestamp nonce previousHash merkleRoot transactions
  simp only [fieldsOf, CString.ofMemory_bytes, parse_hex16, Except.ok.injEq] at index timestamp nonce previousHash merkleRoot
  rw [inner_transactions] at transactions
  cases parsed
  simp only [Block.mk.injEq]
  exact ⟨index.symm, timestamp.symm, previousHash.symm, merkleRoot.symm, nonce.symm, transactions.symm⟩

theorem join_visible {transactions : List CString} (sized : WellSized transactions) :
    (CString.join doubleColon transactions).bytes ≠ [] := by
  have length := join_length transactions
  obtain ⟨first, rest, same⟩ := List.exists_cons_of_ne_nil sized.some
  have positive := (sized.short first (by simp [same])).1
  intro none
  rw [CString.length, none, joinedLength, same, List.map_cons, List.sum_cons, List.length_nil] at length
  omega

/-- Every line without a line break in it that spells a block is read as that block. -/
theorem readWhole {block : Block} (previousHash : isLowercaseHexHash block.previousHash = true)
    (merkleRoot : isLowercaseHexHash block.merkleRoot = true) (sized : WellSized block.transactions)
    (clean : ∀ byte ∈ (csvLine block).bytes, byte ≠ 13 ∧ byte ≠ 10)
    (same : rejoined block.transactions = block.transactions) : (blockFromCsv (csvLine block)).result = .ok block := by
  have written : beforeLineBreak (csvLine block).bytes = lineOf (fieldsOf block) := by
    rw [beforeLineBreak_same clean, csvLine_bytes]
  have free := commaFree previousHash merkleRoot
  apply (fromCsv_fields free written).mpr
  refine ⟨?_, rfl, ?_, ?_, ?_, ?_, ?_, previousHash, ?_, merkleRoot, ?_, ?_, ?_, sized⟩
  · rw [written, split_line free]
  · simp [fieldsOf]
  · rw [fieldsOf, ← List.cons_append, List.getLast?_concat]
  · rw [fieldsOf, CString.ofMemory_bytes, parse_hex16]
  · rw [fieldsOf, CString.ofMemory_bytes, parse_hex16]
  · rw [fieldsOf, CString.ofMemory_bytes]
  · rw [fieldsOf, CString.ofMemory_bytes]
  · rw [fieldsOf, CString.ofMemory_bytes, parse_hex16]
  · rw [inner_transactions]
    exact join_visible sized
  · rw [inner_transactions]
    exact same

theorem rejoined_separable {transactions : List CString}
    (separable : Separable doubleColon.bytes (transactions.map CString.bytes)) : rejoined transactions = transactions := by
  rw [rejoined, CString.bytes_join, pieces_intercalate (by decide) separable, List.map_map]
  exact List.map_id'' CString.ofMemory_bytes _

/-- A block whose transactions survive joining is read back as it was written. -/
theorem roundTrip {block : Block} (writable : Writable block)
    (separable : Separable doubleColon.bytes (block.transactions.map CString.bytes)) :
    (blockFromCsv (csvLine block)).result = .ok block :=
  readWhole writable.previousHash writable.merkleRoot writable.sized (csvLine_letters writable) (rejoined_separable separable)

end ProcessChain.Proofs.Csv
