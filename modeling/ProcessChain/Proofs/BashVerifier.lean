import ProcessChain.BashVerifier
import ProcessChain.Proofs.RoundTrip
import ProcessChain.Proofs.Validation

/-! What the verifier in Bash accepts, in terms of blocks. A record with accepted
fields is the record of one block, so an accepted file spells a chain of blocks;
its rules leave out the order of the timestamps and all limits on transactions. -/

namespace ProcessChain.Proofs.BashVerifier
open Lib Lib.FailStop Csv Crypto Validation Bash

private theorem check_ok {holds : Bool} {message : Bytes} {done : Unit} :
    check holds message = .ok done ↔ holds = true := by
  unfold check
  split <;> simp_all

private theorem bind_ok {α β : Type} {first : Except Bytes α} {next : α → Except Bytes β} {value : β} :
    (first >>= next) = .ok value ↔ ∃ middle, first = .ok middle ∧ next middle = .ok value := by
  cases first with
  | error message => simp [bind, Except.bind]
  | ok middle => simp [bind, Except.bind]

private theorem forM_ok {items : List Bytes} {holds : Bytes → Bool} {message : Bytes → Bytes} {done : Unit} :
    forM items (fun item => check (holds item) (message item)) = .ok done ↔ ∀ item ∈ items, holds item = true := by
  induction items with
  | nil => simp [pure, Except.pure]
  | cons item rest ih =>
    rw [List.forM_cons, bind_ok]
    simp [check_ok, ih]

theorem splitTransactions_ok {text : Bytes} {parts : List Bytes} :
    splitTransactions text = some parts ↔ parts = pieces doubleColon.bytes text ∧ [] ∉ parts := by
  have nonempty : doubleColon.bytes ≠ [] := by decide
  fun_induction splitTransactions text generalizing parts with
  | case1 text rest found =>
    rw [pieces_cut nonempty found]
    simp only [reduceCtorEq, false_iff, not_and, not_not]
    intro same
    rw [same]
    exact List.mem_cons_self
  | case2 text transaction rest found visible ih =>
    rw [pieces_cut nonempty found, Option.map_eq_some_iff]
    constructor
    · intro split
      obtain ⟨later, cut, rfl⟩ := split
      obtain ⟨rfl, shown⟩ := ih.mp cut
      exact ⟨rfl, by simpa using ⟨visible, shown⟩⟩
    · intro split
      obtain ⟨rfl, shown⟩ := split
      simp only [List.mem_cons, not_or] at shown
      exact ⟨_, ih.mpr ⟨rfl, shown.2⟩, rfl⟩
  | case3 uncut =>
    rw [pieces_uncut uncut]
    simp only [reduceCtorEq, false_iff, not_and, not_not]
    intro same
    rw [same]
    exact List.mem_singleton_self _
  | case4 text uncut visible =>
    rw [pieces_uncut uncut, Option.some.injEq]
    constructor
    · intro same
      exact ⟨same.symm, by simpa [← same] using visible⟩
    · intro split
      exact split.1.symm

variable (sha256 : HashFunction)

private theorem nextLevel_bytes (level : List CString) :
    nextLevel sha256 (level.map CString.bytes) = (combineHashes sha256 level).map CString.bytes := by
  fun_induction combineHashes sha256 level with
  | case1 left right rest ih =>
    simp only [List.map_cons, nextLevel, ih]
    rfl
  | case2 level short =>
    rcases level with _ | ⟨_, _ | ⟨_, _⟩⟩
    · rfl
    · rfl
    · exact absurd rfl (short _ _ _)

private theorem padLevel_bytes (level : List CString) :
    padLevel sha256 (level.map CString.bytes) = (evenLevel sha256 level).map CString.bytes := by
  simp only [padLevel, evenLevel, List.length_map]
  split
  · rw [List.map_append]
    rfl
  · rfl

private theorem climbLevels_summit (texts : List Bytes) :
    climbLevels sha256 (texts.map (sha256String sha256)) = (summit sha256 texts).map (sha256String sha256) := by
  have pass (texts : List Bytes) : nextLevel sha256 (padLevel sha256 (texts.map (sha256String sha256))) =
      (rise sha256 texts).map (sha256String sha256) := by
    have level : texts.map (sha256String sha256) = (texts.map (sha256Hex sha256)).map CString.bytes := by
      rw [List.map_map]
      rfl
    rw [level, padLevel_bytes, nextLevel_bytes, pass_hashes, List.map_map]
    rfl
  fun_induction HashTree.summit sha256 innerNode [] texts with
  | case1 texts more ih =>
    have above : summit sha256 texts = summit sha256 (rise sha256 texts) := by
      conv_lhs => rw [summit, HashTree.summit, if_pos more]
    rw [climbLevels, pass, List.length_map, if_pos more, ih, above]
  | case2 texts last =>
    rw [climbLevels, pass, List.length_map, if_neg last, summit, HashTree.summit, if_neg last]

/-- The transactions that the script finds in a text. -/
def partsOf (text : Bytes) : List CString := (pieces doubleColon.bytes text).map .ofMemory

/-- Both sides compute the same Merkle root of the same transactions. -/
theorem calculateMerkleRoot_ok {text root : Bytes} (terminated : 0 ∉ text) :
    Bash.calculateMerkleRoot sha256 text = some root ↔
      [] ∉ pieces doubleColon.bytes text ∧ root = (merkleRoot sha256 (partsOf text)).bytes := by
  have same : ((climbLevels sha256 ((pieces doubleColon.bytes text).map (sha256String sha256))).headD []) =
      (merkleRoot sha256 (partsOf text)).bytes := by
    rw [merkleRoot, partsOf, map_pieces terminated, climbLevels_summit]
    cases summit sha256 (pieces doubleColon.bytes text) with
    | nil => rfl
    | cons top rest => rfl
  rw [Bash.calculateMerkleRoot, Option.map_eq_some_iff]
  constructor
  · intro found
    obtain ⟨parts, split, rfl⟩ := found
    obtain ⟨rfl, shown⟩ := splitTransactions_ok.mp split
    exact ⟨shown, same⟩
  · intro found
    obtain ⟨shown, rfl⟩ := found
    exact ⟨_, splitTransactions_ok.mpr ⟨rfl, shown⟩, same⟩

/-- Sixteen hexadecimal digits are what is printed for one number. -/
theorem isU64Hex_hex16 {text : Bytes} : isU64Hex text = true ↔ ∃ value, text = (hex16 value).bytes := by
  have digit : ∀ letter < 256, isLowercaseHex letter.toUInt8 = true → ∃ digit < 16, hexDigit digit = letter.toUInt8 := by
    decide +kernel
  have letter : ∀ digit < 16, isLowercaseHex (hexDigit digit) = true := by decide
  simp only [isU64Hex, u64HexLength, Bool.and_eq_true, beq_iff_eq, List.all_eq_true]
  constructor
  · intro hexadecimal
    obtain ⟨length, letters⟩ := hexadecimal
    obtain ⟨digits, small, rfl⟩ : ∃ digits : List Nat, (∀ digit ∈ digits, digit < 16) ∧ text = digits.map hexDigit := by
      clear length
      induction text with
      | nil => exact ⟨[], by simp, rfl⟩
      | cons first rest ih =>
        obtain ⟨digits, small, same⟩ := ih fun other member => letters other (by simp [member])
        obtain ⟨value, bound, spells⟩ := digit first.toNat first.toNat_lt (by simpa using letters first (by simp))
        refine ⟨value :: digits, by simpa using ⟨bound, small⟩, ?_⟩
        rw [List.map_cons, spells, same]
        simp
    rw [List.length_map] at length
    have written := fixedDigits_numeral digits small
    rw [length] at written
    have bound : numeral 16 digits < 2 ^ 64 := by
      rw [← written, numeral_fixedDigits]
      exact Nat.mod_lt _ (by decide)
    refine ⟨(numeral 16 digits).toUInt64, ?_⟩
    rw [hex16_bytes, Nat.toUInt64_eq, UInt64.toNat_ofNat', Nat.mod_eq_of_lt bound, written]
  · intro hexadecimal
    obtain ⟨value, rfl⟩ := hexadecimal
    refine ⟨hex16_length value, ?_⟩
    intro other member
    rw [hex16_bytes] at member
    obtain ⟨digit, inside, rfl⟩ := List.mem_map.mp member
    exact letter digit (fixedDigits_lt (by decide) _ _ digit inside)

private theorem bmod_number {bound number position : Nat} (small : number < 2 * bound) :
    Int.bmod number (2 * bound) = position ↔ position < bound ∧ number = position := by
  have same : (number : Int) % (2 * bound : Nat) = number := Int.emod_eq_of_lt (by omega) (by omega)
  rw [Int.bmod_def, same]
  split <;> omega

theorem numeral_hex16 (value : UInt64) : numeral 16 ((hex16 value).bytes.filterMap (digitOf 16)) = value.toNat := by
  have small := fixedDigits_lt (show 0 < 16 by decide) 16 value.toNat
  rw [hex16_bytes, filterMap_digits fun digit member => hexDigit_letter digit (small digit member), numeral_fixedDigits]
  exact Nat.mod_eq_of_lt value.toNat_lt

/-- The shell takes a number from 2^63 on for a negative one. -/
theorem base16_hex16 {value : UInt64} {position : Nat} :
    base16 (hex16 value).bytes = position ↔ position < intmaxBound ∧ value = UInt64.ofNat position := by
  have small : value.toNat < 2 * intmaxBound := value.toNat_lt
  rw [base16, numeral_hex16, bmod_number small]
  apply and_congr_right
  intro inside
  have same : (UInt64.ofNat position).toNat = position := by
    simp only [intmaxBound] at inside
    rw [UInt64.toNat_ofNat']
    omega
  rw [← UInt64.toNat_inj, same]

/-- The record of the line of a block. -/
def recordOf (block : Block) : Record where
  index := (hex16 block.index).bytes
  timestamp := (hex16 block.timestamp).bytes
  previousHash := block.previousHash.bytes
  merkleRoot := block.merkleRoot.bytes
  nonce := (hex16 block.nonce).bytes
  transactions := (fieldsOf block).transactions
  extra := []

/-- What the script remembers of a block. -/
def rememberedOf (block : Block) : Record :=
  { recordOf block with transactions := (CString.join doubleColon block.transactions).bytes }

theorem hashBlockFields_blockHash (block : Block) :
    hashBlockFields sha256 (rememberedOf block) = (blockHash sha256 block).bytes := rfl

/-- A block that the script accepts behind another one. -/
structure Checked (sha256 : HashFunction) (position : Nat) (previous : Option Block) (block : Block) : Prop where
  previousHash : isLowercaseHexHash block.previousHash = true
  merkleRoot : isLowercaseHexHash block.merkleRoot = true
  whole : rejoined block.transactions = block.transactions
  visible : ∀ transaction ∈ block.transactions, 0 < transaction.length
  small : position < intmaxBound
  index : block.index = UInt64.ofNat position
  matched : 0 < position → ∀ transaction ∈ block.transactions, transactionPattern.rmatch transaction.bytes = true
  root : block.merkleRoot = Crypto.merkleRoot sha256 block.transactions
  link : ∀ before ∈ previous, block.previousHash = blockHash sha256 before

/-- The script's state after some blocks, of which it remembers the last. -/
structure Remembers (state : Verification) (position : Nat) (previous : Option Block) : Prop where
  expectedIndex : state.expectedIndex = position
  blockCount : state.blockCount = position
  first : position = 0 ↔ previous = none
  previous : ∀ before ∈ previous, state.previous = rememberedOf before

theorem isQuoted_ok {text : Bytes} : isQuoted text = true ↔ ∃ inner, text = 34 :: (inner ++ [34]) := by
  simp only [isQuoted, Bool.and_eq_true, decide_eq_true_eq, beq_iff_eq]
  constructor
  · intro marks
    obtain ⟨⟨long, opened⟩, closed⟩ := marks
    obtain ⟨rest, rfl⟩ := List.head?_eq_some_iff.mp opened
    have some : rest ≠ [] := by
      intro none
      simp [none] at long
    rw [List.getLast?_cons_of_ne_nil some, List.getLast?_eq_some_iff] at closed
    obtain ⟨inner, rfl⟩ := closed
    exact ⟨inner, rfl⟩
  · intro marks
    obtain ⟨inner, rfl⟩ := marks
    refine ⟨⟨by simp, rfl⟩, ?_⟩
    rw [← List.cons_append, List.getLast?_concat]

/-- The fields that the script accepts at a position. -/
structure AcceptedFields (position : Nat) (record : Record) (inner : Bytes) : Prop where
  extra : record.extra = []
  transactions : record.transactions = 34 :: (inner ++ [34])
  index : isU64Hex record.index = true
  timestamp : isU64Hex record.timestamp = true
  previousHash : isHashHex record.previousHash = true
  merkleRoot : isHashHex record.merkleRoot = true
  nonce : isU64Hex record.nonce = true
  number : base16 record.index = position

private theorem verifyRecord_fields {state next : Verification} {record : Record} :
    verifyRecord sha256 state record = .ok next ↔ ∃ inner, AcceptedFields state.expectedIndex record inner ∧
      [] ∉ pieces doubleColon.bytes inner ∧
      (0 < state.expectedIndex → ∀ part ∈ pieces doubleColon.bytes inner, isValidTransaction part = true) ∧
      Bash.calculateMerkleRoot sha256 inner = some record.merkleRoot ∧
      (0 < state.expectedIndex → record.previousHash = hashBlockFields sha256 state.previous) ∧
      next = { state with
        expectedIndex := state.expectedIndex + 1
        blockCount := state.blockCount + 1
        previous := { record with transactions := inner } } := by
  unfold verifyRecord
  simp only [bind_ok, check_ok]
  constructor
  · intro accepted
    obtain ⟨_, fields, _, quoted, _, index, _, timestamp, _, previousHash, _, merkleRoot, _, nonce, _, number, rest⟩ := accepted
    simp only [Bool.and_eq_true, decide_eq_true_eq] at fields
    obtain ⟨inner, marks⟩ := isQuoted_ok.mp quoted
    rw [marks, List.tail_cons, List.dropLast_concat] at rest
    refine ⟨inner, ⟨fields.1.1.1.1.1.1, marks, index, timestamp, previousHash, merkleRoot, nonce, by simpa using number⟩, ?_⟩
    split at rest
    · cases rest
    next parts split =>
      obtain ⟨rfl, shown⟩ := splitTransactions_ok.mp split
      rw [bind_ok] at rest
      obtain ⟨_, valid, rest⟩ := rest
      split at rest
      · cases rest
      next root found =>
        simp only [bind_ok, check_ok, decide_eq_true_eq] at rest
        obtain ⟨_, rfl, _, link, same⟩ := rest
        refine ⟨shown, ?_, found, link, (Except.ok.inj same).symm⟩
        intro later
        rw [if_pos later] at valid
        exact forM_ok.mp valid
  · intro accepted
    obtain ⟨inner, fields, shown, valid, root, link, rfl⟩ := accepted
    have shownHash {hash : Bytes} (hexadecimal : isHashHex hash = true) : hash ≠ [] := by
      intro none
      rw [none] at hexadecimal
      cases hexadecimal
    have shownNumber {number : Bytes} (hexadecimal : isU64Hex number = true) : number ≠ [] := by
      intro none
      rw [none] at hexadecimal
      cases hexadecimal
    have marks : record.transactions ≠ [] := by simp [fields.transactions]
    refine ⟨(), ?_, (), isQuoted_ok.mpr ⟨inner, fields.transactions⟩, (), fields.index, (), fields.timestamp, (),
      fields.previousHash, (), fields.merkleRoot, (), fields.nonce, (), by simpa using fields.number, ?_⟩
    · simp [fields.extra, shownNumber fields.index, shownNumber fields.timestamp, shownHash fields.previousHash,
        shownHash fields.merkleRoot, shownNumber fields.nonce, marks]
    · rw [fields.transactions, List.tail_cons, List.dropLast_concat, splitTransactions_ok.mpr ⟨rfl, shown⟩]
      dsimp only
      rw [bind_ok]
      refine ⟨(), ?_, ?_⟩
      · split
        next later => exact forM_ok.mpr (valid later)
        · rfl
      · rw [root]
        simp only [bind_ok, check_ok, decide_eq_true_eq]
        exact ⟨(), trivial, (), link, rfl⟩

/-- The state after one more block. -/
def afterBlock (state : Verification) (block : Block) : Verification :=
  { state with
    expectedIndex := state.expectedIndex + 1
    blockCount := state.blockCount + 1
    previous := rememberedOf block }

theorem partsOf_bytes {text : Bytes} (terminated : 0 ∉ text) :
    (partsOf text).map CString.bytes = pieces doubleColon.bytes text := map_pieces terminated

/-- Transactions that are not split differently are what the joined text is split into. -/
theorem partsOf_join {transactions : List CString} (whole : rejoined transactions = transactions) :
    partsOf (CString.join doubleColon transactions).bytes = transactions := whole

private theorem isHashHex_terminated {hash : Bytes} (hexadecimal : isHashHex hash = true) : 0 ∉ hash := by
  simp only [isHashHex, Bool.and_eq_true, List.all_eq_true] at hexadecimal
  exact fun zero => absurd (hexadecimal.2 0 zero) (by decide)

/-- Accepted fields are the fields of one block. -/
private theorem fields_block {position : Nat} {record : Record} {inner : Bytes} (fields : AcceptedFields position record inner)
    (terminated : 0 ∉ inner) : ∃ block, record = recordOf block ∧ isLowercaseHexHash block.previousHash = true ∧
      isLowercaseHexHash block.merkleRoot = true ∧ block.transactions = partsOf inner ∧ position < intmaxBound ∧
      block.index = UInt64.ofNat position := by
  obtain ⟨index, sameIndex⟩ := isU64Hex_hex16.mp fields.index
  obtain ⟨timestamp, sameTimestamp⟩ := isU64Hex_hex16.mp fields.timestamp
  obtain ⟨nonce, sameNonce⟩ := isU64Hex_hex16.mp fields.nonce
  obtain ⟨previousHash, samePrevious⟩ : ∃ hash : CString, record.previousHash = hash.bytes :=
    ⟨⟨_, isHashHex_terminated fields.previousHash⟩, rfl⟩
  obtain ⟨merkleRoot, sameRoot⟩ : ∃ hash : CString, record.merkleRoot = hash.bytes :=
    ⟨⟨_, isHashHex_terminated fields.merkleRoot⟩, rfl⟩
  have previousLowercase : isHashHex previousHash.bytes = true := samePrevious ▸ fields.previousHash
  have merkleLowercase : isHashHex merkleRoot.bytes = true := sameRoot ▸ fields.merkleRoot
  have number := base16_hex16.mp (sameIndex ▸ fields.number)
  have transactions : record.transactions = 34 :: ((CString.join doubleColon (partsOf inner)).bytes ++ [34]) := by
    rw [fields.transactions, partsOf, join_pieces terminated]
  refine ⟨⟨index, timestamp, previousHash, merkleRoot, nonce, partsOf inner⟩, ?_, previousLowercase, merkleLowercase, rfl,
    number⟩
  cases record
  simp only [recordOf, fieldsOf, Record.mk.injEq]
  exact ⟨sameIndex, sameTimestamp, samePrevious, sameRoot, sameNonce, transactions, fields.extra⟩

/-- One record is accepted exactly when it is the record of a block that passes. -/
theorem verifyRecord_ok {state next : Verification} {record : Record} {position : Nat} {previous : Option Block}
    (remembers : Remembers state position previous) (terminated : 0 ∉ record.transactions) :
    verifyRecord sha256 state record = .ok next ↔
      ∃ block, record = recordOf block ∧ Checked sha256 position previous block ∧ next = afterBlock state block := by
  rw [verifyRecord_fields, remembers.expectedIndex]
  constructor
  · intro accepted
    obtain ⟨inner, fields, shown, valid, root, link, rfl⟩ := accepted
    have clean : 0 ∉ inner := by
      rw [fields.transactions] at terminated
      simp_all
    obtain ⟨block, rfl, previousHash, merkleRoot, parts, small, index⟩ := fields_block fields clean
    have joined : (CString.join doubleColon block.transactions).bytes = inner := by
      rw [parts, partsOf, join_pieces clean]
    have among {transaction : CString} (member : transaction ∈ block.transactions) :
        transaction.bytes ∈ pieces doubleColon.bytes inner := by
      rw [← partsOf_bytes clean, ← parts]
      exact List.mem_map_of_mem member
    refine ⟨block, rfl, ⟨previousHash, merkleRoot, ?_, ?_, small, index, ?_, ?_, ?_⟩, ?_⟩
    · rw [rejoined, joined, parts, partsOf]
    · intro transaction member
      apply List.length_pos_iff.mpr
      intro none
      exact shown (none ▸ among member)
    · exact fun later transaction member => valid later _ (among member)
    · rw [parts]
      exact CString.ext ((calculateMerkleRoot_ok sha256 clean).mp root).2
    · intro before member
      have later : 0 < position := by
        apply Nat.pos_of_ne_zero
        intro first
        rw [remembers.first.mp first] at member
        cases member
      have hash := link later
      rw [remembers.previous before member, hashBlockFields_blockHash] at hash
      exact CString.ext hash
    · rw [afterBlock, rememberedOf, joined, remembers.expectedIndex]
  · intro accepted
    obtain ⟨block, rfl, checked, rfl⟩ := accepted
    have clean := (CString.join doubleColon block.transactions).terminated
    have parts := partsOf_join checked.whole
    have texts := partsOf_bytes clean
    rw [parts] at texts
    have shown : [] ∉ pieces doubleColon.bytes (CString.join doubleColon block.transactions).bytes := by
      rw [← texts]
      intro empty
      obtain ⟨transaction, member, none⟩ := List.mem_map.mp empty
      have positive := checked.visible transaction member
      rw [CString.length, none] at positive
      exact Nat.lt_irrefl 0 positive
    refine ⟨(CString.join doubleColon block.transactions).bytes, ⟨rfl, rfl, isU64Hex_hex16.mpr ⟨_, rfl⟩,
      isU64Hex_hex16.mpr ⟨_, rfl⟩, checked.previousHash, checked.merkleRoot, isU64Hex_hex16.mpr ⟨_, rfl⟩,
      base16_hex16.mpr ⟨checked.small, checked.index⟩⟩, shown, ?_, ?_, ?_, ?_⟩
    · intro later part member
      rw [← texts] at member
      obtain ⟨transaction, inside, rfl⟩ := List.mem_map.mp member
      exact checked.matched later transaction inside
    · apply (calculateMerkleRoot_ok sha256 clean).mpr
      rw [parts]
      exact ⟨shown, congrArg CString.bytes checked.root⟩
    · intro later
      cases before : previous with
      | none => exact absurd (remembers.first.mpr before) (by omega)
      | some last =>
        rw [remembers.previous last before, hashBlockFields_blockHash]
        exact congrArg CString.bytes (checked.link last before)
    · rw [afterBlock, remembers.expectedIndex]
      rfl

private theorem comma_mark : comma.bytes = [44] := by decide +kernel

theorem comma_free {text : Bytes} : Free comma.bytes text ↔ 44 ∉ text := by
  rw [Free, comma_mark, List.dropLast_singleton, List.append_nil, List.singleton_infix_iff]

private theorem readWord_last {word : Bytes} (clean : 44 ∉ word) : readWord word = (word, []) := by
  have uncut : cutAt comma.bytes word = none := by
    apply (cutAt_none (by rw [comma_mark]; simp)).mpr
    rwa [comma_mark, List.singleton_infix_iff]
  rw [readWord, uncut]
  rfl

theorem readWord_comma {word : Bytes} (clean : 44 ∉ word) (rest : Bytes) :
    readWord (word ++ 44 :: rest) = (word, rest) := by
  have cut := cutAt_append (by rw [comma_mark]; simp) (comma_free.mpr clean) rest
  rw [comma_mark, List.singleton_append, ← comma_mark] at cut
  rw [readWord, cut]
  rfl

/-- A word ends at the first comma, or it is all there is. -/
theorem readWord_cases {input word rest : Bytes} (read : readWord input = (word, rest)) :
    44 ∉ word ∧ (input = word ++ 44 :: rest ∨ input = word ∧ rest = []) := by
  by_cases inside : 44 ∈ input
  · obtain ⟨before, after, same, clean⟩ := List.eq_append_cons_of_mem inside
    rw [same, readWord_comma clean] at read
    cases read
    exact ⟨clean, Or.inl same⟩
  · rw [readWord_last inside] at read
    cases read
    exact ⟨inside, Or.inr ⟨rfl, rfl⟩⟩

/-- Behind a word that is followed by another one there was a comma. -/
private theorem readWord_followed {input word rest next later : Bytes} (read : readWord input = (word, rest))
    (again : readWord rest = (next, later)) (visible : next ≠ []) : input = word ++ 44 :: rest := by
  rcases (readWord_cases read).2 with same | ⟨_, rfl⟩
  · exact same
  · rw [readWord_last List.not_mem_nil] at again
    cases again
    exact absurd rfl visible

theorem readRest_empty {input : Bytes} : readRest input = [] ↔ input = [] ∨ input = [44] := by
  rcases read : readWord input with ⟨word, rest⟩
  simp only [readRest, read]
  rcases (readWord_cases read).2 with rfl | ⟨rfl, rfl⟩
  · split
    next last => simp [last]
    next more => simp [List.append_eq_singleton_iff, more]
  · simp only [if_true, iff_self_or]
    intro single
    exact absurd (single ▸ List.mem_singleton_self 44) (readWord_cases read).1

/-- Up to two commas at the end of a line go unnoticed. -/
def StrayCommas (tail : Bytes) : Prop := tail = [] ∨ tail = [44] ∨ tail = [44, 44]

theorem csvLine_commas (block : Block) : (csvLine block).bytes =
    (hex16 block.index).bytes ++ 44 :: ((hex16 block.timestamp).bytes ++ 44 :: (block.previousHash.bytes ++ 44 ::
      (block.merkleRoot.bytes ++ 44 :: ((hex16 block.nonce).bytes ++ 44 :: (fieldsOf block).transactions)))) := by
  rw [csvLine_bytes, lineOf, comma_mark]
  rfl

private theorem quoted_commas {block : Block} :
    44 ∉ (fieldsOf block).transactions ↔ 44 ∉ (CString.join doubleColon block.transactions).bytes := by
  simp [fieldsOf]

/-- A line is read as the record of a block exactly when it is the block's line, up
to stray commas, and no comma cuts its transactions. -/
theorem readRecord_recordOf {line : Bytes} {block : Block} (previousHash : isLowercaseHexHash block.previousHash = true)
    (merkleRoot : isLowercaseHexHash block.merkleRoot = true) :
    readRecord line = recordOf block ↔ 44 ∉ (CString.join doubleColon block.transactions).bytes ∧
      ∃ tail, StrayCommas tail ∧ line = (csvLine block).bytes ++ tail := by
  have number (value : UInt64) : (hex16 value).bytes ≠ [] := by
    apply List.ne_nil_of_length_pos
    exact Nat.lt_of_lt_of_eq (by decide) (hex16_length value).symm
  have hash {hash : CString} (lowercase : isLowercaseHexHash hash = true) : hash.bytes ≠ [] := by
    apply List.ne_nil_of_length_pos
    exact Nat.lt_of_lt_of_eq (by decide) (hash_length lowercase).symm
  constructor
  · intro same
    rcases first : readWord line with ⟨index, rest₁⟩
    rcases second : readWord rest₁ with ⟨timestamp, rest₂⟩
    rcases third : readWord rest₂ with ⟨previous, rest₃⟩
    rcases fourth : readWord rest₃ with ⟨root, rest₄⟩
    rcases fifth : readWord rest₄ with ⟨nonce, rest₅⟩
    rcases sixth : readWord rest₅ with ⟨transactions, rest₆⟩
    simp only [readRecord, first, second, third, fourth, fifth, sixth, recordOf, Record.mk.injEq] at same
    obtain ⟨rfl, rfl, rfl, rfl, rfl, rfl, extra⟩ := same
    have line₁ := readWord_followed first second (number _)
    have line₂ := readWord_followed second third (hash previousHash)
    have line₃ := readWord_followed third fourth (hash merkleRoot)
    have line₄ := readWord_followed fourth fifth (number _)
    have line₅ := readWord_followed fifth sixth (by simp [fieldsOf])
    obtain ⟨clean, ending⟩ := readWord_cases sixth
    obtain ⟨tail, stray, line₆⟩ : ∃ tail, StrayCommas tail ∧ rest₅ = (fieldsOf block).transactions ++ tail := by
      rcases ending with same | ⟨same, _⟩
      · rcases readRest_empty.mp extra with none | single
        · exact ⟨[44], Or.inr (Or.inl rfl), by rw [same, none]⟩
        · exact ⟨[44, 44], Or.inr (Or.inr rfl), by rw [same, single]⟩
      · exact ⟨[], Or.inl rfl, by rw [same, List.append_nil]⟩
    refine ⟨quoted_commas.mp clean, tail, stray, ?_⟩
    rw [csvLine_commas, line₁, line₂, line₃, line₄, line₅, line₆]
    simp only [List.append_assoc, List.cons_append]
  · intro written
    obtain ⟨clean, tail, stray, rfl⟩ := written
    have plain (value : UInt64) : 44 ∉ (hex16 value).bytes := fun mark => (hex16_letters value 44 mark).1 rfl
    have plainHash {hash : CString} (lowercase : isLowercaseHexHash hash = true) : 44 ∉ hash.bytes :=
      fun mark => (hash_letters lowercase 44 mark).1 rfl
    have last : ∃ rest, readWord ((fieldsOf block).transactions ++ tail) = ((fieldsOf block).transactions, rest) ∧
        readRest rest = [] := by
      have uncut := quoted_commas.mpr clean
      rcases stray with rfl | rfl | rfl
      · exact ⟨[], by rw [List.append_nil, readWord_last uncut], readRest_empty.mpr (Or.inl rfl)⟩
      · exact ⟨[], readWord_comma uncut [], readRest_empty.mpr (Or.inl rfl)⟩
      · exact ⟨[44], readWord_comma uncut [44], readRest_empty.mpr (Or.inr rfl)⟩
    obtain ⟨rest, sixth, extra⟩ := last
    simp only [readRecord, csvLine_commas, List.append_assoc, List.cons_append, readWord_comma (plain _),
      readWord_comma (plainHash previousHash), readWord_comma (plainHash merkleRoot), sixth, extra]
    rfl

/-- The blocks that the script accepts behind a number of others. -/
def CheckedFrom (sha256 : HashFunction) : Nat → Option Block → List Block → Prop
  | _, _, [] => True
  | position, previous, block :: rest =>
    Checked sha256 position previous block ∧ CheckedFrom sha256 (position + 1) (some block) rest

theorem checkedFrom_append {position : Nat} {previous : Option Block} {blocks : List Block} {block : Block} :
    CheckedFrom sha256 position previous (blocks ++ [block]) ↔ CheckedFrom sha256 position previous blocks ∧
      Checked sha256 (position + blocks.length) (blocks.getLast?.or previous) block := by
  induction blocks generalizing position previous with
  | nil => simp [CheckedFrom]
  | cons first rest ih =>
    have length : position + 1 + rest.length = position + (first :: rest).length := by
      rw [List.length_cons]
      omega
    have last : rest.getLast?.or (some first) = (first :: rest).getLast?.or previous := by
      rw [List.getLast?_cons]
      cases rest.getLast? with
      | none => rfl
      | some final => rfl
    simp only [List.cons_append, CheckedFrom, ih, length, last, and_assoc]

theorem checkedFrom_member {position : Nat} {previous : Option Block} {blocks : List Block}
    (checked : CheckedFrom sha256 position previous blocks) {block : Block} (member : block ∈ blocks) :
    ∃ place before, Checked sha256 place before block := by
  induction blocks generalizing position previous with
  | nil => cases member
  | cons first rest ih =>
    rcases List.mem_cons.mp member with rfl | later
    · exact ⟨position, previous, checked.1⟩
    · exact ih checked.2 later

/-- The records of the lines that are not empty. -/
def recordsOf (lines : List (Line UInt8)) : List Record :=
  ((lines.map fun line => stripReturn line.text).filter (· ≠ [])).map readRecord

private theorem recordsOf_cons (line : Line UInt8) (rest : List (Line UInt8)) :
    recordsOf (line :: rest) =
      if stripReturn line.text = [] then recordsOf rest else readRecord (stripReturn line.text) :: recordsOf rest := by
  simp only [recordsOf, List.map_cons, List.filter_cons]
  split <;> simp_all

theorem stripReturn_start (line : Bytes) : stripReturn line <+: line := by
  unfold stripReturn
  split
  · exact List.dropLast_prefix line
  · exact List.prefix_rfl

private theorem readWord_subset {input word rest : Bytes} (read : readWord input = (word, rest)) :
    word ⊆ input ∧ rest ⊆ input := by
  rcases (readWord_cases read).2 with rfl | ⟨rfl, rfl⟩
  · exact ⟨List.subset_append_left _ _, List.subset_append_of_subset_right _ (List.subset_cons_self _ _)⟩
  · exact ⟨List.Subset.refl _, List.nil_subset _⟩

private theorem transactions_subset (line : Bytes) : (readRecord line).transactions ⊆ line := by
  rcases first : readWord line with ⟨index, rest₁⟩
  rcases second : readWord rest₁ with ⟨timestamp, rest₂⟩
  rcases third : readWord rest₂ with ⟨previous, rest₃⟩
  rcases fourth : readWord rest₃ with ⟨root, rest₄⟩
  rcases fifth : readWord rest₄ with ⟨nonce, rest₅⟩
  rcases sixth : readWord rest₅ with ⟨transactions, rest₆⟩
  simp only [readRecord, first, second, third, fourth, fifth, sixth]
  have inside₂ := List.Subset.trans (readWord_subset second).2 (readWord_subset first).2
  have inside₃ := List.Subset.trans (readWord_subset third).2 inside₂
  have inside₄ := List.Subset.trans (readWord_subset fourth).2 inside₃
  have inside₅ := List.Subset.trans (readWord_subset fifth).2 inside₄
  exact List.Subset.trans (readWord_subset sixth).1 inside₅

private theorem remembers_counted {state : Verification} {position : Nat} {previous : Option Block}
    (remembers : Remembers state position previous) (lineNumber : Nat) : Remembers { state with lineNumber } position previous :=
  ⟨remembers.expectedIndex, remembers.blockCount, remembers.first, remembers.previous⟩

private theorem remembers_after {state : Verification} {position : Nat} {previous : Option Block}
    (remembers : Remembers state position previous) (block : Block) :
    Remembers (afterBlock state block) (position + 1) (some block) := by
  refine ⟨?_, ?_, by simp, ?_⟩
  · rw [afterBlock, remembers.expectedIndex]
  · rw [afterBlock, remembers.blockCount]
  · intro before same
    cases same
    rfl

/-- The lines of a file are accepted exactly when they are read as the records of
blocks that pass one after the other. -/
theorem verifyLines_ok {lines : List (Line UInt8)} {state : Verification} {position count : Nat} {previous : Option Block}
    (remembers : Remembers state position previous) (terminated : ∀ line ∈ lines, 0 ∉ line.text) :
    (∃ final, verifyLines sha256 state lines = .ok final ∧ final.blockCount = count) ↔
      ∃ blocks, recordsOf lines = blocks.map recordOf ∧ CheckedFrom sha256 position previous blocks ∧
        count = position + blocks.length := by
  induction lines generalizing state position previous with
  | nil =>
    constructor
    · intro accepted
      obtain ⟨final, ends, rfl⟩ := accepted
      cases ends
      exact ⟨[], rfl, trivial, remembers.blockCount⟩
    · intro accepted
      obtain ⟨blocks, none, _, rfl⟩ := accepted
      rw [List.map_eq_nil_iff.mp none.symm]
      exact ⟨state, rfl, remembers.blockCount⟩
  | cons line rest ih =>
    have counted := remembers_counted remembers (state.lineNumber + 1)
    have later := fun line member => terminated line (List.mem_cons_of_mem _ member)
    have clean : 0 ∉ (readRecord (stripReturn line.text)).transactions := fun zero =>
      terminated line (by simp) ((stripReturn_start line.text).subset (transactions_subset _ zero))
    simp only [verifyLines, verifyLine, recordsOf_cons, bind_ok]
    by_cases blank : stripReturn line.text = []
    · simp only [if_pos blank, Except.ok.injEq, exists_eq_left']
      exact ih counted later
    · simp only [if_neg blank, verifyRecord_ok sha256 counted clean]
      constructor
      · intro accepted
        obtain ⟨final, ⟨_, ⟨block, same, checked, rfl⟩, ends⟩, total⟩ := accepted
        obtain ⟨blocks, records, passes, rfl⟩ := (ih (remembers_after counted block) later).mp ⟨final, ends, total⟩
        refine ⟨block :: blocks, by rw [same, records, List.map_cons], ⟨checked, passes⟩, ?_⟩
        rw [List.length_cons]
        omega
      · intro accepted
        obtain ⟨blocks, records, passes, rfl⟩ := accepted
        cases blocks with
        | nil => cases records
        | cons block others =>
          rw [List.map_cons, List.cons.injEq] at records
          have total : position + (block :: others).length = position + 1 + others.length := by
            rw [List.length_cons]
            omega
          obtain ⟨final, ends, same⟩ := (ih (remembers_after counted block) later).mpr ⟨others, records.2, passes.2, total⟩
          exact ⟨final, ⟨_, ⟨block, records.1, passes.1, rfl⟩, ends⟩, same⟩

theorem verifyBlockchain_ok {contents : Bytes} {count : Nat} (terminated : 0 ∉ contents) :
    verifyBlockchain sha256 contents = .ok count ↔ ∃ header rest blocks,
      linesOf 10 contents = ⟨header, true⟩ :: rest ∧ stripReturn header = blockchainCsvHeader ∧
      recordsOf rest = blocks.map recordOf ∧ CheckedFrom sha256 0 none blocks ∧ blocks ≠ [] ∧ count = blocks.length := by
  have start : Remembers ⟨1, 0, 0, ⟨[], [], [], [], [], [], []⟩⟩ 0 none := ⟨rfl, rfl, by simp, by simp⟩
  unfold verifyBlockchain
  split
  next header rest found =>
    have clean : ∀ line ∈ rest, 0 ∉ line.text := fun line member zero =>
      terminated (linesOf_subset line (by rw [found]; exact List.mem_cons_of_mem _ member) zero)
    have lines := fun count => @verifyLines_ok sha256 rest _ 0 count none start clean
    simp only [bind_ok, check_ok, decide_eq_true_eq]
    constructor
    · intro accepted
      obtain ⟨_, title, state, ends, _, some, same⟩ := accepted
      cases same
      obtain ⟨blocks, records, passes, total⟩ := (lines _).mp ⟨state, ends, rfl⟩
      rw [Nat.zero_add] at total
      refine ⟨header, rest, blocks, found, title, records, passes, ?_, total⟩
      intro none
      exact some (by rw [total, none, List.length_nil])
    · intro accepted
      obtain ⟨_, _, blocks, same, title, records, passes, some, rfl⟩ := accepted
      rw [found] at same
      cases same
      obtain ⟨state, ends, total⟩ := (lines _).mpr ⟨blocks, records, passes, rfl⟩
      rw [Nat.zero_add] at total
      refine ⟨(), title, state, ends, (), ?_, by rw [total]; rfl⟩
      rw [total]
      exact fun none => some (List.length_eq_zero_iff.mp none)
  next other =>
    simp only [reduceCtorEq, false_iff, not_exists, not_and]
    intro header rest blocks found
    exact absurd found (other header rest)

end ProcessChain.Proofs.BashVerifier
