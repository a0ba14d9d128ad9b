import ProcessChain.Validation
import ProcessChain.Proofs.Crypto
import Mathlib.Data.List.Chain

/-! What the validation functions accept, and the chains that satisfy their rules.
A valid chain grows at its end only by a sound block that follows the last one. -/

namespace ProcessChain.Proofs.Validation
open Lib Lib.FailStop Csv Crypto

structure ValidTransaction (transaction : CString) : Prop where
  visible : 0 < transaction.length
  short : transaction.length < maxTransactionLength
  matched : transactionPattern.rmatch transaction.bytes = true

theorem validateTransaction_ok {transaction : CString} {done : Unit} :
    (validateTransaction transaction).result = .ok done ↔ ValidTransaction transaction := by
  simp only [validateTransaction, result_bind_eq_ok, result_failIf_eq_ok, result_request]
  constructor
  · intro passed
    obtain ⟨_, sized, _, _, _, _, matched⟩ := passed
    exact ⟨by omega, by omega, by simpa using matched⟩
  · intro rules
    obtain ⟨visible, short, matched⟩ := rules
    exact ⟨(), by omega, (), trivial, (), trivial, by simpa using matched⟩

/-- The pattern leaves no room for the characters that structure a CSV line. -/
theorem matched_plain {text : Bytes} (matched : transactionPattern.rmatch text = true) :
    ∀ byte ∈ text, (byte ≠ 58 ∧ byte ≠ 34 ∧ byte ≠ 10 ∧ byte ≠ 13) ∧ byte ≠ 44 := by
  have letters : ∀ byte ∈ alphabet transactionPattern, (byte ≠ 58 ∧ byte ≠ 34 ∧ byte ≠ 10 ∧ byte ≠ 13) ∧ byte ≠ 44 := by
    rw [transactionPattern, alnum, digits, ascii_ofList, ascii_ofList, ascii_ofList, ascii_ofList, ascii_ofList, ascii_ofList,
      ascii_ofList]
    decide +kernel
  have matched := (RegularExpression.rmatch_iff_matches' transactionPattern text).mp matched
  exact fun byte member => letters byte (matched_letters transactionPattern matched member)

theorem validTransaction_plain {transaction : CString} (valid : ValidTransaction transaction) :
    ∀ byte ∈ transaction.bytes, byte ≠ 58 ∧ byte ≠ 34 ∧ byte ≠ 10 ∧ byte ≠ 13 :=
  fun byte member => (matched_plain valid.matched byte member).1

/-- Valid transactions survive joining. -/
theorem validTransactions_separable {transactions : List CString} (some : transactions ≠ [])
    (valid : ∀ transaction ∈ transactions, ValidTransaction transaction) :
    Separable doubleColon.bytes (transactions.map CString.bytes) := by
  apply separable_of_disjoint (show doubleColon.bytes ≠ [] by decide) (by simpa using some)
  intro text member
  obtain ⟨transaction, inside, rfl⟩ := List.mem_map.mp member
  exact fun colon => (validTransaction_plain (valid transaction inside) 58 colon).1 rfl

/-- The rules of `validate_block_structure`. The first block of a chain may carry
any transactions. -/
structure WellFormed (block : Block) : Prop where
  previousHash : isLowercaseHexHash block.previousHash = true
  merkleRoot : isLowercaseHexHash block.merkleRoot = true
  sized : WellSized block.transactions
  transactions : block.index ≠ 0 → ∀ transaction ∈ block.transactions, ValidTransaction transaction

private theorem validateHashString_ok {hash : CString} {done : Unit} :
    (validateHashString hash).result = .ok done ↔ isLowercaseHexHash hash = true := by
  simp only [validateHashString, result_bind_eq_ok, result_failIf_eq_ok, result_forM_eq_ok, isLowercaseHexHash, isDigit,
    Bool.and_eq_true, beq_iff_eq, List.all_eq_true, not_not]
  constructor
  · intro passed
    obtain ⟨_, length, characters⟩ := passed
    exact ⟨length, fun character member => by simpa [or_iff_not_imp_left] using characters character member⟩
  · intro rules
    obtain ⟨length, characters⟩ := rules
    exact ⟨(), length, fun character member => by simpa [or_iff_not_imp_left] using characters character member⟩

theorem structure_ok {block : Block} {done : Unit} :
    (validateBlockStructure block).result = .ok done ↔ WellFormed block := by
  simp only [validateBlockStructure, result_bind_eq_ok, result_orFail_eq_ok, validateHashString_ok, result_failIf_eq_ok,
    result_ite]
  constructor
  · intro passed
    obtain ⟨_, previousHash, _, merkleRoot, _, few, transactions⟩ := passed
    have sized : ∀ transaction ∈ block.transactions,
        0 < transaction.length ∧ transaction.length < maxTransactionLength := by
      intro transaction member
      split at transactions
      · have short := result_failIf_eq_ok.mp (result_forM_eq_ok.mp transactions transaction member)
        omega
      · have valid := result_orFail_eq_ok.mp (result_forM_eq_ok.mp transactions transaction member)
        exact ⟨(validateTransaction_ok.mp valid).visible, (validateTransaction_ok.mp valid).short⟩
    refine ⟨previousHash, merkleRoot, ⟨fun none => few (Or.inl none), by omega, sized⟩, ?_⟩
    intro ordinary transaction member
    rw [if_neg ordinary] at transactions
    exact validateTransaction_ok.mp (result_orFail_eq_ok.mp (result_forM_eq_ok.mp transactions transaction member))
  · intro rules
    obtain ⟨previousHash, merkleRoot, ⟨some, few, short⟩, valid⟩ := rules
    refine ⟨(), previousHash, (), merkleRoot, (), ?_, ?_⟩
    · simp only [some, false_or]
      omega
    · split
      · refine result_forM_eq_ok.mpr fun transaction member => result_failIf_eq_ok.mpr ?_
        have sized := short transaction member
        omega
      next ordinary =>
        exact result_forM_eq_ok.mpr fun transaction member =>
          result_orFail_eq_ok.mpr (validateTransaction_ok.mpr (valid ordinary transaction member))

theorem WellFormed.hashable {block : Block} (wellFormed : WellFormed block) : Hashable block :=
  ⟨hash_length wellFormed.previousHash, hash_length wellFormed.merkleRoot, wellFormed.sized.some⟩

/-- A block of valid transactions can be written, and is read back as it is. -/
theorem written {block : Block} (previousHash : isLowercaseHexHash block.previousHash = true)
    (merkleRoot : isLowercaseHexHash block.merkleRoot = true) (sized : WellSized block.transactions)
    (valid : ∀ transaction ∈ block.transactions, ValidTransaction transaction) :
    Writable block ∧ (blockFromCsv (csvLine block)).result = .ok block := by
  have plain := fun transaction member => validTransaction_plain (valid transaction member)
  have writable : Writable block := by
    refine ⟨previousHash, merkleRoot, sized, ?_⟩
    intro transaction member
    have letters := plain transaction member
    have uncut : cutAt doubleColon.bytes transaction.bytes = none := by
      refine (cutAt_none (by decide)).mpr fun occurs => (letters 58 (occurs.subset ?_)).1 rfl
      decide
    simp only [conflictsWithCsv, uncut, Option.isSome_none, Bool.or_false, Bool.or_eq_false_iff, List.contains_eq_mem,
      decide_eq_false_iff_not]
    exact ⟨⟨fun inside => (letters 34 inside).2.1 rfl, fun inside => (letters 10 inside).2.2.1 rfl⟩,
      fun inside => (letters 13 inside).2.2.2 rfl⟩
  exact ⟨writable, roundTrip writable (validTransactions_separable sized.some valid)⟩

theorem WellFormed.written {block : Block} (wellFormed : WellFormed block) (ordinary : block.index ≠ 0) :
    Writable block ∧ (blockFromCsv (csvLine block)).result = .ok block :=
  Validation.written wellFormed.previousHash wellFormed.merkleRoot wellFormed.sized (wellFormed.transactions ordinary)

variable (sha256 : HashFunction)

structure Sound (block : Block) : Prop extends WellFormed block where
  root : block.merkleRoot = Crypto.merkleRoot sha256 block.transactions

theorem merkle_ok {block : Block} {done : Unit} :
    (validateBlockMerkleRoot sha256 block).result = .ok done ↔ Sound sha256 block := by
  simp only [validateBlockMerkleRoot, result_bind_eq_ok, structure_ok, merkleRoot_ok, result_failIf_eq_ok, not_not]
  constructor
  · intro passed
    obtain ⟨_, wellFormed, _, ⟨_, rfl⟩, root⟩ := passed
    exact ⟨wellFormed, root.symm⟩
  · intro rules
    obtain ⟨wellFormed, root⟩ := rules
    exact ⟨(), wellFormed, _, ⟨wellFormed.sized.some, rfl⟩, root.symm⟩

/-- A block may stand directly behind another one. -/
structure Follows (previous current : Block) : Prop where
  index : current.index = previous.index + 1
  timestamp : previous.timestamp ≤ current.timestamp
  hash : current.previousHash = blockHash sha256 previous

theorem link_ok {previous current : Block} {done : Unit} :
    (validateBlockLink sha256 previous current).result = .ok done ↔
      Sound sha256 previous ∧ Sound sha256 current ∧ Follows sha256 previous current := by
  simp only [validateBlockLink, result_bind_eq_ok, result_orFail_eq_ok, merkle_ok, result_failIf_eq_ok, blockHash_ok,
    not_not, UInt64.not_lt]
  constructor
  · intro passed
    obtain ⟨_, first, _, second, _, index, _, timestamp, _, ⟨_, rfl⟩, hash⟩ := passed
    exact ⟨first, second, index, timestamp, hash⟩
  · intro rules
    obtain ⟨first, second, index, timestamp, hash⟩ := rules
    exact ⟨(), first, (), second, (), index, (), timestamp, _, ⟨first.hashable, rfl⟩, hash⟩

/-- What it means for a chain to be valid. -/
structure ValidChain (blocks : List Block) : Prop where
  some : blocks ≠ []
  genesis : ∀ first ∈ blocks.head?, first.index = 0
  sound : ∀ block ∈ blocks, Sound sha256 block
  linked : blocks.IsChain (Follows sha256)

private theorem zip_chain {relation : Block → Block → Prop} (blocks : List Block) :
    (∀ pair ∈ blocks.zip blocks.tail, relation pair.1 pair.2) ↔ blocks.IsChain relation := by
  induction blocks with
  | nil => simp
  | cons first rest ih =>
    cases rest with
    | nil => simp
    | cons second others => simpa using fun _ => ih

theorem blockchain_ok {blocks : List Block} {done : Unit} :
    (validateBlockchain sha256 blocks).result = .ok done ↔ ValidChain sha256 blocks := by
  unfold validateBlockchain
  split
  · simp only [result_fail, reduceCtorEq, false_iff]
    exact fun valid => valid.some rfl
  next first rest =>
    simp only [result_bind_eq_ok, result_failIf_eq_ok, result_forM_eq_ok, result_orFail_eq_ok, merkle_ok, link_ok, not_not]
    constructor
    · intro passed
      obtain ⟨_, genesis, _, sound, links⟩ := passed
      refine ⟨by simp, by simpa using genesis, sound, (zip_chain _).mp fun pair member => (links pair member).2.2⟩
    · intro rules
      obtain ⟨_, genesis, sound, linked⟩ := rules
      refine ⟨(), by simpa using genesis, (), sound, ?_⟩
      intro pair member
      have inside := List.of_mem_zip member
      exact ⟨sound _ inside.1, sound _ (List.mem_of_mem_tail inside.2), (zip_chain _).mpr linked pair member⟩

variable {sha256}

theorem validChain_single {block : Block} : ValidChain sha256 [block] ↔ Sound sha256 block ∧ block.index = 0 := by
  constructor
  · intro valid
    exact ⟨valid.sound block (by simp), valid.genesis block (by simp)⟩
  · intro rules
    obtain ⟨sound, genesis⟩ := rules
    exact ⟨by simp, by simpa using genesis, by simpa using sound, by simp⟩

/-- Full validation of a grown chain only asks for the new block. -/
theorem validChain_append {blocks : List Block} {last block : Block} (found : blocks.getLast? = some last) :
    ValidChain sha256 (blocks ++ [block]) ↔
      ValidChain sha256 blocks ∧ Sound sha256 block ∧ Follows sha256 last block := by
  have some : blocks ≠ [] := by
    intro none
    rw [none] at found
    cases found
  have head : (blocks ++ [block]).head? = blocks.head? := by
    obtain ⟨first, rest, rfl⟩ := List.exists_cons_of_ne_nil some
    rfl
  constructor
  · intro valid
    have linked := List.isChain_append.mp valid.linked
    refine ⟨⟨some, head ▸ valid.genesis, ?_, linked.1⟩, valid.sound block (by simp), ?_⟩
    · exact fun inner member => valid.sound inner (by simp [member])
    · exact linked.2.2 last (by simp [found]) block (by simp)
  · intro rules
    obtain ⟨valid, sound, follows⟩ := rules
    refine ⟨by simp, head ▸ valid.genesis, ?_, List.isChain_append.mpr ⟨valid.linked, by simp, ?_⟩⟩
    · intro inner member
      rcases List.mem_append.mp member with inside | new
      · exact valid.sound inner inside
      · rwa [List.mem_singleton.mp new]
    · intro previous isLast next isNew
      simp only [found, Option.mem_def, Option.some.injEq] at isLast
      simp only [List.head?_cons, Option.mem_def, Option.some.injEq] at isNew
      exact isLast ▸ isNew ▸ follows

/-- Every block of a valid chain carries its position as its index. -/
theorem validChain_index {blocks : List Block} (valid : ValidChain sha256 blocks) {position : Nat} {block : Block}
    (found : blocks[position]? = some block) : block.index = UInt64.ofNat position := by
  induction position generalizing block with
  | zero => exact valid.genesis block (by simpa [List.head?_eq_getElem?] using found)
  | succ position ih =>
    obtain ⟨inside, rfl⟩ := List.getElem?_eq_some_iff.mp found
    have follows := List.isChain_iff_getElem.mp valid.linked position inside
    rw [follows.index, ih (List.getElem?_eq_getElem (by omega)), UInt64.ofNat_add]
    rfl

/-- The index is the position as long as positions fit into an index. -/
theorem validChain_number {blocks : List Block} (valid : ValidChain sha256 blocks) {position : Nat} {block : Block}
    (found : blocks[position]? = some block) (small : position < 2 ^ 64) : block.index.toNat = position := by
  rw [validChain_index valid found]
  exact UInt64.toNat_ofNat_of_lt' small

/-- Validity passes to every non-empty beginning of a chain. -/
theorem validChain_start {blocks start : List Block} (valid : ValidChain sha256 blocks) (some : start ≠ [])
    (cut : start <+: blocks) : ValidChain sha256 start := by
  obtain ⟨rest, rfl⟩ := cut
  obtain ⟨first, others, rfl⟩ := List.exists_cons_of_ne_nil some
  exact ⟨some, valid.genesis, fun block member => valid.sound block (List.mem_append_left rest member),
    (List.isChain_append.mp valid.linked).1⟩

/-- The only block of `data/initial_state.csv`. -/
def genesisBlock : Block where
  index := 0
  timestamp := 0x67890001
  previousHash := .text "0000000000000000000000000000000000000000000000000000000000000000"
  merkleRoot := .text "b815a93dd7f59058a27e63558ba5aa6445d851f316070ec13db673d5ab38e0cc"
  nonce := 0
  transactions := [.text "Genesis block"]

/-- The second block of `tests/fixtures/valid_blockchain.csv`. -/
def paymentBlock : Block where
  index := 1
  timestamp := 0x67890002
  previousHash := .text "6da77ddcef74a760777c7aa1da1027c20fc297a040a322685574ee432082dd85"
  merkleRoot := .text "452d6569c79a4e95f653fd194611fd570ee9c16c781a993c45c9456f6b1e1615"
  nonce := 0
  transactions := [.text "Alice pays Bob 10 coins"]

theorem fixture_accepted : (validateBlockchain sha256Bytes [genesisBlock, paymentBlock]).result = .ok () := by
  decide +kernel

theorem fixture_valid : ValidChain sha256Bytes [genesisBlock, paymentBlock] :=
  (blockchain_ok sha256Bytes).mp fixture_accepted

theorem genesis_accepted : (validateBlockchain sha256Bytes [genesisBlock]).result = .ok () :=
  (blockchain_ok sha256Bytes).mpr (validChain_start fixture_valid (by simp) ⟨[paymentBlock], rfl⟩)

theorem payment_parsed : (blockFromCsv (csvLine paymentBlock)).result = .ok paymentBlock :=
  ((fixture_valid.sound paymentBlock (by simp)).written (by decide)).2

end ProcessChain.Proofs.Validation
