import ProcessChain.Proofs.BashVerifier
import ProcessChain.Proofs.ChainFile
import ProcessChain.Proofs.Tamper

/-! The verifier in Bash and the C side on the same files. For the same blocks their
rules differ in three things only, but they do not read the same blocks out of every
file: the script cuts a line at every comma and the C side at the first five. -/

namespace ProcessChain.Proofs.Compatibility
open Lib Lib.FailStop Csv Crypto Validation RoundTrip Tamper Handlers ChainFile BashVerifier Bash

variable {sha256 : HashFunction}

/-- The block at a small position has the number zero only at the very beginning. -/
private theorem first_index {position : Nat} (small : position < intmaxBound) :
    UInt64.ofNat position ≠ 0 ↔ 0 < position := by
  simp only [intmaxBound] at small
  have number : (UInt64.ofNat position).toNat = position := by
    rw [UInt64.toNat_ofNat']
    omega
  rw [ne_eq, ← UInt64.toNat_inj, number, UInt64.toNat_zero]
  omega

private theorem chain_bounded (chain : Blockchain) : chain.blocks.length ≤ intmaxBound := by
  have fits := chain.fits
  have allocated := chain.allocated
  simp only [sizeofBlock, ptrdiffMax] at allocated
  simp only [intmaxBound]
  omega

/-- What the script asks of one block, for a block that fits into the limits. -/
theorem checked_sound {position : Nat} {previous : Option Block} {block : Block} (small : position < intmaxBound)
    (sized : WellSized block.transactions) :
    Checked sha256 position previous block ↔ Sound sha256 block ∧ rejoined block.transactions = block.transactions ∧
      block.index = UInt64.ofNat position ∧ ∀ before ∈ previous, block.previousHash = blockHash sha256 before := by
  constructor
  · intro checked
    refine ⟨⟨⟨checked.previousHash, checked.merkleRoot, sized, ?_⟩, checked.root⟩, checked.whole, checked.index, checked.link⟩
    intro ordinary transaction member
    rw [checked.index, first_index small] at ordinary
    obtain ⟨visible, short⟩ := sized.short transaction member
    exact ⟨visible, short, checked.matched ordinary transaction member⟩
  · intro rules
    obtain ⟨sound, whole, index, link⟩ := rules
    refine ⟨sound.previousHash, sound.merkleRoot, whole, ?_, small, index, ?_, sound.root, link⟩
    · exact fun transaction member => (sized.short transaction member).1
    · intro later transaction member
      apply (sound.transactions ?_ transaction member).matched
      rw [index]
      exact (first_index small).mpr later

/-- The rules of both sides for the same blocks: the script neither limits the
transactions nor orders the timestamps, and the C side does not ask whether the
transactions of a block are split differently when they are read. -/
theorem checkedFrom_validChain {blocks : List Block} (bounded : blocks.length ≤ intmaxBound) :
    (ValidChain sha256 blocks ∧ ∀ block ∈ blocks, rejoined block.transactions = block.transactions) ↔
      CheckedFrom sha256 0 none blocks ∧ blocks ≠ [] ∧ (∀ block ∈ blocks, WellSized block.transactions) ∧
        blocks.IsChain fun previous current => previous.timestamp ≤ current.timestamp := by
  induction blocks using List.reverseRecOn with
  | nil =>
    constructor
    · exact fun rules => absurd rfl rules.1.some
    · exact fun rules => absurd rfl rules.2.1
  | append_singleton earlier block ih =>
    have small : earlier.length < intmaxBound := by
      rw [List.length_append, List.length_singleton] at bounded
      omega
    have earlierBounded : earlier.length ≤ intmaxBound := Nat.le_of_lt small
    rw [checkedFrom_append, Nat.zero_add, Option.or_none]
    cases found : earlier.getLast? with
    | none =>
      rw [List.getLast?_eq_none_iff] at found
      subst found
      rw [List.nil_append, validChain_single]
      simp only [CheckedFrom, true_and, List.length_nil, List.forall_mem_singleton, ne_eq, List.cons_ne_self, not_false_eq_true,
        List.isChain_singleton, and_true]
      constructor
      · intro rules
        obtain ⟨⟨sound, index⟩, whole⟩ := rules
        exact ⟨(checked_sound small sound.sized).mpr ⟨sound, whole, index, by simp⟩, sound.sized⟩
      · intro rules
        obtain ⟨sound, whole, index, _⟩ := (checked_sound small rules.2).mp rules.1
        exact ⟨⟨sound, index⟩, whole⟩
    | some last =>
      have some : earlier ≠ [] := by
        intro none
        rw [none] at found
        cases found
      have ordered : (earlier ++ [block]).IsChain (fun previous current => previous.timestamp ≤ current.timestamp) ↔
          earlier.IsChain (fun previous current => previous.timestamp ≤ current.timestamp) ∧
            last.timestamp ≤ block.timestamp := by
        simp [List.isChain_append, found]
      have next (valid : ValidChain sha256 earlier) : last.index + 1 = UInt64.ofNat earlier.length := by
        rw [List.getLast?_eq_getElem?] at found
        have positive := List.length_pos_iff.mpr some
        rw [validChain_index valid found, ← UInt64.ofNat_one, ← UInt64.ofNat_add]
        congr 1
        omega
      rw [validChain_append found, ordered]
      simp only [List.forall_mem_append, List.forall_mem_singleton]
      constructor
      · intro rules
        obtain ⟨⟨valid, sound, follows⟩, whole, last⟩ := rules
        obtain ⟨checked, _, sized, sorted⟩ := (ih earlierBounded).mp ⟨valid, whole⟩
        have here : Checked sha256 earlier.length (Option.some _) block :=
          (checked_sound small sound.sized).mpr ⟨sound, last, follows.index.trans (next valid), by simpa using follows.hash⟩
        exact ⟨⟨checked, here⟩, by simp, ⟨sized, sound.sized⟩, sorted, follows.timestamp⟩
      · intro rules
        obtain ⟨⟨checked, here⟩, _, ⟨sized, last⟩, sorted, timestamp⟩ := rules
        obtain ⟨valid, whole⟩ := (ih earlierBounded).mpr ⟨checked, some, sized, sorted⟩
        obtain ⟨sound, here, index, link⟩ := (checked_sound small last).mp here
        exact ⟨⟨valid, sound, ⟨index.trans (next valid).symm, timestamp, link _ rfl⟩⟩, whole, here⟩

/-- Transactions that the script reads back from the line written for them. -/
structure Clear (transactions : List CString) : Prop where
  uncut : ∀ transaction ∈ transactions, 44 ∉ transaction.bytes
  colonClear : ColonClear transactions

private theorem join_uncut {transactions : List CString} :
    44 ∉ (CString.join doubleColon transactions).bytes ↔ ∀ transaction ∈ transactions, 44 ∉ transaction.bytes := by
  constructor
  · intro clean transaction member inside
    apply clean
    rw [CString.bytes_join]
    exact subset_intercalate doubleColon.bytes (List.mem_map_of_mem member) inside
  · exact join_letters (by decide)

theorem readRecord_line {block : Block} (previousHash : isLowercaseHexHash block.previousHash = true)
    (merkleRoot : isLowercaseHexHash block.merkleRoot = true)
    (uncut : ∀ transaction ∈ block.transactions, 44 ∉ transaction.bytes) :
    readRecord (csvLine block).bytes = recordOf block := by
  apply (readRecord_recordOf previousHash merkleRoot).mpr
  exact ⟨join_uncut.mpr uncut, [], Or.inl rfl, by rw [List.append_nil]⟩

theorem header_letters : ∀ byte ∈ blockchainCsvHeader, byte ≠ 13 ∧ byte ≠ 10 ∧ byte ≠ 0 := by
  rw [blockchainCsvHeader, ascii_ofList]
  decide +kernel

/-- A line without a carriage return is taken as it is. -/
theorem stripReturn_same {line : Bytes} (clean : 13 ∉ line) : stripReturn line = line := by
  unfold stripReturn
  rw [if_neg]
  exact fun last => clean (List.mem_of_getLast? last)

theorem linesOf_fileOf {blocks : List Block} (writable : ∀ block ∈ blocks, Writable block) :
    linesOf 10 (fileOf blocks) =
      ⟨blockchainCsvHeader, true⟩ :: blocks.map fun block => ⟨(csvLine block).bytes, true⟩ := by
  have clean : ∀ line ∈ blockchainCsvHeader :: blocks.map fun block => (csvLine block).bytes, 10 ∉ line := by
    intro line member feed
    rcases List.mem_cons.mp member with rfl | written
    · exact (header_letters 10 feed).2.1 rfl
    · obtain ⟨block, inside, rfl⟩ := List.mem_map.mp written
      exact (csvLine_letters (writable block inside) 10 feed).2 rfl
  rw [fileOf, linesOf_written clean, List.map_cons, List.map_map]
  rfl

theorem csvLine_visible (block : Block) : (csvLine block).bytes ≠ [] := by
  rw [csvLine_commas]
  simp

/-- Every line of a saved file gives a record. -/
private theorem recordsOf_saved {blocks : List Block} (writable : ∀ block ∈ blocks, Writable block) :
    recordsOf (blocks.map fun block => ⟨(csvLine block).bytes, true⟩) =
      blocks.map fun block => readRecord (csvLine block).bytes := by
  have stripped : (blocks.map fun block => (⟨(csvLine block).bytes, true⟩ : Line UInt8)).map (fun line => stripReturn line.text) =
      blocks.map fun block => (csvLine block).bytes := by
    rw [List.map_map]
    apply List.map_congr_left
    intro block member
    exact stripReturn_same fun feed => (csvLine_letters (writable block member) 13 feed).1 rfl
  have shown : (blocks.map fun block => (csvLine block).bytes).filter (· ≠ []) = blocks.map fun block => (csvLine block).bytes := by
    apply List.filter_eq_self.mpr
    intro line member
    obtain ⟨block, _, rfl⟩ := List.mem_map.mp member
    exact decide_eq_true (csvLine_visible block)
  simp only [recordsOf, stripped, shown, List.map_map, Function.comp_def]

theorem fileOf_terminated (blocks : List Block) : 0 ∉ fileOf blocks := by
  intro zero
  obtain ⟨line, member, inside⟩ := List.mem_flatMap.mp zero
  rcases List.mem_append.mp inside with text | feed
  · rcases List.mem_cons.mp member with rfl | written
    · exact (header_letters 0 text).2.2 rfl
    · obtain ⟨block, _, rfl⟩ := List.mem_map.mp written
      exact (csvLine block).terminated text
  · exact absurd (List.mem_singleton.mp feed) (by decide)

/-- A saved file is accepted exactly when the script reads blocks that pass out of its lines. -/
theorem verify_fileOf {blocks : List Block} {count : Nat} (writable : ∀ block ∈ blocks, Writable block) :
    verifyBlockchain sha256 (fileOf blocks) = .ok count ↔ ∃ read,
      (blocks.map fun block => readRecord (csvLine block).bytes) = read.map recordOf ∧ CheckedFrom sha256 0 none read ∧
        read ≠ [] ∧ count = read.length := by
  have title : stripReturn blockchainCsvHeader = blockchainCsvHeader :=
    stripReturn_same fun feed => (header_letters 13 feed).1 rfl
  rw [verifyBlockchain_ok sha256 (fileOf_terminated blocks), linesOf_fileOf writable]
  constructor
  · intro accepted
    obtain ⟨_, _, read, lines, _, records, facts⟩ := accepted
    rw [← (List.cons.inj lines).2, recordsOf_saved writable] at records
    exact ⟨read, records, facts⟩
  · intro accepted
    obtain ⟨read, records, facts⟩ := accepted
    rw [← recordsOf_saved writable] at records
    exact ⟨blockchainCsvHeader, _, read, rfl, title, records, facts⟩

/-- Only the first block of a valid chain can have the number zero. -/
private theorem ordinary_or_first {chain : Blockchain} (valid : ValidChain sha256 chain.blocks) {block : Block}
    (member : block ∈ chain.blocks) : block.index ≠ 0 ∨ block ∈ chain.blocks.head? := by
  obtain ⟨position, found⟩ := List.mem_iff_getElem?.mp member
  by_cases first : position = 0
  · right
    rwa [List.head?_eq_getElem?, ← first]
  · left
    have inside := (List.getElem?_eq_some_iff.mp found).1
    have bounded := chain_bounded chain
    rw [validChain_index valid found]
    exact (first_index (by omega)).mpr (by omega)

/-- The transactions of a valid chain are clear if those of its first block are. -/
private theorem valid_clear {chain : Blockchain} (valid : ValidChain sha256 chain.blocks)
    (genesisClear : ∀ genesis ∈ chain.blocks.head?, Clear genesis.transactions) {block : Block}
    (member : block ∈ chain.blocks) : Clear block.transactions := by
  rcases ordinary_or_first valid member with ordinary | first
  · have transactions := (valid.sound block member).transactions ordinary
    refine ⟨?_, ?_⟩
    · intro transaction inside comma
      exact (matched_plain (transactions transaction inside).matched 44 comma).2 rfl
    · intro transaction inside last
      have letter := List.mem_of_getLast? last
      exact (validTransaction_plain (transactions transaction (List.dropLast_subset _ inside)) 58 letter).1 rfl
  · exact genesisClear block first

/-- The script accepts a saved chain whose first block has clear transactions. -/
theorem clear_verified {chain : Blockchain} (valid : ValidChain sha256 chain.blocks)
    (writable : ∀ block ∈ chain.blocks, Writable block)
    (genesisClear : ∀ genesis ∈ chain.blocks.head?, Clear genesis.transactions) :
    verifyBlockchain sha256 (fileOf chain.blocks) = .ok chain.count := by
  have whole : ∀ block ∈ chain.blocks, rejoined block.transactions = block.transactions := by
    intro block member
    have clear := valid_clear valid genesisClear member
    exact (rejoined_same (writable block member).sized.some (writable block member).plain).mpr clear.colonClear
  obtain ⟨checked, some, _⟩ := (checkedFrom_validChain (chain_bounded chain)).mp ⟨valid, whole⟩
  apply (verify_fileOf writable).mpr
  refine ⟨chain.blocks, ?_, checked, some, rfl⟩
  apply List.map_congr_left
  intro block member
  have clear := valid_clear valid genesisClear member
  exact readRecord_line (writable block member).previousHash (writable block member).merkleRoot clear.uncut

/-- The line of a block gives its fields. -/
private theorem csvLine_fields {first second : Block} (firstHashes : CommaFree (fieldsOf first))
    (secondHashes : CommaFree (fieldsOf second)) (same : csvLine first = csvLine second) :
    fieldsOf first = fieldsOf second := by
  have lines := congrArg CString.bytes same
  rw [csvLine_bytes, csvLine_bytes] at lines
  have split := split_line firstHashes
  rw [lines, split_line secondHashes] at split
  exact (Option.some.inj split).symm

/-- A written line ends with the quotes and so without stray commas. -/
private theorem csvLine_unfollowed {first second : Block} {tail : Bytes} (stray : StrayCommas tail)
    (same : (csvLine first).bytes = (csvLine second).bytes ++ tail) : csvLine first = csvLine second := by
  have last : (csvLine first).bytes.getLast? = some 34 := by
    rw [csvLine, CString.bytes_append]
    exact List.getLast?_concat
  rcases stray with rfl | rfl | rfl
  · exact CString.ext (by rw [same, List.append_nil])
  · rw [same, List.getLast?_concat] at last
    cases last
  · rw [same, List.append_cons, List.getLast?_concat] at last
    cases last

/-- What the script reads out of the first line that was saved, if it accepts the file. -/
theorem verified_first {blocks : List Block} {genesis : Block} {count : Nat} (writable : ∀ block ∈ blocks, Writable block)
    (sound : Sound sha256 genesis) (first : genesis ∈ blocks.head?)
    (accepted : verifyBlockchain sha256 (fileOf blocks) = .ok count) :
    ∃ read, Checked sha256 0 none read ∧ fieldsOf genesis = fieldsOf read ∧
      44 ∉ (CString.join doubleColon read.transactions).bytes := by
  obtain ⟨rest, rfl⟩ := List.head?_eq_some_iff.mp first
  obtain ⟨read, records, checked, some, _⟩ := (verify_fileOf writable).mp accepted
  obtain ⟨found, others, rfl⟩ := List.exists_cons_of_ne_nil some
  rw [List.map_cons, List.map_cons, List.cons.injEq] at records
  have here : Checked sha256 0 none found := checked.1
  obtain ⟨uncut, tail, stray, line⟩ := (readRecord_recordOf here.previousHash here.merkleRoot).mp records.1
  have fields := csvLine_fields (commaFree sound.previousHash sound.merkleRoot)
    (commaFree here.previousHash here.merkleRoot) (csvLine_unfollowed stray line)
  exact ⟨found, here, fields, uncut⟩

/-- Blocks with the same fields have the same transactions if one of them was read,
unless two texts hashed for their Merkle roots have the same digest. -/
private theorem fields_bind {block read : Block} (sound : Sound sha256 block) {position : Nat} {previous : Option Block}
    (checked : Checked sha256 position previous read) (fields : fieldsOf block = fieldsOf read)
    (clean : ¬ HashTree.Collision sha256
      (merkleTexts sha256 block.transactions ++ merkleTexts sha256 (rejoined block.transactions))) :
    rejoined block.transactions = block.transactions := by
  have joined : (CString.join doubleColon block.transactions).bytes = (CString.join doubleColon read.transactions).bytes := by
    rw [← inner_transactions, fields, inner_transactions]
  have same : rejoined block.transactions = read.transactions := by
    rw [← checked.whole, rejoined, rejoined, joined]
  have some : rejoined block.transactions ≠ [] := by
    rw [rejoined]
    simpa using pieces_some
  have roots : block.merkleRoot = read.merkleRoot := CString.ext (congrArg Fields.merkleRoot fields)
  rw [same] at some clean ⊢
  symm
  apply transactions_bind sound.sized.some some (fun transaction member => (sound.sized.short transaction member).1)
    checked.visible joined ?_ clean
  rw [← sound.root, roots, checked.root]

/-- A saved chain passes the verifier if its first block has no comma in a transaction
and no transaction that ends in a colon in front of another one. With a comma it never
passes, and with a colon only if two texts hashed for that block have the same digest. -/
theorem saved_chain_verified (sha256 : HashFunction) {chain : Blockchain} {heap : Heap} {contents : Bytes}
    (valid : (validateBlockchain sha256 chain.blocks).result = .ok ())
    (saved : (blockchainSaveCsv chain heap).1 = .ok contents) {genesis : Block} (first : genesis ∈ chain.blocks.head?) :
    (Clear genesis.transactions → ∃ count, verifyBlockchain sha256 contents = .ok count) ∧
      ((∃ count, verifyBlockchain sha256 contents = .ok count) →
        (∀ transaction ∈ genesis.transactions, 44 ∉ transaction.bytes) ∧
          (ColonClear genesis.transactions ∨ HashTree.Collision sha256
            (merkleTexts sha256 genesis.transactions ++ merkleTexts sha256 (rejoined genesis.transactions)))) := by
  rw [blockchain_ok] at valid
  obtain ⟨writable, rfl⟩ := (saveCsv_ensures chain).always heap contents saved
  have member := List.mem_of_mem_head? first
  have sound := valid.sound genesis member
  constructor
  · intro clear
    have genesisClear : ∀ block ∈ chain.blocks.head?, Clear block.transactions := by
      intro block head
      rwa [Option.mem_unique head first]
    exact ⟨chain.count, clear_verified valid writable genesisClear⟩
  · intro accepted
    obtain ⟨count, accepted⟩ := accepted
    obtain ⟨read, checked, fields, uncut⟩ := verified_first writable sound first accepted
    refine ⟨?_, or_iff_not_imp_right.mpr fun clean => ?_⟩
    · rw [← join_uncut, ← inner_transactions, fields, inner_transactions]
      exact uncut
    · apply (rejoined_same sound.sized.some (writable genesis member).plain).mp
      exact fields_bind sound checked fields clean

def fixtureChain : Blockchain := ⟨[genesisBlock, paymentBlock], 4, by decide, four_allocated⟩

theorem fixtureChain_saved : (blockchainSaveCsv fixtureChain openHeap).1 = .ok (fileOf [genesisBlock, paymentBlock]) := by
  decide +kernel

theorem fixtureChain_verified :
    ∃ count, verifyBlockchain sha256Bytes (fileOf [genesisBlock, paymentBlock]) = .ok count :=
  (saved_chain_verified sha256Bytes fixture_accepted fixtureChain_saved rfl).1 ⟨by decide +kernel, by decide +kernel⟩

/-- A genesis block with a comma in its transaction. -/
def commaBlock : Block where
  index := 0
  timestamp := 0x67890001
  previousHash := genesisBlock.previousHash
  merkleRoot := .text "d143aacc51e85eb081a3651b99b50cd6157c2b91d48ae3c68cbfcaca1fa51963"
  nonce := 0
  transactions := [.text "a,b"]

/-- A valid chain that is saved to a file that the script rejects. -/
theorem commaBlock_rejected : ∃ chain : Blockchain, chain.blocks = [commaBlock] ∧
    (validateBlockchain sha256Bytes chain.blocks).result = .ok () ∧ ∃ contents,
      (blockchainSaveCsv chain openHeap).1 = .ok contents ∧ ∀ count, verifyBlockchain sha256Bytes contents ≠ .ok count := by
  have valid : (validateBlockchain sha256Bytes [commaBlock]).result = .ok () := by decide +kernel
  have saved : (blockchainSaveCsv ⟨[commaBlock], 4, by decide, by decide⟩ openHeap).1 = .ok (fileOf [commaBlock]) := by
    decide +kernel
  have sound := ((blockchain_ok sha256Bytes).mp valid).sound commaBlock (by simp)
  obtain ⟨writable, _⟩ := (saveCsv_ensures _).always openHeap _ saved
  refine ⟨⟨[commaBlock], 4, by decide, by decide⟩, rfl, valid, _, saved, ?_⟩
  intro count accepted
  obtain ⟨read, _, fields, uncut⟩ := verified_first writable sound rfl accepted
  rw [← inner_transactions, ← fields, inner_transactions] at uncut
  exact absurd uncut (by decide +kernel)

end ProcessChain.Proofs.Compatibility
