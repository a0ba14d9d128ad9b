import ProcessChain.Proofs.Tamper
import ProcessChain.Proofs.Sha256Memory

/-! What the chain needs of the vendored SHA-256. Every text that is hashed for an accepted
chain is short enough for its loop to end, and two accepted chains with the same last
hash are the same, or show a collision of the compression function. -/

namespace ProcessChain.Proofs.Compression
open Lib Csv Crypto Validation Tamper ProcessChain.Sha256 Sha256 Sha256Memory

/-- The longest text that is hashed: the one of a block with all its transactions. -/
def longestText : Nat :=
  16 + 16 + sha256HexLength + sha256HexLength + 16 + maxTransactionsPerBlock * (maxTransactionLength - 1) + 2 * (maxTransactionsPerBlock - 1)

private theorem hashInput_short {block : Block} (wellFormed : WellFormed block) : (hashInput block).bytes.length ≤ longestText := by
  have number := fun value => hex16_length value
  have joined := join_length block.transactions
  have bounded := joinedLength_le wellFormed.sized
  have previous := wellFormed.hashable.previousHash
  have merkle := wellFormed.hashable.merkleRoot
  simp only [CString.length] at number joined previous merkle
  simp only [hashInput, CString.bytes_append, List.length_append, number, previous, merkle, joined, longestText]
  omega

private theorem merkleText_short (sha256 : HashFunction) {transactions : List CString} (sized : WellSized transactions) {text : Bytes}
    (used : text ∈ merkleTexts sha256 transactions) : text.length ≤ longestText := by
  rw [merkleTexts_hashed] at used
  rcases HashTree.mem_hashed used with leaf | rfl | ⟨left, right, rfl⟩
  · obtain ⟨transaction, member, rfl⟩ := List.mem_map.mp leaf
    exact Nat.le_trans (Nat.le_of_lt (sized.short transaction member).2) (by decide)
  · exact Nat.zero_le _
  · rw [innerNode, List.length_append, digestToHex_length, digestToHex_length]
    decide

theorem hashedTexts_short {sha256 : HashFunction} {blocks : List Block} (valid : ValidChain sha256 blocks) {text : Bytes}
    (used : text ∈ hashedTexts sha256 blocks) : text.length ≤ longestText := by
  obtain ⟨block, member, used⟩ := List.mem_flatMap.mp used
  have sound := valid.sound block member
  rcases List.mem_cons.mp used with rfl | used
  · exact hashInput_short sound.toWellFormed
  · exact merkleText_short sha256 sound.sized used

/-- No text that is hashed for an accepted chain comes near the length from which the hash function does not end. -/
theorem accepted_chain_hashing_ends (memory : StackMemory) {blocks : List Block}
    (accepted : (validateBlockchain sha256Bytes blocks).result = .ok ()) :
    ∀ text ∈ hashedTexts sha256Bytes blocks,
      sha256InMemory memory longestText text = .done (sha256Bytes text).toList := by
  intro text used
  have short := hashedTexts_short ((blockchain_ok sha256Bytes).mp accepted) used
  exact hashing_ends memory (Nat.lt_of_le_of_lt short (by decide)) short

/-- Arrays that hold nothing but zeros. -/
def clearedMemory : StackMemory := ⟨List.replicate 64 0, List.replicate 64 0, List.replicate 32 0, rfl, rfl, rfl⟩

theorem fixture_hashing_ends : sha256InMemory clearedMemory longestText (hashInput paymentBlock).bytes =
    .done (sha256Bytes (hashInput paymentBlock).bytes).toList :=
  accepted_chain_hashing_ends clearedMemory fixture_accepted _ (by simp [hashedTexts])

/-- The inputs of the compression function for the block hashes and Merkle roots of a chain. -/
def chainCompressions (blocks : List Block) : List (Words × Bytes) := (hashedTexts sha256Bytes blocks).flatMap compressions

private theorem collision_compresses {first second : List Block} (firstValid : ValidChain sha256Bytes first)
    (secondValid : ValidChain sha256Bytes second)
    (collision : HashTree.Collision sha256Bytes (hashedTexts sha256Bytes first ++ hashedTexts sha256Bytes second)) :
    MerkleDamgard.Meets sha256Transform (chainCompressions first ++ chainCompressions second) := by
  obtain ⟨left, inLeft, right, inRight, different, same⟩ := collision
  have short {text : Bytes} (used : text ∈ hashedTexts sha256Bytes first ++ hashedTexts sha256Bytes second) :
      text.length < 2 ^ 61 := by
    have small : longestText < 2 ^ 61 := by decide
    rcases List.mem_append.mp used with used | used
    · exact Nat.lt_of_le_of_lt (hashedTexts_short firstValid used) small
    · exact Nat.lt_of_le_of_lt (hashedTexts_short secondValid used) small
  rw [chainCompressions, chainCompressions, ← List.flatMap_append]
  have part {text : Bytes} (used : text ∈ hashedTexts sha256Bytes first ++ hashedTexts sha256Bytes second) :
      compressions text ⊆ (hashedTexts sha256Bytes first ++ hashedTexts sha256Bytes second).flatMap compressions :=
    fun _ inside => List.mem_flatMap.mpr ⟨text, used, inside⟩
  refine (Sha256.collision_compresses different (short inLeft) (short inRight) same).mono ?_
  exact List.append_subset.mpr ⟨part inLeft, part inRight⟩

/-- Two accepted chains whose last blocks have the same hash are the same chain, or one can read off them two
different inputs of the compression function with the same output. -/
theorem chain_rests_on_compression (first second : Blockchain)
    (firstAccepted : (validateBlockchain sha256Bytes first.blocks).result = .ok ())
    (secondAccepted : (validateBlockchain sha256Bytes second.blocks).result = .ok ())
    {firstLast secondLast : Block} (firstFound : first.last = some firstLast) (secondFound : second.last = some secondLast)
    {hash : CString} (firstHash : (calculateBlockHash sha256Bytes firstLast).result = .ok hash)
    (secondHash : (calculateBlockHash sha256Bytes secondLast).result = .ok hash) :
    first.blocks = second.blocks ∨
      ∃ left ∈ chainCompressions first.blocks ++ chainCompressions second.blocks,
        ∃ right ∈ chainCompressions first.blocks ++ chainCompressions second.blocks,
          left ≠ right ∧ sha256Transform left.1 left.2 = sha256Transform right.1 right.2 := by
  have firstValid := (blockchain_ok sha256Bytes).mp firstAccepted
  have secondValid := (blockchain_ok sha256Bytes).mp secondAccepted
  have same : blockHash sha256Bytes firstLast = blockHash sha256Bytes secondLast := by
    rw [← ((blockHash_ok sha256Bytes).mp firstHash).2, ((blockHash_ok sha256Bytes).mp secondHash).2]
  refine or_iff_not_imp_right.mpr fun unmet => ?_
  have clean := fun collision => unmet (collision_compresses firstValid secondValid collision)
  have firstMember := List.mem_of_getLast? firstFound
  have secondMember := List.mem_of_getLast? secondFound
  have lasts : firstLast = secondLast :=
    block_binds (firstValid.sound _ firstMember) (secondValid.sound _ secondMember) same
      (clean_within (by simpa using firstMember) (by simpa using secondMember) clean)
  have firstIndex := last_index firstValid firstFound
  have secondIndex := last_index secondValid secondFound
  rw [lasts, secondIndex] at firstIndex
  refine chain_binds firstValid secondValid firstIndex.symm ?_ clean
  rw [← Blockchain.last, ← Blockchain.last, firstFound, secondFound, lasts]

theorem fixtureChain_fits : [genesisBlock, paymentBlock].length ≤ 4 := by simp

def fixtureChain : Blockchain := ⟨[genesisBlock, paymentBlock], 4, fixtureChain_fits, four_allocated⟩

/-- The chain of the fixture and itself. -/
theorem fixture_rests_on_compression : fixtureChain.blocks = fixtureChain.blocks ∨
    ∃ left ∈ chainCompressions fixtureChain.blocks ++ chainCompressions fixtureChain.blocks,
      ∃ right ∈ chainCompressions fixtureChain.blocks ++ chainCompressions fixtureChain.blocks,
        left ≠ right ∧ sha256Transform left.1 left.2 = sha256Transform right.1 right.2 :=
  have hashed := (blockHash_ok sha256Bytes).mpr ⟨(fixture_valid.sound paymentBlock (by simp)).hashable, rfl⟩
  chain_rests_on_compression fixtureChain fixtureChain fixture_accepted fixture_accepted rfl rfl hashed hashed

end ProcessChain.Proofs.Compression
