import ProcessChain.Crypto
import ProcessChain.Proofs.Csv

/-! The Merkle tree of a block as a hash tree over its transactions, and the text
under a block hash. -/

namespace ProcessChain.Proofs.Crypto
open Lib Lib.FailStop

variable (sha256 : HashFunction)

/-- Two hashes next to each other, written in hexadecimal. -/
def innerNode (left right : Digest) : Bytes := digestToHex left ++ digestToHex right

abbrev rise : List Bytes → List Bytes := HashTree.rise sha256 innerNode []
abbrev summit : List Bytes → List Bytes := HashTree.summit sha256 innerNode []

private theorem evenLevel_hex (digests : List Digest) :
    evenLevel sha256 (digests.map fun digest => ⟨digestToHex digest, digestToHex_terminated digest⟩) =
      (HashTree.pad (sha256 []) digests).map fun digest => ⟨digestToHex digest, digestToHex_terminated digest⟩ := by
  simp only [evenLevel, HashTree.pad, List.length_map]
  by_cases even : digests.length % 2 = 0
  · rw [if_pos even, if_neg (not_not.mpr even)]
  · rw [if_neg even, if_pos even, List.map_append]
    rfl

private theorem combineHashes_hex (digests : List Digest) :
    combineHashes sha256 (digests.map fun digest => ⟨digestToHex digest, digestToHex_terminated digest⟩) =
      (HashTree.pairUp innerNode digests).map (sha256Hex sha256) := by
  fun_induction HashTree.pairUp innerNode digests with
  | case1 left right rest ih =>
    simp only [List.map_cons, combineHashes, ih]
    rfl
  | case2 level short =>
    rcases level with _ | ⟨_, _ | ⟨_, _⟩⟩
    · rfl
    · rfl
    · exact absurd rfl (short _ _ _)

private theorem map_hex (texts : List Bytes) : texts.map (sha256Hex sha256) =
    (texts.map sha256).map fun digest => ⟨digestToHex digest, digestToHex_terminated digest⟩ := by
  rw [List.map_map]
  rfl

/-- One pass of the loop computes the hashes of the next level of the tree. -/
theorem pass_hashes (texts : List Bytes) :
    combineHashes sha256 (evenLevel sha256 (texts.map (sha256Hex sha256))) = (rise sha256 texts).map (sha256Hex sha256) := by
  rw [map_hex, evenLevel_hex, combineHashes_hex]
  rfl

theorem levels_summit (texts : List Bytes) :
    (merkleLevels sha256 (texts.map (sha256Hex sha256))).result = .ok ((summit sha256 texts).map (sha256Hex sha256)) := by
  fun_induction HashTree.summit sha256 innerNode [] texts with
  | case1 texts more ih =>
    rw [merkleLevels, result_bind_eq_ok]
    have above : summit sha256 texts = summit sha256 (rise sha256 texts) := by
      conv_lhs => rw [summit, HashTree.summit, if_pos more]
    refine ⟨(), rfl, ?_⟩
    rw [result_ite, pass_hashes, List.length_map, if_pos more, ih, above]
  | case2 texts last =>
    rw [merkleLevels, result_bind_eq_ok]
    refine ⟨(), rfl, ?_⟩
    rw [result_ite, pass_hashes, List.length_map, if_neg last, result_pure, summit, HashTree.summit, if_neg last]

/-- The root that `calculate_merkle_root` finds. -/
def merkleRoot (transactions : List CString) : CString :=
  ((summit sha256 (transactions.map CString.bytes)).map (sha256Hex sha256)).headD (CString.text "")

theorem merkleRoot_ok {transactions : List CString} {root : CString} :
    (calculateMerkleRoot sha256 transactions).result = .ok root ↔
      transactions ≠ [] ∧ root = merkleRoot sha256 transactions := by
  have leaves : (transactions.map fun transaction => sha256Hex sha256 transaction.bytes) =
      (transactions.map CString.bytes).map (sha256Hex sha256) := by
    rw [List.map_map]
    rfl
  simp only [calculateMerkleRoot, malloc, result_bind_eq_ok, result_failIf_eq_ok, result_request, leaves, levels_summit]
  constructor
  · intro passed
    obtain ⟨_, some, _, _, last, found, same⟩ := passed
    cases found
    exact ⟨some, (Except.ok.inj same).symm⟩
  · intro rules
    obtain ⟨some, rfl⟩ := rules
    exact ⟨(), some, (), trivial, _, rfl, rfl⟩

/-- The texts hashed in one pass over an even level. -/
def pairTexts : List CString → List Bytes
  | left :: right :: rest => (left ++ right).bytes :: pairTexts rest
  | _ => []

/-- The texts that the loop over the levels hashes, in its order: the empty text
where a level is odd, then the pairs of neighbouring hashes. -/
def levelTexts (level : List CString) : List Bytes :=
  (if level.length % 2 ≠ 0 then [[]] else []) ++ pairTexts (evenLevel sha256 level) ++
    if 1 < (combineHashes sha256 (evenLevel sha256 level)).length then
      levelTexts (combineHashes sha256 (evenLevel sha256 level))
    else []
termination_by level.length
decreasing_by
  rw [combineHashes_length, evenLevel_length] at *
  omega

/-- The texts that `calculate_merkle_root` hashes, in its order. -/
def merkleTexts (transactions : List CString) : List Bytes :=
  transactions.map CString.bytes ++ levelTexts sha256 (transactions.map fun transaction => sha256Hex sha256 transaction.bytes)

private theorem pairTexts_hex (digests : List Digest) :
    pairTexts (digests.map fun digest => ⟨digestToHex digest, digestToHex_terminated digest⟩) =
      HashTree.pairUp innerNode digests := by
  fun_induction HashTree.pairUp innerNode digests with
  | case1 left right rest ih =>
    simp only [List.map_cons, pairTexts, ih]
    rfl
  | case2 level short =>
    rcases level with _ | ⟨_, _ | ⟨_, _⟩⟩
    · rfl
    · rfl
    · exact absurd rfl (short _ _ _)

private theorem pass_texts (texts : List Bytes) :
    pairTexts (evenLevel sha256 (texts.map (sha256Hex sha256))) = rise sha256 texts := by
  rw [map_hex, evenLevel_hex, pairTexts_hex]
  rfl

private theorem levelTexts_hashed (texts : List Bytes) :
    texts ++ levelTexts sha256 (texts.map (sha256Hex sha256)) = HashTree.hashed sha256 innerNode [] texts := by
  fun_induction HashTree.hashed sha256 innerNode [] texts with
  | case1 texts ih =>
    have padding : (if (texts.map (sha256Hex sha256)).length % 2 ≠ 0 then [[]] else [] : List Bytes) =
        if texts.length % 2 = 0 then [] else [[]] := by
      rw [List.length_map]
      split <;> simp_all
    rw [levelTexts, padding, pass_texts, pass_hashes, List.length_map]
    by_cases more : 1 < (rise sha256 texts).length
    · rw [if_pos more, if_pos more, ← ih more]
      simp only [List.append_assoc]
    · rw [if_neg more, if_neg more]
      simp only [List.append_assoc, List.append_nil]

theorem merkleTexts_hashed (transactions : List CString) :
    merkleTexts sha256 transactions = HashTree.hashed sha256 innerNode [] (transactions.map CString.bytes) := by
  rw [← levelTexts_hashed, List.map_map]
  rfl

theorem digestToHex_length (digest : Digest) : (digestToHex digest).length = 64 := by
  simp only [digestToHex, List.length_flatMap, List.length_cons, List.length_nil, List.map_const', List.sum_replicate_nat,
    Vector.length_toList]

theorem hash_lowercase (text : Bytes) : isLowercaseHexHash (sha256Hex sha256 text) = true := by
  have digits : ∀ digit < 16, ((48 ≤ hexDigit digit && hexDigit digit ≤ 57) ||
      (97 ≤ hexDigit digit && hexDigit digit ≤ 102)) = true := by decide
  simp only [isLowercaseHexHash, sha256Hex, CString.length, digestToHex_length, sha256HexLength, beq_self_eq_true,
    Bool.true_and, List.all_eq_true]
  intro character written
  obtain ⟨byte, _, member⟩ := List.mem_flatMap.mp written
  have small := byte.toNat_lt
  rcases List.mem_pair.mp member with rfl | rfl
  · exact digits _ (by omega)
  · exact digits _ (by omega)

theorem merkleRoot_lowercase {transactions : List CString} (some : transactions ≠ []) :
    isLowercaseHexHash (merkleRoot sha256 transactions) = true := by
  obtain ⟨height, climb⟩ := HashTree.climb sha256 innerNode [] (transactions.map CString.bytes) (by simpa using some)
  obtain ⟨text, same⟩ := List.length_eq_one_iff.mp climb.single
  rw [merkleRoot, summit, same]
  exact hash_lowercase sha256 text

/-- The text that is hashed for a block. -/
def hashInput (block : Block) : CString :=
  hex16 block.index ++ hex16 block.timestamp ++ block.previousHash ++ block.merkleRoot ++ hex16 block.nonce ++
    CString.join doubleColon block.transactions

/-- The hash of a block whose hash fields have the right length. -/
def blockHash (block : Block) : CString := sha256Hex sha256 (hashInput block).bytes

/-- How a joined text is split into transactions does not change the hash. -/
theorem blockHash_rejoined (block : Block) :
    blockHash sha256 { block with transactions := Csv.rejoined block.transactions } = blockHash sha256 block := by
  have inputs : hashInput { block with transactions := Csv.rejoined block.transactions } = hashInput block := by
    apply CString.ext
    simp only [hashInput, CString.bytes_append, Csv.join_rejoined]
  rw [blockHash, blockHash, inputs]

structure Hashable (block : Block) : Prop where
  previousHash : block.previousHash.length = sha256HexLength
  merkleRoot : block.merkleRoot.length = sha256HexLength
  some : block.transactions ≠ []

theorem hashInput_ok {block : Block} {input : CString} :
    (buildBlockHashInput block).result = .ok input ↔ Hashable block ∧ input = hashInput block := by
  simp only [buildBlockHashInput, malloc, result_bind_eq_ok, result_failIf_eq_ok, result_request, result_pure, not_or, not_not]
  constructor
  · intro passed
    obtain ⟨_, ⟨previousHash, merkleRoot⟩, _, some, _, _, _, _, _, _, same⟩ := passed
    exact ⟨⟨previousHash, merkleRoot, some⟩, (Except.ok.inj same).symm⟩
  · intro rules
    obtain ⟨⟨previousHash, merkleRoot, some⟩, rfl⟩ := rules
    have number := fun value => hex16_length value
    have joined := Csv.join_length block.transactions
    refine ⟨(), ⟨previousHash, merkleRoot⟩, (), some, (), trivial, (), ?_, (), ?_, rfl⟩
    · simp only [CString.length] at number previousHash merkleRoot
      simp only [CString.length, CString.bytes_append, List.length_append, number, previousHash, merkleRoot]
    · simp only [CString.length] at number previousHash merkleRoot joined
      simp only [CString.length, CString.bytes_append, List.length_append, number, previousHash, merkleRoot, joined]

theorem blockHash_ok {block : Block} {hash : CString} :
    (calculateBlockHash sha256 block).result = .ok hash ↔ Hashable block ∧ hash = blockHash sha256 block := by
  simp only [calculateBlockHash, result_bind_eq_ok, hashInput_ok, result_pure, Except.ok.injEq]
  constructor
  · intro passed
    obtain ⟨_, ⟨hashable, rfl⟩, rfl⟩ := passed
    exact ⟨hashable, rfl⟩
  · intro rules
    obtain ⟨hashable, rfl⟩ := rules
    exact ⟨_, ⟨hashable, rfl⟩, rfl⟩

end ProcessChain.Proofs.Crypto
