import ProcessChain.Blockchain
import ProcessChain.Proofs.Validation

/-! Tamper evidence. A block hash fixes every field of its block and the joined
text of the transactions, and the Merkle root fixes the transactions up to levels
of the tree. Neither alone determines the transactions of a genesis block; both
together do, unless two different hashed texts have the same digest. -/

namespace ProcessChain.Proofs.Tamper
open Lib Lib.FailStop Csv Crypto Validation

private theorem hexDigit_injective : ∀ first < 16, ∀ second < 16, hexDigit first = hexDigit second → first = second := by
  decide

private theorem hexPair_injective {first second : UInt8}
    (same : [hexDigit (first.toNat / 16), hexDigit (first.toNat % 16)] =
      [hexDigit (second.toNat / 16), hexDigit (second.toNat % 16)]) : first = second := by
  have firstSmall := first.toNat_lt
  have secondSmall := second.toNat_lt
  simp only [List.cons.injEq, and_true] at same
  have high := hexDigit_injective _ (by omega) _ (by omega) same.1
  have low := hexDigit_injective _ (by omega) _ (by omega) same.2
  exact UInt8.toNat_inj.mp (by omega)

private theorem hexBytes_injective {first second : List UInt8}
    (same : (first.flatMap fun byte => [hexDigit (byte.toNat / 16), hexDigit (byte.toNat % 16)]) =
      second.flatMap fun byte => [hexDigit (byte.toNat / 16), hexDigit (byte.toNat % 16)]) : first = second := by
  induction first generalizing second with
  | nil =>
    cases second with
    | nil => rfl
    | cons => simp at same
  | cons head tail ih =>
    cases second with
    | nil => simp at same
    | cons other rest =>
      simp only [List.flatMap_cons] at same
      obtain ⟨heads, tails⟩ := List.append_inj same rfl
      rw [hexPair_injective heads, ih tails]

theorem digestToHex_injective {first second : Digest} (same : digestToHex first = digestToHex second) : first = second :=
  Vector.toList_inj.mp (hexBytes_injective same)

private theorem hex16_injective {first second : UInt64} (same : (hex16 first).bytes = (hex16 second).bytes) :
    first = second := by
  have read := parse_hex16 first
  rw [CString.ext same, parse_hex16 second] at read
  exact (Except.ok.inj read).symm

/-- The fields of a block that stand in front of the transactions. -/
structure SameHeader (first second : Block) : Prop where
  index : first.index = second.index
  timestamp : first.timestamp = second.timestamp
  previousHash : first.previousHash = second.previousHash
  merkleRoot : first.merkleRoot = second.merkleRoot
  nonce : first.nonce = second.nonce

/-- The hashed text of a block determines its header and its joined transactions. -/
theorem hashInput_binds {first second : Block} (firstHashable : Hashable first) (secondHashable : Hashable second)
    (same : hashInput first = hashInput second) : SameHeader first second ∧
      (CString.join doubleColon first.transactions).bytes = (CString.join doubleColon second.transactions).bytes := by
  have number (value other : UInt64) : (hex16 value).bytes.length = (hex16 other).bytes.length :=
    (hex16_length value).trans (hex16_length other).symm
  have previous : first.previousHash.bytes.length = second.previousHash.bytes.length :=
    firstHashable.previousHash.trans secondHashable.previousHash.symm
  have merkle : first.merkleRoot.bytes.length = second.merkleRoot.bytes.length :=
    firstHashable.merkleRoot.trans secondHashable.merkleRoot.symm
  have bytes := congrArg CString.bytes same
  simp only [hashInput, CString.bytes_append, List.append_assoc] at bytes
  obtain ⟨index, bytes⟩ := List.append_inj bytes (number _ _)
  obtain ⟨timestamp, bytes⟩ := List.append_inj bytes (number _ _)
  obtain ⟨previousHash, bytes⟩ := List.append_inj bytes previous
  obtain ⟨merkleRoot, bytes⟩ := List.append_inj bytes merkle
  obtain ⟨nonce, bytes⟩ := List.append_inj bytes (number _ _)
  exact ⟨⟨hex16_injective index, hex16_injective timestamp, CString.ext previousHash, CString.ext merkleRoot,
    hex16_injective nonce⟩, bytes⟩

private theorem innerNode_injective {a b c d : Digest} (same : innerNode a b = innerNode c d) : a = c ∧ b = d := by
  obtain ⟨left, right⟩ := List.append_inj same ((digestToHex_length a).trans (digestToHex_length c).symm)
  exact ⟨digestToHex_injective left, digestToHex_injective right⟩

private theorem innerNode_visible (a b : Digest) : innerNode a b ≠ [] := by
  intro none
  have length := congrArg List.length none
  simp [innerNode, digestToHex_length] at length

/-- Only hexadecimal digits stand in an inner node. -/
private theorem innerNode_free (a b : Digest) {letter : UInt8} (foreign : ∀ digit < 16, hexDigit digit ≠ letter) :
    letter ∉ innerNode a b := by
  have clean (digest : Digest) : letter ∉ digestToHex digest := by
    intro written
    obtain ⟨byte, _, member⟩ := List.mem_flatMap.mp written
    have small := byte.toNat_lt
    rcases List.mem_pair.mp member with same | same
    · exact foreign _ (by omega) same.symm
    · exact foreign _ (by omega) same.symm
  intro written
  rcases List.mem_append.mp written with left | right
  · exact clean a left
  · exact clean b right

private theorem innerNode_colons (a b : Digest) : (innerNode a b).count 58 = 0 :=
  List.count_eq_zero.mpr (innerNode_free a b (by decide))

variable (sha256 : HashFunction)

/-- Every text hashed for the block hashes and Merkle roots of a chain. -/
def hashedTexts (blocks : List Block) : List Bytes :=
  blocks.flatMap fun block => (hashInput block).bytes :: merkleTexts sha256 block.transactions

variable {sha256}

private theorem rise_colons {texts : List Bytes} {levels : Nat} :
    ∀ text ∈ (rise sha256)^[levels + 1] texts, text.count 58 = 0 := by
  intro text member
  rw [Function.iterate_succ_apply'] at member
  obtain ⟨left, right, rfl⟩ := HashTree.mem_rise member
  exact innerNode_colons _ _

private theorem rise_halves (sha256 : HashFunction) (texts : List Bytes) (levels : Nat) :
    ((rise sha256)^[levels + 1] texts).length ≤ (texts.length + 1) / 2 := by
  induction levels with
  | zero => simp [rise]
  | succ levels ih =>
    have step := HashTree.rise_length sha256 innerNode [] ((rise sha256)^[levels + 1] texts)
    rw [Function.iterate_succ_apply', step]
    omega

/-- Colons of a joined text: two for every separator and those of the pieces. -/
private theorem join_colons (parts : List Bytes) :
    (doubleColon.bytes.intercalate parts).count 58 = 2 * (parts.length - 1) + (parts.map (List.count 58)).sum := by
  have two : doubleColon.bytes.count 58 = 2 := by decide
  induction parts with
  | nil => rfl
  | cons first rest ih =>
    cases rest with
    | nil => simp
    | cons next others =>
      rw [List.intercalate_cons_cons, List.count_append, List.count_append, ih, two]
      simp only [List.length_cons, List.map_cons, List.sum_cons]
      omega

/-- A list of transactions shares its joined text with no level above it. -/
private theorem level_unjoined {upper lower : List Bytes} {levels : Nat} (upperSome : upper ≠ []) (lowerSome : lower ≠ [])
    (above : upper = (rise sha256)^[levels] lower)
    (joined : doubleColon.bytes.intercalate upper = doubleColon.bytes.intercalate lower) : upper = lower := by
  cases levels with
  | zero => exact above
  | succ levels =>
    have plain : (upper.map (List.count 58)).sum = 0 := by
      refine List.sum_eq_zero_iff_forall_eq_nat.mpr fun colons member => ?_
      obtain ⟨text, inside, rfl⟩ := List.mem_map.mp member
      exact rise_colons text (above ▸ inside)
    have colons := congrArg (List.count 58) joined
    rw [join_colons, join_colons, plain] at colons
    have halves := rise_halves sha256 lower levels
    rw [← above] at halves
    have upperPositive := List.length_pos_iff.mpr upperSome
    have lowerPositive := List.length_pos_iff.mpr lowerSome
    obtain ⟨bottom, rfl⟩ := List.length_eq_one_iff.mp (show lower.length = 1 by omega)
    obtain ⟨top, rfl⟩ := List.length_eq_one_iff.mp (show upper.length = 1 by omega)
    simpa using joined

/-- Equal Merkle roots of two lists: the texts of one list stand on a level of the
tree over the other one. -/
private theorem roots_level {first second : List CString} (firstSome : first ≠ []) (secondSome : second ≠ [])
    (firstVisible : ∀ transaction ∈ first, 0 < transaction.length)
    (secondVisible : ∀ transaction ∈ second, 0 < transaction.length)
    (roots : merkleRoot sha256 first = merkleRoot sha256 second)
    (clean : ¬ HashTree.Collision sha256 (merkleTexts sha256 first ++ merkleTexts sha256 second)) :
    ∃ levels, first.map CString.bytes = (rise sha256)^[levels] (second.map CString.bytes) ∨
      second.map CString.bytes = (rise sha256)^[levels] (first.map CString.bytes) := by
  have shown {transactions : List CString} (visible : ∀ transaction ∈ transactions, 0 < transaction.length) :
      ∀ text ∈ transactions.map CString.bytes, text ≠ [] := by
    intro text member
    obtain ⟨transaction, inside, rfl⟩ := List.mem_map.mp member
    exact List.length_pos_iff.mp (visible transaction inside)
  replace firstSome : first.map CString.bytes ≠ [] := by simpa using firstSome
  replace secondSome : second.map CString.bytes ≠ [] := by simpa using secondSome
  have summits : (summit sha256 (first.map CString.bytes)).map sha256 = (summit sha256 (second.map CString.bytes)).map sha256 := by
    obtain ⟨_, climbed⟩ := HashTree.climb sha256 innerNode [] _ firstSome
    obtain ⟨_, climbed'⟩ := HashTree.climb sha256 innerNode [] _ secondSome
    obtain ⟨top, same⟩ := List.length_eq_one_iff.mp climbed.single
    obtain ⟨top', same'⟩ := List.length_eq_one_iff.mp climbed'.single
    simp only [merkleRoot, summit, same, same', List.map_cons, List.headD_cons] at roots ⊢
    rw [digestToHex_injective (congrArg CString.bytes roots)]
  rw [merkleTexts_hashed, merkleTexts_hashed] at clean
  exact HashTree.binding innerNode_injective innerNode_visible firstSome secondSome (shown firstVisible)
    (shown secondVisible) clean summits

private theorem bytes_determine {first second : List CString} (texts : first.map CString.bytes = second.map CString.bytes) :
    first = second := (List.map_inj_right fun _ _ => CString.ext).mp texts

/-- Equal joined texts and equal Merkle roots mean equal transactions. -/
theorem transactions_bind {first second : List CString} (firstSome : first ≠ []) (secondSome : second ≠ [])
    (firstVisible : ∀ transaction ∈ first, 0 < transaction.length)
    (secondVisible : ∀ transaction ∈ second, 0 < transaction.length)
    (joined : (CString.join doubleColon first).bytes = (CString.join doubleColon second).bytes)
    (roots : merkleRoot sha256 first = merkleRoot sha256 second)
    (clean : ¬ HashTree.Collision sha256 (merkleTexts sha256 first ++ merkleTexts sha256 second)) : first = second := by
  obtain ⟨levels, above⟩ := roots_level firstSome secondSome firstVisible secondVisible roots clean
  replace firstSome : first.map CString.bytes ≠ [] := by simpa using firstSome
  replace secondSome : second.map CString.bytes ≠ [] := by simpa using secondSome
  rw [CString.bytes_join, CString.bytes_join] at joined
  apply bytes_determine
  rcases above with above | above
  · exact level_unjoined firstSome secondSome above joined
  · exact (level_unjoined secondSome firstSome above joined.symm).symm

/-- Valid transactions contain no colon, so their joined text determines them. -/
private theorem valid_transactions_bind {first second : List CString} (firstSome : first ≠ []) (secondSome : second ≠ [])
    (firstValid : ∀ transaction ∈ first, ValidTransaction transaction)
    (secondValid : ∀ transaction ∈ second, ValidTransaction transaction)
    (joined : (CString.join doubleColon first).bytes = (CString.join doubleColon second).bytes) : first = second := by
  have nonempty : doubleColon.bytes ≠ [] := by decide
  rw [CString.bytes_join, CString.bytes_join] at joined
  have texts := congrArg (pieces doubleColon.bytes) joined
  rw [pieces_intercalate nonempty (validTransactions_separable firstSome firstValid),
    pieces_intercalate nonempty (validTransactions_separable secondSome secondValid)] at texts
  exact bytes_determine texts

private theorem valid_spaced {transaction : CString} (valid : ValidTransaction transaction) : 32 ∈ transaction.bytes := by
  have matched := (RegularExpression.rmatch_iff_matches' transactionPattern transaction.bytes).mp valid.matched
  exact (matched_ending matched).subset (by decide)

/-- Valid transactions stand on no level above others, because they contain spaces. -/
private theorem valid_level {upper : List CString} {lower : List Bytes} {levels : Nat} (some : upper ≠ [])
    (valid : ∀ transaction ∈ upper, ValidTransaction transaction)
    (above : upper.map CString.bytes = (rise sha256)^[levels] lower) : upper.map CString.bytes = lower := by
  cases levels with
  | zero => exact above
  | succ levels =>
    obtain ⟨first, rest, rfl⟩ := List.exists_cons_of_ne_nil some
    have standing : first.bytes ∈ (rise sha256)^[levels + 1] lower := by
      rw [← above]
      exact List.mem_cons_self
    rw [Function.iterate_succ_apply'] at standing
    obtain ⟨left, right, same⟩ := HashTree.mem_rise standing
    have spaced := valid_spaced (valid first (by simp))
    rw [same] at spaced
    exact absurd spaced (innerNode_free _ _ (by decide))

/-- The Merkle root determines the list of valid transactions under it, or two
different texts hashed for it have the same digest. -/
theorem root_binds_transactions (sha256 : HashFunction) {first second : List CString} (firstSome : first ≠ [])
    (secondSome : second ≠ []) (firstAccepted : ∀ transaction ∈ first, (validateTransaction transaction).result = .ok ())
    (secondAccepted : ∀ transaction ∈ second, (validateTransaction transaction).result = .ok ()) {root : CString}
    (firstRoot : (calculateMerkleRoot sha256 first).result = .ok root)
    (secondRoot : (calculateMerkleRoot sha256 second).result = .ok root) :
    first = second ∨
      ∃ left ∈ merkleTexts sha256 first ++ merkleTexts sha256 second,
        ∃ right ∈ merkleTexts sha256 first ++ merkleTexts sha256 second, left ≠ right ∧ sha256 left = sha256 right := by
  have firstValid := fun transaction member => validateTransaction_ok.mp (firstAccepted transaction member)
  have secondValid := fun transaction member => validateTransaction_ok.mp (secondAccepted transaction member)
  have roots : merkleRoot sha256 first = merkleRoot sha256 second := by
    rw [← ((merkleRoot_ok sha256).mp firstRoot).2, ((merkleRoot_ok sha256).mp secondRoot).2]
  refine or_iff_not_imp_right.mpr fun clean => ?_
  obtain ⟨levels, above⟩ := roots_level firstSome secondSome (fun transaction member => (firstValid transaction member).visible)
    (fun transaction member => (secondValid transaction member).visible) roots clean
  apply bytes_determine
  rcases above with above | above
  · exact valid_level firstSome firstValid above
  · exact (valid_level secondSome secondValid above).symm

/-- Under a constant hash function two different payments have the same root. -/
theorem constant_root_collides :
    let sha256 : HashFunction := fun _ => Vector.replicate 32 0
    let first := [CString.text "A pays B 1 coins"]
    let second := [CString.text "A pays B 2 coins"]
    ∃ left ∈ merkleTexts sha256 first ++ merkleTexts sha256 second,
      ∃ right ∈ merkleTexts sha256 first ++ merkleTexts sha256 second, left ≠ right ∧ sha256 left = sha256 right := by
  intro sha256 first second
  have firstRoot := (merkleRoot_ok sha256).mpr ⟨show first ≠ [] by decide, rfl⟩
  have secondRoot := (merkleRoot_ok sha256).mpr ⟨show second ≠ [] by decide, rfl⟩
  have same : merkleRoot sha256 second = merkleRoot sha256 first := by decide +kernel
  rw [same] at secondRoot
  refine (root_binds_transactions sha256 (by decide) (by decide) (by decide +kernel) (by decide +kernel) firstRoot
    secondRoot).resolve_left ?_
  decide

private theorem collision_mono {few many : List Bytes} (subset : few ⊆ many) (clean : ¬ HashTree.Collision sha256 many) :
    ¬ HashTree.Collision sha256 few := by
  intro collision
  obtain ⟨left, inLeft, right, inRight, collides⟩ := collision
  exact clean ⟨left, subset inLeft, right, subset inRight, collides⟩

/-- Two sound blocks with the same hash are the same block. -/
theorem block_binds {first second : Block} (firstSound : Sound sha256 first) (secondSound : Sound sha256 second)
    (same : blockHash sha256 first = blockHash sha256 second)
    (clean : ¬ HashTree.Collision sha256 (hashedTexts sha256 [first] ++ hashedTexts sha256 [second])) : first = second := by
  have used : hashedTexts sha256 [first] ++ hashedTexts sha256 [second] =
      (hashInput first).bytes :: merkleTexts sha256 first.transactions ++
        (hashInput second).bytes :: merkleTexts sha256 second.transactions := by simp [hashedTexts]
  rw [used] at clean
  have inputs : hashInput first = hashInput second := by
    by_contra different
    exact clean ⟨(hashInput first).bytes, by simp, (hashInput second).bytes, by simp,
      fun bytes => different (CString.ext bytes), digestToHex_injective (congrArg CString.bytes same)⟩
  obtain ⟨header, joined⟩ := hashInput_binds firstSound.hashable secondSound.hashable inputs
  have transactions : first.transactions = second.transactions := by
    by_cases ordinary : first.index ≠ 0
    · exact valid_transactions_bind firstSound.sized.some secondSound.sized.some (firstSound.transactions ordinary)
        (secondSound.transactions (header.index ▸ ordinary)) joined
    · have roots : merkleRoot sha256 first.transactions = merkleRoot sha256 second.transactions := by
        rw [← firstSound.root, ← secondSound.root, header.merkleRoot]
      have firstVisible := fun transaction member => (firstSound.sized.short transaction member).1
      have secondVisible := fun transaction member => (secondSound.sized.short transaction member).1
      refine transactions_bind firstSound.sized.some secondSound.sized.some firstVisible secondVisible joined roots
        (collision_mono ?_ clean)
      intro text member
      rcases List.mem_append.mp member with inside | inside
      · simp [inside]
      · simp [inside]
  cases first
  cases second
  simp only [Block.mk.injEq]
  exact ⟨header.index, header.timestamp, header.previousHash, header.merkleRoot, header.nonce, transactions⟩

/-- Parts of two chains have no collision where the whole chains have none. -/
theorem clean_within {few many few' many' : List Block} (first : few ⊆ many) (second : few' ⊆ many')
    (clean : ¬ HashTree.Collision sha256 (hashedTexts sha256 many ++ hashedTexts sha256 many')) :
    ¬ HashTree.Collision sha256 (hashedTexts sha256 few ++ hashedTexts sha256 few') := by
  have larger {some all : List Block} (subset : some ⊆ all) : hashedTexts sha256 some ⊆ hashedTexts sha256 all := by
    intro text member
    obtain ⟨block, inside, used⟩ := List.mem_flatMap.mp member
    exact List.mem_flatMap.mpr ⟨block, subset inside, used⟩
  refine collision_mono (fun text member => ?_) clean
  rcases List.mem_append.mp member with inside | inside
  · exact List.mem_append_left _ (larger first inside)
  · exact List.mem_append_right _ (larger second inside)

/-- From the last block backwards, every link pins down the block before it. -/
theorem chain_binds {first second : List Block} (firstValid : ValidChain sha256 first)
    (secondValid : ValidChain sha256 second) (lengths : first.length = second.length)
    (same : first.getLast?.map (blockHash sha256) = second.getLast?.map (blockHash sha256))
    (clean : ¬ HashTree.Collision sha256 (hashedTexts sha256 first ++ hashedTexts sha256 second)) : first = second := by
  induction first using List.reverseRecOn generalizing second with
  | nil => exact absurd rfl firstValid.some
  | append_singleton earlier block ih =>
    obtain ⟨earlier', block', rfl⟩ := (List.eq_nil_or_concat' second).resolve_left secondValid.some
    simp only [List.getLast?_concat, Option.map_some, Option.some.injEq] at same
    have last : block = block' := by
      refine block_binds (firstValid.sound block (by simp)) (secondValid.sound block' (by simp)) same ?_
      exact clean_within (List.subset_append_right _ _) (List.subset_append_right _ _) clean
    subst last
    have shorter : earlier.length = earlier'.length := by simpa using lengths
    rw [List.append_cancel_right_eq]
    by_cases none : earlier = []
    · rw [none] at shorter ⊢
      exact (List.eq_nil_of_length_eq_zero shorter.symm).symm
    have some' : earlier' ≠ [] := by
      intro empty
      rw [empty] at shorter
      exact none (List.eq_nil_of_length_eq_zero shorter)
    have found := List.getLast?_eq_getLast_of_ne_nil none
    have found' := List.getLast?_eq_getLast_of_ne_nil some'
    obtain ⟨valid, _, follows⟩ := (validChain_append found).mp firstValid
    obtain ⟨valid', _, follows'⟩ := (validChain_append found').mp secondValid
    refine ih valid valid' shorter ?_ (clean_within (List.subset_append_left _ _) (List.subset_append_left _ _) clean)
    rw [found, found', Option.map_some, Option.map_some, ← follows.hash, ← follows'.hash]

/-- The index of the last block of a stored chain gives its length. -/
theorem last_index {chain : Blockchain} {block : Block} (valid : ValidChain sha256 chain.blocks)
    (found : chain.last = some block) : block.index.toNat + 1 = chain.count := by
  have positive := List.length_pos_iff.mpr valid.some
  rw [Blockchain.last, List.getLast?_eq_getElem?] at found
  rw [validChain_number valid found (Nat.lt_of_le_of_lt (Nat.sub_le ..) chain.count_lt)]
  exact Nat.sub_add_cancel positive

/-- Two accepted chains whose last blocks have the same hash are the same chain,
or two different texts hashed for them have the same digest. -/
theorem tamper_evidence (sha256 : HashFunction) (first second : Blockchain)
    (firstAccepted : (validateBlockchain sha256 first.blocks).result = .ok ())
    (secondAccepted : (validateBlockchain sha256 second.blocks).result = .ok ())
    {firstLast secondLast : Block} (firstFound : first.last = some firstLast) (secondFound : second.last = some secondLast)
    {hash : CString} (firstHash : (calculateBlockHash sha256 firstLast).result = .ok hash)
    (secondHash : (calculateBlockHash sha256 secondLast).result = .ok hash) :
    first.blocks = second.blocks ∨
      ∃ left ∈ hashedTexts sha256 first.blocks ++ hashedTexts sha256 second.blocks,
        ∃ right ∈ hashedTexts sha256 first.blocks ++ hashedTexts sha256 second.blocks,
          left ≠ right ∧ sha256 left = sha256 right := by
  have firstValid := (blockchain_ok sha256).mp firstAccepted
  have secondValid := (blockchain_ok sha256).mp secondAccepted
  have same : blockHash sha256 firstLast = blockHash sha256 secondLast := by
    rw [← ((blockHash_ok sha256).mp firstHash).2, ((blockHash_ok sha256).mp secondHash).2]
  refine or_iff_not_imp_right.mpr fun clean => chain_binds firstValid secondValid ?_ ?_ clean
  · have firstMember := List.mem_of_getLast? firstFound
    have secondMember := List.mem_of_getLast? secondFound
    have blocks : firstLast = secondLast := by
      refine block_binds (firstValid.sound _ firstMember) (secondValid.sound _ secondMember) same ?_
      exact clean_within (by simpa using firstMember) (by simpa using secondMember) clean
    have firstIndex := last_index firstValid firstFound
    have secondIndex := last_index secondValid secondFound
    simp only [Blockchain.count] at firstIndex secondIndex
    rw [← firstIndex, ← secondIndex, blocks]
  · rw [← Blockchain.last, ← Blockchain.last, firstFound, secondFound, Option.map_some, Option.map_some, same]

/-- A block with one arbitrary transaction at the beginning of a chain. -/
def loneBlock (transaction : String) : Block :=
  ⟨0, 0, genesisBlock.previousHash, genesisBlock.previousHash, 0, [.text transaction]⟩

theorem four_allocated : 4 * sizeofBlock ≤ ptrdiffMax := by decide

def loneChain (transaction : String) : Blockchain := ⟨[loneBlock transaction], 4, by simp, four_allocated⟩

/-- Under a constant hash function two different chains end in the same hash, and
so two different texts with the same digest were hashed. -/
theorem constant_hash_collides :
    let sha256 : HashFunction := fun _ => Vector.replicate 32 0
    ∃ left ∈ hashedTexts sha256 (loneChain "a").blocks ++ hashedTexts sha256 (loneChain "b").blocks,
      ∃ right ∈ hashedTexts sha256 (loneChain "a").blocks ++ hashedTexts sha256 (loneChain "b").blocks,
        left ≠ right ∧ sha256 left = sha256 right := by
  intro sha256
  have hashed (transaction : String) (hashable : Hashable (loneBlock transaction)) :=
    (blockHash_ok sha256).mpr ⟨hashable, rfl⟩
  refine (tamper_evidence sha256 (loneChain "a") (loneChain "b") (by decide +kernel) (by decide +kernel) rfl rfl
    (hashed "a" ⟨by decide, by decide, by decide⟩) (hashed "b" ⟨by decide, by decide, by decide⟩)).resolve_left ?_
  decide

end ProcessChain.Proofs.Tamper
