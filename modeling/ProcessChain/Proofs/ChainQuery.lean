import ProcessChain.Proofs.Lookups
import ProcessChain.Proofs.Recovery
import ProcessChain.Proofs.Saving

/-! The answer to a chain query as the contents of a file. It carries exactly the blocks
that were asked for, as long as its length is a 32-bit number: a longer text is cut to
the remainder of its length, and what arrives of it is a file with too few blocks. -/

namespace ProcessChain.Proofs.ChainQuery
open Lib Lib.FailStop Csv Crypto Validation Storage Handlers Lookups Allocation Recovery ChainFile Loading Saving

variable {sha256 : HashFunction}

inductive Query
  | whole
  | index (number : Nat)
  | hash (wanted : CString)

namespace Query

def payload : Query → Bytes
  | .whole => []
  | .index number => ascii "--index " ++ decimal number
  | .hash wanted => ascii "--hash " ++ wanted.bytes

/-- The positions of a chain that a query names. -/
def Names (sha256 : HashFunction) (blocks : List Block) : Query → Nat → Prop
  | .whole, position => position = 0
  | .index number, position => position = number
  | .hash wanted, position => ∃ block, blocks[position]? = some block ∧ HasHash sha256 wanted block

end Query

private theorem afterWord_append (word text : Bytes) : afterWord word (word ++ text) = some text := by
  rw [afterWord, if_pos (List.prefix_append _ _), List.drop_left]

private theorem scanUnsigned_spaced (text : Bytes) : scanUnsigned (32 :: text) = scanUnsigned text := rfl

/-- A number that is too large for an index becomes the largest index, which no chain reaches. -/
private theorem getByNumber {chain : Blockchain} (settled : Settled sha256 chain.blocks) (number : Nat) :
    blockchainGetByIndex chain (Numeral.toULongLong ⟨false, number, []⟩).1 =
      if number < chain.count then some number else none := by
  have bound := chain.count_lt
  rw [getByIndex_settled settled]
  by_cases large : ullongMax < number
  · have saturated : (Numeral.toULongLong ⟨false, number, []⟩).1 = ullongMax.toUInt64 := by
      simp only [Numeral.toULongLong, if_pos large]
    have largest : ullongMax.toUInt64.toNat = ullongMax := by decide
    simp only [ullongMax] at large largest
    rw [saturated, ullongMax, largest, if_neg (by omega), if_neg (by omega)]
  · have read : (Numeral.toULongLong ⟨false, number, []⟩).1 = UInt64.ofNat number := by
      simp [Numeral.toULongLong, large]
    simp only [ullongMax] at large
    rw [read, UInt64.toNat_ofNat_of_lt' (show number < UInt64.size by simp only [UInt64.size]; omega)]

/-- A query by number looks up that number. -/
theorem lookup_number {chain : Blockchain} (settled : Settled sha256 chain.blocks) (number : Nat) :
    lookup sha256 chain (Query.index number).payload = some (pure (if number < chain.count then some number else none)) := by
  have spaced : (Query.index number).payload = ascii "--index" ++ 32 :: decimal number := by
    have words : ascii "--index " = ascii "--index" ++ [32] := by decide
    rw [Query.payload, words, List.append_assoc, List.singleton_append]
  rw [lookup, spaced, afterWord_append, Option.bind_some, scanUnsigned_spaced, scanUnsigned, scanNumeral_decimal,
    Option.map_some]
  dsimp only
  rw [getByNumber settled]

private theorem hash_unspaced {hash : CString} (lowercase : isLowercaseHexHash hash = true) :
    ∀ byte ∈ hash.bytes, isSpace byte = false := by
  have letters : ∀ letter < 256, Bash.isLowercaseHex letter.toUInt8 = true → isSpace letter.toUInt8 = false := by
    decide +kernel
  rw [isLowercaseHexHash, Bool.and_eq_true, List.all_eq_true] at lowercase
  intro byte member
  have hexadecimal : Bash.isLowercaseHex byte = true := lowercase.2 byte member
  have plain := letters byte.toNat byte.toNat_lt
  rw [Nat.toUInt8_eq, UInt8.ofNat_toNat] at plain
  exact plain hexadecimal

/-- A query by hash looks up that hash. -/
private theorem lookup_hash {chain : Blockchain} {wanted : CString} (lowercase : isLowercaseHexHash wanted = true) :
    lookup sha256 chain (Query.hash wanted).payload = some (blockchainGetByHash sha256 chain wanted) := by
  have spaced : (Query.hash wanted).payload = ascii "--hash" ++ 32 :: wanted.bytes := by
    have words : ascii "--hash " = ascii "--hash" ++ [32] := by decide
    rw [Query.payload, words, List.append_assoc, List.singleton_append]
  have other : afterWord (ascii "--index") (ascii "--hash" ++ 32 :: wanted.bytes) = none := by
    have letters : ascii "--index" = [45, 45, 105, 110, 100, 101, 120] ∧ ascii "--hash" = [45, 45, 104, 97, 115, 104] := by
      decide
    rw [afterWord, letters.1, letters.2, if_neg (by simp)]
  have length := hash_length lowercase
  have word : scanWord 64 (32 :: wanted.bytes) = some wanted := by
    have unspaced := hash_unspaced lowercase
    have visible : wanted.bytes ≠ [] := List.ne_nil_of_length_pos (by rw [← CString.length, length]; decide)
    have skipped : (32 :: wanted.bytes).dropWhile isSpace = wanted.bytes := by
      obtain ⟨first, rest, same⟩ := List.exists_cons_of_ne_nil visible
      rw [List.dropWhile_cons_of_pos rfl, same, List.dropWhile_cons_of_neg]
      rw [unspaced first (by simp [same])]
      exact Bool.false_ne_true
    have taken : wanted.bytes.takeWhile (fun byte => !isSpace byte) = wanted.bytes := by
      apply List.takeWhile_eq_self_iff.mpr
      intro byte member
      rw [unspaced byte member]
      rfl
    have all : wanted.bytes.take 64 = wanted.bytes := List.take_of_length_le (Nat.le_of_eq length)
    simp only [scanWord, skipped, taken, all, if_neg visible, CString.ofMemory_bytes]
  rw [lookup, spaced, other, Option.bind_none, afterWord_append, Option.bind_some, word]

theorem payload_terminated (query : Query) : 0 ∉ query.payload := by
  cases query with
  | whole => exact List.not_mem_nil
  | index number =>
    intro zero
    rcases List.mem_append.mp zero with word | digits
    · exact absurd word (by decide)
    · exact decimal_terminated number digits
  | hash wanted =>
    intro zero
    rcases List.mem_append.mp zero with word | digits
    · exact absurd word (by decide)
    · exact wanted.terminated digits

private theorem payload_visible {query : Query} (some : query ≠ .whole) : query.payload ≠ [] := by
  cases query with
  | whole => exact absurd rfl some
  | index number =>
    have word : ascii "--index " ≠ [] := by decide
    exact List.append_ne_nil_of_left_ne_nil word _
  | hash wanted =>
    have word : ascii "--hash " ≠ [] := by decide
    exact List.append_ne_nil_of_left_ne_nil word _

/-- The answer begins at a position that the query names. -/
structure Begins (sha256 : HashFunction) (node : Node) (query : Query) (handled : Handled) (start : Nat) : Prop where
  inside : start < node.chain.count
  named : query.Names sha256 node.chain.blocks start
  answers : AnswersFrom node start handled

def First (sha256 : HashFunction) (blocks : List Block) (query : Query) (start : Nat) : Prop :=
  ∀ position, query.Names sha256 blocks position → start ≤ position

/-- A query that goes through a lookup. -/
private theorem lookup_answers {node : Node} {message : Message} {query : Query} (payload : message.payload = query.payload)
    (some : query ≠ .whole) {search : HeapM (Option Nat)}
    (found : lookup sha256 node.chain query.payload = Option.some search) {always granted : Handled → Prop}
    (refused : ∀ text length, always (node.answer .responseErr text length))
    (searched : Ensures (do
      match ← search with
      | none => return node.answer .responseErr "block not found" 15
      | Option.some startPosition => answerChain node startPosition) always granted) :
    Ensures (handleQueryChain sha256 node message) always granted := by
  have text : (CString.ofMemory query.payload).bytes = query.payload := CString.bytes_ofMemory (payload_terminated query)
  unfold handleQueryChain
  rw [payload, if_neg (payload_visible some)]
  refine guarded_ensures (refused _ _) ?_
  simp only [text, if_neg (payload_visible some), found]
  exact searched

/-- Every answer begins at a block that the query names, and at the first one unless memory runs out. -/
theorem query_ensures {node : Node} (valid : ValidChain sha256 node.chain.blocks) {message : Message} {query : Query}
    (payload : message.payload = query.payload)
    (named : ∃ position < node.chain.count, query.Names sha256 node.chain.blocks position) :
    Ensures (handleQueryChain sha256 node message) (fun handled => ∃ start, Begins sha256 node query handled start)
      fun handled => ∃ start, Begins sha256 node query handled start ∧ First sha256 node.chain.blocks query start := by
  obtain ⟨position, inside, names⟩ := named
  have refused (text : String) (length : Nat) :
      ∃ start, Begins sha256 node query (node.answer .responseErr text length) start :=
    ⟨position, inside, names, answer_refuses⟩
  cases query with
  | whole =>
    have same : position = 0 := names
    unfold handleQueryChain
    rw [if_pos (show message.payload = [] from payload)]
    refine (answerChain_ensures node 0).weaken ?_ ?_
    · intro handled answered
      exact ⟨0, same ▸ inside, rfl, answered.2⟩
    · intro handled answered _
      exact ⟨0, ⟨same ▸ inside, rfl, answered.2⟩, fun _ _ => Nat.zero_le _⟩
  | index number =>
    have same : position = number := names
    rw [same] at inside
    refine lookup_answers payload (by simp) (lookup_number (Or.inr valid) number) refused ?_
    rw [pure_bind, if_pos inside]
    refine (answerChain_ensures node number).weaken ?_ ?_
    · intro handled answered
      exact ⟨number, inside, rfl, answered.2⟩
    · intro handled answered _
      exact ⟨number, ⟨inside, rfl, answered.2⟩, fun other same => Nat.le_of_eq same.symm⟩
  | hash wanted =>
    have lowercase : isLowercaseHexHash wanted = true := by
      obtain ⟨block, _, hashed⟩ := names
      rw [((blockHash_ok sha256).mp hashed).2]
      exact hash_lowercase sha256 _
    refine lookup_answers payload (by simp) (lookup_hash lowercase) refused ?_
    apply (getByHash_ensures node.chain wanted).bind
    intro found has
    cases found with
    | none =>
      refine .pure (refused _ _) ?_
      intro scanned
      have none := List.findIdx?_eq_none_iff.mp (scanned (hash_length lowercase)).symm
      obtain ⟨block, here, hashed⟩ := names
      exact absurd hashed (by simpa using none block (List.mem_of_getElem? here))
    | some start =>
      obtain ⟨block, here, hashed⟩ := has start rfl
      have reached : start < node.chain.count := (List.getElem?_eq_some_iff.mp here).1
      refine (answerChain_ensures node start).weaken ?_ ?_
      · intro handled answered
        exact ⟨start, reached, ⟨block, here, hashed⟩, answered.2⟩
      · intro handled answered _ scanned
        refine ⟨start, ⟨reached, ⟨block, here, hashed⟩, answered.2⟩, ?_⟩
        intro other otherNamed
        obtain ⟨another, there, alsoHashed⟩ := otherNamed
        obtain ⟨_, _, before⟩ := List.findIdx?_eq_some_iff_getElem.mp (scanned (hash_length lowercase)).symm
        by_contra earlier
        have unhashed := before other (by omega)
        obtain ⟨bound, same⟩ := List.getElem?_eq_some_iff.mp there
        rw [same] at unhashed
        exact unhashed (by simpa using alsoHashed)

/-- The contents of a file that is loaded as exactly these blocks, unless memory runs out. -/
structure LoadsAs (contents : Bytes) (blocks : List Block) : Prop where
  accepted : ∀ heap, (blockchainLoadCsv contents heap).2.refused = false →
    ∃ chain, (blockchainLoadCsv contents heap).1 = .ok chain
  same : ∀ heap chain, (blockchainLoadCsv contents heap).1 = .ok chain → chain.blocks = blocks

/-- The bytes that the header and the lines of some blocks take up. -/
def answerSize (blocks : List Block) : Nat := csvHeader.length + (blocks.map syncSize).sum

/-- The text of an answer is the file with its blocks. -/
private theorem answer_file (blocks : List Block) : csvHeader ++ syncText blocks = fileOf blocks := by
  have header : csvHeader = blockchainCsvHeader ++ [10] := by decide +kernel
  rw [header, fileOf, List.flatMap_cons, syncText]

private theorem carries_few {contents : Bytes} {blocks : List Block} (carries : FileCarries contents blocks) :
    blocks.length ≤ contents.length := by
  obtain ⟨header, lines, found, _, _, inner⟩ := carries.lines
  have few := (chunks_bounded 10 (maxBlockCsvLineLength - 1) contents).1
  rw [← fgetsAll, found, List.length_cons] at few
  have parsed := congrArg List.length inner.parsed
  rw [List.length_map, List.length_map] at parsed
  have shown : (blockLines lines).length ≤ lines.length := by
    rw [blockLines, ← List.length_map chunkLine]
    exact List.length_filter_le _ _
  omega

theorem answer_size {blocks : List Block} (writable : ∀ block ∈ blocks, Writable block) :
    (csvHeader ++ syncText blocks).length = answerSize blocks := by
  rw [List.length_append, syncText_length writable, answerSize]

/-- The contents of a file of moderate size are loaded as the blocks that they carry. -/
theorem loadsAs_iff {contents : Bytes} (small : contents.length < 2 ^ 47) {blocks : List Block} :
    LoadsAs contents blocks ↔ FileCarries contents blocks := by
  have loads := loadCsv_ensures contents
  constructor
  · intro loaded
    obtain ⟨chain, accepted⟩ := loaded.accepted openHeap (congrArg Supply.refused (load_grants small).supply)
    have carries := loads.always openHeap chain accepted
    rwa [loaded.same openHeap chain accepted] at carries
  · intro carries
    constructor
    · intro heap granted
      obtain ⟨chain, accepted, _⟩ := (loads.granted heap granted).2 blocks carries
      exact ⟨chain, accepted⟩
    · exact fun heap chain accepted => (loads.always heap chain accepted).unique carries

theorem delivered_short {type : MessageType} {sender : UInt32} {payload : Bytes} {length : Nat} {reply : Message}
    (sent : ipcSend type sender payload length = some reply) : reply.payload.length ≤ maxPayloadSize := by
  simp only [ipcSend] at sent
  split at sent
  · cases sent
  next bounded =>
    cases sent
    rw [List.length_take]
    omega

section Delivered
variable {blocks : List Block} (writable : ∀ block ∈ blocks, Writable block) {sender : UInt32} {reply : Message}
  (sent : ipcSend .responseOk sender (csvHeader ++ syncText blocks) (csvHeader ++ syncText blocks).length = some reply)
include writable sent

/-- A text of more than 4 GiB is cut, and what arrives is too short for so many blocks. -/
theorem delivered_bounded (carries : FileCarries reply.payload blocks) : answerSize blocks < 2 ^ 32 := by
  have short := delivered_short sent
  have few := carries_few carries
  have bound := syncText_bound writable
  rw [syncText_length writable] at bound
  have header : csvHeader.length = 57 := by decide +kernel
  simp only [maxPayloadSize] at short
  by_contra large
  simp only [answerSize, header] at large
  omega

theorem delivered_whole (small : answerSize blocks < 2 ^ 32) : reply.payload = fileOf blocks := by
  rw [answer_size writable] at sent
  simp only [ipcSend, Nat.mod_eq_of_lt small] at sent
  split at sent
  · cases sent
  · cases sent
    dsimp only
    rw [← answer_size writable, List.take_length, answer_file]

/-- What is delivered of an answer is loaded as its blocks exactly when its length is a 32-bit number. -/
theorem delivered_loads (some : blocks ≠ [])
    (whole : ∀ block ∈ blocks, rejoined block.transactions = block.transactions) :
    LoadsAs reply.payload blocks ↔ answerSize blocks < 2 ^ 32 := by
  have short := delivered_short sent
  rw [loadsAs_iff (Nat.lt_of_le_of_lt short (by decide))]
  constructor
  · exact delivered_bounded writable sent
  · intro small
    rw [delivered_whole writable sent small]
    exact fileOf_carries some writable whole

end Delivered

/-- A delivered answer to a chain query begins at the first block that the query names,
unless memory ran out, and it is loaded as exactly the blocks from there on if and only
if the header and the lines of these blocks are shorter than 4 GiB. -/
theorem delivered_chain_loads (sha256 : HashFunction) {node : Node}
    (accepted : (validateBlockchain sha256 node.chain.blocks).result = .ok ())
    (parsed : ∀ block ∈ node.chain.blocks, ∃ line, (blockFromCsv line).result = .ok block) {message : Message} {query : Query}
    (payload : message.payload = query.payload)
    (named : ∃ position < node.chain.count, query.Names sha256 node.chain.blocks position) {heap : Heap} {reply : Message}
    (delivered : (handleQueryChain sha256 node message heap).1.reply = some reply)
    (ok : reply.type = MessageType.responseOk.code) :
    ∃ start < node.chain.count, query.Names sha256 node.chain.blocks start ∧
      ((handleQueryChain sha256 node message heap).2.refused = false → First sha256 node.chain.blocks query start) ∧
      (LoadsAs reply.payload (node.chain.blocks.drop start) ↔ answerSize (node.chain.blocks.drop start) < 2 ^ 32) := by
  have answers := query_ensures ((blockchain_ok sha256).mp accepted) payload named
  obtain ⟨start, begins, first⟩ : ∃ start, Begins sha256 node query (handleQueryChain sha256 node message heap).1 start ∧
      ((handleQueryChain sha256 node message heap).2.refused = false → First sha256 node.chain.blocks query start) := by
    cases calm : (handleQueryChain sha256 node message heap).2.refused with
    | false =>
      obtain ⟨start, begins, first⟩ := (answers.granted heap calm).2
      exact ⟨start, begins, fun _ => first⟩
    | true =>
      obtain ⟨start, begins⟩ := answers.always heap
      exact ⟨start, begins, nofun⟩
  obtain ⟨writable, sent⟩ := begins.answers reply delivered ok
  refine ⟨start, begins.inside, begins.named, first, ?_⟩
  refine delivered_loads writable sent ?_ ?_
  · intro none
    have inside : start < node.chain.blocks.length := begins.inside
    rw [List.drop_eq_nil_iff] at none
    omega
  · intro block member
    obtain ⟨line, read⟩ := parsed block (List.mem_of_mem_drop member)
    exact parsed_rejoined read

section Unrefused

private theorem chainLines_grants {blocks : List Block} (writable : ∀ block ∈ blocks, Writable block) (buffer : Bytes)
    (capacity : Nat) (small : 2 * (buffer.length + (syncText blocks).length + 1) ≤ ptrdiffMax) :
    Grants (chainLines blocks buffer capacity) fun result => result = .ok (buffer ++ syncText blocks) := by
  induction blocks generalizing buffer capacity with
  | nil => exact .pure (by simp [syncText])
  | cons block rest ih =>
    have lines : syncText (block :: rest) = (csvLine block).bytes ++ [10] ++ syncText rest := by simp [syncText]
    apply (written_grants (writable block (by simp))).bind
    intro result same
    subst same
    have total := congrArg List.length lines
    simp only [List.length_append, List.length_singleton] at total
    apply (grown_grants capacity (by simp only [CString.length]; omega)).bind
    intro result large
    obtain ⟨grown, rfl⟩ := large
    rw [lines, ← List.append_assoc, ← List.append_assoc]
    apply ih fun block member => writable block (by simp [member])
    simp only [List.length_append, List.length_singleton]
    omega

/-- The answer to a query for the whole chain where nothing is refused. -/
theorem whole_grants {node : Node} {message : Message} (empty : message.payload = [])
    (writable : ∀ block ∈ node.chain.blocks, Writable block) (small : answerSize node.chain.blocks < 2 ^ 60) :
    Grants (handleQueryChain sha256 node message) fun handled =>
      handled.reply = ipcSend .responseOk node.sender (csvHeader ++ syncText node.chain.blocks) (answerSize node.chain.blocks) := by
  have size := answer_size writable
  unfold handleQueryChain
  rw [if_pos empty]
  unfold answerChain
  refine guarded_grants (by decide) ?_
  rw [List.drop_zero]
  apply (chainLines_grants writable csvHeader initialBufferCapacity ?_).bind
  · intro result same
    cases same
    refine .pure ?_
    rw [size]
  · rw [List.length_append] at size
    simp only [ptrdiffMax]
    omega

end Unrefused

theorem payingNode_allocated {count : Nat} (small : count < 2 ^ 40) : (count + 1) * sizeofBlock ≤ ptrdiffMax := by
  simp only [sizeofBlock, ptrdiffMax]
  omega

/-- A coordinator with the genesis block and some payments. -/
def payingNode (count : Nat) (small : count < 2 ^ 40) : Node where
  nodeId := 0
  chain := ⟨genesisBlock :: payments sha256Bytes count genesisBlock, count + 1, payments_fit (Nat.lt_succ_self count),
    payingNode_allocated small⟩
  syncing := []

private theorem genesis_written : Writable genesisBlock ∧ (blockFromCsv (csvLine genesisBlock)).result = .ok genesisBlock := by
  have written : (blockToCsv genesisBlock).result = .ok (csvLine genesisBlock) := by decide +kernel
  have writable := (toCsv_ok.mp written).1
  exact ⟨writable, (RoundTrip.fromCsv_csvLine writable).mpr (by decide)⟩

private theorem payingNode_chain {count : Nat} (small : count < 2 ^ 40) :
    ValidChain sha256Bytes (payingNode count small).chain.blocks ∧
      (∀ block ∈ (payingNode count small).chain.blocks,
        Writable block ∧ (blockFromCsv (csvLine block)).result = .ok block) ∧
      answerSize (payingNode count small).chain.blocks = 254 + count * 207 := by
  have valid : ValidChain sha256Bytes (payingNode count small).chain.blocks :=
    payments_valid (fixture_valid.sound genesisBlock (by simp)) rfl count
  refine ⟨valid, ?_, ?_⟩
  · intro block member
    obtain ⟨position, found⟩ := List.mem_iff_getElem?.mp member
    cases position with
    | zero =>
      cases found
      exact genesis_written
    | succ position =>
      have number := index_position (Or.inr valid) found
      refine (valid.sound block member).written ?_
      intro zero
      rw [zero] at number
      exact absurd number (Nat.succ_ne_zero position).symm
  · have sizes : csvHeader.length = 57 ∧ syncSize genesisBlock = 197 := by decide +kernel
    rw [answerSize, payingNode, List.map_cons, List.sum_cons, payments_size, sizes.1, sizes.2]
    omega

/-- The answer for the whole chain of such a node is sent if the remainder of its length is small. -/
private theorem payingNode_answers {count : Nat} (small : count < 2 ^ 40)
    (wraps : (254 + count * 207) % 2 ^ 32 ≤ maxPayloadSize) :
    ∃ reply, (handleQueryChain sha256Bytes (payingNode count small) ⟨MessageType.queryChain.code, 0, []⟩ openHeap).1.reply =
      some reply ∧ reply.type = MessageType.responseOk.code := by
  obtain ⟨_, lines, size⟩ := payingNode_chain small
  have grants : Grants (handleQueryChain sha256Bytes (payingNode count small) ⟨MessageType.queryChain.code, 0, []⟩) _ :=
    whole_grants rfl (fun block member => (lines block member).1) (by rw [size]; omega)
  have answered := grants.value
  rw [size, ipcSend, if_neg (by omega)] at answered
  exact ⟨_, answered, rfl⟩

/-- A chain with 20748641 payments takes up 1645 bytes more than 4 GiB. Only that many
are sent, and they are no file with the blocks of the chain. -/
theorem long_chain_truncated :
    let node := payingNode 20748641 (by decide)
    (validateBlockchain sha256Bytes node.chain.blocks).result = .ok () ∧
      (∀ block ∈ node.chain.blocks, ∃ line, (blockFromCsv line).result = .ok block) ∧
      ∃ reply, (handleQueryChain sha256Bytes node ⟨MessageType.queryChain.code, 0, []⟩ openHeap).1.reply = some reply ∧
        reply.type = MessageType.responseOk.code ∧ ¬ LoadsAs reply.payload node.chain.blocks := by
  intro node
  obtain ⟨valid, lines, size⟩ := payingNode_chain (show 20748641 < 2 ^ 40 by decide)
  have accepted : (validateBlockchain sha256Bytes node.chain.blocks).result = .ok () := (blockchain_ok sha256Bytes).mpr valid
  have parsed : ∀ block ∈ node.chain.blocks, ∃ line, (blockFromCsv line).result = .ok block :=
    fun block member => ⟨csvLine block, (lines block member).2⟩
  obtain ⟨reply, delivered, ok⟩ := payingNode_answers (show 20748641 < 2 ^ 40 by decide) (by decide)
  refine ⟨accepted, parsed, reply, delivered, ok, ?_⟩
  have named : ∃ position < node.chain.count, Query.Names sha256Bytes node.chain.blocks .whole position :=
    ⟨0, List.length_pos_iff.mpr valid.some, rfl⟩
  obtain ⟨start, _, same, _, loads⟩ := delivered_chain_loads sha256Bytes accepted parsed rfl named delivered ok
  have zero : start = 0 := same
  rw [zero, List.drop_zero, size] at loads
  intro loaded
  exact absurd (loads.mp loaded) (by decide)

/-- The answer of a node with two payments is loaded as its chain. -/
theorem short_chain_loaded :
    ∃ reply, (handleQueryChain sha256Bytes (payingNode 2 (by decide)) ⟨MessageType.queryChain.code, 0, []⟩ openHeap).1.reply =
      some reply ∧ LoadsAs reply.payload (payingNode 2 (by decide)).chain.blocks := by
  obtain ⟨valid, lines, size⟩ := payingNode_chain (show 2 < 2 ^ 40 by decide)
  obtain ⟨reply, delivered, ok⟩ := payingNode_answers (show 2 < 2 ^ 40 by decide) (by decide)
  refine ⟨reply, delivered, ?_⟩
  have named : ∃ position < (payingNode 2 (by decide)).chain.count,
      Query.Names sha256Bytes (payingNode 2 (by decide)).chain.blocks .whole position :=
    ⟨0, List.length_pos_iff.mpr valid.some, rfl⟩
  obtain ⟨start, _, same, _, loads⟩ := delivered_chain_loads sha256Bytes ((blockchain_ok sha256Bytes).mpr valid)
    (fun block member => ⟨csvLine block, (lines block member).2⟩) rfl named delivered ok
  have zero : start = 0 := same
  rw [zero, List.drop_zero, size] at loads
  exact loads.mpr (by decide)

end ProcessChain.Proofs.ChainQuery
