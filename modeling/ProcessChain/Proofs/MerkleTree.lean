import ProcessChain.MerkleSlots
import ProcessChain.Proofs.Crypto

/-! The Merkle root as a recursive tree. The loops on the allocated arrays stay inside
of them and compute the levels of the tree from the leaves up. -/

namespace ProcessChain.Proofs.MerkleTree
open Lib Lib.FailStop Crypto

variable (sha256 : HashFunction)

def slotOf (hash : CString) : Bytes := hash.bytes ++ [0]

/-- An array of some size whose first slots hold these hashes. -/
structure Filled (slots : Slots) (size : Nat) (hashes : List CString) : Prop where
  size : slots.length = size
  written : slots.take hashes.length = hashes.map slotOf

theorem calloc_filled (count : Nat) : Filled (callocSlots count) count [] :=
  ⟨List.length_replicate, rfl⟩

/-- The next slot is written if there is one more. -/
theorem hashInto_filled {slots : Slots} {size : Nat} {hashes : List CString} (filled : Filled slots size hashes)
    (room : hashes.length < size) (data : Bytes) :
    ∃ after, hashInto sha256 slots hashes.length data = some after ∧ Filled after size (hashes ++ [sha256Hex sha256 data]) := by
  have inside : hashes.length < slots.length := by rwa [filled.size]
  refine ⟨_, if_pos inside, ?_, ?_⟩
  · rw [List.length_set, filled.size]
  · rw [List.length_append, List.length_singleton, List.take_add_one, List.take_set_of_le (Nat.le_refl _), filled.written,
      List.getElem?_set_self inside, List.map_append]
    rfl

theorem hashTransactions_filled {slots : Slots} {size : Nat} {hashes : List CString} (filled : Filled slots size hashes)
    (transactions : List CString) (room : hashes.length + transactions.length ≤ size) :
    ∃ after, hashTransactions sha256 transactions hashes.length slots = some after ∧
      Filled after size (hashes ++ transactions.map fun transaction => sha256Hex sha256 transaction.bytes) := by
  induction transactions generalizing slots hashes with
  | nil => exact ⟨slots, rfl, by simpa using filled⟩
  | cons transaction rest ih =>
    rw [List.length_cons] at room
    obtain ⟨next, written, more⟩ := hashInto_filled sha256 filled (by omega) transaction.bytes
    obtain ⟨after, others, final⟩ := ih more (by rw [List.length_append, List.length_singleton]; omega)
    rw [List.length_append, List.length_singleton] at others
    refine ⟨after, ?_, by simpa using final⟩
    rw [hashTransactions, written]
    exact others

theorem completeLevel_filled {slots : Slots} {level : List CString} (filled : Filled slots (level.length + 1) level) :
    ∃ after, completeLevel sha256 slots level.length = some after ∧
      Filled after (level.length + 1) (evenLevel sha256 level) := by
  unfold completeLevel evenLevel
  split
  · exact hashInto_filled sha256 filled (Nat.lt_succ_self _) []
  · exact ⟨slots, rfl, filled⟩

theorem evenCount_length (level : List CString) : evenCount level.length = (evenLevel sha256 level).length := by
  unfold evenCount evenLevel
  split
  · rw [List.length_append, List.length_singleton]
  · rfl

private theorem filled_slot {slots : Slots} {size position : Nat} {hashes : List CString} (filled : Filled slots size hashes)
    {hash : CString} (found : hashes[position]? = some hash) : slots[position]? = some (slotOf hash) := by
  have inside := (List.getElem?_eq_some_iff.mp found).1
  rw [← List.getElem?_take_of_lt inside, filled.written, List.getElem?_map, found]
  rfl

private theorem slotOf_take {hash : CString} (length : hash.length = sha256HexLength) :
    (slotOf hash).take sha256HexLength = hash.bytes := by
  rw [slotOf, ← length]
  exact List.take_left

/-- The pairs from some place on are combined into the slots behind those of the pairs in front. -/
theorem combineInto_filled {slots next : Slots} {size nextSize : Nat} {front pairs done : List CString}
    (current : Filled slots size (front ++ pairs)) (hashes : ∀ hash ∈ pairs, hash.length = sha256HexLength)
    (even : pairs.length % 2 = 0) (place : front.length = 2 * done.length) (filled : Filled next nextSize done)
    (room : done.length + pairs.length / 2 ≤ nextSize) :
    ∃ after, combineInto sha256 slots (front.length + pairs.length) front.length next = some after ∧
      Filled after nextSize (done ++ combineHashes sha256 pairs) := by
  fun_induction combineHashes sha256 pairs generalizing front done next with
  | case1 left right rest ih =>
    simp only [List.length_cons] at even room
    have first : slots[front.length]? = some (slotOf left) := filled_slot current (by simp)
    have second : slots[front.length + 1]? = some (slotOf right) := filled_slot current (by simp)
    obtain ⟨after, written, more⟩ := hashInto_filled sha256 filled (by omega) (left ++ right).bytes
    have remaining : Filled slots size ((front ++ [left, right]) ++ rest) := by simpa using current
    obtain ⟨final, combined, all⟩ := ih remaining (fun hash member => hashes hash (by simp [member])) (by omega)
      (by simp [place]; omega) more (by simp; omega)
    refine ⟨final, ?_, by simpa using all⟩
    have half : front.length / 2 = done.length := by omega
    have total : (front ++ [left, right]).length + rest.length = front.length + (left :: right :: rest).length := by
      simp only [List.length_append, List.length_cons, List.length_nil]
      omega
    rw [total, List.length_append] at combined
    rw [combineInto, if_pos (by simp), first, second, half]
    simp only [Option.bind_eq_bind, Option.bind_some, slotOf_take (hashes left (by simp)), slotOf_take (hashes right (by simp)),
      ← CString.bytes_append, written]
    exact combined
  | case2 pairs short =>
    rcases pairs with _ | ⟨_, _ | ⟨_, _⟩⟩
    · refine ⟨next, ?_, by simpa using filled⟩
      rw [combineInto, if_neg (by simp)]
    · simp at even
    · exact absurd rfl (short _ _ _)

private theorem combineHashes_hashes (level : List CString) :
    ∀ hash ∈ combineHashes sha256 level, hash.length = sha256HexLength := by
  fun_induction combineHashes sha256 level with
  | case1 left right rest ih =>
    intro hash member
    rcases List.mem_cons.mp member with rfl | later
    · exact digestToHex_length _
    · exact ih hash later
  | case2 => simp

/-- The hashes of one level become those of the next one. -/
private theorem pass_filled {slots : Slots} {level : List CString} (filled : Filled slots (level.length + 1) level)
    (hashes : ∀ hash ∈ level, hash.length = sha256HexLength) :
    ∃ completed after, completeLevel sha256 slots level.length = some completed ∧
      combineInto sha256 completed (evenCount level.length) 0 (callocSlots (evenCount level.length / 2 + 1)) = some after ∧
      Filled after ((combineHashes sha256 (evenLevel sha256 level)).length + 1) (combineHashes sha256 (evenLevel sha256 level)) := by
  obtain ⟨completed, padded, complete⟩ := completeLevel_filled sha256 filled
  have long : ∀ hash ∈ evenLevel sha256 level, hash.length = sha256HexLength := by
    intro hash member
    unfold evenLevel at member
    split at member
    · rcases List.mem_append.mp member with earlier | last
      · exact hashes hash earlier
      · rw [List.mem_singleton.mp last]
        exact digestToHex_length _
    · exact hashes hash member
  have even : (evenLevel sha256 level).length % 2 = 0 := by
    rw [evenLevel_length]
    omega
  have start : Filled completed (level.length + 1) ([] ++ evenLevel sha256 level) := complete
  obtain ⟨after, combined, next⟩ := combineInto_filled sha256 start long even rfl (calloc_filled _)
    (show [].length + (evenLevel sha256 level).length / 2 ≤ (evenLevel sha256 level).length / 2 + 1 by simp)
  rw [List.length_nil, Nat.zero_add, ← evenCount_length] at combined
  rw [List.nil_append] at next
  refine ⟨completed, after, padded, combined, ?_⟩
  rwa [combineHashes_length]

/-- The loop on the arrays ends where the loop on the lists does. -/
theorem levelLoop_filled {slots : Slots} {level : List CString} (filled : Filled slots (level.length + 1) level)
    (hashes : ∀ hash ∈ level, hash.length = sha256HexLength) :
    ∃ final last, levelLoop sha256 slots level.length = some final ∧ (merkleLevels sha256 level).result = .ok last ∧
      Filled final (last.length + 1) last := by
  induction level using merkleLevels.induct sha256 generalizing slots with
  | case1 level ih =>
    obtain ⟨completed, next, padded, combined, more⟩ := pass_filled sha256 filled hashes
    have count : evenCount level.length / 2 = (combineHashes sha256 (evenLevel sha256 level)).length := by
      rw [combineHashes_length, evenCount_length]
    have long := combineHashes_hashes sha256 (evenLevel sha256 level)
    rw [count] at combined
    rw [levelLoop, padded]
    simp only [Option.bind_eq_bind, Option.bind_some, count, combined]
    by_cases another : 1 < (combineHashes sha256 (evenLevel sha256 level)).length
    · obtain ⟨final, last, looped, levels, written⟩ := ih another more long
      refine ⟨final, last, ?_, ?_, written⟩
      · rw [if_pos another]
        exact looped
      · rw [merkleLevels, result_bind_eq_ok]
        refine ⟨(), rfl, ?_⟩
        rwa [result_ite, if_pos another]
    · refine ⟨next, _, ?_, ?_, more⟩
      · rw [if_neg another]
        rfl
      · rw [merkleLevels, result_bind_eq_ok]
        refine ⟨(), rfl, ?_⟩
        rw [result_ite, if_neg another]
        rfl

/-- The hash at the root of a tree over a list of texts. The left half takes as many
texts as it can hold, and the hash of the empty string stands for an empty right half. -/
def treeHash (hash : Bytes → CString) : Nat → List CString → CString
  | 0, transactions => hash (transactions.headD (CString.text "")).bytes
  | height + 1, transactions =>
    let right :=
      if transactions.length ≤ 2 ^ height then hash [] else treeHash hash height (transactions.drop (2 ^ height))
    hash (treeHash hash height (transactions.take (2 ^ height)) ++ right).bytes

private theorem treeHash_tree (height : Nat) (transactions : List CString) :
    (treeHash (sha256Hex sha256) height transactions).bytes =
      digestToHex (HashTree.tree sha256 innerNode [] height (transactions.map CString.bytes)) := by
  induction height generalizing transactions with
  | zero =>
    cases transactions with
    | nil => rfl
    | cons first rest => rfl
  | succ height ih =>
    have halves (left right : Digest) (text : CString) (same : text.bytes = innerNode left right) :
        (sha256Hex sha256 text.bytes).bytes = digestToHex (sha256 (innerNode left right)) := by
      rw [same]
      rfl
    rw [treeHash, HashTree.tree, List.length_map, ← List.map_take, ← List.map_drop]
    apply halves
    rw [CString.bytes_append, innerNode, ih]
    split
    · rfl
    · rw [ih]

/-- The last level holds the hash of the whole tree. -/
theorem summit_treeHash {transactions : List CString} (some : transactions ≠ []) :
    (summit sha256 (transactions.map CString.bytes)).map (sha256Hex sha256) =
      [treeHash (sha256Hex sha256) (HashTree.depth transactions.length) transactions] := by
  have texts : transactions.map CString.bytes ≠ [] := by simpa using some
  have single := HashTree.summit_tree sha256 innerNode [] texts
  obtain ⟨top, alone, same⟩ := List.map_eq_singleton_iff.mp single
  rw [List.length_map] at same
  rw [summit, alone, List.map_singleton, List.cons.injEq]
  refine ⟨CString.ext ?_, rfl⟩
  rw [treeHash_tree, ← same]
  rfl

/-- `calculate_merkle_root` stays within its arrays and finds the same root there. -/
theorem merkleRootInSlots_root {transactions : List CString} (some : transactions ≠ []) :
    merkleRootInSlots sha256 transactions =
      Option.some (treeHash (sha256Hex sha256) (HashTree.depth transactions.length) transactions) := by
  have hashes : transactions.map (fun transaction => sha256Hex sha256 transaction.bytes) =
      (transactions.map CString.bytes).map (sha256Hex sha256) := by
    rw [List.map_map]
    rfl
  obtain ⟨leaves, hashed, filled⟩ := hashTransactions_filled sha256 (calloc_filled (transactions.length + 1)) transactions
    (by simp)
  rw [List.length_nil] at hashed
  rw [List.nil_append, hashes] at filled
  have count : transactions.length = ((transactions.map CString.bytes).map (sha256Hex sha256)).length := by
    rw [List.length_map, List.length_map]
  have long : ∀ hash ∈ (transactions.map CString.bytes).map (sha256Hex sha256), hash.length = sha256HexLength := by
    intro hash member
    obtain ⟨text, _, rfl⟩ := List.mem_map.mp member
    exact digestToHex_length _
  rw [count] at filled
  obtain ⟨final, last, looped, levels, written⟩ := levelLoop_filled sha256 filled long
  rw [levels_summit, summit_treeHash sha256 some] at levels
  cases levels
  have top : final[0]? = _ := filled_slot written rfl
  rw [← count] at looped
  rw [merkleRootInSlots, hashed]
  simp only [Option.bind_eq_bind, Option.bind_some, looped, top, slotOf, CString.ofMemory_written]
  rfl

/-- The loop over the levels stays within the slots of every level and finds the root
of the recursive tree over the transactions. -/
theorem merkle_loop_is_tree (sha256 : HashFunction) {transactions : List CString} (some : transactions ≠ []) :
    merkleRootInSlots sha256 transactions =
        Option.some (treeHash (sha256Hex sha256) (max 1 (Nat.clog 2 transactions.length)) transactions) ∧
      (calculateMerkleRoot sha256 transactions).result =
        .ok (treeHash (sha256Hex sha256) (max 1 (Nat.clog 2 transactions.length)) transactions) := by
  refine ⟨merkleRootInSlots_root sha256 some, (merkleRoot_ok sha256).mpr ⟨some, ?_⟩⟩
  rw [merkleRoot, summit_treeHash sha256 some, HashTree.depth, List.headD_cons]

theorem three_transactions_tree :
    let transactions := [CString.text "tx1", CString.text "tx2", CString.text "tx3"]
    (calculateMerkleRoot sha256Bytes transactions).result =
      .ok (treeHash (sha256Hex sha256Bytes) (max 1 (Nat.clog 2 3)) transactions) :=
  (merkle_loop_is_tree sha256Bytes (List.cons_ne_nil _ _)).2

end ProcessChain.Proofs.MerkleTree
