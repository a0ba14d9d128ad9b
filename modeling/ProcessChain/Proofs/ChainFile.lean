import ProcessChain.ChainFile
import ProcessChain.Proofs.Handlers

/-! What saving writes and what loading accepts: the blocks of a loaded chain are
the blocks on the lines of the file, in order, and nothing else is asked of them. -/

namespace ProcessChain.Proofs.ChainFile
open Lib Lib.FailStop Csv Validation Storage Handlers

/-- The contents of a file with the lines of these blocks. -/
def fileOf (blocks : List Block) : Bytes :=
  (blockchainCsvHeader :: blocks.map fun block => (csvLine block).bytes).flatMap (· ++ [10])

private theorem saveLines_ensures (blocks : List Block) (written : Bytes) :
    Ensures (saveLines blocks written)
      (fun result => ∀ contents, result = .ok contents → (∀ block ∈ blocks, Writable block) ∧ contents = written ++ syncText blocks)
      fun result => (∀ block ∈ blocks, Writable block) → result = .ok (written ++ syncText blocks) := by
  induction blocks generalizing written with
  | nil => exact .pure (by simp [syncText]) (by simp [syncText])
  | cons block rest ih =>
    apply (attempt_ensures _).bind
    intro result encoded
    cases result with
    | error error =>
      refine .pure (by simp) fun failed writable => ?_
      rw [toCsv_ok.mpr ⟨writable block (by simp), rfl⟩] at failed
      cases failed.1
    | ok line =>
      obtain ⟨writable, rfl⟩ := toCsv_ok.mp (encoded line rfl)
      have next : written ++ ((csvLine block).bytes ++ [10]) ++ syncText rest = written ++ syncText (block :: rest) := by
        simp [syncText]
      refine (ih _).weaken ?_ ?_
      · intro result saved contents same
        obtain ⟨others, rfl⟩ := saved contents same
        refine ⟨?_, next⟩
        intro other member
        rcases List.mem_cons.mp member with rfl | later
        · exact writable
        · exact others other later
      · intro result _ complete _ all
        rw [complete fun other member => all other (by simp [member]), next]

/-- What is saved is the header and the lines of the blocks, if all can be written. -/
theorem saveCsv_ensures (chain : Blockchain) :
    Ensures (blockchainSaveCsv chain)
      (fun result => ∀ contents, result = .ok contents →
        (∀ block ∈ chain.blocks, Writable block) ∧ contents = fileOf chain.blocks)
      fun result => (∀ block ∈ chain.blocks, Writable block) → result = .ok (fileOf chain.blocks) := by
  have file : blockchainCsvHeader ++ [10] ++ syncText chain.blocks = fileOf chain.blocks := by
    rw [fileOf, List.flatMap_cons, syncText]
  rw [← file]
  exact saveLines_ensures chain.blocks _

/-- The lines that are read as blocks. -/
def blockLines (chunks : List (Chunk UInt8)) : List CString := (chunks.map chunkLine).filter (· ≠ CString.text "")

/-- Every line fits into the buffer and is empty or the line of the next block. -/
structure Carries (chunks : List (Chunk UInt8)) (blocks : List Block) : Prop where
  fit : ∀ chunk ∈ chunks, exceedsBuffer chunk = false
  parsed : (blockLines chunks).map (fun line => (blockFromCsv line).result) = blocks.map .ok

theorem blockLines_cons (chunk : Chunk UInt8) (rest : List (Chunk UInt8)) :
    blockLines (chunk :: rest) =
      if chunkLine chunk = CString.text "" then blockLines rest else chunkLine chunk :: blockLines rest := by
  simp only [blockLines, List.map_cons, List.filter_cons, decide_not]
  split <;> simp_all

theorem loadLines_ensures (chunks : List (Chunk UInt8)) (chain : Blockchain) :
    Ensures (loadLines chunks chain)
      (fun result => ∀ after, result = .ok after → ∃ blocks, after.blocks = chain.blocks ++ blocks ∧ Carries chunks blocks)
      fun result => ∀ blocks, Carries chunks blocks → ∃ after, result = .ok after ∧ after.blocks = chain.blocks ++ blocks := by
  induction chunks generalizing chain with
  | nil =>
    refine .pure ?_ ?_
    · intro after same
      cases same
      exact ⟨[], by simp, by simp, rfl⟩
    · intro blocks carries
      have none : blocks = [] := by simpa [blockLines] using carries.parsed.symm
      exact ⟨chain, rfl, by simp [none]⟩
  | cons chunk rest ih =>
    simp only [loadLines]
    split
    next large =>
      refine .pure (by simp) ?_
      intro blocks carries
      rw [carries.fit chunk (by simp)] at large
      cases large
    next small =>
      simp only [Bool.not_eq_true] at small
      have all {blocks : List Block} (carries : Carries rest blocks) :
          ∀ other ∈ chunk :: rest, exceedsBuffer other = false := by
        intro other member
        rcases List.mem_cons.mp member with rfl | later
        · exact small
        · exact carries.fit other later
      split
      next blank =>
        refine (ih chain).weaken ?_ ?_
        · intro result loaded after same
          obtain ⟨blocks, grown, carries⟩ := loaded after same
          refine ⟨blocks, grown, all carries, ?_⟩
          rw [blockLines_cons, if_pos blank, carries.parsed]
        · intro result _ complete blocks carries
          have parsed := carries.parsed
          rw [blockLines_cons, if_pos blank] at parsed
          exact complete blocks ⟨fun chunk member => carries.fit chunk (by simp [member]), parsed⟩
      next visible =>
        apply (attempt_ensures _).bind
        intro result read
        cases result with
        | error error =>
          refine .pure (by simp) ?_
          intro failed blocks carries
          have parsed := carries.parsed
          rw [blockLines_cons, if_neg visible, List.map_cons, ← failed.1] at parsed
          cases blocks <;> simp at parsed
        | ok block =>
          have read := read block rfl
          apply (append_ensures _ _).bind
          intro appended grown
          obtain ⟨result, next⟩ := appended
          have sized : WellSized block.transactions := (fromCsv_ok.mp read).choose_spec.sized
          cases result with
          | error error =>
            refine .pure (by simp) ?_
            intro complete
            cases complete sized
          | ok done =>
            refine (ih next).weaken ?_ ?_
            · intro result loaded after same
              obtain ⟨blocks, later, carries⟩ := loaded after same
              refine ⟨block :: blocks, by simp [later, show next.blocks = _ from grown], all carries, ?_⟩
              rw [blockLines_cons, if_neg visible, List.map_cons, List.map_cons, read, carries.parsed]
            · intro result _ complete _ _ blocks carries
              have parsed := carries.parsed
              rw [blockLines_cons, if_neg visible, List.map_cons, read] at parsed
              cases blocks with
              | nil => cases parsed
              | cons first others =>
                simp only [List.map_cons, List.cons.injEq, Except.ok.injEq] at parsed
                obtain ⟨after, same, later⟩ :=
                  complete others ⟨fun chunk member => carries.fit chunk (by simp [member]), parsed.2⟩
                exact ⟨after, same, by simp [later, show next.blocks = _ from grown, parsed.1]⟩

/-- The file has the header and carries the blocks, at least one. -/
structure FileCarries (contents : Bytes) (blocks : List Block) : Prop where
  lines : ∃ header lines, fgetsAll contents = header :: lines ∧ exceedsBuffer header = false ∧
    (chunkLine header).bytes = blockchainCsvHeader ∧ Carries lines blocks
  some : blocks ≠ []

theorem loadCsv_ensures (contents : Bytes) :
    Ensures (blockchainLoadCsv contents)
      (fun result => ∀ chain, result = .ok chain → FileCarries contents chain.blocks)
      fun result => ∀ blocks, FileCarries contents blocks → ∃ chain, result = .ok chain ∧ chain.blocks = blocks := by
  unfold blockchainLoadCsv
  split
  next empty =>
    refine .pure (by simp) ?_
    intro blocks carries
    obtain ⟨header, lines, found, _⟩ := carries.lines
    rw [empty] at found
    cases found
  next header lines found =>
    have only {blocks : List Block} (carries : FileCarries contents blocks) : exceedsBuffer header = false ∧
        (chunkLine header).bytes = blockchainCsvHeader ∧ Carries lines blocks := by
      obtain ⟨first, others, same, facts⟩ := carries.lines
      rw [found] at same
      cases same
      exact facts
    split
    next large =>
      refine .pure (by simp) ?_
      intro blocks carries
      rw [(only carries).1] at large
      cases large
    next small =>
      split
      next wrong =>
        refine .pure (by simp) ?_
        intro blocks carries
        exact absurd (only carries).2.1 wrong
      next right =>
        apply (loadLines_ensures lines blockchainInit).bind
        intro result loaded
        cases result with
        | error error =>
          refine .pure (by simp) ?_
          intro complete blocks carries
          obtain ⟨_, failed, _⟩ := complete blocks (only carries).2.2
          cases failed
        | ok after =>
          obtain ⟨blocks, grown, carries⟩ := loaded after rfl
          simp only [blockchainInit, List.nil_append] at grown
          dsimp only
          split
          next none =>
            refine .pure (by simp) ?_
            intro complete blocks carries
            obtain ⟨_, same, whole⟩ := complete blocks (only carries).2.2
            cases same
            simp only [blockchainInit, List.nil_append] at whole
            exact absurd (whole ▸ List.eq_nil_of_length_eq_zero none) carries.some
          next some =>
            refine .pure ?_ ?_
            · intro chain same
              cases same
              refine ⟨⟨header, lines, found, by simpa using small, not_not.mp right, grown ▸ carries⟩, ?_⟩
              intro none
              exact some (by simp [Blockchain.count, none])
            · intro complete blocks carries
              obtain ⟨_, same, whole⟩ := complete blocks (only carries).2.2
              cases same
              exact ⟨after, rfl, by simpa [blockchainInit] using whole⟩

theorem nodeInit_loads {nodeId : Nat} {runtimeDir : CString} {socket : Except ProjectError Unit} {contents : Bytes}
    {heap : Heap} {node : Node} (started : (nodeInit nodeId runtimeDir socket (some contents) heap).1 = .ok node) :
    FileCarries contents node.chain.blocks := by
  have loads := (loadCsv_ensures contents).always heap
  unfold nodeInit at started
  cases socket with
  | error error => cases started
  | ok done =>
    simp only at started
    split at started
    · cases started
    · generalize outcome : blockchainLoadCsv contents heap = pair at loads
      obtain ⟨result, later⟩ := pair
      simp only [bind, StateT.bind, outcome] at started
      cases result with
      | error error => cases started
      | ok chain =>
        cases started
        exact loads chain rfl

theorem nodeInit_empty {nodeId : Nat} {runtimeDir : CString} {socket : Except ProjectError Unit} {heap : Heap} {node : Node}
    (started : (nodeInit nodeId runtimeDir socket none heap).1 = .ok node) : node.chain.blocks = [] := by
  unfold nodeInit at started
  cases socket with
  | error error => cases started
  | ok done =>
    simp only at started
    split at started
    · cases started
    · cases started
      rfl

theorem FileCarries.unique {contents : Bytes} {first second : List Block} (one : FileCarries contents first)
    (other : FileCarries contents second) : first = second := by
  obtain ⟨_, _, found, _, _, carries⟩ := one.lines
  obtain ⟨_, _, same, _, _, also⟩ := other.lines
  rw [found] at same
  cases same
  apply List.map_injective_iff.mpr (fun _ _ equal => Except.ok.inj equal)
  exact carries.parsed.symm.trans also.parsed

/-- The blocks of a node that starts with these contents. -/
def startingBlocks (contents : Bytes) : Option (List Block) :=
  match (nodeInit 0 (CString.text "/tmp") (.ok ()) (some contents) openHeap).1 with
  | .ok node => some node.chain.blocks
  | .error _ => none

theorem startingBlocks_node {contents : Bytes} {blocks : List Block} (found : startingBlocks contents = some blocks) :
    ∃ node, (nodeInit 0 (CString.text "/tmp") (.ok ()) (some contents) openHeap).1 = .ok node ∧
      node.chain.blocks = blocks := by
  unfold startingBlocks at found
  split at found
  next node started => exact ⟨node, started, Option.some.inj found⟩
  · cases found

end ProcessChain.Proofs.ChainFile
