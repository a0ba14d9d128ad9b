import ProcessChain.Proofs.Canonical
import ProcessChain.Proofs.Loading

/-! Loading what was saved. The parser produces only blocks whose transactions can be
joined again, so a loaded chain that can be saved at all is loaded as it was. -/

namespace ProcessChain.Proofs.Saving
open Lib Lib.FailStop Csv Validation ChainFile Sending Handlers Compatibility Loading Bash

/-- Every block of a loaded file was read from some line. -/
theorem carried_parsed {contents : Bytes} {blocks : List Block} (carries : FileCarries contents blocks) :
    ∀ block ∈ blocks, ∃ line, (blockFromCsv line).result = .ok block := by
  intro block member
  obtain ⟨_, lines, _, _, _, inner⟩ := carries.lines
  have listed : Except.ok block ∈ (blockLines lines).map fun line => (blockFromCsv line).result := by
    rw [inner.parsed]
    exact List.mem_map_of_mem member
  obtain ⟨line, _, parsed⟩ := List.mem_map.mp listed
  exact ⟨line, parsed⟩

private theorem writable_unquoted {block : Block} (writable : Writable block) : ¬ Quoted block := by
  intro quoted
  obtain ⟨transaction, member, mark⟩ := quoted
  exact (plain_letters (writable.plain transaction member) 34 mark).1 rfl

/-- Unless memory runs out, a loaded chain cannot be saved exactly when it contains a
quote. What is saved is loaded as the same blocks, and these are saved as the same bytes. -/
theorem load_save_load {contents : Bytes} {heap : Heap} {chain : Blockchain}
    (loaded : (blockchainLoadCsv contents heap).1 = .ok chain) :
    (∀ saving, (blockchainSaveCsv chain saving).2.refused = false →
        ((∃ error, (blockchainSaveCsv chain saving).1 = .error error) ↔ ∃ block ∈ chain.blocks, Quoted block)) ∧
      ∀ saving written, (blockchainSaveCsv chain saving).1 = .ok written →
        (∀ loading, (blockchainLoadCsv written loading).2.refused = false →
          ∃ again, (blockchainLoadCsv written loading).1 = .ok again) ∧
        ∀ loading again, (blockchainLoadCsv written loading).1 = .ok again → again.blocks = chain.blocks ∧
          ∀ resaving, (blockchainSaveCsv again resaving).2.refused = false →
            (blockchainSaveCsv again resaving).1 = .ok written := by
  have carries := (loadCsv_ensures contents).always heap chain loaded
  have parsed := carried_parsed carries
  constructor
  · intro saving granted
    have saves := ((saveCsv_ensures chain).granted saving granted).2
    constructor
    · intro failed
      obtain ⟨error, failed⟩ := failed
      by_contra unquoted
      have complete := saves fun block member => by
        obtain ⟨line, read⟩ := parsed block member
        exact parsed_writable read fun quoted => unquoted ⟨block, member, quoted⟩
      rw [failed] at complete
      cases complete
    · intro quoted
      obtain ⟨block, member, quoted⟩ := quoted
      cases outcome : (blockchainSaveCsv chain saving).1 with
      | error error => exact ⟨error, rfl⟩
      | ok written =>
        have writable := ((saveCsv_ensures chain).always saving written outcome).1
        exact absurd quoted (writable_unquoted (writable block member))
  · intro saving written saved
    obtain ⟨writable, rfl⟩ := (saveCsv_ensures chain).always saving written saved
    have whole : ∀ block ∈ chain.blocks, rejoined block.transactions = block.transactions := by
      intro block member
      obtain ⟨line, read⟩ := parsed block member
      exact parsed_rejoined read
    have carried := fileOf_carries carries.some writable whole
    have loads := loadCsv_ensures (fileOf chain.blocks)
    constructor
    · intro loading granted
      obtain ⟨again, reloaded, _⟩ := (loads.granted loading granted).2 chain.blocks carried
      exact ⟨again, reloaded⟩
    · intro loading again reloaded
      have same := (loads.always loading again reloaded).unique carried
      refine ⟨same, ?_⟩
      intro resaving granted
      have resaves := ((saveCsv_ensures again).granted resaving granted).2
      rw [same] at resaves
      exact resaves writable

/-- A file with other line ends than those that are written, and a line that is respelled. -/
def foreignFile : Bytes := blockchainCsvHeader ++ [13, 10, 10] ++ Canonical.capitalLine.bytes

theorem foreignFile_saved : ∃ chain, (blockchainLoadCsv foreignFile openHeap).1 = .ok chain ∧
    ∀ saving written, (blockchainSaveCsv chain saving).1 = .ok written →
      ∀ loading again, (blockchainLoadCsv written loading).1 = .ok again → again.blocks = chain.blocks := by
  have accepted : (blockchainLoadCsv foreignFile openHeap).1.isOk = true := by
    rw [foreignFile, blockchainCsvHeader, Canonical.capitalLine, CString.text, ascii_append, ascii_ofList, ascii_ofList, ascii_ofList]
    decide +kernel
  cases loaded : (blockchainLoadCsv foreignFile openHeap).1 with
  | error error =>
    rw [loaded] at accepted
    cases accepted
  | ok chain =>
    refine ⟨chain, rfl, ?_⟩
    intro saving written saved loading again reloaded
    exact (((load_save_load loaded).2 saving written saved).2 loading again reloaded).1

end ProcessChain.Proofs.Saving
