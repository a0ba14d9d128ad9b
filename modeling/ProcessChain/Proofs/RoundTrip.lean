import ProcessChain.Proofs.Csv

/-! Writing a block and reading it back. The encoder refuses a transaction that
contains the separator, but two transactions can still form one at their border:
a transaction that ends in a colon moves the cut by one letter. -/

namespace ProcessChain.Proofs.RoundTrip
open Lib Lib.FailStop
open Csv

/-- No transaction in front of another one ends in a colon. -/
def ColonClear (transactions : List CString) : Prop :=
  ∀ transaction ∈ transactions.dropLast, transaction.bytes.getLast? ≠ some 58

instance (transactions : List CString) : Decidable (ColonClear transactions) :=
  inferInstanceAs (Decidable (∀ transaction ∈ transactions.dropLast, transaction.bytes.getLast? ≠ some 58))

theorem separable_colonClear {transactions : List CString} (some : transactions ≠ [])
    (plain : ∀ transaction ∈ transactions, conflictsWithCsv transaction = false) :
    Separable doubleColon.bytes (transactions.map CString.bytes) ↔ ColonClear transactions := by
  have colons : doubleColon.bytes = [58, 58] := by decide
  have whole : ∀ piece ∈ transactions.map CString.bytes, ¬ [58, 58] <:+: piece := by
    intro piece member
    obtain ⟨transaction, inside, rfl⟩ := List.mem_map.mp member
    have clear := plain transaction inside
    simp only [conflictsWithCsv, Bool.or_eq_false_iff, Option.isSome_eq_false_iff, Option.isNone_iff_eq_none] at clear
    rw [← colons]
    exact (cutAt_none (by decide)).mp clear.1.1.2
  rw [colons, separable_doubled (by simpa using some) whole, ← List.map_dropLast]
  simp only [List.forall_mem_map, ColonClear]

/-- Transactions survive being joined exactly when they may stand next to each other. -/
theorem rejoined_same {transactions : List CString} (some : transactions ≠ [])
    (plain : ∀ transaction ∈ transactions, conflictsWithCsv transaction = false) :
    rejoined transactions = transactions ↔ ColonClear transactions := by
  rw [← separable_colonClear some plain]
  constructor
  · intro same
    -- what a reader cuts out of a text never contains a border in the wrong place
    have cut := pieces_separable (show doubleColon.bytes ≠ [] by decide) (CString.join doubleColon transactions).bytes
    have pieces : transactions.map CString.bytes = pieces doubleColon.bytes (CString.join doubleColon transactions).bytes := by
      conv_lhs => rw [← same, rejoined]
      exact map_pieces (CString.join doubleColon transactions).terminated
    rw [pieces]
    exact cut
  · exact rejoined_separable

theorem fromCsv_csvLine {block : Block} (writable : Writable block) :
    (blockFromCsv (csvLine block)).result = .ok block ↔ ColonClear block.transactions := by
  constructor
  · intro parsed
    apply (rejoined_same writable.sized.some writable.plain).mp
    exact parsed_rejoined parsed
  · intro clear
    apply roundTrip writable
    exact (separable_colonClear writable.sized.some writable.plain).mpr clear

theorem serialize_ok {block : Block} {buffer : Bytes} :
    (blockSerialize block).result = .ok buffer ↔ Writable block ∧ buffer = (csvLine block).bytes := by
  simp only [blockSerialize, malloc, result_bind_eq_ok, result_request, result_pure, toCsv_ok]
  constructor
  · intro passed
    obtain ⟨_, ⟨writable, rfl⟩, _, _, same⟩ := passed
    exact ⟨writable, (Except.ok.inj same).symm⟩
  · intro rules
    obtain ⟨writable, rfl⟩ := rules
    exact ⟨_, ⟨writable, rfl⟩, (), trivial, rfl⟩

theorem deserialize_line {line : CString} {block : Block} (visible : line.bytes ≠ []) :
    (blockDeserialize line.bytes).result = .ok block ↔ (blockFromCsv line).result = .ok block := by
  simp only [blockDeserialize, malloc, result_bind_eq_ok, result_failIf_eq_ok, result_request, CString.ofMemory_bytes]
  constructor
  · intro passed
    obtain ⟨_, _, _, _, _, _, parsed⟩ := passed
    exact parsed
  · intro parsed
    exact ⟨(), visible, (), line.terminated, (), trivial, parsed⟩

/-- Decoding undoes encoding, for lines and for payloads, exactly when no
transaction in front of another one ends in a colon. -/
theorem decode_undoes_encode {block : Block} {line : CString} (written : (blockToCsv block).result = .ok line) :
    ((blockFromCsv line).result = .ok block ∧
        ∃ buffer, (blockSerialize block).result = .ok buffer ∧ (blockDeserialize buffer).result = .ok block) ↔
      ColonClear block.transactions := by
  obtain ⟨writable, rfl⟩ := toCsv_ok.mp written
  constructor
  · intro undone
    exact (fromCsv_csvLine writable).mp undone.1
  · intro clear
    have parsed := (fromCsv_csvLine writable).mpr clear
    have visible : (csvLine block).bytes ≠ [] := List.ne_nil_of_mem (parsed_comma parsed)
    refine ⟨parsed, (csvLine block).bytes, serialize_ok.mpr ⟨writable, rfl⟩, ?_⟩
    exact (deserialize_line visible).mpr parsed

def allZeros : CString := CString.text "0000000000000000000000000000000000000000000000000000000000000000"

def pairBlock (first second : String) : Block :=
  ⟨0, 0, allZeros, allZeros, 0, [CString.text first, CString.text second]⟩

theorem pairBlock_decodes :
    (blockToCsv (pairBlock "a" "b:")).result = .ok (csvLine (pairBlock "a" "b:")) ∧
      (blockFromCsv (csvLine (pairBlock "a" "b:"))).result = .ok (pairBlock "a" "b:") := by
  have written : (blockToCsv (pairBlock "a" "b:")).result = .ok (csvLine (pairBlock "a" "b:")) := by decide +kernel
  exact ⟨written, ((decode_undoes_encode written).mpr (by decide +kernel)).1⟩

/-- The colon at the end of the first transaction becomes part of the second. -/
theorem pairBlock_colon :
    (blockToCsv (pairBlock "a:" "b")).result = .ok (csvLine (pairBlock "a:" "b")) ∧
      (blockFromCsv (csvLine (pairBlock "a:" "b"))).result = .ok (pairBlock "a" ":b") ∧
      pairBlock "a" ":b" ≠ pairBlock "a:" "b" := by
  have rewritten : csvLine (pairBlock "a:" "b") = csvLine (pairBlock "a" ":b") := by decide +kernel
  have writable : (blockToCsv (pairBlock "a" ":b")).result = .ok (csvLine (pairBlock "a" ":b")) := by decide +kernel
  refine ⟨by decide +kernel, ?_, by decide +kernel⟩
  rw [rewritten]
  exact (fromCsv_csvLine (toCsv_ok.mp writable).1).mpr (by decide +kernel)

end ProcessChain.Proofs.RoundTrip
