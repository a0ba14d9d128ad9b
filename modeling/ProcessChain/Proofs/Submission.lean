import ProcessChain.Proofs.MinerSteps
import ProcessChain.Proofs.Allocation

/-! What a submission is answered with. The handler looks at the beginning of the
payload only, up to the size of its buffer and up to the first NUL. It is exact for
payloads that fit into the buffer as one string. Of every other payload it takes
the part that it sees for the whole. -/

namespace ProcessChain.Proofs.Submission
open Lib Lib.FailStop Validation Handlers Allocation

def Accepted (transaction : CString) (heap : Heap) : Prop := (attempt (validateTransaction transaction) heap).1 = .ok ()

/-- The whole payload is the text of an accepted transaction. -/
def IsTransaction (payload : Bytes) (heap : Heap) : Prop :=
  ∃ transaction : CString, transaction.bytes = payload ∧ Accepted transaction heap

def HasRoom (miner : Miner) : Prop := miner.mempool.transactions.length < mempoolCapacity

/-- A transaction is acknowledged and becomes an entry as it was sent. Anything
else is answered with an error and leaves no trace in the pool. -/
structure Exact (miner : Miner) (payload : Bytes) (heap : Heap) : Prop where
  answer : (handleTxSubmit miner payload heap).1.2.map Message.payload = some (ascii "OK") ↔
    IsTransaction payload heap ∧ HasRoom miner
  gains : IsTransaction payload heap → HasRoom miner →
    (handleTxSubmit miner payload heap).1.1.mempool.transactions.map CString.bytes =
      miner.mempool.transactions.map CString.bytes ++ [payload]
  refused : ¬ (IsTransaction payload heap ∧ HasRoom miner) →
    (handleTxSubmit miner payload heap).1.1.mempool = miner.mempool ∧
      ∃ reply ∈ (handleTxSubmit miner payload heap).1.2, ascii "ERR" <+: reply.payload

theorem accepted_valid {transaction : CString} {heap : Heap} (accepted : Accepted transaction heap) :
    ValidTransaction transaction :=
  validateTransaction_ok.mp (run_ok accepted)

/-- The payload fits into the buffer of the handler, and ends there. -/
structure FitsBuffer (payload : Bytes) : Prop where
  short : payload.length < maxTransactionLength
  clean : 0 ∉ payload

theorem submitted_whole {payload : Bytes} (fits : FitsBuffer payload) : (submittedTransaction payload).bytes = payload := by
  have all : payload.take (maxTransactionLength - 1) = payload := List.take_of_length_le (Nat.le_pred_of_lt fits.short)
  rw [submittedTransaction, all, CString.bytes_ofMemory fits.clean]

theorem isTransaction_iff {payload : Bytes} {heap : Heap} :
    IsTransaction payload heap ↔ FitsBuffer payload ∧ Accepted (submittedTransaction payload) heap := by
  constructor
  · intro given
    obtain ⟨transaction, rfl, accepted⟩ := given
    have fits : FitsBuffer transaction.bytes := ⟨(accepted_valid accepted).short, transaction.terminated⟩
    rw [CString.ext (submitted_whole fits)]
    exact ⟨fits, accepted⟩
  · intro given
    exact ⟨submittedTransaction payload, submitted_whole given.1, given.2⟩

/-- An error is answered with its number and its text. -/
theorem submitError_text (miner : Miner) (error : ProjectError) :
    ∃ reply ∈ submitError miner error, ascii "ERR" <+: reply.payload := by
  have fits : (ascii "ERR " ++ decimal error.code ++ ascii " " ++ ascii error.string).length ≤ maxPayloadSize := by
    cases error <;> decide
  refine ⟨_, ipcSend_fits .txAck miner.sender fits, ?_⟩
  have start : ascii "ERR" <+: ascii "ERR " := by decide
  simp only [List.append_assoc]
  exact start.trans (List.prefix_append _ _)

theorem error_not_ok {reply : Option Message} (error : ∃ message ∈ reply, ascii "ERR" <+: message.payload) :
    reply.map Message.payload ≠ some (ascii "OK") := by
  obtain ⟨message, rfl, start⟩ := error
  intro same
  rw [Option.map_some, Option.some.injEq] at same
  rw [same] at start
  exact absurd start (by decide)

/-- Entries are added to a pool with room as long as they are short. -/
theorem mempoolAdd_ok {pool : Mempool} {transaction : CString} (valid : ValidTransaction transaction)
    (room : pool.transactions.length < mempoolCapacity) :
    ∃ grown, mempoolAdd pool transaction = .ok grown ∧ grown.transactions = pool.transactions ++ [transaction] := by
  have sized : ¬ (transaction.length = 0 ∨ transaction.length ≥ maxTransactionLength) := by
    have visible := valid.visible
    have short := valid.short
    omega
  have free : ¬ pool.transactions.length ≥ mempoolCapacity := Nat.not_le_of_lt room
  rw [mempoolAdd, dif_neg sized, dif_neg free]
  exact ⟨_, rfl, rfl⟩

theorem mempoolAdd_full {pool : Mempool} (full : ¬ pool.transactions.length < mempoolCapacity) (transaction : CString) :
    ∃ error, mempoolAdd pool transaction = .error error := by
  rw [mempoolAdd]
  split
  · exact ⟨_, rfl⟩
  · rw [dif_pos (Nat.le_of_not_lt full)]
    exact ⟨_, rfl⟩

/-- The two ways a submission can end. -/
inductive Outcome (miner : Miner) (transaction : CString) (heap : Heap) : Miner × Option Message → Prop
  | added {mempool : Mempool} {reply : Option Message} (accepted : Accepted transaction heap) (room : HasRoom miner)
      (grown : mempool.transactions = miner.mempool.transactions ++ [transaction])
      (answer : reply.map Message.payload = some (ascii "OK")) :
      Outcome miner transaction heap ({ miner with mempool }, reply)
  | refused (error : ProjectError) (barred : ¬ (Accepted transaction heap ∧ HasRoom miner)) :
      Outcome miner transaction heap (miner, submitError miner error)

theorem submit_outcome (miner : Miner) (payload : Bytes) (heap : Heap) :
    Outcome miner (submittedTransaction payload) heap (handleTxSubmit miner payload heap).1 := by
  unfold handleTxSubmit
  simp only [bind, StateT.bind]
  cases checked : attempt (validateTransaction (submittedTransaction payload)) heap with
  | mk result later =>
    have same : (attempt (validateTransaction (submittedTransaction payload)) heap).1 = result := by rw [checked]
    cases result with
    | error error =>
      refine .refused error fun both => ?_
      cases same.symm.trans both.1
    | ok done =>
      have accepted : Accepted (submittedTransaction payload) heap := same
      by_cases room : HasRoom miner
      · obtain ⟨grown, added, entries⟩ := mempoolAdd_ok (accepted_valid accepted) room
        simp only [added]
        exact .added accepted room entries rfl
      · obtain ⟨error, full⟩ := mempoolAdd_full room (submittedTransaction payload)
        simp only [full]
        exact .refused error fun both => room both.2

/-- A submission is exact unless the handler sees a part of the payload only, takes
this part for a transaction and has room for it. -/
theorem submission_is_exact (miner : Miner) (payload : Bytes) (heap : Heap) :
    Exact miner payload heap ↔
      (payload.length < maxTransactionLength ∧ 0 ∉ payload) ∨
        (attempt (validateTransaction (submittedTransaction payload)) heap).1 ≠ .ok () ∨
        mempoolCapacity ≤ miner.mempool.transactions.length := by
  have outcome := submit_outcome miner payload heap
  generalize ended : (handleTxSubmit miner payload heap).1 = final at outcome
  constructor
  · intro exactly
    by_contra seen
    simp only [not_or, ne_eq, not_not, Nat.not_le] at seen
    obtain ⟨part, accepted, room⟩ := seen
    cases outcome with
    | added _ _ _ answer =>
      have whole := exactly.answer.mp (by rw [ended]; exact answer)
      have fits := (isTransaction_iff.mp whole.1).1
      exact part ⟨fits.short, fits.clean⟩
    | refused _ barred => exact barred ⟨accepted, room⟩
  · intro rules
    cases outcome with
    | @added mempool reply accepted room grown answer =>
      have fits : FitsBuffer payload := by
        rcases rules with whole | rejected | full
        · exact ⟨whole.1, whole.2⟩
        · exact absurd accepted rejected
        · exact absurd room (Nat.not_lt_of_le full)
      have whole : IsTransaction payload heap := isTransaction_iff.mpr ⟨fits, accepted⟩
      refine ⟨?_, fun _ _ => ?_, fun barred => absurd ⟨whole, room⟩ barred⟩
      · rw [ended]
        exact iff_of_true answer ⟨whole, room⟩
      · rw [ended, grown, List.map_append, List.map_singleton, submitted_whole fits]
    | refused error barred =>
      have text := submitError_text miner error
      have not : ¬ (IsTransaction payload heap ∧ HasRoom miner) :=
        fun both => barred ⟨(isTransaction_iff.mp both.1).2, both.2⟩
      refine ⟨?_, fun whole room => absurd ⟨whole, room⟩ not, fun _ => ?_⟩
      · rw [ended]
        exact iff_of_false (error_not_ok text) not
      · rw [ended]
        exact ⟨rfl, text⟩

/-- A NUL in the payload hides what stands behind it. -/
example : (handleTxSubmit (.start 1) (ascii "Al pays Bob 5 coins" ++ 0 :: ascii " or 7") openHeap).1.2.map Message.payload =
    some (ascii "OK") := by decide +kernel

theorem pattern_extends : Extends transactionPattern 65 := by
  have single : [65] ∈ (oneOf alnum).matches' := (RegularExpression.rmatch_iff_matches' _ _).mp (by decide +kernel)
  have name := repeated_extends single
  exact mul_extends (mul_extends (mul_extends (mul_extends (mul_extends (mul_extends name _) _) _) _) _) _

/-- A payment by somebody whose name fills the buffer. -/
def longPayment : Bytes := List.replicate 236 65 ++ ascii "Al pays Bob 5 coins"

theorem longPayment_length : longPayment.length = 255 := by
  rw [longPayment, List.length_append, List.length_replicate]
  rfl

theorem longPayment_clean : 0 ∉ longPayment := by
  intro member
  rcases List.mem_append.mp member with letter | zero
  · exact absurd (List.eq_of_mem_replicate letter) (by decide)
  · exact absurd zero (by decide)

theorem longPayment_matched : transactionPattern.rmatch longPayment = true := by
  rw [RegularExpression.rmatch_iff_matches']
  apply pattern_extends.replicate
  rw [← RegularExpression.rmatch_iff_matches']
  decide +kernel

/-- What stands behind a text that fills the buffer is not seen. -/
theorem longPayment_cut (rest : Bytes) : (submittedTransaction (longPayment ++ rest)).bytes = longPayment := by
  have filled : maxTransactionLength - 1 = longPayment.length := longPayment_length.symm
  rw [submittedTransaction, filled, List.take_left, CString.bytes_ofMemory longPayment_clean]

theorem longPayment_accepted (rest : Bytes) : Accepted (submittedTransaction (longPayment ++ rest)) openHeap := by
  apply (attempt_grants (within_validateTransaction _)).value.trans
  apply validateTransaction_ok.mpr
  refine ⟨?_, ?_, ?_⟩
  · rw [CString.length, longPayment_cut, longPayment_length]
    decide
  · rw [CString.length, longPayment_cut, longPayment_length]
    decide
  · rw [longPayment_cut]
    exact longPayment_matched

/-- The payload is too long for a transaction. Still it is acknowledged, and its
beginning becomes an entry. -/
theorem long_payload_is_cut :
    ¬ IsTransaction (longPayment ++ ascii " or 7 coins") openHeap ∧
      (handleTxSubmit (.start 1) (longPayment ++ ascii " or 7 coins") openHeap).1.2.map Message.payload = some (ascii "OK") ∧
      (handleTxSubmit (.start 1) (longPayment ++ ascii " or 7 coins") openHeap).1.1.mempool.transactions.map CString.bytes =
        [longPayment] := by
  constructor
  · intro whole
    have short := (isTransaction_iff.mp whole).1.short
    rw [List.length_append, longPayment_length] at short
    exact absurd short (by decide)
  have outcome := submit_outcome (.start 1) (longPayment ++ ascii " or 7 coins") openHeap
  generalize (handleTxSubmit (.start 1) (longPayment ++ ascii " or 7 coins") openHeap).1 = final at outcome ⊢
  cases outcome with
  | added _ _ grown answer =>
    refine ⟨answer, ?_⟩
    rw [grown, List.map_append, List.map_singleton, longPayment_cut]
    rfl
  | refused _ barred =>
    exact absurd ⟨longPayment_accepted _, Nat.zero_lt_succ _⟩ barred

end ProcessChain.Proofs.Submission
