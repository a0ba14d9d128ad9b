import ProcessChain.Client
import ProcessChain.Lib.RoundRobin
import ProcessChain.Lib.Transducer
import ProcessChain.Proofs.Recovery

/-! What a client sends and to whom. Every payment it makes up is a valid transaction
between two of its names, it finds the sockets of the miners whatever else lies in the
directory, and it takes the miners that answer in turns. -/

namespace ProcessChain.Proofs.Payments
open Lib Csv Validation Recovery ProcessChain.Client

section Payments

/-- Two different names, and between one and a thousand coins. -/
structure Payment (transaction : CString) : Prop where
  text : ∃ sender receiver : Fin clientNameCount, sender ≠ receiver ∧ ∃ amount, 1 ≤ amount ∧ amount ≤ 1000 ∧
    transaction.bytes = (clientNames.get sender).bytes ++ ascii " pays " ++ (clientNames.get receiver).bytes ++ ascii " " ++
      decimal amount ++ ascii " coins"

private theorem names_plain : ∀ name : Fin clientNameCount, (clientNames.get name).bytes ≠ [] ∧
    (clientNames.get name).bytes.length ≤ 7 ∧ (clientNames.get name).bytes ⊆ alnum := by
  decide +kernel

private theorem digit_plain : ∀ digit < 10, [digit.digitChar].map (fun letter => letter.toNat.toUInt8) ⊆ digits := by
  decide +kernel

private theorem leading_plain : ∀ digit < 10, digit ≠ 0 →
    [digit.digitChar].map (fun letter => letter.toNat.toUInt8) ⊆ ascii "123456789" := by
  decide +kernel

/-- A positive number has no zero in front. -/
private theorem decimal_shape (value : Nat) (positive : 0 < value) :
    ∃ first rest, decimal value = first :: rest ∧ first ∈ ascii "123456789" ∧ rest ⊆ digits := by
  induction value using Nat.strongRecOn with
  | ind value ih =>
    by_cases small : value < 10
    · refine ⟨_, [], ?_, leading_plain value small (by omega) List.mem_cons_self, List.nil_subset _⟩
      rw [decimal, Nat.toDigits_of_lt_base small]
      rfl
    · obtain ⟨first, rest, front, leading, others⟩ := ih (value / 10) (by omega) (by omega)
      refine ⟨first, rest ++ [(value % 10).digitChar.toNat.toUInt8], ?_, leading, ?_⟩
      · rw [decimal, Nat.toDigits_of_base_le (by decide) (by omega), List.map_append, ← decimal, front]
        rfl
      · exact List.append_subset.mpr ⟨others, digit_plain (value % 10) (Nat.mod_lt _ (by decide))⟩

/-- The pattern matches every such text. -/
private theorem pattern_matches {sender receiver : Bytes} (named : sender ≠ [] ∧ sender ⊆ alnum)
    (other : receiver ≠ [] ∧ receiver ⊆ alnum) {amount : Nat} (positive : 0 < amount) :
    transactionPattern.rmatch (sender ++ ascii " pays " ++ receiver ++ ascii " " ++ decimal amount ++ ascii " coins") = true := by
  obtain ⟨first, rest, digits, leading, others⟩ := decimal_shape amount positive
  rw [RegularExpression.rmatch_iff_matches', digits]
  have split : sender ++ ascii " pays " ++ receiver ++ ascii " " ++ (first :: rest) ++ ascii " coins" =
      sender ++ ascii " pays " ++ receiver ++ ascii " " ++ [first] ++ rest ++ ascii " coins" := by simp
  rw [split]
  have names := Language.append_mem_mul (Language.append_mem_mul (repeated_matches named.1 named.2) (literal_matches (ascii " pays ")))
    (repeated_matches other.1 other.2)
  have number := Language.append_mem_mul (Language.append_mem_mul names (literal_matches (ascii " "))) (oneOf_matches leading)
  exact Language.append_mem_mul (Language.append_mem_mul number (star_matches others)) (literal_matches (ascii " coins"))

private theorem payment_terminated (sender receiver : CString) (amount : Nat) :
    0 ∉ sender.bytes ++ ascii " pays " ++ receiver.bytes ++ ascii " " ++ decimal amount ++ ascii " coins" := by
  have words : 0 ∉ ascii " pays " ∧ 0 ∉ ascii " " ∧ 0 ∉ ascii " coins" := by decide
  simp only [List.mem_append, not_or]
  exact ⟨⟨⟨⟨⟨sender.terminated, words.1⟩, receiver.terminated⟩, words.2.1⟩, decimal_terminated amount⟩, words.2.2⟩

private theorem bytes_paymentText (sender receiver : CString) (amount : Nat) : (paymentText sender receiver amount).bytes =
    sender.bytes ++ ascii " pays " ++ receiver.bytes ++ ascii " " ++ decimal amount ++ ascii " coins" :=
  CString.bytes_ofMemory (payment_terminated sender receiver amount)

theorem Payment.valid {transaction : CString} (payment : Payment transaction) : ValidTransaction transaction := by
  obtain ⟨sender, receiver, _, amount, positive, small, text⟩ := payment.text
  obtain ⟨named, short, letters⟩ := names_plain sender
  obtain ⟨otherNamed, otherShort, otherLetters⟩ := names_plain receiver
  have words : (ascii " pays ").length = 6 ∧ (ascii " ").length = 1 ∧ (ascii " coins").length = 6 := by decide
  have number : (decimal amount).length ≤ 20 := decimal_length (by omega)
  have sized : transaction.length = (clientNames.get sender).bytes.length + 6 + (clientNames.get receiver).bytes.length + 1 +
      (decimal amount).length + 6 := by
    simp only [CString.length, text, List.length_append, words.1, words.2.1, words.2.2]
  refine ⟨by omega, by simp only [maxTransactionLength]; omega, ?_⟩
  rw [text]
  exact pattern_matches ⟨named, letters⟩ ⟨otherNamed, otherLetters⟩ positive

private theorem drawReceiver_other {sender receiver : Fin clientNameCount} {draws later : List Nat}
    (drawn : drawReceiver sender draws = some (receiver, later)) : sender ≠ receiver := by
  induction draws with
  | nil => cases drawn
  | cons draw rest ih =>
    rw [drawReceiver] at drawn
    split at drawn
    · exact ih drawn
    next other =>
      cases drawn
      exact fun same => other same.symm

/-- Whatever the draws are, only payments are made up, and they always fit into the buffer. -/
theorem generated_payment {draws : List Nat} {outcome : Except ProjectError CString}
    (generated : generateTransaction draws = some outcome) : ∃ transaction, outcome = .ok transaction ∧ Payment transaction := by
  cases draws with
  | nil => cases generated
  | cons first rest =>
    rw [generateTransaction] at generated
    match drawn : drawReceiver (drawName first) rest with
    | none | some (_, []) => simp [drawn] at generated
    | some (receiver, last :: _) =>
      simp only [drawn] at generated
      have payment : Payment (paymentText clientNames[drawName first] clientNames[receiver] (1 + last % 1000)) :=
        ⟨drawName first, receiver, drawReceiver_other drawn, 1 + last % 1000, by omega, by omega, bytes_paymentText ..⟩
      have short : ¬ (paymentText clientNames[drawName first] clientNames[receiver] (1 + last % 1000)).length ≥ maxTransactionLength :=
        Nat.not_le_of_lt payment.valid.short
      rw [if_neg short] at generated
      cases generated
      exact ⟨_, rfl, payment⟩

end Payments

section Discovery

private theorem digit_letter : ∀ byte ∈ digits, isSpace byte = false ∧ byte ≠ 45 ∧ byte ≠ 43 ∧ (digitOf 10 byte).isSome = true := by
  decide +kernel

theorem toInt_small {value : Nat} (small : value ≤ intMax) (rest : Bytes) :
    (Numeral.mk false value rest).toInt = value := by
  simp only [intMax] at small
  have within : max (-longMax - 1) (min longMax (value : Int)) = value := by
    simp only [longMax]
    omega
  simp only [Numeral.toInt, Bool.false_eq_true, if_false, within]
  exact Int.bmod_eq_of_le (by omega) (by omega)

end Discovery

/-- The two ways an iteration of the main loop begins. -/
inductive Iteration (client : Client) (draws : List Nat) (directory : Option (List CString)) (closed : Bool) : Client → Prop
  | kept : Iteration client draws directory closed client
  | submits {transaction : CString} {minerIds : List Nat} (idle : client.submission = .idle)
      (generated : generateTransaction draws = some (.ok transaction)) (discovered : discoverMiners directory closed = .ok minerIds)
      (positive : 0 < minerIds.length) : Iteration client draws directory closed
        { client with submission := .submitting transaction minerIds (client.nextMiner % minerIds.length) 0 }

theorem generate_iteration (client : Client) (draws : List Nat) (directory : Option (List CString)) (closed : Bool) :
    Iteration client draws directory closed (client.generate draws directory closed) := by
  unfold Client.generate
  split
  · exact .kept
  next idle =>
    split
    · exact .kept
    · split
      · exact .kept
      · exact .kept
      next transaction generated =>
        split
        · exact .kept
        · exact .kept
        next minerIds nonempty discovered => exact .submits idle generated discovered (List.length_pos_iff.mpr nonempty)

section Rotation

variable {minerIds : List Nat} {available : Nat → Bool} {first : Nat}

/-- The miners that have answered a client, in order. -/
def answers (client : Client) (events : List ClientEvent) : List Nat := (trace Client.step client events).1.filterMap Prod.snd

end Rotation

end ProcessChain.Proofs.Payments
