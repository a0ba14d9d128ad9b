import ProcessChain.Proofs.Allocation

/-! What an accepted link says about its second block. The successor of the largest
index is zero, and a block with index zero may carry any transactions: a link that
starts at the largest index is accepted and goes back to the beginning. Everywhere
else a link moves forward, and the positions of a stored chain stay below that end. -/

namespace ProcessChain.Proofs.Links
open Lib Lib.FailStop Validation Handlers Allocation

/-- The link leads to a later block of real transactions. -/
structure MovesForward (previous current : Block) : Prop where
  index : previous.index.toNat < current.index.toNat
  transactions : ∀ transaction ∈ current.transactions, (validateTransaction transaction).result = .ok ()

def lastIndex : UInt64 := 0xffffffffffffffff

theorem lastIndex_next : lastIndex + 1 = 0 := by decide

/-- Counting goes up by one except at the end. -/
theorem next_toNat {index : UInt64} (inside : index ≠ lastIndex) : (index + 1).toNat = index.toNat + 1 := by
  have bound := index.toNat_lt
  have below : index.toNat ≠ lastIndex.toNat := fun same => inside (UInt64.toNat_inj.mp same)
  have largest : lastIndex.toNat = 2 ^ 64 - 1 := by decide
  rw [UInt64.toNat_add, UInt64.toNat_one, Nat.mod_eq_of_lt (by omega)]

theorem follows_forward {sha256 : HashFunction} {previous current : Block} (sound : Sound sha256 current)
    (follows : Follows sha256 previous current) (inside : previous.index ≠ lastIndex) : MovesForward previous current := by
  have next := next_toNat inside
  rw [← follows.index] at next
  refine ⟨by omega, fun transaction member => validateTransaction_ok.mpr ?_⟩
  have ordinary : current.index ≠ 0 := by
    intro zero
    rw [zero] at next
    exact Nat.succ_ne_zero _ next.symm
  exact sound.transactions ordinary transaction member

/-- An accepted link moves forward unless it starts at the largest index. -/
theorem link_moves_forward (sha256 : HashFunction) (previous current : Block) (heap : Heap)
    (accepted : (attempt (validateBlockLink sha256 previous current) heap).1 = .ok ()) :
    MovesForward previous current ↔ previous.index ≠ lastIndex := by
  obtain ⟨_, sound, follows⟩ := (link_ok sha256).mp (run_ok accepted)
  constructor
  · intro forward last
    have back : current.index = 0 := by
      rw [follows.index, last]
      exact lastIndex_next
    have later := forward.index
    rw [back] at later
    exact absurd later (Nat.not_lt_zero _)
  · exact follows_forward sound follows

private theorem link_accepted {sha256 : HashFunction} {previous current : Block} (sound : Sound sha256 previous)
    (next : Sound sha256 current) (follows : Follows sha256 previous current) :
    (attempt (validateBlockLink sha256 previous current) openHeap).1 = .ok () := by
  have within : Within ptrdiffMax (validateBlockLink sha256 previous current) :=
    within_validateBlockLink (by decide) previous current
  exact (attempt_grants within).value.trans ((link_ok sha256).mpr ⟨sound, next, follows⟩)

theorem payment_moves_forward : MovesForward genesisBlock paymentBlock :=
  (link_moves_forward sha256Bytes genesisBlock paymentBlock openHeap
    (link_accepted (fixture_valid.sound genesisBlock (by simp)) (fixture_valid.sound paymentBlock (by simp))
      (List.isChain_pair.mp fixture_valid.linked))).mpr (by decide)

/-- A payment at the largest index. -/
def lastPayment : Block := { paymentBlock with index := lastIndex }

/-- The first block once more, now behind the last payment. -/
def wrappedBlock : Block :=
  { genesisBlock with
    timestamp := lastPayment.timestamp
    previousHash := Crypto.blockHash sha256Bytes lastPayment }

theorem link_goes_back :
    (attempt (validateBlockLink sha256Bytes lastPayment wrappedBlock) openHeap).1 = .ok () ∧
      ¬ lastPayment.index.toNat < wrappedBlock.index.toNat ∧
      ∃ transaction ∈ wrappedBlock.transactions, (validateTransaction transaction).result ≠ .ok () := by
  have genesis := fixture_valid.sound genesisBlock (by simp)
  have payment := fixture_valid.sound paymentBlock (by simp)
  have valid := payment.transactions (by decide)
  have sound : Sound sha256Bytes lastPayment :=
    ⟨⟨payment.previousHash, payment.merkleRoot, payment.sized, fun _ => valid⟩, payment.root⟩
  have next : Sound sha256Bytes wrappedBlock :=
    ⟨⟨Crypto.hash_lowercase sha256Bytes _, genesis.merkleRoot, genesis.sized, fun ordinary => absurd rfl ordinary⟩, genesis.root⟩
  refine ⟨link_accepted sound next ⟨lastIndex_next.symm, UInt64.le_refl _, rfl⟩, by decide, ?_⟩
  refine ⟨.text "Genesis block", List.mem_singleton_self _, fun accepted => ?_⟩
  have matched := (validateTransaction_ok.mp accepted).matched
  have other : transactionPattern.rmatch (CString.text "Genesis block").bytes = false := by decide +kernel
  rw [other] at matched
  cases matched

/-- No accepted chain that a process can store reaches the largest index. -/
theorem stored_links_move_forward {sha256 : HashFunction} (chain : Blockchain) (valid : ValidChain sha256 chain.blocks) :
    chain.blocks.IsChain MovesForward := by
  rw [List.isChain_iff_getElem]
  intro position inside
  have few := chain.count_lt
  simp only [Blockchain.count] at few
  have follows := List.isChain_iff_getElem.mp valid.linked position inside
  apply follows_forward (valid.sound _ (List.getElem_mem _)) follows
  intro last
  have number := validChain_number valid (List.getElem?_eq_getElem (Nat.lt_of_succ_lt inside)) (by omega)
  have largest : lastIndex.toNat = 2 ^ 64 - 1 := by decide
  rw [last, largest] at number
  omega

end ProcessChain.Proofs.Links
