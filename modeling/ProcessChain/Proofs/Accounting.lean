import ProcessChain.Proofs.History
import ProcessChain.Proofs.View

/-! The account of one miner: what it was given, what it still has and what it got
into the chain. A block counts as handled once the miner's pool is free of it;
as long as the miner never looks beyond an unhandled block of its own, it
commits no copy that was not given to it. -/

namespace ProcessChain.Proofs.Accounting
open Csv Validation MinerSteps History View

structure Account where
  /-- The length of the coordinator's chain. -/
  height : Nat
  committed : List Block
  acknowledged : List CString
  cleaned : List UInt64
  proposals : List Message
  miner : Miner

/-- The copies of a transaction in the pool. -/
abbrev Account.pool (account : Account) (transaction : CString) : Nat :=
  account.miner.mempool.transactions.count transaction

/-- A candidate that would be accepted now is covered by what the miner was given. -/
structure Offered (height : Nat) (committed : List Block) (acknowledged : List CString) (candidate : Block) : Prop where
  bounded : candidate.index.toNat ≤ height
  valid : ∀ transaction ∈ candidate.transactions, ValidTransaction transaction
  counted : candidate.index.toNat = height → ∀ transaction,
    occurrences committed transaction + candidate.transactions.count transaction ≤ acknowledged.count transaction

/-- A message on the wire that carries such a candidate. -/
def Carried (height : Nat) (committed : List Block) (acknowledged : List CString) (message : Message) : Prop :=
  ∃ candidate, Writable candidate ∧ message.payload <+: (csvLine candidate).bytes ∧
    Offered height committed acknowledged candidate

structure Accounted (account : Account) (handled : UInt64 → Prop) : Prop where
  cleaned : ∀ index ∈ account.cleaned, handled index
  known : ∀ index, handled index → index.toNat < account.height
  passed : ∀ block ∈ account.committed, block.index < account.miner.nextIndex → handled block.index
  started : ∀ index hash, account.miner.mining = .started index hash →
    ∀ block ∈ account.committed, block.index < index → handled block.index
  attempting : ∀ candidate, account.miner.mining = .attempting candidate →
    Offered account.height account.committed account.acknowledged candidate
  proposed : ∀ message ∈ account.proposals, Carried account.height account.committed account.acknowledged message
  valid : ∀ transaction ∈ account.miner.mempool.transactions, ValidTransaction transaction
  covered : ∀ transaction, occurrences account.committed transaction ≤ account.acknowledged.count transaction
  pending : ∀ transaction, (∀ block ∈ account.committed, transaction ∈ block.transactions → handled block.index) →
    occurrences account.committed transaction + account.pool transaction ≤ account.acknowledged.count transaction

variable {account : Account} {handled : UInt64 → Prop}

section Candidates
variable {height later : Nat} {committed grown : List Block} {acknowledged more : List CString}

/-- A candidate below the tip no longer counts. -/
theorem Offered.surpassed {candidate : Block} (offered : Offered height committed acknowledged candidate)
    (higher : height < later) : Offered later grown acknowledged candidate := by
  have bounded := offered.bounded
  exact ⟨by omega, offered.valid, fun tip => by omega⟩

theorem Offered.acknowledge {candidate : Block} (offered : Offered height committed acknowledged candidate)
    (larger : acknowledged <+: more) : Offered height committed more candidate :=
  ⟨offered.bounded, offered.valid, fun tip transaction =>
    Nat.le_trans (offered.counted tip transaction) (larger.sublist.count_le transaction)⟩

theorem Carried.imp {message : Message} (carried : Carried height committed acknowledged message)
    (offers : ∀ candidate, Offered height committed acknowledged candidate → Offered later grown more candidate) :
    Carried later grown more message := by
  obtain ⟨candidate, writable, payload, offered⟩ := carried
  exact ⟨candidate, writable, payload, offers candidate offered⟩

end Candidates

/-- Somebody else's block is committed. -/
theorem Accounted.grow (accounted : Accounted account handled) :
    Accounted { account with height := account.height + 1 } handled := by
  refine ⟨accounted.cleaned, fun index seen => ?_, accounted.passed, accounted.started, ?_, ?_, accounted.valid,
    accounted.covered, accounted.pending⟩
  · exact Nat.lt_succ_of_lt (accounted.known index seen)
  · exact fun candidate same => (accounted.attempting candidate same).surpassed (Nat.lt_succ_self _)
  · exact fun message member => (accounted.proposed message member).imp fun _ offered => offered.surpassed (Nat.lt_succ_self _)

/-- A block of the miner is committed. Nothing of the miner has passed it yet. -/
theorem Accounted.commit (accounted : Accounted account handled)
    (bounded : Holds (fun nextIndex _ => nextIndex.toNat ≤ account.height) account.miner) {block : Block}
    (offered : Offered account.height account.committed account.acknowledged block) (tip : block.index.toNat = account.height) :
    Accounted { account with height := account.height + 1, committed := account.committed ++ [block] } handled := by
  have unhandled : ¬ handled block.index := by
    intro seen
    have below := accounted.known block.index seen
    omega
  have earlier {index : UInt64} (low : index.toNat ≤ account.height)
      (before : ∀ other ∈ account.committed, other.index < index → handled other.index) :
      ∀ other ∈ account.committed ++ [block], other.index < index → handled other.index := by
    intro other member below
    rcases List.mem_append.mp member with old | new
    · exact before other old below
    · rw [List.mem_singleton.mp new, UInt64.lt_iff_toNat_lt] at below
      omega
  refine ⟨accounted.cleaned, fun index seen => ?_, earlier bounded.view accounted.passed, ?_, ?_, ?_, accounted.valid, ?_, ?_⟩
  · exact Nat.lt_succ_of_lt (accounted.known index seen)
  · exact fun index hash same => earlier (bounded.started index hash same) (accounted.started index hash same)
  · exact fun candidate same => (accounted.attempting candidate same).surpassed (Nat.lt_succ_self _)
  · exact fun message member => (accounted.proposed message member).imp fun _ offered => offered.surpassed (Nat.lt_succ_self _)
  · intro transaction
    rw [occurrences_append, occurrences_single]
    exact offered.counted tip transaction
  · intro transaction all
    -- a transaction of the new block is not free of unhandled blocks
    have absent : transaction ∉ block.transactions := fun included => unhandled (all block (by simp) included)
    rw [occurrences_append, occurrences_single, List.count_eq_zero.mpr absent]
    exact accounted.pending transaction fun other member => all other (List.mem_append_left _ member)

/-- The mining thread has neither a started nor a built attempt. -/
def Calm (mining : Mining) : Prop := (∀ index hash, mining ≠ .started index hash) ∧ ∀ candidate, mining ≠ .attempting candidate

/-- The miner turns to something else without touching its pool. -/
theorem Accounted.turn (accounted : Accounted account handled) {state : Miner}
    (mempool : state.mempool = account.miner.mempool)
    (passed : ∀ block ∈ account.committed, block.index < state.nextIndex → handled block.index)
    (mining : state.mining = account.miner.mining ∨ Calm state.mining) :
    Accounted { account with miner := state } handled := by
  refine ⟨accounted.cleaned, accounted.known, passed, ?_, ?_, accounted.proposed, ?_, accounted.covered, ?_⟩
  · intro index hash same
    rcases mining with unchanged | calm
    · exact accounted.started index hash (unchanged ▸ same)
    · exact absurd same (calm.1 index hash)
  · intro candidate same
    rcases mining with unchanged | calm
    · exact accounted.attempting candidate (unchanged ▸ same)
    · exact absurd same (calm.2 candidate)
  · simpa only [mempool] using accounted.valid
  · simpa only [Account.pool, mempool] using accounted.pending

/-- The blocks of the miner below an index are no longer in its pool: it has
handled their commits, or none of their transactions is pending. -/
def CaughtUp (account : Account) (nextIndex : UInt64) : Prop :=
  ∀ block ∈ account.committed, block.index < nextIndex →
    block.index ∈ account.cleaned ∨ ∀ transaction ∈ block.transactions, transaction ∉ account.miner.mempool.transactions

instance (account : Account) (nextIndex : UInt64) : Decidable (CaughtUp account nextIndex) :=
  inferInstanceAs (Decidable (∀ block ∈ account.committed, block.index < nextIndex → block.index ∈ account.cleaned ∨
    ∀ transaction ∈ block.transactions, transaction ∉ account.miner.mempool.transactions))

/-- A miner that has caught up may count the blocks below as handled. -/
theorem Accounted.caughtUp (accounted : Accounted account handled) {nextIndex : UInt64}
    (caughtUp : CaughtUp account nextIndex)
    (located : ∀ block ∈ account.committed, block.index.toNat < account.height)
    (unique : ∀ first ∈ account.committed, ∀ second ∈ account.committed, first.index = second.index → first = second) :
    ∃ more : UInt64 → Prop, Accounted account more ∧
      ∀ block ∈ account.committed, block.index < nextIndex → more block.index := by
  let absent : UInt64 → Prop := fun index => ∃ block ∈ account.committed, block.index = index ∧
    ∀ transaction ∈ block.transactions, transaction ∉ account.miner.mempool.transactions
  refine ⟨fun index => handled index ∨ absent index, ⟨?_, ?_, ?_, ?_, accounted.attempting, accounted.proposed,
    accounted.valid, accounted.covered, ?_⟩, ?_⟩
  · exact fun index member => Or.inl (accounted.cleaned index member)
  · intro index seen
    rcases seen with old | ⟨block, member, rfl, _⟩
    · exact accounted.known index old
    · exact located block member
  · exact fun block member below => Or.inl (accounted.passed block member below)
  · exact fun index hash same block member below => Or.inl (accounted.started index hash same block member below)
  · intro transaction all
    by_cases waiting : transaction ∈ account.miner.mempool.transactions
    · refine accounted.pending transaction fun block member included => ?_
      rcases all block member included with old | ⟨other, inside, same, none⟩
      · exact old
      · rw [unique other inside block member same] at none
        exact absurd waiting (none transaction included)
    · rw [Account.pool, List.count_eq_zero.mpr waiting]
      exact accounted.covered transaction
  · intro block member below
    rcases caughtUp block member below with seen | none
    · exact Or.inl (accounted.cleaned _ seen)
    · exact Or.inr ⟨block, member, rfl, none⟩

/-- A submission is accepted. -/
theorem Accounted.accept (accounted : Accounted account handled) {transaction : CString} (valid : ValidTransaction transaction)
    {mempool : Mempool} (added : mempool.transactions = account.miner.mempool.transactions ++ [transaction]) :
    Accounted { account with
      acknowledged := account.acknowledged ++ [transaction]
      miner := { account.miner with mempool } } handled := by
  have more := List.prefix_append account.acknowledged [transaction]
  refine ⟨accounted.cleaned, accounted.known, accounted.passed, accounted.started, ?_, ?_, ?_, ?_, ?_⟩
  · exact fun candidate same => (accounted.attempting candidate same).acknowledge more
  · exact fun message member => (accounted.proposed message member).imp fun _ offered => offered.acknowledge more
  · intro other member
    rcases List.mem_append.mp (added ▸ member) with old | new
    · exact accounted.valid other old
    · rwa [List.mem_singleton.mp new]
  · exact fun other => Nat.le_trans (accounted.covered other) (more.sublist.count_le other)
  · intro other all
    have before := accounted.pending other all
    simp only [Account.pool, added, List.count_append] at before ⊢
    omega

/-- A commit is handled up to the cleaning of the pool. -/
theorem Accounted.clean (accounted : Accounted account handled) {block : Block} (located : block.index.toNat < account.height)
    (unique : ∀ other ∈ account.committed, other.index = block.index → other = block) (communication : Communication) :
    Accounted { account with
      cleaned := account.cleaned ++ [block.index]
      miner := { account.miner with
        mempool := mempoolRemoveIncluded account.miner.mempool block.transactions
        communication } } fun index => handled index ∨ index = block.index := by
  refine ⟨?_, ?_, ?_, ?_, ?_, ?_, ?_, accounted.covered, ?_⟩
  · intro index member
    rcases List.mem_append.mp member with old | new
    · exact Or.inl (accounted.cleaned index old)
    · exact Or.inr (List.mem_singleton.mp new)
  · intro index seen
    rcases seen with old | rfl
    · exact accounted.known index old
    · exact located
  · exact fun other member below => Or.inl (accounted.passed other member below)
  · exact fun index hash same other member below => Or.inl (accounted.started index hash same other member below)
  · exact accounted.attempting
  · exact accounted.proposed
  · exact fun transaction member => accounted.valid transaction (removeIncluded_subset _ _ transaction member)
  · intro transaction all
    simp only [Account.pool, removeIncluded_count]
    by_cases included : transaction ∈ block.transactions
    · rw [if_pos included]
      exact accounted.covered transaction
    · rw [if_neg included]
      refine accounted.pending transaction fun other member inside => (all other member inside).resolve_right ?_
      intro same
      rw [unique other member same] at inside
      exact included inside

/-- A mining iteration reads the view. -/
theorem Accounted.start (accounted : Accounted account handled) (restartMining : Bool) :
    Accounted { account with miner := { account.miner with
      restartMining
      mining := .started account.miner.nextIndex account.miner.previousHash } } handled := by
  refine ⟨accounted.cleaned, accounted.known, accounted.passed, ?_, ?_, accounted.proposed, accounted.valid, accounted.covered,
    accounted.pending⟩
  · intro index hash same
    cases same
    exact accounted.passed
  · intro candidate same
    cases same

/-- A candidate for the tip contains only what is pending. -/
theorem Accounted.build (accounted : Accounted account handled)
    (bounded : Holds (fun nextIndex _ => nextIndex.toNat ≤ account.height) account.miner)
    (located : ∀ block ∈ account.committed, block.index.toNat < account.height) {candidate : Block} {hash : CString}
    (started : account.miner.mining = .started candidate.index hash)
    (batch : candidate.transactions = mempoolSnapshot account.miner.mempool maxTransactionsPerBlock) :
    Accounted { account with miner := { account.miner with mining := .attempting candidate } } handled := by
  have taken : candidate.transactions.Sublist account.miner.mempool.transactions := batch ▸ List.take_sublist _ _
  refine ⟨accounted.cleaned, accounted.known, accounted.passed, ?_, ?_, accounted.proposed, accounted.valid, accounted.covered,
    accounted.pending⟩
  · intro index hash same
    cases same
  · intro built same
    cases same
    refine ⟨bounded.started _ hash started, fun transaction member => accounted.valid transaction (taken.subset member), ?_⟩
    intro tip transaction
    -- every block of the miner is below the tip, so the view that was read has passed it
    have all : ∀ block ∈ account.committed, transaction ∈ block.transactions → handled block.index := by
      intro block member _
      refine accounted.started _ hash started block member ?_
      rw [UInt64.lt_iff_toNat_lt, tip]
      exact located block member
    have pending := accounted.pending transaction all
    have fewer : candidate.transactions.count transaction ≤ account.pool transaction := taken.count_le transaction
    dsimp only at *
    omega

/-- The candidate goes on the wire. -/
theorem Accounted.propose (accounted : Accounted account handled) {candidate : Block} {message : Message}
    (attempting : account.miner.mining = .attempting candidate) (writable : Writable candidate)
    (payload : message.payload <+: (csvLine candidate).bytes) :
    Accounted { account with
      proposals := account.proposals ++ [message]
      miner := { account.miner with mining := .ready } } handled := by
  refine ⟨accounted.cleaned, accounted.known, accounted.passed, ?_, ?_, ?_, accounted.valid, accounted.covered,
    accounted.pending⟩
  · intro index hash same
    cases same
  · intro other same
    cases same
  · intro other member
    rcases List.mem_append.mp member with old | new
    · exact accounted.proposed other old
    · rw [List.mem_singleton.mp new]
      exact ⟨candidate, writable, payload, accounted.attempting candidate attempting⟩

end ProcessChain.Proofs.Accounting
