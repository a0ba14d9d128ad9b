import ProcessChain.Proofs.Accounting
import Mathlib.Algebra.BigOperators.Group.Finset.Piecewise

/-! No copy is committed twice. A miner that moves its view beyond a committed
block of its own while the transactions of that block are still in its pool
proposes them again; a run in which this does not happen commits every
transaction at most as often as it was accepted. -/

namespace ProcessChain.Proofs.Repetition
open Lib Lib.FailStop Csv Crypto Validation Handlers MinerSteps Coordinator MinerActions History View Accounting
  ProcessChain.Network

variable {φ μ : Type} [DecidableEq μ] {sha256 : HashFunction} {initial : List Block}

/-- The part of a network that concerns one miner. -/
def account (network : Network φ μ) (m : μ) : Account where
  height := network.coordinator.chain.count
  committed := (network.committed.filter fun entry => entry.1 = some m).map Prod.snd
  acknowledged := network.acknowledged m
  cleaned := network.cleaned m
  proposals := (network.proposals.filter fun proposal => proposal.1 = m).map Prod.snd
  miner := network.miners m

private theorem account_committed {network : Network φ μ} {m : μ} {block : Block}
    (member : block ∈ (account network m).committed) : (some m, block) ∈ network.committed := by
  simp only [account, List.mem_map, List.mem_filter, decide_eq_true_eq, Prod.exists] at member
  obtain ⟨_, _, ⟨inside, rfl⟩, rfl⟩ := member
  exact inside

/-- The miner whose view an action moves, with the index it moves to. -/
def viewMove (network : Network φ μ) : Action φ μ → Option (μ × UInt64)
  | .finishCommit m => match (network.miners m).communication with
    | .committing index _ => if index ≥ (network.miners m).nextIndex then some (m, index + 1) else none
    | _ => none
  | .finishResync m thread => match (network.miners m).resync thread with
    | some .reset => some (m, 0)
    | some (.install nextIndex _) => some (m, nextIndex)
    | _ => none
  | _ => none

/-- A view only moves where the pool is rid of the miner's own blocks below. -/
def Prompt (network : Network φ μ) (action : Action φ μ) : Prop :=
  ∀ move ∈ viewMove network action, CaughtUp (account network move.1) move.2

instance (network : Network φ μ) (action : Action φ μ) : Decidable (Prompt network action) :=
  inferInstanceAs (Decidable (∀ move ∈ viewMove network action, CaughtUp (account network move.1) move.2))

/-- A run in which every view moves promptly. -/
def Prompted [DecidableEq φ] (sha256 : HashFunction) : Network φ μ → List (Action φ μ) → Prop
  | _, [] => True
  | network, action :: rest => Prompt network action ∧ Prompted sha256 (network.step sha256 action) rest

instance decidePrompted [DecidableEq φ] (network : Network φ μ) : (actions : List (Action φ μ)) →
    Decidable (Prompted sha256 network actions)
  | [] => isTrue trivial
  | action :: rest =>
    have := decidePrompted (network.step sha256 action) rest
    inferInstanceAs (Decidable (Prompt network action ∧ Prompted sha256 (network.step sha256 action) rest))

/-- Nobody but the miners proposes blocks. -/
def onlyMiners : Action φ μ → Bool
  | .toCoordinator message _ => !message.has .blockProposal
  | _ => true

private theorem oriented_bounded {network : Network φ μ} (oriented : Oriented sha256 network) (m : μ) :
    Holds (fun nextIndex _ => nextIndex.toNat ≤ (account network m).height) (account network m).miner :=
  (oriented m).weaken fun _ _ => consistent_bounded

private theorem changed_account {network after : Network φ μ} {m : μ} {state : Miner} {accepted : List CString}
    {indices : List UInt64} {sent : Option Message} (changed : Changed network after m state accepted indices sent) :
    account after m = { account network m with
      acknowledged := (account network m).acknowledged ++ accepted
      cleaned := (account network m).cleaned ++ indices
      proposals := (account network m).proposals ++ sent.toList
      miner := state } := by
  have own : (((sent.map fun message => (m, message)).toList.filter fun proposal => proposal.1 = m).map Prod.snd) =
      sent.toList := by
    cases sent <;> simp
  simp only [account, changed.coordinator.coordinator, changed.coordinator.committed, changed.miners, changed.acknowledged,
    changed.cleaned, changed.proposals, Function.update_self, List.filter_append, List.map_append, own]

private theorem quiet_account {network after : Network φ μ} {m : μ} {state : Miner}
    (changed : Changed network after m state [] [] none) : account after m = { account network m with miner := state } := by
  rw [changed_account changed, Option.toList_none, List.append_nil, List.append_nil, List.append_nil]

private theorem changed_other {network after : Network φ μ} {m n : μ} {state : Miner} {accepted : List CString}
    {indices : List UInt64} {sent : Option Message} (changed : Changed network after m state accepted indices sent)
    (other : n ≠ m) : account after n = account network n := by
  have none : ((sent.map fun message => (m, message)).toList.filter fun proposal => proposal.1 = n) = [] := by
    cases sent <;> simp [other.symm]
  simp only [account, changed.coordinator.coordinator, changed.coordinator.committed, changed.miners, changed.acknowledged,
    changed.cleaned, changed.proposals, Function.update_of_ne other, List.filter_append, List.append_nil, none]

private theorem continueResync_mining (miner : Miner) (next : Option Resync) (thread : Thread) :
    (miner.continueResync next thread).mining = miner.mining ∨ Calm (miner.continueResync next thread).mining := by
  cases thread with
  | communication => exact Or.inl rfl
  | mining => cases next <;> exact Or.inr (by simp [Calm, Miner.continueResync])

private theorem continueResync_nextIndex (miner : Miner) (next : Option Resync) (thread : Thread) :
    (miner.continueResync next thread).nextIndex = miner.nextIndex := by
  cases thread <;> rfl

/-- One change of a miner keeps its account. -/
private theorem change_accounted {network after : Network φ μ} (authority : Authority sha256 network)
    (recorded : Recorded initial network) (oriented : Oriented sha256 network) {m : μ} {action : Action φ μ} {state : Miner}
    {accepted : List CString} {indices : List UInt64} {sent : Option Message}
    (change : MinerChange sha256 network m action state accepted indices sent)
    (changed : Changed network after m state accepted indices sent) (prompt : Prompt network action)
    {handled : UInt64 → Prop} (accounted : Accounted (account network m) handled) :
    ∃ more, Accounted (account after m) more := by
  have located : ∀ block ∈ (account network m).committed, block.index.toNat < (account network m).height :=
    fun block member => committed_located authority recorded (account_committed member)
  -- a move of the view first counts the blocks below as handled
  have move (nextIndex : UInt64) {state : Miner} (moved : (m, nextIndex) ∈ viewMove network action)
      (mempool : state.mempool = (network.miners m).mempool) (view : state.nextIndex = nextIndex)
      (mining : state.mining = (network.miners m).mining ∨ Calm state.mining) :
      ∃ more, Accounted { account network m with miner := state } more := by
    obtain ⟨more, caughtUp, below⟩ := accounted.caughtUp (prompt _ moved) located fun first one second two same =>
      committed_unique authority recorded (account_committed one) (account_committed two) same
    exact ⟨more, caughtUp.turn mempool (view ▸ below) mining⟩
  cases change with
  | same =>
    rw [quiet_account changed]
    exact ⟨handled, accounted⟩
  | accepts transaction mempool valid added =>
    rw [changed_account changed, List.append_nil, Option.toList_none, List.append_nil]
    exact ⟨handled, accounted.accept valid added⟩
  | asked =>
    rw [quiet_account changed]
    exact ⟨handled, accounted.turn rfl accounted.passed (Or.inl rfl)⟩
  | shutsDown =>
    rw [quiet_account changed]
    exact ⟨handled, accounted.turn rfl accounted.passed (Or.inl rfl)⟩
  | cleans block _ announced =>
    obtain ⟨line, broadcast, parsed⟩ := announced
    obtain ⟨proposer, member⟩ := announced_committed recorded broadcast parsed
    rw [changed_account changed, List.append_nil, Option.toList_none, List.append_nil]
    refine ⟨_, accounted.clean (committed_located authority recorded member) (fun other own same => ?_) _⟩
    exact committed_unique authority recorded (account_committed own) member same
  | ignores index hash committing old =>
    rw [quiet_account changed]
    exact ⟨handled, accounted.turn rfl accounted.passed (Or.inl rfl)⟩
  | advances index hash committing new =>
    rw [quiet_account changed]
    exact move (index + 1) (by simp [viewMove, committing, new]) rfl rfl (Or.inl rfl)
  | learns thread next known =>
    rw [quiet_account changed]
    refine ⟨handled, accounted.turn (continueResync_mempool _ next thread) ?_ (continueResync_mining _ next thread)⟩
    rw [continueResync_nextIndex]
    exact accounted.passed
  | resets thread resync =>
    rw [quiet_account changed]
    exact move 0 (by simp [viewMove, resync]) (continueResync_mempool _ _ thread) (continueResync_nextIndex _ _ thread)
      (continueResync_mining _ _ thread)
  | installs thread nextIndex previousHash resync =>
    rw [quiet_account changed]
    exact move nextIndex (by simp [viewMove, resync]) (continueResync_mempool _ _ thread) (continueResync_nextIndex _ _ thread)
      (continueResync_mining _ _ thread)
  | starts =>
    rw [quiet_account changed]
    exact ⟨handled, accounted.start false⟩
  | halts mining calm =>
    rw [quiet_account changed]
    refine ⟨handled, accounted.turn rfl accounted.passed (Or.inr ?_)⟩
    rcases calm with rfl | rfl <;> simp [Calm]
  | builds timestamp nonce index previousHash started sized =>
    rw [quiet_account changed]
    exact ⟨handled, accounted.build (oriented_bounded oriented m) located started rfl⟩
  | proposes candidate message attempting writable payload =>
    rw [changed_account changed, List.append_nil, List.append_nil, Option.toList_some]
    exact ⟨handled, accounted.propose attempting writable payload⟩

/-- A block that is read from a miner's proposal is the candidate of that miner. -/
private theorem carried_block {height : Nat} {committed : List Block} {acknowledged : List CString} {message : Message}
    (carried : Carried height committed acknowledged message) {block : Block}
    (parsed : (blockFromCsv (.ofMemory message.payload)).result = .ok block) :
    Offered height committed acknowledged block := by
  obtain ⟨candidate, writable, payload, offered⟩ := carried
  have read := readBack writable ((List.takeWhile_prefix _).trans payload) parsed
  have whole := written writable.previousHash writable.merkleRoot writable.sized offered.valid
  rw [parsed_rejoined whole.2] at read
  exact read ▸ offered

/-- The coordinator's part of a step keeps every account. -/
private theorem commit_accounted {network after : Network φ μ} (oriented : Oriented sha256 network) {action : Action φ μ} (step : CommitStep sha256 network action after)
    (same : SameMiners network after) {m : μ} {handled : UInt64 → Prop} (accounted : Accounted (account network m) handled) :
    Accounted (account after m) handled := by
  cases step with
  | kept blocks commits committed =>
    have unchanged : account after m = account network m := by
      simp only [account, Blockchain.count, blocks, committed, same.miners, same.acknowledged, same.cleaned, same.proposals]
    exact unchanged ▸ accounted
  | grown proposer message block source parsed valid blocks _ committed =>
    have height : after.coordinator.chain.count = network.coordinator.chain.count + 1 := by
      simp [Blockchain.count, blocks]
    by_cases mine : proposer = some m
    · subst mine
      have sent : message ∈ (account network m).proposals := by
        rcases source with ⟨_, impossible, _⟩ | ⟨_, same, inside⟩
        · cases impossible
        · cases same
          exact List.mem_map.mpr ⟨(m, message), List.mem_filter.mpr ⟨inside, by simp⟩, rfl⟩
      have tip : block.index.toNat = (account network m).height :=
        validChain_number valid (List.getElem?_concat_length ..) network.coordinator.chain.count_lt
      have grown : account after m = { account network m with
          height := (account network m).height + 1
          committed := (account network m).committed ++ [block] } := by
        simp [account, height, committed, same.miners, same.acknowledged, same.cleaned, same.proposals]
      rw [grown]
      exact accounted.commit (oriented_bounded oriented m) (carried_block (accounted.proposed message sent) parsed) tip
    · have grown : account after m = { account network m with height := (account network m).height + 1 } := by
        simp [account, height, committed, mine, same.miners, same.acknowledged, same.cleaned, same.proposals]
      rw [grown]
      exact accounted.grow

/-- What holds in every state of a prompt run. -/
structure Tracked (sha256 : HashFunction) (initial : List Block) (network : Network φ μ) : Prop where
  authority : Authority sha256 network
  recorded : Recorded initial network
  oriented : Oriented sha256 network
  authored : ∀ entry ∈ network.committed, entry.1 ≠ none
  accounts : ∀ m, ∃ handled, Accounted (account network m) handled

section Steps
variable [DecidableEq φ]

private theorem step_authored {network : Network φ μ} (tracked : Tracked sha256 initial network) {action : Action φ μ}
    (fromMiners : onlyMiners action = true) : ∀ entry ∈ (network.step sha256 action).committed, entry.1 ≠ none := by
  cases step_commit tracked.authority action with
  | kept _ _ committed => exact committed ▸ tracked.authored
  | grown proposer message block source _ _ _ _ committed =>
    intro entry member
    rcases List.mem_append.mp (committed ▸ member) with old | new
    · exact tracked.authored entry old
    · rw [List.mem_singleton.mp new]
      rcases source with ⟨heap, _, rfl, proposal⟩ | ⟨m, rfl, _⟩
      · rw [onlyMiners, proposal] at fromMiners
        cases fromMiners
      · exact Option.some_ne_none m

private theorem step_tracked {network : Network φ μ} (tracked : Tracked sha256 initial network) {action : Action φ μ}
    (fromMiners : onlyMiners action = true) (prompt : Prompt network action) :
    Tracked sha256 initial (network.step sha256 action) := by
  have authority := tracked.authority
  refine ⟨(step_authority authority action).1, step_recorded authority tracked.recorded action,
    step_oriented authority tracked.oriented action, step_authored tracked fromMiners, fun n => ?_⟩
  obtain ⟨handled, accounted⟩ := tracked.accounts n
  cases step_miners authority action with
  | none same => exact ⟨handled, commit_accounted tracked.oriented (step_commit authority action) same accounted⟩
  | one m state accepted indices sent change changed =>
    by_cases this : n = m
    · subst this
      exact change_accounted authority tracked.recorded tracked.oriented change changed prompt accounted
    · rw [changed_other changed this]
      exact ⟨handled, accounted⟩

private theorem run_tracked {network : Network φ μ} (tracked : Tracked sha256 initial network) {actions : List (Action φ μ)}
    (fromMiners : ∀ action ∈ actions, onlyMiners action = true) (prompted : Prompted sha256 network actions) :
    Tracked sha256 initial (network.run sha256 actions) := by
  induction actions generalizing network with
  | nil => exact tracked
  | cons action rest ih =>
    exact ih (step_tracked tracked (fromMiners action List.mem_cons_self) prompted.1)
      (fun other member => fromMiners other (List.mem_cons_of_mem _ member)) prompted.2

end Steps

private theorem start_tracked {coordinator : Node} {followers : φ → Node} {minerId : μ → Nat}
    (isCoordinator : coordinator.isCoordinator = true) (settled : Settled sha256 coordinator.chain.blocks) :
    Tracked sha256 coordinator.chain.blocks (start coordinator followers minerId) := by
  refine ⟨start_authority isCoordinator settled, start_recorded coordinator followers minerId,
    start_oriented sha256 coordinator followers minerId, by simp [start], fun m => ⟨fun _ => False, ?_⟩⟩
  refine ⟨by simp [account, start], by simp, by simp [account, start], ?_, ?_, by simp [account, start],
    by simp [account, start, Miner.start, mempoolInit], by simp [account, start, occurrences],
    by simp [account, start, occurrences, Account.pool, Miner.start, mempoolInit]⟩
  · intro index hash same
    cases same
  · intro candidate same
    cases same

/-- The occurrences in the blocks of all miners together. -/
private theorem occurrences_sum [Fintype μ] {entries : List (Option μ × Block)} (authored : ∀ entry ∈ entries, entry.1 ≠ none)
    (transaction : CString) : occurrences (entries.map Prod.snd) transaction =
      ∑ m, occurrences ((entries.filter fun entry => entry.1 = some m).map Prod.snd) transaction := by
  induction entries with
  | nil => simp [occurrences]
  | cons entry rest ih =>
    obtain ⟨proposer, block⟩ := entry
    obtain ⟨author, rfl⟩ := Option.ne_none_iff_exists'.mp (authored _ List.mem_cons_self)
    have one : ∀ m, occurrences ((((some author, block) :: rest).filter fun entry => entry.1 = some m).map Prod.snd) transaction =
        (if author = m then block.transactions.count transaction else 0) +
          occurrences ((rest.filter fun entry => entry.1 = some m).map Prod.snd) transaction := by
      intro m
      by_cases mine : author = m
      · simp [mine, occurrences, List.count_append]
      · simp [mine]
    simp only [one, Finset.sum_add_distrib, Finset.sum_ite_eq, Finset.mem_univ, if_true]
    rw [← ih fun other member => authored other (List.mem_cons_of_mem _ member)]
    simp [occurrences, List.count_append]

/-- In every state that a prompt run reaches, no transaction was committed more
often than the miners have accepted it. -/
theorem committed_at_most_as_accepted [DecidableEq φ] [Fintype μ] (sha256 : HashFunction) (coordinator : Node)
    (followers : φ → Node) (minerId : μ → Nat) (isCoordinator : coordinator.isCoordinator = true)
    (chain : coordinator.chain.blocks = [] ∨ (validateBlockchain sha256 coordinator.chain.blocks).result = .ok ())
    (actions : List (Action φ μ)) (fromMiners : ∀ action ∈ actions, onlyMiners action = true)
    (prompted : Prompted sha256 (start coordinator followers minerId) actions) (transaction : CString) :
    let network := (start coordinator followers minerId).run sha256 actions
    committedCount network transaction ≤ acknowledgedCount network transaction := by
  intro network
  have tracked : Tracked sha256 coordinator.chain.blocks network :=
    run_tracked (start_tracked isCoordinator (chain.imp_right (blockchain_ok sha256).mp)) fromMiners prompted
  rw [committedCount, occurrences_sum tracked.authored]
  refine Finset.sum_le_sum fun m _ => ?_
  obtain ⟨handled, accounted⟩ := tracked.accounts m
  exact accounted.covered transaction

/-- A node 0 without a chain, and two miners. -/
def pairNetwork : Network Empty (Fin 2) := start ⟨0, blockchainInit, []⟩ Empty.elim Fin.val

def submit (m : Fin 2) (text : String) : Action Empty (Fin 2) := .toMiner m ⟨MessageType.txSubmit.code, 0, ascii text⟩ openHeap

/-- A mining iteration that succeeds, and the delivery of its proposal. -/
def mine (m : Fin 2) (timestamp : UInt64) (position : Nat) : List (Action Empty (Fin 2)) :=
  [.startAttempt m, .buildAttempt m timestamp 9 openHeap, .finishAttempt m true openHeap, .deliverProposal position openHeap]

/-- A block is mined and its commit reaches the miner. -/
def handledCommit : List (Action Empty (Fin 2)) :=
  [.query 0 .mining false openHeap openHeap, submit 0 "Al pays Bob 5 coins"] ++ mine 0 7 0 ++
    [.deliverCommitToMiner 0 0 openHeap, .finishCommit 0]

theorem handled_payment_is_committed_once :
    let network := pairNetwork.run sha256Bytes handledCommit
    committedCount network (.text "Al pays Bob 5 coins") ≤ acknowledgedCount network (.text "Al pays Bob 5 coins") :=
  committed_at_most_as_accepted sha256Bytes ⟨0, blockchainInit, []⟩ Empty.elim Fin.val rfl (Or.inl rfl) handledCommit
    (by decide) (by decide +kernel) (.text "Al pays Bob 5 coins")

/-- Miner 0 never hears of its first block. The commit of the next one, by miner 1,
moves its view over both, and it proposes the first payment again. -/
def missedCommit : List (Action Empty (Fin 2)) :=
  [.query 0 .mining false openHeap openHeap, .query 1 .mining false openHeap openHeap, submit 0 "Al pays Bob 5 coins"] ++
    mine 0 7 0 ++ [.deliverCommitToMiner 1 0 openHeap, .finishCommit 1, submit 1 "Bob pays Al 2 coins"] ++
    mine 1 8 1 ++ [.deliverCommitToMiner 0 1 openHeap, .finishCommit 0] ++ mine 0 9 2

theorem missed_payment_is_committed_twice :
    let network := pairNetwork.run sha256Bytes missedCommit
    (∀ action ∈ missedCommit, onlyMiners action = true) ∧
      ¬ committedCount network (.text "Al pays Bob 5 coins") ≤ acknowledgedCount network (.text "Al pays Bob 5 coins") := by
  decide +kernel

end ProcessChain.Proofs.Repetition
