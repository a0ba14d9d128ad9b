import ProcessChain.MinerEvents
import ProcessChain.Network
import ProcessChain.Lib.WatchedCopy
import ProcessChain.Proofs.Mining

/-! Mining attempts that complete are fresh. The flag `restart_mining` watches the
copy of the view that the mining thread works on: every step that moves the view
raises it, and only the step that takes a new copy lowers it. -/

namespace ProcessChain.Proofs.FreshAttempts
open Lib Lib.FailStop Handlers MinerSteps

variable {sha256 : HashFunction}

/-- The view that the mining thread has copied for its attempt. -/
def copiedView : Mining → Option (UInt64 × CString)
  | .started candidateIndex previousHash => some (candidateIndex, previousHash)
  | .attempting candidate => some (candidate.index, candidate.previousHash)
  | .resyncing _ | .ready | .stopped => none

def view : Watch Miner (UInt64 × CString) where
  value miner := (miner.nextIndex, miner.previousHash)
  raised miner := miner.restartMining
  copy miner := copiedView miner.mining

@[simp] theorem view_value (miner : Miner) : view.value miner = (miner.nextIndex, miner.previousHash) := rfl

@[simp] theorem view_copy (miner : Miner) : view.copy miner = copiedView miner.mining := rfl

/-- Steps that leave the mining thread and what it watches alone. -/
structure Unwatched (miner after : Miner) : Prop where
  nextIndex : after.nextIndex = miner.nextIndex
  previousHash : after.previousHash = miner.previousHash
  restartMining : after.restartMining = miner.restartMining
  mining : after.mining = miner.mining

theorem Unwatched.refl (miner : Miner) : Unwatched miner miner := ⟨rfl, rfl, rfl, rfl⟩

theorem Unwatched.quiet {miner after : Miner} (unwatched : Unwatched miner after) : view.Quiet miner after := by
  refine .keeps ?_ unwatched.restartMining fun held member => ?_
  · rw [view_value, view_value, unwatched.nextIndex, unwatched.previousHash]
  · rwa [view_copy, unwatched.mining] at member

/-- The mining thread gives up its copy. -/
theorem released (miner : Miner) {mining : Mining} (none : copiedView mining = none) :
    view.Quiet miner { miner with mining } := by
  refine .keeps rfl rfl fun held member => ?_
  rw [view_copy, none] at member
  cases member

theorem handleMessage_unwatched (sha256 : HashFunction) (miner : Miner) (message : Message) :
    Ensures (miner.handleMessage sha256 message) (fun outcome => Unwatched miner outcome.1) fun _ => True := by
  have same := Unwatched.refl miner
  unfold Miner.handleMessage
  split
  · split
    · refine (submit_ensures miner message.payload).weaken (fun outcome submitted => ?_) fun _ _ _ => trivial
      cases submitted with
      | refused => exact same
      | accepted => exact ⟨rfl, rfl, rfl, rfl⟩
    · apply (commit_ensures sha256 miner message.payload).bind
      intro after cleaned
      refine .pure ?_ fun _ => trivial
      cases cleaned with
      | ignored => exact same
      | read => exact ⟨rfl, rfl, rfl, rfl⟩
    · exact .pure ⟨rfl, rfl, rfl, rfl⟩ trivial
    · exact .pure ⟨rfl, rfl, rfl, rfl⟩ trivial
    · exact .pure same trivial
  · exact .pure same trivial

theorem finishCommit_quiet (miner : Miner) : view.Quiet miner miner.finishCommit := by
  unfold Miner.finishCommit
  split
  next index hash committing =>
    dsimp only
    split
    · exact .moves rfl
    · exact Unwatched.quiet ⟨rfl, rfl, rfl, rfl⟩
  next => exact (Unwatched.refl miner).quiet

/-- Going on with a resync, the mining thread has no copy yet. -/
theorem continueResync_quiet (miner : Miner) (next : Option Resync) (thread : Thread) :
    view.Quiet miner (miner.continueResync next thread) := by
  cases thread with
  | communication => exact Unwatched.quiet ⟨rfl, rfl, rfl, rfl⟩
  | mining =>
    cases next with
    | none => exact released miner rfl
    | some phase => exact released miner rfl

theorem answerResync_quiet (sha256 : HashFunction) (miner : Miner) (thread : Thread) (reply : Option Bytes) (heap : Heap) :
    view.Quiet miner (miner.answerResync sha256 thread reply heap) := by
  unfold Miner.answerResync
  split
  · exact continueResync_quiet miner _ thread
  · exact continueResync_quiet miner _ thread
  · exact (Unwatched.refl miner).quiet

theorem finishResync_quiet (miner : Miner) (thread : Thread) : view.Quiet miner (miner.finishResync thread) := by
  have moved (nextIndex : UInt64) (previousHash : CString) :
      view.Quiet miner ((miner.moveView nextIndex previousHash).continueResync none thread) := by
    cases thread with
    | communication => exact .moves rfl
    | mining => exact .moves rfl
  unfold Miner.finishResync
  split
  · exact moved 0 zeroHash
  next nextIndex previousHash _ => exact moved nextIndex previousHash
  · exact (Unwatched.refl miner).quiet

/-- The candidate is built on the view that was copied. -/
theorem buildAttempt_quiet (sha256 : HashFunction) (miner : Miner) (timestamp nonce : UInt64) (heap : Heap) :
    view.Quiet miner (miner.buildAttempt sha256 timestamp nonce heap).1 := by
  have built := (buildAttempt_ensures sha256 miner timestamp nonce).always heap
  generalize (miner.buildAttempt sha256 timestamp nonce heap).1 = after at built
  cases built with
  | idle => exact (Unwatched.refl miner).quiet
  | nothing => exact released miner rfl
  | candidate index previousHash started sized =>
    refine .keeps rfl rfl fun held member => ?_
    rw [view_copy, started]
    exact member

theorem finishAttempt_quiet (miner : Miner) (mined : Bool) (heap : Heap) :
    view.Quiet miner (miner.finishAttempt mined heap).1.1 := by
  have finished := (finishAttempt_ensures miner mined).always heap
  generalize (miner.finishAttempt mined heap).1 = outcome at finished
  cases finished with
  | idle => exact (Unwatched.refl miner).quiet
  | silent => exact released miner rfl
  | proposed => exact released miner rfl

theorem startAttempt_step (miner : Miner) : view.Step (miner.mining = .ready) miner miner.startAttempt := by
  unfold Miner.startAttempt
  split
  next ready =>
    split
    · exact .quiet (released miner rfl)
    · exact .takes ready rfl
  next => exact .quiet (Unwatched.refl miner).quiet

/-- Only the beginning of an attempt takes a copy of the view. -/
theorem step_watched (sha256 : HashFunction) (miner : Miner) (event : MinerEvent) :
    view.Step (event = .startAttempt ∧ miner.mining = .ready) miner (miner.step sha256 event) := by
  cases event with
  | message message heap => exact .quiet ((handleMessage_unwatched sha256 miner message).always heap).quiet
  | finishCommit => exact .quiet (finishCommit_quiet miner)
  | answer thread reply heap => exact .quiet (answerResync_quiet sha256 miner thread reply heap)
  | finishResync thread => exact .quiet (finishResync_quiet miner thread)
  | startAttempt =>
    cases startAttempt_step miner with
    | takes ready copied => exact .takes ⟨rfl, ready⟩ copied
    | quiet quiet => exact .quiet quiet
  | buildAttempt timestamp nonce heap => exact .quiet (buildAttempt_quiet sha256 miner timestamp nonce heap)
  | wake timedOut mined heap =>
    simp only [Miner.step]
    split
    · exact .quiet (Unwatched.refl miner).quiet
    · exact .quiet (finishAttempt_quiet miner mined heap)
  | terminate => exact .quiet (Unwatched.quiet ⟨rfl, rfl, rfl, rfl⟩)

/-- "Not aborted" says that the flag is down. -/
theorem waitOrAbort_down {miner : Miner} {timedOut : Bool} (done : miner.waitOrAbort timedOut = some false) :
    miner.restartMining = false := by
  unfold Miner.waitOrAbort at done
  split at done
  · cases done
  · exact (Bool.or_eq_false_iff.mp (Option.some.inj done)).1

/-- At this moment, and at every moment since the attempt was started, the view
is the one that the candidate was built on. -/
structure Current (sha256 : HashFunction) (miner : Miner) (events : List MinerEvent) (candidate : Block) : Prop where
  index : candidate.index = (miner.run sha256 events).nextIndex
  previousHash : candidate.previousHash = (miner.run sha256 events).previousHash
  since : ∃ earlier later, events = earlier ++ .startAttempt :: later ∧ (miner.run sha256 earlier).mining = .ready ∧
    ∀ part, part <+: later → let moment := miner.run sha256 (earlier ++ .startAttempt :: part)
      moment.restartMining = false ∧ moment.nextIndex = candidate.index ∧ moment.previousHash = candidate.previousHash

theorem current_while_down {minerId : Nat} {events : List MinerEvent} {candidate : Block}
    (attempting : ((Miner.start minerId).run sha256 events).mining = .attempting candidate)
    (down : ((Miner.start minerId).run sha256 events).restartMining = false) :
    Current sha256 (.start minerId) events candidate := by
  have held : (candidate.index, candidate.previousHash) ∈ view.copy ((Miner.start minerId).run sha256 events) :=
    congrArg copiedView attempting
  obtain ⟨earlier, event, later, split, starting, since⟩ := Watch.run_taken (step_watched sha256) rfl events down _ held
  obtain ⟨rfl, ready⟩ := starting
  have moments : ∀ part, part <+: later → let moment := (Miner.start minerId).run sha256 (earlier ++ .startAttempt :: part)
      moment.restartMining = false ∧ moment.nextIndex = candidate.index ∧ moment.previousHash = candidate.previousHash := by
    intro part inside moment
    obtain ⟨down, value⟩ := since part inside
    exact ⟨down, Prod.mk.inj value⟩
  obtain ⟨_, index, previousHash⟩ := moments later List.prefix_rfl
  rw [← split] at index previousHash
  exact ⟨index.symm, previousHash.symm, earlier, later, split, ready, moments⟩

/-- However the events of a miner are ordered, a wait that ends without an abort
ends with a candidate on the view of that moment, and no advance of the view since
the attempt was started has been missed. -/
theorem completed_attempts_are_fresh (sha256 : HashFunction) (minerId : Nat) (events : List MinerEvent) (timedOut : Bool)
    (candidate : Block) (attempting : ((Miner.start minerId).run sha256 events).mining = .attempting candidate)
    (done : ((Miner.start minerId).run sha256 events).waitOrAbort timedOut = some false) :
    Current sha256 (.start minerId) events candidate :=
  current_while_down attempting (waitOrAbort_down done)

/-- A resync that fails, a payment, and the beginning of an attempt to mine it. -/
def firstPayment : List MinerEvent :=
  [.answer .mining none openHeap, .message ⟨MessageType.txSubmit.code, 0, ascii "Al pays Bob 5 coins"⟩ openHeap, .startAttempt]

def firstCandidate : Block := candidateOf sha256Bytes 0 zeroHash [CString.text "Al pays Bob 5 coins"] 7 9

private theorem run_concat (sha256 : HashFunction) (miner : Miner) (events : List MinerEvent) (event : MinerEvent) :
    miner.run sha256 (events ++ [event]) = (miner.run sha256 events).step sha256 event := by
  simp [Miner.run]

private theorem firstCandidate_built :
    ((Miner.start 1).run sha256Bytes (firstPayment ++ [.buildAttempt 7 9 openHeap])).mining = .attempting firstCandidate := by
  have pending : mempoolSnapshot ((Miner.start 1).run sha256Bytes firstPayment).mempool maxTransactionsPerBlock =
      [CString.text "Al pays Bob 5 coins"] := by decide +kernel
  have started : ((Miner.start 1).run sha256Bytes firstPayment).mining = .started 0 zeroHash := rfl
  have granted : (((Miner.start 1).run sha256Bytes firstPayment).buildAttempt sha256Bytes 7 9 openHeap).2.refused = false := by
    decide +kernel
  rw [run_concat]
  generalize (Miner.start 1).run sha256Bytes firstPayment = miner at pending started granted
  have built := ((buildAttempt_ensures sha256Bytes miner 7 9).granted openHeap granted).2 0 zeroHash started (by simp [pending])
  rw [pending] at built
  exact congrArg Miner.mining built

theorem first_attempt_is_fresh :
    Current sha256Bytes (.start 1) (firstPayment ++ [.buildAttempt 7 9 openHeap]) firstCandidate :=
  completed_attempts_are_fresh sha256Bytes 1 _ true firstCandidate firstCandidate_built (by decide +kernel)

section Network
variable {φ μ : Type} [DecidableEq φ] [DecidableEq μ]

/-- What one miner sees of a change to some miner. -/
inductive Seen (sha256 : HashFunction) (miner : Miner) : Miner → Prop
  | nothing : Seen sha256 miner miner
  | event (event : MinerEvent) : Seen sha256 miner (miner.step sha256 event)

omit [DecidableEq φ] in
theorem setMiner_seen (network : Network φ μ) (m changed : μ) (event : MinerEvent) :
    Seen sha256 (network.miners m) ((network.setMiner changed ((network.miners changed).step sha256 event)).miners m) := by
  simp only [Network.setMiner, Function.update_apply]
  split
  next same =>
    subst same
    exact .event event
  next => exact .nothing

/-- Whatever happens in a network is an event of each miner, or nothing to it. -/
theorem network_seen (sha256 : HashFunction) (network : Network φ μ) (action : Action φ μ) (m : μ) :
    Seen sha256 (network.miners m) ((network.step sha256 action).miners m) := by
  cases action with
  | toCoordinator message heap =>
    simp only [Network.step]
    split <;> exact .nothing
  | deliverProposal position heap =>
    simp only [Network.step]
    split <;> exact .nothing
  | toFollower follower message heap =>
    simp only [Network.step]
    split <;> exact .nothing
  | deliverCommit follower position heap =>
    simp only [Network.step]
    split <;> exact .nothing
  | deliverSync => exact .nothing
  | toMiner miner message heap =>
    simp only [Network.step]
    split
    · exact .nothing
    · exact setMiner_seen network m miner (.message message heap)
  | deliverCommitToMiner miner position heap =>
    simp only [Network.step]
    split
    next payload _ =>
      unfold Network.tellCommit
      split
      · exact setMiner_seen network m miner (.message ⟨MessageType.blockCommit.code, 0, payload⟩ heap)
      · exact .nothing
    next => exact .nothing
  | finishCommit miner => exact setMiner_seen network m miner .finishCommit
  | query miner thread answered nodeHeap heap =>
    have answer (reply : Option Bytes) : Seen sha256 (network.miners m) _ :=
      setMiner_seen network m miner (.answer thread reply heap)
    simp only [Network.step, Network.query]
    simp only [Miner.step, Miner.answerResync] at answer
    split
    next asking =>
      simp only [asking] at answer
      exact answer _
    next asking =>
      simp only [asking] at answer
      exact answer _
    next => exact .nothing
  | finishResync miner thread => exact setMiner_seen network m miner (.finishResync thread)
  | startAttempt miner => exact setMiner_seen network m miner .startAttempt
  | buildAttempt miner timestamp nonce heap => exact setMiner_seen network m miner (.buildAttempt timestamp nonce heap)
  | finishAttempt miner mined heap =>
    have woken : Seen sha256 (network.miners m) _ := setMiner_seen network m miner (.wake true mined heap)
    simpa [Network.step, Network.finishAttempt, Miner.step, Miner.waitOrAbort] using woken

theorem network_events (sha256 : HashFunction) (network : Network φ μ) (actions : List (Action φ μ)) (m : μ) :
    ∃ events, (network.run sha256 actions).miners m = (network.miners m).run sha256 events := by
  induction actions generalizing network with
  | nil => exact ⟨[], rfl⟩
  | cons action rest ih =>
    obtain ⟨events, same⟩ := ih (network.step sha256 action)
    have seen := network_seen sha256 network action m
    simp only [Network.run, List.foldl_cons] at same ⊢
    generalize (network.step sha256 action).miners m = after at same seen
    cases seen with
    | nothing => exact ⟨events, same⟩
    | event event => exact ⟨event :: events, same⟩

/-- A proposal is only sent after a wait that was not aborted. -/
theorem proposal_waited {miner : Miner} {mined : Bool} {heap : Heap} {proposal : Message}
    (sent : proposal ∈ (miner.finishAttempt mined heap).1.2) : miner.waitOrAbort true = some false := by
  cases flags : miner.restartMining || miner.shuttingDown with
  | false => simp [Miner.waitOrAbort, flags]
  | true =>
    have silent : (miner.finishAttempt mined heap).1.2 = none := by
      unfold Miner.finishAttempt
      cases miner.mining <;> simp only [flags, if_true] <;> rfl
    rw [silent] at sent
    cases sent

/-- In a running system a miner only proposes blocks on the view that it has at that moment. -/
theorem network_proposals_are_fresh (sha256 : HashFunction) (coordinator : Node) (followers : φ → Node) (minerId : μ → Nat)
    (actions : List (Action φ μ)) (m : μ) (mined : Bool) (heap : Heap) :
    let miner := ((Network.start coordinator followers minerId).run sha256 actions).miners m
    ∀ proposal ∈ (miner.finishAttempt mined heap).1.2, ∃ candidate, proposal.payload <+: (Csv.csvLine candidate).bytes ∧
      candidate.index = miner.nextIndex ∧ candidate.previousHash = miner.previousHash := by
  intro miner proposal sent
  have finished := (finishAttempt_ensures miner mined).always heap
  have down := waitOrAbort_down (proposal_waited sent)
  generalize (miner.finishAttempt mined heap).1 = outcome at finished sent
  cases finished with
  | idle => cases sent
  | silent => cases sent
  | proposed candidate message attempting type writable payload =>
    cases sent
    obtain ⟨events, same⟩ := network_events sha256 (Network.start coordinator followers minerId) actions m
    have reached : miner = (Miner.start (minerId m)).run sha256 events := same
    rw [reached] at attempting down ⊢
    have current := current_while_down attempting down
    exact ⟨candidate, payload, current.index, current.previousHash⟩

end Network
end ProcessChain.Proofs.FreshAttempts
