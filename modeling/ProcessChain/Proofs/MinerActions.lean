import ProcessChain.Proofs.Coordinator

/-! What an action can do to the miners, said once. Every action changes at most
one miner, together with the records kept about it; the invariants about views
and pools only look at the possible changes. -/

namespace ProcessChain.Proofs.MinerActions
open Lib Lib.FailStop Csv Crypto Validation Handlers MinerSteps Coordinator ProcessChain.Network

variable {φ μ : Type} [DecidableEq μ] {sha256 : HashFunction}

/-- A block read from what the coordinator has written for a block of its chain. -/
structure ReadFrom (blocks : List Block) (block : Block) : Prop where
  hashable : Hashable block
  source : ∃ written ∈ blocks, Writable written ∧ block = { written with transactions := rejoined written.transactions }

/-- The next state of the miner, the submissions it acknowledges, the indices
under which it cleans its pool and the proposal it sends. -/
inductive MinerChange (sha256 : HashFunction) (network : Network φ μ) (m : μ) :
    Action φ μ → Miner → List CString → List UInt64 → Option Message → Prop
  | same {action : Action φ μ} : MinerChange sha256 network m action (network.miners m) [] [] none
  | accepts {action : Action φ μ} (transaction : CString) (mempool : Mempool) (valid : ValidTransaction transaction)
      (added : mempool.transactions = (network.miners m).mempool.transactions ++ [transaction]) :
      MinerChange sha256 network m action { network.miners m with mempool } [transaction] [] none
  | asked {action : Action φ μ} :
      MinerChange sha256 network m action { network.miners m with communication := .resyncing .askHeight } [] [] none
  | shutsDown {action : Action φ μ} :
      MinerChange sha256 network m action { network.miners m with shuttingDown := true } [] [] none
  | cleans {action : Action φ μ} (block : Block) (read : ReadFrom network.coordinator.chain.blocks block)
      (announced : ∃ line ∈ network.commits, (blockFromCsv (.ofMemory line)).result = .ok block) :
      MinerChange sha256 network m action { network.miners m with
        mempool := mempoolRemoveIncluded (network.miners m).mempool block.transactions
        communication := .committing block.index (blockHash sha256 block) } [] [block.index] none
  | ignores (index : UInt64) (hash : CString) (committing : (network.miners m).communication = .committing index hash)
      (old : ¬ index ≥ (network.miners m).nextIndex) :
      MinerChange sha256 network m (.finishCommit m) { network.miners m with communication := .idle } [] [] none
  | advances (index : UInt64) (hash : CString) (committing : (network.miners m).communication = .committing index hash)
      (new : index ≥ (network.miners m).nextIndex) :
      MinerChange sha256 network m (.finishCommit m)
        { (network.miners m).moveView (index + 1) hash with communication := .idle } [] [] none
  | learns {action : Action φ μ} (thread : Thread) (next : Option Resync)
      (known : ∀ nextIndex previousHash, next = some (.install nextIndex previousHash) →
        ∃ block, ReadFrom network.coordinator.chain.blocks block ∧ nextIndex = block.index + 1 ∧
          previousHash = blockHash sha256 block) :
      MinerChange sha256 network m action ((network.miners m).continueResync next thread) [] [] none
  | resets (thread : Thread) (resync : (network.miners m).resync thread = some .reset) :
      MinerChange sha256 network m (.finishResync m thread)
        (((network.miners m).moveView 0 zeroHash).continueResync none thread) [] [] none
  | installs (thread : Thread) (nextIndex : UInt64) (previousHash : CString)
      (resync : (network.miners m).resync thread = some (.install nextIndex previousHash)) :
      MinerChange sha256 network m (.finishResync m thread)
        (((network.miners m).moveView nextIndex previousHash).continueResync none thread) [] [] none
  | starts {action : Action φ μ} :
      MinerChange sha256 network m action { network.miners m with
        restartMining := false
        mining := .started (network.miners m).nextIndex (network.miners m).previousHash } [] [] none
  | halts {action : Action φ μ} (mining : Mining) (calm : mining = .ready ∨ mining = .stopped) :
      MinerChange sha256 network m action { network.miners m with mining } [] [] none
  | builds {action : Action φ μ} (timestamp nonce index : UInt64) (previousHash : CString)
      (started : (network.miners m).mining = .started index previousHash)
      (sized : WellSized (mempoolSnapshot (network.miners m).mempool maxTransactionsPerBlock)) :
      MinerChange sha256 network m action { network.miners m with
        mining := .attempting (candidateOf sha256 index previousHash
          (mempoolSnapshot (network.miners m).mempool maxTransactionsPerBlock) timestamp nonce) } [] [] none
  | proposes {action : Action φ μ} (candidate : Block) (message : Message)
      (attempting : (network.miners m).mining = .attempting candidate) (writable : Writable candidate)
      (payload : message.payload <+: (csvLine candidate).bytes) :
      MinerChange sha256 network m action { network.miners m with mining := .ready } [] [] (some message)

/-- The records about one miner are extended and nothing else changes. -/
structure Changed (network after : Network φ μ) (m : μ) (state : Miner) (accepted : List CString) (indices : List UInt64)
    (sent : Option Message) : Prop where
  coordinator : SameCoordinator network after
  miners : after.miners = Function.update network.miners m state
  acknowledged : after.acknowledged = Function.update network.acknowledged m (network.acknowledged m ++ accepted)
  cleaned : after.cleaned = Function.update network.cleaned m (network.cleaned m ++ indices)
  proposals : after.proposals = network.proposals ++ (sent.map fun message => (m, message)).toList

/-- The miners and the records about them are as before. -/
structure SameMiners (network after : Network φ μ) : Prop where
  miners : after.miners = network.miners
  acknowledged : after.acknowledged = network.acknowledged
  cleaned : after.cleaned = network.cleaned
  proposals : after.proposals = network.proposals

inductive MinersStep (sha256 : HashFunction) (network : Network φ μ) (action : Action φ μ) (after : Network φ μ) : Prop
  | none (same : SameMiners network after)
  | one (m : μ) (state : Miner) (accepted : List CString) (indices : List UInt64) (sent : Option Message)
      (change : MinerChange sha256 network m action state accepted indices sent)
      (changed : Changed network after m state accepted indices sent)

private theorem setMiner_changed (network : Network φ μ) (m : μ) (state : Miner) :
    Changed network (network.setMiner m state) m state [] [] none :=
  ⟨⟨rfl, rfl, rfl, rfl⟩, rfl, by simp [setMiner], by simp [setMiner], by simp [setMiner]⟩

/-- An action that only replaces the state of one miner. -/
private theorem setMiner_step {network : Network φ μ} {action : Action φ μ} {m : μ} {state : Miner}
    (change : MinerChange sha256 network m action state [] [] none) :
    MinersStep sha256 network action (network.setMiner m state) :=
  .one m state [] [] none change (setMiner_changed network m state)

theorem readFrom_line {blocks : List Block} {payload : Bytes} {written block : Block} (member : written ∈ blocks)
    (writable : Writable written) (cut : payload <+: (csvLine written).bytes)
    (parsed : (blockFromCsv (.ofMemory payload)).result = .ok block) (hashable : Hashable block) : ReadFrom blocks block :=
  ⟨hashable, written, member, writable, readBack writable ((List.takeWhile_prefix _).trans cut) parsed⟩

/-- Messages other than commits: a submission, a request to resync, a shutdown, or nothing. -/
private theorem handleMessage_ensures (sha256 : HashFunction) (miner : Miner) {message : Message} (noCommit : message.has .blockCommit = false) :
    Ensures (miner.handleMessage sha256 message)
      (fun outcome => Submitted miner (submittedTransaction message.payload) outcome ∨
        outcome = ({ miner with communication := .resyncing .askHeight }, none) ∨
        outcome = ({ miner with shuttingDown := true }, none))
      fun _ => True := by
  have silent : Submitted miner (submittedTransaction message.payload) (miner, none) := .refused (by simp)
  unfold Miner.handleMessage
  split
  · split
    · exact (submit_ensures miner message.payload).weaken (fun _ => Or.inl) fun _ _ _ => trivial
    next type => simp [Message.has, type] at noCommit
    · exact .pure (Or.inr (Or.inl rfl)) trivial
    · exact .pure (Or.inr (Or.inr rfl)) trivial
    · exact .pure (Or.inl silent) trivial
  · exact .pure (Or.inl silent) trivial

private theorem tell_step (network : Network φ μ) (action : Action φ μ) (m : μ) {message : Message}
    (noCommit : message.has .blockCommit = false) (heap : Heap) :
    MinersStep sha256 network action (network.tell sha256 m message heap) := by
  have outcome := (handleMessage_ensures sha256 (network.miners m) noCommit).always heap
  unfold Network.tell
  generalize ((network.miners m).handleMessage sha256 message heap).1 = result at outcome ⊢
  rcases outcome with submitted | rfl | rfl
  · cases submitted with
    | refused answer =>
      refine .one m _ [] [] none .same ⟨⟨rfl, rfl, rfl, rfl⟩, rfl, ?_, by simp [setMiner], by simp [setMiner]⟩
      simp only [if_neg answer]
    | accepted valid added answer =>
      refine .one m _ [_] [] none (.accepts _ _ valid added)
        ⟨⟨rfl, rfl, rfl, rfl⟩, rfl, ?_, by simp [setMiner], by simp [setMiner]⟩
      simp only [if_pos answer]
  · exact .one m _ [] [] none .asked ⟨⟨rfl, rfl, rfl, rfl⟩, rfl, by simp, by simp [setMiner], by simp [setMiner]⟩
  · exact .one m _ [] [] none .shutsDown ⟨⟨rfl, rfl, rfl, rfl⟩, rfl, by simp, by simp [setMiner], by simp [setMiner]⟩

private theorem tellCommit_step {network : Network φ μ} (authority : Authority sha256 network) (action : Action φ μ) (m : μ)
    {payload : Bytes} (sent : payload ∈ network.commits) (heap : Heap) :
    MinersStep sha256 network action (network.tellCommit sha256 m payload heap) := by
  unfold Network.tellCommit
  split
  next idle =>
    have outcome := (MinerSteps.commit_ensures sha256 (network.miners m) payload).always heap
    have handled : ((network.miners m).handleMessage sha256 ⟨MessageType.blockCommit.code, 0, payload⟩ heap).1.1 =
        ((network.miners m).handleBlockCommit sha256 payload heap).1 := by
      unfold Miner.handleMessage
      rw [idle]
      rfl
    simp only [handled]
    generalize ((network.miners m).handleBlockCommit sha256 payload heap).1 = state at outcome
    cases outcome with
    | ignored =>
      refine .one m _ [] [] none .same ⟨⟨rfl, rfl, rfl, rfl⟩, rfl, by simp [setMiner], ?_, by simp [setMiner]⟩
      simp only [idle]
    | read block parsed hashable =>
      obtain ⟨written, member, writable, cut⟩ := authority.commits payload sent
      refine .one m _ [] [block.index] none
        (.cleans block (readFrom_line member writable cut parsed hashable) ⟨payload, sent, parsed⟩) ?_
      exact ⟨⟨rfl, rfl, rfl, rfl⟩, rfl, by simp [setMiner], rfl, by simp [setMiner]⟩
  next => exact .none ⟨rfl, rfl, rfl, rfl⟩

private theorem finishCommit_step (network : Network φ μ) (m : μ) :
    MinersStep sha256 network (.finishCommit m) (network.setMiner m (network.miners m).finishCommit) := by
  apply setMiner_step
  unfold Miner.finishCommit
  split
  next index hash committing =>
    dsimp only
    split
    next new => exact .advances index hash committing new
    next old => exact .ignores index hash committing old
  next => exact .same

private theorem query_step {network : Network φ μ} (action : Action φ μ) (m : μ) (thread : Thread) (answered : Bool)
    (nodeHeap heap : Heap) : MinersStep sha256 network action (network.query sha256 m thread answered nodeHeap heap) := by
  unfold Network.query
  dsimp only
  split
  · apply setMiner_step
    refine .learns thread _ fun nextIndex previousHash next => ?_
    rcases resyncHeight_cases next with same | ⟨height, same⟩ <;> cases same
  next height _ =>
    apply setMiner_step
    refine .learns thread _ fun nextIndex previousHash next => ?_
    obtain ⟨payload, given, block, parsed, hashable, same⟩ := (resyncBlock_ensures sha256 _).always heap _ next
    cases same
    refine ⟨block, ?_, rfl, rfl⟩
    split at given
    · obtain ⟨reply, replied, rfl⟩ := Option.map_eq_some_iff.mp given
      have lines := ((queryBlock_ensures network.coordinator _).always nodeHeap).2 reply replied
      rcases lines with plain | ⟨written, member, writable, cut⟩
      · exact absurd ((List.takeWhile_prefix _).subset (parsed_comma parsed)) plain
      · exact readFrom_line member writable cut parsed hashable
    · cases given
  · exact .none ⟨rfl, rfl, rfl, rfl⟩

private theorem finishResync_step (network : Network φ μ) (m : μ) (thread : Thread) :
    MinersStep sha256 network (.finishResync m thread) (network.setMiner m ((network.miners m).finishResync thread)) := by
  apply setMiner_step
  unfold Miner.finishResync
  split
  next resync => exact .resets thread resync
  next nextIndex previousHash resync => exact .installs thread nextIndex previousHash resync
  next => exact .same

private theorem startAttempt_step (network : Network φ μ) (action : Action φ μ) (m : μ) :
    MinersStep sha256 network action (network.setMiner m (network.miners m).startAttempt) := by
  apply setMiner_step
  unfold Miner.startAttempt
  split
  · split
    · exact .halts .stopped (Or.inr rfl)
    · exact .starts
  · exact .same

private theorem buildAttempt_step (network : Network φ μ) (action : Action φ μ) (m : μ) (timestamp nonce : UInt64)
    (heap : Heap) : MinersStep sha256 network action
      (network.setMiner m ((network.miners m).buildAttempt sha256 timestamp nonce heap).1) := by
  apply setMiner_step
  have built := (buildAttempt_ensures sha256 (network.miners m) timestamp nonce).always heap
  generalize ((network.miners m).buildAttempt sha256 timestamp nonce heap).1 = state at built ⊢
  cases built with
  | idle => exact .same
  | nothing => exact .halts .ready (Or.inl rfl)
  | candidate index previousHash started sized => exact .builds timestamp nonce index previousHash started sized

private theorem finishAttempt_step (network : Network φ μ) (action : Action φ μ) (m : μ) (mined : Bool) (heap : Heap) :
    MinersStep sha256 network action (network.finishAttempt m mined heap) := by
  have finished := (finishAttempt_ensures (network.miners m) mined).always heap
  unfold Network.finishAttempt
  generalize ((network.miners m).finishAttempt mined heap).1 = outcome at finished ⊢
  cases finished with
  | idle => exact .one m _ [] [] none .same ⟨⟨rfl, rfl, rfl, rfl⟩, rfl, by simp [setMiner], by simp [setMiner], by simp⟩
  | silent =>
    exact .one m _ [] [] none (.halts .ready (Or.inl rfl))
      ⟨⟨rfl, rfl, rfl, rfl⟩, rfl, by simp [setMiner], by simp [setMiner], by simp⟩
  | proposed candidate message attempting _ writable payload =>
    exact .one m _ [] [] (some message) (.proposes candidate message attempting writable payload)
      ⟨⟨rfl, rfl, rfl, rfl⟩, rfl, by simp [setMiner], by simp [setMiner], rfl⟩

/-- Every action is one of the changes. -/
theorem step_miners [DecidableEq φ] {network : Network φ μ} (authority : Authority sha256 network) (action : Action φ μ) :
    MinersStep sha256 network action (network.step sha256 action) := by
  have nothing : MinersStep sha256 network action network := .none ⟨rfl, rfl, rfl, rfl⟩
  cases action with
  | toCoordinator message heap =>
    simp only [step]
    split
    · exact nothing
    · exact .none ⟨rfl, rfl, rfl, rfl⟩
  | deliverProposal position heap =>
    simp only [step]
    split
    · exact .none ⟨rfl, rfl, rfl, rfl⟩
    · exact nothing
  | toFollower follower message heap =>
    simp only [step]
    split
    · exact nothing
    · exact .none ⟨rfl, rfl, rfl, rfl⟩
  | deliverCommit follower position heap =>
    simp only [step]
    split
    · exact .none ⟨rfl, rfl, rfl, rfl⟩
    · exact nothing
  | deliverSync follower slot position heap => exact .none ⟨rfl, rfl, rfl, rfl⟩
  | toMiner m message heap =>
    simp only [step]
    split
    · exact nothing
    next noCommit => exact tell_step network _ m (by simpa using noCommit) heap
  | deliverCommitToMiner m position heap =>
    simp only [step]
    split
    next payload found => exact tellCommit_step authority _ m (List.mem_of_getElem? found) heap
    next => exact nothing
  | finishCommit m => exact finishCommit_step network m
  | query m thread answered nodeHeap heap => exact query_step _ m thread answered nodeHeap heap
  | finishResync m thread => exact finishResync_step network m thread
  | startAttempt m => exact startAttempt_step network _ m
  | buildAttempt m timestamp nonce heap => exact buildAttempt_step network _ m timestamp nonce heap
  | finishAttempt m mined heap => exact finishAttempt_step network _ m mined heap

end ProcessChain.Proofs.MinerActions
