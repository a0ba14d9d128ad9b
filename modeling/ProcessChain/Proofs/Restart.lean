import ProcessChain.Restart
import ProcessChain.Proofs.Agreement
import ProcessChain.Proofs.EmptyStart
import ProcessChain.Proofs.Payments
import ProcessChain.Proofs.SaveCommand
import ProcessChain.Proofs.Processes

/-! From one start of the system to the next. All nodes of one start hold the blocks of
the same file, so they agree from then on; and a node that comes up with a saved file
holds everything that was in the chain when the file was saved. -/

namespace ProcessChain.Proofs.Restart
open Lib Lib.FailStop Csv Validation Handlers Recovery Coordinator Agreement ChainFile Loading Saving Spawning ChainQuery
  SaveCommand EmptyStart ProcessChain.Network

section Copying

private theorem fread_append (turn : CopyTurn) (source : Bytes) :
    fread turn source ++ source.drop (fread turn source).length = source := by
  have read : fread turn source = source.take (fread turn source).length := by simp [fread]
  conv_lhs => arg 1; rw [read]
  exact List.take_append_drop _ _

/-- Only a copy of everything passes for a success. -/
theorem copyLoop_whole {source dest : Bytes} {hadError : Bool} {turns : List CopyTurn} {copied : Bytes}
    (done : copyLoop source dest hadError turns = .ok (copied, false)) : copied = dest ++ source := by
  fun_induction copyLoop source dest hadError turns with
  | case1 source dest hadError turns ended =>
    simp only [Except.ok.injEq, Prod.mk.injEq, Bool.or_eq_false_iff, Option.isSome_eq_false_iff, Option.isNone_iff_eq_none] at done
    obtain ⟨rfl, _, sound⟩ := done
    simp only [fread, sound, Option.getD_none, Nat.min_self, List.take_eq_nil_iff, copyBufferSize, OfNat.ofNat_ne_zero,
      false_or] at ended
    rw [ended, List.append_nil]
  | case2 => cases done
  | case3 source dest hadError turns ended written ih =>
    rw [ih done, List.append_assoc, fread_append]

/-- A copy without an error is made of everything. -/
theorem copyLoop_calm {source dest : Bytes} {hadError : Bool} {turns : List CopyTurn} (calm : turns = [])
    (sound : hadError = false) :
    copyLoop source dest hadError turns = .ok (dest ++ source, false) := by
  fun_induction copyLoop source dest hadError turns with
  | case1 source dest hadError turns ended =>
    simp only [calm, fread, nextTurn, List.headD_nil, Option.getD_none, Nat.min_self, List.take_eq_nil_iff, copyBufferSize,
      OfNat.ofNat_ne_zero, false_or] at ended
    simp [ended, calm, sound, nextTurn]
  | case2 source dest hadError turns ended short => simp [calm, nextTurn] at short
  | case3 source dest hadError turns ended written ih =>
    rw [ih (by simp [calm]) (by simp [calm, sound, nextTurn]), List.append_assoc, fread_append]

theorem copied_whole {files after : Files} {sourcePath runtimeDir : CString} {copying : Copying}
    (copied : copyInitialState files sourcePath runtimeDir copying = .ok after) :
    after (runtimeDir.bytes ++ ascii "/" ++ initialStateFilename) = files sourcePath.bytes := by
  simp only [copyInitialState] at copied
  split at copied
  · cases copied
  split at copied
  · cases copied
  next source found =>
    split at copied
    · cases copied
    split at copied
    · cases copied
    next dest hadError looped =>
      split at copied
      · cases copied
      next sound =>
        cases copied
        simp only [Bool.or_eq_true, not_or, Bool.not_eq_true] at sound
        obtain ⟨_, rfl⟩ := sound
        have whole := copyLoop_whole looped
        rw [Function.update_self, found, whole, List.nil_append]

end Copying

section Children
variable {forks : Forks}

/-- The children of one loop are numbered in the order in which they are forked. -/
private theorem spawnLoop_forked (type : ProcessType) (binary : String) (argv : Nat → List Bytes) (remaining id : Nat)
    (startup : Startup) :
    ∃ children, (spawnLoop forks type binary argv remaining id startup).2.forked = startup.forked ++ children ∧
      ∀ position child, children[position]? = some child → child.binary = binary ∧ child.argv = argv (id + position) := by
  induction remaining generalizing id startup with
  | zero => exact ⟨[], by simp [spawnLoop], by simp⟩
  | succ remaining ih =>
    simp only [spawnLoop, spawnProcess]
    cases forks startup.forked.length with
    | none => exact ⟨[], by simp, by simp⟩
    | some pid =>
      have first (position : Nat) (child : Child) (found : [(⟨pid, binary, argv id⟩ : Child)][position]? = some child) :
          child.binary = binary ∧ child.argv = argv (id + position) := by
        obtain ⟨here, rfl⟩ := List.getElem?_eq_some_iff.mp found
        obtain rfl : position = 0 := by simpa using here
        simp
      dsimp only
      cases processTableAdd startup.table type id pid with
      | error error => exact ⟨[⟨pid, binary, argv id⟩], rfl, first⟩
      | ok table =>
        obtain ⟨children, later, numbered⟩ := ih (id + 1) ⟨table, startup.forked ++ [⟨pid, binary, argv id⟩]⟩
        refine ⟨⟨pid, binary, argv id⟩ :: children, by simp [later], ?_⟩
        intro position child found
        cases position with
        | zero => exact first 0 child found
        | succ position =>
          have known := numbered position child found
          rwa [show id + 1 + position = id + (position + 1) by omega] at known

private theorem andSpawn_forked (first : Except ProjectError Unit × Startup)
    {next : Startup → Except ProjectError Unit × Startup}
    (other : ∀ startup, ∃ children, (next startup).2.forked = startup.forked ++ children ∧
      ∀ child ∈ children, child.binary ≠ "bin/node") :
    ∃ children, (andSpawn first next).2.forked = first.2.forked ++ children ∧
      ∀ child ∈ children, child.binary ≠ "bin/node" := by
  obtain ⟨result, startup⟩ := first
  cases result with
  | error error => exact ⟨[], by simp [andSpawn], by simp⟩
  | ok done => exact other startup

private theorem spawnLoop_binary (type : ProcessType) (binary : String) (argv : Nat → List Bytes)
    (different : binary ≠ "bin/node") (remaining id : Nat) (startup : Startup) :
    ∃ children, (spawnLoop forks type binary argv remaining id startup).2.forked = startup.forked ++ children ∧
      ∀ child ∈ children, child.binary ≠ "bin/node" := by
  obtain ⟨children, forked, numbered⟩ := @spawnLoop_forked forks type binary argv remaining id startup
  refine ⟨children, forked, ?_⟩
  intro child member
  obtain ⟨position, found⟩ := List.mem_iff_getElem?.mp member
  rw [(numbered position child found).1]
  exact different

/-- A node is told its position among the children. -/
theorem node_argv {runtimeDir : CString} {config : BootstrapConfig} {position : Nat} {child : Child}
    (forked : (startChildren forks runtimeDir config).2.forked[position]? = some child) (node : child.binary = "bin/node") :
    child.argv = [ascii "node", decimal position, runtimeDir.bytes] := by
  obtain ⟨nodes, first, numbered⟩ : ∃ children,
      (spawnNodes forks runtimeDir config.numNodes ⟨processTableInit, []⟩).2.forked = [] ++ children ∧ _ :=
    spawnLoop_forked .node "bin/node" _ config.numNodes 0 ⟨processTableInit, []⟩
  obtain ⟨miners, second, noNode⟩ := andSpawn_forked (spawnNodes forks runtimeDir config.numNodes ⟨processTableInit, []⟩)
    (spawnLoop_binary .miner "bin/miner" _ (by decide) config.numMiners 0)
  obtain ⟨clients, third, alsoNone⟩ := andSpawn_forked
    (andSpawn (spawnNodes forks runtimeDir config.numNodes ⟨processTableInit, []⟩)
      (spawnMiners forks runtimeDir config.numMiners config.difficulty))
    (spawnLoop_binary .client "bin/client" _ (by decide) config.numClients 0)
  have all : (startChildren forks runtimeDir config).2.forked = [] ++ nodes ++ miners ++ clients := by
    rw [← first, ← second]
    exact third
  rw [List.nil_append, List.append_assoc] at all
  rw [all, List.getElem?_append] at forked
  split at forked
  · have known := (numbered position child forked).2
    rwa [Nat.zero_add] at known
  · rcases List.mem_append.mp (List.mem_of_getElem? forked) with miner | client
    · exact absurd node (noNode child miner)
    · exact absurd node (alsoNone child client)

private theorem few_children (runtimeDir : CString) (config : BootstrapConfig) :
    (startChildren forks runtimeDir config).2.forked.length ≤ maxTrackedProcesses + 1 := by
  have spawned := @startChildren_spawned forks runtimeDir config
  generalize (startChildren forks runtimeDir config).2 = startup at spawned
  generalize (startChildren forks runtimeDir config).1 = result at spawned
  have fits (startup : Startup) (balanced : Balanced forks startup) : startup.forked.length ≤ maxTrackedProcesses := by
    rw [← balanced.count]
    exact startup.table.fits
  cases spawned with
  | all balanced => exact Nat.le_succ_of_le (fits _ balanced)
  | refused balanced => exact Nat.le_succ_of_le (fits _ balanced)
  | full balanced =>
    rw [List.length_append]
    exact Nat.succ_le_succ (fits _ balanced)

end Children

section Nodes

/-- The process at this position of the children is a node that has got through `node_init`. -/
def CameUp (system : Launched) (position : Nat) (node : Node) : Prop :=
  ∃ child socket heap, system.children.2.forked[position]? = some child ∧ child.binary = "bin/node" ∧
    (nodeMain child.argv socket system.files heap).1 = .ok node

/-- The nodes of a running system: the coordinator is the first child, every follower another one. -/
structure Up {φ : Type} (system : Launched) (coordinator : Node) (followers : φ → Node) : Prop where
  first : CameUp system 0 coordinator
  others : ∀ follower, ∃ position ≠ 0, CameUp system position (followers follower)

private theorem nodeInit_nodeId {nodeId : Nat} {runtimeDir : CString} {socket : Except ProjectError Unit}
    {initialState : Option Bytes} {heap : Heap} {node : Node}
    (started : (nodeInit nodeId runtimeDir socket initialState heap).1 = .ok node) : node.nodeId = nodeId := by
  unfold nodeInit at started
  cases socket with
  | error error => cases started
  | ok done =>
    simp only at started
    split at started
    · cases started
    · cases initialState with
      | none =>
        cases started
        rfl
      | some contents =>
        generalize outcome : blockchainLoadCsv contents heap = pair at started
        obtain ⟨result, later⟩ := pair
        simp only [bind, StateT.bind, outcome] at started
        cases result with
        | error error => cases started
        | ok chain =>
          cases started
          rfl

/-- The bootstrap process has copied the contents of a file for its nodes. -/
structure StartedWith (argv : List CString) (files : Files) (answers : StartAnswers) (contents : Bytes) (system : Launched) :
    Prop where
  started : bootstrapMain argv files answers = .ok system
  given : ∃ path, system.config.initialStatePath = some path ∧ files path.bytes = some contents

variable {argv : List CString} {files : Files} {answers : StartAnswers} {contents : Bytes} {system : Launched}

private theorem started_facts (started : StartedWith argv files answers contents system) :
    system.files (system.runtimeDir.bytes ++ ascii "/" ++ initialStateFilename) = some contents ∧
      system.children = startChildren answers.forks system.runtimeDir system.config := by
  obtain ⟨path, named, found⟩ := started.given
  have run := started.started
  simp only [bootstrapMain, bind, Except.bind] at run
  split at run
  · cases run
  split at run
  · cases run
  split at run
  next none =>
    cases run
    cases none.symm.trans named
  next other known =>
    split at run
    · cases run
    next copied copying =>
      cases run
      cases known.symm.trans named
      exact ⟨(copied_whole copying).trans found, rfl⟩

theorem cameUp_facts (started : StartedWith argv files answers contents system) {position : Nat} {node : Node}
    (up : CameUp system position node) : node.nodeId = position ∧ FileCarries contents node.chain.blocks := by
  obtain ⟨child, socket, heap, forked, binary, loaded⟩ := up
  obtain ⟨copied, children⟩ := started_facts started
  rw [children] at forked
  have few := @few_children answers.forks system.runtimeDir system.config
  have inside := (List.getElem?_eq_some_iff.mp forked).1
  simp only [maxTrackedProcesses] at few
  have id : atoi (decimal position) = position := by
    simp only [atoi, scanNumeral_decimal]
    exact Payments.toInt_small (by simp only [intMax]; omega) []
  have file : ascii "/initial_state.csv" = ascii "/" ++ initialStateFilename := by decide
  rw [node_argv forked binary] at loaded
  simp only [nodeMain, id, file, ← List.append_assoc, copied, Int.toNat_natCast] at loaded
  rw [if_neg (by omega)] at loaded
  exact ⟨nodeInit_nodeId loaded, nodeInit_loads loaded⟩

/-- All nodes of a start hold the blocks of the given file. -/
private theorem up_facts {φ : Type} (started : StartedWith argv files answers contents system) {blocks : List Block}
    (carries : FileCarries contents blocks) {coordinator : Node} {followers : φ → Node} (up : Up system coordinator followers) :
    coordinator.isCoordinator = true ∧ coordinator.chain.blocks = blocks ∧
      ∀ follower, (followers follower).isCoordinator = false ∧ (followers follower).chain.blocks = blocks := by
  have first := cameUp_facts started up.first
  refine ⟨by simp [Node.isCoordinator, first.1], first.2.unique carries, fun follower => ?_⟩
  obtain ⟨position, later, other⟩ := up.others follower
  have facts := cameUp_facts started other
  exact ⟨by simp [Node.isCoordinator, facts.1, later], facts.2.unique carries⟩

end Nodes

section Runs
variable {φ μ : Type} [DecidableEq φ] [DecidableEq μ] {sha256 : HashFunction} {blocks : List Block}

private theorem follower_grows {network : Network φ μ} (agreed : Agreed sha256 network) (action : Action φ μ) (follower : φ) :
    (network.followers follower).chain.blocks <+: ((network.step sha256 action).followers follower).chain.blocks := by
  have follows := agreed.followers follower
  have grows (event : NodeEvent) :
      (network.followers follower).chain.blocks <+: ((network.followers follower).step sha256 event).chain.blocks :=
    (NodeSafety.step_grows (validChain_start agreed.valid follows.some follows.beginning) event).2
  have changed := step_follower sha256 network action follower
  generalize (network.step sha256 action).followers follower = after at changed ⊢
  cases changed with
  | kept => exact List.prefix_rfl
  | message | commit | sync => exact grows _

/-- The coordinator's chain begins with these blocks, and its blocks can be joined again. -/
structure Extends (blocks : List Block) (network : Network φ μ) : Prop where
  beginning : blocks <+: network.coordinator.chain.blocks
  whole : ∀ block ∈ network.coordinator.chain.blocks, rejoined block.transactions = block.transactions

omit [DecidableEq φ] [DecidableEq μ] in
private theorem serve_extends {network : Network φ μ} (authority : Authority sha256 network) (extended : Extends blocks network)
    (proposer : Option μ) {message : Message} (noCommit : message.has .blockCommit = false) (heap : Heap) :
    Extends blocks (network.serve sha256 proposer message heap) := by
  refine ⟨extended.beginning.trans (serve_grows authority proposer noCommit heap), ?_⟩
  cases serve_cases authority proposer noCommit heap with
  | kept same =>
    rw [same]
    exact extended.whole
  | grown block _ parsed _ same =>
    intro other member
    rw [same] at member
    rcases List.mem_append.mp member with before | last
    · exact extended.whole other before
    · cases List.mem_singleton.mp last
      exact parsed_rejoined parsed

private theorem step_extends {network : Network φ μ} (authority : Authority sha256 network) (extended : Extends blocks network)
    (action : Action φ μ) : Extends blocks (network.step sha256 action) := by
  have served := step_coordinator sha256 network action
  generalize network.step sha256 action = after at served
  cases served with
  | message message heap noCommit => exact serve_extends authority extended none noCommit heap
  | proposal position miner message heap found =>
    have noCommit := proposal_noCommit (authority.proposals _ (List.mem_of_getElem? found))
    exact serve_extends authority extended (some miner) noCommit heap
  | other same =>
    constructor
    · rw [same.coordinator]
      exact extended.beginning
    · rw [same.coordinator]
      exact extended.whole

variable {argv : List CString} {files : Files} {answers : StartAnswers} {contents : Bytes} {system : Launched}
  {coordinator : Node} {followers : φ → Node}

private theorem run_extends (started : StartedWith argv files answers contents system) (carries : FileCarries contents blocks)
    (valid : ValidChain sha256 blocks) (up : Up system coordinator followers) (minerId : μ → Nat)
    (actions : List (Action φ μ)) :
    Extends blocks ((start coordinator followers minerId).run sha256 actions) ∧
      ValidChain sha256 ((start coordinator followers minerId).run sha256 actions).coordinator.chain.blocks := by
  obtain ⟨isCoordinator, same, _⟩ := up_facts started carries up
  have settled : Settled sha256 coordinator.chain.blocks := Or.inr (same ▸ valid)
  have authority : Authority sha256 (start coordinator followers minerId) := start_authority isCoordinator settled
  have extended : Extends blocks (start coordinator followers minerId) := by
    refine ⟨by simp only [start, same, List.prefix_rfl], ?_⟩
    intro block member
    obtain ⟨line, read⟩ := carried_parsed carries block (same ▸ member)
    exact parsed_rejoined read
  have later := run_preserves (Extends blocks) (fun _ => step_extends) authority extended actions
  have reached := run_preserves (Authority sha256) (fun _ authority _ action => (step_authority authority action).1)
    authority authority actions
  refine ⟨later, ?_⟩
  rcases reached.settled with none | chain
  · exact absurd (List.prefix_nil.mp (none ▸ later.beginning)) valid.some
  · exact chain

/-- Where the bootstrap process was given a file with a valid chain, the nodes that come up hold this chain, and they
keep it and agree in every state that the system can reach. -/
theorem started_nodes_agree (sha256 : HashFunction) (started : StartedWith argv files answers contents system)
    (carries : FileCarries contents blocks) (accepted : (validateBlockchain sha256 blocks).result = .ok ())
    (up : Up system coordinator followers) (minerId : μ → Nat) (actions : List (Action φ μ)) :
    let network := (start coordinator followers minerId).run sha256 actions
    (∀ follower, blocks <+: (network.followers follower).chain.blocks ∧
        (network.followers follower).chain.blocks <+: network.coordinator.chain.blocks) ∧
      ∀ first second, (network.followers first).chain.blocks <+: (network.followers second).chain.blocks ∨
        (network.followers second).chain.blocks <+: (network.followers first).chain.blocks := by
  intro network
  have valid := (blockchain_ok sha256).mp accepted
  obtain ⟨isCoordinator, same, others⟩ := up_facts started carries up
  have agreed : Agreed sha256 (start coordinator followers minerId) := by
    refine ⟨start_authority isCoordinator (Or.inr (same ▸ valid)), same ▸ valid, fun follower => ?_⟩
    refine ⟨(others follower).1, ?_, ?_⟩
    · simpa only [start, (others follower).2] using valid.some
    · simp only [start, (others follower).2, same, List.prefix_rfl]
  have kept : Agreed sha256 network ∧ ∀ follower, blocks <+: (network.followers follower).chain.blocks :=
    run_preserves (fun network => Agreed sha256 network ∧ ∀ follower, blocks <+: (network.followers follower).chain.blocks)
      (fun _ _ keeps action =>
        ⟨run_agreed keeps.1 [action], fun follower => (keeps.2 follower).trans (follower_grows keeps.1 action follower)⟩)
      agreed.authority ⟨agreed, fun follower => by simp only [start, (others follower).2, List.prefix_rfl]⟩ actions
  have beginning := fun follower => (kept.1.followers follower).beginning
  exact ⟨fun follower => ⟨kept.2 follower, beginning follower⟩,
    fun first second => List.prefix_or_prefix_of_prefix (beginning first) (beginning second)⟩

end Runs

section Lives

/-- What the save command writes at some moment of a run after a start with these contents, as long as the text of the
chain is shorter than 4 GiB. -/
inductive Saved (sha256 : HashFunction) (contents : Bytes) : Bytes → Prop
  | life {φ μ : Type} [DecidableEq φ] [DecidableEq μ] {argv : List CString} {files : Files} {answers : StartAnswers}
      {system : Launched} {coordinator : Node} {followers : φ → Node} (minerId : μ → Nat) (actions : List (Action φ μ))
      (heap : Heap) {response : Message} {written : Bytes} (started : StartedWith argv files answers contents system)
      (up : Up system coordinator followers)
      (short : answerSize ((start coordinator followers minerId).run sha256 actions).coordinator.chain.blocks < 2 ^ 32)
      (answered : (((start coordinator followers minerId).run sha256 actions).coordinator.answerTo sha256 saveRequest heap).1 =
        some response)
      (saved : commandSaveBlockchain true none (some response) = some written) : Saved sha256 contents written

/-- A node that comes up has loaded a chain. -/
private theorem Saved.carried {sha256 : HashFunction} {contents written : Bytes} (saved : Saved sha256 contents written) :
    ∃ blocks, FileCarries contents blocks := by
  cases saved with
  | life minerId actions heap started up => exact ⟨_, (cameUp_facts started up.first).2⟩

/-- Of what is saved, only the whole chain can be loaded. -/
private theorem Saved.extends {sha256 : HashFunction} {contents written : Bytes} (saved : Saved sha256 contents written)
    {blocks later : List Block} (carries : FileCarries contents blocks) (valid : ValidChain sha256 blocks)
    (loaded : FileCarries written later) : blocks <+: later ∧ ValidChain sha256 later := by
  cases saved with
  | life minerId actions heap started up short answered saved =>
    obtain ⟨extended, chain⟩ := run_extends started carries valid up minerId actions
    cases saved
    rcases (answer_ensures _).always heap with ⟨text, known, failed⟩ | ⟨writable, sent⟩
    · cases answered.symm.trans failed
      have small : (ascii text).length < 2 ^ 47 := by rcases known with rfl | rfl <;> decide
      exact absurd ((loadsAs_iff small).mpr loaded) (error_not_loaded known later)
    · have whole := delivered_whole writable (answered.symm.trans sent).symm short
      rw [whole] at loaded
      have same := loaded.unique (fileOf_carries chain.some writable extended.whole)
      rw [same]
      exact ⟨extended.beginning, chain⟩

/-- Two nodes are started with a file. -/
def twoNodeArgv : List CString :=
  [.text "bootstrap", .text "2", .text "0", .text "0", .text "0", .text "4", .text "chain.csv"]

def twoNodeConfig : BootstrapConfig := ⟨2, 0, 0, 0, 4, some (.text "chain.csv")⟩

def twoNodeAnswers : StartAnswers := ⟨100, true, true, ⟨true, [], true⟩, Processes.countingForks 101⟩

def chainFiles (contents : Bytes) : Files := fun path => if path = ascii "chain.csv" then some contents else none

def twoNodeDir : CString := .text "/tmp/blockchain_100"

def twoNodeSystem (contents : Bytes) : Launched where
  config := twoNodeConfig
  runtimeDir := twoNodeDir
  files := Function.update (chainFiles contents) (twoNodeDir.bytes ++ ascii "/" ++ initialStateFilename) (some contents)
  children := startChildren (Processes.countingForks 101) twoNodeDir twoNodeConfig

theorem twoNode_started (contents : Bytes) :
    StartedWith twoNodeArgv (chainFiles contents) twoNodeAnswers contents (twoNodeSystem contents) := by
  have config : parseArguments twoNodeArgv = .ok twoNodeConfig := by decide +kernel
  have directory : createRuntimeDirectory 100 true true = .ok twoNodeDir := by decide +kernel
  have fits : ¬ (twoNodeDir.bytes ++ ascii "/" ++ initialStateFilename).length ≥
      runtimeDirBufferSize + (initialStateFilename.length + 1) + 1 := by decide +kernel
  have found : chainFiles contents (CString.text "chain.csv").bytes = some contents := if_pos (by decide +kernel)
  refine ⟨?_, .text "chain.csv", rfl, found⟩
  simp only [bootstrapMain, config, bind, Except.bind, twoNodeAnswers, directory, twoNodeConfig, copyInitialState, if_neg fits,
    found, copyLoop_calm]
  rfl

/-- One of the two nodes, if it comes up. -/
def startedNode (contents : Bytes) (nodeId : Nat) : Node :=
  match (nodeMain [ascii "node", decimal nodeId, twoNodeDir.bytes] (.ok ()) (twoNodeSystem contents).files openHeap).1 with
  | .ok node => node
  | .error _ => emptyNode

/-- The children of this start are its two nodes. -/
private theorem twoNode_children (contents : Bytes) : ∀ nodeId < 2,
    (twoNodeSystem contents).children.2.forked[nodeId]? =
      some ⟨(101 + nodeId : Nat), "bin/node", [ascii "node", decimal nodeId, twoNodeDir.bytes]⟩ := by
  have forked : ∀ nodeId < 2, (startChildren (Processes.countingForks 101) twoNodeDir twoNodeConfig).2.forked[nodeId]? =
      some ⟨(101 + nodeId : Nat), "bin/node", [ascii "node", decimal nodeId, twoNodeDir.bytes]⟩ := by decide +kernel
  exact forked

private theorem startedNode_up {contents : Bytes} {nodeId : Nat} (small : nodeId < 2)
    (loaded : (nodeMain [ascii "node", decimal nodeId, twoNodeDir.bytes] (.ok ()) (twoNodeSystem contents).files
      openHeap).1.isOk = true) :
    CameUp (twoNodeSystem contents) nodeId (startedNode contents nodeId) := by
  refine ⟨_, .ok (), openHeap, twoNode_children contents nodeId small, rfl, ?_⟩
  unfold startedNode
  split
  next node started => exact started
  next error failed =>
    rw [failed] at loaded
    cases loaded

/-- Two blocks under a hash function that is constant. -/
def flatGenesis : Block := flatBlock 0 "Genesis block"

def flatPayment : Block := flatBlock 1 "Al pays Bob 5 coins"

/-- Both nodes come up with the given genesis block. -/
private theorem flatGenesis_up : ∀ nodeId < 2,
    CameUp (twoNodeSystem (fileOf [flatGenesis])) nodeId (startedNode (fileOf [flatGenesis]) nodeId) := by
  intro nodeId small
  refine startedNode_up small ?_
  revert nodeId
  decide +kernel

private theorem flatGenesis_accepted : (validateBlockchain flatHash [flatGenesis]).result = .ok () := by decide +kernel

private theorem flatGenesis_carried : FileCarries (fileOf [flatGenesis]) [flatGenesis] := by
  have written : (blockToCsv flatGenesis).result = .ok (csvLine flatGenesis) := by decide +kernel
  refine fileOf_carries (by simp) (fun block member => ?_) (by decide +kernel)
  cases List.mem_singleton.mp member
  exact (toCsv_ok.mp written).1

private theorem flatGenesis_nodes : Up (twoNodeSystem (fileOf [flatGenesis])) (startedNode (fileOf [flatGenesis]) 0)
    fun _ : Unit => startedNode (fileOf [flatGenesis]) 1 :=
  ⟨flatGenesis_up 0 (by decide), fun _ => ⟨1, by decide, flatGenesis_up 1 (by decide)⟩⟩

/-- A run of the two nodes. -/
def twoNodeRun (actions : List (Action Unit Empty)) : Network Unit Empty :=
  (start (startedNode (fileOf [flatGenesis]) 0) (fun _ => startedNode (fileOf [flatGenesis]) 1) Empty.elim).run flatHash actions

/-- A payment is proposed to the first node. -/
def payment : Action Unit Empty :=
  .toCoordinator ⟨MessageType.blockProposal.code, 1, (csvLine flatPayment).bytes⟩ openHeap

/-- The payment is committed and reaches the second node. -/
theorem two_nodes_agree :
    let network := twoNodeRun [payment, .deliverCommit () 0 openHeap]
    (∀ follower, [flatGenesis] <+: (network.followers follower).chain.blocks ∧
        (network.followers follower).chain.blocks <+: network.coordinator.chain.blocks) ∧
      ∀ first second, (network.followers first).chain.blocks <+: (network.followers second).chain.blocks ∨
        (network.followers second).chain.blocks <+: (network.followers first).chain.blocks :=
  started_nodes_agree flatHash (twoNode_started _) flatGenesis_carried flatGenesis_accepted flatGenesis_nodes Empty.elim _

end Lives
end ProcessChain.Proofs.Restart
