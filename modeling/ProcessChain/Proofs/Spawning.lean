import ProcessChain.Bootstrap

/-! What a start-up leaves behind. Every child is forked before it is entered
into the table, so the only child that can be missing there is the one forked
when the table was already full. -/

namespace ProcessChain.Proofs.Spawning

variable {forks : Forks}

/-- Children that have not been reaped have different pids. Nothing is reaped
before all children have been forked. -/
def DistinctPids (forks : Forks) : Prop :=
  ∀ first second pid, forks first = some pid → forks second = some pid → first = second

/-- The table has one entry for each child, and the children are those of the `fork` calls. -/
structure Balanced (forks : Forks) (startup : Startup) : Prop where
  tracked : startup.table.pids = startup.forked.map Child.pid
  numbered : ∀ position child, startup.forked[position]? = some child → forks position = some child.pid
  running : ∀ entry ∈ startup.table.entries, entry.state = .running

theorem Balanced.count {startup : Startup} (balanced : Balanced forks startup) :
    startup.table.count = startup.forked.length := by
  have lengths := congrArg List.length balanced.tracked
  simpa [ProcessTable.pids, ProcessTable.count] using lengths

private theorem numbered_concat {forked : List Child} {child : Child}
    (numbered : ∀ position child, forked[position]? = some child → forks position = some child.pid)
    (next : forks forked.length = some child.pid) :
    ∀ position other, (forked ++ [child])[position]? = some other → forks position = some other.pid := by
  intro position other found
  rw [List.getElem?_append] at found
  split at found
  · exact numbered position other found
  next beyond =>
    have single : position = forked.length ∧ child = other := by
      have bound := (List.getElem?_eq_some_iff.mp found).1
      simp only [List.length_singleton] at bound
      obtain rfl : position = forked.length := by omega
      simpa using found
    rw [single.1, ← single.2, next]

private theorem add_cases (table : ProcessTable) (type : ProcessType) (id : Nat) (pid : Pid) :
    (∃ grown, processTableAdd table type id pid = .ok grown ∧
        grown.entries = table.entries ++ [⟨type, id, pid, .running⟩]) ∨
      (table.count = maxTrackedProcesses ∧ processTableAdd table type id pid = .error .memoryAllocation) := by
  simp only [processTableAdd]
  split
  · exact Or.inl ⟨_, rfl, rfl⟩
  next full =>
    have fits := table.fits
    simp only [ProcessTable.count] at full ⊢
    exact Or.inr ⟨by omega, trivial⟩

/-- How far a start-up towards `goal` children has come. -/
inductive Spawned (forks : Forks) (goal : Nat) : Except ProjectError Unit → Startup → Prop
  | all {startup : Startup} (balanced : Balanced forks startup) (reached : startup.forked.length = goal) :
      Spawned forks goal (.ok ()) startup
  | refused {startup : Startup} (balanced : Balanced forks startup) (failed : forks startup.forked.length = none)
      (short : startup.forked.length < goal) : Spawned forks goal (.error .process) startup
  | full {startup : Startup} {child : Child} (balanced : Balanced forks startup)
      (whole : startup.table.count = maxTrackedProcesses) (forked : forks startup.forked.length = some child.pid)
      (short : startup.forked.length < goal) :
      Spawned forks goal (.error .memoryAllocation) { startup with forked := startup.forked ++ [child] }

theorem spawnLoop_spawned {type : ProcessType} {binary : String} {argv : Nat → List Bytes} (remaining id : Nat)
    {startup : Startup} (balanced : Balanced forks startup) :
    Spawned forks (startup.forked.length + remaining) (spawnLoop forks type binary argv remaining id startup).1
      (spawnLoop forks type binary argv remaining id startup).2 := by
  induction remaining generalizing id startup with
  | zero => exact .all balanced rfl
  | succ remaining ih =>
    cases result : forks startup.forked.length with
    | none =>
      simp only [spawnLoop, spawnProcess, result]
      exact .refused balanced result (by omega)
    | some pid =>
      rcases add_cases startup.table type id pid with ⟨grown, added, entries⟩ | ⟨whole, added⟩
      · have next : Balanced forks ⟨grown, startup.forked ++ [⟨pid, binary, argv id⟩]⟩ := by
          refine ⟨?_, numbered_concat balanced.numbered result, ?_⟩
          · have tracked := balanced.tracked
            simp only [ProcessTable.pids] at tracked
            simp [ProcessTable.pids, entries, tracked]
          · intro entry member
            rw [entries] at member
            rcases List.mem_append.mp member with before | last
            · exact balanced.running entry before
            · rw [List.mem_singleton.mp last]
        have later := ih (id + 1) next
        simp only [spawnLoop, spawnProcess, result, added]
        simpa [Nat.add_assoc, Nat.add_comm 1] using later
      · simp only [spawnLoop, spawnProcess, result, added]
        apply Spawned.full balanced whole result
        omega

theorem Spawned.mono {goal further : Nat} {error : ProjectError} {startup : Startup}
    (spawned : Spawned forks goal (.error error) startup) (more : goal ≤ further) :
    Spawned forks further (.error error) startup := by
  cases spawned with
  | refused balanced failed short => exact .refused balanced failed (by omega)
  | full balanced whole forked short => exact .full balanced whole forked (by omega)

def totalChildren (config : BootstrapConfig) : Nat := config.numNodes + config.numMiners + config.numClients

private theorem Spawned.succeeded {goal : Nat} {done : Unit} {startup : Startup}
    (spawned : Spawned forks goal (.ok done) startup) : Balanced forks startup ∧ startup.forked.length = goal := by
  cases spawned with
  | all balanced reached => exact ⟨balanced, reached⟩

theorem andSpawn_spawned {first : Except ProjectError Unit × Startup} {goal more : Nat}
    {next : Startup → Except ProjectError Unit × Startup} (start : Spawned forks goal first.1 first.2)
    (rest : ∀ startup, Balanced forks startup →
      Spawned forks (startup.forked.length + more) (next startup).1 (next startup).2) :
    Spawned forks (goal + more) (andSpawn first next).1 (andSpawn first next).2 := by
  obtain ⟨result, startup⟩ := first
  cases result with
  | error error => exact start.mono (Nat.le_add_right goal more)
  | ok done =>
    obtain ⟨balanced, rfl⟩ := start.succeeded
    exact rest startup balanced

theorem startChildren_spawned (runtimeDir : CString) (config : BootstrapConfig) :
    Spawned forks (totalChildren config) (startChildren forks runtimeDir config).1
      (startChildren forks runtimeDir config).2 := by
  have none : Balanced forks ⟨processTableInit, []⟩ := ⟨rfl, by simp, by simp [processTableInit]⟩
  have nodes : Spawned forks (0 + config.numNodes) (spawnNodes forks runtimeDir config.numNodes ⟨processTableInit, []⟩).1
      (spawnNodes forks runtimeDir config.numNodes ⟨processTableInit, []⟩).2 := spawnLoop_spawned config.numNodes 0 none
  rw [Nat.zero_add] at nodes
  apply andSpawn_spawned
  · apply andSpawn_spawned nodes
    intro startup balanced
    exact spawnLoop_spawned config.numMiners 0 balanced
  · intro startup balanced
    exact spawnLoop_spawned config.numClients 0 balanced

/-- Every child has an entry in the table. -/
def AllTracked (startup : Startup) (table : ProcessTable) : Prop := ∀ child ∈ startup.forked, child.pid ∈ table.pids

/-- The start-up never forks a child that the table has no room for. -/
def RoomForAll (forks : Forks) (config : BootstrapConfig) : Prop :=
  totalChildren config ≤ maxTrackedProcesses ∨ ∃ call ≤ maxTrackedProcesses, forks call = none

theorem startChildren_tracked (distinct : DistinctPids forks) (runtimeDir : CString) (config : BootstrapConfig) :
    AllTracked (startChildren forks runtimeDir config).2 (startChildren forks runtimeDir config).2.table ↔
      RoomForAll forks config := by
  have spawned : Spawned forks _ _ _ := startChildren_spawned runtimeDir config
  generalize (startChildren forks runtimeDir config).1 = result at spawned
  generalize (startChildren forks runtimeDir config).2 = startup at spawned
  have tracked : Balanced forks startup → AllTracked startup startup.table := by
    intro balanced child member
    rw [balanced.tracked]
    exact List.mem_map_of_mem member
  cases spawned with
  | all balanced reached =>
    have count := balanced.count
    have fits := startup.table.fits
    refine iff_of_true (tracked balanced) (Or.inl ?_)
    rw [← reached, ← count]
    exact fits
  | refused balanced failed short =>
    have count := balanced.count
    have fits := startup.table.fits
    refine iff_of_true (tracked balanced) (Or.inr ⟨_, ?_, failed⟩)
    rw [← count]
    exact fits
  | @full earlier child balanced whole forked short =>
    have count := balanced.count
    refine iff_of_false ?_ ?_
    · -- the pid of the last child belongs to no earlier one
      intro all
      have member : child.pid ∈ earlier.table.pids := all child (by simp)
      rw [balanced.tracked] at member
      obtain ⟨other, inside, same⟩ := List.mem_map.mp member
      obtain ⟨position, found⟩ := List.mem_iff_getElem?.mp inside
      have bound := (List.getElem?_eq_some_iff.mp found).1
      have equal := distinct _ _ _ (balanced.numbered position other found) (same ▸ forked)
      omega
    · intro room
      rcases room with small | ⟨call, early, failed⟩
      · omega
      · -- all calls up to the last one have succeeded
        by_cases last : call = earlier.forked.length
        · rw [last, forked] at failed
          cases failed
        · have inside : call < earlier.forked.length := by omega
          rw [balanced.numbered call _ (List.getElem?_eq_getElem inside)] at failed
          cases failed

private theorem Balanced.distinct {startup : Startup} (balanced : Balanced forks startup) (distinct : DistinctPids forks) :
    startup.table.pids.Nodup := by
  rw [balanced.tracked]
  apply List.pairwise_iff_getElem.mpr
  intro first second inside beyond before same
  simp only [List.length_map] at inside beyond
  simp only [List.getElem_map] at same
  have one := balanced.numbered first _ (List.getElem?_eq_getElem inside)
  have other := balanced.numbered second _ (List.getElem?_eq_getElem beyond)
  have equal := distinct first second _ one (same ▸ other)
  omega

/-- The table that a start-up leaves, complete or not. -/
theorem startChildren_table (distinct : DistinctPids forks) (runtimeDir : CString) (config : BootstrapConfig) :
    (startChildren forks runtimeDir config).2.table.pids.Nodup ∧
      ∀ entry ∈ (startChildren forks runtimeDir config).2.table.entries, entry.state = .running := by
  have spawned : Spawned forks _ _ _ := startChildren_spawned runtimeDir config
  generalize (startChildren forks runtimeDir config).1 = result at spawned
  generalize (startChildren forks runtimeDir config).2 = startup at spawned
  cases spawned with
  | all balanced _ => exact ⟨balanced.distinct distinct, balanced.running⟩
  | refused balanced _ _ => exact ⟨balanced.distinct distinct, balanced.running⟩
  | full balanced _ _ _ => exact ⟨balanced.distinct distinct, balanced.running⟩

end ProcessChain.Proofs.Spawning
