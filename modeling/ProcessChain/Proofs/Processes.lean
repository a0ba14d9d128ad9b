import ProcessChain.Proofs.Spawning

/-! The life cycle of the entries in the process table. An entry is terminated
exactly when `waitpid` has returned its pid, so the states that signals are sent
from protect the pids that the operating system may already have given away. -/

namespace ProcessChain.Proofs.Processes
open Spawning

/-- A later call does not signal a process that an earlier one has reaped. -/
def Fresh (earlier later : SystemCall) : Prop := ∀ pid signal, earlier = .reaped pid → later ≠ .kill pid signal

structure Consistent (bootstrap : Bootstrap) : Prop where
  distinct : bootstrap.table.pids.Nodup
  known : ∀ entry ∈ bootstrap.table.entries, entry.state = .terminated ↔ .reaped entry.pid ∈ bootstrap.calls
  fresh : bootstrap.calls.Pairwise Fresh

/-- Only the state of an entry changes, and never away from `TERMINATED`. -/
structure Advances (before after : ProcessEntry) : Prop where
  same : before = { after with state := before.state }
  kept : before.state = .terminated → after.state = .terminated

structure Evolves (before after : ProcessTable) : Prop where
  length : after.entries.length = before.entries.length
  advance : ∀ (position : Nat) (entry : ProcessEntry), before.entries[position]? = some entry →
    ∃ later, after.entries[position]? = some later ∧ Advances entry later

theorem Evolves.refl (table : ProcessTable) : Evolves table table :=
  ⟨rfl, fun _ entry found => ⟨entry, found, rfl, id⟩⟩

theorem Evolves.trans {first second third : ProcessTable} (early : Evolves first second) (late : Evolves second third) :
    Evolves first third := by
  refine ⟨late.length.trans early.length, ?_⟩
  intro position entry found
  obtain ⟨middle, found, same, kept⟩ := early.advance position entry found
  obtain ⟨last, found, after, further⟩ := late.advance position middle found
  refine ⟨last, found, ?_, fun ended => further (kept ended)⟩
  rw [after] at same
  exact same

theorem Evolves.pids {before after : ProcessTable} (evolves : Evolves before after) : after.pids = before.pids := by
  apply List.ext_getElem
  · simpa [ProcessTable.pids] using evolves.length
  · intro position inside also
    simp only [ProcessTable.pids, List.length_map] at inside also
    obtain ⟨later, found, advances⟩ := evolves.advance position _ (List.getElem?_eq_getElem also)
    obtain ⟨_, rfl⟩ := List.getElem?_eq_some_iff.mp found
    simp only [ProcessTable.pids, List.getElem_map]
    rw [advances.same]

theorem evolves_map {before after : ProcessTable} {change : ProcessEntry → ProcessEntry}
    (mapped : after.entries = before.entries.map change) (advances : ∀ entry, Advances entry (change entry)) :
    Evolves before after := by
  refine ⟨by rw [mapped, List.length_map], ?_⟩
  intro position entry found
  exact ⟨change entry, by rw [mapped, List.getElem?_map, found, Option.map_some], advances entry⟩

private theorem fresh_kills {calls kills : List SystemCall} (fresh : calls.Pairwise Fresh)
    (alive : ∀ call ∈ kills, ∃ pid signal, call = .kill pid signal ∧ .reaped pid ∉ calls) :
    (calls ++ kills).Pairwise Fresh := by
  rw [List.pairwise_append]
  refine ⟨fresh, List.pairwise_of_forall_mem_list ?_, ?_⟩
  · intro earlier before later _ pid signal reaped
    obtain ⟨_, _, killed, _⟩ := alive earlier before
    rw [killed] at reaped
    cases reaped
  · intro earlier before later after pid signal reaped killed
    obtain ⟨other, sent, same, unreaped⟩ := alive later after
    rw [same] at killed
    cases killed
    exact unreaped (reaped ▸ before)

private theorem fresh_reaps {calls : List SystemCall} (fresh : calls.Pairwise Fresh) (pids : List Pid) :
    (calls ++ pids.map SystemCall.reaped).Pairwise Fresh := by
  have unsent : ∀ later ∈ pids.map SystemCall.reaped, ∀ pid signal, later ≠ .kill pid signal := by
    intro later member pid signal killed
    obtain ⟨_, _, rfl⟩ := List.mem_map.mp member
    cases killed
  rw [List.pairwise_append]
  refine ⟨fresh, List.pairwise_of_forall_mem_list ?_, ?_⟩
  · intro earlier _ later after pid signal _
    exact unsent later after pid signal
  · intro earlier _ later after pid signal _
    exact unsent later after pid signal

/-- An entry after the process with this pid was reaped. -/
def reapedEntry (pid : Pid) (entry : ProcessEntry) : ProcessEntry :=
  if entry.pid = pid then { entry with state := .terminated } else entry

private theorem reapedEntry_other {pid : Pid} {entries : List ProcessEntry} (absent : pid ∉ entries.map ProcessEntry.pid) :
    entries.map (reapedEntry pid) = entries := by
  apply (List.map_congr_left (g := id) ?_).trans (List.map_id _)
  intro entry member
  have different : entry.pid ≠ pid := fun same => absent (same ▸ List.mem_map_of_mem member)
  simp [reapedEntry, different]

private theorem modify_found {entries : List ProcessEntry} (distinct : (entries.map ProcessEntry.pid).Nodup) {pid : Pid}
    {position : Nat} (found : entries.findIdx? (fun entry => entry.pid == pid) = some position) :
    entries.modify position (fun entry => { entry with state := .terminated }) = entries.map (reapedEntry pid) := by
  induction entries generalizing position with
  | nil => cases found
  | cons entry rest ih =>
    simp only [List.map_cons, List.nodup_cons] at distinct
    rw [List.findIdx?_cons] at found
    split at found
    next here =>
      simp only [beq_iff_eq] at here
      cases found
      rw [List.modify_zero_cons, List.map_cons, reapedEntry_other (here ▸ distinct.1), reapedEntry, if_pos here]
    next other =>
      obtain ⟨later, inside, rfl⟩ := Option.map_eq_some_iff.mp found
      simp only [beq_iff_eq] at other
      rw [List.modify_succ_cons, List.map_cons, ih distinct.2 inside, reapedEntry, if_neg other]

theorem markTerminated_entries {table : ProcessTable} (distinct : table.pids.Nodup) (pid : Pid) :
    (markTerminated table pid).entries = table.entries.map (reapedEntry pid) := by
  simp only [markTerminated]
  split
  next missing =>
    have absent : pid ∉ table.pids := by
      intro member
      obtain ⟨entry, inside, same⟩ := List.mem_map.mp member
      have different := List.findIdx?_eq_none_iff.mp missing entry inside
      simp [same] at different
    exact (reapedEntry_other absent).symm
  next position found => exact modify_found distinct found

private theorem reap_one {bootstrap : Bootstrap} (consistent : Consistent bootstrap) (pid : Pid) :
    Consistent { bootstrap with
      table := markTerminated bootstrap.table pid, calls := bootstrap.calls ++ [.reaped pid] } ∧
      Evolves bootstrap.table (markTerminated bootstrap.table pid) := by
  have entries := markTerminated_entries consistent.distinct pid
  have evolves : Evolves bootstrap.table (markTerminated bootstrap.table pid) := by
    apply evolves_map entries
    intro entry
    simp only [reapedEntry]
    split
    · exact ⟨rfl, fun _ => rfl⟩
    · exact ⟨rfl, id⟩
  refine ⟨⟨?_, ?_, ?_⟩, evolves⟩
  · rw [evolves.pids]
    exact consistent.distinct
  · intro entry member
    rw [entries] at member
    obtain ⟨before, inside, rfl⟩ := List.mem_map.mp member
    have known := consistent.known before inside
    by_cases same : before.pid = pid
    · simp [reapedEntry, same]
    · simp [reapedEntry, same, known]
  · exact fresh_reaps consistent.fresh [pid]

theorem reap_consistent (returned : List Pid) {bootstrap : Bootstrap} (consistent : Consistent bootstrap) :
    Consistent (reapTerminatedChildren returned bootstrap) ∧
      Evolves bootstrap.table (reapTerminatedChildren returned bootstrap).table := by
  induction returned generalizing bootstrap with
  | nil => exact ⟨consistent, .refl _⟩
  | cons pid rest ih =>
    obtain ⟨one, evolves⟩ := reap_one consistent pid
    obtain ⟨all, further⟩ := ih one
    exact ⟨all, evolves.trans further⟩

section Signals

variable {current : ProcessState} (signal : Signal) (next : ProcessState)

private theorem signalEntries_advance (ended : current ≠ .terminated) (outcomes : List Bool)
    (entries : List ProcessEntry) (position : Nat) (entry : ProcessEntry) (found : entries[position]? = some entry) :
    ∃ later, (signalEntries current signal next outcomes entries).1[position]? = some later ∧ Advances entry later ∧
      (later.state = .terminated → next ≠ .terminated → entry.state = .terminated) := by
  induction entries generalizing outcomes position with
  | nil => simp at found
  | cons first rest ih =>
    cases position with
    | zero =>
      simp only [List.getElem?_cons_zero, Option.some.injEq] at found
      subst found
      simp only [signalEntries]
      split
      next here =>
        refine ⟨_, rfl, ?_, ?_⟩
        · split
          · exact ⟨rfl, fun terminated => absurd (here.symm.trans terminated) ended⟩
          · exact ⟨rfl, id⟩
        · split
          · intro terminated stays
            exact absurd terminated stays
          · exact fun terminated _ => terminated
      · exact ⟨first, rfl, ⟨rfl, id⟩, fun terminated _ => terminated⟩
    | succ position =>
      simp only [List.getElem?_cons_succ] at found
      simp only [signalEntries]
      split
      · exact ih outcomes.tail position found
      · exact ih outcomes position found

private theorem signalEntries_calls (current : ProcessState) (outcomes : List Bool) (entries : List ProcessEntry) :
    ∀ call ∈ (signalEntries current signal next outcomes entries).2,
      ∃ entry ∈ entries, entry.state = current ∧ call = .kill entry.pid signal := by
  induction entries generalizing outcomes with
  | nil => simp [signalEntries]
  | cons first rest ih =>
    intro call member
    simp only [signalEntries] at member
    split at member
    next here =>
      rcases List.mem_cons.mp member with rfl | later
      · exact ⟨first, by simp, here, rfl⟩
      · obtain ⟨entry, inside, facts⟩ := ih _ call later
        exact ⟨entry, by simp [inside], facts⟩
    · obtain ⟨entry, inside, facts⟩ := ih _ call member
      exact ⟨entry, by simp [inside], facts⟩

/-- Signals to live processes that move them to another live state. -/
theorem signalAll_consistent {next : ProcessState} (live : current ≠ .terminated) (stays : next ≠ .terminated) (outcomes : List Bool)
    {bootstrap : Bootstrap} (consistent : Consistent bootstrap) :
    Consistent (signalAll current signal next outcomes bootstrap) ∧
      Evolves bootstrap.table (signalAll current signal next outcomes bootstrap).table := by
  generalize result : signalEntries current signal next outcomes bootstrap.table.entries = sent
  have each := signalEntries_advance signal next live outcomes bootstrap.table.entries
  have calls := signalEntries_calls signal next current outcomes bootstrap.table.entries
  have length := signalEntries_length current signal next outcomes bootstrap.table.entries
  rw [result] at calls length
  simp only [result] at each
  have evolves : Evolves bootstrap.table (signalAll current signal next outcomes bootstrap).table := by
    refine ⟨signalEntries_length .., ?_⟩
    intro position entry found
    obtain ⟨later, there, advances, _⟩ := each position entry found
    exact ⟨later, by rw [← result] at there; exact there, advances⟩
  have record : (signalAll current signal next outcomes bootstrap).calls = bootstrap.calls ++ sent.2 := by
    rw [← result]
    rfl
  refine ⟨⟨?_, ?_, ?_⟩, evolves⟩
  · rw [evolves.pids]
    exact consistent.distinct
  · intro entry member
    have same : (signalAll current signal next outcomes bootstrap).table.entries = sent.1 := by
      rw [← result]
      rfl
    rw [same] at member
    obtain ⟨position, found⟩ := List.mem_iff_getElem?.mp member
    have inside : position < bootstrap.table.entries.length := by
      have bound := (List.getElem?_eq_some_iff.mp found).1
      omega
    obtain ⟨later, there, advances, back⟩ := each position _ (List.getElem?_eq_getElem inside)
    obtain rfl : later = entry := Option.some.inj (there.symm.trans found)
    have known := consistent.known _ (List.getElem_mem inside)
    have pid : bootstrap.table.entries[position].pid = later.pid := by rw [advances.same]
    rw [pid] at known
    have unreaped : .reaped later.pid ∉ sent.2 := by
      intro reaped
      obtain ⟨_, _, _, killed⟩ := calls _ reaped
      cases killed
    rw [record, List.mem_append, or_iff_left unreaped, ← known]
    exact ⟨fun ended => back ended stays, advances.kept⟩
  · rw [record]
    apply fresh_kills consistent.fresh
    intro call member
    obtain ⟨entry, inside, state, rfl⟩ := calls call member
    refine ⟨entry.pid, signal, rfl, ?_⟩
    intro reaped
    exact live (state.symm.trans ((consistent.known entry inside).mpr reaped))

end Signals

theorem handleLine_consistent (line : Bytes) (outcomes : List Bool) {bootstrap : Bootstrap}
    (consistent : Consistent bootstrap) :
    Consistent (handleLine line outcomes bootstrap) ∧ Evolves bootstrap.table (handleLine line outcomes bootstrap).table := by
  have unchanged : Consistent bootstrap ∧ Evolves bootstrap.table bootstrap.table := ⟨consistent, .refl _⟩
  unfold handleLine
  split
  · exact unchanged
  split
  · exact signalAll_consistent _ (by decide) (by decide) outcomes consistent
  split
  · exact signalAll_consistent _ (by decide) (by decide) outcomes consistent
  split
  · exact unchanged
  split
  · exact ⟨⟨consistent.distinct, consistent.known, consistent.fresh⟩, .refl _⟩
  · exact unchanged

theorem commandLoop_consistent {bootstrap : Bootstrap} (iteration : Iteration) (consistent : Consistent bootstrap) :
    Consistent (commandLoop bootstrap iteration) ∧ Evolves bootstrap.table (commandLoop bootstrap iteration).table := by
  obtain ⟨reaped, evolves⟩ := reap_consistent iteration.returned consistent
  have stopped : Consistent { reapTerminatedChildren iteration.returned bootstrap with running := false } :=
    ⟨reaped.distinct, reaped.known, reaped.fresh⟩
  unfold commandLoop
  split
  · exact ⟨consistent, .refl _⟩
  simp only
  split
  · exact ⟨stopped, evolves⟩
  cases iteration.input with
  | interrupted => exact ⟨reaped, evolves⟩
  | closed => exact ⟨stopped, evolves⟩
  | line text =>
    simp only
    split
    · exact ⟨reaped, evolves⟩
    · obtain ⟨handled, further⟩ := handleLine_consistent (stripLineEnd text.bytes) iteration.outcomes reaped
      exact ⟨handled, evolves.trans further⟩

theorem commandLoop_run (iterations : List Iteration) {bootstrap : Bootstrap} (consistent : Consistent bootstrap) :
    Consistent (iterations.foldl commandLoop bootstrap) ∧
      Evolves bootstrap.table (iterations.foldl commandLoop bootstrap).table := by
  induction iterations generalizing bootstrap with
  | nil => exact ⟨consistent, .refl _⟩
  | cons iteration rest ih =>
    obtain ⟨next, evolves⟩ := commandLoop_consistent iteration consistent
    obtain ⟨final, further⟩ := ih next
    exact ⟨final, evolves.trans further⟩

theorem awaitChildren_consistent (returned : List Pid) (passes : List (List Pid)) {bootstrap : Bootstrap}
    (consistent : Consistent bootstrap) :
    Consistent (awaitChildren returned passes bootstrap) ∧
      Evolves bootstrap.table (awaitChildren returned passes bootstrap).table := by
  induction passes generalizing returned bootstrap with
  | nil => exact reap_consistent returned consistent
  | cons next later ih =>
    obtain ⟨reaped, evolves⟩ := reap_consistent returned consistent
    simp only [awaitChildren]
    split
    · obtain ⟨final, further⟩ := ih next reaped
      exact ⟨final, evolves.trans further⟩
    · exact ⟨reaped, evolves⟩

theorem startup_consistent {table : ProcessTable} (distinct : table.pids.Nodup)
    (running : ∀ entry ∈ table.entries, entry.state = .running) (active : Bool) : Consistent ⟨table, [], active⟩ :=
  ⟨distinct, fun entry member => by simp [running entry member], .nil⟩

private theorem terminationSignals_calls {entry : ProcessEntry} {call : SystemCall}
    (member : call ∈ terminationSignals entry) : entry.state ≠ .terminated ∧ ∃ signal, call = .kill entry.pid signal := by
  simp only [terminationSignals] at member
  split at member
  · cases member
  next live =>
    refine ⟨live, ?_⟩
    split at member
    · simp only [List.mem_cons, List.not_mem_nil, or_false] at member
      rcases member with rfl | rfl
      · exact ⟨_, rfl⟩
      · exact ⟨_, rfl⟩
    · exact ⟨_, List.mem_singleton.mp member⟩

/-- The state of `shutdown_all` after its first loop. -/
def askedToEnd (bootstrap : Bootstrap) : Bootstrap :=
  { bootstrap with calls := bootstrap.calls ++ bootstrap.table.entries.flatMap terminationSignals }

private theorem asked_consistent {bootstrap : Bootstrap} (consistent : Consistent bootstrap) :
    Consistent (askedToEnd bootstrap) := by
  have kills : ∀ call ∈ bootstrap.table.entries.flatMap terminationSignals,
      ∃ pid signal, call = .kill pid signal ∧ .reaped pid ∉ bootstrap.calls := by
    intro call member
    obtain ⟨entry, inside, sent⟩ := List.mem_flatMap.mp member
    obtain ⟨live, signal, rfl⟩ := terminationSignals_calls sent
    exact ⟨entry.pid, signal, rfl, fun reaped => live ((consistent.known entry inside).mpr reaped)⟩
  refine ⟨consistent.distinct, ?_, fresh_kills consistent.fresh kills⟩
  intro entry member
  have unreaped : .reaped entry.pid ∉ bootstrap.table.entries.flatMap terminationSignals := by
    intro reaped
    obtain ⟨_, _, killed, _⟩ := kills _ reaped
    cases killed
  rw [consistent.known entry member, askedToEnd, List.mem_append, or_iff_left unreaped]

private theorem reap_calls (returned : List Pid) (bootstrap : Bootstrap) :
    bootstrap.calls <+: (reapTerminatedChildren returned bootstrap).calls := by
  induction returned generalizing bootstrap with
  | nil => exact List.prefix_rfl
  | cons pid rest ih =>
    have later := ih { bootstrap with
      table := markTerminated bootstrap.table pid, calls := bootstrap.calls ++ [.reaped pid] }
    exact (List.prefix_append _ _).trans later

private theorem await_calls (returned : List Pid) (passes : List (List Pid)) (bootstrap : Bootstrap) :
    bootstrap.calls <+: (awaitChildren returned passes bootstrap).calls := by
  induction passes generalizing returned bootstrap with
  | nil => exact reap_calls returned bootstrap
  | cons next later ih =>
    simp only [awaitChildren]
    split
    · exact (reap_calls returned bootstrap).trans (ih next _)
    · exact reap_calls returned bootstrap

theorem shutdown_calls (ending : Ending) (bootstrap : Bootstrap) :
    (askedToEnd bootstrap).calls <+: (shutdownAll ending bootstrap).calls := by
  have waited := await_calls ending.returned ending.passes (askedToEnd bootstrap)
  simp only [askedToEnd] at waited ⊢
  simp only [shutdownAll]
  split
  · rw [List.append_assoc]
    exact waited.trans (List.prefix_append _ _)
  · exact waited

theorem shutdown_terminates (ending : Ending) (bootstrap : Bootstrap) :
    ∀ entry ∈ (shutdownAll ending bootstrap).table.entries, entry.state = .terminated := by
  simp only [shutdownAll]
  split
  · intro entry member
    obtain ⟨before, _, rfl⟩ := List.mem_map.mp member
    rfl
  next none =>
    intro entry member
    have zero := Nat.eq_zero_of_not_pos none
    simpa using List.countP_eq_zero.mp zero entry member

theorem shutdown_consistent (ending : Ending) {bootstrap : Bootstrap} (consistent : Consistent bootstrap) :
    (shutdownAll ending bootstrap).calls.Pairwise Fresh ∧
      Evolves bootstrap.table (shutdownAll ending bootstrap).table := by
  obtain ⟨waited, evolves⟩ := awaitChildren_consistent ending.returned ending.passes (asked_consistent consistent)
  simp only [askedToEnd] at waited evolves
  simp only [shutdownAll]
  split
  · generalize awaitChildren ending.returned ending.passes _ = state at waited evolves
    refine ⟨?_, evolves.trans (evolves_map rfl fun _ => ⟨rfl, fun _ => rfl⟩)⟩
    have killed : (state.calls ++ state.table.entries.flatMap killRemaining).Pairwise Fresh := by
      apply fresh_kills waited.fresh
      intro call member
      obtain ⟨entry, inside, sent⟩ := List.mem_flatMap.mp member
      simp only [killRemaining] at sent
      split at sent
      next live =>
        refine ⟨entry.pid, .kill, List.mem_singleton.mp sent, ?_⟩
        exact fun reaped => live ((waited.known entry inside).mpr reaped)
      · cases sent
    -- the rest is only waited for after the last signal
    exact fresh_reaps killed ending.drained
  · exact ⟨waited.fresh, evolves⟩

variable {forks : Forks}

theorem commandRun_consistent (distinct : DistinctPids forks) (runtimeDir : CString) (config : BootstrapConfig)
    (iterations : List Iteration) :
    Consistent (commandRun (startChildren forks runtimeDir config) iterations) ∧
      Evolves (startChildren forks runtimeDir config).2.table
        (commandRun (startChildren forks runtimeDir config) iterations).table := by
  obtain ⟨apart, running⟩ := startChildren_table distinct runtimeDir config
  generalize startChildren forks runtimeDir config = started at apart running
  obtain ⟨result, startup⟩ := started
  cases result with
  | error error => exact ⟨startup_consistent apart running false, .refl _⟩
  | ok done => exact commandLoop_run iterations (startup_consistent apart running true)

/-- An entry that is terminated at some time is the same entry at a later time. -/
def StaysTerminated (before after : ProcessTable) : Prop :=
  ∀ (position : Nat) (entry : ProcessEntry), before.entries[position]? = some entry → entry.state = .terminated →
    after.entries[position]? = some entry

theorem Evolves.staysTerminated {before after : ProcessTable} (evolves : Evolves before after) :
    StaysTerminated before after := by
  intro position entry found ended
  obtain ⟨later, there, same, kept⟩ := evolves.advance position entry found
  have unchanged : entry = later := by
    rw [same, ended, ← kept ended]
  rw [there, unchanged]

theorem commandRun_evolves (distinct : DistinctPids forks) (runtimeDir : CString) (config : BootstrapConfig)
    (before after : List Iteration) :
    Evolves (commandRun (startChildren forks runtimeDir config) before).table
      (commandRun (startChildren forks runtimeDir config) (before ++ after)).table := by
  have consistent := (commandRun_consistent distinct runtimeDir config before).1
  generalize startChildren forks runtimeDir config = started at consistent
  obtain ⟨result, startup⟩ := started
  cases result with
  | error error => exact .refl _
  | ok done =>
    simp only [commandRun, List.foldl_append] at consistent ⊢
    exact (commandLoop_run after consistent).2

/-- The signals that `shutdown_all` sends to an entry that is not terminated. -/
theorem shutdown_signals (ending : Ending) {bootstrap : Bootstrap} {entry : ProcessEntry}
    (member : entry ∈ bootstrap.table.entries) :
    ∃ earlier later, (shutdownAll ending bootstrap).calls =
      bootstrap.calls ++ earlier ++ terminationSignals entry ++ later := by
  obtain ⟨front, back, split⟩ := List.append_of_mem member
  obtain ⟨rest, whole⟩ := shutdown_calls ending bootstrap
  refine ⟨front.flatMap terminationSignals, back.flatMap terminationSignals ++ rest, ?_⟩
  rw [← whole, askedToEnd, split, List.flatMap_append, List.flatMap_cons]
  simp only [List.append_assoc]

/-- The life cycle of the children, from the start-up to the end of `shutdown_all`:
termination is final, no reaped process is signalled, every process that is left is
asked to end (after being continued where it was stopped), and none is left. -/
theorem process_life_cycle (distinct : DistinctPids forks) (runtimeDir : CString) (config : BootstrapConfig)
    (before after : List Iteration) (ending : Ending) :
    let started := startChildren forks runtimeDir config
    let asked := commandRun started (before ++ after)
    let ended := shutdownAll ending asked
    StaysTerminated (commandRun started before).table asked.table ∧
      StaysTerminated asked.table ended.table ∧
      (∀ earlier pid signal later, ended.calls = earlier ++ .kill pid signal :: later → .reaped pid ∉ earlier) ∧
      (∀ entry ∈ asked.table.entries, entry.state ≠ .terminated → ∃ earlier later, ended.calls = asked.calls ++ earlier ++
        (if entry.state = .paused then [.kill entry.pid .cont, .kill entry.pid .term] else [.kill entry.pid .term]) ++
        later) ∧
      ∀ entry ∈ ended.table.entries, entry.state = .terminated := by
  intro started asked ended
  have consistent : Consistent asked := (commandRun_consistent distinct runtimeDir config (before ++ after)).1
  obtain ⟨fresh, evolves⟩ := shutdown_consistent ending consistent
  refine ⟨(commandRun_evolves distinct runtimeDir config before after).staysTerminated, evolves.staysTerminated, ?_, ?_,
    shutdown_terminates ending asked⟩
  · intro earlier pid signal later record reaped
    rw [show (shutdownAll ending asked).calls = _ from record, List.pairwise_append] at fresh
    exact fresh.2.2 _ reaped _ (by simp) pid signal rfl rfl
  · intro entry member live
    have sent := shutdown_signals ending member
    rwa [terminationSignals, if_neg live] at sent

/-- The consecutive pids from `first` on. -/
def countingForks (first : Nat) : Forks := fun call => some (first + call : Nat)

theorem countingForks_distinct (first : Nat) : DistinctPids (countingForks first) := by
  intro one other pid here there
  simp only [countingForks, Option.some.injEq] at here there
  have equal : first + one = first + other := Int.ofNat_inj.mp (here.trans there.symm)
  omega

def smallConfig : BootstrapConfig := ⟨1, 1, 0, 0, 4, none⟩

def pausedOnce : Iteration := ⟨[], false, .line (CString.text "pause\n"), [true, false]⟩

def reapedOnce : Iteration := ⟨[101], false, .line (CString.text "stop\n"), []⟩

/-- A node is paused, a miner cannot be paused and ends by itself. -/
theorem smallConfig_ends :
    (shutdownAll ⟨[100], [], []⟩
      (commandRun (startChildren (countingForks 100) (CString.text "/tmp") smallConfig) [pausedOnce, reapedOnce])).calls =
        [.kill 100 .stop, .kill 101 .stop, .reaped 101, .kill 100 .cont, .kill 100 .term, .reaped 100] ∧
      ∀ entry ∈ (shutdownAll ⟨[100], [], []⟩ (commandRun (startChildren (countingForks 100) (CString.text "/tmp") smallConfig)
        ([pausedOnce] ++ [reapedOnce]))).table.entries, entry.state = .terminated :=
  ⟨by decide +kernel, (process_life_cycle (countingForks_distinct 100) _ smallConfig [pausedOnce] [reapedOnce]
    ⟨[100], [], []⟩).2.2.2.2⟩

/-- At its end the bootstrap process has an entry for every child it has forked, and
asks each one that has not been reaped to end, exactly when the start-up could not
fork a child that the table has no room for. -/
theorem forked_children_are_tracked (distinct : DistinctPids forks) (runtimeDir : CString) (config : BootstrapConfig)
    (iterations : List Iteration) (ending : Ending) :
    let started := startChildren forks runtimeDir config
    let asked := commandRun started iterations
    (∀ child ∈ started.2.forked, child.pid ∈ asked.table.pids ∧
        (.reaped child.pid ∉ asked.calls → .kill child.pid .term ∈ (shutdownAll ending asked).calls)) ↔
      RoomForAll forks config := by
  intro started asked
  obtain ⟨consistent, evolves⟩ := commandRun_consistent distinct runtimeDir config iterations
  rw [← startChildren_tracked distinct runtimeDir config, AllTracked, ← evolves.pids]
  constructor
  · intro tracked child member
    exact (tracked child member).1
  · intro tracked child member
    refine ⟨tracked child member, ?_⟩
    intro unreaped
    obtain ⟨entry, inside, same⟩ := List.mem_map.mp (tracked child member)
    have live : entry.state ≠ .terminated := by
      intro ended
      exact unreaped (same ▸ (consistent.known entry inside).mp ended)
    obtain ⟨earlier, later, record⟩ := shutdown_signals ending inside
    have sent : .kill entry.pid .term ∈ terminationSignals entry := by
      rw [terminationSignals, if_neg live]
      split
      · simp
      · simp
    rw [show (shutdownAll ending asked).calls = _ from record, ← same]
    simp [sent]

def crowdedConfig : BootstrapConfig := ⟨257, 0, 0, 0, 4, none⟩

/-- With 257 nodes the last one is forked and forgotten. -/
theorem crowdedConfig_orphan :
    parseArguments (["bootstrap", "257", "0", "0"].map CString.text) = .ok crowdedConfig ∧
      DistinctPids (countingForks 100) ∧
      ∃ child ∈ (startChildren (countingForks 100) (CString.text "/tmp") crowdedConfig).2.forked,
        child.pid ∉ (commandRun (startChildren (countingForks 100) (CString.text "/tmp") crowdedConfig) []).table.pids := by
  have distinct := countingForks_distinct 100
  have full : ¬ RoomForAll (countingForks 100) crowdedConfig := by
    intro room
    rcases room with small | ⟨call, _, failed⟩
    · exact absurd small (by decide)
    · cases failed
  rw [← startChildren_tracked distinct (CString.text "/tmp"), AllTracked] at full
  have pids := (commandRun_consistent distinct (CString.text "/tmp") crowdedConfig []).2.pids
  refine ⟨by decide +kernel, distinct, ?_⟩
  rw [pids]
  simpa using full

theorem smallConfig_tracked : DistinctPids (countingForks 100) ∧
    ∀ child ∈ (startChildren (countingForks 100) (CString.text "/tmp") smallConfig).2.forked,
      child.pid ∈ (commandRun (startChildren (countingForks 100) (CString.text "/tmp") smallConfig) [pausedOnce]).table.pids := by
  refine ⟨countingForks_distinct 100, ?_⟩
  intro child member
  have tracked := (forked_children_are_tracked (countingForks_distinct 100) (CString.text "/tmp") smallConfig [pausedOnce]
    ⟨[], [], []⟩).mpr
    (Or.inl (by decide))
  exact (tracked child member).1

end ProcessChain.Proofs.Processes
