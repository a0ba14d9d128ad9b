import ProcessChain.ProcessInfo

/-! The bootstrap process: it starts the children, passes signals on to them and
ends them. What the operating system answers is given from outside: the results
of the `fork` calls, of the `kill` calls of one operation and of the `waitpid`
calls. The calls that matter to the children are recorded in order. -/

namespace ProcessChain
open Lib

def intMax : Int := 2 ^ 31 - 1

def parseNonNegativeInt (text : CString) : Except ProjectError Nat :=
  match scanNumeral 10 text.bytes with
  | none => .error .invalidArgument
  | some number =>
    match number.toLong with
    | none => .error .invalidArgument
    | some value =>
      if number.rest ≠ [] ∨ value < 0 ∨ value > intMax then .error .invalidArgument else .ok value.toNat

structure BootstrapConfig where
  numNodes : Nat
  numMiners : Nat
  numClients : Nat
  transactionFrequency : Nat
  difficulty : Nat
  initialStatePath : Option CString
deriving DecidableEq

def defaultDifficulty : Nat := 4
def defaultTransactionFrequency : Nat := 0

/-- The first argument is the name of the program. -/
def parseArguments (argv : List CString) : Except ProjectError BootstrapConfig :=
  match argv with
  | _ :: nodes :: miners :: clients :: optional => do
    if optional.length > 3 then throw .invalidArgument
    let numNodes ← parseNonNegativeInt nodes
    let numMiners ← parseNonNegativeInt miners
    let numClients ← parseNonNegativeInt clients
    if numNodes < 1 then throw .invalidArgument
    let transactionFrequency ← match optional[0]? with
      | some text => parseNonNegativeInt text
      | none => pure defaultTransactionFrequency
    let difficulty ← match optional[1]? with
      | some text => parseNonNegativeInt text
      | none => pure defaultDifficulty
    return ⟨numNodes, numMiners, numClients, transactionFrequency, difficulty, optional[2]?⟩
  | _ => .error .invalidArgument

structure Child where
  pid : Pid
  binary : String
  argv : List Bytes
deriving DecidableEq

structure Startup where
  table : ProcessTable
  forked : List Child

/-- The result of each call of `fork`, in order; `none` is a failure. -/
abbrev Forks := Nat → Option Pid

variable (forks : Forks)

/-- No call of `fork` has failed so far, so the next one is numbered by the children. -/
def spawnProcess (binary : String) (argv : List Bytes) (startup : Startup) : Except ProjectError Pid × Startup :=
  match forks startup.forked.length with
  | none => (.error .process, startup)
  | some pid => (.ok pid, { startup with forked := startup.forked ++ [⟨pid, binary, argv⟩] })

/-- The body of the three spawn loops, from `id` on. -/
def spawnLoop (type : ProcessType) (binary : String) (argv : Nat → List Bytes) :
    Nat → Nat → Startup → Except ProjectError Unit × Startup
  | 0, _, startup => (.ok (), startup)
  | remaining + 1, id, startup =>
    match spawnProcess forks binary (argv id) startup with
    | (.error error, startup) => (.error error, startup)
    | (.ok pid, startup) =>
      match processTableAdd startup.table type id pid with
      | .error error => (.error error, startup)
      | .ok table => spawnLoop type binary argv remaining (id + 1) { startup with table }

variable (runtimeDir : CString)

def spawnNodes (count : Nat) : Startup → Except ProjectError Unit × Startup :=
  spawnLoop forks .node "bin/node" (fun id => [ascii "node", decimal id, runtimeDir.bytes]) count 0

def spawnMiners (count difficulty : Nat) : Startup → Except ProjectError Unit × Startup :=
  spawnLoop forks .miner "bin/miner" (fun id => [ascii "miner", decimal id, runtimeDir.bytes, decimal difficulty]) count 0

def spawnClients (count transactionFrequency : Nat) : Startup → Except ProjectError Unit × Startup :=
  spawnLoop forks .client "bin/client"
    (fun id => [ascii "client", decimal id, runtimeDir.bytes, decimal transactionFrequency]) count 0

/-- The next loop is run only if the one before it has succeeded. -/
def andSpawn (first : Except ProjectError Unit × Startup) (next : Startup → Except ProjectError Unit × Startup) :
    Except ProjectError Unit × Startup :=
  match first with
  | (.error error, startup) => (.error error, startup)
  | (.ok _, startup) => next startup

/-- The children started by `main`, and whether all of them could be started. -/
def startChildren (config : BootstrapConfig) : Except ProjectError Unit × Startup :=
  andSpawn
    (andSpawn (spawnNodes forks runtimeDir config.numNodes ⟨processTableInit, []⟩)
      (spawnMiners forks runtimeDir config.numMiners config.difficulty))
    (spawnClients forks runtimeDir config.numClients config.transactionFrequency)

inductive Signal
  | stop
  | cont
  | term
  | kill
deriving DecidableEq

/-- A call of `kill`, whatever its result, or a child that `waitpid` has returned. -/
inductive SystemCall
  | kill (pid : Pid) (signal : Signal)
  | reaped (pid : Pid)
deriving DecidableEq

structure Bootstrap where
  table : ProcessTable
  calls : List SystemCall
  running : Bool

def markTerminated (table : ProcessTable) (pid : Pid) : ProcessTable :=
  match processTableFindByPid table pid with
  | none => table
  | some position =>
    table.withStates (table.entries.modify position fun entry => { entry with state := .terminated })
      (List.length_modify ..)

/-- The pids that `waitpid` returns before it has no more. -/
def reapTerminatedChildren (returned : List Pid) (bootstrap : Bootstrap) : Bootstrap :=
  returned.foldl (fun bootstrap pid =>
    { bootstrap with table := markTerminated bootstrap.table pid, calls := bootstrap.calls ++ [.reaped pid] }) bootstrap

/-- Sends a signal to the entries in one state and moves those that got it to another. -/
def signalEntries (current : ProcessState) (signal : Signal) (next : ProcessState) :
    List Bool → List ProcessEntry → List ProcessEntry × List SystemCall
  | _, [] => ([], [])
  | outcomes, entry :: rest =>
    if entry.state = current then
      let later := signalEntries current signal next outcomes.tail rest
      ((if outcomes.headD true then { entry with state := next } else entry) :: later.1, .kill entry.pid signal :: later.2)
    else
      let later := signalEntries current signal next outcomes rest
      (entry :: later.1, later.2)

theorem signalEntries_length (current : ProcessState) (signal : Signal) (next : ProcessState) (outcomes : List Bool)
    (entries : List ProcessEntry) : (signalEntries current signal next outcomes entries).1.length = entries.length := by
  induction entries generalizing outcomes with
  | nil => rfl
  | cons entry rest ih =>
    simp only [signalEntries]
    split <;> simp [ih]

def signalAll (current : ProcessState) (signal : Signal) (next : ProcessState) (outcomes : List Bool)
    (bootstrap : Bootstrap) : Bootstrap :=
  { bootstrap with
    table := bootstrap.table.withStates (signalEntries current signal next outcomes bootstrap.table.entries).1
      (signalEntries_length ..)
    calls := bootstrap.calls ++ (signalEntries current signal next outcomes bootstrap.table.entries).2 }

/-- `outcomes` are the results of the `kill` calls; past the list they succeed. -/
def pauseAll (outcomes : List Bool) : Bootstrap → Bootstrap := signalAll .running .stop .paused outcomes

def resumeAll (outcomes : List Bool) : Bootstrap → Bootstrap := signalAll .paused .cont .running outcomes

/-- The signals that ask one child to end. A stopped process cannot act on
`SIGTERM` until continued. -/
def terminationSignals (entry : ProcessEntry) : List SystemCall :=
  if entry.state = .terminated then []
  else if entry.state = .paused then [.kill entry.pid .cont, .kill entry.pid .term]
  else [.kill entry.pid .term]

def remaining (table : ProcessTable) : Nat := table.entries.countP fun entry => entry.state ≠ .terminated

/-- The loop that waits for the children. Each pass reaps what has ended; the
deadline passes after the last listed pass. -/
def awaitChildren (returned : List Pid) : List (List Pid) → Bootstrap → Bootstrap
  | [], bootstrap => reapTerminatedChildren returned bootstrap
  | next :: later, bootstrap =>
    let bootstrap := reapTerminatedChildren returned bootstrap
    if remaining bootstrap.table > 0 then awaitChildren next later bootstrap else bootstrap

def killRemaining (entry : ProcessEntry) : List SystemCall :=
  if entry.state ≠ .terminated then [.kill entry.pid .kill] else []

def terminateAll (table : ProcessTable) : ProcessTable :=
  table.withStates (table.entries.map fun entry => { entry with state := .terminated }) (List.length_map _)

/-- The passes of the waiting loop, and the pids returned while the rest is drained. -/
structure Ending where
  returned : List Pid
  passes : List (List Pid)
  drained : List Pid

def shutdownAll (ending : Ending) (bootstrap : Bootstrap) : Bootstrap :=
  let asked := { bootstrap with calls := bootstrap.calls ++ bootstrap.table.entries.flatMap terminationSignals }
  let waited := awaitChildren ending.returned ending.passes asked
  if remaining waited.table > 0 then
    { waited with
      table := terminateAll waited.table
      calls := waited.calls ++ waited.table.entries.flatMap killRemaining ++ ending.drained.map .reaped }
  else waited

/-- What `fgets` reads: a line, a signal instead of one, or the end of the input. -/
inductive Input
  | line (text : CString)
  | interrupted
  | closed

def stripLineEnd (text : Bytes) : Bytes := (text.reverse.dropWhile fun byte => byte = 10 ∨ byte = 13).reverse

/-- The commands that send requests leave the children alone, as does an unknown one. -/
def handleLine (line : Bytes) (outcomes : List Bool) (bootstrap : Bootstrap) : Bootstrap :=
  if ascii "submit " <+: line ∨ ascii "request blockchain" <+: line ∨ ascii "request block " <+: line ∨
      ascii "save blockchain " <+: line then bootstrap
  else if line = ascii "pause" then pauseAll outcomes bootstrap
  else if line = ascii "resume" then resumeAll outcomes bootstrap
  else if line = ascii "status" then bootstrap
  else if line = ascii "stop" then { bootstrap with running := false }
  else bootstrap

structure Iteration where
  returned : List Pid
  shutdownRequested : Bool
  input : Input
  outcomes : List Bool

/-- One pass of the command loop. -/
def commandLoop (bootstrap : Bootstrap) (iteration : Iteration) : Bootstrap :=
  if !bootstrap.running then bootstrap
  else
    let bootstrap := reapTerminatedChildren iteration.returned bootstrap
    if iteration.shutdownRequested then { bootstrap with running := false }
    else
      match iteration.input with
      | .interrupted => bootstrap
      | .closed => { bootstrap with running := false }
      | .line text =>
        let line := stripLineEnd text.bytes
        if line = [] then bootstrap else handleLine line iteration.outcomes bootstrap

/-- The process from the end of the start-up to its call of `shutdown_all`: without
the command loop where a child could not be started. -/
def commandRun (started : Except ProjectError Unit × Startup) (iterations : List Iteration) : Bootstrap :=
  match started with
  | (.error _, startup) => ⟨startup.table, [], false⟩
  | (.ok _, startup) => iterations.foldl commandLoop ⟨startup.table, [], true⟩

end ProcessChain
