import ProcessChain.Bootstrap
import ProcessChain.ChainFile
import ProcessChain.Client
import ProcessChain.Commands
import ProcessChain.Network

/-! How the system is started. The bootstrap process makes a runtime directory, copies
the file that it was given into it and starts the children; a node looks for that copy
under the directory that it is given as an argument. -/

namespace ProcessChain
open Lib

/-- The contents of the file under a path; `none` where nothing can be opened. -/
abbrev Files := Bytes → Option Bytes

def runtimeDirBufferSize : Nat := 256

def logSubdirName : Bytes := ascii "logs"

def initialStateFilename : Bytes := ascii "initial_state.csv"

/-- `made` and `logsMade` are the outcomes of the calls of `mkdir`. -/
def createRuntimeDirectory (pid : Nat) (made logsMade : Bool) : Except ProjectError CString :=
  let outDir := CString.ofMemory (ascii "/tmp/blockchain_" ++ decimal pid)
  if outDir.length ≥ runtimeDirBufferSize then .error .invalidArgument
  else if !made then .error .fileWrite
  else if (outDir.bytes ++ ascii "/" ++ logSubdirName).length ≥ runtimeDirBufferSize + (logSubdirName.length + 1) + 1 then
    .error .invalidArgument
  else if !logsMade then .error .fileWrite
  else .ok outDir

def copyBufferSize : Nat := 4096

/-- One turn of the copy loop: how much `fread` gets before an error, if there is one,
and whether `fwrite` takes all of it. -/
structure CopyTurn where
  failsAfter : Option Nat
  written : Bool

/-- Past the listed turns nothing fails. -/
def nextTurn (turns : List CopyTurn) : CopyTurn := turns.headD ⟨none, true⟩

/-- What `fread` gets. -/
def fread (turn : CopyTurn) (source : Bytes) : Bytes :=
  source.take (min copyBufferSize (turn.failsAfter.getD copyBufferSize))

/-- The loop of `copy_initial_state`: the copy so far, and whether the source has had an error. -/
def copyLoop (source dest : Bytes) (hadError : Bool) (turns : List CopyTurn) : Except ProjectError (Bytes × Bool) :=
  if _ : fread (nextTurn turns) source = [] then .ok (dest, hadError || (nextTurn turns).failsAfter.isSome)
  else if !(nextTurn turns).written then .error .fileWrite
  else copyLoop (source.drop (fread (nextTurn turns) source).length) (dest ++ fread (nextTurn turns) source)
    (hadError || (nextTurn turns).failsAfter.isSome) turns.tail
termination_by source.length
decreasing_by
  rename_i ended _
  have positive := List.length_pos_iff.mpr ended
  have shorter : (fread (nextTurn turns) source).length ≤ source.length := List.length_take_le' _ _
  simp only [List.length_drop]
  omega

structure Copying where
  destOpened : Bool
  turns : List CopyTurn
  destClosed : Bool

def copyInitialState (files : Files) (sourcePath runtimeDir : CString) (copying : Copying) : Except ProjectError Files :=
  let destPath := runtimeDir.bytes ++ ascii "/" ++ initialStateFilename
  if destPath.length ≥ runtimeDirBufferSize + (initialStateFilename.length + 1) + 1 then .error .invalidArgument
  else
    match files sourcePath.bytes with
    | none => .error .fileOpen
    | some source =>
      if !copying.destOpened then .error .fileOpen
      else
        match copyLoop source [] false copying.turns with
        | .error error => .error error
        | .ok (dest, hadError) =>
          if !copying.destClosed || hadError then .error .fileWrite
          else .ok (Function.update files destPath (some dest))

/-- What the operating system answers while the bootstrap process starts. -/
structure StartAnswers where
  pid : Nat
  made : Bool
  logsMade : Bool
  copying : Copying
  forks : Forks

structure Launched where
  config : BootstrapConfig
  runtimeDir : CString
  files : Files
  children : Except ProjectError Unit × Startup

/-- `main` of the bootstrap process up to its command loop. -/
def bootstrapMain (argv : List CString) (files : Files) (answers : StartAnswers) : Except ProjectError Launched := do
  let config ← parseArguments argv
  let runtimeDir ← createRuntimeDirectory answers.pid answers.made answers.logsMade
  let files ← match config.initialStatePath with
    | none => pure files
    | some path => copyInitialState files path runtimeDir answers.copying
  return ⟨config, runtimeDir, files, startChildren answers.forks runtimeDir config⟩

def atoi (text : Bytes) : Int :=
  match scanNumeral 10 text with
  | none => 0
  | some number => number.toInt

/-- `main` of a node up to the end of `node_init`. A negative number is not considered;
the bootstrap process passes none. -/
def nodeMain (argv : List Bytes) (socket : Except ProjectError Unit) (files : Files) : HeapM (Except ProjectError Node) :=
  match argv with
  | [_, nodeId, runtimeDir] =>
    if atoi nodeId < 0 then return .error .invalidArgument
    else nodeInit (atoi nodeId).toNat (.ofMemory runtimeDir) socket (files (runtimeDir ++ ascii "/initial_state.csv"))
  | _ => return .error .invalidArgument

end ProcessChain
