import ProcessChain.Miner

/-! One miner among whatever may reach it. A section under the coordination lock
is one event, and so is a stretch of work between two of them; the events of the
two threads come in any order, with messages and answers of any content. -/

namespace ProcessChain
open Lib Lib.FailStop

inductive MinerEvent
  | message (message : Message) (heap : Heap)
  | finishCommit
  /-- The answer to a query of a resync, or its failure. -/
  | answer (thread : Thread) (reply : Option Bytes) (heap : Heap)
  | finishResync (thread : Thread)
  | startAttempt
  | buildAttempt (timestamp nonce : UInt64) (heap : Heap)
  /-- The mining thread has the lock in `wait_or_abort`, for the first time or after a wait. -/
  | wake (timedOut mined : Bool) (heap : Heap)
  /-- A signal to terminate. -/
  | terminate

namespace Miner

/-- One turn of the loop in `wait_or_abort`; `none` waits again. -/
def waitOrAbort (miner : Miner) (timedOut : Bool) : Option Bool :=
  if !miner.restartMining && !miner.shuttingDown && !timedOut then none
  else some (miner.restartMining || miner.shuttingDown)

variable (sha256 : HashFunction)

def answerResync (miner : Miner) (thread : Thread) (reply : Option Bytes) (heap : Heap) : Miner :=
  match miner.resync thread with
  | some .askHeight => miner.continueResync (resyncHeight reply) thread
  | some (.askBlock _) => miner.continueResync (resyncBlock sha256 reply heap).1 thread
  | _ => miner

def step (miner : Miner) : MinerEvent → Miner
  | .message message heap => (miner.handleMessage sha256 message heap).1.1
  | .finishCommit => miner.finishCommit
  | .answer thread reply heap => miner.answerResync sha256 thread reply heap
  | .finishResync thread => miner.finishResync thread
  | .startAttempt => miner.startAttempt
  | .buildAttempt timestamp nonce heap => (miner.buildAttempt sha256 timestamp nonce heap).1
  | .wake timedOut mined heap =>
    match miner.waitOrAbort timedOut with
    | none => miner
    | some _ => (miner.finishAttempt mined heap).1.1
  | .terminate => { miner with shuttingDown := true }

def run (miner : Miner) (events : List MinerEvent) : Miner := events.foldl (step sha256) miner

end Miner
end ProcessChain
