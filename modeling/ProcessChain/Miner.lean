import ProcessChain.Blockchain
import ProcessChain.Mempool
import ProcessChain.Protocol

/-! A miner process: one thread handles messages, the other one mines. They share
the pool and, under the coordination lock, the view of the chain tip. A step of
a thread is one access to shared state or one query together with the local work
that follows it; what the thread has learned so far is its phase. -/

namespace ProcessChain
open Lib Lib.FailStop

/-- `memset(previous_hash, '0', SHA256_HEX_LENGTH)` -/
def zeroHash : CString := ⟨List.replicate sha256HexLength 48, by decide⟩

/-- How far a call of `resync_from_node` has come. -/
inductive Resync
  | askHeight
  | reset
  | askBlock (height : Nat)
  | install (nextIndex : UInt64) (previousHash : CString)

/-- The communication thread between two accesses to shared state. -/
inductive Communication
  | idle
  | committing (index : UInt64) (hash : CString)
  | resyncing (phase : Resync)

/-- The mining thread between two accesses to shared state. -/
inductive Mining
  | resyncing (phase : Resync)
  | ready
  | started (candidateIndex : UInt64) (previousHash : CString)
  | attempting (candidate : Block)
  | stopped

structure Miner where
  minerId : Nat
  mempool : Mempool
  nextIndex : UInt64
  previousHash : CString
  restartMining : Bool
  shuttingDown : Bool
  communication : Communication
  mining : Mining

namespace Miner

/-- A miner whose two threads have just been created. -/
def start (minerId : Nat) : Miner :=
  ⟨minerId, mempoolInit, 0, zeroHash, false, false, .idle, .resyncing .askHeight⟩

def sender (miner : Miner) : UInt32 := miner.minerId.toUInt32

/-- Both threads move the view with the index and the hash together. -/
def moveView (miner : Miner) (nextIndex : UInt64) (previousHash : CString) : Miner :=
  { miner with nextIndex, previousHash, restartMining := true }

end Miner

/-- What follows from the reply to the height query; `none` ends the resync. -/
def resyncHeight : Option Bytes → Option Resync
  | none | some [] => none
  | some payload => do
    let number ← scanNumeral 10 (CString.ofMemory (payload.take 31)).bytes
    let height ← number.toLong
    if height < 0 then none else if height = 0 then some .reset else some (.askBlock height.toNat)

/-- `"--index %ld"` -/
def blockQuery (height : Nat) : Bytes := ascii "--index " ++ decimal (height - 1)

variable (sha256 : HashFunction)

/-- What follows from the reply to the block query. -/
def resyncBlock : Option Bytes → HeapM (Option Resync)
  | none | some [] => return none
  | some payload => do
    if !(← succeeds (malloc (payload.length + 1))) then return none
    match ← attempt (blockFromCsv (.ofMemory payload)) with
    | .error _ => return none
    | .ok lastBlock =>
      match ← attempt (calculateBlockHash sha256 lastBlock) with
      | .error _ => return none
      | .ok lastHash => return some (.install (lastBlock.index + 1) lastHash)

/-- The payload is cut to the size of the transaction buffer. -/
def submittedTransaction (payload : Bytes) : CString := .ofMemory (payload.take (maxTransactionLength - 1))

/-- `"ERR %d %s"` -/
def submitError (miner : Miner) (error : ProjectError) : Option Message :=
  let reply := ascii "ERR " ++ decimal error.code ++ ascii " " ++ ascii error.string
  ipcSend .txAck miner.sender reply reply.length

def handleTxSubmit (miner : Miner) (payload : Bytes) : HeapM (Miner × Option Message) := do
  match ← attempt (validateTransaction (submittedTransaction payload)) with
  | .error error => return (miner, submitError miner error)
  | .ok _ =>
    match mempoolAdd miner.mempool (submittedTransaction payload) with
    | .error error => return (miner, submitError miner error)
    | .ok mempool => return ({ miner with mempool }, ipcSendText .txAck miner.sender "OK" 2)

namespace Miner

/-- The commit handler up to the moment it has cleaned the pool. -/
def handleBlockCommit (miner : Miner) (payload : Bytes) : HeapM Miner := do
  if payload = [] then return miner
  if !(← succeeds (malloc (payload.length + 1))) then return miner
  match ← attempt (blockFromCsv (.ofMemory payload)) with
  | .error _ => return miner
  | .ok block =>
    match ← attempt (calculateBlockHash sha256 block) with
    | .error _ => return miner
    | .ok hash =>
      return { miner with
        mempool := mempoolRemoveIncluded miner.mempool block.transactions
        communication := .committing block.index hash }

/-- The rest of the commit handler, under the coordination lock. -/
def finishCommit (miner : Miner) : Miner :=
  match miner.communication with
  | .committing index hash =>
    let advanced := if index ≥ miner.nextIndex then miner.moveView (index + 1) hash else miner
    { advanced with communication := .idle }
  | _ => miner

/-- A message is handled only when the thread is done with the one before. -/
def handleMessage (miner : Miner) (message : Message) : HeapM (Miner × Option Message) :=
  match miner.communication with
  | .idle =>
    match MessageType.ofCode message.type with
    | some .txSubmit => handleTxSubmit miner message.payload
    | some .blockCommit => do return (← miner.handleBlockCommit sha256 message.payload, none)
    | some .blockReject => return ({ miner with communication := .resyncing .askHeight }, none)
    | some .shutdown => return ({ miner with shuttingDown := true }, none)
    | _ => return (miner, none)
  | _ => return (miner, none)

end Miner

/-- Both threads can run a resync. -/
inductive Thread
  | communication
  | mining

namespace Miner

/-- The resync a thread is in. -/
def resync (miner : Miner) : Thread → Option Resync
  | .communication => match miner.communication with
    | .resyncing phase => some phase
    | _ => none
  | .mining => match miner.mining with
    | .resyncing phase => some phase
    | _ => none

/-- The thread goes on with the resync, or is done with it. -/
def continueResync (miner : Miner) (next : Option Resync) : Thread → Miner
  | .communication => { miner with communication := match next with
    | some phase => .resyncing phase
    | none => .idle }
  | .mining => { miner with mining := match next with
    | some phase => .resyncing phase
    | none => .ready }

/-- The last part of a resync, under the coordination lock. -/
def finishResync (miner : Miner) (thread : Thread) : Miner :=
  match miner.resync thread with
  | some .reset => (miner.moveView 0 zeroHash).continueResync none thread
  | some (.install nextIndex previousHash) => (miner.moveView nextIndex previousHash).continueResync none thread
  | _ => miner

/-- The beginning of a mining iteration, under the coordination lock. -/
def startAttempt (miner : Miner) : Miner :=
  match miner.mining with
  | .ready =>
    if miner.shuttingDown then { miner with mining := .stopped }
    else { miner with restartMining := false, mining := .started miner.nextIndex miner.previousHash }
  | _ => miner

end Miner

def buildCandidate (index : UInt64) (previousHash : CString) (batch : List CString) (timestamp nonce : UInt64) :
    Alloc Block := do
  let candidate ← addTransactions ⟨index, timestamp, previousHash, CString.text "", nonce, []⟩ batch
  let merkleRoot ← calculateMerkleRoot sha256 candidate.transactions
  return { candidate with merkleRoot }

/-- `propose_block` up to the message on the wire; the answer is not looked at. -/
def proposeBlock (miner : Miner) (candidate : Block) : HeapM (Option Message) := do
  match ← attempt (blockToCsv candidate) with
  | .error _ => return none
  | .ok line => return ipcSend .blockProposal miner.sender line.bytes line.length

namespace Miner

/-- The snapshot of the pool and the candidate built from it. -/
def buildAttempt (miner : Miner) (timestamp nonce : UInt64) : HeapM Miner := do
  match miner.mining with
  | .started candidateIndex previousHash =>
    let batch := mempoolSnapshot miner.mempool maxTransactionsPerBlock
    if batch = [] then return { miner with mining := .ready }
    match ← attempt (buildCandidate sha256 candidateIndex previousHash batch timestamp nonce) with
    | .error _ => return { miner with mining := .ready }
    | .ok candidate => return { miner with mining := .attempting candidate }
  | _ => return miner

/-- The end of `wait_or_abort` and, when the dice say so, the proposal. -/
def finishAttempt (miner : Miner) (mined : Bool) : HeapM (Miner × Option Message) := do
  match miner.mining with
  | .attempting candidate =>
    let done := { miner with mining := .ready }
    if miner.restartMining || miner.shuttingDown then return (done, none)
    if mined then return (done, ← proposeBlock miner candidate) else return (done, none)
  | _ => return (miner, none)

end Miner
end ProcessChain
