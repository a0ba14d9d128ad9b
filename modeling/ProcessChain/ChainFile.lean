import ProcessChain.Lib.Lines
import ProcessChain.Node

/-! Chains in CSV files. A file is its contents; it is read with `fgets` through
a buffer of limited size, and an error of the disk is not considered. -/

namespace ProcessChain
open Lib Lib.FailStop

def blockchainCsvHeader : Bytes := ascii "index,timestamp,prev_hash,merkle_root,nonce,transactions"

def maxBlockCsvLineLength : Nat := 8192

def saveLines : List Block → Bytes → HeapM (Except ProjectError Bytes)
  | [], written => return .ok written
  | block :: rest, written => do
    match ← attempt (blockToCsv block) with
    | .error error => return .error error
    | .ok csvLine => saveLines rest (written ++ (csvLine.bytes ++ [10]))

/-- The contents of the written file. -/
def blockchainSaveCsv (chain : Blockchain) : HeapM (Except ProjectError Bytes) :=
  saveLines chain.blocks (blockchainCsvHeader ++ [10])

/-- What successive calls of `fgets` put into the buffer, and `feof` after each. -/
def fgetsAll (contents : Bytes) : List (Chunk UInt8) := chunksOf 10 (maxBlockCsvLineLength - 1) contents

/-- `strchr(line, '\n') == NULL && !feof(file)` -/
def exceedsBuffer (chunk : Chunk UInt8) : Bool :=
  !(CString.ofMemory chunk.letters).bytes.contains 10 && !chunk.atEnd

/-- The buffer after `line[strcspn(line, "\r\n")] = '\0'`. -/
def chunkLine (chunk : Chunk UInt8) : CString := .ofMemory (beforeLineBreak (CString.ofMemory chunk.letters).bytes)

def loadLines : List (Chunk UInt8) → Blockchain → HeapM (Except ProjectError Blockchain)
  | [], loadedChain => return .ok loadedChain
  | chunk :: rest, loadedChain => do
    if exceedsBuffer chunk then return .error .fileFormat
    if chunkLine chunk = CString.text "" then return (← loadLines rest loadedChain)
    match ← attempt (blockFromCsv (chunkLine chunk)) with
    | .error error => return .error error
    | .ok block =>
      match ← blockchainAppend loadedChain block with
      | (.error error, _) => return .error error
      | (.ok _, loadedChain) => loadLines rest loadedChain

def blockchainLoadCsv (contents : Bytes) : HeapM (Except ProjectError Blockchain) := do
  match fgetsAll contents with
  | [] => return .error .fileRead
  | header :: lines =>
    if exceedsBuffer header then return .error .fileFormat
    if (chunkLine header).bytes ≠ blockchainCsvHeader then return .error .fileFormat
    match ← loadLines lines blockchainInit with
    | .error error => return .error error
    | .ok loadedChain =>
      -- a valid blockchain state must contain at least the genesis block
      if loadedChain.count = 0 then return .error .fileFormat else return .ok loadedChain

def genesisPathSize : Nat := 300

/-- `socket` is how the creation of the node's socket ends, `initialState` the
contents of `initial_state.csv` in the runtime directory, if it is there. -/
def nodeInit (nodeId : Nat) (runtimeDir : CString) (socket : Except ProjectError Unit) (initialState : Option Bytes) :
    HeapM (Except ProjectError Node) := do
  match socket with
  | .error error => return .error error
  | .ok _ =>
    if (runtimeDir.bytes ++ ascii "/initial_state.csv").length ≥ genesisPathSize then return .error .invalidArgument
    match initialState with
    | none => return .ok ⟨nodeId, blockchainInit, []⟩
    | some contents =>
      match ← blockchainLoadCsv contents with
      | .error error => return .error error
      | .ok chain => return .ok ⟨nodeId, chain, []⟩

end ProcessChain
