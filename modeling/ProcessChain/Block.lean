import ProcessChain.Lib.FailStop
import ProcessChain.CString

/-! Blocks, their CSV lines and the deep copies made of them. Functions that
allocate memory are fail-stop: they return an error at the first refused
request, so they are written with the requests they make. -/

namespace ProcessChain
open Lib Lib.FailStop

inductive ProjectError
  | invalidArgument
  | invalidTransaction
  | invalidBlock
  | invalidBlockchain
  | memoryAllocation
  | fileOpen
  | fileRead
  | fileWrite
  | fileFormat
  | crypto
  | serialization
  | notFound
  | ipc
  | timeout
  | process
  | alreadyExists
deriving DecidableEq

namespace ProjectError

def code : ProjectError → Nat
  | invalidArgument => 1
  | invalidTransaction => 2
  | invalidBlock => 3
  | invalidBlockchain => 4
  | memoryAllocation => 5
  | fileOpen => 6
  | fileRead => 7
  | fileWrite => 8
  | fileFormat => 9
  | crypto => 10
  | serialization => 11
  | notFound => 12
  | ipc => 13
  | timeout => 14
  | process => 15
  | alreadyExists => 16

/-- `project_error_string` -/
def string : ProjectError → String
  | invalidArgument => "Invalid argument"
  | invalidTransaction => "Invalid transaction"
  | invalidBlock => "Invalid block"
  | invalidBlockchain => "Invalid blockchain"
  | memoryAllocation => "Memory allocation failed"
  | fileOpen => "Unable to open file"
  | fileRead => "Unable to read file"
  | fileWrite => "Unable to write file"
  | fileFormat => "Invalid file format"
  | crypto => "Cryptographic operation failed"
  | serialization => "Serialization failed"
  | notFound => "Requested element not found"
  | ipc => "IPC operation failed"
  | timeout => "Operation timed out"
  | process => "Process operation failed"
  | alreadyExists => "Resource already exists"

end ProjectError

abbrev Alloc := FailStop ProjectError

def malloc (size : Nat) : Alloc Unit := request size .memoryAllocation

def sha256HexLength : Nat := 64
def maxTransactionLength : Nat := 256
def maxTransactionsPerBlock : Nat := 16

structure Block where
  index : UInt64
  timestamp : UInt64
  previousHash : CString
  merkleRoot : CString
  nonce : UInt64
  transactions : List CString
deriving DecidableEq

def pointerSize : Nat := 8

def blockAddTransaction (block : Block) (transaction : CString) : Alloc Block := do
  failIf (transaction.length = 0 ∨ transaction.length ≥ maxTransactionLength) .invalidTransaction
  failIf (block.transactions.length ≥ maxTransactionsPerBlock) .invalidBlock
  malloc (transaction.length + 1)
  malloc (pointerSize * (block.transactions.length + 1))
  return { block with transactions := block.transactions ++ [transaction] }

def addTransactions (block : Block) (transactions : List CString) : Alloc Block :=
  transactions.foldlM blockAddTransaction block

def blockCopy (source : Block) : Alloc Block :=
  addTransactions { source with transactions := [] } source.transactions

def isLowercaseHexHash (hash : CString) : Bool :=
  hash.length == sha256HexLength &&
    hash.bytes.all fun character => (48 ≤ character && character ≤ 57) || (97 ≤ character && character ≤ 102)

def comma : CString := CString.text ","
def quote : CString := CString.text "\""
def doubleColon : CString := CString.text "::"

/-- A transaction whose characters would conflict with the CSV representation. -/
def conflictsWithCsv (transaction : CString) : Bool :=
  transaction.bytes.contains 34 || (cutAt doubleColon.bytes transaction.bytes).isSome ||
    transaction.bytes.contains 10 || transaction.bytes.contains 13

def joinedLength (transactions : List CString) : Nat :=
  (transactions.map CString.length).sum + 2 * (transactions.length - 1)

def csvPrefix (block : Block) : CString :=
  hex16 block.index ++ comma ++ hex16 block.timestamp ++ comma ++ block.previousHash ++ comma ++
    block.merkleRoot ++ comma ++ hex16 block.nonce ++ comma ++ quote

def blockToCsv (block : Block) : Alloc CString := do
  failIf (!isLowercaseHexHash block.previousHash || !isLowercaseHexHash block.merkleRoot) .invalidBlock
  failIf (block.transactions = [] ∨ block.transactions.length > maxTransactionsPerBlock) .invalidBlock
  forM block.transactions fun transaction => do
    failIf (transaction.length = 0 ∨ transaction.length ≥ maxTransactionLength) .invalidTransaction
    failIf (conflictsWithCsv transaction) .invalidTransaction
  let totalLength := 16 + 1 + 16 + 1 + sha256HexLength + 1 + sha256HexLength + 1 + 16 + 1 + 2 +
    joinedLength block.transactions
  malloc (totalLength + 1)
  failIf ((csvPrefix block).length > totalLength) .serialization
  let line := csvPrefix block ++ CString.join doubleColon block.transactions ++ quote
  failIf (line.length ≠ totalLength) .serialization
  return line

def parseHexU64 (text : CString) : Alloc UInt64 := do
  failIf (text.length ≠ 16) .fileFormat
  match scanNumeral 16 text.bytes with
  | none => fail .fileFormat
  | some number => do
    failIf (number.toULongLong.2 ∨ number.rest ≠ []) .fileFormat
    return number.toULongLong.1

structure Fields where
  index : Bytes
  timestamp : Bytes
  previousHash : Bytes
  merkleRoot : Bytes
  nonce : Bytes
  transactions : Bytes

/-- The first five fields cannot contain commas. -/
def splitFields (line : Bytes) : Option Fields := do
  let (index, rest) ← cutAt comma.bytes line
  let (timestamp, rest) ← cutAt comma.bytes rest
  let (previousHash, rest) ← cutAt comma.bytes rest
  let (merkleRoot, rest) ← cutAt comma.bytes rest
  let (nonce, rest) ← cutAt comma.bytes rest
  return ⟨index, timestamp, previousHash, merkleRoot, nonce, rest⟩

/-- `text[strcspn(text, "\r\n")] = '\0'` -/
def beforeLineBreak (text : Bytes) : Bytes := text.takeWhile fun byte => byte ≠ 13 ∧ byte ≠ 10

def blockFromCsv (line : CString) : Alloc Block := do
  malloc (line.length + 1)
  match splitFields (beforeLineBreak line.bytes) with
  | none => fail .fileFormat
  | some fields => do
    failIf (fields.transactions.head? ≠ some 34) .fileFormat
    failIf (fields.transactions.length < 2 ∨ fields.transactions.getLast? ≠ some 34) .fileFormat
    let quoted := fields.transactions.dropLast.tail
    let index ← parseHexU64 (.ofMemory fields.index)
    let timestamp ← parseHexU64 (.ofMemory fields.timestamp)
    let previousHash := CString.ofMemory fields.previousHash
    failIf (!isLowercaseHexHash previousHash) .fileFormat
    let merkleRoot := CString.ofMemory fields.merkleRoot
    failIf (!isLowercaseHexHash merkleRoot) .fileFormat
    let nonce ← parseHexU64 (.ofMemory fields.nonce)
    failIf (quoted = []) .fileFormat
    addTransactions ⟨index, timestamp, previousHash, merkleRoot, nonce, []⟩
      ((pieces doubleColon.bytes quoted).map CString.ofMemory)

/-- The bytes of a protocol payload: the line without its terminating NUL. -/
def blockSerialize (block : Block) : Alloc Bytes := do
  let line ← blockToCsv block
  malloc line.length
  return line.bytes

def blockDeserialize (buffer : Bytes) : Alloc Block := do
  failIf (buffer = []) .invalidArgument
  failIf (0 ∈ buffer) .serialization
  malloc (buffer.length + 1)
  blockFromCsv (.ofMemory buffer)

end ProcessChain
