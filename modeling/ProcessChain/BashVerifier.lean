import ProcessChain.ChainFile

/-! `blockchain.sh --verify`, the verifier in Bash. A string is its bytes, because
the script runs in the C locale, and the file is its contents. For `sha256sum` the
script relies on the hash function that the processes use. Variables that count
lines are unbounded here, since a file is too short to make them overflow. -/

namespace ProcessChain.Bash
open Lib

variable (sha256 : HashFunction)

def sha256String (value : Bytes) : Bytes := digestToHex (sha256 value)

def u64HexLength : Nat := 16

def isLowercaseHex (character : UInt8) : Bool :=
  (48 ≤ character && character ≤ 57) || (97 ≤ character && character ≤ 102)

def isU64Hex (value : Bytes) : Bool := value.length == u64HexLength && value.all isLowercaseHex

def isHashHex (value : Bytes) : Bool := value.length == sha256HexLength && value.all isLowercaseHex

def isValidTransaction (transaction : Bytes) : Bool := transactionPattern.rmatch transaction

def splitTransactions (remaining : Bytes) : Option (List Bytes) :=
  match _found : cutAt doubleColon.bytes remaining with
  | some (transaction, rest) =>
    if transaction = [] then none else (splitTransactions rest).map fun later => transaction :: later
  | none => if remaining = [] then none else some [remaining]
termination_by remaining.length
decreasing_by exact cutAt_shorter (by decide) _found

def nextLevel : List Bytes → List Bytes
  | left :: right :: rest => sha256String sha256 (left ++ right) :: nextLevel rest
  | _ => []

theorem nextLevel_length (level : List Bytes) : (nextLevel sha256 level).length = level.length / 2 := by
  fun_induction nextLevel sha256 level with
  | case1 left right rest ih =>
    simp only [List.length_cons, ih]
    omega
  | case2 level short =>
    rcases level with _ | ⟨_, _ | ⟨_, _⟩⟩ <;> simp_all

def padLevel (level : List Bytes) : List Bytes :=
  if level.length % 2 ≠ 0 then level ++ [sha256String sha256 []] else level

theorem padLevel_length (level : List Bytes) : (padLevel sha256 level).length = 2 * ((level.length + 1) / 2) := by
  unfold padLevel
  split
  · simp only [List.length_append, List.length_singleton]
    omega
  · omega

/-- The loop ends at a level with one hash; it never starts with none. -/
def climbLevels (currentLevel : List Bytes) : List Bytes :=
  if 1 < (nextLevel sha256 (padLevel sha256 currentLevel)).length then
    climbLevels (nextLevel sha256 (padLevel sha256 currentLevel))
  else nextLevel sha256 (padLevel sha256 currentLevel)
termination_by currentLevel.length
decreasing_by
  rw [nextLevel_length, padLevel_length] at *
  omega

def calculateMerkleRoot (transactionInput : Bytes) : Option Bytes :=
  (splitTransactions transactionInput).map fun transactions =>
    (climbLevels sha256 (transactions.map (sha256String sha256))).headD []

/-- The variables that a line is read into. -/
structure Record where
  index : Bytes
  timestamp : Bytes
  previousHash : Bytes
  merkleRoot : Bytes
  nonce : Bytes
  transactions : Bytes
  extra : Bytes
deriving DecidableEq

def hashBlockFields (record : Record) : Bytes :=
  sha256String sha256 (record.index ++ record.timestamp ++ record.previousHash ++ record.merkleRoot ++ record.nonce ++
    record.transactions)

/-- The word before the first comma and what is left of the input. -/
def readWord (input : Bytes) : Bytes × Bytes := (cutAt comma.bytes input).getD (input, [])

/-- The last variable gets all that is left, but no separator behind a single word. -/
def readRest (input : Bytes) : Bytes :=
  let (word, rest) := readWord input
  if rest = [] then word else input

/-- `IFS=',' read -r index timestamp previous_hash merkle_root nonce transactions extra` -/
def readRecord (line : Bytes) : Record :=
  let (index, rest) := readWord line
  let (timestamp, rest) := readWord rest
  let (previousHash, rest) := readWord rest
  let (merkleRoot, rest) := readWord rest
  let (nonce, rest) := readWord rest
  let (transactions, rest) := readWord rest
  ⟨index, timestamp, previousHash, merkleRoot, nonce, transactions, readRest rest⟩

/-- `"${line%$'\r'}"` -/
def stripReturn (line : Bytes) : Bytes := if line.getLast? = some 13 then line.dropLast else line

/-- The pattern `\"*\"`. -/
def isQuoted (text : Bytes) : Bool := 2 ≤ text.length && text.head? == some 34 && text.getLast? == some 34

/-- The arithmetic of the shell wraps around from here on. -/
def intmaxBound : Nat := 2 ^ 63

/-- `16#$digits` -/
def base16 (digits : Bytes) : Int := Int.bmod (numeral 16 (digits.filterMap (digitOf 16))) (2 * intmaxBound)

/-- Goes on if the test holds, otherwise ends with a message. -/
def check (holds : Bool) (message : Bytes) : Except Bytes Unit := if holds then .ok () else .error message

structure Verification where
  lineNumber : Nat
  expectedIndex : Nat
  blockCount : Nat
  /-- The fields of the previous block, its transactions without quotes. -/
  previous : Record

def verifyRecord (state : Verification) (record : Record) : Except Bytes Verification := do
  let place := ascii "ERROR line " ++ decimal state.lineNumber ++ ascii ": "
  check (record.extra = [] && record.index ≠ [] && record.timestamp ≠ [] && record.previousHash ≠ [] &&
    record.merkleRoot ≠ [] && record.nonce ≠ [] && record.transactions ≠ []) (place ++ ascii "invalid number of CSV fields")
  check (isQuoted record.transactions) (place ++ ascii "transactions field must be quoted")
  let transactions := record.transactions.tail.dropLast
  check (isU64Hex record.index) (place ++ ascii "invalid index encoding")
  check (isU64Hex record.timestamp) (place ++ ascii "invalid timestamp encoding")
  check (isHashHex record.previousHash) (place ++ ascii "invalid previous hash")
  check (isHashHex record.merkleRoot) (place ++ ascii "invalid Merkle root encoding")
  check (isU64Hex record.nonce) (place ++ ascii "invalid nonce encoding")
  check (base16 record.index = state.expectedIndex)
    (place ++ ascii "wrong block index; expected " ++ decimal state.expectedIndex)
  match splitTransactions transactions with
  | none => .error (place ++ ascii "invalid transaction list")
  | some parsedTransactions =>
    -- the genesis transactions are exempt
    forM (if 0 < state.expectedIndex then parsedTransactions else []) fun transaction =>
      check (isValidTransaction transaction) (place ++ ascii "invalid transaction: " ++ transaction)
    match calculateMerkleRoot sha256 transactions with
    | none => .error (ascii "ERROR: invalid or empty transaction list")
    | some calculatedMerkle =>
      check (calculatedMerkle = record.merkleRoot) (place ++ ascii "invalid Merkle root")
      check (0 < state.expectedIndex → record.previousHash = hashBlockFields sha256 state.previous)
        (place ++ ascii "broken previous-hash link")
      return { state with
        expectedIndex := state.expectedIndex + 1
        blockCount := state.blockCount + 1
        previous := { record with transactions } }

def verifyLine (state : Verification) (line : Bytes) : Except Bytes Verification :=
  let counted := { state with lineNumber := state.lineNumber + 1 }
  if stripReturn line = [] then .ok counted else verifyRecord sha256 counted (readRecord (stripReturn line))

def verifyLines (state : Verification) : List (Line UInt8) → Except Bytes Verification
  | [] => .ok state
  | line :: rest => do verifyLines (← verifyLine sha256 state line.text) rest

/-- The number of blocks of an accepted file, or the message for a rejected one. -/
def verifyBlockchain (contents : Bytes) : Except Bytes Nat :=
  match linesOf 10 contents with
  | ⟨header, true⟩ :: rest => do
    check (stripReturn header = ascii "index,timestamp,prev_hash,merkle_root,nonce,transactions")
      (ascii "ERROR: invalid CSV header")
    let state ← verifyLines sha256 ⟨1, 0, 0, ⟨[], [], [], [], [], [], []⟩⟩ rest
    check (state.blockCount ≠ 0) (ascii "ERROR: blockchain contains only the header and no blocks")
    return state.blockCount
  | _ => .error (ascii "ERROR: blockchain CSV is empty")

end ProcessChain.Bash
