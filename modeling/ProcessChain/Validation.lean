import ProcessChain.Crypto
import ProcessChain.Lib.Alphabet

/-! The rules for transactions, blocks, links and whole chains. -/

namespace ProcessChain
open Lib Lib.FailStop

def digits : Bytes := ascii "0123456789"
def alnum : Bytes := digits ++ ascii "abcdefghijklmnopqrstuvwxyz" ++ ascii "ABCDEFGHIJKLMNOPQRSTUVWXYZ"

/-- `^[[:alnum:]]+ pays [[:alnum:]]+ [1-9][0-9]* coins$` -/
def transactionPattern : RegularExpression UInt8 :=
  repeated (oneOf alnum) * literal (ascii " pays ") * repeated (oneOf alnum) * literal (ascii " ") *
    oneOf (ascii "123456789") * (oneOf digits).star * literal (ascii " coins")

def validateTransaction (transaction : CString) : Alloc Unit := do
  failIf (transaction.length = 0 ∨ transaction.length ≥ maxTransactionLength) .invalidTransaction
  -- regcomp and regexec allocate, and every failure of theirs is an invalid transaction
  request 0 .invalidTransaction
  request 0 .invalidTransaction
  failIf (!transactionPattern.rmatch transaction.bytes) .invalidTransaction

def validateHashString (hash : CString) : Alloc Unit := do
  failIf (hash.length ≠ sha256HexLength) .invalidBlock
  forM hash.bytes fun character =>
    failIf (!isDigit character && !(97 ≤ character && character ≤ 102)) .invalidBlock

def validateBlockStructure (block : Block) : Alloc Unit := do
  (validateHashString block.previousHash).orFail .invalidBlock
  (validateHashString block.merkleRoot).orFail .invalidBlock
  failIf (block.transactions = [] ∨ block.transactions.length > maxTransactionsPerBlock) .invalidBlock
  if block.index = 0 then
    forM block.transactions fun transaction =>
      failIf (transaction.length = 0 ∨ transaction.length ≥ maxTransactionLength) .invalidBlock
  else
    forM block.transactions fun transaction => (validateTransaction transaction).orFail .invalidBlock

variable (sha256 : HashFunction)

def validateBlockMerkleRoot (block : Block) : Alloc Unit := do
  validateBlockStructure block
  let calculatedRoot ← calculateMerkleRoot sha256 block.transactions
  failIf (calculatedRoot ≠ block.merkleRoot) .invalidBlock

def validateBlockLink (previous current : Block) : Alloc Unit := do
  (validateBlockMerkleRoot sha256 previous).orFail .invalidBlock
  (validateBlockMerkleRoot sha256 current).orFail .invalidBlock
  failIf (current.index ≠ previous.index + 1) .invalidBlockchain
  failIf (current.timestamp < previous.timestamp) .invalidBlockchain
  let previousBlockHash ← calculateBlockHash sha256 previous
  failIf (current.previousHash ≠ previousBlockHash) .invalidBlockchain

/-- `validate_blockchain` reads only the stored blocks of a chain. -/
def validateBlockchain (blocks : List Block) : Alloc Unit := do
  match blocks with
  | [] => fail .invalidBlockchain
  | first :: _ => do
    failIf (first.index ≠ 0) .invalidBlockchain
    forM blocks fun block => (validateBlockMerkleRoot sha256 block).orFail .invalidBlockchain
    forM (blocks.zip blocks.tail) fun (previous, current) =>
      (validateBlockLink sha256 previous current).orFail .invalidBlockchain

end ProcessChain
