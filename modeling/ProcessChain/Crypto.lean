import ProcessChain.Block
import ProcessChain.Sha256
import ProcessChain.Lib.HashTree

/-! Merkle roots and block hashes over an arbitrary hash function. -/

namespace ProcessChain
open Lib Lib.FailStop

def digestToHex (digest : Digest) : Bytes :=
  digest.toList.flatMap fun byte => [hexDigit (byte.toNat / 16), hexDigit (byte.toNat % 16)]

theorem digestToHex_terminated (digest : Digest) : 0 ∉ digestToHex digest := by
  simp only [digestToHex, List.mem_flatMap, not_exists, not_and]
  intro byte _ member
  have small := byte.toNat_lt
  rcases List.mem_pair.mp member with zero | zero
  · exact hexDigit_ne_zero _ (by omega) zero.symm
  · exact hexDigit_ne_zero _ (by omega) zero.symm

variable (sha256 : HashFunction)

def sha256Hex (data : Bytes) : CString := ⟨digestToHex (sha256 data), digestToHex_terminated _⟩

def hashSlotSize : Nat := 65

/-- One pass over an even level: every pair of hashes is hashed as one text. -/
def combineHashes : List CString → List CString
  | left :: right :: rest => sha256Hex sha256 (left ++ right).bytes :: combineHashes rest
  | _ => []

theorem combineHashes_length (level : List CString) : (combineHashes sha256 level).length = level.length / 2 := by
  fun_induction combineHashes sha256 level with
  | case1 left right rest ih =>
    simp only [List.length_cons, ih]
    omega
  | case2 level short =>
    rcases level with _ | ⟨_, _ | ⟨_, _⟩⟩ <;> simp_all

/-- An odd level is completed with the hash of the empty string. -/
def evenLevel (level : List CString) : List CString :=
  if level.length % 2 ≠ 0 then level ++ [sha256Hex sha256 []] else level

theorem evenLevel_length (level : List CString) : (evenLevel sha256 level).length = 2 * ((level.length + 1) / 2) := by
  unfold evenLevel
  split
  · simp only [List.length_append, List.length_singleton]
    omega
  · omega

/-- The `do` loop: it runs at least once and ends at a level with one hash. -/
def merkleLevels (level : List CString) : Alloc (List CString) := do
  malloc (((evenLevel sha256 level).length / 2 + 1) * hashSlotSize)
  if 1 < (combineHashes sha256 (evenLevel sha256 level)).length then
    merkleLevels (combineHashes sha256 (evenLevel sha256 level))
  else return combineHashes sha256 (evenLevel sha256 level)
termination_by level.length
decreasing_by
  rw [combineHashes_length, evenLevel_length] at *
  omega

def calculateMerkleRoot (transactions : List CString) : Alloc CString := do
  failIf (transactions = []) .invalidArgument
  malloc ((transactions.length + 1) * hashSlotSize)
  let leaves := transactions.map fun transaction => sha256Hex sha256 transaction.bytes
  let last ← merkleLevels sha256 leaves
  return last.headD (CString.text "")

def buildBlockHashInput (block : Block) : Alloc CString := do
  failIf (block.previousHash.length ≠ sha256HexLength ∨ block.merkleRoot.length ≠ sha256HexLength) .invalidBlock
  failIf (block.transactions = []) .invalidBlock
  let fixedLength := 16 + 16 + sha256HexLength + sha256HexLength + 16
  let totalLength := fixedLength + joinedLength block.transactions
  malloc (totalLength + 1)
  let fixed := hex16 block.index ++ hex16 block.timestamp ++ block.previousHash ++ block.merkleRoot ++ hex16 block.nonce
  failIf (fixed.length ≠ fixedLength) .serialization
  let buffer := fixed ++ CString.join doubleColon block.transactions
  failIf (buffer.length ≠ totalLength) .serialization
  return buffer

def calculateBlockHash (block : Block) : Alloc CString := do
  let hashInput ← buildBlockHashInput block
  return sha256Hex sha256 hashInput.bytes

end ProcessChain
