import ProcessChain.Crypto

/-! `calculate_merkle_root` on the arrays that it allocates, where every allocation
succeeds. An array is the list of its slots; an access outside of it has no result. -/

namespace ProcessChain

variable (sha256 : HashFunction)

/-- The array of one level. A slot has room for the characters of a hash and their NUL. -/
abbrev Slots := List Bytes

def callocSlots (count : Nat) : Slots := List.replicate count (List.replicate hashSlotSize 0)

/-- `sha256_hex` with a slot for its output. -/
def hashInto (slots : Slots) (index : Nat) (data : Bytes) : Option Slots :=
  if index < slots.length then some (slots.set index ((sha256Hex sha256 data).bytes ++ [0])) else none

/-- The loop over the transactions from slot `index` on. -/
def hashTransactions : List CString → Nat → Slots → Option Slots
  | [], _, currentLevel => some currentLevel
  | transaction :: rest, index, currentLevel => do
    hashTransactions rest (index + 1) (← hashInto sha256 currentLevel index transaction.bytes)

/-- An odd level gets one more hash, in the slot behind the last one. -/
def completeLevel (currentLevel : Slots) (currentCount : Nat) : Option Slots :=
  if currentCount % 2 ≠ 0 then hashInto sha256 currentLevel currentCount [] else some currentLevel

def evenCount (currentCount : Nat) : Nat := if currentCount % 2 ≠ 0 then currentCount + 1 else currentCount

theorem evenCount_le (currentCount : Nat) : evenCount currentCount ≤ currentCount + 1 := by
  unfold evenCount
  split <;> omega

/-- The loop over the pairs of an even level from slot `index` on. -/
def combineInto (currentLevel : Slots) (evenCount index : Nat) (nextLevel : Slots) : Option Slots :=
  if index < evenCount then do
    let left ← currentLevel[index]?
    let right ← currentLevel[index + 1]?
    let combinedHashes := left.take sha256HexLength ++ right.take sha256HexLength
    combineInto currentLevel evenCount (index + 2) (← hashInto sha256 nextLevel (index / 2) combinedHashes)
  else some nextLevel
termination_by evenCount - index

/-- The `do` loop over the levels. -/
def levelLoop (currentLevel : Slots) (currentCount : Nat) : Option Slots := do
  let currentLevel ← completeLevel sha256 currentLevel currentCount
  let nextCount := evenCount currentCount / 2
  let nextLevel ← combineInto sha256 currentLevel (evenCount currentCount) 0 (callocSlots (nextCount + 1))
  if 1 < nextCount then levelLoop nextLevel nextCount else return nextLevel
termination_by currentCount
decreasing_by
  have bound := evenCount_le currentCount
  omega

def merkleRootInSlots (transactions : List CString) : Option CString := do
  let leaves ← hashTransactions sha256 transactions 0 (callocSlots (transactions.length + 1))
  let last ← levelLoop sha256 leaves transactions.length
  return CString.ofMemory (← last[0]?)

end ProcessChain
