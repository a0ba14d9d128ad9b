import ProcessChain.Validation

/-! The stored chain: a growing array of blocks. The array never holds more
blocks than fit in the address space, because the allocator cannot grant a
larger one. A pointer into the array is modelled by its position. -/

namespace ProcessChain
open Lib Lib.FailStop

abbrev Heap := Supply
abbrev HeapM := StateM Heap

def ptrdiffMax : Nat := 2 ^ 63 - 1

def attempt {α : Type} (program : Alloc α) : HeapM (Except ProjectError α) := program.run ptrdiffMax

/-- `f(...) == PROJECT_OK` -/
def succeeds (program : Alloc Unit) : HeapM Bool := do
  match ← attempt program with
  | .ok _ => return true
  | .error _ => return false

def sizeofBlock : Nat := 176

structure Blockchain where
  blocks : List Block
  capacity : Nat
  fits : blocks.length ≤ capacity
  allocated : capacity * sizeofBlock ≤ ptrdiffMax

namespace Blockchain

def count (chain : Blockchain) : Nat := chain.blocks.length

/-- The last block by position. -/
def last (chain : Blockchain) : Option Block := chain.blocks.getLast?

theorem count_lt (chain : Blockchain) : chain.count < 2 ^ 64 := by
  have fits := chain.fits
  have allocated := chain.allocated
  simp only [sizeofBlock, ptrdiffMax] at allocated
  simp only [count]
  omega

end Blockchain

def blockchainInit : Blockchain := ⟨[], 0, by simp, by simp⟩

def initialBlockchainCapacity : Nat := 4

/-- The same blocks in an array with room for one more. -/
structure Reserved (chain : Blockchain) where
  grown : Blockchain
  same : grown.blocks = chain.blocks
  room : grown.blocks.length < grown.capacity

def blockchainGrow (chain : Blockchain) (full : chain.blocks.length = chain.capacity) : Alloc (Reserved chain) := do
  let newCapacity := if chain.capacity = 0 then initialBlockchainCapacity else chain.capacity * 2
  malloc (newCapacity * sizeofBlock)
  if allocated : newCapacity * sizeofBlock ≤ ptrdiffMax then
    have larger : chain.blocks.length < newCapacity := by
      simp only [newCapacity, initialBlockchainCapacity]
      split <;> omega
    return ⟨⟨chain.blocks, newCapacity, Nat.le_of_lt larger, allocated⟩, rfl, larger⟩
  else fail .memoryAllocation

def blockchainReserve (chain : Blockchain) : Alloc (Reserved chain) :=
  if full : chain.blocks.length = chain.capacity then blockchainGrow chain full
  else return ⟨chain, rfl, Nat.lt_of_le_of_ne chain.fits full⟩

/-- On failure the blocks are unchanged, but the array may already have grown. -/
def blockchainAppend (chain : Blockchain) (block : Block) : HeapM (Except ProjectError Unit × Blockchain) := do
  match ← attempt (blockchainReserve chain) with
  | .error error => return (.error error, chain)
  | .ok ⟨grown, _, room⟩ =>
    match ← attempt (blockCopy block) with
    | .error error => return (.error error, grown)
    | .ok copy =>
      have fits : (grown.blocks ++ [copy]).length ≤ grown.capacity := by
        rw [List.length_append]
        exact room
      return (.ok (), ⟨grown.blocks ++ [copy], grown.capacity, fits, grown.allocated⟩)

def blockchainGetByIndex (chain : Blockchain) (index : UInt64) : Option Nat :=
  chain.blocks.findIdx? fun block => block.index == index

/-- Blocks whose hash cannot be computed are skipped. -/
def scanForHash (sha256 : HashFunction) (hash : CString) : List Block → Nat → HeapM (Option Nat)
  | [], _ => return none
  | block :: rest, position => do
    match ← attempt (calculateBlockHash sha256 block) with
    | .error _ => scanForHash sha256 hash rest (position + 1)
    | .ok calculatedHash =>
      if calculatedHash = hash then return some position else scanForHash sha256 hash rest (position + 1)

def blockchainGetByHash (sha256 : HashFunction) (chain : Blockchain) (hash : CString) : HeapM (Option Nat) :=
  if hash.length ≠ sha256HexLength then return none else scanForHash sha256 hash chain.blocks 0

end ProcessChain
