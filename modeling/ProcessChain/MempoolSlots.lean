import ProcessChain.Mempool

/-! The calls of the pool, and the pool in the memory that it occupies: an array of
slots and a count. An access outside of the array or of a slot has no result. -/

namespace ProcessChain

/-- A call with its arguments; a null pointer is `none` or `false`. -/
inductive PoolCall
  | add (transaction : Option CString)
  | snapshot (out : Bool) (maxCount : Nat)
  | removeIncluded (included : Option (List CString))

inductive PoolReply
  | added (result : Except ProjectError Unit)
  | copied (transactions : List CString)
  | removed

def Mempool.call (pool : Mempool) : PoolCall → PoolReply × Mempool
  | .add none => (.added (.error .invalidArgument), pool)
  | .add (some transaction) =>
    match mempoolAdd pool transaction with
    | .error error => (.added (.error error), pool)
    | .ok grown => (.added (.ok ()), grown)
  | .snapshot false _ => (.copied [], pool)
  | .snapshot true maxCount => (.copied (mempoolSnapshot pool maxCount), pool)
  | .removeIncluded none => (.removed, pool)
  | .removeIncluded (some included) => (.removed, mempoolRemoveIncluded pool included)

/-- `char transactions[MEMPOOL_CAPACITY][MAX_TRANSACTION_LENGTH]` and the count. -/
structure PoolMemory where
  slots : List Bytes
  count : Nat
  array : slots.length = mempoolCapacity
  sized : ∀ slot ∈ slots, slot.length = maxTransactionLength

namespace PoolMemory

/-- `mempool_init` leaves the slots as they are. -/
def init (memory : PoolMemory) : PoolMemory := { memory with count := 0 }

/-- The string in a slot, which has to end inside of it. -/
def read (memory : PoolMemory) (index : Nat) : Option CString := do
  let slot ← memory.slots[index]?
  if 0 ∈ slot then some (.ofMemory slot) else none

theorem set_sized (memory : PoolMemory) {index : Nat} {slot : Bytes} (size : slot.length = maxTransactionLength) :
    ∀ other ∈ memory.slots.set index slot, other.length = maxTransactionLength := by
  intro other member
  rcases List.mem_or_eq_of_mem_set member with earlier | rfl
  · exact memory.sized other earlier
  · exact size

theorem overwritten_length {slot : Bytes} {string : CString} (size : slot.length = maxTransactionLength)
    (short : string.length < maxTransactionLength) :
    (string.bytes ++ 0 :: slot.drop (string.length + 1)).length = maxTransactionLength := by
  simp only [CString.length] at short ⊢
  simp only [List.length_append, List.length_cons, List.length_drop, size]
  omega

/-- `strcpy` into a slot. -/
def copyInto (memory : PoolMemory) (index : Nat) (string : CString) : Option PoolMemory :=
  if inside : index < memory.slots.length ∧ string.length < maxTransactionLength then
    some { memory with
      slots := memory.slots.set index (string.bytes ++ 0 :: memory.slots[index].drop (string.length + 1))
      array := List.length_set.trans memory.array
      sized := memory.set_sized (overwritten_length (memory.sized _ (List.getElem_mem inside.1)) inside.2) }
  else none

theorem copyInto_count {memory copied : PoolMemory} {index : Nat} {string : CString}
    (written : memory.copyInto index string = some copied) : copied.count = memory.count := by
  unfold copyInto at written
  split at written
  · rw [← Option.some.inj written]
  · cases written

/-- The loop of `mempool_remove_included` from slot `index` on. -/
def removeLoop (included : List CString) (memory : PoolMemory) (index : Nat) : Option PoolMemory :=
  if index < memory.count then
    match memory.read index with
    | none => none
    | some transaction =>
      if transaction ∈ included then
        if index ≠ memory.count - 1 then
          match _written : (memory.read (memory.count - 1)).bind (memory.copyInto index) with
          | none => none
          | some copied => removeLoop included { copied with count := memory.count - 1 } index
        else removeLoop included { memory with count := memory.count - 1 } index
      else removeLoop included memory (index + 1)
  else some memory
termination_by memory.count - index

def call (memory : PoolMemory) : PoolCall → Option (PoolReply × PoolMemory)
  | .add none => some (.added (.error .invalidArgument), memory)
  | .add (some transaction) =>
    if transaction.length = 0 ∨ transaction.length ≥ maxTransactionLength then
      some (.added (.error .invalidTransaction), memory)
    else if memory.count ≥ mempoolCapacity then some (.added (.error .invalidBlock), memory)
    else do
      let copied ← memory.copyInto memory.count transaction
      return (.added (.ok ()), { copied with count := memory.count + 1 })
  | .snapshot false _ => some (.copied [], memory)
  | .snapshot true maxCount => do
    let copied := if memory.count < maxCount then memory.count else maxCount
    return (.copied (← (List.range copied).mapM memory.read), memory)
  | .removeIncluded none => some (.removed, memory)
  | .removeIncluded (some included) => do return (.removed, ← memory.removeLoop included 0)

/-- The memory after some calls. -/
def run (memory : PoolMemory) (calls : List PoolCall) : Option PoolMemory :=
  calls.foldlM (fun memory call => (memory.call call).map Prod.snd) memory

/-- The strings in the slots that are counted. -/
def entries (memory : PoolMemory) : Option (List CString) := (List.range memory.count).mapM memory.read

end PoolMemory
end ProcessChain
